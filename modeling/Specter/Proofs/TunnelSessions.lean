import Specter.Handlers
import Specter.Lib.Rely

/-!
# What a step leaves of the sessions

What a session is does not change after it was made, a session that has ended stays ended, and the
time it is allowed is set only when it is activated, and when it is extended before it has run out.
-/

namespace Specter.Tunnel

variable (s : Session)

/-- What does not change about a session, and what does not come back. -/
structure Session.Evolves (s s' : Session) : Prop where
  sessionAlias : s'.sessionAlias = s.sessionAlias
  conn : s'.conn = s.conn
  mode : s'.mode = s.mode
  spki : s'.spki = s.spki
  certNotAfter : s'.certNotAfter = s.certNotAfter
  provisional : s'.state = .provisional → s.state = .provisional
  terminal : s.state = .terminal → s'.state = .terminal
  worker : s.state = .terminal → s.worker ≠ some false → s'.worker ≠ some false

theorem Session.Evolves.refl : s.Evolves s :=
  ⟨rfl, rfl, rfl, rfl, rfl, id, id, fun _ => id⟩

def Session.Lapses (s s' : Session) : Prop :=
  s'.state = .active → s.state = .active ∧ s'.authorizedUntil = s.authorizedUntil

def Session.Over (clock : ℤ) (s : Session) : Prop :=
  s.state = .terminal ∨ (s.state = .active ∧ s.mode = .delegated ∧ s.authorizedUntil ≤ clock)

def Session.SameAuthority (s s' : Session) : Prop :=
  s'.hostname = s.hostname ∧ s'.grantID = s.grantID ∧ s'.owner = s.owner

/-- What one critical section makes of its session. -/
structure Section.Makes (a : Section) (clock : ℤ) (s s' : Session) : Prop where
  evolves : s.Evolves s'
  authority : (∃ hostname grantID owner grantExpiry,
    a = .setAuthority hostname grantID owner grantExpiry) ∨ s.SameAuthority s'
  allowed : s.Lapses s' ∨
    (∃ deadline, a = .activate deadline ∧ s.state = .provisional ∧
      s'.authorizedUntil = deadline) ∨
    ∃ start expiry, a = .extend start expiry ∧ s.state = .active ∧ clock < s.authorizedUntil ∧
      s'.authorizedUntil = authorizationDeadline s.certNotAfter start expiry

theorem Section.Makes.same {a : Section} {clock : ℤ} : a.Makes clock s s :=
  ⟨.refl s, .inr ⟨rfl, rfl, rfl⟩, .inl fun h => ⟨h, rfl⟩⟩

namespace Registry

variable {r r' : Registry} {l : Label} {t i : ℕ} {s : Session} {time : ℤ} {err closed : Bool}
  {a : Act} {res : a.Res}

/-- What a step leaves of everything but the sessions. -/
structure Grows (r r' : Registry) : Prop where
  clock : r.clock ≤ r'.clock
  ended : ∀ c ∈ r.ended, c ∈ r'.ended
  answers : ∀ x ∈ r.answers, x ∈ r'.answers
  opener : ∀ {i : ℕ} {s : Session}, r.sessions[i]? = some s → r'.opener i = r.opener i

structure Later (r r' : Registry) : Prop extends r.Grows r' where
  sessions : ∀ {i : ℕ} {s : Session}, r.sessions[i]? = some s →
    ∃ s', r'.sessions[i]? = some s' ∧ s.Evolves s'

def core (r : Registry) : List Session × ℤ × List ℕ × List KvAnswer × (ℕ → ℕ) :=
  (r.sessions, r.clock, r.ended, r.answers, r.opener)

theorem core_eq (h : r'.core = r.core) : r.Grows r' ∧ r'.sessions = r.sessions := by
  simp only [core, Prod.mk.injEq] at h
  obtain ⟨hs, hc, he, ha, ho⟩ := h
  exact ⟨⟨hc.ge, fun c hc => he ▸ hc, fun x hx => ha ▸ hx, fun _ => congrFun ho _⟩, hs⟩

theorem reserve_eq : ∃ byAlias byConn, (r.reserve i s).2 = { r with byAlias, byConn } := by
  unfold reserve
  dsimp only
  split_ifs
  · exact ⟨_, _, rfl⟩
  · exact ⟨_, _, rfl⟩
  · split
    · exact ⟨_, _, rfl⟩
    · split_ifs <;> exact ⟨_, _, rfl⟩

/-- What a critical section may change: its own session, and what it makes of it. -/
structure Entered (a : Section) (i : ℕ) (s : Session) (r r' : Registry) : Prop
    extends r.Grows r' where
  sessions : ∃ f, r'.sessions = r.sessions.modify i f ∧ a.Makes r'.clock s (f s)

theorem entered_same {a : Section} (h : r'.core = r.core) : Entered a i s r r' :=
  ⟨(core_eq h).1, id, by simp [(core_eq h).2], .same s⟩

theorem entered_modify {a : Section} {f : Session → Session} (h : a.Makes r.clock s (f s)) :
    Entered a i s r (r.modify i f) :=
  ⟨⟨le_rfl, fun _ => id, fun _ => id, fun _ => rfl⟩, f, rfl, h⟩

theorem entered_timed {a : Section} {f : Registry → a.Res × Registry} {res : a.Res}
    (h : r.timed time f = some (res, r'))
    (hf : r.clock ≤ time → Entered a i s { r with clock := time } (f { r with clock := time }).2) :
    Entered a i s r r' := by
  unfold timed at h
  split_ifs at h with hle
  obtain rfl := congrArg Prod.snd (Option.some.inj h)
  obtain ⟨⟨hc, he, hx, ho⟩, hs⟩ := hf hle
  exact ⟨⟨hle.trans hc, he, hx, ho⟩, hs⟩

theorem entered_enter {a : Section} {res : a.Res}
    (h : r.enter time err closed i s a = some (res, r')) : Entered a i s r r' := by
  have hquiet : ∀ {f : Session → Session}, s.Evolves (f s) → s.SameAuthority (f s) →
      s.Lapses (f s) → Entered a i s r (r.modify i f) := fun he ha hl =>
    entered_modify ⟨he, .inr ha, .inl hl⟩
  cases a with
  | reserve =>
    obtain ⟨_, _, heq⟩ := reserve_eq (r := r) (i := i) (s := s)
    obtain rfl := congrArg Prod.snd (Option.some.inj h)
    rw [heq]
    exact entered_same rfl
  | setAuthority hostname grantID owner grantExpiry =>
    cases h
    exact entered_modify ⟨⟨rfl, rfl, rfl, rfl, rfl, id, id, fun _ => id⟩, .inl ⟨_, _, _, _, rfl⟩,
      .inl fun h => ⟨h, rfl⟩⟩
  | activate deadline =>
    simp only [enter] at h
    refine entered_timed h fun _ => ?_
    split_ifs with hno
    · exact entered_same rfl
    · have hprov : s.state = .provisional := not_not.1 fun h => hno (.inl h)
      refine entered_modify ⟨⟨rfl, rfl, rfl, rfl, rfl, nofun, fun h => ?_, fun h => ?_⟩,
        .inr ⟨rfl, rfl, rfl⟩, .inr (.inl ⟨deadline, rfl, hprov, rfl⟩)⟩
      · cases hprov.symm.trans h
      · cases hprov.symm.trans h
  | terminate =>
    cases h
    exact hquiet ⟨rfl, rfl, rfl, rfl, rfl, nofun, fun _ => rfl, fun _ => id⟩ ⟨rfl, rfl, rfl⟩ nofun
  | closeConn =>
    cases h
    split_ifs
    · exact ⟨⟨le_rfl, fun _ => List.mem_cons_of_mem _, fun _ => id, fun _ => rfl⟩, id, by simp,
        .same s⟩
    · exact entered_same rfl
  | dial hostname => exact entered_timed h fun _ => entered_same rfl
  | inspect start =>
    cases h
    exact entered_same rfl
  | extend start expiry =>
    simp only [enter] at h
    refine entered_timed h fun _ => ?_
    dsimp only
    split_ifs with hyes
    · obtain ⟨hactive, htime, -⟩ := hyes
      exact entered_modify ⟨⟨rfl, rfl, rfl, rfl, rfl, id, id, fun _ => id⟩, .inr ⟨rfl, rfl, rfl⟩,
        .inr (.inr ⟨start, expiry, rfl, hactive, htime, rfl⟩)⟩
    · exact entered_same rfl
  | expired => exact entered_timed h fun _ => entered_same rfl
  | isActive =>
    cases h
    exact entered_same rfl
  | startWorker =>
    simp only [enter] at h
    split_ifs at h with hno
    · cases h
      exact entered_same rfl
    · cases h
      have hactive : s.state = .active := not_not.1 fun h => hno (.inl h)
      refine hquiet ⟨rfl, rfl, rfl, rfl, rfl, id, id, fun h => ?_⟩ ⟨rfl, rfl, rfl⟩ fun h => ⟨h, rfl⟩
      cases hactive.symm.trans h
  | finishWorker =>
    cases h
    exact hquiet ⟨rfl, rfl, rfl, rfl, rfl, id, id, fun _ _ => nofun⟩ ⟨rfl, rfl, rfl⟩
      fun h => ⟨h, rfl⟩
  | cancelWorker =>
    cases h
    exact hquiet ⟨rfl, rfl, rfl, rfl, rfl, id, id, fun _ => id⟩ ⟨rfl, rfl, rfl⟩ fun h => ⟨h, rfl⟩
  | awaitCancel | awaitWorker | awaitDone =>
    simp only [enter] at h
    split_ifs at h
    cases h
    exact entered_same rfl
  | detach =>
    cases h
    exact hquiet ⟨rfl, rfl, rfl, rfl, rfl, nofun, fun _ => rfl, fun _ => id⟩ ⟨rfl, rfl, rfl⟩ nofun
  | remove =>
    cases h
    exact entered_same rfl

theorem exec_on {a : Section} {res : a.Res} (h : r.exec l t (.session (.on i a)) = some (res, r')) :
    ∃ s, r.sessions[i]? = some s ∧
      r.enter (l.answer .now) (l.answer .ctxErr) (l.answer .select) i s a = some (res, r') := by
  simp only [exec] at h
  split at h
  · cases h
  · exact ⟨_, ‹_›, h⟩

theorem exec_grows {a : Act} {res : a.Res} (h : r.exec l t a = some (res, r')) :
    r.Grows r' ∧ (r'.sessions = r.sessions ∨
      (∃ s, a = .session (.new s) ∧ r'.sessions = r.sessions ++ [s]) ∨
      ∃ i b s f, a = .session (.on i b) ∧ r.sessions[i]? = some s ∧
        r'.sessions = r.sessions.modify i f ∧ b.Makes r'.clock s (f s)) := by
  cases a with
  | session a =>
    cases a with
    | new s =>
      cases h
      exact ⟨⟨le_rfl, fun _ => id, fun _ => id, fun hs =>
        Function.update_of_ne (List.getElem?_eq_some_iff.1 hs).1.ne _ _⟩, .inr (.inl ⟨s, rfl, rfl⟩)⟩
    | on i b =>
      obtain ⟨s, hs, he⟩ := exec_on h
      obtain ⟨hgrows, f, hf, hmakes⟩ := entered_enter he
      exact ⟨hgrows, .inr (.inr ⟨i, b, s, f, rfl, hs, hf, hmakes⟩)⟩
    | disconnect conn =>
      cases h
      exact ⟨⟨le_rfl, fun _ => List.mem_cons_of_mem _, fun _ => id, fun _ => rfl⟩, .inl rfl⟩
    | lookup | shutdown =>
      cases h
      exact And.imp_right .inl (core_eq (by rfl))
  | now =>
    simp only [exec, timed] at h
    split_ifs at h with hle
    cases h
    exact ⟨⟨hle, fun _ => id, fun _ => id, fun _ => rfl⟩, .inl rfl⟩
  | kv op =>
    cases h
    exact ⟨⟨le_rfl, fun _ => id, fun _ => List.mem_cons_of_mem _, fun _ => rfl⟩, .inl rfl⟩
  | ctxErr | lookupCNAME | next | select | arrive | begin | finish =>
    cases h
    exact And.imp_right .inl (core_eq (by rfl))

theorem session_exec (h : r.exec l t a = some (res, r')) (hs : r.sessions[i]? = some s) :
    ∃ s', r'.sessions[i]? = some s' ∧
      (s' = s ∨ ∃ b, a = .session (.on i b) ∧ b.Makes r'.clock s s') := by
  obtain heq | ⟨sn, -, heq⟩ | ⟨j, b, sj, f, rfl, hj, heq, hmakes⟩ := (exec_grows h).2
  · exact ⟨s, heq ▸ hs, .inl rfl⟩
  · refine ⟨s, ?_, .inl rfl⟩
    rw [heq]
    exact (List.getElem?_append_left (List.getElem?_eq_some_iff.1 hs).1).trans hs
  · rw [heq, List.getElem?_modify, hs]
    by_cases hij : j = i
    · subst hij
      obtain rfl := Option.some.inj (hj.symm.trans hs)
      exact ⟨f sj, by simp, .inr ⟨b, rfl, hmakes⟩⟩
    · exact ⟨s, by simp [hij], .inl rfl⟩

theorem exec_session {s' : Session} (h : r.exec l t a = some (res, r'))
    (hs' : r'.sessions[i]? = some s') : a = .session (.new s') ∨ ∃ s, r.sessions[i]? = some s ∧
      (s' = s ∨ ∃ b, a = .session (.on i b) ∧ b.Makes r'.clock s s') := by
  rcases hs : r.sessions[i]? with _ | s
  · left
    rw [List.getElem?_eq_none_iff] at hs
    have hlt := (List.getElem?_eq_some_iff.1 hs').1
    obtain heq | ⟨sn, rfl, heq⟩ | ⟨j, b, sj, f, rfl, hj, heq, hmakes⟩ := (exec_grows h).2
    · rw [heq] at hlt
      omega
    · rw [heq, List.getElem?_append_right hs, List.getElem?_singleton] at hs'
      split_ifs at hs'
      rw [Option.some.inj hs']
    · rw [heq, List.length_modify] at hlt
      omega
  · obtain ⟨s'', hs'', hor⟩ := session_exec h hs
    obtain rfl := Option.some.inj (hs'.symm.trans hs'')
    exact .inr ⟨s, rfl, hor⟩

theorem later_exec (h : r.exec l t a = some (res, r')) : r.Later r' where
  sessions hs := by
    obtain ⟨s', hs', rfl | ⟨b, -, hmakes⟩⟩ := session_exec h hs
    · exact ⟨_, hs', .refl _⟩
    · exact ⟨s', hs', hmakes.evolves⟩
  toGrows := (exec_grows h).1

theorem over_exec (h : r.exec l t a = some (res, r')) (hs : r.sessions[i]? = some s)
    (ho : s.Over r.clock) : ∃ s', r'.sessions[i]? = some s' ∧ s'.Over r'.clock := by
  have hle := (exec_grows h).1.clock
  obtain ⟨s', hs', rfl | ⟨b, -, hmakes⟩⟩ := session_exec h hs
  · exact ⟨s', hs', ho.imp_right fun ho => ⟨ho.1, ho.2.1, ho.2.2.trans hle⟩⟩
  refine ⟨s', hs', ?_⟩
  rcases ho with hterm | ⟨hactive, hmode, huntil⟩
  · exact .inl (hmakes.evolves.terminal hterm)
  rcases hstate : s'.state with _ | _ | _
  · cases hactive.symm.trans (hmakes.evolves.provisional hstate)
  · refine .inr ⟨hstate, hmakes.evolves.mode.trans hmode, ?_⟩
    rcases hmakes.allowed with hlapse | ⟨_, _, hprov, _⟩ | ⟨_, _, _, _, hlt, _⟩
    · exact (hlapse hstate).2.trans_le (huntil.trans hle)
    · cases hactive.symm.trans hprov
    · omega
  · exact .inl hstate

theorem exec_dial {hostname : Hostname}
    (h : r.exec l t (.session (.on i (.dial hostname))) = some (true, r')) :
    ∃ s, r.sessions[i]? = some s ∧ s.state = .active ∧ r.clock ≤ r'.clock ∧
      (s.mode = .delegated → r'.clock < s.authorizedUntil) := by
  obtain ⟨s, hs, he⟩ := exec_on h
  simp only [enter, timed] at he
  split_ifs at he with hle
  simp only [Option.some.injEq, Prod.mk.injEq, decide_eq_true_eq] at he
  obtain ⟨⟨hactive, -, -, htime, -⟩, rfl⟩ := he
  exact ⟨s, hs, hactive, hle, htime⟩

theorem not_dial_of_over {hostname : Hostname} (hs : r.sessions[i]? = some s)
    (ho : s.Over r.clock) :
    r.exec l t (.session (.on i (.dial hostname))) ≠ some (true, r') := by
  intro h
  obtain ⟨s', hs', hactive, hle, htime⟩ := exec_dial h
  obtain rfl := Option.some.inj (hs.symm.trans hs')
  rcases ho with hterm | ⟨-, hmode, huntil⟩
  · cases hactive.symm.trans hterm
  · have := htime hmode
    omega

end Registry

end Specter.Tunnel
