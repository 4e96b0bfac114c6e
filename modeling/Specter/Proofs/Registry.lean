import Specter.Proofs.Handlers
import Specter.Proofs.TunnelSessions
import Specter.Proofs.TunnelStore

/-!
# The tables of sessions

Only `reserve` adds to the tables of sessions, and only the watch of a session takes its entries
away, after the connection has ended and the worker of the session has finished.
-/

namespace Specter.Tunnel

open Lib (Prog Rules)

variable {a : Act}

namespace Registry

variable {res : a.Res} {conn : ℕ}

/-- At most `maxSessions` sessions are registered, one per connection, and the sessions that have
an alias are among them, under their own alias. -/
structure Consistent (r : Registry) : Prop where
  bounded : r.byConn.length ≤ maxSessions
  distinct : (r.byConn.map Prod.fst).Nodup
  attached : ∀ {conn i}, (conn, i) ∈ r.byConn → ∃ s, r.sessions[i]? = some s ∧ s.conn = conn
  registered : ∀ {sessionAlias i}, r.byAlias sessionAlias = some i →
    ∃ s, r.sessions[i]? = some s ∧ s.sessionAlias = sessionAlias ∧ (s.conn, i) ∈ r.byConn

/-- The connection of the session has ended, and the worker that it recorded, if any, has
finished. -/
def Finished (r : Registry) (i : ℕ) : Prop :=
  ∃ s, r.sessions[i]? = some s ∧ s.conn ∈ r.ended ∧ s.worker ≠ some false

/-- What a step may do to the tables: an alias is handed over only by a session that is terminal or
on a connection that has ended, and to an ephemeral one only from one with the same key and
hostname; entries go only when the session has finished. -/
structure Passes (r r' : Registry) : Prop where
  handed : ∀ {sessionAlias i j}, r.byAlias sessionAlias = some i →
    r'.byAlias sessionAlias = some j → j ≠ i → ∃ old s, r.sessions[i]? = some old ∧
      r.sessions[j]? = some s ∧ (old.state = .terminal ∨ old.conn ∈ r.ended) ∧
      (s.mode = .ephemeral → old.spki = s.spki ∧ old.hostname = s.hostname)
  leaves : ∀ {conn i}, (conn, i) ∈ r.byConn → (conn, i) ∉ r'.byConn → r.Finished i
  unnamed : ∀ {sessionAlias i}, r.byAlias sessionAlias = some i →
    r'.byAlias sessionAlias = none → r.Finished i

structure KeepsOthers (i : ℕ) (r r' : Registry) : Prop where
  byAlias : ∀ {sessionAlias j}, j ≠ i → r.byAlias sessionAlias = some j →
    r'.byAlias sessionAlias = some j
  byConn : ∀ {conn j}, j ≠ i → (conn, j) ∈ r.byConn → (conn, j) ∈ r'.byConn

variable {r r' : Registry} {l : Label} {t i : ℕ} {s : Session}

theorem reserve_cases (r : Registry) (i : ℕ) (s : Session) :
    (r.reserve i s).2 = r ∨
    (r.byConn.lookup s.conn = none ∧ r.byConn.length < maxSessions ∧
      (r.reserve i s).2.byConn = (s.conn, i) :: r.byConn ∧
      ((r.reserve i s).2.byAlias = r.byAlias ∨
        (r.reserve i s).2.byAlias = Function.update r.byAlias s.sessionAlias (some i) ∧
        ∀ old, (r.byAlias s.sessionAlias).bind (r.sessions[·]?) = some old →
          (old.state = .terminal ∨ old.conn ∈ r.ended) ∧
          (s.mode = .ephemeral → old.spki = s.spki ∧ old.hostname = s.hostname))) := by
  unfold reserve
  dsimp only
  split_ifs with hconn hfull
  · exact .inl rfl
  · exact .inl rfl
  have hfree : r.byConn.lookup s.conn = none := Option.not_isSome_iff_eq_none.1 hconn
  have hroom : r.byConn.length < maxSessions := Nat.not_le.1 hfull
  right
  split
  · rename_i hnone
    exact ⟨hfree, hroom, rfl, .inr ⟨rfl, fun old hold => by cases hnone.symm.trans hold⟩⟩
  rename_i old hold
  split_ifs with hcollision hattached
  · exact ⟨hfree, hroom, rfl, .inl rfl⟩
  · exact ⟨hfree, hroom, rfl, .inl rfl⟩
  · refine ⟨hfree, hroom, rfl, .inr ⟨rfl, fun old' hold' => ?_⟩⟩
    obtain rfl := Option.some.inj (hold.symm.trans hold')
    refine ⟨?_, fun hmode => ?_⟩
    · by_contra hno
      rw [not_or] at hno
      exact hattached ⟨hno.1, by simpa [connectionDone] using hno.2⟩
    · by_contra hno
      rw [not_and_or] at hno
      exact hcollision ⟨hmode, hno⟩

theorem mem_unique (hc : r.Consistent) {j : ℕ} (hi : (conn, i) ∈ r.byConn)
    (hj : (conn, j) ∈ r.byConn) : i = j := by
  have hinj := List.inj_on_of_nodup_map hc.distinct hi hj rfl
  exact congrArg Prod.snd hinj

theorem mem_of_lookup (h : r.byConn.lookup conn = some i) : (conn, i) ∈ r.byConn := by
  obtain ⟨l₁, l₂, heq, -⟩ := List.lookup_eq_some_iff.1 h
  simp [heq]

theorem remove_keepsOthers (hc : r.Consistent) : KeepsOthers i r (r.remove i s) where
  byAlias {sessionAlias j} hne hj := by
    simp only [remove]
    split_ifs with hmine
    · have : sessionAlias ≠ s.sessionAlias := by
        rintro rfl
        exact hne (Option.some.inj (hj.symm.trans hmine))
      simpa [this] using hj
    · exact hj
  byConn {conn j} hne hj := by
    simp only [remove]
    split_ifs with hmine
    · have : conn ≠ s.conn := by
        rintro rfl
        exact hne (mem_unique hc hj (mem_of_lookup hmine))
      simp [hj, this]
    · exact hj

theorem tables_exec (h : r.exec l t a = some (res, r')) :
    (r'.byAlias = r.byAlias ∧ r'.byConn = r.byConn) ∨
    (∃ i s, a = .session (.on i .reserve) ∧ r.sessions[i]? = some s ∧ r' = (r.reserve i s).2) ∨
    ∃ i s, a = .session (.on i .remove) ∧ r.sessions[i]? = some s ∧ r' = r.remove i s := by
  cases a with
  | session a =>
    cases a with
    | on i b =>
      obtain ⟨s, hs, he⟩ := exec_on h
      cases b with
      | reserve =>
        exact .inr (.inl ⟨i, s, rfl, hs, (congrArg Prod.snd (Option.some.inj he)).symm⟩)
      | remove =>
        cases he
        exact .inr (.inr ⟨i, s, rfl, hs, rfl⟩)
      | activate | dial | extend | expired | startWorker | awaitCancel | awaitWorker | awaitDone =>
        simp only [enter, timed] at he
        split_ifs at he <;> cases he <;> (try dsimp only) <;> exact .inl ⟨rfl, rfl⟩
      | closeConn =>
        cases he
        split_ifs <;> exact .inl ⟨rfl, rfl⟩
      | setAuthority | terminate | inspect | isActive | finishWorker | cancelWorker | detach =>
        cases he
        exact .inl ⟨rfl, rfl⟩
    | new | lookup | disconnect | shutdown =>
      cases h
      exact .inl ⟨rfl, rfl⟩
  | now =>
    simp only [exec, timed] at h
    split_ifs at h
    cases h
    exact .inl ⟨rfl, rfl⟩
  | kv | ctxErr | lookupCNAME | next | select | arrive | begin | finish =>
    cases h
    exact .inl ⟨rfl, rfl⟩

theorem consistent_reserve (hc : r.Consistent) (hs : r.sessions[i]? = some s) :
    (r.reserve i s).2.Consistent := by
  have hsessions : (r.reserve i s).2.sessions = r.sessions := by
    obtain ⟨_, _, heq⟩ := reserve_eq (r := r) (i := i) (s := s)
    rw [heq]
  obtain heq | ⟨hfree, hroom, hConn, hAlias⟩ := reserve_cases r i s
  · rw [heq]
    exact hc
  have hregistered : ∀ {sessionAlias j}, r.byAlias sessionAlias = some j → ∃ sj,
      r.sessions[j]? = some sj ∧ sj.sessionAlias = sessionAlias ∧
        (sj.conn, j) ∈ (s.conn, i) :: r.byConn := fun hj => by
    obtain ⟨sj, hsj, halias, hmem⟩ := hc.registered hj
    exact ⟨sj, hsj, halias, List.mem_cons_of_mem _ hmem⟩
  refine ⟨?_, ?_, fun hmem => ?_, fun {sessionAlias j} hj => ?_⟩
  · rw [hConn]
    exact hroom
  · rw [hConn, List.map_cons, List.nodup_cons]
    refine ⟨fun hmem => ?_, hc.distinct⟩
    obtain ⟨p, hp, hpc⟩ := List.mem_map.1 hmem
    have := List.lookup_eq_none_iff.1 hfree p hp
    simp [hpc] at this
  · rw [hsessions]
    rcases List.mem_cons.1 (hConn ▸ hmem) with heq | hmem
    · cases heq
      exact ⟨s, hs, rfl⟩
    · exact hc.attached hmem
  · rw [hsessions, hConn]
    rcases hAlias with hAlias | ⟨hAlias, -⟩
    · exact hregistered (hAlias ▸ hj)
    · rw [hAlias] at hj
      by_cases heq : sessionAlias = s.sessionAlias
      · subst heq
        simp only [Function.update_self, Option.some.injEq] at hj
        subst hj
        exact ⟨s, hs, rfl, List.mem_cons_self ..⟩
      · rw [Function.update_of_ne heq] at hj
        exact hregistered hj

theorem consistent_remove (hc : r.Consistent) (hs : r.sessions[i]? = some s) :
    (r.remove i s).Consistent := by
  have hkeeps := remove_keepsOthers (i := i) (s := s) hc
  have hsub : ∀ p ∈ (r.remove i s).byConn, p ∈ r.byConn := by
    intro p hp
    simp only [remove] at hp
    split_ifs at hp
    · exact List.mem_of_mem_filter hp
    · exact hp
  refine ⟨?_, ?_, fun hmem => hc.attached (hsub _ hmem), fun {sessionAlias j} hj => ?_⟩
  · simp only [remove]
    split_ifs
    · exact (List.length_filter_le _ _).trans hc.bounded
    · exact hc.bounded
  · simp only [remove]
    split_ifs
    · exact hc.distinct.sublist (List.filter_sublist.map _)
    · exact hc.distinct
  · have hold : r.byAlias sessionAlias = some j ∧
        (sessionAlias = s.sessionAlias → r.byAlias sessionAlias ≠ some i) := by
      simp only [remove] at hj
      split_ifs at hj with hmine
      · by_cases heq : sessionAlias = s.sessionAlias
        · subst heq
          simp at hj
        · rw [Function.update_of_ne heq] at hj
          exact ⟨hj, fun h => absurd h heq⟩
      · exact ⟨hj, fun h => h ▸ hmine⟩
    obtain ⟨sj, hsj, halias, hmem⟩ := hc.registered hold.1
    have hne : j ≠ i := by
      rintro rfl
      obtain rfl := Option.some.inj (hs.symm.trans hsj)
      exact hold.2 halias.symm hold.1
    exact ⟨sj, hsj, halias, hkeeps.byConn hne hmem⟩

theorem consistent_exec (h : r.exec l t a = some (res, r')) (hc : r.Consistent) :
    r'.Consistent := by
  have hlater := later_exec h
  obtain ⟨hAlias, hConn⟩ | ⟨i, s, -, hs, rfl⟩ | ⟨i, s, -, hs, rfl⟩ := tables_exec h
  · refine ⟨hConn ▸ hc.bounded, hConn ▸ hc.distinct, fun hmem => ?_, fun hj => ?_⟩
    · obtain ⟨s, hs, hconn⟩ := hc.attached (hConn ▸ hmem)
      obtain ⟨s', hs', he⟩ := hlater.sessions hs
      exact ⟨s', hs', he.conn.trans hconn⟩
    · obtain ⟨s, hs, halias, hmem⟩ := hc.registered (hAlias ▸ hj)
      obtain ⟨s', hs', he⟩ := hlater.sessions hs
      exact ⟨s', hs', he.sessionAlias.trans halias, by rw [hConn, he.conn]; exact hmem⟩
  · exact consistent_reserve hc hs
  · exact consistent_remove hc hs

theorem passes_exec (h : r.exec l t a = some (res, r')) (hc : r.Consistent)
    (hremove : ∀ i, a = .session (.on i .remove) → r.Finished i) : r.Passes r' := by
  obtain ⟨hAlias, hConn⟩ | ⟨i, s, -, hs, rfl⟩ | ⟨i, s, rfl, hs, rfl⟩ := tables_exec h
  · refine ⟨fun hi hj hne => ?_, fun hi hno => absurd (hConn ▸ hi) hno, fun hi hno => ?_⟩
    · rw [hAlias, hi] at hj
      exact absurd (Option.some.inj hj).symm hne
    · rw [hAlias, hi] at hno
      cases hno
  · obtain heq | ⟨-, -, hConn, hAlias⟩ := reserve_cases r i s
    · rw [heq]
      refine ⟨fun hi hj hne => ?_, fun hi hno => absurd hi hno, fun hi hno => ?_⟩
      · exact absurd (Option.some.inj (hi.symm.trans hj)).symm hne
      · cases hi.symm.trans hno
    refine ⟨fun {sessionAlias k j} hk hj hne => ?_,
      fun hi hno => absurd (hConn ▸ List.mem_cons_of_mem _ hi) hno,
      fun {sessionAlias k} hk hno => ?_⟩
    · rcases hAlias with hAlias | ⟨hAlias, hold⟩
      · rw [hAlias, hk] at hj
        exact absurd (Option.some.inj hj).symm hne
      · rw [hAlias] at hj
        by_cases heq : sessionAlias = s.sessionAlias
        · subst heq
          simp only [Function.update_self, Option.some.injEq] at hj
          subst hj
          obtain ⟨old, hso, -, -⟩ := hc.registered hk
          obtain ⟨hover, hsame⟩ := hold old (by rw [hk]; exact hso)
          exact ⟨old, s, hso, hs, hover, hsame⟩
        · rw [Function.update_of_ne heq, hk] at hj
          exact absurd (Option.some.inj hj).symm hne
    · rcases hAlias with hAlias | ⟨hAlias, -⟩
      · rw [hAlias, hk] at hno
        cases hno
      · rw [hAlias] at hno
        by_cases heq : sessionAlias = s.sessionAlias
        · subst heq
          simp at hno
        · rw [Function.update_of_ne heq, hk] at hno
          cases hno
  · have hkeeps := remove_keepsOthers (i := i) (s := s) hc
    have hfinished := hremove i rfl
    refine ⟨fun {sessionAlias k j} hk hj hne => ?_, fun {conn k} hk hno => ?_,
      fun {sessionAlias k} hk hno => ?_⟩
    · by_cases hki : k = i
      · subst hki
        simp only [remove] at hj
        split_ifs at hj with hmine
        · by_cases heq : sessionAlias = s.sessionAlias
          · subst heq
            simp at hj
          · rw [Function.update_of_ne heq, hk] at hj
            exact absurd (Option.some.inj hj).symm hne
        · exact absurd (Option.some.inj (hk.symm.trans hj)).symm hne
      · exact absurd (Option.some.inj ((hkeeps.byAlias hki hk).symm.trans hj)).symm hne
    · by_cases hki : k = i
      · exact hki ▸ hfinished
      · exact absurd (hkeeps.byConn hki hk) hno
    · by_cases hki : k = i
      · exact hki ▸ hfinished
      · cases (hkeeps.byAlias hki hk).symm.trans hno

theorem Passes.refl (r : Registry) : r.Passes r where
  handed hi hj hne := absurd (Option.some.inj (hi.symm.trans hj)).symm hne
  leaves hi hno := absurd hi hno
  unnamed hi hno := by cases hi.symm.trans hno

end Registry

namespace Tables

def tableRules (g : Given) : Rules (tunnelSessions g) where
  ok _ := True
  known _ _ _ := True
  inv := Registry.Consistent
  guar _ r r' := r.Later r' ∧ r.Passes r'
  fresh _ _ := True
  pre _ _ := True
  post _ _ := True

section

variable {g : Given} {t i : ℕ} {l : Label} {r r' : Registry} {P : Registry → Prop}

/-- A step that keeps the tables consistent, and takes nothing out of them too early. -/
def SparesTables (_ : ℕ) (r r' : Registry) : Prop :=
  r.Later r' ∧ (r.Consistent → r'.Consistent ∧ r.Passes r')

def Act.KeepsTables (a : Act) : Prop := ∀ i, a ≠ .session (.on i .remove)

theorem neutral_tables : (tableRules g).Neutral SparesTables t Act.KeepsTables where
  step ha _ he := ⟨Registry.later_exec (t := t) he, fun hc =>
    ⟨Registry.consistent_exec (t := t) he hc,
      Registry.passes_exec (t := t) he hc fun i h => absurd h (ha i)⟩⟩
  keeps h hi := ⟨(h.2 hi).1, h.1, (h.2 hi).2⟩

theorem firm_later (h : ∀ {r r'}, r.Later r' → P r → P r') : (tableRules g).Firm SparesTables t P :=
  ⟨fun _ _ _ _ _ _ hg _ => h hg.1, fun hn => h hn.1⟩

def Ended (i : ℕ) (r : Registry) : Prop :=
  ∃ s, r.sessions[i]? = some s ∧ s.conn ∈ r.ended

/-- The session has ended, too, so that no worker will be recorded any more. -/
def Stopped (i : ℕ) (r : Registry) : Prop :=
  ∃ s, r.sessions[i]? = some s ∧ s.conn ∈ r.ended ∧ s.state = .terminal

def Retired (i : ℕ) (r : Registry) : Prop :=
  ∃ s, r.sessions[i]? = some s ∧ s.conn ∈ r.ended ∧ s.state = .terminal ∧ s.worker ≠ some false

theorem firm_ended (i : ℕ) : (tableRules g).Firm SparesTables t (Ended i) :=
  firm_later fun h ⟨s, hs, hended⟩ => by
    obtain ⟨s', hs', he⟩ := h.sessions hs
    exact ⟨s', hs', he.conn ▸ h.ended _ hended⟩

theorem firm_stopped (i : ℕ) : (tableRules g).Firm SparesTables t (Stopped i) :=
  firm_later fun h ⟨s, hs, hended, hterm⟩ => by
    obtain ⟨s', hs', he⟩ := h.sessions hs
    exact ⟨s', hs', he.conn ▸ h.ended _ hended, he.terminal hterm⟩

theorem firm_retired (i : ℕ) : (tableRules g).Firm SparesTables t (Retired i) :=
  firm_later fun h ⟨s, hs, hended, hterm, hworker⟩ => by
    obtain ⟨s', hs', he⟩ := h.sessions hs
    exact ⟨s', hs', he.conn ▸ h.ended _ hended, he.terminal hterm, he.worker hterm hworker⟩

theorem triple_entered (a : Act) {Q : a.Res → Registry → Prop} (hP : (tableRules g).Stable t P)
    (hQ : ∀ res, (tableRules g).Stable t (Q res))
    (hremove : ∀ r i, P r → a = .session (.on i .remove) → r.Finished i)
    (h : ∀ r l res r', P r → r.exec l t a = some (res, r') → Q res r') :
    (tableRules g).Triple t P (Prog.perform (S := tunnelSig) a) Q :=
  .perform hP hQ fun r l res r' hi hs _ he _ =>
    ⟨Registry.consistent_exec (t := t) he hi, ⟨Registry.later_exec (t := t) he,
      Registry.passes_exec (t := t) he hi fun i => hremove r i hs⟩, h r l res r' hs he⟩

theorem keeps_of_session (h : a.isSession = true) : Act.KeepsTables a := by
  rintro i rfl
  cases h

theorem triple_watch : (tableRules g).Triple t (fun _ => True) (watch i) fun _ _ => True := by
  have hremove : (tableRules g).Triple t (Retired i) (onSession i .remove) fun _ _ => True := by
    refine triple_entered (.session (.on i .remove)) (firm_retired i).stable (fun _ => .const True)
      (fun r j hs hj => ?_) fun _ _ _ _ _ _ => trivial
    cases hj
    obtain ⟨s, hs, hended, -, hworker⟩ := hs
    exact ⟨s, hs, hended, hworker⟩
  have hcancel : (tableRules g).Triple t (Stopped i) (onSession i .cancelWorker)
      fun _ => Stopped i :=
    neutral_tables.triple (firm_stopped i) (ψ := fun _ => False) (fun _ => False.elim)
      (only_onSession (keeps_of_session rfl))
  refine .bind (triple_entered (.session (.on i .awaitDone)) (.const True)
    (fun _ => (firm_ended i).stable) (fun _ _ _ h => by cases h)
    fun r l res r' _ he => ?_) fun _ => ?_
  · obtain ⟨s, hs, he⟩ := Registry.exec_on he
    simp only [Registry.enter] at he
    split_ifs at he with hdone
    cases he
    exact ⟨s, hs, by simpa [Registry.connectionDone] using hdone⟩
  -- A worker is seen here, or there is none and none can be recorded later.
  refine .bind (triple_entered (.session (.on i .detach)) (firm_ended i).stable
    (Q := fun b r => Stopped i r ∧ (b = false → Retired i r))
    (fun b => ((firm_stopped i).and ((firm_retired i).imp _)).stable)
    (fun _ _ _ h => by cases h) fun r l res r' hs he => ?_) fun (b : Bool) => ?_
  · obtain ⟨s, hsi, hended⟩ := hs
    obtain ⟨s', hs', he⟩ := Registry.exec_on he
    obtain rfl := Option.some.inj (hsi.symm.trans hs')
    cases he
    have hterm : (r.modify i Registry.terminate).sessions[i]? = some (Registry.terminate s) := by
      simp [Registry.modify, hsi]
    refine ⟨⟨_, hterm, hended, rfl⟩, fun hb => ⟨_, hterm, hended, rfl, ?_⟩⟩
    rw [Option.isSome_eq_false_iff, Option.isNone_iff_eq_none] at hb
    change s.worker ≠ some false
    simp [hb]
  split_ifs with hb
  · refine .bind (hcancel.pre fun _ _ h => h.1) fun _ => ?_
    refine .bind (triple_entered (.session (.on i .awaitWorker)) (firm_stopped i).stable
      (fun _ => (firm_retired i).stable) (fun _ _ _ h => by cases h)
      fun r l res r' hs he => ?_) fun _ => hremove
    obtain ⟨s, hsi, hended, hterm⟩ := hs
    obtain ⟨s', hs', he⟩ := Registry.exec_on he
    obtain rfl := Option.some.inj (hsi.symm.trans hs')
    simp only [Registry.enter] at he
    split_ifs at he with hworker
    cases he
    exact ⟨s, hsi, hended, hterm, by simp [hworker]⟩
  · exact hremove.pre fun _ _ h => h.2 (by simpa using hb)

theorem triple_tables (τ : Task) :
    (tableRules g).Triple t (fun _ => True) (body g τ) fun _ _ => True := by
  have hr : ∀ a : Act, a.isReading = true → Act.KeepsTables a := by
    rintro _ h i rfl
    cases h
  have hl : ∀ a : Act, a.isLease = true → Act.KeepsTables a := by
    rintro _ h i rfl
    cases h
  have hs : ∀ a : Act, a.isSession = true → Act.KeepsTables a := fun a h => keeps_of_session h
  have ho : ∀ a : Act, a.isOpening = true → Act.KeepsTables a := by
    rintro _ h i rfl
    cases h
  have hn : ∀ a : Act, a.isRenewing = true → Act.KeepsTables a := by
    rintro _ h i rfl
    cases h
  have honly : ∀ {p : Rpc Unit}, p.Only Act.KeepsTables (fun _ => True) →
      (tableRules g).Triple t (fun _ => True) p fun _ _ => True :=
    fun hp => neutral_tables.triple (.const True) (fun _ _ _ _ _ => trivial) hp
  cases τ with
  | watch i => exact triple_watch
  | call site c =>
    refine honly (.act nofun fun _ => ?_)
    exact .bind (only_prog hr hl hs (fun _ _ => trivial) (fun _ => ho) (fun _ _ => nofun)
      site) fun _ => .perform nofun
  | dial sessionAlias hostname => exact honly (only_dialTask hs g _ _)
  | disconnect | shutdown => exact honly (.perform (hs _ rfl))
  | arrive => exact honly (.perform nofun)
  | _ =>
    exact honly (only_sessionTask hr hs (fun _ _ => trivial) g rfl (fun _ _ => hn)
      fun _ h => by cases h)

theorem closed_tableRules : (tableRules g).Closed where
  stable _ := .const _
  safe τ _ s hi _ := triple_tables τ s hi trivial

end

end Tables

open Tunnel.Tables

/-- In every run the tables are consistent, every step hands aliases over and drops entries only as
it may, and what the watch of a session removes are the entries of that session. -/
theorem session_tables_consistent (g : Given) (tasks : List Task) (clock : ℤ)
    {sched : List (ℕ × Label)} {c : Lib.Config tunnelSig Registry}
    (hrun : (tunnelSessions g).run sched ((tunnelSessions g).launch tasks (.start clock)) =
      some c) :
    c.shared.Consistent ∧
    ∀ t l c', (tunnelSessions g).step t l c = some c' → c.shared.Passes c'.shared ∧
      ∀ i k, c.threads[t]? = some (.act (.session (.on i .remove)) k) →
        c.shared.KeepsOthers i c'.shared := by
  have hinv : Registry.Consistent (.start clock) :=
    ⟨Nat.zero_le _, List.nodup_nil, nofun, nofun⟩
  have hgood : (tableRules g).Good ((tunnelSessions g).launch tasks (.start clock)) :=
    Rules.good_launch hinv (fun _ _ => trivial) fun t τ _ => triple_tables τ _ hinv trivial
  have hfollows : (tableRules g).Follows sched ((tunnelSessions g).launch tasks (.start clock)) :=
    (Rules.follows_of_run (φ := fun _ => True) (fun _ _ => ⟨trivial, trivial⟩)
      (fun _ _ => trivial) hrun trivial).2
  have hend := Rules.good_run closed_tableRules hgood hfollows hrun
  refine ⟨hend.1, fun t l c' hstep => ⟨?_, fun i k hk => ?_⟩⟩
  · rcases (Rules.good_step closed_tableRules hend hstep trivial trivial).2 with hg | heq
    · exact hg.2
    · rw [heq]
      exact .refl _
  · obtain ⟨a, k', res, r', hp, he, rfl⟩ | ⟨τ, k', hp, -⟩ := Lib.Machine.step_cases _ hstep
    · cases hk.symm.trans hp
      obtain ⟨s, -, he⟩ := Registry.exec_on (t := t) he
      cases he
      exact Registry.remove_keepsOthers hend.1
    · cases hk.symm.trans hp

/-- An ephemeral session on connection 1, the end of that connection, and an Open with a token on
connection 2 that draws the alias of the session. -/
def rebound : List Task :=
  [.call .plain (.openEphemeralSession 1 [1] second), .disconnect 1,
    .call .plain (.openDelegatedSession 2 second "" 1 (List.replicate 16 0))]

theorem session_tables_consistent_rebound :
    ∃ c c', (tunnelSessions .plain).run (turns 0 6 ++ turns 1 1 ++ turns 2 2)
        ((tunnelSessions .plain).launch rebound (.start 0)) = some c ∧
      (tunnelSessions .plain).step 2 .plain c = some c' ∧
      c.shared.Consistent ∧ c.shared.Passes c'.shared := by
  have h : ((tunnelSessions .plain).run (turns 0 6 ++ turns 1 1 ++ turns 2 2)
      ((tunnelSessions .plain).launch rebound (.start 0))).map
        (fun c => ((tunnelSessions .plain).step 2 .plain c).isSome) = some true := by
    decide +kernel
  obtain ⟨c, hrun, hc⟩ := Option.map_eq_some_iff.1 h
  obtain ⟨c', hstep⟩ := Option.isSome_iff_exists.1 hc
  obtain ⟨hconsistent, hpasses⟩ := session_tables_consistent .plain rebound 0 hrun
  exact ⟨c, c', hrun, hstep, hconsistent, (hpasses 2 .plain c' hstep).1⟩

/-- The alias of an ephemeral session passes to a session with a token, which has no key. -/
theorem ephemeral_alias_passes_to_token :
    ∃ c c' old s, (tunnelSessions .plain).run (turns 0 6 ++ turns 1 1 ++ turns 2 2)
        ((tunnelSessions .plain).launch rebound (.start 0)) = some c ∧
      (tunnelSessions .plain).step 2 .plain c = some c' ∧
      c.shared.byAlias (aliasOf (List.replicate 16 0)) = some 0 ∧
      c'.shared.byAlias (aliasOf (List.replicate 16 0)) = some 1 ∧
      c.shared.sessions[0]? = some old ∧ c.shared.sessions[1]? = some s ∧
      old.mode = .ephemeral ∧ old.spki ≠ s.spki := by
  have h : ((tunnelSessions .plain).run (turns 0 6 ++ turns 1 1 ++ turns 2 2)
      ((tunnelSessions .plain).launch rebound (.start 0))).map
        (fun c => (((tunnelSessions .plain).step 2 .plain c).map
            fun c' => c'.shared.byAlias (aliasOf (List.replicate 16 0)),
          c.shared.byAlias (aliasOf (List.replicate 16 0)),
          c.shared.sessions.map fun s => (s.mode, s.spki))) =
      some (some (some 1), some 0, [(.ephemeral, [1]), (.delegated, [])]) := by
    decide +kernel
  obtain ⟨c, hrun, hc⟩ := Option.map_eq_some_iff.1 h
  simp only [Prod.mk.injEq] at hc
  obtain ⟨hstep, hbefore, hsessions⟩ := hc
  obtain ⟨c', hstep, hafter⟩ := Option.map_eq_some_iff.1 hstep
  obtain ⟨old, rest, heq, hold, hrest⟩ := List.map_eq_cons_iff.1 hsessions
  obtain ⟨s, rest', rfl, hs, -⟩ := List.map_eq_cons_iff.1 hrest
  simp only [Prod.mk.injEq] at hold hs
  refine ⟨c, c', old, s, hrun, hstep, hbefore, hafter, by simp [heq], by simp [heq], hold.1, ?_⟩
  rw [hold.2, hs.2]
  decide

end Specter.Tunnel
