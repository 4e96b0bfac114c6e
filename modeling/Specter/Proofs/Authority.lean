import Specter.Proofs.Handlers
import Specter.Proofs.TunnelSessions
import Specter.Proofs.TunnelStore

/-!
# Delegated sessions do not outlive their authority

A delegated session that is active is covered by a check of its own grant: the store answered with
the grant and with the registration of its hostname, and the deadline of the session is at most the
grace period after that check began, the expiry of the grant, and the end of the certificate.
-/

namespace Specter.Tunnel

open Lib (Prog Rules)

theorem lt_of_lt_authorizationDeadline {time certNotAfter start : ℤ} {expiry : Option ℤ}
    (h : time < authorizationDeadline certNotAfter start expiry) :
    time < start + revalidateGrace ∧ (∀ e, expiry = some e → time < e) ∧ time < certNotAfter := by
  unfold authorizationDeadline at h
  refine ⟨?_, ?_, ?_⟩
  · dsimp only at h
    split at h <;> split_ifs at h <;> omega
  · rintro e rfl
    dsimp only at h
    split_ifs at h <;> omega
  · dsimp only at h
    split_ifs at h <;> omega

namespace Registry

variable (r : Registry) (start : ℤ)

/-- The store gave this answer at `start` or later. -/
def Answered (op : KvOp) (res : op.Res) : Prop :=
  ∃ time, start ≤ time ∧ ⟨time, op, res⟩ ∈ r.answers

structure Registered (owner : Token) (hostname : Hostname) : Prop where
  listed : r.Answered start (.prefixContains (.clientHostnames owner) hostname) (.ok true)
  custom : hostname.dotted → ∃ c : CustomHostname, c.clientToken = owner ∧
    r.Answered start (.get (.customHostname hostname)) (.ok (some (.custom c)))

def Holds (rec : DelegationRecord) : Prop :=
  r.Answered start (.get (.delegation rec.id)) (.ok (some (.delegation rec)))

/-- A check that began at `start` found both the grant and the registration of its hostname. -/
structure InForce (rec : DelegationRecord) : Prop where
  grant : r.Holds start rec
  registered : r.Registered start rec.owner rec.hostname

end Registry

def Session.Under (s : Session) (rec : DelegationRecord) : Prop :=
  s.hostname = rec.hostname ∧ s.grantID = rec.id ∧ s.owner = rec.owner

namespace Authority

def Covered (r : Registry) (s : Session) (deadline : ℤ) : Prop :=
  ∃ start rec, start ≤ r.clock ∧ s.Under rec ∧ r.InForce start rec ∧
    deadline = authorizationDeadline s.certNotAfter start rec.expiry

def AuthorityInv (r : Registry) : Prop :=
  ∀ {i : ℕ} {s : Session}, r.sessions[i]? = some s → s.state = .active → s.mode = .delegated →
    Covered r s s.authorizedUntil

/-- The session is not activated here, and keeps its grant. -/
def Untouched (s s' : Session) : Prop :=
  s.SameAuthority s' ∧ (s'.state = .active → s.state = .active)

/-- A thread leaves alone the sessions that it did not open, and those that are active. -/
def authorityRules (g : Given) : Rules (tunnelSessions g) where
  ok _ := True
  known _ _ _ := True
  inv := AuthorityInv
  guar t r r' := r.Later r' ∧ ∀ {i : ℕ} {s s' : Session}, r.sessions[i]? = some s →
    r'.sessions[i]? = some s' → (r.opener i ≠ t ∨ s.state = .active) → Untouched s s'
  fresh _ _ := True
  pre _ _ := True
  post _ _ := True

/-- What a step needs so that sessions stay covered. -/
def Act.Needs (t : ℕ) (r : Registry) : Act → Prop
  | .session (.new s) => s.state = .provisional
  | .session (.on i (.setAuthority ..)) =>
    r.opener i = t ∧ ∀ s, r.sessions[i]? = some s → s.state ≠ .active
  | .session (.on i (.activate deadline)) =>
    r.opener i = t ∧ ∀ s, r.sessions[i]? = some s → s.mode = .delegated → Covered r s deadline
  | .session (.on i (.extend start expiry)) => ∀ s, r.sessions[i]? = some s → s.state = .active →
    s.mode = .delegated → Covered r s (authorizationDeadline s.certNotAfter start expiry)
  | _ => True

section

variable {g : Given} {t t' i : ℕ} {l : Label} {r r' : Registry} {s s' : Session} {start : ℤ}
  {hostname : Hostname} (a : Act) {P : Registry → Prop} {α : Type} {rec : DelegationRecord}
  (site : Site) (conn : ℕ) (certNotAfter : ℤ)

theorem answered_later (h : r.Later r') {op : KvOp} {res : op.Res} :
    r.Answered start op res → r'.Answered start op res :=
  fun ⟨time, hle, hx⟩ => ⟨time, hle, h.answers _ hx⟩

theorem registered_later (h : r.Later r') {owner : Token} (hr : r.Registered start owner hostname) :
    r'.Registered start owner hostname :=
  ⟨answered_later h hr.listed, fun hd =>
    have ⟨c, hc, hx⟩ := hr.custom hd
    ⟨c, hc, answered_later h hx⟩⟩

theorem Covered.later {deadline : ℤ} (hc : Covered r s deadline) (h : r.Later r')
    (ha : s.SameAuthority s') (hcert : s'.certNotAfter = s.certNotAfter) :
    Covered r' s' deadline := by
  obtain ⟨start, rec, hle, ⟨h1, h2, h3⟩, hf, rfl⟩ := hc
  exact ⟨start, rec, hle.trans h.clock, ⟨ha.1.trans h1, ha.2.1.trans h2, ha.2.2.trans h3⟩,
    ⟨answered_later h hf.grant, registered_later h hf.registered⟩, by rw [hcert]⟩

theorem untouched_exec {a : Act} {res : a.Res} (h : r.exec l t a = some (res, r'))
    (ha : Act.Needs t' r a) (hs : r.sessions[i]? = some s) (hs' : r'.sessions[i]? = some s')
    (hor : r.opener i ≠ t' ∨ s.state = .active) : Untouched s s' := by
  obtain ⟨s'', hs'', hor'⟩ := Registry.session_exec h hs
  obtain rfl := Option.some.inj (hs'.symm.trans hs'')
  obtain rfl | ⟨b, rfl, hmakes⟩ := hor'
  · exact ⟨⟨rfl, rfl, rfl⟩, id⟩
  refine ⟨?_, fun hactive => ?_⟩
  · rcases hmakes.authority with ⟨_, _, _, _, rfl⟩ | h
    · exact absurd hor (not_or.2 ⟨not_not.2 ha.1, ha.2 s hs⟩)
    · exact h
  · rcases hmakes.allowed with hlapse | ⟨_, rfl, hprov, _⟩ | ⟨_, _, _, h, _⟩
    · exact (hlapse hactive).1
    · exact hor.resolve_left (not_not.2 ha.1)
    · exact h

theorem inv_exec {a : Act} {res : a.Res} (h : r.exec l t a = some (res, r')) (hi : AuthorityInv r)
    (ha : Act.Needs t' r a) : AuthorityInv r' := by
  intro i s' hs' hactive hmode
  have hlater := Registry.later_exec h
  obtain rfl | ⟨s, hs, rfl | ⟨b, rfl, hmakes⟩⟩ := Registry.exec_session h hs'
  · cases hactive.symm.trans ha
  · exact (hi hs hactive hmode).later hlater ⟨rfl, rfl, rfl⟩ rfl
  have hmode' : s.mode = .delegated := hmakes.evolves.mode.symm.trans hmode
  have hcert := hmakes.evolves.certNotAfter
  rcases hmakes.allowed with hlapse | ⟨deadline, rfl, -, hu⟩ | ⟨start, expiry, rfl, ho, -, hu⟩
  · obtain ⟨hactive', hu⟩ := hlapse hactive
    rw [hu]
    exact (hi hs hactive' hmode').later hlater (untouched_exec h ha hs hs' (.inr hactive')).1 hcert
  · rw [hu]
    exact (ha.2 s hs hmode').later hlater (hmakes.authority.resolve_left (by simp)) hcert
  · rw [hu]
    exact (ha s hs ho hmode').later hlater (hmakes.authority.resolve_left (by simp)) hcert

def Spares (_ : ℕ) (r r' : Registry) : Prop :=
  r.Later r' ∧ (AuthorityInv r → AuthorityInv r') ∧
    ∀ {i : ℕ} {s s' : Session}, r.sessions[i]? = some s → r'.sessions[i]? = some s' →
      Untouched s s'

def Act.SparesAuthority (a : Act) : Prop := ∀ t r, Act.Needs t r a

theorem spares_exec {a : Act} {res : a.Res} (h : r.exec l t a = some (res, r'))
    (ha : Act.SparesAuthority a) : Spares t r r' :=
  ⟨Registry.later_exec h, fun hi => inv_exec h hi (ha t r), fun {i _ _} hs hs' =>
    -- As if another thread than the opener of the session took this step.
    untouched_exec h (ha (r.opener i + 1) r) hs hs' (.inl (Nat.succ_ne_self _).symm)⟩

theorem neutral_spares : (authorityRules g).Neutral Spares t Act.SparesAuthority where
  step ha _ he := spares_exec (t := t) he ha
  keeps h hi := ⟨h.2.1 hi, h.1, fun hs hs' _ => h.2.2 hs hs'⟩

theorem firm_of_later (h : ∀ {r r'}, r.Later r' → P r → P r') :
    (authorityRules g).Firm Spares t P :=
  ⟨fun _ _ _ _ _ _ hg _ => h hg.1, fun hn => h hn.1⟩

theorem firm_registered (start : ℤ) (owner : Token) (hostname : Hostname) :
    (authorityRules g).Firm Spares t fun r => r.Registered start owner hostname :=
  firm_of_later fun h => registered_later h

theorem firm_holds (start : ℤ) (rec : DelegationRecord) :
    (authorityRules g).Firm Spares t fun r => r.Holds start rec :=
  firm_of_later fun h => answered_later h

theorem firm_begun (start : ℤ) : (authorityRules g).Firm Spares t fun r => start ≤ r.clock :=
  firm_of_later fun h hs => hs.trans h.clock

/-- What the thread that opened a session knows about it. -/
def Own (t i : ℕ) (φ : Session → Prop) (r : Registry) : Prop :=
  r.opener i = t ∧ ∃ s, r.sessions[i]? = some s ∧ φ s

theorem firm_own {φ : Session → Prop}
    (hφ : ∀ {s s'}, s.Evolves s' → Untouched s s' → φ s → φ s') :
    (authorityRules g).Firm Spares t (Own t i φ) := by
  have key : ∀ {r r'}, r.Later r' → (∀ {s s'}, r.sessions[i]? = some s →
      r'.sessions[i]? = some s' → Untouched s s') → Own t i φ r → Own t i φ r' := by
    rintro r r' h hu ⟨ho, s, hs, hp⟩
    obtain ⟨s', hs', he⟩ := h.sessions hs
    exact ⟨(h.opener hs).trans ho, s', hs', hφ he (hu hs hs') hp⟩
  refine ⟨fun r r' t' hne _ _ hg _ h => ?_, fun hn => key hn.1 hn.2.2⟩
  exact key hg.1 (fun hs hs' => hg.2 hs hs' (.inl (h.1.trans_ne hne.symm))) h

/-- A session that is new to its thread. -/
def Fresh (mode : Mode) (certNotAfter : ℤ) (s : Session) : Prop :=
  s.mode = mode ∧ s.certNotAfter = certNotAfter ∧ s.state ≠ .active

theorem firm_fresh (mode : Mode) (certNotAfter : ℤ) :
    (authorityRules g).Firm Spares t (Own t i (Fresh mode certNotAfter)) :=
  firm_own fun he hu ⟨hm, hc, ha⟩ => ⟨he.mode.trans hm, he.certNotAfter.trans hc, mt hu.2 ha⟩

/-- The session was given this grant. -/
def Granted (certNotAfter : ℤ) (rec : DelegationRecord) (s : Session) : Prop :=
  s.certNotAfter = certNotAfter ∧ s.Under rec

theorem firm_granted (rec : DelegationRecord) :
    (authorityRules g).Firm Spares t (Own t i (Granted certNotAfter rec)) :=
  firm_own fun he ⟨⟨h1, h2, h3⟩, _⟩ ⟨hc, h4, h5, h6⟩ =>
    ⟨he.certNotAfter.trans hc, h1.trans h4, h2.trans h5, h3.trans h6⟩

/-- The session was active with the grant of `sess`, which it has for as long as it is active. -/
def Seen (i : ℕ) (sess : Session) (r : Registry) : Prop :=
  ∃ s, r.sessions[i]? = some s ∧ s.state ≠ .provisional ∧
    (s.state = .active → sess.SameAuthority s)

theorem firm_seen (sess : Session) : (authorityRules g).Firm Spares t (Seen i sess) := by
  have key : ∀ {r r'}, r.Later r' → (∀ {s s'}, r.sessions[i]? = some s →
      r'.sessions[i]? = some s' → s.state = .active → Untouched s s') →
      Seen i sess r → Seen i sess r' := by
    rintro r r' h hu ⟨s, hs, hp, ha⟩
    obtain ⟨s', hs', he⟩ := h.sessions hs
    refine ⟨s', hs', mt he.provisional hp, fun hactive' => ?_⟩
    have hactive : s.state = .active := by
      cases hstate : s.state with
      | provisional => exact absurd hstate hp
      | active => rfl
      | terminal => cases hactive'.symm.trans (he.terminal hstate)
    obtain ⟨⟨h1, h2, h3⟩, -⟩ := hu hs hs' hactive
    obtain ⟨h4, h5, h6⟩ := ha hactive
    exact ⟨h1.trans h4, h2.trans h5, h3.trans h6⟩
  exact ⟨fun r r' t' _ _ _ hg _ => key hg.1 fun hs hs' ha => hg.2 hs hs' (.inr ha),
    fun hn => key hn.1 fun hs hs' _ => hn.2.2 hs hs'⟩

theorem triple_spared (hP : (authorityRules g).Firm Spares t P) {p : Rpc α}
    (hp : p.Only Act.SparesAuthority fun _ => True) : (authorityRules g).Triple t P p fun _ => P :=
  neutral_spares.triple hP (fun _ _ _ _ _ => trivial) hp

theorem triple_act {Q : a.Res → Registry → Prop} (hP : (authorityRules g).Stable t P)
    (hQ : ∀ res, (authorityRules g).Stable t (Q res)) (hneeds : ∀ r, P r → Act.Needs t r a)
    (h : ∀ r l res r', P r → r.exec l t a = some (res, r') → Q res r') :
    (authorityRules g).Triple t P (Prog.perform (S := tunnelSig) a) Q :=
  .perform hP hQ fun r l res r' hi hs _ he _ =>
    ⟨inv_exec (t := t) he hi (hneeds r hs), ⟨Registry.later_exec (t := t) he,
      fun hs₁ hs₂ => untouched_exec (t := t) he (hneeds r hs) hs₁ hs₂⟩, h r l res r' hs he⟩

theorem spares_reading (h : a.isReading = true) : Act.SparesAuthority a := by
  unfold Act.isReading at h
  split at h
  all_goals first | exact fun _ _ => trivial | cases h

theorem spares_lease (h : a.isLease = true) : Act.SparesAuthority a := by
  unfold Act.isLease at h
  split at h
  all_goals first | exact fun _ _ => trivial | cases h

theorem spares_session (h : a.isSession = true) : Act.SparesAuthority a := by
  intro t r
  unfold Act.Needs
  split
  all_goals first | exact trivial | cases h

theorem triple_now (hP : (authorityRules g).Firm Spares t P) :
    (authorityRules g).Triple t P now fun start r => P r ∧ start ≤ r.clock := by
  refine triple_act .now hP.stable (fun start => (hP.and (firm_begun start)).stable)
    (fun _ _ => trivial) fun r l res r' hs he => ⟨?_, ?_⟩
  · exact hP.kept (spares_exec he fun _ _ => trivial) hs
  · simp only [Registry.exec, Registry.timed] at he
    split_ifs at he
    cases he
    exact le_rfl

theorem triple_new (hs : s.state = .provisional) :
    (authorityRules g).Triple t (fun _ => True) (session (.new s))
      fun i => Own t i (Fresh s.mode s.certNotAfter) := by
  refine triple_act (.session (.new s)) (.const True) (fun i => (firm_fresh _ _).stable)
    (fun _ _ => hs) fun r l res r' _ he => ?_
  cases he
  exact ⟨by simp, s, by simp, rfl, rfl, by simp [hs]⟩

/-! ## What a check is answered -/

def Got (r : Registry) (start : ℤ) : (a : Act) → a.Res → Prop
  | .kv op, res => r.Answered start op res
  | _, _ => True

/-- The program comes to this result on answers that the store gave at `start` or later. -/
def Traced (r : Registry) (start : ℤ) {α : Type} : Rpc α → α → Prop
  | .ret a, res => a = res
  | .act a k, res => ∃ x : a.Res, Got r start a x ∧ Traced r start (k x) res
  | .fork _ k, res => Traced r start k res

theorem got_later (h : r.Later r') : ∀ (a : Act) {res : a.Res}, Got r start a res →
    Got r' start a res
  | .kv _, _, hg => answered_later h hg
  | .session _, _, _ | .now, _, _ | .ctxErr, _, _ | .lookupCNAME _, _, _ | .next, _, _
  | .select, _, _ | .arrive, _, _ | .begin _, _, _ | .finish .., _, _ => trivial

theorem traced_bind {α β : Type} {f : α → Rpc β} {res : β} : ∀ {p : Rpc α},
    Traced r start (p >>= f) res → ∃ a, Traced r start p a ∧ Traced r start (f a) res
  | .ret a, h => ⟨a, rfl, h⟩
  | .act _ k, ⟨x, hx, h⟩ => have ⟨a, ha, hf⟩ := traced_bind (p := k x) h
    ⟨a, ⟨x, hx, ha⟩, hf⟩
  | .fork _ k, h => traced_bind (p := k) h

theorem triple_traced {P : Registry → Prop} (hP : (authorityRules g).Firm Spares t P)
    (hstart : ∀ r, P r → start ≤ r.clock) {α : Type} : ∀ {p : Rpc α},
      p.Only Act.SparesAuthority (fun _ => True) →
      (authorityRules g).Triple t P p fun res r => P r ∧ Traced r start p res
  | .ret a, _ => .ret (hP.stable.and (.const _)) fun _ _ h => ⟨h, rfl⟩
  | .act a k, hp => by
    refine .bind (triple_act a hP.stable (Q := fun x r => P r ∧ Got r start a x)
      (fun x => (hP.and (firm_of_later fun h => got_later h a)).stable) (fun r _ => hp.1 t r)
      fun r l x r' hs he => ⟨hP.kept (spares_exec he hp.1) hs, ?_⟩) fun x => ?_
    · cases a with
      | kv op =>
        cases he
        exact ⟨r.clock, hstart r hs, List.mem_cons_self ..⟩
      | _ => trivial
    · exact (triple_traced (hP.and (firm_of_later fun h => got_later h a))
        (fun r h => hstart r h.1) (hp.2 x)).post fun _ _ h => ⟨h.1.1, x, h.1.2, h.2⟩
  | .fork _ k, hp => .bind (.start hP.stable fun _ _ _ => trivial)
      fun _ => triple_traced hP hstart (p := k) hp.2

theorem traced_readDelegation {id : String} (h : Traced r start (readDelegation id) (.ok rec)) :
    rec.id = id ∧ r.Holds start rec := by
  unfold readDelegation at h
  split_ifs at h
  · cases h
  obtain ⟨res, hres, h⟩ := traced_bind h
  split at h
  · cases h
  · cases h
  · split_ifs at h with hbad
    · cases h
    · cases h
      obtain ⟨x, hx, rfl⟩ := hres
      obtain rfl := not_not.1 (not_or.1 (not_or.1 hbad).2).1
      exact ⟨rfl, hx⟩
  · cases h

theorem traced_findCustomHostname {c : CustomHostname}
    (h : Traced r start (findCustomHostname hostname) (.ok c)) :
    r.Answered start (.get (.customHostname hostname)) (.ok (some (.custom c))) := by
  obtain ⟨res, ⟨x, hx, rfl⟩, h⟩ := traced_bind h
  split at h
  all_goals cases h
  exact hx

theorem traced_verifyDelegatedAuthority
    (h : Traced r start (verifyDelegatedAuthority rec) (.ok ())) :
    r.Registered start rec.owner rec.hostname := by
  obtain ⟨owns, howns, h⟩ := traced_bind h
  obtain rfl : owns = .ok true := by
    split at h
    · cases h
    · cases h
    · rfl
  obtain ⟨res, ⟨x, hx, rfl⟩, howns⟩ := traced_bind howns
  split at howns
  · cases howns
  · cases howns
  split_ifs at howns with hdotted
  · obtain ⟨res, hres, howns⟩ := traced_bind howns
    split at howns
    · cases howns
    · cases howns
    · exact ⟨hx, fun _ => ⟨_, of_decide_eq_true (Except.ok.inj howns),
        traced_findCustomHostname hres⟩⟩
  · exact ⟨hx, fun h => absurd h hdotted⟩

/-- What is found of a session to be checked. -/
theorem triple_inspect (hP : (authorityRules g).Firm Spares t P) :
    (authorityRules g).Triple t P (onSession i (.inspect start)) fun res r =>
      P r ∧ ∀ sess, res = .current sess → Seen i sess r := by
  refine triple_act (.session (.on i (.inspect start))) hP.stable (fun res => ?_)
    (fun _ _ => trivial) fun r l res r' hs he =>
      ⟨hP.kept (spares_exec he fun _ _ => trivial) hs, ?_⟩
  · refine hP.stable.and fun r r' t' hne hi hi' hg hk h sess hsess => ?_
    exact (firm_seen (g := g) sess).stable r r' t' hne hi hi' hg hk (h sess hsess)
  · rintro sess rfl
    obtain ⟨s, hs, he⟩ := Registry.exec_on he
    simp only [Registry.enter, Option.some.injEq, Prod.mk.injEq] at he
    obtain ⟨hres, rfl⟩ := he
    split_ifs at hres with hactive
    cases hres
    exact ⟨sess, hs, by simp [not_not.1 hactive], fun _ => ⟨rfl, rfl, rfl⟩⟩

theorem triple_revalidateSession (i : ℕ) :
    (authorityRules g).Triple t (fun _ => True) (revalidateSession i) fun _ _ => True := by
  have hread : ∀ {P : Registry → Prop} {a : Act}, (authorityRules g).Firm Spares t P →
      a.isReading = true → (authorityRules g).Triple t P (Prog.perform (S := tunnelSig) a)
        fun _ => P := fun hP ha => triple_spared hP (.perform (spares_reading _ ha))
  have hclose : ∀ {P : Registry → Prop}, (authorityRules g).Triple t P (closeSession i)
      fun _ _ => True := (triple_spared (.const True) (only_closeSession spares_session i)).pre
        fun _ _ _ => trivial
  refine .bind (hread (.const True) rfl) fun (b : Bool) => ?_
  split_ifs
  · exact .done _
  refine .bind (triple_now (.const True)) fun start => ?_
  refine .bind (triple_inspect ((Rules.Firm.const True).and (firm_begun start))) fun r => ?_
  split
  · exact .done _
  · exact hclose
  rename_i sess
  have hseen : (authorityRules g).Firm Spares t fun r => start ≤ r.clock ∧ Seen i sess r :=
    (firm_begun start).and (firm_seen sess)
  refine .bind ((triple_traced hseen (fun _ h => h.1) (only_readDelegation spares_reading _)).pre
    fun r _ h => ⟨h.1.2, h.2 sess rfl⟩) fun r => ?_
  split
  · exact hclose
  · exact hclose
  · exact .done _
  rename_i rec
  have hfound := hseen.and ((Rules.Firm.const (rec.id = sess.grantID)).and (firm_holds start rec))
  refine .bind ((hread hfound rfl).pre fun r _ h => ⟨h.1, traced_readDelegation h.2⟩)
    fun (b : Bool) => ?_
  split_ifs
  · exact .done _
  refine .bind (hread hfound rfl) fun time => ?_
  split_ifs with hother
  · exact hclose
  refine .bind (triple_traced hfound (fun _ h => h.1.1)
    (only_verifyDelegatedAuthority spares_reading rec)) fun r => ?_
  split
  · exact hclose
  · exact .done _
  have hchecked := hfound.and (firm_registered start rec.owner rec.hostname)
  refine .bind ((hread hchecked rfl).pre fun r _ h => ⟨h.1, traced_verifyDelegatedAuthority h.2⟩)
    fun (b : Bool) => ?_
  split_ifs
  · exact .done _
  refine triple_act (.session (.on i (.extend start rec.expiry))) hchecked.stable
    (fun _ => .const True) (fun r h s hs hactive _ => ?_) fun _ _ _ _ _ _ => trivial
  obtain ⟨⟨⟨hle, s', hs', -, hsame⟩, hid, hgrant⟩, hregistered⟩ := h
  obtain rfl := Option.some.inj (hs.symm.trans hs')
  obtain ⟨h1, h2, h3⟩ := hsame hactive
  simp only [not_or, not_not] at hother
  exact ⟨start, rec, hle, ⟨h1.trans hother.1.symm, h2.trans hid.symm, h3.trans hother.2.1.symm⟩,
    ⟨hgrant, hregistered⟩, rfl⟩

theorem triple_maintaining (i : ℕ) :
    (authorityRules g).Triple t (fun _ => True) (maintaining i) fun _ _ => True := by
  refine .bind (triple_spared (.const True) (.perform (spares_reading _ rfl)))
    fun (b : Bool) => ?_
  split_ifs
  · exact triple_spared (.const True) (only_endWorker spares_session i)
  refine .bind (triple_revalidateSession i) fun _ => triple_spared (.const True) ?_
  refine .bind (only_onSession (spares_session _ rfl)) fun (b : Bool) => ?_
  split_ifs
  · exact .bind (.start trivial) fun _ => .start trivial
  · exact only_endWorker spares_session i

theorem triple_failed (i : ℕ) (a : α) :
    (authorityRules g).Triple t P (do failSession i; return a) fun _ _ => True :=
  .bind ((triple_spared (.const True) (only_failSession (fun _ _ => trivial) spares_session i)).pre
    fun _ _ _ => trivial) fun _ => .done _

theorem triple_openEphemeralSession (spki : Bytes) (certNotAfter : ℤ) :
    (authorityRules g).Triple t (fun _ => True)
      (openEphemeralSession g.sha256 site conn spki certNotAfter) fun _ _ => True := by
  unfold openEphemeralSession
  split
  · exact .done _
  refine .bind (triple_new rfl) fun i => ?_
  have hmade := firm_fresh (g := g) (t := t) (i := i) .ephemeral certNotAfter
  refine .bind (triple_spared hmade
    (only_reserveSession spares_session (fun _ _ => trivial) i)) fun r => ?_
  split
  · exact .done _
  refine .bind (triple_act (.session (.on i (.activate 0))) hmade.stable
    (Q := fun _ _ => True) (fun _ => .const True) (fun r h => ⟨h.1, fun s hs hmode => ?_⟩)
    fun _ _ _ _ _ _ => trivial) fun (b : Bool) => ?_
  · obtain ⟨-, s', hs', hm, -⟩ := h
    obtain rfl := Option.some.inj (hs.symm.trans hs')
    cases hm.symm.trans hmode
  · split_ifs
    · exact .done _
    · exact triple_failed i _

theorem triple_publishSession (i : ℕ) (sessionAlias : String) (certNotAfter : ℤ) (slot : ℕ)
    (start : ℤ) (rec : DelegationRecord) :
    (authorityRules g).Triple t
      (fun r => (start ≤ r.clock ∧ r.Holds start rec) ∧ Own t i (Granted certNotAfter rec) r)
      (publishSession site i sessionAlias certNotAfter slot start rec) fun _ _ => True := by
  have hgranted := ((firm_begun (g := g) (t := t) start).and (firm_holds start rec)).and
    (firm_granted (i := i) certNotAfter rec)
  refine .bind (triple_traced hgranted (fun _ h => h.1.1)
    (only_verifyDelegatedAuthority spares_reading rec)) fun r => ?_
  split
  · exact .done _
  have hchecked := hgranted.and (firm_registered start rec.owner rec.hostname)
  refine .bind (p := kv (.put _ _)) (.pre (triple_spared hchecked (.perform fun _ _ => trivial))
    fun r _ h => ⟨h.1, traced_verifyDelegatedAuthority h.2⟩) fun r => ?_
  split
  · exact .done _
  refine .bind (triple_act (.session (.on i (.activate
    (authorizationDeadline certNotAfter start rec.expiry)))) hchecked.stable
    (Q := fun _ _ => True) (fun _ => .const True)
    (fun r h => ⟨h.1.2.1, fun s hs _ => ?_⟩) fun _ _ _ _ _ _ => trivial) fun (b : Bool) => ?_
  · obtain ⟨⟨⟨hle, hgrant⟩, -, s', hs', hc, hunder⟩, hregistered⟩ := h
    obtain rfl := Option.some.inj (hs.symm.trans hs')
    exact ⟨start, rec, hle, hunder, ⟨hgrant, hregistered⟩, by rw [hc]⟩
  · split_ifs
    · exact .bind (.start (.const True) fun _ _ _ => trivial) fun _ => .done _
    · exact .done _

theorem triple_authorizeSession (i : ℕ) (sessionAlias : String) (certNotAfter : ℤ) (token : String)
    (slot : ℕ) :
    (authorityRules g).Triple t (Own t i (Fresh .delegated certNotAfter))
      (authorizeSession g.sha256 site i sessionAlias certNotAfter token slot) fun _ _ => True := by
  have hfresh := firm_fresh (g := g) (t := t) (i := i) .delegated certNotAfter
  unfold authorizeSession
  split
  · exact .done _
  refine .bind (triple_now hfresh) fun start => ?_
  refine .bind (triple_traced (hfresh.and (firm_begun start)) (fun _ h => h.2)
    (only_readDelegation spares_reading _)) fun r => ?_
  split
  · exact .done _
  · exact .done _
  · exact .done _
  rename_i rec
  split_ifs
  · exact .done _
  have hread := (firm_begun (g := g) (t := t) start).and (firm_holds start rec)
  have hgranted := hread.and (firm_granted (i := i) certNotAfter rec)
  refine .bind (.pre (triple_act (.session (.on i (.setAuthority rec.hostname rec.id rec.owner
    rec.expiry))) (hread.and hfresh).stable (fun _ => hgranted.stable) (fun r h => ?_)
    fun r l res r' h he => ?_)
    fun r _ h => ⟨⟨h.1.2, (traced_readDelegation h.2).2⟩, h.1.1⟩) fun _ => ?_
  · obtain ⟨-, ho, s, hs, -, -, hactive⟩ := h
    exact ⟨ho, fun s' hs' => Option.some.inj (hs.symm.trans hs') ▸ hactive⟩
  · have hlater := Registry.later_exec he
    obtain ⟨⟨hle, hgrant⟩, ho, s, hs, -, hc, -⟩ := h
    refine ⟨⟨hle.trans hlater.clock, answered_later hlater hgrant⟩, (hlater.opener hs).trans ho, ?_⟩
    obtain ⟨s', hs', he⟩ := Registry.exec_on he
    cases he
    exact ⟨{ s with
      hostname := rec.hostname, grantID := rec.id, owner := rec.owner, grantExpiry := rec.expiry },
      by simp [Registry.modify, hs], hc, rfl, rfl, rfl⟩
  · exact triple_withLease neutral_spares spares_lease hgranted (fun _ => .const True)
      (fun _ _ _ => trivial) (triple_publishSession site i sessionAlias certNotAfter slot start rec)

theorem triple_openDelegatedSession (token : String) (slot : ℕ) (inv : Bytes) :
    (authorityRules g).Triple t (fun _ => True)
      (openDelegatedSession g.sha256 site conn certNotAfter token slot inv) fun _ _ => True := by
  unfold openDelegatedSession
  split_ifs
  · exact .done _
  refine .bind (triple_new rfl) fun i => ?_
  have hmade := firm_fresh (g := g) (t := t) (i := i) .delegated certNotAfter
  refine .bind (triple_spared hmade
    (only_reserveSession spares_session (fun _ _ => trivial) i)) fun r => ?_
  split
  · exact .done _
  refine .bind (triple_authorizeSession site i _ certNotAfter token slot) fun r => ?_
  split
  · exact triple_failed i _
  · exact .done _

theorem triple_prog (c : Call) (site : Site) :
    (authorityRules g).Triple t (fun _ => True) (c.prog g site) fun _ _ => True := by
  cases c with
  | openEphemeralSession conn spki certNotAfter =>
    exact triple_openEphemeralSession site conn spki certNotAfter
  | openDelegatedSession conn certNotAfter token slot inv =>
    exact triple_openDelegatedSession site conn certNotAfter token slot inv
  | _ =>
    exact triple_spared (.const True) (only_prog spares_reading spares_lease spares_session
      (fun _ _ => trivial) (fun h => by cases h) (fun _ _ _ _ => trivial) site)

theorem triple_task (τ : Task) :
    (authorityRules g).Triple t (fun _ => True) (body g τ) fun _ _ => True := by
  cases τ with
  | call site c =>
    refine .bind (triple_spared (.const True) (.perform fun _ _ => trivial)) fun _ => ?_
    exact .bind (triple_prog c site) fun res =>
      triple_spared (.const True) (.perform fun _ _ => trivial)
  | maintaining i => exact triple_maintaining i
  | dial sessionAlias hostname =>
    exact triple_spared (.const True) (only_dialTask spares_session g _ _)
  | disconnect | shutdown =>
    exact triple_spared (.const True) (.perform (spares_session _ rfl))
  | arrive => exact triple_spared (.const True) (.perform fun _ _ => trivial)
  | _ =>
    exact triple_spared (.const True) (only_sessionTask spares_reading spares_session
      (fun _ _ => trivial) g rfl (fun _ h => by cases h) fun _ _ _ _ => trivial)

theorem closed_authorityRules : (authorityRules g).Closed where
  stable _ := .const _
  safe τ _ s hi _ := triple_task τ s hi trivial

end

end Authority

open Authority

/-- In every run, a dial of a delegated session that succeeds is covered by an earlier check, in
which the store answered with the session's grant and with the registration of its hostname, and
once the session is over no dial of it succeeds any more. -/
theorem delegated_dials_covered (g : Given) (tasks : List Task) (clock : ℤ)
    {sched : List (ℕ × Label)} {c : Lib.Config tunnelSig Registry}
    (hrun : (tunnelSessions g).run sched ((tunnelSessions g).launch tasks (.start clock)) = some c)
    {i : ℕ} {s : Session} (hs : c.shared.sessions[i]? = some s) (hmode : s.mode = .delegated) :
    (∀ t l hostname r', c.shared.exec l t (.session (.on i (.dial hostname))) = some (true, r') →
      ∃ start rec, s.Under rec ∧ c.shared.InForce start rec ∧ start ≤ r'.clock ∧
        r'.clock < start + revalidateGrace ∧ (∀ e, rec.expiry = some e → r'.clock < e) ∧
        r'.clock < s.certNotAfter) ∧
    (s.Over c.shared.clock → ∀ sched' c', (tunnelSessions g).run sched' c = some c' →
      ∀ t l hostname r',
        c'.shared.exec l t (.session (.on i (.dial hostname))) ≠ some (true, r')) := by
  have hinv : AuthorityInv (.start clock) := nofun
  have hgood : (authorityRules g).Good ((tunnelSessions g).launch tasks (.start clock)) :=
    Rules.good_launch hinv (fun _ _ => trivial) fun t τ _ => triple_task τ _ hinv trivial
  have hfollows : (authorityRules g).Follows sched
      ((tunnelSessions g).launch tasks (.start clock)) :=
    (Rules.follows_of_run (φ := fun _ => True) (fun _ _ => ⟨trivial, trivial⟩)
      (fun _ _ => trivial) hrun trivial).2
  have hend : AuthorityInv c.shared := (Rules.good_run closed_authorityRules hgood hfollows hrun).1
  refine ⟨fun t l hostname r' hdial => ?_, fun hover sched' c' hrun' t l hostname r' => ?_⟩
  · obtain ⟨s', hs', hactive, hle, htime⟩ := Registry.exec_dial hdial
    obtain rfl := Option.some.inj (hs.symm.trans hs')
    obtain ⟨start, rec, hstart, hunder, hforce, hdeadline⟩ := hend hs hactive hmode
    exact ⟨start, rec, hunder, hforce, hstart.trans hle,
      lt_of_lt_authorizationDeadline (hdeadline ▸ htime hmode)⟩
  · have hkeeps : ∃ s', c'.shared.sessions[i]? = some s' ∧ s'.Over c'.shared.clock :=
      Lib.Machine.run_keeps (tunnelSessions g)
        (P := fun r => ∃ s', r.sessions[i]? = some s' ∧ s'.Over r.clock)
        (fun {l t r a res r'} he ⟨s', hs', ho⟩ => Registry.over_exec (t := t) he hs' ho) hrun'
        ⟨s, hs, hover⟩
    obtain ⟨s', hs', ho⟩ := hkeeps
    exact Registry.not_dial_of_over hs' ho

/-! The store answers with a grant for the hostname of client 7. -/

def oneGrant (k : Key) : Option Value :=
  if k = .delegation plainGrant then
    some (.delegation ⟨delegationRecordVersion, plainGrant, [7], "a", 0⟩)
  else none

def Label.granted : Label where
  outcome := .ok
  answer
    | .kv op => (World.start oneGrant oneHostname).answer 0 op
    | a => plainAnswer a

def openCall : Task :=
  .call .plain (.openDelegatedSession 1 second (encodeDelegationToken plainSecret) 1 [])

/-- A session that was opened with the grant is dialed. -/
theorem delegated_dials_covered_opened :
    ∃ c s r', (tunnelSessions .plain).run (List.replicate 14 (0, .granted))
        ((tunnelSessions .plain).launch [openCall] (.start 0)) = some c ∧
      c.shared.sessions[0]? = some s ∧ s.mode = .delegated ∧
      c.shared.exec .granted 1 (.session (.on 0 (.dial "a"))) = some (true, r') ∧
      ∃ start rec, s.Under rec ∧ c.shared.InForce start rec ∧ start ≤ r'.clock ∧
        r'.clock < start + revalidateGrace ∧ (∀ e, rec.expiry = some e → r'.clock < e) ∧
        r'.clock < s.certNotAfter := by
  have h : ((tunnelSessions .plain).run (List.replicate 14 (0, .granted))
      ((tunnelSessions .plain).launch [openCall] (.start 0))).map
        (fun c => ((c.shared.sessions[0]?).map Session.mode,
          (c.shared.exec .granted 1 (.session (.on 0 (.dial "a")))).map Prod.fst)) =
            some (some .delegated, some true) := by
    decide +kernel
  obtain ⟨c, hrun, hc⟩ := Option.map_eq_some_iff.1 h
  obtain ⟨hsession, hdial⟩ := Prod.mk.inj hc
  obtain ⟨s, hs, hmode⟩ := Option.map_eq_some_iff.1 hsession
  obtain ⟨⟨b, r'⟩, hexec, rfl⟩ := Option.map_eq_some_iff.1 hdial
  exact ⟨c, s, r', hrun, hs, hmode, hexec,
    (delegated_dials_covered .plain [openCall] 0 hrun hs hmode).1 1 .granted "a" r' hexec⟩

end Specter.Tunnel
