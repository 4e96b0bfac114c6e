import Specter.Proofs.Grants

/-!
# Revoked grants

A record that Mint writes after Revoke has deleted it brings the grant back.  If at every deletion
no record of that grant is still to be written, a revoked grant stays away.
-/

namespace Specter.Tunnel

open Lib (Prog Rules)

variable {g : Given} {tasks : List Task} {id : String}

namespace Grants

section

variable {g : Given} {tasks : List Task} {t : ℕ} {s : StoreState} (a : Act) {secret : Bytes}
  {site : Site} {c : Call} {P : StoreState → Prop}

theorem spares_reading (h : a.isReading = true) : a.SparesGrants := by
  unfold Act.isReading at h
  split at h
  all_goals first | exact fun _ => id | trivial

theorem spares_lease (h : a.isLease = true) : a.SparesGrants := by
  unfold Act.isLease at h
  split at h
  all_goals first | exact fun _ => id | cases h

theorem spares_session (h : a.isSession = true) : a.SparesGrants := by
  unfold Act.isSession at h
  split at h
  all_goals trivial

theorem spares_opening (h : a.isOpening = true) : a.SparesGrants := by
  unfold Act.isOpening at h
  split at h
  all_goals trivial

theorem spares_renewing (h : a.isRenewing = true) : a.SparesGrants := by
  unfold Act.isRenewing at h
  split at h
  all_goals trivial

theorem triple_mintDelegation
    (hdraw : ∀ t t' id, drawn g tasks t = some id → drawn g tasks t' = some id → t = t')
    (hid : drawn g tasks t = some (delegationID g.sha256 secret)) (owner : Token)
    (hostname : Hostname) (expiresAt : ℤ) :
    (grantRules g tasks).Triple t (fun s => delegationID g.sha256 secret ∉ s.world.indexed)
      (mintDelegation g.acme.normalize g.sha256 owner hostname expiresAt secret)
      fun _ _ => True := by
  have hwrite := firm_unwritten hdraw hid
  refine triple_mint (W := fun s => delegationID g.sha256 secret ∈ s.world.unwritten ∧
      delegationID g.sha256 secret ∈ s.world.indexed) neutral_spares spares_reading
    (firm_unindexed hdraw hid) (.post (triple_spared (firm_unindexed hdraw hid)
      (.perform (spares_reading _ rfl))) fun _ _ h _ _ _ => h) (fun rec hrec _ => ?_)
    (fun rec hrec _ => ?_) hostname expiresAt
  · rw [hrec]
    exact triple_kv _ (firm_unindexed hdraw hid).stable (fun r => (hwrite.imp (r = .ok ())).stable)
      fun s l r s' hi hs _ he _ => append_step hid hi hs he
  · rw [hrec]
    exact triple_kv _ hwrite.stable (fun _ => .const True) fun s l r s' hi hs _ he _ =>
      ⟨(put_step hid hi hs he).1, (put_step hid hi hs he).2, trivial⟩

theorem GrantInv.known (hi : GrantInv g tasks s) (h : ¬ Unheard s.world id) (u : ℕ)
    (hu : drawn g tasks u = some id) : id ∈ s.world.indexed := by
  by_contra hid
  exact h (hi.unheard u id hu hid)

theorem triple_revokeDelegation (owner : Token) (id : String) :
    (grantRules g tasks).Triple t (fun _ => True) (revokeDelegation owner id)
      (Done g tasks t (.revokeDelegation owner id)) := by
  refine triple_revoke neutral_spares spares_reading (firm_known id)
    (fun s v hi hv => GrantInv.known hi fun h => by cases h.simple.symm.trans hv)
    (fun s hi hmem => GrantInv.known hi fun h => h.children owner hmem)
    (G := fun s => Gone g tasks s.world id) ?_ ?_ (stable_done _) (fun _ _ x hx => by cases hx)
    (fun _ _ h _ _ => h)
  · exact triple_kv _ (firm_known id).stable (fun r => ((firm_gone id).imp (r = .ok ())).stable)
      fun s l r s' hi hs _ he hk => delete_step hi hs hk he
  · exact triple_spared (firm_gone id) (.perform fun _ h => h)

section Open

variable {site : Site} {conn slot : ℕ} {certNotAfter : ℤ} {token : String} {inv : Bytes}
  (ht : tasks[t]? = some (.call site (.openDelegatedSession conn certNotAfter token slot inv)))

theorem triple_failed (c : Call) (e : RpcError) :
    (grantRules g tasks).Triple t P (.ret (.error e)) (Done g tasks t c) :=
  .ret (stable_done _ _) fun _ _ _ x hx => by cases hx

theorem triple_entitled {p : Rpc (Except RpcError Response)}
    (hp : p.Only Act.SparesGrants fun τ : Task => τ.isSession = true) :
    (grantRules g tasks).Triple t (Entitled g t) p
      (Done g tasks t (.openDelegatedSession conn certNotAfter token slot inv)) :=
  (triple_spared firm_entitled hp).post fun _ _ h _ _ => h

include ht

theorem entitled_of_found (hsecret : parseDelegationToken token.toUTF8.toList = some secret)
    {v : Value} (hi : GrantInv g tasks s) (hw : Warned g tasks t s)
    (hv : s.world.simple (.delegation (delegationID g.sha256 secret)) = some v) :
    Entitled g t s := by
  intro e he hte id ho
  have hgone := hw e he hte id ho
  unfold Step.OpensRevoked at ho
  split at ho
  · rename_i hact
    obtain ⟨site', hcall⟩ := hi.begun e he _ hact
    rw [hte, ht] at hcall
    cases hcall
    have hid := ho.1
    rw [grantOf, hsecret] at hid
    obtain rfl := Option.some.inj hid
    cases hgone.simple.symm.trans hv
  · exact ho

theorem triple_authorizeSession (i : ℕ) :
    (grantRules g tasks).Triple t (Warned g tasks t)
      (authorizeSession g.sha256 site i (aliasOf inv) certNotAfter token slot)
      (Done g tasks t (.openDelegatedSession conn certNotAfter token slot inv)) := by
  unfold authorizeSession
  split
  · exact triple_failed _ _
  rename_i secret hsecret
  refine .bind (triple_spared firm_warned (.perform (spares_reading _ rfl)))
    fun start => ?_
  refine .bind (triple_found neutral_spares spares_reading firm_warned firm_entitled
    fun s v hi hw hv => entitled_of_found ht hsecret hi hw hv) fun r => ?_
  split
  · exact triple_failed _ _
  · exact triple_failed _ _
  · exact triple_failed _ _
  refine .pre (triple_entitled ?_) fun s _ h => h ⟨_, rfl⟩
  split_ifs
  · trivial
  · exact .bind (only_onSession (spares_opening _ rfl)) fun _ =>
      only_withLease spares_lease (only_publishSession spares_reading (fun _ => id)
        spares_opening (fun _ _ _ _ => id) _ _ _ _ _ _ _)

theorem triple_openDelegatedSession :
    (grantRules g tasks).Triple t (Warned g tasks t)
      (openDelegatedSession g.sha256 site conn certNotAfter token slot inv)
      (Done g tasks t (.openDelegatedSession conn certNotAfter token slot inv)) := by
  unfold openDelegatedSession
  split_ifs
  · exact triple_failed _ _
  refine .bind (triple_spared firm_warned (.perform (spares_opening _ rfl)))
    fun i => ?_
  refine .bind (triple_spared firm_warned (only_reserveSession spares_session (fun _ => id) i))
    fun r => ?_
  split
  · exact triple_failed _ _
  refine .bind (triple_authorizeSession ht i) fun r => ?_
  split
  · refine .bind (triple_spared (.const True) (only_failSession (fun _ => id) spares_session i)
      |>.pre fun _ _ _ => trivial) fun _ => triple_failed _ _
  · exact .ret (stable_done _ _) fun _ _ h => h

end Open

section

variable (ht : tasks[t]? = some (.call site c))
  (hdraw : ∀ t t' id, drawn g tasks t = some id → drawn g tasks t' = some id → t = t')

include ht hdraw

theorem triple_begin :
    (grantRules g tasks).Triple t (Idle g tasks t) (Prog.perform (S := tunnelSig) (.begin c))
      fun _ s => Warned g tasks t s ∧ ∀ id, drawn g tasks t = some id → id ∉ s.world.indexed := by
  refine .perform (stable_idle hdraw) (fun _ => firm_warned.stable.and ?_)
    fun s l r s' hi hs _ he _ => ?_
  · intro s s' t' hne hi hi' hg hk h id hid
    exact (firm_unindexed hdraw hid).stable s s' t' hne hi hi' hg hk (h id hid)
  · obtain ⟨h1, h2, h3⟩ := begin_step (l := l) ht hi hs he
    refine ⟨h1, h2, h3, ?_⟩
    cases he
    exact hs.2

theorem triple_call
    (hP : ∀ s, Warned g tasks t s → (∀ id, drawn g tasks t = some id → id ∉ s.world.indexed) → P s)
    (hprog : (grantRules g tasks).Triple t P (c.prog g site) (Done g tasks t c)) :
    (grantRules g tasks).Triple t (Idle g tasks t) (body g (.call site c)) fun _ _ => True := by
  refine .bind (triple_begin ht hdraw) fun _ => ?_
  refine .bind (.pre hprog fun s _ h => hP s h.1 h.2) fun res => ?_
  refine .perform (stable_done c res) (fun _ => (.const True))
    fun s l r s' hi hs _ he _ => ?_
  obtain ⟨h1, h2⟩ := finish_step (l := l) ht hi hs he
  exact ⟨h1, h2, trivial⟩

theorem triple_otherCall (hc : ∀ res s, Done g tasks t c res s)
    (hp : (c.prog g site).Only Act.SparesGrants fun τ : Task => τ.isSession = true) :
    (grantRules g tasks).Triple t (Idle g tasks t) (body g (.call site c)) fun _ _ => True :=
  triple_call ht hdraw (fun _ _ _ => trivial)
    ((triple_spared (.const True) hp).post fun res s _ => hc res s)

end

theorem triple_task
    (hdraw : ∀ t t' id, drawn g tasks t = some id → drawn g tasks t' = some id → t = t')
    {τ : Task} (ht : tasks[t]? = some τ) :
    (grantRules g tasks).Triple t (Idle g tasks t) (body g τ) fun _ _ => True := by
  have hsession : ∀ τ : Task, τ.isSession = true → (grantRules g tasks).Triple t (Idle g tasks t)
      (body g τ) fun _ _ => True := fun τ hτ =>
    .pre (triple_spared (.const True)
      (only_sessionTask spares_reading spares_session (fun _ => id) g hτ
        (fun _ _ => spares_renewing) fun _ _ => trivial)) fun _ _ _ => trivial
  have hact : ∀ a, (Act.session a).isSession = true →
      (grantRules g tasks).Triple t (Idle g tasks t) (session a) fun _ _ => True := fun a ha =>
    .pre (triple_spared (.const True) (.perform (spares_session _ ha)))
      fun _ _ _ => trivial
  cases τ with
  | call site c =>
    cases c with
    | mintDelegation owner hostname expiresAt secret =>
      have hid : drawn g tasks t = some (delegationID g.sha256 secret) := by simp [drawn, ht]
      exact triple_call ht hdraw (fun s _ h => h _ hid)
        ((triple_mintDelegation hdraw hid owner hostname expiresAt).post fun _ _ _ _ _ => trivial)
    | revokeDelegation owner id =>
      exact triple_call ht hdraw (fun _ _ _ => trivial) (triple_revokeDelegation owner id)
    | openDelegatedSession conn certNotAfter token slot inv =>
      exact triple_call ht hdraw (fun _ h _ => h) (triple_openDelegatedSession ht)
    | _ =>
      refine triple_otherCall ht hdraw (fun _ _ _ _ => trivial)
        (only_prog spares_reading spares_lease spares_session (fun _ => id)
          (fun _ => spares_opening) (fun op h => ?_) _)
      cases h <;> exact fun _ => id
  | dial sessionAlias hostname =>
    exact .pre (triple_spared (.const True) (only_dialTask spares_session g _ _))
      fun _ _ _ => trivial
  | disconnect conn => exact hact _ rfl
  | shutdown => exact hact _ rfl
  | arrive =>
    refine .perform (stable_idle hdraw) (fun _ => (.const True))
      fun s l r s' hi _ _ he _ => ?_
    obtain ⟨h1, h2⟩ := arrive_step (l := l) hi he
    exact ⟨h1, h2, trivial⟩
  | _ => exact hsession _ rfl

theorem closed_grantRules : (grantRules g tasks).Closed where
  stable t s s' t' hne _ _ hg _ h := by
    refine ⟨h.1, fun e he => ?_⟩
    rcases hg.steps e he with he | rfl
    · exact h.2 e he
    · exact hne
  safe τ t s hi hs := triple_spared (.const True)
    (only_sessionTask spares_reading spares_session (fun _ => id) g hs.1
      (fun _ _ => spares_renewing) fun _ _ => trivial) s hi trivial

end

end Grants

open Grants

theorem good_grants {simple : Key → Option Value} {children : Key → List String}
    (hdraw : ∀ t t' id, drawn g tasks t = some id → drawn g tasks t' = some id → t = t')
    (hnew : ∀ t id, drawn g tasks t = some id →
      simple (.delegation id) = none ∧ ∀ owner, id ∉ children (.clientDelegations owner)) :
    (grantRules g tasks).Good ((tunnelStore g).launch tasks ⟨.start simple children, []⟩) := by
  have hinv : GrantInv g tasks ⟨.start simple children, []⟩ := by
    refine ⟨fun t id ht _ => ?_, fun id h => ?_, fun e he => ?_, fun e he => ?_⟩
    · obtain ⟨h1, h2⟩ := hnew t id ht
      exact ⟨h1, h2, fun _ h => absurd h List.not_mem_nil, fun _ => List.not_mem_nil⟩
    · obtain ⟨x, hx, _⟩ := h
      cases hx
    · cases he
    · cases he
  exact Rules.good_launch hinv (fun t ht => ⟨ht, fun _ h => absurd h List.not_mem_nil⟩)
    fun t τ hτ => triple_task hdraw hτ _ hinv
      ⟨fun _ h => absurd h List.not_mem_nil, fun _ _ => List.not_mem_nil⟩

theorem follows_grants {sched : List (ℕ × Label)} {c c' : Lib.Config tunnelSig StoreState}
    (hrun : (tunnelStore g).run sched c = some c') (hsettled : ∀ e ∈ c'.shared.steps, e.Settled) :
    (grantRules g tasks).Follows sched c :=
  follows_steps (P := Step.Settled) (fun _ _ _ h => h) (fun _ _ => trivial) hrun hsettled

/-- In every run in which grants are deleted only when no record of them is still to be written, an
Open that begins after the Revoke of its grant has returned success does not succeed.  Each Mint
draws a grant of its own. -/
theorem revoked_grant_stays_revoked (g : Given) (tasks : List Task) (simple : Key → Option Value)
    (children : Key → List String)
    (hdraw : ∀ t t' id, drawn g tasks t = some id → drawn g tasks t' = some id → t = t')
    (hnew : ∀ t id, drawn g tasks t = some id →
      simple (.delegation id) = none ∧ ∀ owner, id ∉ children (.clientDelegations owner))
    {sched : List (ℕ × Label)} {c : Lib.Config tunnelSig StoreState}
    (hrun : (tunnelStore g).run sched
      ((tunnelStore g).launch tasks ⟨.start simple children, []⟩) = some c)
    (hsettled : ∀ e ∈ c.shared.steps, e.Settled) :
    ∀ e ∈ c.shared.steps, ∀ id, e.OpensRevoked g id →
      ∀ e' ∈ c.shared.steps, e'.thread = e.thread → ¬ e'.act.Succeeds := by
  exact (Rules.good_run closed_grantRules (good_grants hdraw hnew) (follows_grants hrun hsettled)
    hrun).1.final

/-! A client mints a grant for its hostname, revokes it, and opens a session with its token. -/

def grantCalls : List Task :=
  [.call .plain (.mintDelegation [7] "a" 0 plainSecret),
    .call .plain (.revokeDelegation [7] plainGrant),
    .call .plain (.openDelegatedSession 1 0 (encodeDelegationToken plainSecret) 1 [])]

theorem drawn_grantCalls {t : ℕ} (h : Grants.drawn Given.plain grantCalls t = some id) : t = 0 := by
  match t, h with
  | 0, _ => rfl
  | 1, h => cases h
  | 2, h => cases h
  | n + 3, h => simp [Grants.drawn, grantCalls] at h

theorem revoked_grant_stays_revoked_minted :
    ∃ c, (tunnelStore .plain).run (turns 0 7 ++ turns 1 5 ++ turns 2 9)
        ((tunnelStore .plain).launch grantCalls ⟨.start (fun _ => none) oneHostname, []⟩) = some c ∧
      (∀ e ∈ c.shared.steps, e.Settled) ∧
      (∃ e ∈ c.shared.steps, e.OpensRevoked .plain plainGrant) ∧
      ∀ e ∈ c.shared.steps, ∀ id, e.OpensRevoked .plain id →
        ∀ e' ∈ c.shared.steps, e'.thread = e.thread → ¬ e'.act.Succeeds := by
  have h : ((tunnelStore .plain).run (turns 0 7 ++ turns 1 5 ++ turns 2 9)
      ((tunnelStore .plain).launch grantCalls ⟨.start (fun _ => none) oneHostname, []⟩)).map
        (fun c => decide ((∀ e ∈ c.shared.steps, e.Settled) ∧
          ∃ e ∈ c.shared.steps, e.OpensRevoked .plain plainGrant)) = some true := by
    decide +kernel
  obtain ⟨c, hrun, hc⟩ := Option.map_eq_some_iff.1 h
  obtain ⟨hsettled, hopens⟩ := of_decide_eq_true hc
  refine ⟨c, hrun, hsettled, hopens, revoked_grant_stays_revoked .plain grantCalls _ _ ?_ ?_ hrun
    hsettled⟩
  · exact fun t t' id ht ht' => (drawn_grantCalls ht).trans (drawn_grantCalls ht').symm
  · exact fun t id _ => ⟨rfl, fun owner => by simp [oneHostname]⟩

/-- Revoke finds the grant in the index and returns success before Mint has written the record; the
token that Mint then returns is good. -/
theorem revoked_grant_returns :
    ((tunnelStore .plain).run (turns 0 5 ++ turns 1 6 ++ turns 0 2 ++ turns 2 14)
      ((tunnelStore .plain).launch grantCalls ⟨.start (fun _ => none) oneHostname, []⟩)).map
        (fun c => decide (∃ e ∈ c.shared.steps, e.OpensRevoked .plain plainGrant ∧
          ∃ e' ∈ c.shared.steps, e'.thread = e.thread ∧ e'.act.Succeeds)) = some true := by
  decide +kernel

end Specter.Tunnel
