import Specter.Proofs.CustomHostname

/-!
# The routes of custom hostnames

An `AcmeValidate` that overlaps a `ReleaseTunnel` of the same hostname leaves it in the index of a
client without a record, and the client can then publish routes for it.  Where such calls do not
overlap, routes are published for the owner only.
-/

namespace Specter.Tunnel

open Lib (Prog Rules)

namespace Custom

section

variable {g : Given} {tasks : List Task} {t : ℕ} (a : Act) {l : Label} {c : Call}

theorem spares_reading (h : a.isReading = true) : a.SparesHostnames tasks t := by
  unfold Act.isReading at h
  split at h
  all_goals first | exact ⟨rfl, rfl, .inl rfl⟩ | trivial

theorem spares_lease (h : a.isLease = true) : a.SparesHostnames tasks t := by
  unfold Act.isLease at h
  split at h
  all_goals first | exact ⟨rfl, rfl, .inl rfl⟩ | cases h

theorem spares_session (h : a.isSession = true) : a.SparesHostnames tasks t := by
  unfold Act.isSession at h
  split at h
  all_goals trivial

theorem spares_opening (h : a.isOpening = true) : a.SparesHostnames tasks t := by
  unfold Act.isOpening at h
  split at h
  all_goals trivial

theorem spares_renewing (h : a.isRenewing = true) : a.SparesHostnames tasks t := by
  unfold Act.isRenewing at h
  split at h
  all_goals trivial

theorem triple_spared {P : StoreState → Prop} (hP : (ownerRules g tasks).Firm (Spares tasks) t P)
    {α : Type} {p : Rpc α}
    (hp : p.Only (Act.SparesHostnames tasks t) fun τ : Task => τ.isSession = true) :
    (ownerRules g tasks).Triple t P p fun _ => P :=
  neutral_spares.triple hP (fun _ h _ _ _ => h) hp

section Validate

variable {c : Call} {hostname : Hostname} (hc : c.registers g = some hostname)

include hc

theorem triple_findCustomHostname :
    (ownerRules g tasks).Triple t (fun s => (t, c) ∈ s.world.running) (findCustomHostname hostname)
      fun r s => (t, c) ∈ s.world.running ∧
        (r = .error .hostnameNotFound → s.world.simple (.customHostname hostname) = none) ∧
        ∀ b, r = .ok b → s.world.simple (.customHostname hostname) = some (.custom b) := by
  have hfirm : ∀ r : Except Failure CustomHostname, (ownerRules g tasks).Stable t fun s =>
      (t, c) ∈ s.world.running ∧
        (r = .error .hostnameNotFound → s.world.simple (.customHostname hostname) = none) ∧
        ∀ b, r = .ok b → s.world.simple (.customHostname hostname) = some (.custom b) := fun r =>
    (firm_record hc fun v => (r = .error .hostnameNotFound → v = none) ∧
      ∀ b, r = .ok b → v = some (.custom b)).stable
  refine .bind (triple_read neutral_spares (.get (.customHostname hostname))
    ⟨rfl, rfl, .inl rfl⟩ (firm_running c)
    (fun r => firm_record hc fun v => ∀ v', r = .ok v' → v = v') fun s o _ hs =>
      ⟨hs, fun v' hv => World.exec_get hv⟩) fun r => ?_
  split
  · exact .ret (hfirm _) fun s _ hs => ⟨hs.1, nofun, nofun⟩
  · exact .ret (hfirm _) fun s _ hs => ⟨hs.1, fun _ => hs.2 _ rfl, nofun⟩
  · exact .ret (hfirm _) fun s _ hs => ⟨hs.1, nofun, fun _ h => Except.ok.inj h ▸ hs.2 _ rfl⟩
  · exact .ret (hfirm _) fun s _ hs => ⟨hs.1, nofun, nofun⟩

theorem triple_checkAcme (proof : Bool) (token : Token) (client : Peer) :
    (ownerRules g tasks).Triple t (fun s => (t, c) ∈ s.world.running)
      (checkAcme g.acme hostname proof token client)
      fun r s => (∃ b, r = .ok b) → Unclaimed t c hostname token s := by
  have hfirm : ∀ φ : Prop, (ownerRules g tasks).Stable t fun s => φ →
      Unclaimed t c hostname token s :=
    fun φ => ((firm_record hc fun v => v = none ∨ NamesClient token v).imp φ).stable
  unfold checkAcme
  dsimp only
  split_ifs
  · exact .refused
  · exact .refused
  · exact .refused
  refine .bind (triple_findCustomHostname hc) fun r => ?_
  split
  · rename_i bundle
    split_ifs with hother
    · exact .refused
    · refine .ret (hfirm _) fun s _ hs _ => ⟨hs.1, .inr ?_⟩
      rw [World.Names, hs.2.2 bundle rfl]
      exact not_not.1 fun h => hother (.inl h)
  · exact .ret (hfirm _) fun s _ hs _ => ⟨hs.1, .inl (hs.2.1 rfl)⟩
  · exact .refused

theorem triple_saveCustomHostname (token : Token) (client : Peer) :
    (ownerRules g tasks).Triple t (Unclaimed t c hostname token)
      (saveCustomHostname hostname token client) fun _ _ => True := by
  have hnamed : (ownerRules g tasks).Firm (Spares tasks) t _ := firm_record hc (NamesClient token)
  refine .bind (triple_kv (.put (.customHostname hostname) (.custom ⟨client, token⟩))
    (firm_record hc fun v => v = none ∨ NamesClient token v).stable
    (fun r => (hnamed.imp (r = .ok ())).stable)
    fun s l r s' hi hs hl he _ => save_step hc hi hl hs he) fun r => ?_
  cases r with
  | error e => exact .done _
  | ok u =>
    refine .bind (.pre (triple_kv (.prefixAppend (.clientHostnames token) hostname)
      (Q := fun _ _ => True) hnamed.stable (fun _ => .const True) fun s l r s' hi hs hl he _ => ?_)
      fun s _ h => h rfl) fun r => ?_
    · obtain ⟨h1, h2⟩ := enter_step hc hi hl hs he
      exact ⟨h1, h2, trivial⟩
    · split <;> exact .done _

end Validate

theorem triple_acmeValidate (token : Token) (client : Peer) (hostname : Hostname) (proof : Bool) :
    (ownerRules g tasks).Triple t
      (fun s => (t, .acmeValidate token client hostname proof) ∈ s.world.running)
      (acmeValidate g.acme token client hostname proof) fun _ _ => True := by
  unfold acmeValidate
  split
  · exact .done _
  rename_i hostname' hnormal
  have hc : (Call.acmeValidate token client hostname proof).registers g = some hostname' := by
    simp only [Call.registers, hnormal]
    rfl
  refine .bind (triple_checkAcme hc proof token client) fun r => ?_
  split
  · exact .done _
  · exact .pre (triple_saveCustomHostname hc token client) fun s _ h => h ⟨_, rfl⟩
  · refine .bind (.pre (triple_spared (firm_record hc fun v => v = none ∨ NamesClient token v)
      (.perform (spares_reading _ rfl))) fun s _ h => h ⟨_, rfl⟩) fun r => ?_
    split
    · exact .done _
    · split_ifs
      · exact .done _
      · exact triple_saveCustomHostname hc token client

section Release

variable {c : Call} {hostname : Hostname} (hc : c.settles g = some hostname) (token : Token)

include hc

theorem triple_unadvertiseTunnel :
    (ownerRules g tasks).Triple t (fun s => (t, c) ∈ s.world.running)
      (unadvertiseTunnel token hostname)
      fun r s => r = .ok () → (t, c) ∈ s.world.running ∧
        ∀ token', hostname.dotted = true ∧ token' ≠ token →
          hostname ∉ s.world.children (.clientHostnames token') := by
  have hfirm : (ownerRules g tasks).Firm (Spares tasks) t _ :=
    firm_absent hc fun token' => hostname.dotted = true ∧ token' ≠ token
  refine .bind (triple_read neutral_spares (.prefixContains (.clientHostnames token) hostname)
    ⟨rfl, rfl, .inl rfl⟩ (firm_running c) (fun r => hfirm.imp (r = .ok true))
    fun s o hi hs hr => ⟨hs, fun token' ⟨hd, hne⟩ hmem => ?_⟩) fun r => ?_
  · have hmine := hi.named token hostname hd ((World.exec_contains hr).2 rfl)
    exact hne ((hi.named token' hostname hd hmem).unique hmine)
  split
  · exact .ret (hfirm.imp _).stable fun _ _ _ h => by cases h
  · exact .ret (hfirm.imp _).stable fun _ _ _ h => by cases h
  refine .bind (.pre (triple_spared hfirm (only_promiseAll spares_reading fun j hj => ?_))
    fun s _ h => h rfl) fun r => ?_
  · obtain ⟨i, _, rfl⟩ := List.mem_map.1 hj
    exact .perform ⟨rfl, rfl, .inl rfl⟩
  · split
    · exact .ret (hfirm.imp _).stable fun _ _ _ h => by cases h
    · exact .ret (hfirm.imp _).stable fun _ _ h _ => h

theorem triple_releaseHostname :
    (ownerRules g tasks).Triple t (fun s => (t, c) ∈ s.world.running)
      (releaseHostname g.waf token hostname) fun _ _ => True := by
  have hfirm : (ownerRules g tasks).Firm (Spares tasks) t _ :=
    firm_absent hc fun token' => hostname.dotted = true ∧ token' ≠ token
  have hgone : (ownerRules g tasks).Firm (Spares tasks) t _ :=
    firm_absent hc fun _ => hostname.dotted = true
  refine .bind (triple_unadvertiseTunnel hc token) fun r => ?_
  split
  · exact .done _
  refine .bind (.pre (triple_spared hfirm (only_clearHostWAF spares_reading ⟨rfl, rfl, .inl rfl⟩ _))
    fun s _ h => h rfl) fun r => ?_
  split
  · exact .done _
  refine .bind (triple_kv (.prefixRemove (.clientHostnames token) hostname) hfirm.stable
    (fun r => (hgone.imp (r = .ok ())).stable)
    fun s l r s' hi hs hl he _ => remove_step hi hl hs he) fun r => ?_
  split
  · exact .done _
  refine .bind (.pre (triple_kv (.delete (.customHostname hostname)) (Q := fun _ _ => True)
    hgone.stable (fun _ => .const True) fun s l r s' hi hs hl he _ => ?_) fun s _ h => h rfl)
    fun _ => .done _
  obtain ⟨h1, h2⟩ := forget_step hc hi hl hs he
  exact ⟨h1, h2, trivial⟩

end Release

def Checked (t : ℕ) (token : Token) (hostname : Hostname) (s : StoreState) : Prop :=
  hostname.dotted = true → ∃ e ∈ s.steps, e.thread = t ∧ e.act.LooksUp token hostname ∧
    e.before.Names hostname token

theorem firm_checked (token : Token) (hostname : Hostname) :
    (ownerRules g tasks).Firm (Spares tasks) t (Checked t token hostname) where
  stable s s' t' _ _ _ hg _ h hd := by
    obtain ⟨e, he, h⟩ := h hd
    exact ⟨e, hg.steps e he, h⟩
  kept hn h hd := by
    obtain ⟨e, he, h⟩ := h hd
    exact ⟨e, hn.steps e he, h⟩

theorem triple_registered (token : Token) (hostname : Hostname) :
    (ownerRules g tasks).Triple t (fun _ => True)
      (kv (.prefixContains (.clientHostnames token) hostname))
      fun r s => r = .ok true → Checked t token hostname s := by
  refine triple_kv (.prefixContains (.clientHostnames token) hostname) (.const True)
    (fun r => ((firm_checked token hostname).imp (r = .ok true)).stable)
    fun s l r s' hi _ hl he _ => ?_
  have hn : Spares tasks t s s' := moves_kv hl (Step.rightful_of_not_routes (.inl rfl)) he
  obtain ⟨hi', hg⟩ := neutral_spares.keeps hn hi
  refine ⟨hi', hg, fun hr hd => ?_⟩
  cases he
  exact ⟨_, List.mem_cons_self .., rfl, ⟨rfl, rfl⟩,
    hi.named token hostname hd ((World.exec_contains hr).2 rfl)⟩

theorem route_step {token : Token} {hostname : Hostname} {num : ℕ} {v : Value} {s s' : StoreState}
    {r : (KvOp.put (.routing hostname num) v).Res} (ht : publisher tasks t = some token)
    (hi : OwnerInv g tasks s) (hl : ∀ e, l.outcome ≠ .late e) (hs : Checked t token hostname s)
    (h : StoreState.exec l t s (.kv (.put (.routing hostname num) v)) = some (r, s')) :
    OwnerInv g tasks s' ∧ OwnerGuar g t s s' ∧ Checked t token hostname s' := by
  have hr : (⟨t, .kv (.put (.routing hostname num) v), s.world, s'.world⟩ : Step).Rightful tasks
      s.steps := by
    simp only [Step.Rightful, ht, Act.routes]
    exact fun hd => .inr (hs hd)
  have hn : Spares tasks t s s' := moves_kv hl hr h
  obtain ⟨hi', hg⟩ := neutral_spares.keeps hn hi
  exact ⟨hi', hg, (firm_checked (g := g) token hostname).kept hn hs⟩

theorem triple_publishRoutes {token : Token} (ht : publisher tasks t = some token) (client : Peer)
    (hostname : Hostname) (requested : List Peer) :
    (ownerRules g tasks).Triple t (fun _ => True)
      (publishRoutes token client hostname requested) fun _ _ => True := by
  have hchecked : (ownerRules g tasks).Firm (Spares tasks) t _ := firm_checked token hostname
  refine .bind (triple_registered token hostname) fun r => ?_
  split
  · exact .done _
  · exact .done _
  refine .bind (.pre (triple_spared hchecked (only_promiseAll spares_reading fun j hj => ?_))
    fun s _ h => h rfl) fun r => ?_
  · obtain ⟨p, _, rfl⟩ := List.mem_map.1 hj
    exact only_lookupDestination spares_reading _
  split
  · exact .done _
  refine .bind (.only hchecked.stable (φ := fun a : Act => a.SparesHostnames tasks t ∨
    ∃ num v, a = .kv (.put (.routing hostname num) v)) (ψ := fun _ => False)
    (fun a ha s l r s' hi hs hl he _ => ?_) (fun _ => False.elim)
    (only_promiseAll (fun a ha => .inl (spares_reading a ha)) fun j hj => ?_)) fun r => ?_
  · rcases ha with ha | ⟨num, v, rfl⟩
    · have hn := neutral_spares.step ha hl he
      obtain ⟨hi', hg⟩ := neutral_spares.keeps hn hi
      exact ⟨hi', hg, hchecked.kept hn hs⟩
    · exact route_step ht hi hl hs he
  · obtain ⟨i, _, rfl⟩ := List.mem_mapIdx.1 hj
    exact only_publishRoute (fun num v => .inr ⟨num, v, rfl⟩) _ _ _
  · dsimp only
    split_ifs <;> exact .done _

theorem begin_step {s s' : StoreState} {r : Unit} (hi : OwnerInv g tasks s)
    (hk : ∀ e ∈ s'.steps, e.Apart g) (h : StoreState.exec l t s (.begin c) = some (r, s')) :
    OwnerInv g tasks s' ∧ OwnerGuar g t s s' ∧ (t, c) ∈ s'.world.running := by
  cases h
  have hapart : ∀ x ∈ s.world.running, c.Apart g x.2 := hk _ (List.mem_cons_self ..)
  refine ⟨⟨hi.pending, hi.named, fun x hx y hy hne => ?_, fun e he => ?_⟩,
    ⟨fun _ => .inl rfl, fun _ _ => .inl, fun x hx _ => List.mem_cons_of_mem _ hx,
      fun e => List.mem_cons_of_mem _⟩, List.mem_cons_self ..⟩
  · rcases List.mem_cons.1 hx with rfl | hx
    · rcases List.mem_cons.1 hy with rfl | hy
      · exact absurd rfl hne
      · exact hapart y hy
    · rcases List.mem_cons.1 hy with rfl | hy
      · exact (hapart x hx).symm
      · exact hi.apart x hx y hy hne
  · rcases StoreState.mem_steps_record.1 he with rfl | he
    · exact Step.rightful_of_not_routes (.inl rfl)
    · exact (hi.rightful e he).mono fun e => List.mem_cons_of_mem _

theorem finish_step {s s' : StoreState} {res : Except RpcError Response} {r : Unit}
    (hi : OwnerInv g tasks s) (h : StoreState.exec l t s (.finish c res) = some (r, s')) :
    OwnerInv g tasks s' ∧ OwnerGuar g t s s' := by
  cases h
  refine ⟨⟨hi.pending, hi.named, fun x hx y hy => ?_, fun e he => ?_⟩,
    ⟨fun _ => .inl rfl, fun _ _ => .inl, fun x hx hne => ?_, fun e => List.mem_cons_of_mem _⟩⟩
  · exact hi.apart x (List.mem_of_mem_filter hx) y (List.mem_of_mem_filter hy)
  · rcases StoreState.mem_steps_record.1 he with rfl | he
    · exact Step.rightful_of_not_routes (.inl rfl)
    · exact (hi.rightful e he).mono fun e => List.mem_cons_of_mem _
  · exact List.mem_filter.2 ⟨hx, by simpa using hne⟩

theorem triple_call {site : Site}
    (hp : (ownerRules g tasks).Triple t (fun s => (t, c) ∈ s.world.running) (c.prog g site)
      fun _ _ => True) :
    (ownerRules g tasks).Triple t (fun _ => True) (body g (.call site c)) fun _ _ => True := by
  refine .bind (Q := fun _ (s : StoreState) => (t, c) ∈ s.world.running) (.perform (.const True)
    (fun _ => (firm_running c).stable) fun s l r s' hi _ _ he hk => begin_step (l := l) hi hk he)
    fun _ => ?_
  refine .bind hp fun res => .perform (.const True) (fun _ => .const True)
    fun s l r s' hi _ _ he _ => ?_
  obtain ⟨h1, h2⟩ := finish_step (l := l) hi he
  exact ⟨h1, h2, trivial⟩

theorem triple_task {τ : Task} (ht : tasks[t]? = some τ) :
    (ownerRules g tasks).Triple t (fun _ => True) (body g τ) fun _ _ => True := by
  have hact : ∀ a, (Act.session a).isSession = true →
      (ownerRules g tasks).Triple t (fun _ => True) (session a) fun _ _ => True := fun a ha =>
    triple_spared (.const True) (.perform (spares_session _ ha))
  cases τ with
  | call site c =>
    refine triple_call ?_
    cases c with
    | acmeValidate token client hostname proof =>
      exact triple_acmeValidate token client hostname proof
    | releaseTunnel token hostname =>
      exact triple_withLease neutral_spares spares_lease (firm_running _) (fun _ => .const True)
        (fun _ _ _ => trivial) (triple_releaseHostname rfl token)
    | publishTunnel token client hostname servers =>
      have hpub : publisher tasks t = some token := by simp [publisher, ht]
      simp only [Call.prog, publishTunnel]
      split_ifs
      · exact .done _
      · exact .done _
      · exact .pre (triple_withLease neutral_spares spares_lease (.const True)
          (fun _ => .const True) (fun _ _ _ => trivial) (triple_publishRoutes hpub _ _ _))
          fun _ _ _ => trivial
    | _ =>
      have hpub : publisher tasks t = none := by simp [publisher, ht]
      refine .pre (triple_spared (.const True) (only_prog spares_reading spares_lease
        spares_session (fun _ => id) (fun _ => spares_opening) (fun op h => ?_) _))
        fun _ _ _ => trivial
      cases h <;> exact ⟨rfl, rfl, .inr hpub⟩
  | dial sessionAlias hostname =>
    exact triple_spared (.const True) (only_dialTask spares_session g _ _)
  | disconnect conn => exact hact _ rfl
  | shutdown => exact hact _ rfl
  | arrive =>
    refine .perform (.const True) (fun _ => .const True) fun s l r s' hi _ _ he _ => ?_
    -- Nothing is pending.
    obtain ⟨w, hw, _⟩ := Option.map_eq_some_iff.1 he
    simp [World.arrive, hi.pending] at hw
  | _ =>
    exact triple_spared (.const True)
      (only_sessionTask spares_reading spares_session (fun _ => id) g rfl
        (fun _ _ => spares_renewing) fun _ _ => trivial)

theorem closed_ownerRules : (ownerRules g tasks).Closed where
  stable _ := .const _
  safe _ _ s hi hs := triple_spared (.const True)
    (only_sessionTask spares_reading spares_session (fun _ => id) g hs.1
      (fun _ _ => spares_renewing) fun _ _ => trivial) s hi trivial

end

end Custom

open Custom

/-- If no call registers a hostname while another one registers or releases it, `PublishTunnel`
writes routes of custom hostnames for their owners only. -/
theorem custom_routes_rightful (g : Given) (tasks : List Task) (simple : Key → Option Value)
    (children : Key → List String)
    (hnamed : ∀ token (hostname : Hostname), hostname.dotted = true →
      hostname ∈ children (.clientHostnames token) →
      (World.start simple children).Names hostname token)
    {sched : List (ℕ × Label)} (hsched : ∀ x ∈ sched, ∀ e, x.2.outcome ≠ .late e)
    {c : Lib.Config tunnelSig StoreState}
    (hrun : (tunnelStore g).run sched
      ((tunnelStore g).launch tasks ⟨.start simple children, []⟩) = some c)
    (hapart : ∀ e ∈ c.shared.steps, e.Apart g) :
    ∀ e ∈ c.shared.steps, e.Rightful tasks c.shared.steps := by
  have hinv : OwnerInv g tasks ⟨.start simple children, []⟩ :=
    ⟨rfl, hnamed, fun _ h => absurd h List.not_mem_nil, fun _ h => absurd h List.not_mem_nil⟩
  have hgood : (ownerRules g tasks).Good
      ((tunnelStore g).launch tasks ⟨.start simple children, []⟩) :=
    Rules.good_launch hinv (fun _ ht => ht) fun t τ hτ => triple_task hτ _ hinv trivial
  have hfollows : (ownerRules g tasks).Follows sched
      ((tunnelStore g).launch tasks ⟨.start simple children, []⟩) :=
    follows_steps (P := fun e => e.Apart g) (fun _ _ _ h => h) hsched hrun hapart
  exact (Rules.good_run closed_ownerRules hgood hfollows hrun).1.rightful

/-! Clients 7 and 8 validate the hostname `a.b.c`, one after the other; the only server is at
`tunnel`. -/

def oneServer (k : Key) : Option Value :=
  if k = .destinationByTunnel "tunnel" then
    some (.destination ⟨Site.plain.chord, Site.plain.tunnel⟩)
  else none

/-- Every operation is carried out and answered, and DNS has this record. -/
def Label.confirmed (cname : String) : Label where
  outcome := .ok
  answer
    | .lookupCNAME _ => some cname
    | a => plainAnswer a

def validation (t : ℕ) (cname : String) : List (ℕ × Label) := List.replicate 6 (t, .confirmed cname)

def customCalls : List Task :=
  [.call .plain (.acmeValidate [7] ⟨7, "t", true⟩ "a.b.c" true),
    .call .plain (.releaseTunnel [7] "a.b.c"),
    .call .plain (.acmeValidate [7] ⟨7, "t", true⟩ "a.b.c" true),
    .call .plain (.acmeValidate [8] ⟨8, "u", true⟩ "a.b.c" true),
    .call .plain (.publishTunnel [7] ⟨7, "t", true⟩ "a.b.c" [Site.plain.tunnel])]

/-- The client validates the hostname and publishes it, and then releases it. -/
theorem custom_routes_rightful_validated :
    ∃ c, (tunnelStore .plain).run (validation 0 "07.acme.test." ++ turns 4 9 ++ turns 1 14)
        ((tunnelStore .plain).launch customCalls ⟨.start oneServer (fun _ => []), []⟩) = some c ∧
      (∀ e ∈ c.shared.steps, e.Apart .plain) ∧
      (∃ e ∈ c.shared.steps, publisher customCalls e.thread = some [7] ∧
        e.act.routes = some "a.b.c") ∧
      ∀ e ∈ c.shared.steps, e.Rightful customCalls c.shared.steps := by
  have h : ((tunnelStore .plain).run
      (validation 0 "07.acme.test." ++ turns 4 9 ++ turns 1 14)
      ((tunnelStore .plain).launch customCalls ⟨.start oneServer (fun _ => []), []⟩)).map
        (fun c => decide ((∀ e ∈ c.shared.steps, e.Apart .plain) ∧
          ∃ e ∈ c.shared.steps, publisher customCalls e.thread = some [7] ∧
            e.act.routes = some "a.b.c")) = some true := by
    decide +kernel
  obtain ⟨c, hrun, hc⟩ := Option.map_eq_some_iff.1 h
  obtain ⟨hapart, hroutes⟩ := of_decide_eq_true hc
  refine ⟨c, hrun, hapart, hroutes,
    custom_routes_rightful .plain customCalls _ _ ?_ ?_ hrun hapart⟩
  · exact fun _ _ _ h => absurd h List.not_mem_nil
  · intro x hx e
    simp only [turns, validation, List.mem_append, List.mem_replicate] at hx
    rcases hx with (⟨-, rfl⟩ | ⟨-, rfl⟩) | ⟨-, rfl⟩ <;> exact nofun

/-- A client validates its hostname once more while it releases it, and is left with the hostname
in its index.  When another client has validated the hostname, the first one publishes a route. -/
theorem former_owner_publishes :
    ((tunnelStore .plain).run
      (validation 0 "07.acme.test." ++ turns 2 3 ++ turns 1 11 ++ turns 2 2 ++ turns 1 3 ++
        validation 3 "08.acme.test." ++ turns 4 9)
      ((tunnelStore .plain).launch customCalls ⟨.start oneServer (fun _ => []), []⟩)).map
        (fun c => decide (∃ e ∈ c.shared.steps, ¬ e.Rightful customCalls c.shared.steps ∧
          e.before.Names "a.b.c" [8])) = some true := by
  decide +kernel

end Specter.Tunnel
