import Specter.Proofs.HostWaf

/-!
# Saved policies are not lost

In every run of `SetHostWAF` and `ReleaseTunnel` calls by the owners of hostnames, a save that
succeeds has replaced the version it was made from, and nothing is saved for a hostname that was
released.
-/

namespace Specter.Tunnel

open Lib (Prog Rules)

namespace Policies

section

variable {g : Given} {owner : Hostname → Token} {t : ℕ} {α : Type} {token : Token} {c : Call}
  {l : Label} {r : Unit}

theorem spares_reading (a : Act) (h : a.isReading = true) : a.SparesPolicies := by
  unfold Act.isReading at h
  split at h
  all_goals first | exact ⟨rfl, rfl, rfl⟩ | trivial

theorem triple_spared {P : StoreState → Prop} (hP : (saveRules g owner).Firm (Spares g owner) t P)
    {p : Rpc α} (hp : p.Only Act.SparesPolicies fun _ => False) :
    (saveRules g owner).Triple t P p fun _ => P :=
  neutral_spares.triple hP (fun _ h => h.elim) hp

theorem triple_leased {failed : ChordError → RpcError} {p : Rpc (Except RpcError α)}
    {Q : Except RpcError α → StoreState → Prop} (hQ : ∀ r, (saveRules g owner).Stable t (Q r))
    (hfail : ∀ e s, Q (.error e) s)
    (hp : (saveRules g owner).Triple t (Leased t token) p Q)
    (hkeep : ∀ r s s', SaveGuar owner t s s' → Q r s → Q r s') :
    (saveRules g owner).Triple t (fun _ => True) (withLease (.clientLease token) failed p) Q := by
  have hheld : (saveRules g owner).Stable t (Leased t token) := (firm_leased token).stable
  refine .bind (triple_kv (.acquire (.clientLease token)) (.const True)
    (Q := fun r s => ∀ n, r = .ok n → n = t ∧ Leased t token s)
    (fun r s s' t' hne hi hi' hg hk h n hn =>
      ⟨(h n hn).1, hheld s s' t' hne hi hi' hg hk (h n hn).2⟩)
    fun s l r s' hi _ hl he _ => acquire_step hi hl he) fun r => ?_
  cases r with
  | error e => exact .ret (hQ _) fun s _ _ => hfail _ s
  | ok n =>
    intro s hi hs
    obtain ⟨rfl, hlease⟩ := hs n rfl
    refine (Rules.Triple.bind hp fun res => .bind (triple_kv (.release (.clientLease token) n)
      (hQ res) (Q := fun _ => Q res) (fun _ => hQ res) fun s l r s' hi hs hl he _ => ?_)
      fun _ => .ret (hQ res) fun _ _ h => h) s hi hlease
    obtain ⟨hi', hg⟩ := release_step hi hl he
    exact ⟨hi', hg, hkeep res s s' hg hs⟩

section Set

variable {hostname : Hostname} {token : Token} (ho : owner hostname = token)

include ho

theorem triple_requireWAFHostname :
    (saveRules g owner).Triple t (Leased t token) (requireWAFHostname token hostname)
      fun r s => r = .ok () → Owns t token hostname s := by
  have hheld : (saveRules g owner).Firm (Spares g owner) t _ := firm_held ho fun _ _ => True
  have hfirm : (saveRules g owner).Firm (Spares g owner) t _ :=
    firm_held ho fun _ hostnames => hostname ∈ hostnames
  have howns : (saveRules g owner).Triple t (fun s => Leased t token s ∧ True)
      (ownsHostname token hostname) fun r s => r = .ok true → Owns t token hostname s := by
    refine .bind (triple_read neutral_spares (.prefixContains (.clientHostnames token) hostname)
      ⟨rfl, rfl, rfl⟩ hheld (fun r => hfirm.imp (r = .ok true)) fun s o _ hs hr =>
        ⟨hs.1, (World.exec_contains hr).2 rfl⟩) fun r => ?_
    split
    · exact .ret (hfirm.imp _).stable nofun
    · exact .ret (hfirm.imp _).stable nofun
    · refine .pre (P := Owns t token hostname) ?_ fun s _ h => h rfl
      split_ifs
      · refine .bind (triple_spared hfirm (only_findCustomHostname spares_reading hostname))
          fun r => ?_
        split <;> exact .ret (hfirm.imp _).stable fun _ _ h _ => h
      · exact .ret (hfirm.imp _).stable fun _ _ h _ => h
  refine .bind (howns.pre fun s _ h => ⟨h, trivial⟩) fun r => ?_
  split
  · exact .ret (hfirm.imp _).stable nofun
  · exact .ret (hfirm.imp _).stable nofun
  · exact .ret (hfirm.imp _).stable fun _ _ h _ => h rfl

theorem triple_readHostWAF :
    (saveRules g owner).Triple t (Owns t token hostname) (readHostWAF g.waf hostname)
      fun r s => ∀ found, r = .ok found →
        Finds g t token hostname (ownHostWAF token found).2 s := by
  have hfirm : ∀ r : Except Failure (Option HostWAFRecord × String),
      (saveRules g owner).Stable t fun s => ∀ found, r = .ok found →
        Finds g t token hostname (ownHostWAF token found).2 s :=
    fun r s s' t' hne hi hi' hg hk h found hr => (firm_held ho fun v hostnames =>
      hostname ∈ hostnames ∧ savedVersion g.waf token hostname v =
        some (ownHostWAF token found).2).stable s s' t' hne hi hi' hg hk (h found hr)
  refine .bind (triple_read neutral_spares (.get (.hostWAF hostname)) ⟨rfl, rfl, rfl⟩
    (firm_held ho fun _ hostnames => hostname ∈ hostnames)
    (fun r => firm_held ho fun v hostnames => hostname ∈ hostnames ∧ ∀ v', r = .ok v' → v = v')
    fun s o _ hs => ⟨hs.1, hs.2, fun v' hv => World.exec_get hv⟩) fun r => ?_
  split
  · exact .ret (hfirm _) nofun
  · refine .ret (hfirm _) fun s _ hs found hfound => ⟨hs.1, hs.2.1, ?_⟩
    cases hfound
    rw [hs.2.2 _ rfl]
    rfl
  · refine .ret (hfirm _) fun s _ hs found hfound => ⟨hs.1, hs.2.1, ?_⟩
    rw [hs.2.2 _ rfl]
    simp only [savedVersion, hfound]
    rfl
  · exact .ret (hfirm _) nofun

theorem triple_replaceHostWAF (record : HostWAFRecord) (data : Bytes) (version : String) :
    (saveRules g owner).Triple t (Leased t token)
      (replaceHostWAF g.waf token hostname record data version)
      fun r s => (∃ x, r = .ok x) → Replaced g t token hostname version s := by
  have hdone : ∀ r : Except RpcError Response, (saveRules g owner).Stable t fun s =>
      (∃ x, r = .ok x) → Replaced g t token hostname version s :=
    fun r => ((firm_replaced token hostname version).imp _).stable
  refine .bind (triple_requireWAFHostname ho) fun r => ?_
  split
  · exact .refused
  refine .bind ((triple_readHostWAF ho).pre fun s _ h => h rfl) fun r => ?_
  split
  · exact .refused
  rename_i found
  split_ifs with hversion
  · exact .refused
  have hversion : (ownHostWAF token found).2 = version := not_not.1 hversion
  refine .bind (.pre (triple_kv (.put (.hostWAF hostname) (.bytes data))
    (firm_held ho fun v hostnames => hostname ∈ hostnames ∧
      savedVersion g.waf token hostname v = some version).stable
    (fun r => ((firm_replaced token hostname version).imp (r = .ok ())).stable)
    fun s l r s' hi hs hl he _ => put_step ho hi hl hs he) fun s _ h => hversion ▸ h found rfl)
    fun r => ?_
  cases r with
  | error e => exact .refused
  | ok u => exact .ret (hdone _) fun _ _ h _ => h rfl

end Set

theorem triple_setHostWAF {hostname : Hostname}
    (ho : ∀ hostname', normalizeWAFHostname g.acme.normalize hostname = .ok hostname' →
      owner hostname' = token) (policy : Option WAFPolicy) (version : String) :
    (saveRules g owner).Triple t (fun _ => True)
      (setHostWAF g.acme.normalize g.waf token hostname policy version)
      fun r s => (∃ x, r = .ok x) → ∃ hostname',
        normalizeWAFHostname g.acme.normalize hostname = .ok hostname' ∧
          Replaced g t token hostname' version s := by
  unfold setHostWAF
  split
  · exact .refused
  · exact .refused
  rename_i hostname' input hnormal
  split
  · exact .refused
  dsimp only
  split_ifs
  · exact .refused
  refine (triple_leased (fun r => ((firm_replaced token hostname' version).imp _).stable)
    (fun e s h => ?_) (triple_replaceHostWAF (ho hostname' hnormal) _ _ version)
    fun r s s' hg h hx => ?_).post fun r s h hx => ⟨hostname', hnormal, h hx⟩
  · obtain ⟨x, hx⟩ := h
    cases hx
  · obtain ⟨e, he, hrep⟩ := h hx
    exact ⟨e, hg.steps e he, hrep⟩

section Release

variable {hostname : Hostname} {token : Token} (ho : owner hostname = token)

include ho

theorem triple_clearHostWAF :
    (saveRules g owner).Triple t (Leased t token) (clearHostWAF g.waf token hostname)
      fun _ => Leased t token := by
  have hheld : (saveRules g owner).Firm (Spares g owner) t _ := firm_leased token
  refine .bind (triple_spared hheld (only_readHostWAF spares_reading g.waf hostname)) fun r => ?_
  split
  · exact .same hheld.stable
  · exact .same hheld.stable
  split_ifs
  · exact .same hheld.stable
  refine .bind (triple_kv (.delete (.hostWAF hostname)) hheld.stable (fun _ => hheld.stable)
    fun s l r s' hi hs hl he _ => clear_step ho hi hl hs he) fun r => ?_
  split <;> exact .same hheld.stable

theorem triple_releaseHostname :
    (saveRules g owner).Triple t (Leased t token) (releaseHostname g.waf token hostname)
      fun r s => (∃ x, r = .ok x) → hostname ∉ s.world.children (.clientHostnames token) := by
  have hheld : (saveRules g owner).Firm (Spares g owner) t _ := firm_leased token
  have habsent : (saveRules g owner).Firm (Spares g owner) t _ := firm_absent token hostname
  refine .bind (triple_spared hheld
    (only_unadvertiseTunnel spares_reading (fun _ => ⟨rfl, rfl, rfl⟩) token)) fun r => ?_
  split
  · exact .refused
  refine .bind (triple_clearHostWAF ho) fun r => ?_
  split
  · exact .refused
  refine .bind (triple_kv (.prefixRemove (.clientHostnames token) hostname) hheld.stable
    (fun r => (habsent.imp (r = .ok ())).stable)
    fun s l r s' hi hs hl he _ => remove_step hi hl hs he) fun r => ?_
  split
  · exact .refused
  refine .bind (.pre (triple_spared habsent (.perform ⟨rfl, rfl, rfl⟩))
    fun s _ h => h rfl) fun _ => .ret (habsent.imp _).stable fun _ _ h _ => h

end Release

def Done (g : Given) (t : ℕ) (c : Call) (res : Except RpcError Response) (s : StoreState) : Prop :=
  (∃ x, res = .ok x) →
    match c with
    | .setHostWAF token hostname _ version => ∃ hostname',
      normalizeWAFHostname g.acme.normalize hostname = .ok hostname' ∧
        Replaced g t token hostname' version s
    | .releaseTunnel token hostname => hostname ∉ s.world.children (.clientHostnames token)
    | _ => False

theorem stable_done (c : Call) (res : Except RpcError Response) :
    (saveRules g owner).Stable t (Done g t c res) := by
  intro s s' t' _ _ _ hg _ h hx
  have := h hx
  cases c with
  | setHostWAF =>
    obtain ⟨hostname', hn, e, he, hr⟩ := this
    exact ⟨hostname', hn, e, hg.steps e he, hr⟩
  | releaseTunnel => exact fun hmem => this (hg.fewer _ _ hmem)
  | _ => exact this.elim

theorem triple_prog (hc : c.OfOwner g owner) (site : Site) :
    (saveRules g owner).Triple t (fun _ => True) (c.prog g site) (Done g t c) := by
  cases c with
  | setHostWAF token hostname policy version => exact triple_setHostWAF hc policy version
  | releaseTunnel token hostname =>
    refine triple_leased (fun r => ((firm_absent token hostname).imp _).stable) (fun e s h => ?_)
      (triple_releaseHostname hc) fun r s s' hg h hx hmem => h hx (hg.fewer _ _ hmem)
    obtain ⟨x, hx⟩ := h
    cases hx
  | _ => exact hc.elim

theorem begin_step {s s' : StoreState} (hi : SaveInv g owner s)
    (h : StoreState.exec l t s (.begin c) = some (r, s')) :
    SaveInv g owner s' ∧ SaveGuar owner t s s' := by
  cases h
  refine ⟨⟨hi.pending, hi.released, fun e he => ?_, fun e he => ?_⟩,
    ⟨fun _ _ _ => id, fun _ => .inl rfl, fun _ => .inl rfl, fun _ _ => id,
      fun e => List.mem_cons_of_mem _⟩⟩
  · rcases StoreState.mem_steps_record.1 he with rfl | he
    · trivial
    · exact hi.registered e he
  · rcases StoreState.mem_steps_record.1 he with rfl | he
    · trivial
    · exact (hi.justified e he).mono fun e => List.mem_cons_of_mem _

theorem finish_step {s s' : StoreState} {res : Except RpcError Response} (hi : SaveInv g owner s)
    (hs : Done g t c res s) (h : StoreState.exec l t s (.finish c res) = some (r, s')) :
    SaveInv g owner s' ∧ SaveGuar owner t s s' := by
  cases h
  refine ⟨⟨hi.pending, fun x hx token hostname hrel => ?_, fun e he => ?_, fun e he => ?_⟩,
    ⟨fun _ _ _ => id, fun _ => .inl rfl, fun _ => .inl rfl, fun _ _ => id,
      fun e => List.mem_cons_of_mem _⟩⟩
  · rcases List.mem_cons.1 hx with rfl | hx
    · unfold Releases at hrel
      split at hrel
      · rename_i heq
        cases heq
        obtain ⟨rfl, rfl⟩ := hrel
        exact hs ⟨_, rfl⟩
      · exact hrel.elim
    · exact hi.released x hx token hostname hrel
  · rcases StoreState.mem_steps_record.1 he with rfl | he
    · trivial
    · exact hi.registered e he
  · rcases StoreState.mem_steps_record.1 he with rfl | he
    · unfold Step.Justified
      split
      · rename_i hact
        cases hact
        obtain ⟨hostname', hn, e, he, hrep⟩ := hs ⟨_, rfl⟩
        exact ⟨hostname', hn, e, List.mem_cons_of_mem _ he, hrep⟩
      · trivial
    · exact (hi.justified e he).mono fun e => List.mem_cons_of_mem _

theorem triple_call (hc : c.OfOwner g owner) (site : Site) :
    (saveRules g owner).Triple t (fun _ => True) (body g (.call site c)) fun _ _ => True := by
  refine .bind (.perform (.const True) (fun _ => .const True) fun s l r s' hi _ _ he _ => ?_)
    fun _ => .bind (triple_prog hc site) fun res => .perform (stable_done c res)
      (fun _ => .const True) fun s l r s' hi hs _ he _ => ?_
  · obtain ⟨h1, h2⟩ := begin_step (l := l) hi he
    exact ⟨h1, h2, trivial⟩
  · obtain ⟨h1, h2⟩ := finish_step (l := l) hi hs he
    exact ⟨h1, h2, trivial⟩

theorem closed_saveRules : (saveRules g owner).Closed where
  stable _ := .const _
  safe _ _ _ _ hs := hs.1.elim

end

end Policies

open Policies

/-- In every run of `SetHostWAF` and `ReleaseTunnel` calls by the owners of hostnames, saves that
succeed have replaced the version they expected, and policies are saved only for hostnames that are
registered and were not released. -/
theorem saves_replace_expected (g : Given) (owner : Hostname → Token) (tasks : List Task)
    (simple : Key → Option Value) (children : Key → List String)
    (hcalls : ∀ τ ∈ tasks, ∃ site c, τ = .call site c ∧ c.OfOwner g owner)
    {sched : List (ℕ × Label)} (hsched : ∀ x ∈ sched, ∀ e, x.2.outcome ≠ .late e)
    {c : Lib.Config tunnelSig StoreState}
    (hrun : (tunnelStore g).run sched
      ((tunnelStore g).launch tasks ⟨.start simple children, []⟩) = some c) :
    (∀ e ∈ c.shared.steps, e.Justified g c.shared.steps) ∧
      ∀ e ∈ c.shared.steps, e.Registered owner := by
  have hinv : SaveInv g owner ⟨.start simple children, []⟩ :=
    ⟨rfl, fun _ h => absurd h List.not_mem_nil, fun _ h => absurd h List.not_mem_nil,
      fun _ h => absurd h List.not_mem_nil⟩
  have hgood : (saveRules g owner).Good
      ((tunnelStore g).launch tasks ⟨.start simple children, []⟩) := by
    refine Rules.good_launch hinv (fun _ _ => trivial) fun t τ hτ => ?_
    obtain ⟨site, c, rfl, hc⟩ := hcalls τ (List.mem_of_getElem? hτ)
    exact triple_call hc site _ hinv trivial
  have hfollows : (saveRules g owner).Follows sched
      ((tunnelStore g).launch tasks ⟨.start simple children, []⟩) :=
    follows_steps (P := fun _ => True) (fun _ _ _ _ => trivial) hsched hrun fun _ _ => trivial
  have hend := (Rules.good_run closed_saveRules hgood hfollows hrun).1
  exact ⟨hend.justified, hend.registered⟩

/-! The owner saves a policy for its hostname, then another one from the same version, and releases
the hostname. -/

def policyCalls : List Task :=
  [.call .plain (.setHostWAF [7] "a" (some ⟨.block, []⟩) ""),
    .call .plain (.setHostWAF [7] "a" (some ⟨.off, []⟩) ""),
    .call .plain (.releaseTunnel [7] "a")]

theorem saves_replace_expected_twice :
    ∃ c, (tunnelStore .plain).run (turns 0 7 ++ turns 1 6 ++ turns 2 15)
        ((tunnelStore .plain).launch policyCalls
          ⟨.start (fun _ => none) oneHostname, []⟩) = some c ∧
      c.shared.world.returned.map (·.2.isOk) = [true, false, true] ∧
      (∀ e ∈ c.shared.steps, e.Justified .plain c.shared.steps) ∧
      ∀ e ∈ c.shared.steps, e.Registered fun _ => [7] := by
  have h : ((tunnelStore .plain).run (turns 0 7 ++ turns 1 6 ++ turns 2 15)
      ((tunnelStore .plain).launch policyCalls
        ⟨.start (fun _ => none) oneHostname, []⟩)).map
          (fun c => c.shared.world.returned.map (·.2.isOk)) = some [true, false, true] := by
    decide +kernel
  obtain ⟨c, hrun, hc⟩ := Option.map_eq_some_iff.1 h
  refine ⟨c, hrun, hc, saves_replace_expected .plain (fun _ => [7]) policyCalls _ _ ?_ ?_ hrun⟩
  · simp only [policyCalls, List.forall_mem_cons, List.not_mem_nil, false_implies, implies_true,
      and_true]
    exact ⟨⟨_, _, rfl, fun _ _ => rfl⟩, ⟨_, _, rfl, fun _ _ => rfl⟩, ⟨_, _, rfl, rfl⟩⟩
  · intro x hx e
    simp only [turns, List.mem_append, List.mem_replicate] at hx
    rcases hx with (⟨-, rfl⟩ | ⟨-, rfl⟩) | ⟨-, rfl⟩ <;> exact nofun

end Specter.Tunnel
