import Specter.Proofs.Handlers
import Specter.Proofs.TunnelStore

/-!
# Firewall policies and their owners

`SetHostWAF` reads a policy, compares its version and writes the new one as three steps, and
`ReleaseTunnel` clears the policy before it removes the hostname.  Both hold the lease of the owner,
so what the owner has saved and registered does not change between the steps.
-/

namespace Specter.Tunnel

open Lib (Prog Rules)

/-- The version that the owner is shown for what is stored. -/
def savedVersion (w : WafCodec) (owner : Token) (hostname : Hostname) : Option Value → Option String
  | none => some ""
  | some (.bytes data) =>
    (decodeHostWAF w hostname data).toOption.map fun found => (ownHostWAF owner found).2
  | some _ => none

/-- The step replaces what is saved for the hostname, which has this version. -/
def Step.Replaces (g : Given) (owner : Token) (hostname : Hostname) (version : String) (e : Step) :
    Prop :=
  match e.act with
  | .kv (.put (.hostWAF hostname') v) => hostname' = hostname ∧
    savedVersion g.waf owner hostname (e.before.simple (.hostWAF hostname)) = some version ∧
    e.after.simple (.hostWAF hostname) = some v
  | _ => False

/-- If a `SetHostWAF` returns success in this step, it has replaced the version it expected. -/
def Step.Justified (g : Given) (steps : List Step) (e : Step) : Prop :=
  match e.act with
  | .finish (.setHostWAF owner hostname _ expectedVersion) (.ok _) =>
    ∃ hostname', normalizeWAFHostname g.acme.normalize hostname = .ok hostname' ∧
      ∃ e' ∈ steps, e'.thread = e.thread ∧ e'.Replaces g owner hostname' expectedVersion
  | _ => True

def Releases (token : Token) (hostname : Hostname) : Call × Except RpcError Response → Prop
  | (.releaseTunnel token' hostname', .ok _) => token' = token ∧ hostname' = hostname
  | _ => False

/-- If the step saves a policy, the owner has the hostname and has not released it. -/
def Step.Registered (owner : Hostname → Token) (e : Step) : Prop :=
  match e.act with
  | .kv (.put (.hostWAF hostname) _) =>
    hostname ∈ e.before.children (.clientHostnames (owner hostname)) ∧
      ∀ x ∈ e.before.returned, ¬ Releases (owner hostname) hostname x
  | _ => True

/-- A `SetHostWAF` or a `ReleaseTunnel` by the owner of the hostname. -/
def Call.OfOwner (g : Given) (owner : Hostname → Token) : Call → Prop
  | .setHostWAF token hostname _ _ =>
    ∀ hostname', normalizeWAFHostname g.acme.normalize hostname = .ok hostname' →
      owner hostname' = token
  | .releaseTunnel token hostname => owner hostname = token
  | _ => False

theorem Step.Justified.mono {g : Given} {steps steps' : List Step} {e : Step}
    (h : e.Justified g steps) (hsub : ∀ e ∈ steps, e ∈ steps') : e.Justified g steps' := by
  unfold Justified at h ⊢
  split
  · rename_i hact
    simp only [hact] at h
    obtain ⟨hostname', hn, e', he', h⟩ := h
    exact ⟨hostname', hn, e', hsub e' he', h⟩
  · trivial

def KvOp.policy : KvOp → Option Hostname
  | .put (.hostWAF hostname) _ | .delete (.hostWAF hostname) => some hostname
  | _ => none

def KvOp.index : KvOp → Option Token
  | .prefixAppend (.clientHostnames token) _ | .prefixRemove (.clientHostnames token) _ =>
    some token
  | _ => none

def KvOp.isRelease : KvOp → Bool
  | .release .. => true
  | _ => false

/-- The step has nothing to do with policies, registered hostnames or leases that are held. -/
def Act.SparesPolicies : Act → Prop
  | .kv op => op.policy = none ∧ op.index = none ∧ op.isRelease = false
  | .arrive | .begin _ | .finish .. => False
  | _ => True

namespace Policies

section

variable (g : Given) (owner : Hostname → Token)

structure SaveInv (s : StoreState) : Prop where
  pending : s.world.pending = []
  released : ∀ x ∈ s.world.returned, ∀ token hostname, Releases token hostname x →
    hostname ∉ s.world.children (.clientHostnames token)
  registered : ∀ e ∈ s.steps, e.Registered owner
  justified : ∀ e ∈ s.steps, e.Justified g s.steps

abbrev Leased (t : ℕ) (token : Token) (s : StoreState) : Prop :=
  s.world.lease (.clientLease token) = some t

structure SaveGuar (t : ℕ) (s s' : StoreState) : Prop where
  lease : ∀ key t', t' ≠ t → s.world.lease key = some t' → s'.world.lease key = some t'
  policy : ∀ hostname,
    s'.world.simple (.hostWAF hostname) = s.world.simple (.hostWAF hostname) ∨
      Leased t (owner hostname) s
  index : ∀ token,
    s'.world.children (.clientHostnames token) = s.world.children (.clientHostnames token) ∨
      Leased t token s
  fewer : ∀ token, ∀ hostname ∈ s'.world.children (.clientHostnames token),
    hostname ∈ s.world.children (.clientHostnames token)
  steps : ∀ e ∈ s.steps, e ∈ s'.steps

def saveRules : Rules (tunnelStore g) where
  ok l := ∀ e, l.outcome ≠ .late e
  known _ _ _ := True
  inv := SaveInv g owner
  guar := SaveGuar owner
  fresh _ _ := True
  pre _ _ := False
  post _ _ := True

/-- A step that changes policy `W` and index `K` at most, and gives up no lease. -/
structure Moves (W : Option Hostname) (K : Option Token) (s s' : StoreState) : Prop where
  policy : ∀ hostname, W ≠ some hostname →
    s'.world.simple (.hostWAF hostname) = s.world.simple (.hostWAF hostname)
  index : ∀ token, K ≠ some token →
    s'.world.children (.clientHostnames token) = s.world.children (.clientHostnames token)
  lease : ∀ key t', s.world.lease key = some t' → s'.world.lease key = some t'
  pending : s'.world.pending = s.world.pending
  returned : s'.world.returned = s.world.returned
  steps : ∀ e ∈ s.steps, e ∈ s'.steps
  new : ∀ e ∈ s'.steps, e ∈ s.steps ∨ (e.Registered owner ∧ e.Justified g s'.steps)

abbrev Spares (_ : ℕ) : StoreState → StoreState → Prop := Moves g owner none none

end

section

variable {g : Given} {owner : Hostname → Token} {t : ℕ} {s s' : StoreState} {W : Option Hostname}
  {K : Option Token} (token : Token)

theorem moves_kv {l : Label} {op : KvOp} {r : op.Res} (hl : ∀ e, l.outcome ≠ .late e)
    (hrel : op.isRelease = false) (h : StoreState.exec l t s (.kv op) = some (r, s'))
    (hr : (⟨t, .kv op, s.world, s'.world⟩ : Step).Registered owner) :
    Moves g owner op.policy op.index s s' := by
  cases h
  constructor
  · intro hostname hop
    refine World.simple_exec ?_ ?_
    · rintro v rfl
      exact hop rfl
    · rintro rfl
      exact hop rfl
  · intro token hop
    refine World.children_exec ?_ ?_
    · rintro c rfl
      exact hop rfl
    · rintro c rfl
      exact hop rfl
  · intro key t' hheld
    refine World.lease_kept ?_ hheld
    rintro rfl
    cases hrel
  · exact World.pending_exec hl
  · exact World.returned_exec
  · exact fun e => List.mem_cons_of_mem _
  · intro e he
    refine (StoreState.mem_steps_record.1 he).symm.imp_right ?_
    rintro rfl
    exact ⟨hr, trivial⟩

namespace Moves

variable (h : Moves g owner W K s s')

include h

theorem inv (hi : SaveInv g owner s)
    (hfewer : ∀ token, K = some token → ∀ hostname ∈ s'.world.children (.clientHostnames token),
      hostname ∈ s.world.children (.clientHostnames token)) : SaveInv g owner s' where
  pending := h.pending.trans hi.pending
  released x hx token hostname hrel hmem := by
    refine hi.released x (h.returned ▸ hx) token hostname hrel ?_
    by_cases hK : K = some token
    · exact hfewer token hK hostname hmem
    · exact h.index token hK ▸ hmem
  registered e he := (h.new e he).elim (hi.registered e) And.left
  justified e he := (h.new e he).elim (fun he => (hi.justified e he).mono h.steps) And.right

theorem guar (hW : ∀ hostname, W = some hostname → Leased t (owner hostname) s)
    (hK : ∀ token, K = some token → Leased t token s ∧
      ∀ hostname ∈ s'.world.children (.clientHostnames token),
        hostname ∈ s.world.children (.clientHostnames token)) : SaveGuar owner t s s' where
  lease key t' _ := h.lease key t'
  policy hostname := by
    by_cases hop : W = some hostname
    · exact .inr (hW hostname hop)
    · exact .inl (h.policy hostname hop)
  index token := by
    by_cases hop : K = some token
    · exact .inr (hK token hop).1
    · exact .inl (h.index token hop)
  fewer token hostname hmem := by
    by_cases hop : K = some token
    · exact (hK token hop).2 hostname hmem
    · exact h.index token hop ▸ hmem
  steps := h.steps

end Moves

theorem neutral_spares : (saveRules g owner).Neutral (Spares g owner) t Act.SparesPolicies where
  step {l s a r s'} ha hl he := by
    cases a with
    | kv op =>
      obtain ⟨hW, hK, hrel⟩ := ha
      have hr : (⟨t, .kv op, s.world, s'.world⟩ : Step).Registered owner := by
        unfold Step.Registered
        split
        · rename_i hact
          cases hact
          cases hW
        · trivial
      have := moves_kv (g := g) hl hrel he hr
      rwa [hW, hK] at this
    | arrive | begin | finish => exact ha.elim
    | session | now | ctxErr | lookupCNAME | next | select =>
      cases he
      exact ⟨fun _ _ => rfl, fun _ _ => rfl, fun _ _ => id, rfl, rfl, fun _ => id, fun _ => .inl⟩
  keeps h hi := ⟨h.inv hi nofun, h.guar nofun nofun⟩

theorem firm_held {hostname : Hostname} {token : Token} (ho : owner hostname = token)
    (φ : Option Value → List String → Prop) :
    (saveRules g owner).Firm (Spares g owner) t fun s =>
      Leased t token s ∧
        φ (s.world.simple (.hostWAF hostname)) (s.world.children (.clientHostnames token)) where
  stable s s' t' hne _ _ hg _ h := by
    have hnot : s.world.lease (.clientLease token) ≠ some t' := by
      rw [h.1]
      exact fun h => hne (Option.some.inj h).symm
    refine ⟨hg.lease _ t hne.symm h.1, ?_⟩
    rw [(hg.policy hostname).resolve_right (ho ▸ hnot), (hg.index token).resolve_right hnot]
    exact h.2
  kept h hs := by
    refine ⟨h.lease _ t hs.1, ?_⟩
    rw [h.policy hostname (by simp), h.index token (by simp)]
    exact hs.2

theorem firm_leased : (saveRules g owner).Firm (Spares g owner) t (Leased t token) where
  stable _ _ _ hne _ _ hg _ := hg.lease _ t hne.symm
  kept h := h.lease _ t

theorem firm_absent (hostname : Hostname) :
    (saveRules g owner).Firm (Spares g owner) t fun s =>
      hostname ∉ s.world.children (.clientHostnames token) where
  stable _ _ _ _ _ _ hg _ h hmem := h (hg.fewer token hostname hmem)
  kept h hs hmem := hs (h.index token (by simp) ▸ hmem)

/-- The thread has the owner's lease, and the hostname is registered. -/
abbrev Owns (t : ℕ) (token : Token) (hostname : Hostname) (s : StoreState) : Prop :=
  Leased t token s ∧ hostname ∈ s.world.children (.clientHostnames token)

/-- Under the owner's lease, the hostname is registered and its policy has this version. -/
abbrev Finds (g : Given) (t : ℕ) (token : Token) (hostname : Hostname) (version : String)
    (s : StoreState) : Prop :=
  Leased t token s ∧ hostname ∈ s.world.children (.clientHostnames token) ∧
    savedVersion g.waf token hostname (s.world.simple (.hostWAF hostname)) = some version

def Replaced (g : Given) (t : ℕ) (token : Token) (hostname : Hostname) (version : String)
    (s : StoreState) : Prop :=
  ∃ e ∈ s.steps, e.thread = t ∧ e.Replaces g token hostname version

theorem firm_replaced (hostname : Hostname) (version : String) :
    (saveRules g owner).Firm (Spares g owner) t (Replaced g t token hostname version) where
  stable _ _ _ _ _ _ hg _ := by
    rintro ⟨e, he, h⟩
    exact ⟨e, hg.steps e he, h⟩
  kept hn := by
    rintro ⟨e, he, h⟩
    exact ⟨e, hn.steps e he, h⟩

section Steps

variable {l : Label} {token : Token} {hostname : Hostname}

section

variable (ho : owner hostname = token) (hi : SaveInv g owner s) (hl : ∀ e, l.outcome ≠ .late e)

include ho hi hl

theorem put_step {v : Value} {version : String} {r : (KvOp.put (.hostWAF hostname) v).Res}
    (hs : Finds g t token hostname version s)
    (h : StoreState.exec l t s (.kv (.put (.hostWAF hostname) v)) = some (r, s')) :
    SaveInv g owner s' ∧ SaveGuar owner t s s' ∧
      (r = .ok () → Replaced g t token hostname version s') := by
  have hreg : (⟨t, .kv (.put (.hostWAF hostname) v), s.world, s'.world⟩ : Step).Registered
      owner := by
    refine ⟨ho ▸ hs.2.1, fun x hx hrel => ?_⟩
    exact hi.released x hx _ _ hrel (ho ▸ hs.2.1)
  have hm : Moves g owner _ _ s s' := moves_kv hl rfl h hreg
  refine ⟨hm.inv hi nofun, hm.guar (fun _ hW => ?_) nofun,
    fun hr => ?_⟩
  · cases hW
    exact ho ▸ hs.1
  · cases h
    exact ⟨_, List.mem_cons_self .., rfl, rfl, hs.2.2, World.exec_put_ok hr⟩

theorem clear_step {r : (KvOp.delete (.hostWAF hostname)).Res}
    (hs : Leased t token s)
    (h : StoreState.exec l t s (.kv (.delete (.hostWAF hostname))) = some (r, s')) :
    SaveInv g owner s' ∧ SaveGuar owner t s s' ∧ Leased t token s' := by
  have hm : Moves g owner _ _ s s' := moves_kv hl rfl h trivial
  refine ⟨hm.inv hi nofun, hm.guar (fun _ hW => ?_) nofun,
    hm.lease _ _ hs⟩
  cases hW
  exact ho ▸ hs

end

section

variable (hi : SaveInv g owner s) (hl : ∀ e, l.outcome ≠ .late e)

include hi hl

theorem remove_step {r : (KvOp.prefixRemove (.clientHostnames token) hostname).Res}
    (hs : Leased t token s)
    (h : StoreState.exec l t s (.kv (.prefixRemove (.clientHostnames token) hostname)) =
      some (r, s')) :
    SaveInv g owner s' ∧ SaveGuar owner t s s' ∧
      (r = .ok () → hostname ∉ s'.world.children (.clientHostnames token)) := by
  have hm : Moves g owner _ _ s s' := moves_kv hl rfl h trivial
  have hfewer : ∀ token', ∀ hostname' ∈ s'.world.children (.clientHostnames token'),
      hostname' ∈ s.world.children (.clientHostnames token') := by
    cases h
    exact fun token' hostname' hmem => (World.mem_children_exec hmem).resolve_right (by simp)
  refine ⟨hm.inv hi fun token' _ => hfewer token', hm.guar nofun
    fun token' hK => ?_, fun hr => ?_⟩
  · cases hK
    exact ⟨hs, hfewer token⟩
  · cases h
    exact World.exec_remove_ok hr

theorem acquire_step {r : (KvOp.acquire (.clientLease token)).Res}
    (h : StoreState.exec l t s (.kv (.acquire (.clientLease token))) = some (r, s')) :
    SaveInv g owner s' ∧ SaveGuar owner t s s' ∧
      ∀ n, r = .ok n → n = t ∧ Leased t token s' := by
  have hm : Spares g owner t s s' := moves_kv hl rfl h trivial
  obtain ⟨hi', hg⟩ := neutral_spares.keeps hm hi
  refine ⟨hi', hg, fun n hr => ?_⟩
  cases h
  exact World.exec_acquire hr

theorem release_step {r : (KvOp.release (.clientLease token) t).Res}
    (h : StoreState.exec l t s (.kv (.release (.clientLease token) t)) = some (r, s')) :
    SaveInv g owner s' ∧ SaveGuar owner t s s' := by
  cases h
  have hsimple : ∀ key, (s.world.exec t l.outcome (.release (.clientLease token) t)).2.simple key =
      s.world.simple key := fun key => World.simple_exec (by simp) (by simp)
  have hchildren : ∀ key,
      (s.world.exec t l.outcome (.release (.clientLease token) t)).2.children key =
        s.world.children key := fun key => World.children_exec (by simp) (by simp)
  refine ⟨⟨(World.pending_exec hl).trans hi.pending, fun x hx token' hostname' hrel => ?_,
    fun e he => ?_, fun e he => ?_⟩, ⟨fun key t' hne hheld => World.lease_kept ?_ hheld,
    fun _ => .inl (hsimple _), fun _ => .inl (hchildren _), fun token' hostname' hmem => ?_,
    fun e => List.mem_cons_of_mem _⟩⟩
  · simp only [StoreState.record, World.returned_exec] at hx
    simp only [StoreState.record, hchildren]
    exact hi.released x hx token' hostname' hrel
  · rcases StoreState.mem_steps_record.1 he with rfl | he
    · trivial
    · exact hi.registered e he
  · rcases StoreState.mem_steps_record.1 he with rfl | he
    · trivial
    · exact (hi.justified e he).mono fun e => List.mem_cons_of_mem _
  · intro heq
    cases heq
    exact hne rfl
  · simpa only [StoreState.record, hchildren] using hmem

end

end Steps

end

end Policies

end Specter.Tunnel
