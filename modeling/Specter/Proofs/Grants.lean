import Specter.Proofs.Handlers
import Specter.Proofs.TunnelStore

/-!
# What becomes of a grant

Mint indexes a grant before it writes its record, and Revoke accepts only a grant that is indexed.
A grant that is `Gone` stays so, if grants are only deleted when no record of them is still to be
written.
-/

namespace Specter.Tunnel

open Lib (Prog Rules)

variable {id : String} {op : KvOp} {owner : Token}

def Revokes (id : String) : Call × Except RpcError Response → Prop
  | (.revokeDelegation _ id', .ok _) => id' = id
  | _ => False

def World.Revoked (w : World) (id : String) : Prop := ∃ x ∈ w.returned, Revokes id x

def grantOf (g : Given) (token : String) : Option String :=
  (parseDelegationToken token.toUTF8.toList).map (delegationID g.sha256)

/-- The step begins an Open with the token of this grant, which is revoked. -/
def Step.OpensRevoked (g : Given) (e : Step) (id : String) : Prop :=
  match e.act with
  | .begin (.openDelegatedSession _ _ token _ _) =>
    grantOf g token = some id ∧ e.before.Revoked id
  | _ => False

def Act.Succeeds : Act → Prop
  | .finish _ (.ok _) => True
  | _ => False

def KvOp.writesGrant : KvOp → Option String
  | .put (.delegation id) _ => some id
  | _ => none

/-- If the step deletes the record of a grant, no Mint is about to write it, and no write of it is
pending. -/
def Step.Settled (e : Step) : Prop :=
  match e.act with
  | .kv (.delete (.delegation id)) =>
    id ∉ e.before.unwritten ∧ ∀ op ∈ e.before.pending, op.writesGrant ≠ some id
  | _ => True

instance (id : String) : DecidablePred (Revokes id) := fun x => by
  unfold Revokes
  split <;> infer_instance

instance (w : World) (id : String) : Decidable (w.Revoked id) := by
  unfold World.Revoked
  infer_instance

instance (g : Given) (e : Step) (id : String) : Decidable (e.OpensRevoked g id) :=
  decidable_of_iff ((match e.act with
    | .begin (.openDelegatedSession _ _ token _ _) =>
      decide (grantOf g token = some id ∧ e.before.Revoked id)
    | _ => false) = true) (by unfold Step.OpensRevoked; split <;> simp)

instance : DecidablePred Act.Succeeds := fun a => by
  unfold Act.Succeeds
  split <;> infer_instance

instance : DecidablePred Step.Settled := fun e =>
  decidable_of_iff ((match e.act with
    | .kv (.delete (.delegation id)) =>
      decide (id ∉ e.before.unwritten ∧ ∀ op ∈ e.before.pending, op.writesGrant ≠ some id)
    | _ => true) = true) (by unfold Step.Settled; split <;> simp)

theorem Step.OpensRevoked.not_begin {g : Given} {e : Step} (h : e.OpensRevoked g id) :
    ¬ ∀ c, e.act ≠ .begin c := by
  unfold OpensRevoked at h
  split at h
  · rename_i hact
    exact fun hb => hb _ hact
  · exact h.elim

/-- The grants that an operation is about. -/
def KvOp.isAbout : KvOp → String → Prop
  | .put (.delegation id') _, id | .delete (.delegation id'), id
  | .prefixAppend (.clientDelegations _) id', id => id' = id
  | _, _ => False

theorem isAbout_of_writesGrant (h : op.writesGrant = some id) : op.isAbout id := by
  unfold KvOp.writesGrant at h
  split at h
  · cases h
    rfl
  · cases h

def Act.SparesGrants : Act → Prop
  | .kv op => ∀ id, ¬ op.isAbout id
  | .arrive | .begin _ | .finish .. => False
  | _ => True

section Calls

variable {g : Given} {R : Rules (tunnelStore g)} {N : ℕ → StoreState → StoreState → Prop} {t : ℕ}
  {φ : Act → Prop} {P : StoreState → Prop} (hN : R.Neutral N t φ)
  (hread : ∀ a : Act, a.isReading = true → φ a)

include hN hread

theorem triple_found {Q : StoreState → Prop} (hP : R.Firm N t P) (hQ : R.Firm N t Q)
    (h : ∀ s v, R.inv s → P s → s.world.simple (.delegation id) = some v → Q s) :
    R.Triple t P (readDelegation id) fun r s => (∃ rec, r = .ok rec) → Q s := by
  unfold readDelegation
  split_ifs
  · exact .refused
  refine .bind (triple_read hN (.get (.delegation id)) (hread _ rfl) hP
    (fun r => hQ.imp (∃ v, r = .ok (some v))) fun s o hi hs ⟨v, hv⟩ =>
      h s v hi hs (World.exec_get hv)) fun r => ?_
  split
  · exact .refused
  · exact .refused
  · split_ifs
    · exact .refused
    · exact .ret (hQ.imp _).stable fun _ _ h _ => h ⟨_, rfl⟩
  · exact .refused

theorem triple_mint {U V W : StoreState → Prop} (hU : R.Firm N t U)
    {normalize : String → Except String Hostname} {sha256 : Bytes → Config.Digest} {secret : Bytes}
    (hlist : R.Triple t U (kv (.prefixList (.clientDelegations owner))) fun r s =>
      ∀ ids, r = .ok ids → ids.length < maxDelegationsPerOwner → V s)
    (happend : ∀ rec : DelegationRecord, rec.id = delegationID sha256 secret → rec.owner = owner →
      R.Triple t V (kv (.prefixAppend (.clientDelegations rec.owner) rec.id))
        fun r s => r = .ok () → W s)
    (hput : ∀ rec : DelegationRecord, rec.id = delegationID sha256 secret → rec.owner = owner →
      R.Triple t W (kv (.put (.delegation rec.id) (.delegation rec))) fun _ _ => True)
    (hostname : Hostname) (expiresAt : ℤ) :
    R.Triple t U (mintDelegation normalize sha256 owner hostname expiresAt secret)
      fun _ _ => True := by
  have hstep : ∀ {α : Type} {p : Rpc α}, p.Only φ (fun _ => False) →
      R.Triple t U p fun _ => U := fun hp => hN.triple hU (fun _ => False.elim) hp
  unfold mintDelegation
  split
  · exact .done _
  rename_i hostname' _
  refine .bind (hstep (.perform (hread _ rfl))) fun time => ?_
  split_ifs
  · exact .done _
  refine .bind (hstep (only_verifyDelegatedAuthority hread _)) fun r => ?_
  split
  · exact .done _
  refine .bind hlist fun r => ?_
  split
  · exact .done _
  split_ifs with hfull
  · exact .done _
  refine .bind (.pre (happend ⟨_, _, owner, hostname', expiresAt⟩ rfl rfl)
    fun s _ h => h _ rfl (Nat.not_le.1 hfull)) fun r => ?_
  cases r with
  | error e => exact .done _
  | ok u =>
    refine .bind (.pre (hput ⟨_, _, owner, hostname', expiresAt⟩ rfl rfl) fun s _ h => h rfl)
      fun r => ?_
    cases r <;> exact .done _

theorem triple_revoke {K G : StoreState → Prop} {D : Except RpcError Response → StoreState → Prop}
    (hK : R.Firm N t K) (hfound : ∀ s v, R.inv s → s.world.simple (.delegation id) = some v → K s)
    (hindexed : ∀ s, R.inv s → id ∈ s.world.children (.clientDelegations owner) → K s)
    (hdelete : R.Triple t K (kv (.delete (.delegation id))) fun r s => r = .ok () → G s)
    (hremove : R.Triple t G (kv (.prefixRemove (.clientDelegations owner) id)) fun _ => G)
    (hD : ∀ res, R.Stable t (D res)) (herr : ∀ e s, D (.error e) s)
    (hok : ∀ x s, G s → D (.ok x) s) :
    R.Triple t (fun _ => True) (revokeDelegation owner id) D := by
  have hfail : ∀ e {P : StoreState → Prop}, R.Triple t P (.ret (.error e)) D :=
    fun e _ => .ret (hD _) fun s _ _ => herr e s
  have hdel : R.Triple t K (deleteDelegation owner id) D := by
    refine .bind hdelete fun r => ?_
    cases r with
    | error e => exact hfail _
    | ok u =>
      refine .bind (.pre hremove fun s _ h => h rfl) fun r => ?_
      cases r <;> exact .ret (hD _) fun s _ h => hok _ s h
  have hidx : ∀ {P : StoreState → Prop}, R.Triple t P (deleteIndexed owner id) D := by
    intro P
    refine .pre (.bind (triple_read hN (P := fun _ => True)
      (.prefixContains (.clientDelegations owner) id) (hread _ rfl) (.const True)
      (fun r => hK.imp (r = .ok true)) fun s o hi _ hr =>
        hindexed s hi ((World.exec_contains hr).2 rfl)) fun r => ?_) fun _ _ _ => trivial
    split
    · exact hfail _
    · exact hfail _
    · exact .pre hdel fun s _ h => h rfl
  unfold revokeDelegation
  split_ifs
  · exact hfail _
  refine .bind (triple_found hN hread (.const True) hK fun s v hi _ hv => hfound s v hi hv)
    fun r => ?_
  split
  · exact hidx
  · exact hidx
  · exact hfail _
  · split_ifs
    · exact hidx
    · exact .pre hdel fun s _ h => h ⟨_, rfl⟩

end Calls

namespace Grants

def drawn (g : Given) (tasks : List Task) (t : ℕ) : Option String :=
  match tasks[t]? with
  | some (.call _ (.mintDelegation _ _ _ secret)) => some (delegationID g.sha256 secret)
  | _ => none

section

variable (g : Given) (tasks : List Task)

/-- The grant is not there and will not be written. -/
structure Gone (w : World) (id : String) : Prop where
  simple : w.simple (.delegation id) = none
  pending : ∀ op ∈ w.pending, op.writesGrant ≠ some id
  unwritten : id ∉ w.unwritten
  indexed : ∀ t, drawn g tasks t = some id → id ∈ w.indexed

structure Unheard (w : World) (id : String) : Prop where
  simple : w.simple (.delegation id) = none
  children : ∀ owner, id ∉ w.children (.clientDelegations owner)
  pending : ∀ op ∈ w.pending, op.writesGrant ≠ some id
  append : ∀ owner, KvOp.prefixAppend (.clientDelegations owner) id ∉ w.pending

structure GrantInv (s : StoreState) : Prop where
  unheard : ∀ t id, drawn g tasks t = some id → id ∉ s.world.indexed → Unheard s.world id
  revoked : ∀ id, s.world.Revoked id → Gone g tasks s.world id
  begun : ∀ e ∈ s.steps, ∀ c, e.act = .begin c → ∃ site, tasks[e.thread]? = some (.call site c)
  final : ∀ e ∈ s.steps, ∀ id, e.OpensRevoked g id → ∀ e' ∈ s.steps, e'.thread = e.thread →
    ¬ e'.act.Succeeds

structure GrantGuar (t : ℕ) (s s' : StoreState) : Prop where
  gone : ∀ id, Gone g tasks s.world id → Gone g tasks s'.world id
  indexed : ∀ id ∈ s.world.indexed, id ∈ s'.world.indexed
  mine : ∀ id ∈ s'.world.indexed, id ∈ s.world.indexed ∨ drawn g tasks t = some id
  unwritten : ∀ id ∈ s.world.unwritten, drawn g tasks t ≠ some id → id ∈ s'.world.unwritten
  steps : ∀ e ∈ s'.steps, e ∈ s.steps ∨ e.thread = t

def grantRules : Rules (tunnelStore g) where
  ok _ := True
  known _ _ s' := ∀ e ∈ s'.steps, e.Settled
  inv := GrantInv g tasks
  guar := GrantGuar g tasks
  fresh t s := tasks.length ≤ t ∧ ∀ e ∈ s.steps, e.thread ≠ t
  pre τ _ := τ.isSession = true
  post _ _ := True

end

/-- A step that is about the grants in `S`, and begins or ends no call. -/
structure Touches (S : String → Prop) (t : ℕ) (s s' : StoreState) : Prop where
  simple : ∀ id, ¬ S id → s'.world.simple (.delegation id) = s.world.simple (.delegation id)
  children : ∀ owner, ∀ id ∈ s'.world.children (.clientDelegations owner),
    id ∈ s.world.children (.clientDelegations owner) ∨ S id
  pending : ∀ op ∈ s'.world.pending, op ∈ s.world.pending ∨ ∀ id, op.isAbout id → S id
  indexed : ∀ id ∈ s.world.indexed, id ∈ s'.world.indexed
  mine : ∀ id ∈ s'.world.indexed, id ∈ s.world.indexed ∨ S id
  unwritten : ∀ id, ¬ S id → (id ∈ s'.world.unwritten ↔ id ∈ s.world.unwritten)
  returned : s'.world.returned = s.world.returned
  steps : ∀ e ∈ s'.steps, e ∈ s.steps ∨
    (e.thread = t ∧ (∀ c, e.act ≠ .begin c) ∧ ¬ e.act.Succeeds)

section

variable {g : Given} {tasks : List Task} {t : ℕ} {s s' : StoreState} {S : String → Prop} {l : Label}
  {site : Site} {c : Call}

theorem Touches.refl (s : StoreState) : Touches S t s s where
  simple _ _ := rfl
  children _ _ := .inl
  pending _ := .inl
  indexed _ := id
  mine _ := .inl
  unwritten _ _ := Iff.rfl
  returned := rfl
  steps _ := .inl

theorem touches_kv {r : op.Res} (h : StoreState.exec l t s (.kv op) = some (r, s')) :
    Touches op.isAbout t s s' := by
  cases h
  have hput : ∀ id, ¬ op.isAbout id → ∀ v, op ≠ .put (.delegation id) v := by
    rintro id hid v rfl
    exact hid rfl
  have hdel : ∀ id, ¬ op.isAbout id → op ≠ .delete (.delegation id) := by
    rintro id hid rfl
    exact hid rfl
  have happ : ∀ id, ¬ op.isAbout id → ∀ owner,
      op ≠ .prefixAppend (.clientDelegations owner) id := by
    rintro id hid owner rfl
    exact hid rfl
  constructor
  · exact fun id hid => World.simple_exec (hput id hid) (hdel id hid)
  · rintro owner id hid
    refine (World.mem_children_exec hid).imp_right ?_
    rintro rfl
    rfl
  · intro op' hop
    refine (World.mem_pending_exec hop).imp_right ?_
    rintro ⟨rfl, -⟩ _ h
    exact h
  · exact fun id hid => World.mem_indexed_exec.2 (.inl hid)
  · intro id hid
    refine (World.mem_indexed_exec.1 hid).imp_right ?_
    rintro ⟨owner, rfl⟩
    rfl
  · exact fun id hid => World.mem_unwritten_exec (happ id hid) (hput id hid)
  · exact World.returned_exec
  · intro e he
    refine (StoreState.mem_steps_record.1 he).symm.imp_right ?_
    rintro rfl
    exact ⟨rfl, fun _ => by simp, id⟩

namespace Touches

variable (h : Touches S t s s')

include h

theorem gone (hid : ¬ S id) (hg : Gone g tasks s.world id) :
    Gone g tasks s'.world id where
  simple := (h.simple id hid).trans hg.simple
  pending op hop hw := (h.pending op hop).elim (fun hop => hg.pending op hop hw) fun hS =>
    hid (hS id (isAbout_of_writesGrant hw))
  unwritten hu := hg.unwritten ((h.unwritten id hid).1 hu)
  indexed t ht := h.indexed id (hg.indexed t ht)

theorem unheard (hid : ¬ S id) (hu : Unheard s.world id) : Unheard s'.world id where
  simple := (h.simple id hid).trans hu.simple
  children owner hc := (h.children owner id hc).elim (hu.children owner) hid
  pending op hop hw := (h.pending op hop).elim (fun hop => hu.pending op hop hw) fun hS =>
    hid (hS id (isAbout_of_writesGrant hw))
  append owner hv := (h.pending _ hv).elim (hu.append owner) fun hS => hid (hS id rfl)

theorem inv (hi : GrantInv g tasks s) (hgone : ∀ id, S id → Gone g tasks s.world id →
      Gone g tasks s'.world id)
    (hunheard : ∀ u id, S id → drawn g tasks u = some id → id ∉ s'.world.indexed →
      Unheard s'.world id) : GrantInv g tasks s' where
  unheard u id hd hid := by
    by_cases hS : S id
    · exact hunheard u id hS hd hid
    · exact h.unheard hS (hi.unheard u id hd fun hmem => hid (h.indexed id hmem))
  revoked id hr := by
    have hg := hi.revoked id (by simpa only [World.Revoked, h.returned] using hr)
    by_cases hS : S id
    · exact hgone id hS hg
    · exact h.gone hS hg
  begun e he c hc := by
    rcases h.steps e he with he | ⟨-, hb, -⟩
    · exact hi.begun e he c hc
    · exact absurd hc (hb c)
  final e he id ho e' he' ht hc := by
    rcases h.steps e he with he | ⟨-, hb, -⟩
    · rcases h.steps e' he' with he' | ⟨-, -, hf⟩
      · exact hi.final e he id ho e' he' ht hc
      · exact hf hc
    · exact ho.not_begin hb

theorem guar (hgone : ∀ id, S id → Gone g tasks s.world id → Gone g tasks s'.world id)
    (hmine : ∀ id ∈ s'.world.indexed, S id → id ∈ s.world.indexed ∨ drawn g tasks t = some id)
    (hun : ∀ id ∈ s.world.unwritten, S id → drawn g tasks t ≠ some id →
      id ∈ s'.world.unwritten) : GrantGuar g tasks t s s' where
  gone id hg := by
    by_cases hS : S id
    · exact hgone id hS hg
    · exact h.gone hS hg
  indexed := h.indexed
  mine id hid := (h.mine id hid).elim .inl (hmine id hid)
  unwritten id hid hd := by
    by_cases hS : S id
    · exact hun id hid hS hd
    · exact (h.unwritten id hS).2 hid
  steps e he := (h.steps e he).imp_right And.left

end Touches

abbrev SparesGrants : ℕ → StoreState → StoreState → Prop := Touches fun _ => False

theorem sparesGrants_exec {a : Act} {r : a.Res} (ha : a.SparesGrants)
    (h : StoreState.exec l t s a = some (r, s')) : SparesGrants t s s' := by
  cases a with
  | kv op =>
    have hS : op.isAbout = fun _ => False := funext fun id => eq_false (ha id)
    have := touches_kv h
    rwa [hS] at this
  | arrive | begin | finish => exact ha.elim
  | session | now | ctxErr | lookupCNAME | next | select =>
    cases h
    exact .refl s

theorem neutral_spares : (grantRules g tasks).Neutral SparesGrants t Act.SparesGrants where
  step ha _ he := sparesGrants_exec ha he
  keeps h hi := ⟨h.inv hi (fun _ => False.elim) fun _ _ => False.elim,
    h.guar (fun _ => False.elim) (fun _ _ => False.elim) fun _ _ => False.elim⟩

theorem triple_spared {P : StoreState → Prop}
    (hP : (grantRules g tasks).Firm SparesGrants t P) {α : Type} {p : Rpc α}
    (hp : p.Only Act.SparesGrants fun τ : Task => τ.isSession = true) :
    (grantRules g tasks).Triple t P p fun _ => P :=
  neutral_spares.triple hP (fun _ h _ _ _ => h) hp

theorem firm_gone (id : String) :
    (grantRules g tasks).Firm SparesGrants t fun s => Gone g tasks s.world id :=
  ⟨fun _ _ _ _ _ _ hg _ => hg.gone id, fun h => h.gone not_false⟩

theorem firm_known (id : String) :
    (grantRules g tasks).Firm SparesGrants t
      fun s => ∀ u, drawn g tasks u = some id → id ∈ s.world.indexed :=
  ⟨fun _ _ _ _ _ _ hg _ h u hu => hg.indexed id (h u hu), fun h hs u hu => h.indexed id (hs u hu)⟩

section Minting

variable (hdraw : ∀ t t' id, drawn g tasks t = some id → drawn g tasks t' = some id → t = t')
  {id : String} (hid : drawn g tasks t = some id)

include hdraw hid

theorem firm_unindexed :
    (grantRules g tasks).Firm SparesGrants t fun s => id ∉ s.world.indexed where
  stable _ _ _ hne _ _ hg _ h hmem :=
    (hg.mine id hmem).elim h fun hd => hne (hdraw _ _ _ hd hid)
  kept h hs hmem := (h.mine id hmem).elim hs False.elim

theorem firm_unwritten :
    (grantRules g tasks).Firm SparesGrants t
      fun s => id ∈ s.world.unwritten ∧ id ∈ s.world.indexed where
  stable _ _ _ hne _ _ hg _ h :=
    ⟨hg.unwritten id h.1 fun hd => hne (hdraw _ _ _ hd hid), hg.indexed id h.2⟩
  kept h hs := ⟨(h.unwritten id fun h => h).2 hs.1, h.indexed id hs.2⟩

end Minting

theorem append_step {r : (KvOp.prefixAppend (.clientDelegations owner) id).Res}
    (hid : drawn g tasks t = some id) (hi : GrantInv g tasks s) (hs : id ∉ s.world.indexed)
    (h : StoreState.exec l t s (.kv (.prefixAppend (.clientDelegations owner) id)) = some (r, s')) :
    GrantInv g tasks s' ∧ GrantGuar g tasks t s s' ∧
      (r = .ok () → id ∈ s'.world.unwritten ∧ id ∈ s'.world.indexed) := by
  have ht := touches_kv h
  have hindexed : id ∈ s'.world.indexed := by
    cases h
    exact World.mem_indexed_exec.2 (.inr ⟨owner, rfl⟩)
  have hgone : ∀ id', id = id' → Gone g tasks s.world id' → Gone g tasks s'.world id' := by
    rintro _ rfl hg
    exact absurd (hg.indexed t hid) hs
  refine ⟨ht.inv hi hgone ?_, ht.guar hgone ?_ ?_, fun hr => ⟨?_, hindexed⟩⟩
  · rintro _ _ rfl _ hnot
    exact absurd hindexed hnot
  · rintro _ _ rfl
    exact .inr hid
  · rintro _ _ rfl hne
    exact absurd hid hne
  · cases h
    have ho : l.outcome = .ok := World.exec_ok fun e he => by cases he.symm.trans hr
    simp only [World.exec, ho, World.answer, ite_eq_right_iff, reduceCtorEq, imp_false] at hr
    simp [StoreState.record, World.exec, World.note, ho, hr]

theorem put_step {v : Value} {r : (KvOp.put (.delegation id) v).Res}
    (hid : drawn g tasks t = some id) (hi : GrantInv g tasks s)
    (hs : id ∈ s.world.unwritten ∧ id ∈ s.world.indexed)
    (h : StoreState.exec l t s (.kv (.put (.delegation id) v)) = some (r, s')) :
    GrantInv g tasks s' ∧ GrantGuar g tasks t s s' := by
  have ht := touches_kv h
  have hgone : ∀ id', id = id' → Gone g tasks s.world id' → Gone g tasks s'.world id' := by
    rintro _ rfl hg
    exact absurd hs.1 hg.unwritten
  refine ⟨ht.inv hi hgone ?_, ht.guar hgone ?_ ?_⟩
  · rintro _ _ rfl _ hnot
    exact absurd (ht.indexed id hs.2) hnot
  · rintro _ _ rfl
    exact .inl hs.2
  · rintro _ _ rfl hne
    exact absurd hid hne

theorem delete_step {r : (KvOp.delete (.delegation id)).Res} (hi : GrantInv g tasks s)
    (hs : ∀ u, drawn g tasks u = some id → id ∈ s.world.indexed) (hk : ∀ e ∈ s'.steps, e.Settled)
    (h : StoreState.exec l t s (.kv (.delete (.delegation id))) = some (r, s')) :
    GrantInv g tasks s' ∧ GrantGuar g tasks t s s' ∧ (r = .ok () → Gone g tasks s'.world id) := by
  have ht := touches_kv h
  have hun : id ∈ s'.world.unwritten ↔ id ∈ s.world.unwritten := by
    cases h
    exact World.mem_unwritten_exec (by simp) (by simp)
  have hpend : (∀ op ∈ s.world.pending, op.writesGrant ≠ some id) →
      ∀ op ∈ s'.world.pending, op.writesGrant ≠ some id := by
    cases h
    intro hp op hop
    rcases World.mem_pending_exec hop with hop | ⟨rfl, -⟩
    · exact hp op hop
    · simp [KvOp.writesGrant]
  have hgone : ∀ id', id = id' → Gone g tasks s.world id' → Gone g tasks s'.world id' := by
    rintro _ rfl hg
    refine ⟨?_, hpend hg.pending, fun hu => hg.unwritten (hun.1 hu),
      fun u hu => ht.indexed id (hs u hu)⟩
    cases h
    exact World.simple_none_exec (by simp) hg.simple
  refine ⟨ht.inv hi hgone ?_, ht.guar hgone ?_ ?_, fun hr => ?_⟩
  · rintro u _ rfl hu hnot
    exact absurd (ht.indexed id (hs u hu)) hnot
  · rintro _ hmem rfl
    cases h
    exact .inl (by simpa using World.mem_indexed_exec.1 hmem)
  · rintro _ hmem rfl _
    exact hun.2 hmem
  · obtain ⟨hu, hp⟩ : id ∉ s.world.unwritten ∧
        ∀ op ∈ s.world.pending, op.writesGrant ≠ some id := by
      cases h
      exact hk _ (List.mem_cons_self ..)
    refine ⟨?_, hpend hp, fun h => hu (hun.1 h), fun u hu => ht.indexed id (hs u hu)⟩
    cases h
    have ho : l.outcome = .ok := World.exec_ok fun e he => by cases he.symm.trans hr
    simp [StoreState.record, World.exec, ho, World.effect]

theorem arrive_step {r : Unit} (hi : GrantInv g tasks s)
    (h : StoreState.exec l t s .arrive = some (r, s')) :
    GrantInv g tasks s' ∧ GrantGuar g tasks t s s' := by
  obtain ⟨w, hw, hs'⟩ := Option.map_eq_some_iff.1 h
  obtain ⟨op, hop, rfl⟩ := Option.map_eq_some_iff.1 hw
  cases hs'
  have hmem : op ∈ s.world.pending := List.mem_of_getElem? hop
  have herase : ∀ op' ∈ s.world.pending.eraseIdx (l.answer .next), op' ∈ s.world.pending :=
    fun _ => List.mem_of_mem_eraseIdx
  have ht : Touches op.isAbout t s (s.record t .arrive
      ({ s.world with pending := s.world.pending.eraseIdx (l.answer .next) }.effect t op)) := by
    constructor
    · intro id hid
      refine World.simple_effect ?_ ?_
      · rintro v rfl
        exact hid rfl
      · rintro rfl
        exact hid rfl
    · intro owner id hid
      refine (World.mem_children_effect hid).imp_right ?_
      rintro rfl
      rfl
    · intro op' hop'
      exact .inl (herase _ (by simpa [StoreState.record] using hop'))
    · exact fun id hid => by simpa [StoreState.record] using hid
    · exact fun id hid => .inl (by simpa [StoreState.record] using hid)
    · exact fun id _ => by simp [StoreState.record]
    · simp [StoreState.record]
    · intro e he
      refine (StoreState.mem_steps_record.1 he).symm.imp_right ?_
      rintro rfl
      exact ⟨rfl, fun _ => by simp, id⟩
  have hgone : ∀ id, op.isAbout id → Gone g tasks s.world id → Gone g tasks (s.record t .arrive
      ({ s.world with pending := s.world.pending.eraseIdx (l.answer .next) }.effect t op)).world
        id := by
    intro id _ hg
    refine ⟨World.simple_none_effect ?_ hg.simple, fun op' hop' => hg.pending op' (herase _ ?_), ?_,
      fun u hu => ht.indexed id (hg.indexed u hu)⟩
    · rintro v rfl
      exact hg.pending _ hmem rfl
    · simpa [StoreState.record] using hop'
    · simpa [StoreState.record] using hg.unwritten
  refine ⟨ht.inv hi hgone ?_, ht.guar hgone ?_ ?_⟩
  · intro u id _ hu hnot
    have hun := hi.unheard u id hu fun hmem => hnot (ht.indexed id hmem)
    refine ⟨World.simple_none_effect ?_ hun.simple, fun owner hc => ?_,
      fun op' hop' => hun.pending op' (herase _ ?_),
      fun owner hv => hun.append owner (herase _ ?_)⟩
    · rintro v rfl
      exact hun.pending _ hmem rfl
    · rcases World.mem_children_effect hc with hc | rfl
      · exact hun.children owner hc
      · exact hun.append owner hmem
    · simpa [StoreState.record] using hop'
    · simpa [StoreState.record] using hv
  · exact fun id hid _ => .inl (by simpa [StoreState.record] using hid)
  · exact fun id hid _ _ => by simpa [StoreState.record] using hid

def Idle (g : Given) (tasks : List Task) (t : ℕ) (s : StoreState) : Prop :=
  (∀ e ∈ s.steps, e.thread ≠ t) ∧ ∀ id, drawn g tasks t = some id → id ∉ s.world.indexed

/-- If the thread has begun to open a session with a revoked grant, the grant is gone. -/
def Warned (g : Given) (tasks : List Task) (t : ℕ) (s : StoreState) : Prop :=
  ∀ e ∈ s.steps, e.thread = t → ∀ id, e.OpensRevoked g id → Gone g tasks s.world id

/-- The thread has not begun to open a session with a revoked grant. -/
def Entitled (g : Given) (t : ℕ) (s : StoreState) : Prop :=
  ∀ e ∈ s.steps, e.thread = t → ∀ id, ¬ e.OpensRevoked g id

/-- What a call that returns success leaves. -/
def Done (g : Given) (tasks : List Task) (t : ℕ) (c : Call) (res : Except RpcError Response)
    (s : StoreState) : Prop :=
  ∀ x, res = .ok x →
    match c with
    | .revokeDelegation _ id => Gone g tasks s.world id
    | .openDelegatedSession .. => Entitled g t s
    | _ => True

theorem stable_idle
    (hdraw : ∀ t t' id, drawn g tasks t = some id → drawn g tasks t' = some id → t = t') :
    (grantRules g tasks).Stable t (Idle g tasks t) := by
  intro s s' t' hne _ _ hg _ h
  refine ⟨fun e he => ?_, fun id hid hmem => ?_⟩
  · rcases hg.steps e he with he | rfl
    · exact h.1 e he
    · exact hne
  · rcases hg.mine id hmem with hmem | hd
    · exact h.2 id hid hmem
    · exact hne (hdraw _ _ _ hd hid)

theorem firm_warned : (grantRules g tasks).Firm SparesGrants t (Warned g tasks t) where
  stable s s' t' hne _ _ hg _ h e he ht id ho := by
    rcases hg.steps e he with he | he
    · exact hg.gone id (h e he ht id ho)
    · exact absurd (he.symm.trans ht) hne
  kept hs h e he ht id ho := by
    rcases hs.steps e he with he | ⟨-, hb, -⟩
    · exact hs.gone not_false (h e he ht id ho)
    · exact (ho.not_begin hb).elim

theorem firm_entitled : (grantRules g tasks).Firm SparesGrants t (Entitled g t) where
  stable s s' t' hne _ _ hg _ h e he ht id ho := by
    rcases hg.steps e he with he | he
    · exact h e he ht id ho
    · exact hne (he.symm.trans ht)
  kept hs h e he ht id ho := by
    rcases hs.steps e he with he | ⟨-, hb, -⟩
    · exact h e he ht id ho
    · exact ho.not_begin hb

theorem stable_done (c : Call) (res : Except RpcError Response) :
    (grantRules g tasks).Stable t (Done g tasks t c res) := by
  intro s s' t' hne hi hi' hg hk h x hx
  have := h x hx
  cases c with
  | revokeDelegation => exact hg.gone _ this
  | openDelegatedSession => exact firm_entitled.stable s s' t' hne hi hi' hg hk this
  | _ => trivial

theorem begin_step {r : Unit} (ht : tasks[t]? = some (.call site c)) (hi : GrantInv g tasks s)
    (hs : Idle g tasks t s) (h : StoreState.exec l t s (.begin c) = some (r, s')) :
    GrantInv g tasks s' ∧ GrantGuar g tasks t s s' ∧ Warned g tasks t s' := by
  cases h
  have hgone : ∀ id, Gone g tasks s.world id → Gone g tasks (s.record t (.begin c)
      { s.world with running := (t, c) :: s.world.running }).world id :=
    fun _ h => ⟨h.simple, h.pending, h.unwritten, h.indexed⟩
  refine ⟨⟨fun u id hd hid => ?_, fun id hr => hgone id (hi.revoked id hr), fun e he c' hc => ?_,
    fun e he id ho e' he' hte hf => ?_⟩, ⟨hgone, fun _ => id, fun _ => .inl, fun _ h _ => h,
    fun e he => ?_⟩, fun e he hte id ho => ?_⟩
  · have hu := hi.unheard u id hd hid
    exact ⟨hu.simple, hu.children, hu.pending, hu.append⟩
  · rcases StoreState.mem_steps_record.1 he with rfl | he
    · cases hc
      exact ⟨site, ht⟩
    · exact hi.begun e he c' hc
  · rcases StoreState.mem_steps_record.1 he' with rfl | he'
    · exact hf
    · rcases StoreState.mem_steps_record.1 he with rfl | he
      · exact hs.1 e' he' hte
      · exact hi.final e he id ho e' he' hte hf
  · rcases StoreState.mem_steps_record.1 he with rfl | he
    · exact .inr rfl
    · exact .inl he
  · rcases StoreState.mem_steps_record.1 he with rfl | he
    · unfold Step.OpensRevoked at ho
      split at ho
      · exact hgone id (hi.revoked id ho.2)
      · exact ho.elim
    · exact absurd hte (hs.1 e he)

theorem finish_step {res : Except RpcError Response} {r : Unit}
    (ht : tasks[t]? = some (.call site c)) (hi : GrantInv g tasks s) (hs : Done g tasks t c res s)
    (h : StoreState.exec l t s (.finish c res) = some (r, s')) :
    GrantInv g tasks s' ∧ GrantGuar g tasks t s s' := by
  cases h
  have hentitled : ∀ x, res = .ok x → Entitled g t s := by
    intro x hx e he hte id ho
    unfold Step.OpensRevoked at ho
    split at ho
    · rename_i hact
      obtain ⟨site', hcall⟩ := hi.begun e he _ hact
      rw [hte, ht] at hcall
      cases hcall
      refine hs x hx e he hte id ?_
      unfold Step.OpensRevoked
      rw [hact]
      exact ho
    · exact ho
  have hgone : ∀ id, Gone g tasks s.world id → Gone g tasks (s.record t (.finish c res)
      { s.world with
        running := s.world.running.filter (·.1 ≠ t)
        returned := (c, res) :: s.world.returned }).world id :=
    fun _ h => ⟨h.simple, h.pending, h.unwritten, h.indexed⟩
  refine ⟨⟨fun u id hd hid => ?_, fun id hr => hgone id ?_, fun e he c' hc => ?_,
    fun e he id ho e' he' hte hf => ?_⟩, ⟨hgone, fun _ => id, fun _ => .inl, fun _ h _ => h,
    fun e he => ?_⟩⟩
  · have hu := hi.unheard u id hd hid
    exact ⟨hu.simple, hu.children, hu.pending, hu.append⟩
  · obtain ⟨x, hx, hrev⟩ := hr
    rcases List.mem_cons.1 hx with rfl | hx
    · unfold Revokes at hrev
      split at hrev
      · rename_i heq
        cases heq
        subst hrev
        exact hs _ rfl
      · exact hrev.elim
    · exact hi.revoked id ⟨x, hx, hrev⟩
  · rcases StoreState.mem_steps_record.1 he with rfl | he
    · cases hc
    · exact hi.begun e he c' hc
  · rcases StoreState.mem_steps_record.1 he with rfl | hold
    · exact ho
    · rcases StoreState.mem_steps_record.1 he' with rfl | he'
      · cases res with
        | error => exact hf
        | ok x => exact hentitled x rfl e hold hte.symm id ho
      · exact hi.final e hold id ho e' he' hte hf
  · rcases StoreState.mem_steps_record.1 he with rfl | he
    · exact .inr rfl
    · exact .inl he

end

end Grants

end Specter.Tunnel
