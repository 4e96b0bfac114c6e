import Specter.Proofs.Revocation

/-!
# The index of an owner's grants

The id of a grant is indexed before its record is written, and removed after the record was deleted.
So the index has the ids of all records, if a grant is deleted only when no record of it is still to
be written, and all are listed if the index has room whenever an id is added.
-/

namespace Specter.Tunnel

open Lib (Prog Rules)

variable {id : String} {α : Type}

def Step.gains (owner : Token) (e : Step) : ℕ :=
  (e.after.children (.clientDelegations owner)).length -
    (e.before.children (.clientDelegations owner)).length

def Act.lists (owner : Token) : Act → Bool
  | .kv (.prefixList (.clientDelegations o)) => o = owner
  | _ => false

def Act.isKv : Act → Bool
  | .kv _ => true
  | _ => false

section Counting

variable (owner : Token) (t : ℕ)

/-- How many ids the owner's index had when thread `t` listed it last.  The latest step is first. -/
def counted : List Step → Option ℕ
  | [] => none
  | e :: es =>
    if e.thread = t ∧ e.act.lists owner then
      some (e.after.children (.clientDelegations owner)).length
    else counted es

/-- How many ids were added to the index since then. -/
def addedSince : List Step → ℕ
  | [] => 0
  | e :: es =>
    if e.thread = t ∧ e.act.lists owner then 0 else addedSince es + e.gains owner

/-- Ids are added to the owner's index by running calls only, and between the PrefixList of such a
call and its append no others are added, unless there are places for all of them. -/
def undisturbed : List Step → Bool
  | [] => true
  | e :: es => undisturbed es && (e.gains owner = 0 || e.act.isKv &&
      (counted owner e.thread es).all fun n => addedSince owner e.thread es = 0 ||
        n + addedSince owner e.thread es < maxDelegationsPerOwner)

end Counting

def World.Owns (w : World) (owner : Token) (id : String) : Prop :=
  ∃ rec, w.simple (.delegation id) = some (.delegation rec) ∧ rec.owner = owner

namespace Grants

/-- A call adds to the index only if it has counted fewer ids than the limit. -/
def Limited (owner : Token) : List Step → Prop
  | [] => True
  | e :: es => Limited owner es ∧ (0 < e.gains owner → e.act.isKv →
      ∃ n < maxDelegationsPerOwner, counted owner e.thread es = some n)

structure Counts (owner : Token) (s : StoreState) : Prop where
  counted : ∀ u n, counted owner u s.steps = some n →
    (s.world.children (.clientDelegations owner)).length ≤ n + addedSince owner u s.steps
  bound : Limited owner s.steps → undisturbed owner s.steps →
    (s.world.children (.clientDelegations owner)).length ≤ maxDelegationsPerOwner

section

variable {owner : Token} {l : Label} {t : ℕ} {s s' : StoreState} {a : Act} {r : a.Res}

theorem counts_exec (h : StoreState.exec l t s a = some (r, s')) (hs : Counts owner s) :
    Counts owner s' := by
  obtain rfl | ⟨hs', op, hc, -⟩ := StoreState.exec_carried h
  · exact hs
  have hlen := hc.length (.clientDelegations owner)
  generalize s'.world = w at hs' hlen
  subst hs'
  refine ⟨fun u n hn => ?_, fun ⟨hl, hlimit⟩ hu => ?_⟩
  · simp only [StoreState.record, Tunnel.counted, addedSince] at hn ⊢
    split_ifs at hn ⊢
    · obtain rfl := Option.some.inj hn
      exact le_rfl
    · have := hs.counted u n hn
      simp only [Step.gains]
      omega
  · simp only [StoreState.record, undisturbed, Bool.and_eq_true, Bool.or_eq_true,
      decide_eq_true_eq] at hu
    have hle := hs.bound hl hu.1
    simp only [Step.gains] at hlimit hu
    simp only [StoreState.record]
    -- If the index grows, its length was at most what the call had counted and what came since.
    rcases hu.2 with hzero | ⟨hkv, hplaces⟩
    · omega
    · by_cases hgain : 0 < (w.children (.clientDelegations owner)).length -
          (s.world.children (.clientDelegations owner)).length
      · obtain ⟨n, hn, hcount⟩ := hlimit hgain hkv
        have := hs.counted t n hcount
        simp only [hcount, Option.all_some, Bool.or_eq_true, decide_eq_true_eq] at hplaces
        omega
      · omega

theorem limited_exec (h : StoreState.exec l t s a = some (r, s')) (hl : Limited owner s.steps)
    (ha : ∀ id, a = .kv (.prefixAppend (.clientDelegations owner) id) →
      ∃ n < maxDelegationsPerOwner, counted owner t s.steps = some n) :
    Limited owner s'.steps ∧ ∀ u ≠ t, counted owner u s'.steps = counted owner u s.steps := by
  obtain rfl | ⟨hs', op, hc, hop⟩ := StoreState.exec_carried h
  · exact ⟨hl, fun _ _ => rfl⟩
  rw [hs']
  refine ⟨⟨hl, fun hgain hkv => ?_⟩, fun u hu => if_neg fun h => hu h.1.symm⟩
  rcases hc.length (.clientDelegations owner) with hle | ⟨⟨id, rfl⟩, -⟩
  · simp only [Step.gains] at hgain
    omega
  · rcases hop with rfl | ⟨rfl, -⟩ | hop
    · exact ha id rfl
    · cases hkv
    · cases hop

end

section

variable (g : Given) (tasks : List Task) (owner : Token)

structure IndexInv (s : StoreState) : Prop where
  grants : GrantInv g tasks s
  listed : ∀ id, s.world.Owns owner id → id ∈ s.world.children (.clientDelegations owner)
  puts : ∀ id rec, .put (.delegation id) (.delegation rec) ∈ s.world.pending → rec.owner = owner →
    id ∈ s.world.children (.clientDelegations owner)
  removes : ∀ id, .prefixRemove (.clientDelegations owner) id ∈ s.world.pending →
    Gone g tasks s.world id
  limited : Limited owner s.steps

def indexRules : Rules (tunnelStore g) where
  ok _ := True
  known := (grantRules g tasks).Fact
  inv := IndexInv g tasks owner
  guar t s s' := (∀ id ∈ s.world.children (.clientDelegations owner),
    id ∈ s'.world.children (.clientDelegations owner) ∨ Gone g tasks s.world id) ∧
    ∀ u ≠ t, counted owner u s'.steps = counted owner u s.steps
  fresh _ _ := True
  pre τ _ := τ.isSession = true
  post _ _ := True

end

section

variable {g : Given} {tasks : List Task} {owner : Token} {t : ℕ} {s s' : StoreState} {op : KvOp}
  {P : StoreState → Prop}

structure Fits (g : Given) (tasks : List Task) (owner : Token) (w : World) (op : KvOp) : Prop where
  put : ∀ id rec, op = .put (.delegation id) (.delegation rec) → rec.owner = owner →
    id ∈ w.children (.clientDelegations owner)
  remove : ∀ id, op = .prefixRemove (.clientDelegations owner) id → Gone g tasks w id

theorem index_step (hi : IndexInv g tasks owner s) (hi' : GrantInv g tasks s')
    (hgone : ∀ id, Gone g tasks s.world id → Gone g tasks s'.world id)
    (hc : World.Carried s.world s'.world op) (hf : Fits g tasks owner s.world op)
    (hl : Limited owner s'.steps ∧ ∀ u ≠ t, counted owner u s'.steps = counted owner u s.steps) :
    IndexInv g tasks owner s' ∧ (indexRules g tasks owner).guar t s s' := by
  have hkept : ∀ id ∈ s.world.children (.clientDelegations owner),
      id ∈ s'.world.children (.clientDelegations owner) ∨ Gone g tasks s.world id := fun id h =>
    (hc.children _ id h).imp_right (hf.remove id)
  refine ⟨⟨hi', ?_, ?_, ?_, hl.1⟩, hkept, hl.2⟩
  · rintro id ⟨rec, hrec, ho⟩
    have hmem : id ∈ s.world.children (.clientDelegations owner) := by
      rcases hc.simple _ _ hrec with h | h
      · exact hi.listed id ⟨rec, h, ho⟩
      · exact hf.put id rec h ho
    rcases hkept id hmem with h | h
    · exact h
    · cases (hgone id h).simple.symm.trans hrec
  · intro id rec hp ho
    have hmem : id ∈ s.world.children (.clientDelegations owner) := by
      rcases hc.pending _ hp with h | h
      · exact hi.puts id rec h ho
      · exact hf.put id rec h.symm ho
    rcases hkept id hmem with h | h
    · exact h
    · exact absurd rfl ((hgone id h).pending _ hp)
  · intro id hp
    rcases hc.pending _ hp with h | h
    · exact hgone id (hi.removes id h)
    · exact hgone id (hf.remove id h.symm)

theorem fact_gone (h : (grantRules g tasks).Fact t s s') (hid : Gone g tasks s.world id) :
    Gone g tasks s'.world id := by
  rcases h.2.2.1 with hg | rfl
  · exact hg.gone id hid
  · exact hid

theorem stable_of_grants (h : (grantRules g tasks).Stable t P) :
    (indexRules g tasks owner).Stable t P := by
  intro s s' t' hne _ _ _ hk hs
  obtain ⟨hi, hi', hg | rfl, hset⟩ := hk
  · exact h s s' t' hne hi hi' hg hset hs
  · exact hs

/-- The step is about no grant and removes nothing from the index. -/
def SparesIndex (owner : Token) (a : Act) : Prop :=
  a.SparesGrants ∧ ∀ id, a ≠ .kv (.prefixRemove (.clientDelegations owner) id)

def KeepsIndex (g : Given) (tasks : List Task) (owner : Token) (t : ℕ) (s s' : StoreState) : Prop :=
  SparesGrants t s s' ∧ (∃ op, World.Carried s.world s'.world op ∧ Fits g tasks owner s.world op) ∧
    (Limited owner s.steps →
      Limited owner s'.steps ∧ ∀ u ≠ t, counted owner u s'.steps = counted owner u s.steps)

theorem neutral_index : (indexRules g tasks owner).Neutral (KeepsIndex g tasks owner) t
    (SparesIndex owner) where
  step {l s a r s'} ha _ he := by
    refine ⟨sparesGrants_exec ha.1 he, ?_, fun hl => limited_exec he hl ?_⟩
    · obtain rfl | ⟨-, op, hc, rfl | ⟨rfl, -⟩ | rfl⟩ := StoreState.exec_carried he
      · exact ⟨.get (.delegation ""), .refl _ _, nofun, nofun⟩
      · refine ⟨op, hc, ?_, ?_⟩
        · rintro id rec rfl
          exact absurd rfl (ha.1 id)
        · rintro id rfl
          exact absurd rfl (ha.2 id)
      · exact ha.1.elim
      · exact ⟨_, hc, nofun, nofun⟩
    · rintro id rfl
      exact absurd rfl (ha.1 id)
  keeps := by
    rintro s s' ⟨hs, ⟨op, hc, hf⟩, hl⟩ hi
    exact index_step hi (neutral_spares.keeps hs hi.grants).1 (fun _ => hs.gone not_false) hc hf
      (hl hi.limited)

theorem firm_of_grants (h : (grantRules g tasks).Firm SparesGrants t P) :
    (indexRules g tasks owner).Firm (KeepsIndex g tasks owner) t P :=
  ⟨stable_of_grants h.stable, fun hn => h.kept hn.1⟩

theorem triple_indexSpared {p : Rpc α}
    (hp : p.Only (SparesIndex owner) fun τ : Task => τ.isSession = true) :
    (indexRules g tasks owner).Triple t (fun _ => True) p fun _ _ => True :=
  neutral_index.triple (.const True) (fun _ h _ _ _ => h) hp

theorem index_reading (a : Act) (h : a.isReading = true) : SparesIndex owner a :=
  ⟨spares_reading a h, by rintro _ rfl; cases h⟩

theorem index_lease (a : Act) (h : a.isLease = true) : SparesIndex owner a :=
  ⟨spares_lease a h, by rintro _ rfl; cases h⟩

theorem index_session (a : Act) (h : a.isSession = true) : SparesIndex owner a :=
  ⟨spares_session a h, by rintro _ rfl; cases h⟩

theorem index_opening (a : Act) (h : a.isOpening = true) : SparesIndex owner a :=
  ⟨spares_opening a h, by rintro _ rfl; cases h⟩

theorem index_renewing (a : Act) (h : a.isRenewing = true) : SparesIndex owner a :=
  ⟨spares_renewing a h, by rintro _ rfl; cases h⟩

theorem triple_fits {Q : op.Res → StoreState → Prop} (hP : (indexRules g tasks owner).Stable t P)
    (hQ : ∀ r, (indexRules g tasks owner).Stable t (Q r))
    (hf : ∀ s, P s → IndexInv g tasks owner s → Fits g tasks owner s.world op)
    (hl : ∀ s, P s → ∀ id, op = .prefixAppend (.clientDelegations owner) id →
      ∃ n < maxDelegationsPerOwner, counted owner t s.steps = some n)
    (h : ∀ s l r s', IndexInv g tasks owner s → P s →
      StoreState.exec l t s (.kv op) = some (r, s') → (∀ e ∈ s'.steps, e.Settled) → Q r s') :
    (indexRules g tasks owner).Triple t P (kv op) Q := by
  refine triple_kv op hP hQ fun s l r s' hi hs _ he hk => ?_
  have hc : World.Carried s.world s'.world op := by
    cases he
    exact World.carried_exec
  obtain ⟨h1, h2⟩ := index_step hi hk.2.1 (fun _ => fact_gone hk) hc (hf s hs hi)
    (limited_exec he hi.limited fun id h => hl s hs id (Act.kv.inj h))
  exact ⟨h1, h2, h s l r s' hi hs he hk.2.2.2⟩

section Minting

variable (hdraw : ∀ t t' id, drawn g tasks t = some id → drawn g tasks t' = some id → t = t')
  {secret : Bytes} (hid : drawn g tasks t = some (delegationID g.sha256 secret))

include hdraw hid

theorem stable_indexed (χ : Prop) : (indexRules g tasks owner).Stable t fun s =>
    (delegationID g.sha256 secret ∈ s.world.unwritten ∧
      delegationID g.sha256 secret ∈ s.world.indexed) ∧
    (χ → delegationID g.sha256 secret ∈ s.world.children (.clientDelegations owner)) := by
  rintro s s' t' hne hi hi' hg hk ⟨hun, hmem⟩
  refine ⟨stable_of_grants (firm_unwritten hdraw hid).stable s s' t' hne hi hi' hg hk hun,
    fun hχ => ?_⟩
  rcases hg.1 _ (hmem hχ) with h | h
  · exact h
  · exact absurd hun.1 h.unwritten

/-- What a Mint of `o` knows when it has listed the index. -/
def Ready (g : Given) (owner : Token) (t : ℕ) (secret : Bytes) (o : Token) (s : StoreState) :
    Prop :=
  delegationID g.sha256 secret ∉ s.world.indexed ∧
    (o = owner → ∃ n < maxDelegationsPerOwner, counted owner t s.steps = some n)

theorem stable_ready (o : Token) :
    (indexRules g tasks owner).Stable t (Ready g owner t secret o) := by
  rintro s s' t' hne hi hi' hg hk ⟨hun, hcount⟩
  refine ⟨stable_of_grants (firm_unindexed hdraw hid).stable s s' t' hne hi hi' hg hk hun,
    fun ho => ?_⟩
  rw [hg.2 t hne.symm]
  exact hcount ho

theorem triple_listIndex (o : Token) :
    (indexRules g tasks owner).Triple t (fun s => delegationID g.sha256 secret ∉ s.world.indexed)
      (kv (.prefixList (.clientDelegations o))) fun r s => ∀ ids, r = .ok ids →
        ids.length < maxDelegationsPerOwner → Ready g owner t secret o s := by
  have hfirm := firm_unindexed hdraw hid
  refine triple_fits (stable_of_grants hfirm.stable) (fun r => ?_) (fun _ _ _ => ⟨nofun, nofun⟩)
    (fun _ _ => nofun) fun s l r s' hi hs he _ ids hids hlt => ⟨?_, ?_⟩
  · intro s s' t' hne hi hi' hg hk h ids hids hlt
    exact stable_ready hdraw hid o s s' t' hne hi hi' hg hk (h ids hids hlt)
  · exact hfirm.kept (sparesGrants_exec (spares_reading _ rfl) he) hs
  · rintro rfl
    cases he
    rcases l with ⟨ho | _ | _ | _, _⟩
    · cases hids
      exact ⟨_, hlt, if_pos ⟨rfl, decide_eq_true rfl⟩⟩
    all_goals cases hids

theorem triple_mintIndexed (o : Token) (hostname : Hostname) (expiresAt : ℤ) :
    (indexRules g tasks owner).Triple t (fun s => delegationID g.sha256 secret ∉ s.world.indexed)
      (mintDelegation g.acme.normalize g.sha256 o hostname expiresAt secret) fun _ _ => True := by
  refine triple_mint (W := fun s => (delegationID g.sha256 secret ∈ s.world.unwritten ∧
      delegationID g.sha256 secret ∈ s.world.indexed) ∧
      (o = owner → delegationID g.sha256 secret ∈ s.world.children (.clientDelegations owner)))
    neutral_index index_reading (firm_of_grants (firm_unindexed hdraw hid))
    (triple_listIndex hdraw hid o) (fun rec hrec ho => ?_) (fun rec hrec ho => ?_) hostname
    expiresAt
  · rw [hrec, ho]
    refine triple_fits (stable_ready hdraw hid o) (fun r => ?_) (fun _ _ _ => ⟨nofun, nofun⟩)
      (fun s hs id h => ?_) fun s l r s' hi hs he _ hr => ?_
    · intro s s' t' hne hi hi' hg hk h hr
      exact stable_indexed hdraw hid (o = owner) s s' t' hne hi hi' hg hk (h hr)
    · cases h
      exact hs.2 rfl
    · refine ⟨(append_step hid hi.grants hs.1 he).2.2 hr, ?_⟩
      rintro rfl
      cases he
      exact World.exec_append_ok hr
  · rw [hrec]
    refine triple_fits (stable_indexed hdraw hid (o = owner)) (fun _ => .const True)
      (fun s hs _ => ⟨?_, nofun⟩) (fun _ _ => nofun) fun _ _ _ _ _ _ _ _ => trivial
    intro id rec' h ho'
    cases h
    exact hs.2 (ho.symm.trans ho')

end Minting

theorem triple_revokeIndexed (o : Token) (id : String) :
    (indexRules g tasks owner).Triple t (fun _ => True) (revokeDelegation o id)
      fun _ _ => True := by
  refine triple_revoke neutral_index index_reading (firm_of_grants (firm_known id))
    (fun s v hi hv => GrantInv.known hi.grants fun h => by cases h.simple.symm.trans hv)
    (fun s hi hmem => GrantInv.known hi.grants fun h => h.children o hmem)
    (G := fun s => Gone g tasks s.world id) ?_ ?_ (fun _ => .const True) (fun _ _ => trivial)
    (fun _ _ _ => trivial)
  · refine triple_fits (stable_of_grants (firm_known id).stable)
      (fun r => stable_of_grants ((firm_gone id).imp (r = .ok ())).stable)
      (fun _ _ _ => ⟨nofun, nofun⟩) (fun _ _ => nofun) fun s l r s' hi hs he hset => ?_
    exact (delete_step hi.grants hs hset he).2.2
  · refine triple_fits (stable_of_grants (firm_gone id).stable)
      (fun _ => stable_of_grants (firm_gone id).stable) (fun s hs _ => ⟨nofun, ?_⟩)
      (fun _ _ => nofun) fun s l r s' hi hs he _ => ?_
    · intro id' h
      cases h
      exact hs
    · have hspare : (Act.kv (.prefixRemove (.clientDelegations o) id)).SparesGrants := fun _ h => h
      exact (sparesGrants_exec hspare he).gone not_false hs

theorem triple_outside {Q : StoreState → Prop} {a : Act}
    (hP : (indexRules g tasks owner).Stable t P) (hQ : (indexRules g tasks owner).Stable t Q)
    (ha : ∀ op, a ≠ .kv op)
    (hpost : ∀ {l s r s'}, StoreState.exec l t s a = some (r, s') → P s → Q s') :
    (indexRules g tasks owner).Triple t P (Prog.perform (S := tunnelSig) a) fun _ => Q := by
  refine .perform hP (fun _ => hQ) fun s l r s' hi hs _ he hk => ?_
  have hl := limited_exec (t := t) he hi.limited fun id h => absurd h (ha _)
  have hkeeps : IndexInv g tasks owner s' ∧ (indexRules g tasks owner).guar t s s' := by
    obtain rfl | ⟨-, op, hc, h | ⟨-, hop⟩ | rfl⟩ := StoreState.exec_carried (t := t) he
    · exact ⟨hi, fun _ => .inl, fun _ _ => rfl⟩
    · exact absurd h (ha op)
    · exact index_step hi hk.2.1 (fun _ => fact_gone hk) hc
        ⟨fun id rec h => hi.puts id rec (h ▸ hop), fun id h => hi.removes id (h ▸ hop)⟩ hl
    · exact index_step hi hk.2.1 (fun _ => fact_gone hk) hc ⟨nofun, nofun⟩ hl
  exact ⟨hkeeps.1, hkeeps.2, hpost he hs⟩

section

variable (hdraw : ∀ t t' id, drawn g tasks t = some id → drawn g tasks t' = some id → t = t')

include hdraw

theorem triple_indexCall {site : Site} {c : Call} (hprog : (indexRules g tasks owner).Triple t
      (fun s => ∀ id, drawn g tasks t = some id → id ∉ s.world.indexed) (c.prog g site)
      fun _ _ => True) :
    (indexRules g tasks owner).Triple t (Idle g tasks t) (body g (.call site c))
      fun _ _ => True := by
  refine .bind (triple_outside (stable_of_grants (stable_idle hdraw)) ?_ nofun fun he hs => ?_)
    fun _ => .bind hprog fun res => ?_
  · intro s s' t' hne hi hi' hg hk h id hid
    exact stable_of_grants (firm_unindexed hdraw hid).stable s s' t' hne hi hi' hg hk (h id hid)
  · cases he
    exact hs.2
  · exact triple_outside (.const True) (.const True) nofun fun _ _ => trivial

theorem triple_indexTask {τ : Task} (ht : tasks[t]? = some τ) :
    (indexRules g tasks owner).Triple t (Idle g tasks t) (body g τ) fun _ _ => True := by
  have hspared : ∀ {P : StoreState → Prop} {α : Type} {p : Rpc α},
      p.Only (SparesIndex owner) (fun τ : Task => τ.isSession = true) →
      (indexRules g tasks owner).Triple t P p fun _ _ => True := fun hp =>
    .pre (triple_indexSpared hp) fun _ _ _ => trivial
  cases τ with
  | call site c =>
    cases c with
    | mintDelegation o hostname expiresAt secret =>
      have hid : drawn g tasks t = some (delegationID g.sha256 secret) := by simp [drawn, ht]
      exact triple_indexCall hdraw
        (.pre (triple_mintIndexed hdraw hid o hostname expiresAt) fun s _ h => h _ hid)
    | revokeDelegation o id =>
      exact triple_indexCall hdraw (.pre (triple_revokeIndexed o id) fun _ _ _ => trivial)
    | _ =>
      refine triple_indexCall hdraw (hspared (only_prog index_reading index_lease index_session
        (fun _ => id) (fun _ => index_opening) (fun op h => ?_) _))
      cases h <;> exact ⟨fun _ => id, by simp⟩
  | dial sessionAlias hostname => exact hspared (only_dialTask index_session g _ _)
  | disconnect conn => exact hspared (.perform (index_session _ rfl))
  | shutdown => exact hspared (.perform (index_session _ rfl))
  | arrive =>
    exact triple_outside (stable_of_grants (stable_idle hdraw)) (.const True) (by simp)
      fun _ _ => trivial
  | _ =>
    exact hspared (only_sessionTask index_reading index_session (fun _ => id) g rfl
      (fun _ _ => index_renewing) fun _ _ => ⟨trivial, by simp⟩)

end

theorem closed_indexRules : (indexRules g tasks owner).Closed where
  stable _ := .const True
  safe _ _ s hi hs := triple_indexSpared (only_sessionTask index_reading index_session
    (fun _ => id) g hs.1 (fun _ _ => index_renewing) fun _ _ => ⟨trivial, nofun⟩) s hi trivial

end

end Grants

section Listing

variable {g : Given} {t : ℕ} {s : StoreState} {w : World}

def Answered (_ : tunnelSig.Act) (l : Label) : Prop := l.outcome = .ok

theorem alone_get (k : Key) : (tunnelStore g).Alone Answered t
    (fun r s' => s'.world = s.world ∧ r = .ok (s.world.simple k)) (kv (.get k)) s := by
  intro l hl
  refine ⟨_, _, rfl, ?_⟩
  rw [show l.outcome = .ok from hl]
  exact ⟨rfl, rfl⟩

theorem alone_prefixList (k : Key) : (tunnelStore g).Alone Answered t
    (fun r s' => s'.world = s.world ∧ r = .ok (s.world.children k)) (kv (.prefixList k)) s := by
  intro l hl
  refine ⟨_, _, rfl, ?_⟩
  rw [show l.outcome = .ok from hl]
  exact ⟨rfl, rfl⟩

theorem alone_readDelegation (id : String) : (tunnelStore g).Alone Answered t
    (fun r s' => s'.world = s.world ∧ (r = .error .delegationNotFound ∨
      r = .error .delegationInvalid ∨ ∃ rec : DelegationRecord, r = .ok rec ∧ rec.id = id))
    (readDelegation id) s := by
  unfold readDelegation
  split_ifs
  · exact ⟨rfl, .inr (.inl rfl)⟩
  refine Lib.Machine.alone_bind.2 ((alone_get (.delegation id)).mono ?_)
  rintro _ s' ⟨hw, rfl⟩
  rcases s.world.simple (.delegation id) with _ | v
  · exact ⟨hw, .inl rfl⟩
  · cases v with
    | delegation rec =>
      dsimp only
      split_ifs with hbad
      · exact ⟨hw, .inr (.inl rfl)⟩
      · exact ⟨hw, .inr (.inr ⟨rec, rfl, by tauto⟩)⟩
    | _ => exact ⟨hw, .inr (.inl rfl)⟩

theorem alone_listedGrant (owner : Token) (id : String) : (tunnelStore g).Alone Answered t
    (fun r s' => s'.world = s.world ∧ ∃ grant : DelegationGrant, r = .ok grant ∧ grant.id = id)
    (listedGrant owner id) s := by
  refine Lib.Machine.alone_bind.2 ((alone_readDelegation id).mono ?_)
  rintro _ s' ⟨hw, rfl | rfl | ⟨rec, rfl, hrec⟩⟩
  · exact ⟨hw, _, rfl, rfl⟩
  · exact ⟨hw, _, rfl, rfl⟩
  · dsimp only
    split_ifs
    · exact ⟨hw, _, rfl, rfl⟩
    · exact ⟨hw, _, rfl, hrec⟩

theorem alone_gather {α : Type} {Q : ℕ → α → Prop} : ∀ {n : ℕ} {jobs : List (ℕ × Rpc α)},
    jobs.length = n →
    (∀ j job, (j, job) ∈ jobs → ∀ s : StoreState, s.world = w →
      (tunnelStore g).Alone Answered t (fun a s' => s'.world = w ∧ Q j a) job s) →
    ∀ s : StoreState, s.world = w → (tunnelStore g).Alone Answered t
      (fun rs s' => s'.world = w ∧ (∀ x ∈ jobs, ∃ a, (x.1, a) ∈ rs) ∧ ∀ x ∈ rs, Q x.1 x.2)
      (gather n jobs) s
  | 0, jobs, hn, _, s, hs => by
    obtain rfl := List.eq_nil_of_length_eq_zero hn
    exact ⟨hs, nofun, nofun⟩
  | n + 1, jobs, hn, hjobs, s, hs => by
    rw [gather]
    refine Lib.Machine.alone_bind.2 fun l _ => ⟨_, _, rfl, ?_⟩
    obtain ⟨i, hi⟩ : ∃ i : ℕ, l.answer .next = i := ⟨_, rfl⟩
    have hlt : i % jobs.length < jobs.length := Nat.mod_lt _ (by omega)
    have hmem : jobs[i % jobs.length] ∈ jobs := List.getElem_mem hlt
    rw [hi]
    refine Lib.Machine.alone_ret.2 ?_
    rw [List.getElem?_eq_getElem hlt]
    refine Lib.Machine.alone_bind.2 ((hjobs _ _ hmem s hs).mono ?_)
    rintro a s₁ ⟨hs₁, ha⟩
    refine Lib.Machine.alone_bind.2 ((alone_gather ?_ (fun j job h => hjobs j job
      (List.mem_of_mem_eraseIdx h)) s₁ hs₁).mono ?_)
    · rw [List.length_eraseIdx_of_lt hlt]
      omega
    rintro rs s₂ ⟨hs₂, hall, hrs⟩
    refine ⟨hs₂, fun y hy => ?_, fun y hy => ?_⟩
    · obtain ⟨k, hk, rfl⟩ := List.mem_iff_getElem.1 hy
      by_cases hki : k = i % jobs.length
      · subst hki
        exact ⟨a, List.mem_cons_self ..⟩
      · obtain ⟨b, hb⟩ := hall _ (List.mem_eraseIdx_iff_getElem.2 ⟨k, hk, hki, rfl⟩)
        exact ⟨b, List.mem_cons_of_mem _ hb⟩
    · rcases List.mem_cons.1 hy with rfl | hy
      · exact ha
      · exact hrs y hy

theorem alone_promiseAll {Q : ℕ → α → Prop} {jobs : List (Rpc α)}
    (hjobs : ∀ j job, jobs[j]? = some job → ∀ s : StoreState, s.world = w →
      (tunnelStore g).Alone Answered t (fun a s' => s'.world = w ∧ Q j a) job s)
    (hs : s.world = w) : (tunnelStore g).Alone Answered t
      (fun rs s' => s'.world = w ∧ (∀ j < jobs.length, ∃ a ∈ rs, Q j a) ∧
        ∀ a ∈ rs, ∃ j < jobs.length, Q j a) (promiseAll jobs) s := by
  refine Lib.Machine.alone_bind.2 ((alone_gather (by simp) (fun j job h => hjobs j job ?_)
    s hs).mono ?_)
  · obtain ⟨k, hk⟩ := List.mem_iff_getElem?.1 h
    obtain ⟨hj, hjob⟩ := List.getElem?_zip_eq_some.1 hk
    obtain ⟨hlt, rfl⟩ := List.getElem?_eq_some_iff.1 hj
    rwa [List.getElem_range]
  rintro rs s' ⟨hs', hall, hrs⟩
  have hlookup : ∀ {j a}, rs.lookup j = some a → Q j a := by
    intro j a h
    obtain ⟨l₁, l₂, rfl, -⟩ := List.lookup_eq_some_iff.1 h
    exact hrs (j, a) (by simp)
  refine ⟨hs', fun j hj => ?_, fun a ha => ?_⟩
  · have hzip : (j, jobs[j]) ∈ (List.range jobs.length).zip jobs :=
      List.mem_iff_getElem?.2 ⟨j, List.getElem?_zip_eq_some.2 ⟨List.getElem?_range hj, by simp⟩⟩
    obtain ⟨b, hb⟩ := hall _ hzip
    rcases h : rs.lookup j with _ | a
    · simpa using List.lookup_eq_none_iff.1 h _ hb
    · exact ⟨a, List.mem_filterMap.2 ⟨j, List.mem_range.2 hj, h⟩, hlookup h⟩
  · obtain ⟨j, hj, h⟩ := List.mem_filterMap.1 ha
    exact ⟨j, List.mem_range.1 hj, hlookup h⟩

theorem firstError_ok {ε α : Type} : ∀ {l : List (Except ε α)}, (∀ x ∈ l, ∃ a, x = .ok a) →
    ∃ as, firstError l = .ok as ∧ l = as.map .ok
  | [], _ => ⟨[], rfl, rfl⟩
  | x :: l, h => by
    obtain ⟨a, rfl⟩ := h x (List.mem_cons_self ..)
    obtain ⟨as, has, rfl⟩ := firstError_ok fun y hy => h y (List.mem_cons_of_mem _ hy)
    exact ⟨a :: as, by rw [firstError, has]; rfl, rfl⟩

theorem alone_listBatches (owner : Token) : ∀ (batches : List (List String)) (s : StoreState),
    (tunnelStore g).Alone Answered t
      (fun r _ => ∃ grants : List DelegationGrant, r = .ok grants ∧
        ∀ id ∈ batches.flatten, ∃ grant ∈ grants, grant.id = id) (listBatches owner batches) s
  | [], s => ⟨[], rfl, nofun⟩
  | batch :: rest, s => by
    rw [listBatches]
    refine Lib.Machine.alone_bind.2 ((alone_promiseAll (w := s.world) (Q := fun j r => ∃ id grant,
      batch[j]? = some id ∧ r = .ok grant ∧ grant.id = id) ?_ rfl).mono ?_)
    · intro j job hjob s₁ hs₁
      rw [List.getElem?_map, Option.map_eq_some_iff] at hjob
      obtain ⟨id, hid, rfl⟩ := hjob
      refine (alone_listedGrant owner id).mono ?_
      rintro r s₂ ⟨hw, grant, hr, hgrant⟩
      exact ⟨hw.trans hs₁, id, grant, hid, hr, hgrant⟩
    rintro rs s₁ ⟨-, hall, hrs⟩
    obtain ⟨grants, hfirst, rfl⟩ := firstError_ok (l := rs) fun r hr => by
      obtain ⟨j, -, id, grant, -, h, -⟩ := hrs r hr
      exact ⟨grant, h⟩
    rw [hfirst]
    refine Lib.Machine.alone_bind.2 ((alone_listBatches owner rest s₁).mono ?_)
    rintro _ s₂ ⟨more, rfl, hmore⟩
    refine ⟨grants ++ more, rfl, fun id hid => ?_⟩
    rcases List.mem_append.1 hid with hid | hid
    · obtain ⟨j, hj⟩ := List.mem_iff_getElem?.1 hid
      have hlt : j < (batch.map (listedGrant owner)).length := by
        rw [List.length_map]
        exact (List.getElem?_eq_some_iff.1 hj).1
      obtain ⟨r, hr, id', grant, hid', rfl, hgrant⟩ := hall j hlt
      obtain rfl := Option.some.inj (hj.symm.trans hid')
      exact ⟨grant, List.mem_append_left _ (by simpa using hr), hgrant⟩
    · obtain ⟨grant, hmem, hgrant⟩ := hmore id hid
      exact ⟨grant, List.mem_append_right _ hmem, hgrant⟩

theorem flatten_toChunks_go {α : Type} (n : ℕ) : ∀ (l : List α) (acc : Array α)
    (done : Array (List α)), (List.toChunks.go n l acc done).flatten =
      done.toList.flatten ++ acc.toList ++ l
  | [], acc, done => by simp [List.toChunks.go]
  | x :: l, acc, done => by
    rw [List.toChunks.go]
    split_ifs
    · rw [flatten_toChunks_go n l]
      simp
    · rw [flatten_toChunks_go n l]
      simp

theorem flatten_toChunks {α : Type} (n : ℕ) : ∀ l : List α, (l.toChunks n).flatten = l
  | [] => by simp [List.toChunks]
  | x :: l => by
    cases n with
    | zero => simp [List.toChunks]
    | succ n =>
      rw [List.toChunks, flatten_toChunks_go]
      · simp
      · simp

theorem alone_listDelegations (owner : Token) (s : StoreState)
    (h : (s.world.children (.clientDelegations owner)).length ≤ maxDelegationsPerOwner) :
    (tunnelStore g).Alone Answered t
      (fun r _ => ∃ grants, r = .ok (.grants grants) ∧
        ∀ id ∈ s.world.children (.clientDelegations owner), ∃ grant ∈ grants, grant.id = id)
      (listDelegations owner) s := by
  refine Lib.Machine.alone_bind.2 ((alone_prefixList _).mono ?_)
  rintro _ s₁ ⟨-, rfl⟩
  refine Lib.Machine.alone_bind.2 ((alone_listBatches owner _ s₁).mono ?_)
  rintro _ s₂ ⟨grants, rfl, hgrants⟩
  rw [flatten_toChunks, List.take_of_length_le h] at hgrants
  exact ⟨grants, rfl, hgrants⟩

end Listing

open Grants

/-- In every run in which grants are deleted only when no record of them is still to be written,
and Mints that are short of places do not disturb each other, the index stays within the limit, and
a ListDelegations that runs alone lists every grant whose record names the owner. -/
theorem every_grant_listed (g : Given) (tasks : List Task) (simple : Key → Option Value)
    (children : Key → List String) (owner : Token)
    (hdraw : ∀ t t' id, drawn g tasks t = some id → drawn g tasks t' = some id → t = t')
    (hnew : ∀ t id, drawn g tasks t = some id →
      simple (.delegation id) = none ∧ ∀ owner, id ∉ children (.clientDelegations owner))
    (hlisted : ∀ id rec, simple (.delegation id) = some (.delegation rec) → rec.owner = owner →
      id ∈ children (.clientDelegations owner))
    (hlimit : (children (.clientDelegations owner)).length ≤ maxDelegationsPerOwner)
    {sched : List (ℕ × Label)} {c : Lib.Config tunnelSig StoreState}
    (hrun : (tunnelStore g).run sched
      ((tunnelStore g).launch tasks ⟨.start simple children, []⟩) = some c)
    (hsettled : ∀ e ∈ c.shared.steps, e.Settled) (hplaces : undisturbed owner c.shared.steps) :
    (c.shared.world.children (.clientDelegations owner)).length ≤ maxDelegationsPerOwner ∧
    ∀ t, (tunnelStore g).Alone Answered t
      (fun r _ => ∃ grants, r = .ok (.grants grants) ∧
        ∀ id, c.shared.world.Owns owner id → ∃ grant ∈ grants, grant.id = id)
      (listDelegations owner) c.shared := by
  have hgrants := good_grants hdraw hnew
  have hinv : IndexInv g tasks owner ⟨.start simple children, []⟩ :=
    ⟨hgrants.1, fun id ⟨rec, h, ho⟩ => hlisted id rec h ho, nofun, nofun, trivial⟩
  have hgood : (indexRules g tasks owner).Good
      ((tunnelStore g).launch tasks ⟨.start simple children, []⟩) :=
    Rules.good_launch hinv (fun _ _ => trivial) fun t τ hτ => triple_indexTask hdraw hτ _ hinv
      ⟨fun _ h => absurd h List.not_mem_nil, fun _ _ => List.not_mem_nil⟩
  have hfollows : (grantRules g tasks).Follows sched _ := follows_grants hrun hsettled
  have hlayer := hfollows.layer (indexRules g tasks owner) closed_grantRules (fun _ _ _ h => h)
    (fun _ _ => trivial) hgrants
  have hend := (Rules.good_run closed_indexRules hgood hlayer hrun).1
  have hcounts : Counts owner c.shared :=
    (tunnelStore g).run_keeps (fun he hs => counts_exec he hs) hrun ⟨nofun, fun _ _ => hlimit⟩
  have hbound := hcounts.bound hend.limited hplaces
  refine ⟨hbound, fun t => (alone_listDelegations owner c.shared hbound).mono ?_⟩
  rintro _ _ ⟨grants, rfl, hall⟩
  exact ⟨grants, rfl, fun id hid => hall id (hend.listed id hid)⟩

def Given.repeating : Given :=
  { Given.plain with sha256 := fun secret => Vector.replicate 32 (secret.headD 0) }

def repeatedGrant (b : UInt8) : String := delegationID Given.repeating.sha256 [b]

def mint (b : UInt8) : Task := .call .plain (.mintDelegation [7] "a" 0 (List.replicate 32 b))

def crowdedIndex (k : Key) : List String :=
  if k = .clientHostnames [7] then ["a"]
  else if k = .clientDelegations [7] then
    (List.range 127).map fun i => .ofList [Char.ofNat (48 + i / 16), Char.ofNat (48 + i % 16)]
  else []

theorem drawn_mints {t : ℕ} (h : drawn Given.repeating [mint 254, mint 255] t = some id) :
    t = 0 ∧ id = repeatedGrant 254 ∨ t = 1 ∧ id = repeatedGrant 255 := by
  match t, h with
  | 0, h => exact .inl ⟨rfl, (Option.some.inj h).symm⟩
  | 1, h => exact .inr ⟨rfl, (Option.some.inj h).symm⟩
  | n + 2, h => simp [drawn] at h

/-- A client mints a grant that takes the last place, and is then refused another. -/
theorem every_grant_listed_minted :
    ∃ c, (tunnelStore .repeating).run (turns 0 7 ++ turns 1 5) ((tunnelStore .repeating).launch
        [mint 254, mint 255] ⟨.start (fun _ => none) crowdedIndex, []⟩) = some c ∧
      c.shared.world.Owns [7] (repeatedGrant 254) ∧
      (c.shared.world.children (.clientDelegations [7])).length ≤ maxDelegationsPerOwner ∧
      ∀ t, (tunnelStore .repeating).Alone Answered t
        (fun r _ => ∃ grants, r = .ok (.grants grants) ∧
          ∀ id, c.shared.world.Owns [7] id → ∃ grant ∈ grants, grant.id = id)
        (listDelegations [7]) c.shared := by
  have h : ((tunnelStore .repeating).run (turns 0 7 ++ turns 1 5) ((tunnelStore .repeating).launch
      [mint 254, mint 255] ⟨.start (fun _ => none) crowdedIndex, []⟩)).map (fun c =>
        decide ((∀ e ∈ c.shared.steps, e.Settled) ∧ undisturbed [7] c.shared.steps ∧
          c.shared.world.simple (.delegation (repeatedGrant 254)) =
            some (.delegation ⟨delegationRecordVersion, repeatedGrant 254, [7], "a", 0⟩))) =
        some true := by
    decide +kernel
  obtain ⟨c, hrun, hc⟩ := Option.map_eq_some_iff.1 h
  obtain ⟨hsettled, hplaces, hrec⟩ := of_decide_eq_true hc
  have hfresh : repeatedGrant 254 ≠ repeatedGrant 255 ∧
      repeatedGrant 254 ∉ crowdedIndex (.clientDelegations [7]) ∧
      repeatedGrant 255 ∉ crowdedIndex (.clientDelegations [7]) := by
    decide +kernel
  refine ⟨c, hrun, ⟨_, hrec, rfl⟩, every_grant_listed .repeating [mint 254, mint 255]
    (fun _ => none) crowdedIndex [7] ?_ ?_ nofun ?_ hrun hsettled hplaces⟩
  · intro t t' id ht ht'
    rcases drawn_mints ht with ⟨rfl, rfl⟩ | ⟨rfl, rfl⟩ <;>
      rcases drawn_mints ht' with ⟨rfl, h⟩ | ⟨rfl, h⟩
    · rfl
    · exact absurd h hfresh.1
    · exact absurd h.symm hfresh.1
    · rfl
  · refine fun t id ht => ⟨rfl, fun owner => ?_⟩
    by_cases ho : owner = [7]
    · subst ho
      rcases drawn_mints ht with ⟨-, rfl⟩ | ⟨-, rfl⟩
      · exact hfresh.2.1
      · exact hfresh.2.2
    · simp [crowdedIndex, ho]
  · simp [crowdedIndex, maxDelegationsPerOwner]

def Shows (id : String) : Except RpcError Response → Bool
  | .ok (.grants grants) => grants.any (·.id = id)
  | _ => false

/-- What an owner is shown of a grant at the end of a run: the length of the index, whether the
record of the grant is there, and whether it is listed. -/
def shown (tasks : List Task) (children : Key → List String) (sched : List (ℕ × Label))
    (id : String) : Option (ℕ × Bool × Bool) := do
  let c ← (tunnelStore .repeating).run sched
    ((tunnelStore .repeating).launch tasks ⟨.start (fun _ => none) children, []⟩)
  let (res, _) ← (tunnelStore .repeating).runAlone tasks.length (listDelegations [7])
    (List.replicate 300 .plain) c.shared
  return ((c.shared.world.children (.clientDelegations [7])).length,
    (c.shared.world.simple (.delegation id)).isSome, Shows id res)

/-- Two Mints that both find room for one more leave 129 ids, of which the last is not listed; and
a Revoke between the two writes of a Mint leaves a record that is not indexed. -/
theorem grant_not_listed :
    shown [mint 254, mint 255] crowdedIndex (turns 0 4 ++ turns 1 7 ++ turns 0 3)
        (repeatedGrant 255) = some (129, true, false) ∧
      shown [mint 1, .call .plain (.revokeDelegation [7] (repeatedGrant 1))] oneHostname
        (turns 0 5 ++ turns 1 6 ++ turns 0 2) (repeatedGrant 1) = some (0, true, false) := by
  constructor <;> decide +kernel

end Specter.Tunnel
