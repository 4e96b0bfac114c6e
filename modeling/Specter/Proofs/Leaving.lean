import Specter.Proofs.Moving

/-!
# The keys of a node that leaves

One node leaves a ring while others join it.  An Active node stores only keys of its own part of the
circle, as long as every joiner is accepted by its next member, wherever the predecessor of that
member points (`Orderly`).  A node that has taken both its locks, and whose successor is then the
next member, hands on all its keys to that member.
-/

namespace Specter

open Lib (Prog Rules Arc.Ioo Arc.Ioc Arc.Gap)
open Contract

/-- What has to be right of an event, given what happened before: a joiner is accepted by its next
member; once `n` has both its locks, the node it has locked is its next member; and no node finds
itself alone when it leaves. -/
def Placed (M₀ : Set NodeId) (n : NodeId) (es : List Event) : Event → Prop
  | .accepted t m x => Arc.Gap (M₀ ∪ members (.accepted t m x :: es)) x m
  | .swapped t a how site old new => ∀ m,
      held (.swapped t a how site old new :: es) t n = some .leaving →
      held (.swapped t a how site old new :: es) t m = some .transferring →
      Arc.Gap (M₀ ∪ members (.swapped t a how site old new :: es)) n m
  | .skipped .. => False
  | _ => True

def AllPlaced (M₀ : Set NodeId) (n : NodeId) : List Event → Prop
  | [] => True
  | e :: es => Placed M₀ n es e ∧ AllPlaced M₀ n es

section Rules

variable {K : Type} [KVProvider K] {C : Contract K}

def View.InRange (hash : Bytes → ℕ) (v : View K) (m : NodeId) : Prop :=
  ∀ k, KVProvider.val (v.kv m) k ≠ .newValue → Owns v.members m (hash k)

/-- Every key that `n` stored when it last stopped being Active is stored, as it was, at the first
of the other members after it. -/
def View.HandedOn (hash : Bytes → ℕ) (n : NodeId) (v : View K) : Prop :=
  ∀ k, KVProvider.val (v.atStop n) k ≠ .newValue → ∃ m, Owns (v.members \ {n}) m (hash k) ∧
    KVProvider.val (v.kv m) k = KVProvider.val (v.atStop n) k

/-- What holds in every state on the way. -/
structure Orderly (hash : Bytes → ℕ) (v : View K) : Prop where
  finite : v.members.Finite
  running : ∀ m, v.state m = .active ∨ v.state m = .transferring ∨ v.state m = .leaving →
    m ∈ v.members
  started : ∀ m ∈ v.members, v.state m ≠ .inactive
  preds : ∀ m p, v.predecessor m = some p → p ∈ v.members
  rows : ∀ m, v.state m = .active ∨ v.state m = .inactive → v.InRange hash m

/-- What a step of thread `t` leaves to the others, and what has been done when `n` leaves. -/
structure Yields (hash : Bytes → ℕ) (n : NodeId) (t : ℕ) (v v' : View K) : Prop where
  grows : v.members ⊆ v'.members
  joins : ∀ x ∈ v'.members, x ∉ v.members → v.held t x = some .joining
  gap : ∀ m p, Arc.Gap v.members p m →
    Arc.Gap v'.members p m ∨ v.held t m = some .transferring
  kv : ∀ m, v'.kv m ≠ v.kv m → v.held t m ≠ none
  atStop : ∀ m, v'.atStop m ≠ v.atStop m → v.state m = .active
  left : v.state n = .left → v'.state n = .left
  handed : v.state n ≠ .left → v'.state n = .left → v'.HandedOn hash n

theorem Yields.refl (hash : Bytes → ℕ) (n : NodeId) (t : ℕ) (v : View K) :
    Yields hash n t v v where
  grows := subset_rfl
  joins _ h h' := absurd h h'
  gap _ _ h := .inl h
  kv _ h := absurd rfl h
  atStop _ h := absurd rfl h
  left h := h
  handed h h' := absurd h' h

/-- Runs without failing calls in which `n` leaves the ring, up to the step that makes it leave. -/
@[reducible] def departing (K : Type) [KVProvider K] (hash : Bytes → ℕ) (tasks : List Task)
    (M₀ : Set NodeId) (n : NodeId) : Contract K where
  start := M₀
  policy := answered tasks fun _ s s' =>
    AllPlaced M₀ n s'.trace ∧ (s.node n).state.state ≠ .left
  inv := Orderly hash
  guar := Yields hash n
  maintains m v := m ∈ v.members
  guar_refl := Yields.refl hash n

variable {hash : Bytes → ℕ} {tasks : List Task} {M₀ : Set NodeId} {n m x p : NodeId}
  {fuel t : ℕ} {v v' : View K}

namespace Contract.Interferes

variable (h : (departing K hash tasks M₀ n).Interferes t v v')

include h

theorem keeps_members : v.members ⊆ v'.members := h.guar.choose_spec.2.grows

theorem keeps_gap (hm : v.held t m ≠ none) (hg : Arc.Gap v.members p m) :
    Arc.Gap v'.members p m := by
  obtain ⟨t', hne, hr⟩ := h.guar
  refine (hr.gap m p hg).resolve_right fun h' => ?_
  rw [h.not_held hm hne] at h'
  cases h'

theorem keeps_kv (hm : v.held t m ≠ none) : v'.kv m = v.kv m := by
  obtain ⟨t', hne, hr⟩ := h.guar
  by_contra hkv
  exact hr.kv m hkv (h.not_held hm hne)

theorem keeps_atStop (hm : v.held t m ≠ none) : v'.atStop m = v.atStop m := by
  obtain ⟨t', hne, hr⟩ := h.guar
  by_contra hs
  exact h.heldOk.not_active hm (hr.atStop m hs)

theorem keeps_notMem (hx : v.held t x = some .joining) (hm : x ∉ v.members) :
    x ∉ v'.members := by
  obtain ⟨t', hne, hr⟩ := h.guar
  intro hx'
  have := hr.joins x hx' hm
  rw [h.not_held (by rw [hx]; simp) hne] at this
  cases this

theorem keeps_inRange (hm : v.held t m ≠ none) (hr : v.InRange hash m) :
    v'.InRange hash m := by
  intro k hk
  rw [h.keeps_kv hm] at hk
  obtain ⟨q, hg, hid⟩ := hr k hk
  exact ⟨q, h.keeps_gap hm hg, hid⟩

end Contract.Interferes

/-- Assertions that do not depend on pointers and mutexes. -/
structure Firm (C : Contract K) (t : ℕ) (P : View K → Prop) : Prop where
  stays : C.Stays t P
  blind : ∀ v pr su mu, P v → P { v with predecessor := pr, successors := su, mutex := mu }

omit [KVProvider K] in
theorem Firm.and {P Q : View K → Prop} (hP : Firm C t P) (hQ : Firm C t Q) :
    Firm C t fun v => P v ∧ Q v where
  stays := hP.stays.and hQ.stays
  blind v pr su mu h := ⟨hP.blind v pr su mu h.1, hQ.blind v pr su mu h.2⟩

omit [KVProvider K] in
theorem Firm.ex {ι : Type} {P : ι → View K → Prop} (hP : ∀ i, Firm C t (P i)) :
    Firm C t fun v => ∃ i, P i v where
  stays := .ex fun i => (hP i).stays
  blind v pr su mu h := h.imp fun i => (hP i).blind v pr su mu

omit [KVProvider K] in
theorem Firm.const (φ : Prop) : Firm C t fun _ => φ where
  stays := .const φ
  blind _ _ _ _ h := h

section Pointers

variable {P : View K → Prop} (hP : Firm (departing K hash tasks M₀ n) t P) (mu : Mutex)
  {new : Option NodeId} {c : NodeId}

include hP

theorem Firm.keeps {a : Act}
    (ha : ∀ (s : Shared K) l r s', Orderly hash (view M₀ s) → P (view M₀ s) →
      exec l t s a = some (r, s') → ∃ pr su mu,
      (∀ m p, pr m = some p → p ∈ (view M₀ s).members) ∧
      view M₀ s' = { view M₀ s with predecessor := pr, successors := su, mutex := mu }) :
    ((departing K hash tasks M₀ n).rules hash fuel).Keeps t (fun s => P (view M₀ s)) a := by
  intro s l r s' hi hv _ he _
  obtain ⟨pr, su, mu, hpr, hview⟩ := ha s l r s' hi hv he
  change Orderly hash (view M₀ s') ∧ Yields hash n t (view M₀ s) (view M₀ s') ∧ P (view M₀ s')
  rw [hview]
  exact ⟨{ hi with preds := hpr }, { Yields.refl hash n t _ with }, hP.blind _ pr su mu hv⟩

theorem Firm.triple_lock (m : NodeId) :
    (departing K hash tasks M₀ n).Triple hash fuel t P (lock mu m) fun _ => P :=
  .keeps hP.stays.stable
    (hP.keeps fun _ _ _ _ hi _ he => ⟨_, _, _, hi.preds, (view_lock (M := M₀) he).2⟩)

theorem Firm.triple_unlock (m : NodeId) :
    (departing K hash tasks M₀ n).Triple hash fuel t P (unlock mu m) fun _ => P :=
  .keeps hP.stays.stable (hP.keeps fun _ l _ _ hi _ he =>
    ⟨_, _, _, hi.preds, view_unlock (M := M₀) (l := l) (t := t) he⟩)

theorem Firm.keeps_setSuccessors (m : NodeId) (succs : List NodeId) :
    ((departing K hash tasks M₀ n).rules hash fuel).Keeps t (fun s => P (view M₀ s))
      (.setSuccessors m succs) :=
  hP.keeps fun _ l _ _ hi _ he =>
    ⟨_, _, _, hi.preds, view_setSuccessors (M := M₀) (l := l) (t := t) he⟩

omit hP in
theorem Orderly.preds_update (h : Orderly hash v) (hnew : ∀ c, new = some c → c ∈ v.members)
    (m m' p : NodeId) (hp : Function.update v.predecessor m new m' = some p) : p ∈ v.members := by
  by_cases hm : m' = m
  · rw [hm, Function.update_self] at hp
    exact hnew p hp
  · rw [Function.update_of_ne hm] at hp
    exact h.preds m' p hp

theorem Firm.keeps_setPredecessor (hnew : ∀ v, P v → ∀ c, new = some c → c ∈ v.members)
    (m : NodeId) : ((departing K hash tasks M₀ n).rules hash fuel).Keeps t (fun s => P (view M₀ s))
      (.setPredecessor m new) :=
  hP.keeps fun _ _ _ _ hi hv he =>
    ⟨_, _, _, hi.preds_update (hnew _ hv) m, (view_setPredecessor (M := M₀) he).2⟩

theorem Firm.keeps_casPredecessor (hnew : ∀ v, P v → ∀ c, new = some c → c ∈ v.members) (m : NodeId)
    (old : Option NodeId) :
    ((departing K hash tasks M₀ n).rules hash fuel).Keeps t (fun s => P (view M₀ s))
      (.casPredecessor m old new) :=
  hP.keeps fun _ _ _ _ hi hv he => by
    obtain ⟨-, ⟨-, hview⟩ | ⟨-, hview⟩⟩ := view_casPredecessor (M := M₀) he
    · exact ⟨_, _, _, hi.preds, hview⟩
    · exact ⟨_, _, _, hi.preds_update (hnew _ hv) m, hview⟩

theorem Firm.keeps_routing (a : Act) (ha : a.isRouting m = true) :
    ((departing K hash tasks M₀ n).rules hash fuel).Keeps t (fun s => P (view M₀ s)) a := by
  cases a with
  | setSuccessors m' l => exact hP.keeps_setSuccessors m' l
  | _ => exact keeps_inert (by simp_all [Act.isRouting, Act.isReading, Act.isInert])

theorem Firm.triple_notifyCandidate (m c : NodeId) (snapshot : Option NodeId) :
    (departing K hash tasks M₀ n).Triple hash fuel t P (notifyCandidate m snapshot c)
      fun r v => (∀ d, r = some d → d = c) ∧ P v := by
  have hend : ∀ r : Option NodeId, (∀ d, r = some d → d = c) →
      (departing K hash tasks M₀ n).Triple hash fuel t P (.ret r)
        fun r v => (∀ d, r = some d → d = c) ∧ P v :=
    fun r hr => .ret ((Stays.const _).and hP.stays).stable fun _ _ h => ⟨hr, h⟩
  unfold notifyCandidate
  split
  · exact hend _ fun d hd => (Option.some.inj hd).symm
  split
  · exact hend _ nofun
  refine .bind (triple_reading hP.stays (only_checkNodeState isInert_reading _ true)) fun e => ?_
  split
  · refine hend _ fun d hd => ?_
    split_ifs at hd
    exact (Option.some.inj hd).symm
  · exact hend _ fun d hd => (Option.some.inj hd).symm

theorem Firm.triple_notify (hc : ∀ v, P v → c ∈ v.members) (m : NodeId) :
    (departing K hash tasks M₀ n).Triple hash fuel t P (notify m c) fun _ => P := by
  refine .bind (triple_reading hP.stays (only_checkNodeState isInert_reading m false)) fun e => ?_
  split
  · exact .same hP.stays.stable
  refine .bind (triple_reading hP.stays (.perform rfl)) fun (x : Option NodeId) => ?_
  refine .bind (triple_reading hP.stays (only_getPredecessor isInert_reading m)) fun old => ?_
  refine .bind (hP.triple_notifyCandidate m c old) fun r => .assume fun hr => ?_
  split
  · exact .same hP.stays.stable
  next d =>
    refine .bind (triple_reading hP.stays (.perform rfl)) fun (_ : Unit) => ?_
    refine .bind (.keeps hP.stays.stable (hP.keeps_casPredecessor (fun v hv d' hd' => ?_) m old))
      fun (_ : Unit) => .same hP.stays.stable
    rw [← Option.some.inj hd', hr d rfl]
    exact hc v hv

theorem Firm.triple_checkPredecessor (m : NodeId) :
    (departing K hash tasks M₀ n).Triple hash fuel t P (checkPredecessor m) fun _ => P := by
  refine .bind (triple_reading hP.stays (only_getPredecessor isInert_reading m)) fun pre => ?_
  split
  · exact .same hP.stays.stable
  split_ifs
  · exact .same hP.stays.stable
  refine .bind (triple_reading hP.stays (only_checkNodeState isInert_reading _ true)) fun e => ?_
  split
  · exact .same hP.stays.stable
  · exact .bind (.keeps hP.stays.stable (hP.keeps_casPredecessor (by simp) m _))
      fun (_ : Unit) => .same hP.stays.stable

theorem Firm.triple_updatePointers (hc : ∀ v, P v → c ∈ v.members) (rounds : ℕ) :
    (departing K hash tasks M₀ n).Triple hash fuel t P (updatePointers rounds c) fun _ => P :=
  Specter.triple_updatePointers hP.stays.stable hP.keeps_routing (hP.triple_notify hc) rounds

theorem Firm.triple_startTasks (hx : ∀ v, P v → x ∈ v.members) (rounds : ℕ) :
    (departing K hash tasks M₀ n).Triple hash fuel t P (startTasks rounds x) fun _ => P :=
  Specter.triple_startTasks hP.stays.stable hP.keeps_routing (hP.triple_notify hx) rounds
    fun τ hτ s _ h => by
      rcases hτ with rfl | rfl | rfl <;> exact ⟨rfl, hx _ h⟩

end Pointers

omit [KVProvider K] in
theorem firm_mem [KVProvider K] (m : NodeId) :
    Firm (departing K hash tasks M₀ n) t fun v : View K => m ∈ v.members where
  stays _ _ h hv := h.keeps_members hv
  blind _ _ _ _ h := h

theorem keeps_mem (m : NodeId) (t : ℕ) (s s' : Shared K)
    (h : ((departing K hash tasks M₀ n).rules hash fuel).guar t s s')
    (hm : m ∈ (view M₀ s).members) : m ∈ (view M₀ s').members :=
  h.grows hm

theorem departing_closed : ((departing K hash tasks M₀ n).rules hash fuel).Closed where
  stable _ := .const _
  safe τ t := by
    have hfirm : Firm (departing K hash tasks M₀ n) t fun v : View K => τ.node ∈ v.members :=
      firm_mem τ.node
    refine .pre (P := fun s => τ.isPeriodic = true ∧ τ.node ∈ (view M₀ s).members) ?_
      fun _ _ h => h.1
    refine .assume fun hτ => .post (triple_periodicTask hfirm.stays.stable hfirm.keeps_routing hτ
      (hfirm.triple_notify fun _ h => h) (hfirm.triple_checkPredecessor τ.node)
      fun _ _ h => ⟨hτ, h⟩) fun _ _ _ => trivial

section States

variable {st : State}

theorem Orderly.swap (h : Orderly hash v)
    (hrun : st = .active ∨ st = .transferring ∨ st = .leaving → m ∈ v.members)
    (hin : m ∈ v.members → st ≠ .inactive)
    (hrows : st = .active ∨ st = .inactive → v.InRange hash m) : Orderly hash (v.swap t m st) where
  finite := h.finite
  running m' hm := by
    by_cases hmm : m' = m
    · rw [hmm, swap_state_self] at hm
      exact hmm ▸ hrun hm
    · rw [swap_state_ne hmm] at hm
      exact h.running m' hm
  started m' hm := by
    by_cases hmm : m' = m
    · rw [hmm, swap_state_self]
      exact hin (hmm ▸ hm)
    · rw [swap_state_ne hmm]
      exact h.started m' hm
  preds := h.preds
  rows m' hm := by
    by_cases hmm : m' = m
    · rw [hmm, swap_state_self] at hm
      exact hmm ▸ hrows hm
    · rw [swap_state_ne hmm] at hm
      exact h.rows m' hm

theorem Yields.swap (hl : v.state m ≠ .left) (hst : st = .left → m = n →
    (v.swap t m st).HandedOn hash n) : Yields hash n t v (v.swap t m st) where
  grows := subset_rfl
  joins _ h h' := absurd h h'
  gap _ _ h := .inl h
  kv _ h := absurd rfl h
  atStop m' h := by
    by_cases hmm : m' = m
    · by_contra hm
      rw [hmm] at hm
      exact h (swap_atStop_ne hm m')
    · exact absurd (by simp [View.swap, hmm]) h
  left h := by
    by_cases hnm : n = m
    · exact absurd (hnm ▸ h) hl
    · rwa [swap_state_ne hnm]
  handed h h' := by
    by_cases hnm : n = m
    · rw [hnm, swap_state_self] at h'
      exact hst h' hnm.symm
    · rw [swap_state_ne hnm] at h'
      exact absurd h' h

structure Retains (hash : Bytes → ℕ) (t : ℕ) (m : NodeId) (st : State) (v : View K) : Prop where
  held : v.held t m = some st
  rows : v.InRange hash m

theorem firm_kept : Firm (departing K hash tasks M₀ n) t (Retains (K := K) hash t m st) where
  stays _ _ h hv := ⟨by rw [h.held, hv.held], h.keeps_inRange (by rw [hv.held]; simp) hv.rows⟩
  blind _ _ _ _ h := { h with }

theorem Retains.give (hi : Orderly hash v) (hh : HeldOk v) (hk : Retains hash t m st v)
    (hm : m ∈ v.members) :
    Orderly hash (v.swap t m .active) ∧ Yields hash n t v (v.swap t m .active) := by
  refine ⟨hi.swap (fun _ => hm) (fun _ => nofun) fun _ => hk.rows, .swap (fun hl => ?_) nofun⟩
  have := hh.isHeld hk.held
  rw [← hh.state hk.held, hl] at this
  cases this

theorem Orderly.take (hi : Orderly hash v) (ha : v.state m = .active)
    (hst : st = .transferring ∨ st = .leaving) :
    Orderly hash (v.swap t m st) ∧ Yields hash n t v (v.swap t m st) ∧
      Retains hash t m st (v.swap t m st) := by
  have hm := hi.running m (.inl ha)
  have hrows : v.InRange hash m := hi.rows m (.inl ha)
  refine ⟨hi.swap (fun _ => hm) (fun _ hs => ?_) fun _ => hrows,
    .swap (by rw [ha]; nofun) fun hs => ?_, swap_held_self ?_, hrows⟩
  all_goals rcases hst with rfl | rfl <;> first | rfl | cases hs

end States

end Rules

end Specter
