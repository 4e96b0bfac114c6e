import Specter.Proofs.View
import Specter.Proofs.Locks

/-!
# Contracts about the view

The development of a ring that grows while it is used, and that of a node that leaves it, both speak
of the view only and start from what is known of the membership locks.  A `Contract` is what such a
development chooses; the rules for its programs are here.
-/

namespace Specter

open Lib (Prog Rules)

section Held

variable {K : Type} {v : View K} {t : ℕ} {n : NodeId}

structure HeldOk (v : View K) : Prop where
  state : ∀ {t n st}, v.held t n = some st → v.state n = st
  isHeld : ∀ {t n st}, v.held t n = some st → st.isHeld = true
  unique : ∀ {t t' n}, v.held t n ≠ none → v.held t' n ≠ none → t = t'

theorem heldOk_of_owned {runs : ℕ → Site → Prop} {s : Shared K} (M₀ : Set NodeId)
    (h : Owned runs s) : HeldOk (view M₀ s) where
  state hh := h.held_eq hh
  isHeld hh := isHeld_of_held hh
  unique := by
    intro t t' n hh hh'
    obtain ⟨st, hst⟩ := Option.ne_none_iff_exists'.1 hh
    obtain ⟨st', hst'⟩ := Option.ne_none_iff_exists'.1 hh'
    exact (held_unique hst hst').1.symm

theorem HeldOk.not_active (h : HeldOk v) (hn : v.held t n ≠ none) : v.state n ≠ .active := by
  obtain ⟨st, hst⟩ := Option.ne_none_iff_exists'.1 hn
  rintro ha
  have := h.isHeld hst
  rw [← h.state hst, ha] at this
  cases this

end Held

structure Policy.Step {K : Type} (C : Policy K) (t : ℕ) (s s' : Shared K) : Prop where
  before : Owned C.runs s
  after : Owned C.runs s'
  leaves : LeavesOthers t s s'
  known : C.known t s s'

theorem Policy.Step.heldOk {K : Type} {C : Policy K} {t : ℕ} {s s' : Shared K}
    (h : C.Step t s s') (M₀ : Set NodeId) : HeldOk (view M₀ s) :=
  heldOk_of_owned M₀ h.before

/-- What the threads of a system keep up about the view, given the policy for its locks. -/
structure Contract (K : Type) where
  /-- The members at the start. -/
  start : Set NodeId
  policy : Policy K
  inv : View K → Prop
  /-- What a step of a thread leaves to the others. -/
  guar : ℕ → View K → View K → Prop
  /-- Where the periodic tasks of a node may be started. -/
  maintains : NodeId → View K → Prop
  guar_refl : ∀ t v, guar t v v

namespace Contract

section Rules

variable {K : Type} [KVProvider K] (C : Contract K)

def rules (hash : Bytes → ℕ) (fuel : ℕ) : Rules (cluster K hash fuel) where
  ok l := l.fails = false
  known := C.policy.Step
  inv s := C.inv (view C.start s)
  guar t s s' := C.guar t (view C.start s) (view C.start s')
  fresh _ _ := True
  pre τ s := τ.isPeriodic = true ∧ C.maintains τ.node (view C.start s)
  post _ _ := True

/-- Started where `P` holds of the view, the program keeps to the contract and ends in `Q`. -/
abbrev Triple {α : Type} (hash : Bytes → ℕ) (fuel t : ℕ) (P : View K → Prop) (p : Chord α)
    (Q : α → View K → Prop) : Prop :=
  (C.rules hash fuel).Triple t (fun s => P (view C.start s)) p fun r s => Q r (view C.start s)

omit [KVProvider K] in
structure Interferes (t : ℕ) (v v' : View K) : Prop where
  inv : C.inv v
  heldOk : HeldOk v
  inv' : C.inv v'
  heldOk' : HeldOk v'
  held : v'.held t = v.held t
  guar : ∃ t', t' ≠ t ∧ C.guar t' v v'

/-- Steps of the other threads keep the assertion. -/
def Stays (t : ℕ) (P : View K → Prop) : Prop := ∀ v v', C.Interferes t v v' → P v → P v'

variable {C} {hash : Bytes → ℕ} {fuel t : ℕ} {v v' : View K}

omit [KVProvider K] in
theorem Interferes.not_held (h : C.Interferes t v v') {n : NodeId} (hn : v.held t n ≠ none)
    {t' : ℕ} (hne : t' ≠ t) : v.held t' n = none := by
  by_contra h'
  exact hne (h.heldOk.unique h' hn)

section Stays

variable {P Q : View K → Prop}

omit [KVProvider K] in
theorem Stays.and (hP : C.Stays t P) (hQ : C.Stays t Q) : C.Stays t fun v => P v ∧ Q v :=
  fun v v' h hv => ⟨hP v v' h hv.1, hQ v v' h hv.2⟩

omit [KVProvider K] in
theorem Stays.ex {ι : Type} {P : ι → View K → Prop} (hP : ∀ i, C.Stays t (P i)) :
    C.Stays t fun v => ∃ i, P i v :=
  fun v v' h hv => hv.imp fun i => hP i v v' h

omit [KVProvider K] in
theorem Stays.const (φ : Prop) : C.Stays t fun _ => φ := fun _ _ _ h => h

theorem Stays.stable (hP : C.Stays t P) :
    (C.rules hash fuel).Stable t fun s => P (view C.start s) := by
  intro s s' t' hne hi hi' hg hk hv
  exact hP _ _ ⟨hi, hk.heldOk _, hi', heldOk_of_owned _ hk.after,
    hk.leaves.held t hne.symm, t', hne, hg⟩ hv

end Stays

section Steps

variable {a : Act} {P : View K → Prop} {Q : a.Res → View K → Prop}

theorem triple_step (hP : C.Stays t P) (hQ : ∀ r, C.Stays t (Q r))
    (h : ∀ (s : Shared K) l r s', C.inv (view C.start s) → C.policy.Step t s s' →
      P (view C.start s) → l.fails = false → exec l t s a = some (r, s') →
      C.inv (view C.start s') ∧ C.guar t (view C.start s) (view C.start s') ∧
        Q r (view C.start s')) :
    C.Triple hash fuel t P (Prog.perform (S := chordSig) a) Q :=
  .perform hP.stable (fun r => (hQ r).stable) fun s l r s' hi hv hl he hk =>
    h s l r s' hi hk hv hl he

theorem triple_read (ha : a.isInert = true) (hP : C.Stays t P) (hQ : ∀ r, C.Stays t (Q r))
    (h : ∀ (s : Shared K) l r s', C.inv (view C.start s) → HeldOk (view C.start s) →
      P (view C.start s) → l.fails = false → exec l t s a = some (r, s') →
      Q r (view C.start s)) :
    C.Triple hash fuel t P (Prog.perform (S := chordSig) a) Q := by
  refine triple_step hP hQ fun s l r s' hi hk hv hl he => ?_
  rw [exec_inert ha he]
  exact ⟨hi, C.guar_refl t _, h s l r s' hi (hk.heldOk _) hv hl he⟩

theorem keeps_inert (ha : a.isInert = true) :
    (C.rules hash fuel).Keeps t (fun s => P (view C.start s)) a := by
  intro s l r s' hi hv _ he _
  have hview := exec_inert (M := C.start) ha he
  change C.inv (view C.start s') ∧ C.guar t (view C.start s) (view C.start s') ∧
    P (view C.start s')
  rw [hview]
  exact ⟨hi, C.guar_refl t _, hv⟩

theorem isInert_reading (a : Act) (h : a.isReading = true) : a.isInert = true := by
  cases a <;> simp_all [Act.isReading, Act.isInert]

theorem triple_reading {α : Type} {p : Chord α} (hP : C.Stays t P)
    (hp : p.Only (fun a : Act => a.isInert = true) fun _ => False) :
    C.Triple hash fuel t P p fun _ => P :=
  .only hP.stable (fun _ ha => keeps_inert ha) (fun _ h => h.elim) hp

end Steps

section States

variable {P Q : View K → Prop} {n : NodeId} {exp nxt : State} {how : How} {site : Site}

/-- The view after a swap of the state at this place of the program. -/
def swapped (v : View K) (t : ℕ) (n : NodeId) (st : State) (site : Site) : View K :=
  { v.swap t n st with members := if site = .create then insert n v.members else v.members }

theorem triple_cas (hP : C.Stays t P) (hQ : C.Stays t Q)
    (h : ∀ s s', C.inv (view C.start s) → C.policy.Step t s s' → P (view C.start s) →
      (view C.start s).state n = exp → s'.trace = .swapped t n how site exp nxt :: s.trace →
      view C.start s' = swapped (view C.start s) t n nxt site →
      C.inv (view C.start s') ∧ C.guar t (view C.start s) (view C.start s') ∧
        Q (view C.start s')) :
    C.Triple hash fuel t P (transition n exp nxt how site) fun b v => if b then Q v else P v := by
  refine .bind (.keeps hP.stable (keeps_inert rfl)) fun (w : StateWord) => ?_
  refine triple_step (a := .casState n ⟨w.index, exp⟩ ⟨w.index + 1, nxt⟩ how site)
    (Q := fun b v => if b then Q v else P v) hP (fun b => ?_) fun s l b s' hi hk hv _ he => ?_
  · cases b
    · exact hP
    · exact hQ
  · obtain ⟨rfl, hst, hview⟩ | ⟨rfl, hview⟩ := view_casState (M := C.start) he
    · refine h s s' hi hk hv hst ?_ hview
      obtain ⟨-, -, rfl⟩ | ⟨hb, -⟩ := exec_casState he
      · rfl
      · cases hb
    · rw [hview]
      exact ⟨hi, C.guar_refl t _, hv⟩

theorem triple_setTo {val : State} (hP : C.Stays t P) (hQ : C.Stays t Q)
    (h : ∀ s s', C.inv (view C.start s) → C.policy.Step t s s' → P (view C.start s) →
      view C.start s' = swapped (view C.start s) t n val site →
      C.inv (view C.start s') ∧ C.guar t (view C.start s) (view C.start s') ∧
        Q (view C.start s')) :
    ∀ rounds, C.Triple hash fuel t P (setState rounds n val site) fun _ => Q
  | 0 => triple_halt
  | rounds + 1 => by
    refine .bind (.keeps hP.stable (keeps_inert rfl)) fun (w : StateWord) => ?_
    refine .bind (triple_cas hP hQ fun s s' hi hk hv _ _ => h s s' hi hk hv) fun b => ?_
    cases b
    · exact triple_setTo hP hQ h rounds
    · exact .same hQ.stable

theorem triple_transition (hP : C.Stays t P) (hQ : C.Stays t Q)
    (h : ∀ v, C.inv v → HeldOk v → P v → v.state n = exp →
      C.inv (swapped v t n nxt site) ∧ C.guar t v (swapped v t n nxt site) ∧
        Q (swapped v t n nxt site)) :
    C.Triple hash fuel t P (transition n exp nxt how site) fun b v => if b then Q v else P v :=
  triple_cas hP hQ fun s s' hi hk hv hst _ hview => by
    rw [hview]
    exact h _ hi (hk.heldOk _) hv hst

theorem triple_setState {val : State} (hP : C.Stays t P) (hQ : C.Stays t Q)
    (h : ∀ v, C.inv v → HeldOk v → P v →
      C.inv (swapped v t n val site) ∧ C.guar t v (swapped v t n val site) ∧
        Q (swapped v t n val site)) (rounds : ℕ) :
    C.Triple hash fuel t P (setState rounds n val site) fun _ => Q :=
  triple_setTo hP hQ (fun s s' hi hk hv hview => by
    rw [hview]
    exact h _ hi (hk.heldOk _) hv) rounds

end States

/-- A run that keeps to the policy for the locks keeps to the contract, if its threads do. -/
theorem good_run (hlocks : (C.policy.rules hash fuel).Closed) (hclosed : (C.rules hash fuel).Closed)
    {sched : List (ℕ × Fault)} {c c' : Lib.Config chordSig (Shared K)}
    (hok : ∀ x ∈ sched, x.2.fails = false) (hpolicy : (C.policy.rules hash fuel).Good c)
    (hfollows : (C.policy.rules hash fuel).Follows sched c) (hgood : (C.rules hash fuel).Good c)
    (hrun : (cluster K hash fuel).run sched c = some c') : (C.rules hash fuel).Good c' :=
  Rules.good_run hclosed hgood (hfollows.layer (C.rules hash fuel) hlocks
    (fun _ _ _ h => ⟨h.1, h.2.1, Policy.leavesOthers h, h.2.2.2⟩) hok hpolicy) hrun

end Rules

end Contract

end Specter
