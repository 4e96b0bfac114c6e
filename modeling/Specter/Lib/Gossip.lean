import Mathlib.Logic.Function.Basic
import Mathlib.Logic.Relation
import Mathlib.Order.Lattice

/-!
# Replicas that exchange snapshots

Each replica holds an element of a join-semilattice.  It joins what is written to it and the
snapshots it receives, which may be old, and may come in any order and any number of times.  If
nothing is written any more, replicas that cover all hold the same (`Gossip.converged`).
-/

namespace Gossip

variable {ι L : Type}

/-- What each replica holds and covers, and the snapshots that were sent, each with what it
covers. -/
structure State (ι L : Type) where
  held : ι → L
  cover : ι → List ι
  sent : List (L × List ι)

/-- From here on a replica covers itself, and an old snapshot nobody. -/
def State.restart (s : State ι L) : State ι L where
  held := s.held
  cover i := [i]
  sent := s.sent.map fun x => (x.1, [])

variable [SemilatticeSup L] [DecidableEq ι]

/-- A replica sends or receives a snapshot, or joins what the replicas hold together anyway, or
nothing happens. -/
inductive Exchange (s : State ι L) : State ι L → Prop
  | idle : Exchange s s
  | send (i : ι) : Exchange s { s with sent := s.sent ++ [(s.held i, s.cover i)] }
  | receive (i : ι) {x : L} {c : List ι} (h : (x, c) ∈ s.sent) : Exchange s
      { s with
        held := Function.update s.held i (s.held i ⊔ x)
        cover := Function.update s.cover i (s.cover i ++ c) }
  | take (i : ι) {x : L} (h : ∀ b, (∀ k, s.held k ≤ b) → x ≤ b) : Exchange s
      { s with held := Function.update s.held i (s.held i ⊔ x) }

inductive Step (s : State ι L) : State ι L → Prop
  | exchange {s' : State ι L} (h : Exchange s s') : Step s s'
  | write (i : ι) (x : L) : Step s { s with held := Function.update s.held i (s.held i ⊔ x) }

/-- No snapshot is ahead of all replicas. -/
def State.Dominated (s : State ι L) : Prop := ∀ x ∈ s.sent, ∃ i, x.1 ≤ s.held i

theorem le_update (held : ι → L) (i : ι) (x : L) (j : ι) :
    held j ≤ Function.update held i (held i ⊔ x) j := by
  rw [Function.update_apply]
  split_ifs with h
  · rw [h]
    exact le_sup_left
  · exact le_rfl

theorem Step.held_le {s s' : State ι L} (h : Step s s') (i : ι) : s.held i ≤ s'.held i := by
  cases h with
  | exchange h =>
    cases h with
    | idle => exact le_rfl
    | send j => exact le_rfl
    | receive j h => exact le_update s.held j _ i
    | take j h => exact le_update s.held j _ i
  | write j x => exact le_update s.held j x i

theorem State.Dominated.step {s s' : State ι L} (hs : s.Dominated) (h : Step s s') :
    s'.Dominated := by
  have hold : ∀ x ∈ s.sent, ∃ i, x.1 ≤ s'.held i := fun x hx => by
    obtain ⟨i, hi⟩ := hs x hx
    exact ⟨i, hi.trans (h.held_le i)⟩
  cases h with
  | exchange h =>
    cases h with
    | idle => exact hs
    | send j =>
      intro x hx
      rcases List.mem_append.1 hx with hx | hx
      · exact hs x hx
      · rw [List.mem_singleton.1 hx]
        exact ⟨j, le_rfl⟩
    | receive j h => exact hold
    | take j h => exact hold
  | write j x => exact hold

theorem State.Dominated.steps {s s' : State ι L} (hs : s.Dominated)
    (h : Relation.ReflTransGen Step s s') : s'.Dominated := by
  induction h with
  | refl => exact hs
  | tail _ h ih => exact ih.step h

/-- What holds since `start`: a replica or snapshot is above what it covers held then, and below
whatever is above all of it. -/
structure Since (start : ι → L) (s : State ι L) : Prop where
  above : ∀ i, ∀ k ∈ s.cover i, start k ≤ s.held i
  below : ∀ b, (∀ k, start k ≤ b) → ∀ i, s.held i ≤ b
  sent_above : ∀ x ∈ s.sent, ∀ k ∈ x.2, start k ≤ x.1
  sent_below : ∀ b, (∀ k, start k ≤ b) → ∀ x ∈ s.sent, x.1 ≤ b

omit [DecidableEq ι] in
theorem since_restart {s : State ι L} (hs : s.Dominated) : Since s.held s.restart where
  above i k hk := by
    rw [List.mem_singleton.1 hk]
    exact le_rfl
  below b hb i := hb i
  sent_above x hx k hk := by
    obtain ⟨y, -, rfl⟩ := List.mem_map.1 hx
    cases hk
  sent_below b hb x hx := by
    obtain ⟨y, hy, rfl⟩ := List.mem_map.1 hx
    obtain ⟨i, hi⟩ := hs y hy
    exact hi.trans (hb i)

theorem Since.exchange {start : ι → L} {s s' : State ι L} (hs : Since start s)
    (h : Exchange s s') : Since start s' := by
  cases h with
  | idle => exact hs
  | send j =>
    refine ⟨hs.above, hs.below, fun x hx => ?_, fun b hb x hx => ?_⟩
    · rcases List.mem_append.1 hx with hx | hx
      · exact hs.sent_above x hx
      · rw [List.mem_singleton.1 hx]
        exact hs.above j
    · rcases List.mem_append.1 hx with hx | hx
      · exact hs.sent_below b hb x hx
      · rw [List.mem_singleton.1 hx]
        exact hs.below b hb j
  | receive j h =>
    refine ⟨fun i k hk => ?_, fun b hb i => ?_, hs.sent_above, hs.sent_below⟩
    · simp only [Function.update_apply] at hk ⊢
      split_ifs at hk ⊢ with hi
      · rcases List.mem_append.1 hk with hk | hk
        · exact (hs.above j k hk).trans le_sup_left
        · exact (hs.sent_above _ h k hk).trans le_sup_right
      · exact hs.above i k hk
    · simp only [Function.update_apply]
      split_ifs with hi
      · exact sup_le (hs.below b hb j) (hs.sent_below b hb _ h)
      · exact hs.below b hb i
  | take j h =>
    refine ⟨fun i k hk => (hs.above i k hk).trans (le_update s.held j _ i), fun b hb i => ?_,
      hs.sent_above, hs.sent_below⟩
    simp only [Function.update_apply]
    split_ifs with hi
    · exact sup_le (hs.below b hb j) (h b (hs.below b hb))
    · exact hs.below b hb i

theorem Since.exchanges {start : ι → L} {s s' : State ι L} (hs : Since start s)
    (h : Relation.ReflTransGen Exchange s s') : Since start s' := by
  induction h with
  | refl => exact hs
  | tail _ h ih => exact ih.exchange h

/-- Replicas that cover all, since some point after which nothing is written, hold the same. -/
theorem converged {s s' : State ι L} (hs : s.Dominated)
    (h : Relation.ReflTransGen Exchange s.restart s') {i j : ι} (hi : ∀ k, k ∈ s'.cover i)
    (hj : ∀ k, k ∈ s'.cover j) : s'.held i = s'.held j := by
  have hsince := (since_restart hs).exchanges h
  exact le_antisymm (hsince.below _ (fun k => hsince.above j k (hj k)) i)
    (hsince.below _ (fun k => hsince.above i k (hi k)) j)

end Gossip
