import Mathlib.Data.List.Sort

/-!
# Sorted lists without repetition

Sorting a list and dropping the elements that are equal to their neighbour gives the same list for
every list with the same elements.
-/

namespace Lib

variable {α : Type} [DecidableEq α] {x : α}

/-- Without the elements that are equal to the next one. -/
def compact : List α → List α
  | a :: b :: rest => if a = b then compact (b :: rest) else a :: compact (b :: rest)
  | l => l

@[simp] theorem mem_compact {l : List α} : x ∈ compact l ↔ x ∈ l := by
  fun_induction compact l with
  | case1 b rest ih => simp [ih]
  | case2 a b rest h ih => simp [ih]
  | case3 l h => rfl

theorem length_compact_le (l : List α) : (compact l).length ≤ l.length := by
  fun_induction compact l with
  | case1 b rest ih => exact ih.trans (by simp)
  | case2 a b rest h ih => simpa using ih
  | case3 l h => exact Nat.le_refl _

theorem compact_map {β : Type} [DecidableEq β] {f : α → β} (hf : Function.Injective f)
    (l : List α) : compact (l.map f) = (compact l).map f := by
  fun_induction compact l with
  | case1 b rest ih =>
    rw [List.map_cons, List.map_cons, compact, if_pos rfl]
    exact ih
  | case2 a b rest hne ih =>
    rw [List.map_cons, List.map_cons, compact, if_neg (hf.ne hne), List.map_cons]
    exact congrArg _ ih
  | case3 l hl =>
    match l, hl with
    | [], _ => rfl
    | [a], _ => rfl
    | a :: b :: rest, hl => exact absurd rfl (hl a b rest)

variable {r : α → α → Prop}

theorem pairwise_compact [Std.Antisymm r] {l : List α} (h : l.Pairwise r) :
    (compact l).Pairwise fun a b => r a b ∧ a ≠ b := by
  fun_induction compact l with
  | case1 b rest ih => exact ih h.of_cons
  | case2 a b rest hne ih =>
    obtain ⟨ha, hl⟩ := List.pairwise_cons.1 h
    refine List.pairwise_cons.2 ⟨fun x hx => ?_, ih hl⟩
    have hx' : x ∈ b :: rest := mem_compact.1 hx
    refine ⟨ha x hx', ?_⟩
    rintro rfl
    -- `b` stands between two occurrences of `a`
    have hba : r b a := by
      rcases List.mem_cons.1 hx' with rfl | hx'
      · exact absurd rfl hne
      · exact (List.pairwise_cons.1 hl).1 a hx'
    exact hne (Std.Antisymm.antisymm a b (ha b List.mem_cons_self) hba)
  | case3 l hl =>
    match l, hl with
    | [], _ => exact .nil
    | [a], _ => exact List.pairwise_singleton _ _
    | a :: b :: rest, hl => exact absurd rfl (hl a b rest)

/-- `slices.Sort` and `slices.Compact`. -/
def sortCompact (le : α → α → Prop) [DecidableRel le] (l : List α) : List α :=
  compact (l.mergeSort (le · ·))

section SortCompact

variable (r) [DecidableRel r] {l : List α}

@[simp] theorem mem_sortCompact : x ∈ sortCompact r l ↔ x ∈ l := by
  simp [sortCompact]

theorem length_sortCompact_le (l : List α) : (sortCompact r l).length ≤ l.length :=
  (length_compact_le _).trans (by simp)

variable [Std.Antisymm r] [Std.Total r] [IsTrans α r]

theorem pairwise_sortCompact (l : List α) :
    (sortCompact r l).Pairwise fun a b => r a b ∧ a ≠ b :=
  pairwise_compact (List.pairwise_mergeSort' r l)

theorem nodup_sortCompact (l : List α) : (sortCompact r l).Nodup :=
  (pairwise_sortCompact r l).imp And.right

/-- It is the only strictly sorted list of these elements. -/
theorem sortCompact_eq {l' : List α} (hl' : l'.Pairwise fun a b => r a b ∧ a ≠ b)
    (h : ∀ x, x ∈ l ↔ x ∈ l') : sortCompact r l = l' := by
  have hperm : (sortCompact r l).Perm l' :=
    (List.perm_ext_iff_of_nodup (nodup_sortCompact r l) (hl'.imp And.right)).2 fun x => by
      simp [h x]
  exact hperm.eq_of_pairwise' ((pairwise_sortCompact r l).imp And.left) (hl'.imp And.left)

theorem sortCompact_congr {l' : List α} (h : ∀ x, x ∈ l ↔ x ∈ l') :
    sortCompact r l = sortCompact r l' :=
  sortCompact_eq r (pairwise_sortCompact r l') fun x => by simp [h x]

end SortCompact

end Lib
