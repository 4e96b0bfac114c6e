import Mathlib.Data.Set.Finite.Lemmas
import Mathlib.Data.Finset.Max
import Mathlib.Tactic.Common

/-!
# Arcs of a circle of identifiers

A linear order read clockwise, with its end joined to its beginning.  `Ioo a b` and `Ioc a b` are
the arcs from `a` to `b`; from a point to itself they go all the way round.  A set of points cuts
the circle into disjoint gaps, one before each of its points, and a new point splits the gap it
falls into and no other.
-/

namespace Lib

namespace Arc

variable {α : Type*} [LinearOrder α] {a : α} {s : Set α} {x : α}

/-- Clockwise strictly after `a` and strictly before `b`. -/
def Ioo (a b x : α) : Prop := if a < b then a < x ∧ x < b else a < x ∨ x < b

/-- Clockwise strictly after `a` and up to `b`. -/
def Ioc (a b x : α) : Prop := Ioo a b x ∨ x = b

instance (a b x : α) : Decidable (Ioo a b x) :=
  inferInstanceAs (Decidable (if a < b then a < x ∧ x < b else a < x ∨ x < b))

instance (a b x : α) : Decidable (Ioc a b x) :=
  inferInstanceAs (Decidable (Ioo a b x ∨ x = b))

theorem ioo_self : Ioo a a x ↔ x ≠ a := by
  unfold Ioo; grind

theorem ioc_self (a x : α) : Ioc a a x := by
  unfold Ioc Ioo; grind

theorem not_ioo_right (a b : α) : ¬ Ioo a b b := by
  unfold Ioo; grind

theorem not_ioo_left (a b : α) : ¬ Ioo a b a := by
  unfold Ioo; grind

/-- A point inside an arc splits it in two. -/
theorem ioc_split {b : α} (h : Ioo a b x) (y : α) : Ioc a b y ↔ Ioc a x y ∨ Ioc x b y := by
  unfold Ioc Ioo at *; grind

theorem not_ioc_both {b : α} (h : Ioo a b x) {y : α} (hl : Ioc a x y) : ¬ Ioc x b y := by
  unfold Ioc Ioo at *; grind

/-- Outside the arc from `a` up to `b`, `b` comes before the point. -/
theorem ioo_of_not_ioc {b : α} (h : ¬ Ioc a b x) : Ioo a x b := by
  unfold Ioc Ioo at *; grind

/-- Where an arc is split does not depend on where outside of it one starts to go round. -/
theorem ioc_from_outside {b p y : α} (hx : Ioo a b x) (hp : ¬ Ioo a b p) (hy : Ioc a b y) :
    (Ioc p x y → Ioc a x y) ∧ (¬ Ioc p x y → Ioc x b y) := by
  unfold Ioc Ioo at *; grind

/-- `p` and `n` are points of `s` with none of `s` between them, clockwise. -/
structure Gap (s : Set α) (p n : α) : Prop where
  left : p ∈ s
  right : n ∈ s
  empty : ∀ m ∈ s, ¬ Ioo p n m

namespace Gap

variable {s : Set α} {p q n m x : α}

theorem pred_unique (h : Gap s p n) (h' : Gap s q n) : p = q := by
  have h1 := h.empty q h'.left
  have h2 := h'.empty p h.left
  unfold Ioo at h1 h2
  grind

theorem succ_unique (h : Gap s p n) (h' : Gap s p m) : n = m := by
  have h1 := h.empty m h'.right
  have h2 := h'.empty n h.right
  unfold Ioo at h1 h2
  grind

/-- No point of the circle is in two gaps. -/
theorem eq_of_ioc (h : Gap s p n) (h' : Gap s q m) (hx : Ioc p n x) (hx' : Ioc q m x) : n = m := by
  have h1 := h.empty m h'.right
  have h2 := h'.empty n h.right
  have h3 := h.empty q h'.left
  have h4 := h'.empty p h.left
  unfold Ioc Ioo at *
  grind

theorem singleton (a : α) : Gap {a} a a where
  left := rfl
  right := rfl
  empty m hm := by
    rw [Set.mem_singleton_iff.1 hm]
    exact not_ioo_right a a

theorem insert_left (h : Gap s p n) (hx : Ioo p n x) : Gap (insert x s) p x where
  left := Set.mem_insert_of_mem x h.left
  right := Set.mem_insert x s
  empty m hm := by
    rcases hm with rfl | hm
    · exact not_ioo_right p m
    · have h1 := h.empty m hm
      unfold Ioo at *
      grind

theorem insert_right (h : Gap s p n) (hx : Ioo p n x) : Gap (insert x s) x n where
  left := Set.mem_insert x s
  right := Set.mem_insert_of_mem x h.right
  empty m hm := by
    rcases hm with rfl | hm
    · exact not_ioo_left m n
    · have h1 := h.empty m hm
      unfold Ioo at *
      grind

/-- A new point leaves the gaps it does not fall into as they are. -/
theorem insert_of_ne (h : Gap s p n) (hx : Ioo p n x) (h' : Gap s q m) (hne : m ≠ n) :
    Gap (insert x s) q m where
  left := Set.mem_insert_of_mem x h'.left
  right := Set.mem_insert_of_mem x h'.right
  empty y hy := by
    rcases hy with rfl | hy
    · intro hy'
      exact hne (h'.eq_of_ioc h (.inl hy') (.inl hx))
    · exact h'.empty y hy

/-- A new point next to `m` fell into the gap before it. -/
theorem ioo_of_insert (h : Gap s p m) (h' : Gap (insert x s) x m) (hx : x ∉ s) : Ioo p m x := by
  have h1 := h'.empty p (Set.mem_insert_of_mem x h.left)
  have hpx : p ≠ x := fun hpx => hx (hpx ▸ h.left)
  have hmx : m ≠ x := fun hmx => hx (hmx ▸ h.right)
  unfold Ioo at *
  grind

/-- Without a point, the gaps on its two sides are one. -/
theorem erase (h : Gap s p n) (h' : Gap s n m) (hne : m ≠ n) : Gap (s \ {n}) p m where
  left := by
    refine ⟨h.left, fun hpn => ?_⟩
    rw [Set.mem_singleton_iff.1 hpn] at h
    exact h.empty m h'.right (ioo_self.2 hne)
  right := ⟨h'.right, hne⟩
  empty y hy := by
    have h1 := h.empty y hy.1
    have h2 := h'.empty y hy.1
    have h3 : y ≠ n := hy.2
    unfold Ioo at *
    grind

theorem ioc_trans (h : Gap s p n) (h' : Gap s n m) (hne : m ≠ n) (hx : Ioc p n x) :
    Ioc p m x := by
  have h1 := h.empty m h'.right
  unfold Ioc Ioo at *
  grind

/-- Going round from a point `a` of the set, the next point is all that comes in. -/
theorem ioc_extend (h : Gap s p n) (ha : a ∈ s) (hm : m ∈ s) (hp : p ≠ a) :
    Ioc a n m ↔ Ioc a p m ∨ m = n := by
  have h1 := h.empty a ha
  have h2 := h.empty m hm
  unfold Ioc Ioo at *
  grind

theorem not_ioc_next (h : Gap s p n) (ha : a ∈ s) (hp : p ≠ a) : ¬ Ioc a p n := by
  have h1 := h.empty a ha
  unfold Ioc Ioo at *
  grind

end Gap

theorem exists_gap_of_mem (hs : s.Finite) {n : α} (hn : n ∈ s) : ∃ p, Gap s p n := by
  classical
  set S := hs.toFinset
  have hS : ∀ {a}, a ∈ S ↔ a ∈ s := by simp [S]
  -- the greatest point below `n`, or the greatest of all when `n` is the least
  rcases (S.filter (· < n)).eq_empty_or_nonempty with he | hne
  · have hne : S.Nonempty := ⟨n, hS.2 hn⟩
    refine ⟨S.max' hne, hS.1 (S.max'_mem hne), hn, fun m hm h => ?_⟩
    have h1 : m ≤ S.max' hne := S.le_max' m (hS.2 hm)
    have h2 : n ≤ S.max' hne := S.le_max' n (hS.2 hn)
    have h3 : ¬ m < n := fun hlt => by
      have : m ∈ S.filter (· < n) := Finset.mem_filter.2 ⟨hS.2 hm, hlt⟩
      simp [he] at this
    unfold Ioo at h
    grind
  · have hmem := Finset.mem_filter.1 ((S.filter (· < n)).max'_mem hne)
    refine ⟨(S.filter (· < n)).max' hne, hS.1 hmem.1, hn, fun m hm h => ?_⟩
    have h1 : m < n → m ≤ (S.filter (· < n)).max' hne := fun hlt =>
      (S.filter (· < n)).le_max' m (Finset.mem_filter.2 ⟨hS.2 hm, hlt⟩)
    have h2 := hmem.2
    unfold Ioo at h
    grind

/-- The gaps of a nonempty finite set cover the circle. -/
theorem exists_gap (hs : s.Finite) (hne : s.Nonempty) (x : α) : ∃ p n, Gap s p n ∧ Ioc p n x := by
  classical
  set S := hs.toFinset
  have hS : ∀ {a}, a ∈ S ↔ a ∈ s := by simp [S]
  -- the least point at or above `x`, or the least of all when there is none
  rcases (S.filter (x ≤ ·)).eq_empty_or_nonempty with he | hne'
  · have hne' : S.Nonempty := by simpa [S] using hne
    obtain ⟨p, hp⟩ := exists_gap_of_mem hs (hS.1 (S.min'_mem hne'))
    refine ⟨p, _, hp, ?_⟩
    have h1 : S.min' hne' ≤ p := S.min'_le p (hS.2 hp.left)
    have h2 : ¬ x ≤ p := fun hle => by
      have : p ∈ S.filter (x ≤ ·) := Finset.mem_filter.2 ⟨hS.2 hp.left, hle⟩
      simp [he] at this
    unfold Ioc Ioo
    grind
  · have hmem := Finset.mem_filter.1 ((S.filter (x ≤ ·)).min'_mem hne')
    obtain ⟨p, hp⟩ := exists_gap_of_mem hs (hS.1 hmem.1)
    refine ⟨p, _, hp, ?_⟩
    have h1 : x ≤ p → (S.filter (x ≤ ·)).min' hne' ≤ p := fun hle =>
      (S.filter (x ≤ ·)).min'_le p (Finset.mem_filter.2 ⟨hS.2 hp.left, hle⟩)
    have h2 := hmem.2
    have h3 := hp.empty _ hp.left
    unfold Ioc Ioo at *
    grind

end Arc

end Lib
