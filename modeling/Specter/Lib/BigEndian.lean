import Mathlib.Tactic.Common
import Mathlib.Tactic.Ring

/-!
# Byte strings as numbers

Numbers with their most significant byte first.  Byte strings of the same length are ordered byte by
byte as the numbers they stand for.
-/

namespace BigEndian

variable (bs : List UInt8)

/-- The number a byte string stands for. -/
def ofBytes : List UInt8 → ℕ
  | [] => 0
  | b :: bs => b.toNat * 256 ^ bs.length + ofBytes bs

/-- The last `w` bytes of a number. -/
def toBytes : ℕ → ℕ → List UInt8
  | 0, _ => []
  | w + 1, n => UInt8.ofNat (n / 256 ^ w) :: toBytes w n

/-- Byte by byte; a string comes before its continuations. -/
def compareBytes : List UInt8 → List UInt8 → Ordering
  | [], [] => .eq
  | [], _ :: _ => .lt
  | _ :: _, [] => .gt
  | x :: xs, y :: ys => (compare x.toNat y.toNat).then (compareBytes xs ys)

theorem ofBytes_lt : ofBytes bs < 256 ^ bs.length := by
  induction bs with
  | nil => simp [ofBytes]
  | cons b bs ih =>
    have hb := b.toNat_lt
    have hle : b.toNat * 256 ^ bs.length + 256 ^ bs.length ≤ 256 * 256 ^ bs.length := by
      rw [← Nat.succ_mul]
      exact Nat.mul_le_mul_right _ (by omega)
    rw [ofBytes, List.length_cons, Nat.pow_succ, Nat.mul_comm (256 ^ bs.length)]
    omega

theorem ofBytes_append (xs ys : List UInt8) :
    ofBytes (xs ++ ys) = ofBytes xs * 256 ^ ys.length + ofBytes ys := by
  induction xs with
  | nil => simp [ofBytes]
  | cons x xs ih =>
    rw [List.cons_append, ofBytes, ofBytes, ih, List.length_append, Nat.pow_add]
    ring

@[simp] theorem length_toBytes (w n : ℕ) : (toBytes w n).length = w := by
  induction w with
  | zero => rfl
  | succ w ih => simp [toBytes, ih]

theorem ofBytes_toBytes (w n : ℕ) : ofBytes (toBytes w n) = n % 256 ^ w := by
  induction w with
  | zero => simp [toBytes, ofBytes, Nat.mod_one]
  | succ w ih =>
    rw [toBytes, ofBytes, ih, length_toBytes, Nat.pow_succ, Nat.mod_mul, UInt8.toNat_ofNat']
    ring

theorem compare_mul_add {a b m x y : ℕ} (hx : x < m) (hy : y < m) :
    compare (a * m + x) (b * m + y) = (compare a b).then (compare x y) := by
  rcases Nat.lt_trichotomy a b with h | rfl | h
  · have hlt : a * m + x < b * m + y := by
      have := Nat.mul_le_mul_right m (Nat.succ_le_of_lt h)
      rw [Nat.succ_mul] at this
      omega
    rw [Nat.compare_eq_lt.2 hlt, Nat.compare_eq_lt.2 h]
    rfl
  · have hadd : compare (a * m + x) (a * m + y) = compare x y := by
      rcases Nat.lt_trichotomy x y with h | rfl | h
      · rw [Nat.compare_eq_lt.2 h, Nat.compare_eq_lt.2 (by omega)]
      · rw [Nat.compare_eq_eq.2 rfl, Nat.compare_eq_eq.2 rfl]
      · rw [Nat.compare_eq_gt.2 h, Nat.compare_eq_gt.2 (by omega)]
    rw [hadd, Nat.compare_eq_eq.2 rfl]
    rfl
  · have hlt : b * m + y < a * m + x := by
      have := Nat.mul_le_mul_right m (Nat.succ_le_of_lt h)
      rw [Nat.succ_mul] at this
      omega
    rw [Nat.compare_eq_gt.2 hlt, Nat.compare_eq_gt.2 h]
    rfl

/-- Strings of the same length are ordered as numbers. -/
theorem compareBytes_eq {xs ys : List UInt8} (h : xs.length = ys.length) :
    compareBytes xs ys = compare (ofBytes xs) (ofBytes ys) := by
  induction xs generalizing ys with
  | nil =>
    cases ys with
    | nil => rfl
    | cons y ys => simp at h
  | cons x xs ih =>
    cases ys with
    | nil => simp at h
    | cons y ys =>
      have hlen : xs.length = ys.length := by simpa using h
      have hy := ofBytes_lt ys
      rw [← hlen] at hy
      rw [compareBytes, ih hlen, ofBytes, ofBytes, ← hlen, compare_mul_add (ofBytes_lt xs) hy]

theorem ofBytes_injective {xs ys : List UInt8} (hlen : xs.length = ys.length)
    (h : ofBytes xs = ofBytes ys) : xs = ys := by
  induction xs generalizing ys with
  | nil =>
    cases ys with
    | nil => rfl
    | cons y ys => simp at hlen
  | cons x xs ih =>
    cases ys with
    | nil => simp at hlen
    | cons y ys =>
      have hlen : xs.length = ys.length := by simpa using hlen
      have hxs := ofBytes_lt xs
      have hys := ofBytes_lt ys
      rw [ofBytes, ofBytes, ← hlen] at h
      rw [← hlen] at hys
      have hcmp := compare_mul_add (a := x.toNat) (b := y.toNat) hxs hys
      rw [h, Nat.compare_eq_eq.2 rfl, eq_comm, Ordering.then_eq_eq] at hcmp
      rw [UInt8.toNat_inj.1 (Nat.compare_eq_eq.1 hcmp.1),
        ih hlen (Nat.compare_eq_eq.1 hcmp.2)]

theorem toBytes_ofBytes : toBytes bs.length (ofBytes bs) = bs := by
  refine ofBytes_injective (length_toBytes _ _) ?_
  rw [ofBytes_toBytes, Nat.mod_eq_of_lt (ofBytes_lt bs)]

end BigEndian
