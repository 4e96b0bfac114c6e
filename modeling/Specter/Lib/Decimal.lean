import Mathlib.Data.Int.Notation
import Mathlib.Tactic.Common

/-!
# Numbers in texts

Numbers are written in decimal between separators.  A text can be taken apart again at the
separators, and a number is known by its digits.
-/

namespace Lib

theorem append_cons_inj {α : Type} {c : α} : ∀ {u u' v v' : List α}, c ∉ u → c ∉ u' →
    u ++ c :: v = u' ++ c :: v' → u = u' ∧ v = v'
  | [], [], _, _, _, _, h => ⟨rfl, (List.cons.inj h).2⟩
  | [], d :: _, _, _, _, hu', h => absurd (List.cons.inj h).1 (List.ne_of_not_mem_cons hu')
  | d :: _, [], _, _, hu, _, h => absurd (List.cons.inj h).1.symm (List.ne_of_not_mem_cons hu)
  | d :: u, d' :: u', v, v', hu, hu', h => by
    obtain ⟨rfl, htail⟩ := List.cons.inj h
    obtain ⟨rfl, rfl⟩ := append_cons_inj (List.not_mem_of_not_mem_cons hu)
      (List.not_mem_of_not_mem_cons hu') htail
    exact ⟨rfl, rfl⟩

theorem notMem_toString {c : Char} (hc : c.isDigit = false) (n : ℕ) : c ∉ (toString n).toList := by
  rw [Nat.toString_eq_ofList_toDigits, String.toList_ofList]
  intro h
  rw [Nat.isDigit_of_mem_toDigits (by omega) (by omega) h] at hc
  cases hc

theorem eq_of_toString {m n : ℕ} (h : (toString m).toList = (toString n).toList) : m = n := by
  simp only [Nat.toString_eq_ofList_toDigits, String.toList_ofList] at h
  rw [← Nat.ofDigitChars_ten_toDigits (n := m), h, Nat.ofDigitChars_ten_toDigits]

end Lib
