import Mathlib.Tactic.Common

/-!
# ASCII letters in lower case

`Char.toLower` changes the letters from `A` to `Z` and nothing else.
-/

namespace Lib

variable (c : Char)

theorem toLower_cases :
    c.toLower = c ∨ 65 ≤ c.toNat ∧ c.toNat ≤ 90 ∧ c.toLower.toNat = c.toNat + 32 := by
  unfold Char.toLower
  split_ifs with hc
  · have hle : (65 : UInt32) ≤ c.val ∧ c.val ≤ 90 := hc
    rw [UInt32.le_iff_toNat_le, UInt32.le_iff_toNat_le] at hle
    have hval : (c.val + 32).toNat = (c.val.toNat + 32) % 2 ^ 32 := UInt32.toNat_add _ _
    simp only [UInt32.reduceToNat] at hle
    refine .inr ⟨hle.1, hle.2, ?_⟩
    change (c.val + 32).toNat = c.val.toNat + 32
    omega
  · exact .inl rfl

/-- Nothing but itself becomes a character that is not a letter. -/
theorem toLower_eq_iff {c d : Char} (hd : d.toNat < 65 ∨ 90 < d.toNat ∧ d.toNat < 97) :
    c.toLower = d ↔ c = d := by
  rcases toLower_cases c with h | h
  · rw [h]
  · constructor
    · rintro rfl
      omega
    · rintro rfl
      omega

theorem toLower_toLower : c.toLower.toLower = c.toLower := by
  rcases toLower_cases c with h | h
  · rw [h, h]
  · rcases toLower_cases c.toLower with h' | h'
    · exact h'
    · omega

/-- A function that puts ASCII letters in lower case does not tell their cases apart. -/
theorem eq_of_toLower {toLower : Char → Char} (hlower : ∀ c, c.toNat < 128 → toLower c = c.toLower)
    {c d : Char} (h : c.toLower = d.toLower) : toLower c = toLower d := by
  have hsmall : ∀ {c : Char}, c.toLower.toNat < 128 → c.toNat < 128 := by
    intro c hc
    rcases toLower_cases c with h | h
    · rwa [h] at hc
    · omega
  by_cases hc : c.toLower.toNat < 128
  · rw [hlower c (hsmall hc), hlower d (hsmall (h ▸ hc)), h]
  · have hsame : ∀ {c : Char}, ¬c.toLower.toNat < 128 → c.toLower = c :=
      fun {c} hc => (toLower_cases c).resolve_right fun h => hc (by omega)
    have heq : c = d := by rw [← hsame hc, h, hsame (h ▸ hc)]
    rw [heq]

end Lib
