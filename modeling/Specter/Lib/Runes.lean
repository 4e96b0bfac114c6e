import Mathlib.Tactic.Common

/-!
# Strings as bytes and as runes

A string is any sequence of bytes.  A loop over it sees runes: a byte that does not start a valid
encoding is a rune of its own.  Tests that only characters below 128 pass can be read byte by byte.
-/

namespace Lib

variable (bs : ByteArray) {l : List Char} {a : ℕ}

/-- Each byte as the character of its number. -/
def chars (s : List UInt8) : List Char := s.map fun b => Char.ofNat b.toNat

theorem toList_loop (i : ℕ) (acc : List UInt8) :
    ByteArray.toList.loop bs i acc = acc.reverse ++ bs.data.toList.drop i := by
  fun_induction ByteArray.toList.loop bs i acc with
  | case1 i acc h ih =>
    have hi : i < bs.data.toList.length := h
    rw [ih, List.drop_eq_getElem_cons hi]
    simp [ByteArray.get!, h]
  | case2 i acc h =>
    have hi : bs.data.toList.length ≤ i := Nat.le_of_not_lt h
    rw [List.drop_eq_nil_of_le hi, List.append_nil]

theorem toList_eq : bs.toList = bs.data.toList := by
  rw [ByteArray.toList, toList_loop]
  rfl

theorem length_toUTF8 (s : String) : s.toUTF8.toList.length = s.utf8ByteSize := by
  rw [toList_eq]
  rfl

theorem toUTF8_injective {s t : String} (h : s.toUTF8.toList = t.toUTF8.toList) : s = t := by
  rw [toList_eq, toList_eq, Array.toList_inj] at h
  exact String.toByteArray_inj.1 (ByteArray.ext h)

theorem toUTF8_append (s t : String) :
    (s ++ t).toUTF8.toList = s.toUTF8.toList ++ t.toUTF8.toList := by
  simp [toList_eq]

/-- The bytes of a text of characters below 128 are their numbers. -/
theorem toUTF8_ofList (h : ∀ c ∈ l, c.toNat < 128) :
    (String.ofList l).toUTF8.toList = l.map fun c => UInt8.ofNat c.toNat := by
  have hbytes : (String.ofList l).toUTF8.toList = l.flatMap String.utf8EncodeChar := by
    simp [toList_eq, String.ofList, List.utf8Encode]
  rw [hbytes]
  clear hbytes
  induction l with
  | nil => rfl
  | cons c l ih =>
    rw [List.forall_mem_cons] at h
    have hc : c.val.toNat ≤ 127 := Nat.le_of_lt_succ h.1
    rw [List.flatMap_cons, List.map_cons, ih h.2, String.utf8EncodeChar, if_pos hc]
    rfl

theorem toNat_ofNat_byte (b : UInt8) : (Char.ofNat b.toNat).toNat = b.toNat := by
  have hvalid : b.toNat.isValidChar := .inl (Nat.lt_trans b.toNat_lt (by decide))
  rw [Char.ofNat, dif_pos hvalid]
  rfl

theorem chars_injective {s t : List UInt8} (h : chars s = chars t) : s = t := by
  refine (List.map_inj_right fun a b hab => ?_).1 h
  have hnat := congrArg Char.toNat hab
  rw [toNat_ofNat_byte, toNat_ofNat_byte] at hnat
  exact UInt8.toNat_inj.1 hnat

theorem chars_toUTF8 (h : ∀ c ∈ l, c.toNat < 128) : chars (String.ofList l).toUTF8.toList = l := by
  rw [toUTF8_ofList h, chars, List.map_map]
  conv_rhs => rw [← List.map_id l]
  refine List.map_congr_left fun c hc => ?_
  have hbyte : (UInt8.ofNat c.toNat).toNat = c.toNat := by
    rw [UInt8.toNat_ofNat', Nat.mod_eq_of_lt (Nat.lt_trans (h c hc) (by decide))]
  rw [Function.comp_apply, hbyte, Char.ofNat_toNat]
  rfl

def runeError : ℕ := 0xfffd

/-- A byte inside an encoding adds six bits. -/
def addBits (n b : ℕ) : ℕ := n * 64 + b % 64

def Continues (b : ℕ) : Prop := 0x80 ≤ b ∧ b ≤ 0xbf

instance (b : ℕ) : Decidable (Continues b) := inferInstanceAs (Decidable (_ ∧ _))

/-- The rune at the start of a string, and how many bytes it takes. -/
def decodeRune : List ℕ → ℕ × ℕ
  | [] => (runeError, 0)
  | a :: rest =>
    if a < 0x80 then (a, 1)
    else if 0xc2 ≤ a ∧ a ≤ 0xdf then
      match rest with
      | b :: _ => if Continues b then (addBits (a % 32) b, 2) else (runeError, 1)
      | _ => (runeError, 1)
    else if 0xe0 ≤ a ∧ a ≤ 0xef then
      match rest with
      | b :: c :: _ =>
        if Continues b ∧ Continues c ∧ (a = 0xe0 → 0xa0 ≤ b) ∧ (a = 0xed → b ≤ 0x9f) then
          (addBits (addBits (a % 16) b) c, 3)
        else (runeError, 1)
      | _ => (runeError, 1)
    else if 0xf0 ≤ a ∧ a ≤ 0xf4 then
      match rest with
      | b :: c :: d :: _ =>
        if Continues b ∧ Continues c ∧ Continues d ∧ (a = 0xf0 → 0x90 ≤ b) ∧
            (a = 0xf4 → b ≤ 0x8f) then
          (addBits (addBits (addBits (a % 8) b) c) d, 4)
        else (runeError, 1)
      | _ => (runeError, 1)
    else (runeError, 1)

/-- The runes a loop over a string sees; `n` bounds their number. -/
def runesFrom : ℕ → List ℕ → List ℕ
  | 0, _ | _, [] => []
  | n + 1, s => (decodeRune s).1 :: runesFrom n (s.drop (decodeRune s).2)

def runes (s : List UInt8) : List ℕ := runesFrom s.length (s.map UInt8.toNat)

theorem decodeRune_low (h : a < 0x80) (rest : List ℕ) : decodeRune (a :: rest) = (a, 1) :=
  if_pos h

theorem decodeRune_high (h : ¬ a < 0x80) (rest : List ℕ) : 128 ≤ (decodeRune (a :: rest)).1 := by
  have herr : 128 ≤ runeError := by decide
  simp only [decodeRune, if_neg h]
  repeat' split
  all_goals try exact herr
  all_goals
    simp only [Continues, addBits] at *
    omega

theorem all_runesFrom {p : ℕ → Bool} (hp : ∀ r, p r → r < 128) :
    ∀ (n : ℕ) (s : List ℕ), s.length ≤ n → (runesFrom n s).all p = s.all p
  | 0, [], _ => rfl
  | _ + 1, [], _ => rfl
  | n + 1, a :: s, hn => by
    rw [runesFrom, List.all_cons, List.all_cons]
    by_cases ha : a < 0x80
    · rw [decodeRune_low ha, List.drop_one, List.tail_cons,
        all_runesFrom hp n s (Nat.le_of_succ_le_succ hn)]
    · -- neither the byte nor the rune it starts passes the test
      have hrune := decodeRune_high ha s
      have hr : p (decodeRune (a :: s)).1 = false := by
        rw [← Bool.not_eq_true]
        exact fun h => absurd (hp _ h) (by omega)
      have hb : p a = false := by
        rw [← Bool.not_eq_true]
        exact fun h => absurd (hp _ h) (by omega)
      rw [hr, hb, Bool.false_and, Bool.false_and]
    · simp

/-- A test that only runes below 128 pass is a test of the bytes. -/
theorem all_runes {p : ℕ → Bool} (hp : ∀ r, p r → r < 128) (s : List UInt8) :
    (runes s).all p = s.all fun b => p b.toNat := by
  rw [runes, all_runesFrom hp _ _ (by simp), List.all_map]
  rfl

end Lib
