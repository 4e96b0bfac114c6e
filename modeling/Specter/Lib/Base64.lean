import Mathlib.Data.List.Nodup
import Mathlib.Tactic.Common

/-!
# Base64

The unpadded encoding with the alphabet for URLs: three bytes are four characters, and one or two
bytes at the end two or three.  The standard encoding differs in two characters and is padded.
-/

namespace Base64

variable {n : ℕ} (xs : List UInt8) {text l : List Char} {c : Char}

def alphabet : List Char :=
  "ABCDEFGHIJKLMNOPQRSTUVWXYZabcdefghijklmnopqrstuvwxyz0123456789-_".toList

/-- The character of six bits. -/
def digit (n : ℕ) : Char := alphabet.getD n 'A'

def encode : List UInt8 → List Char
  | a :: b :: c :: rest =>
    digit (a.toNat / 4) :: digit (a.toNat % 4 * 16 + b.toNat / 16) ::
      digit (b.toNat % 16 * 4 + c.toNat / 64) :: digit (c.toNat % 64) :: encode rest
  | [a, b] =>
    [digit (a.toNat / 4), digit (a.toNat % 4 * 16 + b.toNat / 16), digit (b.toNat % 16 * 4)]
  | [a] => [digit (a.toNat / 4), digit (a.toNat % 4 * 16)]
  | [] => []

/-- The six bits of a character. -/
def value (c : Char) : Option ℕ := alphabet.idxOf? c

/-- The bits after the last byte are not looked at. -/
def decode : List Char → Option (List UInt8)
  | a :: b :: c :: d :: rest => do
    let a ← value a
    let b ← value b
    let c ← value c
    let d ← value d
    let bytes ← decode rest
    return .ofNat (a * 4 + b / 16) :: .ofNat (b % 16 * 16 + c / 4) :: .ofNat (c % 4 * 64 + d) ::
      bytes
  | [a, b, c] => do
    let a ← value a
    let b ← value b
    let c ← value c
    return [.ofNat (a * 4 + b / 16), .ofNat (b % 16 * 16 + c / 4)]
  | [a, b] => do
    let a ← value a
    let b ← value b
    return [.ofNat (a * 4 + b / 16)]
  | [_] => none
  | [] => some []

/-- The kernel is slow at reading the characters of a string. -/
theorem alphabet_eq : alphabet =
    ['A', 'B', 'C', 'D', 'E', 'F', 'G', 'H', 'I', 'J', 'K', 'L', 'M', 'N', 'O', 'P',
      'Q', 'R', 'S', 'T', 'U', 'V', 'W', 'X', 'Y', 'Z', 'a', 'b', 'c', 'd', 'e', 'f',
      'g', 'h', 'i', 'j', 'k', 'l', 'm', 'n', 'o', 'p', 'q', 'r', 's', 't', 'u', 'v',
      'w', 'x', 'y', 'z', '0', '1', '2', '3', '4', '5', '6', '7', '8', '9', '-', '_'] :=
  String.toList_ofList

theorem length_alphabet : alphabet.length = 64 := by
  rw [alphabet_eq]
  rfl

theorem nodup_alphabet : alphabet.Nodup := by
  refine .of_map Char.toNat ?_
  rw [alphabet_eq]
  decide

theorem value_digit (n : ℕ) (h : n < 64) : value (digit n) = some n := by
  have hn : n < alphabet.length := length_alphabet ▸ h
  rw [value, digit, List.getD_eq_getElem?_getD, List.getElem?_eq_getElem hn, Option.getD_some,
    List.idxOf?_eq_some_iff]
  exact ⟨hn, rfl, fun j hj heq => Nat.ne_of_lt hj (nodup_alphabet.getElem_inj_iff.1 heq)⟩

theorem ofNat_eq {a : UInt8} (h : n = a.toNat) : UInt8.ofNat n = a := by
  rw [h, UInt8.ofNat_toNat]

theorem decode_encode : ∀ xs : List UInt8, decode (encode xs) = some xs
  | a :: b :: c :: rest => by
    have := a.toNat_lt
    have := b.toNat_lt
    have := c.toNat_lt
    simp only [encode, decode, decode_encode rest, Option.bind_eq_bind, Option.pure_def]
    rw [value_digit _ (by omega), value_digit _ (by omega), value_digit _ (by omega),
      value_digit _ (by omega)]
    simp only [Option.bind_some, Option.some.injEq, List.cons.injEq, and_true]
    exact ⟨ofNat_eq (by omega), ofNat_eq (by omega), ofNat_eq (by omega)⟩
  | [a, b] => by
    have := a.toNat_lt
    have := b.toNat_lt
    simp only [encode, decode, Option.bind_eq_bind, Option.pure_def]
    rw [value_digit _ (by omega), value_digit _ (by omega), value_digit _ (by omega)]
    simp only [Option.bind_some, Option.some.injEq, List.cons.injEq, and_true]
    exact ⟨ofNat_eq (by omega), ofNat_eq (by omega)⟩
  | [a] => by
    have := a.toNat_lt
    simp only [encode, decode, Option.bind_eq_bind, Option.pure_def]
    rw [value_digit _ (by omega), value_digit _ (by omega)]
    simp only [Option.bind_some, Option.some.injEq, List.cons.injEq, and_true]
    exact ofNat_eq (by omega)
  | [] => rfl

theorem encode_injective {xs ys : List UInt8} (h : encode xs = encode ys) : xs = ys := by
  rw [← Option.some.injEq, ← decode_encode, ← decode_encode, h]

theorem digit_mem (n : ℕ) : digit n ∈ alphabet := by
  unfold digit
  rw [List.getD_eq_getElem?_getD]
  rcases h : alphabet[n]? with _ | c
  · rw [alphabet_eq]
    exact List.mem_cons_self
  · exact List.mem_of_getElem? h

theorem mem_alphabet_of_mem_encode : ∀ {xs : List UInt8} {c : Char}, c ∈ encode xs → c ∈ alphabet
  | _ :: _ :: _ :: _, c, h => by
    simp only [encode, List.mem_cons] at h
    rcases h with rfl | rfl | rfl | rfl | h
    · exact digit_mem _
    · exact digit_mem _
    · exact digit_mem _
    · exact digit_mem _
    · exact mem_alphabet_of_mem_encode h
  | [_, _], c, h => by
    simp only [encode, List.mem_cons, List.not_mem_nil, or_false] at h
    rcases h with rfl | rfl | rfl <;> exact digit_mem _
  | [_], c, h => by
    simp only [encode, List.mem_cons, List.not_mem_nil, or_false] at h
    rcases h with rfl | rfl <;> exact digit_mem _

theorem length_encode : ∀ xs : List UInt8, (encode xs).length = (xs.length * 4 + 2) / 3
  | _ :: _ :: _ :: rest => by
    simp only [encode, List.length_cons, length_encode rest]
    omega
  | [_, _] => by simp [encode]
  | [_] => by simp [encode]
  | [] => rfl

/-- Line breaks are ignored. -/
def lines (text : List Char) : List Char := text.filter fun c => c ≠ '\r' ∧ c ≠ '\n'

def decodeRaw (text : List Char) : Option (List UInt8) := decode (lines text)

theorem forall_alphabet {p : Char → Prop} [DecidablePred p]
    (h : alphabet.all (fun c => decide (p c)) = true) : ∀ c ∈ alphabet, p c :=
  fun c hc => of_decide_eq_true (List.all_eq_true.1 h c hc)

theorem plain_alphabet : ∀ c ∈ alphabet, c ≠ '\r' ∧ c ≠ '\n' ∧ c ≠ '.' ∧ c.toNat < 128 := by
  apply forall_alphabet
  rw [alphabet_eq]
  decide

theorem encode_low : ∀ c ∈ encode xs, c.toNat < 128 :=
  fun c hc => (plain_alphabet c (mem_alphabet_of_mem_encode hc)).2.2.2

theorem lines_encode : lines (encode xs) = encode xs := by
  rw [lines, List.filter_eq_self]
  intro c hc
  have hplain := plain_alphabet c (mem_alphabet_of_mem_encode hc)
  simp [hplain.1, hplain.2.1]

theorem decodeRaw_encode : decodeRaw (encode xs) = some xs := by
  rw [decodeRaw, lines_encode, decode_encode]

/-- The bits after the last byte are zero. -/
def zeroTail : List Char → Bool
  | _ :: _ :: _ :: _ :: rest => zeroTail rest
  | [_, _, c] => (value c).all (· % 4 == 0)
  | [_, b] => (value b).all (· % 16 == 0)
  | _ => true

/-- Line breaks are ignored here as well. -/
def decodeStrict (text : List Char) : Option (List UInt8) :=
  if zeroTail (lines text) then decode (lines text) else none

theorem value_eq (h : value c = some n) : n < 64 ∧ digit n = c := by
  obtain ⟨hn, hc, -⟩ := List.idxOf?_eq_some_iff.1 h
  refine ⟨length_alphabet ▸ hn, ?_⟩
  rw [digit, List.getD_eq_getElem?_getD, List.getElem?_eq_getElem hn, hc]
  rfl

theorem digit_eq {m : ℕ} (h : value c = some n) (hm : m = n) : digit m = c := by
  rw [hm, (value_eq h).2]

theorem toNat_ofNat (h : n < 256) : (UInt8.ofNat n).toNat = n := by
  rw [UInt8.toNat_ofNat', Nat.mod_eq_of_lt h]

/-- A text that is decoded strictly is the encoding of what it is decoded to. -/
theorem encode_of_decode : ∀ {text : List Char} {xs : List UInt8}, decode text = some xs →
    zeroTail text → encode xs = text
  | a :: b :: c :: d :: rest, xs, h, hz => by
    simp only [decode, Option.bind_eq_bind, Option.bind_eq_some_iff, Option.pure_def,
      Option.some.injEq] at h
    obtain ⟨m, hm, n, hn, k, hk, l, hl, ys, hys, rfl⟩ := h
    have := (value_eq hm).1
    have := (value_eq hn).1
    have := (value_eq hk).1
    have := (value_eq hl).1
    rw [encode, toNat_ofNat (by omega), toNat_ofNat (by omega), toNat_ofNat (by omega),
      encode_of_decode hys hz, digit_eq hm (by omega), digit_eq hn (by omega),
      digit_eq hk (by omega), digit_eq hl (by omega)]
  | [a, b, c], xs, h, hz => by
    simp only [decode, Option.bind_eq_bind, Option.bind_eq_some_iff, Option.pure_def,
      Option.some.injEq] at h
    obtain ⟨m, hm, n, hn, k, hk, rfl⟩ := h
    have := (value_eq hm).1
    have := (value_eq hn).1
    have := (value_eq hk).1
    have : k % 4 = 0 := by simpa [zeroTail, hk] using hz
    rw [encode, toNat_ofNat (by omega), toNat_ofNat (by omega), digit_eq hm (by omega),
      digit_eq hn (by omega), digit_eq hk (by omega)]
  | [a, b], xs, h, hz => by
    simp only [decode, Option.bind_eq_bind, Option.bind_eq_some_iff, Option.pure_def,
      Option.some.injEq] at h
    obtain ⟨m, hm, n, hn, rfl⟩ := h
    have := (value_eq hm).1
    have := (value_eq hn).1
    have : n % 16 = 0 := by simpa [zeroTail, hn] using hz
    rw [encode, toNat_ofNat (by omega), digit_eq hm (by omega), digit_eq hn (by omega)]
  | [], xs, h, _ => by
    cases h
    rfl

theorem zeroTail_encode : ∀ xs : List UInt8, zeroTail (encode xs)
  | _ :: _ :: _ :: rest => zeroTail_encode rest
  | [a, b] => by
    rw [encode, zeroTail, value_digit _ (by omega)]
    simp
  | [a] => by
    rw [encode, zeroTail, value_digit _ (by omega)]
    simp
  | [] => rfl

theorem decodeStrict_eq_some {xs : List UInt8} :
    decodeStrict text = some xs ↔ lines text = encode xs := by
  unfold decodeStrict
  constructor
  · intro h
    split_ifs at h with hz
    exact (encode_of_decode h hz).symm
  · intro h
    rw [h, if_pos (zeroTail_encode xs), decode_encode]

theorem decodeStrict_encode : decodeStrict (encode xs) = some xs :=
  decodeStrict_eq_some.2 (lines_encode xs)

/-- A text as long as the encoding has no line breaks. -/
theorem eq_encode_of_decodeStrict {xs : List UInt8} (h : decodeStrict text = some xs)
    (hlen : text.length = (encode xs).length) : text = encode xs := by
  rw [decodeStrict_eq_some, lines] at h
  rw [← h, eq_comm, List.filter_eq_self, ← List.length_filter_eq_length_iff, h, hlen]

def toStd (c : Char) : Char := if c = '-' then '+' else if c = '_' then '/' else c

def ofStd (c : Char) : Option Char :=
  if c = '+' then some '-'
  else if c = '/' then some '_'
  else if c = '-' ∨ c = '_' then none
  else some c

def encodeStd (xs : List UInt8) : List Char :=
  (encode xs).map toStd ++ List.replicate ((3 - xs.length % 3) % 3) '='

/-- The text without its padding. -/
def unpad (cs : List Char) : List Char :=
  match cs.reverse with
  | '=' :: '=' :: r => r.reverse
  | '=' :: r => r.reverse
  | r => r.reverse

/-- Line breaks are ignored, the padding is not. -/
def decodeStd (text : List Char) : Option (List UInt8) :=
  let cs := text.filter fun c => c ≠ '\r' ∧ c ≠ '\n'
  if cs.length % 4 ≠ 0 then none else ((unpad cs).mapM ofStd).bind decode

theorem ofStd_toStd : ∀ c ∈ alphabet, ofStd (toStd c) = some c := by
  apply forall_alphabet
  rw [alphabet_eq]
  decide

theorem toStd_plain : ∀ c ∈ alphabet, toStd c ≠ '=' ∧ toStd c ≠ '\r' ∧ toStd c ≠ '\n' := by
  apply forall_alphabet
  rw [alphabet_eq]
  decide

theorem mapM_ofStd (h : ∀ c ∈ l, c ∈ alphabet) : (l.map toStd).mapM ofStd = some l := by
  induction l with
  | nil => rfl
  | cons c l ih =>
    rw [List.forall_mem_cons] at h
    rw [List.map_cons, List.mapM_cons, ofStd_toStd c h.1, ih h.2]
    rfl

theorem unpad_padded (h : ∀ c ∈ l, c ≠ '=') {k : ℕ} (hk : k ≤ 2) :
    unpad (l ++ List.replicate k '=') = l := by
  have hl : ∀ c ∈ l.reverse, c ≠ '=' := fun c hc => h c (List.mem_reverse.1 hc)
  have hplain : ∀ r : List Char, (∀ c ∈ r, c ≠ '=') → ∀ r', r ≠ '=' :: r' := by
    rintro r hr r' rfl
    exact hr '=' List.mem_cons_self rfl
  unfold unpad
  rw [List.reverse_append, List.reverse_replicate]
  match k, hk with
  | 0, _ =>
    rw [List.replicate_zero, List.nil_append]
    split
    · rename_i heq
      exact absurd heq (hplain _ hl _)
    · rename_i heq
      exact absurd heq (hplain _ hl _)
    · exact List.reverse_reverse l
  | 1, _ =>
    rw [List.replicate_one, List.singleton_append]
    split
    · rename_i heq
      rw [List.cons.injEq] at heq
      exact absurd heq.2 (hplain _ hl _)
    · rename_i heq
      rw [List.cons.injEq] at heq
      rw [← heq.2, List.reverse_reverse]
    · rename_i h2
      exact absurd rfl (h2 _)
  | 2, _ => exact List.reverse_reverse l

theorem decodeStd_encodeStd : decodeStd (encodeStd xs) = some xs := by
  have hmem : ∀ c ∈ encode xs, c ∈ alphabet := fun c hc => mem_alphabet_of_mem_encode hc
  have hplain : ∀ c ∈ (encode xs).map toStd, c ≠ '=' ∧ c ≠ '\r' ∧ c ≠ '\n' := by
    intro c hc
    obtain ⟨d, hd, rfl⟩ := List.mem_map.1 hc
    exact toStd_plain d (hmem d hd)
  have hfilter : (encodeStd xs).filter (fun c => c ≠ '\r' ∧ c ≠ '\n') = encodeStd xs := by
    rw [List.filter_eq_self]
    intro c hc
    rw [encodeStd, List.mem_append, List.mem_replicate] at hc
    rcases hc with hc | ⟨-, rfl⟩
    · simpa using (hplain c hc).2
    · decide
  have hlen : (encodeStd xs).length % 4 = 0 := by
    rw [encodeStd, List.length_append, List.length_map, List.length_replicate, length_encode]
    have h : xs.length % 3 = 0 ∨ xs.length % 3 = 1 ∨ xs.length % 3 = 2 := by omega
    rcases h with h | h | h <;> rw [h] <;> omega
  simp only [decodeStd, hfilter, hlen, ne_eq, not_true_eq_false, if_false]
  rw [encodeStd, unpad_padded (fun c hc => (hplain c hc).1) (by omega), mapM_ofStd hmem]
  exact decode_encode xs

end Base64
