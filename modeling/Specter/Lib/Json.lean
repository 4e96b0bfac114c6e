import Mathlib.Data.List.TakeWhile
import Mathlib.Tactic.Common

/-!
# JSON texts

Values, how they are written without blanks, and how a text is read.  What is written is read back
(`parse_print`).  An object keeps its members in order, repeated names included.
-/

namespace Json

def isDigit (c : Char) : Bool := '0' ≤ c && c ≤ '9'

/-- The characters of numbers. -/
def isNumeric (c : Char) : Bool :=
  isDigit c || c == '+' || c == '-' || c == '.' || c == 'e' || c == 'E'

def isExponent : List Char → Bool
  | [] => true
  | e :: cs =>
    (e == 'e' || e == 'E') &&
      match cs with
      | [] => false
      | s :: ds => if s == '+' || s == '-' then ds != [] && ds.all isDigit else cs.all isDigit

def isFraction : List Char → Bool
  | '.' :: c :: cs => isDigit c && isExponent (cs.dropWhile isDigit)
  | cs => isExponent cs

/-- The grammar of numbers: no leading zeros, an optional fraction and exponent. -/
def isNumber (cs : List Char) : Bool :=
  match if cs.head? = some '-' then cs.tail else cs with
  | [] => false
  | '0' :: cs => isFraction cs
  | c :: cs => isDigit c && isFraction (cs.dropWhile isDigit)

/-- The text of a number. -/
structure Number where
  text : List Char
  numeric : text.all isNumeric
  grammar : isNumber text
  deriving DecidableEq

inductive Value where
  | null
  | bool (b : Bool)
  | num (n : Number)
  | str (s : List Char)
  | arr (xs : List Value)
  | obj (ms : List (List Char × Value))

variable (n : Number) {c : Char} (fuel : ℕ) (x : Value) (cs : List Char) {rest : List Char}

def hexDigit (n : ℕ) : Char := "0123456789abcdef".toList.getD n '0'

/-- `\u` and four digits. -/
def unicodeEscape (c : Char) : List Char :=
  let n := c.toNat
  ['\\', 'u', hexDigit (n / 4096 % 16), hexDigit (n / 256 % 16), hexDigit (n / 16 % 16),
    hexDigit (n % 16)]

/-- The characters written as `\u` escapes. -/
def needsUnicode (c : Char) : Bool :=
  c.toNat < 0x20 || c == '<' || c == '>' || c == '&' || c.toNat == 0x2028 || c.toNat == 0x2029

/-- The characters with an escape of their own, and its letter. -/
def shortEscape (c : Char) : Option Char :=
  if c = '"' then some '"'
  else if c = '\\' then some '\\'
  else if c.toNat = 8 then some 'b'
  else if c.toNat = 12 then some 'f'
  else if c = '\n' then some 'n'
  else if c = '\r' then some 'r'
  else if c = '\t' then some 't'
  else none

def escape (c : Char) : List Char :=
  match shortEscape c with
  | some l => ['\\', l]
  | none => if needsUnicode c then unicodeEscape c else [c]

def printStr (s : List Char) : List Char := '"' :: (s.flatMap escape ++ ['"'])

mutual

def print : Value → List Char
  | .null => "null".toList
  | .bool true => "true".toList
  | .bool false => "false".toList
  | .num n => n.text
  | .str s => printStr s
  | .arr xs => '[' :: (printElements xs ++ [']'])
  | .obj ms => '\x7b' :: (printMembers ms ++ ['\x7d'])

/-- The elements of an array, with commas between them. -/
def printElements : List Value → List Char
  | [] => []
  | [x] => print x
  | x :: y :: rest => print x ++ ',' :: printElements (y :: rest)

def printMembers : List (List Char × Value) → List Char
  | [] => []
  | [(k, x)] => printStr k ++ ':' :: print x
  | (k, x) :: y :: rest => printStr k ++ ':' :: (print x ++ ',' :: printMembers (y :: rest))

end

def isBlank (c : Char) : Bool := c == ' ' || c == '\t' || c == '\n' || c == '\r'

def skip (cs : List Char) : List Char := cs.dropWhile isBlank

def hexValue (c : Char) : Option ℕ :=
  if '0' ≤ c && c ≤ '9' then some (c.toNat - '0'.toNat)
  else if 'a' ≤ c && c ≤ 'f' then some (c.toNat - 'a'.toNat + 10)
  else if 'A' ≤ c && c ≤ 'F' then some (c.toNat - 'A'.toNat + 10)
  else none

def hexValues (a b c d : Char) : Option ℕ := do
  let a ← hexValue a
  let b ← hexValue b
  let c ← hexValue c
  let d ← hexValue d
  return a * 4096 + b * 256 + c * 16 + d

/-- The character of a one-letter escape. -/
def unescape : Char → Option Char
  | '"' => some '"'
  | '\\' => some '\\'
  | '/' => some '/'
  | 'b' => some (.ofNat 8)
  | 'f' => some (.ofNat 12)
  | 'n' => some '\n'
  | 'r' => some '\r'
  | 't' => some '\t'
  | _ => none

/-- The pieces of a string up to its closing quote, each a character or the 16 bits of a `\u`
escape, and what follows. -/
def readPieces : List Char → Option (List (Char ⊕ ℕ) × List Char)
  | [] => none
  | '"' :: cs => some ([], cs)
  | '\\' :: 'u' :: a :: b :: c :: d :: cs => do
    let n ← hexValues a b c d
    let (ps, rest) ← readPieces cs
    return (.inr n :: ps, rest)
  | '\\' :: l :: cs => do
    let c ← unescape l
    let (ps, rest) ← readPieces cs
    return (.inl c :: ps, rest)
  | c :: cs =>
    if c.toNat < 0x20 || c == '\\' then none
    else do
      let (ps, rest) ← readPieces cs
      return (.inl c :: ps, rest)

def isHigh (n : ℕ) : Bool := 0xd800 ≤ n && n < 0xdc00

def isLow (n : ℕ) : Bool := 0xdc00 ≤ n && n < 0xe000

/-- 16 bits as a character; half of a pair is replaced. -/
def loneUnit (n : ℕ) : Char := if isHigh n || isLow n then .ofNat 0xfffd else .ofNat n

/-- The characters of the pieces, two halves of a pair taken together. -/
def joinPieces : List (Char ⊕ ℕ) → List Char
  | [] => []
  | .inl c :: ps => c :: joinPieces ps
  | .inr h :: .inr l :: ps =>
    if isHigh h && isLow l then
      .ofNat ((h - 0xd800) * 1024 + (l - 0xdc00) + 0x10000) :: joinPieces ps
    else loneUnit h :: joinPieces (.inr l :: ps)
  | .inr n :: ps => loneUnit n :: joinPieces ps

/-- A string after its opening quote. -/
def readStr (cs : List Char) : Option (List Char × List Char) :=
  (readPieces cs).map fun (ps, rest) => (joinPieces ps, rest)

def readNumber (cs : List Char) : Option (Value × List Char) :=
  let text := cs.takeWhile isNumeric
  if h : text.all isNumeric ∧ isNumber text then
    some (.num ⟨text, h.1, h.2⟩, cs.dropWhile isNumeric)
  else none

mutual

def readValue : ℕ → List Char → Option (Value × List Char)
  | 0, _ => none
  | fuel + 1, cs =>
    match skip cs with
    | '\x7b' :: cs =>
      match skip cs with
      | '\x7d' :: cs => some (.obj [], cs)
      | cs => (readMembers fuel cs).map fun (ms, rest) => (.obj ms, rest)
    | '[' :: cs =>
      match skip cs with
      | ']' :: cs => some (.arr [], cs)
      | cs => (readElements fuel cs).map fun (xs, rest) => (.arr xs, rest)
    | '"' :: cs => (readStr cs).map fun (s, rest) => (.str s, rest)
    | 'n' :: 'u' :: 'l' :: 'l' :: cs => some (.null, cs)
    | 't' :: 'r' :: 'u' :: 'e' :: cs => some (.bool true, cs)
    | 'f' :: 'a' :: 'l' :: 's' :: 'e' :: cs => some (.bool false, cs)
    | cs => readNumber cs

/-- One element or more, up to the end of the array. -/
def readElements : ℕ → List Char → Option (List Value × List Char)
  | 0, _ => none
  | fuel + 1, cs => do
    let (x, cs) ← readValue fuel cs
    match skip cs with
    | ',' :: cs =>
      let (xs, rest) ← readElements fuel cs
      return (x :: xs, rest)
    | ']' :: cs => return ([x], cs)
    | _ => none

def readMembers : ℕ → List Char → Option (List (List Char × Value) × List Char)
  | 0, _ => none
  | fuel + 1, cs =>
    match skip cs with
    | '"' :: cs => do
      let (k, cs) ← readStr cs
      match skip cs with
      | ':' :: cs =>
        let (x, cs) ← readValue fuel cs
        match skip cs with
        | ',' :: cs =>
          let (ms, rest) ← readMembers fuel cs
          return ((k, x) :: ms, rest)
        | '\x7d' :: cs => return ([(k, x)], cs)
        | _ => none
      | _ => none
    | _ => none

end

/-- A text that is one value. -/
def parse (cs : List Char) : Option Value := do
  let (x, rest) ← readValue cs.length cs
  if skip rest = [] then some x else none

theorem hexValue_hexDigit : ∀ n < 16, hexValue (hexDigit n) = some n := by decide

theorem hexValues_unicodeEscape {n : ℕ} (h : n < 65536) :
    hexValues (hexDigit (n / 4096 % 16)) (hexDigit (n / 256 % 16)) (hexDigit (n / 16 % 16))
      (hexDigit (n % 16)) = some n := by
  have hmod : ∀ m, m % 16 < 16 := fun m => Nat.mod_lt _ (by decide)
  simp only [hexValues, hexValue_hexDigit _ (hmod _), Option.bind_eq_bind, Option.bind_some,
    Option.pure_def, Option.some.injEq]
  omega

/-- How a character comes back from its escape. -/
def piece (c : Char) : Char ⊕ ℕ :=
  if shortEscape c = none ∧ needsUnicode c = true then .inr c.toNat else .inl c

theorem readPieces_short {l : Char} (h : shortEscape c = some l) (cs : List Char) :
    readPieces ('\\' :: l :: cs) =
      (readPieces cs).bind fun p => some (.inl c :: p.1, p.2) := by
  unfold shortEscape at h
  split_ifs at h with h1 h2 h3 h4 h5 h6 h7 <;> cases h
  · rw [h1]; rfl
  · rw [h2]; rfl
  · rw [← Char.ofNat_toNat c, h3]; rfl
  · rw [← Char.ofNat_toNat c, h4]; rfl
  · rw [h5]; rfl
  · rw [h6]; rfl
  · rw [h7]; rfl

theorem readPieces_plain (h : shortEscape c = none) (hu : needsUnicode c = false) (cs : List Char) :
    readPieces (c :: cs) = (readPieces cs).bind fun p => some (.inl c :: p.1, p.2) := by
  have hq : c ≠ '"' := by
    rintro rfl
    simp [shortEscape] at h
  have hb : c ≠ '\\' := by
    rintro rfl
    simp [shortEscape] at h
  have hlt : ¬ c.toNat < 0x20 := by
    intro hlt
    simp [needsUnicode, hlt] at hu
  have hread : (decide (c.toNat < 0x20) || c == '\\') = false := by
    rw [Bool.or_eq_false_iff, decide_eq_false_iff_not, beq_eq_false_iff_ne]
    exact ⟨hlt, hb⟩
  rw [readPieces.eq_def]
  split
  next heq => cases heq
  next heq => exact absurd (List.cons.inj heq).1 hq
  next heq => exact absurd (List.cons.inj heq).1 hb
  next heq => exact absurd (List.cons.inj heq).1 hb
  next heq =>
    cases heq
    rw [hread]
    rfl

theorem readPieces_escape (c : Char) (cs : List Char) :
    readPieces (escape c ++ cs) = (readPieces cs).bind fun p => some (piece c :: p.1, p.2) := by
  unfold escape piece
  rcases hs : shortEscape c with _ | l
  · cases hu : needsUnicode c with
    | false => simpa using readPieces_plain hs hu cs
    | true =>
      have hlt : c.toNat < 65536 := by
        unfold needsUnicode at hu
        simp only [Bool.or_eq_true, decide_eq_true_eq, beq_iff_eq] at hu
        rcases hu with ((((hu | rfl) | rfl) | rfl) | hu) | hu
        · omega
        · decide
        · decide
        · decide
        · omega
        · omega
      simp only [unicodeEscape, if_true, List.cons_append, List.nil_append, readPieces,
        hexValues_unicodeEscape hlt, Option.bind_eq_bind, Option.bind_some, and_self]
      rfl
  · simpa using readPieces_short hs cs

theorem readPieces_printed (s rest : List Char) :
    readPieces (s.flatMap escape ++ '"' :: rest) = some (s.map piece, rest) := by
  induction s with
  | nil => rfl
  | cons c s ih =>
    rw [List.flatMap_cons, List.append_assoc, readPieces_escape, ih]
    rfl

theorem not_surrogate (c : Char) : isHigh c.toNat = false ∧ isLow c.toNat = false := by
  have h := c.valid
  simp only [UInt32.isValidChar, Nat.isValidChar] at h
  have hc : c.toNat = c.val.toNat := rfl
  simp only [isHigh, isLow, Bool.and_eq_false_iff, decide_eq_false_iff_not]
  omega

theorem loneUnit_toNat (c : Char) : loneUnit c.toNat = c := by
  obtain ⟨h, l⟩ := not_surrogate c
  rw [loneUnit, h, l]
  exact Char.ofNat_toNat c

theorem joinPieces_inr (c : Char) (ps : List (Char ⊕ ℕ)) :
    joinPieces (.inr c.toNat :: ps) = c :: joinPieces ps := by
  rcases ps with _ | ⟨_ | l, ps⟩
  · simp only [joinPieces, loneUnit_toNat]
  · simp only [joinPieces, loneUnit_toNat]
  · rw [joinPieces, (not_surrogate c).1, loneUnit_toNat]
    rfl

theorem joinPieces_map (s : List Char) : joinPieces (s.map piece) = s := by
  induction s with
  | nil => rfl
  | cons c s ih =>
    rw [List.map_cons, piece]
    split_ifs
    · rw [joinPieces_inr, ih]
    · rw [joinPieces, ih]

theorem readStr_printed (s rest : List Char) :
    readStr (s.flatMap escape ++ '"' :: rest) = some (s, rest) := by
  simp only [readStr, readPieces_printed, Option.map_some, joinPieces_map]

/-- What follows a value does not go on like a number. -/
def Stops (rest : List Char) : Prop := ∀ c ∈ rest.head?, isNumeric c = false

theorem stops_cons (h : isNumeric c = false) (cs : List Char) : Stops (c :: cs) := by
  simpa [Stops] using h

theorem takeWhile_append_stop {l : List Char} (hl : l.all isNumeric) (h : Stops rest) :
    (l ++ rest).takeWhile isNumeric = l ∧ (l ++ rest).dropWhile isNumeric = rest := by
  have hall : ∀ c ∈ l, isNumeric c = true := List.all_eq_true.1 hl
  have hrest : rest.takeWhile isNumeric = [] ∧ rest.dropWhile isNumeric = rest := by
    cases rest with
    | nil => exact ⟨rfl, rfl⟩
    | cons c cs =>
      have hc := h c rfl
      simp [hc]
  rw [List.takeWhile_append_of_pos hall, List.dropWhile_append_of_pos hall, hrest.1, hrest.2,
    List.append_nil]
  exact ⟨rfl, rfl⟩

theorem readNumber_text (h : Stops rest) : readNumber (n.text ++ rest) = some (.num n, rest) := by
  obtain ⟨ht, hd⟩ := takeWhile_append_stop n.numeric h
  simp only [readNumber, ht, hd]
  rw [dif_pos ⟨n.numeric, n.grammar⟩]

theorem Number.text_eq_cons : ∃ c cs, n.text = c :: cs ∧ isNumeric c = true := by
  rcases hn : n.text with _ | ⟨c, cs⟩
  · have := n.grammar
    rw [hn] at this
    exact absurd this (by decide)
  · refine ⟨c, cs, rfl, ?_⟩
    have := n.numeric
    rw [hn] at this
    simp only [List.all_cons, Bool.and_eq_true] at this
    exact this.1

/-- The first characters of values: no blanks, and not the end of an array or object. -/
def isFirst (c : Char) : Bool := !isBlank c && c != ']' && c != '\x7d'

theorem isFirst_of_isNumeric (h : isNumeric c = true) : isFirst c = true := by
  by_contra hf
  simp only [isFirst, isBlank, Bool.and_eq_true, Bool.not_eq_true', Bool.or_eq_false_iff,
    bne_iff_ne, beq_eq_false_iff_ne, ne_eq] at hf
  have hc : c = ' ' ∨ c = '\t' ∨ c = '\n' ∨ c = '\r' ∨ c = ']' ∨ c = '\x7d' := by tauto
  rcases hc with rfl | rfl | rfl | rfl | rfl | rfl <;> exact absurd h (by decide)

theorem print_eq_cons : ∀ x : Value, ∃ c cs, print x = c :: cs ∧ isFirst c = true
  | .null => ⟨'n', _, rfl, by decide⟩
  | .bool true => ⟨'t', _, rfl, by decide⟩
  | .bool false => ⟨'f', _, rfl, by decide⟩
  | .num n => by
    obtain ⟨c, cs, h, hc⟩ := n.text_eq_cons
    exact ⟨c, cs, h, isFirst_of_isNumeric hc⟩
  | .str s => ⟨'"', _, rfl, by decide⟩
  | .arr xs => ⟨'[', _, rfl, by decide⟩
  | .obj ms => ⟨'\x7b', _, rfl, by decide⟩

theorem skip_cons (h : isBlank c = false) (cs : List Char) : skip (c :: cs) = c :: cs := by
  simp [skip, h]

theorem isBlank_of_isFirst (h : isFirst c = true) : isBlank c = false := by
  simp only [isFirst, Bool.and_eq_true, Bool.not_eq_true'] at h
  exact h.1.1

theorem readValue_numeric (h : isNumeric c = true) (fuel : ℕ) (cs : List Char) :
    readValue (fuel + 1) (c :: cs) = readNumber (c :: cs) := by
  rw [readValue, skip_cons (isBlank_of_isFirst (isFirst_of_isNumeric h))]
  split
  case h_7 => rfl
  all_goals
    rename_i heq
    cases heq
    exact absurd h (by decide)

theorem readValue_quote :
    readValue (fuel + 1) ('"' :: cs) = (readStr cs).map fun p => (.str p.1, p.2) := rfl

theorem readValue_bracket (h : isFirst c = true) (fuel : ℕ) (cs : List Char) :
    readValue (fuel + 1) ('[' :: c :: cs) =
      (readElements fuel (c :: cs)).map fun p => (.arr p.1, p.2) := by
  have hne : c ≠ ']' := by
    rintro rfl
    exact absurd h (by decide)
  have hskip : skip ('[' :: c :: cs) = '[' :: c :: cs := rfl
  simp only [readValue, hskip, skip_cons (isBlank_of_isFirst h)]
  split
  · rename_i heq
    cases heq
    exact absurd rfl hne
  · rfl

theorem readValue_brace :
    readValue (fuel + 1) ('\x7b' :: '"' :: cs) =
      (readMembers fuel ('"' :: cs)).map fun p => (.obj p.1, p.2) := rfl

/-- The members after a name that was written. -/
theorem readMembers_printStr (k : List Char) (fuel : ℕ) (cs : List Char) :
    readMembers (fuel + 1) (printStr k ++ ':' :: cs) = (readValue fuel cs).bind fun p =>
      match skip p.2 with
      | ',' :: cs => (readMembers fuel cs).bind fun q => some ((k, p.1) :: q.1, q.2)
      | '\x7d' :: cs => some ([(k, p.1)], cs)
      | _ => none := by
  have hskip : ∀ cs, skip ('"' :: cs) = '"' :: cs := fun _ => rfl
  simp only [printStr, List.cons_append, List.append_assoc, List.nil_append, readMembers, hskip,
    readStr_printed]
  rfl

theorem print_pos : 0 < (print x).length := by
  obtain ⟨c, cs, h, -⟩ := print_eq_cons x
  rw [h]
  exact Nat.succ_pos _

theorem printElements_eq_cons (xs : List Value) :
    ∃ c cs, printElements (x :: xs) = c :: cs ∧ isFirst c = true := by
  obtain ⟨c, cs, h, hc⟩ := print_eq_cons x
  cases xs with
  | nil => exact ⟨c, cs, by rw [printElements, h], hc⟩
  | cons y ys => exact ⟨c, _, by rw [printElements, h, List.cons_append], hc⟩

theorem printMembers_eq_cons (m : List Char × Value) (ms : List (List Char × Value)) :
    ∃ cs, printMembers (m :: ms) = '"' :: cs := by
  obtain ⟨k, x⟩ := m
  cases ms with
  | nil => exact ⟨_, by rw [printMembers, printStr, List.cons_append]⟩
  | cons y ys => exact ⟨_, by rw [printMembers, printStr, List.cons_append]⟩

mutual

theorem readValue_print : ∀ (x : Value) (fuel : ℕ) (rest : List Char),
    (print x).length ≤ fuel → Stops rest → readValue fuel (print x ++ rest) = some (x, rest)
  | x, 0, rest, hf, _ => absurd hf (Nat.not_le_of_lt (print_pos x))
  | .null, fuel + 1, rest, _, _ => rfl
  | .bool true, fuel + 1, rest, _, _ => rfl
  | .bool false, fuel + 1, rest, _, _ => rfl
  | .num n, fuel + 1, rest, _, hr => by
    obtain ⟨c, cs, h, hc⟩ := n.text_eq_cons
    have := readNumber_text n hr
    rw [h, List.cons_append] at this
    rw [print, h, List.cons_append, readValue_numeric hc, this]
  | .str s, fuel + 1, rest, _, _ => by
    rw [print, printStr, List.cons_append, List.append_assoc, readValue_quote]
    simp only [List.cons_append, List.nil_append, readStr_printed, Option.map_some]
  | .arr [], fuel + 1, rest, _, _ => rfl
  | .arr (x :: xs), fuel + 1, rest, hf, _ => by
    obtain ⟨c, cs, h, hc⟩ := printElements_eq_cons x xs
    have hread := readElements_print x xs fuel rest (by
      simp only [print, List.length_cons, List.length_append, List.length_nil] at hf
      omega)
    rw [h, List.cons_append] at hread
    rw [print, h, List.cons_append, List.append_assoc, List.cons_append, readValue_bracket hc]
    simp only [List.cons_append, List.nil_append, hread, Option.map_some]
  | .obj [], fuel + 1, rest, _, _ => rfl
  | .obj (m :: ms), fuel + 1, rest, hf, _ => by
    obtain ⟨cs, h⟩ := printMembers_eq_cons m ms
    have hread := readMembers_print m ms fuel rest (by
      simp only [print, List.length_cons, List.length_append, List.length_nil] at hf
      omega)
    rw [h, List.cons_append] at hread
    rw [print, h, List.cons_append, List.append_assoc, List.cons_append, readValue_brace]
    simp only [List.cons_append, List.nil_append, hread, Option.map_some]

theorem readElements_print : ∀ (x : Value) (xs : List Value) (fuel : ℕ) (rest : List Char),
    (printElements (x :: xs)).length < fuel →
      readElements fuel (printElements (x :: xs) ++ ']' :: rest) = some (x :: xs, rest)
  | x, xs, 0, rest, hf => absurd hf (Nat.not_lt_zero _)
  | x, [], fuel + 1, rest, hf => by
    rw [printElements] at hf ⊢
    have hx := readValue_print x fuel (']' :: rest) (Nat.lt_succ_iff.1 hf)
      (stops_cons (by decide) _)
    rw [readElements, hx]
    rfl
  | x, y :: ys, fuel + 1, rest, hf => by
    rw [printElements] at hf ⊢
    simp only [List.length_append, List.length_cons] at hf
    have hx := readValue_print x fuel (',' :: (printElements (y :: ys) ++ ']' :: rest)) (by omega)
      (stops_cons (by decide) _)
    have hxs := readElements_print y ys fuel rest (by omega)
    rw [List.append_assoc, List.cons_append, readElements, hx]
    have hskip : skip (',' :: (printElements (y :: ys) ++ ']' :: rest)) =
        ',' :: (printElements (y :: ys) ++ ']' :: rest) := rfl
    simp only [Option.bind_eq_bind, Option.bind_some, hskip, hxs, Option.pure_def]

theorem readMembers_print : ∀ (m : List Char × Value) (ms : List (List Char × Value)) (fuel : ℕ)
    (rest : List Char), (printMembers (m :: ms)).length < fuel →
      readMembers fuel (printMembers (m :: ms) ++ '\x7d' :: rest) = some (m :: ms, rest)
  | m, ms, 0, rest, hf => absurd hf (Nat.not_lt_zero _)
  | (k, x), [], fuel + 1, rest, hf => by
    rw [printMembers] at hf ⊢
    simp only [List.length_append, List.length_cons] at hf
    have hx := readValue_print x fuel ('\x7d' :: rest) (by omega) (stops_cons (by decide) _)
    rw [List.append_assoc, List.cons_append, readMembers_printStr, hx]
    rfl
  | (k, x), y :: ys, fuel + 1, rest, hf => by
    rw [printMembers] at hf ⊢
    simp only [List.length_append, List.length_cons] at hf
    have hx := readValue_print x fuel (',' :: (printMembers (y :: ys) ++ '\x7d' :: rest)) (by omega)
      (stops_cons (by decide) _)
    have hms := readMembers_print y ys fuel rest (by omega)
    rw [List.append_assoc, List.cons_append, List.append_assoc, List.cons_append,
      readMembers_printStr, hx]
    have hskip : skip (',' :: (printMembers (y :: ys) ++ '\x7d' :: rest)) =
        ',' :: (printMembers (y :: ys) ++ '\x7d' :: rest) := rfl
    simp only [Option.bind_some, hskip, hms]

end

theorem parse_print : parse (print x) = some x := by
  have h := readValue_print x (print x).length [] le_rfl (by simp [Stops])
  rw [List.append_nil] at h
  rw [parse, h]
  rfl

end Json
