import Mathlib.Algebra.Group.Nat.Defs
import Mathlib.Tactic.Common

/-!
# The protocol buffers wire format

A message on the wire is a sequence of fields, each a tag (field number and wire type, as a varint)
and a payload.  What is written is read back (`decodeFields_encodeFields`).  The deprecated groups
are not read.
-/

namespace Protobuf

inductive Payload where
  | varint (n : ℕ)
  | fixed64 (b : List UInt8)
  | bytes (b : List UInt8)
  | fixed32 (b : List UInt8)
  deriving DecidableEq, Repr

structure Field where
  number : ℕ
  payload : Payload
  deriving DecidableEq, Repr

variable {fs : List Field}

/-- Seven bits a byte, lowest first; every byte but the last has its high bit set. -/
def encodeVarint (n : ℕ) : List UInt8 :=
  if n < 128 then [UInt8.ofNat n] else UInt8.ofNat (n % 128 + 128) :: encodeVarint (n / 128)

/-- Reads on at bit `shift`; `acc` is what was read before.  More than ten bytes are refused, and
what does not fit 64 bits is lost. -/
def decodeVarintFrom (shift acc : ℕ) : List UInt8 → Option (ℕ × List UInt8)
  | [] => none
  | b :: rest =>
    if shift ≥ 64 then none
    else
      let acc := acc ||| (b.toNat % 128) <<< shift % 2 ^ 64
      if b.toNat < 128 then some (acc, rest) else decodeVarintFrom (shift + 7) acc rest

def decodeVarint : List UInt8 → Option (ℕ × List UInt8) := decodeVarintFrom 0 0

theorem decodeVarintFrom_encodeVarint (rest : List UInt8) (n : ℕ) : ∀ {shift acc : ℕ},
    acc < 2 ^ shift → n * 2 ^ shift < 2 ^ 64 → shift < 64 →
      decodeVarintFrom shift acc (encodeVarint n ++ rest) = some (acc + n * 2 ^ shift, rest) := by
  induction n using Nat.strongRecOn with
  | ind n ih =>
    intro shift acc hacc hfit hshift
    have hstep : ∀ m, m * 2 ^ shift < 2 ^ 64 →
        acc ||| m <<< shift % 2 ^ 64 = acc + m * 2 ^ shift := fun m hm => by
      rw [Nat.mod_eq_of_lt (by rwa [Nat.shiftLeft_eq]), Nat.or_comm,
        ← Nat.shiftLeft_add_eq_or_of_lt hacc, Nat.shiftLeft_eq, Nat.add_comm]
    rw [encodeVarint]
    split_ifs with hn
    · have hb : (UInt8.ofNat n).toNat = n := by
        rw [UInt8.toNat_ofNat', Nat.mod_eq_of_lt (by omega)]
      simp only [List.cons_append, List.nil_append, decodeVarintFrom, hb, hn, if_true]
      rw [if_neg (by omega), Nat.mod_eq_of_lt hn, hstep n hfit]
    · have hb : (UInt8.ofNat (n % 128 + 128)).toNat = n % 128 + 128 := by
        rw [UInt8.toNat_ofNat', Nat.mod_eq_of_lt (by omega)]
      have hlow : (n % 128 + 128) % 128 = n % 128 := by omega
      have hsplit : n % 128 + n / 128 * 128 = n := by omega
      -- the rest of the number starts seven bits further up
      have hup : n / 128 * 2 ^ (shift + 7) = n / 128 * 128 * 2 ^ shift := by
        rw [Nat.pow_add, Nat.mul_comm (2 ^ shift), ← Nat.mul_assoc]
      have hrest : n % 128 * 2 ^ shift + n / 128 * 2 ^ (shift + 7) = n * 2 ^ shift := by
        rw [hup, ← Nat.add_mul, hsplit]
      have hshift' : shift + 7 < 64 := by
        by_contra hge
        have : 2 ^ 64 ≤ n / 128 * 2 ^ (shift + 7) := by
          calc 2 ^ 64 ≤ 2 ^ (shift + 7) := Nat.pow_le_pow_right (by decide) (by omega)
            _ ≤ n / 128 * 2 ^ (shift + 7) := Nat.le_mul_of_pos_left _ (by omega)
        omega
      have hacc' : acc + n % 128 * 2 ^ shift < 2 ^ (shift + 7) := by
        have : n % 128 * 2 ^ shift ≤ 127 * 2 ^ shift := Nat.mul_le_mul_right _ (by omega)
        rw [Nat.pow_add]
        omega
      simp only [List.cons_append, decodeVarintFrom, hb, hlow]
      rw [if_neg (by omega), if_neg (by omega), hstep _ (by omega),
        ih (n / 128) (by omega) hacc' (by omega) hshift', Nat.add_assoc, hrest]

theorem decodeVarint_encodeVarint {n : ℕ} (h : n < 2 ^ 64) (rest : List UInt8) :
    decodeVarint (encodeVarint n ++ rest) = some (n, rest) := by
  have := @decodeVarintFrom_encodeVarint rest n 0 0 (by simp) (by simpa) (by simp)
  simpa [decodeVarint] using this

theorem length_encodeVarint_pos (n : ℕ) : 0 < (encodeVarint n).length := by
  rw [encodeVarint]
  split_ifs <;> simp

def wireType : Payload → ℕ
  | .varint _ => 0
  | .fixed64 _ => 1
  | .bytes _ => 2
  | .fixed32 _ => 5

def encodePayload : Payload → List UInt8
  | .varint n => encodeVarint n
  | .bytes b => encodeVarint b.length ++ b
  | .fixed64 b | .fixed32 b => b

def encodeField (f : Field) : List UInt8 :=
  encodeVarint (f.number * 8 + wireType f.payload) ++ encodePayload f.payload

def encodeFields (fs : List Field) : List UInt8 := fs.flatMap encodeField

def takeBytes (n : ℕ) (bs : List UInt8) : Option (List UInt8 × List UInt8) :=
  if n ≤ bs.length then some (bs.take n, bs.drop n) else none

def decodePayload (wireType : ℕ) (bs : List UInt8) : Option (Payload × List UInt8) :=
  match wireType with
  | 0 => do
    let (n, rest) ← decodeVarint bs
    return (.varint n, rest)
  | 1 => do
    let (b, rest) ← takeBytes 8 bs
    return (.fixed64 b, rest)
  | 2 => do
    let (len, rest) ← decodeVarint bs
    -- a length is a signed number
    if len ≥ 2 ^ 63 then none
    else
      let (b, rest) ← takeBytes len rest
      return (.bytes b, rest)
  | 5 => do
    let (b, rest) ← takeBytes 4 bs
    return (.fixed32 b, rest)
  | _ => none

def decodeField (bs : List UInt8) : Option (Field × List UInt8) := do
  let (wire, rest) ← decodeVarint bs
  -- the field number is a positive number of 32 bits
  let number := wire / 8 % 2 ^ 32
  if number = 0 ∨ number ≥ 2 ^ 31 then none
  else
    let (payload, rest) ← decodePayload (wire % 8) rest
    return (⟨number, payload⟩, rest)

/-- Reads `fuel` fields at most. -/
def decodeFieldsFuel : ℕ → List UInt8 → Option (List Field)
  | _, [] => some []
  | 0, _ :: _ => none
  | fuel + 1, b :: bs => do
    let (f, rest) ← decodeField (b :: bs)
    let fs ← decodeFieldsFuel fuel rest
    return f :: fs

/-- A field takes a byte at least. -/
def decodeFields (bs : List UInt8) : Option (List Field) := decodeFieldsFuel bs.length bs

/-- A field that can be written: varints have 64 bits, and lengths are signed. -/
def Field.Valid (f : Field) : Prop :=
  0 < f.number ∧ f.number < 2 ^ 29 ∧
    match f.payload with
    | .varint n => n < 2 ^ 64
    | .fixed64 b => b.length = 8
    | .bytes b => b.length < 2 ^ 63
    | .fixed32 b => b.length = 4

theorem takeBytes_append (b rest : List UInt8) :
    takeBytes b.length (b ++ rest) = some (b, rest) := by
  simp [takeBytes]

theorem decodeField_encodeField {f : Field} (h : f.Valid) (rest : List UInt8) :
    decodeField (encodeField f ++ rest) = some (f, rest) := by
  obtain ⟨number, payload⟩ := f
  obtain ⟨hpos, hlt, hp⟩ := h
  simp only at hpos hlt hp
  have hwire : wireType payload < 8 := by cases payload <;> simp [wireType]
  have hnum : (number * 8 + wireType payload) / 8 % 2 ^ 32 = number := by omega
  have htype : (number * 8 + wireType payload) % 8 = wireType payload := by omega
  have hread : decodePayload (wireType payload) (encodePayload payload ++ rest) =
      some (payload, rest) := by
    cases payload with
    | varint n => simp [wireType, decodePayload, encodePayload, decodeVarint_encodeVarint hp]
    | fixed64 b =>
      have := takeBytes_append b rest
      rw [show b.length = 8 from hp] at this
      simp [wireType, decodePayload, encodePayload, this]
    | bytes b =>
      have hb : b.length < 2 ^ 63 := hp
      simp only [wireType, decodePayload, encodePayload, List.append_assoc,
        decodeVarint_encodeVarint (show b.length < 2 ^ 64 by omega), Option.bind_eq_bind,
        Option.bind_some]
      rw [if_neg (by omega), takeBytes_append]
      rfl
    | fixed32 b =>
      have := takeBytes_append b rest
      rw [show b.length = 4 from hp] at this
      simp [wireType, decodePayload, encodePayload, this]
  simp only [decodeField, encodeField, List.append_assoc,
    decodeVarint_encodeVarint (show number * 8 + wireType payload < 2 ^ 64 by omega),
    Option.bind_eq_bind, Option.bind_some, hnum, htype, hread]
  rw [if_neg (by omega)]
  rfl

theorem length_encodeField_pos (f : Field) : 0 < (encodeField f).length := by
  have := length_encodeVarint_pos (f.number * 8 + wireType f.payload)
  simp only [encodeField, List.length_append]
  omega

theorem length_le_encodeFields (fs : List Field) : fs.length ≤ (encodeFields fs).length := by
  induction fs with
  | nil => simp
  | cons f fs ih =>
    have := length_encodeField_pos f
    simp only [encodeFields, List.flatMap_cons, List.length_append, List.length_cons] at ih ⊢
    omega

theorem decodeFieldsFuel_encodeFields (h : ∀ f ∈ fs, f.Valid) :
    ∀ {fuel : ℕ}, fs.length ≤ fuel → decodeFieldsFuel fuel (encodeFields fs) = some fs := by
  induction fs with
  | nil => intro fuel _; cases fuel <;> rfl
  | cons f fs ih =>
    intro fuel hfuel
    obtain ⟨fuel, rfl⟩ : ∃ n, fuel = n + 1 := ⟨fuel - 1, by simp at hfuel; omega⟩
    have hfield := decodeField_encodeField (h f (by simp)) (encodeFields fs)
    have hne : encodeFields (f :: fs) = encodeField f ++ encodeFields fs := by simp [encodeFields]
    rw [hne]
    rcases hbs : encodeField f ++ encodeFields fs with _ | ⟨b, bs⟩
    · have := length_encodeField_pos f
      have := congrArg List.length hbs
      simp only [List.length_append, List.length_nil] at this
      omega
    · rw [hbs] at hfield
      have hrest : decodeFieldsFuel fuel (encodeFields fs) = some fs :=
        ih (fun f' hf' => h f' (by simp [hf'])) (by simpa using hfuel)
      simp only [decodeFieldsFuel, hfield, Option.bind_eq_bind, Option.bind_some, hrest]
      rfl

/-- What was written is read back. -/
theorem decodeFields_encodeFields (h : ∀ f ∈ fs, f.Valid) :
    decodeFields (encodeFields fs) = some fs :=
  decodeFieldsFuel_encodeFields h (length_le_encodeFields fs)

end Protobuf
