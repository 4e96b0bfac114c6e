import Specter.Kv
import Specter.Lib.Protobuf

/-!
# KV messages on the wire

The messages of the KV service, as the fields they write and what they make of the fields they
read.  A bytes, integer or boolean field without `optional` is left out when it has its default,
so an empty value and no value are written alike; an `optional` field is written whenever it is
present.  A field with a number the message knows but of another wire type is an error, and one
with an unknown number is passed over.
-/

namespace Specter

open Protobuf

/-! ## Fields

The first four are written only when they do not have their default. -/

def bytesField (number : ℕ) (b : Bytes) : List Protobuf.Field :=
  if b = [] then [] else [⟨number, .bytes b⟩]

def uintField (number n : ℕ) : List Protobuf.Field := if n = 0 then [] else [⟨number, .varint n⟩]

def boolField (number : ℕ) (b : Bool) : List Protobuf.Field := uintField number b.toNat

/-- A signed number is written as its 64-bit two's complement. -/
def intField (number : ℕ) (n : ℤ) : List Protobuf.Field := uintField number (n % 2 ^ 64).toNat

def optionalBytes (number : ℕ) (b : Option Bytes) : List Protobuf.Field :=
  b.toList.map fun b => ⟨number, .bytes b⟩

def repeatedBytes (number : ℕ) (bs : List Bytes) : List Protobuf.Field :=
  bs.map fun b => ⟨number, .bytes b⟩

def readFields {M : Type} (readField : M → Protobuf.Field → Option M) (blank : M)
    (fs : List Protobuf.Field) : Option M :=
  fs.foldlM readField blank

namespace KVTransfer

def blank : KVTransfer := ⟨none, [], 0⟩

def fields (x : KVTransfer) : List Protobuf.Field :=
  optionalBytes 1 x.simpleValue ++ repeatedBytes 2 x.prefixChildren ++ uintField 3 x.leaseToken

def readWire (x : KVTransfer) (f : Protobuf.Field) : Option KVTransfer :=
  match f with
  | ⟨1, .bytes b⟩ => some { x with simpleValue := some b }
  | ⟨2, .bytes b⟩ => some { x with prefixChildren := x.prefixChildren ++ [b] }
  | ⟨3, .varint n⟩ => some { x with leaseToken := n }
  | ⟨number, _⟩ => if number = 1 ∨ number = 2 ∨ number = 3 then none else some x

def marshalVT (x : KVTransfer) : Bytes := encodeFields x.fields

def unmarshalVT (dAtA : Bytes) : Option KVTransfer :=
  (decodeFields dAtA).bind (readFields readWire blank)

end KVTransfer

structure ImportRequest where
  keys : List Bytes
  values : List KVTransfer
  deriving DecidableEq, Repr

namespace ImportRequest

def blank : ImportRequest := ⟨[], []⟩

def fields (m : ImportRequest) : List Protobuf.Field :=
  repeatedBytes 1 m.keys ++ repeatedBytes 2 (m.values.map KVTransfer.marshalVT)

def readWire (m : ImportRequest) (f : Protobuf.Field) : Option ImportRequest :=
  match f with
  | ⟨1, .bytes b⟩ => some { m with keys := m.keys ++ [b] }
  | ⟨2, .bytes b⟩ => do
    let x ← KVTransfer.unmarshalVT b
    return { m with values := m.values ++ [x] }
  | ⟨number, _⟩ => if number = 1 ∨ number = 2 then none else some m

def marshalVT (m : ImportRequest) : Bytes := encodeFields m.fields

def unmarshalVT (dAtA : Bytes) : Option ImportRequest :=
  (decodeFields dAtA).bind (readFields readWire blank)

end ImportRequest

/-! ## Requests and responses

A nil byte string is `none` where the difference to an empty one can be seen. -/

/-- What a message writes, and how it takes in a field. -/
class Message (M : Type) where
  blank : M
  fields : M → List Protobuf.Field
  readWire : M → Protobuf.Field → Option M

/-- What is read of a message that was written. -/
def overWire {M : Type} [Message M] (m : M) : Option M :=
  readFields Message.readWire Message.blank (Message.fields m)

instance : Message ImportRequest :=
  ⟨ImportRequest.blank, ImportRequest.fields, ImportRequest.readWire⟩

structure SimpleRequest where
  key : Bytes
  value : Option Bytes
  deriving DecidableEq, Repr

instance : Message SimpleRequest where
  blank := ⟨[], none⟩
  fields m := bytesField 1 m.key ++ bytesField 2 (m.value.getD [])
  readWire m
    | ⟨1, .bytes b⟩ => some { m with key := b }
    | ⟨2, .bytes b⟩ => some { m with value := some b }
    | ⟨number, _⟩ => if number = 1 ∨ number = 2 then none else some m

structure SimpleResponse where
  value : Option Bytes
  deriving DecidableEq, Repr

instance : Message SimpleResponse where
  blank := ⟨none⟩
  fields m := bytesField 1 (m.value.getD [])
  readWire m
    | ⟨1, .bytes b⟩ => some { m with value := some b }
    | ⟨number, _⟩ => if number = 1 then none else some m

structure PrefixRequest where
  pfx : Bytes
  child : Bytes
  deriving DecidableEq, Repr

instance : Message PrefixRequest where
  blank := ⟨[], []⟩
  fields m := bytesField 1 m.pfx ++ bytesField 2 m.child
  readWire m
    | ⟨1, .bytes b⟩ => some { m with pfx := b }
    | ⟨2, .bytes b⟩ => some { m with child := b }
    | ⟨number, _⟩ => if number = 1 ∨ number = 2 then none else some m

structure PrefixResponse where
  children : List Bytes
  exist : Bool
  deriving DecidableEq, Repr

instance : Message PrefixResponse where
  blank := ⟨[], false⟩
  fields m := repeatedBytes 1 m.children ++ boolField 2 m.exist
  readWire m
    | ⟨1, .bytes b⟩ => some { m with children := m.children ++ [b] }
    | ⟨2, .varint n⟩ => some { m with exist := n != 0 }
    | ⟨number, _⟩ => if number = 1 ∨ number = 2 then none else some m

/-- A span of time, in seconds and the nanoseconds that are left, of the same sign. -/
structure Duration where
  seconds : ℤ
  nanos : ℤ
  deriving DecidableEq, Repr

namespace Duration

def new (d : ℤ) : Duration := ⟨d.tdiv second, d.tmod second⟩

/-- In nanoseconds, or the closest number of 64 bits. -/
def asDuration (d : Duration) : ℤ := max (-2 ^ 63) (min maxInt64 (d.seconds * second + d.nanos))

/-- The low 32 bits, read as a signed number. -/
def toInt32 (n : ℕ) : ℤ := if n % 2 ^ 32 < 2 ^ 31 then n % 2 ^ 32 else n % 2 ^ 32 - 2 ^ 32

instance : Message Duration where
  blank := ⟨0, 0⟩
  fields d := intField 1 d.seconds ++ intField 2 d.nanos
  readWire d
    | ⟨1, .varint n⟩ => some { d with seconds := toInt64 n }
    | ⟨2, .varint n⟩ => some { d with nanos := toInt32 n }
    | ⟨number, _⟩ => if number = 1 ∨ number = 2 then none else some d

end Duration

structure LeaseRequest where
  lease : Bytes
  newToken : ℕ
  prevToken : ℕ
  ttl : Option Duration
  deriving DecidableEq, Repr

instance : Message LeaseRequest where
  blank := ⟨[], 0, 0, none⟩
  fields m := bytesField 1 m.lease ++ uintField 2 m.newToken ++ uintField 3 m.prevToken ++
    optionalBytes 5 (m.ttl.map fun d => encodeFields (Message.fields d))
  readWire m
    | ⟨1, .bytes b⟩ => some { m with lease := b }
    | ⟨2, .varint n⟩ => some { m with newToken := n }
    | ⟨3, .varint n⟩ => some { m with prevToken := n }
    | ⟨5, .bytes b⟩ => do
      let fs ← decodeFields b
      let d ← readFields Message.readWire (m.ttl.getD Message.blank) fs
      return { m with ttl := some d }
    | ⟨number, _⟩ => if number = 1 ∨ number = 2 ∨ number = 3 ∨ number = 5 then none else some m

structure LeaseResponse where
  token : ℕ
  deriving DecidableEq, Repr

instance : Message LeaseResponse where
  blank := ⟨0⟩
  fields m := uintField 1 m.token
  readWire m
    | ⟨1, .varint n⟩ => some { m with token := n }
    | ⟨number, _⟩ => if number = 1 then none else some m

structure ImportResponse where
  deriving DecidableEq, Repr

instance : Message ImportResponse where
  blank := ⟨⟩
  fields _ := []
  readWire m _ := some m

end Specter
