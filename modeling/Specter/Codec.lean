import Specter.Config
import Specter.Lib.Json

/-!
# Snapshots as JSON

All documents of a store as one JSON text, versions and values in base64.  The names of fields are
compared without case; an unknown field is an error, `null` leaves a field as it is, and a repeated
field is read again.  A text is its characters, its size the number of bytes in UTF-8.
-/

namespace Specter.Config

def textSize (text : List Char) : ℕ := (text.map Char.utf8Size).sum

def Record.json (r : Record) : Json.Value :=
  .obj ([("name".toList, .str r.name.toList), ("version".toList, .str r.version.marshalText)] ++
    if r.value = [] then [] else [("value".toList, .str (Base64.encodeStd r.value))])

def jsonLen (r : Record) : ℕ := textSize (Json.print r.json)

def snapshotFormat : ℕ := 1

def formatNumber : Json.Number := ⟨['1'], by decide, by decide⟩

def snapshotJson (records : List Record) : Json.Value :=
  .obj [("format".toList, .num formatNumber), ("records".toList, .arr (records.map Record.json))]

def Codec.encodeSnapshot (sha256 : Bytes → Digest) (records : List Record) :
    Except Error (List Char) := do
  checkRecords sha256 jsonLen records
  return Json.print (snapshotJson records)

/-- Case folding, for the letters of the names of fields. -/
def foldChar (c : Char) : Char :=
  if 'A' ≤ c ∧ c ≤ 'Z' then .ofNat (c.toNat + 32)
  else if c.toNat = 0x17f then 's'
  else if c.toNat = 0x212a then 'k'
  else c

def isField (name : String) (key : List Char) : Bool := key.map foldChar = name.toList

/-- Digits only, within the width of the integer. -/
def readUint (bits : ℕ) (n : Json.Number) : Option ℕ :=
  if n.text.all Json.isDigit then
    let v := n.text.foldl (fun v c => v * 10 + (c.toNat - '0'.toNat)) 0
    if v < 2 ^ bits then some v else none
  else none

def readString (current : String) : Json.Value → Option String
  | .null => some current
  | .str s => some (.ofList s)
  | _ => none

def Version.unmarshalText (text : List Char) : Option Version :=
  if textSize text ≠ 64 then none
  else (Base64.decodeStrict text).bind fun data => (decodeVersion data).toOption

def readVersion (current : Version) : Json.Value → Option Version
  | .null => some current
  | .str s => Version.unmarshalText s
  | _ => none

def readByte : Json.Value → Option UInt8
  | .null => some 0
  | .num n => (readUint 8 n).map UInt8.ofNat
  | _ => none

/-- Base64, or an array of numbers. -/
def readBytes : Json.Value → Option Bytes
  | .null => some []
  | .str s => Base64.decodeStd s
  | .arr xs => xs.mapM readByte
  | _ => none

def blankRecord : Record := ⟨"", ⟨0, 0, Vector.replicate 32 0⟩, []⟩

def Record.readMember (r : Record) (m : List Char × Json.Value) : Option Record :=
  if isField "name" m.1 then (readString r.name m.2).map fun name => { r with name }
  else if isField "version" m.1 then
    (readVersion r.version m.2).map fun version => { r with version }
  else if isField "value" m.1 then (readBytes m.2).map fun value => { r with value }
  else none

def decodeRecord : Json.Value → Option Record
  | .null => some blankRecord
  | .obj ms => ms.foldlM Record.readMember blankRecord
  | _ => none

/-- `snapshotRecords.UnmarshalJSON`, with no records read before. -/
def decodeRecords : Json.Value → Option (List Record)
  | .arr xs => if xs.length > maxDocuments then none else xs.mapM decodeRecord
  | _ => none

structure Snapshot where
  format : ℕ
  records : Option (List Record)

def Snapshot.readMember (s : Snapshot) (m : List Char × Json.Value) : Option Snapshot :=
  if isField "format" m.1 then
    match m.2 with
    | .null => some s
    | .num n => (readUint 64 n).map fun format => { s with format }
    | _ => none
  else if isField "records" m.1 then
    -- records are not repeated
    if s.records.isSome then none
    else (decodeRecords m.2).map fun records => { s with records := some records }
  else none

def decodeState : Json.Value → Option Snapshot
  | .null => some ⟨0, none⟩
  | .obj ms => ms.foldlM Snapshot.readMember ⟨0, none⟩
  | _ => none

/-- `none` is an error. -/
def Codec.decodeSnapshot (sha256 : Bytes → Digest) (data : List Char) : Option (List Record) :=
  if textSize data > maxSnapshotBytes then none
  else do
    let value ← Json.parse data
    let state ← decodeState value
    let records ← state.records
    if state.format ≠ snapshotFormat then none
    else
      match checkRecords sha256 jsonLen records with
      | .error _ => none
      | .ok _ => some records

end Specter.Config
