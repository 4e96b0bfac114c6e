import Specter.Lib.Base64
import Specter.Lib.BigEndian
import Specter.Ring
import Std.Data.ExtTreeMap.Lemmas

/-!
# Shared configuration

Each server keeps a replica of all documents in a SQLite table.  `Put` checks a token of the version
that is there, `Merge` takes over the greater versions of a snapshot; both are one transaction.  The
digest and the length of a record in JSON are parameters.
-/

namespace Specter.Config

def maxNameBytes : ℕ := 512

def maxValueBytes : ℕ := 256 * 2 ^ 10

def maxDocuments : ℕ := 4096

def maxSnapshotBytes : ℕ := 8 * 2 ^ 20

inductive Error where
  | invalidRecord
  | invalidVersion
  | tooLarge
  | conflict
  | schemaRegression
  | durabilityUncertain
  | revisionExhausted
  /-- `os.ErrExist`. -/
  | exist
  | noDocument
  deriving DecidableEq, Repr

abbrev Digest := Vector UInt8 32

structure Version where
  schema : UInt64
  revision : UInt64
  digest : Digest
  deriving DecidableEq

namespace Version

def bytes (v : Version) : Bytes :=
  BigEndian.toBytes 8 v.schema.toNat ++ BigEndian.toBytes 8 v.revision.toNat ++ v.digest.toList

def decodeVersion (data : Bytes) : Except Error Version :=
  if h : data.length = 48 then
    let v : Version :=
      { schema := .ofNat (BigEndian.ofBytes (data.take 8))
        revision := .ofNat (BigEndian.ofBytes ((data.drop 8).take 8))
        digest := ⟨(data.drop 16).toArray, by simp [h]⟩ }
    if v.schema = 0 ∨ v.revision = 0 then .error .invalidVersion else .ok v
  else .error .invalidVersion

/-- Schema first, so that an older writer cannot defeat a newer format; the digest breaks ties. -/
def compare (v w : Version) : Ordering :=
  ((Ord.compare v.schema.toNat w.schema.toNat).then
    (Ord.compare v.revision.toNat w.revision.toNat)).then
      (BigEndian.compareBytes v.digest.toList w.digest.toList)

def marshalText (v : Version) : List Char := Base64.encode v.bytes

end Version

structure Record where
  name : String
  version : Version
  value : Bytes
  deriving DecidableEq

def isControl (c : Char) : Bool := c.toNat < 0x20 || (0x7f ≤ c.toNat && c.toNat < 0xa0)

def isSpace (c : Char) : Bool :=
  (0x09 ≤ c.toNat && c.toNat ≤ 0x0d) || c.toNat == 0x20 || c.toNat == 0x85 || c.toNat == 0xa0 ||
  c.toNat == 0x1680 || (0x2000 ≤ c.toNat && c.toNat ≤ 0x200a) || c.toNat == 0x2028 ||
  c.toNat == 0x2029 || c.toNat == 0x202f || c.toNat == 0x205f || c.toNat == 0x3000

def validName (name : String) : Bool :=
  name.utf8ByteSize ≠ 0 && name.utf8ByteSize ≤ maxNameBytes &&
    name.toList.all fun c => !isControl c && !isSpace c

/-- The local editing guard of a document; the blank record that stands for none has no name. -/
def Record.token (r : Record) : String :=
  if r.name = "" then ""
  else "v1." ++ String.ofList (Base64.encode r.name.toUTF8.toList) ++ "." ++
    String.ofList r.version.marshalText

section

variable (sha256 : Bytes → Digest) (encodedLen : Record → ℕ)

def Record.validate (r : Record) : Except Error Unit :=
  if !validName r.name then .error .invalidRecord
  else if r.version.schema = 0 ∨ r.version.revision = 0 then .error .invalidRecord
  else if r.value.length > maxValueBytes then .error .tooLarge
  else if r.version.digest ≠ sha256 r.value then .error .invalidRecord
  else .ok ()

def newRecord (name : String) (schema revision : UInt64) (value : Bytes) : Except Error Record :=
  if value.length > maxValueBytes then .error .tooLarge
  else do
    let r : Record := ⟨name, ⟨schema, revision, sha256 value⟩, value⟩
    r.validate sha256
    return r

def addSize (first : Bool) (size : ℕ) (r : Record) : ℕ :=
  size + encodedLen r + if first then 0 else 1

def envelope : ℕ := 25

def checkFrom : Bool → ℕ → List Record → Except Error Unit
  | _, _, [] => .ok ()
  | first, size, r :: rest => do
    r.validate sha256
    let size := addSize encodedLen first size r
    if size > maxSnapshotBytes then throw .tooLarge
    checkFrom false size rest

def checkRecords (records : List Record) : Except Error Unit :=
  if records.length > maxDocuments then .error .tooLarge
  else checkFrom sha256 encodedLen true envelope records

structure Row where
  value : Bytes
  version : Bytes
  deriving DecidableEq

abbrev Table := Std.ExtTreeMap String Row

def scanRecord (name : String) (row : Row) : Except Error Record := do
  let version ← Version.decodeVersion row.version
  let r : Record := ⟨name, version, row.value⟩
  r.validate sha256
  return r

def readRecord (t : Table) (name : String) : Except Error (Option Record) :=
  match t[name]? with
  | none => .ok none
  | some row => do return some (← scanRecord sha256 name row)

def readFrom : ℕ → ℕ → List (String × Row) → Except Error (List Record)
  | _, _, [] => .ok []
  | count, size, (name, row) :: rest => do
    if count = maxDocuments then throw .tooLarge
    let r ← scanRecord sha256 name row
    let size := addSize encodedLen (count = 0) size r
    if size > maxSnapshotBytes then throw .tooLarge
    return r :: (← readFrom (count + 1) size rest)

/-- All documents, in the order of their names. -/
def readRecords (t : Table) : Except Error (List Record) :=
  readFrom sha256 encodedLen 0 envelope t.toList

/-- Inserts the row, or replaces the one of that name if its version is smaller, byte by byte. -/
def writeRecord (t : Table) (r : Record) : ℕ × Table :=
  match t[r.name]? with
  | none => (1, t.insert r.name ⟨r.value, r.version.bytes⟩)
  | some row =>
    if BigEndian.compareBytes r.version.bytes row.version = .gt then
      (1, t.insert r.name ⟨r.value, r.version.bytes⟩)
    else (0, t)

/-- Whether any row was affected, and the table. -/
def writeRecords : List Record → Table → Bool × Table
  | [], t => (false, t)
  | r :: rest, t =>
    let (count, t) := writeRecord t r
    let (changed, t) := writeRecords rest t
    (count ≠ 0 || changed, t)

/-- How a commit ends: a failed one may have taken effect or not. -/
inductive Commit where
  | done
  | failed (kept : Bool)
  deriving DecidableEq, Repr

/-- One transaction: the table is checked before the change, and after it if there is one. -/
def write {α : Type} (commit : Commit) (change : Table → Except Error (α × Bool × Table))
    (t : Table) : Except Error α × Table :=
  match readRecords sha256 encodedLen t with
  | .error e => (.error e, t)
  | .ok _ =>
    match change t with
    | .error e => (.error e, t)
    | .ok (a, false, _) => (.ok a, t)
    | .ok (a, true, t') =>
      match readRecords sha256 encodedLen t' with
      | .error e => (.error e, t)
      | .ok _ =>
        match commit with
        | .done => (.ok a, t')
        | .failed kept => (.error .durabilityUncertain, if kept then t' else t)

/-- The record a `Put` writes over the current one. -/
def nextRecord (name : String) (schema : UInt64) (value : Bytes) (current : Option Record) :
    Except Error Record :=
  match current with
  | none => newRecord sha256 name schema 1 value
  | some r =>
    if schema < r.version.schema then .error .schemaRegression
    else if r.version.revision = .ofNat (2 ^ 64 - 1) then .error .revisionExhausted
    else newRecord sha256 name schema (r.version.revision + 1) value

def currentToken (current : Option Record) : String := (current.map Record.token).getD ""

/-- The change of a `Put` in its transaction. -/
def putChange (name : String) (schema : UInt64) (value : Bytes) (expectedToken : String)
    (t : Table) : Except Error (Record × Bool × Table) := do
  let current ← readRecord sha256 t name
  if currentToken current ≠ expectedToken then throw .conflict
  let r ← nextRecord sha256 name schema value current
  return (r, writeRecords [r] t)

def put (commit : Commit) (name : String) (schema : UInt64) (value : Bytes)
    (expectedToken : String) : Table → Except Error Record × Table :=
  write sha256 encodedLen commit (putChange sha256 name schema value expectedToken)

/-- Initial documents, only where there is none. -/
def init (commit : Commit) (records : List Record) (t : Table) : Except Error Unit × Table :=
  if records.length = 0 then (.error .noDocument, t)
  else
    match checkRecords sha256 encodedLen records with
    | .error e => (.error e, t)
    | .ok _ =>
      write sha256 encodedLen commit
        (fun t => if !t.isEmpty then .error .exist else .ok ((), writeRecords records t)) t

def merge (commit : Commit) (records : List Record) (t : Table) : Except Error Unit × Table :=
  match checkRecords sha256 encodedLen records with
  | .error e => (.error e, t)
  | .ok _ => write sha256 encodedLen commit (fun t => .ok ((), writeRecords records t)) t

def snapshot (t : Table) : Except Error (List Record) := do
  let records ← readRecords sha256 encodedLen t
  checkRecords sha256 encodedLen records
  return records

/-! ## The store over time

The write transactions of a store are serial, so its history is a list of calls. -/

inductive Call where
  | put (name : String) (schema : UInt64) (value : Bytes) (expectedToken : String)
  | init (records : List Record)
  | merge (records : List Record)

/-- A `Put` returns its record. -/
def runCall (commit : Commit) : Call → Table → Except Error (Option Record) × Table
  | .put name schema value expectedToken, t =>
    let (result, t) := put sha256 encodedLen commit name schema value expectedToken t
    (result.map some, t)
  | .init records, t =>
    let (result, t) := init sha256 encodedLen commit records t
    (result.map fun _ => none, t)
  | .merge records, t =>
    let (result, t) := merge sha256 encodedLen commit records t
    (result.map fun _ => none, t)

structure Made where
  call : Call
  before : Table
  result : Except Error (Option Record)
  after : Table

def history : Table → List (Commit × Call) → List Made
  | _, [] => []
  | t, (commit, call) :: rest =>
    let (result, t') := runCall sha256 encodedLen commit call t
    ⟨call, t, result, t'⟩ :: history t' rest

end

end Specter.Config
