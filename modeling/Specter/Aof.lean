import Specter.Memory

/-!
# The append-only log provider

`DiskKV` answers reads from memory and writes every mutation to a log before it applies it; `New`
rebuilds the memory from the log.  A message is the list of the fields it has on the wire: one
without `optional` is written only if it is not the default.  The checksum is any function of the
data.
-/

namespace Specter

inductive TransferField where
  | simpleValue (b : Bytes)
  | prefixChildren (b : Bytes)
  | leaseToken (n : ℕ)
  deriving DecidableEq, Repr

namespace KVTransfer

def marshal (x : KVTransfer) : List TransferField :=
  (match x.simpleValue with
    | some v => [.simpleValue v]
    | none => []) ++
  x.prefixChildren.map .prefixChildren ++
  (if x.leaseToken = 0 then [] else [.leaseToken x.leaseToken])

def readField (x : KVTransfer) : TransferField → KVTransfer
  | .simpleValue b => { x with simpleValue := some b }
  | .prefixChildren b => { x with prefixChildren := x.prefixChildren ++ [b] }
  | .leaseToken n => { x with leaseToken := n }

def unmarshal (fields : List TransferField) : KVTransfer := fields.foldl readField ⟨none, [], 0⟩

end KVTransfer

inductive MutationType where
  | unknownType
  | simplePut
  | simpleDelete
  | prefixAppend
  | prefixRemove
  | importKeys
  | removeKeys
  deriving DecidableEq, Repr

/-- A logged change.  `value` can be nil, which is not the same as empty. -/
structure Mutation where
  type : MutationType
  key : Bytes
  value : Option Bytes
  keys : List Bytes
  values : List KVTransfer
  deriving DecidableEq, Repr

inductive MutationField where
  | type (t : MutationType)
  | key (b : Bytes)
  | value (b : Bytes)
  | keys (b : Bytes)
  | values (fields : List TransferField)
  deriving DecidableEq, Repr

namespace Mutation

def blank : Mutation := ⟨.unknownType, [], none, [], []⟩

def marshal (m : Mutation) : List MutationField :=
  (if m.type = .unknownType then [] else [.type m.type]) ++
  (if m.key = [] then [] else [.key m.key]) ++
  (match m.value with
    | some (b :: bs) => [.value (b :: bs)]
    | some [] | none => []) ++
  m.keys.map .keys ++
  m.values.map fun x => .values x.marshal

def readField (m : Mutation) : MutationField → Mutation
  | .type t => { m with type := t }
  | .key b => { m with key := b }
  | .value b => { m with value := some b }
  | .keys b => { m with keys := m.keys ++ [b] }
  | .values fields => { m with values := m.values ++ [.unmarshal fields] }

def unmarshal (fields : List MutationField) : Mutation := fields.foldl readField blank

end Mutation

inductive LogVersion where
  | unknownVersion
  | v1
  deriving DecidableEq, Repr

structure LogEntry where
  version : LogVersion
  data : List MutationField
  checksum : ℕ
  deriving DecidableEq, Repr

inductive LogField where
  | version (v : LogVersion)
  | data (d : List MutationField)
  | checksum (n : ℕ)
  deriving DecidableEq, Repr

namespace LogEntry

def marshal (e : LogEntry) : List LogField :=
  (if e.version = .unknownVersion then [] else [.version e.version]) ++
  (if e.data = [] then [] else [.data e.data]) ++
  (if e.checksum = 0 then [] else [.checksum e.checksum])

def readField (e : LogEntry) : LogField → LogEntry
  | .version v => { e with version := v }
  | .data d => { e with data := d }
  | .checksum n => { e with checksum := n }

def unmarshal (fields : List LogField) : LogEntry := fields.foldl readField ⟨.unknownVersion, [], 0⟩

end LogEntry

/-- The entries of the log on disk; the first has index 1. -/
abbrev Wal := List (List LogField)

namespace Wal

def lastIndex (w : Wal) : ℕ := w.length

/-- Only the next index can be written. -/
def write (w : Wal) (index : ℕ) (buf : List LogField) : Option Wal :=
  if index = w.lastIndex + 1 then some (w ++ [buf]) else none

/-- Keeps the entries up to `index`, which has to be one of them. -/
def truncateBack (w : Wal) (index : ℕ) : Option Wal :=
  if index = 0 ∨ w.lastIndex < index then none else some (w.take index)

end Wal

structure DiskKV (hashFn : Bytes → ℕ) where
  memKv : MemoryKV hashFn
  log : Wal
  counter : ℕ

namespace MemoryKV

variable {hashFn : Bytes → ℕ}

def handleMutation (m : MemoryKV hashFn) (mu : Mutation) :
    Except ChordError Unit × MemoryKV hashFn :=
  match mu.type with
  | .simplePut => (.ok (), m.put mu.key mu.value)
  | .simpleDelete => (.ok (), m.delete mu.key)
  | .prefixAppend => m.prefixAppend mu.key (mu.value.getD [])
  | .prefixRemove => (.ok (), m.prefixRemove mu.key (mu.value.getD []))
  | .importKeys => (.ok (), importKeys mu.keys mu.values m)
  | .removeKeys => (.ok (), m.removeKeys mu.keys)
  | .unknownType => (.ok (), m)

end MemoryKV

inductive ReplayError where
  | checksum (index : ℕ)
  | version (index : ℕ)
  | apply (index : ℕ) (e : ChordError)
  deriving DecidableEq, Repr

namespace DiskKV

variable {hashFn : Bytes → ℕ} (crc : List MutationField → ℕ)

def decodeEntry (index : ℕ) (entry : LogEntry) : Except ReplayError Mutation :=
  if entry.checksum ≠ crc entry.data then .error (.checksum index)
  else
    match entry.version with
    | .v1 => .ok (.unmarshal entry.data)
    | .unknownVersion => .error (.version index)

def replayOne (index : ℕ) (buf : List LogField) (m : MemoryKV hashFn) :
    Except ReplayError (MemoryKV hashFn) :=
  match decodeEntry crc index (.unmarshal buf) with
  | .error e => .error e
  | .ok mu =>
    match m.handleMutation mu with
    | (.ok (), m) => .ok m
    | (.error e, m) =>
      -- A rejected duplicate append may survive a crash before rollback.
      -- Its child already exists, so replaying it leaves the state unchanged.
      if mu.type ≠ .prefixAppend ∨ e ≠ .kvPrefixConflict then .error (.apply index e) else .ok m

/-- Replays the entries, the first of which has this index. -/
def replayLogs (index : ℕ) : Wal → MemoryKV hashFn → Except ReplayError (MemoryKV hashFn)
  | [], m => .ok m
  | buf :: rest, m =>
    match replayOne crc index buf m with
    | .error e => .error e
    | .ok m => replayLogs (index + 1) rest m

/-- `New`, on the log found on disk. -/
def new (hashFn : Bytes → ℕ) (log : Wal) : Except ReplayError (DiskKV hashFn) :=
  match replayLogs crc 1 log (.withHashFn hashFn) with
  | .error e => .error e
  | .ok m => .ok ⟨m, log, log.lastIndex + 1⟩

/-- Writes the mutation at the counter; `writeOk` is whether the write itself succeeds. -/
def appendLog (writeOk : Bool) (d : DiskKV hashFn) (mu : Mutation) : Option (DiskKV hashFn) :=
  let data := mu.marshal
  let entry : LogEntry := ⟨.v1, data, crc data⟩
  if writeOk then
    (d.log.write d.counter entry.marshal).map fun log =>
      { d with log := log, counter := d.counter + 1 }
  else none

/-- Takes the last entry off the log; if that fails, the error is only logged. -/
def rollbackOne (d : DiskKV hashFn) : DiskKV hashFn :=
  let counter := d.counter - 1
  { d with log := (d.log.truncateBack (counter - 1)).getD d.log, counter := counter }

/-- Applies the mutation to memory and takes it off the log if memory rejects it. -/
def apply (d : DiskKV hashFn) (mu : Mutation) : Except ChordError Unit × DiskKV hashFn :=
  match d.memKv.handleMutation mu with
  | (.ok (), m) => (.ok (), { d with memKv := m })
  | (.error e, m) => (.error e, rollbackOne { d with memKv := m })

def mutate (writeOk : Bool) (d : DiskKV hashFn) (mu : Mutation) :
    Except ChordError Unit × DiskKV hashFn :=
  match appendLog crc writeOk d mu with
  | some d => d.apply mu
  | none => (.error .other, d)

end DiskKV

/-- The logged operations of the provider. -/
inductive Call where
  | put (key value : Bytes)
  | delete (key : Bytes)
  | prefixAppend (pfx child : Bytes)
  | prefixRemove (pfx child : Bytes)
  | importKeys (keys : List Bytes) (values : List KVTransfer)
  | removeKeys (keys : List Bytes)
  deriving DecidableEq, Repr

namespace Call

def mutation : Call → Mutation
  | put key value => { Mutation.blank with type := .simplePut, key := key, value := some value }
  | delete key => { Mutation.blank with type := .simpleDelete, key := key }
  | prefixAppend pfx child =>
    { Mutation.blank with type := .prefixAppend, key := pfx, value := some child }
  | prefixRemove pfx child =>
    { Mutation.blank with type := .prefixRemove, key := pfx, value := some child }
  | importKeys keys values =>
    { Mutation.blank with type := .importKeys, keys := keys, values := values }
  | removeKeys keys => { Mutation.blank with type := .removeKeys, keys := keys }

end Call

namespace DiskKV

variable {hashFn : Bytes → ℕ} (crc : List MutationField → ℕ)

/-- What the caller gets: RemoveKeys reports success whatever happened. -/
def call (writeOk : Bool) (d : DiskKV hashFn) (c : Call) : Except ChordError Unit × DiskKV hashFn :=
  let (res, d) := mutate crc writeOk d c.mutation
  match c with
  | .removeKeys _ => (.ok (), d)
  | _ => (res, d)

def calls (d : DiskKV hashFn) : List (Call × Bool) → DiskKV hashFn
  | [] => d
  | (c, writeOk) :: rest => calls (call crc writeOk d c).2 rest

def acquire (d : DiskKV hashFn) (lease : Bytes) (ttl now : ℤ) : DiskKV hashFn :=
  { d with memKv := (d.memKv.acquire lease ttl now).2 }

def renew (d : DiskKV hashFn) (lease : Bytes) (ttl now : ℤ) (prevToken : ℕ) : DiskKV hashFn :=
  { d with memKv := (d.memKv.renew lease ttl now prevToken).2 }

def release (d : DiskKV hashFn) (lease : Bytes) (token : ℕ) : DiskKV hashFn :=
  { d with memKv := (d.memKv.release lease token).2 }

/-- Where the process can stop while it serves a mutation. -/
inductive CrashPoint where
  | beforeAppend
  | afterAppend
  | afterApply
  | afterRollback
  deriving DecidableEq, Repr

def logAtCrash (writeOk : Bool) (d : DiskKV hashFn) (c : Call) : CrashPoint → Wal
  | .beforeAppend => d.log
  -- applying the mutation changes memory only
  | .afterAppend | .afterApply => ((appendLog crc writeOk d c.mutation).getD d).log
  | .afterRollback => (mutate crc writeOk d c.mutation).2.log

inductive Op where
  | call (c : Call) (writeOk : Bool)
  | acquire (lease : Bytes) (ttl now : ℤ)
  | renew (lease : Bytes) (ttl now : ℤ) (prevToken : ℕ)
  | release (lease : Bytes) (token : ℕ)
  /-- A crash while the call is served, and a restart. -/
  | crash (c : Call) (writeOk : Bool) (point : CrashPoint)

def op (d : DiskKV hashFn) : Op → Except ReplayError (DiskKV hashFn)
  | .call c writeOk => .ok (call crc writeOk d c).2
  | .acquire lease ttl now => .ok (d.acquire lease ttl now)
  | .renew lease ttl now prevToken => .ok (d.renew lease ttl now prevToken)
  | .release lease token => .ok (d.release lease token)
  | .crash c writeOk point => new crc hashFn (logAtCrash crc writeOk d c point)

def ops (d : DiskKV hashFn) : List Op → Except ReplayError (DiskKV hashFn)
  | [] => .ok d
  | o :: rest =>
    match op crc d o with
    | .error e => .error e
    | .ok d => ops d rest

end DiskKV

end Specter
