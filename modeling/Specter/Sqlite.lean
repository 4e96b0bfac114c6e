import Specter.Kv
import Mathlib.Data.Nat.Notation

/-!
# The SQLite provider

Four tables: the simple values, the children of each prefix, the lease tokens, and one tracker row
for every key that has any of these, from which ranges and listings are answered.  Every call that
writes is one transaction.  Any of its statements, or the commit, may fail (`fault`); then
everything is rolled back and the call returns the error.
-/

namespace Specter

def simpleFlag : BitVec 8 := 1

def prefixFlag : BitVec 8 := 2

def leaseFlag : BitVec 8 := 4

def removeKeysBatchSize : ℕ := 200

/-- Keeps the store's nil-as-empty behaviour. -/
def bindBytesAsBlob : Option Bytes → Bytes
  | none => []
  | some v => v

def bindUint64AsInt64 (v : ℕ) : ℤ := toInt64 v

def scanInt64AsUint64 (v : ℤ) : ℕ := (v % 2 ^ 64).toNat

structure KeyTracker where
  hash : ℤ
  flags : BitVec 8
  deriving DecidableEq, Repr

/-- The rows of the tables, by primary key; those of `prefix_entries` are grouped by prefix. -/
structure Tables where
  keyTrackers : Std.ExtTreeMap Bytes KeyTracker
  simpleEntries : Std.ExtTreeMap Bytes Bytes
  prefixEntries : Std.ExtTreeMap Bytes (Std.ExtTreeSet Bytes)
  leaseEntries : Std.ExtTreeMap Bytes ℤ

namespace Tables

def empty : Tables := ⟨∅, ∅, ∅, ∅⟩

/-! ## Statements

Those whose number of affected rows is looked at return it. -/

def querySimplePut (key value : Bytes) (t : Tables) : Tables :=
  { t with simpleEntries := t.simpleEntries.insert key value }

def querySimpleDel (key : Bytes) (t : Tables) : Tables :=
  { t with simpleEntries := t.simpleEntries.erase key }

def children (t : Tables) (pfx : Bytes) : Std.ExtTreeSet Bytes := t.prefixEntries[pfx]?.getD ∅

def setChildren (pfx : Bytes) (cs : Std.ExtTreeSet Bytes) (t : Tables) : Tables :=
  { t with prefixEntries := t.prefixEntries.insert pfx cs }

def queryPrefixAppend (pfx child : Bytes) (t : Tables) : ℕ × Tables :=
  if child ∈ t.children pfx then (0, t)
  else (1, t.setChildren pfx ((t.children pfx).insert child))

def queryPrefixRemove (pfx child : Bytes) (t : Tables) : Tables :=
  t.setChildren pfx ((t.children pfx).erase child)

def queryPrefixCount (pfx : Bytes) (t : Tables) : ℕ := (t.children pfx).size

def queryLeaseImport (owner : Bytes) (token : ℤ) (t : Tables) : Tables :=
  { t with leaseEntries := t.leaseEntries.insert owner token }

def queryLeaseAcquire (owner : Bytes) (token now : ℤ) (t : Tables) : ℕ × Tables :=
  match t.leaseEntries[owner]? with
  | none => (1, t.queryLeaseImport owner token)
  | some curr => if curr ≤ now then (1, t.queryLeaseImport owner token) else (0, t)

def queryLeaseRenew (token : ℤ) (owner : Bytes) (prev now : ℤ) (t : Tables) : ℕ × Tables :=
  match t.leaseEntries[owner]? with
  | none => (0, t)
  | some curr => if curr = prev ∧ curr > now then (1, t.queryLeaseImport owner token) else (0, t)

def queryLeaseRelease (owner : Bytes) (token : ℤ) (t : Tables) : ℕ × Tables :=
  match t.leaseEntries[owner]? with
  | none => (0, t)
  | some curr =>
    if curr = token then (1, { t with leaseEntries := t.leaseEntries.erase owner }) else (0, t)

/-- The row is inserted, or takes the place of the one the key has. -/
def trackerSet (key : Bytes) (row : KeyTracker) (t : Tables) : Tables :=
  { t with keyTrackers := t.keyTrackers.insert key row }

def queryTrackerDelete (key : Bytes) (t : Tables) : Tables :=
  { t with keyTrackers := t.keyTrackers.erase key }

/-- The flags to take away: that of the prefix only if no child is left. -/
def goneFlags (t : Tables) (key : Bytes) (removeFlags : BitVec 8) : BitVec 8 :=
  if removeFlags &&& prefixFlag ≠ 0 ∧ t.queryPrefixCount key > 0 then removeFlags &&& ~~~prefixFlag
  else removeFlags

/-- Adjusts the tracker row of `key` to the flags it gains and loses. -/
def updateKeyTracker (hashFn : Bytes → ℕ) (key : Bytes) (addFlags removeFlags : BitVec 8)
    (t : Tables) : Except ChordError Tables :=
  match t.keyTrackers[key]? with
  | none =>
    if addFlags ≠ 0 then .ok (t.trackerSet key ⟨bindUint64AsInt64 (hashFn key), addFlags⟩)
    else .ok t
  | some row =>
    -- consistency check: with another hash function the instance refuses to modify
    if scanInt64AsUint64 row.hash ≠ hashFn key then .error .kvHashFnChanged
    else
      let newFlags := (row.flags ||| addFlags) &&& ~~~t.goneFlags key removeFlags
      if newFlags = 0 then .ok (t.queryTrackerDelete key)
      else .ok (t.trackerSet key { row with flags := newFlags })

/-- Runs `fn` in a transaction, which is rolled back if `fn` returns an error. -/
def withWriteTx {α : Type} (fault : Bool) (fn : Tables → Except ChordError (α × Tables))
    (t : Tables) : Except ChordError α × Tables :=
  if fault then (.error .other, t)
  else
    match fn t with
    | .error e => (.error e, t)
    | .ok (a, t') => (.ok a, t')

section calls

variable (hashFn : Bytes → ℕ) (fault : Bool)

def put (key : Bytes) (value : Option Bytes) : Tables → Except ChordError Reply × Tables :=
  withWriteTx fault fun t => do
    let t ← (t.querySimplePut key (bindBytesAsBlob value)).updateKeyTracker hashFn key simpleFlag 0
    return (.done, t)

def get (t : Tables) (key : Bytes) : Option Bytes := t.simpleEntries[key]?

def delete (key : Bytes) : Tables → Except ChordError Reply × Tables :=
  withWriteTx fault fun t => do
    let t ← (t.querySimpleDel key).updateKeyTracker hashFn key 0 simpleFlag
    return (.done, t)

def prefixAppend (pfx child : Bytes) : Tables → Except ChordError Reply × Tables :=
  withWriteTx fault fun t => do
    let (n, t) := t.queryPrefixAppend pfx child
    if n = 0 then throw .kvPrefixConflict
    let t ← t.updateKeyTracker hashFn pfx prefixFlag 0
    return (.done, t)

def prefixRemove (pfx child : Bytes) : Tables → Except ChordError Reply × Tables :=
  withWriteTx fault fun t => do
    let t ← (t.queryPrefixRemove pfx child).updateKeyTracker hashFn pfx 0 prefixFlag
    return (.done, t)

def acquire (lease : Bytes) (ttl now : ℤ) (t : Tables) : Except ChordError Reply × Tables :=
  match durationGuard ttl with
  | none => (.error .kvLeaseInvalidTTL, t)
  | some ttl =>
    t.withWriteTx fault fun t => do
      let next ← nextToken now ttl 0
      let (n, t) := t.queryLeaseAcquire lease (bindUint64AsInt64 next) now
      if n = 0 then throw .kvLeaseConflict
      let t ← t.updateKeyTracker hashFn lease leaseFlag 0
      return (.token next, t)

def renew (lease : Bytes) (ttl now : ℤ) (prevToken : ℕ) (t : Tables) :
    Except ChordError Reply × Tables :=
  match durationGuard ttl with
  | none => (.error .kvLeaseInvalidTTL, t)
  | some ttl =>
    t.withWriteTx fault fun t => do
      let next ← nextToken now ttl prevToken
      let (n, t) :=
        t.queryLeaseRenew (bindUint64AsInt64 next) lease (bindUint64AsInt64 prevToken) now
      if n = 0 then throw .kvLeaseExpired
      let t ← t.updateKeyTracker hashFn lease leaseFlag 0
      return (.token next, t)

def release (lease : Bytes) (token : ℕ) : Tables → Except ChordError Reply × Tables :=
  withWriteTx fault fun t => do
    let (n, t) := t.queryLeaseRelease lease (bindUint64AsInt64 token)
    if n = 0 then throw .kvLeaseExpired
    let t ← t.updateKeyTracker hashFn lease 0 leaseFlag
    return (.done, t)

/-! ### Moving keys -/

/-- The simple value an import stores: a transfer with nothing at all comes from a sender that
leaves out an empty value. -/
def importedSimpleValue (x : KVTransfer) : Option Bytes :=
  match x.simpleValue with
  | some v => some v
  | none => if x.prefixChildren.length = 0 ∧ x.leaseToken = 0 then some [] else none

def importSimple (key : Bytes) (x : KVTransfer) (t : Tables) : Tables :=
  match importedSimpleValue x with
  | some v => t.querySimplePut key v
  | none => t

/-- A child that is there already is left alone. -/
def importChildren (key : Bytes) (x : KVTransfer) (t : Tables) : Tables :=
  x.prefixChildren.foldl (fun t child => (t.queryPrefixAppend key child).2) t

def importLease (key : Bytes) (x : KVTransfer) (t : Tables) : Tables :=
  if x.leaseToken ≠ 0 then t.queryLeaseImport key (bindUint64AsInt64 x.leaseToken) else t

/-- The statements for one key of an import. -/
def importRows (key : Bytes) (x : KVTransfer) (t : Tables) : Tables :=
  ((t.importSimple key x).importChildren key x).importLease key x

def importFlags (x : KVTransfer) : BitVec 8 :=
  (if (importedSimpleValue x).isSome then simpleFlag else 0) |||
  (if x.prefixChildren.length > 0 then prefixFlag else 0) |||
  (if x.leaseToken ≠ 0 then leaseFlag else 0)

def importOne (key : Bytes) (x : KVTransfer) (t : Tables) : Except ChordError Tables :=
  (t.importRows key x).updateKeyTracker hashFn key (importFlags x) 0

/-- The keys of an import, one after the other; `none` is a nil value. -/
def importEach : List Bytes → List (Option KVTransfer) → Tables → Except ChordError Tables
  | key :: keys, some x :: values, t => do importEach keys values (← importOne hashFn key x t)
  | _ :: _, none :: _, _ => .error .other
  | _, _, t => .ok t

def importKeys (keys : List Bytes) (values : List (Option KVTransfer)) (t : Tables) :
    Except ChordError Unit × Tables :=
  if keys.length ≠ values.length then (.error .other, t)
  else
    t.withWriteTx fault fun t => do
      let t ← importEach hashFn keys values t
      return ((), t)

def exportOne (t : Tables) (key : Bytes) : KVTransfer where
  simpleValue := t.simpleEntries[key]?
  prefixChildren := (t.children key).toList
  leaseToken := scanInt64AsUint64 (t.leaseEntries[key]?.getD 0)

def exportKeys (t : Tables) (keys : List Bytes) : List KVTransfer := keys.map t.exportOne

/-- Deletes the rows of these keys from every table. -/
def removeBatch (batch : List Bytes) (t : Tables) : Tables where
  simpleEntries := batch.foldl .erase t.simpleEntries
  prefixEntries := batch.foldl .erase t.prefixEntries
  leaseEntries := batch.foldl .erase t.leaseEntries
  keyTrackers := batch.foldl .erase t.keyTrackers

def removeBatches (keys : List Bytes) (t : Tables) : Tables :=
  if _h : keys = [] then t
  else removeBatches (keys.drop removeKeysBatchSize) (t.removeBatch (keys.take removeKeysBatchSize))
termination_by keys.length
decreasing_by
  have := List.length_pos_iff.2 ‹_›
  simp only [removeKeysBatchSize, List.length_drop]
  omega

def removeKeys (keys : List Bytes) (t : Tables) : Except ChordError Unit × Tables :=
  if keys.length = 0 then (.ok (), t)
  else t.withWriteTx fault fun t => .ok ((), t.removeBatches keys)

end calls

/-- The condition of the range query, on a tracker's hash. -/
def inRange (low high : ℕ) (hash : ℤ) : Bool :=
  let lowI := bindUint64AsInt64 low
  let highI := bindUint64AsInt64 high
  if high > low then (hash > lowI && hash < highI) || hash == highI
  else hash > lowI || hash < highI || hash == highI

def rangeKeys (t : Tables) (low high : ℕ) : List Bytes :=
  ((t.keyTrackers.toList.filter fun (_, row) => inRange low high row.hash).mergeSort
    fun a b => a.2.hash ≤ b.2.hash).map Prod.fst

/-- The kinds of content the flags name. -/
def flagged (key : Bytes) (flags : BitVec 8) : List KeyComposite :=
  (if flags &&& simpleFlag ≠ 0 then [⟨key, .simple⟩] else []) ++
  (if flags &&& prefixFlag ≠ 0 then [⟨key, .prefixed⟩] else []) ++
  (if flags &&& leaseFlag ≠ 0 then [⟨key, .lease⟩] else [])

def listKeys (t : Tables) (pfx : Bytes) : List KeyComposite :=
  t.keyTrackers.toList.flatMap fun (key, row) =>
    if pfx.isPrefixOf key then flagged key row.flags else []

def handle (hashFn : Bytes → ℕ) (fault : Bool) (r : Request) (t : Tables) :
    Except ChordError Reply × Tables :=
  match r with
  | .put key value => t.put hashFn fault key value
  | .get key => (.ok (.value (t.get key)), t)
  | .delete key => t.delete hashFn fault key
  | .prefixAppend key child => t.prefixAppend hashFn fault key child
  | .prefixList key => (.ok (.children (t.children key).toList), t)
  | .prefixContains key child => (.ok (.contains ((t.children key).contains child)), t)
  | .prefixRemove key child => t.prefixRemove hashFn fault key child
  | .acquire key ttl now => t.acquire hashFn fault key ttl now
  | .renew key ttl now prevToken => t.renew hashFn fault key ttl now prevToken
  | .release key token => t.release hashFn fault key token

/-- What the tables hold of one key. -/
def val (t : Tables) (key : Bytes) : KvValue where
  simple := t.simpleEntries[key]?
  lease := scanInt64AsUint64 (t.leaseEntries[key]?.getD 0)
  children := t.children key

inductive StoreCall where
  | request (r : Request)
  | importKeys (keys : List Bytes) (values : List (Option KVTransfer))
  | removeKeys (keys : List Bytes)

def StoreCall.run (hashFn : Bytes → ℕ) (fault : Bool) (call : StoreCall) (t : Tables) :
    Except ChordError Reply × Tables :=
  match call with
  | .request r => t.handle hashFn fault r
  | .importKeys keys values =>
    let (res, t) := t.importKeys hashFn fault keys values
    (res.map fun _ => .done, t)
  | .removeKeys keys =>
    let (res, t) := t.removeKeys fault keys
    (res.map fun _ => .done, t)

/-- Calls one after the other, each with whether its transaction fails. -/
def runCalls (hashFn : Bytes → ℕ) (calls : List (StoreCall × Bool)) (t : Tables) : Tables :=
  calls.foldl (fun t (call, fault) => (call.run hashFn fault t).2) t

end Tables

end Specter
