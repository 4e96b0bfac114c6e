import Specter.Ring
import Mathlib.Algebra.Group.Int.Defs
import Mathlib.Data.Int.Notation

/-!
# Key-value requests and the storage behind a node

The requests a node serves and the interface of a storage provider, seen from outside through
`KVProvider.val`: what each key holds.  `LawfulProvider` says what the operations do to that view;
it is all that the membership protocol relies on.
-/

namespace Specter

/-- What is kept under one key: a simple value (`none` is no value, `some []` an empty one), a
lease token (`0` is no lease), and the children of a prefix, in ascending order. -/
structure KvValue where
  simple : Option Bytes
  lease : ℕ
  children : Std.ExtTreeSet Bytes

namespace KvValue

def newValue : KvValue := ⟨none, 0, ∅⟩

def isDeleted (v : KvValue) : Bool :=
  v.simple.isNone && v.children.size == 0 && v.lease == 0

end KvValue

/-- What is sent of one key when it moves to another node. -/
structure KVTransfer where
  simpleValue : Option Bytes
  prefixChildren : List Bytes
  leaseToken : ℕ
  deriving DecidableEq, Repr

inductive KeyType where
  | simple
  | prefixed
  | lease
  deriving DecidableEq, Repr

structure KeyComposite where
  key : Bytes
  type : KeyType
  deriving DecidableEq, Repr

/-- The KV requests.  A lease request carries the reading of the clock it is served at, and its
time to live, both in nanoseconds. -/
inductive Request where
  | put (key : Bytes) (value : Option Bytes)
  | get (key : Bytes)
  | delete (key : Bytes)
  | prefixAppend (key child : Bytes)
  | prefixList (key : Bytes)
  | prefixContains (key child : Bytes)
  | prefixRemove (key child : Bytes)
  | acquire (key : Bytes) (ttl now : ℤ)
  | renew (key : Bytes) (ttl now : ℤ) (prevToken : ℕ)
  | release (key : Bytes) (token : ℕ)
  deriving DecidableEq, Repr

namespace Request

def key : Request → Bytes
  | put key _ | get key | delete key | prefixAppend key _ | prefixList key | prefixContains key _
  | prefixRemove key _ | acquire key _ _ | renew key _ _ _ | release key _ => key

end Request

inductive Reply where
  | done
  | value (v : Option Bytes)
  | children (cs : List Bytes)
  | contains (b : Bool)
  | token (n : ℕ)
  deriving DecidableEq, Repr

def maxInt64 : ℤ := 2 ^ 63 - 1

def second : ℤ := 1000000000

/-- A token read as a signed 64-bit number. -/
def toInt64 (token : ℕ) : ℤ := if token < 2 ^ 63 then token else token - 2 ^ 64

/-- The time to live, truncated to seconds, if at least one is left. -/
def durationGuard (t : ℤ) : Option ℤ :=
  let td := t - t.tmod second
  if td < second then none else some td

/-- The next token of a lease: an expiry that advances the previous token. -/
def nextToken (now ttl : ℤ) (previous : ℕ) : Except ChordError ℕ :=
  if now < 0 ∨ ttl < second ∨ ttl > maxInt64 - now then .error .kvLeaseInvalidTTL
  else if (previous : ℤ) ≥ maxInt64 then .error .kvLeaseExpired
  else .ok (max (now + ttl).toNat (previous + 1))

/-! ## One key

What a request answers and leaves under the key it is about. -/

namespace KvValue

def acquire (v : KvValue) (ttl now : ℤ) : Except ChordError Reply × KvValue :=
  match durationGuard ttl with
  | none => (.error .kvLeaseInvalidTTL, v)
  | some ttl =>
    match nextToken now ttl 0 with
    | .error e => (.error e, v)
    | .ok next =>
      if (v.lease : ℤ) > now then (.error .kvLeaseConflict, v)
      else (.ok (.token next), { v with lease := next })

def renew (v : KvValue) (ttl now : ℤ) (prevToken : ℕ) : Except ChordError Reply × KvValue :=
  match durationGuard ttl with
  | none => (.error .kvLeaseInvalidTTL, v)
  | some ttl =>
    match nextToken now ttl prevToken with
    | .error e => (.error e, v)
    | .ok next =>
      if v.lease = 0 then (.error .kvLeaseExpired, v)
      else if now ≥ toInt64 v.lease then (.error .kvLeaseExpired, v)
      else if v.lease ≠ prevToken then (.error .kvLeaseExpired, v)
      else (.ok (.token next), { v with lease := next })

def release (v : KvValue) (token : ℕ) : Except ChordError Reply × KvValue :=
  if v.lease = token then (.ok .done, { v with lease := 0 }) else (.error .kvLeaseExpired, v)

def handle (v : KvValue) : Request → Except ChordError Reply × KvValue
  | .put _ value => (.ok .done, { v with simple := value })
  | .get _ => (.ok (.value v.simple), v)
  | .delete _ => (.ok .done, { v with simple := none })
  | .prefixAppend _ child =>
    if child ∈ v.children then (.error .kvPrefixConflict, v)
    else (.ok .done, { v with children := v.children.insert child })
  | .prefixList _ => (.ok (.children v.children.toList), v)
  | .prefixContains _ child => (.ok (.contains (v.children.contains child)), v)
  | .prefixRemove _ child => (.ok .done, { v with children := v.children.erase child })
  | .acquire _ ttl now => v.acquire ttl now
  | .renew _ ttl now prevToken => v.renew ttl now prevToken
  | .release _ token => v.release token

def transfer (v : KvValue) : KVTransfer := ⟨v.simple, v.children.toList, v.lease⟩

end KvValue

/-- The operations of a storage provider that a node uses (`chord.KVProvider`). -/
class KVProvider (S : Type) where
  empty : S
  val : S → Bytes → KvValue
  handle : Request → S → Except ChordError Reply × S
  importKeys : List Bytes → List KVTransfer → S → Except ChordError Unit × S
  exportKeys : List Bytes → S → Except ChordError (List KVTransfer)
  rangeKeys : ℕ → ℕ → S → Except ChordError (List Bytes)
  removeKeys : List Bytes → S → Except ChordError Unit × S

open KVProvider in
/-- The operations succeed, as operations on a map from keys to what they hold. -/
class LawfulProvider (S : Type) [KVProvider S] (hash : Bytes → ℕ) : Prop where
  val_empty : ∀ k, val (empty : S) k = .newValue
  handle_fst : ∀ (r : Request) (s : S), (handle r s).1 = ((val s r.key).handle r).1
  handle_key : ∀ (r : Request) (s : S),
    val (handle r s).2 r.key = ((val s r.key).handle r).2
  handle_ne : ∀ (r : Request) (s : S) (k : Bytes), k ≠ r.key → val (handle r s).2 k = val s k
  rangeKeys : ∀ (low high : ℕ) (s : S), ∃ keys, rangeKeys low high s = .ok keys ∧
    ∀ k, k ∈ keys ↔ between low (hash k) high true = true ∧ (val s k).isDeleted = false
  exportKeys : ∀ (keys : List Bytes) (s : S),
    exportKeys keys s = .ok (keys.map fun k => (val s k).transfer)
  importKeys : ∀ (keys : List Bytes) (s s' : S), (∀ k ∈ keys, (val s k).isDeleted) →
    (importKeys keys (keys.map fun k => (val s' k).transfer) s).1 = .ok () ∧
      ∀ k, val (importKeys keys (keys.map fun k => (val s' k).transfer) s).2 k =
        if k ∈ keys then val s' k else val s k
  removeKeys : ∀ (keys : List Bytes) (s : S), (removeKeys keys s).1 = .ok () ∧
    ∀ k, val (removeKeys keys s).2 k = if k ∈ keys then .newValue else val s k

end Specter
