import Specter.Kv

/-!
# The in-memory provider

`MemoryKV` keeps its keys in two levels, first by hash and then by key, both in ascending order.  A
row stays when it is emptied, so whether a row exists says nothing; what it holds does.
-/

namespace Specter

structure MemoryKV (hashFn : Bytes → ℕ) where
  s : Std.ExtTreeMap ℕ (Std.ExtTreeMap Bytes KvValue)
  hashed : ∀ p kMap, s[p]? = some kMap → ∀ k, k ∈ kMap → hashFn k = p

namespace MemoryKV

variable {hashFn : Bytes → ℕ} (m : MemoryKV hashFn)

def withHashFn (hashFn : Bytes → ℕ) : MemoryKV hashFn where
  s := ∅
  hashed p kMap h := by simp at h

def bucket (p : ℕ) : Std.ExtTreeMap Bytes KvValue := m.s[p]?.getD ∅

theorem bucket_hashed {p : ℕ} {k : Bytes} (h : k ∈ m.bucket p) : hashFn k = p := by
  unfold bucket at h
  rcases hp : m.s[p]? with _ | kMap
  · simp [hp] at h
  · rw [hp] at h
    exact m.hashed p kMap hp k h

def lookupVal (key : Bytes) : Option KvValue :=
  match m.s[hashFn key]? with
  | none => none
  | some kMap => kMap[key]?

def storeVal (key : Bytes) (v : KvValue) : MemoryKV hashFn where
  s := m.s.insert (hashFn key) ((m.bucket (hashFn key)).insert key v)
  hashed p kMap h k hk := by
    rw [Std.ExtTreeMap.getElem?_insert] at h
    split_ifs at h with hp
    · have hp' : hashFn key = p := Std.LawfulEqCmp.eq_of_compare hp
      simp only [Option.some.injEq] at h
      subst h hp'
      rcases Std.ExtTreeMap.mem_insert.1 hk with hk | hk
      · rw [Std.LawfulEqCmp.eq_of_compare hk]
      · exact m.bucket_hashed hk
    · exact m.hashed p kMap h k hk

/-- The row of `key`, made if it does not exist yet. -/
def fetchVal (key : Bytes) : KvValue × MemoryKV hashFn :=
  match m.lookupVal key with
  | some v => (v, m)
  | none => (.newValue, m.storeVal key .newValue)

def deleteAll (key : Bytes) : MemoryKV hashFn where
  s := if hashFn key ∈ m.s then m.s.insert (hashFn key) ((m.bucket (hashFn key)).erase key) else m.s
  hashed p kMap h k hk := by
    split_ifs at h with hm
    · rw [Std.ExtTreeMap.getElem?_insert] at h
      split_ifs at h with hp
      · have hp' : hashFn key = p := Std.LawfulEqCmp.eq_of_compare hp
        simp only [Option.some.injEq] at h
        subst h hp'
        exact m.bucket_hashed (Std.ExtTreeMap.mem_of_mem_erase hk)
      · exact m.hashed p kMap h k hk
    · exact m.hashed p kMap h k hk

def put (key : Bytes) (value : Option Bytes) : MemoryKV hashFn :=
  let (v, m) := m.fetchVal key
  m.storeVal key { v with simple := value }

def get (key : Bytes) : Option Bytes :=
  match m.lookupVal key with
  | none => none
  | some v => v.simple

def delete (key : Bytes) : MemoryKV hashFn :=
  let (v, m) := m.fetchVal key
  m.storeVal key { v with simple := none }

def prefixAppend (key child : Bytes) : Except ChordError Unit × MemoryKV hashFn :=
  let (v, m) := m.fetchVal key
  if child ∈ v.children then (.error .kvPrefixConflict, m)
  else (.ok (), m.storeVal key { v with children := v.children.insert child })

def prefixList (key : Bytes) : List Bytes :=
  match m.lookupVal key with
  | none => []
  | some v => v.children.toList

def prefixContains (key child : Bytes) : Bool :=
  match m.lookupVal key with
  | none => false
  | some v => v.children.contains child

def prefixRemove (key needle : Bytes) : MemoryKV hashFn :=
  let (v, m) := m.fetchVal key
  m.storeVal key { v with children := v.children.erase needle }

def acquire (lease : Bytes) (ttl now : ℤ) : Except ChordError Reply × MemoryKV hashFn :=
  match durationGuard ttl with
  | none => (.error .kvLeaseInvalidTTL, m)
  | some ttl =>
    let (v, m) := m.fetchVal lease
    match nextToken now ttl 0 with
    | .error e => (.error e, m)
    | .ok next =>
      if (v.lease : ℤ) > now then (.error .kvLeaseConflict, m)
      else (.ok (.token next), m.storeVal lease { v with lease := next })

def renew (lease : Bytes) (ttl now : ℤ) (prevToken : ℕ) :
    Except ChordError Reply × MemoryKV hashFn :=
  match durationGuard ttl with
  | none => (.error .kvLeaseInvalidTTL, m)
  | some ttl =>
    let (v, m) := m.fetchVal lease
    match nextToken now ttl prevToken with
    | .error e => (.error e, m)
    | .ok next =>
      if v.lease = 0 then (.error .kvLeaseExpired, m)
      else if now ≥ toInt64 v.lease then (.error .kvLeaseExpired, m)
      else if v.lease ≠ prevToken then (.error .kvLeaseExpired, m)
      else (.ok (.token next), m.storeVal lease { v with lease := next })

def release (lease : Bytes) (token : ℕ) : Except ChordError Reply × MemoryKV hashFn :=
  let (v, m) := m.fetchVal lease
  if v.lease = token then (.ok .done, m.storeVal lease { v with lease := 0 })
  else (.error .kvLeaseExpired, m)

/-- One key of an import: value and lease are replaced, the children added. -/
def importOne (key : Bytes) (value : KVTransfer) : MemoryKV hashFn :=
  let (v, m) := m.fetchVal key
  m.storeVal key
    { simple := value.simpleValue
      lease := value.leaseToken
      children := v.children.insertMany value.prefixChildren }

/-- Imports the keys, each with the value at the same place; there must be one for every key. -/
def importKeys : List Bytes → List KVTransfer → MemoryKV hashFn → MemoryKV hashFn
  | key :: keys, value :: values, m => importKeys keys values (m.importOne key value)
  | _, _, m => m

def exportOne (key : Bytes) : KVTransfer :=
  match m.lookupVal key with
  | none => ⟨none, [], 0⟩
  | some v => ⟨v.simple, m.prefixList key, v.lease⟩

def exportKeys (m : MemoryKV hashFn) (keys : List Bytes) : List KVTransfer := keys.map m.exportOne

def rangeKeys (m : MemoryKV hashFn) (low high : ℕ) : List Bytes :=
  m.s.toList.flatMap fun (id, kMap) =>
    if between low id high true then
      (kMap.toList.filter fun (_, v) => !v.isDeleted).map Prod.fst
    else []

def removeKeys (m : MemoryKV hashFn) (keys : List Bytes) : MemoryKV hashFn :=
  keys.foldl deleteAll m

/-- The kinds of content a row has. -/
def composites (key : Bytes) (v : KvValue) : List KeyComposite :=
  (if v.simple.isSome then [⟨key, .simple⟩] else []) ++
  (if v.children.size > 0 then [⟨key, .prefixed⟩] else []) ++
  (if v.lease ≠ 0 then [⟨key, .lease⟩] else [])

def listKeys (pfx : Bytes) : List KeyComposite :=
  m.s.toList.flatMap fun (_, kMap) =>
    kMap.toList.flatMap fun (key, v) => if pfx.isPrefixOf key then composites key v else []

def handle (m : MemoryKV hashFn) : Request → Except ChordError Reply × MemoryKV hashFn
  | .put key value => (.ok .done, m.put key value)
  | .get key => (.ok (.value (m.get key)), m)
  | .delete key => (.ok .done, m.delete key)
  | .prefixAppend key child =>
    let (res, m) := m.prefixAppend key child
    (res.map fun _ => .done, m)
  | .prefixList key => (.ok (.children (m.prefixList key)), m)
  | .prefixContains key child => (.ok (.contains (m.prefixContains key child)), m)
  | .prefixRemove key child => (.ok .done, m.prefixRemove key child)
  | .acquire key ttl now => m.acquire key ttl now
  | .renew key ttl now prevToken => m.renew key ttl now prevToken
  | .release key token => m.release key token

def val (key : Bytes) : KvValue := (m.lookupVal key).getD .newValue

instance : KVProvider (MemoryKV hashFn) where
  empty := withHashFn hashFn
  val := val
  handle r m := m.handle r
  importKeys keys values m := (.ok (), importKeys keys values m)
  exportKeys keys m := .ok (m.exportKeys keys)
  rangeKeys low high m := .ok (m.rangeKeys low high)
  removeKeys keys m := (.ok (), m.removeKeys keys)

end MemoryKV

end Specter
