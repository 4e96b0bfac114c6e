import Specter.Kv

/-!
# Files of certificates in the ring

`ChordStorage` keeps a file as a simple key behind `kvKeyPrefix`; directories exist only in the
names.  `List` asks the ring for the keys with a prefix of bytes and makes file names of them.
-/

namespace Specter

def slash : UInt8 := 47

def trimPrefix (pfx s : Bytes) : Bytes := if pfx.isPrefixOf s then s.drop pfx.length else s

/-- `strings.Cut` at the first slash: what is before it, and whether there is one. -/
def cutSlash (s : Bytes) : Bytes × Bool := (s.takeWhile (· ≠ slash), slash ∈ s)

namespace ChordStorage

def kvKeyPrefix : Bytes := "/acme-storage/".toUTF8.toList

def kvKeyName (key : Bytes) : Bytes := kvKeyPrefix ++ key

def simpleKeys (keys : List KeyComposite) : List Bytes :=
  (keys.filter (·.type = .simple)).map KeyComposite.key

/-- What the non-recursive `List` of `pfx`, a raw prefix that ends in a slash, makes of a key. -/
def childOf (pfx key : Bytes) : Bytes :=
  let (before, ok) := cutSlash (trimPrefix pfx key)
  trimPrefix kvKeyPrefix (if ok then pfx ++ before else key)

local instance : LawfulBEq Bytes := inferInstance

/-- The values without those that were seen before. -/
def distinct (found : List Bytes) : List Bytes → List Bytes
  | [] => found
  | newKey :: rest => distinct (if newKey ∈ found then found else found ++ [newKey]) rest

def list (listKeys : Bytes → Except ChordError (List KeyComposite)) (pfx : Bytes)
    (recursive : Bool) : Except ChordError (List Bytes) := do
  let keys ← listKeys (kvKeyName pfx)
  if recursive then return (simpleKeys keys).map (trimPrefix kvKeyPrefix)
  else
    let dir := if (kvKeyName pfx).getLast? = some slash then kvKeyName pfx
      else kvKeyName pfx ++ [slash]
    return distinct [] ((simpleKeys keys).map (childOf dir))

end ChordStorage

end Specter
