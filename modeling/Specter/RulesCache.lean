import Mathlib.Algebra.Group.Nat.Defs
import Mathlib.Data.List.Basic
import Specter.Lib.Prog

/-!
# The cache of rules releases

For each release a directory keeps an archive and a signature, and `state.json`, which names the
active and the previous one.  Every file is written under a temporary name, synced, and renamed;
then the directory is synced.  A file is what its complete content is about.  A rename or removal is
seen at once; until the directory has been synced, each may survive a crash or not, by itself.
-/

namespace Specter.Waf

open Lib

def releaseParts (version : String) : List (List Char) := version.toList.splitOn '.'

/-- `strconv.ParseUint` for 32 bits. -/
def parseUint (part : List Char) : Option ℕ :=
  let n := part.foldl (fun n c => 10 * n + (c.toNat - '0'.toNat)) 0
  if part ≠ [] ∧ part.all Char.isDigit ∧ n < 2 ^ 32 then some n else none

def validReleaseVersion (version : String) : Bool :=
  let parts := releaseParts version
  version.utf8ByteSize ≤ 32 && parts.length = 3 && parts.head? = some ['4'] &&
    parts.all fun part => (parseUint part).isSome && !(1 < part.length && part.head? = some '0')

inductive Channel where
  | unknown
  | lts
  | stable
  deriving DecidableEq, Repr

def releaseInChannel (version : String) (channel : Channel) : Bool :=
  validReleaseVersion version &&
    (channel = .stable || (channel = .lts && "4.25.".toList.isPrefixOf version.toList))

def compareParts : List (List Char) → List (List Char) → Ordering
  | a :: as, b :: bs =>
    (compare ((parseUint a).getD 0) ((parseUint b).getD 0)).then (compareParts as bs)
  | _, _ => .eq

/-- Of valid versions. -/
def compareReleases (a b : String) : Ordering := compareParts (releaseParts a) (releaseParts b)

structure CacheState where
  active : String
  previous : String
  deriving DecidableEq, Repr

inductive CacheFile where
  | archive (version : String)
  | signature (version : String)
  | state (content : CacheState)
  deriving DecidableEq, Repr

def CacheFile.version : CacheFile → String
  | archive v | signature v => v
  | state _ => ""

structure Dir where
  archives : List String
  signatures : List String
  state : Option CacheState
  deriving DecidableEq, Repr

namespace Dir

def put (d : Dir) : CacheFile → Dir
  | .archive v => { d with archives := v :: d.archives }
  | .signature v => { d with signatures := v :: d.signatures }
  | .state content => { d with state := some content }

def remove (d : Dir) : CacheFile → Dir
  | .archive v => { d with archives := d.archives.filter (· ≠ v) }
  | .signature v => { d with signatures := d.signatures.filter (· ≠ v) }
  | .state _ => d

def entries (d : Dir) : List CacheFile := d.archives.map .archive ++ d.signatures.map .signature

/-- Both files of the release are there. -/
def holds (d : Dir) (version : String) : Bool :=
  version ∈ d.archives && version ∈ d.signatures

end Dir

inductive DirOp where
  | put (file : CacheFile)
  | remove (file : CacheFile)
  deriving DecidableEq, Repr

def Dir.apply (d : Dir) : DirOp → Dir
  | .put file => d.put file
  | .remove file => d.remove file

def DirOp.removes (version : String) : DirOp → Bool
  | .put _ => false
  | .remove file => file.version = version

structure RulesDisk where
  /-- The directory when it was last synced. -/
  synced : Dir
  /-- What has been done to it since. -/
  pending : List DirOp
  cache : CacheState
  /-- The files `pruneCache` has removed, and what the directory was before. -/
  pruned : List (CacheFile × Dir × Dir)
  /-- A release was restored from files that had not been synced. -/
  unsynced : Bool
  deriving DecidableEq, Repr

namespace RulesDisk

def empty : RulesDisk := ⟨⟨[], [], none⟩, [], ⟨"", ""⟩, [], false⟩

def seen (s : RulesDisk) : Dir := s.pending.foldl .apply s.synced

/-- The files of the release are there whatever a crash leaves undone. -/
def durable (s : RulesDisk) (version : String) : Bool :=
  s.synced.holds version && s.pending.all (!·.removes version)

end RulesDisk

inductive CacheAct where
  /-- `state.json`, if it can be read. -/
  | readState
  /-- Whether the files of the release can be read and verified. -/
  | cached (version : String)
  | bundledRules
  | compile (version : String)
  /-- Everything of `writeCacheFile` before the rename. -/
  | writeTemp
  | rename (file : CacheFile)
  | syncDir
  | readDir
  | remove (file : CacheFile)
  | getCache
  | setCache (state : CacheState)

/-- A release with an archive, or the one that comes with the program. -/
inductive Release where
  | bundled
  | archived (version : String)
  deriving DecidableEq, Repr

inductive CacheOp where
  | restoreRules (pinnedVersion : String)
  /-- Of an update that can be adopted. -/
  | finishUpdate (release : Release)
  deriving DecidableEq, Repr

def cacheSig : Sig where
  Act := CacheAct
  Res
    | .readState => Except Unit (Option CacheState)
    | .cached _ | .bundledRules | .compile _ | .writeTemp | .rename _ | .syncDir => Bool
    | .readDir => List CacheFile
    | .getCache => CacheState
    | .remove _ | .setCache _ => Unit
  Task := List CacheOp

/-- The label says whether the operation is done. -/
def RulesDisk.exec (l : Bool) (_t : ℕ) (s : RulesDisk) :
    (a : CacheAct) → Option (cacheSig.Res a × RulesDisk)
  | .readState => some (if l then .ok s.seen.state else .error (), s)
  | .cached v =>
    let ok := l && validReleaseVersion v && s.seen.holds v
    some (ok, { s with unsynced := s.unsynced || (ok && !s.durable v) })
  | .bundledRules | .compile _ | .writeTemp => some (l, s)
  | .rename file => some (l, if l then { s with pending := s.pending ++ [.put file] } else s)
  | .syncDir => some (l, if l then { s with synced := s.seen, pending := [] } else s)
  | .readDir => some (if l then s.seen.entries else [], s)
  | .remove file =>
    some ((), if l then
      { s with
        pending := s.pending ++ [.remove file]
        pruned := (file, s.seen, s.synced) :: s.pruned }
      else s)
  | .getCache => some (s.cache, s)
  | .setCache state => some ((), { s with cache := state })

abbrev CacheProg := Prog cacheSig

def cacheAct (a : CacheAct) : CacheProg (cacheSig.Res a) := Prog.perform (S := cacheSig) a

section

variable (bundledVersion : String)

/-- An error is as if there were nothing, apart from what is reported. -/
def readCacheState : CacheProg CacheState := do
  let res : Except Unit (Option CacheState) ← cacheAct .readState
  match res with
  | .ok (some state) =>
    if validReleaseVersion state.active ∧
      (state.previous = "" ∨ validReleaseVersion state.previous) then return state
    else return ⟨"", ""⟩
  | _ => return ⟨"", ""⟩

def writeCacheFile (file : CacheFile) : CacheProg Bool := do
  let written : Bool ← cacheAct .writeTemp
  match written with
  | false => return false
  | true =>
    let renamed : Bool ← cacheAct (.rename file)
    match renamed with
    | false => return false
    | true => cacheAct .syncDir

def saveRelease (version : String) : CacheProg Bool := do
  let saved ← writeCacheFile (.archive version)
  match saved with
  | false => return false
  | true => writeCacheFile (.signature version)

def saveCacheState (state : CacheState) : CacheProg Bool := writeCacheFile (.state state)

def pruneFiles (state : CacheState) : List CacheFile → CacheProg Unit
  | [] => return ()
  | file :: rest =>
    if !validReleaseVersion file.version ∨ file.version = state.active ∨
      file.version = state.previous then pruneFiles state rest
    else do
      cacheAct (.remove file)
      pruneFiles state rest

def pruneCache (state : CacheState) : CacheProg Unit := do
  let entries : List CacheFile ← cacheAct .readDir
  pruneFiles state entries

def loadRelease (version : String) : CacheProg Bool := do
  let cached : Bool ← cacheAct (.cached version)
  match cached with
  | true => return true
  | false => if version = bundledVersion then cacheAct .bundledRules else return false

def loadEngine (version : String) : CacheProg Bool := do
  let loaded ← loadRelease bundledVersion version
  match loaded with
  | false => return false
  | true => cacheAct (.compile version)

def restoredState (pinnedVersion : String) (stored : CacheState) (version : String) : CacheState :=
  ⟨version,
    if version = stored.active then stored.previous
    else if version = pinnedVersion then stored.active
    else ""⟩

def saveIfChanged (stored state : CacheState) : CacheProg Bool :=
  if state = stored then return true else saveCacheState state

/-- The first of the versions that can be used. -/
def tryVersions (pinnedVersion : String) (stored : CacheState) :
    List String → List String → CacheProg CacheState
  | [], _ => return ⟨"", ""⟩
  | version :: rest, seen =>
    if version = "" ∨ version ∈ seen then tryVersions pinnedVersion stored rest seen
    else do
      let usable ← loadEngine bundledVersion version
      match usable with
      | false => tryVersions pinnedVersion stored rest (version :: seen)
      | true =>
        let _saved ← saveIfChanged stored (restoredState pinnedVersion stored version)
        return restoredState pinnedVersion stored version

def restoreRules (pinnedVersion : String) : CacheProg Unit := do
  let stored ← readCacheState
  let state ← tryVersions bundledVersion pinnedVersion stored
    [pinnedVersion, stored.active, stored.previous, bundledVersion] []
  cacheAct (.setCache state)

def Release.version : Release → String
  | .bundled => bundledVersion
  | .archived version => version

/-- Only a release with an archive has files to save. -/
def Release.save : Release → CacheProg Bool
  | .bundled => return true
  | .archived version => saveRelease version

def finishUpdate (release : Release) : CacheProg Unit := do
  let cache : CacheState ← cacheAct .getCache
  let state : CacheState := ⟨release.version bundledVersion, cache.active⟩
  let saved ← release.save
  match saved with
  | false => return ()
  | true =>
    let stored ← saveCacheState state
    match stored with
    | false => return ()
    | true =>
      cacheAct (.setCache state)
      pruneCache state

def operations : List CacheOp → CacheProg Unit
  | [] => return ()
  | .restoreRules pinnedVersion :: rest => do
    restoreRules bundledVersion pinnedVersion
    operations rest
  | .finishUpdate release :: rest => do
    finishUpdate bundledVersion release
    operations rest

def rulesCache : Machine cacheSig RulesDisk Bool where
  exec := RulesDisk.exec
  body := operations bundledVersion

/-- A process with nothing in its memory, until it has taken so many steps. -/
def RulesDisk.session (s : RulesDisk) (ops : List CacheOp) (labels : List Bool) :
    Option RulesDisk :=
  ((rulesCache bundledVersion).run (labels.map fun l => (0, l))
    ((rulesCache bundledVersion).launch [ops] { s with cache := ⟨"", ""⟩ })).map (·.shared)

def survivors (ops : List DirOp) (kept : List Bool) : List DirOp :=
  ((ops.zip kept).filter Prod.snd).map Prod.fst

/-- A crash of the machine keeps some of what was not synced; if only the process ends, nothing
changes. -/
def RulesDisk.crash (s : RulesDisk) : Option (List Bool) → RulesDisk
  | none => s
  | some kept =>
    { s with synced := (survivors s.pending kept).foldl .apply s.synced, pending := [] }

/-- Processes that ended, and how each did. -/
def RulesDisk.sessions (s : RulesDisk) :
    List (List CacheOp × List Bool × Option (List Bool)) → Option RulesDisk
  | [] => some s
  | (ops, labels, kept) :: rest =>
    (s.session bundledVersion ops labels).bind fun s => (s.crash kept).sessions rest

end

end Specter.Waf
