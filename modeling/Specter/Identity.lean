import Mathlib.Data.List.Dedup
import Mathlib.Logic.Function.Basic
import Specter.Lib.Prog

/-!
# The storage provider of a data directory

`preflightKVProvider` checks the marker file and the stores of a data directory, and publishes the
marker by a hard link if there is none; only then are stores created.  Starts are threads, and every
file operation is one action that may fail.  Temporary names are not used twice.  When the machine
crashes, no start goes on, and what was not synced may be gone.
-/

namespace Specter.Identity

open Lib

inductive Provider where
  | memory
  | aof
  | sqlite
  deriving DecidableEq, Repr

namespace Provider

def name : Provider → String
  | memory => "memory"
  | aof => "aof"
  | sqlite => "sqlite"

def ofName (option : String) : Option Provider :=
  if option = "memory" then some memory
  else if option = "aof" then some aof
  else if option = "sqlite" then some sqlite
  else none

def text (p : Provider) : String := p.name ++ "\n"

def storeDir : Provider → Option String
  | memory => none
  | aof => some "wal"
  | sqlite => some "sqlite3"

end Provider

/-- A directory `name` in the directory of a virtual node. -/
structure Store where
  vnode : String
  name : String
  deriving DecidableEq, Repr

structure File where
  text : String
  synced : Bool
  deriving DecidableEq, Repr

structure Disk where
  marker : Option File
  /-- Whether the entry of the marker was synced. -/
  synced : Bool
  temps : ℕ → Option File
  stores : List Store
  /-- The starts that have not been ended by a crash. -/
  alive : List ℕ
  /-- The starts that have passed the preflight. -/
  passed : List (ℕ × Provider)

def kvProviderMarker : String := "kv-provider"

namespace Disk

def empty : Disk := ⟨none, false, fun _ => none, [], [], []⟩

def entries (s : Disk) : List String :=
  (s.marker.map fun _ => kvProviderMarker).toList ++ (s.stores.map (·.vnode)).dedup

def children (s : Disk) (vnode : String) : List String :=
  (s.stores.filter (·.vnode = vnode)).map (·.name)

end Disk

/-- What the environment decides: whether the operation fails, and what a crash leaves of what was
not synced. -/
structure DiskLabel where
  err : Option String
  keepsMarker : Bool
  content : String
  keeps : Store → Bool

/-- The disk keeps a file as it was synced, or something else. -/
def File.afterCrash (f : File) (l : DiskLabel) : File := if f.synced then f else ⟨l.content, true⟩

/-- File operations that change nothing that is looked at. -/
inductive FileOp where
  | prepareDirectory
  | closeTemp
  | removeTemp
  | openDir
  | closeDir
  deriving DecidableEq, Repr

inductive IdentityAct where
  | begins
  | lstatMarker
  | readMarker
  | readDir
  | readVnode (vnode : String)
  /-- Whether it is a directory. -/
  | stat (vnode name : String)
  | other (op : FileOp)
  | createTemp
  | writeTemp (text : String)
  | syncTemp
  | linkMarker
  | syncDir
  | passes (p : Provider)
  | createStore (store : Store)
  | crash

def IdentityAct.Out : IdentityAct → Type
  | lstatMarker => Option ℕ
  | readMarker => String
  | readDir | readVnode _ => List String
  | stat .. => Bool
  | _ => Unit

inductive IdentityTask where
  | start (option dir : String) (virtual : ℕ)
  | crash

def identitySig : Sig where
  Act := IdentityAct
  Res a := Except String a.Out
  Task := IdentityTask

namespace Disk

def attempt {α : Type} (s : Disk) (l : DiskLabel) (x : α) (s' : Disk) : Except String α × Disk :=
  match l.err with
  | some e => (.error e, s)
  | none => (.ok x, s')

def setTemp (s : Disk) (t : ℕ) (file : Option File) : Disk :=
  { s with temps := Function.update s.temps t file }

def linkMarker (s : Disk) (l : DiskLabel) (t : ℕ) : Except String Unit × Disk :=
  match s.marker with
  | some _ => (.error (l.err.getD "file exists"), s)
  | none => s.attempt l () { s with marker := s.temps t }

def crash (s : Disk) (l : DiskLabel) : Disk :=
  { s with
    marker := if s.synced || l.keepsMarker then s.marker.map (·.afterCrash l) else none
    temps := fun _ => none
    stores := s.stores.filter l.keeps
    alive := [] }

/-- What a running start does. -/
def operate (l : DiskLabel) (t : ℕ) (s : Disk) : (a : IdentityAct) → Except String a.Out × Disk
  | .begins | .crash => (.ok (), s)
  | .lstatMarker => s.attempt l (s.marker.map (·.text.utf8ByteSize)) s
  | .readMarker => s.attempt l ((s.marker.map File.text).getD "") s
  | .readDir => s.attempt l s.entries s
  | .readVnode vnode => s.attempt l (s.children vnode) s
  | .stat _ _ => s.attempt l true s
  | .other _ => s.attempt l () s
  | .createTemp => s.attempt l () (s.setTemp t (some ⟨"", false⟩))
  | .writeTemp text => s.attempt l () (s.setTemp t (some ⟨text, false⟩))
  | .syncTemp => s.attempt l () (s.setTemp t ((s.temps t).map fun f => { f with synced := true }))
  | .linkMarker => s.linkMarker l t
  | .syncDir => s.attempt l () { s with synced := s.marker.isSome }
  | .passes p => (.ok (), { s with passed := (t, p) :: s.passed })
  | .createStore store => s.attempt l () { s with stores := s.stores.insert store }

def exec (l : DiskLabel) (t : ℕ) (s : Disk) :
    (a : IdentityAct) → Option (Except String a.Out × Disk)
  | .begins => some (.ok (), { s with alive := t :: s.alive })
  | .crash => some (.ok (), s.crash l)
  | a => if t ∈ s.alive then some (s.operate l t a) else none

end Disk

abbrev StartM := ExceptT String (Prog identitySig)

def io (a : IdentityAct) : StartM a.Out := ExceptT.mk (Prog.perform (S := identitySig) a)

def wrap {α : Type} (msg : String) (p : StartM α) : StartM α :=
  ExceptT.mk (p.run >>= fun r => pure (r.mapError (msg ++ ·)))

def quote (path : String) : String := "\"" ++ path ++ "\""

def join (dir name : String) : String := dir ++ "/" ++ name

def invalidMarker (dir hint : String) : String :=
  "invalid storage provider marker " ++ quote (join dir kvProviderMarker) ++ hint ++
    "; preserve the data directory and recover its provider identity before restarting"

def readKVProviderMarker (dir : String) : StartM (Option Provider) := do
  let info : Option ℕ ← wrap "inspecting storage provider marker: " (io .lstatMarker)
  match info with
  | none => return none
  | some size =>
    if size > 16 then throw (invalidMarker dir "")
    else do
      let data : String ← wrap "reading storage provider marker: " (io .readMarker)
      if data = Provider.aof.text then return some .aof
      else if data = Provider.sqlite.text then return some .sqlite
      else throw (invalidMarker dir "; expected aof or sqlite followed by a newline")

def foundStore (name : String) : Option Provider :=
  if name = "wal" then some .aof
  else if name = "sqlite3" then some .sqlite
  else none

def inspectChild (dir vnode : String) (provider : Option Provider) (child : String) :
    StartM (Option Provider) := do
  let path := join (join dir vnode) child
  match foundStore child with
  | none => throw ("unrecognized storage layout at " ++ quote path ++
      "; preserve the directory and recover or migrate the existing store before restarting")
  | some found =>
    let isDir : Bool ← wrap ("inspecting " ++ found.name ++ " storage directory: ")
      (io (.stat vnode child))
    if isDir = false then
      throw ("expected " ++ found.name ++ " storage directory at " ++ quote path)
    else if provider ≠ none ∧ provider ≠ some found then
      throw ("mixed aof and sqlite storage in data directory " ++ quote dir ++
        "; preserve the entire directory and resolve the stores through explicit recovery or " ++
        "migration before restarting")
    else return some found

def inspectChildren (dir vnode : String) (provider : Option Provider) :
    List String → StartM (Option Provider)
  | [] => return provider
  | child :: rest => do
    let provider ← inspectChild dir vnode provider child
    inspectChildren dir vnode provider rest

def inspectEntries (dir : String) (provider : Option Provider) :
    List String → StartM (Option Provider)
  | [] => return provider
  | entry :: rest =>
    if entry.toList.all (·.isDigit) then do
      let children : List String ← wrap "reading vnode storage directory: " (io (.readVnode entry))
      let provider ← inspectChildren dir entry provider children
      inspectEntries dir provider rest
    else inspectEntries dir provider rest

def inspectKVLayout (dir : String) : StartM (Option Provider) := do
  let entries : List String ← wrap "reading data directory: " (io .readDir)
  inspectEntries dir none entries

def syncKVProviderIdentity : StartM Unit := do
  wrap "opening directory to sync storage identity: " (io (.other .openDir))
  -- the directory is closed before the error of the sync is returned
  wrap "syncing directory for storage identity: " (io .syncDir)
  wrap "closing directory after syncing storage identity: " (io (.other .closeDir))

def publishKVProviderMarker : StartM Unit := do
  io .linkMarker
  wrap "removing temporary marker: " (io (.other .removeTemp))
  syncKVProviderIdentity

def writeKVProviderMarker (provider : Provider) : StartM Unit := do
  wrap "creating data directory: " (io (.other .prepareDirectory))
  wrap "creating storage provider marker: " (io .createTemp)
  wrap "writing storage provider marker: " (io (.writeTemp provider.text))
  wrap "syncing storage provider marker: " (io .syncTemp)
  wrap "closing storage provider marker: " (io (.other .closeTemp))
  wrap "publishing storage provider marker: " publishKVProviderMarker

def providerConflict (option existing : Provider) (dir : String) : String :=
  "configured kv provider " ++ option.name ++ " conflicts with " ++ existing.name ++
    " storage in " ++ quote dir ++ "; restart with --kv-provider=" ++ existing.name ++
    " to recover existing data, or use a separate empty --data-dir for a new store; " ++
    "do not remove the marker or stored data to bypass this check"

/-- Why a start with this option is refused. -/
def conflict (option : Provider) (dir : String) (marker layout : Option Provider) :
    Option String :=
  match marker, layout with
  | some m, some l =>
    if m ≠ l then
      some ("storage provider marker identifies " ++ m.name ++ " but data directory " ++
        quote dir ++ " contains " ++ l.name ++ " storage; preserve the directory and resolve " ++
        "the conflicting stores through recovery before restarting")
    else if m ≠ option then some (providerConflict option m dir)
    else none
  | some p, none | none, some p =>
    if p ≠ option then some (providerConflict option p dir) else none
  | none, none => none

/-- The preflight of a known provider. -/
def establish (option : Provider) (dir : String) : StartM Unit := do
  let marker ← readKVProviderMarker dir
  let layout ← inspectKVLayout dir
  match conflict option dir marker layout with
  | some e => throw e
  | none =>
    match option, marker with
    | .memory, _ => return ()
    | _, some _ => syncKVProviderIdentity
    | _, none => writeKVProviderMarker option

def preflightKVProvider (option dir : String) : StartM Provider :=
  match Provider.ofName option with
  | none => throw ("unknown kv provider: " ++ option)
  | some provider =>
    if dir = "" then throw "empty data directory"
    else do
      establish provider dir
      return provider

def createStores (name : String) : List ℕ → StartM Unit
  | [] => return ()
  | i :: rest => do
    io (.createStore ⟨toString i, name⟩)
    createStores name rest

/-- A start of the server with so many virtual nodes, as far as it is about their stores. -/
def start (option dir : String) (virtual : ℕ) : StartM Unit := do
  io .begins
  let provider ← preflightKVProvider option dir
  io (.passes provider)
  match provider.storeDir with
  | none => return ()
  | some name => createStores name (List.range virtual)

def servers : Machine identitySig Disk DiskLabel where
  exec := Disk.exec
  body
    | .start option dir virtual => (start option dir virtual).run >>= fun _ => pure ()
    | .crash => (io .crash).run >>= fun _ => pure ()

end Specter.Identity
