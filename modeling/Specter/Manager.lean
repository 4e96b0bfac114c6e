import Specter.RulesCache

/-!
# The manager of the web protection

A manager follows a document of settings and keeps an engine.  What it does under its lock is one
step.  An update is prepared without the lock, by one job at a time, and adopted or discarded under
it.  What the store, the release listing, the cache, the downloads and the compiler return can be
anything.  A document is known by its token.
-/

namespace Specter.Waf

structure Settings where
  enabled : Bool
  channel : Channel
  pinnedVersion : String
  deriving DecidableEq, Repr

def defaultSettings : Settings := ⟨false, .lts, ""⟩

/-- An engine that was compiled from the rules of a release. -/
structure EngineRef where
  id : ℕ
  version : String
  deriving DecidableEq, Repr

def ids : Option EngineRef → List ℕ
  | some engine => [engine.id]
  | none => []

inductive Phase where
  | preparing
  /-- What `prepareUpdate` returned, an engine if there is one to adopt. -/
  | prepared (result : Except Unit (Option EngineRef))
  /-- `finishUpdate` has released the lock and closes what is left. -/
  | closing (engine : Option EngineRef)

structure UpdateJob where
  settings : Settings
  token : Option String
  current : String
  phase : Phase

structure Manager where
  /-- There is none for the empty one. -/
  token : Option String
  configured : Bool
  configErr : Bool
  cache : CacheState
  updating : Bool
  closed : Bool
  settings : Settings
  engine : Option EngineRef
  unavailable : Bool
  jobs : List UpdateJob
  /-- `Close` has waited for the jobs and closed the engine. -/
  returned : Bool
  /-- The last settings `reloadSettings` has read, those by default for no document. -/
  lastRead : Option Settings
  /-- The number of engines, whose identifiers are below it. -/
  compiled : ℕ
  closes : List ℕ

variable (m : Manager)

structure ReleaseTag where
  tag : String
  prerelease : Bool
  draft : Bool

/-- Of the releases listed; the empty version if there is none. -/
def latest (channel : Channel) (releases : List ReleaseTag) : String :=
  releases.foldl (fun latest release =>
    let version := String.ofList (release.tag.toList.drop 1)
    if "v".toList.isPrefixOf release.tag.toList && !release.prerelease && !release.draft &&
      releaseInChannel version channel && (latest = "" || compareReleases version latest = .gt)
    then version else latest) ""

namespace UpdateJob

def candidate (job : UpdateJob) (listing : Except Unit (List ReleaseTag)) : Except Unit String :=
  if job.settings.pinnedVersion ≠ "" then .ok job.settings.pinnedVersion
  else do
    let version := latest job.settings.channel (← listing)
    if version = "" then throw () else return version

/-- A stale listing must not roll working rules back. -/
def stale (job : UpdateJob) (version : String) : Bool :=
  job.settings.pinnedVersion = "" && releaseInChannel job.current job.settings.channel &&
    compareReleases version job.current = .lt

/-- The version to update to, if any. -/
def version (job : UpdateJob) (listing : Except Unit (List ReleaseTag)) :
    Except Unit (Option String) := do
  let version ← job.candidate listing
  return if job.stale version ∨ version = job.current then none else some version

end UpdateJob

def restoredVersion (bundledVersion pinnedVersion : String) (stored : CacheState)
    (usable : String → Bool) : Option String :=
  [pinnedVersion, stored.active, stored.previous, bundledVersion].find? fun v => v ≠ "" && usable v

inductive ContextErr where
  | canceled
  | deadlineExceeded
  deriving DecidableEq

inductive ManagerEvent where
  /-- With what the store returns, and what `restoreRules` finds and can use. -/
  | reloadSettings (read : Except Unit (Option String)) (stored : CacheState)
      (usable : String → Bool)
  | beginUpdate
  /-- With the releases listed, and whether the release can be had and compiled. -/
  | prepareUpdate (i : ℕ) (listing : Except Unit (List ReleaseTag)) (built : Bool)
  | finishUpdate (i : ℕ) (ctxErr : Option ContextErr) (read : Except Unit (Option String))
      (saved : Bool)
  /-- What `finishUpdate` has deferred. -/
  | closeLeft (i : ℕ)
  | close
  /-- The rest of `Close`, when the jobs are done. -/
  | closeActive

section

variable (settingsOf : String → Option Settings) (bundledVersion : String)

/-- The token and the settings, or whether there is a document that cannot be read. -/
def decoded : Except Unit (Option String) → Except Bool (Option String × Settings)
  | .error _ => .error false
  | .ok none => .ok (none, defaultSettings)
  | .ok (some token) =>
    match settingsOf token with
    | some settings => .ok (some token, settings)
    | none => .error true

namespace Manager

def restoreRules (stored : CacheState) (usable : String → Bool) : Manager :=
  match restoredVersion bundledVersion m.settings.pinnedVersion stored usable with
  | none => { m with cache := ⟨"", ""⟩ }
  | some version =>
    { m with
      engine := some ⟨m.compiled, version⟩
      cache := restoredState m.settings.pinnedVersion stored version
      compiled := m.compiled + 1 }

def apply (token : Option String) (settings : Settings) (stored : CacheState)
    (usable : String → Bool) : Manager :=
  let m := { m with
    token := token, configured := token.isSome, configErr := false, settings := settings }
  let m := if settings.enabled ∧ m.engine = none then m.restoreRules bundledVersion stored usable
    else m
  { m with unavailable := settings.enabled && m.engine.isNone }

def reloadSettings (read : Except Unit (Option String)) (stored : CacheState)
    (usable : String → Bool) : Manager :=
  if m.closed then m
  else
    match decoded settingsOf read with
    | .error found =>
      { m with
        configured := found, configErr := true, unavailable := m.unavailable || m.token.isNone }
    | .ok (token, settings) =>
      let m := { m with lastRead := some settings }
      if m.token = token ∧ m.configured = token.isSome ∧ m.configErr = false then m
      else m.apply bundledVersion token settings stored usable

def beginUpdate : Manager :=
  if m.closed ∨ m.updating ∨ m.configErr ∨ !m.settings.enabled then m
  else
    { m with
      updating := true
      jobs := ⟨m.settings, m.token, m.cache.active, .preparing⟩ :: m.jobs }

def setPhase (i : ℕ) (job : UpdateJob) (phase : Phase) : Manager :=
  { m with jobs := m.jobs.set i { job with phase := phase } }

def prepareUpdate (i : ℕ) (job : UpdateJob) (listing : Except Unit (List ReleaseTag))
    (built : Bool) : Manager :=
  match job.version listing with
  | .error e => m.setPhase i job (.prepared (.error e))
  | .ok none => m.setPhase i job (.prepared (.ok none))
  | .ok (some version) =>
    if built then
      { m with compiled := m.compiled + 1 }.setPhase i job
        (.prepared (.ok (some ⟨m.compiled, version⟩)))
    else m.setPhase i job (.prepared (.error ()))

/-- Whether the document could be read and is still the one the update is for. -/
def unchanged (m : Manager) (job : UpdateJob) : Except Unit (Option String) → Bool
  | .ok (some token) => job.token = some token && m.token = some token
  | _ => false

def finishUpdate (i : ℕ) (job : UpdateJob) (result : Except Unit (Option EngineRef))
    (ctxErr : Option ContextErr) (read : Except Unit (Option String)) (saved : Bool) : Manager :=
  let m := { m with updating := false }
  match result with
  | .ok (some engine) =>
    if !m.closed && ctxErr = none && m.unchanged job read && saved then
      { m with
        engine := some engine
        unavailable := false
        cache := ⟨engine.version, m.cache.active⟩ }.setPhase i job (.closing m.engine)
    else m.setPhase i job (.closing (some engine))
  | _ => m.setPhase i job (.closing none)

def step (m : Manager) : ManagerEvent → Option Manager
  | .reloadSettings read stored usable =>
    some (m.reloadSettings settingsOf bundledVersion read stored usable)
  | .beginUpdate => some m.beginUpdate
  | .prepareUpdate i listing built =>
    match m.jobs[i]? with
    | some ⟨settings, token, current, .preparing⟩ =>
      some (m.prepareUpdate i ⟨settings, token, current, .preparing⟩ listing built)
    | _ => none
  | .finishUpdate i ctxErr read saved =>
    match m.jobs[i]? with
    | some ⟨settings, token, current, .prepared result⟩ =>
      some (m.finishUpdate i ⟨settings, token, current, .prepared result⟩ result ctxErr read saved)
    | _ => none
  | .closeLeft i =>
    match m.jobs[i]? with
    | some ⟨_, _, _, .closing engine⟩ =>
      some { m with jobs := m.jobs.eraseIdx i, closes := ids engine ++ m.closes }
    | _ => none
  | .close => some (if m.closed then m else { m with closed := true, unavailable := true })
  | .closeActive =>
    if m.closed ∧ !m.returned ∧ m.jobs.isEmpty then
      some { m with returned := true, closes := ids m.engine ++ m.closes }
    else none

def run (events : List ManagerEvent) : Option Manager :=
  events.foldlM (step settingsOf bundledVersion) m

def blank : Manager :=
  ⟨none, false, false, ⟨"", ""⟩, false, false, defaultSettings, none, false, [], false, none, 0, []⟩

def new (read : Except Unit (Option String)) (stored : CacheState) (usable : String → Bool) :
    Manager :=
  blank.reloadSettings settingsOf bundledVersion read stored usable

end Manager

end

inductive Wrapped where
  | unavailable
  | passes
  | inspects (engine : EngineRef)
  deriving DecidableEq

/-- What becomes of a request, its host and policy being fine. -/
def Manager.wrap : Wrapped :=
  match m.unavailable, m.settings.enabled, m.engine with
  | true, _, _ | _, true, none => .unavailable
  | _, false, _ => .passes
  | _, true, some engine => .inspects engine

end Specter.Waf
