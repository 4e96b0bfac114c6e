import Mathlib.Logic.Function.Basic
import Specter.Kv

/-!
# The tunnels of a client

A client publishes the tunnels of its configuration at the gateways it is connected to, names those
without a hostname, and keeps which publications were acknowledged.  What holds `syncMu` is modelled
as happening one after the other.  What the gateways answer is an input, and what the calls may have
changed there is recorded.
-/

namespace Specter.TunClient

abbrev Hostname := String

structure Tunnel where
  target : String
  hostname : Hostname
  headerHost : String
  headerMode : String
  deriving DecidableEq, Repr

structure Gateway where
  id : ℕ
  address : String
  deriving DecidableEq, Repr

structure TunnelSyncResult where
  hostname : Hostname
  target : String
  published : Bool
  publishedEndpoints : ℕ
  error : String
  deriving DecidableEq, Repr

structure SyncResult where
  applied : Bool
  saved : Bool
  error : String
  tunnels : List TunnelSyncResult
  deriving DecidableEq, Repr

def SyncResult.pendingPublication (r : SyncResult) : Bool := r.tunnels.any (·.error ≠ "")

structure PublicationState where
  endpoints : String
  published : ℕ
  deriving DecidableEq, Repr

def checkInterval : ℤ := 30 * second

def maxBackoff : ℤ := 5 * 60 * second

/-- `errors.Join`, as a text. -/
def joinErrors (errs : List String) : String := "\n".intercalate errs

def endpointSignature (nodes : List Gateway) : String :=
  String.join (nodes.map fun node => toString node.id ++ ":" ++ node.address ++ ";")

def dotted (hostname : Hostname) : Bool := '.' ∈ hostname.toList

/-- What becomes of a call of `GenerateHostname`. -/
inductive GenerateOutcome where
  | noCandidates
  | failed (err : String)
  /-- It fails after the name was registered. -/
  | lost (err : String) (name : Hostname)
  | ok (name : Hostname)
  deriving DecidableEq, Repr

/-- What becomes of a call of `PublishTunnel`, retries included.  It answers with the gateways it
was given that acknowledged. -/
inductive PublishOutcome where
  | failed (err : String)
  /-- It fails, and may have taken effect. -/
  | lost (err : String)
  | ok (ack : Gateway → Bool)

inductive RemovalOutcome where
  | failed (err : String)
  /-- It fails, and may have taken effect. -/
  | lost (err : String)
  | ok
  deriving DecidableEq, Repr

/-- What a call that may have taken effect did to the routes of a hostname. -/
inductive RouteChange where
  | publish (servers acknowledged : List Gateway)
  | remove
  deriving DecidableEq, Repr

structure RouteOp where
  hostname : Hostname
  change : RouteChange
  deriving DecidableEq, Repr

/-- A call of `GenerateHostname`: the names registered and the hostnames of the tunnels when it was
made, the name that it registered, and whether it failed. -/
structure GenerateCall where
  registered : List Hostname
  used : List Hostname
  name : Option Hostname
  failed : Bool
  deriving DecidableEq, Repr

/-- A tunnel that a sync reports as published without a call: the gateways that are connected, and
what was done to the routes so far, the latest first. -/
structure Skip where
  hostname : Hostname
  connected : List Gateway
  ops : List RouteOp
  deriving DecidableEq, Repr

/-- A run of `syncConfigTunnels`: its tunnels before and after, the names that were registered when
it began, the answer it got if it asked for them, and the names it had generated, the latest
first. -/
structure SyncRun where
  before : List Tunnel
  after : List Tunnel
  registered : List Hostname
  lookup : Option (Except String (List Hostname))
  calls : List GenerateCall
  deriving DecidableEq, Repr

structure Client where
  tunnels : List Tunnel
  publication : Hostname → Option PublicationState
  lastSync : SyncResult
  syncBackoff : ℤ
  /-- `none` is the zero time. -/
  nextSync : Option ℤ
  hostnameNextCandidate : ℕ
  registered : List Hostname
  ops : List RouteOp
  skips : List Skip
  runs : List SyncRun

def Client.start (tunnels : List Tunnel) (registered : List Hostname) : Client where
  tunnels := tunnels
  publication _ := none
  lastSync := ⟨false, false, "", []⟩
  syncBackoff := 0
  nextSync := none
  hostnameNextCandidate := 0
  registered := registered
  ops := []
  skips := []
  runs := []

section Config

-- the scheme of a target
variable (parseTarget : String → Except String String)

def Tunnel.check (t : Tunnel) : Except String Unit :=
  match parseTarget t.target with
  | .error e => .error e
  | .ok scheme =>
    if t.headerMode ∉ ["", "target", "hostname", "custom"] then
      .error ("unsupported proxyHeaderMode " ++ t.headerMode.quote)
    else if t.headerMode = "custom" ∧ t.headerHost = "" then
      .error "proxyHeaderMode 'custom' requires proxyHeaderHost to be set"
    else if (scheme = "unix" ∨ scheme = "winio") ∧ t.headerMode = "target" then
      .error "proxyHeaderMode 'target' is not valid for pipe targets; use 'hostname' or 'custom'"
    else .ok ()

def validate : List Tunnel → Except String Unit
  | [] => .ok ()
  | t :: rest =>
    match t.check parseTarget with
    | .error e => .error e
    | .ok () => validate rest

/-- `ConfigSaveError`. -/
def saveError (err : String) : String := "change applied, but configuration was not saved: " ++ err

/-- The tunnels of the configuration afterwards, and the error.  `write` is the error of writing the
file. -/
def rebuildTunnels (tunnels : List Tunnel) (write : Option String) (c : Client) :
    Client × Option String :=
  match validate parseTarget tunnels with
  | .error e => (c, some e)
  | .ok () => ({ c with tunnels }, write.map saveError)

end Config

structure Naming where
  available : List Hostname
  generationErr : Option String
  nextCandidate : ℕ
  registered : List Hostname
  calls : List GenerateCall

namespace Naming

def free : List Hostname → List Hostname → List Hostname
  | _, [] => []
  | inUse, h :: rest =>
    if !dotted h ∧ h ∉ inUse then h :: free (h :: inUse) rest else free inUse rest

def called (n : Naming) (used : List Hostname) (name : Option Hostname) (failed : Bool) : Naming :=
  { n with
    registered := n.registered ++ name.toList
    nextCandidate := if failed then n.nextCandidate + 1 else n.nextCandidate
    calls := ⟨n.registered, used, name, failed⟩ :: n.calls }

def requestHostname (used : List Hostname) (n : Naming) :
    GenerateOutcome → Except String Hostname × Naming
  | .noCandidates => (.error "no rpc candidates available", n)
  | .failed err => (.error err, n.called used none true)
  | .lost err name => (.error err, n.called used (some name) true)
  | .ok name =>
    if name = "" then
      (.error "server returned an empty generated hostname", n.called used none true)
    else (.ok name, n.called used (some name) false)

def assign (used : List Hostname) (o : GenerateOutcome) (n : Naming) :
    Except String Hostname × Naming :=
  match n.available with
  | name :: available => (.ok name, { n with available })
  | [] =>
    match n.generationErr with
    | some e =>
      (.error ("hostname generation deferred until registered names are reconciled: " ++ e), n)
    | none =>
      match requestHostname used n o with
      | (.ok name, n) => (.ok name, n)
      | (.error e, n) => (.error e, { n with generationErr := some e })

end Naming

structure Publishing where
  publication : Hostname → Option PublicationState
  ops : List RouteOp
  skips : List Skip

namespace Publishing

/-- What the call does, the gateways that acknowledged, and the error. -/
def publishTunnel (p : Publishing) (hostname : Hostname) (connected : List Gateway) :
    PublishOutcome → Publishing × List Gateway × Option String
  | .failed err => (p, [], some err)
  | .lost err => ({ p with ops := ⟨hostname, .publish connected []⟩ :: p.ops }, [], some err)
  | .ok ack =>
    let published := connected.filter ack
    ({ p with ops := ⟨hostname, .publish connected published⟩ :: p.ops }, published,
      if published.length < connected.length then
        some ("published " ++ toString published.length ++ " of " ++ toString connected.length ++
          " connected gateways")
      else if published.length = 0 then some "no gateways acknowledged publication"
      else none)

/-- The outcome of one tunnel: how many gateways acknowledged, whether that is reported as
published, and the error. -/
def publish (force : Bool) (connected : List Gateway) (hostname : Hostname) (o : PublishOutcome)
    (p : Publishing) : (ℕ × Bool × Option String) × Publishing :=
  let endpoints := endpointSignature connected
  match p.publication hostname with
  | some previous =>
    if !force ∧ previous.endpoints = endpoints then
      ((previous.published, true, none),
        { p with skips := ⟨hostname, connected, p.ops⟩ :: p.skips })
    else attempt endpoints p
  | none => attempt endpoints p
where
  /-- A fresh attempt, which invalidates any earlier acknowledgement. -/
  attempt (endpoints : String) (p : Publishing) : (ℕ × Bool × Option String) × Publishing :=
    let p := { p with publication := Function.update p.publication hostname none }
    match p.publishTunnel hostname connected o with
    | (p, published, some err) => ((published.length, 0 < published.length, some err), p)
    | (p, published, none) =>
      ((published.length, 0 < published.length, none),
        { p with
          publication :=
            Function.update p.publication hostname (some ⟨endpoints, published.length⟩) })

end Publishing

/-- What a sync is answered: the registered names, the gateways that are connected, what becomes of
the calls it makes for each tunnel, by the tunnel's place, the error of writing the file, and the
time. -/
structure SyncInput where
  lookup : Except String (List Hostname)
  connected : List Gateway
  generate : ℕ → GenerateOutcome
  publish : ℕ → PublishOutcome
  write : Option String
  now : ℤ

structure SyncAcc where
  naming : Naming
  publishing : Publishing
  hostnameAssigned : Bool
  syncErrors : List String

section Sync

variable (parseTarget : String → Except String String) (force : Bool) (input : SyncInput)
  (lookupErr : Option String)

/-- The publication of a tunnel that has a hostname. -/
def publishNamed (i : ℕ) (t : Tunnel) (a : SyncAcc) : (Tunnel × TunnelSyncResult) × SyncAcc :=
  match a.publishing.publish force input.connected t.hostname (input.publish i) with
  | ((endpoints, published, none), publishing) =>
    ((t, ⟨t.hostname, t.target, published, endpoints, ""⟩), { a with publishing })
  | ((endpoints, published, some err), publishing) =>
    ((t, ⟨t.hostname, t.target, published, endpoints, err⟩),
      { a with publishing, syncErrors := a.syncErrors ++ [t.hostname ++ ": " ++ err] })

/-- The iteration for one tunnel; `used` are the hostnames of all of them. -/
def syncTunnel (used : List Hostname) (i : ℕ) (t : Tunnel) (a : SyncAcc) :
    (Tunnel × TunnelSyncResult) × SyncAcc :=
  if t.hostname ≠ "" then publishNamed force input i t a
  else
    match lookupErr with
    | some err => ((t, ⟨"", t.target, false, 0, err⟩), a)
    | none =>
      match a.naming.assign used (input.generate i) with
      | (.error e, naming) =>
        let err := "requesting hostname: " ++ e
        ((t, ⟨"", t.target, false, 0, err⟩),
          { a with naming, syncErrors := a.syncErrors ++ [t.target ++ ": " ++ err] })
      | (.ok hostname, naming) =>
        publishNamed force input i { t with hostname } { a with naming, hostnameAssigned := true }

/-- The loop, with the tunnels that it is through with. -/
def syncTunnels : List Tunnel → List Tunnel → SyncAcc → List (Tunnel × TunnelSyncResult) × SyncAcc
  | _, [], a => ([], a)
  | done, t :: rest, a =>
    let used := (done ++ t :: rest).map Tunnel.hostname
    match syncTunnel force input lookupErr used done.length t a with
    | (x, a) =>
      match syncTunnels (done ++ [x.1]) rest a with
      | (xs, a) => (x :: xs, a)

def recordSyncResult (now : ℤ) (result : SyncResult) (c : Client) : Client :=
  if !result.pendingPublication then
    { c with lastSync := result, syncBackoff := 0, nextSync := none }
  else
    let syncBackoff :=
      min (if c.syncBackoff = 0 then checkInterval else 2 * c.syncBackoff) maxBackoff
    { c with lastSync := result, syncBackoff, nextSync := some (now + syncBackoff) }

def lookupNames (tunnels : List Tunnel) : Option String × List Hostname :=
  if force ∨ tunnels.any (·.hostname = "") then
    match input.lookup with
    | .error e => (some ("querying registered hostnames: " ++ e), [])
    | .ok names => (none, Naming.free (tunnels.map Tunnel.hostname) names)
  else (none, [])

/-- The loop over the tunnels of the configuration. -/
def syncLoop (c : Client) : List (Tunnel × TunnelSyncResult) × SyncAcc :=
  let publication := if force then fun _ => none else c.publication
  let (lookupErr, available) := lookupNames force input c.tunnels
  syncTunnels force input lookupErr [] c.tunnels
    ⟨⟨available, none, c.hostnameNextCandidate, c.registered, []⟩, ⟨publication, c.ops, c.skips⟩,
      false, lookupErr.toList⟩

def syncRun (c : Client) : SyncRun where
  before := c.tunnels
  after := (syncLoop force input c).1.map Prod.fst
  registered := c.registered
  lookup := if force ∨ c.tunnels.any (·.hostname = "") then some input.lookup else none
  calls := (syncLoop force input c).2.naming.calls

def looped (c : Client) : Client :=
  let a := (syncLoop force input c).2
  { c with
    publication := a.publishing.publication
    hostnameNextCandidate := a.naming.nextCandidate
    registered := a.naming.registered
    ops := a.publishing.ops
    skips := a.publishing.skips
    runs := syncRun force input c :: c.runs }

def syncConfigTunnels (c : Client) : Client × SyncResult :=
  let saved := !c.lastSync.applied || c.lastSync.saved
  let (xs, a) := syncLoop force input c
  let (c, saved, syncErrors) :=
    if force ∨ a.hostnameAssigned then
      let (c, err) :=
        rebuildTunnels parseTarget (xs.map Prod.fst) input.write (looped force input c)
      (c, err.isNone, a.syncErrors ++ err.toList)
    else if !saved then
      (looped force input c, saved, a.syncErrors ++ ["configuration changes are not saved"])
    else (looped force input c, saved, a.syncErrors)
  let result : SyncResult := ⟨true, saved, joinErrors syncErrors, xs.map Prod.snd⟩
  (recordSyncResult input.now result c, result)

end Sync

/-- The gateways that were alive before and after, how many were not, whether the context is done,
and the time. -/
structure ReconcileInput where
  prev : List Gateway
  failed : ℕ
  now : List Gateway
  cancelled : Bool
  time : ℤ

inductive Removal where
  | unpublish
  | release
  deriving DecidableEq, Repr

section Operations

variable (parseTarget : String → Except String String)

def reconcileConnections (r : ReconcileInput) (input : SyncInput) (c : Client) : Client :=
  let changed := 0 < r.failed ∨ endpointSignature r.prev ≠ endpointSignature r.now
  if r.cancelled then c
  else
    let retryPending :=
      c.lastSync.pendingPublication ∧ (c.nextSync.all fun next => ¬ r.time < next)
    let c := if changed then { c with publication := fun _ => none } else c
    if changed ∨ retryPending then (syncConfigTunnels parseTarget false input c).1 else c

def doReload (file : Except String (List Tunnel)) (input : SyncInput) (c : Client) :
    Client × SyncResult :=
  match file with
  | .error e => (c, ⟨false, false, e, []⟩)
  | .ok tunnels =>
    match validate parseTarget tunnels with
    | .error e => (c, ⟨false, false, "error validating config file: " ++ e, []⟩)
    | .ok () => syncConfigTunnels parseTarget true input { c with tunnels }

/-- What a removal that may have taken effect does at the gateways. -/
def Client.removed (c : Client) (removal : Removal) (hostname : Hostname) : Client :=
  { c with
    ops := ⟨hostname, .remove⟩ :: c.ops
    registered :=
      if removal = .release then c.registered.filter (· ≠ hostname) else c.registered }

def remainingResult (result : SyncResult) (t : Tunnel) : TunnelSyncResult :=
  (result.tunnels.find? fun previous =>
      previous.hostname = t.hostname ∧ previous.target = t.target).getD
    ⟨t.hostname, t.target, false, 0, "publication pending"⟩

/-- The tunnel is taken out of the configuration, if it is there. -/
def removeTunnel (hostname : Hostname) (write : Option String) (now : ℤ) (c : Client) :
    Client × Option String :=
  match c.tunnels.findIdx? (·.hostname = hostname) with
  | none => (c, none)
  | some index =>
    let tunnels := c.tunnels.eraseIdx index
    let saveErr := write.map saveError
    let remaining := tunnels.map (remainingResult c.lastSync)
    let pendingErrors :=
      (remaining.filter (·.error ≠ "")).map fun r => r.hostname ++ ": " ++ r.error
    let result : SyncResult :=
      ⟨true, saveErr.isNone, joinErrors (pendingErrors ++ saveErr.toList), remaining⟩
    let c := { c with tunnels, publication := Function.update c.publication hostname none }
    (recordSyncResult now result c, saveErr)

def tunnelRemovalWrapper (removal : Removal) (hostname : Hostname) (o : RemovalOutcome)
    (write : Option String) (now : ℤ) (c : Client) : Client × Option String :=
  match o with
  | .failed err => (c, some err)
  | .lost err => (c.removed removal hostname, some err)
  | .ok => removeTunnel hostname write now (c.removed removal hostname)

inductive Op where
  | sync (force : Bool) (input : SyncInput)
  | reconcile (r : ReconcileInput) (input : SyncInput)
  | reload (file : Except String (List Tunnel)) (input : SyncInput)
  | remove (removal : Removal) (hostname : Hostname) (o : RemovalOutcome) (write : Option String)
      (now : ℤ)

def Op.apply (c : Client) : Op → Client
  | .sync force input => (syncConfigTunnels parseTarget force input c).1
  | .reconcile r input => reconcileConnections parseTarget r input c
  | .reload file input => (doReload parseTarget file input c).1
  | .remove removal hostname o write now =>
    (tunnelRemovalWrapper removal hostname o write now c).1

def run (ops : List Op) (c : Client) : Client := ops.foldl (Op.apply parseTarget) c

end Operations

end Specter.TunClient
