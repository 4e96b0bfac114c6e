import Specter.Handlers
import Specter.Lib.Flight

/-!
# Cached WAF policies

A gateway keeps the policy that is saved for a hostname for a while.  Reads of one hostname share a
load.  Saving a policy and releasing the hostname at this server invalidate what is cached, which
does not stop a load that is under way; at other servers, they do not even do that.

The model is one hostname at one server, with the store that all servers share.  What the store has
at each time and what every read returns is recorded.
-/

namespace Specter.Tunnel.WafCache

open Lib

def hostWAFCacheTTL : ℤ := 30 * second

structure Entry where
  record : Option HostWAFRecord
  expiresAt : ℤ
  deriving DecidableEq, Repr

inductive ReadError where
  | failure (f : Failure)
  | ctxDone
  | deadlineExceeded
  deriving DecidableEq, Repr

inductive WafAct where
  | rpc (a : Act)
  | ctxErr
  | now
  /-- `hostWAFCache.Get`, `SetWithTTL` and `Delete`. -/
  | get
  | set (entry : Entry)
  | delete (hostname : Hostname)
  /-- `hostWAFLoads.DoChan`; the answer says whether a goroutine is to be started. -/
  | doChan
  /-- The `select` that waits for a flight; `none` is that a context is done first. -/
  | await (flight : ℕ)
  | board
  | land (flight : ℕ) (res : Except ReadError Entry)
  /-- A read returns, `time` being when it last looked at the clock. -/
  | returns (record : Option HostWAFRecord) (time : ℤ)

inductive WafTask where
  | readCachedHostWAF
  /-- `SetHostWAF` and `ReleaseTunnel` at this server. -/
  | setHostWAF (owner : Token) (hostname : Hostname) (policy : Option WAFPolicy)
      (expectedVersion : String)
  | releaseTunnel (token : Token) (hostname : Hostname)
  | other (τ : Task)
  | kv (op : KvOp)
  | flight

def wafSig : Sig where
  Act := WafAct
  Res
    | .rpc a => a.Res
    | .ctxErr => Bool
    | .now => ℤ
    | .get => Option Entry
    | .doChan => ℕ × Bool
    | .await _ => Option (Except ReadError Entry)
    | .board => ℕ
    | .set _ | .delete _ | .land .. | .returns .. => Unit
  Task := WafTask

structure WafState where
  clock : ℤ
  store : StoreState
  /-- What the store has had for the hostname, and at what time, the latest first. -/
  history : List (ℤ × Option Value)
  cache : Option Entry
  flights : Flights Unit (Except ReadError Entry)
  returned : List (Option HostWAFRecord × ℤ)

/-- What the environment decides: the outcome of steps on the store, the time, whether the cache has
dropped its entry, and whether a context is done. -/
structure WafLabel where
  store : Label
  now : ℤ
  dropped : Bool
  cancelled : Bool

namespace WafState

def start (hostname : Hostname) (clock : ℤ) (w : World) : WafState where
  clock := clock
  store := ⟨w, []⟩
  history := [(clock, w.simple (.hostWAF hostname))]
  cache := none
  flights := .empty
  returned := []

def withStore (s : WafState) (hostname : Hostname) (store : StoreState) : WafState :=
  { s with store, history := (s.clock, store.world.simple (.hostWAF hostname)) :: s.history }

def exec (hostname : Hostname) (l : WafLabel) (t : ℕ) (s : WafState) :
    (a : WafAct) → Option (wafSig.Res a × WafState)
  | .rpc a =>
    if s.clock ≤ l.now then
      (StoreState.exec l.store t s.store a).map fun (r, store) =>
        (r, { s with clock := l.now }.withStore hostname store)
    else none
  | .ctxErr => some (l.cancelled, s)
  | .now => if s.clock ≤ l.now then some (l.now, { s with clock := l.now }) else none
  | .get => some (if l.dropped then none else s.cache, s)
  | .set entry => some ((), { s with cache := some entry })
  | .delete h => some ((), if h = hostname then { s with cache := none } else s)
  | .doChan => some ((s.flights.join ()).1, { s with flights := (s.flights.join ()).2 })
  | .await flight =>
    if l.cancelled then some (none, s)
    else (s.flights.landed.lookup flight).map fun res => (some res, s)
  | .board => (s.flights.board t).map fun ((id, ()), flights) => (id, { s with flights })
  | .land flight res => some ((), { s with flights := s.flights.land flight res })
  | .returns record time => some ((), { s with returned := (record, time) :: s.returned })

end WafState

abbrev WafProg := Prog wafSig

def act (a : WafAct) : WafProg (wafSig.Res a) := Prog.perform (S := wafSig) a

/-- A program of a handler, which has no part in the cache. -/
def rpc {α : Type} (p : Rpc α) : WafProg α := p.lift WafAct.rpc (fun _ r => r) WafTask.other

theorem rpc_bind {α β : Type} (p : Rpc α) (f : α → Rpc β) :
    rpc (p >>= f) = rpc p >>= fun a => rpc (f a) :=
  Prog.lift_bind

/-- The cached entry, with the time it was found to be valid at. -/
def cached : WafProg (Option (Entry × ℤ)) := do
  let entry : Option Entry ← act .get
  match entry with
  | none => return none
  | some entry =>
    let time : ℤ ← act .now
    if time < entry.expiresAt then return some (entry, time) else return none

def goFlight (created : Bool) : WafProg Unit :=
  if created then Prog.start (S := wafSig) .flight else pure ()

def readCachedHostWAF : WafProg (Except ReadError (Option HostWAFRecord)) := do
  let done : Bool ← act .ctxErr
  if done then return .error .ctxDone
  else
    match ← cached with
    | some (entry, time) =>
      act (.returns entry.record time)
      return .ok entry.record
    | none =>
      let (flight, created) ← (act .doChan : WafProg (ℕ × Bool))
      goFlight created
      let result : Option (Except ReadError Entry) ← act (.await flight)
      match result with
      | none => return .error .ctxDone
      | some (.error e) => return .error e
      | some (.ok entry) =>
        let time : ℤ ← act .now
        if time < entry.expiresAt then
          act (.returns entry.record time)
          return .ok entry.record
        else return .error .deadlineExceeded

/-- The entry is cached unless it has expired. -/
def keep (entry : Entry) : WafProg Unit := do
  let time : ℤ ← act .now
  if 0 < entry.expiresAt - time then
    act (.set entry)
    return ()
  else return ()

def flight (w : WafCodec) (hostname : Hostname) : WafProg Unit := do
  let id : ℕ ← act .board
  match ← cached with
  | some (entry, _) => act (.land id (.ok entry))
  | none =>
    let start : ℤ ← act .now
    match ← rpc (readHostWAF w hostname) with
    | .error f => act (.land id (.error (.failure f)))
    | .ok (record, _) =>
      let done : Bool ← act .ctxErr
      if done then act (.land id (.error .ctxDone))
      else
        let entry : Entry := ⟨record, start + hostWAFCacheTTL⟩
        keep entry
        act (.land id (.ok entry))

section Handlers

variable (normalize : String → Except String Hostname) (w : WafCodec)

def withLease {α : Type} (key : Key) (failed : ChordError → RpcError)
    (p : WafProg (Except RpcError α)) : WafProg (Except RpcError α) := do
  match ← rpc (kv (.acquire key)) with
  | .error e => return .error (failed e)
  | .ok lease =>
    let res ← p
    let _ ← rpc (kv (.release key lease))
    return res

def replaceHostWAF (owner : Token) (hostname : Hostname) (record : HostWAFRecord) (data : Bytes)
    (expectedVersion : String) : WafProg (Except RpcError Response) := do
  match ← rpc (requireWAFHostname owner hostname) with
  | .error e => return .error e
  | .ok () =>
    match ← rpc (readHostWAF w hostname) with
    | .error f => return .error (Code.unavailable.because "" f)
    | .ok found =>
      if (ownHostWAF owner found).2 ≠ expectedVersion then
        return .error (Code.failedPrecondition.error
          "WAF settings changed; refresh before saving again")
      else
        let res ← rpc (kv (.put (.hostWAF hostname) (.bytes data)))
        act (.delete hostname)
        match res with
        | .error e =>
          return .error (Code.unavailable.because "WAF save result is uncertain" (.kv e))
        | .ok () =>
          return .ok (hostWAFResponse hostname (hostWAFVersion w hostname data) (some record))

def setHostWAF (owner : Token) (hostname : Hostname) (policy : Option WAFPolicy)
    (expectedVersion : String) : WafProg (Except RpcError Response) :=
  match normalizeWAFHostname normalize hostname, policy with
  | .error e, _ => return .error e
  | .ok _, none => return .error (Code.invalidArgument.error "policy is required")
  | .ok hostname, some input =>
    match validatePolicy w input with
    | .error msg => return .error (Code.invalidArgument.error msg)
    | .ok policy =>
      let record : HostWAFRecord := ⟨1, owner, policy⟩
      let data := w.record record
      if data.length > maxHostWAFBytes then
        return .error (Code.invalidArgument.error "WAF policy exceeds size limit")
      else
        withLease (.clientLease owner)
          (fun e => Code.unavailable.because "could not acquire owner lease" (.kv e))
          (replaceHostWAF w owner hostname record data expectedVersion)

def clearHostWAF (owner : Token) (hostname : Hostname) : WafProg (Except Failure Unit) := do
  let res ← rpc (Tunnel.clearHostWAF w owner hostname)
  -- deferred, so whatever became of the rest
  act (.delete hostname)
  return res

def releaseTunnel (token : Token) (hostname : Hostname) : WafProg (Except RpcError Response) :=
  withLease (.clientLease token)
    (fun e => Code.internal.because "error acquiring lease for releasing tunnel" (.kv e)) do
    match ← rpc (unadvertiseTunnel token hostname) with
    | .error e => return .error e
    | .ok () =>
      match ← clearHostWAF w token hostname with
      | .error f => return .error (wrapErrorKV f)
      | .ok () =>
        match ← rpc (kv (.prefixRemove (.clientHostnames token) hostname)) with
        | .error e => return .error (wrapErrorKV (.kv e))
        | .ok () =>
          let _ ← rpc (kv (.delete (.customHostname hostname)))
          return .ok .released

end Handlers

def body (g : Given) (hostname : Hostname) : WafTask → WafProg Unit
  | .readCachedHostWAF => do
    let _ ← readCachedHostWAF
  | .setHostWAF owner h policy expectedVersion => do
    let _ ← setHostWAF g.acme.normalize g.waf owner h policy expectedVersion
  | .releaseTunnel token h => do
    let _ ← releaseTunnel g.waf token h
  | .other τ => rpc (Tunnel.body g τ)
  | .kv op => do
    let _ ← rpc (kv op)
  | .flight => flight g.waf hostname

/-- One hostname at a server, and the store. -/
def hostWAFCache (g : Given) (hostname : Hostname) : Machine wafSig WafState WafLabel where
  exec := WafState.exec hostname
  body := body g hostname

end Specter.Tunnel.WafCache
