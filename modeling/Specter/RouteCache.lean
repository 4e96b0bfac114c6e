import Specter.Lib.Flight
import Specter.Session

/-!
# Cached routes

Lookups of one hostname share a load.  A caller for whom none of the routes works passes the result
as stale and gets the one that has replaced it, or makes a load replace it, unless it is itself the
outcome of such a refresh and has not cooled down.  The model is one hostname at one server.  A
result is known by its place in the order of loading.
-/

namespace Specter.Tunnel

open Lib

def routePositiveTTL : ℤ := 5 * 60 * second

def routeNegativeTTL : ℤ := 15 * second

def routeFailedTTL : ℤ := 5 * second

inductive RouteError where
  | destinationNotFound
  | lookupFailed
  deriving DecidableEq, Repr

structure RoutesResult where
  err : Option RouteError
  routes : List TunnelRoute
  refreshAfter : Option ℤ
  deriving DecidableEq, Repr

structure Loaded where
  value : RoutesResult
  ttl : ℤ
  deriving DecidableEq, Repr

/-- What becomes of the lookup of one routing key. -/
inductive RouteLookup where
  | found (route : TunnelRoute)
  | notExist
  | failed
  deriving DecidableEq, Repr

def RouteLookup.route : RouteLookup → Option TunnelRoute
  | .found route => some route
  | _ => none

/-- The routes to this address come first, in the order they are in. -/
def prioritize (localAddress : String) (routes : List TunnelRoute) : List TunnelRoute :=
  routes.filter (·.tunnelDestination.address = localAddress) ++
    routes.filter (·.tunnelDestination.address ≠ localAddress)

def routeCacheLoader (localAddress : String) (lookups : List RouteLookup) : Loaded :=
  let numNotFound := lookups.count .notExist
  let numError := lookups.count .failed
  if lookups.length = numNotFound then
    ⟨⟨some .destinationNotFound, [], none⟩, routeNegativeTTL⟩
  else if lookups.length = numNotFound + numError then
    ⟨⟨some .lookupFailed, [], none⟩, routeFailedTTL⟩
  else
    ⟨⟨none, prioritize localAddress (lookups.filterMap RouteLookup.route), none⟩, routePositiveTTL⟩

/-- What becomes of the search for the server that an ephemeral label names. -/
inductive HomeLookup where
  | found (dst : TunnelDestination)
  | notFound
  | failed
  deriving DecidableEq, Repr

def ephemeralRouteLoader (label : Hostname) (inv : Bytes) : HomeLookup → Loaded
  | .failed => ⟨⟨some .lookupFailed, [], none⟩, routeFailedTTL⟩
  | .notFound => ⟨⟨some .destinationNotFound, [], none⟩, routeNegativeTTL⟩
  | .found dst =>
    ⟨⟨none, [⟨⟨0, aliasOf inv, true⟩, dst.chord, dst.tunnel, label⟩], none⟩, routePositiveTTL⟩

/-- The hostname, with what its label holds if it is an ephemeral one, and the server's address. -/
structure RouteSite where
  hostname : Hostname
  ephemeral : Option Bytes
  localAddress : String

inductive ConnOutcome where
  | conn
  | noDirect
  | failed
  deriving DecidableEq, Repr

inductive RouteAct where
  | ctxErr
  | now
  | get
  /-- The fields of a result, which do not change. -/
  | deref (ret : ℕ)
  /-- `routeLoads.DoChan`, with what its function closes over.  The answer says whether a goroutine
  is to be started. -/
  | doChan (stale : Option ℕ)
  /-- The `select` that waits for a flight; `none` is that a context is done first. -/
  | await (flight : ℕ)
  | board
  | beginLoad (stale : Option ℕ)
  | load
  /-- `routeCache.SetWithTTL` of a new result. -/
  | set (value : RoutesResult) (ttl : ℤ)
  | land (flight ret : ℕ)
  | received (stale : Option ℕ) (ret : ℕ)
  | getConn (route : TunnelRoute)

inductive RouteTask where
  | dialClient
  | checkRoute
  | routesPreload
  | flight
  deriving DecidableEq, Repr

def routeSig : Sig where
  Act := RouteAct
  Res
    | .ctxErr => Bool
    | .now => ℤ
    | .get => Option ℕ
    | .deref _ => RoutesResult
    | .doChan _ => ℕ × Bool
    | .await _ => Option ℕ
    | .board => ℕ × Option ℕ
    | .load => Loaded
    | .set .. => ℕ
    | .beginLoad _ | .land .. | .received .. => Unit
    | .getConn _ => ConnOutcome
  Task := RouteTask

inductive RouteEvent where
  /-- A load begins, for a caller who passed `stale`, with this in the cache until then. -/
  | started (stale : Option ℕ) (time : ℤ) (cached : Option (ℕ × ℤ))
  | received (stale : Option ℕ) (ret : ℕ)
  | cancelled (t : ℕ)
  deriving DecidableEq

/-- A result, what the caller had passed whom it was loaded for, and when its loader returned. -/
structure Load where
  result : RoutesResult
  stale : Option ℕ
  loadedAt : ℤ
  deriving DecidableEq, Repr

structure RouteState where
  clock : ℤ
  /-- What the caller passed whom the last load began for. -/
  loadFor : Option ℕ
  /-- When the loader returned last. -/
  returned : ℤ
  loads : List Load
  /-- The cached result, and until when it is kept. -/
  cache : Option (ℕ × ℤ)
  flights : Flights (Option ℕ) ℕ
  log : List RouteEvent

def RouteState.start (clock : ℤ) : RouteState := ⟨clock, none, clock, [], none, .empty, []⟩

/-- What the environment decides: the reading of the clock, whether an entry outlives its time,
whether a context is done, and what lookups and connections become of. -/
structure RouteLabel where
  now : ℤ
  keep : Bool
  cancelled : Bool
  lookups : Fin numRedundantLinks → RouteLookup
  home : HomeLookup
  conn : ConnOutcome

namespace RouteState

/-- A step that reads the clock, which does not go back. -/
def timed {α : Type} (s : RouteState) (now : ℤ) (f : RouteState → α × RouteState) :
    Option (α × RouteState) :=
  if s.clock ≤ now then some (f { s with clock := now }) else none

/-- An entry is kept until its time has come, and may be kept longer. -/
def lookup (s : RouteState) (keep : Bool) : Option ℕ :=
  match s.cache with
  | none => none
  | some (ret, expiry) => if s.clock < expiry ∨ keep then some ret else none

def loaded (site : RouteSite) (l : RouteLabel) : Loaded :=
  match site.ephemeral with
  | some inv => ephemeralRouteLoader site.hostname inv l.home
  | none => routeCacheLoader site.localAddress (List.ofFn l.lookups)

def cancel (s : RouteState) (t : ℕ) : RouteState := { s with log := .cancelled t :: s.log }

def exec (site : RouteSite) (l : RouteLabel) (t : ℕ) (s : RouteState) :
    (a : RouteAct) → Option (routeSig.Res a × RouteState)
  | .ctxErr => some (l.cancelled, if l.cancelled then s.cancel t else s)
  | .now => s.timed l.now fun s => (s.clock, s)
  | .get => s.timed l.now fun s => (s.lookup l.keep, s)
  | .deref ret => (s.loads[ret]?).map fun load => (load.result, s)
  | .doChan stale => some ((s.flights.join stale).1, { s with flights := (s.flights.join stale).2 })
  | .await flight =>
    if l.cancelled then some (none, s.cancel t)
    else (s.flights.landed.lookup flight).map fun ret => (some ret, s)
  | .board => (s.flights.board t).map fun (x, flights) => (x, { s with flights })
  | .beginLoad stale => s.timed l.now fun s =>
    ((), { s with loadFor := stale, log := .started stale s.clock s.cache :: s.log })
  | .load => s.timed l.now fun s => (loaded site l, { s with returned := s.clock })
  | .set value ttl => s.timed l.now fun s =>
    (s.loads.length,
      { s with
        loads := s.loads ++ [⟨value, s.loadFor, s.returned⟩]
        cache := some (s.loads.length, s.clock + ttl) })
  | .land flight ret => some ((), { s with flights := s.flights.land flight ret })
  | .received stale ret => some ((), { s with log := .received stale ret :: s.log })
  | .getConn _ => some (l.conn, s)

end RouteState

abbrev RouteProg := Prog routeSig

namespace RouteCache

def act (a : RouteAct) : RouteProg (routeSig.Res a) := Prog.perform (S := routeSig) a

/-- The cached result, unless it is the stale one and has cooled down. -/
def cached (stale : Option ℕ) : RouteProg (Option ℕ) := do
  let entry : Option ℕ ← act .get
  match entry with
  | none => return none
  | some ret =>
    if some ret ≠ stale then return some ret
    else
      let result : RoutesResult ← act (.deref ret)
      let time : ℤ ← act .now
      match result.refreshAfter with
      | some refreshAfter => if time < refreshAfter then return some ret else return none
      | none => return none

def goFlight (created : Bool) : RouteProg Unit :=
  if created then Prog.start (S := routeSig) .flight else pure ()

def lookupRoutes (stale : Option ℕ) : RouteProg (Option ℕ) := do
  let done : Bool ← act .ctxErr
  if done then return none
  else
    match ← cached stale with
    | some ret =>
      act (.received stale ret)
      return some ret
    | none =>
      let (flight, created) ← (act (.doChan stale) : RouteProg (ℕ × Bool))
      goFlight created
      let result : Option ℕ ← act (.await flight)
      match result with
      | none => return none
      | some ret =>
        act (.received stale ret)
        return some ret

/-- When the result may be refreshed, if it is itself that of a refresh. -/
def stamp : Option ℕ → RouteProg (Option ℤ)
  | some _ => do
    let time : ℤ ← act .now
    return some (time + routeFailedTTL)
  | none => return none

/-- The function of a flight, whose `stale` is that of the caller who set it up. -/
def flight : RouteProg Unit := do
  let (id, stale) ← (act .board : RouteProg (ℕ × Option ℕ))
  match ← cached stale with
  | some ret => act (.land id ret)
  | none =>
    act (.beginLoad stale)
    let loaded : Loaded ← act .load
    let refreshAfter ← stamp stale
    let ret : ℕ ← act (.set { loaded.value with refreshAfter } loaded.ttl)
    act (.land id ret)

inductive DialResult where
  | conn
  | ctxDone
  | err (e : RouteError)
  | tunnelClientNotConnected
  deriving DecidableEq, Repr

/-- Either what the dial returns, or whether there was no route to the client. -/
def tryRoutes : List TunnelRoute → Bool → RouteProg (DialResult ⊕ Bool)
  | [], isNoRoute => do
    let done : Bool ← act .ctxErr
    if done then return .inl .ctxDone else return .inr isNoRoute
  | route :: rest, isNoRoute => do
    let done : Bool ← act .ctxErr
    if done then return .inl .ctxDone
    else
      let outcome : ConnOutcome ← act (.getConn route)
      match outcome with
      | .conn => return .inl .conn
      | .noDirect => tryRoutes rest true
      | .failed => tryRoutes rest isNoRoute

def exhausted (isNoRoute : Bool) : DialResult :=
  if isNoRoute then .tunnelClientNotConnected else .err .destinationNotFound

def attempt (ret : ℕ) (isNoRoute : Bool) : RouteProg (DialResult ⊕ Bool) := do
  let result : RoutesResult ← act (.deref ret)
  match result.err with
  | some e => return .inl (.err e)
  | none => tryRoutes result.routes isNoRoute

/-- The attempts, with this number of refreshes left. -/
def dialAttempts : ℕ → ℕ → Bool → RouteProg DialResult
  | refreshes, ret, isNoRoute => do
    match ← attempt ret isNoRoute with
    | .inl r => return r
    | .inr isNoRoute =>
      match refreshes with
      | 0 => return exhausted isNoRoute
      | refreshes + 1 =>
        match ← lookupRoutes (some ret) with
        | none => return .ctxDone
        | some fresh =>
          if fresh = ret then return exhausted isNoRoute
          else dialAttempts refreshes fresh isNoRoute

def dialClient : RouteProg DialResult := do
  match ← lookupRoutes none with
  | none => return .ctxDone
  | some ret => dialAttempts 1 ret false

/-- The error of the lookup, if it returns. -/
def checkRoute : RouteProg (Option (Option RouteError)) := do
  match ← lookupRoutes none with
  | none => return none
  | some ret =>
    let result : RoutesResult ← act (.deref ret)
    return some result.err

end RouteCache

open RouteCache in
def routeCache (site : RouteSite) : Machine routeSig RouteState RouteLabel where
  exec := RouteState.exec site
  body
    | .dialClient => do
      let _ ← dialClient
    | .checkRoute => do
      let _ ← checkRoute
    | .routesPreload => do
      let _ ← lookupRoutes none
    | .flight => flight

end Specter.Tunnel
