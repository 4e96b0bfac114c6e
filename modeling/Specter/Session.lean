import Specter.Delegation

/-!
# Sessions

A client without a registration attaches with one Open call per connection: for an ephemeral
hostname that follows from its key, or with the token of a grant.  A session of a grant is open
until a deadline, which a maintenance worker extends while it finds the grant in force.
-/

namespace Specter.Tunnel

open Lib
open Config (Digest)

def maxSessions : ℕ := 1024

def revalidateGrace : ℤ := 120 * second

def sessionAliasPrefix : String := "session:"

def ephemeralLabelPrefix : String := "e1-"

def aliasOf (inv : Bytes) : String := sessionAliasPrefix ++ hex inv

/-- The label of an ephemeral hostname, and what its alias is made of. -/
def ephemeralLabel (sha256 : Bytes → Digest) (home : ℕ) (spki : Bytes) : Option (String × Bytes) :=
  if home ≥ maxIdentifier then none
  else
    let encoded := BigEndian.toBytes 6 home
    let inv := (sha256 ("specter/ephemeral/v1\x00".toUTF8.toList ++ encoded ++ spki)).toList.take 16
    some (ephemeralLabelPrefix ++ hex encoded ++ hex inv, inv)

def isSessionAlias (addr : Bytes) : Bool :=
  addr.length == 40 && addr.take 8 == sessionAliasPrefix.toUTF8.toList && lowerHex (addr.drop 8)

def parseEphemeralLabel (label : Bytes) : Option (ℕ × Bytes) :=
  if label.length ≠ 47 ∨ label.take 3 ≠ ephemeralLabelPrefix.toUTF8.toList ∨
      !lowerHex (label.drop 3) then
    none
  else
    let raw := unhex (label.drop 3)
    some ((raw.take 6).foldl (fun home b => home <<< 8 ||| b.toNat) 0, raw.drop 6)

def authorizationDeadline (certNotAfter start : ℤ) (expiry : Option ℤ) : ℤ :=
  let deadline := start + revalidateGrace
  let deadline :=
    match expiry with
    | none => deadline
    | some expiry => if expiry < deadline then expiry else deadline
  if certNotAfter < deadline then certNotAfter else deadline

/-- `fail`: the connection is closed a second later. -/
def failSession (s : ℕ) : Rpc Unit := do
  onSession s .terminate
  spawn (.closeConn s)

def closeSession (s : ℕ) : Rpc Unit := do
  onSession s .terminate
  onSession s .closeConn

def watch (s : ℕ) : Rpc Unit := do
  onSession s .awaitDone
  if ← onSession s .detach then
    onSession s .cancelWorker
    -- Unfinished storage work stays in the admission count until it returns.
    onSession s .awaitWorker
  onSession s .remove

def reserveSession (s : ℕ) : Rpc (Except RpcError Unit) := do
  match ← onSession s .reserve with
  | .ok () =>
    spawn (.watch s)
    return .ok ()
  | .error .attached =>
    return .error (Code.failedPrecondition.error "one Open attempt is allowed per attachment")
  | .error .full =>
    failSession s
    return .error (Code.resourceExhausted.error "lightweight session limit reached")
  | .error .collision =>
    spawn (.watch s)
    failSession s
    return .error (Code.permissionDenied.error "ephemeral identity collision")
  | .error .stillAttached =>
    spawn (.watch s)
    failSession s
    return .error (Code.unavailable.error "session alias is still attached")

def revalidateSession (s : ℕ) : Rpc Unit := do
  if ← ctxErr then return
  let start ← now
  match ← onSession s (.inspect start) with
  | .inactive => return
  | .expired => closeSession s
  | .current sess =>
    match ← readDelegation sess.grantID with
    | .error .delegationNotFound | .error .delegationInvalid => closeSession s
    | .error _ => return
    | .ok rec =>
      if ← ctxErr then return
      let time ← now
      if rec.hostname ≠ sess.hostname ∨ rec.owner ≠ sess.owner ∨ rec.expiry ≠ sess.grantExpiry ∨
          rec.expiry.any (· ≤ time) then
        closeSession s
      else
        match ← verifyDelegatedAuthority rec with
        | .error .delegationNotOwned => closeSession s
        | .error _ => return
        | .ok () =>
          if ← ctxErr then return
          onSession s (.extend start rec.expiry)

/-- The worker returns: its waiters go on, and then its context is done. -/
def endWorker (s : ℕ) : Rpc Unit := do
  onSession s .finishWorker
  onSession s .cancelWorker

/-- One round of the loop of `maintainSession`; the rest of the loop is a task of its own. -/
def maintaining (s : ℕ) : Rpc Unit := do
  if ← select then endWorker s
  else
    revalidateSession s
    if ← onSession s .isActive then
      spawn (.expiryTimer s)
      spawn (.maintaining s)
    else endWorker s

def maintainSession (s : ℕ) : Rpc Unit := do
  if ← onSession s .startWorker then
    spawn (.closeOnCancel s)
    spawn (.expiryTimer s)
    spawn (.maintaining s)

def closeOnCancel (s : ℕ) : Rpc Unit := do
  onSession s .awaitCancel
  closeSession s

def expiryTimer (s : ℕ) : Rpc Unit := do
  if ← onSession s .expired then closeSession s

def dial (sessionAlias : String) (hostname : Hostname) : Rpc Bool := do
  match ← session (.lookup sessionAlias) with
  | none => return false
  | some s => onSession s (.dial hostname)

section

variable (sha256 : Bytes → Digest) (site : Site)

def newSession (sessionAlias : String) (hostname : Hostname) (conn : ℕ) (mode : Mode) (spki : Bytes)
    (certNotAfter : ℤ) : Session where
  sessionAlias := sessionAlias
  hostname := hostname
  conn := conn
  mode := mode
  spki := spki
  grantID := ""
  owner := []
  grantExpiry := none
  certNotAfter := certNotAfter
  state := .provisional
  authorizedUntil := 0
  worker := none
  cancelled := false

def openEphemeralSession (conn : ℕ) (spki : Bytes) (certNotAfter : ℤ) :
    Rpc (Except RpcError Response) :=
  match ephemeralLabel sha256 site.home spki with
  | none => return .error (Code.internal.error "home ID exceeds 48 bits")
  | some (label, inv) => do
    let s ← session (.new (newSession (aliasOf inv) label conn .ephemeral spki certNotAfter))
    match ← reserveSession s with
    | .error e => return .error e
    | .ok () =>
      if ← onSession s (.activate 0) then return .ok (.opened label "" 0)
      else
        failSession s
        return .error (Code.aborted.error "ephemeral activation canceled")

/-- The rest of an Open whose grant was read, with the lease of its owner held. -/
def publishSession (s : ℕ) (sessionAlias : String) (certNotAfter : ℤ) (slot : ℕ) (start : ℤ)
    (rec : DelegationRecord) : Rpc (Except RpcError Response) := do
  match ← verifyDelegatedAuthority rec with
  | .error f => return .error (delegationAuthorityError f)
  | .ok () =>
    let route : TunnelRoute :=
      ⟨⟨0, sessionAlias, true⟩, site.chord, site.tunnel, rec.hostname⟩
    match ← kv (.put (.routing rec.hostname slot) (.route route)) with
    | .error e => return .error (Code.unavailable.because "publishing slot failed" (.kv e))
    | .ok () =>
      if ← onSession s (.activate (authorizationDeadline certNotAfter start rec.expiry)) then
        spawn (.maintain s)
        return .ok (.opened rec.hostname rec.id rec.expiresAt)
      else
        return .error (Code.aborted.error "activation canceled or authorization expired")

/-- The rest of an Open whose session was reserved. -/
def authorizeSession (s : ℕ) (sessionAlias : String) (certNotAfter : ℤ) (token : String)
    (slot : ℕ) : Rpc (Except RpcError Response) :=
  match parseDelegationToken token.toUTF8.toList with
  | none => return .error (Code.invalidArgument.error "invalid delegation token")
  | some secret => do
    let start ← now
    match ← readDelegation (delegationID sha256 secret) with
    | .error .delegationNotFound =>
      return .error (Code.unauthenticated.because "" .delegationNotFound)
    | .error .delegationInvalid =>
      return .error (Code.unauthenticated.because "" .delegationInvalid)
    | .error f => return .error (Code.unavailable.because "" f)
    | .ok rec =>
      if rec.expiresAt ≠ 0 ∧ rec.expiresAt ≤ start / second then
        return .error (Code.permissionDenied.error "grant has expired")
      else
        onSession s (.setAuthority rec.hostname rec.id rec.owner rec.expiry)
        withLease (.clientLease rec.owner)
          (fun e => Code.unavailable.because "acquiring owner lease" (.kv e))
          (publishSession site s sessionAlias certNotAfter slot start rec)

def openDelegatedSession (conn : ℕ) (certNotAfter : ℤ) (token : String) (slot : ℕ) (inv : Bytes) :
    Rpc (Except RpcError Response) :=
  if slot < 1 ∨ slot > numRedundantLinks then
    return .error (Code.invalidArgument.error "route_slot must be between 1 and 3")
  else do
    let s ← session (.new (newSession (aliasOf inv) "" conn .delegated [] certNotAfter))
    match ← reserveSession s with
    | .error e => return .error e
    | .ok () =>
      match ← authorizeSession sha256 site s (aliasOf inv) certNotAfter token slot with
      | .error e =>
        failSession s
        return .error e
      | .ok r => return .ok r

end

end Specter.Tunnel
