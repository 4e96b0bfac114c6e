import Mathlib.Data.List.Infix
import Specter.Delegation
import Specter.Lib.Compact

/-!
# Hostnames

A client publishes routes for the hostnames in its index, and keeps a firewall policy for each.  A
custom hostname also has a record that names its client; both are written by `AcmeValidate` without
a lease, and removed by `ReleaseTunnel` under the lease of the client.
-/

namespace Specter.Tunnel

open Lib
open Config (Digest)

structure Acme where
  acme : String
  apex : String
  normalize : String → Except String Hostname
  /-- The hashed token of a client, in hexadecimal. -/
  encodeClientToken : Token → String

/-- The name and the content of the CNAME record that shows control of a hostname. -/
def generateCustomRecord (g : Acme) (zone : Hostname) (token : Token) : String × String :=
  let dot (name : String) := if name.toList.getLast? = some '.' then name else name ++ "."
  (dot ("_acme-challenge." ++ zone), dot (g.encodeClientToken token ++ "." ++ g.acme))

section Acme

variable (g : Acme)

def checkAcme (hostname : Hostname) (proof : Bool) (token : Token) (client : Peer) :
    Rpc (Except RpcError Bool) :=
  let invalid := Code.invalidArgument.error "provided hostname is not valid for custom hostname"
  if !proof then return .error (Code.invalidArgument.error "invalid proof of work")
  else if g.acme.toList <:+: hostname.toList ∨ g.apex.toList <:+: hostname.toList then
    return .error invalid
  else if hostname.toList.count '.' < 2 then
    return .error (Code.invalidArgument.error "custom domain is not supported on bare domain")
  else do
    match ← findCustomHostname hostname with
    | .ok bundle =>
      if bundle.clientToken ≠ token ∨ bundle.clientIdentity.id ≠ client.id ∨
          bundle.clientIdentity.address ≠ client.address then
        return .error invalid
      else return .ok true
    | .error .hostnameNotFound => return .ok false
    | .error f => return .error (Code.internal.because "" f)

/-- The record of a validated hostname, and its place in the index of the client. -/
def saveCustomHostname (hostname : Hostname) (token : Token) (client : Peer) :
    Rpc (Except RpcError Response) := do
  match ← kv (.put (.customHostname hostname) (.custom ⟨client, token⟩)) with
  | .error e => return .error (Code.internal.because "" (.kv e))
  | .ok () =>
    match ← kv (.prefixAppend (.clientHostnames token) hostname) with
    | .error .kvPrefixConflict => return .ok .validated
    | .error e => return .error (Code.internal.because "" (.kv e))
    | .ok () => return .ok .validated

def acmeValidate (token : Token) (client : Peer) (hostname : Hostname) (proof : Bool) :
    Rpc (Except RpcError Response) :=
  match g.normalize hostname with
  | .error msg => return .error (Code.invalidArgument.error msg)
  | .ok hostname => do
    match ← checkAcme g hostname proof token client with
    | .error e => return .error e
    | .ok true => saveCustomHostname hostname token client
    | .ok false =>
      let (name, content) := generateCustomRecord g hostname token
      match ← lookupCNAME name with
      | none => return .error (Code.failedPrecondition.error "no such host")
      | some cname =>
        if cname ≠ content then
          return .error (Code.failedPrecondition.error "unexpected CNAME content")
        else saveCustomHostname hostname token client

end Acme

def maxHostWAFBytes : ℕ := 64 * 2 ^ 10

def maxExclusions : ℕ := 32

def maxPolicyBytes : ℕ := 48 * 2 ^ 10

structure HostWAFRecord where
  schema : ℕ
  owner : Bytes
  policy : WAFPolicy
  deriving DecidableEq, Repr

/-- `protojson`, and the digest of saved policies. -/
structure WafCodec where
  policy : WAFPolicy → Bytes
  record : HostWAFRecord → Bytes
  decode : Bytes → Option HostWAFRecord
  sha256 : Bytes → Digest

def defaultPolicy : WAFPolicy := ⟨.inherit, []⟩

/-- What is wrong with an exception. -/
def WAFExclusion.invalid (e : WAFExclusion) : Option String :=
  if e.ruleId < 100000 ∨ e.ruleId > 999999 then some "rule_id must be a six-digit rule ID"
  else if e.path.utf8ByteSize > 1024 ∨ (e.path ≠ "" ∧ e.path.toList.head? ≠ some '/') ∨
      e.path.toList.any fun c => c = '?' || c = '#' || Config.isControl c then
    some "path must be an exact URL path without a query or fragment, up to 1024 bytes"
  else none

def WAFExclusion.le (a b : WAFExclusion) : Bool :=
  a.ruleId < b.ruleId || (a.ruleId == b.ruleId && !(b.path < a.path))

section Waf

variable (normalize : String → Except String Hostname) (w : WafCodec)

def validatePolicy (p : WAFPolicy) : Except String WAFPolicy :=
  if p.mode = .unknown then .error "mode must be INHERIT, BLOCK, MONITOR, or OFF"
  else if p.exclusions.length > maxExclusions then .error "at most 32 rule exceptions are allowed"
  else
    match p.exclusions.findSome? WAFExclusion.invalid with
    | some msg => .error msg
    | none =>
      let p := { p with exclusions := compact (p.exclusions.mergeSort WAFExclusion.le) }
      if (w.policy p).length > maxPolicyBytes then
        .error "rule exceptions exceed the 49152-byte policy limit"
      else .ok p

def normalizeWAFHostname (hostname : Hostname) : Except RpcError Hostname :=
  if hostname = "" ∨ hostname.utf8ByteSize > 253 then
    .error (Code.invalidArgument.error "hostname is required and must fit a DNS name")
  else
    match normalizeDelegationHostname normalize hostname with
    | .error msg => .error (Code.invalidArgument.error msg)
    | .ok hostname => .ok hostname

def hostWAFVersion (hostname : Hostname) (data : Bytes) : String :=
  if data = [] then "" else hex (w.sha256 ((hostname ++ "\x00").toUTF8.toList ++ data)).toList

def decodeHostWAF (hostname : Hostname) (data : Bytes) :
    Except Failure (Option HostWAFRecord × String) :=
  if data = [] then .ok (none, "")
  else if data.length > maxHostWAFBytes then .error .hostWAFTooLarge
  else
    match w.decode data with
    | none => .error .hostWAFInvalid
    | some record =>
      if record.schema ≠ 1 ∨ record.owner = [] then .error .hostWAFUnsupported
      else
        match validatePolicy w record.policy with
        | .error _ => .error .hostWAFInvalid
        | .ok policy => .ok (some { record with policy }, hostWAFVersion w hostname data)

def readHostWAF (hostname : Hostname) : Rpc (Except Failure (Option HostWAFRecord × String)) := do
  match ← kv (.get (.hostWAF hostname)) with
  | .error e => return .error (.hostWAFUnavailable e)
  | .ok none => return .ok (none, "")
  | .ok (some (.bytes data)) => return decodeHostWAF w hostname data
  | .ok (some _) => return .error .hostWAFInvalid

def requireWAFHostname (owner : Token) (hostname : Hostname) : Rpc (Except RpcError Unit) := do
  match ← ownsHostname owner hostname with
  | .error f => return .error (Code.unavailable.because "could not verify hostname ownership" f)
  | .ok false =>
    return .error (Code.permissionDenied.error "hostname is not registered to this client")
  | .ok true => return .ok ()

/-- The record and its version, unless they are of another owner. -/
def ownHostWAF (owner : Token) : Option HostWAFRecord × String → Option HostWAFRecord × String
  | (some record, version) => if record.owner ≠ owner then (none, "") else (some record, version)
  | (none, version) => (none, version)

def hostWAFResponse (hostname : Hostname) (version : String) (record : Option HostWAFRecord) :
    Response :=
  .hostWAF hostname version ((record.map HostWAFRecord.policy).getD defaultPolicy)

def getHostWAF (owner : Token) (hostname : Hostname) : Rpc (Except RpcError Response) :=
  match normalizeWAFHostname normalize hostname with
  | .error e => return .error e
  | .ok hostname => do
    match ← requireWAFHostname owner hostname with
    | .error e => return .error e
    | .ok () =>
      match ← readHostWAF w hostname with
      | .error f => return .error (Code.unavailable.because "" f)
      | .ok found =>
        let (record, version) := ownHostWAF owner found
        return .ok (hostWAFResponse hostname version record)

/-- The read, the check and the write of `SetHostWAF`, with the lease of the owner held. -/
def replaceHostWAF (owner : Token) (hostname : Hostname) (record : HostWAFRecord) (data : Bytes)
    (expectedVersion : String) : Rpc (Except RpcError Response) := do
  match ← requireWAFHostname owner hostname with
  | .error e => return .error e
  | .ok () =>
    match ← readHostWAF w hostname with
    | .error f => return .error (Code.unavailable.because "" f)
    | .ok found =>
      if (ownHostWAF owner found).2 ≠ expectedVersion then
        return .error (Code.failedPrecondition.error
          "WAF settings changed; refresh before saving again")
      else
        match ← kv (.put (.hostWAF hostname) (.bytes data)) with
        | .error e =>
          return .error (Code.unavailable.because "WAF save result is uncertain" (.kv e))
        | .ok () =>
          return .ok (hostWAFResponse hostname (hostWAFVersion w hostname data) (some record))

def setHostWAF (owner : Token) (hostname : Hostname) (policy : Option WAFPolicy)
    (expectedVersion : String) : Rpc (Except RpcError Response) :=
  match normalizeWAFHostname normalize hostname, policy with
  | .error e, _ => return .error e
  | .ok _, none => return .error (Code.invalidArgument.error "policy is required")
  | .ok hostname, some input =>
    match validatePolicy w input with
    | .error msg => return .error (Code.invalidArgument.error msg)
    | .ok policy =>
      let record : HostWAFRecord := ⟨1, owner, policy⟩
      let data := w.record record
      if data.length > maxHostWAFBytes then
        return .error (Code.invalidArgument.error "WAF policy exceeds size limit")
      else
        withLease (.clientLease owner)
          (fun e => Code.unavailable.because "could not acquire owner lease" (.kv e))
          (replaceHostWAF w owner hostname record data expectedVersion)

def clearHostWAF (owner : Token) (hostname : Hostname) : Rpc (Except Failure Unit) := do
  match ← readHostWAF w hostname with
  | .error f => return .error f
  | .ok (none, _) => return .ok ()
  | .ok (some record, _) =>
    if record.owner ≠ owner then return .ok ()
    else
      match ← kv (.delete (.hostWAF hostname)) with
      | .error e => return .error (.kv e)
      | .ok () => return .ok ()

end Waf

/-- The requested servers, without those whose address came before. -/
def uniqueNodes : List Peer → List Peer
  | [] => []
  | p :: rest => p :: (uniqueNodes rest).filter fun q => q.address ≠ p.address

def lookupDestination (address : String) : Rpc (Except RpcError TunnelDestination) := do
  match ← kv (.get (.destinationByTunnel address)) with
  | .error e => return .error (wrapErrorKV (.kv e))
  | .ok none => return .error (wrapErrorKV .noDestination)
  | .ok (some (.destination d)) => return .ok d
  | .ok (some _) => return .error (wrapErrorKV .malformed)

/-- An error of the store is logged, and the route left out. -/
def publishRoute (client : Peer) (hostname : Hostname) (dst : TunnelDestination) (num : ℕ) :
    Rpc (Option Peer) := do
  match ← kv (.put (.routing hostname num) (.route ⟨client, dst.chord, dst.tunnel, hostname⟩)) with
  | .error _ => return none
  | .ok () => return some dst.tunnel

/-- The rest of `PublishTunnel`, with the lease of the client held. -/
def publishRoutes (token : Token) (client : Peer) (hostname : Hostname) (requested : List Peer) :
    Rpc (Except RpcError Response) := do
  match ← kv (.prefixContains (.clientHostnames token) hostname) with
  | .error e => return .error (wrapErrorKV (.kv e))
  | .ok false => return .error (Code.permissionDenied.error "hostname is not registered")
  | .ok true =>
    match firstError (← promiseAll (requested.map fun p => lookupDestination p.address)) with
    | .error e => return .error e
    | .ok destinations =>
      let jobs := destinations.mapIdx fun i dst => publishRoute client hostname dst (i + 1)
      let published := (← promiseAll jobs).filterMap id
      if published = [] then return .error (Code.unavailable.error "unable to publish any routes")
      else return .ok (.published published)

def publishTunnel (token : Token) (client : Peer) (hostname : Hostname) (servers : List Peer) :
    Rpc (Except RpcError Response) :=
  let requested := uniqueNodes servers
  if requested.length > numRedundantLinks then
    return .error (Code.invalidArgument.error "too many requested endpoints")
  else if requested.length < 1 then
    return .error (Code.invalidArgument.error "no servers specified in request")
  else
    withLease (.clientLease token) (fun e => wrapErrorKV (.kv e))
      (publishRoutes token client hostname requested)

def unadvertiseTunnel (token : Token) (hostname : Hostname) : Rpc (Except RpcError Unit) := do
  match ← kv (.prefixContains (.clientHostnames token) hostname) with
  | .error e => return .error (wrapErrorKV (.kv e))
  | .ok false => return .error (Code.permissionDenied.error "hostname is not registered")
  | .ok true =>
    let jobs := (List.range numRedundantLinks).map fun i => kv (.delete (.routing hostname (i + 1)))
    match firstError (← promiseAll jobs) with
    | .error e => return .error (Code.internal.because "" (.kv e))
    | .ok _ => return .ok ()

def unpublishTunnel (token : Token) (hostname : Hostname) : Rpc (Except RpcError Response) :=
  withLease (.clientLease token)
    (fun e => Code.internal.because "error acquiring lease for unpublishing tunnel" (.kv e)) do
    match ← unadvertiseTunnel token hostname with
    | .error e => return .error e
    | .ok () => return .ok .unpublished

/-- The rest of `ReleaseTunnel`, with the lease of the client held. -/
def releaseHostname (w : WafCodec) (token : Token) (hostname : Hostname) :
    Rpc (Except RpcError Response) := do
  match ← unadvertiseTunnel token hostname with
  | .error e => return .error e
  | .ok () =>
    match ← clearHostWAF w token hostname with
    | .error f => return .error (wrapErrorKV f)
    | .ok () =>
      match ← kv (.prefixRemove (.clientHostnames token) hostname) with
      | .error e => return .error (wrapErrorKV (.kv e))
      | .ok () =>
        -- A failure to remove the record is only logged.
        let _ ← kv (.delete (.customHostname hostname))
        return .ok .released

def releaseTunnel (w : WafCodec) (token : Token) (hostname : Hostname) :
    Rpc (Except RpcError Response) :=
  withLease (.clientLease token)
    (fun e => Code.internal.because "error acquiring lease for releasing tunnel" (.kv e))
    (releaseHostname w token hostname)

end Specter.Tunnel
