import Specter.Config
import Specter.Kv
import Specter.Lib.Json
import Specter.Lib.Prog
import Specter.Lib.Runes

/-!
# Tunnel servers

What tunnel servers keep in the chord's key-value store, and what their RPC handlers are made of:
operations on the store, each of which is one step, the critical sections of a server's sessions,
and readings of the clock and of DNS.  What the steps do is said in `Handlers`.
-/

namespace Specter.Tunnel

open Lib

abbrev Token := Bytes

abbrev Hostname := String

def Hostname.dotted (hostname : Hostname) : Bool := '.' ∈ hostname.toList

structure Peer where
  id : ℕ
  address : String
  rendezvous : Bool
  deriving DecidableEq, Repr

structure CustomHostname where
  clientIdentity : Peer
  clientToken : Token
  deriving DecidableEq, Repr

structure TunnelDestination where
  chord : Peer
  tunnel : Peer
  deriving DecidableEq, Repr

structure TunnelRoute where
  clientDestination : Peer
  chordDestination : Peer
  tunnelDestination : Peer
  hostname : Hostname
  deriving DecidableEq, Repr

/-- `expiresAt` is in seconds, and 0 is no expiry. -/
structure DelegationRecord where
  version : ℕ
  id : String
  owner : Token
  hostname : Hostname
  expiresAt : ℤ
  deriving DecidableEq, Repr

def delegationRecordVersion : ℕ := 1

def maxDelegationsPerOwner : ℕ := 128

def numRedundantLinks : ℕ := 3

inductive Key where
  | destinationByTunnel (address : String)
  | routing (hostname : Hostname) (num : ℕ)
  | clientHostnames (token : Token)
  | clientLease (token : Token)
  | customHostname (hostname : Hostname)
  | hostWAF (hostname : Hostname)
  | delegation (id : String)
  | clientDelegations (token : Token)
  deriving DecidableEq, Repr

/-- What a value decodes to; a firewall policy is kept as it is. -/
inductive Value where
  | destination (d : TunnelDestination)
  | route (r : TunnelRoute)
  | custom (c : CustomHostname)
  | delegation (r : DelegationRecord)
  | bytes (data : Bytes)
  deriving DecidableEq, Repr

inductive KvOp where
  | get (key : Key)
  | put (key : Key) (value : Value)
  | delete (key : Key)
  | prefixAppend (key : Key) (child : String)
  | prefixList (key : Key)
  | prefixContains (key : Key) (child : String)
  | prefixRemove (key : Key) (child : String)
  | acquire (key : Key)
  | release (key : Key) (token : ℕ)
  deriving DecidableEq, Repr

abbrev KvOp.Res : KvOp → Type
  | .get _ => Except ChordError (Option Value)
  | .put .. | .delete _ | .prefixAppend .. | .prefixRemove .. | .release .. =>
    Except ChordError Unit
  | .prefixList _ => Except ChordError (List String)
  | .prefixContains .. => Except ChordError Bool
  | .acquire _ => Except ChordError ℕ

inductive Code where
  | invalidArgument
  | failedPrecondition
  | notFound
  | permissionDenied
  | unauthenticated
  | resourceExhausted
  | aborted
  | internal
  | unavailable
  deriving DecidableEq, Repr

/-- The errors that handlers tell apart. -/
inductive Failure where
  | kv (e : ChordError)
  | hostnameNotFound
  | malformed
  | noDestination
  | delegationNotFound
  | delegationInvalid
  | delegationNotOwned
  | hostWAFUnavailable (e : ChordError)
  | hostWAFTooLarge
  | hostWAFInvalid
  | hostWAFUnsupported
  deriving DecidableEq, Repr

/-- The error of an RPC.  The text of its cause comes after its own. -/
structure RpcError where
  code : Code
  msg : String
  cause : Option Failure
  deriving DecidableEq, Repr

def Code.error (code : Code) (msg : String) : RpcError := ⟨code, msg, none⟩

def Code.because (code : Code) (msg : String) (cause : Failure) : RpcError :=
  ⟨code, msg, some cause⟩

def wrapErrorKV (f : Failure) : RpcError :=
  match f with
  | .kv e =>
    if errorIsRetryable e then Code.failedPrecondition.because "" f else Code.internal.because "" f
  | _ => Code.internal.because "" f

inductive Mode where
  | ephemeral
  | delegated
  deriving DecidableEq, Repr

inductive SessionState where
  | provisional
  | active
  | terminal
  deriving DecidableEq, Repr

/-- A session.  Its connection is a number, and times are in nanoseconds.  The maintenance worker
that it has recorded, if any, has finished or not. -/
structure Session where
  sessionAlias : String
  hostname : Hostname
  conn : ℕ
  mode : Mode
  spki : Bytes
  grantID : String
  owner : Token
  grantExpiry : Option ℤ
  certNotAfter : ℤ
  state : SessionState
  authorizedUntil : ℤ
  worker : Option Bool
  /-- The context of the worker is done. -/
  cancelled : Bool
  deriving DecidableEq, Repr

inductive ReserveError where
  /-- One Open attempt is allowed per attachment. -/
  | attached
  | full
  | collision
  | stillAttached
  deriving DecidableEq, Repr

/-- What the check of a session finds before it reads anything. -/
inductive Inspection where
  | inactive
  | expired
  | current (s : Session)
  deriving DecidableEq, Repr

/-- The critical sections that are about one session, and what is waited for. -/
inductive Section where
  | reserve
  | setAuthority (hostname : Hostname) (grantID : String) (owner : Token) (grantExpiry : Option ℤ)
  | activate (deadline : ℤ)
  | terminate
  | closeConn
  | dial (hostname : Hostname)
  | inspect (start : ℤ)
  | extend (start : ℤ) (expiry : Option ℤ)
  | expired
  | isActive
  /-- `maintainSession` records its worker, if the session is still there to be maintained. -/
  | startWorker
  | finishWorker
  | cancelWorker
  | awaitCancel
  | awaitWorker
  | awaitDone
  /-- `watch` ends the session, and looks for a worker. -/
  | detach
  | remove
  deriving DecidableEq, Repr

abbrev Section.Res : Section → Type
  | .reserve => Except ReserveError Unit
  | .inspect _ => Inspection
  | .activate _ | .dial _ | .expired | .isActive | .startWorker | .detach => Bool
  | _ => Unit

inductive SessionAct where
  | new (s : Session)
  | lookup (sessionAlias : String)
  | on (s : ℕ) (a : Section)
  | disconnect (conn : ℕ)
  | shutdown
  deriving DecidableEq, Repr

abbrev SessionAct.Res : SessionAct → Type
  | .new _ => ℕ
  | .lookup _ => Option ℕ
  | .on _ a => a.Res
  | .disconnect _ | .shutdown => Unit

inductive PolicyMode where
  | unknown
  | inherit
  | block
  | monitor
  | off
  deriving DecidableEq, Repr

structure WAFExclusion where
  ruleId : ℕ
  path : String
  deriving DecidableEq, Repr

structure WAFPolicy where
  mode : PolicyMode
  exclusions : List WAFExclusion
  deriving DecidableEq, Repr

/-- The calls, with the client they are authenticated as and what they draw at random. -/
inductive Call where
  | mintDelegation (owner : Token) (hostname : Hostname) (expiresAt : ℤ) (secret : Bytes)
  | listDelegations (owner : Token)
  | revokeDelegation (owner : Token) (id : String)
  | openEphemeralSession (conn : ℕ) (spki : Bytes) (certNotAfter : ℤ)
  | openDelegatedSession (conn : ℕ) (certNotAfter : ℤ) (token : String) (slot : ℕ) (inv : Bytes)
  /-- The proof of work is valid or not. -/
  | acmeValidate (token : Token) (client : Peer) (hostname : Hostname) (proof : Bool)
  | publishTunnel (token : Token) (client : Peer) (hostname : Hostname) (servers : List Peer)
  | unpublishTunnel (token : Token) (hostname : Hostname)
  | releaseTunnel (token : Token) (hostname : Hostname)
  | getHostWAF (owner : Token) (hostname : Hostname)
  | setHostWAF (owner : Token) (hostname : Hostname) (policy : Option WAFPolicy)
      (expectedVersion : String)
  deriving DecidableEq, Repr

structure DelegationGrant where
  id : String
  hostname : Hostname
  expiresAt : ℤ
  incomplete : Bool
  deriving DecidableEq, Repr

inductive Response where
  | minted (grant : DelegationGrant) (token : String)
  | grants (grants : List DelegationGrant)
  | revoked (indexError : Option ChordError)
  | opened (hostname : Hostname) (grantId : String) (expiresAt : ℤ)
  | validated
  | published (nodes : List Peer)
  | unpublished
  | released
  | hostWAF (hostname : Hostname) (version : String) (policy : WAFPolicy)
  deriving DecidableEq, Repr

/-- The server that a call is made to. -/
structure Site where
  home : ℕ
  chord : Peer
  tunnel : Peer
  deriving DecidableEq, Repr

inductive Task where
  | call (site : Site) (c : Call)
  | watch (s : ℕ)
  /-- The connection of a session that failed is closed after a while. -/
  | closeConn (s : ℕ)
  | maintain (s : ℕ)
  /-- The loop of `maintainSession` from here. -/
  | maintaining (s : ℕ)
  | closeOnCancel (s : ℕ)
  | expiryTimer (s : ℕ)
  | dial (sessionAlias : String) (hostname : Hostname)
  | disconnect (conn : ℕ)
  | shutdown
  /-- A write of the store whose caller has given up takes effect. -/
  | arrive
  deriving DecidableEq, Repr

inductive Act where
  | kv (op : KvOp)
  | session (a : SessionAct)
  | now
  | ctxErr
  /-- DNS: the canonical name, if there is an answer. -/
  | lookupCNAME (name : String)
  /-- Which of the jobs that run at the same time is next. -/
  | next
  /-- Which case of a `select` is taken. -/
  | select
  | arrive
  | begin (c : Call)
  | finish (c : Call) (res : Except RpcError Response)

abbrev Act.Res : Act → Type
  | .kv op => op.Res
  | .session a => a.Res
  | .now => ℤ
  | .ctxErr | .select => Bool
  | .lookupCNAME _ => Option String
  | .next => ℕ
  | .arrive | .begin _ | .finish .. => Unit

def tunnelSig : Sig where
  Act := Act
  Res := Act.Res
  Task := Task

abbrev Rpc := Prog tunnelSig

def kv (op : KvOp) : Rpc op.Res := Prog.perform (S := tunnelSig) (.kv op)

def session (a : SessionAct) : Rpc a.Res := Prog.perform (S := tunnelSig) (.session a)

def onSession (s : ℕ) (a : Section) : Rpc a.Res := session (.on s a)

def now : Rpc ℤ := Prog.perform (S := tunnelSig) .now

def ctxErr : Rpc Bool := Prog.perform (S := tunnelSig) .ctxErr

def lookupCNAME (name : String) : Rpc (Option String) :=
  Prog.perform (S := tunnelSig) (.lookupCNAME name)

def next : Rpc ℕ := Prog.perform (S := tunnelSig) .next

def select : Rpc Bool := Prog.perform (S := tunnelSig) .select

def spawn (τ : Task) : Rpc Unit := Prog.start (S := tunnelSig) τ

/-- The jobs, which run at the same time, with what each gave, in the order they ended in. -/
def gather {α : Type} : ℕ → List (ℕ × Rpc α) → Rpc (List (ℕ × α))
  | 0, _ => return []
  | n + 1, jobs => do
    let i ← next
    match jobs[i % jobs.length]? with
    | none => return []
    | some (j, job) =>
      let a ← job
      let rest ← gather n (jobs.eraseIdx (i % jobs.length))
      return (j, a) :: rest

/-- `promise.All` of jobs that are one step each: what they gave, in the order of the jobs. -/
def promiseAll {α : Type} (jobs : List (Rpc α)) : Rpc (List α) := do
  let results ← gather jobs.length ((List.range jobs.length).zip jobs)
  return (List.range jobs.length).filterMap (List.lookup · results)

/-- The first error, or all the values. -/
def firstError {ε α : Type} : List (Except ε α) → Except ε (List α)
  | [] => .ok []
  | .error e :: _ => .error e
  | .ok a :: rest => (firstError rest).map (a :: ·)

/-- `p` with a lease held; `failed` is the error if it cannot be had. -/
def withLease {α : Type} (key : Key) (failed : ChordError → RpcError)
    (p : Rpc (Except RpcError α)) : Rpc (Except RpcError α) := do
  match ← kv (.acquire key) with
  | .error e => return .error (failed e)
  | .ok lease =>
    let res ← p
    let _ ← kv (.release key lease)
    return res

def hex (data : Bytes) : String :=
  .ofList (data.flatMap fun b => [Json.hexDigit (b.toNat / 16), Json.hexDigit (b.toNat % 16)])

/-- A loop over the runes of the string. -/
def lowerHex (s : Bytes) : Bool :=
  (Lib.runes s).all fun c =>
    ('0'.toNat ≤ c && c ≤ '9'.toNat) || ('a'.toNat ≤ c && c ≤ 'f'.toNat)

def fromHexChar (c : ℕ) : Option ℕ :=
  if '0'.toNat ≤ c ∧ c ≤ '9'.toNat then some (c - '0'.toNat)
  else if 'a'.toNat ≤ c ∧ c ≤ 'f'.toNat then some (c - 'a'.toNat + 10)
  else if 'A'.toNat ≤ c ∧ c ≤ 'F'.toNat then some (c - 'A'.toNat + 10)
  else none

/-- `hex.DecodeString`, which stops at the first error. -/
def unhex : Bytes → Bytes
  | a :: b :: rest =>
    match fromHexChar a.toNat, fromHexChar b.toNat with
    | some m, some n => .ofNat (m * 16 + n) :: unhex rest
    | _, _ => []
  | _ => []

end Specter.Tunnel
