import Specter.Cluster
import Specter.Wire
import Specter.Memory
import Specter.Sqlite

/-!
# KV calls over RPC

The client writes a message, the server reads it and makes the call on its node, and the answer, or
the text of the error, goes back the same way.  A node itself passes calls on to other nodes in this
way.
-/

namespace Specter

open Protobuf

/-- The KV calls of a node, other than listing keys. -/
inductive KVCall where
  | request (r : Request)
  | importKeys (keys : List Bytes) (values : List KVTransfer)
  deriving DecidableEq, Repr

abbrev KV (W : Type) := KVCall → W → Except ChordError Reply × W

/-- The errors that are defined, with their texts. -/
def errorDefs : List (ChordError × String) :=
  [(.joinInvalidState, "chord/membership: node cannot handle join request at the moment"),
    (.joinTransferFailure, "chord/membership: failed to transfer keys to joiner node"),
    (.joinInvalidSuccessor,
      "chord/membership: join request was routed to the wrong successor node"),
    (.leaveInvalidState, "chord/membership: node cannot handle leave request at the moment"),
    (.leaveTransferFailure, "chord/membership: failed to transfer keys to successor node"),
    (.kvStaleOwnership, "chord/kv: processing node no longer has ownership over requested key"),
    (.kvPendingTransfer, "chord/kv: kv transfer inprogress, state may be outdated"),
    (.nodeGone, "chord: node is not part of the chord ring"),
    (.nodeNotStarted, "chord: node is not running"),
    (.nodeNoSuccessor, "chord: node has no successor, possibly invalid chord ring"),
    (.nodeNil, "chord: node cannot be nil"),
    (.duplicateJoinerID, "chord/membership: joining node has duplicate ID as its successor"),
    (.kvSimpleConflict, "chord/kv: simple key was concurrently modified"),
    (.kvPrefixConflict, "chord/kv: child already exists under prefix"),
    (.kvLeaseConflict, "chord/kv: lease has not expired or was acquired by a different requester"),
    (.kvLeaseExpired, "chord/kv: lease has expired with the given token"),
    (.kvLeaseInvalidTTL, "chord/kv: lease ttl must be greater than a second"),
    (.kvHashFnChanged, "chord/kv: calculated hash is different from storage")]

def ChordError.msg (foreign : String) (e : ChordError) : String :=
  match errorDefs.lookup e with
  | some text => text
  | none => if e = .deadlineExceeded then "context deadline exceeded" else foreign

def errorStrMap (text : String) : Option ChordError :=
  (errorDefs.find? fun d => d.2 == text).map Prod.fst

inductive ErrorCode where
  | failedPrecondition
  | internal
  | malformed
  deriving DecidableEq, Repr

/-- An error as it is sent; `kv` is the key the call was about. -/
structure TwirpError where
  code : ErrorCode
  msg : String
  kv : Option Bytes
  deriving DecidableEq, Repr

section errors

variable (foreign : String)

def errorCode (e : ChordError) : ErrorCode :=
  if errorIsRetryable e then .failedPrecondition else .internal

def wrapError (e : ChordError) : TwirpError := ⟨errorCode e, e.msg foreign, none⟩

def wrapErrorKV (key : Bytes) (e : ChordError) : TwirpError := ⟨errorCode e, e.msg foreign, key⟩

/-- RPC squashes errors to their texts; those that are defined are found again. -/
def errorMapper (e : TwirpError) : ChordError := (errorStrMap e.msg).getD .other

/-- The chord error that an error is, if any. -/
def ChordError.chord (e : ChordError) : Option ChordError :=
  if e = .deadlineExceeded ∨ e = .other then none else some e

end errors

namespace Reply

def getValue : Reply → Option Bytes
  | value v => v
  | _ => none

def getChildren : Reply → List Bytes
  | children cs => cs
  | _ => []

def getContains : Reply → Bool
  | contains b => b
  | _ => false

def getToken : Reply → ℕ
  | token n => n
  | _ => 0

end Reply

namespace Server

variable {W : Type} (foreign : String) (kv : KV W)

def answer {Resp : Type} (wrap : ChordError → TwirpError) (call : KVCall) (resp : Reply → Resp)
    (w : W) : Except TwirpError Resp × W :=
  let (res, w) := kv call w
  match res with
  | .error e => (.error (wrap e), w)
  | .ok reply => (.ok (resp reply), w)

def put (req : SimpleRequest) : W → Except TwirpError SimpleResponse × W :=
  answer kv (wrapErrorKV foreign req.key) (.request (.put req.key req.value)) fun _ => ⟨none⟩

def get (req : SimpleRequest) : W → Except TwirpError SimpleResponse × W :=
  answer kv (wrapErrorKV foreign req.key) (.request (.get req.key)) fun r => ⟨r.getValue⟩

def delete (req : SimpleRequest) : W → Except TwirpError SimpleResponse × W :=
  answer kv (wrapErrorKV foreign req.key) (.request (.delete req.key)) fun _ => ⟨none⟩

def append (req : PrefixRequest) : W → Except TwirpError PrefixResponse × W :=
  answer kv (wrapErrorKV foreign req.pfx) (.request (.prefixAppend req.pfx req.child))
    fun _ => ⟨[], false⟩

def list (req : PrefixRequest) : W → Except TwirpError PrefixResponse × W :=
  answer kv (wrapErrorKV foreign req.pfx) (.request (.prefixList req.pfx))
    fun r => ⟨r.getChildren, false⟩

def contains (req : PrefixRequest) : W → Except TwirpError PrefixResponse × W :=
  answer kv (wrapErrorKV foreign req.pfx) (.request (.prefixContains req.pfx req.child))
    fun r => ⟨[], r.getContains⟩

def remove (req : PrefixRequest) : W → Except TwirpError PrefixResponse × W :=
  answer kv (wrapErrorKV foreign req.pfx) (.request (.prefixRemove req.pfx req.child))
    fun _ => ⟨[], false⟩

/-- The time to live in a request; a request without one has zero. -/
def ttl (req : LeaseRequest) : ℤ := (req.ttl.map Duration.asDuration).getD 0

/-- The clock is read where the call is served. -/
def acquire (now : ℤ) (req : LeaseRequest) : W → Except TwirpError LeaseResponse × W :=
  answer kv (wrapErrorKV foreign req.lease) (.request (.acquire req.lease (ttl req) now))
    fun r => ⟨r.getToken⟩

def renew (now : ℤ) (req : LeaseRequest) : W → Except TwirpError LeaseResponse × W :=
  answer kv (wrapErrorKV foreign req.lease)
    (.request (.renew req.lease (ttl req) now req.prevToken)) fun r => ⟨r.getToken⟩

def release (req : LeaseRequest) : W → Except TwirpError LeaseResponse × W :=
  answer kv (wrapErrorKV foreign req.lease) (.request (.release req.lease req.prevToken))
    fun _ => ⟨0⟩

def importKeys (req : ImportRequest) : W → Except TwirpError ImportResponse × W :=
  answer kv (wrapError foreign) (.importKeys req.keys req.values) fun _ => ⟨⟩

end Server

/-- One call: the request and the response cross the wire. -/
def rpc {Req Resp W : Type} [Message Req] [Message Resp]
    (serve : Req → W → Except TwirpError Resp × W) (req : Req) (w : W) :
    Except TwirpError Resp × W :=
  match overWire req with
  | none => (.error ⟨.malformed, "the protobuf request could not be decoded", none⟩, w)
  | some req =>
    match serve req w with
    | (.error e, w) => (.error e, w)
    | (.ok resp, w) =>
      match overWire resp with
      | none => (.error ⟨.internal, "failed to unmarshal proto response", none⟩, w)
      | some resp => (.ok resp, w)

namespace RemoteNode

variable {W : Type} (foreign : String) (kv : KV W)

def mapped {Resp : Type} (reply : Resp → Reply) (out : Except TwirpError Resp × W) :
    Except ChordError Reply × W :=
  match out with
  | (.error e, w) => (.error (errorMapper e), w)
  | (.ok resp, w) => (.ok (reply resp), w)

/-- The KV calls, at a node whose server is in front of `kv`. -/
def call : KV W
  | .request (.put key value), w =>
    mapped (fun _ => .done) (rpc (Server.put foreign kv) ⟨key, value⟩ w)
  | .request (.get key), w =>
    mapped (fun resp => .value resp.value) (rpc (Server.get foreign kv) ⟨key, none⟩ w)
  | .request (.delete key), w =>
    mapped (fun _ => .done) (rpc (Server.delete foreign kv) ⟨key, none⟩ w)
  | .request (.prefixAppend pfx child), w =>
    mapped (fun _ => .done) (rpc (Server.append foreign kv) ⟨pfx, child⟩ w)
  | .request (.prefixList pfx), w =>
    mapped (fun resp => .children resp.children) (rpc (Server.list foreign kv) ⟨pfx, []⟩ w)
  | .request (.prefixContains pfx child), w =>
    mapped (fun resp => .contains resp.exist) (rpc (Server.contains foreign kv) ⟨pfx, child⟩ w)
  | .request (.prefixRemove pfx child), w =>
    mapped (fun _ => .done) (rpc (Server.remove foreign kv) ⟨pfx, child⟩ w)
  | .request (.acquire lease ttl now), w =>
    mapped (fun resp => .token resp.token)
      (rpc (Server.acquire foreign kv now) ⟨lease, 0, 0, some (.new ttl)⟩ w)
  | .request (.renew lease ttl now prevToken), w =>
    mapped (fun resp => .token resp.token)
      (rpc (Server.renew foreign kv now) ⟨lease, 0, prevToken, some (.new ttl)⟩ w)
  | .request (.release lease token), w =>
    mapped (fun _ => .done) (rpc (Server.release foreign kv) ⟨lease, 0, token, none⟩ w)
  | .importKeys keys values, w =>
    mapped (fun _ => .done) (rpc (Server.importKeys foreign kv) ⟨keys, values⟩ w)

end RemoteNode

/-- A node as a call finds it: its own state, what its lookups answer, and what is behind the other
nodes. -/
structure LocalNode (W : Type) where
  id : NodeId
  state : State
  surrogate : Option NodeId
  predecessor : Option NodeId
  hash : Bytes → ℕ
  findSuccessor : ℕ → Except ChordError NodeId
  peer : NodeId → KV W

namespace LocalNode

variable {W : Type} (foreign : String) (n : LocalNode W) (kv : KV W)

/-- `kvMiddleware`: fails, passes the request on, or hands it to the storage of the node. -/
def request (r : Request) (w : W) : Except ChordError Reply × W :=
  let id := n.hash r.key
  match n.findSuccessor id with
  -- if the remote node happens to be leaving, the caller needs to retry
  | .error .nodeGone => (.error .kvStaleOwnership, w)
  | .error e => (.error e, w)
  | .ok succ =>
    if succ ≠ n.id then RemoteNode.call foreign (n.peer succ) (.request r) w
    -- maybe we are joining or leaving
    else if n.state ≠ .active then (.error .kvStaleOwnership, w)
    else
      match target n.id n.surrogate n.predecessor id with
      | .surrogate x => RemoteNode.call foreign (n.peer x) (.request r) w
      | .stale => (.error .kvStaleOwnership, w)
      | .localStore => kv (.request r) w

def call : KV W
  | .request r, w => n.request foreign kv r w
  | .importKeys keys values, w =>
    match n.state with
    | .inactive | .leaving | .left => (.error .nodeGone, w)
    | _ => kv (.importKeys keys values) w

end LocalNode

/-! ## Providers behind a node

The world is the node's own store and the rest. -/

def MemoryKV.kv {hashFn : Bytes → ℕ} {V : Type} : KV (MemoryKV hashFn × V)
  | .request r, (m, v) =>
    let (res, m) := m.handle r
    (res, m, v)
  | .importKeys keys values, (m, v) => (.ok .done, importKeys keys values m, v)

def Tables.kv (hashFn : Bytes → ℕ) (fault : Bool) {V : Type} : KV (Tables × V)
  | .request r, (t, v) =>
    let (res, t) := t.handle hashFn fault r
    (res, t, v)
  | .importKeys keys values, (t, v) =>
    let (res, t) := t.importKeys hashFn fault keys (values.map some)
    (res.map fun _ => .done, t, v)

end Specter
