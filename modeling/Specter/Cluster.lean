import Specter.Membership

/-!
# KV requests and the running system

A KV request walks to the node that owns its key and is served there under the read locks of that
node.  The system interleaves joins, leaves, periodic tasks and requests, one action at a time.
-/

namespace Specter

open Lib (Prog)

def rlock (m : Mutex) (n : NodeId) : Chord Unit := Prog.perform (S := chordSig) (.rlock m n)

def runlock (m : Mutex) (n : NodeId) : Chord Unit := Prog.perform (S := chordSig) (.runlock m n)

def readSurrogate (n : NodeId) : Chord (Option NodeId) :=
  Prog.perform (S := chordSig) (.readSurrogate n)

/-- Where a request that arrived at its owner goes. -/
inductive Target where
  | localStore
  | surrogate (n : NodeId)
  | stale
  deriving DecidableEq, Repr

def target (n : NodeId) (surrogate predecessor : Option NodeId) (id : ℕ) : Target :=
  match surrogate.filter fun x => between n id x true with
  | some x => .surrogate x
  | none =>
    match predecessor with
    | some p => if between p id n true then .localStore else .stale
    | none => .localStore

def handle (n : NodeId) (r : Request) : Chord (Except ChordError Reply) :=
  Prog.perform (S := chordSig) (.handle n r)

/-- Passes a request on, given how, or serves it from the storage of the node. -/
def dispatch (call : NodeId → Chord (Except ChordError Reply)) (n : NodeId) (r : Request) :
    Target → Chord (Except ChordError Reply)
  | .surrogate x => call x
  | .stale => return .error .kvStaleOwnership
  | .localStore => handle n r

/-- The part of `kvMiddleware` that runs under the locks of the owner, given how a request is
passed on. -/
def serve (hash : Bytes → ℕ) (call : NodeId → Chord (Except ChordError Reply)) (n : NodeId)
    (r : Request) : Chord (Except ChordError Reply) := do
  rlock .surrogateMu n
  -- maybe we are joining or leaving
  if (← loadState n).state ≠ .active then
    runlock .surrogateMu n
    return .error .kvStaleOwnership
  else
    let surrogate ← readSurrogate n
    rlock .predecessorMu n
    let predecessor ← readPredecessor n
    let res ← dispatch call n r (target n surrogate predecessor (hash r.key))
    runlock .predecessorMu n
    runlock .surrogateMu n
    return res

def kvMiddleware (hash : Bytes → ℕ) (fuel : ℕ) : ℕ → NodeId → Request →
    Chord (Except ChordError Reply)
  | 0, _, _ => halt
  | hops + 1, n, r => do
    match ← findSuccessor fuel n (hash r.key) with
    -- if the remote node happens to be leaving, the caller needs to retry
    | .error .nodeGone => return .error .kvStaleOwnership
    | .error e => return .error e
    | .ok succ =>
      if succ ≠ n then kvMiddleware hash fuel hops succ r
      else serve hash (fun x => kvMiddleware hash fuel hops x r) n r

def newSlot : Chord (Except ChordError ℕ) := Prog.perform (S := chordSig) .newSlot

def await (slot : ℕ) : Chord JoinReply := Prog.perform (S := chordSig) (.await slot)

/-- Calls RequestToJoin at `n`: another thread handles it and replies, while this one waits for
the reply or gives up. -/
def callJoin (joiner n : NodeId) : Chord JoinReply := do
  match ← newSlot with
  | .error e => return .error e
  | .ok slot =>
    Prog.start (S := chordSig) (.handleJoin slot n joiner)
    await slot

def handleJoin (fuel slot : ℕ) (n joiner : NodeId) : Chord Unit := do
  let res ← requestToJoinVia fuel (callJoin joiner) n joiner
  Prog.perform (S := chordSig) (.reply slot res)

def joinLossy (fuel : ℕ) (n peer : NodeId) : Chord Unit := do
  let res ← joinVia fuel (callJoin n peer) n
  Prog.perform (S := chordSig) (.joinReturned n res)

def body (hash : Bytes → ℕ) (fuel : ℕ) : Task → Chord Unit
  | .create n => do let _ ← create fuel n
  | .join n peer => do let _ ← join fuel n peer
  | .leave n => leave fuel n
  | .periodicStabilize n => periodicStabilize n
  | .periodicPredecessorCheck n => periodicPredecessorCheck n
  | .periodicFixFingers n => periodicFixFingers fuel n
  | .request n r => do let _ ← kvMiddleware hash fuel fuel n r
  | .joinLossy n peer => joinLossy fuel n peer
  | .handleJoin slot n joiner => handleJoin fuel slot n joiner

/-- The nodes of a ring over the provider `K`, whose loops and walks take at most `fuel` rounds. -/
def cluster (K : Type) [KVProvider K] (hash : Bytes → ℕ) (fuel : ℕ) :
    Lib.Machine chordSig (Shared K) Fault where
  exec := exec
  body := body hash fuel

end Specter
