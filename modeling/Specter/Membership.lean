import Specter.Stabilize

/-!
# Joining and leaving

A node joins by asking the ring for its successor, which hands over the keys between its predecessor
and the joiner and stays Transferring until the joiner is Active.  A node leaves by locking its
successor and itself and handing over all its keys.
-/

namespace Specter

open Lib (Prog)

variable (n : NodeId) (fuel : ℕ)

def lock (m : Mutex) (n : NodeId) : Chord Unit := Prog.perform (S := chordSig) (.lock m n)

def unlock (m : Mutex) (n : NodeId) : Chord Unit := Prog.perform (S := chordSig) (.unlock m n)

def readPredecessor : Chord (Option NodeId) :=
  Prog.perform (S := chordSig) (.readPredecessor n)

def setPredecessor (v : Option NodeId) : Chord Unit :=
  Prog.perform (S := chordSig) (.setPredecessor n v)

def writeSurrogate (n joiner : NodeId) : Chord Unit :=
  Prog.perform (S := chordSig) (.writeSurrogate n joiner)

/-- `n.predecessor = joiner`, which makes the joiner a member of the ring. -/
def commitJoin (n joiner : NodeId) : Chord Unit :=
  Prog.perform (S := chordSig) (.commitJoin n joiner)

def skipLeave : Chord Unit := Prog.perform (S := chordSig) (.skipLeave n)

def closeStop : Chord Unit := Prog.perform (S := chordSig) (.closeStop n)

def rangeKeys (n : NodeId) (low high : ℕ) : Chord (Except ChordError (List Bytes)) :=
  Prog.perform (S := chordSig) (.rangeKeys n low high)

def exportKeys (n : NodeId) (keys : List Bytes) : Chord (Except ChordError (List KVTransfer)) :=
  Prog.perform (S := chordSig) (.exportKeys n keys)

def removeKeys (n : NodeId) (keys : List Bytes) : Chord (Except ChordError Unit) :=
  Prog.perform (S := chordSig) (.removeKeys n keys)

def importRPC (keys : List Bytes) (values : List KVTransfer) : Chord (Except ChordError Unit) := do
  match (← loadState n).state with
  | .inactive | .leaving | .left => return .error .nodeGone
  | .joining | .active | .transferring =>
    Prog.perform (S := chordSig) (.importKeys n keys values)

/-- Exports the keys, has `dest` import them, and removes them. -/
def moveKeys (n dest : NodeId) (keys : List Bytes) : Chord (Except ChordError Unit) := do
  match ← exportKeys n keys with
  | .error e => return .error e
  | .ok values =>
    match ← importRPC dest keys values with
    | .error e => return .error e
    | .ok () =>
      -- an error here is only logged
      let _ ← removeKeys n keys
      return .ok ()

/-- Moves the keys between two bounds to `dest`, if there are any. -/
def moveRange (n dest : NodeId) (low high : ℕ) : Chord (Except ChordError Unit) := do
  match ← rangeKeys n low high with
  | .error e => return .error e
  | .ok [] => return .ok ()
  | .ok keys => moveKeys n dest keys

def transferKeysUpward (prevPredecessor : Option NodeId) (newPredecessor : NodeId) :
    Chord (Except ChordError Unit) :=
  if newPredecessor = n then return .ok ()
  else
    let low := prevPredecessor.getD n
    if between low newPredecessor n false then moveRange n newPredecessor low newPredecessor
    else return .ok ()

def transferKeysDownward (n successor : NodeId) : Chord (Except ChordError Unit) :=
  moveRange n successor 0 0

def updatePointers (n : NodeId) : Chord Unit := do
  let _ ← stabilize n
  fixFinger fuel n

def releaseLock (site : Site) (err : ChordError) (n : NodeId) : Chord (Except ChordError Unit) := do
  if ← transition n .transferring .active .transition site then return .ok ()
  else return .error err

/-- FinishJoin and FinishLeave: update the pointers, and release the membership lock. -/
def finish (site : Site) (err : ChordError) (n : NodeId) (update release : Bool) :
    Chord (Except ChordError Unit) :=
  (if update then updatePointers fuel n else pure ()) >>= fun _ =>
    if release then releaseLock site err n else return .ok ()

def finishJoin (n : NodeId) (update release : Bool) : Chord (Except ChordError Unit) :=
  finish fuel .finishJoin .joinInvalidState n update release

def finishLeave (n : NodeId) (update release : Bool) : Chord (Except ChordError Unit) :=
  finish fuel .finishLeave .leaveInvalidState n update release

def requestToLeave : Chord (Except ChordError Unit) := do
  if ← transition n .active .transferring .transition .requestToLeave then return .ok ()
  else return .error .leaveInvalidState

/-- RequestToJoin with both locks held: the checks, the transfer and the surrogate. -/
def acceptLocked (n joiner : NodeId) : Chord JoinReply := do
  match ← readPredecessor n with
  -- Without a predecessor, the key range owned by this node is unknown.
  | none => return .error .joinInvalidState
  | some prev =>
    if between prev joiner n false then
      match ← transferKeysUpward n (some prev) joiner with
      | .error _ => return .error .joinTransferFailure
      | .ok () =>
        writeSurrogate n joiner
        return .ok (prev, makeSuccListByID n (← getSuccessors n) extendedSuccessorEntries)
    else return .error .joinInvalidSuccessor

/-- The deferred end of RequestToJoin: the joiner will release the lock, an error reverts it. -/
def settleJoin (fuel : ℕ) (n joiner : NodeId) : JoinReply → Chord Unit
  | .ok _ => commitJoin n joiner
  | .error _ => setState fuel n .active .requestToJoin

/-- RequestToJoin at the node that FindSuccessor chose. -/
def acceptJoiner (n joiner : NodeId) : Chord JoinReply := do
  lock .surrogateMu n
  if ← transition n .active .transferring .transition .requestToJoin then
    lock .predecessorMu n
    let res ← acceptLocked n joiner
    settleJoin fuel n joiner res
    unlock .predecessorMu n
    unlock .surrogateMu n
    return res
  else
    unlock .surrogateMu n
    return .error .joinInvalidState

/-- RequestToJoin at `n`, given how the call to the next node is made. -/
def requestToJoinVia (call : NodeId → Chord JoinReply) (n joiner : NodeId) : Chord JoinReply := do
  match ← findSuccessor fuel n joiner with
  | .error e => return .error e
  | .ok succ =>
    if succ = joiner then return .error .duplicateJoinerID
    else if succ ≠ n then call succ
    else acceptJoiner fuel n joiner

def requestToJoin (fuel : ℕ) : ℕ → NodeId → NodeId → Chord JoinReply
  | 0, _, _ => halt
  | hops + 1, n, joiner =>
    requestToJoinVia fuel (fun succ => requestToJoin fuel hops succ joiner) n joiner

/-- At most `attempts + 1` tries, the last error if all fail. -/
def retry {α : Type} (retryIf : ChordError → Bool) (f : Chord (Except ChordError α)) :
    ℕ → Chord (Except ChordError α)
  | 0 => f
  | attempts + 1 => do
    match ← f with
    | .ok a => return .ok a
    | .error e => if retryIf e then retry retryIf f attempts else return .error e

def maxAttempts : ℕ := 10

def create (n : NodeId) : Chord (Except ChordError Unit) := do
  if ← transition n .inactive .joining .transition .create then
    setSuccessors n (makeSuccListByID n [] extendedSuccessorEntries)
    fingerIndices.forM fun k => setFinger n k n
    startTasks fuel n
    setState fuel n .active .create
    return .ok ()
  else return .error .other

/-- Join, given how RequestToJoin is called at the peer. -/
def joinVia (call : Chord JoinReply) (n : NodeId) : Chord (Except ChordError Unit) := do
  if ← transition n .inactive .joining .transition .join then
    match ← retry errorIsRetryable call (maxAttempts - 1) with
    | .error e =>
      setState fuel n .inactive .join
      return .error e
    | .ok (predecessor, successors) =>
      setSuccessors n successors
      setPredecessor n (some predecessor)
      startTasks fuel n
      -- advisory to let predecessor update successor list
      let _ ← finishJoin fuel predecessor true false
      -- release local join lock
      setState fuel n .active .join
      -- release successor join lock
      match successors with
      | [] => return .ok ()
      | succ :: _ =>
        let _ ← finishJoin fuel succ false true
        return .ok ()
  else return .error .other

def join (n peer : NodeId) : Chord (Except ChordError Unit) :=
  joinVia fuel (requestToJoin fuel fuel peer n) n

/-- The two locks of a leaving node, taken in the order of the identifiers. -/
def lockLeave (n succ : NodeId) : Chord (Except ChordError Unit) := do
  -- paper calls for asymmetric locking, and release locks when we are retrying
  if n > succ then
    match ← requestToLeave succ with
    | .error e => return .error e
    | .ok () =>
      if ← transition n .active .leaving .transition .executeLeave then return .ok ()
      else
        -- release successor lock and try again
        let _ ← finishLeave fuel succ false true
        return .error .leaveInvalidState
  else
    if ← transition n .active .leaving .transition .executeLeave then
      match ← requestToLeave succ with
      | .error e =>
        -- release local lock and try again
        setState fuel n .active .executeLeave
        return .error e
      | .ok () => return .ok ()
    else return .error .leaveInvalidState

/-- The hand-over of a leaving node that holds both locks. -/
def handOver (n succ : NodeId) : Chord (Except ChordError Unit) := do
  lock .surrogateMu n
  -- kv requests are now blocked
  match ← transferKeysDownward n succ with
  | .error e =>
    -- release held lock and try again
    setState fuel n .active .executeLeave
    let _ ← finishLeave fuel succ false true
    unlock .surrogateMu n
    return .error e
  | .ok () =>
    writeSurrogate n n
    unlock .surrogateMu n
    return .ok ()

def executeLeave (n : NodeId) : Chord (Except ChordError (NodeId × NodeId)) := do
  match ← getPredecessor n with
  | none => return .error .other
  | some pre =>
    match ← getSuccessor n with
    | none => return .error .nodeNoSuccessor
    | some succ =>
      if pre = n ∧ succ = n then
        -- Skipping key transfer to successor because we are the only one left
        skipLeave n
        return .ok (pre, succ)
      else
        match ← lockLeave fuel n succ with
        | .error e => return .error e
        | .ok () =>
          match ← handOver fuel n succ with
          | .error e => return .error e
          | .ok () => return .ok (pre, succ)

/-- FinishLeave at a neighbour of `n` that is another node. -/
def finishLeaveAt (n m : NodeId) (update release : Bool) : Chord Unit := do
  if m = n then return ()
  else
    let _ ← finishLeave fuel m update release
    return ()

/-- Leave, at a node that is running. -/
def leaveRing (n : NodeId) : Chord Unit := do
  match ← retry (fun _ => true) (executeLeave fuel n) (maxAttempts - 1) with
  | .error _ => return ()
  | .ok (pre, succ) =>
    -- advisory to let predecessor update successor list
    finishLeaveAt fuel n pre true false
    -- release local leave lock
    setState fuel n .left .leave
    -- if applicable, release successor leave lock
    finishLeaveAt fuel n succ false true
    closeStop n

def leave (n : NodeId) : Chord Unit := do
  match (← loadState n).state with
  | .inactive | .leaving | .left => return ()
  | .joining | .active | .transferring => leaveRing fuel n

end Specter
