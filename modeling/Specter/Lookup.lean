import Specter.Node

/-!
# State changes and lookups

Reading and changing the state and the pointers of a node, and `FindSuccessor`, which walks the
ring.  A walk, and a loop that retries a swap, take the number of rounds they may still make; a
program that has used them up halts and so says nothing about the run beyond.
-/

namespace Specter

open Lib (Prog)

variable (n : NodeId)

def halt {α : Type} : Chord α := .act Act.halt Empty.elim

def loadState : Chord StateWord := Prog.perform (S := chordSig) (.loadState n)

def casState (old new : StateWord) (how : How) (site : Site) : Chord Bool :=
  Prog.perform (S := chordSig) (.casState n old new how site)

def transition (exp nxt : State) (how : How) (site : Site) : Chord Bool := do
  let curr ← loadState n
  casState n ⟨curr.index, exp⟩ ⟨curr.index + 1, nxt⟩ how site

/-- `Set`: transitions from whatever state is read, until one succeeds. -/
def setState : ℕ → NodeId → State → Site → Chord Unit
  | 0, _, _, _ => halt
  | fuel + 1, n, val, site => do
    let curr ← loadState n
    if ← transition n curr.state val .set site then return ()
    else setState fuel n val site

/-- What a node in this state answers to calls that need it running. -/
def stateError (leavingIsError : Bool) : State → Option ChordError
  | .inactive => some .nodeNotStarted
  -- get around during leaving routine, successor will ping us
  -- before replacing their predecessor pointer to our predecessor
  | .leaving => if leavingIsError then some .nodeGone else none
  | .left => some .nodeGone
  | .joining | .active | .transferring => none

def checkNodeState (leavingIsError : Bool) : Chord (Option ChordError) := do
  return stateError leavingIsError (← loadState n).state

def ping : Chord (Option ChordError) := checkNodeState n true

def getPredecessor : Chord (Option NodeId) :=
  Prog.perform (S := chordSig) (.getPredecessor n)

def getSuccessors : Chord (List NodeId) :=
  Prog.perform (S := chordSig) (.getSuccessors n)

def getSuccessor : Chord (Option NodeId) := do
  return (← getSuccessors n).head?

def getFinger (k : ℕ) : Chord (Option NodeId) :=
  Prog.perform (S := chordSig) (.getFinger n k)

def getPredecessorRPC : Chord (Except ChordError (Option NodeId)) := do
  match ← checkNodeState n false with
  | some e => return .error e
  | none => return .ok (← getPredecessor n)

def getSuccessorsRPC : Chord (Except ChordError (List NodeId)) := do
  match ← checkNodeState n false with
  | some e => return .error e
  | none => return .ok (← getSuccessors n)

/-- The finger `k` or below, from the farthest on, that lies between the node and the key; the
node itself if there is none. -/
def closestPrecedingNode (n : NodeId) (key : ℕ) : ℕ → Chord NodeId
  | 0 => return n
  | k + 1 => do
    match ← getFinger n (k + 1) with
    | some f => if between n f key false then return f else closestPrecedingNode n key k
    | none => closestPrecedingNode n key k

/-- What one node makes of a lookup: it knows the answer, or whom to ask. -/
inductive Hop where
  | found (n : NodeId)
  | failed (e : ChordError)
  | forward (n : NodeId)
  deriving DecidableEq, Repr

/-- Whether the key is between the predecessor, if it is known, and the node. -/
def inOwnRange (pre : Option NodeId) (key : ℕ) (n : NodeId) : Bool :=
  match pre with
  | some p => between p key n true
  | none => false

/-- The part of `FindSuccessor` that runs at `n`. -/
def lookupStep (key : ℕ) : Chord Hop := do
  match ← checkNodeState n false with
  | some e => return .failed e
  | none =>
    if inOwnRange (← getPredecessor n) key n then return .found n
    else
      match ← getSuccessor n with
      | none => return .failed .nodeNoSuccessor
      | some succ =>
        -- immediate successor
        if between n key succ true then return .found succ
        else
          -- find next in ring according to finger table
          let closest ← closestPrecedingNode n key maxFingerEntries
          -- The successor list can advance before the separate finger table.
          return .forward (if closest = n then succ else closest)

def findSuccessor : ℕ → NodeId → ℕ → Chord (Except ChordError NodeId)
  | 0, _, _ => halt
  | fuel + 1, n, key => do
    match ← lookupStep n key with
    | .found m => return .ok m
    | .failed e => return .error e
    | .forward m => findSuccessor fuel m key

end Specter
