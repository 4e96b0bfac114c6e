import Specter.Lookup

/-!
# Maintenance of the ring

A node compares its successor's predecessor with itself and notifies the successor, checks that its
predecessor is alive, and fills its fingers.
-/

namespace Specter

open Lib (Prog)

variable (n : NodeId) (fuel : ℕ)

def getSurrogate : Chord (Option NodeId) :=
  Prog.perform (S := chordSig) (.getSurrogate n)

def casSurrogate (old new : Option NodeId) : Chord Unit :=
  Prog.perform (S := chordSig) (.casSurrogate n old new)

def casPredecessor (old new : Option NodeId) : Chord Unit :=
  Prog.perform (S := chordSig) (.casPredecessor n old new)

def setSuccessors (l : List NodeId) : Chord Unit :=
  Prog.perform (S := chordSig) (.setSuccessors n l)

def loadSuccListHash : Chord (Option (List NodeId)) :=
  Prog.perform (S := chordSig) (.loadSuccListHash n)

def readStop : Chord Bool := Prog.perform (S := chordSig) (.readStop n)

def setFinger (k : ℕ) (f : NodeId) : Chord Unit :=
  Prog.perform (S := chordSig) (.setFinger n k f)

/-- Whether the notifying node should become the predecessor: none is known, the known one is
dead, or the new one is closer. -/
def notifyCandidate (snapshot : Option NodeId) (predecessor : NodeId) : Chord (Option NodeId) :=
  match snapshot with
  | none => return some predecessor
  | some p => do
    -- predecessor has not changed
    if p = predecessor then return none
    else
      match ← ping p with
      | none =>
        -- old predecessor is still alive, check if new predecessor is closer
        return if between p predecessor n false then some predecessor else none
      | some _ => return some predecessor

def notify (n predecessor : NodeId) : Chord (Except ChordError Unit) := do
  match ← checkNodeState n false with
  | some e => return .error e
  | none =>
    let surrogateSnapshot ← getSurrogate n
    let predecessorSnapshot ← getPredecessor n
    match ← notifyCandidate n predecessorSnapshot predecessor with
    | none => return .ok ()
    | some c =>
      casSurrogate n surrogateSnapshot (if c = n then none else some c)
      casPredecessor n predecessorSnapshot (some c)
      return .ok ()

/-- The new successor list, from the first successor that answers. -/
def probeSuccessors (n : NodeId) : List NodeId → Chord (Option (List NodeId))
  | [] => return none
  | head :: rest => do
    let newSucc ← getPredecessorRPC head
    let newSuccList ← getSuccessorsRPC head
    match newSucc, newSuccList with
    | .ok newSucc, .ok newSuccList =>
      let succList := makeSuccListByID head newSuccList extendedSuccessorEntries
      match newSucc with
      | some x =>
        if between n x head false then
          match ← getSuccessorsRPC x with
          | .ok l => return some (makeSuccListByID x l extendedSuccessorEntries)
          | .error _ => return some succList
        else return some succList
      | none => return some succList
    | _, _ => probeSuccessors n rest

/-- Stores the list if its hash is a new one. -/
def updateSuccessorsList (succList : List NodeId) : Chord Unit := do
  if (← loadSuccListHash n) = some succList then return ()
  else setSuccessors n succList

def notifySuccessor (succList : List NodeId) : Chord (Except ChordError Unit) := do
  match ← checkNodeState n true, succList.head? with
  | none, some succ =>
    match ← notify succ n with
    | .error _ => return .error .other
    | .ok () => return .ok ()
  | _, _ => return .ok ()

def stabilize : Chord (Except ChordError Unit) := do
  match ← probeSuccessors n (← getSuccessors n) with
  | none => return .error .nodeNoSuccessor
  | some succList =>
    updateSuccessorsList n succList
    notifySuccessor n succList

def fixK (n : NodeId) (k : ℕ) : Chord Unit := do
  match ← findSuccessor fuel n (moduloSum n (2 ^ (k - 1))) with
  | .error _ => return ()
  | .ok f => setFinger n k f

/-- The fingers of the list, one after the other. -/
def fixFingers (fuel : ℕ) (n : NodeId) : List ℕ → Chord Unit
  | [] => return ()
  | k :: ks => do
    fixK fuel n k
    fixFingers fuel n ks

def fingerIndices : List ℕ := (List.range maxFingerEntries).map (· + 1)

def fixFinger (n : NodeId) : Chord Unit := fixFingers fuel n fingerIndices

def checkPredecessor : Chord (Option ChordError) := do
  match ← getPredecessor n with
  | none => return none
  | some pre =>
    if pre = n then return none
    else
      match ← ping pre with
      | none => return none
      | some e =>
        casPredecessor n (some pre) none
        return some e

/-- One round of a periodic task, unless the node has stopped, and then the next. -/
def periodic (round : Chord Unit) (again : Task) : Chord Unit := do
  if ← readStop n then return ()
  else
    round
    Prog.start (S := chordSig) again

def periodicStabilize : Chord Unit :=
  periodic n (do let _ ← stabilize n) (.periodicStabilize n)

def periodicPredecessorCheck : Chord Unit :=
  periodic n (do let _ ← checkPredecessor n) (.periodicPredecessorCheck n)

def periodicFixFingers (n : NodeId) : Chord Unit :=
  periodic n (fixFinger fuel n) (.periodicFixFingers n)

def startTasks (n : NodeId) : Chord Unit := do
  -- run once
  let _ ← stabilize n
  fixFinger fuel n
  -- then run periodically
  Prog.start (S := chordSig) (.periodicStabilize n)
  Prog.start (S := chordSig) (.periodicPredecessorCheck n)
  Prog.start (S := chordSig) (.periodicFixFingers n)

end Specter
