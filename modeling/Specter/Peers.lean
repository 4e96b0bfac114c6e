import Specter.Lookup

/-!
# Stabilize over what the peers answer

`stabilize` as one node sees it: its successor list, in which entries can be nil, and peers that
answer or fail each call on its own.
-/

namespace Specter

structure Peers where
  getPredecessor : NodeId → Except ChordError (Option NodeId)
  getSuccessors : NodeId → Except ChordError (List (Option NodeId))
  notify : NodeId → Except ChordError Unit

structure Successors (H : Type) where
  id : NodeId
  state : State
  successors : List (Option NodeId)
  succListHash : H

/-- `MakeSuccListByID`, of a list in which entries can be nil. -/
def makeSuccList (immediate : NodeId) (successors : List (Option NodeId)) (maxLen : ℕ) :
    List NodeId :=
  go [immediate] successors
where
  go (succList : List NodeId) : List (Option NodeId) → List NodeId
    | [] => succList
    | succ :: rest =>
      if succList.length ≥ maxLen then succList
      else
        match succ with
        | none => go succList rest
        | some succ => if succ ∈ succList then go succList rest else go (succList ++ [succ]) rest

/-- The new successor list, from the first successor that answers both calls. -/
def Peers.probe (peers : Peers) (n : NodeId) : List NodeId → Option (List NodeId)
  | [] => none
  | head :: rest =>
    match peers.getPredecessor head, peers.getSuccessors head with
    | .ok newSucc, .ok newSuccList =>
      let succList := makeSuccList head newSuccList extendedSuccessorEntries
      match newSucc with
      | some x =>
        if between n x head false then
          match peers.getSuccessors x with
          | .ok l => some (makeSuccList x l extendedSuccessorEntries)
          | .error _ => some succList
        else some succList
      | none => some succList
    | _, _ => peers.probe n rest

namespace Successors

variable {H : Type} [DecidableEq H] (hash : List NodeId → H) (peers : Peers)

/-- `getSuccessors`: the entries that are not nil. -/
def getSuccessors (v : Successors H) : List NodeId := v.successors.reduceOption

/-- Stores the list if its hash is a new one. -/
def updateSuccessorsList (v : Successors H) (succList : List NodeId) : Successors H :=
  if v.succListHash = hash succList then v
  else { v with successors := succList.map some, succListHash := hash succList }

def notifySuccessor (v : Successors H) (succList : List NodeId) : Except ChordError Unit :=
  match stateError true v.state, succList.head? with
  | none, some succ =>
    match peers.notify succ with
    | .error _ => .error .other
    | .ok () => .ok ()
  | _, _ => .ok ()

def stabilize (v : Successors H) : Except ChordError Unit × Successors H :=
  match peers.probe v.id v.getSuccessors with
  | none => (.error .nodeNoSuccessor, v)
  | some succList => (v.notifySuccessor peers succList, v.updateSuccessorsList hash succList)

end Successors

end Specter
