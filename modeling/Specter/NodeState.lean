import Specter.Node
import Std.Data.ExtTreeMap.Lemmas

/-!
# The state word of a node

A node keeps its state and the number of its changes in one word, which `Transition` loads and then
swaps; `Set` tries transitions from the state it reads.  The state of every change is stored in the
history, in a step after the swap.  Any number of calls take their atomic steps in any order.  No
call reads the record of the swaps and the stores.
-/

namespace Specter

def State.toUInt64 : State → UInt64
  | .inactive => 0
  | .joining => 1
  | .active => 2
  | .transferring => 3
  | .leaving => 4
  | .left => 5

/-- The conversion back; no other numbers are in a word. -/
def State.ofUInt64 (n : UInt64) : State :=
  [inactive, joining, active, transferring, leaving].getD n.toNat left

structure NodeState where
  state : UInt64
  history : Std.ExtTreeMap UInt64 State

namespace NodeState

def newNodeState (initial : State) : NodeState :=
  let index : UInt64 := 0
  { state := (index <<< 4) ||| initial.toUInt64
    history := (∅ : Std.ExtTreeMap UInt64 State).insert 0 initial }

def get (s : NodeState) : State := .ofUInt64 (s.state &&& 0b1111)

/-- `History`, in the order of the indices. -/
def historyList (s : NodeState) : List State := s.history.toList.map Prod.snd

inductive Op where
  | transition (exp nxt : State)
  | set (val : State)
  deriving DecidableEq, Repr

def Op.nxt : Op → State
  | .transition _ nxt => nxt
  | .set val => val

inductive Point where
  | start
  | got (exp : State)
  /-- `Transition` has loaded the word, when so many swaps had succeeded. -/
  | loaded (exp : State) (curr : UInt64) (seen : ℕ)
  /-- The swap to this index succeeded. -/
  | swapped (nextIndex : UInt64)
  | returned (state : State) (ok : Bool)
  deriving DecidableEq, Repr

/-- A swap that succeeded, with the state that was there before it. -/
structure Success where
  call : ℕ
  before : State
  exp : State
  nxt : State
  index : UInt64
  seen : ℕ
  deriving DecidableEq, Repr

structure System where
  node : NodeState
  points : ℕ → Point
  successes : List Success
  stores : List (ℕ × UInt64)

def System.init (initial : State) : System := ⟨newNodeState initial, fun _ => .start, [], []⟩

def System.move (s : System) (i : ℕ) (p : Point) : System :=
  { s with points := Function.update s.points i p }

def System.swap (s : System) (i : ℕ) (op : Op) (exp : State) (curr : UInt64) (seen : ℕ) : System :=
  let currIndex := curr >>> 4
  let prev := (currIndex <<< 4) ||| exp.toUInt64
  let nextIndex := currIndex + 1
  let next := (nextIndex <<< 4) ||| op.nxt.toUInt64
  if s.node.state = prev then
    { s.move i (.swapped nextIndex) with
      node := { s.node with state := next }
      successes := s.successes ++ [⟨i, s.node.get, exp, op.nxt, nextIndex, seen⟩] }
  else
    match op with
    | .transition _ _ => s.move i (.returned (.ofUInt64 (curr &&& 0b1111)) false)
    | .set _ => s.move i .start

def System.store (s : System) (i : ℕ) (op : Op) (nextIndex : UInt64) : System :=
  { s.move i (.returned op.nxt true) with
    node := { s.node with history := s.node.history.insert nextIndex op.nxt }
    stores := s.stores ++ [(i, nextIndex)] }

variable (ops : List Op)

def System.step (s : System) (i : ℕ) : System :=
  match ops[i]? with
  | none => s
  | some op =>
    match s.points i, op with
    | .start, .transition exp _ => s.move i (.loaded exp s.node.state s.successes.length)
    | .start, .set _ => s.move i (.got s.node.get)
    | .got exp, _ => s.move i (.loaded exp s.node.state s.successes.length)
    | .loaded exp curr seen, _ => s.swap i op exp curr seen
    | .swapped nextIndex, _ => s.store i op nextIndex
    | .returned _ _, _ => s

def run (initial : State) (schedule : List ℕ) : System :=
  schedule.foldl (System.step ops) (.init initial)

end NodeState

end Specter
