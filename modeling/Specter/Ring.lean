import Mathlib.Algebra.Group.Nat.Defs
import Mathlib.Tactic.Common

/-!
# Identifiers, states and errors of a Chord node

Positions on the identifier circle and the test for lying between two of them, the states of a node,
and the errors its operations return.
-/

namespace Specter

/-- A node is known to others by its identifier; a handle to a node (`VNode`) is that number. -/
abbrev NodeId := ℕ

abbrev Bytes := List UInt8

def maxFingerEntries : ℕ := 48

def extendedSuccessorEntries : ℕ := 4

def maxIdentifier : ℕ := 2 ^ maxFingerEntries

/-- Adds on the circle, reducing both sides first so that 64 bits are enough. -/
def moduloSum (x y : ℕ) : ℕ := (x % maxIdentifier + y % maxIdentifier) % maxIdentifier

/-- Whether `target` lies clockwise after `low` and before `high`, or at `high` if `inclusive`.
With `low = high` that is the whole circle. -/
def between (low target high : ℕ) (inclusive : Bool) : Bool :=
  -- account for loop around
  if high > low then (low < target && target < high) || (inclusive && target == high)
  else low < target || target < high || (inclusive && target == high)

/-- The list of successors headed by `immediate`, without repeats, of length at most `maxLen`. -/
def makeSuccListByID (immediate : NodeId) (successors : List NodeId) (maxLen : ℕ) : List NodeId :=
  go [immediate] successors
where
  go (succList : List NodeId) : List NodeId → List NodeId
    | [] => succList
    | succ :: rest =>
      if succList.length ≥ maxLen then succList
      else if succ ∈ succList then go succList rest
      else go (succList ++ [succ]) rest

inductive State where
  | inactive
  | joining
  | active
  | transferring
  | leaving
  | left
  deriving DecidableEq, Repr

inductive ChordError where
  | joinInvalidState
  | joinTransferFailure
  | joinInvalidSuccessor
  | leaveInvalidState
  | leaveTransferFailure
  | kvStaleOwnership
  | kvPendingTransfer
  | nodeGone
  | nodeNotStarted
  | nodeNoSuccessor
  | nodeNil
  | duplicateJoinerID
  | kvSimpleConflict
  | kvPrefixConflict
  | kvLeaseConflict
  | kvLeaseExpired
  | kvLeaseInvalidTTL
  | kvHashFnChanged
  /-- `context.DeadlineExceeded`: no reply within the RPC timeout. -/
  | deadlineExceeded
  /-- Any other error: of the storage, of the transport, or made with `fmt.Errorf`. -/
  | other
  deriving DecidableEq, Repr

/-- The errors after which a membership or KV request is tried again. -/
def errorIsRetryable : ChordError → Bool
  | .joinInvalidState | .joinTransferFailure | .joinInvalidSuccessor | .leaveInvalidState
  | .leaveTransferFailure | .kvStaleOwnership | .kvPendingTransfer | .deadlineExceeded => true
  | _ => false

end Specter
