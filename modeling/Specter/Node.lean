import Specter.Lib.Prog
import Specter.Kv
import Mathlib.Logic.Function.Basic

/-!
# Nodes and the atomic steps on them

The nodes of a ring, each with the fields its goroutines share, and the actions the code is made of:
one access to a shared field, one lock or unlock, one call of the storage provider.  A field that is
read or written once under its mutex is one action, taken when the mutex is free.  A call to another
node is the text of its handler, run by the caller.  No program reads the record of what happened
(`Node.atStop`, `Shared.trace`).
-/

namespace Specter

/-- The word that `nodeState` swaps atomically: how often it has changed, and the state. -/
structure StateWord where
  index : ℕ
  state : State
  deriving DecidableEq, Repr

/-- Who holds a `sync.RWMutex`, for writing and for reading. -/
structure RWMutex where
  writer : Option ℕ
  readers : List ℕ
  deriving DecidableEq, Repr

namespace RWMutex

def unlocked : RWMutex := ⟨none, []⟩

/-- `Lock` does not have to wait. -/
def canLock (m : RWMutex) : Bool := m.writer.isNone && m.readers.isEmpty

/-- `RLock` does not have to wait. -/
def canRLock (m : RWMutex) : Bool := m.writer.isNone

end RWMutex

structure Node (K : Type) where
  state : StateWord
  predecessor : Option NodeId
  surrogate : Option NodeId
  successors : List NodeId
  /-- The list whose hash is stored, the hash taken to be injective; `none` at the start. -/
  succListHash : Option (List NodeId)
  fingers : ℕ → Option NodeId
  kv : K
  predecessorMu : RWMutex
  surrogateMu : RWMutex
  stopped : Bool
  /-- What the node stored when it last stopped being Active. -/
  atStop : K

def newLocalNode {K : Type} [KVProvider K] : Node K where
  state := ⟨0, .inactive⟩
  predecessor := none
  surrogate := none
  successors := []
  succListHash := none
  fingers _ := none
  kv := KVProvider.empty
  predecessorMu := .unlocked
  surrogateMu := .unlocked
  stopped := false
  atStop := KVProvider.empty

inductive Mutex where
  | predecessorMu
  | surrogateMu
  deriving DecidableEq, Repr

namespace Node

variable {K : Type}

def mutex (x : Node K) : Mutex → RWMutex
  | .predecessorMu => x.predecessorMu
  | .surrogateMu => x.surrogateMu

def setMutex (x : Node K) : Mutex → RWMutex → Node K
  | .predecessorMu, m => { x with predecessorMu := m }
  | .surrogateMu, m => { x with surrogateMu := m }

end Node

/-- The calls that change the state of a node. -/
inductive Site where
  | create
  | join
  | requestToJoin
  | finishJoin
  | requestToLeave
  | finishLeave
  | executeLeave
  | leave
  deriving DecidableEq, Repr

/-- The two ways to change it: `Transition` from an expected state, and `Set` from any. -/
inductive How where
  | transition
  | set
  deriving DecidableEq, Repr

/-- What RequestToJoin answers: the joiner's predecessor and its successors. -/
abbrev JoinReply := Except ChordError (NodeId × List NodeId)

inductive Event where
  | swapped (t : ℕ) (n : NodeId) (how : How) (site : Site) (old new : State)
  /-- A `Transition` by thread `t` found another state than it expected. -/
  | refused (t : ℕ) (n : NodeId) (how : How) (site : Site)
  /-- `n` took `joiner` as its predecessor: the RequestToJoin of `joiner` succeeded. -/
  | accepted (t : ℕ) (n joiner : NodeId)
  | handled (t : ℕ) (n : NodeId) (r : Request) (res : Except ChordError Reply)
  /-- The storage of `n` imported keys that another node sent. -/
  | imported (t : ℕ) (n : NodeId) (keys : List Bytes) (values : List KVTransfer)
  /-- `executeLeave` found its node alone and transferred nothing. -/
  | skipped (t : ℕ) (n : NodeId)
  | joinReturned (t : ℕ) (n : NodeId) (res : Except ChordError Unit)
  deriving DecidableEq

structure Shared (K : Type) where
  node : NodeId → Node K
  /-- The replies to RequestToJoin calls that are waited for with a timeout. -/
  mailbox : List (Option JoinReply)
  trace : List Event

namespace Shared

variable {K : Type}

def update (s : Shared K) (n : NodeId) (f : Node K → Node K) : Shared K :=
  { s with node := Function.update s.node n (f (s.node n)) }

def push (s : Shared K) (e : Event) : Shared K := { s with trace := e :: s.trace }

end Shared

inductive Task where
  | create (n : NodeId)
  | join (n peer : NodeId)
  | leave (n : NodeId)
  | periodicStabilize (n : NodeId)
  | periodicPredecessorCheck (n : NodeId)
  | periodicFixFingers (n : NodeId)
  | request (n : NodeId) (r : Request)
  /-- A Join whose RequestToJoin calls can lose their replies. -/
  | joinLossy (n peer : NodeId)
  /-- The handler of such a call, which leaves its reply in the mailbox. -/
  | handleJoin (slot : ℕ) (n joiner : NodeId)

inductive Act where
  | loadState (n : NodeId)
  | casState (n : NodeId) (old new : StateWord) (how : How) (site : Site)
  -- predecessor and surrogate, one access under the mutex
  | getPredecessor (n : NodeId)
  | setPredecessor (n : NodeId) (v : Option NodeId)
  | casPredecessor (n : NodeId) (old new : Option NodeId)
  | getSurrogate (n : NodeId)
  | casSurrogate (n : NodeId) (old new : Option NodeId)
  -- the same with the mutex held
  | lock (m : Mutex) (n : NodeId)
  | unlock (m : Mutex) (n : NodeId)
  | rlock (m : Mutex) (n : NodeId)
  | runlock (m : Mutex) (n : NodeId)
  | readPredecessor (n : NodeId)
  | readSurrogate (n : NodeId)
  | writeSurrogate (n joiner : NodeId)
  | commitJoin (n joiner : NodeId)
  -- successors and fingers
  | getSuccessors (n : NodeId)
  | setSuccessors (n : NodeId) (l : List NodeId)
  | loadSuccListHash (n : NodeId)
  | getFinger (n : NodeId) (k : ℕ)
  | setFinger (n : NodeId) (k : ℕ) (f : NodeId)
  -- the provider
  | rangeKeys (n : NodeId) (low high : ℕ)
  | exportKeys (n : NodeId) (keys : List Bytes)
  | importKeys (n : NodeId) (keys : List Bytes) (values : List KVTransfer)
  | removeKeys (n : NodeId) (keys : List Bytes)
  | handle (n : NodeId) (r : Request)
  -- tasks and calls
  | closeStop (n : NodeId)
  | readStop (n : NodeId)
  | newSlot
  | reply (slot : ℕ) (res : JoinReply)
  | await (slot : ℕ)
  | skipLeave (n : NodeId)
  | joinReturned (n : NodeId) (res : Except ChordError Unit)
  | halt

@[reducible] def Act.Res : Act → Type
  | .loadState _ => StateWord
  | .casState .. => Bool
  | .getPredecessor _ | .getSurrogate _ | .readPredecessor _ | .readSurrogate _ => Option NodeId
  | .getSuccessors _ => List NodeId
  | .loadSuccListHash _ => Option (List NodeId)
  | .getFinger .. => Option NodeId
  | .rangeKeys .. => Except ChordError (List Bytes)
  | .exportKeys .. => Except ChordError (List KVTransfer)
  | .importKeys .. | .removeKeys .. => Except ChordError Unit
  | .handle .. => Except ChordError Reply
  | .readStop _ => Bool
  | .newSlot => Except ChordError ℕ
  | .await _ => JoinReply
  | .halt => Empty
  | .setPredecessor .. | .casPredecessor .. | .casSurrogate .. | .lock .. | .unlock .. | .rlock ..
  | .runlock .. | .writeSurrogate .. | .commitJoin .. | .setSuccessors .. | .setFinger ..
  | .closeStop _ | .reply .. | .skipLeave _ | .joinReturned .. => Unit

inductive Fault where
  | ok
  /-- A provider call, or a call waited for with a timeout, fails without an effect. -/
  | fail
  /-- A provider call takes effect and still reports an error. -/
  | failAfter
  /-- Two handles to one node are compared, which are different pointers. -/
  | otherHandle
  deriving DecidableEq, Repr

def Fault.fails : Fault → Bool
  | .ok | .otherHandle => false
  | .fail | .failAfter => true

/-- The error of a call that the label makes fail: no reply in time, or the transport's own. -/
def Fault.callError : Fault → ChordError
  | .fail => .deadlineExceeded
  | _ => .other

/-- `x == y` on handles. -/
def Fault.sameHandle (l : Fault) (x y : Option NodeId) : Bool :=
  x = y && (x.isNone || l != .otherHandle)

abbrev chordSig : Lib.Sig := ⟨Act, Act.Res, Task⟩

abbrev Chord := Lib.Prog chordSig

section Exec

variable {K : Type} [KVProvider K]

/-- The state word of `n` becomes `new`; what the node stores is noted when it stops being
Active. -/
def Node.swap (x : Node K) (new : StateWord) : Node K :=
  { x with state := new
           atStop := if x.state.state = .active then x.kv else x.atStop }

def exec (l : Fault) (t : ℕ) (s : Shared K) : (a : Act) → Option (a.Res × Shared K)
  | .loadState n => some ((s.node n).state, s)
  | .casState n old new how site =>
    if (s.node n).state = old then
      some (true, (s.update n (·.swap new)).push (.swapped t n how site old.state new.state))
    else some (false, s.push (.refused t n how site))
  | .getPredecessor n =>
    if (s.node n).predecessorMu.canRLock then some ((s.node n).predecessor, s) else none
  | .setPredecessor n v =>
    if (s.node n).predecessorMu.canLock then
      some ((), s.update n fun x => { x with predecessor := v })
    else none
  | .casPredecessor n old new =>
    if (s.node n).predecessorMu.canLock then
      some ((), s.update n fun x => { x with
        predecessor := if l.sameHandle old x.predecessor then new else x.predecessor })
    else none
  | .getSurrogate n =>
    if (s.node n).surrogateMu.canRLock then some ((s.node n).surrogate, s) else none
  | .casSurrogate n old new =>
    if (s.node n).surrogateMu.canLock then
      some ((), s.update n fun x => { x with
        surrogate := if l.sameHandle old x.surrogate then new else x.surrogate })
    else none
  | .lock m n =>
    if ((s.node n).mutex m).canLock then
      some ((), s.update n fun x => x.setMutex m ⟨some t, []⟩)
    else none
  | .unlock m n => some ((), s.update n fun x => x.setMutex m .unlocked)
  | .rlock m n =>
    if ((s.node n).mutex m).canRLock then
      some ((), s.update n fun x => x.setMutex m ⟨none, t :: (x.mutex m).readers⟩)
    else none
  | .runlock m n =>
    some ((), s.update n fun x => x.setMutex m ⟨none, (x.mutex m).readers.erase t⟩)
  | .readPredecessor n => some ((s.node n).predecessor, s)
  | .readSurrogate n => some ((s.node n).surrogate, s)
  | .writeSurrogate n joiner => some ((), s.update n fun x => { x with surrogate := some joiner })
  | .commitJoin n joiner =>
    some ((), (s.update n fun x => { x with predecessor := some joiner }).push
      (.accepted t n joiner))
  | .getSuccessors n => some ((s.node n).successors, s)
  | .setSuccessors n l =>
    some ((), s.update n fun x => { x with successors := l, succListHash := some l })
  | .loadSuccListHash n => some ((s.node n).succListHash, s)
  | .getFinger n k => some ((s.node n).fingers k, s)
  | .setFinger n k f =>
    some ((), s.update n fun x => { x with fingers := Function.update x.fingers k (some f) })
  | .rangeKeys n low high =>
    some (if l.fails then .error .other else KVProvider.rangeKeys low high (s.node n).kv, s)
  | .exportKeys n keys =>
    some (if l.fails then .error .other else KVProvider.exportKeys keys (s.node n).kv, s)
  | .importKeys n keys values =>
    if (s.node n).surrogateMu.canLock then
      let (res, kv) := KVProvider.importKeys keys values (s.node n).kv
      some (if l.fails then .error .other else res,
        if l = .fail then s
        else (s.update n fun x => { x with kv := kv }).push (.imported t n keys values))
    else none
  | .removeKeys n keys =>
    let (res, kv) := KVProvider.removeKeys keys (s.node n).kv
    if l.fails then some (.error .other, s)
    else some (res, s.update n fun x => { x with kv := kv })
  | .handle n r =>
    let (res, kv) := KVProvider.handle r (s.node n).kv
    if l.fails then some (.error .other, s)
    else some (res, (s.update n fun x => { x with kv := kv }).push (.handled t n r res))
  | .closeStop n => some ((), s.update n fun x => { x with stopped := true })
  | .readStop n => some ((s.node n).stopped, s)
  | .newSlot =>
    if l.fails then some (.error l.callError, s)
    else some (.ok s.mailbox.length, { s with mailbox := s.mailbox ++ [none] })
  | .reply slot res => some ((), { s with mailbox := s.mailbox.set slot (some res) })
  | .await slot =>
    if l.fails then some (.error l.callError, s)
    else s.mailbox[slot]?.join.map fun res => (res, s)
  | .skipLeave n => some ((), s.push (.skipped t n))
  | .joinReturned n res => some ((), s.push (.joinReturned t n res))
  | .halt => none

end Exec

end Specter
