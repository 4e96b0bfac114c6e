import Specter.Lookup
import Specter.Memory

/-!
# Listing the keys of the ring

A node that is asked for the keys with a prefix walks the ring, until it comes back to itself.  It
then asks every node for its own keys, a few at a time, and puts the answers together as they come
in.
-/

namespace Specter

/-- A provider that lists what it stores under a prefix. -/
class KeyLister (K : Type) where
  listKeys : Bytes → K → Except ChordError (List KeyComposite)

instance {hashFn : Bytes → ℕ} : KeyLister (MemoryKV hashFn) where
  listKeys pfx m := .ok (m.listKeys pfx)

/-- The walk of `ListKeys` at `n`, given how many steps it may still make, the node it has got to
and the nodes before.  What it has `seen` are the nodes it has collected. -/
def walkRing (fuel : ℕ) (n : NodeId) : ℕ → NodeId → List NodeId →
    Chord (Except ChordError (List NodeId))
  | 0, _, _ => halt
  | steps + 1, next, nodes => do
    match ← findSuccessor fuel n (moduloSum next 1) with
    | .error e => return .error e
    | .ok next =>
      if next = n then return .ok (nodes ++ [n])
      -- ring is unstable
      else if next ∈ nodes then return .error .other
      else walkRing fuel n steps next (nodes ++ [next])

/-- `ListKeys` with a direct target: the keys of this node alone, under the read lock of the
surrogate. -/
def Node.listDirect {K : Type} [KeyLister K] (x : Node K) (pfx : Bytes) :
    Except ChordError (List KeyComposite) :=
  if x.state.state ≠ .active then .error .kvStaleOwnership else KeyLister.listKeys pfx x.kv

/-- The goroutines that ask the nodes. -/
structure Group where
  /-- The nodes for which none has been started yet. -/
  waiting : List NodeId
  running : List NodeId
  /-- What came out of the channel of the answers. -/
  received : List KeyComposite
  err : Option ChordError
  /-- The nodes that were asked, the latest first; no program reads it. -/
  asked : List NodeId

namespace Group

def limit : ℕ := 10

def start (nodes : List NodeId) : Group := ⟨nodes, [], [], none, []⟩

inductive Event where
  /-- The next goroutine is started. -/
  | go
  /-- A running goroutine asks its node, and ends. -/
  | answer (i : ℕ)
  deriving DecidableEq, Repr

def step (ask : NodeId → Except ChordError (List KeyComposite)) (g : Group) : Event → Option Group
  | .go =>
    match g.waiting with
    | [] => none
    | m :: rest =>
      if g.running.length < limit then
        some { g with waiting := rest, running := g.running ++ [m] }
      else none
  | .answer i =>
    match g.running[i]? with
    | none => none
    | some m =>
      let g' := { g with running := g.running.eraseIdx i, asked := m :: g.asked }
      match ask m with
      | .ok keys => some { g' with received := g.received ++ keys }
      -- the group keeps the first error
      | .error e => some { g' with err := g.err.or (some e) }

def run (ask : NodeId → Except ChordError (List KeyComposite)) : List Event → Group → Option Group
  | [], g => some g
  | e :: es, g => (g.step ask e).bind (run ask es)

/-- `Wait` returns. -/
def finished (g : Group) : Bool := g.waiting.isEmpty && g.running.isEmpty

def result (g : Group) : Except ChordError (List KeyComposite) :=
  match g.err with
  | some e => .error e
  | none => .ok g.received

end Group

end Specter
