import Mathlib.Logic.Function.Basic
import Specter.Config

/-!
# Synchronization of the configuration

In a round a server sends a snapshot of its replica to a peer, which merges it and answers with a
snapshot of its own.  A snapshot may be lost or late or come again; so one that was sent stays, and
is delivered to any replica at any time, or never.  No commit is uncertain here.
-/

namespace Specter.Config

/-- The replicas.  What they have seen and what they cover is not stored anywhere: a replica has
seen all records it started with, put or merged, and covers those whose snapshots it merged,
directly or through others. -/
structure Fleet (ι : Type) where
  table : ι → Table
  sent : List (List Record × List ι)
  seen : ι → List Record
  cover : ι → List ι

inductive Event (ι : Type) where
  | put (i : ι) (name : String) (schema : UInt64) (value : Bytes) (expectedToken : String)
  | merge (i : ι) (records : List Record)
  | send (i : ι)
  | deliver (i : ι) (k : ℕ)

section

variable {ι : Type} [DecidableEq ι] (sha256 : Bytes → Digest) (encodedLen : Record → ℕ)

def decodeSnapshot (records : List Record) : Except Error (List Record) := do
  checkRecords sha256 encodedLen records
  return records

namespace Fleet

/-- Replicas that were opened. -/
def start (table : ι → Table) : Fleet ι where
  table := table
  sent := []
  seen i := (readRecords sha256 encodedLen (table i)).toOption.getD []
  cover i := [i]

/-- What a snapshot covers counts from here. -/
def restart (s : Fleet ι) : Fleet ι where
  table := s.table
  sent := s.sent.map fun x => (x.1, [])
  seen := s.seen
  cover i := [i]

def putAt (s : Fleet ι) (i : ι) (name : String) (schema : UInt64) (value : Bytes)
    (expectedToken : String) : Fleet ι :=
  match put sha256 encodedLen .done name schema value expectedToken (s.table i) with
  | (.error _, t) => { s with table := Function.update s.table i t }
  | (.ok r, t) =>
    { s with
      table := Function.update s.table i t
      seen := Function.update s.seen i (s.seen i ++ [r]) }

def mergeAt (s : Fleet ι) (i : ι) (records : List Record) (cover : List ι) : Fleet ι :=
  match merge sha256 encodedLen .done records (s.table i) with
  | (.error _, t) => { s with table := Function.update s.table i t }
  | (.ok _, t) =>
    { s with
      table := Function.update s.table i t
      seen := Function.update s.seen i (s.seen i ++ records)
      cover := Function.update s.cover i (s.cover i ++ cover) }

def step (s : Fleet ι) : Event ι → Fleet ι
  | .put i name schema value expectedToken =>
    putAt sha256 encodedLen s i name schema value expectedToken
  | .merge i records => mergeAt sha256 encodedLen s i records []
  | .send i =>
    match snapshot sha256 encodedLen (s.table i) with
    | .error _ => s
    | .ok records => { s with sent := s.sent ++ [(records, s.cover i)] }
  | .deliver i k =>
    match s.sent[k]? with
    | none => s
    | some (records, cover) =>
      match decodeSnapshot sha256 encodedLen records with
      | .error _ => s
      | .ok records => mergeAt sha256 encodedLen s i records cover

def run (s : Fleet ι) (events : List (Event ι)) : Fleet ι :=
  events.foldl (step sha256 encodedLen) s

/-- The states of replicas that could be opened. -/
def Reached (s : Fleet ι) : Prop :=
  ∃ table : ι → Table, (∀ i, ∃ records, readRecords sha256 encodedLen (table i) = .ok records) ∧
    ∃ events, s = (start sha256 encodedLen table).run sha256 encodedLen events

end Fleet

/-- Nothing is put, and what is merged has been seen by some replica. -/
def Event.Quiet (s : Fleet ι) : Event ι → Prop
  | .put .. => False
  | .merge _ records => ∀ r ∈ records, ∃ j, r ∈ s.seen j
  | .send _ => True
  | .deliver _ _ => True

def Fleet.Quiet : Fleet ι → List (Event ι) → Prop
  | _, [] => True
  | s, e :: rest => e.Quiet s ∧ Quiet (s.step sha256 encodedLen e) rest

end

end Specter.Config
