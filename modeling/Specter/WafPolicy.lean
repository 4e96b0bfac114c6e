import Specter.Hostname

/-!
# What a policy means, and policies in memory

`validatePolicy` says what is checked and what is returned.  In the program a policy is a message
with a slice of pointers to its exceptions, and sorting and compacting happen in the array behind
the slice: `Memory.validatePolicy` does the same on objects in memory.
-/

namespace Specter.Tunnel

open Lib

def effectiveMode (p : WAFPolicy) (defaultMode : PolicyMode) : PolicyMode :=
  if p.mode = .inherit then defaultMode else p.mode

def disabledRules (p : WAFPolicy) (path : String) : List ℕ :=
  sortCompact (· ≤ ·)
    ((p.exclusions.filter fun e => e.path = "" ∨ e.path = path).map (·.ruleId))

/-- A pointer is the position of its object, and `none` is nil. -/
abbrev Pointer := Option ℕ

inductive Object where
  | exclusion (e : WAFExclusion)
  | array (elems : List Pointer)
  /-- A policy has the first `len` elements of an array. -/
  | policy (mode : PolicyMode) (array len : ℕ)
  deriving DecidableEq, Repr

abbrev Memory := List Object

/-- `slices.CompactFunc`, without the nils it leaves behind. -/
def compactFunc {α : Type} (eq : α → α → Bool) : List α → List α
  | [] => []
  | a :: rest => a :: skip a rest
where
  skip : α → List α → List α
    | _, [] => []
    | prev, b :: rest => if eq b prev then skip b rest else b :: skip b rest

namespace Memory

def exclusion (m : Memory) (p : Pointer) : Option WAFExclusion :=
  match p.bind (m[·]?) with
  | some (.exclusion e) => some e
  | _ => none

def elems (m : Memory) (array len : ℕ) : List Pointer :=
  match m[array]? with
  | some (.array elems) => elems.take len
  | _ => []

/-- The policy at a pointer, if its slice is within the array and has no nil in it. -/
def load (m : Memory) (p : Pointer) : Option WAFPolicy :=
  match p.bind (m[·]?) with
  | some (.policy mode array len) =>
    let exclusions := (m.elems array len).filterMap m.exclusion
    if exclusions.length = len then some ⟨mode, exclusions⟩ else none
  | _ => none

def invalid (m : Memory) (p : Pointer) : Option String :=
  match m.exclusion p with
  | none => some "rule_id must be a six-digit rule ID"
  | some e => e.invalid

/-- `proto.Clone` of a policy with these exceptions. -/
def clone (m : Memory) (mode : PolicyMode) (exclusions : List WAFExclusion) : Memory :=
  m ++ exclusions.map .exclusion ++
    [.array ((List.range exclusions.length).map fun i => some (m.length + i)),
      .policy mode (m.length + exclusions.length) exclusions.length]

def le (m : Memory) (p q : Pointer) : Bool :=
  match m.exclusion p, m.exclusion q with
  | some a, some b => a.le b
  | _, _ => true

def same (m : Memory) (p q : Pointer) : Bool := m.exclusion p == m.exclusion q

/-- `slices.SortFunc` on a whole array. -/
def sortFunc (m : Memory) (array len : ℕ) : Memory :=
  m.set array (.array ((m.elems array len).mergeSort m.le))

/-- `slices.CompactFunc` on a whole array, whose result becomes the slice of the policy. -/
def compactFunc (m : Memory) (p : ℕ) (mode : PolicyMode) (array len : ℕ) : Memory :=
  let kept := Tunnel.compactFunc m.same (m.elems array len)
  (m.set array (.array (kept ++ List.replicate (len - kept.length) none))).set p
    (.policy mode array kept.length)

def validatePolicy (w : WafCodec) (m : Memory) (p : Pointer) : Except String Pointer × Memory :=
  match p.bind (m[·]?) with
  | some (.policy mode array len) =>
    if mode = .unknown then (.error "mode must be INHERIT, BLOCK, MONITOR, or OFF", m)
    else if len > maxExclusions then (.error "at most 32 rule exceptions are allowed", m)
    else
      let elems := m.elems array len
      match elems.findSome? m.invalid with
      | some msg => (.error msg, m)
      | none =>
        let exclusions := elems.filterMap m.exclusion
        let array := m.length + exclusions.length
        let cloned := array + 1
        let m := m.clone mode exclusions
        let m := m.sortFunc array len
        let m := m.compactFunc cloned mode array len
        match m.load (some cloned) with
        | none => (.error "rule exceptions exceed the 49152-byte policy limit", m)
        | some policy =>
          if (w.policy policy).length > maxPolicyBytes then
            (.error "rule exceptions exceed the 49152-byte policy limit", m)
          else (.ok (some cloned), m)
  | _ => (.error "policy is required", m)

end Memory

end Specter.Tunnel
