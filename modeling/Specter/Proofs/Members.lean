import Specter.Proofs.Ownership

/-!
# Members, owners and what a key holds

Who is in the ring, and what a key should hold, is read off the trace.  Each member owns the gap
before it; a new member takes over one part of one gap (`owns_insert_left`, `owns_insert_right`,
`owns_insert_of_ne`).
-/

namespace Specter

open Lib (Arc.Ioo Arc.Ioc Arc.Gap)

def Event.admits : Event → Option NodeId
  | .swapped _ n _ .create _ _ => some n
  | .accepted _ _ x => some x
  | _ => none

def members (es : List Event) : Set NodeId := {n | ∃ e ∈ es, e.admits = some n}

section Members

variable {es : List Event} {e : Event} {n : NodeId}

theorem members_cons_none (h : e.admits = none) : members (e :: es) = members es := by
  ext m
  simp [members, h]

theorem members_cons_some (h : e.admits = some n) :
    members (e :: es) = insert n (members es) := by
  ext m
  simp [members, h, eq_comm]

end Members

/-- `n` is the first member at or after `id`. -/
def Owns (M : Set NodeId) (n : NodeId) (id : ℕ) : Prop := ∃ p, Arc.Gap M p n ∧ Arc.Ioc p n id

section Owners

variable {M : Set NodeId} {p n m x : NodeId} {id : ℕ}

theorem Owns.mem (h : Owns M n id) : n ∈ M := h.choose_spec.1.right

theorem Owns.unique (h : Owns M n id) (h' : Owns M m id) : n = m := by
  obtain ⟨p, hp, hid⟩ := h
  obtain ⟨q, hq, hid'⟩ := h'
  exact hp.eq_of_ioc hq hid hid'

theorem owns_iff (h : Arc.Gap M p n) : Owns M n id ↔ Arc.Ioc p n id := by
  constructor
  · rintro ⟨q, hq, hid⟩
    rwa [h.pred_unique hq]
  · exact fun hid => ⟨p, h, hid⟩

theorem owns_insert_left (h : Arc.Gap M p n) (hx : Arc.Ioo p n x) :
    Owns (insert x M) x id ↔ Arc.Ioc p x id :=
  owns_iff (h.insert_left hx)

theorem owns_insert_right (h : Arc.Gap M p n) (hx : Arc.Ioo p n x) :
    Owns (insert x M) n id ↔ Arc.Ioc x n id :=
  owns_iff (h.insert_right hx)

theorem owns_insert_of_ne (h : Arc.Gap M p n) (hx : Arc.Ioo p n x) (hmx : m ≠ x) (hmn : m ≠ n) :
    Owns (insert x M) m id ↔ Owns M m id := by
  constructor
  · rintro ⟨q, hq, hid⟩
    have hqx : q ≠ x := by
      rintro rfl
      exact hmn (hq.succ_unique (h.insert_right hx))
    exact ⟨q, ⟨hq.left.resolve_left hqx, hq.right.resolve_left hmx,
      fun y hy => hq.empty y (Set.mem_insert_of_mem x hy)⟩, hid⟩
  · rintro ⟨q, hq, hid⟩
    exact ⟨q, h.insert_of_ne hx hq hmn, hid⟩

end Owners

/-- What is under the key after the requests that were served, as if by one store. -/
def history (k : Bytes) : List Event → KvValue
  | [] => .newValue
  | .handled _ _ r _ :: es =>
    if r.key = k then ((history k es).handle r).2 else history k es
  | _ :: es => history k es

/-- Every request was answered as one store would have answered it. -/
def Linear : List Event → Prop
  | [] => True
  | .handled _ _ r res :: es => res = ((history r.key es).handle r).1 ∧ Linear es
  | _ :: es => Linear es

/-- The simple value after the request, given the one before. -/
def Request.written : Request → Option Bytes → Option Bytes
  | .put _ value, _ => value
  | .delete _, _ => none
  | _, v => v

def lastWritten (k : Bytes) : List Event → Option Bytes
  | [] => none
  | .handled _ _ r _ :: es =>
    if r.key = k then r.written (lastWritten k es) else lastWritten k es
  | _ :: es => lastWritten k es

theorem KvValue.handle_simple (v : KvValue) (r : Request) :
    (v.handle r).2.simple = r.written v.simple := by
  cases r with
  | put | get | delete | prefixList | prefixContains | prefixRemove => rfl
  | prefixAppend key child =>
    simp only [KvValue.handle]
    split_ifs <;> rfl
  | acquire key ttl now =>
    simp only [KvValue.handle, KvValue.acquire]
    split
    · rfl
    · split
      · rfl
      · split_ifs <;> rfl
  | renew key ttl now token =>
    simp only [KvValue.handle, KvValue.renew]
    split
    · rfl
    · split
      · rfl
      · split_ifs <;> rfl
  | release key token =>
    simp only [KvValue.handle, KvValue.release]
    split_ifs <;> rfl

theorem history_simple (k : Bytes) : ∀ es, (history k es).simple = lastWritten k es
  | [] => rfl
  | .handled _ _ r _ :: es => by
    simp only [history, lastWritten, ← history_simple k es]
    split_ifs
    · exact KvValue.handle_simple _ r
    · rfl
  | .swapped .. :: es | .refused .. :: es | .accepted .. :: es | .imported .. :: es
  | .skipped .. :: es | .joinReturned .. :: es => history_simple k es

theorem Linear.of_append {later : List Event} {t : ℕ} {n : NodeId} {r : Request}
    {res : Except ChordError Reply} {earlier : List Event}
    (h : Linear (later ++ .handled t n r res :: earlier)) :
    res = ((history r.key earlier).handle r).1 := by
  induction later with
  | nil => exact h.1
  | cons e later ih =>
    cases e with
    | handled => exact ih h.2
    | _ => exact ih h

end Specter
