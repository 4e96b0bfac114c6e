import Mathlib.Order.Lattice.Nat
import Specter.Lib.Gossip
import Specter.Proofs.Documents
import Specter.Sync

/-!
# The replicas of the configuration converge

Seen through the versions as numbers, the replicas are those of `Gossip`: a `Put` and a merge are
joins, and a snapshot is what its replica held.  Replicas that have seen the same hold the same, and
so do replicas that cover all others since the last write.
-/

namespace Specter.Config

open Lib

variable {ι : Type} {sha256 : Bytes → Digest} {encodedLen : Record → ℕ}

namespace Fleet

variable (sha256 encodedLen) in
structure Inv (s : Fleet ι) : Prop where
  readable : ∀ i, Readable sha256 encodedLen (s.table i)
  keys_eq : ∀ i, keys (s.table i) = keysOf (s.seen i)
  read_seen : ∀ i name r, readRecord sha256 (s.table i) name = .ok (some r) → r ∈ s.seen i
  seen_valid : ∀ i, ∀ r ∈ s.seen i, r.Valid sha256
  sent_checked : ∀ x ∈ s.sent, checkRecords sha256 encodedLen x.1 = .ok ()

/-- The versions that the replicas and the snapshots hold. -/
def view (s : Fleet ι) : Gossip.State ι (String → ℕ) where
  held i := keys (s.table i)
  cover := s.cover
  sent := s.sent.map fun x => (keysOf x.1, x.2)

theorem view_restart (s : Fleet ι) : s.restart.view = s.view.restart := by
  simp [view, restart, Gossip.State.restart, Function.comp_def]

theorem inv_start {table : ι → Table} (h : ∀ i, ∃ records,
    readRecords sha256 encodedLen (table i) = .ok records) :
    Inv sha256 encodedLen (start sha256 encodedLen table) := by
  have hread : ∀ i, Readable sha256 encodedLen (table i) := fun i =>
    readable_of_readRecords (h i).choose_spec
  have hseen : ∀ i, (start sha256 encodedLen table).seen i = contents sha256 (table i) := by
    intro i
    simp only [start]
    rw [readRecords_of_readable (hread i)]
    rfl
  refine ⟨hread, fun i => ?_, fun i name r hr => ?_, fun i r hr => ?_, by simp [start]⟩
  · rw [hseen, keysOf_contents (hread i).1]
    rfl
  · rw [hseen, mem_contents, (readRecord_eq_some.1 hr).1]
    exact hr
  · rw [hseen, mem_contents] at hr
    exact (readRecord_eq_some.1 hr).2.2

theorem Inv.restart {s : Fleet ι} (hs : Inv sha256 encodedLen s) :
    Inv sha256 encodedLen s.restart := by
  refine ⟨hs.readable, hs.keys_eq, hs.read_seen, hs.seen_valid, fun x hx => ?_⟩
  obtain ⟨y, hy, rfl⟩ := List.mem_map.1 hx
  exact hs.sent_checked y hy

variable [DecidableEq ι]

def take (s : Fleet ι) (i : ι) (t : Table) (records : List Record) (cover : List ι) : Fleet ι :=
  { s with
    table := Function.update s.table i t
    seen := Function.update s.seen i (s.seen i ++ records)
    cover := Function.update s.cover i (s.cover i ++ cover) }

theorem Inv.take {s : Fleet ι} (hs : Inv sha256 encodedLen s) {i : ι} {t : Table}
    {records : List Record} (cover : List ι)
    (h : Takes sha256 encodedLen (s.table i) records t) :
    Inv sha256 encodedLen (s.take i t records cover) := by
  refine ⟨fun j => ?_, fun j => ?_, fun j name r hr => ?_, fun j r hr => ?_, hs.sent_checked⟩
  all_goals
    simp only [Fleet.take, Function.update_apply] at *
    split_ifs at * with hj
  · exact h.after
  · exact hs.readable j
  · rw [h.keys_eq, hs.keys_eq, keysOf_append]
  · exact hs.keys_eq j
  · rcases h.read_from hr with hr | hr
    · exact List.mem_append_right _ hr
    · exact List.mem_append_left _ (hs.read_seen i name r hr)
  · exact hs.read_seen j name r hr
  · rcases List.mem_append.1 hr with hr | hr
    · exact hs.seen_valid i r hr
    · exact h.valid r hr
  · exact hs.seen_valid j r hr

theorem view_take {s : Fleet ι} {i : ι} {t : Table} {records : List Record} (cover : List ι)
    (h : Takes sha256 encodedLen (s.table i) records t) :
    (s.take i t records cover).view =
      { s.view with
        held := Function.update s.view.held i (s.view.held i ⊔ keysOf records)
        cover := Function.update s.view.cover i (s.view.cover i ++ cover) } := by
  simp only [view, take, Gossip.State.mk.injEq, and_true]
  funext j
  simp only [Function.update_apply]
  split_ifs with hj
  · exact h.keys_eq
  · rfl

variable {s : Fleet ι}

theorem table_eq_self (s : Fleet ι) (i : ι) :
    { s with table := Function.update s.table i (s.table i) } = s := by
  rw [Function.update_eq_self]

variable (sha256 encodedLen) in
theorem putAt_cases (s : Fleet ι) (i : ι) (name : String) (schema : UInt64) (value : Bytes)
    (expectedToken : String) :
    putAt sha256 encodedLen s i name schema value expectedToken = s ∨
      ∃ t r, Takes sha256 encodedLen (s.table i) [r] t ∧
        putAt sha256 encodedLen s i name schema value expectedToken = s.take i t [r] [] := by
  unfold putAt
  split
  next e t h =>
    rw [put_error h (.inr rfl), table_eq_self]
    exact .inl rfl
  next r t h =>
    refine .inr ⟨t, r, (put_ok h).1, ?_⟩
    simp only [take, List.append_nil, Function.update_eq_self]

variable (sha256 encodedLen) in
theorem mergeAt_cases (s : Fleet ι) (i : ι) (records : List Record) (cover : List ι) :
    mergeAt sha256 encodedLen s i records cover = s ∨
      ∃ t, Takes sha256 encodedLen (s.table i) records t ∧
        mergeAt sha256 encodedLen s i records cover = s.take i t records cover := by
  unfold mergeAt
  split
  next e t h =>
    rw [merge_error h (.inr rfl), table_eq_self]
    exact .inl rfl
  next t h => exact .inr ⟨t, merge_ok h, rfl⟩

theorem snapshot_eq_ok {t : Table} {records : List Record}
    (h : snapshot sha256 encodedLen t = .ok records) :
    records = contents sha256 t ∧ checkRecords sha256 encodedLen records = .ok () := by
  obtain ⟨rs, hread, h⟩ := bind_eq_ok.1 h
  obtain ⟨⟨⟩, hcheck, h⟩ := bind_eq_ok.1 h
  cases h
  exact ⟨(readRecords_eq_ok.1 hread).2.1, hcheck⟩

variable (sha256 encodedLen) in
theorem step_cases (s : Fleet ι) (e : Event ι) :
    s.step sha256 encodedLen e = s ∨
    (∃ i, checkRecords sha256 encodedLen (contents sha256 (s.table i)) = .ok () ∧
      s.step sha256 encodedLen e =
        { s with sent := s.sent ++ [(contents sha256 (s.table i), s.cover i)] }) ∨
    (∃ i t records cover, Takes sha256 encodedLen (s.table i) records t ∧
      (records, cover) ∈ s.sent ∧ s.step sha256 encodedLen e = s.take i t records cover) ∨
    ∃ i t records, Takes sha256 encodedLen (s.table i) records t ∧
      (e.Quiet s → ∀ r ∈ records, ∃ j, r ∈ s.seen j) ∧
        s.step sha256 encodedLen e = s.take i t records [] := by
  cases e with
  | put i name schema value expectedToken =>
    rcases putAt_cases sha256 encodedLen s i name schema value expectedToken with
      h | ⟨t, r, htakes, h⟩
    · exact .inl h
    · exact .inr (.inr (.inr ⟨i, t, [r], htakes, False.elim, h⟩))
  | merge i records =>
    rcases mergeAt_cases sha256 encodedLen s i records [] with h | ⟨t, htakes, h⟩
    · exact .inl h
    · exact .inr (.inr (.inr ⟨i, t, records, htakes, id, h⟩))
  | send i =>
    simp only [step]
    split
    · exact .inl rfl
    next records h =>
      obtain ⟨rfl, hcheck⟩ := snapshot_eq_ok h
      exact .inr (.inl ⟨i, hcheck, rfl⟩)
  | deliver i k =>
    simp only [step]
    split
    · exact .inl rfl
    next records cover hk =>
      split
      · exact .inl rfl
      next records' h =>
        obtain ⟨⟨⟩, -, h⟩ := bind_eq_ok.1 h
        cases h
        rcases mergeAt_cases sha256 encodedLen s i records cover with h | ⟨t, htakes, h⟩
        · exact .inl h
        · exact .inr (.inr (.inl ⟨i, t, records, cover, htakes, List.mem_of_getElem? hk, h⟩))

section

variable (hs : Inv sha256 encodedLen s)

include hs

theorem Inv.step (e : Event ι) : Inv sha256 encodedLen (s.step sha256 encodedLen e) := by
  rcases step_cases sha256 encodedLen s e with
    h | ⟨i, hcheck, h⟩ | ⟨i, t, records, cover, htakes, -, h⟩ | ⟨i, t, records, htakes, -, h⟩ <;>
    rw [h]
  · exact hs
  · refine ⟨hs.readable, hs.keys_eq, hs.read_seen, hs.seen_valid, fun x hx => ?_⟩
    rcases List.mem_append.1 hx with hx | hx
    · exact hs.sent_checked x hx
    · rw [List.mem_singleton.1 hx]
      exact hcheck
  · exact hs.take cover htakes
  · exact hs.take [] htakes

/-- An event is a step of the replicas as joins, and an exchange if nothing is written. -/
theorem step_view (e : Event ι) :
    Gossip.Step s.view (s.step sha256 encodedLen e).view ∧
      (e.Quiet s → Gossip.Exchange s.view (s.step sha256 encodedLen e).view) := by
  have hboth : Gossip.Exchange s.view (s.step sha256 encodedLen e).view →
      Gossip.Step s.view (s.step sha256 encodedLen e).view ∧
        (e.Quiet s → Gossip.Exchange s.view (s.step sha256 encodedLen e).view) :=
    fun h => ⟨.exchange h, fun _ => h⟩
  rcases step_cases sha256 encodedLen s e with
    h | ⟨i, -, h⟩ | ⟨i, t, records, cover, htakes, hmem, h⟩ | ⟨i, t, records, htakes, hquiet, h⟩
  · refine hboth ?_
    rw [h]
    exact .idle
  · refine hboth ?_
    have hview : (s.step sha256 encodedLen e).view =
        { s.view with sent := s.view.sent ++ [(s.view.held i, s.view.cover i)] } := by
      rw [h]
      simp only [view, List.map_append, List.map_cons, List.map_nil,
        keysOf_contents (hs.readable i).1]
    rw [hview]
    exact .send i
  · refine hboth ?_
    rw [h, view_take cover htakes]
    exact .receive i (List.mem_map.2 ⟨_, hmem, rfl⟩)
  · have hview := view_take [] htakes
    simp only [List.append_nil, Function.update_eq_self] at hview
    rw [h, hview]
    refine ⟨.write i _, fun he => .take i fun b hb => keysOf_le_iff.2 fun r hr => ?_⟩
    obtain ⟨j, hj⟩ := hquiet he r hr
    calc r.version.key ≤ keysOf (s.seen j) r.name := le_keysOf hj
      _ = keys (s.table j) r.name := by rw [hs.keys_eq]
      _ ≤ b r.name := hb j r.name

theorem Inv.run (events : List (Event ι)) :
    Inv sha256 encodedLen (s.run sha256 encodedLen events) := by
  induction events generalizing s with
  | nil => exact hs
  | cons e rest ih => exact ih (hs.step e)

theorem run_view (events : List (Event ι)) :
    Relation.ReflTransGen Gossip.Step s.view (s.run sha256 encodedLen events).view := by
  induction events generalizing s with
  | nil => exact .refl
  | cons e rest ih => exact .head (step_view hs e).1 (ih (hs.step e))

theorem run_quiet {events : List (Event ι)} (h : s.Quiet sha256 encodedLen events) :
    Relation.ReflTransGen Gossip.Exchange s.view (s.run sha256 encodedLen events).view := by
  induction events generalizing s with
  | nil => exact .refl
  | cons e rest ih => exact .head ((step_view hs e).2 h.1) (ih (hs.step e) h.2)

end

end Fleet

variable (sha256) in
/-- Under each name the table has the greatest of these records, if there is one. -/
def Greatest (t : Table) (records : List Record) : Prop :=
  ∀ name, readRecord sha256 t name = .ok none ∧ (∀ r ∈ records, r.name ≠ name) ∨
    ∃ d ∈ records, readRecord sha256 t name = .ok (some d) ∧
      ∀ r ∈ records, r.name = name → r.version.compare d.version ≠ .gt

variable (sha256) in
def NoCollision (records : List Record) : Prop :=
  ∀ r ∈ records, ∀ d ∈ records, sha256 r.value = sha256 d.value → r.value = d.value

namespace Fleet

variable {s s' : Fleet ι}

theorem Inv.greatest (hs : Inv sha256 encodedLen s) (i : ι) :
    Greatest sha256 (s.table i) (s.seen i) := by
  intro name
  have hle : ∀ r ∈ s.seen i, r.name = name → r.version.key ≤ keys (s.table i) name := by
    rintro r hr rfl
    rw [hs.keys_eq]
    exact le_keysOf hr
  rcases (hs.readable i).1.read name with ⟨hread, hzero⟩ | ⟨d, hread, hkey⟩
  · refine .inl ⟨hread, fun r hr hname => ?_⟩
    have hpos := (hs.seen_valid i r hr).key_pos
    have hkey := hle r hr hname
    omega
  · refine .inr ⟨d, hs.read_seen i name d hread, hread, fun r hr hname => ?_⟩
    exact Version.compare_ne_gt.2 ((hle r hr hname).trans hkey.le)

theorem Inv.table_eq (hs : Inv sha256 encodedLen s) (hs' : Inv sha256 encodedLen s') {i j : ι}
    (hkeys : keys (s.table i) = keys (s'.table j)) {records : List Record}
    (hi : ∀ r ∈ s.seen i, r ∈ records) (hj : ∀ r ∈ s'.seen j, r ∈ records)
    (hcoll : NoCollision sha256 records) : s.table i = s'.table j :=
  table_ext (hs.readable i).1 (hs'.readable j).1 hkeys fun name r d hr hd =>
    hcoll r (hi r (hs.read_seen i name r hr)) d (hj d (hs'.read_seen j name d hd))

theorem Inv.table_eq_of_seen (hs : Inv sha256 encodedLen s) (hs' : Inv sha256 encodedLen s')
    {i j : ι} (hseen : ∀ r, r ∈ s.seen i ↔ r ∈ s'.seen j)
    (hcoll : NoCollision sha256 (s.seen i)) : s.table i = s'.table j := by
  refine hs.table_eq hs' ?_ (fun r hr => hr) (fun r hr => (hseen r).2 hr) hcoll
  rw [hs.keys_eq, hs'.keys_eq]
  refine le_antisymm (keysOf_le_iff.2 fun r hr => ?_) (keysOf_le_iff.2 fun r hr => ?_)
  · exact le_keysOf ((hseen r).1 hr)
  · exact le_keysOf ((hseen r).2 hr)

variable [DecidableEq ι]

theorem Reached.inv (h : s.Reached sha256 encodedLen) : Inv sha256 encodedLen s := by
  obtain ⟨table, hopen, events, rfl⟩ := h
  exact (inv_start hopen).run events

theorem Reached.dominated (h : s.Reached sha256 encodedLen) : s.view.Dominated := by
  obtain ⟨table, hopen, events, rfl⟩ := h
  refine Gossip.State.Dominated.steps ?_ (run_view (inv_start hopen) events)
  simp [Gossip.State.Dominated, view, start]

end Fleet

variable [DecidableEq ι]

/-- Whatever is put, merged and exchanged: each replica holds the greatest of the records it has
seen; replicas that have seen the same hold the same; so do, when nothing is put any more, replicas
that have merged snapshots covering all; and every snapshot within the limits can be merged. -/
theorem config_converges (sha256 : Bytes → Digest) (encodedLen : Record → ℕ) (s : Fleet ι)
    (hs : s.Reached sha256 encodedLen) :
    (∀ i, Greatest sha256 (s.table i) (s.seen i)) ∧
    (∀ s' : Fleet ι, s'.Reached sha256 encodedLen → ∀ i j,
      (∀ r, r ∈ s.seen i ↔ r ∈ s'.seen j) → NoCollision sha256 (s.seen i) →
        s.table i = s'.table j) ∧
    (∀ later s', s.restart.Quiet sha256 encodedLen later →
      s' = s.restart.run sha256 encodedLen later → ∀ i j,
        (∀ k, k ∈ s'.cover i) → (∀ k, k ∈ s'.cover j) →
          NoCollision sha256 (s'.seen i ++ s'.seen j) → s'.table i = s'.table j) ∧
    (∀ i, ∃ records, snapshot sha256 encodedLen (s.table i) = .ok records) ∧
    (∀ x ∈ s.sent, checkRecords sha256 encodedLen x.1 = .ok ()) ∧
    ∀ i records, checkRecords sha256 encodedLen records = .ok () →
      Fits encodedLen (contents sha256 (writeRecords records (s.table i)).2) →
        (merge sha256 encodedLen .done records (s.table i)).1 = .ok () := by
  have hinv := hs.inv
  refine ⟨hinv.greatest, fun s' hs' i j => hinv.table_eq_of_seen hs'.inv, ?_, fun i => ?_,
    hinv.sent_checked, fun i records => merge_done (hinv.readable i)⟩
  · rintro later s' hquiet rfl i j hi hj
    have hinv' := hinv.restart.run later
    have hexchange := Fleet.run_quiet hinv.restart hquiet
    rw [Fleet.view_restart] at hexchange
    exact hinv'.table_eq hinv' (Gossip.converged hs.dominated hexchange hi hj)
      (fun r hr => List.mem_append_left _ hr) (fun r hr => List.mem_append_right _ hr)
  · have hread := readRecords_of_readable (hinv.readable i)
    have hcheck : checkRecords sha256 encodedLen (contents sha256 (s.table i)) = .ok () :=
      checkRecords_eq_ok.2 ⟨fun r hr => (readRecord_eq_some.1 (mem_contents.1 hr)).2.2,
        (hinv.readable i).2⟩
    exact ⟨_, bind_eq_ok.2 ⟨_, hread, bind_eq_ok.2 ⟨(), hcheck, rfl⟩⟩⟩

def firstByte (value : Bytes) : Digest := Vector.replicate 32 (value.headD 0)

def edited : Fleet Bool :=
  (Fleet.start firstByte (fun r => r.value.length) fun _ => ∅).run firstByte
    (fun r => r.value.length) [.put false "a" 1 [1] "", .put true "a" 1 [2] ""]

def exchanged : Fleet Bool :=
  edited.restart.run firstByte (fun r => r.value.length)
    [.send false, .deliver true 0, .send true, .deliver false 1]

theorem config_converges_exchanged :
    ((edited.table false)["a"]?.map Row.value = some [1] ∧
      (edited.table true)["a"]?.map Row.value = some [2]) ∧
    (exchanged.table false)["a"]?.map Row.value = some [2] ∧
    exchanged.table false = exchanged.table true := by
  refine ⟨by decide +kernel, by decide +kernel, ?_⟩
  have hopen : ∀ _ : Bool, ∃ records,
      readRecords firstByte (fun r => r.value.length) ∅ = .ok records := fun _ => ⟨[], rfl⟩
  have hs : edited.Reached firstByte fun r => r.value.length := ⟨fun _ => ∅, hopen, _, rfl⟩
  refine (config_converges firstByte (fun r => r.value.length) edited hs).2.2.1 _ exchanged
    ?_ rfl false true (by decide +kernel) (by decide +kernel) ?_
  · exact ⟨trivial, trivial, trivial, trivial, trivial⟩
  · unfold NoCollision
    decide +kernel

end Specter.Config
