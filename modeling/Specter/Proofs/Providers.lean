import Specter.Proofs.Sqlite
import Mathlib.Data.List.Forall2
import Mathlib.Data.List.Nodup

/-!
# One provider in place of the other

Without imports `MemoryKV` and `SqliteKV` answer every call alike (`providers_interchangeable`).
Memory imports a transfer as the whole of a key's value and lease, the tables only as an addition;
`import_agrees_iff` says when that makes no difference.
-/

namespace Specter

inductive ProviderCall where
  | request (r : Request)
  | listKeys (pfx : Bytes)
  | rangeKeys (low high : ℕ)
  | exportKeys (keys : List Bytes)
  | removeKeys (keys : List Bytes)

inductive Answer where
  | reply (res : Except ChordError Reply)
  | listed (keys : List KeyComposite)
  | keys (keys : List Bytes)
  | exported (values : List KVTransfer)
  | removed (res : Except ChordError Unit)

def MemoryKV.call {hashFn : Bytes → ℕ} (m : MemoryKV hashFn) :
    ProviderCall → Answer × MemoryKV hashFn
  | .request r => (.reply (m.handle r).1, (m.handle r).2)
  | .listKeys pfx => (.listed (m.listKeys pfx), m)
  | .rangeKeys low high => (.keys (m.rangeKeys low high), m)
  | .exportKeys keys => (.exported (m.exportKeys keys), m)
  | .removeKeys keys => (.removed (.ok ()), m.removeKeys keys)

def SqliteKV.call {hashFn : Bytes → ℕ} (s : SqliteKV hashFn) :
    ProviderCall → Answer × SqliteKV hashFn
  | .request r => (.reply (s.handle false r).1, (s.handle false r).2)
  | .listKeys pfx => (.listed (s.tables.listKeys pfx), s)
  | .rangeKeys low high => (.keys (s.tables.rangeKeys low high), s)
  | .exportKeys keys => (.exported (s.tables.exportKeys keys), s)
  | .removeKeys keys => (.removed (s.tables.removeKeys false keys).1, s.removeKeys keys)

def answers {S : Type} (call : S → ProviderCall → Answer × S) : List ProviderCall → S → List Answer
  | [], _ => []
  | c :: calls, s => (call s c).1 :: answers call calls (call s c).2

def Reply.Same : Reply → Reply → Prop
  | .children a, .children b => ∀ c, c ∈ a ↔ c ∈ b
  | a, b => a = b

structure KVTransfer.Same (x y : KVTransfer) : Prop where
  simple : x.simpleValue = y.simpleValue
  children : ∀ c, c ∈ x.prefixChildren ↔ c ∈ y.prefixChildren
  lease : x.leaseToken = y.leaseToken

def Answer.Same : Answer → Answer → Prop
  | .reply (.ok a), .reply (.ok b) => a.Same b
  | .reply (.error e), .reply (.error e') => e = e'
  | .listed a, .listed b => a.Perm b
  | .keys a, .keys b => ∀ k, k ∈ a ↔ k ∈ b
  | .exported a, .exported b => List.Forall₂ KVTransfer.Same a b
  | .removed a, .removed b => a = b
  | _, _ => False

theorem Answer.same_reply (res : Except ChordError Reply) :
    Answer.Same (.reply res) (.reply res) := by
  rcases res with e | reply
  · exact rfl
  · cases reply <;> simp [Answer.Same, Reply.Same]

/-- Values are not nil, a release names a token, and positions are of the identifier circle. -/
def ProviderCall.Valid : ProviderCall → Prop
  | .request r => r.Valid
  | .rangeKeys low high => low < maxIdentifier ∧ high < maxIdentifier
  | _ => True

section simulation

variable {hashFn : Bytes → ℕ} {m : MemoryKV hashFn} {s : SqliteKV hashFn} {β : Type}

/-- Every key holds the same, and the leases are of expiry times a clock can reach. -/
structure Alike (m : MemoryKV hashFn) (s : SqliteKV hashFn) : Prop where
  val : ∀ k, m.val k = s.val k
  lease : ∀ k, (s.val k).lease < 2 ^ 63

theorem alike_empty : Alike (.withHashFn hashFn) (.withHashFn hashFn) where
  val k := by
    rw [MemoryKV.val_withHashFn]
    simp [SqliteKV.val, SqliteKV.withHashFn, Tables.val, Tables.empty, Tables.children,
      scanInt64AsUint64, KvValue.newValue]
  lease k := by
    simp [SqliteKV.val, SqliteKV.withHashFn, Tables.val, Tables.empty, scanInt64AsUint64]

theorem Alike.handle (hhash : ∀ k, hashFn k < maxIdentifier) (h : Alike m s) {r : Request}
    (hr : r.Valid) :
    (m.handle r).1 = (s.handle false r).1 ∧ Alike (m.handle r).2 (s.handle false r).2 := by
  have hk : hashFn r.key < 2 ^ 64 := Nat.lt_trans (hhash r.key) (by decide)
  obtain ⟨h1, h2⟩ := Tables.does_handle s.exact hk s.tokens (h.lease r.key) hr
  obtain ⟨h3, h4⟩ := m.handle_spec r
  rw [h.val] at h3 h4
  refine ⟨h3.trans h1.symm, fun k => ?_, fun k => ?_⟩
  · rw [h4, h.val]
    exact (h2 k).symm
  · change ((s.tables.handle hashFn false r).2.val k).lease < 2 ^ 63
    rw [h2 k]
    split_ifs
    · exact KvValue.lease_handle_lt _ (h.lease r.key) r
    · exact h.lease k

theorem Alike.mem_rangeKeys (hhash : ∀ k, hashFn k < maxIdentifier) (h : Alike m s) {low high : ℕ}
    (hlow : low < maxIdentifier) (hhigh : high < maxIdentifier) (k : Bytes) :
    k ∈ m.rangeKeys low high ↔ k ∈ s.tables.rangeKeys low high := by
  have hmax : ∀ {p : ℕ}, p < maxIdentifier → p < 2 ^ 63 := fun h => Nat.lt_trans h (by decide)
  rw [m.mem_rangeKeys, Tables.mem_rangeKeys s.exact s.tokens (hmax hlow) (hmax hhigh)
    (hmax (hhash k)), h.val]
  rfl

theorem nodup_composites (key : Bytes) (v : KvValue) : (MemoryKV.composites key v).Nodup := by
  unfold MemoryKV.composites
  split_ifs <;> simp

theorem nodup_flatMap_rows {rows : List (Bytes × β)} {f : Bytes × β → List KeyComposite}
    (hrows : rows.Pairwise fun a b => a.1 ≠ b.1) (hf : ∀ row ∈ rows, (f row).Nodup)
    (hkey : ∀ row ∈ rows, ∀ c ∈ f row, c.key = row.1) : (rows.flatMap f).Nodup := by
  rw [List.nodup_flatMap]
  refine ⟨hf, ?_⟩
  refine hrows.imp_of_mem fun ha hb hne c hca hcb => ?_
  exact hne ((hkey _ ha c hca).symm.trans (hkey _ hb c hcb))

theorem keys_distinct (rows : Std.ExtTreeMap Bytes β) : rows.toList.Pairwise fun a b => a.1 ≠ b.1 :=
  Std.ExtTreeMap.distinct_keys_toList.imp fun h he => h (by rw [he]; simp)

theorem nodup_listKeys_memory (m : MemoryKV hashFn) (pfx : Bytes) : (m.listKeys pfx).Nodup := by
  have hin : ∀ {kMap : Std.ExtTreeMap Bytes KvValue} {c : KeyComposite},
      (c ∈ kMap.toList.flatMap fun x =>
        if pfx.isPrefixOf x.1 then MemoryKV.composites x.1 x.2 else []) →
      ∃ v, (c.key, v) ∈ kMap.toList := by
    intro kMap c hc
    obtain ⟨⟨key, v⟩, hkv, hc⟩ := List.mem_flatMap.1 hc
    simp only at hc
    split_ifs at hc
    · obtain ⟨rfl, -⟩ := MemoryKV.mem_composites.1 hc
      exact ⟨v, hkv⟩
    · simp at hc
  unfold MemoryKV.listKeys
  rw [List.nodup_flatMap]
  constructor
  · rintro ⟨p, kMap⟩ -
    refine nodup_flatMap_rows (keys_distinct kMap) ?_ ?_
    · rintro ⟨key, v⟩ -
      simp only
      split_ifs
      · exact nodup_composites key v
      · exact List.nodup_nil
    · rintro ⟨key, v⟩ - c hc
      simp only at hc
      split_ifs at hc
      · exact (MemoryKV.mem_composites.1 hc).1
      · simp at hc
  · -- the same key is not filed under two hashes
    refine Std.ExtTreeMap.distinct_keys_toList.imp_of_mem ?_
    rintro ⟨p, kMap⟩ ⟨p', kMap'⟩ hp hp' hne c hc hc'
    obtain ⟨v, hv⟩ := hin hc
    obtain ⟨v', hv'⟩ := hin hc'
    refine hne ?_
    rw [← (m.lookupVal_of_row hp hv).1, ← (m.lookupVal_of_row hp' hv').1]
    simp

theorem nodup_listKeys_sqlite (s : SqliteKV hashFn) (pfx : Bytes) :
    (s.tables.listKeys pfx).Nodup := by
  have hflags : ∀ {key : Bytes} {row : KeyTracker}, (key, row) ∈ s.tables.keyTrackers.toList →
      Tables.flagged key row.flags = MemoryKV.composites key (s.val key) := by
    intro key row hrow
    rw [Std.ExtTreeMap.mem_toList_iff_getElem?_eq_some] at hrow
    obtain ⟨-, rfl⟩ := (Tables.tracked_iff s.exact s.tokens).1 hrow
    exact Tables.flagged_eq s.tokens key
  refine nodup_flatMap_rows (keys_distinct _) ?_ ?_
  · rintro ⟨key, row⟩ hrow
    simp only
    split_ifs
    · rw [hflags hrow]
      exact nodup_composites key _
    · exact List.nodup_nil
  · rintro ⟨key, row⟩ hrow c hc
    simp only at hc
    split_ifs at hc
    · rw [hflags hrow] at hc
      exact (MemoryKV.mem_composites.1 hc).1
    · simp at hc

theorem Alike.listKeys_perm (h : Alike m s) (pfx : Bytes) :
    (m.listKeys pfx).Perm (s.tables.listKeys pfx) := by
  refine (List.perm_ext_iff_of_nodup (nodup_listKeys_memory m pfx)
    (nodup_listKeys_sqlite s pfx)).2 fun c => ?_
  rw [m.mem_listKeys, Tables.mem_listKeys s.exact s.tokens, h.val]
  rfl

theorem Alike.removeKeys (h : Alike m s) (keys : List Bytes) :
    Alike (m.removeKeys keys) (s.removeKeys keys) := by
  have hval : ∀ k, (s.removeKeys keys).val k = if k ∈ keys then .newValue else s.val k := by
    intro k
    simp only [SqliteKV.val, SqliteKV.removeKeys, Tables.removeKeys_eq, Tables.val_removeBatches]
  refine ⟨fun k => ?_, fun k => ?_⟩
  · rw [m.val_removeKeys, hval, h.val]
  · rw [hval]
    split_ifs
    · exact Nat.two_pow_pos 63
    · exact h.lease k

theorem Alike.call (hhash : ∀ k, hashFn k < maxIdentifier) (h : Alike m s) {c : ProviderCall}
    (hc : c.Valid) : (m.call c).1.Same (s.call c).1 ∧ Alike (m.call c).2 (s.call c).2 := by
  cases c with
  | request r =>
    obtain ⟨hres, halike⟩ := h.handle hhash hc
    refine ⟨?_, halike⟩
    simp only [MemoryKV.call, SqliteKV.call, hres]
    exact Answer.same_reply _
  | listKeys pfx => exact ⟨h.listKeys_perm pfx, h⟩
  | rangeKeys low high => exact ⟨h.mem_rangeKeys hhash hc.1 hc.2, h⟩
  | exportKeys keys =>
    refine ⟨?_, h⟩
    simp only [MemoryKV.call, SqliteKV.call, MemoryKV.exportKeys_eq, Tables.exportKeys, Answer.Same,
      h.val]
    rw [List.forall₂_map_left_iff, List.forall₂_map_right_iff, List.forall₂_same]
    exact fun k _ => ⟨rfl, fun _ => Iff.rfl, rfl⟩
  | removeKeys keys =>
    refine ⟨?_, h.removeKeys keys⟩
    simp only [MemoryKV.call, SqliteKV.call, Tables.removeKeys_eq, Answer.Same]

theorem Alike.answers (hhash : ∀ k, hashFn k < maxIdentifier) {calls : List ProviderCall}
    (hcalls : ∀ c ∈ calls, c.Valid) (h : Alike m s) :
    List.Forall₂ Answer.Same (Specter.answers MemoryKV.call calls m)
      (Specter.answers SqliteKV.call calls s) := by
  induction calls generalizing m s with
  | nil => exact .nil
  | cons c calls ih =>
    obtain ⟨hsame, hnext⟩ := h.call hhash (hcalls c (by simp))
    exact .cons hsame (ih (fun c' hc' => hcalls c' (by simp [hc'])) hnext)

end simulation

/-- Started empty, the two providers answer any calls alike. -/
theorem providers_interchangeable {hashFn : Bytes → ℕ} (hhash : ∀ k, hashFn k < maxIdentifier)
    (calls : List ProviderCall) (hcalls : ∀ c ∈ calls, c.Valid) :
    List.Forall₂ Answer.Same (answers MemoryKV.call calls (.withHashFn hashFn))
      (answers SqliteKV.call calls (.withHashFn hashFn)) :=
  alike_empty.answers hhash hcalls

theorem providers_interchangeable_leased :
    List.Forall₂ Answer.Same
      (answers MemoryKV.call [.request (.put [1] (some [])), .request (.acquire [1] 2000000000 5),
        .rangeKeys 3 3, .request (.release [1] 2000000005), .listKeys []]
        (.withHashFn fun _ => 7))
      (answers SqliteKV.call [.request (.put [1] (some [])), .request (.acquire [1] 2000000000 5),
        .rangeKeys 3 3, .request (.release [1] 2000000005), .listKeys []]
        (.withHashFn fun _ => 7)) :=
  providers_interchangeable (fun _ => by decide) _ fun c hc => by
    simp only [List.mem_cons, List.not_mem_nil, or_false] at hc
    rcases hc with rfl | rfl | rfl | rfl | rfl <;>
      simp [ProviderCall.Valid, Request.Valid, maxIdentifier, maxFingerEntries]

/-- Nothing tells the two stores apart: no simple value, no child, no token, no range. -/
structure ObservablyEqual {hashFn : Bytes → ℕ} (m : MemoryKV hashFn) (t : Tables) : Prop where
  simple : ∀ k, m.get k = t.get k
  children : ∀ k child, m.prefixContains k child = (t.children k).contains child
  lease : ∀ k, (m.exportOne k).leaseToken = (t.exportOne k).leaseToken
  live : ∀ k, k ∈ m.rangeKeys 0 0 ↔ k ∈ t.rangeKeys 0 0

section imports

variable {hashFn : Bytes → ℕ} {m : MemoryKV hashFn} (xs : List KVTransfer) (v : KvValue)

theorem observablyEqual_iff (s : SqliteKV hashFn) :
    ObservablyEqual m s.tables ↔ ∀ k, m.val k = s.val k := by
  constructor
  · intro h k
    have h1 := h.simple k
    have h2 := h.lease k
    rw [m.get_eq] at h1
    rw [m.exportOne_eq] at h2
    have h3 : (m.val k).children = (s.val k).children := by
      refine Std.ExtTreeSet.ext_mem fun child => ?_
      have := h.children k child
      rw [m.prefixContains_eq] at this
      rw [← Std.ExtTreeSet.contains_iff_mem, this, Std.ExtTreeSet.contains_iff_mem]
      rfl
    rcases hv : m.val k with ⟨simple, lease, children⟩
    rw [hv] at h1 h2 h3
    obtain rfl : simple = s.tables.get k := h1
    obtain rfl : lease = (s.tables.exportOne k).leaseToken := h2
    obtain rfl : children = (s.val k).children := h3
    rfl
  · intro h
    refine ⟨fun k => ?_, fun k child => ?_, fun k => ?_, fun k => ?_⟩
    · rw [m.get_eq, h]
      rfl
    · rw [m.prefixContains_eq, h]
      rfl
    · rw [m.exportOne_eq, h]
      rfl
    · rw [m.mem_rangeKeys, Tables.mem_rangeKeys_iff, h]
      constructor
      · rintro ⟨-, hv⟩
        refine ⟨_, (Tables.tracked_iff s.exact s.tokens).2 ⟨hv, rfl⟩, ?_⟩
        simp only [Tables.inRange, bindUint64AsInt64, toInt64]
        simp
        omega
      · rintro ⟨row, hrow, -⟩
        refine ⟨?_, ((Tables.tracked_iff s.exact s.tokens).1 hrow).1⟩
        simp only [between]
        simp
        omega

open Tables (absorb importedSimpleValue)

theorem foldl_absorb_simple :
    (xs.foldl absorb v).simple = none ↔
      v.simple = none ∧ ∀ y ∈ xs, importedSimpleValue y = none := by
  induction xs generalizing v with
  | nil => simp
  | cons x xs ih => simp [ih, absorb, and_comm, and_assoc]

theorem foldl_absorb_lease :
    (xs.foldl absorb v).lease = 0 ↔ v.lease = 0 ∧ ∀ y ∈ xs, y.leaseToken = 0 := by
  induction xs generalizing v with
  | nil => simp
  | cons x xs ih =>
    simp only [List.foldl_cons, ih, absorb, List.forall_mem_cons]
    split_ifs <;> tauto

theorem foldl_children {v w : KvValue} (h : v.children = w.children) :
    (xs.foldl MemoryKV.merge v).children = (xs.foldl absorb w).children := by
  induction xs generalizing v w with
  | nil => exact h
  | cons x xs ih => exact ih (by simp [MemoryKV.merge, absorb, h])

theorem foldl_merge_eq_absorb_iff :
    xs.foldl MemoryKV.merge v = xs.foldl absorb v ↔ ∀ x, xs.getLast? = some x →
      (x.simpleValue ≠ none ∨ v.simple = none ∧ ∀ y ∈ xs, importedSimpleValue y = none) ∧
      (x.leaseToken ≠ 0 ∨ v.lease = 0 ∧ ∀ y ∈ xs, y.leaseToken = 0) := by
  rcases List.eq_nil_or_concat xs with rfl | ⟨ys, x, rfl⟩
  · simp
  have hsimple : (x.simpleValue = (importedSimpleValue x).or (ys.foldl absorb v).simple) ↔
      x.simpleValue ≠ none ∨ v.simple = none ∧ ∀ y ∈ ys ++ [x], importedSimpleValue y = none := by
    rcases hx : x.simpleValue with _ | w
    · have h1 := foldl_absorb_simple ys v
      simp only [ne_eq, not_true_eq_false, false_or, List.forall_mem_append,
        List.forall_mem_singleton]
      rw [eq_comm, Option.or_eq_none_iff, h1]
      tauto
    · simp [importedSimpleValue, hx]
  have hlease : (x.leaseToken = if x.leaseToken = 0 then (ys.foldl absorb v).lease
      else x.leaseToken) ↔
      x.leaseToken ≠ 0 ∨ v.lease = 0 ∧ ∀ y ∈ ys ++ [x], y.leaseToken = 0 := by
    have h1 := foldl_absorb_lease ys v
    simp only [List.forall_mem_append, List.forall_mem_singleton]
    split_ifs with h0
    · rw [h0, eq_comm, h1]
      tauto
    · tauto
  have hchildren : (ys.foldl MemoryKV.merge v).children.insertMany x.prefixChildren =
      (ys.foldl absorb v).children.insertMany x.prefixChildren := by
    rw [foldl_children ys rfl]
  simp only [List.foldl_append, List.foldl_cons, List.foldl_nil, MemoryKV.merge, absorb,
    KvValue.mk.injEq, hsimple, hlease, hchildren, List.concat_eq_append, List.getLast?_concat,
    Option.some.injEq, and_true]
  constructor
  · rintro h _ rfl
    exact h
  · intro h
    exact h x rfl

/-- An import into stores that hold the same leaves them so exactly if, for every key, its last
transfer has a simple value or neither the store nor any transfer of the key brings one, and the
same for the lease token. -/
theorem import_agrees_iff (hhash : ∀ k, hashFn k < 2 ^ 64) (s : SqliteKV hashFn)
    (h : ObservablyEqual m s.tables) (keys : List Bytes) (values : List KVTransfer)
    (hlen : keys.length = values.length) (htok : ∀ x ∈ values, x.leaseToken < 2 ^ 64) :
    ObservablyEqual (MemoryKV.importKeys keys values m)
        (s.tables.importKeys hashFn false keys (values.map some)).2 ↔
      ∀ k x, (received k keys values).getLast? = some x →
        (x.simpleValue ≠ none ∨
          m.get k = none ∧ ∀ y ∈ received k keys values, importedSimpleValue y = none) ∧
        (x.leaseToken ≠ 0 ∨
          (m.exportOne k).leaseToken = 0 ∧ ∀ y ∈ received k keys values, y.leaseToken = 0) := by
  obtain ⟨t', ht', hex, htokens, hval⟩ :=
    Tables.importKeys_spec hhash s.exact s.tokens hlen htok
  rw [observablyEqual_iff] at h
  rw [ht', observablyEqual_iff ⟨t', hex, htokens⟩]
  refine forall_congr' fun k => ?_
  change _ = t'.val k ↔ _
  rw [MemoryKV.val_importKeys_received, hval, ← SqliteKV.val, ← h, foldl_merge_eq_absorb_iff,
    m.get_eq, m.exportOne_eq]
  rfl

/-- Into empty stores, a transfer with a value, a child and a token. -/
theorem import_agrees_iff_full_transfer :
    ObservablyEqual
      (MemoryKV.importKeys [[1]] [⟨some [2], [[3]], 5⟩] (.withHashFn fun _ => 7))
      ((SqliteKV.withHashFn fun _ => 7).tables.importKeys (fun _ => 7) false [[1]]
        ([⟨some [2], [[3]], 5⟩].map some)).2 := by
  refine (import_agrees_iff (fun _ => by decide) (SqliteKV.withHashFn fun _ => 7)
    ((observablyEqual_iff _).2 alike_empty.val) [[1]] [⟨some [2], [[3]], 5⟩] rfl
    (by simp)).2 fun k x hx => ?_
  simp only [received] at hx
  split_ifs at hx
  · cases hx
    simp
  · simp at hx

/-- Both stores hold the value `[2]` under the key `[1]`; a transfer of a child for that key erases
the value in memory, and the tables keep it. -/
theorem import_erases_value_in_memory :
    let m := ((MemoryKV.withHashFn fun _ => 7).handle (.put [1] (some [2]))).2
    let s := ((SqliteKV.withHashFn fun _ => 7).handle false (.put [1] (some [2]))).2
    ObservablyEqual m s.tables ∧
      (MemoryKV.importKeys [[1]] [⟨none, [[3]], 0⟩] m).get [1] = none ∧
      (s.tables.importKeys (fun _ => 7) false [[1]] [some ⟨none, [[3]], 0⟩]).2.get [1] = some [2] ∧
      ¬ObservablyEqual (MemoryKV.importKeys [[1]] [⟨none, [[3]], 0⟩] m)
        (s.tables.importKeys (fun _ => 7) false [[1]] [some ⟨none, [[3]], 0⟩]).2 := by
  intro m s
  have halike : Alike m s := (alike_empty.handle (r := .put [1] (some [2])) (fun _ => by decide)
    (by simp [Request.Valid])).2
  have hmem : (MemoryKV.importKeys [[1]] [⟨none, [[3]], 0⟩] m).get [1] = none := by decide +kernel
  have htab : (s.tables.importKeys (fun _ => 7) false [[1]] [some ⟨none, [[3]], 0⟩]).2.get [1] =
      some [2] := by decide +kernel
  refine ⟨(observablyEqual_iff s).2 halike.val, hmem, htab, fun h => ?_⟩
  have := h.simple [1]
  rw [hmem, htab] at this
  cases this

end imports

end Specter
