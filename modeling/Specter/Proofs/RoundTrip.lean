import Specter.Proofs.Providers
import Specter.Proofs.Wire

/-!
# Keys survive a transfer

A range of keys is exported, sent as an `ImportRequest` and imported into an empty store of either
provider.  What arrives is what was live in the range: a key with nothing in it, which the tables
would read as an empty value, is not sent.
-/

namespace Specter

open Tables (absorb importedSimpleValue)

variable {v : KvValue}

inductive Store (hashFn : Bytes → ℕ) where
  | memory (m : MemoryKV hashFn)
  | sqlite (t : Tables)

namespace Store

variable {hashFn : Bytes → ℕ} {s : Store hashFn} {k : Bytes}

def rangeKeys (low high : ℕ) : Store hashFn → List Bytes
  | .memory m => m.rangeKeys low high
  | .sqlite t => t.rangeKeys low high

def exportKeys (keys : List Bytes) : Store hashFn → List KVTransfer
  | .memory m => m.exportKeys keys
  | .sqlite t => t.exportKeys keys

def importKeys (keys : List Bytes) (values : List KVTransfer) :
    Store hashFn → Except ChordError Unit × Store hashFn
  | .memory m => (.ok (), .memory (.importKeys keys values m))
  | .sqlite t =>
    let (res, t) := t.importKeys hashFn false keys (values.map some)
    (res, .sqlite t)

def handle (r : Request) : Store hashFn → Except ChordError Reply × Store hashFn
  | .memory m => ((m.handle r).1, .memory (m.handle r).2)
  | .sqlite t => ((t.handle hashFn false r).1, .sqlite (t.handle hashFn false r).2)

def removeKeys (keys : List Bytes) : Store hashFn → Except ChordError Unit × Store hashFn
  | .memory m => (.ok (), .memory (m.removeKeys keys))
  | .sqlite t => ((t.removeKeys false keys).1, .sqlite (t.removeKeys false keys).2)

def val (k : Bytes) : Store hashFn → KvValue
  | .memory m => m.val k
  | .sqlite t => t.val k

instance : KVProvider (Store hashFn) where
  empty := .memory (.withHashFn hashFn)
  val s k := s.val k
  handle := handle
  importKeys := importKeys
  exportKeys keys s := .ok (s.exportKeys keys)
  rangeKeys low high s := .ok (s.rangeKeys low high)
  removeKeys := removeKeys

/-- What the store makes of a row that is sent to it. -/
def merge : Store hashFn → KvValue → KVTransfer → KvValue
  | .memory _ => MemoryKV.merge
  | .sqlite _ => absorb

/-- A key that a range over the whole circle finds. -/
def Live (s : Store hashFn) (k : Bytes) : Prop := k ∈ s.rangeKeys 0 0

def Sound : Store hashFn → Prop
  | .memory _ => True
  | .sqlite t => t.Exact hashFn ∧ t.TokensValid

def transferOf (s : Store hashFn) (low high : ℕ) : ImportRequest :=
  ⟨s.rangeKeys low high, s.exportKeys (s.rangeKeys low high)⟩

theorem mem_rangeKeys (hs : s.Sound) (hhash : ∀ k, hashFn k < maxIdentifier) {low high : ℕ}
    (hlow : low < maxIdentifier) (hhigh : high < maxIdentifier) :
    k ∈ s.rangeKeys low high ↔ between low (hashFn k) high true = true ∧ s.val k ≠ .newValue := by
  have hmax : ∀ {p : ℕ}, p < maxIdentifier → p < 2 ^ 63 := fun h => Nat.lt_trans h (by decide)
  cases s with
  | memory m => exact m.mem_rangeKeys
  | sqlite t => exact Tables.mem_rangeKeys hs.1 hs.2 (hmax hlow) (hmax hhigh) (hmax (hhash k))

theorem live_iff (hs : s.Sound) (hhash : ∀ k, hashFn k < maxIdentifier) :
    s.Live k ↔ s.val k ≠ .newValue := by
  have hall : between 0 (hashFn k) 0 true = true := by
    simp only [between]
    simp
    omega
  rw [Live, mem_rangeKeys hs hhash (by decide) (by decide), hall]
  tauto

theorem exportKeys_eq (s : Store hashFn) (keys : List Bytes) :
    s.exportKeys keys = keys.map fun k => (s.val k).transfer := by
  cases s with
  | memory m => exact m.exportKeys_eq keys
  | sqlite t => rfl

end Store

theorem importedSimpleValue_transfer (hv : v ≠ .newValue) :
    importedSimpleValue v.transfer = v.simple := by
  obtain ⟨simple, lease, children⟩ := v
  unfold importedSimpleValue KvValue.transfer
  rcases simple with _ | value
  · simp only
    rw [if_neg]
    rintro ⟨hc, hl⟩
    refine hv ?_
    rw [List.length_eq_zero_iff, Std.ExtTreeSet.toList_eq_nil_iff] at hc
    rw [hc, hl]
    rfl
  · rfl

namespace Store

variable {hashFn : Bytes → ℕ} (s : Store hashFn)

theorem merge_transfer (s : Store hashFn) {w : KvValue} (hv : v ≠ .newValue)
    (hw : w = .newValue ∨ w = v) : s.merge w v.transfer = v := by
  cases s with
  | memory m => exact MemoryKV.merge_transfer hw
  | sqlite t =>
    have hlease : (if v.lease = 0 then w.lease else v.lease) = v.lease := by
      rcases hw with rfl | rfl <;> split_ifs with h0 <;> simp [KvValue.newValue, h0]
    have hsimple : v.simple.or w.simple = v.simple := by
      rcases hw with rfl | rfl <;> simp [KvValue.newValue]
    simp only [merge, absorb, importedSimpleValue_transfer hv, hsimple,
      MemoryKV.children_transfer hw]
    rw [show v.transfer.leaseToken = v.lease from rfl, hlease]

theorem importKeys_spec (hhash : ∀ k, hashFn k < maxIdentifier) {s : Store hashFn} (hs : s.Sound)
    {keys : List Bytes} {values : List KVTransfer} (hlen : keys.length = values.length)
    (htok : ∀ x ∈ values, x.leaseToken < 2 ^ 64) :
    ∃ s', s.importKeys keys values = (.ok (), s') ∧ s'.Sound ∧ s'.merge = s.merge ∧
      ∀ k, s'.val k = (received k keys values).foldl s.merge (s.val k) := by
  cases s with
  | memory m =>
    exact ⟨_, rfl, trivial, rfl, fun k => MemoryKV.val_importKeys_received k keys values m⟩
  | sqlite t =>
    obtain ⟨t', ht', hex, htokens, hval⟩ := Tables.importKeys_spec
      (fun k => Nat.lt_trans (hhash k) (by decide)) hs.1 hs.2 hlen htok
    exact ⟨.sqlite t', by simp only [importKeys, ht'], ⟨hex, htokens⟩, rfl, hval⟩

theorem val_sqlite_empty (k : Bytes) : (sqlite .empty : Store hashFn).val k = .newValue := by
  simp [val, Tables.val, Tables.empty, Tables.children, scanInt64AsUint64, KvValue.newValue]

theorem importKeys_fresh (hhash : ∀ k, hashFn k < maxIdentifier) {dest : Store hashFn}
    (hdest : dest = .memory (.withHashFn hashFn) ∨ dest = .sqlite .empty) (src : Bytes → KvValue)
    (keys : List Bytes) (hlive : ∀ k ∈ keys, src k ≠ .newValue)
    (htok : ∀ k ∈ keys, (src k).lease < 2 ^ 64) :
    ∃ dest', dest.importKeys keys (keys.map fun k => (src k).transfer) = (.ok (), dest') ∧
      dest'.Sound ∧ ∀ k, dest'.val k = if k ∈ keys then src k else .newValue := by
  have hfresh : dest.Sound ∧ ∀ k, dest.val k = .newValue := by
    rcases hdest with rfl | rfl
    · exact ⟨trivial, MemoryKV.val_withHashFn⟩
    · exact ⟨⟨Tables.exact_empty, Tables.tokensValid_empty⟩, val_sqlite_empty⟩
  obtain ⟨dest', himport, hsound, -, hval⟩ := importKeys_spec hhash hfresh.1
    (List.length_map (fun k => (src k).transfer)).symm fun x hx => by
      obtain ⟨k, hk, rfl⟩ := List.mem_map.1 hx
      exact htok k hk
  refine ⟨dest', himport, hsound, fun k => ?_⟩
  rw [hval, hfresh.2]
  exact foldl_received (fun _ => rfl) fun hk _ hw => dest.merge_transfer (hlive k hk) hw

end Store

/-- A range of keys that is exported, sent and imported into an empty store arrives as it was. -/
theorem transfer_round_trip {hashFn : Bytes → ℕ} (hhash : ∀ k, hashFn k < maxIdentifier)
    (source dest : Store hashFn) (hsource : source.Sound)
    (hdest : dest = .memory (.withHashFn hashFn) ∨ dest = .sqlite .empty) (low high : ℕ)
    (hlow : low < maxIdentifier) (hhigh : high < maxIdentifier)
    (hfits : (source.transferOf low high).Fits) :
    ∃ request dest',
      ImportRequest.unmarshalVT (source.transferOf low high).marshalVT = some request ∧
      dest.importKeys request.keys request.values = (.ok (), dest') ∧
      (∀ k, dest'.Live k ↔ source.Live k ∧
        (low = high ∨ low < high ∧ low < hashFn k ∧ hashFn k ≤ high ∨
          high < low ∧ (low < hashFn k ∨ hashFn k ≤ high))) ∧
      ∀ k, dest'.Live k → dest'.val k = source.val k := by
  have hmem : ∀ k, k ∈ source.rangeKeys low high ↔ _ := fun k =>
    Store.mem_rangeKeys hsource hhash hlow hhigh
  have htok : ∀ k ∈ source.rangeKeys low high, (source.val k).lease < 2 ^ 64 := fun k hk => by
    refine (hfits.values (source.val k).transfer ?_).1.lease
    rw [Store.transferOf, Store.exportKeys_eq]
    exact List.mem_map_of_mem hk
  obtain ⟨dest', himport, hsound, hval⟩ := Store.importKeys_fresh hhash hdest
    (fun k => source.val k) (source.rangeKeys low high) (fun k hk => ((hmem k).1 hk).2) htok
  refine ⟨_, dest', ImportRequest.unmarshalVT_marshalVT hfits, ?_, fun k => ?_, fun k hk => ?_⟩
  · simp only [Store.transferOf, Store.exportKeys_eq]
    exact himport
  · have hbetween : between low (hashFn k) high true = true ↔
        low = high ∨ low < high ∧ low < hashFn k ∧ hashFn k ≤ high ∨
          high < low ∧ (low < hashFn k ∨ hashFn k ≤ high) := by
      simp only [between]
      split_ifs <;> simp <;> omega
    rw [Store.live_iff hsound hhash, Store.live_iff hsource hhash, hval, ← hbetween]
    by_cases hk : k ∈ source.rangeKeys low high
    · rw [if_pos hk]
      have := (hmem k).1 hk
      tauto
    · rw [if_neg hk]
      have := (hmem k).not.1 hk
      tauto
  · rw [Store.live_iff hsound hhash, hval] at hk
    rw [hval]
    split_ifs at hk ⊢ with h
    · rfl
    · exact absurd rfl hk

def emptyValueStore : Store fun _ => 7 :=
  .memory (.importKeys [[1]] [⟨some [], [[3]], 9⟩] (.withHashFn _))

theorem transfer_round_trip_empty_value :
    ∃ request dest',
      ImportRequest.unmarshalVT (emptyValueStore.transferOf 3 3).marshalVT = some request ∧
      (Store.sqlite .empty : Store fun _ => 7).importKeys request.keys request.values =
        (.ok (), dest') := by
  have hsent : emptyValueStore.transferOf 3 3 = ⟨[[1]], [⟨some [], [[3]], 9⟩]⟩ := by
    decide +kernel
  obtain ⟨request, dest', h1, h2, -⟩ := transfer_round_trip (fun _ => by decide) emptyValueStore
    (.sqlite .empty) trivial (.inr rfl) 3 3 (by decide) (by decide) (by
      rw [hsent]
      refine ⟨by simp, fun x hx => ?_⟩
      obtain rfl := List.mem_singleton.1 hx
      refine ⟨⟨by simp, by simp, by simp⟩, ?_⟩
      simp [KVTransfer.marshalVT, KVTransfer.fields, optionalBytes, repeatedBytes, uintField,
        Protobuf.encodeFields, Protobuf.encodeField, Protobuf.encodePayload, Protobuf.wireType,
        Protobuf.encodeVarint])
  exact ⟨request, dest', h1, h2⟩

end Specter
