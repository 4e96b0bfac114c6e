import Specter.Memory

/-!
# The in-memory provider is a map

Two lemmas say what storing and deleting a row do to the rows (`lookupVal_storeVal`,
`lookupVal_deleteAll`); everything else about `MemoryKV` follows from them.
-/

namespace Specter

variable {v : KvValue}

namespace KvValue

theorem isDeleted_iff : v.isDeleted = true ↔ v = newValue := by
  obtain ⟨simple, lease, children⟩ := v
  simp only [isDeleted, newValue, Bool.and_eq_true, Option.isNone_iff_eq_none, beq_iff_eq,
    ← Std.ExtTreeSet.eq_empty_iff_size_eq_zero, KvValue.mk.injEq]
  tauto

theorem isDeleted_eq_false : v.isDeleted = false ↔ v ≠ newValue := by
  rw [ne_eq, ← isDeleted_iff, Bool.not_eq_true]

end KvValue

/-- The transfers of one key. -/
def received (k : Bytes) : List Bytes → List KVTransfer → List KVTransfer
  | key :: keys, x :: values =>
    if key = k then x :: received k keys values else received k keys values
  | _, _ => []

theorem received_map (k : Bytes) (f : Bytes → KVTransfer) (keys : List Bytes) :
    received k keys (keys.map f) = List.replicate (keys.count k) (f k) := by
  induction keys with
  | nil => rfl
  | cons key keys ih =>
    rw [List.map_cons, received, ih]
    split_ifs with hk
    · rw [hk, List.count_cons_self, List.replicate_succ]
    · rw [List.count_cons_of_ne hk]

/-- What was exported is taken over where there is nothing, however often it is sent. -/
theorem foldl_received {f : KvValue → KVTransfer → KvValue} {src : Bytes → KvValue}
    {keys : List Bytes} {k : Bytes} {w₀ : KvValue} (h₀ : k ∈ keys → w₀ = .newValue)
    (h : k ∈ keys → ∀ w, w = .newValue ∨ w = src k → f w (src k).transfer = src k) :
    (received k keys (keys.map fun k => (src k).transfer)).foldl f w₀ =
      if k ∈ keys then src k else w₀ := by
  rw [received_map]
  split_ifs with hk
  · have hfold : ∀ n w, w = .newValue ∨ w = src k →
        (List.replicate (n + 1) (src k).transfer).foldl f w = src k := by
      intro n
      induction n with
      | zero => exact h hk
      | succ n ih =>
        intro w hw
        rw [List.replicate_succ, List.foldl_cons, h hk w hw]
        exact ih _ (.inr rfl)
    obtain ⟨n, hn⟩ := Nat.exists_eq_succ_of_ne_zero (mt List.count_eq_zero.1 (not_not.2 hk))
    rw [hn]
    exact hfold n w₀ (.inl (h₀ hk))
  · rw [List.count_eq_zero.2 hk]
    rfl

namespace MemoryKV

variable {hashFn : Bytes → ℕ} (m : MemoryKV hashFn) (key : Bytes) {k : Bytes} (keys : List Bytes)
  {c : KeyComposite}

theorem lookupVal_eq : m.lookupVal key = (m.bucket (hashFn key))[key]? := by
  unfold lookupVal bucket
  rcases m.s[hashFn key]? with _ | kMap <;> simp

theorem bucket_storeVal (v : KvValue) (p : ℕ) :
    (m.storeVal key v).bucket p =
      if hashFn key = p then (m.bucket p).insert key v else m.bucket p := by
  unfold bucket storeVal
  rw [Std.ExtTreeMap.getElem?_insert]
  by_cases hp : hashFn key = p
  · simp [hp, bucket]
  · rw [if_neg (by simpa using hp), if_neg hp]

theorem bucket_deleteAll (p : ℕ) :
    (m.deleteAll key).bucket p = if hashFn key = p then (m.bucket p).erase key else m.bucket p := by
  unfold bucket deleteAll
  by_cases hm : hashFn key ∈ m.s
  · simp only [if_pos hm]
    rw [Std.ExtTreeMap.getElem?_insert]
    by_cases hp : hashFn key = p
    · simp [hp, bucket]
    · rw [if_neg (by simpa using hp), if_neg hp]
  · simp only [if_neg hm]
    by_cases hp : hashFn key = p
    · subst hp
      simp [Std.ExtTreeMap.getElem?_eq_none hm]
    · rw [if_neg hp]

@[simp] theorem lookupVal_storeVal (key k : Bytes) (v : KvValue) :
    (m.storeVal key v).lookupVal k = if key = k then some v else m.lookupVal k := by
  rw [lookupVal_eq, bucket_storeVal, lookupVal_eq]
  by_cases hk : key = k
  · subst hk
    simp
  · rw [if_neg hk]
    split_ifs with hp
    · rw [Std.ExtTreeMap.getElem?_insert, if_neg (by simpa using hk)]
    · rfl

@[simp] theorem lookupVal_deleteAll (key k : Bytes) :
    (m.deleteAll key).lookupVal k = if key = k then none else m.lookupVal k := by
  rw [lookupVal_eq, bucket_deleteAll, lookupVal_eq]
  by_cases hk : key = k
  · subst hk
    simp
  · rw [if_neg hk]
    split_ifs with hp
    · rw [Std.ExtTreeMap.getElem?_erase, if_neg (by simpa using hk)]
    · rfl

@[simp] theorem val_storeVal (key k : Bytes) (v : KvValue) :
    (m.storeVal key v).val k = if key = k then v else m.val k := by
  unfold val
  rw [lookupVal_storeVal]
  split_ifs <;> rfl

@[simp] theorem val_deleteAll (key k : Bytes) :
    (m.deleteAll key).val k = if key = k then .newValue else m.val k := by
  unfold val
  rw [lookupVal_deleteAll]
  split_ifs <;> rfl

@[simp] theorem val_withHashFn (k : Bytes) : (withHashFn hashFn).val k = .newValue := by
  simp [val, lookupVal, withHashFn]

@[simp] theorem fetchVal_fst : (m.fetchVal key).1 = m.val key := by
  unfold fetchVal val
  rcases m.lookupVal key with _ | v <;> rfl

@[simp] theorem val_fetchVal_snd (key k : Bytes) : (m.fetchVal key).2.val k = m.val k := by
  unfold fetchVal
  rcases h : m.lookupVal key with _ | v
  · simp only [val_storeVal]
    split_ifs with hk
    · subst hk
      simp [val, h]
    · rfl
  · rfl

theorem get_eq : m.get key = (m.val key).simple := by
  unfold get val
  rcases m.lookupVal key with _ | v <;> rfl

theorem prefixList_eq : m.prefixList key = (m.val key).children.toList := by
  unfold prefixList val
  rcases m.lookupVal key with _ | v
  · simp [KvValue.newValue]
  · rfl

theorem prefixContains_eq (key child : Bytes) :
    m.prefixContains key child = (m.val key).children.contains child := by
  unfold prefixContains val
  rcases m.lookupVal key with _ | v
  · simp [KvValue.newValue]
  · rfl

theorem val_put (value : Option Bytes) (k : Bytes) :
    (m.put key value).val k = if key = k then { m.val key with simple := value } else m.val k := by
  simp [put]

theorem val_delete (key k : Bytes) :
    (m.delete key).val k = if key = k then { m.val key with simple := none } else m.val k := by
  simp [delete]

theorem val_prefixRemove (key needle k : Bytes) :
    (m.prefixRemove key needle).val k =
      if key = k then { m.val key with children := (m.val key).children.erase needle }
      else m.val k := by
  simp [prefixRemove]

theorem prefixAppend_of_mem {key child : Bytes} (h : child ∈ (m.val key).children) :
    m.prefixAppend key child = (.error .kvPrefixConflict, m) := by
  have hm : (m.fetchVal key).2 = m := by
    unfold val at h
    unfold fetchVal
    rcases hl : m.lookupVal key with _ | v
    · simp [hl, KvValue.newValue] at h
    · rfl
  unfold prefixAppend
  simp [h, hm]

theorem prefixAppend_of_notMem {key child : Bytes} (h : child ∉ (m.val key).children) :
    (m.prefixAppend key child).1 = .ok () ∧ ∀ k, (m.prefixAppend key child).2.val k =
      if key = k then { m.val key with children := (m.val key).children.insert child }
      else m.val k := by
  unfold prefixAppend
  simp [h]

theorem exportOne_eq : m.exportOne key = (m.val key).transfer := by
  unfold exportOne KvValue.transfer
  rw [prefixList_eq]
  unfold val
  rcases m.lookupVal key with _ | v
  · simp [KvValue.newValue]
  · rfl

theorem exportKeys_eq : m.exportKeys keys = keys.map fun k => (m.val k).transfer :=
  List.map_congr_left fun k _ => m.exportOne_eq k

theorem lookupVal_of_row {p : ℕ} {kMap : Std.ExtTreeMap Bytes KvValue compare}
    (hs : (p, kMap) ∈ m.s.toList) (hkv : (k, v) ∈ kMap.toList) :
    hashFn k = p ∧ m.lookupVal k = some v := by
  have hs := Std.ExtTreeMap.mem_toList_iff_getElem?_eq_some.1 hs
  have hget := Std.ExtTreeMap.mem_toList_iff_getElem?_eq_some.1 hkv
  have hid : hashFn k = p :=
    m.hashed p kMap hs k (by rw [Std.ExtTreeMap.mem_iff_isSome_getElem?, hget]; rfl)
  subst hid
  exact ⟨rfl, by simp [lookupVal, hs, hget]⟩

theorem row_of_lookupVal (h : m.lookupVal k = some v) :
    ∃ kMap, (hashFn k, kMap) ∈ m.s.toList ∧ (k, v) ∈ kMap.toList := by
  unfold lookupVal at h
  rcases hs : m.s[hashFn k]? with _ | kMap
  · simp [hs] at h
  · simp only [hs] at h
    exact ⟨kMap, Std.ExtTreeMap.mem_toList_iff_getElem?_eq_some.2 hs,
      Std.ExtTreeMap.mem_toList_iff_getElem?_eq_some.2 h⟩

theorem lookupVal_of_val_ne (h : m.val k ≠ .newValue) : m.lookupVal k = some (m.val k) := by
  unfold val at h ⊢
  rcases hl : m.lookupVal k with _ | v
  · simp [hl] at h
  · rfl

theorem mem_rangeKeys {low high : ℕ} :
    k ∈ m.rangeKeys low high ↔ between low (hashFn k) high true = true ∧ m.val k ≠ .newValue := by
  unfold rangeKeys
  rw [List.mem_flatMap]
  constructor
  · rintro ⟨⟨id, kMap⟩, hmem, hk⟩
    simp only at hk
    split_ifs at hk with hb
    · obtain ⟨⟨k', v⟩, hkv, rfl⟩ := List.mem_map.1 hk
      obtain ⟨hkv, hv⟩ := List.mem_filter.1 hkv
      obtain ⟨rfl, hl⟩ := m.lookupVal_of_row hmem hkv
      rw [val, hl]
      exact ⟨hb, KvValue.isDeleted_eq_false.1 (by simpa using hv)⟩
    · simp at hk
  · rintro ⟨hb, hv⟩
    obtain ⟨kMap, hs, hkv⟩ := m.row_of_lookupVal (m.lookupVal_of_val_ne hv)
    refine ⟨(hashFn k, kMap), hs, ?_⟩
    simp only [hb, if_true]
    refine List.mem_map.2 ⟨(k, m.val k), List.mem_filter.2 ⟨hkv, ?_⟩, rfl⟩
    simpa using KvValue.isDeleted_eq_false.2 hv

theorem mem_composites {key : Bytes} :
    c ∈ composites key v ↔ c.key = key ∧
      match c.type with
      | .simple => v.simple.isSome
      | .prefixed => v.children ≠ ∅
      | .lease => v.lease ≠ 0 := by
  obtain ⟨k, type⟩ := c
  have hsize : 0 < v.children.size ↔ v.children ≠ ∅ := by
    rw [Nat.pos_iff_ne_zero, ne_eq, ne_eq, Std.ExtTreeSet.eq_empty_iff_size_eq_zero]
  cases type <;> simp [composites, hsize] <;> grind

theorem mem_listKeys {pfx : Bytes} :
    c ∈ m.listKeys pfx ↔ pfx.isPrefixOf c.key = true ∧ c ∈ composites c.key (m.val c.key) := by
  unfold listKeys
  simp only [List.mem_flatMap]
  constructor
  · rintro ⟨⟨id, kMap⟩, hmem, ⟨k, v⟩, hkv, hc⟩
    simp only at hc
    split_ifs at hc with hp
    · obtain ⟨-, hl⟩ := m.lookupVal_of_row hmem hkv
      obtain rfl := (mem_composites.1 hc).1
      rw [val, hl]
      exact ⟨hp, hc⟩
    · simp at hc
  · rintro ⟨hp, hc⟩
    have hv : m.val c.key ≠ .newValue := fun hv => by
      rw [hv] at hc
      simp [composites, KvValue.newValue] at hc
    obtain ⟨kMap, hs, hkv⟩ := m.row_of_lookupVal (m.lookupVal_of_val_ne hv)
    exact ⟨(hashFn c.key, kMap), hs, (c.key, m.val c.key), hkv,
      by simp only [hp, if_true]; exact hc⟩

theorem val_removeKeys (k : Bytes) :
    (m.removeKeys keys).val k = if k ∈ keys then .newValue else m.val k := by
  unfold removeKeys
  induction keys generalizing m with
  | nil => simp
  | cons key keys ih =>
    rw [List.foldl_cons, ih, val_deleteAll]
    by_cases h1 : k ∈ keys
    · simp [h1]
    · by_cases h2 : key = k
      · simp [h2]
      · simp [h1, h2, Ne.symm h2]

def merge (v : KvValue) (x : KVTransfer) : KvValue where
  simple := x.simpleValue
  lease := x.leaseToken
  children := v.children.insertMany x.prefixChildren

theorem val_importOne (x : KVTransfer) (k : Bytes) :
    (m.importOne key x).val k = if key = k then merge (m.val key) x else m.val k := by
  simp [importOne, merge]

theorem mem_insertMany {c : Std.ExtTreeSet Bytes} {l : List Bytes} {b : Bytes} :
    b ∈ c.insertMany l ↔ b ∈ c ∨ b ∈ l := by
  rw [Std.ExtTreeSet.mem_insertMany_list, List.contains_iff_mem]

theorem children_transfer {w : KvValue} (hw : w = .newValue ∨ w = v) :
    w.children.insertMany v.transfer.prefixChildren = v.children := by
  refine Std.ExtTreeSet.ext_mem fun b => ?_
  rw [mem_insertMany]
  rcases hw with rfl | rfl <;> simp [KvValue.transfer, KvValue.newValue]

theorem merge_transfer {w : KvValue} (hw : w = .newValue ∨ w = v) : merge w v.transfer = v := by
  rw [merge, children_transfer hw]
  rfl

theorem val_importKeys_received (k : Bytes) :
    ∀ (keys : List Bytes) (values : List KVTransfer) (m : MemoryKV hashFn),
      (importKeys keys values m).val k = (received k keys values).foldl merge (m.val k)
  | key :: keys, x :: values, m => by
    rw [importKeys, val_importKeys_received k keys values, val_importOne, received]
    split_ifs with hk
    · rw [hk, List.foldl_cons]
    · rfl
  | [], _, _ => by simp [importKeys, received]
  | _ :: _, [], _ => by simp [importKeys, received]

theorem val_of_same {m' : MemoryKV hashFn} (h : ∀ k, m'.val k = m.val k) (key k : Bytes) :
    m'.val k = if key = k then m.val key else m.val k := by
  rw [h]
  split_ifs with hk
  · rw [hk]
  · rfl

theorem acquire_spec (ttl now : ℤ) :
    (m.acquire key ttl now).1 = ((m.val key).acquire ttl now).1 ∧
      ∀ k, (m.acquire key ttl now).2.val k =
        if key = k then ((m.val key).acquire ttl now).2 else m.val k := by
  unfold acquire KvValue.acquire
  rcases hd : durationGuard ttl with _ | td
  · exact ⟨rfl, m.val_of_same (fun _ => rfl) key⟩
  simp only [fetchVal_fst]
  rcases hn : nextToken now td 0 with e | next
  · exact ⟨rfl, m.val_of_same (m.val_fetchVal_snd key) key⟩
  simp only
  split_ifs with hc
  · exact ⟨rfl, m.val_of_same (m.val_fetchVal_snd key) key⟩
  · exact ⟨rfl, fun k => by simp⟩

theorem renew_spec (ttl now : ℤ) (prevToken : ℕ) :
    (m.renew key ttl now prevToken).1 = ((m.val key).renew ttl now prevToken).1 ∧
      ∀ k, (m.renew key ttl now prevToken).2.val k =
        if key = k then ((m.val key).renew ttl now prevToken).2 else m.val k := by
  unfold renew KvValue.renew
  rcases hd : durationGuard ttl with _ | td
  · exact ⟨rfl, m.val_of_same (fun _ => rfl) key⟩
  simp only [fetchVal_fst]
  rcases hn : nextToken now td prevToken with e | next
  · exact ⟨rfl, m.val_of_same (m.val_fetchVal_snd key) key⟩
  simp only
  split_ifs
  · exact ⟨rfl, m.val_of_same (m.val_fetchVal_snd key) key⟩
  · exact ⟨rfl, m.val_of_same (m.val_fetchVal_snd key) key⟩
  · exact ⟨rfl, m.val_of_same (m.val_fetchVal_snd key) key⟩
  · exact ⟨rfl, fun k => by simp⟩

theorem release_spec (token : ℕ) :
    (m.release key token).1 = ((m.val key).release token).1 ∧
      ∀ k, (m.release key token).2.val k =
        if key = k then ((m.val key).release token).2 else m.val k := by
  unfold release KvValue.release
  simp only [fetchVal_fst]
  split_ifs
  · exact ⟨rfl, fun k => by simp⟩
  · exact ⟨rfl, m.val_of_same (m.val_fetchVal_snd key) key⟩

theorem prefixAppend_spec (key child : Bytes) :
    (m.handle (.prefixAppend key child)).1 = ((m.val key).handle (.prefixAppend key child)).1 ∧
      ∀ k, (m.handle (.prefixAppend key child)).2.val k =
        if key = k then ((m.val key).handle (.prefixAppend key child)).2 else m.val k := by
  simp only [handle, KvValue.handle]
  by_cases h : child ∈ (m.val key).children
  · rw [prefixAppend_of_mem m h]
    simp only [h, if_true]
    exact ⟨rfl, m.val_of_same (fun _ => rfl) key⟩
  · obtain ⟨h1, h2⟩ := prefixAppend_of_notMem m h
    simp only [h, if_false, h1]
    exact ⟨rfl, h2⟩

theorem handle_spec (r : Request) :
    (m.handle r).1 = ((m.val r.key).handle r).1 ∧
      ∀ k, (m.handle r).2.val k = if r.key = k then ((m.val r.key).handle r).2 else m.val k := by
  cases r with
  | put key value => exact ⟨rfl, m.val_put key value⟩
  | get key =>
    exact ⟨by simp [handle, KvValue.handle, get_eq, Request.key], m.val_of_same (fun _ => rfl) key⟩
  | delete key => exact ⟨rfl, m.val_delete key⟩
  | prefixAppend key child => exact m.prefixAppend_spec key child
  | prefixList key =>
    exact ⟨by simp [handle, KvValue.handle, prefixList_eq, Request.key],
      m.val_of_same (fun _ => rfl) key⟩
  | prefixContains key child =>
    exact ⟨by simp [handle, KvValue.handle, prefixContains_eq, Request.key],
      m.val_of_same (fun _ => rfl) key⟩
  | prefixRemove key child => exact ⟨rfl, m.val_prefixRemove key child⟩
  | acquire key ttl now => exact m.acquire_spec key ttl now
  | renew key ttl now prevToken => exact m.renew_spec key ttl now prevToken
  | release key token => exact m.release_spec key token

instance : LawfulProvider (MemoryKV hashFn) hashFn where
  val_empty := val_withHashFn
  handle_fst r m := (m.handle_spec r).1
  handle_key r m := by
    have := (m.handle_spec r).2 r.key
    rwa [if_pos rfl] at this
  handle_ne r m k hk := by
    have := (m.handle_spec r).2 k
    rwa [if_neg (Ne.symm hk)] at this
  rangeKeys low high m := by
    refine ⟨m.rangeKeys low high, rfl, fun k => ?_⟩
    rw [mem_rangeKeys, KvValue.isDeleted_eq_false]
    rfl
  exportKeys keys m := congrArg Except.ok (m.exportKeys_eq keys)
  importKeys keys m m' hdel := by
    refine ⟨rfl, fun k => (val_importKeys_received k keys _ m).trans ?_⟩
    exact foldl_received (fun hk => KvValue.isDeleted_iff.1 (hdel k hk))
      fun _ _ hw => merge_transfer hw
  removeKeys keys m := ⟨rfl, m.val_removeKeys keys⟩

end MemoryKV

end Specter
