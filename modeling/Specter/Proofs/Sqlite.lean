import Specter.Proofs.Tracker
import Specter.Proofs.Memory
import Specter.Proofs.Kv

/-!
# The SQLite provider is a map

`Tables.val` puts together what the tables hold of a key, and this file says what every call does to
it, as long as the trackers are exact and no lease row has token 0 (`SqliteKV`).  A request does
what it does in memory (`handle_spec`), except that a nil value is stored as an empty one, and there
is no row to release with token 0.
-/

namespace Specter

/-- What a caller has to keep to: values are not nil, and a release names a token. -/
def Request.Valid : Request → Prop
  | .put _ value => value ≠ none
  | .release _ token => token ≠ 0 ∧ token < 2 ^ 64
  | _ => True

namespace Tables

variable {hashFn : Bytes → ℕ} {t t' u : Tables} {key : Bytes} {k : Bytes} {tok : ℤ} {α : Type}
  {fn : Tables → Except ChordError (α × Tables)} {e : ChordError} {reply : Reply} {v : KvValue}
  {f : Tables → Except ChordError (Reply × Tables)} (keys : List Bytes) {x : KVTransfer}

theorem SameContent.val_eq (h : SameContent t t') (k : Bytes) : t'.val k = t.val k := by
  unfold val Tables.children
  rw [h.simple, h.children, h.lease]

theorem val_querySimplePut (v k : Bytes) : (t.querySimplePut key v).val k =
    if key = k then { t.val k with simple := some v } else t.val k := by
  simp only [val, querySimplePut, children, Std.ExtTreeMap.getElem?_insert, Std.compare_eq_iff_eq]
  split_ifs <;> rfl

theorem val_querySimpleDel (k : Bytes) : (t.querySimpleDel key).val k =
    if key = k then { t.val k with simple := none } else t.val k := by
  simp only [val, querySimpleDel, children, Std.ExtTreeMap.getElem?_erase, Std.compare_eq_iff_eq]
  split_ifs <;> rfl

theorem val_setChildren (cs : Std.ExtTreeSet Bytes) (k : Bytes) : (t.setChildren key cs).val k =
    if key = k then { t.val k with children := cs } else t.val k := by
  unfold val
  rw [children_setChildren]
  split_ifs <;> rfl

theorem val_queryLeaseImport (tok : ℤ) (k : Bytes) : (t.queryLeaseImport key tok).val k =
    if key = k then { t.val k with lease := scanInt64AsUint64 tok } else t.val k := by
  simp only [val, queryLeaseImport, children, Std.ExtTreeMap.getElem?_insert, Std.compare_eq_iff_eq]
  split_ifs <;> rfl

theorem val_dropLease (k : Bytes) : val { t with leaseEntries := t.leaseEntries.erase key } k =
    if key = k then { t.val k with lease := 0 } else t.val k := by
  simp only [val, children, Std.ExtTreeMap.getElem?_erase, Std.compare_eq_iff_eq]
  split_ifs <;> rfl

/-- The lease rows are of leases that are held, with tokens of 64 bits. -/
def TokensValid (t : Tables) : Prop :=
  ∀ (k : Bytes) (tok : ℤ), t.leaseEntries[k]? = some tok → tok ≠ 0 ∧ -2 ^ 63 ≤ tok ∧ tok < 2 ^ 63

theorem tokensValid_empty : TokensValid empty := by
  intro k tok h
  simp [empty] at h

theorem TokensValid.queryLeaseImport (h : TokensValid t)
    (htok : tok ≠ 0 ∧ -2 ^ 63 ≤ tok ∧ tok < 2 ^ 63) : TokensValid (t.queryLeaseImport key tok) := by
  intro k tok' hk
  simp only [Tables.queryLeaseImport, Std.ExtTreeMap.getElem?_insert, Std.compare_eq_iff_eq] at hk
  split_ifs at hk
  · cases hk
    exact htok
  · exact h k tok' hk

theorem TokensValid.dropLease (h : TokensValid t) :
    TokensValid { t with leaseEntries := t.leaseEntries.erase key } := by
  intro k tok hk
  simp only [Std.ExtTreeMap.getElem?_erase, Std.compare_eq_iff_eq] at hk
  split_ifs at hk
  exact h k tok hk

theorem TokensValid.same (h : TokensValid t) (hs : SameContent t t') : TokensValid t' := by
  unfold TokensValid
  rw [hs.lease]
  exact h

theorem bind_next {now ttl : ℤ} {previous next : ℕ} (h : nextToken now ttl previous = .ok next) :
    bindUint64AsInt64 next = next := by
  rw [bindUint64AsInt64, toInt64, if_pos (nextToken_lt h).2]

theorem scan_nonneg {n : ℕ} (h : n < 2 ^ 64) : scanInt64AsUint64 (n : ℤ) = n := by
  unfold scanInt64AsUint64
  omega

theorem lease_row (ht : TokensValid t) (h : t.leaseEntries[key]? = some tok) :
    tok = toInt64 (t.val key).lease ∧ (t.val key).lease ≠ 0 ∧ (t.val key).lease < 2 ^ 64 := by
  obtain ⟨h1, h2, h3⟩ := ht key tok h
  simp only [val, h, Option.getD_some, scanInt64AsUint64, toInt64]
  split_ifs <;> omega

theorem lease_no_row (h : t.leaseEntries[key]? = none) : (t.val key).lease = 0 := by
  simp [val, h, scanInt64AsUint64]

theorem update_total (addFlags removeFlags : BitVec 8) (hex : Exact hashFn t)
    (hhash : hashFn key < 2 ^ 64) (hrows : u.keyTrackers = t.keyTrackers) :
    ∃ t', u.updateKeyTracker hashFn key addFlags removeFlags = .ok t' ∧ SameContent u t' := by
  have hrow : u.keyTrackers[key]? = trackerFor hashFn key (t.flagsOf key) := by
    rw [hrows]
    exact hex key
  obtain ⟨t', h⟩ := exists_updateKeyTracker hrow hhash
  exact ⟨t', h, updateKeyTracker_same h⟩

theorem withWriteTx_ok {a : α} (h : fn t = .ok (a, t')) : t.withWriteTx false fn = (.ok a, t') := by
  simp [withWriteTx, h]

theorem withWriteTx_throw (h : fn t = .error e) : t.withWriteTx false fn = (.error e, t) := by
  simp [withWriteTx, h]

/-- The call answers `res` and the key then holds `v`, as every other key what it held. -/
def Does (t : Tables) (key : Bytes) (res : Except ChordError Reply × KvValue)
    (out : Except ChordError Reply × Tables) : Prop :=
  out.1 = res.1 ∧ ∀ k, out.2.val k = if key = k then res.2 else t.val k

theorem does_nothing (t : Tables) (key : Bytes) (res : Except ChordError Reply) :
    Does t key (res, t.val key) (res, t) := by
  refine ⟨rfl, fun k => ?_⟩
  split_ifs with hk
  · rw [hk]
  · rfl

theorem does_update (addFlags removeFlags : BitVec 8) (hex : Exact hashFn t)
    (hhash : hashFn key < 2 ^ 64) (hrows : u.keyTrackers = t.keyTrackers)
    (hf : f t = do let t ← u.updateKeyTracker hashFn key addFlags removeFlags return (reply, t))
    (hval : ∀ k, u.val k = if key = k then v else t.val k) :
    Does t key (.ok reply, v) (t.withWriteTx false f) := by
  obtain ⟨t', hu, hsame⟩ := update_total addFlags removeFlags hex hhash hrows
  rw [hu] at hf
  rw [withWriteTx_ok hf]
  exact ⟨rfl, fun k => by rw [hsame.val_eq, hval]⟩

section

variable (hex : Exact hashFn t) (hhash : hashFn key < 2 ^ 64)

include hex hhash

theorem put_spec (value : Option Bytes) :
    Does t key ((t.val key).handle (.put key (some (bindBytesAsBlob value))))
      (t.put hashFn false key value) :=
  does_update simpleFlag 0 (u := t.querySimplePut key (bindBytesAsBlob value)) hex hhash rfl
    rfl fun k => by
      rw [val_querySimplePut]
      split_ifs with hk
      · rw [hk]
      · rfl

theorem delete_spec : Does t key ((t.val key).handle (.delete key)) (t.delete hashFn false key) :=
  does_update 0 simpleFlag (u := t.querySimpleDel key) hex hhash rfl rfl fun k => by
    rw [val_querySimpleDel]
    split_ifs with hk
    · rw [hk]
    · rfl

theorem prefixRemove_spec (child : Bytes) :
    Does t key ((t.val key).handle (.prefixRemove key child))
      (t.prefixRemove hashFn false key child) :=
  does_update 0 prefixFlag (u := t.queryPrefixRemove key child) hex hhash rfl rfl fun k => by
    rw [queryPrefixRemove, val_setChildren]
    split_ifs with hk
    · rw [hk]
      rfl
    · rfl

end

theorem does_affected (addFlags removeFlags : BitVec 8) {q : ℕ × Tables} {p : Prop} [Decidable p]
    (hex : Exact hashFn t) (hhash : hashFn key < 2 ^ 64) (hf : f t = do
      if q.1 = 0 then throw e
      let t ← q.2.updateKeyTracker hashFn key addFlags removeFlags
      return (reply, t)) (hno : ¬p → q.1 = 0)
    (hyes : p → q.1 ≠ 0 ∧ q.2.keyTrackers = t.keyTrackers ∧
      ∀ k, q.2.val k = if key = k then v else t.val k) :
    Does t key (if p then (.ok reply, v) else (.error e, t.val key)) (t.withWriteTx false f) := by
  by_cases hp : p
  · obtain ⟨hn, hrows, hval⟩ := hyes hp
    rw [if_pos hp]
    rw [if_neg hn] at hf
    exact does_update addFlags removeFlags hex hhash hrows hf hval
  · rw [if_neg hp, withWriteTx_throw (hf.trans (by rw [if_pos (hno hp)]; rfl))]
    exact does_nothing t key _

theorem prefixAppend_spec (hex : Exact hashFn t) (hhash : hashFn key < 2 ^ 64) (child : Bytes) :
    Does t key ((t.val key).handle (.prefixAppend key child))
      (t.prefixAppend hashFn false key child) := by
  change Does t key (if child ∈ t.children key then _ else _) _
  rw [← ite_not]
  refine does_affected prefixFlag 0 (q := t.queryPrefixAppend key child) hex hhash rfl
    (fun hc => ?_) fun hc => ?_
  · rw [queryPrefixAppend, if_pos (not_not.1 hc)]
  · rw [queryPrefixAppend, if_neg hc]
    refine ⟨Nat.one_ne_zero, rfl, fun k => ?_⟩
    rw [val_setChildren]
    split_ifs with hk
    · rw [hk]
      rfl
    · rfl

theorem val_token {tok : ℕ} (h : bindUint64AsInt64 tok = tok) (htok : tok < 2 ^ 64) (k : Bytes) :
    (t.queryLeaseImport key (bindUint64AsInt64 tok)).val k =
      if key = k then { t.val key with lease := tok } else t.val k := by
  rw [val_queryLeaseImport, h, scan_nonneg htok]
  split_ifs with hk
  · rw [hk]
  · rfl

section

variable (hex : Exact hashFn t) (hhash : hashFn key < 2 ^ 64) (ht : TokensValid t)

include hex hhash ht

theorem acquire_spec (hl : (t.val key).lease < 2 ^ 63) (ttl now : ℤ) :
    Does t key ((t.val key).acquire ttl now) (t.acquire hashFn false key ttl now) := by
  unfold acquire KvValue.acquire
  rcases durationGuard ttl with _ | td
  · exact does_nothing t key _
  simp only
  rcases hn : nextToken now td 0 with e | next
  · rw [withWriteTx_throw (show _ = Except.error e from rfl)]
    exact does_nothing t key _
  simp only
  have hnow : 0 ≤ now := (nextToken_spec hn).1
  have hlt : next < 2 ^ 63 := (nextToken_lt hn).2
  rw [← ite_not]
  refine does_affected leaseFlag 0 (q := t.queryLeaseAcquire key (bindUint64AsInt64 next) now)
    hex hhash rfl (fun hc => ?_) fun hc => ?_
  · rcases hr : t.leaseEntries[key]? with _ | tok
    · rw [lease_no_row hr] at hc
      omega
    · obtain ⟨htok, -, -⟩ := lease_row ht hr
      rw [toInt64, if_pos hl] at htok
      simp only [queryLeaseAcquire, hr]
      rw [if_neg (by omega)]
  · have hrows : (t.queryLeaseAcquire key (bindUint64AsInt64 next) now).1 ≠ 0 := by
      unfold queryLeaseAcquire
      rcases hr : t.leaseEntries[key]? with _ | tok
      · exact Nat.one_ne_zero
      · obtain ⟨htok, -, -⟩ := lease_row ht hr
        rw [toInt64, if_pos hl] at htok
        simp only
        rw [if_pos (by omega)]
        exact Nat.one_ne_zero
    rw [queryLeaseAcquire_affected hrows]
    exact ⟨hrows, rfl, val_token (bind_next hn) (by omega)⟩

theorem renew_spec (ttl now : ℤ) (prevToken : ℕ) :
    Does t key ((t.val key).renew ttl now prevToken)
      (t.renew hashFn false key ttl now prevToken) := by
  unfold renew KvValue.renew
  rcases durationGuard ttl with _ | td
  · exact does_nothing t key _
  simp only
  rcases hn : nextToken now td prevToken with e | next
  · rw [withWriteTx_throw (show _ = Except.error e from rfl)]
    exact does_nothing t key _
  simp only
  have hlt : next < 2 ^ 63 := (nextToken_lt hn).2
  have hle : prevToken < 2 ^ 63 := by
    have := (nextToken_spec hn).2.2.2.1
    unfold maxInt64 at this
    omega
  have hcond : (if (t.val key).lease = 0 then
        ((.error .kvLeaseExpired, t.val key) : Except ChordError Reply × KvValue)
      else if now ≥ toInt64 (t.val key).lease then (.error .kvLeaseExpired, t.val key)
      else if (t.val key).lease ≠ prevToken then (.error .kvLeaseExpired, t.val key)
      else (.ok (.token next), { t.val key with lease := next })) =
        if (t.val key).lease ≠ 0 ∧ now < toInt64 (t.val key).lease ∧
          (t.val key).lease = prevToken then
          (.ok (.token next), { t.val key with lease := next })
        else (.error .kvLeaseExpired, t.val key) := by
    split_ifs <;> first | rfl | omega
  rw [hcond]
  refine does_affected leaseFlag 0 (q := t.queryLeaseRenew (bindUint64AsInt64 next) key
    (bindUint64AsInt64 prevToken) now) hex hhash rfl (fun hc => ?_) fun hc => ?_
  · unfold queryLeaseRenew
    rcases hr : t.leaseEntries[key]? with _ | tok
    · rfl
    · obtain ⟨htok, hne, hlt⟩ := lease_row ht hr
      simp only
      rw [if_neg]
      rintro ⟨h1, h2⟩
      rw [htok] at h1 h2
      refine hc ⟨hne, h2, ?_⟩
      simp only [bindUint64AsInt64, toInt64] at h1
      split_ifs at h1 <;> omega
  · have hrows : (t.queryLeaseRenew (bindUint64AsInt64 next) key (bindUint64AsInt64 prevToken)
        now).1 ≠ 0 := by
      unfold queryLeaseRenew
      rcases hr : t.leaseEntries[key]? with _ | tok
      · exact absurd (lease_no_row hr) hc.1
      · obtain ⟨htok, -, -⟩ := lease_row ht hr
        simp only
        rw [if_pos ⟨by rw [htok, hc.2.2]; rfl, by rw [htok]; exact hc.2.1⟩]
        exact Nat.one_ne_zero
    rw [queryLeaseRenew_affected hrows]
    exact ⟨hrows, rfl, val_token (bind_next hn) (by omega)⟩

theorem release_spec {token : ℕ} (h0 : token ≠ 0) (h64 : token < 2 ^ 64) :
    Does t key ((t.val key).release token) (t.release hashFn false key token) := by
  unfold release KvValue.release
  refine does_affected 0 leaseFlag (q := t.queryLeaseRelease key (bindUint64AsInt64 token))
    hex hhash rfl (fun hc => ?_) fun hc => ?_
  · unfold queryLeaseRelease
    rcases hr : t.leaseEntries[key]? with _ | tok
    · rfl
    · obtain ⟨htok, hne, hlt⟩ := lease_row ht hr
      simp only
      rw [if_neg]
      intro h1
      rw [htok] at h1
      simp only [bindUint64AsInt64, toInt64] at h1
      split_ifs at h1 <;> omega
  · have hrows : (t.queryLeaseRelease key (bindUint64AsInt64 token)).1 ≠ 0 := by
      unfold queryLeaseRelease
      rcases hr : t.leaseEntries[key]? with _ | tok
      · exact absurd (lease_no_row hr) (hc ▸ h0)
      · obtain ⟨htok, -, -⟩ := lease_row ht hr
        simp only
        rw [if_pos (by rw [htok, hc]; rfl)]
        exact Nat.one_ne_zero
    rw [queryLeaseRelease_affected hrows]
    refine ⟨hrows, rfl, fun k => ?_⟩
    rw [val_dropLease]
    split_ifs with hk
    · rw [hk]
    · rfl

end

theorem does_handle {r : Request} (hex : Exact hashFn t) (hhash : hashFn r.key < 2 ^ 64)
    (ht : TokensValid t) (hl : (t.val r.key).lease < 2 ^ 63) (hr : r.Valid) :
    Does t r.key ((t.val r.key).handle r) (t.handle hashFn false r) := by
  cases r with
  | put key value =>
    obtain ⟨v, rfl⟩ := Option.ne_none_iff_exists'.1 hr
    exact put_spec hex hhash (some v)
  | get key => exact does_nothing t key _
  | delete key => exact delete_spec hex hhash
  | prefixAppend key child => exact prefixAppend_spec hex hhash child
  | prefixList key => exact does_nothing t key _
  | prefixContains key child => exact does_nothing t key _
  | prefixRemove key child => exact prefixRemove_spec hex hhash child
  | acquire key ttl now => exact acquire_spec hex hhash ht hl ttl now
  | renew key ttl now prevToken => exact renew_spec hex hhash ht ttl now prevToken
  | release key token => exact release_spec hex hhash ht hr.1 hr.2

theorem Wrote.tokensValid (ht : TokensValid t) (h : Wrote hashFn t t') : TokensValid t' := by
  cases h with
  | put h => exact TokensValid.same (t := t.querySimplePut _ _) ht (updateKeyTracker_same h)
  | delete h => exact TokensValid.same (t := t.querySimpleDel _) ht (updateKeyTracker_same h)
  | append h =>
    refine TokensValid.same ?_ (updateKeyTracker_same h)
    unfold queryPrefixAppend
    split_ifs <;> exact ht
  | remove h => exact TokensValid.same (t := t.queryPrefixRemove _ _) ht (updateKeyTracker_same h)
  | grant hn h =>
    obtain ⟨h0, hlt⟩ := nextToken_lt hn
    refine (ht.queryLeaseImport ?_).same (updateKeyTracker_same h)
    rw [bind_next hn]
    omega
  | release h => exact ht.dropLease.same (updateKeyTracker_same h)

theorem tokensValid_handle {fault : Bool} (ht : TokensValid t) (r : Request) :
    TokensValid (t.handle hashFn fault r).2 := by
  have h : (t.handle hashFn fault r).2 = t ∨ _ := handle_wrote r
  rcases h with h | h
  · rw [h]
    exact ht
  · exact h.tokensValid ht

theorem flagsOf_eq_zero (ht : TokensValid t) (k : Bytes) :
    t.flagsOf k = 0 ↔ t.val k = .newValue := by
  have hlease : t.leaseEntries[k]?.isSome = false ↔ (t.val k).lease = 0 := by
    rcases hr : t.leaseEntries[k]? with _ | tok
    · simp [lease_no_row hr]
    · simp [(lease_row ht hr).2.1]
  rw [flagsOf, flagBits_eq_zero, Bool.or_eq_false_iff, Bool.or_eq_false_iff, hlease]
  simp only [val, KvValue.newValue, KvValue.mk.injEq, Bool.not_eq_false',
    Std.ExtTreeSet.isEmpty_iff, Option.isSome_eq_false_iff, Option.isNone_iff_eq_none]
  tauto

theorem tracked_iff (hex : Exact hashFn t) (ht : TokensValid t) {row : KeyTracker} :
    t.keyTrackers[k]? = some row ↔
      t.val k ≠ .newValue ∧ row = ⟨bindUint64AsInt64 (hashFn k), t.flagsOf k⟩ := by
  rw [hex k, trackerFor, ne_eq, ← flagsOf_eq_zero ht k]
  simp [eq_comm]

theorem mem_rangeKeys_iff {low high : ℕ} : k ∈ t.rangeKeys low high ↔
    ∃ row, t.keyTrackers[k]? = some row ∧ inRange low high row.hash = true := by
  unfold rangeKeys
  simp only [List.mem_map, List.mem_mergeSort, List.mem_filter, Prod.exists,
    Std.ExtTreeMap.mem_toList_iff_getElem?_eq_some]
  constructor
  · rintro ⟨k', row, ⟨h1, h2⟩, rfl⟩
    exact ⟨row, h1, h2⟩
  · rintro ⟨row, h1, h2⟩
    exact ⟨k, row, ⟨h1, h2⟩, rfl⟩

theorem inRange_eq {low high p : ℕ} (hlow : low < 2 ^ 63) (hhigh : high < 2 ^ 63)
    (hp : p < 2 ^ 63) : inRange low high (bindUint64AsInt64 p) = between low p high true := by
  simp only [inRange, between, bindUint64AsInt64, toInt64, hlow, hhigh, hp, if_true, Bool.true_and,
    gt_iff_lt, Int.ofNat_lt]
  have heq : ((p : ℤ) == (high : ℤ)) = (p == high) := by
    rw [Bool.eq_iff_iff, beq_iff_eq, beq_iff_eq]
    omega
  rw [heq]

theorem mem_rangeKeys (hex : Exact hashFn t) (ht : TokensValid t) {low high : ℕ}
    (hlow : low < 2 ^ 63) (hhigh : high < 2 ^ 63) (hk : hashFn k < 2 ^ 63) :
    k ∈ t.rangeKeys low high ↔
      between low (hashFn k) high true = true ∧ t.val k ≠ .newValue := by
  rw [mem_rangeKeys_iff]
  constructor
  · rintro ⟨row, hrow, hr⟩
    obtain ⟨hv, rfl⟩ := (tracked_iff hex ht).1 hrow
    rw [inRange_eq hlow hhigh hk] at hr
    exact ⟨hr, hv⟩
  · rintro ⟨hr, hv⟩
    exact ⟨_, (tracked_iff hex ht).2 ⟨hv, rfl⟩, by rwa [inRange_eq hlow hhigh hk]⟩

theorem flagged_eq (ht : TokensValid t) (k : Bytes) :
    flagged k (t.flagsOf k) = MemoryKV.composites k (t.val k) := by
  have hnames := flagBits_names t.simpleEntries[k]?.isSome (!(t.children k).isEmpty)
    t.leaseEntries[k]?.isSome
  have hlease : t.leaseEntries[k]?.isSome = true ↔ (t.val k).lease ≠ 0 := by
    rcases hr : t.leaseEntries[k]? with _ | tok
    · simp [lease_no_row hr]
    · simp [(lease_row ht hr).2.1]
  have hsize : (!(t.children k).isEmpty) = true ↔ (t.val k).children.size > 0 := by
    change _ ↔ (t.children k).size > 0
    rw [gt_iff_lt, Nat.pos_iff_ne_zero, Bool.not_eq_true', ← Bool.not_eq_true,
      Std.ExtTreeSet.isEmpty_iff, ne_eq, Std.ExtTreeSet.eq_empty_iff_size_eq_zero]
  unfold flagged MemoryKV.composites flagsOf
  simp only [hnames.1, hnames.2.1, hnames.2.2.1, hlease, hsize]
  rfl

theorem mem_listKeys (hex : Exact hashFn t) (ht : TokensValid t) {pfx : Bytes} {c : KeyComposite} :
    c ∈ t.listKeys pfx ↔
      pfx.isPrefixOf c.key = true ∧ c ∈ MemoryKV.composites c.key (t.val c.key) := by
  unfold listKeys
  simp only [List.mem_flatMap, Prod.exists, Std.ExtTreeMap.mem_toList_iff_getElem?_eq_some]
  constructor
  · rintro ⟨k, row, hrow, hc⟩
    split_ifs at hc with hp
    · obtain ⟨-, rfl⟩ := (tracked_iff hex ht).1 hrow
      rw [flagged_eq ht] at hc
      obtain rfl := (MemoryKV.mem_composites.1 hc).1
      exact ⟨hp, hc⟩
    · simp at hc
  · rintro ⟨hp, hc⟩
    have hv : t.val c.key ≠ .newValue := fun hv => by
      rw [hv] at hc
      simp [MemoryKV.composites, KvValue.newValue] at hc
    refine ⟨c.key, _, (tracked_iff hex ht).2 ⟨hv, rfl⟩, ?_⟩
    rw [if_pos hp, flagged_eq ht]
    exact hc

theorem val_removeBatch (batch : List Bytes) (k : Bytes) :
    (t.removeBatch batch).val k = if k ∈ batch then .newValue else t.val k := by
  simp only [val, children, removeBatch, getElem?_eraseMany]
  split_ifs <;> rfl

theorem val_removeBatches (t : Tables) (k : Bytes) :
    (t.removeBatches keys).val k = if k ∈ keys then .newValue else t.val k := by
  fun_induction removeBatches keys t with
  | case1 => simp
  | case2 keys t _ ih =>
    rw [ih, val_removeBatch]
    have hmem : k ∈ keys ↔
        k ∈ keys.take removeKeysBatchSize ∨ k ∈ keys.drop removeKeysBatchSize := by
      rw [← List.mem_append, List.take_append_drop]
    simp only [hmem]
    split_ifs <;> tauto

theorem removeKeys_eq : t.removeKeys false keys = (.ok (), t.removeBatches keys) := by
  unfold removeKeys
  split_ifs with h
  · rw [List.length_eq_zero_iff] at h
    rw [h, removeBatches, dif_pos rfl]
  · exact withWriteTx_ok rfl

theorem tokensValid_removeBatches (t : Tables) (ht : TokensValid t) :
    TokensValid (t.removeBatches keys) := by
  fun_induction removeBatches keys t with
  | case1 => exact ht
  | case2 keys t _ ih =>
    refine ih fun k tok hk => ht k tok ?_
    simp only [removeBatch, getElem?_eraseMany] at hk
    split_ifs at hk
    exact hk

/-- What importing one key makes of what was there: what the transfer does not carry is kept. -/
def absorb (v : KvValue) (x : KVTransfer) : KvValue where
  simple := (importedSimpleValue x).or v.simple
  lease := if x.leaseToken = 0 then v.lease else x.leaseToken
  children := v.children.insertMany x.prefixChildren

theorem val_importSimple (x : KVTransfer) (k : Bytes) : (t.importSimple key x).val k =
    if key = k then { t.val k with simple := (importedSimpleValue x).or (t.val k).simple }
    else t.val k := by
  unfold importSimple
  rcases importedSimpleValue x with _ | v
  · simp
  · simp [val_querySimplePut]

theorem val_queryPrefixAppend (child k : Bytes) : (t.queryPrefixAppend key child).2.val k =
    if key = k then { t.val k with children := (t.val k).children.insert child } else t.val k := by
  unfold queryPrefixAppend
  by_cases hc : child ∈ t.children key
  · rw [if_pos hc]
    split_ifs with hk
    · subst hk
      have hsame : (t.children key).insert child = t.children key := by
        refine Std.ExtTreeSet.ext_mem fun b => ?_
        rw [Std.ExtTreeSet.mem_insert, Std.compare_eq_iff_eq]
        constructor
        · rintro (rfl | h)
          · exact hc
          · exact h
        · exact .inr
      simp only [val, hsame]
    · rfl
  · rw [if_neg hc, val_setChildren]
    split_ifs with hk
    · rw [hk]
      rfl
    · rfl

theorem val_importChildren (x : KVTransfer) (k : Bytes) : (t.importChildren key x).val k =
    if key = k then { t.val k with children := (t.val k).children.insertMany x.prefixChildren }
    else t.val k := by
  unfold importChildren
  induction x.prefixChildren generalizing t with
  | nil => simp
  | cons child cs ih =>
    rw [List.foldl_cons, ih, val_queryPrefixAppend]
    split_ifs
    · rw [Std.ExtTreeSet.insertMany_cons]
    · rfl

theorem val_importLease (hx : x.leaseToken < 2 ^ 64) (k : Bytes) :
    (t.importLease key x).val k =
      if key = k then
        { t.val k with lease := if x.leaseToken = 0 then (t.val k).lease else x.leaseToken }
      else t.val k := by
  unfold importLease
  by_cases h0 : x.leaseToken = 0
  · simp [h0]
  · rw [if_pos h0, val_queryLeaseImport, scan_bind hx, if_neg h0]

theorem val_importRows (hx : x.leaseToken < 2 ^ 64) (k : Bytes) :
    (t.importRows key x).val k = if key = k then absorb (t.val k) x else t.val k := by
  rw [importRows, val_importLease hx, val_importChildren, val_importSimple]
  by_cases hk : key = k
  · simp only [if_pos hk]
    rfl
  · simp only [if_neg hk]

theorem tokensValid_importRows (hx : x.leaseToken < 2 ^ 64) (ht : TokensValid t) :
    TokensValid (t.importRows key x) := by
  have hsame : ((t.importSimple key x).importChildren key x).leaseEntries = t.leaseEntries := by
    have hchildren : ∀ (cs : List Bytes) (t : Tables),
        (cs.foldl (fun t child => (t.queryPrefixAppend key child).2) t).leaseEntries =
          t.leaseEntries := by
      intro cs
      induction cs with
      | nil => simp
      | cons child cs ih =>
        intro t
        rw [List.foldl_cons, ih, queryPrefixAppend]
        split_ifs <;> rfl
    unfold importChildren importSimple
    rcases importedSimpleValue x with _ | v <;> exact hchildren _ _
  have ht : TokensValid ((t.importSimple key x).importChildren key x) := by
    unfold TokensValid
    rw [hsame]
    exact ht
  unfold importRows importLease
  split_ifs with h0
  · refine ht.queryLeaseImport ?_
    unfold bindUint64AsInt64 toInt64
    split_ifs <;> omega
  · exact ht

theorem importOne_spec (hex : Exact hashFn t) (hhash : hashFn key < 2 ^ 64) (ht : TokensValid t)
    (hx : x.leaseToken < 2 ^ 64) :
    ∃ t', t.importOne hashFn key x = .ok t' ∧ Exact hashFn t' ∧ TokensValid t' ∧
      ∀ k, t'.val k = if key = k then absorb (t.val k) x else t.val k := by
  obtain ⟨t', h, hsame⟩ := update_total (importFlags x) 0 hex hhash (keyTrackers_importRows x)
  refine ⟨t', h, exact_importOne hex h, (tokensValid_importRows hx ht).same hsame, fun k => ?_⟩
  rw [hsame.val_eq, val_importRows hx]

theorem importEach_spec {hashFn : Bytes → ℕ} (hhash : ∀ k, hashFn k < 2 ^ 64) :
    ∀ (keys : List Bytes) (values : List KVTransfer) (t : Tables), Exact hashFn t →
      TokensValid t → (∀ x ∈ values, x.leaseToken < 2 ^ 64) →
      ∃ t', importEach hashFn keys (values.map some) t = .ok t' ∧ Exact hashFn t' ∧
        TokensValid t' ∧ ∀ k, t'.val k = (received k keys values).foldl absorb (t.val k)
  | key :: keys, x :: values, t, hex, ht, hx => by
    obtain ⟨t₁, h1, hex₁, ht₁, hval₁⟩ := importOne_spec hex (hhash key) ht (hx x (by simp))
    obtain ⟨t₂, h2, hex₂, ht₂, hval₂⟩ :=
      importEach_spec hhash keys values t₁ hex₁ ht₁ fun y hy => hx y (by simp [hy])
    refine ⟨t₂, ?_, hex₂, ht₂, fun k => ?_⟩
    · rw [List.map_cons, importEach, h1]
      exact h2
    · rw [hval₂, hval₁, received]
      split_ifs <;> rfl
  | [], values, t, hex, ht, _ => ⟨t, by simp [importEach], hex, ht, fun k => by simp [received]⟩
  | _ :: _, [], t, hex, ht, _ => ⟨t, by simp [importEach], hex, ht, fun k => by simp [received]⟩

theorem importKeys_spec (hhash : ∀ k, hashFn k < 2 ^ 64) {keys : List Bytes}
    {values : List KVTransfer} (hex : Exact hashFn t) (ht : TokensValid t)
    (hlen : keys.length = values.length) (hx : ∀ x ∈ values, x.leaseToken < 2 ^ 64) :
    ∃ t', t.importKeys hashFn false keys (values.map some) = (.ok (), t') ∧ Exact hashFn t' ∧
      TokensValid t' ∧ ∀ k, t'.val k = (received k keys values).foldl absorb (t.val k) := by
  obtain ⟨t', h, hrest⟩ := importEach_spec hhash keys values t hex ht hx
  refine ⟨t', ?_, hrest⟩
  rw [importKeys, if_neg (by simpa using hlen)]
  exact withWriteTx_ok (by rw [h]; rfl)

end Tables

/-- A database as the calls leave it: the trackers are exact and the lease rows are of leases that
are held. -/
structure SqliteKV (hashFn : Bytes → ℕ) where
  tables : Tables
  exact : tables.Exact hashFn
  tokens : tables.TokensValid

namespace SqliteKV

variable {hashFn : Bytes → ℕ}

def withHashFn (hashFn : Bytes → ℕ) : SqliteKV hashFn :=
  ⟨.empty, Tables.exact_empty, Tables.tokensValid_empty⟩

def handle (fault : Bool) (r : Request) (s : SqliteKV hashFn) :
    Except ChordError Reply × SqliteKV hashFn :=
  ((s.tables.handle hashFn fault r).1, ⟨(s.tables.handle hashFn fault r).2,
    Tables.exact_handle s.exact r, Tables.tokensValid_handle s.tokens r⟩)

def removeKeys (keys : List Bytes) (s : SqliteKV hashFn) : SqliteKV hashFn :=
  ⟨(s.tables.removeKeys false keys).2, Tables.exact_removeKeys s.exact keys,
    by rw [Tables.removeKeys_eq]; exact Tables.tokensValid_removeBatches keys _ s.tokens⟩

def val (s : SqliteKV hashFn) (key : Bytes) : KvValue := s.tables.val key

end SqliteKV

end Specter
