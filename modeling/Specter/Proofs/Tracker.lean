import Specter.Sqlite

/-!
# The key tracker is exact

A tracker row exists for the keys that have content, and its flags name the kinds of content.  All
calls change the tracker through `updateKeyTracker`; a call only has to say how its statements
change the kinds of content of its key.
-/

namespace Specter

variable {n : ℕ}

theorem scan_bind (h : n < 2 ^ 64) : scanInt64AsUint64 (bindUint64AsInt64 n) = n := by
  unfold scanInt64AsUint64 bindUint64AsInt64 toInt64
  split_ifs <;> omega

namespace Tables

variable {hashFn : Bytes → ℕ} {fault : Bool} {t t' u : Tables} {key : Bytes}
  {flags addFlags removeFlags : BitVec 8} (k : Bytes) {α : Type}
  {fn : Tables → Except ChordError (α × Tables)} {e : ChordError} (x : KVTransfer) {β : Type}
  {tok : ℤ}

def flagBits (simple children lease : Bool) : BitVec 8 :=
  (if simple then simpleFlag else 0) ||| (if children then prefixFlag else 0) |||
  (if lease then leaseFlag else 0)

theorem flagBits_or_simple : ∀ a b c, flagBits a b c ||| simpleFlag = flagBits true b c := by decide

theorem flagBits_or_children : ∀ a b c, flagBits a b c ||| prefixFlag = flagBits a true c := by
  decide

theorem flagBits_or_lease : ∀ a b c, flagBits a b c ||| leaseFlag = flagBits a b true := by decide

theorem flagBits_not_simple : ∀ a b c, flagBits a b c &&& ~~~simpleFlag = flagBits false b c := by
  decide

theorem flagBits_not_children : ∀ a b c, flagBits a b c &&& ~~~prefixFlag = flagBits a false c := by
  decide

theorem flagBits_not_lease : ∀ a b c, flagBits a b c &&& ~~~leaseFlag = flagBits a b false := by
  decide

theorem flagBits_eq_zero : ∀ a b c, flagBits a b c = 0 ↔ (a || b || c) = false := by decide

theorem flagBits_names : ∀ a b c,
    (flagBits a b c &&& simpleFlag ≠ 0 ↔ a = true) ∧
    (flagBits a b c &&& prefixFlag ≠ 0 ↔ b = true) ∧
    (flagBits a b c &&& leaseFlag ≠ 0 ↔ c = true) ∧
    flagBits a b c &&& ~~~(simpleFlag ||| prefixFlag ||| leaseFlag) = 0 := by
  decide

def flagsOf (t : Tables) (k : Bytes) : BitVec 8 :=
  flagBits t.simpleEntries[k]?.isSome (!(t.children k).isEmpty) t.leaseEntries[k]?.isSome

def trackerFor (hashFn : Bytes → ℕ) (k : Bytes) (flags : BitVec 8) : Option KeyTracker :=
  if flags = 0 then none else some ⟨bindUint64AsInt64 (hashFn k), flags⟩

/-- Every key is tracked as its content demands. -/
def Exact (hashFn : Bytes → ℕ) (t : Tables) : Prop :=
  ∀ k, t.keyTrackers[k]? = trackerFor hashFn k (t.flagsOf k)

theorem exact_empty : Exact hashFn empty := by
  intro k
  simp [empty, flagsOf, children, trackerFor, flagBits]

theorem flagsOf_congr {k : Bytes} (hs : t'.simpleEntries[k]? = t.simpleEntries[k]?)
    (hc : t'.prefixEntries[k]? = t.prefixEntries[k]?)
    (hl : t'.leaseEntries[k]? = t.leaseEntries[k]?) : t'.flagsOf k = t.flagsOf k := by
  simp only [flagsOf, children, hs, hc, hl]

structure SameContent (t t' : Tables) : Prop where
  simple : t'.simpleEntries = t.simpleEntries
  children : t'.prefixEntries = t.prefixEntries
  lease : t'.leaseEntries = t.leaseEntries

theorem SameContent.flagsOf_eq (h : SameContent t t') (k : Bytes) :
    t'.flagsOf k = t.flagsOf k :=
  flagsOf_congr (by rw [h.simple]) (by rw [h.children]) (by rw [h.lease])

theorem updateKeyTracker_same
    (h : t.updateKeyTracker hashFn key addFlags removeFlags = .ok t') : SameContent t t' := by
  unfold updateKeyTracker at h
  simp only at h
  split at h <;> split_ifs at h <;> cases h <;> exact ⟨rfl, rfl, rfl⟩

theorem updateKeyTracker_ok (hrow : t.keyTrackers[key]? = trackerFor hashFn key flags)
    (hflags : addFlags = 0 ∨ removeFlags = 0)
    (h : t.updateKeyTracker hashFn key addFlags removeFlags = .ok t') (k : Bytes) :
    t'.keyTrackers[k]? =
      if key = k then
        trackerFor hashFn key ((flags ||| addFlags) &&& ~~~t.goneFlags key removeFlags)
      else t.keyTrackers[k]? := by
  unfold updateKeyTracker at h
  rw [hrow] at h
  by_cases hf : flags = 0
  · -- no row yet: one is made for the flags that are added
    subst hf
    simp only [trackerFor, if_true] at h
    rcases hflags with rfl | rfl
    · simp only [ne_eq, not_true_eq_false, if_false, Except.ok.injEq] at h
      subst h
      split_ifs with hk
      · subst hk
        simpa [trackerFor] using hrow
      · rfl
    · have hgone : (0 ||| addFlags) &&& ~~~t.goneFlags key 0 = addFlags := by
        have hzero : ~~~t.goneFlags key 0 = BitVec.allOnes 8 := by simp [goneFlags]
        rw [hzero, BitVec.and_allOnes]
        exact BitVec.zero_or
      rw [hgone]
      split_ifs at h with ha
      · cases h
        simp only [trackerSet, Std.ExtTreeMap.getElem?_insert, Std.compare_eq_iff_eq, trackerFor,
          ha, if_false]
      · cases h
        split_ifs with hk
        · subst hk
          simpa [trackerFor, not_not.1 ha] using hrow
        · rfl
  · simp only [trackerFor, hf, if_false] at h
    split_ifs at h with hhash hnew
    · cases h
      simp only [queryTrackerDelete, Std.ExtTreeMap.getElem?_erase, Std.compare_eq_iff_eq]
      rw [trackerFor, if_pos hnew]
    · cases h
      simp only [trackerSet, Std.ExtTreeMap.getElem?_insert, Std.compare_eq_iff_eq]
      rw [trackerFor, if_neg hnew]

theorem exists_updateKeyTracker (hex : t.keyTrackers[key]? = trackerFor hashFn key flags)
    (hhash : hashFn key < 2 ^ 64) :
    ∃ t', t.updateKeyTracker hashFn key addFlags removeFlags = .ok t' := by
  unfold updateKeyTracker
  rw [hex]
  by_cases hf : flags = 0
  · simp only [trackerFor, hf, if_true]
    split_ifs <;> exact ⟨_, rfl⟩
  · simp only [trackerFor, hf, if_false, scan_bind hhash, ne_eq, not_true_eq_false]
    split_ifs <;> exact ⟨_, rfl⟩

/-- The statements of a call before it updates the tracker, which leave the other keys alone. -/
structure Touches (key : Bytes) (t u : Tables) : Prop where
  trackers : u.keyTrackers = t.keyTrackers
  other : ∀ k, k ≠ key → u.flagsOf k = t.flagsOf k

/-- A call keeps the trackers exact if it tells the tracker what its statements did. -/
theorem exact_update (hex : Exact hashFn t) (ht : Touches key t u)
    (hflags : addFlags = 0 ∨ removeFlags = 0)
    (hkey : u.flagsOf key = (t.flagsOf key ||| addFlags) &&& ~~~u.goneFlags key removeFlags)
    (h : u.updateKeyTracker hashFn key addFlags removeFlags = .ok t') : Exact hashFn t' := by
  have hrow : u.keyTrackers[key]? = trackerFor hashFn key (t.flagsOf key) := by
    rw [ht.trackers]
    exact hex key
  intro k
  rw [updateKeyTracker_ok hrow hflags h, (updateKeyTracker_same h).flagsOf_eq]
  split_ifs with hk
  · subst hk
    rw [hkey]
  · rw [ht.other k (Ne.symm hk), ht.trackers]
    exact hex k

/-! ## The statements

How they change the kinds of content of each key. -/

@[simp] theorem goneFlags_zero : t.goneFlags key 0 = 0 := by simp [goneFlags]

theorem children_setChildren (pfx : Bytes) (cs : Std.ExtTreeSet Bytes) (k : Bytes) :
    (t.setChildren pfx cs).children k = if pfx = k then cs else t.children k := by
  simp only [setChildren, children, Std.ExtTreeMap.getElem?_insert, Std.compare_eq_iff_eq]
  split_ifs <;> rfl

theorem flagsOf_querySimplePut (v k : Bytes) : (t.querySimplePut key v).flagsOf k =
    if key = k then t.flagsOf k ||| simpleFlag else t.flagsOf k := by
  simp only [flagsOf, querySimplePut, Std.ExtTreeMap.getElem?_insert, Std.compare_eq_iff_eq,
    flagBits_or_simple]
  split_ifs <;> rfl

theorem flagsOf_querySimpleDel : (t.querySimpleDel key).flagsOf k =
    if key = k then t.flagsOf k &&& ~~~simpleFlag else t.flagsOf k := by
  simp only [flagsOf, querySimpleDel, Std.ExtTreeMap.getElem?_erase, Std.compare_eq_iff_eq,
    flagBits_not_simple]
  split_ifs <;> rfl

theorem flagsOf_setChildren (cs : Std.ExtTreeSet Bytes) (k : Bytes) :
    (t.setChildren key cs).flagsOf k =
      if key = k then flagBits t.simpleEntries[k]?.isSome (!cs.isEmpty) t.leaseEntries[k]?.isSome
      else t.flagsOf k := by
  unfold flagsOf
  rw [children_setChildren]
  split_ifs <;> rfl

theorem flagsOf_queryLeaseImport (tok : ℤ) (k : Bytes) : (t.queryLeaseImport key tok).flagsOf k =
    if key = k then t.flagsOf k ||| leaseFlag else t.flagsOf k := by
  simp only [flagsOf, queryLeaseImport, Std.ExtTreeMap.getElem?_insert, Std.compare_eq_iff_eq,
    flagBits_or_lease]
  split_ifs <;> rfl

theorem flagsOf_dropLease : flagsOf { t with leaseEntries := t.leaseEntries.erase key } k =
      if key = k then t.flagsOf k &&& ~~~leaseFlag else t.flagsOf k := by
  simp only [flagsOf, Std.ExtTreeMap.getElem?_erase, Std.compare_eq_iff_eq, flagBits_not_lease]
  split_ifs <;> rfl

theorem exact_add (hex : Exact hashFn t) (hrows : u.keyTrackers = t.keyTrackers)
    (hflags : ∀ k, u.flagsOf k = if key = k then t.flagsOf k ||| addFlags else t.flagsOf k)
    (h : u.updateKeyTracker hashFn key addFlags 0 = .ok t') : Exact hashFn t' := by
  refine exact_update hex ⟨hrows, fun k hk => ?_⟩ (.inr rfl) ?_ h
  · rw [hflags, if_neg (Ne.symm hk)]
  · have hzero : ~~~u.goneFlags key 0 = BitVec.allOnes 8 := by rw [goneFlags_zero]; rfl
    rw [hflags, if_pos rfl, hzero, BitVec.and_allOnes]

theorem exact_remove (hex : Exact hashFn t) (hrows : u.keyTrackers = t.keyTrackers)
    (hpfx : removeFlags &&& prefixFlag = 0)
    (hflags : ∀ k, u.flagsOf k = if key = k then t.flagsOf k &&& ~~~removeFlags else t.flagsOf k)
    (h : u.updateKeyTracker hashFn key 0 removeFlags = .ok t') : Exact hashFn t' := by
  refine exact_update hex ⟨hrows, fun k hk => ?_⟩ (.inl rfl) ?_ h
  · rw [hflags, if_neg (Ne.symm hk)]
  · have hgone : u.goneFlags key removeFlags = removeFlags := by simp [goneFlags, hpfx]
    rw [hflags, if_pos rfl, hgone]
    exact congrArg (· &&& _) BitVec.or_zero.symm

theorem withWriteTx_keeps {P : Tables → Prop} (ht : P t) (hfn : ∀ a t', fn t = .ok (a, t') → P t') :
    P (t.withWriteTx fault fn).2 := by
  unfold withWriteTx
  split_ifs
  · exact ht
  · rcases h : fn t with e | ⟨a, t'⟩
    · exact ht
    · exact hfn a t' h

theorem withWriteTx_error (h : (t.withWriteTx fault fn).1 = .error e) :
    (t.withWriteTx fault fn).2 = t := by
  unfold withWriteTx at h ⊢
  split_ifs at h ⊢
  · rfl
  · rcases hfn : fn t with e | ⟨a, t'⟩
    · rfl
    · simp [hfn] at h

theorem update_then_ok {a b : α}
    (h : (do let t ← u.updateKeyTracker hashFn key addFlags removeFlags; return (a, t)) =
      (.ok (b, t') : Except ChordError (α × Tables))) :
    u.updateKeyTracker hashFn key addFlags removeFlags = .ok t' := by
  rcases hu : u.updateKeyTracker hashFn key addFlags removeFlags with e | t₂
  · rw [hu] at h
    cases h
  · rw [hu] at h
    cases h
    rfl

theorem affected_then_ok {a b : α} (h : (do
      if n = 0 then throw e
      let t ← u.updateKeyTracker hashFn key addFlags removeFlags
      return (a, t)) = (.ok (b, t') : Except ChordError (α × Tables))) :
    n ≠ 0 ∧ u.updateKeyTracker hashFn key addFlags removeFlags = .ok t' := by
  by_cases hn : n = 0
  · simp only [hn, if_true] at h
    cases h
  · simp only [hn, if_false] at h
    exact ⟨hn, update_then_ok h⟩

theorem flagsOf_queryPrefixAppend (child k : Bytes) :
    (t.queryPrefixAppend key child).2.flagsOf k =
      if key = k then t.flagsOf k ||| prefixFlag else t.flagsOf k := by
  unfold queryPrefixAppend
  by_cases hc : child ∈ t.children key
  · have hne : (t.children key).isEmpty = false := by
      rw [← Bool.not_eq_true, Std.ExtTreeSet.isEmpty_iff]
      intro h
      simp [h] at hc
    simp only [hc, if_true]
    split_ifs with hk
    · subst hk
      rw [flagsOf, flagBits_or_children, hne]
      rfl
    · rfl
  · have hne : ((t.children key).insert child).isEmpty = false := by simp
    simp only [hc, if_false, flagsOf_setChildren, hne]
    rw [flagsOf, flagBits_or_children]
    rfl

theorem keyTrackers_queryPrefixAppend (child : Bytes) :
    (t.queryPrefixAppend key child).2.keyTrackers = t.keyTrackers := by
  unfold queryPrefixAppend
  split_ifs <;> rfl

theorem queryLeaseAcquire_affected {now : ℤ} (h : (t.queryLeaseAcquire key tok now).1 ≠ 0) :
    (t.queryLeaseAcquire key tok now).2 = t.queryLeaseImport key tok := by
  unfold queryLeaseAcquire at h ⊢
  split at h
  · rfl
  · split_ifs at h ⊢ <;> tauto

theorem queryLeaseRenew_affected {prev now : ℤ} (h : (t.queryLeaseRenew tok key prev now).1 ≠ 0) :
    (t.queryLeaseRenew tok key prev now).2 = t.queryLeaseImport key tok := by
  unfold queryLeaseRenew at h ⊢
  split at h
  · tauto
  · split_ifs at h ⊢ <;> tauto

theorem queryLeaseRelease_affected (h : (t.queryLeaseRelease key tok).1 ≠ 0) :
    (t.queryLeaseRelease key tok).2 =
      { t with leaseEntries := t.leaseEntries.erase key } := by
  unfold queryLeaseRelease at h ⊢
  split at h
  · tauto
  · split_ifs at h ⊢ <;> tauto

/-- What a request can do to the tables: statements about its key, and an update of its tracker
to match. -/
inductive Wrote (hashFn : Bytes → ℕ) (t : Tables) : Tables → Prop
  | put {key v : Bytes} {t' : Tables}
      (h : (t.querySimplePut key v).updateKeyTracker hashFn key simpleFlag 0 = .ok t') :
      Wrote hashFn t t'
  | delete {key : Bytes} {t' : Tables}
      (h : (t.querySimpleDel key).updateKeyTracker hashFn key 0 simpleFlag = .ok t') :
      Wrote hashFn t t'
  | append {key child : Bytes} {t' : Tables}
      (h : (t.queryPrefixAppend key child).2.updateKeyTracker hashFn key prefixFlag 0 = .ok t') :
      Wrote hashFn t t'
  | remove {key child : Bytes} {t' : Tables}
      (h : (t.queryPrefixRemove key child).updateKeyTracker hashFn key 0 prefixFlag = .ok t') :
      Wrote hashFn t t'
  | grant {key : Bytes} {now ttl : ℤ} {previous next : ℕ} {t' : Tables}
      (hn : nextToken now ttl previous = .ok next)
      (h : (t.queryLeaseImport key (bindUint64AsInt64 next)).updateKeyTracker hashFn key
        leaseFlag 0 = .ok t') : Wrote hashFn t t'
  | release {key : Bytes} {t' : Tables}
      (h : updateKeyTracker hashFn key 0 leaseFlag
        { t with leaseEntries := t.leaseEntries.erase key } = .ok t') : Wrote hashFn t t'

theorem withWriteTx_wrote (h : ∀ a t', fn t = .ok (a, t') → Wrote hashFn t t') :
    (t.withWriteTx fault fn).2 = t ∨ Wrote hashFn t (t.withWriteTx fault fn).2 :=
  withWriteTx_keeps (P := fun t' => t' = t ∨ Wrote hashFn t t') (.inl rfl)
    fun a t' ht => .inr (h a t' ht)

theorem acquire_wrote (ttl now : ℤ) : (t.acquire hashFn fault key ttl now).2 = t ∨
    Wrote hashFn t (t.acquire hashFn fault key ttl now).2 := by
  unfold acquire
  rcases durationGuard ttl with _ | td
  · exact .inl rfl
  refine withWriteTx_wrote fun _ t' h => ?_
  rcases hn : nextToken now td 0 with e | next
  · rw [hn] at h
    cases h
  rw [hn] at h
  have ⟨hrows, hu⟩ : (t.queryLeaseAcquire key (bindUint64AsInt64 next) now).1 ≠ 0 ∧
      (t.queryLeaseAcquire key (bindUint64AsInt64 next) now).2.updateKeyTracker hashFn key
        leaseFlag 0 = .ok t' := affected_then_ok h
  rw [queryLeaseAcquire_affected hrows] at hu
  exact .grant hn hu

theorem renew_wrote (ttl now : ℤ) (prevToken : ℕ) :
    (t.renew hashFn fault key ttl now prevToken).2 = t ∨
      Wrote hashFn t (t.renew hashFn fault key ttl now prevToken).2 := by
  unfold renew
  rcases durationGuard ttl with _ | td
  · exact .inl rfl
  refine withWriteTx_wrote fun _ t' h => ?_
  rcases hn : nextToken now td prevToken with e | next
  · rw [hn] at h
    cases h
  rw [hn] at h
  have ⟨hrows, hu⟩ : (t.queryLeaseRenew (bindUint64AsInt64 next) key
        (bindUint64AsInt64 prevToken) now).1 ≠ 0 ∧
      (t.queryLeaseRenew (bindUint64AsInt64 next) key
        (bindUint64AsInt64 prevToken) now).2.updateKeyTracker hashFn key leaseFlag 0 = .ok t' :=
    affected_then_ok h
  rw [queryLeaseRenew_affected hrows] at hu
  exact .grant hn hu

theorem release_wrote (token : ℕ) : (t.release hashFn fault key token).2 = t ∨
    Wrote hashFn t (t.release hashFn fault key token).2 := by
  refine withWriteTx_wrote fun _ t' h => ?_
  have ⟨hrows, hu⟩ : (t.queryLeaseRelease key (bindUint64AsInt64 token)).1 ≠ 0 ∧
      (t.queryLeaseRelease key (bindUint64AsInt64 token)).2.updateKeyTracker hashFn key 0
        leaseFlag = .ok t' := affected_then_ok h
  rw [queryLeaseRelease_affected hrows] at hu
  exact .release hu

theorem handle_wrote (r : Request) : (t.handle hashFn fault r).2 = t ∨
    Wrote hashFn t (t.handle hashFn fault r).2 := by
  cases r with
  | put key value =>
    exact withWriteTx_wrote fun _ _ h => .put (update_then_ok h)
  | get key => exact .inl rfl
  | delete key =>
    exact withWriteTx_wrote fun _ _ h => .delete (update_then_ok h)
  | prefixAppend key child =>
    refine withWriteTx_wrote fun _ t' h => ?_
    have hu : (t.queryPrefixAppend key child).2.updateKeyTracker hashFn key prefixFlag 0 = .ok t' :=
      (affected_then_ok h).2
    exact .append hu
  | prefixList key => exact .inl rfl
  | prefixContains key child => exact .inl rfl
  | prefixRemove key child =>
    exact withWriteTx_wrote fun _ _ h => .remove (update_then_ok h)
  | acquire key ttl now => exact acquire_wrote ttl now
  | renew key ttl now prevToken => exact renew_wrote ttl now prevToken
  | release key token => exact release_wrote token

theorem exact_prefixRemove {child : Bytes} (hex : Exact hashFn t)
    (h : (t.queryPrefixRemove key child).updateKeyTracker hashFn key 0 prefixFlag = .ok t') :
    Exact hashFn t' := by
  refine exact_update (u := t.queryPrefixRemove key child) hex ⟨rfl, fun k hk => ?_⟩ (.inl rfl) ?_ h
  · rw [queryPrefixRemove, flagsOf_setChildren, if_neg (Ne.symm hk)]
  · -- the tracker looks at the children that are left
    have hcount : (t.queryPrefixRemove key child).queryPrefixCount key > 0 ↔
        ((t.children key).erase child).isEmpty = false := by
      rw [queryPrefixCount, queryPrefixRemove, children_setChildren, if_pos rfl, gt_iff_lt,
        Nat.pos_iff_ne_zero, ← Bool.not_eq_true, Std.ExtTreeSet.isEmpty_iff, ne_eq,
        Std.ExtTreeSet.eq_empty_iff_size_eq_zero]
    have hflags : t.flagsOf key ||| 0 = t.flagsOf key := BitVec.or_zero
    rw [goneFlags, hflags]
    simp only [hcount]
    rw [queryPrefixRemove, flagsOf_setChildren, if_pos rfl, flagsOf]
    rcases hleft : ((t.children key).erase child).isEmpty
    · have hold : (t.children key).isEmpty = false := by
        rw [← Bool.not_eq_true, Std.ExtTreeSet.isEmpty_iff] at hleft ⊢
        intro h
        simp [h] at hleft
      rw [if_pos (by decide), hold]
      generalize t.simpleEntries[key]?.isSome = a, t.leaseEntries[key]?.isSome = c
      revert a c
      decide
    · rw [if_neg (by simp)]
      exact (flagBits_not_children _ _ _).symm

theorem Wrote.exact (hex : Exact hashFn t) (h : Wrote hashFn t t') : Exact hashFn t' := by
  cases h with
  | put h => exact exact_add hex (by rfl) (flagsOf_querySimplePut _) h
  | delete h => exact exact_remove hex (by rfl) (by decide) flagsOf_querySimpleDel h
  | append h =>
    exact exact_add hex (keyTrackers_queryPrefixAppend _) (flagsOf_queryPrefixAppend _) h
  | remove h => exact exact_prefixRemove hex h
  | grant _ h => exact exact_add hex (by rfl) (flagsOf_queryLeaseImport _) h
  | release h => exact exact_remove hex (by rfl) (by decide) flagsOf_dropLease h

theorem exact_handle (hex : Exact hashFn t) (r : Request) :
    Exact hashFn (t.handle hashFn fault r).2 := by
  have h : (t.handle hashFn fault r).2 = t ∨ _ := handle_wrote r
  rcases h with h | h
  · rw [h]
    exact hex
  · exact h.exact hex

theorem flagsOf_importSimple (k : Bytes) : (t.importSimple key x).flagsOf k =
    if key = k ∧ (importedSimpleValue x).isSome then t.flagsOf k ||| simpleFlag
    else t.flagsOf k := by
  unfold importSimple
  rcases importedSimpleValue x with _ | v
  · simp
  · simp [flagsOf_querySimplePut]

theorem flagsOf_importChildren (k : Bytes) :
    (t.importChildren key x).flagsOf k =
      if key = k ∧ x.prefixChildren.length > 0 then t.flagsOf k ||| prefixFlag
      else t.flagsOf k := by
  unfold importChildren
  induction x.prefixChildren generalizing t with
  | nil => simp
  | cons child cs ih =>
    rw [List.foldl_cons, ih, flagsOf_queryPrefixAppend]
    by_cases hk : key = k
    · simp only [hk, true_and, if_true, List.length_cons, gt_iff_lt, Nat.zero_lt_succ]
      split_ifs
      · rw [BitVec.or_assoc, BitVec.or_self]
      · rfl
    · simp only [hk, false_and, if_false]

theorem flagsOf_importLease (k : Bytes) : (t.importLease key x).flagsOf k =
    if key = k ∧ x.leaseToken ≠ 0 then t.flagsOf k ||| leaseFlag else t.flagsOf k := by
  unfold importLease
  split_ifs <;> simp_all [flagsOf_queryLeaseImport]

theorem flagsOf_importRows (k : Bytes) : (t.importRows key x).flagsOf k =
    if key = k then t.flagsOf k ||| importFlags x else t.flagsOf k := by
  rw [importRows, flagsOf_importLease, flagsOf_importChildren, flagsOf_importSimple, importFlags]
  by_cases hk : key = k
  · simp only [hk, true_and, if_true]
    split_ifs <;> simp [BitVec.or_assoc]
  · simp only [hk, false_and, if_false]

theorem keyTrackers_importRows : (t.importRows key x).keyTrackers = t.keyTrackers := by
  have hchildren : ∀ (cs : List Bytes) (t : Tables),
      (cs.foldl (fun t child => (t.queryPrefixAppend key child).2) t).keyTrackers =
        t.keyTrackers := by
    intro cs
    induction cs with
    | nil => simp
    | cons child cs ih => simp [ih, keyTrackers_queryPrefixAppend]
  unfold importRows importLease importChildren importSimple
  rcases importedSimpleValue x with _ | v <;> split_ifs <;> exact hchildren _ _

theorem exact_importOne (hex : Exact hashFn t) {x : KVTransfer}
    (h : t.importOne hashFn key x = .ok t') : Exact hashFn t' :=
  exact_add hex (keyTrackers_importRows x) (flagsOf_importRows x) h

theorem exact_importEach :
    ∀ (keys : List Bytes) (values : List (Option KVTransfer)) (t : Tables), Exact hashFn t →
      importEach hashFn keys values t = .ok t' → Exact hashFn t'
  | key :: keys, some x :: values, t, hex, h => by
    rw [importEach] at h
    rcases h1 : importOne hashFn key x t with e | t₁
    · rw [h1] at h
      cases h
    · rw [h1] at h
      exact exact_importEach keys values t₁ (exact_importOne hex h1) h
  | _ :: _, none :: _, _, _, h => by simp [importEach] at h
  | [], _, _, hex, h => by
    simp only [importEach, Except.ok.injEq] at h
    exact h ▸ hex
  | _ :: _, [], _, hex, h => by
    simp only [importEach, Except.ok.injEq] at h
    exact h ▸ hex

theorem exact_importKeys (hex : Exact hashFn t) (keys : List Bytes)
    (values : List (Option KVTransfer)) :
    Exact hashFn (t.importKeys hashFn fault keys values).2 := by
  unfold importKeys
  split_ifs
  · exact hex
  · refine withWriteTx_keeps hex fun _ t' h => ?_
    rcases h1 : importEach hashFn keys values t with e | t₁
    · rw [h1] at h
      cases h
    · rw [h1] at h
      cases h
      exact exact_importEach keys values t hex h1

theorem getElem?_eraseMany (batch : List Bytes) (k : Bytes) :
    ∀ m : Std.ExtTreeMap Bytes β,
      (batch.foldl .erase m)[k]? = if k ∈ batch then none else m[k]? := by
  induction batch with
  | nil => simp
  | cons key batch ih =>
    intro m
    rw [List.foldl_cons, ih, Std.ExtTreeMap.getElem?_erase]
    by_cases h : k ∈ batch
    · simp [h]
    · simp only [h, if_false, Std.compare_eq_iff_eq, List.mem_cons, or_false, @eq_comm _ k key]

theorem exact_removeBatch (hex : Exact hashFn t) (batch : List Bytes) :
    Exact hashFn (t.removeBatch batch) := by
  intro k
  by_cases h : k ∈ batch
  · simp [removeBatch, flagsOf, children, getElem?_eraseMany, h, trackerFor, flagBits]
  · have hflags : (t.removeBatch batch).flagsOf k = t.flagsOf k := by
      apply flagsOf_congr <;> simp only [removeBatch, getElem?_eraseMany, h, if_false]
    rw [hflags]
    simpa only [removeBatch, getElem?_eraseMany, h, if_false] using hex k

theorem exact_removeBatches (keys : List Bytes) (t : Tables) (hex : Exact hashFn t) :
    Exact hashFn (t.removeBatches keys) := by
  fun_induction removeBatches keys t with
  | case1 => exact hex
  | case2 keys t _ ih => exact ih (exact_removeBatch hex _)

theorem exact_removeKeys (hex : Exact hashFn t) (keys : List Bytes) :
    Exact hashFn (t.removeKeys fault keys).2 := by
  unfold removeKeys
  split_ifs
  · exact hex
  · refine withWriteTx_keeps hex fun _ t' h => ?_
    cases h
    exact exact_removeBatches keys t hex

theorem exact_call (hex : Exact hashFn t) (call : StoreCall) :
    Exact hashFn (call.run hashFn fault t).2 := by
  cases call with
  | request r => exact exact_handle hex r
  | importKeys keys values => exact exact_importKeys hex keys values
  | removeKeys keys => exact exact_removeKeys hex keys

theorem exact_runCalls (calls : List (StoreCall × Bool)) (hex : Exact hashFn t) :
    Exact hashFn (t.runCalls hashFn calls) := by
  induction calls generalizing t with
  | nil => exact hex
  | cons c calls ih => exact ih (exact_call hex c.1)

theorem handle_error {r : Request} (h : (t.handle hashFn fault r).1 = .error e) :
    (t.handle hashFn fault r).2 = t := by
  cases r with
  | put key value => exact withWriteTx_error h
  | get key => rfl
  | delete key => exact withWriteTx_error h
  | prefixAppend key child => exact withWriteTx_error h
  | prefixList key => rfl
  | prefixContains key child => rfl
  | prefixRemove key child => exact withWriteTx_error h
  | acquire key ttl now =>
    simp only [handle, acquire] at h ⊢
    rcases hd : durationGuard ttl with _ | td <;> simp only [hd] at h ⊢
    exact withWriteTx_error h
  | renew key ttl now prevToken =>
    simp only [handle, renew] at h ⊢
    rcases hd : durationGuard ttl with _ | td <;> simp only [hd] at h ⊢
    exact withWriteTx_error h
  | release key token => exact withWriteTx_error h

theorem error_of_map_error {f : α → β} {res : Except ChordError α} (h : res.map f = .error e) :
    res = .error e := by
  cases res with
  | error e' => exact congrArg Except.error (Except.error.inj h)
  | ok a => cases h

theorem call_error {call : StoreCall} (h : (call.run hashFn fault t).1 = .error e) :
    (call.run hashFn fault t).2 = t := by
  cases call with
  | request r => exact handle_error h
  | importKeys keys values =>
    have h : (t.importKeys hashFn fault keys values).1 = .error e := error_of_map_error h
    change (t.importKeys hashFn fault keys values).2 = t
    unfold importKeys at h ⊢
    by_cases hlen : keys.length ≠ values.length
    · rw [if_pos hlen]
    · rw [if_neg hlen] at h ⊢
      exact withWriteTx_error h
  | removeKeys keys =>
    have h : (t.removeKeys fault keys).1 = .error e := error_of_map_error h
    change (t.removeKeys fault keys).2 = t
    unfold removeKeys at h ⊢
    by_cases hlen : keys.length = 0
    · rw [if_pos hlen]
    · rw [if_neg hlen] at h ⊢
      exact withWriteTx_error h

/-- After any calls, successful or not, the trackers say exactly which keys have content, of which
kinds, and where they hash to; and a call that returns an error has changed nothing. -/
theorem tracker_exact (hhash : ∀ k, hashFn k < 2 ^ 64) (calls : List (StoreCall × Bool))
    (t : Tables) (ht : t = empty.runCalls hashFn calls) :
    (∀ k, k ∈ t.keyTrackers ↔
      k ∈ t.simpleEntries ∨ (∃ child, child ∈ t.children k) ∨ k ∈ t.leaseEntries) ∧
    (∀ k row, t.keyTrackers[k]? = some row →
      scanInt64AsUint64 row.hash = hashFn k ∧
      (row.flags &&& simpleFlag ≠ 0 ↔ k ∈ t.simpleEntries) ∧
      (row.flags &&& prefixFlag ≠ 0 ↔ ∃ child, child ∈ t.children k) ∧
      (row.flags &&& leaseFlag ≠ 0 ↔ k ∈ t.leaseEntries) ∧
      row.flags &&& ~~~(simpleFlag ||| prefixFlag ||| leaseFlag) = 0) ∧
    ∀ (call : StoreCall) (fault : Bool) (e : ChordError),
      (call.run hashFn fault t).1 = .error e → (call.run hashFn fault t).2 = t := by
  have hex : Exact hashFn t := ht ▸ exact_runCalls calls exact_empty
  have hchild : ∀ k, (∃ child, child ∈ t.children k) ↔ (!(t.children k).isEmpty) = true := by
    intro k
    rw [Bool.not_eq_true', ← Bool.not_eq_true, Std.ExtTreeSet.isEmpty_iff,
      Std.ExtTreeSet.eq_empty_iff_forall_not_mem, not_forall_not]
  refine ⟨fun k => ?_, fun k row hrow => ?_, fun call fault e h => call_error h⟩
  · simp only [Std.ExtTreeMap.mem_iff_isSome_getElem?, hex k, hchild, trackerFor, flagsOf,
      flagBits_eq_zero]
    generalize t.simpleEntries[k]?.isSome = a, (!(t.children k).isEmpty) = b,
      t.leaseEntries[k]?.isSome = c
    cases a <;> cases b <;> cases c <;> simp
  · rw [hex k, trackerFor] at hrow
    split_ifs at hrow with h0
    cases hrow
    simp only [Std.ExtTreeMap.mem_iff_isSome_getElem?]
    rw [hchild, scan_bind (hhash k)]
    exact ⟨rfl, flagBits_names _ _ _⟩

/-- A put, an acquire, a delete that fails and an import that is refused. -/
theorem tracker_exact_after_failures :
    [1] ∈ (empty.runCalls (fun _ => 7) [(.request (.put [1] (some [])), false),
      (.request (.acquire [1] 2000000000 5), false), (.request (.delete [1]), true),
      (.importKeys [[2]] [none], false)]).keyTrackers :=
  ((tracker_exact (fun _ => by decide) _ _ rfl).1 [1]).2 (.inl (by decide +kernel))

end Tables

end Specter
