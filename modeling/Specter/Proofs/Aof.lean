import Specter.Aof
import Specter.Proofs.Memory

/-!
# What survives a restart

Reading a mutation back from the wire changes one thing only: an empty value becomes no value
(`Mutation.onWire`).  So the memory rebuilt from the log agrees with the live one, up to leases,
except at the keys whose simple value was last written by a Put of an empty value.
-/

namespace Specter

variable (l : List Bytes) {c : Call}

namespace KVTransfer

variable (x : KVTransfer)

theorem foldl_prefixChildren :
    (l.map TransferField.prefixChildren).foldl readField x =
      { x with prefixChildren := x.prefixChildren ++ l } := by
  induction l generalizing x with
  | nil => simp
  | cons b l ih => simp [ih, readField]

theorem unmarshal_marshal : unmarshal x.marshal = x := by
  obtain ⟨simpleValue, prefixChildren, leaseToken⟩ := x
  unfold unmarshal marshal
  simp only [List.foldl_append, foldl_prefixChildren]
  rcases simpleValue with _ | v <;> split_ifs with h <;> simp [readField, h]

end KVTransfer

namespace Mutation

variable (m : Mutation)

/-- A bytes field without presence as it reads back from the wire. -/
def wireValue : Option Bytes → Option Bytes
  | some (b :: bs) => some (b :: bs)
  | some [] | none => none

/-- The mutation as it reads back from the wire. -/
def onWire (m : Mutation) : Mutation := { m with value := wireValue m.value }

theorem foldl_keys :
    (l.map MutationField.keys).foldl readField m = { m with keys := m.keys ++ l } := by
  induction l generalizing m with
  | nil => simp
  | cons b l ih => simp [ih, readField]

theorem foldl_values (l : List KVTransfer) (m : Mutation) :
    (l.map fun x => MutationField.values x.marshal).foldl readField m =
      { m with values := m.values ++ l } := by
  induction l generalizing m with
  | nil => simp
  | cons x l ih => simp [ih, readField, KVTransfer.unmarshal_marshal]

theorem unmarshal_marshal : unmarshal m.marshal = m.onWire := by
  obtain ⟨type, key, value, keys, values⟩ := m
  unfold unmarshal marshal onWire
  simp only [List.foldl_append, foldl_keys, foldl_values]
  rcases value with _ | _ | ⟨b, bs⟩ <;> split_ifs with h h' <;>
    simp_all [readField, blank, wireValue]

end Mutation

theorem LogEntry.unmarshal_marshal (e : LogEntry) : unmarshal e.marshal = e := by
  obtain ⟨version, data, checksum⟩ := e
  unfold unmarshal marshal
  split_ifs with h1 h2 h3 <;> simp_all [readField]

namespace Call

/-- Whether the call writes the simple value of this key. -/
def writesSimple (k : Bytes) : Call → Bool
  | put key _ => key = k
  | delete key => key = k
  | importKeys keys _ => k ∈ keys
  | removeKeys keys => k ∈ keys
  | prefixAppend .. | prefixRemove .. => false

def isEmptyPut : Call → Bool
  | put _ value => value = []
  | _ => false

/-- An import brings a value for every key. -/
def Valid : Call → Prop
  | importKeys keys values => keys.length ≤ values.length
  | _ => True

end Call

/-- Which keys an empty value was last put to, after one more call, given which it was before. -/
def emptied (E : Bytes → Bool) (c : Call) (k : Bytes) : Bool :=
  if c.writesSimple k then c.isEmptyPut else E k

/-- Up to leases, the second memory holds what the first does, except that the empty values at the
keys of `E` are missing. -/
def Agree {hashFn : Bytes → ℕ} (E : Bytes → Bool) (m m' : MemoryKV hashFn) : Prop :=
  ∀ k, (m'.val k).children = (m.val k).children ∧
    if E k then (m.val k).simple = some [] ∧ (m'.val k).simple = none
    else (m'.val k).simple = (m.val k).simple

section Agree

variable {hashFn : Bytes → ℕ} {E : Bytes → Bool} {m m' : MemoryKV hashFn}

theorem agree_importKeys : ∀ (keys : List Bytes) (values : List KVTransfer)
    {E : Bytes → Bool} {m m' : MemoryKV hashFn}, keys.length ≤ values.length → Agree E m m' →
      Agree (fun k => if k ∈ keys then false else E k) (m.importKeys keys values)
        (m'.importKeys keys values)
  | [], _, E, m, m', _, h => by simpa [MemoryKV.importKeys] using h
  | key :: keys, [], _, _, _, hl, _ => by simp at hl
  | key :: keys, x :: values, E, m, m', hl, h => by
    have hstep : Agree (fun k => if k = key then false else E k) (m.importOne key x)
        (m'.importOne key x) := by
      intro k
      simp only [MemoryKV.val_importOne]
      by_cases hk : k = key
      · subst hk
        simp [MemoryKV.merge, (h k).1]
      · simpa [hk, Ne.symm hk] using h k
    have hrest := agree_importKeys keys values (by simpa using hl) hstep
    simp only [MemoryKV.importKeys]
    convert hrest using 2 with k
    by_cases hk : k ∈ keys <;> by_cases hk' : k = key <;> simp [hk, hk']

theorem wireValue_getD (child : Bytes) : (Mutation.wireValue (some child)).getD [] = child := by
  cases child <;> rfl

/-- One logged call, applied to the live memory, and as it reads back to the rebuilt one. -/
theorem agree_handleMutation (c : Call) (hc : c.Valid) (h : Agree E m m') :
    (m'.handleMutation c.mutation.onWire).1 = (m.handleMutation c.mutation).1 ∧
      Agree (emptied E c) (m.handleMutation c.mutation).2
        (m'.handleMutation c.mutation.onWire).2 := by
  cases c with
  | put key value =>
    refine ⟨rfl, fun k => ?_⟩
    simp only [Call.mutation, Mutation.onWire, MemoryKV.handleMutation, MemoryKV.val_put, emptied,
      Call.writesSimple, Call.isEmptyPut, decide_eq_true_eq]
    by_cases hk : key = k
    · subst hk
      rcases value with _ | ⟨b, bs⟩ <;> simp [Mutation.wireValue, (h key).1]
    · simpa [hk] using h k
  | delete key =>
    refine ⟨rfl, fun k => ?_⟩
    simp only [Call.mutation, Mutation.onWire, MemoryKV.handleMutation, MemoryKV.val_delete,
      emptied, Call.writesSimple, Call.isEmptyPut, decide_eq_true_eq]
    by_cases hk : key = k
    · subst hk
      simp [(h key).1]
    · simpa [hk] using h k
  | prefixAppend pfx child =>
    simp only [Call.mutation, Mutation.onWire, MemoryKV.handleMutation, wireValue_getD,
      Option.getD_some]
    by_cases hm : child ∈ (m.val pfx).children
    · have hm' : child ∈ (m'.val pfx).children := (h pfx).1 ▸ hm
      rw [m.prefixAppend_of_mem hm, m'.prefixAppend_of_mem hm']
      exact ⟨rfl, h⟩
    · have hm' : child ∉ (m'.val pfx).children := (h pfx).1 ▸ hm
      obtain ⟨h1, h2⟩ := m.prefixAppend_of_notMem hm
      obtain ⟨h1', h2'⟩ := m'.prefixAppend_of_notMem hm'
      refine ⟨h1'.trans h1.symm, fun k => ?_⟩
      rw [h2, h2']
      by_cases hk : pfx = k
      · subst hk
        simpa [(h pfx).1, emptied, Call.writesSimple] using (h pfx).2
      · simpa [hk, emptied, Call.writesSimple] using h k
  | prefixRemove pfx child =>
    refine ⟨rfl, fun k => ?_⟩
    simp only [Call.mutation, Mutation.onWire, MemoryKV.handleMutation, wireValue_getD,
      Option.getD_some, MemoryKV.val_prefixRemove]
    by_cases hk : pfx = k
    · subst hk
      simpa [(h pfx).1, emptied, Call.writesSimple] using (h pfx).2
    · simpa [hk, emptied, Call.writesSimple] using h k
  | importKeys keys values =>
    have hE : emptied E (.importKeys keys values) = fun k => if k ∈ keys then false else E k := by
      funext k
      simp [emptied, Call.writesSimple, Call.isEmptyPut]
    rw [hE]
    exact ⟨rfl, agree_importKeys keys values hc h⟩
  | removeKeys keys =>
    refine ⟨rfl, fun k => ?_⟩
    simp only [Call.mutation, Mutation.onWire, MemoryKV.handleMutation, MemoryKV.val_removeKeys,
      emptied, Call.writesSimple, Call.isEmptyPut, decide_eq_true_eq]
    by_cases hk : k ∈ keys
    · simp [hk]
    · simpa [hk] using h k

theorem handleMutation_error {e : ChordError} {m₁ : MemoryKV hashFn}
    (h : m.handleMutation c.mutation = (.error e, m₁)) :
    m₁ = m ∧ e = .kvPrefixConflict ∧ ∃ pfx child, c = .prefixAppend pfx child ∧
      child ∈ (m.val pfx).children := by
  cases c with
  | prefixAppend pfx child =>
    simp only [Call.mutation, MemoryKV.handleMutation, Option.getD_some] at h
    by_cases hm : child ∈ (m.val pfx).children
    · rw [m.prefixAppend_of_mem hm] at h
      simp only [Prod.mk.injEq, Except.error.injEq] at h
      exact ⟨h.2.symm, h.1.symm, pfx, child, rfl, hm⟩
    · have := (m.prefixAppend_of_notMem hm).1
      simp [h] at this
  | _ => simp [Call.mutation, MemoryKV.handleMutation] at h

end Agree

namespace DiskKV

variable {hashFn : Bytes → ℕ} {crc : List MutationField → ℕ} {E : Bytes → Bool} {d : DiskKV hashFn}
  {c : Call}

def entryOf (crc : List MutationField → ℕ) (c : Call) : List LogField :=
  LogEntry.marshal ⟨.v1, c.mutation.marshal, crc c.mutation.marshal⟩

theorem replayOne_entryOf (hc : c.Valid) (index : ℕ) (m : MemoryKV hashFn) :
    replayOne crc index (entryOf crc c) m = .ok (m.handleMutation c.mutation.onWire).2 := by
  have hres := (agree_handleMutation (E := fun _ => false) c hc fun k => ⟨rfl, rfl⟩ :
    (m.handleMutation c.mutation.onWire).1 = (m.handleMutation c.mutation).1 ∧ _).1
  unfold replayOne entryOf decodeEntry
  simp only [LogEntry.unmarshal_marshal, ne_eq, not_true_eq_false, if_false,
    Mutation.unmarshal_marshal]
  rcases h : m.handleMutation c.mutation.onWire with ⟨_ | _, m₁⟩
  · rename_i e
    rw [h] at hres
    have herr : m.handleMutation c.mutation = (.error e, (m.handleMutation c.mutation).2) :=
      Prod.ext hres.symm rfl
    obtain ⟨-, rfl, pfx, child, rfl, -⟩ := handleMutation_error herr
    simp [Call.mutation, Mutation.onWire]
  · rfl

theorem replayLogs_append (buf : List LogField) : ∀ (w : Wal) (index : ℕ) (m : MemoryKV hashFn),
    replayLogs crc index (w ++ [buf]) m =
      match replayLogs crc index w m with
      | .error e => .error e
      | .ok m => replayOne crc (index + w.length) buf m
  | [], index, m => by
    simp only [List.nil_append, replayLogs, List.length_nil, Nat.add_zero]
    rcases replayOne crc index buf m with e | m <;> rfl
  | b :: w, index, m => by
    simp only [List.cons_append, replayLogs, List.length_cons]
    rcases replayOne crc index b m with e | m
    · rfl
    · simp only [replayLogs_append buf w (index + 1) m]
      rw [Nat.add_right_comm, Nat.add_assoc]

/-- The counter is at the end of the log, and what the log rebuilds agrees with memory. -/
structure InStep (crc : List MutationField → ℕ) (E : Bytes → Bool) (d : DiskKV hashFn) : Prop where
  counter : d.counter = d.log.length + 1
  replay : ∃ m, replayLogs crc 1 d.log (.withHashFn hashFn) = .ok m ∧ Agree E d.memKv m

theorem inStep_new {log : Wal} (h : new crc hashFn log = .ok d) :
    InStep crc (fun _ => false) d := by
  unfold new at h
  rcases hr : replayLogs crc 1 log (.withHashFn hashFn) with e | m
  · simp [hr] at h
  · simp only [hr, Except.ok.injEq] at h
    subst h
    exact ⟨rfl, m, hr, fun k => ⟨rfl, rfl⟩⟩

section

variable (h : InStep crc E d)

include h

theorem InStep.new : ∃ d', DiskKV.new crc hashFn d.log = .ok d' ∧ Agree E d.memKv d'.memKv := by
  obtain ⟨m, hm, ha⟩ := h.replay
  exact ⟨⟨m, d.log, d.log.lastIndex + 1⟩, by simp [DiskKV.new, hm], ha⟩

theorem InStep.append (hc : c.Valid) :
    ∃ m, replayLogs crc 1 (d.log ++ [entryOf crc c]) (.withHashFn hashFn) = .ok m ∧
      Agree (emptied E c) (d.memKv.handleMutation c.mutation).2 m := by
  obtain ⟨m, hm, ha⟩ := h.replay
  refine ⟨_, ?_, (agree_handleMutation c hc ha).2⟩
  rw [replayLogs_append, hm]
  exact replayOne_entryOf hc _ m

theorem InStep.children (hl : d.log = []) (k : Bytes) : (d.memKv.val k).children = ∅ := by
  obtain ⟨m, hm, ha⟩ := h.replay
  rw [hl] at hm
  simp only [replayLogs, Except.ok.injEq] at hm
  subst hm
  rw [← (ha k).1, MemoryKV.val_withHashFn]
  rfl

theorem appendLog_eq :
    appendLog crc true d c.mutation =
      some ⟨d.memKv, d.log ++ [entryOf crc c], d.counter + 1⟩ := by
  simp [appendLog, Wal.write, Wal.lastIndex, h.counter, entryOf]

theorem mutate_cases (writeOk : Bool) (c : Call) :
    (writeOk = true ∧ ∃ m, d.memKv.handleMutation c.mutation = (.ok (), m) ∧
      mutate crc writeOk d c.mutation =
        (.ok (), ⟨m, d.log ++ [entryOf crc c], d.counter + 1⟩)) ∨
    ∃ e, mutate crc writeOk d c.mutation = (.error e, d) ∧
      (writeOk = true → (d.memKv.handleMutation c.mutation).2 = d.memKv ∧
        ∀ k, c.writesSimple k = false) := by
  cases writeOk with
  | false => exact .inr ⟨.other, rfl, by simp⟩
  | true =>
    unfold mutate
    rw [appendLog_eq h]
    simp only [apply]
    rcases hm : d.memKv.handleMutation c.mutation with ⟨e | _, m⟩
    · obtain ⟨rfl, rfl, pfx, child, rfl, hch⟩ := handleMutation_error hm
      -- the rejected child is in memory, so the log was not empty and can be cut back
      have hne : d.log ≠ [] := fun hl => by
        rw [h.children hl pfx] at hch
        simp at hch
      have hpos : 0 < d.log.length := List.length_pos_iff.2 hne
      refine .inr ⟨.kvPrefixConflict, ?_, fun _ => ⟨rfl, fun _ => rfl⟩⟩
      obtain ⟨memKv, log, counter⟩ := d
      have hcnt : counter = log.length + 1 := h.counter
      subst hcnt
      simp only at hne hpos
      simp only [rollbackOne, Wal.truncateBack, Wal.lastIndex, Nat.add_sub_cancel]
      rw [if_neg (by simp; omega)]
      simp
    · exact .inl ⟨trivial, m, rfl, rfl⟩

theorem mutate_inStep (hc : c.Valid) (writeOk : Bool) :
    InStep crc (if writeOk then emptied E c else E) (mutate crc writeOk d c.mutation).2 := by
  rcases mutate_cases h writeOk c with ⟨rfl, m, hm, heq⟩ | ⟨e, heq, hrej⟩
  · rw [heq]
    obtain ⟨m', hr, ha⟩ := h.append hc
    rw [hm] at ha
    exact ⟨by simp [h.counter], m', hr, ha⟩
  · rw [heq]
    cases writeOk with
    | false => exact h
    | true =>
      have hE : emptied E c = E := by
        funext k
        simp [emptied, (hrej rfl).2 k]
      simpa [hE] using h

end

theorem call_snd (writeOk : Bool) (c : Call) :
    (call crc writeOk d c).2 = (mutate crc writeOk d c.mutation).2 := by
  cases c <;> rfl

end DiskKV

section Reopen

variable {hashFn : Bytes → ℕ} {crc : List MutationField → ℕ} {m : MemoryKV hashFn} {k : Bytes}
  {m' : MemoryKV hashFn}

def HasEntry (m : MemoryKV hashFn) (k : Bytes) : Prop := m.get k ≠ none ∨ m.prefixList k ≠ []

/-- The reads of the provider give the same answers, leases aside. -/
structure SameAnswers (m m' : MemoryKV hashFn) : Prop where
  get : ∀ k, m'.get k = m.get k
  prefixList : ∀ k, m'.prefixList k = m.prefixList k
  prefixContains : ∀ k child, m'.prefixContains k child = m.prefixContains k child
  listKeys : ∀ pfx c, c.type ≠ .lease → (c ∈ m'.listKeys pfx ↔ c ∈ m.listKeys pfx)
  rangeKeys : ∀ low high k,
    (k ∈ m'.rangeKeys low high ∧ HasEntry m' k) ↔ (k ∈ m.rangeKeys low high ∧ HasEntry m k)

def SameUpToLeases (m m' : MemoryKV hashFn) : Prop :=
  ∀ k, (m'.val k).simple = (m.val k).simple ∧ (m'.val k).children = (m.val k).children

theorem hasEntry_iff : HasEntry m k ↔ (m.val k).simple ≠ none ∨ (m.val k).children.toList ≠ [] := by
  rw [HasEntry, MemoryKV.get_eq, MemoryKV.prefixList_eq]

theorem val_ne_of_hasEntry (h : HasEntry m k) : m.val k ≠ .newValue := by
  intro hv
  rw [hasEntry_iff, hv] at h
  simp [KvValue.newValue] at h

theorem SameUpToLeases.sameAnswers (h : SameUpToLeases m m') :
    SameAnswers m m' where
  get k := by rw [MemoryKV.get_eq, MemoryKV.get_eq, (h k).1]
  prefixList k := by rw [MemoryKV.prefixList_eq, MemoryKV.prefixList_eq, (h k).2]
  prefixContains k child := by
    rw [MemoryKV.prefixContains_eq, MemoryKV.prefixContains_eq, (h k).2]
  listKeys pfx c hc := by
    rw [MemoryKV.mem_listKeys, MemoryKV.mem_listKeys, MemoryKV.mem_composites,
      MemoryKV.mem_composites, (h c.key).1, (h c.key).2]
    obtain ⟨key, type⟩ := c
    cases type with
    | lease => exact absurd rfl hc
    | simple => rfl
    | prefixed => rfl
  rangeKeys low high k := by
    have he : HasEntry m' k ↔ HasEntry m k := by
      rw [hasEntry_iff, hasEntry_iff, (h k).1, (h k).2]
    simp only [MemoryKV.mem_rangeKeys]
    constructor
    · rintro ⟨⟨hb, -⟩, hk⟩
      exact ⟨⟨hb, val_ne_of_hasEntry (he.1 hk)⟩, he.1 hk⟩
    · rintro ⟨⟨hb, -⟩, hk⟩
      exact ⟨⟨hb, val_ne_of_hasEntry (he.2 hk)⟩, he.2 hk⟩

theorem agree_false {E : Bytes → Bool} (hE : ∀ k, E k = false) :
    Agree E m m' ↔ SameUpToLeases m m' := by
  refine forall_congr' fun k => ?_
  simp only [hE k, Bool.false_eq_true, if_false]
  exact and_comm

/-- The keys an empty value was last put to, given which before the calls. -/
def emptiedBy (E : Bytes → Bool) : List (Call × Bool) → Bytes → Bool
  | [] => E
  | (c, writeOk) :: cs => emptiedBy (if writeOk then emptied E c else E) cs

/-- An empty value was put to the key, and no later call wrote its simple value. -/
def lastPutEmpty (cs : List (Call × Bool)) (k : Bytes) : Bool := emptiedBy (fun _ => false) cs k

theorem calls_inStep : ∀ (cs : List (Call × Bool)) {E : Bytes → Bool} {d : DiskKV hashFn},
    (∀ c ∈ cs, c.1.Valid) → DiskKV.InStep crc E d →
      DiskKV.InStep crc (emptiedBy E cs) (DiskKV.calls crc d cs)
  | [], _, _, _, h => h
  | (c, writeOk) :: cs, E, d, hv, h => by
    simp only [DiskKV.calls, emptiedBy, DiskKV.call_snd]
    exact calls_inStep cs (fun x hx => hv x (List.mem_cons_of_mem _ hx))
      (DiskKV.mutate_inStep h (hv (c, writeOk) (List.mem_cons_self ..)) writeOk)

/-- A store that is closed and reopened on its log gives the same answers as before exactly when
no key holds an empty value that was put: such a value reads back as no value. -/
theorem reopen_sameAnswers_iff {log : Wal} {d : DiskKV hashFn}
    (h : DiskKV.new crc hashFn log = .ok d) (cs : List (Call × Bool)) (hv : ∀ c ∈ cs, c.1.Valid) :
    ∃ d', DiskKV.new crc hashFn (DiskKV.calls crc d cs).log = .ok d' ∧
      (SameAnswers (DiskKV.calls crc d cs).memKv d'.memKv ↔ ∀ k, lastPutEmpty cs k = false) := by
  obtain ⟨d', hd', ha⟩ := (calls_inStep cs hv (DiskKV.inStep_new h)).new
  refine ⟨d', hd', fun hs k => ?_, fun hE => ((agree_false hE).1 ha).sameAnswers⟩
  by_contra hk
  have hk' : emptiedBy (fun _ => false) cs k = true := by simpa [lastPutEmpty] using hk
  have hget := hs.get k
  have hak := (ha k).2
  rw [if_pos hk'] at hak
  rw [MemoryKV.get_eq, MemoryKV.get_eq, hak.1, hak.2] at hget
  simp at hget

/-- A put value that another Put replaces is recovered; leases and failed calls do not matter. -/
theorem reopen_sameAnswers_iff_put_twice :
    (∀ c ∈ [(Call.put [1] [], true), (Call.put [1] [2], true), (.put [1] [], false)], c.1.Valid) ∧
    ∃ d d', DiskKV.new (fun _ => 0) (fun _ => 0) [] = .ok d ∧
      DiskKV.new (fun _ => 0) (fun _ => 0) (DiskKV.calls (fun _ => 0) d
        [(.put [1] [], true), (.put [1] [2], true), (.put [1] [], false)]).log = .ok d' ∧
      SameAnswers (DiskKV.calls (fun _ => 0) d
        [(.put [1] [], true), (.put [1] [2], true), (.put [1] [], false)]).memKv d'.memKv := by
  have hv : ∀ c ∈ [(Call.put [1] [], true), (Call.put [1] [2], true), (.put [1] [], false)],
      c.1.Valid := by simp [Call.Valid]
  have h₀ : DiskKV.new (fun _ => 0) (fun _ => 0) [] = .ok ⟨.withHashFn _, [], 1⟩ := rfl
  obtain ⟨d', hd', hs⟩ := reopen_sameAnswers_iff h₀ _ hv
  refine ⟨hv, _, d', h₀, hd', hs.2 fun k => ?_⟩
  by_cases hk : [1] = k <;>
    simp [lastPutEmpty, emptiedBy, emptied, Call.writesSimple, Call.isEmptyPut, hk]

/-- An empty value that was put and acknowledged is no value after reopening. -/
theorem reopen_loses_empty_value :
    ∃ d d', DiskKV.new (fun _ => 0) (fun _ => 0) [] = .ok d ∧
      DiskKV.call (fun _ => 0) true d (.put [1] []) = (.ok (), DiskKV.calls (fun _ => 0) d
        [(.put [1] [], true)]) ∧
      (DiskKV.calls (fun _ => 0) d [(.put [1] [], true)]).memKv.get [1] = some [] ∧
      DiskKV.new (fun _ => 0) (fun _ => 0) (DiskKV.calls (fun _ => 0) d
        [(.put [1] [], true)]).log = .ok d' ∧
      d'.memKv.get [1] = none ∧ d'.memKv.listKeys [] = [] ∧
      (DiskKV.calls (fun _ => 0) d [(.put [1] [], true)]).memKv.listKeys [] =
        [⟨[1], .simple⟩] :=
  ⟨_, _, rfl, rfl, by decide, rfl, by decide, by decide, by decide⟩

end Reopen

namespace KvValue

variable (v : KvValue)

theorem acquire_keeps (ttl now : ℤ) :
    (v.acquire ttl now).2.simple = v.simple ∧ (v.acquire ttl now).2.children = v.children := by
  unfold acquire
  split
  · exact ⟨rfl, rfl⟩
  · split
    · exact ⟨rfl, rfl⟩
    · split_ifs <;> exact ⟨rfl, rfl⟩

theorem renew_keeps (ttl now : ℤ) (prevToken : ℕ) :
    (v.renew ttl now prevToken).2.simple = v.simple ∧
      (v.renew ttl now prevToken).2.children = v.children := by
  unfold renew
  split
  · exact ⟨rfl, rfl⟩
  · split
    · exact ⟨rfl, rfl⟩
    · split_ifs <;> exact ⟨rfl, rfl⟩

theorem release_keeps (token : ℕ) :
    (v.release token).2.simple = v.simple ∧ (v.release token).2.children = v.children := by
  unfold release
  split_ifs <;> exact ⟨rfl, rfl⟩

end KvValue

namespace DiskKV

variable {hashFn : Bytes → ℕ} {crc : List MutationField → ℕ} {d : DiskKV hashFn}

/-- A call that memory and its replay treat alike: an import brings a value for every key, and no
empty value is put. -/
def Logged (c : Call) : Prop := c.Valid ∧ c.isEmptyPut = false

def Op.Valid : Op → Prop
  | .call c _ | .crash c _ _ => Logged c
  | .acquire .. | .renew .. | .release .. => True

/-- Log and memory in step, with no empty value put. -/
abbrev Sound (crc : List MutationField → ℕ) (d : DiskKV hashFn) : Prop :=
  InStep crc (fun _ => false) d

theorem emptied_logged (hc : Logged c) : emptied (fun _ => false) c = fun _ => false := by
  funext k
  simp [emptied, hc.2]

theorem sound_mutate (h : Sound crc d) (hc : Logged c) (writeOk : Bool) :
    Sound crc (mutate crc writeOk d c.mutation).2 := by
  have := mutate_inStep h hc.1 writeOk
  rwa [emptied_logged hc, ite_self] at this

theorem sound_lease (h : Sound crc d) {m : MemoryKV hashFn} {key : Bytes} {v : KvValue}
    (hm : ∀ k, m.val k = if key = k then v else d.memKv.val k)
    (hv : v.simple = (d.memKv.val key).simple ∧ v.children = (d.memKv.val key).children) :
    Sound crc { d with memKv := m } := by
  obtain ⟨m', hr, ha⟩ := h.replay
  refine ⟨h.counter, m', hr, fun k => ?_⟩
  have hk := ha k
  rw [hm]
  by_cases hkey : key = k
  · subst hkey
    simpa [hv.1, hv.2] using hk
  · simpa [hkey] using hk

theorem logAtCrash_cases (h : Sound crc d) (c : Call) (writeOk : Bool) (point : CrashPoint) :
    logAtCrash crc writeOk d c point = d.log ∨
      logAtCrash crc writeOk d c point = d.log ++ [entryOf crc c] := by
  cases point with
  | beforeAppend => exact .inl rfl
  | afterRollback =>
    rcases mutate_cases h writeOk c with ⟨-, m, -, heq⟩ | ⟨e, heq, -⟩
    · exact .inr (by simp [logAtCrash, heq])
    · exact .inl (by simp [logAtCrash, heq])
  | _ =>
    cases writeOk with
    | false => exact .inl rfl
    | true => exact .inr (by simp [logAtCrash, appendLog_eq h])

theorem new_logAtCrash (h : Sound crc d) (hc : Logged c) (writeOk : Bool) (point : CrashPoint) :
    ∃ d', DiskKV.new crc hashFn (logAtCrash crc writeOk d c point) = .ok d' ∧
      (SameUpToLeases d.memKv d'.memKv ∨
        SameUpToLeases (d.memKv.handleMutation c.mutation).2 d'.memKv) := by
  rcases logAtCrash_cases h c writeOk point with hl | hl
  · rw [hl]
    obtain ⟨d', hd', ha⟩ := h.new
    exact ⟨d', hd', .inl ((agree_false fun _ => rfl).1 ha)⟩
  · rw [hl]
    obtain ⟨m, hm, ha⟩ := h.append hc.1
    rw [emptied_logged hc] at ha
    exact ⟨⟨m, _, _⟩, by simp only [DiskKV.new, hm]; rfl, .inr ((agree_false fun _ => rfl).1 ha)⟩

theorem op_sound (h : Sound crc d) {o : Op} (ho : o.Valid) :
    ∃ d', op crc d o = .ok d' ∧ Sound crc d' := by
  cases o with
  | call c writeOk =>
    refine ⟨_, rfl, ?_⟩
    rw [call_snd]
    exact sound_mutate h ho writeOk
  | acquire lease ttl now =>
    exact ⟨_, rfl, sound_lease h (d.memKv.acquire_spec lease ttl now).2
      ((d.memKv.val lease).acquire_keeps ttl now)⟩
  | renew lease ttl now prevToken =>
    exact ⟨_, rfl, sound_lease h (d.memKv.renew_spec lease ttl now prevToken).2
      ((d.memKv.val lease).renew_keeps ttl now prevToken)⟩
  | release lease token =>
    exact ⟨_, rfl, sound_lease h (d.memKv.release_spec lease token).2
      ((d.memKv.val lease).release_keeps token)⟩
  | crash c writeOk point =>
    obtain ⟨d', hd', -⟩ := new_logAtCrash h ho writeOk point
    exact ⟨d', hd', inStep_new hd'⟩

theorem ops_sound : ∀ (os : List Op) {d : DiskKV hashFn}, (∀ o ∈ os, o.Valid) → Sound crc d →
    ∃ d', ops crc d os = .ok d' ∧ Sound crc d'
  | [], d, _, h => ⟨d, rfl, h⟩
  | o :: os, d, hv, h => by
    obtain ⟨d₁, h₁, hs₁⟩ := op_sound h (hv o (List.mem_cons_self ..))
    obtain ⟨d₂, h₂, hs₂⟩ := ops_sound os (fun x hx => hv x (List.mem_cons_of_mem _ hx)) hs₁
    exact ⟨d₂, by simp only [ops, h₁, h₂], hs₂⟩

/-- Through any mutations, failed writes, rejections and crashes: the counter is one past the log,
memory is what the log rebuilds, a failed mutation changes nothing, and a crash loses nothing but
possibly the mutation in flight. -/
theorem log_and_memory_in_step (os : List Op) (hv : ∀ o ∈ os, o.Valid) :
    ∃ d₀ d : DiskKV hashFn, DiskKV.new crc hashFn [] = .ok d₀ ∧ ops crc d₀ os = .ok d ∧
      d.counter = d.log.lastIndex + 1 ∧
      (∃ d', DiskKV.new crc hashFn d.log = .ok d' ∧ SameUpToLeases d.memKv d'.memKv) ∧
      (∀ c writeOk e, (mutate crc writeOk d (Call.mutation c)).1 = .error e →
        (mutate crc writeOk d c.mutation).2 = d) ∧
      ∀ c writeOk point, Logged c →
        ∃ d', DiskKV.new crc hashFn (logAtCrash crc writeOk d c point) = .ok d' ∧
          (SameUpToLeases d.memKv d'.memKv ∨
            SameUpToLeases (d.memKv.handleMutation c.mutation).2 d'.memKv) := by
  have h₀ : DiskKV.new crc hashFn [] = .ok ⟨.withHashFn hashFn, [], 1⟩ := rfl
  obtain ⟨d, hd, hs⟩ := ops_sound os hv (inStep_new h₀)
  refine ⟨_, d, h₀, hd, hs.counter, ?_, fun c writeOk e he => ?_, fun c writeOk point hc =>
    new_logAtCrash hs hc writeOk point⟩
  · obtain ⟨d', hd', ha⟩ := hs.new
    exact ⟨d', hd', (agree_false fun _ => rfl).1 ha⟩
  · rcases mutate_cases hs writeOk c with ⟨-, m, -, heq⟩ | ⟨e', heq, -⟩
    · rw [heq] at he
      simp at he
    · rw [heq]

/-- A rejected append that a crash leaves in the log. -/
theorem log_and_memory_in_step_rejected_append :
    (∀ o ∈ [Op.call (.prefixAppend [1] [2]) true, .call (.prefixAppend [1] [2]) true,
      .crash (.prefixAppend [1] [2]) true .afterApply, .call (.put [1] [3]) false], o.Valid) ∧
    ∃ d₀ d : DiskKV (fun _ => 0), DiskKV.new (fun _ => 0) (fun _ => 0) [] = .ok d₀ ∧
      ops (fun _ => 0) d₀ [.call (.prefixAppend [1] [2]) true, .call (.prefixAppend [1] [2]) true,
        .crash (.prefixAppend [1] [2]) true .afterApply, .call (.put [1] [3]) false] = .ok d ∧
      d.counter = d.log.lastIndex + 1 := by
  have hv : ∀ o ∈ [Op.call (.prefixAppend [1] [2]) true, .call (.prefixAppend [1] [2]) true,
      .crash (.prefixAppend [1] [2]) true .afterApply, .call (.put [1] [3]) false], o.Valid := by
    simp [Op.Valid, Logged, Call.Valid, Call.isEmptyPut]
  obtain ⟨d₀, d, h₀, hd, hc, -⟩ :=
    @log_and_memory_in_step (fun _ => 0) (fun _ => 0) _ hv
  exact ⟨hv, d₀, d, h₀, hd, hc⟩

end DiskKV

end Specter
