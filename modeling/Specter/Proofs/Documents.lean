import Mathlib.Logic.Function.Basic
import Specter.Proofs.Config

/-!
# What a replica holds

With each version read as a number, writing records to a table takes the maximum.  Two tables with
the same numbers hold the same documents, unless the digest has collisions.
-/

namespace Specter.Config

open Lib

variable {current : Option Record} {e : Error}

/-- The version under each name as a number, 0 if there is none. -/
def keys (t : Table) (name : String) : ℕ :=
  (t[name]?.map fun row => BigEndian.ofBytes row.version).getD 0

def Record.keys (r : Record) (name : String) : ℕ := if name = r.name then r.version.key else 0

def keysOf : List Record → String → ℕ
  | [] => fun _ => 0
  | r :: rest => r.keys ⊔ keysOf rest

theorem Record.keys_le_iff {r : Record} {b : String → ℕ} :
    r.keys ≤ b ↔ r.version.key ≤ b r.name := by
  constructor
  · intro h
    simpa [Record.keys] using h r.name
  · intro h name
    unfold Record.keys
    split_ifs with hname
    · rwa [hname]
    · exact Nat.zero_le _

theorem keysOf_le_iff {records : List Record} {b : String → ℕ} :
    keysOf records ≤ b ↔ ∀ r ∈ records, r.version.key ≤ b r.name := by
  induction records with
  | nil => simp [keysOf, Pi.le_def]
  | cons r rest ih => rw [keysOf, sup_le_iff, ih, Record.keys_le_iff, List.forall_mem_cons]

theorem le_keysOf {r : Record} {records : List Record} (h : r ∈ records) :
    r.version.key ≤ keysOf records r.name :=
  keysOf_le_iff.1 (le_refl (keysOf records)) r h

theorem keysOf_append (xs ys : List Record) : keysOf (xs ++ ys) = keysOf xs ⊔ keysOf ys := by
  refine le_antisymm ?_ (sup_le ?_ ?_)
  all_goals
    simp only [keysOf_le_iff, List.mem_append]
  · rintro r (hr | hr)
    · exact le_sup_of_le_left (le_keysOf hr)
    · exact le_sup_of_le_right (le_keysOf hr)
  · exact fun r hr => le_keysOf (List.mem_append_left _ hr)
  · exact fun r hr => le_keysOf (List.mem_append_right _ hr)

namespace Version

variable {v w : Version}

theorem compare_eq_gt : v.compare w = .gt ↔ w.key < v.key := by
  rw [compare_eq, Nat.compare_eq_gt]

theorem compare_ne_gt : v.compare w ≠ .gt ↔ v.key ≤ w.key := by
  rw [Ne, compare_eq_gt, Nat.not_lt]

theorem compare_ne_lt : v.compare w ≠ .lt ↔ w.key ≤ v.key := by
  rw [compare_eq, Ne, Nat.compare_eq_lt, Nat.not_lt]

end Version

variable {sha256 : Bytes → Digest} {encodedLen : Record → ℕ} {r : Record} {t u : Table}
  {name : String} {records : List Record}

theorem keys_of_row (h : t[name]? = some r.row) : keys t name = r.version.key := by
  rw [keys, h]
  rfl

theorem keys_insert :
    keys (t.insert r.name r.row) = Function.update (keys t) r.name r.version.key := by
  funext name
  rw [Function.update_apply]
  split_ifs with hname
  · rw [hname]
    exact keys_of_row (by simp)
  · rw [keys, Std.ExtTreeMap.getElem?_insert, if_neg (by simpa using Ne.symm hname), keys]

theorem keys_of_read (h : readRecord sha256 t name = .ok current) :
    keys t name = (current.map fun r => r.version.key).getD 0 := by
  cases current with
  | none =>
    rw [keys, readRecord_eq_none.1 h]
    rfl
  | some r => exact keys_of_row (readRecord_eq_some.1 h).2.1

theorem Sound.row (ht : Sound sha256 t) {row : Row} (h : t[name]? = some row) :
    ∃ r : Record, r.name = name ∧ row = r.row ∧ r.Valid sha256 := by
  obtain ⟨r, hr⟩ := ht name row h
  exact ⟨r, scanRecord_eq_ok.1 hr⟩

theorem Sound.read (ht : Sound sha256 t) (name : String) :
    readRecord sha256 t name = .ok none ∧ keys t name = 0 ∨
      ∃ r, readRecord sha256 t name = .ok (some r) ∧ keys t name = r.version.key := by
  cases hrow : t[name]? with
  | none => exact .inl ⟨readRecord_eq_none.2 hrow, by rw [keys, hrow]; rfl⟩
  | some row =>
    obtain ⟨r, hname, rfl, hvalid⟩ := ht.row hrow
    exact .inr ⟨r, readRecord_eq_some.2 ⟨hname, hrow, hvalid⟩, keys_of_row hrow⟩

theorem Sound.insert (ht : Sound sha256 t) (hr : r.Valid sha256) :
    Sound sha256 (t.insert r.name r.row) := by
  intro name row hrow
  rw [Std.ExtTreeMap.getElem?_insert] at hrow
  split_ifs at hrow with hname
  · have hname : r.name = name := by simpa using hname
    exact ⟨r, scanRecord_eq_ok.2 ⟨hname, (Option.some.inj hrow).symm, hr⟩⟩
  · exact ht name row hrow

theorem writeRecord_eq (t : Table) (r : Record) :
    writeRecord t r = (1, t.insert r.name r.row) ∨ writeRecord t r = (0, t) := by
  unfold writeRecord
  split
  · exact .inl rfl
  · split_ifs
    · exact .inl rfl
    · exact .inr rfl

section

variable (ht : Sound sha256 t)

include ht

theorem writeRecord_cases (hr : r.Valid sha256) :
    keys t r.name < r.version.key ∧ writeRecord t r = (1, t.insert r.name r.row) ∨
      r.version.key ≤ keys t r.name ∧ writeRecord t r = (0, t) := by
  unfold writeRecord
  cases hrow : t[r.name]? with
  | none =>
    rw [keys, hrow]
    exact .inl ⟨hr.key_pos, rfl⟩
  | some row =>
    obtain ⟨r', -, rfl, -⟩ := ht.row hrow
    have hlen : r.version.bytes.length = r'.row.version.length := by simp [Record.row]
    simp only [BigEndian.compareBytes_eq hlen, Nat.compare_eq_gt, keys_of_row hrow]
    rcases Nat.lt_or_ge r'.version.key r.version.key with hlt | hge
    · exact .inl ⟨hlt, if_pos hlt⟩
    · exact .inr ⟨hge, if_neg (Nat.not_lt_of_le hge)⟩

theorem sound_writeRecord (hr : r.Valid sha256) : Sound sha256 (writeRecord t r).2 := by
  rcases writeRecord_cases ht hr with ⟨-, h⟩ | ⟨-, h⟩
  · rw [h]
    exact ht.insert hr
  · rw [h]
    exact ht

theorem keys_writeRecord (hr : r.Valid sha256) : keys (writeRecord t r).2 = keys t ⊔ r.keys := by
  funext name
  rw [Pi.sup_apply, Record.keys]
  rcases writeRecord_cases ht hr with ⟨hlt, h⟩ | ⟨hle, h⟩
  · rw [h, keys_insert, Function.update_apply]
    split_ifs with hname
    · rw [hname, sup_eq_right.2 hlt.le]
    · rw [sup_eq_left.2 (Nat.zero_le _)]
  · rw [h]
    split_ifs with hname
    · rw [hname, sup_eq_left.2 hle]
    · rw [sup_eq_left.2 (Nat.zero_le _)]

theorem sound_writeRecords (hr : ∀ r ∈ records, r.Valid sha256) :
    Sound sha256 (writeRecords records t).2 := by
  induction records generalizing t with
  | nil => exact ht
  | cons r rest ih =>
    rw [List.forall_mem_cons] at hr
    exact ih (sound_writeRecord ht hr.1) hr.2

theorem keys_writeRecords (hr : ∀ r ∈ records, r.Valid sha256) :
    keys (writeRecords records t).2 = keys t ⊔ keysOf records := by
  induction records generalizing t with
  | nil =>
    funext name
    exact (sup_eq_left.2 (Nat.zero_le _)).symm
  | cons r rest ih =>
    rw [List.forall_mem_cons] at hr
    have h := ih (sound_writeRecord ht hr.1) hr.2
    rw [keys_writeRecord ht hr.1, sup_assoc] at h
    exact h

end

theorem writeRecords_unchanged (h : (writeRecords records t).1 = false) :
    (writeRecords records t).2 = t := by
  induction records generalizing t with
  | nil => rfl
  | cons r rest ih =>
    simp only [writeRecords, Bool.or_eq_false_iff, decide_eq_false_iff_not, not_not] at h ⊢
    rcases writeRecord_eq t r with hwrite | hwrite
    · rw [hwrite] at h
      cases h.1
    · rw [hwrite] at h ⊢
      exact ih h.2

theorem row_of_writeRecords {row : Row} (h : (writeRecords records t).2[name]? = some row) :
    t[name]? = some row ∨ ∃ r ∈ records, r.name = name ∧ row = r.row := by
  induction records generalizing t with
  | nil => exact .inl h
  | cons r rest ih =>
    rcases ih (t := (writeRecord t r).2) h with h | ⟨r', hr', h⟩
    · rcases writeRecord_eq t r with hwrite | hwrite
      · rw [hwrite, Std.ExtTreeMap.getElem?_insert] at h
        split_ifs at h with hname
        · exact .inr ⟨r, List.mem_cons_self, by simpa using hname, (Option.some.inj h).symm⟩
        · exact .inl h
      · rw [hwrite] at h
        exact .inl h
    · exact .inr ⟨r', List.mem_cons_of_mem _ hr', h⟩

variable (sha256 encodedLen) in
def Readable (t : Table) : Prop := Sound sha256 t ∧ Fits encodedLen (contents sha256 t)

variable (sha256 encodedLen) in
/-- The records are written in a transaction. -/
structure Takes (t : Table) (records : List Record) (t' : Table) : Prop where
  valid : ∀ r ∈ records, r.Valid sha256
  before : Readable sha256 encodedLen t
  after : Readable sha256 encodedLen t'
  eq : t' = (writeRecords records t).2

theorem readRecords_of_readable (h : Readable sha256 encodedLen t) :
    readRecords sha256 encodedLen t = .ok (contents sha256 t) :=
  readRecords_eq_ok.2 ⟨h.1, rfl, h.2⟩

theorem readable_of_readRecords (h : readRecords sha256 encodedLen t = .ok records) :
    Readable sha256 encodedLen t := by
  obtain ⟨hsound, rfl, hfits⟩ := readRecords_eq_ok.1 h
  exact ⟨hsound, hfits⟩

section

variable {α : Type} {commit : Commit} {change : Table → Except Error (α × Bool × Table)} {a : α}

variable (sha256 encodedLen) in
theorem write_cases (commit : Commit) (change : Table → Except Error (α × Bool × Table))
    (t : Table) : (∃ e, write sha256 encodedLen commit change t = (.error e, t)) ∨
      ∃ a p, change t = .ok (a, p) ∧ Readable sha256 encodedLen t ∧
        (p.1 = false ∧ write sha256 encodedLen commit change t = (.ok a, t) ∨
          p.1 = true ∧ Readable sha256 encodedLen p.2 ∧
            ∃ result, write sha256 encodedLen commit change t = (result, p.2) ∧
              (result = .ok a ∨ result = .error .durabilityUncertain ∧ commit ≠ .done)) := by
  unfold write
  split
  next e h => exact .inl ⟨e, rfl⟩
  next rs hread =>
    split
    next e h => exact .inl ⟨e, rfl⟩
    next a u h => exact .inr ⟨a, (false, u), h, readable_of_readRecords hread, .inl ⟨rfl, rfl⟩⟩
    next a u h =>
      split
      next e h => exact .inl ⟨e, rfl⟩
      next rs' hread' =>
        have hok := readable_of_readRecords hread'
        split
        next => exact .inr ⟨a, (true, u), h, readable_of_readRecords hread,
            .inr ⟨rfl, hok, _, rfl, .inl rfl⟩⟩
        next kept =>
          cases kept with
          | false => exact .inl ⟨_, rfl⟩
          | true => exact .inr ⟨a, (true, u), h, readable_of_readRecords hread,
              .inr ⟨rfl, hok, _, rfl, .inr ⟨rfl, by simp⟩⟩⟩

theorem write_ok (h : write sha256 encodedLen commit change t = (.ok a, u))
    (hchange : ∀ p, change t = .ok (a, p) →
      p = writeRecords records t ∧ ∀ r ∈ records, r.Valid sha256) :
    (∃ p, change t = .ok (a, p)) ∧ Takes sha256 encodedLen t records u := by
  rcases write_cases sha256 encodedLen commit change t with
    ⟨e, he⟩ | ⟨a', p, hp, ht, ⟨hsame, hw⟩ | ⟨-, hp2, result, hw, hresult⟩⟩
  · rw [h] at he
    cases he
  · rw [h] at hw
    cases hw
    obtain ⟨rfl, hvalid⟩ := hchange p hp
    exact ⟨⟨_, hp⟩, hvalid, ht, ht, (writeRecords_unchanged hsame).symm⟩
  · rw [h] at hw
    cases hw
    rcases hresult with hr | ⟨hr, -⟩ <;> cases hr
    obtain ⟨rfl, hvalid⟩ := hchange p hp
    exact ⟨⟨_, hp⟩, hvalid, ht, hp2, rfl⟩

theorem write_error (h : write sha256 encodedLen commit change t = (.error e, u))
    (hc : e ≠ .durabilityUncertain ∨ commit = .done) : u = t := by
  rcases write_cases sha256 encodedLen commit change t with
    ⟨e, he⟩ | ⟨a', p, -, -, ⟨-, hw⟩ | ⟨-, -, result, hw, hresult⟩⟩
  · rw [h] at he
    exact congrArg Prod.snd he
  · rw [h] at hw
    cases hw
  · rw [h] at hw
    cases hw
    rcases hresult with hr | ⟨hr, hcommit⟩
    · cases hr
    · cases hr
      rcases hc with hc | hc
      exacts [absurd rfl hc, absurd hc hcommit]

theorem write_takes (writes : α → List Record) (hchange : ∀ a p, change t = .ok (a, p) →
      p = writeRecords (writes a) t ∧ ∀ r ∈ writes a, r.Valid sha256) :
    (write sha256 encodedLen commit change t).2 = t ∨ ∃ a,
      Takes sha256 encodedLen t (writes a) (write sha256 encodedLen commit change t).2 := by
  rcases write_cases sha256 encodedLen commit change t with
    ⟨e, he⟩ | ⟨a, p, hp, ht, ⟨-, hw⟩ | ⟨-, hp2, result, hw, -⟩⟩
  · exact .inl (by rw [he])
  · exact .inl (by rw [hw])
  · obtain ⟨rfl, hvalid⟩ := hchange a p hp
    refine .inr ⟨a, hvalid, ht, ?_, ?_⟩ <;> rw [hw]
    exact hp2

end

theorem table_ext (ht : Sound sha256 t) (hu : Sound sha256 u) (hkeys : keys t = keys u)
    (hcoll : ∀ name r d, readRecord sha256 t name = .ok (some r) →
      readRecord sha256 u name = .ok (some d) → sha256 r.value = sha256 d.value →
        r.value = d.value) : t = u := by
  refine Std.ExtTreeMap.ext_getElem? fun name => ?_
  have hname := congrFun hkeys name
  rcases ht.read name with ⟨hr, hzero⟩ | ⟨r, hr, hkey⟩
  · rcases hu.read name with ⟨hd, -⟩ | ⟨d, hd, hkey⟩
    · rw [readRecord_eq_none.1 hr, readRecord_eq_none.1 hd]
    · have := (readRecord_eq_some.1 hd).2.2.key_pos
      omega
  · obtain ⟨-, hrow, hvalid⟩ := readRecord_eq_some.1 hr
    rcases hu.read name with ⟨-, hzero⟩ | ⟨d, hd, hkey'⟩
    · have := hvalid.key_pos
      omega
    · obtain ⟨-, hrow', hvalid'⟩ := readRecord_eq_some.1 hd
      have hversion : r.version = d.version :=
        Version.key_injective (hkey.symm.trans (hname.trans hkey'))
      have hdigest : sha256 r.value = sha256 d.value := by
        rw [← (Record.valid_iff.1 hvalid).2.2.2.2, ← (Record.valid_iff.1 hvalid').2.2.2.2, hversion]
      rw [hrow, hrow', Record.row, Record.row, hversion, hcoll name r d hr hd hdigest]

theorem mem_contents : r ∈ contents sha256 t ↔ readRecord sha256 t r.name = .ok (some r) := by
  have hscan : ∀ x : String × Row, scanned sha256 x = some r ↔
      r.name = x.1 ∧ x.2 = r.row ∧ r.Valid sha256 := by
    intro x
    rw [← scanRecord_eq_ok, scanned]
    cases scanRecord sha256 x.1 x.2 with
    | error e => simp [Except.toOption]
    | ok d => simp [Except.toOption]
  rw [contents, List.mem_filterMap, readRecord_eq_some]
  constructor
  · rintro ⟨⟨name, row⟩, hmem, h⟩
    obtain ⟨rfl, rfl, hvalid⟩ := (hscan _).1 h
    exact ⟨rfl, Std.ExtTreeMap.mem_toList_iff_getElem?_eq_some.1 hmem, hvalid⟩
  · rintro ⟨-, hrow, hvalid⟩
    exact ⟨(r.name, r.row), Std.ExtTreeMap.mem_toList_iff_getElem?_eq_some.2 hrow,
      (hscan _).2 ⟨rfl, rfl, hvalid⟩⟩

theorem keysOf_contents (ht : Sound sha256 t) : keysOf (contents sha256 t) = keys t := by
  refine le_antisymm (keysOf_le_iff.2 fun r hr => ?_) fun name => ?_
  · exact (keys_of_row (readRecord_eq_some.1 (mem_contents.1 hr)).2.1).ge
  · rcases ht.read name with ⟨-, hzero⟩ | ⟨r, hr, hkey⟩
    · rw [hzero]
      exact Nat.zero_le _
    · have hname := (readRecord_eq_some.1 hr).1
      rw [hkey, ← hname]
      exact le_keysOf (mem_contents.2 (hname.symm ▸ hr))

theorem Takes.keys_eq (h : Takes sha256 encodedLen t records u) :
    keys u = keys t ⊔ keysOf records := by
  rw [h.eq, keys_writeRecords h.before.1 h.valid]

theorem Takes.read_from (h : Takes sha256 encodedLen t records u) {e : Record}
    (hread : readRecord sha256 u name = .ok (some e)) :
    e ∈ records ∨ readRecord sha256 t name = .ok (some e) := by
  obtain ⟨hname, hrow, hvalid⟩ := readRecord_eq_some.1 hread
  rw [h.eq] at hrow
  rcases row_of_writeRecords hrow with hrow | ⟨r, hr, hrname, hrow⟩
  · exact .inr (readRecord_eq_some.2 ⟨hname, hrow, hvalid⟩)
  · rw [Record.ext_row (hname.trans hrname.symm) hrow]
    exact .inl hr

theorem Takes.read_ge (h : Takes sha256 encodedLen t records u)
    (hr : r ∈ records ∨ readRecord sha256 t r.name = .ok (some r)) :
    ∃ e, readRecord sha256 u r.name = .ok (some e) ∧
      (e ∈ records ∨ readRecord sha256 t r.name = .ok (some e)) ∧
        r.version.key ≤ e.version.key := by
  have hkey : r.Valid sha256 ∧ r.version.key ≤ keys u r.name := by
    rw [h.keys_eq, Pi.sup_apply]
    rcases hr with hr | hr
    · exact ⟨h.valid r hr, le_sup_of_le_right (le_keysOf hr)⟩
    · obtain ⟨-, hrow, hvalid⟩ := readRecord_eq_some.1 hr
      exact ⟨hvalid, le_sup_of_le_left (keys_of_row hrow).ge⟩
  rcases h.after.1.read r.name with ⟨-, hzero⟩ | ⟨e, hread, he⟩
  · have := hkey.1.key_pos
    omega
  · exact ⟨e, hread, h.read_from hread, hkey.2.trans he.le⟩

section

variable {commit : Commit} {schema : UInt64} {value : Bytes} {expectedToken : String}
  {p : Bool × Table}

theorem nextRecord_valid (h : nextRecord sha256 name schema value current = .ok r) :
    r.name = name ∧ r.Valid sha256 := by
  have hnew : ∀ revision, newRecord sha256 name schema revision value = .ok r →
      r.name = name ∧ r.Valid sha256 := by
    intro revision h
    obtain ⟨rfl, hvalid⟩ := newRecord_eq_ok h
    exact ⟨rfl, hvalid⟩
  cases current with
  | none => exact hnew _ h
  | some d =>
    rw [nextRecord] at h
    split_ifs at h
    exact hnew _ h

theorem putChange_eq_ok (h : putChange sha256 name schema value expectedToken t = .ok (r, p)) :
    p = writeRecords [r] t ∧ ∃ current, readRecord sha256 t name = .ok current ∧
      currentToken current = expectedToken ∧
        nextRecord sha256 name schema value current = .ok r := by
  obtain ⟨current, hread, h⟩ := bind_eq_ok.1 h
  split_ifs at h with htoken
  · cases h
  · obtain ⟨r', hnext, h⟩ := bind_eq_ok.1 h
    cases h
    exact ⟨rfl, current, hread, not_not.1 htoken, hnext⟩

theorem putChange_writes (h : putChange sha256 name schema value expectedToken t = .ok (r, p)) :
    p = writeRecords [r] t ∧ ∀ r' ∈ [r], r'.Valid sha256 := by
  obtain ⟨rfl, current, -, -, hnext⟩ := putChange_eq_ok h
  refine ⟨rfl, fun r' hr' => ?_⟩
  rw [List.mem_singleton.1 hr']
  exact (nextRecord_valid hnext).2

theorem put_ok (h : put sha256 encodedLen commit name schema value expectedToken t = (.ok r, u)) :
    Takes sha256 encodedLen t [r] u ∧ ∃ current, readRecord sha256 t name = .ok current ∧
      currentToken current = expectedToken ∧
        nextRecord sha256 name schema value current = .ok r := by
  obtain ⟨⟨p, hp⟩, htakes⟩ := write_ok h fun p hp => putChange_writes hp
  exact ⟨htakes, (putChange_eq_ok hp).2⟩

variable (sha256 encodedLen) in
theorem put_takes (commit : Commit) (name : String) (schema : UInt64) (value : Bytes)
    (expectedToken : String) (t : Table) :
    (put sha256 encodedLen commit name schema value expectedToken t).2 = t ∨
      ∃ r, Takes sha256 encodedLen t [r]
        (put sha256 encodedLen commit name schema value expectedToken t).2 :=
  write_takes _ fun _ _ => putChange_writes

theorem merge_ok (h : merge sha256 encodedLen commit records t = (.ok (), u)) :
    Takes sha256 encodedLen t records u := by
  unfold merge at h
  split at h
  · cases h
  next hcheck =>
    have hvalid := (checkRecords_eq_ok.1 hcheck).1
    refine (write_ok h fun p hp => ?_).2
    cases hp
    exact ⟨rfl, hvalid⟩

variable (sha256 encodedLen) in
theorem merge_takes (commit : Commit) (records : List Record) (t : Table) :
    (merge sha256 encodedLen commit records t).2 = t ∨
      Takes sha256 encodedLen t records (merge sha256 encodedLen commit records t).2 := by
  unfold merge
  split
  · exact .inl rfl
  next hcheck =>
    refine (write_takes (fun _ => records) fun a p hp => ?_).imp_right
      fun ⟨_, h⟩ => h
    cases hp
    exact ⟨rfl, (checkRecords_eq_ok.1 hcheck).1⟩

theorem put_error
    (h : put sha256 encodedLen commit name schema value expectedToken t = (.error e, u))
    (hc : e ≠ .durabilityUncertain ∨ commit = .done) : u = t :=
  write_error h hc

theorem merge_error (h : merge sha256 encodedLen commit records t = (.error e, u))
    (hc : e ≠ .durabilityUncertain ∨ commit = .done) : u = t := by
  unfold merge at h
  split at h
  · exact (congrArg Prod.snd h).symm
  · exact write_error h hc

theorem init_error (h : init sha256 encodedLen commit records t = (.error e, u))
    (hc : e ≠ .durabilityUncertain ∨ commit = .done) : u = t := by
  unfold init at h
  split_ifs at h
  · exact (congrArg Prod.snd h).symm
  split at h
  · exact (congrArg Prod.snd h).symm
  · exact write_error h hc

theorem merge_done (ht : Readable sha256 encodedLen t)
    (hcheck : checkRecords sha256 encodedLen records = .ok ())
    (hfits : Fits encodedLen (contents sha256 (writeRecords records t).2)) :
    (merge sha256 encodedLen .done records t).1 = .ok () := by
  have hafter : Readable sha256 encodedLen (writeRecords records t).2 :=
    ⟨sound_writeRecords ht.1 (checkRecords_eq_ok.1 hcheck).1, hfits⟩
  rw [merge, hcheck]
  simp only [write, readRecords_of_readable ht]
  cases hchanged : (writeRecords records t).1 with
  | false => rw [← Prod.eta (writeRecords records t), hchanged]
  | true =>
    rw [← Prod.eta (writeRecords records t), hchanged]
    simp only [readRecords_of_readable hafter]

variable (sha256 encodedLen) in
theorem init_takes (commit : Commit) (records : List Record) (t : Table) :
    (init sha256 encodedLen commit records t).2 = t ∨
      Takes sha256 encodedLen t records (init sha256 encodedLen commit records t).2 := by
  unfold init
  split_ifs
  · exact .inl rfl
  split
  · exact .inl rfl
  next hcheck =>
    refine (write_takes (fun _ => records) fun a p hp => ?_).imp_right
      fun ⟨_, h⟩ => h
    split_ifs at hp
    cases hp
    exact ⟨rfl, (checkRecords_eq_ok.1 hcheck).1⟩

end

end Specter.Config
