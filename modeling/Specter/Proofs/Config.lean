import Mathlib.Order.Lattice
import Specter.Config
import Specter.Lib.Results

/-!
# Versions, rows and transactions of the configuration store

The 48 bytes of a version are ordered as the versions are: what a table holds under each name is, as
a number, the maximum of what it held and what is written.
-/

namespace Specter.Config

open Lib

namespace Version

variable (v w : Version)

theorem toNat_lt (n : UInt64) : n.toNat < 256 ^ 8 := n.toNat_lt

def key : ℕ := BigEndian.ofBytes v.bytes

@[simp] theorem length_bytes : v.bytes.length = 48 := by
  simp [bytes]

theorem key_eq : v.key = (v.schema.toNat * 256 ^ 8 + v.revision.toNat) * 256 ^ 32 +
    BigEndian.ofBytes v.digest.toList := by
  have hs : v.schema.toNat % 256 ^ 8 = v.schema.toNat := Nat.mod_eq_of_lt (toNat_lt _)
  have hr : v.revision.toNat % 256 ^ 8 = v.revision.toNat := Nat.mod_eq_of_lt (toNat_lt _)
  rw [key, bytes, BigEndian.ofBytes_append, BigEndian.ofBytes_append, BigEndian.ofBytes_toBytes,
    BigEndian.ofBytes_toBytes, BigEndian.length_toBytes, hs, hr, Vector.length_toList]

theorem compare_eq : v.compare w = Ord.compare v.key w.key := by
  have hv := BigEndian.ofBytes_lt v.digest.toList
  have hw := BigEndian.ofBytes_lt w.digest.toList
  rw [Vector.length_toList] at hv hw
  rw [compare, BigEndian.compareBytes_eq (by simp), key_eq, key_eq,
    BigEndian.compare_mul_add hv hw,
    BigEndian.compare_mul_add (toNat_lt _) (toNat_lt _)]

variable {v w}

theorem key_injective (h : v.key = w.key) : v = w := by
  have hcmp : v.compare w = .eq := by
    rw [compare_eq, h]
    exact Nat.compare_eq_eq.2 rfl
  rw [compare, Ordering.then_eq_eq, Ordering.then_eq_eq,
    BigEndian.compareBytes_eq (by simp)] at hcmp
  obtain ⟨⟨h1, h2⟩, h3⟩ := hcmp
  have hdigest : v.digest.toList = w.digest.toList :=
    BigEndian.ofBytes_injective (by simp) (Nat.compare_eq_eq.1 h3)
  obtain ⟨s, r, d⟩ := v
  obtain ⟨s', r', d'⟩ := w
  simp only [mk.injEq]
  exact ⟨UInt64.toNat_inj.1 (Nat.compare_eq_eq.1 h1), UInt64.toNat_inj.1 (Nat.compare_eq_eq.1 h2),
    Vector.toList_inj.1 hdigest⟩

theorem bytes_injective (h : v.bytes = w.bytes) : v = w :=
  key_injective (congrArg BigEndian.ofBytes h)

theorem key_pos (h : v.schema ≠ 0) : 0 < v.key := by
  have hpos : 0 < v.schema.toNat := Nat.pos_of_ne_zero fun h0 => h (UInt64.toNat_inj.1 h0)
  rw [key_eq]
  exact Nat.add_pos_left (Nat.mul_pos (Nat.add_pos_left
    (Nat.mul_pos hpos (Nat.pow_pos (by decide))) _) (Nat.pow_pos (by decide))) _

theorem decodeVersion_bytes (hs : v.schema ≠ 0) (hr : v.revision ≠ 0) :
    decodeVersion v.bytes = .ok v := by
  have h1 : v.bytes.take 8 = BigEndian.toBytes 8 v.schema.toNat := by
    simp [bytes]
  have h2 : (v.bytes.drop 8).take 8 = BigEndian.toBytes 8 v.revision.toNat := by
    simp [bytes]
  have h3 : v.bytes.drop 16 = v.digest.toList := by
    simp [bytes, List.drop_append]
  have hdec : ∀ n : UInt64, UInt64.ofNat (BigEndian.ofBytes (BigEndian.toBytes 8 n.toNat)) = n := by
    intro n
    rw [BigEndian.ofBytes_toBytes, Nat.mod_eq_of_lt (toNat_lt n), UInt64.ofNat_toNat]
  unfold decodeVersion
  rw [dif_pos v.length_bytes]
  simp only [h1, h2, h3, hdec]
  rw [if_neg (by simp [hs, hr])]
  rfl

theorem bytes_of_decodeVersion {data : Bytes} (h : decodeVersion data = .ok v) :
    data = v.bytes ∧ v.schema ≠ 0 ∧ v.revision ≠ 0 := by
  unfold decodeVersion at h
  split_ifs at h with hlen
  simp only at h
  split_ifs at h with h0
  cases h
  refine ⟨?_, by simpa using h0⟩
  have henc : ∀ bs : Bytes, bs.length = 8 →
      BigEndian.toBytes 8 (UInt64.ofNat (BigEndian.ofBytes bs)).toNat = bs := by
    intro bs hbs
    have hlt := BigEndian.ofBytes_lt bs
    have hback := BigEndian.toBytes_ofBytes bs
    rw [hbs] at hlt hback
    rw [UInt64.toNat_ofNat_of_lt' hlt, hback]
  simp only [bytes]
  rw [henc _ (by simp [hlen]), henc _ (by simp [hlen])]
  have hdrop : data.drop 16 = (data.drop 8).drop 8 := by rw [List.drop_drop]
  simp only [Vector.toList_mk, hdrop, List.append_assoc, List.take_append_drop]

end Version

def Record.row (r : Record) : Row := ⟨r.value, r.version.bytes⟩

theorem Record.ext_row {r d : Record} (hname : r.name = d.name) (h : r.row = d.row) : r = d := by
  obtain ⟨name, version, value⟩ := r
  obtain ⟨name', version', value'⟩ := d
  simp only [Record.row, Row.mk.injEq] at h
  simp only [Record.mk.injEq]
  exact ⟨hname, Version.bytes_injective h.2, h.1⟩

section

variable {sha256 : Bytes → Digest} {encodedLen : Record → ℕ} {r : Record} {t : Table}
  {name : String}

variable (sha256) in
def Record.Valid (r : Record) : Prop := r.validate sha256 = .ok ()

theorem Record.valid_iff : r.Valid sha256 ↔ validName r.name ∧ r.version.schema ≠ 0 ∧
    r.version.revision ≠ 0 ∧ r.value.length ≤ maxValueBytes ∧
    r.version.digest = sha256 r.value := by
  unfold Record.Valid Record.validate
  split_ifs with h1 h2 h3 h4
  · simp_all
  · simp only [false_iff]
    tauto
  · simp only [false_iff]
    omega
  · simp only [false_iff]
    tauto
  · simp only [true_iff]
    exact ⟨by simpa using h1, fun h => h2 (.inl h), fun h => h2 (.inr h), by omega,
      not_not.1 h4⟩

theorem Record.Valid.key_pos (h : r.Valid sha256) : 0 < r.version.key :=
  Version.key_pos (Record.valid_iff.1 h).2.1

theorem Record.Valid.name_ne (h : r.Valid sha256) : r.name ≠ "" := by
  intro h0
  have := (Record.valid_iff.1 h).1
  rw [h0] at this
  exact absurd this (by decide)

theorem newRecord_eq_ok {schema revision : UInt64} {value : Bytes}
    (h : newRecord sha256 name schema revision value = .ok r) :
    r = ⟨name, ⟨schema, revision, sha256 value⟩, value⟩ ∧ r.Valid sha256 := by
  unfold newRecord at h
  split_ifs at h
  obtain ⟨⟨⟩, hvalid, hr⟩ := bind_eq_ok.1 h
  cases hr
  exact ⟨rfl, hvalid⟩

theorem scanRecord_eq_ok {row : Row} :
    scanRecord sha256 name row = .ok r ↔ r.name = name ∧ row = r.row ∧ r.Valid sha256 := by
  unfold scanRecord
  constructor
  · intro h
    obtain ⟨v, hv, h⟩ := bind_eq_ok.1 h
    obtain ⟨⟨⟩, hvalid, hr⟩ := bind_eq_ok.1 h
    cases hr
    refine ⟨rfl, ?_, hvalid⟩
    rw [Record.row, ← (Version.bytes_of_decodeVersion hv).1]
  · rintro ⟨rfl, rfl, hvalid⟩
    obtain ⟨-, hs, hr, -⟩ := Record.valid_iff.1 hvalid
    exact bind_eq_ok.2 ⟨r.version, Version.decodeVersion_bytes hs hr,
      bind_eq_ok.2 ⟨(), hvalid, rfl⟩⟩

theorem readRecord_eq_none : readRecord sha256 t name = .ok none ↔ t[name]? = none := by
  unfold readRecord
  cases t[name]? with
  | none => simp
  | some row =>
    simp only [reduceCtorEq, iff_false]
    intro h
    obtain ⟨r, -, h⟩ := bind_eq_ok.1 h
    cases h

theorem readRecord_eq_some : readRecord sha256 t name = .ok (some r) ↔
    r.name = name ∧ t[name]? = some r.row ∧ r.Valid sha256 := by
  unfold readRecord
  cases t[name]? with
  | none => simp
  | some row =>
    constructor
    · intro h
      obtain ⟨r', hscan, h⟩ := bind_eq_ok.1 h
      cases h
      obtain ⟨hname, rfl, hvalid⟩ := scanRecord_eq_ok.1 hscan
      exact ⟨hname, rfl, hvalid⟩
    · rintro ⟨hname, hrow, hvalid⟩
      exact bind_eq_ok.2 ⟨r, scanRecord_eq_ok.2 ⟨hname, Option.some.inj hrow, hvalid⟩, rfl⟩

section

variable (sha256 encodedLen)

/-- The size of a snapshot with these records after what it has. -/
def sizeWith : Bool → ℕ → List Record → ℕ
  | _, size, [] => size
  | first, size, r :: rest => sizeWith false (addSize encodedLen first size r) rest

def Fits (records : List Record) : Prop :=
  records.length ≤ maxDocuments ∧ sizeWith encodedLen true envelope records ≤ maxSnapshotBytes

def scanned (x : String × Row) : Option Record := (scanRecord sha256 x.1 x.2).toOption

def contents (t : Table) : List Record := t.toList.filterMap (scanned sha256)

def Sound (t : Table) : Prop :=
  ∀ name row, t[name]? = some row → ∃ r, scanRecord sha256 name row = .ok r

end

variable (encodedLen) in
theorem le_sizeWith (first : Bool) (size : ℕ) (records : List Record) :
    size ≤ sizeWith encodedLen first size records := by
  induction records generalizing first size with
  | nil => exact Nat.le_refl _
  | cons r rest ih =>
    have h := ih false (addSize encodedLen first size r)
    rw [addSize] at h
    rw [sizeWith, addSize]
    omega

theorem checkFrom_eq_ok {first : Bool} {size : ℕ} {records : List Record}
    (hsize : size ≤ maxSnapshotBytes) : checkFrom sha256 encodedLen first size records = .ok () ↔
      (∀ r ∈ records, r.Valid sha256) ∧
        sizeWith encodedLen first size records ≤ maxSnapshotBytes := by
  induction records generalizing first size with
  | nil => simp [checkFrom, sizeWith, hsize]
  | cons r rest ih =>
    have hle := le_sizeWith encodedLen false (addSize encodedLen first size r) rest
    rw [checkFrom, bind_eq_ok, sizeWith, List.forall_mem_cons]
    by_cases hfit : addSize encodedLen first size r > maxSnapshotBytes
    · constructor
      · rintro ⟨⟨⟩, -, h⟩
        simp [hfit, throw, throwThe, MonadExceptOf.throw, bind, Except.bind] at h
      · rintro ⟨-, h⟩
        omega
    · simp only [hfit, if_false]
      rw [and_assoc, ← ih (Nat.le_of_not_gt hfit)]
      constructor
      · rintro ⟨⟨⟩, hvalid, h⟩
        exact ⟨hvalid, h⟩
      · rintro ⟨hvalid, h⟩
        exact ⟨(), hvalid, h⟩

theorem checkRecords_eq_ok {records : List Record} :
    checkRecords sha256 encodedLen records = .ok () ↔
      (∀ r ∈ records, r.Valid sha256) ∧ Fits encodedLen records := by
  unfold checkRecords Fits
  split_ifs with h
  · simp only [false_iff]
    omega
  · rw [checkFrom_eq_ok (by decide)]
    constructor
    · rintro ⟨h1, h2⟩
      exact ⟨h1, by omega, h2⟩
    · rintro ⟨h1, -, h2⟩
      exact ⟨h1, h2⟩

theorem readFrom_cons {count size : ℕ} {row : Row} {rows : List (String × Row)}
    {records : List Record} :
    readFrom sha256 encodedLen count size ((name, row) :: rows) = .ok records ↔
      ∃ r rest, scanRecord sha256 name row = .ok r ∧ count ≠ maxDocuments ∧
        addSize encodedLen (count = 0) size r ≤ maxSnapshotBytes ∧
          readFrom sha256 encodedLen (count + 1) (addSize encodedLen (count = 0) size r) rows =
            .ok rest ∧ records = r :: rest := by
  rw [readFrom]
  constructor
  · intro h
    split_ifs at h with hfull
    · cases h
    obtain ⟨r, hscan, h⟩ := bind_eq_ok.1 h
    simp only at h
    split_ifs at h with hfit
    · cases h
    obtain ⟨rest, hrest, h⟩ := bind_eq_ok.1 h
    cases h
    exact ⟨r, rest, hscan, hfull, Nat.le_of_not_gt hfit, hrest, rfl⟩
  · rintro ⟨r, rest, hscan, hfull, hfit, hrest, rfl⟩
    rw [if_neg hfull]
    refine bind_eq_ok.2 ⟨r, hscan, ?_⟩
    simp only [if_neg (Nat.not_lt_of_le hfit)]
    exact bind_eq_ok.2 ⟨rest, hrest, rfl⟩

theorem readFrom_eq_ok {count size : ℕ} {rows : List (String × Row)} {records : List Record}
    (hcount : count ≤ maxDocuments) (hsize : size ≤ maxSnapshotBytes) :
    readFrom sha256 encodedLen count size rows = .ok records ↔
      (∀ x ∈ rows, ∃ r, scanRecord sha256 x.1 x.2 = .ok r) ∧
        records = rows.filterMap (scanned sha256) ∧ count + records.length ≤ maxDocuments ∧
          sizeWith encodedLen (count = 0) size records ≤ maxSnapshotBytes := by
  induction rows generalizing count size records with
  | nil =>
    simp only [readFrom, List.not_mem_nil, false_imp_iff, implies_true, List.filterMap_nil,
      true_and, Except.ok.injEq]
    constructor
    · rintro rfl
      exact ⟨rfl, hcount, hsize⟩
    · rintro ⟨rfl, -⟩
      rfl
  | cons x rows ih =>
    obtain ⟨name, row⟩ := x
    have hcons : ∀ r, scanRecord sha256 name row = .ok r →
        ((name, row) :: rows).filterMap (scanned sha256) =
          r :: rows.filterMap (scanned sha256) := by
      intro r hscan
      rw [List.filterMap_cons, scanned, hscan]
      rfl
    rw [readFrom_cons, List.forall_mem_cons]
    constructor
    · rintro ⟨r, rest, hscan, hfull, hfit, hrest, rfl⟩
      obtain ⟨hrows, rfl, hlen, hsum⟩ := (ih (by omega) hfit).1 hrest
      refine ⟨⟨⟨r, hscan⟩, hrows⟩, (hcons r hscan).symm, ?_, hsum⟩
      rw [List.length_cons]
      omega
    · rintro ⟨⟨⟨r, hscan⟩, hrows⟩, hrecords, hlen, hsum⟩
      rw [hcons r hscan] at hrecords
      subst hrecords
      rw [sizeWith] at hsum
      rw [List.length_cons] at hlen
      have hfit := Nat.le_trans (le_sizeWith _ _ _ _) hsum
      refine ⟨r, _, hscan, by omega, hfit, (ih (by omega) hfit).2 ⟨hrows, rfl, ?_, hsum⟩, rfl⟩
      omega

theorem readRecords_eq_ok {records : List Record} :
    readRecords sha256 encodedLen t = .ok records ↔
      Sound sha256 t ∧ records = contents sha256 t ∧ Fits encodedLen records := by
  rw [readRecords, readFrom_eq_ok (by decide) (by decide)]
  have hsound : (∀ x ∈ t.toList, ∃ r, scanRecord sha256 x.1 x.2 = .ok r) ↔ Sound sha256 t := by
    constructor
    · intro h name row hrow
      exact h (name, row) (Std.ExtTreeMap.mem_toList_iff_getElem?_eq_some.2 hrow)
    · rintro h ⟨name, row⟩ hrow
      exact h name row (Std.ExtTreeMap.mem_toList_iff_getElem?_eq_some.1 hrow)
  rw [hsound, Nat.zero_add]
  rfl

end

end Specter.Config
