import Specter.Codec
import Specter.Proofs.Documents

/-!
# Every committed configuration can be synced

The size that a transaction adds up is the size of the text that is sent (`textSize_snapshot`), and
that text reads back as the records.  No transaction commits a table that it cannot read within the
limits, so what a store holds can always be sent.
-/

namespace Specter.Config

open Lib

theorem textSize_append (xs ys : List Char) :
    textSize (xs ++ ys) = textSize xs + textSize ys := by
  simp [textSize]

theorem textSize_cons (c : Char) (xs : List Char) :
    textSize (c :: xs) = c.utf8Size + textSize xs := by
  simp [textSize]

theorem sizeWith_elements (r : Record) (records : List Record) (size : ℕ) :
    sizeWith jsonLen false (size + jsonLen r) records =
      size + textSize (Json.printElements (r.json :: records.map Record.json)) := by
  induction records generalizing r size with
  | nil => rfl
  | cons d rest ih =>
    have hsep : Char.utf8Size ',' = 1 := by decide
    rw [sizeWith, addSize]
    have h := ih d (size + jsonLen r + 1)
    rw [List.map_cons, Json.printElements, textSize_append, textSize_cons, hsep]
    have hsize : size + jsonLen r + jsonLen d + (if false = true then 0 else 1) =
        size + jsonLen r + 1 + jsonLen d := by
      rw [if_neg (by decide)]
      omega
    rw [hsize, h, jsonLen]
    omega

theorem textSize_snapshot (records : List Record) :
    textSize (Json.print (snapshotJson records)) = sizeWith jsonLen true envelope records := by
  have hsplit : textSize (Json.print (snapshotJson records)) =
      envelope + textSize (Json.printElements (records.map Record.json)) := by
    have hopen : textSize (Json.printStr "format".toList ++
        ':' :: (formatNumber.text ++ ',' :: (Json.printStr "records".toList ++ [':', '[']))) =
        22 := by decide +kernel
    simp only [textSize_append, textSize_cons] at hopen
    have hq : ∀ c ∈ [']', '\x7b', '\x7d'], Char.utf8Size c = 1 := by
      simp only [List.forall_mem_cons, List.not_mem_nil, false_imp_iff, implies_true, and_true]
      decide
    simp only [snapshotJson, Json.print, Json.printMembers, textSize_append, textSize_cons,
      hq _ List.mem_cons_self, hq _ (List.mem_cons_of_mem _ List.mem_cons_self),
      hq _ (List.mem_cons_of_mem _ (List.mem_cons_of_mem _ List.mem_cons_self)), envelope]
    have hnil : textSize [] = 0 := rfl
    omega
  rw [hsplit]
  cases records with
  | nil => rfl
  | cons r rest =>
    have h := sizeWith_elements r rest envelope
    rw [sizeWith, addSize, if_pos rfl, Nat.add_zero, h]
    rfl

theorem utf8Size_alphabet : ∀ c ∈ Base64.alphabet, c.utf8Size = 1 :=
  Base64.forall_alphabet (by decide +kernel)

theorem textSize_encode (xs : Bytes) : textSize (Base64.encode xs) = (Base64.encode xs).length := by
  have h : ∀ l : List Char, (∀ c ∈ l, c ∈ Base64.alphabet) → textSize l = l.length := by
    intro l hl
    induction l with
    | nil => rfl
    | cons c l ih =>
      rw [List.forall_mem_cons] at hl
      rw [textSize_cons, ih hl.2, utf8Size_alphabet c hl.1, List.length_cons, Nat.add_comm]
  exact h _ fun c hc => Base64.mem_alphabet_of_mem_encode hc

theorem Version.unmarshalText_marshalText {v : Version} (hs : v.schema ≠ 0)
    (hr : v.revision ≠ 0) : Version.unmarshalText v.marshalText = some v := by
  have hsize : textSize v.marshalText = 64 := by
    rw [marshalText, textSize_encode, Base64.length_encode, length_bytes]
  rw [unmarshalText, if_neg (by simp [hsize]), marshalText, Base64.decodeStrict_encode,
    Option.bind_some, decodeVersion_bytes hs hr]
  rfl

theorem isField_name : isField "name" "name".toList := by decide

theorem isField_version : ¬ isField "name" "version".toList ∧
    isField "version" "version".toList := by decide

theorem isField_value : ¬ isField "name" "value".toList ∧ ¬ isField "version" "value".toList ∧
    isField "value" "value".toList := by decide

theorem isField_format : isField "format" "format".toList := by decide

theorem isField_records : ¬ isField "format" "records".toList ∧
    isField "records" "records".toList := by decide

section

variable {k : List Char} {v : Json.Value}

theorem Record.readMember_name (r : Record) (h : isField "name" k) :
    r.readMember (k, v) = (readString r.name v).map fun name => { r with name } := if_pos h

theorem Record.readMember_version (r : Record) (h : ¬ isField "name" k)
    (h' : isField "version" k) :
    r.readMember (k, v) = (readVersion r.version v).map fun version => { r with version } := by
  rw [readMember, if_neg h, if_pos h']

theorem Record.readMember_value (r : Record) (h : ¬ isField "name" k)
    (h' : ¬ isField "version" k) (h'' : isField "value" k) :
    r.readMember (k, v) = (readBytes v).map fun value => { r with value } := by
  rw [readMember, if_neg h, if_neg h', if_pos h'']

theorem Snapshot.readMember_format (s : Snapshot) (h : isField "format" k) (n : Json.Number) :
    s.readMember (k, .num n) = (readUint 64 n).map fun format => { s with format } := if_pos h

theorem Snapshot.readMember_records {s : Snapshot} (h : ¬ isField "format" k)
    (h' : isField "records" k) (hs : s.records = none) :
    s.readMember (k, v) =
      (decodeRecords v).map fun records => { s with records := some records } := by
  rw [readMember, if_neg h, if_pos h', hs, if_neg (by simp)]

end

variable {sha256 : Bytes → Digest} {r : Record} {records : List Record}

theorem decodeRecord_json (h : r.Valid sha256) : decodeRecord r.json = some r := by
  obtain ⟨-, hs, hr, -⟩ := Record.valid_iff.1 h
  have hname : blankRecord.readMember ("name".toList, .str r.name.toList) =
      some ⟨r.name, blankRecord.version, []⟩ := by
    rw [Record.readMember_name _ isField_name, readString, String.ofList_toList]
    rfl
  have hversion : Record.readMember ⟨r.name, blankRecord.version, []⟩
      ("version".toList, .str r.version.marshalText) = some ⟨r.name, r.version, []⟩ := by
    rw [Record.readMember_version _ isField_version.1 isField_version.2, readVersion,
      Version.unmarshalText_marshalText hs hr]
    rfl
  have hvalue : Record.readMember ⟨r.name, r.version, []⟩
      ("value".toList, .str (Base64.encodeStd r.value)) = some r := by
    rw [Record.readMember_value _ isField_value.1 isField_value.2.1 isField_value.2.2, readBytes,
      Base64.decodeStd_encodeStd]
    rfl
  rw [Record.json, decodeRecord, List.foldlM_append, List.foldlM_cons, hname]
  simp only [Option.bind_eq_bind, Option.bind_some, List.foldlM_cons, hversion, List.foldlM_nil,
    Option.pure_def]
  split_ifs with hv
  · rw [List.foldlM_nil, ← hv]
    rfl
  · rw [List.foldlM_cons, hvalue]
    rfl

theorem mapM_decodeRecord (h : ∀ r ∈ records, r.Valid sha256) :
    (records.map Record.json).mapM decodeRecord = some records := by
  induction records with
  | nil => rfl
  | cons r rest ih =>
    rw [List.forall_mem_cons] at h
    rw [List.map_cons, List.mapM_cons, decodeRecord_json h.1, ih h.2]
    rfl

theorem decodeState_snapshotJson (hlen : records.length ≤ maxDocuments)
    (h : ∀ r ∈ records, r.Valid sha256) :
    decodeState (snapshotJson records) = some ⟨snapshotFormat, some records⟩ := by
  have hformat : Snapshot.readMember ⟨0, none⟩ ("format".toList, .num formatNumber) =
      some ⟨snapshotFormat, none⟩ := by
    have hone : readUint 64 formatNumber = some snapshotFormat := by decide
    rw [Snapshot.readMember_format _ isField_format, hone]
    rfl
  have hrecords : Snapshot.readMember ⟨snapshotFormat, none⟩
      ("records".toList, .arr (records.map Record.json)) =
      some ⟨snapshotFormat, some records⟩ := by
    rw [Snapshot.readMember_records isField_records.1 isField_records.2 rfl, decodeRecords,
      if_neg (by simpa using hlen), mapM_decodeRecord h]
    rfl
  rw [snapshotJson, decodeState, List.foldlM_cons, hformat]
  simp only [Option.bind_eq_bind, Option.bind_some, List.foldlM_cons, hrecords, List.foldlM_nil,
    Option.pure_def]

theorem Codec.decodeSnapshot_encodeSnapshot {data : List Char}
    (h : encodeSnapshot sha256 records = .ok data) :
    textSize data ≤ maxSnapshotBytes ∧ decodeSnapshot sha256 data = some records := by
  obtain ⟨⟨⟩, hcheck, hdata⟩ := bind_eq_ok.1 h
  cases hdata
  obtain ⟨hvalid, hlen, hsize⟩ := checkRecords_eq_ok.1 hcheck
  rw [← textSize_snapshot] at hsize
  refine ⟨hsize, ?_⟩
  rw [decodeSnapshot, if_neg (by omega), Json.parse_print]
  simp only [Option.bind_eq_bind, Option.bind_some, decodeState_snapshotJson hlen hvalid, hcheck,
    ne_eq, not_true_eq_false, if_false]

variable {t u : Table} {commit : Commit}

variable (sha256) in
/-- What a peer has to be able to do with a replica: its rows are valid records under names of
their own, few and small enough, and they can be sent and read. -/
structure Syncable (t : Table) (records : List Record) : Prop where
  stored : t.toList = records.map fun r => (r.name, r.row)
  names : (records.map Record.name).Nodup
  valid : ∀ r ∈ records, r.validate sha256 = .ok ()
  count : records.length ≤ maxDocuments
  sent : ∃ data, Codec.encodeSnapshot sha256 records = .ok data ∧
    textSize data ≤ maxSnapshotBytes ∧ Codec.decodeSnapshot sha256 data = some records

theorem rows_eq_map : ∀ {rows : List (String × Row)},
    (∀ x ∈ rows, ∃ r, scanRecord sha256 x.1 x.2 = .ok r) →
      rows = (rows.filterMap (scanned sha256)).map fun r => (r.name, r.row)
  | [], _ => rfl
  | x :: rows, h => by
    rw [List.forall_mem_cons] at h
    obtain ⟨⟨r, hr⟩, hrows⟩ := h
    obtain ⟨hname, hrow, -⟩ := scanRecord_eq_ok.1 hr
    have hx : scanned sha256 x = some r := by
      rw [scanned, hr]
      rfl
    rw [List.filterMap_cons, hx, List.map_cons, ← rows_eq_map hrows, hname, ← hrow]

theorem Readable.syncable (h : Readable sha256 jsonLen t) :
    Syncable sha256 t (contents sha256 t) := by
  obtain ⟨hsound, hfits⟩ := h
  have hvalid : ∀ r ∈ contents sha256 t, r.Valid sha256 := fun r hr =>
    (readRecord_eq_some.1 (mem_contents.1 hr)).2.2
  have hstored : t.toList = (contents sha256 t).map fun r => (r.name, r.row) :=
    rows_eq_map fun x hx => hsound x.1 x.2 (Std.ExtTreeMap.mem_toList_iff_getElem?_eq_some.1 hx)
  have henc : Codec.encodeSnapshot sha256 (contents sha256 t) =
      .ok (Json.print (snapshotJson (contents sha256 t))) :=
    bind_eq_ok.2 ⟨(), checkRecords_eq_ok.2 ⟨hvalid, hfits⟩, rfl⟩
  refine ⟨hstored, ?_, hvalid, hfits.1, _, henc, Codec.decodeSnapshot_encodeSnapshot henc⟩
  have hkeys : (contents sha256 t).map Record.name = t.toList.map Prod.fst := by
    rw [hstored, List.map_map]
    rfl
  rw [hkeys, List.Nodup, List.pairwise_map]
  exact Std.ExtTreeMap.distinct_keys_toList.imp fun hne heq => hne (by simp [heq])

theorem readable_empty : Readable sha256 jsonLen ∅ := by
  refine ⟨fun name row h => by simp at h, ?_⟩
  have : contents sha256 ∅ = [] := rfl
  rw [this]
  exact ⟨by decide, by decide⟩

theorem Readable.of_takes (ht : Readable sha256 jsonLen t)
    (h : u = t ∨ ∃ records, Takes sha256 jsonLen t records u) : Readable sha256 jsonLen u := by
  rcases h with rfl | ⟨records, h⟩
  exacts [ht, h.after]

theorem Readable.runCall (ht : Readable sha256 jsonLen t) (call : Call) :
    Readable sha256 jsonLen (runCall sha256 jsonLen commit call t).2 := by
  cases call with
  | put name schema value expectedToken =>
    refine ht.of_takes ?_
    exact (put_takes sha256 jsonLen commit name schema value expectedToken t).imp_right
      fun ⟨r, h⟩ => ⟨[r], h⟩
  | init records =>
    exact ht.of_takes ((init_takes sha256 jsonLen commit records t).imp_right fun h => ⟨_, h⟩)
  | merge records =>
    exact ht.of_takes ((merge_takes sha256 jsonLen commit records t).imp_right fun h => ⟨_, h⟩)

theorem runCall_certain {call : Call} {e : Error}
    (h : (runCall sha256 jsonLen commit call t).1 = .error e) (he : e ≠ .durabilityUncertain) :
    (runCall sha256 jsonLen commit call t).2 = t := by
  have hmap : ∀ {α : Type} {f : α → Option Record} {x : Except Error α}, x.map f = .error e →
      x = .error e := by
    rintro α f (x | x) hx
    · cases hx
      rfl
    · cases hx
  cases call with
  | put name schema value expectedToken => exact put_error (Prod.ext (hmap h) rfl) (.inl he)
  | init records => exact init_error (Prod.ext (hmap h) rfl) (.inl he)
  | merge records => exact merge_error (Prod.ext (hmap h) rfl) (.inl he)

def runCalls (sha256 : Bytes → Digest) (encodedLen : Record → ℕ) :
    Table → List (Commit × Call) → Table
  | t, [] => t
  | t, (commit, call) :: rest =>
    runCalls sha256 encodedLen (runCall sha256 encodedLen commit call t).2 rest

theorem Readable.runCalls : ∀ {calls : List (Commit × Call)} {t : Table},
    Readable sha256 jsonLen t → Readable sha256 jsonLen (runCalls sha256 jsonLen t calls)
  | [], _, ht => ht
  | (commit, call) :: rest, t, ht => by
    rw [Config.runCalls]
    exact Readable.runCalls (ht.runCall call)

theorem history_certain : ∀ {calls : List (Commit × Call)} {t : Table} {m : Made},
    m ∈ history sha256 jsonLen t calls → ∀ {e : Error}, m.result = .error e →
      e ≠ .durabilityUncertain → m.after = m.before
  | (commit, call) :: rest, t, m, hm, e, hr, he => by
    rw [history, List.mem_cons] at hm
    rcases hm with rfl | hm
    · exact runCall_certain hr he
    · exact history_certain hm hr he

/-- Whatever is put, initialized and merged, with whatever results, a store holds documents that a
peer can be sent and that it reads as they are; and a call with an error has changed nothing,
unless the error is that this is uncertain. -/
theorem committed_config_syncable (sha256 : Bytes → Digest) (calls : List (Commit × Call)) :
    (∃ records, Syncable sha256 (runCalls sha256 jsonLen ∅ calls) records) ∧
    ∀ m ∈ history sha256 jsonLen ∅ calls, ∀ e, m.result = .error e →
      e ≠ .durabilityUncertain → m.after = m.before :=
  ⟨⟨_, readable_empty.runCalls.syncable⟩, fun _ hm _ hr he => history_certain hm hr he⟩

end Specter.Config
