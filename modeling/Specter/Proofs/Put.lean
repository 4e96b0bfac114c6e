import Specter.Proofs.Documents

/-!
# `Put` is an optimistic compare-and-swap

A token stands for one version of a document, and under each name a store only moves to greater
versions.  So after a `Put` its token is not current again, in any history of calls.
-/

namespace Specter.Config

variable {schema : UInt64} {value : Bytes} {d : Record} {calls : List (Commit × Call)} {m : Made}

theorem token_eq {r : Record} (h : r.name ≠ "") : r.token.toList =
    "v1.".toList ++ Base64.encode r.name.toUTF8.toList ++ ".".toList ++ r.version.marshalText := by
  simp [Record.token, h]

theorem token_ne {r : Record} (h : r.name ≠ "") : r.token ≠ "" := by
  intro h0
  have := token_eq h
  rw [h0] at this
  simp at this

theorem token_injective {r d : Record} (hname : r.name = d.name) (hne : d.name ≠ "")
    (h : r.token = d.token) : r.version = d.version := by
  have h := congrArg String.toList h
  rw [token_eq hne, token_eq (hname ▸ hne), hname] at h
  exact Version.bytes_injective (Base64.encode_injective (List.append_cancel_left h))

variable {sha256 : Bytes → Digest} {encodedLen : Record → ℕ} {t u : Table} {name : String}
  {expectedToken : String} {current : Option Record} {r : Record}

theorem keys_of_currentToken {other : Option Record} (ht : readRecord sha256 t name = .ok current)
    (hu : readRecord sha256 u name = .ok other) (h : currentToken current = currentToken other) :
    keys t name = keys u name := by
  rw [keys_of_read ht, keys_of_read hu]
  have hname : ∀ {w : Table} {d : Record}, readRecord sha256 w name = .ok (some d) →
      d.name = name ∧ d.name ≠ "" := fun h =>
    ⟨(readRecord_eq_some.1 h).1, (readRecord_eq_some.1 h).2.2.name_ne⟩
  cases current with
  | none =>
    cases other with
    | none => rfl
    | some d => exact absurd h.symm (token_ne (hname hu).2)
  | some r =>
    cases other with
    | none => exact absurd h (token_ne (hname ht).2)
    | some d =>
      have hv := token_injective ((hname ht).1.trans (hname hu).1.symm) (hname hu).2 h
      exact congrArg Version.key hv

structure Version.Next (v w : Version) : Prop where
  gt : v.compare w = .gt
  schema_le : w.schema ≤ v.schema
  revision_eq : v.revision.toNat = w.revision.toNat + 1

theorem revision_succ {n : UInt64} (h : n ≠ .ofNat (2 ^ 64 - 1)) : (n + 1).toNat = n.toNat + 1 := by
  have hlt := n.toNat_lt
  have hne : n.toNat ≠ 2 ^ 64 - 1 := fun h0 => h (UInt64.toNat_inj.1 h0)
  rw [UInt64.toNat_add, UInt64.toNat_one]
  omega

theorem next_of_nextRecord (h : nextRecord sha256 name schema value (some d) = .ok r) :
    r.version.Next d.version := by
  rw [nextRecord] at h
  split_ifs at h with hschema hmax
  obtain ⟨rfl, -⟩ := newRecord_eq_ok h
  have hle : d.version.schema.toNat ≤ schema.toNat := Nat.le_of_not_gt hschema
  have hrev := revision_succ hmax
  refine ⟨?_, hle, hrev⟩
  rw [Version.compare, hrev, Nat.compare_eq_gt.2 (Nat.lt_succ_self _)]
  rcases Nat.lt_or_eq_of_le hle with hlt | heq
  · rw [Nat.compare_eq_gt.2 hlt]
    rfl
  · rw [Nat.compare_eq_eq.2 heq.symm]
    rfl

theorem keys_lt_of_nextRecord (hread : readRecord sha256 t name = .ok current)
    (h : nextRecord sha256 name schema value current = .ok r) : keys t name < r.version.key := by
  rw [keys_of_read hread]
  cases current with
  | none => exact (nextRecord_valid h).2.key_pos
  | some d => exact Version.compare_eq_gt.1 (next_of_nextRecord h).gt

theorem Takes.put (h : Takes sha256 encodedLen t [r] u) (hlt : keys t r.name < r.version.key) :
    readRecord sha256 u r.name = .ok (some r) ∧ ∀ other ≠ r.name, u[other]? = t[other]? := by
  have hr : r.Valid sha256 := h.valid r (List.mem_singleton.2 rfl)
  have hu : u = t.insert r.name r.row := by
    rcases writeRecord_cases h.before.1 hr with ⟨-, hwrite⟩ | ⟨hle, -⟩
    · simp only [h.eq, writeRecords, hwrite]
    · omega
  rw [hu]
  refine ⟨readRecord_eq_some.2 ⟨rfl, by simp, hr⟩, fun other hother => ?_⟩
  rw [Std.ExtTreeMap.getElem?_insert, if_neg (by simpa using hother.symm)]

variable (sha256 encodedLen) in
/-- Wherever a record is merged or held, the document afterwards is it or a greater one, and so
greater than the other record. -/
def Wins (r d : Record) : Prop :=
  ∀ commit records u, ((merge sha256 encodedLen commit records u).1 = .ok () ∧ r ∈ records ∨
      readRecord sha256 u r.name = .ok (some r)) →
    ∃ e, readRecord sha256 (merge sha256 encodedLen commit records u).2 r.name = .ok (some e) ∧
      (e ∈ records ∨ readRecord sha256 u r.name = .ok (some e)) ∧
      e.version.compare r.version ≠ .lt ∧ e.version.compare d.version = .gt

theorem wins (h : r.version.compare d.version = .gt) : Wins sha256 encodedLen r d := by
  intro commit records u hr
  have hbeats : ∀ e : Record, r.version.key ≤ e.version.key →
      e.version.compare r.version ≠ .lt ∧ e.version.compare d.version = .gt := by
    intro e he
    have hlt := Version.compare_eq_gt.1 h
    exact ⟨Version.compare_ne_lt.2 he, Version.compare_eq_gt.2 (by omega)⟩
  rcases hr with ⟨hok, hmem⟩ | hread
  · have htakes : Takes sha256 encodedLen u records (merge sha256 encodedLen commit records u).2 :=
      merge_ok (Prod.ext hok rfl)
    obtain ⟨e, hread, hfrom, hge⟩ := htakes.read_ge (.inl hmem)
    exact ⟨e, hread, hfrom, hbeats e hge⟩
  · rcases merge_takes sha256 encodedLen commit records u with hsame | htakes
    · rw [hsame]
      exact ⟨r, hread, .inr hread, hbeats r le_rfl⟩
    · obtain ⟨e, hread', hfrom, hge⟩ := htakes.read_ge (.inr hread)
      exact ⟨e, hread', hfrom, hbeats e hge⟩

variable (sha256 encodedLen) in
/-- A `Put` that succeeds: it replaces the version that its token names and no other, and stores
one that follows it. -/
structure Swaps (t : Table) (name expectedToken : String) (current : Option Record) (r : Record)
    (t' : Table) : Prop where
  read : readRecord sha256 t name = .ok current
  token : currentToken current = expectedToken
  named : ∀ d : Record, d.name = name →
    (d.token = expectedToken ↔ current.map Record.version = some d.version)
  stored : readRecord sha256 t' name = .ok (some r)
  others : ∀ other ≠ name, t'[other]? = t[other]?
  first : current = none → r.version.revision = 1
  next : ∀ d, current = some d → r.version.Next d.version
  wins : ∀ d, current = some d → Wins sha256 encodedLen r d

theorem swaps_of_put {commit : Commit} {schema : UInt64} {value : Bytes}
    (h : put sha256 encodedLen commit name schema value expectedToken t = (.ok r, u)) :
    ∃ current, Swaps sha256 encodedLen t name expectedToken current r u := by
  obtain ⟨htakes, current, hread, htoken, hnext⟩ := put_ok h
  obtain ⟨rfl, hvalid⟩ := nextRecord_valid hnext
  obtain ⟨hstored, hothers⟩ := htakes.put (keys_lt_of_nextRecord hread hnext)
  refine ⟨current, hread, htoken, fun d hd => ?_, hstored, hothers, ?_, ?_, ?_⟩
  · rw [← htoken]
    cases current with
    | none => simpa [currentToken] using token_ne (hd ▸ hvalid.name_ne)
    | some c =>
      have hc := (readRecord_eq_some.1 hread).1
      simp only [currentToken, Option.map_some, Option.getD_some, Option.some.injEq]
      constructor
      · exact fun h => (token_injective (hd.trans hc.symm) (hc ▸ hvalid.name_ne) h).symm
      · intro h
        rw [Record.token, Record.token, hd, hc, h]
  · rintro rfl
    exact congrArg (fun r => r.version.revision) (newRecord_eq_ok hnext).1
  · rintro d rfl
    exact next_of_nextRecord hnext
  · rintro d rfl
    exact wins (next_of_nextRecord hnext).gt

theorem Swaps.keys_lt (h : Swaps sha256 encodedLen t name expectedToken current r u) :
    keys t name < keys u name := by
  rw [keys_of_read h.read, keys_of_read h.stored]
  cases current with
  | none => exact (readRecord_eq_some.1 h.stored).2.2.key_pos
  | some d => exact Version.compare_eq_gt.1 (h.next d rfl).gt

theorem history_cons (t : Table) (commit : Commit) (call : Call) (rest : List (Commit × Call)) :
    history sha256 encodedLen t ((commit, call) :: rest) =
      ⟨call, t, (runCall sha256 encodedLen commit call t).1,
        (runCall sha256 encodedLen commit call t).2⟩ ::
          history sha256 encodedLen (runCall sha256 encodedLen commit call t).2 rest :=
  rfl

theorem keys_runCall (commit : Commit) (call : Call) (t : Table) :
    keys t ≤ keys (runCall sha256 encodedLen commit call t).2 := by
  have hkeys : ∀ {records u}, Takes sha256 encodedLen t records u → keys t ≤ keys u := by
    intro records u h
    rw [h.keys_eq]
    exact le_sup_left
  cases call with
  | put name schema value expectedToken =>
    rcases put_takes sha256 encodedLen commit name schema value expectedToken t with h | ⟨r, h⟩
    · exact (congrArg keys h).ge
    · exact hkeys h
  | init records =>
    rcases init_takes sha256 encodedLen commit records t with h | h
    · exact (congrArg keys h).ge
    · exact hkeys h
  | merge records =>
    rcases merge_takes sha256 encodedLen commit records t with h | h
    · exact (congrArg keys h).ge
    · exact hkeys h

theorem keys_le_of_history (h : m ∈ history sha256 encodedLen t calls) :
    keys t ≤ keys m.before := by
  induction calls generalizing t with
  | nil => cases h
  | cons c calls ih =>
    obtain ⟨commit, call⟩ := c
    rcases List.mem_cons.1 h with rfl | h
    · exact le_rfl
    · exact (keys_runCall commit call t).trans (ih h)

def Made.Puts (m : Made) (name expectedToken : String) (r : Record) : Prop :=
  (∃ schema value, m.call = .put name schema value expectedToken) ∧ m.result = .ok (some r)

theorem swaps_of_runCall {commit : Commit}
    (h : (runCall sha256 encodedLen commit (.put name schema value expectedToken) t).1 =
      .ok (some r)) :
    ∃ current, Swaps sha256 encodedLen t name expectedToken current r
      (runCall sha256 encodedLen commit (.put name schema value expectedToken) t).2 := by
  have hput : (put sha256 encodedLen commit name schema value expectedToken t).1 = .ok r := by
    have h : (put sha256 encodedLen commit name schema value expectedToken t).1.map some =
      .ok (some r) := h
    cases hresult : (put sha256 encodedLen commit name schema value expectedToken t).1 with
    | error e =>
      rw [hresult] at h
      cases h
    | ok r' =>
      rw [hresult] at h
      cases h
      rfl
  exact swaps_of_put (Prod.ext hput rfl)

theorem swaps_of_history (h : m ∈ history sha256 encodedLen t calls)
    (hm : m.Puts name expectedToken r) :
    ∃ current, Swaps sha256 encodedLen m.before name expectedToken current r m.after := by
  induction calls generalizing t with
  | nil => cases h
  | cons c calls ih =>
    obtain ⟨commit, call⟩ := c
    rw [history_cons] at h
    rcases List.mem_cons.1 h with rfl | h
    · obtain ⟨⟨schema, value, rfl⟩, hresult⟩ := hm
      exact swaps_of_runCall hresult
    · exact ih h

/-- In every history of calls, of the `Put`s of a name with the same token at most one succeeds,
and it replaces exactly the version of that token, by one that follows it and wins against it in
every merge. -/
theorem put_compare_and_swap (sha256 : Bytes → Digest) (encodedLen : Record → ℕ) (t : Table)
    (calls : List (Commit × Call)) :
    (history sha256 encodedLen t calls).Pairwise (fun m m' => ∀ name expectedToken r r',
      m.Puts name expectedToken r → ¬ m'.Puts name expectedToken r') ∧
    ∀ m ∈ history sha256 encodedLen t calls, ∀ name expectedToken r,
      m.Puts name expectedToken r →
        ∃ current, Swaps sha256 encodedLen m.before name expectedToken current r m.after := by
  refine ⟨?_, fun m hm name expectedToken r => swaps_of_history hm⟩
  induction calls generalizing t with
  | nil => exact List.Pairwise.nil
  | cons c calls ih =>
    obtain ⟨commit, call⟩ := c
    rw [history_cons]
    refine List.pairwise_cons.2 ⟨fun m' hm' name expectedToken r r' hm hm'' => ?_, ih _⟩
    obtain ⟨⟨schema, value, rfl⟩, hresult⟩ := hm
    obtain ⟨current, hswap⟩ := swaps_of_runCall hresult
    obtain ⟨current', hswap'⟩ := swaps_of_history hm' hm''
    have hsame := keys_of_currentToken hswap.read hswap'.read
      (hswap.token.trans hswap'.token.symm)
    exact (hswap.keys_lt.trans_le (keys_le_of_history hm' name)).ne hsame

/-- Two editors start from no document; then one takes the token of what is there. -/
def edits : List (Commit × Call) :=
  [(.done, .put "a" 1 [1] ""), (.done, .put "a" 1 [2] ""),
    (.done, .put "a" 1 [3] (Record.token ⟨"a", ⟨1, 1, Vector.replicate 32 0⟩, [1]⟩))]

theorem put_compare_and_swap_edits :
    (history (fun _ => Vector.replicate 32 0) (fun _ => 0) ∅ edits).map
      (fun m => m.result.toOption.isSome) = [true, false, true] ∧
    (history (fun _ => Vector.replicate 32 0) (fun _ => 0) ∅ edits).Pairwise
      fun m m' => ∀ name expectedToken r r',
        m.Puts name expectedToken r → ¬ m'.Puts name expectedToken r' :=
  ⟨by decide +kernel, (put_compare_and_swap _ _ _ _).1⟩

end Specter.Config
