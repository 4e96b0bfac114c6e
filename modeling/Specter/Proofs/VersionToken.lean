import Specter.Proofs.Codec
import Specter.Proofs.Put
import Specter.VersionToken

/-!
# Tokens of versions are canonical and ordered

What a token is written from is read back, and the comparison with it is that of the versions.  No
other text is a token.
-/

namespace Specter.Config

open Lib

variable {r : Record} {d : Record}

theorem dot_not_mem_encode (bytes : Bytes) : '.' ∉ Base64.encode bytes := fun h =>
  (Base64.plain_alphabet '.' (Base64.mem_alphabet_of_mem_encode h)).2.2.1 rfl

theorem length_marshalText (v : Version) : v.marshalText.length = 64 := by
  rw [Version.marshalText, Base64.length_encode, Version.length_bytes]

theorem chars_token (h : r.name ≠ "") : chars r.token.toUTF8.toList = r.token.toList := by
  have hlow : ∀ c ∈ r.token.toList, c.toNat < 128 := by
    have hstart : ∀ c ∈ "v1.".toList ++ ".".toList, c.toNat < 128 := by simp
    rw [token_eq h]
    simp only [List.forall_mem_append] at hstart ⊢
    exact ⟨⟨⟨hstart.1, Base64.encode_low _⟩, hstart.2⟩, Base64.encode_low _⟩
  have hchars := chars_toUTF8 hlow
  rwa [String.ofList_toList] at hchars

theorem splitOn_token (h : r.name ≠ "") :
    (chars r.token.toUTF8.toList).splitOn '.' =
      [['v', '1'], Base64.encode r.name.toUTF8.toList, r.version.marshalText] := by
  have hjoin : chars r.token.toUTF8.toList = ['.'].intercalate
      [['v', '1'], Base64.encode r.name.toUTF8.toList, r.version.marshalText] := by
    rw [chars_token h, token_eq h]
    simp [List.intercalate_cons_cons]
  rw [hjoin]
  refine List.splitOn_intercalate '.' ?_ (by simp)
  simp only [List.forall_mem_cons, List.not_mem_nil, false_implies, implies_true, and_true]
  exact ⟨by decide, dot_not_mem_encode _, dot_not_mem_encode _⟩

theorem name_ne_of_validName {name : String} (h : validName name) : name ≠ "" := by
  rintro rfl
  exact absurd h (by decide)

theorem length_token (h : validName r.name) : r.token.toUTF8.toList.length ≤ 1024 := by
  have hname : r.name.utf8ByteSize ≤ 512 := by
    simp only [validName, maxNameBytes, Bool.and_eq_true] at h
    exact of_decide_eq_true h.1.2
  have hchars : (chars r.token.toUTF8.toList).length = r.token.toUTF8.toList.length := by
    rw [chars, List.length_map]
  rw [← hchars, chars_token (name_ne_of_validName h), token_eq (name_ne_of_validName h)]
  have hdots : "v1.".toList.length = 3 ∧ ".".toList.length = 1 := by decide
  simp only [List.length_append, Base64.length_encode, length_toUTF8, length_marshalText, hdots]
  omega

theorem compareVersion_token (hname : d.name = r.name) (hvalid : validName d.name)
    (hs : d.version.schema ≠ 0) (hr : d.version.revision ≠ 0) :
    r.compareVersion d.token.toUTF8.toList = .ok (r.version.compare d.version) := by
  have hlen := length_token hvalid
  have htoken : Record.token ⟨r.name, d.version, []⟩ = d.token := by
    simp [Record.token, hname]
  rw [Record.compareVersion, if_neg (by omega), splitOn_token (name_ne_of_validName hvalid)]
  simp only [Base64.decodeRaw_encode, Version.unmarshalText_marshalText hs hr]
  rw [if_neg (by simp [← hname, hvalid]), if_neg (not_not.2 (congrArg (·.toUTF8.toList) htoken))]

theorem positive_of_unmarshalText {text : List Char} {v : Version}
    (h : Version.unmarshalText text = some v) : v.schema ≠ 0 ∧ v.revision ≠ 0 := by
  unfold Version.unmarshalText at h
  split_ifs at h with hsize
  obtain ⟨data, -, hdata⟩ := Option.bind_eq_some_iff.1 h
  rcases hv : Version.decodeVersion data with err | w <;> rw [hv] at hdata
  · cases hdata
  · obtain rfl : w = v := Option.some.inj hdata
    exact (Version.bytes_of_decodeVersion hv).2

theorem token_of_compareVersion {token : Bytes} {order : Ordering}
    (h : r.compareVersion token = .ok order) : ∃ v : Version, v.schema ≠ 0 ∧ v.revision ≠ 0 ∧
      token = (Record.token ⟨r.name, v, []⟩).toUTF8.toList ∧ order = r.version.compare v := by
  unfold Record.compareVersion at h
  split_ifs at h with hlen
  split at h
  · split at h
    · cases h
    · split_ifs at h with hname
      split at h
      · cases h
      · rename_i v hv
        split_ifs at h with htoken
        obtain ⟨hs, hr⟩ := positive_of_unmarshalText hv
        exact ⟨v, hs, hr, (not_not.1 htoken).symm, (Except.ok.inj h).symm⟩
  · cases h

theorem name_of_token (hr : r.name ≠ "") (h : r.token = d.token) : r.name = d.name := by
  have hd : d.name ≠ "" := by
    intro h0
    have hnone : d.token = "" := if_pos h0
    exact token_ne hr (h.trans hnone)
  have hsplit := splitOn_token hr
  rw [h, splitOn_token hd] at hsplit
  simp only [List.cons.injEq, and_true, true_and] at hsplit
  exact (toUTF8_injective (Base64.encode_injective hsplit.1)).symm

/-- The tokens of its document are all a record can be compared with; different versions and
documents have different tokens; and the order is that of the bytes of the versions. -/
theorem versionTokens_canonical (r : Record) (hname : validName r.name) :
    (∀ token order, r.compareVersion token = .ok order ↔
      ∃ d : Record, d.name = r.name ∧ d.version.schema ≠ 0 ∧ d.version.revision ≠ 0 ∧
        token = d.token.toUTF8.toList ∧ order = r.version.compare d.version) ∧
    (∀ d : Record, (r.name, r.version) ≠ (d.name, d.version) → r.token ≠ d.token) ∧
    ∀ v w : Version, BigEndian.compareBytes v.bytes w.bytes = v.compare w := by
  refine ⟨fun token order => ⟨fun h => ?_, ?_⟩, fun d hne h => ?_, fun v w => ?_⟩
  · obtain ⟨v, hs, hr, htoken, horder⟩ := token_of_compareVersion h
    exact ⟨⟨r.name, v, []⟩, rfl, hs, hr, htoken, horder⟩
  · rintro ⟨d, hd, hs, hr, rfl, rfl⟩
    exact compareVersion_token hd (hd ▸ hname) hs hr
  · have hnames := name_of_token (name_ne_of_validName hname) h
    have hversions := token_injective hnames (hnames ▸ name_ne_of_validName hname) h
    exact hne (by rw [hnames, hversions])
  · rw [BigEndian.compareBytes_eq (by simp), Version.compare_eq]
    rfl

theorem versionTokens_canonical_waf :
    validName "waf" ∧ ∀ token order, Record.compareVersion ⟨"waf", ⟨1, 2, .replicate 32 0⟩, []⟩
        token = .ok order ↔
      ∃ d : Record, d.name = "waf" ∧ d.version.schema ≠ 0 ∧ d.version.revision ≠ 0 ∧
        token = d.token.toUTF8.toList ∧ order = Version.compare ⟨1, 2, .replicate 32 0⟩ d.version :=
  ⟨by decide, (versionTokens_canonical ⟨"waf", ⟨1, 2, .replicate 32 0⟩, []⟩ (by decide)).1⟩

end Specter.Config
