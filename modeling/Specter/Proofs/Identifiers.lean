import Specter.Session

/-!
# Exact codecs of lightweight identifiers

Labels, aliases and tokens are each a fixed text and the hexadecimal or base64 digits of some bytes.
What is accepted, among all byte strings, is what is written.
-/

namespace Specter.Tunnel

open Lib
open Json (hexDigit)

variable (s data : Bytes) {label : Bytes} {home : ℕ}

def hexByte (n : ℕ) : UInt8 := .ofNat (hexDigit n).toNat

def IsLowerHex (c : ℕ) : Bool :=
  ('0'.toNat ≤ c && c ≤ '9'.toNat) || ('a'.toNat ≤ c && c ≤ 'f'.toNat)

theorem hexDigit_spec : ∀ n < 16, (hexDigit n).toNat < 128 ∧ IsLowerHex (hexByte n).toNat ∧
    fromHexChar (hexByte n).toNat = some n := by
  decide

theorem fromHexChar_spec : ∀ c < 256, IsLowerHex c →
    ∃ n < 16, fromHexChar c = some n ∧ hexByte n = .ofNat c := by
  decide +kernel

theorem isLowerHex_lt (c : ℕ) (h : IsLowerHex c) : c < 128 := by
  simp only [IsLowerHex, Bool.or_eq_true, Bool.and_eq_true, decide_eq_true_eq] at h
  have : '9'.toNat = 57 ∧ 'f'.toNat = 102 := by decide
  omega

theorem lowerHex_eq : lowerHex s = s.all fun b => IsLowerHex b.toNat :=
  all_runes isLowerHex_lt s

theorem toUTF8_hex : (hex data).toUTF8.toList =
    data.flatMap fun b => [hexByte (b.toNat / 16), hexByte (b.toNat % 16)] := by
  rw [hex, toUTF8_ofList, List.map_flatMap]
  · rfl
  · intro c hc
    obtain ⟨b, -, hb⟩ := List.mem_flatMap.1 hc
    have := b.toNat_lt
    simp only [List.mem_cons, List.not_mem_nil, or_false] at hb
    rcases hb with rfl | rfl
    · exact (hexDigit_spec _ (by omega)).1
    · exact (hexDigit_spec _ (by omega)).1

theorem length_hex : (hex data).toUTF8.toList.length = 2 * data.length := by
  rw [toUTF8_hex]
  induction data with
  | nil => rfl
  | cons b data ih =>
    simp only [List.flatMap_cons, List.length_append, List.length_cons, List.length_nil, ih]
    omega

theorem lowerHex_hex : lowerHex (hex data).toUTF8.toList := by
  rw [lowerHex_eq, toUTF8_hex, List.all_flatMap, List.all_eq_true]
  intro b _
  have := b.toNat_lt
  simp [(hexDigit_spec (b.toNat / 16) (by omega)).2.1,
    (hexDigit_spec (b.toNat % 16) (by omega)).2.1]

theorem unhex_hex : unhex (hex data).toUTF8.toList = data := by
  rw [toUTF8_hex]
  induction data with
  | nil => rfl
  | cons b data ih =>
    have := b.toNat_lt
    rw [List.flatMap_cons, List.cons_append, List.cons_append, List.nil_append, unhex,
      (hexDigit_spec (b.toNat / 16) (by omega)).2.2, (hexDigit_spec (b.toNat % 16) (by omega)).2.2]
    simp only [ih]
    rw [Base64.ofNat_eq (a := b) (by omega)]

theorem hex_unhex : ∀ {s : Bytes}, s.length % 2 = 0 → lowerHex s →
    (hex (unhex s)).toUTF8.toList = s
  | [], _, _ => toUTF8_hex []
  | [_], h, _ => absurd h (by simp)
  | a :: b :: s, h, hs => by
    rw [lowerHex_eq, List.all_cons, List.all_cons, ← lowerHex_eq, Bool.and_eq_true,
      Bool.and_eq_true] at hs
    obtain ⟨m, hm, ha, hma⟩ := fromHexChar_spec _ a.toNat_lt hs.1
    obtain ⟨n, hn, hb, hnb⟩ := fromHexChar_spec _ b.toNat_lt hs.2.1
    have ih := hex_unhex (s := s) (by rw [← Nat.add_mod_right]; exact h) hs.2.2
    rw [toUTF8_hex] at ih
    rw [unhex, ha, hb, toUTF8_hex]
    simp only [List.flatMap_cons, ih]
    rw [Base64.toNat_ofNat (by omega), show (m * 16 + n) / 16 = m by omega,
      show (m * 16 + n) % 16 = n by omega, hma, hnb, UInt8.ofNat_toNat, UInt8.ofNat_toNat]
    rfl

theorem lowerHex_iff (start : String) (k : ℕ) :
    s.length = start.utf8ByteSize + 2 * k ∧ s.take start.utf8ByteSize = start.toUTF8.toList ∧
        lowerHex (s.drop start.utf8ByteSize) ↔
      ∃ data : Bytes, data.length = k ∧ s = (start ++ hex data).toUTF8.toList := by
  have hstart := length_toUTF8 start
  constructor
  · rintro ⟨hlen, htake, hs⟩
    have hdrop : (s.drop start.utf8ByteSize).length = 2 * k := by
      rw [List.length_drop]
      omega
    have hhex := hex_unhex (by omega) hs
    refine ⟨unhex (s.drop start.utf8ByteSize), ?_, ?_⟩
    · have := length_hex (unhex (s.drop start.utf8ByteSize))
      rw [hhex] at this
      omega
    · rw [toUTF8_append, hhex, ← htake, List.take_append_drop]
  · rintro ⟨data, rfl, rfl⟩
    rw [toUTF8_append, ← hstart, List.length_append, length_hex, List.take_left, List.drop_left]
    exact ⟨rfl, rfl, lowerHex_hex data⟩

def formatLabel (home : ℕ) (inv : Bytes) : String :=
  ephemeralLabelPrefix ++ hex (BigEndian.toBytes 6 home) ++ hex inv

theorem foldl_ofBytes (bs : Bytes) (n : ℕ) :
    bs.foldl (fun home b => home <<< 8 ||| b.toNat) n =
      n * 256 ^ bs.length + BigEndian.ofBytes bs := by
  induction bs generalizing n with
  | nil => simp [BigEndian.ofBytes]
  | cons b bs ih =>
    rw [List.foldl_cons, ih, ← Nat.shiftLeft_add_eq_or_of_lt b.toNat_lt, Nat.shiftLeft_eq,
      BigEndian.ofBytes, List.length_cons]
    ring

theorem hex_append (xs ys : Bytes) : hex (xs ++ ys) = hex xs ++ hex ys := by
  rw [hex, List.flatMap_append, String.ofList_append]
  rfl

theorem unhex_drop {data : Bytes} {start : String} :
    unhex ((start ++ hex data).toUTF8.toList.drop start.utf8ByteSize) = data := by
  rw [toUTF8_append, ← length_toUTF8, List.drop_left, unhex_hex]

theorem parseEphemeralLabel_eq {parsed : ℕ × Bytes} :
    parseEphemeralLabel label = some parsed ↔ ∃ data : Bytes, data.length = 22 ∧
      label = (ephemeralLabelPrefix ++ hex data).toUTF8.toList ∧
      parsed = (BigEndian.ofBytes (data.take 6), data.drop 6) := by
  have hread : ∀ data : Bytes,
      (data.take 6).foldl (fun home b => home <<< 8 ||| b.toNat) 0 =
        BigEndian.ofBytes (data.take 6) := by
    intro data
    rw [foldl_ofBytes, Nat.zero_mul, Nat.zero_add]
  have hsize : ephemeralLabelPrefix.utf8ByteSize = 3 := by decide
  have hformat := lowerHex_iff label ephemeralLabelPrefix 22
  rw [hsize] at hformat
  unfold parseEphemeralLabel
  constructor
  · intro h
    split_ifs at h with hbad
    simp only [not_or, not_not, Bool.not_eq_true', Bool.not_eq_false] at hbad
    obtain ⟨data, hlen, hdata⟩ := hformat.1 hbad
    dsimp only at h
    rw [hread, hdata, ← hsize, unhex_drop] at h
    exact ⟨data, hlen, hdata, (Option.some.inj h).symm⟩
  · rintro ⟨data, hlen, hdata, rfl⟩
    have hgood := hformat.2 ⟨data, hlen, hdata⟩
    rw [if_neg (by simp [hgood.1, hgood.2.1, hgood.2.2])]
    dsimp only
    rw [hread, hdata, ← hsize, unhex_drop]

theorem parseEphemeralLabel_format {inv : Bytes} :
    parseEphemeralLabel label = some (home, inv) ↔
      home < 2 ^ 48 ∧ inv.length = 16 ∧ label = (formatLabel home inv).toUTF8.toList := by
  rw [parseEphemeralLabel_eq]
  constructor
  · rintro ⟨data, hlen, rfl, hparsed⟩
    obtain ⟨rfl, rfl⟩ := Prod.mk.inj hparsed
    have htake : (data.take 6).length = 6 := by
      rw [List.length_take]
      omega
    have hlt := BigEndian.ofBytes_lt (data.take 6)
    have hbytes := BigEndian.toBytes_ofBytes (data.take 6)
    rw [htake] at hlt hbytes
    refine ⟨hlt, by rw [List.length_drop]; omega, ?_⟩
    rw [formatLabel, hbytes, String.append_assoc, ← hex_append, List.take_append_drop]
  · rintro ⟨hhome, hinv, rfl⟩
    have hlen := BigEndian.length_toBytes 6 home
    refine ⟨BigEndian.toBytes 6 home ++ inv, by simp [hinv], ?_, ?_⟩
    · rw [formatLabel, hex_append, String.append_assoc]
    · rw [List.take_left' hlen, List.drop_left' hlen, BigEndian.ofBytes_toBytes,
        Nat.mod_eq_of_lt (show home < 256 ^ 6 from hhome)]

theorem ephemeralLabel_eq (sha256 : Bytes → Config.Digest) (h : home < 2 ^ 48) (spki : Bytes) :
    ∃ inv : Bytes, inv.length = 16 ∧
      ephemeralLabel sha256 home spki = some (formatLabel home inv, inv) := by
  refine ⟨_, ?_, if_neg (not_le.2 h)⟩
  rw [List.length_take, Vector.length_toList]
  rfl

theorem isSessionAlias_iff {addr : Bytes} : isSessionAlias addr ↔
    ∃ inv : Bytes, inv.length = 16 ∧ addr = (aliasOf inv).toUTF8.toList := by
  have hsize : sessionAliasPrefix.utf8ByteSize = 8 := by decide
  have hformat := lowerHex_iff addr sessionAliasPrefix 16
  rw [hsize] at hformat
  rw [isSessionAlias, Bool.and_eq_true, Bool.and_eq_true, beq_iff_eq, beq_iff_eq, and_assoc]
  exact hformat

theorem parseDelegationToken_eq {token secret : Bytes} :
    parseDelegationToken token = some secret ↔
      secret.length = 32 ∧ token = (encodeDelegationToken secret).toUTF8.toList := by
  have hstart : delegationTokenPrefix.toUTF8.toList.length = 4 := by
    rw [length_toUTF8]
    decide
  have hencode : secret.length = 32 → (Base64.encode secret).length = 43 := by
    intro h
    rw [Base64.length_encode, h]
  rw [encodeDelegationToken, toUTF8_append]
  unfold parseDelegationToken
  constructor
  · intro h
    split_ifs at h with hbad
    simp only [not_or, not_not] at hbad
    obtain ⟨hraw, hlen⟩ := Option.filter_eq_some_iff.1 h
    have hlen : secret.length = 32 := beq_iff_eq.1 hlen
    have htext : (chars (token.drop 4)).length = 43 := by
      rw [chars, List.length_map, List.length_drop, hbad.1]
    -- all 43 characters are digits, so no line break was skipped
    have hchars := Base64.eq_encode_of_decodeStrict hraw (htext.trans (hencode hlen).symm)
    rw [← chars_toUTF8 (Base64.encode_low secret)] at hchars
    refine ⟨hlen, ?_⟩
    rw [← chars_injective hchars, ← hbad.2, List.take_append_drop]
  · rintro ⟨hlen, rfl⟩
    have hsize : (delegationTokenPrefix.toUTF8.toList ++
        (String.ofList (Base64.encode secret)).toUTF8.toList).length = 47 := by
      rw [List.length_append, hstart, toUTF8_ofList (Base64.encode_low secret), List.length_map,
        hencode hlen]
    rw [List.take_left' hstart, List.drop_left' hstart,
      if_neg (not_or.2 ⟨not_not.2 hsize, not_not.2 rfl⟩), chars_toUTF8 (Base64.encode_low secret),
      Base64.decodeStrict_encode]
    simp [hlen]

/-- Labels, tokens and aliases are accepted exactly as they are written, and read as what they were
written from. -/
theorem identifiers_exact (sha256 : Bytes → Config.Digest) :
    (∀ label home inv, parseEphemeralLabel label = some (home, inv) ↔
      home < 2 ^ 48 ∧ inv.length = 16 ∧ label = (formatLabel home inv).toUTF8.toList) ∧
    (∀ home < 2 ^ 48, ∀ spki, ∃ label inv, ephemeralLabel sha256 home spki = some (label, inv) ∧
      parseEphemeralLabel label.toUTF8.toList = some (home, inv)) ∧
    (∀ token secret, parseDelegationToken token = some secret ↔
      secret.length = 32 ∧ token = (encodeDelegationToken secret).toUTF8.toList) ∧
    ∀ addr, isSessionAlias addr ↔
      ∃ inv : Bytes, inv.length = 16 ∧ addr = (aliasOf inv).toUTF8.toList := by
  refine ⟨fun _ _ _ => parseEphemeralLabel_format, fun home hhome spki => ?_,
    fun _ _ => parseDelegationToken_eq, fun _ => isSessionAlias_iff⟩
  obtain ⟨inv, hinv, hlabel⟩ := ephemeralLabel_eq sha256 hhome spki
  exact ⟨_, inv, hlabel, parseEphemeralLabel_format.2 ⟨hhome, hinv, rfl⟩⟩

theorem identifiers_exact_home :
    5 < 2 ^ 48 ∧ ∃ label inv, ephemeralLabel (fun _ => .replicate 32 0) 5 [] = some (label, inv) ∧
      parseEphemeralLabel label.toUTF8.toList = some (5, inv) :=
  ⟨by decide, (identifiers_exact fun _ => .replicate 32 0).2.1 5 (by decide) []⟩

end Specter.Tunnel
