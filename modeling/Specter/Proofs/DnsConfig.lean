import Mathlib.Data.List.Forall2
import Mathlib.Data.List.Perm.Basic
import Mathlib.Data.List.TakeWhile
import Specter.Dns
import Specter.Lib.Letters
import Specter.Lib.Results

/-!
# The canonical form of a DNS configuration

A configuration is accepted if its parts can be read and what is read is distinct.  Spelling and
order change what is read only up to order, and sorting forgets the order.
-/

namespace Specter.Dns

open Lib

variable {field : String} {value' : Text} {raws : List Text}

structure GoodName {Addr : Type} (N : Libraries Addr) (name : Text) : Prop where
  short : byteLen name ≤ 254
  ne_root : name ≠ ['.']
  labels : ∀ label ∈ (trimDot name).splitOn '.', labelError label = none
  notAddr : N.parseAddr (trimDot name) = none

/-- Equal up to letter case and a dot at the end. -/
def SameName (a b : Text) : Prop :=
  (trimDot a).map Char.toLower = (trimDot b).map Char.toLower

instance (a b : Text) : Decidable (SameName a b) := inferInstanceAs (Decidable (_ = _))

section Names

variable {Addr : Type} {N : Libraries Addr} {value name : Text}

theorem dnsConfigHostname_eq_ok :
    dnsConfigHostname N value = .ok name ↔ name = N.canonicalName value ∧ GoodName N name := by
  unfold dnsConfigHostname
  dsimp only
  by_cases h₁ : byteLen (N.canonicalName value) > 254 ∨ N.canonicalName value = ['.']
  · rw [if_pos h₁]
    simp only [reduceCtorEq, false_iff, not_and]
    rintro rfl hgood
    rcases h₁ with h₁ | h₁
    · exact absurd hgood.short (by omega)
    · exact hgood.ne_root h₁
  rw [if_neg h₁]
  rw [not_or, not_lt] at h₁
  rcases herr : ((trimDot (N.canonicalName value)).splitOn '.').findSome? labelError with _ | err
  · dsimp only
    rcases haddr : N.parseAddr (trimDot (N.canonicalName value)) with _ | a
    · rw [if_neg (by simp), Except.ok.injEq]
      constructor
      · rintro rfl
        exact ⟨rfl, h₁.1, h₁.2, List.findSome?_eq_none_iff.1 herr, haddr⟩
      · exact fun h => h.1.symm
    · rw [if_pos (by simp)]
      simp only [reduceCtorEq, false_iff, not_and]
      rintro rfl hgood
      rw [hgood.notAddr] at haddr
      cases haddr
  · obtain ⟨label, hmem, hlabel⟩ := List.exists_of_findSome?_eq_some herr
    simp only [reduceCtorEq, false_iff, not_and]
    rintro rfl hgood
    rw [hgood.labels label hmem] at hlabel
    cases hlabel

theorem mem_intercalate {c sep : Char} : ∀ {ws : List Text}, c ∈ [sep].intercalate ws →
    c = sep ∨ ∃ w ∈ ws, c ∈ w
  | [], h => by simp at h
  | [w], h => by
    rw [List.intercalate_singleton] at h
    exact .inr ⟨w, by simp, h⟩
  | w :: w' :: ws, h => by
    rw [List.intercalate_cons_cons] at h
    simp only [List.mem_append, List.mem_singleton] at h
    rcases h with (h | h) | h
    · exact .inr ⟨w, by simp, h⟩
    · exact .inl h
    · refine (mem_intercalate h).imp_right ?_
      rintro ⟨v, hv, hc⟩
      exact ⟨v, List.mem_cons_of_mem w hv, hc⟩

theorem hostnameChar_of_labelError {label : Text} (h : labelError label = none) :
    ∀ c ∈ label, hostnameChar c = true := by
  unfold labelError at h
  split_ifs at h with h₁ h₂
  simpa using h₂

theorem trimDot_append_dot (s : Text) : trimDot (s ++ ['.']) = s := by
  simp [trimDot]

theorem mem_of_mem_trimDot {c : Char} {s : Text} (h : c ∈ trimDot s) : c ∈ s := by
  unfold trimDot at h
  split_ifs at h
  · exact List.dropLast_subset s h
  · exact h

theorem trimDot_cases (s : Text) : s = trimDot s ++ ['.'] ∨ s = trimDot s := by
  unfold trimDot
  split_ifs with h
  · exact .inl (List.dropLast_append_getLast? '.' h).symm
  · exact .inr rfl

theorem GoodName.no_backslash (h : GoodName N name) : '\\' ∉ name := by
  intro hmem
  have hmem : '\\' ∈ trimDot name := by
    rcases trimDot_cases name with hs | hs
    · rw [hs] at hmem
      simpa using hmem
    · rwa [← hs]
  have hjoin : ['.'].intercalate ((trimDot name).splitOn '.') = trimDot name :=
    List.intercalate_splitOn '.'
  rw [← hjoin] at hmem
  rcases mem_intercalate hmem with hc | ⟨label, hlabel, hc⟩
  · exact absurd hc (by decide)
  · have := hostnameChar_of_labelError (h.labels label hlabel) _ hc
    exact absurd this (by decide)

theorem backslash_mem_map {s : Text} : '\\' ∈ s.map Char.toLower ↔ '\\' ∈ s := by
  have hb : ∀ c : Char, c.toLower = '\\' ↔ c = '\\' := fun c => toLower_eq_iff (.inr (by decide))
  simp only [List.mem_map, hb, exists_eq_right]

section Documented

variable (hN : N.Documented)

include hN

theorem no_backslash_of_canonicalName (h : '\\' ∉ N.canonicalName value) : '\\' ∉ value := by
  intro hmem
  have hlower := backslash_mem_map.2 hmem
  rcases hN.canonicalName_cases value with heq | heq <;> rw [heq] at h
  · exact h hlower
  · exact h (List.mem_append_left _ hlower)

theorem SameName.canonicalName_eq (hs : SameName value value')
    (h : GoodName N (N.canonicalName value)) : N.canonicalName value' = N.canonicalName value := by
  have hvalue := no_backslash_of_canonicalName hN h.no_backslash
  have hvalue' : '\\' ∉ value' := by
    intro hmem
    have htrim : '\\' ∈ trimDot value' := by
      rcases trimDot_cases value' with hd | hd
      · rw [hd] at hmem
        simpa using hmem
      · rwa [← hd]
    have := backslash_mem_map.2 htrim
    rw [← hs, backslash_mem_map] at this
    exact hvalue (mem_of_mem_trimDot this)
  rw [hN.canonicalName_eq value hvalue, hN.canonicalName_eq value' hvalue', hs]

theorem GoodName.canonicalName_canonicalName (h : GoodName N (N.canonicalName value)) :
    N.canonicalName (N.canonicalName value) = N.canonicalName value := by
  have hvalue := no_backslash_of_canonicalName hN h.no_backslash
  rw [hN.canonicalName_eq _ h.no_backslash, hN.canonicalName_eq _ hvalue, trimDot_append_dot,
    List.map_map]
  congr 2
  funext c
  exact toLower_toLower c

end Documented

end Names

section Forall₂

variable {α β γ : Type} {R : α → β → Prop} {R' : γ → β → Prop} {S : α → γ → Prop}

theorem forall₂_transport (h : ∀ a b c, S a c → R a b → R' c b) :
    ∀ {l : List α} {l' : List γ} {u : List β}, List.Forall₂ S l l' → List.Forall₂ R l u →
      List.Forall₂ R' l' u
  | _, _, _, .nil, .nil => .nil
  | _, _, _, .cons hs hss, .cons hr hrs => .cons (h _ _ _ hs hr) (forall₂_transport h hss hrs)

theorem exists_of_forall₂ : ∀ {l : List α} {u : List β}, List.Forall₂ R l u →
    ∀ b ∈ u, ∃ a, R a b
  | _, _, .nil, b, hb => by cases hb
  | _, _, .cons hr hrs, b, hb => by
    rcases List.mem_cons.1 hb with rfl | hb
    · exact ⟨_, hr⟩
    · exact exists_of_forall₂ hrs b hb

end Forall₂

theorem sortStrings_perm (l : List Text) : (sortStrings l).Perm l := List.perm_insertionSort _ l

theorem sortStrings_congr {l l' : List Text} (h : l.Perm l') : sortStrings l = sortStrings l' :=
  (((sortStrings_perm l).trans h).trans (sortStrings_perm l').symm).eq_of_pairwise'
    (List.pairwise_insertionSort _ l) (List.pairwise_insertionSort _ l')

section Addresses

variable {Addr : Type} {N : Libraries Addr} {raw : Text} {a : Addr}

def ReadsAddress (N : Libraries Addr) (raw : Text) (a : Addr) : Prop :=
  ∃ b, N.parseAddr raw = some b ∧ N.zone b = [] ∧ N.unmap b = a

def SameAddress (N : Libraries Addr) (raw raw' : Text) : Prop :=
  ∃ a a', N.parseAddr raw = some a ∧ N.parseAddr raw' = some a' ∧ N.zone a' = N.zone a ∧
    N.unmap a' = N.unmap a

theorem SameAddress.reads {raw' : Text} (h : SameAddress N raw raw') (ha : ReadsAddress N raw a) :
    ReadsAddress N raw' a := by
  obtain ⟨b, b', hb, hb', hzone, hunmap⟩ := h
  obtain ⟨c, hc, hcz, rfl⟩ := ha
  obtain rfl : b = c := Option.some.inj (hb.symm.trans hc)
  exact ⟨b', hb', hzone.trans hcz, hunmap⟩

theorem ReadsAddress.string (hN : N.Documented) (h : ReadsAddress N raw a) :
    ReadsAddress N (N.string a) a := by
  obtain ⟨b, -, hzone, rfl⟩ := h
  exact ⟨N.unmap b, hN.parseAddr_string _, hN.zone_unmap b hzone, hN.unmap_unmap b⟩

theorem validateAddresses_cons [DecidableEq Addr] {j : ℕ} {seen : List Addr} {r : List Text} :
    validateAddresses N field j seen (raw :: raws) = .ok r ↔
      ∃ a r', ReadsAddress N raw a ∧ a ∉ seen ∧
        validateAddresses N field (j + 1) (a :: seen) raws = .ok r' ∧ r = N.string a :: r' := by
  rw [validateAddresses]
  dsimp only
  rcases hb : N.parseAddr raw with _ | b
  · simp [ReadsAddress, hb]
  · dsimp only
    simp only [ite_error_eq_ok, bind_eq_ok, not_not]
    constructor
    · rintro ⟨hzone, hseen, r', hr', h⟩
      exact ⟨_, r', ⟨b, hb, hzone, rfl⟩, hseen, hr', (Except.ok.inj h).symm⟩
    · rintro ⟨a, r', ⟨c, hc, hzone, rfl⟩, hseen, hr', rfl⟩
      obtain rfl : b = c := Option.some.inj (hb.symm.trans hc)
      exact ⟨hzone, hseen, r', hr', rfl⟩

theorem validateAddresses_eq_ok [DecidableEq Addr] {field : String} :
    ∀ {raws : List Text} {j : ℕ} {seen : List Addr} {r : List Text},
      validateAddresses N field j seen raws = .ok r ↔
        ∃ as, List.Forall₂ (ReadsAddress N) raws as ∧ as.Nodup ∧ (∀ a ∈ as, a ∉ seen) ∧
          r = as.map N.string
  | [], j, seen, r => by simp [validateAddresses, eq_comm]
  | raw :: raws, j, seen, r => by
    rw [validateAddresses_cons]
    constructor
    · rintro ⟨a, r', ha, hseen, hr', rfl⟩
      obtain ⟨as, hreads, hnodup, hnew, rfl⟩ := validateAddresses_eq_ok.1 hr'
      refine ⟨a :: as, .cons ha hreads, List.nodup_cons.2 ⟨fun hmem => ?_, hnodup⟩, ?_, rfl⟩
      · exact hnew a hmem List.mem_cons_self
      · rw [List.forall_mem_cons]
        exact ⟨hseen, fun b hb => List.not_mem_of_not_mem_cons (hnew b hb)⟩
    · rintro ⟨_, hreads, hnodup, hnew, rfl⟩
      rcases hreads with _ | ⟨ha, hreads⟩
      rename_i a as
      rw [List.nodup_cons] at hnodup
      rw [List.forall_mem_cons] at hnew
      refine ⟨a, _, ha, hnew.1, validateAddresses_eq_ok.2 ⟨as, hreads, hnodup.2, ?_, rfl⟩, rfl⟩
      intro b hb
      rw [List.mem_cons, not_or]
      exact ⟨fun heq => hnodup.1 (heq ▸ hb), hnew.2 b hb⟩

end Addresses

section Nameservers

variable {Addr : Type} {N : Libraries Addr}

structure Reads (N : Libraries Addr) (ns validated : DNSNameserver) : Prop where
  host : dnsConfigHostname N ns.host = .ok validated.host
  ne_nil : ns.addresses ≠ []
  addresses : ∃ as, List.Forall₂ (ReadsAddress N) ns.addresses as ∧ as.Nodup ∧
    validated.addresses = sortStrings (as.map N.string)

/-- Two nameservers that differ in spelling and in the order of their addresses. -/
structure SameNameserver (N : Libraries Addr) (ns ns' : DNSNameserver) : Prop where
  host : SameName ns.host ns'.host
  addresses : ∃ l, ns'.addresses.Perm l ∧ List.Forall₂ (SameAddress N) ns.addresses l

theorem SameName.hostname (hN : N.Documented) {value name : Text} (hs : SameName value value')
    (h : dnsConfigHostname N value = .ok name) : dnsConfigHostname N value' = .ok name := by
  obtain ⟨rfl, hgood⟩ := dnsConfigHostname_eq_ok.1 h
  exact dnsConfigHostname_eq_ok.2 ⟨(hs.canonicalName_eq hN hgood).symm, hgood⟩

theorem hostname_hostname (hN : N.Documented) {value name : Text}
    (h : dnsConfigHostname N value = .ok name) : dnsConfigHostname N name = .ok name := by
  obtain ⟨rfl, hgood⟩ := dnsConfigHostname_eq_ok.1 h
  exact dnsConfigHostname_eq_ok.2 ⟨(hgood.canonicalName_canonicalName hN).symm, hgood⟩

theorem reads_of_perm {raws' : List Text} {as : List Addr} (hp : raws'.Perm raws)
    (h : List.Forall₂ (ReadsAddress N) raws as) (hnodup : as.Nodup) :
    ∃ as', List.Forall₂ (ReadsAddress N) raws' as' ∧ as'.Nodup ∧
      sortStrings (as.map N.string) = sortStrings (as'.map N.string) := by
  obtain ⟨as', hreads, hperm⟩ := List.perm_comp_forall₂ hp h
  exact ⟨as', hreads, hperm.nodup_iff.2 hnodup, sortStrings_congr (hperm.map _).symm⟩

theorem SameNameserver.reads (hN : N.Documented) {ns ns' validated : DNSNameserver}
    (hs : SameNameserver N ns ns') (h : Reads N ns validated) : Reads N ns' validated := by
  obtain ⟨as, hreads, hnodup, hv⟩ := h.addresses
  obtain ⟨l, hperm, hsame⟩ := hs.addresses
  refine ⟨hs.host.hostname hN h.host, fun hnil => ?_, ?_⟩
  · rw [hnil] at hperm
    obtain rfl := hperm.nil_eq
    exact h.ne_nil (List.forall₂_nil_right_iff.1 hsame)
  · have hl : List.Forall₂ (ReadsAddress N) l as :=
      forall₂_transport (fun _ _ _ hsame hread => hsame.reads hread) hsame hreads
    obtain ⟨as', hreads', hnodup', heq⟩ := reads_of_perm hperm hl hnodup
    exact ⟨as', hreads', hnodup', hv.trans heq⟩

theorem Reads.self (hN : N.Documented) {ns validated : DNSNameserver} (h : Reads N ns validated) :
    Reads N validated validated := by
  obtain ⟨as, hreads, hnodup, hv⟩ := h.addresses
  have hstring : List.Forall₂ (ReadsAddress N) (as.map N.string) as := by
    rw [List.forall₂_map_left_iff, List.forall₂_same]
    intro a ha
    obtain ⟨raw, hraw⟩ := exists_of_forall₂ hreads a ha
    exact hraw.string hN
  refine ⟨hostname_hostname hN h.host, fun hnil => ?_, ?_⟩
  · have hlen := (sortStrings_perm (as.map N.string)).length_eq
    rw [← hv, hnil] at hlen
    have hnil' : as = [] := by simpa [eq_comm] using hlen
    rw [hnil'] at hreads
    exact h.ne_nil (List.forall₂_nil_right_iff.1 hreads)
  · rw [hv]
    obtain ⟨as', hreads', hnodup', heq⟩ :=
      reads_of_perm (sortStrings_perm (as.map N.string)) hstring hnodup
    exact ⟨as', hreads', hnodup', heq⟩

theorem validateNameserver_eq_ok [DecidableEq Addr] {hosts : List Text}
    {ns validated : DNSNameserver} :
    validateNameserver N field hosts ns = .ok validated ↔
      Reads N ns validated ∧ validated.host ∉ hosts := by
  unfold validateNameserver
  rcases hhost : dnsConfigHostname N ns.host with err | host
  · simp only [reduceCtorEq, false_iff, not_and]
    intro h
    rw [h.host] at hhost
    cases hhost
  · dsimp only
    simp only [ite_error_eq_ok, bind_eq_ok, validateAddresses_eq_ok, List.length_eq_zero_iff]
    constructor
    · rintro ⟨hnew, hne, _, ⟨as, hreads, hnodup, -, rfl⟩, h⟩
      obtain rfl := Except.ok.inj h
      exact ⟨⟨hhost, hne, as, hreads, hnodup, rfl⟩, hnew⟩
    · rintro ⟨⟨hhost', hne, as, hreads, hnodup, hv⟩, hnew⟩
      obtain rfl := Except.ok.inj (hhost.symm.trans hhost')
      refine ⟨hnew, hne, _, ⟨as, hreads, hnodup, by simp, rfl⟩, ?_⟩
      rw [← hv]
      rfl

theorem validateNameservers_eq_ok [DecidableEq Addr] :
    ∀ {nss : List DNSNameserver} {i : ℕ} {hosts : List Text} {vs : List DNSNameserver},
      validateNameservers N i hosts nss = .ok vs ↔
        List.Forall₂ (Reads N) nss vs ∧ (vs.map (·.host)).Nodup ∧ ∀ v ∈ vs, v.host ∉ hosts
  | [], i, hosts, vs => by
    simp only [validateNameservers, Except.ok.injEq, List.forall₂_nil_left_iff]
    constructor
    · rintro rfl
      simp
    · exact fun h => h.1.symm
  | ns :: nss, i, hosts, vs => by
    rw [validateNameservers]
    simp only [bind_eq_ok, validateNameserver_eq_ok, validateNameservers_eq_ok]
    constructor
    · rintro ⟨v, ⟨hv, hnew⟩, vs, ⟨hvs, hnodup, hnews⟩, h⟩
      obtain rfl := Except.ok.inj h
      refine ⟨.cons hv hvs, ?_, ?_⟩
      · rw [List.map_cons, List.nodup_cons]
        refine ⟨fun hmem => ?_, hnodup⟩
        obtain ⟨w, hw, heq⟩ := List.mem_map.1 hmem
        exact hnews w hw (heq ▸ List.mem_cons_self)
      · rw [List.forall_mem_cons]
        exact ⟨hnew, fun w hw => List.not_mem_of_not_mem_cons (hnews w hw)⟩
    · rintro ⟨hvs, hnodup, hnew⟩
      rcases hvs with _ | ⟨hv, hvs⟩
      rename_i v vs
      rw [List.map_cons, List.nodup_cons] at hnodup
      rw [List.forall_mem_cons] at hnew
      refine ⟨v, ⟨hv, hnew.1⟩, vs, ⟨hvs, hnodup.2, fun w hw => ?_⟩, rfl⟩
      rw [List.mem_cons, not_or]
      exact ⟨fun heq => hnodup.1 (heq ▸ List.mem_map_of_mem hw), hnew.2 w hw⟩

end Nameservers

theorem sortHosts_perm (l : List DNSNameserver) : (sortHosts l).Perm l :=
  List.perm_insertionSort _ l

theorem sortHosts_congr {l l' : List DNSNameserver} (h : l.Perm l')
    (hnodup : (l.map (·.host)).Nodup) : sortHosts l = sortHosts l' := by
  have : Std.Total fun a b : DNSNameserver => a.host ≤ b.host := ⟨fun a b => le_total a.host b.host⟩
  have : IsTrans DNSNameserver fun a b => a.host ≤ b.host := ⟨fun _ _ _ => le_trans⟩
  refine List.Perm.eq_of_pairwise (fun a b ha hb hab hba => ?_) (List.pairwise_insertionSort _ l)
    (List.pairwise_insertionSort _ l') (((sortHosts_perm l).trans h).trans (sortHosts_perm l').symm)
  have ha := (sortHosts_perm l).mem_iff.1 ha
  have hb := h.mem_iff.2 ((sortHosts_perm l').mem_iff.1 hb)
  exact List.inj_on_of_nodup_map hnodup ha hb (le_antisymm hab hba)

section Config

variable {Addr : Type} [DecidableEq Addr] {N : Libraries Addr} {c R : DNSConfig} {localZone : Text}

/-- Two configurations that differ in spelling and in the order of nameservers and addresses. -/
structure SameConfig (N : Libraries Addr) (c c' : DNSConfig) : Prop where
  zone : SameName c.zone c'.zone
  nameservers : ∃ l, c'.nameservers.Perm l ∧ List.Forall₂ (SameNameserver N) c.nameservers l

theorem validateDNSConfig_eq_ok :
    validateDNSConfig N c localZone = .ok R ↔
      dnsConfigHostname N c.zone = .ok R.zone ∧ checkLocalZone N R.zone localZone = .ok () ∧
      c.nameservers ≠ [] ∧ ∃ vs, List.Forall₂ (Reads N) c.nameservers vs ∧
        (vs.map (·.host)).Nodup ∧ R.nameservers = sortHosts vs := by
  unfold validateDNSConfig
  rcases hzone : dnsConfigHostname N c.zone with err | zone
  · simp
  · dsimp only
    simp only [bind_eq_ok, ite_error_eq_ok, validateNameservers_eq_ok, List.length_eq_zero_iff,
      Except.ok.injEq]
    constructor
    · rintro ⟨⟨⟩, hlocal, hne, vs, ⟨hvs, hnodup, -⟩, h⟩
      obtain rfl := Except.ok.inj h
      exact ⟨rfl, hlocal, hne, vs, hvs, hnodup, rfl⟩
    · rintro ⟨rfl, hlocal, hne, vs, hvs, hnodup, hR⟩
      refine ⟨(), hlocal, hne, vs, ⟨hvs, hnodup, by simp⟩, ?_⟩
      rw [← hR]
      rfl

/-- For every configuration that is accepted: its canonical copy is accepted and returned as it is,
with the local zone and without, and configurations that differ only in the order of nameservers
and addresses, the spelling of names and the texts of addresses have the same canonical copy. -/
theorem dns_config_canonical (N : Libraries Addr) (hN : N.Documented) (c R : DNSConfig)
    (localZone : Text) (h : validateDNSConfig N c localZone = .ok R) :
    validateDNSConfig N R localZone = .ok R ∧ validateDNSConfig N R [] = .ok R ∧
      ∀ c', SameConfig N c c' → validateDNSConfig N c' localZone = .ok R := by
  obtain ⟨hzone, hlocal, hne, vs, hvs, hnodup, hR⟩ := validateDNSConfig_eq_ok.1 h
  have hperm : R.nameservers.Perm vs := hR ▸ sortHosts_perm vs
  have hself : ∀ v ∈ R.nameservers, Reads N v v := by
    intro v hv
    obtain ⟨ns, hns⟩ := exists_of_forall₂ hvs v (hperm.mem_iff.1 hv)
    exact hns.self hN
  have hnodup' : (R.nameservers.map (·.host)).Nodup := (hperm.map _).nodup_iff.2 hnodup
  have hfix : ∀ lz, checkLocalZone N R.zone lz = .ok () → validateDNSConfig N R lz = .ok R := by
    intro lz hlz
    refine validateDNSConfig_eq_ok.2 ⟨hostname_hostname hN hzone, hlz, fun hnil => ?_,
      R.nameservers, List.forall₂_same.2 hself, hnodup', ?_⟩
    · rw [hnil] at hperm
      obtain rfl := hperm.nil_eq
      exact hne (List.forall₂_nil_right_iff.1 hvs)
    · rw [hR]
      exact sortHosts_congr (sortHosts_perm vs).symm hnodup
  refine ⟨hfix localZone hlocal, hfix [] rfl, fun c' hc' => ?_⟩
  obtain ⟨l, hl, hsame⟩ := hc'.nameservers
  have hreads : List.Forall₂ (Reads N) l vs :=
    forall₂_transport (fun _ _ _ hsame hread => hsame.reads hN hread) hsame hvs
  obtain ⟨vs', hvs', hperm'⟩ := List.perm_comp_forall₂ hl hreads
  refine validateDNSConfig_eq_ok.2 ⟨hc'.zone.hostname hN hzone, hlocal, fun hnil => ?_, vs', hvs',
    (hperm'.map _).nodup_iff.2 hnodup, ?_⟩
  · rw [hnil] at hl
    obtain rfl := hl.nil_eq
    exact hne (List.forall₂_nil_right_iff.1 hsame)
  · rw [hR]
    exact sortHosts_congr hperm'.symm hnodup

end Config

/-- Addresses written with digits and dots, each in one way. -/
def DottedAddr : Type := { s : Text // s.all fun c => c.isDigit || c = '.' }

instance : DecidableEq DottedAddr :=
  fun a b => decidable_of_iff (a.1 = b.1) Subtype.ext_iff.symm

def dotted : Libraries DottedAddr where
  parseAddr s := if h : s.all fun c => c.isDigit || c = '.' then some ⟨s, h⟩ else none
  zone _ := []
  unmap := id
  string a := a.1
  canonicalName s := (trimDot s).map Char.toLower ++ ['.']
  isSubDomain parent child := parent.isSuffixOf child

theorem dotted_documented : dotted.Documented where
  parseAddr_string a := by simp only [dotted, dif_pos a.2]; rfl
  unmap_unmap _ := rfl
  zone_unmap _ _ := rfl
  canonicalName_cases s := by
    rcases trimDot_cases s with hs | hs
    · have hlower := congrArg (List.map Char.toLower) hs
      rw [List.map_append] at hlower
      exact .inl hlower.symm
    · exact .inr (congrArg (·.map Char.toLower ++ ['.']) hs.symm)
  canonicalName_eq _ _ := rfl

def twoNameservers : DNSConfig :=
  ⟨"acme.example.com".toList, [⟨"ns2.example.com.".toList, ["192.0.2.2".toList]⟩,
    ⟨"NS1.example.com".toList, ["192.0.2.3".toList, "192.0.2.1".toList]⟩]⟩

/-- The same in another spelling and order. -/
def twoNameserversAgain : DNSConfig :=
  ⟨"ACME.example.com.".toList,
    [⟨"ns1.Example.com.".toList, ["192.0.2.1".toList, "192.0.2.3".toList]⟩,
      ⟨"NS2.example.com".toList, ["192.0.2.2".toList]⟩]⟩

def twoNameserversCanonical : DNSConfig :=
  ⟨"acme.example.com.".toList,
    [⟨"ns1.example.com.".toList, ["192.0.2.1".toList, "192.0.2.3".toList]⟩,
      ⟨"ns2.example.com.".toList, ["192.0.2.2".toList]⟩]⟩

theorem sameConfig_twoNameservers : SameConfig dotted twoNameservers twoNameserversAgain := by
  have hself : ∀ s : Text, s.all (fun c => c.isDigit || c = '.') = true → SameAddress dotted s s :=
    fun s hs => ⟨⟨s, hs⟩, ⟨s, hs⟩, dif_pos hs, dif_pos hs, rfl, rfl⟩
  refine ⟨by decide +kernel, _, .swap _ _ _, .cons ⟨by decide +kernel, _, .refl _, ?_⟩ (.cons
    ⟨by decide +kernel, _, .swap _ _ _, ?_⟩ .nil)⟩
  · exact .cons (hself _ (by decide +kernel)) .nil
  · exact .cons (hself _ (by decide +kernel)) (.cons (hself _ (by decide +kernel)) .nil)

theorem dns_config_canonical_two_nameservers :
    validateDNSConfig dotted twoNameservers "Acme.example.com".toList =
      .ok twoNameserversCanonical ∧
    validateDNSConfig dotted twoNameserversCanonical [] = .ok twoNameserversCanonical ∧
    validateDNSConfig dotted twoNameserversAgain "Acme.example.com".toList =
      .ok twoNameserversCanonical := by
  have h : validateDNSConfig dotted twoNameservers "Acme.example.com".toList =
      .ok twoNameserversCanonical := by decide +kernel
  obtain ⟨-, hfixed, hsame⟩ := dns_config_canonical dotted dotted_documented _ _ _ h
  exact ⟨h, hfixed, hsame _ sameConfig_twoNameservers⟩

end Specter.Dns
