import Mathlib.Data.List.Induction
import Specter.DnsView
import Specter.Proofs.DnsConfig
import Specter.Proofs.Sync
import Specter.Proofs.VersionToken

/-!
# A DNS view is never rolled back

Every record that is accepted has the same name, so it can be compared with the token of the view,
which is that of the greatest version so far.
-/

namespace Specter.Dns

open Config Lib

variable {Addr : Type} [DecidableEq Addr] {sha256 : Bytes → Digest}
  {decodeJSON : Bytes → Option DNSConfig} {N : Libraries Addr} {parseIP : Text → Bytes}
  {domain email : Text} {records : List Record} {zone : Text}

section Accepted

variable {record : Record} {zone : Text} {dnsConfig : DNSConfig}

theorem decodeDNSConfig_eq_ok
    (h : decodeDNSConfig sha256 decodeJSON N record zone = .ok dnsConfig) :
    record.Valid sha256 ∧ record.name = dnsConfigName := by
  unfold decodeDNSConfig at h
  rcases hvalid : record.validate sha256 with err | ⟨⟩ <;> rw [hvalid] at h
  · cases h
  · dsimp only at h
    rw [ite_error_eq_ok] at h
    exact ⟨hvalid, not_not.1 h.1⟩

theorem compareVersion_accepted {d : Record} {c c' : DNSConfig} {zone' : Text}
    (h : decodeDNSConfig sha256 decodeJSON N record zone = .ok c)
    (hd : decodeDNSConfig sha256 decodeJSON N d zone' = .ok c') :
    record.compareVersion d.token.toUTF8.toList = .ok (record.version.compare d.version) := by
  obtain ⟨-, hname⟩ := decodeDNSConfig_eq_ok h
  obtain ⟨hvalid, hname'⟩ := decodeDNSConfig_eq_ok hd
  obtain ⟨hvalidName, hs, hr, -⟩ := Record.valid_iff.1 hvalid
  exact compareVersion_token (hname'.trans hname.symm) hvalidName hs hr

theorem compare_ne_gt {v w : Version} : v.compare w ≠ .gt ↔ v.key ≤ w.key := by
  rw [Version.compare_eq, ne_eq, Nat.compare_eq_gt, not_lt]

end Accepted

variable (sha256 decodeJSON N parseIP)

theorem applyConfig_cases (d : DNS) (record : Record) :
    (∃ err, applyConfig sha256 decodeJSON N parseIP d record = (.error err, d) ∧
      (decodeDNSConfig sha256 decodeJSON N record d.domain = .error err ∨
        ∃ previous err', d.view = some previous ∧
          record.compareVersion previous.version = .error err')) ∨
    ∃ c, decodeDNSConfig sha256 decodeJSON N record d.domain = .ok c ∧
      ((∃ previous order, d.view = some previous ∧
          record.compareVersion previous.version = .ok order ∧ order ≠ .gt ∧
          applyConfig sha256 decodeJSON N parseIP d record = (.ok (), d)) ∨
        (∀ previous, d.view = some previous →
          record.compareVersion previous.version = .ok .gt) ∧
        applyConfig sha256 decodeJSON N parseIP d record =
          (.ok (), { d with view := some (buildView N parseIP d.domain d.email c record) })) := by
  unfold applyConfig
  rcases decodeDNSConfig sha256 decodeJSON N record d.domain with err | c
  · exact .inl ⟨err, rfl, .inl rfl⟩
  · rcases hview : d.view with _ | previous
    · exact .inr ⟨c, rfl, .inr ⟨by simp, rfl⟩⟩
    · dsimp only
      rcases hcmp : record.compareVersion previous.version with err | order
      · exact .inl ⟨_, rfl, .inr ⟨previous, err, rfl, hcmp⟩⟩
      · dsimp only
        by_cases horder : order = .gt
        · subst horder
          refine .inr ⟨c, rfl, .inr ⟨?_, rfl⟩⟩
          rintro _ ⟨⟩
          exact hcmp
        · rw [if_pos horder]
          exact .inr ⟨c, rfl, .inl ⟨previous, order, rfl, hcmp, horder, rfl⟩⟩

/-- The view is that of the greatest version that was accepted, if any was. -/
def Newest (zone email : Text) (records : List Record) (view : Option DnsView) : Prop :=
  (view = none ∧ ∀ r ∈ records, ∀ c, decodeDNSConfig sha256 decodeJSON N r zone ≠ .ok c) ∨
    ∃ r ∈ records, ∃ c, decodeDNSConfig sha256 decodeJSON N r zone = .ok c ∧
      view = some (buildView N parseIP zone email c r) ∧
      ∀ r' ∈ records, ∀ c', decodeDNSConfig sha256 decodeJSON N r' zone = .ok c' →
        r'.version.compare r.version ≠ .gt

variable {sha256 decodeJSON N parseIP}

theorem Newest.skip {view : Option DnsView}
    (h : Newest sha256 decodeJSON N parseIP zone email records view) {record : Record}
    (hrecord : ∀ c, decodeDNSConfig sha256 decodeJSON N record zone = .ok c →
      ∃ r ∈ records, ∃ c', decodeDNSConfig sha256 decodeJSON N r zone = .ok c' ∧
        record.version.compare r.version ≠ .gt) :
    Newest sha256 decodeJSON N parseIP zone email (records ++ [record]) view := by
  obtain ⟨hview, hnone⟩ | ⟨r, hr, c, hc, hview, hmax⟩ := h
  · refine .inl ⟨hview, ?_⟩
    rw [List.forall_mem_append, List.forall_mem_singleton]
    refine ⟨hnone, fun c hc => ?_⟩
    obtain ⟨r, hr, c', hc', -⟩ := hrecord c hc
    exact hnone r hr c' hc'
  · refine .inr ⟨r, List.mem_append_left _ hr, c, hc, hview, ?_⟩
    rw [List.forall_mem_append, List.forall_mem_singleton]
    refine ⟨hmax, fun c' hc' => ?_⟩
    obtain ⟨r', hr', c'', hc'', hle⟩ := hrecord c' hc'
    rw [compare_ne_gt] at hle ⊢
    exact hle.trans (compare_ne_gt.1 (hmax r' hr' c'' hc''))

theorem Newest.apply {d : DNS}
    (h : Newest sha256 decodeJSON N parseIP d.domain d.email records d.view) (record : Record) :
    Newest sha256 decodeJSON N parseIP d.domain d.email (records ++ [record])
      (applyConfig sha256 decodeJSON N parseIP d record).2.view := by
  -- the view is that of an accepted record, so the comparison is that of the versions
  have hcompare : ∀ {c previous}, decodeDNSConfig sha256 decodeJSON N record d.domain = .ok c →
      d.view = some previous → ∃ r ∈ records, ∃ c',
        decodeDNSConfig sha256 decodeJSON N r d.domain = .ok c' ∧
        record.compareVersion previous.version = .ok (record.version.compare r.version) ∧
        ∀ r' ∈ records, ∀ c'', decodeDNSConfig sha256 decodeJSON N r' d.domain = .ok c'' →
          r'.version.compare r.version ≠ .gt := by
    intro c previous hc hprevious
    obtain ⟨hnone, -⟩ | ⟨r, hr, c', hc', hview, hmax⟩ := h
    · rw [hnone] at hprevious
      cases hprevious
    · obtain rfl := Option.some.inj (hprevious.symm.trans hview)
      exact ⟨r, hr, c', hc', compareVersion_accepted hc hc', hmax⟩
  obtain ⟨err, heq, herr⟩ | ⟨c, hc, ⟨previous, order, hview, hcmp, horder, heq⟩ | ⟨hgt, heq⟩⟩ :=
    applyConfig_cases sha256 decodeJSON N parseIP d record
  · rw [heq]
    refine h.skip fun c hc => ?_
    rcases herr with herr | ⟨previous, err', hview, herr⟩
    · rw [hc] at herr
      cases herr
    · obtain ⟨r, -, c', -, hok, -⟩ := hcompare hc hview
      rw [herr] at hok
      cases hok
  · rw [heq]
    refine h.skip fun c' hc' => ?_
    obtain ⟨r, hr, c'', hc'', hok, -⟩ := hcompare hc hview
    rw [hcmp] at hok
    exact ⟨r, hr, c'', hc'', Except.ok.inj hok ▸ horder⟩
  · rw [heq]
    refine .inr ⟨record, by simp, c, hc, rfl, ?_⟩
    rw [List.forall_mem_append, List.forall_mem_singleton]
    refine ⟨fun r' hr' c' hc' => ?_, fun _ _ => compare_ne_gt.2 le_rfl⟩
    rcases hview : d.view with _ | previous
    · obtain ⟨-, hnone⟩ | ⟨r, -, c, -, hsome, -⟩ := h
      · exact absurd hc' (hnone r' hr' c')
      · rw [hview] at hsome
        cases hsome
    · obtain ⟨r, hr, c'', hc'', hok, hmax⟩ := hcompare hc hview
      rw [hgt previous hview] at hok
      have hlt : ¬record.version.key ≤ r.version.key := fun hle =>
        compare_ne_gt.2 hle (Except.ok.inj hok).symm
      rw [compare_ne_gt]
      exact (compare_ne_gt.1 (hmax r' hr' c' hc')).trans (not_le.1 hlt).le

variable (sha256 decodeJSON N parseIP)

theorem applyConfig_keeps (d : DNS) (record : Record) :
    (applyConfig sha256 decodeJSON N parseIP d record).2.domain = d.domain ∧
      (applyConfig sha256 decodeJSON N parseIP d record).2.email = d.email := by
  obtain ⟨_, heq, -⟩ | ⟨_, -, ⟨_, _, -, -, -, heq⟩ | ⟨-, heq⟩⟩ :=
    applyConfig_cases sha256 decodeJSON N parseIP d record <;> rw [heq] <;> exact ⟨rfl, rfl⟩

theorem newest_applyAll (domain email : Text) (records : List Record) :
    let d := applyAll sha256 decodeJSON N parseIP (.fresh N domain email) records
    d.domain = N.canonicalName domain ∧ d.email = email ∧
      Newest sha256 decodeJSON N parseIP (N.canonicalName domain) email records d.view := by
  induction records using List.reverseRecOn with
  | nil => exact ⟨rfl, rfl, .inl ⟨rfl, by simp⟩⟩
  | append_singleton records record ih =>
    dsimp only at ih ⊢
    rw [applyAll, List.foldl_append, ← applyAll]
    set d := applyAll sha256 decodeJSON N parseIP (.fresh N domain email) records
    obtain ⟨hdomain, hemail, hnewest⟩ := ih
    rw [← hdomain, ← hemail] at hnewest
    obtain ⟨hdomain', hemail'⟩ := applyConfig_keeps sha256 decodeJSON N parseIP d record
    have happly := hnewest.apply record
    rw [hdomain, hemail] at happly
    exact ⟨hdomain'.trans hdomain, hemail'.trans hemail, happly⟩

theorem Newest.unique {records' : List Record} {view view' : Option DnsView}
    (h : Newest sha256 decodeJSON N parseIP zone email records view)
    (h' : Newest sha256 decodeJSON N parseIP zone email records' view')
    (hsame : ∀ r c, decodeDNSConfig sha256 decodeJSON N r zone = .ok c →
      (r ∈ records ↔ r ∈ records')) (hcoll : NoCollision sha256 records) : view = view' := by
  obtain ⟨hview, hnone⟩ | ⟨r, hr, c, hc, hview, hmax⟩ := h <;>
    obtain ⟨hview', hnone'⟩ | ⟨r', hr', c', hc', hview', hmax'⟩ := h'
  · rw [hview, hview']
  · exact absurd hc' (hnone r' ((hsame r' c' hc').2 hr') c')
  · exact absurd hc (hnone' r ((hsame r c hc).1 hr) c)
  · have hr'' := (hsame r' c' hc').2 hr'
    have hle := compare_ne_gt.1 (hmax' r ((hsame r c hc).1 hr) c hc)
    have hge := compare_ne_gt.1 (hmax r' hr'' c' hc')
    have hversion := Version.key_injective (le_antisymm hle hge)
    obtain ⟨hvalid, hname⟩ := decodeDNSConfig_eq_ok hc
    obtain ⟨hvalid', hname'⟩ := decodeDNSConfig_eq_ok hc'
    have hdigest := (Record.valid_iff.1 hvalid).2.2.2.2
    have hdigest' := (Record.valid_iff.1 hvalid').2.2.2.2
    have hvalue : r.value = r'.value := by
      refine hcoll r hr r' hr'' ?_
      rw [← hdigest, ← hdigest', hversion]
    obtain rfl : r = r' := by
      cases r
      cases r'
      simp_all
    obtain rfl := Except.ok.inj (hc.symm.trans hc')
    rw [hview, hview']

/-- For every sequence of calls on the server of a domain: the view is built from the greatest
version among the records that were accepted; a call that fails leaves the view as it is; and
another order of the same accepted records leads to the same view. -/
theorem dns_view_never_rolls_back (domain email : Text) (records : List Record) :
    Newest sha256 decodeJSON N parseIP (N.canonicalName domain) email records
      (applyAll sha256 decodeJSON N parseIP (.fresh N domain email) records).view ∧
    (∀ record err,
      (applyConfig sha256 decodeJSON N parseIP
        (applyAll sha256 decodeJSON N parseIP (.fresh N domain email) records) record).1 =
          .error err →
      (applyConfig sha256 decodeJSON N parseIP
        (applyAll sha256 decodeJSON N parseIP (.fresh N domain email) records) record).2.view =
          (applyAll sha256 decodeJSON N parseIP (.fresh N domain email) records).view) ∧
    ∀ records', (∀ r c, decodeDNSConfig sha256 decodeJSON N r (N.canonicalName domain) = .ok c →
        (r ∈ records ↔ r ∈ records')) → NoCollision sha256 records →
      (applyAll sha256 decodeJSON N parseIP (.fresh N domain email) records).view =
        (applyAll sha256 decodeJSON N parseIP (.fresh N domain email) records').view := by
  have hnewest := (newest_applyAll sha256 decodeJSON N parseIP domain email records).2.2
  refine ⟨hnewest, fun record err herr => ?_, fun records' hsame hcoll => ?_⟩
  · obtain ⟨_, heq, -⟩ | ⟨_, -, ⟨_, _, -, -, -, heq⟩ | ⟨-, heq⟩⟩ :=
      applyConfig_cases sha256 decodeJSON N parseIP
        (applyAll sha256 decodeJSON N parseIP (.fresh N domain email) records) record
    · rw [heq]
    · rw [heq]
    · rw [heq] at herr
      cases herr
  · have hnewest' := (newest_applyAll sha256 decodeJSON N parseIP domain email records').2.2
    exact hnewest.unique sha256 decodeJSON N parseIP hnewest' hsame hcoll

def dnsRecord (revision : UInt64) (value : Bytes) : Record :=
  ⟨dnsConfigName, ⟨1, revision, firstByte value⟩, value⟩

/-- The document `[1]` has two nameservers, and `[2]` has one of them. -/
def dnsDocument (value : Bytes) : Option DNSConfig :=
  if value = [1] then some twoNameservers
  else if value = [2] then some ⟨twoNameservers.zone, twoNameservers.nameservers.take 1⟩ else none

def acmeServer (records : List Record) : DNS := applyAll firstByte dnsDocument dotted (fun _ => [])
  (.fresh dotted "acme.example.com".toList "admin@example.com".toList) records

/-- Two documents of one revision and one of an earlier revision, in two orders. -/
theorem dns_view_of_two_revisions :
    let records := [dnsRecord 2 [2], dnsRecord 1 [1], dnsRecord 2 [1]]
    (acmeServer records).view = (acmeServer records.reverse).view ∧
      (acmeServer records).view.map (fun v => (v.soa.serial, v.soa.ns)) =
        some (2, "ns2.example.com.".toList) := by
  refine ⟨(dns_view_never_rolls_back firstByte dnsDocument dotted (fun _ => []) _ _ _).2.2 _
    (fun r c _ => List.mem_reverse.symm) ?_, by decide +kernel⟩
  unfold NoCollision
  decide +kernel

end Specter.Dns
