import Specter.Lib.Letters
import Specter.Proofs.Gateway

/-!
# Letter case in hosts

What is compared with the root domains is the host or its part after the first dot, as the visitor
spelled it.  So two spellings are treated the same exactly if what is compared, where it is a root
domain at all, is in lower case in both or in neither.
-/

namespace Specter.Gateway

open Lib

/-- Equal up to the case of ASCII letters. -/
def SameLetters (a b : Host) : Prop := a.map Char.toLower = b.map Char.toLower

def LowerCase (host : Host) : Prop := host.map Char.toLower = host

instance (a b : Host) : Decidable (SameLetters a b) := inferInstanceAs (Decidable (_ = _))

instance (host : Host) : Decidable (LowerCase host) := inferInstanceAs (Decidable (_ = _))

def parent (host : Host) : Host := (host.dropWhile (· ≠ '.')).tail

section Letters

variable {a b : Host} {roots : List Host}

theorem toLower_eq_dot (c : Char) : c.toLower = '.' ↔ c = '.' := toLower_eq_iff (.inl (by decide))

theorem ne_dot_comp_toLower :
    ((fun c : Char => decide (c ≠ '.')) ∘ Char.toLower) = fun c => decide (c ≠ '.') := by
  funext c
  simp [toLower_eq_dot]

theorem SameLetters.takeWhile (h : SameLetters a b) :
    SameLetters (a.takeWhile (· ≠ '.')) (b.takeWhile (· ≠ '.')) := by
  have := congrArg (List.takeWhile (· ≠ '.')) h
  rwa [List.takeWhile_map, List.takeWhile_map, ne_dot_comp_toLower] at this

theorem SameLetters.parent (h : SameLetters a b) : SameLetters (parent a) (parent b) := by
  have := congrArg (fun l => (List.dropWhile (· ≠ '.') l).tail) h
  rwa [List.dropWhile_map, List.dropWhile_map, ne_dot_comp_toLower, ← List.map_tail,
    ← List.map_tail] at this

theorem count_map_toLower (a : Host) : (a.map Char.toLower).count '.' = a.count '.' := by
  rw [List.count_eq_countP, List.countP_map, List.count_eq_countP]
  congr 1
  funext c
  simp [toLower_eq_dot]

theorem SameLetters.count (h : SameLetters a b) : a.count '.' = b.count '.' := by
  rw [← count_map_toLower a, ← count_map_toLower b, h]

theorem SameLetters.length (h : SameLetters a b) : a.length = b.length := by
  simpa using congrArg List.length h

theorem mem_roots_iff (hroots : ∀ r ∈ roots, LowerCase r) (a : Host) :
    a ∈ roots ↔ a.map Char.toLower ∈ roots ∧ LowerCase a := by
  constructor
  · intro ha
    have hlow := hroots a ha
    exact ⟨by rwa [hlow], hlow⟩
  · rintro ⟨ha, hlow⟩
    rwa [hlow] at ha

theorem SameLetters.mem_roots_iff (hroots : ∀ r ∈ roots, LowerCase r) (h : SameLetters a b) :
    (a ∈ roots ↔ b ∈ roots) ↔
      (a.map Char.toLower ∈ roots → (LowerCase a ↔ LowerCase b)) := by
  rw [Gateway.mem_roots_iff hroots a, Gateway.mem_roots_iff hroots b, ← h]
  tauto

end Letters

section Hostnames

variable {parseIP : Host → Bool} {toLower : Char → Char} {g : GatewayConfig} {a b : Host}

theorem length_takeWhile_dot_lt (h : 2 ≤ a.count '.') :
    (a.takeWhile (· ≠ '.')).length < a.length := by
  obtain ⟨label, rest, ha, hdot⟩ :=
    List.eq_append_cons_of_mem (List.count_pos_iff.1 (show 0 < a.count '.' by omega))
  rw [ha, takeWhile_append_cons hdot]
  simp

theorem extractHostname_eq (a : Host) :
    extractHostname parseIP toLower g a =
      if parseIP a then .error .isIP
      else if a.count '.' < 2 then .error .tooFewLabels
      else .ok ((if parent a ∈ g.rootDomains then a.takeWhile (· ≠ '.') else a).map toLower) := by
  unfold extractHostname
  by_cases hcount : a.count '.' < 2
  · simp only [if_pos hcount]
  · obtain ⟨label, rest, ha, hdot⟩ :=
      List.eq_append_cons_of_mem (List.count_pos_iff.1 (show 0 < a.count '.' by omega))
    have hdrop : a.dropWhile (· ≠ '.') = '.' :: rest := by rw [ha, dropWhile_append_cons hdot]
    rw [parent, hdrop]
    rfl

theorem extractHostname_eq_iff (hip : parseIP a = parseIP b)
    (hlower : ∀ c, c.toNat < 128 → toLower c = c.toLower) (h : SameLetters a b) :
    extractHostname parseIP toLower g a = extractHostname parseIP toLower g b ↔
      (parseIP a = false → 2 ≤ a.count '.' →
        (parent a ∈ g.rootDomains ↔ parent b ∈ g.rootDomains)) := by
  have hmap : ∀ {u v : Host}, SameLetters u v → u.map toLower = v.map toLower := by
    intro u v huv
    refine List.ext_getElem (by simp [huv.length]) fun i h₁ h₂ => ?_
    simp only [List.getElem_map]
    apply eq_of_toLower hlower
    have := List.getElem_of_eq huv (by simpa using h₁)
    simpa using this
  rw [extractHostname_eq, extractHostname_eq, ← hip, ← h.count]
  split_ifs with h₁ h₂ ha hb hb
  · simp [h₁]
  · simp only [true_iff]
    omega
  · simp only [ha, hb, hmap h.takeWhile, implies_true]
  · have hlt := length_takeWhile_dot_lt (a := a) (by omega)
    refine iff_of_false (fun heq => ?_) fun himp => hb ((himp (by simpa using h₁) (by omega)).1 ha)
    have := congrArg List.length (Except.ok.inj heq)
    rw [List.length_map, List.length_map, ← h.length] at this
    omega
  · have hlt := length_takeWhile_dot_lt (a := b) (by rw [← h.count]; omega)
    refine iff_of_false (fun heq => ?_) fun himp => ha ((himp (by simpa using h₁) (by omega)).2 hb)
    have := congrArg List.length (Except.ok.inj heq)
    rw [List.length_map, List.length_map, h.length] at this
    omega
  · simp only [ha, hb, hmap h, implies_true]

theorem handleH3Connection_eq_apex {proto : Alpn} :
    handleH3Connection parseIP toLower g a proto = .apex ↔ a.length ≠ 0 ∧ a ∈ g.rootDomains := by
  unfold handleH3Connection
  split_ifs with h₁ h₂
  · simp [h₁]
  · simp [h₁, h₂]
  · cases proto <;> simp [h₂]

section

variable (hlen : a.length = b.length) (hroot : a ∈ g.rootDomains ↔ b ∈ g.rootDomains)
  (hext : extractHostname parseIP toLower g a = extractHostname parseIP toLower g b)

include hlen hroot hext

theorem handleH3Connection_congr (proto : Alpn) :
    handleH3Connection parseIP toLower g a proto =
      handleH3Connection parseIP toLower g b proto := by
  unfold handleH3Connection
  simp only [hlen, hroot, hext]

theorem handleH2Connection_congr (handshake : Bool) (proto : Alpn) (session : Bool) :
    handleH2Connection parseIP toLower g handshake a proto session =
      handleH2Connection parseIP toLower g handshake b proto session := by
  unfold handleH2Connection
  simp only [hlen, hroot, hext]

end

/-- For lower-case root domains and two spellings of a host, with `net.ParseIP` and
`strings.ToLower` as documented: both go to the same handlers and have the same hostname or error
and the same hint, if and only if the host, if it is a root domain, is in lower case in both or in
neither, and so is its part after the first dot. -/
theorem letter_case_ignored_iff (parseIP : Host → Bool) (toLower : Char → Char)
    (g : GatewayConfig) (a b : Host) (hroots : ∀ r ∈ g.rootDomains, LowerCase r)
    (hip : ∀ u v, SameLetters u v → parseIP u = parseIP v)
    (hlower : ∀ c, c.toNat < 128 → toLower c = c.toLower) (h : SameLetters a b) :
    ((∀ proto, handleH3Connection parseIP toLower g a proto =
        handleH3Connection parseIP toLower g b proto) ∧
      (∀ handshake proto session, handleH2Connection parseIP toLower g handshake a proto session =
        handleH2Connection parseIP toLower g handshake b proto session) ∧
      (∀ hint, handshakeEarlyHint parseIP toLower g hint a =
        handshakeEarlyHint parseIP toLower g hint b) ∧
      extractHostname parseIP toLower g a = extractHostname parseIP toLower g b) ↔
    (a.map Char.toLower ∈ g.rootDomains → (LowerCase a ↔ LowerCase b)) ∧
    (parseIP a = false → 2 ≤ a.count '.' → (parent a).map Char.toLower ∈ g.rootDomains →
      (LowerCase (parent a) ↔ LowerCase (parent b))) := by
  have hext_iff := extractHostname_eq_iff (g := g) (hip a b h) hlower h
  rw [← h.parent.mem_roots_iff hroots, ← h.mem_roots_iff hroots, ← hext_iff]
  constructor
  · rintro ⟨h₃, -, -, hext⟩
    refine ⟨?_, hext⟩
    by_cases ha : a.length = 0
    · obtain rfl := List.eq_nil_of_length_eq_zero ha
      obtain rfl := List.eq_nil_of_length_eq_zero (h.length.symm.trans ha)
      rfl
    · have hapex : handleH3Connection parseIP toLower g a .http = .apex ↔
          handleH3Connection parseIP toLower g b .http = .apex := by rw [h₃]
      rw [handleH3Connection_eq_apex, handleH3Connection_eq_apex, ← h.length] at hapex
      simpa [ha] using hapex
  · rintro ⟨hroot, hext⟩
    refine ⟨handleH3Connection_congr h.length hroot hext,
      handleH2Connection_congr h.length hroot hext, fun hint => ?_, hext⟩
    unfold handshakeEarlyHint
    rw [hext]

end Hostnames

def exampleGateway : GatewayConfig := ⟨["example.com".toList], fun _ => false, false⟩

theorem letter_case_ignored_in_the_label :
    extractHostname noIP Char.toLower exampleGateway "App.example.com".toList =
      extractHostname noIP Char.toLower exampleGateway "app.example.com".toList :=
  ((letter_case_ignored_iff noIP Char.toLower exampleGateway "App.example.com".toList
    "app.example.com".toList (by decide +kernel) (fun _ _ _ => rfl) (fun _ _ => rfl)
    (by decide +kernel)).2 (by decide +kernel)).2.2.2

/-- `Example.com` does not go to the apex handlers, and `app.Example.com` is taken for a hostname of
its own. -/
theorem letter_case_matters :
    SameLetters "example.com".toList "Example.com".toList ∧
    handleH3Connection noIP Char.toLower exampleGateway "example.com".toList .http = .apex ∧
    handleH3Connection noIP Char.toLower exampleGateway "Example.com".toList .http = .http ∧
    SameLetters "app.example.com".toList "app.Example.com".toList ∧
    extractHostname noIP Char.toLower exampleGateway "app.example.com".toList =
      .ok "app".toList ∧
    extractHostname noIP Char.toLower exampleGateway "app.Example.com".toList =
      .ok "app.example.com".toList := by
  decide +kernel

end Specter.Gateway
