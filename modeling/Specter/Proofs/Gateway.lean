import Specter.Gateway

/-!
# When the gateway dials what it checked

The name that is dialed comes from the authority by taking the hostname up to four times.  The three
names agree exactly if there is nothing left to strip after the first time
(`application_names_agree_iff`).
-/

namespace Specter.Gateway

variable {c : Char} {host : Host} {l : Host}

theorem takeWhile_append_cons {u v : Host} (h : c ∉ u) : (u ++ c :: v).takeWhile (· ≠ c) = u := by
  rw [List.takeWhile_append_of_pos (by simpa using fun x hx (hc : x = c) => h (hc ▸ hx))]
  simp

theorem dropWhile_append_cons {u v : Host} (h : c ∉ u) :
    (u ++ c :: v).dropWhile (· ≠ c) = c :: v := by
  rw [List.dropWhile_append_of_pos (by simpa using fun x hx (hc : x = c) => h (hc ▸ hx))]
  simp

theorem eq_takeWhile_append {d : Char} {rest : Host} (h : l.dropWhile (· ≠ c) = d :: rest) :
    l = l.takeWhile (· ≠ c) ++ c :: rest := by
  have hd : d = c := by
    have := List.head?_dropWhile_not (· ≠ c) l
    rw [h] at this
    simpa using this
  rw [← hd] at h ⊢
  rw [← h, List.takeWhile_append_dropWhile]

theorem cutLast_append {before after : Host} (h : c ∉ after) :
    cutLast c (before ++ c :: after) = some (before, after) := by
  have hrev : (before ++ c :: after).reverse = after.reverse ++ c :: before.reverse := by simp
  have hr : c ∉ after.reverse := by simpa using h
  simp only [cutLast, hrev, dropWhile_append_cons hr, takeWhile_append_cons hr,
    List.reverse_reverse]

theorem eq_append_of_cutLast {before after : Host} (h : cutLast c l = some (before, after)) :
    l = before ++ c :: after := by
  unfold cutLast at h
  split at h
  · cases h
  · rename_i d rest hd
    cases h
    have := congrArg List.reverse (eq_takeWhile_append hd)
    simpa using this

theorem cutLast_of_not_mem (h : c ∉ l) : cutLast c l = none := by
  cases hc : cutLast c l with
  | none => rfl
  | some p => exact absurd (eq_append_of_cutLast hc ▸ by simp) h

theorem trimBrackets_cases (host : Host) :
    trimBrackets host = host ∨ host = '[' :: (trimBrackets host ++ [']']) := by
  unfold trimBrackets
  split_ifs with h
  · right
    obtain ⟨hhead, hlast⟩ := h
    obtain ⟨rest, rfl⟩ := List.head?_eq_some_iff.1 hhead
    obtain ⟨inner, hinner⟩ := List.getLast?_eq_some_iff.1 hlast
    cases inner with
    | nil => simp at hinner
    | cons a inner =>
      cases hinner
      simp
  · exact .inl rfl

theorem trimBrackets_bracketed (host : Host) : trimBrackets ('[' :: (host ++ [']'])) = host := by
  have hlast : ('[' :: (host ++ [']'])).getLast? = some ']' := by
    rw [← List.cons_append, List.getLast?_concat]
  simp [trimBrackets, hlast]

theorem length_trimBrackets_le (host : Host) : (trimBrackets host).length ≤ host.length := by
  rcases trimBrackets_cases host with h | h
  · exact Nat.le_of_eq (congrArg _ h)
  · have := congrArg List.length h
    simp at this
    omega

theorem hostname_cases (host : Host) :
    hostname host = host ∨ (hostname host).length < host.length := by
  have htrim : trimBrackets host = host ∨ (trimBrackets host).length < host.length := by
    rcases trimBrackets_cases host with h | h
    · exact .inl h
    · have := congrArg List.length h
      simp at this
      omega
  unfold hostname splitHostPort
  split
  · rename_i before port hcut
    split_ifs
    · right
      have hlen := congrArg List.length (eq_append_of_cutLast hcut)
      have := length_trimBrackets_le before
      simp at hlen
      simp only
      omega
    · exact htrim
  · exact htrim

theorem length_hostname_le (host : Host) : (hostname host).length ≤ host.length := by
  rcases hostname_cases host with h | h
  · exact Nat.le_of_eq (congrArg _ h)
  · omega

theorem hostname_eq_of_length_le (h : host.length ≤ (hostname host).length) :
    hostname host = host := by
  rcases hostname_cases host with heq | hlt
  · exact heq
  · omega

theorem colon_not_mem_port (host : Host) : ':' ∉ port host := by
  unfold port splitHostPort
  split
  · split_ifs with hd
    · intro hmem
      exact absurd (List.all_eq_true.1 hd _ hmem) (by decide)
    · simp
  · simp

/-- Splitting a joined address gives the host back, without brackets if they were its own. -/
theorem netSplitHostPort_joinHostPort {port host' port' : Host} (hp : ':' ∉ port)
    (h : netSplitHostPort (joinHostPort host port) = some (host', port')) :
    host' = host ∨ (':' ∉ host ∧ host = '[' :: (host' ++ [']'])) := by
  unfold joinHostPort at h
  split_ifs at h with hc
  · left
    have hcut : cutLast ':' ('[' :: (host ++ ']' :: ':' :: port))
        = some ('[' :: (host ++ [']']), port) := by
      rw [← cutLast_append hp]
      simp
    simp only [netSplitHostPort, hcut] at h
    split at h
    · cases h
    · rename_i d rest hd
      split_ifs at h with hrest
      cases h
      have := eq_takeWhile_append hd
      rw [hrest.1] at this
      exact (List.append_cancel_right this).symm
  · simp only [netSplitHostPort, cutLast_append hp] at h
    split at h
    · rename_i inner hinner
      split at h
      · cases h
      · rename_i d rest hd
        split_ifs at h with hrest
        cases h
        right
        refine ⟨hc, ?_⟩
        have := eq_takeWhile_append hd
        rw [hrest.1] at this
        rw [this] at hinner
        have hcons : host ++ ':' :: port
            = ('[' :: (inner.takeWhile (· ≠ ']') ++ [']'])) ++ ':' :: port := by
          simpa using hinner
        exact List.append_cancel_right hcons
    · split_ifs at h
      cases h
      exact .inl rfl

section

variable {parseIP : Host → Bool} {toLower : Char → Char} {g : GatewayConfig} {r : Request}
  {names : Names}

theorem length_extractHostname {name : Host} (hroot : g.rootDomains = [])
    (h : extractHostname parseIP toLower g host = .ok name) : name.length = host.length := by
  unfold extractHostname at h
  split_ifs at h
  split at h
  · cases h
  · cases h
    simp [hroot]

theorem extractHostname_of_ok {name : Host} (g' : GatewayConfig)
    (h : extractHostname parseIP toLower g host = .ok name) :
    ∃ name', extractHostname parseIP toLower g' host = .ok name' := by
  unfold extractHostname at h ⊢
  split_ifs at h ⊢
  split at h
  · cases h
  · exact ⟨_, rfl⟩

def forwardedHost (r : Request) : Host :=
  effectiveRequestHost { r with host := effectiveRequestHost r }

theorem forwardedHost_cases (r : Request) :
    forwardedHost r = effectiveRequestHost r
      ∨ forwardedHost r = hostname (effectiveRequestHost r) := by
  obtain ⟨protoMajor, tls, host⟩ := r
  cases tls with
  | none => exact .inr rfl
  | some serverName =>
    by_cases h : protoMajor < 2
    · exact .inl (by simp [forwardedHost, effectiveRequestHost, h])
    · exact .inr (by simp [forwardedHost, effectiveRequestHost, h])

theorem applicationHandler_eq_some (h : applicationHandler parseIP toLower g r = some names) :
    names.checked = (extractHostname parseIP toLower g (effectiveRequestHost r)).toOption
      ∧ names.inspected = (extractHostname parseIP toLower g (forwardedHost r)).toOption
      ∧ parseAddr parseIP toLower g (dialAddr (forwardedHost r)) = .ok names.dialed := by
  unfold applicationHandler at h
  simp only at h
  split_ifs at h
  split at h
  · cases h
  · rename_i dialed hd
    cases h
    exact ⟨rfl, rfl, hd⟩

theorem parseAddr_eq_ok {addr name : Host} (h : parseAddr parseIP toLower g addr = .ok name) :
    ∃ host port, netSplitHostPort addr = some (host, port)
      ∧ extractHostname parseIP toLower g host = .ok name := by
  unfold parseAddr at h
  split at h
  · cases h
  · rename_i host port hsplit
    exact ⟨host, port, hsplit, h⟩

theorem netSplitHostPort_dialAddr {urlHost port : Host}
    (h : netSplitHostPort (dialAddr urlHost) = some (host, port)) :
    host = hostname urlHost
      ∨ (':' ∉ hostname urlHost ∧ hostname urlHost = '[' :: (host ++ [']'])) := by
  refine netSplitHostPort_joinHostPort ?_ h
  split_ifs
  · decide
  · exact colon_not_mem_port urlHost

theorem hostname_ne_of_bracketed {inner : Host} (hc : ':' ∉ host)
    (h : host = '[' :: (inner ++ [']'])) : hostname host ≠ host := by
  have heq : hostname host = inner := by
    simp only [hostname, splitHostPort, cutLast_of_not_mem hc]
    rw [h, trimBrackets_bracketed]
  intro hself
  have hlen := congrArg List.length (heq.symm.trans hself |>.trans h)
  simp at hlen
  omega

theorem applicationHandler_plain (h : applicationHandler parseIP toLower g r = some names) :
    ∃ names', applicationHandler parseIP toLower ⟨[], fun _ => false, false⟩ r = some names' := by
  obtain ⟨_, _, hdial⟩ := applicationHandler_eq_some h
  obtain ⟨host, port, hsplit, hext⟩ := parseAddr_eq_ok hdial
  obtain ⟨name', hname'⟩ := extractHostname_of_ok ⟨[], fun _ => false, false⟩ hext
  have hparse : parseAddr parseIP toLower ⟨[], fun _ => false, false⟩
      (dialAddr (forwardedHost r)) = .ok name' := by
    simp only [parseAddr, hsplit, hname']
  unfold forwardedHost at hparse
  simp [applicationHandler, hparse]

/-- A request that can be forwarded is checked, inspected and dialed under one hostname, at every
gateway, exactly if its authority has no second port or brackets to strip. -/
theorem application_names_agree_iff (parseIP : Host → Bool) (toLower : Char → Char) (r : Request)
    (hf : ∃ g names, applicationHandler parseIP toLower g r = some names) :
    (∀ g names, applicationHandler parseIP toLower g r = some names →
        names.checked = some names.dialed ∧ names.inspected = some names.dialed)
      ↔ hostname (effectiveRequestHost r) = effectiveRequestHost r := by
  constructor
  · intro hall
    obtain ⟨g, names, hnames⟩ := hf
    obtain ⟨names', h⟩ := applicationHandler_plain hnames
    obtain ⟨hchecked, _, hdial⟩ := applicationHandler_eq_some h
    obtain ⟨host, port, hsplit, hext⟩ := parseAddr_eq_ok hdial
    have hlen : (effectiveRequestHost r).length = host.length := by
      have hsame := (hall _ _ h).1
      rw [hchecked] at hsame
      cases hc : extractHostname parseIP toLower ⟨[], fun _ => false, false⟩
          (effectiveRequestHost r) with
      | error e => simp [hc, Except.toOption] at hsame
      | ok name =>
        rw [hc] at hsame
        cases hsame
        rw [← length_extractHostname rfl hc, length_extractHostname rfl hext]
    have hhost : host.length ≤ (hostname (forwardedHost r)).length := by
      rcases netSplitHostPort_dialAddr hsplit with hd | ⟨_, hd⟩
      · exact Nat.le_of_eq (congrArg _ hd)
      · rw [hd]
        simp
        omega
    apply hostname_eq_of_length_le
    rcases forwardedHost_cases r with hr | hr
    · rw [hr] at hhost
      omega
    · rw [hr] at hhost
      have := length_hostname_le (hostname (effectiveRequestHost r))
      omega
  · intro hone g names h
    obtain ⟨hchecked, hinspected, hdial⟩ := applicationHandler_eq_some h
    have hforward : forwardedHost r = effectiveRequestHost r := by
      rcases forwardedHost_cases r with hr | hr
      · exact hr
      · rw [hr, hone]
    obtain ⟨host, port, hsplit, hext⟩ := parseAddr_eq_ok hdial
    rw [hforward] at hinspected hsplit
    have hhost : host = effectiveRequestHost r := by
      have hcases := netSplitHostPort_dialAddr hsplit
      rw [hone] at hcases
      rcases hcases with hd | ⟨hc, hd⟩
      · exact hd
      · exact absurd hone (hostname_ne_of_bracketed hc hd)
    rw [hhost] at hext
    rw [hchecked, hinspected, hext]
    exact ⟨rfl, rfl⟩

end

/-- What `net.ParseIP` does on hosts whose labels are not all numbers. -/
def noIP (_ : Host) : Bool := false

theorem application_names_agree_port :
    (∃ g names, applicationHandler noIP Char.toLower g
        ⟨2, some "a.example.com".toList, "A.example.com:8443".toList⟩ = some names)
      ∧ ∀ g names, applicationHandler noIP Char.toLower g
          ⟨2, some "a.example.com".toList, "A.example.com:8443".toList⟩ = some names →
        names.checked = some names.dialed ∧ names.inspected = some names.dialed := by
  have hf : ∃ g names, applicationHandler noIP Char.toLower g
      ⟨2, some "a.example.com".toList, "A.example.com:8443".toList⟩ = some names :=
    ⟨⟨["example.com".toList], fun _ => false, true⟩, ⟨some ['a'], some ['a'], ['a']⟩,
      by decide +kernel⟩
  exact ⟨hf, (application_names_agree_iff noIP Char.toLower _ hf).2 (by decide +kernel)⟩

/-- Over HTTP/2 the authority `a.example.com:1:2:3` is checked and inspected as hosts of nobody,
and dialed as the tunnel `a`. -/
theorem application_names_differ :
    applicationHandler noIP Char.toLower ⟨["example.com".toList], fun _ => false, true⟩
        ⟨2, some "a.example.com".toList, "a.example.com:1:2:3".toList⟩
      = some ⟨some "a.example.com:1:2".toList, some "a.example.com:1".toList, ['a']⟩ := by
  decide +kernel

end Specter.Gateway
