import Specter.Kv

/-!
# Lease requests on one key

When a lease request is granted, and with which token.
-/

namespace Specter

theorem durationGuard_spec {ttl td : ℤ} (h : durationGuard ttl = some td) :
    td = ttl - ttl.tmod second ∧ second ≤ td := by
  unfold durationGuard at h
  simp only at h
  split_ifs at h with hlt
  cases h
  exact ⟨rfl, by omega⟩

theorem nextToken_spec {now ttl : ℤ} {previous next : ℕ}
    (h : nextToken now ttl previous = .ok next) :
    0 ≤ now ∧ second ≤ ttl ∧ now + ttl ≤ maxInt64 ∧ (previous : ℤ) < maxInt64 ∧
      (next : ℤ) = max (now + ttl) (previous + 1) := by
  unfold nextToken at h
  split_ifs at h with h1 h2
  cases h
  unfold second at *
  omega

theorem nextToken_lt {now ttl : ℤ} {previous next : ℕ}
    (h : nextToken now ttl previous = .ok next) : next ≠ 0 ∧ next < 2 ^ 63 := by
  obtain ⟨h1, h2, h3, h4, h5⟩ := nextToken_spec h
  unfold second maxInt64 at *
  omega

namespace KvValue

variable (v : KvValue)

theorem acquire_cases (ttl now : ℤ) : (∃ e, v.acquire ttl now = (.error e, v)) ∨
    ∃ td next, durationGuard ttl = some td ∧ nextToken now td 0 = .ok next ∧
      (v.lease : ℤ) ≤ now ∧
      v.acquire ttl now = (.ok (.token next), { v with lease := next }) := by
  unfold acquire
  rcases durationGuard ttl with _ | td
  · exact .inl ⟨_, rfl⟩
  simp only
  rcases hn : nextToken now td 0 with e | next
  · exact .inl ⟨_, rfl⟩
  simp only
  split_ifs with hc
  · exact .inl ⟨_, rfl⟩
  · exact .inr ⟨td, next, rfl, hn, by omega, rfl⟩

theorem renew_cases (ttl now : ℤ) (prevToken : ℕ) :
    (∃ e, v.renew ttl now prevToken = (.error e, v)) ∨
    ∃ td next, durationGuard ttl = some td ∧ nextToken now td prevToken = .ok next ∧
      v.lease ≠ 0 ∧ v.lease = prevToken ∧ now < toInt64 v.lease ∧
      v.renew ttl now prevToken = (.ok (.token next), { v with lease := next }) := by
  unfold renew
  rcases durationGuard ttl with _ | td
  · exact .inl ⟨_, rfl⟩
  simp only
  rcases hn : nextToken now td prevToken with e | next
  · exact .inl ⟨_, rfl⟩
  simp only
  split_ifs with h1 h2 h3
  · exact .inl ⟨_, rfl⟩
  · exact .inl ⟨_, rfl⟩
  · exact .inl ⟨_, rfl⟩
  · exact .inr ⟨td, next, rfl, hn, h1, not_not.1 h3, by omega, rfl⟩

theorem release_cases (token : ℕ) : (∃ e, v.release token = (.error e, v)) ∨
    v.lease = token ∧ v.release token = (.ok .done, { v with lease := 0 }) := by
  unfold release
  split_ifs with h
  · exact .inr ⟨h, rfl⟩
  · exact .inl ⟨_, rfl⟩

theorem lease_handle_lt (h : v.lease < 2 ^ 63) (r : Request) :
    (v.handle r).2.lease < 2 ^ 63 := by
  cases r with
  | acquire key ttl now =>
    rcases v.acquire_cases ttl now with ⟨e, he⟩ | ⟨td, next, -, hn, -, he⟩ <;> rw [handle, he]
    · exact h
    · exact (nextToken_lt hn).2
  | renew key ttl now prevToken =>
    rcases v.renew_cases ttl now prevToken with ⟨e, he⟩ | ⟨td, next, -, hn, -, -, -, he⟩ <;>
      rw [handle, he]
    · exact h
    · exact (nextToken_lt hn).2
  | release key token =>
    rcases v.release_cases token with ⟨e, he⟩ | ⟨-, he⟩ <;> rw [handle, he]
    · exact h
    · exact Nat.two_pow_pos 63
  | prefixAppend key child =>
    simp only [handle]
    split_ifs <;> exact h
  | put | get | delete | prefixList | prefixContains | prefixRemove => exact h

end KvValue

end Specter
