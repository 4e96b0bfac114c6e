import Specter.Proofs.Lease

/-!
# Whether lease tokens are final

A token is the expiry of its lease, so two grants can issue the same one, and whoever held the first
then holds the second as well.  In a run where no token is issued twice, a token that was released
or superseded is never accepted again.
-/

namespace Specter

/-- The tokens the lease has issued, the latest first. -/
def issued (trace : List Swap) : List ℕ := (trace.filter Swap.issues).map Swap.token

/-- Served where the token is `cur`, the call does not issue a token that was issued before. -/
def LeaseStep.IssuesFresh (x : LeaseStep) (cur : ℕ) (trace : List Swap) : Prop :=
  match x.call with
  | .acquire ttl => (cur : ℤ) ≤ x.now → ∀ td token, durationGuard ttl = some td →
      nextToken x.now td 0 = .ok token → token ∉ issued trace
  | .renew ttl prevToken => cur = prevToken → x.now < cur → ∀ td token,
      durationGuard ttl = some td → nextToken x.now td prevToken = .ok token →
      token ∉ issued trace
  | .release _ => True

/-- Nobody releases the token 0 of a lease that is not held. -/
def LeaseStep.ReleasesToken (x : LeaseStep) (cur : ℕ) : Prop :=
  x.call = .release 0 → cur ≠ 0

def LeaseCall.token : LeaseCall → Option ℕ
  | .acquire _ => none
  | .renew _ token | .release token => some token

/-- The token was issued, and neither released nor superseded since the lease exists. -/
def Current (trace : List Swap) (token : ℕ) : Prop := token ∈ issued trace ∧ ¬ Ended trace token

section Trace

variable {made : ℕ → LeaseCall → Prop} {trace : List Swap}

theorem Swap.Made.issues_iff {e : Swap} {call : LeaseCall} (h : e.Made call) :
    e.issues = true ↔ e.token ≠ 0 := by
  cases call with
  | acquire _ =>
    obtain ⟨_, _, hg, -, -, hn⟩ := h
    simp [issues, hg, (nextToken_lt hn).1]
  | renew _ _ =>
    obtain ⟨_, _, hg, -, -, -, -, hn⟩ := h
    simp [issues, hg, (nextToken_lt hn).1]
  | release _ => simp [issues, h.1, h.2.2]

theorem issued_cons (e : Swap) (es : List Swap) :
    issued (e :: es) = if e.issues then e.token :: issued es else issued es := by
  unfold issued
  rw [List.filter_cons]
  split_ifs <;> rfl

theorem History.stored_issued (h : History made trace) (h0 : stored trace ≠ 0) :
    ∃ e es, trace = e :: es ∧ issued trace = e.token :: issued es := by
  cases trace with
  | nil => exact absurd rfl h0
  | cons e es =>
    obtain ⟨-, call, -, hm⟩ := h.1
    exact ⟨e, es, rfl, by rw [issued_cons, if_pos (hm.issues_iff.2 h0)]⟩

theorem History.prev_issued {e₀ e : Swap} {es : List Swap} (h : History made (e₀ :: es))
    (he : e ∈ e₀ :: es) (h0 : e.prev ≠ 0) : e.prev ∈ issued es := by
  induction es generalizing e₀ with
  | nil =>
    obtain rfl := List.mem_singleton.1 he
    exact absurd h.1.1 h0
  | cons e₁ es ih =>
    obtain rfl | he := List.mem_cons.1 he
    · obtain ⟨⟨hprev, -⟩, hes⟩ := h
      rw [hprev] at h0 ⊢
      obtain ⟨i, is, heq, his⟩ := hes.stored_issued h0
      rw [his, heq]
      exact List.mem_cons_self
    · have hmem := ih h.2 he
      rw [issued_cons]
      split_ifs
      · exact List.mem_cons_of_mem _ hmem
      · exact hmem

/-- If no token was issued twice, the stored one is current. -/
theorem History.current (h : History made trace) (hnodup : (issued trace).Nodup)
    (h0 : stored trace ≠ 0) : Current trace (stored trace) := by
  obtain ⟨e, es, rfl, hiss⟩ := h.stored_issued h0
  refine ⟨by rw [hiss]; exact List.mem_cons_self, ?_⟩
  rintro ⟨e', he', hprev, -⟩
  have hagain := h.prev_issued he' (hprev ▸ h0)
  rw [hiss] at hnodup
  rw [hprev] at hagain
  exact (List.nodup_cons.1 hnodup).1 hagain

end Trace

section Steps

variable {S : Type} {handle : Bool → Request → S → Except ChordError Reply × S} {token : S → ℕ}
  {key : Bytes} {xs : List LeaseStep} {s : S}

variable (handle token key) in
/-- Every step of the run meets the condition, in the state it is taken in. -/
def Always (cond : LeaseStep → ℕ → List Swap → Prop) (xs : List LeaseStep) (s : S) : Prop :=
  ∀ before x after, xs = before ++ x :: after →
    cond x (token (leaseRun handle token key before s).store)
      (leaseRun handle token key before s).trace

variable (handle token key) in
/-- Every `Renew` or `Release` that the run accepts names a current token. -/
def TokensFinal (xs : List LeaseStep) (s : S) : Prop :=
  ∀ before x after tok reply, xs = before ++ x :: after → x.call.token = some tok →
    (handle x.fault (x.call.request key x.now) (leaseRun handle token key before s).store).1 =
      .ok reply → Current (leaseRun handle token key before s).trace tok

theorem Always.init {cond : LeaseStep → ℕ → List Swap → Prop} {x : LeaseStep}
    (h : Always handle token key cond (xs ++ [x]) s) : Always handle token key cond xs s :=
  fun before y after heq => h before y (after ++ [x]) (by rw [heq]; simp)

section

variable (hxs : ∀ x ∈ xs, Lawful handle token key x) (hs : token s = 0)
  (hfresh : Always handle token key LeaseStep.IssuesFresh xs s)

include hxs hs hfresh

theorem leaseRun_nodup : (issued (leaseRun handle token key xs s).trace).Nodup := by
  induction xs using List.reverseRecOn with
  | nil => exact List.nodup_nil
  | append_singleton xs x ih =>
    have hxs' := fun y hy => hxs y (List.mem_append_left [x] hy)
    have hnodup := ih hxs' hfresh.init
    have hx := hfresh xs x [] rfl
    obtain ⟨hlt, -, -⟩ := leaseRun_history hxs' hs
    rw [leaseRun_snoc]
    rcases leaseStep_cases (hxs x (by simp)) hlt with
      ⟨_, -, -, h2⟩ | ⟨_, e, -, -, hg, hprev, hm, -, h2⟩ <;> rw [h2]
    · exact hnodup
    have hnew : e.issues = true → e.token ∉ issued (leaseRun handle token key xs s).trace := by
      intro hi
      unfold LeaseStep.IssuesFresh at hx
      rcases hc : x.call with ttl | ⟨ttl, prevToken⟩ | tok <;> rw [hc] at hm hx
      · obtain ⟨now, td, hgr, htd, hle, hn⟩ := hm
        have hnow : now = x.now := LeaseStep.reading_grant (by rw [← hg, hgr]; rfl)
        subst hnow
        exact hx (hprev ▸ hle) td _ htd hn
      · obtain ⟨now, td, hgr, htd, heq, -, hlt, hn⟩ := hm
        have hnow : now = x.now := LeaseStep.reading_grant (by rw [← hg, hgr]; rfl)
        subst hnow
        exact hx (hprev ▸ heq) (hprev ▸ hlt) td _ htd (heq ▸ hn)
      · simp [Swap.issues, hm.1] at hi
    rw [issued_cons]
    split_ifs with hi
    · exact List.nodup_cons.2 ⟨hnew hi, hnodup⟩
    · exact hnodup

theorem leaseRun_tokensFinal
    (hrelease : ∀ before x after reply, xs = before ++ x :: after → x.call = .release 0 →
      token (leaseRun handle token key before s).store = 0 →
      (handle x.fault (x.call.request key x.now) (leaseRun handle token key before s).store).1 ≠
        .ok reply) : TokensFinal handle token key xs s := by
  rintro before x after tok reply rfl htok hok
  have hbefore : ∀ y ∈ before, Lawful handle token key y :=
    fun y hy => hxs y (List.mem_append_left _ hy)
  obtain ⟨hlt, hstored, hhist⟩ := leaseRun_history hbefore hs
  have hnodup := leaseRun_nodup hbefore hs fun b y a heq =>
    hfresh b y (a ++ x :: after) (by rw [heq]; simp)
  -- what is accepted is the stored token, and not 0
  obtain ⟨heq, h0⟩ : token (leaseRun handle token key before s).store = tok ∧ tok ≠ 0 := by
    rcases hxs x (by simp) _ hlt with ⟨e, he, -⟩ | ⟨_, -, hm⟩
    · cases he.symm.trans hok
    rcases hc : x.call with ttl | ⟨ttl, prevToken⟩ | token' <;> rw [hc] at hm htok <;> cases htok
    · obtain ⟨_, _, -, -, heq, h0, -⟩ := hm
      exact ⟨heq, heq ▸ h0⟩
    · refine ⟨hm.2.1, ?_⟩
      rintro rfl
      exact hrelease before x after reply rfl hc hm.2.1 hok
  rw [← heq, hstored]
  rw [← heq, hstored] at h0
  exact hhist.current hnodup h0

end

end Steps

/-- The tokens of a lease are final, in every run whose steps issue none twice and, in memory,
release none that is not held. -/
theorem lease_tokens_final (hashFn : Bytes → ℕ) (key : Bytes) (hhash : hashFn key < 2 ^ 64)
    (xs : List LeaseStep) (hfits : ∀ x ∈ xs, x.call.Fits) :
    (∀ m : MemoryKV hashFn, (m.val key).lease = 0 →
      let handle := fun (_ : Bool) r (m : MemoryKV hashFn) => m.handle r
      let token := fun m : MemoryKV hashFn => (m.val key).lease
      Always handle token key (fun x cur trace => x.IssuesFresh cur trace ∧ x.ReleasesToken cur)
        xs m → TokensFinal handle token key xs m) ∧
    ∀ s : SqliteKV hashFn, (s.val key).lease = 0 →
      let token := fun s : SqliteKV hashFn => (s.val key).lease
      Always SqliteKV.handle token key LeaseStep.IssuesFresh xs s →
        TokensFinal SqliteKV.handle token key xs s := by
  refine ⟨fun m hm => ?_, fun s hs => ?_⟩
  · intro handle token hall
    refine leaseRun_tokensFinal (fun x _ m _ => m.outcome x key) hm
      (fun before x after heq => (hall before x after heq).1) ?_
    intro before x after reply heq hc h0
    exact absurd h0 ((hall before x after heq).2 hc)
  · intro token hall
    refine leaseRun_tokensFinal (fun x hx s hlt => s.outcome hhash (hfits x hx) hlt) hs hall ?_
    intro before x after reply _ hc _ hok
    rw [hc] at hok
    rcases hf : x.fault with _ | _ <;> rw [hf] at hok
    · have hz := Tables.release_zero hashFn key
        (leaseRun SqliteKV.handle token key before s).store.tokens
      simp only [SqliteKV.handle, LeaseCall.request, Tables.handle, hz] at hok
      cases hok
    · cases hok

/-- The lease is granted, released and granted again, and then released with the first token. -/
def staleRelease : List LeaseStep :=
  [⟨0, .acquire second, 1, false⟩, ⟨0, .release 1000000001, 2, false⟩,
    ⟨1, .acquire second, 3, false⟩, ⟨0, .release 1000000001, 4, false⟩]

theorem always_staleRelease {S : Type} {handle : Bool → Request → S → Except ChordError Reply × S}
    {token : S → ℕ} {s : S}
    (htrace : issued (leaseRun handle token [] (staleRelease.take 2) s).trace = [1000000001]) :
    Always handle token [] (fun x cur trace => x.IssuesFresh cur trace ∧ x.ReleasesToken cur)
      staleRelease s := by
  rintro (_ | ⟨_, _ | ⟨_, _ | ⟨_, _ | ⟨_, _ | _⟩⟩⟩⟩) x after heq <;> cases heq
  · exact ⟨fun _ _ _ _ _ => List.not_mem_nil, fun h => by cases h⟩
  · exact ⟨trivial, fun h => by cases h⟩
  · refine ⟨fun _ td tok htd htok hmem => ?_, fun h => by cases h⟩
    obtain rfl := List.mem_singleton.1 (htrace ▸ hmem)
    cases htd
    simp [nextToken, second, maxInt64] at htok
  · exact ⟨trivial, fun h => by cases h⟩

theorem lease_tokens_final_released :
    (let handle := fun (_ : Bool) r (m : MemoryKV fun _ => 0) => m.handle r
      let token := fun m : MemoryKV fun _ => 0 => (m.val []).lease
      TokensFinal handle token [] staleRelease (.withHashFn _) ∧
      ((leaseRun handle token [] (staleRelease.take 3) (.withHashFn _)).store.handle
        (.release [] 1000000001)).1 = .error .kvLeaseExpired) ∧
    let token := fun s : SqliteKV fun _ => 0 => (s.val []).lease
    TokensFinal SqliteKV.handle token [] staleRelease (.withHashFn _) ∧
      ((leaseRun SqliteKV.handle token [] (staleRelease.take 3) (.withHashFn _)).store.handle false
        (.release [] 1000000001)).1 = .error .kvLeaseExpired := by
  obtain ⟨h1, h2⟩ := lease_tokens_final (fun _ => 0) [] (by decide) staleRelease
    (by simp [staleRelease, LeaseCall.Fits])
  have hall : Always SqliteKV.handle (fun s : SqliteKV fun _ => 0 => (s.val []).lease) [] _
    staleRelease (.withHashFn _) := always_staleRelease (by decide +kernel)
  exact ⟨⟨h1 _ (by decide +kernel) (always_staleRelease (by decide +kernel)), by decide +kernel⟩,
    h2 _ (by decide +kernel) fun before x after heq => (hall before x after heq).1,
    by decide +kernel⟩

/-- The token is issued, released and issued again, and then released by its first holder. -/
def reusedToken : List LeaseStep :=
  [⟨0, .acquire (2 * second), second, false⟩, ⟨0, .release 3000000000, second, false⟩,
    ⟨1, .acquire second, 2 * second, false⟩, ⟨0, .release 3000000000, 2 * second, false⟩]

/-- Neither provider keeps tokens final, and in memory a lease that is not held can be released. -/
theorem released_token_accepted : ClockForward reusedToken ∧
    ¬ TokensFinal (fun (_ : Bool) r (m : MemoryKV fun _ => 0) => m.handle r)
      (fun m => (m.val []).lease) [] reusedToken (.withHashFn fun _ => 0) ∧
    ¬ TokensFinal SqliteKV.handle (fun s : SqliteKV fun _ => 0 => (s.val []).lease) []
      reusedToken (.withHashFn fun _ => 0) ∧
    ¬ TokensFinal (fun (_ : Bool) r (m : MemoryKV fun _ => 0) => m.handle r)
      (fun m => (m.val []).lease) [] [⟨0, .release 0, 0, false⟩] (.withHashFn fun _ => 0) := by
  refine ⟨by simp [ClockForward, reusedToken, second], fun h => ?_, fun h => ?_, fun h => ?_⟩
  · have htrace := h (reusedToken.take 3) _ [] 3000000000 .done rfl rfl (by decide +kernel)
    exact htrace.2 ⟨⟨0, .release, 3000000000, 0⟩, by decide +kernel, rfl, .inl rfl⟩
  · have htrace := h (reusedToken.take 3) _ [] 3000000000 .done rfl rfl (by decide +kernel)
    exact htrace.2 ⟨⟨0, .release, 3000000000, 0⟩, by decide +kernel, rfl, .inl rfl⟩
  · have htrace := h [] _ [] 0 .done rfl rfl (by decide +kernel)
    exact absurd htrace.1 List.not_mem_nil

end Specter
