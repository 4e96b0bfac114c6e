import Specter.RetryKv
import Specter.Proofs.Kv
import Specter.Proofs.Memory

/-!
# Conflicts a caller has with itself

If an attempt was carried out and its answer was lost, the next one may be refused because of it.
That is the only way to a conflict: it was there before the first attempt, or the wrapper got past
an attempt that was carried out.
-/

namespace Specter

open KVProvider

variable {ttl : ℤ} {e : ChordError} {v : KvValue} {attempts : ℕ} {xs : List Attempt} {lease : Bytes}

/-- The wrapped KV answers with errors of its own only where it refuses, and an answer that is lost
shows as a retryable error. -/
def Attempt.Genuine (conflict : ChordError) (a : Attempt) : Prop :=
  match a.delivery with
  | .unsent e => e ≠ conflict
  | .answered => True
  | .unanswered e => errorIsRetryable e = true

section Walk

variable {S : Type} [KVProvider S] {attempts n : ℕ} {request : ℤ → Request} {conflict : ChordError}

def Attempt.goesOn (a : Attempt) (attempts n : ℕ) (e : ChordError) : Bool :=
  errorIsRetryable e && n + 1 ≠ attempts && a.wait == .elapsed

/-- The attempts the wrapper gets past, and the answered one it gets to, each with the store
before it. -/
def walk (attempts : ℕ) (request : ℤ → Request) :
    ℕ → List Attempt → S → List (Attempt × S) × Option (Attempt × S)
  | _, [], _ => ([], none)
  | n, a :: rest, s =>
    match a.delivery with
    | .answered => ([], some (a, s))
    | .unsent e | .unanswered e =>
      if a.goesOn attempts n e then
        let (passed, last) := walk attempts request (n + 1) rest (a.run (request a.now) s).2
        ((a, s) :: passed, last)
      else ([], none)

section Cons

variable {a : Attempt} {rest : List Attempt} {e : ChordError} {s s' : S}

theorem retryDo_goesOn (hrun : a.run (request a.now) s = (.error e, s'))
    (hgo : a.goesOn attempts n e = true) :
    retryDo attempts request n (a :: rest) s = retryDo attempts request (n + 1) rest s' := by
  simp only [Attempt.goesOn, Bool.and_eq_true, decide_eq_true_eq, beq_iff_eq] at hgo
  obtain ⟨⟨hr, hn⟩, hw⟩ := hgo
  simp [retryDo, hrun, hr, hn, hw]

theorem retryDo_stop (rest : List Attempt) (hrun : a.run (request a.now) s = (.error e, s'))
    (hgo : a.goesOn attempts n e = false) :
    ∃ e', retryDo attempts request n (a :: rest) s = some (.error e') ∧
      (e' = e ∨ e' = .deadlineExceeded ∨ e' = .other) := by
  simp only [retryDo, hrun]
  split_ifs with hr hn
  · exact ⟨e, rfl, .inl rfl⟩
  · exact ⟨e, rfl, .inl rfl⟩
  · rcases hw : a.wait with _ | _ | _
    · simp [Attempt.goesOn, hn, hw] at hgo
      simp [hgo] at hr
    · exact ⟨_, rfl, .inr (.inl rfl)⟩
    · exact ⟨_, rfl, .inr (.inr rfl)⟩

theorem retryDo_ok {reply : Reply} (hrun : a.run (request a.now) s = (.ok reply, s')) :
    retryDo attempts request n (a :: rest) s = some (.ok reply) := by
  simp [retryDo, hrun]

theorem walk_cons (hd : a.delivery ≠ .answered) (hrun : a.run (request a.now) s = (.error e, s')) :
    walk attempts request n (a :: rest) s =
      if a.goesOn attempts n e then
        ((a, s) :: (walk attempts request (n + 1) rest s').1,
          (walk attempts request (n + 1) rest s').2)
      else ([], none) := by
  rw [walk]
  rcases hdel : a.delivery with e' | _ | e'
  · simp only [Attempt.run, hdel, Prod.mk.injEq, Except.error.injEq] at hrun
    obtain ⟨rfl, rfl⟩ := hrun
    simp only [Attempt.run, hdel]
  · exact absurd hdel hd
  · simp only [Attempt.run, hdel, Prod.mk.injEq, Except.error.injEq] at hrun
    obtain ⟨rfl, rfl⟩ := hrun
    simp only [Attempt.run, hdel]

theorem Attempt.run_unanswered (hretry : errorIsRetryable conflict = false)
    (hd : a.delivery ≠ .answered) (hgen : a.Genuine conflict) (r : Request) (s : S) :
    ∃ e s', a.run r s = (.error e, s') ∧ e ≠ conflict := by
  unfold Genuine at hgen
  unfold run
  rcases hdel : a.delivery with e | _ | e <;> rw [hdel] at hgen
  · exact ⟨e, s, rfl, hgen⟩
  · exact absurd hdel hd
  · refine ⟨e, _, rfl, ?_⟩
    rintro rfl
    cases hgen.symm.trans hretry

end Cons

theorem retryDo_conflict (hretry : errorIsRetryable conflict = false) (hother : conflict ≠ .other)
    (hstore : ∀ now (s : S) e, (handle (request now) s).1 = .error e → errorIsRetryable e = false)
    (hgen : ∀ a ∈ xs, a.Genuine conflict) {s : S} :
    retryDo attempts request n xs s = some (.error conflict) ↔
      ∃ a s', (walk attempts request n xs s).2 = some (a, s') ∧
        (handle (request a.now) s').1 = .error conflict := by
  induction xs generalizing n s with
  | nil => simp [retryDo, walk]
  | cons a rest ih =>
    by_cases hd : a.delivery = .answered
    · have hrun : a.run (request a.now) s = handle (request a.now) s := by
        simp only [Attempt.run, hd]
      have hwalk : walk attempts request n (a :: rest) s = ([], some (a, s)) := by
        simp only [walk, hd]
      rw [hwalk]
      rcases hres : handle (request a.now) s with ⟨e | reply, s'⟩
      · have hstop : retryDo attempts request n (a :: rest) s = some (.error e) := by
          simp [retryDo, hrun.trans hres, hstore a.now s e (by rw [hres])]
        rw [hstop]
        constructor
        · rintro ⟨⟩
          exact ⟨a, s, rfl, by rw [hres]⟩
        · rintro ⟨b, s₁, hb, he⟩
          cases hb
          rw [hres] at he
          exact congrArg some he
      · rw [retryDo_ok (hrun.trans hres)]
        refine iff_of_false nofun ?_
        rintro ⟨b, s₁, hb, he⟩
        cases hb
        rw [hres] at he
        cases he
    · obtain ⟨e, s', hrun, hne⟩ := Attempt.run_unanswered hretry hd (hgen a (by simp))
        (request a.now) s
      rw [walk_cons hd hrun]
      rcases hgo : a.goesOn attempts n e with _ | _
      · obtain ⟨e', he', h⟩ := retryDo_stop rest hrun hgo
        rw [he']
        refine iff_of_false ?_ (by simp)
        rintro heq
        cases heq
        rcases h with rfl | rfl | rfl
        · exact hne rfl
        · cases hretry
        · exact hother rfl
      · rw [retryDo_goesOn hrun hgo, ih fun b hb => hgen b (List.mem_cons_of_mem _ hb)]
        rfl

end Walk

section Effects

variable {S : Type} [KVProvider S] {attempts n : ℕ} {a : Attempt} {xs : List Attempt} {s s' : S}
  {td : ℤ}

def Attempt.Lost (a : Attempt) : Prop := ∃ e, a.delivery = .unanswered e

theorem Attempt.val_run (hash : Bytes → ℕ) [LawfulProvider S hash] (hd : a.delivery ≠ .answered)
    (r : Request) (s : S) :
    (a.Lost ∧ val (a.run r s).2 r.key = ((val s r.key).handle r).2) ∨
      (¬ a.Lost ∧ val (a.run r s).2 r.key = val s r.key) := by
  unfold Lost run
  rcases hdel : a.delivery with e | _ | e
  · exact .inr ⟨by simp, rfl⟩
  · exact absurd hdel hd
  · exact .inl ⟨⟨e, rfl⟩, LawfulProvider.handle_key hash r s⟩

variable {request : ℤ → Request} {p : List (Attempt × S)}

theorem walk_cases {b : Attempt} {rest : List Attempt}
    (h : walk attempts request n (b :: rest) s = (p, some (a, s'))) :
    (p = [] ∧ b = a ∧ s = s') ∨ (b.delivery ≠ .answered ∧ ∃ p', p = (b, s) :: p' ∧
      walk attempts request (n + 1) rest (b.run (request b.now) s).2 = (p', some (a, s'))) := by
  by_cases hd : b.delivery = .answered
  · simp only [walk, hd] at h
    cases h
    exact .inl ⟨rfl, rfl, rfl⟩
  · obtain ⟨e, s₁, hrun⟩ : ∃ e s₁, b.run (request b.now) s = (.error e, s₁) := by
      unfold Attempt.run
      rcases hdel : b.delivery with e | _ | e
      exacts [⟨e, s, rfl⟩, absurd hdel hd, ⟨e, _, rfl⟩]
    rw [walk_cons hd hrun] at h
    split_ifs at h
    · obtain ⟨rfl, hlast⟩ := Prod.mk.inj h
      refine .inr ⟨hd, _, rfl, ?_⟩
      rw [hrun]
      exact Prod.ext rfl hlast
    · cases h

/-- A walk that gets to an answered attempt, from there back to its start. -/
theorem walk_induction {P : S → List (Attempt × S) → Prop} (hlast : P s' [])
    (hstep : ∀ (b : Attempt) (s : S) (p : List (Attempt × S)), b.delivery ≠ .answered →
      P (b.run (request b.now) s).2 p → P s ((b, s) :: p))
    (h : walk attempts request n xs s = (p, some (a, s'))) : P s p := by
  induction xs generalizing n s p with
  | nil => cases h
  | cons b rest ih =>
    obtain ⟨rfl, rfl, rfl⟩ | ⟨hd, p', rfl, h'⟩ := walk_cases h
    · exact hlast
    · exact hstep b s p' hd (ih h')

theorem walk_now (hclock : xs.Pairwise fun x y => x.now ≤ y.now)
    (h : walk attempts request n xs s = (p, some (a, s'))) :
    a ∈ xs ∧ ∀ x ∈ p, x.1.now ≤ a.now := by
  induction xs generalizing n s p with
  | nil => cases h
  | cons b rest ih =>
    obtain ⟨rfl, rfl, rfl⟩ | ⟨-, p', rfl, h'⟩ := walk_cases h
    · simp
    · obtain ⟨hb, hrest⟩ := List.pairwise_cons.1 hclock
      obtain ⟨ha, hp⟩ := ih hrest h'
      exact ⟨List.mem_cons_of_mem _ ha, List.forall_mem_cons.2 ⟨hb a ha, hp⟩⟩

theorem KvValue.mem_prefixAppend (v : KvValue) (pfx child : Bytes) :
    child ∈ (v.handle (.prefixAppend pfx child)).2.children := by
  simp only [handle]
  split_ifs with hc
  · exact hc
  · simp

theorem KvValue.prefixAppend_fst (v : KvValue) (pfx child : Bytes) :
    (v.handle (.prefixAppend pfx child)).1 =
      if child ∈ v.children then .error .kvPrefixConflict else .ok .done := by
  simp only [handle]
  split_ifs <;> rfl

theorem walk_child (hash : Bytes → ℕ) [LawfulProvider S hash] {pfx child : Bytes}
    (h : walk attempts (fun _ => .prefixAppend pfx child) n xs s = (p, some (a, s'))) :
    child ∈ (val s' pfx).children ↔ child ∈ (val s pfx).children ∨
      ∃ x ∈ p, x.1.Lost ∧ child ∉ (val x.2 pfx).children := by
  refine walk_induction (P := fun s p => child ∈ (val s' pfx).children ↔
    child ∈ (val s pfx).children ∨ ∃ x ∈ p, x.1.Lost ∧ child ∉ (val x.2 pfx).children)
    (by simp) (fun b s p hd ih => ?_) h
  rw [ih]
  simp only [List.mem_cons, exists_eq_or_imp]
  rcases Attempt.val_run hash hd (.prefixAppend pfx child) s with ⟨hl, hv⟩ | ⟨hl, hv⟩
  · have hchildren : child ∈ (val (b.run (.prefixAppend pfx child) s).2 pfx).children :=
      Eq.mpr (congrArg (child ∈ KvValue.children ·) hv) ((val s pfx).mem_prefixAppend pfx child)
    by_cases hc : child ∈ (val s pfx).children <;> simp [hchildren, hc, hl]
  · have hsame : val (b.run (.prefixAppend pfx child) s).2 pfx = val s pfx := hv
    simp [hsame, hl]

/-- A token granted with this time to live at one reading that is not expired at the other, where
a token could be granted too. -/
def Outlasts (ttl now later : ℤ) : Prop :=
  ∃ td token next, durationGuard ttl = some td ∧ nextToken now td 0 = .ok token ∧
    nextToken later td 0 = .ok next ∧ later < token

theorem Outlasts.iff {now later : ℤ} {token next : ℕ} (htd : durationGuard ttl = some td)
    (htok : nextToken now td 0 = .ok token) (hnext : nextToken later td 0 = .ok next) :
    Outlasts ttl now later ↔ later < token := by
  constructor
  · rintro ⟨td', token', next', htd', htok', -, h⟩
    cases htd.symm.trans htd'
    cases htok.symm.trans htok'
    exact h
  · exact fun h => ⟨td, token, next, htd, htok, hnext, h⟩

theorem KvValue.acquire_ok {now : ℤ} {token : ℕ} (htd : durationGuard ttl = some td)
    (htok : nextToken now td 0 = .ok token) (h : (v.lease : ℤ) ≤ now) :
    v.acquire ttl now = (.ok (.token token), { v with lease := token }) := by
  simp only [KvValue.acquire, htd, htok]
  exact if_neg (Int.not_lt.2 h)

theorem walk_lease (hash : Bytes → ℕ) [LawfulProvider S hash] {next : ℕ}
    (hclock : xs.Pairwise fun x y => x.now ≤ y.now) (htd : durationGuard ttl = some td)
    (hn : nextToken a.now td 0 = .ok next)
    (h : walk attempts (fun now => .acquire lease ttl now) n xs s = (p, some (a, s'))) :
    a.now < (val s' lease).lease ↔ a.now < (val s lease).lease ∨
      ∃ x ∈ p, x.1.Lost ∧ ((val x.2 lease).lease : ℤ) ≤ x.1.now ∧ Outlasts ttl x.1.now a.now := by
  have hnow := (walk_now hclock h).2
  revert hnow
  refine walk_induction (P := fun s p => (∀ x ∈ p, x.1.now ≤ a.now) →
    (a.now < (val s' lease).lease ↔ a.now < (val s lease).lease ∨
      ∃ x ∈ p, x.1.Lost ∧ ((val x.2 lease).lease : ℤ) ≤ x.1.now ∧ Outlasts ttl x.1.now a.now))
    (by simp) (fun b s p hd ih hnow => ?_) h
  obtain ⟨hb, hp⟩ := List.forall_mem_cons.1 hnow
  simp only at hb
  rw [ih hp]
  simp only [List.mem_cons, exists_eq_or_imp]
  rcases Attempt.val_run hash hd (.acquire lease ttl b.now) s with ⟨hl, hv⟩ | ⟨hl, hv⟩ <;>
    simp only [Request.key, KvValue.handle] at hv <;> rw [hv]
  · by_cases hle : ((val s lease).lease : ℤ) ≤ b.now
    · rcases htok : nextToken b.now td 0 with e | token
      · have hrefused : ((val s lease).acquire ttl b.now).2 = val s lease := by
          simp only [KvValue.acquire, htd, htok]
        have hout : ¬ Outlasts ttl b.now a.now := by
          rintro ⟨td', token, _, htd', htok', -⟩
          cases htd.symm.trans htd'
          cases htok.symm.trans htok'
        simp [hrefused, hout]
      · rw [KvValue.acquire_ok htd htok hle, Outlasts.iff htd htok hn]
        have hfree : ¬ a.now < (val s lease).lease := by omega
        simp [hl, hle, hfree]
    · have hrefused : ((val s lease).acquire ttl b.now).2 = val s lease := by
        rcases (val s lease).acquire_cases ttl b.now with ⟨e, he⟩ | ⟨_, _, -, -, hle', -⟩
        · rw [he]
        · exact absurd hle' hle
      simp [hrefused, hle]
  · simp [hl]

end Effects

theorem nextToken_error {now : ℤ} {previous : ℕ} (h : nextToken now ttl previous = .error e) :
    e = .kvLeaseInvalidTTL ∨ e = .kvLeaseExpired := by
  unfold nextToken at h
  split_ifs at h <;> cases h <;> simp

theorem KvValue.acquire_conflict_iff {now : ℤ} :
    (v.acquire ttl now).1 = .error .kvLeaseConflict ↔
      ∃ td next, durationGuard ttl = some td ∧ nextToken now td 0 = .ok next ∧ now < v.lease := by
  unfold KvValue.acquire
  rcases durationGuard ttl with _ | td
  · simp
  rcases hn : nextToken now td 0 with e | next
  · rcases nextToken_error hn with rfl | rfl <;> simp [hn]
  · simp only
    split_ifs with hc
    · simpa [hn] using hc
    · simpa [hn] using hc

theorem KvValue.acquire_error {now : ℤ} (h : (v.acquire ttl now).1 = .error e) :
    errorIsRetryable e = false := by
  unfold KvValue.acquire at h
  rcases hd : durationGuard ttl with _ | td <;> rw [hd] at h
  · cases h
    rfl
  rcases hn : nextToken now td 0 with e' | next <;> simp only [hn] at h
  · cases h
    rcases nextToken_error hn with rfl | rfl <;> rfl
  · split_ifs at h
    cases h
    rfl

theorem retryPrefixAppend_conflict_iff {S : Type} [KVProvider S] (hash : Bytes → ℕ)
    [LawfulProvider S hash] {s : S} {pfx child : Bytes}
    (hgen : ∀ a ∈ xs, a.Genuine .kvPrefixConflict) :
    (retryPrefixAppend attempts pfx child xs s = some (.error .kvPrefixConflict) →
        child ∈ (val s pfx).children) ↔
      child ∈ (val s pfx).children ∨
        ∀ p a s', walk attempts (fun _ => .prefixAppend pfx child) 0 xs s = (p, some (a, s')) →
          ∀ x ∈ p, x.1.Lost → child ∈ (val x.2 pfx).children := by
  have hres : ∀ s : S, (handle (.prefixAppend pfx child) s).1 =
      if child ∈ (val s pfx).children then .error .kvPrefixConflict else .ok .done := fun s =>
    (LawfulProvider.handle_fst hash _ s).trans ((val s pfx).prefixAppend_fst pfx child)
  have hstore : ∀ (now : ℤ) (s : S) e, (handle (.prefixAppend pfx child) s).1 = .error e →
      errorIsRetryable e = false := by
    intro _ s e he
    rw [hres] at he
    split_ifs at he
    cases he
    rfl
  unfold retryPrefixAppend
  rw [retryDo_conflict rfl (by decide) hstore hgen]
  constructor
  · intro hprop
    by_cases hc : child ∈ (val s pfx).children
    · exact .inl hc
    refine .inr fun p a s' hwalk x hx hl => ?_
    by_contra habsent
    have hthere := (walk_child hash hwalk).2 (.inr ⟨x, hx, hl, habsent⟩)
    exact hc (hprop ⟨a, s', by rw [hwalk], by rw [hres, if_pos hthere]⟩)
  · rintro (hc | hcond) ⟨a, s', hlast, he⟩
    · exact hc
    have hthere : child ∈ (val s' pfx).children := by
      by_contra hc
      rw [hres, if_neg hc] at he
      cases he
    rcases (walk_child hash (Prod.ext rfl hlast)).1 hthere with hc | ⟨x, hx, hl, habsent⟩
    · exact hc
    · exact absurd (hcond _ a s' (Prod.ext rfl hlast) x hx hl) habsent

theorem retryAcquire_conflict_iff {S : Type} [KVProvider S] (hash : Bytes → ℕ)
    [LawfulProvider S hash] {s : S} (hgen : ∀ a ∈ xs, a.Genuine .kvLeaseConflict)
    (hclock : xs.Pairwise fun x y => x.now ≤ y.now) :
    (retryAcquire attempts lease ttl xs s = some (.error .kvLeaseConflict) →
        ∃ a ∈ xs.head?, a.now < (val s lease).lease) ↔
      (∃ a ∈ xs.head?, a.now < (val s lease).lease) ∨
        ∀ p a s', walk attempts (fun now => .acquire lease ttl now) 0 xs s = (p, some (a, s')) →
          ∀ x ∈ p, x.1.Lost → ((val x.2 lease).lease : ℤ) ≤ x.1.now →
            ¬ Outlasts ttl x.1.now a.now := by
  have hres : ∀ (now : ℤ) (s : S), (handle (.acquire lease ttl now) s).1 =
      ((val s lease).acquire ttl now).1 := fun now s =>
    LawfulProvider.handle_fst hash (.acquire lease ttl now) s
  have hstore : ∀ (now : ℤ) (s : S) e, (handle (.acquire lease ttl now) s).1 = .error e →
      errorIsRetryable e = false := fun now s e he => KvValue.acquire_error (hres now s ▸ he)
  unfold retryAcquire
  rw [retryDo_conflict rfl (by decide) hstore hgen]
  constructor
  · intro hprop
    by_cases hheld : ∃ a ∈ xs.head?, a.now < (val s lease).lease
    · exact .inl hheld
    refine .inr fun p a s' hwalk x hx hl hle hout => hheld (hprop ⟨a, s', by rw [hwalk], ?_⟩)
    obtain ⟨td, token, next, htd, -, hn, -⟩ := id hout
    rw [hres, KvValue.acquire_conflict_iff]
    exact ⟨td, next, htd, hn,
      (walk_lease hash hclock htd hn hwalk).2 (.inr ⟨x, hx, hl, hle, hout⟩)⟩
  · rintro (hheld | hcond) ⟨a, s', hlast, he⟩
    · exact hheld
    rw [hres, KvValue.acquire_conflict_iff] at he
    obtain ⟨td, next, htd, hn, hlt⟩ := he
    have hwalk : walk attempts (fun now => .acquire lease ttl now) 0 xs s = (_, some (a, s')) :=
      Prod.ext rfl hlast
    rcases (walk_lease hash hclock htd hn hwalk).1 hlt with hlt | ⟨x, hx, hl, hle, hout⟩
    · have hmem := (walk_now hclock hwalk).1
      cases xs with
      | nil => simp at hmem
      | cons b rest =>
        refine ⟨b, rfl, ?_⟩
        obtain rfl | hmem := List.mem_cons.1 hmem
        · exact hlt
        · exact Int.lt_of_le_of_lt ((List.pairwise_cons.1 hclock).1 a hmem) hlt
    · exact absurd hout (hcond _ a s' hwalk x hx hl hle)

/-- The wrapper returns a conflict that nobody else caused exactly if it gets past an attempt of its
own that was carried out and whose answer was lost, and, for a lease, whose token is not expired
at the answered attempt. -/
theorem retry_conflict_iff {S : Type} [KVProvider S] (hash : Bytes → ℕ) [LawfulProvider S hash]
    (attempts : ℕ) (xs : List Attempt) (s : S) :
    (∀ pfx child : Bytes, (∀ a ∈ xs, a.Genuine .kvPrefixConflict) →
      ((retryPrefixAppend attempts pfx child xs s = some (.error .kvPrefixConflict) →
          child ∈ (val s pfx).children) ↔
        child ∈ (val s pfx).children ∨
          ∀ p a s', walk attempts (fun _ => .prefixAppend pfx child) 0 xs s = (p, some (a, s')) →
            ∀ x ∈ p, x.1.Lost → child ∈ (val x.2 pfx).children)) ∧
    ∀ (lease : Bytes) (ttl : ℤ), (∀ a ∈ xs, a.Genuine .kvLeaseConflict) →
      (xs.Pairwise fun x y => x.now ≤ y.now) →
      ((retryAcquire attempts lease ttl xs s = some (.error .kvLeaseConflict) →
          ∃ a ∈ xs.head?, a.now < (val s lease).lease) ↔
        (∃ a ∈ xs.head?, a.now < (val s lease).lease) ∨
          ∀ p a s', walk attempts (fun now => .acquire lease ttl now) 0 xs s = (p, some (a, s')) →
            ∀ x ∈ p, x.1.Lost → ((val x.2 lease).lease : ℤ) ≤ x.1.now →
              ¬ Outlasts ttl x.1.now a.now) :=
  ⟨fun _ _ hgen => retryPrefixAppend_conflict_iff hash hgen,
    fun _ _ hgen hclock => retryAcquire_conflict_iff hash hgen hclock⟩

theorem retry_conflict_iff_answered :
    (retryPrefixAppend 5 [1] [2]
        [⟨.unsent .kvStaleOwnership, 1, .elapsed⟩, ⟨.answered, 2, .elapsed⟩]
        (MemoryKV.withHashFn fun _ => 0) = some (.error .kvPrefixConflict) →
      [2] ∈ (val (MemoryKV.withHashFn fun _ => 0) [1]).children) ∧
    (retryAcquire 5 [1] second [⟨.unsent .kvStaleOwnership, 1, .elapsed⟩, ⟨.answered, 2, .elapsed⟩]
        (MemoryKV.withHashFn fun _ => 0) = some (.error .kvLeaseConflict) →
      ∃ a ∈ [(⟨.unsent .kvStaleOwnership, 1, .elapsed⟩ : Attempt), ⟨.answered, 2, .elapsed⟩].head?,
        a.now < (val (MemoryKV.withHashFn fun _ => 0) [1]).lease) := by
  have h := retry_conflict_iff (fun _ => 0) 5
    [⟨.unsent .kvStaleOwnership, 1, .elapsed⟩, ⟨.answered, 2, .elapsed⟩]
    (MemoryKV.withHashFn fun _ => 0)
  refine ⟨(h.1 [1] [2] (by simp [Attempt.Genuine])).2 (.inr fun p a s' hwalk x hx hl => ?_),
    (h.2 [1] second (by simp [Attempt.Genuine]) (by simp)).2
      (.inr fun p a s' hwalk x hx hl => ?_)⟩
  · cases hwalk
    obtain rfl := List.mem_singleton.1 hx
    obtain ⟨e, he⟩ := hl
    cases he
  · cases hwalk
    obtain rfl := List.mem_singleton.1 hx
    obtain ⟨e, he⟩ := hl
    cases he

/-- The first attempt is carried out and its answer does not come in time. -/
def lateReply : List Attempt :=
  [⟨.unanswered .deadlineExceeded, 1, .elapsed⟩, ⟨.answered, 2, .elapsed⟩]

/-- The second attempt is refused because of the first. -/
theorem retry_conflicts_with_itself :
    (∀ a ∈ lateReply, a.Genuine .kvPrefixConflict ∧ a.Genuine .kvLeaseConflict) ∧
    retryPrefixAppend 5 [1] [2] lateReply (MemoryKV.withHashFn fun _ => 0) =
      some (.error .kvPrefixConflict) ∧
    [2] ∉ (val (MemoryKV.withHashFn fun _ => 0) [1]).children ∧
    retryAcquire 5 [1] second lateReply (MemoryKV.withHashFn fun _ => 0) =
      some (.error .kvLeaseConflict) ∧
    (val (MemoryKV.withHashFn fun _ => 0) [1]).lease = 0 := by
  refine ⟨?_, ?_, ?_, ?_, ?_⟩
  · simp [lateReply, Attempt.Genuine, errorIsRetryable]
  all_goals decide +kernel

end Specter
