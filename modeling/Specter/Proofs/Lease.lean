import Specter.Lease
import Specter.Lib.Rely
import Specter.Proofs.Sqlite
import Mathlib.Data.List.Induction

/-!
# Lease mutual exclusion

The history of a lease is the list of its swaps, each decided as its call prescribes (`History`), so
a token that was issued is gone only through a release, a renewal, or an acquisition at a reading of
the clock that it had expired by.
-/

namespace Specter

open Lib

variable {hashFn : Bytes → ℕ} {x : LeaseStep} {e : Swap}

def stored : List Swap → ℕ
  | [] => 0
  | e :: _ => e.token

def Swap.Made (e : Swap) : LeaseCall → Prop
  | .acquire ttl => ∃ now td : ℤ, e.grant = .acquire now td ∧ durationGuard ttl = some td ∧
      (e.prev : ℤ) ≤ now ∧ nextToken now td 0 = .ok e.token
  | .renew ttl prevToken => ∃ now td : ℤ, e.grant = .renew now td ∧ durationGuard ttl = some td ∧
      e.prev = prevToken ∧ e.prev ≠ 0 ∧ now < e.prev ∧ nextToken now td e.prev = .ok e.token
  | .release token => e.grant = .release ∧ e.prev = token ∧ e.token = 0

/-- Each swap takes the token the one before it left, and is made by a call of its thread. -/
def History (made : ℕ → LeaseCall → Prop) : List Swap → Prop
  | [] => True
  | e :: es => (e.prev = stored es ∧ ∃ call, made e.thread call ∧ e.Made call) ∧ History made es

/-- The token is released, or superseded by a renewal. -/
def Ended (swaps : List Swap) (token : ℕ) : Prop :=
  ∃ e ∈ swaps, e.prev = token ∧ (e.grant = .release ∨ ∃ now ttl : ℤ, e.grant = .renew now ttl)

/-- Whenever an `Acquire` succeeds, every token issued before has ended or counts as expired, given
the swaps since it was issued and the reading of the clock. -/
def Excludes (expired : List Swap → ℤ → ℕ → Prop) (trace : List Swap) : Prop :=
  ∀ later a mid i earlier, ∀ now ttl : ℤ, trace = later ++ a :: (mid ++ i :: earlier) →
    a.grant = .acquire now ttl → i.issues = true → Ended mid i.token ∨ expired mid now i.token

/-- The expiry is not later than the clock reading of the `Acquire`. -/
def ExpiredBy (_ : List Swap) (now : ℤ) (token : ℕ) : Prop := (token : ℤ) ≤ now

/-- The expiry is not later than the clock reading of the `Acquire`, or of one that succeeded
before it. -/
def ExpiredOnce (mid : List Swap) (now : ℤ) (token : ℕ) : Prop :=
  (token : ℤ) ≤ now ∨
    ∃ b ∈ mid, ∃ now' ttl : ℤ, b.grant = .acquire now' ttl ∧ (token : ℤ) ≤ now'

/-- A `Renew` succeeds only with the stored token, unexpired at its reading of the clock, and
issues a larger one. -/
def RenewsStored (made : ℕ → LeaseCall → Prop) (trace : List Swap) : Prop :=
  ∀ later e earlier, ∀ now td : ℤ, trace = later ++ e :: earlier → e.grant = .renew now td →
    (∃ ttl, made e.thread (.renew ttl (stored earlier))) ∧ stored earlier ≠ 0 ∧
      now < stored earlier ∧ stored earlier < e.token

def LeaseCall.ttl : LeaseCall → Option ℤ
  | .acquire ttl | .renew ttl _ => some ttl
  | .release _ => none

def Grant.reading : Grant → Option ℤ
  | .acquire now _ | .renew now _ => some now
  | .release => none

/-- Every issued token is at least the reading of the clock plus the truncated time to live, and
did not wrap around. -/
def IssuesInTime (made : ℕ → LeaseCall → Prop) (trace : List Swap) : Prop :=
  ∀ e ∈ trace, ∀ now : ℤ, e.grant.reading = some now → ∃ call, ∃ ttl : ℤ, made e.thread call ∧
    call.ttl = some ttl ∧ now + (ttl - ttl.tmod second) ≤ e.token ∧ (e.token : ℤ) ≤ maxInt64

section History

variable {made : ℕ → LeaseCall → Prop} {trace : List Swap}

theorem History.of_append : ∀ (later : List Swap), History made (later ++ trace) →
    History made trace
  | [], h => h
  | _ :: later, h => of_append later h.2

theorem History.excludes (h : History made trace) : Excludes ExpiredOnce trace := by
  rintro later a mid i earlier now ttl rfl ha -
  have h := h.of_append later
  -- the swap right after `i` took its token
  rcases mid.eq_nil_or_concat with rfl | ⟨xs, b, rfl⟩
  · obtain ⟨hprev, call, -, hm⟩ := h.1
    have hprev : a.prev = i.token := hprev
    right; left
    cases call with
    | acquire _ =>
      obtain ⟨now', td, hg, -, hle, -⟩ := hm
      cases ha.symm.trans hg
      rw [← hprev]
      exact hle
    | renew _ _ =>
      obtain ⟨now', td, hg, -⟩ := hm
      cases ha.symm.trans hg
    | release _ => cases ha.symm.trans hm.1
  · have hb : History made (b :: i :: earlier) := by
      refine History.of_append (a :: xs) ?_
      simpa using h
    obtain ⟨hprev, call, -, hm⟩ := hb.1
    have hprev : b.prev = i.token := hprev
    have hmem : b ∈ xs.concat b := by simp
    cases call with
    | acquire _ =>
      obtain ⟨now', td, hg, -, hle, -⟩ := hm
      exact .inr (.inr ⟨b, hmem, now', td, hg, hprev ▸ hle⟩)
    | renew _ _ =>
      obtain ⟨now', td, hg, -⟩ := hm
      exact .inl ⟨b, hmem, hprev, .inr ⟨now', td, hg⟩⟩
    | release _ => exact .inl ⟨b, hmem, hprev, .inl hm.1⟩

theorem History.renewsStored (h : History made trace) : RenewsStored made trace := by
  rintro later e earlier now td rfl he
  obtain ⟨hprev, call, hmade, hm⟩ := (h.of_append later).1
  cases call with
  | acquire _ =>
    obtain ⟨_, _, hg, -⟩ := hm
    cases he.symm.trans hg
  | renew ttl prevToken =>
    obtain ⟨_, _, hg, -, rfl, h0, hlt, hn⟩ := hm
    cases he.symm.trans hg
    obtain ⟨-, -, -, -, hmax⟩ := nextToken_spec hn
    rw [← hprev]
    exact ⟨⟨ttl, hmade⟩, h0, hlt, by omega⟩
  | release _ => cases he.symm.trans hm.1

theorem Swap.Made.inTime {call : LeaseCall} (hm : e.Made call) {now : ℤ}
    (he : e.grant.reading = some now) : ∃ ttl, call.ttl = some ttl ∧
      now + (ttl - ttl.tmod second) ≤ e.token ∧ (e.token : ℤ) ≤ maxInt64 := by
  have hnext : ∀ {td ttl : ℤ} {previous : ℕ}, durationGuard ttl = some td →
      nextToken now td previous = .ok e.token →
      now + (ttl - ttl.tmod second) ≤ e.token ∧ (e.token : ℤ) ≤ maxInt64 := by
    intro td ttl previous htd hn
    obtain ⟨rfl, -⟩ := durationGuard_spec htd
    obtain ⟨-, -, h3, h4, h5⟩ := nextToken_spec hn
    omega
  cases call with
  | acquire ttl =>
    obtain ⟨_, _, hg, htd, -, hn⟩ := hm
    rw [hg] at he
    cases he
    exact ⟨ttl, rfl, hnext htd hn⟩
  | renew ttl _ =>
    obtain ⟨_, _, hg, htd, -, -, -, hn⟩ := hm
    rw [hg] at he
    cases he
    exact ⟨ttl, rfl, hnext htd hn⟩
  | release _ =>
    rw [hm.1] at he
    cases he

theorem History.issuesInTime : ∀ {trace : List Swap}, History made trace →
    IssuesInTime made trace
  | [], _ => by simp [IssuesInTime]
  | e :: es, h => by
    intro e' he' now hnow
    obtain rfl | he' := List.mem_cons.1 he'
    · obtain ⟨-, call, hmade, hm⟩ := h.1
      obtain ⟨ttl, httl, hle⟩ := hm.inTime hnow
      exact ⟨call, ttl, hmade, httl, hle⟩
    · exact History.issuesInTime h.2 e' he' now hnow

end History

section Memory

variable (calls : List LeaseCall)

/-- What a call reports: it failed and swapped nothing, or it left this token. -/
def Reported (trace : List Swap) (t : ℕ) : Except ChordError ℕ → Prop
  | .error _ => ∀ e ∈ trace, e.thread ≠ t
  | .ok token => ∃ e ∈ trace, e.thread = t ∧ e.token = token

def Unreturned (t : ℕ) (s : LeaseState) : Prop := ∀ x ∈ s.returned, x.1 ≠ t

def leaseRules : Rules memoryLease where
  ok _ := True
  known _ _ _ := True
  inv s := s.token = stored s.trace ∧ History (fun t call => calls[t]? = some call) s.trace ∧
    ∀ x ∈ s.returned, Reported s.trace x.1 x.2
  guar t s s' := (∀ e ∈ s'.trace, e ∈ s.trace ∨ e.thread = t) ∧ (∀ e ∈ s.trace, e ∈ s'.trace) ∧
    ∀ x ∈ s'.returned, x ∈ s.returned ∨ x.1 = t
  fresh t s := Unreturned t s ∧ ∀ e ∈ s.trace, e.thread ≠ t
  pre _ _ := False
  post _ _ := True

variable {calls} {t : ℕ}

theorem stable_unreturned (res : Except ChordError ℕ) :
    (leaseRules calls).Stable t fun s => Unreturned t s ∧ Reported s.trace t res := by
  rintro s s' t' hne - - ⟨hnew, hold, hret⟩ - ⟨hp, hr⟩
  refine ⟨fun x hx => (hret x hx).elim (hp x) fun h => h ▸ hne, ?_⟩
  cases res with
  | error _ => exact fun e he => (hnew e he).elim (hr e) fun h => h ▸ hne
  | ok token =>
    obtain ⟨e, he, h⟩ := hr
    exact ⟨e, hold e he, h⟩

theorem stable_fresh : (leaseRules calls).Stable t ((leaseRules calls).fresh t) :=
  stable_unreturned (.error .other)

theorem leaseRules_closed : (leaseRules calls).Closed where
  stable _ := stable_fresh
  safe _ _ := fun _ _ h => h.1.elim

theorem triple_load : (leaseRules calls).Triple t ((leaseRules calls).fresh t) load
    fun _ => (leaseRules calls).fresh t := by
  refine .keeps stable_fresh fun s l r s' hi hP _ he _ => ?_
  cases he
  exact ⟨hi, ⟨fun _ => .inl, fun _ => id, fun _ => .inl⟩, hP⟩

theorem triple_clock : (leaseRules calls).Triple t ((leaseRules calls).fresh t) clock
    fun _ => (leaseRules calls).fresh t := by
  refine .keeps stable_fresh fun s l r s' hi hP _ he _ => ?_
  simp only [memoryLease, leaseExec] at he
  split_ifs at he
  cases he
  exact ⟨hi, ⟨fun _ => .inl, fun _ => id, fun _ => .inl⟩, hP⟩

theorem triple_swap {call : LeaseCall} (hcall : calls[t]? = some call) {old new : ℕ}
    {grant : Grant} (hmade : Swap.Made ⟨t, grant, old, new⟩ call) (e : ChordError) :
    (leaseRules calls).Triple t ((leaseRules calls).fresh t)
      (do
        let swapped ← compareAndSwap old new grant
        if swapped then return .ok new else return .error e)
      fun res s => Unreturned t s ∧ Reported s.trace t res := by
  refine .bind (Q := fun swapped s => Unreturned t s ∧
    Reported s.trace t (if swapped then .ok new else .error e)) ?_ fun swapped => ?_
  · refine .perform stable_fresh (fun swapped => stable_unreturned _) ?_
    rintro s l r s' ⟨htok, hhist, hret⟩ ⟨hp, hno⟩ - he -
    simp only [memoryLease, leaseExec] at he
    split_ifs at he with hold
    · cases he
      refine ⟨⟨rfl, ⟨⟨hold.symm.trans htok, call, hcall, hmade⟩, hhist⟩, fun x hx => ?_⟩,
        ⟨fun x hx => ?_, fun x hx => List.mem_cons_of_mem _ hx, fun _ => .inl⟩, hp, ?_⟩
      · have hr := hret x hx
        -- a call that has returned is of another thread
        rcases hres : x.2 with err | token <;> rw [hres] at hr
        · rintro x' (_ | ⟨_, hx'⟩)
          exacts [(hp x hx).symm, hr x' hx']
        · obtain ⟨x', hx', h⟩ := hr
          exact ⟨x', List.mem_cons_of_mem _ hx', h⟩
      · obtain rfl | hx := List.mem_cons.1 hx
        exacts [.inr rfl, .inl hx]
      · exact ⟨_, List.mem_cons_self, rfl, rfl⟩
    · cases he
      exact ⟨⟨htok, hhist, hret⟩, ⟨fun _ => .inl, fun _ => id, fun _ => .inl⟩, hp, hno⟩
  · cases swapped with
    | true => exact .ret (stable_unreturned _) fun _ _ h => h
    | false => exact .ret (stable_unreturned _) fun _ _ h => h

theorem triple_refuse (e : ChordError) :
    (leaseRules calls).Triple t ((leaseRules calls).fresh t) (.ret (.error e))
      fun res s => Unreturned t s ∧ Reported s.trace t res :=
  .ret (stable_unreturned _) fun _ _ h => h

theorem toInt64_le (token : ℕ) : toInt64 token ≤ token := by
  unfold toInt64
  split_ifs <;> omega

theorem triple_prog {call : LeaseCall} (hcall : calls[t]? = some call) :
    (leaseRules calls).Triple t ((leaseRules calls).fresh t) call.prog
      fun res s => Unreturned t s ∧ Reported s.trace t res := by
  cases call with
  | acquire ttl =>
    simp only [LeaseCall.prog, acquireLease]
    rcases htd : durationGuard ttl with _ | td
    · exact triple_refuse _
    refine .bind triple_load fun curr => .bind triple_clock fun ref => ?_
    rcases hn : nextToken ref td 0 with e | next <;> simp only
    · exact triple_refuse e
    split_ifs with hc
    · exact triple_refuse _
    · exact triple_swap hcall ⟨ref, td, rfl, htd, Int.not_lt.1 hc, hn⟩ _
  | renew ttl prevToken =>
    simp only [LeaseCall.prog, renewLease]
    rcases htd : durationGuard ttl with _ | td
    · exact triple_refuse _
    refine .bind triple_load fun curr => .bind triple_clock fun now => ?_
    rcases hn : nextToken now td prevToken with e | next <;> simp only
    · exact triple_refuse e
    split_ifs with h0 hexp hne
    · exact triple_refuse _
    · exact triple_refuse _
    · exact triple_refuse _
    · obtain rfl := not_not.1 hne
      have := toInt64_le curr
      exact triple_swap hcall ⟨now, td, rfl, htd, rfl, h0, by simp only; omega, hn⟩ _
  | release token => exact triple_swap hcall ⟨rfl, rfl, rfl⟩ _

theorem triple_finish (res : Except ChordError ℕ) :
    (leaseRules calls).Triple t (fun s => Unreturned t s ∧ Reported s.trace t res)
      (Prog.perform (S := leaseSig) (.finish res)) fun _ _ => True := by
  refine .perform (stable_unreturned res) (fun _ => .const True) ?_
  rintro s l r s' ⟨htok, hhist, hret⟩ ⟨-, hr⟩ - he -
  cases he
  refine ⟨⟨htok, hhist, fun x hx => ?_⟩, ⟨fun _ => .inl, fun _ => id, fun x hx => ?_⟩, trivial⟩
  · obtain rfl | hx := List.mem_cons.1 hx
    exacts [hr, hret x hx]
  · obtain rfl | hx := List.mem_cons.1 hx
    exacts [.inr rfl, .inl hx]

theorem memoryLease_inv {sched : List (ℕ × ℤ)} {c : Config leaseSig LeaseState}
    (h : memoryLease.run sched (memoryLease.launch calls .new) = some c) :
    (leaseRules calls).inv c.shared := by
  have hfresh : ∀ t, (leaseRules calls).fresh t .new := fun t => by
    simp [leaseRules, Unreturned, LeaseState.new]
  have hinv : (leaseRules calls).inv .new := by
    simp [leaseRules, LeaseState.new, stored, History]
  have hgood : (leaseRules calls).Good (memoryLease.launch calls .new) :=
    Rules.good_launch hinv (fun t _ => hfresh t) fun t call hcall =>
      (Rules.Triple.bind (triple_prog hcall) triple_finish) _ hinv (hfresh t)
  have hf : (leaseRules calls).Follows sched (memoryLease.launch calls .new) :=
    (Rules.follows_of_run (φ := fun _ => True) (fun _ _ => ⟨trivial, trivial⟩)
      (fun _ _ => trivial) h trivial).2
  exact (Rules.good_run leaseRules_closed hgood hf h).1

end Memory

/-- A call that fails leaves the token, and one that succeeds makes its swap. -/
def LeaseStep.Outcome (x : LeaseStep) (cur : ℕ) (res : Except ChordError Reply) (next : ℕ) :
    Prop :=
  (∃ e, res = .error e ∧ next = cur) ∨
    ∃ reply, res = .ok reply ∧ Swap.Made ⟨x.thread, x.grant, cur, next⟩ x.call

theorem KvValue.outcome (v : KvValue) (x : LeaseStep) (key : Bytes) :
    x.Outcome v.lease (v.handle (x.call.request key x.now)).1
      (v.handle (x.call.request key x.now)).2.lease := by
  rcases x with ⟨t, call, now, fault⟩
  cases call with
  | acquire ttl =>
    rcases v.acquire_cases ttl now with ⟨e, he⟩ | ⟨td, next, htd, hn, hle, he⟩ <;>
      simp only [LeaseCall.request, handle, he]
    · exact .inl ⟨e, rfl, rfl⟩
    · exact .inr ⟨_, rfl, now, td, by simp [LeaseStep.grant, htd], htd, hle, hn⟩
  | renew ttl prevToken =>
    rcases v.renew_cases ttl now prevToken with
      ⟨e, he⟩ | ⟨td, next, htd, hn, h0, heq, hlt, he⟩ <;>
      simp only [LeaseCall.request, handle, he]
    · exact .inl ⟨e, rfl, rfl⟩
    · have hle := toInt64_le v.lease
      refine .inr ⟨_, rfl, now, td, by simp [LeaseStep.grant, htd], htd, heq, h0, ?_, heq ▸ hn⟩
      simp only
      omega
  | release token =>
    rcases v.release_cases token with ⟨e, he⟩ | ⟨heq, he⟩ <;>
      simp only [LeaseCall.request, handle, he]
    · exact .inl ⟨e, rfl, rfl⟩
    · exact .inr ⟨_, rfl, rfl, heq, rfl⟩

theorem LeaseCall.request_key (call : LeaseCall) (key : Bytes) (now : ℤ) :
    (call.request key now).key = key := by
  cases call <;> rfl

theorem MemoryKV.outcome (m : MemoryKV hashFn) (x : LeaseStep) (key : Bytes) :
    x.Outcome (m.val key).lease (m.handle (x.call.request key x.now)).1
      ((m.handle (x.call.request key x.now)).2.val key).lease := by
  obtain ⟨h1, h2⟩ := m.handle_spec (x.call.request key x.now)
  have hkey := x.call.request_key key x.now
  rw [h1, h2 key, if_pos hkey, hkey]
  exact (m.val key).outcome x key

namespace Tables

variable (hashFn : Bytes → ℕ) {t : Tables} (key : Bytes)

theorem release_zero (ht : TokensValid t) :
    t.release hashFn false key 0 = (.error .kvLeaseExpired, t) := by
  have hrows : t.queryLeaseRelease key (bindUint64AsInt64 0) = (0, t) := by
    unfold queryLeaseRelease
    rcases hr : t.leaseEntries[key]? with _ | tok
    · rfl
    · exact if_neg (ht key tok hr).1
  refine withWriteTx_throw ?_
  simp only [hrows]
  rfl

theorem handle_fault (t : Tables) (call : LeaseCall) (now : ℤ) :
    ∃ e, t.handle hashFn true (call.request key now) = (.error e, t) := by
  cases call with
  | acquire ttl =>
    simp only [LeaseCall.request, handle, acquire]
    rcases durationGuard ttl with _ | td
    exacts [⟨_, rfl⟩, ⟨.other, rfl⟩]
  | renew ttl prevToken =>
    simp only [LeaseCall.request, handle, renew]
    rcases durationGuard ttl with _ | td
    exacts [⟨_, rfl⟩, ⟨.other, rfl⟩]
  | release token => exact ⟨.other, rfl⟩

end Tables

/-- Tokens are 64-bit numbers. -/
def LeaseCall.Fits : LeaseCall → Prop
  | .release token => token < 2 ^ 64
  | _ => True

theorem SqliteKV.outcome (s : SqliteKV hashFn) {key : Bytes} (hhash : hashFn key < 2 ^ 64)
    (hx : x.call.Fits) (hs : (s.val key).lease < 2 ^ 63) :
    x.Outcome (s.val key).lease (s.handle x.fault (x.call.request key x.now)).1
      ((s.handle x.fault (x.call.request key x.now)).2.val key).lease := by
  have hunchanged : ∀ {e}, s.tables.handle hashFn x.fault (x.call.request key x.now) =
      (.error e, s.tables) → x.Outcome (s.val key).lease
        (s.handle x.fault (x.call.request key x.now)).1
        ((s.handle x.fault (x.call.request key x.now)).2.val key).lease := by
    intro e he
    simp only [handle, val, he]
    exact .inl ⟨e, rfl, rfl⟩
  rcases hf : x.fault with _ | _
  · by_cases h0 : x.call = .release 0
    · rw [hf, h0] at hunchanged
      rw [h0]
      exact hunchanged (Tables.release_zero hashFn key s.tokens)
    · have hvalid : (x.call.request key x.now).Valid := by
        rcases hc : x.call with _ | _ | token <;> rw [hc] at hx h0
        exacts [trivial, trivial, ⟨fun h => h0 (by rw [h]), hx⟩]
      have hkey := x.call.request_key key x.now
      obtain ⟨h1, h2⟩ := Tables.does_handle s.exact (hkey.symm ▸ hhash) s.tokens
        (hkey.symm ▸ hs) hvalid
      simp only [handle, val, h1, h2 key, hkey]
      exact (s.tables.val key).outcome x key
  · obtain ⟨e, he⟩ := Tables.handle_fault hashFn key s.tables x.call x.now
    rw [hf] at hunchanged
    exact hunchanged he

section Steps

variable {S : Type} {handle : Bool → Request → S → Except ChordError Reply × S} {token : S → ℕ}
  {key : Bytes} {xs : List LeaseStep} {s : S}

variable (handle token key) in
/-- The step does what a lease call does, in every state with a token that was granted. -/
def Lawful (x : LeaseStep) : Prop :=
  ∀ s, token s < 2 ^ 63 → x.Outcome (token s) (handle x.fault (x.call.request key x.now) s).1
    (token (handle x.fault (x.call.request key x.now) s).2)

def MadeIn (xs : List LeaseStep) (t : ℕ) (call : LeaseCall) : Prop :=
  ∃ x ∈ xs, x.thread = t ∧ x.call = call

theorem leaseRun_snoc (xs : List LeaseStep) (x : LeaseStep) (s : S) :
    leaseRun handle token key (xs ++ [x]) s =
      leaseStep handle token key x (leaseRun handle token key xs s) := by
  simp [leaseRun]

theorem leaseStep_cases (hx : Lawful handle token key x) {r : LeaseRun S}
    (hr : token r.store < 2 ^ 63) :
    (∃ e, (handle x.fault (x.call.request key x.now) r.store).1 = .error e ∧
      token (leaseStep handle token key x r).store = token r.store ∧
      (leaseStep handle token key x r).trace = r.trace) ∨
    ∃ reply e, (handle x.fault (x.call.request key x.now) r.store).1 = .ok reply ∧
      e.thread = x.thread ∧ e.grant = x.grant ∧ e.prev = token r.store ∧ e.Made x.call ∧
      token (leaseStep handle token key x r).store = e.token ∧
      (leaseStep handle token key x r).trace = e :: r.trace := by
  rcases hx r.store hr with ⟨e, he, htok⟩ | ⟨reply, he, hm⟩
  · exact .inl ⟨e, he, htok, by simp only [leaseStep, he]⟩
  · exact .inr ⟨reply, _, he, rfl, rfl, rfl, hm, rfl, by simp only [leaseStep, he]⟩

theorem Swap.Made.token_lt {call : LeaseCall} (h : e.Made call) : e.token < 2 ^ 63 := by
  cases call with
  | acquire _ =>
    obtain ⟨_, _, -, -, -, hn⟩ := h
    exact (nextToken_lt hn).2
  | renew _ _ =>
    obtain ⟨_, _, -, -, -, -, -, hn⟩ := h
    exact (nextToken_lt hn).2
  | release _ =>
    rw [h.2.2]
    exact Nat.two_pow_pos 63

theorem History.mono {made made' : ℕ → LeaseCall → Prop}
    (h : ∀ t call, made t call → made' t call) :
    ∀ {trace : List Swap}, History made trace → History made' trace
  | [], _ => trivial
  | _ :: _, ⟨⟨hprev, call, hmade, hm⟩, hrest⟩ =>
    ⟨⟨hprev, call, h _ _ hmade, hm⟩, History.mono h hrest⟩

theorem leaseRun_history (hxs : ∀ x ∈ xs, Lawful handle token key x) (hs : token s = 0) :
    token (leaseRun handle token key xs s).store < 2 ^ 63 ∧
    token (leaseRun handle token key xs s).store =
      stored (leaseRun handle token key xs s).trace ∧
    History (MadeIn xs) (leaseRun handle token key xs s).trace := by
  induction xs using List.reverseRecOn with
  | nil => exact ⟨by simp [leaseRun, hs], hs, trivial⟩
  | append_singleton xs x ih =>
    obtain ⟨hlt, htok, hhist⟩ := ih fun y hy => hxs y (List.mem_append_left _ hy)
    have hhist : History (MadeIn (xs ++ [x])) _ := hhist.mono fun t call ⟨y, hy, h⟩ =>
      ⟨y, List.mem_append_left _ hy, h⟩
    rw [leaseRun_snoc]
    rcases leaseStep_cases (hxs x (by simp)) hlt with
      ⟨_, -, h1, h2⟩ | ⟨_, e, -, ht, -, hprev, hm, h1, h2⟩
    · rw [h1, h2]
      exact ⟨hlt, htok, hhist⟩
    · rw [h1, h2]
      exact ⟨hm.token_lt, rfl, ⟨hprev.trans htok, x.call, ⟨x, by simp, ht.symm, rfl⟩, hm⟩, hhist⟩

theorem LeaseStep.reading_grant {now : ℤ} (h : x.grant.reading = some now) : now = x.now := by
  unfold grant at h
  cases hc : x.call <;> rw [hc] at h <;> cases h <;> rfl

section

variable (hxs : ∀ x ∈ xs, Lawful handle token key x) (hs : token s = 0) (hclock : ClockForward xs)

include hxs hs hclock

theorem leaseRun_readings :
    (∀ e ∈ (leaseRun handle token key xs s).trace, ∀ now, e.grant.reading = some now →
      ∃ x ∈ xs, x.now = now) ∧
    (leaseRun handle token key xs s).trace.Pairwise fun e e' => ∀ now now',
      e.grant.reading = some now → e'.grant.reading = some now' → now' ≤ now := by
  induction xs using List.reverseRecOn with
  | nil => simp [leaseRun]
  | append_singleton xs x ih =>
    obtain ⟨hclock, -, hlast⟩ := List.pairwise_append.1 hclock
    have hxs' := fun y hy => hxs y (List.mem_append_left [x] hy)
    obtain ⟨hmem, hpair⟩ := ih hxs' hclock
    have hmem' : ∀ e ∈ (leaseRun handle token key xs s).trace, ∀ now,
        e.grant.reading = some now → ∃ y ∈ xs ++ [x], y.now = now := fun e he now hnow => by
      obtain ⟨y, hy, h⟩ := hmem e he now hnow
      exact ⟨y, List.mem_append_left _ hy, h⟩
    rw [leaseRun_snoc]
    rcases leaseStep_cases (hxs x (by simp)) (leaseRun_history hxs' hs).1 with
      ⟨_, -, -, h2⟩ | ⟨_, e, -, -, hg, -, -, -, h2⟩ <;> rw [h2]
    · exact ⟨hmem', hpair⟩
    refine ⟨fun e' he' now hnow => ?_, List.pairwise_cons.2 ⟨fun e' he' now now' h h' => ?_, hpair⟩⟩
    · obtain rfl | he' := List.mem_cons.1 he'
      · exact ⟨x, by simp, (LeaseStep.reading_grant (hg ▸ hnow)).symm⟩
      · exact hmem' e' he' now hnow
    · obtain ⟨y, hy, rfl⟩ := hmem e' he' now' h'
      have hnow : now = x.now := LeaseStep.reading_grant (hg ▸ h)
      rw [hnow]
      exact hlast y hy x (by simp)

theorem leaseRun_excludes : Excludes ExpiredBy (leaseRun handle token key xs s).trace := by
  obtain ⟨-, hpair⟩ := leaseRun_readings hxs hs hclock
  intro later a mid i earlier now ttl heq ha hi
  rcases (leaseRun_history hxs hs).2.2.excludes later a mid i earlier now ttl heq ha hi with
    h | h | ⟨b, hb, now', ttl', hg, hle⟩
  · exact .inl h
  · exact .inr h
  · rw [heq] at hpair
    have hab := (List.pairwise_cons.1 (List.pairwise_append.1 hpair).2.1).1 b
      (List.mem_append_left _ hb) now now' (by rw [ha]; rfl) (by rw [hg]; rfl)
    exact .inr (Int.le_trans hle hab)

end

end Steps

/-- In every state of every interleaving, the token is what the last swap left, a call that failed
made none, and the swaps keep the discipline of a lease.  In memory the clock is read before the
swap, so a token may have expired by the reading of an earlier `Acquire` only. -/
theorem lease_mutual_exclusion (hashFn : Bytes → ℕ) (key : Bytes) (hhash : hashFn key < 2 ^ 64) :
    (∀ (calls : List LeaseCall) (sched : List (ℕ × ℤ)) (c : Config leaseSig LeaseState),
      memoryLease.run sched (memoryLease.launch calls .new) = some c →
      let made := fun t call => calls[t]? = some call
      Excludes ExpiredOnce c.shared.trace ∧ RenewsStored made c.shared.trace ∧
        IssuesInTime made c.shared.trace ∧ c.shared.token = stored c.shared.trace ∧
        ∀ t res, (t, res) ∈ c.shared.returned → Reported c.shared.trace t res) ∧
    ∀ (xs : List LeaseStep) (s : SqliteKV hashFn), (∀ x ∈ xs, x.call.Fits) → ClockForward xs →
      (s.val key).lease = 0 →
      let r := leaseRun SqliteKV.handle (fun s => (s.val key).lease) key xs s
      Excludes ExpiredBy r.trace ∧ RenewsStored (MadeIn xs) r.trace ∧
        IssuesInTime (MadeIn xs) r.trace ∧ (r.store.val key).lease = stored r.trace ∧
        ∀ (x : LeaseStep) (e : ChordError), x.call.Fits →
          (r.store.handle x.fault (x.call.request key x.now)).1 = .error e →
          ((r.store.handle x.fault (x.call.request key x.now)).2.val key).lease =
            (r.store.val key).lease := by
  refine ⟨fun calls sched c h => ?_, fun xs s hxs hclock hs => ?_⟩
  · obtain ⟨htok, hhist, hret⟩ := memoryLease_inv h
    exact ⟨hhist.excludes, hhist.renewsStored, hhist.issuesInTime, htok,
      fun t res hmem => hret _ hmem⟩
  · have hlaw : ∀ x : LeaseStep, x.call.Fits →
        Lawful SqliteKV.handle (fun s : SqliteKV hashFn => (s.val key).lease) key x :=
      fun x hx s hlt => s.outcome hhash hx hlt
    have hxs' := fun x hx => hlaw x (hxs x hx)
    obtain ⟨hlt, htok, hhist⟩ := leaseRun_history hxs' hs
    refine ⟨leaseRun_excludes hxs' hs hclock, hhist.renewsStored, hhist.issuesInTime, htok,
      fun x e hx he => ?_⟩
    rcases hlaw x hx _ hlt with ⟨_, -, h⟩ | ⟨reply, h, -⟩
    · exact h
    · cases he.symm.trans h

def contenders : List LeaseCall :=
  [.acquire (5 * second), .acquire second, .acquire second, .release 3000000000,
    .renew (5 * second) 5000000001, .acquire second]

def contended : List LeaseStep :=
  [⟨0, .acquire second, 1, false⟩, ⟨0, .renew second 1000000001, 2, false⟩,
    ⟨1, .acquire second, 3, false⟩, ⟨1, .acquire second, 2 * second, false⟩]

/-- Calls that compete for one lease: some of each kind succeed, and the last one is refused. -/
theorem lease_mutual_exclusion_used :
    (∃ c, memoryLease.run
        [(0, 0), (0, 1), (1, 0), (1, 1), (1, 0), (1, 0), (2, 0), (2, 2 * second), (2, 0), (2, 0),
          (3, 0), (3, 0), (0, 0), (0, 0), (4, 0), (4, 3 * second), (4, 0), (4, 0), (5, 0),
          (5, 3 * second), (5, 0)] (memoryLease.launch contenders .new) = some c ∧
      c.shared.trace.map Swap.token = [8000000000, 5000000001, 0, 3000000000, 1000000001] ∧
      Excludes ExpiredOnce c.shared.trace ∧
      RenewsStored (fun t call => contenders[t]? = some call) c.shared.trace ∧
      Reported c.shared.trace 5 (.error .kvLeaseConflict)) ∧
    ∃ r : LeaseRun (SqliteKV fun _ => 0),
      r = leaseRun SqliteKV.handle (fun s => (s.val []).lease) [] contended
        (SqliteKV.withHashFn fun _ => 0) ∧
      r.trace.map Swap.token = [3000000000, 1000000002, 1000000001] ∧
      Excludes ExpiredBy r.trace ∧ RenewsStored (MadeIn contended) r.trace ∧
      ((r.store.handle false (.acquire [] second (2 * second))).2.val []).lease =
        (r.store.val []).lease := by
  have h := lease_mutual_exclusion (fun _ => 0) [] (by decide)
  refine ⟨?_, _, rfl, ?_⟩
  · obtain ⟨c, hc, hend⟩ := Option.map_eq_some_iff.1 (show (memoryLease.run
        [(0, 0), (0, 1), (1, 0), (1, 1), (1, 0), (1, 0), (2, 0), (2, 2 * second), (2, 0), (2, 0),
          (3, 0), (3, 0), (0, 0), (0, 0), (4, 0), (4, 3 * second), (4, 0), (4, 0), (5, 0),
          (5, 3 * second), (5, 0)] (memoryLease.launch contenders .new)).map
        (fun c => (c.shared.trace.map Swap.token, c.shared.returned.head?)) =
      some ([8000000000, 5000000001, 0, 3000000000, 1000000001],
        some (5, .error .kvLeaseConflict)) by decide +kernel)
    obtain ⟨htrace, hreturned⟩ := Prod.mk.inj hend
    obtain ⟨hexcludes, hrenews, -, -, hreported⟩ := h.1 _ _ c hc
    exact ⟨c, hc, htrace, hexcludes, hrenews, hreported _ _ (List.mem_of_head? hreturned)⟩
  · obtain ⟨hexcludes, hrenews, -, -, hfails⟩ := h.2 contended (SqliteKV.withHashFn fun _ => 0)
      (by simp [contended, LeaseCall.Fits]) (by simp [contended, ClockForward, second])
      (by decide +kernel)
    exact ⟨by decide +kernel, hexcludes, hrenews, hfails ⟨2, .acquire second, 2 * second, false⟩
      .kvLeaseConflict (by simp [LeaseCall.Fits]) (by decide +kernel)⟩

/-- A loads the token of a free lease and reads the clock; B acquires the lease and lets its token
expire; C acquires it and releases its token; then A swaps the token it had loaded. -/
theorem acquire_over_reloaded_token :
    ∃ c, memoryLease.run
        [(0, 0), (0, 1), (1, 0), (1, 1), (1, 0), (1, 0), (2, 0), (2, 2 * second), (2, 0), (2, 0),
          (3, 0), (3, 0), (0, 0), (0, 0)]
        (memoryLease.launch [.acquire (5 * second), .acquire second, .acquire second,
          .release 3000000000] .new) = some c ∧
      ¬ Excludes ExpiredBy c.shared.trace := by
  obtain ⟨c, hc, htrace⟩ := Option.map_eq_some_iff.1 (show (memoryLease.run
      [(0, 0), (0, 1), (1, 0), (1, 1), (1, 0), (1, 0), (2, 0), (2, 2 * second), (2, 0), (2, 0),
          (3, 0), (3, 0), (0, 0), (0, 0)]
        (memoryLease.launch [.acquire (5 * second), .acquire second, .acquire second,
          .release 3000000000] .new)).map (fun c => c.shared.trace) =
      some [⟨0, .acquire 1 (5 * second), 0, 5000000001⟩, ⟨3, .release, 3000000000, 0⟩,
        ⟨2, .acquire (2 * second) second, 1000000001, 3000000000⟩,
        ⟨1, .acquire 1 second, 0, 1000000001⟩] by decide +kernel)
  refine ⟨c, hc, fun h => ?_⟩
  rw [htrace] at h
  rcases h [] _ [_, _] _ [] 1 (5 * second) rfl rfl rfl with ⟨e, he, hprev, hg⟩ | hle
  · simp only [List.mem_cons, List.not_mem_nil, or_false] at he
    rcases he with rfl | rfl
    · simp at hprev
    · simp at hg
  · simp [ExpiredBy] at hle

end Specter
