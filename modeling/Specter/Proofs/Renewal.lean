import Specter.Lib.Rely
import Specter.Proofs.Kv
import Specter.Renewal

/-!
# A lock stays renewed while renewals do not overlap

A renewal that begins when no other one is in flight finds the token of the holder in the KV, so it
succeeds, and leaves the two equal again.  When two are in flight, one of them may fail; if that is
the background renewal, it ends, with the lock still held.
-/

namespace Specter

open Lib

def inFlight : List LockEvent → List ℕ
  | [] => []
  | .began t :: log => t :: inFlight log
  | .renewed t _ :: log => (inFlight log).erase t
  | _ :: log => inFlight log

/-- No renewal begins while another one is in flight, and neither when a release is begun. -/
def Separate : List LockEvent → Prop
  | [] => True
  | .began _ :: log => (inFlight log = [] ∧ .releasing ∉ log) ∧ Separate log
  | .releasing :: log => inFlight log = [] ∧ Separate log
  | _ :: log => Separate log

/-- Every `Renew` reaches the KV before the lease expires, and at a time whose tokens fit into 64
bits. -/
def Timely (td : ℤ) (log : List LockEvent) : Prop :=
  ∀ (now : ℤ) (token : ℕ), .read now token ∈ log →
    now < token ∧ ∃ next, nextToken now td token = .ok next

/-- What a lock that stays renewed looks like, at any time. -/
structure StaysRenewed (s : LockState) : Prop where
  renews : ∀ t res, .renewed t res ∈ s.log → res = .ok ()
  runs : s.running = false → s.cancelled = true
  agrees : inFlight s.log = [] → s.kv.token = s.token ∨ s.kv.token = 0 ∧ .releasing ∈ s.log
  releases : ∀ res, .released res ∈ s.log → res = .ok 0

section Records

variable {log : List LockEvent} {e : LockEvent} {td : ℤ}

theorem Timely.tail (h : Timely td (e :: log)) : Timely td log :=
  fun now token hm => h now token (List.mem_cons_of_mem e hm)

theorem Separate.tail (h : Separate (e :: log)) : Separate log := by
  cases e with
  | began t => exact h.2
  | releasing => exact h.2
  | read now token => exact h
  | renewed t res => exact h
  | unlocking t => exact h
  | released res => exact h

end Records

structure LockInv (s : LockState) : Prop extends StaysRenewed s where
  small : (s.kv.token : ℤ) ≤ maxInt64
  kept : s.registered = true → s.kv.token ≠ 0 ∧ ∀ t, .unlocking t ∉ s.log
  one : ∀ t t', .unlocking t ∈ s.log → .unlocking t' ∈ s.log → t = t'
  idle : .releasing ∈ s.log → inFlight s.log = []
  zero : s.kv.token = 0 → .releasing ∈ s.log

structure LockGuar (t : ℕ) (s s' : LockState) : Prop where
  log : ∃ new, s'.log = new ++ s.log
  others : ∀ t', t' ≠ t → inFlight s.log = [t'] → inFlight s'.log = [t']
  tokens : s'.kv.token = s.kv.token ∧ s'.token = s.token ∨ inFlight s.log = [t] ∨
    .unlocking t ∈ s.log ∧ .releasing ∈ s.log
  live : s.kv.token ≠ 0 → s'.kv.token ≠ 0 ∨ .unlocking t ∈ s.log
  cancelled : s.cancelled = true → s'.cancelled = true

section Rules

variable (leaseTTL td : ℤ) {e : LockEvent} (φ : ℕ → ℕ → Prop) {l : LockLabel} {a : LockAct}
  {r : lockSig.Res a} {prev : ℕ}

def lockRules : Rules (chordLock leaseTTL) where
  ok _ := True
  known _ _ s' := Timely td s'.log ∧ Separate s'.log
  inv := LockInv
  guar := LockGuar
  fresh _ _ := True
  pre τ _ := ∀ call, τ ≠ .other call
  post _ _ := True

variable {leaseTTL td} {t : ℕ}

theorem stable_mem (e : LockEvent) : (lockRules leaseTTL td).Stable t fun s => e ∈ s.log := by
  intro s s' t' _ _ _ hg _ h
  obtain ⟨new, hnew⟩ := hg.log
  rw [hnew]
  exact List.mem_append_right new h

theorem stable_cancelled : (lockRules leaseTTL td).Stable t fun s => s.cancelled = true :=
  fun _ _ _ _ _ _ hg _ h => hg.cancelled h

theorem stable_flying : (lockRules leaseTTL td).Stable t fun s =>
    inFlight s.log = [t] ∧ φ s.kv.token s.token := by
  rintro s s' t' hne hi _ hg _ ⟨hfly, hφ⟩
  refine ⟨hg.others t (Ne.symm hne) hfly, ?_⟩
  rcases hg.tokens with ⟨h1, h2⟩ | h | ⟨_, h⟩
  · rwa [h1, h2]
  · rw [hfly] at h
    exact absurd (List.cons.inj h).1 (Ne.symm hne)
  · rw [hi.idle h] at hfly
    cases hfly

theorem stable_releasing : (lockRules leaseTTL td).Stable t fun s =>
    .unlocking t ∈ s.log ∧ .releasing ∈ s.log ∧ φ s.kv.token s.token := by
  rintro s s' t' hne hi _ hg hk ⟨hun, hrel, hφ⟩
  refine ⟨stable_mem _ s s' t' hne hi ‹_› hg hk hun, stable_mem _ s s' t' hne hi ‹_› hg hk hrel, ?_⟩
  rcases hg.tokens with ⟨h1, h2⟩ | h | ⟨h, _⟩
  · rwa [h1, h2]
  · rw [hi.idle hrel] at h
    cases h
  · exact absurd (hi.one t' t h hun) hne

theorem stable_unlocking : (lockRules leaseTTL td).Stable t fun s =>
    .unlocking t ∈ s.log ∧ s.kv.token ≠ 0 := by
  rintro s s' t' hne hi hi' hg hk ⟨hun, hne0⟩
  refine ⟨stable_mem _ s s' t' hne hi hi' hg hk hun, ?_⟩
  rcases hg.live hne0 with h | h
  · exact h
  · exact absurd (hi.one t' t h hun) hne

structure OnlyReads (s s' : LockState) : Prop where
  kvToken : s'.kv.token = s.kv.token
  token : s'.token = s.token
  registered : s'.registered = s.registered
  cancelled : s'.cancelled = s.cancelled
  running : s'.running = s.running
  log : s'.log = s.log ∨ ∃ now token, s'.log = .read now token :: s.log

theorem OnlyReads.refl (s : LockState) : OnlyReads s s := ⟨rfl, rfl, rfl, rfl, rfl, .inl rfl⟩

theorem OnlyReads.inFlight {s s' : LockState} (h : OnlyReads s s') :
    Specter.inFlight s'.log = Specter.inFlight s.log := by
  rcases h.log with h | ⟨now, token, h⟩ <;> rw [h]
  rfl

theorem OnlyReads.mem {s s' : LockState} (h : OnlyReads s s') (he : e ∈ s.log) : e ∈ s'.log := by
  rcases h.log with h | ⟨now, token, h⟩ <;> rw [h]
  · exact he
  · exact List.mem_cons_of_mem _ he

theorem OnlyReads.mem_iff {s s' : LockState} (h : OnlyReads s s')
    (he : ∀ now token, e ≠ .read now token) : e ∈ s'.log ↔ e ∈ s.log := by
  rcases h.log with h | ⟨now, token, h⟩ <;> rw [h]
  simp [he]

theorem OnlyReads.keeps {s s' : LockState} (h : OnlyReads s s') (hi : LockInv s) :
    LockInv s' ∧ LockGuar t s s' := by
  constructor
  · constructor
    · constructor
      · intro t res hm
        exact hi.renews t res ((h.mem_iff (by simp)).1 hm)
      · rw [h.running, h.cancelled]
        exact hi.runs
      · rw [h.inFlight, h.kvToken, h.token, h.mem_iff (by simp)]
        exact hi.agrees
      · intro res hm
        exact hi.releases res ((h.mem_iff (by simp)).1 hm)
    · rw [h.kvToken]
      exact hi.small
    · rw [h.registered, h.kvToken]
      intro hr
      exact ⟨(hi.kept hr).1, fun t hm => (hi.kept hr).2 t ((h.mem_iff (by simp)).1 hm)⟩
    · intro t t' hm hm'
      exact hi.one t t' ((h.mem_iff (by simp)).1 hm) ((h.mem_iff (by simp)).1 hm')
    · rw [h.mem_iff (by simp), h.inFlight]
      exact hi.idle
    · rw [h.kvToken, h.mem_iff (by simp)]
      exact hi.zero
  · refine ⟨?_, fun t' _ ht' => by rwa [h.inFlight], .inl ⟨h.kvToken, h.token⟩, fun hne => ?_, ?_⟩
    · rcases h.log with h | ⟨now, token, h⟩
      · exact ⟨[], h⟩
      · exact ⟨[_], h⟩
    · exact .inl (by rwa [h.kvToken])
    · rw [h.cancelled]
      exact id

def LockAct.IsRead : LockAct → Prop
  | .kv .load | .kv .clock | .loadToken | .loadHolder | .wait | .select => True
  | _ => False

theorem onlyReads_exec {s s' : LockState} (ha : a.IsRead) (he : lockExec l t s a = some (r, s')) :
    OnlyReads s s' := by
  cases a with
  | kv a =>
    cases a with
    | load =>
      cases he
      exact .refl s
    | clock =>
      simp only [lockExec, leaseExec] at he
      split_ifs at he
      · cases he
        exact ⟨rfl, rfl, rfl, rfl, rfl, .inr ⟨_, _, rfl⟩⟩
      · cases he
    | _ => exact ha.elim
  | loadToken | loadHolder =>
    cases he
    exact .refl s
  | wait | select =>
    simp only [lockExec] at he
    split_ifs at he <;> cases he <;> exact .refl s
  | _ => exact ha.elim

theorem lock_neutral :
    (lockRules leaseTTL td).Neutral (fun _ => OnlyReads) t LockAct.IsRead :=
  ⟨fun ha _ he => onlyReads_exec ha he, fun h hi => h.keeps hi⟩

theorem firm_flying :
    (lockRules leaseTTL td).Firm (fun _ => OnlyReads) t fun s =>
      inFlight s.log = [t] ∧ φ s.kv.token s.token :=
  ⟨stable_flying φ, fun h hs => by rwa [h.inFlight, h.kvToken, h.token]⟩

theorem firm_releasing :
    (lockRules leaseTTL td).Firm (fun _ => OnlyReads) t fun s =>
      .unlocking t ∈ s.log ∧ .releasing ∈ s.log ∧ φ s.kv.token s.token :=
  ⟨stable_releasing φ, fun h hs => by
    rw [h.kvToken, h.token]
    exact ⟨h.mem hs.1, h.mem hs.2.1, hs.2.2⟩⟩

theorem flying_keeps {s s' : LockState} (hi : LockInv s) (hfly : inFlight s.log = [t])
    (hlog : s'.log = s.log) (hreg : s'.registered = s.registered)
    (hcan : s'.cancelled = s.cancelled) (hrun : s'.running = s.running)
    (hne : s'.kv.token ≠ 0) (hsmall : (s'.kv.token : ℤ) ≤ maxInt64) :
    LockInv s' ∧ LockGuar t s s' := by
  have hempty : inFlight s'.log ≠ [] := by simp [hlog, hfly]
  refine ⟨⟨⟨?_, ?_, fun h => absurd h hempty, ?_⟩, hsmall, ?_, ?_, ?_, fun h => absurd h hne⟩,
    ⟨[], hlog⟩, fun t' _ ht' => by rwa [hlog], .inr (.inl hfly), fun _ => .inl hne, ?_⟩
  · rw [hlog]
    exact hi.renews
  · rw [hrun, hcan]
    exact hi.runs
  · rw [hlog]
    exact hi.releases
  · rw [hreg, hlog]
    exact fun hr => ⟨hne, (hi.kept hr).2⟩
  · rw [hlog]
    exact hi.one
  · rw [hlog]
    exact hi.idle
  · rw [hcan]
    exact id

theorem triple_beginRenewal : (lockRules leaseTTL td).Triple t (fun _ => True)
    (ChordStorage.act .beginRenewal) fun _ s =>
      inFlight s.log = [t] ∧ s.kv.token = s.token ∧ s.kv.token ≠ 0 := by
  refine .perform (.const True) (fun _ => stable_flying fun a b => a = b ∧ a ≠ 0) ?_
  rintro s l r s' hi - - he hk
  cases he
  obtain ⟨-, ⟨hidle, hrel⟩, -⟩ := hk
  have hne : s.kv.token ≠ 0 := fun h => hrel (hi.zero h)
  have heq : s.kv.token = s.token := by
    rcases hi.agrees hidle with h | ⟨h, _⟩
    · exact h
    · exact absurd h hne
  have hfly : inFlight (.began t :: s.log) = [t] := by simp [inFlight, hidle]
  refine ⟨⟨⟨?_, hi.runs, ?_, ?_⟩, hi.small, ?_, ?_, ?_, ?_⟩,
    ⟨⟨[_], rfl⟩, ?_, .inl ⟨rfl, rfl⟩, .inl, id⟩, hfly, heq, hne⟩
  · simpa using hi.renews
  · intro h
    cases hfly.symm.trans h
  · simpa using hi.releases
  · simpa using hi.kept
  · simpa using hi.one
  · intro h
    exact absurd (by simpa using h) hrel
  · simpa using hi.zero
  · intro t' _ ht'
    rw [hidle] at ht'
    cases ht'

theorem triple_endRenewal : (lockRules leaseTTL td).Triple t
    (fun s => inFlight s.log = [t] ∧ s.kv.token = s.token)
    (ChordStorage.act (.endRenewal (.ok ()))) fun _ _ => True := by
  refine .perform (stable_flying fun a b => a = b) (fun _ => .const True) ?_
  rintro s l r s' hi ⟨hfly, heq⟩ - he -
  cases he
  have hidle : inFlight (.renewed t (.ok ()) :: s.log) = [] := by simp [inFlight, hfly]
  refine ⟨⟨⟨?_, hi.runs, fun _ => .inl heq, ?_⟩, hi.small, ?_, ?_, fun _ => hidle, ?_⟩,
    ⟨⟨[_], rfl⟩, ?_, .inl ⟨rfl, rfl⟩, .inl, id⟩, trivial⟩
  · intro t' res hm
    rcases List.mem_cons.1 hm with h | h
    · cases h
      rfl
    · exact hi.renews t' res h
  · simpa using hi.releases
  · simpa using hi.kept
  · simpa using hi.one
  · simpa using hi.zero
  · intro t' hne ht'
    rw [hfly] at ht'
    exact absurd (List.cons.inj ht').1.symm hne

/-- The thread is renewing the lease, and no token has changed since it loaded this one. -/
abbrev Renews (t prev : ℕ) (s : LockState) : Prop :=
  inFlight s.log = [t] ∧ s.kv.token = prev ∧ s.token = prev

theorem triple_readClock (prev : ℕ) : (lockRules leaseTTL td).Triple t (Renews t prev)
    (ChordStorage.act (.kv .clock)) fun (now : ℤ) s =>
      (now < (prev : ℤ) ∧ ∃ next, nextToken now td prev = .ok next) ∧ Renews t prev s := by
  refine .perform (stable_flying fun a b => a = prev ∧ b = prev)
    (fun now => .and (.const _) (stable_flying fun a b => a = prev ∧ b = prev)) ?_
  rintro s l now s' hi ⟨hf, hkv, htok⟩ - he ⟨htimely, -⟩
  have hq := onlyReads_exec (a := .kv .clock) trivial he
  simp only [chordLock, lockExec, leaseExec] at he
  split_ifs at he
  · cases he
    exact and_assoc.1 ⟨hq.keeps hi, hkv ▸ htimely _ _ (List.mem_cons_self ..), hf, hkv, htok⟩
  · cases he

theorem triple_swapToken {next : ℕ} {now : ℤ} (hnext : nextToken now td prev = .ok next)
    (g : Grant) : (lockRules leaseTTL td).Triple t (Renews t prev)
    (ChordStorage.act (.kv (.compareAndSwap prev next g))) fun swapped s => swapped = true ∧
      inFlight s.log = [t] ∧ s.kv.token = next := by
  refine .perform (stable_flying fun a b => a = prev ∧ b = prev)
    (fun _ => .and (.const _) (stable_flying fun a _ => a = next)) ?_
  rintro s l swapped s' hi ⟨hf, hkv, htok⟩ - he -
  simp only [chordLock, lockExec, leaseExec, if_pos hkv] at he
  cases he
  obtain ⟨hne, hlt⟩ := nextToken_lt hnext
  have hsmall : (next : ℤ) ≤ maxInt64 := by
    unfold maxInt64
    omega
  exact and_assoc.1 ⟨flying_keeps hi hf rfl rfl rfl rfl hne hsmall, rfl, hf, rfl⟩

theorem lease_bind {α β : Type} (p : LeaseProg α) (f : α → LeaseProg β) :
    ChordStorage.lease (p >>= f) = ChordStorage.lease p >>= fun a => ChordStorage.lease (f a) :=
  Prog.lift_bind

theorem triple_renew (hdur : durationGuard leaseTTL = some td) (hprev : prev ≠ 0) :
    (lockRules leaseTTL td).Triple t (Renews t prev)
      (ChordStorage.lease (renewLease leaseTTL prev)) fun res s => ∃ next, res = .ok next ∧
        (next ≠ 0 ∧ (next : ℤ) ≤ maxInt64) ∧ inFlight s.log = [t] ∧ s.kv.token = next := by
  simp only [renewLease, hdur, lease_bind]
  refine .bind (Q := fun (curr : ℕ) s => curr = prev ∧ Renews t prev s) ?_ fun (curr : ℕ) =>
    .assume fun hcurr => .bind (triple_readClock prev) fun (now : ℤ) => .assume ?_
  · refine lock_neutral.perform (a := .kv .load) trivial
      (firm_flying fun a b => a = prev ∧ b = prev) (fun _ => .and (.const _)
        (firm_flying fun a b => a = prev ∧ b = prev)) ?_
    rintro s l r s' - hs - he
    cases he
    exact ⟨hs.2.1, hs⟩
  · rintro ⟨hlt, next, hnext⟩
    obtain ⟨hne, hsmall⟩ := nextToken_lt hnext
    have hbound : prev < 2 ^ 63 := by
      obtain ⟨-, -, -, h, -⟩ := nextToken_spec hnext
      unfold maxInt64 at h
      omega
    have hunexpired : ¬ now ≥ toInt64 prev := by
      rw [toInt64, if_pos hbound]
      omega
    rw [hnext]
    simp only [hcurr, if_neg hprev, if_neg hunexpired, ne_eq, not_true_eq_false, if_false,
      lease_bind]
    refine .bind (triple_swapToken hnext (.renew now td)) fun (swapped : Bool) => .assume ?_
    rintro rfl
    refine .ret (.ex fun _ => .and (.const _) (.and (.const _) (stable_flying fun a _ => a = _)))
      fun s _ hs => ⟨next, rfl, ⟨hne, ?_⟩, hs⟩
    unfold maxInt64
    omega

theorem triple_renewLeaseOnce (hdur : durationGuard leaseTTL = some td) :
    (lockRules leaseTTL td).Triple t (fun _ => True) (ChordStorage.renewLeaseOnce leaseTTL)
      fun res _ => res = .ok () := by
  refine .bind triple_beginRenewal fun _ =>
    .bind (Q := fun (prev : ℕ) s => prev ≠ 0 ∧ Renews t prev s) ?_ fun (prev : ℕ) => .assume
      fun hprev => .bind (triple_renew hdur hprev) fun res => .ex fun next => .assume ?_
  · refine lock_neutral.perform (a := .loadToken) trivial
      (firm_flying fun a b => a = b ∧ a ≠ 0) (fun prev => .and (.const _)
        (firm_flying fun a b => a = prev ∧ b = prev)) ?_
    rintro s l r s' - ⟨hf, heq, hne⟩ - he
    cases he
    exact ⟨heq ▸ hne, hf, heq, rfl⟩
  · rintro rfl
    refine .assume fun ⟨hne, hsmall⟩ => .bind (Q := fun _ s => inFlight s.log = [t] ∧
      s.kv.token = s.token) ?_ fun _ => .bind triple_endRenewal fun _ =>
        .ret (.const _) fun _ _ _ => rfl
    refine .perform (stable_flying fun a _ => a = next)
      (fun _ => stable_flying fun a b => a = b) ?_
    rintro s l r s' hi ⟨hf, hkv⟩ - he -
    cases he
    exact and_assoc.1 ⟨flying_keeps hi hf rfl rfl rfl rfl (by rwa [hkv]) hi.small, hf, hkv⟩

theorem triple_done : (lockRules leaseTTL td).Triple t (fun s => s.cancelled = true)
    (ChordStorage.act .done) fun _ _ => True := by
  refine .perform stable_cancelled (fun _ => .const True) ?_
  rintro s l r s' hi hc - he -
  cases he
  exact ⟨⟨⟨hi.renews, fun _ => hc, hi.agrees, hi.releases⟩, hi.small, hi.kept, hi.one, hi.idle,
    hi.zero⟩, ⟨⟨[], rfl⟩, fun _ _ h => h, .inl ⟨rfl, rfl⟩, .inl, id⟩, trivial⟩

theorem firm_cancelled (χ : Prop) : (lockRules leaseTTL td).Firm (fun _ => OnlyReads) t fun s =>
    χ → s.cancelled = true :=
  .imp ⟨stable_cancelled, fun h hs => by rwa [h.cancelled]⟩ χ

theorem triple_renewLease (hdur : durationGuard leaseTTL = some td) : ∀ ticks,
    (lockRules leaseTTL td).Triple t (fun _ => True) (ChordStorage.renewLease leaseTTL ticks)
      fun _ _ => True
  | 0 => .done ()
  | ticks + 1 => by
    refine .bind (Q := fun (tick : Bool) s => tick = false → s.cancelled = true) ?_
      fun (tick : Bool) => ?_
    · refine lock_neutral.perform (a := .select) trivial (.const True)
        (fun tick => firm_cancelled (tick = false)) ?_
      rintro s l (tick : Bool) s' - - - he rfl
      simp only [chordLock, lockExec] at he
      split_ifs at he with h1 h2
      · cases he
      · exact h2
    · cases tick with
      | true =>
        refine (Rules.Triple.bind (triple_renewLeaseOnce hdur) fun res => ?_).pre
          fun _ _ _ => trivial
        rintro s hi rfl
        exact triple_renewLease hdur ticks s hi trivial
      | false => exact triple_done.pre fun _ _ h => h rfl

theorem triple_renewLockLease (hdur : durationGuard leaseTTL = some td) :
    (lockRules leaseTTL td).Triple t (fun _ => True) (ChordStorage.renewLockLease leaseTTL)
      fun _ _ => True := by
  refine .bind (Q := fun _ _ => True) ?_ fun (ok : Bool) => ?_
  · exact lock_neutral.perform (a := .loadHolder) trivial (.const True) (fun _ => .const True)
      fun _ _ _ _ _ _ _ _ => trivial
  · cases ok with
    | true => exact .bind (triple_renewLeaseOnce hdur) fun _ => .done ()
    | false => exact .done ()

theorem triple_takeHolder : (lockRules leaseTTL td).Triple t (fun _ => True)
    (ChordStorage.act .takeHolder) fun (ok : Bool) s => ok = true →
      .unlocking t ∈ s.log ∧ s.kv.token ≠ 0 := by
  refine .perform (.const True) (fun (ok : Bool) => ?_) ?_
  · cases ok with
    | true =>
      intro s s' t' hne hi hi' hg hk h _
      exact stable_unlocking s s' t' hne hi hi' hg hk (h rfl)
    | false => exact fun _ _ _ _ _ _ _ _ _ h => nomatch h
  rintro s l (ok : Bool) s' hi - - he -
  simp only [chordLock, lockExec] at he
  split_ifs at he with hreg
  · cases he
    obtain ⟨hne, hnone⟩ := hi.kept hreg
    refine ⟨⟨⟨?_, hi.runs, ?_, ?_⟩, hi.small, (fun h => by cases h), ?_, ?_, ?_⟩,
      ⟨⟨[_], rfl⟩, fun _ _ h => h, .inl ⟨rfl, rfl⟩, .inl, id⟩,
      fun _ => ⟨List.mem_cons_self .., hne⟩⟩
    · simpa using hi.renews
    · simpa [inFlight] using hi.agrees
    · simpa using hi.releases
    · intro t₁ t₂ h₁ h₂
      simp only [List.mem_cons, hnone, or_false, LockEvent.unlocking.injEq] at h₁ h₂
      rw [h₁, h₂]
    · simpa [inFlight] using hi.idle
    · simpa using hi.zero
  · cases he
    exact ⟨hi, ((OnlyReads.refl s).keeps hi).2, fun h => nomatch h⟩

theorem triple_cancel : (lockRules leaseTTL td).Triple t
    (fun s => .unlocking t ∈ s.log ∧ s.kv.token ≠ 0)
    (ChordStorage.act .cancel) fun _ s => .unlocking t ∈ s.log ∧ s.kv.token ≠ 0 := by
  refine .perform stable_unlocking (fun _ => stable_unlocking) ?_
  rintro s l r s' hi hs - he -
  cases he
  exact ⟨⟨⟨hi.renews, fun _ => rfl, hi.agrees, hi.releases⟩, hi.small, hi.kept, hi.one, hi.idle,
    hi.zero⟩, ⟨⟨[], rfl⟩, fun _ _ h => h, .inl ⟨rfl, rfl⟩, .inl, fun _ => rfl⟩, hs⟩

theorem triple_beginRelease : (lockRules leaseTTL td).Triple t
    (fun s => .unlocking t ∈ s.log ∧ s.kv.token ≠ 0)
    (ChordStorage.act .beginRelease) fun _ s =>
      .unlocking t ∈ s.log ∧ .releasing ∈ s.log ∧ s.kv.token = s.token := by
  refine .perform stable_unlocking (fun _ => stable_releasing fun a b => a = b) ?_
  rintro s l r s' hi ⟨hun, hne⟩ - he hk
  cases he
  obtain ⟨-, hidle, -⟩ := hk
  have heq : s.kv.token = s.token := by
    rcases hi.agrees hidle with h | ⟨h, _⟩
    · exact h
    · exact absurd h hne
  refine ⟨⟨⟨?_, hi.runs, fun _ => .inl heq, ?_⟩, hi.small, ?_, ?_, fun _ => hidle,
    fun _ => List.mem_cons_self ..⟩, ⟨⟨[_], rfl⟩, fun _ _ h => h, .inl ⟨rfl, rfl⟩, .inl, id⟩,
    List.mem_cons_of_mem _ hun, List.mem_cons_self .., heq⟩
  · simpa using hi.renews
  · simpa using hi.releases
  · simpa using hi.kept
  · simpa using hi.one

theorem triple_releaseLease (token : ℕ) : (lockRules leaseTTL td).Triple t
    (fun s => .unlocking t ∈ s.log ∧ .releasing ∈ s.log ∧ s.kv.token = token)
    (ChordStorage.lease (releaseLease token)) fun res _ => res = .ok 0 := by
  simp only [releaseLease, lease_bind]
  refine .bind (Q := fun (swapped : Bool) _ => swapped = true) ?_ fun (swapped : Bool) => ?_
  · refine Rules.Triple.perform (a := LockAct.kv (.compareAndSwap token 0 .release))
      (stable_releasing fun a _ => a = token) (fun _ => .const _) ?_
    rintro s l swapped s' hi ⟨hun, hrel, hkv⟩ - he -
    simp only [chordLock, lockExec, leaseExec, if_pos hkv] at he
    cases he
    have hsmall : ((0 : ℕ) : ℤ) ≤ maxInt64 := by decide
    exact ⟨⟨⟨hi.renews, hi.runs, fun _ => .inr ⟨rfl, hrel⟩, hi.releases⟩, hsmall,
      fun h => absurd hun ((hi.kept h).2 t), hi.one, hi.idle, fun _ => hrel⟩,
      ⟨⟨[], rfl⟩, fun _ _ h => h, .inr (.inr ⟨hun, hrel⟩), fun _ => .inr hun, id⟩, rfl⟩
  · rintro s hi rfl
    exact fun _ _ => rfl

theorem triple_endRelease : (lockRules leaseTTL td).Triple t (fun _ => True)
    (ChordStorage.act (.endRelease (.ok 0))) fun _ _ => True := by
  refine .perform (.const True) (fun _ => .const True) ?_
  rintro s l r s' hi - - he -
  cases he
  refine ⟨⟨⟨?_, hi.runs, ?_, ?_⟩, hi.small, ?_, ?_, ?_, ?_⟩,
    ⟨⟨[_], rfl⟩, fun _ _ h => h, .inl ⟨rfl, rfl⟩, .inl, id⟩, trivial⟩
  · simpa using hi.renews
  · simpa [inFlight] using hi.agrees
  · intro res hm
    rcases List.mem_cons.1 hm with h | h
    · cases h
      rfl
    · exact hi.releases res h
  · simpa using hi.kept
  · simpa using hi.one
  · simpa [inFlight] using hi.idle
  · simpa using hi.zero

theorem triple_unlockKey : (lockRules leaseTTL td).Triple t (fun _ => True) ChordStorage.unlock
    fun _ _ => True := by
  refine .bind triple_takeHolder fun (ok : Bool) => ?_
  cases ok with
  | false => exact .done ()
  | true =>
    refine .bind (triple_cancel.pre fun _ _ h => h rfl) fun _ => .bind (Q := fun _ s =>
      .unlocking t ∈ s.log ∧ s.kv.token ≠ 0) ?_ fun _ => .bind triple_beginRelease fun _ =>
        .bind (Q := fun (token : ℕ) s => .unlocking t ∈ s.log ∧ .releasing ∈ s.log ∧
          s.kv.token = token) ?_ fun (token : ℕ) => .bind (triple_releaseLease token) fun res => ?_
    · exact lock_neutral.perform (a := .wait) trivial
        ⟨stable_unlocking, fun h hs => ⟨h.mem hs.1, by rw [h.kvToken]; exact hs.2⟩⟩
        (fun _ => ⟨stable_unlocking, fun h hs => ⟨h.mem hs.1, by rw [h.kvToken]; exact hs.2⟩⟩)
        fun _ _ _ _ _ hs _ _ => hs
    · refine lock_neutral.perform (a := .loadToken) trivial (firm_releasing fun a b => a = b)
        (fun token => firm_releasing fun a _ => a = token) ?_
      rintro s l token s' - hs - he
      cases he
      exact hs
    · rintro s hi rfl
      exact triple_endRelease s hi trivial

theorem lock_closed (hdur : durationGuard leaseTTL = some td) :
    (lockRules leaseTTL td).Closed where
  stable _ := .const True
  safe τ t := .assume fun hτ => by
    cases τ with
    | renewLease ticks => exact triple_renewLease hdur ticks
    | renewLockLease => exact triple_renewLockLease hdur
    | unlock => exact triple_unlockKey
    | other call => exact absurd rfl (hτ call)

theorem lockExec_log {s s' : LockState} (he : lockExec l t s a = some (r, s')) :
    s'.log = s.log ∨ ∃ e, s'.log = e :: s.log := by
  cases a with
  | kv a =>
    obtain ⟨⟨r', kv⟩, -, h⟩ := Option.map_eq_some_iff.1 he
    cases h
    cases a with
    | clock => exact .inr ⟨_, rfl⟩
    | _ => exact .inl rfl
  | takeHolder =>
    simp only [lockExec] at he
    split_ifs at he <;> cases he
    · exact .inr ⟨_, rfl⟩
    · exact .inl rfl
  | wait | select | loadToken | loadHolder =>
    rcases (onlyReads_exec (by trivial) he).log with h | ⟨_, _, h⟩
    · exact .inl h
    · exact .inr ⟨_, h⟩
  | storeToken _ | cancel | done =>
    cases he
    exact .inl rfl
  | beginRenewal | endRenewal _ | beginRelease | endRelease _ =>
    cases he
    exact .inr ⟨_, rfl⟩

theorem lock_follows {sched : List (ℕ × LockLabel)} {c c' : Config lockSig LockState}
    (hrun : (chordLock leaseTTL).run sched c = some c') (htimely : Timely td c'.shared.log)
    (hsep : Separate c'.shared.log) : (lockRules leaseTTL td).Follows sched c := by
  refine (Rules.follows_of_run (φ := fun s => Timely td s.log ∧ Separate s.log) ?_
    (fun _ _ => trivial) hrun ⟨htimely, hsep⟩).2
  intro t l c c' hstep hc'
  refine ⟨?_, hc'⟩
  obtain ⟨a, k, r, s, -, he, rfl⟩ | ⟨τ, k, -, rfl⟩ := (chordLock leaseTTL).step_cases hstep
  · rcases lockExec_log he with h | ⟨e, h⟩ <;> rw [h] at hc'
    · exact hc'
    · exact ⟨hc'.1.tail, hc'.2.tail⟩
  · exact hc'

end Rules

/-- A lock stays renewed in every run whose renewals do not overlap, whatever is called how often:
the background renewal, any number of `RenewLockLease` calls, and `Unlock`. -/
theorem lock_stays_renewed {leaseTTL td now : ℤ} {token : ℕ}
    (hdur : durationGuard leaseTTL = some td) (hlock : nextToken now td 0 = .ok token)
    (ticks : ℕ) {calls : List LockTask}
    (hcalls : ∀ τ ∈ calls, τ = .renewLockLease ∨ τ = .unlock)
    {sched : List (ℕ × LockLabel)} {c : Config lockSig LockState}
    (hrun : (chordLock leaseTTL).run sched
      ((chordLock leaseTTL).launch (.renewLease ticks :: calls) (.locked token now)) = some c)
    (htimely : Timely td c.shared.log) (hsep : Separate c.shared.log) :
    StaysRenewed c.shared := by
  obtain ⟨hne, hlt⟩ := nextToken_lt hlock
  have hsmall : (token : ℤ) ≤ maxInt64 := by
    unfold maxInt64
    omega
  have hinv : LockInv (.locked token now) := by
    refine ⟨⟨nofun, nofun, fun _ => .inl rfl, nofun⟩, hsmall, fun _ => ⟨hne, nofun⟩, nofun, nofun,
      fun h => absurd h hne⟩
  have hgood : (lockRules leaseTTL td).Good
      ((chordLock leaseTTL).launch (.renewLease ticks :: calls) (.locked token now)) := by
    refine Rules.good_launch hinv (fun _ _ => trivial) fun t τ hτ => ?_
    refine (lock_closed hdur).safe τ t _ hinv ⟨fun call => ?_, trivial⟩
    rcases List.mem_cons.1 (List.mem_of_getElem? hτ) with rfl | h
    · nofun
    · rcases hcalls τ h with rfl | rfl <;> nofun
  have hfollows := lock_follows hrun htimely hsep
  exact (Rules.good_run (lock_closed hdur) hgood hfollows hrun).1.toStaysRenewed

def lockedSecond : Config lockSig LockState :=
  (chordLock second).launch [.renewLease 2, .renewLockLease, .unlock] (.locked 1000000000 0)

def steps (t n : ℕ) (now : ℤ) (tick : Bool) : List (ℕ × LockLabel) := .replicate n (t, ⟨now, tick⟩)

def renewedTwice : List (ℕ × LockLabel) :=
  steps 0 8 500000000 true ++ steps 1 8 600000000 true ++ steps 2 2 600000000 true ++
    steps 0 2 600000000 false ++ steps 2 5 600000000 true

theorem lock_stays_renewed_twice :
    ∃ c, (chordLock second).run renewedTwice lockedSecond = some c ∧
      .released (.ok 0) ∈ c.shared.log ∧ StaysRenewed c.shared := by
  have hlog : ((chordLock second).run renewedTwice lockedSecond).map (fun c => c.shared.log) =
      some [.released (.ok 0), .releasing, .unlocking 2, .renewed 1 (.ok ()),
        .read 600000000 1500000000, .began 1, .renewed 0 (.ok ()), .read 500000000 1000000000,
        .began 0] := by decide +kernel
  obtain ⟨c, hrun, hlog⟩ := Option.map_eq_some_iff.1 hlog
  have hcalls : ∀ τ ∈ [LockTask.renewLockLease, .unlock], τ = .renewLockLease ∨ τ = .unlock := by
    simp
  refine ⟨c, hrun, by simp [hlog], lock_stays_renewed
    (show durationGuard second = some second by decide) (by decide) 2 hcalls hrun ?_ ?_⟩
  · rw [hlog]
    intro now token h
    simp only [List.mem_cons, reduceCtorEq, false_or, LockEvent.read.injEq, List.not_mem_nil,
      or_false] at h
    rcases h with ⟨rfl, rfl⟩ | ⟨rfl, rfl⟩
    · exact ⟨by decide, _, rfl⟩
    · exact ⟨by decide, _, rfl⟩
  · simp [hlog, Separate, inFlight]

/-- `RenewLockLease` while the background renewal has loaded the token. -/
def renewedAtOnce : List (ℕ × LockLabel) :=
  steps 0 3 500000000 true ++ steps 1 8 500000000 true ++ steps 0 4 500000000 true

/-- Both reach the KV in time, the background renewal fails, and it ends without a cancellation. -/
theorem lock_renewal_ends :
    ∃ c, (chordLock second).run renewedAtOnce lockedSecond = some c ∧
      Timely second c.shared.log ∧ .renewed 0 (.error .kvLeaseExpired) ∈ c.shared.log ∧
      c.shared.running = false ∧ c.shared.cancelled = false := by
  have hrun : ((chordLock second).run renewedAtOnce lockedSecond).map
      (fun c => (c.shared.log, c.shared.running, c.shared.cancelled)) =
      some ([.renewed 0 (.error .kvLeaseExpired), .read 500000000 1500000000, .renewed 1 (.ok ()),
        .read 500000000 1000000000, .began 1, .began 0], false, false) := by decide +kernel
  obtain ⟨c, hrun, hc⟩ := Option.map_eq_some_iff.1 hrun
  simp only [Prod.mk.injEq] at hc
  obtain ⟨hlog, hrunning, hcancelled⟩ := hc
  refine ⟨c, hrun, ?_, by simp [hlog], hrunning, hcancelled⟩
  rw [hlog]
  intro now token h
  simp only [List.mem_cons, reduceCtorEq, false_or, LockEvent.read.injEq, List.not_mem_nil,
    or_false] at h
  rcases h with ⟨rfl, rfl⟩ | ⟨rfl, rfl⟩
  · exact ⟨by decide, _, rfl⟩
  · exact ⟨by decide, _, rfl⟩

end Specter
