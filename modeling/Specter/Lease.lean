import Specter.Lib.Prog
import Specter.Kv

/-!
# Concurrent calls on one lease

`SqliteKV` runs every lease call as one transaction, which also reads the clock.  `MemoryKV` loads
the token, reads the clock, and swaps in the new token if the old one is still there.  Every swap
that succeeds is recorded, and so is what each call returns.
-/

namespace Specter

open Lib

inductive LeaseCall where
  | acquire (ttl : ℤ)
  | renew (ttl : ℤ) (prevToken : ℕ)
  | release (token : ℕ)
  deriving DecidableEq, Repr

def LeaseCall.request (key : Bytes) (now : ℤ) : LeaseCall → Request
  | .acquire ttl => .acquire key ttl now
  | .renew ttl prevToken => .renew key ttl now prevToken
  | .release token => .release key token

/-- What a swap was for, with the clock reading and the time to live it was decided on. -/
inductive Grant where
  | acquire (now ttl : ℤ)
  | renew (now ttl : ℤ)
  | release
  deriving DecidableEq, Repr

/-- The token went from `prev` to `token`; `0` is a lease that is not held. -/
structure Swap where
  thread : ℕ
  grant : Grant
  prev : ℕ
  token : ℕ
  deriving DecidableEq, Repr

def Swap.issues (e : Swap) : Bool :=
  match e.grant with
  | .acquire _ _ | .renew _ _ => true
  | .release => false

inductive LeaseAct where
  | load
  | clock
  | compareAndSwap (old new : ℕ) (grant : Grant)
  /-- The call returns, with the token or 0. -/
  | finish (res : Except ChordError ℕ)

def leaseSig : Sig where
  Act := LeaseAct
  Res
    | .load => ℕ
    | .clock => ℤ
    | .compareAndSwap _ _ _ => Bool
    | .finish _ => Unit
  Task := LeaseCall

/-- The token, the last reading of the clock, and what happened so far, the latest first. -/
structure LeaseState where
  token : ℕ
  clock : ℤ
  trace : List Swap
  returned : List (ℕ × Except ChordError ℕ)

def LeaseState.new : LeaseState := ⟨0, 0, [], []⟩

def leaseExec (reading : ℤ) (t : ℕ) (s : LeaseState) :
    (a : LeaseAct) → Option (leaseSig.Res a × LeaseState)
  | .load => some (s.token, s)
  | .clock => if s.clock ≤ reading then some (reading, { s with clock := reading }) else none
  | .compareAndSwap old new grant =>
    if s.token = old then
      some (true, { s with token := new, trace := ⟨t, grant, old, new⟩ :: s.trace })
    else some (false, s)
  | .finish res => some ((), { s with returned := (t, res) :: s.returned })

abbrev LeaseProg := Prog leaseSig

def load : LeaseProg ℕ := Prog.perform (S := leaseSig) .load

def clock : LeaseProg ℤ := Prog.perform (S := leaseSig) .clock

def compareAndSwap (old new : ℕ) (grant : Grant) : LeaseProg Bool :=
  Prog.perform (S := leaseSig) (.compareAndSwap old new grant)

def acquireLease (ttl : ℤ) : LeaseProg (Except ChordError ℕ) :=
  match durationGuard ttl with
  | none => return .error .kvLeaseInvalidTTL
  | some td => do
    let curr ← load
    let ref ← clock
    match nextToken ref td 0 with
    | .error e => return .error e
    | .ok next =>
      if (curr : ℤ) > ref then return .error .kvLeaseConflict
      else
        let swapped ← compareAndSwap curr next (.acquire ref td)
        if swapped then return .ok next else return .error .kvLeaseConflict

def renewLease (ttl : ℤ) (prevToken : ℕ) : LeaseProg (Except ChordError ℕ) :=
  match durationGuard ttl with
  | none => return .error .kvLeaseInvalidTTL
  | some td => do
    let curr ← load
    let now ← clock
    match nextToken now td prevToken with
    | .error e => return .error e
    | .ok next =>
      if curr = 0 then return .error .kvLeaseExpired
      else if now ≥ toInt64 curr then return .error .kvLeaseExpired
      else if curr ≠ prevToken then return .error .kvLeaseExpired
      else
        let swapped ← compareAndSwap curr next (.renew now td)
        if swapped then return .ok next else return .error .kvLeaseExpired

def releaseLease (token : ℕ) : LeaseProg (Except ChordError ℕ) := do
  let swapped ← compareAndSwap token 0 .release
  if swapped then return .ok 0 else return .error .kvLeaseExpired

def LeaseCall.prog : LeaseCall → LeaseProg (Except ChordError ℕ)
  | .acquire ttl => acquireLease ttl
  | .renew ttl prevToken => renewLease ttl prevToken
  | .release token => releaseLease token

/-- Any number of calls on one lease of `MemoryKV`, each in a thread of its own. -/
def memoryLease : Machine leaseSig LeaseState ℤ where
  exec := leaseExec
  body call := do
    let res ← call.prog
    Prog.perform (S := leaseSig) (.finish res)

/-! ## One call after the other

A provider that makes each call one step: `SqliteKV` under any calls, and `MemoryKV` under calls
that do not overlap. -/

/-- A call that is made in one step, by this thread, at this reading of the clock. -/
structure LeaseStep where
  thread : ℕ
  call : LeaseCall
  now : ℤ
  fault : Bool
  deriving DecidableEq, Repr

def LeaseStep.grant (x : LeaseStep) : Grant :=
  match x.call with
  | .acquire ttl => .acquire x.now ((durationGuard ttl).getD 0)
  | .renew ttl _ => .renew x.now ((durationGuard ttl).getD 0)
  | .release _ => .release

structure LeaseRun (S : Type) where
  store : S
  trace : List Swap
  returned : List (LeaseStep × Except ChordError Reply)

section steps

variable {S : Type} (handle : Bool → Request → S → Except ChordError Reply × S) (token : S → ℕ)
  (key : Bytes)

def leaseStep (x : LeaseStep) (r : LeaseRun S) : LeaseRun S :=
  let (res, store) := handle x.fault (x.call.request key x.now) r.store
  { store := store
    trace :=
      match res with
      | .ok _ => ⟨x.thread, x.grant, token r.store, token store⟩ :: r.trace
      | .error _ => r.trace
    returned := (x, res) :: r.returned }

def leaseRun (xs : List LeaseStep) (s : S) : LeaseRun S :=
  xs.foldl (fun r x => leaseStep handle token key x r) ⟨s, [], []⟩

end steps

def ClockForward (xs : List LeaseStep) : Prop := xs.Pairwise fun x y => x.now ≤ y.now

end Specter
