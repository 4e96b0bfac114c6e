import Specter.Lease

/-!
# A lock that is kept by renewing its lease

`Lock` of `ChordStorage` acquires a lease and starts a goroutine that renews it at every tick, until
`Unlock` cancels it, waits for it to end and releases the lease.  `RenewLockLease` renews the lease
as well.  Every renewal loads the token of the holder, has the KV renew it, and stores the token it
gets: three steps without a lock.  The model begins when `Lock` has returned, for one key.
-/

namespace Specter

open Lib

inductive LockEvent where
  | began (t : ℕ)
  /-- The KV reads the clock, in a `Renew`, while this token is stored. -/
  | read (now : ℤ) (token : ℕ)
  | renewed (t : ℕ) (res : Except ChordError Unit)
  /-- An `Unlock` takes the holder out of the table. -/
  | unlocking (t : ℕ)
  /-- It has seen the background renewal end, and goes on to release the lease. -/
  | releasing
  | released (res : Except ChordError ℕ)
  deriving DecidableEq

inductive LockAct where
  /-- A step of a call on the lease, at the KV. -/
  | kv (a : LeaseAct)
  | loadToken
  | storeToken (next : ℕ)
  /-- `leaseToken.Load`, for its second result. -/
  | loadHolder
  /-- `leaseToken.LoadAndDelete`. -/
  | takeHolder
  | cancel
  /-- `Done` and `Wait` of the wait group of the holder. -/
  | done
  | wait
  /-- The `select`: true is a tick, false is that the context is done. -/
  | select
  | beginRenewal
  | endRenewal (res : Except ChordError Unit)
  | beginRelease
  | endRelease (res : Except ChordError ℕ)

inductive LockTask where
  /-- The background renewal, up to this number of ticks. -/
  | renewLease (ticks : ℕ)
  | renewLockLease
  | unlock
  | other (call : LeaseCall)
  deriving DecidableEq

def lockSig : Sig where
  Act := LockAct
  Res
    | .kv a => leaseSig.Res a
    | .loadToken => ℕ
    | .loadHolder | .takeHolder | .select => Bool
    | .storeToken _ | .cancel | .done | .wait => Unit
    | .beginRenewal | .endRenewal _ | .beginRelease | .endRelease _ => Unit
  Task := LockTask

structure LockState where
  kv : LeaseState
  token : ℕ
  registered : Bool
  cancelled : Bool
  /-- The background renewal has not called `Done`. -/
  running : Bool
  log : List LockEvent

/-- After a `Lock` that got this token when the clock read `now`. -/
def LockState.locked (token : ℕ) (now : ℤ) : LockState :=
  ⟨⟨token, now, [], []⟩, token, true, false, true, []⟩

/-- What the environment decides: the reading of the clock, and a select with two ready cases. -/
structure LockLabel where
  now : ℤ
  tick : Bool

def LockState.kvStep (s : LockState) (a : LeaseAct) (now : ℤ) (kv : LeaseState) : LockState :=
  { s with
    kv := kv
    log := match a with
      | .clock => .read now s.kv.token :: s.log
      | _ => s.log }

def lockExec (l : LockLabel) (t : ℕ) (s : LockState) :
    (a : LockAct) → Option (lockSig.Res a × LockState)
  | .kv a => (leaseExec l.now t s.kv a).map fun (r, kv) => (r, s.kvStep a l.now kv)
  | .loadToken => some (s.token, s)
  | .storeToken next => some ((), { s with token := next })
  | .loadHolder => some (s.registered, s)
  | .takeHolder =>
    if s.registered then
      some (true, { s with registered := false, log := .unlocking t :: s.log })
    else some (false, s)
  | .cancel => some ((), { s with cancelled := true })
  | .done => some ((), { s with running := false })
  | .wait => if s.running then none else some ((), s)
  | .select => if l.tick then some (true, s) else if s.cancelled then some (false, s) else none
  | .beginRenewal => some ((), { s with log := .began t :: s.log })
  | .endRenewal res => some ((), { s with log := .renewed t res :: s.log })
  | .beginRelease => some ((), { s with log := .releasing :: s.log })
  | .endRelease res => some ((), { s with log := .released res :: s.log })

abbrev LockProg := Prog lockSig

namespace ChordStorage

def act (a : LockAct) : LockProg (lockSig.Res a) := Prog.perform (S := lockSig) a

def lease {α : Type} (p : LeaseProg α) : LockProg α :=
  p.lift LockAct.kv (fun _ r => r) LockTask.other

def renewLeaseOnce (leaseTTL : ℤ) : LockProg (Except ChordError Unit) := do
  act .beginRenewal
  let prev ← act .loadToken
  let res ← lease (Specter.renewLease leaseTTL prev)
  match res with
  | .error e =>
    act (.endRenewal (.error e))
    return .error e
  | .ok next =>
    act (.storeToken next)
    act (.endRenewal (.ok ()))
    return .ok ()

/-- The loop, for at most this number of ticks: a run has an end. -/
def renewLease (leaseTTL : ℤ) : ℕ → LockProg Unit
  | 0 => return ()
  | ticks + 1 => do
    let tick : Bool ← act .select
    if tick then
      match ← renewLeaseOnce leaseTTL with
      | .error _ => act .done
      | .ok () => renewLease leaseTTL ticks
    else act .done

def renewLockLease (leaseTTL : ℤ) : LockProg Unit := do
  let ok : Bool ← act .loadHolder
  if ok then
    let _ ← renewLeaseOnce leaseTTL

def unlock : LockProg Unit := do
  let ok : Bool ← act .takeHolder
  if ok then
    act .cancel
    act .wait
    act .beginRelease
    let token ← act .loadToken
    let res ← lease (releaseLease token)
    act (.endRelease res)

end ChordStorage

/-- The lock of one key, with this time to live. -/
def chordLock (leaseTTL : ℤ) : Machine lockSig LockState LockLabel where
  exec := lockExec
  body
    | .renewLease ticks => ChordStorage.renewLease leaseTTL ticks
    | .renewLockLease => ChordStorage.renewLockLease leaseTTL
    | .unlock => ChordStorage.unlock
    | .other call => ChordStorage.lease (memoryLease.body call)

end Specter
