import Specter.Kv

/-!
# The retrying wrapper

`WrapRetryKV` makes each KV call again while it fails with a retryable error.  An attempt may not
get to the wrapped KV, or its answer may not come back.  No other client changes the keys meanwhile.
-/

namespace Specter

inductive Delivery where
  /-- The request was not carried out. -/
  | unsent (e : ChordError)
  | answered
  /-- The request was carried out, and the answer was lost. -/
  | unanswered (e : ChordError)
  deriving DecidableEq, Repr

/-- How the wait before the next attempt ends. -/
inductive Wait where
  | elapsed
  | deadline
  | canceled
  deriving DecidableEq, Repr

structure Attempt where
  delivery : Delivery
  now : ℤ
  wait : Wait
  deriving DecidableEq, Repr

section Retry

variable {S : Type} [KVProvider S]

/-- What an attempt reports, and the store after it. -/
def Attempt.run (a : Attempt) (r : Request) (s : S) : Except ChordError Reply × S :=
  match a.delivery with
  | .unsent e => (.error e, s)
  | .answered => KVProvider.handle r s
  | .unanswered e => (.error e, (KVProvider.handle r s).2)

/-- The attempts of one call, of which `n` were made: at most `attempts`, or any number if that is
zero.  It has not returned if the list ends first. -/
def retryDo (attempts : ℕ) (request : ℤ → Request) :
    ℕ → List Attempt → S → Option (Except ChordError Reply)
  | _, [], _ => none
  | n, a :: rest, s =>
    let (res, s) := a.run (request a.now) s
    match res with
    | .ok reply => some (.ok reply)
    | .error e =>
      if !errorIsRetryable e then some (.error e)
      -- if this is the last attempt, don't wait
      else if n + 1 = attempts then some (.error e)
      else
        match a.wait with
        | .deadline => some (.error .deadlineExceeded)
        | .canceled => some (.error .other)
        | .elapsed => retryDo attempts request (n + 1) rest s

def retryPrefixAppend (attempts : ℕ) (pfx child : Bytes) :
    List Attempt → S → Option (Except ChordError Reply) :=
  retryDo attempts (fun _ => .prefixAppend pfx child) 0

def retryAcquire (attempts : ℕ) (lease : Bytes) (ttl : ℤ) :
    List Attempt → S → Option (Except ChordError Reply) :=
  retryDo attempts (fun now => .acquire lease ttl now) 0

end Retry

end Specter
