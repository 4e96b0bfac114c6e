import Specter.Codec

/-!
# Rounds of synchronization

A `Syncer` sends the snapshot of its store to every listed peer, and skips a peer whose receipt says
that nothing is new.  A round takes a snapshot, lists the peers and their connections, goes through
the addresses, and waits for the exchanges it started; the rounds are serial.
Meanwhile documents are put and merged, connections are made, reaped and closed, and time passes.
-/

namespace Specter.Config

structure SyncReceipt where
  digest : Digest
  physical : Option ℕ
  retryAt : ℕ
  deriving DecidableEq, Repr

/-- The zero value: `retryAt` is before all times. -/
def SyncReceipt.zero : SyncReceipt := ⟨Vector.replicate 32 0, none, 0⟩

/-- An exchange that was attempted, what it carried, and how and when it ended.  It succeeds over
a physical connection, if the stream says which. -/
structure Attempt where
  records : List Record
  data : List Char
  outcome : Option (Except Unit (Option ℕ) × ℕ)

structure Request where
  records : List Record
  data : List Char
  digest : Digest

structure Round extends Request where
  connected : String → Option ℕ
  seen : List String
  /-- The addresses the round has not come to. -/
  addresses : List String
  /-- The address that waits for a slot. -/
  waiting : Option String
  active : List String
  /-- The receipts of other addresses have been deleted, or the round was cancelled. -/
  swept : Bool

inductive Stage where
  | idle
  | sending (request : Request)
  | visiting (round : Round)

structure Syncer where
  table : Table
  now : ℕ
  /-- The physical connections the transport has cached, by the address of the peer. -/
  cached : String → Option ℕ
  /-- The latest connection that was made with each peer. -/
  current : String → Option ℕ
  closed : List ℕ
  receipts : String → Option SyncReceipt
  stage : Stage
  /-- The latest exchange attempted with each peer. -/
  latest : String → Option Attempt

inductive SyncEvent where
  | put (commit : Commit) (name : String) (schema : UInt64) (value : Bytes) (expectedToken : String)
  | merge (commit : Commit) (records : List Record)
  | connect (address : String) (physical : ℕ)
  | reap (address : String)
  | close (physical : ℕ)
  | tick (d : ℕ)
  | restart
  | snapshot
  /-- The peers, and their addresses in the order of the round. -/
  | list (peers order : List String)
  | check
  | start
  | cancel
  | ends (address : String) (result : Except Unit (Option ℕ))
  | sweep
  | finish

def maxParallelSyncs : ℕ := 4

/-- The addresses of the peers, each once and none that was seen before. -/
def addressesFrom (seen : List String) : List String → List String
  | [] => []
  | peer :: peers =>
    if peer ∈ seen then addressesFrom seen peers
    else peer :: addressesFrom (peer :: seen) peers

/-- The receipt with its connection forgotten if it is not the current one, or is closed. -/
def SyncReceipt.refresh (r : SyncReceipt) (connected : Option ℕ) (closed : List ℕ) : SyncReceipt :=
  match r.physical with
  | none => r
  | some p => if connected ≠ some p ∨ p ∈ closed then { r with physical := none } else r

def SyncReceipt.acknowledges (r : SyncReceipt) (digest : Digest) (now : ℕ) : Bool :=
  r.digest = digest && (r.physical.isSome || now < r.retryAt)

section

variable (sha256 : Bytes → Digest) (interval : ℕ) (self : String)

def sum256 (data : List Char) : Digest := sha256 (String.ofList data).toUTF8.toList

def request (t : Table) : Except Error Request := do
  let records ← snapshot sha256 jsonLen t
  let data ← Codec.encodeSnapshot sha256 records
  return ⟨records, data, sum256 sha256 data⟩

namespace Syncer

/-- The receipt the round looks at when it comes to this address. -/
def receipt (s : Syncer) (round : Round) (address : String) : SyncReceipt :=
  ((s.receipts address).getD .zero).refresh (round.connected address) s.closed

def skips (s : Syncer) (round : Round) (address : String) : Bool :=
  (s.receipt round address).acknowledges round.digest s.now

def stepRound (s : Syncer) (round : Round) : SyncEvent → Option Syncer
  | .check =>
    match round.waiting, round.addresses with
    | none, address :: rest =>
      some { s with
        receipts := Function.update s.receipts address (some (s.receipt round address))
        stage := .visiting { round with
          addresses := rest
          waiting := if s.skips round address then none else some address } }
    | _, _ => none
  | .start =>
    match round.waiting with
    | none => none
    | some address =>
      if round.active.length < maxParallelSyncs then
        some { s with
          latest := Function.update s.latest address (some ⟨round.records, round.data, none⟩)
          stage := .visiting { round with waiting := none, active := address :: round.active } }
      else none
  | .cancel =>
    if round.waiting = none then none
    else some { s with stage := .visiting { round with
      waiting := none, addresses := [], swept := true } }
  | .ends address result =>
    if address ∈ round.active then
      some { s with
        receipts := Function.update s.receipts address
          (some ⟨round.digest, result.toOption.join, s.now + interval⟩)
        latest := Function.update s.latest address ((s.latest address).map fun x =>
          { x with outcome := some (result, s.now) })
        stage := .visiting { round with active := round.active.erase address } }
    else none
  | .sweep =>
    if round.waiting = none ∧ round.addresses = [] ∧ round.swept = false then
      some { s with
        receipts := fun address => if address ∈ round.seen then s.receipts address else none
        stage := .visiting { round with swept := true } }
    else none
  | .finish => if round.swept ∧ round.active = [] then some { s with stage := .idle } else none
  | _ => none

def step (s : Syncer) : SyncEvent → Option Syncer
  | .put commit name schema value expectedToken =>
    some { s with
      table := (put sha256 jsonLen commit name schema value expectedToken s.table).2 }
  | .merge commit records =>
    some { s with table := (merge sha256 jsonLen commit records s.table).2 }
  -- a connection is reaped and closed under the lock of its key, so none is cached in between
  | .connect address physical =>
    if s.cached address = none ∧ (s.current address).all (· ∈ s.closed) then
      some { s with
        cached := Function.update s.cached address physical
        current := Function.update s.current address physical }
    else none
  | .reap address => some { s with cached := Function.update s.cached address none }
  | .close physical => some { s with closed := physical :: s.closed }
  | .tick d => some { s with now := s.now + d }
  | .restart =>
    match s.stage with
    | .idle => some { s with receipts := fun _ => none }
    | _ => none
  | .snapshot =>
    match s.stage, request sha256 s.table with
    | .idle, .ok request => some { s with stage := .sending request }
    | .idle, .error _ => some s
    | _, _ => none
  | .list peers order =>
    match s.stage with
    | .sending request =>
      if order.Perm (addressesFrom [self, ""] peers) then
        some { s with stage := .visiting { request with
          connected := s.cached, seen := [self, ""] ++ order, addresses := order, waiting := none,
          active := [], swept := false } }
      else none
    | _ => none
  | e =>
    match s.stage with
    | .visiting round => s.stepRound interval round e
    | _ => none

def run (s : Syncer) (events : List SyncEvent) : Option Syncer :=
  events.foldlM (step sha256 interval self) s

def new (t : Table) : Syncer :=
  ⟨t, 0, fun _ => none, fun _ => none, [], fun _ => none, .idle, fun _ => none⟩

end Syncer

end

end Specter.Config
