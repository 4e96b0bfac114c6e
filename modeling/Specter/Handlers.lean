import Mathlib.Logic.Function.Basic
import Specter.Hostname
import Specter.Session

/-!
# The steps of tunnel servers

The handlers are run on two machines.  On `tunnelStore` any number of servers share the store, and
what sessions, clocks and DNS answer is left open.  On `tunnelSessions` one server has its sessions
and its clock, and what the store answers is left open.
-/

namespace Specter.Tunnel

open Lib
open Config (Digest)

structure Given where
  sha256 : Bytes → Digest
  acme : Acme
  waf : WafCodec

def Call.prog (g : Given) (site : Site) : Call → Rpc (Except RpcError Response)
  | .mintDelegation owner hostname expiresAt secret =>
    Tunnel.mintDelegation g.acme.normalize g.sha256 owner hostname expiresAt secret
  | .listDelegations owner => Tunnel.listDelegations owner
  | .revokeDelegation owner id => Tunnel.revokeDelegation owner id
  | .openEphemeralSession conn spki certNotAfter =>
    Tunnel.openEphemeralSession g.sha256 site conn spki certNotAfter
  | .openDelegatedSession conn certNotAfter token slot inv =>
    Tunnel.openDelegatedSession g.sha256 site conn certNotAfter token slot inv
  | .acmeValidate token client hostname proof =>
    Tunnel.acmeValidate g.acme token client hostname proof
  | .publishTunnel token client hostname servers =>
    Tunnel.publishTunnel token client hostname servers
  | .unpublishTunnel token hostname => Tunnel.unpublishTunnel token hostname
  | .releaseTunnel token hostname => Tunnel.releaseTunnel g.waf token hostname
  | .getHostWAF owner hostname => Tunnel.getHostWAF g.acme.normalize g.waf owner hostname
  | .setHostWAF owner hostname policy expectedVersion =>
    Tunnel.setHostWAF g.acme.normalize g.waf owner hostname policy expectedVersion

def body (g : Given) : Task → Rpc Unit
  | .call site c => do
    Prog.perform (S := tunnelSig) (.begin c)
    let res ← c.prog g site
    Prog.perform (S := tunnelSig) (.finish c res)
  | .watch s => watch s
  | .closeConn s => onSession s .closeConn
  | .maintain s => maintainSession s
  | .maintaining s => maintaining s
  | .closeOnCancel s => closeOnCancel s
  | .expiryTimer s => expiryTimer s
  | .dial sessionAlias hostname => do
    let _ ← dial sessionAlias hostname
  | .disconnect conn => session (.disconnect conn)
  | .shutdown => session .shutdown
  | .arrive => Prog.perform (S := tunnelSig) .arrive

inductive Outcome where
  | ok
  | fail (e : ChordError)
  /-- It is carried out, and then reported as failed. -/
  | lost (e : ChordError)
  /-- It is reported as failed, and a write may yet be carried out. -/
  | late (e : ChordError)
  deriving DecidableEq, Repr

structure Label where
  outcome : Outcome
  answer : (a : Act) → a.Res

def KvOp.isWrite : KvOp → Bool
  | .put .. | .delete _ | .prefixAppend .. | .prefixRemove .. => true
  | _ => false

def KvOp.failed (e : ChordError) : (op : KvOp) → op.Res
  | .get _ | .put .. | .delete _ | .prefixAppend .. | .prefixList _ | .prefixContains ..
  | .prefixRemove .. | .acquire _ | .release .. => .error e

/-- The store.  A lease is held by a thread, for as long as its call takes; after that it runs out,
so that one who does not get it then has to do with a failure.  Which calls are running and have
returned, and which grants were indexed, is not stored anywhere. -/
structure World where
  simple : Key → Option Value
  children : Key → List String
  lease : Key → Option ℕ
  pending : List KvOp
  running : List (ℕ × Call)
  returned : List (Call × Except RpcError Response)
  /-- The grants that a Mint has tried to index. -/
  indexed : List String
  /-- Those of them that it is about to write the record of. -/
  unwritten : List String

namespace World

def start (simple : Key → Option Value) (children : Key → List String) : World where
  simple := simple
  children := children
  lease _ := none
  pending := []
  running := []
  returned := []
  indexed := []
  unwritten := []

def answer (w : World) (t : ℕ) : (op : KvOp) → op.Res
  | .get key => .ok (w.simple key)
  | .put .. | .delete _ | .prefixRemove .. | .release .. => .ok ()
  | .prefixAppend key child =>
    if child ∈ w.children key then .error .kvPrefixConflict else .ok ()
  | .prefixList key => .ok (w.children key)
  | .prefixContains key child => .ok (child ∈ w.children key)
  | .acquire key => if w.lease key = none then .ok t else .error .kvLeaseConflict

def effect (w : World) (t : ℕ) : KvOp → World
  | .put key value => { w with simple := Function.update w.simple key (some value) }
  | .delete key => { w with simple := Function.update w.simple key none }
  | .prefixAppend key child =>
    if child ∈ w.children key then w
    else
      { w with
        children := Function.update w.children key
          ((w.children key).orderedInsert (fun a b => ¬ b < a) child) }
  | .prefixRemove key child =>
    { w with children := Function.update w.children key ((w.children key).filter (· ≠ child)) }
  | .acquire key =>
    if w.lease key = none then { w with lease := Function.update w.lease key (some t) } else w
  | .release key token =>
    if w.lease key = some token then { w with lease := Function.update w.lease key none } else w
  | .get _ | .prefixList _ | .prefixContains .. => w

/-- A lease that its holder fails to release. -/
def unlease (w : World) (t : ℕ) : KvOp → World
  | .release key token => w.effect t (.release key token)
  | _ => w

/-- What an operation that is reported as failed leaves. -/
def fault (w : World) (t : ℕ) (op : KvOp) : Outcome → World
  | .lost _ => if op.isWrite then w.effect t op else w.unlease t op
  | .late _ => if op.isWrite then { w with pending := w.pending ++ [op] } else w.unlease t op
  | _ => w.unlease t op

/-- What is remembered of the grants that an operation is about. -/
def note (w : World) (o : Outcome) : KvOp → World → World
  | .prefixAppend (.clientDelegations owner) id, w' =>
    { w' with
      indexed := id :: w.indexed
      unwritten :=
        if o = .ok ∧ id ∉ w.children (.clientDelegations owner) then id :: w.unwritten
        else w.unwritten }
  | .put (.delegation id) _, w' => { w' with unwritten := w.unwritten.filter (· ≠ id) }
  | _, w' => w'

def exec (w : World) (t : ℕ) (o : Outcome) (op : KvOp) : op.Res × World :=
  match o with
  | .ok => (w.answer t op, w.note o op (w.effect t op))
  | .fail e | .lost e | .late e => (op.failed e, w.note o op (w.fault t op o))

/-- A pending write is carried out. -/
def arrive (w : World) (t i : ℕ) : Option World :=
  (w.pending[i]?).map ({ w with pending := w.pending.eraseIdx i }.effect t)

end World

/-- A step of a thread, and the store before and after it. -/
structure Step where
  thread : ℕ
  act : Act
  before : World
  after : World

/-- The store, and the steps so far, the latest first. -/
structure StoreState where
  world : World
  steps : List Step

namespace StoreState

def record (s : StoreState) (t : ℕ) (a : Act) (w : World) : StoreState :=
  ⟨w, ⟨t, a, s.world, w⟩ :: s.steps⟩

def exec (l : Label) (t : ℕ) (s : StoreState) : (a : Act) → Option (a.Res × StoreState)
  | .kv op => some ((s.world.exec t l.outcome op).1,
      s.record t (.kv op) (s.world.exec t l.outcome op).2)
  | .arrive => (s.world.arrive t (l.answer .next)).map fun w => ((), s.record t .arrive w)
  | .begin c => some ((),
      s.record t (.begin c) { s.world with running := (t, c) :: s.world.running })
  | .finish c res => some ((),
      s.record t (.finish c res)
        { s.world with
          running := s.world.running.filter (·.1 ≠ t)
          returned := (c, res) :: s.world.returned })
  | .session a => some (l.answer (.session a), s)
  | .now => some (l.answer .now, s)
  | .ctxErr => some (l.answer .ctxErr, s)
  | .lookupCNAME name => some (l.answer (.lookupCNAME name), s)
  | .next => some (l.answer .next, s)
  | .select => some (l.answer .select, s)

end StoreState

def tunnelStore (g : Given) : Machine tunnelSig StoreState Label where
  exec := StoreState.exec
  body := body g

/-- What the store answered, and the time the clock had shown by then. -/
structure KvAnswer where
  time : ℤ
  op : KvOp
  res : op.Res

/-- The sessions of a server.  A session is known by its place in `sessions`; which connections
have ended, what the store answered, and which thread made a session, is not stored anywhere. -/
structure Registry where
  sessions : List Session
  byAlias : String → Option ℕ
  byConn : List (ℕ × ℕ)
  ended : List ℕ
  clock : ℤ
  shutdown : Bool
  answers : List KvAnswer
  opener : ℕ → ℕ

namespace Registry

def start (clock : ℤ) : Registry where
  sessions := []
  byAlias _ := none
  byConn := []
  ended := []
  clock := clock
  shutdown := false
  answers := []
  opener _ := 0

def modify (r : Registry) (i : ℕ) (f : Session → Session) : Registry :=
  { r with sessions := r.sessions.modify i f }

def connectionDone (r : Registry) (conn : ℕ) : Bool := conn ∈ r.ended

def reserve (r : Registry) (i : ℕ) (s : Session) : Except ReserveError Unit × Registry :=
  if (r.byConn.lookup s.conn).isSome then (.error .attached, r)
  else if r.byConn.length ≥ maxSessions then (.error .full, r)
  else
    -- Failed attempts also occupy this attachment until physical termination.
    let attached := { r with byConn := (s.conn, i) :: r.byConn }
    let admitted := { attached with byAlias := Function.update r.byAlias s.sessionAlias (some i) }
    match (r.byAlias s.sessionAlias).bind (r.sessions[·]?) with
    | none => (.ok (), admitted)
    | some old =>
      if s.mode = .ephemeral ∧ (old.spki ≠ s.spki ∨ old.hostname ≠ s.hostname) then
        (.error .collision, attached)
      else if old.state ≠ .terminal ∧ !r.connectionDone old.conn then
        (.error .stillAttached, attached)
      else (.ok (), admitted)

def remove (r : Registry) (i : ℕ) (s : Session) : Registry :=
  { r with
    byAlias :=
      if r.byAlias s.sessionAlias = some i then Function.update r.byAlias s.sessionAlias none
      else r.byAlias
    byConn :=
      if r.byConn.lookup s.conn = some i then r.byConn.filter (·.1 ≠ s.conn) else r.byConn }

def terminate (s : Session) : Session := { s with state := .terminal }

/-- A critical section that reads the clock, which does not go back. -/
def timed {α : Type} (r : Registry) (time : ℤ) (f : Registry → α × Registry) :
    Option (α × Registry) :=
  if r.clock ≤ time then some (f { r with clock := time }) else none

/-- A critical section of a session.  `err` is whether the context is done, or a stream cannot be
opened; `closed` whether the connection ends as soon as it is closed. -/
def enter (r : Registry) (time : ℤ) (err closed : Bool) (i : ℕ) (s : Session) :
    (a : Section) → Option (a.Res × Registry)
  | .reserve => some (r.reserve i s)
  | .setAuthority hostname grantID owner grantExpiry =>
    some ((), r.modify i fun s => { s with hostname, grantID, owner, grantExpiry })
  | .activate deadline => r.timed time fun r =>
    if s.state ≠ .provisional ∨ r.connectionDone s.conn ∨ err ∨
        (s.mode = .delegated ∧ ¬ time < deadline) then (false, r)
    else (true, r.modify i fun s => { s with state := .active, authorizedUntil := deadline })
  | .terminate => some ((), r.modify i terminate)
  | .closeConn => some ((), if closed then { r with ended := s.conn :: r.ended } else r)
  | .dial hostname => r.timed time fun r =>
    (s.state = .active ∧ s.hostname = hostname ∧ ¬ r.connectionDone s.conn ∧
      (s.mode = .delegated → time < s.authorizedUntil) ∧ ¬ err, r)
  | .inspect start =>
    some (if s.state ≠ .active then .inactive
      else if ¬ start < s.authorizedUntil then .expired else .current s, r)
  | .extend start expiry => r.timed time fun r =>
    let deadline := authorizationDeadline s.certNotAfter start expiry
    ((), if s.state = .active ∧ time < s.authorizedUntil ∧ s.authorizedUntil < deadline then
        r.modify i fun s => { s with authorizedUntil := deadline }
      else r)
  | .expired => r.timed time fun r => (s.state = .active ∧ ¬ time < s.authorizedUntil, r)
  | .isActive => some (s.state = .active, r)
  | .startWorker =>
    if s.state ≠ .active ∨ s.mode ≠ .delegated ∨ r.connectionDone s.conn then some (false, r)
    else some (true, r.modify i fun s => { s with worker := some false })
  | .finishWorker => some ((), r.modify i fun s => { s with worker := some true })
  | .cancelWorker => some ((), r.modify i fun s => { s with cancelled := true })
  | .awaitCancel => if s.cancelled || r.shutdown then some ((), r) else none
  | .awaitWorker => if s.worker = some true then some ((), r) else none
  | .awaitDone => if r.connectionDone s.conn then some ((), r) else none
  | .detach => some (s.worker.isSome, r.modify i terminate)
  | .remove => some ((), r.remove i s)

def exec (l : Label) (t : ℕ) (r : Registry) : (a : Act) → Option (a.Res × Registry)
  | .session (.new s) =>
    some (r.sessions.length, { r with
      sessions := r.sessions ++ [s], opener := Function.update r.opener r.sessions.length t })
  | .session (.lookup sessionAlias) => some (r.byAlias sessionAlias, r)
  | .session (.on i a) =>
    match r.sessions[i]? with
    | none => none
    | some s => r.enter (l.answer .now) (l.answer .ctxErr) (l.answer .select) i s a
  | .session (.disconnect conn) => some ((), { r with ended := conn :: r.ended })
  | .session .shutdown => some ((), { r with shutdown := true })
  | .now => r.timed (l.answer .now) fun r => (r.clock, r)
  | .kv op =>
    some (l.answer (.kv op), { r with answers := ⟨r.clock, op, l.answer (.kv op)⟩ :: r.answers })
  | .ctxErr => some (l.answer .ctxErr, r)
  | .lookupCNAME name => some (l.answer (.lookupCNAME name), r)
  | .next => some (l.answer .next, r)
  | .select => some (l.answer .select, r)
  | .arrive | .begin _ | .finish .. => some ((), r)

end Registry

def tunnelSessions (g : Given) : Machine tunnelSig Registry Label where
  exec := Registry.exec
  body := body g

end Specter.Tunnel
