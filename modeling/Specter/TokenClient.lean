import Specter.Tunnel

/-!
# The token client

A client with a domain token keeps up to three attachments, each at a server of its own, and fills
the slots that are empty in rounds.  A dial answers with a physical connection that may be one the
client already has, since the transport shares them.  Connections are numbers, and end at any time.
Every `OpenDelegatedSession`, every `Close` and every return of `reconcile` is recorded with the
connections in the slots.
-/

namespace Specter.TokenClient

open Lib
open Tunnel (numRedundantLinks)

inductive TwirpCode where
  | badRoute
  | invalidArgument
  | unauthenticated
  | permissionDenied
  | notFound
  | other (code : String)
  deriving DecidableEq, Repr

inductive ClientError where
  /-- `attachmentError`. -/
  | attachment (msg : String)
  | twirp (code : TwirpCode)
  | ctxDone
  | other (msg : String)
  deriving DecidableEq, Repr

def tokenFatal : ClientError → Bool
  | .attachment _ => true
  | .twirp .invalidArgument | .twirp .unauthenticated | .twirp .permissionDenied
  | .twirp .notFound => true
  | _ => false

def unsupported (err : ClientError) : Bool := err = .twirp .badRoute

structure Session where
  hostname : String
  address : String
  apex : String
  deriving DecidableEq, Repr

structure TokenConnection where
  conn : ℕ
  address : String
  deriving DecidableEq, Repr

abbrev Slots := Fin numRedundantLinks → Option TokenConnection

variable (slots : Slots)

def connections : List TokenConnection :=
  (List.finRange numRedundantLinks).filterMap slots

def held : List ℕ := (connections slots).map (·.conn)

def vacancy : Option (Fin numRedundantLinks) :=
  (List.finRange numRedundantLinks).find? fun slot => slots slot = none

def count : ℕ := (connections slots).length

def hasConnection (pc : Option ℕ) (address : String) : Bool :=
  (connections slots).any fun connection => some connection.conn = pc ∨ connection.address = address

inductive TokenEvent where
  | opened (conn : ℕ) (held : List ℕ)
  | closed (conn : ℕ) (held : List ℕ)
  /-- `reconcile` returns, after a round in which `due` have bootstrapped it or been sent an
  `OpenDelegatedSession`. -/
  | returned (due held closed ended : List ℕ)
  deriving DecidableEq, Repr

structure TokenState where
  slots : Slots
  candidates : List String
  backoff : ℤ
  initialSession : Option Session
  ended : List ℕ
  closed : List ℕ
  due : List ℕ
  log : List TokenEvent

inductive TokenAct where
  | ctxErr
  | slots
  /-- The `select` of `prune` for one slot, with `remove`. -/
  | prune (slot : Fin numRedundantLinks)
  | dialAttachment (address : String)
  | openStream (conn : ℕ)
  | getNodes (conn : ℕ)
  | candidates
  | setCandidates (nodes : List String)
  | openDelegatedSession (conn : ℕ) (routeSlot : ℕ)
  | done (conn : ℕ)
  | acceptSession (resp : Session)
  | setSlot (slot : Fin numRedundantLinks) (connection : TokenConnection)
  | close (conn : ℕ)
  | backoff
  | setBackoff (backoff : ℤ)
  | randomTimeRange (backoff : ℤ)
  | bootstraps (conn : ℕ)
  | returns
  deriving DecidableEq, Repr

inductive TokenTask where
  /-- A number of calls of `reconcile`. -/
  | reconciles (n : ℕ)

def tokenSig : Sig where
  Act := TokenAct
  Res
    | .ctxErr | .done _ => Bool
    | .slots => Slots
    | .dialAttachment _ => Except ClientError ℕ
    | .openStream _ => Option ClientError
    | .getNodes _ => Except ClientError (List String)
    | .candidates => List String
    | .openDelegatedSession .. => Except ClientError Session
    | .acceptSession _ => Option ClientError
    | .backoff | .randomTimeRange _ => ℤ
    | .prune _ | .setCandidates _ | .setSlot .. | .close _ | .setBackoff _ | .bootstraps _
    | .returns => Unit
  Task := TokenTask

/-- What the environment decides: which connections end before the step, and how a call comes
out. -/
structure TokenLabel where
  ends : List ℕ
  cancelled : Bool
  dial : Except ClientError ℕ
  stream : Option ClientError
  nodes : Except ClientError (List String)
  session : Except ClientError Session
  /-- The error of printing the URL. -/
  print : Option String
  delay : ℤ

namespace TokenState

def start : TokenState where
  slots := fun _ => none
  candidates := []
  backoff := second
  initialSession := none
  ended := []
  closed := []
  due := []
  log := []

def acceptSession (s : TokenState) (print : Option String) (resp : Session) :
    Option ClientError × TokenState :=
  if resp.hostname = "" ∨ resp.address = "" ∨ resp.apex = "" then
    (some (.other "server returned an empty hostname, identity, or apex"), s)
  else
    match s.initialSession with
    | some session =>
      if session.hostname ≠ resp.hostname then
        (some (.other "recovered tunnel hostname changed"), s)
      else (none, s)
    | none =>
      (print.map fun msg => .attachment ("printing tunnel URL: " ++ msg),
        { s with initialSession := some resp })

def prune (s : TokenState) (slot : Fin numRedundantLinks) : TokenState :=
  match s.slots slot with
  | none => s
  | some connection =>
    if connection.conn ∈ s.ended then { s with slots := Function.update s.slots slot none } else s

def perform (l : TokenLabel) (s : TokenState) : (a : TokenAct) → tokenSig.Res a × TokenState
  | .ctxErr => (l.cancelled, s)
  | .slots => (s.slots, s)
  | .prune slot => ((), s.prune slot)
  | .dialAttachment _ => (l.dial, s)
  | .openStream _ => (l.stream, s)
  | .getNodes _ => (l.nodes, s)
  | .candidates => (s.candidates, s)
  | .setCandidates nodes => ((), { s with candidates := nodes })
  | .openDelegatedSession conn _ =>
    (l.session, { s with due := conn :: s.due, log := .opened conn (held s.slots) :: s.log })
  | .done conn => (decide (conn ∈ s.ended), s)
  | .acceptSession resp => s.acceptSession l.print resp
  | .setSlot slot connection =>
    ((), { s with slots := Function.update s.slots slot (some connection) })
  | .close conn =>
    ((), { s with closed := conn :: s.closed, log := .closed conn (held s.slots) :: s.log })
  | .backoff => (s.backoff, s)
  | .setBackoff backoff => ((), { s with backoff })
  | .randomTimeRange _ => (l.delay, s)
  | .bootstraps conn => ((), { s with due := conn :: s.due })
  | .returns =>
    ((), { s with due := [], log := .returned s.due (held s.slots) s.closed s.ended :: s.log })

def exec (l : TokenLabel) (_t : ℕ) (s : TokenState) (a : TokenAct) :
    Option (tokenSig.Res a × TokenState) :=
  some (perform l { s with ended := l.ends ++ s.ended } a)

end TokenState

abbrev TokenProg := Prog tokenSig

def act (a : TokenAct) : TokenProg (tokenSig.Res a) := Prog.perform (S := tokenSig) a

def pruneSlots : List (Fin numRedundantLinks) → TokenProg Unit
  | [] => return ()
  | slot :: rest => do
    act (.prune slot)
    pruneSlots rest

def prune : TokenProg Unit := pruneSlots (List.finRange numRedundantLinks)

/-- The loop of `discover` over the answer, with what it has kept so far. -/
def discovered : List String → List String → List String
  | [], nodes => nodes
  | address :: rest, nodes =>
    if address = "" ∨ address ∈ nodes then discovered rest nodes
    else if (nodes ++ [address]).length = numRedundantLinks then nodes ++ [address]
    else discovered rest (nodes ++ [address])

def discover (pc : ℕ) : TokenProg (Option ClientError) := do
  let res : Except ClientError (List String) ← act (.getNodes pc)
  match res with
  | .error e => return some e
  | .ok nodes =>
    act (.setCandidates (discovered nodes []))
    return none

/-- The loop that asks the attached servers until one answers. -/
def discoverFrom : List TokenConnection → TokenProg Unit
  | [] => return ()
  | connection :: rest => do
    let err : Option ClientError ← act (.openStream connection.conn)
    match err with
    | some _ => discoverFrom rest
    | none =>
      match ← discover connection.conn with
      | some _ => discoverFrom rest
      | none => return ()

def openSlot (pc : ℕ) (slot : Fin numRedundantLinks) : TokenProg (Option ClientError) := do
  let res : Except ClientError Session ← act (.openDelegatedSession pc (slot + 1))
  match res with
  | .error e => return some e
  | .ok resp =>
    prune
    let slots : Slots ← act .slots
    if hasConnection slots none resp.address then return some (.other "server is already attached")
    else
      let cancelled : Bool ← act .ctxErr
      if cancelled then return some .ctxDone
      else
        let ended : Bool ← act (.done pc)
        if ended then return some (.other "connection ended during activation")
        else
          let err : Option ClientError ← act (.acceptSession resp)
          match err with
          | some e => return some e
          | none =>
            act (.setSlot slot ⟨pc, resp.address⟩)
            return none

def dialAttachment (address : String) : TokenProg (Except ClientError ℕ) :=
  act (.dialAttachment address)

section Reconcile

variable (apex : String) (bootstrap : Option ℕ)

/-- A stream to the candidate, and the connection it is on. -/
def dialCandidate (address : String) : TokenProg (Except ClientError ℕ) :=
  match bootstrap with
  | none => dialAttachment address
  | some pc =>
    if address = apex then do
      let err : Option ClientError ← act (.openStream pc)
      match err with
      | some e => return .error e
      | none => return .ok pc
    else dialAttachment address

/-- One candidate.  The answer is whether it does not support lightweight tunnels, or the error
`reconcile` returns. -/
def attempt (slot : Fin numRedundantLinks) (address : String) :
    TokenProg (Except ClientError Bool) := do
  match ← dialCandidate apex bootstrap address with
  | .error e => if tokenFatal e then return .error e else return .ok false
  | .ok pc =>
    let slots : Slots ← act .slots
    if hasConnection slots (some pc) "" then return .ok false
    else
      match ← openSlot pc slot with
      | none => return .ok false
      | some e =>
        act (.close pc)
        if tokenFatal e then return .error e else return .ok (unsupported e)

structure Round where
  tried : List String
  attempts : ℕ
  unsupportedCount : ℕ

def attemptAll (bootstrap : Option ℕ) : List String → Round → TokenProg (Except ClientError Round)
  | [], round => return .ok round
  | address :: rest, round => do
    let cancelled : Bool ← act .ctxErr
    if cancelled then return .error .ctxDone
    else
      prune
      let slots : Slots ← act .slots
      match vacancy slots with
      | none => return .ok round
      | some slot =>
        if address ∈ round.tried ∨ hasConnection slots none address then
          attemptAll bootstrap rest round
        else
          match ← attempt apex bootstrap slot address with
          | .error e => return .error e
          | .ok refused =>
            attemptAll bootstrap rest
              ⟨address :: round.tried, round.attempts + 1,
                if refused then round.unsupportedCount + 1 else round.unsupportedCount⟩

def conclude (round : Round) : TokenProg (Except ClientError ℤ) := do
  prune
  let slots : Slots ← act .slots
  if count slots > 0 then
    act (.setBackoff second)
    return .ok 0
  else if round.attempts > 0 ∧ round.attempts = round.unsupportedCount then
    return .error (.other "servers do not support lightweight tunnels")
  else
    let backoff : ℤ ← act .backoff
    let delay : ℤ ← act (.randomTimeRange backoff)
    act (.setBackoff (min (2 * backoff) (30 * second)))
    return .ok delay

def connect (round : Round) : TokenProg (Except ClientError ℤ) := do
  let candidates : List String ← act .candidates
  let candidates :=
    if bootstrap.isSome then apex :: (candidates ++ [apex]) else candidates ++ [apex]
  match ← attemptAll apex bootstrap candidates round with
  | .error e => return .error e
  | .ok round => conclude round

/-- The deferred call of a round with a bootstrap connection. -/
def closeUnused (pc : ℕ) : TokenProg Unit := do
  let slots : Slots ← act .slots
  if hasConnection slots (some pc) "" then return ()
  else
    act (.close pc)
    return ()

def fillSlots : TokenProg (Except ClientError ℤ) := do
  prune
  let slots : Slots ← act .slots
  match vacancy slots with
  | none => return .ok 0
  | some _ =>
    if count slots = 0 then
      match ← dialAttachment apex with
      | .error e => if tokenFatal e then return .error e else connect apex none ⟨[apex], 1, 0⟩
      | .ok pc =>
        act (.bootstraps pc)
        let _ ← discover pc
        let res ← connect apex (some pc) ⟨[], 0, 0⟩
        closeUnused pc
        return res
    else
      discoverFrom (connections slots)
      connect apex none ⟨[], 0, 0⟩

def reconcile : TokenProg (Except ClientError ℤ) := do
  let res ← fillSlots apex
  act .returns
  return res

def reconciles : ℕ → TokenProg Unit
  | 0 => return ()
  | n + 1 => do
    let _ ← reconcile apex
    reconciles n

/-- The client, with the address of its apex. -/
def tokenClient : Machine tokenSig TokenState TokenLabel where
  exec := TokenState.exec
  body | .reconciles n => reconciles apex n

end Reconcile

end Specter.TokenClient
