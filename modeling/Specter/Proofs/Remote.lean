import Specter.Remote
import Specter.Proofs.Kv
import Specter.Proofs.Memory
import Specter.Proofs.Tracker
import Specter.Proofs.Wire

/-!
# Whether a remote node is transparent

Over RPC an empty value arrives as no value.  So a call on a remote node does what it does on the
node itself, unless the node serves it from its own storage and the storage can tell the two apart.
-/

namespace Specter

open Protobuf

variable (c : KVCall) {reply : Reply} {hashFn : Bytes → ℕ} {m : MemoryKV hashFn} {r : Request}
  {V : Type}

namespace KVCall

/-- The call fits the machine's types, and an import has a value for every key. -/
def Fits : KVCall → Prop
  | .request (.acquire _ ttl _) | .request (.renew _ ttl _ _) => -2 ^ 63 ≤ ttl ∧ ttl < 2 ^ 63
  | .request _ => True
  | .importKeys keys values => keys.length ≤ values.length ∧ ∀ x ∈ values, x.Fits

def arriving : KVCall → KVCall
  | .request (.put key value) => .request (.put key (Specter.arriving value))
  | c => c

def answer : KVCall → Reply → Reply
  | .request (.get _), reply => .value (Specter.arriving reply.getValue)
  | .request (.prefixList _), reply => .children reply.getChildren
  | .request (.prefixContains _ _), reply => .contains reply.getContains
  | .request (.acquire _ _ _), reply | .request (.renew _ _ _ _), reply => .token reply.getToken
  | _, _ => .done

theorem arriving_arriving : c.arriving.arriving = c.arriving := by
  rcases c with (_ | _ | _ | _ | _ | _ | _ | _ | _ | _) | _
  · simp [arriving, Specter.arriving_arriving]
  all_goals rfl

theorem answer_arriving : c.arriving.answer = c.answer := by
  rcases c with (_ | _ | _ | _ | _ | _ | _ | _ | _ | _) | _ <;> rfl

theorem Fits.arriving {c : KVCall} (h : c.Fits) : c.arriving.Fits := by
  rcases c with (_ | _ | _ | _ | _ | _ | _ | _ | _ | _) | _
  · trivial
  all_goals exact h

theorem answer_answer (reply : Reply) : c.answer (c.answer reply) = c.answer reply := by
  rcases c with (_ | _ | _ | _ | _ | _ | _ | _ | _ | _) | _
  · rfl
  · simp [answer, Reply.getValue, Specter.arriving_arriving]
  all_goals rfl

end KVCall

section Errors

variable (foreign : String) (e : ChordError)

def carriedError (e : ChordError) : ChordError := (errorStrMap (e.msg foreign)).getD .other

variable {foreign}

theorem lookup_bind_errorStrMap : (errorDefs.lookup e).bind errorStrMap = e.chord := by
  cases e <;> decide +kernel

theorem chord_getD : (e.chord.getD .other).chord = e.chord := by
  cases e <;> rfl

theorem chord_carriedError (hforeign : errorStrMap foreign = none) (e : ChordError) :
    (carriedError foreign e).chord = e.chord := by
  have htext := lookup_bind_errorStrMap e
  unfold carriedError ChordError.msg
  rcases hl : errorDefs.lookup e with _ | text <;> rw [hl] at htext
  · have hnone : errorStrMap "context deadline exceeded" = none := by decide +kernel
    rw [← htext, apply_ite errorStrMap, hnone, hforeign, ite_self]
    rfl
  · rw [← chord_getD e, ← htext]
    rfl

end Errors

variable {W : Type} {foreign : String}

theorem mapped_rpc {Req Resp : Type} [Message Req] [Message Resp] {kv : KV W}
    (serve : Req → W → Except TwirpError Resp × W) {req req' : Req} {call : KVCall}
    {wrap : ChordError → TwirpError} {resp : Reply → Resp} {arrive : Resp → Resp}
    (hreq : overWire req = some req') (hserve : serve req' = Server.answer kv wrap call resp)
    (hwrap : ∀ e, (wrap e).msg = e.msg foreign) (hresp : ∀ m, overWire m = some (arrive m))
    (reply : Resp → Reply) (w : W) :
    RemoteNode.mapped reply (rpc serve req w) =
      (match (kv call w).1 with
        | .error e => .error (carriedError foreign e)
        | .ok r => .ok (reply (arrive (resp r))), (kv call w).2) := by
  unfold rpc
  rw [hreq]
  simp only [hserve, Server.answer]
  rcases (kv call w).1 with e | r
  · simp [RemoteNode.mapped, errorMapper, hwrap, carriedError]
  · simp [RemoteNode.mapped, hresp]

def KVCall.returned (foreign : String) (c : KVCall) (res : Except ChordError Reply) :
    Except ChordError Reply :=
  match res with
  | .error e => .error (carriedError foreign e)
  | .ok reply => .ok (c.answer reply)

theorem RemoteNode.call_eq (kv : KV W) {c : KVCall} (hc : c.Fits) (w : W) :
    RemoteNode.call foreign kv c w =
      (c.returned foreign (kv c.arriving w).1, (kv c.arriving w).2) := by
  rcases c with (⟨key, value⟩ | key | key | ⟨pfx, child⟩ | pfx | ⟨pfx, child⟩ | ⟨pfx, child⟩ |
    ⟨lease, ttl, now⟩ | ⟨lease, ttl, now, prevToken⟩ | ⟨lease, token⟩) | ⟨keys, values⟩
  case request.put =>
    exact mapped_rpc (Server.put foreign kv) (overWire_simpleRequest ⟨key, value⟩) rfl
      (fun _ => rfl) overWire_simpleResponse (fun _ => .done) w
  case request.get =>
    exact mapped_rpc (Server.get foreign kv) (overWire_simpleRequest ⟨key, none⟩) rfl
      (fun _ => rfl) overWire_simpleResponse (fun resp => .value resp.value) w
  case request.delete =>
    exact mapped_rpc (Server.delete foreign kv) (overWire_simpleRequest ⟨key, none⟩) rfl
      (fun _ => rfl) overWire_simpleResponse (fun _ => .done) w
  case request.prefixAppend =>
    exact mapped_rpc (Server.append foreign kv) (overWire_prefixRequest ⟨pfx, child⟩) rfl
      (fun _ => rfl) overWire_prefixResponse (fun _ => .done) w
  case request.prefixList =>
    exact mapped_rpc (Server.list foreign kv) (overWire_prefixRequest ⟨pfx, []⟩) rfl
      (fun _ => rfl) overWire_prefixResponse (fun resp => .children resp.children) w
  case request.prefixContains =>
    exact mapped_rpc (Server.contains foreign kv) (overWire_prefixRequest ⟨pfx, child⟩) rfl
      (fun _ => rfl) overWire_prefixResponse (fun resp => .contains resp.exist) w
  case request.prefixRemove =>
    exact mapped_rpc (Server.remove foreign kv) (overWire_prefixRequest ⟨pfx, child⟩) rfl
      (fun _ => rfl) overWire_prefixResponse (fun _ => .done) w
  case request.acquire =>
    have hreq := overWire_leaseRequest (m := ⟨lease, 0, 0, some (.new ttl)⟩) fun d hd => by
      cases hd
      exact overWire_new hc
    have hout := mapped_rpc (Server.acquire foreign kv now) hreq rfl
      (fun _ => rfl) overWire_leaseResponse (fun resp => .token resp.token) w
    simp only [Server.ttl, Option.map_some, Option.getD_some, Duration.asDuration_new hc] at hout
    exact hout
  case request.renew =>
    have hreq := overWire_leaseRequest (m := ⟨lease, 0, prevToken, some (.new ttl)⟩)
      fun d hd => by
        cases hd
        exact overWire_new hc
    have hout := mapped_rpc (Server.renew foreign kv now) hreq rfl
      (fun _ => rfl) overWire_leaseResponse (fun resp => .token resp.token) w
    simp only [Server.ttl, Option.map_some, Option.getD_some, Duration.asDuration_new hc] at hout
    exact hout
  case request.release =>
    have hreq := overWire_leaseRequest (m := ⟨lease, 0, token, none⟩) fun d hd => by cases hd
    exact mapped_rpc (Server.release foreign kv) hreq rfl (fun _ => rfl) overWire_leaseResponse
      (fun _ => .done) w
  case importKeys =>
    exact mapped_rpc (Server.importKeys foreign kv)
      (ImportRequest.readFields_fields (m := ⟨keys, values⟩) hc.2) rfl (fun _ => rfl)
      (fun _ => rfl) (fun _ => .done) w

/-- The same result, the same effect, and the same chord error. -/
def SameOutcome (a b : Except ChordError Reply × W) : Prop :=
  a.1.mapError ChordError.chord = b.1.mapError ChordError.chord ∧ a.2 = b.2

inductive Route where
  | fail (e : ChordError)
  | forward (n : NodeId)
  | serve
  deriving DecidableEq, Repr

namespace LocalNode

variable (n : LocalNode W) {kv : KV W} {c : KVCall} {w : W}

def route : KVCall → Route
  | .request r =>
    match n.findSuccessor (n.hash r.key) with
    | .error .nodeGone => .fail .kvStaleOwnership
    | .error e => .fail e
    | .ok succ =>
      if succ ≠ n.id then .forward succ
      else if n.state ≠ .active then .fail .kvStaleOwnership
      else
        match target n.id n.surrogate n.predecessor (n.hash r.key) with
        | .surrogate x => .forward x
        | .stale => .fail .kvStaleOwnership
        | .localStore => .serve
  | .importKeys _ _ =>
    match n.state with
    | .inactive | .leaving | .left => .fail .nodeGone
    | _ => .serve

theorem route_arriving (c : KVCall) : n.route c.arriving = n.route c := by
  rcases c with (_ | _ | _ | _ | _ | _ | _ | _ | _ | _) | _ <;> rfl

theorem call_eq (kv : KV W) (c : KVCall) (w : W) : n.call foreign kv c w =
    match n.route c with
    | .fail e => (.error e, w)
    | .forward x => RemoteNode.call foreign (n.peer x) c w
    | .serve => kv c w := by
  rcases c with r | ⟨keys, values⟩
  · simp only [call, request, route]
    rcases n.findSuccessor (n.hash r.key) with e | succ
    · cases e <;> rfl
    simp only
    split_ifs
    · rfl
    · rfl
    · rcases target n.id n.surrogate n.predecessor (n.hash r.key) with _ | _ | _ <;> rfl
  · simp only [call, route]
    cases n.state <;> rfl

theorem sameOutcome_of_route (hforeign : errorStrMap foreign = none) (hc : c.Fits)
    (hr : n.route c ≠ .serve) :
    SameOutcome (RemoteNode.call foreign (n.call foreign kv) c w) (n.call foreign kv c w) := by
  rw [RemoteNode.call_eq _ hc, call_eq, call_eq, route_arriving]
  rcases hroute : n.route c with e | x | _ <;> simp only
  · exact ⟨congrArg Except.error (chord_carriedError hforeign e), rfl⟩
  · rw [RemoteNode.call_eq _ hc, RemoteNode.call_eq _ hc.arriving, KVCall.arriving_arriving]
    refine ⟨?_, rfl⟩
    unfold KVCall.returned
    rcases (n.peer x c.arriving w).1 with e | reply <;> simp only
    · exact congrArg Except.error (chord_carriedError hforeign _)
    · rw [KVCall.answer_arriving, KVCall.answer_answer]
  · exact absurd hroute hr

theorem sameOutcome_serve (hforeign : errorStrMap foreign = none) (hc : c.Fits)
    (hr : n.route c = .serve) :
    SameOutcome (RemoteNode.call foreign (n.call foreign kv) c w) (n.call foreign kv c w) ↔
      SameOutcome ((kv c.arriving w).1.map c.answer, (kv c.arriving w).2) (kv c w) := by
  have hmap : (c.returned foreign (kv c.arriving w).1).mapError ChordError.chord =
      ((kv c.arriving w).1.map c.answer).mapError ChordError.chord := by
    unfold KVCall.returned
    rcases (kv c.arriving w).1 with e | reply
    · exact congrArg Except.error (chord_carriedError hforeign e)
    · rfl
  rw [RemoteNode.call_eq _ hc, call_eq, call_eq, route_arriving, hr]
  unfold SameOutcome
  simp only [hmap]

end LocalNode

/-- The storage cannot tell what arrives from what was sent: an empty value that is put, if `puts`,
or an empty value that is read. -/
def EmptyLost (puts : Bool) (val : Bytes → KvValue) : KVCall → Prop
  | .request (.put _ value) => puts = true ∧ value = some []
  | .request (.get key) => (val key).simple = some []
  | _ => False

def Reply.Suits : Request → Reply → Prop
  | .get _, reply => ∃ v, reply = .value v
  | r, reply => (KVCall.request r).answer reply = reply

theorem KvValue.suits (v : KvValue) (h : (v.handle r).1 = .ok reply) : reply.Suits r := by
  cases r with
  | acquire key ttl now =>
    rcases v.acquire_cases ttl now with ⟨e, he⟩ | ⟨td, next, -, -, -, he⟩ <;>
      rw [handle, he] at h <;> cases h
    rfl
  | renew key ttl now prevToken =>
    rcases v.renew_cases ttl now prevToken with ⟨e, he⟩ | ⟨td, next, -, -, -, -, -, he⟩ <;>
      rw [handle, he] at h <;> cases h
    rfl
  | release key token =>
    rcases v.release_cases token with ⟨e, he⟩ | ⟨-, he⟩ <;> rw [handle, he] at h
    · cases h
    · cases h
      rfl
  | prefixAppend key child =>
    simp only [handle] at h
    split_ifs at h
    cases h
    rfl
  | get key =>
    cases h
    exact ⟨_, rfl⟩
  | put | delete | prefixList | prefixContains | prefixRemove =>
    cases h
    rfl

theorem MemoryKV.suits (h : (m.handle r).1 = .ok reply) : reply.Suits r := by
  rw [(m.handle_spec r).1] at h
  exact (m.val r.key).suits h

namespace Tables

variable {hashFn : Bytes → ℕ} {fault : Bool} {t : Tables} {key : Bytes} {e : ChordError} {r : Reply}
  {t' : Tables}

theorem withWriteTx_reply {α : Type} {fn : Tables → Except ChordError (α × Tables)} {a : α}
    (h : (t.withWriteTx fault fn).1 = .ok a) : ∃ t', fn t = .ok (a, t') := by
  unfold withWriteTx at h
  split_ifs at h
  rcases hfn : fn t with e | ⟨b, t'⟩ <;> rw [hfn] at h <;> cases h
  exact ⟨t', rfl⟩

theorem reply_of_update {u : Tables} {addFlags removeFlags : BitVec 8}
    (h : (do let t ← u.updateKeyTracker hashFn key addFlags removeFlags; return (reply, t)) =
      (.ok (r, t') : Except ChordError (Reply × Tables))) : r = reply := by
  rcases hu : u.updateKeyTracker hashFn key addFlags removeFlags with e | t₂ <;> rw [hu] at h <;>
    cases h
  rfl

theorem reply_of_affected {u : Tables} {addFlags removeFlags : BitVec 8} {n : ℕ} (h : (do
      if n = 0 then throw e
      let t ← u.updateKeyTracker hashFn key addFlags removeFlags
      return (reply, t)) = (.ok (r, t') : Except ChordError (Reply × Tables))) : r = reply := by
  by_cases hn : n = 0
  · simp only [hn, if_true] at h
    cases h
  · simp only [hn, if_false] at h
    exact reply_of_update h

theorem reply_of_grant {u : ℕ → ℕ × Tables} {now td : ℤ} {previous : ℕ} (h : (do
      let next ← nextToken now td previous
      if (u next).1 = 0 then throw e
      let t ← (u next).2.updateKeyTracker hashFn key leaseFlag 0
      return (.token next, t)) = (.ok (r, t') : Except ChordError (Reply × Tables))) :
    ∃ next, r = .token next := by
  rcases hn : nextToken now td previous with e | next <;> rw [hn] at h
  · cases h
  · exact ⟨next, reply_of_affected h⟩

theorem suits (hashFn : Bytes → ℕ) (fault : Bool) (t : Tables) (r : Request)
    (h : (t.handle hashFn fault r).1 = .ok reply) : reply.Suits r := by
  cases r with
  | put key value =>
    obtain ⟨t', ht'⟩ := withWriteTx_reply h
    rw [reply_of_update ht']
    rfl
  | delete key =>
    obtain ⟨t', ht'⟩ := withWriteTx_reply h
    rw [reply_of_update ht']
    rfl
  | prefixRemove key child =>
    obtain ⟨t', ht'⟩ := withWriteTx_reply h
    rw [reply_of_update ht']
    rfl
  | get key =>
    cases h
    exact ⟨_, rfl⟩
  | prefixList key =>
    cases h
    rfl
  | prefixContains key child =>
    cases h
    rfl
  | prefixAppend key child =>
    obtain ⟨t', ht'⟩ := withWriteTx_reply h
    rw [reply_of_affected ht']
    rfl
  | release key token =>
    obtain ⟨t', ht'⟩ := withWriteTx_reply h
    rw [reply_of_affected ht']
    rfl
  | acquire key ttl now =>
    change (t.acquire hashFn fault key ttl now).1 = _ at h
    unfold acquire at h
    rcases hd : durationGuard ttl with _ | td <;> rw [hd] at h
    · cases h
    obtain ⟨t', ht'⟩ := withWriteTx_reply h
    obtain ⟨next, rfl⟩ := reply_of_grant
      (u := fun next => t.queryLeaseAcquire key (bindUint64AsInt64 next) now) ht'
    rfl
  | renew key ttl now prevToken =>
    change (t.renew hashFn fault key ttl now prevToken).1 = _ at h
    unfold renew at h
    rcases hd : durationGuard ttl with _ | td <;> rw [hd] at h
    · cases h
    obtain ⟨t', ht'⟩ := withWriteTx_reply h
    obtain ⟨next, rfl⟩ := reply_of_grant
      (u := fun next => t.queryLeaseRenew (bindUint64AsInt64 next) key
        (bindUint64AsInt64 prevToken) now) ht'
    rfl

end Tables

theorem sameOutcome_answer {kv : KV W} {w : W}
    (hsuits : ∀ reply, (kv (.request r) w).1 = .ok reply → reply.Suits r) :
    SameOutcome ((kv (.request r) w).1.map (KVCall.request r).answer, (kv (.request r) w).2)
        (kv (.request r) w) ↔
      ∀ key, r = .get key → (kv (.request r) w).1 ≠ .ok (.value (some [])) := by
  unfold SameOutcome
  rcases hres : (kv (.request r) w).1 with e | reply
  · exact iff_of_true ⟨rfl, rfl⟩ nofun
  have hreply := hsuits reply hres
  simp only [and_true]
  change (Except.ok ((KVCall.request r).answer reply) : Except (Option ChordError) Reply) =
    .ok reply ↔ _
  rw [Except.ok.injEq]
  by_cases hget : ∃ key, r = .get key
  · obtain ⟨key, rfl⟩ := hget
    obtain ⟨v, rfl⟩ := hreply
    simp [KVCall.answer, Reply.getValue, arriving_eq_self]
  · refine iff_of_true ?_ fun key h => absurd ⟨key, h⟩ hget
    cases r with
    | get key => exact absurd ⟨key, rfl⟩ hget
    | _ => exact hreply

theorem MemoryKV.sameOutcome_iff {v : V} :
    SameOutcome ((MemoryKV.kv c.arriving (m, v)).1.map c.answer,
        (MemoryKV.kv c.arriving (m, v)).2) (MemoryKV.kv c (m, v)) ↔ ¬ EmptyLost true m.val c := by
  have hsuits : ∀ r reply, (MemoryKV.kv (.request r) (m, v)).1 = .ok reply → reply.Suits r :=
    fun _ _ h => MemoryKV.suits (m := m) h
  rcases c with r | ⟨keys, values⟩
  swap
  · exact iff_of_true ⟨rfl, rfl⟩ id
  cases r with
  | put key value =>
    simp only [EmptyLost, true_and]
    constructor
    · rintro ⟨-, heq⟩ rfl
      have hval := congrArg (fun w : MemoryKV hashFn × V => (w.1.val key).simple) heq
      simp [KVCall.arriving, MemoryKV.kv, MemoryKV.handle, val_put, arriving] at hval
    · intro h
      rw [KVCall.arriving, arriving_eq_self.2 h]
      exact ⟨rfl, rfl⟩
  | get key =>
    refine (sameOutcome_answer (hsuits _)).trans ?_
    simp [EmptyLost, MemoryKV.kv, MemoryKV.handle, get_eq]
  | _ => exact (sameOutcome_answer (hsuits _)).trans (iff_of_true (by simp) id)

theorem Tables.sameOutcome_iff {fault : Bool} {t : Tables} {v : V} :
    SameOutcome ((Tables.kv hashFn fault c.arriving (t, v)).1.map c.answer,
        (Tables.kv hashFn fault c.arriving (t, v)).2) (Tables.kv hashFn fault c (t, v)) ↔
      ¬ EmptyLost false t.val c := by
  have hsuits : ∀ r reply, (Tables.kv hashFn fault (.request r) (t, v)).1 = .ok reply →
      reply.Suits r := fun r _ h => Tables.suits hashFn fault t r h
  rcases c with r | ⟨keys, values⟩
  swap
  · refine iff_of_true ⟨?_, rfl⟩ id
    simp only [KVCall.arriving, Tables.kv]
    rcases (t.importKeys hashFn fault keys (values.map some)).1 with e | _ <;> rfl
  cases r with
  | put key value =>
    have hput : Tables.kv hashFn fault (.request (.put key (arriving value))) (t, v) =
        Tables.kv hashFn fault (.request (.put key value)) (t, v) := by
      rcases value with _ | _ | _ <;> rfl
    rw [KVCall.arriving, hput]
    exact (sameOutcome_answer (hsuits _)).trans (iff_of_true (by simp) (by simp [EmptyLost]))
  | get key =>
    refine (sameOutcome_answer (hsuits _)).trans ?_
    simp [EmptyLost, Tables.kv, Tables.handle, Tables.get, val]
  | _ => exact (sameOutcome_answer (hsuits _)).trans (iff_of_true (by simp) id)

/-- A call through `RemoteNode` and the server of a node has the outcome of the call on the node
itself, except where the node serves it from its own storage and an empty value is lost. -/
theorem remote_transparent_iff {hashFn : Bytes → ℕ} {V : Type} {foreign : String}
    (hforeign : errorStrMap foreign = none) {c : KVCall} (hc : c.Fits) :
    (∀ (n : LocalNode (MemoryKV hashFn × V)) (w : MemoryKV hashFn × V),
      SameOutcome (RemoteNode.call foreign (n.call foreign MemoryKV.kv) c w)
          (n.call foreign MemoryKV.kv c w) ↔
        ¬ (n.route c = .serve ∧ EmptyLost true w.1.val c)) ∧
    ∀ (n : LocalNode (Tables × V)) (w : Tables × V) (fault : Bool),
      SameOutcome (RemoteNode.call foreign (n.call foreign (Tables.kv hashFn fault)) c w)
          (n.call foreign (Tables.kv hashFn fault) c w) ↔
        ¬ (n.route c = .serve ∧ EmptyLost false w.1.val c) := by
  refine ⟨fun n w => ?_, fun n w fault => ?_⟩
  · by_cases hr : n.route c = .serve
    · rw [n.sameOutcome_serve hforeign hc hr, MemoryKV.sameOutcome_iff]
      simp [hr]
    · exact iff_of_true (n.sameOutcome_of_route hforeign hc hr) fun h => hr h.1
  · by_cases hr : n.route c = .serve
    · rw [n.sameOutcome_serve hforeign hc hr, Tables.sameOutcome_iff]
      simp [hr]
    · exact iff_of_true (n.sameOutcome_of_route hforeign hc hr) fun h => hr h.1

def loneNode (W : Type) : LocalNode W where
  id := 5
  state := .active
  surrogate := none
  predecessor := none
  hash _ := 0
  findSuccessor _ := .ok 5
  peer _ _ w := (.error .other, w)

theorem remote_transparent_put :
    SameOutcome
      (RemoteNode.call "database is locked"
        ((loneNode (MemoryKV (fun _ => 0) × Unit)).call "database is locked" MemoryKV.kv)
        (.request (.put [1] (some [2]))) (.withHashFn _, ()))
      ((loneNode (MemoryKV (fun _ => 0) × Unit)).call "database is locked" MemoryKV.kv
        (.request (.put [1] (some [2]))) (.withHashFn _, ())) :=
  ((remote_transparent_iff (by decide +kernel) (by trivial)).1 _ _).2 (by simp [EmptyLost])

/-- Over RPC, putting an empty value into memory puts none, and reading an empty value from either
storage reads none. -/
theorem remote_loses_empty_value :
    (¬ SameOutcome
      (RemoteNode.call "" ((loneNode (MemoryKV (fun _ => 0) × Unit)).call "" MemoryKV.kv)
        (.request (.put [1] (some []))) (.withHashFn _, ()))
      ((loneNode (MemoryKV (fun _ => 0) × Unit)).call "" MemoryKV.kv
        (.request (.put [1] (some []))) (.withHashFn _, ()))) ∧
    (¬ SameOutcome
      (RemoteNode.call "" ((loneNode (MemoryKV (fun _ => 0) × Unit)).call "" MemoryKV.kv)
        (.request (.get [1])) ((MemoryKV.withHashFn _).put [1] (some []), ()))
      ((loneNode (MemoryKV (fun _ => 0) × Unit)).call "" MemoryKV.kv
        (.request (.get [1])) ((MemoryKV.withHashFn _).put [1] (some []), ()))) ∧
    ¬ SameOutcome
      (RemoteNode.call "" ((loneNode (Tables × Unit)).call "" (Tables.kv (fun _ => 0) false))
        (.request (.get [1])) ((Tables.empty.put (fun _ => 0) false [1] (some [])).2, ()))
      ((loneNode (Tables × Unit)).call "" (Tables.kv (fun _ => 0) false)
        (.request (.get [1])) ((Tables.empty.put (fun _ => 0) false [1] (some [])).2, ())) := by
  refine ⟨fun h => ?_, fun h => ?_, fun h => ?_⟩
  · have hval := congrArg (fun w => (w.1.val [1]).simple) h.2
    revert hval
    decide +kernel
  · have hres := h.1
    revert hres
    decide +kernel
  · have hres := h.1
    revert hres
    decide +kernel

end Specter
