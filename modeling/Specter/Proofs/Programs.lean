import Specter.Proofs.Actions
import Specter.Lib.Rely

/-!
# What the programs are made of

Lookups only read, and maintenance writes nothing but pointers.  The programs that also do something
else are put together from their parts here, once for all properties.
-/

namespace Specter

open Lib (Prog Rules)

variable {α : Type}

def Act.isReading : Act → Bool
  | .loadState _ | .getPredecessor _ | .getSurrogate _ | .getSuccessors _ | .loadSuccListHash _
  | .getFinger .. | .readStop _ | .halt => true
  | _ => false

/-- Reads, and writes of the successors and fingers that lookups at `n` go by. -/
def Act.isRouting (n : NodeId) : Act → Bool
  | .setSuccessors m _ | .setFinger m _ _ => m = n
  | a => a.isReading

/-- What handling a RequestToJoin call does besides. -/
def Act.isHandling : Act → Bool
  | .casState _ _ _ _ site => site = .requestToJoin
  | .lock .. | .unlock .. | .readPredecessor _ | .rangeKeys .. | .exportKeys .. | .importKeys ..
  | .removeKeys .. | .writeSurrogate .. | .commitJoin .. | .newSlot | .reply .. | .await _ => true
  | a => a.isReading

def Task.isPeriodic : Task → Bool
  | .periodicStabilize _ | .periodicPredecessorCheck _ | .periodicFixFingers _ => true
  | _ => false

def Task.node : Task → NodeId
  | .create n | .join n _ | .leave n | .periodicStabilize n | .periodicPredecessorCheck n
  | .periodicFixFingers n | .request n _ | .joinLossy n _ | .handleJoin _ n _ => n

section Reading

variable {φ : Act → Prop} {ψ : Task → Prop} (h : ∀ a, a.isReading = true → φ a) {n : NodeId}

include h

theorem only_halt : (halt : Chord α).Only φ ψ := ⟨h _ rfl, fun r => r.elim⟩

theorem only_checkNodeState (n : NodeId) (b : Bool) : (checkNodeState n b).Only φ ψ :=
  .act (h _ rfl) fun _ => trivial

theorem only_transition {how : How} {site : Site} (hc : ∀ old new, φ (.casState n old new how site))
    (exp nxt : State) : (transition n exp nxt how site).Only φ ψ :=
  .act (h _ rfl) fun _ => .perform (hc _ _)

theorem only_setState {n : NodeId} {site : Site}
    (hc : ∀ old new, φ (.casState n old new .set site)) (val : State) : ∀ rounds,
    (setState rounds n val site).Only φ ψ
  | 0 => only_halt h
  | rounds + 1 => by
    refine .act (h _ rfl) fun (_ : StateWord) => ?_
    refine .bind (only_transition h hc _ _) fun b => ?_
    split_ifs
    · trivial
    · exact only_setState hc val rounds

theorem only_getPredecessor (n : NodeId) : (getPredecessor n).Only φ ψ :=
  .perform (h _ rfl)

theorem only_getSuccessors (n : NodeId) : (getSuccessors n).Only φ ψ :=
  .perform (h _ rfl)

theorem only_getSuccessor (n : NodeId) : (getSuccessor n).Only φ ψ :=
  .bind (only_getSuccessors h n) fun _ => trivial

theorem only_closestPrecedingNode (n : NodeId) (key : ℕ) : ∀ k,
    (closestPrecedingNode n key k).Only φ ψ
  | 0 => trivial
  | k + 1 => by
    refine .act (h _ rfl) fun (f : Option NodeId) => ?_
    split
    · split_ifs
      · trivial
      · exact only_closestPrecedingNode n key k
    · exact only_closestPrecedingNode n key k

theorem only_lookupStep (n : NodeId) (key : ℕ) : (lookupStep n key).Only φ ψ := by
  refine .bind (only_checkNodeState h n false) fun e => ?_
  split
  · trivial
  refine .bind (only_getPredecessor h n) fun pre => ?_
  split_ifs
  · trivial
  refine .bind (only_getSuccessor h n) fun succ => ?_
  split
  · trivial
  split_ifs
  · trivial
  exact .bind (only_closestPrecedingNode h n key _) fun _ => trivial

theorem only_findSuccessor : ∀ (fuel : ℕ) (n : NodeId) (key : ℕ),
    (findSuccessor fuel n key).Only φ ψ
  | 0, _, _ => only_halt h
  | fuel + 1, n, key => by
    refine .bind (only_lookupStep h n key) fun hop => ?_
    split
    · trivial
    · trivial
    · exact only_findSuccessor fuel _ key

theorem only_getPredecessorRPC (n : NodeId) : (getPredecessorRPC n).Only φ ψ := by
  refine .bind (only_checkNodeState h n false) fun e => ?_
  split
  · trivial
  · exact .bind (only_getPredecessor h n) fun _ => trivial

theorem only_getSuccessorsRPC (n : NodeId) : (getSuccessorsRPC n).Only φ ψ := by
  refine .bind (only_checkNodeState h n false) fun e => ?_
  split
  · trivial
  · exact .bind (only_getSuccessors h n) fun _ => trivial

theorem only_probeSuccessors (n : NodeId) : ∀ l, (probeSuccessors n l).Only φ ψ
  | [] => trivial
  | head :: rest => by
    refine .bind (only_getPredecessorRPC h head) fun newSucc => ?_
    refine .bind (only_getSuccessorsRPC h head) fun newSuccList => ?_
    split
    · split
      · split_ifs
        · refine .bind (only_getSuccessorsRPC h _) fun l => ?_
          split <;> trivial
        · trivial
      · trivial
    · exact only_probeSuccessors n rest

theorem only_updateSuccessorsList (hw : ∀ l, φ (.setSuccessors n l)) (l : List NodeId) :
    (updateSuccessorsList n l).Only φ ψ := by
  refine .act (h _ rfl) fun (_ : Option (List NodeId)) => ?_
  split_ifs
  · trivial
  · exact .perform (hw _)

theorem only_fixFingers (fuel : ℕ) {n : NodeId} (hw : ∀ k f, φ (.setFinger n k f)) :
    ∀ ks, (fixFingers fuel n ks).Only φ ψ
  | [] => trivial
  | k :: ks => by
    refine .bind ?_ fun _ => only_fixFingers fuel hw ks
    refine .bind (only_findSuccessor h fuel n _) fun f => ?_
    split
    · trivial
    · exact .perform (hw _ _)

omit h in
theorem only_setFingers {n : NodeId} (hw : ∀ k f, φ (.setFinger n k f)) (f : NodeId) :
    ∀ ks : List ℕ, (ks.forM fun k => setFinger n k f).Only φ ψ
  | [] => trivial
  | _ :: ks => .act (hw _ _) fun _ => only_setFingers hw f ks

theorem only_notifyCandidate (n : NodeId) (snapshot : Option NodeId) (predecessor : NodeId) :
    (notifyCandidate n snapshot predecessor).Only φ ψ := by
  unfold notifyCandidate
  split
  · trivial
  split
  · trivial
  refine .bind (only_checkNodeState h _ true) fun e => ?_
  split <;> trivial

theorem only_notify (hs : ∀ n old new, φ (.casSurrogate n old new))
    (hp : ∀ n old new, φ (.casPredecessor n old new)) (n predecessor : NodeId) :
    (notify n predecessor).Only φ ψ := by
  refine .bind (only_checkNodeState h n false) fun e => ?_
  split
  · trivial
  refine .act (h _ rfl) fun (x : Option NodeId) => ?_
  refine .bind (only_getPredecessor h n) fun p => ?_
  refine .bind (only_notifyCandidate h n p predecessor) fun c => ?_
  split
  · trivial
  refine .act (hs _ _ _) fun (_ : Unit) => ?_
  exact .act (hp _ _ _) fun _ => trivial

theorem only_checkPredecessor (hp : ∀ n old new, φ (.casPredecessor n old new)) (n : NodeId) :
    (checkPredecessor n).Only φ ψ := by
  refine .bind (only_getPredecessor h n) fun p => ?_
  split
  · trivial
  split_ifs
  · trivial
  refine .bind (only_checkNodeState h _ true) fun e => ?_
  split
  · trivial
  exact .act (hp _ _ _) fun _ => trivial

theorem only_moveRange (hr : ∀ n low high, φ (.rangeKeys n low high))
    (he : ∀ n keys, φ (.exportKeys n keys)) (hi : ∀ n keys values, φ (.importKeys n keys values))
    (hd : ∀ n keys, φ (.removeKeys n keys)) (n dest : NodeId) (low high : ℕ) :
    (moveRange n dest low high).Only φ ψ := by
  refine .act (hr _ _ _)
    fun (keys : Except ChordError (List Bytes)) => ?_
  split
  · trivial
  · trivial
  refine .act (he _ _)
    fun (values : Except ChordError (List KVTransfer)) => ?_
  split
  · trivial
  refine .bind (.act (h _ rfl) fun (w : StateWord) => ?_)
    fun res => ?_
  · split <;> first | trivial | exact .perform (hi _ _ _)
  split
  · trivial
  exact .act (hd _ _) fun _ => trivial

theorem only_serve (hash : Bytes → ℕ) {call : NodeId → Chord (Except ChordError Reply)}
    (hcall : ∀ x, (call x).Only φ ψ) (hl : ∀ m n, φ (.rlock m n)) (hu : ∀ m n, φ (.runlock m n))
    (hs : ∀ n, φ (.readSurrogate n)) (hp : ∀ n, φ (.readPredecessor n))
    (hh : ∀ n r, φ (.handle n r)) (n : NodeId) (r : Request) : (serve hash call n r).Only φ ψ := by
  refine .act (hl _ _) fun (_ : Unit) => ?_
  refine .act (h _ rfl) fun (w : StateWord) => ?_
  split_ifs
  · exact .act (hu _ _) fun _ => trivial
  refine .act (hs _) fun (x : Option NodeId) => ?_
  refine .act (hl _ _) fun (_ : Unit) => ?_
  refine .act (hp _) fun (p : Option NodeId) => ?_
  refine .bind ?_ fun res => ?_
  · rcases target n x p (hash r.key) with _ | y | _
    · exact .perform (hh _ _)
    · exact hcall y
    · trivial
  refine .act (hu _ _) fun (_ : Unit) => ?_
  exact .act (hu _ _) fun _ => trivial

theorem only_kvMiddleware (hash : Bytes → ℕ) (fuel : ℕ) (hl : ∀ m n, φ (.rlock m n))
    (hu : ∀ m n, φ (.runlock m n)) (hs : ∀ n, φ (.readSurrogate n))
    (hp : ∀ n, φ (.readPredecessor n)) (hh : ∀ n r, φ (.handle n r)) :
    ∀ (hops : ℕ) (n : NodeId) (r : Request), (kvMiddleware hash fuel hops n r).Only φ ψ
  | 0, _, _ => only_halt h
  | hops + 1, n, r => by
    refine .bind (only_findSuccessor h fuel n _) fun succ => ?_
    split
    · trivial
    · trivial
    · split_ifs
      · exact only_kvMiddleware hash fuel hl hu hs hp hh hops _ r
      · exact only_serve h hash (fun x => only_kvMiddleware hash fuel hl hu hs hp hh hops x r)
          hl hu hs hp hh n r

end Reading

section Handling

variable {φ : Act → Prop} {ψ : Task → Prop} (h : ∀ a, a.isHandling = true → φ a) {joiner : NodeId}

theorem isHandling_reading (a : Act) (ha : a.isReading = true) : a.isHandling = true := by
  cases a <;> simp_all [Act.isHandling, Act.isReading]

include h

theorem only_acceptLocked (n joiner : NodeId) : (acceptLocked n joiner).Only φ ψ := by
  have hr : ∀ a : Act, a.isReading = true → φ a := fun a ha => h a (isHandling_reading a ha)
  refine .act (h _ rfl) fun (prev : Option NodeId) => ?_
  split
  · trivial
  split_ifs
  swap
  · trivial
  refine .bind ?_ fun res => ?_
  · unfold transferKeysUpward
    dsimp only
    split_ifs
    · trivial
    · exact only_moveRange hr (fun _ _ _ => h _ rfl) (fun _ _ => h _ rfl) (fun _ _ _ => h _ rfl)
        (fun _ _ => h _ rfl) _ _ _ _
    · trivial
  split
  · trivial
  refine .act (h _ rfl) fun (_ : Unit) => ?_
  exact .bind (only_getSuccessors hr n) fun _ => trivial

theorem only_acceptJoiner (rounds : ℕ) (n joiner : NodeId) :
    (acceptJoiner rounds n joiner).Only φ ψ := by
  have hr : ∀ a : Act, a.isReading = true → φ a := fun a ha => h a (isHandling_reading a ha)
  refine .act (h _ rfl) fun (_ : Unit) => ?_
  refine .bind (only_transition hr (fun _ _ => h _ rfl) _ _) fun b => ?_
  split_ifs
  · refine .act (h _ rfl) fun (_ : Unit) => ?_
    refine .bind (only_acceptLocked h n joiner) fun res => ?_
    refine .bind ?_ fun (_ : Unit) => ?_
    · cases res
      · exact only_setState hr (fun _ _ => h _ rfl) .active rounds
      · exact .perform (h _ rfl)
    refine .act (h _ rfl) fun (_ : Unit) => ?_
    exact .act (h _ rfl) fun _ => trivial
  · exact .act (h _ rfl) fun _ => trivial

theorem only_callJoin (hψ : ∀ slot n, ψ (.handleJoin slot n joiner)) (n : NodeId) :
    (callJoin joiner n).Only φ ψ := by
  refine .act (h _ rfl) fun (slot : Except ChordError ℕ) => ?_
  split
  · trivial
  · exact .bind (.start (hψ _ _)) fun _ => .perform (h _ rfl)

theorem only_handleJoin (hψ : ∀ slot n, ψ (.handleJoin slot n joiner)) (rounds slot : ℕ)
    (n : NodeId) : (handleJoin rounds slot n joiner).Only φ ψ := by
  refine .bind ?_ fun _ => .perform (h _ rfl)
  refine .bind (only_findSuccessor (fun a ha => h a (isHandling_reading a ha)) _ _ _)
    fun succ => ?_
  split
  · trivial
  split_ifs
  · trivial
  · exact only_callJoin h hψ _
  · exact only_acceptJoiner h rounds n joiner

end Handling

theorem only_retry {φ : Act → Prop} {ψ : Task → Prop} {α : Type} {retryIf : ChordError → Bool}
    {f : Chord (Except ChordError α)} (hf : f.Only φ ψ) : ∀ k, (retry retryIf f k).Only φ ψ
  | 0 => hf
  | k + 1 => by
    refine .bind hf fun res => ?_
    split
    · trivial
    · split_ifs
      · exact only_retry hf k
      · trivial

section Triples

variable {K : Type} [KVProvider K] {hash : Bytes → ℕ} {fuel t : ℕ} {R : Rules (cluster K hash fuel)}

theorem triple_halt {α : Type} {P : Shared K → Prop} {Q : α → Shared K → Prop} :
    R.Triple t P (halt : Chord α) Q := by
  intro s _ _ s₁ _ l r s₂ _ he
  cases he

theorem triple_retry {α : Type} {P : Shared K → Prop} {Q : α → Shared K → Prop}
    {retryIf : ChordError → Bool} {f : Chord (Except ChordError α)} (hP : R.Stable t P)
    (hQ : ∀ a, R.Stable t (Q a))
    (h : R.Triple t P f fun res s => match res with | .ok a => Q a s | .error _ => P s) :
    ∀ k, R.Triple t P (retry retryIf f k)
      fun res s => match res with | .ok a => Q a s | .error _ => P s
  | 0 => h
  | k + 1 => by
    refine .bind h fun res => ?_
    rcases res with e | a
    · dsimp only
      split_ifs
      · exact triple_retry hP hQ h k
      · exact .ret hP fun _ _ h => h
    · exact .ret (hQ a) fun _ _ h => h

variable {P : Shared K → Prop} {n : NodeId} (hP : R.Stable t P)
  (hr : ∀ a, a.isRouting n = true → R.Keeps t P a)

theorem isRouting_reading (a : Act) (h : a.isReading = true) : a.isRouting n = true := by
  cases a <;> simp_all [Act.isRouting, Act.isReading]

include hP hr

theorem triple_routing {p : Chord α}
    (hp : p.Only (fun a : Act => a.isRouting n = true) fun _ => False) :
    R.Triple t P p fun _ => P :=
  .only hP hr (fun _ h => False.elim h) hp

theorem triple_notifySuccessor (hn : ∀ m, R.Triple t P (notify m n) fun _ => P)
    (l : List NodeId) : R.Triple t P (notifySuccessor n l) fun _ => P := by
  refine .bind (triple_routing hP hr (only_checkNodeState isRouting_reading n true)) fun e => ?_
  split
  · refine .bind (hn _) fun res => ?_
    split <;> exact .same hP
  · exact .same hP

theorem triple_stabilize (hn : ∀ m, R.Triple t P (notify m n) fun _ => P) :
    R.Triple t P (stabilize n) fun _ => P := by
  refine .bind (triple_routing hP hr (only_getSuccessors isRouting_reading n)) fun l => ?_
  refine .bind (triple_routing hP hr (only_probeSuccessors isRouting_reading n l))
    fun succList => ?_
  split
  · exact .same hP
  · exact .bind (triple_routing hP hr (only_updateSuccessorsList isRouting_reading
      (fun _ => by simp [Act.isRouting]) _)) fun _ =>
      triple_notifySuccessor hP hr hn _

theorem triple_fixFinger (rounds : ℕ) : R.Triple t P (fixFinger rounds n) fun _ => P :=
  triple_routing hP hr (only_fixFingers isRouting_reading rounds
    (fun _ _ => by simp [Act.isRouting]) _)

theorem triple_updatePointers (hn : ∀ m, R.Triple t P (notify m n) fun _ => P)
    (rounds : ℕ) : R.Triple t P (updatePointers rounds n) fun _ => P :=
  .bind (triple_stabilize hP hr hn) fun _ => triple_fixFinger hP hr rounds

theorem triple_periodic {round : Chord Unit} {again : Task}
    (hround : R.Triple t P round fun _ => P) (hτ : ∀ s, R.inv s → P s → R.pre again s) :
    R.Triple t P (periodic n round again) fun _ => P := by
  refine .bind (triple_routing hP hr (.perform rfl)) fun (stop : Bool) => ?_
  split
  · exact .same hP
  · exact .bind hround fun _ => .start hP hτ

omit hr in
theorem triple_periodicTask {τ : Task} (hr : ∀ a, a.isRouting τ.node = true → R.Keeps t P a)
    (hτ : τ.isPeriodic = true)
    (hn : ∀ m, R.Triple t P (notify m τ.node) fun _ => P)
    (hc : R.Triple t P (checkPredecessor τ.node) fun _ => P)
    (hagain : ∀ s, R.inv s → P s → R.pre τ s) :
    R.Triple t P (body hash fuel τ) fun _ => P := by
  cases τ with
  | periodicStabilize n =>
    exact triple_periodic hP hr (.bind (triple_stabilize hP hr hn) fun _ =>
      .same hP) hagain
  | periodicPredecessorCheck n =>
    exact triple_periodic hP hr (.bind hc fun _ => .same hP) hagain
  | periodicFixFingers n =>
    exact triple_periodic hP hr (triple_fixFinger hP hr fuel) hagain
  | _ => simp [Task.isPeriodic] at hτ

theorem triple_startTasks (hn : ∀ m, R.Triple t P (notify m n) fun _ => P)
    (rounds : ℕ)
    (hτ : ∀ τ, (τ = .periodicStabilize n ∨ τ = .periodicPredecessorCheck n ∨
      τ = .periodicFixFingers n) → ∀ s, R.inv s → P s → R.pre τ s) :
    R.Triple t P (startTasks rounds n) fun _ => P := by
  refine .bind (triple_stabilize hP hr hn) fun _ => ?_
  refine .bind (triple_fixFinger hP hr rounds) fun _ => ?_
  refine .bind (.start hP (hτ _ (.inl rfl))) fun _ => ?_
  refine .bind (.start hP (hτ _ (.inr (.inl rfl)))) fun _ => ?_
  exact .start hP (hτ _ (.inr (.inr rfl)))

end Triples

end Specter
