import Specter.Proofs.Locks
import Specter.Proofs.Transfer

/-!
# The advisory of a leaving node

A node that leaves has its predecessor update its pointers before it releases its own lock.  Until
then it is Leaving, and a node that is Leaving answers.  So the predecessor keeps it as its first
successor, in every ring (`leave_advisory_in_vain`).
-/

namespace Specter

open Lib (Prog Arc.Ioo Arc.Ioc Arc.Gap)
open Lib.Machine (alone_bind alone_ret)

/-- Leave up to the end of the advisory. -/
def leaveAdvised (fuel : ℕ) (n : NodeId) : Chord (Except ChordError (NodeId × NodeId)) := do
  match ← retry (fun _ => true) (executeLeave fuel n) (maxAttempts - 1) with
  | .error e => return .error e
  | .ok (pre, succ) =>
    finishLeaveAt fuel n pre true false
    return .ok (pre, succ)

/-- What Leave does after the advisory. -/
def leaveAfter (fuel : ℕ) (n : NodeId) : Except ChordError (NodeId × NodeId) → Chord Unit
  | .error _ => return ()
  | .ok (_, succ) => do
    setState fuel n .left .leave
    finishLeaveAt fuel n succ false true
    closeStop n

theorem leaveRing_eq (fuel : ℕ) (n : NodeId) :
    leaveRing fuel n = leaveAdvised fuel n >>= leaveAfter fuel n := by
  rw [leaveAdvised, Prog.bind_assoc, leaveRing]
  congr 1
  funext r
  rcases r with e | ⟨pre, succ⟩
  · rfl
  · rw [Prog.bind_assoc]
    rfl

section Ring

variable {K : Type} {s s' : Shared K} {members : Finset NodeId} {pred succ : NodeId → NodeId}
  {n m : NodeId} {f : NodeId}

/-- A ring of at least two nodes that know their true neighbours, with nobody in a critical
section. -/
structure LeavingRing (s : Shared K) (members : Finset NodeId) (pred succ : NodeId → NodeId)
    (n : NodeId) : Prop where
  stable : StableRing s members pred succ
  unlocked : ∀ m ∈ members, ∀ mu, (s.node m).mutex mu = .unlocked
  mem : n ∈ members
  two : pred n ≠ n
  hashed : ∀ l, (s.node (pred n)).succListHash = some l → (s.node (pred n)).successors = l

/-- What the ring of true neighbours is made of, at one node. -/
structure Node.SameLinks (x y : Node K) : Prop where
  running : stateError false x.state.state = none → stateError false y.state.state = none
  predecessor : y.predecessor = x.predecessor
  head : y.successors.head? = x.successors.head?
  fingers : y.fingers = x.fingers
  predecessorMu : y.predecessorMu = x.predecessorMu

theorem StableRing.congr (h : StableRing s members pred succ)
    (hs : ∀ m, (s.node m).SameLinks (s'.node m)) : StableRing s' members pred succ where
  below := h.below
  running m hm := (hs m).running (h.running m hm)
  predecessor m hm := (hs m).predecessor.trans (h.predecessor m hm)
  pred_gap := h.pred_gap
  successor m hm := (hs m).head.trans (h.successor m hm)
  succ_gap := h.succ_gap
  fingers m hm := by
    rw [(hs m).fingers]
    exact h.fingers m hm
  unlocked m hm := by
    rw [(hs m).predecessorMu]
    exact h.unlocked m hm

/-- An attempt to leave changes states, surrogates and stores, and whoever answered still does. -/
def SamePointers (s s' : Shared K) : Prop :=
  ∀ m, ∃ w v kv old,
    s'.node m = { s.node m with state := w, surrogate := v, kv := kv, atStop := old } ∧
    (stateError false (s.node m).state.state = none → stateError false w.state = none)

namespace SamePointers

variable {s₁ : Shared K} {e : Event}

theorem refl (s : Shared K) : SamePointers s s := fun _ => ⟨_, _, _, _, rfl, id⟩

theorem trans {s₂ : Shared K} (h : SamePointers s s₁) (h' : SamePointers s₁ s₂) :
    SamePointers s s₂ := by
  intro m
  obtain ⟨w, v, kv, old, e, ha⟩ := h m
  obtain ⟨w', v', kv', old', e', ha'⟩ := h' m
  rw [e] at e' ha'
  exact ⟨w', v', kv', old', e', fun h0 => ha' (ha h0)⟩

theorem update {f : Node K → Node K}
    (hf : ∀ x, ∃ w v old, f x = { x with state := w, surrogate := v, atStop := old } ∧
      (stateError false x.state.state = none → stateError false w.state = none)) :
    SamePointers s (s.update n f) := by
  intro m
  rw [node_update]
  split_ifs with hm
  · obtain ⟨w, v, old, e, ha⟩ := hf (s.node n)
    subst hm
    exact ⟨w, v, _, old, e, ha⟩
  · exact ⟨_, _, _, _, rfl, id⟩

theorem swapped {w : StateWord} (hw : stateError false w.state = none) :
    SamePointers s ((s.update n (·.swap w)).push e) :=
  update (f := (·.swap w)) fun _ => ⟨w, _, _, rfl, fun _ => hw⟩

theorem push (h : SamePointers s s₁) : SamePointers s (s₁.push e) := h

theorem surrogate {v : Option NodeId} :
    SamePointers s (s.update n fun x => { x with surrogate := v }) :=
  update fun _ => ⟨_, v, _, rfl, id⟩

/-- The lock is taken and released. -/
theorem bracket {μ : RWMutex} (hu : (s.node n).surrogateMu = .unlocked)
    (h : SamePointers (s.update n fun x => x.setMutex .surrogateMu μ) s₁) :
    SamePointers s (s₁.update n fun x => x.setMutex .surrogateMu .unlocked) := by
  intro m
  obtain ⟨w, v, kv, old, e, ha⟩ := h m
  by_cases hm : m = n
  · subst hm
    rw [node_update_self] at e ha ⊢
    rw [e]
    refine ⟨w, v, kv, old, ?_, ha⟩
    simp [Node.setMutex, ← hu]
  · rw [node_update_ne hm] at e ha ⊢
    exact ⟨w, v, kv, old, e, ha⟩

end SamePointers

namespace LeavingRing

section

variable (h : LeavingRing s members pred succ n)

include h

theorem pred_mem : pred n ∈ members :=
  (h.stable.pred_gap n h.mem).left

theorem succ_mem : succ n ∈ members :=
  (h.stable.succ_gap n h.mem).right

theorem succ_ne : succ n ≠ n := by
  intro he
  have hg := h.stable.succ_gap n h.mem
  rw [he] at hg
  exact hg.empty _ h.pred_mem (Lib.Arc.ioo_self.2 h.two)

theorem succ_pred : succ (pred n) = n :=
  (h.stable.succ_gap _ h.pred_mem).succ_unique (h.stable.pred_gap n h.mem)

theorem kept (hk : SamePointers s s') :
    LeavingRing s' members pred succ n where
  stable := h.stable.congr fun m => by
    obtain ⟨w, v, kv, old, e, ha⟩ := hk m
    rw [e]
    exact ⟨ha, rfl, rfl, rfl, rfl⟩
  unlocked m hm mu := by
    obtain ⟨w, v, kv, old, e, -⟩ := hk m
    rw [← h.unlocked m hm mu, e]
    cases mu <;> rfl
  mem := h.mem
  two := h.two
  hashed := by
    obtain ⟨w, v, kv, old, e, -⟩ := hk (pred n)
    rw [e]
    exact h.hashed

end

end LeavingRing

theorem node_setFinger {k : ℕ} (q : NodeId) :
    (s.update m fun x => { x with fingers := Function.update x.fingers k (some f) }).node q =
      { s.node q with fingers := if q = m then Function.update (s.node q).fingers k (some f)
          else (s.node q).fingers } := by
  rw [node_update]
  split_ifs with hq
  · rw [hq]
  · rfl

theorem mem_of_setFinger {k k' : ℕ} {f' : NodeId} {fs : ℕ → Option NodeId} {b : Prop} [Decidable b]
    (hfs : ∀ k f, fs k = some f → f ∈ members) (hf : f ∈ members)
    (h : (if b then Function.update fs k (some f) else fs) k' = some f') : f' ∈ members := by
  split_ifs at h
  · rw [Function.update_apply] at h
    split_ifs at h
    · cases h
      exact hf
    · exact hfs _ _ h
  · exact hfs _ _ h

theorem StableRing.setFinger (h : StableRing s members pred succ) (k : ℕ) (hf : f ∈ members) :
    StableRing (s.update m fun x => { x with fingers := Function.update x.fingers k (some f) })
      members pred succ where
  below := h.below
  running q hq := by rw [node_setFinger]; exact h.running q hq
  predecessor q hq := by rw [node_setFinger]; exact h.predecessor q hq
  pred_gap := h.pred_gap
  successor q hq := by rw [node_setFinger]; exact h.successor q hq
  succ_gap := h.succ_gap
  fingers q hq k' f' := by
    rw [node_setFinger]
    exact mem_of_setFinger (h.fingers q hq) hf
  unlocked q hq := by rw [node_setFinger]; exact h.unlocked q hq

variable [KVProvider K] {hash : Bytes → ℕ} {fuel t : ℕ} {ok : Act → Fault → Prop}

theorem moduloSum_lt (x y : ℕ) : moduloSum x y < maxIdentifier :=
  Nat.mod_lt _ (by decide)

theorem StableRing.alone_fixFingers {rounds : ℕ} (hm : m ∈ members)
    (hr : maxIdentifier ≤ rounds) :
    ∀ (ks : List ℕ) {s : Shared K}, StableRing s members pred succ →
      (cluster K hash fuel).Alone ok t (fun _ s' => StableRing s' members pred succ ∧
        ∀ q, (s'.node q).successors = (s.node q).successors) (fixFingers rounds m ks) s
  | [], s, h => ⟨h, fun _ => rfl⟩
  | k :: ks, s, h => by
    rw [fixFingers, fixK]
    simp only [alone_bind]
    refine (alone_findSuccessor h hm ((cwDistance_le (moduloSum_lt _ _)).trans hr)).mono ?_
    rintro _ s' ⟨rfl, f, hf, rfl, -⟩
    refine fun l _ => ⟨_, _, rfl, ?_⟩
    refine (StableRing.alone_fixFingers hm hr ks (h.setFinger k hf)).mono ?_
    rintro _ s'' ⟨h'', hsucc⟩
    refine ⟨h'', fun q => ?_⟩
    rw [hsucc, node_setFinger]

theorem alone_getPredecessorRPC {Q : Except ChordError (Option NodeId) → Shared K → Prop}
    (hu : (s.node m).predecessorMu.canRLock) (ha : stateError false (s.node m).state.state = none)
    (h : Q (.ok (s.node m).predecessor) s) :
    (cluster K hash fuel).Alone ok t Q (getPredecessorRPC m) s := by
  simp only [getPredecessorRPC, checkNodeState, alone_bind]
  refine alone_loadState ?_
  simp only [Prog.pure_eq, alone_ret, ha, alone_bind]
  exact alone_getPredecessor hu h

theorem alone_getSuccessorsRPC {Q : Except ChordError (List NodeId) → Shared K → Prop}
    (ha : stateError false (s.node m).state.state = none) (h : Q (.ok (s.node m).successors) s) :
    (cluster K hash fuel).Alone ok t Q (getSuccessorsRPC m) s := by
  simp only [getSuccessorsRPC, checkNodeState, alone_bind]
  refine alone_loadState ?_
  simp only [Prog.pure_eq, alone_ret, ha, alone_bind]
  exact alone_getSuccessors h

theorem alone_probeLeaver (h : LeavingRing s members pred succ n) :
    (cluster K hash fuel).Alone ok t (fun r s' => s' = s ∧ ∃ l, r = some l ∧ l.head? = some n)
      (probeSuccessors (pred n) (s.node (pred n)).successors) s := by
  have ha := h.stable.running n h.mem
  obtain ⟨rest, hlist⟩ := List.head?_eq_some_iff.1 (h.stable.successor _ h.pred_mem)
  rw [hlist, h.succ_pred, probeSuccessors]
  simp only [alone_bind]
  refine alone_getPredecessorRPC (h.stable.unlocked n h.mem) ha (alone_getSuccessorsRPC ha ?_)
  have hb : between (pred n) (pred n) n false = false := by
    rw [Bool.eq_false_iff, ne_eq, between_eq_ioo]
    exact Lib.Arc.not_ioo_left _ _
  simp only [h.stable.predecessor n h.mem, hb, Bool.false_eq_true, if_false]
  exact ⟨rfl, _, rfl, makeSuccListByID_head _ _ _⟩

theorem alone_updateSuccessorsList {l : List NodeId}
    (hh : ∀ l, (s.node m).succListHash = some l → (s.node m).successors = l) :
    (cluster K hash fuel).Alone ok t (fun _ s' => ∀ q, ∃ h, s'.node q = { s.node q with
      successors := if q = m then l else (s.node q).successors, succListHash := h })
      (updateSuccessorsList m l) s := by
  rw [updateSuccessorsList, alone_bind]
  refine fun _ _ => ⟨_, _, rfl, ?_⟩
  rw [alone_ret]
  split_ifs with he
  · intro q
    refine ⟨(s.node q).succListHash, ?_⟩
    split_ifs with hq
    · rw [hq, ← hh l he]
    · rfl
  · refine fun _ _ => ⟨_, _, rfl, fun q => ?_⟩
    rw [node_update]
    split_ifs with hq
    · rw [hq]
      exact ⟨_, rfl⟩
    · exact ⟨_, rfl⟩

theorem alone_notify_known {c : NodeId} (hp : (s.node m).predecessorMu.canRLock)
    (hs : (s.node m).surrogateMu = .unlocked) (hc : (s.node m).predecessor = some c) :
    (cluster K hash fuel).Alone ok t (fun _ s' => s' = s) (notify m c) s := by
  simp only [notify, checkNodeState, alone_bind]
  refine alone_loadState ?_
  simp only [Prog.pure_eq, alone_ret]
  rcases stateError false (s.node m).state.state with _ | e
  swap
  · rfl
  simp only [alone_bind]
  refine fun _ _ => ⟨_, _, if_pos (by rw [hs]; rfl), ?_⟩
  refine alone_getPredecessor hp ?_
  rw [hc, notifyCandidate, if_pos rfl]
  rfl

theorem alone_stabilize (h : LeavingRing s members pred succ n) :
    (cluster K hash fuel).Alone ok t (fun _ s' => ∀ q, (s.node q).SameLinks (s'.node q))
      (stabilize (pred n)) s := by
  simp only [stabilize, alone_bind]
  refine alone_getSuccessors ((alone_probeLeaver h).mono ?_)
  rintro r s' ⟨rfl, l, rfl, hl⟩
  rw [alone_bind]
  refine (alone_updateSuccessorsList h.hashed).mono fun _ s₁ h₁ => ?_
  have hlinks : ∀ q, (s'.node q).SameLinks (s₁.node q) := by
    intro q
    obtain ⟨h', e⟩ := h₁ q
    rw [e]
    refine ⟨id, rfl, ?_, rfl, rfl⟩
    dsimp only
    split_ifs with hq
    · rw [hq, hl, h.stable.successor _ h.pred_mem, h.succ_pred]
    · rfl
  obtain ⟨h', e⟩ := h₁ n
  have hfree : (s₁.node n).surrogateMu = .unlocked := by
    rw [e]
    exact h.unlocked n h.mem .surrogateMu
  have hst := h.stable.congr hlinks
  simp only [notifySuccessor, checkNodeState, alone_bind, hl]
  refine alone_loadState ?_
  simp only [Prog.pure_eq, alone_ret]
  rcases stateError true (s₁.node (pred n)).state.state with _ | e
  · rw [alone_bind]
    refine (alone_notify_known (hst.unlocked n h.mem) hfree (hst.predecessor n h.mem)).mono ?_
    rintro (e | _) s₂ rfl
    · exact hlinks
    · exact hlinks
  · exact hlinks

/-! ### The attempts -/

theorem kept_release :
    (cluster K hash fuel).Alone ok t (fun _ s' => SamePointers s s')
      (finishLeave fuel m false true) s := by
  simp only [finishLeave, finish, Bool.false_eq_true, if_false, if_true, releaseLock,
    Prog.pure_eq, Prog.ret_bind, alone_bind]
  exact alone_transition (fun _ => .swapped rfl) fun _ => .refl s

theorem kept_lockLeave :
    (cluster K hash fuel).Alone ok t (fun _ s' => SamePointers s s')
      (lockLeave (fuel + 1) n m) s := by
  unfold lockLeave requestToLeave
  split_ifs
  · simp only [alone_bind]
    refine alone_transition (fun _ => ?_) fun _ => .refl s
    simp only [if_true, alone_ret, alone_bind, Prog.pure_eq]
    refine alone_transition (fun _ => .trans (.swapped rfl) (.swapped rfl)) fun _ => ?_
    simp only [Bool.false_eq_true, if_false, alone_bind]
    exact kept_release.mono fun _ _ h => .trans (.push (.swapped rfl)) h
  · simp only [alone_bind]
    refine alone_transition (fun _ => ?_) fun _ => .refl s
    simp only [if_true, alone_bind]
    refine alone_transition (fun _ => .trans (.swapped rfl) (.swapped rfl)) fun _ => ?_
    simp only [Bool.false_eq_true, if_false, alone_ret, alone_bind,
      Prog.pure_eq]
    exact alone_setState (.trans (.push (.swapped rfl)) (.swapped rfl))

theorem kept_handOver (hu : (s.node n).surrogateMu = .unlocked)
    (hm : (s.node m).surrogateMu = .unlocked) (hmn : m ≠ n) :
    (cluster K hash fuel).Alone ok t (fun _ s' => SamePointers s s')
      (handOver (fuel + 1) n m) s := by
  simp only [handOver, transferKeysDownward, alone_bind]
  refine alone_lock (by rw [Node.mutex, hu]; rfl) ?_
  refine (alone_moveRange (by rw [node_update_ne hmn, hm]; rfl)).mono ?_
  intro r s₁ hmove
  have hs₁ : SamePointers (s.update n fun x => x.setMutex .surrogateMu ⟨some t, []⟩) s₁ :=
    fun q => ⟨_, _, _, _, hmove.frame q, id⟩
  rcases r with e | _
  · simp only [alone_bind]
    refine alone_setState (kept_release.mono fun _ s₂ h₂ => alone_unlock ?_)
    exact .bracket hu (hs₁.trans (.trans (.swapped rfl) h₂))
  · simp only [alone_bind]
    exact alone_writeSurrogate (alone_unlock (.bracket hu (hs₁.trans .surrogate)))

theorem alone_executeLeave (h : LeavingRing s members pred succ n) :
    (cluster K hash fuel).Alone ok t (fun r s' => LeavingRing s' members pred succ n ∧
      ∀ pre suc, r = .ok (pre, suc) → pre = pred n) (executeLeave (fuel + 1) n) s := by
  simp only [executeLeave, getSuccessor, Prog.pure_eq, alone_bind]
  refine alone_getPredecessor (h.stable.unlocked n h.mem) ?_
  rw [h.stable.predecessor n h.mem]
  simp only [alone_bind]
  refine alone_getSuccessors ?_
  simp only [alone_ret, h.stable.successor n h.mem]
  rw [if_neg fun he => h.two he.1, alone_bind]
  refine kept_lockLeave.mono fun r s₁ hk₁ => ?_
  have h₁ := h.kept hk₁
  rcases r with e | _
  · exact ⟨h₁, nofun⟩
  simp only [alone_bind]
  refine (kept_handOver (h₁.unlocked n h.mem .surrogateMu)
    (h₁.unlocked _ h.succ_mem .surrogateMu) h.succ_ne).mono fun r s₂ hk₂ => ?_
  rcases r with e | _
  · exact ⟨h₁.kept hk₂, nofun⟩
  · exact ⟨h₁.kept hk₂, by simp +contextual⟩

theorem alone_retry {α : Type} {I : Shared K → Prop} {P : α → Prop} {retryIf : ChordError → Bool}
    {f : Chord (Except ChordError α)}
    (hf : ∀ s, I s → (cluster K hash fuel).Alone ok t (fun r s' => I s' ∧ ∀ a, r = .ok a → P a)
      f s) : ∀ attempts s, I s → (cluster K hash fuel).Alone ok t
        (fun r s' => I s' ∧ ∀ a, r = .ok a → P a) (retry retryIf f attempts) s
  | 0, s, hs => hf s hs
  | attempts + 1, s, hs => by
    rw [retry, alone_bind]
    refine (hf s hs).mono ?_
    rintro (e | a) s' ⟨hs', ha⟩
    · dsimp only
      split_ifs
      · exact alone_retry hf attempts s' hs'
      · exact ⟨hs', nofun⟩
    · exact ⟨hs', ha⟩

/-- Leave is what it does up to the end of the advisory, and then the rest.  However often its
attempts are repeated, when the advisory has returned the leaving node is still the first successor
of its predecessor, whose lookups still return it for all the keys it owned. -/
theorem leave_advisory_in_vain (hfuel : maxIdentifier ≤ fuel)
    (h : LeavingRing s members pred succ n) :
    leaveRing (fuel + 1) n = leaveAdvised (fuel + 1) n >>= leaveAfter (fuel + 1) n ∧
    (cluster K hash fuel).Alone (fun _ _ => True) t (fun r s' => ∀ pre suc, r = .ok (pre, suc) →
      (s'.node (pred n)).successors.head? = some n ∧
      ∀ key < maxIdentifier, Arc.Ioc (pred n) n key → (cluster K hash fuel).Alone
        (fun _ _ => True) t (fun r _ => r = .ok n) (findSuccessor fuel (pred n) key) s')
      (leaveAdvised (fuel + 1) n) s := by
  refine ⟨leaveRing_eq _ n, ?_⟩
  rw [leaveAdvised, alone_bind]
  refine (alone_retry (P := fun p => p.1 = pred n)
    (fun s hs => (alone_executeLeave hs).mono fun r s' hr => ⟨hr.1, fun p hp => hr.2 _ p.2 hp⟩)
    _ s h).mono ?_
  rintro (e | ⟨pre, suc⟩) s₁ ⟨h₁, hpre⟩
  · exact nofun
  obtain rfl : pre = pred n := hpre _ rfl
  simp only [finishLeaveAt, if_neg h.two, finishLeave, finish, updatePointers, if_true,
    Bool.false_eq_true, if_false, alone_bind]
  refine (alone_stabilize h₁).mono fun _ s₂ hlinks => ?_
  have hst := h₁.stable.congr hlinks
  refine (StableRing.alone_fixFingers h.pred_mem (Nat.le_succ_of_le hfuel) fingerIndices
    hst).mono ?_
  rintro _ s₃ ⟨hst₃, -⟩ _ _ -
  refine ⟨by rw [hst₃.successor _ h.pred_mem, h.succ_pred], fun key hk ho => ?_⟩
  refine (alone_findSuccessor hst₃ h.pred_mem ((cwDistance_le hk).trans hfuel)).mono ?_
  rintro _ _ ⟨-, m, hm, rfl, hm'⟩
  rw [(hst₃.pred_gap m hm).eq_of_ioc (hst₃.pred_gap n h.mem) hm' ho]

end Ring

/-- Three nodes that know the two after them, and no fingers. -/
def threeNodes : Shared (MemoryKV fun _ => 0) where
  node n :=
    { newLocalNode with
      state := ⟨2, .active⟩
      predecessor := some (if n = 7 then 300 else if n = 100 then 7 else 100)
      successors := if n = 7 then [100, 300] else if n = 100 then [300, 7] else [7, 100] }
  mailbox := []
  trace := []

theorem threeNodes_leaving : LeavingRing threeNodes {7, 100, 300}
    (fun n => if n = 7 then 300 else if n = 100 then 7 else 100)
    (fun n => if n = 7 then 100 else if n = 100 then 300 else 7) 7 where
  stable :=
    { below := by decide
      running _ _ := rfl
      predecessor _ _ := rfl
      pred_gap := by
        intro n hn
        simp only [Finset.mem_insert, Finset.mem_singleton] at hn
        rcases hn with rfl | rfl | rfl <;> constructor <;> simp [Arc.Ioo]
      successor := by
        intro n hn
        simp only [Finset.mem_insert, Finset.mem_singleton] at hn
        rcases hn with rfl | rfl | rfl <;> rfl
      succ_gap := by
        intro n hn
        simp only [Finset.mem_insert, Finset.mem_singleton] at hn
        rcases hn with rfl | rfl | rfl <;> constructor <;> simp [Arc.Ioo]
      fingers := by simp [threeNodes, newLocalNode]
      unlocked _ _ := rfl }
  unlocked _ _ mu := by cases mu <;> rfl
  mem := by decide
  two := by decide
  hashed := by simp [threeNodes, newLocalNode]

theorem leave_advisory_in_vain_three :
    LeavingRing threeNodes {7, 100, 300}
      (fun n => if n = 7 then 300 else if n = 100 then 7 else 100)
      (fun n => if n = 7 then 100 else if n = 100 then 300 else 7) 7 ∧
    (cluster _ (fun _ => 0) maxIdentifier).Alone (fun _ _ => True) 0
      (fun r s' => ∀ pre suc, r = .ok (pre, suc) → (s'.node 300).successors.head? = some 7)
      (leaveAdvised (maxIdentifier + 1) 7) threeNodes :=
  ⟨threeNodes_leaving, (leave_advisory_in_vain le_rfl threeNodes_leaving).2.mono
    fun _ _ h pre suc hr => (h pre suc hr).1⟩

/-- Node 7 leaves a ring of three.  When the advisory to its predecessor has returned, it is still
the predecessor's first successor, and what the predecessor returns for its own identifier. -/
theorem leave_advisory_keeps :
    ((cluster _ (fun _ => 0) 9).runAlone 0 (leaveAdvised 9 7) (List.replicate 900 .ok)
      threeNodes).map (fun (r, s) => (r.toOption, (s.node 7).state.state,
        (s.node 300).successors.head?,
        ((cluster _ (fun _ => 0) 9).runAlone 0 (findSuccessor 9 300 7) (List.replicate 9 .ok)
          s).map fun p => p.1.toOption)) =
    some (some (300, 100), .leaving, some 7, some (some 7)) := by
  decide +kernel

end Specter
