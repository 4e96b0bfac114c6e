import Specter.Proofs.Actions
import Specter.Memory
import Specter.Lib.Arc

/-!
# Lookups end, and end at the owner

A node that does not answer a lookup itself passes it to a node strictly between itself and the key,
so the walk ends.  In a ring whose nodes know their true neighbours it ends at the one node whose
range holds the key, whatever the fingers are (`findSuccessor_stable`).
-/

namespace Specter

open Lib (Prog Arc.Ioo Arc.Ioc Arc.Gap)

theorem between_eq_ioo {a x b : ℕ} : between a x b false = true ↔ Arc.Ioo a b x := by
  unfold between Arc.Ioo
  grind

theorem between_eq_ioc {a x b : ℕ} : between a x b true = true ↔ Arc.Ioc a b x := by
  unfold between Arc.Ioc Arc.Ioo
  grind

/-- How far the key is ahead of the node: a full circle when they coincide. -/
def cwDistance (n key : ℕ) : ℕ := if n < key then key - n else key + maxIdentifier - n

theorem cwDistance_pos {n : ℕ} (hn : n < maxIdentifier) (key : ℕ) : 0 < cwDistance n key := by
  unfold cwDistance
  split_ifs <;> omega

theorem cwDistance_lt {n m key : ℕ} (hn : n < maxIdentifier) (hm : m < maxIdentifier)
    (h : Arc.Ioo n key m) : cwDistance m key < cwDistance n key := by
  unfold Arc.Ioo at h
  unfold cwDistance
  split_ifs at h ⊢ <;> omega

theorem cwDistance_le {n key : ℕ} (hk : key < maxIdentifier) :
    cwDistance n key ≤ maxIdentifier := by
  unfold cwDistance
  split_ifs <;> omega

section Answers

variable {ok : (a : Act) → a.Res → Prop} {n : NodeId} {Q : Option NodeId → Prop}

@[simp] theorem allAnswers_loadState {Q : StateWord → Prop} :
    (loadState n).AllAnswers ok Q ↔
      (∃ w, ok (.loadState n) w) ∧ ∀ w, ok (.loadState n) w → Q w := Iff.rfl

@[simp] theorem allAnswers_getPredecessor :
    (getPredecessor n).AllAnswers ok Q ↔
      (∃ p, ok (.getPredecessor n) p) ∧ ∀ p, ok (.getPredecessor n) p → Q p := Iff.rfl

@[simp] theorem allAnswers_getSuccessors {Q : List NodeId → Prop} :
    (getSuccessors n).AllAnswers ok Q ↔
      (∃ l, ok (.getSuccessors n) l) ∧ ∀ l, ok (.getSuccessors n) l → Q l := Iff.rfl

@[simp] theorem allAnswers_getFinger {k : ℕ} :
    (getFinger n k).AllAnswers ok Q ↔
      (∃ f, ok (.getFinger n k) f) ∧ ∀ f, ok (.getFinger n k) f → Q f := Iff.rfl

end Answers

/-- An answer that names only nodes in `P`, and anything else. -/
def Within (P : NodeId → Prop) : (a : Act) → a.Res → Prop
  | .getPredecessor _, (r : Option NodeId) => ∀ p ∈ r, P p
  | .getSuccessors _, (r : List NodeId) => ∀ p ∈ r, P p
  | .getFinger _ _, (r : Option NodeId) => ∀ p ∈ r, P p
  | _, _ => True

section Within

variable {P : NodeId → Prop} {key : ℕ}

theorem closestPrecedingNode_closer (n : NodeId) : ∀ k,
    (closestPrecedingNode n key k).AllAnswers (Within P) fun m => m ≠ n → P m ∧ Arc.Ioo n key m
  | 0 => fun h => absurd rfl h
  | k + 1 => by
    rw [closestPrecedingNode, Prog.allAnswers_bind, allAnswers_getFinger]
    refine ⟨⟨none, by simp [Within]⟩, fun f hf => ?_⟩
    cases f with
    | none => exact closestPrecedingNode_closer n k
    | some f =>
      dsimp only
      split_ifs with hb
      · exact fun _ => ⟨hf f rfl, between_eq_ioo.1 hb⟩
      · exact closestPrecedingNode_closer n k

theorem lookupStep_closer {n : NodeId} (hn : P n) :
    (lookupStep n key).AllAnswers (Within P) fun h =>
      (∀ m, h = .found m → P m) ∧ ∀ m, h = .forward m → P m ∧ Arc.Ioo n key m := by
  simp only [lookupStep, checkNodeState, Prog.allAnswers_bind, allAnswers_loadState, Prog.pure_eq,
    Prog.allAnswers_ret]
  refine ⟨⟨⟨0, .active⟩, trivial⟩, fun w _ => ?_⟩
  rcases stateError false w.state with _ | e
  swap
  · simp
  simp only [Prog.allAnswers_bind, allAnswers_getPredecessor]
  refine ⟨⟨none, by simp [Within]⟩, fun pre _ => ?_⟩
  split_ifs
  · simp [hn]
  simp only [getSuccessor, Prog.allAnswers_bind, allAnswers_getSuccessors, Prog.pure_eq,
    Prog.allAnswers_ret]
  refine ⟨⟨[], by simp [Within]⟩, fun succs hsuccs => ?_⟩
  rcases hs : succs.head? with _ | succ
  · simp
  have hP : P succ := hsuccs succ (List.mem_of_mem_head? hs)
  dsimp only
  split_ifs with hb
  · simp [hP]
  rw [Prog.allAnswers_bind]
  refine (closestPrecedingNode_closer n maxFingerEntries).mono fun c hc => ?_
  simp only [Prog.allAnswers_ret, Hop.forward.injEq]
  refine ⟨by simp, ?_⟩
  rintro m rfl
  split_ifs with hcn
  · -- a successor that does not own the key is before it, as a chosen finger is
    exact ⟨hP, Lib.Arc.ioo_of_not_ioc (mt between_eq_ioc.2 hb)⟩
  · exact hc hcn

theorem findSuccessor_returns (hP : ∀ m, P m → m < maxIdentifier) : ∀ {fuel : ℕ} {n : NodeId},
    P n → cwDistance n key ≤ fuel →
      (findSuccessor fuel n key).AllAnswers (Within P) fun r => ∀ m, r = .ok m → P m
  | 0, n, hn, hd => by
    have := cwDistance_pos (hP n hn) key
    omega
  | fuel + 1, n, hn, hd => by
    rw [findSuccessor, Prog.allAnswers_bind]
    refine (lookupStep_closer hn).mono fun h hh => ?_
    cases h with
    | found m =>
      rintro m' hm
      cases hm
      exact hh.1 m rfl
    | failed e => exact fun m hm => by cases hm
    | forward m =>
      obtain ⟨hm, hc⟩ := hh.2 m rfl
      have hlt := cwDistance_lt (hP n hn) (hP m hm) hc
      exact findSuccessor_returns hP hm (by omega)

end Within

/-- Whatever the pointers of the nodes are, and however they change in between, a node that
forwards a lookup forwards it to one strictly inside the arc from itself to the key, nearer to the
key, and the walk ends. -/
theorem findSuccessor_never_loops (n key : ℕ) (hn : n < maxIdentifier) :
    ((lookupStep n key).AllAnswers (Within (· < maxIdentifier)) fun h => ∀ m, h = .forward m →
      m < maxIdentifier ∧ Arc.Ioo n key m ∧ cwDistance m key < cwDistance n key) ∧
    ∀ fuel, cwDistance n key ≤ fuel →
      (findSuccessor fuel n key).AllAnswers (Within (· < maxIdentifier)) fun _ => True := by
  constructor
  · refine (lookupStep_closer (P := (· < maxIdentifier)) hn).mono fun h hh m hm => ?_
    obtain ⟨h1, h2⟩ := hh.2 m hm
    exact ⟨h1, h2, cwDistance_lt hn h1 h2⟩
  · intro fuel hd
    have h := findSuccessor_returns (P := (· < maxIdentifier)) (fun _ h => h) hn hd
    exact h.mono fun _ _ => trivial

theorem findSuccessor_never_loops_own_id :
    (5 < maxIdentifier ∧ cwDistance 5 5 = 2 ^ 48) ∧
      (findSuccessor (2 ^ 48) 5 5).AllAnswers (Within (· < maxIdentifier)) fun _ => True :=
  ⟨by decide, (findSuccessor_never_loops 5 5 (by decide)).2 _ (by decide)⟩

section Stable

variable {K : Type} [KVProvider K] {hash : Bytes → ℕ} {fuel t : ℕ} {ok : Act → Fault → Prop}
  {s : Shared K} {n : NodeId}

/-- Every member is running and knows its neighbours in the circle of the members; its fingers are
empty or any members. -/
structure StableRing (s : Shared K) (members : Finset NodeId) (pred succ : NodeId → NodeId) :
    Prop where
  below : ∀ n ∈ members, n < maxIdentifier
  running : ∀ n ∈ members, stateError false (s.node n).state.state = none
  predecessor : ∀ n ∈ members, (s.node n).predecessor = some (pred n)
  pred_gap : ∀ n ∈ members, Arc.Gap (members : Set NodeId) (pred n) n
  successor : ∀ n ∈ members, (s.node n).successors.head? = some (succ n)
  succ_gap : ∀ n ∈ members, Arc.Gap (members : Set NodeId) n (succ n)
  fingers : ∀ n ∈ members, ∀ k f, (s.node n).fingers k = some f → f ∈ members
  unlocked : ∀ n ∈ members, (s.node n).predecessorMu.canRLock

theorem alone_closestPrecedingNode {members : Finset NodeId} {key : ℕ} (hn : n ∈ members)
    (hf : ∀ k f, (s.node n).fingers k = some f → f ∈ members) : ∀ k,
    (cluster K hash fuel).Alone ok t (fun m s' => s' = s ∧ m ∈ members ∧
      (m ≠ n → Arc.Ioo n key m)) (closestPrecedingNode n key k) s
  | 0 => ⟨rfl, hn, fun h => absurd rfl h⟩
  | k + 1 => by
    rw [closestPrecedingNode, Lib.Machine.alone_bind]
    refine alone_getFinger ?_
    rcases hk : (s.node n).fingers (k + 1) with _ | f
    · exact alone_closestPrecedingNode hn hf k
    dsimp only
    split_ifs with hb
    · exact ⟨rfl, hf _ _ hk, fun _ => between_eq_ioo.1 hb⟩
    · exact alone_closestPrecedingNode hn hf k

variable {members : Finset NodeId} {pred succ : NodeId → NodeId} {key : ℕ}

theorem alone_lookupStep (hs : StableRing s members pred succ) (hn : n ∈ members) :
    (cluster K hash fuel).Alone ok t (fun h s' => s' = s ∧
      ((∃ m ∈ members, h = .found m ∧ Arc.Ioc (pred m) m key) ∨
        ∃ m ∈ members, h = .forward m ∧ Arc.Ioo n key m)) (lookupStep n key) s := by
  simp only [lookupStep, checkNodeState, Lib.Machine.alone_bind]
  refine alone_loadState ?_
  simp only [Prog.pure_eq, Lib.Machine.alone_ret, hs.running n hn, Lib.Machine.alone_bind]
  refine alone_getPredecessor (hs.unlocked n hn) ?_
  rw [hs.predecessor n hn]
  by_cases hb : inOwnRange (some (pred n)) key n = true
  · rw [if_pos hb]
    exact ⟨rfl, .inl ⟨n, hn, rfl, between_eq_ioc.1 hb⟩⟩
  rw [if_neg hb]
  simp only [getSuccessor, Prog.pure_eq, Lib.Machine.alone_bind]
  refine alone_getSuccessors ?_
  simp only [Lib.Machine.alone_ret, hs.successor n hn]
  have hgap := hs.succ_gap n hn
  have hmem : succ n ∈ members := hgap.right
  split_ifs with hb'
  · -- the node before its successor is its successor's predecessor
    have hpred : pred (succ n) = n := (hs.pred_gap _ hmem).pred_unique hgap
    exact ⟨rfl, .inl ⟨succ n, hmem, rfl, hpred.symm ▸ between_eq_ioc.1 hb'⟩⟩
  rw [Lib.Machine.alone_bind]
  refine (alone_closestPrecedingNode hn (hs.fingers n hn) maxFingerEntries).mono ?_
  rintro c s' ⟨rfl, hc, hlt⟩
  refine ⟨rfl, .inr ⟨_, ?_, rfl, ?_⟩⟩
  · split_ifs
    exacts [hmem, hc]
  · split_ifs with hcn
    · exact Lib.Arc.ioo_of_not_ioc (mt between_eq_ioc.2 hb')
    · exact hlt hcn

theorem alone_findSuccessor (hs : StableRing s members pred succ) :
    ∀ {rounds : ℕ} {n : NodeId}, n ∈ members → cwDistance n key ≤ rounds →
      (cluster K hash fuel).Alone ok t (fun r s' => s' = s ∧
        ∃ m ∈ members, r = .ok m ∧ Arc.Ioc (pred m) m key) (findSuccessor rounds n key) s
  | 0, n, hn, hd => by
    have := cwDistance_pos (hs.below n hn) key
    omega
  | rounds + 1, n, hn, hd => by
    rw [findSuccessor, Lib.Machine.alone_bind]
    refine (alone_lookupStep hs hn).mono ?_
    rintro h s' ⟨hss, ⟨m, hm, rfl, ho⟩ | ⟨m, hm, rfl, hc⟩⟩
    · exact ⟨hss, m, hm, rfl, ho⟩
    · rw [hss]
      have hlt := cwDistance_lt (hs.below n hn) (hs.below m hm) hc
      exact alone_findSuccessor hs hm (by omega)

/-- In a ring of true neighbours every lookup, from any member, for any key, ends at the one member
whose range holds the key; the ranges are disjoint and cover the circle. -/
theorem findSuccessor_stable (hs : StableRing s members pred succ) (hne : members.Nonempty) :
    (∀ n ∈ members, ∀ key < maxIdentifier, ∀ rounds ≥ maxIdentifier,
      ∃ m ∈ members, between (pred m) key m true = true ∧
        (∀ m' ∈ members, between (pred m') key m' true = true → m' = m) ∧
        (cluster K hash fuel).Alone ok t (fun r s' => r = .ok m ∧ s' = s)
          (findSuccessor rounds n key) s) ∧
    (∀ m ∈ members, ∀ m' ∈ members, m ≠ m' →
      ∀ id, ¬ (between (pred m) id m true = true ∧ between (pred m') id m' true = true)) ∧
    (∀ id, ∃ m ∈ members, between (pred m) id m true = true) := by
  simp only [between_eq_ioc]
  have hdisj : ∀ m ∈ members, ∀ m' ∈ members, ∀ id, Arc.Ioc (pred m) m id →
      Arc.Ioc (pred m') m' id → m' = m := fun m hm m' hm' id h h' =>
    (hs.pred_gap m' hm').eq_of_ioc (hs.pred_gap m hm) h' h
  have hcover : ∀ id, ∃ m ∈ members, Arc.Ioc (pred m) m id := fun id => by
    obtain ⟨p, m, hg, hid⟩ :=
      Lib.Arc.exists_gap members.finite_toSet (Finset.coe_nonempty.2 hne) id
    have hp := (hs.pred_gap m hg.right).pred_unique hg
    exact ⟨m, hg.right, hp.symm ▸ hid⟩
  refine ⟨fun n hn key hk rounds hr => ?_, fun m hm m' hm' hmm id h => ?_, hcover⟩
  · obtain ⟨m, hm, ho⟩ := hcover key
    refine ⟨m, hm, ho, fun m' hm' ho' => hdisj m hm m' hm' key ho ho', ?_⟩
    refine (alone_findSuccessor hs hn ((cwDistance_le hk).trans hr)).mono ?_
    rintro r s' ⟨rfl, m', hm', rfl, ho'⟩
    exact ⟨congrArg _ (hdisj m hm m' hm' key ho ho'), rfl⟩
  · exact hmm (hdisj m hm m' hm' id h.1 h.2).symm

end Stable

/-- Two nodes that know each other, and no fingers; every other node is about to join. -/
def twoNodesWith {K : Type} [KVProvider K] (kv : NodeId → K) : Shared K where
  node n :=
    { newLocalNode with
      state := if n = 7 ∨ n = 300 then ⟨2, .active⟩ else ⟨1, .joining⟩
      predecessor := some (if n = 7 then 300 else 7)
      successors := [if n = 7 then 300 else 7]
      kv := kv n }
  mailbox := []
  trace := []

theorem twoNodesWith_stable {K : Type} [KVProvider K] (kv : NodeId → K) :
    StableRing (twoNodesWith kv) {7, 300} (fun n => if n = 7 then 300 else 7)
      (fun n => if n = 7 then 300 else 7) where
  below := by decide
  running := by
    intro n hn
    simp only [Finset.mem_insert, Finset.mem_singleton] at hn
    rcases hn with rfl | rfl <;> rfl
  predecessor _ _ := rfl
  pred_gap := by
    intro n hn
    simp only [Finset.mem_insert, Finset.mem_singleton] at hn
    rcases hn with rfl | rfl <;> constructor <;> simp [Arc.Ioo]
  successor _ _ := rfl
  succ_gap := by
    intro n hn
    simp only [Finset.mem_insert, Finset.mem_singleton] at hn
    rcases hn with rfl | rfl <;> constructor <;> simp [Arc.Ioo]
  fingers := by simp [twoNodesWith, newLocalNode]
  unlocked _ _ := rfl

def twoNodes : Shared (MemoryKV fun _ => 0) := twoNodesWith fun _ => .withHashFn _

theorem twoNodes_stable : StableRing twoNodes {7, 300} (fun n => if n = 7 then 300 else 7)
    (fun n => if n = 7 then 300 else 7) := twoNodesWith_stable _

theorem findSuccessor_twoNodes :
    StableRing twoNodes {7, 300} (fun n => if n = 7 then 300 else 7)
      (fun n => if n = 7 then 300 else 7) ∧
    ∃ m ∈ ({7, 300} : Finset NodeId), between (if m = 7 then 300 else 7) 1000 m true = true ∧
      (cluster _ (fun _ => 0) 0).Alone (fun _ _ => True) 0 (fun r s' => r = .ok m ∧ s' = twoNodes)
        (findSuccessor maxIdentifier 300 1000) twoNodes := by
  refine ⟨twoNodes_stable, ?_⟩
  obtain ⟨m, hm, ho, -, h⟩ := (findSuccessor_stable twoNodes_stable (by simp)).1 300 (by simp) 1000
    (by decide) maxIdentifier le_rfl
  exact ⟨m, hm, ho, h⟩

end Specter
