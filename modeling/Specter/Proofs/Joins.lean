import Specter.Proofs.Accepting

/-!
# Concurrent joins keep the keys consistent

What a Join does once it is accepted, what Create does, and from all the programs together: every
key has at most one owner, and what is read is what was last written.
-/

namespace Specter

open Lib (Prog Rules Arc.Ioo Arc.Ioc Arc.Gap)
open Contract

section Programs

variable {K : Type} [KVProvider K] {hash : Bytes → ℕ} {n₀ : NodeId} {fuel t : ℕ} {tasks : List Task}
  {P : View K → Prop} {n : NodeId} [LawfulProvider K hash] (rounds : ℕ) {s s₀ : Shared K} {τ : Task}

section Members

variable {x p : NodeId} {v : View K}

omit [LawfulProvider K hash]

/-- The new member knows its predecessor. -/
def Lodged (t : ℕ) (x p : NodeId) (v : View K) : Prop :=
  Admitted t x p v ∧ v.predecessor x = some p

omit [KVProvider K] in
theorem Lodged.noted (h : Lodged t x p v) : v.Noted x :=
  ⟨h.1.gap.right, by rw [h.2]; simp⟩

theorem lasting_lodged : Lasting (growing K hash tasks n₀) t (Lodged (K := K) t x p) where
  stays v v' h hv := ⟨stays_admitted v v' h hv.1,
    h.settled (by rw [hv.1.joining]; simp) hv.2 hv.1.gap⟩
  successors _ _ _ h := ⟨{ h.1 with }, h.2⟩
  notified v n c hun h := by
    refine ⟨{ h.1 with noted := update_ne_none _ h.1.noted }, ?_⟩
    have hxn : x ≠ n := fun hxn => hun p (hxn ▸ h.2) (hxn ▸ h.1.gap)
    exact (Function.update_of_ne hxn _ _).trans h.2

/-- The successor waits to be released. -/
def Waited (t : ℕ) (x n : NodeId) (v : View K) : Prop :=
  Sponsored t x n v ∧ (v.mutex n .surrogateMu).writer ≠ some t

theorem lasting_waited : Lasting (growing K hash tasks n₀) t (Waited (K := K) t x n) where
  stays := stays_sponsored.and (stays_unlocked n _)
  successors _ _ _ h := ⟨{ h.1 with }, h.2⟩
  notified v m c hun h := by
    refine ⟨{ h.1 with pred := ?_ }, h.2⟩
    have hnm : n ≠ m := fun hnm => hun x (hnm ▸ h.1.pred) (hnm ▸ h.1.gap)
    exact (Function.update_of_ne hnm _ _).trans h.1.pred

theorem Lasting.and {Q : View K → Prop} (hP : Lasting (growing K hash tasks n₀) t P)
    (hQ : Lasting (growing K hash tasks n₀) t Q) :
    Lasting (growing K hash tasks n₀) t fun v => P v ∧ Q v where
  stays := hP.stays.and hQ.stays
  successors v n l h := ⟨hP.successors v n l h.1, hQ.successors v n l h.2⟩
  notified v n c hun h := ⟨hP.notified v n c hun h.1, hQ.notified v n c hun h.2⟩

theorem lasting_noted (n : NodeId) : Lasting (growing K hash tasks n₀) t (View.Noted · n) where
  stays _ _ h hv := ⟨h.grows hv.1, h.noted hv.2⟩
  successors _ _ _ h := h
  notified _ _ _ _ h := ⟨h.1, update_ne_none _ h.2⟩

theorem triple_finishJoin_update (hP : Lasting (growing K hash tasks n₀) t P) {m : NodeId}
    (hm : ∀ v, P v → v.Noted m) (rounds : ℕ) :
    (growing K hash tasks n₀).Triple hash fuel t P (finishJoin rounds m true false) fun _ => P :=
  .bind (triple_updatePointers hP.stays.stable (hP.keeps_routing hm) (triple_notify hP hm) rounds)
    fun _ => .same hP.stays.stable

theorem pre_periodic (hτ : τ = .periodicStabilize n ∨ τ = .periodicPredecessorCheck n ∨
    τ = .periodicFixFingers n) (h : (view ∅ s).Noted n) :
    ((growing K hash tasks n₀).rules hash fuel).pre τ s := by
  rcases hτ with rfl | rfl | rfl <;> exact ⟨rfl, h⟩

section

variable (hi : Sound hash n₀ v) (hh : HeldOk v)

include hi hh

theorem become_active (h : Lodged t x p v) :
    Sound hash n₀ (v.swap t x .active) ∧ Respects hash t v (v.swap t x .active) := by
  have hst := hh.state h.1.joining
  have hmov : ¬ v.Moving x := by
    rintro (⟨hm, -⟩ | ⟨t', ht', -⟩)
    · exact hm h.1.gap.right
    · have := (hh.state ht').symm.trans hst
      cases this
  refine ⟨hi.swap (fun _ => rfl) (fun _ => h.1.gap.right) (fun _ _ => ⟨p, h.2, h.1.gap⟩)
    (fun _ q hq => ?_) fun _ => hi.rows x hmov, .swap fun ha => ?_⟩
  · obtain rfl : p = q := by simpa [h.2] using hq
    exact h.1.noted
  · rw [hst] at ha
    cases ha

theorem release_successor (h : Waited t x n v) (hx : v.predecessor x ≠ none) :
    Sound hash n₀ (v.swap t n .active) ∧ Respects hash t v (v.swap t n .active) := by
  have hmov : ¬ v.Moving n := by
    rintro (⟨hm, -⟩ | ⟨t', ht', hw⟩)
    · exact hm h.1.gap.right
    · obtain rfl : _ = t := hh.unique (by rw [ht']; simp) (by rw [h.1.taken]; simp)
      exact h.2 hw
  refine ⟨hi.swap (fun _ => rfl) (fun _ => h.1.gap.right) (fun _ _ => ⟨x, h.1.pred, h.1.gap⟩)
    (fun _ q hq => ?_) fun _ => hi.rows n hmov, .swap fun ha => ?_⟩
  · obtain rfl : x = q := by simpa [h.1.pred] using hq
    exact hx
  · rw [hh.state h.1.taken] at ha
    cases ha

theorem give_up (h : Waiting t x v) :
    Sound hash n₀ (v.swap t x .inactive) ∧ Respects hash t v (v.swap t x .inactive) := by
  refine ⟨hi.swap (fun hm => absurd hm h.notMem) nofun (fun hm => absurd hm h.notMem) nofun
    fun _ k => ⟨fun ho => absurd ho.mem h.notMem, fun _ => h.empty k⟩, .swap fun ha => ?_⟩
  exact absurd ha (hh.not_active (by rw [h.joining]; simp))

theorem start_joining (hnone : ∀ m, v.held t m = none) (hst : v.state x = .inactive) :
    Sound hash n₀ (v.swap t x .joining) ∧ Respects hash t v (v.swap t x .joining) ∧
      Waiting t x (v.swap t x .joining) := by
  have hm : x ∉ v.members := fun hm => by
    have := hi.alive x hm
    rw [hst] at this
    cases this
  have hmov : ¬ v.Moving x := by
    rintro (⟨-, hj⟩ | ⟨t', ht', -⟩)
    · rw [hst] at hj
      cases hj
    · have := (hh.state ht').symm.trans hst
      cases this
  refine ⟨hi.swap (fun _ => rfl) nofun (fun _ h => absurd rfl h) nofun
    fun h => absurd (.inl ⟨hm, swap_state_self⟩) h, .swap fun ha => ?_,
    swap_held_self rfl, fun m hheld => ?_, hm, fun k => (hi.rows x hmov k).2 fun ho => hm ho.mem⟩
  · rw [hst] at ha
    cases ha
  · by_cases hmx : m = x
    · rw [hmx, swap_held_self rfl] at hheld
      cases hheld
    · rw [swap_held_ne hmx, hnone] at hheld
      cases hheld

end

theorem triple_joined {succs : List NodeId} (hhead : succs.head? = some n) :
    (growing K hash tasks n₀).Triple hash fuel t
      (fun v => Joined t x n p v ∧ (v.mutex n .surrogateMu).writer ≠ some t) (do
        setSuccessors x succs
        setPredecessor x (some p)
        startTasks rounds x
        let _ ← finishJoin rounds p true false
        setState rounds x .active .join
        match succs with
        | [] => return (.ok () : Except ChordError Unit)
        | succ :: _ =>
          let _ ← finishJoin rounds succ false true
          return .ok ()) fun _ _ => True := by
  have hjoined : (growing K hash tasks n₀).Stays t fun v : View K =>
      Joined t x n p v ∧ (v.mutex n .surrogateMu).writer ≠ some t :=
    stays_joined.and (stays_unlocked n _)
  have hlodged : Lasting (growing K hash tasks n₀) t fun v : View K =>
      Lodged t x p v ∧ Waited t x n v :=
    lasting_lodged.and lasting_waited
  refine .bind (triple_step (a := .setSuccessors x succs) hjoined (fun _ => hjoined)
    fun s l r s' hi _ hv _ he => ?_) fun (_ : Unit) => ?_
  · rw [view_setSuccessors he]
    exact ⟨{ hi with }, .setSuccessors (.inr (by rw [hv.1.1.joining]; simp)) succs,
      ⟨{ hv.1.1 with }, { hv.1.2 with }⟩, hv.2⟩
  refine .bind (triple_step (a := .setPredecessor x (some p)) hjoined (fun _ => hlodged.stays)
    fun s l r s' hi hk hv _ he => ?_) fun (_ : Unit) => ?_
  · obtain ⟨hl, hview⟩ := view_setPredecessor he
    simp only [RWMutex.canLock, Bool.and_eq_true, List.isEmpty_iff] at hl
    have hst := (hk.heldOk ∅).state hv.1.1.joining
    rw [hview]
    refine ⟨hi.setPredecessor hv.1.1.gap.left (fun _ hj => absurd hst hj) fun ha => ?_,
      .setPredecessor hl.2 (fun q _ hg => .inl (hv.1.1.gap.pred_unique hg))
        fun _ => .inr (by rw [hv.1.1.joining]; simp),
      ⟨{ hv.1.1 with noted := update_ne_none _ hv.1.1.noted }, by simp⟩,
      { hv.1.2 with pred := ?_ }, hv.2⟩
    · rw [hst] at ha
      cases ha
    · exact (Function.update_of_ne hv.1.ne _ _).trans hv.1.2.pred
  have hx : ∀ v : View K, Lodged t x p v ∧ Waited t x n v → v.Noted x := fun _ h => h.1.noted
  refine .bind (triple_startTasks hlodged.stays.stable (hlodged.keeps_routing hx)
    (triple_notify hlodged hx) rounds fun τ hτ s _ h => pre_periodic hτ (hx _ h))
    fun (_ : Unit) => ?_
  refine .bind (triple_finishJoin_update hlodged (fun v h => ⟨h.1.1.gap.left, h.1.1.noted⟩) rounds)
    fun (_ : Except ChordError Unit) => ?_
  have hdone : (growing K hash tasks n₀).Stays t fun v : View K =>
      v.predecessor x ≠ none ∧ Waited t x n v :=
    Stays.and (fun _ _ h hv => h.noted hv) lasting_waited.stays
  refine .bind (triple_setState hlodged.stays hdone (fun v hi hh hv => ?_) rounds)
    fun (_ : Unit) => ?_
  · obtain ⟨h1, h2⟩ := become_active hi hh hv.1
    refine ⟨h1, h2, hv.1.noted.2, { hv.2.1 with taken := ?_ }, hv.2.2⟩
    have hne : n ≠ x := Joined.ne ⟨hv.1.1, hv.2.1⟩
    exact (swap_held_ne hne t).trans hv.2.1.taken
  have hret : ∀ res : Except ChordError Unit, (growing K hash tasks n₀).Triple hash fuel t
      (fun _ => True) (.ret res) fun _ _ => True := fun _ => .ret (.const _) fun _ _ _ => trivial
  split
  · simp at hhead
  · obtain rfl : _ = n := by simpa using hhead
    refine .bind (Q := fun _ _ => True) ?_ fun _ => hret _
    change ((growing K hash tasks n₀).rules hash fuel).Triple t _ (releaseLock .finishJoin _ _) _
    refine .bind (triple_transition hdone (Q := fun _ => True) (Stays.const _)
      fun v hi hh hv _ => ?_) fun b => ?_
    · obtain ⟨h1, h2⟩ := release_successor hi hh hv.2 hv.1
      exact ⟨h1, h2, trivial⟩
    · split_ifs
      all_goals exact .pre (hret _) fun _ _ _ => trivial

end Members

theorem triple_join (x peer : NodeId) :
    (growing K hash tasks n₀).Triple hash fuel t (fun v => ∀ m, v.held t m = none)
      (join rounds x peer) fun _ _ => True := by
  have hnone : (growing K hash tasks n₀).Stays t fun v : View K => ∀ m, v.held t m = none :=
    fun _ _ h hv m => by rw [h.held]; exact hv m
  have hret : ∀ res : Except ChordError Unit, (growing K hash tasks n₀).Triple hash fuel t
      (fun _ => True) (.ret res) fun _ _ => True := fun _ => .ret (.const _) fun _ _ _ => trivial
  refine .bind (triple_transition hnone (stays_waiting x)
    fun v hi hh hv hst => start_joining hi hh hv hst) fun b => ?_
  cases b with
  | false => exact .pre (hret _) fun _ _ _ => trivial
  | true =>
    have hattempts : (growing K hash tasks n₀).Triple hash fuel t (Waiting t x)
        (retry errorIsRetryable (requestToJoin rounds rounds peer x) (maxAttempts - 1))
        (Replied t x) := by
      refine (triple_retry (Q := fun y s => Replied t x (.ok y) (view ∅ s)) (stays_waiting x).stable
        (fun y => (stays_replied (.ok y)).stable)
        ((triple_requestToJoin rounds x rounds peer).post ?_) _).post ?_
      all_goals
        rintro (e | y) s h <;> exact h
    refine .bind hattempts fun res => ?_
    rcases res with e | ⟨p, succs⟩
    · refine .bind (triple_setState (P := Waiting t x) (stays_waiting x) (Q := fun _ => True)
        (Stays.const _) (fun v hi hh hv => ?_) rounds) fun (_ : Unit) => hret _
      obtain ⟨h1, h2⟩ := give_up hi hh hv
      exact ⟨h1, h2, trivial⟩
    · exact .ex fun n => .assume fun hhead => triple_joined rounds hhead

section Create

omit [LawfulProvider K hash]

/-- The node that creates the ring is its only member and has no predecessor yet. -/
structure Founding (t : ℕ) (n₀ : NodeId) (v : View K) : Prop where
  joining : v.held t n₀ = some .joining
  members : v.members = {n₀}
  pred : v.predecessor n₀ = none

/-- And it is its own successor. -/
def Founded (t : ℕ) (n₀ : NodeId) (v : View K) : Prop :=
  Founding t n₀ v ∧ v.successors n₀ = [n₀]

omit [KVProvider K] in
theorem Founding.mem {v : View K} (h : Founding t n₀ v) : n₀ ∈ v.members := by
  rw [h.members]
  rfl

theorem stays_founding : (growing K hash tasks n₀).Stays t (Founding (K := K) t n₀) := by
  intro v v' h hv
  have hn : v.held t n₀ ≠ none := by rw [hv.joining]; simp
  obtain ⟨t', hne, hr⟩ := h.respects
  have hfree := h.not_held hn hne
  have hmembers : v'.members = {n₀} := by
    refine Set.Subset.antisymm (fun m hm => ?_) ?_
    · rw [← hv.members]
      by_contra hm'
      rcases (hr.joins m hm hm').2 with he | ⟨n, hmem, ht'⟩
      · rw [hv.members] at he
        exact absurd he (Set.singleton_ne_empty n₀)
      · rw [hv.members, Set.mem_singleton_iff] at hmem
        rw [hmem, hfree] at ht'
        cases ht'
    · rw [← hv.members]
      exact h.grows
  refine ⟨by rw [h.held, hv.joining], hmembers, ?_⟩
  rcases hp : v'.predecessor n₀ with _ | c
  · rfl
  · have hc := h.sound'.preds n₀ c hp
    rw [hmembers, Set.mem_singleton_iff] at hc
    subst hc
    rcases hr.first c c hv.pred hp with h' | h'
    · exact absurd hv.pred h'
    · exact absurd hfree h'

theorem stays_founded : (growing K hash tasks n₀).Stays t (Founded (K := K) t n₀) := by
  rintro v v' h ⟨hv, hs⟩
  refine ⟨stays_founding v v' h hv, ?_⟩
  have hn : v.held t n₀ ≠ none := by rw [hv.joining]; simp
  obtain ⟨t', hne, hr⟩ := h.respects
  rw [← hs]
  by_contra hs'
  rcases hr.successors n₀ hs' with h' | h'
  · exact h' hv.pred
  · exact h' (h.not_held hn hne)

theorem triple_founder_predecessor :
    (growing K hash tasks n₀).Triple hash fuel t (Founded t n₀) (getPredecessor n₀)
      fun r v => r = none ∧ Founded t n₀ v := by
  refine triple_read (a := .getPredecessor n₀) rfl stays_founded
    (Q := fun r v => r = none ∧ Founded t n₀ v) (fun _ => (Stays.const _).and stays_founded)
    fun s l r s' _ _ hv _ he => ?_
  simp only [exec] at he
  split_ifs at he
  cases he
  exact ⟨hv.1.pred, hv⟩

theorem triple_founder_successors :
    (growing K hash tasks n₀).Triple hash fuel t (Founded t n₀) (getSuccessors n₀)
      fun r v => r = [n₀] ∧ Founded t n₀ v := by
  refine triple_read (a := .getSuccessors n₀) rfl stays_founded
    (Q := fun r v => r = [n₀] ∧ Founded t n₀ v) (fun _ => (Stays.const _).and stays_founded)
    fun s l r s' _ _ hv _ he => ?_
  cases he
  exact ⟨hv.2, hv⟩

theorem triple_founder_state (b : Bool) :
    (growing K hash tasks n₀).Triple hash fuel t (Founded t n₀) (checkNodeState n₀ b)
      fun e v => e = none ∧ Founded t n₀ v :=
  triple_checkNodeState stays_founded (fun _ h => h.1.mem) b

theorem triple_founder_probe :
    (growing K hash tasks n₀).Triple hash fuel t (Founded t n₀) (probeSuccessors n₀ [n₀])
      fun r v => r = some [n₀] ∧ Founded t n₀ v := by
  refine .bind (Q := fun r s => r = .ok none ∧ Founded t n₀ (view ∅ s)) ?_
    fun newSucc => .assume fun hs => ?_
  · refine .bind (triple_founder_state false) fun e => .assume fun he => ?_
    subst he
    refine .bind triple_founder_predecessor fun r => .assume fun hr => ?_
    subst hr
    exact .ret ((Stays.const _).and stays_founded).stable fun _ _ h => ⟨rfl, h⟩
  subst hs
  refine .bind (Q := fun r s => r = .ok [n₀] ∧ Founded t n₀ (view ∅ s)) ?_
    fun newSuccList => .assume fun hs => ?_
  · refine .bind (triple_founder_state false) fun e => .assume fun he => ?_
    subst he
    refine .bind triple_founder_successors fun r => .assume fun hr => ?_
    subst hr
    exact .ret ((Stays.const _).and stays_founded).stable fun _ _ h => ⟨rfl, h⟩
  subst hs
  refine .ret ((Stays.const _).and stays_founded).stable fun _ _ h => ⟨?_, h⟩
  simp [makeSuccListByID, makeSuccListByID.go, extendedSuccessorEntries]

theorem triple_founder_notify :
    (growing K hash tasks n₀).Triple hash fuel t (Founded t n₀) (notify n₀ n₀)
      fun _ => Lodged t n₀ n₀ := by
  refine .bind (triple_founder_state false) fun e => .assume fun he => ?_
  subst he
  refine .bind (triple_reading stays_founded (.perform rfl))
    fun (x : Option NodeId) => ?_
  refine .bind triple_founder_predecessor fun r => .assume fun hr => ?_
  subst hr
  refine .bind (Q := fun r s => r = some n₀ ∧ Founded t n₀ (view ∅ s))
    (.ret ((Stays.const _).and stays_founded).stable fun _ _ h => ⟨rfl, h⟩)
    fun c => .assume fun hc => ?_
  subst hc
  refine .bind (triple_reading stays_founded (.perform rfl)) fun (_ : Unit) => ?_
  refine .bind (triple_step (a := .casPredecessor n₀ none (some n₀)) stays_founded
    (fun _ => lasting_lodged.stays) fun s l r s' hi hk hv _ he => ?_) fun (_ : Unit) =>
    .same lasting_lodged.stays.stable
  obtain ⟨hl, ⟨hne, -⟩ | ⟨-, hview⟩⟩ := view_casPredecessor he
  · exact absurd hv.1.pred (hne rfl)
  simp only [RWMutex.canLock, Bool.and_eq_true, List.isEmpty_iff] at hl
  have hst := (hk.heldOk ∅).state hv.1.joining
  have hgap : Arc.Gap (view ∅ s).members n₀ n₀ := by
    rw [hv.1.members]
    exact .singleton n₀
  rw [hview]
  refine ⟨hi.setPredecessor hv.1.mem (fun _ _ => hgap) fun ha => ?_,
    .setPredecessor hl.2 (fun p hp _ => ?_) fun _ => .inr (by rw [hv.1.joining]; simp),
    ⟨hv.1.joining, hgap, by simp⟩, by simp⟩
  · rw [hst] at ha
    cases ha
  · rw [hv.1.pred] at hp
    cases hp

theorem triple_founder_stabilize :
    (growing K hash tasks n₀).Triple hash fuel t (Founded t n₀) (stabilize n₀)
      fun _ => Lodged t n₀ n₀ := by
  refine .bind triple_founder_successors fun l => .assume fun hl => ?_
  subst hl
  refine .bind triple_founder_probe fun r => .assume fun hr => ?_
  subst hr
  refine .bind (Q := fun _ s => Founded t n₀ (view ∅ s)) ?_ fun (_ : Unit) => ?_
  · refine .bind (triple_reading stays_founded (.perform rfl))
      fun (h : Option (List NodeId)) => ?_
    split_ifs
    · exact .same stays_founded.stable
    · refine triple_step (a := .setSuccessors n₀ [n₀]) stays_founded
        (Q := fun _ v => Founded t n₀ v) (fun _ => stays_founded) fun s l r s' hi _ hv _ he => ?_
      rw [view_setSuccessors he]
      exact ⟨{ hi with }, .setSuccessors (.inr (by rw [hv.1.joining]; simp)) _,
        { hv.1 with }, by simp⟩
  refine .bind (triple_founder_state true) fun e => .assume fun he => ?_
  subst he
  refine .bind triple_founder_notify fun res => ?_
  split <;> exact .same lasting_lodged.stays.stable

theorem triple_create :
    (growing K hash tasks n₀).Triple hash fuel t (fun _ => True) (create rounds n₀)
      fun _ _ => True := by
  have hret : ∀ res : Except ChordError Unit, (growing K hash tasks n₀).Triple hash fuel t
      (fun _ => True) (.ret res) fun _ _ => True := fun _ => .ret (.const _) fun _ _ _ => trivial
  refine .bind (triple_transition (P := fun _ => True) (Stays.const _) (Q := Founding t n₀)
    stays_founding fun v hi hh _ hst => ?_) fun b => ?_
  · obtain ⟨hempty, h1, h2⟩ := hi.create (t := t) hh hst
    refine ⟨h1, h2, swap_held_self rfl, ?_, ?_⟩
    · simp [swapped, hempty]
    · rcases hp : v.predecessor n₀ with _ | p
      · exact hp
      · exact absurd (hi.preds n₀ p hp) (by rw [hempty]; simp)
  cases b with
  | false => exact hret _
  | true =>
    refine .bind (Q := fun _ s => Founded t n₀ (view ∅ s)) ?_ fun (_ : Unit) => ?_
    · refine triple_step (a := .setSuccessors n₀ _) stays_founding
        (Q := fun _ v => Founded t n₀ v) (fun _ => stays_founded) fun s l r s' hi _ hv _ he => ?_
      rw [view_setSuccessors he]
      exact ⟨{ hi with }, .setSuccessors (.inr (by rw [hv.joining]; simp)) _,
        { hv with }, by simp [makeSuccListByID, makeSuccListByID.go]⟩
    refine .bind (triple_reading stays_founded (only_setFingers (fun _ _ => rfl) n₀ _))
      fun (_ : Unit) => ?_
    have hlodged : Lasting (growing K hash tasks n₀) t (Lodged t n₀ n₀) := lasting_lodged
    have hn : ∀ v : View K, Lodged t n₀ n₀ v → v.Noted n₀ := fun _ h => h.noted
    have hstart : ∀ τ, (τ = .periodicStabilize n₀ ∨ τ = .periodicPredecessorCheck n₀ ∨
        τ = .periodicFixFingers n₀) → (growing K hash tasks n₀).Triple hash fuel t (Lodged t n₀ n₀)
          (Prog.start (S := chordSig) τ) fun _ => Lodged t n₀ n₀ := fun τ hτ =>
      .start hlodged.stays.stable fun _ _ h => pre_periodic hτ (hn _ h)
    refine .bind (Q := fun _ s => Lodged t n₀ n₀ (view ∅ s)) ?_ fun (_ : Unit) => ?_
    · refine .bind triple_founder_stabilize fun _ => ?_
      refine .bind (triple_fixFinger hlodged.stays.stable (hlodged.keeps_routing hn) rounds)
        fun (_ : Unit) => ?_
      refine .bind (hstart _ (.inl rfl)) fun (_ : Unit) => ?_
      refine .bind (hstart _ (.inr (.inl rfl))) fun (_ : Unit) => ?_
      exact hstart _ (.inr (.inr rfl))
    refine .bind (triple_setState hlodged.stays (Q := fun _ => True) (Stays.const _)
      (fun v hi hh hv => ?_) rounds) fun (_ : Unit) => hret _
    have hmem : insert n₀ v.members = v.members := Set.insert_eq_of_mem hv.1.gap.right
    obtain ⟨h1, h2⟩ := become_active hi hh hv
    rw [swapped, if_pos rfl, hmem]
    exact ⟨h1, h2, trivial⟩

end Create

omit [LawfulProvider K hash] in
theorem growing_closed : ((growing K hash tasks n₀).rules hash fuel).Closed where
  stable _ := .const _
  safe τ t := by
    have hlast : Lasting (growing K hash tasks n₀) t (View.Noted · τ.node) := lasting_noted τ.node
    refine .pre (P := fun s => τ.isPeriodic = true ∧ (view ∅ s).Noted τ.node) ?_ fun _ _ h => h.1
    refine .assume fun hτ => .post (triple_periodicTask hlast.stays.stable
      (hlast.keeps_routing fun _ h => h) hτ (triple_notify hlast fun _ h => h)
      (triple_checkPredecessor hlast.stays τ.node) fun _ _ h => ⟨hτ, h⟩) fun _ _ _ => trivial

structure NewRing (s : Shared K) : Prop where
  trace : s.trace = []
  node : ∀ n, s.node n = newLocalNode

omit [LawfulProvider K hash] in
theorem NewRing.atRest (h : NewRing s) : AtRest s where
  trace := h.trace
  free n := by
    rw [h.node]
    rfl

theorem NewRing.sound (h : NewRing s) : Sound hash n₀ (view ∅ s) := by
  have hstate : ∀ n, (view ∅ s).state n = .inactive := fun n => by simp [view, h.node, newLocalNode]
  have hpred : ∀ n, (view ∅ s).predecessor n = none := fun n => by simp [view, h.node, newLocalNode]
  have hmembers : (view ∅ s).members = ∅ := by simp [view, h.trace, members]
  have hnone : ∀ n, n ∉ (view ∅ s).members := fun n hn => by rwa [hmembers] at hn
  refine ⟨fun n mu hw => absurd ?_ hw, fun hne => absurd hmembers hne.ne_empty,
    fun n hn => absurd hn (hnone n), fun n hn => ?_, fun n p hp => ?_,
    fun n hn => absurd hn (hnone n), fun n p hn => ?_,
    fun n _ k => ⟨fun ho => absurd ho.mem (hnone n), fun _ => ?_⟩, fun _ k => ?_, ?_⟩
  · cases mu <;> simp [view, h.node, newLocalNode, Node.mutex, RWMutex.unlocked]
  · rw [hstate] at hn
    simp at hn
  · rw [hpred] at hp
    cases hp
  · rw [hstate] at hn
    cases hn
  · simp only [view, h.node]
    exact @LawfulProvider.val_empty K _ hash _ k
  · simp [view, h.trace, history]
  · simp [view, h.trace, Linear]

theorem triple_body (hτ : τ = .create n₀ ∨ (∃ n peer, τ = .join n peer) ∨ ∃ n r, τ = .request n r)
    (hs : NewRing s₀) :
    ((growing K hash tasks n₀).rules hash fuel).Safe t (fun _ _ => True) (body hash fuel τ) s₀ := by
  have hret : ∀ u : Unit, (growing K hash tasks n₀).Triple hash fuel t (fun _ => True) (.ret u)
      fun _ _ => True := fun _ => .ret (.const _) fun _ _ _ => trivial
  obtain rfl | ⟨n, peer, rfl⟩ | ⟨n, r, rfl⟩ := hτ
  · exact Rules.Triple.bind (triple_create fuel) (fun _ => hret _) s₀ hs.sound trivial
  · refine Rules.Triple.bind (triple_join fuel n peer) (fun _ => hret _) s₀ hs.sound fun m => ?_
    simp [view, hs.trace, held, lastSwap]
  · refine Rules.Triple.bind (triple_kvMiddleware fuel fuel n r fun _ _ => 0)
      (fun _ => .pre (hret _) fun _ _ _ => trivial) s₀ hs.sound fun n mu => ?_
    cases mu <;> simp [view, hs.node, newLocalNode, Node.mutex, RWMutex.unlocked]

theorem sound_run (hs : NewRing s₀)
    (htasks : ∀ τ ∈ tasks, τ = .create n₀ ∨ (∃ n peer, τ = .join n peer) ∨ ∃ n r, τ = .request n r)
    {sched : List (ℕ × Fault)} (hok : ∀ x ∈ sched, x.2.fails = false)
    {c : Lib.Config chordSig (Shared K)}
    (hrun : (cluster K hash fuel).run sched ((cluster K hash fuel).launch tasks s₀) = some c) :
    Sound hash n₀ (view ∅ c.shared) := by
  have hans : ∀ τ ∈ tasks, τ.isAnswered = true := fun τ hτ => by
    obtain rfl | ⟨n, peer, rfl⟩ | ⟨n, r, rfl⟩ := htasks τ hτ <;> rfl
  have hleave : ∀ n, Task.leave n ∈ tasks →
      (answered (K := K) tasks fun _ _ _ => True).NeverSkips := fun n hn => by
    obtain h | ⟨m, peer, h⟩ | ⟨m, r, h⟩ := htasks _ hn <;> cases h
  have hgood : ((answered tasks fun _ _ _ => True).rules hash fuel).Good
      ((cluster K hash fuel).launch tasks s₀) := answered_launch hs.atRest hans hleave
  have hfollows := (Rules.follows_of_run (R := (answered tasks fun _ _ _ => True).rules hash fuel)
    (φ := fun _ => True) (fun _ _ => ⟨trivial, trivial⟩) (fun _ _ => trivial) hrun trivial).2
  have hlaunch : ((growing K hash tasks n₀).rules hash fuel).Good
      ((cluster K hash fuel).launch tasks s₀) := Rules.good_launch hs.sound (fun _ _ => trivial)
    fun t τ hτ => triple_body (htasks τ (List.mem_of_getElem? hτ)) hs
  exact (Contract.good_run answered_closed growing_closed hok hgood hfollows hlaunch hrun).1

end Programs

/-- The node would serve a request for this position of the circle from its own store. -/
def Serves {K : Type} (s : Shared K) (n : NodeId) (id : ℕ) : Prop :=
  (s.node n).state.state = .active ∧
    target n (s.node n).surrogate (s.node n).predecessor id = .localStore

/-- In every state that one Create, any Joins and any KV requests reach, interleaved with the
maintenance and with no failing calls: at most one node would serve a key, and every Get was
answered with what the latest Put or Delete of its key left, whichever nodes served them. -/
theorem joins_keep_keys_consistent {K : Type} [KVProvider K] (hash : Bytes → ℕ)
    [LawfulProvider K hash] (fuel : ℕ) (n₀ : NodeId) {tasks : List Task}
    (htasks : ∀ τ ∈ tasks, τ = .create n₀ ∨ (∃ n peer, τ = .join n peer) ∨ ∃ n r, τ = .request n r)
    {s₀ : Shared K} (hs : NewRing s₀) {sched : List (ℕ × Fault)}
    (hok : ∀ x ∈ sched, x.2.fails = false) {c : Lib.Config chordSig (Shared K)}
    (hrun : (cluster K hash fuel).run sched ((cluster K hash fuel).launch tasks s₀) = some c) :
    (∀ id n m, Serves c.shared n id → Serves c.shared m id → n = m) ∧
    ∀ later t n k res earlier,
      c.shared.trace = later ++ .handled t n (.get k) res :: earlier →
      res = .ok (.value (lastWritten k earlier)) := by
  have hsound := sound_run hs htasks hok hrun
  refine ⟨fun id n m hn hm => (hsound.owns hn.1 hn.2).unique (hsound.owns hm.1 hm.2),
    fun later t n k res earlier htrace => ?_⟩
  have hlin : Linear c.shared.trace := hsound.linear
  rw [htrace] at hlin
  rw [hlin.of_append, ← history_simple]
  rfl

def newRing : Shared (MemoryKV fun _ => 50) := ⟨fun _ => newLocalNode, [], []⟩

/-- Node 7 creates a ring and stores a key, which a join moves to node 300 and is read there. -/
theorem joins_keep_keys_consistent_moved : ∃ c earlier,
    (cluster _ (fun _ => 50) 5).run (List.replicate 213 (0, .ok) ++ List.replicate 10 (1, .ok) ++
        List.replicate 397 (2, .ok) ++ List.replicate 13 (3, .ok))
      ((cluster _ (fun _ => 50) 5).launch [.create 7, .request 7 (.put [1] (some [2])),
        .join 300 7, .request 7 (.get [1])] newRing) = some c ∧
    c.shared.trace = .handled 3 300 (.get [1]) (.ok (.value (some [2]))) :: earlier ∧
    .handled 1 7 (.put [1] (some [2])) (.ok .done) ∈ earlier ∧
    Serves c.shared 300 50 ∧ (∀ n, Serves c.shared n 50 → n = 300) ∧
    lastWritten [1] earlier = some [2] := by
  have hend : ((cluster _ (fun _ => 50) 5).run (List.replicate 213 (0, .ok) ++
        List.replicate 10 (1, .ok) ++ List.replicate 397 (2, .ok) ++ List.replicate 13 (3, .ok))
      ((cluster _ (fun _ => 50) 5).launch [.create 7, .request 7 (.put [1] (some [2])),
        .join 300 7, .request 7 (.get [1])] newRing)).map (fun c => (c.shared.trace,
          (c.shared.node 300).state.state, target 300 (c.shared.node 300).surrogate
            (c.shared.node 300).predecessor 50)) =
      some ([.handled 3 300 (.get [1]) (.ok (.value (some [2]))),
        .swapped 2 7 .transition .finishJoin .transferring .active,
        .swapped 2 300 .set .join .joining .active, .accepted 2 7 300,
        .imported 2 300 [[1]] [⟨some [2], [], 0⟩],
        .swapped 2 7 .transition .requestToJoin .active .transferring,
        .swapped 2 300 .transition .join .inactive .joining,
        .handled 1 7 (.put [1] (some [2])) (.ok .done),
        .swapped 0 7 .set .create .joining .active,
        .swapped 0 7 .transition .create .inactive .joining], .active, .localStore) := by
    decide +kernel
  obtain ⟨c, hrun, hc⟩ := Option.map_eq_some_iff.1 hend
  simp only [Prod.mk.injEq] at hc
  obtain ⟨htrace, hactive, hlocal⟩ := hc
  have hnew : NewRing newRing := ⟨rfl, fun _ => rfl⟩
  have hok : ∀ x ∈ List.replicate 213 (0, Fault.ok) ++ List.replicate 10 (1, .ok) ++
      List.replicate 397 (2, .ok) ++ List.replicate 13 (3, .ok), x.2.fails = false := by
    intro x hx
    simp only [List.mem_append, List.mem_replicate] at hx
    obtain ((⟨-, rfl⟩ | ⟨-, rfl⟩) | ⟨-, rfl⟩) | ⟨-, rfl⟩ := hx <;> rfl
  obtain ⟨hone, hget⟩ := joins_keep_keys_consistent (fun _ => 50) 5 7 (by simp) hnew hok hrun
  refine ⟨c, _, hrun, htrace, by simp, ⟨hactive, hlocal⟩,
    fun n hn => hone 50 n 300 hn ⟨hactive, hlocal⟩, ?_⟩
  have := hget [] _ _ _ _ _ htrace
  simpa using this.symm

end Specter
