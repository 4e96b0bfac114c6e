import Specter.Proofs.Ownership

/-!
# Every membership lock has one owner

The runs of Create, Join, Leave, the periodic tasks and KV requests, each followed through its
program: what it holds of the state words at every point, and that it ends holding nothing.
-/

namespace Specter

open Lib (Prog Rules)

section Rules

variable {K : Type} [KVProvider K] {hash : Bytes → ℕ} {fuel t : ℕ} {C : Policy K}
  (L : NodeId → Option State) {n : NodeId} {τ : Task} {s s₀ : Shared K} (a : Act)

def Task.runs : Task → Site → Bool
  | .create _, .create => true
  | .join .., .join | .join .., .requestToJoin | .join .., .finishJoin => true
  | .leave _, .requestToLeave | .leave _, .executeLeave | .leave _, .finishLeave
  | .leave _, .leave => true
  | _, _ => false

theorem triple_no_cas {α : Type} {p : Chord α}
    (hp : p.Only (fun a : Act => a.isCas = false) C.starts) :
    (C.rules hash fuel).Triple t (Holds t L) p fun _ => Holds t L :=
  .only (stable_holds L) (fun _ ha => keeps_holds ha L) (fun _ h _ _ _ => h) hp

theorem isCas_reading (h : a.isReading = true) : a.isCas = false := by
  cases a <;> simp_all [Act.isReading, Act.isCas]

theorem keeps_routing (h : a.isRouting n = true) : (C.rules hash fuel).Keeps t (Holds t L) a := by
  refine keeps_holds ?_ L
  cases a <;> simp_all [Act.isRouting, Act.isReading, Act.isCas]

theorem own_notify (n m : NodeId) :
    (C.rules hash fuel).Triple t (Holds t L) (notify m n) fun _ => Holds t L :=
  triple_no_cas L (only_notify isCas_reading (fun _ _ _ => rfl) (fun _ _ _ => rfl) m n)

theorem own_startTasks (hper : ∀ τ : Task, τ.isPeriodic = true → C.starts τ)
    (L : NodeId → Option State) (rounds : ℕ) (n : NodeId) :
    (C.rules hash fuel).Triple t (Holds t L) (startTasks rounds n) fun _ => Holds t L := by
  refine triple_startTasks (stable_holds L) (keeps_routing L) (own_notify L n) rounds ?_
  rintro τ (rfl | rfl | rfl) _ _ _ <;> exact hper _ rfl

theorem own_moveRange (n dest : NodeId) (low high : ℕ) :
    (C.rules hash fuel).Triple t (Holds t L) (moveRange n dest low high)
      fun _ => Holds t L :=
  triple_no_cas L (only_moveRange isCas_reading (fun _ _ _ => rfl) (fun _ _ => rfl)
    (fun _ _ _ => rfl) (fun _ _ => rfl) n dest low high)

theorem own_finish_update (rounds : ℕ) (site : Site) (err : ChordError) (n : NodeId) :
    (C.rules hash fuel).Triple t (Holds t L) (finish rounds site err n true false)
      fun _ => Holds t L :=
  .bind (triple_updatePointers (stable_holds L) (keeps_routing L) (own_notify L n) rounds) fun _ =>
    .same (stable_holds L)

theorem own_finish_release {site : Site} (hrun : C.runs t site)
    (hg : Gives .transition site .transferring .active) (rounds : ℕ) (err : ChordError)
    {L : NodeId → Option State} (hL : L n = some .transferring) :
    (C.rules hash fuel).Triple t (Holds t L) (finish rounds site err n false true)
      fun _ => Holds t (Function.update L n none) := by
  change (C.rules hash fuel).Triple t _ (releaseLock site err n) _
  refine .bind (triple_give hrun hg hL) fun b => .assume fun _ => ?_
  split_ifs
  all_goals exact .same (stable_holds _)

theorem makeSuccListByID_head (n : NodeId) (l : List NodeId) (k : ℕ) :
    (makeSuccListByID n l k).head? = some n := by
  have hgo : ∀ (l acc : List NodeId), acc.head? = some n →
      (makeSuccListByID.go k acc l).head? = some n := by
    intro l
    induction l with
    | nil => exact fun _ h => h
    | cons x l ih =>
      intro acc h
      rw [makeSuccListByID.go]
      split_ifs
      · exact h
      · exact ih acc h
      · exact ih _ (by simp [List.head?_append, h])
  exact hgo l [n] rfl

theorem own_transferKeysUpward (n : NodeId) (prev : Option NodeId) (joiner : NodeId) :
    (C.rules hash fuel).Triple t (Holds t L) (transferKeysUpward n prev joiner)
      fun _ => Holds t L := by
  unfold transferKeysUpward
  dsimp only
  split_ifs
  · exact .same (stable_holds L)
  · exact own_moveRange L n joiner _ _
  · exact .same (stable_holds L)

/-- What a reply to RequestToJoin says of the locks: an error leaves none behind, and a success
the one of the first successor it names, which has accepted the joiner. -/
def LockedFor (t : ℕ) (joiner : NodeId) (L : NodeId → Option State) :
    JoinReply → Shared K → Prop
  | .ok (_, succs), s => ∃ m, (succs.head? = some m ∧ L m = none) ∧
      .accepted t m joiner ∈ s.trace ∧ Holds t (Function.update L m (some .transferring)) s
  | .error _, s => Holds t L s

theorem stable_recorded (e : Event) : (C.rules hash fuel).Stable t fun s => e ∈ s.trace :=
  fun _ _ _ _ _ _ hg _ h => hg.adds.subset h

theorem stable_lockedFor (joiner : NodeId) (L : NodeId → Option State) :
    ∀ res, (C.rules hash fuel).Stable t (LockedFor t joiner L res)
  | .ok _ => .ex fun _ => (Rules.Stable.const _).and ((stable_recorded _).and (stable_holds _))
  | .error _ => stable_holds L

theorem keeps_lockedFor {a : Act} (ha : a.isCas = false) {joiner : NodeId}
    {L : NodeId → Option State} :
    ∀ {res}, (C.rules hash fuel).Keeps t (LockedFor t joiner L res) a
  | .ok _ => by
    rintro s l r s' hi ⟨m, hm, hacc, hh⟩ hl he hk
    obtain ⟨h1, h2, h3⟩ := keeps_holds ha _ s l r s' hi hh hl he hk
    exact ⟨h1, h2, m, hm, h2.adds.subset hacc, h3⟩
  | .error _ => keeps_holds ha L

theorem own_acceptLocked (n joiner : NodeId) :
    (C.rules hash fuel).Triple t (Holds t L) (acceptLocked n joiner)
      fun res s => (∀ x, res = .ok x → x.2.head? = some n) ∧ Holds t L s := by
  have hend : ∀ e, (C.rules hash fuel).Triple t (Holds t L) (.ret (.error e))
      fun (res : JoinReply) s => (∀ x, res = .ok x → x.2.head? = some n) ∧ Holds t L s :=
    fun e => .ret ((Rules.Stable.const _).and (stable_holds L)) fun _ _ h => ⟨nofun, h⟩
  refine .bind (holds_act rfl) fun (prev : Option NodeId) => ?_
  split
  · exact hend _
  split_ifs
  swap
  · exact hend _
  refine .bind (own_transferKeysUpward L n _ joiner) fun res => ?_
  split
  · exact hend _
  refine .bind (holds_act rfl) fun (_ : Unit) => ?_
  refine .bind (holds_act rfl) fun (l : List NodeId) => ?_
  refine .ret ((Rules.Stable.const _).and (stable_holds L)) fun _ _ h => ⟨?_, h⟩
  rintro _ ⟨⟩
  exact makeSuccListByID_head n l _

theorem own_acceptJoiner (hrun : C.runs t .requestToJoin) (L : NodeId → Option State)
    (rounds : ℕ) (n joiner : NodeId) :
    (C.rules hash fuel).Triple t (Holds t L) (acceptJoiner rounds n joiner)
      (LockedFor t joiner L) := by
  refine .bind (holds_act rfl) fun (_ : Unit) => ?_
  refine .bind (triple_take hrun .requestToJoin L n) fun b => .assume fun hL => ?_
  cases b with
  | false =>
    refine .bind (holds_act rfl) fun (_ : Unit) => ?_
    exact .ret (stable_holds L) fun _ _ h => h
  | true =>
    have hL : L n = none := hL rfl
    simp only [if_true]
    refine .bind (holds_act rfl) fun (_ : Unit) => ?_
    refine .bind (own_acceptLocked _ n joiner) fun res => .assume fun hhead => ?_
    refine .bind (Q := fun _ => LockedFor t joiner L res) ?_ fun (_ : Unit) => ?_
    · rcases res with e | x
      · refine .post (triple_set hrun .requestToJoin (by simp) rounds) fun _ s h => ?_
        rwa [Function.update_idem, ← hL, Function.update_eq_self] at h
      · refine .perform (stable_holds _) (fun _ => stable_lockedFor joiner L (.ok x))
          fun s l r s' hi hh hl he hk => ?_
        obtain ⟨h1, h2, h3⟩ := keeps_holds rfl _ s l r s' hi hh hl he hk
        refine ⟨h1, h2, n, ⟨hhead x rfl, hL⟩, ?_, h3⟩
        cases he
        exact List.mem_cons_self
    · refine .bind (.keeps (stable_lockedFor joiner L res) (keeps_lockedFor rfl))
        fun (_ : Unit) => ?_
      refine .bind (.keeps (stable_lockedFor joiner L res) (keeps_lockedFor rfl))
        fun (_ : Unit) => ?_
      exact .ret (stable_lockedFor joiner L res) fun _ _ h => h

theorem own_requestToJoin (hrun : C.runs t .requestToJoin) (L : NodeId → Option State)
    (rounds : ℕ) (joiner : NodeId) : ∀ hops n,
    (C.rules hash fuel).Triple t (Holds t L) (requestToJoin rounds hops n joiner)
      (LockedFor t joiner L)
  | 0, _ => triple_halt
  | hops + 1, n => by
    refine .bind (triple_no_cas L (only_findSuccessor isCas_reading rounds n joiner)) fun res => ?_
    split
    · exact .ret (stable_holds L) fun _ _ h => h
    split_ifs
    · exact .ret (stable_holds L) fun _ _ h => h
    · exact own_requestToJoin hrun L rounds joiner hops _
    · exact own_acceptJoiner hrun L rounds n joiner

@[simp] theorem nothing_update (n : NodeId) : Function.update nothing n none = nothing :=
  Function.update_eq_self n nothing

theorem given_back {m : NodeId} (h : m ≠ n) (st st' : State) :
    Function.update (Function.update (Function.update (Function.update nothing n (some st)) m
      (some st')) n none) m none = nothing := by
  rw [Function.update_comm h, Function.update_idem, Function.update_idem, nothing_update,
    nothing_update]

theorem own_retried (hrun : C.runs t .requestToJoin) (L : NodeId → Option State)
    (rounds : ℕ) (n joiner : NodeId) (k : ℕ) :
    (C.rules hash fuel).Triple t (Holds t L)
      (retry errorIsRetryable (requestToJoin rounds rounds n joiner) k) (LockedFor t joiner L) := by
  refine (triple_retry (Q := fun x => LockedFor t joiner L (.ok x)) (stable_holds L)
    (fun x => stable_lockedFor joiner L (.ok x))
    ((own_requestToJoin hrun L rounds joiner rounds n).post ?_) k).post ?_
  · rintro (e | x) s h <;> exact h
  · rintro (e | x) s h <;> exact h

theorem own_join (hper : ∀ τ : Task, τ.isPeriodic = true → C.starts τ) {peer : NodeId}
    (hrun : ∀ site, (Task.join n peer).runs site = true → C.runs t site) (rounds : ℕ) :
    (C.rules hash fuel).Triple t (Holds t nothing) (join rounds n peer)
      fun _ => Holds t nothing := by
  have hdone : ∀ (res : Except ChordError Unit), (C.rules hash fuel).Triple t
      (Holds t nothing) (.ret res) fun _ => Holds t nothing :=
    fun _ => .same (stable_holds _)
  refine .bind (triple_take (hrun _ rfl) .join nothing n) fun b => .assume fun _ => ?_
  cases b with
  | false => exact hdone _
  | true =>
    simp only [if_true]
    refine .bind (own_retried (hrun _ rfl) _ rounds peer n _) fun res => ?_
    rcases res with e | ⟨pre, succs⟩
    · refine .bind (triple_set (hrun _ rfl) .joinFailed (by simp) rounds) fun (_ : Unit) => ?_
      rw [Function.update_idem, nothing_update]
      exact hdone _
    · refine .ex fun m => .assume fun hm => .pre ?_ fun _ _ h => h.2
      have hmn : m ≠ n := by
        rintro rfl
        simp at hm
      refine .bind (holds_act rfl) fun (_ : Unit) => ?_
      refine .bind (holds_act rfl) fun (_ : Unit) => ?_
      refine .bind (own_startTasks hper _ rounds n) fun (_ : Unit) => ?_
      refine .bind (own_finish_update _ rounds _ _ pre) fun (_ : Except ChordError Unit) => ?_
      refine .bind (triple_set (hrun _ rfl) .join (by simp [Ne.symm hmn]) rounds)
        fun (_ : Unit) => ?_
      split
      · simp at hm
      · obtain rfl : _ = m := by simpa using hm.1
        refine .bind (own_finish_release (hrun _ rfl) .finishJoin rounds _ (by simp [hmn]))
          fun (_ : Except ChordError Unit) => ?_
        rw [given_back hmn]
        exact hdone _

def bothLocks (n succ : NodeId) : NodeId → Option State :=
  Function.update (Function.update nothing n (some .leaving)) succ (some .transferring)

theorem own_requestToLeave (hrun : C.runs t .requestToLeave) (L : NodeId → Option State)
    (n : NodeId) :
    (C.rules hash fuel).Triple t (Holds t L) (requestToLeave n) fun res s =>
      match res with
      | .ok _ => L n = none ∧ Holds t (Function.update L n (some .transferring)) s
      | .error _ => Holds t L s := by
  refine .bind (triple_take hrun .requestToLeave L n) fun b => .assume fun hL => ?_
  cases b with
  | false => exact .ret (stable_holds L) fun _ _ h => h
  | true => exact .ret ((Rules.Stable.const _).and (stable_holds _)) fun _ _ h => ⟨hL rfl, h⟩

/-- What an attempt to leave holds in the end: both locks if it succeeds, else none. -/
def LeaveHolds {α : Type} (t : ℕ) (n succ : NodeId) : Except ChordError α → Shared K → Prop
  | .ok _, s => succ ≠ n ∧ Holds t (bothLocks n succ) s
  | .error _, s => Holds t nothing s

theorem stable_leaveHolds {α : Type} (n succ : NodeId) : ∀ res : Except ChordError α,
    (C.rules hash fuel).Stable t (LeaveHolds t n succ res)
  | .ok _ => (Rules.Stable.const _).and (stable_holds _)
  | .error _ => stable_holds _

theorem own_lockLeave (hrun : ∀ site, (Task.leave n).runs site = true → C.runs t site) (rounds : ℕ)
    (succ : NodeId) :
    (C.rules hash fuel).Triple t (Holds t nothing) (lockLeave rounds n succ)
      (LeaveHolds t n succ) := by
  have hfail : ∀ e, (C.rules hash fuel).Triple t (Holds t nothing) (.ret (.error e))
      (LeaveHolds (α := Unit) t n succ) := fun _ => .ret (stable_holds _) fun _ _ h => h
  unfold lockLeave
  split_ifs with hlt
  · refine .bind (own_requestToLeave (hrun _ rfl) nothing succ) fun res => ?_
    rcases res with e | _
    · exact hfail e
    refine .assume fun _ => .bind (triple_take (hrun _ rfl) .executeLeave _ n) fun b => ?_
    refine .assume fun _ => ?_
    cases b with
    | false =>
      refine .bind (own_finish_release (hrun _ rfl) .finishLeave rounds _ (by simp))
        fun (_ : Except ChordError Unit) => ?_
      simp only [Bool.false_eq_true, if_false, Function.update_idem, nothing_update]
      exact hfail _
    | true =>
      refine .ret (stable_leaveHolds n succ (.ok ())) fun _ _ h => ⟨hlt.ne, ?_⟩
      rwa [if_pos rfl, Function.update_comm hlt.ne] at h
  · refine .bind (triple_take (hrun _ rfl) .executeLeave nothing n) fun b => .assume fun _ => ?_
    cases b with
    | false => exact hfail _
    | true =>
      simp only [if_true]
      refine .bind (own_requestToLeave (hrun _ rfl) _ succ) fun res => ?_
      rcases res with e | _
      · refine .bind (triple_set (hrun _ rfl) .executeLeave (by simp) rounds) fun (_ : Unit) => ?_
        rw [Function.update_idem, nothing_update]
        exact hfail e
      · refine .assume fun hfree => .ret (stable_leaveHolds n succ (.ok ()))
          fun _ _ h => ⟨?_, h⟩
        rintro rfl
        simp at hfree

theorem own_handOver (hrun : ∀ site, (Task.leave n).runs site = true → C.runs t site) (rounds : ℕ)
    {succ : NodeId} (hne : succ ≠ n) :
    (C.rules hash fuel).Triple t (Holds t (bothLocks n succ)) (handOver rounds n succ)
      (LeaveHolds t n succ) := by
  refine .bind (holds_act rfl) fun (_ : Unit) => ?_
  refine .bind (own_moveRange _ n succ 0 0) fun res => ?_
  split
  · refine .bind (triple_set (hrun _ rfl) .executeLeave (by simp [bothLocks, Ne.symm hne]) rounds)
      fun (_ : Unit) => ?_
    refine .bind (own_finish_release (hrun _ rfl) .finishLeave rounds _
      (by simp [bothLocks, hne])) fun (_ : Except ChordError Unit) => ?_
    rw [bothLocks, given_back hne]
    refine .bind (holds_act rfl) fun (_ : Unit) => ?_
    exact .ret (stable_holds _) fun _ _ h => h
  · refine .bind (holds_act rfl) fun (_ : Unit) => ?_
    refine .bind (holds_act rfl) fun (_ : Unit) => ?_
    exact .ret (stable_leaveHolds n succ (.ok ())) fun _ _ h => ⟨hne, h⟩

/-- In no step that is looked at does a run find its node alone. -/
def Policy.NeverSkips (C : Policy K) : Prop :=
  ∀ t s s' n, C.known t s s' → s'.trace ≠ .skipped t n :: s.trace

theorem own_skipLeave (hskip : C.NeverSkips) (L : NodeId → Option State) (n : NodeId) :
    (C.rules hash fuel).Triple t (Holds t L) (skipLeave n) fun _ _ => False := by
  refine .perform (stable_holds L) (fun _ => .const _) fun s l r s' _ _ _ he hk => ?_
  cases he
  exact absurd rfl (hskip t s _ n hk)

/-- What executeLeave holds in the end, the successor being in its reply. -/
def LeaveReply (t : ℕ) (n : NodeId) : Except ChordError (NodeId × NodeId) → Shared K → Prop
  | .ok (_, succ), s => succ ≠ n ∧ Holds t (bothLocks n succ) s
  | .error _, s => Holds t nothing s

theorem stable_leaveReply (n : NodeId) :
    ∀ res, (C.rules hash fuel).Stable t (LeaveReply t n res)
  | .ok _ => (Rules.Stable.const _).and (stable_holds _)
  | .error _ => stable_holds _

section

variable (hskip : C.NeverSkips) (hrun : ∀ site, (Task.leave n).runs site = true → C.runs t site)
  (rounds : ℕ)

include hskip hrun rounds

theorem own_executeLeave :
    (C.rules hash fuel).Triple t (Holds t nothing) (executeLeave rounds n)
      (LeaveReply t n) := by
  have hfail : ∀ e, (C.rules hash fuel).Triple t (Holds t nothing) (.ret (.error e))
      (LeaveReply t n) := fun _ => .ret (stable_holds _) fun _ _ h => h
  refine .bind (holds_act rfl) fun (pre : Option NodeId) => ?_
  split
  · exact hfail _
  refine .bind (triple_no_cas _ (only_getSuccessor isCas_reading n)) fun succ => ?_
  split
  · exact hfail _
  split_ifs
  · refine .bind (own_skipLeave hskip nothing n) fun (_ : Unit) => ?_
    exact fun _ _ h => h.elim
  refine .bind (own_lockLeave hrun rounds _) fun res => ?_
  rcases res with e | _
  · exact hfail e
  refine .assume fun hne => .bind (own_handOver hrun rounds hne) fun res => ?_
  rcases res with e | _
  · exact hfail e
  · exact .ret (stable_leaveReply n (.ok _)) fun _ _ h => h

theorem own_leaveRing :
    (C.rules hash fuel).Triple t (Holds t nothing) (leaveRing rounds n)
      fun _ => Holds t nothing := by
  have hattempts : (C.rules hash fuel).Triple t (Holds t nothing)
      (retry (fun _ => true) (executeLeave rounds n) (maxAttempts - 1)) (LeaveReply t n) := by
    refine (triple_retry (Q := fun x => LeaveReply t n (.ok x)) (stable_holds _)
      (fun x => stable_leaveReply n (.ok x))
      ((own_executeLeave hskip hrun rounds).post ?_) _).post ?_
    all_goals
      rintro (e | x) s h <;> exact h
  refine .bind hattempts fun res => ?_
  rcases res with e | ⟨pre, succ⟩
  · exact .same (stable_holds _)
  refine .assume fun hne => .bind (Q := fun _ => Holds t (bothLocks n succ)) ?_
    fun (_ : Unit) => ?_
  · unfold finishLeaveAt
    split_ifs
    · exact .same (stable_holds _)
    · exact .bind (own_finish_update _ rounds _ _ pre) fun _ =>
        .same (stable_holds _)
  refine .bind (triple_set (hrun _ rfl) .leave (by simp [bothLocks, Ne.symm hne]) rounds)
    fun (_ : Unit) => ?_
  refine .bind (Q := fun _ => Holds t nothing) ?_ fun (_ : Unit) =>
    holds_act rfl
  rw [finishLeaveAt, if_neg hne]
  refine .bind (own_finish_release (hrun _ rfl) .finishLeave rounds _ (by simp [bothLocks, hne]))
    fun _ => ?_
  rw [bothLocks, given_back hne]
  exact .same (stable_holds _)

theorem own_leave :
    (C.rules hash fuel).Triple t (Holds t nothing) (leave rounds n)
      fun _ => Holds t nothing := by
  refine .bind (holds_act rfl) fun (w : StateWord) => ?_
  split
  case h_1 | h_2 | h_3 => exact .same (stable_holds _)
  all_goals exact own_leaveRing hskip hrun rounds

end

theorem own_create (hper : ∀ τ : Task, τ.isPeriodic = true → C.starts τ) (hrun : C.runs t .create)
    (rounds : ℕ) :
    (C.rules hash fuel).Triple t (Holds t nothing) (create rounds n)
      fun _ => Holds t nothing := by
  refine .bind (triple_take hrun .create nothing n) fun b => .assume fun _ => ?_
  cases b with
  | false => exact .same (stable_holds _)
  | true =>
    simp only [if_true]
    refine .bind (holds_act rfl) fun (_ : Unit) => ?_
    refine .bind (triple_no_cas _ (only_setFingers (fun _ _ => rfl) n _)) fun (_ : Unit) => ?_
    refine .bind (own_startTasks hper _ rounds n) fun (_ : Unit) => ?_
    refine .bind (triple_set hrun .create (by simp) rounds) fun (_ : Unit) => ?_
    rw [Function.update_idem, nothing_update]
    exact .same (stable_holds _)

theorem own_periodic (hper : ∀ τ : Task, τ.isPeriodic = true → C.starts τ)
    (hτ : τ.isPeriodic = true) (L : NodeId → Option State) :
    (C.rules hash fuel).Triple t (Holds t L) (body hash fuel τ) fun _ => Holds t L :=
  triple_periodicTask (stable_holds L) (keeps_routing L) hτ (own_notify L τ.node)
    (triple_no_cas L (only_checkPredecessor isCas_reading (fun _ _ _ => rfl) τ.node))
    fun _ _ _ => hper τ hτ

def Task.isAnswered : Task → Bool
  | .joinLossy .. | .handleJoin .. => false
  | _ => true

def answered (tasks : List Task) (known : ℕ → Shared K → Shared K → Prop) : Policy K where
  runs t site := ∃ τ, tasks[t]? = some τ ∧ τ.runs site = true
  known := known
  starts τ := τ.isPeriodic = true
  post t := Holds t nothing

variable {tasks : List Task} {known : ℕ → Shared K → Shared K → Prop}

theorem own_body (hτ : tasks[t]? = some τ) (ha : τ.isAnswered = true)
    (hskip : ∀ n, τ = .leave n → (answered tasks known).NeverSkips) :
    ((answered tasks known).rules hash fuel).Triple t (Holds t nothing) (body hash fuel τ)
      fun _ => Holds t nothing := by
  have hper : ∀ τ : Task, τ.isPeriodic = true → (answered tasks known).starts τ := fun _ h => h
  have hrun : ∀ site, τ.runs site = true → (answered tasks known).runs t site :=
    fun _ h => ⟨τ, hτ, h⟩
  cases τ with
  | create n =>
    exact .bind (own_create hper (hrun _ rfl) fuel) fun _ => .same (stable_holds _)
  | join n peer =>
    exact .bind (own_join hper hrun fuel) fun _ => .same (stable_holds _)
  | leave n => exact own_leave (hskip n rfl) hrun fuel
  | request n r =>
    exact .bind (triple_no_cas _ (only_kvMiddleware isCas_reading hash fuel (fun _ _ => rfl)
      (fun _ _ => rfl) (fun _ => rfl) (fun _ => rfl) (fun _ _ => rfl) fuel n r))
      fun _ => .same (stable_holds _)
  | periodicStabilize | periodicPredecessorCheck | periodicFixFingers =>
    exact own_periodic hper rfl _
  | joinLossy | handleJoin => simp [Task.isAnswered] at ha

theorem answered_closed : ((answered tasks known).rules hash fuel).Closed where
  stable _ := stable_notBegun
  safe _ _ := .assume fun hτ =>
    .pre (own_periodic (fun _ h => h) hτ nothing) fun _ _ h => NotBegun.holds h

structure AtRest (s : Shared K) : Prop where
  trace : s.trace = []
  free : ∀ n, (s.node n).state.state.isHeld = false

omit [KVProvider K] in
theorem AtRest.notBegun (h : AtRest s) : NotBegun t s := by
  simp [NotBegun, h.trace]

omit [KVProvider K] in
theorem AtRest.owned (h : AtRest s) (runs : ℕ → Site → Prop) : Owned runs s :=
  ⟨h.trace ▸ trivial, fun n t st hl => by simp [h.trace, lastSwap] at hl, fun n _ => h.free n⟩

theorem answered_launch (hs : AtRest s₀) (ha : ∀ τ ∈ tasks, τ.isAnswered = true)
    (hskip : ∀ n, Task.leave n ∈ tasks → (answered tasks known).NeverSkips) :
    ((answered tasks known).rules hash fuel).Good ((cluster K hash fuel).launch tasks s₀) := by
  refine Rules.good_launch (hs.owned _) (fun t _ => hs.notBegun) fun t τ hτ => ?_
  have hmem := List.mem_of_getElem? hτ
  exact own_body hτ (ha τ hmem) (fun n hn => hskip n (hn ▸ hmem)) s₀ (hs.owned _)
    hs.notBegun.holds

def NoneSkipped (s : Shared K) : Prop := ∀ t n, .skipped t n ∉ s.trace

def noSkip (t : ℕ) (s s' : Shared K) : Prop := ∀ n, s'.trace ≠ .skipped t n :: s.trace

theorem noneSkipped_back {l : Fault} {c c' : Lib.Config chordSig (Shared K)}
    (h : (cluster K hash fuel).step t l c = some c') (hs : NoneSkipped c'.shared) :
    NoneSkipped c.shared ∧ noSkip t c.shared c'.shared := by
  obtain htr | ⟨e, htr⟩ := step_trace h
  · exact ⟨fun t n => htr ▸ hs t n, fun n hn => by simp [htr] at hn⟩
  · refine ⟨fun t n hm => hs t n (htr ▸ List.mem_cons_of_mem _ hm), fun n hn => ?_⟩
    exact hs _ n (hn ▸ List.mem_cons_self)

theorem answered_run {sched : List (ℕ × Fault)} {c : Lib.Config chordSig (Shared K)}
    (hs : AtRest s₀) (ha : ∀ τ ∈ tasks, τ.isAnswered = true)
    (hrun : (cluster K hash fuel).run sched ((cluster K hash fuel).launch tasks s₀) = some c)
    (hskip : NoneSkipped c.shared) : ((answered tasks noSkip).rules hash fuel).Good c :=
  Rules.good_run answered_closed (answered_launch hs ha fun _ _ _ _ _ n hk => hk n)
    (Rules.follows_of_run noneSkipped_back (fun _ _ => trivial) hrun hskip).2 hrun

omit [KVProvider K] in
theorem Owned.transferring (h : Owned (answered tasks known).runs s)
    (hn : (s.node n).state.state = .transferring) :
    ∃ t τ, held s.trace t n = some .transferring ∧ tasks[t]? = some τ ∧
      ((∃ j p, τ = .join j p) ∨ ∃ j, τ = .leave j) := by
  rcases hl : lastSwap n s.trace with _ | ⟨t, st⟩
  · have := h.free n hl
    rw [hn] at this
    cases this
  obtain rfl : st = .transferring := (h.state n t st hl).symm.trans hn
  obtain ⟨_, how, site, old, ⟨τ, hτ, hruns⟩, -, ⟨-, htake⟩ | ⟨hgive, -⟩⟩ :=
    h.wf.swapped_of_lastSwap hl
  · refine ⟨t, τ, held_of_lastSwap hl rfl, hτ, ?_⟩
    cases htake <;> cases τ <;> simp_all [Task.runs]
  · cases hgive

end Rules

/-- In every state that joins and leaves reach, with any faults of the provider, as long as no run
finds its node alone: every Transferring node is held by exactly one unfinished run; whoever
releases a lock holds it, and never in vain; every `Set` replaces the state its own run established;
and a Leave that held both its locks keeps them until it releases or gives up. -/
theorem membership_locks_owned {K : Type} [KVProvider K] (hash : Bytes → ℕ) (fuel : ℕ)
    {tasks : List Task} (ha : ∀ τ ∈ tasks, τ.isAnswered = true) {s₀ : Shared K}
    (hs : AtRest s₀) {sched : List (ℕ × Fault)} {c : Lib.Config chordSig (Shared K)}
    (hrun : (cluster K hash fuel).run sched ((cluster K hash fuel).launch tasks s₀) = some c)
    (hskip : NoneSkipped c.shared) :
    (∀ n, (c.shared.node n).state.state = .transferring →
      ∃! t, held c.shared.trace t n = some .transferring ∧
        (∃ τ, tasks[t]? = some τ ∧ ((∃ j p, τ = .join j p) ∨ ∃ j, τ = .leave j)) ∧
        ∃ p, c.threads[t]? = some p ∧ p ≠ .ret ()) ∧
    (∀ t n how site, site = .finishJoin ∨ site = .finishLeave →
      .refused t n how site ∉ c.shared.trace ∧
      ∀ later old new earlier, c.shared.trace = later ++ .swapped t n how site old new :: earlier →
        held earlier t n = some .transferring) ∧
    (∀ t n site, .refused t n .set site ∉ c.shared.trace ∧
      ∀ later old new earlier,
        c.shared.trace = later ++ .swapped t n .set site old new :: earlier →
        held earlier t n = some old) ∧
    ∀ t n m later earlier, c.shared.trace = later ++ earlier →
      held earlier t n = some .leaving → held earlier t m = some .transferring →
      (∀ how site old new, .swapped t m how site old new ∉ later) →
      .swapped t n .set .executeLeave .leaving .active ∉ later →
      (c.shared.node m).state.state = .transferring ∧
        ((c.shared.node n).state.state = .leaving ∨ (c.shared.node n).state.state = .left) := by
  have hgood := answered_run hs ha hrun hskip
  have hi : Owned (answered tasks noSkip).runs c.shared := hgood.1
  refine ⟨fun n hn => ?_, fun t n how site hsite => ⟨fun hmem => ?_, ?_⟩,
    fun t n site => ⟨fun hmem => ?_, ?_⟩, fun t n m later earlier htrace hl hm hrel hup => ?_⟩
  · obtain ⟨t, τ, hheld, hτ, hkind⟩ := hi.transferring hn
    refine ⟨t, ⟨hheld, ⟨τ, hτ, hkind⟩, ?_⟩, fun t' h' => ?_⟩
    · have hlt : t < c.threads.length := by
        have := (cluster K hash fuel).threads_length_run hrun
        simp only [Lib.Machine.launch, List.length_map] at this
        exact (List.getElem?_eq_some_iff.1 hτ).1.trans_le this
      refine ⟨_, List.getElem?_eq_getElem hlt, fun hret => ?_⟩
      have hpost := congrFun (hgood.finished (hret ▸ List.getElem?_eq_getElem hlt)) n
      rw [hheld] at hpost
      cases hpost
    · have := (lastSwap_of_held h'.1).symm.trans (lastSwap_of_held hheld)
      simpa using this
  · obtain ⟨later, earlier, htrace⟩ := List.append_of_mem hmem
    have hp := WellFormed.permitted (htrace ▸ hi.wf)
    rcases hsite with rfl | rfl
    · exact hp.2.1 rfl
    · exact hp.2.2 rfl
  · intro later old new earlier htrace
    obtain ⟨-, -, ⟨-, htake⟩ | ⟨hgive, hheld⟩⟩ := WellFormed.permitted (htrace ▸ hi.wf)
    · rcases hsite with rfl | rfl <;> cases htake
    · rcases hsite with rfl | rfl <;> cases hgive <;> exact hheld
  · obtain ⟨later, earlier, htrace⟩ := List.append_of_mem hmem
    have hp := WellFormed.permitted (htrace ▸ hi.wf)
    cases hp.1
  · intro later old new earlier htrace
    obtain ⟨-, -, ⟨hset, -⟩ | ⟨-, hheld⟩⟩ := WellFormed.permitted (htrace ▸ hi.wf)
    · cases hset
    · exact hheld
  · obtain ⟨h1, h2⟩ := WellFormed.both_locks (htrace ▸ hi.wf) hl hm hrel hup
    rw [← htrace] at h1 h2
    exact ⟨hi.state m _ _ h1, h2.imp (hi.state n _ _) (hi.state n _ _)⟩

def pairRing : Shared (MemoryKV fun _ => 50) where
  node n :=
    if n = 7 ∨ n = 300 then
      { newLocalNode with
        state := ⟨2, .active⟩
        predecessor := some (if n = 7 then 300 else 7)
        successors := [if n = 7 then 300 else 7]
        kv := if n = 300 then (MemoryKV.withHashFn _).put [1] (some [2]) else .withHashFn _ }
    else newLocalNode
  mailbox := []
  trace := []

theorem pairRing_atRest : AtRest pairRing where
  trace := rfl
  free n := by
    unfold pairRing
    dsimp only
    split_ifs <;> rfl

/-- A Leave has taken both its locks and moved its keys: the lock of its successor has one owner. -/
theorem membership_locks_owned_leave : ∃ c,
    (cluster _ (fun _ => 50) 1).run (List.replicate 12 (0, .ok))
      ((cluster _ (fun _ => 50) 1).launch [.leave 300] pairRing) = some c ∧
    NoneSkipped c.shared ∧ held c.shared.trace 0 300 = some .leaving ∧
    (c.shared.node 7).state.state = .transferring ∧
    ∃! t, held c.shared.trace t 7 = some .transferring ∧
      (∃ τ, [Task.leave 300][t]? = some τ ∧ ((∃ j p, τ = .join j p) ∨ ∃ j, τ = .leave j)) ∧
      ∃ p, c.threads[t]? = some p ∧ p ≠ .ret () := by
  have hend : ((cluster _ (fun _ => 50) 1).run (List.replicate 12 (0, .ok))
      ((cluster _ (fun _ => 50) 1).launch [.leave 300] pairRing)).map
        (fun c => (c.shared.trace, (c.shared.node 7).state.state)) =
      some ([.imported 0 7 [[1]] [⟨some [2], [], 0⟩],
        .swapped 0 300 .transition .executeLeave .active .leaving,
        .swapped 0 7 .transition .requestToLeave .active .transferring], .transferring) := rfl
  obtain ⟨c, hrun, hc⟩ := Option.map_eq_some_iff.1 hend
  obtain ⟨htrace, hstate⟩ := Prod.mk.inj hc
  have hskip : NoneSkipped c.shared := fun t n => by simp [htrace]
  exact ⟨c, hrun, hskip, by rw [htrace]; rfl, hstate,
    (membership_locks_owned (fun _ => 50) 1 (by simp [Task.isAnswered]) pairRing_atRest hrun
      hskip).1 7 hstate⟩

/-- Between the two steps that give the locks back after a failed transfer, the leaver is Active
while its successor is still Transferring. -/
theorem leave_gives_up_own_lock_first : ∃ (c : Lib.Config chordSig (Shared (MemoryKV fun _ => 50)))
    (sched : List (ℕ × Fault)) (later earlier : List Event),
    (cluster _ (fun _ => 50) 1).run sched
      ((cluster _ (fun _ => 50) 1).launch [.leave 300] pairRing) = some c ∧
    NoneSkipped c.shared ∧ c.shared.trace = later ++ earlier ∧
    held earlier 0 300 = some .leaving ∧ held earlier 0 7 = some .transferring ∧
    (∀ how site old new, .swapped 0 7 how site old new ∉ later) ∧
    (c.shared.node 7).state.state = .transferring ∧ (c.shared.node 300).state.state = .active := by
  have hend : ((cluster _ (fun _ => 50) 1).run
      (List.replicate 8 (0, .ok) ++ (0, .fail) :: List.replicate 3 (0, .ok))
      ((cluster _ (fun _ => 50) 1).launch [.leave 300] pairRing)).map
        (fun c => (c.shared.trace, (c.shared.node 7).state.state,
          (c.shared.node 300).state.state)) =
      some ([.swapped 0 300 .set .executeLeave .leaving .active] ++
        [.swapped 0 300 .transition .executeLeave .active .leaving,
        .swapped 0 7 .transition .requestToLeave .active .transferring], .transferring, .active) :=
    rfl
  obtain ⟨c, hrun, hc⟩ := Option.map_eq_some_iff.1 hend
  simp only [Prod.mk.injEq] at hc
  obtain ⟨htrace, h7, h300⟩ := hc
  exact ⟨c, _, _, _, hrun, fun t n => by simp [htrace], htrace, rfl, rfl, by simp, h7, h300⟩

end Specter
