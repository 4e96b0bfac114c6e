import Specter.Proofs.Members

/-!
# The view of a state

What the proofs about a changing ring read of a state: a few fields of the nodes, and a few
functions of the trace.  Most actions leave the view as it is (`exec_inert`); for each of the others
there is one lemma.
-/

namespace Specter

structure View (K : Type) where
  state : NodeId → State
  predecessor : NodeId → Option NodeId
  successors : NodeId → List NodeId
  kv : NodeId → K
  atStop : NodeId → K
  mutex : NodeId → Mutex → RWMutex
  held : ℕ → NodeId → Option State
  members : Set NodeId
  history : Bytes → KvValue
  linear : Prop

section View

variable {K : Type} {n : NodeId} {u : Unit} {mu : Mutex} {keys : List Bytes}
  {res : Except ChordError Unit}

/-- The view of a state of a ring that started with the members `M`. -/
def view (M : Set NodeId) (s : Shared K) : View K where
  state n := (s.node n).state.state
  predecessor n := (s.node n).predecessor
  successors n := (s.node n).successors
  kv n := (s.node n).kv
  atStop n := (s.node n).atStop
  mutex n mu := (s.node n).mutex mu
  held := held s.trace
  members := M ∪ members s.trace
  history k := history k s.trace
  linear := Linear s.trace

def View.setMutex (v : View K) (n : NodeId) (mu : Mutex) (m : RWMutex) : View K :=
  { v with mutex := fun n' mu' => if n' = n ∧ mu' = mu then m else v.mutex n' mu' }

/-- The view after thread `t` has moved the state of `n`, other than in Create. -/
def View.swap (v : View K) (t : ℕ) (n : NodeId) (st : State) : View K :=
  { v with
    state := Function.update v.state n st
    atStop := Function.update v.atStop n (if v.state n = .active then v.kv n else v.atStop n)
    held := fun t' m => if m = n then (if t = t' ∧ st.isHeld then some st else none)
      else v.held t' m }

section Swap

variable {v : View K} {t : ℕ} {n m : NodeId} {st : State}

@[simp] theorem swap_state_self : (v.swap t n st).state n = st := by simp [View.swap]

theorem swap_state_ne (h : m ≠ n) : (v.swap t n st).state m = v.state m := by
  simp [View.swap, h]

theorem swap_held_self (hst : st.isHeld = true) : (v.swap t n st).held t n = some st := by
  simp [View.swap, hst]

theorem swap_held_ne (h : m ≠ n) (t' : ℕ) :
    (v.swap t n st).held t' m = v.held t' m := by
  simp [View.swap, h]

theorem swap_held_free (hst : st.isHeld = false) (t' : ℕ) : (v.swap t n st).held t' n = none := by
  simp [View.swap, hst]

theorem swap_atStop_ne (hn : v.state n ≠ .active) (m : NodeId) :
    (v.swap t n st).atStop m = v.atStop m := by
  by_cases hm : m = n
  · simp [View.swap, hm, hn]
  · simp [View.swap, hm]

end Swap

def Act.isInert : Act → Bool
  | .casState .. | .setPredecessor .. | .casPredecessor .. | .lock .. | .unlock .. | .rlock ..
  | .runlock .. | .commitJoin .. | .setSuccessors .. | .importKeys .. | .removeKeys ..
  | .handle .. => false
  | _ => true

variable [KVProvider K] {M : Set NodeId} {l : Fault} {t : ℕ} {s s' : Shared K} {a : Act}
  {r : a.Res}

theorem exec_inert (ha : a.isInert = true) (h : exec l t s a = some (r, s')) :
    view M s' = view M s := by
  have hw : ∀ f : Field, f ≠ .surrogate → ∀ n, a.writes f n = false := by
    intro f hf n
    cases a <;> simp_all [Act.isInert, Act.writes]
  have htr : s'.trace = s.trace ∨ (∃ t n, s'.trace = .skipped t n :: s.trace) ∨
      ∃ t n res, s'.trace = .joinReturned t n res :: s.trace := by
    rcases exec_trace h with htr | ⟨e, hrec, htr⟩
    · exact .inl htr
    · cases a <;> simp only [Act.Records] at hrec <;> simp [Act.isInert] at ha
      · subst hrec
        exact .inr (.inl ⟨_, _, htr⟩)
      · subst hrec
        exact .inr (.inr ⟨_, _, _, htr⟩)
  have hfields : held s'.trace = held s.trace ∧ members s'.trace = members s.trace ∧
      (∀ k, history k s'.trace = history k s.trace) ∧ Linear s'.trace = Linear s.trace := by
    rcases htr with htr | ⟨_, _, htr⟩ | ⟨_, _, _, htr⟩ <;> rw [htr]
    · exact ⟨rfl, rfl, fun _ => rfl, rfl⟩
    · exact ⟨rfl, members_cons_none rfl, fun _ => rfl, rfl⟩
    · exact ⟨rfl, members_cons_none rfl, fun _ => rfl, rfl⟩
  obtain ⟨h1, h2, h3, h4⟩ := hfields
  have hstate : ∀ n, (s'.node n).state = (s.node n).state := fun n =>
    exec_frame h (hw .state (by simp) n)
  simp only [view, View.mk.injEq]
  exact ⟨funext fun n => by rw [hstate], funext fun n => exec_frame h (hw .predecessor (by simp) n),
    funext fun n => exec_frame h (hw .successors (by simp) n),
    funext fun n => exec_frame h (hw .kv (by simp) n),
    funext fun n => exec_frame h (hw .atStop (by simp) n),
    funext fun n => funext fun mu => exec_frame h (hw (.mutex mu) (by simp) n),
    h1, by rw [h2], funext h3, h4⟩

omit [KVProvider K] in
theorem node_update_field {β : Type} (g : Node K → β) (n : NodeId) (f : Node K → Node K) :
    (fun m => g ((s.update n f).node m)) =
      Function.update (fun m => g (s.node m)) n (g (f (s.node n))) := by
  funext m
  by_cases hm : m = n
  · subst hm
    simp
  · simp [hm]

omit [KVProvider K] in
theorem view_update (n : NodeId) (f : Node K → Node K) :
    view M (s.update n f) = { view M s with
      state := Function.update (view M s).state n (f (s.node n)).state.state
      predecessor := Function.update (view M s).predecessor n (f (s.node n)).predecessor
      successors := Function.update (view M s).successors n (f (s.node n)).successors
      kv := Function.update (view M s).kv n (f (s.node n)).kv
      atStop := Function.update (view M s).atStop n (f (s.node n)).atStop
      mutex := Function.update (view M s).mutex n (f (s.node n)).mutex } := by
  simp only [view, View.mk.injEq]
  exact ⟨node_update_field (·.state.state) n f, node_update_field (·.predecessor) n f,
    node_update_field (·.successors) n f, node_update_field (·.kv) n f,
    node_update_field (·.atStop) n f, node_update_field (·.mutex) n f, rfl, rfl, rfl, rfl⟩

section Same

variable {K : Type} (M : Set NodeId) (s : Shared K) (n : NodeId)

@[simp] theorem update_state_same :
    Function.update (view M s).state n (s.node n).state.state = (view M s).state :=
  Function.update_eq_self n _

@[simp] theorem update_predecessor_same :
    Function.update (view M s).predecessor n (s.node n).predecessor = (view M s).predecessor :=
  Function.update_eq_self n _

@[simp] theorem update_successors_same :
    Function.update (view M s).successors n (s.node n).successors = (view M s).successors :=
  Function.update_eq_self n _

@[simp] theorem update_kv_same :
    Function.update (view M s).kv n (s.node n).kv = (view M s).kv :=
  Function.update_eq_self n _

@[simp] theorem update_atStop_same :
    Function.update (view M s).atStop n (s.node n).atStop = (view M s).atStop :=
  Function.update_eq_self n _

@[simp] theorem update_mutex_same :
    Function.update (view M s).mutex n (s.node n).mutex = (view M s).mutex :=
  Function.update_eq_self n _

end Same

theorem view_setPredecessor {p : Option NodeId}
    (h : exec l t s (.setPredecessor n p) = some (u, s')) :
    ((view M s).mutex n .predecessorMu).canLock = true ∧
      view M s' = { view M s with predecessor := Function.update (view M s).predecessor n p } := by
  simp only [exec] at h
  split_ifs at h with hl
  cases h
  refine ⟨hl, ?_⟩
  rw [view_update]
  change View.mk _ _ _ _ _ (Function.update (view M s).mutex n (s.node n).mutex) _ _ _ _ = _
  simp

theorem view_casPredecessor {old new : Option NodeId}
    (h : exec l t s (.casPredecessor n old new) = some (u, s')) :
    ((view M s).mutex n .predecessorMu).canLock = true ∧
      ((old = none → (view M s).predecessor n ≠ none) ∧ view M s' = view M s ∨
        (view M s).predecessor n = old ∧
          view M s' =
            { view M s with predecessor := Function.update (view M s).predecessor n new }) := by
  simp only [exec] at h
  split_ifs at h with hl
  cases h
  refine ⟨hl, ?_⟩
  rw [view_update]
  by_cases hold : l.sameHandle old (s.node n).predecessor = true
  · right
    have : old = (s.node n).predecessor := by
      simp only [Fault.sameHandle, Bool.and_eq_true, decide_eq_true_eq] at hold
      exact hold.1
    refine ⟨this.symm, ?_⟩
    change View.mk _ _ _ _ _ (Function.update (view M s).mutex n (s.node n).mutex) _ _ _ _ = _
    simp [hold]
  · refine .inl ⟨?_, ?_⟩
    · rintro rfl hp
      change (s.node n).predecessor = none at hp
      simp [hp, Fault.sameHandle] at hold
    · change View.mk _ _ _ _ _ (Function.update (view M s).mutex n (s.node n).mutex) _ _ _ _ = _
      simp [hold]

omit [KVProvider K] in
theorem view_setMutex (n : NodeId) (mu : Mutex) (m : RWMutex) :
    view M (s.update n fun x => x.setMutex mu m) = (view M s).setMutex n mu m := by
  rw [view_update]
  simp only [state_setMutex, predecessor_setMutex, successors_setMutex, kv_setMutex,
    atStop_setMutex, update_state_same, update_predecessor_same, update_successors_same,
    update_kv_same, update_atStop_same, View.setMutex, View.mk.injEq, true_and, and_true]
  funext n' mu'
  by_cases hn : n' = n
  · subst hn
    by_cases hmu : mu' = mu
    · simp [hmu]
    · simp [hmu, view]
  · simp [hn]

theorem view_lock (h : exec l t s (.lock mu n) = some (u, s')) :
    ((view M s).mutex n mu).canLock = true ∧ view M s' = (view M s).setMutex n mu ⟨some t, []⟩ := by
  simp only [exec] at h
  split_ifs at h with hl
  cases h
  exact ⟨hl, view_setMutex n mu _⟩

theorem view_unlock (h : exec l t s (.unlock mu n) = some (u, s')) :
    view M s' = (view M s).setMutex n mu .unlocked := by
  cases h
  exact view_setMutex n mu _

theorem view_rlock (h : exec l t s (.rlock mu n) = some (u, s')) :
    ((s.node n).mutex mu).writer = none ∧
      view M s' = (view M s).setMutex n mu ⟨none, t :: ((view M s).mutex n mu).readers⟩ := by
  simp only [exec] at h
  split_ifs at h with hl
  cases h
  exact ⟨by simpa [RWMutex.canRLock] using hl, view_setMutex n mu _⟩

theorem view_runlock (h : exec l t s (.runlock mu n) = some (u, s')) :
    view M s' = (view M s).setMutex n mu ⟨none, ((view M s).mutex n mu).readers.erase t⟩ := by
  cases h
  exact view_setMutex n mu _

theorem view_setSuccessors {succs : List NodeId}
    (h : exec l t s (.setSuccessors n succs) = some (u, s')) :
    view M s' = { view M s with successors := Function.update (view M s).successors n succs } := by
  cases h
  rw [view_update]
  change View.mk _ _ _ _ _ (Function.update (view M s).mutex n (s.node n).mutex) _ _ _ _ = _
  simp

omit [KVProvider K] in
theorem view_push (e : Event) : view M (s.push e) = { view M s with
    held := held (e :: s.trace)
    members := M ∪ members (e :: s.trace)
    history := fun k => history k (e :: s.trace)
    linear := Linear (e :: s.trace) } := rfl

theorem view_commitJoin {x : NodeId} (h : exec l t s (.commitJoin n x) = some (u, s')) :
    view M s' = { view M s with
      predecessor := Function.update (view M s).predecessor n (some x)
      members := insert x (view M s).members } := by
  cases h
  rw [view_push, view_update, members_cons_some rfl, Set.union_insert]
  change View.mk _ _ _ _ _ (Function.update (view M s).mutex n (s.node n).mutex) _ _ _ _ = _
  simp only [update_state_same, update_successors_same, update_kv_same, update_atStop_same,
    update_mutex_same]
  rfl

theorem view_casState {old new : StateWord} {how : How} {site : Site} {b : Bool}
    (h : exec l t s (.casState n old new how site) = some (b, s')) :
    (b = true ∧ (view M s).state n = old.state ∧
      view M s' = { (view M s).swap t n new.state with
        members := if site = .create then insert n (view M s).members else (view M s).members }) ∨
    (b = false ∧ view M s' = view M s) := by
  obtain ⟨rfl, hw, rfl⟩ | ⟨rfl, rfl⟩ := exec_casState h
  · refine .inl ⟨rfl, congrArg StateWord.state hw, ?_⟩
    have hmembers : M ∪ members (.swapped t n how site old.state new.state :: s.trace) =
        if site = .create then insert n (M ∪ members s.trace) else M ∪ members s.trace := by
      split_ifs with hs
      · rw [members_cons_some (n := n) (by rw [hs]; rfl), Set.union_insert]
      · rw [members_cons_none (by cases site <;> simp_all [Event.admits])]
    have hheld : held (.swapped t n how site old.state new.state :: s.trace) =
        fun t' m => if m = n then (if t = t' ∧ new.state.isHeld then some new.state else none)
          else held s.trace t' m := funext fun t' => funext fun m => held_swapped
    rw [view_push, view_update, trace_update, hmembers, hheld]
    change View.mk _ _ _ _ _ (Function.update (view M s).mutex n (s.node n).mutex) _ _ _ _ = _
    simp only [Node.swap, update_predecessor_same, update_successors_same, update_kv_same,
      update_mutex_same]
    rfl
  · refine .inr ⟨rfl, ?_⟩
    rw [view_push, members_cons_none rfl]
    rfl

omit [KVProvider K] in
theorem view_update_kv (kv : K) : view M (s.update n fun x => { x with kv := kv }) =
    { view M s with kv := Function.update (view M s).kv n kv } := by
  rw [view_update]
  change View.mk _ _ _ _ _ (Function.update (view M s).mutex n (s.node n).mutex) _ _ _ _ = _
  simp only [update_state_same, update_predecessor_same, update_successors_same,
    update_atStop_same, update_mutex_same]

theorem view_importKeys {values : List KVTransfer} (hl : l.fails = false)
    (h : exec l t s (.importKeys n keys values) = some (res, s')) :
    res = (KVProvider.importKeys keys values ((view M s).kv n)).1 ∧
      view M s' = { view M s with
        kv := Function.update (view M s).kv n
          (KVProvider.importKeys keys values ((view M s).kv n)).2 } := by
  have hfail : l ≠ .fail := by
    rintro rfl
    cases hl
  simp only [exec, hl, if_neg hfail, Bool.false_eq_true, if_false] at h
  split_ifs at h
  cases h
  refine ⟨rfl, ?_⟩
  rw [view_push, view_update_kv, members_cons_none rfl]
  rfl

theorem view_removeKeys (hl : l.fails = false)
    (h : exec l t s (.removeKeys n keys) = some (res, s')) :
    view M s' = { view M s with
      kv := Function.update (view M s).kv n (KVProvider.removeKeys keys ((view M s).kv n)).2 } := by
  simp only [exec, hl, Bool.false_eq_true, if_false] at h
  cases h
  exact view_update_kv _

theorem view_handle {q : Request} {res : Except ChordError Reply} (hl : l.fails = false)
    (h : exec l t s (.handle n q) = some (res, s')) :
    view M s' = { view M s with
      kv := Function.update (view M s).kv n (KVProvider.handle q ((view M s).kv n)).2
      history := fun k => if q.key = k then (((view M s).history k).handle q).2
        else (view M s).history k
      linear := (KVProvider.handle q ((view M s).kv n)).1 =
        (((view M s).history q.key).handle q).1 ∧ (view M s).linear } := by
  simp only [exec, hl, Bool.false_eq_true, if_false] at h
  cases h
  rw [view_push, view_update_kv, members_cons_none rfl]
  rfl

end View

end Specter
