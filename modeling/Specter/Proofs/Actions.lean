import Specter.Cluster

/-!
# What the actions do

The state after an update, read field by field, and what each action does when a thread runs
alone.
-/

namespace Specter

open Lib (Prog)

variable {how : How} {site : Site}

section State

variable {K : Type} {s : Shared K} {n m : NodeId} {f : Node K → Node K} {e : Event}

@[simp] theorem node_update_self : (s.update n f).node n = f (s.node n) := by
  simp [Shared.update]

@[simp] theorem node_update_ne (h : m ≠ n) : (s.update n f).node m = s.node m := by
  simp [Shared.update, h]

theorem node_update : (s.update n f).node m = if m = n then f (s.node n) else s.node m := by
  split_ifs with h
  · rw [h, node_update_self]
  · exact node_update_ne h

@[simp] theorem trace_update : (s.update n f).trace = s.trace := rfl

@[simp] theorem node_push : (s.push e).node = s.node := rfl

@[simp] theorem trace_push : (s.push e).trace = e :: s.trace := rfl

variable {x : Node K} {mu : Mutex} {μ : RWMutex} {w : StateWord}

@[simp] theorem state_setMutex : (x.setMutex mu μ).state = x.state := by cases mu <;> rfl

@[simp] theorem predecessor_setMutex : (x.setMutex mu μ).predecessor = x.predecessor := by
  cases mu <;> rfl

@[simp] theorem surrogate_setMutex : (x.setMutex mu μ).surrogate = x.surrogate := by
  cases mu <;> rfl

@[simp] theorem successors_setMutex : (x.setMutex mu μ).successors = x.successors := by
  cases mu <;> rfl

@[simp] theorem atStop_setMutex : (x.setMutex mu μ).atStop = x.atStop := by cases mu <;> rfl

@[simp] theorem kv_setMutex : (x.setMutex mu μ).kv = x.kv := by cases mu <;> rfl

@[simp] theorem mutex_setMutex {mu' : Mutex} :
    (x.setMutex mu μ).mutex mu' = if mu' = mu then μ else x.mutex mu' := by
  cases mu <;> cases mu' <;> rfl

end State

section Frame

variable {e : Event}

/-- The fields of a node that the protocol is about. -/
inductive Field where
  | state
  | predecessor
  | surrogate
  | successors
  | kv
  | mutex (m : Mutex)
  | atStop
  deriving DecidableEq

/-- Whether the action can write this field of node `m`. -/
def Act.writes (f : Field) (m : NodeId) : Act → Bool
  | .casState n .. => (f = .state ∨ f = .atStop) ∧ m = n
  | .setPredecessor n _ | .casPredecessor n .. | .commitJoin n _ => f = .predecessor ∧ m = n
  | .casSurrogate n .. | .writeSurrogate n _ => f = .surrogate ∧ m = n
  | .setSuccessors n _ => f = .successors ∧ m = n
  | .lock mu n | .unlock mu n | .rlock mu n | .runlock mu n => f = .mutex mu ∧ m = n
  | .importKeys n .. | .removeKeys n _ | .handle n _ => f = .kv ∧ m = n
  | _ => false

variable {K : Type}

def SameField (x y : Node K) : Field → Prop
  | .state => x.state = y.state
  | .predecessor => x.predecessor = y.predecessor
  | .surrogate => x.surrogate = y.surrogate
  | .successors => x.successors = y.successors
  | .kv => x.kv = y.kv
  | .mutex m => x.mutex m = y.mutex m
  | .atStop => x.atStop = y.atStop

theorem sameField_refl (x : Node K) (f : Field) : SameField x x f := by
  cases f <;> rfl

theorem sameField_update {s : Shared K} {n m : NodeId} {g : Node K → Node K} {f : Field}
    (h : m = n → SameField (g (s.node n)) (s.node n) f) :
    SameField ((s.update n g).node m) (s.node m) f := by
  rw [node_update]
  split_ifs with hm
  · subst hm
    exact h rfl
  · exact sameField_refl _ f

variable [KVProvider K] {l : Fault} {t : ℕ} {s s' : Shared K} {a : Act} {r : a.Res}

theorem exec_frame (h : exec l t s a = some (r, s')) {f : Field} {m : NodeId}
    (hw : a.writes f m = false) : SameField (s'.node m) (s.node m) f := by
  cases a with
  | loadState | readPredecessor | readSurrogate | getSuccessors | loadSuccListHash | getFinger
  | rangeKeys | exportKeys | readStop | skipLeave | joinReturned | reply =>
    cases h
    exact sameField_refl _ f
  | getPredecessor | getSurrogate =>
    simp only [exec] at h
    split_ifs at h
    cases h
    exact sameField_refl _ f
  | newSlot =>
    simp only [exec] at h
    split_ifs at h <;> cases h <;> exact sameField_refl _ f
  | await slot =>
    simp only [exec] at h
    split_ifs at h
    · cases h
      exact sameField_refl _ f
    · obtain ⟨_, -, he⟩ := Option.map_eq_some_iff.1 h
      cases he
      exact sameField_refl _ f
  | halt => cases h
  | casState n old new how site =>
    simp only [exec] at h
    split_ifs at h <;> cases h
    · rw [node_push]
      refine sameField_update fun hm => ?_
      cases f <;> simp_all [Act.writes, SameField, Node.swap, Node.mutex]
    · exact sameField_refl _ f
  | setPredecessor n v | casPredecessor n old new | casSurrogate n old new =>
    simp only [exec] at h
    split_ifs at h
    cases h
    refine sameField_update fun hm => ?_
    cases f <;> simp_all [Act.writes, SameField, Node.mutex]
  | lock mu n | rlock mu n =>
    simp only [exec] at h
    split_ifs at h
    cases h
    refine sameField_update fun hm => ?_
    cases f <;> simp_all [Act.writes, SameField]
  | unlock mu n | runlock mu n =>
    cases h
    refine sameField_update fun hm => ?_
    cases f <;> simp_all [Act.writes, SameField]
  | commitJoin n j =>
    cases h
    rw [node_push]
    refine sameField_update fun hm => ?_
    cases f <;> simp_all [Act.writes, SameField, Node.mutex]
  | writeSurrogate n j | setSuccessors n l | setFinger n k x | closeStop n =>
    cases h
    refine sameField_update fun hm => ?_
    cases f <;> simp_all [Act.writes, SameField, Node.mutex]
  | importKeys n keys values =>
    simp only [exec] at h
    by_cases hu : (s.node n).surrogateMu.canLock = true
    swap
    · simp [hu] at h
    rw [if_pos hu] at h
    by_cases hl : l = .fail
    · simp only [hl, if_true] at h
      cases h
      exact sameField_refl _ f
    · simp only [hl, if_false] at h
      cases h
      rw [node_push]
      refine sameField_update fun hm => ?_
      cases f <;> simp_all [Act.writes, SameField, Node.mutex]
  | removeKeys n keys =>
    simp only [exec] at h
    split_ifs at h <;> cases h
    · exact sameField_refl _ f
    · refine sameField_update fun hm => ?_
      cases f <;> simp_all [Act.writes, SameField, Node.mutex]
  | handle n q =>
    simp only [exec] at h
    split_ifs at h <;> cases h
    · exact sameField_refl _ f
    · rw [node_push]
      refine sameField_update fun hm => ?_
      cases f <;> simp_all [Act.writes, SameField, Node.mutex]

theorem exec_casState {n : NodeId} {old new : StateWord} {b : Bool}
    (h : exec l t s (.casState n old new how site) = some (b, s')) :
    (b = true ∧ (s.node n).state = old ∧
      s' = (s.update n (·.swap new)).push (.swapped t n how site old.state new.state)) ∨
    (b = false ∧ s' = s.push (.refused t n how site)) := by
  simp only [exec] at h
  split_ifs at h with hw <;> cases h
  · exact .inl ⟨rfl, hw, rfl⟩
  · exact .inr ⟨rfl, rfl⟩

def Event.thread : Event → ℕ
  | .swapped t .. | .refused t .. | .accepted t .. | .handled t .. | .imported t .. | .skipped t _
  | .joinReturned t .. => t

def Act.Records (t : ℕ) : Act → Event → Prop
  | .casState n old new how site, e =>
    e = .swapped t n how site old.state new.state ∨ e = .refused t n how site
  | .commitJoin n j, e => e = .accepted t n j
  | .importKeys n keys values, e => e = .imported t n keys values
  | .handle n q, e => ∃ res, e = .handled t n q res
  | .skipLeave n, e => e = .skipped t n
  | .joinReturned n res, e => e = .joinReturned t n res
  | _, _ => False

theorem exec_trace (h : exec l t s a = some (r, s')) :
    s'.trace = s.trace ∨ ∃ e, a.Records t e ∧ s'.trace = e :: s.trace := by
  cases a with
  | loadState | readPredecessor | readSurrogate | getSuccessors | loadSuccListHash | getFinger
  | rangeKeys | exportKeys | readStop | reply | unlock | runlock | writeSurrogate | setSuccessors
  | setFinger | closeStop =>
    cases h
    exact .inl rfl
  | getPredecessor | getSurrogate | newSlot | setPredecessor | casPredecessor | casSurrogate | lock
  | rlock | removeKeys =>
    simp only [exec] at h
    split_ifs at h <;> cases h <;> exact .inl rfl
  | await slot =>
    simp only [exec] at h
    split_ifs at h
    · cases h
      exact .inl rfl
    · obtain ⟨_, -, he⟩ := Option.map_eq_some_iff.1 h
      cases he
      exact .inl rfl
  | halt => cases h
  | casState n old new how site =>
    simp only [exec] at h
    split_ifs at h <;> cases h
    · exact .inr ⟨_, .inl rfl, rfl⟩
    · exact .inr ⟨_, .inr rfl, rfl⟩
  | skipLeave | joinReturned | commitJoin =>
    cases h
    exact .inr ⟨_, rfl, rfl⟩
  | importKeys n keys values =>
    simp only [exec] at h
    by_cases hu : (s.node n).surrogateMu.canLock = true
    swap
    · simp [hu] at h
    rw [if_pos hu] at h
    by_cases hl : l = .fail
    · simp only [hl, if_true] at h
      cases h
      exact .inl rfl
    · simp only [hl, if_false] at h
      cases h
      exact .inr ⟨_, rfl, rfl⟩
  | handle n q =>
    simp only [exec] at h
    split_ifs at h <;> cases h
    · exact .inl rfl
    · exact .inr ⟨_, ⟨_, rfl⟩, rfl⟩

theorem thread_of_records (h : a.Records t e) : e.thread = t := by
  cases a <;> simp only [Act.Records] at h
  case casState => rcases h with rfl | rfl <;> rfl
  case handle =>
    obtain ⟨res, rfl⟩ := h
    rfl
  all_goals
    subst h
    rfl

def Adds (t : ℕ) (s s' : Shared K) : Prop :=
  s'.trace = s.trace ∨ ∃ e, e.thread = t ∧ s'.trace = e :: s.trace

omit [KVProvider K] in
theorem Adds.subset (h : Adds t s s') (he : e ∈ s.trace) : e ∈ s'.trace := by
  rcases h with h | ⟨e', -, h⟩
  · rwa [h]
  · rw [h]
    exact List.mem_cons_of_mem _ he

omit [KVProvider K] in
theorem Adds.other (h : Adds t s s') (ht : e.thread ≠ t) (he : e ∈ s'.trace) : e ∈ s.trace := by
  rcases h with h | ⟨e', he', h⟩
  · rwa [← h]
  · rw [h, List.mem_cons] at he
    rcases he with rfl | he
    · exact absurd he' ht
    · exact he

theorem exec_adds (h : exec l t s a = some (r, s')) : Adds t s s' := by
  rcases exec_trace h with htr | ⟨e, hrec, htr⟩
  · exact .inl htr
  · exact .inr ⟨e, thread_of_records hrec, htr⟩

theorem step_trace {hash : Bytes → ℕ} {fuel : ℕ} {c c' : Lib.Config chordSig (Shared K)}
    (h : (cluster K hash fuel).step t l c = some c') :
    c'.shared.trace = c.shared.trace ∨ ∃ e, c'.shared.trace = e :: c.shared.trace := by
  obtain ⟨a, k, r, s, -, he, rfl⟩ | ⟨τ, k, -, rfl⟩ := (cluster K hash fuel).step_cases h
  · rcases exec_trace he with htr | ⟨e, -, htr⟩
    · exact .inl htr
    · exact .inr ⟨e, htr⟩
  · exact .inl rfl

end Frame

section Alone

variable {K : Type} [KVProvider K] {hash : Bytes → ℕ} {fuel t : ℕ} {ok : Act → Fault → Prop}
  {s : Shared K} {n : NodeId} {Q : Unit → Shared K → Prop} {m : Mutex} {j : NodeId}

theorem alone_loadState {Q : StateWord → Shared K → Prop} (h : Q (s.node n).state s) :
    (cluster K hash fuel).Alone ok t Q (loadState n) s :=
  fun _ _ => ⟨_, _, rfl, h⟩

theorem alone_getPredecessor {Q : Option NodeId → Shared K → Prop}
    (hu : (s.node n).predecessorMu.canRLock) (h : Q (s.node n).predecessor s) :
    (cluster K hash fuel).Alone ok t Q (getPredecessor n) s :=
  fun _ _ => ⟨_, _, if_pos hu, h⟩

theorem alone_getSuccessors {Q : List NodeId → Shared K → Prop} (h : Q (s.node n).successors s) :
    (cluster K hash fuel).Alone ok t Q (getSuccessors n) s :=
  fun _ _ => ⟨_, _, rfl, h⟩

theorem alone_getFinger {k : ℕ} {Q : Option NodeId → Shared K → Prop}
    (h : Q ((s.node n).fingers k) s) : (cluster K hash fuel).Alone ok t Q (getFinger n k) s :=
  fun _ _ => ⟨_, _, rfl, h⟩

theorem alone_readPredecessor {Q : Option NodeId → Shared K → Prop}
    (h : Q (s.node n).predecessor s) :
    (cluster K hash fuel).Alone ok t Q (readPredecessor n) s :=
  fun _ _ => ⟨_, _, rfl, h⟩

theorem alone_lock (hu : ((s.node n).mutex m).canLock)
    (h : Q () (s.update n fun x => x.setMutex m ⟨some t, []⟩)) :
    (cluster K hash fuel).Alone ok t Q (lock m n) s :=
  fun _ _ => ⟨_, _, if_pos hu, h⟩

theorem alone_unlock (h : Q () (s.update n fun x => x.setMutex m .unlocked)) :
    (cluster K hash fuel).Alone ok t Q (unlock m n) s :=
  fun _ _ => ⟨_, _, rfl, h⟩

theorem alone_writeSurrogate (h : Q () (s.update n fun x => { x with surrogate := some j })) :
    (cluster K hash fuel).Alone ok t Q (writeSurrogate n j) s :=
  fun _ _ => ⟨_, _, rfl, h⟩

theorem alone_commitJoin
    (h : Q () ((s.update n fun x => { x with predecessor := some j }).push (.accepted t n j))) :
    (cluster K hash fuel).Alone ok t Q (commitJoin n j) s :=
  fun _ _ => ⟨_, _, rfl, h⟩

theorem alone_transition {exp nxt : State} {Q : Bool → Shared K → Prop}
    (ht : (s.node n).state.state = exp →
      Q true ((s.update n (·.swap ⟨(s.node n).state.index + 1, nxt⟩)).push
        (.swapped t n how site exp nxt)))
    (hf : (s.node n).state.state ≠ exp → Q false (s.push (.refused t n how site))) :
    (cluster K hash fuel).Alone ok t Q (transition n exp nxt how site) s := by
  rw [transition, Lib.Machine.alone_bind]
  refine alone_loadState fun l _ => ?_
  by_cases h : (s.node n).state.state = exp
  · subst h
    exact ⟨_, _, if_pos rfl, ht rfl⟩
  · refine ⟨_, _, if_neg fun hw => h ?_, hf h⟩
    rw [hw]

theorem alone_setState {rounds : ℕ} {val : State}
    (h : Q () ((s.update n (·.swap ⟨(s.node n).state.index + 1, val⟩)).push
      (.swapped t n .set site (s.node n).state.state val))) :
    (cluster K hash fuel).Alone ok t Q (setState (rounds + 1) n val site) s := by
  rw [setState, Lib.Machine.alone_bind]
  refine alone_loadState ?_
  rw [Lib.Machine.alone_bind]
  exact alone_transition (fun _ => h) fun hne => absurd rfl hne

end Alone

end Specter
