import Specter.Proofs.Programs
import Specter.Proofs.Lookup

/-!
# Who holds a membership lock

A node that is Joining, Transferring or Leaving is held by the run that put it there.  The trace
records every change, so what a run holds is read off it (`held`), and that all changes so far were
permitted is a property of the trace (`WellFormed`), which follows one run at a time (`ownership`).
-/

namespace Specter

open Lib (Prog Rules)

variable {site : Site} {how : How} {e : Event}

def State.isHeld : State → Bool
  | .joining | .transferring | .leaving => true
  | .inactive | .active | .left => false

/-- The last change of the state of `n`: by which thread, and to what. -/
def lastSwap (n : NodeId) : List Event → Option (ℕ × State)
  | [] => none
  | .swapped t m _ _ _ new :: es => if m = n then some (t, new) else lastSwap n es
  | _ :: es => lastSwap n es

/-- The state in which thread `t` holds `n`, if it does. -/
def held (es : List Event) (t : ℕ) (n : NodeId) : Option State :=
  match lastSwap n es with
  | some (t', st) => if t' = t ∧ st.isHeld then some st else none
  | none => none

/-- The changes that take a node nobody holds. -/
inductive Takes : Site → State → State → Prop where
  | create : Takes .create .inactive .joining
  | join : Takes .join .inactive .joining
  | requestToJoin : Takes .requestToJoin .active .transferring
  | requestToLeave : Takes .requestToLeave .active .transferring
  | executeLeave : Takes .executeLeave .active .leaving

/-- The changes that give a held node back. -/
inductive Gives : How → Site → State → State → Prop where
  | create : Gives .set .create .joining .active
  | join : Gives .set .join .joining .active
  | joinFailed : Gives .set .join .joining .inactive
  | requestToJoin : Gives .set .requestToJoin .transferring .active
  | finishJoin : Gives .transition .finishJoin .transferring .active
  | finishLeave : Gives .transition .finishLeave .transferring .active
  | executeLeave : Gives .set .executeLeave .leaving .active
  | leave : Gives .set .leave .leaving .left

theorem Takes.isHeld {old new : State} (h : Takes site old new) :
    old.isHeld = false ∧ new.isHeld = true := by
  cases h <;> exact ⟨rfl, rfl⟩

theorem Gives.isHeld {old new : State} (h : Gives how site old new) :
    old.isHeld = true ∧ new.isHeld = false := by
  cases h <;> exact ⟨rfl, rfl⟩

/-- What may happen after `es`: a free node is taken or a held one given back by its holder, as
part of a run that does so; only taking a node can be refused. -/
def Permitted (runs : ℕ → Site → Prop) (es : List Event) : Event → Prop
  | .swapped t n how site old new =>
    runs t site ∧
    (∀ t' st, lastSwap n es = some (t', st) → st = old) ∧
    (how = .transition ∧ Takes site old new ∨ Gives how site old new ∧ held es t n = some old)
  | .refused _ _ how site => how = .transition ∧ site ≠ .finishJoin ∧ site ≠ .finishLeave
  | _ => True

def WellFormed (runs : ℕ → Site → Prop) : List Event → Prop
  | [] => True
  | e :: es => Permitted runs es e ∧ WellFormed runs es

section Trace

variable {runs : ℕ → Site → Prop} {es : List Event} {t t' : ℕ} {n m : NodeId} {how : How}
  {site : Site} {old new st : State} {later : List Event}

theorem lastSwap_of_held (h : held es t n = some st) : lastSwap n es = some (t, st) := by
  unfold held at h
  rcases hl : lastSwap n es with _ | ⟨t', st'⟩
  · simp [hl] at h
  · simp only [hl] at h
    split_ifs at h with hc
    simp only [Option.some.injEq] at h
    rw [hc.1, h]

theorem isHeld_of_held (h : held es t n = some st) : st.isHeld = true := by
  unfold held at h
  rw [lastSwap_of_held h] at h
  by_contra hst
  simp [hst] at h

theorem held_of_lastSwap (h : lastSwap n es = some (t, st)) (hst : st.isHeld = true) :
    held es t n = some st := by
  simp [held, h, hst]

theorem mem_of_lastSwap (h : lastSwap n es = some (t, st)) :
    ∃ how site old, .swapped t n how site old st ∈ es := by
  induction es with
  | nil => simp [lastSwap] at h
  | cons e es ih =>
    cases e with
    | swapped t₁ m how site old new =>
      simp only [lastSwap] at h
      split_ifs at h with hm
      · cases h
        subst hm
        exact ⟨how, site, old, .head _⟩
      · obtain ⟨how', site', old', hmem⟩ := ih h
        exact ⟨how', site', old', .tail _ hmem⟩
    | _ =>
      obtain ⟨how', site', old', hmem⟩ := ih h
      exact ⟨how', site', old', .tail _ hmem⟩

theorem held_unique (h : held es t n = some st) {st' : State} (h' : held es t' n = some st') :
    t' = t ∧ st' = st := by
  have := (lastSwap_of_held h').symm.trans (lastSwap_of_held h)
  simpa using this

theorem held_swapped : held (.swapped t n how site old new :: es) t' m =
    if m = n then (if t = t' ∧ new.isHeld then some new else none) else held es t' m := by
  by_cases h : n = m
  · simp [held, lastSwap, h]
  · have hl : lastSwap m (.swapped t n how site old new :: es) = lastSwap m es := by
      simp [lastSwap, h]
    rw [if_neg (Ne.symm h), held, held, hl]

def Event.isSilent : Event → Bool
  | .swapped .. | .refused .. => false
  | _ => true

theorem lastSwap_silent (h : e.isSilent = true) (n : NodeId) :
    lastSwap n (e :: es) = lastSwap n es := by
  cases e <;> simp_all [Event.isSilent, lastSwap]

theorem wellFormed_silent (h : e.isSilent = true) (hw : WellFormed runs es) :
    WellFormed runs (e :: es) := by
  refine ⟨?_, hw⟩
  cases e <;> simp_all [Event.isSilent, Permitted]

theorem WellFormed.permitted (h : WellFormed runs (later ++ e :: es)) : Permitted runs es e := by
  induction later with
  | nil => exact h.1
  | cons _ later ih => exact ih h.2

theorem WellFormed.swapped_of_lastSwap (h : WellFormed runs es)
    (hl : lastSwap n es = some (t, st)) :
    ∃ es' how site old, Permitted runs es' (.swapped t n how site old st) := by
  obtain ⟨how, site, old, hmem⟩ := mem_of_lastSwap hl
  obtain ⟨later, earlier, rfl⟩ := List.append_of_mem hmem
  exact ⟨earlier, how, site, old, h.permitted⟩

theorem lastSwap_cons (n : NodeId) (e : Event) (es : List Event) :
    lastSwap n (e :: es) = lastSwap n es ∨
      ∃ t how site old new, e = .swapped t n how site old new := by
  cases e with
  | swapped t m how site old new =>
    by_cases hm : m = n
    · exact .inr ⟨t, how, site, old, new, hm ▸ rfl⟩
    · exact .inl (if_neg hm)
  | _ => exact .inl rfl

theorem held_cons (h : ∀ t how site old new, e ≠ .swapped t n how site old new) :
    held (e :: es) t n = held es t n := by
  obtain hsame | ⟨t', how, site, old, new, rfl⟩ := lastSwap_cons n e es
  · rw [held, held, hsame]
  · exact absurd rfl (h t' how site old new)

theorem Permitted.of_held (h : Permitted runs es e) (hl : held es t n = some st) :
    lastSwap n (e :: es) = some (t, st) ∨
      ∃ how site new, e = .swapped t n how site st new ∧ Gives how site st new := by
  obtain hsame | ⟨t', how, site, old, new, rfl⟩ := lastSwap_cons n e es
  · exact .inl (hsame ▸ lastSwap_of_held hl)
  obtain ⟨-, hold, htake | ⟨hgive, hheld⟩⟩ := h
  · have := hold t st (lastSwap_of_held hl)
    rw [← this] at htake
    exact absurd (htake.2.isHeld.1) (by simp [isHeld_of_held hl])
  · obtain ⟨rfl, rfl⟩ : t' = t ∧ old = st := by
      have := (lastSwap_of_held hheld).symm.trans (lastSwap_of_held hl)
      simpa using this
    exact .inr ⟨how, site, new, rfl, hgive⟩

theorem Permitted.of_left (h : Permitted runs es e) (hl : lastSwap n es = some (t, .left)) :
    lastSwap n (e :: es) = some (t, .left) := by
  obtain hsame | ⟨t', how, site, old, new, rfl⟩ := lastSwap_cons n e es
  · exact hsame ▸ hl
  obtain ⟨-, hold, ⟨-, htake⟩ | ⟨hgive, -⟩⟩ := h
  · rw [← hold t _ hl] at htake
    cases htake
  · rw [← hold t _ hl] at hgive
    cases hgive

/-- A run that held both its locks still does, or its node has left, unless it has given one of
them up. -/
theorem WellFormed.both_locks (h : WellFormed runs (later ++ es)) (hn : held es t n = some .leaving)
    (hm : held es t m = some .transferring)
    (hrel : ∀ how site old new, .swapped t m how site old new ∉ later)
    (hup : .swapped t n .set .executeLeave .leaving .active ∉ later) :
    lastSwap m (later ++ es) = some (t, .transferring) ∧
      (lastSwap n (later ++ es) = some (t, .leaving) ∨
        lastSwap n (later ++ es) = some (t, .left)) := by
  induction later with
  | nil => exact ⟨lastSwap_of_held hm, .inl (lastSwap_of_held hn)⟩
  | cons e later ih =>
    obtain ⟨hp, hw⟩ : Permitted runs (later ++ es) e ∧ WellFormed runs (later ++ es) := h
    obtain ⟨ihm, ihn⟩ := ih hw (fun how site old new hmem => hrel _ _ _ _ (.tail _ hmem))
      fun hmem => hup (.tail _ hmem)
    refine ⟨?_, ?_⟩
    · obtain hsame | ⟨how, site, new, rfl, -⟩ := hp.of_held (held_of_lastSwap ihm rfl)
      · exact hsame
      · exact absurd (.head _) (hrel _ _ _ _)
    rcases ihn with ihn | ihn
    · obtain hsame | ⟨how, site, new, rfl, hgive⟩ := hp.of_held (held_of_lastSwap ihn rfl)
      · exact .inl hsame
      · cases hgive with
        | executeLeave => exact absurd (.head _) hup
        | leave => exact .inr (if_pos rfl)
    · exact .inr (hp.of_left ihn)

end Trace

section Rules

variable {K : Type} [KVProvider K] {hash : Bytes → ℕ} {fuel t : ℕ} {runs : ℕ → Site → Prop}
  {s : Shared K} {L : NodeId → Option State} {n : NodeId} {s' : Shared K} {a : Act}

/-- All changes were permitted, and the state of a node is the one it was last changed to; a node
that was never changed is free. -/
structure Owned (runs : ℕ → Site → Prop) (s : Shared K) : Prop where
  wf : WellFormed runs s.trace
  state : ∀ n t st, lastSwap n s.trace = some (t, st) → (s.node n).state.state = st
  free : ∀ n, lastSwap n s.trace = none → (s.node n).state.state.isHeld = false

structure LeavesOthers (t : ℕ) (s s' : Shared K) : Prop where
  adds : Adds t s s'
  held : ∀ t', t' ≠ t → held s'.trace t' = held s.trace t'
  state : ∀ t', t' ≠ t → ∀ n, Specter.held s.trace t' n ≠ none →
    (s'.node n).state = (s.node n).state

omit [KVProvider K] in
theorem LeavesOthers.refl (t : ℕ) (s : Shared K) : LeavesOthers t s s :=
  ⟨.inl rfl, fun _ _ => rfl, fun _ _ _ _ => rfl⟩

/-- The thread holds exactly these nodes, in these states. -/
def Holds (t : ℕ) (L : NodeId → Option State) (s : Shared K) : Prop := held s.trace t = L

def nothing : NodeId → Option State := fun _ => none

def NotBegun (t : ℕ) (s : Shared K) : Prop := ∀ e ∈ s.trace, e.thread ≠ t

/-- What the runs of a system do besides: the calls they change states in, what is known of their
steps, the tasks they start, and what they leave behind. -/
structure Policy (K : Type) where
  runs : ℕ → Site → Prop
  known : ℕ → Shared K → Shared K → Prop
  starts : Task → Prop
  post : ℕ → Shared K → Prop

def Policy.rules (C : Policy K) (hash : Bytes → ℕ) (fuel : ℕ) : Rules (cluster K hash fuel) where
  ok _ := True
  known := C.known
  inv := Owned C.runs
  guar := LeavesOthers
  fresh := NotBegun
  pre τ _ := C.starts τ
  post := C.post

variable {C : Policy K}

theorem Policy.leavesOthers (h : (C.rules hash fuel).Fact t s s') : LeavesOthers t s s' := by
  rcases h.2.2.1 with hg | rfl
  · exact hg
  · exact .refl t _

theorem stable_notBegun : (C.rules hash fuel).Stable t (NotBegun t) :=
  fun _ _ _ hne _ _ hg _ h _ he ht => h _ (hg.adds.other (ht ▸ hne.symm) he) ht

theorem stable_holds (L : NodeId → Option State) :
    (C.rules hash fuel).Stable t (Holds t L) :=
  fun _ _ _ hne _ _ hg _ h => (hg.held t (Ne.symm hne)).trans h

omit [KVProvider K] in
theorem NotBegun.holds (h : NotBegun t s) : Holds t nothing s := by
  funext n
  rcases hh : held s.trace t n with _ | st
  · rfl
  · obtain ⟨how, site, old, hmem⟩ := mem_of_lastSwap (lastSwap_of_held hh)
    exact absurd rfl (h _ hmem)

def Act.isCas : Act → Bool
  | .casState .. => true
  | _ => false

theorem records_silent (ha : a.isCas = false) (h : a.Records t e) : e.isSilent = true := by
  cases a <;> simp only [Act.Records] at h
  case casState => simp [Act.isCas] at ha
  case handle =>
    obtain ⟨res, rfl⟩ := h
    rfl
  all_goals
    subst h
    rfl

omit [KVProvider K] in
theorem Owned.silent (h : Owned runs s) (hst : ∀ n, (s'.node n).state = (s.node n).state)
    (htr : s'.trace = s.trace ∨ ∃ e, e.isSilent = true ∧ s'.trace = e :: s.trace)
    (hadd : Adds t s s') :
    Owned runs s' ∧ LeavesOthers t s s' ∧ held s'.trace t = held s.trace t := by
  obtain ⟨hwf, hstate, hfree⟩ := h
  have hlast : ∀ n, lastSwap n s'.trace = lastSwap n s.trace := fun n => by
    rcases htr with htr | ⟨e, he, htr⟩
    · rw [htr]
    · rw [htr, lastSwap_silent he]
  have hheld : held s'.trace = held s.trace := by
    funext t n
    rw [held, held, hlast]
  refine ⟨⟨?_, fun n t st hl => ?_, fun n hl => ?_⟩,
    ⟨hadd, fun t' _ => by rw [hheld], fun t' _ n _ => hst n⟩, by rw [hheld]⟩
  · rcases htr with htr | ⟨e, he, htr⟩
    · rwa [htr]
    · rw [htr]
      exact wellFormed_silent he hwf
  · rw [hst]
    exact hstate n t st (hlast n ▸ hl)
  · rw [hst]
    exact hfree n (hlast n ▸ hl)

theorem keeps_holds (ha : a.isCas = false) (L : NodeId → Option State) :
    (C.rules hash fuel).Keeps t (Holds t L) a := by
  intro s l r s' hi hh _ he _
  have hst : ∀ n, (s'.node n).state = (s.node n).state := fun n => by
    have hw : a.writes .state n = false := by
      cases a with
      | casState => simp [Act.isCas] at ha
      | _ => simp [Act.writes]
    exact exec_frame he hw
  have htr : s'.trace = s.trace ∨ ∃ e, e.isSilent = true ∧ s'.trace = e :: s.trace := by
    rcases exec_trace he with htr | ⟨e, hrec, htr⟩
    · exact .inl htr
    · exact .inr ⟨e, records_silent ha hrec, htr⟩
  obtain ⟨h1, h2, h3⟩ := Owned.silent hi hst htr (exec_adds he)
  exact ⟨h1, h2, h3.trans hh⟩

theorem holds_act (ha : a.isCas = false) :
    (C.rules hash fuel).Triple t (Holds t L) (Prog.perform a) fun _ => Holds t L :=
  .keeps (stable_holds L) (keeps_holds ha L)

omit [KVProvider K] in
theorem Owned.swapped (h : Owned runs s) (new : StateWord)
    (hp : Permitted runs s.trace (.swapped t n how site (s.node n).state.state new.state))
    (hfree : ∀ t', t' ≠ t → held s.trace t' n = none) :
    Owned runs ((s.update n (·.swap new)).push
      (.swapped t n how site (s.node n).state.state new.state)) ∧
    LeavesOthers t s ((s.update n (·.swap new)).push
      (.swapped t n how site (s.node n).state.state new.state)) := by
  refine ⟨⟨⟨hp, h.wf⟩, fun m t' st hl => ?_, fun m hl => ?_⟩,
    ⟨.inr ⟨_, rfl, rfl⟩, fun t' ht => ?_, fun t' ht m hm => ?_⟩⟩
  · simp only [trace_push, trace_update, lastSwap] at hl
    rw [node_push, node_update]
    split_ifs at hl with hnm
    · rw [if_pos hnm.symm]
      simp only [Option.some.injEq, Prod.mk.injEq] at hl
      exact hl.2
    · rw [if_neg (Ne.symm hnm)]
      exact h.state m t' st hl
  · simp only [trace_push, trace_update, lastSwap] at hl
    split_ifs at hl with hnm
    rw [node_push, node_update_ne (Ne.symm hnm)]
    exact h.free m hl
  · funext m
    rw [trace_push, trace_update, held_swapped]
    split_ifs with hnm ht'
    · exact absurd ht'.1.symm ht
    · rw [hnm, hfree t' ht]
    · rfl
  · have hmn : m ≠ n := fun hmn => hm (hmn ▸ hfree t' ht)
    rw [node_push, node_update_ne hmn]

omit [KVProvider K] in
theorem Owned.refused (h : Owned runs s) (t : ℕ) (n : NodeId)
    (hs : site ≠ .finishJoin ∧ site ≠ .finishLeave) :
    Owned runs (s.push (.refused t n .transition site)) ∧
      LeavesOthers t s (s.push (.refused t n .transition site)) :=
  ⟨⟨⟨⟨rfl, hs⟩, h.wf⟩, h.state, h.free⟩,
    ⟨.inr ⟨_, rfl, rfl⟩, fun _ _ => rfl, fun _ _ _ _ => rfl⟩⟩

omit [KVProvider K] in
theorem Owned.held_eq (h : Owned runs s) {t' : ℕ} {st : State} (hh : held s.trace t' n = some st) :
    (s.node n).state.state = st :=
  h.state n t' st (lastSwap_of_held hh)

omit [KVProvider K] in
theorem Owned.not_held (h : Owned runs s) (hf : (s.node n).state.state.isHeld = false) (t' : ℕ) :
    held s.trace t' n = none := by
  rcases hh : held s.trace t' n with _ | st
  · rfl
  · have := isHeld_of_held hh
    rw [h.held_eq hh, this] at hf
    exact absurd hf (by simp)

omit [KVProvider K] in
theorem Holds.swapped (h : Holds t L s) (n : NodeId) (how : How) (site : Site) (old : State)
    (new : StateWord) :
    Holds t (Function.update L n (if new.state.isHeld then some new.state else none))
      ((s.update n (·.swap new)).push (.swapped t n how site old new.state)) := by
  funext m
  rw [trace_push, trace_update, held_swapped, h, Function.update_apply]
  by_cases hm : m = n
  · simp [hm]
  · simp [hm]

theorem triple_take {exp nxt : State} (hrun : C.runs t site) (ht : Takes site exp nxt)
    (L : NodeId → Option State) (n : NodeId) :
    (C.rules hash fuel).Triple t (Holds t L) (transition n exp nxt .transition site)
      fun b s => (b = true → L n = none) ∧
        Holds t (if b then Function.update L n (some nxt) else L) s := by
  refine .bind (holds_act rfl) fun (w : StateWord) => ?_
  refine .perform (stable_holds L) (fun _ => (Rules.Stable.const _).and (stable_holds _))
    fun s l r s' hi hh _ he _ => ?_
  change exec l t s (.casState n ⟨w.index, exp⟩ ⟨w.index + 1, nxt⟩ .transition site) = _ at he
  obtain ⟨rfl, hw, rfl⟩ | ⟨rfl, rfl⟩ := exec_casState (l := l) he
  · have hst : (s.node n).state.state = exp := by rw [hw]
    have hp : Permitted C.runs s.trace
        (.swapped t n .transition site (s.node n).state.state nxt) :=
      ⟨hrun, fun t' st hl => (hi.state n t' st hl).symm, .inl ⟨rfl, hst ▸ ht⟩⟩
    have hfree := hi.not_held (hst ▸ ht.isHeld.1)
    obtain ⟨h1, h2⟩ := Owned.swapped hi ⟨w.index + 1, nxt⟩ hp fun t' _ => hfree t'
    rw [hst] at h1 h2
    have h3 := hh.swapped n .transition site exp ⟨w.index + 1, nxt⟩
    rw [if_pos ht.isHeld.2] at h3
    exact ⟨h1, h2, fun _ => hh ▸ hfree t, h3⟩
  · have hs : site ≠ .finishJoin ∧ site ≠ .finishLeave := by cases ht <;> simp
    obtain ⟨h1, h2⟩ := Owned.refused hi t n hs
    exact ⟨h1, h2, by simp, hh⟩

theorem triple_give {old new : State} (hrun : C.runs t site) (hg : Gives how site old new)
    (hL : L n = some old) :
    (C.rules hash fuel).Triple t (Holds t L) (transition n old new how site)
      fun b s => b = true ∧ Holds t (Function.update L n none) s := by
  -- while the thread holds the node, the word it has loaded stays
  have hword : ∀ w, (C.rules hash fuel).Stable t
      fun s => Holds t L s ∧ (s.node n).state = w := by
    rintro w s s' t' hne hi hi' hg' hk ⟨hh, hw⟩
    refine ⟨stable_holds L s s' t' hne hi hi' hg' hk hh, ?_⟩
    rw [hg'.state t (Ne.symm hne) n (by rw [hh, hL]; simp), hw]
  refine .bind (.perform (stable_holds L) hword fun s l w s' hi hh _ he hk => ?_) fun w => ?_
  · obtain ⟨h1, h2, h3⟩ := keeps_holds (a := .loadState n) rfl L s l w s' hi hh trivial he hk
    cases he
    exact ⟨h1, h2, h3, rfl⟩
  refine .perform (hword w) (fun b => (Rules.Stable.const _).and (stable_holds _))
    fun s l r s' hi hhw _ he _ => ?_
  obtain ⟨hh, hw⟩ := hhw
  have hheld : held s.trace t n = some old := by rw [hh, hL]
  have hst : (s.node n).state.state = old := hi.held_eq hheld
  have hcas : (s.node n).state = ⟨w.index, old⟩ := by
    rw [← hw, ← hst]
  change exec l t s (.casState n ⟨w.index, old⟩ ⟨w.index + 1, new⟩ how site) = _ at he
  simp only [exec, if_pos hcas] at he
  cases he
  have hp : Permitted C.runs s.trace (.swapped t n how site (s.node n).state.state new) :=
    ⟨hrun, fun t' st hl => (hi.state n t' st hl).symm, .inr ⟨hst ▸ hg, hst ▸ hheld⟩⟩
  obtain ⟨h1, h2⟩ := Owned.swapped hi ⟨w.index + 1, new⟩ hp fun t' ht' => by
    rw [held, lastSwap_of_held hheld]
    simp [Ne.symm ht']
  rw [hst] at h1 h2
  have h3 := hh.swapped n how site old ⟨w.index + 1, new⟩
  rw [if_neg (by simp [hg.isHeld.2])] at h3
  exact ⟨h1, h2, rfl, h3⟩

theorem triple_set {site : Site} {old val : State} (hrun : C.runs t site)
    (hg : Gives .set site old val) {L : NodeId → Option State} {n : NodeId} (hL : L n = some old) :
    ∀ rounds, (C.rules hash fuel).Triple t (Holds t L) (setState rounds n val site)
      fun _ => Holds t (Function.update L n none)
  | 0 => triple_halt
  | rounds + 1 => by
    refine .bind (Q := fun w s => w.state = old ∧ Holds t L s)
      (.perform (stable_holds L) (fun w => (Rules.Stable.const _).and (stable_holds L))
        fun s l w s' hi hh _ he hk => ?_) fun w => ?_
    · obtain ⟨h1, h2, h3⟩ := keeps_holds (a := .loadState n) rfl L s l w s' hi hh trivial he hk
      cases he
      exact ⟨h1, h2, hi.held_eq (by rw [hh, hL]), h3⟩
    refine .assume fun hw => ?_
    rw [hw]
    refine .bind (triple_give hrun hg hL) fun b => .assume fun hb => ?_
    rw [if_pos hb]
    exact .same (stable_holds _)

end Rules

end Specter
