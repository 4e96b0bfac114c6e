import Specter.Proofs.Lookup

/-!
# Notify keeps the closest predecessor

As long as the known predecessors answer, calls of `Notify` keep the closest candidate so far, in
whatever order the candidates come (`Nearest`).
-/

namespace Specter

open Lib (Prog Arc.Ioo)

def notifyAll (n : NodeId) : List NodeId → Chord Unit
  | [] => return ()
  | c :: rest => do
    let _ ← notify n c
    notifyAll n rest

/-- The node that a call of `Notify` makes the predecessor, if any. -/
def newPredecessor (answers : NodeId → Bool) (n : NodeId) (pre : Option NodeId) (c : NodeId) :
    Option NodeId :=
  match pre with
  | none => some c
  | some p =>
    if p = c then none
    else if answers p then (if between p c n false then some c else none)
    else some c

theorem cwDistance_le_of_not_ioo {p c n : ℕ} (hc : c < maxIdentifier) (h : ¬ Arc.Ioo p n c) :
    cwDistance p n ≤ cwDistance c n := by
  unfold Arc.Ioo at h
  unfold cwDistance
  split_ifs at h ⊢ <;> omega

section Notify

variable {K : Type} {s s' : Shared K} {n c : NodeId}

def Shared.answers (s : Shared K) (p : NodeId) : Bool :=
  (stateError true (s.node p).state.state).isNone

/-- Nobody else is at work at the node, which takes calls. -/
structure Listening (s : Shared K) (n : NodeId) : Prop where
  state : stateError false (s.node n).state.state = none
  predecessorMu : (s.node n).predecessorMu = .unlocked
  surrogateMu : (s.node n).surrogateMu = .unlocked

structure Heard (s s' : Shared K) (n c : NodeId) : Prop where
  kept : newPredecessor s.answers n (s.node n).predecessor c = none → s' = s
  took : ∀ x, newPredecessor s.answers n (s.node n).predecessor c = some x →
    (s'.node n).predecessor = some x ∧ (s'.node n).surrogate = if x = n then none else some x
  others : ∀ q, ∃ a b, s'.node q = { s.node q with surrogate := a, predecessor := b }

theorem Heard.state (h : Heard s s' n c) (q : NodeId) : (s'.node q).state = (s.node q).state := by
  obtain ⟨a, b, hq⟩ := h.others q
  rw [hq]

theorem Heard.listening (h : Heard s s' n c) (hs : Listening s n) : Listening s' n := by
  obtain ⟨a, b, hq⟩ := h.others n
  exact ⟨by rw [hq]; exact hs.state, by rw [hq]; exact hs.predecessorMu,
    by rw [hq]; exact hs.surrogateMu⟩

theorem Heard.answers (h : Heard s s' n c) : s'.answers = s.answers := by
  funext q
  simp only [Shared.answers, h.state]

theorem Heard.closer (h : Heard s s' n c) (hc : c < maxIdentifier) {p : NodeId}
    (hp : p < maxIdentifier) (hpre : (s.node n).predecessor = some p) (ha : s.answers p = true) :
    ∃ p', (s'.node n).predecessor = some p' ∧ cwDistance p' n ≤ cwDistance p n := by
  have hnew : newPredecessor s.answers n (s.node n).predecessor c = none ∨
      newPredecessor s.answers n (s.node n).predecessor c = some c ∧ Arc.Ioo p n c := by
    rw [hpre, newPredecessor, if_pos ha]
    split_ifs with h₁ h₂
    · exact .inl rfl
    · exact .inr ⟨rfl, between_eq_ioo.1 h₂⟩
    · exact .inl rfl
  rcases hnew with hnone | ⟨hsome, hioo⟩
  · rw [h.kept hnone]
    exact ⟨p, hpre, le_rfl⟩
  · exact ⟨c, (h.took c hsome).1, (cwDistance_lt hp hc hioo).le⟩

/-- The predecessor, and the surrogate, is the closest of the candidates. -/
def Nearest (s : Shared K) (n : NodeId) (cands : List NodeId) : Prop :=
  ∃ p ∈ cands, (s.node n).predecessor = some p ∧ (s.node n).surrogate = some p ∧
    ∀ c ∈ cands, cwDistance p n ≤ cwDistance c n

structure Candidate (s : Shared K) (n c : NodeId) : Prop where
  below : c < maxIdentifier
  ne : c ≠ n
  answers : s.answers c = true

theorem Heard.first (h : Heard s s' n c) (hc : Candidate s n c)
    (hpre : (s.node n).predecessor = none ∨ (s.node n).predecessor = some n) :
    Nearest s' n [c] := by
  have hnew : newPredecessor s.answers n (s.node n).predecessor c = some c := by
    rcases hpre with hpre | hpre
    · rw [hpre]
      rfl
    · have hb : between n c n false = true := between_eq_ioo.2 (Lib.Arc.ioo_self.2 hc.ne)
      rw [hpre, newPredecessor, if_neg hc.ne.symm, hb]
      simp
  obtain ⟨h₁, h₂⟩ := h.took c hnew
  rw [if_neg hc.ne] at h₂
  exact ⟨c, List.mem_singleton_self c, h₁, h₂, by simp⟩

theorem Heard.nearest (h : Heard s s' n c) {seen : List NodeId} (hc : Candidate s n c)
    (hseen : ∀ x ∈ seen, Candidate s n x) (hs : Nearest s n seen) :
    Nearest s' n (seen ++ [c]) := by
  obtain ⟨p, hp, hpre, hsur, hmin⟩ := hs
  have hlive := hseen p hp
  have hcases : newPredecessor s.answers n (s.node n).predecessor c = none ∧
      cwDistance p n ≤ cwDistance c n ∨
      newPredecessor s.answers n (s.node n).predecessor c = some c ∧
        cwDistance c n < cwDistance p n := by
    rw [hpre, newPredecessor, if_pos hlive.answers]
    split_ifs with h₁ h₂
    · exact .inl ⟨rfl, by rw [h₁]⟩
    · exact .inr ⟨rfl, cwDistance_lt hlive.below hc.below (between_eq_ioo.1 h₂)⟩
    · refine .inl ⟨rfl, cwDistance_le_of_not_ioo hc.below ?_⟩
      exact fun hioo => h₂ (between_eq_ioo.2 hioo)
  rcases hcases with ⟨hnone, hle⟩ | ⟨hsome, hlt⟩
  · rw [h.kept hnone]
    refine ⟨p, List.mem_append_left _ hp, hpre, hsur, fun x hx => ?_⟩
    rcases List.mem_append.1 hx with hx | hx
    · exact hmin x hx
    · rw [List.mem_singleton.1 hx]
      exact hle
  · obtain ⟨h₁, h₂⟩ := h.took c hsome
    rw [if_neg hc.ne] at h₂
    refine ⟨c, by simp, h₁, h₂, fun x hx => ?_⟩
    rcases List.mem_append.1 hx with hx | hx
    · exact hlt.le.trans (hmin x hx)
    · rw [List.mem_singleton.1 hx]

theorem Heard.candidate (h : Heard s s' n c) {x : NodeId} (hx : Candidate s n x) :
    Candidate s' n x :=
  ⟨hx.below, hx.ne, by rw [h.answers]; exact hx.answers⟩

end Notify

section Runs

variable {K : Type} [KVProvider K] {hash : Bytes → ℕ} {fuel t : ℕ} {s : Shared K} {n c : NodeId}

/-- The two handles that a call compares are taken from one field, which nobody else changes. -/
def OneHandle (_ : Act) (l : Fault) : Prop := l ≠ .otherHandle

theorem sameHandle_self {l : Fault} (hl : l ≠ .otherHandle) (x : Option NodeId) :
    l.sameHandle x x = true := by
  simp [Fault.sameHandle, hl]

theorem alone_notifyCandidate_eq {pre : Option NodeId} :
    (cluster K hash fuel).Alone OneHandle t
      (fun r s' => s' = s ∧ r = newPredecessor s.answers n pre c) (notifyCandidate n pre c) s := by
  rcases pre with _ | p
  · exact ⟨rfl, rfl⟩
  rw [notifyCandidate, newPredecessor]
  by_cases hpc : p = c
  · rw [if_pos hpc, if_pos hpc]
    exact ⟨rfl, rfl⟩
  rw [if_neg hpc, if_neg hpc]
  simp only [ping, checkNodeState, Lib.Machine.alone_bind]
  refine alone_loadState ?_
  rcases he : stateError true (s.node p).state.state with _ | e
  · have ha : s.answers p = true := by simp [Shared.answers, he]
    simp [ha]
  · have ha : s.answers p = false := by simp [Shared.answers, he]
    simp [ha]

theorem alone_notify_heard (h : Listening s n) :
    (cluster K hash fuel).Alone OneHandle t (fun _ s' => Heard s s' n c) (notify n c) s := by
  simp only [notify, checkNodeState, Lib.Machine.alone_bind]
  refine alone_loadState ?_
  simp only [Prog.pure_eq, Lib.Machine.alone_ret, h.state, Lib.Machine.alone_bind]
  refine fun _ _ => ⟨_, _, if_pos (by rw [h.surrogateMu]; rfl), ?_⟩
  refine alone_getPredecessor (by rw [h.predecessorMu]; rfl) ?_
  refine alone_notifyCandidate_eq.mono ?_
  rintro r s' ⟨rfl, hr⟩
  rcases hnew : newPredecessor s'.answers n (s'.node n).predecessor c with _ | x
  · rw [hr, hnew]
    refine ⟨fun _ => rfl, fun x hx => ?_, fun q => ⟨_, _, rfl⟩⟩
    rw [hnew] at hx
    cases hx
  rw [hr, hnew]
  simp only [Lib.Machine.alone_bind]
  refine fun l hl => ⟨_, _, if_pos (by rw [h.surrogateMu]; rfl), ?_⟩
  refine fun l' hl' => ⟨_, _, if_pos (by rw [node_update_self, h.predecessorMu]; rfl), ?_⟩
  refine ⟨fun hno => ?_, fun y hy => ?_, fun q => ?_⟩
  · rw [hnew] at hno
    cases hno
  · rw [hnew] at hy
    obtain rfl := Option.some.inj hy
    simp [sameHandle_self hl, sameHandle_self hl']
  · by_cases hq : q = n
    · subst hq
      simp only [node_update_self]
      exact ⟨_, _, rfl⟩
    · simp only [node_update_ne hq]
      exact ⟨_, _, rfl⟩

theorem alone_notifyAll : ∀ {rest seen : List NodeId} {s : Shared K}, Listening s n →
    (∀ x ∈ seen ++ rest, Candidate s n x) → Nearest s n seen →
    (cluster K hash fuel).Alone OneHandle t (fun _ s' => Nearest s' n (seen ++ rest))
      (notifyAll n rest) s
  | [], seen, s, _, _, hs => by
    rw [List.append_nil]
    exact hs
  | c :: rest, seen, s, hl, hlive, hs => by
    rw [notifyAll, Lib.Machine.alone_bind]
    refine (alone_notify_heard hl).mono fun _ s₁ h => ?_
    have hnear := h.nearest (hlive c (by simp))
      (fun x hx => hlive x (List.mem_append_left _ hx)) hs
    have hcand : ∀ x ∈ (seen ++ [c]) ++ rest, Candidate s₁ n x := fun x hx =>
      h.candidate (hlive x (by simpa using hx))
    have := alone_notifyAll (h.listening hl) hcand hnear
    rwa [List.append_assoc, List.singleton_append] at this

/-- From no predecessor, or the node itself, calls with live candidates in any order end with the
closest of them as predecessor and surrogate; and while the predecessor answers, no call moves it
farther away. -/
theorem notify_converges (hl : Listening s n)
    (hpre : (s.node n).predecessor = none ∨ (s.node n).predecessor = some n) {cands : List NodeId}
    (hlive : ∀ c ∈ cands, Candidate s n c) :
    (cluster K hash fuel).Alone OneHandle t
      (fun _ s' => (cands = [] → s' = s) ∧ (cands ≠ [] → Nearest s' n cands))
      (notifyAll n cands) s ∧
    ∀ (s₁ : Shared K) (p c : NodeId), Listening s₁ n → p < maxIdentifier → c < maxIdentifier →
      (s₁.node n).predecessor = some p → s₁.answers p = true →
      (cluster K hash fuel).Alone OneHandle t
        (fun _ s' => ∃ p', (s'.node n).predecessor = some p' ∧ cwDistance p' n ≤ cwDistance p n)
        (notify n c) s₁ := by
  constructor
  · rcases cands with _ | ⟨c, rest⟩
    · exact ⟨fun _ => rfl, fun h => absurd rfl h⟩
    rw [notifyAll, Lib.Machine.alone_bind]
    refine (alone_notify_heard hl).mono fun _ s₁ h => ?_
    have hfirst := h.first (hlive c (by simp)) hpre
    refine Lib.Machine.Alone.mono (fun _ s' hs' => ⟨nofun, fun _ => hs'⟩)
      (alone_notifyAll (h.listening hl) (fun x hx => h.candidate (hlive x hx)) hfirst)
  · intro s₁ p c hl₁ hp hc hpre₁ ha
    exact (alone_notify_heard hl₁).mono fun _ s' h => h.closer hc hp hpre₁ ha

end Runs

def listener : Shared (MemoryKV fun _ => 0) where
  node n := { newLocalNode with state := ⟨2, .active⟩, predecessor := some n }
  mailbox := []
  trace := []

theorem notify_converges_listener :
    (cluster _ (fun _ => 0) 9).Alone OneHandle 0
      (fun _ s' => Nearest s' 50 [100, 7, 200, 7]) (notifyAll 50 [100, 7, 200, 7]) listener := by
  have hlive : ∀ c ∈ [100, 7, 200, 7], Candidate listener 50 c := fun c hc => by
    refine ⟨?_, ?_, rfl⟩
    · simp only [List.mem_cons, List.not_mem_nil, or_false] at hc
      rcases hc with rfl | rfl | rfl | rfl <;> decide
    · rintro rfl
      simp at hc
  exact Lib.Machine.Alone.mono (fun _ s' hs' => hs'.2 (by simp))
    (notify_converges ⟨rfl, rfl, rfl⟩ (.inr rfl) hlive).1

end Specter
