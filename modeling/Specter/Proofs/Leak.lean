import Specter.Proofs.Locks

/-!
# A failed Join and the lock it can leave behind

The RequestToJoin calls of a Join are handled by other threads, and their replies can get lost.
Whether a failed Join leaves a node Transferring is decided by whether any of its calls was
accepted.
-/

namespace Specter

open Lib (Prog Rules)

variable {n : NodeId} {e : Event} {α : Type} {p : Chord α} (rounds : ℕ) (L : NodeId → Option State)
  {l : Fault}

section Returning

variable (a : Act)

def Event.finishes : Event → Bool
  | .swapped _ _ _ .finishJoin _ _ | .refused _ _ _ .finishJoin => true
  | _ => false

def Event.failsJoin : Event → Bool
  | .joinReturned _ _ (.error _) => true
  | _ => false

/-- Whether the action can record neither. -/
def Act.isPlain : Act → Bool
  | .casState _ _ _ _ .finishJoin | .joinReturned .. => false
  | _ => true

variable {K : Type} [KVProvider K] {hash : Bytes → ℕ} {fuel t : ℕ} {j : NodeId}

theorem isPlain_reading (h : a.isReading = true) : a.isPlain = true := by
  cases a <;> simp_all [Act.isReading, Act.isPlain]

theorem isPlain_routing (h : a.isRouting n = true) : a.isPlain = true := by
  cases a <;> simp_all [Act.isRouting, Act.isReading, Act.isPlain]

theorem isPlain_handling (h : a.isHandling = true) : a.isPlain = true := by
  cases a <;> simp_all [Act.isHandling, Act.isReading, Act.isPlain]

theorem records_plain {a : Act} (ha : a.isPlain = true) (h : a.Records t e) :
    e.finishes = false ∧ e.failsJoin = false := by
  cases a <;> simp only [Act.Records] at h
  case casState n old new how site =>
    rcases h with rfl | rfl <;> cases site <;> simp_all [Act.isPlain, Event.finishes,
      Event.failsJoin]
  case handle =>
    obtain ⟨res, rfl⟩ := h
    exact ⟨rfl, rfl⟩
  case joinReturned => simp [Act.isPlain] at ha
  all_goals
    subst h
    exact ⟨rfl, rfl⟩

def Going (s : Shared K) : Prop := ∀ e ∈ s.trace, e.failsJoin = false

def Unfinished (s : Shared K) : Prop := ∀ e ∈ s.trace, e.finishes = false

def Task.serves (j : NodeId) : Task → Prop
  | .handleJoin _ _ x => x = j
  | τ => τ.isPeriodic = true

/-- Only the thread of the Join itself, the first one, finishes or fails. -/
def returning (K : Type) [KVProvider K] (hash : Bytes → ℕ) (fuel : ℕ) (j : NodeId) :
    Rules (cluster K hash fuel) where
  ok _ := True
  known _ _ _ := True
  inv s := ¬ Going s → Unfinished s
  guar t s s' := t ≠ 0 → (Going s → Going s') ∧ (Unfinished s → Unfinished s')
  fresh t _ := t ≠ 0
  pre τ _ := τ.serves j
  post _ _ := True

theorem stable_going : (returning K hash fuel j).Stable 0 Going :=
  fun _ _ _ hne _ _ hg _ h => (hg hne).1 h

theorem stable_unfinished : (returning K hash fuel j).Stable 0 Unfinished :=
  fun _ _ _ hne _ _ hg _ h => (hg hne).2 h

theorem exec_plain {s s' : Shared K} {a : Act} {r : a.Res} (ha : a.isPlain = true)
    (he : exec l t s a = some (r, s')) : (Going s' ↔ Going s) ∧ (Unfinished s → Unfinished s') := by
  rcases exec_trace he with htr | ⟨e, hrec, htr⟩
  · simp only [Going, Unfinished, htr, true_and, imp_self]
  · obtain ⟨h1, h2⟩ := records_plain ha hrec
    simp only [Going, Unfinished, htr, List.forall_mem_cons, h1, h2, true_and, imp_self]

theorem keeps_plain {a : Act} (ha : a.isPlain = true) :
    (returning K hash fuel j).Keeps t (fun _ => True) a := by
  intro s l r s' hi _ _ he _
  obtain ⟨h1, h2⟩ := exec_plain ha he
  exact ⟨fun h => h2 (hi (mt h1.2 h)), fun _ => ⟨h1.2, h2⟩, trivial⟩

theorem returning_plain (hp : p.Only (fun a : Act => a.isPlain = true) (Task.serves j)) :
    (returning K hash fuel j).Triple t (fun _ => True) p fun _ _ => True :=
  .only (.const _) (fun _ ha => keeps_plain ha) (fun _ hτ _ _ _ => hτ) hp

theorem serves_of_periodic {τ : Task} (h : τ.isPeriodic = true) : τ.serves j := by
  cases τ <;> simp_all [Task.isPeriodic, Task.serves]

theorem returning_closed : (returning K hash fuel j).Closed where
  stable _ := .const _
  safe τ t := by
    refine .assume fun hτ => .pre (P := fun _ => True) ?_ fun _ _ _ => trivial
    by_cases hper : τ.isPeriodic = true
    · exact triple_periodicTask (.const _)
        (fun a ha => keeps_plain (isPlain_routing a ha)) hper
        (fun m => returning_plain (only_notify isPlain_reading (fun _ _ _ => rfl)
          (fun _ _ _ => rfl) m _))
        (returning_plain (only_checkPredecessor isPlain_reading (fun _ _ _ => rfl) _))
        fun _ _ _ => hτ
    · cases τ with
      | handleJoin slot n x =>
        obtain rfl : x = j := hτ
        exact returning_plain (only_handleJoin isPlain_handling (fun _ _ => rfl) fuel slot n)
      | _ => exact absurd hτ hper

/-- The Join goes on: no lock has been released, and no failure returned. -/
def Ongoing (s : Shared K) : Prop := Going s ∧ Unfinished s

theorem stable_ongoing : (returning K hash fuel j).Stable 0 Ongoing :=
  stable_going.and stable_unfinished

theorem keeps_ongoing {a : Act} (ha : a.isPlain = true) :
    (returning K hash fuel j).Keeps 0 Ongoing a := by
  intro s l r s' hi hP hl he hk
  obtain ⟨h1, h2⟩ := exec_plain ha he
  exact ⟨fun h => absurd (h1.2 hP.1) h, fun h => absurd rfl h, h1.2 hP.1, h2 hP.2⟩

theorem ongoing_plain (hp : p.Only (fun a : Act => a.isPlain = true) (Task.serves j)) :
    (returning K hash fuel j).Triple 0 Ongoing p fun _ => Ongoing :=
  .only stable_ongoing (fun _ ha => keeps_ongoing ha) (fun _ hτ _ _ _ => hτ) hp

theorem ongoing_notify (m n : NodeId) :
    (returning K hash fuel j).Triple 0 Ongoing (notify m n) fun _ => Ongoing :=
  ongoing_plain (only_notify isPlain_reading (fun _ _ _ => rfl) (fun _ _ _ => rfl) m n)

theorem going_release (n : NodeId) :
    (returning K hash fuel j).Triple 0 Going (finishJoin rounds n false true) fun _ => Going := by
  have hgoing : ∀ a : Act, (∀ t e, a.Records t e → e.failsJoin = false) →
      (returning K hash fuel j).Keeps 0 Going a := by
    intro a ha s l r s' hi hP hl he hk
    have hP' : Going s' := by
      rcases exec_trace he with htr | ⟨e, hrec, htr⟩
      · simpa only [Going, htr] using hP
      · simpa only [Going, htr, List.forall_mem_cons, ha _ e hrec, true_and] using hP
    exact ⟨fun h => absurd hP' h, fun h => absurd rfl h, hP'⟩
  change (returning K hash fuel j).Triple 0 Going (releaseLock .finishJoin _ n) _
  have hcas : ∀ (w w' : StateWord) (t : ℕ) (e : Event),
      (Act.casState n w w' .transition .finishJoin).Records t e → e.failsJoin = false := by
    rintro w w' t e (rfl | rfl) <;> rfl
  refine .bind (Q := fun _ => Going) (.bind (Q := fun _ => Going)
    (.keeps stable_going (hgoing _ fun _ _ h => h.elim))
    fun (w : StateWord) => .keeps stable_going (hgoing _ (hcas _ _))) fun b => ?_
  split_ifs
  all_goals exact .same stable_going

theorem returning_joinVia (peer : NodeId) :
    (returning K hash fuel j).Triple 0 Ongoing (joinVia fuel (callJoin j peer) j)
      fun res s => match res with | .ok _ => Going s | .error _ => Ongoing s := by
  have hcas : ∀ how (old new : StateWord), (Act.casState j old new how .join).isPlain = true :=
    fun _ _ _ => rfl
  refine .bind (ongoing_plain (only_transition isPlain_reading (hcas _) _ _)) fun b => ?_
  split_ifs
  swap
  · exact .ret stable_ongoing fun _ _ h => h
  refine .bind (ongoing_plain (only_retry (only_callJoin isPlain_handling (fun _ _ => rfl) peer) _))
    fun res => ?_
  rcases res with e | ⟨pre, succs⟩
  · refine .bind (ongoing_plain (only_setState isPlain_reading (hcas _) _ _)) fun (_ : Unit) => ?_
    exact .ret stable_ongoing fun _ _ h => h
  refine .bind (.keeps stable_ongoing (keeps_ongoing rfl)) fun (_ : Unit) => ?_
  refine .bind (.keeps stable_ongoing (keeps_ongoing rfl)) fun (_ : Unit) => ?_
  refine .bind (triple_startTasks stable_ongoing
    (fun a ha => keeps_ongoing (isPlain_routing a ha)) (fun m => ongoing_notify m j) fuel ?_)
    fun (_ : Unit) => ?_
  · rintro τ (rfl | rfl | rfl) _ _ _ <;> rfl
  refine .bind (Q := fun _ => Ongoing) (.bind (triple_updatePointers stable_ongoing
    (fun a ha => keeps_ongoing (isPlain_routing a ha)) (fun m => ongoing_notify m pre) fuel)
    fun _ => .same stable_ongoing) fun (_ : Except ChordError Unit) => ?_
  refine .bind (ongoing_plain (only_setState isPlain_reading (hcas _) _ _)) fun (_ : Unit) => ?_
  refine .pre (P := Going) ?_ fun _ _ h => h.1
  split
  · exact .ret stable_going fun _ _ h => h
  · exact .bind (going_release fuel _) fun _ => .ret stable_going fun _ _ h => h

theorem returning_joinLossy (peer : NodeId) :
    (returning K hash fuel j).Triple 0 Ongoing (joinLossy fuel j peer) fun _ _ => True := by
  refine .bind (returning_joinVia peer) fun res => ?_
  rcases res with e | u
  · refine .perform stable_ongoing (fun _ => .const _) fun s l r s' hi hP hl he hk => ?_
    cases he
    refine ⟨fun _ => ?_, fun h => absurd rfl h, trivial⟩
    exact List.forall_mem_cons.2 ⟨rfl, hP.2⟩
  · refine .perform stable_going (fun _ => .const _) fun s l r s' hi hP hl he hk => ?_
    cases he
    refine ⟨fun h => absurd ?_ h, fun h => absurd rfl h, trivial⟩
    exact List.forall_mem_cons.2 ⟨rfl, hP⟩

variable {peer : NodeId} {maintenance : List Task} {s₀ : Shared K} {sched : List (ℕ × Fault)}
  {c : Lib.Config chordSig (Shared K)}

theorem unfinished_of_failed (htr : s₀.trace = []) (hm : ∀ τ ∈ maintenance, τ.isPeriodic = true)
    (hrun : (cluster K hash fuel).run sched
      ((cluster K hash fuel).launch (.joinLossy j peer :: maintenance) s₀) = some c)
    (hret : ¬ Going c.shared) : Unfinished c.shared := by
  have hstart : Ongoing s₀ := by simp [Ongoing, Going, Unfinished, htr]
  have hi : (returning K hash fuel j).inv s₀ := fun h => absurd hstart.1 h
  have hgood : (returning K hash fuel j).Good
      ((cluster K hash fuel).launch (.joinLossy j peer :: maintenance) s₀) := by
    refine Rules.good_launch hi (fun t ht => ?_) fun t τ hτ => ?_
    · simp only [List.length_cons] at ht
      exact Nat.ne_of_gt (by omega)
    · rcases t with _ | t
      · obtain rfl : _ = τ := Option.some.inj hτ
        exact returning_joinLossy peer s₀ hi hstart
      · have hmem : τ ∈ maintenance := List.mem_of_getElem? (i := t) hτ
        exact returning_closed.safe τ (t + 1) s₀ hi
          ⟨serves_of_periodic (hm τ hmem), Nat.succ_ne_zero t⟩
  refine (Rules.good_run returning_closed hgood ?_ hrun).1 hret
  exact (Rules.follows_of_run (φ := fun _ => True) (fun _ _ => ⟨trivial, trivial⟩)
    (fun _ _ => trivial) hrun trivial).2

end Returning

section Lossy

variable {K : Type} [KVProvider K] {hash : Bytes → ℕ} {fuel t : ℕ} {j : NodeId}

/-- The system in which the calls of a Join are handled by other threads, in runs in which it does
not finish. -/
def lossy (K : Type) (j : NodeId) : Policy K where
  runs _ site := site = .join ∨ site = .requestToJoin
  known _ s s' := ∀ e, e.finishes = true → s'.trace ≠ e :: s.trace
  starts := Task.serves j
  post _ _ := True

theorem lossy_release (rounds : ℕ) (n : NodeId) :
    ((lossy K j).rules hash fuel).Triple t (Holds t L) (finishJoin rounds n false true)
      fun _ _ => False := by
  change ((lossy K j).rules hash fuel).Triple t (Holds t L) (releaseLock .finishJoin _ n) _
  refine .bind (Q := fun _ _ => False) (.bind (holds_act rfl)
    fun (w : StateWord) => .perform (stable_holds L) (fun _ => .const _)
      fun s l r s' _ _ _ he hk => ?_) fun b => ?_
  · obtain ⟨-, -, rfl⟩ | ⟨-, rfl⟩ := exec_casState (l := l) he
    · exact absurd rfl (hk (.swapped t n _ .finishJoin _ _) rfl)
    · exact absurd rfl (hk (.refused t n _ .finishJoin) rfl)
  · exact fun _ _ h => h.elim

theorem lossy_callJoin (n : NodeId) :
    ((lossy K j).rules hash fuel).Triple t (Holds t L) (callJoin j n) fun _ => Holds t L := by
  refine .bind (holds_act rfl) fun (slot : Except ChordError ℕ) => ?_
  split
  · exact .same (stable_holds L)
  · exact .bind (.start (stable_holds L) fun _ _ _ => rfl) fun _ =>
      holds_act rfl

theorem lossy_handleJoin (rounds slot : ℕ) (n : NodeId) :
    ((lossy K j).rules hash fuel).Triple t (Holds t nothing) (handleJoin rounds slot n j)
      fun _ _ => True := by
  have hrun : (lossy K j).runs t .requestToJoin := .inr rfl
  have hdone : ∀ (res : JoinReply), ((lossy K j).rules hash fuel).Triple t (Holds t nothing)
      (.ret res) fun _ _ => True := fun _ => .ret (.const _) fun _ _ _ => trivial
  refine .bind (Q := fun _ _ => True) ?_ fun res =>
    .keeps (.const _) fun s l r s' hi _ hl he hk => ?_
  · refine .bind (triple_no_cas _ (only_findSuccessor isCas_reading rounds n j)) fun res => ?_
    split
    · exact hdone _
    split_ifs
    · exact hdone _
    · exact .post (lossy_callJoin nothing _) fun _ _ _ => trivial
    · exact .post (own_acceptJoiner hrun nothing rounds n j) fun _ _ _ => trivial
  · obtain ⟨h1, h2, -⟩ := keeps_holds rfl (held s.trace t) s l r s' hi rfl hl he hk
    exact ⟨h1, h2, trivial⟩

theorem lossy_joinLossy (peer : NodeId) :
    ((lossy K j).rules hash fuel).Triple t (Holds t nothing) (joinLossy fuel j peer)
      fun _ _ => True := by
  have hrun : (lossy K j).runs t .join := .inl rfl
  have hdone : ∀ (res : Except ChordError Unit), ((lossy K j).rules hash fuel).Triple t
      (Holds t nothing) (.ret res) fun _ => Holds t nothing :=
    fun _ => .same (stable_holds _)
  refine .bind (Q := fun _ => Holds t nothing) ?_ fun res =>
    .post (holds_act rfl) fun _ _ _ => trivial
  refine .bind (triple_take hrun .join nothing j) fun b => .assume fun _ => ?_
  cases b with
  | false => exact hdone _
  | true =>
    simp only [if_true]
    set L := Function.update nothing j (some State.joining)
    refine .bind (Q := fun _ => Holds t L) ?_ fun res => ?_
    · refine .post (triple_retry (Q := fun _ => Holds t L) (stable_holds _)
        (fun _ => stable_holds _) ((lossy_callJoin _ peer).post ?_) _) ?_
      all_goals
        rintro (e | x) s h <;> exact h
    rcases res with e | ⟨pre, succs⟩
    · refine .bind (triple_set hrun .joinFailed (by simp [L]) fuel) fun (_ : Unit) => ?_
      rw [Function.update_idem, nothing_update]
      exact hdone _
    · refine .bind (holds_act rfl) fun (_ : Unit) => ?_
      refine .bind (holds_act rfl) fun (_ : Unit) => ?_
      refine .bind (own_startTasks (fun _ => serves_of_periodic) _ fuel j) fun (_ : Unit) => ?_
      refine .bind (own_finish_update _ fuel _ _ pre) fun (_ : Except ChordError Unit) => ?_
      refine .bind (triple_set hrun .join (by simp [L]) fuel) fun (_ : Unit) => ?_
      rw [Function.update_idem, nothing_update]
      split
      · exact hdone _
      · exact .bind (lossy_release _ fuel _) fun _ _ _ h => h.elim

theorem lossy_closed : ((lossy K j).rules hash fuel).Closed where
  stable _ := stable_notBegun
  safe τ t := by
    refine .assume fun hτ => .pre ?_ fun _ _ h => NotBegun.holds h
    by_cases hper : τ.isPeriodic = true
    · exact .post (own_periodic (fun _ => serves_of_periodic) hper nothing) fun _ _ _ => trivial
    · cases τ with
      | handleJoin slot n x =>
        obtain rfl : x = j := hτ
        exact lossy_handleJoin fuel slot n
      | _ => exact absurd hτ hper

end Lossy

section Stores

variable {K : Type} [KVProvider K] {hash : Bytes → ℕ} {fuel t : ℕ} {j : NodeId} {s₀ : Shared K}
  {s : Shared K} {a : Act}

/-- The nodes other than the joiner: one that nobody holds is as it was at the start; one that has
accepted the joiner is held for good. -/
structure Kept (s₀ : Shared K) (j : NodeId) (s : Shared K) : Prop where
  accepted : ∀ t n, .accepted t n j ∈ s.trace → n ≠ j ∧ held s.trace t n = some .transferring
  took : ∀ t n, n ≠ j → held s.trace t n ≠ none →
    .swapped t n .transition .requestToJoin .active .transferring ∈ s.trace
  same : ∀ n, n ≠ j → (∀ t, held s.trace t n = none) →
    (s.node n).state.state = (s₀.node n).state.state ∧ (s.node n).kv = (s₀.node n).kv

/-- What a thread holds when it ends has accepted the joiner. -/
def Settled (j : NodeId) (t : ℕ) (s : Shared K) : Prop :=
  ∀ n, n ≠ j → held s.trace t n ≠ none → .accepted t n j ∈ s.trace

def leaking (hash : Bytes → ℕ) (fuel : ℕ) (s₀ : Shared K) (j : NodeId) :
    Rules (cluster K hash fuel) where
  ok _ := True
  known := ((lossy K j).rules hash fuel).Fact
  inv := Kept s₀ j
  guar t s s' := ∀ n, n ≠ j → (s'.node n).kv ≠ (s.node n).kv → held s.trace t n ≠ none
  fresh := NotBegun
  pre τ _ := τ.serves j
  post := Settled j

/-- The step has to do with the joiner at most. -/
structure Calm (j : NodeId) (s s' : Shared K) : Prop where
  held : ∀ t n, n ≠ j → held s'.trace t n = held s.trace t n
  node : ∀ n, n ≠ j → (s'.node n).state = (s.node n).state ∧ (s'.node n).kv = (s.node n).kv
  accepted : ∀ t n, .accepted t n j ∈ s'.trace ↔ .accepted t n j ∈ s.trace
  mem : ∀ e ∈ s.trace, e ∈ s'.trace

def Act.isCalm (j : NodeId) : Act → Bool
  | .casState n .. | .importKeys n .. => n = j
  | .commitJoin .. | .removeKeys .. | .handle .. => false
  | _ => true

omit [KVProvider K] in
theorem Calm.kept {s' : Shared K} (h : Calm j s s') (hi : Kept s₀ j s) : Kept s₀ j s' where
  accepted t n ha := by
    obtain ⟨hn, hh⟩ := hi.accepted t n ((h.accepted t n).1 ha)
    exact ⟨hn, (h.held t n hn).trans hh⟩
  took t n hn hh := h.mem _ (hi.took t n hn (h.held t n hn ▸ hh))
  same n hn hh := by
    obtain ⟨h1, h2⟩ := h.node n hn
    rw [h1, h2]
    exact hi.same n hn fun t => h.held t n hn ▸ hh t

theorem records_calm (ha : a.isCalm j = true) (h : a.Records t e) :
    (∀ n, n ≠ j → ∀ t how site old new, e ≠ .swapped t n how site old new) ∧
      ∀ t n, e ≠ .accepted t n j := by
  cases a <;> simp only [Act.Records] at h
  case casState m old new how site =>
    obtain rfl : m = j := by simpa [Act.isCalm] using ha
    rcases h with rfl | rfl
    · exact ⟨fun n hn t how site old new h => hn (by cases h; rfl), by simp⟩
    · exact ⟨by simp, by simp⟩
  case commitJoin | handle => simp [Act.isCalm] at ha
  all_goals
    subst h
    exact ⟨by simp, by simp⟩

theorem exec_calm {s' : Shared K} {r : a.Res} (ha : a.isCalm j = true)
    (he : exec l t s a = some (r, s')) : Calm j s s' := by
  have hw : ∀ f : Field, f = .state ∨ f = .kv → ∀ n, n ≠ j → a.writes f n = false := by
    rintro f hf n hn
    cases a <;> rcases hf with rfl | rfl <;> simp_all [Act.isCalm, Act.writes]
  have hnode : ∀ n, n ≠ j → (s'.node n).state = (s.node n).state ∧ (s'.node n).kv = (s.node n).kv :=
    fun n hn => ⟨exec_frame he (hw .state (.inl rfl) n hn), exec_frame he (hw .kv (.inr rfl) n hn)⟩
  rcases exec_trace he with htr | ⟨e, hrec, htr⟩
  · exact ⟨fun t n _ => by rw [htr], hnode, fun t n => by rw [htr], fun e he => by rwa [htr]⟩
  · obtain ⟨h1, h2⟩ := records_calm ha hrec
    refine ⟨fun t n hn => ?_, hnode, fun t n => ?_, fun e he => ?_⟩
    · rw [htr, held_cons (h1 n hn)]
    · simp [htr, (h2 t n).symm]
    · rw [htr]
      exact List.mem_cons_of_mem _ he

/-- The thread has accepted nothing yet, and holds these nodes besides the joiner. -/
def Pending (j : NodeId) (t : ℕ) (L : NodeId → Option State) (s : Shared K) : Prop :=
  (∀ n, .accepted t n j ∉ s.trace) ∧ ∀ n, n ≠ j → held s.trace t n = L n

def Intact (s₀ : Shared K) (n : NodeId) (s : Shared K) : Prop := (s.node n).kv = (s₀.node n).kv

theorem stable_pending : (leaking hash fuel s₀ j).Stable t (Pending j t L) := by
  rintro s s' t' hne - - - hk ⟨hacc, hheld⟩
  have hleaves := Policy.leavesOthers hk
  refine ⟨fun n hn => hacc n (hleaves.adds.other hne.symm hn), fun n hn => ?_⟩
  rw [hleaves.held t hne.symm, hheld n hn]

theorem stable_intact {L : NodeId → Option State} (hn : n ≠ j) (hL : L n ≠ none) :
    (leaking hash fuel s₀ j).Stable t fun s => Pending j t L s ∧ Intact s₀ n s := by
  rintro s s' t' hne hi hi' hg hk ⟨hp, hkv⟩
  refine ⟨stable_pending L s s' t' hne hi hi' hg hk hp, ?_⟩
  by_contra hchanged
  have hh' := hg n hn fun h => hchanged (h.trans hkv)
  obtain ⟨st, hst⟩ := Option.ne_none_iff_exists'.1 hL
  obtain ⟨st', hst'⟩ := Option.ne_none_iff_exists'.1 hh'
  exact hne (held_unique ((hp.2 n hn).trans hst) hst').1

theorem Calm.guar {s' : Shared K} (h : Calm j s s') : (leaking hash fuel s₀ j).guar t s s' :=
  fun n hn hkv => absurd (h.node n hn).2 hkv

omit [KVProvider K] in
theorem Calm.pending {s' : Shared K} (h : Calm j s s') {L : NodeId → Option State}
    (hp : Pending j t L s) : Pending j t L s' :=
  ⟨fun n hn => hp.1 n ((h.accepted t n).1 hn), fun n hn => (h.held t n hn).trans (hp.2 n hn)⟩

theorem keeps_pending (ha : a.isCalm j = true) (L : NodeId → Option State) :
    (leaking hash fuel s₀ j).Keeps t (Pending j t L) a := by
  intro s l r s' hi hp _ he _
  have hcalm := exec_calm ha he
  exact ⟨hcalm.kept hi, hcalm.guar, hcalm.pending hp⟩

theorem pending_act (ha : a.isCalm j = true) {L : NodeId → Option State} :
    (leaking hash fuel s₀ j).Triple t (Pending j t L) (Prog.perform a) fun _ => Pending j t L :=
  .keeps (stable_pending L) (keeps_pending ha L)

theorem keeps_intact (ha : a.isCalm j = true) (L : NodeId → Option State) (hn : n ≠ j) :
    (leaking hash fuel s₀ j).Keeps t (fun s => Pending j t L s ∧ Intact s₀ n s) a := by
  intro s l r s' hi hp _ he _
  have hcalm := exec_calm ha he
  exact ⟨hcalm.kept hi, hcalm.guar, hcalm.pending hp.1, (hcalm.node n hn).2.trans hp.2⟩

theorem isCalm_reading (a : Act) (h : a.isReading = true) : a.isCalm j = true := by
  cases a <;> simp_all [Act.isReading, Act.isCalm]

theorem keeps_pending_routing (a : Act) (h : a.isRouting n = true) :
    (leaking hash fuel s₀ j).Keeps t (Pending j t L) a := by
  refine keeps_pending ?_ L
  cases a <;> simp_all [Act.isRouting, Act.isReading, Act.isCalm]

omit [KVProvider K] in
theorem calm_refused (t : ℕ) (n : NodeId) (how : How) (site : Site) (s : Shared K) :
    Calm j s (s.push (.refused t n how site)) where
  held _ _ _ := rfl
  node _ _ := ⟨rfl, rfl⟩
  accepted _ _ := by simp
  mem _ h := List.mem_cons_of_mem _ h

def lockOf (n : NodeId) : NodeId → Option State := Function.update nothing n (some .transferring)

theorem pending_take (hn : n ≠ j) :
    (leaking hash fuel s₀ j).Triple t (Pending j t nothing)
      (transition n .active .transferring .transition .requestToJoin)
      fun b s => match b with
        | true => (s₀.node n).state.state = .active ∧ Pending j t (lockOf n) s ∧ Intact s₀ n s
        | false => Pending j t nothing s := by
  refine .bind (pending_act rfl) fun (w : StateWord) => ?_
  refine .perform (stable_pending _) (fun b => ?_) fun s l r s' hi hp _ he hk => ?_
  · cases b
    · exact stable_pending _
    · exact (Rules.Stable.const _).and (stable_intact hn (by simp [lockOf]))
  obtain ⟨rfl, hw, rfl⟩ | ⟨rfl, rfl⟩ := exec_casState (l := l) he
  · have hfree : ∀ t', held s.trace t' n = none := hk.1.not_held (by rw [hw]; rfl)
    obtain ⟨hstate, hkv⟩ := hi.same n hn hfree
    rw [hw] at hstate
    have hheld : ∀ t' m, held (.swapped t n .transition .requestToJoin .active .transferring ::
        s.trace) t' m = if m = n then (if t = t' then some .transferring else none)
          else held s.trace t' m := fun t' m => by
      rw [held_swapped]
      simp [State.isHeld]
    refine ⟨⟨fun t' m ha => ?_, fun t' m hm hh => ?_, fun m hm hh => ?_⟩, fun m hm hkv' => ?_,
      hstate.symm, ⟨fun m ha => ?_, fun m hm => ?_⟩, ?_⟩
    · have hold : .accepted t' m j ∈ s.trace := by simpa using ha
      obtain ⟨hm, hh⟩ := hi.accepted t' m hold
      have hmn : m ≠ n := by
        rintro rfl
        simp [hfree] at hh
      exact ⟨hm, by simpa [hheld, hmn] using hh⟩
    · by_cases hmn : m = n
      · subst hmn
        obtain rfl : t = t' := by
          by_contra hne
          simp [hheld, hne] at hh
        exact .head _
      · exact .tail _ (hi.took t' m hm (by simpa [hheld, hmn] using hh))
    · have hmn : m ≠ n := by
        rintro rfl
        simpa [hheld] using hh t
      rw [node_push, node_update_ne hmn]
      exact hi.same m hm fun t' => by simpa [hheld, hmn] using hh t'
    · rw [node_push, node_update] at hkv'
      split_ifs at hkv' with hmn
      · simp [hmn, Node.swap] at hkv'
      · exact absurd rfl hkv'
    · exact hp.1 m (by simpa using ha)
    · have := hp.2 m hm
      by_cases hmn : m = n
      · simp [hheld, hmn, lockOf]
      · simpa [hheld, hmn, lockOf] using this
    · rw [Intact, node_push, node_update_self]
      exact hkv
  · have hcalm := calm_refused (j := j) t n .transition .requestToJoin s
    exact ⟨hcalm.kept hi, hcalm.guar, hcalm.pending hp⟩

/-- What a handler knows of the node it has locked, before it moves keys. -/
def Open (s₀ : Shared K) (j : NodeId) (t : ℕ) (n : NodeId) (s : Shared K) : Prop :=
  Pending j t (lockOf n) s ∧ Intact s₀ n s

theorem stable_open (hn : n ≠ j) : (leaking hash fuel s₀ j).Stable t (Open s₀ j t n) :=
  stable_intact hn (by simp [lockOf])

theorem keeps_open (ha : a.isCalm j = true) (hn : n ≠ j) :
    (leaking hash fuel s₀ j).Keeps t (Open s₀ j t n) a :=
  keeps_intact ha _ hn

theorem open_set {n : NodeId} (hn : n ≠ j) (hst : (s₀.node n).state.state = .active) : ∀ rounds,
    (leaking hash fuel s₀ j).Triple t (Open s₀ j t n) (setState rounds n .active .requestToJoin)
      fun _ => Pending j t nothing
  | 0 => triple_halt
  | rounds + 1 => by
    refine .bind (.keeps (stable_open hn) (keeps_open rfl hn)) fun (curr : StateWord) => ?_
    refine .bind (Q := fun b => if b then Pending j t nothing else Open s₀ j t n)
      (.bind (.keeps (stable_open hn) (keeps_open rfl hn)) fun (w : StateWord) => ?_) fun b => ?_
    swap
    · split_ifs
      · exact .same (stable_pending _)
      · exact open_set hn hst rounds
    refine .perform (stable_open hn) (fun b => ?_) fun s l r s' hi hp _ he hk => ?_
    · cases b
      · exact stable_open hn
      · exact stable_pending _
    obtain ⟨rfl, hw, rfl⟩ | ⟨rfl, rfl⟩ := exec_casState (l := l) he
    swap
    · have hcalm := calm_refused (j := j) t n .set .requestToJoin s
      exact ⟨hcalm.kept hi, hcalm.guar, hcalm.pending hp.1, hp.2⟩
    have hheld : ∀ t' m,
        held (.swapped t n .set .requestToJoin curr.state .active :: s.trace) t' m =
        if m = n then none else held s.trace t' m := fun t' m => by
      rw [held_swapped]
      simp [State.isHeld]
    have hmine : held s.trace t n = some .transferring := by simpa [lockOf] using hp.1.2 n hn
    refine ⟨⟨fun t' m ha => ?_, fun t' m hm hh => ?_, fun m hm hh => ?_⟩, fun m hm hkv' => ?_,
      fun m ha => ?_, fun m hm => ?_⟩
    · have hold : .accepted t' m j ∈ s.trace := by simpa using ha
      obtain ⟨hm, hh⟩ := hi.accepted t' m hold
      have hmn : m ≠ n := by
        rintro rfl
        exact hp.1.1 m ((held_unique hmine hh).1 ▸ hold)
      exact ⟨hm, by simpa [hheld, hmn] using hh⟩
    · have hmn : m ≠ n := by
        rintro rfl
        simp [hheld] at hh
      exact .tail _ (hi.took t' m hm (by simpa [hheld, hmn] using hh))
    · by_cases hmn : m = n
      · subst hmn
        rw [node_push, node_update_self]
        exact ⟨hst.symm, hp.2⟩
      · rw [node_push, node_update_ne hmn]
        exact hi.same m hm fun t' => by simpa [hheld, hmn] using hh t'
    · rw [node_push, node_update] at hkv'
      split_ifs at hkv' with hmn
      · simp [hmn, Node.swap] at hkv'
      · exact absurd rfl hkv'
    · exact hp.1.1 m (by simpa using ha)
    · by_cases hmn : m = n
      · simp [hheld, hmn, nothing]
      · simpa [hheld, hmn, lockOf, nothing] using hp.1.2 m hm

theorem keeps_remove (hn : n ≠ j) (keys : List Bytes) :
    (leaking hash fuel s₀ j).Keeps t (Pending j t (lockOf n)) (.removeKeys n keys) := by
  intro s l r s' hi hp _ he _
  change exec l t s (.removeKeys n keys) = some (r, s') at he
  have hmine : held s.trace t n = some .transferring := by simpa [lockOf] using hp.2 n hn
  have htr : s'.trace = s.trace := by
    rcases exec_trace he with htr | ⟨e, hrec, -⟩
    · exact htr
    · exact hrec.elim
  have hkv : ∀ m, m ≠ n → (s'.node m).kv = (s.node m).kv := fun m hm =>
    exec_frame (f := .kv) he (by simp [Act.writes, hm])
  have hstate : ∀ m, (s'.node m).state = (s.node m).state := fun m =>
    exec_frame (f := .state) he (by simp [Act.writes])
  refine ⟨⟨fun t' m ha => ?_, fun t' m hm hh => ?_, fun m hm hh => ?_⟩, fun m hm hkv' => ?_, ?_⟩
  · rw [htr] at ha ⊢
    exact hi.accepted t' m ha
  · rw [htr] at hh ⊢
    exact hi.took t' m hm hh
  · rw [htr] at hh
    have hmn : m ≠ n := by
      rintro rfl
      exact absurd ((hh t).symm.trans hmine) (by simp)
    rw [hkv m hmn, hstate]
    exact hi.same m hm hh
  · obtain rfl : m = n := by
      by_contra hmn
      exact hkv' (hkv m hmn)
    simp [hmine]
  · simpa only [Pending, htr] using hp

theorem open_moveRange (hn : n ≠ j) (low high : ℕ) :
    (leaking hash fuel s₀ j).Triple t (Open s₀ j t n) (moveRange n j low high)
      fun res s => match res with
        | .ok _ => Pending j t (lockOf n) s
        | .error _ => Open s₀ j t n s := by
  have hfail : ∀ e, (leaking hash fuel s₀ j).Triple t (Open s₀ j t n) (.ret (.error e))
      fun (res : Except ChordError Unit) s => match res with
        | .ok _ => Pending j t (lockOf n) s
        | .error _ => Open s₀ j t n s := fun _ => .ret (stable_open hn) fun _ _ h => h
  refine .bind (.keeps (stable_open hn) (keeps_open rfl hn))
    fun (keys : Except ChordError (List Bytes)) => ?_
  split
  · exact hfail _
  · exact .ret (stable_pending _) fun _ _ h => h.1
  refine .bind (.keeps (stable_open hn) (keeps_open rfl hn))
    fun (values : Except ChordError (List KVTransfer)) => ?_
  split
  · exact hfail _
  refine .bind (Q := fun _ => Open s₀ j t n) ?_ fun res => ?_
  · refine .bind (.keeps (stable_open hn) (keeps_open rfl hn)) fun (w : StateWord) => ?_
    split
    case h_1 | h_2 | h_3 => exact .same (stable_open hn)
    all_goals exact .keeps (stable_open hn) (keeps_open (by simp [Act.isCalm]) hn)
  split
  · exact hfail _
  · refine .pre (.bind (.keeps (stable_pending _) (keeps_remove hn _)) fun _ => ?_)
      fun _ _ h => h.1
    exact .ret (stable_pending _) fun _ _ h => h

theorem stable_settled : (leaking hash fuel s₀ j).Stable t (Settled j t) := by
  intro s s' t' hne _ _ _ hk h n hn hh
  have hleaves := Policy.leavesOthers hk
  rw [hleaves.held t hne.symm] at hh
  exact hleaves.adds.subset (h n hn hh)

theorem keeps_settled (ha : a.isCalm j = true) :
    (leaking hash fuel s₀ j).Keeps t (Settled j t) a := by
  intro s l r s' hi hp _ he _
  have hcalm := exec_calm ha he
  refine ⟨hcalm.kept hi, hcalm.guar, fun n hn hh => ?_⟩
  rw [hcalm.held t n hn] at hh
  exact hcalm.mem _ (hp n hn hh)

omit [KVProvider K] in
theorem Pending.settled (h : Pending j t nothing s) : Settled j t s :=
  fun n hn hh => absurd (h.2 n hn) hh

theorem pending_commit (hn : n ≠ j) :
    (leaking hash fuel s₀ j).Triple t (Pending j t (lockOf n)) (commitJoin n j)
      fun _ => Settled j t := by
  refine .perform (stable_pending _) (fun _ => stable_settled) fun s l r s' hi hp _ he _ => ?_
  cases he
  have hheld : ∀ t' m, held (.accepted t n j :: s.trace) t' m = held s.trace t' m :=
    fun _ _ => rfl
  refine ⟨⟨fun t' m ha => ?_, fun t' m hm hh => ?_, fun m hm hh => ?_⟩, fun m hm hkv' => ?_,
    fun m hm hh => ?_⟩
  · rcases List.mem_cons.1 ha with hnew | hold
    · cases hnew
      exact ⟨hn, (hheld t n).trans (by simpa [lockOf] using hp.2 n hn)⟩
    · exact hi.accepted t' m hold
  · exact .tail _ (hi.took t' m hm hh)
  · have := hi.same m hm hh
    rw [node_push, node_update]
    split_ifs with hmn
    · exact hmn ▸ this
    · exact this
  · rw [node_push, node_update] at hkv'
    split_ifs at hkv' with hmn
    · simp [hmn] at hkv'
    · exact absurd rfl hkv'
  · have hL := (hp.2 m hm).symm.trans_ne hh
    obtain rfl : m = n := by
      by_contra hmn
      simp [lockOf, hmn, nothing] at hL
    exact .head _

/-- What a handler knows when it has moved the keys, or failed to. -/
def Tried (s₀ : Shared K) (j : NodeId) (t : ℕ) (n : NodeId) {α : Type} :
    Except ChordError α → Shared K → Prop
  | .ok _ => Pending j t (lockOf n)
  | .error _ => Open s₀ j t n

theorem open_acceptLocked (hn : n ≠ j) :
    (leaking hash fuel s₀ j).Triple t (Open s₀ j t n) (acceptLocked n j)
      (Tried s₀ j t n) := by
  have hfail : ∀ e, (leaking hash fuel s₀ j).Triple t (Open s₀ j t n) (.ret (.error e))
      (Tried (α := NodeId × List NodeId) s₀ j t n) := fun _ => .ret (stable_open hn) fun _ _ h => h
  refine .bind (.keeps (stable_open hn) (keeps_open rfl hn)) fun (prev : Option NodeId) => ?_
  split
  · exact hfail _
  split_ifs
  swap
  · exact hfail _
  refine .bind (Q := Tried s₀ j t n) ?_ fun res => ?_
  · unfold transferKeysUpward
    dsimp only
    split_ifs
    · exact .ret (stable_pending _) fun _ _ h => h.1
    · refine .post (open_moveRange hn _ _) ?_
      rintro (e | u) s h <;> exact h
    · exact .ret (stable_pending _) fun _ _ h => h.1
  rcases res with e | u
  · exact hfail _
  refine .bind (pending_act rfl) fun (_ : Unit) => ?_
  refine .bind (pending_act rfl) fun (_ : List NodeId) => ?_
  exact .ret (stable_pending _) fun _ _ h => h

theorem pending_acceptJoiner (hn : n ≠ j) :
    (leaking hash fuel s₀ j).Triple t (Pending j t nothing) (acceptJoiner rounds n j)
      fun _ => Settled j t := by
  refine .bind (pending_act rfl) fun (_ : Unit) => ?_
  refine .bind (pending_take hn) fun b => ?_
  cases b with
  | false =>
    refine .bind (pending_act rfl) fun (_ : Unit) => ?_
    exact .ret stable_settled fun _ _ h => h.settled
  | true =>
    refine .assume fun hst => ?_
    refine .bind (Q := fun _ => Open s₀ j t n) (.keeps (stable_open hn) (keeps_open rfl hn))
      fun (_ : Unit) => ?_
    refine .bind (open_acceptLocked hn) fun res => .bind (Q := fun _ => Settled j t) ?_
      fun (_ : Unit) => ?_
    · rcases res with e | x
      · exact .post (open_set hn hst rounds) fun _ _ h => h.settled
      · exact pending_commit hn
    refine .bind (.keeps stable_settled (keeps_settled rfl)) fun (_ : Unit) => ?_
    refine .bind (.keeps stable_settled (keeps_settled rfl)) fun (_ : Unit) => ?_
    exact .same stable_settled

theorem pending_calm (hp : p.Only (fun a : Act => a.isCalm j = true) (Task.serves j)) :
    (leaking hash fuel s₀ j).Triple t (Pending j t L) p fun _ => Pending j t L :=
  .only (stable_pending L) (fun _ ha => keeps_pending ha L) (fun _ hτ _ _ _ => hτ) hp

theorem pending_callJoin (n : NodeId) :
    (leaking hash fuel s₀ j).Triple t (Pending j t nothing) (callJoin j n)
      fun _ => Pending j t nothing := by
  refine .bind (pending_act rfl)
    fun (slot : Except ChordError ℕ) => ?_
  split
  · exact .same (stable_pending _)
  · exact .bind (.start (stable_pending _) fun _ _ _ => rfl) fun _ =>
      pending_act rfl

theorem pending_handleJoin (rounds slot : ℕ) (n : NodeId) :
    (leaking hash fuel s₀ j).Triple t (Pending j t nothing) (handleJoin rounds slot n j)
      fun _ => Settled j t := by
  refine .bind (Q := fun _ => Settled j t) ?_ fun res =>
    .keeps stable_settled (keeps_settled rfl)
  have hdone : ∀ (res : JoinReply), (leaking hash fuel s₀ j).Triple t (Pending j t nothing)
      (.ret res) fun _ => Settled j t := fun _ => .ret stable_settled fun _ _ h => h.settled
  refine .bind (pending_calm _ (only_findSuccessor isCalm_reading rounds n j)) fun res => ?_
  split
  · exact hdone _
  split_ifs with h1 h2
  · exact hdone _
  · exact .post (pending_callJoin _) fun _ _ h => h.settled
  · exact pending_acceptJoiner rounds fun hnj => h1 ((not_not.1 h2).trans hnj)

theorem pending_release (n : NodeId) :
    (leaking hash fuel s₀ j).Triple t (Pending j t nothing) (finishJoin rounds n false true)
      fun _ _ => False := by
  change (leaking hash fuel s₀ j).Triple t (Pending j t nothing) (releaseLock .finishJoin _ n) _
  refine .bind (Q := fun _ _ => False) (.bind (pending_act rfl)
    fun (w : StateWord) => .perform (stable_pending _) (fun _ => .const _)
      fun s l r s' _ _ _ he hk => ?_) fun b => ?_
  · have hnone := hk.2.2.2
    obtain ⟨-, -, rfl⟩ | ⟨-, rfl⟩ := exec_casState (l := l) he
    · exact absurd rfl (hnone (.swapped t n _ .finishJoin _ _) rfl)
    · exact absurd rfl (hnone (.refused t n _ .finishJoin) rfl)
  · exact fun _ _ h => h.elim

theorem pending_notify (m n : NodeId) :
    (leaking hash fuel s₀ j).Triple t (Pending j t nothing) (notify m n)
      fun _ => Pending j t nothing :=
  pending_calm _ (only_notify isCalm_reading (fun _ _ _ => rfl) (fun _ _ _ => rfl) m n)

theorem pending_joinLossy (peer : NodeId) :
    (leaking hash fuel s₀ j).Triple t (Pending j t nothing) (joinLossy fuel j peer)
      fun _ => Settled j t := by
  have hcas : ∀ how (old new : StateWord), (Act.casState j old new how .join).isCalm j = true :=
    fun _ _ _ => by simp [Act.isCalm]
  have hdone : ∀ (res : Except ChordError Unit), (leaking hash fuel s₀ j).Triple t
      (Pending j t nothing) (.ret res) fun _ => Pending j t nothing :=
    fun _ => .same (stable_pending _)
  refine .bind (Q := fun _ => Pending j t nothing) ?_ fun res =>
    .post (pending_act rfl) fun _ _ h => h.settled
  refine .bind (pending_calm _ (only_transition isCalm_reading (hcas _) _ _)) fun b => ?_
  split_ifs
  swap
  · exact hdone _
  refine .bind (Q := fun _ => Pending j t nothing) ?_ fun res => ?_
  · refine .post (triple_retry (Q := fun _ => Pending j t nothing) (stable_pending _)
      (fun _ => stable_pending _) ((pending_callJoin peer).post ?_) _) ?_
    all_goals
      rintro (e | x) s h <;> exact h
  rcases res with e | ⟨pre, succs⟩
  · refine .bind (pending_calm _ (only_setState isCalm_reading (hcas _) _ _)) fun (_ : Unit) => ?_
    exact hdone _
  refine .bind (pending_act rfl) fun (_ : Unit) => ?_
  refine .bind (pending_act rfl) fun (_ : Unit) => ?_
  refine .bind (triple_startTasks (stable_pending _) (keeps_pending_routing _)
    (fun m => pending_notify m j) fuel ?_)
    fun (_ : Unit) => ?_
  · rintro τ (rfl | rfl | rfl) _ _ _ <;> rfl
  refine .bind (Q := fun _ => Pending j t nothing) (.bind (triple_updatePointers (stable_pending _)
    (keeps_pending_routing _) (fun m => pending_notify m pre) fuel)
      fun _ => .same (stable_pending _))
    fun (_ : Except ChordError Unit) => ?_
  refine .bind (pending_calm _ (only_setState isCalm_reading (hcas _) _ _)) fun (_ : Unit) => ?_
  split
  · exact hdone _
  · exact .bind (pending_release fuel _) fun _ _ _ h => h.elim

omit [KVProvider K] in
theorem NotBegun.pending (h : NotBegun t s) : Pending j t nothing s :=
  ⟨fun _ hn => h _ hn rfl, fun n _ => congrFun h.holds n⟩

theorem leaking_closed : (leaking hash fuel s₀ j).Closed where
  stable t := fun _ _ _ hne _ _ _ hk h _ he ht =>
    h _ ((Policy.leavesOthers hk).adds.other (ht ▸ hne.symm) he) ht
  safe τ t := by
    refine .assume fun hτ => .pre (P := Pending j t nothing) ?_ fun _ _ h => NotBegun.pending h
    by_cases hper : τ.isPeriodic = true
    · refine .post (triple_periodicTask (stable_pending _)
        (keeps_pending_routing _) hper (fun m => pending_notify m _)
        (pending_calm _ (only_checkPredecessor isCalm_reading (fun _ _ _ => rfl) _))
        fun _ _ _ => hτ) fun _ _ h => h.settled
    · cases τ with
      | handleJoin slot n x =>
        obtain rfl : x = j := hτ
        exact pending_handleJoin fuel slot n
      | _ => exact absurd hτ hper

end Stores

def handlers (es : List Event) : List ℕ :=
  es.filterMap fun
    | .swapped t _ _ .requestToJoin _ _ => some t
    | _ => none

/-- Every thread that has changed a state in RequestToJoin has ended. -/
def HandlersDone {K : Type} (c : Lib.Config chordSig (Shared K)) : Prop :=
  ∀ t ∈ handlers c.shared.trace, c.threads[t]? = some (.ret ())

/-- No node but the joiner is left Transferring, and what the ring stored at the start is stored at
nodes that accept KV requests. -/
def NothingLeaked {K : Type} [KVProvider K] (s₀ : Shared K) (j : NodeId) (s : Shared K) : Prop :=
  (∀ n, n ≠ j → (s.node n).state.state ≠ .transferring) ∧
  ∀ n k, (s₀.node n).state.state = .active →
    (KVProvider.val (s₀.node n).kv k).isDeleted = false →
    ∃ m, (s.node m).state.state = .active ∧
      KVProvider.val (s.node m).kv k = KVProvider.val (s₀.node n).kv k

section Runs

variable {K : Type} [KVProvider K] {hash : Bytes → ℕ} {fuel : ℕ} {j peer : NodeId}
  {maintenance : List Task} {s₀ : Shared K} {sched : List (ℕ × Fault)}
  {c : Lib.Config chordSig (Shared K)}

theorem lossy_launch (hs : AtRest s₀) (hm : ∀ τ ∈ maintenance, τ.isPeriodic = true) :
    ((lossy K j).rules hash fuel).Good
      ((cluster K hash fuel).launch (.joinLossy j peer :: maintenance) s₀) := by
  refine Rules.good_launch (hs.owned _) (fun t _ => hs.notBegun) fun t τ hτ => ?_
  rcases t with _ | t
  · obtain rfl : _ = τ := Option.some.inj hτ
    exact lossy_joinLossy peer s₀ (hs.owned _) hs.notBegun.holds
  · have hmem : τ ∈ maintenance := List.mem_of_getElem? (i := t) hτ
    exact lossy_closed.safe τ (t + 1) s₀ (hs.owned _)
      ⟨serves_of_periodic (hm τ hmem), hs.notBegun⟩

omit [KVProvider K] in
theorem AtRest.kept (hs : AtRest s₀) : Kept s₀ j s₀ where
  accepted t n h := by simp [hs.trace] at h
  took t n _ h := absurd (congrFun hs.notBegun.holds n) h
  same _ _ _ := ⟨rfl, rfl⟩

theorem leaking_launch (hs : AtRest s₀) (hm : ∀ τ ∈ maintenance, τ.isPeriodic = true) :
    (leaking hash fuel s₀ j).Good
      ((cluster K hash fuel).launch (.joinLossy j peer :: maintenance) s₀) := by
  refine Rules.good_launch hs.kept (fun t _ => hs.notBegun) fun t τ hτ => ?_
  rcases t with _ | t
  · obtain rfl : _ = τ := Option.some.inj hτ
    exact pending_joinLossy peer s₀ hs.kept (NotBegun.pending hs.notBegun)
  · have hmem : τ ∈ maintenance := List.mem_of_getElem? (i := t) hτ
    exact leaking_closed.safe τ (t + 1) s₀ hs.kept ⟨serves_of_periodic (hm τ hmem), hs.notBegun⟩

theorem lossy_follows (hrun : (cluster K hash fuel).run sched
      ((cluster K hash fuel).launch (.joinLossy j peer :: maintenance) s₀) = some c)
    (hun : Unfinished c.shared) : ((lossy K j).rules hash fuel).Follows sched
      ((cluster K hash fuel).launch (.joinLossy j peer :: maintenance) s₀) := by
  refine (Rules.follows_of_run (φ := Unfinished) (fun h hs => ?_) (fun _ _ => trivial) hrun hun).2
  obtain htr | ⟨e, htr⟩ := step_trace h
  · exact ⟨fun e he => hs e (htr ▸ he), fun e _ he => by simp [htr] at he⟩
  · refine ⟨fun e' he => hs e' (htr ▸ List.mem_cons_of_mem _ he), fun e' he' htr' => ?_⟩
    rw [hs e' (htr' ▸ List.mem_cons_self)] at he'
    cases he'

/-- A Join whose calls can lose their replies, next to the maintenance of the nodes: when it has
returned an error and the handlers of its calls have ended, it leaves no node Transferring and no
key out of reach exactly if none of its calls was accepted. -/
theorem failed_join_leaks_iff (hs : AtRest s₀) (hm : ∀ τ ∈ maintenance, τ.isPeriodic = true)
    (hrun : (cluster K hash fuel).run sched
      ((cluster K hash fuel).launch (.joinLossy j peer :: maintenance) s₀) = some c)
    {e : ChordError} (hret : .joinReturned 0 j (.error e) ∈ c.shared.trace)
    (hj : (s₀.node j).state.state = .inactive) (hdone : HandlersDone c) :
    NothingLeaked s₀ j c.shared ↔ ∀ t n, .accepted t n j ∉ c.shared.trace := by
  have hun := unfinished_of_failed hs.trace hm hrun fun hgoing => absurd (hgoing _ hret) nofun
  have hfollows := lossy_follows hrun hun
  have howned := Rules.good_run lossy_closed (lossy_launch hs hm) hfollows hrun
  have hfollows' := Rules.Follows.layer (leaking hash fuel s₀ j) lossy_closed (fun _ _ _ h => h)
    (fun _ _ => trivial) (lossy_launch hs hm) hfollows
  have hgood := Rules.good_run leaking_closed (leaking_launch hs hm) hfollows' hrun
  obtain ⟨haccepted, htook, hsame⟩ := hgood.1
  constructor
  · intro hleak t n hacc
    obtain ⟨hn, hheld⟩ := haccepted t n hacc
    exact hleak.1 n hn (howned.1.held_eq hheld)
  · intro hnone
    -- a node that is still held was taken by a handler, which has ended and so accepted
    have hfree : ∀ n, n ≠ j → ∀ t, held c.shared.trace t n = none := by
      intro n hn t
      by_contra hheld
      have hend := hdone t (List.mem_filterMap.2 ⟨_, htook t n hn hheld, rfl⟩)
      exact hnone t n (hgood.finished hend n hn hheld)
    refine ⟨fun n hn hst => ?_, fun n k hact hk => ?_⟩
    · have := hs.free n
      rw [← (hsame n hn (hfree n hn)).1, hst] at this
      cases this
    · have hn : n ≠ j := by
        rintro rfl
        simp [hj] at hact
      obtain ⟨h1, h2⟩ := hsame n hn (hfree n hn)
      exact ⟨n, h1.trans hact, by rw [h2]⟩

end Runs

/-- The schedule of a Join whose call is handled in full while it waits, with these labels for the
handler, and which then loses the reply. -/
def lostReply (handler : List Fault) : List (ℕ × Fault) :=
  List.replicate 4 (0, .ok) ++ handler.map (1, ·) ++ (0, .failAfter) :: List.replicate 4 (0, .ok)

/-- A call that fails at the handler leaves nothing behind. -/
theorem failed_join_leaks_iff_refused : ∃ c,
    (cluster _ (fun _ => 50) 1).run
      (lostReply (List.replicate 7 .ok ++ .fail :: List.replicate 6 .ok))
      ((cluster _ (fun _ => 50) 1).launch [.joinLossy 100 300] pairRing) = some c ∧
    .joinReturned 0 100 (.error .other) ∈ c.shared.trace ∧ HandlersDone c ∧
    NothingLeaked pairRing 100 c.shared := by
  have hend : ((cluster _ (fun _ => 50) 1).run
      (lostReply (List.replicate 7 .ok ++ .fail :: List.replicate 6 .ok))
      ((cluster _ (fun _ => 50) 1).launch [.joinLossy 100 300] pairRing)).map
        (fun c => (c.shared.trace, c.threads[1]?)) =
      some ([.joinReturned 0 100 (.error .other),
        .swapped 0 100 .set .join .joining .inactive,
        .swapped 1 300 .set .requestToJoin .transferring .active,
        .swapped 1 300 .transition .requestToJoin .active .transferring,
        .swapped 0 100 .transition .join .inactive .joining], some (.ret ())) := rfl
  obtain ⟨c, hrun, hc⟩ := Option.map_eq_some_iff.1 hend
  simp only [Prod.mk.injEq] at hc
  obtain ⟨htrace, hthread⟩ := hc
  have hret : .joinReturned 0 100 (.error .other) ∈ c.shared.trace := by simp [htrace]
  have hdone : HandlersDone c := by
    intro t ht
    obtain rfl : t = 1 := by simpa [htrace, handlers] using ht
    exact hthread
  refine ⟨c, hrun, hret, hdone, ?_⟩
  refine (failed_join_leaks_iff pairRing_atRest (by simp) hrun hret rfl hdone).2 fun t n => ?_
  simp [htrace]

/-- A call that is accepted and whose reply is lost: the Join fails, the successor stays
Transferring, and its key is at the joiner, which is Inactive. -/
theorem failed_join_leaks_lock : ∃ c,
    (cluster _ (fun _ => 50) 1).run (lostReply (List.replicate 18 .ok))
      ((cluster _ (fun _ => 50) 1).launch [.joinLossy 100 300] pairRing) = some c ∧
    .joinReturned 0 100 (.error .other) ∈ c.shared.trace ∧ HandlersDone c ∧
    (c.shared.node 300).state.state = .transferring ∧
    (c.shared.node 100).state.state = .inactive ∧
    ((pairRing.node 300).kv.val [1]).simple = some [2] ∧
    ((c.shared.node 100).kv.val [1]).simple = some [2] ∧
    ((c.shared.node 300).kv.val [1]).simple = none ∧
    ((c.shared.node 7).kv.val [1]).simple = none := by
  have hend : ((cluster _ (fun _ => 50) 1).run (lostReply (List.replicate 18 .ok))
      ((cluster _ (fun _ => 50) 1).launch [.joinLossy 100 300] pairRing)).map
        (fun c => ((c.shared.trace, c.threads[1]?),
          ((c.shared.node 300).state.state, (c.shared.node 100).state.state),
          [100, 300, 7].map fun n => ((c.shared.node n).kv.val [1]).simple)) =
      some (([.joinReturned 0 100 (.error .other),
        .swapped 0 100 .set .join .joining .inactive,
        .accepted 1 300 100, .imported 1 100 [[1]] [⟨some [2], [], 0⟩],
        .swapped 1 300 .transition .requestToJoin .active .transferring,
        .swapped 0 100 .transition .join .inactive .joining], some (.ret ())),
        (.transferring, .inactive), [some [2], none, none]) := rfl
  obtain ⟨c, hrun, hc⟩ := Option.map_eq_some_iff.1 hend
  simp only [Prod.mk.injEq, List.map_cons, List.map_nil, List.cons.injEq, and_true] at hc
  obtain ⟨⟨htrace, hthread⟩, ⟨h300, h100⟩, hv100, hv300, hv7⟩ := hc
  refine ⟨c, hrun, by simp [htrace], fun t ht => ?_, h300, h100, rfl, hv100, hv300, hv7⟩
  obtain rfl : t = 1 := by simpa [htrace, handlers] using ht
  exact hthread

end Specter
