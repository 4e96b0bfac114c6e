import Specter.Proofs.Moving

/-!
# One owner and one value for every key

What joins, maintenance and KV requests keep up together, in a ring that nobody leaves.  A member
that is not Joining knows its true predecessor, so ranges never overlap.  The keys of a member hold
what one store would hold, and no other node stores them, except while they are handed over under
the surrogate mutex.  `Sound` is the invariant and `Respects` what a step leaves to other threads.
-/

namespace Specter

open Lib (Prog Rules Arc.Ioo Arc.Ioc Arc.Gap)

section Rules

variable {K : Type} [KVProvider K]

/-- The store of the node is on the way: it waits to be accepted, or hands over. -/
def View.Moving (v : View K) (n : NodeId) : Prop :=
  (n ∉ v.members ∧ v.state n = .joining) ∨
    ∃ t, v.held t n = some .transferring ∧ (v.mutex n .surrogateMu).writer = some t

/-- The node stores what it should under the key. -/
def View.RowOk (hash : Bytes → ℕ) (v : View K) (n : NodeId) (k : Bytes) : Prop :=
  (Owns v.members n (hash k) → KVProvider.val (v.kv n) k = v.history k) ∧
    (¬ Owns v.members n (hash k) → KVProvider.val (v.kv n) k = .newValue)

/-- What holds in every state of a ring that `n₀` creates. -/
structure Sound (hash : Bytes → ℕ) (n₀ : NodeId) (v : View K) : Prop where
  readers : ∀ n mu, (v.mutex n mu).writer ≠ none → (v.mutex n mu).readers = []
  root : v.members.Nonempty → n₀ ∈ v.members
  alive : ∀ n ∈ v.members, (v.state n).isAlive = true
  running : ∀ n, v.state n = .active ∨ v.state n = .transferring → n ∈ v.members
  preds : ∀ n p, v.predecessor n = some p → p ∈ v.members
  settled : ∀ n ∈ v.members, v.state n ≠ .joining →
    ∃ p, v.predecessor n = some p ∧ Arc.Gap v.members p n
  noted : ∀ n p, v.state n = .active → v.predecessor n = some p → v.predecessor p ≠ none
  rows : ∀ n, ¬ v.Moving n → ∀ k, v.RowOk hash n k
  unborn : v.members = ∅ → ∀ k, v.history k = .newValue
  linear : v.linear

/-- What a step of thread `t` leaves to the others. -/
structure Respects (hash : Bytes → ℕ) (t : ℕ) (v v' : View K) : Prop where
  writer : ∀ t', t' ≠ t → ∀ n mu, (v'.mutex n mu).writer = some t' ↔
    (v.mutex n mu).writer = some t'
  reader : ∀ t', t' ≠ t → ∀ n mu, (v'.mutex n mu).readers.count t' =
    (v.mutex n mu).readers.count t'
  active : ∀ n, v.state n = .active → v'.state n ≠ .active →
    (v.mutex n .surrogateMu).writer = some t
  predecessor : ∀ n, v'.predecessor n ≠ v.predecessor n →
    (v.mutex n .predecessorMu).readers = []
  grows : v.members ⊆ v'.members
  joins : ∀ x ∈ v'.members, x ∉ v.members →
    (v.held t x = some .joining ∨ v.state x = .inactive) ∧
      (v.members = ∅ ∨ ∃ n ∈ v.members, v.held t n = some .transferring)
  gap : ∀ n p, Arc.Gap v.members p n →
    Arc.Gap v'.members p n ∨ v.held t n = some .transferring
  settled : ∀ n p, v.predecessor n = some p → Arc.Gap v.members p n →
    v'.predecessor n = some p ∨ v.held t n = some .transferring
  noted : ∀ n, v.predecessor n ≠ none → v'.predecessor n ≠ none
  first : ∀ n c, v.predecessor n = none → v'.predecessor n = some c →
    v.predecessor c ≠ none ∨ v.held t n ≠ none
  successors : ∀ n, v'.successors n ≠ v.successors n →
    v.predecessor n ≠ none ∨ v.held t n ≠ none
  kv : ∀ n, v'.kv n ≠ v.kv n → v.held t n ≠ none ∨ v.state n = .active
  history : ∀ k, v'.history k ≠ v.history k → ∃ n, v.state n = .active ∧ Owns v.members n (hash k)

variable {hash : Bytes → ℕ} {n₀ : NodeId} {fuel t : ℕ} {tasks : List Task} {v v' : View K}

omit [KVProvider K] in
theorem Respects.refl (hash : Bytes → ℕ) (t : ℕ) (v : View K) : Respects hash t v v where
  writer _ _ _ _ := Iff.rfl
  reader _ _ _ _ := rfl
  active _ h h' := absurd h h'
  predecessor _ h := absurd rfl h
  grows := subset_rfl
  joins _ h h' := absurd h h'
  gap _ _ h := .inl h
  settled _ _ h _ := .inl h
  noted _ h := h
  first n c h h' := by rw [h] at h'; cases h'
  successors _ h := absurd rfl h
  kv _ h := absurd rfl h
  history _ h := absurd rfl h

/-- A node that has been told of a predecessor takes part in maintenance. -/
def View.Noted (v : View K) (n : NodeId) : Prop := n ∈ v.members ∧ v.predecessor n ≠ none

/-- Runs without failing calls of a ring that nobody leaves. -/
@[reducible] def growing (K : Type) [KVProvider K] (hash : Bytes → ℕ) (tasks : List Task)
    (n₀ : NodeId) : Contract K where
  start := ∅
  policy := answered tasks fun _ _ _ => True
  inv := Sound hash n₀
  guar := Respects hash
  maintains n v := v.Noted n
  guar_refl := Respects.refl hash

namespace Contract.Interferes

variable {n p x : NodeId} {k : Bytes} (h : (growing K hash tasks n₀).Interferes t v v')

include h

theorem sound : Sound hash n₀ v := h.inv

theorem sound' : Sound hash n₀ v' := h.inv'

theorem respects : ∃ t', t' ≠ t ∧ Respects hash t' v v' := h.guar

theorem grows : v.members ⊆ v'.members := h.respects.choose_spec.2.grows

theorem noted (hn : v.predecessor n ≠ none) : v'.predecessor n ≠ none :=
  h.respects.choose_spec.2.noted n hn

theorem writer (n : NodeId) (mu : Mutex) :
    (v'.mutex n mu).writer = some t ↔ (v.mutex n mu).writer = some t := by
  obtain ⟨t', hne, hr⟩ := h.respects
  exact hr.writer t hne.symm n mu

theorem reader (n : NodeId) (mu : Mutex) :
    (v'.mutex n mu).readers.count t = (v.mutex n mu).readers.count t := by
  obtain ⟨t', hne, hr⟩ := h.respects
  exact hr.reader t hne.symm n mu

theorem gap (hn : v.held t n ≠ none) (hg : Arc.Gap v.members p n) : Arc.Gap v'.members p n := by
  obtain ⟨t', hne, hr⟩ := h.respects
  refine (hr.gap n p hg).resolve_right fun h' => ?_
  rw [h.not_held hn hne] at h'
  cases h'

theorem settled (hn : v.held t n ≠ none) (hp : v.predecessor n = some p)
    (hg : Arc.Gap v.members p n) : v'.predecessor n = some p := by
  obtain ⟨t', hne, hr⟩ := h.respects
  refine (hr.settled n p hp hg).resolve_right fun h' => ?_
  rw [h.not_held hn hne] at h'
  cases h'

theorem kv (hn : v.held t n ≠ none) : v'.kv n = v.kv n := by
  obtain ⟨t', hne, hr⟩ := h.respects
  by_contra hkv
  rcases hr.kv n hkv with h' | h'
  · exact h' (h.not_held hn hne)
  · exact h.heldOk.not_active hn h'

theorem notMem (hx : v.held t x = some .joining) (hm : x ∉ v.members) : x ∉ v'.members := by
  obtain ⟨t', hne, hr⟩ := h.respects
  intro hx'
  rcases (hr.joins x hx' hm).1 with h' | h'
  · rw [h.not_held (by rw [hx]; simp) hne] at h'
    cases h'
  · rw [h.heldOk.state hx] at h'
    cases h'

theorem history (hn : v.held t n ≠ none) (hk : Owns v.members n (hash k)) :
    v'.history k = v.history k := by
  obtain ⟨t', hne, hr⟩ := h.respects
  by_contra hh
  obtain ⟨m, hm, hown⟩ := hr.history k hh
  rw [hk.unique hown] at hn
  exact h.heldOk.not_active hn hm

theorem active (hr : (v.mutex n .surrogateMu).readers.count t ≠ 0) (ha : v.state n = .active) :
    v'.state n = .active := by
  obtain ⟨t', hne, hresp⟩ := h.respects
  by_contra hna
  have hw := hresp.active n ha hna
  exact hr (by rw [h.sound.readers n _ (by rw [hw]; simp)]; rfl)

theorem predecessor (hr : (v.mutex n .predecessorMu).readers.count t ≠ 0) :
    v'.predecessor n = v.predecessor n := by
  obtain ⟨t', hne, hresp⟩ := h.respects
  by_contra hna
  exact hr (by rw [hresp.predecessor n hna]; rfl)

end Contract.Interferes

theorem stays_writer (n : NodeId) (mu : Mutex) :
    (growing K hash tasks n₀).Stays t fun v => (v.mutex n mu).writer = some t :=
  fun _ _ h hv => (h.writer n mu).2 hv

section Mutexes

variable {n : NodeId} {mu : Mutex} {m : RWMutex}

omit [KVProvider K] in
@[simp] theorem setMutex_mutex_self : (v.setMutex n mu m).mutex n mu = m := by
  simp [View.setMutex]

omit [KVProvider K] in
theorem setMutex_mutex_ne {n' : NodeId} {mu' : Mutex} (h : ¬ (n' = n ∧ mu' = mu)) :
    (v.setMutex n mu m).mutex n' mu' = v.mutex n' mu' := by
  simp [View.setMutex, h]

theorem Sound.setMutex (h : Sound hash n₀ v) (hm : m.writer ≠ none → m.readers = [])
    (hrows : ∀ t', (v.mutex n mu).writer = some t' → v.held t' n = some .transferring →
      mu = .surrogateMu → ∀ k, v.RowOk hash n k) : Sound hash n₀ (v.setMutex n mu m) := by
  refine { h with readers := fun n' mu' => ?_, rows := fun n' hn' k => ?_ }
  · by_cases hs : n' = n ∧ mu' = mu
    · obtain ⟨rfl, rfl⟩ := hs
      rwa [setMutex_mutex_self]
    · rw [setMutex_mutex_ne hs]
      exact h.readers n' mu'
  · by_cases hmov : v.Moving n'
    · rcases hmov with hj | ⟨t', ht', hw⟩
      · exact absurd (.inl hj) hn'
      · by_cases hs : n' = n ∧ .surrogateMu = mu
        · obtain ⟨rfl, rfl⟩ := hs
          exact hrows t' hw ht' rfl k
        · exact absurd (.inr ⟨t', ht', by rwa [setMutex_mutex_ne hs]⟩) hn'
    · exact h.rows n' hmov k

omit [KVProvider K] in
theorem Respects.setMutex
    (hw : ∀ t', t' ≠ t → (m.writer = some t' ↔ (v.mutex n mu).writer = some t'))
    (hr : ∀ t', t' ≠ t → m.readers.count t' = (v.mutex n mu).readers.count t') :
    Respects hash t v (v.setMutex n mu m) := by
  refine { Respects.refl hash t v with
    writer := fun t' ht' n' mu' => ?_, reader := fun t' ht' n' mu' => ?_ }
  · by_cases hs : n' = n ∧ mu' = mu
    · obtain ⟨rfl, rfl⟩ := hs
      rw [setMutex_mutex_self]
      exact hw t' ht'
    · rw [setMutex_mutex_ne hs]
  · by_cases hs : n' = n ∧ mu' = mu
    · obtain ⟨rfl, rfl⟩ := hs
      rw [setMutex_mutex_self]
      exact hr t' ht'
    · rw [setMutex_mutex_ne hs]

theorem Sound.lock (h : Sound hash n₀ v) (hl : (v.mutex n mu).canLock = true) :
    Sound hash n₀ (v.setMutex n mu ⟨some t, []⟩) ∧
      Respects hash t v (v.setMutex n mu ⟨some t, []⟩) := by
  simp only [RWMutex.canLock, Bool.and_eq_true, Option.isNone_iff_eq_none,
    List.isEmpty_iff] at hl
  refine ⟨h.setMutex (fun _ => rfl) fun t' ht' => ?_, .setMutex (fun t' ht' => ?_) fun t' ht' => ?_⟩
  · rw [hl.1] at ht'
    cases ht'
  · rw [hl.1]
    simp [ht'.symm]
  · rw [hl.2]

theorem Sound.unlock (h : Sound hash n₀ v) (hw : (v.mutex n mu).writer = some t)
    (hrows : mu = .surrogateMu → v.held t n = some .transferring → ∀ k, v.RowOk hash n k) :
    Sound hash n₀ (v.setMutex n mu .unlocked) ∧
      Respects hash t v (v.setMutex n mu .unlocked) := by
  refine ⟨h.setMutex (fun h' => absurd rfl h') fun t' ht' hh hmu => ?_,
    .setMutex (fun t' ht' => ?_) fun t' ht' => ?_⟩
  · obtain rfl : t = t' := by simpa [hw] using ht'
    exact hrows hmu hh
  · rw [hw]
    simp [RWMutex.unlocked, ht'.symm]
  · rw [h.readers n mu (by rw [hw]; simp)]
    rfl

theorem Sound.rlock (h : Sound hash n₀ v) (hw : (v.mutex n mu).writer = none) :
    Sound hash n₀ (v.setMutex n mu ⟨none, t :: (v.mutex n mu).readers⟩) ∧
      Respects hash t v (v.setMutex n mu ⟨none, t :: (v.mutex n mu).readers⟩) := by
  refine ⟨h.setMutex (fun h' => absurd rfl h') fun t' ht' => ?_,
    .setMutex (fun t' ht' => by rw [hw]) fun t' ht' => ?_⟩
  · rw [hw] at ht'
    cases ht'
  · rw [List.count_cons_of_ne ht'.symm]

theorem Sound.runlock (h : Sound hash n₀ v) (hr : t ∈ (v.mutex n mu).readers) :
    Sound hash n₀ (v.setMutex n mu ⟨none, (v.mutex n mu).readers.erase t⟩) ∧
      Respects hash t v (v.setMutex n mu ⟨none, (v.mutex n mu).readers.erase t⟩) := by
  have hw : (v.mutex n mu).writer = none := by
    by_contra hw
    rw [h.readers n mu hw] at hr
    cases hr
  refine ⟨h.setMutex (fun h' => absurd rfl h') fun t' ht' => ?_,
    .setMutex (fun t' ht' => by rw [hw]) fun t' ht' => ?_⟩
  · rw [hw] at ht'
    cases ht'
  · rw [List.count_erase_of_ne ht']

end Mutexes

section States

variable {n : NodeId} {st : State}

omit [KVProvider K] in
theorem swap_moving_ne {m : NodeId} (h : m ≠ n) : (v.swap t n st).Moving m ↔ v.Moving m := by
  simp only [View.Moving, swap_state_ne h, swap_held_ne h]
  exact Iff.rfl

theorem Sound.swap (h : Sound hash n₀ v) (halive : n ∈ v.members → st.isAlive = true)
    (hrun : st = .active ∨ st = .transferring → n ∈ v.members)
    (hset : n ∈ v.members → st ≠ .joining →
      ∃ p, v.predecessor n = some p ∧ Arc.Gap v.members p n)
    (hnot : st = .active → ∀ p, v.predecessor n = some p → v.predecessor p ≠ none)
    (hrows : ¬ (v.swap t n st).Moving n → ∀ k, v.RowOk hash n k) :
    Sound hash n₀ (v.swap t n st) := by
  refine { h with
    alive := fun m hm => ?_, running := fun m hm => ?_, settled := fun m hm hj => ?_
    noted := fun m p hm hp => ?_, rows := fun m hm k => ?_ }
  · by_cases hmn : m = n
    · subst hmn
      rw [swap_state_self]
      exact halive hm
    · rw [swap_state_ne hmn]
      exact h.alive m hm
  · by_cases hmn : m = n
    · subst hmn
      rw [swap_state_self] at hm
      exact hrun hm
    · rw [swap_state_ne hmn] at hm
      exact h.running m hm
  · by_cases hmn : m = n
    · subst hmn
      rw [swap_state_self] at hj
      exact hset hm hj
    · rw [swap_state_ne hmn] at hj
      exact h.settled m hm hj
  · by_cases hmn : m = n
    · subst hmn
      rw [swap_state_self] at hm
      exact hnot hm p hp
    · rw [swap_state_ne hmn] at hm
      exact h.noted m p hm hp
  · by_cases hmn : m = n
    · subst hmn
      exact hrows hm k
    · exact h.rows m (fun h' => hm ((swap_moving_ne hmn).2 h')) k

omit [KVProvider K] in
theorem Respects.swap (ha : v.state n = .active → (v.mutex n .surrogateMu).writer = some t) :
    Respects hash t v (v.swap t n st) := by
  refine { Respects.refl hash t v with active := fun m hm hm' => ?_ }
  by_cases hmn : m = n
  · subst hmn
    exact ha hm
  · rw [swap_state_ne hmn] at hm'
    exact absurd hm hm'

end States

theorem Sound.create (h : Sound hash n₀ v) (hh : HeldOk v) (hn : v.state n₀ = .inactive) :
    v.members = ∅ ∧
    Sound hash n₀ { v.swap t n₀ .joining with members := insert n₀ v.members } ∧
      Respects hash t v { v.swap t n₀ .joining with members := insert n₀ v.members } := by
  have hempty : v.members = ∅ := by
    rw [Set.eq_empty_iff_forall_notMem]
    intro m hm
    have := h.alive n₀ (h.root ⟨m, hm⟩)
    rw [hn] at this
    cases this
  have hnone : ∀ m, m ∉ v.members := fun m hm => by rwa [hempty] at hm
  have hown : ∀ m id, ¬ Owns v.members m id := fun m id ho => hnone m ho.mem
  have hmov : ¬ v.Moving n₀ := by
    rintro (⟨-, hj⟩ | ⟨t', ht', -⟩)
    · rw [hn] at hj
      cases hj
    · have := hh.state ht'
      rw [hn] at this
      cases this
  have hidle : ∀ m, m ≠ n₀ → ¬ (v.state m = .active ∨ v.state m = .transferring) :=
    fun m _ hm => hnone m (h.running m hm)
  refine ⟨hempty, { h with
    root := fun _ => Set.mem_insert n₀ _, alive := fun m hm => ?_, running := fun m hm => ?_
    preds := fun m p hp => absurd (h.preds m p hp) (hnone p), settled := fun m hm hj => ?_
    noted := fun m p hm hp => absurd (h.preds m p hp) (hnone p), rows := fun m hm k => ?_
    unborn := fun he => absurd he (Set.insert_nonempty n₀ _).ne_empty },
    { Respects.swap (fun ha => absurd (h.running n₀ (.inl ha)) (hnone n₀)) with
      grows := Set.subset_insert n₀ _, joins := fun x hx hx' => ?_
      gap := fun m p hg => absurd hg.right (hnone m) }⟩
  · obtain rfl : m = n₀ := hm.resolve_right (hnone m)
    rw [swap_state_self]
    rfl
  · by_cases hmn : m = n₀
    · exact .inl hmn
    · rw [swap_state_ne hmn] at hm
      exact absurd hm (hidle m hmn)
  · obtain rfl : m = n₀ := hm.resolve_right (hnone m)
    exact absurd (swap_state_self (t := t)) hj
  · by_cases hmn : m = n₀
    · subst hmn
      have hval := (h.rows m hmov k).2 (hown m _)
      exact ⟨fun _ => hval.trans (h.unborn hempty k).symm, fun _ => hval⟩
    · have hmov' : ¬ v.Moving m := fun h' => hm <| by
        rcases h' with ⟨hj, hst⟩ | ⟨t', ht', hw⟩
        · exact .inl ⟨fun hm' => hm'.elim hmn hj, (swap_state_ne (t := t) hmn).trans hst⟩
        · exact .inr ⟨t', (swap_held_ne (t := t) hmn t').trans ht', hw⟩
      refine ⟨fun ho => absurd ho.mem ?_, fun _ => (h.rows m hmov' k).2 (hown m _)⟩
      exact fun hm' => hm'.elim hmn (hnone m)
  · obtain rfl : x = n₀ := hx.resolve_right hx'
    exact ⟨.inr hn, .inl hempty⟩

section Pointers

variable {n c : NodeId}

omit [KVProvider K] in
theorem update_ne_none {f : NodeId → Option NodeId} (m : NodeId) (h : f m ≠ none) :
    Function.update f n (some c) m ≠ none := by
  by_cases hm : m = n
  · simp [hm]
  · simpa [hm] using h

theorem Sound.setPredecessor (h : Sound hash n₀ v) (hc : c ∈ v.members)
    (hset : n ∈ v.members → v.state n ≠ .joining → Arc.Gap v.members c n)
    (hnot : v.state n = .active → v.predecessor c ≠ none) :
    Sound hash n₀ { v with predecessor := Function.update v.predecessor n (some c) } := by
  refine { h with
    preds := fun m p hp => ?_, settled := fun m hm hj => ?_, noted := fun m p hm hp => ?_ }
  · dsimp only at hp
    by_cases hmn : m = n
    · obtain rfl : c = p := by simpa [hmn] using hp
      exact hc
    · rw [Function.update_of_ne hmn] at hp
      exact h.preds m p hp
  · dsimp only
    by_cases hmn : m = n
    · subst hmn
      exact ⟨c, by simp, hset hm hj⟩
    · rw [Function.update_of_ne hmn]
      exact h.settled m hm hj
  · dsimp only at hp ⊢
    by_cases hmn : m = n
    · subst hmn
      obtain rfl : c = p := by simpa using hp
      exact update_ne_none _ (hnot hm)
    · rw [Function.update_of_ne hmn] at hp
      exact update_ne_none _ (h.noted m p hm hp)

omit [KVProvider K] in
theorem Respects.setPredecessor (hl : (v.mutex n .predecessorMu).readers = [])
    (hset : ∀ p, v.predecessor n = some p → Arc.Gap v.members p n →
      c = p ∨ v.held t n = some .transferring)
    (hfirst : v.predecessor n = none → v.predecessor c ≠ none ∨ v.held t n ≠ none) :
    Respects hash t v { v with predecessor := Function.update v.predecessor n (some c) } := by
  refine { Respects.refl hash t v with
    predecessor := fun m hm => ?_, settled := fun m p hp hg => ?_
    noted := fun m hm => update_ne_none m hm, first := fun m d hm hd => ?_ }
  · by_cases hmn : m = n
    · rwa [hmn]
    · exact absurd (Function.update_of_ne hmn _ _) hm
  · dsimp only
    by_cases hmn : m = n
    · subst hmn
      exact (hset p hp hg).imp (fun hcp => by simp [hcp]) id
    · rw [Function.update_of_ne hmn]
      exact .inl hp
  · dsimp only at hd
    by_cases hmn : m = n
    · subst hmn
      obtain rfl : c = d := by simpa using hd
      exact hfirst hm
    · rw [Function.update_of_ne hmn, hm] at hd
      cases hd

/-- The store of a node that is on the way is not looked at. -/
theorem Sound.setKv (h : Sound hash n₀ v) (hm : v.Moving n) (d : K) :
    Sound hash n₀ { v with kv := Function.update v.kv n d } := by
  refine { h with rows := fun m hm' k => ?_ }
  have hmn : m ≠ n := by
    rintro rfl
    exact hm' hm
  have := h.rows m hm' k
  simpa only [View.RowOk, Function.update_of_ne hmn] using this

omit [KVProvider K] in
theorem Respects.setKv (hn : v.held t n ≠ none) (d : K) :
    Respects hash t v { v with kv := Function.update v.kv n d } := by
  refine { Respects.refl hash t v with kv := fun m hm => .inl ?_ }
  by_cases hmn : m = n
  · rwa [hmn]
  · exact absurd (Function.update_of_ne hmn _ _) hm

omit [KVProvider K] in
theorem Respects.setSuccessors (hn : v.predecessor n ≠ none ∨ v.held t n ≠ none)
    (l : List NodeId) :
    Respects hash t v { v with successors := Function.update v.successors n l } := by
  refine { Respects.refl hash t v with successors := fun m hm => ?_ }
  by_cases hmn : m = n
  · rwa [hmn]
  · exact absurd (Function.update_of_ne hmn _ _) hm

theorem Sound.commitJoin (h : Sound hash n₀ v) (hh : HeldOk v) {x p : NodeId}
    (hx : v.held t x = some .joining) (hxm : x ∉ v.members)
    (hn : v.held t n = some .transferring) (hw : (v.mutex n .surrogateMu).writer = some t)
    (hwp : (v.mutex n .predecessorMu).writer = some t) (hp : v.predecessor n = some p)
    (hg : Arc.Gap v.members p n) (hin : Arc.Ioo p n x)
    (hrows : ∀ k, (Arc.Ioc p x (hash k) → KVProvider.val (v.kv x) k = v.history k) ∧
      (¬ Arc.Ioc p x (hash k) → KVProvider.val (v.kv x) k = .newValue)) :
    Sound hash n₀ { v with
      predecessor := Function.update v.predecessor n (some x)
      members := insert x v.members } ∧
    Respects hash t v { v with
      predecessor := Function.update v.predecessor n (some x)
      members := insert x v.members } := by
  have hgap : ∀ {m q}, m ≠ n → Arc.Gap v.members q m → Arc.Gap (insert x v.members) q m :=
    fun hmn hq => hg.insert_of_ne hin hq hmn
  refine ⟨{ h with
    root := fun _ => .inr (h.root ⟨n, hg.right⟩), alive := fun m hm => ?_
    running := fun m hm => .inr (h.running m hm), preds := fun m q hq => ?_
    settled := fun m hm hj => ?_, noted := fun m q hm hq => ?_, rows := fun m hm k => ?_
    unborn := fun he => absurd he (Set.insert_nonempty x _).ne_empty },
    { Respects.refl hash t v with
      predecessor := fun m hm => ?_, grows := Set.subset_insert x _
      joins := fun y hy hy' => ?_, gap := fun m q hq => ?_, settled := fun m q hq hgq => ?_
      noted := fun m hm => update_ne_none m hm, first := fun m d hm hd => ?_ }⟩
  · rcases hm with rfl | hm
    · rw [hh.state hx]
      rfl
    · exact h.alive m hm
  · dsimp only at hq
    by_cases hmn : m = n
    · obtain rfl : x = q := by simpa [hmn] using hq
      exact .inl rfl
    · rw [Function.update_of_ne hmn] at hq
      exact .inr (h.preds m q hq)
  · dsimp only
    by_cases hmn : m = n
    · subst hmn
      exact ⟨x, by simp, hg.insert_right hin⟩
    · rcases hm with rfl | hm
      · exact absurd (hh.state hx) hj
      · obtain ⟨q, hq, hgq⟩ := h.settled m hm hj
        exact ⟨q, by rw [Function.update_of_ne hmn, hq], hgap hmn hgq⟩
  · dsimp only at hq ⊢
    by_cases hmn : m = n
    · have := hh.state hn
      rw [← hmn, hm] at this
      cases this
    · rw [Function.update_of_ne hmn] at hq
      exact update_ne_none _ (h.noted m q hm hq)
  · by_cases hmx : m = x
    · subst hmx
      simp only [View.RowOk, owns_insert_left hg hin]
      exact hrows k
    · have hmn : m ≠ n := fun hmn => hm (.inr ⟨t, hmn ▸ hn, hmn ▸ hw⟩)
      have hmov : ¬ v.Moving m := fun h' => hm <| h'.imp_left fun hj =>
        ⟨fun hm' => hm'.elim hmx hj.1, hj.2⟩
      simp only [View.RowOk, owns_insert_of_ne hg hin hmx hmn]
      exact h.rows m hmov k
  · by_cases hmn : m = n
    · rw [hmn]
      exact h.readers n _ (by rw [hwp]; simp)
    · exact absurd (Function.update_of_ne hmn _ _) hm
  · obtain rfl : y = x := hy.resolve_right hy'
    exact ⟨.inl hx, .inr ⟨n, hg.right, hn⟩⟩
  · by_cases hmn : m = n
    · exact .inr (hmn ▸ hn)
    · exact .inl (hgap hmn hq)
  · by_cases hmn : m = n
    · exact .inr (hmn ▸ hn)
    · exact .inl ((Function.update_of_ne hmn _ _).trans hq)
  · dsimp only at hd
    by_cases hmn : m = n
    · rw [hmn, hp] at hm
      cases hm
    · rw [Function.update_of_ne hmn, hm] at hd
      cases hd

theorem Sound.handle [LawfulProvider K hash] (h : Sound hash n₀ v) (hh : HeldOk v) {q : Request}
    (ha : v.state n = .active) (ho : Owns v.members n (hash q.key)) :
    Sound hash n₀ { v with
      kv := Function.update v.kv n (KVProvider.handle q (v.kv n)).2
      history := fun k => if q.key = k then ((v.history k).handle q).2 else v.history k
      linear := (KVProvider.handle q (v.kv n)).1 = ((v.history q.key).handle q).1 ∧ v.linear } ∧
    Respects hash t v { v with
      kv := Function.update v.kv n (KVProvider.handle q (v.kv n)).2
      history := fun k => if q.key = k then ((v.history k).handle q).2 else v.history k
      linear := (KVProvider.handle q (v.kv n)).1 = ((v.history q.key).handle q).1 ∧ v.linear } := by
  have hmov : ¬ v.Moving n := by
    rintro (⟨hm, -⟩ | ⟨t', ht', -⟩)
    · exact hm ho.mem
    · exact hh.not_active (by rw [ht']; simp) ha
  have hval : KVProvider.val (v.kv n) q.key = v.history q.key := (h.rows n hmov q.key).1 ho
  refine ⟨{ h with
    rows := fun m hm k => ?_, unborn := fun he => absurd ho.mem (by rw [he]; simp)
    linear := ⟨?_, h.linear⟩ },
    { Respects.refl hash t v with kv := fun m hm => .inr ?_, history := fun k hk => ?_ }⟩
  · have hrow := h.rows m hm k
    by_cases hk : q.key = k
    · subst hk
      by_cases hmn : m = n
      · subst hmn
        refine ⟨fun _ => ?_, fun hno => absurd ho hno⟩
        simp only [Function.update_self, if_pos]
        rw [@LawfulProvider.handle_key K _ hash, hval]
      · have hno : ¬ Owns v.members m (hash q.key) := fun ho' => hmn (ho'.unique ho)
        refine ⟨fun ho' => absurd ho' hno, fun _ => ?_⟩
        simp only [Function.update_of_ne hmn]
        exact hrow.2 hno
    · have hsame : KVProvider.val (Function.update v.kv n (KVProvider.handle q (v.kv n)).2 m) k =
          KVProvider.val (v.kv m) k := by
        by_cases hmn : m = n
        · rw [hmn, Function.update_self, @LawfulProvider.handle_ne K _ hash _ q _ k (Ne.symm hk)]
        · rw [Function.update_of_ne hmn]
      simpa only [View.RowOk, hsame, if_neg hk] using hrow
  · rw [@LawfulProvider.handle_fst K _ hash, hval]
  · by_cases hmn : m = n
    · rwa [hmn]
    · exact absurd (Function.update_of_ne hmn _ _) hm
  · by_cases hqk : q.key = k
    · exact ⟨n, ha, hqk ▸ ho⟩
    · exact absurd (if_neg hqk) hk

end Pointers

end Rules

end Specter
