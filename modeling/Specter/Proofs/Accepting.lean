import Specter.Proofs.Serving

/-!
# Accepting a joiner while the ring is in use

RequestToJoin under the rules of `Proofs.Consistency`.  The joiner waits, holding only its own node
(`Waiting`); it holds its successor as well and moves keys (`Accepting`); it is a member, and still
holds both (`Joined`).
-/

namespace Specter

open Lib (Prog Rules Arc.Ioo Arc.Ioc Arc.Gap)
open Contract

section Programs

variable {K : Type} [KVProvider K] {hash : Bytes → ℕ} {n₀ : NodeId} {fuel t : ℕ} {tasks : List Task}
  {P : View K → Prop} {n : NodeId} [LawfulProvider K hash] {H : Bytes → KvValue} {v : View K}
  {a b : K}

/-- The joiner `x` holds its own node only, and has nothing stored. -/
structure Waiting (t : ℕ) (x : NodeId) (v : View K) : Prop where
  joining : v.held t x = some .joining
  alone : ∀ m, v.held t m ≠ some .transferring
  notMem : x ∉ v.members
  empty : ∀ k, KVProvider.val (v.kv x) k = .newValue

/-- The joiner `x` holds `n`, whose true predecessor is `p`; `a` and `b` are the stores of the two
and `H` is what the keys of `n` hold. -/
structure Accepting (hash : Bytes → ℕ) (t : ℕ) (x n p : NodeId) (a b : K) (H : Bytes → KvValue)
    (v : View K) : Prop where
  joining : v.held t x = some .joining
  taken : v.held t n = some .transferring
  alone : ∀ m, v.held t m = some .transferring → m = n
  notMem : x ∉ v.members
  locked : (v.mutex n .surrogateMu).writer = some t
  pred : v.predecessor n = some p
  gap : Arc.Gap v.members p n
  noted : v.predecessor p ≠ none
  joinerKv : v.kv x = a
  nodeKv : v.kv n = b
  history : ∀ k, Arc.Ioc p n (hash k) → v.history k = H k

omit [LawfulProvider K hash] in
theorem stays_waiting (x : NodeId) : (growing K hash tasks n₀).Stays t (Waiting (K := K) t x) := by
  intro v v' h hv
  refine ⟨by rw [h.held, hv.joining], fun m => by rw [h.held]; exact hv.alone m,
    h.notMem hv.joining hv.notMem, fun k => ?_⟩
  rw [h.kv (by rw [hv.joining]; simp)]
  exact hv.empty k

omit [LawfulProvider K hash] in
theorem stays_accepting (x n p : NodeId) (a b : K) (H : Bytes → KvValue) :
    (growing K hash tasks n₀).Stays t (Accepting hash t x n p a b H) := by
  intro v v' h hv
  have hn : v.held t n ≠ none := by rw [hv.taken]; simp
  have hx : v.held t x ≠ none := by rw [hv.joining]; simp
  exact ⟨by rw [h.held, hv.joining], by rw [h.held, hv.taken],
    fun m hm => hv.alone m (by rwa [h.held] at hm), h.notMem hv.joining hv.notMem,
    (h.writer n _).2 hv.locked, h.settled hn hv.pred hv.gap, h.gap hn hv.gap, h.noted hv.noted,
    (h.kv hx).trans hv.joinerKv, (h.kv hn).trans hv.nodeKv,
    fun k hk => (h.history hn ⟨p, hv.gap, hk⟩).trans (hv.history k hk)⟩

omit [KVProvider K] [LawfulProvider K hash] in
theorem Accepting.ne {x p : NodeId} (h : Accepting hash t x n p a b H v) : x ≠ n := by
  rintro rfl
  have := h.joining.symm.trans h.taken
  cases this

omit [KVProvider K] [LawfulProvider K hash] in
theorem Accepting.setMutex {x p : NodeId} (h : Accepting hash t x n p a b H v) (m : RWMutex) :
    Accepting hash t x n p a b H (v.setMutex n .predecessorMu m) :=
  { h with locked := (congrArg RWMutex.writer (setMutex_mutex_ne (by simp))).trans h.locked }

/-- The stores before the transfer: the node has all keys. -/
structure Before (hash : Bytes → ℕ) (p n : NodeId) (a b : K) (H : Bytes → KvValue) : Prop where
  empty : ∀ k, KVProvider.val a k = .newValue
  own : ∀ k, Arc.Ioc p n (hash k) → KVProvider.val b k = H k
  rest : ∀ k, ¬ Arc.Ioc p n (hash k) → KVProvider.val b k = .newValue

/-- The stores after the transfer: joiner and node have the keys of the two parts. -/
structure HandedOver (hash : Bytes → ℕ) (p x n : NodeId) (a b : K) (H : Bytes → KvValue) :
    Prop where
  joiner : ∀ k, (Arc.Ioc p x (hash k) → KVProvider.val a k = H k) ∧
    (¬ Arc.Ioc p x (hash k) → KVProvider.val a k = .newValue)
  node : ∀ k, (Arc.Ioc x n (hash k) → KVProvider.val b k = H k) ∧
    (¬ Arc.Ioc x n (hash k) → KVProvider.val b k = .newValue)

omit [LawfulProvider K hash] in
theorem Before.parted {p x : NodeId} {a' b' : K} (h : Before hash p n a b H) (hin : Arc.Ioo p n x)
    (hp : Parted hash p x a b a' b') : HandedOver hash p x n a' b' H := by
  refine ⟨fun k => ⟨fun hpx => ?_, fun hpx => ?_⟩, fun k => ⟨fun hxn => ?_, fun hxn => ?_⟩⟩
  · have hown := h.own k ((Lib.Arc.ioc_split hin _).2 (.inl hpx))
    by_cases hv : KVProvider.val b k = .newValue
    · rw [hp.same k fun h' => h'.2 hv, h.empty, ← hown, hv]
    · rw [hp.sent k hpx hv, hown]
  · rw [hp.same k fun h' => hpx h'.1, h.empty]
  · have hpx : ¬ Arc.Ioc p x (hash k) := fun hpx => Lib.Arc.not_ioc_both hin hpx hxn
    rw [hp.kept k hpx]
    exact h.own k ((Lib.Arc.ioc_split hin _).2 (.inr hxn))
  · by_cases hpx : Arc.Ioc p x (hash k)
    · exact hp.gone k hpx
    · rw [hp.kept k hpx]
      exact h.rest k fun hpn => ((Lib.Arc.ioc_split hin _).1 hpn).elim hpx hxn

/-- Both mutexes of the node are locked as well. -/
def Transfers (hash : Bytes → ℕ) (t : ℕ) (x n p : NodeId) (a b : K) (H : Bytes → KvValue)
    (v : View K) : Prop :=
  Accepting hash t x n p a b H v ∧ (v.mutex n .predecessorMu).writer = some t

section Transfer

variable {x p : NodeId} {a b : K} {H : Bytes → KvValue}

omit [LawfulProvider K hash] in
theorem stays_transfers : (growing K hash tasks n₀).Stays t (Transfers hash t x n p a b H) :=
  (stays_accepting x n p a b H).and (stays_writer n _)

omit [LawfulProvider K hash] in
theorem moves_transfers :
    Moves (growing K hash tasks n₀) t n x fun a b => Transfers hash t x n p a b H where
  stays _ _ := stays_transfers
  stores h := ⟨h.1.joinerKv, h.1.nodeKv⟩
  accepts hh h := by
    rw [hh.state h.1.joining]
    rfl
  imports a' hi hh h := by
    have hj := h.1.joining
    refine ⟨hi.setKv (.inl ⟨h.1.notMem, hh.state hj⟩) _, .setKv (by rw [hj]; simp) _,
      { h.1 with joinerKv := by simp, nodeKv := ?_ }, h.2⟩
    simpa [h.1.ne.symm] using h.1.nodeKv
  removes b' hi _ h := by
    have hn := h.1.taken
    refine ⟨hi.setKv (.inr ⟨t, hn, h.1.locked⟩) _, .setKv (by rw [hn]; simp) _,
      { h.1 with joinerKv := ?_, nodeKv := by simp }, h.2⟩
    simpa [h.1.ne] using h.1.joinerKv

theorem triple_moveRange (h : Before hash p n a b H) (hin : Arc.Ioo p n x) :
    (growing K hash tasks n₀).Triple hash fuel t (Transfers hash t x n p a b H) (moveRange n x p x)
      fun res v => res = .ok () ∧ ∃ a' b', HandedOver hash p x n a' b' H ∧
        Transfers hash t x n p a' b' H v := by
  refine (moves_transfers.triple_moveRange a b fun k _ _ => h.empty k).post ?_
  rintro res s ⟨rfl, a', b', hparted, hv⟩
  exact ⟨rfl, a', b', h.parted hin hparted, hv⟩

end Transfer

/-- The joiner is a member with true predecessor `p`, which takes part in maintenance. -/
structure Admitted (t : ℕ) (x p : NodeId) (v : View K) : Prop where
  joining : v.held t x = some .joining
  gap : Arc.Gap v.members p x
  noted : v.predecessor p ≠ none

/-- The successor `n` of the joiner `x` is still held, and knows it. -/
structure Sponsored (t : ℕ) (x n : NodeId) (v : View K) : Prop where
  taken : v.held t n = some .transferring
  pred : v.predecessor n = some x
  gap : Arc.Gap v.members x n

section Phases

variable {x p : NodeId} {v : View K} (mu : Mutex)

omit [LawfulProvider K hash] in
theorem stays_admitted : (growing K hash tasks n₀).Stays t (Admitted (K := K) t x p) :=
  fun _ _ h hv => ⟨by rw [h.held, hv.joining], h.gap (by rw [hv.joining]; simp) hv.gap,
    h.noted hv.noted⟩

omit [LawfulProvider K hash] in
theorem stays_sponsored : (growing K hash tasks n₀).Stays t (Sponsored (K := K) t x n) := by
  intro v v' h hv
  have hn : v.held t n ≠ none := by rw [hv.taken]; simp
  exact ⟨by rw [h.held, hv.taken], h.settled hn hv.pred hv.gap, h.gap hn hv.gap⟩

def Joined (t : ℕ) (x n p : NodeId) (v : View K) : Prop := Admitted t x p v ∧ Sponsored t x n v

omit [LawfulProvider K hash] in
theorem stays_joined : (growing K hash tasks n₀).Stays t (Joined (K := K) t x n p) :=
  stays_admitted.and stays_sponsored

omit [KVProvider K] [LawfulProvider K hash] in
theorem Joined.ne (h : Joined t x n p v) : n ≠ x := by
  rintro rfl
  have := h.1.joining.symm.trans h.2.taken
  cases this

def RowsOf (hash : Bytes → ℕ) (p n : NodeId) (v : View K) : Prop :=
  ∀ k, (Arc.Ioc p n (hash k) → KVProvider.val (v.kv n) k = v.history k) ∧
    (¬ Arc.Ioc p n (hash k) → KVProvider.val (v.kv n) k = .newValue)

omit [LawfulProvider K hash] in
theorem RowsOf.rowOk (h : RowsOf hash p n v) (hg : Arc.Gap v.members p n) (k : Bytes) :
    v.RowOk hash n k := by
  simpa only [View.RowOk, owns_iff hg] using h k

omit [LawfulProvider K hash] in
theorem stays_rowsOf : (growing K hash tasks n₀).Stays t fun v : View K =>
    Joined t x n p v ∧ RowsOf hash x n v := by
  rintro v v' h ⟨hj, hr⟩
  have hn : v.held t n ≠ none := by rw [hj.2.taken]; simp
  refine ⟨stays_joined v v' h hj, fun k => ?_⟩
  rw [h.kv hn]
  exact ⟨fun hk => ((hr k).1 hk).trans (h.history hn ⟨x, hj.2.gap, hk⟩).symm, (hr k).2⟩

/-- What a reply to RequestToJoin says: an error leaves the joiner waiting; a success makes it a
member, with the successor that heads the reply held and no mutex locked. -/
def Replied (t : ℕ) (x : NodeId) : JoinReply → View K → Prop
  | .ok (p, succs), v => ∃ n, succs.head? = some n ∧ Joined t x n p v ∧
      (v.mutex n .surrogateMu).writer ≠ some t
  | .error _, v => Waiting t x v

omit [LawfulProvider K hash] in
theorem stays_unlocked (n : NodeId) (mu : Mutex) :
    (growing K hash tasks n₀).Stays t fun v : View K => (v.mutex n mu).writer ≠ some t :=
  fun _ _ h hv h' => hv ((h.writer n mu).1 h')

omit [LawfulProvider K hash] in
theorem stays_replied : ∀ res, (growing K hash tasks n₀).Stays t (Replied (K := K) t x res)
  | .ok _ => .ex fun n => (Stays.const _).and (stays_joined.and (stays_unlocked n _))
  | .error _ => stays_waiting x

omit [LawfulProvider K hash] in
theorem take_successor (hi : Sound hash n₀ v) (hh : HeldOk v) (hw : Waiting t x v)
    (hl : (v.mutex n .surrogateMu).writer = some t) (ha : v.state n = .active) :
    Sound hash n₀ (v.swap t n .transferring) ∧ Respects hash t v (v.swap t n .transferring) ∧
      ∃ p a b H, Before hash p n a b H ∧
        Accepting hash t x n p a b H (v.swap t n .transferring) := by
  have hm : n ∈ v.members := hi.running n (.inl ha)
  obtain ⟨p, hp, hg⟩ := hi.settled n hm (by simp [ha])
  have hxn : x ≠ n := by
    rintro rfl
    exact hh.not_active (by rw [hw.joining]; simp) ha
  have hmov : ¬ v.Moving n := by
    rintro (⟨hm', -⟩ | ⟨t', ht', -⟩)
    · exact hm' hm
    · exact hh.not_active (by rw [ht']; simp) ha
  have hrow : ∀ k, v.RowOk hash n k := hi.rows n hmov
  simp only [View.RowOk, owns_iff hg] at hrow
  refine ⟨hi.swap (fun _ => rfl) (fun _ => hm) (fun _ _ => ⟨p, hp, hg⟩) (by simp)
    fun _ => hi.rows n hmov, .swap fun _ => hl, p, v.kv x, v.kv n, v.history,
    ⟨hw.empty, fun k => (hrow k).1, fun k => (hrow k).2⟩, ?_⟩
  exact ⟨(swap_held_ne hxn t).trans hw.joining, swap_held_self rfl, fun m hm' => by
      by_contra hmn
      rw [swap_held_ne hmn] at hm'
      exact hw.alone m hm',
    hw.notMem, hl, hp, hg, hi.noted n p ha hp, rfl, rfl, fun _ _ => rfl⟩

omit [LawfulProvider K hash] in
theorem give_back (hi : Sound hash n₀ v) (hh : HeldOk v) (h : Before hash p n a b H)
    (hv : Accepting hash t x n p a b H v) :
    Sound hash n₀ (v.swap t n .active) ∧ Respects hash t v (v.swap t n .active) ∧
      Waiting t x (v.swap t n .active) := by
  have hrows : RowsOf hash p n v := fun k => by
    rw [hv.nodeKv]
    exact ⟨fun hk => (h.own k hk).trans (hv.history k hk).symm, h.rest k⟩
  refine ⟨hi.swap (fun _ => rfl) (fun _ => hv.gap.right) (fun _ _ => ⟨p, hv.pred, hv.gap⟩)
    (fun _ q hq => ?_) fun _ => hrows.rowOk hv.gap, .swap fun ha => ?_, ?_⟩
  · obtain rfl : p = q := by simpa [hv.pred] using hq
    exact hv.noted
  · exact absurd ha (hh.not_active (by rw [hv.taken]; simp))
  · refine ⟨(swap_held_ne hv.ne t).trans hv.joining, fun m hm => ?_, hv.notMem, fun k => ?_⟩
    · by_cases hmn : m = n
      · rw [hmn, swap_held_free rfl] at hm
        cases hm
      · rw [swap_held_ne hmn] at hm
        exact hmn (hv.alone m hm)
    · exact (congrArg (KVProvider.val · k) hv.joinerKv).trans (h.empty k)

def Checked (hash : Bytes → ℕ) (t : ℕ) (x n p : NodeId) (a b : K) (H : Bytes → KvValue) :
    JoinReply → View K → Prop
  | .ok (q, succs), v => (q = p ∧ succs.head? = some n ∧ Arc.Ioo p n x) ∧
      ∃ a' b', HandedOver hash p x n a' b' H ∧ Transfers hash t x n p a' b' H v
  | .error _, v => Transfers hash t x n p a b H v

omit [LawfulProvider K hash] in
theorem stays_checked {a b : K} {H : Bytes → KvValue} : ∀ res,
    (growing K hash tasks n₀).Stays t (Checked hash t x n p a b H res)
  | .ok _ => (Stays.const _).and (.ex fun _ => .ex fun _ => (Stays.const _).and stays_transfers)
  | .error _ => stays_transfers

theorem triple_acceptLocked (h : Before hash p n a b H) :
    (growing K hash tasks n₀).Triple hash fuel t (Transfers hash t x n p a b H) (acceptLocked n x)
      (Checked hash t x n p a b H) := by
  have hend : ∀ e, (growing K hash tasks n₀).Triple hash fuel t (Transfers hash t x n p a b H)
      (.ret (.error e)) (Checked hash t x n p a b H) :=
    fun _ => .ret stays_transfers.stable fun _ _ h => h
  refine .bind (triple_read (a := .readPredecessor n) rfl stays_transfers
    (Q := fun r v => (r = some p ∧ x ≠ n) ∧ Transfers hash t x n p a b H v)
    (fun _ => (Stays.const _).and stays_transfers) fun s l r s' _ _ hv _ he => ?_)
    fun (prev : Option NodeId) => .assume fun hprev => ?_
  · cases he
    exact ⟨⟨hv.1.pred, hv.1.ne⟩, hv⟩
  obtain ⟨rfl, hxn⟩ := hprev
  dsimp only
  split_ifs with hb
  swap
  · exact hend _
  have hin : Arc.Ioo p n x := between_eq_ioo.1 hb
  have hup : transferKeysUpward n (some p) x = moveRange n x p x := by
    simp [transferKeysUpward, hxn, hb]
  rw [hup]
  refine .bind (triple_moveRange h hin) fun res => .assume fun hres => ?_
  subst hres
  have hstays : (growing K hash tasks n₀).Stays t fun v : View K => ∃ a' b',
      HandedOver hash p x n a' b' H ∧ Transfers hash t x n p a' b' H v :=
    .ex fun _ => .ex fun _ => (Stays.const _).and stays_transfers
  refine .bind (triple_reading hstays (.perform rfl)) fun (_ : Unit) => ?_
  refine .bind (triple_reading hstays (only_getSuccessors isInert_reading n))
    fun (l : List NodeId) => ?_
  exact .ret (stays_checked (.ok _)).stable fun _ _ hv =>
    ⟨⟨rfl, makeSuccListByID_head n l _, hin⟩, hv⟩

def Decided (hash : Bytes → ℕ) (t : ℕ) (x n p : NodeId) : JoinReply → View K → Prop
  | .ok (q, succs), v => (q = p ∧ succs.head? = some n) ∧ Joined t x n p v ∧ RowsOf hash x n v
  | .error _, v => Waiting t x v

omit [LawfulProvider K hash] in
theorem stays_decided : ∀ res, (growing K hash tasks n₀).Stays t (Decided (K := K) hash t x n p res)
  | .ok _ => (Stays.const _).and stays_rowsOf
  | .error _ => stays_waiting x

omit [KVProvider K] [LawfulProvider K hash] in
theorem Decided.setMutex [KVProvider K] {mu : Mutex} {m : RWMutex} : ∀ {res : JoinReply},
    Decided hash t x n p res v → Decided hash t x n p res (v.setMutex n mu m)
  | .ok _, h => ⟨h.1, ⟨{ h.2.1.1 with }, { h.2.1.2 with }⟩, h.2.2⟩
  | .error _, h => { h with }

omit [LawfulProvider K hash] in
theorem accept_over (hi : Sound hash n₀ v) (hh : HeldOk v) (hin : Arc.Ioo p n x)
    (h : HandedOver hash p x n a b H) (hv : Transfers hash t x n p a b H v) : let v' := { v with
      predecessor := Function.update v.predecessor n (some x)
      members := insert x v.members }
    Sound hash n₀ v' ∧ Respects hash t v v' ∧ Joined t x n p v' ∧ RowsOf hash x n v' := by
  obtain ⟨hv, hlp⟩ := hv
  have hrows : RowsOf hash p x v := fun k => by
    rw [hv.joinerKv]
    refine ⟨fun hk => ((h.joiner k).1 hk).trans (hv.history k ?_).symm, (h.joiner k).2⟩
    exact (Lib.Arc.ioc_split hin _).2 (.inl hk)
  obtain ⟨h1, h2⟩ := hi.commitJoin hh hv.joining hv.notMem hv.taken hv.locked hlp hv.pred hv.gap
    hin hrows
  refine ⟨h1, h2, ⟨⟨hv.joining, hv.gap.insert_left hin, update_ne_none _ hv.noted⟩,
    ⟨hv.taken, by simp, hv.gap.insert_right hin⟩⟩, fun k => ?_⟩
  dsimp only
  rw [hv.nodeKv]
  refine ⟨fun hk => ((h.node k).1 hk).trans (hv.history k ?_).symm, (h.node k).2⟩
  exact (Lib.Arc.ioc_split hin _).2 (.inr hk)

omit [LawfulProvider K hash] in
theorem triple_settleJoin {a b : K} {H : Bytes → KvValue} (h : Before hash p n a b H)
    (rounds : ℕ) : ∀ res, (growing K hash tasks n₀).Triple hash fuel t
      (Checked hash t x n p a b H res) (settleJoin rounds n x res)
      fun _ v => Decided hash t x n p res v ∧
        (v.mutex n .surrogateMu).writer = some t ∧
        (v.mutex n .predecessorMu).writer = some t
  | .error e => by
    refine triple_setState (P := Transfers hash t x n p a b H)
      (Q := fun v => Waiting t x v ∧ (v.mutex n .surrogateMu).writer = some t ∧
        (v.mutex n .predecessorMu).writer = some t) stays_transfers
      ((stays_waiting x).and ((stays_writer n _).and (stays_writer n _)))
      (fun v hi hh hv => ?_) rounds
    obtain ⟨h1, h2, h3⟩ := give_back hi hh h hv.1
    exact ⟨h1, h2, h3, hv.1.locked, hv.2⟩
  | .ok (q, succs) => by
    refine .assume fun hq => .ex fun a' => .ex fun b' => .assume fun hover => ?_
    refine triple_step (a := .commitJoin n x) stays_transfers
      (Q := fun _ v => Decided hash t x n p (.ok (q, succs)) v ∧
        (v.mutex n .surrogateMu).writer = some t ∧ (v.mutex n .predecessorMu).writer = some t)
      (fun _ => (stays_decided _).and ((stays_writer n _).and (stays_writer n _)))
      fun s l r s' hi hk hv _ he => ?_
    rw [view_commitJoin he]
    obtain ⟨h1, h2, h3⟩ := accept_over hi (hk.heldOk ∅) hq.2.2 hover hv
    exact ⟨h1, h2, ⟨⟨hq.1, hq.2.1⟩, h3⟩, hv.1.locked, hv.2⟩

omit [LawfulProvider K hash] in
theorem triple_lock (n : NodeId) (hP : (growing K hash tasks n₀).Stays t P)
    (hm : ∀ v m, P v → P (v.setMutex n mu m)) :
    (growing K hash tasks n₀).Triple hash fuel t P (lock mu n)
      fun _ v => P v ∧ (v.mutex n mu).writer = some t := by
  refine triple_step (a := .lock mu n) hP (Q := fun _ v => P v ∧ (v.mutex n mu).writer = some t)
    (fun _ => hP.and (stays_writer n mu)) fun s l r s' hi _ hv _ he => ?_
  obtain ⟨hl, hview⟩ := view_lock he
  obtain ⟨h1, h2⟩ := hi.lock (t := t) hl
  rw [hview]
  exact ⟨h1, h2, hm _ _ hv, by rw [setMutex_mutex_self]⟩

omit [LawfulProvider K hash] in
theorem triple_unlock (n : NodeId) (hP : (growing K hash tasks n₀).Stays t P)
    (hm : ∀ v m, P v → P (v.setMutex n mu m))
    (hrows : ∀ v, P v → mu = .surrogateMu → v.held t n = some .transferring →
      ∀ k, v.RowOk hash n k) :
    (growing K hash tasks n₀).Triple hash fuel t (fun v => P v ∧ (v.mutex n mu).writer = some t)
      (unlock mu n) fun _ v => P v ∧ (v.mutex n mu).writer ≠ some t := by
  refine triple_step (a := .unlock mu n) (P := fun v => P v ∧ (v.mutex n mu).writer = some t)
    (hP.and (stays_writer n mu)) (Q := fun _ v => P v ∧ (v.mutex n mu).writer ≠ some t)
    (fun _ => hP.and (stays_unlocked n mu)) fun s l r s' hi _ hv _ he => ?_
  obtain ⟨h1, h2⟩ := hi.unlock hv.2 (hrows _ hv.1)
  rw [view_unlock he]
  exact ⟨h1, h2, hm _ _ hv.1, by simp [RWMutex.unlocked]⟩

omit [LawfulProvider K hash] in
theorem Decided.rows : ∀ {res : JoinReply}, Decided hash t x n p res v →
    v.held t n = some .transferring → ∀ k, v.RowOk hash n k
  | .ok _, h, _ => h.2.2.rowOk h.2.1.2.gap
  | .error _, h, hn => absurd hn (h.alone n)

theorem triple_acceptJoiner (rounds : ℕ) (n x : NodeId) :
    (growing K hash tasks n₀).Triple hash fuel t (Waiting t x) (acceptJoiner rounds n x)
      (Replied t x) := by
  refine .bind (triple_lock .surrogateMu n (stays_waiting x) fun _ _ h => { h with })
    fun (_ : Unit) => ?_
  refine .bind (triple_transition
    (P := fun v => Waiting t x v ∧ (v.mutex n .surrogateMu).writer = some t)
    (Q := fun v => ∃ p a b H, Before hash p n a b H ∧ Accepting hash t x n p a b H v)
    ((stays_waiting x).and (stays_writer n _))
    (.ex fun p => .ex fun a => .ex fun b => .ex fun H =>
      (Stays.const _).and (stays_accepting x n p a b H))
    fun v hi hh hv ha => take_successor hi hh hv.1 hv.2 ha) fun b => ?_
  cases b with
  | false =>
    refine .bind (triple_unlock .surrogateMu n (stays_waiting x) (fun _ _ h => { h with })
      fun v hv _ hn => absurd hn (hv.alone n)) fun (_ : Unit) => ?_
    exact .ret (stays_waiting x).stable fun _ _ h => h.1
  | true =>
    refine .ex fun p => .ex fun a => .ex fun b => .ex fun H => .assume fun hbefore => ?_
    refine .bind (triple_lock .predecessorMu n (stays_accepting x n p a b H)
      fun _ m h => h.setMutex m) fun (_ : Unit) => ?_
    refine .bind (triple_acceptLocked hbefore) fun res => ?_
    refine .bind (triple_settleJoin hbefore rounds res) fun (_ : Unit) => ?_
    refine .bind (.pre (triple_unlock .predecessorMu n
      (P := fun v => Decided hash t x n p res v ∧ (v.mutex n .surrogateMu).writer = some t)
      ((stays_decided res).and (stays_writer n _)) (fun v m h => ⟨h.1.setMutex,
        (congrArg RWMutex.writer (setMutex_mutex_ne (by simp))).trans h.2⟩)
      fun _ _ h => nomatch h) fun _ _ h => ⟨⟨h.1, h.2.1⟩, h.2.2⟩) fun (_ : Unit) => ?_
    refine .bind (.pre (triple_unlock .surrogateMu n (stays_decided res)
      (fun _ _ h => h.setMutex) fun _ h _ => h.rows) fun _ _ h => h.1) fun (_ : Unit) => ?_
    refine .ret (stays_replied res).stable fun s _ h => ?_
    rcases res with e | ⟨q, succs⟩
    · exact h.1
    · obtain ⟨⟨⟨rfl, hhead⟩, hjoined, -⟩, hun⟩ := h
      exact ⟨n, hhead, hjoined, hun⟩

theorem triple_requestToJoin (rounds : ℕ) (x : NodeId) : ∀ hops n,
    (growing K hash tasks n₀).Triple hash fuel t (Waiting t x) (requestToJoin rounds hops n x)
      (Replied t x)
  | 0, _ => triple_halt
  | hops + 1, n => by
    refine .bind (triple_reading (stays_waiting x) (only_findSuccessor isInert_reading rounds n x))
      fun res => ?_
    split
    · exact .ret (stays_waiting x).stable fun _ _ h => h
    split_ifs
    · exact .ret (stays_waiting x).stable fun _ _ h => h
    · exact triple_requestToJoin rounds x hops _
    · exact triple_acceptJoiner rounds n x

end Phases

end Programs

end Specter
