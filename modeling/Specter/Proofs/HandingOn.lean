import Specter.Proofs.Leaving

/-!
# A node that leaves hands its keys to their next owner

The joins and the Leave under the rules of `Proofs.Leaving`.  The joiner moves keys while it holds
its successor (`Granting`), the leaving node while it holds its own and its successor's lock
(`Handing`).
-/

namespace Specter

open Lib (Prog Rules Arc.Ioo Arc.Ioc Arc.Gap)
open Contract

section Programs

variable {K : Type} [KVProvider K] {hash : Bytes → ℕ} {tasks : List Task} {M₀ : Set NodeId}
  {n m x p : NodeId} {fuel t : ℕ} {v : View K} {τ : Task} {l : Fault} (rounds : ℕ)

section Join

variable {q : NodeId}

/-- The joiner holds its own node, which stores nothing. -/
structure Applying (t : ℕ) (x : NodeId) (v : View K) : Prop where
  joining : v.held t x = some .joining
  notMem : x ∉ v.members
  empty : ∀ k, KVProvider.val (v.kv x) k = .newValue

/-- The joiner `x` holds `m`, before which `p` is the last member; `a` and `b` are the stores of
the two. -/
structure Granting (t : ℕ) (x m p : NodeId) (a b : K) (v : View K) : Prop where
  joining : v.held t x = some .joining
  taken : v.held t m = some .transferring
  notMem : x ∉ v.members
  gap : Arc.Gap v.members p m
  joinerKv : v.kv x = a
  nodeKv : v.kv m = b

/-- The stores when the node is taken: the joiner has none of the keys. -/
structure Stocked (hash : Bytes → ℕ) (p m : NodeId) (a b : K) : Prop where
  empty : ∀ k, KVProvider.val a k = .newValue
  own : ∀ k, KVProvider.val b k ≠ .newValue → Arc.Ioc p m (hash k)

theorem firm_applying : Firm (departing K hash tasks M₀ n) t (Applying (K := K) t x) where
  stays v v' h hv := by
    refine ⟨by rw [h.held, hv.joining], h.keeps_notMem hv.joining hv.notMem, fun k => ?_⟩
    rw [h.keeps_kv (by rw [hv.joining]; simp)]
    exact hv.empty k
  blind _ _ _ _ h := { h with }

theorem firm_granting (a b : K) :
    Firm (departing K hash tasks M₀ n) t (Granting t x m p a b) where
  stays v v' h hv := by
    have hx : v.held t x ≠ none := by rw [hv.joining]; simp
    have hm : v.held t m ≠ none := by rw [hv.taken]; simp
    exact ⟨by rw [h.held, hv.joining], by rw [h.held, hv.taken],
      h.keeps_notMem hv.joining hv.notMem, h.keeps_gap hm hv.gap,
      (h.keeps_kv hx).trans hv.joinerKv, (h.keeps_kv hm).trans hv.nodeKv⟩
  blind _ _ _ _ h := { h with }

omit [KVProvider K] in
theorem Granting.ne {a b : K} (h : Granting t x m p a b v) : x ≠ m := by
  rintro rfl
  have := h.joining.symm.trans h.taken
  cases this

/-- The store of a node that is neither Active nor Inactive may change. -/
theorem Orderly.setKv (h : Orderly hash v) (hm : v.state m ≠ .active ∧ v.state m ≠ .inactive)
    (a : K) : Orderly hash { v with kv := Function.update v.kv m a } :=
  { h with
    rows := fun m' hm' => by
      have hne : m' ≠ m := by
        rintro rfl
        exact hm'.elim hm.1 hm.2
      unfold View.InRange
      simp only [Function.update_of_ne hne]
      exact h.rows m' hm' }

theorem Yields.setKv (hm : v.held t m ≠ none) (a : K) :
    Yields hash n t v { v with kv := Function.update v.kv m a } :=
  { Yields.refl hash n t v with
    kv := fun m' h => by
      by_cases hne : m' = m
      · rwa [hne]
      · exact absurd (Function.update_of_ne hne _ _) h
    handed := fun h h' => absurd h' h }

theorem moves_granting (p : NodeId) :
    Moves (departing K hash tasks M₀ n) t m x fun a b => Granting (K := K) t x m p a b where
  stays a b := (firm_granting a b).stays
  stores h := ⟨h.joinerKv, h.nodeKv⟩
  accepts hh h := by
    rw [hh.state h.joining]
    rfl
  imports a' hi hh h := by
    have hst := hh.state h.joining
    refine ⟨hi.setKv (by rw [hst]; exact ⟨nofun, nofun⟩) _, .setKv (by rw [h.joining]; simp) _,
      { h with joinerKv := by simp, nodeKv := ?_ }⟩
    simpa [h.ne.symm] using h.nodeKv
  removes b' hi hh h := by
    have hst := hh.state h.taken
    refine ⟨hi.setKv (by rw [hst]; exact ⟨nofun, nofun⟩) _, .setKv (by rw [h.taken]; simp) _,
      { h with joinerKv := ?_, nodeKv := by simp }⟩
    simpa [h.ne] using h.joinerKv

/-- What the part of RequestToJoin under the locks ends with: keys from `q` to the joiner have
moved. -/
def Granted (hash : Bytes → ℕ) (t : ℕ) (x m p : NodeId) (a b : K) : JoinReply → View K → Prop
  | .ok (q, succs), v => succs.head? = some m ∧ q ∈ v.members ∧
      ∃ a' b', Parted hash q x a b a' b' ∧ Granting t x m p a' b' v
  | .error _, v => Granting t x m p a b v

theorem stays_granted {a b : K} : ∀ res,
    (departing K hash tasks M₀ n).Stays t (Granted hash t x m p a b res)
  | .ok (q, _) => (Stays.const _).and ((firm_mem q).stays.and
      (.ex fun _ => .ex fun _ => (Stays.const _).and (firm_granting _ _).stays))
  | .error _ => (firm_granting a b).stays

theorem triple_accept_locked [LawfulProvider K hash] {a b : K} (h : Stocked hash p m a b) :
    (departing K hash tasks M₀ n).Triple hash fuel t (Granting t x m p a b) (acceptLocked m x)
      (Granted hash t x m p a b) := by
  have hgranting : Firm (departing K hash tasks M₀ n) t (Granting t x m p a b) :=
    firm_granting a b
  have hend : ∀ e, (departing K hash tasks M₀ n).Triple hash fuel t (Granting t x m p a b)
      (.ret (.error e)) (Granted hash t x m p a b) :=
    fun _ => .ret hgranting.stays.stable fun _ _ h => h
  refine .bind (triple_read (a := .readPredecessor m) rfl hgranting.stays
    (Q := fun r v => x ≠ m ∧ (∀ q, r = some q → q ∈ v.members) ∧ Granting t x m p a b v)
    (fun _ => (Stays.const _).and (Stays.and (fun _ _ h hv q hq => h.keeps_members (hv q hq))
      hgranting.stays)) fun s l r s' hi _ hv _ he => ?_)
    fun (prev : Option NodeId) => .assume fun hxm => ?_
  · cases he
    exact ⟨hv.ne, hi.preds m, hv⟩
  split
  · exact .pre (hend _) fun _ _ h => h.2
  next q =>
  split_ifs with hb
  swap
  · exact .pre (hend _) fun _ _ h => h.2
  have hup : transferKeysUpward m (some q) x = moveRange m x q x := by
    simp [transferKeysUpward, hxm, hb]
  rw [hup]
  refine .pre (P := fun s => q ∈ (view M₀ s).members ∧ Granting t x m p a b (view M₀ s)) ?_
    fun _ _ h => ⟨h.1 q rfl, h.2⟩
  refine .bind (((moves_granting p).triple_moveRange a b fun k _ _ => h.empty k).frame
    (keeps_mem q)) fun res => ?_
  refine .pre (P := fun s => res = .ok () ∧ q ∈ (view M₀ s).members ∧
    ∃ a' b', Parted hash q x a b a' b' ∧ Granting t x m p a' b' (view M₀ s)) ?_
    fun _ _ h => ⟨h.2.1, h.1, h.2.2⟩
  refine .assume fun hres => ?_
  subst hres
  have hstays : (departing K hash tasks M₀ n).Stays t fun v : View K => q ∈ v.members ∧
      ∃ a' b', Parted hash q x a b a' b' ∧ Granting t x m p a' b' v :=
    (firm_mem q).stays.and (.ex fun _ => .ex fun _ => (Stays.const _).and
      (firm_granting _ _).stays)
  refine .bind (triple_reading hstays (.perform rfl)) fun (_ : Unit) => ?_
  refine .bind (triple_reading hstays (only_getSuccessors isInert_reading m))
    fun (l : List NodeId) => ?_
  exact .ret (stays_granted (.ok _)).stable fun _ _ hv => ⟨makeSuccListByID_head m l _, hv⟩

/-- The joiner is a member, and both nodes are in order. -/
structure Seated (hash : Bytes → ℕ) (t : ℕ) (x m q : NodeId) (v : View K) : Prop where
  joiner : Retains hash t x .joining v
  node : Retains hash t m .transferring v
  mem : x ∈ v.members
  sponsor : q ∈ v.members

theorem firm_seated : Firm (departing K hash tasks M₀ n) t (Seated (K := K) hash t x m q) where
  stays v v' h hv := ⟨firm_kept.stays v v' h hv.joiner, firm_kept.stays v v' h hv.node,
    h.keeps_members hv.mem, h.keeps_members hv.sponsor⟩
  blind _ _ _ _ hv := ⟨{ hv.joiner with }, { hv.node with }, hv.mem, hv.sponsor⟩

/-- What is known while RequestToJoin unlocks, and when it returns. -/
def Answered (hash : Bytes → ℕ) (t : ℕ) (x : NodeId) : JoinReply → View K → Prop
  | .ok (q, succs), v => ∃ m, succs.head? = some m ∧ Seated hash t x m q v
  | .error _, v => Applying t x v

theorem firm_answered : ∀ res,
    Firm (departing K hash tasks M₀ n) t (Answered (K := K) hash t x res)
  | .ok _ => .ex fun _ => (Firm.const _).and firm_seated
  | .error _ => firm_applying

theorem Granting.accept {a b a' b' : K} (hi : Orderly hash v) (hh : HeldOk v)
    (hs : Stocked hash p m a b) (hp : Parted hash q x a b a' b') (hq : q ∈ v.members)
    (hv : Granting t x m p a' b' v) (hgap : Arc.Gap (insert x v.members) x m) : let v' := { v with
      predecessor := Function.update v.predecessor m (some x)
      members := insert x v.members }
    Orderly hash v' ∧ Yields hash n t v v' ∧ Seated hash t x m q v' := by
  have hin : Arc.Ioo p m x := hv.gap.ioo_of_insert hgap hv.notMem
  have hsplit : ∀ k, KVProvider.val b k ≠ .newValue →
      (Arc.Ioc q x (hash k) → Arc.Ioc p x (hash k)) ∧
      (¬ Arc.Ioc q x (hash k) → Arc.Ioc x m (hash k)) := fun k hk =>
    Lib.Arc.ioc_from_outside hin (hv.gap.empty q hq) (hs.own k hk)
  refine ⟨⟨hi.finite.insert x, fun m' hm' => .inr (hi.running m' hm'), ?_, ?_, ?_⟩,
    ⟨Set.subset_insert x _, ?_, ?_, fun _ h => absurd rfl h, fun _ h => absurd rfl h, fun h => h,
      fun h h' => absurd h' h⟩, ⟨⟨hv.joining, ?_⟩, ⟨hv.taken, ?_⟩, .inl rfl, .inr hq⟩⟩
  · rintro m' (rfl | hm')
    · exact (hh.state hv.joining).symm ▸ nofun
    · exact hi.started m' hm'
  · intro m' c hc
    by_cases hmm : m' = m
    · rw [hmm] at hc
      simp only [Function.update_self, Option.some.injEq] at hc
      exact .inl hc.symm
    · simp only [Function.update_of_ne hmm] at hc
      exact .inr (hi.preds m' c hc)
  · intro m' hm' k hk
    have hmx : m' ≠ x := by
      rintro rfl
      rw [hh.state hv.joining] at hm'
      simp at hm'
    have hmm : m' ≠ m := by
      rintro rfl
      rw [hh.state hv.taken] at hm'
      simp at hm'
    exact (owns_insert_of_ne hv.gap hin hmx hmm).2 (hi.rows m' hm' k hk)
  · rintro y (rfl | hy) hy'
    · exact hv.joining
    · exact absurd hy hy'
  · intro m' p' hg
    by_cases hmm : m' = m
    · exact .inr (hmm ▸ hv.taken)
    · exact .inl (hv.gap.insert_of_ne hin hg hmm)
  · intro k hk
    change KVProvider.val (v.kv x) k ≠ .newValue at hk
    rw [hv.joinerKv] at hk
    have hmoved : Arc.Ioc q x (hash k) ∧ KVProvider.val b k ≠ .newValue := by
      by_contra hno
      exact hk ((hp.same k hno).trans (hs.empty k))
    exact (owns_insert_left hv.gap hin).2 ((hsplit k hmoved.2).1 hmoved.1)
  · intro k hk
    change KVProvider.val (v.kv m) k ≠ .newValue at hk
    rw [hv.nodeKv] at hk
    have hstays : ¬ Arc.Ioc q x (hash k) := fun hqx => hk (hp.gone k hqx)
    rw [hp.kept k hstays] at hk
    exact (owns_insert_right hv.gap hin).2 ((hsplit k hk).2 hstays)

theorem Granting.refuse {a b : K} (hi : Orderly hash v) (hh : HeldOk v)
    (hs : Stocked hash p m a b) (hv : Granting t x m p a b v) :
    Orderly hash (v.swap t m .active) ∧ Yields hash n t v (v.swap t m .active) ∧
      Applying t x (v.swap t m .active) := by
  have hkept : Retains hash t m .transferring v := ⟨hv.taken, fun k hk => by
    rw [hv.nodeKv] at hk
    exact ⟨p, hv.gap, hs.own k hk⟩⟩
  obtain ⟨h1, h2⟩ := hkept.give (n := n) hi hh hv.gap.right
  refine ⟨h1, h2, (swap_held_ne hv.ne t).trans hv.joining, hv.notMem, fun k => ?_⟩
  exact (congrArg (KVProvider.val · k) hv.joinerKv).trans (hs.empty k)

theorem triple_settle_join {a b : K} (h : Stocked hash p m a b) (rounds : ℕ) : ∀ res,
    (departing K hash tasks M₀ n).Triple hash fuel t (Granted hash t x m p a b res)
      (settleJoin rounds m x res) fun _ => Answered hash t x res
  | .error e => by
    refine triple_setState (P := Granting t x m p a b) (Q := Applying t x)
      (firm_granting a b).stays firm_applying.stays (fun _ hi hh hv => ?_) rounds
    exact hv.refuse hi hh h
  | .ok (q, succs) => by
    refine .assume fun hhead => ?_
    refine triple_step (a := .commitJoin m x)
      (P := fun v => q ∈ v.members ∧
        ∃ a' b', Parted hash q x a b a' b' ∧ Granting t x m p a' b' v)
      (Q := fun _ v => Answered hash t x (.ok (q, succs)) v)
      ((firm_mem q).stays.and (.ex fun _ => .ex fun _ => (Stays.const _).and
        (firm_granting _ _).stays)) (fun _ => (firm_answered _).stays)
      fun s l r s' hi hk hv _ he => ?_
    obtain ⟨hq, a', b', hparted, hv⟩ := hv
    have hview := view_commitJoin (M := M₀) (l := l) (t := t) he
    have hgap : Arc.Gap (view M₀ s').members x m := by
      cases he
      exact hk.known.1.1
    rw [hview] at hgap ⊢
    obtain ⟨h1, h2, h3⟩ := hv.accept hi (hk.heldOk M₀) h hparted hq hgap
    exact ⟨h1, h2, m, hhead, h3⟩

theorem triple_accept_joiner [LawfulProvider K hash] (m x : NodeId) :
    (departing K hash tasks M₀ n).Triple hash fuel t (Applying t x) (acceptJoiner rounds m x)
      (Answered hash t x) := by
  have happlying : Firm (departing K hash tasks M₀ n) t (Applying (K := K) t x) := firm_applying
  refine .bind (happlying.triple_lock .surrogateMu m) fun (_ : Unit) => ?_
  refine .bind (triple_transition (P := Applying t x)
    (Q := fun v => ∃ p a b, Stocked hash p m a b ∧ Granting t x m p a b v) happlying.stays
    (.ex fun _ => .ex fun _ => .ex fun _ => (Stays.const _).and (firm_granting _ _).stays)
    fun v hi hh hv ha => ?_) fun b => ?_
  · obtain ⟨h1, h2, h3⟩ := hi.take (t := t) (n := n) ha (.inl rfl)
    obtain ⟨p, hg⟩ := Lib.Arc.exists_gap_of_mem hi.finite (hi.running m (.inl ha))
    have hxm : x ≠ m := by
      rintro rfl
      exact hh.not_active (by rw [hv.joining]; simp) ha
    exact ⟨h1, h2, p, v.kv x, v.kv m, ⟨hv.empty, fun k hk => (owns_iff hg).1 (h3.rows k hk)⟩,
      (swap_held_ne hxm t).trans hv.joining, h3.held, hv.notMem, hg, rfl, rfl⟩
  cases b with
  | false =>
    exact .bind (happlying.triple_unlock .surrogateMu m) fun (_ : Unit) =>
      .ret happlying.stays.stable fun _ _ h => h
  | true =>
    refine .ex fun p => .ex fun a => .ex fun b => .assume fun hstocked => ?_
    refine .bind ((firm_granting a b).triple_lock .predecessorMu m) fun (_ : Unit) => ?_
    refine .bind (triple_accept_locked hstocked) fun res => ?_
    refine .bind (triple_settle_join hstocked rounds res) fun (_ : Unit) => ?_
    refine .bind ((firm_answered res).triple_unlock .predecessorMu m) fun (_ : Unit) => ?_
    refine .bind ((firm_answered res).triple_unlock .surrogateMu m) fun (_ : Unit) => ?_
    exact .ret (firm_answered res).stays.stable fun _ _ h => h

theorem triple_request_to_join [LawfulProvider K hash] (rounds : ℕ) (x : NodeId) : ∀ hops m,
    (departing K hash tasks M₀ n).Triple hash fuel t (Applying t x) (requestToJoin rounds hops m x)
      (Answered hash t x)
  | 0, _ => triple_halt
  | hops + 1, m => by
    have happlying : Firm (departing K hash tasks M₀ n) t (Applying (K := K) t x) :=
      firm_applying
    refine .bind (triple_reading happlying.stays
      (only_findSuccessor isInert_reading rounds m x)) fun res => ?_
    split
    · exact .ret happlying.stays.stable fun _ _ h => h
    split_ifs
    · exact .ret happlying.stays.stable fun _ _ h => h
    · exact triple_request_to_join rounds x hops _
    · exact triple_accept_joiner rounds m x

theorem Orderly.apply (hi : Orderly hash v) (hst : v.state x = .inactive) :
    Orderly hash (v.swap t x .joining) ∧ Yields hash n t v (v.swap t x .joining) ∧
      Applying t x (v.swap t x .joining) := by
  have hx : x ∉ v.members := fun hx => hi.started x hx hst
  refine ⟨hi.swap (by simp) (fun _ => nofun) (by simp), .swap (by rw [hst]; nofun) nofun,
    swap_held_self rfl, hx, fun k => ?_⟩
  by_contra hk
  exact hx (hi.rows x (.inr hst) k hk).mem

theorem Applying.withdraw (hi : Orderly hash v) (hh : HeldOk v) (hv : Applying t x v) :
    Orderly hash (v.swap t x .inactive) ∧ Yields hash n t v (v.swap t x .inactive) := by
  refine ⟨hi.swap (by simp) (fun hx => absurd hx hv.notMem)
    fun _ k hk => absurd (hv.empty k) hk, .swap ?_ nofun⟩
  rw [hh.state hv.joining]
  nofun

theorem triple_release (site : Site) (hs : site ≠ .create) (err : ChordError) (m : NodeId) :
    (departing K hash tasks M₀ n).Triple hash fuel t (Retains hash t m .transferring)
      (releaseLock site err m) fun _ _ => True := by
  refine .bind (triple_transition (Q := fun _ => True) firm_kept.stays (Stays.const _)
    fun v hi hh hv hst => ?_) fun b => ?_
  · obtain ⟨h1, h2⟩ := hv.give (n := n) hi hh (hi.running m (.inr (.inl hst)))
    rw [swapped, if_neg hs]
    exact ⟨h1, h2, trivial⟩
  · split_ifs <;> exact .ret (.const _) fun _ _ _ => trivial

theorem triple_seated {succs : List NodeId} (hhead : succs.head? = some m) :
    (departing K hash tasks M₀ n).Triple hash fuel t (Seated hash t x m q) (do
        setSuccessors x succs
        setPredecessor x (some q)
        startTasks rounds x
        let _ ← finishJoin rounds q true false
        setState rounds x .active .join
        match succs with
        | [] => return (.ok () : Except ChordError Unit)
        | succ :: _ =>
          let _ ← finishJoin rounds succ false true
          return .ok ()) fun _ _ => True := by
  have hseated : Firm (departing K hash tasks M₀ n) t (Seated (K := K) hash t x m q) := firm_seated
  refine .bind (.keeps hseated.stays.stable (hseated.keeps_setSuccessors x succs))
    fun (_ : Unit) => ?_
  refine .bind (.keeps hseated.stays.stable (hseated.keeps_setPredecessor (fun v hv c hc => ?_) x))
    fun (_ : Unit) => ?_
  · rw [← Option.some.inj hc]
    exact hv.sponsor
  refine .bind (hseated.triple_startTasks (fun _ hv => hv.mem) rounds) fun (_ : Unit) => ?_
  refine .bind (Q := fun _ s => Seated hash t x m q (view M₀ s))
    (.bind (hseated.triple_updatePointers (fun _ hv => hv.sponsor) rounds)
      fun (_ : Unit) => .same hseated.stays.stable)
    fun (_ : Except ChordError Unit) => ?_
  refine .bind (triple_setState (Q := Retains hash t m .transferring) hseated.stays firm_kept.stays
    (fun v hi hh hv => ?_) rounds) fun (_ : Unit) => ?_
  · obtain ⟨h1, h2⟩ := hv.joiner.give (n := n) hi hh hv.mem
    have hmx : m ≠ x := by
      rintro rfl
      have := hv.joiner.held.symm.trans hv.node.held
      cases this
    exact ⟨h1, h2, (swap_held_ne hmx t).trans hv.node.held, hv.node.rows⟩
  split
  · simp at hhead
  · obtain rfl : _ = m := by simpa using hhead
    exact .bind (triple_release .finishJoin nofun _ _) fun _ => .ret (.const _) fun _ _ _ => trivial

theorem triple_join_beside [LawfulProvider K hash] (x peer : NodeId) :
    (departing K hash tasks M₀ n).Triple hash fuel t (fun _ => True) (join rounds x peer)
      fun _ _ => True := by
  have happlying : Firm (departing K hash tasks M₀ n) t (Applying (K := K) t x) := firm_applying
  have hret : ∀ res : Except ChordError Unit, (departing K hash tasks M₀ n).Triple hash fuel t
      (fun _ => True) (.ret res) fun _ _ => True := fun _ => .ret (.const _) fun _ _ _ => trivial
  refine .bind (triple_transition (P := fun _ => True) (Q := Applying t x) (Stays.const _)
    happlying.stays fun v hi _ _ hst => hi.apply hst) fun b => ?_
  cases b with
  | false => exact hret _
  | true =>
    have hattempts : (departing K hash tasks M₀ n).Triple hash fuel t (Applying t x)
        (retry errorIsRetryable (requestToJoin rounds rounds peer x) (maxAttempts - 1))
        (Answered hash t x) := by
      refine (triple_retry (Q := fun y s => Answered hash t x (.ok y) (view M₀ s))
        happlying.stays.stable (fun y => (firm_answered (.ok y)).stays.stable)
        ((triple_request_to_join rounds x rounds peer).post ?_) _).post ?_
      all_goals
        rintro (e | y) s h <;> exact h
    refine .bind hattempts fun res => ?_
    rcases res with e | ⟨q, succs⟩
    · refine .bind (triple_setState (P := Applying t x) happlying.stays (Q := fun _ => True)
        (Stays.const _) (fun v hi hh hv => ?_) rounds) fun (_ : Unit) => hret _
      obtain ⟨h1, h2⟩ := hv.withdraw (n := n) hi hh
      exact ⟨h1, h2, trivial⟩
    · exact .ex fun m => .assume fun hhead => triple_seated rounds hhead

end Join

section Leave

/-- The leaving node has stored the same since it stopped being Active. -/
structure Halted (hash : Bytes → ℕ) (t : ℕ) (n : NodeId) (v : View K) : Prop where
  kept : Retains hash t n .leaving v
  stop : v.atStop n = v.kv n

/-- The leaving node `n`, before which `p` is the last member, holds its next member `m`; `d` is
what `n` stored when it stopped being Active, `a` and `b` are the stores of `m` and `n`. -/
structure Handing (t : ℕ) (n m p : NodeId) (d a b : K) (v : View K) : Prop where
  leaving : v.held t n = some .leaving
  taken : v.held t m = some .transferring
  next : Arc.Gap v.members n m
  gap : Arc.Gap v.members p n
  stop : v.atStop n = d
  nextKv : v.kv m = a
  nodeKv : v.kv n = b

/-- The keys of the leaving node are its own, and none of them is at its next member. -/
structure Deed (hash : Bytes → ℕ) (p n : NodeId) (a b : K) : Prop where
  own : ∀ k, KVProvider.val b k ≠ .newValue → Arc.Ioc p n (hash k)
  free : ∀ k, KVProvider.val b k ≠ .newValue → KVProvider.val a k = .newValue

/-- The next member, which stores `a`, has all that was in `d`. -/
def Passed (hash : Bytes → ℕ) (p n : NodeId) (d a : K) : Prop :=
  ∀ k, KVProvider.val d k ≠ .newValue →
    Arc.Ioc p n (hash k) ∧ KVProvider.val a k = KVProvider.val d k

theorem firm_halted : Firm (departing K hash tasks M₀ n) t (Halted (K := K) hash t n) where
  stays v v' h hv := by
    have hn : v.held t n ≠ none := by rw [hv.kept.held]; simp
    exact ⟨firm_kept.stays v v' h hv.kept,
      (h.keeps_atStop hn).trans (hv.stop.trans (h.keeps_kv hn).symm)⟩
  blind _ _ _ _ h := ⟨{ h.kept with }, h.stop⟩

theorem firm_handing (d a b : K) :
    Firm (departing K hash tasks M₀ n) t (Handing t n m p d a b) where
  stays v v' h hv := by
    have hn : v.held t n ≠ none := by rw [hv.leaving]; simp
    have hm : v.held t m ≠ none := by rw [hv.taken]; simp
    exact ⟨by rw [h.held, hv.leaving], by rw [h.held, hv.taken], h.keeps_gap hm hv.next,
      h.keeps_gap hn hv.gap, (h.keeps_atStop hn).trans hv.stop, (h.keeps_kv hm).trans hv.nextKv,
      (h.keeps_kv hn).trans hv.nodeKv⟩
  blind _ _ _ _ h := { h with }

omit [KVProvider K] in
theorem Handing.ne {d a b : K} (h : Handing t n m p d a b v) : m ≠ n := by
  rintro rfl
  have := h.leaving.symm.trans h.taken
  cases this

theorem moves_handing (d : K) :
    Moves (departing K hash tasks M₀ n) t n m fun a b => Handing t n m p d a b where
  stays a b := (firm_handing d a b).stays
  stores h := ⟨h.nextKv, h.nodeKv⟩
  accepts hh h := by
    rw [hh.state h.taken]
    rfl
  imports a' hi hh h := by
    have hst := hh.state h.taken
    refine ⟨hi.setKv (by rw [hst]; exact ⟨nofun, nofun⟩) _, .setKv (by rw [h.taken]; simp) _,
      { h with nextKv := by simp, nodeKv := ?_ }⟩
    simpa [h.ne.symm] using h.nodeKv
  removes b' hi hh h := by
    have hst := hh.state h.leaving
    refine ⟨hi.setKv (by rw [hst]; exact ⟨nofun, nofun⟩) _, .setKv (by rw [h.leaving]; simp) _,
      { h with nextKv := ?_, nodeKv := by simp }⟩
    simpa [h.ne] using h.nextKv

theorem Halted.handing (hi : Orderly hash v) (hn : Halted hash t n v)
    (hm : Retains hash t m .transferring v) (hgap : Arc.Gap v.members n m) :
    ∃ p a b, Deed hash p n a b ∧ Handing t n m p b a b v := by
  obtain ⟨p, hp⟩ := Lib.Arc.exists_gap_of_mem hi.finite hgap.left
  have hhanding : Handing t n m p (v.kv n) (v.kv m) (v.kv n) v :=
    ⟨hn.kept.held, hm.held, hgap, hp, hn.stop, rfl, rfl⟩
  refine ⟨p, v.kv m, v.kv n, ⟨fun k hk => (owns_iff hp).1 (hn.kept.rows k hk), fun k hk => ?_⟩,
    hhanding⟩
  by_contra hk'
  exact hhanding.ne ((hm.rows k hk').unique (hn.kept.rows k hk))

omit [KVProvider K] in
theorem AllPlaced.gap_of_swapped {s s' : Shared K} {how : How} {site : Site} {a : NodeId}
    {old new : State} (h : AllPlaced M₀ n s'.trace)
    (htrace : s'.trace = .swapped t a how site old new :: s.trace)
    (hn : (view M₀ s').held t n = some .leaving)
    (hm : (view M₀ s').held t m = some .transferring) :
    Arc.Gap (view M₀ s').members n m := by
  change held s'.trace t n = _ at hn
  change held s'.trace t m = _ at hm
  change Arc.Gap (M₀ ∪ members s'.trace) n m
  rw [htrace] at h hn hm ⊢
  exact h.1 m hn hm

theorem Retains.swap_ne {st st' : State} (h : Retains hash t m st v) {m' : NodeId} (hne : m ≠ m') :
    Retains hash t m st (v.swap t m' st') :=
  ⟨(swap_held_ne hne t).trans h.held, h.rows⟩

omit [KVProvider K] in
theorem HeldOk.ne_of_active (hh : HeldOk v) {st : State} (hm : v.held t m = some st)
    (ha : v.state n = .active) : m ≠ n := by
  rintro rfl
  exact hh.not_active (by rw [hm]; simp) ha

theorem Orderly.halt (hi : Orderly hash v) (ha : v.state n = .active) :
    Orderly hash (v.swap t n .leaving) ∧ Yields hash n t v (v.swap t n .leaving) ∧
      Halted hash t n (v.swap t n .leaving) := by
  obtain ⟨h1, h2, h3⟩ := hi.take (t := t) (n := n) ha (.inr rfl)
  exact ⟨h1, h2, h3, by simp [View.swap, ha]⟩

def BothTaken (hash : Bytes → ℕ) (t : ℕ) (n m : NodeId) (v : View K) : Prop :=
  ∃ p a b, Deed hash p n a b ∧ Handing t n m p b a b v

theorem firm_bothTaken :
    Firm (departing K hash tasks M₀ n) t (BothTaken (K := K) hash t n m) :=
  .ex fun _ => .ex fun _ => .ex fun _ => (Firm.const _).and (firm_handing _ _ _)

theorem triple_second_lock (m : NodeId) :
    (departing K hash tasks M₀ n).Triple hash fuel t (Halted hash t n) (requestToLeave m)
      fun res v => match res with
        | .ok _ => BothTaken hash t n m v
        | .error _ => Halted hash t n v := by
  refine .bind (triple_cas (Q := BothTaken hash t n m) firm_halted.stays firm_bothTaken.stays
    fun s s' hi hk hv ha htrace hview => ?_) fun b => ?_
  · have hview : view M₀ s' = (view M₀ s).swap t m .transferring := hview
    obtain ⟨h1, h2, h3⟩ := hi.take (t := t) (n := n) ha (.inl rfl)
    have hne : n ≠ m := (hk.heldOk M₀).ne_of_active hv.kept.held ha
    have hhalted : Halted hash t n (view M₀ s') := by
      rw [hview]
      exact ⟨hv.kept.swap_ne hne, by simpa [View.swap, hne] using hv.stop⟩
    rw [← hview] at h1 h2 h3
    exact ⟨h1, h2, hhalted.handing h1 h3
      (hk.known.1.gap_of_swapped htrace hhalted.kept.held h3.held)⟩
  · cases b with
    | false => exact .ret firm_halted.stays.stable fun _ _ h => h
    | true => exact .ret firm_bothTaken.stays.stable fun _ _ h => h

theorem triple_lock_leave (m : NodeId) :
    (departing K hash tasks M₀ n).Triple hash fuel t (fun _ => True) (lockLeave rounds n m)
      fun res v => match res with
        | .ok _ => BothTaken hash t n m v
        | .error _ => True := by
  have hend : ∀ e, (departing K hash tasks M₀ n).Triple hash fuel t (fun _ => True)
      (.ret (.error e)) fun (res : Except ChordError Unit) v => match res with
        | .ok _ => BothTaken hash t n m v
        | .error _ => True := fun _ => .ret (.const _) fun _ _ _ => trivial
  unfold lockLeave
  split_ifs
  · refine .bind (Q := fun res s => match res with
      | .ok _ => Retains hash t m .transferring (view M₀ s)
      | .error _ => True) ?_ fun res => ?_
    · refine .bind (triple_transition (P := fun _ => True) (Q := Retains hash t m .transferring)
        (Stays.const _) firm_kept.stays fun v hi _ _ ha => hi.take ha (.inl rfl)) fun b => ?_
      cases b with
      | false => exact .ret (.const _) fun _ _ _ => trivial
      | true => exact .ret firm_kept.stays.stable fun _ _ h => h
    rcases res with e | _
    · exact hend e
    refine .bind (triple_cas (Q := BothTaken hash t n m) firm_kept.stays firm_bothTaken.stays
      fun s s' hi hk hv ha htrace hview => ?_) fun b => ?_
    · have hview : view M₀ s' = (view M₀ s).swap t n .leaving := hview
      obtain ⟨h1, h2, h3⟩ := hi.halt (t := t) ha
      have hkept : Retains hash t m .transferring (view M₀ s') := by
        rw [hview]
        exact hv.swap_ne ((hk.heldOk M₀).ne_of_active hv.held ha)
      rw [← hview] at h1 h2 h3
      exact ⟨h1, h2, h3.handing h1 hkept
        (hk.known.1.gap_of_swapped htrace h3.kept.held hkept.held)⟩
    cases b with
    | false => exact .bind (triple_release .finishLeave nofun _ m) fun _ => hend _
    | true => exact .ret firm_bothTaken.stays.stable fun _ _ h => h
  · refine .bind (triple_transition (P := fun _ => True) (Q := Halted hash t n)
      (Stays.const _) firm_halted.stays fun v hi _ _ ha => hi.halt ha) fun b => ?_
    cases b with
    | false => exact hend _
    | true =>
      refine .bind (triple_second_lock m) fun res => ?_
      rcases res with e | _
      · refine .bind (triple_setState (P := Halted hash t n) firm_halted.stays
          (Q := fun _ => True) (Stays.const _) (fun v hi hh hv => ?_) rounds)
          fun (_ : Unit) => hend _
        have hn := hi.running n (.inr (.inr (hh.state hv.kept.held)))
        obtain ⟨h1, h2⟩ := hv.kept.give (n := n) hi hh hn
        exact ⟨h1, h2, trivial⟩
      · exact .ret firm_bothTaken.stays.stable fun _ _ h => h

def HandedAll (hash : Bytes → ℕ) (t : ℕ) (n m : NodeId) (v : View K) : Prop :=
  ∃ p d a b, Passed hash p n d a ∧ Handing t n m p d a b v

theorem firm_handedAll :
    Firm (departing K hash tasks M₀ n) t (HandedAll (K := K) hash t n m) :=
  .ex fun _ => .ex fun _ => .ex fun _ => .ex fun _ => (Firm.const _).and (firm_handing _ _ _)

theorem triple_hand_over [LawfulProvider K hash] (m : NodeId) :
    (departing K hash tasks M₀ n).Triple hash fuel t (BothTaken hash t n m) (handOver rounds n m)
      fun res v => res = .ok () ∧ HandedAll hash t n m v := by
  refine .ex fun p => .ex fun a => .ex fun b => .assume fun hdeed => ?_
  refine .bind ((firm_handing b a b).triple_lock .surrogateMu n) fun (_ : Unit) => ?_
  refine .bind (Q := fun res s => res = .ok () ∧ HandedAll hash t n m (view M₀ s)) ?_
    fun res => .assume fun hres => ?_
  · refine ((moves_handing b).triple_moveRange a b fun k _ hk => hdeed.free k hk).post ?_
    rintro res s ⟨rfl, a', b', hparted, hv⟩
    exact ⟨rfl, p, b, a', b', fun k hk =>
      ⟨hdeed.own k hk, hparted.sent k (Lib.Arc.ioc_self 0 _) hk⟩, hv⟩
  subst hres
  refine .bind (triple_reading firm_handedAll.stays (.perform rfl))
    fun (_ : Unit) => ?_
  refine .bind (firm_handedAll.triple_unlock .surrogateMu n) fun (_ : Unit) => ?_
  exact .ret ((Stays.const _).and firm_handedAll.stays).stable fun _ _ h => ⟨rfl, h⟩

def Departs (hash : Bytes → ℕ) (t : ℕ) (n : NodeId) (x : NodeId × NodeId) (v : View K) : Prop :=
  x.2 ≠ n ∧ x.1 ∈ v.members ∧ HandedAll hash t n x.2 v

theorem firm_departs (x : NodeId × NodeId) :
    Firm (departing K hash tasks M₀ n) t (Departs (K := K) hash t n x) :=
  (Firm.const _).and ((firm_mem x.1).and firm_handedAll)

theorem triple_execute_leave [LawfulProvider K hash] :
    (departing K hash tasks M₀ n).Triple hash fuel t (fun _ => True) (executeLeave rounds n)
      fun res v => match res with
        | .ok x => Departs hash t n x v
        | .error _ => True := by
  have hend : ∀ e, (departing K hash tasks M₀ n).Triple hash fuel t (fun _ => True)
      (.ret (.error e)) fun (res : Except ChordError (NodeId × NodeId)) v => match res with
        | .ok x => Departs hash t n x v
        | .error _ => True := fun _ => .ret (.const _) fun _ _ _ => trivial
  refine .bind (triple_read (a := .getPredecessor n) rfl (P := fun _ => True) (Stays.const _)
    (Q := fun r v => ∀ q, r = some q → q ∈ v.members)
    (fun _ _ _ h hv q hq => h.keeps_members (hv q hq)) fun s l r s' hi _ _ _ he => ?_)
    fun (pre : Option NodeId) => ?_
  · simp only [exec] at he
    split_ifs at he
    cases he
    exact hi.preds n
  split
  · exact .pre (hend _) fun _ _ _ => trivial
  next pre =>
  refine .pre (P := fun s => pre ∈ (view M₀ s).members) ?_ fun _ _ h => h pre rfl
  have hpre : Firm (departing K hash tasks M₀ n) t fun v : View K => pre ∈ v.members :=
    firm_mem pre
  refine .bind (triple_reading hpre.stays (only_getSuccessor isInert_reading n)) fun succ => ?_
  split
  · exact .pre (hend _) fun _ _ _ => trivial
  next succ =>
  split_ifs
  · refine .bind (triple_step (a := .skipLeave n) (P := fun v => pre ∈ v.members)
      (Q := fun _ _ => False) hpre.stays (fun _ => Stays.const _)
      fun s l r s' _ hk _ _ he => ?_) fun (_ : Unit) => .ret
      (firm_departs _).stays.stable fun _ _ h => h.elim
    cases he
    exact hk.known.1.1.elim
  refine .bind (((triple_lock_leave rounds succ).frame (keeps_mem pre)).pre
    fun _ _ h => ⟨h, trivial⟩) fun res => ?_
  rcases res with e | _
  · exact .pre (hend e) fun _ _ _ => trivial
  refine .bind ((triple_hand_over rounds succ).frame (keeps_mem pre)) fun res => ?_
  refine .pre (P := fun s => res = .ok () ∧ pre ∈ (view M₀ s).members ∧
    HandedAll hash t n succ (view M₀ s)) ?_ fun _ _ h => ⟨h.2.1, h.1, h.2.2⟩
  refine .assume fun hres => ?_
  subst hres
  refine .ret (firm_departs (pre, succ)).stays.stable fun _ _ h => ⟨?_, h⟩
  obtain ⟨-, _, _, _, _, -, hhanding⟩ := h
  exact hhanding.ne

theorem HandedAll.left (hi : Orderly hash v) (hh : HeldOk v) (hv : HandedAll hash t n m v) :
    Orderly hash (v.swap t n .left) ∧ Yields hash n t v (v.swap t n .left) := by
  obtain ⟨p, d, a, b, hpassed, hv⟩ := hv
  have hst := hh.state hv.leaving
  refine ⟨hi.swap (by simp) (fun _ => nofun) (by simp),
    .swap (by rw [hst]; nofun) fun _ _ k hk => ⟨m, ?_, ?_⟩⟩
  all_goals
    rw [swap_atStop_ne (by rw [hst]; nofun), hv.stop] at hk
    obtain ⟨hown, hval⟩ := hpassed k hk
  · exact ⟨p, hv.gap.erase hv.next hv.ne, hv.gap.ioc_trans hv.next hv.ne hown⟩
  · rw [swap_atStop_ne (by rw [hst]; nofun), hv.stop]
    exact (congrArg (KVProvider.val · k) hv.nextKv).trans hval

theorem stays_left :
    (departing K hash tasks M₀ n).Stays t fun v : View K => v.state n = .left :=
  fun _ _ h hv => h.guar.choose_spec.2.left hv

theorem triple_leave_ring [LawfulProvider K hash] :
    (departing K hash tasks M₀ n).Triple hash fuel t (fun _ => True) (leaveRing rounds n)
      fun _ _ => True := by
  refine .bind (triple_retry (Q := fun x s => Departs hash t n x (view M₀ s)) (.const True)
    (fun x => (firm_departs x).stays.stable) ((triple_execute_leave rounds).post ?_) _)
    fun res => ?_
  · rintro (e | x) s h <;> exact h
  rcases res with e | ⟨pre, succ⟩
  · exact .ret (.const _) fun _ _ _ => trivial
  refine .assume fun hne => ?_
  have hfirm : Firm (departing K hash tasks M₀ n) t fun v : View K =>
      pre ∈ v.members ∧ HandedAll hash t n succ v := (firm_mem pre).and firm_handedAll
  refine .bind (Q := fun _ s => pre ∈ (view M₀ s).members ∧
    HandedAll hash t n succ (view M₀ s)) ?_ fun (_ : Unit) => ?_
  · unfold finishLeaveAt
    split_ifs
    · exact .same hfirm.stays.stable
    refine .bind (Q := fun _ s => pre ∈ (view M₀ s).members ∧
      HandedAll hash t n succ (view M₀ s)) ?_ fun _ => .same hfirm.stays.stable
    exact .bind (hfirm.triple_updatePointers (fun _ h => h.1) rounds) fun (_ : Unit) =>
      .same hfirm.stays.stable
  refine .bind (triple_setState (Q := fun v => v.state n = .left) hfirm.stays stays_left
    (fun v hi hh hv => ?_) rounds) fun (_ : Unit) => ?_
  · obtain ⟨h1, h2⟩ := hv.2.left hi hh
    exact ⟨h1, h2, swap_state_self⟩
  refine .bind (Q := fun _ s => (view M₀ s).state n = .left) ?_ fun (_ : Unit) =>
    .post (triple_reading stays_left (.perform rfl)) fun _ _ _ => trivial
  rw [finishLeaveAt, if_neg hne]
  refine .bind (Q := fun _ s => (view M₀ s).state n = .left) ?_
    fun _ => .same stays_left.stable
  change ((departing K hash tasks M₀ n).rules hash fuel).Triple t _ (releaseLock .finishLeave _ _) _
  refine .bind (triple_cas stays_left stays_left fun s s' _ hk hv _ _ _ => ?_) fun b => ?_
  · exact absurd hv hk.known.2
  · cases b <;> exact .same stays_left.stable

theorem triple_leave [LawfulProvider K hash] :
    (departing K hash tasks M₀ n).Triple hash fuel t (fun _ => True) (leave rounds n)
      fun _ _ => True := by
  refine .bind (triple_reading (P := fun _ => True) (Stays.const _) (.perform rfl))
    fun (w : StateWord) => ?_
  split
  case h_1 | h_2 | h_3 => exact .same (.const _)
  all_goals exact triple_leave_ring rounds

end Leave

/-- A ring of the Active nodes `M₀`, each of which stores only keys of its own part of the circle,
and nothing is going on. -/
structure Steady (hash : Bytes → ℕ) (M₀ : Set NodeId) (s : Shared K) : Prop extends AtRest s where
  finite : M₀.Finite
  active : ∀ m, (s.node m).state.state = .active ↔ m ∈ M₀
  preds : ∀ m p, (s.node m).predecessor = some p → p ∈ M₀
  rows : ∀ m k, KVProvider.val (s.node m).kv k ≠ .newValue → Owns M₀ m (hash k)

variable {s₀ : Shared K}

theorem Steady.orderly (h : Steady hash M₀ s₀) : Orderly hash (view M₀ s₀) := by
  have hmembers : (view M₀ s₀).members = M₀ := by simp [view, h.trace, members]
  refine ⟨by rw [hmembers]; exact h.finite, fun m hm => ?_, fun m hm => ?_, fun m p hp => ?_,
    fun m _ k hk => ?_⟩
  · have hfree := h.free m
    rw [hmembers, ← h.active]
    rcases hm with hm | hm | hm
    · exact hm
    all_goals
      change (s₀.node m).state.state = _ at hm
      rw [hm] at hfree
      cases hfree
  · rw [hmembers, ← h.active] at hm
    change (s₀.node m).state.state ≠ .inactive
    simp [hm]
  · rw [hmembers]
    exact h.preds m p hp
  · rw [hmembers]
    exact h.rows m k hk

/-- The tasks of a system in which `n` leaves: any joins, and maintenance of the members. -/
def LeaveTasks (M₀ : Set NodeId) (n : NodeId) (tasks : List Task) : Prop :=
  ∀ τ ∈ tasks, τ = .leave n ∨ (∃ x peer, τ = .join x peer) ∨ τ.isPeriodic = true ∧ τ.node ∈ M₀

theorem LeaveTasks.isAnswered (h : LeaveTasks M₀ n tasks) (hτ : τ ∈ tasks) :
    τ.isAnswered = true := by
  obtain rfl | ⟨x, peer, rfl⟩ | ⟨hp, -⟩ := h τ hτ
  · rfl
  · rfl
  · cases τ <;> first | rfl | cases hp

theorem LeaveTasks.safe [LawfulProvider K hash] (h : LeaveTasks M₀ n tasks) (hτ : τ ∈ tasks)
    (hs : Steady hash M₀ s₀) :
    ((departing K hash tasks M₀ n).rules hash fuel).Safe t (fun _ _ => True)
      (body hash fuel τ) s₀ := by
  have hi := hs.orderly
  obtain rfl | ⟨x, peer, rfl⟩ | ⟨hp, hm⟩ := h τ hτ
  · exact triple_leave fuel s₀ hi trivial
  · exact Rules.Triple.bind (triple_join_beside fuel x peer)
      (fun _ => .ret (.const _) fun _ _ _ => trivial) s₀ hi trivial
  · exact departing_closed.safe τ t s₀ hi ⟨⟨hp, .inl hm⟩, trivial⟩

/-- The conditions on the events so far, as they are known of the steps of a run. -/
def placed (M₀ : Set NodeId) (n : NodeId) (_ : ℕ) (_ s' : Shared K) : Prop :=
  AllPlaced M₀ n s'.trace

theorem allPlaced_back {c c' : Lib.Config chordSig (Shared K)}
    (h : (cluster K hash fuel).step t l c = some c') (hp : AllPlaced M₀ n c'.shared.trace) :
    AllPlaced M₀ n c.shared.trace := by
  obtain htr | ⟨e, htr⟩ := step_trace h
  · exact htr ▸ hp
  · rw [htr] at hp
    exact hp.2

theorem left_forward {runs : ℕ → Site → Prop} {c c' : Lib.Config chordSig (Shared K)}
    (howned : Owned runs c'.shared) (h : (cluster K hash fuel).step t l c = some c')
    (hl : (c.shared.node n).state.state = .left) : (c'.shared.node n).state.state = .left := by
  obtain ⟨a, k, r, s, -, he, rfl⟩ | ⟨τ, k, -, rfl⟩ := (cluster K hash fuel).step_cases h
  swap
  · exact hl
  change exec l t c.shared a = some (r, s) at he
  by_cases hw : a.writes .state n = true
  swap
  · have := exec_frame he (f := .state) (by simpa using hw)
    exact (congrArg StateWord.state this).trans hl
  cases a with
  | casState m old new how site =>
    obtain rfl : n = m := by simpa [Act.writes] using hw
    obtain ⟨-, hold, rfl⟩ | ⟨-, rfl⟩ := exec_casState he
    · rw [hold] at hl
      obtain ⟨⟨-, -, ⟨-, htake⟩ | ⟨hgive, -⟩⟩, -⟩ := howned.wf
      · rw [hl] at htake
        cases htake
      · rw [hl] at hgive
        cases hgive
    · exact hl
  | _ => simp [Act.writes] at hw

end Programs

/-- In every run of a Leave at `n`, any joins and the maintenance, with no failing calls, in which
joiners were accepted by their next members, `n` had locked its next member and no node found itself
alone: when `n` becomes Left, every key it stored when it stopped being Active is stored, as it was,
at the first of the other members at or after it. -/
theorem leave_hands_keys_on {K : Type} [KVProvider K] (hash : Bytes → ℕ) [LawfulProvider K hash]
    (fuel : ℕ) {M₀ : Set NodeId} {n : NodeId} {tasks : List Task} (htasks : LeaveTasks M₀ n tasks)
    {s₀ : Shared K} (hs : Steady hash M₀ s₀) {sched : List (ℕ × Fault)} {t : ℕ} {l : Fault}
    (hok : ∀ x ∈ sched, x.2.fails = false) (hl : l.fails = false)
    {c c' : Lib.Config chordSig (Shared K)}
    (hrun : (cluster K hash fuel).run sched ((cluster K hash fuel).launch tasks s₀) = some c)
    (hstep : (cluster K hash fuel).step t l c = some c')
    (hbefore : (c.shared.node n).state.state ≠ .left)
    (hafter : (c'.shared.node n).state.state = .left)
    (hplaced : AllPlaced M₀ n c'.shared.trace) :
    ∀ k, KVProvider.val (c'.shared.node n).atStop k ≠ .newValue →
      ∃ m, Owns ((M₀ ∪ members c'.shared.trace) \ {n}) m (hash k) ∧
        KVProvider.val (c'.shared.node m).kv k = KVProvider.val (c'.shared.node n).atStop k := by
  have hskip : (answered (K := K) tasks (placed M₀ n)).NeverSkips := by
    intro t s s' m hk htrace
    change AllPlaced M₀ n s'.trace at hk
    rw [htrace] at hk
    exact hk.1
  have hlocks : ((answered tasks (placed M₀ n)).rules hash fuel).Good
      ((cluster K hash fuel).launch tasks s₀) :=
    answered_launch hs.toAtRest (fun _ => htasks.isAnswered) fun _ _ => hskip
  have hfollows := (Rules.follows_of_run
    (R := (answered tasks (placed M₀ n)).rules hash fuel) (φ := fun s => AllPlaced M₀ n s.trace)
    (fun h hp => ⟨allPlaced_back h hp, hp⟩) (fun _ _ => trivial) hrun
    (allPlaced_back hstep hplaced)).2
  have hheld := Rules.good_run answered_closed hlocks hfollows hrun
  obtain ⟨hheld', hguar⟩ := Rules.good_step answered_closed hheld hstep trivial hplaced
  have hlaunch : ((departing K hash tasks M₀ n).rules hash fuel).Good
      ((cluster K hash fuel).launch tasks s₀) := Rules.good_launch hs.orderly (fun _ _ => trivial)
    fun t τ hτ => htasks.safe (List.mem_of_getElem? hτ) hs
  have hfollows' := (Rules.Follows.until (R := (answered tasks (placed M₀ n)).rules hash fuel)
    ((departing K hash tasks M₀ n).rules hash fuel) answered_closed
    (φ := fun s => (s.node n).state.state ≠ .left)
    (fun hg h hn hleft => hn (left_forward hg.1 h hleft))
    (fun _ _ _ hf hn => ⟨hf.1, hf.2.1, Policy.leavesOthers hf, hf.2.2.2, hn⟩) hok hlocks hfollows
    hrun hbefore).2
  obtain ⟨-, hyields | hsame⟩ := Rules.good_step departing_closed
    (Rules.good_run departing_closed hlaunch hfollows' hrun) hstep hl
    ⟨hheld.1, hheld'.1, Policy.leavesOthers ⟨hheld.1, hheld'.1, hguar, hplaced⟩, hplaced, hbefore⟩
  · exact hyields.handed hbefore hafter
  · rw [hsame] at hafter
    exact absurd hafter hbefore

theorem pairRing_steady : Steady (fun _ => 50) {7, 300} pairRing where
  toAtRest := pairRing_atRest
  finite := by simp
  active m := by
    by_cases hm : m = 7 ∨ m = 300
    · simp [pairRing, hm]
    · simp [pairRing, hm, newLocalNode]
  preds m p := by
    unfold pairRing
    dsimp only
    split_ifs <;> simp_all [newLocalNode]
  rows m k hk := by
    by_cases hm : m = 300
    · subst hm
      exact ⟨7, ⟨by simp, by simp, by simp [Lib.Arc.Ioo]⟩, by decide⟩
    · refine absurd ?_ hk
      unfold pairRing
      dsimp only
      simp only [hm, or_false, if_false]
      split_ifs <;> exact @LawfulProvider.val_empty _ _ (fun _ => 50) _ k

/-- Node 300 leaves a ring of two; its key is with the other when it is Left. -/
theorem leave_hands_keys_on_pair : ∃ c c',
    (cluster _ (fun _ => 50) 5).run (List.replicate 181 (0, .ok))
      ((cluster _ (fun _ => 50) 5).launch [.leave 300] pairRing) = some c ∧
    (cluster _ (fun _ => 50) 5).step 0 .ok c = some c' ∧
    (c.shared.node 300).state.state ≠ .left ∧ (c'.shared.node 300).state.state = .left ∧
    AllPlaced {7, 300} 300 c'.shared.trace ∧
    (KVProvider.val (c'.shared.node 300).atStop [1]).simple = some [2] ∧
    ∃ m, Owns (({7, 300} ∪ members c'.shared.trace) \ {300}) m 50 ∧
      (KVProvider.val (c'.shared.node m).kv [1]).simple = some [2] := by
  have hend : ((cluster _ (fun _ => 50) 5).run (List.replicate 181 (0, .ok))
      ((cluster _ (fun _ => 50) 5).launch [.leave 300] pairRing)).bind (fun c =>
        ((cluster _ (fun _ => 50) 5).step 0 .ok c).map fun c' =>
          ((c.shared.node 300).state.state, (c'.shared.node 300).state.state, c'.shared.trace,
            (KVProvider.val (c'.shared.node 300).atStop [1]).simple)) =
      some (.leaving, .left, [.swapped 0 300 .set .leave .leaving .left,
        .imported 0 7 [[1]] [⟨some [2], [], 0⟩],
        .swapped 0 300 .transition .executeLeave .active .leaving,
        .swapped 0 7 .transition .requestToLeave .active .transferring], some [2]) := by
    decide +kernel
  obtain ⟨c, hrun, hc⟩ := Option.bind_eq_some_iff.1 hend
  obtain ⟨c', hstep, hc'⟩ := Option.map_eq_some_iff.1 hc
  simp only [Prod.mk.injEq] at hc'
  obtain ⟨hbefore, hafter, htrace, hval⟩ := hc'
  have hplaced : AllPlaced {7, 300} 300 c'.shared.trace := by
    rw [htrace]
    refine ⟨fun m hn => ?_, trivial, fun m _ hm => ?_, fun m hn => ?_, trivial⟩
    · cases hn
    · obtain rfl : m = 7 := by
        simp only [held_swapped] at hm
        split_ifs at hm with _ _ h7
        · cases hm
        · exact h7
        · cases hm
      rw [members_cons_none rfl, members_cons_none rfl]
      exact ⟨by simp, by simp, by simp [members, Lib.Arc.Ioo]⟩
    · cases hn
  have hok : ∀ x ∈ List.replicate 181 (0, Fault.ok), x.2.fails = false := fun x hx => by
    rw [(List.mem_replicate.1 hx).2]
    rfl
  have htasks : LeaveTasks {7, 300} 300 [.leave 300] := by simp [LeaveTasks]
  obtain ⟨m, hm, hkv⟩ := leave_hands_keys_on (fun _ => 50) 5 htasks pairRing_steady hok rfl hrun
    hstep (by simp [hbefore]) hafter hplaced [1] fun h => by
      rw [h] at hval
      cases hval
  exact ⟨c, c', hrun, hstep, by simp [hbefore], hafter, hplaced, hval, m, hm,
    hkv.symm ▸ hval⟩

def loneRing : Shared (MemoryKV fun _ => 50) where
  node n :=
    if n = 300 then
      { newLocalNode with
        state := ⟨2, .active⟩
        predecessor := some 300
        successors := [300]
        kv := (MemoryKV.withHashFn _).put [1] (some [2]) }
    else newLocalNode
  mailbox := []
  trace := []

theorem loneRing_steady : Steady (fun _ => 50) {300} loneRing where
  trace := rfl
  free n := by
    unfold loneRing
    dsimp only
    split_ifs <;> rfl
  finite := by simp
  active m := by
    by_cases hm : m = 300
    · simp [loneRing, hm]
    · simp [loneRing, hm, newLocalNode]
  preds m p := by
    unfold loneRing
    dsimp only
    split_ifs <;> simp_all [newLocalNode]
  rows m k hk := by
    by_cases hm : m = 300
    · subst hm
      exact ⟨300, .singleton 300, Lib.Arc.ioc_self 300 50⟩
    · refine absurd ?_ hk
      unfold loneRing
      dsimp only
      rw [if_neg hm]
      exact @LawfulProvider.val_empty _ _ (fun _ => 50) _ k

/-- Node 300 finds itself alone, node 7 joins, and node 300 becomes Left: its key is not at the
only other member. -/
theorem leave_loses_keys_to_first_join : ∃ c c',
    Steady (fun _ => 50) {300} loneRing ∧
    (cluster _ (fun _ => 50) 5).run (List.replicate 4 (0, .ok) ++ List.replicate 393 (1, .ok) ++
        List.replicate 2 (0, .ok))
      ((cluster _ (fun _ => 50) 5).launch [.leave 300, .join 7 300] loneRing) = some c ∧
    (cluster _ (fun _ => 50) 5).step 0 .ok c = some c' ∧
    (c.shared.node 300).state.state ≠ .left ∧ (c'.shared.node 300).state.state = .left ∧
    7 ∈ ({300} ∪ members c'.shared.trace) \ {300} ∧
    KVProvider.val (c'.shared.node 300).atStop [1] ≠ .newValue ∧
    ¬ ∃ m, Owns (({300} ∪ members c'.shared.trace) \ {300}) m 50 ∧
      KVProvider.val (c'.shared.node m).kv [1] =
        KVProvider.val (c'.shared.node 300).atStop [1] := by
  have hend : ((cluster _ (fun _ => 50) 5).run (List.replicate 4 (0, .ok) ++
        List.replicate 393 (1, .ok) ++ List.replicate 2 (0, .ok))
      ((cluster _ (fun _ => 50) 5).launch [.leave 300, .join 7 300] loneRing)).bind (fun c =>
        ((cluster _ (fun _ => 50) 5).step 0 .ok c).map fun c' =>
          ([(c.shared.node 300).state.state, (c'.shared.node 300).state.state], c'.shared.trace,
            [(KVProvider.val (c'.shared.node 300).atStop [1]).simple,
              (KVProvider.val (c'.shared.node 7).kv [1]).simple])) =
      some ([.active, .left], [.swapped 0 300 .set .leave .active .left,
        .swapped 1 300 .transition .finishJoin .transferring .active,
        .swapped 1 7 .set .join .joining .active, .accepted 1 300 7,
        .swapped 1 300 .transition .requestToJoin .active .transferring,
        .swapped 1 7 .transition .join .inactive .joining, .skipped 0 300], [some [2], none]) := by
    decide +kernel
  obtain ⟨c, hrun, hc⟩ := Option.bind_eq_some_iff.1 hend
  obtain ⟨c', hstep, hc'⟩ := Option.map_eq_some_iff.1 hc
  simp only [Prod.mk.injEq, List.cons.injEq, and_true] at hc'
  obtain ⟨⟨hbefore, hafter⟩, htrace, hstop, hkv⟩ := hc'
  have hmembers : ({300} ∪ members c'.shared.trace) \ {300} = {7} := by
    ext m
    simp [htrace, members, Event.admits]
  refine ⟨c, c', loneRing_steady, hrun, hstep, by simp [hbefore], hafter,
    by rw [hmembers]; rfl, fun h => ?_, ?_⟩
  · rw [h] at hstop
    cases hstop
  · rintro ⟨m, hm, hsame⟩
    rw [hmembers] at hm
    obtain rfl : m = 7 := hm.mem
    rw [hsame, hstop] at hkv
    cases hkv

end Specter
