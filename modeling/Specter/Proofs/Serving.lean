import Specter.Proofs.Consistency

/-!
# Maintenance and requests in a growing ring

The periodic tasks and the KV requests under the rules of `Proofs.Consistency`.  Maintenance keeps
every assertion that depends on neither successors nor false predecessors (`Lasting`).  The read
locks of a request (`Reads`) keep the node it is at Active and its predecessor in place.
-/

namespace Specter

open Lib (Prog Rules Arc.Ioo Arc.Ioc Arc.Gap)
open Contract

section Programs

variable {K : Type} [KVProvider K] {hash : Bytes → ℕ} {n₀ : NodeId} {fuel t : ℕ} {tasks : List Task}
  {P : View K → Prop} {surrogate : Option NodeId}

theorem stateError_alive {st : State} (b : Bool) (h : st.isAlive = true) :
    stateError b st = none := by
  cases st <;> simp_all [State.isAlive, stateError]

theorem triple_checkNodeState (hP : (growing K hash tasks n₀).Stays t P) {p : NodeId}
    (hp : ∀ v, P v → p ∈ v.members) (b : Bool) :
    (growing K hash tasks n₀).Triple hash fuel t P (checkNodeState p b)
      fun e v => e = none ∧ P v := by
  refine .bind (triple_read (a := .loadState p) rfl hP
    (Q := fun w v => stateError b w.state = none ∧ P v) (fun _ => (Stays.const _).and hP)
    fun s l w s' hi _ hv _ he => ?_) fun w => .ret ((Stays.const _).and hP).stable fun _ _ h => h
  cases he
  exact ⟨stateError_alive b (hi.alive p (hp _ hv)), hv⟩

theorem triple_getPredecessor (hP : (growing K hash tasks n₀).Stays t P) (n : NodeId) :
    (growing K hash tasks n₀).Triple hash fuel t P (getPredecessor n)
      fun r v => (∀ p, r = some p → p ∈ v.members) ∧ P v := by
  have hstays : ∀ r : Option NodeId, (growing K hash tasks n₀).Stays t
      fun v : View K => (∀ p, r = some p → p ∈ v.members) ∧ P v := fun r =>
    Stays.and (fun _ _ h hv p hp => h.grows (hv p hp)) hP
  refine triple_read (a := .getPredecessor n) rfl hP
    (Q := fun r v => (∀ p, r = some p → p ∈ v.members) ∧ P v) hstays fun s l r s' hi _ hv _ he => ?_
  simp only [exec] at he
  split_ifs at he
  cases he
  exact ⟨fun p hp => hi.preds n p hp, hv⟩

/-- Assertions that maintenance does not disturb: they do not depend on successors, nor on
predecessors that are not the true ones. -/
structure Lasting (C : Contract K) (t : ℕ) (P : View K → Prop) : Prop where
  stays : C.Stays t P
  successors : ∀ v n l, P v → P { v with successors := Function.update v.successors n l }
  notified : ∀ v n c, (∀ p, v.predecessor n = some p → ¬ Arc.Gap v.members p n) → P v →
    P { v with predecessor := Function.update v.predecessor n (some c) }

theorem Lasting.keeps_routing {n : NodeId} (hP : Lasting (growing K hash tasks n₀) t P)
    (hn : ∀ v, P v → v.Noted n) (a : Act) (ha : a.isRouting n = true) :
    ((growing K hash tasks n₀).rules hash fuel).Keeps t (fun s => P (view ∅ s)) a := by
  cases a with
  | setSuccessors m l =>
    obtain rfl : m = n := by simpa [Act.isRouting] using ha
    intro s f r s' hi hv _ he _
    change Sound hash n₀ (view ∅ s') ∧ Respects hash t (view ∅ s) (view ∅ s') ∧ P (view ∅ s')
    rw [view_setSuccessors (l := f) (t := t) he]
    exact ⟨{ hi with }, .setSuccessors (.inl (hn _ hv).2) l, hP.successors _ m l hv⟩
  | _ => exact keeps_inert (by simp_all [Act.isRouting, Act.isReading, Act.isInert])

theorem triple_notifyCandidate (hP : (growing K hash tasks n₀).Stays t P) (n c : NodeId)
    (snapshot : Option NodeId) :
    (growing K hash tasks n₀).Triple hash fuel t
      (fun v => (∀ p, snapshot = some p → p ∈ v.members) ∧ P v) (notifyCandidate n snapshot c)
      fun r v => (∀ d, r = some d → d = c ∧ ∀ p, snapshot = some p → Arc.Ioo p n c) ∧
        P v := by
  have hend : ∀ r : Option NodeId, (∀ d, r = some d → d = c ∧ ∀ p, snapshot = some p →
      Arc.Ioo p n c) → (growing K hash tasks n₀).Triple hash fuel t P (.ret r)
        fun r v => (∀ d, r = some d → d = c ∧ ∀ p, snapshot = some p → Arc.Ioo p n c) ∧
        P v := fun r hr => .ret ((Stays.const _).and hP).stable fun _ _ h => ⟨hr, h⟩
  unfold notifyCandidate
  split
  · exact .pre (hend _ (by simp)) fun _ _ h => h.2
  next p =>
    split
    · exact .pre (hend _ (by simp)) fun _ _ h => h.2
    refine .pre (P := fun s => p ∈ (view ∅ s).members ∧ P (view ∅ s)) ?_
      fun _ _ h => ⟨h.1 p rfl, h.2⟩
    refine .bind (triple_checkNodeState (P := fun v => p ∈ v.members ∧ P v)
      (Stays.and (fun _ _ h hv => h.grows hv) hP) (fun _ h => h.1) true)
      fun e => .assume fun he => ?_
    subst he
    refine .pre (hend _ ?_) fun _ _ h => h.2
    intro d hd
    split_ifs at hd with hb
    obtain rfl : c = d := by simpa using hd
    refine ⟨rfl, fun q hq => ?_⟩
    obtain rfl : p = q := by simpa using hq
    exact between_eq_ioo.1 hb

theorem triple_notify (hP : Lasting (growing K hash tasks n₀) t P) {c : NodeId}
    (hc : ∀ v, P v → v.Noted c) (n : NodeId) :
    (growing K hash tasks n₀).Triple hash fuel t P (notify n c) fun _ => P := by
  refine .bind (triple_reading hP.stays (only_checkNodeState isInert_reading n false)) fun e => ?_
  split
  · exact .same hP.stays.stable
  refine .bind (triple_reading hP.stays (.perform rfl)) fun (x : Option NodeId) => ?_
  refine .bind (triple_getPredecessor hP.stays n) fun snapshot => ?_
  refine .bind (triple_notifyCandidate hP.stays n c snapshot) fun r => .assume fun hr => ?_
  split
  · exact .same hP.stays.stable
  next d =>
    obtain ⟨rfl, hin⟩ := hr d rfl
    refine .bind (triple_reading hP.stays (.perform rfl)) fun (_ : Unit) => ?_
    refine .bind (triple_step (a := .casPredecessor n snapshot (some d)) hP.stays
      (fun _ => hP.stays) fun s l r s' hi _ hv _ he => ?_) fun _ =>
      .same hP.stays.stable
    obtain ⟨hl, ⟨-, hview⟩ | ⟨hold, hview⟩⟩ := view_casPredecessor he <;> rw [hview]
    · exact ⟨hi, .refl hash t _, hv⟩
    have hunset : ∀ p, (view ∅ s).predecessor n = some p → ¬ Arc.Gap (view ∅ s).members p n :=
      fun p hp hg => hg.empty d (hc _ hv).1 (hin p (hold.symm.trans hp))
    have hjoin : n ∈ (view ∅ s).members → (view ∅ s).state n = .joining := fun hm => by
      by_contra hj
      obtain ⟨p, hp, hg⟩ := hi.settled n hm hj
      exact hunset p hp hg
    simp only [RWMutex.canLock, Bool.and_eq_true, List.isEmpty_iff] at hl
    refine ⟨hi.setPredecessor (hc _ hv).1 (fun hm hj => absurd (hjoin hm) hj) fun ha => ?_,
      .setPredecessor hl.2 (fun p hp hg => absurd hg (hunset p hp)) fun _ => .inl (hc _ hv).2,
      hP.notified _ n d hunset hv⟩
    have := hjoin (hi.running n (.inl ha))
    rw [ha] at this
    cases this

theorem triple_checkPredecessor (hP : (growing K hash tasks n₀).Stays t P) (n : NodeId) :
    (growing K hash tasks n₀).Triple hash fuel t P (checkPredecessor n) fun _ => P := by
  refine .bind (triple_getPredecessor hP n) fun pre => ?_
  split
  · exact .ret hP.stable fun _ _ h => h.2
  next p =>
    split_ifs
    · exact .ret hP.stable fun _ _ h => h.2
    refine .pre (P := fun s => p ∈ (view ∅ s).members ∧ P (view ∅ s)) ?_
      fun _ _ h => ⟨h.1 p rfl, h.2⟩
    refine .bind (triple_checkNodeState (P := fun v => p ∈ v.members ∧ P v)
      (Stays.and (fun _ _ h hv => h.grows hv) hP) (fun _ h => h.1) true)
      fun e => .assume fun he => ?_
    subst he
    exact .ret hP.stable fun _ _ h => h.2

/-- How many read locks of each mutex the thread holds. -/
def Reads (t : ℕ) (C : NodeId → Mutex → ℕ) (v : View K) : Prop :=
  ∀ n mu, (v.mutex n mu).readers.count t = C n mu

def oneMore (C : NodeId → Mutex → ℕ) (n : NodeId) (mu : Mutex) : NodeId → Mutex → ℕ :=
  fun n' mu' => if n' = n ∧ mu' = mu then C n mu + 1 else C n' mu'

variable {C : NodeId → Mutex → ℕ} {n : NodeId} {mu : Mutex}

theorem stays_reads (C : NodeId → Mutex → ℕ) :
    (growing K hash tasks n₀).Stays t (Reads (K := K) t C) :=
  fun _ _ h hv n mu => (h.reader n mu).trans (hv n mu)

theorem stays_active (hC : C n .surrogateMu ≠ 0) :
    (growing K hash tasks n₀).Stays t fun v : View K => Reads t C v ∧ v.state n = .active := by
  rintro v v' h ⟨hr, ha⟩
  exact ⟨stays_reads C v v' h hr, h.active (by rwa [hr]) ha⟩

theorem stays_predecessor (hC : C n .surrogateMu ≠ 0) (hC' : C n .predecessorMu ≠ 0)
    (pre : Option NodeId) :
    (growing K hash tasks n₀).Stays t fun v : View K =>
      (Reads t C v ∧ v.state n = .active) ∧ v.predecessor n = pre := by
  rintro v v' h ⟨hra, hp⟩
  exact ⟨stays_active hC v v' h hra, (h.predecessor (by rwa [hra.1])).trans hp⟩

theorem triple_rlock (hP : (growing K hash tasks n₀).Stays t fun v => Reads t C v ∧ P v)
    (hQ : (growing K hash tasks n₀).Stays t fun v => Reads t (oneMore C n mu) v ∧ P v)
    (hm : ∀ v m, P v → P (v.setMutex n mu m)) :
    (growing K hash tasks n₀).Triple hash fuel t (fun v => Reads t C v ∧ P v) (rlock mu n)
      fun _ v => Reads t (oneMore C n mu) v ∧ P v := by
  refine triple_step (a := .rlock mu n) hP (fun _ => hQ) fun s l r s' hi _ hv _ he => ?_
  obtain ⟨hw, hview⟩ := view_rlock he
  obtain ⟨h1, h2⟩ := hi.rlock (t := t) hw
  rw [hview]
  refine ⟨h1, h2, fun n' mu' => ?_, hm _ _ hv.2⟩
  unfold oneMore
  split_ifs with hs
  · obtain ⟨rfl, rfl⟩ := hs
    rw [setMutex_mutex_self, List.count_cons_self, hv.1]
  · rw [setMutex_mutex_ne hs, hv.1]

theorem triple_runlock (C : NodeId → Mutex → ℕ) (n : NodeId) (mu : Mutex) :
    (growing K hash tasks n₀).Triple hash fuel t (Reads t (oneMore C n mu)) (runlock mu n)
      fun _ => Reads t C := by
  refine triple_step (a := .runlock mu n) (stays_reads _) (fun _ => stays_reads C)
    fun s l r s' hi _ hv _ he => ?_
  have hcount : ((view ∅ s).mutex n mu).readers.count t = C n mu + 1 := by
    rw [hv n mu, oneMore, if_pos ⟨rfl, rfl⟩]
  have hmem : t ∈ ((view ∅ s).mutex n mu).readers := by
    rw [← List.count_pos_iff, hcount]
    omega
  obtain ⟨h1, h2⟩ := hi.runlock (t := t) hmem
  rw [view_runlock he]
  refine ⟨h1, h2, fun n' mu' => ?_⟩
  by_cases hs : n' = n ∧ mu' = mu
  · obtain ⟨rfl, rfl⟩ := hs
    rw [setMutex_mutex_self, List.count_erase_self, hcount]
    rfl
  · rw [setMutex_mutex_ne hs, hv n' mu', oneMore, if_neg hs]

theorem Sound.owns {v : View K} (h : Sound hash n₀ v) (ha : v.state n = .active) {id : ℕ}
    (ht : target n surrogate (v.predecessor n) id = .localStore) : Owns v.members n id := by
  obtain ⟨p, hp, hg⟩ := h.settled n (h.running n (.inl ha)) (by rw [ha]; nofun)
  rw [hp, target] at ht
  split at ht
  · cases ht
  · split_ifs at ht with hb
    exact ⟨p, hg, between_eq_ioc.1 hb⟩

variable [LawfulProvider K hash]

theorem triple_handle (hC : C n .surrogateMu ≠ 0) (hC' : C n .predecessorMu ≠ 0) (r : Request)
    {pre : Option NodeId} (ht : target n surrogate pre (hash r.key) = .localStore) :
    (growing K hash tasks n₀).Triple hash fuel t (fun v => (Reads t C v ∧ v.state n = .active) ∧
        v.predecessor n = pre) (handle n r) fun _ => Reads t C := by
  refine triple_step (a := .handle n r) (stays_predecessor hC hC' pre)
    (fun _ => stays_reads C) fun s l res s' hi hk hv hl he => ?_
  obtain ⟨⟨hr, ha⟩, hp⟩ := hv
  obtain ⟨h1, h2⟩ := hi.handle (t := t) (hk.heldOk ∅) ha (hi.owns ha (by rwa [hp]))
  rw [view_handle hl he]
  exact ⟨h1, h2, hr⟩

theorem triple_serve {call : NodeId → Chord (Except ChordError Reply)}
    (hcall : ∀ x C, (growing K hash tasks n₀).Triple hash fuel t (Reads t C) (call x)
      fun _ => Reads t C)
    (C : NodeId → Mutex → ℕ) (n : NodeId) (r : Request) :
    (growing K hash tasks n₀).Triple hash fuel t (Reads t C) (serve hash call n r)
      fun _ => Reads t C := by
  have hend : ∀ res : Except ChordError Reply, (growing K hash tasks n₀).Triple hash fuel t
      (Reads t C) (.ret res) fun _ => Reads t C :=
    fun _ => .ret (stays_reads C).stable fun _ _ h => h
  set C₁ := oneMore C n .surrogateMu with hC₁
  set C₂ := oneMore C₁ n .predecessorMu with hC₂
  have h₁ : C₁ n .surrogateMu ≠ 0 := by simp [hC₁, oneMore]
  have h₂ : C₂ n .surrogateMu ≠ 0 := by simp [hC₂, hC₁, oneMore]
  have h₂' : C₂ n .predecessorMu ≠ 0 := by simp [hC₂, oneMore]
  refine .bind (.conseq (triple_rlock (P := fun _ => True) ((stays_reads C).and (Stays.const _))
    ((stays_reads C₁).and (Stays.const _)) fun _ _ h => h) (fun _ _ h => ⟨h, trivial⟩)
    fun _ _ h => h.1) fun (_ : Unit) => ?_
  refine .bind (triple_read (a := .loadState n) rfl (stays_reads C₁)
    (Q := fun w v => Reads t C₁ v ∧ (w.state = .active → v.state n = .active))
    (fun w v v' h hv => ⟨stays_reads C₁ v v' h hv.1, fun hw =>
      (stays_active h₁ v v' h ⟨hv.1, hv.2 hw⟩).2⟩)
    fun s l w s' _ _ hv _ he => ?_) fun (w : StateWord) => ?_
  · cases he
    exact ⟨hv, id⟩
  split_ifs with hw
  · exact .bind (.pre (triple_runlock C n _) fun _ _ h => h.1) fun _ => hend _
  refine .pre (P := fun s => Reads t C₁ (view ∅ s) ∧ (view ∅ s).state n = .active) ?_
    fun _ _ h => ⟨h.1, h.2 (not_not.1 hw)⟩
  refine .bind (triple_reading (stays_active h₁) (.perform rfl))
    fun (surrogate : Option NodeId) => ?_
  refine .bind (triple_rlock (stays_active h₁) (stays_active h₂) fun _ _ h => h)
    fun (_ : Unit) => ?_
  refine .bind (triple_read (a := .readPredecessor n) rfl (stays_active h₂)
    (Q := fun pre v => (Reads t C₂ v ∧ v.state n = .active) ∧ v.predecessor n = pre)
    (stays_predecessor h₂ h₂') fun s l w s' _ _ hv _ he => ?_) fun (pre : Option NodeId) => ?_
  · cases he
    exact ⟨hv, rfl⟩
  refine .bind (Q := fun _ s => Reads t C₂ (view ∅ s)) ?_ fun res => ?_
  · rcases ht : target n surrogate pre (hash r.key) with _ | x | _
    · exact triple_handle h₂ h₂' r ht
    · exact .pre (hcall x C₂) fun _ _ h => h.1.1
    · exact .ret (stays_reads C₂).stable fun _ _ h => h.1.1
  refine .bind (triple_runlock C₁ n _) fun (_ : Unit) => ?_
  exact .bind (triple_runlock C n _) fun (_ : Unit) => hend _

theorem triple_kvMiddleware (rounds : ℕ) : ∀ (hops : ℕ) (n : NodeId) (r : Request)
    (C : NodeId → Mutex → ℕ),
    (growing K hash tasks n₀).Triple hash fuel t (Reads t C) (kvMiddleware hash rounds hops n r)
      fun _ => Reads t C
  | 0, _, _, _ => triple_halt
  | hops + 1, n, r, C => by
    refine .bind (triple_reading (stays_reads C) (only_findSuccessor isInert_reading rounds n _))
      fun succ => ?_
    split
    · exact .ret (stays_reads C).stable fun _ _ h => h
    · exact .ret (stays_reads C).stable fun _ _ h => h
    · split_ifs
      · exact triple_kvMiddleware rounds hops _ r C
      · exact triple_serve (fun x C => triple_kvMiddleware rounds hops x r C) C n r

end Programs

end Specter
