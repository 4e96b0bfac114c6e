import Specter.Proofs.Advisory

/-!
# Fingers make lookups short

In a stable ring `fixFinger` sets each finger of a node to the owner of the point that the finger
stands for.  Once all nodes have done so, each hop of a lookup halves the way to the key.
-/

namespace Specter

open Lib (Prog Arc.Ioo Arc.Ioc)
open Lib.Machine (alone_bind alone_ret)

variable {j : ℕ}

theorem ioc_iff_cwDistance {a b x : ℕ} (ha : a < maxIdentifier) (hb : b < maxIdentifier)
    (hx : x < maxIdentifier) : Arc.Ioc a b x ↔ cwDistance a x ≤ cwDistance a b := by
  unfold Arc.Ioc Arc.Ioo cwDistance
  split_ifs <;> omega

theorem cwDistance_add {a b x : ℕ} (ha : a < maxIdentifier) (hx : x < maxIdentifier)
    (h : Arc.Ioo a b x) : cwDistance a x + cwDistance x b = cwDistance a b := by
  unfold Arc.Ioo at h
  unfold cwDistance
  split_ifs at h ⊢ <;> omega

theorem cwDistance_lt_max {a b : ℕ} (ha : a < maxIdentifier) (hb : b < maxIdentifier)
    (h : a ≠ b) : cwDistance a b < maxIdentifier := by
  unfold cwDistance
  split_ifs <;> omega

theorem cwDistance_moduloSum {n : ℕ} (hn : n < maxIdentifier) (hj : j < maxFingerEntries) :
    cwDistance n (moduloSum n (2 ^ j)) = 2 ^ j := by
  have hlt : 2 ^ j < maxIdentifier := Nat.pow_lt_pow_right (by decide) hj
  have hpos : 0 < 2 ^ j := Nat.two_pow_pos j
  have hmod : moduloSum n (2 ^ j) =
      if n + 2 ^ j < maxIdentifier then n + 2 ^ j else n + 2 ^ j - maxIdentifier := by
    rw [moduloSum, Nat.mod_eq_of_lt hn, Nat.mod_eq_of_lt hlt]
    split_ifs with h
    · exact Nat.mod_eq_of_lt h
    · rw [Nat.mod_eq_sub_mod (by omega), Nat.mod_eq_of_lt (by omega)]
  unfold cwDistance
  rw [hmod]
  split_ifs <;> omega

section Fingers

variable {K : Type} [KVProvider K] {hash : Bytes → ℕ} {fuel t : ℕ} {ok : Act → Fault → Prop}
  {s : Shared K} {n m : NodeId} {members : Finset NodeId} {pred succ : NodeId → NodeId} {key : ℕ}

/-- The finger is the member that owns the point it stands for. -/
def ExactFinger (s : Shared K) (members : Finset NodeId) (pred : NodeId → NodeId) (n : NodeId)
    (k : ℕ) : Prop :=
  ∃ f ∈ members, (s.node n).fingers k = some f ∧
    between (pred f) (moduloSum n (2 ^ (k - 1))) f true = true

theorem alone_fixFingers_exact (hn : n ∈ members) (hfuel : maxIdentifier ≤ fuel) :
    ∀ (ks : List ℕ) {s : Shared K}, StableRing s members pred succ →
      (cluster K hash fuel).Alone ok t (fun _ s' => StableRing s' members pred succ ∧
        (∀ k ∈ ks, ExactFinger s' members pred n k) ∧
        ∀ q k, q ≠ n ∨ k ∉ ks → (s'.node q).fingers k = (s.node q).fingers k)
        (fixFingers fuel n ks) s
  | [], s, hs => ⟨hs, by simp, fun _ _ _ => rfl⟩
  | k :: ks, s, hs => by
    rw [fixFingers, fixK]
    simp only [alone_bind]
    have hlt := moduloSum_lt n (2 ^ (k - 1))
    refine (alone_findSuccessor hs hn ((cwDistance_le hlt).trans hfuel)).mono ?_
    rintro r s' ⟨hss, f, hf, rfl, ho⟩
    rw [hss]
    refine fun l _ => ⟨_, _, rfl, ?_⟩
    refine (alone_fixFingers_exact hn hfuel ks (hs.setFinger k hf)).mono ?_
    rintro _ s'' ⟨hs'', hexact, hframe⟩
    refine ⟨hs'', fun k' hk' => ?_, fun q k' hq => ?_⟩
    · by_cases hks : k' ∈ ks
      · exact hexact k' hks
      obtain rfl : k' = k := (List.mem_cons.1 hk').resolve_right hks
      refine ⟨f, hf, ?_, between_eq_ioc.2 ho⟩
      rw [hframe n k' (.inr hks), node_setFinger]
      simp
    · rw [List.mem_cons, not_or] at hq
      rw [hframe q k' (hq.imp_right And.right), node_setFinger]
      rcases hq with hq | ⟨hk', -⟩
      · simp [hq]
      · by_cases hqn : q = n <;> simp [hqn, hk']

/-- Members of a stable ring that fill their fingers, in any order, leave it stable and each with
exact fingers; nothing else is filled. -/
theorem fingers_repaired (hfuel : maxIdentifier ≤ fuel) : ∀ (order : List NodeId) {s : Shared K},
    (∀ n ∈ order, n ∈ members) → StableRing s members pred succ →
      (cluster K hash fuel).Alone ok t (fun _ s' => StableRing s' members pred succ ∧
        (∀ n ∈ order, ∀ k ∈ fingerIndices, ExactFinger s' members pred n k) ∧
        ∀ q k, q ∉ order ∨ k ∉ fingerIndices → (s'.node q).fingers k = (s.node q).fingers k)
        (forM order (fixFinger fuel)) s
  | [], s, _, hs => ⟨hs, by simp, fun _ _ _ => rfl⟩
  | n :: rest, s, hmem, hs => by
    rw [List.forall_mem_cons] at hmem
    rw [List.forM_cons, alone_bind]
    refine (alone_fixFingers_exact hmem.1 hfuel fingerIndices hs).mono ?_
    rintro _ s₁ ⟨hs₁, hexact, hframe⟩
    refine (fingers_repaired hfuel rest hmem.2 hs₁).mono ?_
    rintro _ s₂ ⟨hs₂, hexact', hframe'⟩
    refine ⟨hs₂, fun m hm k hk => ?_, fun q k hq => ?_⟩
    · by_cases hrest : m ∈ rest
      · exact hexact' m hrest k hk
      obtain rfl : m = n := (List.mem_cons.1 hm).resolve_right hrest
      rw [ExactFinger, hframe' m k (.inl hrest)]
      exact hexact k hk
    · rw [List.mem_cons, not_or] at hq
      rw [hframe' q k (hq.imp_left And.right), hframe q k (hq.imp_left And.left)]

theorem fingers_repaired_twoNodes :
    (cluster _ (fun _ => 0) maxIdentifier).Alone (fun _ _ => True) 0
      (fun _ s' => ∀ n ∈ [300, 7], ∀ k ∈ fingerIndices,
        ExactFinger s' {7, 300} (fun n => if n = 7 then 300 else 7) n k)
      (forM [300, 7] (fixFinger maxIdentifier)) twoNodes :=
  (fingers_repaired le_rfl [300, 7] (by decide) twoNodes_stable).mono fun _ _ h => h.2.1

omit [KVProvider K] in
theorem ExactFinger.spec (hs : StableRing s members pred succ) (hn : n ∈ members)
    (hj : j < maxFingerEntries) (h : ExactFinger s members pred n (j + 1)) :
    ∃ f ∈ members, (s.node n).fingers (j + 1) = some f ∧ (f ≠ n → 2 ^ j ≤ cwDistance n f) ∧
      ∀ p ∈ members, 2 ^ j ≤ cwDistance n p → Arc.Ioc n p f := by
  obtain ⟨f, hf, hfinger, ho⟩ := h
  rw [between_eq_ioc, Nat.add_sub_cancel] at ho
  have hy := moduloSum_lt n (2 ^ j)
  have hdist := cwDistance_moduloSum (hs.below n hn) hj
  have hempty := (hs.pred_gap f hf).empty
  refine ⟨f, hf, hfinger, fun hne => ?_, fun p hp hle => ?_⟩
  · rw [← hdist, ← ioc_iff_cwDistance (hs.below n hn) (hs.below f hf) hy]
    have hgap := hempty n hn
    unfold Arc.Ioc Arc.Ioo at *
    grind
  · rw [← hdist, ← ioc_iff_cwDistance (hs.below n hn) (hs.below p hp) hy] at hle
    have hgap := hempty n hn
    have hgap' := hempty p hp
    unfold Arc.Ioc Arc.Ioo at *
    grind

omit [KVProvider K] in
/-- The predecessor of the key's owner is the last member before the key. -/
theorem StableRing.ioo_pred (hs : StableRing s members pred succ) (hm : m ∈ members)
    (ho : Arc.Ioc (pred m) m key) (hn : n ∈ members) (hne : n ≠ pred m) {c : NodeId}
    (hc : c ∈ members) : Arc.Ioo n key c ↔ Arc.Ioc n (pred m) c := by
  have hempty := (hs.pred_gap m hm).empty
  have h1 := hempty n hn
  have h2 := hempty c hc
  unfold Arc.Ioc Arc.Ioo at *
  grind

theorem alone_closestPrecedingNode_far (hs : StableRing s members pred succ) (hm : m ∈ members)
    (ho : Arc.Ioc (pred m) m key) (hn : n ∈ members) (hne : n ≠ pred m)
    (hexact : ∀ k ∈ fingerIndices, ExactFinger s members pred n k) {j : ℕ}
    (hj : 2 ^ j ≤ cwDistance n (pred m)) : ∀ k, j < k → k ≤ maxFingerEntries →
    (cluster K hash fuel).Alone ok t (fun c s' => s' = s ∧ c ∈ members ∧ c ≠ n ∧
      Arc.Ioc n (pred m) c ∧ 2 ^ j ≤ cwDistance n c) (closestPrecedingNode n key k) s
  | 0, hk, _ => absurd hk (Nat.not_lt_zero j)
  | k + 1, hk, hle => by
    obtain ⟨f, hf, hfinger, hfar, hnear⟩ :=
      (hexact (k + 1) (List.mem_map.2 ⟨k, List.mem_range.2 hle, rfl⟩)).spec hs hn hle
    rw [closestPrecedingNode, alone_bind]
    refine alone_getFinger ?_
    rw [hfinger]
    dsimp only
    split_ifs with hb
    · have hioo := between_eq_ioo.1 hb
      have hfn : f ≠ n := by
        rintro rfl
        exact Lib.Arc.not_ioo_left _ _ hioo
      refine ⟨rfl, hf, hfn, (hs.ioo_pred hm ho hn hne hf).1 hioo, ?_⟩
      exact (Nat.pow_le_pow_right (by decide) (by omega)).trans (hfar hfn)
    · rcases Nat.lt_succ_iff_lt_or_eq.1 hk with hlt | rfl
      · exact alone_closestPrecedingNode_far hs hm ho hn hne hexact hj k hlt (by omega)
      · -- the finger that stands for the largest step not beyond the predecessor
        have hmem : pred m ∈ members := (hs.pred_gap m hm).left
        exact absurd (between_eq_ioo.2 ((hs.ioo_pred hm ho hn hne hf).2 (hnear _ hmem hj))) hb

theorem alone_lookupStep_halves (hs : StableRing s members pred succ) (hm : m ∈ members)
    (ho : Arc.Ioc (pred m) m key) (hn : n ∈ members)
    (hexact : ∀ k ∈ fingerIndices, ExactFinger s members pred n k)
    (hd : n ≠ pred m → j < maxFingerEntries ∧ 2 ^ j ≤ cwDistance n (pred m) ∧
      cwDistance n (pred m) < 2 ^ (j + 1)) :
    (cluster K hash fuel).Alone ok t (fun h s' => s' = s ∧ (h = .found m ∨ n ≠ pred m ∧
      ∃ c ∈ members, h = .forward c ∧ (c = pred m ∨ cwDistance c (pred m) < 2 ^ j)))
      (lookupStep n key) s := by
  simp only [lookupStep, checkNodeState, alone_bind]
  refine alone_loadState ?_
  simp only [Prog.pure_eq, alone_ret, hs.running n hn, alone_bind]
  refine alone_getPredecessor (hs.unlocked n hn) ?_
  rw [hs.predecessor n hn]
  by_cases hb : inOwnRange (some (pred n)) key n = true
  · rw [if_pos hb]
    refine ⟨rfl, .inl (congrArg _ ?_)⟩
    exact (hs.pred_gap n hn).eq_of_ioc (hs.pred_gap m hm) (between_eq_ioc.1 hb) ho
  rw [if_neg hb]
  simp only [getSuccessor, Prog.pure_eq, alone_bind]
  refine alone_getSuccessors ?_
  simp only [alone_ret, hs.successor n hn]
  split_ifs with hb'
  · refine ⟨rfl, .inl (congrArg _ ?_)⟩
    exact (hs.succ_gap n hn).eq_of_ioc (hs.pred_gap m hm) (between_eq_ioc.1 hb') ho
  have hne : n ≠ pred m := by
    rintro rfl
    rw [(hs.succ_gap _ hn).succ_unique (hs.pred_gap m hm)] at hb'
    exact hb' (between_eq_ioc.2 ho)
  obtain ⟨hj, hle, hlt⟩ := hd hne
  rw [alone_bind]
  refine (alone_closestPrecedingNode_far hs hm ho hn hne hexact hle maxFingerEntries hj
    le_rfl).mono ?_
  rintro c s' ⟨rfl, hc, hcn, hioc, hfar⟩
  refine ⟨rfl, .inr ⟨hne, c, hc, by rw [if_neg hcn], ?_⟩⟩
  rcases hioc with hioo | rfl
  · have hadd := cwDistance_add (hs.below n hn) (hs.below c hc) hioo
    rw [Nat.pow_succ] at hlt
    exact .inr (by omega)
  · exact .inl rfl

theorem alone_findSuccessor_halves (hs : StableRing s members pred succ) (hm : m ∈ members)
    (ho : Arc.Ioc (pred m) m key)
    (hexact : ∀ n ∈ members, ∀ k ∈ fingerIndices, ExactFinger s members pred n k) :
    ∀ {i rounds : ℕ} {n : NodeId}, n ∈ members → i ≤ maxFingerEntries → i < rounds →
      n = pred m ∨ cwDistance n (pred m) < 2 ^ i →
      (cluster K hash fuel).Alone ok t (fun r s' => r = .ok m ∧ s' = s)
        (findSuccessor rounds n key) s
  | _, 0, _, _, _, hr, _ => absurd hr (Nat.not_lt_zero _)
  | 0, rounds + 1, n, hn, _, _, hd => by
    have hpos := cwDistance_pos (hs.below n hn) (pred m)
    have hp : n = pred m := hd.resolve_right (by omega)
    rw [findSuccessor, alone_bind]
    refine (alone_lookupStep_halves (j := 0) hs hm ho hn (hexact n hn) fun h => absurd hp h).mono ?_
    rintro h s' ⟨hss, rfl | ⟨hne, -⟩⟩
    · exact ⟨rfl, hss⟩
    · exact absurd hp hne
  | i + 1, rounds + 1, n, hn, hi, hr, hd => by
    by_cases hnear : n = pred m ∨ cwDistance n (pred m) < 2 ^ i
    · exact alone_findSuccessor_halves hs hm ho hexact hn (by omega) (by omega) hnear
    rw [not_or, not_lt] at hnear
    rw [findSuccessor, alone_bind]
    refine (alone_lookupStep_halves (j := i) hs hm ho hn (hexact n hn)
      fun h => ⟨hi, hnear.2, hd.resolve_left h⟩).mono ?_
    rintro h s' ⟨hss, rfl | ⟨-, c, hc, rfl, hc'⟩⟩
    · exact ⟨rfl, hss⟩
    · rw [hss]
      exact alone_findSuccessor_halves hs hm ho hexact hc (by omega) (by omega) hc'

/-- In a stable ring with exact fingers every lookup, from any member, is answered by the owner of
the key within one round more than an identifier has bits. -/
theorem findSuccessor_logarithmic (hs : StableRing s members pred succ) (hne : members.Nonempty)
    (hexact : ∀ n ∈ members, ∀ k ∈ fingerIndices, ExactFinger s members pred n k) :
    ∀ key, ∃ m ∈ members, between (pred m) key m true = true ∧
      ∀ n ∈ members, ∀ rounds > maxFingerEntries, (cluster K hash fuel).Alone ok t
        (fun r s' => r = .ok m ∧ s' = s) (findSuccessor rounds n key) s := by
  intro key
  obtain ⟨p, m, hg, hkey⟩ :=
    Lib.Arc.exists_gap members.finite_toSet (Finset.coe_nonempty.2 hne) key
  have hm : m ∈ members := hg.right
  obtain rfl := (hs.pred_gap m hm).pred_unique hg
  refine ⟨m, hm, between_eq_ioc.2 hkey, fun n hn rounds hr => ?_⟩
  refine alone_findSuccessor_halves hs hm hkey hexact hn le_rfl hr ?_
  by_cases hp : n = pred m
  · exact .inl hp
  · exact .inr (cwDistance_lt_max (hs.below n hn) (hs.below _ hg.left) hp)

end Fingers

def twoNodesFilled : Shared (MemoryKV fun _ => 0) where
  node n := { twoNodes.node n with
    fingers := fun k => some (if between 7 (moduloSum n (2 ^ (k - 1))) 300 true then 300 else 7) }
  mailbox := []
  trace := []

theorem findSuccessor_twoNodesFilled :
    (∀ n ∈ ({7, 300} : Finset NodeId), ∀ k ∈ fingerIndices,
      ExactFinger twoNodesFilled {7, 300} (fun n => if n = 7 then 300 else 7) n k) ∧
    ∃ m ∈ ({7, 300} : Finset NodeId), between (if m = 7 then 300 else 7) 1000 m true = true ∧
      (cluster _ (fun _ => 0) 0).Alone (fun _ _ => True) 0
        (fun r s' => r = .ok m ∧ s' = twoNodesFilled) (findSuccessor 49 300 1000)
        twoNodesFilled := by
  have hexact : ∀ n ∈ ({7, 300} : Finset NodeId), ∀ k ∈ fingerIndices,
      ExactFinger twoNodesFilled {7, 300} (fun n => if n = 7 then 300 else 7) n k := by
    intro n _ k _
    refine ⟨_, ?_, rfl, ?_⟩ <;> split_ifs <;> grind [between]
  have hs : StableRing twoNodesFilled {7, 300} (fun n => if n = 7 then 300 else 7)
      (fun n => if n = 7 then 300 else 7) :=
    { twoNodes_stable with fingers := by simp [twoNodesFilled] }
  obtain ⟨m, hm, ho, h⟩ := findSuccessor_logarithmic hs (by simp) hexact 1000
  exact ⟨hexact, m, hm, ho, h 300 (by simp) 49 (by decide)⟩

end Specter
