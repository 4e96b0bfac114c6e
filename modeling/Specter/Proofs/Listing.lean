import Specter.Proofs.Lookup
import Specter.Listing
import Mathlib.Algebra.BigOperators.Group.Finset.Basic

/-!
# Listing the keys of the ring is complete

In a ring of true neighbours the walk goes once round the ring (`alone_walkRing`).  Whatever the
order in which the nodes answer, each is asked once and all they list comes out (`Group.run_spec`).
With any pointers at all the walk ends (`walkRing_ends`).
-/

namespace Specter

open Lib (Prog Arc.Ioo Arc.Ioc Arc.Gap)

theorem nodup_snoc {l : List NodeId} {m : NodeId} (h : l.Nodup) (hm : m ∉ l) :
    (l ++ [m]).Nodup := by
  rw [← List.concat_eq_append]
  exact h.concat hm

theorem moduloSum_one {x : ℕ} (hx : x < maxIdentifier) :
    moduloSum x 1 = if x + 1 = maxIdentifier then 0 else x + 1 := by
  have h1 : (1 : ℕ) % maxIdentifier = 1 := by decide
  rw [moduloSum, Nat.mod_eq_of_lt hx, h1]
  split_ifs with h
  · rw [h, Nat.mod_self]
  · exact Nat.mod_eq_of_lt (by omega)

theorem ioc_moduloSum_one {x y : ℕ} (hx : x < maxIdentifier) (hy : y < maxIdentifier) :
    Arc.Ioc x y (moduloSum x 1) := by
  rw [moduloSum_one hx]
  unfold Arc.Ioc Arc.Ioo
  split_ifs <;> omega

section Walk

variable {K : Type} [KVProvider K] {hash : Bytes → ℕ} {fuel t : ℕ} {ok : Act → Fault → Prop}
  {s : Shared K} {members : Finset NodeId} {pred succ : NodeId → NodeId} {n : NodeId}

/-- The walk has got to `cur` and collected the members clockwise after `n` up to there. -/
structure WalkedTo (members : Finset NodeId) (n cur : NodeId) (nodes : List NodeId) : Prop where
  mem : cur ∈ members
  nodup : nodes.Nodup
  start : cur = n → nodes = []
  nodes : cur ≠ n → ∀ m, m ∈ nodes ↔ m ∈ members ∧ Arc.Ioc n cur m

namespace WalkedTo

variable {cur nxt : NodeId} {nodes : List NodeId}

theorem begin (hn : n ∈ members) : WalkedTo members n n [] :=
  ⟨hn, .nil, fun _ => rfl, fun h => absurd rfl h⟩

section

variable (h : WalkedTo members n cur nodes)

include h

theorem notMem : n ∉ nodes := by
  by_cases hc : cur = n
  · simp [h.start hc]
  · rw [h.nodes hc]
    rintro ⟨-, hi | he⟩
    exacts [Lib.Arc.not_ioo_left _ _ hi, hc he.symm]

theorem length_lt (hn : n ∈ members) : nodes.length < members.card := by
  have hsub : (n :: nodes).toFinset ⊆ members := by
    intro m hm
    rw [List.mem_toFinset, List.mem_cons] at hm
    rcases hm with rfl | hm
    · exact hn
    by_cases hc : cur = n
    · simp [h.start hc] at hm
    · exact ((h.nodes hc m).1 hm).1
  have := Finset.card_le_card hsub
  rwa [List.toFinset_card_of_nodup (List.nodup_cons.2 ⟨h.notMem, h.nodup⟩)] at this

theorem notMem_next (hn : n ∈ members) (hg : Arc.Gap (members : Set NodeId) cur nxt) :
    nxt ∉ nodes := by
  by_cases hc : cur = n
  · simp [h.start hc]
  · rw [h.nodes hc]
    exact fun hm => hg.not_ioc_next hn hc hm.2

theorem next (hn : n ∈ members) (hg : Arc.Gap (members : Set NodeId) cur nxt) (hnxt : nxt ≠ n) :
    WalkedTo members n nxt (nodes ++ [nxt]) where
  mem := hg.right
  nodup := nodup_snoc h.nodup (h.notMem_next hn hg)
  start he := absurd he hnxt
  nodes _ m := by
    rw [List.mem_append, List.mem_singleton]
    by_cases hc : cur = n
    · subst hc
      simp only [h.start rfl, List.not_mem_nil, false_or]
      constructor
      · rintro rfl
        exact ⟨hg.right, .inr rfl⟩
      · rintro ⟨hm, hi | he⟩
        exacts [absurd hi (hg.empty m hm), he]
    · rw [h.nodes hc]
      constructor
      · rintro (⟨hm, hi⟩ | rfl)
        · exact ⟨hm, (hg.ioc_extend hn hm hc).2 (.inl hi)⟩
        · exact ⟨hg.right, .inr rfl⟩
      · rintro ⟨hm, hi⟩
        rcases (hg.ioc_extend hn hm hc).1 hi with hi | he
        exacts [.inl ⟨hm, hi⟩, .inr he]

theorem back (hg : Arc.Gap (members : Set NodeId) cur n) (m : NodeId) :
    m ∈ nodes ++ [n] ↔ m ∈ members := by
  have hn : n ∈ members := hg.right
  rw [List.mem_append, List.mem_singleton]
  by_cases hc : cur = n
  · subst hc
    simp only [h.start rfl, List.not_mem_nil, false_or]
    constructor
    · rintro rfl
      exact hn
    · intro hm
      by_contra hne
      exact hg.empty m hm (Lib.Arc.ioo_self.2 hne)
  · rw [h.nodes hc]
    constructor
    · rintro (⟨hm, -⟩ | rfl)
      exacts [hm, hn]
    · intro hm
      rcases (hg.ioc_extend hn hm hc).1 (Lib.Arc.ioc_self n m) with hi | he
      exacts [.inl ⟨hm, hi⟩, .inr he]

end

end WalkedTo

theorem alone_walkRing (hs : StableRing s members pred succ) (hn : n ∈ members)
    (hfuel : maxIdentifier ≤ fuel) : ∀ {steps : ℕ} {cur : NodeId} {nodes : List NodeId},
      WalkedTo members n cur nodes → members.card ≤ nodes.length + steps →
      (cluster K hash fuel).Alone ok t (fun r s' => s' = s ∧ ∃ l, r = .ok l ∧ l.Nodup ∧
        ∀ m, m ∈ l ↔ m ∈ members) (walkRing fuel n steps cur nodes) s
  | 0, _, nodes, h, hc => by
    have := h.length_lt hn
    omega
  | steps + 1, cur, nodes, h, hc => by
    rw [walkRing, Lib.Machine.alone_bind]
    have hkey : moduloSum cur 1 < maxIdentifier := Nat.mod_lt _ (by decide)
    refine (alone_findSuccessor hs hn ((cwDistance_le hkey).trans hfuel)).mono ?_
    rintro r s' ⟨hss, nxt, hnxt, rfl, hown⟩
    rw [hss]
    -- the owner of the identifier after `cur` is the next member
    have hgap := hs.succ_gap cur h.mem
    have hnext : nxt = succ cur := (hs.pred_gap nxt hnxt).eq_of_ioc hgap hown
      (ioc_moduloSum_one (hs.below cur h.mem) (hs.below _ hgap.right))
    rw [← hnext] at hgap
    dsimp only
    split_ifs with hback hseen
    · subst hback
      exact ⟨rfl, _, rfl, nodup_snoc h.nodup h.notMem, h.back hgap⟩
    · exact absurd hseen (h.notMem_next hn hgap)
    · refine alone_walkRing hs hn hfuel (h.next hn hgap hback) ?_
      rw [List.length_append, List.length_singleton]
      omega

end Walk

theorem walkRing_ends {fuel : ℕ} {n : NodeId} {nodes : Finset NodeId} (hn : n ∈ nodes)
    (hb : ∀ m ∈ nodes, m < maxIdentifier) (hfuel : maxIdentifier ≤ fuel) :
    ∀ {steps : ℕ} {cur : NodeId} {seen : List NodeId}, seen.Nodup → n ∉ seen →
      (∀ m ∈ seen, m ∈ nodes) → nodes.card ≤ seen.length + steps →
      (walkRing fuel n steps cur seen).AllAnswers (Within (· ∈ nodes)) fun _ => True
  | 0, _, seen, hd, hns, hsub, hc => by
    have hle : (n :: seen).toFinset ⊆ nodes := by
      intro m hm
      rw [List.mem_toFinset, List.mem_cons] at hm
      rcases hm with rfl | hm
      exacts [hn, hsub m hm]
    have := Finset.card_le_card hle
    rw [List.toFinset_card_of_nodup (List.nodup_cons.2 ⟨hns, hd⟩), List.length_cons] at this
    omega
  | steps + 1, cur, seen, hd, hns, hsub, hc => by
    rw [walkRing, Prog.allAnswers_bind]
    have hkey : moduloSum cur 1 < maxIdentifier := Nat.mod_lt _ (by decide)
    refine (findSuccessor_returns (P := (· ∈ nodes)) hb hn
      ((cwDistance_le hkey).trans hfuel)).mono ?_
    rintro (e | nxt) hr
    · trivial
    dsimp only
    split_ifs with hback hseen
    · trivial
    · trivial
    · refine walkRing_ends hn hb hfuel (nodup_snoc hd hseen) ?_ ?_ ?_
      · rw [List.mem_append, List.mem_singleton]
        rintro (h | h)
        exacts [hns h, hback h.symm]
      · intro m hm
        rw [List.mem_append, List.mem_singleton] at hm
        rcases hm with hm | rfl
        exacts [hsub m hm, hr m rfl]
      · rw [List.length_append, List.length_singleton]
        omega

namespace Group

variable {ask : NodeId → Except ChordError (List KeyComposite)} {nodes : List NodeId} {g g' : Group}
  {entries : NodeId → List KeyComposite} {e : Event}

theorem step_cases (h : g.step ask e = some g') :
    (∃ m rest, g.waiting = m :: rest ∧
      g' = { g with waiting := rest, running := g.running ++ [m] }) ∨
    ∃ i m, g.running[i]? = some m ∧
      ((∃ keys, ask m = .ok keys ∧ g' = { g with
          running := g.running.eraseIdx i, asked := m :: g.asked,
          received := g.received ++ keys }) ∨
        ∃ x, ask m = .error x ∧ g' = { g with
          running := g.running.eraseIdx i, asked := m :: g.asked, err := g.err.or (some x) }) := by
  cases e with
  | go =>
    simp only [step] at h
    rcases hw : g.waiting with _ | ⟨m, rest⟩
    · simp [hw] at h
    rw [hw] at h
    dsimp only at h
    split_ifs at h
    cases h
    exact .inl ⟨m, rest, rfl, rfl⟩
  | answer i =>
    simp only [step] at h
    rcases hr : g.running[i]? with _ | m
    · simp [hr] at h
    rw [hr] at h
    dsimp only at h
    refine .inr ⟨i, m, hr, ?_⟩
    rcases ha : ask m with x | keys
    · rw [ha] at h
      cases h
      exact .inr ⟨x, rfl, rfl⟩
    · rw [ha] at h
      cases h
      exact .inl ⟨keys, rfl, rfl⟩

/-- Every node is waiting, being asked, or has been asked, and all the answers so far are in. -/
structure Gathers (nodes : List NodeId) (entries : NodeId → List KeyComposite) (g : Group) :
    Prop where
  nodes : (g.asked ++ (g.running ++ g.waiting)).Perm nodes
  received : g.received.Perm (g.asked.flatMap entries)
  err : g.err = none

theorem step_gathers (hask : ∀ m ∈ nodes, ask m = .ok (entries m)) (h : Gathers nodes entries g)
    (he : g.step ask e = some g') : Gathers nodes entries g' := by
  obtain ⟨m, rest, hw, rfl⟩ | ⟨i, m, hr, ha⟩ := step_cases he
  · refine ⟨?_, h.received, h.err⟩
    have := h.nodes
    rw [hw] at this
    simpa using this
  · obtain ⟨hi, hm⟩ := List.getElem?_eq_some_iff.1 hr
    have hmem : m ∈ nodes := h.nodes.subset (by simp [← hm])
    rw [hask m hmem] at ha
    obtain ⟨keys, hk, rfl⟩ | ⟨x, hx, -⟩ := ha
    swap
    · cases hx
    cases hk
    -- the node moves from the running to the asked ones
    have hperm : g.running.Perm (m :: g.running.eraseIdx i) := by
      rw [← hm]
      exact (List.getElem_cons_eraseIdx_perm hi).symm
    refine ⟨?_, ?_, h.err⟩
    · refine List.Perm.trans ?_ h.nodes
      refine List.Perm.trans List.perm_middle.symm ?_
      exact (hperm.symm.append_right _).append_left _
    · rw [List.flatMap_cons]
      exact List.perm_append_comm.trans (h.received.append_left _)

theorem run_gathers (hask : ∀ m ∈ nodes, ask m = .ok (entries m)) :
    ∀ {es : List Event} {g g' : Group}, Gathers nodes entries g → run ask es g = some g' →
      Gathers nodes entries g'
  | [], _, _, h, hr => by
    cases hr
    exact h
  | e :: es, g, g', h, hr => by
    obtain ⟨g₁, h₁, h₂⟩ := Option.bind_eq_some_iff.1 hr
    exact run_gathers hask (step_gathers hask h h₁) h₂

theorem gathers_start : Gathers nodes entries (start nodes) :=
  ⟨by simp [start], by simp [start], rfl⟩

def work (g : Group) : ℕ := 2 * g.waiting.length + g.running.length

theorem step_work (he : g.step ask e = some g') : g'.work < g.work := by
  obtain ⟨m, rest, hw, rfl⟩ | ⟨i, m, hr, ha⟩ := step_cases he
  · simp only [work, hw, List.length_cons, List.length_append, List.length_nil]
    omega
  · obtain ⟨hi, -⟩ := List.getElem?_eq_some_iff.1 hr
    have hlen := List.length_eraseIdx_of_lt hi
    obtain ⟨keys, -, rfl⟩ | ⟨x, -, rfl⟩ := ha <;> simp only [work, hlen] <;> omega

theorem run_work : ∀ {es : List Event} {g g' : Group}, run ask es g = some g' →
    es.length + g'.work ≤ g.work
  | [], _, _, hr => by
    cases hr
    simp
  | e :: es, g, g', hr => by
    obtain ⟨g₁, h₁, h₂⟩ := Option.bind_eq_some_iff.1 hr
    have hlt := step_work h₁
    have hle := run_work h₂
    rw [List.length_cons]
    omega

theorem exists_step (h : g.finished = false) : ∃ e, (g.step ask e).isSome := by
  rcases hr : g.running with _ | ⟨m, rest⟩
  · rcases hw : g.waiting with _ | ⟨m, rest⟩
    · simp [finished, hr, hw] at h
    · exact ⟨.go, by simp [step, hw, hr, limit]⟩
  · refine ⟨.answer 0, ?_⟩
    simp only [step, hr, List.getElem?_cons_zero]
    rcases ask m with e | keys <;> rfl

end Group

theorem coe_flatMap_eq_sum (entries : NodeId → List KeyComposite) : ∀ l : List NodeId,
    ((l.flatMap entries : List KeyComposite) : Multiset KeyComposite) =
      (l.map fun m => (entries m : Multiset KeyComposite)).sum
  | [] => rfl
  | m :: l => by
    rw [List.flatMap_cons, ← Multiset.coe_add, coe_flatMap_eq_sum entries l, List.map_cons,
      List.sum_cons]

section Call

variable {K : Type} [KVProvider K] [KeyLister K] {hash : Bytes → ℕ} {fuel t : ℕ}
  {ok : Act → Fault → Prop} {s : Shared K} {members : Finset NodeId} {pred succ : NodeId → NodeId}

/-- What the queries of a finished group come to: every member was asked once, and the answer is
all that the members list. -/
structure Complete (members : Finset NodeId) (entries : NodeId → List KeyComposite) (g : Group) :
    Prop where
  asked : ∀ m, g.asked.count m = if m ∈ members then 1 else 0
  result : ∃ keys, g.result = .ok keys ∧
    (keys : Multiset KeyComposite) = ∑ m ∈ members, (entries m : Multiset KeyComposite)

omit [KVProvider K] in
theorem complete_of_run {nodes : List NodeId} {pfx : Bytes} {entries : NodeId → List KeyComposite}
    {es : List Group.Event} {g : Group} (hnd : nodes.Nodup) (hmem : ∀ m, m ∈ nodes ↔ m ∈ members)
    (hactive : ∀ m ∈ members, (s.node m).state.state = .active)
    (hlist : ∀ m ∈ members, KeyLister.listKeys pfx (s.node m).kv = .ok (entries m))
    (hrun : Group.run (fun m => (s.node m).listDirect pfx) es (.start nodes) = some g)
    (hfin : g.finished = true) : Complete members entries g := by
  have hask : ∀ m ∈ nodes, (s.node m).listDirect pfx = .ok (entries m) := by
    intro m hm
    rw [Node.listDirect, hactive m ((hmem m).1 hm)]
    exact hlist m ((hmem m).1 hm)
  have hg := Group.run_gathers hask Group.gathers_start hrun
  have hperm : g.asked.Perm nodes := by
    have := hg.nodes
    simp only [Group.finished, Bool.and_eq_true, List.isEmpty_iff] at hfin
    rwa [hfin.1, hfin.2, List.append_nil, List.append_nil] at this
  refine ⟨fun m => ?_, g.received, by rw [Group.result, hg.err], ?_⟩
  · rw [hperm.count_eq]
    split_ifs with h
    · exact List.count_eq_one_of_mem hnd ((hmem m).2 h)
    · exact List.count_eq_zero_of_not_mem (mt (hmem m).1 h)
  · have hset : nodes.toFinset = members := by
      ext m
      rw [List.mem_toFinset, hmem]
    rw [← hset, List.sum_toFinset _ hnd, ← coe_flatMap_eq_sum]
    exact Multiset.coe_eq_coe.2 (hg.received.trans (hperm.flatMap_right _))

/-- In a ring of Active nodes that know their true neighbours `ListKeys` walks once round the ring
from any node, and however the answers come in, it has then asked every member once and returns what
they list, taken together; the queries cannot get stuck or go on for ever.  With any pointers at all
the walk makes at most as many lookups as there are nodes. -/
theorem listKeys_complete (hs : StableRing s members pred succ) (hfuel : maxIdentifier ≤ fuel)
    (hactive : ∀ m ∈ members, (s.node m).state.state = .active) (pfx : Bytes)
    (entries : NodeId → List KeyComposite)
    (hlist : ∀ m ∈ members, KeyLister.listKeys pfx (s.node m).kv = .ok (entries m)) :
    (∀ n ∈ members, ∀ steps ≥ members.card,
      (cluster K hash fuel).Alone ok t (fun r s' => s' = s ∧ ∃ nodes, r = .ok nodes ∧
        ∀ es g, Group.run (fun m => (s.node m).listDirect pfx) es (.start nodes) = some g →
          es.length ≤ 2 * members.card ∧
          (g.finished = false → ∃ e, (g.step (fun m => (s.node m).listDirect pfx) e).isSome) ∧
          (g.finished = true → Complete members entries g))
        (walkRing fuel n steps n []) s) ∧
    ∀ nodes : Finset NodeId, (∀ m ∈ nodes, m < maxIdentifier) → ∀ n ∈ nodes,
      ∀ steps ≥ nodes.card,
        (walkRing fuel n steps n []).AllAnswers (Within (· ∈ nodes)) fun _ => True := by
  constructor
  · intro n hn steps hsteps
    refine (alone_walkRing hs hn hfuel (.begin hn) (by simpa using hsteps)).mono ?_
    rintro r s' ⟨rfl, nodes, rfl, hnd, hmem⟩
    refine ⟨rfl, nodes, rfl, fun es g hrun => ⟨?_, Group.exists_step, fun hfin => ?_⟩⟩
    · have hset : nodes.toFinset = members := by
        ext m
        rw [List.mem_toFinset, hmem]
      have hlen : nodes.length = members.card := by
        rw [← hset, List.toFinset_card_of_nodup hnd]
      have hle := Group.run_work hrun
      simp only [Group.start, Group.work, List.length_nil] at hle
      omega
    · exact complete_of_run hnd hmem hactive hlist hrun hfin
  · intro nodes hb n hn steps hsteps
    exact walkRing_ends hn hb hfuel .nil (by simp) (by simp) (by simpa using hsteps)

end Call

def twoStores : Shared (MemoryKV fun _ => 0) := twoNodesWith fun n =>
  (KVProvider.handle (.put [1, if n = 7 then 0 else 9] (some [2])) KVProvider.empty).2

theorem twoStores_stable : StableRing twoStores {7, 300} (fun n => if n = 7 then 300 else 7)
    (fun n => if n = 7 then 300 else 7) := twoNodesWith_stable _

theorem listKeys_complete_twoStores :
    (StableRing twoStores {7, 300} (fun n => if n = 7 then 300 else 7)
        (fun n => if n = 7 then 300 else 7) ∧
      (twoStores.node 7).kv.listKeys [1] = [⟨[1, 0], .simple⟩] ∧
      (twoStores.node 300).kv.listKeys [1] = [⟨[1, 9], .simple⟩]) ∧
    (cluster _ (fun _ => 0) maxIdentifier).Alone (fun _ _ => True) 0
      (fun r s' => s' = twoStores ∧ ∃ nodes, r = .ok nodes ∧
        ∀ es g, Group.run (fun m => (twoStores.node m).listDirect [1]) es (.start nodes) = some g →
          es.length ≤ 4 ∧ (g.finished = true →
            Complete {7, 300} (fun m => (twoStores.node m).kv.listKeys [1]) g))
      (walkRing maxIdentifier 300 2 300 []) twoStores := by
  refine ⟨⟨twoStores_stable, by decide +kernel, by decide +kernel⟩, ?_⟩
  refine ((listKeys_complete twoStores_stable le_rfl (by decide) [1] _ fun _ _ => rfl).1 300
    (by simp) 2 (by decide)).mono ?_
  rintro r s' ⟨hs, nodes, hr, h⟩
  exact ⟨hs, nodes, hr, fun es g hrun => ⟨(h es g hrun).1, (h es g hrun).2.2⟩⟩

end Specter
