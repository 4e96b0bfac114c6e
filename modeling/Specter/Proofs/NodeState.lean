import Mathlib.Data.List.Induction
import Mathlib.Data.List.Nodup
import Specter.NodeState

/-!
# Transitions of a node's state are linearizable

A swap that expects the word with index `k` succeeds only as the next change after the `k`-th,
whatever its call has loaded.  So the successful swaps form one chain, each index is stored by the
call that swapped to it, and the history is that chain.
-/

namespace Specter

/-- The word of a state after so many changes. -/
def StateWord.pack (w : StateWord) : UInt64 := (UInt64.ofNat w.index <<< 4) ||| w.state.toUInt64

theorem State.toUInt64_lt (s : State) : s.toUInt64.toNat < 16 := by cases s <;> decide

theorem State.ofUInt64_toUInt64 (s : State) : State.ofUInt64 s.toUInt64 = s := by cases s <;> rfl

theorem toNat_shift_or {k : ℕ} (hk : k < 2 ^ 60) (s : State) :
    ((UInt64.ofNat k <<< 4) ||| s.toUInt64).toNat = k * 16 + s.toUInt64.toNat := by
  have hs := s.toUInt64_lt
  have hshift : (UInt64.ofNat k <<< 4).toNat = k <<< 4 := by
    rw [UInt64.toNat_shiftLeft, UInt64.toNat_ofNat']
    simp [Nat.shiftLeft_eq]
    omega
  rw [UInt64.toNat_or, hshift, ← Nat.shiftLeft_add_eq_or_of_lt hs, Nat.shiftLeft_eq]

variable {k : ℕ} (hk : k < 2 ^ 60) (s : State)

include hk

theorem pack_index : StateWord.pack ⟨k, s⟩ >>> 4 = UInt64.ofNat k := by
  have hs := s.toUInt64_lt
  rw [← UInt64.toNat_inj, UInt64.toNat_shiftRight, StateWord.pack, toNat_shift_or hk,
    UInt64.toNat_ofNat']
  simp [Nat.shiftRight_eq_div_pow]
  omega

theorem pack_state : State.ofUInt64 (StateWord.pack ⟨k, s⟩ &&& 0b1111) = s := by
  have hs := s.toUInt64_lt
  have hand : StateWord.pack ⟨k, s⟩ &&& 0b1111 = s.toUInt64 := by
    rw [← UInt64.toNat_inj, UInt64.toNat_and, StateWord.pack, toNat_shift_or hk]
    have := Nat.and_two_pow_sub_one_eq_mod (k * 16 + s.toUInt64.toNat) 4
    simp at this ⊢
    omega
  rw [hand, State.ofUInt64_toUInt64]

theorem pack_injective {j : ℕ} {t : State} (hj : j < 2 ^ 60)
    (h : StateWord.pack ⟨k, s⟩ = StateWord.pack ⟨j, t⟩) : k = j ∧ s = t := by
  have hindex := congrArg (fun w : UInt64 => w >>> 4) h
  have hstate := congrArg (fun w => State.ofUInt64 (w &&& 0b1111)) h
  simp only [pack_index hk, pack_index hj, pack_state hk, pack_state hj] at hindex hstate
  have hnat := congrArg UInt64.toNat hindex
  rw [UInt64.toNat_ofNat', UInt64.toNat_ofNat'] at hnat
  exact ⟨by omega, hstate⟩

omit hk in
theorem ofNat_succ : UInt64.ofNat k + 1 = UInt64.ofNat (k + 1) := by
  rw [UInt64.ofNat_add]
  rfl

omit hk s

namespace NodeState

variable {st exp : State} {m : Std.ExtTreeMap UInt64 State} {p : Point} {α : Type} {op : Op}
  {w : Success}

/-- The states after each change, from the first on. -/
def chain (initial : State) (successes : List Success) : List State :=
  initial :: successes.map Success.nxt

theorem chain_append {initial : State} {ws : List Success} (l : List Success)
    (h : (chain initial ws)[k]? = some st) : (chain initial (ws ++ l))[k]? = some st := by
  have hk := (List.getElem?_eq_some_iff.1 h).1
  have happ : chain initial (ws ++ l) = chain initial ws ++ l.map Success.nxt := by simp [chain]
  rw [happ, List.getElem?_append_left hk, h]

def Success.By (w : Success) (ops : List Op) : Prop :=
  ops[w.call]? = some (.transition w.exp w.nxt) ∨ ops[w.call]? = some (.set w.nxt)

def Op.Expects : Op → State → Prop
  | .transition exp _, e => e = exp
  | .set _, _ => True

section Points

variable (ops : List Op) (initial : State) (ws : List Success) (ss : List (ℕ × UInt64)) (i : ℕ)

def PointOk : Point → Prop
  | .start | .returned _ false => i ∉ ws.map Success.call
  | .got _ => i ∉ ws.map Success.call ∧ ∃ val, ops[i]? = some (.set val)
  | .loaded exp curr seen => i ∉ ws.map Success.call ∧
    (∀ op, ops[i]? = some op → op.Expects exp) ∧
    ∃ st, (chain initial ws)[seen]? = some st ∧ curr = StateWord.pack ⟨seen, st⟩
  | .swapped index => (i, index) ∉ ss ∧ ∃ w ∈ ws, w.call = i ∧ w.index = index
  | .returned _ true => ∃ w ∈ ws, w.call = i ∧ (i, w.index) ∈ ss

variable {ops initial ws ss i} {l : List Success} {m : List (ℕ × UInt64)}

/-- The swaps and stores of other calls do not matter to a call. -/
theorem PointOk.append (h : PointOk ops initial ws ss i p) (hl : ∀ w ∈ l, w.call ≠ i)
    (hm : ∀ x ∈ m, x.1 ≠ i) : PointOk ops initial (ws ++ l) (ss ++ m) i p := by
  have hcall : i ∉ ws.map Success.call → i ∉ (ws ++ l).map Success.call := by
    intro hi hmem
    obtain ⟨w, hw, rfl⟩ := List.mem_map.1 hmem
    rcases List.mem_append.1 hw with hw | hw
    · exact hi (List.mem_map_of_mem hw)
    · exact hl w hw rfl
  match p with
  | .start | .returned _ false => exact hcall h
  | .got _ => exact ⟨hcall h.1, h.2⟩
  | .loaded _ _ _ =>
    obtain ⟨hi, hop, st, hst, hcurr⟩ := h
    exact ⟨hcall hi, hop, st, chain_append l hst, hcurr⟩
  | .swapped index =>
    obtain ⟨hstored, w, hw, hwi⟩ := h
    refine ⟨fun hmem => ?_, w, List.mem_append_left l hw, hwi⟩
    rcases List.mem_append.1 hmem with hmem | hmem
    · exact hstored hmem
    · exact hm _ hmem rfl
  | .returned _ true =>
    obtain ⟨w, hw, hwi, hstored⟩ := h
    exact ⟨w, List.mem_append_left l hw, hwi, List.mem_append_left m hstored⟩

theorem pointOk_update {points : ℕ → Point} (hp : PointOk ops initial ws ss i p)
    (hothers : ∀ j ≠ i, PointOk ops initial ws ss j (points j)) (j : ℕ) :
    PointOk ops initial ws ss j (Function.update points i p j) := by
  by_cases hj : j = i
  · subst hj
    rw [Function.update_self]
    exact hp
  · rw [Function.update_of_ne hj]
    exact hothers j hj

end Points

variable {ops : List Op} {initial : State} {s : System} {i : ℕ}

structure Inv (ops : List Op) (initial : State) (s : System) : Prop where
  word : ∃ st, (chain initial s.successes)[s.successes.length]? = some st ∧
    s.node.state = StateWord.pack ⟨s.successes.length, st⟩
  success : ∀ k w, s.successes[k]? = some w → w.index = UInt64.ofNat (k + 1) ∧ w.seen = k ∧
    w.before = w.exp ∧ (chain initial s.successes)[k]? = some w.exp ∧ w.By ops
  once : (s.successes.map Success.call).Nodup
  point : ∀ i, PointOk ops initial s.successes s.stores i (s.points i)
  stores : ∀ x ∈ s.stores, ∃ w ∈ s.successes, x = (w.call, w.index)
  storesOnce : s.stores.Nodup
  history : ∀ x v, s.node.history[x]? = some v ↔ (x = 0 ∧ v = initial) ∨
    ∃ w ∈ s.successes, (w.call, w.index) ∈ s.stores ∧ x = w.index ∧ v = w.nxt

theorem getElem?_insert {x y : UInt64} {v : State} :
    (m.insert x v)[y]? = if x = y then some v else m[y]? := by
  rw [Std.ExtTreeMap.getElem?_insert]
  simp only [Std.LawfulEqCmp.compare_eq_iff_eq]

theorem inv_init : Inv ops initial (.init initial) where
  word := ⟨initial, rfl, rfl⟩
  success := by simp [System.init]
  once := .nil
  point _ := List.not_mem_nil
  stores := by simp [System.init]
  storesOnce := .nil
  history x v := by
    simp only [System.init, newNodeState, getElem?_insert]
    split_ifs with hx
    · simp [← hx, eq_comm]
    · simp [Ne.symm hx]

theorem Inv.move (h : Inv ops initial s) (hp : PointOk ops initial s.successes s.stores i p) :
    Inv ops initial (s.move i p) :=
  { h with
    point := pointOk_update hp fun j _ => h.point j }

theorem Inv.get_eq (h : Inv ops initial s) (hN : s.successes.length < 2 ^ 60) :
    (chain initial s.successes)[s.successes.length]? = some s.node.get := by
  obtain ⟨st, hst, hword⟩ := h.word
  rw [hst, get, hword, pack_state hN]

theorem Inv.load (h : Inv ops initial s) (hi : i ∉ s.successes.map Success.call)
    (hop : ∀ op, ops[i]? = some op → op.Expects exp) :
    Inv ops initial (s.move i (.loaded exp s.node.state s.successes.length)) := by
  obtain ⟨st, hst, hword⟩ := h.word
  exact h.move ⟨hi, hop, st, hst, hword⟩

theorem Inv.not_stored (h : Inv ops initial s) (hi : i ∉ s.successes.map Success.call)
    (index : UInt64) : (i, index) ∉ s.stores := by
  intro hmem
  obtain ⟨w, hw, heq⟩ := h.stores _ hmem
  exact hi (List.mem_map.2 ⟨w, hw, (congrArg Prod.fst heq).symm⟩)

theorem getElem?_concat {l : List α} {a b : α} (h : (l ++ [a])[k]? = some b) :
    l[k]? = some b ∨ k = l.length ∧ b = a := by
  rcases Nat.lt_or_ge k l.length with hk | hk
  · rw [List.getElem?_append_left hk] at h
    exact .inl h
  · rw [List.getElem?_append_right hk, List.getElem?_singleton] at h
    split_ifs at h with h0
    exact .inr ⟨by omega, (Option.some.inj h).symm⟩

theorem nodup_concat {l : List α} {a : α} (h : l.Nodup) (ha : a ∉ l) : (l ++ [a]).Nodup := by
  rw [List.nodup_append]
  refine ⟨h, by simp, ?_⟩
  rintro b hb c hc rfl
  exact ha (List.mem_singleton.1 hc ▸ hb)

section

variable (h : Inv ops initial s)

include h

/-- The swap of the current word is the next success. -/
theorem Inv.succeed (hk : s.successes.length = k) (hop : ops[i]? = some op) (hexp : op.Expects exp)
    (hi : i ∉ s.successes.map Success.call) (hget : (chain initial s.successes)[k]? = some exp)
    (hbefore : s.node.get = exp) :
    Inv ops initial { s.move i (.swapped (UInt64.ofNat (k + 1))) with
      node := { s.node with state := StateWord.pack ⟨k + 1, op.nxt⟩ }
      successes :=
        s.successes ++ [⟨i, s.node.get, exp, op.nxt, UInt64.ofNat (k + 1), k⟩] } where
  word := by
    refine ⟨op.nxt, ?_, ?_⟩
    · simp [chain]
    · simp [hk]
  success j w hw := by
    rcases getElem?_concat hw with hw | ⟨rfl, rfl⟩
    · obtain ⟨hindex, hseen, hb, hchain, hby⟩ := h.success j w hw
      exact ⟨hindex, hseen, hb, chain_append _ hchain, hby⟩
    · refine ⟨by rw [hk], hk.symm, hbefore, chain_append _ (hk ▸ hget), ?_⟩
      cases op with
      | transition e n =>
        obtain rfl : exp = e := hexp
        exact .inl hop
      | set v => exact .inr hop
  once := by
    rw [List.map_append]
    exact nodup_concat h.once hi
  point := by
    refine pointOk_update ⟨h.not_stored hi _, _,
      List.mem_append_right _ (List.mem_singleton_self _), rfl, rfl⟩ fun j hj => ?_
    · have := (h.point j).append (l := [⟨i, s.node.get, exp, op.nxt, UInt64.ofNat (k + 1), k⟩])
        (m := []) (by simpa using Ne.symm hj) (by simp)
      rwa [List.append_nil] at this
  stores x hx := by
    obtain ⟨w, hw, heq⟩ := h.stores x hx
    exact ⟨w, List.mem_append_left _ hw, heq⟩
  storesOnce := h.storesOnce
  history x v := by
    rw [h.history x v]
    refine or_congr_right ⟨?_, ?_⟩
    · rintro ⟨w, hw, hstored⟩
      exact ⟨w, List.mem_append_left _ hw, hstored⟩
    · rintro ⟨w, hw, hstored, hxv⟩
      rcases List.mem_append.1 hw with hw | hw
      · exact ⟨w, hw, hstored, hxv⟩
      · obtain rfl := List.mem_singleton.1 hw
        exact absurd hstored (h.not_stored hi _)

theorem Inv.swap {curr : UInt64} {seen : ℕ} (hN : s.successes.length < 2 ^ 60)
    (hop : ops[i]? = some op) (hpoint : s.points i = .loaded exp curr seen) :
    Inv ops initial (s.swap i op exp curr seen) := by
  have hi := h.point i
  rw [hpoint] at hi
  obtain ⟨hcall, hexp, st, hst, rfl⟩ := hi
  obtain ⟨cur, hcur, hword⟩ := h.word
  have hseen : seen < 2 ^ 60 := by
    have := (List.getElem?_eq_some_iff.1 hst).1
    simp only [chain, List.length_cons, List.length_map] at this
    omega
  unfold System.swap
  simp only [pack_index hseen, ofNat_succ]
  split_ifs with hcas
  · -- the expected word has the current index, so it is the current word
    obtain ⟨hlen, rfl⟩ := pack_injective hN _ hseen (hword.symm.trans hcas)
    have hget := h.get_eq hN
    rw [hlen] at hcur hget
    exact h.succeed hlen hop (hexp op hop) hcall hcur
      (Option.some.inj (hget.symm.trans hcur))
  · cases op with
    | transition _ _ => exact h.move hcall
    | set _ => exact h.move hcall

theorem Inv.index_toNat (hN : s.successes.length < 2 ^ 60) (hw : s.successes[k]? = some w) :
    w.index.toNat = k + 1 := by
  have hk := (List.getElem?_eq_some_iff.1 hw).1
  rw [(h.success k w hw).1, UInt64.toNat_ofNat', Nat.mod_eq_of_lt (by omega)]

theorem Inv.index_injective (hN : s.successes.length < 2 ^ 60) {w' : Success} (hw : w ∈ s.successes)
    (hw' : w' ∈ s.successes) (heq : w.index = w'.index) : w = w' := by
  obtain ⟨k, hk⟩ := List.mem_iff_getElem?.1 hw
  obtain ⟨j, hj⟩ := List.mem_iff_getElem?.1 hw'
  have hkn := h.index_toNat hN hk
  rw [heq, h.index_toNat hN hj] at hkn
  obtain rfl : j = k := by omega
  exact Option.some.inj (hk.symm.trans hj)

theorem Inv.nxt_eq (hw : w ∈ s.successes) (hop : ops[w.call]? = some op) : w.nxt = op.nxt := by
  obtain ⟨k, hk⟩ := List.mem_iff_getElem?.1 hw
  rcases (h.success k w hk).2.2.2.2 with hby | hby <;>
    rw [hop, Option.some.injEq] at hby <;> rw [hby] <;> rfl

theorem Inv.store {index : UInt64} (hN : s.successes.length < 2 ^ 60) (hop : ops[i]? = some op)
    (hpoint : s.points i = .swapped index) : Inv ops initial (s.store i op index) := by
  have hi := h.point i
  rw [hpoint] at hi
  obtain ⟨hnew, w, hw, rfl, rfl⟩ := hi
  have hnxt := h.nxt_eq hw hop
  refine ⟨h.word, h.success, h.once, ?_, ?_, nodup_concat h.storesOnce hnew, ?_⟩
  · refine pointOk_update ⟨w, hw, rfl, List.mem_append_right _ (List.mem_singleton_self _)⟩
      fun j hj => ?_
    have := (h.point j).append (l := []) (m := [(w.call, w.index)]) (by simp)
      (by simpa using Ne.symm hj)
    rwa [List.append_nil] at this
  · intro x hx
    rcases List.mem_append.1 hx with hx | hx
    · exact h.stores x hx
    · exact ⟨w, hw, List.mem_singleton.1 hx⟩
  · intro x v
    have hzero : w.index ≠ 0 := by
      obtain ⟨k, hk⟩ := List.mem_iff_getElem?.1 hw
      have := h.index_toNat hN hk
      intro h0
      rw [h0] at this
      simp at this
    simp only [System.store, getElem?_insert, List.mem_append, List.mem_singleton]
    split_ifs with hx
    · subst hx
      rw [Option.some.injEq]
      constructor
      · rintro rfl
        exact .inr ⟨w, hw, .inr rfl, rfl, hnxt.symm⟩
      · rintro (⟨h0, -⟩ | ⟨w', hw', -, heq, rfl⟩)
        · exact absurd h0 hzero
        · rw [← h.index_injective hN hw hw' heq, hnxt]
    · rw [h.history x v]
      refine or_congr_right (exists_congr fun w' => and_congr_right fun _ => and_congr_left ?_)
      rintro ⟨rfl, -⟩
      exact ⟨.inl, fun hor => hor.resolve_right fun heq => hx (congrArg Prod.snd heq).symm⟩

theorem Inv.step (hN : s.successes.length < 2 ^ 60) : Inv ops initial (s.step ops i) := by
  have hi := h.point i
  unfold System.step
  rcases hop : ops[i]? with _ | op
  · exact h
  rcases hpoint : s.points i with _ | exp | ⟨exp, curr, seen⟩ | index | ⟨state, ok⟩ <;>
    rw [hpoint] at hi
  · cases op with
    | transition exp nxt =>
      refine h.load hi fun op' hop' => ?_
      obtain rfl := Option.some.inj (hop.symm.trans hop')
      rfl
    | set val => exact h.move ⟨hi, val, hop⟩
  · obtain ⟨hi, val, hset⟩ := hi
    refine h.load hi fun op' hop' => ?_
    obtain rfl := Option.some.inj (hset.symm.trans hop')
    trivial
  · exact h.swap hN hop hpoint
  · exact h.store hN hop hpoint
  · exact h

end

theorem length_step (s : System) (i : ℕ) :
    s.successes.length ≤ (s.step ops i).successes.length := by
  unfold System.step
  split
  · exact Nat.le_refl _
  · split
    · exact Nat.le_refl _
    · exact Nat.le_refl _
    · exact Nat.le_refl _
    · unfold System.swap
      dsimp only
      split_ifs
      · simp
      · split <;> exact Nat.le_refl _
    · exact Nat.le_refl _
    · exact Nat.le_refl _

theorem inv_run (initial : State) (schedule : List ℕ)
    (hN : (run ops initial schedule).successes.length < 2 ^ 60) :
    Inv ops initial (run ops initial schedule) := by
  induction schedule using List.reverseRecOn with
  | nil => exact inv_init
  | append_singleton schedule i ih =>
    rw [run, List.foldl_append, List.foldl_cons, List.foldl_nil, ← run] at hN ⊢
    have hlen := @length_step ops (run ops initial schedule) i
    exact (ih (by omega)).step (by omega)

theorem map_toList_eq {l : List State} (hl : l.length < 2 ^ 64)
    (h : ∀ (x : UInt64) (v : State), m[x]? = some v ↔ l[x.toNat]? = some v) :
    m.toList.map Prod.snd = l := by
  have hofNat : ∀ {k}, k < l.length → (UInt64.ofNat k).toNat = k := by
    intro k hk
    rw [UInt64.toNat_ofNat', Nat.mod_eq_of_lt (by omega)]
  let entries := l.zipIdx.map fun p => (UInt64.ofNat p.2, p.1)
  have hentries : entries.map Prod.snd = l := by
    simp [entries, List.map_map, Function.comp_def]
  have hsorted : entries.Pairwise fun a b => compare a.1 b.1 = .lt := by
    rw [List.pairwise_iff_getElem]
    intro i j hi hj hij
    have hlen : entries.length = l.length := by simp [entries]
    have hkey : ∀ k (hk : k < entries.length), entries[k].1.toNat = k := by
      intro k hk
      simp only [entries, List.getElem_map, List.getElem_zipIdx, Nat.zero_add]
      exact hofNat (by omega)
    rw [Std.compare_eq_lt, UInt64.lt_iff_toNat_lt, hkey, hkey]
    exact hij
  have hmem : ∀ p, p ∈ m.toList ↔ p ∈ entries := by
    rintro ⟨x, v⟩
    simp only [Std.ExtTreeMap.mem_toList_iff_getElem?_eq_some, h, entries, List.mem_map,
      List.mem_zipIdx_iff_getElem?, Prod.exists, Prod.mk.injEq]
    constructor
    · intro hx
      exact ⟨v, x.toNat, hx, UInt64.ofNat_toNat, rfl⟩
    · rintro ⟨w, k, hk, rfl, rfl⟩
      rwa [hofNat (List.getElem?_eq_some_iff.1 hk).1]
  have hnodup : ∀ {l : List (UInt64 × State)}, (l.Pairwise fun a b => compare a.1 b.1 = .lt) →
      l.Nodup := by
    intro l hl
    refine hl.imp ?_
    rintro a b hab rfl
    rw [Std.compare_eq_lt] at hab
    exact UInt64.lt_irrefl _ hab
  have hlist : m.toList = entries := by
    have hordered : m.toList.Pairwise fun a b => compare a.1 b.1 = .lt :=
      Std.ExtTreeMap.ordered_keys_toList
    refine List.Perm.eq_of_pairwise (fun a b _ _ hab hba => ?_) hordered hsorted
      ((List.perm_ext_iff_of_nodup (hnodup hordered) (hnodup hsorted)).2 hmem)
    rw [Std.compare_eq_lt] at hab hba
    exact absurd hab (UInt64.lt_asymm hba)
  rw [hlist, hentries]

def System.Finished (ops : List Op) (s : System) : Prop :=
  ∀ i < ops.length, ∃ st ok, s.points i = .returned st ok

theorem Inv.returned (h : Inv ops initial s) {ok : Bool} (hpoint : s.points i = .returned st ok) :
    ok ↔ i ∈ s.successes.map Success.call := by
  have hi := h.point i
  rw [hpoint] at hi
  cases ok with
  | false => exact iff_of_false Bool.false_ne_true hi
  | true =>
    obtain ⟨w, hw, hwi, -⟩ := hi
    exact iff_of_true rfl (List.mem_map.2 ⟨w, hw, hwi⟩)

theorem Inv.stored (h : Inv ops initial s) (hdone : s.Finished ops) (hw : w ∈ s.successes) :
    (w.call, w.index) ∈ s.stores := by
  obtain ⟨k, hk⟩ := List.mem_iff_getElem?.1 hw
  have hlt : w.call < ops.length := by
    rcases (h.success k w hk).2.2.2.2 with hby | hby
    · exact (List.getElem?_eq_some_iff.1 hby).1
    · exact (List.getElem?_eq_some_iff.1 hby).1
  obtain ⟨st, ok, hpoint⟩ := hdone w.call hlt
  have hok := (h.returned hpoint).2 (List.mem_map_of_mem hw)
  subst hok
  have hi := h.point w.call
  rw [hpoint] at hi
  obtain ⟨w', hw', hcall, hstored⟩ := hi
  obtain rfl := List.inj_on_of_nodup_map h.once hw' hw hcall
  exact hstored

theorem Inv.historyList_eq (h : Inv ops initial s) (hN : s.successes.length < 2 ^ 60)
    (hdone : s.Finished ops) : s.node.historyList = chain initial s.successes := by
  refine map_toList_eq (by simp only [chain, List.length_cons, List.length_map]; omega)
    fun x v => ?_
  rw [h.history]
  constructor
  · rintro (⟨rfl, rfl⟩ | ⟨w, hw, -, rfl, rfl⟩)
    · rfl
    · obtain ⟨k, hk⟩ := List.mem_iff_getElem?.1 hw
      rw [h.index_toNat hN hk, chain, List.getElem?_cons_succ, List.getElem?_map, hk]
      rfl
  · intro hv
    rcases hx : x.toNat with _ | k
    · rw [hx] at hv
      exact .inl ⟨UInt64.toNat_inj.1 hx, (Option.some.inj hv).symm⟩
    · rw [hx, chain, List.getElem?_cons_succ, List.getElem?_map, Option.map_eq_some_iff] at hv
      obtain ⟨w, hk, rfl⟩ := hv
      have hw := List.mem_of_getElem? hk
      refine .inr ⟨w, hw, h.stored hdone hw, UInt64.toNat_inj.1 ?_, rfl⟩
      rw [hx, h.index_toNat hN hk]

theorem Inv.indices_nodup (h : Inv ops initial s) (hN : s.successes.length < 2 ^ 60) :
    (s.stores.map Prod.snd).Nodup := by
  refine List.Nodup.map_on (fun x hx y hy hxy => ?_) h.storesOnce
  obtain ⟨w, hw, rfl⟩ := h.stores x hx
  obtain ⟨w', hw', rfl⟩ := h.stores y hy
  rw [h.index_injective hN hw hw' hxy]

/-- In every interleaving the swaps that succeed form one chain, from the state each expects; the
calls that return success are those of the chain, each index is stored by the call that swapped to
it, and when all have returned the history is the chain. -/
theorem transitions_linearizable (ops : List Op) (initial : State) (schedule : List ℕ) (s : System)
    (h : run ops initial schedule = s) (hN : s.successes.length < 2 ^ 60) :
    (∀ k w, s.successes[k]? = some w → w.By ops ∧ w.index.toNat = k + 1 ∧
      (chain initial s.successes)[k]? = some w.exp ∧
      (chain initial s.successes)[k + 1]? = some w.nxt ∧ w.before = w.exp ∧ w.seen = k) ∧
    (chain initial s.successes)[s.successes.length]? = some s.node.get ∧
    (s.successes.map Success.call).Nodup ∧
    (∀ i st ok, s.points i = .returned st ok → (ok ↔ i ∈ s.successes.map Success.call)) ∧
    (s.stores.map Prod.snd).Nodup ∧
    (∀ x ∈ s.stores, ∃ w ∈ s.successes, x = (w.call, w.index)) ∧
    (s.Finished ops → s.node.historyList = chain initial s.successes ∧
      ∀ w ∈ s.successes, (w.call, w.index) ∈ s.stores) := by
  subst h
  have hinv := inv_run initial schedule hN
  refine ⟨fun k w hw => ?_, hinv.get_eq hN, hinv.once, fun _ _ _ => hinv.returned,
    hinv.indices_nodup hN, hinv.stores,
    fun hdone => ⟨hinv.historyList_eq hN hdone, fun _ => hinv.stored hdone⟩⟩
  obtain ⟨-, hseen, hbefore, hexp, hby⟩ := hinv.success k w hw
  refine ⟨hby, hinv.index_toNat hN hw, hexp, ?_, hbefore, hseen⟩
  rw [chain, List.getElem?_cons_succ, List.getElem?_map, hw]
  rfl

/-- Two transitions from the same state race with a `Set` that comes back to it. -/
def raceOps : List Op :=
  [.transition .inactive .joining, .transition .inactive .active, .set .inactive]

def raceSchedule : List ℕ := [0, 1, 0, 0, 2, 2, 2, 2, 1]

theorem transitions_linearizable_race :
    (run raceOps .inactive raceSchedule).node.historyList = [.inactive, .joining, .inactive] ∧
    (run raceOps .inactive raceSchedule).points 1 = .returned .inactive false := by
  have hstates : (run raceOps .inactive raceSchedule).successes.map Success.nxt =
      [.joining, .inactive] := by decide +kernel
  have hpoints : ∀ i < raceOps.length, (run raceOps .inactive raceSchedule).points i =
      [.returned .joining true, .returned .inactive false, .returned .inactive true].getD i
        .start := by decide +kernel
  have hN : (run raceOps .inactive raceSchedule).successes.length < 2 ^ 60 := by
    rw [← List.length_map, hstates]
    decide
  have hdone : (run raceOps .inactive raceSchedule).Finished raceOps := by
    intro i hi
    rw [hpoints i hi]
    rcases i with _ | _ | _ | i
    · exact ⟨_, _, rfl⟩
    · exact ⟨_, _, rfl⟩
    · exact ⟨_, _, rfl⟩
    · have hlen : raceOps.length = 3 := rfl
      omega
  refine ⟨?_, hpoints 1 (by decide)⟩
  have h := transitions_linearizable raceOps .inactive raceSchedule _ rfl hN
  rw [(h.2.2.2.2.2.2 hdone).1, chain, hstates]

end NodeState

end Specter
