import Mathlib.Data.String.Basic
import Specter.WafPolicy

/-!
# A normalized policy means the same

`validatePolicy` sorts the exceptions, so its result is the same for all lists of the same
exceptions.  Which rules are disabled for a path depends only on which exceptions there are.
-/

namespace Specter.Tunnel

open Lib

variable {w : WafCodec}

theorem WAFExclusion.le_iff {a b : WAFExclusion} :
    a.le b = true ↔ a.ruleId < b.ruleId ∨ (a.ruleId = b.ruleId ∧ a.path ≤ b.path) := by
  simp only [WAFExclusion.le, Bool.or_eq_true, Bool.and_eq_true, decide_eq_true_eq, beq_iff_eq,
    Bool.not_eq_true', decide_eq_false_iff_not, not_lt]

abbrev exclusionLE (a b : WAFExclusion) : Prop := a.le b = true

instance : Std.Antisymm exclusionLE where
  antisymm a b hab hba := by
    rcases WAFExclusion.le_iff.1 hab with h | ⟨hid, hp⟩ <;>
      rcases WAFExclusion.le_iff.1 hba with h' | ⟨hid', hp'⟩
    · omega
    · omega
    · omega
    · obtain ⟨i, p⟩ := a
      obtain ⟨j, q⟩ := b
      obtain rfl : i = j := hid
      obtain rfl : p = q := le_antisymm hp hp'
      rfl

instance : Std.Total exclusionLE where
  total a b := by
    simp only [exclusionLE, WAFExclusion.le_iff]
    rcases lt_trichotomy a.ruleId b.ruleId with h | h | h
    · exact .inl (.inl h)
    · rcases le_total a.path b.path with hp | hp
      · exact .inl (.inr ⟨h, hp⟩)
      · exact .inr (.inr ⟨h.symm, hp⟩)
    · exact .inr (.inl h)

instance : IsTrans WAFExclusion exclusionLE where
  trans a b c hab hbc := by
    simp only [exclusionLE, WAFExclusion.le_iff] at hab hbc ⊢
    rcases hab with h | ⟨h, hp⟩ <;> rcases hbc with h' | ⟨h', hp'⟩
    · exact .inl (h.trans h')
    · exact .inl (h' ▸ h)
    · exact .inl (h ▸ h')
    · exact .inr ⟨h.trans h', hp.trans hp'⟩

theorem compact_mergeSort (l : List WAFExclusion) :
    compact (l.mergeSort WAFExclusion.le) = sortCompact exclusionLE l := by
  rw [sortCompact]
  congr 2
  funext a b
  simp

theorem validatePolicy_eq_ok {p r : WAFPolicy} :
    validatePolicy w p = .ok r ↔ p.mode ≠ .unknown ∧ p.exclusions.length ≤ maxExclusions ∧
      (∀ e ∈ p.exclusions, e.invalid = none) ∧
      r = { p with exclusions := sortCompact exclusionLE p.exclusions } ∧
      (w.policy r).length ≤ maxPolicyBytes := by
  simp only [validatePolicy, compact_mergeSort]
  by_cases hm : p.mode = .unknown
  · simp [hm]
  by_cases hl : p.exclusions.length > maxExclusions
  · simp [hm, hl]
  rw [if_neg hm, if_neg hl]
  rcases hf : p.exclusions.findSome? WAFExclusion.invalid with _ | msg
  · have hvalid := List.findSome?_eq_none_iff.1 hf
    dsimp only
    split_ifs with hw
    · simp only [false_iff, not_and]
      rintro - - - rfl
      omega
    · simp only [Except.ok.injEq]
      refine ⟨?_, fun h => h.2.2.2.1.symm⟩
      rintro rfl
      exact ⟨hm, by omega, hvalid, rfl, by omega⟩
  · obtain ⟨e, he, hinv⟩ := List.exists_of_findSome?_eq_some hf
    simp only [reduceCtorEq, false_iff, not_and]
    intro _ _ hvalid
    simp [hvalid e he] at hinv

section Normal

variable {w : WafCodec} {p r : WAFPolicy} {q : WAFPolicy}

theorem mem_exclusions (h : validatePolicy w p = .ok r) (e : WAFExclusion) :
    e ∈ r.exclusions ↔ e ∈ p.exclusions := by
  obtain ⟨-, -, -, rfl, -⟩ := validatePolicy_eq_ok.1 h
  simp

theorem validatePolicy_congr (h : validatePolicy w p = .ok r) (hmode : q.mode = p.mode)
    (hmem : ∀ e, e ∈ q.exclusions ↔ e ∈ p.exclusions) (hlen : q.exclusions.length ≤ maxExclusions) :
    validatePolicy w q = .ok r := by
  obtain ⟨hm, -, hvalid, rfl, hw⟩ := validatePolicy_eq_ok.1 h
  refine validatePolicy_eq_ok.2 ⟨hmode ▸ hm, hlen, fun e he => hvalid e ((hmem e).1 he), ?_, hw⟩
  rw [hmode, sortCompact_congr exclusionLE hmem]

theorem validatePolicy_fixed (h : validatePolicy w p = .ok r) : validatePolicy w r = .ok r := by
  refine validatePolicy_congr h ?_ (mem_exclusions h) ?_
  · obtain ⟨-, -, -, rfl, -⟩ := validatePolicy_eq_ok.1 h
    rfl
  · obtain ⟨-, hlen, -, rfl, -⟩ := validatePolicy_eq_ok.1 h
    exact (length_sortCompact_le exclusionLE p.exclusions).trans hlen

theorem disabledRules_congr (hmem : ∀ e, e ∈ q.exclusions ↔ e ∈ p.exclusions) (path : String) :
    disabledRules q path = disabledRules p path := by
  refine sortCompact_congr (· ≤ ·) fun id => ?_
  simp [hmem]

theorem effectiveMode_validatePolicy (h : validatePolicy w p = .ok r) (defaultMode : PolicyMode) :
    effectiveMode r defaultMode = effectiveMode p defaultMode := by
  obtain ⟨-, -, -, rfl, -⟩ := validatePolicy_eq_ok.1 h
  rfl

end Normal

theorem map_eq_of_length_filterMap {α β : Type} {f : α → Option β} : ∀ {l : List α} {n : ℕ},
    (l.filterMap f).length = n → l.length ≤ n → l.map f = (l.filterMap f).map some
  | [], _, _, _ => rfl
  | a :: l, n, h, hle => by
    have hfl : (l.filterMap f).length ≤ l.length := List.length_filterMap_le f l
    rcases hf : f a with _ | b
    · rw [List.filterMap_cons_none hf] at h
      simp only [List.length_cons] at hle
      omega
    · rw [List.filterMap_cons_some hf] at h ⊢
      simp only [List.length_cons] at h hle
      obtain ⟨n, rfl⟩ : ∃ k, n = k + 1 := ⟨n - 1, by omega⟩
      rw [List.map_cons, hf, map_eq_of_length_filterMap (n := n) (by omega) (by omega),
        List.map_cons]

namespace Memory

variable {m : Memory} {elems : List Pointer} {es : List WAFExclusion} {p : Pointer} {P : WAFPolicy}

/-- These are pointers to these exceptions. -/
def Views (m : Memory) (elems : List Pointer) (es : List WAFExclusion) : Prop :=
  elems.map m.exclusion = es.map some

theorem Views.length (h : m.Views elems es) : elems.length = es.length := by
  simpa using congrArg List.length h

theorem Views.filterMap (h : m.Views elems es) : elems.filterMap m.exclusion = es := by
  have := congrArg (List.filterMap id) h
  simpa [List.filterMap_map] using this

theorem Views.findSome? (h : m.Views elems es) :
    elems.findSome? m.invalid = es.findSome? WAFExclusion.invalid := by
  have hinv : m.invalid = (fun e => e.elim (some "rule_id must be a six-digit rule ID")
      WAFExclusion.invalid) ∘ m.exclusion := by
    funext p
    simp only [invalid, Function.comp_apply]
    rcases m.exclusion p with _ | e <;> rfl
  rw [hinv, ← List.findSome?_map, h, List.findSome?_map]
  rfl

/-- The order of exceptions, with nils that are never compared. -/
def optionLE : Option WAFExclusion → Option WAFExclusion → Bool
  | some a, some b => a.le b
  | _, _ => true

theorem Views.mergeSort (h : m.Views elems es) :
    m.Views (elems.mergeSort m.le) (es.mergeSort WAFExclusion.le) := by
  have hle : ∀ p ∈ elems, ∀ q ∈ elems, m.le p q = optionLE (m.exclusion p) (m.exclusion q) := by
    intro p _ q _
    unfold Memory.le optionLE
    rcases m.exclusion p with _ | a <;> rcases m.exclusion q with _ | b <;> rfl
  rw [Views, List.map_mergeSort hle, h]
  exact (List.map_mergeSort (f := some) (r := WAFExclusion.le) fun _ _ _ _ => rfl).symm

theorem map_compactFunc {α β : Type} [DecidableEq β] {f : α → β} {eq : α → α → Bool}
    (heq : ∀ a b, eq a b = decide (f a = f b)) (l : List α) :
    (Tunnel.compactFunc eq l).map f = Lib.compact (l.map f) := by
  have hskip : ∀ (l : List α) (prev : α), Lib.compact ((prev :: l).map f) =
      f prev :: (Tunnel.compactFunc.skip eq prev l).map f := by
    intro l
    induction l with
    | nil => exact fun _ => rfl
    | cons b l ih =>
      intro prev
      have ih := ih b
      simp only [List.map_cons] at ih ⊢
      rw [Lib.compact, Tunnel.compactFunc.skip, heq]
      by_cases h : f prev = f b
      · rw [if_pos h, if_pos (by simp [h]), ih, h]
      · rw [if_neg h, if_neg (by simpa using Ne.symm h), ih, List.map_cons]
  cases l with
  | nil => rfl
  | cons a l => exact (hskip l a).symm

theorem Views.compactFunc (h : m.Views elems es) :
    m.Views (Tunnel.compactFunc m.same elems) (compact es) := by
  have hsame : ∀ p q, m.same p q = decide (m.exclusion p = m.exclusion q) := fun p q =>
    beq_eq_decide ..
  rw [Views, map_compactFunc hsame, h, compact_map (Option.some_injective _)]

/-- The copy behind the memory: exceptions, an array of pointers and the message. -/
def built (m : Memory) (es : List WAFExclusion) (ptrs : List Pointer) (mode : PolicyMode)
    (len : ℕ) : Memory :=
  m ++ es.map .exclusion ++ [.array ptrs, .policy mode (m.length + es.length) len]

section Built

variable {ptrs ptrs' : List Pointer} {mode : PolicyMode} {len len' : ℕ}

theorem built_array : (built m es ptrs mode len)[m.length + es.length]? = some (.array ptrs) := by
  rw [built, List.getElem?_append_right (by simp)]
  simp

theorem built_policy : (built m es ptrs mode len)[m.length + es.length + 1]? =
    some (.policy mode (m.length + es.length) len) := by
  rw [built, List.getElem?_append_right (by simp)]
  simp

theorem built_set_array : (built m es ptrs mode len).set (m.length + es.length) (.array ptrs') =
    built m es ptrs' mode len := by
  rw [built, List.set_append_right _ _ (by simp)]
  simp [built]

theorem built_set_policy : (built m es ptrs mode len).set (m.length + es.length + 1)
      (.policy mode (m.length + es.length) len') = built m es ptrs mode len' := by
  rw [built, List.set_append_right _ _ (by simp)]
  simp [built]

theorem exclusion_built :
    (built m es ptrs mode len).exclusion = (m ++ es.map Object.exclusion : Memory).exclusion := by
  funext p
  rcases p with _ | i
  · rfl
  simp only [Memory.exclusion, Option.bind_some, built]
  by_cases hi : i < (m ++ es.map Object.exclusion).length
  · rw [List.getElem?_append_left hi]
  · have hnone : (m ++ es.map Object.exclusion)[i]? = none := List.getElem?_eq_none (by omega)
    rw [List.getElem?_append_right (by omega), hnone]
    rcases i - (m ++ es.map Object.exclusion).length with _ | _ | k <;> rfl

theorem views_clone : Views (m ++ es.map Object.exclusion)
    ((List.range es.length).map fun i => some (m.length + i)) es := by
  refine List.ext_getElem? fun i => ?_
  by_cases hi : i < es.length
  · simp [Memory.exclusion, hi]
  · simp [hi]

theorem elems_built (h : ptrs.length = len) :
    (built m es ptrs mode len').elems (m.length + es.length) len = ptrs := by
  rw [Memory.elems, built_array]
  exact List.take_of_length_le (Nat.le_of_eq h)

end Built

theorem load_eq_some (h : m.load p = some P) : ∃ array,
    p.bind (m[·]?) = some (.policy P.mode array P.exclusions.length) ∧
      m.Views (m.elems array P.exclusions.length) P.exclusions := by
  unfold load at h
  split at h
  · rename_i mode array len hp
    dsimp only at h
    split_ifs at h with hlen
    obtain rfl := Option.some.inj h
    refine ⟨array, hlen.symm ▸ hp, ?_⟩
    dsimp only
    rw [hlen]
    refine map_eq_of_length_filterMap hlen ?_
    unfold elems
    split <;> simp
  · cases h

theorem load_built {es' : List WAFExclusion} {mode : PolicyMode} {kept rest : List Pointer}
    (h : Views (m ++ es.map Object.exclusion) kept es') :
    (built m es (kept ++ rest) mode kept.length).load (some (m.length + es.length + 1)) =
      some ⟨mode, es'⟩ := by
  unfold load
  simp only [Option.bind_some, built_policy]
  have hkept : (built m es (kept ++ rest) mode kept.length).elems (m.length + es.length)
      kept.length = kept := by
    rw [Memory.elems, built_array]
    simp
  rw [hkept, exclusion_built, h.filterMap, if_pos h.length.symm]

theorem compactFunc_sortFunc_clone (mode : PolicyMode) (es : List WAFExclusion) :
    ∃ kept rest,
      Views (m ++ es.map Object.exclusion) kept (compact (es.mergeSort WAFExclusion.le)) ∧
      ((m.clone mode es).sortFunc (m.length + es.length) es.length).compactFunc
        (m.length + es.length + 1) mode (m.length + es.length) es.length =
      built m es (kept ++ rest) mode kept.length := by
  set ptrs : List Pointer := (List.range es.length).map fun i => some (m.length + i)
  have hclone : m.clone mode es = built m es ptrs mode es.length := rfl
  have hptrs : ptrs.length = es.length := by simp [ptrs]
  have hsort : (m.clone mode es).sortFunc (m.length + es.length) es.length =
      built m es (ptrs.mergeSort (built m es ptrs mode es.length).le) mode es.length := by
    rw [sortFunc, hclone, elems_built hptrs, built_set_array]
  set sorted := ptrs.mergeSort (built m es ptrs mode es.length).le
  have hviews : Views (m ++ es.map Object.exclusion) sorted (es.mergeSort WAFExclusion.le) := by
    have : Views (built m es ptrs mode es.length) ptrs es := by
      rw [Views, exclusion_built]
      exact views_clone
    rw [Views, ← exclusion_built]
    exact this.mergeSort
  set m₂ := built m es sorted mode es.length with hm₂
  refine ⟨Tunnel.compactFunc m₂.same sorted, List.replicate
    (es.length - (Tunnel.compactFunc m₂.same sorted).length) none, ?_, ?_⟩
  · have : Views m₂ sorted (es.mergeSort WAFExclusion.le) := by
      rw [Views, exclusion_built]
      exact hviews
    rw [Views, ← exclusion_built]
    exact this.compactFunc
  · rw [hsort, Memory.compactFunc, elems_built (by simp [sorted, hptrs]), hm₂, built_set_array,
      built_set_policy]

theorem validatePolicy_spec (h : m.load p = some P) :
    m <+: (Memory.validatePolicy w m p).2 ∧
      match Tunnel.validatePolicy w P with
      | .error msg => (Memory.validatePolicy w m p).1 = .error msg
      | .ok P' => ∃ q, (Memory.validatePolicy w m p).1 = .ok q ∧
        (Memory.validatePolicy w m p).2.load q = some P' := by
  obtain ⟨array, hp, hv⟩ := load_eq_some h
  unfold Memory.validatePolicy Tunnel.validatePolicy
  rw [hp]
  dsimp only
  by_cases hm : P.mode = .unknown
  · rw [if_pos hm, if_pos hm]
    exact ⟨List.prefix_rfl, rfl⟩
  by_cases hl : P.exclusions.length > maxExclusions
  · rw [if_neg hm, if_pos hl, if_neg hm, if_pos hl]
    exact ⟨List.prefix_rfl, rfl⟩
  rw [if_neg hm, if_neg hl, if_neg hm, if_neg hl, hv.findSome?]
  rcases hf : P.exclusions.findSome? WAFExclusion.invalid with _ | msg
  · dsimp only
    rw [hv.filterMap]
    obtain ⟨kept, rest, hkept, hbuilt⟩ := compactFunc_sortFunc_clone (m := m) P.mode P.exclusions
    rw [hbuilt, load_built hkept]
    dsimp only
    have hext : m <+: built m P.exclusions (kept ++ rest) P.mode kept.length := by
      rw [built, List.append_assoc]
      exact List.prefix_append _ _
    split_ifs
    · exact ⟨hext, rfl⟩
    · exact ⟨hext, _, rfl, load_built hkept⟩
  · exact ⟨List.prefix_rfl, rfl⟩

end Memory

/-- For every policy that is accepted, wherever it is in memory: the result is accepted as it is;
policies of the same mode with the same exceptions, in any order and however often, have the same
result; it disables the same rules for every path and has the same mode for every default; and
validation changes nothing that was in memory. -/
theorem normalized_policy_means_the_same (w : WafCodec) (m : Memory) (p : Pointer)
    (P R : WAFPolicy) (hload : m.load p = some P) (h : validatePolicy w P = .ok R) :
    validatePolicy w R = .ok R ∧
    (∀ Q : WAFPolicy, Q.mode = P.mode → (∀ e, e ∈ Q.exclusions ↔ e ∈ P.exclusions) →
      Q.exclusions.length ≤ maxExclusions → validatePolicy w Q = .ok R) ∧
    (∀ path, disabledRules R path = disabledRules P path) ∧
    (∀ defaultMode, effectiveMode R defaultMode = effectiveMode P defaultMode) ∧
    m <+: (m.validatePolicy w p).2 ∧
    ∃ q, (m.validatePolicy w p).1 = .ok q ∧ (m.validatePolicy w p).2.load q = some R := by
  obtain ⟨hext, hres⟩ := Memory.validatePolicy_spec (w := w) hload
  rw [h] at hres
  exact ⟨validatePolicy_fixed h, fun Q hmode hmem hlen => validatePolicy_congr h hmode hmem hlen,
    disabledRules_congr (mem_exclusions h), effectiveMode_validatePolicy h, hext, hres⟩

def repeatedExceptions : Memory :=
  [.exclusion ⟨942100, "/b"⟩, .exclusion ⟨911200, ""⟩, .array [some 0, some 1, some 0],
    .policy .block 2 3]

def plainPolicies : WafCodec :=
  ⟨fun _ => [], fun _ => [], fun _ => none, fun _ => Vector.replicate 32 0⟩

theorem normalized_policy_without_repetition :
    validatePolicy plainPolicies ⟨.block, [⟨942100, "/b"⟩, ⟨911200, ""⟩, ⟨942100, "/b"⟩]⟩ =
      .ok ⟨.block, [⟨911200, ""⟩, ⟨942100, "/b"⟩]⟩ ∧
    (∀ path, disabledRules ⟨.block, [⟨911200, ""⟩, ⟨942100, "/b"⟩]⟩ path =
      disabledRules ⟨.block, [⟨942100, "/b"⟩, ⟨911200, ""⟩, ⟨942100, "/b"⟩]⟩ path) ∧
    repeatedExceptions <+: (repeatedExceptions.validatePolicy plainPolicies (some 3)).2 := by
  have hload : repeatedExceptions.load (some 3) =
      some ⟨.block, [⟨942100, "/b"⟩, ⟨911200, ""⟩, ⟨942100, "/b"⟩]⟩ := by decide +kernel
  have hsort : sortCompact exclusionLE [⟨942100, "/b"⟩, ⟨911200, ""⟩, ⟨942100, "/b"⟩] =
      [⟨911200, ""⟩, ⟨942100, "/b"⟩] :=
    sortCompact_eq exclusionLE (by simp [exclusionLE, WAFExclusion.le_iff]) (by simp)
  have h : validatePolicy plainPolicies ⟨.block, [⟨942100, "/b"⟩, ⟨911200, ""⟩, ⟨942100, "/b"⟩]⟩ =
      .ok ⟨.block, [⟨911200, ""⟩, ⟨942100, "/b"⟩]⟩ := by
    refine validatePolicy_eq_ok.2 ⟨by decide, by decide, by decide +kernel, ?_, Nat.zero_le _⟩
    rw [hsort]
  have hall :=
    normalized_policy_means_the_same plainPolicies repeatedExceptions (some 3) _ _ hload h
  exact ⟨h, hall.2.2.1, hall.2.2.2.2.1⟩

end Specter.Tunnel
