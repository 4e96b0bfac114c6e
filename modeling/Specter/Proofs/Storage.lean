import Specter.Proofs.Memory
import Specter.Storage

/-!
# What List returns

The ring matches prefixes of bytes.  A key that begins with the name of a directory but does not go
on with a slash is therefore listed as well, by a List that is not recursive as an entry with an
empty name.
-/

namespace Specter

namespace ChordStorage

variable {found : List Bytes} {k : Bytes}

theorem trimPrefix_append (pfx s : Bytes) : trimPrefix pfx (pfx ++ s) = s := by
  simp [trimPrefix]

theorem trimPrefix_of_not {pfx s : Bytes} (h : ¬ pfx <+: s) : trimPrefix pfx s = s := by
  rw [trimPrefix, if_neg (by simpa using h)]

theorem append_prefix_iff {a b c : Bytes} : a ++ b <+: a ++ c ↔ b <+: c :=
  List.prefix_append_right_inj a

theorem exists_of_prefix {pfx key : Bytes} (h : kvKeyName pfx <+: key) :
    ∃ k, key = kvKeyName k ∧ pfx <+: k := by
  obtain ⟨rest, rfl⟩ := h
  exact ⟨pfx ++ rest, by simp [kvKeyName], pfx.prefix_append rest⟩

theorem kvKeyName_injective : Function.Injective kvKeyName :=
  fun _ _ h => List.append_cancel_left h

theorem mem_distinct : ∀ {l found : List Bytes} {k : Bytes},
    k ∈ distinct found l ↔ k ∈ found ∨ k ∈ l
  | [], found, k => by simp [distinct]
  | x :: rest, found, k => by
    rw [distinct, mem_distinct, List.mem_cons]
    split_ifs with hx
    · constructor
      · rintro (h | h)
        · exact .inl h
        · exact .inr (.inr h)
      · rintro (h | rfl | h)
        · exact .inl h
        · exact .inl hx
        · exact .inr h
    · simp only [List.mem_append, List.mem_singleton, or_assoc]

theorem nodup_distinct : ∀ {l found : List Bytes}, found.Nodup → (distinct found l).Nodup
  | [], _, h => h
  | x :: rest, found, h => by
    rw [distinct]
    refine nodup_distinct ?_
    split_ifs with hx
    · exact h
    · exact List.nodup_append.2 ⟨h, (List.nodup_cons.2 ⟨List.not_mem_nil, List.nodup_nil⟩), by
        rintro a ha b hb rfl
        exact hx (List.mem_singleton.1 hb ▸ ha)⟩

/-- The ring lists what is stored under a prefix. -/
def Lists (stored : KeyComposite → Prop)
    (listKeys : Bytes → Except ChordError (List KeyComposite)) : Prop :=
  ∀ pfx, ∃ keys, listKeys pfx = .ok keys ∧ ∀ c, c ∈ keys ↔ pfx <+: c.key ∧ stored c

theorem lists_memory {hashFn : Bytes → ℕ} (m : MemoryKV hashFn) :
    Lists (fun c => c ∈ MemoryKV.composites c.key (m.val c.key)) fun pfx => .ok (m.listKeys pfx) :=
  fun pfx => ⟨_, rfl, fun c => by rw [m.mem_listKeys, List.isPrefixOf_iff_prefix]⟩

def Stored (stored : KeyComposite → Prop) (k : Bytes) : Prop := stored ⟨kvKeyName k, .simple⟩

def IsDirectory (pfx : Bytes) : Prop := pfx ≠ [] ∧ pfx.getLast? ≠ some slash

def ListsFiles (stored : KeyComposite → Prop) (pfx : Bytes) (found : List Bytes) : Prop :=
  ∀ k, k ∈ found ↔ Stored stored k ∧ (k = pfx ∨ pfx ++ [slash] <+: k)

/-- What the other one should return: the names `pfx/x` of the files `pfx/x` and `pfx/x/rest`. -/
def ListsChildren (stored : KeyComposite → Prop) (pfx : Bytes) (found : List Bytes) : Prop :=
  found.Nodup ∧ ∀ p, p ∈ found ↔ ∃ x, slash ∉ x ∧ p = pfx ++ slash :: x ∧
    ∃ k, Stored stored k ∧ (k = p ∨ p ++ [slash] <+: k)

variable {stored : KeyComposite → Prop}
  {listKeys : Bytes → Except ChordError (List KeyComposite)} {pfx : Bytes}

theorem mem_simpleKeys {keys : List KeyComposite} {key : Bytes} :
    key ∈ simpleKeys keys ↔ ⟨key, .simple⟩ ∈ keys := by
  simp only [simpleKeys, List.mem_map, List.mem_filter, decide_eq_true_eq]
  constructor
  · rintro ⟨c, ⟨hc, ht⟩, rfl⟩
    rwa [← ht]
  · intro h
    exact ⟨_, ⟨h, rfl⟩, rfl⟩

theorem mem_listed (hlists : Lists stored listKeys) (pfx : Bytes) :
    ∃ keys, listKeys (kvKeyName pfx) = .ok keys ∧
      ∀ key, key ∈ simpleKeys keys ↔ ∃ k, key = kvKeyName k ∧ pfx <+: k ∧ Stored stored k := by
  obtain ⟨keys, hkeys, hmem⟩ := hlists (kvKeyName pfx)
  refine ⟨keys, hkeys, fun key => ?_⟩
  rw [mem_simpleKeys, hmem]
  constructor
  · rintro ⟨hpfx, hstored⟩
    obtain ⟨k, rfl, hk⟩ := exists_of_prefix hpfx
    exact ⟨k, rfl, hk, hstored⟩
  · rintro ⟨k, rfl, hk, hstored⟩
    exact ⟨append_prefix_iff.2 hk, hstored⟩

theorem list_recursive (hlists : Lists stored listKeys) (pfx : Bytes) :
    ∃ found, list listKeys pfx true = .ok found ∧
      ∀ k, k ∈ found ↔ Stored stored k ∧ pfx <+: k := by
  obtain ⟨keys, hkeys, hmem⟩ := mem_listed hlists pfx
  refine ⟨_, by simp only [list, hkeys]; rfl, fun k => ?_⟩
  simp only [List.mem_map, hmem]
  constructor
  · rintro ⟨_, ⟨k', rfl, hpfx, hk'⟩, rfl⟩
    rw [kvKeyName, trimPrefix_append]
    exact ⟨hk', hpfx⟩
  · rintro ⟨hk, hpfx⟩
    exact ⟨_, ⟨k, rfl, hpfx, hk⟩, trimPrefix_append _ _⟩

def component (s : Bytes) : Bytes := s.takeWhile (· ≠ slash)

theorem component_cons (c : UInt8) (s : Bytes) :
    component (c :: s) = if c = slash then [] else c :: component s := by
  by_cases hc : c = slash <;> simp [component, hc]

theorem slash_notMem_component : ∀ s : Bytes, slash ∉ component s
  | [] => List.not_mem_nil
  | c :: s => by
    rw [component_cons]
    split_ifs with hc
    · exact List.not_mem_nil
    · rw [List.mem_cons, not_or]
      exact ⟨fun h => hc h.symm, slash_notMem_component s⟩

theorem component_cases : ∀ s : Bytes, s = component s ∨ component s ++ [slash] <+: s
  | [] => .inl rfl
  | c :: s => by
    rw [component_cons]
    split_ifs with hc
    · exact .inr ⟨s, by simp [hc]⟩
    · rcases component_cases s with h | h
      · exact .inl (congrArg _ h)
      · exact .inr ((List.prefix_cons_inj c).2 h)

theorem component_append : ∀ {x : Bytes}, slash ∉ x → ∀ rest, component (x ++ slash :: rest) = x
  | [], _, rest => by simp [component_cons]
  | c :: x, hx, rest => by
    rw [List.mem_cons, not_or] at hx
    rw [List.cons_append, component_cons, if_neg (fun h => hx.1 h.symm), component_append hx.2]

theorem component_self : ∀ {x : Bytes}, slash ∉ x → component x = x
  | [], _ => rfl
  | c :: x, hx => by
    rw [List.mem_cons, not_or] at hx
    rw [component_cons, if_neg (fun h => hx.1 h.symm), component_self hx.2]

theorem component_eq {x s : Bytes} (hx : slash ∉ x) (h : s = x ∨ x ++ [slash] <+: s) :
    component s = x := by
  rcases h with rfl | ⟨rest, rfl⟩
  · exact component_self hx
  · rw [List.append_assoc]
    exact component_append hx rest

theorem childOf_inside (pfx s : Bytes) :
    childOf (kvKeyName pfx ++ [slash]) (kvKeyName (pfx ++ slash :: s)) =
      pfx ++ slash :: component s := by
  have hkey : kvKeyName (pfx ++ slash :: s) = (kvKeyName pfx ++ [slash]) ++ s := by
    simp [kvKeyName]
  have hdir : ∀ t, (kvKeyName pfx ++ [slash]) ++ t = kvKeyPrefix ++ (pfx ++ slash :: t) := by
    simp [kvKeyName]
  rw [hkey, childOf, trimPrefix_append]
  change trimPrefix kvKeyPrefix (if _ then _ ++ component s else _) = _
  by_cases hs : slash ∈ s
  · rw [if_pos (decide_eq_true hs), hdir, trimPrefix_append]
  · rw [if_neg (by simpa using hs), hdir, trimPrefix_append, component_self hs]

theorem cutSlash_kvKeyName (k : Bytes) : cutSlash (kvKeyName k) = ([], true) := by
  have h : kvKeyPrefix = slash :: kvKeyPrefix.tail := by decide +kernel
  rw [kvKeyName, h, List.cons_append]
  simp [cutSlash]

theorem childOf_outside (h : ¬ pfx ++ [slash] <+: k) :
    childOf (kvKeyName pfx ++ [slash]) (kvKeyName k) = pfx ++ [slash] := by
  have hdir : kvKeyName pfx ++ [slash] = kvKeyPrefix ++ (pfx ++ [slash]) := by simp [kvKeyName]
  have hnot : ¬ kvKeyName pfx ++ [slash] <+: kvKeyName k := by
    rw [hdir]
    exact fun h' => h (append_prefix_iff.1 h')
  rw [childOf, trimPrefix_of_not hnot, cutSlash_kvKeyName]
  simp [hdir, trimPrefix_append]

theorem getLast_kvKeyName (h : IsDirectory pfx) : (kvKeyName pfx).getLast? ≠ some slash := by
  rw [kvKeyName, List.getLast?_append]
  rcases hl : pfx.getLast? with _ | c
  · exact absurd (List.getLast?_eq_none_iff.1 hl) h.1
  · rw [Option.some_or, ← hl]
    exact h.2

theorem list_children (hlists : Lists stored listKeys) (hdir : IsDirectory pfx) :
    ∃ found, list listKeys pfx false = .ok found ∧ found.Nodup ∧
      ∀ p, p ∈ found ↔ ∃ k, Stored stored k ∧ pfx <+: k ∧
        p = childOf (kvKeyName pfx ++ [slash]) (kvKeyName k) := by
  obtain ⟨keys, hkeys, hmem⟩ := mem_listed hlists pfx
  refine ⟨_, by simp only [list, hkeys, if_neg (getLast_kvKeyName hdir)]; rfl,
    nodup_distinct List.nodup_nil, fun p => ?_⟩
  simp only [mem_distinct, List.not_mem_nil, false_or, List.mem_map, hmem]
  constructor
  · rintro ⟨_, ⟨k, rfl, hpfx, hk⟩, rfl⟩
    exact ⟨k, hk, hpfx, rfl⟩
  · rintro ⟨k, hk, hpfx, rfl⟩
    exact ⟨_, ⟨k, rfl, hpfx, hk⟩, rfl⟩

theorem childOf_of_child {x : Bytes} (hx : slash ∉ x)
    (h : k = pfx ++ slash :: x ∨ (pfx ++ slash :: x) ++ [slash] <+: k) :
    pfx <+: k ∧ childOf (kvKeyName pfx ++ [slash]) (kvKeyName k) = pfx ++ slash :: x := by
  obtain ⟨s, rfl, hs⟩ : ∃ s, k = pfx ++ slash :: s ∧ (s = x ∨ x ++ [slash] <+: s) := by
    rcases h with rfl | ⟨rest, rfl⟩
    · exact ⟨x, rfl, .inl rfl⟩
    · exact ⟨x ++ slash :: rest, by simp, .inr ⟨rest, by simp⟩⟩
  exact ⟨List.prefix_append _ _, by rw [childOf_inside, component_eq hx hs]⟩

theorem child_of_inside (h : pfx ++ [slash] <+: k) :
    ∃ x, slash ∉ x ∧ childOf (kvKeyName pfx ++ [slash]) (kvKeyName k) = pfx ++ slash :: x ∧
      (k = pfx ++ slash :: x ∨ (pfx ++ slash :: x) ++ [slash] <+: k) := by
  obtain ⟨s, rfl⟩ := h
  refine ⟨component s, slash_notMem_component s, ?_, ?_⟩
  · rw [← childOf_inside]
    simp
  · rcases component_cases s with hs | ⟨rest, hs⟩
    · left
      rw [← hs]
      simp
    · right
      refine ⟨rest, ?_⟩
      nth_rewrite 2 [← hs]
      simp

/-- No stored file begins with the name of the directory and goes on otherwise than with a slash,
and one of that name itself is stored only if the directory has an entry with an empty name. -/
def OnlyInside (stored : KeyComposite → Prop) (pfx : Bytes) : Prop :=
  (∀ k, Stored stored k → pfx <+: k → k = pfx ∨ pfx ++ [slash] <+: k) ∧
    (Stored stored pfx → ∃ k, Stored stored k ∧
      (k = pfx ++ [slash] ∨ (pfx ++ [slash]) ++ [slash] <+: k))

theorem listsFiles_iff (hfound : ∀ k, k ∈ found ↔ Stored stored k ∧ pfx <+: k) :
    ListsFiles stored pfx found ↔
      ∀ k, Stored stored k → pfx <+: k → k = pfx ∨ pfx ++ [slash] <+: k := by
  constructor
  · intro h k hk hpfx
    exact ((h k).1 ((hfound k).2 ⟨hk, hpfx⟩)).2
  · intro h k
    rw [hfound]
    constructor
    · rintro ⟨hk, hpfx⟩
      exact ⟨hk, h k hk hpfx⟩
    · rintro ⟨hk, rfl | hin⟩
      · exact ⟨hk, List.prefix_rfl⟩
      · exact ⟨hk, (List.prefix_append _ _).trans hin⟩

theorem self_not_inside (pfx : Bytes) : ¬ pfx ++ [slash] <+: pfx := by
  intro h
  have hlen := h.length_le
  rw [List.length_append, List.length_singleton] at hlen
  omega

theorem listsChildren_of (hnodup : found.Nodup)
    (hfound : ∀ p, p ∈ found ↔ ∃ k, Stored stored k ∧ pfx <+: k ∧
      p = childOf (kvKeyName pfx ++ [slash]) (kvKeyName k)) (h : OnlyInside stored pfx) :
    ListsChildren stored pfx found := by
  refine ⟨hnodup, fun p => ?_⟩
  rw [hfound]
  constructor
  · rintro ⟨k, hk, hpfx, rfl⟩
    rcases h.1 k hk hpfx with rfl | hin
    · obtain ⟨k', hk', hchild⟩ := h.2 hk
      exact ⟨[], List.not_mem_nil, childOf_outside (self_not_inside _), k', hk', by
        rwa [childOf_outside (self_not_inside _)]⟩
    · obtain ⟨x, hx, hchild, hk'⟩ := child_of_inside hin
      exact ⟨x, hx, hchild, k, hk, by rwa [hchild]⟩
  · rintro ⟨x, hx, rfl, k, hk, hchild⟩
    obtain ⟨hpfx, hname⟩ := childOf_of_child hx hchild
    exact ⟨k, hk, hpfx, hname.symm⟩

theorem entry_of_listsChildren (hfound : ∀ p, p ∈ found ↔ ∃ k, Stored stored k ∧ pfx <+: k ∧
      p = childOf (kvKeyName pfx ++ [slash]) (kvKeyName k)) (h : ListsChildren stored pfx found)
    (hstored : Stored stored pfx) :
    ∃ k, Stored stored k ∧ (k = pfx ++ [slash] ∨ (pfx ++ [slash]) ++ [slash] <+: k) := by
  have hmem : pfx ++ [slash] ∈ found :=
    (hfound _).2 ⟨pfx, hstored, List.prefix_rfl, (childOf_outside (self_not_inside _)).symm⟩
  obtain ⟨_, _, _, hk⟩ := (h.2 _).1 hmem
  exact hk

/-- `List` respects a directory exactly when nothing else is stored that begins with its name. -/
theorem list_respects_directories_iff (hlists : Lists stored listKeys) (hdir : IsDirectory pfx) :
    (∃ files children, list listKeys pfx true = .ok files ∧
        list listKeys pfx false = .ok children ∧
        ListsFiles stored pfx files ∧ ListsChildren stored pfx children) ↔
      OnlyInside stored pfx := by
  obtain ⟨files, hfiles, hmemFiles⟩ := list_recursive hlists pfx
  obtain ⟨children, hchildren, hnodup, hmemChildren⟩ := list_children hlists hdir
  constructor
  · rintro ⟨files', children', hfiles', hchildren', hf, hc⟩
    cases hfiles.symm.trans hfiles'
    cases hchildren.symm.trans hchildren'
    exact ⟨(listsFiles_iff hmemFiles).1 hf, entry_of_listsChildren hmemChildren hc⟩
  · intro h
    exact ⟨files, children, hfiles, hchildren, (listsFiles_iff hmemFiles).2 h.1,
      listsChildren_of hnodup hmemChildren h⟩

def path (s : String) : Bytes := s.toUTF8.toList

def storing (file : Bytes) : MemoryKV fun _ => 0 :=
  (MemoryKV.withHashFn _).put (kvKeyName file) (some [1])

def storedIn (file : Bytes) (c : KeyComposite) : Prop :=
  c ∈ MemoryKV.composites c.key ((storing file).val c.key)

theorem stored_storing {file : Bytes} : Stored (storedIn file) k ↔ k = file := by
  have hnew : (MemoryKV.withHashFn fun _ => 0).val (kvKeyName k) = .newValue := by
    simp [MemoryKV.val, MemoryKV.lookupVal, MemoryKV.withHashFn]
  simp only [Stored, storedIn, MemoryKV.mem_composites, true_and, storing, MemoryKV.val_put]
  split_ifs with h
  · simp [kvKeyName_injective h]
  · rw [hnew]
    simp only [KvValue.newValue, Option.isSome_none, Bool.false_eq_true, false_iff]
    rintro rfl
    exact h rfl

/-- The directory `a` with the file `a/b/c`. -/
theorem list_respects_directory_a :
    ∃ files children,
      list (fun pfx => .ok ((storing (path "a/b/c")).listKeys pfx)) (path "a") true = .ok files ∧
      list (fun pfx => .ok ((storing (path "a/b/c")).listKeys pfx)) (path "a") false =
        .ok children ∧
      ListsFiles (storedIn (path "a/b/c")) (path "a") files ∧
      ListsChildren (storedIn (path "a/b/c")) (path "a") children := by
  refine (list_respects_directories_iff (lists_memory _)
    (by unfold IsDirectory; decide +kernel)).2 ⟨?_, ?_⟩
  · intro k hk _
    rw [stored_storing.1 hk]
    decide +kernel
  · intro h
    exact absurd (stored_storing.1 h) (by decide +kernel)

/-- `ab/c` is listed for the directory `a`, and as an entry of it with an empty name. -/
theorem list_longer_name :
    list (fun pfx => .ok ((storing (path "ab/c")).listKeys pfx)) (path "a") true =
        .ok [path "ab/c"] ∧
      list (fun pfx => .ok ((storing (path "ab/c")).listKeys pfx)) (path "a") false =
        .ok [path "a/"] ∧
      ¬ ListsFiles (storedIn (path "ab/c")) (path "a") [path "ab/c"] ∧
      ¬ ListsChildren (storedIn (path "ab/c")) (path "a") [path "a/"] := by
  refine ⟨by decide +kernel, by decide +kernel, fun h => ?_, fun h => ?_⟩
  · exact absurd ((h (path "ab/c")).1 (by simp)).2 (by decide +kernel)
  · obtain ⟨_, _, _, k, hk, hchild⟩ := (h.2 (path "a/")).1 (by simp)
    rw [stored_storing.1 hk] at hchild
    exact absurd hchild (by decide +kernel)

end ChordStorage

end Specter
