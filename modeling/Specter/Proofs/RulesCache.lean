import Specter.Lib.Rely
import Specter.RulesCache

/-!
# The rules cache after a crash

A release is solid if both of its files are synced and not removed since.  Whatever a `state.json`
that a crash can leave names is solid, and so is the release in memory, since the state is saved
after the files of its release were synced.  That fails once a release was restored from files that
are seen but were not synced, because the sync of the directory had failed.
-/

namespace Specter.Waf

open Lib

variable {d : Dir} (file : CacheFile) {a : CacheAct} (pin : String) (release : Release)

section

variable (b : String)

/-- The release comes with the program, or no crash can take it away; nothing is said once one was
restored that was not synced. -/
def Solid (s : RulesDisk) (v : String) : Prop :=
  s.unsynced = true ∨ v = b ∨ s.durable v = true

def Backed (s : RulesDisk) (st : CacheState) : Prop :=
  Solid b s st.active ∧ (st.previous = "" ∨ Solid b s st.previous)

/-- A crash can leave a `state.json` of this content. -/
def Names (s : RulesDisk) (st : CacheState) : Prop :=
  s.synced.state = some st ∨ .put (.state st) ∈ s.pending

structure CacheInv (s : RulesDisk) : Prop where
  stored : ∀ st, Names s st → Backed b s st
  cache : s.cache.active = "" ∨ Solid b s s.cache.active
  pruned : ∀ x ∈ s.pruned, ∀ st, x.2.1.state = some st ∨ x.2.2.state = some st →
    x.1.version ≠ st.active ∧ x.1.version ≠ st.previous

def cacheRules : Rules (rulesCache b) where
  ok _ := True
  known _ _ _ := True
  inv := CacheInv b
  guar t _ _ := t = 0
  fresh _ _ := True
  pre _ _ := False
  post _ _ := True

end

variable {b : String} {s s' : RulesDisk} {st : CacheState} {v : String} {l : Bool} {t : ℕ}
  {P : RulesDisk → Prop}

theorem Backed.imp (h : Backed b s st) (hs : ∀ v, Solid b s v → Solid b s' v) : Backed b s' st :=
  ⟨hs _ h.1, h.2.imp_right (hs _)⟩

theorem stable_alone : (cacheRules b).Stable 0 P :=
  fun _ _ _ hne _ _ hg _ _ => absurd hg hne

theorem holds_iff : d.holds v = true ↔ v ∈ d.archives ∧ v ∈ d.signatures := by
  simp [Dir.holds]

theorem holds_put (h : d.holds v = true) : (d.put file).holds v = true := by
  rw [holds_iff] at h ⊢
  cases file with
  | archive => exact ⟨List.mem_cons_of_mem _ h.1, h.2⟩
  | signature => exact ⟨h.1, List.mem_cons_of_mem _ h.2⟩
  | state => exact h

theorem holds_remove {file : CacheFile} (hne : v ≠ file.version) (h : d.holds v = true) :
    (d.remove file).holds v = true := by
  rw [holds_iff] at h ⊢
  cases file with
  | archive => exact ⟨List.mem_filter.2 ⟨h.1, decide_eq_true hne⟩, h.2⟩
  | signature => exact ⟨h.1, List.mem_filter.2 ⟨h.2, decide_eq_true hne⟩⟩
  | state => exact h

theorem holds_foldl : ∀ (ops : List DirOp) {d : Dir}, d.holds v = true →
    (∀ op ∈ ops, op.removes v = false) → (ops.foldl .apply d).holds v = true
  | [], _, h, _ => h
  | op :: ops, d, h, hops => by
    refine holds_foldl ops (d := d.apply op) ?_ fun o ho => hops o (List.mem_cons_of_mem _ ho)
    have hop := hops op List.mem_cons_self
    cases op with
    | put file => exact holds_put file h
    | remove file => exact holds_remove (fun he => of_decide_eq_false hop he.symm) h

theorem state_foldl : ∀ (ops : List DirOp) {d : Dir}, (ops.foldl .apply d).state = some st →
    d.state = some st ∨ .put (.state st) ∈ ops
  | [], _, h => .inl h
  | op :: ops, d, h => by
    rcases state_foldl ops (d := d.apply op) h with h | h
    · rcases op with (_ | _ | _) | (_ | _ | _) <;> simp_all [Dir.apply, Dir.put, Dir.remove]
    · exact .inr (List.mem_cons_of_mem _ h)

theorem durable_iff : s.durable v = true ↔
    s.synced.holds v = true ∧ ∀ op ∈ s.pending, op.removes v = false := by
  simp [RulesDisk.durable]

theorem names_seen (h : s.seen.state = some st) : Names s st := state_foldl s.pending h

theorem holds_seen (h : s.durable v = true) : s.seen.holds v = true :=
  holds_foldl s.pending (durable_iff.1 h).1 (durable_iff.1 h).2

/-- What an action keeps that neither removes a file nor changes what is in memory. -/
structure Grown (b : String) (a : CacheAct) (s s' : RulesDisk) : Prop where
  archives : ∀ v ∈ s.seen.archives, v ∈ s'.seen.archives
  solid : ∀ v, Solid b s v → Solid b s' v
  stored : ∀ st, Names s' st → Names s st ∨ a = .rename (.state st)
  cache : s'.cache = s.cache
  pruned : s'.pruned = s.pruned

def IsAdding : CacheAct → Prop
  | .remove _ | .setCache _ => False
  | _ => True

theorem grown_of_eq (h : s'.synced = s.synced) (h' : s'.pending = s.pending)
    (hu : s.unsynced = true → s'.unsynced = true) (hc : s'.cache = s.cache)
    (hp : s'.pruned = s.pruned) : Grown b a s s' where
  archives := by simp [RulesDisk.seen, h, h']
  solid v hv := by
    simp only [Solid, RulesDisk.durable, h, h'] at hv ⊢
    exact hv.imp_left hu
  stored := by simp +contextual [Names, h, h']
  cache := hc
  pruned := hp

theorem grown_rename : Grown b (.rename file) s { s with pending := s.pending ++ [.put file] } where
  archives v h := by
    have hseen : ({ s with pending := s.pending ++ [.put file] } : RulesDisk).seen =
        s.seen.put file := by simp [RulesDisk.seen, Dir.apply]
    rw [hseen]
    cases file with
    | archive => exact List.mem_cons_of_mem _ h
    | _ => exact h
  solid v h := by
    simp only [Solid, durable_iff] at h ⊢
    simpa [DirOp.removes, or_imp, forall_and] using h
  stored st h := by
    simp only [Names, List.mem_append, List.mem_singleton, DirOp.put.injEq] at h
    rcases h with h | h | rfl
    exacts [.inl (.inl h), .inl (.inr h), .inr rfl]
  cache := rfl
  pruned := rfl

theorem grown_syncDir : Grown b .syncDir s { s with synced := s.seen, pending := [] } where
  archives _ := id
  solid _ h := h.imp_right fun h' => h'.imp_right fun hd =>
    durable_iff.2 ⟨holds_seen hd, by simp⟩
  stored _ h := .inl (names_seen (h.resolve_right List.not_mem_nil))
  cache := rfl
  pruned := rfl

theorem exec_grown {r : cacheSig.Res a} (ha : IsAdding a)
    (h : RulesDisk.exec l t s a = some (r, s')) : Grown b a s s' := by
  cases a with
  | remove => exact ha.elim
  | setCache => exact ha.elim
  | rename file =>
    cases h
    split_ifs
    · exact grown_rename file
    · exact grown_of_eq rfl rfl id rfl rfl
  | syncDir =>
    cases h
    split_ifs
    · exact grown_syncDir
    · exact grown_of_eq rfl rfl id rfl rfl
  | cached =>
    cases h
    exact grown_of_eq rfl rfl (fun hu => by simp [hu]) rfl rfl
  | _ =>
    cases h
    exact grown_of_eq rfl rfl id rfl rfl

theorem CacheInv.grown (hi : CacheInv b s) (hg : Grown b a s s')
    (hst : ∀ st, a = .rename (.state st) → Backed b s st) : CacheInv b s' where
  stored st h := by
    obtain h' | rfl := hg.stored st h
    · exact (hi.stored st h').imp hg.solid
    · exact (hst st rfl).imp hg.solid
  cache := by
    rw [hg.cache]
    exact hi.cache.imp_right (hg.solid _)
  pruned := by
    rw [hg.pruned]
    exact hi.pruned

def Lasting (b : String) (P : RulesDisk → Prop) : Prop :=
  ∀ a s s', Grown b a s s' → P s → P s'

theorem lasting_backed : Lasting b (Backed b · st) := fun _ _ _ hg h => h.imp hg.solid

theorem triple_adding (ha : IsAdding a) (hP : Lasting b P)
    (hst : ∀ st, a = .rename (.state st) → ∀ s, P s → Backed b s st)
    {Q : cacheSig.Res a → RulesDisk → Prop}
    (hQ : ∀ l s r s', CacheInv b s → P s → RulesDisk.exec l 0 s a = some (r, s') → Q r s') :
    (cacheRules b).Triple 0 P (cacheAct a) fun r s => P s ∧ Q r s := by
  refine .perform stable_alone (fun _ => stable_alone) fun s l r s' hi hs _ he _ => ?_
  have hg : Grown b a s s' := exec_grown (t := 0) ha he
  exact ⟨hi.grown hg fun st h => hst st h s hs, rfl, hP _ _ _ hg hs, hQ l s r s' hi hs he⟩

theorem readCacheState_backed : (cacheRules b).Triple 0 (fun _ => True) readCacheState
    fun st s => st = ⟨"", ""⟩ ∨ Backed b s st := by
  have hread : (cacheRules b).Triple 0 (fun _ => True) (cacheAct .readState)
      fun (res : Except Unit (Option CacheState)) s =>
        True ∧ ∀ st, res = .ok (some st) → Backed b s st := by
    refine triple_adding (a := .readState) trivial (fun _ _ _ _ => id) nofun
      fun l s r s' hi _ he st hr => ?_
    cases he
    cases l with
    | false => exact nomatch hr
    | true => exact hi.stored st (names_seen (Except.ok.inj hr))
  have hblank {P : RulesDisk → Prop} : (cacheRules b).Triple 0 P (.ret ⟨"", ""⟩)
      fun st s => st = ⟨"", ""⟩ ∨ Backed b s st := .ret stable_alone fun _ _ _ => .inl rfl
  refine hread.bind fun res => ?_
  match res with
  | .ok (some st) =>
    dsimp only
    split_ifs
    · exact .ret stable_alone fun s _ h => .inr (h.2 _ rfl)
    · exact hblank
  | .ok none => exact hblank
  | .error _ => exact hblank

def Dir.Has (d : Dir) : CacheFile → Prop
  | .archive v => v ∈ d.archives
  | .signature v => v ∈ d.signatures
  | .state st => d.state = some st

theorem has_put (d : Dir) (file : CacheFile) : (d.put file).Has file := by
  cases file <;> simp [Dir.Has, Dir.put]

theorem failed {Q Q' : RulesDisk → Prop} : (cacheRules b).Triple 0 (fun s => P s ∧ Q' s)
    (.ret false) fun ok s => P s ∧ (ok = true → Q s) :=
  .ret stable_alone fun _ _ h => ⟨h.1, nofun⟩

theorem writeCacheFile_has (hP : Lasting b P)
    (hst : ∀ st, file = .state st → ∀ s, P s → Backed b s st) :
    (cacheRules b).Triple 0 P (writeCacheFile file)
      fun ok s => P s ∧ (ok = true → s.seen.Has file ∧ s.pending = []) := by
  have hwrite := triple_adding (b := b) (a := .writeTemp) trivial hP nofun
    (Q := fun _ _ => True) fun _ _ _ _ _ _ _ => trivial
  refine hwrite.bind fun written => ?_
  cases (written : Bool) with
  | false => exact failed
  | true =>
  have hrename := triple_adding (b := b) (a := .rename file) trivial hP
    (fun st h => hst st (CacheAct.rename.inj h))
    (Q := fun (ok : Bool) s => ok = true → s.seen.Has file) fun l s r s' _ _ he hr => by
      cases he
      simpa [hr, RulesDisk.seen, Dir.apply] using has_put _ _
  refine (hrename.pre fun _ _ h => h.1).bind fun renamed => ?_
  cases (renamed : Bool) with
  | false => exact failed
  | true =>
  refine .perform stable_alone (fun _ => stable_alone) fun s l r s' hi hs _ he _ => ?_
  have hg : Grown b .syncDir s s' := exec_grown (t := 0) trivial he
  refine ⟨hi.grown hg nofun, rfl, hP _ _ _ hg hs.1, fun hr => ?_⟩
  cases he
  rw [if_pos hr]
  exact ⟨hs.2 rfl, rfl⟩

theorem saveRelease_solid (hP : Lasting b P) :
    (cacheRules b).Triple 0 P (saveRelease v) fun ok s => P s ∧ (ok = true → Solid b s v) := by
  refine (writeCacheFile_has (.archive v) hP nofun).bind fun saved => ?_
  cases saved with
  | false => exact failed
  | true =>
  have hP' : Lasting b fun s => P s ∧ v ∈ s.seen.archives :=
    fun a s s' hg h => ⟨hP a s s' hg h.1, hg.archives v h.2⟩
  refine (writeCacheFile_has (.signature v) hP' nofun).conseq (fun s _ h => ⟨h.1, (h.2 rfl).1⟩)
    fun ok s h => ⟨h.1.1, fun hok => .inr ?_⟩
  obtain ⟨hsig, hsync⟩ := h.2 hok
  have hholds : s.seen.holds v = true := holds_iff.2 ⟨h.1.2, hsig⟩
  refine .inr (durable_iff.2 ⟨?_, by simp [hsync]⟩)
  simpa [RulesDisk.seen, hsync] using hholds

theorem saveCacheState_stored : (cacheRules b).Triple 0 (Backed b · st) (saveCacheState st)
    fun ok s => Backed b s st ∧
      (ok = true → s.synced.state = some st ∧ s.pending = []) := by
  refine (writeCacheFile_has (.state st) lasting_backed ?_).post fun ok s h => ⟨h.1, fun hok => ?_⟩
  · rintro _ ⟨⟩ s h
    exact h
  · obtain ⟨hseen, hsync⟩ := h.2 hok
    exact ⟨by simpa [RulesDisk.seen, hsync, Dir.Has] using hseen, hsync⟩

theorem setCache_inv (hst : ∀ s, P s → st.active = "" ∨ Solid b s st.active)
    {Q : RulesDisk → Prop} (hQ : ∀ s, P s → Q { s with cache := st }) :
    (cacheRules b).Triple 0 P (cacheAct (.setCache st)) fun _ => Q := by
  refine .perform stable_alone (fun _ => stable_alone) fun s l r s' hi hs _ he _ => ?_
  cases he
  exact ⟨⟨hi.stored, hst s hs, hi.pruned⟩, rfl, hQ s hs⟩

/-- `pruneCache` removes files while the state in memory is that of the directory, which is
synced. -/
def Settled (st : CacheState) (s : RulesDisk) : Prop :=
  s.cache = st ∧ s.synced.state = some st ∧ ∀ op ∈ s.pending, ∃ file, op = .remove file

theorem Settled.names {st' : CacheState} (h : Settled st s) (hn : Names s st') : st' = st := by
  rcases hn with hn | hn
  · exact Option.some.inj (hn.symm.trans h.2.1)
  · obtain ⟨file, hf⟩ := h.2.2 _ hn
    cases hf

theorem remove_inv {file : CacheFile} (ha : file.version ≠ st.active)
    (hp : file.version ≠ st.previous) :
    (cacheRules b).Triple 0 (Settled st) (cacheAct (.remove file)) fun _ => Settled st := by
  refine .keeps stable_alone fun s l r s' hi hs _ he _ => ?_
  cases he
  split_ifs
  swap
  · exact ⟨hi, rfl, hs⟩
  have hs' : Settled st { s with
      pending := s.pending ++ [.remove file], pruned := (file, s.seen, s.synced) :: s.pruned } := by
    refine ⟨hs.1, hs.2.1, fun op hop => ?_⟩
    rcases List.mem_append.1 hop with hop | hop
    · exact hs.2.2 op hop
    · exact ⟨file, List.mem_singleton.1 hop⟩
  have hsolid : ∀ v, file.version ≠ v → Solid b s v → Solid b { s with
      pending := s.pending ++ [.remove file]
      pruned := (file, s.seen, s.synced) :: s.pruned } v := by
    intro v hv h
    simp only [Solid, durable_iff] at h ⊢
    simpa [DirOp.removes, or_imp, forall_and, hv] using h
  refine ⟨⟨fun st' h => ?_, ?_, fun x hx st' h => ?_⟩, rfl, hs'⟩
  · obtain rfl := hs'.names h
    have hb := hi.stored st' (.inl hs.2.1)
    exact ⟨hsolid _ ha hb.1, hb.2.imp_right (hsolid _ hp)⟩
  · refine hi.cache.imp_right (hsolid _ ?_)
    rw [hs.1]
    exact ha
  · obtain rfl | hx := List.mem_cons.1 hx
    · obtain rfl := hs.names (h.elim names_seen .inl)
      exact ⟨ha, hp⟩
    · exact hi.pruned x hx st' h

theorem pruneFiles_inv : ∀ files, (cacheRules b).Triple 0 (Settled st) (pruneFiles st files)
    fun _ => Settled st
  | [] => .same stable_alone
  | file :: rest => by
    unfold pruneFiles
    split_ifs with h
    · exact pruneFiles_inv rest
    · rw [not_or, not_or] at h
      exact (remove_inv h.2.1 h.2.2).bind fun _ => pruneFiles_inv rest

theorem loadEngine_solid (hP : Lasting b P) :
    (cacheRules b).Triple 0 P (loadEngine b v) fun ok s => P s ∧ (ok = true → Solid b s v) := by
  have hcached := triple_adding (b := b) (a := .cached v) trivial hP nofun
    (Q := fun (ok : Bool) s => ok = true → Solid b s v) fun l s r s' _ _ he hr => by
      cases he
      rcases hd : s.durable v
      · exact .inl (by simp [hr])
      · exact .inr (.inr hd)
  have hload : (cacheRules b).Triple 0 P (loadRelease b v)
      fun ok s => P s ∧ (ok = true → Solid b s v) := by
    refine hcached.bind fun cached => ?_
    cases (cached : Bool) with
    | true => exact .ret stable_alone fun _ _ h => h
    | false =>
    have hbundled (hv : v = b) := triple_adding (b := b) (a := .bundledRules) trivial hP nofun
      (Q := fun (ok : Bool) s => ok = true → Solid b s v) fun _ _ _ _ _ _ _ _ =>
        .inr (.inl hv)
    exact .ite (fun hv => (hbundled hv).pre fun _ _ h => h.1) fun _ => failed
  refine hload.bind fun loaded => ?_
  cases loaded with
  | false => exact failed
  | true =>
  have hP' : Lasting b fun s => P s ∧ Solid b s v :=
    fun a s s' hg h => ⟨hP a s s' hg h.1, hg.solid v h.2⟩
  exact (triple_adding (a := .compile v) trivial hP' nofun (Q := fun _ _ => True)
    fun _ _ _ _ _ _ _ => trivial).conseq (fun _ _ h => ⟨h.1, h.2 rfl⟩)
      fun _ _ h => ⟨h.1.1, fun _ => h.1.2⟩

theorem Backed.restored {stored : CacheState} (h : stored = ⟨"", ""⟩ ∨ Backed b s stored)
    (hv : Solid b s v) : Backed b s (restoredState pin stored v) := by
  refine ⟨hv, ?_⟩
  unfold restoredState
  obtain rfl | h := h
  · split_ifs <;> exact .inl rfl
  · split_ifs
    · exact h.2
    · exact .inr h.1
    · exact .inl rfl

theorem tryVersions_solid (pin : String) (stored : CacheState) : ∀ versions seen,
    (cacheRules b).Triple 0 (fun s => stored = ⟨"", ""⟩ ∨ Backed b s stored)
      (tryVersions b pin stored versions seen) fun st s => st.active = "" ∨ Solid b s st.active
  | [], _ => .ret stable_alone fun _ _ _ => .inl rfl
  | version :: rest, seen => by
    unfold tryVersions
    split_ifs
    · exact tryVersions_solid pin stored rest seen
    have hP : Lasting b fun s => stored = ⟨"", ""⟩ ∨ Backed b s stored :=
      fun _ _ _ hg h => h.imp_right fun h' => h'.imp hg.solid
    refine (loadEngine_solid hP).bind fun usable => ?_
    cases usable with
    | false => exact (tryVersions_solid pin stored rest _).pre fun _ _ h => h.1
    | true =>
    have hsave : (cacheRules b).Triple 0 (Backed b · (restoredState pin stored version))
        (saveIfChanged stored (restoredState pin stored version))
        fun _ s => Backed b s (restoredState pin stored version) := by
      unfold saveIfChanged
      split_ifs
      · exact .same stable_alone
      · exact saveCacheState_stored.post fun _ _ h => h.1
    exact (hsave.pre fun s _ h => .restored pin h.1 (h.2 rfl)).bind fun _ =>
      .ret stable_alone fun _ _ h => .inr h.1

theorem restoreRules_inv :
    (cacheRules b).Triple 0 (fun _ => True) (restoreRules b pin) fun _ _ => True :=
  readCacheState_backed.bind fun stored => (tryVersions_solid pin stored _ _).bind fun _ =>
    setCache_inv (fun _ => id) fun _ _ => trivial

theorem save_solid (hP : Lasting b P) :
    (cacheRules b).Triple 0 P release.save
      fun ok s => P s ∧ (ok = true → Solid b s (release.version b)) := by
  cases release with
  | bundled => exact .ret stable_alone fun _ _ h => ⟨h, fun _ => .inr (.inl rfl)⟩
  | archived => exact saveRelease_solid hP

theorem finishUpdate_inv :
    (cacheRules b).Triple 0 (fun _ => True) (finishUpdate b release) fun _ _ => True := by
  have hget := triple_adding (b := b) (a := .getCache) trivial (P := fun _ => True)
    (fun _ _ _ _ => id) nofun
    (Q := fun (cache : CacheState) s => cache.active = "" ∨ Solid b s cache.active)
    fun l s r s' hi _ he => by
      cases he
      exact hi.cache
  refine hget.bind fun cache => ?_
  have hP : Lasting b fun s => CacheState.active cache = "" ∨ Solid b s (CacheState.active cache) :=
    fun _ _ _ hg h => h.imp_right (hg.solid _)
  refine ((save_solid release hP).pre fun _ _ h => h.2).bind fun saved => ?_
  cases saved with
  | false => exact .done ()
  | true =>
  refine (saveCacheState_stored.pre fun s _ h => ⟨h.2 rfl, h.1⟩).bind fun stored => ?_
  cases stored with
  | false => exact .done ()
  | true =>
  refine .bind (Q := fun _ => Settled ⟨release.version b, CacheState.active cache⟩)
    (setCache_inv (fun s h => .inr h.1.1) fun s h => ⟨rfl, (h.2 rfl).1, by simp [(h.2 rfl).2]⟩)
    fun _ => ?_
  refine (Rules.Triple.keeps stable_alone ?_).bind fun files =>
    (pruneFiles_inv files).post fun _ _ _ => trivial
  intro s l r s' hi hs _ he _
  cases he
  exact ⟨hi, rfl, hs⟩

theorem operations_inv : ∀ ops,
    (cacheRules b).Triple 0 (fun _ => True) (operations b ops) fun _ _ => True
  | [] => .done ()
  | .restoreRules pin :: rest => (restoreRules_inv pin).bind fun _ => operations_inv rest
  | .finishUpdate release :: rest => (finishUpdate_inv release).bind fun _ => operations_inv rest

theorem cacheRules_closed : (cacheRules b).Closed where
  stable _ := .const True
  safe _ _ _ _ h := h.1.elim

theorem session_inv {ops : List CacheOp} {labels : List Bool}
    (h : s.session b ops labels = some s') (hi : CacheInv b s) : CacheInv b s' := by
  obtain ⟨c, hrun, rfl⟩ := Option.map_eq_some_iff.1 h
  have hblank : CacheInv b { s with cache := ⟨"", ""⟩ } := ⟨hi.stored, .inl rfl, hi.pruned⟩
  have hgood : (cacheRules b).Good ((rulesCache b).launch [ops] { s with cache := ⟨"", ""⟩ }) := by
    refine Rules.good_launch hblank (fun _ _ => trivial) fun t τ hτ => ?_
    cases t with
    | zero =>
      cases hτ
      exact operations_inv ops _ hblank trivial
    | succ => cases hτ
  exact (Rules.good_run cacheRules_closed hgood
    (Rules.follows_any (fun _ => trivial) (fun _ _ _ => trivial) _ _) hrun).1

theorem mem_of_mem_survivors {ops : List DirOp} {kept : List Bool} {op : DirOp}
    (h : op ∈ survivors ops kept) : op ∈ ops := by
  obtain ⟨x, hx, rfl⟩ := List.mem_map.1 h
  exact (List.of_mem_zip (List.mem_of_mem_filter hx)).1

theorem crash_inv (hi : CacheInv b s) (kept : Option (List Bool)) : CacheInv b (s.crash kept) := by
  cases kept with
  | none => exact hi
  | some kept =>
    have hsolid : ∀ v, Solid b s v → Solid b (s.crash (some kept)) v := fun v hv =>
      hv.imp_right fun h => h.imp_right fun hd => by
        obtain ⟨hholds, hops⟩ := durable_iff.1 hd
        exact durable_iff.2 ⟨holds_foldl _ hholds fun op hop => hops op (mem_of_mem_survivors hop),
          nofun⟩
    refine ⟨fun st hst => (hi.stored st ?_).imp hsolid, hi.cache.imp_right (hsolid _), hi.pruned⟩
    exact (state_foldl _ (hst.resolve_right List.not_mem_nil)).imp_right mem_of_mem_survivors

theorem sessions_inv : ∀ {past : List (List CacheOp × List Bool × Option (List Bool))}
    {s s' : RulesDisk}, s.sessions b past = some s' → CacheInv b s → CacheInv b s'
  | [], _, _, h, hi => by
    cases h
    exact hi
  | (ops, labels, kept) :: rest, s, s', h, hi => by
    obtain ⟨s₁, h₁, hrest⟩ := Option.bind_eq_some_iff.1 h
    exact sessions_inv hrest (crash_inv (session_inv h₁ hi) kept)

theorem empty_inv : CacheInv b .empty where
  stored := by simp [Names, RulesDisk.empty]
  cache := .inl rfl
  pruned := nofun

/-- What `state.json` names is there, as long as no release was restored from files that had not
been synced, and what `pruneCache` removed was never named. -/
theorem named_releases_complete {past : List (List CacheOp × List Bool × Option (List Bool))}
    {ops : List CacheOp} {labels : List Bool} (hpast : RulesDisk.empty.sessions b past = some s)
    (h : s.session b ops labels = some s') :
    (s'.unsynced = false → ∀ st, s'.seen.state = some st →
      (st.active = b ∨ s'.seen.holds st.active = true) ∧
      (st.previous = "" ∨ st.previous = b ∨ s'.seen.holds st.previous = true)) ∧
    ∀ file seen synced, (file, seen, synced) ∈ s'.pruned →
      ∀ st, seen.state = some st ∨ synced.state = some st →
        file.version ≠ st.active ∧ file.version ≠ st.previous := by
  have hinv := session_inv h (sessions_inv hpast empty_inv)
  refine ⟨fun hu st hst => ?_, fun file seen synced hx => hinv.pruned _ hx⟩
  have hholds : ∀ v, Solid b s' v → v = b ∨ s'.seen.holds v = true := by
    rintro v (hv | hv | hv)
    · exact nomatch hu.symm.trans hv
    · exact .inl hv
    · exact .inr (holds_seen hv)
  obtain ⟨ha, hp⟩ := hinv.stored st (names_seen hst)
  exact ⟨hholds _ ha, hp.imp_right (hholds _)⟩

/-- Three updates: the third removes the files of the first. -/
theorem named_releases_complete_updates : ∃ s',
    RulesDisk.empty.session "4.25.0" (["4.1.0", "4.2.0", "4.3.0"].map fun v =>
      .finishUpdate (.archived v)) (List.replicate 38 true) = some s' ∧
    s'.seen.state = some ⟨"4.3.0", "4.2.0"⟩ ∧ s'.pruned.length = 2 ∧
    s'.seen.holds "4.3.0" = true ∧ s'.seen.holds "4.2.0" = true := by
  have hrun : (RulesDisk.empty.session "4.25.0" (["4.1.0", "4.2.0", "4.3.0"].map fun v =>
      .finishUpdate (.archived v)) (List.replicate 38 true)).map (fun s =>
        (s.seen.state, s.pruned.length, s.unsynced)) =
      some (some ⟨"4.3.0", "4.2.0"⟩, 2, false) := by decide +kernel
  obtain ⟨s', h, heq⟩ := Option.map_eq_some_iff.1 hrun
  simp only [Prod.mk.injEq] at heq
  obtain ⟨hst, hp, hu⟩ := heq
  have hpast : RulesDisk.empty.sessions "4.25.0" [] = some .empty := rfl
  obtain ⟨ha, hprev⟩ := (named_releases_complete hpast h).1 hu _ hst
  exact ⟨s', h, hst, hp, ha.resolve_left (by decide),
    (hprev.resolve_left (by decide)).resolve_left (by decide)⟩

/-- The directory could not be synced after the signature had got its name, and the machine crashed
before it was synced after `state.json` had. -/
theorem restored_release_lost : ∃ s,
    RulesDisk.empty.sessions "4.25.0"
      [([.finishUpdate (.archived "4.2.0")], [true, true, true, true, true, true, false], none),
        ([.restoreRules "4.2.0"], [true, true, true, true, true], some [false, true])] = some s ∧
    s.session "4.25.0" [] [] = some s ∧ s.seen.state = some ⟨"4.2.0", ""⟩ ∧
    s.seen.holds "4.2.0" = false := by
  refine ⟨⟨⟨["4.2.0"], [], some ⟨"4.2.0", ""⟩⟩, [], ⟨"", ""⟩, [], true⟩, ?_, rfl, rfl, ?_⟩
  · decide +kernel
  · decide +kernel

end Specter.Waf
