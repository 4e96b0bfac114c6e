import Specter.Lib.Rely
import Specter.Identity

/-!
# One storage provider for life

A start passes the preflight with a provider that has stores only after it has synced the directory
while the marker names that provider.  From then on the marker stays: nothing removes it, a link
does not replace it, and it has its content because that was synced before the link.
-/

namespace Specter.Identity

open Lib

variable {a : IdentityAct}

/-- The marker names this provider for good. -/
def Disk.Established (s : Disk) (p : Provider) : Prop :=
  s.synced = true ∧ s.marker = some ⟨p.text, true⟩

/-- The content of the marker was synced. -/
def Disk.Firm (s : Disk) : Prop := ∀ f, s.marker = some f → f.synced = true

theorem text_injective {p q : Provider} (h : p.text = q.text) : p = q := by
  cases p <;> cases q <;> first | rfl | exact absurd h (by decide)

theorem Disk.Established.unique {s : Disk} {p q : Provider} (hp : s.Established p)
    (hq : s.Established q) : p = q :=
  text_injective (congrArg File.text (Option.some.inj (hp.2.symm.trans hq.2)))

structure IdentityInv (s : Disk) : Prop where
  firm : s.Firm
  passed : ∀ x ∈ s.passed, x.2 = .memory ∨ s.Established x.2
  stores : ∀ x ∈ s.stores, ∃ p : Provider, p.storeDir = some x.name ∧ s.Established p

/-- What a step of thread `t` leaves to the others. -/
structure Kept (t : ℕ) (s s' : Disk) : Prop where
  established : ∀ p, s.Established p → s'.Established p
  others : ∀ u, u ≠ t → u ∈ s'.alive →
    u ∈ s.alive ∧ s'.temps u = s.temps u ∧ ∀ x, s.marker = some x → s'.marker = some x

theorem Kept.refl (t : ℕ) (s : Disk) : Kept t s s :=
  ⟨fun _ => id, fun _ _ h => ⟨h, rfl, fun _ => id⟩⟩

section Steps

variable {l : DiskLabel} {s s' : Disk} {t : ℕ} {r : Except String a.Out}

theorem attempt_cases {α : Type} {x : α} {s₁ : Disk} {r : Except String α}
    (h : s.attempt l x s₁ = (r, s')) : (s' = s ∧ ∃ e, r = .error e) ∨ (s' = s₁ ∧ r = .ok x) := by
  unfold Disk.attempt at h
  split at h <;> cases h
  · exact .inl ⟨rfl, _, rfl⟩
  · exact .inr ⟨rfl, rfl⟩

theorem linkMarker_cases {r : Except String Unit} (h : s.linkMarker l t = (r, s')) :
    (s' = s ∧ ∃ e, r = .error e) ∨ (s.marker = none ∧ s' = { s with marker := s.temps t }) := by
  unfold Disk.linkMarker at h
  split at h
  · cases h
    exact .inl ⟨rfl, _, rfl⟩
  · exact (attempt_cases h).imp_right fun h' => ⟨by assumption, h'.1⟩

def IdentityAct.IsReading : IdentityAct → Prop
  | .lstatMarker | .readMarker | .readDir | .readVnode _ | .stat .. | .other _ => True
  | _ => False

theorem exec_operate (h : Disk.exec l t s a = some (r, s')) (hb : a ≠ .begins) (hc : a ≠ .crash) :
    t ∈ s.alive ∧ s.operate l t a = (r, s') := by
  cases a <;> first
    | contradiction
    | simpa only [Disk.exec, Option.ite_none_right_eq_some, Option.some.injEq] using h

theorem operate_reading (ha : a.IsReading) (h : s.operate l t a = (r, s')) : s' = s := by
  cases a <;> first
    | exact ha.elim
    | exact (attempt_cases h).elim (·.1) (·.1)

theorem exec_kept (h : Disk.exec l t s a = some (r, s')) :
    Kept t s s' ∧ ((∀ p, a ≠ .passes p) → s'.passed = s.passed) ∧
      ((∀ x, a ≠ .createStore x) → s'.stores ⊆ s.stores) ∧
      (a ≠ .linkMarker → s.Firm → s'.Firm) := by
  have hrefl : Kept t s s ∧ ((∀ p, a ≠ .passes p) → s.passed = s.passed) ∧
      ((∀ x, a ≠ .createStore x) → s.stores ⊆ s.stores) ∧ (a ≠ .linkMarker → s.Firm → s.Firm) :=
    ⟨.refl t s, fun _ => rfl, fun _ => List.Subset.refl _, fun _ => id⟩
  by_cases ha : a.IsReading
  · obtain ⟨-, ho⟩ := exec_operate h (by rintro rfl; exact ha) (by rintro rfl; exact ha)
    rw [operate_reading ha ho]
    exact hrefl
  cases a with
  | lstatMarker | readMarker | readDir | readVnode _ | stat _ _ | other _ => exact absurd trivial ha
  | begins =>
    cases h
    exact ⟨⟨fun _ => id, fun u hu hm => ⟨(List.mem_cons.1 hm).resolve_left hu, rfl, fun _ => id⟩⟩,
      fun _ => rfl, fun _ => List.Subset.refl _, fun _ => id⟩
  | crash =>
    cases h
    refine ⟨⟨fun p hp => ⟨hp.1, ?_⟩, nofun⟩, fun _ => rfl, fun _ => List.filter_subset_self _,
      fun _ hf f h => ?_⟩
    · simp [Disk.crash, hp.1, hp.2, File.afterCrash]
    · simp only [Disk.crash, Option.ite_none_right_eq_some, Option.map_eq_some_iff] at h
      obtain ⟨-, f', hf', rfl⟩ := h
      rw [File.afterCrash, if_pos (hf f' hf')]
      exact hf f' hf'
  | createTemp | writeTemp text | syncTemp =>
    obtain ⟨-, ho⟩ := exec_operate h nofun nofun
    obtain ⟨rfl, -⟩ | ⟨rfl, -⟩ := attempt_cases ho
    · exact hrefl
    · exact ⟨⟨fun _ => id, fun u hu hm => ⟨hm, Function.update_of_ne hu _ _, fun _ => id⟩⟩,
        fun _ => rfl, fun _ => List.Subset.refl _, fun _ => id⟩
  | linkMarker =>
    obtain ⟨-, ho⟩ := exec_operate h nofun nofun
    obtain ⟨rfl, -⟩ | ⟨hnone, rfl⟩ := linkMarker_cases ho
    · exact hrefl
    · refine ⟨⟨fun p hp => ?_, fun u hu hm => ⟨hm, rfl, fun x hx => ?_⟩⟩, fun _ => rfl,
        fun _ => List.Subset.refl _, fun hne => absurd rfl hne⟩
      · exact nomatch hnone.symm.trans hp.2
      · exact nomatch hnone.symm.trans hx
  | syncDir =>
    obtain ⟨-, ho⟩ := exec_operate h nofun nofun
    obtain ⟨rfl, -⟩ | ⟨rfl, -⟩ := attempt_cases ho
    · exact hrefl
    · refine ⟨⟨fun p hp => ⟨?_, hp.2⟩, fun u hu hm => ⟨hm, rfl, fun _ => id⟩⟩, fun _ => rfl,
        fun _ => List.Subset.refl _, fun _ => id⟩
      simp [hp.2]
  | passes p =>
    obtain ⟨-, ho⟩ := exec_operate h nofun nofun
    cases ho
    exact ⟨⟨fun _ => id, fun u hu hm => ⟨hm, rfl, fun _ => id⟩⟩, fun hne => absurd rfl (hne p),
      fun _ => List.Subset.refl _, fun _ => id⟩
  | createStore x =>
    obtain ⟨-, ho⟩ := exec_operate h nofun nofun
    obtain ⟨rfl, -⟩ | ⟨rfl, -⟩ := attempt_cases ho
    · exact hrefl
    · exact ⟨⟨fun _ => id, fun u hu hm => ⟨hm, rfl, fun _ => id⟩⟩, fun _ => rfl,
        fun hne => absurd rfl (hne x), fun _ => id⟩

end Steps

def identityRules : Rules servers where
  ok _ := True
  known _ _ _ := True
  inv := IdentityInv
  guar := Kept
  fresh _ _ := True
  pre _ _ := False
  post _ _ := True

section Programs

variable {t : ℕ} {p : Provider} {P : Disk → Prop} {α β : Type} {q : StartM α} {Q : α → Disk → Prop}
  {msg : String} (dir : String)

/-- Started where `P` holds, the program fails or ends in `Q`. -/
abbrev Leads (t : ℕ) (P : Disk → Prop) (q : StartM α) (Q : α → Disk → Prop) : Prop :=
  identityRules.Triple t P q.run (Rules.Outcome Q fun _ => True)

theorem stable_established : identityRules.Stable t fun s => s.Established p :=
  fun _ _ _ _ _ _ hg _ h => hg.established p h

theorem stable_passable : identityRules.Stable t fun s => p = .memory ∨ s.Established p :=
  fun _ _ _ _ _ _ hg _ h => h.imp_right (hg.established p)

theorem stable_marker (φ : Prop) (x : File) :
    identityRules.Stable t fun s => φ → t ∈ s.alive → s.marker = some x :=
  fun _ _ _ hne _ _ hg _ h hφ ht =>
    have ho := hg.others t hne.symm ht
    ho.2.2 x (h hφ ho.1)

theorem stable_temp (x : File) :
    identityRules.Stable t fun s => t ∈ s.alive → s.temps t = some x :=
  fun _ _ _ hne _ _ hg _ h ht =>
    have ho := hg.others t hne.symm ht
    ho.2.1.trans (h ho.1)

theorem Leads.seq {f : α → StartM β} {Q' : β → Disk → Prop} (hq : Leads t P q Q)
    (hf : ∀ a, Leads t (Q a) (f a) Q') : Leads t P (q >>= f) Q' :=
  Rules.Triple.seq (.const True) hq hf

theorem leads_throw (e : String) : Leads t P (throw e) Q :=
  .ret (.const True) fun _ _ _ => trivial

theorem leads_pure (a : α) (hQ : identityRules.Stable t (Q a)) (h : ∀ s, P s → Q a s) :
    Leads t P (pure a) Q :=
  .ret hQ fun s _ => h s

theorem leads_wrap (hQ : ∀ r, identityRules.Stable t (Q r)) (h : Leads t P q Q) :
    Leads t P (wrap msg q) Q := by
  refine .bind h fun r => ?_
  rcases r with e | r
  · exact .ret (.const True) fun _ _ _ => trivial
  · exact .ret (hQ r) fun _ _ h => h

theorem leads_act {Q : a.Out → Disk → Prop} (hP : identityRules.Stable t P)
    (hQ : ∀ r, identityRules.Stable t (Q r))
    (h : ∀ s l r s', IdentityInv s → P s → Disk.exec l t s a = some (r, s') → Kept t s s' →
      IdentityInv s' ∧ ∀ x, r = .ok x → Q x s') : Leads t P (io a) Q := by
  refine .perform hP ?_ fun s l r s' hi hPs _ he _ => ?_
  · rintro (e | r)
    · exact .const True
    · exact hQ r
  have hk := (exec_kept he).1
  obtain ⟨hi', hr⟩ := h s l r s' hi hPs he hk
  refine ⟨hi', hk, ?_⟩
  rcases r with e | r
  · trivial
  · exact hr r rfl

theorem leads_io {Q : a.Out → Disk → Prop} (hp : ∀ p, a ≠ .passes p) (hs : ∀ x, a ≠ .createStore x)
    (hlink : a ≠ .linkMarker) (hP : identityRules.Stable t P)
    (hQ : ∀ r, identityRules.Stable t (Q r))
    (h : ∀ s l r s', P s → Disk.exec l t s a = some (.ok r, s') → Q r s') : Leads t P (io a) Q := by
  refine leads_act hP hQ fun s l r s' hi hPs he hk => ?_
  obtain ⟨-, hpass, hsub, hfirm⟩ := exec_kept he
  refine ⟨⟨hfirm hlink hi.firm, fun x hx => ?_, fun x hx => ?_⟩,
    fun x hx => h s l x s' hPs (hx ▸ he)⟩
  · rw [hpass hp] at hx
    exact (hi.passed x hx).imp_right (hk.established _)
  · obtain ⟨q, hq, he⟩ := hi.stores x (hsub hs hx)
    exact ⟨q, hq, hk.established q he⟩

theorem leads_look (a : IdentityAct) (ha : a.IsReading) (hP : identityRules.Stable t P) :
    Leads t P (wrap msg (io a)) fun _ => P := by
  refine leads_wrap (fun _ => hP) (leads_io (by rintro p rfl; exact ha) (by rintro x rfl; exact ha)
    (by rintro rfl; exact ha) hP (fun _ => hP) fun s l r s' hs he => ?_)
  obtain ⟨-, ho⟩ := exec_operate he (by rintro rfl; exact ha) (by rintro rfl; exact ha)
  rwa [operate_reading ha ho]

theorem leads_readMarker (msg : String) : Leads t (fun _ => True) (wrap msg (io .readMarker))
    fun (data : String) s => data ≠ "" → t ∈ s.alive → s.marker = some ⟨data, true⟩ := by
  refine leads_wrap (fun _ => stable_marker _ _) (leads_act (.const True)
    (fun _ => stable_marker _ _) fun s l r s' hi _ he _ => ?_)
  obtain ⟨-, ho⟩ := exec_operate he nofun nofun
  obtain rfl := operate_reading (a := .readMarker) trivial ho
  refine ⟨hi, fun data hr hne _ => ?_⟩
  obtain ⟨-, e, hr'⟩ | ⟨-, hr'⟩ := attempt_cases ho
  · cases hr'.symm.trans hr
  · cases hr'.symm.trans hr
    rcases hm : s'.marker with _ | ⟨text, synced⟩
    · exact absurd (by rw [hm]; rfl) hne
    · obtain rfl : synced = true := hi.firm _ hm
      rfl

def Read (t : ℕ) (m : Option Provider) (s : Disk) : Prop :=
  ∀ q, m = some q → t ∈ s.alive → s.marker = some ⟨q.text, true⟩

theorem stable_read (m : Option Provider) : identityRules.Stable t (Read t m) :=
  fun s s' t' hne hi hi' hg hk h q => stable_marker _ ⟨q.text, true⟩ s s' t' hne hi hi' hg hk (h q)

theorem leads_readKVProviderMarker :
    Leads t (fun _ => True) (readKVProviderMarker dir) (Read t) := by
  refine (leads_look .lstatMarker trivial (.const True)).seq fun info => ?_
  rcases info with _ | size
  · exact leads_pure _ (stable_read none) fun _ _ => nofun
  dsimp only
  split_ifs
  · exact leads_throw _
  refine (leads_readMarker _).seq fun data => ?_
  split_ifs with h1 h2
  · refine leads_pure _ (stable_read _) ?_
    rintro s h q ⟨⟩
    exact h1 ▸ h (by rw [h1]; decide)
  · refine leads_pure _ (stable_read _) ?_
    rintro s h q ⟨⟩
    exact h2 ▸ h (by rw [h2]; decide)
  · exact leads_throw _

theorem leads_inspectChild (dir vnode : String) (provider : Option Provider) (child : String)
    (hP : identityRules.Stable t P) :
    Leads t P (inspectChild dir vnode provider child) fun _ => P := by
  unfold inspectChild
  dsimp only
  split
  · exact leads_throw _
  refine (leads_look (.stat vnode child) trivial hP).seq fun (isDir : Bool) => ?_
  split_ifs
  · exact leads_throw _
  · exact leads_throw _
  · exact leads_pure _ hP fun _ => id

theorem leads_inspectChildren (dir vnode : String) (hP : identityRules.Stable t P) :
    ∀ (children : List String) (provider : Option Provider),
      Leads t P (inspectChildren dir vnode provider children) fun _ => P
  | [], _ => leads_pure _ hP fun _ => id
  | child :: rest, provider => (leads_inspectChild dir vnode provider child hP).seq fun provider =>
      leads_inspectChildren dir vnode hP rest provider

theorem leads_inspectEntries (dir : String) (hP : identityRules.Stable t P) :
    ∀ (entries : List String) (provider : Option Provider),
      Leads t P (inspectEntries dir provider entries) fun _ => P
  | [], _ => leads_pure _ hP fun _ => id
  | entry :: rest, provider => by
    unfold inspectEntries
    split_ifs
    · refine (leads_look (.readVnode entry) trivial hP).seq fun (children : List String) => ?_
      exact (leads_inspectChildren dir entry hP children provider).seq fun provider =>
        leads_inspectEntries dir hP rest provider
    · exact leads_inspectEntries dir hP rest provider

theorem leads_inspectKVLayout (hP : identityRules.Stable t P) :
    Leads t P (inspectKVLayout dir) fun _ => P :=
  (leads_look .readDir trivial hP).seq fun (entries : List String) =>
    leads_inspectEntries dir hP entries none

theorem leads_syncKVProviderIdentity : Leads t (Read t (some p)) syncKVProviderIdentity
    fun _ s => s.Established p := by
  refine (leads_look (.other .openDir) trivial (stable_read _)).seq fun (_ : Unit) => ?_
  refine Leads.seq (Q := fun _ s => s.Established p) (leads_wrap (fun _ => stable_established)
    (leads_io nofun nofun nofun (stable_read _) (fun _ => stable_established)
      fun s l r s' hs he => ?_))
    fun (_ : Unit) => leads_look (.other .closeDir) trivial stable_established
  obtain ⟨ht, ho⟩ := exec_operate he nofun nofun
  have hm := hs p rfl ht
  obtain ⟨-, e, hr⟩ | ⟨rfl, -⟩ := attempt_cases ho
  · cases hr
  · exact ⟨by rw [hm]; rfl, hm⟩

theorem leads_publishKVProviderMarker :
    Leads t (fun s => t ∈ s.alive → s.temps t = some ⟨p.text, true⟩) publishKVProviderMarker
      fun _ s => s.Established p := by
  refine Leads.seq (Q := fun _ => Read t (some p)) (leads_act (stable_temp _)
    (fun _ => stable_read _) fun s l r s' hi hs he hk => ?_) fun (_ : Unit) =>
    (leads_look (.other .removeTemp) trivial (stable_read _)).seq fun (_ : Unit) =>
      leads_syncKVProviderIdentity
  obtain ⟨ht, ho⟩ := exec_operate he nofun nofun
  obtain ⟨rfl, e, rfl⟩ | ⟨-, rfl⟩ := linkMarker_cases ho
  · exact ⟨hi, nofun⟩
  · have htemp := hs ht
    refine ⟨⟨fun f hf => ?_, fun x hx => ?_, fun x hx => ?_⟩, fun _ _ => ?_⟩
    · obtain rfl := Option.some.inj (htemp.symm.trans hf)
      rfl
    · exact (hi.passed x hx).imp_right (hk.established _)
    · exact (hi.stores x hx).imp fun q hq => ⟨hq.1, hk.established q hq.2⟩
    · rintro q ⟨⟩ -
      exact htemp

theorem leads_writeKVProviderMarker :
    Leads t (fun _ => True) (writeKVProviderMarker p) fun _ s => s.Established p := by
  have htemp := fun synced => stable_temp (t := t) ⟨p.text, synced⟩
  refine (leads_look (.other .prepareDirectory) trivial (.const True)).seq fun (_ : Unit) => ?_
  refine Leads.seq (Q := fun _ _ => True) (leads_wrap (fun _ => .const True) (leads_io nofun nofun
    nofun (.const True) (fun _ => .const True) fun _ _ _ _ _ _ => trivial)) fun (_ : Unit) => ?_
  refine Leads.seq (Q := fun _ s => t ∈ s.alive → s.temps t = some ⟨p.text, false⟩)
    (leads_wrap (fun _ => htemp false) (leads_io nofun nofun nofun (.const True)
      (fun _ => htemp false) fun s l r s' _ he _ => ?_)) fun (_ : Unit) => ?_
  · obtain ⟨-, ho⟩ := exec_operate he nofun nofun
    obtain ⟨-, e, hr⟩ | ⟨rfl, -⟩ := attempt_cases ho
    · cases hr
    · exact Function.update_self ..
  refine Leads.seq (Q := fun _ s => t ∈ s.alive → s.temps t = some ⟨p.text, true⟩)
    (leads_wrap (fun _ => htemp true) (leads_io nofun nofun nofun (htemp false)
      (fun _ => htemp true) fun s l r s' hs he _ => ?_)) fun (_ : Unit) => ?_
  · obtain ⟨ht, ho⟩ := exec_operate he nofun nofun
    obtain ⟨-, e, hr⟩ | ⟨rfl, -⟩ := attempt_cases ho
    · cases hr
    · simp [Disk.setTemp, hs ht]
  refine (leads_look (.other .closeTemp) trivial (htemp true)).seq fun (_ : Unit) => ?_
  exact leads_wrap (fun _ => stable_established) leads_publishKVProviderMarker

theorem conflict_eq_none {option m : Provider} {dir : String} {layout : Option Provider}
    (h : conflict option dir (some m) layout = none) : m = option := by
  cases layout with
  | none => simpa [conflict] using h
  | some l =>
    simp only [conflict] at h
    split_ifs at h with h1 h2
    exact not_not.1 h2

theorem leads_establish (option : Provider) (dir : String) :
    Leads t (fun _ => True) (establish option dir)
      fun _ s => option = .memory ∨ s.Established option := by
  have hmono : ∀ {P : Disk → Prop} {q : StartM Unit},
      Leads t P q (fun _ s => s.Established option) →
        Leads t P q fun _ s => option = .memory ∨ s.Established option := fun h =>
    h.post fun r s hr => by
      rcases r with e | r
      · trivial
      · exact .inr hr
  refine (leads_readKVProviderMarker dir).seq fun marker => ?_
  refine (leads_inspectKVLayout dir (stable_read marker)).seq fun layout => ?_
  split
  · exact leads_throw _
  rename_i hc
  split
  · exact leads_pure _ stable_passable fun _ _ => .inl rfl
  · obtain rfl := conflict_eq_none hc
    exact hmono leads_syncKVProviderIdentity
  · exact (hmono leads_writeKVProviderMarker).pre fun _ _ _ => trivial

theorem leads_createStores {name : String} (hname : p.storeDir = some name) :
    ∀ vnodes : List ℕ, Leads t (fun s => s.Established p) (createStores name vnodes)
      fun _ s => s.Established p
  | [] => leads_pure _ stable_established fun _ => id
  | i :: rest => by
    refine Leads.seq (Q := fun _ s => s.Established p) ?_ fun (_ : Unit) =>
      leads_createStores hname rest
    refine leads_act stable_established (fun _ => stable_established) fun s l r s' hi hs he hk => ?_
    have hs' := hk.established p hs
    refine ⟨⟨(exec_kept he).2.2.2 nofun hi.firm, fun x hx => ?_, fun x hx => ?_⟩, fun _ _ => hs'⟩
    · rw [(exec_kept he).2.1 nofun] at hx
      exact (hi.passed x hx).imp_right (hk.established _)
    · have hold : x ∈ s.stores → ∃ q : Provider, q.storeDir = some x.name ∧ s'.Established q :=
        fun hm => (hi.stores x hm).imp fun q hq => ⟨hq.1, hk.established q hq.2⟩
      obtain ⟨-, ho⟩ := exec_operate he nofun nofun
      obtain ⟨rfl, -⟩ | ⟨rfl, -⟩ := attempt_cases ho
      · exact hold hx
      · obtain rfl | hm := List.mem_insert_iff.1 hx
        · exact ⟨p, hname, hs'⟩
        · exact hold hm

theorem leads_passes : Leads t (fun s => p = .memory ∨ s.Established p) (io (.passes p))
    fun _ s => p = .memory ∨ s.Established p := by
  refine leads_act stable_passable (fun _ => stable_passable) fun s l r s' hi hs he hk => ?_
  obtain ⟨-, ho⟩ := exec_operate he nofun nofun
  cases ho
  refine ⟨⟨hi.firm, fun x hx => ?_, hi.stores⟩, fun _ _ => hs⟩
  obtain rfl | hm := List.mem_cons.1 hx
  · exact hs
  · exact hi.passed x hm

theorem leads_start (option dir : String) (virtual : ℕ) :
    Leads t (fun _ => True) (start option dir virtual) fun _ _ => True := by
  have htrue : ∀ {q : StartM Unit} {P : Disk → Prop} {Q : Unit → Disk → Prop}, Leads t P q Q →
      Leads t P q fun _ _ => True := fun h => h.post fun r _ _ => by cases r <;> trivial
  refine Leads.seq (Q := fun _ _ => True) (leads_io nofun nofun nofun (.const True)
    (fun _ => .const True) fun _ _ _ _ _ _ => trivial) fun (_ : Unit) => ?_
  refine Leads.seq (Q := fun q s => q = .memory ∨ s.Established q) ?_ fun q =>
    leads_passes.seq fun (_ : Unit) => ?_
  · unfold preflightKVProvider
    split
    · exact leads_throw _
    rename_i q _
    split_ifs
    · exact leads_throw _
    exact (leads_establish q dir).seq fun _ => leads_pure q stable_passable fun _ => id
  split
  · exact leads_pure _ (.const True) fun _ _ => trivial
  · rename_i name hname
    refine (htrue (leads_createStores hname _)).pre fun s _ hs => hs.resolve_left ?_
    rintro rfl
    cases hname

end Programs

theorem identity_run {tasks : List IdentityTask} {sched : List (ℕ × DiskLabel)}
    {c : Config identitySig Disk} (h : servers.run sched (servers.launch tasks .empty) = some c) :
    IdentityInv c.shared := by
  have hinv : IdentityInv .empty := ⟨nofun, nofun, nofun⟩
  have hgood : identityRules.Good (servers.launch tasks .empty) := by
    refine Rules.good_launch hinv (fun _ _ => trivial) fun t τ _ => ?_
    cases τ with
    | start option dir virtual =>
      exact Rules.Triple.bind (leads_start option dir virtual) (fun _ => .done _) _ hinv trivial
    | crash =>
      have hcrash : Leads t (fun _ => True) (io .crash) fun _ _ => True :=
        leads_io nofun nofun nofun (.const True) (fun _ => .const True) fun _ _ _ _ _ _ => trivial
      exact Rules.Triple.bind hcrash (fun _ => .done _) _ hinv trivial
  have hclosed : identityRules.Closed := ⟨fun _ => .const True, fun _ _ _ _ h => h.1.elim⟩
  exact (Rules.good_run hclosed hgood
    (Rules.follows_any (fun _ => trivial) (fun _ _ _ => trivial) _ _) h).1

/-- In every run of starts on one directory, empty at first, with any options, in which every file
operation may fail and the machine may crash at any time: there are never stores of two kinds, and
all starts that passed the preflight with a provider that has stores passed it with the same one. -/
theorem one_provider_for_life (tasks : List IdentityTask) (sched : List (ℕ × DiskLabel))
    (c : Config identitySig Disk)
    (h : servers.run sched (servers.launch tasks .empty) = some c) :
    (∀ x ∈ c.shared.stores, ∀ y ∈ c.shared.stores, x.name = y.name) ∧
      ∀ x ∈ c.shared.passed, ∀ y ∈ c.shared.passed, x.2 ≠ .memory → y.2 ≠ .memory → x.2 = y.2 := by
  have hinv := identity_run h
  refine ⟨fun x hx y hy => ?_, fun x hx y hy hxm hym => ?_⟩
  · obtain ⟨p, hp, hep⟩ := hinv.stores x hx
    obtain ⟨q, hq, heq⟩ := hinv.stores y hy
    obtain rfl := hep.unique heq
    exact Option.some.inj (hp.symm.trans hq)
  · exact ((hinv.passed x hx).resolve_left hxm).unique ((hinv.passed y hy).resolve_left hym)

def calmly (t k : ℕ) : List (ℕ × DiskLabel) := List.replicate k (t, ⟨none, true, "", fun _ => true⟩)

/-- The start that links the marker passes; the other one is stopped by the link. -/
theorem one_provider_for_life_raced : ∃ c : Config identitySig Disk,
    servers.run (calmly 0 3 ++ calmly 1 8 ++ calmly 0 12 ++ calmly 1 1)
      (servers.launch [.start "aof" "data" 1, .start "sqlite" "data" 1] .empty) = some c ∧
    c.shared.passed = [(0, .aof)] ∧ c.shared.stores = [⟨"0", "wal"⟩] ∧
    ∀ x ∈ c.shared.stores, ∀ y ∈ c.shared.stores, x.name = y.name := by
  have h : (servers.run (calmly 0 3 ++ calmly 1 8 ++ calmly 0 12 ++ calmly 1 1)
      (servers.launch [.start "aof" "data" 1, .start "sqlite" "data" 1] .empty)).map
        (fun c => (c.shared.passed, c.shared.stores)) =
      some ([(0, .aof)], [⟨"0", "wal"⟩]) := by decide +kernel
  obtain ⟨c, hc, heq⟩ := Option.map_eq_some_iff.1 h
  obtain ⟨hp, hs⟩ := Prod.mk.inj heq
  exact ⟨c, hc, hp, hs, (one_provider_for_life _ _ c hc).1⟩

end Specter.Identity
