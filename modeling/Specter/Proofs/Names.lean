import Specter.Client

/-!
# Hostnames do not collide and are not wasted

While a sync goes through the tunnels, the names it has to give away are registered to the client,
pairwise different and not used by any tunnel.  As long as no generation has failed in the run,
every other registered name without a dot is used by some tunnel, so none is wasted.
-/

namespace Specter.TunClient

def GenerateCall.Fresh (call : GenerateCall) : Prop :=
  ∀ name ∈ call.name, name ∉ call.registered ∧ name ∉ call.used

instance (call : GenerateCall) : Decidable call.Fresh :=
  inferInstanceAs (Decidable (∀ name ∈ call.name, _))

/-- The assumptions about a run: it was told what is registered, and generated names are new. -/
structure SyncRun.Honest (r : SyncRun) : Prop where
  lookup : ∀ names, r.lookup = some (.ok names) → ∀ h, h ∈ names ↔ h ∈ r.registered
  fresh : ∀ call ∈ r.calls, call.Fresh

/-- Every name without a dot that is registered when a name is generated is used by a tunnel. -/
def GenerateCall.Needed (call : GenerateCall) : Prop :=
  ∀ h ∈ call.registered, dotted h = false → h ∈ call.used

structure SyncRun.NamesWell (r : SyncRun) : Prop where
  length : r.after.length = r.before.length
  kept : ∀ (i : ℕ) (t t' : Tunnel), r.before[i]? = some t → r.after[i]? = some t' →
    t' = { t with hostname := t'.hostname } ∧ (t.hostname ≠ "" → t' = t)
  distinct : ∀ (i j : ℕ) (t t' t'' : Tunnel), i ≠ j → r.before[i]? = some t →
    r.after[i]? = some t' → r.after[j]? = some t'' → t.hostname = "" → t'.hostname ≠ "" →
    t''.hostname ≠ t'.hostname
  needed : ∀ call ∈ r.calls, call.Needed
  /-- Nothing is generated after a failure. -/
  once : ∀ call ∈ r.calls.tail, call.failed = false

namespace Naming

variable {used : List Hostname} {r : Except String Hostname} {n : Naming}

theorem mem_free {h : Hostname} : ∀ {inUse names : List Hostname},
    h ∈ free inUse names ↔ h ∈ names ∧ dotted h = false ∧ h ∉ inUse
  | inUse, [] => by simp [free]
  | inUse, n :: rest => by
    rw [free]
    split_ifs with hn
    · rw [List.mem_cons, mem_free, List.mem_cons, List.mem_cons]
      by_cases heq : h = n
      · subst heq
        simpa using hn
      · simp [heq]
    · rw [mem_free, List.mem_cons]
      by_cases heq : h = n
      · subst heq
        simp only [Bool.not_eq_true', not_and, not_not] at hn
        simp only [true_or, true_and]
        exact ⟨fun hh => hh.2, fun hh => absurd (hn hh.1) hh.2⟩
      · simp [heq]

theorem nodup_free : ∀ (inUse names : List Hostname), (free inUse names).Nodup
  | _, [] => List.nodup_nil
  | inUse, n :: rest => by
    rw [free]
    split_ifs
    · refine List.nodup_cons.2 ⟨fun hm => ?_, nodup_free _ rest⟩
      exact (mem_free.1 hm).2.2 (List.mem_cons_self)
    · exact nodup_free inUse rest

/-- What naming keeps, with these hostnames in use. -/
structure Sound (used : List Hostname) (n : Naming) : Prop where
  nodup : n.available.Nodup
  unused : ∀ h ∈ n.available, h ∉ used
  covers : n.generationErr = none → ∀ h ∈ n.registered, dotted h = false → h ≠ "" →
    h ∈ n.available ∨ h ∈ used
  needed : ∀ call ∈ n.calls, call.Needed
  succeeded : n.generationErr = none → ∀ call ∈ n.calls, call.failed = false
  once : ∀ call ∈ n.calls.tail, call.failed = false

inductive Assigns (used : List Hostname) (n : Naming) : Except String Hostname → Naming → Prop
  | reused {name : Hostname} {available : List Hostname} (h : n.available = name :: available) :
    Assigns used n (.ok name) { n with available }
  | generated {name : Hostname} (h : n.available = []) (hg : n.generationErr = none)
    (hne : name ≠ "") : Assigns used n (.ok name) (n.called used (some name) false)
  | failed {name : Option Hostname} {e : String} (h : n.available = [])
    (hg : n.generationErr = none) :
    Assigns used n (.error e) { n.called used name true with generationErr := some e }
  | uncalled {e : String} (h : n.available = []) (hg : n.generationErr = none) :
    Assigns used n (.error e) { n with generationErr := some e }
  | deferred {e : String} (h : n.available = []) (hg : n.generationErr ≠ none) :
    Assigns used n (.error e) n

theorem assigns (used : List Hostname) (o : GenerateOutcome) (n : Naming) :
    Assigns used n (n.assign used o).1 (n.assign used o).2 := by
  unfold assign
  rcases ha : n.available with _ | ⟨name, available⟩
  · rcases hg : n.generationErr with _ | e
    · cases o with
      | noCandidates => exact .uncalled ha hg
      | failed err => exact .failed ha hg
      | lost err name => exact .failed ha hg
      | ok name =>
        simp only [requestHostname]
        split_ifs with hne
        · exact .failed ha hg
        · exact .generated ha hg hne
    · exact .deferred ha (by simp [hg])
  · exact .reused ha

theorem Sound.called (h : n.Sound used) (hused : "" ∈ used) (ha : n.available = [])
    (hg : n.generationErr = none) (name : Option Hostname) (failed : Bool) :
    ∀ call ∈ (n.called used name failed).calls, call.Needed := by
  refine List.forall_mem_cons.2 ⟨fun x hx hd => ?_, h.needed⟩
  by_cases hne : x = ""
  · exact hne ▸ hused
  · simpa [ha] using h.covers hg x hx hd hne

theorem Sound.assigns (used' : List Hostname) {n' : Naming} (h : n.Sound used) (hused : "" ∈ used)
    (hr : Assigns used n r n') (hfresh : ∀ call ∈ n'.calls, call.Fresh)
    (hused' : ∀ x ∈ used', x ∈ used ∨ r = .ok x) (hkeep : ∀ x ∈ used, x ≠ "" → x ∈ used')
    (hname : ∀ x, r = .ok x → x ∈ used') : n'.Sound used' ∧ ∀ name, r = .ok name → name ∉ used := by
  have hempty : n.available = [] → ∀ x ∈ n.available, x ∉ used' := fun ha => by simp [ha]
  cases hr with
  | @reused name available ha =>
    have hnodup := h.nodup
    have hunused := h.unused
    have hcovers := h.covers
    rw [ha] at hnodup hunused hcovers
    obtain ⟨hnotMem, hnodup⟩ := List.nodup_cons.1 hnodup
    obtain ⟨hnew, hunused⟩ := List.forall_mem_cons.1 hunused
    refine ⟨⟨hnodup, fun x hx hm => ?_, fun hg x hx hd hne => ?_, h.needed, h.succeeded, h.once⟩,
      ?_⟩
    · rcases hused' x hm with hm | heq
      · exact hunused x hx hm
      · cases heq
        exact hnotMem hx
    · rcases hcovers hg x hx hd hne with hm | hm
      · rcases List.mem_cons.1 hm with rfl | hm
        · exact .inr (hname x rfl)
        · exact .inl hm
      · exact .inr (hkeep x hm hne)
    · rintro name' ⟨⟩
      exact hnew
  | @generated name ha hg hne =>
    have hf := (hfresh _ List.mem_cons_self name rfl).2
    refine ⟨⟨h.nodup, hempty ha, fun _ x hx hd hxne => ?_, h.called hused ha hg _ _, fun _ => ?_,
      ?_⟩, ?_⟩
    · rcases List.mem_append.1 hx with hx | hx
      · rcases h.covers hg x hx hd hxne with hm | hm
        · exact .inl hm
        · exact .inr (hkeep x hm hxne)
      · obtain rfl : x = name := by simpa using hx
        exact .inr (hname x rfl)
    · exact List.forall_mem_cons.2 ⟨rfl, h.succeeded hg⟩
    · exact h.succeeded hg
    · rintro name' ⟨⟩
      exact hf
  | failed ha hg =>
    exact ⟨⟨h.nodup, hempty ha, nofun, h.called hused ha hg _ _, nofun, h.succeeded hg⟩,
      nofun⟩
  | uncalled ha hg => exact ⟨⟨h.nodup, hempty ha, nofun, h.needed, nofun, h.once⟩, nofun⟩
  | deferred ha hg =>
    exact ⟨⟨h.nodup, hempty ha, fun hg' => absurd hg' hg, h.needed, fun hg' => absurd hg' hg,
      h.once⟩, nofun⟩

theorem Assigns.calls {n' : Naming} (h : Assigns used n r n') : n.calls <:+ n'.calls := by
  cases h with
  | reused | uncalled | deferred => exact List.suffix_refl _
  | generated | failed => exact List.suffix_cons _ _

end Naming

section Loop

variable {force : Bool} {input : SyncInput} {lookupErr : Option String} {used : List Hostname}
  {i : ℕ} {t : Tunnel} {a a' : SyncAcc} {x : Tunnel × TunnelSyncResult} {t' : Tunnel} {h : Hostname}

inductive TunnelStep (force : Bool) (input : SyncInput) (lookupErr : Option String)
    (used : List Hostname) (i : ℕ) (t : Tunnel) (a : SyncAcc) : Tunnel → SyncAcc → Prop
  | published {a' : SyncAcc} (hne : t.hostname ≠ "") (hn : a'.naming = a.naming)
    (hp : a'.publishing =
      (a.publishing.publish force input.connected t.hostname (input.publish i)).2)
    (ha : a'.hostnameAssigned = a.hostnameAssigned) :
    TunnelStep force input lookupErr used i t a t a'
  | unknown (he : t.hostname = "") (hl : lookupErr ≠ none) :
    TunnelStep force input lookupErr used i t a t a
  | unnamed {a' : SyncAcc} {e : String} (he : t.hostname = "") (hl : lookupErr = none)
    (hn : Naming.Assigns used a.naming (.error e) a'.naming) (hp : a'.publishing = a.publishing)
    (ha : a'.hostnameAssigned = a.hostnameAssigned) :
    TunnelStep force input lookupErr used i t a t a'
  | named {a' : SyncAcc} {name : Hostname} (he : t.hostname = "") (hl : lookupErr = none)
    (hn : Naming.Assigns used a.naming (.ok name) a'.naming)
    (hp : a'.publishing = (a.publishing.publish force input.connected name (input.publish i)).2)
    (ha : a'.hostnameAssigned = true) :
    TunnelStep force input lookupErr used i t a { t with hostname := name } a'

variable (force input i t a) in
theorem publishNamed_spec : (publishNamed force input i t a).1.1 = t ∧
    (publishNamed force input i t a).2.naming = a.naming ∧
    (publishNamed force input i t a).2.publishing =
      (a.publishing.publish force input.connected t.hostname (input.publish i)).2 ∧
    (publishNamed force input i t a).2.hostnameAssigned = a.hostnameAssigned := by
  unfold publishNamed
  split <;> rename_i h <;> rw [h] <;> exact ⟨rfl, rfl, rfl, rfl⟩

theorem syncTunnel_step (h : syncTunnel force input lookupErr used i t a = (x, a')) :
    TunnelStep force input lookupErr used i t a x.1 a' := by
  unfold syncTunnel at h
  split_ifs at h with hne
  · obtain rfl : _ = x := congrArg Prod.fst h
    obtain rfl : _ = a' := congrArg Prod.snd h
    obtain ⟨h1, hn, hp, ha⟩ := publishNamed_spec force input i t a
    rw [h1]
    exact .published hne hn hp ha
  have he : t.hostname = "" := not_not.1 hne
  rcases lookupErr with _ | err
  · have hassigns := Naming.assigns used (input.generate i) a.naming
    rcases hr : a.naming.assign used (input.generate i) with ⟨e | name, naming⟩ <;>
      rw [hr] at hassigns <;> simp only [hr] at h <;>
      obtain rfl : _ = x := congrArg Prod.fst h <;>
      obtain rfl : _ = a' := congrArg Prod.snd h
    · exact .unnamed he rfl hassigns rfl rfl
    · obtain ⟨h1, hn, hp, ha⟩ := publishNamed_spec force input i { t with hostname := name }
        { a with naming, hostnameAssigned := true }
      rw [h1]
      refine .named he rfl ?_ hp ha
      rw [hn]
      exact hassigns
  · cases h
    exact .unknown he nofun

/-- The hostnames of the tunnels, those that the loop is through with and the others. -/
def namesOf (done rest : List Tunnel) : List Hostname := (done ++ rest).map Tunnel.hostname

structure Renamed (done rest after : List Tunnel) : Prop where
  length : after.length = rest.length
  kept : ∀ (i : ℕ) (t t' : Tunnel), rest[i]? = some t → after[i]? = some t' →
    t' = { t with hostname := t'.hostname } ∧ (t.hostname ≠ "" → t' = t)
  distinct : ∀ (i : ℕ) (t t' : Tunnel), rest[i]? = some t → after[i]? = some t' →
    t.hostname = "" → t'.hostname ≠ "" → t'.hostname ∉ done.map Tunnel.hostname ∧
      ∀ (j : ℕ) (t'' : Tunnel), i ≠ j → after[j]? = some t'' → t''.hostname ≠ t'.hostname

theorem renamed_nil (done : List Tunnel) : Renamed done [] [] := ⟨rfl, nofun, nofun⟩

theorem Renamed.cons {done rest after : List Tunnel} (h : Renamed (done ++ [t']) rest after)
    (hhead : t' = t ∨ t.hostname = "" ∧ ∃ name, t' = { t with hostname := name } ∧
      name ∉ namesOf done (t :: rest)) : Renamed done (t :: rest) (t' :: after) := by
  have hname : t.hostname = "" → t'.hostname ≠ "" →
      t'.hostname ∉ namesOf done (t :: rest) := by
    intro he hne
    rcases hhead with rfl | ⟨-, name, rfl, hn⟩
    · exact absurd he hne
    · exact hn
  refine ⟨congrArg (· + 1) h.length, ?_, ?_⟩
  · rintro (_ | i) u u' hu hu'
    · cases hu
      cases hu'
      rcases hhead with rfl | ⟨he, name, rfl, -⟩
      · exact ⟨rfl, fun _ => rfl⟩
      · exact ⟨rfl, fun hne => absurd he hne⟩
    · exact h.kept i u u' hu hu'
  · rintro (_ | i) u u' hu hu' he hne
    · cases hu
      cases hu'
      have hnew := hname he hne
      simp only [namesOf, List.map_append, List.map_cons, List.mem_append, List.mem_cons,
        not_or] at hnew
      refine ⟨hnew.1, ?_⟩
      rintro (_ | j) u'' hij hu''
      · exact absurd rfl hij
      -- a later tunnel has kept its hostname, or has none, or got one that is new to it
      rw [List.getElem?_cons_succ] at hu''
      have hlt : j < rest.length := h.length ▸ (List.getElem?_eq_some_iff.1 hu'').1
      have hr : rest[j]? = some rest[j] := List.getElem?_eq_getElem hlt
      by_cases hset : rest[j].hostname = ""
      · by_cases hnone : u''.hostname = ""
        · rw [hnone]
          exact hne.symm
        · have := (h.distinct j _ u'' hr hu'' hset hnone).1
          simp only [List.map_append, List.map_cons, List.mem_append, List.mem_cons, not_or] at this
          exact this.2.1
      · rw [(h.kept j _ u'' hr hu'').2 hset]
        exact fun heq => hnew.2.2 (heq ▸ List.mem_map_of_mem (List.getElem_mem hlt))
    · obtain ⟨hdone, hrest⟩ := h.distinct i u u' hu hu' he hne
      simp only [List.map_append, List.map_cons, List.mem_append, List.mem_cons, not_or] at hdone
      refine ⟨hdone.1, ?_⟩
      rintro (_ | j) u'' hij hu''
      · cases hu''
        exact Ne.symm hdone.2.1
      · exact hrest j u'' (by omega) hu''

theorem syncTunnels_cons {done rest : List Tunnel} {xs : List (Tunnel × TunnelSyncResult)}
    (h : syncTunnels force input lookupErr done (t :: rest) a = (xs, a')) :
    ∃ x a₁ ys,
      syncTunnel force input lookupErr (namesOf done (t :: rest)) done.length t a = (x, a₁) ∧
      syncTunnels force input lookupErr (done ++ [x.1]) rest a₁ = (ys, a') ∧ xs = x :: ys := by
  rw [syncTunnels] at h
  rcases hx : syncTunnel force input lookupErr ((done ++ t :: rest).map Tunnel.hostname) done.length
    t a with ⟨x, a₁⟩
  rcases hys : syncTunnels force input lookupErr (done ++ [x.1]) rest a₁ with ⟨ys, a₂⟩
  simp only [hx, hys] at h
  cases h
  exact ⟨x, a₁, ys, hx, hys, rfl⟩

theorem syncTunnels_calls : ∀ {rest done : List Tunnel} {a a' : SyncAcc}
    {xs : List (Tunnel × TunnelSyncResult)},
    syncTunnels force input lookupErr done rest a = (xs, a') → a.naming.calls <:+ a'.naming.calls
  | [], _, _, _, _, h => by
    cases h
    exact List.suffix_refl _
  | t :: rest, done, a, a', xs, h => by
    obtain ⟨x, a₁, ys, hx, hys, -⟩ := syncTunnels_cons h
    refine .trans ?_ (syncTunnels_calls hys)
    have hx' := syncTunnel_step hx
    generalize x.1 = t' at hx'
    cases hx' with
    | published hne hn hp ha => exact hn ▸ List.suffix_refl _
    | unknown he hl => exact List.suffix_refl _
    | unnamed he hl hn hp ha => exact hn.calls
    | named he hl hn hp ha => exact hn.calls

theorem mem_namesOf_snoc {done rest : List Tunnel} :
    h ∈ namesOf (done ++ [t']) rest ↔ h = t'.hostname ∨ h ∈ namesOf done rest := by
  simp only [namesOf, List.map_append, List.map_cons, List.map_nil, List.append_assoc,
    List.mem_append, List.mem_cons, List.not_mem_nil, or_false]
  tauto

theorem mem_namesOf_cons {done rest : List Tunnel} :
    h ∈ namesOf done (t :: rest) ↔ h = t.hostname ∨ h ∈ namesOf done rest := by
  simp only [namesOf, List.map_append, List.map_cons, List.mem_append, List.mem_cons]
  tauto

theorem syncTunnels_names : ∀ {rest done : List Tunnel} {a a' : SyncAcc}
    {xs : List (Tunnel × TunnelSyncResult)},
    syncTunnels force input none done rest a = (xs, a') →
    a.naming.Sound (namesOf done rest) → (∀ call ∈ a'.naming.calls, call.Fresh) →
    Renamed done rest (xs.map Prod.fst) ∧ (∀ call ∈ a'.naming.calls, call.Needed) ∧
      ∀ call ∈ a'.naming.calls.tail, call.failed = false
  | [], done, _, _, _, h, hs, _ => by
    cases h
    exact ⟨renamed_nil done, hs.needed, hs.once⟩
  | t :: rest, done, a, a', xs, h, hs, hfresh => by
    obtain ⟨x, a₁, ys, hx, hys, rfl⟩ := syncTunnels_cons h
    have hfresh₁ : ∀ call ∈ a₁.naming.calls, call.Fresh := fun call hm =>
      hfresh call ((syncTunnels_calls hys).subset hm)
    have hx' := syncTunnel_step hx
    have hstep : a₁.naming.Sound (namesOf (done ++ [x.1]) rest) ∧
        (x.1 = t ∨ t.hostname = "" ∧ ∃ name, x.1 = { t with hostname := name } ∧
          name ∉ namesOf done (t :: rest)) := by
      have hsame : namesOf (done ++ [t]) rest = namesOf done (t :: rest) := by simp [namesOf]
      generalize x.1 = t' at hx'
      cases hx' with
      | published hne hn hp ha =>
        rw [hn, hsame]
        exact ⟨hs, .inl rfl⟩
      | unknown he hl => exact absurd rfl hl
      | unnamed he hl hn hp ha =>
        have hused : "" ∈ namesOf done (t :: rest) := mem_namesOf_cons.2 (.inl he.symm)
        rw [hsame]
        exact ⟨(hs.assigns _ hused hn hfresh₁ (fun _ => .inl) (fun _ hm _ => hm) nofun).1, .inl rfl⟩
      | @named _ name he hl hn hp ha =>
        have hused : "" ∈ namesOf done (t :: rest) := mem_namesOf_cons.2 (.inl he.symm)
        obtain ⟨hsound, hnew⟩ := hs.assigns (namesOf (done ++ [{ t with hostname := name }]) rest)
          hused hn hfresh₁
          (fun y hy => by
            rcases mem_namesOf_snoc.1 hy with rfl | hy
            · exact .inr rfl
            · exact .inl (mem_namesOf_cons.2 (.inr hy)))
          (fun y hy hne => by
            rcases mem_namesOf_cons.1 hy with hy | hy
            · exact absurd (hy.trans he) hne
            · exact mem_namesOf_snoc.2 (.inr hy))
          (fun y hy => by
            cases hy
            exact mem_namesOf_snoc.2 (.inl rfl))
        exact ⟨hsound, .inr ⟨he, name, rfl, hnew name rfl⟩⟩
    obtain ⟨hren, hneeded, honce⟩ := syncTunnels_names hys hstep.1 hfresh
    exact ⟨hren.cons hstep.2, hneeded, honce⟩

theorem syncTunnels_unnamed : ∀ {rest done : List Tunnel} {a a' : SyncAcc}
    {xs : List (Tunnel × TunnelSyncResult)},
    syncTunnels force input lookupErr done rest a = (xs, a') →
    (lookupErr = none → ∀ t ∈ rest, t.hostname ≠ "") →
    xs.map Prod.fst = rest ∧ a'.naming = a.naming
  | [], _, _, _, _, h, _ => by
    cases h
    exact ⟨rfl, rfl⟩
  | t :: rest, done, a, a', xs, h, hnamed => by
    obtain ⟨x, a₁, ys, hx, hys, rfl⟩ := syncTunnels_cons h
    obtain ⟨h1, h2⟩ := syncTunnels_unnamed hys fun hl => (List.forall_mem_cons.1 (hnamed hl)).2
    have hx' := syncTunnel_step hx
    rw [List.map_cons, h1]
    generalize x.1 = t' at hx'
    cases hx' with
    | published hne hn hp ha => exact ⟨rfl, h2.trans hn⟩
    | unknown he hl => exact ⟨rfl, h2⟩
    | unnamed he hl hn hp ha => exact absurd he (List.forall_mem_cons.1 (hnamed hl)).1
    | named he hl hn hp ha => exact absurd he (List.forall_mem_cons.1 (hnamed hl)).1

theorem renamed_refl (done tunnels : List Tunnel) : Renamed done tunnels tunnels := by
  refine ⟨rfl, fun i t t' h h' => ?_, fun i t t' h h' he hne => ?_⟩ <;>
    obtain rfl : t = t' := Option.some.inj (h.symm.trans h')
  · exact ⟨rfl, fun _ => rfl⟩
  · exact absurd he hne

end Loop

section Runs

variable {parseTarget : String → Except String String} {force : Bool} {input : SyncInput}
  {c : Client}

theorem Renamed.namesWell {r : SyncRun} (h : Renamed [] r.before r.after)
    (hneeded : ∀ call ∈ r.calls, call.Needed)
    (honce : ∀ call ∈ r.calls.tail, call.failed = false) : r.NamesWell :=
  ⟨h.length, h.kept, fun i j t t' t'' hij ht ht' ht'' he hne =>
    (h.distinct i t t' ht ht' he hne).2 j t'' hij ht'', hneeded, honce⟩

theorem syncRun_namesWell (h : (syncRun force input c).Honest) :
    (syncRun force input c).NamesWell := by
  rcases hloop : syncLoop force input c with ⟨xs, a⟩
  have hcalls : (syncRun force input c).calls = a.naming.calls := by rw [syncRun, hloop]
  have hafter : (syncRun force input c).after = xs.map Prod.fst := by rw [syncRun, hloop]
  have hfresh := h.fresh
  have hlookup := h.lookup
  rw [hcalls] at hfresh
  unfold syncLoop lookupNames at hloop
  by_cases hasks : force = true ∨ c.tunnels.any (·.hostname = "") = true
  · rw [if_pos hasks] at hloop
    rw [syncRun, if_pos hasks] at hlookup
    rcases hnames : input.lookup with e | names <;> rw [hnames] at hloop hlookup
    · obtain ⟨h1, h2⟩ := syncTunnels_unnamed hloop nofun
      have hnil : (syncRun force input c).calls = [] := by rw [hcalls, h2]
      refine Renamed.namesWell ?_ (by simp [hnil]) (by simp [hnil])
      rw [hafter, h1]
      exact renamed_refl [] _
    · have hsound : Naming.Sound (namesOf [] c.tunnels)
          ⟨Naming.free (c.tunnels.map Tunnel.hostname) names, none, c.hostnameNextCandidate,
            c.registered, []⟩ := by
        refine ⟨Naming.nodup_free _ _, fun x hx => (Naming.mem_free.1 hx).2.2, ?_, nofun,
          fun _ => nofun, nofun⟩
        intro _ x hx hd _
        by_cases hm : x ∈ namesOf [] c.tunnels
        · exact .inr hm
        · exact .inl (Naming.mem_free.2 ⟨(hlookup names rfl x).2 hx, hd, hm⟩)
      obtain ⟨hren, hneeded, honce⟩ := syncTunnels_names hloop hsound hfresh
      refine Renamed.namesWell ?_ (hcalls ▸ hneeded) (hcalls ▸ honce)
      rw [hafter]
      exact hren
  · rw [if_neg hasks] at hloop
    push Not at hasks
    obtain ⟨h1, h2⟩ := syncTunnels_unnamed hloop fun _ t ht he =>
      hasks.2 (List.any_eq_true.2 ⟨t, ht, by simpa using he⟩)
    have hnil : (syncRun force input c).calls = [] := by rw [hcalls, h2]
    refine Renamed.namesWell ?_ (by simp [hnil]) (by simp [hnil])
    rw [hafter, h1]
    exact renamed_refl [] _

theorem recordSyncResult_runs (now : ℤ) (result : SyncResult) :
    (recordSyncResult now result c).runs = c.runs := by
  unfold recordSyncResult
  split_ifs <;> rfl

theorem rebuildTunnels_runs (tunnels : List Tunnel) (write : Option String) :
    (rebuildTunnels parseTarget tunnels write c).1.runs = c.runs := by
  unfold rebuildTunnels
  split <;> rfl

theorem syncConfigTunnels_runs : (syncConfigTunnels parseTarget force input c).1.runs =
    syncRun force input c :: c.runs := by
  simp only [syncConfigTunnels, recordSyncResult_runs]
  split_ifs
  · exact rebuildTunnels_runs _ _
  · rfl
  · rfl

theorem syncConfigTunnels_tunnels :
    (syncConfigTunnels parseTarget force input c).1.tunnels = c.tunnels ∨
      (syncConfigTunnels parseTarget force input c).1.tunnels = (syncRun force input c).after := by
  have hrecord : ∀ now result c, (recordSyncResult now result c).tunnels = c.tunnels := by
    intro now result c
    unfold recordSyncResult
    split_ifs <;> rfl
  simp only [syncConfigTunnels, hrecord]
  split_ifs
  · unfold rebuildTunnels
    split
    · exact .inl rfl
    · exact .inr rfl
  · exact .inl rfl
  · exact .inl rfl

theorem apply_runs (op : Op) : (op.apply parseTarget c).runs = c.runs ∨
    ∃ force input c', (op.apply parseTarget c).runs = syncRun force input c' :: c.runs := by
  cases op with
  | sync force input => exact .inr ⟨force, input, c, syncConfigTunnels_runs⟩
  | reconcile r input =>
    simp only [Op.apply, reconcileConnections]
    split_ifs
    all_goals first
      | exact .inl rfl
      | exact .inr ⟨false, input, _, syncConfigTunnels_runs⟩
  | reload file input =>
    simp only [Op.apply, doReload]
    split
    · exact .inl rfl
    split
    · exact .inl rfl
    · exact .inr ⟨true, input, _, syncConfigTunnels_runs⟩
  | remove removal hostname o write now =>
    refine .inl ?_
    cases o with
    | failed err => rfl
    | lost err => rfl
    | ok =>
      simp only [Op.apply, tunnelRemovalWrapper, removeTunnel]
      split
      · rfl
      · rw [recordSyncResult_runs]
        rfl

end Runs

/-- In any sequence of operations, whatever becomes of the calls, every run of `syncConfigTunnels`
keeps the hostnames that are set, gives different names that no other tunnel uses, generates a name
only when every registered name without a dot is used by its tunnels, and none after a generation
that failed.  The configuration is left as it was or gets the tunnels of the run. -/
theorem hostnames_never_collide_or_waste (parseTarget : String → Except String String)
    (tunnels : List Tunnel) (registered : List Hostname) (ops : List Op) (c : Client)
    (hc : run parseTarget ops (.start tunnels registered) = c) (h : ∀ r ∈ c.runs, r.Honest) :
    (∀ r ∈ c.runs, r.NamesWell) ∧ ∀ force input,
      (syncConfigTunnels parseTarget force input c).1.runs = syncRun force input c :: c.runs ∧
      ((syncConfigTunnels parseTarget force input c).1.tunnels = c.tunnels ∨
        (syncConfigTunnels parseTarget force input c).1.tunnels =
          (syncRun force input c).after) := by
  subst hc
  have hrun : ∀ (ops : List Op) (c : Client), (∀ r ∈ c.runs, r.Honest → r.NamesWell) →
      ∀ r ∈ (run parseTarget ops c).runs, r.Honest → r.NamesWell := by
    intro ops
    induction ops with
    | nil => exact fun c hc => hc
    | cons op ops ih =>
      intro c hc
      refine ih _ ?_
      rcases apply_runs (c := c) op with heq | ⟨force, input, c', heq⟩ <;> rw [heq]
      · exact hc
      · exact List.forall_mem_cons.2 ⟨syncRun_namesWell, hc⟩
  exact ⟨fun r hr => hrun ops _ (by simp [Client.start]) r hr (h r hr),
    fun _ _ => ⟨syncConfigTunnels_runs, syncConfigTunnels_tunnels⟩⟩

/-- The second of two tunnels without a hostname is left without one when the generation fails; the
next sync gives it the name that had been registered all the same. -/
def lostGeneration : List Op :=
  let input (names : List Hostname) (generate : GenerateOutcome) : SyncInput :=
    ⟨.ok names, [⟨1, "a:443"⟩], fun _ => generate, fun _ => .ok fun _ => true, none, 0⟩
  [.sync true (input ["free", "custom.test"] (.lost "timeout" "made")),
    .sync false (input ["free", "custom.test", "made"] .noCandidates)]

def threeTunnels : List Tunnel :=
  [⟨"tcp://a", "set", "", ""⟩, ⟨"tcp://b", "", "", ""⟩, ⟨"tcp://c", "", "", ""⟩]

theorem hostnames_reused_after_lost_generation :
    (run .ok lostGeneration (.start threeTunnels ["free", "custom.test"])).runs.map
        (fun r => (r.after.map Tunnel.hostname, r.calls.length)) =
      [(["set", "free", "made"], 0), (["set", "free", ""], 1)] ∧
    ∀ r ∈ (run .ok lostGeneration (.start threeTunnels ["free", "custom.test"])).runs,
      r.NamesWell := by
  refine ⟨by decide +kernel,
    (hostnames_never_collide_or_waste .ok threeTunnels _ lostGeneration _ rfl ?_).1⟩
  have h : ∀ r ∈ (run .ok lostGeneration (.start threeTunnels ["free", "custom.test"])).runs,
      r.lookup = some (.ok r.registered) ∧ ∀ call ∈ r.calls, call.Fresh := by decide +kernel
  intro r hr
  obtain ⟨hl, hf⟩ := h r hr
  refine ⟨fun names hn => ?_, hf⟩
  rw [hl] at hn
  cases hn
  exact fun _ => Iff.rfl

end Specter.TunClient
