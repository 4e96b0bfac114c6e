import Specter.Lib.Rely
import Specter.RouteCache

/-!
# Exhausted routes are refreshed at most once

Only the thread of a flight changes what is cached.  It looks at the cache again before it loads, so
it replaces the result its caller had passed, once that has cooled down, or one that is no longer
kept.  The result that is cached is always the latest one.
-/

namespace Specter.Tunnel

open Lib RouteCache

variable {a : RouteAct} {α : Type} (ret : ℕ) {s : RouteState} {r : routeSig.Res a}
  {loads : List Load} (isNoRoute : Bool) {s' : RouteState}

structure RefreshedOnce (s : RouteState) : Prop where
  /-- While a newer result than `g` is kept, nothing is loaded for a caller who passed `g`. -/
  newer : ∀ g time id expiry, .started (some g) time (some (id, expiry)) ∈ s.log → g < id →
    expiry ≤ time
  /-- The outcome of a refresh is not refreshed again, whoever begins it, within the time a failed
  lookup is kept. -/
  cooled : ∀ g stale time cached load, .started stale time cached ∈ s.log →
    stale = some g ∨ cached.map Prod.fst = some g → s.loads[g]? = some load → load.stale ≠ none →
    load.loadedAt + routeFailedTTL ≤ time
  received : ∀ g ret, .received (some g) ret ∈ s.log → g ≤ ret

def Passed (stale : Option ℕ) (loads : List Load) : Prop := ∀ g, stale = some g → g < loads.length

theorem passed_none : Passed none loads := nofun

theorem Passed.mono {stale : Option ℕ} {loads' : List Load} (h : Passed stale loads)
    (hl : loads <+: loads') : Passed stale loads' :=
  fun g hg => (h g hg).trans_le hl.length_le

/-- What is recorded of a load that began, or of a result that was received, is as it should be. -/
def RouteEvent.Fine (loads : List Load) : RouteEvent → Prop
  | .started stale time cached =>
    Passed stale loads ∧ Passed (cached.map Prod.fst) loads ∧
    (∀ id expiry, cached = some (id, expiry) → expiry ≤ time ∨ stale = some id) ∧
    ∀ g load, stale = some g ∨ cached.map Prod.fst = some g → loads[g]? = some load →
      load.stale ≠ none → load.loadedAt + routeFailedTTL ≤ time
  | .received stale ret => ∀ g, stale = some g → g ≤ ret
  | .cancelled _ => True

structure RouteInv (s : RouteState) : Prop where
  fine : ∀ e ∈ s.log, e.Fine s.loads
  ordered : s.flights.Ordered
  jobs : ∀ f, s.flights.current = some f → Passed f.job s.loads
  landed : ∀ x ∈ s.flights.landed, x.2 < s.loads.length
  latest : ∀ id expiry, s.cache = some (id, expiry) → id + 1 = s.loads.length
  cached : s.cache = none → s.loads = []
  refreshed : ∀ load ∈ s.loads, load.stale ≠ none →
    ∃ ra, load.result.refreshAfter = some ra ∧ load.loadedAt + routeFailedTTL ≤ ra
  kept : ∀ id expiry load ra, s.cache = some (id, expiry) → s.loads[id]? = some load →
    load.result.refreshAfter = some ra → ra ≤ expiry
  older : ∀ id load ra, s.loads[id]? = some load → id + 1 < s.loads.length →
    load.result.refreshAfter = some ra → ra ≤ s.clock

structure SameStore (s s' : RouteState) : Prop where
  loadFor : s'.loadFor = s.loadFor
  returned : s'.returned = s.returned
  loads : s'.loads = s.loads
  cache : s'.cache = s.cache

structure RouteGuar (t : ℕ) (s s' : RouteState) : Prop where
  clock : s.clock ≤ s'.clock
  flights : Flights.Moves t s.flights s'.flights
  loads : s.loads <+: s'.loads
  store : SameStore s s' ∨ ∃ id job, s.flights.Flown t id job
  landing : ∀ x ∈ s'.flights.landed, x ∈ s.flights.landed ∨ x.2 + 1 = s.loads.length

section Rules

variable (site : RouteSite) {φ P : RouteState → Prop} {Q : routeSig.Res a → RouteState → Prop}
  (id : ℕ)

def routeRules : Rules (routeCache site) where
  ok _ := True
  known _ _ _ := True
  inv := RouteInv
  guar := RouteGuar
  fresh _ _ := True
  pre _ _ := True
  post _ _ := True

variable {site} {t : ℕ} {stale : Option ℕ}

theorem stable_loads {φ : List Load → Prop} (hφ : ∀ l l', l <+: l' → φ l → φ l') :
    (routeRules site).Stable t fun s => φ s.loads :=
  fun _ _ _ _ _ _ hg _ h => hφ _ _ hg.loads h

theorem stable_passed : (routeRules site).Stable t fun s => Passed stale s.loads :=
  stable_loads (φ := Passed stale) fun _ _ hl h => h.mono hl

theorem stable_loaded : (routeRules site).Stable t fun s => ret < s.loads.length :=
  stable_loads (φ := fun loads => ret < loads.length) fun _ _ hl h => h.trans_le hl.length_le

/-- What the clock and the store decide, and the clock cannot take back. -/
def Settled (φ : RouteState → Prop) : Prop :=
  ∀ s s', s.clock ≤ s'.clock → SameStore s s' → φ s → φ s'

def Aboard (t : ℕ) (flight : Option ℕ) (stale : Option ℕ) (φ : RouteState → Prop)
    (s : RouteState) : Prop :=
  ∀ id, flight = some id → s.flights.Flown t id stale ∧ φ s

theorem stable_aboard (hφ : Settled φ) (flight : Option ℕ) :
    (routeRules site).Stable t (Aboard t flight stale φ) := by
  intro s s' t' hne _ _ hg _ h id hid
  obtain ⟨hf, hs⟩ := h id hid
  refine ⟨hg.flights.flown hne hf, ?_⟩
  rcases hg.store with hst | ⟨id', job', hf'⟩
  · exact hφ s s' hg.clock hst hs
  · have heq := hf'.symm.trans hf
    simp only [Option.some.injEq, Flight.mk.injEq] at heq
    exact absurd heq.2.2 hne

/-- What lands for a caller who waits is no older than what it passed. -/
def Awaits (flight : ℕ) (stale : Option ℕ) (s : RouteState) : Prop :=
  ∀ g, stale = some g → g < s.loads.length ∧ ∀ x ∈ s.flights.landed, x.1 = flight → g ≤ x.2

theorem stable_awaits (flight : ℕ) : (routeRules site).Stable t (Awaits flight stale) := by
  intro s s' t' _ _ _ hg _ h g hgs
  obtain ⟨hlt, hx⟩ := h g hgs
  refine ⟨hlt.trans_le hg.loads.length_le, fun x hm hf => ?_⟩
  rcases hg.landing x hm with hm | hm
  · exact hx x hm hf
  · omega

def Ticks (s s' : RouteState) : Prop := ∃ now, s.clock ≤ now ∧ s' = { s with clock := now }

theorem timed_some {now : ℤ} {f : RouteState → α × RouteState} {r : α}
    (h : s.timed now f = some (r, s')) : s.clock ≤ now ∧ f { s with clock := now } = (r, s') := by
  unfold RouteState.timed at h
  split_ifs at h with hle
  exact ⟨hle, Option.some.inj h⟩

theorem Ticks.keeps (h : Ticks s s') (hi : RouteInv s) : RouteInv s' ∧ RouteGuar t s s' := by
  obtain ⟨now, hle, rfl⟩ := h
  exact ⟨⟨hi.fine, hi.ordered, hi.jobs, hi.landed, hi.latest, hi.cached, hi.refreshed, hi.kept,
    fun id load ra h1 h2 h3 => (hi.older id load ra h1 h2 h3).trans hle⟩,
    hle, .stays _, List.prefix_refl _, .inl ⟨rfl, rfl, rfl, rfl⟩, fun _ => .inl⟩

def RouteAct.IsTick : RouteAct → Prop
  | .now | .get | .deref _ | .getConn _ => True
  | _ => False

theorem ticks_exec {l : RouteLabel} (ha : a.IsTick) (he : s.exec site l t a = some (r, s')) :
    Ticks s s' := by
  cases a with
  | now | get =>
    obtain ⟨hle, h⟩ := timed_some he
    cases h
    exact ⟨_, hle, rfl⟩
  | deref ret =>
    obtain ⟨load, -, h⟩ := Option.map_eq_some_iff.1 he
    cases h
    exact ⟨s.clock, le_rfl, rfl⟩
  | getConn route =>
    cases he
    exact ⟨s.clock, le_rfl, rfl⟩
  | _ => exact ha.elim

theorem triple_act (hP : (routeRules site).Stable t P) (hQ : ∀ r, (routeRules site).Stable t (Q r))
    (h : ∀ s l r s', RouteInv s → P s → s.exec site l t a = some (r, s') →
      RouteInv s' ∧ RouteGuar t s s' ∧ Q r s') : (routeRules site).Triple t P (act a) Q :=
  .perform hP hQ fun s l r s' hi hs _ he _ => h s l r s' hi hs he

theorem triple_tick (ha : a.IsTick) (hP : (routeRules site).Stable t P)
    (hQ : ∀ r, (routeRules site).Stable t (Q r))
    (h : ∀ s l r s', RouteInv s → P s → s.exec site l t a = some (r, s') → Ticks s s' → Q r s') :
    (routeRules site).Triple t P (act a) Q := by
  refine triple_act hP hQ ?_
  intro s l r s' hi hs he
  have ht : Ticks s s' := ticks_exec ha he
  obtain ⟨hi', hg⟩ := ht.keeps (t := t) hi
  exact ⟨hi', hg, h s l r s' hi hs he ht⟩

theorem SameStore.ticks (h : Ticks s s') : SameStore s s' := by
  obtain ⟨now, -, rfl⟩ := h
  exact ⟨rfl, rfl, rfl, rfl⟩

theorem Ticks.clock (h : Ticks s s') : s.clock ≤ s'.clock := by
  obtain ⟨now, hle, rfl⟩ := h
  exact hle

theorem Ticks.aboard (h : Ticks s s') {flight : Option ℕ} (hφ : Settled φ)
    (hs : Aboard t flight stale φ s) : Aboard t flight stale φ s' := by
  intro id hid
  refine ⟨?_, hφ s s' h.clock (.ticks h) (hs id hid).2⟩
  obtain ⟨now, -, rfl⟩ := h
  exact (hs id hid).1

theorem logged_keeps (hi : RouteInv s) {e : RouteEvent} (he : e.Fine s.loads) :
    RouteInv { s with log := e :: s.log } ∧ RouteGuar t s { s with log := e :: s.log } :=
  ⟨⟨List.forall_mem_cons.2 ⟨he, hi.fine⟩, hi.ordered, hi.jobs, hi.landed, hi.latest, hi.cached,
    hi.refreshed, hi.kept, hi.older⟩,
    le_rfl, .stays _, List.prefix_refl _, .inl ⟨rfl, rfl, rfl, rfl⟩, fun _ => .inl⟩

/-- The cached result can be replaced: it is no longer kept, or it is the one that was passed and
has cooled down. -/
def Due (stale : Option ℕ) (s : RouteState) : Prop :=
  ∀ id expiry, s.cache = some (id, expiry) → expiry ≤ s.clock ∨
    stale = some id ∧ ∀ load ra, s.loads[id]? = some load → load.result.refreshAfter = some ra →
      ra ≤ s.clock

def IsLatest (ret : ℕ) (s : RouteState) : Prop := ret + 1 = s.loads.length

theorem Due.later (h : Due stale s) (hle : s.clock ≤ s'.clock) (hc : s'.cache = s.cache)
    (hl : s'.loads = s.loads) : Due stale s' := by
  intro id expiry hid
  rw [hl]
  rcases h id expiry (hc.symm.trans hid) with h | ⟨h1, h2⟩
  · exact .inl (h.trans hle)
  · exact .inr ⟨h1, fun load ra h3 h4 => (h2 load ra h3 h4).trans hle⟩

theorem settled_due : Settled (Due stale) := fun _ _ hle hst h => h.later hle hst.cache hst.loads

theorem settled_isLatest : Settled (IsLatest ret) := by
  intro s s' _ hst h
  rwa [IsLatest, hst.loads]

def Looked (t : ℕ) (flight stale : Option ℕ) : Option ℕ → RouteState → Prop
  | none, s => Passed stale s.loads ∧ Aboard t flight stale (Due stale) s
  | some ret, s => (Passed stale s.loads ∧ ret < s.loads.length ∧ ∀ g, stale = some g → g ≤ ret) ∧
    Aboard t flight stale (IsLatest ret) s

theorem stable_looked (flight : Option ℕ) :
    ∀ ans, (routeRules site).Stable t (Looked t flight stale ans)
  | none => stable_passed.and (stable_aboard settled_due flight)
  | some ret => (stable_passed.and ((stable_loaded ret).and (.const _))).and
    (stable_aboard (settled_isLatest ret) flight)

theorem looked_lookup (hi : RouteInv s) {flight : Option ℕ} (hp : Passed stale s.loads)
    (ha : Aboard t flight stale (fun _ => True) s) (keep : Bool) :
    Looked t flight stale (s.lookup keep) s := by
  unfold RouteState.lookup
  rcases hc : s.cache with _ | ⟨ret, expiry⟩
  · refine ⟨hp, fun id hid => ⟨(ha id hid).1, fun id' expiry' hc' => ?_⟩⟩
    cases hc.symm.trans hc'
  have hlast := hi.latest ret expiry hc
  dsimp only
  split_ifs with hk
  · refine ⟨⟨hp, by omega, fun g hg => ?_⟩, fun id hid => ⟨(ha id hid).1, hlast⟩⟩
    have := hp g hg
    omega
  · refine ⟨hp, fun id hid => ⟨(ha id hid).1, fun id' expiry' hc' => .inl ?_⟩⟩
    cases hc.symm.trans hc'
    exact not_lt.1 fun h => hk (.inl h)

theorem settled_true : Settled fun _ => True := fun _ _ _ _ _ => trivial

theorem triple_get (flight : Option ℕ) : (routeRules site).Triple t
    (fun s => Passed stale s.loads ∧ Aboard t flight stale (fun _ => True) s)
    (act .get) fun ans : Option ℕ => Looked t flight stale ans := by
  refine triple_tick trivial (stable_passed.and (stable_aboard settled_true flight))
    (stable_looked flight) ?_
  rintro s l r s' hi ⟨hp, ha⟩ he ht
  have ha' := ht.aboard settled_true ha
  obtain ⟨hi', -⟩ := ht.keeps (t := t) hi
  obtain ⟨hle, h⟩ := timed_some he
  cases h
  exact looked_lookup hi' hp ha' l.keep

theorem Ticks.looked {s s' : RouteState} (h : Ticks s s') {flight : Option ℕ} :
    ∀ {ans}, Looked t flight stale ans s → Looked t flight stale ans s'
  | none, hs => by
    refine ⟨?_, h.aboard settled_due hs.2⟩
    rw [(SameStore.ticks h).loads]
    exact hs.1
  | some ret, hs => by
    refine ⟨?_, h.aboard (settled_isLatest ret) hs.2⟩
    rw [(SameStore.ticks h).loads]
    exact hs.1

theorem getElem?_of_isPrefix {l l' : List Load} (h : l <+: l') {i : ℕ} {a : Load}
    (hi : l[i]? = some a) : l'[i]? = some a := by
  obtain ⟨u, rfl⟩ := h
  rwa [List.getElem?_append_left (List.getElem?_eq_some_iff.1 hi).1]

theorem stable_result (result : RoutesResult) : (routeRules site).Stable t fun s =>
    ∃ load, s.loads[ret]? = some load ∧ load.result = result := by
  refine stable_loads
    (φ := fun loads => ∃ load : Load, loads[ret]? = some load ∧ load.result = result) ?_
  rintro l l' hl ⟨load, h, hr⟩
  exact ⟨load, getElem?_of_isPrefix hl h, hr⟩

theorem triple_deref (hP : (routeRules site).Stable t P) (hPt : ∀ s s', Ticks s s' → P s → P s')
    (ret : ℕ) :
    (routeRules site).Triple t P (act (.deref ret)) fun (result : RoutesResult) s =>
      P s ∧ ∃ load, s.loads[ret]? = some load ∧ load.result = result := by
  refine triple_tick trivial hP (fun result => hP.and (stable_result ret result)) ?_
  intro s l r s' hi hs he ht
  refine ⟨hPt s s' ht hs, ?_⟩
  obtain ⟨load, hl, h⟩ := Option.map_eq_some_iff.1 he
  cases h
  exact ⟨load, hl, rfl⟩

theorem stable_clock (time : ℤ) : (routeRules site).Stable t fun s => time ≤ s.clock :=
  fun _ _ _ _ _ _ hg _ h => h.trans hg.clock

theorem triple_now (hP : (routeRules site).Stable t P) (hPt : ∀ s s', Ticks s s' → P s → P s') :
    (routeRules site).Triple t P (act .now) fun (time : ℤ) s => P s ∧ time ≤ s.clock := by
  refine triple_tick trivial hP (fun time => hP.and (stable_clock time)) ?_
  intro s l r s' hi hs he ht
  refine ⟨hPt s s' ht hs, ?_⟩
  obtain ⟨-, h⟩ := timed_some he
  cases h
  exact le_rfl

theorem looked_cooled (hi : RouteInv s) {flight : Option ℕ} {ret : ℕ}
    (h : Looked t flight (some ret) (some ret) s)
    (hra : ∀ load ra, s.loads[ret]? = some load → load.result.refreshAfter = some ra →
      ra ≤ s.clock) : Looked t flight (some ret) none s := by
  refine ⟨h.1.1, fun id hid => ⟨(h.2 id hid).1, fun id' expiry hc => .inr ?_⟩⟩
  have h1 : ret + 1 = s.loads.length := (h.2 id hid).2
  have h2 := hi.latest id' expiry hc
  obtain rfl : id' = ret := by omega
  exact ⟨rfl, hra⟩

theorem triple_cached (flight : Option ℕ) : (routeRules site).Triple t
    (fun s => Passed stale s.loads ∧ Aboard t flight stale (fun _ => True) s)
    (cached stale) (Looked t flight stale) := by
  have hret : ∀ ans, (routeRules site).Triple t (Looked t flight stale ans) (.ret ans)
      (Looked t flight stale) := fun ans => .ret (stable_looked flight ans) fun _ _ h => h
  refine .bind (triple_get flight) fun ans => ?_
  rcases ans with _ | ret
  · exact hret none
  dsimp only
  split_ifs with hne
  · exact hret (some ret)
  obtain rfl : stale = some ret := (not_not.1 hne).symm
  refine .bind (triple_deref (stable_looked flight _) (fun _ _ h => h.looked) ret)
    fun result => ?_
  refine .bind (triple_now ((stable_looked flight _).and (stable_result ret result))
    fun s s' h hs => ⟨h.looked hs.1, by rw [(SameStore.ticks h).loads]; exact hs.2⟩) fun time => ?_
  -- the result has cooled down unless the time is before `refreshAfter`
  have hnone : (∀ ra, result.refreshAfter = some ra → ra ≤ time) → (routeRules site).Triple t
      (fun s => (Looked t flight (some ret) (some ret) s ∧
        ∃ load, s.loads[ret]? = some load ∧ load.result = result) ∧ time ≤ s.clock)
      (.ret none) (Looked t flight (some ret)) := by
    intro hra
    refine .ret (stable_looked flight none) ?_
    rintro s hi ⟨⟨h, load, hl, hr⟩, hle⟩
    refine looked_cooled hi h fun load' ra hl' hr' => ?_
    obtain rfl : load = load' := Option.some.inj (hl.symm.trans hl')
    rw [hr] at hr'
    exact (hra ra hr').trans hle
  rcases hra : result.refreshAfter with _ | ra
  · exact hnone (by simp [hra])
  dsimp only
  split_ifs with hlt
  · exact (hret (some ret)).pre fun _ _ h => h.1.1
  · refine hnone fun ra' h => ?_
    cases hra.symm.trans h
    exact not_lt.1 hlt

theorem Due.cooled (hi : RouteInv s) (h : Due stale s) {id : ℕ} {load : Load} {ra : ℤ}
    (hl : s.loads[id]? = some load) (hr : load.result.refreshAfter = some ra) : ra ≤ s.clock := by
  have hlt := (List.getElem?_eq_some_iff.1 hl).1
  by_cases hlast : id + 1 < s.loads.length
  · exact hi.older id load ra hl hlast hr
  rcases hc : s.cache with _ | ⟨id', expiry⟩
  · rw [hi.cached hc] at hlt
    exact absurd hlt (Nat.not_lt_zero id)
  have := hi.latest id' expiry hc
  obtain rfl : id' = id := by omega
  rcases h id' expiry hc with h | ⟨-, h⟩
  · exact (hi.kept id' expiry load ra hc hl hr).trans h
  · exact h load ra hl hr

theorem RouteEvent.Fine.mono {loads loads' : List Load} (hl : loads <+: loads') :
    ∀ {e : RouteEvent}, e.Fine loads → e.Fine loads'
  | .started stale time cached, ⟨h1, h2, h3, h4⟩ => by
    refine ⟨h1.mono hl, h2.mono hl, h3, fun g load hg hload => h4 g load hg ?_⟩
    have hlt : g < loads.length := hg.elim (h1 g) (h2 g)
    obtain ⟨u, rfl⟩ := hl
    rwa [List.getElem?_append_left hlt] at hload
  | .received _ _, h => h
  | .cancelled _, h => h

theorem loaded_ttl (l : RouteLabel) : routeFailedTTL ≤ (RouteState.loaded site l).ttl := by
  unfold RouteState.loaded
  rcases site.ephemeral with _ | inv
  · simp only [routeCacheLoader]
    split_ifs <;> simp [routeFailedTTL, routeNegativeTTL, routePositiveTTL, second]
  · rcases l.home with dst | _ | _ <;>
      simp [ephemeralRouteLoader, routeFailedTTL, routeNegativeTTL, routePositiveTTL, second]

def Loads (stale : Option ℕ) (s : RouteState) : Prop := Due stale s ∧ s.loadFor = stale

theorem settled_loads : Settled (Loads stale) :=
  fun s s' hle hst h => ⟨settled_due s s' hle hst h.1, hst.loadFor.trans h.2⟩

/-- It has returned, and this is what its result is given to say when it may be refreshed. -/
def Stamped (stale : Option ℕ) (refreshAfter : Option ℤ) (s : RouteState) : Prop :=
  Loads stale s ∧ (stale ≠ none → refreshAfter ≠ none) ∧
    ∀ ra, refreshAfter = some ra → s.returned + routeFailedTTL ≤ ra ∧ ra ≤ s.clock + routeFailedTTL

theorem settled_stamped (refreshAfter : Option ℤ) : Settled (Stamped stale refreshAfter) := by
  rintro s s' hle hst ⟨h1, h2, h3⟩
  refine ⟨settled_loads s s' hle hst h1, h2, fun ra hra => ?_⟩
  rw [hst.returned]
  exact ⟨(h3 ra hra).1, (h3 ra hra).2.trans (by omega)⟩

def Returned (stale : Option ℕ) (s : RouteState) : Prop := Loads stale s ∧ s.returned ≤ s.clock

theorem settled_returned : Settled (Returned stale) := by
  rintro s s' hle hst ⟨h1, h2⟩
  refine ⟨settled_loads s s' hle hst h1, ?_⟩
  rw [hst.returned]
  exact h2.trans hle

def Flying (t id : ℕ) (stale : Option ℕ) (φ : RouteState → Prop) (s : RouteState) : Prop :=
  s.flights.Flown t id stale ∧ φ s

theorem aboard_some {id : ℕ} : Aboard t (some id) stale φ s ↔ Flying t id stale φ s := by
  simp [Aboard, Flying]

theorem stable_flying (hφ : Settled φ) (id : ℕ) :
    (routeRules site).Stable t (Flying t id stale φ) := by
  have h : Flying t id stale φ = Aboard t (some id) stale φ := funext fun s =>
    propext aboard_some.symm
  rw [h]
  exact stable_aboard hφ (some id)

theorem triple_board : (routeRules site).Triple t (fun _ => True) (act .board)
    fun x : ℕ × Option ℕ => fun s =>
      Passed x.2 s.loads ∧ Flying t x.1 x.2 (fun _ => True) s := by
  refine triple_act (.const True)
    (fun x => stable_passed.and (stable_flying settled_true x.1)) ?_
  rintro s l r s' hi - he
  obtain ⟨⟨x, flights⟩, hb, h⟩ := Option.map_eq_some_iff.1 he
  cases h
  have hmoves : Flights.Moves t s.flights flights := .boards hb
  obtain ⟨hc, hfl⟩ := Flights.board_some hb
  have hlanded : flights.landed = s.flights.landed := by rw [hfl]
  have hjob := hi.jobs _ hc
  refine ⟨⟨hi.fine, hmoves.ordered hi.ordered, ?_, ?_, hi.latest, hi.cached, hi.refreshed, hi.kept,
    hi.older⟩, ⟨le_rfl, hmoves, List.prefix_refl _, .inl ⟨rfl, rfl, rfl, rfl⟩, ?_⟩, hjob,
    Flights.board_flown hb, trivial⟩
  · rw [hfl]
    rintro f ⟨⟩
    exact hjob
  · rw [hlanded]
    exact hi.landed
  · rw [hlanded]
    exact fun _ => .inl

theorem triple_beginLoad : (routeRules site).Triple t
    (fun s => Passed stale s.loads ∧ Flying t id stale (Due stale) s) (act (.beginLoad stale))
    fun _ => Flying t id stale (Loads stale) := by
  refine triple_act (stable_passed.and (stable_flying settled_due id))
    (fun _ => stable_flying settled_loads id) ?_
  rintro s l r s' hi ⟨hp, hf, hd⟩ he
  rw [RouteState.exec] at he
  obtain ⟨hle, h⟩ := timed_some he
  cases h
  have hfine : (RouteEvent.started stale l.now s.cache).Fine s.loads := by
    refine ⟨hp, fun g hg => ?_, fun id expiry hc => ?_, fun g load _ hl hst => ?_⟩
    · obtain ⟨⟨g, expiry⟩, hc, rfl⟩ := Option.map_eq_some_iff.1 hg
      have := hi.latest g expiry hc
      dsimp only
      omega
    · rcases hd id expiry hc with h | ⟨h, -⟩
      · exact .inl (h.trans hle)
      · exact .inr h
    · obtain ⟨ra, hra, hle'⟩ := hi.refreshed load (List.mem_of_getElem? hl) hst
      exact hle'.trans ((hd.cooled hi hl hra).trans hle)
  refine ⟨⟨List.forall_mem_cons.2 ⟨hfine, hi.fine⟩, hi.ordered, hi.jobs, hi.landed, hi.latest,
    hi.cached, hi.refreshed, hi.kept,
    fun id load ra h1 h2 h3 => (hi.older id load ra h1 h2 h3).trans hle⟩,
    ⟨hle, .stays _, List.prefix_refl _, .inr ⟨id, stale, hf⟩, fun _ => .inl⟩, hf,
    hd.later hle rfl rfl, rfl⟩

theorem triple_load : (routeRules site).Triple t (Flying t id stale (Loads stale))
    (act .load) fun (loaded : Loaded) s =>
      routeFailedTTL ≤ loaded.ttl ∧ Flying t id stale (Returned stale) s := by
  refine triple_act (stable_flying settled_loads id)
    (fun _ => (Rules.Stable.const _).and (stable_flying settled_returned id)) ?_
  rintro s l r s' hi ⟨hf, hd, hfor⟩ he
  rw [RouteState.exec] at he
  obtain ⟨hle, h⟩ := timed_some he
  cases h
  obtain ⟨hi', -⟩ := Ticks.keeps (t := t) ⟨l.now, hle, rfl⟩ hi
  refine ⟨⟨hi'.fine, hi'.ordered, hi'.jobs, hi'.landed, hi'.latest, hi'.cached, hi'.refreshed,
    hi'.kept, hi'.older⟩, ⟨hle, .stays _, List.prefix_refl _, .inr ⟨id, stale, hf⟩, fun _ => .inl⟩,
    loaded_ttl l, hf, ⟨hd.later hle rfl rfl, hfor⟩, le_rfl⟩

theorem triple_stamp : (routeRules site).Triple t (Flying t id stale (Returned stale))
    (stamp stale) fun refreshAfter => Flying t id stale (Stamped stale refreshAfter) := by
  rcases stale with _ | g
  · refine .ret (stable_flying (settled_stamped none) id) ?_
    rintro s - ⟨hf, h, -⟩
    exact ⟨hf, h, fun h => absurd rfl h, nofun⟩
  · refine .bind (Q := fun (time : ℤ) => Flying t id (some g) (Stamped (some g)
      (some (time + routeFailedTTL)))) ?_ fun time =>
        .ret (stable_flying (settled_stamped _) id) fun _ _ h => h
    refine triple_tick trivial (stable_flying settled_returned id)
      (fun _ => stable_flying (settled_stamped _) id) ?_
    rintro s l r s' - hf he ht
    obtain ⟨hf, hs, hret⟩ := (aboard_some.1 (ht.aboard settled_returned (aboard_some.2 hf)))
    obtain ⟨hle, h⟩ := timed_some he
    cases h
    refine ⟨hf, hs, nofun, ?_⟩
    rintro ra ⟨⟩
    exact ⟨Int.add_le_add_right hret _, le_rfl⟩

theorem triple_set {value : RoutesResult} {ttl : ℤ} (httl : routeFailedTTL ≤ ttl)
    {refreshAfter : Option ℤ} (hv : value.refreshAfter = refreshAfter) :
    (routeRules site).Triple t (Flying t id stale (Stamped stale refreshAfter))
      (act (.set value ttl)) fun ret : ℕ => Flying t id stale (IsLatest ret) := by
  subst hv
  refine triple_act (stable_flying (settled_stamped _) id)
    (fun ret => stable_flying (settled_isLatest ret) id) ?_
  rintro s l r s' hi ⟨hf, ⟨hd, hfor⟩, hsome, hra⟩ he
  rw [RouteState.exec] at he
  obtain ⟨hle, h⟩ := timed_some he
  cases h
  have hpre : s.loads <+: s.loads ++ [⟨value, s.loadFor, s.returned⟩] := List.prefix_append _ _
  refine ⟨⟨fun e he => (hi.fine e he).mono hpre, hi.ordered, fun f hf => (hi.jobs f hf).mono hpre,
    fun x hx => (hi.landed x hx).trans_le hpre.length_le, ?_, nofun, ?_, ?_, ?_⟩,
    ⟨hle, .stays _, hpre, .inr ⟨id, stale, hf⟩, fun _ => .inl⟩, hf, ?_⟩
  · rintro id expiry ⟨⟩
    simp
  · intro load hm hst
    rcases List.mem_append.1 hm with hm | hm
    · exact hi.refreshed load hm hst
    · obtain rfl := List.mem_singleton.1 hm
      obtain ⟨ra, hr⟩ := Option.ne_none_iff_exists'.1 (hsome (hfor ▸ hst))
      exact ⟨ra, hr, (hra ra hr).1⟩
  · rintro id expiry load ra ⟨⟩ hl hr
    simp only [List.getElem?_concat_length, Option.some.injEq] at hl
    subst hl
    have := (hra ra hr).2
    dsimp only at this ⊢
    omega
  · intro id load ra hl hlt hr
    have hlt' : id < s.loads.length := by simpa using hlt
    rw [List.getElem?_append_left hlt'] at hl
    exact (hd.cooled hi hl hr).trans hle
  · simp [IsLatest]

theorem triple_land (id ret : ℕ) : (routeRules site).Triple t
    (Flying t id stale (IsLatest ret)) (act (.land id ret)) fun _ _ => True := by
  refine triple_act (stable_flying (settled_isLatest ret) id) (fun _ => .const True) ?_
  rintro s l r s' hi ⟨hf, hlast⟩ he
  cases he
  have hmoves : Flights.Moves t s.flights (s.flights.land id ret) := .lands hf ret
  have hlt : ret < s.loads.length := Nat.lt_of_succ_le (Nat.le_of_eq hlast)
  refine ⟨⟨hi.fine, hmoves.ordered hi.ordered, nofun, List.forall_mem_cons.2 ⟨hlt, hi.landed⟩,
    hi.latest, hi.cached, hi.refreshed, hi.kept, hi.older⟩,
    ⟨le_rfl, hmoves, List.prefix_refl _, .inl ⟨rfl, rfl, rfl, rfl⟩, fun x hx => ?_⟩, trivial⟩
  rcases List.mem_cons.1 hx with rfl | hx
  · exact .inr hlast
  · exact .inl hx

theorem triple_flight : (routeRules site).Triple t (fun _ => True) flight fun _ _ => True := by
  refine .bind triple_board fun x => ?_
  obtain ⟨id, stale⟩ := x
  refine .bind ((triple_cached (some id)).pre fun s _ h => ⟨h.1, aboard_some.2 h.2⟩) fun ans => ?_
  rcases ans with _ | ret
  · refine .bind ((triple_beginLoad id).pre fun s _ h => ⟨h.1, aboard_some.1 h.2⟩) fun _ => ?_
    refine .bind (triple_load id) fun loaded => .assume fun httl => ?_
    refine .bind (triple_stamp id) fun refreshAfter => ?_
    exact .bind (triple_set id httl rfl) fun ret => triple_land id ret
  · exact (triple_land id ret).pre fun s _ h => aboard_some.1 h.2

theorem triple_ctxErr {φ : List Load → Prop} (hφ : ∀ l l', l <+: l' → φ l → φ l') :
    (routeRules site).Triple t (fun s => φ s.loads) (act .ctxErr)
      fun (_ : Bool) s => φ s.loads := by
  refine triple_act (stable_loads hφ) (fun _ => stable_loads hφ) ?_
  rintro s l r s' hi hs he
  rw [RouteState.exec] at he
  split_ifs at he
  · cases he
    exact and_assoc.1 ⟨logged_keeps hi trivial, hs⟩
  · cases he
    exact and_assoc.1 ⟨Ticks.keeps ⟨s.clock, le_rfl, rfl⟩ hi, hs⟩

theorem triple_getConn {φ : List Load → Prop} (hφ : ∀ l l', l <+: l' → φ l → φ l')
    (route : TunnelRoute) : (routeRules site).Triple t (fun s => φ s.loads) (act (.getConn route))
      fun (_ : ConnOutcome) s => φ s.loads := by
  refine triple_tick trivial (stable_loads hφ) (fun _ => stable_loads hφ) ?_
  intro s l r s' hi hs he ht
  rwa [(SameStore.ticks ht).loads]

theorem triple_received {ret : ℕ} (hret : ∀ g, stale = some g → g ≤ ret) :
    (routeRules site).Triple t (fun s => ret < s.loads.length) (act (.received stale ret))
      fun _ s => ret < s.loads.length := by
  refine triple_act (stable_loaded ret) (fun _ => stable_loaded ret) ?_
  rintro s l r s' hi hs he
  cases he
  exact and_assoc.1 ⟨logged_keeps hi hret, hs⟩

theorem triple_doChan : (routeRules site).Triple t (fun s => Passed stale s.loads)
    (act (.doChan stale)) fun x : ℕ × Bool => Awaits x.1 stale := by
  refine triple_act stable_passed (fun x => stable_awaits x.1) ?_
  rintro s l r s' hi hs he
  cases he
  have hmoves : Flights.Moves t s.flights (s.flights.join stale).2 := .joins _ stale
  have hjobs : ∀ f, (s.flights.join stale).2.current = some f → Passed f.job s.loads := by
    obtain ⟨f, hf, h⟩ | ⟨_, h⟩ := Flights.join_cases s.flights stale <;> rw [h]
    · exact hi.jobs
    · rintro f ⟨⟩
      exact hs
  have hlanded : (s.flights.join stale).2.landed = s.flights.landed := by
    obtain ⟨f, hf, h⟩ | ⟨_, h⟩ := Flights.join_cases s.flights stale <;> rw [h]
  refine ⟨⟨hi.fine, hmoves.ordered hi.ordered, hjobs, ?_, hi.latest, hi.cached, hi.refreshed,
    hi.kept, hi.older⟩, ⟨le_rfl, hmoves, List.prefix_refl _, .inl ⟨rfl, rfl, rfl, rfl⟩, ?_⟩, ?_⟩
  · rw [hlanded]
    exact hi.landed
  · rw [hlanded]
    exact fun _ => .inl
  · exact fun g hg => ⟨hs g hg, fun x hx hid =>
      absurd hid (Flights.join_notMem hi.ordered stale x hx)⟩

theorem triple_goFlight {P : RouteState → Prop} (hP : (routeRules site).Stable t P) :
    ∀ created, (routeRules site).Triple t P (goFlight created) fun _ => P
  | true => .start hP fun _ _ _ => trivial
  | false => .same hP

theorem triple_await (flight : ℕ) : (routeRules site).Triple t (Awaits flight stale)
    (act (.await flight)) fun (ans : Option ℕ) s => ∀ ret, ans = some ret →
      (∀ g, stale = some g → g ≤ ret) ∧ ret < s.loads.length := by
  refine triple_act (stable_awaits flight) ?_ ?_
  · intro ans s s' t' hne hi hi' hg hk h ret hret
    exact ⟨(h ret hret).1, stable_loaded ret s s' t' hne hi hi' hg hk (h ret hret).2⟩
  rintro s l r s' hi hs he
  rw [RouteState.exec] at he
  split_ifs at he
  · cases he
    exact and_assoc.1 ⟨logged_keeps hi trivial, nofun⟩
  · obtain ⟨ret, hl, h⟩ := Option.map_eq_some_iff.1 he
    cases h
    refine and_assoc.1 ⟨Ticks.keeps ⟨s.clock, le_rfl, rfl⟩ hi, ?_⟩
    rintro ret' ⟨⟩
    have hm : (flight, ret) ∈ s.flights.landed := by
      obtain ⟨l₁, l₂, h, -⟩ := List.lookup_eq_some_iff.1 hl
      simp [h]
    exact ⟨fun g hg => (hs g hg).2 _ hm rfl, hi.landed _ hm⟩

theorem triple_lookupRoutes : (routeRules site).Triple t (fun s => Passed stale s.loads)
    (lookupRoutes stale) fun ans s => ∀ ret, ans = some ret → ret < s.loads.length := by
  have hans : ∀ ret, (routeRules site).Stable t fun s =>
      ∀ ret', some ret = some ret' → ret' < s.loads.length := by
    intro ret s s' t' hne hi hi' hg hk h ret' hr
    exact stable_loaded ret' s s' t' hne hi hi' hg hk (h ret' hr)
  have hnone : ∀ P, (routeRules site).Triple t P (.ret none) fun (ans : Option ℕ) s =>
      ∀ ret, ans = some ret → ret < s.loads.length := fun _ =>
    .ret (fun _ _ _ _ _ _ _ _ _ => nofun) fun _ _ _ => nofun
  have hreceived : ∀ ret, (∀ g, stale = some g → g ≤ ret) → (routeRules site).Triple t
      (fun s => ret < s.loads.length) (act (.received stale ret) >>= fun _ => .ret (some ret))
      fun ans s => ∀ ret', ans = some ret' → ret' < s.loads.length := by
    intro ret hret
    refine .bind (triple_received hret) fun _ => .ret (hans ret) ?_
    rintro s - h ret' ⟨⟩
    exact h
  refine .bind (triple_ctxErr (φ := Passed stale) fun _ _ hl h => h.mono hl) fun done => ?_
  rcases done with _ | _
  · refine .bind ((triple_cached none).pre fun s _ h => ⟨h, nofun⟩) fun ans => ?_
    rcases ans with _ | ret
    · refine .bind (triple_doChan.pre fun s _ h => h.1) fun x => ?_
      refine .bind (triple_goFlight (stable_awaits x.1) x.2) fun _ => ?_
      refine .bind (triple_await x.1) fun result => ?_
      rcases result with _ | ret
      · exact hnone _
      · intro s hi h
        obtain ⟨h1, h2⟩ := h ret rfl
        exact hreceived ret h1 s hi h2
    · intro s hi h
      exact hreceived ret h.1.2.2 s hi h.1.2.1
  · exact hnone _

theorem triple_tryRoutes {φ : List Load → Prop} (hφ : ∀ l l', l <+: l' → φ l → φ l') :
    ∀ routes isNoRoute, (routeRules site).Triple t (fun s => φ s.loads)
      (tryRoutes routes isNoRoute) fun _ s => φ s.loads
  | [], isNoRoute => by
    refine .bind (triple_ctxErr hφ) fun done => ?_
    rcases done with _ | _ <;> exact .same (stable_loads hφ)
  | route :: rest, isNoRoute => by
    refine .bind (triple_ctxErr hφ) fun done => ?_
    rcases done with _ | _
    · refine .bind (triple_getConn hφ route) fun outcome => ?_
      rcases outcome with _ | _ | _
      · exact .same (stable_loads hφ)
      · exact triple_tryRoutes hφ rest true
      · exact triple_tryRoutes hφ rest isNoRoute
    · exact .same (stable_loads hφ)

theorem triple_attempt : (routeRules site).Triple t
    (fun s => ret < s.loads.length) (attempt ret isNoRoute) fun _ s => ret < s.loads.length := by
  have hφ : ∀ l l' : List Load, l <+: l' → ret < l.length → ret < l'.length :=
    fun _ _ hl h => h.trans_le hl.length_le
  refine .bind (triple_deref (stable_loaded ret) (fun s s' h hs => ?_) ret) fun result => ?_
  · rwa [(SameStore.ticks h).loads]
  rcases result.err with _ | e
  · exact (triple_tryRoutes hφ _ _).pre fun _ _ h => h.1
  · exact .ret (stable_loaded ret) fun _ _ h => h.1

theorem triple_dialAttempts : ∀ refreshes ret isNoRoute, (routeRules site).Triple t
    (fun s => ret < s.loads.length) (dialAttempts refreshes ret isNoRoute) fun _ _ => True := by
  intro refreshes
  induction refreshes with
  | zero =>
    intro ret isNoRoute
    rw [dialAttempts]
    refine .bind (triple_attempt ret isNoRoute) fun r => ?_
    rcases r with r | b <;> exact .done _
  | succ refreshes ih =>
    intro ret isNoRoute
    rw [dialAttempts]
    refine .bind (triple_attempt ret isNoRoute) fun r => ?_
    rcases r with r | b
    · exact .done _
    refine .bind (triple_lookupRoutes.pre fun s _ h => ?_) fun ans => ?_
    · rintro g ⟨⟩
      exact h
    rcases ans with _ | fresh
    · exact .done _
    dsimp only
    split_ifs
    · exact .done _
    · exact (ih fresh b).pre fun s _ h => h fresh rfl

theorem triple_dialClient :
    (routeRules site).Triple t (fun _ => True) dialClient fun _ _ => True := by
  refine .bind (triple_lookupRoutes.pre fun s _ _ => passed_none) fun ans => ?_
  rcases ans with _ | ret
  · exact .done _
  · exact (triple_dialAttempts 1 ret false).pre fun s _ h => h ret rfl

theorem triple_checkRoute :
    (routeRules site).Triple t (fun _ => True) checkRoute fun _ _ => True := by
  refine .bind (triple_lookupRoutes.pre fun s _ _ => passed_none) fun ans => ?_
  rcases ans with _ | ret
  · exact .done _
  · exact .bind ((triple_deref (.const True) (fun _ _ _ _ => trivial) ret).pre fun _ _ _ => trivial)
      fun _ => .done _

theorem route_closed : (routeRules site).Closed := by
  refine ⟨fun _ => .const True, fun τ t => ?_⟩
  cases τ with
  | dialClient => exact .bind (triple_dialClient.pre fun _ _ _ => trivial) fun _ => .done _
  | checkRoute => exact .bind (triple_checkRoute.pre fun _ _ _ => trivial) fun _ => .done _
  | routesPreload =>
    exact .bind (triple_lookupRoutes.pre fun _ _ _ => passed_none) fun _ => .done _
  | flight => exact triple_flight.pre fun _ _ _ => trivial

theorem routeInv_start (clock : ℤ) : RouteInv (.start clock) :=
  ⟨nofun, Flights.ordered_empty, nofun, nofun, nofun, fun _ => rfl, nofun, nofun, nofun⟩

theorem routeInv_run {tasks : List RouteTask} {clock : ℤ} {sched : List (ℕ × RouteLabel)}
    {c : Config routeSig RouteState}
    (h : (routeCache site).run sched ((routeCache site).launch tasks (.start clock)) = some c) :
    RouteInv c.shared := by
  have hgood : (routeRules site).Good ((routeCache site).launch tasks (.start clock)) :=
    Rules.good_launch (routeInv_start clock) (fun _ _ => trivial) fun t τ _ =>
      route_closed.safe τ t _ (routeInv_start clock) ⟨trivial, trivial⟩
  obtain ⟨-, hf⟩ := Rules.follows_of_run (R := routeRules site) (φ := fun _ => True)
    (fun _ _ => ⟨trivial, trivial⟩) (fun _ _ => trivial) h trivial
  exact (Rules.good_run route_closed hgood hf h).1

theorem RouteInv.refreshedOnce (hi : RouteInv s) : RefreshedOnce s := by
  refine ⟨fun g time id expiry hm hlt => ?_, fun g stale time cached load hm => ?_,
    fun g ret hm => hi.fine _ hm g rfl⟩
  · rcases (hi.fine _ hm).2.2.1 id expiry rfl with h | h
    · exact h
    · cases h
      exact absurd hlt (lt_irrefl g)
  · exact (hi.fine _ hm).2.2.2 g load

end Rules

def GivesUp : (a : RouteAct) → routeSig.Res a → Prop
  | .ctxErr => fun r : Bool => r = true
  | .await _ => fun r : Option ℕ => r = none
  | _ => fun _ => False

theorem quits_act {Q : routeSig.Res a → Prop} (h : ∀ r, GivesUp a r → Q r) :
    (act a).Quits GivesUp Q :=
  Prog.quits_perform h

theorem quits_plain {Q : α → Prop} {f : routeSig.Res a → RouteProg α} (ha : ∀ r, ¬ GivesUp a r)
    (hf : ∀ r, (f r).Quits GivesUp Q) : (act a >>= f).Quits GivesUp Q :=
  Prog.quits_bind (Q := fun _ => False) nofun hf (quits_act ha)

theorem quits_cached {Q : Option ℕ → Prop} (stale : Option ℕ) : (cached stale).Quits GivesUp Q := by
  refine quits_plain (fun _ => id) fun entry => ?_
  rcases entry with _ | ret
  · exact trivial
  dsimp only
  split_ifs
  · exact trivial
  refine quits_plain (fun _ => id) fun result => quits_plain (fun _ => id) fun time => ?_
  rcases result.refreshAfter with _ | ra
  · exact trivial
  · dsimp only
    split_ifs <;> exact trivial

theorem quits_ctxErr {Q : α → Prop} {f : Bool → RouteProg α} (hQ : ∃ a, f true = .ret a ∧ Q a)
    (hf : (f false).Quits GivesUp Q) : (act .ctxErr >>= f).Quits GivesUp Q := by
  refine Prog.quits_bind (Q := fun r : Bool => r = true) (fun r hr => ?_) (fun r => ?_)
    (quits_act fun _ h => h)
  · subst hr
    exact hQ
  · rcases r with _ | _
    · exact hf
    · obtain ⟨a, ha, -⟩ := hQ
      rw [ha]
      exact trivial

theorem quits_lookupRoutes (stale : Option ℕ) :
    (lookupRoutes stale).Quits GivesUp fun ans => ans = none := by
  refine quits_ctxErr ⟨none, rfl, rfl⟩ ?_
  refine Prog.quits_bind (Q := fun _ => False) nofun (fun ans => ?_) (quits_cached stale)
  rcases ans with _ | ret
  · refine quits_plain (fun _ => id) fun x => ?_
    refine Prog.quits_bind (Q := fun _ => False) nofun (fun _ => ?_) ?_
    · refine Prog.quits_bind (Q := fun r : Option ℕ => r = none) (fun r hr => ?_) (fun r => ?_)
        (quits_act fun _ h => h)
      · subst hr
        exact ⟨none, rfl, rfl⟩
      · rcases r with _ | ret
        · exact trivial
        · exact quits_plain (fun _ => id) fun _ => trivial
    · unfold goFlight
      split_ifs <;> exact trivial
  · exact quits_plain (fun _ => id) fun _ => trivial

theorem quits_tryRoutes : ∀ routes isNoRoute,
    (tryRoutes routes isNoRoute).Quits GivesUp fun r => r = .inl .ctxDone
  | [], _ => quits_ctxErr ⟨_, rfl, rfl⟩ trivial
  | route :: rest, isNoRoute => by
    refine quits_ctxErr ⟨_, rfl, rfl⟩ (quits_plain (fun _ => id) fun outcome => ?_)
    rcases outcome with _ | _ | _
    · exact trivial
    · exact quits_tryRoutes rest true
    · exact quits_tryRoutes rest isNoRoute

theorem quits_attempt : (attempt ret isNoRoute).Quits GivesUp fun r => r = .inl .ctxDone := by
  refine quits_plain (fun _ => id) fun result => ?_
  rcases result.err with _ | e
  · exact quits_tryRoutes _ _
  · exact trivial

theorem quits_dialAttempts : ∀ refreshes ret isNoRoute,
    (dialAttempts refreshes ret isNoRoute).Quits GivesUp fun _ => True := by
  intro refreshes
  induction refreshes with
  | zero =>
    intro ret isNoRoute
    rw [dialAttempts]
    refine Prog.quits_bind ?_ (fun r => ?_) (quits_attempt ret isNoRoute)
    · rintro _ rfl
      exact ⟨.ctxDone, rfl, trivial⟩
    · rcases r with r | b <;> exact trivial
  | succ refreshes ih =>
    intro ret isNoRoute
    rw [dialAttempts]
    refine Prog.quits_bind ?_ (fun r => ?_) (quits_attempt ret isNoRoute)
    · rintro _ rfl
      exact ⟨.ctxDone, rfl, trivial⟩
    rcases r with r | b
    · exact trivial
    refine Prog.quits_bind ?_ (fun ans => ?_) (quits_lookupRoutes _)
    · rintro _ rfl
      exact ⟨.ctxDone, rfl, trivial⟩
    rcases ans with _ | fresh
    · exact trivial
    dsimp only
    split_ifs
    · exact trivial
    · exact ih fresh b

theorem quits_dialClient : dialClient.Quits GivesUp fun _ => True := by
  refine Prog.quits_bind ?_ (fun ans => ?_) (quits_lookupRoutes none)
  · rintro _ rfl
    exact ⟨.ctxDone, rfl, trivial⟩
  · rcases ans with _ | ret
    · exact trivial
    · exact quits_dialAttempts 1 ret false

theorem quits_checkRoute : checkRoute.Quits GivesUp fun _ => True := by
  refine Prog.quits_bind ?_ (fun ans => ?_) (quits_lookupRoutes none)
  · rintro _ rfl
    exact ⟨none, rfl, trivial⟩
  · rcases ans with _ | ret
    · exact trivial
    · exact quits_plain (fun _ => id) fun _ => trivial

theorem quits_flight : flight.Quits GivesUp fun _ => True := by
  refine quits_plain (fun _ => id) fun x => ?_
  refine Prog.quits_bind (Q := fun _ => False) nofun (fun ans => ?_) (quits_cached x.2)
  rcases ans with _ | ret
  · refine quits_plain (fun _ => id) fun _ => quits_plain (fun _ => id) fun loaded => ?_
    refine Prog.quits_bind (Q := fun _ => False) nofun (fun refreshAfter => ?_) ?_
    · exact quits_plain (fun _ => id) fun ret => quits_act fun _ _ => trivial
    · rcases x.2 with _ | g
      · exact trivial
      · exact quits_plain (fun _ => id) fun _ => trivial
  · exact quits_act fun _ _ => trivial

theorem quits_body (site : RouteSite) (τ : RouteTask) :
    ((routeCache site).body τ).Quits GivesUp fun _ => True := by
  have hdone : ∀ {α : Type} {p : RouteProg α} {Q : α → Prop}, p.Quits GivesUp Q →
      (p >>= fun _ => (.ret () : RouteProg Unit)).Quits GivesUp fun _ => True := fun hp =>
    Prog.quits_bind (fun _ _ => ⟨(), rfl, trivial⟩) (fun _ => trivial) hp
  cases τ with
  | dialClient => exact hdone quits_dialClient
  | checkRoute => exact hdone quits_checkRoute
  | routesPreload => exact hdone (quits_lookupRoutes none)
  | flight => exact quits_flight

theorem givesUp_of_cancelled {site : RouteSite} {l : RouteLabel} {t : ℕ}
    (he : s.exec site l t a = some (r, s')) (hlog : s'.log = .cancelled t :: s.log) :
    GivesUp a r ∧ s' = s.cancel t := by
  have hne : s.log ≠ .cancelled t :: s.log := (List.cons_ne_self _ _).symm
  cases a with
  | ctxErr =>
    rw [RouteState.exec] at he
    split_ifs at he with hc
    · cases he
      exact ⟨hc, rfl⟩
    · cases he
      exact absurd hlog hne
  | await flight =>
    rw [RouteState.exec] at he
    split_ifs at he with hc
    · cases he
      exact ⟨rfl, rfl⟩
    · obtain ⟨ret, -, h⟩ := Option.map_eq_some_iff.1 he
      cases h
      exact absurd hlog hne
  | now | get | load | beginLoad stale | set value ttl =>
    rw [RouteState.exec] at he
    obtain ⟨-, h⟩ := timed_some he
    cases h
    simp at hlog
  | deref ret | board =>
    obtain ⟨x, -, h⟩ := Option.map_eq_some_iff.1 he
    cases h
    exact absurd hlog hne
  | doChan stale | land flight ret | received stale ret | getConn route =>
    cases he
    simp at hlog

/-- In every interleaving nothing is loaded for a caller while a newer result than the one it passed
is kept, the outcome of a refresh is not refreshed before it has cooled down, and nobody receives an
older result than it passed.  A caller whose context is done returns, and changes nothing. -/
theorem exhausted_routes_refreshed_once (site : RouteSite) (tasks : List RouteTask) (clock : ℤ)
    (sched : List (ℕ × RouteLabel)) (c : Config routeSig RouteState)
    (h : (routeCache site).run sched ((routeCache site).launch tasks (.start clock)) = some c) :
    RefreshedOnce c.shared ∧
      ∀ t l c', (routeCache site).step t l c = some c' →
        c'.shared.log = .cancelled t :: c.shared.log →
        c' = ⟨c.shared.cancel t, c.threads.set t (.ret ())⟩ := by
  refine ⟨(routeInv_run h).refreshedOnce, fun t l c' hstep hlog => ?_⟩
  have hquits := (routeCache site).run_threads (quits_body site) (fun _ _ r hp => (hp r).2)
    (fun _ _ hp => hp) h fun p hp => by
      obtain ⟨τ, -, rfl⟩ := List.mem_map.1 hp
      exact quits_body site τ
  obtain ⟨a, k, r, s, hp, he, rfl⟩ | ⟨τ, k, -, rfl⟩ := (routeCache site).step_cases hstep
  · obtain ⟨hgive, rfl⟩ := givesUp_of_cancelled he hlog
    obtain ⟨u, hk, -⟩ := (hquits _ (List.mem_of_getElem? hp) r).1 hgive
    rw [hk]
  · exact absurd hlog (List.cons_ne_self _ _).symm

/-- Two dials exhaust the routes.  The first one has them refreshed and gives up before they are
there, and the second one receives what was loaded for it. -/
def secondDial : List (ℕ × RouteLabel) :=
  let node : Peer := ⟨1, "10.0.0.1:443", false⟩
  let l (now : ℤ) : RouteLabel :=
    ⟨now, false, false, fun _ => .found ⟨⟨0, "client", false⟩, node, node, "host"⟩, .failed,
      .failed⟩
  let steps (t n : ℕ) (now : ℤ) := List.replicate n (t, l now)
  steps 0 4 0 ++ steps 2 6 1 ++ steps 0 2 1 ++ steps 1 3 2 ++
    -- both have the first result, and go through its routes
    steps 0 14 3 ++ steps 1 13 3 ++ steps 3 4 4 ++ [(0, { l 4 with cancelled := true })] ++
    steps 3 5 5 ++ steps 1 3 6

theorem exhausted_routes_refreshed_for_both : ∃ c,
    (routeCache ⟨"host", none, "10.0.0.2:443"⟩).run secondDial
      ((routeCache ⟨"host", none, "10.0.0.2:443"⟩).launch [.dialClient, .dialClient] (.start 0)) =
        some c ∧
    c.shared.log = [.received (some 0) 1, .started (some 0) 5 (some (0, 300000000001)),
      .cancelled 0, .received none 0, .received none 0, .started none 1 none] ∧
    RefreshedOnce c.shared := by
  have h : ((routeCache ⟨"host", none, "10.0.0.2:443"⟩).run secondDial
      ((routeCache ⟨"host", none, "10.0.0.2:443"⟩).launch [.dialClient, .dialClient]
        (.start 0))).map (fun c => c.shared.log) = some
          [.received (some 0) 1, .started (some 0) 5 (some (0, 300000000001)), .cancelled 0,
            .received none 0, .received none 0, .started none 1 none] := by decide +kernel
  obtain ⟨c, hc, hlog⟩ := Option.map_eq_some_iff.1 h
  exact ⟨c, hc, hlog, (exhausted_routes_refreshed_once _ _ _ _ c hc).1⟩

end Specter.Tunnel
