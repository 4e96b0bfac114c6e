import Specter.Lib.Results
import Specter.Manager

/-!
# The manager fails closed

Every engine has one owner until it is closed: the manager, or the job that compiled or replaced it.
The active version can go back: an update that was started while there was no engine has nothing to
compare its version with, and a restore may have put a later one in place meanwhile.
-/

namespace Specter.Waf

variable {settingsOf : String → Option Settings} {b : String} {m m' : Manager} {i id : ℕ}
  {job : UpdateJob} {e : EngineRef}

/-- The engines a job has to close or hand over. -/
def Phase.held : Phase → List ℕ
  | .prepared (.ok engine) | .closing engine => ids engine
  | _ => []

structure UpdateJob.Sound (settingsOf : String → Option Settings) (job : UpdateJob) : Prop where
  document : decoded settingsOf (.ok job.token) = .ok (job.token, job.settings)
  /-- An unpinned update is not lower than the version it was compared with, in its channel. -/
  version : ∀ e, job.phase = .prepared (.ok (some e)) → job.settings.pinnedVersion = "" →
    releaseInChannel job.current job.settings.channel = true →
    compareReleases e.version job.current ≠ .lt

namespace Manager

variable {ev : ManagerEvent}

/-- The engine the manager has to close or hand over. -/
def owned (m : Manager) : List ℕ := if m.returned then [] else ids m.engine

structure Owned (m : Manager) : Prop where
  count : ∀ id, m.closes.count id + m.owned.count id +
    (m.jobs.flatMap (·.phase.held)).count id = if id < m.compiled then 1 else 0
  returned : m.returned = true → m.closed = true ∧ m.jobs = []

structure Sound (settingsOf : String → Option Settings) (m : Manager) : Prop where
  document : decoded settingsOf (.ok m.token) = .ok (m.token, m.settings)
  lastRead : m.lastRead = some m.settings ∨ m.token = none ∧ m.unavailable = true
  closed : m.closed = true → m.unavailable = true
  version : ∀ e, m.engine = some e → e.version = m.cache.active
  jobs : ∀ job ∈ m.jobs, job.Sound settingsOf

theorem step_cases (h : m.step settingsOf b ev = some m') :
    (∃ read stored usable, m' = m.reloadSettings settingsOf b read stored usable) ∨
    m' = m.beginUpdate ∨
    (∃ i job listing built, m.jobs[i]? = some job ∧ job.phase = .preparing ∧
      m' = m.prepareUpdate i job listing built) ∨
    (∃ i job result ctxErr read saved, ev = .finishUpdate i ctxErr read saved ∧
      m.jobs[i]? = some job ∧ job.phase = .prepared result ∧
      m' = m.finishUpdate i job result ctxErr read saved) ∨
    (∃ i job engine, m.jobs[i]? = some job ∧ job.phase = .closing engine ∧
      m' = { m with
        jobs := m.jobs.eraseIdx i, closes := ids engine ++ m.closes }) ∨
    m' = (if m.closed then m else { m with closed := true, unavailable := true }) ∨
    m.closed = true ∧ m.returned = false ∧ m.jobs = [] ∧
      m' = { m with returned := true, closes := ids m.engine ++ m.closes } := by
  cases ev with
  | reloadSettings read stored usable =>
    cases h
    exact .inl ⟨read, stored, usable, rfl⟩
  | beginUpdate =>
    cases h
    exact .inr (.inl rfl)
  | prepareUpdate i listing built =>
    simp only [step] at h
    split at h <;> cases h
    exact .inr (.inr (.inl ⟨i, _, listing, built, by assumption, rfl, rfl⟩))
  | finishUpdate i ctxErr read saved =>
    simp only [step] at h
    split at h <;> cases h
    exact .inr (.inr (.inr (.inl ⟨i, _, _, ctxErr, read, saved, rfl, by assumption, rfl, rfl⟩)))
  | closeLeft i =>
    simp only [step] at h
    split at h <;> cases h
    exact .inr (.inr (.inr (.inr (.inl ⟨i, _, _, by assumption, rfl, rfl⟩))))
  | close =>
    cases h
    exact .inr (.inr (.inr (.inr (.inr (.inl rfl)))))
  | closeActive =>
    simp only [step, Option.ite_none_right_eq_some, Option.some.injEq] at h
    obtain ⟨⟨hc, hr, hj⟩, rfl⟩ := h
    refine .inr (.inr (.inr (.inr (.inr (.inr ⟨hc, ?_, ?_, rfl⟩)))))
    · simpa using hr
    · simpa using hj

structure Reloaded (m m' : Manager) : Prop where
  jobs : m'.jobs = m.jobs
  closes : m'.closes = m.closes
  closed : m'.closed = m.closed
  returned : m'.returned = m.returned
  engine : (m'.engine = m.engine ∧ m'.compiled = m.compiled) ∨
    (m.closed = false ∧ m.engine = none ∧ m'.compiled = m.compiled + 1 ∧
      ∃ version, m'.engine = some ⟨m.compiled, version⟩)

theorem reloaded (m : Manager) (read : Except Unit (Option String)) (stored : CacheState)
    (usable : String → Bool) : Reloaded m (m.reloadSettings settingsOf b read stored usable) := by
  unfold reloadSettings
  split_ifs with hc
  · exact ⟨rfl, rfl, rfl, rfl, .inl ⟨rfl, rfl⟩⟩
  split
  · exact ⟨rfl, rfl, rfl, rfl, .inl ⟨rfl, rfl⟩⟩
  dsimp only
  split_ifs
  · exact ⟨rfl, rfl, rfl, rfl, .inl ⟨rfl, rfl⟩⟩
  unfold apply
  dsimp only
  split_ifs with he
  · unfold restoreRules
    split
    · exact ⟨rfl, rfl, rfl, rfl, .inl ⟨rfl, rfl⟩⟩
    · exact ⟨rfl, rfl, rfl, rfl, .inr ⟨by simpa using hc, he.2, rfl, _, rfl⟩⟩
  · exact ⟨rfl, rfl, rfl, rfl, .inl ⟨rfl, rfl⟩⟩

theorem split_jobs {jobs : List UpdateJob} (h : jobs[i]? = some job) :
    ∃ l₁ l₂, jobs = l₁ ++ job :: l₂ ∧ (∀ job', jobs.set i job' = l₁ ++ job' :: l₂) ∧
      jobs.eraseIdx i = l₁ ++ l₂ := by
  obtain ⟨hi, rfl⟩ := List.getElem?_eq_some_iff.1 h
  refine ⟨jobs.take i, jobs.drop (i + 1), ?_, fun job' => ?_, ?_⟩
  · rw [List.getElem_cons_drop, List.take_append_drop]
  · exact List.set_eq_take_append_cons_drop.trans (if_pos hi)
  · exact List.eraseIdx_eq_take_drop_succ jobs i

theorem count_set (h : m.jobs[i]? = some job) (job' : UpdateJob) (id : ℕ) :
    ((m.jobs.set i job').flatMap (·.phase.held)).count id + job.phase.held.count id =
      (m.jobs.flatMap (·.phase.held)).count id + job'.phase.held.count id := by
  obtain ⟨l₁, l₂, hj, hset, -⟩ := split_jobs h
  rw [hset, hj]
  simp only [List.flatMap_append, List.flatMap_cons, List.count_append]
  omega

namespace Owned

theorem isOpen (h : m.Owned) (hj : m.jobs[i]? = some job) : m.returned = false := by
  by_contra hr
  rw [(h.returned (by simpa using hr)).2] at hj
  cases hj

theorem move (h : m.Owned) (hj : m.jobs[i]? = some job) {job' : UpdateJob}
    (hjobs : m'.jobs = m.jobs.set i job') (hcloses : m'.closes = m.closes)
    (hret : m'.returned = m.returned)
    (hcount : ∀ id, m'.owned.count id + job'.phase.held.count id +
      (if id < m.compiled then 1 else 0) =
      m.owned.count id + job.phase.held.count id + if id < m'.compiled then 1 else 0) :
    m'.Owned where
  count id := by
    have hc := h.count id
    have hs := count_set hj job' id
    have hn := hcount id
    rw [hjobs, hcloses]
    omega
  returned hr := nomatch (h.isOpen hj).symm.trans (hret.symm.trans hr)

theorem owned_open (hr : m.returned = false) : m.owned = ids m.engine := by
  rw [owned, hr]
  rfl

theorem count_fresh (n id : ℕ) :
    [n].count id + (if id < n then 1 else 0) = if id < n + 1 then 1 else 0 := by
  rw [List.count_singleton]
  split_ifs <;> simp_all <;> omega

section

variable (h : m.Owned)

include h

theorem reload (hr : Reloaded m m') : m'.Owned where
  count id := by
    have hc := h.count id
    rw [hr.jobs, hr.closes]
    obtain ⟨he, hn⟩ | ⟨ho, he, hn, version, he'⟩ := hr.engine
    · rwa [owned, hr.returned, he, hn]
    · have hret : m.returned = false := by
        by_contra hret
        exact nomatch ho.symm.trans (h.returned (by simpa using hret)).1
      rw [owned_open hret, he] at hc
      rw [owned_open (hr.returned.trans hret), he', hn, ← count_fresh]
      simp only [ids, List.count_nil] at hc ⊢
      omega
  returned hr' := by
    rw [hr.closed, hr.jobs]
    exact h.returned (hr.returned ▸ hr')

theorem beginUpdate : m.beginUpdate.Owned := by
  unfold Manager.beginUpdate
  split_ifs with hb
  · exact h
  · refine ⟨h.count, fun hr => ?_⟩
    exact absurd (.inl (h.returned hr).1) hb

theorem prepareUpdate (hj : m.jobs[i]? = some job) (hp : job.phase = .preparing)
    (listing : Except Unit (List ReleaseTag)) (built : Bool) :
    (m.prepareUpdate i job listing built).Owned := by
  have hkeep (phase : Phase) (hh : phase.held = []) : (m.setPhase i job phase).Owned :=
    h.move hj rfl rfl rfl fun id => by
      rw [hp]
      simp only [hh]
      rfl
  unfold Manager.prepareUpdate
  split
  · exact hkeep _ rfl
  · exact hkeep _ rfl
  split_ifs
  · refine h.move hj rfl rfl rfl fun id => ?_
    rw [hp]
    change m.owned.count id + [m.compiled].count id + (if id < m.compiled then 1 else 0) =
      m.owned.count id + 0 + if id < m.compiled + 1 then 1 else 0
    rw [← count_fresh]
    omega
  · exact hkeep _ rfl

theorem finishUpdate (hj : m.jobs[i]? = some job) {result : Except Unit (Option EngineRef)}
    (hp : job.phase = .prepared result) (ctxErr : Option ContextErr)
    (read : Except Unit (Option String)) (saved : Bool) :
    (m.finishUpdate i job result ctxErr read saved).Owned := by
  have hkeep (phase : Phase) (hh : phase.held = job.phase.held) :
      ({ m with updating := false }.setPhase i job phase).Owned :=
    h.move hj rfl rfl rfl fun id => by
      simp only [hh]
      rfl
  obtain _ | _ | engine := result
  · exact hkeep _ (by rw [hp]; rfl)
  · exact hkeep _ (by rw [hp]; rfl)
  unfold Manager.finishUpdate
  dsimp only
  split_ifs
  · refine h.move hj rfl rfl rfl fun id => ?_
    rw [hp, owned_open (h.isOpen hj), Nat.add_comm (List.count id (owned _)), owned_open]
    · rfl
    · exact h.isOpen hj
  · exact hkeep _ (by rw [hp]; rfl)

theorem closeLeft (hj : m.jobs[i]? = some job) {engine : Option EngineRef}
    (hp : job.phase = .closing engine) : { m with
      jobs := m.jobs.eraseIdx i, closes := ids engine ++ m.closes }.Owned where
  count id := by
    have hc := h.count id
    obtain ⟨l₁, l₂, hjobs, -, herase⟩ := split_jobs hj
    rw [hjobs, List.flatMap_append, List.flatMap_cons, List.count_append, List.count_append,
      hp] at hc
    change (ids engine ++ m.closes).count id + m.owned.count id +
      ((m.jobs.eraseIdx i).flatMap (·.phase.held)).count id = if id < m.compiled then 1 else 0
    rw [herase, List.flatMap_append, List.count_append, List.count_append]
    have hheld : (Phase.closing engine).held = ids engine := rfl
    rw [hheld] at hc
    omega
  returned hr := nomatch (h.isOpen hj).symm.trans hr

theorem close : (if m.closed then m else { m with closed := true, unavailable := true }).Owned := by
  split_ifs
  · exact h
  · exact ⟨h.count, fun hr => ⟨rfl, (h.returned hr).2⟩⟩

theorem closeActive (hc : m.closed = true) (hr : m.returned = false) (hj : m.jobs = []) : { m with
      returned := true, closes := ids m.engine ++ m.closes }.Owned where
  count id := by
    have hcount := h.count id
    rw [owned_open hr] at hcount
    change (ids m.engine ++ m.closes).count id + 0 +
      (m.jobs.flatMap (·.phase.held)).count id = if id < m.compiled then 1 else 0
    rw [List.count_append]
    omega
  returned _ := ⟨hc, hj⟩

theorem active_not_closed (hc : m.closed = false) (he : m.engine = some e) : e.id ∉ m.closes := by
  have hr : m.returned = false := by
    by_contra hr
    exact nomatch hc.symm.trans (h.returned (by simpa using hr)).1
  have hcount := h.count e.id
  rw [owned_open hr, he, ids, List.count_singleton_self] at hcount
  rw [← List.count_eq_zero]
  split_ifs at hcount <;> omega

theorem count_le (id : ℕ) : m.closes.count id ≤ 1 := by
  have hcount := h.count id
  split_ifs at hcount <;> omega

theorem count_eq (hid : id < m.compiled) (he : ∀ e, m.engine = some e → e.id ≠ id)
    (hj : ∀ job ∈ m.jobs, id ∉ job.phase.held) : m.closes.count id = 1 := by
  have hcount := h.count id
  have howned : m.owned.count id = 0 := by
    rw [List.count_eq_zero, owned]
    split_ifs
    · exact List.not_mem_nil
    · rcases heng : m.engine with _ | e
      · exact List.not_mem_nil
      · exact fun hm => he e heng (List.mem_singleton.1 hm).symm
  have hjobs : (m.jobs.flatMap (·.phase.held)).count id = 0 :=
    List.count_eq_zero.2 fun hm => by
      obtain ⟨job, hmem, hin⟩ := List.mem_flatMap.1 hm
      exact hj job hmem hin
  rw [howned, hjobs, if_pos hid] at hcount
  exact hcount

theorem count_returned (hid : id < m.compiled) (hr : m.returned = true) :
    m.closes.count id = 1 := by
  have hcount := h.count id
  rw [owned, hr, (h.returned hr).2, if_pos hid] at hcount
  exact hcount

theorem step (hs : m.step settingsOf b ev = some m') : m'.Owned := by
  obtain ⟨read, stored, usable, rfl⟩ | rfl | ⟨i, job, listing, built, hj, hp, rfl⟩ |
    ⟨i, job, result, ctxErr, read, saved, -, hj, hp, rfl⟩ | ⟨i, job, engine, hj, hp, rfl⟩ | rfl |
    ⟨hc, hr, hj, rfl⟩ := step_cases hs
  · exact h.reload (reloaded m read stored usable)
  · exact h.beginUpdate
  · exact h.prepareUpdate hj hp listing built
  · exact h.finishUpdate hj hp ctxErr read saved
  · exact h.closeLeft hj hp
  · exact h.close
  · exact h.closeActive hc hr hj

end

end Owned

theorem decoded_ok {read : Except Unit (Option String)} {token : Option String}
    {settings : Settings} (h : decoded settingsOf read = .ok (token, settings)) :
    decoded settingsOf (.ok token) = .ok (token, settings) := by
  unfold decoded at h
  split at h
  · cases h
  · cases h
    rfl
  · split at h <;> cases h
    simp [decoded, *]

theorem version_spec {listing : Except Unit (List ReleaseTag)} {v : String}
    (h : job.version listing = .ok (some v)) (hpin : job.settings.pinnedVersion = "")
    (hc : releaseInChannel job.current job.settings.channel = true) :
    compareReleases v job.current ≠ .lt := by
  obtain ⟨version, -, h⟩ := Lib.bind_eq_ok.1 h
  intro hlt
  have h' := Except.ok.inj h
  split_ifs at h' with hs
  cases h'
  exact hs (.inl (by simp [UpdateJob.stale, hpin, hc, hlt]))

namespace Sound

theorem set (h : m.Sound settingsOf) (hj : m.jobs[i]? = some job) {phase : Phase}
    (hp : ∀ e, phase = .prepared (.ok (some e)) → job.settings.pinnedVersion = "" →
      releaseInChannel job.current job.settings.channel = true →
      compareReleases e.version job.current ≠ .lt) :
    ∀ x ∈ m.jobs.set i { job with phase := phase }, x.Sound settingsOf := by
  intro x hx
  obtain hx | rfl := List.mem_or_eq_of_mem_set hx
  · exact h.jobs x hx
  · exact ⟨(h.jobs job (List.mem_of_getElem? hj)).document, hp⟩

theorem reload (hdoc : decoded settingsOf (.ok m.token) = .ok (m.token, m.settings))
    (hlast : m.lastRead = some m.settings ∨ m.token = none)
    (hclosed : m.closed = true → m.Sound settingsOf)
    (hversion : ∀ e, m.engine = some e → e.version = m.cache.active)
    (hjobs : ∀ job ∈ m.jobs, job.Sound settingsOf) (read : Except Unit (Option String))
    (stored : CacheState) (usable : String → Bool) :
    (m.reloadSettings settingsOf b read stored usable).Sound settingsOf := by
  unfold reloadSettings
  split_ifs with hc
  · exact hclosed hc
  split
  · have hun (ht : m.token = none) : (m.unavailable || m.token.isNone) = true := by simp [ht]
    exact ⟨hdoc, hlast.imp_right fun ht => ⟨ht, hun ht⟩, fun hc' => absurd hc' hc, hversion, hjobs⟩
  rename_i token settings hd
  have hdoc' := decoded_ok hd
  dsimp only
  split_ifs with hsame
  · obtain rfl := hsame.1
    have hset : m.settings = settings := by simpa using hdoc.symm.trans hdoc'
    exact ⟨hdoc, .inl (congrArg some hset.symm), fun hc' => absurd hc' hc, hversion, hjobs⟩
  unfold apply
  dsimp only
  split_ifs with he
  · unfold restoreRules
    split
    · refine ⟨hdoc', .inl rfl, fun hc' => absurd hc' hc, fun e he' => ?_, hjobs⟩
      exact nomatch he.2.symm.trans he'
    · refine ⟨hdoc', .inl rfl, fun hc' => absurd hc' hc, fun e he' => ?_, hjobs⟩
      cases he'
      rfl
  · exact ⟨hdoc', .inl rfl, fun hc' => absurd hc' hc, hversion, hjobs⟩

theorem beginUpdate (h : m.Sound settingsOf) : m.beginUpdate.Sound settingsOf := by
  unfold Manager.beginUpdate
  split_ifs with hb
  · exact h
  · refine ⟨h.document, h.lastRead, h.closed, h.version, fun x hx => ?_⟩
    obtain rfl | hx := List.mem_cons.1 hx
    · exact ⟨h.document, nofun⟩
    · exact h.jobs x hx

theorem prepareUpdate (h : m.Sound settingsOf) (hj : m.jobs[i]? = some job)
    (listing : Except Unit (List ReleaseTag)) (built : Bool) :
    (m.prepareUpdate i job listing built).Sound settingsOf := by
  have hkeep (n : ℕ) (phase : Phase)
      (hp : ∀ e, phase = .prepared (.ok (some e)) → job.settings.pinnedVersion = "" →
        releaseInChannel job.current job.settings.channel = true →
        compareReleases e.version job.current ≠ .lt) :
      ({ m with compiled := n }.setPhase i job phase).Sound settingsOf :=
    ⟨h.document, h.lastRead, h.closed, h.version, h.set hj hp⟩
  unfold Manager.prepareUpdate
  split
  · exact hkeep m.compiled _ nofun
  · exact hkeep m.compiled _ nofun
  split_ifs
  · refine hkeep (m.compiled + 1) _ ?_
    rintro _ ⟨⟩
    exact version_spec (by assumption)
  · exact hkeep m.compiled _ nofun

end Sound

theorem finish_cases (m : Manager) (i : ℕ) (job : UpdateJob)
    (result : Except Unit (Option EngineRef)) (ctxErr : Option ContextErr)
    (read : Except Unit (Option String)) (saved : Bool) :
    (∃ engine, m.finishUpdate i job result ctxErr read saved =
      { m with updating := false }.setPhase i job (.closing engine)) ∨
    ∃ e token, result = .ok (some e) ∧ m.closed = false ∧ job.token = some token ∧
      m.token = some token ∧ m.finishUpdate i job result ctxErr read saved = { m with
        updating := false, engine := some e, unavailable := false,
        cache := ⟨e.version, m.cache.active⟩ }.setPhase i job (.closing m.engine) := by
  unfold finishUpdate
  dsimp only
  split
  · split_ifs with hadopt
    · simp only [Bool.and_eq_true, Bool.not_eq_true', decide_eq_true_eq] at hadopt
      obtain ⟨⟨⟨ho, -⟩, hu⟩, -⟩ := hadopt
      unfold unchanged at hu
      split at hu
      · simp only [Bool.and_eq_true, decide_eq_true_eq] at hu
        exact .inr ⟨_, _, rfl, ho, hu.1, hu.2, rfl⟩
      · cases hu
    · exact .inl ⟨_, rfl⟩
  · exact .inl ⟨_, rfl⟩

theorem Sound.finishUpdate (h : m.Sound settingsOf) (hj : m.jobs[i]? = some job)
    (result : Except Unit (Option EngineRef)) (ctxErr : Option ContextErr)
    (read : Except Unit (Option String)) (saved : Bool) :
    (m.finishUpdate i job result ctxErr read saved).Sound settingsOf := by
  obtain ⟨engine, heq⟩ | ⟨e, token, -, ho, -, ht, heq⟩ :=
    finish_cases m i job result ctxErr read saved
  · rw [heq]
    exact ⟨h.document, h.lastRead, h.closed, h.version, h.set hj nofun⟩
  · rw [heq]
    have hclosed : ¬m.closed = true := by simp [ho]
    refine ⟨h.document, .inl ?_, fun hc => absurd hc hclosed, ?_, h.set hj nofun⟩
    · exact h.lastRead.resolve_right fun hr => nomatch ht.symm.trans hr.1
    · rintro _ ⟨⟩
      rfl

theorem Sound.step (h : m.Sound settingsOf) (hs : m.step settingsOf b ev = some m') :
    m'.Sound settingsOf := by
  obtain ⟨read, stored, usable, rfl⟩ | rfl | ⟨i, job, listing, built, hj, -, rfl⟩ |
    ⟨i, job, result, ctxErr, read, saved, -, hj, -, rfl⟩ | ⟨i, job, engine, hj, -, rfl⟩ | rfl |
    ⟨-, -, -, rfl⟩ := step_cases hs
  · exact .reload h.document (h.lastRead.imp_right And.left) (fun _ => h) h.version h.jobs read
      stored usable
  · exact h.beginUpdate
  · exact h.prepareUpdate hj listing built
  · exact h.finishUpdate hj result ctxErr read saved
  · exact ⟨h.document, h.lastRead, h.closed, h.version,
      fun x hx => h.jobs x (List.mem_of_mem_eraseIdx hx)⟩
  · split_ifs
    · exact h
    · exact ⟨h.document, h.lastRead.imp_right fun hr => ⟨hr.1, rfl⟩, fun _ => rfl, h.version,
        h.jobs⟩
  · exact ⟨h.document, h.lastRead, h.closed, h.version, h.jobs⟩

theorem run_inv {events : List ManagerEvent} : ∀ {m : Manager}, m.Owned → m.Sound settingsOf →
    m.run settingsOf b events = some m' → m'.Owned ∧ m'.Sound settingsOf := by
  induction events with
  | nil =>
    intro m ho hs h
    cases h
    exact ⟨ho, hs⟩
  | cons ev events ih =>
    intro m ho hs h
    obtain ⟨m₁, h₁, h₂⟩ := Option.bind_eq_some_iff.1 h
    exact ih (ho.step h₁) (hs.step h₁) h₂

theorem new_inv (read : Except Unit (Option String)) (stored : CacheState)
    (usable : String → Bool) : (new settingsOf b read stored usable).Owned ∧
      (new settingsOf b read stored usable).Sound settingsOf := by
  have hblank : blank.Owned := ⟨fun id => by simp [owned, blank, ids], nofun⟩
  exact ⟨hblank.reload (reloaded _ _ _ _), .reload (m := blank) rfl (.inr rfl) (by simp [blank])
    (by simp [blank]) (by simp [blank]) _ _ _⟩

theorem compareParts_self : ∀ parts, compareParts parts parts = .eq
  | [] => rfl
  | part :: parts => by simp [compareParts, compareParts_self parts]

theorem step_version (h : m.Sound settingsOf) (hs : m.step settingsOf b ev = some m')
    (hpin : m.settings.pinnedVersion = "")
    (hcurrent : ∀ i ctxErr read saved, ev = .finishUpdate i ctxErr read saved →
      ∀ job, m.jobs[i]? = some job → job.current = m.cache.active) {e' : EngineRef}
    (he : m.engine = some e) (he' : m'.engine = some e')
    (hc : releaseInChannel e.version m.settings.channel = true) :
    compareReleases e'.version e.version ≠ .lt := by
  have hsame (h' : m'.engine = m.engine) : compareReleases e'.version e.version ≠ .lt := by
    obtain rfl : e' = e := Option.some.inj (he'.symm.trans (h'.trans he))
    simp [compareReleases, compareParts_self]
  obtain ⟨read, stored, usable, rfl⟩ | rfl | ⟨i, job, listing, built, hj, -, rfl⟩ |
    ⟨i, job, result, ctxErr, read, saved, rfl, hj, hp, rfl⟩ | ⟨i, job, engine, hj, -, rfl⟩ | rfl |
    ⟨-, -, -, rfl⟩ := step_cases hs
  · have hrel : Reloaded m (m.reloadSettings settingsOf b read stored usable) := reloaded m _ _ _
    obtain hk | ⟨-, hn, -⟩ := hrel.engine
    · exact hsame hk.1
    · exact nomatch hn.symm.trans he
  · refine hsame ?_
    unfold beginUpdate
    split_ifs <;> rfl
  · refine hsame ?_
    unfold prepareUpdate
    split
    · rfl
    · rfl
    · split_ifs <;> rfl
  · obtain ⟨engine, heq⟩ | ⟨e₁, token, rfl, -, htj, htm, heq⟩ :=
      finish_cases m i job result ctxErr read saved
    · exact hsame (by rw [heq]; rfl)
    · rw [heq] at he'
      cases he'
      have hjob := h.jobs job (List.mem_of_getElem? hj)
      have hset : m.settings = job.settings := by
        have hd := hjob.document
        rw [htj, ← htm, h.document] at hd
        simpa using hd
      have hcur : job.current = e.version :=
        (hcurrent _ _ _ _ rfl job hj).trans (h.version e he).symm
      rw [hset] at hpin hc
      exact hcur ▸ hjob.version _ hp hpin (hcur ▸ hc)
  · exact hsame rfl
  · refine hsame ?_
    split_ifs <;> rfl
  · exact hsame rfl

end Manager

theorem wrap_passes (h : m.wrap = .passes) :
    m.unavailable = false ∧ m.settings.enabled = false := by
  unfold Manager.wrap at h
  cases hu : m.unavailable <;> cases he : m.settings.enabled <;> cases hg : m.engine <;>
    simp [hu, he, hg] at h ⊢

/-- Requests pass without an engine only while the settings say so, the active engine is not closed,
every engine is closed once when nothing has it any more, and the version does not go back as long
as an update is adopted over the version it was started with. -/
theorem manager_fails_closed {first : Except Unit (Option String)} {stored : CacheState}
    {usable : String → Bool} {events : List ManagerEvent}
    (h : (Manager.new settingsOf b first stored usable).run settingsOf b events = some m) :
    (m.wrap = .passes → ∃ settings, m.lastRead = some settings ∧ settings.enabled = false) ∧
    (m.closed = false → ∀ e, m.engine = some e → e.id ∉ m.closes) ∧
    (∀ id < m.compiled, m.closes.count id ≤ 1 ∧
      ((∀ e, m.engine = some e → e.id ≠ id) → (∀ job ∈ m.jobs, id ∉ job.phase.held) →
        m.closes.count id = 1) ∧
      (m.returned = true → m.closes.count id = 1)) ∧
    ∀ ev m', m.step settingsOf b ev = some m' → m.settings.pinnedVersion = "" →
      (∀ i ctxErr read saved, ev = .finishUpdate i ctxErr read saved →
        ∀ job, m.jobs[i]? = some job → job.current = m.cache.active) →
      ∀ e e', m.engine = some e → m'.engine = some e' →
        releaseInChannel e.version m.settings.channel = true →
        compareReleases e'.version e.version ≠ .lt := by
  obtain ⟨hnew, hsound⟩ := Manager.new_inv first stored usable
  obtain ⟨ho, hs⟩ := Manager.run_inv hnew hsound h
  refine ⟨fun hw => ?_, fun hc e he => ?_, fun id hid => ?_, fun ev m' hev hpin hcur e e' => ?_⟩
  · obtain ⟨hun, hen⟩ := wrap_passes hw
    exact ⟨m.settings, hs.lastRead.resolve_right fun hr => by simp [hun] at hr, hen⟩
  · exact ho.active_not_closed hc he
  · exact ⟨ho.count_le id, ho.count_eq hid, ho.count_returned hid⟩
  · exact Manager.step_version hs hev hpin hcur

/-- An update from 4.25.1 to 4.26.0 is adopted, and both engines are closed in the end. -/
theorem manager_fails_closed_update :
    let settingsOf : String → Option Settings := fun _ => some ⟨true, .stable, ""⟩
    let start := Manager.new settingsOf "4.25.0" (.ok (some "t")) ⟨"4.25.1", ""⟩ fun _ => true
    let prepared : List ManagerEvent :=
      [.beginUpdate, .prepareUpdate 0 (.ok [⟨"v4.26.0", false, false⟩]) true]
    (∃ m m', start.run settingsOf "4.25.0" prepared = some m ∧
      m.step settingsOf "4.25.0" (.finishUpdate 0 none (.ok (some "t")) true) = some m' ∧
      m.engine = some ⟨0, "4.25.1"⟩ ∧ m'.engine = some ⟨1, "4.26.0"⟩ ∧
      compareReleases "4.26.0" "4.25.1" ≠ .lt) ∧
    ∃ m, start.run settingsOf "4.25.0" (prepared ++ [.finishUpdate 0 none (.ok (some "t")) true,
        .close, .closeLeft 0, .closeActive]) = some m ∧
      m.compiled = 2 ∧ ∀ id < 2, m.closes.count id = 1 := by
  intro settingsOf start prepared
  constructor
  · have hrun : ((start.run settingsOf "4.25.0" prepared).bind fun m => (m.step settingsOf "4.25.0"
        (.finishUpdate 0 none (.ok (some "t")) true)).map fun m' => (m.engine, m'.engine,
          m.settings, m.jobs.map UpdateJob.current, m.cache.active)) =
        some (some ⟨0, "4.25.1"⟩, some ⟨1, "4.26.0"⟩, ⟨true, .stable, ""⟩, ["4.25.1"],
          "4.25.1") := by
      decide +kernel
    obtain ⟨m, h, hm⟩ := Option.bind_eq_some_iff.1 hrun
    obtain ⟨m', hstep, heq⟩ := Option.map_eq_some_iff.1 hm
    simp only [Prod.mk.injEq] at heq
    obtain ⟨he, he', hsettings, hjobs, hactive⟩ := heq
    refine ⟨m, m', h, hstep, he, he', ?_⟩
    refine (manager_fails_closed h).2.2.2 _ m' hstep (by rw [hsettings]) ?_ _ _ he he'
      (by rw [hsettings]; decide +kernel)
    rintro i ctxErr read saved heq job hjob
    cases heq
    have hcurrent : (m.jobs.map UpdateJob.current)[0]? = some job.current := by simp [hjob]
    rw [hjobs] at hcurrent
    rw [hactive, ← Option.some.inj hcurrent]
  · have hrun : (start.run settingsOf "4.25.0" (prepared ++
        [.finishUpdate 0 none (.ok (some "t")) true, .close, .closeLeft 0, .closeActive])).map
          (fun m => (m.compiled, m.returned)) = some (2, true) := by
      decide +kernel
    obtain ⟨m, h, heq⟩ := Option.map_eq_some_iff.1 hrun
    obtain ⟨hn, hret⟩ := Prod.mk.inj heq
    refine ⟨m, h, hn, fun id hid => ?_⟩
    exact ((manager_fails_closed h).2.2.1 id (hn ▸ hid)).2.2 hret

/-- The update was started while there was no engine.  The document could not be read and then could
again, so that 4.26.0 was restored; the update goes back to 4.25.1. -/
theorem version_goes_back :
    let settingsOf : String → Option Settings := fun _ => some ⟨true, .stable, ""⟩
    ∃ m m', (Manager.new settingsOf "4.25.0" (.ok (some "t")) ⟨"", ""⟩ fun _ => false).run
      settingsOf "4.25.0" [.beginUpdate, .prepareUpdate 0 (.ok [⟨"v4.25.1", false, false⟩]) true,
        .reloadSettings (.error ()) ⟨"", ""⟩ fun _ => false,
        .reloadSettings (.ok (some "t")) ⟨"4.26.0", ""⟩ fun _ => true] = some m ∧
      m.step settingsOf "4.25.0" (.finishUpdate 0 none (.ok (some "t")) true) = some m' ∧
      m.settings = m'.settings ∧ m.settings.pinnedVersion = "" ∧
      m.engine = some ⟨1, "4.26.0"⟩ ∧ m'.engine = some ⟨0, "4.25.1"⟩ ∧
      releaseInChannel "4.26.0" m.settings.channel = true ∧
      compareReleases "4.25.1" "4.26.0" = .lt := by
  intro settingsOf
  refine ⟨_, _, rfl, rfl, rfl, rfl, ?_, ?_, ?_, ?_⟩
  · decide +kernel
  · decide +kernel
  · decide +kernel
  · decide +kernel

end Specter.Waf
