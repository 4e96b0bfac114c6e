import Specter.Lib.Prog

/-!
# Rely and guarantee

A set of `Rules` says what every state satisfies (`inv`), what one step of a thread may do (`guar`),
and what may be taken as `known` of the steps of the runs looked at.  `Safe` follows one thread
through its program; between two of its actions the others may take any steps they guarantee, so an
assertion survives only if it is `Stable`.  If every thread is safe, so is every run
(`Rules.good_run`, `Rules.good_step`).
-/

namespace Lib

variable {S : Sig} {σ Λ : Type}

structure Rules (M : Machine S σ Λ) where
  ok : Λ → Prop
  known : ℕ → σ → σ → Prop
  inv : σ → Prop
  guar : ℕ → σ → σ → Prop
  /-- What holds of a thread that has not been started. -/
  fresh : ℕ → σ → Prop
  /-- What starting a task needs. -/
  pre : S.Task → σ → Prop
  /-- What a finished thread leaves behind. -/
  post : ℕ → σ → Prop

namespace Rules

variable {M : Machine S σ Λ} (R : Rules M) {α β : Type} {t : ℕ} {P : σ → Prop} {Q : α → σ → Prop}
  {a : S.Act} {p : Prog S α} {ι : Type} {F P' : σ → Prop}

/-- A step of a thread other than `t`. -/
def relyStep (t : ℕ) (s s' : σ) : Prop :=
  R.inv s ∧ R.inv s' ∧ ∃ t', t' ≠ t ∧ R.guar t' s s' ∧ R.known t' s s'

def Rely (t : ℕ) : σ → σ → Prop := Relation.ReflTransGen (R.relyStep t)

def Stable (t : ℕ) (P : σ → Prop) : Prop :=
  ∀ s s' t', t' ≠ t → R.inv s → R.inv s' → R.guar t' s s' → R.known t' s s' → P s → P s'

/-- From `s` on, thread `t` running this program keeps the rules whatever the others do, and ends
in `Q`. -/
def Safe (t : ℕ) (Q : α → σ → Prop) : Prog S α → σ → Prop
  | .ret a, s => ∀ s₁, R.Rely t s s₁ → Q a s₁
  | .act a k, s => ∀ s₁, R.Rely t s s₁ → ∀ l r s₂, R.ok l → M.exec l t s₁ a = some (r, s₂) →
      R.known t s₁ s₂ → R.inv s₂ ∧ R.guar t s₁ s₂ ∧ Safe t Q (k r) s₂
  | .fork τ k, s => ∀ s₁, R.Rely t s s₁ → R.pre τ s₁ ∧ Safe t Q k s₁

variable {R}

theorem Rely.inv {s s' : σ} (h : R.Rely t s s') (hs : R.inv s) : R.inv s' := by
  induction h with
  | refl => exact hs
  | tail _ hl _ => exact hl.2.1

theorem Stable.rely (hP : R.Stable t P) {s s' : σ} (h : R.Rely t s s') (hs : P s) : P s' := by
  induction h with
  | refl => exact hs
  | tail _ hl ih =>
    obtain ⟨hi, hi', t', hne, hg, hk⟩ := hl
    exact hP _ _ t' hne hi hi' hg hk ih

theorem Safe.rely {Q : α → σ → Prop} : ∀ {p : Prog S α} {s s' : σ}, R.Safe t Q p s →
    R.Rely t s s' → R.Safe t Q p s'
  | .ret _, _, _, h, hr => fun s₁ h₁ => h s₁ (hr.trans h₁)
  | .act _ _, _, _, h, hr => fun s₁ h₁ => h s₁ (hr.trans h₁)
  | .fork _ _, _, _, h, hr => fun s₁ h₁ => h s₁ (hr.trans h₁)

theorem Safe.mono {Q Q' : α → σ → Prop} (h : ∀ a s, Q a s → Q' a s) :
    ∀ {p : Prog S α} {s : σ}, R.Safe t Q p s → R.Safe t Q' p s
  | .ret _, _, hp => fun s₁ h₁ => h _ _ (hp s₁ h₁)
  | .act _ _, _, hp => fun s₁ h₁ l r s₂ hl he hk => by
    obtain ⟨h1, h2, h3⟩ := hp s₁ h₁ l r s₂ hl he hk
    exact ⟨h1, h2, Safe.mono h h3⟩
  | .fork _ k, _, hp => fun s₁ h₁ => ⟨(hp s₁ h₁).1, Safe.mono (p := k) h (hp s₁ h₁).2⟩

theorem Safe.bind {Q : β → σ → Prop} {f : α → Prog S β} :
    ∀ {p : Prog S α} {s : σ}, R.inv s →
      R.Safe t (fun a s' => R.inv s' → R.Safe t Q (f a) s') p s → R.Safe t Q (p >>= f) s
  | .ret _, s, hi, hp => hp s .refl hi
  | .act _ _, _, _, hp => fun s₁ h₁ l r s₂ hl he hk => by
    obtain ⟨h1, h2, h3⟩ := hp s₁ h₁ l r s₂ hl he hk
    exact ⟨h1, h2, Safe.bind h1 h3⟩
  | .fork _ k, _, hi, hp => fun s₁ h₁ =>
    ⟨(hp s₁ h₁).1, Safe.bind (p := k) (h₁.inv hi) (hp s₁ h₁).2⟩

/-- What every step keeps may be added to where a program ends. -/
theorem Safe.frame (hF : ∀ t s s', R.guar t s s' → F s → F s') :
    ∀ {p : Prog S α} {s : σ}, R.Safe t Q p s → F s →
      R.Safe t (fun a s' => F s' ∧ Q a s') p s := by
  have hrely : ∀ {s s'}, R.Rely t s s' → F s → F s' := fun h =>
    Stable.rely (fun s s' t' _ _ _ hg _ => hF t' s s' hg) h
  intro p
  induction p with
  | ret a => exact fun hp hs s₁ h₁ => ⟨hrely h₁ hs, hp s₁ h₁⟩
  | act a k ih =>
    intro s hp hs s₁ h₁ l r s₂ hl he hk
    obtain ⟨h1, h2, h3⟩ := hp s₁ h₁ l r s₂ hl he hk
    exact ⟨h1, h2, ih r h3 (hF t s₁ s₂ h2 (hrely h₁ hs))⟩
  | fork τ k ih =>
    exact fun hp hs s₁ h₁ => ⟨(hp s₁ h₁).1, ih (hp s₁ h₁).2 (hrely h₁ hs)⟩

variable (R) in
/-- Started where `P` holds, the program is safe and ends in `Q`. -/
def Triple (t : ℕ) (P : σ → Prop) (p : Prog S α) (Q : α → σ → Prop) : Prop :=
  ∀ s, R.inv s → P s → R.Safe t Q p s

theorem Triple.ret {a : α} (hQ : R.Stable t (Q a)) (h : ∀ s, R.inv s → P s → Q a s) :
    R.Triple t P (.ret a) Q :=
  fun s hi hP _ hr => hQ.rely hr (h s hi hP)

theorem Triple.same {a : α} (hP : R.Stable t P) : R.Triple t P (.ret a) fun _ => P :=
  .ret hP fun _ _ => id

theorem Triple.refused {ε : Type} {e : ε} :
    R.Triple t P (.ret (.error e)) fun (r : Except ε α) s => (∃ a, r = .ok a) → F s := by
  rintro _ _ _ _ _ ⟨_, h⟩
  cases h

theorem Triple.bind {Q' : β → σ → Prop} {f : α → Prog S β} (hp : R.Triple t P p Q)
    (hf : ∀ a, R.Triple t (Q a) (f a) Q') : R.Triple t P (p >>= f) Q' :=
  fun s hi hP => Safe.bind hi ((hp s hi hP).mono fun a s' hQ hi' => hf a s' hi' hQ)

theorem Triple.conseq {Q' : α → σ → Prop} (h : R.Triple t P p Q) (hP : ∀ s, R.inv s → P' s → P s)
    (hQ : ∀ a s, Q a s → Q' a s) : R.Triple t P' p Q' :=
  fun s hi hs => (h s hi (hP s hi hs)).mono hQ

theorem Triple.pre (h : R.Triple t P p Q) (hP : ∀ s, R.inv s → P' s → P s) : R.Triple t P' p Q :=
  h.conseq hP fun _ _ => id

theorem Triple.post {Q' : α → σ → Prop} (h : R.Triple t P p Q) (hQ : ∀ a s, Q a s → Q' a s) :
    R.Triple t P p Q' :=
  h.conseq (fun _ _ => id) hQ

theorem Triple.ex {P : ι → σ → Prop} (h : ∀ i, R.Triple t (P i) p Q) :
    R.Triple t (fun s => ∃ i, P i s) p Q := by
  rintro s hi ⟨i, hP⟩
  exact h i s hi hP

theorem Triple.assume {φ : Prop} (h : φ → R.Triple t P p Q) : R.Triple t (fun s => φ ∧ P s) p Q :=
  fun s hi hs => h hs.1 s hi hs.2

theorem Triple.frame (hF : ∀ t s s', R.guar t s s' → F s → F s') (h : R.Triple t P p Q) :
    R.Triple t (fun s => F s ∧ P s) p fun a s => F s ∧ Q a s :=
  fun s hi hs => (h s hi hs.2).frame hF hs.1

theorem Triple.perform {Q : S.Res a → σ → Prop} (hP : R.Stable t P) (hQ : ∀ r, R.Stable t (Q r))
    (h : ∀ s l r s', R.inv s → P s → R.ok l → M.exec l t s a = some (r, s') → R.known t s s' →
      R.inv s' ∧ R.guar t s s' ∧ Q r s') : R.Triple t P (Prog.perform a) Q := by
  intro s hi hs s₁ hr l r s₂ hl he hk
  obtain ⟨h1, h2, h3⟩ := h s₁ l r s₂ (hr.inv hi) (hP.rely hr hs) hl he hk
  exact ⟨h1, h2, fun s₃ hr₃ => (hQ r).rely hr₃ h3⟩

theorem Triple.start {τ : S.Task} (hP : R.Stable t P) (h : ∀ s, R.inv s → P s → R.pre τ s) :
    R.Triple t P (Prog.start τ) fun _ => P :=
  fun _ hi hs s₁ hr =>
    ⟨h s₁ (hr.inv hi) (hP.rely hr hs), fun _ hr₂ => hP.rely (hr.trans hr₂) hs⟩

variable (R) in
/-- The action keeps the rules and `P` wherever `P` holds. -/
def Keeps (t : ℕ) (P : σ → Prop) (a : S.Act) : Prop :=
  ∀ s l r s', R.inv s → P s → R.ok l → M.exec l t s a = some (r, s') → R.known t s s' →
    R.inv s' ∧ R.guar t s s' ∧ P s'

theorem Triple.keeps (hP : R.Stable t P) (h : R.Keeps t P a) :
    R.Triple t P (Prog.perform a) fun _ => P :=
  .perform hP (fun _ => hP) h

/-- A program made of actions that keep the rules and `P` does. -/
theorem Triple.only {P : σ → Prop} {φ : S.Act → Prop} {ψ : S.Task → Prop} (hP : R.Stable t P)
    (hφ : ∀ a, φ a → R.Keeps t P a)
    (hψ : ∀ τ, ψ τ → ∀ s, R.inv s → P s → R.pre τ s) :
    ∀ {p : Prog S α}, p.Only φ ψ → R.Triple t P p fun _ => P
  | .ret _, _ => fun _ _ hs _ hr => hP.rely hr hs
  | .act a k, hp => fun s hi hs s₁ hr l r s₂ hl he hk => by
    obtain ⟨h1, h2, h3⟩ := hφ a hp.1 s₁ l r s₂ (hr.inv hi) (hP.rely hr hs) hl he hk
    exact ⟨h1, h2, Triple.only hP hφ hψ (hp.2 r) s₂ h1 h3⟩
  | .fork τ k, hp => fun s hi hs s₁ hr =>
    have hi₁ := hr.inv hi
    have hs₁ := hP.rely hr hs
    ⟨hψ τ hp.1 s₁ hi₁ hs₁, Triple.only (p := k) hP hφ hψ hp.2 s₁ hi₁ hs₁⟩

theorem Stable.const (φ : Prop) : R.Stable t fun _ => φ :=
  fun _ _ _ _ _ _ _ _ h => h

theorem Triple.done (a : α) : R.Triple t P (.ret a) fun _ _ => True :=
  .ret (.const True) fun _ _ _ => trivial

theorem Triple.ite {c : Prop} [Decidable c] {q : Prog S α} (hp : c → R.Triple t P p Q)
    (hq : ¬c → R.Triple t P q Q) : R.Triple t P (if c then p else q) Q := by
  split_ifs with h
  · exact hp h
  · exact hq h

theorem Stable.and {Q : σ → Prop} (hP : R.Stable t P) (hQ : R.Stable t Q) :
    R.Stable t fun s => P s ∧ Q s :=
  fun s s' t' hne hi hi' hg hk h =>
    ⟨hP s s' t' hne hi hi' hg hk h.1, hQ s s' t' hne hi hi' hg hk h.2⟩

/-- `Q` of a result, and `E` after an error. -/
def Outcome {ε : Type} (Q : α → σ → Prop) (E : σ → Prop) : Except ε α → σ → Prop
  | .ok a, s => Q a s
  | .error _, s => E s

theorem Triple.seq {ε : Type} {E : σ → Prop} {Q' : β → σ → Prop} {p : ExceptT ε (Prog S) α}
    {f : α → ExceptT ε (Prog S) β} (hE : R.Stable t E) (hp : R.Triple t P p.run (Outcome Q E))
    (hf : ∀ a, R.Triple t (Q a) (f a).run (Outcome Q' E)) :
    R.Triple t P (p >>= f).run (Outcome Q' E) := by
  refine Triple.bind hp fun r => ?_
  rcases r with e | a
  · exact .ret hE fun _ _ => id
  · exact hf a

theorem Stable.ex {P : ι → σ → Prop} (hP : ∀ i, R.Stable t (P i)) :
    R.Stable t fun s => ∃ i, P i s := by
  rintro s s' t' hne hi hi' hg hk ⟨i, h⟩
  exact ⟨i, hP i s s' t' hne hi hi' hg hk h⟩

/-! ## Neutral actions

Most actions of a program have nothing to do with the property at hand.  What they may do to the
state is said once, as a relation `N`. -/

variable (R) in
/-- The actions in `φ` take steps in `N` when thread `t` performs them, and these keep the rules. -/
structure Neutral (N : ℕ → σ → σ → Prop) (t : ℕ) (φ : S.Act → Prop) : Prop where
  step : ∀ {l s a r s'}, φ a → R.ok l → M.exec l t s a = some (r, s') → N t s s'
  keeps : ∀ {s s'}, N t s s' → R.inv s → R.inv s' ∧ R.guar t s s'

variable (R) in
/-- What holds in spite of the other threads, and of the neutral actions of this one. -/
structure Firm (N : ℕ → σ → σ → Prop) (t : ℕ) (P : σ → Prop) : Prop where
  stable : R.Stable t P
  kept : ∀ {s s'}, N t s s' → P s → P s'

section Neutral

variable {N : ℕ → σ → σ → Prop} {φ : S.Act → Prop} {P Q : σ → Prop}

theorem Firm.const (χ : Prop) : R.Firm N t fun _ => χ := ⟨.const χ, fun _ h => h⟩

theorem Firm.and (hP : R.Firm N t P) (hQ : R.Firm N t Q) : R.Firm N t fun s => P s ∧ Q s :=
  ⟨hP.stable.and hQ.stable, fun h hs => ⟨hP.kept h hs.1, hQ.kept h hs.2⟩⟩

theorem Firm.imp (hP : R.Firm N t P) (χ : Prop) : R.Firm N t fun s => χ → P s :=
  ⟨fun s s' t' hne hi hi' hg hk h hχ => hP.stable s s' t' hne hi hi' hg hk (h hχ),
    fun h hs hχ => hP.kept h (hs hχ)⟩

theorem Neutral.triple (hN : R.Neutral N t φ) (hP : R.Firm N t P) {ψ : S.Task → Prop}
    (hψ : ∀ τ, ψ τ → ∀ s, R.inv s → P s → R.pre τ s) (hp : p.Only φ ψ) :
    R.Triple t P p fun _ => P :=
  .only hP.stable (fun _ ha _ _ _ _ hi hs hl he _ =>
    have h := hN.step ha hl he
    ⟨(hN.keeps h hi).1, (hN.keeps h hi).2, hP.kept h hs⟩) hψ hp

/-- A neutral action, and what its answer says of the state it is performed in. -/
theorem Neutral.perform (hN : R.Neutral N t φ) {a : S.Act} (ha : φ a) (hP : R.Firm N t P)
    {Q : S.Res a → σ → Prop} (hQ : ∀ r, R.Firm N t (Q r))
    (h : ∀ s l r s', R.inv s → P s → R.ok l → M.exec l t s a = some (r, s') → Q r s) :
    R.Triple t P (Prog.perform a) Q :=
  .perform hP.stable (fun r => (hQ r).stable) fun s l r s' hi hs hl he _ =>
    have hn := hN.step ha hl he
    ⟨(hN.keeps hn hi).1, (hN.keeps hn hi).2, (hQ r).kept hn (h s l r s' hi hs hl he)⟩

end Neutral

variable (R) in
/-- The state satisfies the invariant and every thread is safe from here on. -/
def Good (c : Config S σ) : Prop :=
  R.inv c.shared ∧ (∀ t, c.threads.length ≤ t → R.fresh t c.shared) ∧
    ∀ t p, c.threads[t]? = some p → R.Safe t (fun _ => R.post t) p c.shared

variable (R) in
/-- Every step of this run has an allowed label and is as `known` says. -/
def Follows : List (ℕ × Λ) → Config S σ → Prop
  | [], _ => True
  | (t, l) :: rest, c => ∀ c', M.step t l c = some c' →
      R.ok l ∧ R.known t c.shared c'.shared ∧ Follows rest c'

variable (R) in
/-- Every task that can be started is safe where it can be started. -/
structure Closed : Prop where
  stable : ∀ t, R.Stable t (R.fresh t)
  safe : ∀ τ t, R.Triple t (fun s => R.pre τ s ∧ R.fresh t s) (M.body τ) fun _ => R.post t

theorem good_step (hR : R.Closed) {c c' : Config S σ} {l : Λ} (hg : R.Good c)
    (h : M.step t l c = some c') (hl : R.ok l) (hk : R.known t c.shared c'.shared) :
    R.Good c' ∧ (R.guar t c.shared c'.shared ∨ c'.shared = c.shared) := by
  obtain ⟨hi, hfresh, hs⟩ := hg
  obtain ⟨a, k, r, s, hp, he, rfl⟩ | ⟨τ, k, hp, rfl⟩ := M.step_cases h
  · obtain ⟨hi', hgu, hk'⟩ := hs t _ hp c.shared .refl l r s hl he hk
    have hlt := (List.getElem?_eq_some_iff.1 hp).1
    refine ⟨⟨hi', fun t₁ ht₁ => ?_, fun t₁ p₁ hp₁ => ?_⟩, .inl hgu⟩
    · rw [List.length_set] at ht₁
      exact hR.stable t₁ _ _ t (by omega) hi hi' hgu hk (hfresh t₁ ht₁)
    simp only [List.getElem?_set] at hp₁
    split_ifs at hp₁ with h1
    · simp only [Option.some.injEq] at hp₁
      subst h1 hp₁
      exact hk'
    · exact (hs t₁ p₁ hp₁).rely (.single ⟨hi, hi', t, h1, hgu, hk⟩)
  · obtain ⟨hpre, hk'⟩ := hs t _ hp c.shared .refl
    refine ⟨⟨hi, fun t₁ ht₁ => hfresh t₁ ?_, fun t₁ p₁ hp₁ => ?_⟩, .inr rfl⟩
    · simp only [List.length_append, List.length_set, List.length_singleton] at ht₁
      omega
    simp only [List.getElem?_append, List.length_set] at hp₁
    split_ifs at hp₁ with h0
    · simp only [List.getElem?_set] at hp₁
      split_ifs at hp₁ with h1
      · simp only [Option.some.injEq] at hp₁
        subst h1 hp₁
        exact hk'
      · exact hs t₁ p₁ hp₁
    · rw [List.getElem?_singleton] at hp₁
      split_ifs at hp₁ with h1
      · simp only [Option.some.injEq] at hp₁
        subst hp₁
        exact hR.safe τ t₁ _ hi ⟨hpre, hfresh t₁ (Nat.not_lt.1 h0)⟩

theorem good_run (hR : R.Closed) : ∀ {sched : List (ℕ × Λ)} {c c' : Config S σ}, R.Good c →
    R.Follows sched c → M.run sched c = some c' → R.Good c'
  | [], _, _, hg, _, h => by
    simp only [Machine.run, Option.some.injEq] at h
    exact h ▸ hg
  | (t, l) :: rest, c, c', hg, hf, h => by
    obtain ⟨c₁, h₁, h₂⟩ := Option.bind_eq_some_iff.1 h
    obtain ⟨hl, hk, hf'⟩ := hf c₁ h₁
    exact good_run hR (good_step hR hg h₁ hl hk).1 hf' h₂

theorem good_launch {τs : List S.Task} {s : σ} (hi : R.inv s)
    (hfresh : ∀ t, τs.length ≤ t → R.fresh t s)
    (h : ∀ t τ, τs[t]? = some τ → R.Safe t (fun _ => R.post t) (M.body τ) s) :
    R.Good (M.launch τs s) := by
  refine ⟨hi, fun t ht => hfresh t (by simpa [Machine.launch] using ht), fun t p hp => ?_⟩
  simp only [Machine.launch, List.getElem?_map, Option.map_eq_some_iff] at hp
  obtain ⟨τ, hτ, rfl⟩ := hp
  exact h t τ hτ

/-- A thread that has ended has done its part. -/
theorem Good.finished {c : Config S σ} (hg : R.Good c) {u : Unit}
    (h : c.threads[t]? = some (.ret u)) : R.post t c.shared :=
  hg.2.2 t _ h c.shared .refl

variable (R) in
/-- What the rules say of one step. -/
def Fact (t : ℕ) (s s' : σ) : Prop :=
  R.inv s ∧ R.inv s' ∧ (R.guar t s s' ∨ s' = s) ∧ R.known t s s'

/-- What the rules say of a run can be taken as known when proving more of it. -/
theorem Follows.layer (R' : Rules M) (hR : R.Closed)
    (hk : ∀ t s s', R.Fact t s s' → R'.known t s s') :
    ∀ {sched : List (ℕ × Λ)} {c : Config S σ}, (∀ x ∈ sched, R'.ok x.2) → R.Good c →
      R.Follows sched c → R'.Follows sched c
  | [], _, _, _, _ => trivial
  | (t, l) :: _, c, hok, hg, hf => fun c' h => by
    obtain ⟨hl, hkn, hf'⟩ := hf c' h
    obtain ⟨hg', hgu⟩ := good_step hR hg h hl hkn
    obtain ⟨hl', hok'⟩ := List.forall_mem_cons.1 hok
    exact ⟨hl', hk t _ _ ⟨hg.1, hg'.1, hgu, hkn⟩, Follows.layer R' hR hk hok' hg' hf'⟩

/-- And so can what cannot come back once it is lost, if it holds at the end. -/
theorem Follows.until (R' : Rules M) (hR : R.Closed) {φ : σ → Prop}
    (hφ : ∀ {t l c c'}, R.Good c' → M.step t l c = some c' → φ c'.shared → φ c.shared)
    (hk : ∀ t s s', R.Fact t s s' → φ s → R'.known t s s') :
    ∀ {sched : List (ℕ × Λ)} {c c' : Config S σ}, (∀ x ∈ sched, R'.ok x.2) → R.Good c →
      R.Follows sched c → M.run sched c = some c' → φ c'.shared →
      φ c.shared ∧ R'.Follows sched c
  | [], _, _, _, _, _, h, hc => by
    cases h
    exact ⟨hc, trivial⟩
  | (t, l) :: _, c, c', hok, hg, hf, h, hc => by
    obtain ⟨c₁, h₁, h₂⟩ := Option.bind_eq_some_iff.1 h
    obtain ⟨hl, hkn, hf₁⟩ := hf c₁ h₁
    obtain ⟨hg₁, hgu⟩ := good_step hR hg h₁ hl hkn
    obtain ⟨hl', hok'⟩ := List.forall_mem_cons.1 hok
    obtain ⟨hc₁, hf'⟩ := Follows.until R' hR hφ hk hok' hg₁ hf₁ h₂ hc
    have hc₀ := hφ hg₁ h₁ hc₁
    refine ⟨hc₀, fun c₂ h₂ => ?_⟩
    obtain rfl : c₁ = c₂ := Option.some.inj (h₁.symm.trans h₂)
    exact ⟨hl', hk t _ _ ⟨hg.1, hg₁.1, hgu, hkn⟩ hc₀, hf'⟩

/-- Rules that restrict nothing are followed by every run. -/
theorem follows_any (hok : ∀ l, R.ok l) (hk : ∀ t s s', R.known t s s') :
    ∀ (sched : List (ℕ × Λ)) (c : Config S σ), R.Follows sched c
  | [], _ => trivial
  | (t, l) :: rest, c => fun c' _ =>
    ⟨hok l, hk t c.shared c'.shared, follows_any hok hk rest c'⟩

/-- What is `known` of every step on the way to a state in `φ`. -/
theorem follows_of_run {φ : σ → Prop}
    (hφ : ∀ {t l c c'}, M.step t l c = some c' → φ c'.shared →
      φ c.shared ∧ R.known t c.shared c'.shared) :
    ∀ {sched : List (ℕ × Λ)} {c c' : Config S σ}, (∀ x ∈ sched, R.ok x.2) →
      M.run sched c = some c' → φ c'.shared → φ c.shared ∧ R.Follows sched c
  | [], _, _, _, h, hc => by
    cases h
    exact ⟨hc, trivial⟩
  | (t, l) :: rest, c, c', hok, h, hc => by
    obtain ⟨c₁, h₁, h₂⟩ := Option.bind_eq_some_iff.1 h
    obtain ⟨hl, hrest⟩ := List.forall_mem_cons.1 hok
    obtain ⟨hc₁, hf⟩ := follows_of_run hφ hrest h₂ hc
    obtain ⟨hc₀, hk⟩ := hφ h₁ hc₁
    refine ⟨hc₀, fun c₂ h₂ => ?_⟩
    obtain rfl : c₁ = c₂ := Option.some.inj (h₁.symm.trans h₂)
    exact ⟨hl, hk, hf⟩

end Rules

end Lib
