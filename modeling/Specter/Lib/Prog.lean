import Mathlib.Logic.Relation
import Mathlib.Tactic.Common

/-!
# Programs of atomic actions

A thread ends with a value, performs one atomic action and continues with the answer, or starts a
task and continues.  What the actions mean is given by a machine over a shared state, so the same
text can be run alone (`Machine.Alone`), against any answers (`AllAnswers`), or interleaved with
other threads (`Machine.run`).
-/

namespace Lib

/-- The actions threads are made of, what each answers, and the tasks a thread can start. -/
structure Sig where
  Act : Type
  Res : Act → Type
  Task : Type

inductive Prog (S : Sig) (α : Type) : Type where
  | ret (a : α) : Prog S α
  | act (a : S.Act) (k : S.Res a → Prog S α) : Prog S α
  | fork (τ : S.Task) (k : Prog S α) : Prog S α

namespace Prog

variable {S : Sig} {α β γ : Type}

def bind : Prog S α → (α → Prog S β) → Prog S β
  | ret a, f => f a
  | act a k, f => act a fun r => (k r).bind f
  | fork τ k, f => fork τ (k.bind f)

instance : Monad (Prog S) where
  pure := ret
  bind := bind

@[simp] theorem ret_bind (a : α) (f : α → Prog S β) : (ret a >>= f) = f a := rfl

@[simp] theorem act_bind (a : S.Act) (k : S.Res a → Prog S α) (f : α → Prog S β) :
    (act a k >>= f) = act a fun r => k r >>= f := rfl

@[simp] theorem fork_bind (τ : S.Task) (k : Prog S α) (f : α → Prog S β) :
    (fork τ k >>= f) = fork τ (k >>= f) := rfl

@[simp] theorem pure_eq (a : α) : (pure a : Prog S α) = ret a := rfl

theorem bind_assoc {γ : Type} (f : α → Prog S β) (g : β → Prog S γ) :
    ∀ p : Prog S α, (p >>= f) >>= g = p >>= fun a => f a >>= g
  | ret _ => rfl
  | act a k => congrArg (act a) (funext fun r => bind_assoc f g (k r))
  | fork τ k => congrArg (fork τ) (bind_assoc f g k)

/-- One atomic action, and its answer. -/
def perform (a : S.Act) : Prog S (S.Res a) := act a ret

def start (τ : S.Task) : Prog S Unit := fork τ (ret ())

/-- Every action the program gets to has an answer in `ok`, and whatever answers in `ok` they get,
the program ends with a value in `Q`. -/
def AllAnswers (ok : (a : S.Act) → S.Res a → Prop) (Q : α → Prop) : Prog S α → Prop
  | ret a => Q a
  | act a k => (∃ r, ok a r) ∧ ∀ r, ok a r → (k r).AllAnswers ok Q
  | fork _ k => k.AllAnswers ok Q

/-- Every action of the program is in `φ` and every task it starts in `ψ`, whatever the answers. -/
def Only (φ : S.Act → Prop) (ψ : S.Task → Prop) : Prog S α → Prop
  | ret _ => True
  | act a k => φ a ∧ ∀ r, (k r).Only φ ψ
  | fork τ k => ψ τ ∧ k.Only φ ψ

/-- On an answer in `φ` the program ends at once, with a value in `Q`. -/
def Quits (φ : (a : S.Act) → S.Res a → Prop) (Q : α → Prop) : Prog S α → Prop
  | ret _ => True
  | act a k => ∀ r, (φ a r → ∃ x, k r = ret x ∧ Q x) ∧ (k r).Quits φ Q
  | fork _ k => k.Quits φ Q

/-- The program as one with more actions and tasks: `f` and `h` say which they are there, and `g`
reads the answers. -/
def lift {S' : Sig} (f : S.Act → S'.Act) (g : ∀ a, S'.Res (f a) → S.Res a) (h : S.Task → S'.Task) :
    Prog S α → Prog S' α
  | ret a => ret a
  | act a k => act (f a) fun r => (k (g a r)).lift f g h
  | fork τ k => fork (h τ) (k.lift f g h)

section Lift

variable {S' : Sig} {f : S.Act → S'.Act} {g : ∀ a, S'.Res (f a) → S.Res a} {h : S.Task → S'.Task}

@[simp] theorem lift_ret (a : α) : (ret a : Prog S α).lift f g h = ret a := rfl

@[simp] theorem lift_bind {k : α → Prog S β} :
    ∀ {p : Prog S α}, (p >>= k).lift f g h = p.lift f g h >>= fun a => (k a).lift f g h
  | ret _ => rfl
  | act a _ => congrArg (act (f a)) (funext fun _ => lift_bind)
  | fork τ k => congrArg (fork (h τ)) (lift_bind (p := k))

end Lift

section Answers

variable {ok : (a : S.Act) → S.Res a → Prop}

theorem AllAnswers.mono {Q Q' : α → Prop} (h : ∀ a, Q a → Q' a) :
    ∀ {p : Prog S α}, p.AllAnswers ok Q → p.AllAnswers ok Q'
  | ret _, hp => h _ hp
  | act _ _, hp => ⟨hp.1, fun r hr => AllAnswers.mono h (hp.2 r hr)⟩
  | fork _ k, hp => AllAnswers.mono (p := k) h hp

theorem allAnswers_bind {Q : β → Prop} {f : α → Prog S β} :
    ∀ {p : Prog S α}, (p >>= f).AllAnswers ok Q ↔ p.AllAnswers ok fun a => (f a).AllAnswers ok Q
  | ret _ => Iff.rfl
  | act _ _ => and_congr_right fun _ => forall_congr' fun _ => forall_congr' fun _ =>
    allAnswers_bind
  | fork _ k => allAnswers_bind (p := k)

@[simp] theorem allAnswers_ret {Q : α → Prop} {a : α} : (ret a : Prog S α).AllAnswers ok Q ↔ Q a :=
  Iff.rfl

end Answers

section Only

variable {φ : S.Act → Prop} {ψ : S.Task → Prop} {a : S.Act}

theorem Only.bind {f : α → Prog S β} :
    ∀ {p : Prog S α}, p.Only φ ψ → (∀ a, (f a).Only φ ψ) → (p >>= f).Only φ ψ
  | ret a, _, hf => hf a
  | .act _ _, hp, hf => ⟨hp.1, fun r => (hp.2 r).bind hf⟩
  | fork _ k, hp, hf => ⟨hp.1, Only.bind (p := k) hp.2 hf⟩

@[simp] theorem only_perform : (perform a).Only φ ψ ↔ φ a := by
  simp [perform, Only]

theorem Only.perform {a : S.Act} (h : φ a) : (perform a).Only φ ψ := only_perform.2 h

theorem Only.act {f : S.Res a → Prog S β} (h : φ a) (hf : ∀ r, (f r).Only φ ψ) :
    (Prog.perform a >>= f).Only φ ψ :=
  (Only.perform h).bind hf

theorem Only.start {τ : S.Task} (h : ψ τ) : (start τ : Prog S Unit).Only φ ψ := ⟨h, trivial⟩

end Only

section Quits

variable {φ : (a : S.Act) → S.Res a → Prop}

theorem quits_bind {Q : α → Prop} {Q' : β → Prop} {f : α → Prog S β}
    (hQ : ∀ a, Q a → ∃ b, f a = ret b ∧ Q' b) (hf : ∀ a, (f a).Quits φ Q') :
    ∀ {p : Prog S α}, p.Quits φ Q → (p >>= f).Quits φ Q'
  | ret a, _ => hf a
  | act _ k, hp => fun r => by
    refine ⟨fun hr => ?_, quits_bind hQ hf (hp r).2⟩
    obtain ⟨a, ha, hQa⟩ := (hp r).1 hr
    obtain ⟨b, hb, hQb⟩ := hQ a hQa
    exact ⟨b, (congrArg (·.bind f) ha).trans hb, hQb⟩
  | fork _ k, hp => quits_bind (p := k) hQ hf hp

theorem quits_perform {a : S.Act} {Q : S.Res a → Prop} (h : ∀ r, φ a r → Q r) :
    (perform a).Quits φ Q :=
  fun r => ⟨fun hr => ⟨r, rfl, h r hr⟩, trivial⟩

end Quits

end Prog

/-- What the actions do to the shared state: `exec l t s a` is the answer and the new state when
thread `t` performs `a` in `s` under the label `l`, which stands for what the environment decides
(whether an operation fails).  `none` is an action that has to wait. -/
structure Machine (S : Sig) (σ Λ : Type) where
  exec : Λ → ℕ → σ → (a : S.Act) → Option (S.Res a × σ)
  body : S.Task → Prog S Unit

/-- The shared state and every thread started so far, a finished one as `ret ()`. -/
structure Config (S : Sig) (σ : Type) where
  shared : σ
  threads : List (Prog S Unit)

namespace Machine

variable {S : Sig} {σ Λ : Type} (M : Machine S σ Λ)

/-- One step of thread `t`. -/
def step (t : ℕ) (l : Λ) (c : Config S σ) : Option (Config S σ) :=
  match c.threads[t]? with
  | some (.act a k) =>
    match M.exec l t c.shared a with
    | some (r, s) => some ⟨s, c.threads.set t (k r)⟩
    | none => none
  | some (.fork τ k) => some ⟨c.shared, c.threads.set t k ++ [M.body τ]⟩
  | some (.ret _) => none
  | none => none

/-- The run in which the listed threads take one step each, in that order. -/
def run : List (ℕ × Λ) → Config S σ → Option (Config S σ)
  | [], c => some c
  | (t, l) :: rest, c => (M.step t l c).bind (run rest)

/-- The system in which these tasks have been started, one thread each. -/
def launch (τs : List S.Task) (s : σ) : Config S σ := ⟨s, τs.map M.body⟩

/-- A step performs the next action of the thread, or starts a task. -/
theorem step_cases {t : ℕ} {l : Λ} {c c' : Config S σ} (h : M.step t l c = some c') :
    (∃ a k r s, c.threads[t]? = some (.act a k) ∧ M.exec l t c.shared a = some (r, s) ∧
      c' = ⟨s, c.threads.set t (k r)⟩) ∨
    ∃ τ k, c.threads[t]? = some (.fork τ k) ∧
      c' = ⟨c.shared, c.threads.set t k ++ [M.body τ]⟩ := by
  unfold step at h
  rcases hp : c.threads[t]? with _ | p
  · simp [hp] at h
  rw [hp] at h
  cases p with
  | ret a => simp at h
  | act a k =>
    simp only at h
    rcases he : M.exec l t c.shared a with _ | ⟨r, s⟩
    · simp [he] at h
    · rw [he] at h
      cases h
      exact .inl ⟨a, k, r, s, rfl, he, rfl⟩
  | fork τ k =>
    cases h
    exact .inr ⟨τ, k, rfl, rfl⟩

theorem threads_length_run : ∀ {sched : List (ℕ × Λ)} {c c' : Config S σ},
    M.run sched c = some c' → c.threads.length ≤ c'.threads.length
  | [], _, _, h => by
    cases h
    exact Nat.le_refl _
  | (_, _) :: _, c, c', h => by
    obtain ⟨c₁, h₁, h₂⟩ := Option.bind_eq_some_iff.1 h
    refine Nat.le_trans ?_ (threads_length_run h₂)
    obtain ⟨a, k, r, s, -, -, rfl⟩ | ⟨τ, k, -, rfl⟩ := M.step_cases h₁ <;> simp

/-- What every action keeps is kept by every run. -/
theorem run_keeps {P : σ → Prop}
    (h : ∀ {l t s a r s'}, M.exec l t s a = some (r, s') → P s → P s') :
    ∀ {sched : List (ℕ × Λ)} {c c' : Config S σ}, M.run sched c = some c' → P c.shared → P c'.shared
  | [], _, _, hrun, hc => by
    cases hrun
    exact hc
  | (_, _) :: _, c, c', hrun, hc => by
    obtain ⟨c₁, h₁, h₂⟩ := Option.bind_eq_some_iff.1 hrun
    refine run_keeps h h₂ ?_
    obtain ⟨a, k, r, s, -, he, rfl⟩ | ⟨τ, k, -, rfl⟩ := M.step_cases h₁
    · exact h he hc
    · exact hc

/-- What every program that can be started has, and a program does not lose as it goes on, every
thread of every run has. -/
theorem run_threads {T : Prog S Unit → Prop} (hbody : ∀ τ, T (M.body τ))
    (hact : ∀ a k r, T (.act a k) → T (k r)) (hfork : ∀ τ k, T (.fork τ k) → T k) :
    ∀ {sched : List (ℕ × Λ)} {c c' : Config S σ}, M.run sched c = some c' →
      (∀ p ∈ c.threads, T p) → ∀ p ∈ c'.threads, T p
  | [], _, _, hrun, hc => by
    cases hrun
    exact hc
  | (_, _) :: _, c, c', hrun, hc => by
    obtain ⟨c₁, h₁, h₂⟩ := Option.bind_eq_some_iff.1 hrun
    refine run_threads hbody hact hfork h₂ ?_
    obtain ⟨a, k, r, s, hp, -, rfl⟩ | ⟨τ, k, hp, rfl⟩ := M.step_cases h₁
    · intro p hm
      rcases List.mem_or_eq_of_mem_set hm with hm | rfl
      · exact hc p hm
      · exact hact a k r (hc _ (List.mem_of_getElem? hp))
    · intro p hm
      rcases List.mem_append.1 hm with hm | hm
      · rcases List.mem_or_eq_of_mem_set hm with hm | rfl
        · exact hc p hm
        · exact hfork τ _ (hc _ (List.mem_of_getElem? hp))
      · rw [List.mem_singleton.1 hm]
        exact hbody τ

/-- `p`, run alone by thread `t` from `s` under any labels that `ok` allows for each action, never
waits and ends with a value and a state in `Q`. -/
def Alone {α : Type} (ok : S.Act → Λ → Prop) (t : ℕ) (Q : α → σ → Prop) : Prog S α → σ → Prop
  | .ret a, s => Q a s
  | .act a k, s => ∀ l, ok a l → ∃ r s', M.exec l t s a = some (r, s') ∧ Alone ok t Q (k r) s'
  | .fork _ k, s => Alone ok t Q k s

/-- The run of `p` alone by thread `t` in which the actions get these labels, one after the
other. -/
def runAlone {α : Type} (t : ℕ) : Prog S α → List Λ → σ → Option (α × σ)
  | .ret a, _, s => some (a, s)
  | .act _ _, [], _ => none
  | .act a k, l :: ls, s =>
    match M.exec l t s a with
    | some (r, s') => runAlone t (k r) ls s'
    | none => none
  | .fork _ k, ls, s => runAlone t k ls s

section Alone

variable {α β : Type} {M} {ok : S.Act → Λ → Prop} {t : ℕ}

theorem Alone.mono {Q Q' : α → σ → Prop} (h : ∀ a s, Q a s → Q' a s) :
    ∀ {p : Prog S α} {s : σ}, M.Alone ok t Q p s → M.Alone ok t Q' p s
  | .ret _, _, hp => h _ _ hp
  | .act _ _, _, hp => fun l hl => by
    obtain ⟨r, s', he, hk⟩ := hp l hl
    exact ⟨r, s', he, Alone.mono h hk⟩
  | .fork _ k, s, hp => Alone.mono (p := k) h hp

theorem alone_bind {Q : β → σ → Prop} {f : α → Prog S β} :
    ∀ {p : Prog S α} {s : σ},
      M.Alone ok t Q (p >>= f) s ↔ M.Alone ok t (fun a s' => M.Alone ok t Q (f a) s') p s
  | .ret _, _ => Iff.rfl
  | .act _ _, _ => by
    refine forall_congr' fun l => forall_congr' fun _ => exists_congr fun r =>
      exists_congr fun s' => and_congr_right fun _ => alone_bind
  | .fork _ k, s => alone_bind (p := k)

@[simp] theorem alone_ret {Q : α → σ → Prop} {a : α} {s : σ} :
    M.Alone ok t Q (.ret a) s ↔ Q a s := Iff.rfl

/-- What holds at the end of every run alone holds at the end of this one. -/
theorem Alone.runAlone {Q : α → σ → Prop} : ∀ {p : Prog S α} {ls : List Λ} {s s' : σ} {a : α},
    M.Alone (fun _ _ => True) t Q p s → M.runAlone t p ls s = some (a, s') → Q a s'
  | .ret _, _, _, _, _, h, hr => by
    simp only [Machine.runAlone, Option.some.injEq, Prod.mk.injEq] at hr
    obtain ⟨rfl, rfl⟩ := hr
    exact h
  | .act _ _, [], _, _, _, _, hr => by simp [Machine.runAlone] at hr
  | .act a k, l :: ls, s, s', b, h, hr => by
    obtain ⟨r, s₁, he, hk⟩ := h l trivial
    simp only [Machine.runAlone, he] at hr
    exact Alone.runAlone hk hr
  | .fork _ k, _, _, _, _, h, hr => by
    rw [Machine.runAlone] at hr
    exact Alone.runAlone (p := k) h hr

end Alone

end Machine

end Lib
