import Mathlib.Tactic.Common

/-!
# Calls that are shared

The first caller sets up a flight with its own job, and those who come while it is under way join
it.  A thread of its own boards the flight, and what it brings when it lands goes to everyone who
joined.  `Moves` says what a thread can do to the flights.
-/

namespace Lib

/-- A flight under way, and the thread that runs it once there is one. -/
structure Flight (γ : Type) where
  id : ℕ
  job : γ
  pilot : Option ℕ

structure Flights (γ ρ : Type) where
  current : Option (Flight γ)
  count : ℕ
  /-- What the flights brought, the latest first. -/
  landed : List (ℕ × ρ)

namespace Flights

variable {γ ρ : Type} {s s' : Flights γ ρ} {t t' id : ℕ} {job : γ} {x : ℕ × γ}

def empty : Flights γ ρ := ⟨none, 0, []⟩

/-- Joins the flight that is under way, or sets one up, and answers which it was. -/
def join (s : Flights γ ρ) (job : γ) : (ℕ × Bool) × Flights γ ρ :=
  match s.current with
  | some f => ((f.id, false), s)
  | none => ((s.count, true),
    { s with current := some ⟨s.count, job, none⟩, count := s.count + 1 })

def board (s : Flights γ ρ) (t : ℕ) : Option ((ℕ × γ) × Flights γ ρ) :=
  match s.current with
  | none => none
  | some f =>
    if f.pilot = none then some ((f.id, f.job), { s with current := some { f with pilot := t } })
    else none

def land (s : Flights γ ρ) (id : ℕ) (r : ρ) : Flights γ ρ :=
  { s with current := none, landed := (id, r) :: s.landed }

/-- The flight that the thread runs. -/
def Flown (s : Flights γ ρ) (t id : ℕ) (job : γ) : Prop := s.current = some ⟨id, job, some t⟩

structure Ordered (s : Flights γ ρ) : Prop where
  landed : ∀ x ∈ s.landed, x.1 < s.count
  current : ∀ f, s.current = some f → f.id < s.count ∧ ∀ x ∈ s.landed, x.1 ≠ f.id

/-- What thread `t` can do. -/
inductive Moves (t : ℕ) : Flights γ ρ → Flights γ ρ → Prop
  | stays (s : Flights γ ρ) : Moves t s s
  | joins (s : Flights γ ρ) (job : γ) : Moves t s (s.join job).2
  | boards {s s' : Flights γ ρ} {x : ℕ × γ} (h : s.board t = some (x, s')) : Moves t s s'
  | lands {s : Flights γ ρ} {id : ℕ} {job : γ} (h : s.Flown t id job) (r : ρ) :
    Moves t s (s.land id r)

theorem ordered_empty : (empty : Flights γ ρ).Ordered := ⟨nofun, nofun⟩

theorem board_some (h : s.board t = some (x, s')) :
    s.current = some ⟨x.1, x.2, none⟩ ∧ s' = { s with current := some ⟨x.1, x.2, some t⟩ } := by
  unfold board at h
  rcases hc : s.current with _ | ⟨id, job, _ | pilot⟩ <;> rw [hc] at h <;> cases h
  exact ⟨rfl, rfl⟩

theorem join_cases (s : Flights γ ρ) (job : γ) :
    (∃ f, s.current = some f ∧ s.join job = ((f.id, false), s)) ∨
      (s.current = none ∧ s.join job = ((s.count, true),
        { s with current := some ⟨s.count, job, none⟩, count := s.count + 1 })) := by
  unfold join
  rcases s.current with _ | f
  · exact .inr ⟨rfl, rfl⟩
  · exact .inl ⟨f, rfl, rfl⟩

theorem Moves.ordered (h : Moves t s s') (hs : s.Ordered) : s'.Ordered := by
  cases h with
  | stays => exact hs
  | joins job =>
    obtain ⟨f, _, h⟩ | ⟨_, h⟩ := join_cases s job <;> rw [h]
    · exact hs
    · refine ⟨fun x hx => Nat.lt_succ_of_lt (hs.landed x hx), ?_⟩
      rintro f ⟨⟩
      exact ⟨Nat.lt_succ_self _, fun x hx => Nat.ne_of_lt (hs.landed x hx)⟩
  | boards h =>
    obtain ⟨hc, rfl⟩ := board_some h
    refine ⟨hs.landed, ?_⟩
    rintro f ⟨⟩
    exact hs.current ⟨_, _, none⟩ hc
  | lands h r =>
    refine ⟨fun x hx => ?_, nofun⟩
    rcases List.mem_cons.1 hx with rfl | hx
    · exact (hs.current _ h).1
    · exact hs.landed x hx

/-- A thread that has boarded has its flight to itself. -/
theorem Moves.flown (h : Moves t' s s') (hne : t' ≠ t) (hf : s.Flown t id job) :
    s'.Flown t id job := by
  cases h with
  | stays => exact hf
  | joins job' =>
    obtain ⟨f, _, h⟩ | ⟨hnone, _⟩ := join_cases s job'
    · rwa [h]
    · cases hnone.symm.trans hf
  | boards h => cases (board_some h).1.symm.trans hf
  | lands h r =>
    have h' := h.symm.trans hf
    simp only [Option.some.injEq, Flight.mk.injEq] at h'
    exact absurd h'.2.2 hne

/-- Nothing has landed for one who has just joined. -/
theorem join_notMem (hs : s.Ordered) (job : γ) :
    ∀ x ∈ (s.join job).2.landed, x.1 ≠ (s.join job).1.1 := by
  obtain ⟨f, hf, h⟩ | ⟨_, h⟩ := join_cases s job <;> rw [h]
  · exact (hs.current f hf).2
  · exact fun x hx => Nat.ne_of_lt (hs.landed x hx)

theorem board_flown (h : s.board t = some (x, s')) : s'.Flown t x.1 x.2 := by
  obtain ⟨-, rfl⟩ := board_some h
  rfl

end Flights

end Lib
