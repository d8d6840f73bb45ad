/-
# Fair runs come to an end

A run in which several actors take turns, in any order but each again and again.  When a turn
either leaves the state as it is or makes it lighter, and every state that is not at the goal has
an actor whose turn changes it, then the run reaches the goal (`FairRun.reaches`).  Such a
run exists wherever no actor is ever stuck (`FairRun.exists_of_total`).
-/
import Mathlib.Tactic.Common

/-- A run with the actor of every turn. -/
structure FairRun {A S : Type} (step : A → S → S → Prop) where
  state : ℕ → S
  turn : ℕ → A
  step_turn : ∀ n, step (turn n) (state n) (state (n + 1))
  fair : ∀ a n, ∃ m, n ≤ m ∧ turn m = a

namespace FairRun

variable {A S : Type} {step : A → S → S → Prop}

/-- Until the state changes, it gets no lighter: between two turns the state is the same, or it
is lighter at the second. -/
theorem same_or_lighter (run : FairRun step) {weight : S → ℕ}
    (hweight : ∀ {a s s'}, step a s s' → s' = s ∨ weight s' < weight s) (n k : ℕ) :
    run.state (n + k) = run.state n ∨ weight (run.state (n + k)) < weight (run.state n) := by
  induction k with
  | zero => exact .inl rfl
  | succ k ih =>
    rcases hweight (run.step_turn (n + k)) with hsame | hless
    · rw [← hsame] at ih
      exact ih
    · rcases ih with hk | hk
      · rw [hk] at hless
        exact .inr hless
      · exact .inr (Nat.lt_trans hless hk)

theorem reaches (run : FairRun step) {weight : S → ℕ} {goal : S → Prop}
    (hweight : ∀ {a s s'}, step a s s' → s' = s ∨ weight s' < weight s)
    (hhelp : ∀ s, ¬ goal s → ∃ a, ∀ s', step a s s' → s' ≠ s) (n : ℕ) :
    ∃ m, n ≤ m ∧ goal (run.state m) := by
  -- Induction on the weight of the state at `n`.
  obtain ⟨w, hw⟩ : ∃ w, weight (run.state n) = w := ⟨_, rfl⟩
  induction w using Nat.strongRecOn generalizing n with
  | ind w ih =>
    by_cases hgoal : goal (run.state n)
    · exact ⟨n, Nat.le_refl n, hgoal⟩
    obtain ⟨a, ha⟩ := hhelp _ hgoal
    obtain ⟨m, hnm, hturn⟩ := run.fair a n
    obtain ⟨k, rfl⟩ := Nat.exists_eq_add_of_le hnm
    -- By the end of the turn of the actor that helps, the state has become lighter.
    have hlighter : weight (run.state (n + k + 1)) < w := by
      have hstep := run.step_turn (n + k)
      rw [hturn] at hstep
      rcases run.same_or_lighter hweight n k with hsame | hless
      · rw [hsame] at hstep
        rcases hweight hstep with hsame' | hless
        · exact absurd hsame' (ha _ hstep)
        · exact hw ▸ hless
      · rcases hweight hstep with hsame' | hless'
        · rw [hsame', ← hw]
          exact hless
        · exact hw ▸ Nat.lt_trans hless' hless
    obtain ⟨m, hm, hgoal⟩ := ih _ hlighter (n + k + 1) rfl
    exact ⟨m, by omega, hgoal⟩

/-- Where every actor has a step in every state, there is a fair run from every state, with any
schedule that gives each actor its turn again and again. -/
theorem exists_of_total (htotal : ∀ a s, ∃ s', step a s s') (turn : ℕ → A)
    (hfair : ∀ a n, ∃ m, n ≤ m ∧ turn m = a) (s : S) :
    ∃ run : FairRun step, run.state 0 = s := by
  choose next hnext using htotal
  have hstate : ∀ n, step (turn n) (Nat.rec s (fun n s => next (turn n) s) n)
      (next (turn n) (Nat.rec s (fun n s => next (turn n) s) n)) := fun n => hnext _ _
  exact ⟨⟨fun n => Nat.rec s (fun n s => next (turn n) s) n, turn, hstate, hfair⟩, rfl⟩

end FairRun
