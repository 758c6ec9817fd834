import Mathlib.Tactic

/-! # Loops that consume a list

The shape `while !remaining.is_empty() { … remaining = &remaining[n..] }` of a line-oriented
parser: a state, the items still to read, and a step that either stops with a result or goes
on in a new state after consuming some items.  `run` bounds the rounds by the number of items,
so it computes by structural recursion; when every round consumes an item (`Progress`) the
bound is never reached and `run` satisfies the equation of the loop (`run_cons`). -/

namespace OpenAgere.ScanLoop

variable {σ α ρ : Type}

/-- What one round does: stop with a result, or go on after consuming `n` items. -/
inductive Next (σ ρ : Type) where
  | stop (r : ρ)
  | go (s : σ) (n : ℕ)

variable (step : σ → List α → Next σ ρ) (finish : σ → ρ)

/-- The loop with at most `f` rounds. -/
def runFuel : ℕ → σ → List α → ρ
  | 0, s, _ => finish s
  | _ + 1, s, [] => finish s
  | f + 1, s, a :: l =>
      match step s (a :: l) with
      | .stop r => r
      | .go s' n => runFuel f s' ((a :: l).drop n)

/-- The loop: `finish` is the result when the items are used up. -/
def run (s : σ) (l : List α) : ρ := runFuel step finish l.length s l

/-- Every round that goes on consumes an item. -/
def Progress : Prop := ∀ s a l s' n, step s (a :: l) = .go s' n → 1 ≤ n

variable {step}

theorem runFuel_of_le (h : Progress step) : ∀ (f g : ℕ) (s : σ) (l : List α), l.length ≤ f →
    l.length ≤ g → runFuel step finish f s l = runFuel step finish g s l
  | 0, g, s, l, hf, _ => by
    obtain rfl : l = [] := List.length_eq_zero_iff.mp (by omega)
    cases g <;> rfl
  | f + 1, 0, s, l, _, hg => by
    obtain rfl : l = [] := List.length_eq_zero_iff.mp (by omega)
    rfl
  | f + 1, g + 1, s, [], _, _ => rfl
  | f + 1, g + 1, s, a :: l, hf, hg => by
    simp only [runFuel]
    cases hs : step s (a :: l) with
    | stop r => rfl
    | go s' n =>
      have hn := h s a l s' n hs
      simp only [List.length_cons] at hf hg
      exact runFuel_of_le h f g s' _ (by simp; omega) (by simp; omega)

theorem run_cons (h : Progress step) (s : σ) (a : α) (l : List α) :
    run step finish s (a :: l) =
      match step s (a :: l) with
      | .stop r => r
      | .go s' n => run step finish s' ((a :: l).drop n) := by
  simp only [run, List.length_cons, runFuel]
  cases hs : step s (a :: l) with
  | stop r => rfl
  | go s' n =>
    have hn := h s a l s' n hs
    exact runFuel_of_le finish h _ _ s' _ (by simp; omega) le_rfl

end OpenAgere.ScanLoop
