import Mathlib.Algebra.Group.Prod
import Mathlib.Algebra.FreeMonoid.Basic
import Mathlib.Algebra.Group.Submonoid.Defs

/-! # Parsers of a stream

A parser of a stream is fed a text chunk by chunk and flushed at the end; its outputs form a
monoid.  `collect` is the product of all outputs of a run.  A parser is `Seamless` for an
observation of the outputs when feeding two chunks is feeding them joined, as far as the
observation tells; then the observation of a run does not depend on the cuts (`Seamless.collect`). -/

namespace OpenAgere

/-- A parser with state `σ` for texts over `α`, with outputs in `ω`. -/
structure StreamParser (σ α ω : Type) where
  push : σ → List α → σ × ω
  finish : σ → σ × ω

namespace StreamParser
variable {σ α ω β : Type} [Monoid ω] [Monoid β] (P : StreamParser σ α ω)

/-- The state and the output after some chunks. -/
def feed : σ → List (List α) → σ × ω
  | s, [] => (s, 1)
  | s, c :: cs => ((feed (P.push s c).1 cs).1, (P.push s c).2 * (feed (P.push s c).1 cs).2)

/-- The output of some chunks and the end of the stream. -/
def collect (s : σ) (cs : List (List α)) : ω := (P.feed s cs).2 * (P.finish (P.feed s cs).1).2

theorem collect_mem {M : Submonoid ω} (hpush : ∀ s c, (P.push s c).2 ∈ M) (hfinish : ∀ s, (P.finish s).2 ∈ M)
    (s : σ) (cs : List (List α)) : P.collect s cs ∈ M := by
  have hfeed : ∀ (cs : List (List α)) (s : σ), (P.feed s cs).2 ∈ M := by
    intro cs
    induction cs with
    | nil => exact fun s => M.one_mem
    | cons c cs ih => exact fun s => M.mul_mem (hpush s c) (ih _)
  exact M.mul_mem (hfeed cs s) (hfinish _)

/-- Two chunks are as good as one, for the observation `obs`. -/
structure Seamless (obs : ω →* β) : Prop where
  state : ∀ s a b, (P.push s (a ++ b)).1 = (P.push (P.push s a).1 b).1
  output : ∀ s a b,
    obs (P.push s (a ++ b)).2 = obs (P.push s a).2 * obs (P.push (P.push s a).1 b).2

variable {P} {obs : ω →* β}

theorem Seamless.feed_cons (h : P.Seamless obs) : ∀ (s : σ) (c : List α) (cs : List (List α)),
    (P.feed s (c :: cs)).1 = (P.push s (c ++ cs.flatten)).1 ∧
      obs (P.feed s (c :: cs)).2 = obs (P.push s (c ++ cs.flatten)).2
  | s, c, [] => by simp [feed]
  | s, c, d :: cs => by
    obtain ⟨hs, ho⟩ := h.feed_cons (P.push s c).1 d cs
    have hfeed : P.feed s (c :: d :: cs) = ((P.feed (P.push s c).1 (d :: cs)).1,
      (P.push s c).2 * (P.feed (P.push s c).1 (d :: cs)).2) := rfl
    rw [hfeed, List.flatten_cons]
    constructor
    · rw [h.state]
      exact hs
    · rw [h.output, map_mul, ho]

/-- **The cuts do not matter.**  From a state that the empty chunk leaves alone, the observation
of a run is that of the whole text. -/
theorem Seamless.collect {s : σ} (h : P.Seamless obs) (h0 : P.push s [] = (s, 1)) (cs : List (List α)) :
    obs (P.collect s cs) = obs (P.collect s [cs.flatten]) := by
  have hone : ∀ t : List α, P.feed s [t] = P.push s t := by
    intro t
    simp [feed]
  unfold StreamParser.collect
  rw [map_mul, map_mul, hone]
  cases cs with
  | nil => rw [List.flatten_nil, h0]; rfl
  | cons c cs =>
    obtain ⟨hs, ho⟩ := h.feed_cons s c cs
    rw [hs, ho, List.flatten_cons]

end StreamParser

end OpenAgere
