import Mathlib.Data.List.Infix
import Mathlib.Tactic.Common

/-! # Glob patterns

Patterns made of literal letters, a token for any one letter and a token for any run of letters, over an
arbitrary alphabet in which letters are compared up to `fold`.  A concatenation matches the
concatenations of what its parts match (`isMatch_append`), which is all that inclusions between patterns
need. -/

namespace OpenAgere.Glob

open List

/-- One token of a pattern. -/
inductive Token (α : Type*) where
  | lit (a : α)
  | one
  | many
deriving DecidableEq, Repr

section

variable {α β : Type*} [DecidableEq β] (fold : α → β)

/-- A token against one letter. -/
def Token.fits : Token α → α → Bool
  | .lit a, b => fold a = fold b
  | .one, _ => true
  | .many, _ => true

/-- The pattern matches the whole text. -/
def isMatch : List (Token α) → List α → Bool
  | [], s => s.isEmpty
  | .many :: p, s => s.tails.any (isMatch p)
  | t :: p, s =>
      match s with
      | [] => false
      | b :: s => t.fits fold b && isMatch p s

variable {fold} {a : α} {p q : List (Token α)} {s : List α}

@[simp] theorem isMatch_nil : isMatch fold [] s = true ↔ s = [] := isEmpty_iff

theorem isMatch_many : isMatch fold (.many :: p) s ↔ ∃ u v, s = u ++ v ∧ isMatch fold p v := by
  show s.tails.any (isMatch fold p) = true ↔ _
  simp only [any_eq_true, mem_tails]
  constructor
  · rintro ⟨v, ⟨u, rfl⟩, h⟩
    exact ⟨u, v, rfl, h⟩
  · rintro ⟨u, v, rfl, h⟩
    exact ⟨v, ⟨u, rfl⟩, h⟩

theorem isMatch_cons {t : Token α} (ht : t ≠ .many) : isMatch fold (t :: p) s ↔
    ∃ b v, s = b :: v ∧ t.fits fold b ∧ isMatch fold p v := by
  cases t with
  | many => exact absurd rfl ht
  | lit | one => cases s <;> simp [isMatch]

/-- **Concatenation.** -/
theorem isMatch_append : ∀ {p q : List (Token α)} {s : List α}, isMatch fold (p ++ q) s ↔
    ∃ u v, s = u ++ v ∧ isMatch fold p u ∧ isMatch fold q v
  | [], q, s => by simp
  | t :: p, q, s => by
    rw [cons_append]
    by_cases ht : t = .many
    · rw [ht, isMatch_many]
      constructor
      · rintro ⟨u, w, rfl, h⟩
        obtain ⟨v, w, rfl, hp, hq⟩ := isMatch_append.mp h
        exact ⟨u ++ v, w, by rw [append_assoc], isMatch_many.mpr ⟨u, v, rfl, hp⟩, hq⟩
      · rintro ⟨w, v, rfl, hp, hq⟩
        obtain ⟨u, w, rfl, hw⟩ := isMatch_many.mp hp
        exact ⟨u, w ++ v, append_assoc .., isMatch_append.mpr ⟨w, v, rfl, hw, hq⟩⟩
    · rw [isMatch_cons ht]
      constructor
      · rintro ⟨b, w, rfl, hfits, h⟩
        obtain ⟨u, v, rfl, hp, hq⟩ := isMatch_append.mp h
        exact ⟨b :: u, v, rfl, (isMatch_cons ht).mpr ⟨b, u, rfl, hfits, hp⟩, hq⟩
      · rintro ⟨w, v, rfl, hp, hq⟩
        obtain ⟨b, u, rfl, hfits, hu⟩ := (isMatch_cons ht).mp hp
        exact ⟨b, u ++ v, rfl, hfits, isMatch_append.mpr ⟨u, v, rfl, hu, hq⟩⟩

theorem isMatch_one_many : isMatch fold [.one, .many] s ↔ s ≠ [] := by
  rw [isMatch_cons (t := .one) nofun]
  constructor
  · rintro ⟨b, v, rfl, _⟩
    exact cons_ne_nil b v
  · intro h
    obtain ⟨b, v, rfl⟩ := exists_cons_of_ne_nil h
    exact ⟨b, v, rfl, rfl, isMatch_many.mpr ⟨v, [], (append_nil v).symm, rfl⟩⟩

/-- Only a run of `many` matches the empty text. -/
theorem isMatch_nil_right : isMatch fold p [] ↔ ∀ t ∈ p, t = .many := by
  induction p with
  | nil => simp
  | cons t p ih =>
    cases t with
    | lit a => simp [isMatch]
    | one => simp [isMatch]
    | many =>
      rw [isMatch_many]
      simp [ih]

end

end OpenAgere.Glob
