import OpenAgere.Offsets
import OpenAgere.Text

/-! # Truncation in the middle

`truncate_middle_chars` of `utils/common/src/string.rs`.  The head is counted in characters, the
tail and the budget in bytes, so a subtraction can underflow and a slice can miss a character
boundary; both are kept as panics of the source.  `MiddleTruncated` says what the result should
be, and `truncateMiddleChars_iff` says for which texts and budgets it is: the head and the
ellipsis have to leave room for the tail, and the tail has to start at a character. -/

namespace OpenAgere.Truncation

open Offsets

inductive Panic where
  | underflow
  | notCharBoundary
deriving DecidableEq, Repr

/-! ### Strings and bytes -/

/-- `str::len`: the bytes of a text in UTF-8. -/
def len (s : Str) : ℕ := units Char.utf8Size s

def charIndices (s : Str) : List (ℕ × Char) := indices Char.utf8Size 0 s

def IsCharBoundary (s : Str) (i : ℕ) : Prop := Boundary Char.utf8Size s i

instance (s : Str) (i : ℕ) : Decidable (IsCharBoundary s i) :=
  decidable_of_iff _ (isSome_splitAtOffset Char.utf8Size_pos)

/-- `&s[..i]`. -/
def sliceTo (s : Str) (i : ℕ) : Except Panic Str :=
  match splitAtOffset Char.utf8Size s i with
  | some (p, _) => .ok p
  | none => .error .notCharBoundary

/-- `&s[i..]`. -/
def sliceFrom (s : Str) (i : ℕ) : Except Panic Str :=
  match splitAtOffset Char.utf8Size s i with
  | some (_, q) => .ok q
  | none => .error .notCharBoundary

/-- A subtraction of machine integers. -/
def checkedSub (a b : ℕ) : Except Panic ℕ := if b ≤ a then .ok (a - b) else .error .underflow

theorem sliceTo_append (p q : Str) : sliceTo (p ++ q) (len p) = .ok p := by
  unfold sliceTo len
  rw [(splitAtOffset_eq_some Char.utf8Size_pos).mpr ⟨rfl, rfl⟩]

theorem sliceFrom_append (p q : Str) : sliceFrom (p ++ q) (len p) = .ok q := by
  unfold sliceFrom len
  rw [(splitAtOffset_eq_some Char.utf8Size_pos).mpr ⟨rfl, rfl⟩]

@[simp] theorem len_append (p q : Str) : len (p ++ q) = len p + len q := units_append _ _ _

theorem len_pos_of_cons (c : Char) (s : Str) : 0 < len (c :: s) := by
  have := Char.utf8Size_pos c
  unfold len
  rw [units_cons]
  omega

/-! ### The truncation -/

def ellipsis : Str := "…"

/-- The offset of the character number `half`, or the end. -/
def headEnd (s : Str) (half : ℕ) : ℕ := (((charIndices s)[half]?).map (·.1)).getD (len s)

/-- The start of the last character that starts at or before the offset. -/
def tailBoundary (s : Str) (tailStart : ℕ) : ℕ :=
  (((charIndices s).reverse.find? fun x => decide (x.1 ≤ tailStart)).map (·.1)).getD tailStart

def truncateMiddleChars (s : Str) (budget : ℕ) : Except Panic Str :=
  if len s ≤ budget then .ok s
  else if budget < 4 then .ok (s.take budget)
  else do
    let head ← sliceTo s (headEnd s (budget / 2))
    let remaining ← checkedSub budget (len (head ++ ellipsis))
    let tailStart ← checkedSub (len s) remaining
    let tail ← sliceFrom s (tailBoundary s tailStart)
    return head ++ ellipsis ++ tail

/-! ### What is expected -/

/-- A truncation to the budget: the text itself if it fits, otherwise a start and an end of it
around an ellipsis. -/
structure MiddleTruncated (s : Str) (budget : ℕ) (r : Str) : Prop where
  fits : len r ≤ budget
  whole : len s ≤ budget → r = s
  parts : budget < len s → 4 ≤ budget → ∃ p m q, s = p ++ m ++ q ∧ r = p ++ ellipsis ++ q

/-- The head of half as many characters as the budget has bytes and the ellipsis leave some
bytes for the tail, and that many bytes from the end a character starts. -/
def TailFits (s : Str) (budget : ℕ) : Prop :=
  len (s.take (budget / 2)) + 3 < budget ∧
    IsCharBoundary s (len s - (budget - (len (s.take (budget / 2)) + 3)))

/-- The texts and budgets for which the truncation keeps to the budget. -/
def Fits (s : Str) (budget : ℕ) : Prop :=
  len s ≤ budget ∨ (budget < 4 ∧ ∀ c ∈ s.take budget, c.utf8Size = 1) ∨ (4 ≤ budget ∧ TailFits s budget)

instance (s : Str) (budget : ℕ) : Decidable (Fits s budget) :=
  inferInstanceAs (Decidable (_ ∨ (_ ∧ ∀ c ∈ s.take budget, _) ∨ (_ ∧ _ ∧ _)))

/-! ### Short texts and small budgets -/

theorem len_take_le_iff {s : Str} {budget : ℕ} (h : budget < len s) :
    len (s.take budget) ≤ budget ↔ ∀ c ∈ s.take budget, c.utf8Size = 1 := by
  rw [← units_le_length_iff Char.utf8Size_pos]
  unfold len at h ⊢
  have hlen : (s.take budget).length = min budget s.length := List.length_take
  constructor
  · intro hle
    by_cases hs : budget ≤ s.length
    · omega
    · rw [List.take_of_length_le (by omega)] at hle
      omega
  · omega

/-! ### Long texts -/

theorem headEnd_eq (s : Str) (half : ℕ) : headEnd s half = len (s.take half) := by
  have h := getElem?_indices Char.utf8Size s 0 half
  rw [Nat.zero_add, Nat.zero_add] at h
  exact h

theorem sliceTo_headEnd (s : Str) (half : ℕ) : sliceTo s (headEnd s half) = .ok (s.take half) := by
  have h := sliceTo_append (s.take half) (s.drop half)
  rw [List.take_append_drop] at h
  rw [headEnd_eq, h]

theorem len_ellipsis : len ellipsis = 3 := rfl

section long
variable {s : Str} {budget : ℕ} (hs : budget < len s) (hb : 4 ≤ budget)
include hs hb

/-- The head and the ellipsis alone exceed the budget. -/
theorem truncateMiddleChars_underflow (h : budget < len (s.take (budget / 2)) + 3) :
    truncateMiddleChars s budget = .error .underflow := by
  unfold truncateMiddleChars
  rw [if_neg (by omega), if_neg (by omega), sliceTo_headEnd]
  simp only [Bind.bind, Except.bind, checkedSub, len_append, len_ellipsis]
  rw [if_neg (by omega)]

/-- Otherwise the tail starts at the last character that starts at or before the place the
budget leaves for it. -/
theorem truncateMiddleChars_long (h : len (s.take (budget / 2)) + 3 ≤ budget) :
    ∃ p a q, s = p ++ a :: q ∧ len p ≤ len s - (budget - (len (s.take (budget / 2)) + 3)) ∧
      (∀ i b, (i, b) ∈ charIndices s → i ≤ len s - (budget - (len (s.take (budget / 2)) + 3)) → i ≤ len p) ∧
      truncateMiddleChars s budget = .ok (s.take (budget / 2) ++ ellipsis ++ a :: q) := by
  have hne : s ≠ [] := by
    rintro rfl
    exact absurd hs (Nat.not_lt_zero _)
  obtain ⟨p, a, q, hsplit, hle, hfind, hlast⟩ := exists_last_index Char.utf8Size hne
    (len s - (budget - (len (s.take (budget / 2)) + 3)))
  refine ⟨p, a, q, hsplit, hle, hlast, ?_⟩
  have htail : tailBoundary s (len s - (budget - (len (s.take (budget / 2)) + 3))) = len p := by
    unfold tailBoundary charIndices
    rw [hfind]
    rfl
  have hslice : sliceFrom s (len p) = .ok (a :: q) := by
    conv_lhs => rw [hsplit]
    exact sliceFrom_append p (a :: q)
  unfold truncateMiddleChars
  rw [if_neg (by omega), if_neg (by omega), sliceTo_headEnd]
  simp only [Bind.bind, Except.bind, checkedSub, len_append, len_ellipsis]
  rw [if_pos h]
  dsimp only
  rw [if_pos (by omega)]
  dsimp only
  rw [htail, hslice]
  rfl

/-- A long text is truncated as expected when the tail fits. -/
theorem middleTruncated_iff_tailFits :
    (∃ r, truncateMiddleChars s budget = .ok r ∧ MiddleTruncated s budget r) ↔ TailFits s budget := by
  by_cases h : len (s.take (budget / 2)) + 3 ≤ budget
  · obtain ⟨p, a, q, hsplit, hle, hlast, hrun⟩ := truncateMiddleChars_long hs hb h
    have hlen : len s = len p + len (a :: q) := by
      conv_lhs => rw [hsplit, len_append]
    have hpos := len_pos_of_cons a q
    constructor
    · rintro ⟨r, hr, hm⟩
      rw [hrun] at hr
      cases hr
      have hfits := hm.fits
      rw [len_append, len_append, len_ellipsis] at hfits
      refine ⟨by omega, p, a :: q, hsplit, ?_⟩
      show len p = _
      omega
    · rintro ⟨hlt, p', q', hsplit', hp'⟩
      have hne : q' ≠ [] := by
        rintro rfl
        rw [List.append_nil] at hsplit'
        rw [← hsplit'] at hp'
        have hall : len s = _ := hp'
        omega
      obtain ⟨b, q'', rfl⟩ := List.exists_cons_of_ne_nil hne
      have hidx := hlast (len p') b (mem_indices.mpr ⟨p', q'', hsplit', (Nat.zero_add _).symm⟩) (le_of_eq hp')
      have hat : len p' = _ := hp'
      refine ⟨_, hrun, ?_, fun hc => by omega, ?_⟩
      · rw [len_append, len_append, len_ellipsis]
        omega
      · intro _ _
        have hpre : s.take (budget / 2) <+: p := by
          have htake : s.take (budget / 2) <+: s := List.take_prefix _ s
          refine prefix_of_units_le Char.utf8Size_pos htake ⟨a :: q, hsplit.symm⟩ ?_
          show len _ ≤ len p
          omega
        obtain ⟨m, hm⟩ := hpre
        exact ⟨s.take (budget / 2), m, a :: q, by rw [hm]; exact hsplit, rfl⟩
  · constructor
    · rintro ⟨r, hr, _⟩
      rw [truncateMiddleChars_underflow hs hb (by omega)] at hr
      cases hr
    · rintro ⟨hlt, _⟩
      omega

end long

/-- **When the truncation keeps to the budget.**  The truncation returns, within the budget and
in the expected form, exactly when the text fits, or the budget is below four bytes and the
characters kept take one byte each, or the tail fits. -/
theorem truncateMiddleChars_iff (s : Str) (budget : ℕ) :
    (∃ r, truncateMiddleChars s budget = .ok r ∧ MiddleTruncated s budget r) ↔ Fits s budget := by
  unfold Fits
  by_cases hs : len s ≤ budget
  · have hm : MiddleTruncated s budget s := ⟨hs, fun _ => rfl, fun hlt => by omega⟩
    exact iff_of_true ⟨s, if_pos hs, hm⟩ (Or.inl hs)
  · have hlt : budget < len s := by omega
    by_cases hb : budget < 4
    · rw [truncateMiddleChars, if_neg hs, if_pos hb]
      constructor
      · rintro ⟨r, hr, hm⟩
        cases hr
        exact Or.inr (Or.inl ⟨hb, (len_take_le_iff hlt).mp hm.fits⟩)
      · rintro (hle | ⟨_, hone⟩ | ⟨hge, _⟩)
        · omega
        · exact ⟨_, rfl, (len_take_le_iff hlt).mpr hone, fun hc => by omega, fun _ hge => by omega⟩
        · omega
    · rw [middleTruncated_iff_tailFits hlt (by omega)]
      constructor
      · intro ht
        exact Or.inr (Or.inr ⟨by omega, ht⟩)
      · rintro (hle | ⟨hsmall, _⟩ | ⟨_, ht⟩)
        · omega
        · omega
        · exact ht

/-- Eight ASCII characters: a budget of four underflows, a budget of five is exceeded. -/
theorem truncateMiddleChars_ascii :
    truncateMiddleChars "abcdefgh" 4 = .error .underflow ∧
      truncateMiddleChars "abcdefgh" 5 = .ok "ab…h" ∧ len "ab…h" = 6 := by
  decide +kernel

end OpenAgere.Truncation
