import Mathlib.Tactic

/-! # Machine integers

Where the width of a number matters, an operation of the code is the one of `ℤ` or `ℕ` followed by what happens at
the end of the range: the result wraps around (`wrap`) or stays at the end (`saturate`).  Results in the range are not
changed. -/

namespace OpenAgere.MachineInteger

def u64Max : ℕ := 2 ^ 64 - 1

def i64Max : ℤ := 2 ^ 63 - 1

theorem i64Max_nonneg : 0 ≤ i64Max := by decide

/-- An `i64` that overflows. -/
def wrap (n : ℤ) : ℤ := n.bmod (2 ^ 64)

/-- The result of `saturating_add` and `saturating_sub` of `i64`. -/
def saturate (n : ℤ) : ℤ := max (-i64Max - 1) (min n i64Max)

variable {n : ℤ} (hle : -i64Max ≤ n) (hlt : n ≤ i64Max)
include hle hlt

theorem wrap_eq_self : wrap n = n := by
  unfold i64Max at hle hlt
  exact Int.bmod_eq_of_le (by omega) (by omega)

theorem saturate_eq_self : saturate n = n := by
  unfold saturate
  omega

end OpenAgere.MachineInteger
