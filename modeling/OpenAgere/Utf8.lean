import OpenAgere.Text

/-! # Bytes of a text -/

namespace OpenAgere.Utf8

open List

/-- `as_bytes` -/
def bytes (s : Str) : List UInt8 := s.flatMap String.utf8EncodeChar

/-- `str::len` -/
def len (s : Str) : ℕ := (bytes s).length

theorem bytes_append (s t : Str) : bytes (s ++ t) = bytes s ++ bytes t := flatMap_append

theorem val_le_of_isAlphanum {c : Char} (h : c.isAlphanum) : c.val ≤ 127 := by
  have hcases : ('A'.val ≤ c.val ∧ c.val ≤ 'Z'.val ∨ 'a'.val ≤ c.val ∧ c.val ≤ 'z'.val) ∨
      '0'.val ≤ c.val ∧ c.val ≤ '9'.val := by
    unfold Char.isAlphanum Char.isAlpha Char.isUpper Char.isLower Char.isDigit at h
    simpa only [Bool.or_eq_true, Bool.and_eq_true, decide_eq_true_eq] using h
  obtain (⟨-, hle⟩ | ⟨-, hle⟩) | ⟨-, hle⟩ := hcases
  · exact UInt32.le_trans hle (by decide)
  · exact UInt32.le_trans hle (by decide)
  · exact UInt32.le_trans hle (by decide)

theorem len_of_ascii {s : Str} (h : ∀ c ∈ s, c.val ≤ 127) : len s = s.length := by
  induction s with
  | nil => rfl
  | cons c s ih =>
    have hchar : (String.utf8EncodeChar c).length = 1 := by
      rw [String.length_utf8EncodeChar, Char.utf8Size_eq_one_iff]
      exact h c mem_cons_self
    rw [len, bytes, flatMap_cons, length_append, hchar, length_cons, Nat.add_comm]
    exact congrArg Nat.succ (ih fun d hd => h d (mem_cons_of_mem c hd))

end OpenAgere.Utf8
