import Mathlib.Algebra.GroupWithZero.Nat
import Mathlib.Algebra.Order.BigOperators.Group.List
import Mathlib.Algebra.Order.Group.Nat
import Mathlib.Data.List.Infix
import Mathlib.Tactic.Common

/-! # Keeping the newest entries within a budget

A queue that keeps the newest entries of a history: an entry is added at the back, and entries leave at
the front while the queue is over its budget.  The budget looks at the number of entries and at their
total size, and the size is a counter beside the queue.

What the queue holds is the longest suffix of the history that the budget allows (`Kept.push`). -/

namespace OpenAgere.Retention

open List

variable {α : Type*}

/-! ### The longest suffix with a property -/

/-- `s` is the longest suffix of `l` with the property. -/
structure LongestSuffix (P : List α → Prop) (l s : List α) : Prop where
  suffix : s <:+ l
  holds : P s
  longest : ∀ t, t <:+ l → P t → t <:+ s

namespace LongestSuffix

variable {P : List α → Prop} {l s t : List α} {x : α}

theorem refl (h : P l) : LongestSuffix P l l := ⟨suffix_rfl, h, fun _ ht _ => ht⟩

theorem of_not_cons (h : ¬ P (x :: l)) (hs : LongestSuffix P l s) : LongestSuffix P (x :: l) s where
  suffix := hs.suffix.trans (suffix_cons x l)
  holds := hs.holds
  longest t ht hp := by
    obtain rfl | ht := suffix_cons_iff.mp ht
    · exact absurd hp h
    · exact hs.longest t ht hp

/-- One more entry: what was left out before stays left out, if the property passes to sublists. -/
theorem concat (hP : ∀ a b, P b → a.Sublist b → P a) (hs : LongestSuffix P l s)
    (ht : LongestSuffix P (s ++ [x]) t) : LongestSuffix P (l ++ [x]) t where
  suffix := ht.suffix.trans ((suffix_append_inj_of_length_eq rfl).mpr ⟨hs.suffix, rfl⟩)
  holds := ht.holds
  longest u hu hp := by
    obtain rfl | ⟨v, rfl, hv⟩ := suffix_concat_iff.mp hu
    · exact nil_suffix
    · have hvs := hs.longest v hv (hP v _ hp (sublist_append_left v [x]))
      exact ht.longest _ (suffix_concat_iff.mpr (Or.inr ⟨v, rfl, hvs⟩)) hp

end LongestSuffix

/-! ### Eviction -/

section Eviction

variable (exceeds : ℕ → ℕ → Bool) (size : α → ℕ)

/-- The total size of the entries. -/
def total (l : List α) : ℕ := (l.map size).sum

/-- The budget allows the entries. -/
def Fits (l : List α) : Prop := exceeds l.length (total size l) = false

/-- Entries leave at the front while the queue is over its budget; the size of an entry that leaves is taken
off the counter. -/
def evict : ℕ → List α → ℕ × List α
  | bytes, [] => (bytes, [])
  | bytes, x :: l => if exceeds (l.length + 1) bytes then evict (bytes - size x) l else (bytes, x :: l)

variable {exceeds size}

@[simp] theorem total_nil : total size [] = 0 := rfl

@[simp] theorem total_cons (x : α) (l : List α) : total size (x :: l) = size x + total size l := rfl

@[simp] theorem total_append (l m : List α) : total size (l ++ m) = total size l + total size m := by
  rw [total, map_append, sum_append]
  rfl

theorem total_le_of_sublist {l m : List α} (h : l.Sublist m) : total size l ≤ total size m :=
  (h.map size).sum_le_sum fun _ _ => Nat.zero_le _

/-- A budget: nothing is over for what is empty, and it is monotone. -/
structure Budget (exceeds : ℕ → ℕ → Bool) : Prop where
  empty : exceeds 0 0 = false
  mono : ∀ n b m c, n ≤ m → b ≤ c → exceeds m c = false → exceeds n b = false

/-- With a counter that is right, eviction leaves the longest suffix within the budget and a counter that
is right. -/
theorem evict_total (hb : Budget exceeds) : ∀ l : List α,
    (evict exceeds size (total size l) l).1 = total size (evict exceeds size (total size l) l).2 ∧
      LongestSuffix (Fits exceeds size) l (evict exceeds size (total size l) l).2
  | [] => ⟨rfl, LongestSuffix.refl hb.empty⟩
  | x :: l => by
    rw [evict]
    cases ho : exceeds (l.length + 1) (total size (x :: l)) with
    | true =>
      rw [if_pos rfl, total_cons, Nat.add_sub_cancel_left]
      obtain ⟨hbytes, hl⟩ := evict_total hb l
      refine ⟨hbytes, hl.of_not_cons fun hf => ?_⟩
      exact absurd (ho.symm.trans hf) (by decide)
    | false =>
      rw [if_neg (by decide)]
      exact ⟨rfl, LongestSuffix.refl ho⟩

variable (exceeds size) in
/-- The queue and its counter, against the history they keep. -/
structure Kept (history queue : List α) (bytes : ℕ) : Prop where
  longest : LongestSuffix (Fits exceeds size) history queue
  bytes_eq : bytes = total size queue

theorem Kept.nil (hb : Budget exceeds) : Kept exceeds size [] [] 0 := ⟨LongestSuffix.refl hb.empty, rfl⟩

/-- **One more entry.** Adding an entry and evicting keeps the longest suffix of the longer history. -/
theorem Kept.push (hb : Budget exceeds) {history queue : List α} {bytes : ℕ} (h : Kept exceeds size history queue bytes)
    (x : α) : Kept exceeds size (history ++ [x]) (evict exceeds size (bytes + size x) (queue ++ [x])).2
      (evict exceeds size (bytes + size x) (queue ++ [x])).1 := by
  have htotal : bytes + size x = total size (queue ++ [x]) := by
    rw [h.bytes_eq, total_append, total_cons, total_nil, Nat.add_zero]
  rw [htotal]
  obtain ⟨hbytes, hlongest⟩ := evict_total hb (queue ++ [x])
  refine ⟨h.longest.concat (fun _ _ hfits hs => ?_) hlongest, hbytes⟩
  exact hb.mono _ _ _ _ hs.length_le (total_le_of_sublist hs) hfits

end Eviction

end OpenAgere.Retention
