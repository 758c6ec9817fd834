import Mathlib.Data.List.Basic

/-! # Stacks with undo, read backwards

A stack on which entries are pushed, and from which the newest entries are taken until a number of
entries that count is taken.  The same stack is found by reading the moves from the last to the first and
counting the undos that are pending: an entry stays exactly when none is pending where it was pushed
(`stackOf_eq_kept`). -/

namespace OpenAgere.UndoStack

variable {α β : Type}

inductive Move (α : Type) where
  | push (a : α)
  | undo (n : ℕ)
deriving DecidableEq, Repr

variable (counts : α → Bool)

/-- Take the newest entries, up to and with the `n`-th that counts; all entries if there are fewer. -/
def undo : ℕ → List α → List α
  | 0, stack => stack
  | _ + 1, [] => []
  | n + 1, a :: stack => undo (if counts a then n else n + 1) stack

def step (stack : List α) : Move α → List α
  | .push a => a :: stack
  | .undo n => undo counts n stack

/-- The stack after all moves, the newest entry first. -/
def stackOf (moves : List (Move α)) : List α := moves.foldl (step counts) []

/-- The entries from the newest to the oldest with the undos pending at each, and what is pending at the
end. -/
def readBack : List (Move α) → List (α × ℕ) × ℕ
  | [] => ([], 0)
  | .push a :: after =>
      ((readBack after).1 ++ [(a, (readBack after).2)],
        if counts a then (readBack after).2 - 1 else (readBack after).2)
  | .undo n :: after => ((readBack after).1, (readBack after).2 + n)

def kept (read : List (α × ℕ)) : List α := (read.filter fun e => e.2 = 0).map (·.1)

@[simp] theorem undo_zero (stack : List α) : undo counts 0 stack = stack := by
  cases stack <;> rfl

@[simp] theorem undo_nil : ∀ n : ℕ, undo counts n [] = []
  | 0 => rfl
  | _ + 1 => rfl

theorem undo_cons_of_pos {n : ℕ} (h : 0 < n) (a : α) (stack : List α) :
    undo counts n (a :: stack) = undo counts (if counts a then n - 1 else n) stack := by
  obtain ⟨m, rfl⟩ : ∃ m, n = m + 1 := ⟨n - 1, by omega⟩
  rfl

theorem undo_undo : ∀ (stack : List α) (m n : ℕ), undo counts m (undo counts n stack) = undo counts (m + n) stack
  | [], m, n => by simp
  | a :: stack, m, n => by
    by_cases hn : 0 < n
    · rw [undo_cons_of_pos counts hn, undo_cons_of_pos counts (by omega : 0 < m + n), undo_undo stack]
      congr 1
      split_ifs <;> omega
    · obtain rfl : n = 0 := by omega
      rw [undo_zero, Nat.add_zero]

theorem kept_append (read more : List (α × ℕ)) : kept (read ++ more) = kept read ++ kept more := by
  unfold kept
  rw [List.filter_append, List.map_append]

/-- The stack after the moves: what they leave of their own pushes, over what they leave of the stack
before. -/
theorem foldl_step_eq : ∀ (moves : List (Move α)) (stack : List α), moves.foldl (step counts) stack =
    kept (readBack counts moves).1 ++ undo counts (readBack counts moves).2 stack
  | [], stack => (undo_zero counts stack).symm
  | .undo n :: after, stack => by
    show after.foldl (step counts) (undo counts n stack) = _
    rw [foldl_step_eq after, undo_undo]
    rfl
  | .push a :: after, stack => by
    show after.foldl (step counts) (a :: stack) = _
    rw [foldl_step_eq after]
    show _ = kept (_ ++ [(a, (readBack counts after).2)]) ++ undo counts (if counts a then _ else _) stack
    rw [kept_append, List.append_assoc]
    by_cases hpending : 0 < (readBack counts after).2
    · have hgone : kept [(a, (readBack counts after).2)] = [] := by
        simp [kept, Nat.ne_of_gt hpending]
      rw [undo_cons_of_pos counts hpending, hgone, List.nil_append]
    · have hzero : (readBack counts after).2 = 0 := by omega
      rw [hzero, undo_zero]
      split_ifs <;> simp [kept]

/-- **Reading backwards finds the stack.** -/
theorem stackOf_eq_kept (moves : List (Move α)) : stackOf counts moves = kept (readBack counts moves).1 := by
  unfold stackOf
  rw [foldl_step_eq, undo_nil, List.append_nil]

/-- The first fitting entry of the stack is the first fitting one that is read with nothing pending. -/
theorem findSome?_kept (f : α → Option β) : ∀ read : List (α × ℕ),
    (kept read).findSome? f = read.findSome? fun e => if e.2 = 0 then f e.1 else none
  | [] => rfl
  | (a, n) :: read => by
    have ih := findSome?_kept f read
    unfold kept at ih ⊢
    by_cases hn : n = 0
    · simp [hn, List.findSome?_cons, ih]
    · simp [hn, ih]

end OpenAgere.UndoStack
