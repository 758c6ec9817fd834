import Mathlib.Data.List.Basic
import Mathlib.Tactic.Common

/-! # A broadcast channel

A channel that keeps the last `capacity` values for any number of receivers.  A receiver is the position of
the next value it takes.  One that has fallen behind the values kept is told how many it missed and goes on
with the oldest value kept.

The values sent are a list that only grows, so that what a receiver may still see is a part of it. -/

namespace OpenAgere

/-- The sending side: its capacity and every value sent so far. -/
structure Broadcast (α : Type*) where
  capacity : ℕ
  sent : List α
deriving DecidableEq, Repr

namespace Broadcast

/-- What `recv` returns. -/
inductive Received (α : Type*) where
  | value (value : α)
  | lagged (skipped : ℕ)
deriving DecidableEq, Repr

variable {α : Type*}

def channel (capacity : ℕ) : Broadcast α := ⟨capacity, []⟩

def send (tx : Broadcast α) (value : α) : Broadcast α := { tx with sent := tx.sent ++ [value] }

/-- A new receiver sees what is sent from now on. -/
def subscribe (tx : Broadcast α) : ℕ := tx.sent.length

/-- The position of the oldest value kept. -/
def oldest (tx : Broadcast α) : ℕ := tx.sent.length - tx.capacity

/-- The next value for a receiver and its position afterwards, or `none` while it has to wait. -/
def recv (tx : Broadcast α) (position : ℕ) : Option (Received α × ℕ) :=
  if position < tx.oldest then some (.lagged (tx.oldest - position), tx.oldest)
  else tx.sent[position]?.map fun value => (.value value, position + 1)

variable {tx : Broadcast α} {value : α} {position position' skipped : ℕ}

theorem oldest_le : tx.oldest ≤ tx.sent.length := Nat.sub_le _ _

theorem recv_value (h : tx.recv position = some (.value value, position')) :
    tx.sent[position]? = some value ∧ position' = position + 1 := by
  unfold recv at h
  split at h
  · simp at h
  · obtain ⟨v, hv, h⟩ := Option.map_eq_some_iff.mp h
    obtain ⟨hval, rfl⟩ := Prod.mk.inj h
    obtain rfl := Received.value.inj hval
    exact ⟨hv, rfl⟩

/-- A receiver that has fallen behind goes on with the oldest value kept. -/
theorem recv_lagged (h : tx.recv position = some (.lagged skipped, position')) :
    position < tx.oldest ∧ position' = tx.oldest := by
  unfold recv at h
  split at h
  · next hlt =>
      obtain ⟨_, rfl⟩ := Prod.mk.inj (Option.some.inj h)
      exact ⟨hlt, rfl⟩
  · obtain ⟨v, hv, h⟩ := Option.map_eq_some_iff.mp h
    simp at h

end Broadcast

end OpenAgere
