import Mathlib.Order.Bounds.Basic
import OpenAgere.HashMap

/-! # Reordering numbered items

A buffer that releases numbered items in the order of their numbers: an item that comes early waits under
its number, and each arrival releases all items that are next in turn (`takeReady`).  What has been released
are the items up to the largest number below which nothing is missing (`Buffered.isGreatest`). -/

namespace OpenAgere.Reorder

variable {α : Type} {value : ℕ → α} {arrived : ℕ → Prop} {last : ℕ} {pending : HashMap ℕ α}

/-- Take the items that are next in turn out of the buffer, with the number of the last one.  Each round
takes an entry out, so the size of the buffer is enough fuel. -/
def takeReady : ℕ → ℕ → HashMap ℕ α → List α × ℕ × HashMap ℕ α
  | 0, last, pending => ([], last, pending)
  | fuel + 1, last, pending =>
      match pending.get (last + 1) with
      | none => ([], last, pending)
      | some item =>
          let rest := takeReady fuel (last + 1) (pending.remove (last + 1))
          (item :: rest.1, rest.2)

/-- The items that wait are those that have arrived and were not released. -/
def Waiting (value : ℕ → α) (arrived : ℕ → Prop) (last : ℕ) (pending : HashMap ℕ α) : Prop :=
  ∀ n item, pending.get n = some item ↔ last < n ∧ arrived n ∧ item = value n

/-- What a buffer holds when everything that was in turn has been released. -/
structure Buffered (value : ℕ → α) (arrived : ℕ → Prop) (last : ℕ) (pending : HashMap ℕ α) : Prop where
  released : ∀ n, 0 < n → n ≤ last → arrived n
  missing : ¬ arrived (last + 1)
  waiting : Waiting value arrived last pending

theorem Buffered.empty : Buffered value (fun _ => False) 0 HashMap.empty where
  released n hpos hle := by omega
  missing h := h
  waiting _ _ := ⟨(nomatch ·), fun h => h.2.1.elim⟩

/-- Nothing is missing below the last number released, and the next number is missing. -/
theorem Buffered.isGreatest (h : Buffered value arrived last pending) :
    IsGreatest {k | ∀ n, 0 < n → n ≤ k → arrived n} last := by
  refine ⟨h.released, fun k hk => ?_⟩
  by_contra hlt
  exact h.missing (hk (last + 1) (Nat.succ_pos last) (by omega))

theorem Buffered.last_le {m : ℕ} (h : Buffered value arrived last pending) (hbound : ∀ n, arrived n → n ≤ m) :
    last ≤ m := by
  obtain rfl | hpos := Nat.eq_zero_or_pos last
  · exact Nat.zero_le m
  · exact hbound last (h.released last hpos (Nat.le_refl _))

theorem Buffered.congr {arrived' : ℕ → Prop} (h : Buffered value arrived last pending)
    (harrived : ∀ n, arrived' n ↔ arrived n) : Buffered value arrived' last pending := by
  obtain rfl : arrived' = arrived := funext fun n => propext (harrived n)
  exact h

theorem Waiting.insert {n : ℕ} (h : Waiting value arrived last pending) (hn : last < n) :
    Waiting value (fun m => m = n ∨ arrived m) last
      (if pending.containsKey n then pending else pending.insert n (value n)) := by
  intro m item
  cases hkey : pending.containsKey n with
  | true =>
    obtain ⟨other, hother⟩ := Option.isSome_iff_exists.mp (HashMap.get_isSome.trans hkey)
    have harrived := ((h n other).mp hother).2.1
    rw [if_pos rfl, h m item]
    refine and_congr_right fun _ => and_congr_left fun _ => ⟨Or.inr, ?_⟩
    rintro (rfl | hm)
    · exact harrived
    · exact hm
  | false =>
    have hnone : ¬ arrived n := fun harrived =>
      nomatch ((h n (value n)).mpr ⟨hn, harrived, rfl⟩).symm.trans (HashMap.get_eq_none.mpr hkey)
    rw [if_neg (by decide), HashMap.get_insert]
    split_ifs with hm
    · subst hm
      exact ⟨fun heq => ⟨hn, Or.inl rfl, (Option.some.inj heq).symm⟩, fun heq => congrArg some heq.2.2.symm⟩
    · rw [h m item]
      exact and_congr_right fun _ => and_congr_left fun _ => ⟨Or.inr, fun hor => hor.resolve_left hm⟩

theorem Waiting.remove (h : Waiting value arrived last pending) :
    Waiting value arrived (last + 1) (pending.remove (last + 1)) := by
  intro m item
  rw [HashMap.get_remove_eq_some, h m item, ← and_assoc]
  refine and_congr_left fun _ => ?_
  omega

/-- **The loop releases everything that is in turn**, in order. -/
theorem takeReady_spec : ∀ {fuel last : ℕ} {pending : HashMap ℕ α}, Waiting value arrived last pending →
    (∀ n, 0 < n → n ≤ last → arrived n) → pending.entries.length ≤ fuel →
    ∃ count pending', takeReady fuel last pending = ((List.range' (last + 1) count).map value, last + count, pending') ∧
      Buffered value arrived (last + count) pending'
  | 0, last, pending, h, hreleased, hfuel => by
    have hempty : pending.get (last + 1) = none := by
      rw [HashMap.get, List.eq_nil_of_length_eq_zero (Nat.le_zero.mp hfuel)]
      rfl
    refine ⟨0, pending, rfl, hreleased, fun harrived => ?_, h⟩
    exact nomatch ((h _ _).mpr ⟨Nat.lt_succ_self last, harrived, rfl⟩).symm.trans hempty
  | fuel + 1, last, pending, h, hreleased, hfuel => by
    cases hget : pending.get (last + 1) with
    | none =>
      refine ⟨0, pending, by rw [takeReady, hget]; rfl, hreleased, fun harrived => ?_, h⟩
      exact nomatch ((h _ _).mpr ⟨Nat.lt_succ_self last, harrived, rfl⟩).symm.trans hget
    | some item =>
      obtain ⟨-, harrived, rfl⟩ := (h _ _).mp hget
      have hsize := (HashMap.entries_perm_of_get hget).length_eq
      rw [List.length_cons] at hsize
      have hreleased' : ∀ n, 0 < n → n ≤ last + 1 → arrived n := by
        intro n hpos hle
        obtain hle | rfl := Nat.le_succ_iff.mp hle
        · exact hreleased n hpos hle
        · exact harrived
      have hfuel' : (pending.remove (last + 1)).entries.length ≤ fuel := by omega
      obtain ⟨count, pending', heq, hbuffered⟩ := takeReady_spec h.remove hreleased' hfuel'
      have hlast : last + 1 + count = last + (count + 1) := by omega
      rw [hlast] at heq hbuffered
      refine ⟨count + 1, pending', ?_, hbuffered⟩
      rw [takeReady, hget]
      simp only [heq]
      rw [List.range'_succ, List.map_cons]

theorem Buffered.stale {n : ℕ} (h : Buffered value arrived last pending) (hpos : 0 < n) (hn : n ≤ last) :
    Buffered value (fun m => m = n ∨ arrived m) last pending := by
  refine h.congr fun m => ⟨?_, Or.inr⟩
  rintro (rfl | hm)
  · exact h.released m hpos hn
  · exact hm

/-- **One arrival.** -/
theorem Buffered.arrive {n : ℕ} (h : Buffered value arrived last pending) (hn : last < n) :
    let kept := if pending.containsKey n then pending else pending.insert n (value n)
    ∃ count pending', takeReady kept.entries.length last kept =
        ((List.range' (last + 1) count).map value, last + count, pending') ∧
      Buffered value (fun m => m = n ∨ arrived m) (last + count) pending' :=
  takeReady_spec (h.waiting.insert hn) (fun m hpos hle => Or.inr (h.released m hpos hle)) (Nat.le_refl _)

end OpenAgere.Reorder
