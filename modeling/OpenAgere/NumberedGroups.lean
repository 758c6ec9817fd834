import Mathlib.Data.List.ReduceOption
import Mathlib.Logic.Relation

/-! # Numbers from a counter that is set back

Groups of entries, some of which have a number given out by a counter.  Entries are added to the last
group with the next number, or to any group without a number; when the last groups are cut off, the
counter is set to one more than the number of entries that are left.  The numbers stay distinct all the
same: a number is never greater than the number of entries up to and in its group
(`Numbered`, `Numbered.of_evolves`). -/

namespace OpenAgere.NumberedGroups

open List

/-- Groups of entries, each with its number if it has one. -/
abbrev Groups := List (List (Option ℕ))

/-- What can happen to the groups and to the counter. -/
inductive Evolve : Groups × ℕ → Groups × ℕ → Prop where
  | opened (groups : Groups) (next : ℕ) : Evolve (groups, next) (groups ++ [[]], next)
  | dropped (groups : Groups) (next : ℕ) : Evolve (groups ++ [[]], next) (groups, next)
  | numbered (groups : Groups) (group : List (Option ℕ)) (next : ℕ) :
      Evolve (groups ++ [group], next) (groups ++ [group ++ [some next]], next + 1)
  | unnumbered (before after : Groups) (group : List (Option ℕ)) (next : ℕ) :
      Evolve (before ++ group :: after, next) (before ++ (group ++ [none]) :: after, next)
  | cut (groups : Groups) (k next : ℕ) :
      Evolve (groups, next) (groups.take k, (groups.take k).flatten.length + 1)

/-- Any number of changes. -/
abbrev Evolves := Relation.ReflTransGen Evolve

/-- With `base` entries before them, no number in the groups is greater than the number of entries up to
and in its group. -/
def Bounded : ℕ → Groups → Prop
  | _, [] => True
  | base, group :: groups =>
      (∀ n, some n ∈ group → n ≤ base + group.length) ∧ Bounded (base + group.length) groups

theorem bounded_append : ∀ (before after : Groups) (base : ℕ),
    Bounded base (before ++ after) ↔ Bounded base before ∧ Bounded (base + before.flatten.length) after
  | [], after, base => by simp [Bounded]
  | group :: before, after, base => by
    show (_ ∧ Bounded _ (before ++ after)) ↔ (_ ∧ Bounded _ before) ∧ _
    rw [bounded_append before after, flatten_cons, length_append, Nat.add_assoc, and_assoc]

theorem bounded_mono : ∀ {groups : Groups} {base base' : ℕ}, base ≤ base' → Bounded base groups →
    Bounded base' groups
  | [], _, _, _, _ => trivial
  | group :: groups, base, base', hle, h => by
    refine ⟨fun n hn => ?_, bounded_mono (by omega) h.2⟩
    have := h.1 n hn
    omega

theorem le_of_bounded : ∀ {groups : Groups} {base n : ℕ}, Bounded base groups → some n ∈ groups.flatten →
    n ≤ base + groups.flatten.length
  | group :: groups, base, n, h, hn => by
    rw [flatten_cons] at hn ⊢
    rw [length_append]
    obtain hn | hn := mem_append.mp hn
    · have := h.1 n hn
      omega
    · have := le_of_bounded h.2 hn
      omega

/-- The invariant of groups and counter. -/
structure Numbered (groups : Groups) (next : ℕ) : Prop where
  bounded : Bounded 0 groups
  room : next ≤ groups.flatten.length + 1
  fresh : ∀ n, some n ∈ groups.flatten → n < next
  nodup : groups.flatten.reduceOption.Nodup

theorem numbered_nil : Numbered [] 1 := ⟨trivial, by simp, by simp, by simp [List.reduceOption]⟩

theorem Numbered.push {groups : Groups} {group : List (Option ℕ)} {next : ℕ}
    (h : Numbered (groups ++ [group]) next) : Numbered (groups ++ [group ++ [some next]]) (next + 1) := by
  have hflatten : (groups ++ [group ++ [some next]]).flatten = (groups ++ [group]).flatten ++ [some next] := by
    simp
  have hroom := h.room
  obtain ⟨hbefore, hgroup⟩ := (bounded_append groups [group] 0).mp h.bounded
  constructor
  · refine (bounded_append _ _ _).mpr ⟨hbefore, fun n hn => ?_, trivial⟩
    rw [length_append]
    obtain hn | hn := mem_append.mp hn
    · have := hgroup.1 n hn
      omega
    · obtain rfl : n = next := Option.some.inj (mem_singleton.mp hn)
      simp only [flatten_append, flatten_cons, flatten_nil, length_append,
        length_nil] at hroom
      simp only [length_singleton]
      omega
  · rw [hflatten, length_append]
    simp only [length_singleton]
    omega
  · intro n hn
    rw [hflatten] at hn
    obtain hn | hn := mem_append.mp hn
    · have := h.fresh n hn
      omega
    · obtain rfl : n = next := Option.some.inj (mem_singleton.mp hn)
      omega
  · rw [hflatten, reduceOption_append]
    refine nodup_append.mpr ⟨h.nodup, by simp [List.reduceOption], fun a ha b hb hab => ?_⟩
    have hfresh := h.fresh a (reduceOption_mem_iff.mp ha)
    have hnext : b = next := by simpa [List.reduceOption] using hb
    omega

theorem Numbered.insert {before after : Groups} {group : List (Option ℕ)} {next : ℕ}
    (h : Numbered (before ++ group :: after) next) : Numbered (before ++ (group ++ [none]) :: after) next := by
  have hmem : ∀ n, some n ∈ (before ++ (group ++ [none]) :: after).flatten ↔
      some n ∈ (before ++ group :: after).flatten := by
    intro n
    simp
  have hroom := h.room
  obtain ⟨hbefore, hgroup, hafter⟩ := (bounded_append before (group :: after) 0).mp h.bounded
  constructor
  · refine (bounded_append _ _ _).mpr ⟨hbefore, fun n hn => ?_, ?_⟩
    · have hn' : some n ∈ group := by simpa using hn
      have := hgroup n hn'
      rw [length_append]
      omega
    · refine bounded_mono ?_ hafter
      rw [length_append]
      omega
  · simp only [flatten_append, flatten_cons, length_append, length_singleton] at hroom ⊢
    omega
  · intro n hn
    exact h.fresh n ((hmem n).mp hn)
  · have hnodup := h.nodup
    simp only [flatten_append, flatten_cons, reduceOption_append] at hnodup ⊢
    simpa [List.reduceOption] using hnodup

theorem Numbered.cut {groups : Groups} {next : ℕ} (h : Numbered groups next) (k : ℕ) :
    Numbered (groups.take k) ((groups.take k).flatten.length + 1) := by
  have hsplit : groups.take k ++ groups.drop k = groups := take_append_drop k groups
  have hbounded := h.bounded
  have hnodup := h.nodup
  rw [← hsplit] at hbounded hnodup
  have hkept := ((bounded_append _ _ _).mp hbounded).1
  refine ⟨hkept, Nat.le_refl _, fun n hn => ?_, ?_⟩
  · have := le_of_bounded hkept hn
    omega
  · rw [flatten_append, reduceOption_append] at hnodup
    exact (nodup_append.mp hnodup).1

theorem Numbered.of_evolve {s t : Groups × ℕ} (hstep : Evolve s t) (h : Numbered s.1 s.2) : Numbered t.1 t.2 := by
  cases hstep with
  | opened groups next =>
    refine ⟨(bounded_append _ _ _).mpr ⟨h.bounded, by simp [Bounded]⟩, ?_, ?_, ?_⟩
    · simpa using h.room
    · simpa using h.fresh
    · simpa using h.nodup
  | dropped groups next =>
    refine ⟨((bounded_append _ _ _).mp h.bounded).1, ?_, ?_, ?_⟩
    · simpa using h.room
    · simpa using h.fresh
    · simpa using h.nodup
  | numbered groups group next => exact h.push
  | unnumbered before after group next => exact h.insert
  | cut groups k next => exact h.cut k

/-- **The numbers stay distinct**, and the counter stays ahead of them. -/
theorem Numbered.of_evolves {s t : Groups × ℕ} (hsteps : Evolves s t) (h : Numbered s.1 s.2) : Numbered t.1 t.2 := by
  induction hsteps with
  | refl => exact h
  | tail _ hstep ih => exact Numbered.of_evolve hstep ih

end OpenAgere.NumberedGroups
