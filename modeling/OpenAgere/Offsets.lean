import Mathlib.Tactic

/-! # Offsets in a list of sized items

Items take one or more units each, as the characters of a text take bytes.  An offset counts
units; it is a boundary when it lies between two items.  `indices` lists the offsets at which
items start, `splitAtOffset` cuts at an offset and fails inside an item, and
`exists_last_index` finds the last item that starts at or before an offset. -/

namespace OpenAgere.Offsets

open List Option

variable {α : Type} (size : α → ℕ)

/-- The units of a list. -/
def units (l : List α) : ℕ := (l.map size).sum

/-- The items with the offsets at which they start, counted from `o`. -/
def indices : ℕ → List α → List (ℕ × α)
  | _, [] => []
  | o, a :: l => (o, a) :: indices (o + size a) l

/-- The parts before and after an offset, or nothing when it lies inside an item or behind the
list. -/
def splitAtOffset : List α → ℕ → Option (List α × List α)
  | l, 0 => some ([], l)
  | [], _ + 1 => none
  | a :: l, n + 1 =>
      if size a ≤ n + 1 then (splitAtOffset l (n + 1 - size a)).map fun r => (a :: r.1, r.2) else none

/-- The offset lies between two items, or at an end. -/
def Boundary (l : List α) (n : ℕ) : Prop := ∃ p q, l = p ++ q ∧ units size p = n

@[simp] theorem units_nil : units size ([] : List α) = 0 := rfl

@[simp] theorem units_cons (a : α) (l : List α) : units size (a :: l) = size a + units size l := by
  simp [units]

@[simp] theorem units_append (p q : List α) : units size (p ++ q) = units size p + units size q := by
  simp [units]

variable {size}

theorem length_le_units (hpos : ∀ a, 0 < size a) : ∀ l : List α, l.length ≤ units size l
  | [] => le_rfl
  | a :: l => by
    have := length_le_units hpos l
    have := hpos a
    rw [length_cons, units_cons]
    omega

theorem units_le_length_iff (hpos : ∀ a, 0 < size a) : ∀ l : List α,
    units size l ≤ l.length ↔ ∀ a ∈ l, size a = 1
  | [] => by simp
  | a :: l => by
    have ih := units_le_length_iff hpos l
    have hle := length_le_units hpos l
    have ha := hpos a
    rw [units_cons, length_cons, forall_mem_cons, ← ih]
    omega

theorem prefix_of_units_le (hpos : ∀ a, 0 < size a) {l p q : List α} (hp : p <+: l) (hq : q <+: l)
    (h : units size p ≤ units size q) : p <+: q := by
  rcases prefix_or_prefix_of_prefix hp hq with hpq | ⟨r, rfl⟩
  · exact hpq
  · rw [units_append] at h
    have hr := length_le_units hpos r
    obtain rfl : r = [] := length_eq_zero_iff.mp (by omega)
    rw [append_nil]

theorem splitAtOffset_eq_some (hpos : ∀ a, 0 < size a) : ∀ {l : List α} {n : ℕ} {p q : List α},
    splitAtOffset size l n = some (p, q) ↔ l = p ++ q ∧ units size p = n
  | l, 0, p, q => by
    have hzero : units size p = 0 ↔ p = [] := by
      have := length_le_units hpos p
      rw [← length_eq_zero_iff]
      constructor
      · omega
      · intro h
        rw [length_eq_zero_iff.mp h, units_nil]
    unfold splitAtOffset
    rw [hzero, Option.some.injEq, Prod.mk.injEq]
    constructor
    · rintro ⟨rfl, rfl⟩
      exact ⟨rfl, rfl⟩
    · rintro ⟨h, rfl⟩
      exact ⟨rfl, h⟩
  | [], n + 1, p, q => by
    unfold splitAtOffset
    constructor
    · intro h
      cases h
    · rintro ⟨h, hn⟩
      obtain ⟨rfl, _⟩ := append_eq_nil_iff.mp h.symm
      rw [units_nil] at hn
      omega
  | a :: l, n + 1, p, q => by
    have ha := hpos a
    unfold splitAtOffset
    constructor
    · intro h
      split_ifs at h with hle
      obtain ⟨⟨p', q'⟩, hr, he⟩ := map_eq_some_iff.mp h
      obtain ⟨rfl, rfl⟩ := Prod.mk.inj he
      obtain ⟨rfl, hn⟩ := (splitAtOffset_eq_some hpos).mp hr
      refine ⟨rfl, ?_⟩
      rw [units_cons, hn]
      omega
    · rintro ⟨h, hn⟩
      cases p with
      | nil =>
        rw [units_nil] at hn
        omega
      | cons b p' =>
        rw [cons_append, List.cons.injEq] at h
        obtain ⟨rfl, rfl⟩ := h
        rw [units_cons] at hn
        have hrest : splitAtOffset size (p' ++ q) (n + 1 - size a) = some (p', q) :=
          (splitAtOffset_eq_some hpos).mpr ⟨rfl, by omega⟩
        rw [if_pos (by omega), hrest]
        rfl

theorem isSome_splitAtOffset (hpos : ∀ a, 0 < size a) {l : List α} {n : ℕ} :
    (splitAtOffset size l n).isSome ↔ Boundary size l n := by
  rw [isSome_iff_exists]
  constructor
  · rintro ⟨⟨p, q⟩, hs⟩
    exact ⟨p, q, (splitAtOffset_eq_some hpos).mp hs⟩
  · rintro ⟨p, q, hs⟩
    exact ⟨(p, q), (splitAtOffset_eq_some hpos).mpr hs⟩

/-! ### The offsets of items -/

theorem getElem?_indices (size : α → ℕ) : ∀ (l : List α) (o k : ℕ),
    (((indices size o l)[k]?).map (·.1)).getD (o + units size l) = o + units size (l.take k)
  | [], o, k => by simp [indices]
  | a :: l, o, 0 => by simp [indices]
  | a :: l, o, k + 1 => by
    have ih := getElem?_indices size l (o + size a) k
    unfold indices
    rw [getElem?_cons_succ, take_succ_cons, units_cons, units_cons, ← Nat.add_assoc, ih,
      Nat.add_assoc]

theorem mem_indices : ∀ {l : List α} {o i : ℕ} {a : α},
    (i, a) ∈ indices size o l ↔ ∃ p q, l = p ++ a :: q ∧ i = o + units size p
  | [], o, i, a => by simp [indices]
  | b :: l, o, i, a => by
    unfold indices
    rw [mem_cons, mem_indices]
    constructor
    · rintro (h | ⟨p, q, rfl, rfl⟩)
      · cases h
        exact ⟨[], l, rfl, rfl⟩
      · exact ⟨b :: p, q, rfl, by rw [units_cons, Nat.add_assoc]⟩
    · rintro ⟨p, q, h, rfl⟩
      cases p with
      | nil =>
        cases h
        exact Or.inl rfl
      | cons c p =>
        cases h
        exact Or.inr ⟨p, q, rfl, by rw [units_cons, Nat.add_assoc]⟩

theorem indices_pairwise (size : α → ℕ) : ∀ (l : List α) (o : ℕ),
    (indices size o l).Pairwise fun x y => x.1 ≤ y.1
  | [], _ => List.Pairwise.nil
  | a :: l, o => by
    unfold indices
    refine List.Pairwise.cons ?_ (indices_pairwise size l _)
    rintro ⟨i, b⟩ h
    obtain ⟨p, q, _, rfl⟩ := mem_indices.mp h
    omega

theorem exists_last_index (size : α → ℕ) {l : List α} (hl : l ≠ []) (n : ℕ) :
    ∃ p a q, l = p ++ a :: q ∧ units size p ≤ n ∧
      ((indices size 0 l).reverse.find? fun x => decide (x.1 ≤ n)) = some (units size p, a) ∧
      ∀ i b, (i, b) ∈ indices size 0 l → i ≤ n → i ≤ units size p := by
  obtain ⟨c, l', rfl⟩ := exists_cons_of_ne_nil hl
  have hsome : ((indices size 0 (c :: l')).reverse.find? fun x => decide (x.1 ≤ n)).isSome = true := by
    rw [find?_isSome]
    exact ⟨(0, c), by simp [indices], by simp⟩
  obtain ⟨⟨i, a⟩, hf⟩ := isSome_iff_exists.mp hsome
  have hmem := mem_of_find?_eq_some hf
  rw [mem_reverse] at hmem
  obtain ⟨p, q, hpq, hi⟩ := mem_indices.mp hmem
  rw [Nat.zero_add] at hi
  subst hi
  obtain ⟨hle, as, bs, hsplit, has⟩ := find?_eq_some_iff_append.mp hf
  refine ⟨p, a, q, hpq, by simpa using hle, hf, ?_⟩
  intro j b hj hjn
  have hpw := pairwise_reverse.mpr (indices_pairwise size (c :: l') 0)
  rw [hsplit] at hpw
  rw [← mem_reverse, hsplit] at hj
  rcases mem_append.mp hj with hj | hj
  · have := has (j, b) hj
    simp at this
    omega
  · rcases mem_cons.mp hj with hj | hj
    · cases hj
      exact le_rfl
    · exact (pairwise_cons.mp (pairwise_append.mp hpw).2.1).1 (j, b) hj

end OpenAgere.Offsets
