import OpenAgere.Replacements

/-! # The regions that an update replaces

Computing the replacements of an update and carrying them out stays within bounds, whatever the chunks
(`replacements_within_bounds`).  For chunks with old lines and without the mark for the end of the file, the regions are
exchanged in one pass, in the order of the chunks (`applied_in_one_pass`). -/

namespace OpenAgere.ApplyPatch

open List

variable {ls pattern : List Str} {start : ℕ} {eof : Bool}

/-! ### Computations that do not panic -/

section Safe

variable {α β : Type} {P Q : α → Prop} {x : Derive α}

/-- The computation does not panic, and a value that it returns has the property. -/
def Safe (P : α → Prop) : Derive α → Prop
  | .ok a => P a
  | .error .panic => False
  | .error (.error _) => True

theorem Safe.bind {R : β → Prop} {f : α → Derive β} (hx : Safe P x) (hf : ∀ a, P a → Safe R (f a)) :
    Safe R (x >>= f) := by
  cases x with
  | ok a => exact hf a hx
  | error e =>
    cases e with
    | panic => exact hx
    | error e => trivial

theorem Safe.mono (hx : Safe P x) (h : ∀ a, P a → Q a) : Safe Q x := by
  have hpure := hx.bind (f := pure) h
  rwa [bind_pure] at hpure

end Safe

/-! ### Seeking -/

/-- What is found is a window of the file, from a position on. -/
def Found (ls pattern : List Str) (start : ℕ) (found : Option ℕ) : Prop :=
  ∀ k ∈ found, start ≤ k ∧ k + pattern.length ≤ ls.length

theorem seekPass_safe (norm : Str → Str) (ls pattern : List Str) : ∀ n i : ℕ,
    (∀ k < n, i + k + pattern.length ≤ ls.length) → Safe (Found ls pattern i) (seekPass norm ls pattern i n)
  | 0, _, _ => fun k hk => by cases hk
  | n + 1, i, h => by
    have hin : i + pattern.length ≤ ls.length := h 0 (Nat.succ_pos n)
    have hrest := seekPass_safe norm ls pattern n (i + 1) fun k hk => by
      have := h (k + 1) (Nat.succ_lt_succ hk)
      omega
    rw [seekPass, slice, if_pos hin]
    refine Safe.bind (P := fun _ => True) trivial fun window _ => ?_
    split_ifs
    · rintro k ⟨⟩
      exact ⟨le_rfl, hin⟩
    · exact hrest.mono fun found hfound k hk => ⟨Nat.le_of_succ_le (hfound k hk).1, (hfound k hk).2⟩

theorem seekLoop_safe {i n : ℕ} (h : ∀ norm, Safe (Found ls pattern i) (seekPass norm ls pattern i n)) :
    ∀ norms : List (Str → Str), Safe (Found ls pattern i) (seekLoop ls pattern i n norms)
  | [] => fun k hk => by cases hk
  | norm :: norms => by
    refine (h norm).bind fun found hfound => ?_
    cases found with
    | some k => exact hfound
    | none => exact seekLoop_safe h norms

/-- A search that begins within the file; the mark for the end of the file makes it forget where it began. -/
theorem seekSequence_safe (hstart : start ≤ ls.length) :
    Safe (Found ls pattern (if eof then 0 else start)) (seekSequence ls pattern start eof) := by
  rw [seekSequence]
  by_cases hempty : pattern.isEmpty
  · rw [if_pos hempty]
    rintro k ⟨⟩
    rw [isEmpty_iff.mp hempty]
    exact ⟨by split <;> omega, hstart⟩
  rw [if_neg hempty]
  by_cases hlong : pattern.length > ls.length
  · rw [if_pos hlong]
    exact fun k hk => by cases hk
  rw [if_neg hlong]
  refine (seekLoop_safe (fun norm => seekPass_safe norm ls pattern _ _ fun k hk => by omega) seekLevels).mono ?_
  intro found hfound k hk
  refine ⟨le_trans ?_ (hfound k hk).1, (hfound k hk).2⟩
  cases eof with
  | true => exact Nat.zero_le _
  | false => exact (if_neg fun h => Bool.false_ne_true h.1).ge

/-! ### The chunks -/

/-- The new lines that a chunk puts into the file: all of them, or all but an empty last one. -/
def Puts (chunk : UpdateFileChunk) (r : Replacement) : Prop :=
  r.newLines = chunk.newLines ∨ endsEmpty chunk.newLines ∧ r.newLines = chunk.newLines.dropLast

/-- What one round of the loop over the chunks adds, when it begins at `lineIndex` and ends at `next`. -/
structure Placed (ls : List Str) (lineIndex : ℕ) (chunk : UpdateFileChunk) (r : Replacement) (next : ℕ) : Prop where
  within : r.start + r.oldLen ≤ ls.length
  next_le : next ≤ ls.length
  ordered : chunk.isEndOfFile = false → chunk.oldLines ≠ [] → lineIndex ≤ r.start ∧ next = r.start + r.oldLen
  puts : Puts chunk r

theorem seekContext_safe (path : AbsolutePath) {lineIndex : ℕ} (hle : lineIndex ≤ ls.length) (context : Option Str) :
    Safe (fun i => lineIndex ≤ i ∧ i ≤ ls.length) (seekContext ls path lineIndex context) := by
  cases context with
  | none => exact ⟨le_rfl, hle⟩
  | some context =>
    refine (seekSequence_safe hle).bind fun found hfound => ?_
    cases found with
    | none => trivial
    | some i =>
      obtain ⟨hstart, hin⟩ := hfound i rfl
      exact ⟨Nat.le_succ_of_le hstart, hin⟩

theorem replaceChunk_safe (path : AbsolutePath) {s : List Replacement × ℕ} (hle : s.2 ≤ ls.length)
    (chunk : UpdateFileChunk) : Safe (fun s' => ∃ r, s'.1 = s.1 ++ [r] ∧ Placed ls s.2 chunk r s'.2)
      (replaceChunk ls path s chunk) := by
  refine (seekContext_safe path hle chunk.changeContext).bind fun i ⟨hsi, hil⟩ => ?_
  by_cases hempty : chunk.oldLines.isEmpty
  · rw [if_pos hempty]
    refine ⟨_, rfl, ?_, hil, fun _ hne => absurd (isEmpty_iff.mp hempty) hne, .inl rfl⟩
    show (if endsEmpty ls then ls.length - 1 else ls.length) + 0 ≤ ls.length
    split <;> omega
  rw [if_neg hempty]
  have hordered : ∀ {k : ℕ}, (if chunk.isEndOfFile then 0 else i) ≤ k → chunk.isEndOfFile = false → s.2 ≤ k := by
    intro k hk heof
    rw [heof] at hk
    exact hsi.trans hk
  refine (seekSequence_safe hil).bind fun found hfound => ?_
  by_cases hretry : found.isNone ∧ endsEmpty chunk.oldLines
  · simp only [if_pos hretry]
    refine (seekSequence_safe hil).bind fun again hagain => ?_
    cases again with
    | none => trivial
    | some k =>
      obtain ⟨hstart, hin⟩ := hagain k rfl
      refine ⟨_, rfl, hin, hin, fun heof _ => ⟨hordered hstart heof, rfl⟩, ?_⟩
      by_cases hends : endsEmpty chunk.newLines
      · exact .inr ⟨hends, if_pos ⟨hretry, hends⟩⟩
      · exact .inl (if_neg fun h => hends h.2)
  · simp only [if_neg hretry]
    cases found with
    | none => trivial
    | some k =>
      obtain ⟨hstart, hin⟩ := hfound k rfl
      refine ⟨_, rfl, hin, hin, fun heof _ => ⟨hordered hstart heof, rfl⟩, .inl ?_⟩
      simp only [if_neg (mt And.left hretry)]

/-- Regions of the file one behind the other, from a position on. -/
def Chained (ls : List Str) : ℕ → List Replacement → Prop
  | _, [] => True
  | i, r :: rs => i ≤ r.start ∧ r.start + r.oldLen ≤ ls.length ∧ Chained ls (r.start + r.oldLen) rs

/-- What the loop over the chunks adds: regions of the file, which are chained if the chunks are plain. -/
structure Regions (ls : List Str) (lineIndex : ℕ) (chunks : List UpdateFileChunk) (rs : List Replacement) : Prop where
  within : ∀ r ∈ rs, r.start + r.oldLen ≤ ls.length
  puts : List.Forall₂ Puts chunks rs
  chained : (∀ chunk ∈ chunks, chunk.isEndOfFile = false ∧ chunk.oldLines ≠ []) → Chained ls lineIndex rs

theorem replaceChunks_safe (path : AbsolutePath) : ∀ (chunks : List UpdateFileChunk) (s : List Replacement × ℕ),
    s.2 ≤ ls.length → Safe (fun s' => ∃ rs, s'.1 = s.1 ++ rs ∧ Regions ls s.2 chunks rs)
      (replaceChunks ls path chunks s)
  | [], s, _ => ⟨[], (append_nil _).symm, by simp, .nil, fun _ => trivial⟩
  | chunk :: chunks, s, hle => by
    refine (replaceChunk_safe path hle chunk).bind fun s' ⟨r, hs', hplaced⟩ => ?_
    refine (replaceChunks_safe path chunks s' hplaced.next_le).mono fun s'' ⟨rs, hs'', hregions⟩ => ?_
    refine ⟨r :: rs, by rw [hs'', hs', append_assoc]; rfl, ?_, .cons hplaced.puts hregions.puts, fun hplain => ?_⟩
    · exact forall_mem_cons.mpr ⟨hplaced.within, hregions.within⟩
    · obtain ⟨⟨heof, hold⟩, hplain⟩ := forall_mem_cons.mp hplain
      obtain ⟨hstart, hnext⟩ := hplaced.ordered heof hold
      exact ⟨hstart, hplaced.within, hnext ▸ hregions.chained hplain⟩

/-- The regions in the order of the chunks, and then of their starts. -/
theorem computeReplacements_safe (path : AbsolutePath) (chunks : List UpdateFileChunk) :
    Safe (fun rs => ∃ placed, rs = placed.insertionSort (·.start ≤ ·.start) ∧ Regions ls 0 chunks placed)
      (computeReplacements ls path chunks) := by
  refine (replaceChunks_safe path chunks ([], 0) (Nat.zero_le _)).bind fun s ⟨rs, hs, hregions⟩ => ?_
  exact ⟨rs, by rw [hs]; rfl, hregions⟩

/-! ### Carrying out the replacements -/

theorem removeLines_eq : ∀ (n : ℕ) (ls : List Str), start ≤ ls.length →
    removeLines start n ls = ls.take start ++ ls.drop (start + n)
  | 0, ls, _ => (take_append_drop start ls).symm
  | n + 1, ls, h => by
    rw [removeLines]
    split_ifs with hlt
    · have hlen : (ls.take start).length = start := length_take_of_le h
      rw [eraseIdx_eq_take_drop_succ, removeLines_eq n _ (by simp [hlen]), take_left' hlen,
        ← drop_drop, drop_left' hlen, drop_drop, Nat.add_assoc, Nat.add_comm 1]
    · have hlast : start = ls.length := by omega
      rw [removeLines_eq n ls h, drop_of_length_le (by omega), drop_of_length_le (by omega)]

theorem insertIdx_eq (l : Str) : ∀ (i : ℕ) (ls : List Str), i ≤ ls.length →
    ls.insertIdx i l = ls.take i ++ [l] ++ ls.drop i
  | 0, _, _ => rfl
  | i + 1, a :: ls, h => congrArg (a :: ·) (insertIdx_eq l i ls (Nat.le_of_succ_le_succ h))

theorem insertLines_eq : ∀ (new : List Str) (i : ℕ) (ls : List Str), i ≤ ls.length →
    insertLines i new ls = .ok (ls.take i ++ new ++ ls.drop i)
  | [], i, ls, _ => by rw [insertLines, append_nil, take_append_drop]
  | l :: new, i, ls, h => by
    have hlen : (ls.take i ++ [l]).length = i + 1 := by simp [h]
    rw [insertLines, if_pos h, insertIdx_eq l i ls h, insertLines_eq new (i + 1) _ (by rw [length_append]; omega),
      take_left' hlen,
      drop_left' hlen, append_assoc (ls.take i) [l] new]
    rfl

theorem replaceRegion_eq {r : Replacement} (h : r.start ≤ ls.length) :
    insertLines r.start r.newLines (removeLines r.start r.oldLen ls) =
      .ok (ls.take r.start ++ r.newLines ++ ls.drop (r.start + r.oldLen)) := by
  have hlen : (ls.take r.start).length = r.start := length_take_of_le h
  rw [removeLines_eq _ _ h, insertLines_eq _ _ _ (by simp [hlen]), take_left' hlen, drop_left' hlen]

/-- Sorted replacements within the file: no later one shortens the lines below where it starts. -/
theorem applyReplacements_safe : ∀ rs : List Replacement, rs.Pairwise (·.start ≤ ·.start) →
    (∀ r ∈ rs, r.start ≤ ls.length) →
      Safe (fun out => ∀ i ≤ ls.length, (∀ r ∈ rs, i ≤ r.start) → i ≤ out.length) (applyReplacements ls rs)
  | [], _, _ => fun _ hi _ => hi
  | r :: rs, hsorted, hstart => by
    obtain ⟨hfirst, hsorted⟩ := pairwise_cons.mp hsorted
    obtain ⟨hr, hrs⟩ := forall_mem_cons.mp hstart
    refine (applyReplacements_safe rs hsorted hrs).bind fun out hlong => ?_
    have hlen : r.start ≤ out.length := hlong r.start hr hfirst
    rw [replaceRegion_eq hlen]
    intro i _ hi
    have hir : i ≤ r.start := hi r mem_cons_self
    simp only [length_append, length_take_of_le hlen]
    omega

/-- **No index out of bounds**: computing and carrying out the replacements never panics. -/
theorem replacements_within_bounds (ls : List Str) (path : AbsolutePath) (chunks : List UpdateFileChunk) :
    (computeReplacements ls path chunks >>= applyReplacements ls) ≠ .error .panic := by
  have hsafe : Safe (fun _ => True) (computeReplacements ls path chunks >>= applyReplacements ls) := by
    refine (computeReplacements_safe path chunks).bind fun rs ⟨placed, hrs, hregions⟩ => ?_
    subst hrs
    refine (applyReplacements_safe _ (pairwise_insertionSort _ placed) fun r hr => ?_).mono fun _ _ => trivial
    exact le_of_add_le_left (hregions.within r ((mem_insertionSort _).mp hr))
  exact fun h => by rwa [h] at hsafe

/-- The lines from a position on, with the regions exchanged for the new lines. -/
def splice (ls : List Str) (i : ℕ) : List Replacement → List Str
  | [] => ls.drop i
  | r :: rs => (ls.take r.start).drop i ++ r.newLines ++ splice ls (r.start + r.oldLen) rs

theorem applyReplacements_eq_splice : ∀ (rs : List Replacement) (i : ℕ), i ≤ ls.length → Chained ls i rs →
    applyReplacements ls rs = .ok (ls.take i ++ splice ls i rs)
  | [], i, _, _ => by rw [applyReplacements, splice, take_append_drop]
  | r :: rs, i, _, ⟨hir, hin, hrest⟩ => by
    have hlen : (ls.take (r.start + r.oldLen)).length = r.start + r.oldLen := length_take_of_le hin
    have hkeep : ls.take i ++ (ls.take r.start).drop i = ls.take r.start := calc
      _ = (ls.take r.start).take i ++ (ls.take r.start).drop i := by rw [take_take, Nat.min_eq_left hir]
      _ = ls.take r.start := take_append_drop i _
    rw [applyReplacements, applyReplacements_eq_splice rs _ hin hrest]
    refine (replaceRegion_eq ?_).trans (congrArg Except.ok ?_)
    · rw [length_append]
      omega
    · rw [drop_left' hlen, splice, ← append_assoc, ← append_assoc, hkeep,
        take_append_of_le_length (by omega), take_take, Nat.min_eq_left (Nat.le_add_right _ _)]

theorem Chained.pairwise : ∀ (rs : List Replacement) (i : ℕ), Chained ls i rs →
    (∀ r ∈ rs, i ≤ r.start) ∧ rs.Pairwise (·.start ≤ ·.start)
  | [], _, _ => ⟨by simp, .nil⟩
  | r :: rs, i, ⟨hir, _, hrest⟩ => by
    obtain ⟨hfirst, hsorted⟩ := Chained.pairwise rs _ hrest
    have hstart : ∀ q ∈ rs, r.start ≤ q.start := fun q hq => le_of_add_le_left (hfirst q hq)
    exact ⟨forall_mem_cons.mpr ⟨hir, fun q hq => hir.trans (hstart q hq)⟩, pairwise_cons.mpr ⟨hstart, hsorted⟩⟩

/-- **One pass**: the regions of plain chunks are exchanged in place, in the order of the chunks. -/
theorem applied_in_one_pass (ls : List Str) (path : AbsolutePath) (chunks : List UpdateFileChunk)
    (hplain : ∀ chunk ∈ chunks, chunk.isEndOfFile = false ∧ chunk.oldLines ≠ []) (rs : List Replacement)
    (hok : computeReplacements ls path chunks = .ok rs) :
    applyReplacements ls rs = .ok (splice ls 0 rs) ∧ Chained ls 0 rs ∧ List.Forall₂ Puts chunks rs := by
  have hsafe := @computeReplacements_safe ls path chunks
  rw [hok] at hsafe
  obtain ⟨placed, rfl, hregions⟩ := hsafe
  have hchained := hregions.chained hplain
  rw [(Chained.pairwise placed 0 hchained).2.insertionSort_eq]
  exact ⟨applyReplacements_eq_splice placed 0 (Nat.zero_le _) hchained, hchained, hregions.puts⟩

/-- Two chunks, of which the first makes the file longer. -/
theorem applied_in_one_pass_two :
    let chunks : List UpdateFileChunk := [⟨none, [['b']], [['x'], ['y']], false⟩, ⟨none, [['d']], [['z']], false⟩]
    computeReplacements [['a'], ['b'], ['c'], ['d']] .root chunks = .ok [⟨1, 1, [['x'], ['y']]⟩, ⟨3, 1, [['z']]⟩] ∧
      applyReplacements [['a'], ['b'], ['c'], ['d']] [⟨1, 1, [['x'], ['y']]⟩, ⟨3, 1, [['z']]⟩] =
        .ok [['a'], ['x'], ['y'], ['c'], ['z']] :=
  ⟨by decide, (applied_in_one_pass _ .root [⟨none, [['b']], [['x'], ['y']], false⟩, ⟨none, [['d']], [['z']], false⟩]
    (by decide) _ (by decide)).1⟩

end OpenAgere.ApplyPatch
