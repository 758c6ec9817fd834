import OpenAgere.PatchParser

/-! # Reading a patch: the parser as relations

What the strict parser of `PatchParser.lean` reads, without line numbers and error texts:
`ReadsChunk`, `ReadsUpdate`, `ReadsHunk` and `ReadsHunks` relate the lines in front of the
parser to what it returns and to the lines it leaves.  Each relation is equivalent to success
of the function it describes (`parseUpdateFileChunk_iff`, `parseOneHunk_iff`,
`parsePatchText_strict_iff`), so in particular success never depends on the line number.  What
a relation allows is read in streaming mode too (`updateLoop_reads`, `parseHunks_reads`). -/

namespace OpenAgere.ApplyPatch

open List Option Text

/-! ### Diff lines -/

/-- A line that belongs to the diff of a chunk. -/
def isDiff (l : Str) : Bool := (diffLine l).isSome

variable {t : Str}

theorem isDiff_cons {c : Char} : isDiff (c :: t) ↔ c = ' ' ∨ c = '+' ∨ c = '-' := by
  unfold isDiff diffLine
  split <;> simp_all

theorem isDiff_eofMarker : isDiff eofMarker = false := by decide

/-- The chunk with the contributions of a list of diff lines. -/
def UpdateFileChunk.pushLines (chunk : UpdateFileChunk) (ds : List Str) : UpdateFileChunk :=
  ds.foldl (fun c l => ((diffLine l).map c.push).getD c) chunk

variable {l : Str}

theorem UpdateFileChunk.pushLines_cons (chunk : UpdateFileChunk) {d : List Str × List Str}
    (ds : List Str) (h : diffLine l = some d) :
    chunk.pushLines (l :: ds) = (chunk.push d).pushLines ds := by
  simp [pushLines, h]

/-- The lines in front of the parser end a chunk: none is left, or the next one is neither a
diff line nor the end-of-file marker. -/
def StopsAt (rest : List Str) : Prop := ∀ r ∈ rest.head?, r ≠ eofMarker ∧ isDiff r = false

/-- Reading the lines of a chunk: diff lines, at least one, and the end-of-file marker if it
follows. -/
inductive ReadsLines (chunk : UpdateFileChunk) : List Str → UpdateFileChunk → List Str → Prop
  | stop {ds rest : List Str} : ds ≠ [] → (∀ l ∈ ds, isDiff l) → StopsAt rest →
      ReadsLines chunk (ds ++ rest) (chunk.pushLines ds) rest
  | eof {ds rest : List Str} : ds ≠ [] → (∀ l ∈ ds, isDiff l) →
      ReadsLines chunk (ds ++ eofMarker :: rest)
        { chunk.pushLines ds with isEndOfFile := true } rest

theorem chunkLoop_append (ln : ℕ) : ∀ (ds rest : List Str) (chunk : UpdateFileChunk) (n : ℕ),
    (∀ l ∈ ds, isDiff l) →
    chunkLoop ln (ds ++ rest) chunk n = chunkLoop ln rest (chunk.pushLines ds) (n + ds.length)
  | [], _, _, _, _ => rfl
  | l :: ds, rest, chunk, n, h => by
    have hl : isDiff l = true := h l (by simp)
    obtain ⟨d, hd⟩ := isSome_iff_exists.mp hl
    have hne : l ≠ eofMarker := by
      rintro rfl
      rw [isDiff_eofMarker] at hl
      cases hl
    rw [cons_append, chunkLoop, if_neg hne, hd]
    simp only
    rw [chunkLoop_append ln ds rest _ _ (fun x hx => h x (by simp [hx])),
      UpdateFileChunk.pushLines_cons chunk ds hd]
    congr 1
    simp only [length_cons]
    omega

variable {ln n : ℕ} {rest : List Str} {chunk : UpdateFileChunk}

theorem chunkLoop_stop (hn : n ≠ 0) (h : StopsAt rest) : chunkLoop ln rest chunk n = .ok (chunk, n) := by
  cases rest with
  | nil => rfl
  | cons r rest =>
    obtain ⟨h1, h2⟩ := h r (by simp)
    have h3 : diffLine r = none := by simpa [isDiff] using h2
    simp [chunkLoop, h1, h3, hn]

theorem span_isDiff (ls : List Str) : ∃ ds rest, ls = ds ++ rest ∧ (∀ l ∈ ds, isDiff l) ∧
    ∀ r ∈ rest.head?, isDiff r = false := by
  refine ⟨ls.takeWhile isDiff, ls.dropWhile isDiff, takeWhile_append_dropWhile.symm,
    fun l hl => mem_takeWhile_imp hl, fun r hr => ?_⟩
  have := head?_dropWhile_not isDiff ls
  rw [mem_def.mp hr] at this
  simpa using this

variable {ls : List Str} {c : UpdateFileChunk}

theorem chunkLoop_iff {m : ℕ} (hne : ls ≠ []) : chunkLoop ln ls chunk 0 = .ok (c, m) ↔
      ∃ rest, ReadsLines chunk ls c rest ∧ m + rest.length = ls.length := by
  have hread : ∀ {c m}, (∃ rest, ReadsLines chunk ls c rest ∧ m + rest.length = ls.length) →
      chunkLoop ln ls chunk 0 = .ok (c, m) := by
    rintro c m ⟨rest, h, hm⟩
    cases h with
    | @stop ds _ hd hds hs =>
      rw [chunkLoop_append ln ds rest chunk 0 hds, Nat.zero_add, chunkLoop_stop (by simpa using hd) hs]
      simp only [length_append] at hm
      congr 2
      omega
    | @eof ds _ hd hds =>
      have hlen : ds.length ≠ 0 := by simpa using hd
      rw [chunkLoop_append ln ds _ chunk 0 hds, Nat.zero_add]
      simp only [chunkLoop, if_true, if_neg hlen]
      simp only [length_append, length_cons] at hm
      congr 2
      omega
  refine ⟨fun h => ?_, hread⟩
  -- what the loop reads is known once a reading of the lines is
  have hsame : ∀ {c' n rest}, ReadsLines chunk ls c' rest → n + rest.length = ls.length →
      ∃ rest, ReadsLines chunk ls c rest ∧ m + rest.length = ls.length := by
    intro c' n rest hr hn
    cases h.symm.trans (hread ⟨rest, hr, hn⟩)
    exact ⟨rest, hr, hn⟩
  obtain ⟨ds, rest, rfl, hds, hrest⟩ := span_isDiff ls
  by_cases hd : ds = []
  · subst hd
    cases rest with
    | nil => simp at hne
    | cons r rest =>
      have h3 : diffLine r = none := by simpa [isDiff] using hrest r (by simp)
      by_cases hr : r = eofMarker
      · simp [chunkLoop, hr] at h
      · simp [chunkLoop, hr, h3] at h
  · by_cases hr : ∃ rest', rest = eofMarker :: rest'
    · obtain ⟨rest', rfl⟩ := hr
      exact hsame (n := ds.length + 1) (.eof hd hds) (by simp; omega)
    · have hs : StopsAt rest := by
        intro x hx
        obtain ⟨rest', rfl⟩ := head?_eq_some_iff.mp hx
        exact ⟨fun heq => hr ⟨rest', by rw [heq]⟩, hrest x hx⟩
      exact hsame (n := ds.length) (.stop hd hds hs) (by simp)

theorem ReadsLines.head (h : ReadsLines chunk ls c rest) : ∃ l ∈ ls.head?, isDiff l := by
  cases h with
  | @stop _ _ hd hds | @eof _ _ hd hds =>
    obtain ⟨l, ds, rfl⟩ := exists_cons_of_ne_nil hd
    exact ⟨l, rfl, hds l (by simp)⟩

theorem ReadsLines.suffix
    (h : ReadsLines chunk ls c rest) : rest <:+ ls ∧ rest.length < ls.length := by
  cases h with
  | @stop ds _ hd _ _ =>
    have := length_pos_iff.mpr hd
    exact ⟨suffix_append _ _, by simp; omega⟩
  | @eof ds _ _ _ =>
    refine ⟨⟨ds ++ [eofMarker], by simp⟩, ?_⟩
    simp only [length_append, length_cons]
    omega

/-! ### Chunks -/

theorem chunkHeader_head {ctx : Option Str} (h : chunkHeader l = some ctx) :
    l.head? = some '@' := by
  unfold chunkHeader at h
  split_ifs at h with he
  · rw [he]
    rfl
  · cases hs : stripPrefix changeContextMarker l with
    | none => simp [hs] at h
    | some t =>
      rw [stripPrefix_eq_some.mp hs]
      rfl

theorem not_isDiff_of_head {c : Char} (h : l.head? = some c)
    (hc : c ≠ ' ' ∧ c ≠ '+' ∧ c ≠ '-') : isDiff l = false := by
  obtain ⟨t, rfl⟩ := head?_eq_some_iff.mp h
  rw [← Bool.not_eq_true, isDiff_cons]
  tauto

theorem chunkHeader_of_isDiff (h : isDiff l) : chunkHeader l = none := by
  cases hh : chunkHeader l with
  | none => rfl
  | some ctx =>
    rw [not_isDiff_of_head (chunkHeader_head hh) (by decide)] at h
    cases h

/-- Reading one chunk; without a header only when `b` allows it. -/
inductive ReadsChunk (b : Bool) : List Str → UpdateFileChunk → List Str → Prop
  | header {l : Str} {ctx : Option Str} {ls rest : List Str} {c : UpdateFileChunk} :
      chunkHeader l = some ctx → ReadsLines ⟨ctx, [], [], false⟩ ls c rest →
      ReadsChunk b (l :: ls) c rest
  | bare {l : Str} {ls rest : List Str} {c : UpdateFileChunk} :
      b → chunkHeader l = none → ReadsLines ⟨none, [], [], false⟩ (l :: ls) c rest →
      ReadsChunk b (l :: ls) c rest

variable {b : Bool}

theorem ReadsChunk.suffix
    (h : ReadsChunk b ls c rest) : rest <:+ ls ∧ rest.length < ls.length := by
  cases h with
  | header _ h =>
    refine ⟨h.suffix.1.trans (suffix_cons _ _), ?_⟩
    have := h.suffix.2
    simp only [length_cons]
    omega
  | bare _ _ h => exact h.suffix

theorem parseUpdateFileChunk_iff {m : ℕ} : parseUpdateFileChunk ls ln b = .ok (c, m) ↔
      ∃ rest, ReadsChunk b ls c rest ∧ m + rest.length = ls.length := by
  cases ls with
  | nil =>
    simp only [parseUpdateFileChunk, reduceCtorEq, false_iff, not_exists, not_and]
    intro rest h
    cases h
  | cons l ls =>
    simp only [parseUpdateFileChunk]
    cases hh : chunkHeader l with
    | some ctx =>
      simp only
      constructor
      · intro h
        split_ifs at h with he
        obtain ⟨⟨c', n⟩, hl, hr⟩ := except_bind_ok.mp h
        obtain ⟨rfl, rfl⟩ := Prod.mk.inj (except_pure_ok.mp hr)
        obtain ⟨rest, hr, hm⟩ := (chunkLoop_iff (by simpa using he)).mp hl
        exact ⟨rest, .header hh hr, by simp only [length_cons]; omega⟩
      · rintro ⟨rest, h, hm⟩
        cases h with
        | @header _ ctx' _ _ _ hh' h =>
          obtain rfl : ctx = ctx' := by simpa [hh] using hh'
          have hlt := h.suffix.2
          have hne : ls ≠ [] := by rintro rfl; simp at hlt
          simp only [length_cons] at hm
          have hl : chunkLoop ln ls ⟨ctx, [], [], false⟩ 0 = .ok (c, m - 1) :=
            (chunkLoop_iff hne).mpr ⟨rest, h, by omega⟩
          have hm' : m = m - 1 + 1 := by omega
          rw [if_neg (by simpa using hne)]
          exact except_bind_ok.mpr ⟨_, hl, except_pure_ok.mpr (by rw [← hm'])⟩
        | bare _ hh' _ => simp [hh] at hh'
    | none =>
      simp only
      constructor
      · intro h
        split_ifs at h with hb
        obtain ⟨rest, hr, hm⟩ := (chunkLoop_iff (by simp)).mp h
        exact ⟨rest, .bare hb hh hr, hm⟩
      · rintro ⟨rest, h, hm⟩
        cases h with
        | header hh' _ => simp [hh] at hh'
        | bare hb _ h =>
          rw [if_pos hb]
          exact (chunkLoop_iff (by simp)).mpr ⟨rest, h, hm⟩

/-! ### The chunks of an update hunk -/

/-- Reading the chunks of an update: blank lines between chunks are skipped, and a line that
starts with `*` ends the hunk.  `b` says that the next chunk is the first one. -/
inductive ReadsUpdate : Bool → List Str → List UpdateFileChunk → List Str → Prop
  | nil {b : Bool} : ReadsUpdate b [] [] []
  | blank {b : Bool} {l : Str} {ls rest : List Str} {cs : List UpdateFileChunk} :
      isBlank l → ReadsUpdate b ls cs rest → ReadsUpdate b (l :: ls) cs rest
  | star {b : Bool} {l : Str} {ls : List Str} :
      isBlank l = false → l.head? = some '*' → ReadsUpdate b (l :: ls) [] (l :: ls)
  | chunk {b : Bool} {l : Str} {ls rest rest' : List Str} {c : UpdateFileChunk}
      {cs : List UpdateFileChunk} :
      isBlank l = false → l.head? ≠ some '*' → ReadsChunk b (l :: ls) c rest →
      ReadsUpdate false rest cs rest' → ReadsUpdate b (l :: ls) (c :: cs) rest'

variable {cs : List UpdateFileChunk}

theorem ReadsUpdate.suffix (h : ReadsUpdate b ls cs rest) : rest <:+ ls := by
  induction h with
  | nil => exact suffix_rfl
  | blank _ _ ih => exact ih.trans (suffix_cons _ _)
  | star => exact suffix_rfl
  | chunk _ _ hc _ ih => exact ih.trans hc.suffix.1

theorem suffix_unique {α : Type} {l r r' : List α} (h : r <:+ l) (h' : r' <:+ l) (hlen : r.length = r'.length) : r = r' :=
  (suffix_of_suffix_length_le h h' hlen.le).eq_of_length hlen

variable {r₁ r₂ : List Str}

theorem ReadsChunk.unique {c₁ c₂ : UpdateFileChunk}
    (h₁ : ReadsChunk b ls c₁ r₁) (h₂ : ReadsChunk b ls c₂ r₂) : c₁ = c₂ ∧ r₁ = r₂ := by
  have e₁ : parseUpdateFileChunk ls 0 b = .ok (c₁, ls.length - r₁.length) :=
    parseUpdateFileChunk_iff.mpr ⟨r₁, h₁, Nat.sub_add_cancel h₁.suffix.2.le⟩
  have e₂ : parseUpdateFileChunk ls 0 b = .ok (c₂, ls.length - r₂.length) :=
    parseUpdateFileChunk_iff.mpr ⟨r₂, h₂, Nat.sub_add_cancel h₂.suffix.2.le⟩
  rw [e₁] at e₂
  simp only [Except.ok.injEq, Prod.mk.injEq] at e₂
  have l₁ := h₁.suffix.2
  have l₂ := h₂.suffix.2
  exact ⟨e₂.1, suffix_unique h₁.suffix.1 h₂.suffix.1 (by omega)⟩

theorem drop_of_suffix {α : Type} {l r : List α} (h : r <:+ l) (hn : n + r.length = l.length) : l.drop n = r := by
  obtain ⟨t, rfl⟩ := h
  simp only [length_append] at hn
  exact drop_left' (by omega)

theorem progress_updateStep (ln : ℕ) (inc : Bool) : ScanLoop.Progress (updateStep ln inc) := by
  rintro ⟨cs, p⟩ l ls s' n h
  simp only [updateStep] at h
  split_ifs at h
  · cases h
    exact le_rfl
  all_goals
    split at h
    · next hp =>
        obtain ⟨rest, hr, hn⟩ := parseUpdateFileChunk_iff.mp hp
        have := hr.suffix.2
        cases h
        omega
    · cases h
    · cases h

theorem updateLoop_cons (ln : ℕ) (inc : Bool) (s : List UpdateFileChunk × ℕ) (l : Str)
    (ls : List Str) : updateLoop ln inc s (l :: ls) =
      match updateStep ln inc s (l :: ls) with
      | .stop r => r
      | .go s' n => updateLoop ln inc s' ((l :: ls).drop n) := by
  unfold updateLoop
  rw [ScanLoop.run_cons Except.ok (progress_updateStep ln inc) s l ls]
  cases updateStep ln inc s (l :: ls) <;> rfl

/-- What one round of the loop over the chunks can do. -/
theorem updateLoop_cases (ln : ℕ) (inc : Bool) (cs : List UpdateFileChunk) (p : ℕ) (l : Str)
    (ls : List Str) :
    (isBlank l ∧ updateLoop ln inc (cs, p) (l :: ls) = updateLoop ln inc (cs, p + 1) ls) ∨
    (isBlank l = false ∧ (l.head? = some '*' ∨ (inc ∧ l = "@")) ∧
      updateLoop ln inc (cs, p) (l :: ls) = .ok (cs, p)) ∨
    (isBlank l = false ∧ l.head? ≠ some '*' ∧ ∃ c rest, ReadsChunk cs.isEmpty (l :: ls) c rest ∧
      updateLoop ln inc (cs, p) (l :: ls) =
        updateLoop ln inc (cs ++ [c], p + ((l :: ls).length - rest.length)) rest) ∨
    ((∀ c rest, ¬ ReadsChunk cs.isEmpty (l :: ls) c rest) ∧
      ((inc ∧ updateLoop ln inc (cs, p) (l :: ls) = .ok (cs, p)) ∨
        ∃ e, updateLoop ln inc (cs, p) (l :: ls) = .error e)) := by
  rw [updateLoop_cons]
  by_cases hb : isBlank l = true
  · exact .inl ⟨hb, by simp [updateStep, hb]⟩
  by_cases hs : l.head? = some '*'
  · exact .inr (.inl ⟨Bool.eq_false_of_not_eq_true hb, .inl hs, by simp [updateStep, hb, hs]⟩)
  by_cases ha : inc = true ∧ l = "@"
  · exact .inr (.inl ⟨Bool.eq_false_of_not_eq_true hb, .inr ha, by simp only [updateStep, if_neg hb, if_neg hs, if_pos ha]⟩)
  simp only [updateStep, if_neg hb, if_neg hs, if_neg ha]
  cases hp : parseUpdateFileChunk (l :: ls) (ln + p) cs.isEmpty with
  | ok r =>
    obtain ⟨rest, hr, hn⟩ := parseUpdateFileChunk_iff.mp hp
    refine .inr (.inr (.inl ⟨Bool.eq_false_of_not_eq_true hb, hs, r.1, rest, hr, ?_⟩))
    simp only
    rw [drop_of_suffix hr.suffix.1 hn, Nat.eq_sub_of_add_eq hn]
  | error e =>
    refine .inr (.inr (.inr ⟨fun c rest hc => ?_, ?_⟩))
    · rw [parseUpdateFileChunk_iff.mpr ⟨rest, hc, Nat.sub_add_cancel hc.suffix.2.le⟩] at hp
      cases hp
    · cases e with
      | invalidPatchError m => exact .inr ⟨_, rfl⟩
      | invalidHunkError m k =>
        simp only
        split_ifs with hi
        · exact .inl ⟨hi.1, rfl⟩
        · exact .inr ⟨_, rfl⟩

theorem isEmpty_concat (acc : List UpdateFileChunk) (c : UpdateFileChunk) :
    (acc ++ [c]).isEmpty = false := by cases acc <;> rfl

/-- The last line is, or may become, the header of a chunk. -/
def OpenChunk (ls : List Str) : Prop := ∃ l ∈ ls.getLast?, l.head? = some '@'

theorem OpenChunk.of_suffix (h : OpenChunk ls) (hs : rest <:+ ls) (hne : rest ≠ []) : OpenChunk rest := by
  obtain ⟨pre, rfl⟩ := hs
  rwa [OpenChunk, getLast?_append_of_ne_nil pre hne] at h

theorem OpenChunk.cons {l : Str} (h : OpenChunk (l :: ls)) : ls = [] ∧ l.head? = some '@' ∨ OpenChunk ls := by
  cases ls with
  | nil =>
    obtain ⟨m, hm, hat⟩ := h
    obtain rfl : l = m := some.inj hm
    exact .inl ⟨rfl, hat⟩
  | cons m ls => exact .inr (h.of_suffix (suffix_cons _ _) (cons_ne_nil _ _))

theorem ReadsChunk.ne_nil (h : ReadsChunk b ls c rest) (ho : OpenChunk ls) : rest ≠ [] := by
  rintro rfl
  have hlines : ∀ {chunk c : UpdateFileChunk} {ls : List Str}, ReadsLines chunk ls c [] → ¬ OpenChunk ls := by
    rintro chunk c ls h ⟨l, hl, hat⟩
    cases h with
    | stop _ hds _ =>
      rw [append_nil] at hl
      have hd := hds l (mem_of_mem_getLast? hl)
      rw [not_isDiff_of_head hat (by decide)] at hd
      cases hd
    | eof _ _ =>
      rw [getLast?_concat] at hl
      cases hl
      cases hat
  cases h with
  | header _ h =>
    obtain ⟨m, hm, _⟩ := h.head
    obtain ⟨rfl, _⟩ | ho := ho.cons
    · cases hm
    · exact hlines h ho
  | bare _ _ h => exact hlines h ho

variable {inc : Bool}

/-- The loop reads lines in front of it and never gives a chunk back.  It does not read a last line that
starts a chunk. -/
theorem updateLoop_le : ∀ {n : ℕ} {ls : List Str} {cs cs' : List UpdateFileChunk} {p p' : ℕ}, ls.length ≤ n →
    updateLoop ln inc (cs, p) ls = .ok (cs', p') →
    p ≤ p' ∧ p' ≤ p + ls.length ∧ cs.length + (p' - p) ≥ cs'.length ∧ (OpenChunk ls → p' < p + ls.length)
  | n, [], cs, cs', p, p', _, h => by
    cases h
    simp [OpenChunk]
  | 0, l :: ls, cs, cs', p, p', hn, _ => by simp at hn
  | n + 1, l :: ls, cs, cs', p, p', hn, h => by
    simp only [length_cons, Nat.add_le_add_iff_right] at hn
    rcases updateLoop_cases ln inc cs p l ls with ⟨hb, e⟩ | ⟨_, _, e⟩ | ⟨_, _, c, rest, hc, e⟩ |
      ⟨_, ⟨_, e⟩ | ⟨e', e⟩⟩ <;> rw [e] at h
    · obtain ⟨h1, h2, h3, h4⟩ := updateLoop_le hn h
      simp only [length_cons]
      refine ⟨by omega, by omega, by omega, fun ho => ?_⟩
      obtain ⟨_, hat⟩ | ho := ho.cons
      · rw [isBlank_eq_false_of_head hat (by decide)] at hb
        cases hb
      · have := h4 ho
        omega
    · cases h
      simp
    · have hlt := hc.suffix.2
      simp only [length_cons] at hlt
      obtain ⟨h1, h2, h3, h4⟩ := updateLoop_le (show rest.length ≤ n by omega) h
      simp only [length_append, length_cons, length_nil] at h1 h2 h3 h4 ⊢
      refine ⟨by omega, by omega, by omega, fun ho => ?_⟩
      have := h4 (ho.of_suffix hc.suffix.1 (hc.ne_nil ho))
      omega
    · cases h
      simp
    · cases h

variable {l : Str}

theorem not_readsChunk_at : ¬ ReadsChunk b ("@" :: ls) c rest := by
  intro h
  cases h with
  | header h _ => cases h
  | bare _ _ h =>
    obtain ⟨x, ⟨⟩, hd⟩ := h.head
    cases hd

variable {acc : List UpdateFileChunk}

theorem updateLoop_chunk {p : ℕ}
    (hb : isBlank l = false) (hs : l.head? ≠ some '*')
    (hc : ReadsChunk acc.isEmpty (l :: ls) c rest) : updateLoop ln inc (acc, p) (l :: ls) =
      updateLoop ln inc (acc ++ [c], p + ((l :: ls).length - rest.length)) rest := by
  rcases updateLoop_cases ln inc acc p l ls with ⟨hb', _⟩ | ⟨_, hs' | ⟨_, rfl⟩, _⟩ |
    ⟨_, _, c', rest', hc', e⟩ | ⟨hno, _⟩
  · rw [hb] at hb'
    cases hb'
  · exact absurd hs' hs
  · exact absurd hc not_readsChunk_at
  · obtain ⟨rfl, rfl⟩ := ReadsChunk.unique hc hc'
    exact e
  · exact absurd hc (hno _ _)

theorem updateLoop_star {p : ℕ} (hb : isBlank l = false) (hs : l.head? = some '*') :
    updateLoop ln inc (acc, p) (l :: ls) = .ok (acc, p) := by
  simp [updateLoop_cons, updateStep, hb, hs]

theorem updateLoop_blank {p : ℕ} (hb : isBlank l) :
    updateLoop ln inc (acc, p) (l :: ls) = updateLoop ln inc (acc, p + 1) ls := by
  simp [updateLoop_cons, updateStep, hb]

/-- In both modes the loop reads the chunks that the lines read as. -/
theorem updateLoop_reads {cs : List UpdateFileChunk}
    (h : ReadsUpdate b ls cs rest) : ∀ {acc : List UpdateFileChunk} {p : ℕ}, acc.isEmpty = b →
      updateLoop ln inc (acc, p) ls = .ok (acc ++ cs, p + (ls.length - rest.length)) := by
  induction h with
  | nil =>
    intro acc p _
    rw [append_nil]
    rfl
  | blank hbl hr ih =>
    intro acc p hb
    have := hr.suffix.length_le
    rw [updateLoop_blank hbl, ih hb]
    simp only [length_cons]
    congr 2
    omega
  | star hbl hs =>
    intro acc p _
    rw [updateLoop_star hbl hs]
    simp
  | chunk hbl hs hc hr ih =>
    intro acc p hb
    subst hb
    have h1 := hr.suffix.length_le
    have h2 := hc.suffix.2
    rw [updateLoop_chunk hbl hs hc, ih (isEmpty_concat _ _), append_assoc, singleton_append]
    congr 2
    omega

/-- In strict mode it reads nothing else. -/
theorem readsUpdate_of_updateLoop : ∀ {n : ℕ} {ls : List Str} {acc cs' : List UpdateFileChunk} {p p' : ℕ},
    ls.length ≤ n → updateLoop ln false (acc, p) ls = .ok (cs', p') →
      ∃ cs rest, ReadsUpdate acc.isEmpty ls cs rest ∧ cs' = acc ++ cs ∧ p' + rest.length = p + ls.length
  | n, [], acc, cs', p, p', _, h => by
    cases h
    exact ⟨[], [], .nil, by simp, rfl⟩
  | 0, l :: ls, acc, cs', p, p', hn, _ => by simp at hn
  | n + 1, l :: ls, acc, cs', p, p', hn, h => by
    simp only [length_cons, Nat.add_le_add_iff_right] at hn ⊢
    rcases updateLoop_cases ln false acc p l ls with ⟨hb, e⟩ | ⟨hb, hs | ⟨hi, _⟩, e⟩ |
      ⟨hb, hs, c, rest, hc, e⟩ | ⟨_, ⟨hi, _⟩ | ⟨_, e⟩⟩
    · rw [e] at h
      obtain ⟨cs, rest, hr, rfl, hp⟩ := readsUpdate_of_updateLoop hn h
      exact ⟨cs, rest, .blank hb hr, rfl, by omega⟩
    · rw [e] at h
      cases h
      exact ⟨[], l :: ls, .star hb hs, by simp, rfl⟩
    · cases hi
    · rw [e] at h
      have hlt := hc.suffix.2
      simp only [length_cons] at hlt h
      obtain ⟨cs, rest', hr, rfl, hp⟩ := readsUpdate_of_updateLoop (show rest.length ≤ n by omega) h
      rw [isEmpty_concat] at hr
      exact ⟨c :: cs, rest', .chunk hb hs hc hr, by simp, by omega⟩
    · cases hi
    · rw [e] at h
      cases h

/-! ### Hunks -/

/-- The contents of a file added with the lines `ts`. -/
def addedContents (ts : List Str) : Str := ts.flatMap (· ++ ['\n'])

/-- The lines in front of the parser end an add hunk. -/
def NoPlus (rest : List Str) : Prop := ∀ r ∈ rest.head?, r.head? ≠ some '+'

theorem addLoop_append (h : NoPlus rest) : ∀ ts : List Str,
    addLoop (ts.map ('+' :: ·) ++ rest) = (addedContents ts, ts.length)
  | [] => by
    cases rest with
    | nil => rfl
    | cons r rest =>
      have hr : r.head? ≠ some '+' := h r (by simp)
      have hs : stripPrefix ['+'] r = none := by
        rw [stripPrefix_eq_none]
        rintro ⟨t, rfl⟩
        simp at hr
      simp [addLoop, hs, addedContents]
  | t :: ts => by
    simp [addLoop, stripPrefix, addLoop_append h ts, addedContents]

theorem span_plus : ∀ ls : List Str, ∃ ts rest : List Str, ls = ts.map ('+' :: ·) ++ rest ∧ NoPlus rest
  | [] => ⟨[], [], rfl, by simp [NoPlus]⟩
  | l :: ls => by
    by_cases h : l.head? = some '+'
    · obtain ⟨t, rfl⟩ := head?_eq_some_iff.mp h
      obtain ⟨ts, rest, rfl, hr⟩ := span_plus ls
      exact ⟨t :: ts, rest, rfl, hr⟩
    · exact ⟨[], l :: ls, rfl, by simpa [NoPlus] using h⟩

/-- Reading one hunk: the lines in front of the parser, the hunk, the lines left. -/
inductive ReadsHunk : List Str → Hunk → List Str → Prop
  | add {l path : Str} {ts rest : List Str} : trim l = addFileMarker ++ path → NoPlus rest →
      ReadsHunk (l :: (ts.map ('+' :: ·) ++ rest)) (.addFile path (addedContents ts)) rest
  | delete {l path : Str} {rest : List Str} : trim l = deleteFileMarker ++ path →
      ReadsHunk (l :: rest) (.deleteFile path) rest
  | update {l path : Str} {ls rest : List Str} {cs : List UpdateFileChunk} :
      trim l = updateFileMarker ++ path → (∀ m ∈ ls.head?, ¬ moveToMarker <+: m) →
      ReadsUpdate true ls cs rest → cs ≠ [] → ReadsHunk (l :: ls) (.updateFile path none cs) rest
  | move {l path dest : Str} {ls rest : List Str} {cs : List UpdateFileChunk} :
      trim l = updateFileMarker ++ path → ReadsUpdate true ls cs rest → cs ≠ [] →
      ReadsHunk (l :: (moveToMarker ++ dest) :: ls) (.updateFile path (some dest) cs) rest

variable {h : Hunk}

theorem ReadsHunk.suffix (hr : ReadsHunk ls h rest) : rest <:+ ls ∧ rest.length < ls.length := by
  cases hr with
  | @add l _ ts _ _ _ => exact ⟨⟨l :: ts.map ('+' :: ·), by simp⟩, by simp⟩
  | delete _ => exact ⟨suffix_cons _ _, by simp⟩
  | update _ _ hu _ =>
    have := hu.suffix.length_le
    exact ⟨hu.suffix.trans (suffix_cons _ _), by simp only [length_cons]; omega⟩
  | move _ hu _ =>
    have := hu.suffix.length_le
    exact ⟨hu.suffix.trans ((suffix_cons _ _).trans (suffix_cons _ _)),
      by simp only [length_cons]; omega⟩

section header
variable {l path : Str} (ls : List Str) (ln : ℕ) (inc : Bool)

theorem parseOneHunk_add (h : trim l = addFileMarker ++ path) :
    parseOneHunk l ls ln inc = .ok (.addFile path (addLoop ls).1, (addLoop ls).2 + 1) := by
  simp only [parseOneHunk, h, stripPrefix_append]

theorem parseOneHunk_delete (h : trim l = deleteFileMarker ++ path) :
    parseOneHunk l ls ln inc = .ok (.deleteFile path, 1) := by
  have h1 : stripPrefix addFileMarker (deleteFileMarker ++ path) = none := rfl
  simp only [parseOneHunk, h, h1, stripPrefix_append]

theorem parseOneHunk_update (h : trim l = updateFileMarker ++ path)
    (hm : ∀ m ∈ ls.head?, ¬ moveToMarker <+: m) :
    parseOneHunk l ls ln inc = parseUpdateBody path none ls 1 ln inc := by
  have h1 : stripPrefix addFileMarker (updateFileMarker ++ path) = none := rfl
  have h2 : stripPrefix deleteFileMarker (updateFileMarker ++ path) = none := rfl
  have h3 : ls.head?.bind (stripPrefix moveToMarker) = none := by
    cases ls with
    | nil => rfl
    | cons m ls => exact stripPrefix_eq_none.mpr (hm m (by simp))
  simp only [parseOneHunk, h, h1, h2, stripPrefix_append, h3]

theorem parseOneHunk_move {dest : Str} (h : trim l = updateFileMarker ++ path) :
    parseOneHunk l ((moveToMarker ++ dest) :: ls) ln inc =
      parseUpdateBody path (some dest) ls 2 ln inc := by
  have h1 : stripPrefix addFileMarker (updateFileMarker ++ path) = none := rfl
  have h2 : stripPrefix deleteFileMarker (updateFileMarker ++ path) = none := rfl
  simp only [parseOneHunk, h, h1, h2, stripPrefix_append, head?_cons, bind_some,
    tail_cons]

end header

/-- The fifth character tells the markers apart. -/
theorem append_ne_append {m k : Str} (h : m.take 5 ≠ k.take 5) (hm : 5 ≤ m.length)
    (hk : 5 ≤ k.length) (p q : Str) : m ++ p ≠ k ++ q := by
  intro e
  apply h
  have hp : (m ++ p).take 5 = m.take 5 := take_append_of_le_length hm
  rw [← hp, e, take_append_of_le_length hk]

variable {path : Str}

theorem ReadsHunk.update_inv {hunk : Hunk}
    (e : trim l = updateFileMarker ++ path) (h : ReadsHunk (l :: ls) hunk rest) :
    ∃ cs, cs ≠ [] ∧ ((hunk = .updateFile path none cs ∧ (∀ m ∈ ls.head?, ¬ moveToMarker <+: m) ∧
        ReadsUpdate true ls cs rest) ∨
      ∃ dest ls', ls = (moveToMarker ++ dest) :: ls' ∧ hunk = .updateFile path (some dest) cs ∧
        ReadsUpdate true ls' cs rest) := by
  cases h with
  | add h | delete h => exact absurd (h.symm.trans e) (append_ne_append (by decide) (by decide) (by decide) _ _)
  | update h hm hu hc =>
    obtain rfl := append_cancel_left (h.symm.trans e)
    exact ⟨_, hc, Or.inl ⟨rfl, hm, hu⟩⟩
  | move h hu hc =>
    obtain rfl := append_cancel_left (h.symm.trans e)
    exact ⟨_, hc, Or.inr ⟨_, _, rfl, rfl, hu⟩⟩

/-- A line that starts a hunk. -/
def IsHeader (l : Str) : Prop :=
  addFileMarker <+: trim l ∨ deleteFileMarker <+: trim l ∨ updateFileMarker <+: trim l

theorem ReadsHunk.isHeader (hr : ReadsHunk (l :: ls) h rest) : IsHeader l := by
  cases hr with
  | add h _ => exact Or.inl ⟨_, h.symm⟩
  | delete h => exact Or.inr (Or.inl ⟨_, h.symm⟩)
  | update h | move h => exact Or.inr (Or.inr ⟨_, h.symm⟩)

theorem parseOneHunk_not_header (ls : List Str) (ln : ℕ) (inc : Bool) (h : ¬ IsHeader l) :
    ∃ e, parseOneHunk l ls ln inc = .error e := by
  simp only [IsHeader, not_or] at h
  simp only [parseOneHunk, stripPrefix_eq_none.mpr h.1, stripPrefix_eq_none.mpr h.2.1,
    stripPrefix_eq_none.mpr h.2.2]
  exact ⟨_, rfl⟩

variable {move : Option Str} {p : ℕ}

theorem parseUpdateBody_eq : parseUpdateBody path move ls p ln inc = .ok (h, n) ↔
      ∃ cs, updateLoop ln inc ([], p) ls = .ok (cs, n) ∧ cs ≠ [] ∧ h = .updateFile path move cs := by
  unfold parseUpdateBody
  rw [except_bind_ok]
  constructor
  · rintro ⟨⟨cs, m⟩, hu, hb⟩
    dsimp only at hb
    split_ifs at hb with hc
    obtain ⟨rfl, rfl⟩ := Prod.mk.inj (except_pure_ok.mp hb)
    exact ⟨cs, hu, by simpa using hc, rfl⟩
  · rintro ⟨cs, hu, hc, rfl⟩
    refine ⟨(cs, n), hu, ?_⟩
    dsimp only
    rw [if_neg (by simpa using hc)]
    exact except_pure_ok.mpr rfl

theorem parseUpdateBody_reads {p : ℕ}
    {cs : List UpdateFileChunk} (hu : ReadsUpdate true ls cs rest) (hne : cs ≠ []) :
    parseUpdateBody path move ls p ln inc =
      .ok (.updateFile path move cs, p + (ls.length - rest.length)) :=
  parseUpdateBody_eq.mpr ⟨cs, updateLoop_reads hu rfl, hne, rfl⟩

theorem parseOneHunk_reads (hr : ReadsHunk (l :: ls) h rest) :
    parseOneHunk l ls ln inc = .ok (h, (l :: ls).length - rest.length) := by
  cases hr with
  | @add _ path ts _ e hp =>
    rw [parseOneHunk_add _ ln inc e, addLoop_append hp]
    simp only [length_cons, length_append, length_map]
    congr 2
    omega
  | delete e =>
    rw [parseOneHunk_delete _ ln inc e]
    simp only [length_cons]
    congr 2
    omega
  | update e hm hu hne =>
    have := hu.suffix.length_le
    rw [parseOneHunk_update _ ln inc e hm, parseUpdateBody_reads hu hne]
    simp only [length_cons]
    congr 2
    omega
  | move e hu hne =>
    have := hu.suffix.length_le
    rw [parseOneHunk_move _ ln inc e, parseUpdateBody_reads hu hne]
    simp only [length_cons]
    congr 2
    omega

/-- The five ways of reading one hunk. -/
theorem parseOneHunk_cases (l : Str) (ls : List Str) (ln : ℕ) (inc : Bool) :
    (∃ path ts rest, trim l = addFileMarker ++ path ∧ ls = ts.map ('+' :: ·) ++ rest ∧ NoPlus rest ∧
      parseOneHunk l ls ln inc = .ok (.addFile path (addedContents ts), ts.length + 1)) ∨
    (∃ path, trim l = deleteFileMarker ++ path ∧ parseOneHunk l ls ln inc = .ok (.deleteFile path, 1)) ∨
    (∃ path, trim l = updateFileMarker ++ path ∧ (∀ m ∈ ls.head?, ¬ moveToMarker <+: m) ∧
      parseOneHunk l ls ln inc = parseUpdateBody path none ls 1 ln inc) ∨
    (∃ path dest ls', trim l = updateFileMarker ++ path ∧ ls = (moveToMarker ++ dest) :: ls' ∧
      parseOneHunk l ls ln inc = parseUpdateBody path (some dest) ls' 2 ln inc) ∨
    ∃ e, parseOneHunk l ls ln inc = .error e := by
  by_cases hh : IsHeader l
  · rcases hh with ⟨path, e⟩ | ⟨path, e⟩ | ⟨path, e⟩
    · obtain ⟨ts, rest, rfl, hr⟩ := span_plus ls
      exact .inl ⟨path, ts, rest, e.symm, rfl, hr, by rw [parseOneHunk_add _ ln inc e.symm, addLoop_append hr]⟩
    · exact .inr (.inl ⟨path, e.symm, parseOneHunk_delete _ ln inc e.symm⟩)
    · by_cases hm : ∀ m ∈ ls.head?, ¬ moveToMarker <+: m
      · exact .inr (.inr (.inl ⟨path, e.symm, hm, parseOneHunk_update _ ln inc e.symm hm⟩))
      · push Not at hm
        obtain ⟨m, hm, dest, rfl⟩ := hm
        obtain ⟨ls', rfl⟩ := head?_eq_some_iff.mp hm
        exact .inr (.inr (.inr (.inl ⟨path, dest, ls', e.symm, rfl, parseOneHunk_move _ ln inc e.symm⟩)))
  · exact .inr (.inr (.inr (.inr (parseOneHunk_not_header ls ln inc hh))))

theorem readsUpdate_of_parseUpdateBody (hp : parseUpdateBody path move ls p ln false = .ok (h, n)) :
    ∃ cs rest, ReadsUpdate true ls cs rest ∧ cs ≠ [] ∧ h = .updateFile path move cs ∧
      n + rest.length = p + ls.length := by
  obtain ⟨cs, hu, hc, rfl⟩ := parseUpdateBody_eq.mp hp
  obtain ⟨cs', rest, hr, he, hn⟩ := readsUpdate_of_updateLoop le_rfl hu
  rw [nil_append] at he
  subst he
  exact ⟨cs, rest, hr, hc, rfl, hn⟩

theorem parseOneHunk_iff : parseOneHunk l ls ln false = .ok (h, n) ↔
      ∃ rest, ReadsHunk (l :: ls) h rest ∧ n + rest.length = (l :: ls).length := by
  constructor
  · intro hp
    rcases parseOneHunk_cases l ls ln false with ⟨path, ts, rest, hl, rfl, hr, e⟩ | ⟨path, hl, e⟩ |
      ⟨path, hl, hm, e⟩ | ⟨path, dest, ls', hl, rfl, e⟩ | ⟨_, e⟩ <;> rw [e] at hp
    · cases hp
      exact ⟨rest, .add hl hr, by simp; omega⟩
    · cases hp
      exact ⟨ls, .delete hl, by simp; omega⟩
    · obtain ⟨cs, rest, hu, hc, rfl, hn⟩ := readsUpdate_of_parseUpdateBody hp
      exact ⟨rest, .update hl hm hu hc, by simp only [length_cons]; omega⟩
    · obtain ⟨cs, rest, hu, hc, rfl, hn⟩ := readsUpdate_of_parseUpdateBody hp
      exact ⟨rest, .move hl hu hc, by simp only [length_cons]; omega⟩
    · cases hp
  · rintro ⟨rest, hr, hn⟩
    rw [parseOneHunk_reads hr]
    congr 2
    omega

theorem ReadsHunk.unique {h₁ h₂ : Hunk}
    (hr₁ : ReadsHunk (l :: ls) h₁ r₁) (hr₂ : ReadsHunk (l :: ls) h₂ r₂) : h₁ = h₂ ∧ r₁ = r₂ := by
  have l₁ := hr₁.suffix.2
  have l₂ := hr₂.suffix.2
  have e₁ : parseOneHunk l ls 0 false = .ok (h₁, (l :: ls).length - r₁.length) :=
    parseOneHunk_reads hr₁
  have e₂ : parseOneHunk l ls 0 false = .ok (h₂, (l :: ls).length - r₂.length) :=
    parseOneHunk_reads hr₂
  rw [e₁] at e₂
  simp only [Except.ok.injEq, Prod.mk.injEq] at e₂
  exact ⟨e₂.1, suffix_unique hr₁.suffix.1 hr₂.suffix.1 (by omega)⟩

/-! ### All hunks -/

/-- Reading hunks up to the end of the lines. -/
inductive ReadsHunks : List Str → List Hunk → Prop
  | nil : ReadsHunks [] []
  | cons {l : Str} {ls rest : List Str} {h : Hunk} {hs : List Hunk} :
      ReadsHunk (l :: ls) h rest → ReadsHunks rest hs → ReadsHunks (l :: ls) (h :: hs)

/-- A hunk takes at least its header and at most the lines in front of the parser, but not a last line that
starts a chunk. -/
theorem parseOneHunk_bounds (hp : parseOneHunk l ls ln inc = .ok (h, n)) :
    1 ≤ n ∧ n ≤ (l :: ls).length ∧ (OpenChunk ls → n < (l :: ls).length) := by
  simp only [length_cons]
  rcases parseOneHunk_cases l ls ln inc with ⟨path, ts, rest, _, rfl, _, e⟩ | ⟨path, _, e⟩ |
    ⟨path, _, _, e⟩ | ⟨path, dest, ls', _, rfl, e⟩ | ⟨_, e⟩ <;> rw [e] at hp
  · cases hp
    refine ⟨by simp, by simp, ?_⟩
    rintro ⟨m, hm, hat⟩
    cases rest with
    | nil =>
      rw [append_nil] at hm
      obtain ⟨t, _, rfl⟩ := mem_map.mp (mem_of_mem_getLast? hm)
      cases hat
    | cons r rest => simp
  · cases hp
    refine ⟨by omega, by omega, ?_⟩
    rintro ⟨m, hm, _⟩
    have := length_pos_of_mem (mem_of_mem_getLast? hm)
    omega
  · obtain ⟨cs, hu, _, _⟩ := parseUpdateBody_eq.mp hp
    have := updateLoop_le le_rfl hu
    exact ⟨by omega, by omega, fun ho => by have := this.2.2.2 ho; omega⟩
  · obtain ⟨cs, hu, _, _⟩ := parseUpdateBody_eq.mp hp
    have := updateLoop_le le_rfl hu
    simp only [length_cons]
    refine ⟨by omega, by omega, fun ho => ?_⟩
    obtain ⟨_, hat⟩ | ho := ho.cons
    · cases hat
    · have := this.2.2.2 ho
      omega
  · cases hp

theorem progress_hunkStep (inc : Bool) : ScanLoop.Progress (hunkStep inc) := by
  rintro ⟨hunks, ln⟩ l ls s' n h
  simp only [hunkStep] at h
  cases hp : parseOneHunk l ls ln inc with
  | error e =>
    rw [hp] at h
    cases h
  | ok r =>
    rw [hp] at h
    cases h
    exact (parseOneHunk_bounds hp).1

theorem parseHunks_cons (inc : Bool) (hunks : List Hunk) (ln : ℕ) (l : Str) (ls : List Str) :
    parseHunks inc (hunks, ln) (l :: ls) =
      match parseOneHunk l ls ln inc with
      | .ok (h, n) => parseHunks inc (hunks ++ [h], ln + n) ((l :: ls).drop n)
      | .error e => .error e := by
  unfold parseHunks
  rw [ScanLoop.run_cons Except.ok (progress_hunkStep inc) (hunks, ln) l ls]
  simp only [hunkStep]
  cases parseOneHunk l ls ln inc <;> rfl

theorem parseHunks_reads {H : List Hunk} (h : ReadsHunks ls H) :
    ∀ {acc : List Hunk} {ln : ℕ}, ∃ k, parseHunks inc (acc, ln) ls = .ok (acc ++ H, k) := by
  induction h with
  | nil => exact fun {acc ln} => ⟨ln, by rw [append_nil]; rfl⟩
  | @cons l ls rest h H hr _ ih =>
    intro acc ln
    have hlt := hr.suffix.2
    obtain ⟨k, hk⟩ := @ih (acc ++ [h]) (ln + ((l :: ls).length - rest.length))
    refine ⟨k, ?_⟩
    rw [parseHunks_cons, parseOneHunk_reads hr]
    simp only
    rw [drop_of_suffix hr.suffix.1 (by omega), hk, append_assoc, singleton_append]

/-- In strict mode the loop over the hunks reads nothing else. -/
theorem readsHunks_of_parseHunks : ∀ {n : ℕ} {ls : List Str} {acc hs : List Hunk} {ln ln' : ℕ},
    ls.length ≤ n → parseHunks false (acc, ln) ls = .ok (hs, ln') →
      ∃ hs', ReadsHunks ls hs' ∧ hs = acc ++ hs'
  | n, [], acc, hs, ln, ln', _, h => by
    cases h
    exact ⟨[], .nil, by simp⟩
  | 0, l :: ls, acc, hs, ln, ln', hn, _ => by simp at hn
  | n + 1, l :: ls, acc, hs, ln, ln', hn, hh => by
    rw [parseHunks_cons] at hh
    cases hp : parseOneHunk l ls ln false with
    | error e =>
      rw [hp] at hh
      cases hh
    | ok r =>
      obtain ⟨h, k⟩ := r
      obtain ⟨rest, hr, hk⟩ := parseOneHunk_iff.mp hp
      have hlt := hr.suffix.2
      simp only [hp] at hh
      simp only [length_cons] at hn hlt
      rw [drop_of_suffix hr.suffix.1 hk] at hh
      obtain ⟨hs', h', rfl⟩ := readsHunks_of_parseHunks (show rest.length ≤ n by omega) hh
      exact ⟨h :: hs', .cons hr h', by simp⟩

/-! ### Whole patches -/

/-- `body` are the lines of a patch between its two markers. -/
def Framed (ls body : List Str) : Prop :=
  ∃ first last, ls = first :: (body ++ [last]) ∧ trim first = beginPatchMarker ∧
    trim last = endPatchMarker

variable {body : List Str}

theorem checkPatchBoundariesStrict_of_framed (h : Framed ls body) :
    checkPatchBoundariesStrict ls = .ok (ls, body) := by
  obtain ⟨f, e, rfl, hf, he⟩ := h
  simp [checkPatchBoundariesStrict, checkStartAndEndLinesStrict, innerLines, hf, he,
    getLast?_cons, Bind.bind, Except.bind, Pure.pure, Except.pure]

theorem checkPatchBoundariesStrict_iff {r : List Str × List Str} :
    checkPatchBoundariesStrict ls = .ok r ↔ ∃ body, Framed ls body ∧ r = (ls, body) := by
  constructor
  · intro h
    cases ls with
    | nil => cases h
    | cons f ls =>
      by_cases hb : trim f = beginPatchMarker
      · rcases eq_nil_or_concat' ls with rfl | ⟨body, e, rfl⟩
        · have hne : beginPatchMarker ≠ endPatchMarker := by decide
          simp [checkPatchBoundariesStrict, checkStartAndEndLinesStrict, hb, hne, Bind.bind,
            Except.bind] at h
        · by_cases he : trim e = endPatchMarker
          · have hf : Framed (f :: (body ++ [e])) body := ⟨f, e, rfl, hb, he⟩
            rw [checkPatchBoundariesStrict_of_framed hf, Except.ok.injEq] at h
            exact ⟨body, hf, h.symm⟩
          · simp [checkPatchBoundariesStrict, checkStartAndEndLinesStrict, hb, he, Bind.bind,
              Except.bind, getLast?_cons] at h
      · simp [checkPatchBoundariesStrict, checkStartAndEndLinesStrict, hb, Bind.bind,
          Except.bind, getLast?_cons] at h
  · rintro ⟨body, h, rfl⟩
    exact checkPatchBoundariesStrict_of_framed h

variable {a : ApplyPatchArgs}

/-- Success of the strict parser: the two markers, and hunks between them. -/
theorem parsePatchText_strict_iff : parsePatchText t .strict = .ok a ↔ ∃ body hs, Framed (lines (trim t)) body ∧
      ReadsHunks body hs ∧ a = ⟨joinLines (lines (trim t)), hs, none⟩ := by
  rw [parsePatchText_ok]
  constructor
  · rintro ⟨r, ⟨hs, n⟩, hb, hh, ha⟩
    obtain ⟨body, hf, rfl⟩ := checkPatchBoundariesStrict_iff.mp hb
    obtain ⟨hs', hr, he⟩ := readsHunks_of_parseHunks le_rfl hh
    rw [nil_append] at he
    subst he
    exact ⟨body, hs, hf, hr, ha⟩
  · rintro ⟨body, hs, hf, hr, ha⟩
    obtain ⟨k, hk⟩ := @parseHunks_reads _ _ _ hr [] 2
    exact ⟨_, _, checkPatchBoundariesStrict_of_framed hf, hk, ha⟩

/-- Between the two markers the lenient parser is the strict one. -/
theorem parsePatch_of_framed (h : Framed (lines (trim t)) body) : parsePatch t = parsePatchText t .strict := by
  have hb := checkPatchBoundariesStrict_of_framed h
  simp only [parsePatch, parsePatchText, checkPatchBoundaries, checkPatchBoundariesLenient, hb,
    reduceCtorEq, decide_false]

theorem parsePatch_of_strict (h : parsePatchText t .strict = .ok a) : parsePatch t = .ok a := by
  obtain ⟨body, _, hf, _⟩ := parsePatchText_strict_iff.mp h
  rw [parsePatch_of_framed hf, h]

end OpenAgere.ApplyPatch
