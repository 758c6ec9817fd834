import OpenAgere.PatchReading

/-! # Printing a patch

`printPatch` writes a list of hunks as the text of a patch: the two markers, for each hunk its
header, and for each chunk an explicit `@@` header, the old lines with `-`, the new lines with
`+` and the end-of-file marker.  `parsePatch_printPatch` says that the parser undoes it on every
list of hunks whose paths and lines can be written on one line each (`HunkOk`).

The argument goes through the relations of `PatchReading.lean`: printed lines read as the hunk
they print, in front of anything that starts the next hunk (`StartsHunk`). -/

namespace OpenAgere.ApplyPatch

open List Option Text

/-! ### The printer -/

/-- The first line of a chunk, with its context. -/
def printHeader : Option Str → Str
  | none => emptyChangeContextMarker
  | some context => changeContextMarker ++ context

/-- The diff lines of a chunk. -/
def printDiff (chunk : UpdateFileChunk) : List Str :=
  chunk.oldLines.map ('-' :: ·) ++ chunk.newLines.map ('+' :: ·)

def printChunk (chunk : UpdateFileChunk) : List Str :=
  printHeader chunk.changeContext ::
    (printDiff chunk ++ if chunk.isEndOfFile then [eofMarker] else [])

/-- The lines of a hunk; a file that is added has a plus in front of each line. -/
def printHunk : Hunk → List Str
  | .addFile path contents => (addFileMarker ++ path) :: (lines contents).map ('+' :: ·)
  | .deleteFile path => [deleteFileMarker ++ path]
  | .updateFile path movePath chunks =>
      (updateFileMarker ++ path) ::
        (movePath.toList.map (moveToMarker ++ ·) ++ chunks.flatMap printChunk)

def printPatch (hunks : List Hunk) : Str :=
  joinLines (beginPatchMarker :: (hunks.flatMap printHunk ++ [endPatchMarker]))

/-! ### Printable hunks -/

/-- A text that one line of a patch can hold. -/
def LineOk (l : Str) : Prop := '\n' ∉ l ∧ l.getLast? ≠ some '\r'

instance (l : Str) : Decidable (LineOk l) := inferInstanceAs (Decidable (_ ∧ _))

/-- A path that the header of a hunk can hold. -/
def PathOk (path : Str) : Prop := path ≠ [] ∧ '\n' ∉ path ∧ trim path = path

instance (path : Str) : Decidable (PathOk path) := inferInstanceAs (Decidable (_ ∧ _))

structure ChunkOk (chunk : UpdateFileChunk) : Prop where
  context : ∀ l ∈ chunk.changeContext, LineOk l
  old : ∀ l ∈ chunk.oldLines, LineOk l
  new : ∀ l ∈ chunk.newLines, LineOk l
  nonempty : chunk.oldLines ≠ [] ∨ chunk.newLines ≠ []

inductive HunkOk : Hunk → Prop
  | addFile {path : Str} {ts : List Str} : PathOk path → (∀ t ∈ ts, LineOk t) →
      HunkOk (.addFile path (addedContents ts))
  | deleteFile {path : Str} : PathOk path → HunkOk (.deleteFile path)
  | updateFile {path : Str} {movePath : Option Str} {chunks : List UpdateFileChunk} :
      PathOk path → (∀ dest ∈ movePath, PathOk dest) → chunks ≠ [] → (∀ c ∈ chunks, ChunkOk c) →
      HunkOk (.updateFile path movePath chunks)

theorem lines_addedContents : ∀ {ts : List Str}, (∀ t ∈ ts, LineOk t) → lines (addedContents ts) = ts
  | [], _ => rfl
  | t :: ts, h => by
    have ht := h t (by simp)
    have hts := lines_addedContents (fun x hx => h x (mem_cons_of_mem t hx))
    have e : addedContents (t :: ts) = t ++ '\n' :: addedContents ts := by simp [addedContents]
    rw [e, lines_append_newline _ _ ht.1, stripCR_of_getLast ht.2, hts]

variable {path : Str}

theorem PathOk.getLast (h : PathOk path) : ∃ c, path.getLast? = some c ∧ isWhitespace c = false := by
  obtain ⟨hne, _, ht⟩ := h
  obtain ⟨u, c, e, hc⟩ := trim_last (ht.symm ▸ hne)
  rw [ht] at e
  exact ⟨c, by simp [e], hc⟩

variable {m : Str}

theorem PathOk.trim_append (h : PathOk path) (hm : m.head? = some '*') : trim (m ++ path) = m ++ path := by
  obtain ⟨c, e, hc⟩ := h.getLast
  exact trim_eq_self (c := '*') (by decide) hc (by simp [head?_append, hm])
    (by simp [getLast?_append, e])

variable {l : Str}

theorem lineOk_append (hm : '\n' ∉ m) (hr : m.getLast? ≠ some '\r') (hl : LineOk l) : LineOk (m ++ l) := by
  refine ⟨by simp [hm, hl.1], ?_⟩
  rw [getLast?_append]
  cases h : l.getLast? with
  | none => simpa using hr
  | some c => simpa [h] using hl.2

theorem PathOk.lineOk (h : PathOk path) : LineOk path := by
  refine ⟨h.2.1, fun e => ?_⟩
  obtain ⟨c, hc, hw⟩ := h.getLast
  rw [hc, Option.some.injEq] at e
  rw [e] at hw
  revert hw
  decide

/-! ### Printed lines read back -/

theorem UpdateFileChunk.pushLines_append (chunk : UpdateFileChunk) (ds es : List Str) :
    chunk.pushLines (ds ++ es) = (chunk.pushLines ds).pushLines es := by
  simp [pushLines, foldl_append]

theorem UpdateFileChunk.pushLines_minus : ∀ (ts : List Str) (chunk : UpdateFileChunk),
    chunk.pushLines (ts.map ('-' :: ·)) = { chunk with oldLines := chunk.oldLines ++ ts }
  | [], chunk => by simp [pushLines]
  | t :: ts, chunk => by
    rw [map_cons, pushLines_cons chunk _ (d := ([t], [])) rfl, pushLines_minus ts]
    simp [push]

theorem UpdateFileChunk.pushLines_plus : ∀ (ts : List Str) (chunk : UpdateFileChunk),
    chunk.pushLines (ts.map ('+' :: ·)) = { chunk with newLines := chunk.newLines ++ ts }
  | [], chunk => by simp [pushLines]
  | t :: ts, chunk => by
    rw [map_cons, pushLines_cons chunk _ (d := ([], [t])) rfl, pushLines_plus ts]
    simp [push]

theorem isDiff_printDiff (chunk : UpdateFileChunk) : ∀ l ∈ printDiff chunk, isDiff l := by
  intro l hl
  simp only [printDiff, mem_append, List.mem_map] at hl
  rcases hl with ⟨t, _, rfl⟩ | ⟨t, _, rfl⟩
  · exact isDiff_cons.mpr (.inr (.inr rfl))
  · exact isDiff_cons.mpr (.inr (.inl rfl))

theorem chunkHeader_printHeader (context : Option Str) :
    chunkHeader (printHeader context) = some context := by
  cases context with
  | none => rfl
  | some context =>
    have hne : changeContextMarker ++ context ≠ emptyChangeContextMarker := by
      intro e
      have := congrArg List.length e
      simp [changeContextMarker, emptyChangeContextMarker] at this
    simp [chunkHeader, printHeader, hne, stripPrefix_append]

theorem printHeader_head (context : Option Str) : (printHeader context).head? = some '@' := by
  cases context <;> rfl

/-- The lines in front of the parser start the next hunk, or there are none. -/
def StartsHunk (rest : List Str) : Prop :=
  ∀ r ∈ rest.head?, addFileMarker <+: r ∨ deleteFileMarker <+: r ∨ updateFileMarker <+: r

section starts
variable {rest : List Str} {r : Str} (h : StartsHunk rest) (hr : r ∈ rest.head?)
include h hr

theorem StartsHunk.star : r.head? = some '*' := by
  rcases h r hr with ⟨t, rfl⟩ | ⟨t, rfl⟩ | ⟨t, rfl⟩ <;> rfl

/-- Markers of hunks differ from other lines in their first five characters. -/
theorem StartsHunk.ne_of_take {k : Str} (hk : 5 ≤ k.length) (ha : addFileMarker.take 5 ≠ k.take 5)
    (hd : deleteFileMarker.take 5 ≠ k.take 5) (hu : updateFileMarker.take 5 ≠ k.take 5) (q : Str) :
    r ≠ k ++ q := by
  rcases h r hr with ⟨t, rfl⟩ | ⟨t, rfl⟩ | ⟨t, rfl⟩
  · exact append_ne_append ha (by decide) hk t q
  · exact append_ne_append hd (by decide) hk t q
  · exact append_ne_append hu (by decide) hk t q

theorem StartsHunk.ne_eofMarker : r ≠ eofMarker := by
  have := h.ne_of_take hr (k := eofMarker) (by decide) (by decide) (by decide) (by decide) []
  simpa using this

theorem StartsHunk.not_moveToMarker : ¬ moveToMarker <+: r := by
  rintro ⟨t, e⟩
  exact h.ne_of_take hr (k := moveToMarker) (by decide) (by decide) (by decide) (by decide) t e.symm

end starts

variable {c : Char}

variable {ls : List Str}

theorem stopsAt_of_head (h : l.head? = some c)
    (hc : c ≠ ' ' ∧ c ≠ '+' ∧ c ≠ '-') (he : l ≠ eofMarker) : StopsAt (l :: ls) := by
  obtain ⟨t, rfl⟩ := head?_eq_some_iff.mp h
  intro r hr
  simp only [head?_cons, mem_def, Option.some.injEq] at hr
  subst hr
  refine ⟨he, ?_⟩
  rw [← Bool.not_eq_true, isDiff_cons]
  tauto

variable {rest : List Str}

theorem StartsHunk.stopsAt (h : StartsHunk rest) : StopsAt rest := by
  cases rest with
  | nil => simp [StopsAt]
  | cons r rest =>
    exact stopsAt_of_head (h.star rfl) (by decide) (h.ne_eofMarker rfl)

variable {chunk : UpdateFileChunk}

/-- **One chunk** is read back, whatever follows that does not continue it. -/
theorem readsChunk_printChunk (h : ChunkOk chunk)
    (b : Bool) (hr : StopsAt rest) : ReadsChunk b (printChunk chunk ++ rest) chunk rest := by
  obtain ⟨context, old, new, eof⟩ := chunk
  have hne : printDiff ⟨context, old, new, eof⟩ ≠ [] := by
    have := h.nonempty
    simp only [printDiff, ne_eq, append_eq_nil_iff, map_eq_nil_iff] at this ⊢
    tauto
  have hpush : UpdateFileChunk.pushLines ⟨context, [], [], false⟩ (printDiff ⟨context, old, new, eof⟩) =
      ⟨context, old, new, false⟩ := by
    simp [printDiff, UpdateFileChunk.pushLines_append, UpdateFileChunk.pushLines_minus, UpdateFileChunk.pushLines_plus]
  have hd := isDiff_printDiff ⟨context, old, new, eof⟩
  refine ReadsChunk.header (chunkHeader_printHeader context) ?_
  cases eof with
  | false =>
    have := @ReadsLines.stop ⟨context, [], [], false⟩ _ _ hne hd hr
    rw [hpush] at this
    simpa using this
  | true =>
    have := @ReadsLines.eof ⟨context, [], [], false⟩ _ rest hne hd
    rw [hpush] at this
    simpa using this

theorem stopsAt_printChunks (hr : StartsHunk rest) :
    ∀ chunks : List UpdateFileChunk, StopsAt (chunks.flatMap printChunk ++ rest)
  | [] => hr.stopsAt
  | chunk :: chunks => by
    have h := printHeader_head chunk.changeContext
    refine stopsAt_of_head h (by decide) ?_
    intro e
    rw [e] at h
    revert h
    decide

theorem readsUpdate_printChunks (hr : StartsHunk rest) :
    ∀ (chunks : List UpdateFileChunk) (b : Bool), (∀ c ∈ chunks, ChunkOk c) →
      ReadsUpdate b (chunks.flatMap printChunk ++ rest) chunks rest
  | [], b, _ => by
    cases rest with
    | nil => exact ReadsUpdate.nil
    | cons r rest =>
      have h := hr.star rfl
      exact ReadsUpdate.star (isBlank_eq_false_of_head h (by decide)) h
  | chunk :: chunks, b, h => by
    have hh := printHeader_head chunk.changeContext
    have ih := readsUpdate_printChunks hr chunks false fun c hc => h c (by simp [hc])
    have hc := readsChunk_printChunk (h chunk (by simp)) b (stopsAt_printChunks hr chunks)
    rw [flatMap_cons, append_assoc]
    exact ReadsUpdate.chunk (isBlank_eq_false_of_head hh (by decide)) (by rw [hh]; decide) hc ih

theorem StartsHunk.noPlus (h : StartsHunk rest) : NoPlus rest := by
  intro r hr
  rw [h.star hr]
  decide

theorem head_of_moveToMarker (h : moveToMarker <+: l) : l.head? = some '*' := by
  obtain ⟨t, rfl⟩ := h
  rfl

variable {hunk : Hunk}

/-- **One hunk** is read back. -/
theorem readsHunk_printHunk (h : HunkOk hunk)
    (hr : StartsHunk rest) : ReadsHunk (printHunk hunk ++ rest) hunk rest := by
  cases h with
  | @addFile path ts hp ht =>
    simp only [printHunk, lines_addedContents ht, cons_append]
    exact ReadsHunk.add (hp.trim_append rfl) hr.noPlus
  | deleteFile hp => exact ReadsHunk.delete (hp.trim_append rfl)
  | @updateFile path movePath chunks hp hm hne hc =>
    have hu := readsUpdate_printChunks hr chunks true hc
    cases movePath with
    | none =>
      simp only [printHunk, toList_none, map_nil, nil_append, cons_append]
      refine ReadsHunk.update (hp.trim_append rfl) ?_ hu hne
      obtain ⟨c, cs, rfl⟩ := exists_cons_of_ne_nil hne
      have hhead : ((c :: cs).flatMap printChunk ++ rest).head? =
        some (printHeader c.changeContext) := rfl
      intro m hm'
      obtain rfl : printHeader c.changeContext = m := by
        rw [mem_def] at hm'
        exact mem_unique hhead hm'
      intro hpre
      have h1 := printHeader_head c.changeContext
      rw [head_of_moveToMarker hpre] at h1
      cases h1
    | some dest =>
      simp only [printHunk, toList_some, map_cons, map_nil, cons_append,
        nil_append]
      exact ReadsHunk.move (hp.trim_append rfl) hu hne

/-- What is printed after a hunk does not continue it. -/
theorem startsHunk_printHunks : ∀ hunks : List Hunk, StartsHunk (hunks.flatMap printHunk)
  | [] => by simp [StartsHunk]
  | .addFile path contents :: hunks => by
    rintro r ⟨⟩
    exact .inl ⟨path, rfl⟩
  | .deleteFile path :: hunks => by
    rintro r ⟨⟩
    exact .inr (.inl ⟨path, rfl⟩)
  | .updateFile path movePath chunks :: hunks => by
    rintro r ⟨⟩
    exact .inr (.inr ⟨path, rfl⟩)

theorem readsHunks_printHunks : ∀ {hunks : List Hunk}, (∀ h ∈ hunks, HunkOk h) →
    ReadsHunks (hunks.flatMap printHunk) hunks
  | [], _ => ReadsHunks.nil
  | hunk :: hunks, h => by
    have ih := readsHunks_printHunks fun x hx => h x (mem_cons_of_mem hunk hx)
    have hr := readsHunk_printHunk (h hunk (by simp)) (startsHunk_printHunks hunks)
    rw [flatMap_cons]
    cases e : printHunk hunk with
    | nil => cases hunk <;> simp [printHunk] at e
    | cons l ls =>
      rw [e] at hr
      exact ReadsHunks.cons hr ih

/-! ### The round trip -/

theorem lineOk_printChunk (h : ChunkOk chunk) : ∀ l ∈ printChunk chunk, LineOk l := by
  intro l hl
  simp only [printChunk, printDiff, mem_cons, mem_append, List.mem_map] at hl
  rcases hl with rfl | ((⟨t, ht, rfl⟩ | ⟨t, ht, rfl⟩) | hl)
  · cases hc : chunk.changeContext with
    | none => exact ⟨by decide, by decide⟩
    | some c => exact lineOk_append (by decide) (by decide) (h.context c (by simp [hc]))
  · exact lineOk_append (m := ['-']) (by decide) (by decide) (h.old t ht)
  · exact lineOk_append (m := ['+']) (by decide) (by decide) (h.new t ht)
  · split at hl
    · rw [mem_singleton] at hl
      subst hl
      exact ⟨by decide, by decide⟩
    · cases hl

theorem lineOk_printHunk (h : HunkOk hunk) : ∀ l ∈ printHunk hunk, LineOk l := by
  intro l hl
  cases h with
  | @addFile path ts hp ht =>
    simp only [printHunk, lines_addedContents ht, mem_cons, List.mem_map] at hl
    rcases hl with rfl | ⟨t, htm, rfl⟩
    · exact lineOk_append (by decide) (by decide) hp.lineOk
    · exact lineOk_append (m := ['+']) (by decide) (by decide) (ht t htm)
  | deleteFile hp =>
    simp only [printHunk, mem_singleton] at hl
    subst hl
    exact lineOk_append (by decide) (by decide) hp.lineOk
  | updateFile hp hm _ hc =>
    simp only [printHunk, mem_cons, mem_append, List.mem_map, mem_flatMap,
      Option.mem_toList] at hl
    rcases hl with rfl | ⟨dest, hd, rfl⟩ | ⟨c, hcm, hl⟩
    · exact lineOk_append (by decide) (by decide) hp.lineOk
    · exact lineOk_append (by decide) (by decide) (hm dest hd).lineOk
    · exact lineOk_printChunk (hc c hcm) l hl

theorem joinLines_ends (f e : Str) : ∀ ls : List Str, ∃ u, joinLines (f :: (ls ++ [e])) = f ++ '\n' :: u ∧
    e <:+ u
  | [] => ⟨e, rfl, suffix_rfl⟩
  | l :: ls => by
    obtain ⟨u, h1, h2⟩ := joinLines_ends l e ls
    refine ⟨l ++ '\n' :: u, ?_, h2.trans ⟨l ++ ['\n'], by simp⟩⟩
    rw [cons_append, joinLines_cons_cons, ← cons_append, cons_append, h1]

/-- Trimming and cutting a printed text gives its lines. -/
theorem lines_trim_joinLines (h : ∀ l ∈ ls, '\n' ∉ l) :
    trim (joinLines (beginPatchMarker :: (ls ++ [endPatchMarker]))) =
        joinLines (beginPatchMarker :: (ls ++ [endPatchMarker])) ∧
      lines (joinLines (beginPatchMarker :: (ls ++ [endPatchMarker]))) =
        beginPatchMarker :: (ls.map stripCR ++ [endPatchMarker]) := by
  constructor
  · obtain ⟨u, hu, v, rfl⟩ := joinLines_ends beginPatchMarker endPatchMarker ls
    have hf : beginPatchMarker.head? = some '*' := by decide
    have he : endPatchMarker.getLast? = some 'h' := by decide
    rw [hu]
    exact trim_eq_self (c := '*') (d := 'h') (by decide) (by decide) (by simp [head?_append, hf])
      (by simp [getLast?_append, getLast?_cons, he])
  · have hb : ∀ l ∈ beginPatchMarker :: ls, '\n' ∉ l := by
      intro l hl
      rcases mem_cons.mp hl with rfl | hl
      · decide
      · exact h l hl
    have hcr : stripCR beginPatchMarker = beginPatchMarker := by decide
    have e := lines_joinLines (beginPatchMarker :: ls) endPatchMarker hb (by decide) (by decide)
    rw [cons_append, map_cons, hcr] at e
    exact e

/-- **Parsing undoes printing.**  The parser returns exactly the printed hunks. -/
theorem parsePatch_printPatch (hunks : List Hunk) (h : ∀ x ∈ hunks, HunkOk x) :
    parsePatch (printPatch hunks) = .ok ⟨printPatch hunks, hunks, none⟩ := by
  have hl : ∀ l ∈ hunks.flatMap printHunk, LineOk l := by
    intro l hl
    obtain ⟨x, hx, hl⟩ := List.mem_flatMap.mp hl
    exact lineOk_printHunk (h x hx) l hl
  have hid : (hunks.flatMap printHunk).map stripCR = (hunks.flatMap printHunk).map id :=
    List.map_congr_left fun l hm => stripCR_of_getLast (hl l hm).2
  obtain ⟨ht, hls⟩ := lines_trim_joinLines fun l hm => (hl l hm).1
  rw [hid, List.map_id] at hls
  apply parsePatch_of_strict
  rw [parsePatchText_strict_iff]
  refine ⟨hunks.flatMap printHunk, hunks, ?_, readsHunks_printHunks h, ?_⟩
  · rw [printPatch, ht, hls]
    exact ⟨_, _, rfl, by decide, by decide⟩
  · rw [printPatch, ht, hls]

/-- An added file, a moved file with two chunks and a deleted file. -/
theorem parsePatch_printPatch_mixed :
    let hunks : List Hunk :=
      [.addFile "a b.txt" "*** End Patch\n\n",
       .updateFile "src/x.rs" (some "src/y.rs")
        [⟨some "fn f", ["@@", []], ["*"], false⟩, ⟨none, [], [" "], true⟩],
       .deleteFile "c"]
    parsePatch (printPatch hunks) = .ok ⟨printPatch hunks, hunks, none⟩ := by
  apply parsePatch_printPatch
  simp only [mem_cons, not_mem_nil, or_false, forall_eq_or_imp, forall_eq]
  refine ⟨@HunkOk.addFile _ ["*** End Patch", []] (by decide) (by decide),
    .updateFile (by decide) (by decide) (by simp) ?_, .deleteFile (by decide)⟩
  simp only [mem_cons, not_mem_nil, or_false, forall_eq_or_imp, forall_eq]
  exact ⟨⟨by decide, by decide, by decide, by simp⟩, ⟨by decide, by decide, by decide, by simp⟩⟩

end OpenAgere.ApplyPatch
