import OpenAgere.PatchPrint

/-! # The grammar of patches

The Lark grammar at the top of `apply-patch/src/parser.rs`, as trees: `PatchTree` is a
derivation of `start`, and `PatchTree.text` the text it derives.  A tree carries the side
conditions of its terminals, so every tree derives a text of the grammar.

The parser does not accept them all.  It groups the lines of a change into chunks, and each
chunk takes one `@@` header and needs a diff line after it; `parsePatch_text_iff` states exactly
which trees are accepted. -/

namespace OpenAgere.ApplyPatch

open List Option Text

/-! ### Trees -/

namespace Grammar

/-- The terminal `/(.+)/`. -/
abbrev Word := {s : Str // s ≠ [] ∧ '\n' ∉ s}

/-- A file name without surrounding white space. -/
abbrev Filename := {s : Str // PathOk s}

inductive Sign where
  | plus
  | minus
  | space
deriving DecidableEq, Repr

def Sign.char : Sign → Char
  | plus => '+'
  | minus => '-'
  | space => ' '

/-- `change_context | change_line`. -/
inductive Item where
  | changeContext (text : Option Word)
  | changeLine (sign : Sign) (text : Word)

def Item.text : Item → Str
  | changeContext none => emptyChangeContextMarker
  | changeContext (some t) => changeContextMarker ++ t.1
  | changeLine sign t => sign.char :: t.1

/-- `change: (change_context | change_line)+ eof_line?` -/
structure Change where
  items : List Item
  nonempty : items ≠ []
  eofLine : Bool

def Change.lines (c : Change) : List Str :=
  c.items.map Item.text ++ if c.eofLine then [eofMarker] else []

inductive HunkTree where
  | addHunk (filename : Filename) (addLines : List Word) (nonempty : addLines ≠ [])
  | deleteHunk (filename : Filename)
  | updateHunk (filename : Filename) (changeMove : Option Filename) (change : Option Change)

def HunkTree.lines : HunkTree → List Str
  | addHunk path ls _ => (addFileMarker ++ path.1) :: ls.map fun l => '+' :: l.1
  | deleteHunk path => [deleteFileMarker ++ path.1]
  | updateHunk path move change =>
      (updateFileMarker ++ path.1) ::
        (move.toList.map (moveToMarker ++ ·.1) ++ change.toList.flatMap Change.lines)

/-- `start: begin_patch hunk+ end_patch`, with the optional line feed at the end. -/
structure PatchTree where
  hunks : List HunkTree
  nonempty : hunks ≠ []
  lineFeed : Bool

def PatchTree.text (p : PatchTree) : Str :=
  joinLines (beginPatchMarker :: (p.hunks.flatMap HunkTree.lines ++ [endPatchMarker])) ++
    if p.lineFeed then ['\n'] else []

/-! ### Accepted trees -/

def Item.isContext : Item → Bool
  | changeContext _ => true
  | changeLine _ _ => false

/-- A context line of white space only. -/
def Item.isBlankLine : Item → Bool
  | changeLine .space t => isBlank t.1
  | _ => false

/-- Every `change_context` stands directly before a `change_line`. -/
def contextsFollowed : List Item → Bool
  | [] => true
  | [i] => !i.isContext
  | i :: j :: is => (!i.isContext || !j.isContext) && contextsFollowed (j :: is)

/-- The changes the parser accepts: not only blank context lines, and every `change_context`
directly before a `change_line`. -/
def Change.accepted (c : Change) : Bool :=
  c.items.any (!·.isBlankLine) && contextsFollowed c.items

/-- The hunks the parser accepts: an update needs an accepted change. -/
def HunkTree.accepted : HunkTree → Bool
  | updateHunk _ _ change => change.any Change.accepted
  | _ => true

end Grammar

/-! ### Reading the lines of a change -/

/-- Every line that is no diff line stands directly before one that is. -/
def Followed : List Str → Prop
  | [] => True
  | l :: ls => (isDiff l = false → ∃ m ∈ ls.head?, isDiff m) ∧ Followed ls

theorem followed_append {L : List Str} : ∀ {ds : List Str}, (∀ d ∈ ds, isDiff d) →
    (Followed (ds ++ L) ↔ Followed L)
  | [], _ => Iff.rfl
  | d :: ds, h => by
    have hd : isDiff d = true := h d (by simp)
    rw [cons_append, Followed, followed_append fun x hx => h x (mem_cons_of_mem d hx)]
    simp [hd]

section change
variable {rest : List Str} (eof : Bool)

/-- The lines after a change. -/
def afterChange (rest : List Str) (eof : Bool) : List Str := (if eof then [eofMarker] else []) ++ rest

theorem afterChange_star (hr : StartsHunk rest) : ∀ r ∈ (afterChange rest eof).head?,
    r.head? = some '*' := by
  cases eof with
  | false => exact fun r h => hr.star h
  | true =>
    rintro r ⟨⟩
    rfl

/-- The lines left after a chunk that ends in front of `L`. -/
def leftBy (rest : List Str) (eof : Bool) (L : List Str) : List Str :=
  if L = [] then rest else L ++ afterChange rest eof

theorem readsLines_change (hr : StartsHunk rest) (chunk : UpdateFileChunk) {ds L : List Str}
    (hne : ds ≠ []) (hds : ∀ d ∈ ds, isDiff d) (hL : ∀ l ∈ L.head?, (chunkHeader l).isSome) :
    ∃ c, ReadsLines chunk (ds ++ (L ++ afterChange rest eof)) c (leftBy rest eof L) := by
  cases L with
  | nil =>
    cases eof with
    | false => exact ⟨_, ReadsLines.stop hne hds hr.stopsAt⟩
    | true => exact ⟨_, ReadsLines.eof hne hds⟩
  | cons l L =>
    obtain ⟨ctx, hctx⟩ := isSome_iff_exists.mp (hL l (by simp))
    have hh := chunkHeader_head hctx
    have he : l ≠ eofMarker := by
      rintro rfl
      cases hh
    exact ⟨_, ReadsLines.stop hne hds (stopsAt_of_head hh (by decide) he)⟩

/-- The lines of a change: diff lines and chunk headers. -/
def IsChange (L : List Str) : Prop := ∀ l ∈ L, isDiff l ∨ ∃ ctx, chunkHeader l = some ctx

theorem IsChange.span {L : List Str} (h : IsChange L) : ∃ ds L', L = ds ++ L' ∧
    (∀ d ∈ ds, isDiff d) ∧ ∀ l ∈ L'.head?, (chunkHeader l).isSome ∧ isDiff l = false := by
  obtain ⟨ds, L', rfl, hds, hL'⟩ := span_isDiff L
  refine ⟨ds, L', rfl, hds, fun l hl => ⟨?_, hL' l hl⟩⟩
  rcases h l (by simp [mem_of_mem_head? hl]) with hd | ⟨ctx, hctx⟩
  · rw [hL' l hl] at hd
    cases hd
  · simp [hctx]

theorem isBlank_chunkHeader {l : Str} {ctx : Option Str} (h : chunkHeader l = some ctx) :
    isBlank l = false := isBlank_eq_false_of_head (chunkHeader_head h) (by decide)

theorem readsUpdate_leftBy (hr : StartsHunk rest) : ReadsUpdate false rest [] rest :=
  readsUpdate_printChunks hr [] false (by simp)

theorem head_ne_star_of_isDiff {l : Str} (h : isDiff l) : l.head? ≠ some '*' := by
  intro e
  rw [not_isDiff_of_head e (by decide)] at h
  cases h

/-- A line that is neither blank nor a marker starts a chunk. -/
theorem ReadsUpdate.exists_chunk {b : Bool} {l : Str} {ls : List Str} {cs : List UpdateFileChunk} {r : List Str}
    (h : ReadsUpdate b (l :: ls) cs r) (hbl : isBlank l = false) (hstar : l.head? ≠ some '*') :
    ∃ c mid cs', ReadsChunk b (l :: ls) c mid ∧ ReadsUpdate false mid cs' r := by
  cases h with
  | blank hb => exact nomatch hbl.symm.trans hb
  | star _ hs => exact absurd hs hstar
  | chunk _ _ hc h => exact ⟨_, _, _, hc, h⟩

/-- One chunk of a change.  Either the parser reads it, and the lines `L'` left start with a
header, or its header stands before no diff line. -/
theorem readsChunk_change (hr : StartsHunk rest) {l : Str} {L : List Str} {b : Bool}
    (hc : IsChange (l :: L)) (hb : b ∨ isDiff l = false) :
    (∃ c L', ReadsChunk b (l :: L ++ afterChange rest eof) c (leftBy rest eof L') ∧ IsChange L' ∧
        L'.length ≤ L.length ∧ (∀ m ∈ L'.head?, (chunkHeader m).isSome ∧ isDiff m = false) ∧
        (Followed (l :: L) ↔ Followed L')) ∨
      (∀ c r, ¬ ReadsChunk b (l :: L ++ afterChange rest eof) c r) ∧ ¬ Followed (l :: L) := by
  cases hd : isDiff l with
  | true =>
    have hb' : b = true := hb.resolve_right (by simp [hd])
    have hnh := chunkHeader_of_isDiff hd
    obtain ⟨ds, L', e, hds, hL'⟩ := hc.span
    cases ds with
    | nil =>
      rw [nil_append] at e
      rw [(hL' l (by simp [← e])).2] at hd
      cases hd
    | cons d ds =>
      obtain ⟨rfl, rfl⟩ := cons.inj e
      obtain ⟨c, hread⟩ := readsLines_change eof hr ⟨none, [], [], false⟩ (cons_ne_nil _ _) hds
        fun m hm => (hL' m hm).1
      refine Or.inl ⟨c, L', .bare hb' hnh ?_, fun x hx => hc x (by simp [hx]), by simp, hL',
        followed_append hds⟩
      simpa using hread
  | false =>
    obtain ⟨ctx, hctx⟩ := (hc l (by simp)).resolve_left (by simp [hd])
    have hcL : IsChange L := fun x hx => hc x (by simp [hx])
    obtain ⟨ds, L', rfl, hds, hL'⟩ := hcL.span
    cases ds with
    | nil =>
      refine Or.inr ⟨fun c r h => ?_, fun hf => ?_⟩
      · have hnd : ∀ m ∈ (L' ++ afterChange rest eof).head?, isDiff m = false := by
          intro m hm
          rw [head?_append] at hm
          cases hL : L'.head? with
          | some x =>
            simp only [hL, some_or, mem_def, Option.some.injEq] at hm
            subst hm
            exact (hL' x hL).2
          | none =>
            rw [hL, none_or] at hm
            exact not_isDiff_of_head (afterChange_star eof hr m hm) (by decide)
        have key : ∃ m ∈ (L' ++ afterChange rest eof).head?, isDiff m = true := by
          cases h with
          | header _ h => exact h.head
          | bare _ h _ => simp [hctx] at h
        obtain ⟨m, hm, hdm⟩ := key
        rw [hnd m hm] at hdm
        cases hdm
      · obtain ⟨m, hm, hdm⟩ := hf.1 hd
        rw [(hL' m hm).2] at hdm
        cases hdm
    | cons d ds =>
      obtain ⟨c, hread⟩ := readsLines_change eof hr ⟨ctx, [], [], false⟩ (cons_ne_nil _ _) hds
        fun m hm => (hL' m hm).1
      refine Or.inl ⟨c, L', .header hctx ?_, fun x hx => hcL x (by simp [hx]), by simp; omega,
        hL', ?_⟩
      · simpa using hread
      · have hfirst : ∃ m ∈ (d :: ds ++ L').head?, isDiff m = true := ⟨d, rfl, hds d (by simp)⟩
        rw [Followed, followed_append hds]
        exact ⟨fun h => h.2, fun h => ⟨fun _ => hfirst, h⟩⟩

/-- What the parser reads of a change.  It succeeds when headers stand before diff lines, and
reads a chunk when some line is not blank.  `b` allows the change to start with diff lines. -/
theorem readsUpdate_change (hr : StartsHunk rest) : ∀ {n : ℕ} {L : List Str} {b : Bool},
    L.length ≤ n → IsChange L → (b ∨ ∀ l ∈ L.head?, isDiff l = false) →
    (Followed L → (∃ l ∈ L, isBlank l = false) →
        ∃ cs, cs ≠ [] ∧ ReadsUpdate b (L ++ afterChange rest eof) cs rest) ∧
      ∀ {cs r}, ReadsUpdate b (L ++ afterChange rest eof) cs r →
        Followed L ∧ (cs ≠ [] → ∃ l ∈ L, isBlank l = false)
  | n, [], b, _, _, _ => by
    refine ⟨by simp, fun {cs r} h => ⟨trivial, fun hcs => absurd ?_ hcs⟩⟩
    have hs := afterChange_star eof hr
    rw [nil_append] at h
    generalize afterChange rest eof = T at h hs
    cases T with
    | nil => cases h; rfl
    | cons t T =>
      have ht := hs t rfl
      have hnb := isBlank_eq_false_of_head ht (by decide)
      cases h with
      | blank hb => exact nomatch hnb.symm.trans hb
      | star => rfl
      | chunk _ hne => exact absurd ht hne
  | 0, l :: L, b, hn, _, _ => by simp at hn
  | n + 1, l :: L, b, hn, hc, hb => by
    simp only [length_cons, Nat.add_le_add_iff_right] at hn
    have hb' : b = true ∨ isDiff l = false := hb.imp_right fun h => h l rfl
    cases hbl : isBlank l with
    | true =>
      have hd : isDiff l = true := (hc l (by simp)).resolve_right fun ⟨ctx, h⟩ => by
        rw [isBlank_chunkHeader h] at hbl
        cases hbl
      have hc' : IsChange L := fun x hx => hc x (by simp [hx])
      obtain ⟨ih1, ih2⟩ := readsUpdate_change (b := b) hr hn hc'
        (Or.inl (hb'.resolve_right (by simp [hd])))
      have hF : Followed (l :: L) ↔ Followed L := by simp [Followed, hd]
      have hE : (∃ x ∈ l :: L, isBlank x = false) ↔ ∃ x ∈ L, isBlank x = false := by simp [hbl]
      rw [hF, hE]
      refine ⟨fun hf hx => ?_, fun {cs r} h => ?_⟩
      · obtain ⟨cs, hne, h⟩ := ih1 hf hx
        exact ⟨cs, hne, .blank hbl h⟩
      · rw [cons_append] at h
        cases h with
        | blank _ h => exact ih2 h
        | star hb | chunk hb => exact nomatch hbl.symm.trans hb
    | false =>
      have hstar : l.head? ≠ some '*' := by
        rcases hc l (by simp) with h | ⟨ctx, h⟩
        · exact head_ne_star_of_isDiff h
        · rw [chunkHeader_head h]
          decide
      have hex : ∃ x ∈ l :: L, isBlank x = false := ⟨l, by simp, hbl⟩
      rcases readsChunk_change eof hr hc hb' with ⟨c, L', hread, hc', hlen, hL', hF⟩ | ⟨hno, hF⟩
      · obtain ⟨ih1, ih2⟩ := readsUpdate_change (b := false) hr (hlen.trans hn) hc'
          (Or.inr fun m hm => (hL' m hm).2)
        rw [hF]
        refine ⟨fun hf _ => ?_, fun {cs r} h => ⟨?_, fun _ => hex⟩⟩
        · cases L' with
          | nil => exact ⟨[c], by simp, .chunk hbl hstar hread (readsUpdate_leftBy hr)⟩
          | cons m L' =>
            obtain ⟨ctx, hctx⟩ := isSome_iff_exists.mp (hL' m rfl).1
            obtain ⟨cs, _, h⟩ := ih1 hf ⟨m, by simp, isBlank_chunkHeader hctx⟩
            exact ⟨c :: cs, by simp, .chunk hbl hstar hread h⟩
        · obtain ⟨c', mid, cs', hread', h⟩ := h.exists_chunk hbl hstar
          obtain ⟨_, rfl⟩ := ReadsChunk.unique hread hread'
          cases L' with
          | nil => trivial
          | cons m L' => exact (ih2 h).1
      · refine ⟨fun hf _ => absurd hf hF, fun {cs r} h => ?_⟩
        obtain ⟨c', mid, cs', hread', -⟩ := h.exists_chunk hbl hstar
        exact absurd hread' (hno _ _)

end change

/-! ### The lines a tree derives -/

theorem stripCR_append {l : Str} (h : l ≠ []) (m : Str) : stripCR (m ++ l) = m ++ stripCR l := by
  unfold stripCR
  rw [getLast?_append_of_ne_nil m h]
  split_ifs
  · rw [dropLast_append_of_ne_nil h]
  · rfl

theorem isBlank_stripCR (l : Str) : isBlank (stripCR l) = isBlank l := by
  unfold stripCR
  split_ifs with h
  · obtain ⟨t, rfl⟩ := getLast?_eq_some_iff.mp h
    unfold isBlank
    rw [dropLast_concat, trim_concat_of_ws t (by decide)]
  · rfl

theorem stripCR_path {path m : Str} (h : PathOk path) : stripCR (m ++ path) = m ++ path := by
  rw [stripCR_append h.1, stripCR_of_getLast h.lineOk.2]

namespace Grammar

theorem stripCR_changeLine (sign : Sign) (t : Word) :
    stripCR (Item.changeLine sign t).text = sign.char :: stripCR t.1 := by
  exact stripCR_append t.2.1 [sign.char]

theorem chunkHeader_changeContext (t : Option Word) :
    ∃ ctx, chunkHeader (stripCR (Item.changeContext t).text) = some ctx := by
  cases t with
  | none => exact ⟨none, by decide⟩
  | some t =>
    refine ⟨some (stripCR t.1), ?_⟩
    rw [Item.text, stripCR_append t.2.1]
    exact chunkHeader_printHeader (some (stripCR t.1))

theorem isDiff_item (i : Item) : isDiff (stripCR i.text) = !i.isContext := by
  cases i with
  | changeContext t =>
    obtain ⟨ctx, h⟩ := chunkHeader_changeContext t
    exact not_isDiff_of_head (chunkHeader_head h) (by decide)
  | changeLine sign t =>
    rw [stripCR_changeLine]
    cases sign <;> rfl

theorem isBlank_item (i : Item) : isBlank (stripCR i.text) = i.isBlankLine := by
  cases i with
  | changeContext t =>
    obtain ⟨ctx, h⟩ := chunkHeader_changeContext t
    exact isBlank_chunkHeader h
  | changeLine sign t =>
    rw [stripCR_changeLine]
    cases sign with
    | plus | minus => exact isBlank_eq_false_of_head rfl (by decide)
    | space =>
      rw [Item.isBlankLine, ← isBlank_stripCR t.1, Bool.eq_iff_iff, isBlank_iff, isBlank_iff]
      have : isWhitespace Sign.space.char = true := by decide
      simp [this]

theorem isChange_items (is : List Item) : IsChange (is.map fun i => stripCR i.text) := by
  intro l hl
  obtain ⟨i, _, rfl⟩ := mem_map.mp hl
  cases i with
  | changeContext t => exact Or.inr (chunkHeader_changeContext t)
  | changeLine sign t => exact Or.inl (isDiff_item _)

theorem followed_items : ∀ is : List Item,
    Followed (is.map fun i => stripCR i.text) ↔ contextsFollowed is
  | [] => by simp [Followed, contextsFollowed]
  | [i] => by simp [Followed, contextsFollowed, isDiff_item]
  | i :: j :: is => by
    have ih := followed_items (j :: is)
    rw [map_cons, Followed, ih, contextsFollowed, Bool.and_eq_true]
    simp only [isDiff_item, map_cons, head?_cons, mem_def, Option.some.injEq,
      exists_eq_left', Bool.or_eq_true]
    cases i.isContext <;> simp

theorem Change.accepted_iff (c : Change) : c.accepted ↔
    Followed (c.items.map fun i => stripCR i.text) ∧
      ∃ l ∈ c.items.map (fun i => stripCR i.text), isBlank l = false := by
  rw [followed_items, Change.accepted, Bool.and_eq_true, and_comm]
  simp [isBlank_item]

theorem Change.lines_stripCR (c : Change) (rest : List Str) : c.lines.map stripCR ++ rest =
    c.items.map (fun i => stripCR i.text) ++ afterChange rest c.eofLine := by
  have h : stripCR eofMarker = eofMarker := by decide
  cases he : c.eofLine <;> simp [Change.lines, afterChange, he, h, Function.comp_def]

section

variable {rest : List Str} (hr : StartsHunk rest)
include hr

theorem readsUpdate_tree (change : Option Change) :
    (change.any Change.accepted → ∃ cs, cs ≠ [] ∧
        ReadsUpdate true ((change.toList.flatMap Change.lines).map stripCR ++ rest) cs rest) ∧
      ∀ {cs r}, ReadsUpdate true ((change.toList.flatMap Change.lines).map stripCR ++ rest) cs r →
        cs ≠ [] → change.any Change.accepted := by
  cases change with
  | none =>
    refine ⟨by simp, fun {cs r} h hcs => ?_⟩
    have hn : IsChange [] := forall_mem_nil _
    obtain ⟨l, hl, _⟩ := ((readsUpdate_change false hr le_rfl hn (Or.inl rfl)).2 h).2 hcs
    cases hl
  | some c =>
    obtain ⟨h1, h2⟩ := readsUpdate_change (b := true) c.eofLine hr le_rfl (isChange_items c.items)
      (Or.inl rfl)
    simp only [any_some, toList_some, flatMap_singleton, Change.lines_stripCR,
      Change.accepted_iff]
    exact ⟨fun h => h1 h.1 h.2, fun {cs r} h hcs => ⟨(h2 h).1, (h2 h).2 hcs⟩⟩

theorem not_moveToMarker_change (change : Option Change) :
    ∀ m ∈ ((change.toList.flatMap Change.lines).map stripCR ++ rest).head?, ¬ moveToMarker <+: m := by
  cases change with
  | none => exact fun m hm => hr.not_moveToMarker hm
  | some c =>
    intro m hm hpre
    rw [toList_some, flatMap_singleton, Change.lines_stripCR] at hm
    obtain ⟨i, is, hi⟩ := exists_cons_of_ne_nil c.nonempty
    rw [hi] at hm
    obtain rfl : stripCR i.text = m := by simpa using hm
    have hstar := head_of_moveToMarker hpre
    rcases isChange_items [i] (stripCR i.text) (by simp) with hd | ⟨ctx, h⟩
    · exact head_ne_star_of_isDiff hd hstar
    · rw [chunkHeader_head h] at hstar
      cases hstar

/-- What the parser reads of one hunk. -/
theorem readsHunk_tree (h : HunkTree) :
    (h.accepted → ∃ hunk, ReadsHunk (h.lines.map stripCR ++ rest) hunk rest) ∧
      ∀ {hunk r}, ReadsHunk (h.lines.map stripCR ++ rest) hunk r → h.accepted := by
  cases h with
  | addHunk path ls _ =>
    refine ⟨fun _ => ?_, fun _ => rfl⟩
    have e : (HunkTree.addHunk path ls ‹_›).lines.map stripCR =
        (addFileMarker ++ path.1) :: (ls.map fun l => stripCR l.1).map ('+' :: ·) := by
      simp only [HunkTree.lines, List.map_cons, List.map_map, stripCR_path path.2]
      congr 1
      exact List.map_congr_left fun l _ => stripCR_append l.2.1 ['+']
    rw [e]
    exact ⟨_, .add (path.2.trim_append rfl) hr.noPlus⟩
  | deleteHunk path =>
    refine ⟨fun _ => ?_, fun _ => rfl⟩
    rw [HunkTree.lines, List.map_singleton, stripCR_path path.2]
    exact ⟨_, .delete (path.2.trim_append rfl)⟩
  | updateHunk path move change =>
    obtain ⟨h1, h2⟩ := readsUpdate_tree hr change
    have ht : trim (updateFileMarker ++ path.1) = updateFileMarker ++ path.1 := path.2.trim_append rfl
    cases move with
    | none =>
      have hm := not_moveToMarker_change hr change
      simp only [HunkTree.lines, HunkTree.accepted, List.map_cons, stripCR_path path.2,
        Option.toList_none, List.map_nil, List.nil_append, List.cons_append]
      refine ⟨fun ha => ?_, fun {hunk r} h => ?_⟩
      · obtain ⟨cs, hne, hu⟩ := h1 ha
        exact ⟨_, .update ht hm hu hne⟩
      · obtain ⟨cs, hne, ⟨_, _, hu⟩ | ⟨dest, ls', e, _, _⟩⟩ := h.update_inv ht
        · exact h2 hu hne
        · exact absurd (List.prefix_append _ _) (hm _ (by rw [e]; rfl))
    | some dest =>
      simp only [HunkTree.lines, HunkTree.accepted, List.map_cons, stripCR_path path.2,
        stripCR_path dest.2, Option.toList_some, List.map_nil, List.nil_append, List.cons_append]
      refine ⟨fun ha => ?_, fun {hunk r} h => ?_⟩
      · obtain ⟨cs, hne, hu⟩ := h1 ha
        exact ⟨_, .move ht hu hne⟩
      · obtain ⟨cs, hne, ⟨_, hm, _⟩ | ⟨dest', ls', e, _, hu⟩⟩ := h.update_inv ht
        · exact absurd (List.prefix_append _ _) (hm _ rfl)
        · obtain ⟨_, rfl⟩ := List.cons.inj e
          exact h2 hu hne

end

theorem startsHunk_trees : ∀ hs : List HunkTree,
    StartsHunk ((hs.flatMap HunkTree.lines).map stripCR)
  | [] => by simp [StartsHunk]
  | .addHunk path ls h :: hs => by
    rintro r ⟨⟩
    exact Or.inl ⟨path.1, (stripCR_path path.2).symm⟩
  | .deleteHunk path :: hs => by
    rintro r ⟨⟩
    exact Or.inr (Or.inl ⟨path.1, (stripCR_path path.2).symm⟩)
  | .updateHunk path move change :: hs => by
    rintro r ⟨⟩
    exact Or.inr (Or.inr ⟨path.1, (stripCR_path path.2).symm⟩)

theorem HunkTree.lines_ne_nil (h : HunkTree) : ∃ l ls, h.lines.map stripCR = l :: ls := by
  cases h <;> exact ⟨_, _, rfl⟩

theorem readsHunks_trees : ∀ hs : List HunkTree,
    (∃ hunks, ReadsHunks ((hs.flatMap HunkTree.lines).map stripCR) hunks) ↔
      ∀ h ∈ hs, h.accepted
  | [] => ⟨by simp, fun _ => ⟨[], .nil⟩⟩
  | h :: hs => by
    have ih := readsHunks_trees hs
    obtain ⟨h1, h2⟩ := readsHunk_tree (startsHunk_trees hs) h
    obtain ⟨l, ls, e⟩ := h.lines_ne_nil
    rw [e, cons_append] at h1 h2
    rw [flatMap_cons, map_append, e, cons_append]
    simp only [mem_cons, forall_eq_or_imp]
    rw [← ih]
    constructor
    · rintro ⟨hunks, hread⟩
      cases hread with
      | cons hr hrest =>
        have ha := h2 hr
        obtain ⟨hunk, hr'⟩ := h1 ha
        obtain ⟨_, rfl⟩ := ReadsHunk.unique hr hr'
        exact ⟨ha, _, hrest⟩
    · rintro ⟨ha, hunks, hrest⟩
      obtain ⟨hunk, hr⟩ := h1 ha
      exact ⟨hunk :: hunks, .cons hr hrest⟩

theorem HunkTree.no_newline (h : HunkTree) : ∀ l ∈ h.lines, '\n' ∉ l := by
  have hm : ∀ {m t : Str}, '\n' ∉ m → '\n' ∉ t → '\n' ∉ m ++ t := by
    intro m t hm ht
    simp [hm, ht]
  intro l hl
  cases h with
  | addHunk path ls _ =>
    simp only [HunkTree.lines, List.mem_cons, List.mem_map] at hl
    rcases hl with rfl | ⟨t, _, rfl⟩
    · exact hm (by decide) path.2.2.1
    · exact hm (m := ['+']) (by decide) t.2.2
  | deleteHunk path =>
    simp only [HunkTree.lines, List.mem_singleton] at hl
    subst hl
    exact hm (by decide) path.2.2.1
  | updateHunk path move change =>
    simp only [HunkTree.lines, List.mem_cons, List.mem_append, List.mem_map, List.mem_flatMap,
      Change.lines] at hl
    rcases hl with rfl | ⟨dest, _, rfl⟩ | ⟨c, _, ⟨i, _, rfl⟩ | hl⟩
    · exact hm (by decide) path.2.2.1
    · exact hm (by decide) dest.2.2.1
    · match i with
      | .changeContext none => decide
      | .changeContext (some t) => exact hm (by decide) t.2.2
      | .changeLine sign t => exact hm (m := [sign.char]) (by cases sign <;> decide) t.2.2
    · split at hl
      · rw [List.mem_singleton] at hl
        subst hl
        decide
      · cases hl

theorem PatchTree.framed (p : PatchTree) :
    Framed (lines (trim p.text)) ((p.hunks.flatMap HunkTree.lines).map stripCR) := by
  have hn : ∀ l ∈ p.hunks.flatMap HunkTree.lines, '\n' ∉ l := by
    intro l hl
    obtain ⟨h, _, hl⟩ := mem_flatMap.mp hl
    exact h.no_newline l hl
  obtain ⟨ht, hls⟩ := lines_trim_joinLines hn
  have htrim : trim p.text =
      joinLines (beginPatchMarker :: (p.hunks.flatMap HunkTree.lines ++ [endPatchMarker])) := by
    unfold PatchTree.text
    cases p.lineFeed with
    | false => simpa using ht
    | true =>
      rw [if_pos rfl, trim_concat_of_ws _ (by decide)]
      exact ht
  rw [htrim, hls]
  exact ⟨_, _, rfl, by decide, by decide⟩

/-- **The texts of the grammar that the parser accepts.**  An update needs a change that is not
made of blank context lines only and in which every `change_context` stands directly before a
`change_line`. -/
theorem parsePatch_text_iff (p : PatchTree) :
    (∃ args, parsePatch p.text = .ok args) ↔ ∀ h ∈ p.hunks, h.accepted := by
  rw [← readsHunks_trees, parsePatch_of_framed p.framed]
  simp only [parsePatchText_strict_iff]
  constructor
  · rintro ⟨args, body, hs, hf, hr, _⟩
    obtain ⟨f, e, h1, _, _⟩ := hf
    obtain ⟨f', e', h2, _, _⟩ := p.framed
    rw [h1] at h2
    obtain ⟨rfl, _⟩ := append_inj' (cons.inj h2).2 rfl
    exact ⟨hs, hr⟩
  · rintro ⟨hs, hr⟩
    exact ⟨_, _, hs, p.framed, hr, rfl⟩

/-- Two `change_context` lines in a row, as for a method inside a class. -/
def nestedContexts : PatchTree where
  hunks := [.updateHunk ⟨"a.py", by decide⟩ none (some
    { items := [.changeContext (some ⟨"class A", by decide⟩),
        .changeContext (some ⟨"def f", by decide⟩),
        .changeLine .plus ⟨"x", by decide⟩]
      nonempty := by simp
      eofLine := false })]
  nonempty := by simp
  lineFeed := true

theorem parsePatch_nestedContexts : nestedContexts.text =
      "*** Begin Patch\n*** Update File: a.py\n@@ class A\n@@ def f\n+x\n*** End Patch\n" ∧
    ¬ ∃ args, parsePatch nestedContexts.text = .ok args := by
  have h : parsePatch nestedContexts.text = .error (unexpectedLineError "@@ def f" 4) := by
    decide +kernel
  refine ⟨by decide +kernel, ?_⟩
  rintro ⟨args, e⟩
  rw [h] at e
  cases e

end Grammar

end OpenAgere.ApplyPatch
