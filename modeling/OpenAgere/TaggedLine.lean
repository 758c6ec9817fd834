import OpenAgere.InlineHiddenTag

/-! # Tags on lines of their own

`TaggedLineParser` of `utils/common/src/stream_parser/tagged_line_parser.rs`.  A line is buffered
while it can still be a tag.  The text collected between two pushes (`run`) and the merging of
neighbouring segments depend on the chunks; what does not is the sequence of tokens the segments
stand for: every character with the block it belongs to, and the tags (`tokens`).
`parseChar_view` says that a character adds tokens that depend on the state of the parser only,
so that two chunks give the tokens of one (`parse_append`).  No segment is ever empty
(`parse_solid`, `finishTagged_solid`).  `parseChunks_lines` says that the tokens are those of a
reader of whole lines (`lineTokens`), so that the early decision on a line never shows. -/

namespace OpenAgere.StreamText

open List Text

structure TagSpec (T : Type) where
  opener : Str
  close : Str
  tag : T

inductive TaggedLineSegment (T : Type) where
  | normal (text : Str)
  | tagStart (tag : T)
  | tagDelta (tag : T) (text : Str)
  | tagEnd (tag : T)
deriving DecidableEq, Repr

structure TaggedLineParser (T : Type) where
  activeTag : Option T
  detectTag : Bool
  lineBuffer : Str
deriving DecidableEq, Repr

/-! ### The parser -/

section parser
variable {T : Type} [DecidableEq T]

def pushSegment (segments : List (TaggedLineSegment T)) (segment : TaggedLineSegment T) :
    List (TaggedLineSegment T) :=
  match segment with
  | .normal delta =>
      if delta = [] then segments
      else match segments.getLast? with
        | some (.normal existing) => segments.dropLast ++ [.normal (existing ++ delta)]
        | _ => segments ++ [.normal delta]
  | .tagDelta tag delta =>
      if delta = [] then segments
      else match segments.getLast? with
        | some (.tagDelta existingTag existing) =>
            if existingTag = tag then segments.dropLast ++ [.tagDelta tag (existing ++ delta)]
            else segments ++ [.tagDelta tag delta]
        | _ => segments ++ [.tagDelta tag delta]
  | .tagStart tag => segments ++ [.tagStart tag]
  | .tagEnd tag => segments ++ [.tagEnd tag]

/-- The segment of some text. -/
def textSegment (activeTag : Option T) (text : Str) : TaggedLineSegment T :=
  match activeTag with
  | some tag => .tagDelta tag text
  | none => .normal text

def pushText (activeTag : Option T) (text : Str) (segments : List (TaggedLineSegment T)) :
    List (TaggedLineSegment T) := pushSegment segments (textSegment activeTag text)

variable (specs : List (TagSpec T))

def isTagPrefix (slug : Str) : Bool :=
  specs.any fun spec => (trimEnd slug).isPrefixOf spec.opener || (trimEnd slug).isPrefixOf spec.close

def matchOpen (slug : Str) : Option T := (specs.find? fun spec => spec.opener = slug).map (·.tag)

def matchClose (slug : Str) : Option T := (specs.find? fun spec => spec.close = slug).map (·.tag)

/-- A line without its line break. -/
def withoutNewline (line : Str) : Str := if line.getLast? = some '\n' then line.dropLast else line

/-- What a complete line is: a tag that opens or closes a block, or text. -/
def decideLine (activeTag : Option T) (line : Str) (segments : List (TaggedLineSegment T)) :
    Option T × List (TaggedLineSegment T) :=
  let slug := trimEnd (trimStart (withoutNewline line))
  match matchOpen specs slug, activeTag with
  | some tag, none => (some tag, pushSegment segments (.tagStart tag))
  | _, _ =>
      match matchClose specs slug with
      | some tag =>
          if activeTag = some tag then (none, pushSegment segments (.tagEnd tag))
          else (activeTag, pushText activeTag line segments)
      | none => (activeTag, pushText activeTag line segments)

/-- The parser, the text collected since the last segment, and the segments of this push. -/
abbrev ParseState (T : Type) : Type := TaggedLineParser T × Str × List (TaggedLineSegment T)

/-- One character. -/
def parseChar (s : ParseState T) (ch : Char) : ParseState T :=
  let (self, run, segments) := s
  if self.detectTag then
    let segments := if run = [] then segments else pushText self.activeTag run segments
    let line := self.lineBuffer ++ [ch]
    if ch = '\n' then
      let (activeTag, segments) := decideLine specs self.activeTag line segments
      (⟨activeTag, true, []⟩, [], segments)
    else if trimStart line = [] ∨ isTagPrefix specs (trimStart line) then
      ({ self with lineBuffer := line }, [], segments)
    else ({ self with detectTag := false, lineBuffer := [] }, [], pushText self.activeTag line segments)
  else if ch = '\n' then
    ({ self with detectTag := true }, [], pushText self.activeTag (run ++ [ch]) segments)
  else (self, run ++ [ch], segments)

def parse (self : TaggedLineParser T) (delta : Str) : TaggedLineParser T × List (TaggedLineSegment T) :=
  let (self, run, segments) := delta.foldl (parseChar specs) (self, [], [])
  (self, if run = [] then segments else pushText self.activeTag run segments)

/-- The end of the stream decides the line begun and closes an open block. -/
def finishTagged (self : TaggedLineParser T) : TaggedLineParser T × List (TaggedLineSegment T) :=
  let (activeTag, segments) :=
    if self.lineBuffer = [] then (self.activeTag, []) else decideLine specs self.activeTag self.lineBuffer []
  (⟨none, true, []⟩, match activeTag with
    | some tag => pushSegment segments (.tagEnd tag)
    | none => segments)

end parser

/-! ### Tokens -/

/-- What a consumer of the segments sees, one character at a time. -/
inductive Token (T : Type) where
  | normal (c : Char)
  | tagStart (tag : T)
  | tagDelta (tag : T) (c : Char)
  | tagEnd (tag : T)
deriving DecidableEq, Repr

section tokens
variable {T : Type}

def TaggedLineSegment.tokens : TaggedLineSegment T → List (Token T)
  | normal text => text.map .normal
  | tagStart tag => [.tagStart tag]
  | tagDelta tag text => text.map (.tagDelta tag)
  | tagEnd tag => [.tagEnd tag]

/-- The tokens of some segments. -/
def tokens (segments : List (TaggedLineSegment T)) : List (Token T) :=
  segments.flatMap TaggedLineSegment.tokens

@[simp] theorem tokens_nil : tokens ([] : List (TaggedLineSegment T)) = [] := rfl

@[simp] theorem tokens_append (x y : List (TaggedLineSegment T)) : tokens (x ++ y) = tokens x ++ tokens y := by
  simp [tokens]

theorem tokens_singleton (s : TaggedLineSegment T) : tokens [s] = s.tokens := by simp [tokens]

theorem tokens_replaceLast {segments : List (TaggedLineSegment T)} {last new s : TaggedLineSegment T}
    (hl : segments.getLast? = some last) (hn : new.tokens = last.tokens ++ s.tokens) :
    tokens (segments.dropLast ++ [new]) = tokens segments ++ s.tokens := by
  obtain ⟨init, rfl⟩ := getLast?_eq_some_iff.mp hl
  simp [tokens_singleton, hn]

theorem textSegment_tokens_nil (activeTag : Option T) : (textSegment activeTag []).tokens = [] := by
  cases activeTag <;> rfl

theorem textSegment_tokens_append (activeTag : Option T) (a b : Str) : (textSegment activeTag (a ++ b)).tokens =
    (textSegment activeTag a).tokens ++ (textSegment activeTag b).tokens := by
  cases activeTag <;> simp [textSegment, TaggedLineSegment.tokens]

variable [DecidableEq T]

@[simp] theorem tokens_pushSegment (segments : List (TaggedLineSegment T)) (s : TaggedLineSegment T) :
    tokens (pushSegment segments s) = tokens segments ++ s.tokens := by
  fun_cases pushSegment segments s with
  | case1 | case4 => simp [TaggedLineSegment.tokens]
  | case2 _ _ _ hl | case5 _ _ _ _ hl => exact tokens_replaceLast hl (by simp [TaggedLineSegment.tokens])
  | _ => rw [tokens_append, tokens_singleton]

@[simp] theorem tokens_pushText (activeTag : Option T) (text : Str) (segments : List (TaggedLineSegment T)) :
    tokens (pushText activeTag text segments) = tokens segments ++ (textSegment activeTag text).tokens :=
  tokens_pushSegment _ _

theorem tokens_flush (activeTag : Option T) (run : Str) (segments : List (TaggedLineSegment T)) :
    tokens (if run = [] then segments else pushText activeTag run segments) =
      tokens segments ++ (textSegment activeTag run).tokens := by
  split_ifs with h
  · rw [h, textSegment_tokens_nil, append_nil]
  · exact tokens_pushText _ _ _

variable (specs : List (TagSpec T))

/-- A line is decided by the parser alone, and only adds tokens. -/
theorem decideLine_tokens (activeTag : Option T) (line : Str) (segments : List (TaggedLineSegment T)) :
    (decideLine specs activeTag line segments).1 = (decideLine specs activeTag line []).1 ∧
      tokens (decideLine specs activeTag line segments).2 =
        tokens segments ++ tokens (decideLine specs activeTag line []).2 := by
  unfold decideLine
  dsimp only
  split
  · simp
  · split
    · split_ifs <;> simp
    · simp

/-- The tokens of a state: those of its segments and of the text collected. -/
def view (s : ParseState T) : List (Token T) := tokens s.2.2 ++ (textSegment s.1.activeTag s.2.1).tokens

/-- **One character** adds tokens that depend on the state of the parser only. -/
theorem parseChar_view (self : TaggedLineParser T) (run : Str) (segments : List (TaggedLineSegment T))
    (ch : Char) :
    (parseChar specs (self, run, segments) ch).1 = (parseChar specs (self, [], []) ch).1 ∧
      view (parseChar specs (self, run, segments) ch) =
        view (self, run, segments) ++ view (parseChar specs (self, [], []) ch) := by
  unfold parseChar view
  by_cases hd : self.detectTag = true
  · simp only [hd, if_true]
    by_cases hn : ch = '\n'
    · simp only [hn, if_true]
      obtain ⟨h1, h2⟩ := decideLine_tokens specs self.activeTag (self.lineBuffer ++ ['\n'])
        (if run = [] then segments else pushText self.activeTag run segments)
      refine ⟨by rw [h1], ?_⟩
      rw [h2, tokens_flush]
      simp [textSegment_tokens_nil]
    · by_cases hb : trimStart (self.lineBuffer ++ [ch]) = [] ∨
          isTagPrefix specs (trimStart (self.lineBuffer ++ [ch]))
      · simp [hn, hb, tokens_flush, textSegment_tokens_nil]
      · simp [hn, hb, tokens_flush, textSegment_tokens_nil]
  · by_cases hn : ch = '\n'
    · simp [hd, hn, textSegment_tokens_append, textSegment_tokens_nil]
    · simp [hd, hn, textSegment_tokens_append]

/-- A run over a text adds tokens that depend on the state of the parser only. -/
theorem foldl_parseChar_view : ∀ (delta : Str) (self : TaggedLineParser T) (run : Str)
    (segments : List (TaggedLineSegment T)),
    (delta.foldl (parseChar specs) (self, run, segments)).1 = (delta.foldl (parseChar specs) (self, [], [])).1 ∧
      view (delta.foldl (parseChar specs) (self, run, segments)) =
        view (self, run, segments) ++ view (delta.foldl (parseChar specs) (self, [], []))
  | [], self, run, segments => by simp [view, textSegment_tokens_nil]
  | ch :: delta, self, run, segments => by
    rw [foldl_cons, foldl_cons]
    obtain ⟨h1, h2⟩ := parseChar_view specs self run segments ch
    obtain ⟨i1, i2⟩ := foldl_parseChar_view delta (parseChar specs (self, run, segments) ch).1
      (parseChar specs (self, run, segments) ch).2.1 (parseChar specs (self, run, segments) ch).2.2
    obtain ⟨j1, j2⟩ := foldl_parseChar_view delta (parseChar specs (self, [], []) ch).1
      (parseChar specs (self, [], []) ch).2.1 (parseChar specs (self, [], []) ch).2.2
    simp only [Prod.mk.eta] at i1 i2 j1 j2
    rw [i1, i2, j1, j2, h1, h2, append_assoc]
    exact ⟨rfl, rfl⟩

theorem parse_eq (self : TaggedLineParser T) (delta : Str) :
    (parse specs self delta).1 = (delta.foldl (parseChar specs) (self, [], [])).1 ∧
      tokens (parse specs self delta).2 = view (delta.foldl (parseChar specs) (self, [], [])) := by
  unfold parse view
  exact ⟨rfl, tokens_flush _ _ _⟩

theorem parse_append (self : TaggedLineParser T) (a b : Str) :
    (parse specs self (a ++ b)).1 = (parse specs (parse specs self a).1 b).1 ∧
      tokens (parse specs self (a ++ b)).2 =
        tokens (parse specs self a).2 ++ tokens (parse specs (parse specs self a).1 b).2 := by
  obtain ⟨h1, h2⟩ := parse_eq specs self (a ++ b)
  obtain ⟨a1, a2⟩ := parse_eq specs self a
  obtain ⟨b1, b2⟩ := parse_eq specs (parse specs self a).1 b
  obtain ⟨v1, v2⟩ := foldl_parseChar_view specs b (a.foldl (parseChar specs) (self, [], [])).1
    (a.foldl (parseChar specs) (self, [], [])).2.1 (a.foldl (parseChar specs) (self, [], [])).2.2
  simp only [Prod.mk.eta] at v1 v2
  rw [foldl_append] at h1 h2
  rw [h1, h2, b1, b2, a1, a2, v1, v2]
  exact ⟨rfl, rfl⟩

end tokens

/-! ### No empty segments -/

/-- A segment that is not empty text. -/
def TaggedLineSegment.Solid {T : Type} : TaggedLineSegment T → Prop
  | normal text => text ≠ []
  | tagDelta _ text => text ≠ []
  | _ => True

section solid
variable {T : Type}

/-- All segments are solid. -/
def AllSolid (segments : List (TaggedLineSegment T)) : Prop := ∀ s ∈ segments, s.Solid

variable {segments : List (TaggedLineSegment T)}

theorem AllSolid.concat {s : TaggedLineSegment T}
    (h : AllSolid segments) (hs : s.Solid) : AllSolid (segments ++ [s]) := by
  intro x hx
  rcases mem_append.mp hx with hx | hx
  · exact h x hx
  · rw [mem_singleton.mp hx]
    exact hs

theorem AllSolid.dropLast (h : AllSolid segments) :
    AllSolid segments.dropLast := fun x hx => h x (dropLast_subset _ hx)

variable [DecidableEq T]

theorem pushSegment_solid (s : TaggedLineSegment T) (h : AllSolid segments) : AllSolid (pushSegment segments s) := by
  fun_cases pushSegment segments s with
  | case1 | case4 => exact h
  | case2 | case5 => exact h.dropLast.concat (by simp_all [TaggedLineSegment.Solid])
  | case3 _ hd | case6 _ _ hd | case7 _ _ hd => exact h.concat hd
  | case8 | case9 => exact h.concat trivial

variable (specs : List (TagSpec T))

theorem decideLine_solid (activeTag : Option T) (line : Str)
    (h : AllSolid segments) : AllSolid (decideLine specs activeTag line segments).2 := by
  unfold decideLine pushText
  dsimp only
  split
  · exact pushSegment_solid (.tagStart _) h
  · split
    · split_ifs
      · exact pushSegment_solid (.tagEnd _) h
      · exact pushSegment_solid _ h
    · exact pushSegment_solid _ h

theorem flush_solid (activeTag : Option T) (run : Str) (h : AllSolid segments) :
    AllSolid (if run = [] then segments else pushText activeTag run segments) := by
  split_ifs
  · exact h
  · exact pushSegment_solid _ h

theorem parseChar_solid {s : ParseState T} (ch : Char) (h : AllSolid s.2.2) :
    AllSolid (parseChar specs s ch).2.2 := by
  fun_cases parseChar specs s ch with
  | case1 self run segments _ _ _ _ _ _ hdecide =>
    have hsolid := decideLine_solid specs self.activeTag (self.lineBuffer ++ [ch]) (flush_solid self.activeTag run h)
    rwa [hdecide] at hsolid
  | case2 => exact flush_solid _ _ h
  | case3 => exact pushSegment_solid _ (flush_solid _ _ h)
  | case4 => exact pushSegment_solid _ h
  | case5 => exact h

theorem foldl_parseChar_solid : ∀ (delta : Str) {s : ParseState T}, AllSolid s.2.2 →
    AllSolid (delta.foldl (parseChar specs) s).2.2
  | [], _, h => h
  | ch :: delta, _, h => foldl_parseChar_solid delta (parseChar_solid specs ch h)

theorem parse_solid (self : TaggedLineParser T) (delta : Str) : AllSolid (parse specs self delta).2 := by
  have hnil : AllSolid ([] : List (TaggedLineSegment T)) := forall_mem_nil _
  exact flush_solid _ _ (foldl_parseChar_solid specs delta (s := (self, [], [])) hnil)

theorem finishTagged_solid (self : TaggedLineParser T) : AllSolid (finishTagged specs self).2 := by
  have hnil : AllSolid ([] : List (TaggedLineSegment T)) := forall_mem_nil _
  have hline : AllSolid (if self.lineBuffer = [] then (self.activeTag, [])
      else decideLine specs self.activeTag self.lineBuffer []).2 := by
    split_ifs
    · exact hnil
    · exact decideLine_solid specs _ _ hnil
  unfold finishTagged
  dsimp only
  split
  · exact pushSegment_solid _ hline
  · exact hline

end solid

/-! ### Line by line -/

section lines
variable {T : Type} [DecidableEq T] (specs : List (TagSpec T))

/-- What a line does: the block that is active behind it, and its tokens. -/
def lineStep (activeTag : Option T) (line : Str) : Option T × List (Token T) :=
  match activeTag with
  | none =>
      match matchOpen specs (trim (withoutNewline line)) with
      | some tag => (some tag, [.tagStart tag])
      | none => (none, line.map .normal)
  | some tag =>
      if matchClose specs (trim (withoutNewline line)) = some tag then (none, [.tagEnd tag])
      else (some tag, line.map (.tagDelta tag))

/-- The tokens of a text, line by line; `line` is what stands before it in its first line. -/
def lineTokens (activeTag : Option T) (line : Str) : Str → List (Token T)
  | [] =>
      let (activeTag, tokens) := if line = [] then (activeTag, []) else lineStep specs activeTag line
      tokens ++ (activeTag.map .tagEnd).toList
  | ch :: text =>
      if ch = '\n' then (lineStep specs activeTag (line ++ [ch])).2 ++
        lineTokens (lineStep specs activeTag (line ++ [ch])).1 [] text
      else lineTokens activeTag (line ++ [ch]) text

/-- The segments of a stream that is pushed in chunks. -/
def parseChunks : TaggedLineParser T → List Str → List (TaggedLineSegment T)
  | self, [] => (finishTagged specs self).2
  | self, chunk :: chunks => (parse specs self chunk).2 ++ parseChunks (parse specs self chunk).1 chunks

/-- The tokens of the rest of a stream. -/
def restTokens (self : TaggedLineParser T) (text : Str) : List (Token T) :=
  tokens (parse specs self text).2 ++ tokens (finishTagged specs (parse specs self text).1).2

/-- A line that begins like this may still be a tag. -/
def MayBeTag (line : Str) : Prop := trimStart line = [] ∨ isTagPrefix specs (trimStart line)

instance (line : Str) : Decidable (MayBeTag specs line) := inferInstanceAs (Decidable (_ ∨ _))

/-- The parser within a line. -/
def within (activeTag : Option T) (line : Str) : TaggedLineParser T :=
  if MayBeTag specs line then ⟨activeTag, true, line⟩ else ⟨activeTag, false, []⟩

/-- What the parser has sent of the line. -/
def sentOf (activeTag : Option T) (line : Str) : List (Token T) :=
  if MayBeTag specs line then [] else (textSegment activeTag line).tokens

variable {specs} {activeTag : Option T} {line : Str}

theorem decideLine_eq (specs : List (TagSpec T)) (activeTag : Option T) (line : Str) :
    (decideLine specs activeTag line []).1 = (lineStep specs activeTag line).1 ∧
      tokens (decideLine specs activeTag line []).2 = (lineStep specs activeTag line).2 := by
  unfold decideLine lineStep trim
  dsimp only
  generalize trimEnd (trimStart (withoutNewline line)) = slug
  cases matchOpen specs slug <;> cases matchClose specs slug <;> cases activeTag <;>
    simp [textSegment, TaggedLineSegment.tokens]
  all_goals
    rename_i tag active
    by_cases htag : tag = active
    · simp [htag, TaggedLineSegment.tokens]
    · simp [htag, Ne.symm htag, textSegment, TaggedLineSegment.tokens]

omit [DecidableEq T] in
theorem mayBeTag_iff : MayBeTag specs line ↔
    trim line = [] ∨ ∃ spec ∈ specs, trim line <+: spec.opener ∨ trim line <+: spec.close := by
  have hnil : trimStart line = [] ↔ trim line = [] := by
    rw [trimStart, dropWhile_eq_nil_iff, ← isBlank_iff, isBlank, List.isEmpty_iff]
  simp [MayBeTag, isTagPrefix, hnil, trim]

omit [DecidableEq T] in
theorem MayBeTag.of_append {more : Str} (h : MayBeTag specs (line ++ more)) : MayBeTag specs line := by
  rw [mayBeTag_iff] at h ⊢
  by_cases hline : trim line = []
  · exact .inl hline
  · have hpre := trim_prefix_trim (prefix_append line more) hline
    obtain h | ⟨spec, hspec, h⟩ := h
    · exact absurd (prefix_nil.mp (h ▸ hpre)) hline
    · exact .inr ⟨spec, hspec, h.imp hpre.trans hpre.trans⟩

/-- A line that cannot be a tag is text. -/
theorem lineStep_of_not (h : ¬ MayBeTag specs (withoutNewline line)) :
    lineStep specs activeTag line = (activeTag, (textSegment activeTag line).tokens) := by
  rw [mayBeTag_iff] at h
  have hopen : matchOpen specs (trim (withoutNewline line)) = none := by
    simp only [matchOpen, Option.map_eq_none_iff, find?_eq_none, decide_eq_true_eq]
    exact fun spec hspec heq => h (.inr ⟨spec, hspec, .inl (heq ▸ prefix_rfl)⟩)
  have hclose : matchClose specs (trim (withoutNewline line)) = none := by
    simp only [matchClose, Option.map_eq_none_iff, find?_eq_none, decide_eq_true_eq]
    exact fun spec hspec heq => h (.inr ⟨spec, hspec, .inr (heq ▸ prefix_rfl)⟩)
  cases activeTag <;> simp [lineStep, hopen, hclose, textSegment, TaggedLineSegment.tokens]

theorem restTokens_append (self : TaggedLineParser T) (a b : Str) : restTokens specs self (a ++ b) =
    tokens (parse specs self a).2 ++ restTokens specs (parse specs self a).1 b := by
  obtain ⟨hself, htokens⟩ := parse_append specs self a b
  rw [restTokens, hself, htokens, append_assoc, restTokens]

omit [DecidableEq T] in
theorem mayBeTag_nil : MayBeTag specs [] := .inl rfl

/-- The end of a stream decides the line it ends in. -/
theorem lineTokens_end (activeTag : Option T) (hline : '\n' ∉ line) : lineTokens specs activeTag line [] =
    sentOf specs activeTag line ++ tokens (finishTagged specs (within specs activeTag line)).2 := by
  have hwithout : withoutNewline line = line := if_neg fun hlast => hline (mem_of_getLast? hlast)
  obtain ⟨hactive, htokens⟩ := decideLine_eq specs activeTag line
  by_cases hnil : line = []
  · cases activeTag <;> simp [hnil, lineTokens, sentOf, within, mayBeTag_nil, finishTagged, TaggedLineSegment.tokens]
  · by_cases htag : MayBeTag specs line
    · cases hstep : (lineStep specs activeTag line).1 <;>
        simp [hnil, lineTokens, sentOf, within, htag, finishTagged, hactive, htokens, hstep, TaggedLineSegment.tokens]
    · cases activeTag <;>
        simp [hnil, lineTokens, sentOf, within, htag, finishTagged, lineStep_of_not (hwithout.symm ▸ htag),
          TaggedLineSegment.tokens]

/-- The rest of a text from the middle of a line on. -/
theorem lineTokens_eq : ∀ (text : Str) (activeTag : Option T) {line : Str}, '\n' ∉ line →
    lineTokens specs activeTag line text =
      sentOf specs activeTag line ++ restTokens specs (within specs activeTag line) text
  | [], activeTag, line, hline => lineTokens_end activeTag hline
  | ch :: text, activeTag, line, hline => by
    obtain ⟨hself, htokens⟩ := parse_eq specs (within specs activeTag line) [ch]
    rw [← singleton_append, restTokens_append, hself, htokens, foldl_cons, foldl_nil, singleton_append]
    by_cases hch : ch = '\n'
    · have hwithout : withoutNewline (line ++ ['\n']) = line := by simp [withoutNewline]
      obtain ⟨hactive, hstep⟩ := decideLine_eq specs activeTag (line ++ ['\n'])
      rw [lineTokens, if_pos hch, hch, lineTokens_eq text _ not_mem_nil]
      by_cases htag : MayBeTag specs line
      · simp [sentOf, within, mayBeTag_nil, htag, parseChar, hactive, hstep, view, textSegment_tokens_nil]
      · simp [sentOf, within, mayBeTag_nil, htag, parseChar, lineStep_of_not (hwithout.symm ▸ htag), view,
          textSegment_tokens_nil, textSegment_tokens_append]
    · have hmore : '\n' ∉ line ++ [ch] := by simp [hline, Ne.symm hch]
      rw [lineTokens, if_neg hch, lineTokens_eq text activeTag hmore]
      by_cases htag : MayBeTag specs (line ++ [ch])
      · have hbuffer := htag
        rw [MayBeTag] at hbuffer
        simp [sentOf, within, htag, htag.of_append, parseChar, hch, hbuffer, view, textSegment_tokens_nil]
      · have hsend := htag
        rw [MayBeTag] at hsend
        by_cases hbefore : MayBeTag specs line
        · simp [sentOf, within, htag, hbefore, parseChar, hch, hsend, view, textSegment_tokens_nil]
        · simp [sentOf, within, htag, hbefore, parseChar, hch, view, textSegment_tokens_append]

/-- The tags of a text alternate, and what stands between them belongs to the block they open. -/
def Balanced : Option T → List (Token T) → Prop
  | activeTag, [] => activeTag = none
  | activeTag, .normal _ :: tokens => activeTag = none ∧ Balanced none tokens
  | activeTag, .tagStart tag :: tokens => activeTag = none ∧ Balanced (some tag) tokens
  | activeTag, .tagDelta tag _ :: tokens => activeTag = some tag ∧ Balanced (some tag) tokens
  | activeTag, .tagEnd tag :: tokens => activeTag = some tag ∧ Balanced none tokens

omit [DecidableEq T] in
theorem Balanced.text {rest : List (Token T)} (h : Balanced activeTag rest) (text : Str) :
    Balanced activeTag ((textSegment activeTag text).tokens ++ rest) := by
  induction text with
  | nil => simpa [textSegment_tokens_nil] using h
  | cons ch text ih => cases activeTag <;> exact ⟨rfl, ih⟩

theorem Balanced.of_line {rest : List (Token T)} (h : Balanced (lineStep specs activeTag line).1 rest) :
    Balanced activeTag ((lineStep specs activeTag line).2 ++ rest) := by
  revert h
  unfold lineStep
  split <;> split <;> intro h
  · exact ⟨rfl, h⟩
  · exact h.text line
  · exact ⟨rfl, h⟩
  · exact h.text line

theorem balanced_lineTokens (specs : List (TagSpec T)) : ∀ (text : Str) (activeTag : Option T) (line : Str),
    Balanced activeTag (lineTokens specs activeTag line text)
  | [], activeTag, line => by
    have hend : ∀ activeTag : Option T, Balanced activeTag (activeTag.map .tagEnd).toList
      | none => rfl
      | some _ => ⟨rfl, rfl⟩
    rw [lineTokens]
    split_ifs
    · exact hend activeTag
    · exact (hend _).of_line
  | ch :: text, activeTag, line => by
    rw [lineTokens]
    split_ifs with hch
    · exact (balanced_lineTokens specs text _ []).of_line
    · exact balanced_lineTokens specs text activeTag (line ++ [ch])

theorem tokens_parseChunks (specs : List (TagSpec T)) : ∀ (chunks : List Str) (self : TaggedLineParser T),
    tokens (parseChunks specs self chunks) = restTokens specs self chunks.flatten
  | [], self => rfl
  | chunk :: chunks, self => by
    rw [parseChunks, tokens_append, tokens_parseChunks specs chunks, flatten_cons, restTokens_append]

/-- **Line by line.** However a text is cut, its tokens are those of its lines, and its tags alternate. -/
theorem parseChunks_lines (specs : List (TagSpec T)) (chunks : List Str) :
    tokens (parseChunks specs ⟨none, true, []⟩ chunks) = lineTokens specs none [] chunks.flatten ∧
      Balanced none (tokens (parseChunks specs ⟨none, true, []⟩ chunks)) := by
  have htokens : tokens (parseChunks specs ⟨none, true, []⟩ chunks) = lineTokens specs none [] chunks.flatten := by
    rw [tokens_parseChunks, lineTokens_eq chunks.flatten none not_mem_nil]
    simp [sentOf, within, mayBeTag_nil]
  rw [htokens]
  exact ⟨rfl, balanced_lineTokens specs _ none []⟩

end lines

/-- Whole lines read with every close of a tag, not only the first spec with that close. -/
def ownTokens {T : Type} [DecidableEq T] (specs : List (TagSpec T)) : Option T → List Str → List (Token T)
  | activeTag, [] => (activeTag.map .tagEnd).toList
  | none, line :: lines =>
      match matchOpen specs (trim line) with
      | some tag => .tagStart tag :: ownTokens specs (some tag) lines
      | none => line.map .normal ++ ownTokens specs none lines
  | some tag, line :: lines =>
      if specs.any fun spec => spec.tag = tag && spec.close = trim line then .tagEnd tag :: ownTokens specs none lines
      else line.map (.tagDelta tag) ++ ownTokens specs (some tag) lines

/-- A line that closes the block begun is text when an earlier tag has the same close. -/
theorem parseChunks_sharedClose :
    let specs : List (TagSpec Bool) := [⟨"<a>", "</x>", false⟩, ⟨"<b>", "</x>", true⟩]
    tokens (parseChunks specs ⟨none, true, []⟩ ["<b>\n</x>\n"]) =
        .tagStart true :: "</x>\n".toList.map (.tagDelta true) ++ [.tagEnd true] ∧
      ownTokens specs none ["<b>\n", "</x>\n"] = [.tagStart true, .tagEnd true] := by
  decide

end OpenAgere.StreamText
