import OpenAgere.TaggedLine

/-! # The text of the assistant

`ProposedPlanParser` and `AssistantTextStreamParser` of `utils/common/src/stream_parser`: the
citations are taken out of the text first, and in plan mode the text that stays visible goes
through the plan parser.  Both buffer, one a part of a tag and the other a part of a line.

`assistantText_seamless` composes the two: two chunks give the visible text, the citations and
the tokens of the plan segments of one.  `mergeAdjacent_eq_regroup` recovers the merged plan
segments from their tokens, and `assistantText_chunks` is the result for whole streams. -/

namespace OpenAgere.StreamText

open List

/-! ### Plan segments -/

inductive PlanTag where
  | proposedPlan
deriving DecidableEq, Repr

inductive ProposedPlanSegment where
  | normal (text : Str)
  | proposedPlanStart
  | proposedPlanDelta (text : Str)
  | proposedPlanEnd
deriving DecidableEq, Repr

def openTag : Str := "<proposed_plan>"

def closeTag : Str := "</proposed_plan>"

def planSpecs : List (TagSpec PlanTag) := [⟨openTag, closeTag, .proposedPlan⟩]

namespace ProposedPlanSegment

def ofTagged : TaggedLineSegment PlanTag → ProposedPlanSegment
  | .normal text => normal text
  | .tagStart .proposedPlan => proposedPlanStart
  | .tagDelta .proposedPlan text => proposedPlanDelta text
  | .tagEnd .proposedPlan => proposedPlanEnd

/-- The text of a segment outside the plan. -/
def visible : ProposedPlanSegment → Str
  | normal text => text
  | _ => []

def tokens : ProposedPlanSegment → List (Token PlanTag)
  | normal text => text.map .normal
  | proposedPlanStart => [.tagStart .proposedPlan]
  | proposedPlanDelta text => text.map (.tagDelta .proposedPlan)
  | proposedPlanEnd => [.tagEnd .proposedPlan]

/-- A segment that is not empty text. -/
def Solid : ProposedPlanSegment → Prop
  | normal text => text ≠ []
  | proposedPlanDelta text => text ≠ []
  | _ => True

theorem tokens_ofTagged (s : TaggedLineSegment PlanTag) : (ofTagged s).tokens = s.tokens := by
  unfold ofTagged
  split <;> rfl

theorem solid_ofTagged {s : TaggedLineSegment PlanTag} (h : s.Solid) : (ofTagged s).Solid := by
  unfold ofTagged
  split
  · exact h
  · trivial
  · exact h
  · trivial

end ProposedPlanSegment

def mapSegments (segments : List (TaggedLineSegment PlanTag)) : StreamTextChunk ProposedPlanSegment :=
  ⟨(segments.map ProposedPlanSegment.ofTagged).flatMap ProposedPlanSegment.visible,
    segments.map ProposedPlanSegment.ofTagged⟩

abbrev ProposedPlanParser : Type := TaggedLineParser PlanTag

def ProposedPlanParser.new : ProposedPlanParser := ⟨none, true, []⟩

def proposedPlanParser : StreamParser ProposedPlanParser Char (StreamTextChunk ProposedPlanSegment) where
  push self chunk := ((parse planSpecs self chunk).1, mapSegments (parse planSpecs self chunk).2)
  finish self := ((finishTagged planSpecs self).1, mapSegments (finishTagged planSpecs self).2)

/-! ### Merged segments -/

/-- A segment before others, merged with the first of them. -/
def consSegment : ProposedPlanSegment → List ProposedPlanSegment → List ProposedPlanSegment
  | .normal a, .normal b :: l => .normal (a ++ b) :: l
  | .proposedPlanDelta a, .proposedPlanDelta b :: l => .proposedPlanDelta (a ++ b) :: l
  | s, l => s :: l

/-- Adjacent normal segments and adjacent deltas of the plan merged. -/
def mergeAdjacent (segments : List ProposedPlanSegment) : List ProposedPlanSegment :=
  segments.foldr consSegment []

/-- The segment of one token. -/
def Token.segment : Token PlanTag → ProposedPlanSegment
  | .normal c => .normal [c]
  | .tagStart .proposedPlan => .proposedPlanStart
  | .tagDelta .proposedPlan c => .proposedPlanDelta [c]
  | .tagEnd .proposedPlan => .proposedPlanEnd

/-- The merged segments of a sequence of tokens. -/
def regroup (ts : List (Token PlanTag)) : List ProposedPlanSegment :=
  ts.foldr (fun t l => consSegment t.segment l) []

def planTokens (segments : List ProposedPlanSegment) : List (Token PlanTag) :=
  segments.flatMap ProposedPlanSegment.tokens

theorem foldr_text {f : Char → Token PlanTag} {g : Str → ProposedPlanSegment}
    (hone : ∀ c, (f c).segment = g [c])
    (happ : ∀ a b l, consSegment (g a) (consSegment (g b) l) = consSegment (g (a ++ b)) l)
    (l : List ProposedPlanSegment) : ∀ (c : Char) (cs : Str),
    ((c :: cs).map f).foldr (fun t l => consSegment t.segment l) l = consSegment (g (c :: cs)) l
  | c, [] => by
    rw [map_cons, foldr_cons, hone]
    rfl
  | c, d :: cs => by
    rw [map_cons, foldr_cons, foldr_text hone happ l d cs, hone, happ]
    rfl

theorem foldr_tokens {s : ProposedPlanSegment} (hs : s.Solid) (l : List ProposedPlanSegment) :
    s.tokens.foldr (fun t l => consSegment t.segment l) l = consSegment s l := by
  cases s with
  | normal | proposedPlanDelta =>
    obtain ⟨c, cs, rfl⟩ := exists_cons_of_ne_nil hs
    refine foldr_text (fun _ => rfl) ?_ l c cs
    intro a b l
    rcases l with _ | ⟨_ | _ | _ | _, l⟩ <;> simp [consSegment]
  | proposedPlanStart | proposedPlanEnd => rfl

theorem mergeAdjacent_eq_regroup : ∀ {segments : List ProposedPlanSegment}, (∀ s ∈ segments, s.Solid) →
    mergeAdjacent segments = regroup (planTokens segments)
  | [], _ => rfl
  | s :: segments, h => by
    have ih := mergeAdjacent_eq_regroup fun x hx => h x (mem_cons_of_mem s hx)
    unfold mergeAdjacent regroup planTokens at ih ⊢
    rw [flatMap_cons, foldr_append, foldr_cons, ih, foldr_tokens (h s (by simp))]

/-! ### The plan parser -/

/-- The visible text and the tokens of an output of the plan parser. -/
def planView : StreamTextChunk ProposedPlanSegment →* FreeMonoid Char × FreeMonoid (Token PlanTag) where
  toFun out := (.ofList out.visibleText, .ofList (planTokens out.extracted))
  map_one' := rfl
  map_mul' a b := by simp [planTokens, FreeMonoid.ofList_append]

theorem planTokens_ofTagged (segments : List (TaggedLineSegment PlanTag)) :
    planTokens (segments.map ProposedPlanSegment.ofTagged) = tokens segments := by
  unfold planTokens tokens
  rw [flatMap_map]
  congr 1
  funext s
  exact ProposedPlanSegment.tokens_ofTagged s

/-- The characters outside the plan. -/
def visibleTokens (ts : List (Token PlanTag)) : Str :=
  ts.filterMap fun
    | .normal c => some c
    | _ => none

theorem visibleTokens_tokens (s : TaggedLineSegment PlanTag) :
    visibleTokens s.tokens = (ProposedPlanSegment.ofTagged s).visible := by
  cases s with
  | normal text =>
    unfold TaggedLineSegment.tokens visibleTokens
    rw [filterMap_map]
    exact filterMap_some
  | tagDelta tag text =>
    unfold TaggedLineSegment.tokens visibleTokens
    rw [filterMap_map]
    exact filterMap_none text
  | tagStart | tagEnd => rfl

theorem mapSegments_visibleText (segments : List (TaggedLineSegment PlanTag)) :
    (mapSegments segments).visibleText = visibleTokens (tokens segments) := by
  unfold mapSegments visibleTokens tokens
  rw [filterMap_flatMap, flatMap_map]
  exact flatMap_congr fun s _ => (visibleTokens_tokens s).symm

theorem planView_mapSegments (segments : List (TaggedLineSegment PlanTag)) :
    planView (mapSegments segments) =
      (FreeMonoid.ofList (visibleTokens (tokens segments)), FreeMonoid.ofList (tokens segments)) := by
  rw [← mapSegments_visibleText, ← planTokens_ofTagged]
  rfl

/-- The plan parser is seamless for the visible text and the tokens. -/
theorem proposedPlan_seamless : proposedPlanParser.Seamless planView := by
  constructor
  · intro s a b
    exact (parse_append planSpecs s a b).1
  · intro s a b
    have h := (parse_append planSpecs s a b).2
    unfold proposedPlanParser
    dsimp only
    rw [planView_mapSegments, planView_mapSegments, planView_mapSegments, h]
    simp [visibleTokens, FreeMonoid.ofList_append]

/-! ### The parser of the assistant -/

@[ext] structure AssistantTextChunk where
  visibleText : Str
  citations : List Str
  planSegments : List ProposedPlanSegment
deriving DecidableEq, Repr

/-- Outputs one after the other. -/
instance : Monoid AssistantTextChunk where
  mul a b := ⟨a.visibleText ++ b.visibleText, a.citations ++ b.citations, a.planSegments ++ b.planSegments⟩
  one := ⟨[], [], []⟩
  mul_assoc a b c := AssistantTextChunk.ext (List.append_assoc _ _ _) (List.append_assoc _ _ _)
    (List.append_assoc _ _ _)
  one_mul a := AssistantTextChunk.ext rfl rfl rfl
  mul_one a := AssistantTextChunk.ext (List.append_nil _) (List.append_nil _) (List.append_nil _)

structure AssistantTextStreamParser where
  citations : CitationStreamParser
  plan : ProposedPlanParser

def AssistantTextStreamParser.new : AssistantTextStreamParser := ⟨.new, .new⟩

section assistant
variable (planMode : Bool)

def parseVisibleText (plan : ProposedPlanParser) (visibleText : Str) : ProposedPlanParser × AssistantTextChunk :=
  if planMode then
    let (plan, planChunk) := proposedPlanParser.push plan visibleText
    (plan, ⟨planChunk.visibleText, [], planChunk.extracted⟩)
  else (plan, ⟨visibleText, [], []⟩)

/-- The end of the stream for the plan parser. -/
def finishPlan (plan : ProposedPlanParser) (out : AssistantTextChunk) : ProposedPlanParser × AssistantTextChunk :=
  if planMode then
    let (plan, tail) := proposedPlanParser.finish plan
    if tail.isEmpty then (plan, out)
    else (plan, { out with
      visibleText := out.visibleText ++ tail.visibleText, planSegments := out.planSegments ++ tail.extracted })
  else (plan, out)

def assistantTextStreamParser : StreamParser AssistantTextStreamParser Char AssistantTextChunk where
  push self chunk :=
    let (citations, citationChunk) := citationStreamParser.push self.citations chunk
    let (plan, out) := parseVisibleText planMode self.plan citationChunk.visibleText
    (⟨citations, plan⟩, { out with citations := citationChunk.extracted })
  finish self :=
    let (citations, citationChunk) := citationStreamParser.finish self.citations
    let (plan, out) := parseVisibleText planMode self.plan citationChunk.visibleText
    let (plan, out) := finishPlan planMode plan out
    (⟨citations, plan⟩, { out with citations := citationChunk.extracted })

end assistant

/-- The visible text, the citations and the tokens of an output. -/
def assistantView : AssistantTextChunk →* FreeMonoid Char × FreeMonoid Str × FreeMonoid (Token PlanTag) where
  toFun out := (.ofList out.visibleText, .ofList out.citations, .ofList (planTokens out.planSegments))
  map_one' := rfl
  map_mul' a b := by
    show (FreeMonoid.ofList (a.visibleText ++ b.visibleText), FreeMonoid.ofList (a.citations ++ b.citations),
      FreeMonoid.ofList (planTokens (a.planSegments ++ b.planSegments))) = _
    simp [planTokens, FreeMonoid.ofList_append]

section runs
variable (planMode : Bool)

theorem parseVisibleText_append (plan : ProposedPlanParser) (a b : Str) :
    (parseVisibleText planMode plan (a ++ b)).1 =
        (parseVisibleText planMode (parseVisibleText planMode plan a).1 b).1 ∧
      assistantView (parseVisibleText planMode plan (a ++ b)).2 =
        assistantView (parseVisibleText planMode plan a).2 *
          assistantView (parseVisibleText planMode (parseVisibleText planMode plan a).1 b).2 := by
  cases planMode with
  | false =>
    refine ⟨rfl, ?_⟩
    rw [← map_mul]
    rfl
  | true =>
    refine ⟨proposedPlan_seamless.state plan a b, ?_⟩
    have h := proposedPlan_seamless.output plan a b
    have h1 := congrArg Prod.fst h
    have h2 := congrArg Prod.snd h
    exact Prod.ext h1 (Prod.ext rfl h2)

/-- **The parser of the assistant is seamless** for the visible text, the citations and the
tokens of the plan. -/
theorem assistantText_seamless : (assistantTextStreamParser planMode).Seamless assistantView := by
  have hc := citation_seamless
  constructor
  · intro s a b
    have ho : (citationStreamParser.push s.citations (a ++ b)).2 = _ := hc.output s.citations a b
    have hp := parseVisibleText_append planMode s.plan
    unfold assistantTextStreamParser
    dsimp only
    rw [hc.state, ho]
    exact congrArg _ (hp _ _).1
  · intro s a b
    have ho : (citationStreamParser.push s.citations (a ++ b)).2 = _ := hc.output s.citations a b
    have hp := (parseVisibleText_append planMode s.plan (citationStreamParser.push s.citations a).2.visibleText
      (citationStreamParser.push (citationStreamParser.push s.citations a).1 b).2.visibleText).2
    unfold assistantTextStreamParser
    dsimp only
    rw [ho]
    have h1 := congrArg Prod.fst hp
    have h3 := congrArg (fun x => x.2.2) hp
    exact Prod.ext h1 (Prod.ext (FreeMonoid.ofList_append _ _) h3)

/-- The outputs without empty plan segments. -/
def solidChunks : Submonoid AssistantTextChunk where
  carrier := {out | ∀ s ∈ out.planSegments, s.Solid}
  one_mem' := forall_mem_nil _
  mul_mem' := by
    intro a b ha hb s hs
    rcases List.mem_append.mp hs with hs | hs
    · exact ha s hs
    · exact hb s hs

theorem mapSegments_solid {segments : List (TaggedLineSegment PlanTag)} (h : AllSolid segments) :
    ∀ s ∈ (mapSegments segments).extracted, s.Solid := by
  intro s hs
  obtain ⟨x, hx, rfl⟩ := mem_map.mp hs
  exact ProposedPlanSegment.solid_ofTagged (h x hx)

theorem parseVisibleText_solid (plan : ProposedPlanParser) (text : Str) :
    ∀ s ∈ (parseVisibleText planMode plan text).2.planSegments, s.Solid := by
  cases planMode with
  | false => exact forall_mem_nil _
  | true => exact mapSegments_solid (parse_solid planSpecs plan text)

theorem finishPlan_solid {out : AssistantTextChunk} (plan : ProposedPlanParser)
    (h : ∀ s ∈ out.planSegments, s.Solid) : ∀ s ∈ (finishPlan planMode plan out).2.planSegments, s.Solid := by
  cases planMode with
  | false => exact h
  | true =>
    have ht := mapSegments_solid (finishTagged_solid planSpecs plan)
    unfold finishPlan
    dsimp only
    rw [if_pos rfl]
    split_ifs
    · exact h
    · intro s hs
      rcases mem_append.mp hs with hs | hs
      · exact h s hs
      · exact ht s hs

theorem collect_solid (chunks : List Str) :
    ∀ s ∈ ((assistantTextStreamParser planMode).collect .new chunks).planSegments, s.Solid := by
  refine StreamParser.collect_mem (M := solidChunks) _ ?_ ?_ _ chunks
  · intro s c
    exact parseVisibleText_solid planMode _ _
  · intro s
    exact finishPlan_solid planMode _ (parseVisibleText_solid planMode _ _)

/-- **The cuts of the stream do not matter.**  However the text is cut into chunks, the visible
text, the citations and the merged plan segments are those of the text pushed at once. -/
theorem assistantText_chunks (chunks : List Str) :
    let P := assistantTextStreamParser planMode
    let all := P.collect .new chunks
    let whole := P.collect .new [chunks.flatten]
    all.visibleText = whole.visibleText ∧ all.citations = whole.citations ∧
      mergeAdjacent all.planSegments = mergeAdjacent whole.planSegments := by
  intro P all whole
  have hempty : P.push .new [] = (.new, 1) := by cases planMode <;> rfl
  have h : assistantView all = assistantView whole :=
    (assistantText_seamless planMode).collect hempty chunks
  have h1 := congrArg Prod.fst h
  have h2 := congrArg (fun x => x.2.1) h
  have h3 : planTokens all.planSegments = planTokens whole.planSegments := congrArg (fun x => x.2.2) h
  refine ⟨h1, h2, ?_⟩
  rw [mergeAdjacent_eq_regroup (collect_solid planMode chunks),
    mergeAdjacent_eq_regroup (collect_solid planMode [chunks.flatten]), h3]

end runs

end OpenAgere.StreamText
