import OpenAgere.DelimiterScan
import OpenAgere.StreamParser
import OpenAgere.Text

/-! # Hidden inline tags

`InlineHiddenTagParser` of `utils/common/src/stream_parser/inline_hidden_tag.rs` and the
citation parser on top of it.  The loop of `push_str` is a scan for delimiters (`loopStep_eq`):
for the close delimiter inside a tag, for the open delimiters outside.  When no open delimiter
lies inside another, the parser is seamless (`inlineHiddenTag_seamless`), and so is the citation
parser (`citation_seamless`). -/

namespace OpenAgere.StreamText

open List Option DelimiterScan

/-! ### Chunks of output -/

/-- What one pushed chunk, or the end of the stream, gives. -/
@[ext] structure StreamTextChunk (ε : Type) where
  visibleText : Str
  extracted : List ε
deriving DecidableEq, Repr

namespace StreamTextChunk
variable {ε : Type}

def isEmpty (c : StreamTextChunk ε) : Bool := c.visibleText.isEmpty && c.extracted.isEmpty

/-- Outputs one after the other. -/
instance : Monoid (StreamTextChunk ε) where
  mul a b := ⟨a.visibleText ++ b.visibleText, a.extracted ++ b.extracted⟩
  one := ⟨[], []⟩
  mul_assoc a b c := StreamTextChunk.ext (List.append_assoc _ _ _) (List.append_assoc _ _ _)
  one_mul a := StreamTextChunk.ext rfl rfl
  mul_one a := StreamTextChunk.ext (List.append_nil _) (List.append_nil _)

@[simp] theorem visibleText_mul (a b : StreamTextChunk ε) :
    (a * b).visibleText = a.visibleText ++ b.visibleText := rfl

@[simp] theorem extracted_mul (a b : StreamTextChunk ε) :
    (a * b).extracted = a.extracted ++ b.extracted := rfl

end StreamTextChunk

/-! ### The parser -/

structure ExtractedInlineTag (T : Type) where
  tag : T
  content : Str
deriving DecidableEq, Repr

structure InlineTagSpec (T : Type) where
  tag : T
  opener : Str
  close : Str

/-- The specs `InlineHiddenTagParser::new` accepts: at least one, and no empty delimiter. -/
structure InlineSpecs (T : Type) where
  list : List (InlineTagSpec T)
  ne_nil : list ≠ []
  opener_ne_nil : ∀ spec ∈ list, spec.opener ≠ []
  close_ne_nil : ∀ spec ∈ list, spec.close ≠ []

structure ActiveTag (T : Type) where
  tag : T
  close : Str
  content : Str
  close_ne_nil : close ≠ []

structure InlineHiddenTagParser (T : Type) where
  pending : Str
  active : Option (ActiveTag T)

/-- The loop over `k`, from a bound downwards. -/
def suffixPrefixFrom (s needle : Str) : ℕ → ℕ
  | 0 => 0
  | k + 1 => if needle.take (k + 1) <:+ s then k + 1 else suffixPrefixFrom s needle k

/-- The longest suffix of the text that is a proper part of the start of the needle. -/
def longestSuffixPrefixLen (s needle : Str) : ℕ :=
  suffixPrefixFrom s needle (min s.length (needle.length - 1))

/-- An open tag is closed by the end of the stream. -/
def InlineHiddenTagParser.finish {T : Type} (self : InlineHiddenTagParser T) :
    InlineHiddenTagParser T × StreamTextChunk (ExtractedInlineTag T) :=
  match self.active with
  | some active => (⟨[], none⟩, ⟨[], [⟨active.tag, active.content ++ self.pending⟩]⟩)
  | none => (⟨[], none⟩, ⟨self.pending, []⟩)

namespace InlineSpecs
variable {T : Type} (specs : InlineSpecs T)

def spec (idx : Fin specs.list.length) : InlineTagSpec T := specs.list.get idx

def openers : List Str := specs.list.map (·.opener)

/-- The order of candidates: by position, then the longer one, then by index. -/
def before (a b : ℕ × Fin specs.list.length) : Prop :=
  a.1 < b.1 ∨ a.1 = b.1 ∧
    ((specs.spec b.2).opener.length < (specs.spec a.2).opener.length ∨
      (specs.spec b.2).opener.length = (specs.spec a.2).opener.length ∧ a.2 < b.2)

instance (a b : ℕ × Fin specs.list.length) : Decidable (specs.before a b) :=
  inferInstanceAs (Decidable (_ ∨ _ ∧ _))

/-- `min_by` with that order. -/
def minCandidate : List (ℕ × Fin specs.list.length) → Option (ℕ × Fin specs.list.length)
  | [] => none
  | c :: cs =>
      match minCandidate cs with
      | some d => if specs.before d c then some d else some c
      | none => some c

def findNextOpen (pending : Str) : Option (ℕ × Fin specs.list.length) :=
  specs.minCandidate ((List.finRange specs.list.length).filterMap fun idx =>
    (find (specs.spec idx).opener pending).map (·, idx))

def maxOpenPrefixSuffixLen (pending : Str) : ℕ :=
  (specs.list.map fun spec => longestSuffixPrefixLen pending spec.opener).max?.getD 0

/-- The active tag and the output collected so far, while `push_str` runs. -/
abbrev LoopState (T : Type) : Type := Option (ActiveTag T) × StreamTextChunk (ExtractedInlineTag T)

/-- The tag a spec opens. -/
def activate (idx : Fin specs.list.length) : ActiveTag T :=
  ⟨(specs.spec idx).tag, (specs.spec idx).close, [], specs.close_ne_nil _ (List.get_mem _ _)⟩

/-- One round of the loop of `push_str`. -/
def loopStep (s : LoopState T) (pending : Str) : ScanLoop.Next (LoopState T) (LoopState T × Str) :=
  match s with
  | (some active, out) =>
      match find active.close pending with
      | some closeIdx =>
          .go (none, ⟨out.visibleText,
            out.extracted ++ [⟨active.tag, active.content ++ pending.take closeIdx⟩]⟩)
            (closeIdx + active.close.length)
      | none =>
          let take := pending.length - longestSuffixPrefixLen pending active.close
          .stop ((some { active with content := active.content ++ pending.take take }, out),
            pending.drop take)
  | (none, out) =>
      match specs.findNextOpen pending with
      | some (openIdx, specIdx) =>
          .go (some (specs.activate specIdx), ⟨out.visibleText ++ pending.take openIdx, out.extracted⟩)
            (openIdx + (specs.spec specIdx).opener.length)
      | none =>
          let take := pending.length - specs.maxOpenPrefixSuffixLen pending
          .stop ((none, ⟨out.visibleText ++ pending.take take, out.extracted⟩), pending.drop take)

def pushStr (self : InlineHiddenTagParser T) (chunk : Str) :
    InlineHiddenTagParser T × StreamTextChunk (ExtractedInlineTag T) :=
  let r := ScanLoop.run specs.loopStep (fun s => (s, [])) (self.active, 1) (self.pending ++ chunk)
  (⟨r.2, r.1.1⟩, r.1.2)

def inlineHiddenTagParser : StreamParser (InlineHiddenTagParser T) Char
    (StreamTextChunk (ExtractedInlineTag T)) := ⟨specs.pushStr, InlineHiddenTagParser.finish⟩

end InlineSpecs

/-! ### The parts of the scan -/

theorem suffixPrefixFrom_greatest {s needle : Str} : ∀ {n : ℕ}, n ≤ s.length → n ≤ needle.length - 1 →
    IsGreatest {k | k ≤ n ∧ needle.take k <:+ s} (suffixPrefixFrom s needle n)
  | 0, _, _ => by
    refine ⟨⟨le_rfl, nil_suffix⟩, ?_⟩
    rintro k ⟨hk, _⟩
    exact hk
  | n + 1, hs, hn => by
    unfold suffixPrefixFrom
    split_ifs with h
    · exact ⟨⟨le_rfl, h⟩, fun k hk => hk.1⟩
    · have ih : IsGreatest {k | k ≤ n ∧ needle.take k <:+ s} (suffixPrefixFrom s needle n) :=
        suffixPrefixFrom_greatest (by omega) (by omega)
      obtain ⟨⟨hle, hsuf⟩, hub⟩ := ih
      refine ⟨⟨by omega, hsuf⟩, ?_⟩
      rintro k ⟨hk, hks⟩
      rcases Nat.lt_or_ge n k with hlt | hge
      · obtain rfl : k = n + 1 := by omega
        exact absurd hks h
      · exact hub ⟨hge, hks⟩

theorem longestSuffixPrefixLen_greatest (s : Str) {needle : Str} (hne : needle ≠ []) :
    IsGreatest {k | Overlap [needle] s k} (longestSuffixPrefixLen s needle) := by
  have hpos := length_pos_iff.mpr hne
  obtain ⟨⟨hle, hsuf⟩, hub⟩ : IsGreatest _ (longestSuffixPrefixLen s needle) :=
    suffixPrefixFrom_greatest (min_le_left s.length (needle.length - 1)) (min_le_right _ _)
  refine ⟨Or.inr ⟨needle, by simp, by omega, by omega, hsuf⟩, ?_⟩
  rintro k (rfl | ⟨p, hp, hlt, hlen, hk⟩)
  · exact Nat.zero_le _
  · obtain rfl := mem_singleton.mp hp
    exact hub ⟨by omega, hk⟩

namespace InlineSpecs
variable {T : Type} (specs : InlineSpecs T)

theorem maxOpenPrefixSuffixLen_greatest (pending : Str) :
    IsGreatest {k | Overlap specs.openers pending k} (specs.maxOpenPrefixSuffixLen pending) := by
  unfold maxOpenPrefixSuffixLen
  obtain ⟨m, hm⟩ : ∃ m, (specs.list.map fun spec => longestSuffixPrefixLen pending spec.opener).max? = some m := by
    rw [← isSome_iff_exists, isSome_max?_iff]
    simpa using specs.ne_nil
  rw [hm, getD_some]
  obtain ⟨hmem, hub⟩ := max?_eq_some_iff.mp hm
  obtain ⟨spec, hspec, rfl⟩ := mem_map.mp hmem
  constructor
  · rcases (longestSuffixPrefixLen_greatest pending (specs.opener_ne_nil spec hspec)).1 with h0 | ⟨p, hp, h⟩
    · exact Or.inl h0
    · obtain rfl := mem_singleton.mp hp
      exact Or.inr ⟨_, mem_map_of_mem hspec, h⟩
  · rintro k (rfl | ⟨p, hp, h⟩)
    · exact Nat.zero_le _
    · obtain ⟨spec', hspec', rfl⟩ := mem_map.mp hp
      have hk := (longestSuffixPrefixLen_greatest pending (specs.opener_ne_nil spec' hspec')).2
        (show k ∈ _ from Or.inr ⟨_, by simp, h⟩)
      exact hk.trans (hub _ (mem_map_of_mem hspec'))

theorem minCandidate_eq_none : ∀ {cs : List (ℕ × Fin specs.list.length)}, specs.minCandidate cs = none → cs = []
  | [], _ => rfl
  | c :: cs, h => by
    unfold minCandidate at h
    cases hm : specs.minCandidate cs with
    | none => simp [hm] at h
    | some d =>
      simp only [hm] at h
      split_ifs at h

theorem minCandidate_eq_some : ∀ {cs : List (ℕ × Fin specs.list.length)} {m},
    specs.minCandidate cs = some m → m ∈ cs ∧ ∀ c ∈ cs, ¬ specs.before c m
  | [], m, h => by cases h
  | c :: cs, m, h => by
    unfold minCandidate at h
    cases hm : specs.minCandidate cs with
    | none =>
      obtain rfl := specs.minCandidate_eq_none hm
      simp only [minCandidate, Option.some.injEq] at h
      subst h
      refine ⟨by simp, ?_⟩
      intro d hd
      obtain rfl := mem_singleton.mp hd
      unfold before
      omega
    | some d =>
      obtain ⟨hd, hmin⟩ := minCandidate_eq_some hm
      simp only [hm] at h
      split_ifs at h with hb
      · cases h
        refine ⟨mem_cons_of_mem c hd, ?_⟩
        intro e he
        rcases mem_cons.mp he with rfl | he
        · unfold before at hb ⊢
          omega
        · exact hmin e he
      · cases h
        refine ⟨by simp, ?_⟩
        intro e he
        rcases mem_cons.mp he with rfl | he
        · unfold before
          omega
        · have := hmin e he
          unfold before at this hb ⊢
          omega

theorem mem_candidates {pending : Str} {c : ℕ × Fin specs.list.length} :
    (c ∈ (finRange specs.list.length).filterMap fun idx =>
      (find (specs.spec idx).opener pending).map (·, idx)) ↔
    find (specs.spec c.2).opener pending = some c.1 := by
  rw [mem_filterMap]
  constructor
  · rintro ⟨idx, _, h⟩
    obtain ⟨pos, hpos, rfl⟩ := map_eq_some_iff.mp h
    exact hpos
  · intro h
    exact ⟨c.2, mem_finRange _, by rw [h]; rfl⟩

theorem opener_ne_nil_of_spec (idx : Fin specs.list.length) : (specs.spec idx).opener ≠ [] :=
  specs.opener_ne_nil _ (get_mem _ _)

theorem openers_getElem? {j : ℕ} {p : Str} :
    specs.openers[j]? = some p ↔ ∃ idx : Fin specs.list.length, idx.val = j ∧ (specs.spec idx).opener = p := by
  unfold openers spec
  rw [List.getElem?_map, Option.map_eq_some_iff]
  constructor
  · rintro ⟨sp, hsp, rfl⟩
    obtain ⟨hj, rfl⟩ := List.getElem?_eq_some_iff.mp hsp
    exact ⟨⟨j, hj⟩, rfl, rfl⟩
  · rintro ⟨idx, rfl, rfl⟩
    exact ⟨_, List.getElem?_eq_getElem idx.isLt, rfl⟩

theorem findNextOpen_eq_some {pending : Str} {pos : ℕ} {idx : Fin specs.list.length}
    (h : specs.findNextOpen pending = some (pos, idx)) :
    Best specs.openers pending pos idx (specs.spec idx).opener := by
  obtain ⟨hmem, hmin⟩ := specs.minCandidate_eq_some h
  rw [mem_candidates] at hmem
  refine ⟨specs.openers_getElem?.mpr ⟨idx, rfl, rfl⟩, (find_eq_some (specs.opener_ne_nil_of_spec idx) hmem).1, ?_⟩
  intro i' j' p' hp' ho'
  obtain ⟨idx', rfl, rfl⟩ := specs.openers_getElem?.mp hp'
  cases hf : find (specs.spec idx').opener pending with
  | none => exact absurd ho' (find_eq_none (specs.opener_ne_nil_of_spec idx') hf i')
  | some i'' =>
    obtain ⟨_, hfirst⟩ := find_eq_some (specs.opener_ne_nil_of_spec idx') hf
    have hle : i'' ≤ i' := Nat.le_of_not_lt fun hlt => hfirst i' hlt ho'
    have hnb := hmin (i'', idx') (specs.mem_candidates.mpr hf)
    unfold before at hnb
    simp only [Fin.lt_def] at hnb
    omega

theorem findNextOpen_eq_none {pending : Str} (h : specs.findNextOpen pending = none) :
    ∀ p ∈ specs.openers, ∀ i, ¬ OccursAt p pending i := by
  have hnil := specs.minCandidate_eq_none h
  intro p hp i
  obtain ⟨j, hj⟩ := mem_iff_getElem?.mp hp
  obtain ⟨idx, _, rfl⟩ := specs.openers_getElem?.mp hj
  refine find_eq_none (specs.opener_ne_nil_of_spec idx) ?_ i
  cases hf : find (specs.spec idx).opener pending with
  | none => rfl
  | some pos =>
    have hmem := specs.mem_candidates.mpr (show find (specs.spec (pos, idx).2).opener pending = some pos from hf)
    rw [hnil] at hmem
    cases hmem

/-! ### The parser as a scan -/

/-- The loop of `push_str` as a scan for delimiters. -/
def scanner : Scanner (LoopState T) Char where
  pats s := match s.1 with
    | some active => [active.close]
    | none => specs.openers
  find s pending := match s.1 with
    | some active => (find active.close pending).map (·, 0)
    | none => (specs.findNextOpen pending).map fun c => (c.1, c.2.val)
  keep s pending := match s.1 with
    | some active => longestSuffixPrefixLen pending active.close
    | none => specs.maxOpenPrefixSuffixLen pending
  text s t := match s.1 with
    | some active => (some { active with content := active.content ++ t }, s.2)
    | none => (none, ⟨s.2.visibleText ++ t, s.2.extracted⟩)
  hit s j := match s.1 with
    | some active => (none, ⟨s.2.visibleText, s.2.extracted ++ [⟨active.tag, active.content⟩]⟩)
    | none => if h : j < specs.list.length then (some (specs.activate ⟨j, h⟩), s.2) else s

theorem loopStep_eq : specs.loopStep = specs.scanner.step := by
  funext s pending
  obtain ⟨_ | active, out⟩ := s
  · unfold loopStep Scanner.step
    simp only [scanner]
    cases hf : specs.findNextOpen pending with
    | none => rfl
    | some c =>
      have hlen := Scanner.patLength_of_best (S := specs.scanner) (s := (none, out)) (specs.findNextOpen_eq_some hf)
      simp only [map_some, c.2.isLt, dif_pos]
      rw [← hlen]
      rfl
  · unfold loopStep Scanner.step
    simp only [scanner]
    cases hf : find active.close pending with
    | none | some => rfl

theorem pushStr_eq (self : InlineHiddenTagParser T) (chunk : Str) :
    specs.pushStr self chunk =
      (⟨(specs.scanner.run (self.active, 1) (self.pending ++ chunk)).2,
        (specs.scanner.run (self.active, 1) (self.pending ++ chunk)).1.1⟩,
        (specs.scanner.run (self.active, 1) (self.pending ++ chunk)).1.2) := by
  unfold pushStr Scanner.run
  rw [loopStep_eq]

variable {specs}

/-- When no open delimiter lies inside another, the scan is lawful. -/
theorem scanner_lawful (hs : Separate specs.openers) : specs.scanner.Lawful where
  separate := by
    rintro ⟨_ | active, out⟩
    · exact hs
    · exact separate_singleton active.close_ne_nil
  find_some := by
    rintro ⟨_ | active, out⟩ t i j h
    · obtain ⟨c, hc, he⟩ := map_eq_some_iff.mp h
      cases he
      exact ⟨_, specs.findNextOpen_eq_some hc⟩
    · obtain ⟨pos, hpos, he⟩ := map_eq_some_iff.mp h
      cases he
      exact ⟨_, best_singleton active.close_ne_nil hpos⟩
  find_none := by
    rintro ⟨_ | active, out⟩ t h
    · exact specs.findNextOpen_eq_none (map_eq_none_iff.mp h)
    · intro p hp
      rw [mem_singleton.mp hp]
      exact find_eq_none active.close_ne_nil (map_eq_none_iff.mp h)
  keep := by
    rintro ⟨_ | active, out⟩ t
    · exact specs.maxOpenPrefixSuffixLen_greatest t
    · exact longestSuffixPrefixLen_greatest t active.close_ne_nil
  pats_text := by rintro ⟨_ | active, out⟩ a <;> rfl
  text_nil := by rintro ⟨_ | active, out⟩ <;> simp [scanner]
  text_append := by rintro ⟨_ | active, out⟩ a b <;> simp [scanner]

/-- The output before does not matter to the scan. -/
theorem scanner_run_out (hs : Separate specs.openers) (active : Option (ActiveTag T))
    (out : StreamTextChunk (ExtractedInlineTag T)) (t : Str) :
    specs.scanner.run (active, out) t =
      (((specs.scanner.run (active, 1) t).1.1, out * (specs.scanner.run (active, 1) t).1.2),
        (specs.scanner.run (active, 1) t).2) := by
  have h := (scanner_lawful hs).run_map (φ := fun s => (s.1, out * s.2))
    (fun s t => rfl) (fun s t => rfl) (fun s => rfl) ?_ ?_ (active, 1) t
  · simpa using h
  · rintro ⟨_ | a, o⟩ t
    · simp [scanner, StreamTextChunk.ext_iff]
    · rfl
  · rintro ⟨_ | a, o⟩ j
    · simp only [scanner]
      split_ifs <;> rfl
    · simp [scanner, StreamTextChunk.ext_iff]

/-- **The parser of hidden tags is seamless**, when no open delimiter lies inside another. -/
theorem inlineHiddenTag_seamless (hs : Separate specs.openers) :
    specs.inlineHiddenTagParser.Seamless (MonoidHom.id _) := by
  have key : ∀ (s : InlineHiddenTagParser T) (a b : Str),
      specs.pushStr s (a ++ b) = ((specs.pushStr (specs.pushStr s a).1 b).1,
        (specs.pushStr s a).2 * (specs.pushStr (specs.pushStr s a).1 b).2) := by
    intro s a b
    simp only [pushStr_eq]
    rw [← append_assoc, (scanner_lawful hs).run_append, scanner_run_out hs]
  constructor
  · intro s a b
    show (specs.pushStr s (a ++ b)).1 = (specs.pushStr (specs.pushStr s a).1 b).1
    rw [key]
  · intro s a b
    show (specs.pushStr s (a ++ b)).2 = (specs.pushStr s a).2 * (specs.pushStr (specs.pushStr s a).1 b).2
    rw [key]

end InlineSpecs

/-! ### Citations -/

inductive CitationTag where
  | citation
deriving DecidableEq, Repr

def citationOpen : Str := "<oai-mem-citation>"

def citationClose : Str := "</oai-mem-citation>"

def citationSpecs : InlineSpecs CitationTag where
  list := [⟨.citation, citationOpen, citationClose⟩]
  ne_nil := by simp
  opener_ne_nil := by
    intro spec hspec
    rw [List.mem_singleton.mp hspec]
    decide
  close_ne_nil := by
    intro spec hspec
    rw [List.mem_singleton.mp hspec]
    decide

abbrev CitationStreamParser : Type := InlineHiddenTagParser CitationTag

/-- The output with the bodies of the citations only. -/
def citationBodies : StreamTextChunk (ExtractedInlineTag CitationTag) →* StreamTextChunk Str where
  toFun inner := ⟨inner.visibleText, inner.extracted.map (·.content)⟩
  map_one' := rfl
  map_mul' a b := by simp [StreamTextChunk.ext_iff]

def CitationStreamParser.new : CitationStreamParser := ⟨[], none⟩

def citationStreamParser : StreamParser CitationStreamParser Char (StreamTextChunk Str) where
  push self chunk := ((citationSpecs.pushStr self chunk).1, citationBodies (citationSpecs.pushStr self chunk).2)
  finish self := (self.finish.1, citationBodies self.finish.2)

theorem citationSpecs_separate : Separate citationSpecs.openers :=
  separate_singleton (by decide : citationOpen ≠ [])

/-- The citation parser is seamless. -/
theorem citation_seamless : citationStreamParser.Seamless (MonoidHom.id _) := by
  have h := InlineSpecs.inlineHiddenTag_seamless citationSpecs_separate
  refine ⟨h.state, ?_⟩
  intro s a b
  have ho := congrArg citationBodies (h.output s a b)
  simp only [MonoidHom.id_apply, map_mul] at ho
  exact ho

end OpenAgere.StreamText
