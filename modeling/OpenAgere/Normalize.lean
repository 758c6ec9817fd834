import OpenAgere.Models

/-! # Normal histories

`core/src/context_manager/normalize.rs`, and `normalize_history` of `history.rs`: before a history is
sent to the model, every call gets an output, outputs without a call are removed, and images are
replaced by a text if the model does not read images.  What `error_or_panic` writes to the log is
left out.

The four kinds of calls and three kinds of outputs are told apart by the output a call needs
(`needs`) and the one an output gives (`gives`).  `normalized_normalizeHistory` says what a
normal history is, how it comes from the history, and that normalizing it again changes nothing.
Where calls and outputs come in pairs, an item is removed with its counterpart
(`Paired.removeCorrespondingFor`). -/

namespace OpenAgere.Normalize

open List Option Models

/-! ### Insertions -/

section insertions
variable {α : Type}

/-- What has to be inserted behind the items of a list, with the positions of these items. -/
def missing (f : α → Option α) (items : List α) : List (ℕ × α) :=
  items.zipIdx.filterMap fun entry => (f entry.1).map fun a => (entry.2, a)

/-- Insert behind the given positions, the last position first, so that no position shifts. -/
def insertAll (entries : List (ℕ × α)) (items : List α) : List α :=
  entries.reverse.foldl (fun items entry => items.insertIdx (entry.1 + 1) entry.2) items

theorem insertIdx_length (as bs : List α) (a : α) : (as ++ bs).insertIdx as.length a = as ++ a :: bs := by
  induction as with
  | nil => rfl
  | cons b as ih => exact congrArg (b :: ·) ih

theorem foldr_missing (f : α → Option α) (before items : List α) :
    ((items.zipIdx before.length).filterMap fun entry => (f entry.1).map fun a => (entry.2, a)).foldr
      (fun entry items => items.insertIdx (entry.1 + 1) entry.2) (before ++ items) =
      before ++ items.flatMap fun item => item :: (f item).toList := by
  induction items generalizing before with
  | nil => simp
  | cons item items ih =>
    have hrest := ih (before ++ [item])
    rw [length_append, length_singleton, append_assoc] at hrest
    rw [zipIdx_cons]
    cases hf : f item with
    | none =>
      rw [filterMap_cons_none (by simp [hf])]
      exact hrest.trans (by simp [hf])
    | some a =>
      rw [filterMap_cons_some (b := (before.length, a)) (by simp [hf]), foldr_cons]
      refine (congrArg (fun l : List α => l.insertIdx (before.length + 1) a) hrest).trans ?_
      have hins := insertIdx_length (before ++ [item])
        (items.flatMap fun item => item :: (f item).toList) a
      rw [length_append, length_singleton] at hins
      rw [hins]
      simp [hf]

theorem insertAll_missing (f : α → Option α) (items : List α) :
    insertAll (missing f items) items = items.flatMap fun item => item :: (f item).toList := by
  unfold insertAll missing
  rw [foldl_reverse]
  exact foldr_missing f [] items

end insertions

/-! ### Calls and outputs -/

inductive OutputKind where
  | function | custom | toolSearch
deriving DecidableEq, Repr

/-- The output a call needs. -/
def needs : ResponseItem → Option (OutputKind × Str)
  | .functionCall _ _ _ _ callId => some (.function, callId)
  | .localShellCall _ (some callId) _ _ => some (.function, callId)
  | .customToolCall _ _ callId _ _ => some (.custom, callId)
  | .toolSearchCall _ (some callId) _ _ _ => some (.toolSearch, callId)
  | _ => none

/-- The call an output answers. -/
def gives : ResponseItem → Option (OutputKind × Str)
  | .functionCallOutput callId _ => some (.function, callId)
  | .customToolCallOutput callId _ _ => some (.custom, callId)
  | .toolSearchOutput (some callId) _ _ _ => some (.toolSearch, callId)
  | _ => none

/-- The tools were searched by the server. -/
def serverExecuted : ResponseItem → Bool
  | .toolSearchOutput _ _ execution _ => execution = "server"
  | _ => false

def aborted : FunctionCallOutputPayload := .fromText "aborted"

/-- The output that is made up for a call. -/
def synthetic : OutputKind × Str → ResponseItem
  | (.function, callId) => .functionCallOutput callId aborted
  | (.custom, callId) => .customToolCallOutput callId none aborted
  | (.toolSearch, callId) => .toolSearchOutput (some callId) "completed" "client" []

/-- The output to insert behind an item of a history. -/
def missingOutput (items : List ResponseItem) (item : ResponseItem) : Option ResponseItem :=
  (needs item).bind fun output =>
    if items.any fun item => gives item = some output then none else some (synthetic output)

def ensureCallOutputsPresent (items : List ResponseItem) : List ResponseItem :=
  insertAll (missing (missingOutput items) items) items

/-- The item is no output, or one of a call in the history. -/
def retained (items : List ResponseItem) (item : ResponseItem) : Bool :=
  serverExecuted item ||
    match gives item with
    | some output => output ∈ items.filterMap needs
    | none => true

def removeOrphanOutputs (items : List ResponseItem) : List ResponseItem := items.filter (retained items)

def isFunctionCall (callId : Str) : ResponseItem → Bool
  | .functionCall _ _ _ _ existing => existing = callId
  | _ => false

/-- Remove the first item that belongs to a call or an output which was removed. -/
def removeCorrespondingFor (items : List ResponseItem) (item : ResponseItem) : List ResponseItem :=
  match item, needs item, gives item with
  | .functionCallOutput callId _, _, _ =>
      if items.any (isFunctionCall callId) then items.eraseP (isFunctionCall callId)
      else items.eraseP fun existing => needs existing = some (.function, callId)
  | _, some output, _ => items.eraseP fun existing => gives existing = some output
  | _, none, some output => items.eraseP fun existing => needs existing = some output
  | _, none, none => items

/-! ### Images -/

inductive InputModality where
  | text | image
deriving DecidableEq, Repr

def imageContentOmittedPlaceholder : Str :=
  "image content omitted because you do not support image input"

def stripContentItem : ContentItem → ContentItem
  | .inputImage _ _ => .inputText imageContentOmittedPlaceholder
  | content => content

def stripOutputItem : FunctionCallOutputContentItem → FunctionCallOutputContentItem
  | .inputImage _ _ => .inputText imageContentOmittedPlaceholder
  | content => content

def stripOutput (output : FunctionCallOutputPayload) : FunctionCallOutputPayload :=
  match output.body with
  | .text _ => output
  | .contentItems items => { output with body := .contentItems (items.map stripOutputItem) }

def stripImages : ResponseItem → ResponseItem
  | .message id role content phase => .message id role (content.map stripContentItem) phase
  | .functionCallOutput callId output => .functionCallOutput callId (stripOutput output)
  | .customToolCallOutput callId name output => .customToolCallOutput callId name (stripOutput output)
  | .imageGenerationCall id status revisedPrompt _ => .imageGenerationCall id status revisedPrompt []
  | item => item

def stripImagesWhenUnsupported (inputModalities : List InputModality) (items : List ResponseItem) :
    List ResponseItem :=
  if .image ∈ inputModalities then items else items.map stripImages

def normalizeHistory (inputModalities : List InputModality) (items : List ResponseItem) : List ResponseItem :=
  stripImagesWhenUnsupported inputModalities (removeOrphanOutputs (ensureCallOutputsPresent items))

/-! ### Stripping -/

/-- What stripping does to an item. -/
def strip (inputModalities : List InputModality) (item : ResponseItem) : ResponseItem :=
  if .image ∈ inputModalities then item else stripImages item

theorem stripImagesWhenUnsupported_eq (inputModalities : List InputModality) (items : List ResponseItem) :
    stripImagesWhenUnsupported inputModalities items = items.map (strip inputModalities) := by
  unfold stripImagesWhenUnsupported strip
  split_ifs
  · exact (map_id' items).symm
  · rfl

variable {inputModalities : List InputModality}

theorem stripOutput_stripOutput (output : FunctionCallOutputPayload) :
    stripOutput (stripOutput output) = stripOutput output := by
  have hitem : ∀ item, stripOutputItem (stripOutputItem item) = stripOutputItem item := by
    intro item
    cases item <;> rfl
  obtain ⟨body, success⟩ := output
  cases body with
  | text text => rfl
  | contentItems items => simp [stripOutput, hitem]

theorem strip_strip (item : ResponseItem) :
    strip inputModalities (strip inputModalities item) = strip inputModalities item := by
  have hcontent : ∀ content, stripContentItem (stripContentItem content) = stripContentItem content := by
    intro content
    cases content <;> rfl
  unfold strip
  split_ifs
  · rfl
  · cases item <;> simp [stripImages, stripOutput_stripOutput, hcontent]

@[simp] theorem needs_strip (item : ResponseItem) : needs (strip inputModalities item) = needs item := by
  unfold strip
  split_ifs
  · rfl
  · cases item <;> rfl

@[simp] theorem gives_strip (item : ResponseItem) : gives (strip inputModalities item) = gives item := by
  unfold strip
  split_ifs
  · rfl
  · cases item <;> rfl

@[simp] theorem serverExecuted_strip (item : ResponseItem) :
    serverExecuted (strip inputModalities item) = serverExecuted item := by
  unfold strip
  split_ifs
  · rfl
  · cases item <;> rfl

/-! ### Calls and their outputs -/

@[simp] theorem gives_synthetic (output : OutputKind × Str) : gives (synthetic output) = some output := by
  obtain ⟨kind, callId⟩ := output
  cases kind <;> rfl

@[simp] theorem needs_synthetic (output : OutputKind × Str) : needs (synthetic output) = none := by
  obtain ⟨kind, callId⟩ := output
  cases kind <;> rfl

variable {item : ResponseItem} {output : OutputKind × Str}

theorem gives_eq_none_of_needs (h : needs item = some output) : gives item = none := by
  cases item <;> first | rfl | exact absurd h (by simp [needs])

variable {items : List ResponseItem} {made : ResponseItem}

theorem missingOutput_eq_some : missingOutput items item = some made ↔
      ∃ output, needs item = some output ∧ (∀ given ∈ items, gives given ≠ some output) ∧ synthetic output = made := by
  unfold missingOutput
  simp [bind_eq_some_iff, ite_eq_iff]

theorem retained_iff : retained items item ↔
    serverExecuted item ∨ ∀ output, gives item = some output → ∃ call ∈ items, needs call = some output := by
  unfold retained
  cases h : gives item with
  | none | some => simp

/-- The history in which every item that is kept is followed by the output made up for it. -/
def completed (items : List ResponseItem) : List ResponseItem :=
  (items.filter (retained items)).flatMap fun item => item :: (missingOutput items item).toList

theorem needs_missingOutput (h : missingOutput items item = some made) : needs made = none := by
  obtain ⟨output, -, -, rfl⟩ := missingOutput_eq_some.mp h
  exact needs_synthetic output

theorem filterMap_needs_flatMap (items kept : List ResponseItem) :
    (kept.flatMap fun item => item :: (missingOutput items item).toList).filterMap needs = kept.filterMap needs := by
  induction kept with
  | nil => rfl
  | cons item kept ih =>
    rw [flatMap_cons, filterMap_append, ih]
    have hmade : (missingOutput items item).toList.filterMap needs = [] := by
      cases hm : missingOutput items item with
      | none => rfl
      | some made => exact filterMap_cons_none (needs_missingOutput hm)
    cases hn : needs item with
    | none => rw [filterMap_cons_none hn, filterMap_cons_none hn, hmade]; rfl
    | some output => rw [filterMap_cons_some hn, filterMap_cons_some hn, hmade]; rfl

theorem retained_congr {items' : List ResponseItem} (h : items.filterMap needs = items'.filterMap needs) :
    retained items = retained items' := by
  funext item
  unfold retained
  rw [h]

theorem missingOutput_of_not_retained (h : ¬ retained items item) : missingOutput items item = none := by
  cases hm : missingOutput items item with
  | none => rfl
  | some made =>
    obtain ⟨output, hn, -, -⟩ := missingOutput_eq_some.mp hm
    refine absurd (retained_iff.mpr (.inr fun given hg => ?_)) h
    rw [gives_eq_none_of_needs hn] at hg
    exact absurd hg (by simp)

theorem retained_missingOutput (hitem : item ∈ items)
    (h : missingOutput items item = some made) : retained items made := by
  obtain ⟨output, hn, -, rfl⟩ := missingOutput_eq_some.mp h
  refine retained_iff.mpr (.inr fun given hg => ⟨item, hitem, ?_⟩)
  rw [gives_synthetic] at hg
  rw [hn, hg]

/-- The two passes do not undo each other. -/
theorem removeOrphanOutputs_ensureCallOutputsPresent (items : List ResponseItem) :
    removeOrphanOutputs (ensureCallOutputsPresent items) = completed items := by
  unfold removeOrphanOutputs completed
  rw [ensureCallOutputsPresent, insertAll_missing, retained_congr (filterMap_needs_flatMap items items)]
  have hpart : ∀ part : List ResponseItem, (∀ item ∈ part, item ∈ items) →
      (part.flatMap fun item => item :: (missingOutput items item).toList).filter (retained items) =
        (part.filter (retained items)).flatMap fun item => item :: (missingOutput items item).toList := by
    intro part
    induction part with
    | nil => exact fun _ => rfl
    | cons item part ih =>
      intro hmem
      rw [flatMap_cons, filter_append, ih fun item h => hmem item (mem_cons_of_mem _ h)]
      by_cases hr : retained items item = true
      · rw [filter_cons_of_pos hr, filter_cons_of_pos hr, flatMap_cons]
        cases hm : missingOutput items item with
        | none => rfl
        | some made =>
          have hr' := retained_missingOutput (hmem item (by simp)) hm
          rw [toList_some, filter_cons_of_pos hr']
          rfl
      · rw [filter_cons_of_neg hr, filter_cons_of_neg hr, missingOutput_of_not_retained hr]
        rfl
  exact hpart items fun _ h => h

theorem normalizeHistory_eq (items : List ResponseItem) :
    normalizeHistory inputModalities items = (completed items).map (strip inputModalities) := by
  unfold normalizeHistory
  rw [stripImagesWhenUnsupported_eq, removeOrphanOutputs_ensureCallOutputsPresent]

/-! ### Normal histories -/

/-- Every call has its output, and every output a call. -/
structure Answered (items : List ResponseItem) : Prop where
  output : ∀ call ∈ items, ∀ output, needs call = some output → ∃ item ∈ items, gives item = some output
  call : ∀ item ∈ items, ∀ output, gives item = some output → serverExecuted item = false →
    ∃ call ∈ items, needs call = some output

theorem mem_completed : item ∈ completed items ↔ (item ∈ items ∧ retained items item) ∨
      ∃ call ∈ items, retained items call ∧ missingOutput items call = some item := by
  unfold completed
  rw [mem_flatMap]
  constructor
  · rintro ⟨call, hcall, hitem⟩
    obtain ⟨hmem, hr⟩ := mem_filter.mp hcall
    rw [mem_cons, mem_toList] at hitem
    obtain rfl | hm := hitem
    · exact .inl ⟨hmem, hr⟩
    · exact .inr ⟨call, hmem, hr, hm⟩
  · rintro (⟨hmem, hr⟩ | ⟨call, hmem, hr, hm⟩)
    · exact ⟨item, mem_filter.mpr ⟨hmem, hr⟩, mem_cons_self⟩
    · exact ⟨call, mem_filter.mpr ⟨hmem, hr⟩, mem_cons_of_mem _ (mem_toList.mpr hm)⟩

theorem retained_of_needs {call : ResponseItem} (h : needs call = some output) : retained items call := by
  refine retained_iff.mpr (.inr fun given hg => ?_)
  rw [gives_eq_none_of_needs h] at hg
  exact absurd hg (by simp)

theorem answered_completed (items : List ResponseItem) : Answered (completed items) where
  output := by
    intro call hcall output hn
    obtain ⟨hmem, hr⟩ | ⟨made, -, -, hm⟩ := mem_completed.mp hcall
    · by_cases hex : ∃ item ∈ items, gives item = some output
      · obtain ⟨item, hitem, hg⟩ := hex
        refine ⟨item, mem_completed.mpr (.inl ⟨hitem, ?_⟩), hg⟩
        refine retained_iff.mpr (.inr fun given hg' => ⟨call, hmem, ?_⟩)
        rw [hn, ← hg, hg']
      · have hm : missingOutput items call = some (synthetic output) :=
          missingOutput_eq_some.mpr ⟨output, hn, fun item hitem hg => hex ⟨item, hitem, hg⟩, rfl⟩
        exact ⟨synthetic output, mem_completed.mpr (.inr ⟨call, hmem, hr, hm⟩), gives_synthetic output⟩
    · rw [needs_missingOutput hm] at hn
      exact absurd hn (by simp)
  call := by
    intro item hitem output hg hserver
    have hfrom : ∃ call ∈ items, needs call = some output := by
      obtain ⟨hmem, hr⟩ | ⟨call, hmem, -, hm⟩ := mem_completed.mp hitem
      · obtain hs | hcalls := retained_iff.mp hr
        · rw [hserver] at hs
          exact absurd hs (by simp)
        · exact hcalls output hg
      · obtain ⟨output', hn, -, rfl⟩ := missingOutput_eq_some.mp hm
        rw [gives_synthetic] at hg
        exact ⟨call, hmem, by rw [hn, hg]⟩
    obtain ⟨call, hmem, hn⟩ := hfrom
    exact ⟨call, mem_completed.mpr (.inl ⟨hmem, retained_of_needs hn⟩), hn⟩

theorem Answered.map_strip (h : Answered items) : Answered (items.map (strip inputModalities)) where
  output := by
    intro call hcall output hn
    obtain ⟨call, hmem, rfl⟩ := mem_map.mp hcall
    rw [needs_strip] at hn
    obtain ⟨item, hitem, hg⟩ := h.output call hmem output hn
    exact ⟨_, mem_map_of_mem hitem, by rw [gives_strip, hg]⟩
  call := by
    intro item hitem output hg hserver
    obtain ⟨item, hmem, rfl⟩ := mem_map.mp hitem
    rw [gives_strip] at hg
    rw [serverExecuted_strip] at hserver
    obtain ⟨call, hcall, hn⟩ := h.call item hmem output hg hserver
    exact ⟨_, mem_map_of_mem hcall, by rw [needs_strip, hn]⟩

/-- Where every call has its output and every output a call, nothing is added or removed. -/
theorem Answered.completed_eq (h : Answered items) : completed items = items := by
  have hretained : ∀ item ∈ items, retained items item = true := by
    intro item hitem
    cases hs : serverExecuted item with
    | true => exact retained_iff.mpr (.inl hs)
    | false => exact retained_iff.mpr (.inr fun output hg => h.call item hitem output hg hs)
  have hmissing : ∀ item ∈ items, item :: (missingOutput items item).toList = [item] := by
    intro item hitem
    cases hm : missingOutput items item with
    | none => rfl
    | some made =>
      obtain ⟨output, hn, hnone, -⟩ := missingOutput_eq_some.mp hm
      obtain ⟨given, hgiven, hg⟩ := h.output item hitem output hn
      exact absurd hg (hnone given hgiven)
  unfold completed
  rw [filter_eq_self.mpr hretained, flatMap_congr hmissing]
  exact flatMap_singleton' items

/-- **Normal histories.**  In a history that is normalized every call has its output and every
output, but for those of a search by the server, a call.  It holds the items of the history in
their order, up to images, without the outputs that had no call; an output that is made up stands
behind its call.  Normalizing it again changes nothing. -/
theorem normalized_normalizeHistory (inputModalities : List InputModality) (items : List ResponseItem) :
    Answered (normalizeHistory inputModalities items) ∧
      normalizeHistory inputModalities items =
        ((items.filter (retained items)).flatMap fun item => item :: (missingOutput items item).toList).map
          (strip inputModalities) ∧
      normalizeHistory inputModalities (normalizeHistory inputModalities items) =
        normalizeHistory inputModalities items := by
  have hanswered : Answered (normalizeHistory inputModalities items) := by
    rw [normalizeHistory_eq]
    exact (answered_completed items).map_strip
  refine ⟨hanswered, normalizeHistory_eq items, ?_⟩
  rw [normalizeHistory_eq (normalizeHistory inputModalities items), hanswered.completed_eq, normalizeHistory_eq,
    List.map_map]
  exact List.map_congr_left fun item _ => strip_strip item

/-! ### Removing an item with its counterpart -/

/-- The calls and the outputs of a history correspond one to one. -/
def Paired (items : List ResponseItem) : Prop :=
  (items.filterMap needs).Nodup ∧ items.filterMap needs ~ items.filterMap gives

theorem Paired.perm {items' : List ResponseItem} (h : Paired items) (hperm : items ~ items') : Paired items' :=
  ⟨(hperm.filterMap _).nodup_iff.mp h.1, (hperm.filterMap _).symm.trans (h.2.trans (hperm.filterMap _))⟩

theorem Paired.answered (h : Paired items) : Answered items where
  output call hcall _ hn := mem_filterMap.mp (h.2.mem_iff.mp (mem_filterMap.mpr ⟨call, hcall, hn⟩))
  call item hitem _ hg _ := mem_filterMap.mp (h.2.mem_iff.mpr (mem_filterMap.mpr ⟨item, hitem, hg⟩))

/-- Two functions have the same values on a list up to order, and none on the same element: an element goes together
with one that has its value under the other function. -/
theorem perm_filterMap_eraseP {α β : Type} {f g : α → Option β} {p : α → Bool} {a : α} {l : List α} {b : β}
    (hone : ∀ c, f c = none ∨ g c = none) (h : (a :: l).filterMap f ~ (a :: l).filterMap g) (ha : f a = some b)
    (hp : ∀ c, p c → g c = some b) (hex : ∀ c ∈ l, g c = some b → ∃ d ∈ l, p d) :
    (l.eraseP p).filterMap f ~ (l.eraseP p).filterMap g := by
  rw [filterMap_cons_some ha, filterMap_cons_none ((hone a).resolve_left (by simp [ha]))] at h
  obtain ⟨c, hc, hgc⟩ := mem_filterMap.mp (h.mem_iff.mp mem_cons_self)
  obtain ⟨d, hd, hpd⟩ := hex c hc hgc
  obtain ⟨e, as, bs, -, he, rfl, herase⟩ := exists_of_eraseP hd hpd
  have hge := hp e he
  rw [filterMap_append, filterMap_append, filterMap_cons_none ((hone e).resolve_right (by simp [hge])),
    filterMap_cons_some hge] at h
  rw [herase, filterMap_append, filterMap_append]
  exact (h.trans perm_middle).cons_inv

theorem removeCorrespondingFor_sublist (items : List ResponseItem) (item : ResponseItem) :
    removeCorrespondingFor items item <+ items := by
  unfold removeCorrespondingFor
  split
  · split_ifs <;> exact eraseP_sublist
  · exact eraseP_sublist
  · exact eraseP_sublist
  · exact .refl items

theorem Paired.removeCorrespondingFor (h : Paired (item :: items)) : Paired (removeCorrespondingFor items item) := by
  have hsub := (removeCorrespondingFor_sublist items item).trans (sublist_cons_self item items)
  refine ⟨h.1.sublist (hsub.filterMap needs), ?_⟩
  have hone : ∀ item, needs item = none ∨ gives item = none := fun item => by
    cases hn : needs item with
    | none => exact .inl rfl
    | some output => exact .inr (gives_eq_none_of_needs hn)
  have hone' : ∀ item, gives item = none ∨ needs item = none := fun item => (hone item).symm
  unfold Normalize.removeCorrespondingFor
  split
  · split_ifs with hany
    · refine (perm_filterMap_eraseP hone' h.2.symm rfl (fun c hc => ?_) fun _ _ _ => any_eq_true.mp hany).symm
      cases c <;> simp_all [isFunctionCall, needs]
    · exact (perm_filterMap_eraseP hone' h.2.symm rfl (fun _ => of_decide_eq_true)
        fun c hc hn => ⟨c, hc, decide_eq_true hn⟩).symm
  · rename_i hn
    exact perm_filterMap_eraseP hone h.2 hn (fun _ => of_decide_eq_true) fun c hc hg => ⟨c, hc, decide_eq_true hg⟩
  · rename_i hg
    exact (perm_filterMap_eraseP hone' h.2.symm hg (fun _ => of_decide_eq_true)
      fun c hc hn => ⟨c, hc, decide_eq_true hn⟩).symm
  · rename_i hn hg
    have hsame := h.2
    rwa [filterMap_cons_none hn, filterMap_cons_none hg] at hsame

end OpenAgere.Normalize
