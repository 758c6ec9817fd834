import OpenAgere.ContextManager
import OpenAgere.NumberedGroups

/-! # The turns shown of a thread

`ThreadHistoryBuilder` of `app-server-protocol/src/protocol/thread_history.rs`: the items of a rollout are
turned into the turns that a client shows.  Messages and reasoning get an identifier from a counter, the
work of tools comes with identifiers of its own and is added to the current turn or to the turn it names,
and a rollback cuts off the last turns and sets the counter back.

The identifiers from the counter that occur in the turns are pairwise distinct (`nodup_itemIds`), and a turn that
is reported as active stays in the finished turns (`finish_activeTurnPosition`). -/

namespace OpenAgere.ThreadHistory

open List Option Models Rollout Text NumberedGroups

/-! ### Turns and items -/

/-- The text of a UUID. -/
structure Uuid where
  text : Str
  hex : ∀ c ∈ text, c = '-' ∨ c ∈ "0123456789abcdef".toList

inductive UserInput where
  | text (text : Str) (textElements : List Value)
  | image (url : Str)
  | localImage (path : Str)
deriving DecidableEq, Repr

inductive ThreadItem where
  | userMessage (id : Str) (content : List UserInput)
  | hookPrompt (id : Str) (fragments : List HookPromptFragment)
  | agentMessage (id text : Str) (phase : Option MessagePhase) (memoryCitation : Option Value)
  | reasoning (id : Str) (summary content : List Str)
  | contextCompaction (id : Str)
  | enteredReviewMode (id review : Str)
  | exitedReviewMode (id review : Str)
  | tool (event : ToolEvent) (item : ToolItem)
deriving DecidableEq, Repr

def ThreadItem.id : ThreadItem → Str
  | userMessage id _ => id
  | hookPrompt id _ => id
  | agentMessage id _ _ _ => id
  | reasoning id _ _ => id
  | contextCompaction id => id
  | enteredReviewMode id _ => id
  | exitedReviewMode id _ => id
  | tool _ item => item.id

inductive TurnStatus where
  | completed
  | interrupted
  | failed
  | inProgress
deriving DecidableEq, Repr

structure TurnError where
  message : Str
  info : Option Value
deriving DecidableEq, Repr

structure Turn where
  id : Str
  items : List ThreadItem
  error : Option TurnError
  status : TurnStatus
  startedAt : Option ℤ
  completedAt : Option ℤ
  durationMs : Option ℤ
deriving DecidableEq, Repr

/-- A turn that is not finished. -/
structure PendingTurn extends Turn where
  openedExplicitly : Bool
  sawCompaction : Bool
  rolloutStartIndex : ℕ
deriving DecidableEq, Repr

/-- The builder; `drawn` counts the UUIDs drawn so far. -/
structure ThreadHistoryBuilder where
  turns : List Turn
  currentTurn : Option PendingTurn
  nextItemIndex : ℕ
  currentRolloutIndex : ℕ
  nextRolloutIndex : ℕ
  drawn : ℕ
deriving DecidableEq, Repr

def itemId (n : ℕ) : Str := "item-" ++ Nat.toDigits 10 n

/-- The number of an identifier of the counter. -/
def itemNumber (id : Str) : Option ℕ :=
  if id = itemId (Nat.ofDigitChars 10 (id.drop 5) 0) then some (Nat.ofDigitChars 10 (id.drop 5) 0) else none

/-- Replace the item with the same identifier, or add the item. -/
def upsertTurnItem (item : ThreadItem) : List ThreadItem → List ThreadItem
  | [] => [item]
  | existing :: items => if existing.id = item.id then item :: items else existing :: upsertTurnItem item items

/-- Change the first turn with the identifier. -/
def modifyTurn (id : Str) (f : Turn → Turn) : List Turn → List Turn
  | [] => []
  | turn :: turns => if turn.id = id then f turn :: turns else turn :: modifyTurn id f turns

/-- Where the item of an event goes. -/
inductive Route where
  | currentTurn
  | turnId
  | turnIdOrCurrent
deriving DecidableEq, Repr

def routeOf : ToolEvent → Route
  | .execCommandBegin | .execCommandEnd | .itemStarted | .itemCompleted => .turnId
  | .guardianAssessment | .applyPatchApprovalRequest | .patchApplyBegin | .patchApplyEnd
  | .dynamicToolCallRequest | .dynamicToolCallResponse => .turnIdOrCurrent
  | .webSearchBegin | .webSearchEnd | .mcpToolCallBegin | .mcpToolCallEnd | .viewImageToolCall
  | .imageGenerationBegin | .imageGenerationEnd | .collabAgentSpawnBegin | .collabAgentSpawnEnd
  | .collabAgentInteractionBegin | .collabAgentInteractionEnd | .collabWaitingBegin | .collabWaitingEnd
  | .collabCloseBegin | .collabCloseEnd | .collabResumeBegin | .collabResumeEnd => .currentTurn

def reviewFallbackMessage : Str := "Reviewer failed to output a response."

def renderReviewOutputText (overallExplanation : Str) : Str :=
  if trim overallExplanation = [] then reviewFallbackMessage else trim overallExplanation

def buildUserInputs (payload : UserMessageEvent) : List UserInput :=
  (if isBlank payload.message then [] else [.text payload.message payload.textElements]) ++
    (payload.images.getD []).map .image ++ payload.localImages.map .localImage

section builder
variable (P : Parsers) (uuid : ℕ → Uuid)

/-- The fragments of a hook prompt, if the message is one. -/
def parseHookPromptMessage (content : List ContentItem) : Option (List HookPromptFragment) :=
  match content.mapM fun
    | .inputText text => parseHookPromptFragment P text
    | _ => none with
  | some [] => none
  | fragments => fragments

namespace ThreadHistoryBuilder

def new : ThreadHistoryBuilder := ⟨[], none, 1, 0, 0, 0⟩

def finishCurrentTurn (s : ThreadHistoryBuilder) : ThreadHistoryBuilder :=
  match s.currentTurn with
  | some turn =>
      if turn.items = [] ∧ turn.openedExplicitly = false ∧ turn.sawCompaction = false then
        { s with currentTurn := none }
      else { s with turns := s.turns ++ [turn.toTurn], currentTurn := none }
  | none => s

def pendingTurn (id : Str) (rolloutStartIndex : ℕ) : PendingTurn :=
  { id := id
    items := []
    error := none
    status := .completed
    startedAt := none
    completedAt := none
    durationMs := none
    openedExplicitly := false
    sawCompaction := false
    rolloutStartIndex := rolloutStartIndex }

/-- Open a turn that no event opened. -/
def openTurn (s : ThreadHistoryBuilder) : ThreadHistoryBuilder :=
  let turnFor (id : Str) : Option PendingTurn := some (pendingTurn id s.currentRolloutIndex)
  if s.nextRolloutIndex = 0 then { s with currentTurn := turnFor (uuid s.drawn).text, drawn := s.drawn + 1 }
  else { s with currentTurn := turnFor ("rollout-" ++ Nat.toDigits 10 s.currentRolloutIndex) }

def ensureTurn (s : ThreadHistoryBuilder) : ThreadHistoryBuilder :=
  match s.currentTurn with
  | some _ => s
  | none => s.openTurn uuid

/-- Change the current turn, if there is one. -/
def modifyCurrentTurn (s : ThreadHistoryBuilder) (f : PendingTurn → PendingTurn) : ThreadHistoryBuilder :=
  { s with currentTurn := s.currentTurn.map f }

/-- Change the items of the current turn, which is opened if there is none. -/
def modifyItems (s : ThreadHistoryBuilder) (f : List ThreadItem → List ThreadItem) : ThreadHistoryBuilder :=
  (s.ensureTurn uuid).modifyCurrentTurn fun turn => { turn with items := f turn.items }

/-- Add an item under the next identifier of the counter. -/
def pushItem (s : ThreadHistoryBuilder) (item : Str → ThreadItem) : ThreadHistoryBuilder :=
  modifyItems uuid { s with nextItemIndex := s.nextItemIndex + 1 } fun items =>
    items ++ [item (itemId s.nextItemIndex)]

def upsertItemInTurnId (s : ThreadHistoryBuilder) (turnId : Str) (item : ThreadItem) : ThreadHistoryBuilder :=
  if s.currentTurn.any fun turn => turn.id = turnId then
    s.modifyCurrentTurn fun turn => { turn with items := upsertTurnItem item turn.items }
  else { s with turns := modifyTurn turnId (fun turn => { turn with items := upsertTurnItem item turn.items }) s.turns }

def upsertItemInCurrentTurn (s : ThreadHistoryBuilder) (item : ThreadItem) : ThreadHistoryBuilder :=
  s.modifyItems uuid (upsertTurnItem item)

def handleUserMessage (s : ThreadHistoryBuilder) (payload : UserMessageEvent) : ThreadHistoryBuilder :=
  let s := if s.currentTurn.any fun turn =>
      !turn.openedExplicitly && !(turn.sawCompaction && turn.items.isEmpty) then s.finishCurrentTurn else s
  s.pushItem uuid fun id => .userMessage id (buildUserInputs payload)

def handleAgentMessage (s : ThreadHistoryBuilder) (text : Str) (phase : Option MessagePhase)
    (memoryCitation : Option Value) : ThreadHistoryBuilder :=
  if text = [] then s else s.pushItem uuid fun id => .agentMessage id text phase memoryCitation

def lastItem (s : ThreadHistoryBuilder) : Option ThreadItem := s.currentTurn.bind fun turn => turn.items.getLast?

/-- Change the last item of the current turn. -/
def setLastItem (s : ThreadHistoryBuilder) (item : ThreadItem) : ThreadHistoryBuilder :=
  s.modifyCurrentTurn fun turn => { turn with items := turn.items.dropLast ++ [item] }

def handleAgentReasoning (s : ThreadHistoryBuilder) (text : Str) : ThreadHistoryBuilder :=
  if text = [] then s
  else
    let s := s.ensureTurn uuid
    match s.lastItem with
    | some (.reasoning id summary content) => s.setLastItem (.reasoning id (summary ++ [text]) content)
    | _ => s.pushItem uuid fun id => .reasoning id [text] []

def handleAgentReasoningRawContent (s : ThreadHistoryBuilder) (text : Str) : ThreadHistoryBuilder :=
  if text = [] then s
  else
    let s := s.ensureTurn uuid
    match s.lastItem with
    | some (.reasoning id summary content) => s.setLastItem (.reasoning id summary (content ++ [text]))
    | _ => s.pushItem uuid fun id => .reasoning id [] [text]

def handleTool (s : ThreadHistoryBuilder) (event : ToolEvent) (turnId : Str) (item : ToolItem) :
    ThreadHistoryBuilder :=
  match routeOf event with
  | .currentTurn => s.upsertItemInCurrentTurn uuid (.tool event item)
  | .turnId => s.upsertItemInTurnId turnId (.tool event item)
  | .turnIdOrCurrent =>
      if turnId = [] then s.upsertItemInCurrentTurn uuid (.tool event item)
      else s.upsertItemInTurnId turnId (.tool event item)

def handleError (s : ThreadHistoryBuilder) (affectsTurnStatus : Bool) (message : Str) (info : Option Value) :
    ThreadHistoryBuilder :=
  if affectsTurnStatus then
    s.modifyCurrentTurn fun turn => { turn with status := .failed, error := some ⟨message, info⟩ }
  else s

def hasTurn (s : ThreadHistoryBuilder) (turnId : Str) : Bool := s.turns.any fun turn => turn.id = turnId

def handleTurnAborted (s : ThreadHistoryBuilder) (turnId : Option Str) (completedAt durationMs : Option ℤ) :
    ThreadHistoryBuilder :=
  let abort (turn : Turn) : Turn :=
    { turn with status := .interrupted, completedAt := completedAt, durationMs := durationMs }
  let abortCurrent := s.modifyCurrentTurn fun turn => { turn with toTurn := abort turn.toTurn }
  match turnId with
  | some turnId =>
      if s.currentTurn.any fun turn => turn.id = turnId then abortCurrent
      else if s.hasTurn turnId then { s with turns := modifyTurn turnId abort s.turns }
      else abortCurrent
  | none => abortCurrent

def handleTurnStarted (s : ThreadHistoryBuilder) (turnId : Str) (startedAt : Option ℤ) : ThreadHistoryBuilder :=
  let s := s.finishCurrentTurn
  { s with currentTurn := some { pendingTurn turnId s.currentRolloutIndex with
      status := .inProgress, startedAt := startedAt, openedExplicitly := true } }

def handleTurnComplete (s : ThreadHistoryBuilder) (turnId : Str) (completedAt durationMs : Option ℤ) :
    ThreadHistoryBuilder :=
  let complete (turn : Turn) : Turn :=
    { turn with
      status := if turn.status = .completed ∨ turn.status = .inProgress then .completed else turn.status
      completedAt := completedAt
      durationMs := durationMs }
  let completeCurrent :=
    (s.modifyCurrentTurn fun turn => { turn with toTurn := complete turn.toTurn }).finishCurrentTurn
  if s.currentTurn.any fun turn => turn.id = turnId then completeCurrent
  else if s.hasTurn turnId then { s with turns := modifyTurn turnId complete s.turns }
  else completeCurrent

def handleCompacted (s : ThreadHistoryBuilder) : ThreadHistoryBuilder :=
  (s.ensureTurn uuid).modifyCurrentTurn fun turn => { turn with sawCompaction := true }

def handleThreadRollback (s : ThreadHistoryBuilder) (numTurns : ℕ) : ThreadHistoryBuilder :=
  let s := s.finishCurrentTurn
  let turns := if s.turns.length ≤ numTurns then [] else s.turns.take (s.turns.length - numTurns)
  { s with turns := turns, nextItemIndex := (turns.map fun turn => turn.items.length).sum + 1 }

def handleEvent (s : ThreadHistoryBuilder) : EventMsg → ThreadHistoryBuilder
  | .userMessage payload => s.handleUserMessage uuid payload
  | .agentMessage message phase memoryCitation => s.handleAgentMessage uuid message phase memoryCitation
  | .agentReasoning text => s.handleAgentReasoning uuid text
  | .agentReasoningRawContent text => s.handleAgentReasoningRawContent uuid text
  | .tool event turnId (some item) => s.handleTool uuid event turnId item
  | .tool _ _ none => s
  | .contextCompacted => s.pushItem uuid .contextCompaction
  | .enteredReviewMode userFacingHint =>
      s.pushItem uuid fun id => .enteredReviewMode id (userFacingHint.getD "Review requested.")
  | .exitedReviewMode overallExplanation =>
      s.pushItem uuid fun id =>
        .exitedReviewMode id ((overallExplanation.map renderReviewOutputText).getD reviewFallbackMessage)
  | .error affectsTurnStatus message info => s.handleError affectsTurnStatus message info
  | .threadRolledBack numTurns => s.handleThreadRollback numTurns
  | .turnAborted turnId completedAt durationMs => s.handleTurnAborted turnId completedAt durationMs
  | .turnStarted turnId startedAt => s.handleTurnStarted turnId startedAt
  | .turnComplete turnId completedAt durationMs => s.handleTurnComplete turnId completedAt durationMs
  | .other => s

/-- A user message that is a hook prompt is shown; without an identifier it gets a UUID. -/
def handleResponseItem (s : ThreadHistoryBuilder) : ResponseItem → ThreadHistoryBuilder
  | .message id role content _ =>
      if role = user then
        match parseHookPromptMessage P content, id with
        | some fragments, some id => s.modifyItems uuid fun items => items ++ [.hookPrompt id fragments]
        | some fragments, none =>
            modifyItems uuid { s with drawn := s.drawn + 1 } fun items =>
              items ++ [.hookPrompt (uuid s.drawn).text fragments]
        | none, _ => s
      else s
  | _ => s

/-- Count an item of the rollout. -/
def advance (s : ThreadHistoryBuilder) : ThreadHistoryBuilder :=
  { s with currentRolloutIndex := s.nextRolloutIndex, nextRolloutIndex := s.nextRolloutIndex + 1 }

def handleRolloutItem (s : ThreadHistoryBuilder) : RolloutItem → ThreadHistoryBuilder
  | .eventMsg event => s.advance.handleEvent uuid event
  | .compacted _ => s.advance.handleCompacted uuid
  | .responseItem item => s.advance.handleResponseItem P uuid item
  | _ => s.advance

def finish (s : ThreadHistoryBuilder) : List Turn := s.finishCurrentTurn.turns

end ThreadHistoryBuilder

def buildTurnsFromRolloutItems (items : List RolloutItem) : List Turn :=
  (items.foldl (ThreadHistoryBuilder.handleRolloutItem P uuid) .new).finish

/-- The identifier that an item brings with it. -/
def externalId : RolloutItem → Option Str
  | .eventMsg (.tool _ _ (some item)) => some item.id
  | .responseItem (.message (some id) role content _) =>
      if role = user ∧ (parseHookPromptMessage P content).isSome then some id else none
  | _ => none

end builder

/-! ### The numbers of identifiers -/

theorem itemNumber_itemId (n : ℕ) : itemNumber (itemId n) = some n := by
  have hdigits : Nat.ofDigitChars 10 ((itemId n).drop 5) 0 = n := Nat.ofDigitChars_toDigits (by decide) (by decide)
  unfold itemNumber
  rw [hdigits, if_pos rfl]

theorem itemNumber_eq_some {id : Str} {n : ℕ} : itemNumber id = some n ↔ id = itemId n := by
  constructor
  · intro h
    unfold itemNumber at h
    split_ifs at h with hid
    rw [← some.inj h]
    exact hid
  · rintro rfl
    exact itemNumber_itemId n

theorem itemNumber_uuid (u : Uuid) : itemNumber u.text = none := by
  rw [eq_none_iff_forall_ne_some]
  intro n hn
  have hmem : 'i' ∈ u.text := by
    rw [itemNumber_eq_some.mp hn]
    exact mem_append_left _ (by decide)
  exact absurd (u.hex 'i' hmem) (by decide)

/-- The numbers of the items of a turn. -/
def numbers (items : List ThreadItem) : List (Option ℕ) := items.map fun item => itemNumber item.id

/-- The numbers of all turns, the current one last. -/
def groups (s : ThreadHistoryBuilder) : Groups :=
  s.turns.map (fun turn => numbers turn.items) ++ s.currentTurn.toList.map fun turn => numbers turn.items

def view (s : ThreadHistoryBuilder) : Groups × ℕ := (groups s, s.nextItemIndex)

/-- The items keep their numbers, or get one item without a number. -/
def Extends (f : List ThreadItem → List ThreadItem) : Prop :=
  ∀ items, numbers (f items) = numbers items ∨ numbers (f items) = numbers items ++ [none]

theorem numbers_append (items : List ThreadItem) (item : ThreadItem) :
    numbers (items ++ [item]) = numbers items ++ [itemNumber item.id] := map_append

theorem extends_push {item : ThreadItem} (h : itemNumber item.id = none) : Extends fun items => items ++ [item] := by
  intro items
  right
  rw [numbers_append, h]

theorem extends_upsertTurnItem {item : ThreadItem} (h : itemNumber item.id = none) :
    Extends (upsertTurnItem item) := by
  intro items
  induction items with
  | nil => exact .inr (congrArg (fun n => [n]) h)
  | cons existing items ih =>
    unfold upsertTurnItem
    split_ifs with hid
    · left
      unfold numbers
      rw [map_cons, map_cons, hid]
    · unfold numbers at ih ⊢
      rw [map_cons, map_cons]
      exact ih.imp (congrArg _) (congrArg _)

section evolution
variable (P : Parsers) (uuid : ℕ → Uuid)

open ThreadHistoryBuilder

variable {s : ThreadHistoryBuilder}

theorem groups_of_some {turn : PendingTurn} (h : s.currentTurn = some turn) :
    groups s = s.turns.map (fun turn => numbers turn.items) ++ [numbers turn.items] := by
  unfold groups
  rw [h]
  rfl

theorem groups_of_none (h : s.currentTurn = none) :
    groups s = s.turns.map fun turn => numbers turn.items := by
  unfold groups
  rw [h]
  exact append_nil _

section

variable (s : ThreadHistoryBuilder)

theorem currentTurn_finishCurrentTurn : s.finishCurrentTurn.currentTurn = none := by
  unfold finishCurrentTurn
  split
  · split_ifs <;> rfl
  · assumption

theorem evolves_finishCurrentTurn : Evolves (view s) (view s.finishCurrentTurn) := by
  fun_cases finishCurrentTurn s with
  | case1 turn hturn hempty =>
    unfold view
    rw [groups_of_some hturn, groups_of_none rfl, hempty.1]
    exact .single (.dropped _ _)
  | case2 turn hturn =>
    unfold view
    rw [groups_of_some hturn, groups_of_none rfl, map_append]
    exact .refl
  | case3 => exact .refl

theorem evolves_ensureTurn :
    Evolves (view s) (view (s.ensureTurn uuid)) ∧ ∃ turn, (s.ensureTurn uuid).currentTurn = some turn := by
  unfold ensureTurn
  cases hturn : s.currentTurn with
  | some turn => exact ⟨.refl, turn, hturn⟩
  | none =>
    have hopened : ∀ (id : Str) (drawn : ℕ), Evolves (view s)
        (view { s with currentTurn := some (pendingTurn id s.currentRolloutIndex), drawn := drawn }) := by
      intro id drawn
      unfold view
      rw [groups_of_none hturn, groups_of_some rfl]
      exact .single (.opened _ _)
    unfold openTurn
    split_ifs
    · exact ⟨hopened _ _, _, rfl⟩
    · exact ⟨hopened _ s.drawn, _, rfl⟩

theorem evolves_modifyCurrentTurn {f : PendingTurn → PendingTurn}
    (h : ∀ turn, s.currentTurn = some turn →
      numbers (f turn).items = numbers turn.items ∨ numbers (f turn).items = numbers turn.items ++ [none]) :
    Evolves (view s) (view (s.modifyCurrentTurn f)) := by
  cases hturn : s.currentTurn with
  | none =>
    unfold view modifyCurrentTurn
    rw [groups_of_none hturn, groups_of_none (by rw [hturn]; rfl)]
  | some turn =>
    have hmodified : (s.modifyCurrentTurn f).currentTurn = some (f turn) := by
      unfold modifyCurrentTurn
      rw [hturn]
      rfl
    unfold view
    rw [groups_of_some hturn, groups_of_some hmodified]
    obtain hsame | hmore := h turn hturn
    · rw [hsame]
      exact .refl
    · rw [hmore]
      exact .single (.unnumbered _ [] _ _)

theorem evolves_modifyItems {f : List ThreadItem → List ThreadItem} (h : Extends f) :
    Evolves (view s) (view (s.modifyItems uuid f)) :=
  (evolves_ensureTurn uuid s).1.trans (evolves_modifyCurrentTurn _ fun turn _ => h turn.items)

theorem ensureTurn_setNext (n : ℕ) :
    ensureTurn uuid { s with nextItemIndex := n } = { s.ensureTurn uuid with nextItemIndex := n } := by
  obtain ⟨turns, current, next, rolloutIndex, nextRolloutIndex, drawn⟩ := s
  cases current with
  | some turn => rfl
  | none =>
    show openTurn uuid _ = { openTurn uuid _ with nextItemIndex := n }
    unfold openTurn
    split_ifs <;> rfl

theorem nextItemIndex_ensureTurn :
    (s.ensureTurn uuid).nextItemIndex = s.nextItemIndex := by
  unfold ensureTurn openTurn
  split
  · rfl
  · split_ifs <;> rfl

theorem evolves_pushItem {item : Str → ThreadItem} (h : ∀ id, (item id).id = id) :
    Evolves (view s) (view (s.pushItem uuid item)) := by
  obtain ⟨hensure, turn, hturn⟩ := evolves_ensureTurn uuid s
  refine hensure.trans ?_
  have hnext := nextItemIndex_ensureTurn uuid s
  unfold pushItem modifyItems
  rw [ensureTurn_setNext uuid s (s.nextItemIndex + 1)]
  generalize s.ensureTurn uuid = e at hturn hnext ⊢
  have hpushed : (modifyCurrentTurn { e with nextItemIndex := s.nextItemIndex + 1 } fun turn =>
      { turn with items := turn.items ++ [item (itemId s.nextItemIndex)] }).currentTurn =
      some { turn with items := turn.items ++ [item (itemId s.nextItemIndex)] } := by
    simp only [modifyCurrentTurn, hturn, map_some]
  unfold view
  rw [groups_of_some hturn, groups_of_some hpushed, numbers_append, h, itemNumber_itemId, hnext]
  exact .single (.numbered _ _ _)

end

theorem modifyTurn_cases (id : Str) (f : Turn → Turn) : ∀ turns : List Turn, modifyTurn id f turns = turns ∨
    ∃ before turn after, turns = before ++ turn :: after ∧ modifyTurn id f turns = before ++ f turn :: after
  | [] => .inl rfl
  | turn :: turns => by
    unfold modifyTurn
    split_ifs
    · exact .inr ⟨[], turn, turns, rfl, rfl⟩
    · obtain hsame | ⟨before, changed, after, rfl, heq⟩ := modifyTurn_cases id f turns
      · rw [hsame]
        exact .inl rfl
      · rw [heq]
        exact .inr ⟨turn :: before, changed, after, rfl, rfl⟩

section

variable (s : ThreadHistoryBuilder)

theorem evolves_modifyTurn (id : Str) {f : Turn → Turn}
    (h : ∀ turn, numbers (f turn).items = numbers turn.items ∨ numbers (f turn).items = numbers turn.items ++ [none]) :
    Evolves (view s) (view { s with turns := modifyTurn id f s.turns }) := by
  unfold view groups
  obtain hsame | ⟨before, turn, after, hturns, heq⟩ := modifyTurn_cases id f s.turns
  · rw [hsame]
  · rw [heq, hturns, map_append, map_append, map_cons, map_cons]
    obtain hsame | hmore := h turn
    · rw [hsame]
    · rw [hmore, append_assoc, append_assoc]
      exact .single (.unnumbered _ _ _ _)

theorem evolves_upsertItemInTurnId (turnId : Str) (item : ThreadItem)
    (h : itemNumber item.id = none) : Evolves (view s) (view (s.upsertItemInTurnId turnId item)) := by
  unfold upsertItemInTurnId
  split_ifs
  · exact evolves_modifyCurrentTurn s fun turn _ => extends_upsertTurnItem h turn.items
  · exact evolves_modifyTurn s turnId fun turn => extends_upsertTurnItem h turn.items

theorem evolves_handleTool (event : ToolEvent) (turnId : Str) {item : ToolItem}
    (h : itemNumber item.id = none) : Evolves (view s) (view (s.handleTool uuid event turnId item)) := by
  have hcurrent : Evolves (view s) (view (s.upsertItemInCurrentTurn uuid (.tool event item))) :=
    evolves_modifyItems uuid s (extends_upsertTurnItem h)
  have hid := evolves_upsertItemInTurnId s turnId (.tool event item) h
  fun_cases handleTool uuid s event turnId item with
  | case1 | case3 => exact hcurrent
  | case2 | case4 => exact hid

theorem evolves_handleUserMessage (payload : UserMessageEvent) :
    Evolves (view s) (view (s.handleUserMessage uuid payload)) := by
  unfold handleUserMessage
  split_ifs
  · exact (evolves_finishCurrentTurn s).trans (evolves_pushItem uuid _ fun _ => rfl)
  · exact evolves_pushItem uuid s fun _ => rfl

end

theorem evolves_setLastItem {last item : ThreadItem} (hlast : s.lastItem = some last)
    (hid : item.id = last.id) : Evolves (view s) (view (s.setLastItem item)) := by
  refine evolves_modifyCurrentTurn s fun turn hturn => .inl ?_
  unfold lastItem at hlast
  rw [hturn] at hlast
  have hitems : turn.items = turn.items.dropLast ++ [last] := (dropLast_append_getLast? last hlast).symm
  rw [numbers_append, hid, ← numbers_append, ← hitems]

section

variable (s : ThreadHistoryBuilder)

/-- Reasoning goes into the last item if that is reasoning, and into a new one otherwise. -/
theorem evolves_reasoning (text : Str) {grow : Str → List Str → List Str → ThreadItem}
    {push : Str → ThreadItem} (hgrow : ∀ id summary content, (grow id summary content).id = id)
    (hpush : ∀ id, (push id).id = id) :
    Evolves (view s) (view (if text = [] then s else
      match (s.ensureTurn uuid).lastItem with
      | some (.reasoning id summary content) => (s.ensureTurn uuid).setLastItem (grow id summary content)
      | _ => (s.ensureTurn uuid).pushItem uuid push)) := by
  have hensure := (evolves_ensureTurn uuid s).1
  split_ifs
  · exact .refl
  · split
    · rename_i id summary content hlast
      exact hensure.trans (evolves_setLastItem hlast (hgrow id summary content))
    · exact hensure.trans (evolves_pushItem uuid _ hpush)

theorem evolves_handleTurnAborted (turnId : Option Str) (completedAt durationMs : Option ℤ) :
    Evolves (view s) (view (s.handleTurnAborted turnId completedAt durationMs)) := by
  fun_cases handleTurnAborted s turnId completedAt durationMs with
  | case1 | case3 | case4 => exact evolves_modifyCurrentTurn s fun _ _ => .inl rfl
  | case2 => exact evolves_modifyTurn s _ fun _ => .inl rfl

theorem evolves_handleTurnComplete (turnId : Str) (completedAt durationMs : Option ℤ) :
    Evolves (view s) (view (s.handleTurnComplete turnId completedAt durationMs)) := by
  fun_cases handleTurnComplete s turnId completedAt durationMs with
  | case1 | case3 =>
    refine Relation.ReflTransGen.trans ?_ (evolves_finishCurrentTurn _)
    exact evolves_modifyCurrentTurn s fun _ _ => .inl rfl
  | case2 => exact evolves_modifyTurn s turnId fun _ => .inl rfl

theorem evolves_handleTurnStarted (turnId : Str) (startedAt : Option ℤ) :
    Evolves (view s) (view (s.handleTurnStarted turnId startedAt)) := by
  refine (evolves_finishCurrentTurn s).trans ?_
  unfold handleTurnStarted view
  rw [groups_of_none (currentTurn_finishCurrentTurn s), groups_of_some rfl]
  exact .single (.opened _ _)

theorem turns_handleThreadRollback (numTurns : ℕ) :
    (s.handleThreadRollback numTurns).turns =
      s.finishCurrentTurn.turns.take (s.finishCurrentTurn.turns.length - numTurns) := by
  show (if s.finishCurrentTurn.turns.length ≤ numTurns then [] else _) = _
  split_ifs with hall
  · rw [Nat.sub_eq_zero_of_le hall, take_zero]
  · rfl

theorem currentTurn_handleThreadRollback (numTurns : ℕ) :
    (s.handleThreadRollback numTurns).currentTurn = none :=
  currentTurn_finishCurrentTurn s

end

theorem sum_length_items (turns : List Turn) : (turns.map fun turn => turn.items.length).sum =
    (turns.map fun turn => numbers turn.items).flatten.length := by
  rw [List.length_flatten, List.map_map]
  congr 1
  exact List.map_congr_left fun turn _ => (List.length_map _).symm

section

variable (s : ThreadHistoryBuilder)

theorem evolves_handleThreadRollback (numTurns : ℕ) :
    Evolves (view s) (view (s.handleThreadRollback numTurns)) := by
  refine (evolves_finishCurrentTurn s).trans ?_
  have hnext : (s.handleThreadRollback numTurns).nextItemIndex = _ + 1 :=
    congrArg (· + 1) (sum_length_items (s.handleThreadRollback numTurns).turns)
  unfold view
  rw [groups_of_none (currentTurn_finishCurrentTurn s), groups_of_none (currentTurn_handleThreadRollback s numTurns),
    hnext, turns_handleThreadRollback, map_take]
  exact .single (.cut _ _ _)

theorem evolves_handleEvent (event : EventMsg)
    (h : ∀ id, externalId P (.eventMsg event) = some id → itemNumber id = none) :
    Evolves (view s) (view (s.handleEvent uuid event)) := by
  cases event with
  | userMessage payload => exact evolves_handleUserMessage uuid s payload
  | agentMessage message phase memoryCitation =>
    rw [handleEvent, handleAgentMessage]
    split_ifs
    · exact .refl
    · exact evolves_pushItem uuid s fun _ => rfl
  | agentReasoning text | agentReasoningRawContent text =>
    exact evolves_reasoning uuid s text (fun _ _ _ => rfl) fun _ => rfl
  | tool event turnId item =>
    cases item with
    | none => exact .refl
    | some item => exact evolves_handleTool uuid s event turnId (h item.id rfl)
  | contextCompacted | enteredReviewMode | exitedReviewMode => exact evolves_pushItem uuid s fun _ => rfl
  | error affectsTurnStatus message info =>
    rw [handleEvent, handleError]
    split_ifs
    · exact evolves_modifyCurrentTurn s fun _ _ => .inl rfl
    · exact .refl
  | threadRolledBack numTurns => exact evolves_handleThreadRollback s numTurns
  | turnAborted turnId completedAt durationMs => exact evolves_handleTurnAborted s turnId completedAt durationMs
  | turnStarted turnId startedAt => exact evolves_handleTurnStarted s turnId startedAt
  | turnComplete turnId completedAt durationMs => exact evolves_handleTurnComplete s turnId completedAt durationMs
  | other => exact .refl

theorem handleResponseItem_cases (item : ResponseItem) : s.handleResponseItem P uuid item = s ∨
    ∃ drawn id fragments, (externalId P (.responseItem item) = some id ∨ itemNumber id = none) ∧
      s.handleResponseItem P uuid item =
        modifyItems uuid { s with drawn := drawn } fun items => items ++ [.hookPrompt id fragments] := by
  cases item with
  | message id role content phase =>
    by_cases hrole : role = user
    · cases hprompt : parseHookPromptMessage P content with
      | none => exact .inl (by simp only [handleResponseItem, hrole, hprompt, if_true])
      | some fragments =>
        right
        cases id with
        | some id =>
          exact ⟨s.drawn, id, fragments, .inl (by simp [externalId, hrole, hprompt]),
            by simp only [handleResponseItem, hrole, hprompt, if_true]⟩
        | none =>
          exact ⟨s.drawn + 1, _, fragments, .inr (itemNumber_uuid (uuid s.drawn)),
            by simp only [handleResponseItem, hrole, hprompt, if_true]⟩
    · exact .inl (by simp only [handleResponseItem, hrole, if_false])
  | _ => exact .inl rfl

theorem evolves_handleResponseItem (item : ResponseItem)
    (h : ∀ id, externalId P (.responseItem item) = some id → itemNumber id = none) :
    Evolves (view s) (view (s.handleResponseItem P uuid item)) := by
  obtain hsame | ⟨drawn, id, fragments, hid, hpush⟩ := handleResponseItem_cases P uuid s item
  · rw [hsame]
  · rw [hpush]
    exact evolves_modifyItems uuid { s with drawn := drawn } (extends_push (hid.elim (h id) fun hid => hid))

theorem evolves_handleRolloutItem (item : RolloutItem)
    (h : ∀ id, externalId P item = some id → itemNumber id = none) :
    Evolves (view s) (view (s.handleRolloutItem P uuid item)) := by
  cases item with
  | eventMsg event => exact evolves_handleEvent P uuid s.advance event h
  | compacted compacted =>
    refine (evolves_ensureTurn uuid s.advance).1.trans ?_
    exact evolves_modifyCurrentTurn _ fun _ _ => .inl rfl
  | responseItem item => exact evolves_handleResponseItem P uuid s.advance item h
  | sessionMeta | turnContext => exact .refl

end

theorem evolves_foldl : ∀ (items : List RolloutItem) (s : ThreadHistoryBuilder),
    (∀ item ∈ items, ∀ id, externalId P item = some id → itemNumber id = none) →
    Evolves (view s) (view (items.foldl (handleRolloutItem P uuid) s))
  | [], _, _ => .refl
  | item :: items, s, h =>
    (evolves_handleRolloutItem P uuid s item (h item mem_cons_self)).trans
      (evolves_foldl items _ fun item hmem => h item (mem_cons_of_mem _ hmem))

theorem nodup_filter_of_filterMap {α β : Type} {f : α → Option β} {l : List α} (h : (l.filterMap f).Nodup) :
    (l.filter fun a => (f a).isSome).Nodup := by
  have hsome := h.map (Option.some_injective β)
  rw [map_filterMap_some_eq_filter_map_isSome, List.filter_map] at hsome
  exact hsome.of_map f

theorem reduceOption_numbers (turns : List Turn) :
    (turns.map fun turn => numbers turn.items).flatten.reduceOption =
      ((turns.flatMap Turn.items).map ThreadItem.id).filterMap itemNumber := by
  unfold numbers List.reduceOption
  rw [← flatMap_def, ← map_flatMap, filterMap_map, filterMap_map]
  rfl

/-- **The identifiers of the counter are distinct** in the turns of every rollout, if no other item comes
with such an identifier. -/
theorem nodup_itemIds (items : List RolloutItem)
    (h : ∀ item ∈ items, ∀ id, externalId P item = some id → ∀ n, id ≠ itemId n) :
    ((((buildTurnsFromRolloutItems P uuid items).flatMap Turn.items).map ThreadItem.id).filter fun id =>
      (itemNumber id).isSome).Nodup := by
  have hexternal : ∀ item ∈ items, ∀ id, externalId P item = some id → itemNumber id = none := by
    intro item hmem id hid
    rw [eq_none_iff_forall_ne_some]
    exact fun n hn => h item hmem id hid n (itemNumber_eq_some.mp hn)
  have hrun := (evolves_foldl P uuid items .new hexternal).trans (evolves_finishCurrentTurn _)
  have hnumbered := (Numbered.of_evolves hrun numbered_nil).nodup
  apply nodup_filter_of_filterMap
  unfold buildTurnsFromRolloutItems finish
  generalize items.foldl (handleRolloutItem P uuid) .new = s at hnumbered ⊢
  unfold view at hnumbered
  rw [groups_of_none (currentTurn_finishCurrentTurn s)] at hnumbered
  rw [← reduceOption_numbers]
  exact hnumbered

end evolution

def zeroUuid : Uuid where
  text := "00000000-0000-0000-0000-000000000000"
  hex := by
    have h : ("00000000-0000-0000-0000-000000000000".toList.all fun c =>
        decide (c = '-' ∨ c ∈ "0123456789abcdef".toList)) := by decide +kernel
    exact fun c hc => of_decide_eq_true (List.all_eq_true.mp h c hc)

def plainMessage (text : Str) : UserMessageEvent := ⟨text, none, [], []⟩

/-- Two turns, of which the second is rolled back, and a late event for the first. -/
def rolledBackRollout : List RolloutItem :=
  [.eventMsg (.turnStarted "1" none), .eventMsg (.userMessage (plainMessage "a")),
    .eventMsg (.turnComplete "1" none none), .eventMsg (.turnStarted "2" none),
    .eventMsg (.userMessage (plainMessage "b")), .eventMsg (.threadRolledBack 1),
    .eventMsg (.tool .execCommandEnd "1" (some ⟨"call-1", Value.null⟩)),
    .eventMsg (.userMessage (plainMessage "c"))]

theorem nodup_itemIds_rolledBackRollout :
    ((((buildTurnsFromRolloutItems ContextManager.noParsers (fun _ => zeroUuid) rolledBackRollout).flatMap
      Turn.items).map ThreadItem.id).filter fun id => (itemNumber id).isSome).Nodup := by
  refine nodup_itemIds ContextManager.noParsers _ rolledBackRollout fun item hitem id hid n hn => ?_
  have hids : ∀ item ∈ rolledBackRollout, ∀ id ∈ externalId ContextManager.noParsers item, itemNumber id = none := by
    decide +kernel
  exact absurd ((hids item hitem id hid).symm.trans (itemNumber_eq_some.mpr hn)) (by simp)

/-! ### The active turn -/

namespace ThreadHistoryBuilder

def activeTurnSnapshot (s : ThreadHistoryBuilder) : Option Turn :=
  (s.currentTurn.map PendingTurn.toTurn).or s.turns.getLast?

/-- The index of the snapshot in the turns of `finish`. -/
def activeTurnPosition (s : ThreadHistoryBuilder) : Option ℕ :=
  if s.currentTurn.isSome then some s.turns.length else if s.turns = [] then none else some (s.turns.length - 1)

/-- The current turn is not dropped when it is finished. -/
def Lasting (s : ThreadHistoryBuilder) : Prop :=
  ∀ turn ∈ s.currentTurn, turn.items ≠ [] ∨ turn.openedExplicitly ∨ turn.sawCompaction

section

variable (P : Parsers) (uuid : ℕ → Uuid)

/-- A call of one of the two handlers. -/
def handle (s : ThreadHistoryBuilder) : RolloutItem ⊕ EventMsg → ThreadHistoryBuilder
  | .inl item => s.handleRolloutItem P uuid item
  | .inr event => s.handleEvent uuid event

variable {s : ThreadHistoryBuilder}

theorem lasting_finishCurrentTurn : s.finishCurrentTurn.Lasting := by
  rw [Lasting, currentTurn_finishCurrentTurn]
  exact nofun

theorem lasting_modifyCurrentTurn {f : PendingTurn → PendingTurn} (h : ∀ turn ∈ s.currentTurn,
    (f turn).items ≠ [] ∨ (f turn).openedExplicitly ∨ (f turn).sawCompaction) :
    (s.modifyCurrentTurn f).Lasting := by
  intro turn hturn
  obtain ⟨before, hbefore, rfl⟩ := map_eq_some_iff.mp hturn
  exact h before hbefore

theorem lasting_pushItem {item : Str → ThreadItem} : (s.pushItem uuid item).Lasting :=
  lasting_modifyCurrentTurn fun _ _ => .inl (by simp)

theorem upsertTurnItem_ne_nil (item : ThreadItem) (items : List ThreadItem) : upsertTurnItem item items ≠ [] := by
  fun_cases upsertTurnItem item items <;> simp

theorem Lasting.handleTool (h : s.Lasting) (event : ToolEvent) (turnId : Str) (item : ToolItem) :
    (s.handleTool uuid event turnId item).Lasting := by
  have hcurrent : (s.upsertItemInCurrentTurn uuid (.tool event item)).Lasting :=
    lasting_modifyCurrentTurn fun _ _ => .inl (upsertTurnItem_ne_nil _ _)
  have hid : (s.upsertItemInTurnId turnId (.tool event item)).Lasting := by
    unfold upsertItemInTurnId
    split_ifs
    · exact lasting_modifyCurrentTurn fun _ _ => .inl (upsertTurnItem_ne_nil _ _)
    · exact h
  fun_cases ThreadHistoryBuilder.handleTool uuid s event turnId item with
  | case1 | case3 => exact hcurrent
  | case2 | case4 => exact hid

theorem Lasting.handleEvent (h : s.Lasting) (event : EventMsg) : (s.handleEvent uuid event).Lasting := by
  fun_cases ThreadHistoryBuilder.handleEvent uuid s event with
  | case1 | case7 | case8 | case9 => exact lasting_pushItem uuid
  | case2 text phase citation =>
    fun_cases handleAgentMessage uuid s text phase citation with
    | case1 => exact h
    | case2 => exact lasting_pushItem uuid
  | case3 text =>
    fun_cases handleAgentReasoning uuid s text with
    | case1 => exact h
    | case2 => exact lasting_modifyCurrentTurn fun _ _ => .inl (by simp)
    | case3 => exact lasting_pushItem uuid
  | case4 text =>
    fun_cases handleAgentReasoningRawContent uuid s text with
    | case1 => exact h
    | case2 => exact lasting_modifyCurrentTurn fun _ _ => .inl (by simp)
    | case3 => exact lasting_pushItem uuid
  | case5 event turnId item => exact h.handleTool uuid event turnId item
  | case6 | case15 => exact h
  | case10 affects message info =>
    fun_cases handleError s affects message info with
    | case1 => exact lasting_modifyCurrentTurn h
    | case2 => exact h
  | case11 => exact lasting_finishCurrentTurn
  | case12 turnId completedAt durationMs =>
    fun_cases handleTurnAborted s turnId completedAt durationMs with
    | case2 => exact h
    | _ => exact lasting_modifyCurrentTurn h
  | case13 =>
    rintro turn ⟨⟩
    exact .inr (.inl rfl)
  | case14 turnId completedAt durationMs =>
    fun_cases handleTurnComplete s turnId completedAt durationMs with
    | case2 => exact h
    | _ => exact lasting_finishCurrentTurn

theorem Lasting.handle (h : s.Lasting) (call : RolloutItem ⊕ EventMsg) : (s.handle P uuid call).Lasting := by
  fun_cases ThreadHistoryBuilder.handle P uuid s call with
  | case1 item =>
    fun_cases handleRolloutItem P uuid s item with
    | case1 event => exact Lasting.handleEvent uuid (s := s.advance) h event
    | case2 => exact lasting_modifyCurrentTurn fun _ _ => .inr (.inr rfl)
    | case3 item =>
      obtain hsame | ⟨drawn, id, fragments, -, hpush⟩ := handleResponseItem_cases P uuid s.advance item
      · rw [hsame]
        exact h
      · rw [hpush]
        exact lasting_modifyCurrentTurn fun _ _ => .inl (by simp)
    | case4 => exact h
  | case2 event => exact h.handleEvent uuid event

/-- **The active turn is not dropped**: after any calls, the finished turns have its snapshot at its position. -/
theorem finish_activeTurnPosition (calls : List (RolloutItem ⊕ EventMsg)) :
    let s := calls.foldl (handle P uuid) new
    (s.activeTurnPosition = none ↔ s.activeTurnSnapshot = none) ∧
      ∀ i, s.activeTurnPosition = some i → s.finish[i]? = s.activeTurnSnapshot := by
  intro s
  have hs : s.Lasting := List.foldlRecOn calls _ (by rintro turn ⟨⟩) fun s hs call _ => hs.handle P uuid call
  have hfinish : s.finish = s.turns ++ (s.currentTurn.map PendingTurn.toTurn).toList := by
    unfold finish
    fun_cases finishCurrentTurn s with
    | case1 turn hturn hempty => simpa [hempty] using hs turn hturn
    | case2 _ hturn | case3 hturn => simp [hturn]
  rw [hfinish]
  unfold activeTurnPosition activeTurnSnapshot
  cases s.currentTurn with
  | some turn => simp
  | none => simp [getLast?_eq_getElem?]

end

end ThreadHistoryBuilder

end OpenAgere.ThreadHistory
