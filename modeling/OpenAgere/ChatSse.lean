import OpenAgere.Emitter
import OpenAgere.HashMap
import OpenAgere.Models

/-! # Events of a Chat Completions stream

`openai-chat-client/src/translate/response.rs`: the chunks of the stream are translated into
response events, with a state that accumulates text, reasoning and tool calls.  The order in
which the hash map of tool calls iterates is a parameter (`IterOrder`).  Token counts are added
without the bounds of `i64`.

A chunk is a sequence of smaller steps, one for each delta that is not empty (`Signal`), and
handling it is handling these one after the other (`handleChatSseEvent_eq`,
`run_handleChatSseEvent`).  The results of the other modules are about runs of signals.  The flags
of the state, without its texts, follow from the signals alone (`Phase`, `phase_run`). -/

namespace OpenAgere.ChatSse

open Emitter

open Models (ContentItem ReasoningItemContent TokenUsage)

/-! ### Chunks -/

structure ChatUsageDetails where
  cachedTokens : Option ℤ
deriving DecidableEq, Repr

structure ChatUsage where
  promptTokens : Option ℤ
  completionTokens : Option ℤ
  totalTokens : Option ℤ
  promptTokensDetails : Option ChatUsageDetails
deriving DecidableEq, Repr

structure ChatDeltaFunctionCall where
  name : Option Str
  arguments : Option Str
deriving DecidableEq, Repr

structure ChatDeltaToolCall where
  index : ℕ
  id : Option Str
  function : Option ChatDeltaFunctionCall
deriving DecidableEq, Repr

structure ChatDelta where
  role : Option Str
  content : Option Str
  reasoning : Option Str
  toolCalls : Option (List ChatDeltaToolCall)
deriving DecidableEq, Repr

structure ChatChoice where
  delta : ChatDelta
  finishReason : Option Str
deriving DecidableEq, Repr

inductive ChatSseEvent where
  | done
  | chunk (id model : Str) (choices : List ChatChoice) (usage : Option ChatUsage)
deriving DecidableEq, Repr

/-! ### Response events -/

inductive ResponseItem where
  | message (id : Option Str) (role : Str) (content : List ContentItem)
  | reasoning (id : Str) (content : Option (List ReasoningItemContent))
  | functionCall (id : Option Str) (callId name arguments : Str)
deriving DecidableEq, Repr

inductive ResponseEvent where
  | outputItemAdded (item : ResponseItem)
  | outputItemDone (item : ResponseItem)
  | outputTextDelta (text : Str)
  | toolCallInputDelta (itemId : Str) (callId : Option Str) (delta : Str)
  | reasoningContentDelta (delta : Str) (contentIndex : ℤ)
  | completed (responseId : Str) (tokenUsage : Option TokenUsage) (endTurn : Option Bool)
deriving DecidableEq, Repr

inductive ApiError where
  | stream (message : Str)
deriving DecidableEq, Repr

/-- What is sent on: an event or an error. -/
abbrev Sent : Type := Except ApiError ResponseEvent

/-! ### The state -/

structure ToolCallAccumulator where
  id : Str
  name : Str
  arguments : Str
deriving DecidableEq, Repr

structure PendingCompletion where
  endTurn : Option Bool
deriving DecidableEq, Repr

structure ChatSseState where
  responseId : Option Str
  serverModel : Option Str
  toolCalls : HashMap ℕ ToolCallAccumulator
  pendingCompletion : Option PendingCompletion
  assistantMessageEmitted : Bool
  assistantTextBuffer : Str
  assistantReasoningBuffer : Str
  assistantReasoningEmitted : Bool
  completed : Bool

def ChatSseState.new : ChatSseState := ⟨none, none, .empty, none, false, [], [], false, false⟩

/-- A transition of the state that sends response events. -/
abbrev Handler : Type := Emitter ChatSseState Sent

/-! ### The handler -/

def mapFinishReasonToEndTurn (finishReason : Str) : Option Bool :=
  if finishReason = "stop" then some true
  else if finishReason = "tool_calls" ∨ finishReason = "length" then some false
  else none

def mapUsage (usage : ChatUsage) : TokenUsage where
  inputTokens := usage.promptTokens.getD 0
  cachedInputTokens := (usage.promptTokensDetails.bind (·.cachedTokens)).getD 0
  outputTokens := usage.completionTokens.getD 0
  reasoningOutputTokens := 0
  totalTokens := usage.totalTokens.getD (usage.promptTokens.getD 0 + usage.completionTokens.getD 0)

def emitCompletedEvent (tokenUsage : Option TokenUsage) (endTurn : Option Bool) : Handler := fun state =>
  ({ state with completed := true }, [.ok (.completed (state.responseId.getD []) tokenUsage endTurn)])

def emitPendingCompletion (tokenUsage : Option TokenUsage) : Handler := fun state =>
  match state.pendingCompletion with
  | some pending => emitCompletedEvent tokenUsage pending.endTurn { state with pendingCompletion := none }
  | none => (state, [])

def ensureMessageItem : Handler := fun state =>
  if state.assistantMessageEmitted then (state, [])
  else ({ state with assistantMessageEmitted := true },
    [.ok (.outputItemAdded (.message none "assistant" []))])

def ensureReasoningItem : Handler := fun state =>
  if state.assistantReasoningEmitted then (state, [])
  else ({ state with assistantReasoningEmitted := true },
    [.ok (.outputItemAdded (.reasoning "rs_chat_0" (some [])))])

def finishReasoningItem : Handler := fun state =>
  if state.assistantReasoningEmitted then
    ({ state with assistantReasoningBuffer := [], assistantReasoningEmitted := false },
      [.ok (.outputItemDone (.reasoning "rs_chat_0"
        (if state.assistantReasoningBuffer = [] then none
          else some [.reasoningText state.assistantReasoningBuffer])))])
  else (state, [])

/-- The id and the name of a new tool call, both not empty. -/
def ChatDeltaToolCall.header (tc : ChatDeltaToolCall) : Option (Str × Str) :=
  match tc.id, tc.function.bind (·.name) with
  | some id, some name => if id ≠ [] ∧ name ≠ [] then some (id, name) else none
  | _, _ => none

/-- The piece of the arguments in a delta. -/
def ChatDeltaToolCall.fragment (tc : ChatDeltaToolCall) : Option Str := tc.function.bind (·.arguments)

/-- A new tool call. -/
def addToolCall (idx : ℕ) (id name : Str) : Handler := fun state =>
  ({ state with toolCalls := state.toolCalls.insert idx ⟨id, name, []⟩ },
    [.ok (.outputItemAdded (.functionCall (some id) id name []))])

/-- A piece of the arguments of a known tool call. -/
def argumentDelta (idx : ℕ) (args : Option Str) : Handler := fun state =>
  match args, state.toolCalls.get idx with
  | some args, some acc =>
      ({ state with toolCalls :=
          state.toolCalls.modify idx fun acc => { acc with arguments := acc.arguments ++ args } },
        [.ok (.toolCallInputDelta acc.id (some acc.id) args)])
  | _, _ => (state, [])

def processToolCallDelta (tc : ChatDeltaToolCall) : Handler := fun state =>
  match tc.header with
  | some (id, name) =>
      if state.toolCalls.containsKey tc.index then (state, [])
      else seq (addToolCall tc.index id name) (argumentDelta tc.index tc.fragment) state
  | none => argumentDelta tc.index tc.fragment state

/-- The role of a delta.  It resets what is empty already. -/
def roleDelta (role : Option Str) : Handler := fun state =>
  if role = some "assistant".toList ∧ state.assistantMessageEmitted = false ∧
      state.assistantReasoningEmitted = false ∧ state.assistantTextBuffer = [] ∧
      state.assistantReasoningBuffer = [] then
    ({ state with
        assistantTextBuffer := []
        assistantReasoningBuffer := []
        assistantMessageEmitted := false
        assistantReasoningEmitted := false }, [])
  else (state, [])

def reasoningDelta (reasoning : Str) : Handler :=
  seq ensureReasoningItem fun state =>
    ({ state with assistantReasoningBuffer := state.assistantReasoningBuffer ++ reasoning },
      [.ok (.reasoningContentDelta reasoning 0)])

def textDelta (text : Str) : Handler :=
  seq finishReasoningItem (seq ensureMessageItem fun state =>
    ({ state with assistantTextBuffer := state.assistantTextBuffer ++ text }, [.ok (.outputTextDelta text)]))

section order
variable (ord : IterOrder ℕ)

def ToolCallAccumulator.item (acc : ToolCallAccumulator) : ResponseItem :=
  .functionCall none acc.id acc.name acc.arguments

/-- The tool calls accumulated, in the order of the hash map. -/
def completeToolCalls : Handler := fun state =>
  ({ state with toolCalls := (HashMap.drain (state.toolCalls.keys ord) state.toolCalls).1 },
    (HashMap.drain (state.toolCalls.keys ord) state.toolCalls).2.map fun acc => .ok (.outputItemDone acc.item))

/-- The message of the turn, with the text accumulated. -/
def completeMessage : Handler := fun state =>
  ({ state with
      assistantTextBuffer := []
      assistantMessageEmitted := false
      assistantReasoningEmitted := false
      toolCalls := state.toolCalls.clear },
    [.ok (.outputItemDone (.message none "assistant"
      (if state.assistantTextBuffer = [] then [] else [.outputText state.assistantTextBuffer])))])

/-- The completion, now with the usage or later. -/
def completeTurn (endTurn : Option Bool) (usage : Option ChatUsage) : Handler :=
  match usage with
  | some usage => emitCompletedEvent (some (mapUsage usage)) endTurn
  | none => fun state => ({ state with pendingCompletion := some ⟨endTurn⟩ }, [])

def finishTurn (finishReason : Str) (usage : Option ChatUsage) : Handler :=
  seq finishReasoningItem (seq (completeToolCalls ord)
    (seq completeMessage (completeTurn (mapFinishReasonToEndTurn finishReason) usage)))

/-- A handler for a text that is there and not empty. -/
def whenText (text : Option Str) (f : Str → Handler) : Handler :=
  match text with
  | some text => if text = [] then nop else f text
  | none => nop

def toolCallDeltas (toolCalls : Option (List ChatDeltaToolCall)) : Handler :=
  match toolCalls with
  | some tcs => seq (if tcs = [] then nop else finishReasoningItem) (run processToolCallDelta tcs)
  | none => nop

def handleChoice (usage : Option ChatUsage) (choice : ChatChoice) : Handler :=
  seq (roleDelta choice.delta.role) (seq (whenText choice.delta.reasoning reasoningDelta)
    (seq (whenText choice.delta.content textDelta) (seq (toolCallDeltas choice.delta.toolCalls)
      (whenText choice.finishReason fun reason => finishTurn ord reason usage))))

/-- The id of the response and the model, from the first chunk that has them. -/
def storeIds (id model : Str) : Handler := fun state =>
  ({ state with
      responseId := if state.responseId = none ∧ id ≠ [] then some id else state.responseId
      serverModel := if state.serverModel = none ∧ model ≠ [] then some model else state.serverModel }, [])

/-- A chunk that only reports the usage. -/
def usageChunk (choices : List ChatChoice) (usage : Option ChatUsage) : Handler :=
  match choices, usage with
  | [], some usage => emitPendingCompletion (some (mapUsage usage))
  | _, _ => nop

def handleChatSseEvent (event : ChatSseEvent) : Handler :=
  match event with
  | .done => emitPendingCompletion none
  | .chunk id model choices usage =>
      seq (storeIds id model) (seq (usageChunk choices usage) (run (handleChoice ord usage) choices))

end order

/-! ### Signals -/

/-- One step of the handler. -/
inductive Signal where
  | ids (id model : Str)
  | flush (tokenUsage : Option TokenUsage)
  | reasoning (text : Str)
  | text (text : Str)
  | toolCalls
  | toolCall (tc : ChatDeltaToolCall)
  | finish (reason : Str) (usage : Option ChatUsage)
deriving DecidableEq, Repr

/-- A signal for a text that is there and not empty. -/
def textSignal (text : Option Str) (f : Str → Signal) : List Signal :=
  match text with
  | some text => if text = [] then [] else [f text]
  | none => []

def toolCallSignals (toolCalls : Option (List ChatDeltaToolCall)) : List Signal :=
  match toolCalls with
  | some tcs => (if tcs = [] then [] else [.toolCalls]) ++ tcs.map .toolCall
  | none => []

def choiceSignals (usage : Option ChatUsage) (choice : ChatChoice) : List Signal :=
  textSignal choice.delta.reasoning .reasoning ++ (textSignal choice.delta.content .text ++
    (toolCallSignals choice.delta.toolCalls ++ textSignal choice.finishReason fun reason => .finish reason usage))

def usageSignals (choices : List ChatChoice) (usage : Option ChatUsage) : List Signal :=
  match choices, usage with
  | [], some usage => [.flush (some (mapUsage usage))]
  | _, _ => []

/-- The steps of a chunk. -/
def signals : ChatSseEvent → List Signal
  | .done => [.flush none]
  | .chunk id model choices usage =>
      .ids id model :: (usageSignals choices usage ++ choices.flatMap (choiceSignals usage))

section order
variable (ord : IterOrder ℕ)

def step : Signal → Handler
  | .ids id model => storeIds id model
  | .flush tokenUsage => emitPendingCompletion tokenUsage
  | .reasoning text => reasoningDelta text
  | .text text => textDelta text
  | .toolCalls => finishReasoningItem
  | .toolCall tc => processToolCallDelta tc
  | .finish reason usage => finishTurn ord reason usage

theorem roleDelta_eq (role : Option Str) : roleDelta role = nop := by
  funext state
  unfold roleDelta
  split_ifs with h
  · obtain ⟨_, h1, h2, h3, h4⟩ := h
    cases state
    simp only at h1 h2 h3 h4
    subst h1 h2 h3 h4
    rfl
  · rfl

theorem run_textSignal (text : Option Str) (f : Str → Signal) :
    run (step ord) (textSignal text f) = whenText text fun t => step ord (f t) := by
  unfold textSignal whenText
  cases text with
  | none => rfl
  | some text =>
    dsimp only
    split_ifs
    · rfl
    · exact run_singleton _ _

theorem run_toolCall : ∀ tcs : List ChatDeltaToolCall,
    run (step ord) (tcs.map .toolCall) = run processToolCallDelta tcs
  | [] => rfl
  | tc :: tcs => by
    show seq (step ord (.toolCall tc)) (run (step ord) (tcs.map .toolCall)) = _
    rw [run_toolCall tcs]
    rfl

theorem run_toolCallSignals (toolCalls : Option (List ChatDeltaToolCall)) :
    run (step ord) (toolCallSignals toolCalls) = toolCallDeltas toolCalls := by
  unfold toolCallSignals toolCallDeltas
  cases toolCalls with
  | none => rfl
  | some tcs =>
    dsimp only
    rw [run_append, run_toolCall]
    split_ifs
    · rfl
    · rw [run_singleton]
      rfl

theorem run_choiceSignals (usage : Option ChatUsage) (choice : ChatChoice) :
    run (step ord) (choiceSignals usage choice) = handleChoice ord usage choice := by
  unfold choiceSignals handleChoice
  rw [run_append, run_append, run_append, run_textSignal, run_textSignal, run_toolCallSignals, run_textSignal,
    roleDelta_eq, nop_seq]
  rfl

theorem run_usageSignals (choices : List ChatChoice) (usage : Option ChatUsage) :
    run (step ord) (usageSignals choices usage) = usageChunk choices usage := by
  unfold usageSignals usageChunk
  split
  · exact run_singleton _ _
  · rfl

/-- **A chunk is its steps**, one after the other. -/
theorem handleChatSseEvent_eq (event : ChatSseEvent) :
    handleChatSseEvent ord event = run (step ord) (signals event) := by
  cases event with
  | done => exact (run_singleton _ _).symm
  | chunk id model choices usage =>
    show _ = seq (storeIds id model) (run (step ord) (usageSignals choices usage ++ _))
    rw [run_append, run_usageSignals, run_flatMap]
    unfold handleChatSseEvent
    simp only [run_choiceSignals]

theorem run_handleChatSseEvent (events : List ChatSseEvent) :
    run (handleChatSseEvent ord) events = run (step ord) (events.flatMap signals) := by
  rw [run_flatMap]
  congr 1
  funext event
  exact handleChatSseEvent_eq ord event

end order

/-! ### Phases -/

/-- The state without its texts: the items that are open, and where the completion stands. -/
structure Phase where
  message : Bool
  reasoning : Bool
  calls : List ℕ
  pending : Bool
  completed : Bool
deriving DecidableEq, Repr

/-- The phase of a new stream. -/
def Phase.new : Phase := ⟨false, false, [], false, false⟩

def ChatSseState.phase (s : ChatSseState) : Phase where
  message := s.assistantMessageEmitted
  reasoning := s.assistantReasoningEmitted
  calls := s.toolCalls.entries.map Prod.fst
  pending := s.pendingCompletion.isSome
  completed := s.completed

/-- What a signal does to the phase. -/
def Phase.next (p : Phase) : Signal → Phase
  | .ids _ _ => p
  | .flush _ => { p with pending := false, completed := p.completed || p.pending }
  | .reasoning _ => { p with reasoning := true }
  | .text _ => { p with message := true, reasoning := false }
  | .toolCalls => { p with reasoning := false }
  | .toolCall tc =>
      if tc.header.isSome ∧ tc.index ∉ p.calls then { p with calls := p.calls ++ [tc.index] } else p
  | .finish _ usage => ⟨false, false, [], p.pending || usage.isNone, p.completed || usage.isSome⟩

/-- The phase after some signals. -/
def Phase.after (p : Phase) (sigs : List Signal) : Phase := sigs.foldl Phase.next p

theorem phase_ensureReasoningItem (s : ChatSseState) :
    (ensureReasoningItem s).1.phase = { s.phase with reasoning := true } := by
  unfold ensureReasoningItem
  split_ifs with h
  · rw [← h]
    rfl
  · rfl

theorem phase_ensureMessageItem (s : ChatSseState) :
    (ensureMessageItem s).1.phase = { s.phase with message := true } := by
  unfold ensureMessageItem
  split_ifs with h
  · rw [← h]
    rfl
  · rfl

theorem phase_finishReasoningItem (s : ChatSseState) :
    (finishReasoningItem s).1.phase = { s.phase with reasoning := false } := by
  unfold finishReasoningItem
  by_cases h : s.assistantReasoningEmitted = true
  · rw [if_pos h]
    rfl
  · rw [if_neg h, ← Bool.eq_false_of_not_eq_true h]
    rfl

variable {s : ChatSseState}

theorem phase_of_toolCalls {m : HashMap ℕ ToolCallAccumulator} {calls : List ℕ} (h : m.entries.map Prod.fst = calls) :
    ChatSseState.phase { s with toolCalls := m } = { s.phase with calls := calls } := by
  rw [← h]
  rfl

theorem phase_argumentDelta (idx : ℕ) (args : Option Str) (s : ChatSseState) :
    (argumentDelta idx args s).1.phase = s.phase := by
  unfold argumentDelta
  split
  · exact phase_of_toolCalls (HashMap.fst_modify _ _ _)
  · rfl

variable {tc : ChatDeltaToolCall}

theorem processToolCallDelta_of_none (h : tc.header = none) (s : ChatSseState) :
    processToolCallDelta tc s = argumentDelta tc.index tc.fragment s := by
  unfold processToolCallDelta
  rw [h]

variable {header : Str × Str}

theorem processToolCallDelta_of_open
    (h : tc.header = some header) (hc : tc.index ∈ s.phase.calls) : processToolCallDelta tc s = (s, []) := by
  have hkey : s.toolCalls.containsKey tc.index = true := decide_eq_true hc
  unfold processToolCallDelta
  rw [h]
  exact if_pos hkey

theorem processToolCallDelta_of_new
    (h : tc.header = some header) (hc : tc.index ∉ s.phase.calls) : processToolCallDelta tc s =
      seq (addToolCall tc.index header.1 header.2) (argumentDelta tc.index tc.fragment) s := by
  have hkey : ¬ s.toolCalls.containsKey tc.index = true := fun hk => hc (of_decide_eq_true hk)
  unfold processToolCallDelta
  rw [h]
  exact if_neg hkey

theorem entries_addToolCall {idx : ℕ} (h : idx ∉ s.phase.calls) (id name : Str) :
    (addToolCall idx id name s).1.toolCalls.entries = s.toolCalls.entries ++ [(idx, ⟨id, name, []⟩)] :=
  HashMap.entries_insert_of_not_mem (decide_eq_false h)

theorem phase_processToolCallDelta (tc : ChatDeltaToolCall) (s : ChatSseState) :
    (processToolCallDelta tc s).1.phase = s.phase.next (.toolCall tc) := by
  show _ = if tc.header.isSome ∧ tc.index ∉ s.phase.calls then
    { s.phase with calls := s.phase.calls ++ [tc.index] } else s.phase
  cases hh : tc.header with
  | none =>
    rw [processToolCallDelta_of_none hh, phase_argumentDelta, if_neg (by simp)]
  | some header =>
    by_cases hc : tc.index ∈ s.phase.calls
    · rw [processToolCallDelta_of_open hh hc, if_neg fun h => h.2 hc]
    · rw [processToolCallDelta_of_new hh hc, if_pos ⟨rfl, hc⟩]
      show (argumentDelta tc.index tc.fragment _).1.phase = _
      rw [phase_argumentDelta]
      refine phase_of_toolCalls ?_
      show (addToolCall tc.index header.1 header.2 s).1.toolCalls.entries.map Prod.fst = _
      rw [entries_addToolCall hc, List.map_append]
      rfl

/-- The phase follows from the signals, whatever the order of the hash map. -/
theorem phase_step (ord : IterOrder ℕ) (s : ChatSseState) : ∀ sig : Signal,
    (step ord sig s).1.phase = s.phase.next sig
  | .ids _ _ => rfl
  | .flush tokenUsage => by
    show (emitPendingCompletion tokenUsage s).1.phase =
      { s.phase with pending := false, completed := s.completed || s.pendingCompletion.isSome }
    unfold emitPendingCompletion
    cases hp : s.pendingCompletion with
    | none => simp [ChatSseState.phase, hp]
    | some pending => simp [ChatSseState.phase, emitCompletedEvent]
  | .reasoning _ => phase_ensureReasoningItem s
  | .text _ => by
    show (ensureMessageItem (finishReasoningItem s).1).1.phase = _
    rw [phase_ensureMessageItem, phase_finishReasoningItem]
    rfl
  | .toolCalls => phase_finishReasoningItem s
  | .toolCall tc => phase_processToolCallDelta tc s
  | .finish reason usage => by
    have h1 := congrArg Phase.pending (phase_finishReasoningItem s)
    have h2 := congrArg Phase.completed (phase_finishReasoningItem s)
    simp only [ChatSseState.phase] at h1 h2
    cases usage <;>
      simp [step, finishTurn, seq, completeToolCalls, completeMessage, completeTurn, emitCompletedEvent,
        ChatSseState.phase, Phase.next, HashMap.clear, h1, h2]

theorem phase_run (ord : IterOrder ℕ) : ∀ (sigs : List Signal) (s : ChatSseState),
    (run (step ord) sigs s).1.phase = s.phase.after sigs
  | [], _ => rfl
  | sig :: sigs, s => by
    rw [run_cons]
    show (run (step ord) sigs (step ord sig s).1).1.phase = (s.phase.next sig).after sigs
    rw [phase_run ord sigs, phase_step]

end OpenAgere.ChatSse
