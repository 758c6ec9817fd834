import OpenAgere.Models

/-! # Rollouts

The items of a rollout file (`protocol/src/protocol.rs`): what is persisted of a thread, in the order
in which it happened.  Of a turn context the fields that are read later are kept apart from the
rest; of an event that shows the work of a tool, what is built from its payload. -/

namespace OpenAgere.Rollout

open Models

/-- The context of a turn; `rest` holds the fields nothing here reads. -/
structure TurnContextItem where
  turnId : Option Str
  model : Str
  realtimeActive : Option Bool
  rest : Value
deriving DecidableEq, Repr

inductive TruncationPolicy where
  | bytes (limit : ℕ)
  | tokens (limit : ℕ)
deriving DecidableEq, Repr

structure CompactedItem where
  message : Str
  replacementHistory : Option (List ResponseItem)
deriving DecidableEq, Repr

structure UserMessageEvent where
  message : Str
  images : Option (List Str)
  localImages : List Str
  textElements : List Value
deriving DecidableEq, Repr

/-- The events that show the work of a tool. -/
inductive ToolEvent where
  | webSearchBegin | webSearchEnd
  | execCommandBegin | execCommandEnd
  | guardianAssessment | applyPatchApprovalRequest
  | patchApplyBegin | patchApplyEnd
  | dynamicToolCallRequest | dynamicToolCallResponse
  | mcpToolCallBegin | mcpToolCallEnd
  | viewImageToolCall
  | imageGenerationBegin | imageGenerationEnd
  | collabAgentSpawnBegin | collabAgentSpawnEnd
  | collabAgentInteractionBegin | collabAgentInteractionEnd
  | collabWaitingBegin | collabWaitingEnd
  | collabCloseBegin | collabCloseEnd
  | collabResumeBegin | collabResumeEnd
  | itemStarted | itemCompleted
deriving DecidableEq, Repr

/-- What is shown of the work of a tool, under the identifier of the call. -/
structure ToolItem where
  id : Str
  body : Value
deriving DecidableEq, Repr

/-- An event.  An event of a tool names its turn, and holds the item built from its payload, if there
is one; `other` is any event that leaves no trace. -/
inductive EventMsg where
  | userMessage (payload : UserMessageEvent)
  | agentMessage (message : Str) (phase : Option MessagePhase) (memoryCitation : Option Value)
  | agentReasoning (text : Str)
  | agentReasoningRawContent (text : Str)
  | tool (event : ToolEvent) (turnId : Str) (item : Option ToolItem)
  | contextCompacted
  | enteredReviewMode (userFacingHint : Option Str)
  | exitedReviewMode (overallExplanation : Option Str)
  | error (affectsTurnStatus : Bool) (message : Str) (info : Option Value)
  | threadRolledBack (numTurns : ℕ)
  | turnAborted (turnId : Option Str) (completedAt durationMs : Option ℤ)
  | turnStarted (turnId : Str) (startedAt : Option ℤ)
  | turnComplete (turnId : Str) (completedAt durationMs : Option ℤ)
  | other
deriving DecidableEq, Repr

inductive RolloutItem where
  | sessionMeta
  | responseItem (item : ResponseItem)
  | compacted (item : CompactedItem)
  | turnContext (item : TurnContextItem)
  | eventMsg (event : EventMsg)
deriving DecidableEq, Repr

end OpenAgere.Rollout
