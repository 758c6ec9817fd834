import OpenAgere.Text

/-! # Items of a conversation

`protocol/src/models.rs`: what a model is sent and sends back.  A JSON value is kept as its text,
since nothing here looks into one. -/

namespace OpenAgere.Models

/-- A JSON value, as its text. -/
structure Value where
  text : Str
deriving DecidableEq, Repr

def Value.null : Value := ⟨"null"⟩

/-- The counts of a response, and sums of them (`protocol/src/protocol.rs`). -/
structure TokenUsage where
  inputTokens : ℤ
  cachedInputTokens : ℤ
  outputTokens : ℤ
  reasoningOutputTokens : ℤ
  totalTokens : ℤ
deriving DecidableEq, Repr

/-- How closely a model is to look at an image. -/
inductive ImageDetail where
  | auto | low | high | original
deriving DecidableEq, Repr

/-- A part of a message. -/
inductive ContentItem where
  | inputText (text : Str)
  | inputImage (imageUrl : Str) (detail : Option ImageDetail)
  | outputText (text : Str)
deriving DecidableEq, Repr

/-- Whether an answer is given on the way or at the end. -/
inductive MessagePhase where
  | commentary | finalAnswer
deriving DecidableEq, Repr

inductive ReasoningItemReasoningSummary where
  | summaryText (text : Str)
deriving DecidableEq, Repr

inductive ReasoningItemContent where
  | reasoningText (text : Str)
  | text (text : Str)
deriving DecidableEq, Repr

inductive LocalShellStatus where
  | completed | inProgress | incomplete
deriving DecidableEq, Repr

structure LocalShellExecAction where
  command : List Str
  timeoutMs : Option ℕ
  workingDirectory : Option Str
  env : Option (List (Str × Str))
  user : Option Str
deriving DecidableEq, Repr

inductive LocalShellAction where
  | exec (action : LocalShellExecAction)
deriving DecidableEq, Repr

inductive WebSearchAction where
  | search (query : Option Str) (queries : Option (List Str))
  | openPage (url : Option Str)
  | findInPage (url pattern : Option Str)
  | other
deriving DecidableEq, Repr

/-! ### Outputs of tools -/

inductive FunctionCallOutputContentItem where
  | inputText (text : Str)
  | inputImage (imageUrl : Str) (detail : Option ImageDetail)
deriving DecidableEq, Repr

/-- What a tool gives back: a text, or parts that may be images. -/
inductive FunctionCallOutputBody where
  | text (text : Str)
  | contentItems (items : List FunctionCallOutputContentItem)
deriving DecidableEq, Repr

structure FunctionCallOutputPayload where
  body : FunctionCallOutputBody
  success : Option Bool
deriving DecidableEq, Repr

def FunctionCallOutputPayload.fromText (content : Str) : FunctionCallOutputPayload := ⟨.text content, none⟩

def FunctionCallOutputPayload.textContent (output : FunctionCallOutputPayload) : Option Str :=
  match output.body with
  | .text content => some content
  | .contentItems _ => none

def FunctionCallOutputPayload.contentItems (output : FunctionCallOutputPayload) :
    Option (List FunctionCallOutputContentItem) :=
  match output.body with
  | .text _ => none
  | .contentItems items => some items

/-! ### Items -/

/-- An item of a conversation.  Calls and their outputs are paired by `callId`. -/
inductive ResponseItem where
  | message (id : Option Str) (role : Str) (content : List ContentItem) (phase : Option MessagePhase)
  | reasoning (id : Str) (summary : List ReasoningItemReasoningSummary)
      (content : Option (List ReasoningItemContent)) (encryptedContent signature : Option Str)
  | localShellCall (id callId : Option Str) (status : LocalShellStatus) (action : LocalShellAction)
  | functionCall (id : Option Str) (name : Str) (nameSpace : Option Str) (arguments callId : Str)
  | toolSearchCall (id callId status : Option Str) (execution : Str) (arguments : Value)
  | functionCallOutput (callId : Str) (output : FunctionCallOutputPayload)
  | customToolCall (id status : Option Str) (callId name input : Str)
  | customToolCallOutput (callId : Str) (name : Option Str) (output : FunctionCallOutputPayload)
  | toolSearchOutput (callId : Option Str) (status execution : Str) (tools : List Value)
  | webSearchCall (id status : Option Str) (action : Option WebSearchAction)
  | imageGenerationCall (id status : Str) (revisedPrompt : Option Str) (result : Str)
  | compaction (encryptedContent : Str)
  | other
deriving DecidableEq, Repr

end OpenAgere.Models
