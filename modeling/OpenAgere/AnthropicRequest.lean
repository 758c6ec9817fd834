import OpenAgere.Emitter
import OpenAgere.HashMap
import OpenAgere.Models

/-! # Messages of an Anthropic request

`anthropic-client/src/translate/request.rs` and `content.rs`: the items of a conversation become
messages of a user and an assistant.  First every run of calls is followed by the outputs of its
calls, an output that is missing being made up and one that is left over dropped
(`ensureAllToolOutputsPresent`); then every item adds its blocks to the last message, or opens a
new one if the role changes.  The JSON parser is a parameter.  Not in the model is a log line that
shows a signature cut at 20 bytes: where debug events are recorded and that is inside a character, the
code panics and there are no messages.

The messages obey the rule of pairs of the service (`paired_build`): the results in a message are
those of the tool uses in the message before it.  The proof follows the loop over the items with
the tool uses that wait for their results (`Waiting`). -/

namespace OpenAgere.AnthropicRequest

open List Option Emitter Models Text

/-! ### Messages -/

structure ImageSource where
  sourceType : Str
  mediaType : Str
  data : Str
deriving DecidableEq, Repr

inductive ToolResultBlock where
  | text (text : Str)
  | image (source : ImageSource)
deriving DecidableEq, Repr

inductive ToolResultContent where
  | text (text : Str)
  | blocks (blocks : List ToolResultBlock)
deriving DecidableEq, Repr

inductive MessageContent where
  | text (text : Str)
  | image (source : ImageSource)
  | toolUse (id name : Str) (input : Value)
  | toolResult (toolUseId : Str) (content : ToolResultContent) (isError : Option Bool)
  | thinking (thinking : Str) (signature : Option Str)
  | redactedThinking (data : Str) (signature : Option Str)
deriving DecidableEq, Repr

structure Message where
  role : Str
  content : List MessageContent
deriving DecidableEq, Repr

structure MessageBuildContext where
  requireThinkingSignature : Bool
deriving DecidableEq, Repr

def assistant : Str := "assistant"

def user : Str := "user"

theorem user_ne_assistant : user ≠ assistant := by decide

/-! ### Contents -/

def mapRole (role : Str) : Str := if role = assistant then assistant else user

def parseDataUrl (url : Str) : Str × Str :=
  match (stripPrefix "data:" url).bind (splitOnce ";base64,") with
  | some parts => parts
  | none => ("image/png", url)

def imageSource (url : Str) : ImageSource :=
  ⟨"base64", (parseDataUrl url).1, (parseDataUrl url).2⟩

def contentItemToAnthropic : ContentItem → MessageContent
  | .inputText text => .text text
  | .outputText text => .text text
  | .inputImage imageUrl _ => .image (imageSource imageUrl)

def functionCallOutputContentItemToToolResultBlock : FunctionCallOutputContentItem → ToolResultBlock
  | .inputText text => .text text
  | .inputImage imageUrl _ => .image (imageSource imageUrl)

def toolResultContent (output : FunctionCallOutputPayload) : ToolResultContent :=
  match output.contentItems with
  | some [] => .text []
  | some items => .blocks (items.map functionCallOutputContentItemToToolResultBlock)
  | none => .text (output.textContent.getD [])

def extractReasoningText (summary : List ReasoningItemReasoningSummary)
    (content : Option (List ReasoningItemContent)) : Str :=
  let text := (content.getD []).flatMap fun
    | .reasoningText t => t
    | .text t => t
  if text = [] then summary.flatMap fun | .summaryText t => t else text

/-! ### Outputs behind their calls -/

/-- The outputs that wait for their calls, the first one of each call. -/
structure ToolOutputs where
  function : HashMap Str ResponseItem
  custom : HashMap Str ResponseItem

def orInsert (outputs : HashMap Str ResponseItem) (callId : Str) (item : ResponseItem) :
    HashMap Str ResponseItem :=
  if outputs.containsKey callId then outputs else outputs.insert callId item

def ToolOutputs.add (outputs : ToolOutputs) (item : ResponseItem) : ToolOutputs :=
  match item with
  | .functionCallOutput callId _ => { outputs with function := orInsert outputs.function callId item }
  | .customToolCallOutput callId _ _ => { outputs with custom := orInsert outputs.custom callId item }
  | _ => outputs

def collectOutputs (items : List ResponseItem) : ToolOutputs :=
  items.foldl ToolOutputs.add ⟨.empty, .empty⟩

/-- A call whose output is pending: whether it is a function call, and its identifier. -/
def pendingOutput : ResponseItem → Option (Bool × Str)
  | .functionCall _ _ _ _ callId => some (true, callId)
  | .customToolCall _ _ callId _ _ => some (false, callId)
  | _ => none

def aborted : FunctionCallOutputPayload := .fromText "aborted"

/-- Take the output of a call, or make one up. -/
def takeOutput (pending : Bool × Str) : Emitter ToolOutputs ResponseItem := fun outputs =>
  if pending.1 then ({ outputs with function := outputs.function.remove pending.2 },
    [(outputs.function.get pending.2).getD (.functionCallOutput pending.2 aborted)])
  else ({ outputs with custom := outputs.custom.remove pending.2 },
    [(outputs.custom.get pending.2).getD (.customToolCallOutput pending.2 none aborted)])

/-- What is kept of an item that is not a call. -/
def keptItem : ResponseItem → List ResponseItem
  | .localShellCall _ _ _ _ => []
  | .functionCallOutput _ _ => []
  | .customToolCallOutput _ _ _ => []
  | item => [item]

def emit (items : List ResponseItem) : Emitter ToolOutputs ResponseItem := fun outputs => (outputs, items)

/-- The loop over the items.  The first argument holds the calls of the run of calls the loop is in;
at the end of the run their outputs follow. -/
def regroup : List (Bool × Str) → List ResponseItem → Emitter ToolOutputs ResponseItem
  | pending, [] => run takeOutput pending
  | pending, item :: items =>
      match pendingOutput item with
      | some call => seq (emit [item]) (regroup (pending ++ [call]) items)
      | none => seq (run takeOutput pending) (seq (emit (keptItem item)) (regroup [] items))

def ensureAllToolOutputsPresent (items : List ResponseItem) : List ResponseItem :=
  (regroup [] items (collectOutputs items)).2

/-! ### The loop over the items -/

def appendOrPush (messages : List Message) (role : Str) (blocks : List MessageContent) : List Message :=
  match messages.getLast? with
  | some last =>
      if last.role = role then messages.dropLast ++ [{ last with content := last.content ++ blocks }]
      else messages ++ [⟨role, blocks⟩]
  | none => messages ++ [⟨role, blocks⟩]

section build
variable (fromStr : Str → Option Value) (ctx : MessageBuildContext)

/-- The blocks of an item and the role they have, if it has any. -/
def itemBlocks : ResponseItem → Option (Str × List MessageContent)
  | .message _ role content _ =>
      if content = [] then none else some (mapRole role, content.map contentItemToAnthropic)
  | .reasoning _ summary content encryptedContent signature =>
      match encryptedContent with
      | some data => if signature.isSome then some (assistant, [.redactedThinking data signature]) else none
      | none =>
          let text := extractReasoningText summary content
          if signature.isSome then some (assistant, [.thinking text signature])
          else if !ctx.requireThinkingSignature then some (assistant, [.thinking text none])
          else if text ≠ [] then some (assistant, [.text text])
          else none
  | .functionCall _ name _ arguments callId =>
      some (assistant, [.toolUse callId name ((fromStr arguments).getD .null)])
  | .customToolCall _ _ callId name input =>
      some (assistant, [.toolUse callId name ((fromStr input).getD .null)])
  | .functionCallOutput callId output => some (user, [.toolResult callId (toolResultContent output) none])
  | .customToolCallOutput callId _ output => some (user, [.toolResult callId (toolResultContent output) none])
  | _ => none

def addItem (messages : List Message) (item : ResponseItem) : List Message :=
  match itemBlocks fromStr ctx item with
  | some blocks => appendOrPush messages blocks.1 blocks.2
  | none => messages

def buildAnthropicMessagesFromResponseItems (items : List ResponseItem) : List Message :=
  (ensureAllToolOutputsPresent items).foldl (addItem fromStr ctx) []

end build

/-! ### The rule of pairs -/

def MessageContent.toolUse? : MessageContent → Option Str
  | .toolUse id _ _ => some id
  | _ => none

def MessageContent.toolResult? : MessageContent → Option Str
  | .toolResult toolUseId _ _ => some toolUseId
  | _ => none

def Message.toolUses (message : Message) : List Str := message.content.filterMap MessageContent.toolUse?

def Message.toolResults (message : Message) : List Str := message.content.filterMap MessageContent.toolResult?

def callId (item : ResponseItem) : Option Str := (pendingOutput item).map Prod.snd

/-- The identifiers of the function calls and custom calls. -/
def callIds (items : List ResponseItem) : List Str := items.filterMap callId

/-- The rule of pairs: roles alternate, no message is empty, a message with tool uses is followed by a
user message with one result for each, and a result answers a tool use of the message before. -/
structure Paired (messages : List Message) : Prop where
  roles : ∀ message ∈ messages, message.role = user ∨ message.role = assistant
  alternate : messages.IsChain fun a b => a.role ≠ b.role
  nonempty : ∀ message ∈ messages, message.content ≠ []
  answered : ∀ before message after, messages = before ++ message :: after → message.role = assistant →
    message.toolUses ≠ [] → ∃ next rest, after = next :: rest ∧ next.role = user ∧
      ∀ id ∈ message.toolUses, next.toolResults.count id = 1
  asked : ∀ before message after, messages = before ++ message :: after → ∀ id ∈ message.toolResults,
    ∃ rest previous, before = rest ++ [previous] ∧ previous.role = assistant ∧ id ∈ previous.toolUses

/-! ### Messages that wait for results -/

/-- What holds of a message and the one before it. -/
structure Follows (previous : Option Message) (message : Message) : Prop where
  nonempty : message.content ≠ []
  role : message.role = user ∨ message.role = assistant
  alternates : ∀ last ∈ previous, last.role ≠ message.role
  results : message.toolResults = previous.elim [] Message.toolUses
  uses : message.toolUses ≠ [] → message.role = assistant

/-- Every message follows the one before it. -/
def Chained : List Message → Prop := Checked (fun _ message => some message) Follows none

/-- Every message follows the one before it, and the given tool uses of the last one wait for their
results. -/
structure Waiting (ids : List Str) (messages : List Message) : Prop where
  chained : Chained messages
  last : messages.getLast?.elim [] Message.toolUses = ids

theorem foldl_last (messages : List Message) (previous : Option Message) :
    messages.foldl (fun _ message => some message) previous = messages.getLast?.or previous := by
  induction messages generalizing previous with
  | nil => rfl
  | cons message messages ih =>
    rw [foldl_cons, ih, getLast?_cons]
    cases messages.getLast? <;> rfl

variable {messages : List Message} {message : Message}

theorem chained_concat : Chained (messages ++ [message]) ↔ Chained messages ∧ Follows messages.getLast? message := by
  unfold Chained
  rw [checked_append, foldl_last, or_none]
  exact and_congr_right fun _ => and_iff_left trivial

variable {role : Str} {blocks : List MessageContent}

theorem appendOrPush_push (h : ∀ last ∈ messages.getLast?, last.role ≠ role) :
    appendOrPush messages role blocks = messages ++ [⟨role, blocks⟩] := by
  unfold appendOrPush
  cases hl : messages.getLast? with
  | none => rfl
  | some last => exact if_neg (h last hl)

theorem appendOrPush_append (messages : List Message) (last : Message) (blocks : List MessageContent) :
    appendOrPush (messages ++ [last]) last.role blocks = messages ++ [⟨last.role, last.content ++ blocks⟩] := by
  unfold appendOrPush
  rw [getLast?_concat]
  dsimp only
  rw [if_pos rfl, dropLast_concat]

theorem role_cases (messages : List Message) (role : Str) :
    (∃ rest last, messages = rest ++ [last] ∧ last.role = role) ∨ ∀ last ∈ messages.getLast?, last.role ≠ role := by
  cases hl : messages.getLast? with
  | none => exact .inr fun last h => absurd h (by simp)
  | some last =>
    by_cases hr : last.role = role
    · obtain ⟨rest, hrest⟩ := getLast?_eq_some_iff.mp hl
      exact .inl ⟨rest, last, hrest, hr⟩
    · refine .inr fun last' h => ?_
      rw [← some.inj h]
      exact hr

theorem appendOrPush_appendOrPush (messages : List Message) (role : Str) (bs cs : List MessageContent) :
    appendOrPush (appendOrPush messages role bs) role cs = appendOrPush messages role (bs ++ cs) := by
  obtain ⟨rest, last, rfl, rfl⟩ | hne := role_cases messages role
  · have hlast := appendOrPush_append rest ⟨last.role, last.content ++ bs⟩ cs
    rw [append_assoc] at hlast
    rw [appendOrPush_append rest last bs, appendOrPush_append rest last (bs ++ cs)]
    exact hlast
  · rw [appendOrPush_push hne, appendOrPush_push hne]
    exact appendOrPush_append messages ⟨role, bs⟩ cs

theorem toolUses_append (role : Str) (bs cs : List MessageContent) :
    (⟨role, bs ++ cs⟩ : Message).toolUses = (⟨role, bs⟩ : Message).toolUses ++ (⟨role, cs⟩ : Message).toolUses :=
  filterMap_append

variable {ids : List Str}

/-- Tool uses that wait are those of a message of the assistant. -/
theorem Waiting.role_last (h : Waiting ids messages) (hids : ids ≠ []) :
    ∃ rest last, messages = rest ++ [last] ∧ last.role = assistant := by
  have hlast := h.last
  cases hl : messages.getLast? with
  | none =>
    rw [hl] at hlast
    exact absurd hlast.symm hids
  | some last =>
    rw [hl] at hlast
    obtain ⟨rest, rfl⟩ := getLast?_eq_some_iff.mp hl
    refine ⟨rest, last, rfl, (chained_concat.mp h.chained).2.uses ?_⟩
    rw [show last.toolUses = ids from hlast]
    exact hids

theorem Waiting.extend (h : Waiting ids messages) (hblocks : blocks ≠ []) (hrole : role = user ∨ role = assistant)
    (hresults : (⟨role, blocks⟩ : Message).toolResults = [])
    (huses : (⟨role, blocks⟩ : Message).toolUses ≠ [] → role = assistant) (hids : ids = [] ∨ role = assistant) :
    Waiting (ids ++ (⟨role, blocks⟩ : Message).toolUses) (appendOrPush messages role blocks) := by
  obtain ⟨rest, last, rfl, rfl⟩ | hne := role_cases messages role
  · obtain ⟨hc, hf⟩ := chained_concat.mp h.chained
    have hlast : last.toolUses = ids := by simpa using h.last
    rw [appendOrPush_append]
    have huses' := toolUses_append last.role last.content blocks
    refine ⟨chained_concat.mpr ⟨hc, ?_, hf.role, hf.alternates, ?_, ?_⟩, ?_⟩
    · simp [hblocks]
    · have happend : (⟨last.role, last.content ++ blocks⟩ : Message).toolResults = last.toolResults ++ [] :=
        filterMap_append.trans (congrArg _ hresults)
      rw [happend, append_nil]
      exact hf.results
    · intro hne
      rw [huses'] at hne
      by_cases hl : last.toolUses = []
      · apply huses
        intro hb
        rw [hb, append_nil] at hne
        exact hne hl
      · exact hf.uses hl
    · rw [getLast?_concat, ← hlast]
      exact huses'
  · have hnil : ids = [] := by
      by_contra hids'
      obtain ⟨rest, last, rfl, hr⟩ := h.role_last hids'
      apply hne last (by simp)
      rw [hr, hids.resolve_left hids']
    subst hnil
    rw [appendOrPush_push hne]
    refine ⟨chained_concat.mpr ⟨h.chained, hblocks, hrole, hne, ?_, huses⟩, ?_⟩
    · rw [h.last]
      exact hresults
    · rw [getLast?_concat]
      rfl

theorem Waiting.answer (h : Waiting ids messages) (hids : ids ≠ []) (hblocks : blocks ≠ [])
    (hresults : (⟨user, blocks⟩ : Message).toolResults = ids) (huses : (⟨user, blocks⟩ : Message).toolUses = []) :
    Waiting [] (appendOrPush messages user blocks) := by
  obtain ⟨rest, last, rfl, hr⟩ := h.role_last hids
  have hne : ∀ last' ∈ (rest ++ [last]).getLast?, last'.role ≠ user := by
    intro last' hl
    rw [getLast?_concat] at hl
    rw [← some.inj hl, hr]
    exact user_ne_assistant.symm
  rw [appendOrPush_push hne]
  refine ⟨chained_concat.mpr ⟨h.chained, hblocks, .inl rfl, hne, ?_, ?_⟩, ?_⟩
  · rw [h.last]
    exact hresults
  · intro hu
    exact absurd huses hu
  · rw [getLast?_concat]
    exact huses

/-! ### The loop over the items keeps the rule -/

section loop
variable {fromStr : Str → Option Value} {ctx : MessageBuildContext}

/-- The call an output belongs to. -/
def outputId : ResponseItem → Option Str
  | .functionCallOutput callId _ => some callId
  | .customToolCallOutput callId _ _ => some callId
  | _ => none

/-- The outputs are kept by the identifier of their call. -/
def ToolOutputs.Keyed (outputs : ToolOutputs) : Prop :=
  (∀ id item, outputs.function.get id = some item → outputId item = some id) ∧
    ∀ id item, outputs.custom.get id = some item → outputId item = some id

variable {id : Str} {item : ResponseItem}

theorem get_orInsert {outputs : HashMap Str ResponseItem} {callId : Str} {found : ResponseItem}
    (h : (orInsert outputs callId item).get id = some found) :
    outputs.get id = some found ∨ id = callId ∧ found = item := by
  unfold orInsert at h
  split_ifs at h with hc
  · exact .inl h
  · rw [HashMap.get_insert] at h
    split_ifs at h with hid
    · exact .inr ⟨hid, (some.inj h).symm⟩
    · exact .inl h

theorem keyed_add {outputs : ToolOutputs} (h : outputs.Keyed) (item : ResponseItem) : (outputs.add item).Keyed := by
  have hkey : ∀ {m : HashMap Str ResponseItem} {callId : Str}, outputId item = some callId →
      (∀ id found, m.get id = some found → outputId found = some id) →
      ∀ id found, (orInsert m callId item).get id = some found → outputId found = some id := by
    intro m callId hitem hm id found hget
    obtain hget | ⟨rfl, rfl⟩ := get_orInsert hget
    · exact hm id found hget
    · exact hitem
  cases item with
  | functionCallOutput callId output => exact ⟨hkey rfl h.1, h.2⟩
  | customToolCallOutput callId name output => exact ⟨h.1, hkey rfl h.2⟩
  | _ => exact h

theorem keyed_collectOutputs (items : List ResponseItem) : (collectOutputs items).Keyed := by
  have hfold : ∀ (items : List ResponseItem) (outputs : ToolOutputs), outputs.Keyed →
      (items.foldl ToolOutputs.add outputs).Keyed := by
    intro items
    induction items with
    | nil => exact fun _ h => h
    | cons item items ih => exact fun outputs h => ih _ (keyed_add h item)
  exact hfold items _ ⟨fun id item h => absurd h (by simp [HashMap.get, HashMap.empty]),
    fun id item h => absurd h (by simp [HashMap.get, HashMap.empty])⟩

theorem takeOutput_spec {outputs : ToolOutputs} (h : outputs.Keyed) (pending : Bool × Str) :
    (takeOutput pending outputs).1.Keyed ∧
      ∃ item, (takeOutput pending outputs).2 = [item] ∧ outputId item = some pending.2 := by
  have hget : ∀ {m : HashMap Str ResponseItem} {made : ResponseItem}, outputId made = some pending.2 →
      (∀ id found, m.get id = some found → outputId found = some id) →
      outputId ((m.get pending.2).getD made) = some pending.2 := by
    intro m made hmade hm
    cases hg : m.get pending.2 with
    | none => exact hmade
    | some item => exact hm _ _ hg
  unfold takeOutput
  split_ifs with hp
  · exact ⟨⟨fun id item hi => h.1 id item (HashMap.get_remove_eq_some.mp hi).2, h.2⟩, _, rfl, hget rfl h.1⟩
  · exact ⟨⟨h.1, fun id item hi => h.2 id item (HashMap.get_remove_eq_some.mp hi).2⟩, _, rfl, hget rfl h.2⟩

theorem run_takeOutput_spec {outputs : ToolOutputs} (h : outputs.Keyed) (pending : List (Bool × Str)) :
    (run takeOutput pending outputs).1.Keyed ∧
      (run takeOutput pending outputs).2.map outputId = pending.map fun call => some call.2 := by
  induction pending generalizing outputs with
  | nil => exact ⟨h, rfl⟩
  | cons call pending ih =>
    obtain ⟨hkeyed, item, hitem, hid⟩ := takeOutput_spec h call
    obtain ⟨hkeyed', hids⟩ := ih hkeyed
    rw [run_cons]
    refine ⟨hkeyed', ?_⟩
    rw [hitem, map_append, hids, map_singleton, hid]
    rfl

variable (fromStr ctx) in
theorem itemBlocks_output (h : outputId item = some id) :
    ∃ content, itemBlocks fromStr ctx item = some (user, [.toolResult id content none]) := by
  cases item with
  | functionCallOutput callId output | customToolCallOutput callId name output =>
    exact ⟨toolResultContent output, by rw [← some.inj h]; rfl⟩
  | _ => exact absurd h (by simp [outputId])

/-- Outputs in a row go into one message, with their results. -/
theorem foldl_outputs (messages : List Message) : ∀ {items : List ResponseItem} {ids : List Str},
    items.map outputId = ids.map some → ids ≠ [] →
    ∃ blocks, blocks ≠ [] ∧ (⟨user, blocks⟩ : Message).toolResults = ids ∧
      (⟨user, blocks⟩ : Message).toolUses = [] ∧
      items.foldl (addItem fromStr ctx) messages = appendOrPush messages user blocks := by
  intro items
  induction items generalizing messages with
  | nil =>
    intro ids h hids
    exact absurd (map_eq_nil_iff.mp h.symm) hids
  | cons item items ih =>
    intro ids h hids
    obtain ⟨id, ids, rfl⟩ := exists_cons_of_ne_nil hids
    obtain ⟨hitem, hitems⟩ := List.cons.inj h
    obtain ⟨content, hblocks⟩ := itemBlocks_output fromStr ctx hitem
    have hadd : addItem fromStr ctx messages item =
        appendOrPush messages user [.toolResult id content none] := by
      unfold addItem
      rw [hblocks]
    rw [foldl_cons, hadd]
    by_cases hnil : ids = []
    · subst hnil
      rw [map_eq_nil_iff.mp hitems]
      exact ⟨[.toolResult id content none], by simp, rfl, rfl, rfl⟩
    · obtain ⟨blocks, -, hresults, huses, hfold⟩ :=
        ih (appendOrPush messages user [.toolResult id content none]) hitems hnil
      refine ⟨.toolResult id content none :: blocks, by simp, congrArg (id :: ·) hresults, huses, ?_⟩
      rw [hfold, appendOrPush_appendOrPush]
      rfl

variable {messages : List Message}

variable (fromStr ctx) in
theorem Waiting.outputs {ids : List Str} {items : List ResponseItem}
    (h : Waiting ids messages) (hitems : items.map outputId = ids.map some) :
    Waiting [] (items.foldl (addItem fromStr ctx) messages) := by
  by_cases hids : ids = []
  · subst hids
    rw [map_eq_nil_iff.mp hitems]
    exact h
  · obtain ⟨blocks, hblocks, hresults, huses, hfold⟩ := foldl_outputs messages hitems hids
    rw [hfold]
    exact h.answer hids hblocks hresults huses

/-- What an item adds: tool uses for a call, results for an output, and nothing of the kind otherwise. -/
theorem itemBlocks_some {role : Str} {blocks : List MessageContent}
    (h : itemBlocks fromStr ctx item = some (role, blocks)) : (role = user ∨ role = assistant) ∧ blocks ≠ [] ∧
      (⟨role, blocks⟩ : Message).toolUses = callIds [item] ∧
      (⟨role, blocks⟩ : Message).toolResults = (outputId item).toList := by
  cases item with
  | message id role' content phase =>
    simp only [itemBlocks] at h
    split_ifs at h with hc
    obtain ⟨rfl, rfl⟩ := Prod.mk.inj (some.inj h)
    refine ⟨?_, by simpa using hc, ?_, ?_⟩
    · unfold mapRole
      split_ifs <;> simp
    all_goals
      refine filterMap_eq_nil_iff.mpr fun b hb => ?_
      obtain ⟨c, -, rfl⟩ := mem_map.mp hb
      cases c <;> rfl
  | reasoning id summary content encryptedContent signature =>
    simp only [itemBlocks] at h
    split at h <;> split_ifs at h <;> obtain ⟨rfl, rfl⟩ := Prod.mk.inj (some.inj h) <;>
      exact ⟨.inr rfl, by simp, rfl, rfl⟩
  | functionCall | customToolCall =>
    obtain ⟨rfl, rfl⟩ := Prod.mk.inj (some.inj h)
    exact ⟨.inr rfl, by simp, rfl, rfl⟩
  | functionCallOutput | customToolCallOutput =>
    obtain ⟨rfl, rfl⟩ := Prod.mk.inj (some.inj h)
    exact ⟨.inl rfl, by simp, rfl, rfl⟩
  | _ => exact absurd h (by simp [itemBlocks])

theorem itemBlocks_call {call : Bool × Str} (h : pendingOutput item = some call) :
    ∃ name input, itemBlocks fromStr ctx item = some (assistant, [.toolUse call.2 name input]) := by
  cases item with
  | functionCall | customToolCall => exact ⟨_, _, by rw [← some.inj h]; rfl⟩
  | _ => exact absurd h (by simp [pendingOutput])

theorem callIds_singleton (item : ResponseItem) : callIds [item] = (callId item).toList := by
  unfold callIds
  cases h : callId item with
  | none => rw [filterMap_cons_none h]; rfl
  | some id => rw [filterMap_cons_some h]; rfl

variable (fromStr ctx) in
theorem Waiting.other (h : Waiting [] messages)
    (hcall : pendingOutput item = none) (hout : outputId item = none) :
    Waiting [] (addItem fromStr ctx messages item) := by
  unfold addItem
  cases hitem : itemBlocks fromStr ctx item with
  | none => exact h
  | some blocks =>
    obtain ⟨hrole, hblocks, huses, hresults⟩ := itemBlocks_some hitem
    rw [callIds_singleton, callId, hcall] at huses
    rw [hout] at hresults
    have hext := h.extend hblocks hrole hresults (fun hne => absurd huses hne) (.inl rfl)
    rwa [huses] at hext

variable (fromStr ctx) in
theorem Waiting.kept (h : Waiting [] messages) (hcall : pendingOutput item = none) :
    Waiting [] ((keptItem item).foldl (addItem fromStr ctx) messages) := by
  cases item with
  | localShellCall | functionCallOutput | customToolCallOutput => exact h
  | functionCall | customToolCall => exact absurd hcall (by simp [pendingOutput])
  | _ => exact h.other fromStr ctx hcall rfl

variable (fromStr ctx) in
theorem Waiting.call {ids : List Str} {call : Bool × Str}
    (h : Waiting ids messages) (hcall : pendingOutput item = some call) :
    Waiting (ids ++ [call.2]) (addItem fromStr ctx messages item) := by
  obtain ⟨name, input, hblocks⟩ := itemBlocks_call hcall
  have hadd : addItem fromStr ctx messages item =
      appendOrPush messages assistant [.toolUse call.2 name input] := by
    unfold addItem
    rw [hblocks]
  have hresults : (⟨assistant, [.toolUse call.2 name input]⟩ : Message).toolResults = [] := rfl
  rw [hadd]
  exact h.extend (cons_ne_nil _ _) (.inr rfl) hresults (fun _ => rfl) (.inr rfl)

/-- **The loop keeps the rule.**  At its end no tool use waits for a result. -/
theorem waiting_regroup : ∀ (items : List ResponseItem) (pending : List (Bool × Str)) {outputs : ToolOutputs}
    {messages : List Message}, outputs.Keyed → Waiting (pending.map Prod.snd) messages →
    Waiting [] ((regroup pending items outputs).2.foldl (addItem fromStr ctx) messages)
  | [], pending, outputs, messages, hkeyed, h => by
    have hids := (run_takeOutput_spec hkeyed pending).2
    exact h.outputs fromStr ctx (hids.trans map_map.symm)
  | item :: items, pending, outputs, messages, hkeyed, h => by
    unfold regroup
    cases hcall : pendingOutput item with
    | some call =>
      refine waiting_regroup items (pending ++ [call]) hkeyed ?_
      rw [map_append]
      exact h.call fromStr ctx hcall
    | none =>
      obtain ⟨hkeyed', hids⟩ := run_takeOutput_spec hkeyed pending
      have hflush := h.outputs fromStr ctx (hids.trans map_map.symm)
      show Waiting [] (((run takeOutput pending outputs).2 ++ (keptItem item ++
        (regroup [] items (run takeOutput pending outputs).1).2)).foldl _ messages)
      rw [foldl_append, foldl_append]
      exact waiting_regroup items [] hkeyed' (hflush.kept fromStr ctx hcall)

/-! ### Tool uses are calls -/

theorem toolUses_appendOrPush (messages : List Message) (role : Str) (blocks : List MessageContent) :
    (appendOrPush messages role blocks).flatMap Message.toolUses =
      messages.flatMap Message.toolUses ++ (⟨role, blocks⟩ : Message).toolUses := by
  obtain ⟨rest, last, rfl, rfl⟩ | hne := role_cases messages role
  · rw [appendOrPush_append, flatMap_append, flatMap_append, flatMap_singleton,
      flatMap_singleton, append_assoc]
    exact congrArg _ (toolUses_append last.role last.content blocks)
  · rw [appendOrPush_push hne, flatMap_append, flatMap_singleton]

theorem toolUses_addItem (messages : List Message) (item : ResponseItem) :
    (addItem fromStr ctx messages item).flatMap Message.toolUses =
      messages.flatMap Message.toolUses ++ callIds [item] := by
  unfold addItem
  cases hitem : itemBlocks fromStr ctx item with
  | none =>
    have hcall : pendingOutput item = none := by
      cases hcall : pendingOutput item with
      | none => rfl
      | some call =>
        obtain ⟨name, input, hblocks⟩ := itemBlocks_call hcall
        exact absurd (hblocks.symm.trans hitem) (by simp)
    rw [callIds_singleton, callId, hcall]
    simp
  | some blocks =>
    dsimp only
    rw [toolUses_appendOrPush, (itemBlocks_some hitem).2.2.1]

theorem callIds_append (as bs : List ResponseItem) : callIds (as ++ bs) = callIds as ++ callIds bs :=
  filterMap_append

theorem toolUses_foldl (items : List ResponseItem) (messages : List Message) :
    (items.foldl (addItem fromStr ctx) messages).flatMap Message.toolUses =
      messages.flatMap Message.toolUses ++ callIds items := by
  induction items generalizing messages with
  | nil => exact (append_nil _).symm
  | cons item items ih =>
    rw [foldl_cons, ih, toolUses_addItem, append_assoc, ← callIds_append]
    rfl

theorem callIds_outputs {items : List ResponseItem} (ids : List Str) (h : items.map outputId = ids.map some) :
    callIds items = [] := by
  refine filterMap_eq_nil_iff.mpr fun item hitem => ?_
  have hmem : outputId item ∈ ids.map some := h ▸ mem_map_of_mem hitem
  obtain ⟨id, -, hid⟩ := mem_map.mp hmem
  cases item with
  | functionCall | customToolCall => exact absurd hid (by simp [outputId])
  | _ => rfl

theorem callIds_keptItem (h : pendingOutput item = none) : callIds (keptItem item) = [] := by
  have hitem : callIds [item] = [] := by
    rw [callIds_singleton, callId, h]
    rfl
  cases item with
  | localShellCall | functionCallOutput | customToolCallOutput => rfl
  | _ => exact hitem

theorem callIds_regroup : ∀ (items : List ResponseItem) (pending : List (Bool × Str)) {outputs : ToolOutputs},
    outputs.Keyed → callIds (regroup pending items outputs).2 = callIds items
  | [], pending, outputs, hkeyed => by
    have hids := (run_takeOutput_spec hkeyed pending).2
    exact callIds_outputs (pending.map Prod.snd) (hids.trans map_map.symm)
  | item :: items, pending, outputs, hkeyed => by
    unfold regroup
    cases hcall : pendingOutput item with
    | some call =>
      show callIds ([item] ++ (regroup (pending ++ [call]) items outputs).2) = callIds ([item] ++ items)
      rw [callIds_append, callIds_append, callIds_regroup items _ hkeyed]
    | none =>
      obtain ⟨hkeyed', hids⟩ := run_takeOutput_spec hkeyed pending
      show callIds ((run takeOutput pending outputs).2 ++ (keptItem item ++
        (regroup [] items (run takeOutput pending outputs).1).2)) = callIds ([item] ++ items)
      rw [callIds_append, callIds_append, callIds_append, callIds_regroup items [] hkeyed',
        callIds_keptItem hcall, callIds_singleton, callId, hcall,
        callIds_outputs (pending.map Prod.snd) (hids.trans map_map.symm)]
      rfl

end loop

/-! ### Pairs -/

theorem Chained.follows {before after : List Message} (h : Chained messages)
    (hsplit : messages = before ++ message :: after) : Follows before.getLast? message := by
  have hf := checked_iff.mp h before message after hsplit
  rwa [foldl_last, or_none] at hf

theorem Chained.isChain : ∀ {messages : List Message} {previous : Option Message},
    Checked (fun _ message => some message) Follows previous messages →
    messages.IsChain fun a b => a.role ≠ b.role
  | [], _, _ => .nil
  | [_], _, _ => .singleton _
  | a :: b :: rest, _, h => by
    refine isChain_cons_cons.mpr ⟨h.2.1.alternates a rfl, ?_⟩
    exact Chained.isChain h.2

/-- Messages in which no tool use waits for its result, all tool uses having distinct identifiers. -/
theorem Waiting.paired (h : Waiting [] messages)
    (hdistinct : (messages.flatMap Message.toolUses).Nodup) : Paired messages where
  roles := by
    intro message hmem
    obtain ⟨before, after, hsplit⟩ := append_of_mem hmem
    exact (h.chained.follows hsplit).role
  alternate := Chained.isChain h.chained
  nonempty := by
    intro message hmem
    obtain ⟨before, after, hsplit⟩ := append_of_mem hmem
    exact (h.chained.follows hsplit).nonempty
  answered := by
    intro before message after hsplit hrole huses
    cases after with
    | nil =>
      have hlast := h.last
      rw [hsplit, getLast?_concat] at hlast
      exact absurd hlast huses
    | cons next rest =>
      have hnext : Follows (before ++ [message]).getLast? next :=
        h.chained.follows (hsplit.trans (append_assoc before [message] (next :: rest)).symm)
      rw [getLast?_concat] at hnext
      have hne := hnext.alternates message rfl
      rw [hrole] at hne
      refine ⟨next, rest, rfl, hnext.role.resolve_right fun hr => hne hr.symm, fun id hid => ?_⟩
      rw [hnext.results]
      refine count_eq_one_of_mem ?_ hid
      rw [hsplit, flatMap_append, flatMap_cons] at hdistinct
      exact (hdistinct.of_append_right).of_append_left
  asked := by
    intro before message after hsplit id hid
    have hresults := (h.chained.follows hsplit).results
    rw [hresults] at hid
    cases hprev : before.getLast? with
    | none =>
      rw [hprev] at hid
      exact absurd hid (by simp)
    | some previous =>
      rw [hprev] at hid
      obtain ⟨rest, rfl⟩ := getLast?_eq_some_iff.mp hprev
      refine ⟨rest, previous, rfl, ?_, hid⟩
      rw [append_assoc] at hsplit
      exact (h.chained.follows hsplit).uses (ne_nil_of_mem hid)

/-- **The rule of pairs.**  If the calls have distinct identifiers, the messages obey the rule of
pairs, whatever outputs there are and wherever they stand. -/
theorem paired_build (fromStr : Str → Option Value) (ctx : MessageBuildContext) (items : List ResponseItem)
    (hdistinct : (callIds items).Nodup) : Paired (buildAnthropicMessagesFromResponseItems fromStr ctx items) := by
  have hkeyed := keyed_collectOutputs items
  have hempty : Waiting [] [] := ⟨trivial, rfl⟩
  refine (waiting_regroup items [] hkeyed hempty).paired ?_
  rw [toolUses_foldl, callIds_regroup items [] hkeyed]
  exact hdistinct

/-- Two calls in a row, an output out of place and one that is missing. -/
theorem paired_build_twoCalls : Paired (buildAnthropicMessagesFromResponseItems (fun _ => none) ⟨false⟩
    [.functionCall none "f" none [] "a", .customToolCall none none "b" "g" [],
      .message none assistant [.outputText "ok"] none,
      .functionCallOutput "a" (.fromText "1")]) :=
  paired_build _ _ _ (by decide +kernel)

end OpenAgere.AnthropicRequest
