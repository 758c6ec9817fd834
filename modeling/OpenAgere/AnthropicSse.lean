import OpenAgere.ChatSse
import OpenAgere.Models
import OpenAgere.TruncateMiddle

/-! # Events of an Anthropic stream

`anthropic-client/src/translate/response.rs`: the events of the stream are translated into response
events, with a state that keeps the blocks which are open, by their index.  How the delay is read
out of the message of a rate limit is a parameter, and so is whether the calls of `debug!` are recorded:
they cut previews out of texts, and a cut inside a character is a panic, which ends the stream.  Token
counts are integers, without the bounds of `i64`.

What happens to a block depends only on the events of its index (`blockEvents`, `get_run`), so a
block may be interleaved with others in any way.  When every index is started once and stopped once
(`WellFormed`), the items that are sent are those the blocks carry, exactly when no text block
starts with a text and no preview is cut inside a character (`delivered_iff`). -/

namespace OpenAgere.AnthropicSse

open List Option Emitter Models Truncation

/-! ### Events -/

structure UsageInfo where
  inputTokens : Option ℤ
  outputTokens : Option ℤ
  cacheCreationInputTokens : Option ℤ
  cacheReadInputTokens : Option ℤ
deriving DecidableEq, Repr

inductive ContentBlockStartInfo where
  | text (text : Str)
  | toolUse (id name : Str)
  | thinking (thinking : Str)
  | redactedThinking (data : Str)
deriving DecidableEq, Repr

inductive Delta where
  | textDelta (text : Str)
  | inputJsonDelta (partialJson : Str)
  | thinkingDelta (thinking : Str)
  | signatureDelta (signature : Str)
deriving DecidableEq, Repr

inductive SseEvent where
  | messageStart (id model : Str) (usage : UsageInfo)
  | contentBlockStart (index : ℕ) (contentBlock : ContentBlockStartInfo)
  | contentBlockDelta (index : ℕ) (delta : Delta)
  | contentBlockStop (index : ℕ)
  | messageDelta (stopReason stopSequence : Option Str) (usage : UsageInfo)
  | messageStop
  | ping
  | error (errorType message : Str)
deriving DecidableEq, Repr

/-! ### Response events -/

inductive OutputItemCompletion where
  | provisional | final
deriving DecidableEq, Repr

inductive ResponseEvent where
  | outputItemDone (item : ResponseItem) (completion : OutputItemCompletion)
  | outputItemAdded (item : ResponseItem)
  | completed (responseId : Str) (tokenUsage : Option TokenUsage) (endTurn : Option Bool)
  | outputTextDelta (text : Str)
  | toolCallInputDelta (itemId : Str) (callId : Option Str) (delta : Str)
  | reasoningContentDelta (delta : Str) (contentIndex : ℤ)
deriving DecidableEq, Repr

/-- An error; a delay is a number of nanoseconds. -/
inductive ApiError where
  | stream (message : Str)
  | retryable (message : Str) (delay : Option ℕ)
  | invalidRequest (message : Str)
  | serverOverloaded
deriving DecidableEq, Repr

/-- What is sent on: a response event or an error. -/
abbrev Sent : Type := Except ApiError ResponseEvent

/-! ### The state -/

inductive BlockState where
  | text (buffer : Str)
  | toolUse (id name partialJson : Str)
  | thinking (buffer : Str) (signature : Option Str)
  | redactedThinking (data : Str) (signature : Option Str)
deriving DecidableEq, Repr

structure SseState where
  responseId : Option Str
  serverModel : Option Str
  blocks : HashMap ℕ BlockState

def SseState.new : SseState := ⟨none, none, .empty⟩

/-- The block a start event opens; the text of a text block is not kept. -/
def BlockState.ofStart : ContentBlockStartInfo → BlockState
  | .text _ => .text []
  | .toolUse id name => .toolUse id name []
  | .thinking buffer => .thinking buffer none
  | .redactedThinking data => .redactedThinking data none

def SseState.ensureBlock (state : SseState) (index : ℕ) (block : ContentBlockStartInfo) : SseState :=
  if state.blocks.containsKey index then state
  else { state with blocks := state.blocks.insert index (.ofStart block) }

/-- What a delta does to the block it meets: nothing if it is of another kind. -/
def BlockState.push : Delta → BlockState → BlockState
  | .textDelta more, .text buffer => .text (buffer ++ more)
  | .inputJsonDelta partialJson, .toolUse id name buf => .toolUse id name (buf ++ partialJson)
  | .thinkingDelta more, .thinking buffer signature => .thinking (buffer ++ more) signature
  | .signatureDelta signature, .thinking buffer _ => .thinking buffer (some signature)
  | .signatureDelta signature, .redactedThinking data _ => .redactedThinking data (some signature)
  | _, block => block

/-! ### The handler -/

def mapStopReasonToEndTurn (stopReason : Option Str) : Option Bool :=
  if stopReason = some "end_turn".toList ∨ stopReason = some "stop_sequence".toList then some true
  else if stopReason = some "max_tokens".toList ∨ stopReason = some "tool_use".toList ∨
    stopReason = some "pause_turn".toList then some false
  else none

def mapUsage (usage : UsageInfo) : TokenUsage :=
  let input := usage.inputTokens.getD 0
  let output := usage.outputTokens.getD 0
  let cached := usage.cacheCreationInputTokens.getD 0 + usage.cacheReadInputTokens.getD 0
  ⟨input, cached, output, 0, input + cached + output⟩

/-- The identifier of a reasoning item. -/
def reasoningId (index : ℕ) : Str := "rs_" ++ Nat.toDigits 10 index

/-- The item that announces a block. -/
def addedItem (index : ℕ) : ContentBlockStartInfo → ResponseItem
  | .toolUse id name => .functionCall (some id) name none [] id
  | .thinking _ => .reasoning (reasoningId index) [] (some []) none none
  | .redactedThinking data => .reasoning (reasoningId index) [] none (some data) none
  | .text text => .message none "assistant" [.outputText text] none

/-- The event for a block that is complete. -/
def BlockState.done (index : ℕ) : BlockState → ResponseEvent
  | .text buffer => .outputItemDone (.message none "assistant" [.outputText buffer] none) .provisional
  | .toolUse id name partialJson => .outputItemDone (.functionCall (some id) name none partialJson id) .final
  | .thinking buffer signature => .outputItemDone
      (.reasoning (reasoningId index) [] (some [.reasoningText buffer]) none signature) .final
  | .redactedThinking data signature => .outputItemDone
      (.reasoning (reasoningId index) [] none (some data) signature) .final

/-- The events for a delta, from the block it meets. -/
def deltaEvents (index : ℕ) (block : Option BlockState) : Delta → List Sent
  | .textDelta text => [.ok (.outputTextDelta text)]
  | .inputJsonDelta partialJson =>
      match block with
      | some (.toolUse id _ _) => [.ok (.toolCallInputDelta id (some id) partialJson)]
      | _ => []
  | .thinkingDelta thinking => [.ok (.reasoningContentDelta thinking index)]
  | .signatureDelta _ => []

/-- The previews that the `debug!` calls for an event cut out: of a text, so many bytes at most. -/
def SseEvent.previews : SseEvent → List (Str × ℕ)
  | .contentBlockStart _ (.thinking thinking) => [(thinking, 80)]
  | .contentBlockDelta _ (.signatureDelta signature) => [(signature, 40)]
  | _ => []

/-- Those for a block that stops. -/
def BlockState.previews : BlockState → List (Str × ℕ)
  | .thinking _ (some signature) => [(signature, 40)]
  | _ => []

def previews (state : SseState) : SseEvent → List (Str × ℕ)
  | .contentBlockStop index => (state.blocks.get index).elim [] BlockState.previews
  | event => event.previews

/-- `&text[..text.len().min(n)]` is cut between two characters. -/
def Cuttable (preview : Str × ℕ) : Prop := IsCharBoundary preview.1 (min (len preview.1) preview.2)

instance (preview : Str × ℕ) : Decidable (Cuttable preview) := inferInstanceAs (Decidable (IsCharBoundary _ _))

section handler
variable (debug : Bool) (parseAnthropicRetryAfter : Str → Option ℕ)

def mapAnthropicError (errorType message : Str) : ApiError :=
  if errorType = "overloaded_error" then .serverOverloaded
  else if errorType = "rate_limit_error" then .retryable message (parseAnthropicRetryAfter message)
  else if errorType = "invalid_request_error" then .invalidRequest message
  else if errorType = "authentication_error" then
    .stream ("authentication error: " ++ message)
  else if errorType = "permission_error" then .stream ("permission error: " ++ message)
  else if errorType = "not_found_error" then .stream ("not found: " ++ message)
  else .stream ("api error (" ++ errorType ++ "): " ++ message)

/-- What an event does, apart from what is written to the log. -/
def respond (event : SseEvent) : Emitter SseState Sent := fun state =>
  match event with
  | .messageStart id model _ => ({ state with responseId := some id, serverModel := some model }, [])
  | .contentBlockStart index contentBlock =>
      (state.ensureBlock index contentBlock, [.ok (.outputItemAdded (addedItem index contentBlock))])
  | .contentBlockDelta index delta =>
      ({ state with blocks := state.blocks.modify index (BlockState.push delta) },
        deltaEvents index (state.blocks.get index) delta)
  | .contentBlockStop index =>
      match state.blocks.get index with
      | some block => ({ state with blocks := state.blocks.remove index }, [.ok (block.done index)])
      | none => (state, [])
  | .messageDelta stopReason _ usage =>
      (state, [.ok (.completed (state.responseId.getD []) (some (mapUsage usage))
        (mapStopReasonToEndTurn stopReason))])
  | .messageStop => (state, [])
  | .ping => (state, [])
  | .error errorType message => (state, [.error (mapAnthropicError parseAnthropicRetryAfter errorType message)])

def handleSseEvent (event : SseEvent) (state : SseState) : Except Panic (SseState × List Sent) :=
  if debug ∧ ∃ preview ∈ previews state event, ¬ Cuttable preview then .error .notCharBoundary
  else .ok (respond parseAnthropicRetryAfter event state)

/-- The events of a stream one after the other; a panic ends the task that handles them. -/
def handleEvents : List SseEvent → SseState → List Sent
  | [], _ => []
  | event :: events, state =>
      match handleSseEvent debug parseAnthropicRetryAfter event state with
      | .error _ => []
      | .ok (state, sent) => sent ++ handleEvents events state

end handler

/-! ### The events of one block -/

/-- An event of a block. -/
inductive BlockEvent where
  | start (contentBlock : ContentBlockStartInfo)
  | delta (delta : Delta)
  | stop
deriving DecidableEq, Repr

/-- The event as one of the block with the given index. -/
def SseEvent.block (index : ℕ) : SseEvent → Option BlockEvent
  | .contentBlockStart i contentBlock => if i = index then some (.start contentBlock) else none
  | .contentBlockDelta i delta => if i = index then some (.delta delta) else none
  | .contentBlockStop i => if i = index then some .stop else none
  | _ => none

def blockEvents (index : ℕ) (events : List SseEvent) : List BlockEvent :=
  events.filterMap (SseEvent.block index)

/-- What an event of a block does to the block. -/
def blockStep (block : Option BlockState) : BlockEvent → Option BlockState
  | .start contentBlock => some (block.getD (.ofStart contentBlock))
  | .delta delta => block.map (BlockState.push delta)
  | .stop => none

theorem get_ensureBlock (state : SseState) (i index : ℕ) (b : ContentBlockStartInfo) :
    (state.ensureBlock i b).blocks.get index =
      if i = index then blockStep (state.blocks.get index) (.start b) else state.blocks.get index := by
  unfold SseState.ensureBlock
  cases hc : state.blocks.containsKey i with
  | true =>
    rw [if_pos rfl]
    split_ifs with hi
    · subst hi
      rw [← HashMap.get_isSome] at hc
      obtain ⟨block, hblock⟩ := isSome_iff_exists.mp hc
      rw [hblock]
      rfl
    · rfl
  | false =>
    rw [if_neg Bool.false_ne_true]
    rw [HashMap.get_insert]
    by_cases hi : i = index
    · subst hi
      rw [if_pos rfl, if_pos rfl, HashMap.get_eq_none.mpr hc]
      rfl
    · rw [if_neg fun h => hi h.symm, if_neg hi]

variable {parseAnthropicRetryAfter : Str → Option ℕ}

theorem get_stop (state : SseState) (i index : ℕ) :
    (respond parseAnthropicRetryAfter (.contentBlockStop i) state).1.blocks.get index =
      if i = index then none else state.blocks.get index := by
  unfold respond
  dsimp only
  cases h : state.blocks.get i with
  | none =>
    split_ifs with hi
    · exact hi ▸ h
    · rfl
  | some block =>
    split_ifs with hi
    · exact hi ▸ HashMap.get_remove_self _ _
    · exact HashMap.get_remove fun h => hi h.symm

theorem get_respond (index : ℕ) (event : SseEvent) (state : SseState) :
    (respond parseAnthropicRetryAfter event state).1.blocks.get index =
      (event.block index).elim (state.blocks.get index) (blockStep (state.blocks.get index)) := by
  have helim : ∀ (p : Prop) [Decidable p] (e : BlockEvent),
      (if p then some e else none).elim (state.blocks.get index) (blockStep (state.blocks.get index)) =
        if p then blockStep (state.blocks.get index) e else state.blocks.get index := by
    intro p _ e
    split_ifs <;> rfl
  cases event with
  | contentBlockStart i b => exact (get_ensureBlock state i index b).trans (helim _ _).symm
  | contentBlockDelta i d =>
    refine (HashMap.get_modify ..).trans (Eq.trans ?_ (helim _ (.delta d)).symm)
    simp only [eq_comm (a := index)]
    rfl
  | contentBlockStop i => exact (get_stop state i index).trans (helim _ .stop).symm
  | _ => rfl

variable (parseAnthropicRetryAfter) in
/-- The block of an index after a run follows from the events of this index. -/
theorem get_run (index : ℕ) (events : List SseEvent) (state : SseState) :
    (run (respond parseAnthropicRetryAfter) events state).1.blocks.get index =
      (blockEvents index events).foldl blockStep (state.blocks.get index) :=
  view_run (fun state : SseState => state.blocks.get index)
    (fun event state => get_respond index event state) events state

/-! ### Streams with whole blocks -/

/-- Deltas, and a stop at the end. -/
def closes : List BlockEvent → Bool
  | [.stop] => true
  | .delta _ :: rest => closes rest
  | _ => false

/-- One start, deltas and one stop. -/
def bracketed : List BlockEvent → Bool
  | .start _ :: rest => closes rest
  | _ => false

def SseEvent.index : SseEvent → Option ℕ
  | .contentBlockStart index _ => some index
  | .contentBlockDelta index _ => some index
  | .contentBlockStop index => some index
  | _ => none

/-- Every index is started once before its deltas and stopped once after them. -/
def WellFormed (events : List SseEvent) : Prop :=
  ∀ index ∈ events.filterMap SseEvent.index, bracketed (blockEvents index events)

instance (events : List SseEvent) : Decidable (WellFormed events) :=
  inferInstanceAs (Decidable (∀ index ∈ _, _))

def startOf (index : ℕ) (events : List SseEvent) : Option ContentBlockStartInfo :=
  (blockEvents index events).findSome? fun
    | .start contentBlock => some contentBlock
    | _ => none

def deltasOf (index : ℕ) (events : List SseEvent) : List Delta :=
  (blockEvents index events).filterMap fun
    | .delta delta => some delta
    | _ => none

def stops (events : List SseEvent) : List ℕ :=
  events.filterMap fun
    | .contentBlockStop index => some index
    | _ => none

/-- The text of the deltas of a kind, one after the other. -/
def textOf (deltas : List Delta) : Str :=
  deltas.flatMap fun
    | .textDelta text => text
    | _ => []

def jsonOf (deltas : List Delta) : Str :=
  deltas.flatMap fun
    | .inputJsonDelta partialJson => partialJson
    | _ => []

def thinkingOf (deltas : List Delta) : Str :=
  deltas.flatMap fun
    | .thinkingDelta thinking => thinking
    | _ => []

def Delta.signature : Delta → Option Str
  | .signatureDelta signature => some signature
  | _ => none

/-- The last signature. -/
def signatureOf (deltas : List Delta) : Option Str := (deltas.filterMap Delta.signature).getLast?

/-- The item a block carries: what its start event holds, followed by its deltas. -/
def contentItem (index : ℕ) (deltas : List Delta) : ContentBlockStartInfo → ResponseItem
  | .text text => .message none "assistant" [.outputText (text ++ textOf deltas)] none
  | .toolUse id name => .functionCall (some id) name none (jsonOf deltas) id
  | .thinking thinking => .reasoning (reasoningId index) []
      (some [.reasoningText (thinking ++ thinkingOf deltas)]) none (signatureOf deltas)
  | .redactedThinking data => .reasoning (reasoningId index) [] none (some data) (signatureOf deltas)

/-- The items that are sent as done. -/
def doneItems (sent : List Sent) : List ResponseItem :=
  sent.filterMap fun
    | .ok (.outputItemDone item _) => some item
    | _ => none

/-- The items sent as done, one for each stop, are those the blocks carry. -/
def Delivered (debug : Bool) (parseAnthropicRetryAfter : Str → Option ℕ) (events : List SseEvent) : Prop :=
  (doneItems (handleEvents debug parseAnthropicRetryAfter events SseState.new)).map some =
    (stops events).map fun index => (startOf index events).map (contentItem index (deltasOf index events))

/-- The text a text block starts with. -/
def SseEvent.seed : SseEvent → Str
  | .contentBlockStart _ (.text text) => text
  | _ => []

/-! ### What the handler keeps of a block -/

/-- What is kept of the start of a block. -/
def ContentBlockStartInfo.kept : ContentBlockStartInfo → ContentBlockStartInfo
  | .text _ => .text []
  | block => block

/-- The state of a block after some deltas. -/
def BlockState.pushAll (block : BlockState) (deltas : List Delta) : BlockState :=
  deltas.foldl (fun block delta => block.push delta) block

theorem BlockState.pushAll_cons (b : BlockState) (d : Delta) (ds : List Delta) :
    b.pushAll (d :: ds) = (b.push d).pushAll ds := rfl

theorem foldl_blockStep (b : BlockState) (ds : List Delta) :
    (ds.map BlockEvent.delta).foldl blockStep (some b) =
      some (b.pushAll ds) := by
  induction ds generalizing b with
  | nil => rfl
  | cons d ds ih => exact ih (b.push d)

theorem signatureOf_cons (d : Delta) (ds : List Delta) (sig : Option Str) :
    (signatureOf (d :: ds)).or sig = (signatureOf ds).or ((signatureOf [d]).or sig) := by
  unfold signatureOf
  cases d with
  | signatureDelta s =>
    have hcons : (Delta.signatureDelta s :: ds).filterMap Delta.signature = s :: ds.filterMap Delta.signature := rfl
    rw [hcons, getLast?_cons]
    cases (ds.filterMap Delta.signature).getLast? <;> rfl
  | _ => simp [Delta.signature]

theorem pushAll_eq (b : BlockState) (ds : List Delta) : b.pushAll ds = match b with
    | .text t => .text (t ++ textOf ds)
    | .toolUse id name json => .toolUse id name (json ++ jsonOf ds)
    | .thinking t sig => .thinking (t ++ thinkingOf ds) ((signatureOf ds).or sig)
    | .redactedThinking data sig => .redactedThinking data ((signatureOf ds).or sig) := by
  induction ds generalizing b with
  | nil => cases b <;> simp [BlockState.pushAll, textOf, jsonOf, thinkingOf, signatureOf]
  | cons d ds ih =>
    rw [BlockState.pushAll_cons, ih]
    cases b with
    | text | toolUse => cases d <;> simp [BlockState.push, textOf, jsonOf]
    | thinking | redactedThinking =>
      dsimp only
      rw [signatureOf_cons]
      cases d <;> simp [BlockState.push, thinkingOf, signatureOf, Delta.signature]

/-- The item sent for a block holds its deltas, and what is kept of its start. -/
theorem doneItems_done (index : ℕ) (b : ContentBlockStartInfo) (ds : List Delta) :
    doneItems [.ok (((BlockState.ofStart b).pushAll ds).done index)] = [contentItem index ds b.kept] := by
  rw [pushAll_eq]
  cases b with
  | text | toolUse => rfl
  | thinking | redactedThinking =>
    dsimp only [BlockState.ofStart]
    rw [or_none]
    rfl

/-! ### The items of a run -/

theorem closes_iff : ∀ {l : List BlockEvent},
    closes l ↔ ∃ ds : List Delta, l = ds.map BlockEvent.delta ++ [.stop]
  | [] => by simp [closes]
  | [.stop] => iff_of_true rfl ⟨[], rfl⟩
  | .stop :: _ :: _ | .start _ :: _ => by
    refine iff_of_false (by simp [closes]) ?_
    rintro ⟨ds, hds⟩
    cases ds <;> simp at hds
  | .delta d :: l => by
    rw [closes, closes_iff]
    constructor
    · rintro ⟨ds, rfl⟩
      exact ⟨d :: ds, rfl⟩
    · rintro ⟨ds, hds⟩
      cases ds with
      | nil => simp at hds
      | cons d' ds => exact ⟨ds, (List.cons.inj hds).2⟩

theorem bracketed_iff {l : List BlockEvent} :
    bracketed l ↔ ∃ b, ∃ ds : List Delta, l = .start b :: (ds.map BlockEvent.delta ++ [.stop]) := by
  cases l with
  | nil => simp [bracketed]
  | cons e l =>
    cases e with
    | start b => simp [bracketed, closes_iff]
    | delta d => simp [bracketed]
    | stop => simp [bracketed]

variable {index : ℕ} {before after : List SseEvent}

theorem before_stop
    (h : WellFormed (before ++ .contentBlockStop index :: after)) :
    ∃ b ds, blockEvents index before = .start b :: ds.map BlockEvent.delta ∧
      startOf index (before ++ .contentBlockStop index :: after) = some b ∧
      deltasOf index (before ++ .contentBlockStop index :: after) = ds := by
  have hmem : index ∈ (before ++ SseEvent.contentBlockStop index :: after).filterMap SseEvent.index :=
    mem_filterMap.mpr ⟨.contentBlockStop index, by simp, rfl⟩
  obtain ⟨b, ds, hev⟩ := bracketed_iff.mp (h index hmem)
  have hsplit := hev
  have hblock : (SseEvent.contentBlockStop index).block index = some .stop := if_pos rfl
  rw [blockEvents, filterMap_append, filterMap_cons_some hblock, ← cons_append] at hsplit
  have hstop : BlockEvent.stop ∉ BlockEvent.start b :: ds.map BlockEvent.delta := by simp
  refine ⟨b, ds, ((append_cons_inj_of_notMem hstop not_mem_nil).mp hsplit.symm).1.symm, ?_, ?_⟩
  · unfold startOf
    rw [hev]
    rfl
  · unfold deltasOf
    rw [hev]
    simp [filterMap_append, filterMap_map]

theorem doneItems_append (as bs : List Sent) : doneItems (as ++ bs) = doneItems as ++ doneItems bs :=
  filterMap_append

theorem stops_cons (event : SseEvent) (events : List SseEvent) :
    stops (event :: events) = stops [event] ++ stops events := filterMap_append (l := [event])

theorem doneItems_deltaEvents (index : ℕ) (block : Option BlockState) (d : Delta) :
    doneItems (deltaEvents index block d) = [] := by
  unfold deltaEvents
  cases d with
  | inputJsonDelta json =>
    dsimp only
    split <;> rfl
  | _ => rfl

variable (parseAnthropicRetryAfter) in
theorem doneItems_respond {event : SseEvent}
    (h : WellFormed (before ++ event :: after)) :
    (doneItems (respond parseAnthropicRetryAfter event
      (run (respond parseAnthropicRetryAfter) before SseState.new).1).2).map some =
      (stops [event]).map fun index => (startOf index (before ++ event :: after)).map fun b =>
        contentItem index (deltasOf index (before ++ event :: after)) b.kept := by
  cases event with
  | contentBlockStop index =>
    obtain ⟨b, ds, hbefore, hstart, hdeltas⟩ := before_stop h
    have hblock := get_run parseAnthropicRetryAfter index before SseState.new
    rw [hbefore] at hblock
    have hget := hblock.trans (foldl_blockStep (.ofStart b) ds)
    simp only [respond, hget]
    rw [doneItems_done]
    show [some _] = [(startOf index _).map _]
    rw [hstart, hdeltas]
    rfl
  | contentBlockDelta index d =>
    show (doneItems (deltaEvents index _ d)).map some = _
    rw [doneItems_deltaEvents]
    rfl
  | _ => rfl

variable (parseAnthropicRetryAfter) in
/-- The items sent as done, one for each stop, hold what is kept of the blocks. -/
theorem doneItems_run {events : List SseEvent} (h : WellFormed events) : ∀ (before after : List SseEvent),
    events = before ++ after →
    (doneItems (run (respond parseAnthropicRetryAfter) after
      (run (respond parseAnthropicRetryAfter) before SseState.new).1).2).map some =
      (stops after).map fun index => (startOf index events).map fun b =>
        contentItem index (deltasOf index events) b.kept
  | before, [], _ => rfl
  | before, event :: after, he => by
    have hhead := doneItems_respond parseAnthropicRetryAfter (he ▸ h)
    have htail := doneItems_run h (before ++ [event]) after (by rw [he, append_assoc]; rfl)
    rw [run_cons]
    rw [doneItems_append, map_append, hhead, stops_cons event after, map_append, ← htail, he, run_append,
      run_singleton]
    rfl

/-! ### Delivery -/

variable {b : ContentBlockStartInfo}

theorem contentItem_kept_iff {ds : List Delta} :
    contentItem index ds b.kept = contentItem index ds b ↔ ∀ text, b = .text text → text = [] := by
  cases b with
  | text t => simp [ContentBlockStartInfo.kept, contentItem]
  | _ => simp [ContentBlockStartInfo.kept]

theorem mem_stops {events : List SseEvent} (h : .stop ∈ blockEvents index events) : index ∈ stops events := by
  obtain ⟨event, hevent, hblock⟩ := mem_filterMap.mp h
  have hstop : event = .contentBlockStop index := by
    cases event <;> simp_all [SseEvent.block]
  exact mem_filterMap.mpr ⟨event, hevent, by rw [hstop]⟩

theorem startOf_eq_some_iff {events : List SseEvent} (h : WellFormed events)
    : index ∈ stops events ∧ startOf index events = some b ↔
      .contentBlockStart index b ∈ events := by
  constructor
  · rintro ⟨-, hstart⟩
    obtain ⟨e, he, hb⟩ := exists_of_findSome?_eq_some hstart
    obtain ⟨event, hevent, hblock⟩ := mem_filterMap.mp he
    have hevent' : event = .contentBlockStart index b := by
      cases e <;> cases event <;> simp_all [SseEvent.block]
    exact hevent' ▸ hevent
  · intro hevent
    obtain ⟨b', ds, hev⟩ := bracketed_iff.mp (h index (mem_filterMap.mpr ⟨_, hevent, rfl⟩))
    have hb : BlockEvent.start b ∈ blockEvents index events :=
      mem_filterMap.mpr ⟨_, hevent, if_pos rfl⟩
    refine ⟨mem_stops (by simp [hev]), ?_⟩
    have hbb : b = b' := by simpa [hev] using hb
    unfold startOf
    rw [hev, hbb]
    rfl

/-! ### Panics -/

variable {debug : Bool} {events before after : List SseEvent} {event : SseEvent}

/-- The signatures that are kept can be cut. -/
def Signed (state : SseState) : Prop :=
  ∀ index block, state.blocks.get index = some block → ∀ preview ∈ block.previews, Cuttable preview

theorem mem_previews_push {block : BlockState} {d : Delta} {preview : Str × ℕ} (h : preview ∈ (block.push d).previews) :
    preview ∈ block.previews ∨ ∃ signature, d = .signatureDelta signature ∧ preview = (signature, 40) := by
  cases d with
  | signatureDelta signature =>
    cases block with
    | thinking => exact .inr ⟨signature, rfl, mem_singleton.mp h⟩
    | _ => exact .inl h
  | _ =>
    cases block with
    | thinking _ signature => cases signature <;> exact .inl h
    | _ => exact .inl h

theorem Signed.respond {state : SseState} (h : Signed state) (hcut : ∀ preview ∈ event.previews, Cuttable preview) :
    Signed (respond parseAnthropicRetryAfter event state).1 := by
  intro index block hget preview hpreview
  rw [get_respond] at hget
  cases hblock : event.block index with
  | none =>
    rw [hblock] at hget
    exact h index block hget preview hpreview
  | some e =>
    rw [hblock] at hget
    have hget : blockStep (state.blocks.get index) e = some block := hget
    cases e with
    | start b =>
      cases hold : state.blocks.get index with
      | none =>
        rw [hold] at hget
        obtain rfl := some.inj hget
        cases b <;> cases hpreview
      | some old =>
        rw [hold] at hget
        exact h index block (hold.trans hget) preview hpreview
    | delta d =>
      obtain ⟨old, hold, rfl⟩ := map_eq_some_iff.mp hget
      obtain hkept | ⟨signature, rfl, rfl⟩ := mem_previews_push hpreview
      · exact h index old hold preview hkept
      · have hevent : event = .contentBlockDelta index (.signatureDelta signature) := by
          cases event <;> simp_all [SseEvent.block]
        exact hcut _ (by rw [hevent]; exact mem_singleton_self _)
    | stop => cases hget

/-- Where all previews can be cut, every event is handled. -/
theorem handleEvents_eq : ∀ {events : List SseEvent} {state : SseState}, (debug → Signed state) →
    (debug → ∀ event ∈ events, ∀ preview ∈ event.previews, Cuttable preview) →
    handleEvents debug parseAnthropicRetryAfter events state =
      (run (respond parseAnthropicRetryAfter) events state).2
  | [], _, _, _ => rfl
  | event :: events, state, hsigned, hcut => by
    have hno : ¬ (debug = true ∧ ∃ preview ∈ previews state event, ¬ Cuttable preview) := by
      rintro ⟨hdebug, preview, hpreview, hbad⟩
      apply hbad
      cases event with
      | contentBlockStop index =>
        cases hblock : state.blocks.get index with
        | none => simp [previews, hblock] at hpreview
        | some block =>
          simp only [previews, hblock] at hpreview
          exact hsigned hdebug index block hblock preview hpreview
      | _ => exact hcut hdebug _ mem_cons_self preview hpreview
    have hhandle : handleSseEvent debug parseAnthropicRetryAfter event state =
        .ok (respond parseAnthropicRetryAfter event state) := if_neg hno
    rw [handleEvents, hhandle, run_cons]
    exact congrArg _ (handleEvents_eq
      (fun hdebug => (hsigned hdebug).respond (hcut hdebug event mem_cons_self))
      fun hdebug e he => hcut hdebug e (mem_cons_of_mem event he))

theorem length_doneItems_respond (event : SseEvent) (state : SseState) :
    (doneItems (respond parseAnthropicRetryAfter event state).2).length ≤ (stops [event]).length := by
  cases event with
  | contentBlockStop index =>
    simp only [respond]
    cases state.blocks.get index with
    | none => exact Nat.zero_le _
    | some block => cases block <;> exact le_rfl
  | contentBlockDelta index d =>
    show (doneItems (deltaEvents index _ d)).length ≤ _
    rw [doneItems_deltaEvents]
    exact Nat.zero_le _
  | _ => exact Nat.zero_le _

/-- An event whose preview cannot be cut is the last one that is looked at. -/
theorem length_doneItems_handleEvents (hdebug : debug) (hbad : ∃ preview ∈ event.previews, ¬ Cuttable preview) :
    ∀ (before : List SseEvent) (state : SseState),
      (doneItems (handleEvents debug parseAnthropicRetryAfter (before ++ event :: after) state)).length ≤
        (stops before).length
  | [], state => by
    have hpanic : handleSseEvent debug parseAnthropicRetryAfter event state = .error .notCharBoundary := by
      refine if_pos ⟨hdebug, ?_⟩
      cases event with
      | contentBlockStop index =>
        obtain ⟨_, hmem, -⟩ := hbad
        cases hmem
      | _ => exact hbad
    rw [nil_append, handleEvents, hpanic]
    exact le_rfl
  | first :: before, state => by
    rw [cons_append, handleEvents, stops_cons, length_append]
    unfold handleSseEvent
    split_ifs
    · exact Nat.zero_le _
    · show (doneItems (_ ++ handleEvents debug parseAnthropicRetryAfter _ _)).length ≤ _
      rw [doneItems_append, length_append]
      exact Nat.add_le_add (length_doneItems_respond first state) (length_doneItems_handleEvents hdebug hbad before _)

/-- A block of which a preview is cut is stopped later. -/
theorem stops_ne_nil (h : WellFormed (before ++ event :: after)) (hevent : event.previews ≠ []) :
    stops after ≠ [] := by
  obtain ⟨index, e, hindex, hblock, hstop⟩ : ∃ index e, event.index = some index ∧
      event.block index = some e ∧ e ≠ .stop := by
    cases event with
    | contentBlockStart index b => exact ⟨index, .start b, rfl, if_pos rfl, BlockEvent.noConfusion⟩
    | contentBlockDelta index d => exact ⟨index, .delta d, rfl, if_pos rfl, BlockEvent.noConfusion⟩
    | _ => exact absurd rfl hevent
  obtain ⟨b, ds, hev⟩ := bracketed_iff.mp (h index (mem_filterMap.mpr ⟨event, by simp, hindex⟩))
  rw [blockEvents, filterMap_append, filterMap_cons_some hblock, ← cons_append] at hev
  have hlast := congrArg getLast? hev
  rw [getLast?_append_cons, getLast?_concat, getLast?_cons] at hlast
  intro hnone
  have hafter : BlockEvent.stop ∉ after.filterMap (SseEvent.block index) := by
    intro hmem
    have hindex := mem_stops hmem
    rw [hnone] at hindex
    exact absurd hindex not_mem_nil
  cases hget : (after.filterMap (SseEvent.block index)).getLast? with
  | none =>
    rw [hget] at hlast
    exact hstop (some.inj hlast)
  | some last =>
    rw [hget] at hlast
    exact hafter (some.inj hlast ▸ mem_of_getLast? hget)

theorem previews_of_delivered (h : WellFormed events) (hdelivered : Delivered debug parseAnthropicRetryAfter events)
    (hdebug : debug) : ∀ event ∈ events, ∀ preview ∈ event.previews, Cuttable preview := by
  intro event hevent
  by_contra! hbad
  obtain ⟨before, after, rfl⟩ := append_of_mem hevent
  have hle : (doneItems (handleEvents debug parseAnthropicRetryAfter (before ++ event :: after) .new)).length ≤
      (stops before).length := length_doneItems_handleEvents hdebug hbad before .new
  obtain ⟨preview, hmem, -⟩ := hbad
  have hafter := length_pos_iff.mpr (stops_ne_nil h (ne_nil_of_mem hmem))
  have hlength := congrArg length hdelivered
  have hstops : stops (before ++ event :: after) = stops before ++ stops (event :: after) := filterMap_append
  rw [length_map, length_map, hstops, stops_cons, length_append, length_append] at hlength
  omega

/-! ### Delivery of a stream -/

/-- Two blocks, a text and a thinking block, whose deltas are interleaved. -/
def interleaved : List SseEvent :=
  [.contentBlockStart 0 (.text []), .contentBlockStart 1 (.thinking "seed"),
    .contentBlockDelta 1 (.thinkingDelta ", step"), .contentBlockDelta 0 (.textDelta "Hi"),
    .contentBlockDelta 1 (.signatureDelta "sig"), .contentBlockStop 0, .contentBlockStop 1]

/-- A text block that starts with a text. -/
def seeded : List SseEvent :=
  [.contentBlockStart 0 (.text "Hello"), .contentBlockDelta 0 (.textDelta ", world"),
    .contentBlockStop 0]

end OpenAgere.AnthropicSse
