import OpenAgere.Json
import OpenAgere.Models

/-! # The stream of the Responses API

`agere-api/src/sse/responses.rs`: the events of a stream are turned into events for the client until the response is
completed or the stream ends.  A failure that the server reports is remembered and the loop goes on.

What `serde_json`, the pattern for delays and `chrono` read is a parameter, and the receiver stays open.  The item that
ends the stream is always the last one and the only one of its kind (`processSse_eq`), but it is the one for the first
verdict of the server only under the condition of `reports_iff`: a failure is forgotten when the stream breaks off or
times out, and replaced by a later failure or a later success. -/

namespace OpenAgere.ResponsesSse

open List Option

open Models (TokenUsage)

open scoped Str

/-! ### Events -/

structure ResponsesStreamEvent where
  kind : Str
  headers : Option Json
  metadata : Option Json
  response : Option Json
  item : Option Json
  itemId : Option Str
  callId : Option Str
  delta : Option Str
  summaryIndex : Option ℤ
  contentIndex : Option ℤ

/-- The fields of an error that are looked at. -/
structure Error where
  code : Option Str
  message : Option Str
  resetsAt : Option ℤ

structure ResponseCompletedUsage where
  inputTokens : ℤ
  cachedTokens : Option ℤ
  outputTokens : ℤ
  reasoningTokens : Option ℤ
  totalTokens : ℤ

def ResponseCompletedUsage.into (val : ResponseCompletedUsage) : TokenUsage :=
  ⟨val.inputTokens, val.cachedTokens.getD 0, val.outputTokens, val.reasoningTokens.getD 0, val.totalTokens⟩

structure ResponseCompleted where
  id : Str
  usage : Option ResponseCompletedUsage
  endTurn : Option Bool

inductive ModelVerification where
  | trustedAccessForCyber
deriving DecidableEq

inductive ApiError where
  | stream (message : Str)
  | contextWindowExceeded
  | quotaExceeded
  | usageNotIncluded
  | retryable (message : Str) (delay : Option ℕ)
  | rateLimited (status : ℕ) (message : Str) (retryAfter : Option ℕ) (resetsAt : Option ℤ) (requestId : Option Str)
  | invalidRequest (message : Str)
  | cyberPolicy (message : Str)
  | serverOverloaded
deriving DecidableEq

inductive ResponseEvent (ι : Type) where
  | created
  | outputItemDone (item : ι)
  | outputItemAdded (item : ι)
  | serverModel (model : Str)
  | modelVerifications (verifications : List ModelVerification)
  | completed (responseId : Str) (tokenUsage : Option TokenUsage) (endTurn : Option Bool)
  | outputTextDelta (delta : Str)
  | toolCallInputDelta (itemId : Str) (callId : Option Str) (delta : Str)
  | reasoningSummaryDelta (delta : Str) (summaryIndex : ℤ)
  | reasoningContentDelta (delta : Str) (contentIndex : ℤ)
  | reasoningSummaryPartAdded (summaryIndex : ℤ)
deriving DecidableEq

def ResponseEvent.isCompleted {ι : Type} : ResponseEvent ι → Bool
  | .completed .. => true
  | _ => false

/-- What the libraries read. -/
structure Serde (ι : Type) where
  event : Str → Option ResponsesStreamEvent
  responseItem : Json → Option ι
  error : Json → Option Error
  completed : Json → Except Str ResponseCompleted
  /-- the delay that a message asks for -/
  retryAfter : Str → Option ℕ
  /-- the timestamps that `DateTime::from_timestamp` accepts -/
  isTimestamp : ℤ → Bool

def jsonValueAsString : Json → Option Str
  | .string value => some value
  | .array (item :: _) => jsonValueAsString item
  | _ => none

def headerOpenaiModelValueFromJson : Json → Option Str
  | .object headers => headers.findSome? fun (name, value) =>
      if name.map Char.toLower ∈ ["openai-model".toList, "x-openai-model".toList] then jsonValueAsString value else none
  | _ => none

def parseModelVerification (value : Str) : Option ModelVerification :=
  if value = "trusted_access_for_cyber" then some .trustedAccessForCyber else none

def modelVerificationsFromJsonValue (value : Json) : Option (List ModelVerification) :=
  let verifications := (value.asArray.getD []).filterMap fun item => item.asStr.bind parseModelVerification
  match verifications.foldl (fun kept v => if kept.contains v then kept else kept ++ [v]) [] with
  | [] => none
  | kept => some kept

namespace ResponsesStreamEvent

def responseModel (event : ResponsesStreamEvent) : Option Str :=
  ((event.response.bind (·.get "headers")).bind headerOpenaiModelValueFromJson).or
    (event.headers.bind headerOpenaiModelValueFromJson)

def modelVerifications (event : ResponsesStreamEvent) : Option (List ModelVerification) :=
  if event.kind ≠ "response.metadata" then none
  else (event.metadata.bind (·.get "openai_verification_recommendation")).bind modelVerificationsFromJsonValue

end ResponsesStreamEvent

variable {ι : Type} (serde : Serde ι)

def tryParseRetryAfter (err : Error) : Option ℕ :=
  if err.code ≠ some "rate_limit_exceeded".toList then none else err.message.bind serde.retryAfter

def cyberPolicyMessage (message : Option Str) : Str :=
  (message.filter fun message => !(Text.trim message).isEmpty).getD
    "This request has been flagged for possible cybersecurity risk."

/-- The error of `response.failed`, by the code that the server gives. -/
def errorOf (error : Error) : ApiError :=
  if error.code = some "context_length_exceeded".toList then .contextWindowExceeded
  else if error.code = some "insufficient_quota".toList then .quotaExceeded
  else if error.code = some "usage_not_included".toList then .usageNotIncluded
  else if error.code = some "cyber_policy".toList then .cyberPolicy (cyberPolicyMessage error.message)
  else if error.code = some "invalid_prompt".toList then
    .invalidRequest (error.message.getD "Invalid request.".toList)
  else if error.code = some "server_is_overloaded".toList ∨ error.code = some "slow_down".toList then .serverOverloaded
  else if error.code = some "rate_limit_exceeded".toList then
    .rateLimited 429 (error.message.getD "rate limited".toList) (tryParseRetryAfter serde error)
      (error.resetsAt.filter serde.isTimestamp) none
  else .retryable (error.message.getD []) (tryParseRetryAfter serde error)

def failedError (response : Option Json) : ApiError :=
  (((response.bind (·.get "error")).bind serde.error).map (errorOf serde)).getD
    (.stream "response.failed event received")

def incompleteError (response : Option Json) : ApiError :=
  let reason := ((response.bind (·.get "incomplete_details")).bind (·.get "reason")).bind Json.asStr
  .stream ("Incomplete response returned, reason: " ++ reason.getD "unknown")

/-- A message that is added without content gets an empty one. -/
def withContent (item : Json) : Json :=
  if (item.get "type".toList).bind Json.asStr = some "message".toList ∧ (item.get "content".toList).isNone then
    item.insert "content".toList (.array [])
  else item

def processResponsesEvent (event : ResponsesStreamEvent) : Except ApiError (Option (ResponseEvent ι)) :=
  if event.kind = "response.output_item.done" then
    .ok ((event.item.bind serde.responseItem).map .outputItemDone)
  else if event.kind = "response.output_text.delta" then .ok (event.delta.map .outputTextDelta)
  else if event.kind = "response.custom_tool_call_input.delta" then
    .ok (event.delta.bind fun delta => (event.itemId.or event.callId).map fun itemId =>
      .toolCallInputDelta itemId event.callId delta)
  else if event.kind = "response.reasoning_summary_text.delta" then
    .ok (event.delta.bind fun delta => event.summaryIndex.map (.reasoningSummaryDelta delta))
  else if event.kind = "response.reasoning_text.delta" then
    .ok (event.delta.bind fun delta => event.contentIndex.map (.reasoningContentDelta delta))
  else if event.kind = "response.created" then .ok (event.response.map fun _ => .created)
  else if event.kind = "response.failed" then .error (failedError serde event.response)
  else if event.kind = "response.incomplete" then .error (incompleteError event.response)
  else if event.kind = "response.completed" then
    match event.response with
    | none => .ok none
    | some response =>
        match serde.completed response with
        | .ok resp => .ok (some (.completed resp.id (resp.usage.map ResponseCompletedUsage.into) resp.endTurn))
        | .error err => .error (.stream ("failed to parse ResponseCompleted: " ++ err))
  else if event.kind = "response.output_item.added" then
    .ok ((event.item.bind fun item => serde.responseItem (withContent item)).map .outputItemAdded)
  else if event.kind = "response.reasoning_summary_part.added" then
    .ok (event.summaryIndex.map .reasoningSummaryPartAdded)
  else .ok none

/-! ### The loop -/

/-- How a stream ends: it is closed, it breaks off with an error, or nothing comes in time. -/
inductive Ending where
  | closed
  | transportError (message : Str)
  | idleTimeout

def Ending.error : Ending → ApiError
  | .closed => .stream "stream closed before response.completed"
  | .transportError message => .stream message
  | .idleTimeout => .stream "idle timeout waiting for SSE"

/-- The error that is sent at the end, with the failure that is remembered. -/
def Ending.report : Ending → Option ApiError → ApiError
  | .closed, responseError => responseError.getD Ending.closed.error
  | ending, _ => ending.error

abbrev Sent (ι : Type) := Except ApiError (ResponseEvent ι)

/-- What is sent about an event before it is processed, and the model that was sent last. -/
def announce (event : ResponsesStreamEvent) (lastServerModel : Option Str) : List (Sent ι) × Option Str :=
  let verifications := event.modelVerifications.toList.map fun v => .ok (.modelVerifications v)
  match event.responseModel with
  | some model =>
      if lastServerModel ≠ some model then (.ok (.serverModel model) :: verifications, some model)
      else (verifications, lastServerModel)
  | none => (verifications, lastServerModel)

/-- What the loop sends for the data of the events that arrive before the stream ends. -/
def processSse (ending : Ending) : Option ApiError → Option Str → List Str → List (Sent ι)
  | responseError, _, [] => [.error (ending.report responseError)]
  | responseError, lastServerModel, data :: events =>
      match serde.event data with
      | none => processSse ending responseError lastServerModel events
      | some event =>
          let (announced, lastServerModel) := announce event lastServerModel
          announced ++ match processResponsesEvent serde event with
            | .ok (some event) =>
                .ok event :: if event.isCompleted then [] else processSse ending responseError lastServerModel events
            | .ok none => processSse ending responseError lastServerModel events
            | .error error => processSse ending (some error) lastServerModel events

/-! ### Verdicts -/

def verdictKinds : List Str := ["response.failed", "response.incomplete", "response.completed"]

/-- What a `response.failed`, `response.incomplete` or `response.completed` event says about the response: it is
completed, or the error that is derived from the event. -/
def verdictOf (event : ResponsesStreamEvent) : Option (Sent ι) :=
  if event.kind ∈ verdictKinds then
    match processResponsesEvent serde event with
    | .ok event => event.map .ok
    | .error error => some (.error error)
  else none

def verdict (data : Str) : Option (Sent ι) := (serde.event data).bind (verdictOf serde)

/-- The items that end a stream. -/
def isTerminal : Sent ι → Bool
  | .ok event => event.isCompleted
  | .error _ => true

/-- The item that should end the stream: the first verdict, or the error of the way it ended. -/
def expected (ending : Ending) (events : List Str) : Sent ι :=
  (events.filterMap (verdict serde)).head?.getD (.error ending.error)

/-- One terminal item is sent, it is the last one, and it is the one that should be. -/
def Reports (ending : Ending) (events : List Str) (sent : List (Sent ι)) : Prop :=
  ∃ before, sent = before ++ [expected serde ending events] ∧ isTerminal (expected serde ending events) ∧
    ∀ item ∈ before, isTerminal item = false

/-- A failure that comes first is not followed by a completed response, and the stream ends with its error: it is
closed and the last failure has that error too, or it breaks off or times out and that error is the same. -/
def Kept (ending : Ending) (events : List Str) : Prop :=
  ∀ error rest, events.filterMap (verdict serde) = .error error :: rest →
    ∃ errors : List ApiError, rest = errors.map .error ∧
      match ending with
      | .closed => errors.getLastD error = error
      | .transportError message => ApiError.stream message = error
      | .idleTimeout => ApiError.stream "idle timeout waiting for SSE" = error

variable {serde} {event : ResponsesStreamEvent} {ending : Ending}

theorem isTerminal_announce {lastServerModel : Option Str} {item : Sent ι}
    (h : item ∈ (announce event lastServerModel).1) : isTerminal item = false := by
  unfold announce at h
  split at h
  · split_ifs at h
    all_goals simp at h
    · obtain rfl | ⟨v, -, rfl⟩ := h <;> rfl
    · obtain ⟨v, -, rfl⟩ := h
      rfl
  · simp at h
    obtain ⟨v, -, rfl⟩ := h
    rfl

theorem processResponsesEvent_other (h : event.kind ∉ verdictKinds) :
    ∃ sent, processResponsesEvent serde event = .ok sent ∧ ∀ e ∈ sent, e.isCompleted = false := by
  simp only [verdictKinds, mem_cons, not_mem_nil, or_false, not_or] at h
  obtain ⟨hfailed, hincomplete, hcompleted⟩ := h
  unfold processResponsesEvent
  rw [if_neg hfailed, if_neg hincomplete, if_neg hcompleted]
  split_ifs
  all_goals
    refine ⟨_, rfl, fun e he => ?_⟩
    simp only [Option.mem_def, map_eq_some_iff, bind_eq_some_iff, reduceCtorEq] at he
  all_goals first
    | (obtain ⟨_, _, rfl⟩ := he; rfl)
    | (obtain ⟨_, _, _, _, rfl⟩ := he; rfl)

theorem isCompleted_of_verdict {sent : ResponseEvent ι} (h : event.kind ∈ verdictKinds)
    (hsent : processResponsesEvent serde event = .ok (some sent)) : sent.isCompleted := by
  simp only [verdictKinds, mem_cons, not_mem_nil, or_false] at h
  unfold processResponsesEvent at hsent
  obtain hkind | hkind | hkind := h <;> rw [hkind] at hsent <;> simp at hsent
  split at hsent
  · cases hsent
  · split at hsent
    · cases hsent
      rfl
    · cases hsent

/-- What ends the stream, from the verdicts. -/
def outcome (ending : Ending) : Option ApiError → List (Sent ι) → Sent ι
  | responseError, [] => .error (ending.report responseError)
  | _, .ok event :: _ => .ok event
  | _, .error error :: verdicts => outcome ending (some error) verdicts

theorem isTerminal_verdict {data : Str} {sent : Sent ι} (h : verdict serde data = some sent) :
    isTerminal sent := by
  obtain ⟨event, -, h⟩ := bind_eq_some_iff.mp h
  unfold verdictOf at h
  split_ifs at h with hkind
  split at h
  · next sent' hsent =>
    obtain ⟨event', rfl, rfl⟩ := map_eq_some_iff.mp h
    exact isCompleted_of_verdict hkind hsent
  · cases h
    rfl

/-- **The terminal item is the last one and the only one.** -/
theorem processSse_eq (serde : Serde ι) (ending : Ending) : ∀ (events : List Str) (responseError : Option ApiError)
    (lastServerModel : Option Str), ∃ before,
      processSse serde ending responseError lastServerModel events =
        before ++ [outcome ending responseError (events.filterMap (verdict serde))] ∧
      ∀ item ∈ before, isTerminal item = false
  | [], _, _ => ⟨[], rfl, fun _ h => by cases h⟩
  | data :: events, responseError, lastServerModel => by
    have ih := processSse_eq serde ending events
    rw [processSse]
    cases hevent : serde.event data with
    | none =>
      have hverdict : verdict serde data = none := by rw [verdict, hevent]; rfl
      rw [filterMap_cons_none hverdict]
      exact ih responseError lastServerModel
    | some event =>
      have hannounced : ∀ item ∈ (announce event lastServerModel).1, @isTerminal ι item = false :=
        fun item => isTerminal_announce
      -- what the rest of the loop sends, behind what was announced and sent for this event
      have hrest : ∀ (sent : List (Sent ι)) (held : Option ApiError), (∀ item ∈ sent, isTerminal item = false) →
          ∃ before, (announce event lastServerModel).1 ++ (sent ++
              processSse serde ending held (@announce ι event lastServerModel).2 events) =
            before ++ [outcome ending held (events.filterMap (verdict serde))] ∧
            ∀ item ∈ before, isTerminal item = false := by
        intro sent held hsent
        obtain ⟨before, heq, hbefore⟩ := ih held (@announce ι event lastServerModel).2
        refine ⟨(announce event lastServerModel).1 ++ (sent ++ before), by rw [heq]; simp, fun item hitem => ?_⟩
        simp only [mem_append] at hitem
        obtain hitem | hitem | hitem := hitem
        · exact hannounced item hitem
        · exact hsent item hitem
        · exact hbefore item hitem
      have hverdict : verdict serde data = verdictOf serde event := by rw [verdict, hevent]; rfl
      unfold verdictOf at hverdict
      by_cases hkind : event.kind ∈ verdictKinds
      · rw [if_pos hkind] at hverdict
        cases hprocess : processResponsesEvent serde event with
        | error error =>
          rw [hprocess] at hverdict
          rw [filterMap_cons_some hverdict]
          simpa [hprocess, outcome] using hrest [] (some error) (by simp)
        | ok sent =>
          rw [hprocess] at hverdict
          cases sent with
          | none =>
            rw [filterMap_cons_none hverdict]
            simpa [hprocess] using hrest [] responseError (by simp)
          | some sent =>
            have hcompleted := isCompleted_of_verdict hkind hprocess
            rw [filterMap_cons_some hverdict]
            refine ⟨(announce event lastServerModel).1, ?_, hannounced⟩
            simp [hprocess, outcome, hcompleted]
      · rw [if_neg hkind] at hverdict
        obtain ⟨sent, hprocess, hsent⟩ := @processResponsesEvent_other ι serde event hkind
        rw [filterMap_cons_none hverdict]
        cases sent with
        | none => simpa [hprocess] using hrest [] responseError (by simp)
        | some sent =>
          have hcompleted := hsent sent rfl
          simpa [hprocess, hcompleted] using hrest [.ok sent] responseError (by simpa [isTerminal])

/-- A failure that is remembered ends the stream with its error exactly if only failures follow and the way the
stream ends reports that error. -/
theorem outcome_eq_error_iff {error held : ApiError} {verdicts : List (Sent ι)} :
    outcome ending (some held) verdicts = .error error ↔
      ∃ errors : List ApiError, verdicts = errors.map .error ∧ ending.report (some (errors.getLastD held)) = error := by
  induction verdicts generalizing held with
  | nil => simp [outcome]
  | cons first verdicts ih =>
    cases first with
    | ok event =>
      refine iff_of_false (fun h => by cases h) ?_
      rintro ⟨errors, hmap, -⟩
      obtain ⟨_, _, -, he, -⟩ := map_eq_cons_iff.mp hmap.symm
      cases he
    | error e =>
      rw [outcome, ih]
      constructor
      · rintro ⟨errors, rfl, hreport⟩
        exact ⟨e :: errors, rfl, by rwa [getLastD_cons]⟩
      · rintro ⟨errors, hmap, hreport⟩
        obtain ⟨e', rest, rfl, he, rfl⟩ := map_eq_cons_iff.mp hmap.symm
        cases he
        exact ⟨rest, rfl, by rwa [getLastD_cons] at hreport⟩

/-- The terminal item is the one that should be exactly if a first failure is kept. -/
theorem outcome_eq_expected_iff (serde : Serde ι) (ending : Ending) (events : List Str) :
    outcome ending none (events.filterMap (verdict serde)) = expected serde ending events ↔
      Kept serde ending events := by
  unfold expected Kept
  cases events.filterMap (verdict serde) with
  | nil =>
    refine iff_of_true ?_ (fun _ _ h => by cases h)
    cases ending <;> rfl
  | cons first rest =>
    cases first with
    | ok event => exact iff_of_true rfl (fun _ _ h => by cases h)
    | error error =>
      refine outcome_eq_error_iff.trans ⟨fun h error' rest' heq => ?_, fun h => ?_⟩
      · cases heq
        cases ending <;> exact h
      · cases ending <;> exact h error rest rfl

/-- **One terminal item, for the first verdict of the server**, exactly if a failure that comes first is kept. -/
theorem reports_iff (serde : Serde ι) (ending : Ending) (events : List Str) :
    Reports serde ending events (processSse serde ending none none events) ↔ Kept serde ending events := by
  obtain ⟨before, heq, hbefore⟩ := processSse_eq serde ending events none none
  rw [← outcome_eq_expected_iff, heq]
  constructor
  · rintro ⟨before', hsent, -, -⟩
    have hlast := congrArg List.getLast? hsent
    rw [getLast?_concat, getLast?_concat] at hlast
    exact some.inj hlast
  · intro houtcome
    refine ⟨before, by rw [houtcome], ?_, hbefore⟩
    unfold expected
    cases hverdicts : events.filterMap (verdict serde) with
    | nil => rfl
    | cons first rest =>
      have hmem : first ∈ events.filterMap (verdict serde) := by
        rw [hverdicts]
        exact mem_cons_self
      obtain ⟨data, -, hdata⟩ := mem_filterMap.mp hmem
      exact isTerminal_verdict hdata

/-- An event with a response. -/
def responseEvent (kind : String) (response : Json) : ResponsesStreamEvent :=
  ⟨kind.toList, none, none, some response, none, none, none, none, none, none⟩

/-- Two texts: a response that failed because the quota is used up, and one that is completed. -/
def quotaSerde : Serde Unit where
  event data :=
    if data = "failed" then
      let error := .object [("code", .string "insufficient_quota")]
      some (responseEvent "response.failed" (.object [("error", error)]))
    else if data = "completed" then
      some (responseEvent "response.completed" (.object [("id", .string "r")]))
    else none
  responseItem _ := none
  error json := some ⟨(json.get "code").bind Json.asStr, none, none⟩
  completed json := match (json.get "id").bind Json.asStr with
    | some id => .ok ⟨id, none, none⟩
    | none => .error "missing field"
  retryAfter _ := none
  isTimestamp _ := true

/-- The quota is used up and the connection breaks off: a stream error is sent.  A completed response that follows
the failure is sent as a success. -/
theorem not_reports_quotaExceeded :
    expected quotaSerde (.transportError "reset") ["failed"] = .error .quotaExceeded ∧
    processSse quotaSerde (.transportError "reset") none none ["failed"] =
      [.error (.stream "reset")] ∧
    processSse quotaSerde .idleTimeout none none ["failed"] =
      [.error (.stream "idle timeout waiting for SSE")] ∧
    processSse quotaSerde .closed none none ["failed", "completed"] =
      [.ok (.completed "r" none none)] ∧
    ¬ Reports quotaSerde (.transportError "reset") ["failed"]
      (processSse quotaSerde (.transportError "reset") none none ["failed"]) := by
  refine ⟨rfl, rfl, rfl, rfl, ?_⟩
  rintro ⟨before, heq, -, -⟩
  have hlast := congrArg List.getLast? heq
  rw [getLast?_concat] at hlast
  cases hlast

end OpenAgere.ResponsesSse
