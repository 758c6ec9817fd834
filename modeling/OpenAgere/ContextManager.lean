import OpenAgere.Emitter
import OpenAgere.Normalize
import OpenAgere.Rollout

/-! # The history of a conversation

`core/src/context_manager/history.rs`: the items of the conversation, with a version that is bumped
when they are rewritten, and a baseline for the next turn.  Which messages hold context rather than
the words of a user is decided as in `event_mapping.rs` and `context/`; the XML and the JSON parser
are parameters (`Parsers`), and so is how the output of a tool is truncated.

Whoever remembers a version and a length of the history relies on the version to tell whether the
history has only grown since.  This holds of a run of operations exactly when no operation of it
removes the first item of a history (`detectsRewrites_iff`).  Removing items at the ends keeps calls and outputs in
pairs (`paired_run_removals`). -/

namespace OpenAgere

open List Models Normalize Rollout Text

/-- The parsers of other libraries. -/
structure Parsers where
  /-- The text and the run of a hook prompt, from its XML. -/
  fromXmlStr : Str → Option (Str × Str)
  /-- The text is the JSON of an instruction of another agent. -/
  isInterAgentCommunication : Str → Bool

/-! ### Contextual messages -/

def startsWithIgnoreAsciiCase (marker text : Str) : Bool := eqIgnoreAsciiCase (text.take marker.length) marker

def endsWithIgnoreAsciiCase (marker text : Str) : Bool :=
  eqIgnoreAsciiCase (text.drop (text.length - marker.length)) marker

def developer : Str := "developer"

def user : Str := "user"

def assistant : Str := "assistant"

/-- Where a fragment of context starts and where it ends. -/
structure FragmentMarkers where
  start : Str
  stop : Str

def FragmentMarkers.matchesText (markers : FragmentMarkers) (text : Str) : Bool :=
  !markers.start.isEmpty && !markers.stop.isEmpty &&
    startsWithIgnoreAsciiCase markers.start (trimStart text) &&
    endsWithIgnoreAsciiCase markers.stop (trimEnd (trimStart text))

def contextualUserFragments : List FragmentMarkers :=
  [⟨"# AGENTS.md instructions for ", "</INSTRUCTIONS>"⟩,
    ⟨"<environment_context>", "</environment_context>"⟩,
    ⟨"<skill>", "</skill>"⟩,
    ⟨"<user_shell_command>", "</user_shell_command>"⟩,
    ⟨"<turn_aborted>", "</turn_aborted>"⟩,
    ⟨"<subagent_notification>", "</subagent_notification>"⟩]

def contextualDeveloperPrefixes : List Str :=
  ["<permissions instructions>", "<model_switch>", "<collaboration_mode>",
    "<realtime_conversation>", "<personality_spec>"]

structure HookPromptFragment where
  text : Str
  hookRunId : Str
deriving DecidableEq, Repr

def isContextualDevFragment : ContentItem → Bool
  | .inputText text => contextualDeveloperPrefixes.any fun marker => startsWithIgnoreAsciiCase marker (trimStart text)
  | _ => false

def isContextualDevMessageContent (message : List ContentItem) : Bool := message.any isContextualDevFragment

def hasNonContextualDevMessageContent (message : List ContentItem) : Bool :=
  message.any fun content => !isContextualDevFragment content

section messages
variable (P : Parsers)

def parseHookPromptFragment (text : Str) : Option HookPromptFragment :=
  match P.fromXmlStr (trim text) with
  | some (text, hookRunId) => if isBlank hookRunId then none else some ⟨text, hookRunId⟩
  | none => none

def isContextualUserFragment : ContentItem → Bool
  | .inputText text =>
      (parseHookPromptFragment P text).isSome || contextualUserFragments.any fun markers => markers.matchesText text
  | _ => false

def isContextualUserMessageContent (message : List ContentItem) : Bool := message.any (isContextualUserFragment P)

def isInterAgentInstructionContent : List ContentItem → Bool
  | [.inputText text] => P.isInterAgentCommunication text
  | [.outputText text] => P.isInterAgentCommunication text
  | _ => false

/-- The item starts a turn: the words of a user, or the instruction of another agent. -/
def isUserTurnBoundary : ResponseItem → Bool
  | .message _ role content _ =>
      (role = user && !isContextualUserMessageContent P content) ||
        (role = assistant && isInterAgentInstructionContent P content)
  | _ => false

/-- The item holds context for the turn behind it. -/
def isPreTurnContext : ResponseItem → Bool
  | .message _ role content _ =>
      (role = developer && isContextualDevMessageContent content) ||
        (role = user && isContextualUserMessageContent P content)
  | _ => false

/-- The item mixes context with a text of the developer that is there to stay. -/
def isMixedContext : ResponseItem → Bool
  | .message _ role content _ =>
      role = developer && isContextualDevMessageContent content && hasNonContextualDevMessageContent content
  | _ => false

def userMessagePositions (items : List ResponseItem) : List ℕ :=
  items.zipIdx.filterMap fun entry => if isUserTurnBoundary P entry.1 then some entry.2 else none

end messages

def isApiMessage : ResponseItem → Bool
  | .message _ role _ _ => role ≠ "system"
  | .other => false
  | _ => true

/-! ### The history -/

structure ContextManager where
  items : List ResponseItem
  historyVersion : ℕ
  referenceContextItem : Option TurnContextItem
deriving DecidableEq, Repr

/-- How a policy cuts the output of a tool. -/
abbrev Truncate := TruncationPolicy → FunctionCallOutputPayload → FunctionCallOutputPayload

namespace ContextManager

def new : ContextManager := ⟨[], 0, none⟩

/-- The greatest version; from there it is no longer bumped. -/
def maxVersion : ℕ := 2 ^ 64 - 1

def bump (version : ℕ) : ℕ := min (version + 1) maxVersion

section operations
variable (P : Parsers) (truncate : Truncate)

def processItem (policy : TruncationPolicy) : ResponseItem → ResponseItem
  | .functionCallOutput callId output => .functionCallOutput callId (truncate policy output)
  | .customToolCallOutput callId name output => .customToolCallOutput callId name (truncate policy output)
  | item => item

def recordItems (history : ContextManager) (items : List ResponseItem) (policy : TruncationPolicy) :
    ContextManager :=
  { history with items := history.items ++ (items.filter isApiMessage).map (processItem truncate policy) }

def removeFirstItem (history : ContextManager) : ContextManager :=
  match history.items with
  | removed :: items => { history with items := removeCorrespondingFor items removed }
  | [] => history

def removeLastItem (history : ContextManager) : ContextManager :=
  match history.items.getLast? with
  | some removed => { history with
      items := removeCorrespondingFor history.items.dropLast removed
      historyVersion := bump history.historyVersion }
  | none => history

def replace (history : ContextManager) (items : List ResponseItem) : ContextManager :=
  { history with items := items, historyVersion := bump history.historyVersion }

/-- The last output of a function or boundary of a turn, with what stands before and behind it. -/
def splitLast (p : ResponseItem → Bool) (items : List ResponseItem) :
    Option (List ResponseItem × ResponseItem × List ResponseItem) :=
  match items.reverse.dropWhile fun item => !p item with
  | [] => none
  | item :: before => some (before.reverse, item, (items.reverse.takeWhile fun item => !p item).reverse)

def isFunctionCallOutput : ResponseItem → Bool
  | .functionCallOutput _ _ => true
  | _ => false

def isInputImage : FunctionCallOutputContentItem → Bool
  | .inputImage _ _ => true
  | _ => false

/-- Replace the images of the last turn if they came from a tool. -/
def replaceLastTurnImages (history : ContextManager) (placeholder : Str) : ContextManager :=
  match splitLast (fun item => isFunctionCallOutput item || isUserTurnBoundary P item) history.items with
  | some (before, .functionCallOutput callId ⟨.contentItems contents, success⟩, after) =>
      if contents.any isInputImage then { history with
        items := before ++ .functionCallOutput callId
          ⟨.contentItems (contents.map fun content => if isInputImage content then .inputText placeholder else content),
            success⟩ :: after
        historyVersion := bump history.historyVersion }
      else history
  | _ => history

/-- Walk back from a cut over the context of the turn behind it, not beyond the first turn. -/
def trimPreTurnContextUpdates (snapshot : List ResponseItem) (firstInstructionTurnIdx : ℕ) : ℕ → ℕ
  | 0 => 0
  | cutIdx + 1 =>
      if firstInstructionTurnIdx ≤ cutIdx ∧ (snapshot[cutIdx]?.any (isPreTurnContext P)) then
        trimPreTurnContextUpdates snapshot firstInstructionTurnIdx cutIdx
      else cutIdx + 1

/-- Where the history is cut when the last turns are dropped, before and after the walk back. -/
def rollbackCut (snapshot : List ResponseItem) (numTurns : ℕ) : Option (ℕ × ℕ) :=
  let userPositions := userMessagePositions P snapshot
  match userPositions.head? with
  | none => none
  | some firstInstructionTurnIdx =>
      let cutIdx :=
        if userPositions.length ≤ numTurns then firstInstructionTurnIdx
        else userPositions.getD (userPositions.length - numTurns) 0
      some (trimPreTurnContextUpdates P snapshot firstInstructionTurnIdx cutIdx, cutIdx)

/-- Drop the last turns.  A message that mixes context with a text that is there to stay clears the
baseline when it is trimmed. -/
def dropLastNUserTurns (history : ContextManager) (numTurns : ℕ) : ContextManager :=
  if numTurns = 0 then history
  else
    match rollbackCut P history.items numTurns with
    | none => history.replace history.items
    | some (trimmed, cutIdx) => { history with
        items := history.items.take trimmed
        historyVersion := bump history.historyVersion
        referenceContextItem :=
          if ((history.items.take cutIdx).drop trimmed).any isMixedContext then none
          else history.referenceContextItem }

/-! ### Runs of operations -/

inductive Operation where
  | recordItems (items : List ResponseItem) (policy : TruncationPolicy)
  | removeFirstItem
  | removeLastItem
  | replace (items : List ResponseItem)
  | replaceLastTurnImages (placeholder : Str)
  | dropLastNUserTurns (numTurns : ℕ)
deriving DecidableEq, Repr

def apply (history : ContextManager) : Operation → ContextManager
  | .recordItems items policy => history.recordItems truncate items policy
  | .removeFirstItem => history.removeFirstItem
  | .removeLastItem => history.removeLastItem
  | .replace items => history.replace items
  | .replaceLastTurnImages placeholder => history.replaceLastTurnImages P placeholder
  | .dropLastNUserTurns numTurns => history.dropLastNUserTurns P numTurns

/-- The history after a run of operations. -/
def run (history : ContextManager) (operations : List Operation) : ContextManager :=
  operations.foldl (apply P truncate) history

/-- Between any two points of a run with the same version the history has only grown. -/
def DetectsRewrites (operations : List Operation) : Prop :=
  ∀ before between after, operations = before ++ between ++ after →
    (run P truncate new before).historyVersion = (run P truncate new (before ++ between)).historyVersion →
    (run P truncate new before).items <+: (run P truncate new (before ++ between)).items

end operations

/-! ### Rewrites -/

theorem bump_of_lt {version : ℕ} (h : version < maxVersion) : bump version = version + 1 := by
  unfold bump
  omega

theorem length_removeFirstItem_lt {history : ContextManager} (h : history.items ≠ []) :
    history.removeFirstItem.items.length < history.items.length := by
  obtain ⟨removed, items, hitems⟩ := exists_cons_of_ne_nil h
  unfold removeFirstItem
  rw [hitems]
  exact Nat.lt_succ_of_le (removeCorrespondingFor_sublist items removed).length_le

theorem historyVersion_removeFirstItem (history : ContextManager) :
    history.removeFirstItem.historyVersion = history.historyVersion := by
  unfold removeFirstItem
  split <;> rfl

section runs
variable (P : Parsers) (truncate : Truncate)

theorem apply_cases (history : ContextManager) (operation : Operation)
    (h : operation = .removeFirstItem → history.items = []) :
    ((history.apply P truncate operation).historyVersion = history.historyVersion ∧
        history.items <+: (history.apply P truncate operation).items) ∨
      (history.apply P truncate operation).historyVersion = bump history.historyVersion := by
  cases operation with
  | recordItems items policy => exact .inl ⟨rfl, prefix_append _ _⟩
  | removeFirstItem =>
    rw [apply]
    fun_cases removeFirstItem history with
    | case1 removed items hitems => exact nomatch hitems.symm.trans (h rfl)
    | case2 => exact .inl ⟨rfl, prefix_refl _⟩
  | removeLastItem =>
    rw [apply]
    fun_cases removeLastItem history with
    | case1 => exact .inr rfl
    | case2 => exact .inl ⟨rfl, prefix_refl _⟩
  | replace items => exact .inr rfl
  | replaceLastTurnImages placeholder =>
    rw [apply]
    fun_cases replaceLastTurnImages P history placeholder with
    | case1 => exact .inr rfl
    | _ => exact .inl ⟨rfl, prefix_refl _⟩
  | dropLastNUserTurns numTurns =>
    rw [apply]
    fun_cases dropLastNUserTurns P history numTurns with
    | case1 => exact .inl ⟨rfl, prefix_refl _⟩
    | _ => exact .inr rfl

theorem run_append (history : ContextManager) (as bs : List Operation) :
    run P truncate history (as ++ bs) = run P truncate (run P truncate history as) bs := foldl_append

/-- A run that never removes the first item and has bumps to spare. -/
theorem run_cases : ∀ (operations : List Operation) (history : ContextManager),
    history.historyVersion + operations.length ≤ maxVersion →
    (∀ before after, operations = before ++ .removeFirstItem :: after → (run P truncate history before).items = []) →
    history.historyVersion ≤ (run P truncate history operations).historyVersion ∧
      (run P truncate history operations).historyVersion ≤ history.historyVersion + operations.length ∧
      (history.historyVersion = (run P truncate history operations).historyVersion →
        history.items <+: (run P truncate history operations).items)
  | [], history, _, _ => ⟨le_refl _, le_refl _, fun _ => prefix_refl _⟩
  | operation :: operations, history, hbound, hfirst => by
    rw [length_cons] at hbound
    have hstep := apply_cases P truncate history operation
      fun h => hfirst [] operations (by rw [h]; rfl)
    have hrest : ∀ before after, operations = before ++ .removeFirstItem :: after →
        (run P truncate (history.apply P truncate operation) before).items = [] := by
      intro before after he
      exact hfirst (operation :: before) after (by rw [he]; rfl)
    have hbump : bump history.historyVersion = history.historyVersion + 1 := bump_of_lt (by omega)
    have hle := hstep.imp And.left id
    obtain ⟨h1, h2, h3⟩ := run_cases operations (history.apply P truncate operation) (by omega) hrest
    refine ⟨?_, ?_, fun he => ?_⟩
    · exact le_trans (by omega) h1
    · exact h2.trans (by rw [length_cons]; omega)
    · obtain ⟨hversion, hgrown⟩ | hversion := hstep
      · exact hgrown.trans (h3 (hversion.trans he))
      · exact absurd (he.symm.le.trans' h1) (by omega)

/-- **What the version detects.**  In a run of fewer than `2 ^ 64` operations, equal versions tell that
the history has only grown, exactly when the first item of a history is never removed: this is the
one rewrite that leaves the version. -/
theorem detectsRewrites_iff (operations : List Operation) (hshort : operations.length < 2 ^ 64) :
    DetectsRewrites P truncate operations ↔ ∀ before after, operations = before ++ .removeFirstItem :: after →
      (run P truncate new before).items = [] := by
  constructor
  · intro h before after he
    by_contra hne
    have hrun : run P truncate new (before ++ [.removeFirstItem]) =
        (run P truncate new before).removeFirstItem := run_append P truncate new before [.removeFirstItem]
    have hgrown := h before [.removeFirstItem] after (by rw [he, append_assoc]; rfl)
      (by rw [hrun, historyVersion_removeFirstItem])
    rw [hrun] at hgrown
    have hlt := length_removeFirstItem_lt hne
    have hle := hgrown.length_le
    omega
  · intro h before between after he hversion
    have hlen : before.length + between.length ≤ maxVersion := by
      have := congrArg List.length he
      simp only [length_append] at this
      unfold maxVersion
      omega
    have hbefore := run_cases P truncate before new (by
      show 0 + before.length ≤ maxVersion
      omega) fun a b hab => h a (b ++ between ++ after) (by rw [he, hab]; simp)
    have hversion0 : (run P truncate new before).historyVersion ≤ before.length := by
      have := hbefore.2.1
      have hzero : new.historyVersion = 0 := rfl
      omega
    rw [run_append] at hversion ⊢
    refine (run_cases P truncate between (run P truncate new before) (by omega) fun a b hab => ?_).2.2 hversion
    rw [← run_append]
    exact h (before ++ a) (b ++ after) (by rw [he, hab]; simp)

/-! ### Trimming -/

/-- **Trimming** a history at its ends keeps its calls and outputs in one-to-one correspondence, so that normalizing
adds and removes nothing. -/
theorem paired_run_removals {history : ContextManager} {operations : List Operation} (h : Paired history.items)
    (hends : ∀ operation ∈ operations, operation = .removeFirstItem ∨ operation = .removeLastItem) :
    Paired (run P truncate history operations).items ∧
      removeOrphanOutputs (ensureCallOutputsPresent (run P truncate history operations).items) =
        (run P truncate history operations).items := by
  have hpaired : Paired (run P truncate history operations).items := by
    induction operations generalizing history with
    | nil => exact h
    | cons operation operations ih =>
      refine ih ?_ fun operation' hmem => hends operation' (mem_cons_of_mem _ hmem)
      obtain rfl | rfl := hends operation mem_cons_self
      · show Paired history.removeFirstItem.items
        unfold removeFirstItem
        split
        · rename_i removed items hitems
          exact (hitems ▸ h).removeCorrespondingFor
        · exact h
      · show Paired history.removeLastItem.items
        unfold removeLastItem
        split
        · rename_i removed hlast
          obtain ⟨items, hitems⟩ := getLast?_eq_some_iff.mp hlast
          rw [hitems, dropLast_concat]
          exact ((hitems ▸ h).perm (perm_append_singleton removed items)).removeCorrespondingFor
        · exact h
  refine ⟨hpaired, ?_⟩
  rw [removeOrphanOutputs_ensureCallOutputsPresent, hpaired.answered.completed_eq]

end runs

/-- Parsers that find nothing. -/
def noParsers : Parsers := ⟨fun _ => none, fun _ => false⟩

/-- A history that is replaced, and emptied before its first item is removed. -/
def replacedRun : List Operation :=
  [.recordItems [.compaction []] (.bytes 0), .replace [], .removeFirstItem,
    .recordItems [.compaction []] (.bytes 0), .dropLastNUserTurns 1]

theorem detectsRewrites_replacedRun : DetectsRewrites noParsers (fun _ output => output) replacedRun :=
  (detectsRewrites_iff noParsers _ replacedRun (by decide)).mpr fun before after he =>
    have hchecked : Checked (apply noParsers fun _ output => output)
      (fun history operation => operation = .removeFirstItem → history.items = []) new replacedRun := by
        decide +kernel
    checked_iff.mp hchecked before .removeFirstItem after he rfl

/-- One item is recorded, and removed again. -/
theorem not_detectsRewrites_removed : ¬ DetectsRewrites noParsers (fun _ output => output)
    [.recordItems [.compaction []] (.bytes 0), .removeFirstItem] := by
  intro h
  have hversion : (run noParsers (fun _ output => output) new
      [.recordItems [.compaction []] (.bytes 0)]).historyVersion =
      (run noParsers (fun _ output => output) new
        [.recordItems [.compaction []] (.bytes 0), .removeFirstItem]).historyVersion := by decide +kernel
  have hgrown := h [.recordItems [.compaction []] (.bytes 0)] [.removeFirstItem] [] rfl hversion
  exact absurd hgrown.length_le (by decide +kernel)

/-- Two calls with one identifier, for outputs of different kinds. -/
def crossedCalls : ContextManager :=
  { new with items := [.functionCall none [] none [] ['1'], .customToolCall none none ['1'] [] [],
      .functionCallOutput ['1'] aborted, .customToolCallOutput ['1'] none aborted] }

theorem paired_run_crossedCalls :
    Paired (run noParsers (fun _ output => output) crossedCalls [.removeLastItem, .removeFirstItem]).items :=
  (paired_run_removals noParsers _ ⟨by decide, by decide⟩ (by simp)).1

end ContextManager

end OpenAgere
