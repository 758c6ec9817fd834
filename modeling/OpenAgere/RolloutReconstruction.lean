import OpenAgere.ContextManager
import OpenAgere.TruncateMiddle

/-! # Reconstruction of a history from a rollout

`core/src/session/rollout_reconstruction.rs`: a rollout is read from its newest item to its oldest.
The items of a turn are gathered in a segment, which is finalized where the turn starts; a rollback
makes the next segments of users be skipped.  Once a replacement history that survives, the settings
of the previous turn and the baseline are known, the reading stops, and the items behind the
replacement history are replayed forward.  The rebuilding of a history from its user messages is that
of `core/src/compact.rs`; how texts and outputs are truncated are parameters.

What the reading finds is told by the list of all segments with the rollbacks that were pending at
their ends (`segments`, `reverseReplay_agrees`). -/

namespace OpenAgere.Reconstruction

open List Option Models Rollout Text

/-! ### Rebuilding a history from its user messages -/

def summaryPrefix : Str :=
  ("Another language model started to solve this problem and produced a summary of its thinking process. " ++
    "You also have access to the state of the tools that were used by that language model. " ++
    "Use this to build on the work that has already been done and avoid duplicating work. " ++
    "Here is the summary produced by the other language model, " ++
    "use the information in this summary to assist with your own analysis:").toList

def isSummaryMessage (message : Str) : Bool := (stripPrefix (summaryPrefix ++ ['\n']) message).isSome

def isImage : ContentItem → Bool
  | .inputImage _ _ => true
  | _ => false

def isImageOpenTagText (text : Str) : Bool :=
  text = "<image>" ||
    match stripPrefix "<image name=" text with
    | some rest => rest.getLast? = some '>'
    | none => false

def isImageCloseTagText (text : Str) : Bool := text = "</image>"

/-- The text of a user message, without the tags around its images; the first argument is the item
before. -/
def userMessageText : Option ContentItem → List ContentItem → Str
  | _, [] => []
  | previous, .inputText text :: rest =>
      (if (isImageOpenTagText text && rest.head?.any isImage) || (isImageCloseTagText text && previous.any isImage)
        then [] else text) ++ userMessageText (some (.inputText text)) rest
  | _, item :: rest => userMessageText (some item) rest

def approxTokenCount (s : Str) : ℕ := Truncation.len s / 4 + Truncation.len s / 16

def compactUserMessageMaxTokens : ℕ := 20000

def userTextItem (text : Str) : ResponseItem := .message none user [.inputText text] none

section replay
variable (P : Parsers) (truncateText : Str → TruncationPolicy → Str)
  (truncate : Truncate) (policy : TruncationPolicy)

/-- The text of an item that is the message of a user. -/
def userMessage : ResponseItem → Option Str
  | .message _ role content _ =>
      if role = user ∧ isContextualUserMessageContent P content = false then some (userMessageText none content)
      else none
  | _ => none

def collectUserMessages (items : List ResponseItem) : List Str :=
  (items.filterMap (userMessage P)).filter fun message => !isSummaryMessage message

/-- Take messages, the newest first, while they fit. -/
def selectMessages : ℕ → List Str → List Str
  | _, [] => []
  | remaining, message :: messages =>
      if remaining = 0 then []
      else if approxTokenCount message ≤ remaining then
        message :: selectMessages (remaining - approxTokenCount message) messages
      else [truncateText message (.tokens remaining)]

def buildCompactedHistory (userMessages : List Str) (summaryText : Str) : List ResponseItem :=
  ((selectMessages truncateText compactUserMessageMaxTokens userMessages.reverse).reverse.map userTextItem) ++
    [userTextItem (if summaryText = [] then "(no summary available)" else summaryText)]

/-! ### The replay -/

/-- The replay of one item. -/
def replayItem (history : ContextManager) : RolloutItem → ContextManager
  | .responseItem item => history.recordItems truncate [item] policy
  | .compacted compacted =>
      match compacted.replacementHistory with
      | some replacementHistory => history.replace replacementHistory
      | none => history.replace
          (buildCompactedHistory truncateText (collectUserMessages P history.items) compacted.message)
  | .eventMsg (.threadRolledBack numTurns) => history.dropLastNUserTurns P numTurns
  | _ => history

/-- The plain replay of a whole rollout. -/
def forwardReplay (items : List RolloutItem) : List ResponseItem :=
  (items.foldl (replayItem P truncateText truncate policy) .new).items

/-! ### Segments -/

structure PreviousTurnSettings where
  model : Str
  realtimeActive : Option Bool
  providerId : Str
  contextWindow : Option ℤ
deriving DecidableEq, Repr

def settingsOf (ctx : TurnContextItem) : PreviousTurnSettings := ⟨ctx.model, ctx.realtimeActive, [], none⟩

inductive TurnReferenceContextItem where
  | neverSet
  | cleared
  | latest (item : TurnContextItem)
deriving DecidableEq, Repr

structure ActiveReplaySegment where
  turnId : Option Str
  countsAsUserTurn : Bool
  previousTurnSettings : Option PreviousTurnSettings
  referenceContextItem : TurnReferenceContextItem
  baseReplacementHistory : Option (List ResponseItem)
deriving DecidableEq, Repr

def ActiveReplaySegment.default : ActiveReplaySegment := ⟨none, false, none, .neverSet, none⟩

def turnIdsAreCompatible (activeTurnId itemTurnId : Option Str) : Bool :=
  activeTurnId.all fun turnId => itemTurnId.all fun itemTurnId => itemTurnId = turnId

/-- Set the baseline of a segment unless a newer item has set it. -/
def ActiveReplaySegment.mark (segment : ActiveReplaySegment) (item : TurnReferenceContextItem) :
    ActiveReplaySegment :=
  if segment.referenceContextItem = .neverSet then { segment with referenceContextItem := item } else segment

/-- What an item adds to the segment of its turn. -/
def noteItem (active : Option ActiveReplaySegment) : RolloutItem → Option ActiveReplaySegment
  | .compacted compacted =>
      let segment := (active.getD .default).mark .cleared
      some { segment with
        baseReplacementHistory := segment.baseReplacementHistory.or compacted.replacementHistory }
  | .eventMsg (.turnComplete turnId _ _) =>
      let segment := active.getD .default
      some { segment with turnId := segment.turnId.or (some turnId) }
  | .eventMsg (.turnAborted turnId _ _) =>
      match active with
      | some segment => some { segment with turnId := segment.turnId.or turnId }
      | none => turnId.map fun turnId => { ActiveReplaySegment.default with turnId := some turnId }
  | .eventMsg (.userMessage _) => some { active.getD .default with countsAsUserTurn := true }
  | .turnContext ctx =>
      let segment := active.getD .default
      let segment := { segment with turnId := segment.turnId.or ctx.turnId }
      if turnIdsAreCompatible segment.turnId ctx.turnId then
        some ({ segment with previousTurnSettings := some (settingsOf ctx) }.mark (.latest ctx))
      else some segment
  | .responseItem item =>
      let segment := active.getD .default
      some { segment with countsAsUserTurn := segment.countsAsUserTurn || isUserTurnBoundary P item }
  | _ => active

/-! ### Reading backwards -/

/-- What is known while a rollout is read backwards. -/
structure ReverseReplay where
  baseReplacementHistory : Option (List ResponseItem)
  previousTurnSettings : Option PreviousTurnSettings
  referenceContextItem : TurnReferenceContextItem
  pendingRollbackTurns : ℕ
  rolloutSuffix : List RolloutItem
  activeSegment : Option ActiveReplaySegment
deriving DecidableEq, Repr

def ReverseReplay.start (rolloutItems : List RolloutItem) : ReverseReplay :=
  ⟨none, none, .neverSet, 0, rolloutItems, none⟩

def finalizeActiveSegment (segment : ActiveReplaySegment) (s : ReverseReplay) : ReverseReplay :=
  if 0 < s.pendingRollbackTurns then
    { s with pendingRollbackTurns :=
        if segment.countsAsUserTurn then s.pendingRollbackTurns - 1 else s.pendingRollbackTurns }
  else { s with
    baseReplacementHistory := s.baseReplacementHistory.or segment.baseReplacementHistory
    previousTurnSettings :=
      if segment.countsAsUserTurn then s.previousTurnSettings.or segment.previousTurnSettings
      else s.previousTurnSettings
    referenceContextItem :=
      if s.referenceContextItem = .neverSet ∧
        (segment.countsAsUserTurn ∨ segment.referenceContextItem = .cleared)
      then segment.referenceContextItem else s.referenceContextItem }

/-- Everything is known. -/
def ReverseReplay.known (s : ReverseReplay) : Prop :=
  s.baseReplacementHistory.isSome ∧ s.previousTurnSettings.isSome ∧
    s.referenceContextItem ≠ .neverSet

instance (s : ReverseReplay) : Decidable s.known := inferInstanceAs (Decidable (_ ∧ _ ∧ _))

/-- One step of the loop; `after` are the items behind this one. -/
def scanItem (item : RolloutItem) (after : List RolloutItem) (s : ReverseReplay) : ReverseReplay :=
  match item with
  | .compacted compacted => { s with
      activeSegment := noteItem P s.activeSegment item
      rolloutSuffix :=
        if (s.activeSegment.getD .default).baseReplacementHistory = none ∧ compacted.replacementHistory ≠ none
        then after else s.rolloutSuffix }
  | .eventMsg (.threadRolledBack numTurns) =>
      { s with pendingRollbackTurns := s.pendingRollbackTurns + numTurns }
  | .eventMsg (.turnStarted turnId _) =>
      match s.activeSegment with
      | some segment =>
          if turnIdsAreCompatible segment.turnId (some turnId) then
            finalizeActiveSegment segment { s with activeSegment := none }
          else s
      | none => s
  | item => { s with activeSegment := noteItem P s.activeSegment item }

/-- The loop over the items from the newest to the oldest, with its early end. -/
def scan (rolloutItems : List RolloutItem) : List RolloutItem → ReverseReplay
  | [] => .start rolloutItems
  | item :: after =>
      if (scan rolloutItems after).known then scan rolloutItems after
      else scanItem P item after (scan rolloutItems after)

/-- The segment that is left when the loop ends. -/
def ReverseReplay.finish (s : ReverseReplay) : ReverseReplay :=
  match s.activeSegment with
  | some segment => finalizeActiveSegment segment { s with activeSegment := none }
  | none => s

def reverseReplay (rolloutItems : List RolloutItem) : ReverseReplay := (scan P rolloutItems rolloutItems).finish

structure RolloutReconstruction where
  history : List ResponseItem
  previousTurnSettings : Option PreviousTurnSettings
  referenceContextItem : Option TurnContextItem
deriving DecidableEq, Repr

/-- A compaction without replacement history. -/
def isLegacyCompaction : RolloutItem → Bool
  | .compacted compacted => compacted.replacementHistory = none
  | _ => false

def reconstructHistoryFromRollout (rolloutItems : List RolloutItem) : RolloutReconstruction :=
  let s := reverseReplay P rolloutItems
  let history := match s.baseReplacementHistory with
    | some base => ContextManager.new.replace base
    | none => .new
  { history := (s.rolloutSuffix.foldl (replayItem P truncateText truncate policy) history).items
    previousTurnSettings := s.previousTurnSettings
    referenceContextItem :=
      match s.referenceContextItem with
      | .latest item => if s.rolloutSuffix.any isLegacyCompaction then none else some item
      | _ => none }

end replay

/-! ### All segments -/

section segments
variable (P : Parsers)

/-- The segments that are finished, the newest first, each with the rollbacks pending at its end, and the
segment that is not. -/
structure Gathered where
  finished : List (ActiveReplaySegment × ℕ)
  active : Option ActiveReplaySegment
  pending : ℕ

def Gathered.close (t : Gathered) (segment : ActiveReplaySegment) : Gathered :=
  ⟨t.finished ++ [(segment, t.pending)], none, if segment.countsAsUserTurn then t.pending - 1 else t.pending⟩

def gatherItem (item : RolloutItem) (t : Gathered) : Gathered :=
  match item with
  | .eventMsg (.threadRolledBack numTurns) => { t with pending := t.pending + numTurns }
  | .eventMsg (.turnStarted turnId _) =>
      match t.active with
      | some segment => if turnIdsAreCompatible segment.turnId (some turnId) then t.close segment else t
      | none => t
  | item => { t with active := noteItem P t.active item }

def gather : List RolloutItem → Gathered
  | [] => ⟨[], none, 0⟩
  | item :: after => gatherItem P item (gather after)

/-- All segments of a rollout, the newest first, with the rollbacks pending at their ends. -/
def segments (items : List RolloutItem) : List (ActiveReplaySegment × ℕ) :=
  match (gather P items).active with
  | some segment => ((gather P items).close segment).finished
  | none => (gather P items).finished

def survivingBase (e : ActiveReplaySegment × ℕ) : Option (List ResponseItem) :=
  if e.2 = 0 then e.1.baseReplacementHistory else none

def survivingSettings (e : ActiveReplaySegment × ℕ) : Option PreviousTurnSettings :=
  if e.2 = 0 ∧ e.1.countsAsUserTurn then e.1.previousTurnSettings else none

def survivingBaseline (e : ActiveReplaySegment × ℕ) : Option TurnReferenceContextItem :=
  if e.2 = 0 ∧ (e.1.countsAsUserTurn ∨ e.1.referenceContextItem = .cleared) ∧
    e.1.referenceContextItem ≠ .neverSet
  then some e.1.referenceContextItem else none

/-- What is known is what the first fitting segments tell. -/
def Agrees (s : ReverseReplay) (finished : List (ActiveReplaySegment × ℕ)) : Prop :=
  s.baseReplacementHistory = finished.findSome? survivingBase ∧
    s.previousTurnSettings = finished.findSome? survivingSettings ∧
    s.referenceContextItem = (finished.findSome? survivingBaseline).getD .neverSet

variable {s : ReverseReplay} {finished : List (ActiveReplaySegment × ℕ)}

theorem agrees_append_of_known (hknown : s.known)
    (h : Agrees s finished) (more : List (ActiveReplaySegment × ℕ)) : Agrees s (finished ++ more) := by
  obtain ⟨hbase, hsettings, hbaseline⟩ := hknown
  obtain ⟨h1, h2, h3⟩ := h
  unfold Agrees
  rw [findSome?_append, findSome?_append, findSome?_append, ← h1, ← h2]
  refine ⟨(or_of_isSome hbase).symm, (or_of_isSome hsettings).symm, ?_⟩
  cases hfound : finished.findSome? survivingBaseline with
  | none =>
    rw [hfound] at h3
    exact absurd h3 hbaseline
  | some item =>
    rw [hfound] at h3
    exact h3

theorem ne_neverSet_of_survivingBaseline {item : TurnReferenceContextItem}
    (h : finished.findSome? survivingBaseline = some item) : item ≠ .neverSet := by
  obtain ⟨e, -, he⟩ := exists_of_findSome?_eq_some h
  unfold survivingBaseline at he
  split_ifs at he with hfits
  rw [← some.inj he]
  exact hfits.2.2

theorem agrees_finalize (h : Agrees s finished) (segment : ActiveReplaySegment) :
    Agrees (finalizeActiveSegment segment s) (finished ++ [(segment, s.pendingRollbackTurns)]) := by
  obtain ⟨h1, h2, h3⟩ := h
  unfold Agrees
  rw [findSome?_append, findSome?_append, findSome?_append, ← h1, ← h2, findSome?_singleton,
    findSome?_singleton, findSome?_singleton]
  by_cases hpending : 0 < s.pendingRollbackTurns
  · -- a segment under a pending rollback tells nothing
    have hne : ¬ s.pendingRollbackTurns = 0 := by omega
    have hbase : survivingBase (segment, s.pendingRollbackTurns) = none := if_neg hne
    have hsettings : survivingSettings (segment, s.pendingRollbackTurns) = none := if_neg fun h => hne h.1
    have hbaseline : survivingBaseline (segment, s.pendingRollbackTurns) = none := if_neg fun h => hne h.1
    unfold finalizeActiveSegment
    rw [if_pos hpending, hbase, hsettings, hbaseline, or_none, or_none, or_none]
    exact ⟨rfl, rfl, h3⟩
  · have hzero : s.pendingRollbackTurns = 0 := by omega
    unfold finalizeActiveSegment
    rw [if_neg hpending, hzero]
    refine ⟨rfl, ?_, ?_⟩
    · show (if segment.countsAsUserTurn then _ else _) = Option.or _ (if 0 = 0 ∧ _ then _ else _)
      cases segment.countsAsUserTurn <;> simp
    · cases hfound : finished.findSome? survivingBaseline with
      | none =>
        rw [hfound] at h3
        rw [h3, none_or]
        unfold survivingBaseline
        by_cases hset : segment.referenceContextItem = .neverSet
        · simp [hset]
        · by_cases hfits : segment.countsAsUserTurn = true ∨ segment.referenceContextItem = .cleared
          · simp [hset, hfits]
          · simp [hfits]
      | some item =>
        have hitem := ne_neverSet_of_survivingBaseline hfound
        rw [hfound] at h3
        simp [h3, hitem]

theorem finalize_rolloutSuffix (segment : ActiveReplaySegment) (s : ReverseReplay) :
    (finalizeActiveSegment segment s).rolloutSuffix = s.rolloutSuffix := by
  unfold finalizeActiveSegment
  split_ifs <;> rfl

theorem finish_rolloutSuffix (s : ReverseReplay) : s.finish.rolloutSuffix = s.rolloutSuffix := by
  unfold ReverseReplay.finish
  split
  · exact finalize_rolloutSuffix _ _
  · rfl

/-- One step of the loop and one of the gathering: both close the segment, or both leave what is
finished. -/
theorem scanItem_cases (item : RolloutItem) (after : List RolloutItem) {t : Gathered}
    (hactive : s.activeSegment = t.active) (hpending : s.pendingRollbackTurns = t.pending) :
    (∃ segment, scanItem P item after s = finalizeActiveSegment segment { s with activeSegment := none } ∧
        gatherItem P item t = t.close segment) ∨
      ((scanItem P item after s).baseReplacementHistory = s.baseReplacementHistory ∧
        (scanItem P item after s).previousTurnSettings = s.previousTurnSettings ∧
        (scanItem P item after s).referenceContextItem = s.referenceContextItem ∧
        (gatherItem P item t).finished = t.finished ∧
        (scanItem P item after s).activeSegment = (gatherItem P item t).active ∧
        (scanItem P item after s).pendingRollbackTurns = (gatherItem P item t).pending) := by
  cases item with
  | eventMsg event =>
    cases event with
    | turnStarted turnId startedAt =>
      unfold scanItem gatherItem
      rw [← hactive]
      cases hsegment : s.activeSegment with
      | none => exact .inr ⟨rfl, rfl, rfl, rfl, hactive, hpending⟩
      | some segment =>
        by_cases hid : turnIdsAreCompatible segment.turnId (some turnId) = true
        · exact .inl ⟨segment, if_pos hid, if_pos hid⟩
        · simp only [hid]
          exact .inr ⟨rfl, rfl, rfl, rfl, hactive, hpending⟩
    | threadRolledBack numTurns =>
      exact .inr ⟨rfl, rfl, rfl, rfl, hactive, congrArg (· + numTurns) hpending⟩
    | _ =>
      refine .inr ⟨rfl, rfl, rfl, rfl, ?_, hpending⟩
      simp only [scanItem, gatherItem, hactive]
  | _ =>
    refine .inr ⟨rfl, rfl, rfl, rfl, ?_, hpending⟩
    simp only [scanItem, gatherItem, hactive]

theorem finalize_baseReplacementHistory {segment : ActiveReplaySegment}
    {base : List ResponseItem} (h : s.baseReplacementHistory = some base) :
    (finalizeActiveSegment segment s).baseReplacementHistory = some base := by
  unfold finalizeActiveSegment
  by_cases hpending : 0 < s.pendingRollbackTurns
  · rw [if_pos hpending]
    exact h
  · rw [if_neg hpending]
    rw [h]
    rfl

theorem finalize_pendingRollbackTurns (segment : ActiveReplaySegment) (s : ReverseReplay) :
    (finalizeActiveSegment segment s).pendingRollbackTurns =
      if segment.countsAsUserTurn then s.pendingRollbackTurns - 1 else s.pendingRollbackTurns := by
  unfold finalizeActiveSegment
  by_cases hpending : 0 < s.pendingRollbackTurns
  · rw [if_pos hpending]
  · rw [if_neg hpending]
    show s.pendingRollbackTurns = _
    split_ifs <;> omega

theorem finalize_activeSegment (segment : ActiveReplaySegment) (s : ReverseReplay) :
    (finalizeActiveSegment segment s).activeSegment = s.activeSegment := by
  unfold finalizeActiveSegment
  split_ifs <;> rfl

theorem gatherItem_finished (item : RolloutItem) (t : Gathered) : t.finished <+: (gatherItem P item t).finished := by
  fun_cases gatherItem P item t with
  | case2 => exact prefix_append _ _
  | _ => exact prefix_refl _

/-- What the loop knows, and in which state it is when it does not know everything yet. -/
theorem scan_agrees (all : List RolloutItem) : ∀ after : List RolloutItem,
    Agrees (scan P all after) (gather P after).finished ∧
      ((scan P all after).known → (scan P all after).activeSegment = none) ∧
      (¬ (scan P all after).known → (scan P all after).activeSegment = (gather P after).active ∧
        (scan P all after).pendingRollbackTurns = (gather P after).pending)
  | [] => ⟨⟨rfl, rfl, rfl⟩, fun _ => rfl, fun _ => ⟨rfl, rfl⟩⟩
  | item :: after => by
    obtain ⟨hagrees, hdone, hopen⟩ := scan_agrees all after
    unfold scan gather
    by_cases hknown : (scan P all after).known
    · rw [if_pos hknown]
      obtain ⟨more, hmore⟩ := gatherItem_finished P item (gather P after)
      rw [← hmore]
      exact ⟨agrees_append_of_known hknown hagrees more, hdone, fun h => absurd hknown h⟩
    · rw [if_neg hknown]
      obtain ⟨hactive, hpending⟩ := hopen hknown
      obtain ⟨segment, hscan, hgather⟩ | ⟨h1, h2, h3, hfinished, hactive', hpending'⟩ :=
        scanItem_cases P item after hactive hpending
      · rw [hscan, hgather]
        have hclosed := agrees_finalize (s := { scan P all after with activeSegment := none }) hagrees segment
        unfold Gathered.close
        rw [← hpending]
        refine ⟨hclosed, fun _ => finalize_activeSegment _ _, fun _ => ⟨finalize_activeSegment _ _, ?_⟩⟩
        exact finalize_pendingRollbackTurns _ _
      · unfold Agrees
        rw [h1, h2, h3, hfinished]
        refine ⟨hagrees, fun h => absurd ?_ hknown, fun _ => ⟨hactive', hpending'⟩⟩
        unfold ReverseReplay.known at h
        rwa [h1, h2, h3] at h

/-- **What the reading finds** is told by the first fitting ones of all segments. -/
theorem reverseReplay_agrees (items : List RolloutItem) : Agrees (reverseReplay P items) (segments P items) := by
  obtain ⟨hagrees, hdone, hopen⟩ := scan_agrees P items items
  unfold reverseReplay segments ReverseReplay.finish
  by_cases hknown : (scan P items items).known
  · rw [hdone hknown]
    cases (gather P items).active with
    | none => exact hagrees
    | some segment => exact agrees_append_of_known hknown hagrees _
  · obtain ⟨hactive, hpending⟩ := hopen hknown
    rw [← hactive]
    cases (scan P items items).activeSegment with
    | none => exact hagrees
    | some segment =>
      unfold Gathered.close
      rw [← hpending]
      exact agrees_finalize (s := { scan P items items with activeSegment := none }) hagrees segment

end segments

end OpenAgere.Reconstruction
