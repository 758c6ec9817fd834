import OpenAgere.ChatSse

/-! # The items of a stream

A consumer of the response events keeps a log of the items added, newest first, with what became
of them (`Log`, `track`).  Deltas of text belong to the assistant message and deltas of reasoning
to a reasoning item: `WellBracketed` says that the log shows it at every delta.

Reasoning deltas are always in place (`reasoning_bracketed`).  A text delta is not when the
message it continues was followed by reasoning or by a new tool call, for the handler does not
open a new message then; `wellBracketed_iff` says exactly which streams are well bracketed. -/

namespace OpenAgere.ChatSse

open List Emitter

open Models (TokenUsage)

/-! ### The log of a consumer -/

inductive ItemKind where
  | message
  | reasoning
  | functionCall (callId : Str)
deriving DecidableEq, Repr

def ResponseItem.kind : ResponseItem → ItemKind
  | .message _ _ _ => .message
  | .reasoning _ _ => .reasoning
  | .functionCall _ callId _ _ => .functionCall callId

/-- An item that was added, whether it was completed, and whether a reasoning item was added or
completed after it was added. -/
structure Entry where
  kind : ItemKind
  completed : Bool
  reasoningAfter : Bool
deriving DecidableEq, Repr

/-- The items added, newest first. -/
abbrev Log : Type := List Entry

namespace Log

/-- A reasoning item was added or completed. -/
def touch (log : Log) (kind : ItemKind) : Log :=
  if kind = .reasoning then log.map fun e => { e with reasoningAfter := true } else log

/-- The newest open item of a kind is completed. -/
def complete (kind : ItemKind) : Log → Log
  | [] => []
  | e :: log =>
      if e.kind = kind ∧ e.completed = false then { e with completed := true } :: log
      else e :: complete kind log

/-- The item added last among those that are not completed. -/
def active (log : Log) : Option Entry := log.find? fun e => !e.completed

/-- The item added last. -/
def latest (log : Log) : Option Entry := log.head?

end Log

/-- What an event does to the log. -/
def track (log : Log) (sent : Sent) : Log :=
  match sent with
  | .ok (.outputItemAdded item) => ⟨item.kind, false, false⟩ :: log.touch item.kind
  | .ok (.outputItemDone item) => (log.complete item.kind).touch item.kind
  | _ => log

/-- A text delta comes while the active item is a message without reasoning after it. -/
def TextInPlace (log : Log) (sent : Sent) : Prop :=
  match sent with
  | .ok (.outputTextDelta _) => log.active = some ⟨.message, false, false⟩
  | _ => True

/-- A reasoning delta comes while the latest item is a reasoning item that is not completed. -/
def ReasoningInPlace (log : Log) (sent : Sent) : Prop :=
  match sent with
  | .ok (.reasoningContentDelta _ _) => ∃ e, log.latest = some e ∧ e.kind = .reasoning ∧ e.completed = false
  | _ => True

/-- At every delta, the log of the events before it has the item of the delta in place. -/
def WellBracketed (sent : List Sent) : Prop :=
  ∀ before x after, sent = before ++ x :: after →
    TextInPlace (before.foldl track []) x ∧ ReasoningInPlace (before.foldl track []) x

theorem wellBracketed_checked (sent : List Sent) : WellBracketed sent ↔
    Checked track TextInPlace [] sent ∧ Checked track ReasoningInPlace [] sent := by
  rw [checked_iff, checked_iff]
  constructor
  · intro h
    exact ⟨fun b x a he => (h b x a he).1, fun b x a he => (h b x a he).2⟩
  · rintro ⟨h1, h2⟩ b x a he
    exact ⟨h1 b x a he, h2 b x a he⟩

/-! ### The log through the handlers -/

/-- Neither a text delta nor a reasoning delta. -/
def isPlain : Sent → Bool
  | .ok (.outputTextDelta _) => false
  | .ok (.reasoningContentDelta _ _) => false
  | _ => true

theorem inPlace_of_plain {x : Sent} (h : isPlain x) (log : Log) :
    TextInPlace log x ∧ ReasoningInPlace log x := by
  unfold TextInPlace ReasoningInPlace
  split
  · cases h
  · split
    · cases h
    · exact ⟨trivial, trivial⟩

theorem checked_of_plain {sent : List Sent} (h : ∀ x ∈ sent, isPlain x) (log : Log) :
    Checked track TextInPlace log sent ∧ Checked track ReasoningInPlace log sent :=
  ⟨checked_of_forall fun x hx log => (inPlace_of_plain (h x hx) log).1,
    checked_of_forall fun x hx log => (inPlace_of_plain (h x hx) log).2⟩

theorem active_cons_open (kind : ItemKind) (after : Bool) (log : Log) :
    Log.active (⟨kind, false, after⟩ :: log) = some ⟨kind, false, after⟩ := rfl

theorem active_touch_ne (log : Log) : Log.active (log.touch .reasoning) ≠ some ⟨.message, false, false⟩ := by
  intro h
  have hmem := mem_of_find?_eq_some h
  rw [Log.touch, if_pos rfl, mem_map] at hmem
  obtain ⟨e, _, he⟩ := hmem
  exact absurd (congrArg Entry.reasoningAfter he) (by simp)

theorem track_finishReasoningItem (s : ChatSseState) (log : Log) :
    (finishReasoningItem s).2.foldl track log =
        (if s.phase.reasoning then (log.complete .reasoning).touch .reasoning else log) ∧
      ∀ x ∈ (finishReasoningItem s).2, isPlain x := by
  show _ = (if s.assistantReasoningEmitted then _ else _) ∧ _
  unfold finishReasoningItem
  cases s.assistantReasoningEmitted with
  | true => exact ⟨rfl, by simp [isPlain]⟩
  | false => exact ⟨rfl, by simp⟩

theorem track_ensureReasoningItem (s : ChatSseState) (log : Log) :
    (ensureReasoningItem s).2.foldl track log =
        (if s.phase.reasoning then log else ⟨.reasoning, false, false⟩ :: log.touch .reasoning) ∧
      ∀ x ∈ (ensureReasoningItem s).2, isPlain x := by
  show _ = (if s.assistantReasoningEmitted then _ else _) ∧ _
  unfold ensureReasoningItem
  cases s.assistantReasoningEmitted with
  | true => exact ⟨rfl, by simp⟩
  | false => exact ⟨rfl, by simp [isPlain]⟩

theorem track_ensureMessageItem (s : ChatSseState) (log : Log) :
    (ensureMessageItem s).2.foldl track log =
        (if s.phase.message then log else ⟨.message, false, false⟩ :: log) ∧
      ∀ x ∈ (ensureMessageItem s).2, isPlain x := by
  show _ = (if s.assistantMessageEmitted then _ else _) ∧ _
  unfold ensureMessageItem
  cases s.assistantMessageEmitted with
  | true => exact ⟨rfl, by simp⟩
  | false => exact ⟨rfl, by simp [isPlain]⟩

theorem track_argumentDelta (idx : ℕ) (args : Option Str) (s : ChatSseState) (log : Log) :
    (argumentDelta idx args s).2.foldl track log = log ∧
      ∀ x ∈ (argumentDelta idx args s).2, isPlain x := by
  unfold argumentDelta
  split
  · exact ⟨rfl, by simp [isPlain]⟩
  · exact ⟨rfl, by simp⟩

theorem track_processToolCallDelta (tc : ChatDeltaToolCall) (s : ChatSseState) (log : Log) :
    (∃ callId, (processToolCallDelta tc s).2.foldl track log =
        if tc.header.isSome ∧ tc.index ∉ s.phase.calls then ⟨.functionCall callId, false, false⟩ :: log
        else log) ∧
      ∀ x ∈ (processToolCallDelta tc s).2, isPlain x := by
  cases hh : tc.header with
  | none =>
    rw [processToolCallDelta_of_none hh]
    obtain ⟨h1, h2⟩ := track_argumentDelta tc.index tc.fragment s log
    exact ⟨⟨[], by rw [h1, if_neg (by simp)]⟩, h2⟩
  | some header =>
    by_cases hc : tc.index ∈ s.phase.calls
    · rw [processToolCallDelta_of_open hh hc]
      exact ⟨⟨[], (if_neg fun h => h.2 hc).symm⟩, by simp⟩
    · rw [processToolCallDelta_of_new hh hc]
      obtain ⟨h1, h2⟩ := track_argumentDelta tc.index tc.fragment (addToolCall tc.index header.1 header.2 s).1
        (⟨.functionCall header.1, false, false⟩ :: log)
      refine ⟨⟨header.1, ?_⟩, fun x hx => ?_⟩
      · rw [if_pos ⟨rfl, hc⟩]
        exact h1
      · rcases mem_cons.mp hx with rfl | hx
        · rfl
        · exact h2 x hx

theorem finishTurn_isPlain (ord : IterOrder ℕ) (reason : Str) (usage : Option ChatUsage) (s : ChatSseState) :
    ∀ x ∈ (finishTurn ord reason usage s).2, isPlain x := by
  intro x hx
  rcases mem_append.mp hx with hx | hx
  · exact (track_finishReasoningItem s []).2 x hx
  rcases mem_append.mp hx with hx | hx
  · obtain ⟨acc, _, rfl⟩ := mem_map.mp hx
    rfl
  rcases mem_append.mp hx with hx | hx
  · rw [mem_singleton.mp hx]
    rfl
  · cases usage with
    | none => exact absurd hx not_mem_nil
    | some usage => simp_all [completeTurn, emitCompletedEvent, isPlain]

theorem emitPendingCompletion_log (tokenUsage : Option TokenUsage) (s : ChatSseState) (log : Log) :
    (emitPendingCompletion tokenUsage s).2.foldl track log = log ∧
      ∀ x ∈ (emitPendingCompletion tokenUsage s).2, isPlain x := by
  unfold emitPendingCompletion
  split
  · exact ⟨rfl, by simp [emitCompletedEvent, isPlain]⟩
  · exact ⟨rfl, by simp⟩

/-! ### What to watch in a stream -/

/-- The phase, and whether reasoning or a new tool call came after the last message was opened. -/
structure Watch where
  phase : Phase
  stale : Bool
deriving DecidableEq, Repr

def Watch.new : Watch := ⟨.new, false⟩

def Watch.next (w : Watch) (sig : Signal) : Watch where
  phase := w.phase.next sig
  stale :=
    match sig with
    | .reasoning _ => true
    | .text _ => w.phase.message && w.stale
    | .toolCall tc => w.stale || decide (tc.header.isSome ∧ tc.index ∉ w.phase.calls)
    | _ => w.stale

/-- No text continues a message that reasoning or a new tool call came after. -/
def Continues (w : Watch) (sig : Signal) : Prop :=
  match sig with
  | .text _ => w.phase.message → w.stale = false
  | _ => True

instance (w : Watch) : ∀ sig : Signal, Decidable (Continues w sig)
  | .text _ => inferInstanceAs (Decidable (_ → _))
  | .ids _ _ | .flush _ | .reasoning _ | .toolCalls | .toolCall _ | .finish _ _ => isTrue trivial

/-- A delta of a tool call comes when no reasoning is open. -/
def Shut (w : Watch) (sig : Signal) : Prop :=
  match sig with
  | .toolCall _ => w.phase.reasoning = false
  | _ => True

/-- The log shows what is watched. -/
structure Shows (log : Log) (w : Watch) : Prop where
  reasoning : w.phase.reasoning →
    ∃ e, log.latest = some e ∧ e.kind = .reasoning ∧ e.completed = false
  active : w.phase.message → (log.active = some ⟨.message, false, false⟩ ↔ w.stale = false)
  shut : w.phase.message → w.stale = false → w.phase.reasoning = false

/-- What the events of a signal do: the log shows what is watched next, the reasoning deltas are
in place, and the text deltas exactly when no message is continued too late. -/
def Follows (log : Log) (w : Watch) (sig : Signal) (sent : List Sent) : Prop :=
  Shows (sent.foldl track log) (w.next sig) ∧ Checked track ReasoningInPlace log sent ∧
    (Checked track TextInPlace log sent ↔ Continues w sig)

theorem follows_plain {log : Log} {w : Watch} {sig : Signal} {sent : List Sent}
    (hplain : ∀ x ∈ sent, isPlain x) (hc : Continues w sig)
    (hs : Shows (sent.foldl track log) (w.next sig)) : Follows log w sig sent :=
  ⟨hs, (checked_of_plain hplain log).2, iff_of_true (checked_of_plain hplain log).1 hc⟩

/-- Completing the reasoning changes nothing for an open message. -/
theorem Shows.active_finish {log : Log} {w : Watch} (h : Shows log w) (hm : w.phase.message) :
    Log.active (if w.phase.reasoning then (log.complete .reasoning).touch .reasoning else log) =
      some ⟨.message, false, false⟩ ↔ w.stale = false := by
  cases hr : w.phase.reasoning with
  | true =>
    refine iff_of_false (active_touch_ne _) fun hst => ?_
    exact Bool.false_ne_true ((h.shut hm hst).symm.trans hr)
  | false => exact h.active hm

section signals
variable {ord : IterOrder ℕ} {s : ChatSseState} {log : Log} {w : Watch}

section

variable (hp : s.phase = w.phase) (h : Shows log w)
include hp h

theorem follows_reasoning (text : Str) :
    Follows log w (.reasoning text) (step ord (.reasoning text) s).2 := by
  obtain ⟨h1, h2⟩ := track_ensureReasoningItem s log
  rw [hp] at h1
  have hlatest : ∃ e, Log.latest (if w.phase.reasoning then log
      else ⟨.reasoning, false, false⟩ :: log.touch .reasoning) = some e ∧
        e.kind = .reasoning ∧ e.completed = false := by
    cases hr : w.phase.reasoning with
    | true => exact h.reasoning hr
    | false => exact ⟨_, rfl, rfl, rfl⟩
  have hactive : w.phase.message = true → Log.active (if w.phase.reasoning then log
      else ⟨.reasoning, false, false⟩ :: log.touch .reasoning) ≠ some ⟨.message, false, false⟩ := by
    intro hm hact
    cases hr : w.phase.reasoning with
    | true =>
      rw [hr, if_pos rfl, h.active hm] at hact
      exact Bool.false_ne_true ((h.shut hm hact).symm.trans hr)
    | false =>
      rw [hr, if_neg Bool.false_ne_true, active_cons_open] at hact
      simp at hact
  show Follows log w _ ((ensureReasoningItem s).2 ++ [.ok (.reasoningContentDelta text 0)])
  unfold Follows
  rw [foldl_append, checked_append, checked_append, h1]
  refine ⟨⟨fun _ => hlatest, fun hm => iff_of_false (hactive hm) Bool.noConfusion, fun _ hst => ?_⟩,
    ⟨(checked_of_plain h2 log).2, hlatest, trivial⟩,
    iff_of_true ⟨(checked_of_plain h2 log).1, trivial, trivial⟩ trivial⟩
  cases hst

theorem follows_text (text : Str) :
    Follows log w (.text text) (step ord (.text text) s).2 := by
  obtain ⟨h1, h2⟩ := track_finishReasoningItem s log
  obtain ⟨h3, h4⟩ := track_ensureMessageItem (finishReasoningItem s).1
    (if w.phase.reasoning then (log.complete .reasoning).touch .reasoning else log)
  rw [phase_finishReasoningItem] at h3
  rw [hp] at h1 h3
  have hactive : Log.active (if w.phase.message then
      if w.phase.reasoning then (log.complete .reasoning).touch .reasoning else log
      else ⟨.message, false, false⟩ ::
        if w.phase.reasoning then (log.complete .reasoning).touch .reasoning else log) =
        some ⟨.message, false, false⟩ ↔ (w.phase.message = true → w.stale = false) := by
    cases hm : w.phase.message with
    | true =>
      rw [forall_prop_of_true rfl]
      exact h.active_finish hm
    | false => exact iff_of_true rfl fun h => absurd h Bool.false_ne_true
  show Follows log w _ ((finishReasoningItem s).2 ++
    ((ensureMessageItem (finishReasoningItem s).1).2 ++ [.ok (.outputTextDelta text)]))
  unfold Follows
  rw [foldl_append, foldl_append, checked_append, checked_append, checked_append, checked_append,
    h1, h3]
  refine ⟨⟨fun hr => ?_, fun _ => hactive.trans ?_, fun _ _ => rfl⟩,
    ⟨(checked_of_plain h2 _).2, (checked_of_plain h4 _).2, trivial, trivial⟩, ?_⟩
  · cases hr
  · show _ ↔ (w.phase.message && w.stale) = false
    cases w.phase.message <;> simp
  · constructor
    · rintro ⟨_, _, hd, _⟩
      exact hactive.mp hd
    · intro hc
      exact ⟨(checked_of_plain h2 _).1, (checked_of_plain h4 _).1, hactive.mpr hc, trivial⟩

theorem follows_toolCalls :
    Follows log w .toolCalls (step ord .toolCalls s).2 := by
  obtain ⟨h1, h2⟩ := track_finishReasoningItem s log
  rw [hp] at h1
  refine follows_plain h2 trivial ?_
  show Shows ((finishReasoningItem s).2.foldl track log) _
  rw [h1]
  exact ⟨fun hr => Bool.noConfusion hr, fun hm => h.active_finish hm, fun _ _ => rfl⟩

theorem follows_toolCall (tc : ChatDeltaToolCall)
    (hr : w.phase.reasoning = false) : Follows log w (.toolCall tc) (step ord (.toolCall tc) s).2 := by
  obtain ⟨⟨callId, h1⟩, h2⟩ := track_processToolCallDelta tc s log
  rw [hp] at h1
  refine follows_plain h2 trivial ?_
  show Shows ((processToolCallDelta tc s).2.foldl track log) ⟨if _ then _ else _, w.stale || decide _⟩
  rw [h1]
  by_cases hnew : tc.header.isSome ∧ tc.index ∉ w.phase.calls
  · rw [if_pos hnew, if_pos hnew, decide_eq_true hnew, Bool.or_true]
    refine ⟨fun hr' => ?_, fun _ => iff_of_false ?_ Bool.noConfusion, fun _ _ => hr⟩
    · exact absurd (hr.symm.trans hr') Bool.false_ne_true
    · rw [active_cons_open]
      simp
  · rw [if_neg hnew, if_neg hnew, decide_eq_false hnew, Bool.or_false]
    exact h

/-- **A signal.**  The log goes on showing what is watched. -/
theorem follows_step : ∀ {sig : Signal}, Shut w sig →
    Follows log w sig (step ord sig s).2
  | .ids _ _, _ => follows_plain (forall_mem_nil _) trivial h
  | .flush tokenUsage, _ => by
    obtain ⟨h1, h2⟩ := emitPendingCompletion_log tokenUsage s log
    refine follows_plain h2 trivial ?_
    show Shows ((emitPendingCompletion tokenUsage s).2.foldl track log) _
    rw [h1]
    exact ⟨h.reasoning, h.active, h.shut⟩
  | .reasoning text, _ => follows_reasoning hp h text
  | .text text, _ => follows_text hp h text
  | .toolCalls, _ => follows_toolCalls hp h
  | .toolCall tc, hr => follows_toolCall hp h tc hr
  | .finish reason usage, _ => follows_plain (finishTurn_isPlain ord reason usage s) trivial
      ⟨fun hr => Bool.noConfusion hr, fun hm => Bool.noConfusion hm, fun hm => Bool.noConfusion hm⟩

end

end signals

/-! ### Whole streams -/

theorem shut_textSignal {text : Option Str} {f : Str → Signal} (h : ∀ t w, Shut w (f t)) (w : Watch) :
    Checked Watch.next Shut w (textSignal text f) := by
  refine checked_of_forall fun sig hsig => ?_
  unfold textSignal at hsig
  cases text with
  | none => exact absurd hsig not_mem_nil
  | some text =>
    dsimp only at hsig
    split_ifs at hsig
    · exact absurd hsig not_mem_nil
    · rw [mem_singleton.mp hsig]
      exact h text

theorem next_toolCall_reasoning (w : Watch) (tc : ChatDeltaToolCall) :
    (w.next (.toolCall tc)).phase.reasoning = w.phase.reasoning := by
  show (if _ then _ else _ : Phase).reasoning = _
  split_ifs <;> rfl

theorem shut_toolCalls : ∀ (tcs : List ChatDeltaToolCall) {w : Watch}, w.phase.reasoning = false →
    Checked Watch.next Shut w (tcs.map .toolCall)
  | [], _, _ => trivial
  | tc :: tcs, w, h => ⟨h, shut_toolCalls tcs ((next_toolCall_reasoning w tc).trans h)⟩

theorem shut_toolCallSignals (toolCalls : Option (List ChatDeltaToolCall)) (w : Watch) :
    Checked Watch.next Shut w (toolCallSignals toolCalls) := by
  unfold toolCallSignals
  cases toolCalls with
  | none => trivial
  | some tcs =>
    dsimp only
    split_ifs with he
    · rw [he]
      trivial
    · exact ⟨trivial, shut_toolCalls tcs rfl⟩

/-- In the signals of a chunk, no reasoning is open at a delta of a tool call. -/
theorem shut_signals (event : ChatSseEvent) (w : Watch) : Checked Watch.next Shut w (signals event) := by
  cases event with
  | done => exact ⟨trivial, trivial⟩
  | chunk id model choices usage =>
    refine ⟨trivial, checked_append.mpr ⟨checked_of_forall fun sig hsig w => ?_, ?_⟩⟩
    · unfold usageSignals at hsig
      split at hsig
      · rw [mem_singleton.mp hsig]
        trivial
      · exact absurd hsig not_mem_nil
    · refine checked_flatMap fun choice w => ?_
      unfold choiceSignals
      rw [checked_append, checked_append, checked_append]
      refine ⟨shut_textSignal ?_ _, shut_textSignal ?_ _, shut_toolCallSignals _ _, shut_textSignal ?_ _⟩
      all_goals exact fun _ _ => trivial

theorem shows_new : Shows [] .new :=
  ⟨fun h => Bool.noConfusion h, fun h => Bool.noConfusion h, fun h => Bool.noConfusion h⟩

/-- What holds of the events of every signal holds of those of a stream. -/
theorem checked_sent_iff {fine : Log → Sent → Prop} {ok : Watch → Signal → Prop}
    (hfine : ∀ {log w sig sent}, Follows log w sig sent → (Checked track fine log sent ↔ ok w sig))
    (ord : IterOrder ℕ) (events : List ChatSseEvent) :
    Checked track fine [] (run (handleChatSseEvent ord) events .new).2 ↔
      Checked Watch.next ok .new (events.flatMap signals) := by
  rw [run_handleChatSseEvent]
  refine checked_run_iff (I := fun s log w => s.phase = w.phase ∧ Shows log w) ?_ ⟨rfl, shows_new⟩
    (checked_flatMap shut_signals)
  rintro sig s log w ⟨hp, hs⟩ hg
  have hf : Follows log w sig (step ord sig s).2 := follows_step hp hs hg
  exact ⟨⟨by rw [phase_step, hp]; rfl, hf.1⟩, hfine hf⟩

/-- **Reasoning.**  Every reasoning delta comes while the latest item is an open reasoning item. -/
theorem reasoning_bracketed (ord : IterOrder ℕ) (events : List ChatSseEvent) :
    Checked track ReasoningInPlace [] (run (handleChatSseEvent ord) events .new).2 := by
  refine (@checked_sent_iff _ (fun _ _ => True) (fun h => iff_of_true h.2.1 trivial) ord events).mpr ?_
  exact checked_of_forall fun _ _ _ => trivial

/-- **The items of a stream** are well bracketed exactly when no text continues a message that
reasoning or a new tool call came after. -/
theorem wellBracketed_iff (ord : IterOrder ℕ) (events : List ChatSseEvent) :
    WellBracketed (run (handleChatSseEvent ord) events .new).2 ↔
      Checked Watch.next Continues .new (events.flatMap signals) := by
  rw [wellBracketed_checked, checked_sent_iff fun h => h.2.2]
  exact and_iff_left (reasoning_bracketed ord events)

/-- A chunk with one delta and no end of the turn. -/
def deltaChunk (content reasoning : Option Str) : ChatSseEvent :=
  .chunk "r" "m" [⟨⟨none, content, reasoning, none⟩, none⟩] none

/-- Text, then reasoning, then text again. -/
def textAgain : List ChatSseEvent :=
  [deltaChunk (some "a") none, deltaChunk none (some "b"), deltaChunk (some "c") none]

/-- The second text continues the first message, after the reasoning. -/
theorem not_wellBracketed_textAgain :
    (run (handleChatSseEvent (.inOrder ℕ)) textAgain .new).2 =
        [.ok (.outputItemAdded (.message none "assistant" [])),
          .ok (.outputTextDelta "a"),
          .ok (.outputItemAdded (.reasoning "rs_chat_0" (some []))),
          .ok (.reasoningContentDelta "b" 0),
          .ok (.outputItemDone (.reasoning "rs_chat_0" (some [.reasoningText "b"]))),
          .ok (.outputTextDelta "c")] ∧
      ¬ WellBracketed (run (handleChatSseEvent (.inOrder ℕ)) textAgain .new).2 := by
  refine ⟨by decide +kernel, fun h => ?_⟩
  have hlate := (h ((run (handleChatSseEvent (.inOrder ℕ)) textAgain .new).2.take 5) (.ok (.outputTextDelta "c"))
    [] (by decide +kernel)).1
  unfold TextInPlace at hlate
  exact absurd hlate (by decide +kernel)

end OpenAgere.ChatSse
