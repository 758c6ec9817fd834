import OpenAgere.ChatSse

/-! # The end of a Chat Completions stream

`process_chat_sse` of `openai-chat-client/src/sse.rs`: a loop over the inputs of a stream that
ends at `[DONE]`, at the end of the stream, at a transport error or at an idle timeout.  A
completion is sent by a chunk that finishes with its usage, or it is pending and flushed later.
The decoding of the data is a parameter.

`Terminated` says that exactly one terminal event was sent, and last.  The loop goes on after a
completion, so this can fail; `processChatSse_terminated_iff` says for which inputs it holds
(`Clean`): nothing speaks once the stream is completed, and a completed stream ends by `[DONE]`
or by its end, with no completion pending. -/

namespace OpenAgere.ChatSse

open List Emitter Text

open Models (TokenUsage)

/-! ### The loop -/

/-- What the loop waits for. -/
inductive StreamInput where
  | data (data : Str)
  | streamError (message : Str)
  | closed
  | idleTimeout
deriving DecidableEq, Repr

/-- What the loop does with an input: return, or go on in a new state. -/
inductive Reaction where
  | stop (sent : List Sent)
  | next (state : ChatSseState) (sent : List Sent)

section loop
variable (decode : Str → Option ChatSseEvent) (ord : IterOrder ℕ)

/-- Flush a pending completion, or send something else. -/
def flushOr (state : ChatSseState) (otherwise : ChatSseState → List Sent) : List Sent :=
  let r := handleChatSseEvent ord .done state
  if r.2 = [] then otherwise r.1 else r.2

/-- The end of the stream without a completion to flush. -/
def closedBeforeCompletion (state : ChatSseState) : List Sent :=
  if state.completed then [] else [.error (.stream "stream closed before completion")]

def isDoneMarker (data : Str) : Bool := trim data = "[DONE]"

def react (state : ChatSseState) : StreamInput → Reaction
  | .streamError message => .stop (flushOr ord state fun _ => [.error (.stream message)])
  | .closed => .stop (flushOr ord state closedBeforeCompletion)
  | .idleTimeout =>
      .stop (flushOr ord state fun _ => [.error (.stream "idle timeout waiting for SSE")])
  | .data data =>
      if isDoneMarker data then .stop (flushOr ord state closedBeforeCompletion)
      else
        match decode data with
        | some event => .next (handleChatSseEvent ord event state).1 (handleChatSseEvent ord event state).2
        | none => .next state []

/-- What is sent for some inputs, and whether the loop has returned. -/
def processChatSse : ChatSseState → List StreamInput → List Sent × Bool
  | _, [] => ([], false)
  | state, input :: inputs =>
      match react decode ord state input with
      | .stop sent => (sent, true)
      | .next state sent => (sent ++ (processChatSse state inputs).1, (processChatSse state inputs).2)

end loop

/-! ### Terminal events -/

/-- A completion or an error. -/
def isTerminal : Sent → Bool
  | .error _ => true
  | .ok (.completed _ _ _) => true
  | .ok _ => false

/-- No terminal event. -/
def NoTerminal (sent : List Sent) : Prop := ∀ x ∈ sent, isTerminal x = false

/-- Exactly one terminal event, and it is the last one. -/
def Terminated (sent : List Sent) : Prop :=
  ∃ init t, sent = init ++ [t] ∧ isTerminal t ∧ NoTerminal init

theorem NoTerminal.append {a b : List Sent} (ha : NoTerminal a) (hb : NoTerminal b) : NoTerminal (a ++ b) :=
  forall_mem_append.mpr ⟨ha, hb⟩

theorem noTerminal_nil : NoTerminal [] := forall_mem_nil _

theorem terminated_append {a b : List Sent} (ha : NoTerminal a) : Terminated (a ++ b) ↔ Terminated b := by
  constructor
  · rintro ⟨init, t, he, ht, hi⟩
    rcases eq_nil_or_concat b with rfl | ⟨b', u, rfl⟩
    · rw [append_nil] at he
      have := ha t (by rw [he]; simp)
      rw [ht] at this
      cases this
    · rw [concat_eq_append, ← append_assoc] at he
      obtain ⟨h1, h2⟩ := append_inj' he rfl
      refine ⟨b', t, by rw [concat_eq_append, h2], ht, fun x hx => hi x ?_⟩
      rw [← h1]
      exact mem_append_right a hx
  · rintro ⟨init, t, rfl, ht, hi⟩
    exact ⟨a ++ init, t, by rw [append_assoc], ht, ha.append hi⟩

theorem terminated_cons {t : Sent} {rest : List Sent} (ht : isTerminal t) :
    Terminated (t :: rest) ↔ rest = [] := by
  constructor
  · rintro ⟨init, u, he, hu, hi⟩
    cases init with
    | nil =>
      cases he
      rfl
    | cons x init =>
      cases he
      have := hi t (by simp)
      rw [ht] at this
      cases this
  · rintro rfl
    exact ⟨[], t, rfl, ht, noTerminal_nil⟩

/-! ### Handlers and the completion -/

/-- The handler completes nothing. -/
def Plain (f : Handler) : Prop := ∀ s, (f s).1.completed = s.completed ∧ NoTerminal (f s).2

/-- The handler completes nothing, or sends one completion at its end. -/
def MayComplete (f : Handler) : Prop := ∀ s, ((f s).1.completed = s.completed ∧ NoTerminal (f s).2) ∨
  ((f s).1.completed ∧ Terminated (f s).2)

theorem Plain.seq {f g : Handler} (hf : Plain f) (hg : Plain g) : Plain (seq f g) := by
  intro s
  exact ⟨(hg _).1.trans (hf s).1, (hf s).2.append (hg _).2⟩

theorem Plain.mayComplete {f : Handler} (hf : Plain f) : MayComplete f := fun s => Or.inl (hf s)

theorem Plain.seq_mayComplete {f g : Handler} (hf : Plain f) (hg : MayComplete g) :
    MayComplete (Emitter.seq f g) := by
  intro s
  obtain ⟨h1, h2⟩ := hf s
  rcases hg (f s).1 with ⟨h3, h4⟩ | ⟨h3, h4⟩
  · exact Or.inl ⟨h3.trans h1, h2.append h4⟩
  · exact Or.inr ⟨h3, (terminated_append h2).mpr h4⟩

theorem plain_of_single {f : Handler} (h : ∀ s, (f s).1.completed = s.completed ∧
    ((f s).2 = [] ∨ ∃ x, (f s).2 = [x] ∧ isTerminal x = false)) : Plain f := by
  intro s
  obtain ⟨h1, h2 | ⟨x, h2, h3⟩⟩ := h s
  · exact ⟨h1, by rw [h2]; exact noTerminal_nil⟩
  · exact ⟨h1, by rw [h2]; exact forall_mem_singleton.mpr h3⟩

theorem ensureReasoningItem_plain : Plain ensureReasoningItem := by
  refine plain_of_single fun s => ?_
  unfold ensureReasoningItem
  split_ifs
  · exact ⟨rfl, Or.inl rfl⟩
  · exact ⟨rfl, Or.inr ⟨_, rfl, rfl⟩⟩

theorem ensureMessageItem_plain : Plain ensureMessageItem := by
  refine plain_of_single fun s => ?_
  unfold ensureMessageItem
  split_ifs
  · exact ⟨rfl, Or.inl rfl⟩
  · exact ⟨rfl, Or.inr ⟨_, rfl, rfl⟩⟩

theorem finishReasoningItem_plain : Plain finishReasoningItem := by
  refine plain_of_single fun s => ?_
  unfold finishReasoningItem
  by_cases h : s.assistantReasoningEmitted = true
  · rw [if_pos h]
    exact ⟨rfl, Or.inr ⟨_, rfl, rfl⟩⟩
  · rw [if_neg h]
    exact ⟨rfl, Or.inl rfl⟩

theorem argumentDelta_plain (idx : ℕ) (args : Option Str) : Plain (argumentDelta idx args) := by
  refine plain_of_single fun s => ?_
  unfold argumentDelta
  split
  · exact ⟨rfl, Or.inr ⟨_, rfl, rfl⟩⟩
  · exact ⟨rfl, Or.inl rfl⟩

theorem processToolCallDelta_plain (tc : ChatDeltaToolCall) : Plain (processToolCallDelta tc) := by
  have hadd : ∀ id name, Plain (addToolCall tc.index id name) := fun id name =>
    plain_of_single fun s => ⟨rfl, Or.inr ⟨_, rfl, rfl⟩⟩
  intro s
  unfold processToolCallDelta
  split
  · next id name _ =>
      split_ifs
      · exact ⟨rfl, noTerminal_nil⟩
      · exact (hadd id name).seq (argumentDelta_plain _ _) s
  · exact argumentDelta_plain _ _ s

theorem completeToolCalls_plain (ord : IterOrder ℕ) : Plain (completeToolCalls ord) := by
  intro s
  refine ⟨rfl, fun x hx => ?_⟩
  obtain ⟨acc, _, rfl⟩ := mem_map.mp hx
  rfl

theorem completeTurn_mayComplete (endTurn : Option Bool) (usage : Option ChatUsage) :
    MayComplete (completeTurn endTurn usage) := by
  intro s
  cases usage with
  | none => exact Or.inl ⟨rfl, noTerminal_nil⟩
  | some usage => exact Or.inr ⟨rfl, [], _, rfl, rfl, noTerminal_nil⟩

theorem emitPendingCompletion_mayComplete (tokenUsage : Option TokenUsage) :
    MayComplete (emitPendingCompletion tokenUsage) := by
  intro s
  unfold emitPendingCompletion
  split
  · exact Or.inr ⟨rfl, [], _, rfl, rfl, noTerminal_nil⟩
  · exact Or.inl ⟨rfl, noTerminal_nil⟩

/-- A step completes nothing, or sends one completion at its end. -/
theorem step_mayComplete (ord : IterOrder ℕ) : ∀ sig : Signal, MayComplete (step ord sig)
  | .ids _ _ => fun _ => Or.inl ⟨rfl, noTerminal_nil⟩
  | .flush tokenUsage => emitPendingCompletion_mayComplete tokenUsage
  | .reasoning _ => (ensureReasoningItem_plain.seq
      (plain_of_single fun _ => ⟨rfl, Or.inr ⟨_, rfl, rfl⟩⟩)).mayComplete
  | .text _ => (finishReasoningItem_plain.seq (ensureMessageItem_plain.seq
      (plain_of_single fun _ => ⟨rfl, Or.inr ⟨_, rfl, rfl⟩⟩))).mayComplete
  | .toolCalls => finishReasoningItem_plain.mayComplete
  | .toolCall tc => (processToolCallDelta_plain tc).mayComplete
  | .finish _ usage => finishReasoningItem_plain.seq_mayComplete ((completeToolCalls_plain ord).seq_mayComplete
      (Plain.seq_mayComplete (plain_of_single fun _ => ⟨rfl, Or.inr ⟨_, rfl, rfl⟩⟩)
        (completeTurn_mayComplete _ usage)))

/-! ### Silence -/

/-- The signal sends something, in this phase. -/
def Phase.speaks (p : Phase) : Signal → Bool
  | .ids _ _ => false
  | .flush _ => p.pending
  | .reasoning _ => true
  | .text _ => true
  | .toolCalls => p.reasoning
  | .toolCall tc =>
      if tc.header.isSome then decide (tc.index ∉ p.calls)
      else tc.fragment.isSome && decide (tc.index ∈ p.calls)
  | .finish _ _ => true

theorem argumentDelta_nil_iff (idx : ℕ) (args : Option Str) (s : ChatSseState) :
    (argumentDelta idx args s).2 = [] ↔ (args.isSome && s.toolCalls.containsKey idx) = false := by
  rw [← HashMap.get_isSome]
  unfold argumentDelta
  cases args <;> cases s.toolCalls.get idx <;> simp

theorem processToolCallDelta_nil_iff (tc : ChatDeltaToolCall) (s : ChatSseState) :
    (processToolCallDelta tc s).2 = [] ↔ s.phase.speaks (.toolCall tc) = false := by
  show _ ↔ (if tc.header.isSome then decide (tc.index ∉ s.phase.calls)
    else tc.fragment.isSome && s.toolCalls.containsKey tc.index) = false
  cases hh : tc.header with
  | none =>
    rw [processToolCallDelta_of_none hh]
    exact argumentDelta_nil_iff _ _ _
  | some header =>
    by_cases hc : tc.index ∈ s.phase.calls
    · rw [processToolCallDelta_of_open hh hc]
      simp [hc]
    · rw [processToolCallDelta_of_new hh hc]
      simp [hc, seq, addToolCall]

theorem step_nil_iff (ord : IterOrder ℕ) (s : ChatSseState) : ∀ sig : Signal,
    (step ord sig s).2 = [] ↔ s.phase.speaks sig = false
  | .ids _ _ => iff_of_true rfl rfl
  | .flush tokenUsage => by
    show (emitPendingCompletion tokenUsage s).2 = [] ↔ s.pendingCompletion.isSome = false
    unfold emitPendingCompletion emitCompletedEvent
    cases s.pendingCompletion <;> simp
  | .reasoning text => by
    show (ensureReasoningItem s).2 ++ [_] = [] ↔ true = false
    simp
  | .text text => by
    show (finishReasoningItem s).2 ++ ((ensureMessageItem (finishReasoningItem s).1).2 ++ [_]) = [] ↔ true = false
    simp
  | .toolCalls => by
    show (finishReasoningItem s).2 = [] ↔ s.assistantReasoningEmitted = false
    unfold finishReasoningItem
    cases s.assistantReasoningEmitted <;> simp
  | .toolCall tc => processToolCallDelta_nil_iff tc s
  | .finish reason usage => by
    show (finishReasoningItem s).2 ++ ((completeToolCalls ord (finishReasoningItem s).1).2 ++
      ((completeMessage _).2 ++ (completeTurn _ usage _).2)) = [] ↔ true = false
    simp [completeMessage]

/-- No signal speaks once the stream is completed. -/
def SilentOnceCompleted (sigs : List Signal) (p : Phase) : Prop :=
  Checked Phase.next (fun p sig => p.completed → p.speaks sig = false) p sigs

instance (sigs : List Signal) (p : Phase) : Decidable (SilentOnceCompleted sigs p) :=
  inferInstanceAs (Decidable (Checked _ _ _ _))

section silent
variable (ord : IterOrder ℕ)

theorem run_nil_iff : ∀ (sigs : List Signal) {s : ChatSseState}, s.completed →
    (run (step ord) sigs s).1.completed ∧
      ((run (step ord) sigs s).2 = [] ↔ SilentOnceCompleted sigs s.phase)
  | [], s, h => ⟨h, iff_of_true rfl trivial⟩
  | sig :: sigs, s, h => by
    have hcompleted : (step ord sig s).1.completed = true := by
      rcases step_mayComplete ord sig s with ⟨h1, _⟩ | ⟨h1, _⟩
      · rw [h1, h]
      · exact h1
    obtain ⟨h1, h2⟩ := run_nil_iff sigs hcompleted
    refine ⟨h1, ?_⟩
    show (step ord sig s).2 ++ _ = [] ↔
      (s.completed = true → s.phase.speaks sig = false) ∧ SilentOnceCompleted sigs (s.phase.next sig)
    rw [append_eq_nil_iff, h2, step_nil_iff, phase_step, forall_prop_of_true h]

/-- **The signals of a chunk.**  They leave the stream open, or complete it once; what they send
after the completion is nothing when no signal speaks. -/
theorem run_completes : ∀ (sigs : List Signal) {s : ChatSseState}, s.completed = false →
    ((run (step ord) sigs s).1.completed = false ∧ NoTerminal (run (step ord) sigs s).2 ∧
        SilentOnceCompleted sigs s.phase) ∨
      ((run (step ord) sigs s).1.completed ∧ ∃ init t rest,
        (run (step ord) sigs s).2 = init ++ t :: rest ∧ NoTerminal init ∧ isTerminal t ∧
        (rest = [] ↔ SilentOnceCompleted sigs s.phase))
  | [], s, h => Or.inl ⟨h, noTerminal_nil, trivial⟩
  | sig :: sigs, s, h => by
    have hopen : s.phase.completed = true → s.phase.speaks sig = false := by
      intro hc
      exact absurd (h.symm.trans hc) Bool.false_ne_true
    have hsil : SilentOnceCompleted (sig :: sigs) s.phase ↔
        SilentOnceCompleted sigs (step ord sig s).1.phase := by
      rw [phase_step]
      exact and_iff_right hopen
    rw [hsil, run_cons]
    rcases step_mayComplete ord sig s with ⟨h1, h2⟩ | ⟨h1, h2⟩
    · rw [h] at h1
      rcases run_completes sigs h1 with ⟨h3, h4, h5⟩ | ⟨h3, init, t, rest, h4, h5, h6, h7⟩
      · exact Or.inl ⟨h3, h2.append h4, h5⟩
      · refine Or.inr ⟨h3, (step ord sig s).2 ++ init, t, rest, ?_, h2.append h5, h6, h7⟩
        rw [h4, append_assoc]
    · obtain ⟨h3, h4⟩ := run_nil_iff ord sigs h1
      obtain ⟨init, t, h5, h6, h7⟩ := h2
      refine Or.inr ⟨h3, init, t, _, ?_, h7, h6, h4⟩
      rw [h5, append_assoc]
      rfl

end silent

/-! ### Inputs -/

/-- What an input is to the loop: an event, nothing, or an end; `[DONE]` and the end of the stream
are quiet ends, that need no error of their own. -/
inductive InputKind where
  | event (event : ChatSseEvent)
  | skipped
  | ends (quietly : Bool)
deriving DecidableEq

def StreamInput.kind (decode : Str → Option ChatSseEvent) : StreamInput → InputKind
  | .data d =>
      if isDoneMarker d then .ends true
      else
        match decode d with
        | some event => .event event
        | none => .skipped
  | .closed => .ends true
  | .streamError _ => .ends false
  | .idleTimeout => .ends false

theorem flushOr_eq (ord : IterOrder ℕ) (s : ChatSseState) (otherwise : ChatSseState → List Sent) :
    flushOr ord s otherwise = match s.pendingCompletion with
      | some pending => [.ok (.completed (s.responseId.getD []) none pending.endTurn)]
      | none => otherwise s := by
  show (if (emitPendingCompletion none s).2 = [] then otherwise (emitPendingCompletion none s).1
    else (emitPendingCompletion none s).2) = _
  unfold emitPendingCompletion
  cases s.pendingCompletion with
  | none => rfl
  | some pending => exact if_neg (cons_ne_nil _ _)

/-- What an end sends: nothing, or one terminal event. -/
def EndSends (s : ChatSseState) (quietly : Bool) (sent : List Sent) : Prop :=
  ∃ t : Sent, isTerminal t ∧
    sent = if s.phase.pending = false ∧ s.completed ∧ quietly then [] else [t]

theorem endSends_flushOr {ord : IterOrder ℕ} {s : ChatSseState} {quietly : Bool}
    {otherwise : ChatSseState → List Sent} (error : ApiError)
    (h : otherwise s = if s.completed = true ∧ quietly = true then [] else [.error error]) :
    EndSends s quietly (flushOr ord s otherwise) := by
  rw [flushOr_eq]
  unfold EndSends ChatSseState.phase
  cases s.pendingCompletion with
  | none =>
    refine ⟨.error error, rfl, ?_⟩
    rw [h]
    simp
  | some pending => exact ⟨.ok (.completed (s.responseId.getD []) none pending.endTurn), rfl, by simp⟩

theorem endSends_closed (ord : IterOrder ℕ) (s : ChatSseState) :
    EndSends s true (flushOr ord s closedBeforeCompletion) := by
  refine endSends_flushOr (.stream "stream closed before completion") ?_
  unfold closedBeforeCompletion
  simp only [and_true]

theorem react_kind (decode : Str → Option ChatSseEvent) (ord : IterOrder ℕ) (s : ChatSseState)
    (input : StreamInput) : match input.kind decode with
      | .event event => react decode ord s input =
          .next (run (step ord) (signals event) s).1 (run (step ord) (signals event) s).2
      | .skipped => react decode ord s input = .next s []
      | .ends quietly => ∃ sent, react decode ord s input = .stop sent ∧ EndSends s quietly sent := by
  cases input with
  | data d =>
    unfold StreamInput.kind react
    dsimp only
    by_cases hm : isDoneMarker d = true
    · rw [if_pos hm, if_pos hm]
      exact ⟨_, rfl, endSends_closed ord s⟩
    · rw [if_neg hm, if_neg hm]
      cases decode d with
      | none => rfl
      | some event =>
        dsimp only
        rw [handleChatSseEvent_eq]
  | closed => exact ⟨_, rfl, endSends_closed ord s⟩
  | streamError | idleTimeout =>
    exact ⟨_, rfl, endSends_flushOr _ (if_neg fun h => Bool.false_ne_true h.2).symm⟩

/-! ### Whole streams -/

section streams
variable (decode : Str → Option ChatSseEvent)

/-- Nothing speaks once the stream is completed, and a completed stream ends by `[DONE]` or by its
end, with no completion pending. -/
def Clean : List StreamInput → Phase → Prop
  | [], _ => True
  | input :: inputs, p =>
      match input.kind decode with
      | .event event => SilentOnceCompleted (signals event) p ∧ Clean inputs (p.after (signals event))
      | .skipped => Clean inputs p
      | .ends quietly => p.completed → p.pending = false ∧ quietly

instance decidableClean : ∀ (inputs : List StreamInput) (p : Phase), Decidable (Clean decode inputs p)
  | [], _ => isTrue trivial
  | input :: inputs, p =>
      have := decidableClean inputs
      match hk : input.kind decode with
      | .event event => decidable_of_iff
          (SilentOnceCompleted (signals event) p ∧ Clean decode inputs (p.after (signals event)))
          (by rw [Clean, hk])
      | .skipped => decidable_of_iff (Clean decode inputs p) (by rw [Clean, hk])
      | .ends quietly => decidable_of_iff (p.completed = true → p.pending = false ∧ quietly = true)
          (by rw [Clean, hk])

variable {decode} {ord : IterOrder ℕ}

/-- **The loop.**  From a completed state nothing more is sent, from an open one exactly one
terminal event and last, exactly when the rest of the inputs is clean. -/
theorem processChatSse_clean : ∀ {inputs : List StreamInput} {s : ChatSseState},
    (processChatSse decode ord s inputs).2 →
    (s.completed → ((processChatSse decode ord s inputs).1 = [] ↔ Clean decode inputs s.phase)) ∧
      (s.completed = false →
        (Terminated (processChatSse decode ord s inputs).1 ↔ Clean decode inputs s.phase))
  | [], _, h => by cases h
  | input :: inputs, s, h => by
    have hreact := react_kind decode ord s input
    unfold Clean
    unfold processChatSse at h ⊢
    cases hk : input.kind decode with
    | skipped =>
      rw [hk] at hreact
      rw [hreact] at h ⊢
      exact processChatSse_clean h
    | ends quietly =>
      rw [hk] at hreact
      obtain ⟨sent, hsent, t, ht, hs⟩ := hreact
      rw [hsent]
      dsimp only
      rw [hs]
      refine ⟨fun hc => ?_, fun hc => ?_⟩
      · have hp : s.phase.completed = true := hc
        rw [forall_prop_of_true hp]
        simp [hc]
      · have hp : ¬ s.phase.completed = true := Bool.eq_false_iff.mp hc
        rw [if_neg fun h => Bool.eq_false_iff.mp hc h.2.1, terminated_cons ht]
        exact iff_of_true rfl fun h => absurd h hp
    | event event =>
      rw [hk] at hreact
      rw [hreact] at h ⊢
      obtain ⟨ih1, ih2⟩ := processChatSse_clean h
      rw [phase_run] at ih1 ih2
      dsimp only
      refine ⟨fun hc => ?_, fun hc => ?_⟩
      · obtain ⟨h1, h2⟩ := run_nil_iff ord (signals event) hc
        rw [append_eq_nil_iff, h2, ih1 h1]
      · rcases run_completes ord (signals event) hc with
          ⟨h1, h2, h3⟩ | ⟨h1, init, t, rest, h2, h3, h4, h5⟩
        · rw [terminated_append h2, ih2 h1]
          exact (and_iff_right h3).symm
        · rw [h2, append_assoc, terminated_append h3, cons_append, terminated_cons h4,
            append_eq_nil_iff, h5, ih1 h1]

theorem processChatSse_returns_iff : ∀ {inputs : List StreamInput} {s : ChatSseState},
    (processChatSse decode ord s inputs).2 ↔
      ∃ input ∈ inputs, ∃ quietly, input.kind decode = .ends quietly
  | [], _ => by simp [processChatSse]
  | input :: inputs, s => by
    have hreact := react_kind decode ord s input
    rw [exists_mem_cons_iff]
    unfold processChatSse
    cases hk : input.kind decode with
    | ends quietly =>
      rw [hk] at hreact
      obtain ⟨sent, hsent, _⟩ := hreact
      rw [hsent]
      exact iff_of_true rfl (Or.inl ⟨quietly, rfl⟩)
    | skipped | event =>
      rw [hk] at hreact
      rw [hreact]
      simpa using processChatSse_returns_iff

end streams

/-- **The end of the stream.**  When the loop has returned, exactly one terminal event was sent,
and last, exactly when nothing spoke once the stream was completed and a completed stream ended
by `[DONE]` or by its end, with no completion pending. -/
theorem processChatSse_terminated_iff {decode : Str → Option ChatSseEvent} {ord : IterOrder ℕ}
    {inputs : List StreamInput} (h : (processChatSse decode ord .new inputs).2) :
    Terminated (processChatSse decode ord .new inputs).1 ↔ Clean decode inputs .new :=
  (processChatSse_clean h).2 rfl

/-- A chunk that finishes a turn with its usage. -/
def answer : ChatSseEvent :=
  .chunk "r" "m" [⟨⟨none, some "hi", none, none⟩, some "stop"⟩]
    (some ⟨some 1, some 1, none, none⟩)

/-- One text is decoded, and nothing else. -/
def decodeAnswer (data : Str) : Option ChatSseEvent := if data = "answer" then some answer else none

theorem processChatSse_terminated_done :
    (processChatSse decodeAnswer (.inOrder ℕ) .new
        [.data "noise", .data "answer", .data "[DONE]"]).2 ∧
      Terminated (processChatSse decodeAnswer (.inOrder ℕ) .new
        [.data "noise", .data "answer", .data "[DONE]"]).1 :=
  ⟨by decide +kernel, (processChatSse_terminated_iff (by decide +kernel)).mpr (by decide +kernel)⟩

/-- A transport error after the completion is sent as a second terminal event. -/
theorem not_terminated_errorAfterCompletion :
    processChatSse decodeAnswer (.inOrder ℕ) .new [.data "answer", .streamError "reset"] =
        ([.ok (.outputItemAdded (.message none "assistant" [])),
          .ok (.outputTextDelta "hi"),
          .ok (.outputItemDone (.message none "assistant" [.outputText "hi"])),
          .ok (.completed "r" (some ⟨1, 0, 1, 0, 2⟩) (some true)),
          .error (.stream "reset")], true) ∧
      ¬ Terminated (processChatSse decodeAnswer (.inOrder ℕ) .new
        [.data "answer", .streamError "reset"]).1 := by
  refine ⟨by decide +kernel, fun h => ?_⟩
  have hclean := ((processChatSse_clean (by decide +kernel)).2 rfl).mp h
  exact absurd hclean (by decide +kernel)

end OpenAgere.ChatSse
