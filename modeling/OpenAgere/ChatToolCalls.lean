import OpenAgere.ChatSse

/-! # The tool calls of a stream

A ledger of the open tool calls, in the order in which they were added, is kept from the signals
alone: every piece of arguments counts for the call of its index, whether or not the delta
repeats the header of the call (`Ledger.record`).  The handler keeps the ledger of the pieces
without those that come with a repeated header (`kept`), and completes the calls of that ledger
once each, in the order of its hash map (`turns_run`).

`toolCalls_accounted_iff` says which streams complete every call with all its arguments, and
`toolCalls_ordered_iff` which ones complete the calls in the order in which they were added,
whatever the order of the hash map. -/

namespace OpenAgere.ChatSse

open List Emitter

open Models (TokenUsage)

/-! ### Turns, as the events show them -/

/-- The tool calls added and completed up to the end of a message. -/
structure Turn where
  added : List (Str × Str)
  completed : List ToolCallAccumulator
deriving DecidableEq, Repr

/-- What an event adds to the turns: a message that is done ends a turn. -/
def note (t : List Turn × Turn) (sent : Sent) : List Turn × Turn :=
  match sent with
  | .ok (.outputItemAdded (.functionCall _ callId name _)) =>
      (t.1, ⟨t.2.added ++ [(callId, name)], t.2.completed⟩)
  | .ok (.outputItemDone (.functionCall _ callId name arguments)) =>
      (t.1, ⟨t.2.added, t.2.completed ++ [⟨callId, name, arguments⟩]⟩)
  | .ok (.outputItemDone (.message _ _ _)) => (t.1 ++ [t.2], ⟨[], []⟩)
  | _ => t

/-- The turns that ended and the one that did not. -/
def turns (sent : List Sent) : List Turn × Turn := sent.foldl note ([], ⟨[], []⟩)

/-! ### The ledger -/

/-- The open tool calls with their indices, in the order in which they were added. -/
abbrev Ledger : Type := List (ℕ × ToolCallAccumulator)

namespace Ledger

def opens (l : Ledger) (idx : ℕ) : Bool := decide (idx ∈ l.map Prod.fst)

/-- A piece of arguments for the call of an index. -/
def extend (l : Ledger) (idx : ℕ) (args : Str) : Ledger :=
  l.map fun e => if e.1 = idx then (e.1, { e.2 with arguments := e.2.arguments ++ args }) else e

/-- The call a delta adds, if it has a header and its index is not open. -/
def open? (l : Ledger) (tc : ChatDeltaToolCall) : Ledger :=
  match tc.header with
  | some (id, name) => if l.opens tc.index then l else l ++ [(tc.index, ⟨id, name, []⟩)]
  | none => l

/-- A delta: its call is added if it is new, and its piece of arguments counts. -/
def record (l : Ledger) (tc : ChatDeltaToolCall) : Ledger :=
  (l.open? tc).extend tc.index (tc.fragment.getD [])

/-- The delta repeats the header of an open call. -/
def Repeats (l : Ledger) (tc : ChatDeltaToolCall) : Prop := tc.header ≠ none ∧ l.opens tc.index

instance (l : Ledger) (tc : ChatDeltaToolCall) : Decidable (l.Repeats tc) :=
  inferInstanceAs (Decidable (_ ∧ _))

/-- A delta, without its piece of arguments if it repeats a header. -/
def keep (l : Ledger) (tc : ChatDeltaToolCall) : Ledger := if l.Repeats tc then l else l.record tc

def heads (l : Ledger) : List (Str × Str) := l.map fun e => (e.2.id, e.2.name)

def calls (l : Ledger) : List ToolCallAccumulator := l.map Prod.snd

end Ledger

/-- The ledgers at the ends of the turns, when `rec` says what a delta does to a ledger. -/
def ledgers (rec : Ledger → ChatDeltaToolCall → Ledger) : Ledger → List Signal → List Ledger
  | _, [] => []
  | l, .toolCall tc :: sigs => ledgers rec (rec l tc) sigs
  | l, .finish _ _ :: sigs => l :: ledgers rec [] sigs
  | l, _ :: sigs => ledgers rec l sigs

/-- The ledgers with every piece counted. -/
def expected (sigs : List Signal) : List Ledger := ledgers Ledger.record [] sigs

/-- The ledgers without the pieces that come with a repeated header. -/
def kept (sigs : List Signal) : List Ledger := ledgers Ledger.keep [] sigs

/-- The signals that have nothing to do with tool calls. -/
def Signal.quiet : Signal → Bool
  | .toolCall _ => false
  | .finish _ _ => false
  | _ => true

/-- Induction over signals: those without tool calls, deltas of tool calls, and ends of turns. -/
@[elab_as_elim] theorem signals_induction {motive : List Signal → Prop} (nil : motive [])
    (quiet : ∀ sig sigs, sig.quiet → motive sigs → motive (sig :: sigs))
    (toolCall : ∀ tc sigs, motive sigs → motive (.toolCall tc :: sigs))
    (finish : ∀ reason usage sigs, motive sigs → motive (.finish reason usage :: sigs)) :
    ∀ sigs, motive sigs
  | [] => nil
  | sig :: sigs => by
    have ih := signals_induction nil quiet toolCall finish sigs
    cases sig with
    | toolCall tc => exact toolCall tc sigs ih
    | finish reason usage => exact finish reason usage sigs ih
    | _ => exact quiet _ sigs rfl ih

variable {rec : Ledger → ChatDeltaToolCall → Ledger} {sig : Signal}

theorem ledgers_quiet (h : sig.quiet)
    (l : Ledger) (sigs : List Signal) : ledgers rec l (sig :: sigs) = ledgers rec l sigs := by
  cases sig <;> first | rfl | cases h

/-! ### Handlers without tool calls -/

/-- The handler leaves the tool calls alone, and its events too. -/
def Quiet (f : Handler) : Prop := ∀ s t, (f s).1.toolCalls = s.toolCalls ∧ (f s).2.foldl note t = t

theorem Quiet.seq {f g : Handler} (hf : Quiet f) (hg : Quiet g) : Quiet (seq f g) := by
  intro s t
  refine ⟨(hg _ t).1.trans (hf s t).1, ?_⟩
  show ((f s).2 ++ (g (f s).1).2).foldl note t = t
  rw [foldl_append, (hf s t).2]
  exact (hg _ t).2

theorem ensureReasoningItem_quiet : Quiet ensureReasoningItem := by
  intro s t
  unfold ensureReasoningItem
  split_ifs <;> exact ⟨rfl, rfl⟩

theorem ensureMessageItem_quiet : Quiet ensureMessageItem := by
  intro s t
  unfold ensureMessageItem
  split_ifs <;> exact ⟨rfl, rfl⟩

theorem finishReasoningItem_quiet : Quiet finishReasoningItem := by
  intro s t
  unfold finishReasoningItem
  split_ifs <;> exact ⟨rfl, rfl⟩

theorem emitPendingCompletion_quiet (tokenUsage : Option TokenUsage) :
    Quiet (emitPendingCompletion tokenUsage) := by
  intro s t
  unfold emitPendingCompletion
  split <;> exact ⟨rfl, rfl⟩

theorem completeTurn_quiet (endTurn : Option Bool) (usage : Option ChatUsage) :
    Quiet (completeTurn endTurn usage) := by
  intro s t
  cases usage <;> exact ⟨rfl, rfl⟩

theorem step_quiet (ord : IterOrder ℕ) : ∀ {sig : Signal}, sig.quiet → Quiet (step ord sig)
  | .ids _ _, _ => fun _ _ => ⟨rfl, rfl⟩
  | .flush tokenUsage, _ => emitPendingCompletion_quiet tokenUsage
  | .reasoning _, _ => ensureReasoningItem_quiet.seq fun _ _ => ⟨rfl, rfl⟩
  | .text _, _ => finishReasoningItem_quiet.seq (ensureMessageItem_quiet.seq fun _ _ => ⟨rfl, rfl⟩)
  | .toolCalls, _ => finishReasoningItem_quiet

/-! ### Deltas of tool calls -/

open Ledger

variable {idx : ℕ} {l : Ledger}

theorem extend_of_not_opens (args : Str) (h : l.opens idx = false) : l.extend idx args = l := by
  unfold extend
  conv_rhs => rw [← map_id l]
  refine map_congr_left fun e he => if_neg ?_
  rintro rfl
  exact of_decide_eq_false h (mem_map_of_mem he)

theorem extend_nil (l : Ledger) (idx : ℕ) : l.extend idx [] = l := by
  unfold extend
  conv_rhs => rw [← map_id l]
  refine map_congr_left fun e _ => ?_
  simp

theorem heads_extend (l : Ledger) (idx : ℕ) (args : Str) : (l.extend idx args).heads = l.heads := by
  unfold heads extend
  rw [map_map]
  refine map_congr_left fun e _ => ?_
  simp only [Function.comp]
  split_ifs <;> rfl

theorem argumentDelta_spec (idx : ℕ) (args : Option Str) (s : ChatSseState) (t : List Turn × Turn) :
    (argumentDelta idx args s).1.toolCalls.entries =
        extend s.toolCalls.entries idx (args.getD []) ∧
      (argumentDelta idx args s).2.foldl note t = t := by
  unfold argumentDelta
  cases args with
  | none => exact ⟨(extend_nil _ _).symm, rfl⟩
  | some args =>
    cases hg : s.toolCalls.get idx with
    | none =>
      have hno : opens s.toolCalls.entries idx = false := by
        have hc := HashMap.get_isSome (m := s.toolCalls) (k := idx)
        rw [hg] at hc
        exact hc.symm
      exact ⟨(extend_of_not_opens args hno).symm, rfl⟩
    | some acc => exact ⟨rfl, rfl⟩

/-- **A delta of a tool call.**  Pieces with a repeated header are dropped, others counted. -/
theorem step_toolCall (ord : IterOrder ℕ) (tc : ChatDeltaToolCall) (s : ChatSseState) (t : List Turn × Turn)
    (ht : t.2.added = heads s.toolCalls.entries) :
    (step ord (.toolCall tc) s).1.toolCalls.entries = keep s.toolCalls.entries tc ∧
      (step ord (.toolCall tc) s).2.foldl note t =
        (t.1, ⟨(keep s.toolCalls.entries tc).heads, t.2.completed⟩) := by
  have hcur : t = (t.1, ⟨heads s.toolCalls.entries, t.2.completed⟩) := by rw [← ht]
  show (processToolCallDelta tc s).1.toolCalls.entries = _ ∧ (processToolCallDelta tc s).2.foldl note t = _
  cases hh : tc.header with
  | none =>
    have hkeep : keep s.toolCalls.entries tc =
        extend s.toolCalls.entries tc.index (tc.fragment.getD []) := by
      simp [keep, Repeats, record, open?, hh]
    obtain ⟨h1, h2⟩ := argumentDelta_spec tc.index tc.fragment s t
    rw [processToolCallDelta_of_none hh, h1, h2, hkeep, heads_extend]
    exact ⟨rfl, hcur⟩
  | some header =>
    by_cases hc : tc.index ∈ s.phase.calls
    · have ho : opens s.toolCalls.entries tc.index = true := decide_eq_true hc
      have hkeep : keep s.toolCalls.entries tc = s.toolCalls.entries := by
        simp [keep, Repeats, hh, ho]
      rw [processToolCallDelta_of_open hh hc, hkeep]
      exact ⟨rfl, hcur⟩
    · have ho : opens s.toolCalls.entries tc.index = false := decide_eq_false hc
      have hkeep : keep s.toolCalls.entries tc =
          extend (s.toolCalls.entries ++ [(tc.index, ⟨header.1, header.2, []⟩)]) tc.index
            (tc.fragment.getD []) := by
        simp [keep, Repeats, record, open?, hh, ho]
      obtain ⟨h1, h2⟩ := argumentDelta_spec tc.index tc.fragment (addToolCall tc.index header.1 header.2 s).1
        (note t (.ok (.outputItemAdded (.functionCall (some header.1) header.1 header.2 []))))
      rw [entries_addToolCall hc] at h1
      rw [processToolCallDelta_of_new hh hc]
      refine ⟨h1.trans hkeep.symm, h2.trans ?_⟩
      rw [hkeep, heads_extend]
      simp [note, heads, ht]

/-! ### The end of a turn -/

theorem foldl_note_done : ∀ (accs : List ToolCallAccumulator) (t : List Turn × Turn),
    (accs.map fun acc => (Except.ok (.outputItemDone acc.item) : Sent)).foldl note t =
      (t.1, ⟨t.2.added, t.2.completed ++ accs⟩)
  | [], t => by simp
  | acc :: accs, t => by
    rw [map_cons, foldl_cons, foldl_note_done accs]
    simp [note, ToolCallAccumulator.item]

/-- **The end of a turn.**  The calls are completed in the order of the hash map, and none stays
open. -/
theorem step_finish (ord : IterOrder ℕ) (reason : Str) (usage : Option ChatUsage) (s : ChatSseState) (t : List Turn × Turn) :
    (step ord (.finish reason usage) s).1.toolCalls.entries = [] ∧
      (step ord (.finish reason usage) s).2.foldl note t =
        (t.1 ++ [⟨t.2.added, t.2.completed ++ (HashMap.drain (s.toolCalls.keys ord) s.toolCalls).2⟩],
          ⟨[], []⟩) := by
  obtain ⟨h1, h2⟩ := finishReasoningItem_quiet s t
  simp only [step, finishTurn, seq, foldl_append, completeToolCalls, h1, h2, foldl_note_done]
  exact ⟨congrArg HashMap.entries (completeTurn_quiet _ usage _ t).1, (completeTurn_quiet _ usage _ _).2⟩

/-! ### Runs -/

/-- How a turn completes the calls of a ledger. -/
def Completes (Q : Ledger → List ToolCallAccumulator → Prop) (turn : Turn) (l : Ledger) : Prop :=
  turn.added = l.heads ∧ Q l turn.completed

variable {ord : IterOrder ℕ} {Q : Ledger → List ToolCallAccumulator → Prop}

/-- **A run.**  Every turn adds the calls of the ledger the handler keeps and completes them as
its hash map iterates. -/
theorem turns_run (hQ : ∀ m : HashMap ℕ ToolCallAccumulator, Q m.entries (HashMap.drain (m.keys ord) m).2)
    (sigs : List Signal) (s : ChatSseState) (ts : List Turn) :
    ∃ ts' cur, (run (step ord) sigs s).2.foldl note (ts, ⟨heads s.toolCalls.entries, []⟩) =
        (ts ++ ts', cur) ∧
      List.Forall₂ (Completes Q) ts' (ledgers keep s.toolCalls.entries sigs) ∧ cur.completed = [] := by
  induction sigs using signals_induction generalizing s ts with
  | nil => exact ⟨[], _, by rw [append_nil]; rfl, List.Forall₂.nil, rfl⟩
  | quiet sig sigs hq ih =>
    obtain ⟨h1, h2⟩ := step_quiet ord hq s (ts, ⟨heads s.toolCalls.entries, []⟩)
    rw [run_cons, foldl_append, h2, ledgers_quiet hq, ← h1]
    exact ih (step ord sig s).1 ts
  | toolCall tc sigs ih =>
    obtain ⟨h1, h2⟩ := step_toolCall ord tc s (ts, ⟨heads s.toolCalls.entries, []⟩) rfl
    have h3 := ih (step ord (.toolCall tc) s).1 ts
    rw [h1] at h3
    rw [run_cons, foldl_append, h2]
    exact h3
  | finish reason usage sigs ih =>
    obtain ⟨h1, h2⟩ := step_finish ord reason usage s (ts, ⟨heads s.toolCalls.entries, []⟩)
    obtain ⟨ts', cur, h3, h4, h5⟩ := ih (step ord (.finish reason usage) s).1
      (ts ++ [⟨heads s.toolCalls.entries, (HashMap.drain (s.toolCalls.keys ord) s.toolCalls).2⟩])
    rw [h1] at h3 h4
    refine ⟨⟨heads s.toolCalls.entries, (HashMap.drain (s.toolCalls.keys ord) s.toolCalls).2⟩ :: ts',
      cur, ?_, List.Forall₂.cons ⟨rfl, hQ s.toolCalls⟩ h4, h5⟩
    rw [run_cons, foldl_append, h2]
    refine h3.trans ?_
    rw [append_assoc]
    rfl

theorem turns_handle (ord : IterOrder ℕ)
    (hQ : ∀ m : HashMap ℕ ToolCallAccumulator, Q m.entries (HashMap.drain (m.keys ord) m).2)
    (events : List ChatSseEvent) :
    List.Forall₂ (Completes Q) (turns (run (handleChatSseEvent ord) events .new).2).1
        (kept (events.flatMap signals)) ∧
      (turns (run (handleChatSseEvent ord) events .new).2).2.completed = [] := by
  obtain ⟨ts', cur, h1, h2, h3⟩ := turns_run hQ (events.flatMap signals) .new []
  rw [run_handleChatSseEvent]
  have hturns : turns (run (step ord) (events.flatMap signals) .new).2 = (ts', cur) := h1
  rw [hturns]
  exact ⟨h2, h3⟩

/-! ### The two ledgers -/

/-- The same calls with the same arguments, in some order. -/
def Ledger.Agrees (c l : Ledger) : Prop := c.heads = l.heads ∧ c.calls.Perm l.calls

def Ledger.shape (l : Ledger) : List (ℕ × Str × Str) := l.map fun e => (e.1, e.2.id, e.2.name)

def Ledger.volume (l : Ledger) : ℕ := (l.calls.map fun acc => acc.arguments.length).sum

variable {c : Ledger}

theorem opens_of_shape (h : c.shape = l.shape) (idx : ℕ) : c.opens idx = l.opens idx := by
  have hfst : ∀ l : Ledger, l.map Prod.fst = l.shape.map Prod.fst := by
    intro l
    simp [shape]
  unfold opens
  rw [hfst c, hfst l, h]

theorem shape_extend (l : Ledger) (idx : ℕ) (args : Str) : (l.extend idx args).shape = l.shape := by
  unfold shape extend
  rw [map_map]
  refine map_congr_left fun e _ => ?_
  simp only [Function.comp]
  split_ifs <;> rfl

theorem volume_extend (idx : ℕ) (args : Str) : ∀ l : Ledger,
    (l.extend idx args).volume = l.volume + (l.shape.countP fun x => x.1 = idx) * args.length
  | [] => by simp [extend, volume, calls, shape]
  | e :: l => by
    have ih := volume_extend idx args l
    simp only [extend, volume, calls, shape, map_cons, sum_cons,
      countP_cons] at ih ⊢
    rw [ih]
    by_cases he : e.1 = idx
    · simp only [he, if_true, length_append, decide_true]
      ring
    · simp only [he, if_false, decide_false, Bool.false_eq_true]
      ring

theorem volume_of_agrees (h : c.Agrees l) : c.volume = l.volume := by
  unfold volume
  exact (h.2.map _).sum_eq

theorem volume_lt_extend {args : Str} (ho : l.opens idx) (ha : args ≠ []) :
    l.volume < (l.extend idx args).volume := by
  have hpos : 0 < l.shape.countP fun x => x.1 = idx := by
    rw [countP_pos_iff]
    obtain ⟨e, he, rfl⟩ := mem_map.mp (of_decide_eq_true ho)
    exact ⟨_, mem_map_of_mem he, by simp⟩
  have hlen := length_pos_iff.mpr ha
  have := Nat.mul_pos hpos hlen
  rw [volume_extend]
  omega

variable {tc : ChatDeltaToolCall}

theorem open?_of_repeats (h : l.Repeats tc) : l.open? tc = l := by
  unfold open?
  split
  · rw [if_pos h.2]
  · rfl

/-- A delta adds the same to both ledgers, or only to the one that counts all pieces. -/
theorem record_step (h : c.shape = l.shape) (tc : ChatDeltaToolCall) :
    (c.keep tc).shape = (l.record tc).shape ∧
      (c.volume < l.volume → (c.keep tc).volume < (l.record tc).volume) := by
  have hopens := opens_of_shape h tc.index
  by_cases hr : c.Repeats tc
  · have hl : l.Repeats tc := ⟨hr.1, hopens ▸ hr.2⟩
    unfold keep record
    rw [if_pos hr, open?_of_repeats hl, shape_extend, volume_extend]
    exact ⟨h, fun hv => by omega⟩
  · have hopen : (c.open? tc).shape = (l.open? tc).shape ∧
        (c.volume < l.volume → (c.open? tc).volume < (l.open? tc).volume) := by
      unfold open?
      split
      · rw [hopens]
        split_ifs
        · exact ⟨h, id⟩
        · simp only [shape, volume, calls] at h ⊢
          simp [h]
      · exact ⟨h, id⟩
    unfold keep record
    rw [if_neg hr, shape_extend, shape_extend, volume_extend, volume_extend, hopen.1]
    exact ⟨rfl, fun hv => by have := hopen.2 hv; omega⟩

def Signal.isFinish : Signal → Bool
  | .finish _ _ => true
  | _ => false

variable {sigs : List Signal}

theorem ledgers_of_no_finish (l : Ledger) (h : sigs.any Signal.isFinish = false) : ledgers rec l sigs = [] := by
  induction sigs using signals_induction generalizing l with
  | nil => rfl
  | quiet sig sigs hq ih =>
    rw [any_cons, Bool.or_eq_false_iff] at h
    rw [ledgers_quiet hq, ih l h.2]
  | toolCall tc sigs ih => exact ih _ h
  | finish reason usage sigs ih => cases h

/-- A piece once lost is missing at the end of the turn. -/
theorem not_agrees_of_lost (hs : c.shape = l.shape)
    (hv : c.volume < l.volume) (h : sigs.any Signal.isFinish) :
    ¬ List.Forall₂ Agrees (ledgers keep c sigs) (ledgers record l sigs) := by
  induction sigs using signals_induction generalizing c l with
  | nil => cases h
  | quiet sig sigs hq ih =>
    have hno : sig.isFinish = false := by cases sig <;> first | rfl | cases hq
    rw [any_cons, hno, Bool.false_or] at h
    rw [ledgers_quiet hq, ledgers_quiet hq]
    exact ih hs hv h
  | toolCall tc sigs ih =>
    obtain ⟨h1, h2⟩ := record_step hs tc
    exact ih h1 (h2 hv) h
  | finish reason usage sigs ih =>
    intro hall
    have := volume_of_agrees (forall₂_cons.mp hall).1
    omega

/-! ### Every piece accounted for -/

/-- The delta brings a piece of arguments with the repeated header of an open call. -/
def Ledger.Loses (l : Ledger) (tc : ChatDeltaToolCall) : Prop := l.Repeats tc ∧ tc.fragment.getD [] ≠ []

instance (l : Ledger) (tc : ChatDeltaToolCall) : Decidable (l.Loses tc) := inferInstanceAs (Decidable (_ ∧ _))

/-- No turn ends after a delta that brings a piece with a repeated header. -/
def Lossless : Ledger → List Signal → Prop
  | _, [] => True
  | l, .toolCall tc :: sigs => (l.Loses tc → sigs.any Signal.isFinish = false) ∧ Lossless (l.record tc) sigs
  | _, .finish _ _ :: sigs => Lossless [] sigs
  | l, _ :: sigs => Lossless l sigs

theorem lossless_quiet (h : sig.quiet) (l : Ledger) (sigs : List Signal) :
    Lossless l (sig :: sigs) ↔ Lossless l sigs := by
  cases sig <;> first | exact Iff.rfl | cases h

theorem lossless_of_no_finish (l : Ledger) (h : sigs.any Signal.isFinish = false) : Lossless l sigs := by
  induction sigs using signals_induction generalizing l with
  | nil => trivial
  | quiet sig sigs hq ih =>
    rw [any_cons, Bool.or_eq_false_iff] at h
    exact (lossless_quiet hq l sigs).mpr (ih l h.2)
  | toolCall tc sigs ih => exact ⟨fun _ => h, ih _ h⟩
  | finish reason usage sigs ih => cases h

/-- Without a piece, or without a repeated header, both ledgers go on the same way. -/
theorem keep_eq_record (h : ¬ l.Loses tc) : l.keep tc = l.record tc := by
  unfold keep
  split_ifs with hr
  · have hnil : tc.fragment.getD [] = [] := by
      by_contra hne
      exact h ⟨hr, hne⟩
    unfold record
    rw [hnil, extend_nil, open?_of_repeats hr]
  · rfl

theorem ledgers_agree_iff (sigs : List Signal) (l : Ledger) :
    List.Forall₂ Agrees (ledgers keep l sigs) (ledgers record l sigs) ↔
      Lossless l sigs := by
  induction sigs using signals_induction generalizing l with
  | nil => exact iff_of_true List.Forall₂.nil trivial
  | quiet sig sigs hq ih => rw [ledgers_quiet hq, ledgers_quiet hq, lossless_quiet hq, ih]
  | finish reason usage sigs ih =>
    show List.Forall₂ _ (l :: _) (l :: _) ↔ Lossless [] sigs
    rw [forall₂_cons, ih]
    exact and_iff_right ⟨rfl, List.Perm.refl _⟩
  | toolCall tc sigs ih =>
    show List.Forall₂ _ (ledgers keep (l.keep tc) sigs) _ ↔
      (l.Loses tc → sigs.any Signal.isFinish = false) ∧ Lossless (l.record tc) sigs
    by_cases hl : l.Loses tc
    · have hkeep : l.keep tc = l := if_pos hl.1
      have hrec : l.record tc = l.extend tc.index (tc.fragment.getD []) := by
        unfold record
        rw [open?_of_repeats hl.1]
      cases hf : sigs.any Signal.isFinish with
      | true =>
        refine iff_of_false ?_ fun h => by cases h.1 hl
        refine not_agrees_of_lost ?_ ?_ hf
        · rw [hkeep, hrec, shape_extend]
        · rw [hkeep, hrec]
          exact volume_lt_extend hl.1.2 hl.2
      | false =>
        refine iff_of_true ?_ ⟨fun _ => rfl, lossless_of_no_finish _ hf⟩
        show List.Forall₂ _ _ (ledgers record (l.record tc) sigs)
        rw [ledgers_of_no_finish _ hf, ledgers_of_no_finish _ hf]
        exact List.Forall₂.nil
    · rw [keep_eq_record hl]
      exact (ih _).trans (and_iff_right fun h => absurd h hl).symm

variable {α β : Type} {R : α → β → Prop}

theorem forall₂_comp {γ : Type} {S : β → γ → Prop} {T : α → γ → Prop}
    (h : ∀ a b c, R a b → S b c → T a c) : ∀ {as : List α} {bs : List β} {cs : List γ},
    List.Forall₂ R as bs → List.Forall₂ S bs cs → List.Forall₂ T as cs
  | [], _, _, .nil, .nil => .nil
  | _ :: _, _, _, .cons h1 h2, .cons h3 h4 => .cons (h _ _ _ h1 h3) (forall₂_comp h h2 h4)

/-- Every turn adds the calls of its ledger and completes each of them once, with the arguments
of the ledger; nothing is completed outside a turn. -/
def Accounted (sent : List Sent) (ls : List Ledger) : Prop :=
  List.Forall₂ (Completes fun l completed => completed.Perm l.calls) (turns sent).1 ls ∧
    (turns sent).2.completed = []

/-- **The arguments of tool calls.**  Every tool call is completed once, with all the pieces of
its arguments in the order of their arrival, exactly when no turn ends after a delta that brings
a piece with the repeated header of an open call. -/
theorem toolCalls_accounted_iff (ord : IterOrder ℕ) (events : List ChatSseEvent) :
    Accounted (run (handleChatSseEvent ord) events .new).2 (expected (events.flatMap signals)) ↔
      Lossless [] (events.flatMap signals) := by
  obtain ⟨hall, hnone⟩ := turns_handle ord (Q := fun l completed => completed.Perm l.calls)
    (fun m => HashMap.drain_keys_perm ord m) events
  rw [← ledgers_agree_iff]
  unfold Accounted
  rw [and_iff_left hnone]
  constructor
  · intro h
    refine forall₂_comp ?_ hall.flip h
    rintro c turn l ⟨hc, hcp⟩ ⟨hl, hlp⟩
    exact ⟨hc.symm.trans hl, hcp.symm.trans hlp⟩
  · intro h
    refine forall₂_comp ?_ hall h
    rintro turn c l ⟨hc, hcp⟩ ⟨hl, hlp⟩
    exact ⟨hc.trans hl, hcp.trans hlp⟩

/-- A stream in which a provider repeats the header of a call with the second piece. -/
def repeatedHeader : List ChatSseEvent :=
  [.chunk "r" "m" [⟨⟨none, none, none, some
      [⟨0, some "c", some ⟨some "f", some "[1,"⟩⟩]⟩, none⟩] none,
    .chunk "r" "m" [⟨⟨none, none, none, some
      [⟨0, some "c", some ⟨some "f", some "2]"⟩⟩]⟩, some "tool_calls"⟩] none]

/-- The call is completed without its second piece. -/
theorem not_accounted_repeatedHeader :
    (turns (run (handleChatSseEvent (.inOrder ℕ)) repeatedHeader .new).2).1 =
        [⟨[("c", "f")], [⟨"c", "f", "[1,"⟩]⟩] ∧
      expected (repeatedHeader.flatMap signals) = [[(0, ⟨"c", "f", "[1,2]"⟩)]] ∧
      ¬ Accounted (run (handleChatSseEvent (.inOrder ℕ)) repeatedHeader .new).2
        (expected (repeatedHeader.flatMap signals)) := by
  have h1 : (turns (run (handleChatSseEvent (.inOrder ℕ)) repeatedHeader .new).2).1 =
      [⟨[("c", "f")], [⟨"c", "f", "[1,"⟩]⟩] := by decide +kernel
  have h2 : expected (repeatedHeader.flatMap signals) =
      [[(0, ⟨"c", "f", "[1,2]"⟩)]] := by decide +kernel
  refine ⟨h1, h2, ?_⟩
  rintro ⟨hall, _⟩
  rw [h1, h2, forall₂_cons] at hall
  have hperm := hall.1.2
  revert hperm
  decide

/-! ### The order of completion -/

/-- All calls of the ledger have one id, one name and one text of arguments. -/
def Ledger.Alike (l : Ledger) : Prop := ∀ x ∈ l.calls, ∀ y ∈ l.calls, x = y

instance (l : Ledger) : Decidable l.Alike := inferInstanceAs (Decidable (∀ x ∈ l.calls, ∀ y ∈ l.calls, _))

/-- The calls of every turn are completed in the order in which they were added. -/
def InAddedOrder (sent : List Sent) : Prop :=
  ∀ turn ∈ (turns sent).1, (turn.completed.map fun acc => (acc.id, acc.name)) = turn.added

theorem perm_eq_of_alike {l l' : List α} (hp : l'.Perm l) (h : ∀ x ∈ l, ∀ y ∈ l, x = y) : l' = l := by
  cases l with
  | nil => exact hp.eq_nil
  | cons a l =>
    have hrep : a :: l = List.replicate (a :: l).length a :=
      eq_replicate_of_mem fun b hb => h b hb a (by simp)
    rw [hrep] at hp ⊢
    exact perm_replicate.mp hp

/-- The end of a turn with calls all alike does not depend on the order of the hash map. -/
theorem step_finish_alike (ord : IterOrder ℕ) (reason : Str) (usage : Option ChatUsage) {s : ChatSseState}
    (h : Alike s.toolCalls.entries) :
    step ord (.finish reason usage) s = step (.inOrder ℕ) (.finish reason usage) s := by
  have hdrain : (HashMap.drain (s.toolCalls.keys ord) s.toolCalls).2 =
      (HashMap.drain (s.toolCalls.keys (.inOrder ℕ)) s.toolCalls).2 := by
    rw [HashMap.drain_keys_inOrder]
    exact perm_eq_of_alike (HashMap.drain_keys_perm ord _) h
  have hclear := HashMap.clear_drain_keys ord s.toolCalls
  rw [← HashMap.clear_drain_keys (.inOrder ℕ) s.toolCalls] at hclear
  have hquiet := (finishReasoningItem_quiet s ([], ⟨[], []⟩)).1
  have hseq : seq (completeToolCalls ord) completeMessage (finishReasoningItem s).1 =
      seq (completeToolCalls (.inOrder ℕ)) completeMessage (finishReasoningItem s).1 := by
    unfold seq completeToolCalls completeMessage
    simp only [hquiet, hdrain, hclear]
  have hassoc : ∀ o : IterOrder ℕ, step o (.finish reason usage) = seq finishReasoningItem
      (seq (seq (completeToolCalls o) completeMessage)
        (completeTurn (mapFinishReasonToEndTurn reason) usage)) := by
    intro o
    rw [seq_assoc]
    rfl
  rw [hassoc, hassoc]
  unfold seq at hseq ⊢
  rw [hseq]

/-- A run whose turns end with calls all alike does not depend on the order of the hash map. -/
theorem run_alike (sigs : List Signal) (s : ChatSseState)
    (h : ∀ l ∈ ledgers keep s.toolCalls.entries sigs, l.Alike) :
    run (step ord) sigs s = run (step (.inOrder ℕ)) sigs s := by
  induction sigs using signals_induction generalizing s with
  | nil => rfl
  | quiet sig sigs hq ih =>
    have hsame : step ord sig s = step (.inOrder ℕ) sig s := by cases sig <;> first | rfl | cases hq
    rw [ledgers_quiet hq, ← (step_quiet (.inOrder ℕ) hq s ([], ⟨[], []⟩)).1] at h
    rw [run_cons, run_cons, hsame, ih _ h]
  | toolCall tc sigs ih =>
    have hsame : step ord (.toolCall tc) s = step (.inOrder ℕ) (.toolCall tc) s := rfl
    have hstep := (step_toolCall (.inOrder ℕ) tc s ([], ⟨heads s.toolCalls.entries, []⟩) rfl).1
    have hrest : ∀ l ∈ ledgers keep (step (.inOrder ℕ) (.toolCall tc) s).1.toolCalls.entries sigs,
        l.Alike := by
      rw [hstep]
      exact h
    rw [run_cons, run_cons, hsame, ih _ hrest]
  | finish reason usage sigs ih =>
    have hsame := step_finish_alike ord reason usage (h _ (by exact mem_cons_self))
    have hstep := (step_finish (.inOrder ℕ) reason usage s ([], ⟨[], []⟩)).1
    have hrest : ∀ l ∈ ledgers keep (step (.inOrder ℕ) (.finish reason usage) s).1.toolCalls.entries
        sigs, l.Alike := by
      rw [hstep]
      exact fun l hl => h l (mem_cons_of_mem _ hl)
    rw [run_cons, run_cons, hsame, ih _ hrest]

/-- **The order of tool calls.**  Whatever the order of the hash map, the calls are completed in
the order in which they were added, and two runs over one stream send the same events, exactly
when at every end of a turn the open calls are all alike. -/
theorem toolCalls_ordered_iff (events : List ChatSseEvent) :
    (∀ ord, InAddedOrder (run (handleChatSseEvent ord) events .new).2 ∧
        ∀ ord', (run (handleChatSseEvent ord) events .new).2 = (run (handleChatSseEvent ord') events .new).2) ↔
      ∀ l ∈ kept (events.flatMap signals), l.Alike := by
  obtain ⟨hin, _⟩ := turns_handle (.inOrder ℕ) (Q := fun l completed => completed = l.calls)
    HashMap.drain_keys_inOrder events
  constructor
  · intro h l hl x hx y hy
    obtain ⟨hrot, _⟩ := turns_handle (.rotated ℕ) (Q := fun l completed => completed = l.calls.rotate 1)
      HashMap.drain_keys_rotated events
    rw [(h (.rotated ℕ)).2 (.inOrder ℕ)] at hrot
    have hboth := forall₂_comp (T := fun l l' => l.calls = l'.calls.rotate 1)
      (fun c turn l hc hl => hc.2.symm.trans hl.2) hin.flip hrot
    have hfix : ∀ l ∈ kept (events.flatMap signals), l.calls.rotate 1 = l.calls := by
      rw [forall₂_same] at hboth
      exact fun l hl => (hboth l hl).symm
    have : Nonempty ToolCallAccumulator := ⟨x⟩
    obtain ⟨a, ha⟩ := rotate_one_eq_self_iff_eq_replicate.mp (hfix l hl)
    rw [ha] at hx hy
    rw [eq_of_mem_replicate hx, eq_of_mem_replicate hy]
  · intro h ord
    have hsame : ∀ o : IterOrder ℕ, (run (handleChatSseEvent o) events .new).2 =
        (run (handleChatSseEvent (.inOrder ℕ)) events .new).2 := by
      intro o
      rw [run_handleChatSseEvent, run_handleChatSseEvent, run_alike (events.flatMap signals) .new h]
    refine ⟨?_, fun ord' => (hsame ord).trans (hsame ord').symm⟩
    rw [hsame]
    refine ((forall₂_and_left _ _).mp (hin.imp fun turn l h => ⟨?_, h⟩)).1
    obtain ⟨hadd, hdone⟩ := h
    rw [hdone, hadd]
    unfold calls heads
    rw [map_map]
    rfl

def twoCalls : List ChatSseEvent :=
  [.chunk "r" "m" [⟨⟨none, none, none, some
      [⟨0, some "a", some ⟨some "f", none⟩⟩, ⟨1, some "b", some ⟨some "g", none⟩⟩]⟩,
    some "tool_calls"⟩] none]

/-- A hash map that visits the second call first completes it first. -/
theorem not_ordered_twoCalls :
    (turns (run (handleChatSseEvent (.inOrder ℕ)) twoCalls .new).2).1 =
        [⟨[("a", "f"), ("b", "g")],
          [⟨"a", "f", []⟩, ⟨"b", "g", []⟩]⟩] ∧
      (turns (run (handleChatSseEvent (.rotated ℕ)) twoCalls .new).2).1 =
        [⟨[("a", "f"), ("b", "g")],
          [⟨"b", "g", []⟩, ⟨"a", "f", []⟩]⟩] ∧
      ¬ InAddedOrder (run (handleChatSseEvent (.rotated ℕ)) twoCalls .new).2 := by
  refine ⟨by decide +kernel, by decide +kernel, ?_⟩
  unfold InAddedOrder
  decide +kernel

end OpenAgere.ChatSse
