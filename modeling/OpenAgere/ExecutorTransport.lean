import OpenAgere.Framing
import OpenAgere.ProcessReads

/-! # The transport of an executor process

`ExecutorProcessTransport` of `rmcp-client/src/executor_process_transport.rs` turns the events of a process
into the messages on its standard output.  It takes the history that the event log has kept and then the live
events, and where it has fallen behind it reads the output it missed from the executor.

The transport appends every byte of standard output once and in order and returns the messages on its lines,
in every run in which the log had not yet dropped output when the transport subscribed
(`transported_of_meets`).  Output dropped by then is lost without a sign (`not_transported_lateSubscriber`). -/

namespace OpenAgere.ExecutorTransport

open Exec Framing List Retention Transition

/-! ### The transport -/

/-- Where `receive_message` is. -/
inductive Phase where
  /-- at the beginning of its loop, or not called -/
  | taking
  /-- waiting for the next event -/
  | waiting
  /-- in `recover_lagged_events`, waiting for the response to its read -/
  | recovering
  /-- it has returned `None` -/
  | ended
deriving DecidableEq, Repr

/-- The transport with what it has appended to `stdout` and returned so far. -/
structure ExecutorProcessTransport (μ : Type) where
  events : ExecProcessEventReceiver
  stdout : List UInt8
  stderr : List UInt8
  closed : Bool
  lastSeq : ℕ
  phase : Phase
  appended : List UInt8
  messages : List μ
deriving DecidableEq, Repr

def newline : UInt8 := 10

def carriageReturn : UInt8 := 13

def trimTrailingCarriageReturn (line : List UInt8) : List UInt8 :=
  if line.getLast? = some carriageReturn then line.dropLast else line

section Messages

variable {μ : Type} (parse : List UInt8 → Option μ)

/-- The message on a line; `parse` is `from_slice`. -/
def message (line : List UInt8) : Option μ := parse (trimTrailingCarriageReturn line)

/-- The line `take_stdout_message` looks at next, and what it leaves. -/
def nextLine (allowPartial : Bool) (stdout : List UInt8) : Option (List UInt8 × List UInt8) :=
  match takeLine newline stdout with
  | some taken => some taken
  | none => if allowPartial && !stdout.isEmpty then some (stdout, []) else none

/-- The loop of `take_stdout_message`.  Every round removes a byte, so `stdout.length` rounds are enough. -/
def takeMessage (allowPartial : Bool) : ℕ → List UInt8 → Option μ × List UInt8
  | 0, stdout => (none, stdout)
  | fuel + 1, stdout =>
      match nextLine allowPartial stdout with
      | none => (none, stdout)
      | some (line, rest) =>
          match message parse line with
          | some parsed => (some parsed, rest)
          | none => takeMessage allowPartial fuel rest

def takeStdoutMessage (allowPartial : Bool) (stdout : List UInt8) : Option μ × List UInt8 :=
  takeMessage parse allowPartial stdout.length stdout

end Messages

/-- The loop of `push_stderr`, which logs the complete lines. -/
def dropLines : ℕ → List UInt8 → List UInt8
  | 0, stderr => stderr
  | fuel + 1, stderr =>
      match takeLine newline stderr with
      | some (_, rest) => dropLines fuel rest
      | none => stderr

/-- The bytes of a chunk that belong to the protocol. -/
def protocolBytes (chunk : ProcessOutputChunk) : List UInt8 :=
  match chunk.stream with
  | .stdout | .pty => chunk.chunk
  | .stderr => []

/-- The protocol bytes of the output events. -/
def stdoutBytes (events : List ExecProcessEvent) : List UInt8 := (outputs events).flatMap protocolBytes

namespace ExecutorProcessTransport

variable {μ : Type}

def new (log : ExecProcessEventLog) : ExecutorProcessTransport μ :=
  ⟨log.subscribe, [], [], false, 0, .taking, [], []⟩

def noteSeq (t : ExecutorProcessTransport μ) (seq : ℕ) : ExecutorProcessTransport μ :=
  { t with lastSeq := max t.lastSeq seq }

def pushStderr (t : ExecutorProcessTransport μ) (bytes : List UInt8) : ExecutorProcessTransport μ :=
  { t with stderr := dropLines (t.stderr ++ bytes).length (t.stderr ++ bytes) }

def pushProcessOutput (t : ExecutorProcessTransport μ) (chunk : ProcessOutputChunk) : ExecutorProcessTransport μ :=
  match chunk.stream with
  | .stdout | .pty => { t with stdout := t.stdout ++ chunk.chunk, appended := t.appended ++ chunk.chunk }
  | .stderr => t.pushStderr chunk.chunk

def pushProcessOutputIfNew (t : ExecutorProcessTransport μ) (chunk : ProcessOutputChunk) : ExecutorProcessTransport μ :=
  if chunk.seq ≤ t.lastSeq then t else { t with lastSeq := chunk.seq }.pushProcessOutput chunk

/-- What `recover_lagged_events` does with the response. -/
def recover (t : ExecutorProcessTransport μ) (response : ReadResponse) : ExecutorProcessTransport μ :=
  let pushed := (response.chunks.foldl pushProcessOutputIfNew t).noteSeq (response.nextSeq - 1)
  if response.failure.isSome || response.closed then { pushed with closed := true } else pushed

/-- What `receive_message` does with what `recv` returned. -/
def handle (t : ExecutorProcessTransport μ) : Broadcast.Received ExecProcessEvent → ExecutorProcessTransport μ
  | .value (.output chunk) => t.pushProcessOutputIfNew chunk
  | .value (.exited seq _) => t.noteSeq seq
  | .value (.closed seq) => { t.noteSeq seq with closed := true }
  | .value (.failed _) => { t with closed := true }
  | .lagged _ => { t with phase := .recovering }

/-- One step of `receive_message`, between two of its `await`s. -/
def receiveMessage (parse : List UInt8 → Option μ) (executor : Inner) (log : ExecProcessEventLog)
    (t : ExecutorProcessTransport μ) : Option (ExecutorProcessTransport μ) :=
  match t.phase with
  | .taking =>
      match takeStdoutMessage parse t.closed t.stdout with
      | (some parsed, rest) => some { t with stdout := rest, messages := t.messages ++ [parsed] }
      | (none, rest) =>
          if t.closed then some { t with stdout := rest, stderr := [], phase := .ended }
          else some { t with stdout := rest, phase := .waiting }
  | .waiting =>
      (t.events.recv log).map fun received => { t with events := received.2, phase := .taking }.handle received.1
  | .recovering =>
      match inspect executor ⟨some t.lastSeq, none, some 0⟩ with
      | .ok response => some ({ t with phase := .taking }.recover response)
      | .error _ => some { t with closed := true, phase := .taking }
  | .ended => none

/-- The future of `receive_message` is dropped at an `await`. -/
def dropFuture (t : ExecutorProcessTransport μ) : ExecutorProcessTransport μ :=
  if t.phase = .ended then t else { t with phase := .taking }

end ExecutorProcessTransport

/-! ### The transport and its surroundings -/

/-- The process with the tasks of the executor, the log the transport subscribes to, and the transport. -/
structure Session (μ : Type) where
  executor : ProcessPool
  log : ExecProcessEventLog
  transport : Option (ExecutorProcessTransport μ)

inductive Event where
  /-- a step of the executor -/
  | executor (event : ProcessEvent)
  /-- the log publishes the next event of the process: at once where the process is local, and after any
  delay where a client publishes it -/
  | deliver
  | subscribe
  | receive
  | dropFuture

namespace Session

variable {μ : Type}

/-- The events of the process so far. -/
def produced (s : Session μ) : List ExecProcessEvent := s.executor.shared.events.published

def next (parse : List UInt8 → Option μ) (s : Session μ) : Event → Option (Session μ)
  | .executor event => (Exec.next s.executor event).map fun executor => { s with executor := executor }
  | .deliver => s.produced[s.log.published.length]?.map fun event => { s with log := s.log.publish event }
  | .subscribe => if s.transport.isNone then some { s with transport := some (.new s.log) } else none
  | .receive =>
      (s.transport.bind (·.receiveMessage parse s.executor.shared s.log)).map fun t => { s with transport := some t }
  | .dropFuture => s.transport.map fun t => { s with transport := some t.dropFuture }

def start (processId : Str) (tty : Bool) (eventCapacity byteCapacity : ℕ) : Session μ :=
  ⟨startProcess processId tty, .new eventCapacity byteCapacity, none⟩

/-- The events that the log has published and dropped again. -/
def dropped (s : Session μ) : List ExecProcessEvent :=
  s.log.published.take (s.log.published.length - s.log.history.events.length)

/-- A read that recovers from a lag finds all output retained and is not given up. -/
def Recovers (s : Session μ) : Event → Prop
  | .receive => ∀ t ∈ s.transport, t.phase = .recovering →
      s.executor.shared.process?.map RunningProcess.output = some (outputs s.produced)
  | .dropFuture => ∀ t ∈ s.transport, t.phase ≠ .recovering
  | _ => True

/-- The transport subscribes before standard output is dropped from the history. -/
def SubscribesInTime (s : Session μ) : Event → Prop
  | .subscribe => stdoutBytes s.dropped = []
  | _ => True

end Session

/-- What the transport has made of the events of the process. -/
structure Transported {μ : Type} (parse : List UInt8 → Option μ) (produced : List ExecProcessEvent)
    (t : ExecutorProcessTransport μ) : Prop where
  /-- the standard output up to the last number seen, in order and once -/
  appended : t.appended = stdoutBytes (produced.take t.lastSeq)
  /-- all of it when the stream is closed -/
  complete : t.closed → t.appended = stdoutBytes produced
  /-- the messages returned come from its lines -/
  messages : t.messages <+: (finalLines newline t.appended).filterMap (message parse)
  /-- all of them when `receive_message` has returned `None` -/
  ended : t.phase = .ended → t.messages = (finalLines newline (stdoutBytes produced)).filterMap (message parse)

/-! ### Lines and messages -/

section Lines

variable {μ : Type} {parse : List UInt8 → Option μ} {allowPartial : Bool} {whole stdout line rest : List UInt8}
  {lines : List (List UInt8)}

/-- The lines have been taken from the bytes and `stdout` is left; with `allow_partial` the last line may have
been taken although nothing ends it. -/
def Left (allowPartial : Bool) (whole : List UInt8) (lines : List (List UInt8)) (stdout : List UInt8) : Prop :=
  Cut newline whole lines stdout ∨ allowPartial ∧ stdout = [] ∧ finalLines newline whole = lines

theorem Left.final (h : Left allowPartial whole lines []) : finalLines newline whole = lines := by
  obtain h | ⟨_, _, h⟩ := h
  · exact h.finalLines_eq.trans (append_nil lines)
  · exact h

theorem Left.isPrefix (h : Left allowPartial whole lines stdout) : lines <+: finalLines newline whole := by
  obtain h | ⟨_, _, rfl⟩ := h
  · rw [h.finalLines_eq]
    exact prefix_append lines _
  · exact prefix_rfl

theorem nextLine_spec (hl : nextLine allowPartial stdout = some (line, rest))
    (h : Left allowPartial whole lines stdout) :
    rest.length < stdout.length ∧ Left allowPartial whole (lines ++ [line]) rest := by
  have hcut : stdout ≠ [] → Cut newline whole lines stdout := fun hne => h.resolve_right fun h => hne h.2.1
  revert hl
  fun_cases nextLine allowPartial stdout with
  | case1 taken htaken =>
    rintro ⟨⟩
    obtain ⟨rfl, _⟩ := takeLine_eq_some htaken
    refine ⟨?_, .inl ((hcut (by simp)).take htaken)⟩
    rw [length_append, length_cons]
    omega
  | case2 hnone hpartial =>
    rintro ⟨⟩
    obtain ⟨rfl, hempty⟩ := (Bool.and_eq_true _ _).mp hpartial
    have hne : stdout ≠ [] := by
      rintro rfl
      exact absurd hempty (by decide)
    refine ⟨length_pos_iff.mpr hne, .inr ⟨rfl, rfl, ?_⟩⟩
    rw [(hcut hne).finalLines_eq, finalLines_of_not_mem (takeLine_eq_none hnone) hne]
  | case3 => exact nofun

theorem nextLine_none (hl : nextLine true stdout = none) : stdout = [] := by
  unfold nextLine at hl
  split at hl
  · exact nomatch hl
  · split at hl
    · exact nomatch hl
    · next hpartial =>
        cases stdout with
        | nil => rfl
        | cons byte stdout => exact absurd rfl hpartial

variable (parse) in
theorem takeMessage_spec : ∀ (fuel : ℕ) {stdout : List UInt8} {lines : List (List UInt8)}, stdout.length ≤ fuel →
    Left allowPartial whole lines stdout → ∃ more,
      more.filterMap (message parse) = (takeMessage parse allowPartial fuel stdout).1.toList ∧
      Left allowPartial whole (lines ++ more) (takeMessage parse allowPartial fuel stdout).2 ∧
      ((takeMessage parse allowPartial fuel stdout).1 = none → allowPartial →
        (takeMessage parse allowPartial fuel stdout).2 = [])
  | 0, stdout, lines, hfuel, h => by
    obtain rfl := length_eq_zero_iff.mp (Nat.le_zero.mp hfuel)
    exact ⟨[], rfl, (append_nil lines).symm ▸ h, fun _ _ => rfl⟩
  | fuel + 1, stdout, lines, hfuel, h => by
    rw [takeMessage]
    split
    · next hnone =>
        refine ⟨[], rfl, (append_nil lines).symm ▸ h, fun _ hpartial => ?_⟩
        subst hpartial
        exact nextLine_none hnone
    · next line rest hsome =>
        obtain ⟨hlt, hleft⟩ := nextLine_spec hsome h
        split
        · next parsed hparsed =>
            exact ⟨[line], by rw [filterMap_cons_some hparsed]; rfl, hleft, nofun⟩
        · next hparsed =>
            obtain ⟨more, hmore, hleft, hempty⟩ := takeMessage_spec fuel (by omega) hleft
            refine ⟨line :: more, ?_, ?_, hempty⟩
            · rw [filterMap_cons_none hparsed, hmore]
            · rw [append_cons]
              exact hleft

end Lines

/-! ### The executor -/

theorem inspect_of_process {s : Inner} {process : RunningProcess} (h : s.process? = some process) (params : ReadParams) :
    inspect s params = .ok (readResponse process params) := by
  unfold Inner.process? at h
  split at h
  · next running hentry =>
      obtain rfl := Option.some.inj h
      rw [inspect, hentry]
  · cases h

theorem published_of_next {pool pool' : ProcessPool} {event : ProcessEvent} (hc : pool.Consistent)
    (hn : next pool event = some pool') : pool.shared.events.published <+: pool'.shared.events.published := by
  cases event with
  | call c =>
    obtain rfl := Option.some.inj hn
    exact prefix_rfl
  | step i answer =>
    obtain ⟨task, s, task', hi, hstep, rfl⟩ := Pool.next_step hn
    obtain hsame | ⟨e, he, _⟩ := published_of_effect hc hi (effect_of_step hstep)
    · rw [hsame]
    · exact ⟨[e], he.symm⟩

/-! ### Numbers and bytes -/

section Bytes

variable {events : List ExecProcessEvent} {event : ExecProcessEvent} {lastSeq position : ℕ}

theorem outputs_singleton (chunk : ProcessOutputChunk) : outputs [.output chunk] = [chunk] := rfl

theorem stdoutBytes_append (events later : List ExecProcessEvent) :
    stdoutBytes (events ++ later) = stdoutBytes events ++ stdoutBytes later := by
  rw [stdoutBytes, outputs, filterMap_append, flatMap_append]
  rfl

theorem stdoutBytes_of_outputs (h : outputs events = []) : stdoutBytes events = [] := by
  rw [stdoutBytes, h, flatMap_nil]

theorem stdoutBytes_take_append_drop (events : List ExecProcessEvent) (n : ℕ) :
    stdoutBytes (events.take n) ++ stdoutBytes (events.drop n) = stdoutBytes events := by
  rw [← stdoutBytes_append, take_append_drop]

/-- Between the last number seen and the next event to be received there is no standard output. -/
def Gapless (events : List ExecProcessEvent) (lastSeq position : ℕ) : Prop :=
  stdoutBytes ((events.take position).drop lastSeq) = []

theorem gapless_of_le (h : position ≤ lastSeq) : Gapless events lastSeq position := by
  rw [Gapless, drop_eq_nil_of_le ((length_take_le _ _).trans h)]
  rfl

theorem gapless_of_outputs (h : outputs (events.drop lastSeq) = []) : Gapless events lastSeq position := by
  refine stdoutBytes_of_outputs (eq_nil_of_subset_nil ?_)
  rw [← h, drop_take]
  exact ((take_sublist _ _).filterMap _).subset

theorem stdoutBytes_advance (hg : Gapless events lastSeq position) (he : events[position]? = some event) :
    stdoutBytes (events.take (max lastSeq (position + 1))) =
      stdoutBytes (events.take lastSeq) ++ if lastSeq ≤ position then stdoutBytes [event] else [] := by
  split
  · next hle =>
      have htake : events.take (position + 1) = events.take position ++ [event] := by
        rw [take_add_one, he]
        rfl
      have hbefore : stdoutBytes (events.take position) = stdoutBytes (events.take lastSeq) := by
        rw [← stdoutBytes_take_append_drop (events.take position) lastSeq, hg, append_nil, take_take,
          min_eq_left hle]
      rw [max_eq_right (by omega), htake, stdoutBytes_append, hbefore]
  · next hlt => rw [max_eq_left (by omega), append_nil]

/-- A read without a limit returns all that is unread. -/
theorem chunks_readResponse {streaming : ℕ} {process : RunningProcess} {waitMs : Option ℕ}
    (ht : Tracks events streaming process) (n : ℕ) :
    (readResponse process ⟨some n, none, waitMs⟩).chunks = unread process n := by
  obtain ⟨pre, _, _, huncut, heq⟩ := readLoop_eq usizeMax (unread process n) [] 0 process.nextSeq
  have hkept := fits_retained_iff.mp ht.kept.longest.holds
  have hle : total chunkLen (unread process n) ≤ total chunkLen process.output :=
    total_le_of_sublist filter_sublist
  have hmax : retainedOutputBytesPerProcess < usizeMax := by decide
  show (readLoop usizeMax (unread process n) [] 0 process.nextSeq).1 = _
  rw [heq, huncut (by omega)]
  rfl

end Bytes

/-! ### The invariant of the transport -/

namespace ExecutorProcessTransport

variable {μ : Type} {t t' t'' : ExecutorProcessTransport μ} {bytes bytes' : List UInt8}

/-- The bytes have been appended to `stdout`. -/
structure Pushed (t : ExecutorProcessTransport μ) (bytes : List UInt8) (t' : ExecutorProcessTransport μ) : Prop where
  events : t'.events = t.events
  phase : t'.phase = t.phase
  closed : t'.closed = t.closed
  messages : t'.messages = t.messages
  stdout : t'.stdout = t.stdout ++ bytes
  appended : t'.appended = t.appended ++ bytes

theorem Pushed.trans (h : Pushed t bytes t') (h' : Pushed t' bytes' t'') : Pushed t (bytes ++ bytes') t'' where
  events := h'.events.trans h.events
  phase := h'.phase.trans h.phase
  closed := h'.closed.trans h.closed
  messages := h'.messages.trans h.messages
  stdout := by rw [h'.stdout, h.stdout, append_assoc]
  appended := by rw [h'.appended, h.appended, append_assoc]

theorem pushed_noteSeq (seq : ℕ) : Pushed t [] (t.noteSeq seq) :=
  ⟨rfl, rfl, rfl, rfl, (append_nil _).symm, (append_nil _).symm⟩

theorem pushed_pushProcessOutputIfNew (chunk : ProcessOutputChunk) :
    Pushed t (if t.lastSeq < chunk.seq then protocolBytes chunk else []) (t.pushProcessOutputIfNew chunk) ∧
      (t.pushProcessOutputIfNew chunk).lastSeq = max t.lastSeq chunk.seq := by
  rw [pushProcessOutputIfNew]
  by_cases hle : chunk.seq ≤ t.lastSeq
  · rw [if_pos hle, if_neg (not_lt.mpr hle), max_eq_left hle]
    exact ⟨⟨rfl, rfl, rfl, rfl, (append_nil _).symm, (append_nil _).symm⟩, rfl⟩
  · rw [if_neg hle, if_pos (not_le.mp hle), max_eq_right (le_of_not_ge hle)]
    unfold pushProcessOutput protocolBytes
    split
    · exact ⟨⟨rfl, rfl, rfl, rfl, rfl, rfl⟩, rfl⟩
    · exact ⟨⟨rfl, rfl, rfl, rfl, rfl, rfl⟩, rfl⟩
    · exact ⟨⟨rfl, rfl, rfl, rfl, (append_nil _).symm, (append_nil _).symm⟩, rfl⟩

theorem pushed_foldl : ∀ {chunks : List ProcessOutputChunk} {t : ExecutorProcessTransport μ},
    (chunks.Pairwise fun a b => a.seq < b.seq) → (∀ chunk ∈ chunks, t.lastSeq < chunk.seq) →
      Pushed t (chunks.flatMap protocolBytes) (chunks.foldl pushProcessOutputIfNew t) ∧
        ∀ n, t.lastSeq ≤ n → (∀ chunk ∈ chunks, chunk.seq ≤ n) →
          (chunks.foldl pushProcessOutputIfNew t).lastSeq ≤ n
  | [], t, _, _ => ⟨⟨rfl, rfl, rfl, rfl, (append_nil _).symm, (append_nil _).symm⟩, fun _ h _ => h⟩
  | chunk :: chunks, t, hsorted, hnew => by
    obtain ⟨hfirst, hsorted⟩ := pairwise_cons.mp hsorted
    have hlt := hnew chunk mem_cons_self
    obtain ⟨hpushed, hlast⟩ := pushed_pushProcessOutputIfNew (t := t) chunk
    rw [if_pos hlt] at hpushed
    rw [max_eq_right (Nat.le_of_lt hlt)] at hlast
    obtain ⟨hrest, hlast'⟩ := pushed_foldl (t := t.pushProcessOutputIfNew chunk) hsorted fun c hc =>
      hlast ▸ hfirst c hc
    refine ⟨hpushed.trans hrest, fun n _ hle => hlast' n ?_ fun c hc => hle c (mem_cons_of_mem _ hc)⟩
    exact hlast ▸ hle chunk mem_cons_self

variable {streaming : ℕ} {process : RunningProcess}

/-- The response of a process that retains all its output. -/
theorem recover_retained {events : List ExecProcessEvent}
    (hn : Numbered events) (ht : Tracks events streaming process) (hall : process.output = outputs events)
    (hopen : t.closed = false) (hle : t.lastSeq ≤ events.length) :
    ∃ pushed, Pushed t (stdoutBytes (events.drop t.lastSeq)) pushed ∧ pushed.lastSeq ≤ events.length ∧
      outputs (events.drop pushed.lastSeq) = [] ∧
      t.recover (readResponse process ⟨some t.lastSeq, none, some 0⟩) =
        { pushed with closed := events.any ExecProcessEvent.isClosed } := by
  have hpage : Page.Sound events ⟨⟨some t.lastSeq, none, some 0⟩, process.output, _⟩ :=
    Page.sound_readResponse hn ht hle
  have hchunks : (readResponse process ⟨some t.lastSeq, none, some 0⟩).chunks = outputs (events.drop t.lastSeq) := by
    rw [chunks_readResponse ht, unread, hall, hn.outputs_drop]
  have hclosed : (readResponse process ⟨some t.lastSeq, none, some 0⟩).closed = _ := ht.closed
  have hfailure : (readResponse process ⟨some t.lastSeq, none, some 0⟩).failure = none := rfl
  generalize readResponse process ⟨some t.lastSeq, none, some 0⟩ = response at hpage hchunks hclosed hfailure ⊢
  have hforward : t.lastSeq < response.nextSeq := hpage.forward
  have hafter : ∀ chunk ∈ outputs (events.drop t.lastSeq), chunk.seq < response.nextSeq := hchunks ▸ hpage.after
  have hsorted : (outputs (events.drop t.lastSeq)).Pairwise fun a b => a.seq < b.seq := by
    rw [← hn.outputs_drop]
    exact hn.pairwise.sublist filter_sublist
  have hmem : ∀ chunk, chunk ∈ outputs (events.drop t.lastSeq) ↔ chunk ∈ outputs events ∧ t.lastSeq < chunk.seq := by
    intro chunk
    rw [← hn.outputs_drop, mem_filter, decide_eq_true_eq]
  obtain ⟨hpushed, hlast⟩ := pushed_foldl hsorted fun chunk hc => ((hmem chunk).mp hc).2
  have hnote := hpushed.trans (pushed_noteSeq (response.nextSeq - 1))
  rw [append_nil] at hnote
  -- the chunks end before the number that the response gives
  have hseq : ((outputs (events.drop t.lastSeq)).foldl pushProcessOutputIfNew t |>.noteSeq (response.nextSeq - 1)).lastSeq =
      response.nextSeq - 1 :=
    max_eq_right (hlast _ (by omega) fun chunk hc => Nat.le_sub_one_of_lt (hafter chunk hc))
  refine ⟨_, hnote, ?_, ?_, ?_⟩
  · have : response.nextSeq ≤ events.length + 1 := hpage.bounded
    omega
  · rw [hseq, ← hn.outputs_drop, filter_eq_nil_iff]
    intro chunk hc hlt
    have hlt := of_decide_eq_true hlt
    have := hafter chunk ((hmem chunk).mpr ⟨hc, by omega⟩)
    omega
  · rw [recover, hchunks, hfailure, hclosed]
    cases events.any ExecProcessEvent.isClosed with
    | true => rfl
    | false => exact congrArg (fun closed => { noteSeq _ _ with closed := closed }) (hnote.closed.trans hopen)

/-- What holds of the transport in every run, in terms of the events of the process and of those the log has
published. -/
structure Sound (parse : List UInt8 → Option μ) (produced published : List ExecProcessEvent)
    (t : ExecutorProcessTransport μ) : Prop where
  attached : t.events.Attached published
  bounded : t.lastSeq ≤ produced.length
  appended : t.appended = stdoutBytes (produced.take t.lastSeq)
  gapless : t.phase ≠ .recovering → Gapless produced t.lastSeq t.events.position
  closed : t.closed → produced.any ExecProcessEvent.isClosed ∧ t.appended = stdoutBytes produced
  listening : t.phase = .waiting ∨ t.phase = .recovering → t.closed = false
  framed : ∃ lines, t.messages = lines.filterMap (message parse) ∧ Left t.closed t.appended lines t.stdout
  ended : t.phase = .ended → t.closed ∧ t.stdout = []

variable {parse : List UInt8 → Option μ} {produced published : List ExecProcessEvent}

theorem Sound.transported (h : t.Sound parse produced published) : Transported parse produced t := by
  obtain ⟨lines, hmessages, hleft⟩ := h.framed
  refine ⟨h.appended, fun hclosed => (h.closed hclosed).2, ?_, fun hended => ?_⟩
  · rw [hmessages]
    exact hleft.isPrefix.filterMap _
  · obtain ⟨hclosed, hempty⟩ := h.ended hended
    rw [hempty] at hleft
    rw [hmessages, ← (h.closed hclosed).2, hleft.final]

variable {event : ExecProcessEvent}

theorem Sound.produce {produced' : List ExecProcessEvent} (h : t.Sound parse produced published)
    (hp : published <+: produced) (hlater : produced <+: produced') (hc : ClosedLast produced') :
    t.Sound parse produced' published := by
  obtain ⟨later, rfl⟩ := hlater
  have hposition : t.events.position ≤ produced.length :=
    (Nat.sub_le _ _).trans (h.attached.bounded.trans hp.length_le)
  refine { h with
    bounded := ?_
    appended := ?_
    gapless := fun hphase => ?_
    closed := fun hclosed => ?_ }
  · rw [length_append]
    exact Nat.le_add_right_of_le h.bounded
  · rw [take_append_of_le_length h.bounded]
    exact h.appended
  · rw [Gapless, take_append_of_le_length hposition]
    exact h.gapless hphase
  · -- nothing follows `closed`
    obtain ⟨e, hmem, he⟩ := any_eq_true.mp (h.closed hclosed).1
    obtain ⟨before, behind, rfl⟩ := append_of_mem hmem
    have hnil := (hc before e (behind ++ later) (by rw [append_assoc, cons_append]) he).1
    rw [(append_eq_nil_iff.mp hnil).2, append_nil]
    exact h.closed hclosed

theorem Sound.publish (h : t.Sound parse produced published) (event : ExecProcessEvent) :
    t.Sound parse produced (published ++ [event]) :=
  { h with attached := h.attached.concat event }

variable {log : ExecProcessEventLog}

theorem sound_new (hl : log.Sound) (hp : log.published <+: produced)
    (hdropped : stdoutBytes (log.published.take (log.published.length - log.history.events.length)) = []) :
    (new log : ExecutorProcessTransport μ).Sound parse produced log.published where
  attached := ExecProcessEventReceiver.attached_subscribe hl
  bounded := Nat.zero_le _
  appended := rfl
  gapless _ := by
    obtain ⟨later, rfl⟩ := hp
    show stdoutBytes (((log.published ++ later).take (log.published.length - log.history.events.length)).drop 0) = []
    rw [drop_zero, take_append_of_le_length (Nat.sub_le _ _)]
    exact hdropped
  closed hclosed := nomatch hclosed
  listening _ := rfl
  framed := ⟨[], rfl, .inl (Cut.empty newline)⟩
  ended hended := nomatch hended

theorem Sound.dropFuture (h : t.Sound parse produced published) (hphase : t.phase ≠ .recovering) :
    t.dropFuture.Sound parse produced published := by
  unfold ExecutorProcessTransport.dropFuture
  split
  · exact h
  · exact { h with
      gapless := fun _ => h.gapless hphase
      listening := (nomatch ·)
      ended := (nomatch ·) }

theorem Sound.pushed {rx : ExecProcessEventReceiver} {phase : Phase} (h : t.Sound parse produced published)
    (hopen : t.closed = false) (hp : Pushed { t with events := rx, phase := phase } bytes t') (closed : Bool) :
    ∃ lines, t'.messages = lines.filterMap (message parse) ∧ Left closed t'.appended lines t'.stdout := by
  obtain ⟨lines, hmessages, hleft⟩ := h.framed
  have hcut := hleft.resolve_right fun hended => absurd (hopen.symm.trans hended.1) (by decide)
  refine ⟨lines, hp.messages.trans hmessages, .inl ?_⟩
  rw [hp.stdout, hp.appended]
  exact hcut.append bytes

theorem handle_value {position : ℕ} (hseq : event.seq = some (position + 1)) :
    ∃ pushed, Pushed t (if t.lastSeq ≤ position then stdoutBytes [event] else []) pushed ∧
      pushed.lastSeq = max t.lastSeq (position + 1) ∧
      t.handle (.value event) = { pushed with closed := t.closed || event.isClosed } := by
  have hnote : ∀ bytes : List UInt8, bytes = [] →
      Pushed t (if t.lastSeq ≤ position then bytes else []) (t.noteSeq (position + 1)) := by
    rintro _ rfl
    rw [ite_self]
    exact pushed_noteSeq _
  cases event with
  | output chunk =>
    have hchunk : chunk.seq = position + 1 := Option.some.inj hseq
    obtain ⟨hpushed, hlast⟩ := pushed_pushProcessOutputIfNew (t := t) chunk
    rw [hchunk] at hpushed hlast
    refine ⟨_, ?_, hlast, ?_⟩
    · simp only [Nat.lt_succ_iff] at hpushed
      rw [stdoutBytes, outputs_singleton, flatMap_singleton]
      exact hpushed
    · rw [show (ExecProcessEvent.output chunk).isClosed = false from rfl, Bool.or_false, ← hpushed.closed]
      rfl
  | exited seq exitCode =>
    obtain rfl : seq = position + 1 := Option.some.inj hseq
    refine ⟨_, hnote _ rfl, rfl, ?_⟩
    rw [show (ExecProcessEvent.exited (position + 1) exitCode).isClosed = false from rfl, Bool.or_false]
    rfl
  | closed seq =>
    obtain rfl : seq = position + 1 := Option.some.inj hseq
    refine ⟨_, hnote _ rfl, rfl, ?_⟩
    rw [show (ExecProcessEvent.closed (position + 1)).isClosed = true from rfl, Bool.or_true]
    rfl
  | failed message => exact nomatch hseq

variable {rx : ExecProcessEventReceiver}

theorem Sound.received (h : t.Sound parse produced log.published) (hn : Numbered produced) (hc : ClosedLast produced)
    (hp : log.published <+: produced) (hphase : t.phase = .waiting) (hr : t.events.recv log = some (.value event, rx)) :
    ({ t with events := rx, phase := .taking }.handle (.value event)).Sound parse produced log.published := by
  obtain ⟨hevent, hposition, hattached⟩ := h.attached.recv_value hr
  have hevent : produced[t.events.position]? = some event := by
    obtain ⟨later, rfl⟩ := hp
    rw [List.getElem?_append_left (List.getElem?_eq_some_iff.mp hevent).1]
    exact hevent
  have hlt := (List.getElem?_eq_some_iff.mp hevent).1
  have hgap : Gapless produced t.lastSeq t.events.position := h.gapless (hphase ▸ nofun)
  have hopen := h.listening (Or.inl hphase)
  obtain ⟨pushed, hpushed, hlast, heq⟩ :=
    handle_value (t := { t with events := rx, phase := .taking }) (hn.seq_eq hevent)
  have happended : pushed.appended = stdoutBytes (produced.take pushed.lastSeq) := by
    rw [hpushed.appended, hlast]
    rw [h.appended]
    exact (stdoutBytes_advance hgap hevent).symm
  rw [heq]
  refine ⟨?_, ?_, happended, fun _ => ?_, fun hclosed => ?_, ?_, ?_, ?_⟩
  · rw [hpushed.events]
    exact hattached
  · rw [hlast]
    exact max_le h.bounded hlt
  · refine gapless_of_le ?_
    rw [hpushed.events, hlast]
    exact hposition.trans_le (le_max_right _ _)
  · have hclosed : event.isClosed = true := by
      rw [hopen, Bool.false_or] at hclosed
      exact hclosed
    refine ⟨List.any_eq_true.mpr ⟨event, List.mem_of_getElem? hevent, hclosed⟩, happended.trans ?_⟩
    -- nothing follows `closed`
    have hlast' : produced.drop (t.events.position + 1) = [] := by
      refine (hc (produced.take t.events.position) event _ ?_ hclosed).1
      rw [← List.getElem_eq_iff hlt |>.mpr hevent, ← List.drop_eq_getElem_cons hlt, List.take_append_drop]
    rw [hlast, List.take_of_length_le ((List.drop_eq_nil_iff.mp hlast').trans (le_max_right _ _))]
  · rw [hpushed.phase]
    nofun
  · exact h.pushed hopen hpushed _
  · rw [hpushed.phase]
    nofun

theorem Sound.lagged {skipped : ℕ} (h : t.Sound parse produced log.published) (hphase : t.phase = .waiting)
    (hr : t.events.recv log = some (.lagged skipped, rx)) :
    ({ t with events := rx, phase := .taking }.handle (.lagged skipped)).Sound parse produced log.published where
  attached := ExecProcessEventReceiver.attached_of_recv_lagged hr
  bounded := h.bounded
  appended := h.appended
  gapless hne := absurd rfl hne
  closed := h.closed
  listening _ := h.listening (.inl hphase)
  framed := h.framed
  ended := (nomatch ·)

/-- **The read that recovers from a lag**, of a process that retains all its output. -/
theorem Sound.recovered (h : t.Sound parse produced published)
    (hphase : t.phase = .recovering) (hn : Numbered produced) (ht : Tracks produced streaming process)
    (hall : process.output = outputs produced) :
    ({ t with phase := .taking }.recover (readResponse process ⟨some t.lastSeq, none, some 0⟩)).Sound parse produced
      published := by
  have hopen := h.listening (.inr hphase)
  obtain ⟨pushed, hpushed, hbounded, hnone, heq⟩ :=
    recover_retained (t := { t with phase := .taking }) hn ht hall hopen h.bounded
  have hall' : pushed.appended = stdoutBytes produced := by
    rw [hpushed.appended]
    rw [h.appended, stdoutBytes_take_append_drop]
  rw [heq]
  refine ⟨?_, hbounded, ?_, fun _ => gapless_of_outputs hnone, fun hclosed => ⟨hclosed, hall'⟩, ?_, ?_, ?_⟩
  · rw [hpushed.events]
    exact h.attached
  · rw [hall', ← stdoutBytes_take_append_drop produced pushed.lastSeq, stdoutBytes_of_outputs hnone, append_nil]
  · rw [hpushed.phase]
    nofun
  · exact h.pushed hopen hpushed _
  · rw [hpushed.phase]
    nofun

/-- Lines are taken from `stdout`. -/
theorem Sound.taken (h : t.Sound parse produced published) : ∃ lines,
    t.messages ++ (takeStdoutMessage parse t.closed t.stdout).1.toList = lines.filterMap (message parse) ∧
      Left t.closed t.appended lines (takeStdoutMessage parse t.closed t.stdout).2 ∧
      ((takeStdoutMessage parse t.closed t.stdout).1 = none → t.closed →
        (takeStdoutMessage parse t.closed t.stdout).2 = []) := by
  obtain ⟨lines, hmessages, hleft⟩ := h.framed
  obtain ⟨more, hmore, hleft, hempty⟩ := takeMessage_spec parse t.stdout.length (Nat.le_refl _) hleft
  exact ⟨lines ++ more, by rw [filterMap_append, hmore, hmessages]; rfl, hleft, hempty⟩

/-- **What a step of `receive_message` keeps.** -/
theorem Sound.receive {executor : ProcessPool}
    (h : t.Sound parse executor.shared.events.published log.published) (hc : executor.Consistent)
    (hp : log.published <+: executor.shared.events.published)
    (hall : t.phase = .recovering →
      executor.shared.process?.map RunningProcess.output = some (outputs executor.shared.events.published))
    (hr : t.receiveMessage parse executor.shared log = some t') :
    t'.Sound parse executor.shared.events.published log.published := by
  unfold receiveMessage at hr
  split at hr
  · next hphase =>
      have hgap := h.gapless (hphase ▸ nofun)
      obtain ⟨lines, hlines, hleft, hempty⟩ := h.taken
      split at hr
      · next parsed rest htaken =>
          obtain rfl := Option.some.inj hr
          rw [htaken] at hlines hleft
          exact { h with framed := ⟨lines, hlines, hleft⟩, ended := fun hended => nomatch hphase.symm.trans hended }
      · next rest htaken =>
          rw [htaken] at hlines hleft hempty
          rw [Option.toList_none, append_nil] at hlines
          split at hr
          · next hclosed =>
              obtain rfl := Option.some.inj hr
              exact { h with
                gapless := fun _ => hgap
                listening := (nomatch ·)
                framed := ⟨lines, hlines, hleft⟩
                ended := fun _ => ⟨hclosed, hempty rfl hclosed⟩ }
          · next hopen =>
              obtain rfl := Option.some.inj hr
              exact { h with
                gapless := fun _ => hgap
                listening := fun _ => Bool.eq_false_iff.mpr hopen
                framed := ⟨lines, hlines, hleft⟩
                ended := (nomatch ·) }
  · next hphase =>
      obtain ⟨⟨received, rx⟩, hrecv, rfl⟩ := Option.map_eq_some_iff.mp hr
      cases received with
      | value event => exact h.received hc.numbered hc.closedLast hp hphase hrecv
      | lagged skipped => exact h.lagged hphase hrecv
  · next hphase =>
      obtain ⟨process, hprocess, houtput⟩ := Option.map_eq_some_iff.mp (hall hphase)
      rw [inspect_of_process hprocess] at hr
      obtain rfl := Option.some.inj hr
      exact h.recovered hphase hc.numbered (hc.tracks process hprocess) houtput
  · exact nomatch hr

end ExecutorProcessTransport

/-! ### Runs -/

namespace Session

variable {μ : Type} {parse : List UInt8 → Option μ} {s s' : Session μ}

/-- What holds in every run. -/
structure Sound (parse : List UInt8 → Option μ) (s : Session μ) : Prop where
  executor : s.executor.Consistent
  log : s.log.Sound
  delivered : s.log.published <+: s.produced
  transport : ∀ t ∈ s.transport, t.Sound parse s.produced s.log.published

theorem Sound.executes (h : s.Sound parse) {event : ProcessEvent} {executor : ProcessPool}
    (hn : Exec.next s.executor event = some executor) : Sound parse { s with executor := executor } := by
  have hc := consistent_next h.executor hn
  have hlater := published_of_next h.executor hn
  refine ⟨hc, h.log, h.delivered.trans hlater, fun t ht => ?_⟩
  exact (h.transport t ht).produce h.delivered hlater hc.closedLast

theorem Sound.next {event : Event} (h : s.Sound parse) (hok : s.Recovers event ∧ s.SubscribesInTime event)
    (hn : s.next parse event = some s') : s'.Sound parse := by
  cases event with
  | executor event =>
    obtain ⟨executor, hstep, rfl⟩ := Option.map_eq_some_iff.mp hn
    exact h.executes hstep
  | deliver =>
    obtain ⟨event, hevent, rfl⟩ := Option.map_eq_some_iff.mp hn
    refine ⟨h.executor, h.log.publish event, ?_, fun t ht => (h.transport t ht).publish event⟩
    show s.log.published ++ [event] <+: s.produced
    obtain ⟨later, hlater⟩ := h.delivered
    rw [← hlater, getElem?_append_right (Nat.le_refl _), Nat.sub_self] at hevent
    cases later with
    | nil => exact nomatch hevent
    | cons e later =>
      obtain rfl := Option.some.inj hevent
      exact ⟨later, by rw [append_assoc]; exact hlater⟩
  | subscribe =>
    obtain ⟨_, hs⟩ := Option.ite_none_right_eq_some.mp hn
    obtain rfl := Option.some.inj hs
    refine ⟨h.executor, h.log, h.delivered, ?_⟩
    rintro _ ⟨⟩
    exact ExecutorProcessTransport.sound_new h.log h.delivered hok.2
  | receive =>
    obtain ⟨t', ht', rfl⟩ := Option.map_eq_some_iff.mp hn
    obtain ⟨t, ht, hstep⟩ := Option.bind_eq_some_iff.mp ht'
    refine ⟨h.executor, h.log, h.delivered, ?_⟩
    rintro _ ⟨⟩
    exact (h.transport t ht).receive h.executor h.delivered (hok.1 t ht) hstep
  | dropFuture =>
    obtain ⟨t, ht, rfl⟩ := Option.map_eq_some_iff.mp hn
    refine ⟨h.executor, h.log, h.delivered, ?_⟩
    rintro _ ⟨⟩
    exact (h.transport t ht).dropFuture (hok.1 t ht)

instance (s : Session μ) : (event : Event) → Decidable (s.Recovers event ∧ s.SubscribesInTime event)
  | .receive => inferInstanceAs (Decidable ((∀ t ∈ s.transport, _ → _) ∧ True))
  | .dropFuture => inferInstanceAs (Decidable ((∀ t ∈ s.transport, t.phase ≠ .recovering) ∧ True))
  | .subscribe => inferInstanceAs (Decidable (True ∧ _ = _))
  | .executor _ | .deliver => inferInstanceAs (Decidable (True ∧ True))

theorem sound_start (processId : Str) (tty : Bool) (eventCapacity byteCapacity : ℕ) :
    (start processId tty eventCapacity byteCapacity : Session μ).Sound parse where
  executor := consistent_startProcess processId tty
  log := ExecProcessEventLog.sound_new eventCapacity byteCapacity
  delivered := nil_prefix
  transport := nofun

end Session

open Session

/-- **The bytes and messages of a transport**, for every interleaving of the tasks of the process, the log and
the transport, and every capacity of the log. -/
theorem transported_of_meets {μ : Type} (parse : List UInt8 → Option μ) (processId : Str) (tty : Bool)
    (eventCapacity byteCapacity : ℕ) {events : List Event}
    (h : Meets (next parse) (fun s event => s.Recovers event ∧ s.SubscribesInTime event)
      (start processId tty eventCapacity byteCapacity) events) :
    Throughout (next parse) (fun s => ∀ t ∈ s.transport, Transported parse s.produced t)
      (start processId tty eventCapacity byteCapacity) events :=
  (throughout_of_meets (fun _ _ _ hs hok hn => hs.next hok hn) (sound_start processId tty _ _) h).imp
    fun _ hs t ht => (hs.transport t ht).transported

/-- A chunk of output is published by the executor. -/
def outputSteps (task : ℕ) (chunk : List UInt8) : List Event :=
  [.executor (.step task (.chunk (some chunk))), .executor (.step task .go), .executor (.step task .go),
    .executor (.step task .go)]

/-- The transport falls behind twice and the last line has no end. -/
def laggingReceiver : List Event :=
  List.flatten [[.subscribe], outputSteps 0 [49], [.deliver], outputSteps 0 [10, 50], [.deliver],
    List.replicate 6 .receive, .executor (.step 2 (.exit (some 0))) :: List.replicate 4 (.executor (.step 2 .go)),
    .executor (.step 0 (.chunk none)) :: List.replicate 2 (.executor (.step 0 .go)),
    .executor (.step 1 (.chunk none)) :: List.replicate 2 (.executor (.step 1 .go)), [.deliver, .deliver],
    List.replicate 5 .receive]

theorem transported_laggingReceiver :
    ((run (Session.next some) (start [] false 1 100) laggingReceiver).bind fun s => s.transport.map fun t =>
      (t.phase, t.messages)) = some (.ended, [[49], [50]]) ∧
    Throughout (Session.next some) (fun s => ∀ t ∈ s.transport, Transported some s.produced t) (start [] false 1 100)
      laggingReceiver :=
  ⟨by decide +kernel, transported_of_meets some [] false 1 100 (by decide +kernel)⟩

/-- The log has published one message and 256 chunks on standard error when the transport subscribes. -/
def lateSubscriber : List Event :=
  List.flatten [outputSteps 0 [49, 10], [.deliver], (List.replicate 256 (outputSteps 1 [46] ++ [.deliver])).flatten,
    [.subscribe, .receive, .receive]]

theorem not_transported_lateSubscriber : ∃ s : Session (List UInt8), ∃ t,
    run (Session.next some) (start [] false processEventChannelCapacity retainedOutputBytesPerProcess) lateSubscriber =
      some s ∧ s.transport = some t ∧ ¬ Transported some s.produced t := by
  obtain ⟨s, hs, t, ht, hempty, hbytes⟩ : ∃ s ∈ run (Session.next some) (start [] false processEventChannelCapacity
      retainedOutputBytesPerProcess) lateSubscriber, ∃ t ∈ s.transport,
        t.appended = [] ∧ stdoutBytes (s.produced.take t.lastSeq) = [49, 10] := by decide +kernel
  refine ⟨s, t, hs, ht, fun h => ?_⟩
  rw [h.appended, hbytes] at hempty
  exact absurd hempty (by decide)

end OpenAgere.ExecutorTransport
