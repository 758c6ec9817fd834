import OpenAgere.LocalProcess

/-! # The events of a process

For every interleaving of the tasks of a process: its events are numbered 1, 2, 3, … in the order in which
its log publishes them, nothing follows `closed`, which comes once and after `exited`, and the retained
output is the longest suffix of the output that fits (`processLifecycle_of_run`). -/

namespace OpenAgere.Exec

open List Retention Transition ExecProcessEvent

/-- The chunks of the output events. -/
def outputs (events : List ExecProcessEvent) : List ProcessOutputChunk := events.filterMap chunk?

/-- The events carry the numbers 1, 2, 3, … -/
def Numbered (events : List ExecProcessEvent) : Prop :=
  events.map seq = (List.range' 1 events.length).map some

/-- Nothing follows `closed`, and `exited` comes before it. -/
def ClosedLast (events : List ExecProcessEvent) : Prop :=
  ∀ pre event post, events = pre ++ event :: post → event.isClosed →
    post = [] ∧ pre.any isExited

/-- The number of tasks in a phase. -/
def inPhase (tasks : List Task) (phase : Phase) : ℕ := tasks.countP fun task => task.phase = phase

section Lists

variable {events : List ExecProcessEvent} {event : ExecProcessEvent}

theorem outputs_concat_output (chunk : ProcessOutputChunk) :
    outputs (events ++ [.output chunk]) = outputs events ++ [chunk] := by
  rw [outputs, filterMap_append]
  rfl

theorem outputs_concat_of_none (h : event.chunk? = none) : outputs (events ++ [event]) = outputs events := by
  rw [outputs, filterMap_append, filterMap_cons_none h, filterMap_nil, append_nil]
  rfl

theorem Numbered.concat (h : Numbered events) (he : event.seq = some (events.length + 1)) :
    Numbered (events ++ [event]) := by
  rw [Numbered, map_append, h, length_append, length_singleton, range'_1_concat,
    map_append, map_singleton, map_singleton, he, Nat.add_comm 1]

theorem ClosedLast.concat (h : events.any isClosed = false)
    (he : event.isClosed → events.any isExited) : ClosedLast (events ++ [event]) := by
  intro pre e post heq hclosed
  obtain rfl | ⟨post, last, rfl⟩ := eq_nil_or_concat' post
  · obtain ⟨rfl, hlast⟩ := append_inj' heq rfl
    obtain rfl := singleton_inj.mp hlast
    exact ⟨rfl, he hclosed⟩
  · rw [← cons_append, ← append_assoc] at heq
    obtain ⟨rfl, _⟩ := append_inj' heq rfl
    rw [any_append, any_cons, hclosed, Bool.true_or, Bool.or_true] at h
    exact absurd h (by decide)

/-- `closed` comes at most once. -/
theorem ClosedLast.countP_le_one (h : ClosedLast events) : events.countP isClosed ≤ 1 := by
  obtain hzero | hpos := Nat.eq_zero_or_pos (events.countP isClosed)
  · omega
  · obtain ⟨event, hmem, hclosed⟩ := countP_pos_iff.mp hpos
    obtain ⟨pre, post, rfl⟩ := append_of_mem hmem
    obtain ⟨rfl, -⟩ := h pre event post rfl hclosed
    have hpre : pre.countP isClosed = 0 := by
      refine countP_eq_zero.mpr fun earlier hmem hclosed => ?_
      obtain ⟨pre, between, rfl⟩ := append_of_mem hmem
      exact absurd (h pre earlier (between ++ [event]) (by simp) hclosed).1 (by simp)
    rw [countP_append, hpre, countP_cons_of_pos hclosed, countP_nil]

theorem ClosedLast.any_isExited (h : ClosedLast events) (hc : events.any isClosed) :
    events.any isExited := by
  obtain ⟨event, hmem, hclosed⟩ := any_eq_true.mp hc
  obtain ⟨pre, post, rfl⟩ := append_of_mem hmem
  rw [any_append, (h pre event post rfl hclosed).2, Bool.true_or]

theorem Numbered.seq_eq (h : Numbered events) {i : ℕ} {event : ExecProcessEvent} (he : events[i]? = some event) :
    event.seq = some (i + 1) := by
  have hlt := (List.getElem?_eq_some_iff.mp he).1
  have hmap : (events.map seq)[i]? = some event.seq := by
    rw [List.getElem?_map, he]
    rfl
  rw [h, List.getElem?_map, List.getElem?_range' hlt, Nat.one_mul, Nat.add_comm] at hmap
  exact (Option.some.inj hmap).symm

end Lists

section Phases

variable {tasks : List Task} {task : Task} {i : ℕ}

theorem inPhase_set (task' : Task) (h : tasks[i]? = some task) (phase : Phase) :
    inPhase (tasks.set i task') phase + (decide (task.phase = phase)).toNat =
      inPhase tasks phase + (decide (task'.phase = phase)).toNat :=
  Pool.countP_set task' h

/-- The tasks in a phase are the one that makes a step and others. -/
theorem inPhase_move (task' : Task) (h : tasks[i]? = some task) : ∃ others : Phase → ℕ, ∀ phase,
    inPhase tasks phase = others phase + (decide (task.phase = phase)).toNat ∧
      inPhase (tasks.set i task') phase = others phase + (decide (task'.phase = phase)).toNat := by
  refine ⟨fun phase => inPhase tasks phase - (decide (task.phase = phase)).toNat, fun phase => ?_⟩
  have hset := inPhase_set task' h phase
  have hle : (decide (task.phase = phase)).toNat ≤ inPhase tasks phase := by
    cases hphase : decide (task.phase = phase) with
    | true => exact countP_pos_iff.mpr ⟨task, mem_of_getElem? h, hphase⟩
    | false => exact Nat.zero_le _
  dsimp only
  omega

end Phases

/-! ### The invariant -/

/-- What the entry of a running process says about the events and the tasks. -/
structure Tracks (events : List ExecProcessEvent) (streaming : ℕ) (process : RunningProcess) : Prop where
  nextSeq : process.nextSeq = events.length + 1
  kept : Kept exceedsRetained chunkLen (outputs events) process.output process.retainedBytes
  openStreams : process.openStreams = streaming
  exited : process.exitCode.isSome = events.any isExited
  closed : process.closed = events.any isClosed

/-- What holds in every run of the entry, the events and the numbers of tasks with an open stream and with the
exit to record. -/
structure Consistent (process : Option RunningProcess) (events : List ExecProcessEvent) (streaming exiting : ℕ) :
    Prop where
  numbered : Numbered events
  closedLast : ClosedLast events
  exits : events.countP isExited + exiting ≤ 1
  settled : events.any isClosed → streaming = 0
  tracks : ∀ running, process = some running → Tracks events streaming running

/-- What holds beside it while nothing is shut down, with the number of tasks that have to check for the end. -/
structure Alive (process : Option RunningProcess) (events : List ExecProcessEvent) (streaming exiting closing : ℕ) :
    Prop where
  gone : process = none → events.any isClosed
  exits : events.countP isExited + exiting = 1
  pending : events.any isClosed = false → streaming = 0 → exiting = 0 → 0 < closing

theorem budget_retained : Budget exceedsRetained where
  empty := by decide
  mono n b m c _ hb h := by
    simp only [exceedsRetained, decide_eq_false_iff_not, not_lt] at h ⊢
    exact hb.trans h

namespace Tracks

variable {events : List ExecProcessEvent} {event : ExecProcessEvent} {streaming : ℕ} {process process' : RunningProcess}

/-- An event is published and the entry follows it. -/
theorem publish (h : Tracks events streaming process) (hseq : process'.nextSeq = process.nextSeq + 1)
    (hkept : Kept exceedsRetained chunkLen (outputs (events ++ [event])) process'.output process'.retainedBytes)
    (hopen : process'.openStreams = process.openStreams)
    (hexited : process'.exitCode.isSome = (process.exitCode.isSome || event.isExited))
    (hclosed : process'.closed = (process.closed || event.isClosed)) :
    Tracks (events ++ [event]) streaming process' where
  nextSeq := by rw [length_append, length_singleton, ← h.nextSeq, hseq]
  kept := hkept
  openStreams := hopen.trans h.openStreams
  exited := by rw [hexited, h.exited, any_append, any_cons, any_nil, Bool.or_false]
  closed := by rw [hclosed, h.closed, any_append, any_cons, any_nil, Bool.or_false]

theorem pushOutput (h : Tracks events streaming process) (stream : ExecOutputStream) (chunk : List UInt8) :
    Tracks (events ++ [.output ⟨process.nextSeq, stream, chunk⟩]) streaming (process.pushOutput stream chunk) := by
  refine h.publish rfl ?_ rfl (Bool.or_false _).symm (Bool.or_false _).symm
  rw [outputs_concat_output]
  exact h.kept.push budget_retained ⟨process.nextSeq, stream, chunk⟩

theorem recordExit (h : Tracks events streaming process) (exitCode : ℤ) :
    Tracks (events ++ [.exited process.nextSeq exitCode]) streaming (process.recordExit exitCode) := by
  refine h.publish rfl ?_ rfl (Bool.or_true _).symm (Bool.or_false _).symm
  rw [outputs_concat_of_none rfl]
  exact h.kept

theorem finishStream (h : Tracks events (streaming + 1) process) : Tracks events streaming process.finishStream := by
  have hopen : process.openStreams > 0 := by
    rw [h.openStreams]
    exact Nat.succ_pos _
  rw [RunningProcess.finishStream, if_pos hopen]
  refine { h with
    openStreams := ?_ }
  rw [h.openStreams, Nat.add_sub_cancel]

theorem close (h : Tracks events streaming process) :
    Tracks (events ++ [.closed process.nextSeq]) streaming process.close := by
  refine h.publish rfl ?_ rfl (Bool.or_false _).symm (Bool.or_true _).symm
  rw [outputs_concat_of_none rfl]
  exact h.kept

/-- What the check of `maybe_emit_closed` found. -/
theorem of_closes (h : Tracks events streaming process) (hc : process.staysOpen = false) : streaming = 0 ∧
    events.any isExited ∧ events.any isClosed = false := by
  simp only [RunningProcess.staysOpen, Bool.or_eq_false_iff, bne_eq_false_iff_eq] at hc
  obtain ⟨⟨hclosed, hopen⟩, hexit⟩ := hc
  refine ⟨h.openStreams.symm.trans hopen, ?_, h.closed.symm.trans hclosed⟩
  rw [← h.exited, ← Option.not_isNone, hexit]
  rfl

end Tracks

namespace Consistent

variable {process process' : RunningProcess} {entry : Option RunningProcess} {events : List ExecProcessEvent}
  {event : ExecProcessEvent} {streaming streaming' exiting exiting' : ℕ}

theorem publish (h : Consistent (some process) events streaming exiting) (hseq : event.seq = some process.nextSeq)
    (hopen : events.any isClosed = false)
    (hclosed : event.isClosed → streaming = 0 ∧ events.any isExited)
    (hexits : (events ++ [event]).countP isExited + exiting' ≤ 1) (ht : Tracks (events ++ [event]) streaming process') :
    Consistent (some process') (events ++ [event]) streaming exiting' where
  numbered := h.numbered.concat (hseq.trans (congrArg some (h.tracks process rfl).nextSeq))
  closedLast := .concat hopen fun hc => (hclosed hc).2
  exits := hexits
  settled hc := by
    rw [any_append, hopen, any_cons, any_nil, Bool.or_false] at hc
    exact (hclosed hc).1
  tracks := by
    rintro _ ⟨⟩
    exact ht

theorem push (h : Consistent (some process) events (streaming + 1) exiting) (stream : ExecOutputStream)
    (chunk : List UInt8) : Consistent (some (process.pushOutput stream chunk))
      (events ++ [.output ⟨process.nextSeq, stream, chunk⟩]) (streaming + 1) exiting := by
  -- a stream is still open
  have hopen : events.any isClosed = false := by
    rw [Bool.eq_false_iff]
    exact fun hc => Nat.succ_ne_zero _ (h.settled hc)
  refine h.publish rfl hopen nofun ?_ ((h.tracks process rfl).pushOutput stream chunk)
  rw [countP_append]
  exact h.exits

theorem finish (h : Consistent (some process) events (streaming + 1) exiting) :
    Consistent (some process.finishStream) events streaming exiting where
  numbered := h.numbered
  closedLast := h.closedLast
  exits := h.exits
  settled hc := absurd (h.settled hc) (Nat.succ_ne_zero _)
  tracks := by
    rintro _ ⟨⟩
    exact (h.tracks process rfl).finishStream

theorem exit (h : Consistent (some process) events streaming (exiting + 1)) (exitCode : ℤ) :
    Consistent (some (process.recordExit exitCode)) (events ++ [.exited process.nextSeq exitCode]) streaming exiting := by
  have hexits := h.exits
  -- the exit is still to be recorded
  have hopen : events.any isClosed = false := by
    rw [Bool.eq_false_iff]
    intro hc
    have := countP_pos_iff.mpr (any_eq_true.mp (h.closedLast.any_isExited hc))
    omega
  refine h.publish rfl hopen nofun ?_ ((h.tracks process rfl).recordExit exitCode)
  rw [countP_append]
  show _ + 1 + _ ≤ 1
  omega

theorem close (h : Consistent (some process) events streaming exiting) (hc : process.staysOpen = false) :
    Consistent (some process.close) (events ++ [.closed process.nextSeq]) streaming exiting := by
  have ht := h.tracks process rfl
  obtain ⟨hstreaming, hexited, hopen⟩ := ht.of_closes hc
  refine h.publish rfl hopen (fun _ => ⟨hstreaming, hexited⟩) ?_ ht.close
  rw [countP_append]
  exact h.exits

theorem gone (h : Consistent entry events streaming exiting) (hs : streaming' ≤ streaming) (hx : exiting' ≤ exiting) :
    Consistent none events streaming' exiting' where
  numbered := h.numbered
  closedLast := h.closedLast
  exits := (Nat.add_le_add_left hx _).trans h.exits
  settled hc := Nat.le_zero.mp (h.settled hc ▸ hs)
  tracks _ hp := nomatch hp

end Consistent

namespace Alive

variable {process : RunningProcess} {entry : Option RunningProcess} {events : List ExecProcessEvent}
  {streaming exiting closing : ℕ}

theorem push (h : Alive (some process) events (streaming + 1) exiting closing) (stream : ExecOutputStream)
    (chunk : List UInt8) : Alive (some (process.pushOutput stream chunk))
      (events ++ [.output ⟨process.nextSeq, stream, chunk⟩]) (streaming + 1) exiting closing where
  gone hp := nomatch hp
  exits := by
    rw [countP_append]
    exact h.exits
  pending _ hs := absurd hs (Nat.succ_ne_zero _)

theorem finish (h : Alive (some process) events (streaming + 1) exiting closing) :
    Alive (some process.finishStream) events streaming exiting (closing + 1) where
  gone hp := nomatch hp
  exits := h.exits
  pending _ _ _ := Nat.succ_pos _

theorem exit (h : Alive (some process) events streaming (exiting + 1) closing) (exitCode : ℤ) :
    Alive (some (process.recordExit exitCode)) (events ++ [.exited process.nextSeq exitCode]) streaming exiting
      (closing + 1) where
  gone hp := nomatch hp
  exits := by
    rw [countP_append, ← h.exits, Nat.add_assoc, Nat.add_comm exiting]
    rfl
  pending _ _ _ := Nat.succ_pos _

theorem close (h : Alive (some process) events streaming exiting (closing + 1)) :
    Alive (some process.close) (events ++ [.closed process.nextSeq]) streaming exiting closing where
  gone hp := nomatch hp
  exits := by
    rw [countP_append]
    exact h.exits
  pending hopen := by
    rw [any_append, Bool.or_eq_false_iff] at hopen
    exact nomatch hopen.2

/-- The check of `maybe_emit_closed` that does nothing was not the last one needed. -/
theorem keep (h : Alive entry events streaming exiting (closing + 1)) (hc : Consistent entry events streaming exiting)
    (stays : ∀ process, entry = some process → process.staysOpen) :
    Alive entry events streaming exiting closing where
  gone := h.gone
  exits := h.exits
  pending hopen hs hx := by
    cases entry with
    | none => exact nomatch hopen.symm.trans (h.gone rfl)
    | some process =>
      have ht := hc.tracks process rfl
      have hexited : events.any isExited = true := by
        have hexits := h.exits
        exact any_eq_true.mpr (countP_pos_iff.mp (by omega))
      have hstays := stays process rfl
      rw [RunningProcess.staysOpen, ht.closed, hopen, ht.openStreams, hs, ← Option.not_isSome, ht.exited, hexited] at hstays
      exact nomatch hstays

end Alive

/-! ### Runs -/

section Runs

variable {pool pool' : ProcessPool} {s s' : Inner} {process : RunningProcess} {task task' : Task} {i : ℕ}

theorem process?_congr (h : s'.entry = s.entry) : s'.process? = s.process? := by
  unfold Inner.process?
  rw [h]

theorem exists_inPhase_eq_succ (hi : pool.tasks[i]? = some task) : ∃ n, inPhase pool.tasks task.phase = n + 1 :=
  Nat.exists_eq_add_one.mpr (countP_pos_iff.mpr ⟨task, mem_of_getElem? hi, decide_eq_true rfl⟩)

/-- The invariants of a pool. -/
def ProcessPool.Consistent (pool : ProcessPool) : Prop :=
  Exec.Consistent pool.shared.process? pool.shared.events.published (inPhase pool.tasks .streaming)
    (inPhase pool.tasks .exiting)

def ProcessPool.Alive (pool : ProcessPool) : Prop :=
  Exec.Alive pool.shared.process? pool.shared.events.published (inPhase pool.tasks .streaming)
    (inPhase pool.tasks .exiting) (inPhase pool.tasks .closing)

/-- **One step of a task.** -/
theorem consistent_step (hc : pool.Consistent) (hi : pool.tasks[i]? = some task)
    (he : Effect pool.shared task s task') : ProcessPool.Consistent ⟨s, pool.tasks.set i task'⟩ ∧
      (task ≠ .shutdown → pool.Alive → ProcessPool.Alive ⟨s, pool.tasks.set i task'⟩) := by
  obtain ⟨others, hphases⟩ := inPhase_move task' hi
  unfold ProcessPool.Consistent at hc ⊢
  unfold ProcessPool.Alive
  simp only [hphases] at hc ⊢
  cases he with
  | quiet entry events _ phase _ _ | wake entry events _ phase _ _ =>
    rw [process?_congr entry, events, phase]
    exact ⟨hc, fun _ => id⟩
  | push stream chunk running =>
    rw [running] at hc ⊢
    exact ⟨hc.push stream chunk, fun _ h => h.push stream chunk⟩
  | finish running =>
    rw [running] at hc ⊢
    exact ⟨hc.finish, fun _ h => h.finish⟩
  | finishGone gone =>
    rw [gone]
    -- a process that is gone has closed, and then no stream was open
    exact ⟨hc.gone (Nat.le_succ _) le_rfl, fun _ h => absurd (hc.settled (h.gone rfl)) (Nat.succ_ne_zero _)⟩
  | exit exitCode running =>
    rw [running] at hc ⊢
    exact ⟨hc.exit exitCode, fun _ h => h.exit exitCode⟩
  | exitGone exitCode gone =>
    rw [gone]
    refine ⟨hc.gone le_rfl (Nat.le_succ _), fun _ h => ?_⟩
    -- a process that is gone has closed, and then its exit was recorded
    have hpos := countP_pos_iff.mpr (any_eq_true.mp (hc.closedLast.any_isExited (h.gone rfl)))
    have hexits : _ + (others .exiting + 1) = 1 := h.exits
    omega
  | close running closes =>
    rw [running] at hc ⊢
    exact ⟨hc.close closes, fun _ h => h.close⟩
  | keep stays => exact ⟨hc, fun _ h => h.keep hc stays⟩
  | remove running closed =>
    have hclosed := (hc.tracks _ running).closed.symm.trans closed
    exact ⟨hc.gone le_rfl le_rfl,
      fun _ h => ⟨fun _ => hclosed, h.exits, fun hopen => nomatch hopen.symm.trans hclosed⟩⟩
  | shutdown => exact ⟨hc.gone le_rfl le_rfl, absurd rfl⟩

theorem phase_start_ne (c : Call) :
    (start c).phase ≠ .streaming ∧ (start c).phase ≠ .exiting ∧ (start c).phase ≠ .closing := by
  cases c <;> exact ⟨nofun, nofun, nofun⟩

theorem works_start {c : Call} (h : c ≠ .shutdown) : (start c).phase.works = false := by
  cases c with
  | shutdown => exact absurd rfl h
  | _ => rfl

theorem inPhase_concat_of_ne (tasks : List Task) {phase : Phase} (h : task.phase ≠ phase) :
    inPhase (tasks ++ [task]) phase = inPhase tasks phase := by
  rw [inPhase, countP_append, countP_singleton, decide_eq_false h]
  rfl

theorem works_of_effect (he : Effect s task s' task') (h : task.phase.works = false) : task'.phase.works = false := by
  cases he with
  | quiet _ _ _ phase _ _ | wake _ _ _ phase _ _ => exact phase ▸ h
  | remove _ _ => rfl
  | _ => exact nomatch h

theorem inPhase_shuttingDown_step (he : Effect pool.shared task s task') (hi : pool.tasks[i]? = some task)
    (h : inPhase pool.tasks .shuttingDown = 0) : inPhase (pool.tasks.set i task') .shuttingDown = 0 := by
  have hset := inPhase_set task' hi .shuttingDown
  have hle : inPhase (pool.tasks.set i task') .shuttingDown ≤ inPhase pool.tasks .shuttingDown := by
    cases he with
    | quiet _ _ _ phase _ _ | wake _ _ _ phase _ _ =>
      rw [phase] at hset
      exact (Nat.add_right_cancel hset).le
    | shutdown => exact Nat.le_of_add_right_le hset.le
    | _ => exact hset.le
  exact Nat.le_zero.mp (h ▸ hle)

theorem consistent_next {event : ProcessEvent} (h : pool.Consistent) (hn : next pool event = some pool') :
    pool'.Consistent := by
  cases event with
  | call c =>
    obtain rfl := Option.some.inj hn
    obtain ⟨hstreaming, hexiting, _⟩ := phase_start_ne c
    unfold ProcessPool.Consistent
    rw [inPhase_concat_of_ne _ hstreaming, inPhase_concat_of_ne _ hexiting]
    exact h
  | step i answer =>
    obtain ⟨task, s, task', hi, hstep, rfl⟩ := Pool.next_step hn
    exact (consistent_step h hi (effect_of_step hstep)).1

theorem consistent_startProcess (processId : Str) (tty : Bool) : (startProcess processId tty).Consistent where
  numbered := rfl
  closedLast := by
    rintro pre event post heq -
    exact absurd heq.symm (by simp [startProcess])
  exits := by cases tty <;> exact Nat.le_refl 1
  settled h := nomatch (h : false = true)
  tracks process hp := by
    obtain rfl := Option.some.inj hp
    exact ⟨rfl, Kept.nil budget_retained, by cases tty <;> rfl, rfl, rfl⟩

/-- The invariants of the runs in which nothing is shut down: beside those above, the tasks that calls
start stay out of the way of the three tasks of the process. -/
structure ProcessPool.Undisturbed (pool : ProcessPool) : Prop where
  consistent : pool.Consistent
  alive : pool.Alive
  noShutdown : inPhase pool.tasks .shuttingDown = 0
  workers : ∀ i task, 3 ≤ i → pool.tasks[i]? = some task → task.phase.works = false
  length : 3 ≤ pool.tasks.length

theorem undisturbed_next {event : ProcessEvent} (h : pool.Undisturbed) (hs : event ≠ .call .shutdown)
    (hn : next pool event = some pool') : pool'.Undisturbed := by
  cases event with
  | call c =>
    have hc : c ≠ .shutdown := fun hc => hs (congrArg _ hc)
    refine ⟨consistent_next h.consistent hn, ?_, ?_, ?_, ?_⟩ <;> obtain rfl := Option.some.inj hn
    · obtain ⟨hstreaming, hexiting, hclosing⟩ := phase_start_ne c
      unfold ProcessPool.Alive
      rw [inPhase_concat_of_ne _ hstreaming, inPhase_concat_of_ne _ hexiting, inPhase_concat_of_ne _ hclosing]
      exact h.alive
    · refine (inPhase_concat_of_ne _ ?_).trans h.noShutdown
      intro hphase
      have hworks := works_start hc
      rw [hphase] at hworks
      exact nomatch hworks
    · intro i task hi ht
      by_cases hlt : i < pool.tasks.length
      · rw [getElem?_append_left hlt] at ht
        exact h.workers i task hi ht
      · rw [getElem?_append_right (Nat.le_of_not_lt hlt)] at ht
        rw [mem_singleton.mp (mem_of_getElem? ht)]
        exact works_start hc
    · rw [length_append]
      exact Nat.le_add_right_of_le h.length
  | step i answer =>
    obtain ⟨task, s, task', hi, hstep, rfl⟩ := Pool.next_step hn
    have he := effect_of_step hstep
    obtain ⟨hcons, halive⟩ := consistent_step h.consistent hi he
    have htask : task ≠ .shutdown := by
      rintro rfl
      exact absurd h.noShutdown (countP_pos_iff.mpr ⟨_, mem_of_getElem? hi, rfl⟩).ne'
    refine ⟨hcons, halive htask h.alive, inPhase_shuttingDown_step he hi h.noShutdown, ?_, ?_⟩
    · intro j other hj hother
      rw [getElem?_set] at hother
      split at hother
      · next hij =>
          subst hij
          split at hother
          · obtain rfl := Option.some.inj hother
            exact works_of_effect he (h.workers i task hj hi)
          · exact nomatch hother
      · exact h.workers j other hj hother
    · rw [length_set]
      exact h.length

theorem undisturbed_of_run {processId : Str} {tty : Bool} {events : List ProcessEvent}
    (hs : ∀ event ∈ events, event ≠ .call .shutdown)
    (h : run next (startProcess processId tty) events = some pool) : pool.Undisturbed := by
  refine run_inv_of_meets (fun _ _ _ hp he hn => undisturbed_next hp he hn) ?_ (meets_of_forall hs) h
  refine ⟨consistent_startProcess processId tty, ⟨nofun, ?_, fun _ hs => ?_⟩, ?_, ?_, Nat.le_refl 3⟩
  · cases tty <;> rfl
  · exact absurd hs (by cases tty <;> exact Nat.succ_ne_zero _)
  · cases tty <;> rfl
  · intro i task hi ht
    have := (List.getElem?_eq_some_iff.mp ht).1
    exact absurd this (by simpa [startProcess] using hi)

theorem inPhase_eq_zero_of_done (h : pool.Undisturbed) (hdone : pool.tasks.take 3 = [.done, .done, .done])
    (phase : Phase) (hp : phase.works) : inPhase pool.tasks phase = 0 := by
  refine countP_eq_zero.mpr fun task hmem hphase => Bool.false_ne_true (.trans ?_ hp)
  obtain ⟨i, hi⟩ := mem_iff_getElem?.mp hmem
  rw [← of_decide_eq_true hphase]
  symm
  by_cases hlt : i < 3
  · rw [← getElem?_take_of_lt hlt, hdone] at hi
    have hmem := mem_of_getElem? hi
    simp only [mem_cons, not_mem_nil, or_false, or_self] at hmem
    rw [hmem]
    rfl
  · exact h.workers i task (Nat.le_of_not_lt hlt) hi

end Runs

theorem fits_retained_iff {chunks : List ProcessOutputChunk} :
    Fits exceedsRetained chunkLen chunks ↔ total chunkLen chunks ≤ retainedOutputBytesPerProcess := by
  unfold Fits exceedsRetained
  rw [decide_eq_false_iff_not, not_lt]

/-- The events of a process and its retained output, as its readers may rely on them. -/
structure Lifecycle (pool : ProcessPool) : Prop where
  /-- the sequence numbers are 1, 2, 3, … in the order of publication -/
  numbered : Numbered pool.shared.events.published
  /-- `exited` and `closed` come at most once, and once when the tasks of the process have ended -/
  exitedOnce : pool.shared.events.published.countP isExited ≤ 1
  closedOnce : pool.shared.events.published.countP isClosed ≤ 1
  complete : pool.tasks.take 3 = [.done, .done, .done] →
    pool.shared.events.published.countP isExited = 1 ∧
      pool.shared.events.published.countP isClosed = 1
  /-- `closed` comes after `exited` and after all output -/
  closedLast : ClosedLast pool.shared.events.published
  /-- what is retained is the longest suffix of the output within the limit -/
  retained : ∀ process, pool.shared.process? = some process →
    LongestSuffix (fun chunks => total chunkLen chunks ≤ retainedOutputBytesPerProcess)
      (outputs pool.shared.events.published) process.output ∧ process.retainedBytes = total chunkLen process.output

/-- **The events of a process**, for every interleaving of its tasks in which nothing is shut down. -/
theorem processLifecycle_of_run {processId : Str} {tty : Bool} {events : List ProcessEvent} {pool : ProcessPool}
    (hs : ∀ event ∈ events, event ≠ .call .shutdown)
    (h : run next (startProcess processId tty) events = some pool) : Lifecycle pool := by
  have hu := undisturbed_of_run hs h
  have hc := hu.consistent
  refine ⟨hc.numbered, Nat.le_of_add_right_le hc.exits, hc.closedLast.countP_le_one, fun hdone => ?_, hc.closedLast, ?_⟩
  · have hstreaming := inPhase_eq_zero_of_done hu hdone .streaming rfl
    have hexiting := inPhase_eq_zero_of_done hu hdone .exiting rfl
    have hclosing := inPhase_eq_zero_of_done hu hdone .closing rfl
    have hexits := hu.alive.exits
    refine ⟨by omega, le_antisymm hc.closedLast.countP_le_one ?_⟩
    -- otherwise a check for the end would still be to come
    have hclosed : pool.shared.events.published.any isClosed = true := by
      by_contra hopen
      exact absurd (hu.alive.pending (Bool.eq_false_iff.mpr hopen) hstreaming hexiting) (by omega)
    exact countP_pos_iff.mpr (any_eq_true.mp hclosed)
  · intro process hp
    obtain ⟨hlongest, hbytes⟩ := (hc.tracks process hp).kept
    refine ⟨⟨hlongest.suffix, fits_retained_iff.mp hlongest.holds, fun t ht hfits => ?_⟩, hbytes⟩
    exact hlongest.longest t ht (fits_retained_iff.mpr hfits)

/-- A run in which the exit is recorded between two chunks of output and the streams end in turn. -/
def lateOutput : List ProcessEvent :=
  [.step 0 (.chunk (some [104])), .step 0 .go, .step 2 (.exit (some 0)), .step 2 .go, .step 1 (.chunk none), .step 0 .go,
    .step 0 .go, .step 1 .go, .step 0 (.chunk (some [105])), .step 2 .go, .step 2 .go, .step 2 .go, .step 0 .go,
    .step 1 .go, .step 0 .go, .step 0 .go, .step 0 (.chunk none), .step 0 .go, .step 0 .go, .step 0 .go, .step 0 .go]

theorem lifecycle_lateOutput : ∃ pool, run next (startProcess [] false) lateOutput = some pool ∧
    pool.tasks.take 3 = [.done, .done, .done] ∧ Lifecycle pool := by
  obtain ⟨pool, hrun, hdone⟩ : ∃ pool ∈ run next (startProcess [] false) lateOutput,
      pool.tasks.take 3 = [.done, .done, .done] := by decide +kernel
  exact ⟨pool, hrun, hdone, processLifecycle_of_run (by simp [lateOutput]) hrun⟩

end OpenAgere.Exec
