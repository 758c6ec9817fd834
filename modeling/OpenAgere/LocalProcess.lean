import OpenAgere.ProcessEvents
import OpenAgere.Transition

/-! # Processes of the exec server

One process of `exec-server/src/local_process.rs` as a pool of tasks: the two `stream_output` tasks, the
`watch_exit` task, the cleanup that removes a closed process, `shutdown`, and clients that page through the
retained output with `exec_read`.  A task is cut where it takes the lock of the process map and where it
calls `notify_waiters` or creates a `notified` future; each section under the lock is one step.  Sequence
numbers are counted without the end of `u64`.

`effect_of_step` says once what a step can do; the results about the events and about the reads follow from
it in the modules that import this one. -/

namespace OpenAgere.Exec

open Transition Retention

def retainedOutputBytesPerProcess : ℕ := 1024 * 1024

def processEventChannelCapacity : ℕ := 256

def usizeMax : ℕ := 2 ^ 64 - 1

/-! ### The process map -/

/-- `RunningProcess`, less its session and its wake channel; its event log and its `Notify` are handles to
what `Inner` holds. -/
structure RunningProcess where
  output : List ProcessOutputChunk
  retainedBytes : ℕ
  nextSeq : ℕ
  exitCode : Option ℤ
  openStreams : ℕ
  closed : Bool
deriving DecidableEq, Repr

inductive ProcessEntry where
  | starting
  | running (process : RunningProcess)
deriving DecidableEq, Repr

/-- What the tasks of one process share: its entry of the map, its event log, the number of
`notify_waiters` calls on its `Notify`, whether a notification sender is installed, what was sent through
it, and the number of cleanups that sleep. -/
structure Inner where
  processId : Str
  entry : Option ProcessEntry
  events : ExecProcessEventLog
  notifyWaitersCalls : ℕ
  notifications : Bool
  outgoing : List ExecProcessEvent
  cleanups : ℕ
deriving DecidableEq, Repr

namespace Inner

def process? (s : Inner) : Option RunningProcess :=
  match s.entry with
  | some (.running process) => some process
  | _ => none

/-- The entry as a section under the lock leaves it. -/
def withProcess (s : Inner) (process : RunningProcess) : Inner := { s with entry := some (.running process) }

def publish (s : Inner) (event : ExecProcessEvent) : Inner := { s with events := s.events.publish event }

def notifyWaiters (s : Inner) : Inner := { s with notifyWaitersCalls := s.notifyWaitersCalls + 1 }

/-- The notification goes out where a sender is installed. -/
def notify (s : Inner) (event : ExecProcessEvent) : Inner :=
  if s.notifications then { s with outgoing := s.outgoing ++ [event] } else s

end Inner

/-! ### Sections under the lock -/

/-- The budget of the retained output looks at its bytes only. -/
def exceedsRetained (_ retainedBytes : ℕ) : Bool := retainedOutputBytesPerProcess < retainedBytes

def chunkLen (chunk : ProcessOutputChunk) : ℕ := chunk.chunk.length

namespace RunningProcess

/-- The chunk takes the next sequence number and old chunks make room for it. -/
def pushOutput (process : RunningProcess) (stream : ExecOutputStream) (chunk : List UInt8) : RunningProcess :=
  let kept := evict exceedsRetained chunkLen (process.retainedBytes + chunk.length)
    (process.output ++ [⟨process.nextSeq, stream, chunk⟩])
  { process with nextSeq := process.nextSeq + 1, retainedBytes := kept.1, output := kept.2 }

def recordExit (process : RunningProcess) (exitCode : ℤ) : RunningProcess :=
  { process with nextSeq := process.nextSeq + 1, exitCode := some exitCode }

def finishStream (process : RunningProcess) : RunningProcess :=
  if process.openStreams > 0 then { process with openStreams := process.openStreams - 1 } else process

/-- `maybe_emit_closed` has nothing to do. -/
def staysOpen (process : RunningProcess) : Bool :=
  process.closed || process.openStreams != 0 || process.exitCode.isNone

def close (process : RunningProcess) : RunningProcess :=
  { process with closed := true, nextSeq := process.nextSeq + 1 }

end RunningProcess

/-! ### `exec_read` -/

structure ReadParams where
  afterSeq : Option ℕ
  maxBytes : Option ℕ
  waitMs : Option ℕ
deriving DecidableEq, Repr

structure ReadResponse where
  chunks : List ProcessOutputChunk
  nextSeq : ℕ
  exited : Bool
  exitCode : Option ℤ
  closed : Bool
  failure : Option Str
deriving DecidableEq, Repr

namespace ReadParams

def after (params : ReadParams) : ℕ := params.afterSeq.getD 0

def limit (params : ReadParams) : ℕ := params.maxBytes.getD usizeMax

end ReadParams

/-- The loop over the retained chunks, with the chunks taken, their size and the next sequence number. -/
def readLoop (maxBytes : ℕ) : List ProcessOutputChunk → List ProcessOutputChunk → ℕ → ℕ → List ProcessOutputChunk × ℕ
  | [], chunks, _, nextSeq => (chunks, nextSeq)
  | retained :: rest, chunks, totalBytes, nextSeq =>
      if !chunks.isEmpty && maxBytes < totalBytes + chunkLen retained then (chunks, nextSeq)
      else if maxBytes ≤ totalBytes + chunkLen retained then (chunks ++ [retained], retained.seq + 1)
      else readLoop maxBytes rest (chunks ++ [retained]) (totalBytes + chunkLen retained) (retained.seq + 1)

/-- The retained chunks the caller has not seen. -/
def unread (process : RunningProcess) (afterSeq : ℕ) : List ProcessOutputChunk :=
  process.output.filter fun chunk => afterSeq < chunk.seq

def readResponse (process : RunningProcess) (params : ReadParams) : ReadResponse :=
  let taken := readLoop params.limit (unread process params.after) [] 0 process.nextSeq
  ⟨taken.1, taken.2, process.exitCode.isSome, process.exitCode, process.closed, none⟩

def hasNewTerminalEvent (params : ReadParams) (response : ReadResponse) : Bool :=
  response.exited && params.after < response.nextSeq - 1

/-- There is something to return before the deadline. -/
def returnsAtOnce (params : ReadParams) (response : ReadResponse) : Bool :=
  !response.chunks.isEmpty || response.closed || hasNewTerminalEvent params response

/-- What `exec_read` reads under the lock. -/
def inspect (s : Inner) (params : ReadParams) : Except Str ReadResponse :=
  match s.entry with
  | none => .error ("unknown process id " ++ s.processId)
  | some .starting => .error ("process id " ++ s.processId ++ " is starting")
  | some (.running process) => .ok (readResponse process params)

/-! ### Tasks -/

/-- A call of `exec_read` that has returned: what it was called with, what was retained when it looked for
the last time, and its response. -/
structure Page where
  params : ReadParams
  retained : List ProcessOutputChunk
  response : ReadResponse
deriving DecidableEq, Repr

/-- Where a call of `exec_read` is. -/
inductive ReadPc where
  -- between two calls
  | idle
  -- about to take the lock
  | inspect (params : ReadParams)
  -- past the lock, with nothing to return
  | register (params : ReadParams) (retained : List ProcessOutputChunk) (response : ReadResponse)
  -- in `notified`, with the number of `notify_waiters` calls when the future was created
  | waiting (params : ReadParams) (notified : ℕ)
  | failed (error : Str)
deriving DecidableEq, Repr

/-- A client that pages: each call continues where the response before it ended.  `start` is what it passed
in its first call. -/
structure Client where
  start : Option ℕ
  afterSeq : Option ℕ
  pages : List Page
  pc : ReadPc
deriving DecidableEq, Repr

def Client.returned (client : Client) (page : Page) : Client :=
  { client with afterSeq := some (page.response.nextSeq - 1), pages := client.pages ++ [page], pc := .idle }

inductive Task where
  -- `stream_output`: in `recv`
  | receive (stream : ExecOutputStream)
  | append (stream : ExecOutputStream) (chunk : List UInt8)
  | wakeOutput (output : ProcessOutputChunk)
  | notifyOutput (output : ProcessOutputChunk)
  | finish
  -- `watch_exit`: waiting for the exit code
  | awaitExit
  | recordExit (exitCode : ℤ)
  | wakeExit (notification : Option (ℕ × ℤ))
  | notifyExit (notification : Option (ℕ × ℤ))
  -- `maybe_emit_closed`
  | emitClosed
  | wakeClosed (seq : ℕ)
  | notifyClosed (seq : ℕ)
  | done
  | cleanup
  | shutdown
  | setNotificationSender (notifications : Bool)
  | client (client : Client)
deriving DecidableEq, Repr

/-- What the surroundings answer: the next chunk or the end of a stream, the exit code, the arguments of the
client's next call, and whether the deadline has passed. -/
inductive Answer where
  | go
  | chunk (chunk : Option (List UInt8))
  | exit (exitCode : Option ℤ)
  | call (maxBytes waitMs : Option ℕ)
  | clock (late : Bool)
deriving DecidableEq, Repr

def stepClient (s : Inner) (client : Client) : Answer → Option Client
  | .call maxBytes waitMs =>
      match client.pc with
      | .idle => some { client with pc := .inspect ⟨client.afterSeq, maxBytes, waitMs⟩ }
      | _ => none
  | .go =>
      match client.pc with
      | .inspect params =>
          match inspect s params with
          | .error error => some { client with pc := .failed error }
          | .ok response =>
              let retained := (s.process?.map RunningProcess.output).getD []
              if returnsAtOnce params response then some (client.returned ⟨params, retained, response⟩)
              else some { client with pc := .register params retained response }
      | _ => none
  | .clock late =>
      match client.pc with
      | .register params retained response =>
          if late || params.waitMs.getD 0 == 0 then some (client.returned ⟨params, retained, response⟩)
          else some { client with pc := .waiting params s.notifyWaitersCalls }
      | .waiting params notified =>
          if late || s.notifyWaitersCalls != notified then some { client with pc := .inspect params } else none
      | _ => none
  | _ => none

def step (s : Inner) : Task → Answer → Option (Inner × Task)
  | .receive stream, .chunk (some chunk) => some (s, .append stream chunk)
  | .receive _, .chunk none => some (s, .finish)
  | .append stream chunk, .go =>
      match s.process? with
      | none => some (s, .finish)
      | some process =>
          let output : ProcessOutputChunk := ⟨process.nextSeq, stream, chunk⟩
          some ((s.withProcess (process.pushOutput stream chunk)).publish (.output output), .wakeOutput output)
  | .wakeOutput output, .go => some (s.notifyWaiters, .notifyOutput output)
  | .notifyOutput output, .go => some (s.notify (.output output), .receive output.stream)
  | .finish, .go =>
      match s.process? with
      | none => some (s, .done)
      | some process => some (s.withProcess process.finishStream, .emitClosed)
  | .awaitExit, .exit exitCode => some (s, .recordExit (exitCode.getD (-1)))
  | .recordExit exitCode, .go =>
      match s.process? with
      | none => some (s, .wakeExit none)
      | some process =>
          some ((s.withProcess (process.recordExit exitCode)).publish (.exited process.nextSeq exitCode),
            .wakeExit (some (process.nextSeq, exitCode)))
  | .wakeExit notification, .go => some (s.notifyWaiters, .notifyExit notification)
  | .notifyExit none, .go => some (s, .emitClosed)
  | .notifyExit (some (seq, exitCode)), .go => some (s.notify (.exited seq exitCode), .emitClosed)
  | .emitClosed, .go =>
      match s.process? with
      | none => some (s, .done)
      | some process =>
          if process.staysOpen then some (s, .done)
          else some ((s.withProcess process.close).publish (.closed process.nextSeq), .wakeClosed process.nextSeq)
  | .wakeClosed seq, .go => some ({ s.notifyWaiters with cleanups := s.cleanups + 1 }, .notifyClosed seq)
  | .notifyClosed seq, .go => some (s.notify (.closed seq), .done)
  | .cleanup, .go =>
      if s.cleanups = 0 then none
      else
        match s.process? with
        | some process =>
            if process.closed then some ({ s with cleanups := s.cleanups - 1, entry := none }, .done)
            else some ({ s with cleanups := s.cleanups - 1 }, .done)
        | none => some ({ s with cleanups := s.cleanups - 1 }, .done)
  | .shutdown, .go => some ({ s with entry := none }, .done)
  | .setNotificationSender notifications, .go => some ({ s with notifications := notifications }, .done)
  | .client client, answer => (stepClient s client answer).map fun client => (s, .client client)
  | _, _ => none

/-- A call that starts a task beside the three that `start_process` spawns. -/
inductive Call where
  | cleanup
  | shutdown
  | setNotificationSender (notifications : Bool)
  | client (afterSeq : Option ℕ)
deriving DecidableEq, Repr

def start : Call → Task
  | .cleanup => .cleanup
  | .shutdown => .shutdown
  | .setNotificationSender notifications => .setNotificationSender notifications
  | .client afterSeq => .client ⟨afterSeq, afterSeq, [], .idle⟩

abbrev ProcessPool := Pool Inner Task

abbrev ProcessEvent := Pool.Event Call Answer

def next : ProcessPool → ProcessEvent → Option ProcessPool := Pool.next start step

/-- The pool when `start_process` returns. -/
def startProcess (processId : Str) (tty : Bool) : ProcessPool where
  shared :=
    { processId := processId
      entry := some (.running ⟨[], 0, 1, none, 2, false⟩)
      events := .new processEventChannelCapacity retainedOutputBytesPerProcess
      notifyWaitersCalls := 0
      notifications := true
      outgoing := []
      cleanups := 0 }
  tasks := [.receive (if tty then .pty else .stdout), .receive (if tty then .pty else .stderr), .awaitExit]

/-! ### What a step can do -/

/-- What a task has still to do for the process. -/
inductive Phase where
  -- a stream that is still open
  | streaming
  -- the exit is not recorded yet
  | exiting
  -- the check that emits `closed` is still to come
  | closing
  | shuttingDown
  | reading
  | other
deriving DecidableEq, Repr

/-- A task in the phase works on the process itself. -/
def Phase.works : Phase → Bool
  | reading | other => false
  | _ => true

namespace Task

def phase : Task → Phase
  | receive _ | append _ _ | wakeOutput _ | notifyOutput _ | finish => .streaming
  | awaitExit | recordExit _ => .exiting
  | wakeExit _ | notifyExit _ | emitClosed => .closing
  | shutdown => .shuttingDown
  | client _ => .reading
  | _ => .other

/-- The next step of the task is `notify_waiters`. -/
def waking : Task → Bool
  | wakeOutput _ | wakeExit _ | wakeClosed _ => true
  | _ => false

end Task

/-- What one step does to the shared state and to its task. -/
inductive Effect (s : Inner) : Task → Inner → Task → Prop where
  | quiet {task task' : Task} {s' : Inner} (entry : s'.entry = s.entry) (events : s'.events = s.events)
      (calls : s'.notifyWaitersCalls = s.notifyWaitersCalls) (phase : task'.phase = task.phase)
      (asleep : task.waking = false) (asleep' : task'.waking = false) : Effect s task s' task'
  | wake {task task' : Task} {s' : Inner} (entry : s'.entry = s.entry) (events : s'.events = s.events)
      (calls : s'.notifyWaitersCalls = s.notifyWaitersCalls + 1) (phase : task'.phase = task.phase)
      (awake : task.waking) (asleep : task'.waking = false) : Effect s task s' task'
  | push {process : RunningProcess} (stream : ExecOutputStream) (chunk : List UInt8)
      (running : s.process? = some process) : Effect s (.append stream chunk)
        ((s.withProcess (process.pushOutput stream chunk)).publish (.output ⟨process.nextSeq, stream, chunk⟩))
        (.wakeOutput ⟨process.nextSeq, stream, chunk⟩)
  | finish {process : RunningProcess} (running : s.process? = some process) :
      Effect s .finish (s.withProcess process.finishStream) .emitClosed
  | finishGone (gone : s.process? = none) : Effect s .finish s .done
  | exit {process : RunningProcess} (exitCode : ℤ) (running : s.process? = some process) :
      Effect s (.recordExit exitCode)
        ((s.withProcess (process.recordExit exitCode)).publish (.exited process.nextSeq exitCode))
        (.wakeExit (some (process.nextSeq, exitCode)))
  | exitGone (exitCode : ℤ) (gone : s.process? = none) : Effect s (.recordExit exitCode) s (.wakeExit none)
  | close {process : RunningProcess} (running : s.process? = some process) (closes : process.staysOpen = false) :
      Effect s .emitClosed ((s.withProcess process.close).publish (.closed process.nextSeq))
        (.wakeClosed process.nextSeq)
  | keep (stays : ∀ process, s.process? = some process → process.staysOpen) : Effect s .emitClosed s .done
  | remove {process : RunningProcess} (running : s.process? = some process) (closed : process.closed) :
      Effect s .cleanup { s with cleanups := s.cleanups - 1, entry := none } .done
  | shutdown : Effect s .shutdown { s with entry := none } .done

theorem effect_notify (s : Inner) (event : ExecProcessEvent) : (s.notify event).entry = s.entry ∧
    (s.notify event).events = s.events ∧ (s.notify event).notifyWaitersCalls = s.notifyWaitersCalls := by
  unfold Inner.notify
  split <;> exact ⟨rfl, rfl, rfl⟩

/-- **One step.** -/
theorem effect_of_step {s s' : Inner} {task task' : Task} {answer : Answer}
    (h : step s task answer = some (s', task')) : Effect s task s' task' := by
  revert h
  fun_cases step s task answer with
  | case1 | case2 | case3 | case9 | case13 | case22 | case23 | case25 =>
    rintro ⟨⟩
    exact .quiet rfl rfl rfl rfl rfl rfl
  | case4 stream chunk process hp =>
    rintro ⟨⟩
    exact .push stream chunk hp
  | case5 | case12 | case18 =>
    rintro ⟨⟩
    exact .wake rfl rfl rfl rfl rfl rfl
  | case6 output =>
    rintro ⟨⟩
    obtain ⟨hentry, hevents, hcalls⟩ := effect_notify s (.output output)
    exact .quiet hentry hevents hcalls rfl rfl rfl
  | case7 hp =>
    rintro ⟨⟩
    exact .finishGone hp
  | case8 process hp =>
    rintro ⟨⟩
    exact .finish hp
  | case10 exitCode hp =>
    rintro ⟨⟩
    exact .exitGone exitCode hp
  | case11 exitCode process hp =>
    rintro ⟨⟩
    exact .exit exitCode hp
  | case14 seq exitCode =>
    rintro ⟨⟩
    obtain ⟨hentry, hevents, hcalls⟩ := effect_notify s (.exited seq exitCode)
    exact .quiet hentry hevents hcalls rfl rfl rfl
  | case15 hp =>
    rintro ⟨⟩
    exact .keep fun process hprocess => nomatch hp.symm.trans hprocess
  | case16 process hp hs =>
    rintro ⟨⟩
    exact .keep fun other hother => Option.mem_unique hp hother ▸ hs
  | case17 process hp hs =>
    rintro ⟨⟩
    exact .close hp (Bool.eq_false_of_not_eq_true hs)
  | case19 seq =>
    rintro ⟨⟩
    obtain ⟨hentry, hevents, hcalls⟩ := effect_notify s (.closed seq)
    exact .quiet hentry hevents hcalls rfl rfl rfl
  | case20 | case27 => exact nofun
  | case21 _ process hp hc =>
    rintro ⟨⟩
    exact .remove hp hc
  | case24 =>
    rintro ⟨⟩
    exact .shutdown
  | case26 client =>
    intro h
    obtain ⟨client', _, h⟩ := Option.map_eq_some_iff.mp h
    cases h
    exact .quiet rfl rfl rfl rfl rfl rfl

end OpenAgere.Exec
