import OpenAgere.Broadcast
import OpenAgere.Retention
import OpenAgere.TruncateMiddle

/-! # Process events

The events of an executor process and the log that hands them out, `exec-server/src/process.rs`.  A
subscriber first drains the history the log has kept and then goes on with the live channel.

The history is the longest suffix of what was published that is within both capacities (`Sound.publish`).  A
subscriber gets the events from the beginning of that history on, one after the other, except where it is told
that it has fallen behind (`Attached`). -/

namespace OpenAgere.Exec

open List Option Retention

inductive ExecOutputStream where
  | stdout
  | stderr
  | pty
deriving DecidableEq, Repr

/-- A chunk of output and its sequence number.  Sequence numbers are `u64` in the source and grow by one
with each event. -/
structure ProcessOutputChunk where
  seq : ℕ
  stream : ExecOutputStream
  chunk : List UInt8
deriving DecidableEq, Repr

inductive ExecProcessEvent where
  | output (chunk : ProcessOutputChunk)
  | exited (seq : ℕ) (exitCode : ℤ)
  | closed (seq : ℕ)
  | failed (message : Str)
deriving DecidableEq, Repr

namespace ExecProcessEvent

/-- Only `failed` has no sequence number. -/
def seq : ExecProcessEvent → Option ℕ
  | output chunk => some chunk.seq
  | exited seq _ => some seq
  | closed seq => some seq
  | failed _ => none

def retainedLen : ExecProcessEvent → ℕ
  | output chunk => chunk.chunk.length
  | failed message => Truncation.len message
  | exited _ _ => 0
  | closed _ => 0

def isExited : ExecProcessEvent → Bool
  | exited _ _ => true
  | _ => false

def isClosed : ExecProcessEvent → Bool
  | closed _ => true
  | _ => false

/-- The chunk of an output event. -/
def chunk? : ExecProcessEvent → Option ProcessOutputChunk
  | output chunk => some chunk
  | _ => none

end ExecProcessEvent

structure ExecProcessEventHistory where
  events : List ExecProcessEvent
  retainedBytes : ℕ
deriving DecidableEq, Repr

structure ExecProcessEventLog where
  history : ExecProcessEventHistory
  liveTx : Broadcast ExecProcessEvent
  eventCapacity : ℕ
  byteCapacity : ℕ
deriving DecidableEq, Repr

/-- A subscriber: the history still to be replayed and the position on the live channel. -/
structure ExecProcessEventReceiver where
  replay : List ExecProcessEvent
  liveRx : ℕ
deriving DecidableEq, Repr

namespace ExecProcessEventLog

def new (eventCapacity byteCapacity : ℕ) : ExecProcessEventLog :=
  ⟨⟨[], 0⟩, Broadcast.channel eventCapacity, eventCapacity, byteCapacity⟩

/-- The test of the loop that evicts. -/
def exceeds (eventCapacity byteCapacity events retainedBytes : ℕ) : Bool :=
  eventCapacity < events || byteCapacity < retainedBytes

def publish (log : ExecProcessEventLog) (event : ExecProcessEvent) : ExecProcessEventLog :=
  let kept := evict (exceeds log.eventCapacity log.byteCapacity) ExecProcessEvent.retainedLen
    (log.history.retainedBytes + event.retainedLen) (log.history.events ++ [event])
  { log with history := ⟨kept.2, kept.1⟩, liveTx := log.liveTx.send event }

def subscribe (log : ExecProcessEventLog) : ExecProcessEventReceiver := ⟨log.history.events, log.liveTx.subscribe⟩

/-- Every event published so far, in order. -/
def published (log : ExecProcessEventLog) : List ExecProcessEvent := log.liveTx.sent

/-- The log has kept what its capacities allow. -/
def Sound (log : ExecProcessEventLog) : Prop :=
  Kept (exceeds log.eventCapacity log.byteCapacity) ExecProcessEvent.retainedLen log.published log.history.events
    log.history.retainedBytes

variable {log : ExecProcessEventLog} {event : ExecProcessEvent}

theorem budget (eventCapacity byteCapacity : ℕ) : Budget (exceeds eventCapacity byteCapacity) where
  empty := by simp [exceeds]
  mono n b m c hn hb h := by
    simp only [exceeds, Bool.or_eq_false_iff, decide_eq_false_iff_not, not_lt] at h ⊢
    exact ⟨hn.trans h.1, hb.trans h.2⟩

@[simp] theorem published_new (eventCapacity byteCapacity : ℕ) : (new eventCapacity byteCapacity).published = [] := rfl

@[simp] theorem published_publish : (log.publish event).published = log.published ++ [event] := rfl

theorem sound_new (eventCapacity byteCapacity : ℕ) : (new eventCapacity byteCapacity).Sound :=
  Kept.nil (budget _ _)

/-- **The history kept.** -/
theorem Sound.publish (h : log.Sound) (event : ExecProcessEvent) : (log.publish event).Sound :=
  Kept.push (budget _ _) h event

end ExecProcessEventLog

namespace ExecProcessEventReceiver

def recv (rx : ExecProcessEventReceiver) (log : ExecProcessEventLog) :
    Option (Broadcast.Received ExecProcessEvent × ExecProcessEventReceiver) :=
  match rx.replay with
  | event :: replay => some (.value event, { rx with replay := replay })
  | [] => (log.liveTx.recv rx.liveRx).map fun received => (received.1, { rx with liveRx := received.2 })

/-- The number of events published before the next one the subscriber gets. -/
def position (rx : ExecProcessEventReceiver) : ℕ := rx.liveRx - rx.replay.length

/-- What is still to be replayed are the last events before the position on the live channel. -/
structure Attached (rx : ExecProcessEventReceiver) (published : List ExecProcessEvent) : Prop where
  bounded : rx.liveRx ≤ published.length
  replayed : rx.replay.length ≤ rx.liveRx
  replay : rx.replay = (published.take rx.liveRx).drop rx.position

variable {log : ExecProcessEventLog} {rx rx' : ExecProcessEventReceiver} {published : List ExecProcessEvent}
  {event : ExecProcessEvent}

theorem Attached.concat (h : rx.Attached published) (event : ExecProcessEvent) : rx.Attached (published ++ [event]) where
  bounded := h.bounded.trans (by rw [length_append]; exact Nat.le_add_right _ _)
  replayed := h.replayed
  replay := by
    rw [take_append_of_le_length h.bounded]
    exact h.replay

theorem attached_subscribe (h : log.Sound) : log.subscribe.Attached log.published where
  bounded := Nat.le_refl _
  replayed := h.longest.suffix.length_le
  replay := by
    obtain ⟨old, hold⟩ := h.longest.suffix
    have hlength : log.subscribe.position = old.length := by
      show log.published.length - log.history.events.length = old.length
      rw [← hold, length_append, Nat.add_sub_cancel]
    show log.history.events = (log.published.take log.published.length).drop log.subscribe.position
    rw [take_length, hlength, ← hold, drop_left]

theorem attached_of_replay_eq_nil (h : rx.replay = []) (hb : rx.liveRx ≤ published.length) : rx.Attached published where
  bounded := hb
  replayed := by
    rw [h]
    exact Nat.zero_le _
  replay := by
    rw [position, h, length_nil, Nat.sub_zero, drop_eq_nil_of_le (length_take_le _ _)]

/-- **The next event** is the one at the subscriber's position. -/
theorem Attached.recv_value (h : rx.Attached log.published) (hr : rx.recv log = some (.value event, rx')) :
    log.published[rx.position]? = some event ∧ rx'.position = rx.position + 1 ∧ rx'.Attached log.published := by
  obtain ⟨hbounded, hreplayed, hreplay⟩ := h
  unfold recv at hr
  split at hr
  · next event replay heq =>
      obtain ⟨hevent, rfl⟩ := Prod.mk.inj (some.inj hr)
      obtain rfl := Broadcast.Received.value.inj hevent
      rw [heq] at hreplay
      rw [heq, List.length_cons] at hreplayed
      have hposition : rx.position + 1 = rx.liveRx - replay.length := by
        unfold position
        rw [heq, List.length_cons]
        omega
      have hlt : rx.position < rx.liveRx := by omega
      have hhead : (log.published.take rx.liveRx)[rx.position]? = some event := by
        rw [← List.head?_drop, ← hreplay]
        rfl
      refine ⟨(List.getElem?_take_of_lt hlt).symm.trans hhead, hposition.symm, hbounded, ?_, ?_⟩
      · show replay.length ≤ rx.liveRx
        omega
      · show replay = (log.published.take rx.liveRx).drop (rx.liveRx - replay.length)
        rw [← hposition, ← List.tail_drop, ← hreplay]
        rfl
  · next heq =>
      obtain ⟨⟨received, position'⟩, hlive, hr⟩ := Option.map_eq_some_iff.mp hr
      obtain ⟨rfl, rfl⟩ := Prod.mk.inj hr
      obtain ⟨hevent, rfl⟩ := Broadcast.recv_value hlive
      have hposition : rx.position = rx.liveRx := by
        rw [position, heq]
        rfl
      refine ⟨hposition ▸ hevent, ?_, attached_of_replay_eq_nil heq ?_⟩
      · rw [hposition, position, heq]
        rfl
      · exact (List.getElem?_eq_some_iff.mp hevent).1

theorem attached_of_recv_lagged {skipped : ℕ} (hr : rx.recv log = some (.lagged skipped, rx')) :
    rx'.Attached log.published := by
  unfold recv at hr
  split at hr
  · exact nomatch (Prod.mk.inj (some.inj hr)).1
  · next heq =>
      obtain ⟨⟨received, position'⟩, hlive, hr⟩ := map_eq_some_iff.mp hr
      obtain ⟨rfl, rfl⟩ := Prod.mk.inj hr
      obtain ⟨_, rfl⟩ := Broadcast.recv_lagged hlive
      exact attached_of_replay_eq_nil heq Broadcast.oldest_le

end ExecProcessEventReceiver

end OpenAgere.Exec
