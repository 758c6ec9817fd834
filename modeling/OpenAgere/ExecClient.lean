import OpenAgere.ProcessLifecycle
import OpenAgere.Readiness
import OpenAgere.Reorder

/-! # The executor client

Process sessions of `exec-server/src/client.rs`.  The reader task of a client hands the notifications of all
processes on the connection to the sessions registered for them.  A session publishes the events of its
process in the order of their sequence numbers, whatever the order in which they arrive, and its route is
removed when `closed` has been published (`delivered_of_notifications`).  Sequence numbers are counted without
the end of `u64`. -/

namespace OpenAgere.ExecClient

open List Exec Readiness

inductive ExecServerError where
  | closed
  | disconnected (message : Str)
  | json (message : Str)
  | protocol (message : Str)
  | server (code : ℤ) (message : Str)
deriving DecidableEq, Repr

namespace ExecServerError

def display : ExecServerError → Str
  | closed => "exec-server transport closed"
  | disconnected message => message
  | json message => "failed to serialize or deserialize exec-server JSON: " ++ message
  | protocol message => "exec-server protocol error: " ++ message
  | server code message =>
      "exec-server rejected request (" ++ (toString code).toList ++ "): " ++ message

end ExecServerError

/-! ### The state of a session -/

structure OrderedSessionEvents where
  lastPublishedSeq : ℕ
  pending : HashMap ℕ ExecProcessEvent

structure SessionState where
  wakeTx : Watch ℕ
  events : ExecProcessEventLog
  orderedEvents : OrderedSessionEvents
  failure : Option Str

def processEventRetainedBytes : ℕ := 1024 * 1024

/-- `u64::saturating_add(1)`. -/
def saturatingSucc (n : ℕ) : ℕ := min (n + 1) (2 ^ 64 - 1)

/-- The section of `publish_ordered_event` under the lock: the events that are ready to be published. -/
def OrderedSessionEvents.accept (ordered : OrderedSessionEvents) (seq : ℕ) (event : ExecProcessEvent) :
    List ExecProcessEvent × OrderedSessionEvents :=
  if seq ≤ ordered.lastPublishedSeq then ([], ordered)
  else
    let pending := if ordered.pending.containsKey seq then ordered.pending else ordered.pending.insert seq event
    let taken := Reorder.takeReady pending.entries.length ordered.lastPublishedSeq pending
    (taken.1, ⟨taken.2.1, taken.2.2⟩)

namespace SessionState

def new : SessionState where
  wakeTx := Watch.channel 0
  events := .new processEventChannelCapacity processEventRetainedBytes
  orderedEvents := ⟨0, HashMap.empty⟩
  failure := none

def noteChange (state : SessionState) (seq : ℕ) : SessionState :=
  { state with wakeTx := state.wakeTx.send (max state.wakeTx.value seq) }

def publish (state : SessionState) (event : ExecProcessEvent) : SessionState :=
  { state with events := state.events.publish event }

/-- The loop that publishes the events that are ready, with the flag `published_closed`. -/
def publishReady : List ExecProcessEvent → Bool → SessionState → Bool × SessionState
  | [], publishedClosed, state => (publishedClosed, state)
  | event :: ready, publishedClosed, state =>
      publishReady ready (publishedClosed || event.isClosed) (state.publish event)

def publishOrderedEvent (state : SessionState) (event : ExecProcessEvent) : Bool × SessionState :=
  match event.seq with
  | none => (false, state.publish event)
  | some seq =>
      let accepted := state.orderedEvents.accept seq event
      publishReady accepted.1 false { state with orderedEvents := accepted.2 }

/-- The section of `set_failure` under the lock, and whether the failure is to be published. -/
def recordFailure (state : SessionState) (message : Str) : Bool × SessionState :=
  match state.failure with
  | some _ => (false, state)
  | none => (true, { state with failure := some message })

/-- What `set_failure` does after it has released the lock. -/
def announceFailure (state : SessionState) (shouldPublish : Bool) (message : Str) : SessionState :=
  let woken := { state with wakeTx := state.wakeTx.send (saturatingSucc state.wakeTx.value) }
  if shouldPublish then (woken.publishOrderedEvent (.failed message)).2 else woken

def setFailure (state : SessionState) (message : Str) : SessionState :=
  let recorded := state.recordFailure message
  recorded.2.announceFailure recorded.1 message

theorem publishReady_spec : ∀ (ready : List ExecProcessEvent) (publishedClosed : Bool) (state : SessionState),
    (publishReady ready publishedClosed state).1 = (publishedClosed || ready.any ExecProcessEvent.isClosed) ∧
      (publishReady ready publishedClosed state).2.orderedEvents = state.orderedEvents ∧
      (publishReady ready publishedClosed state).2.events.published = state.events.published ++ ready
  | [], publishedClosed, state => by simp [publishReady]
  | event :: ready, publishedClosed, state => by
    obtain ⟨hclosed, hordered, hpublished⟩ :=
      publishReady_spec ready (publishedClosed || event.isClosed) (state.publish event)
    refine ⟨hclosed.trans ?_, hordered, hpublished.trans ?_⟩
    · rw [any_cons, Bool.or_assoc]
    · rw [publish, ExecProcessEventLog.published_publish, append_assoc, singleton_append]

end SessionState

/-! ### The client -/

/-- What the tasks of a client share.  Session states are behind an `Arc`: the table of sessions holds the
place of a state in `states`, and a state outlives its route. -/
structure Inner where
  sessions : HashMap Str ℕ
  states : List SessionState
  disconnected : Option Str

namespace Inner

def new : Inner := ⟨HashMap.empty, [], none⟩

def disconnectedError (inner : Inner) : Option ExecServerError := inner.disconnected.map .disconnected

def insertSession (inner : Inner) (processId : Str) (session : ℕ) : Except ExecServerError Inner :=
  match inner.disconnectedError with
  | some error => .error error
  | none =>
      if inner.sessions.containsKey processId then
        .error (.protocol ("session already registered for process " ++ processId))
      else .ok { inner with sessions := inner.sessions.insert processId session }

/-- `register_session` allocates a state and returns its place. -/
def registerSession (inner : Inner) (processId : Str) : Except ExecServerError (Inner × ℕ) :=
  match { inner with states := inner.states ++ [SessionState.new] }.insertSession processId inner.states.length with
  | .error error => .error error
  | .ok registered => .ok (registered, inner.states.length)

def removeSession (inner : Inner) (processId : Str) : Inner :=
  { inner with sessions := inner.sessions.remove processId }

/-- The states that were registered, in some order, and the client without them. -/
def takeAllSessions (inner : Inner) : List ℕ × Inner :=
  (inner.sessions.entries.map Prod.snd, { inner with sessions := inner.sessions.clear })

/-- The first observer records the reason. -/
def recordDisconnected (inner : Inner) (message : Str) : Str × Inner :=
  match inner.disconnected with
  | some recorded => (recorded, inner)
  | none => (message, { inner with disconnected := some message })

def setState (inner : Inner) (session : ℕ) (state : SessionState) : Inner :=
  { inner with states := inner.states.set session state }

def setFailure (inner : Inner) (message : Str) (session : ℕ) : Inner :=
  match inner.states[session]? with
  | none => inner
  | some state => inner.setState session (state.setFailure message)

def failAllSessions (inner : Inner) (message : Str) : Inner :=
  let taken := inner.takeAllSessions
  taken.1.foldl (fun inner session => inner.setFailure message session) taken.2

end Inner

def disconnectedMessage : Option Str → Str
  | some reason => "exec-server transport disconnected: " ++ reason
  | none => "exec-server transport disconnected"

/-! ### Notifications -/

structure ExecOutputDeltaNotification where
  processId : Str
  seq : ℕ
  stream : ExecOutputStream
  chunk : List UInt8

structure ExecExitedNotification where
  processId : Str
  seq : ℕ
  exitCode : ℤ

structure ExecClosedNotification where
  processId : Str
  seq : ℕ

/-- A notification by its method, with what `serde_json` makes of its parameters. -/
inductive ServerNotification where
  | execOutputDelta (params : Except Str ExecOutputDeltaNotification)
  | execExited (params : Except Str ExecExitedNotification)
  | execClosed (params : Except Str ExecClosedNotification)
  /-- a part of a response body, with what its handler returns -/
  | httpRequestBodyDelta (handled : Except ExecServerError Unit)
  | other (method : Str)

/-- The session registered for the process notes the change and publishes the event, and is removed if that
published `closed`. -/
def Inner.route (inner : Inner) (processId : Str) (seq : ℕ) (event : ExecProcessEvent) : Inner :=
  match inner.sessions.get processId with
  | none => inner
  | some session =>
      match inner.states[session]? with
      | none => inner
      | some state =>
          let published := (state.noteChange seq).publishOrderedEvent event
          let inner := inner.setState session published.2
          if published.1 then inner.removeSession processId else inner

def handleServerNotification (inner : Inner) : ServerNotification → Except ExecServerError Inner
  | .execOutputDelta (.error message) => .error (.json message)
  | .execOutputDelta (.ok params) =>
      .ok (inner.route params.processId params.seq (.output ⟨params.seq, params.stream, params.chunk⟩))
  | .execExited (.error message) => .error (.json message)
  | .execExited (.ok params) => .ok (inner.route params.processId params.seq (.exited params.seq params.exitCode))
  | .execClosed (.error message) => .error (.json message)
  | .execClosed (.ok params) => .ok (inner.route params.processId params.seq (.closed params.seq))
  | .httpRequestBodyDelta (.error error) => .error error
  | .httpRequestBodyDelta (.ok ()) => .ok inner
  | .other _ => .ok inner

inductive RpcClientEvent where
  | notification (notification : ServerNotification)
  | disconnected (reason : Option Str)

/-- The loop of the reader task. -/
def readerTask : Inner → List RpcClientEvent → Inner
  | inner, [] => inner
  | inner, .notification notification :: eventsRx =>
      match handleServerNotification inner notification with
      | .ok inner => readerTask inner eventsRx
      | .error error =>
          let message := "exec-server notification handling failed: " ++ error.display
          let recorded := inner.recordDisconnected message
          recorded.2.failAllSessions recorded.1
  | inner, .disconnected reason :: _ =>
      let recorded := inner.recordDisconnected (disconnectedMessage reason)
      recorded.2.failAllSessions recorded.1

namespace ServerNotification

/-- The process a notification is about, the number and the event it brings. -/
def announced : ServerNotification → Option (Str × ℕ × ExecProcessEvent)
  | .execOutputDelta (.ok params) =>
      some (params.processId, params.seq, .output ⟨params.seq, params.stream, params.chunk⟩)
  | .execExited (.ok params) => some (params.processId, params.seq, .exited params.seq params.exitCode)
  | .execClosed (.ok params) => some (params.processId, params.seq, .closed params.seq)
  | _ => none

/-- The event a notification brings for a process. -/
def eventOf (processId : Str) (notification : ServerNotification) : Option ExecProcessEvent :=
  match notification.announced with
  | none => none
  | some (owner, _, event) => if owner = processId then some event else none

/-- The notification is handled without an error. -/
def isHandled : ServerNotification → Bool
  | .execOutputDelta params => params.isOk
  | .execExited params => params.isOk
  | .execClosed params => params.isOk
  | .httpRequestBodyDelta handled => handled.isOk
  | .other _ => true

variable {notification : ServerNotification}

variable {processId : Str} {seq : ℕ} {event : ExecProcessEvent}

theorem seq_of_announced (h : notification.announced = some (processId, seq, event)) : event.seq = some seq := by
  unfold announced at h
  split at h
  all_goals cases h
  all_goals rfl

theorem eventOf_other (h : ∀ seq event, notification.announced ≠ some (processId, seq, event)) :
    notification.eventOf processId = none := by
  rw [eventOf]
  cases hannounced : notification.announced with
  | none => rfl
  | some announced =>
    obtain ⟨other, seq, event⟩ := announced
    refine if_neg fun hother => h seq event ?_
    rw [hannounced, hother]

theorem handleServerNotification_eq (inner : Inner) (h : notification.isHandled) :
    handleServerNotification inner notification =
      .ok (match notification.announced with
        | none => inner
        | some (processId, seq, event) => inner.route processId seq event) := by
  match notification, h with
  | .execOutputDelta (.ok _), _ => rfl
  | .execExited (.ok _), _ => rfl
  | .execClosed (.ok _), _ => rfl
  | .httpRequestBodyDelta (.ok ()), _ => rfl
  | .other _, _ => rfl

end ServerNotification

/-! ### The order of events -/

/-- The events of a process that runs to its end: numbered, with `closed` as the last one and no other. -/
structure Complete (events : List ExecProcessEvent) : Prop where
  nonempty : events ≠ []
  numbered : Numbered events
  closed : ∀ i event, events[i]? = some event → (event.isClosed ↔ i + 1 = events.length)

/-- The event with a number. -/
def numberedEvent (events : List ExecProcessEvent) (seq : ℕ) : ExecProcessEvent :=
  events.getD (seq - 1) (.closed 0)

/-- The events of a process among those that notifications announce. -/
def arrivals (processId : Str) (notifications : List ServerNotification) : List ExecProcessEvent :=
  notifications.filterMap (ServerNotification.eventOf processId)

/-- An event with the number has arrived. -/
def Arrived (processId : Str) (notifications : List ServerNotification) (seq : ℕ) : Prop :=
  ∃ event ∈ arrivals processId notifications, event.seq = some seq

section Events

variable {events : List ExecProcessEvent} {event : ExecProcessEvent} {seq : ℕ}

section

variable (h : Numbered events) (he : event ∈ events) (hs : event.seq = some seq)
include h he hs

theorem getElem?_of_numbered :
    0 < seq ∧ events[seq - 1]? = some event := by
  obtain ⟨i, hi⟩ := mem_iff_getElem?.mp he
  obtain rfl : i + 1 = seq := Option.some.inj ((h.seq_eq hi).symm.trans hs)
  exact ⟨Nat.succ_pos i, hi⟩

theorem numberedEvent_eq :
    numberedEvent events seq = event := by
  rw [numberedEvent, getD_eq_getElem?_getD, (getElem?_of_numbered h he hs).2]
  rfl

theorem seq_le_length :
    0 < seq ∧ seq ≤ events.length := by
  obtain ⟨hpos, hget⟩ := getElem?_of_numbered h he hs
  have := (List.getElem?_eq_some_iff.mp hget).1
  omega

end

theorem map_numberedEvent {last count : ℕ} (h : last + count ≤ events.length) :
    (range' (last + 1) count).map (numberedEvent events) = (events.drop last).take count := by
  apply ext_getElem?
  intro i
  rw [getElem?_map, getElem?_take, getElem?_drop]
  split_ifs with hi
  · have hlt : last + i < events.length := by omega
    rw [getElem?_range' hi, Option.map_some, numberedEvent, show last + 1 + 1 * i - 1 = last + i by omega,
      getD_eq_getElem?_getD, getElem?_eq_getElem hlt]
    rfl
  · rw [getElem?_eq_none (by rw [length_range']; omega), Option.map_none]

/-- `closed` is among the events from one number to another exactly if the last event is. -/
theorem any_isClosed_iff (h : Complete events) {last count : ℕ} (hle : last + count ≤ events.length) :
    ((events.drop last).take count).any ExecProcessEvent.isClosed ↔
      last < events.length ∧ last + count = events.length := by
  rw [any_eq_true]
  constructor
  · rintro ⟨event, hmem, hclosed⟩
    obtain ⟨i, hi⟩ := mem_iff_getElem?.mp hmem
    rw [getElem?_take, getElem?_drop] at hi
    split_ifs at hi
    have := (h.closed _ event hi).mp hclosed
    omega
  · rintro ⟨hlt, hall⟩
    have hlast := getElem?_eq_getElem (l := events) (i := events.length - 1) (by omega)
    refine ⟨_, mem_iff_getElem?.mpr ⟨count - 1, ?_⟩, (h.closed _ _ hlast).mpr (by omega)⟩
    rw [getElem?_take, if_pos (by omega), getElem?_drop, ← hlast]
    congr 1
    omega

end Events

/-! ### Routing events to a session -/

/-- A session has published the events up to the first one that is missing. -/
structure SessionState.Publishes (state : SessionState) (events : List ExecProcessEvent) (arrived : ℕ → Prop) :
    Prop where
  buffered : Reorder.Buffered (numberedEvent events) arrived state.orderedEvents.lastPublishedSeq
    state.orderedEvents.pending
  published : state.events.published = events.take state.orderedEvents.lastPublishedSeq
  within : ∀ seq, arrived seq → 0 < seq ∧ seq ≤ events.length

section Sessions

variable {events : List ExecProcessEvent} {event : ExecProcessEvent} {seq : ℕ} {arrived : ℕ → Prop}
  {state : SessionState}

theorem SessionState.Publishes.last_le (h : state.Publishes events arrived) :
    state.orderedEvents.lastPublishedSeq ≤ events.length := h.buffered.last_le fun n hn => (h.within n hn).2

theorem OrderedSessionEvents.accept_spec {ordered : OrderedSessionEvents}
    (h : Reorder.Buffered (numberedEvent events) arrived ordered.lastPublishedSeq ordered.pending) (hpos : 0 < seq)
    (hvalue : numberedEvent events seq = event) :
    ∃ count pending', ordered.accept seq event =
        ((range' (ordered.lastPublishedSeq + 1) count).map (numberedEvent events),
          ⟨ordered.lastPublishedSeq + count, pending'⟩) ∧
      Reorder.Buffered (numberedEvent events) (fun n => n = seq ∨ arrived n) (ordered.lastPublishedSeq + count)
        pending' := by
  by_cases hstale : seq ≤ ordered.lastPublishedSeq
  · exact ⟨0, ordered.pending, if_pos hstale, h.stale hpos hstale⟩
  · obtain ⟨count, pending', htaken, hbuffered⟩ := h.arrive (Nat.not_le.mp hstale)
    refine ⟨count, pending', ?_, hbuffered⟩
    rw [hvalue] at htaken
    rw [OrderedSessionEvents.accept, if_neg hstale]
    simp only [htaken]

theorem SessionState.publishOrderedEvent_of_seq (state : SessionState) (hs : event.seq = some seq) :
    state.publishOrderedEvent event = publishReady (state.orderedEvents.accept seq event).1 false
      { state with orderedEvents := (state.orderedEvents.accept seq event).2 } := by
  rw [publishOrderedEvent, hs]

/-- The wake-up number has no part in the order of events. -/
theorem SessionState.publishOrderedEvent_noteChange (n : ℕ) (hs : event.seq = some seq) :
    ((state.noteChange n).publishOrderedEvent event).1 = (state.publishOrderedEvent event).1 := by
  rw [publishOrderedEvent_of_seq _ hs, publishOrderedEvent_of_seq _ hs, (publishReady_spec ..).1,
    (publishReady_spec ..).1]
  rfl

/-- **One event.**  The events are published up to the first one that is missing then, and the result says
whether this published the last one. -/
theorem SessionState.Publishes.publishOrderedEvent (h : state.Publishes events arrived) (hc : Complete events)
    (he : event ∈ events) (hs : event.seq = some seq) :
    (state.publishOrderedEvent event).2.Publishes events (fun n => n = seq ∨ arrived n) ∧
      ((state.publishOrderedEvent event).1 ↔ state.orderedEvents.lastPublishedSeq < events.length ∧
        (state.publishOrderedEvent event).2.orderedEvents.lastPublishedSeq = events.length) := by
  obtain ⟨hpos, hle⟩ := seq_le_length hc.numbered he hs
  have hwithin : ∀ n, (n = seq ∨ arrived n) → 0 < n ∧ n ≤ events.length := by
    rintro n (rfl | hn)
    · exact ⟨hpos, hle⟩
    · exact h.within n hn
  obtain ⟨count, pending', haccept, hbuffered⟩ :=
    OrderedSessionEvents.accept_spec h.buffered hpos (numberedEvent_eq hc.numbered he hs)
  have hcount := hbuffered.last_le fun n hn => (hwithin n hn).2
  rw [map_numberedEvent hcount] at haccept
  rw [state.publishOrderedEvent_of_seq hs, haccept]
  obtain ⟨hclosed, hordered, hpublished⟩ := publishReady_spec (take count (drop _ events)) false
    { state with orderedEvents := ⟨_, pending'⟩ }
  refine ⟨⟨?_, ?_, hwithin⟩, ?_⟩
  · rw [hordered]
    exact hbuffered
  · rw [hordered, hpublished, h.published]
    exact take_add.symm
  · rw [hclosed, Bool.false_or, hordered]
    exact any_isClosed_iff hc hcount

/-- What the client knows of a session. -/
structure Inner.Routes (inner : Inner) (processId : Str) (session : ℕ) (events : List ExecProcessEvent)
    (arrived : ℕ → Prop) (state : SessionState) : Prop where
  found : inner.states[session]? = some state
  publishes : state.Publishes events arrived
  /-- the session is registered until the last event is published -/
  registered : inner.sessions.get processId =
    if state.orderedEvents.lastPublishedSeq < events.length then some session else none
  /-- no other process has this session -/
  owned : ∀ other, inner.sessions.get other = some session → other = processId

variable {inner : Inner} {processId : Str} {session : ℕ}

theorem Inner.Routes.route_other (h : inner.Routes processId session events arrived state) {other : Str}
    (hne : other ≠ processId) : (inner.route other seq event).Routes processId session events arrived state := by
  unfold Inner.route
  cases hget : inner.sessions.get other with
  | none => exact h
  | some index =>
    have hindex : index ≠ session := by
      rintro rfl
      exact hne (h.owned other hget)
    simp only
    cases hstate : inner.states[index]? with
    | none => exact h
    | some otherState =>
      have hset : (inner.setState index ((otherState.noteChange seq).publishOrderedEvent event).2).Routes
          processId session events arrived state :=
        ⟨(getElem?_set_ne hindex).trans h.found, h.publishes, h.registered, h.owned⟩
      simp only
      split_ifs
      · refine ⟨hset.found, hset.publishes, ?_, fun p hp => ?_⟩
        · exact (HashMap.get_remove (Ne.symm hne)).trans hset.registered
        · exact hset.owned p (HashMap.get_remove_eq_some.mp hp).2
      · exact hset

theorem Inner.Routes.route (h : inner.Routes processId session events arrived state) (hc : Complete events)
    (he : event ∈ events) (hs : event.seq = some seq) :
    ∃ state', (inner.route processId seq event).Routes processId session events (fun n => n = seq ∨ arrived n)
        state' ∧
      ((state.publishOrderedEvent event).1 ↔ state.orderedEvents.lastPublishedSeq < events.length ∧
        state'.orderedEvents.lastPublishedSeq = events.length) := by
  have hnoted : (state.noteChange seq).Publishes events arrived :=
    ⟨h.publishes.buffered, h.publishes.published, h.publishes.within⟩
  obtain ⟨hpublishes, hclosed⟩ := hnoted.publishOrderedEvent hc he hs
  rw [SessionState.publishOrderedEvent_noteChange seq hs] at hclosed
  rw [Inner.route, h.registered]
  by_cases hlt : state.orderedEvents.lastPublishedSeq < events.length
  · rw [if_pos hlt]
    simp only [h.found, SessionState.publishOrderedEvent_noteChange seq hs]
    have hset : (inner.states.set session ((state.noteChange seq).publishOrderedEvent event).2)[session]? =
        some ((state.noteChange seq).publishOrderedEvent event).2 :=
      List.getElem?_set_self (List.getElem?_eq_some_iff.mp h.found).1
    refine ⟨_, ?_, hclosed⟩
    split_ifs with hflag
    · refine ⟨hset, hpublishes, ?_, fun other hother => ?_⟩
      · rw [if_neg (hclosed.mp hflag).2.not_lt]
        exact HashMap.get_remove_self _ processId
      · exact h.owned other (HashMap.get_remove_eq_some.mp hother).2
    · refine ⟨hset, hpublishes, ?_, h.owned⟩
      rw [if_pos (hpublishes.last_le.lt_of_ne fun hend => hflag (hclosed.mpr ⟨hlt, hend⟩))]
      exact h.registered.trans (if_pos hlt)
  · -- everything has been published, and the event is an old one
    rw [if_neg hlt]
    obtain ⟨hpos, hle⟩ := seq_le_length hc.numbered he hs
    have hend : state.orderedEvents.lastPublishedSeq = events.length := by
      have := h.publishes.last_le
      omega
    have hstale := h.publishes.buffered.stale hpos (hle.trans hend.ge)
    refine ⟨state, ⟨h.found, ⟨hstale, h.publishes.published, ?_⟩, h.registered, h.owned⟩, ?_⟩
    · rintro n (rfl | hn)
      · exact ⟨hpos, hle⟩
      · exact h.publishes.within n hn
    · exact ⟨fun hflag => absurd (hclosed.mp hflag).1 hlt, fun hboth => absurd hboth.1 hlt⟩

end Sessions

/-! ### Any order of notifications -/

/-- Every registered session has a state. -/
def Inner.Allocated (inner : Inner) : Prop :=
  ∀ processId session, inner.sessions.get processId = some session → session < inner.states.length

/-- The client after notifications. -/
def Inner.deliver (inner : Inner) (notifications : List ServerNotification) : Inner :=
  readerTask inner (notifications.map .notification)

section Deliveries

variable {inner registered : Inner} {processId : Str} {session : ℕ} {events : List ExecProcessEvent}

theorem readerTask_append : ∀ {earlier : List ServerNotification} (inner : Inner) (eventsRx : List RpcClientEvent),
    (∀ notification ∈ earlier, notification.isHandled) →
    readerTask inner (earlier.map .notification ++ eventsRx) = readerTask (inner.deliver earlier) eventsRx
  | [], _, _, _ => rfl
  | notification :: earlier, inner, eventsRx, h => by
    have hhandled := notification.handleServerNotification_eq inner (h _ mem_cons_self)
    rw [Inner.deliver, map_cons, cons_append, readerTask, readerTask, hhandled]
    exact readerTask_append _ eventsRx fun other hother => h other (mem_cons_of_mem _ hother)

variable {earlier : List ServerNotification} {notification : ServerNotification}

theorem Inner.deliver_concat (h : ∀ other ∈ earlier ++ [notification], other.isHandled) :
    inner.deliver (earlier ++ [notification]) =
      match notification.announced with
      | none => inner.deliver earlier
      | some (processId, seq, event) => (inner.deliver earlier).route processId seq event := by
  have hhandled := notification.handleServerNotification_eq (inner.deliver earlier)
    (h _ (mem_append_right _ (mem_singleton_self _)))
  have hearlier : ∀ other ∈ earlier, other.isHandled = true := fun other hother => h other (mem_append_left _ hother)
  rw [Inner.deliver, map_append, readerTask_append _ _ hearlier, map_singleton, readerTask, hhandled]
  rfl

variable {seq : ℕ} {event : ExecProcessEvent}

theorem arrivals_append (earlier later : List ServerNotification) :
    arrivals processId (earlier ++ later) = arrivals processId earlier ++ arrivals processId later := filterMap_append ..

theorem arrivals_concat_self (h : notification.announced = some (processId, seq, event)) :
    arrivals processId (earlier ++ [notification]) = arrivals processId earlier ++ [event] := by
  have hself : notification.eventOf processId = some event := by
    rw [ServerNotification.eventOf, h]
    exact if_pos rfl
  rw [arrivals, filterMap_append, filterMap_cons_some hself, filterMap_nil]
  rfl

theorem arrived_concat_self (h : notification.announced = some (processId, seq, event)) :
    Arrived processId (earlier ++ [notification]) = fun n => n = seq ∨ Arrived processId earlier n := by
  funext n
  unfold Arrived
  rw [arrivals_concat_self h]
  simp only [mem_append, mem_singleton, or_and_right, exists_or, exists_eq_left,
    ServerNotification.seq_of_announced h, Option.some.injEq]
  rw [or_comm, eq_comm (a := seq)]

theorem Inner.registerSession_eq_ok (h : inner.registerSession processId = .ok (registered, session)) :
    session = inner.states.length ∧ registered.states = inner.states ++ [SessionState.new] ∧
      registered.sessions = inner.sessions.insert processId session := by
  revert h
  fun_cases registerSession inner processId with
  | case1 => exact nofun
  | case2 inserted hinsert =>
    rintro ⟨⟩
    revert hinsert
    fun_cases insertSession with
    | case3 =>
      rintro ⟨⟩
      exact ⟨rfl, rfl, rfl⟩
    | _ => exact nofun

theorem Inner.Allocated.registerSession (h : inner.Allocated) (hc : Complete events)
    (hr : inner.registerSession processId = .ok (registered, session)) :
    registered.Routes processId session events (Arrived processId []) SessionState.new := by
  obtain ⟨rfl, hstates, hsessions⟩ := Inner.registerSession_eq_ok hr
  have harrived : ∀ n, ¬ Arrived processId [] n := by
    rintro n ⟨event, hevent, -⟩
    exact nomatch hevent
  refine ⟨?_, ⟨Reorder.Buffered.empty.congr fun n => ⟨harrived n, False.elim⟩, rfl, fun n hn => (harrived n hn).elim⟩,
    ?_, fun other hother => ?_⟩
  · rw [hstates]
    exact getElem?_concat_length
  · rw [hsessions, HashMap.get_insert, if_pos rfl]
    exact (if_pos (length_pos_iff.mpr hc.nonempty)).symm
  · by_contra hne
    rw [hsessions, HashMap.get_insert, if_neg hne] at hother
    exact Nat.lt_irrefl _ (h other _ hother)

variable {state : SessionState}

/-- **One more notification.** -/
theorem Inner.Routes.deliver_concat
    (h : (registered.deliver earlier).Routes processId session events (Arrived processId earlier) state)
    (hc : Complete events) (hhandled : ∀ other ∈ earlier ++ [notification], other.isHandled)
    (hevents : ∀ event ∈ arrivals processId (earlier ++ [notification]), event ∈ events) :
    ∃ state', (registered.deliver (earlier ++ [notification])).Routes processId session events
        (Arrived processId (earlier ++ [notification])) state' ∧
      ∀ seq event, notification.announced = some (processId, seq, event) →
        ((state.publishOrderedEvent event).1 ↔ state.orderedEvents.lastPublishedSeq < events.length ∧
          state'.orderedEvents.lastPublishedSeq = events.length) := by
  rw [Inner.deliver_concat hhandled]
  by_cases hself : ∃ seq event, notification.announced = some (processId, seq, event)
  · obtain ⟨seq, event, hannounced⟩ := hself
    have hevent : event ∈ events := by
      refine hevents event ?_
      rw [arrivals_concat_self hannounced]
      exact mem_append_right _ (mem_singleton_self event)
    obtain ⟨state', hroutes, hclosed⟩ := h.route hc hevent (ServerNotification.seq_of_announced hannounced)
    rw [hannounced, arrived_concat_self hannounced]
    refine ⟨state', hroutes, fun seq' event' heq => ?_⟩
    obtain ⟨-, heq⟩ := Prod.mk.inj (Option.some.inj heq)
    obtain ⟨-, rfl⟩ := Prod.mk.inj heq
    exact hclosed
  · have hother : ∀ seq event, notification.announced ≠ some (processId, seq, event) := by
      intro seq event heq
      exact hself ⟨seq, event, heq⟩
    refine ⟨state, ?_, fun seq event heq => absurd heq (hother seq event)⟩
    have harrivals : arrivals processId (earlier ++ [notification]) = arrivals processId earlier := by
      rw [arrivals, filterMap_append, filterMap_cons_none (ServerNotification.eventOf_other hother)]
      exact append_nil _
    unfold Arrived
    rw [harrivals]
    cases hannounced : notification.announced with
    | none => exact h
    | some announced =>
      obtain ⟨other, seq, event⟩ := announced
      refine h.route_other ?_
      rintro rfl
      exact hother seq event hannounced

theorem Inner.Routes.deliver
    (h : registered.Routes processId session events (Arrived processId []) state) (hc : Complete events)
    (notifications : List ServerNotification)
    (hhandled : ∀ notification ∈ notifications, notification.isHandled)
    (hevents : ∀ event ∈ arrivals processId notifications, event ∈ events) :
    ∃ state', (registered.deliver notifications).Routes processId session events (Arrived processId notifications)
      state' := by
  induction notifications using reverseRecOn with
  | nil => exact ⟨state, h⟩
  | append_singleton earlier notification ih =>
    obtain ⟨state', hroutes⟩ := ih (forall_mem_append.mp hhandled).1
      (forall_mem_append.mp (arrivals_append .. ▸ hevents)).1
    obtain ⟨state'', hroutes', -⟩ := hroutes.deliver_concat hc hhandled hevents
    exact ⟨state'', hroutes'⟩

end Deliveries

/-- What notifications about a process have made of its session: the events up to the largest number below
which none is missing. -/
structure Inner.Delivered (inner : Inner) (processId : Str) (session : ℕ) (events : List ExecProcessEvent)
    (notifications : List ServerNotification) (state : SessionState) (k : ℕ) : Prop where
  found : inner.states[session]? = some state
  greatest : IsGreatest {k | ∀ seq, 0 < seq → seq ≤ k → Arrived processId notifications seq} k
  published : state.events.published = events.take k
  le_length : k ≤ events.length
  registered : inner.sessions.get processId = if k < events.length then some session else none

theorem Inner.Routes.delivered {inner : Inner} {processId : Str} {session : ℕ} {events : List ExecProcessEvent}
    {notifications : List ServerNotification} {state : SessionState}
    (h : inner.Routes processId session events (Arrived processId notifications) state) :
    inner.Delivered processId session events notifications state state.orderedEvents.lastPublishedSeq :=
  ⟨h.found, h.publishes.buffered.isGreatest, h.publishes.published, h.publishes.last_le, h.registered⟩

/-- **Any order, any repetition, any loss.**  After any part of the notifications the session has published
the events up to the first one missing.  `publish_ordered_event` returns `true` for the notification that
completes them, and that one removes the session. -/
theorem delivered_of_notifications {inner registered : Inner} {processId : Str} {session : ℕ}
    {events : List ExecProcessEvent} {notifications : List ServerNotification} (ha : inner.Allocated)
    (hr : inner.registerSession processId = .ok (registered, session)) (hc : Complete events)
    (hhandled : ∀ notification ∈ notifications, notification.isHandled)
    (hevents : ∀ event ∈ arrivals processId notifications, event ∈ events) :
    (∃ state k, (registered.deliver notifications).Delivered processId session events notifications state k) ∧
    ∀ earlier notification later, notifications = earlier ++ notification :: later →
      ∃ state k state' k', (registered.deliver earlier).Delivered processId session events earlier state k ∧
        (registered.deliver (earlier ++ [notification])).Delivered processId session events
          (earlier ++ [notification]) state' k' ∧
        ∀ seq event, notification.announced = some (processId, seq, event) →
          ((state.publishOrderedEvent event).1 ↔ k < events.length ∧ k' = events.length) := by
  have hstart := ha.registerSession hc hr
  constructor
  · obtain ⟨state, hroutes⟩ := hstart.deliver hc notifications hhandled hevents
    exact ⟨state, _, hroutes.delivered⟩
  · rintro earlier notification later rfl
    rw [append_cons] at hhandled hevents
    obtain ⟨hhandled', -⟩ := forall_mem_append.mp hhandled
    obtain ⟨hevents', -⟩ := forall_mem_append.mp (arrivals_append .. ▸ hevents)
    obtain ⟨state, hroutes⟩ := hstart.deliver hc earlier (forall_mem_append.mp hhandled').1
      (forall_mem_append.mp (arrivals_append .. ▸ hevents')).1
    obtain ⟨state', hroutes', hclosed⟩ := hroutes.deliver_concat hc hhandled' hevents'
    exact ⟨state, _, state', _, hroutes.delivered, hroutes'.delivered, hclosed⟩

/-- The events of a process that writes one chunk, and their notifications in another order, one of them
repeated. -/
def shortEvents : List ExecProcessEvent := [.output ⟨1, .stdout, [104]⟩, .exited 2 0, .closed 3]

def shortNotifications : List ServerNotification :=
  [.execClosed (.ok ⟨[], 3⟩), .execOutputDelta (.ok ⟨[], 1, .stdout, [104]⟩),
    .execOutputDelta (.ok ⟨[], 1, .stdout, [104]⟩), .execExited (.ok ⟨[], 2, 0⟩)]

/-- The client with a session for the process. -/
def shortClient : Inner := ⟨HashMap.empty.insert [] 0, [SessionState.new], none⟩

theorem complete_shortEvents : Complete shortEvents := by
  refine ⟨cons_ne_nil _ _, rfl, fun i event h => ?_⟩
  match i, h with
  | 0, h | 1, h | 2, h =>
    obtain rfl := Option.some.inj h
    decide
  | i + 3, h => exact nomatch h

theorem delivered_shortNotifications : ∃ state,
    (shortClient.deliver shortNotifications).Delivered [] 0 shortEvents shortNotifications state 3 ∧
      state.events.published = shortEvents ∧ (shortClient.deliver shortNotifications).sessions.get [] = none := by
  have hregister : Inner.new.registerSession [] = .ok (shortClient, 0) := rfl
  have hallocated : Inner.new.Allocated := nofun
  obtain ⟨⟨state, k, hdelivered⟩, -⟩ := delivered_of_notifications hallocated hregister complete_shortEvents
    (show ∀ notification ∈ shortNotifications, notification.isHandled = true by simp [shortNotifications]; decide)
    (by decide)
  have hall : ((shortClient.deliver shortNotifications).states[0]?.map fun state => state.events.published) =
      some shortEvents := by decide +kernel
  rw [hdelivered.found] at hall
  have hpublished : state.events.published = shortEvents := Option.some.inj hall
  have hlength := congrArg length (hdelivered.published.symm.trans hpublished)
  rw [length_take] at hlength
  have hk : k = 3 := by
    have : shortEvents.length = 3 := rfl
    have := hdelivered.le_length
    omega
  subst hk
  exact ⟨state, hdelivered, hpublished, hdelivered.registered⟩

end OpenAgere.ExecClient
