import OpenAgere.ClientTracker
import OpenAgere.MachineInteger

/-! # The outbound buffer

The writer of a remote-control connection in `app-server/src/transport/remote_control/websocket.rs` and the
acks that the reader hands to it.  The writer numbers the queued events of each client and stream, keeps them
in a `BoundedOutboundBuffer` until they are acknowledged, and sends what is still kept again on the next
connection.  One event of `next` is one section under the lock of the state, one send, or one turn of the loop.

In every run the buffer of a stream is what was numbered and not acknowledged since, a final part of what was
numbered; the usage is the number of envelopes kept and at most the capacity; and a connection sends the kept
envelopes first and then those it numbers (`delivery_of_run`).  The numbers are 1, 2, 3 and so on up to the
largest `u64`, which is then given again and again (`exists_same_seqId`). -/

namespace OpenAgere.RemoteControl

open List Option MachineInteger Transition

variable {ε : Type}

def channelCapacity : ℕ := 128

/-! ### The buffer -/

structure QueuedServerEnvelope (ε : Type) where
  event : ε
  clientId : ClientId
  streamId : StreamId
deriving DecidableEq, Repr

def QueuedServerEnvelope.key (envelope : QueuedServerEnvelope ε) : ClientKey := (envelope.clientId, envelope.streamId)

structure ServerEnvelope (ε : Type) extends QueuedServerEnvelope ε where
  seqId : ℕ
deriving DecidableEq, Repr

/-- The envelopes of one stream. -/
def ofStream (key : ClientKey) (envelopes : List (ServerEnvelope ε)) : List (ServerEnvelope ε) :=
  envelopes.filter fun envelope => envelope.key = key

structure BoundedOutboundBuffer (ε : Type) where
  bufferByStream : HashMap ClientKey (List (ServerEnvelope ε))
  /-- The value of the watch channel. -/
  used : ℕ

namespace BoundedOutboundBuffer

def new : BoundedOutboundBuffer ε := ⟨.empty, 0⟩

/-- The buffer of a stream, empty if it is absent. -/
def stream (buffer : BoundedOutboundBuffer ε) (key : ClientKey) : List (ServerEnvelope ε) :=
  (buffer.bufferByStream.get key).getD []

def insert (buffer : BoundedOutboundBuffer ε) (envelope : ServerEnvelope ε) : BoundedOutboundBuffer ε :=
  ⟨buffer.bufferByStream.insert envelope.key (buffer.stream envelope.key ++ [envelope]), buffer.used + 1⟩

/-- The loop of `ack`; counting the usage down below zero would panic. -/
def popAcked (ackedSeqId : ℕ) : List (ServerEnvelope ε) → ℕ → Option (List (ServerEnvelope ε) × ℕ)
  | [], used => some ([], used)
  | envelope :: envelopes, used =>
      if envelope.seqId ≤ ackedSeqId then
        match used with
        | 0 => none
        | used + 1 => popAcked ackedSeqId envelopes used
      else some (envelope :: envelopes, used)

/-- The end of `ack`: an empty stream is removed. -/
def keep (buffer : BoundedOutboundBuffer ε) (key : ClientKey) (envelopes : List (ServerEnvelope ε)) (used : ℕ) :
    BoundedOutboundBuffer ε :=
  ⟨if envelopes.isEmpty then buffer.bufferByStream.remove key else buffer.bufferByStream.insert key envelopes, used⟩

def ack (buffer : BoundedOutboundBuffer ε) (key : ClientKey) (ackedSeqId : ℕ) : Option (BoundedOutboundBuffer ε) :=
  match buffer.bufferByStream.get key with
  | none => some buffer
  | some envelopes => (popAcked ackedSeqId envelopes buffer.used).map fun (envelopes, used) =>
      buffer.keep key envelopes used

/-- All envelopes, stream by stream in the order of an iteration. -/
def serverEnvelopes (ord : IterOrder ClientKey) (buffer : BoundedOutboundBuffer ε) : List (ServerEnvelope ε) :=
  ((buffer.bufferByStream.keys ord).filterMap buffer.bufferByStream.get).flatten

/-- The number of envelopes in all streams. -/
def buffered (buffer : BoundedOutboundBuffer ε) : ℕ := (buffer.bufferByStream.entries.map fun e => e.2.length).sum

end BoundedOutboundBuffer

/-! ### Runs -/

open ServerEnvelope BoundedOutboundBuffer

/-- Where the writer stands. -/
inductive Writer (ε : Type) where
  -- It has returned
  | stopped
  -- It has these envelopes to send before the head of its loop
  | sending (envelopes : List (ServerEnvelope ε))
  -- It waits in `select!`, with the capacity it read at the head of the loop
  | selecting (outboundHasCapacity : Bool)
  -- It has taken an event from the queue and waits for the lock
  | received (queued : QueuedServerEnvelope ε)

/-- What happened to the buffer, in order. -/
inductive Record (ε : Type) where
  | assigned (envelope : ServerEnvelope ε)
  | acked (key : ClientKey) (seqId : ℕ)

def Record.envelope : Record ε → Option (ServerEnvelope ε)
  | assigned envelope => some envelope
  | acked _ _ => none

/-- The state that outlives connections and the writer of the present one.  The last fields are history: all
events that were queued, the log of the buffer and, for the present connection, the buffer at its start and the
envelopes it has numbered and sent. -/
structure Session (ε : Type) where
  outboundBuffer : BoundedOutboundBuffer ε
  nextSeqIdByStream : HashMap ClientKey ℕ
  serverEvents : List (QueuedServerEnvelope ε)
  writer : Writer ε
  queued : List (QueuedServerEnvelope ε)
  log : List (Record ε)
  opened : BoundedOutboundBuffer ε
  numbered : List (ServerEnvelope ε)
  sent : List (ServerEnvelope ε)

namespace Session

def new : Session ε := ⟨.new, .empty, [], .stopped, [], [], .new, [], []⟩

/-- All envelopes numbered so far. -/
def assigned (session : Session ε) : List (ServerEnvelope ε) := session.log.filterMap Record.envelope

/-- The envelope of a received event. -/
def envelope (session : Session ε) (queued : QueuedServerEnvelope ε) : ServerEnvelope ε :=
  { queued with seqId := (session.nextSeqIdByStream.get queued.key).getD 1 }

/-- The section that numbers an event and buffers it. -/
def number (session : Session ε) (queued : QueuedServerEnvelope ε) : Session ε :=
  let envelope := session.envelope queued
  { session with
    outboundBuffer := session.outboundBuffer.insert envelope
    nextSeqIdByStream := session.nextSeqIdByStream.insert queued.key (min (envelope.seqId + 1) u64Max)
    writer := .sending [envelope]
    log := session.log ++ [.assigned envelope]
    numbered := session.numbered ++ [envelope] }

/-- The section of the reader for an envelope. -/
def read (session : Session ε) (envelope : ClientEnvelope) : Option (Session ε) :=
  match envelope.event, envelope.seqId, envelope.streamId with
  | .ack, some ackedSeqId, some streamId =>
      (session.outboundBuffer.ack (envelope.clientId, streamId) ackedSeqId).map fun outboundBuffer =>
        { session with
          outboundBuffer := outboundBuffer
          log := session.log ++ [.acked (envelope.clientId, streamId) ackedSeqId] }
  | _, _, _ => some session

end Session

inductive SessionEvent (ε : Type) where
  -- A server event is queued
  | queue (queued : QueuedServerEnvelope ε)
  -- The writer of a new connection starts; the writer and the reader of the one before have returned
  | connect
  -- The writer sends the next envelope
  | send
  -- The head of the loop
  | check
  -- A ping, or a change of the usage while there was no capacity
  | wake
  -- An event is taken from the queue
  | receive
  -- The received event is numbered and buffered
  | number
  -- A send fails, the queue is closed or the connection is shut down
  | stop
  -- The reader takes an envelope of a client
  | read (envelope : ClientEnvelope)

namespace Session

def next (ord : IterOrder ClientKey) (session : Session ε) : SessionEvent ε → Option (Session ε)
  | .queue queued => some
      { session with serverEvents := session.serverEvents ++ [queued], queued := session.queued ++ [queued] }
  | .connect =>
      match session.writer with
      | .stopped => some
          { session with
            writer := .sending (session.outboundBuffer.serverEnvelopes ord)
            opened := session.outboundBuffer
            numbered := []
            sent := [] }
      | _ => none
  | .send =>
      match session.writer with
      | .sending (envelope :: envelopes) => some
          { session with writer := .sending envelopes, sent := session.sent ++ [envelope] }
      | _ => none
  | .check =>
      match session.writer with
      | .sending [] => some
          { session with writer := .selecting (session.outboundBuffer.used < channelCapacity) }
      | _ => none
  | .wake =>
      match session.writer with
      | .selecting _ => some { session with writer := .sending [] }
      | _ => none
  | .receive =>
      match session.writer, session.serverEvents with
      | .selecting true, queued :: serverEvents => some
          { session with writer := .received queued, serverEvents := serverEvents }
      | _, _ => none
  | .number =>
      match session.writer with
      | .received queued => some (session.number queued)
      | _ => none
  | .stop =>
      match session.writer with
      | .sending (_ :: _) | .selecting _ => some { session with writer := .stopped }
      | _ => none
  | .read envelope => session.read envelope

end Session

/-! ### What the buffer is for -/

/-- The ack covers the envelope. -/
def Record.covers (envelope : ServerEnvelope ε) : Record ε → Bool
  | assigned _ => false
  | acked key seqId => key = envelope.key ∧ envelope.seqId ≤ seqId

/-- The envelopes that no ack after their numbering covers. -/
def outstanding : List (Record ε) → List (ServerEnvelope ε)
  | [] => []
  | .assigned envelope :: log =>
      if log.any (·.covers envelope) then outstanding log else envelope :: outstanding log
  | .acked _ _ :: log => outstanding log

/-- The delivery of the events, as far as a session has come. -/
structure Delivery (ord : IterOrder ClientKey) (session : Session ε) : Prop where
  /-- The events are numbered in the order of the queue. -/
  queueOrder : session.assigned.map toQueuedServerEnvelope <+: session.queued
  /-- The ids of a stream. -/
  seqIds : ∀ key, (ofStream key session.assigned).map seqId =
    (List.range' 1 (ofStream key session.assigned).length).map (min u64Max)
  /-- A buffer that is there is not empty and ends with the envelope numbered last. -/
  contiguous : ∀ key envelopes, session.outboundBuffer.bufferByStream.get key = some envelopes →
    envelopes ≠ [] ∧ envelopes <:+ ofStream key session.assigned
  /-- It holds what was not acknowledged. -/
  unacked : ∀ key, session.outboundBuffer.stream key = ofStream key (outstanding session.log)
  used_eq : session.outboundBuffer.used = session.outboundBuffer.buffered
  used_le : session.outboundBuffer.used ≤ channelCapacity
  /-- No ack counts the usage below zero. -/
  ackable : ∀ key seqId, (session.outboundBuffer.ack key seqId).isSome
  /-- A connection sends what was buffered at its start and then what it numbers. -/
  sentOrder : ∀ key, ofStream key session.sent <+: session.opened.stream key ++ ofStream key session.numbered
  /-- Its ids increase, up to the largest. -/
  increasing : ∀ key, (ofStream key session.assigned).length ≤ u64Max →
    ((ofStream key session.sent).map seqId).Pairwise (· < ·)
  /-- The next connection starts with all that was not acknowledged. -/
  resent : ∀ session', session.next ord .connect = some session' → ∃ envelopes, session'.writer = .sending envelopes ∧
    ∀ key, ofStream key envelopes = ofStream key (outstanding session.log)

/-! ### The operations of the buffer -/

namespace BoundedOutboundBuffer

/-- A buffer counts its envelopes and has no empty stream. -/
structure Exact (buffer : BoundedOutboundBuffer ε) : Prop where
  used_eq : buffer.used = buffer.buffered
  ne_nil : ∀ key envelopes, buffer.bufferByStream.get key = some envelopes → envelopes ≠ []

section Operations

variable {buffer : BoundedOutboundBuffer ε} {key : ClientKey}

theorem exact_new : (new : BoundedOutboundBuffer ε).Exact := ⟨rfl, nofun⟩

section

variable (buffer : BoundedOutboundBuffer ε)

theorem buffered_eq_add (key : ClientKey) (used : ℕ) :
    buffer.buffered = (buffer.stream key).length + buffered ⟨buffer.bufferByStream.remove key, used⟩ := by
  unfold buffered stream
  cases hget : buffer.bufferByStream.get key with
  | none =>
    rw [HashMap.entries_remove_of_get hget]
    exact (Nat.zero_add _).symm
  | some envelopes =>
    rw [((HashMap.entries_perm_of_get hget).map _).sum_nat]
    rfl

theorem buffered_insert (key : ClientKey) (envelopes : List (ServerEnvelope ε))
    (used used' : ℕ) : buffered ⟨buffer.bufferByStream.insert key envelopes, used⟩ =
      envelopes.length + buffered ⟨buffer.bufferByStream.remove key, used'⟩ := by
  unfold buffered
  rw [((HashMap.entries_insert_perm _ key envelopes).map _).sum_nat]
  rfl

theorem stream_insert (envelope : ServerEnvelope ε) (key : ClientKey) :
    (buffer.insert envelope).stream key = buffer.stream key ++ ofStream key [envelope] := by
  unfold stream insert ofStream
  rw [HashMap.get_insert]
  by_cases hkey : key = envelope.key
  · subst hkey
    simp [stream]
  · rw [if_neg hkey, filter_cons_of_neg (by simpa using Ne.symm hkey), filter_nil, append_nil]

end

theorem Exact.insert (h : buffer.Exact) (envelope : ServerEnvelope ε) : (buffer.insert envelope).Exact := by
  refine ⟨?_, fun key envelopes hget => ?_⟩
  · show buffer.used + 1 = buffered ⟨_, _⟩
    rw [buffered_insert buffer envelope.key _ _ 0, h.used_eq, buffered_eq_add buffer envelope.key 0, length_append]
    exact Nat.add_right_comm _ _ _
  · unfold BoundedOutboundBuffer.insert at hget
    rw [HashMap.get_insert] at hget
    split_ifs at hget
    · rw [← some.inj hget]
      exact append_ne_nil_of_right_ne_nil _ (cons_ne_nil _ _)
    · exact h.ne_nil key envelopes hget

/-- The loop of `ack` drops the covered envelopes at the front and counts each, given that all are counted. -/
theorem popAcked_eq (ackedSeqId : ℕ) : ∀ {envelopes : List (ServerEnvelope ε)} {used : ℕ}, envelopes.length ≤ used →
    ∃ used', popAcked ackedSeqId envelopes used =
        some (envelopes.dropWhile fun envelope => envelope.seqId ≤ ackedSeqId, used') ∧
      used' + envelopes.length = used + (envelopes.dropWhile fun envelope => envelope.seqId ≤ ackedSeqId).length
  | [], used, _ => ⟨used, rfl, rfl⟩
  | envelope :: envelopes, used, h => by
    unfold popAcked
    by_cases hacked : envelope.seqId ≤ ackedSeqId
    · rw [if_pos hacked, dropWhile_cons_of_pos (by simpa using hacked)]
      cases used with
      | zero => exact nomatch h
      | succ used =>
        obtain ⟨used', hpop, hused⟩ := popAcked_eq ackedSeqId (Nat.le_of_succ_le_succ h)
        refine ⟨used', hpop, ?_⟩
        rw [length_cons]
        omega
    · rw [if_neg hacked, dropWhile_cons_of_neg (by simpa using hacked)]
      exact ⟨used, rfl, rfl⟩

theorem get_keep (buffer : BoundedOutboundBuffer ε) (key key' : ClientKey) (envelopes : List (ServerEnvelope ε))
    (used : ℕ) :
    (buffer.keep key envelopes used).bufferByStream.get key' =
      if key' = key then (if envelopes = [] then none else some envelopes) else buffer.bufferByStream.get key' := by
  cases envelopes with
  | nil =>
    show (buffer.bufferByStream.remove key).get key' = _
    by_cases hkey : key' = key
    · rw [if_pos hkey, hkey, HashMap.get_remove_self]
      rfl
    · rw [if_neg hkey, HashMap.get_remove hkey]
  | cons envelope envelopes => exact HashMap.get_insert _ _ _ _

theorem buffered_keep (buffer : BoundedOutboundBuffer ε) (key : ClientKey) (envelopes : List (ServerEnvelope ε))
    (used : ℕ) : (buffer.keep key envelopes used).buffered =
      envelopes.length + buffered ⟨buffer.bufferByStream.remove key, used⟩ := by
  cases envelopes with
  | nil => exact (Nat.zero_add _).symm
  | cons envelope envelopes => exact buffered_insert _ _ _ _ _

/-- **`ack`** never counts below zero; it drops the covered envelopes at the front of the stream. -/
theorem Exact.ack (h : buffer.Exact) (key : ClientKey) (ackedSeqId : ℕ) : ∃ buffer',
    buffer.ack key ackedSeqId = some buffer' ∧ buffer'.Exact ∧ buffer'.used ≤ buffer.used ∧
    ∀ key', buffer'.stream key' = if key' = key then
      (buffer.stream key).dropWhile fun envelope => envelope.seqId ≤ ackedSeqId else buffer.stream key' := by
  have hsum := buffered_eq_add buffer key
  unfold BoundedOutboundBuffer.ack
  unfold stream at hsum ⊢
  cases hget : buffer.bufferByStream.get key with
  | none =>
    refine ⟨buffer, rfl, h, Nat.le_refl _, fun key' => ?_⟩
    split_ifs with hkey
    · rw [hkey, hget]
      rfl
    · rfl
  | some envelopes =>
    rw [hget, getD_some, ← h.used_eq] at hsum
    have hlen : envelopes.length ≤ buffer.used := (hsum 0).symm ▸ Nat.le_add_right _ _
    obtain ⟨used, hpop, hused⟩ := popAcked_eq ackedSeqId hlen
    have hdrop := (dropWhile_suffix (l := envelopes) fun envelope => envelope.seqId ≤ ackedSeqId).length_le
    rw [getD_some]
    generalize envelopes.dropWhile (fun envelope => envelope.seqId ≤ ackedSeqId) = kept at hpop hused hdrop ⊢
    refine ⟨buffer.keep key kept used, ?_, ⟨?_, fun key' envelopes' hget' => ?_⟩, ?_, fun key' => ?_⟩
    · show (popAcked ackedSeqId envelopes buffer.used).map _ = _
      rw [hpop]
      rfl
    · rw [buffered_keep]
      have := hsum used
      show used = _
      omega
    · rw [get_keep] at hget'
      split_ifs at hget' with hkey hkept
      · rwa [← some.inj hget']
      · exact h.ne_nil key' envelopes' hget'
    · show used ≤ buffer.used
      omega
    · rw [get_keep]
      split_ifs with hkey hkept
      · exact hkept.symm
      · rfl
      · rfl

end Operations

end BoundedOutboundBuffer

/-! ### Streams -/

section Streams

variable {key : ClientKey}

theorem ofStream_append (key : ClientKey) (xs ys : List (ServerEnvelope ε)) :
    ofStream key (xs ++ ys) = ofStream key xs ++ ofStream key ys := filter_append ..

theorem ofStream_flatten {m : HashMap ClientKey (List (ServerEnvelope ε))}
    (hm : ∀ key, ofStream key ((m.get key).getD []) = (m.get key).getD [])
    (hne : ∀ key key', key' ≠ key → ofStream key ((m.get key').getD []) = []) :
    ∀ {keys : List ClientKey}, keys.Nodup →
      ofStream key (keys.filterMap m.get).flatten = if key ∈ keys then (m.get key).getD [] else []
  | [], _ => rfl
  | key' :: keys, hnodup => by
    rw [nodup_cons] at hnodup
    have hcons : ((key' :: keys).filterMap m.get).flatten = (m.get key').getD [] ++ (keys.filterMap m.get).flatten := by
      rw [filterMap_cons]
      cases m.get key' <;> rfl
    rw [hcons, ofStream_append, ofStream_flatten hm hne hnodup.2]
    by_cases hkey : key' = key
    · subst hkey
      rw [if_neg hnodup.1, if_pos mem_cons_self, hm, append_nil]
    · rw [hne key key' hkey, nil_append]
      simp [Ne.symm hkey]

theorem ofStream_ofStream (key key' : ClientKey) (envelopes : List (ServerEnvelope ε)) :
    ofStream key (ofStream key' envelopes) = if key' = key then ofStream key' envelopes else [] := by
  unfold ofStream
  rw [List.filter_filter]
  split_ifs with hkey
  · subst hkey
    simp
  · refine List.filter_eq_nil_iff.mpr fun envelope _ h => hkey ?_
    simp only [Bool.and_eq_true, decide_eq_true_eq] at h
    exact h.2.symm.trans h.1

variable {envelopes : List (ServerEnvelope ε)}

theorem ofStream_serverEnvelopes (ord : IterOrder ClientKey) {buffer : BoundedOutboundBuffer ε} (h : ∀ key, buffer.stream key = ofStream key envelopes) (key : ClientKey) :
    ofStream key (buffer.serverEnvelopes ord) = buffer.stream key := by
  have hm : ∀ key key', ofStream key (buffer.stream key') = if key' = key then buffer.stream key' else [] := by
    intro key key'
    rw [h key']
    exact ofStream_ofStream key key' envelopes
  refine (ofStream_flatten (fun key => ?_) (fun key key' hne => ?_) (HashMap.nodup_keys ord _)).trans ?_
  · exact (hm key key).trans (if_pos rfl)
  · exact (hm key key').trans (if_neg hne)
  · split_ifs with hmem
    · rfl
    · have hnone := HashMap.get_eq_none.mpr (Bool.eq_false_of_not_eq_true fun h => hmem (HashMap.mem_keys.mpr h))
      unfold stream
      rw [hnone]
      rfl

end Streams

/-! ### Outstanding envelopes -/

section Outstanding

theorem outstanding_assigned (envelope : ServerEnvelope ε) : ∀ log : List (Record ε),
    outstanding (log ++ [.assigned envelope]) = outstanding log ++ [envelope]
  | [] => rfl
  | .assigned other :: log => by
    rw [cons_append, outstanding, outstanding, any_append, outstanding_assigned envelope log]
    cases hold : log.any (·.covers other) with
    | true => rfl
    | false => rfl
  | .acked _ _ :: log => outstanding_assigned envelope log

theorem outstanding_acked (key : ClientKey) (seqId : ℕ) : ∀ log : List (Record ε),
    outstanding (log ++ [.acked key seqId]) =
      (outstanding log).filter fun envelope => !(Record.acked key seqId).covers envelope
  | [] => rfl
  | .assigned envelope :: log => by
    rw [cons_append, outstanding, outstanding, any_append, outstanding_acked key seqId log]
    cases hold : log.any (·.covers envelope) with
    | true => simp
    | false =>
      cases hnew : (Record.acked key seqId).covers envelope with
      | true => simp [hnew]
      | false => simp [hnew]
  | .acked _ _ :: log => outstanding_acked key seqId log

variable {seqId : ℕ}

theorem dropWhile_eq_filter : ∀ {envelopes : List (ServerEnvelope ε)},
    (envelopes.map ServerEnvelope.seqId).Pairwise (· ≤ ·) →
    envelopes.dropWhile (fun envelope => envelope.seqId ≤ seqId) = envelopes.filter fun envelope => seqId < envelope.seqId
  | [], _ => rfl
  | envelope :: envelopes, h => by
    rw [map_cons, pairwise_cons] at h
    by_cases hacked : envelope.seqId ≤ seqId
    · rw [dropWhile_cons_of_pos (by simpa using hacked), filter_cons_of_neg (by simpa using hacked)]
      exact dropWhile_eq_filter h.2
    · rw [dropWhile_cons_of_neg (by simpa using hacked)]
      refine (filter_eq_self.mpr fun other hother => decide_eq_true ?_).symm
      obtain rfl | hother := mem_cons.mp hother
      · exact Nat.lt_of_not_le hacked
      · exact (Nat.lt_of_not_le hacked).trans_le (h.1 _ (mem_map_of_mem hother))

/-- In a stream with increasing ids an ack covers the envelopes at the front. -/
theorem ofStream_outstanding_acked {key : ClientKey} {log : List (Record ε)}
    (hsorted : ((ofStream key (outstanding log)).map ServerEnvelope.seqId).Pairwise (· ≤ ·)) (key' : ClientKey) :
    ofStream key' (outstanding (log ++ [.acked key seqId])) = if key' = key then
      (ofStream key (outstanding log)).dropWhile fun envelope => envelope.seqId ≤ seqId
      else ofStream key' (outstanding log) := by
  rw [outstanding_acked]
  split_ifs with hkey
  · subst hkey
    rw [dropWhile_eq_filter hsorted]
    unfold ofStream
    rw [List.filter_filter, List.filter_filter]
    refine List.filter_congr fun envelope _ => ?_
    unfold Record.covers
    grind
  · unfold ofStream
    rw [List.filter_filter]
    refine List.filter_congr fun envelope _ => ?_
    unfold Record.covers
    grind

end Outstanding

/-! ### The invariant of the runs -/

namespace Writer

/-- The event between the queue and its number. -/
def inHand : Writer ε → List (QueuedServerEnvelope ε)
  | received queued => [queued]
  | _ => []

/-- What the writer still has to send; nothing is known of one that has returned. -/
def Pending (envelopes : List (ServerEnvelope ε)) : Writer ε → Prop
  | stopped => True
  | sending rest => rest = envelopes
  | selecting _ | received _ => envelopes = []

/-- The writer has found room for one more envelope. -/
def hasRoom : Writer ε → Bool
  | selecting outboundHasCapacity => outboundHasCapacity
  | received _ => true
  | _ => false

end Writer

namespace Session

structure Sound (ord : IterOrder ClientKey) (s : Session ε) : Prop where
  order : s.assigned.map toQueuedServerEnvelope ++ s.writer.inHand ++ s.serverEvents = s.queued
  nextSeqId : ∀ key, (s.nextSeqIdByStream.get key).getD 1 = min u64Max ((ofStream key s.assigned).length + 1)
  seqIds : ∀ key, (ofStream key s.assigned).map seqId =
    (List.range' 1 (ofStream key s.assigned).length).map (min u64Max)
  counted : s.outboundBuffer.Exact
  latest : ∀ key, s.outboundBuffer.stream key <:+ ofStream key s.assigned
  unacked : ∀ key, s.outboundBuffer.stream key = ofStream key (outstanding s.log)
  used_le : s.outboundBuffer.used ≤ channelCapacity
  room : s.writer.hasRoom → s.outboundBuffer.used < channelCapacity
  pending : ∃ rest, s.sent ++ rest = s.opened.serverEnvelopes ord ++ s.numbered ∧ s.writer.Pending rest
  opened : ∀ key, ofStream key (s.opened.serverEnvelopes ord) = s.opened.stream key
  live : ∀ key, s.opened.stream key ++ ofStream key s.numbered <:+ ofStream key s.assigned

section Invariant

variable {ord : IterOrder ClientKey} {s t : Session ε}

theorem serverEnvelopes_new (ord : IterOrder ClientKey) :
    (BoundedOutboundBuffer.new : BoundedOutboundBuffer ε).serverEnvelopes ord = [] := by
  have hkeys : ((.empty : HashMap ClientKey (List (ServerEnvelope ε))).keys ord) = [] := perm_nil.mp (ord.perm 0 [])
  unfold BoundedOutboundBuffer.serverEnvelopes BoundedOutboundBuffer.new
  rw [hkeys]
  rfl

theorem sound_new : Sound ord (new : Session ε) where
  order := rfl
  nextSeqId _ := rfl
  seqIds _ := rfl
  counted := exact_new
  latest _ := suffix_refl _
  unacked _ := rfl
  used_le := Nat.zero_le _
  room := nofun
  pending := by
    refine ⟨[], ?_, trivial⟩
    show [] = BoundedOutboundBuffer.new.serverEnvelopes ord ++ []
    rw [serverEnvelopes_new, append_nil]
  opened := ofStream_serverEnvelopes ord (fun _ => rfl : ∀ key, _ = ofStream key [])
  live _ := suffix_refl _

theorem Sound.queue (h : Sound ord s) (queued : QueuedServerEnvelope ε) :
    Sound ord { s with serverEvents := s.serverEvents ++ [queued], queued := s.queued ++ [queued] } :=
  { h with
    order := by
      rw [← h.order]
      exact (append_assoc _ _ _).symm }

theorem Sound.connect (h : Sound ord s) (hwriter : s.writer = .stopped) :
    Sound ord { s with
      writer := .sending (s.outboundBuffer.serverEnvelopes ord)
      opened := s.outboundBuffer
      numbered := []
      sent := [] } :=
  { h with
    order := by
      have horder := h.order
      rw [hwriter] at horder
      exact horder
    room := nofun
    pending := ⟨_, (append_nil _).symm, rfl⟩
    opened := ofStream_serverEnvelopes ord h.unacked
    live := fun key => by
      rw [show ofStream key [] = ([] : List (ServerEnvelope ε)) from rfl, append_nil]
      exact h.latest key }

theorem Sound.send {envelope : ServerEnvelope ε} (h : Sound ord s)
    (hwriter : s.writer = .sending (envelope :: envelopes)) :
    Sound ord { s with writer := .sending envelopes, sent := s.sent ++ [envelope] } :=
  { h with
    order := by
      have horder := h.order
      rw [hwriter] at horder
      exact horder
    room := nofun
    pending := by
      obtain ⟨rest, hsent, hpending⟩ := h.pending
      rw [hwriter] at hpending
      obtain rfl : envelope :: envelopes = rest := hpending
      exact ⟨envelopes, (append_assoc _ _ _).trans hsent, rfl⟩ }

theorem Sound.turn {writer : Writer ε} (h : Sound ord s) (hhand : writer.inHand = s.writer.inHand)
    (hroom : writer.hasRoom → s.outboundBuffer.used < channelCapacity)
    (hpending : ∀ rest, s.writer.Pending rest → writer.Pending rest) : Sound ord { s with writer := writer } :=
  { h with
    order := by
      rw [← h.order, ← hhand]
      rfl
    room := hroom
    pending := by
      obtain ⟨rest, hsent, hrest⟩ := h.pending
      exact ⟨rest, hsent, hpending rest hrest⟩ }

variable {queued : QueuedServerEnvelope ε}

theorem Sound.receive {serverEvents : List (QueuedServerEnvelope ε)}
    (h : Sound ord s) (hwriter : s.writer = .selecting true) (hevents : s.serverEvents = queued :: serverEvents) :
    Sound ord { s with writer := .received queued, serverEvents := serverEvents } :=
  { h with
    order := by
      have horder := h.order
      rw [hwriter, hevents] at horder
      rw [← horder, append_assoc, append_assoc]
      rfl
    room := fun _ => h.room (by rw [hwriter]; rfl)
    pending := by
      obtain ⟨rest, hsent, hpending⟩ := h.pending
      rw [hwriter] at hpending
      exact ⟨rest, hsent, hpending⟩ }

theorem assigned_number (s : Session ε) (queued : QueuedServerEnvelope ε) :
    (s.number queued).assigned = s.assigned ++ [s.envelope queued] := filterMap_append

theorem key_envelope (s : Session ε) (queued : QueuedServerEnvelope ε) : (s.envelope queued).key = queued.key := rfl

theorem ofStream_singleton (envelope : ServerEnvelope ε) (key : ClientKey) :
    ofStream key [envelope] = if envelope.key = key then [envelope] else [] := by
  unfold ofStream
  by_cases hkey : envelope.key = key
  · rw [if_pos hkey, filter_cons_of_pos (by simpa using hkey), filter_nil]
  · rw [if_neg hkey, filter_cons_of_neg (by simpa using hkey), filter_nil]

theorem Sound.nextSeqId_number (h : Sound ord s) (queued : QueuedServerEnvelope ε) (key : ClientKey) :
    ((s.number queued).nextSeqIdByStream.get key).getD 1 =
      min u64Max ((ofStream key (s.number queued).assigned).length + 1) := by
  rw [assigned_number, ofStream_append, ofStream_singleton, length_append, key_envelope]
  unfold number
  rw [HashMap.get_insert]
  have hold := h.nextSeqId queued.key
  by_cases hkey : key = queued.key
  · rw [if_pos hkey, if_pos hkey.symm, hkey, getD_some]
    show min ((s.nextSeqIdByStream.get queued.key).getD 1 + 1) u64Max = _
    rw [hold, length_singleton]
    omega
  · rw [if_neg hkey, if_neg (Ne.symm hkey)]
    exact h.nextSeqId key

theorem Sound.seqIds_number (h : Sound ord s) (queued : QueuedServerEnvelope ε) (key : ClientKey) :
    (ofStream key (s.number queued).assigned).map seqId =
      (List.range' 1 (ofStream key (s.number queued).assigned).length).map (min u64Max) := by
  rw [assigned_number, ofStream_append, ofStream_singleton, map_append, length_append, h.seqIds key,
    key_envelope]
  by_cases hkey : queued.key = key
  · have hid : (s.envelope queued).seqId = _ := h.nextSeqId queued.key
    rw [if_pos hkey, map_singleton, length_singleton, hid, hkey,
      range'_1_concat, map_append, map_singleton, Nat.add_comm 1]
  · rw [if_neg hkey, map_nil, length_nil, append_nil,
      Nat.add_zero]

theorem Sound.number (h : Sound ord s) (hwriter : s.writer = .received queued) : Sound ord (s.number queued) where
  order := by
    have horder := h.order
    rw [hwriter] at horder
    rw [assigned_number, map_append]
    show _ ++ [queued] ++ [] ++ s.serverEvents = s.queued
    rw [← horder, append_nil]
    rfl
  nextSeqId := h.nextSeqId_number queued
  seqIds := h.seqIds_number queued
  counted := h.counted.insert _
  latest key := by
    rw [assigned_number, ofStream_append]
    exact (stream_insert ..).symm ▸ suffix_append_self_iff.mpr (h.latest key)
  unacked key := by
    refine (stream_insert ..).trans ?_
    show _ = ofStream key (outstanding (s.log ++ [_]))
    rw [outstanding_assigned, ofStream_append, h.unacked key]
  used_le := h.room (by rw [hwriter]; rfl)
  room := nofun
  pending := by
    obtain ⟨rest, hsent, hpending⟩ := h.pending
    rw [hwriter] at hpending
    obtain rfl : rest = [] := hpending
    refine ⟨[s.envelope queued], ?_, rfl⟩
    rw [append_nil] at hsent
    show s.sent ++ _ = _ ++ (s.numbered ++ _)
    rw [hsent, append_assoc]
    rfl
  opened := h.opened
  live key := by
    rw [assigned_number, ofStream_append]
    show _ ++ ofStream key (s.numbered ++ _) <:+ _
    rw [ofStream_append, ← append_assoc]
    exact suffix_append_self_iff.mpr (h.live key)

theorem Sound.sorted (h : Sound ord s) (key : ClientKey) :
    ((s.outboundBuffer.stream key).map seqId).Pairwise (· ≤ ·) := by
  have hall : ((ofStream key s.assigned).map seqId).Pairwise (· ≤ ·) := by
    rw [h.seqIds key, pairwise_map]
    refine (pairwise_lt_range' 1).imp fun hlt => ?_
    exact min_le_min_left u64Max hlt.le
  exact hall.sublist ((h.latest key).sublist.map _)

theorem assigned_acked (s : Session ε) (buffer : BoundedOutboundBuffer ε) (key : ClientKey) (seqId : ℕ) :
    assigned { s with outboundBuffer := buffer, log := s.log ++ [.acked key seqId] } = s.assigned :=
  filterMap_append.trans (append_nil _)

variable {key : ClientKey}

theorem Sound.acked {seqId : ℕ} {buffer : BoundedOutboundBuffer ε} (h : Sound ord s)
    (hack : s.outboundBuffer.ack key seqId = some buffer) :
    Sound ord { s with outboundBuffer := buffer, log := s.log ++ [.acked key seqId] } := by
  obtain ⟨buffer', hbuffer, hexact, hused, hstream⟩ := h.counted.ack key seqId
  obtain rfl := mem_unique hbuffer hack
  have hassigned := assigned_acked s buffer' key seqId
  refine
    { h with
      order := ?_
      nextSeqId := ?_
      seqIds := ?_
      counted := hexact
      latest := fun key' => ?_
      unacked := fun key' => ?_
      used_le := hused.trans h.used_le
      room := fun hroom => hused.trans_lt (h.room hroom)
      live := ?_ }
  · rw [hassigned]
    exact h.order
  · rw [hassigned]
    exact h.nextSeqId
  · rw [hassigned]
    exact h.seqIds
  · rw [hassigned]
    rw [hstream key']
    split_ifs with hkey
    · rw [hkey]
      exact (dropWhile_suffix _).trans (h.latest key)
    · exact h.latest key'
  · have hsorted := h.sorted key
    rw [h.unacked key] at hsorted
    rw [hstream key', ofStream_outstanding_acked hsorted key', h.unacked key, h.unacked key']
  · rw [hassigned]
    exact h.live

theorem Sound.read (h : Sound ord s) {envelope : ClientEnvelope} (hread : s.read envelope = some t) : Sound ord t := by
  unfold Session.read at hread
  split at hread
  · obtain ⟨buffer, hack, rfl⟩ := map_eq_some_iff.mp hread
    exact h.acked hack
  · exact some.inj hread ▸ h

/-- **Every event keeps the invariant.** -/
theorem Sound.next {e : SessionEvent ε} (h : Sound ord s) (hnext : s.next ord e = some t) : Sound ord t := by
  revert hnext
  fun_cases Session.next ord s e with
  | case1 queued => exact fun hnext => some.inj hnext ▸ h.queue queued
  | case2 hwriter => exact fun hnext => some.inj hnext ▸ h.connect hwriter
  | case4 envelope envelopes hwriter => exact fun hnext => some.inj hnext ▸ h.send hwriter
  | case6 hwriter =>
    refine fun hnext => some.inj hnext ▸ h.turn ?_ of_decide_eq_true fun rest hrest => ?_
    · rw [hwriter]
      rfl
    · rw [hwriter] at hrest
      exact hrest.symm
  | case8 _ hwriter =>
    refine fun hnext => some.inj hnext ▸ h.turn ?_ nofun fun rest hrest => ?_
    · rw [hwriter]
      rfl
    · rw [hwriter] at hrest
      exact hrest.symm
  | case10 queued serverEvents hevents hwriter => exact fun hnext => some.inj hnext ▸ h.receive hwriter hevents
  | case12 queued hwriter => exact fun hnext => some.inj hnext ▸ h.number hwriter
  | case14 _ _ hwriter | case15 _ hwriter =>
    refine fun hnext => some.inj hnext ▸ h.turn ?_ nofun fun _ _ => trivial
    rw [hwriter]
    rfl
  | case17 envelope => exact h.read
  | _ => exact nofun

theorem sound_of_run {es : List (SessionEvent ε)} (hrun : run (Session.next ord) new es = some s) : Sound ord s :=
  run_inv (fun _ _ _ h hnext => h.next hnext) sound_new hrun

/-! ### Delivery -/

/-- What a connection has sent, in the order of each stream. -/
theorem Sound.sentOrder (h : Sound ord s) (key : ClientKey) :
    ofStream key s.sent <+: s.opened.stream key ++ ofStream key s.numbered := by
  obtain ⟨rest, hsent, -⟩ := h.pending
  refine ⟨ofStream key rest, ?_⟩
  rw [← ofStream_append, hsent, ofStream_append, h.opened key]

/-- As long as the largest id was given once at most, the ids of a stream increase. -/
theorem Sound.strict (h : Sound ord s) (hlen : (ofStream key s.assigned).length ≤ u64Max) :
    ((ofStream key s.assigned).map seqId).Pairwise (· < ·) := by
  rw [h.seqIds key, pairwise_map]
  refine (pairwise_lt_range' 1).imp_of_mem fun {i j} hi hj hlt => ?_
  rw [mem_range'_1] at hi hj
  rwa [min_eq_right (by omega), min_eq_right (by omega)]

end Invariant

/-- **Delivery.** It holds in every state of every run, whatever the order of iteration. -/
theorem delivery_of_run {ord : IterOrder ClientKey} {es : List (SessionEvent ε)} {s : Session ε}
    (hrun : run (next ord) new es = some s) : Delivery ord s := by
  have h := sound_of_run hrun
  constructor
  case queueOrder => exact ⟨s.writer.inHand ++ s.serverEvents, (append_assoc _ _ _).symm.trans h.order⟩
  case seqIds => exact h.seqIds
  case contiguous =>
    intro key envelopes hget
    refine ⟨h.counted.ne_nil key envelopes hget, ?_⟩
    have hlatest := h.latest key
    unfold stream at hlatest
    rwa [hget] at hlatest
  case unacked => exact h.unacked
  case used_eq => exact h.counted.used_eq
  case used_le => exact h.used_le
  case ackable =>
    intro key seqId
    obtain ⟨buffer, hack, -⟩ := h.counted.ack key seqId
    exact isSome_of_eq_some hack
  case sentOrder => exact h.sentOrder
  case increasing =>
    intro key hlen
    have hall := (h.strict hlen).sublist ((h.live key).sublist.map _)
    exact hall.sublist ((h.sentOrder key).sublist.map _)
  case resent =>
    intro t hconnect
    rw [next] at hconnect
    split at hconnect
    · obtain rfl := some.inj hconnect
      refine ⟨_, rfl, fun key => ?_⟩
      rw [ofStream_serverEnvelopes ord h.unacked, h.unacked]
    · exact nomatch hconnect

end Session

/-- The send of a numbered event fails, and the next connection sends it before the event that came after. -/
def reconnected : List (SessionEvent Unit) :=
  [.connect, .queue ⟨(), "c", "s"⟩, .check, .receive, .number, .stop,
    .queue ⟨(), "c", "s"⟩, .connect, .send, .check, .receive, .number, .send,
    .read ⟨.ack, "c", some "s", some 1⟩]

theorem delivery_reconnected : ∃ s, run (Session.next (.inOrder ClientKey)) .new reconnected = some s ∧
    s.sent.map seqId = [1, 2] ∧
    (s.outboundBuffer.stream ("c", "s")).map seqId = [2] ∧
    Delivery (.inOrder ClientKey) s := by
  obtain ⟨s, hs, hsent, hbuffer⟩ : ∃ s ∈ run (Session.next (.inOrder ClientKey)) .new reconnected,
      s.sent.map seqId = [1, 2] ∧ (s.outboundBuffer.stream ("c", "s")).map seqId = [2] := by
    decide +kernel
  exact ⟨s, hs, hsent, hbuffer, Session.delivery_of_run hs⟩

/-! ### The largest id -/

namespace Session

/-- The writer is at the head of its loop, `n` events of the stream were numbered and nothing is buffered. -/
structure Resting (key : ClientKey) (n : ℕ) (s : Session ε) : Prop where
  writer : s.writer = .sending []
  serverEvents : s.serverEvents = []
  absent : s.outboundBuffer.bufferByStream.get key = none
  used : s.outboundBuffer.used = 0
  length : (ofStream key s.assigned).length = n

section Cycle

variable {ord : IterOrder ClientKey} {s : Session ε} {queued : QueuedServerEnvelope ε}

/-- An event is queued, numbered, sent and acknowledged. -/
def cycle (s : Session ε) (queued : QueuedServerEnvelope ε) : List (SessionEvent ε) :=
  [.queue queued, .check, .receive, .number, .send,
    .read ⟨.ack, queued.clientId, some queued.streamId, some (s.envelope queued).seqId⟩]

theorem ack_insert {buffer : BoundedOutboundBuffer ε} (envelope : ServerEnvelope ε)
    (habsent : buffer.bufferByStream.get envelope.key = none) (hused : buffer.used = 0) :
    (buffer.insert envelope).ack envelope.key envelope.seqId =
      some ((buffer.insert envelope).keep envelope.key [] 0) := by
  have hget : (buffer.insert envelope).bufferByStream.get envelope.key = some [envelope] := by
    unfold BoundedOutboundBuffer.insert BoundedOutboundBuffer.stream
    rw [HashMap.get_insert, if_pos rfl, habsent]
    rfl
  have hpop : popAcked envelope.seqId [envelope] (0 + 1) = some ([], 0) := by
    unfold popAcked
    exact if_pos (Nat.le_refl _)
  unfold BoundedOutboundBuffer.ack
  rw [hget]
  show (popAcked _ [envelope] (buffer.used + 1)).map _ = _
  rw [hused, hpop]
  rfl

theorem Resting.cycle {n : ℕ} (h : Resting queued.key n s) :
    ∃ t, run (next ord) s (s.cycle queued) = some t ∧ Resting queued.key (n + 1) t := by
  let s₁ : Session ε := { s with serverEvents := s.serverEvents ++ [queued], queued := s.queued ++ [queued] }
  let s₂ : Session ε := { s₁ with writer := .selecting true }
  let s₃ : Session ε := { s₂ with writer := .received queued, serverEvents := [] }
  let s₄ : Session ε := s₃.number queued
  let s₅ : Session ε := { s₄ with writer := .sending [], sent := s₄.sent ++ [s₃.envelope queued] }
  let t : Session ε :=
    { s₅ with
      outboundBuffer := s₅.outboundBuffer.keep queued.key [] 0
      log := s₅.log ++ [.acked queued.key (s₃.envelope queued).seqId] }
  have h₂ : s₁.next ord .check = some s₂ := by
    rw [next, show s₁.writer = .sending [] from h.writer, show s₁.outboundBuffer.used = 0 from h.used]
    rfl
  have h₃ : s₂.next ord .receive = some s₃ := by
    rw [next, show s₂.serverEvents = [queued] from congrArg (· ++ [queued]) h.serverEvents]
  have h₆ : s₅.next ord (.read ⟨.ack, queued.clientId, some queued.streamId, some (s.envelope queued).seqId⟩) = some t :=
    congrArg (Option.map _) (ack_insert (s.envelope queued) h.absent h.used)
  refine ⟨t, ?_, rfl, rfl, ?_, rfl, ?_⟩
  · rw [Session.cycle, run_step (t := s₁) rfl, run_step h₂, run_step h₃, run_step (t := s₄) rfl,
      run_step (t := s₅) rfl, run_step h₆, run_nil]
  · exact (get_keep ..).trans (if_pos rfl)
  · have hassigned : t.assigned = s.assigned ++ [s.envelope queued] :=
      (assigned_acked s₅ _ _ _).trans (assigned_number s₃ queued)
    rw [hassigned, ofStream_append, ofStream_singleton, key_envelope, if_pos rfl, length_append, h.length]
    rfl

/-- Any number of events of a stream can be numbered. -/
theorem exists_resting (ord : IterOrder ClientKey) (queued : QueuedServerEnvelope ε) : ∀ n, ∃ es, ∃ s : Session ε,
    run (next ord) new es = some s ∧ Resting queued.key n s
  | 0 => by
    refine ⟨[.connect], { new with writer := .sending (BoundedOutboundBuffer.new.serverEnvelopes ord) }, rfl, ?_, rfl,
      rfl, rfl, rfl⟩
    exact congrArg Writer.sending (serverEnvelopes_new ord)
  | n + 1 => by
    obtain ⟨es, s, hrun, hresting⟩ := exists_resting ord queued n
    obtain ⟨t, hcycle, hnext⟩ := hresting.cycle
    refine ⟨es ++ s.cycle queued, t, ?_, hnext⟩
    rw [run_append, hrun, bind_some, hcycle]

end Cycle

end Session

theorem not_nodup_min {n : ℕ} (h : 0 < n) : ¬ ((List.range' 1 (n + 1)).map (min n)).Nodup := by
  rw [range'_1_concat, map_append, map_singleton, nodup_append]
  rintro ⟨-, -, hdisjoint⟩
  refine hdisjoint n ?_ _ mem_cons_self (min_eq_left (Nat.le_add_left n 1)).symm
  exact mem_map.mpr ⟨n, mem_range'_1.mpr ⟨h, by omega⟩, min_self n⟩

/-- After 2^64 events of one stream two of them have the same id. -/
theorem exists_same_seqId : ∃ (es : List (SessionEvent Unit)) (s : Session Unit) (key : ClientKey),
    run (Session.next (.inOrder ClientKey)) .new es = some s ∧
    ¬ ((ofStream key s.assigned).map seqId).Nodup := by
  let queued : QueuedServerEnvelope Unit := ⟨(), [], []⟩
  obtain ⟨es, s, hrun, hresting⟩ := Session.exists_resting (.inOrder ClientKey) queued (u64Max + 1)
  refine ⟨es, s, queued.key, hrun, ?_⟩
  rw [(Session.sound_of_run hrun).seqIds, hresting.length]
  exact not_nodup_min (by decide)

end OpenAgere.RemoteControl
