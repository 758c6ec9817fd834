import OpenAgere.HashMap
import OpenAgere.Text
import OpenAgere.Transition

/-! # Remote-control clients

`ClientTracker` of `app-server/src/transport/remote_control/client_tracker.rs` with the reader loop of
`websocket.rs` around it.  Each open connection has an entry under its client and stream and an outbound
task, which when it has ended reports that key; the reader loop collects the key some time later and closes
the client it finds there.  The inputs of the tracker are envelopes, idle sweeps, collected keys and the
shutdown, one at a time.  The ids of connections are counted without the end of the `AtomicU64` of the source.

A connection is closed by an input that concerns it as long as no connection is opened for a key whose
earlier outbound task has not been collected, and no longer (`ownClosures_throughout_iff`): a key that is
collected late closes the connection that took its place (`not_ownClosures_lateKey`). -/

namespace OpenAgere.RemoteControl

open List Option Text Transition

/-! ### Messages -/

abbrev ClientId := Str

abbrev StreamId := Str

abbrev ClientKey := ClientId × StreamId

inductive JSONRPCMessage where
  | request (method params : Str)
  | notification (method params : Str)
  | response (body : Str)
  | error (body : Str)
deriving DecidableEq, Repr

def remoteControlMessageStartsConnection : JSONRPCMessage → Bool
  | .request method _ => method = "initialize"
  | _ => false

inductive ClientEvent where
  | clientMessage (message : JSONRPCMessage)
  | ack
  | ping
  | clientClosed
deriving DecidableEq, Repr

structure ClientEnvelope where
  event : ClientEvent
  clientId : ClientId
  streamId : Option StreamId
  seqId : Option ℕ
deriving DecidableEq, Repr

def ClientEnvelope.isInitialize (envelope : ClientEnvelope) : Bool :=
  match envelope.event with
  | .clientMessage message => remoteControlMessageStartsConnection message
  | _ => false

/-- The events for the app server; the key of a connection and the sequence id of a message are noted for the
history only. -/
inductive TransportEvent where
  | connectionOpened (connectionId : ℕ) (key : ClientKey)
  | incomingMessage (connectionId : ℕ) (message : JSONRPCMessage) (seqId : Option ℕ)
  | connectionClosed (connectionId : ℕ)
deriving DecidableEq, Repr

def TransportEvent.connectionId : TransportEvent → ℕ
  | connectionOpened id _ => id
  | incomingMessage id _ _ => id
  | connectionClosed id => id

/-! ### The tracker -/

structure ClientState where
  connectionId : ℕ
  /-- in seconds -/
  lastActivityAt : ℕ
  lastInboundSeqId : Option ℕ
deriving DecidableEq, Repr

/-- The tracker; `joinSet` holds the outbound tasks that were not collected yet, each with the connection it was
started for, `nextConnectionId` is the counter of the process and `sent` what was sent to the app server. -/
structure ClientTracker where
  clients : HashMap ClientKey ClientState
  legacyStreamIds : HashMap ClientId StreamId
  joinSet : List (ℕ × ClientKey)
  nextConnectionId : ℕ
  sent : List TransportEvent

namespace ClientTracker

def new (nextConnectionId : ℕ) : ClientTracker := ⟨.empty, .empty, [], nextConnectionId, []⟩

def closeClient (tracker : ClientTracker) (key : ClientKey) : ClientTracker :=
  match tracker.clients.get key with
  | none => tracker
  | some client =>
      { tracker with
        clients := tracker.clients.remove key
        legacyStreamIds :=
          if tracker.legacyStreamIds.get key.1 = some key.2 then tracker.legacyStreamIds.remove key.1
          else tracker.legacyStreamIds
        sent := tracker.sent ++ [.connectionClosed client.connectionId] }

/-- The stream of an envelope; `random` is the stream id that would be made. -/
def resolveStream (tracker : ClientTracker) (envelope : ClientEnvelope) (random : StreamId) : StreamId :=
  match envelope.streamId with
  | some streamId => streamId
  | none =>
      if envelope.isInitialize then (tracker.legacyStreamIds.get envelope.clientId).getD random
      else (tracker.legacyStreamIds.get envelope.clientId).getD (if envelope.event = .ping then random else [])

/-- An initialize message without a stream takes the remembered stream of its client. -/
def takeLegacyStream (tracker : ClientTracker) (envelope : ClientEnvelope) : ClientTracker :=
  if envelope.streamId = none ∧ envelope.isInitialize then
    { tracker with legacyStreamIds := tracker.legacyStreamIds.remove envelope.clientId }
  else tracker

/-- A connection for a key without one. -/
def openClient (tracker : ClientTracker) (key : ClientKey) (message : JSONRPCMessage) (seqId : Option ℕ)
    (isLegacy : Bool) (now : ℕ) : ClientTracker :=
  { clients := tracker.clients.insert key ⟨tracker.nextConnectionId, now, if isLegacy then none else seqId⟩
    legacyStreamIds := if isLegacy then tracker.legacyStreamIds.insert key.1 key.2 else tracker.legacyStreamIds
    joinSet := tracker.joinSet ++ [(tracker.nextConnectionId, key)]
    nextConnectionId := tracker.nextConnectionId + 1
    sent := tracker.sent ++ [.connectionOpened tracker.nextConnectionId key,
      .incomingMessage tracker.nextConnectionId message seqId] }

/-- A message for an open connection. -/
def deliver (tracker : ClientTracker) (key : ClientKey) (client : ClientState) (message : JSONRPCMessage)
    (seqId : Option ℕ) (now : ℕ) : ClientTracker :=
  { tracker with
    clients := tracker.clients.modify key fun client =>
      { client with lastActivityAt := now, lastInboundSeqId := seqId.or client.lastInboundSeqId }
    sent := tracker.sent ++ [.incomingMessage client.connectionId message seqId] }

/-- `last_seq_id >= seq_id` for a numbered message -/
def isRepeated (client : ClientState) : Option ℕ → Bool
  | some seqId => client.lastInboundSeqId.any (seqId ≤ ·)
  | none => false

/-- A message once its key is known. -/
def handleClientMessage (tracker : ClientTracker) (key : ClientKey) (message : JSONRPCMessage) (seqId : Option ℕ)
    (isLegacy : Bool) (now : ℕ) : ClientTracker :=
  if remoteControlMessageStartsConnection message then
    (tracker.closeClient key).openClient key message seqId isLegacy now
  else
    match tracker.clients.get key with
    | none => tracker
    | some client => if isRepeated client seqId then tracker else tracker.deliver key client message seqId now

def touch (tracker : ClientTracker) (key : ClientKey) (now : ℕ) : ClientTracker :=
  { tracker with clients := tracker.clients.modify key fun client => { client with lastActivityAt := now } }

/-- `handle_message`; the pong for a client that is not there goes elsewhere. -/
def handleMessage (tracker : ClientTracker) (envelope : ClientEnvelope) (random : StreamId) (now : ℕ) :
    ClientTracker :=
  let streamId := tracker.resolveStream envelope random
  let tracker := tracker.takeLegacyStream envelope
  if streamId = [] then tracker
  else
    match envelope.event with
    | .clientMessage message =>
        tracker.handleClientMessage (envelope.clientId, streamId) message envelope.seqId envelope.streamId.isNone now
    | .ack => tracker
    | .ping => tracker.touch (envelope.clientId, streamId) now
    | .clientClosed => tracker.closeClient (envelope.clientId, streamId)

/-- 10 minutes -/
def remoteControlClientIdleTimeout : ℕ := 600

def remoteControlClientIsAlive (client : ClientState) (now : ℕ) : Bool :=
  now - client.lastActivityAt < remoteControlClientIdleTimeout

def closeClients (tracker : ClientTracker) (keys : List ClientKey) : ClientTracker := keys.foldl closeClient tracker

/-- The keys of the clients that have been idle for too long. -/
def expiredKeys (ord : IterOrder ClientKey) (tracker : ClientTracker) (now : ℕ) : List ClientKey :=
  (tracker.clients.keys ord).filter fun key =>
    (tracker.clients.get key).any fun client => !remoteControlClientIsAlive client now

def closeExpiredClients (ord : IterOrder ClientKey) (tracker : ClientTracker) (now : ℕ) : ClientTracker :=
  tracker.closeClients (tracker.expiredKeys ord now)

/-- All clients are closed and all tasks are awaited. -/
def shutdown (ord : IterOrder ClientKey) (tracker : ClientTracker) : ClientTracker :=
  { tracker.closeClients (tracker.clients.keys ord) with joinSet := [] }

end ClientTracker

/-- What the reader loop meets. -/
inductive Input where
  | envelope (envelope : ClientEnvelope) (random : StreamId) (now : ℕ)
  | sweep (now : ℕ)
  /-- an outbound task has ended and `bookkeep_join_set` returns its key -/
  | collect (task : ℕ)
  /-- an outbound task has panicked: `bookkeep_join_set` goes on -/
  | skip (task : ℕ)
  /-- another transport takes a connection id -/
  | takeConnectionId
  | shutdown
deriving DecidableEq, Repr

open ClientTracker

/-- One round of the reader loop. -/
def next (ord : IterOrder ClientKey) (tracker : ClientTracker) : Input → Option ClientTracker
  | .envelope envelope random now => some (tracker.handleMessage envelope random now)
  | .sweep now => some (tracker.closeExpiredClients ord now)
  | .collect task => tracker.joinSet[task]?.map fun ended =>
      { tracker with joinSet := tracker.joinSet.eraseIdx task }.closeClient ended.2
  | .skip task => tracker.joinSet[task]?.map fun _ => { tracker with joinSet := tracker.joinSet.eraseIdx task }
  | .takeConnectionId => some { tracker with nextConnectionId := tracker.nextConnectionId + 1 }
  | .shutdown => some (tracker.shutdown ord)

/-! ### What the operations do to the clients -/

namespace ClientTracker

variable {tracker tracker' : ClientTracker} {key : ClientKey} {ord : IterOrder ClientKey}

section

variable (tracker : ClientTracker)

theorem get_closeClient (key k : ClientKey) :
    (tracker.closeClient key).clients.get k = if k = key then none else tracker.clients.get k := by
  unfold closeClient
  split
  · next h =>
      split_ifs with hk
      · rw [hk, h]
      · rfl
  · show (tracker.clients.remove key).get k = _
    split_ifs with hk
    · rw [hk]
      exact HashMap.get_remove_self _ _
    · exact HashMap.get_remove hk

theorem sent_closeClient (key : ClientKey) : (tracker.closeClient key).sent =
    tracker.sent ++ (tracker.clients.get key).toList.map fun client => .connectionClosed client.connectionId := by
  unfold closeClient
  split
  · next h => rw [h, toList_none, map_nil, append_nil]
  · next h => rw [h]; rfl

theorem get_openClient (key : ClientKey) (message : JSONRPCMessage) (seqId : Option ℕ)
    (isLegacy : Bool) (now : ℕ) (k : ClientKey) :
    (tracker.openClient key message seqId isLegacy now).clients.get k =
      if k = key then some ⟨tracker.nextConnectionId, now, if isLegacy then none else seqId⟩
      else tracker.clients.get k := HashMap.get_insert _ _ _ _

theorem joinSet_closeClient (key : ClientKey) :
    (tracker.closeClient key).joinSet = tracker.joinSet := by
  unfold closeClient
  split <;> rfl

theorem nextConnectionId_closeClient (key : ClientKey) :
    (tracker.closeClient key).nextConnectionId = tracker.nextConnectionId := by
  unfold closeClient
  split <;> rfl

end

theorem sent_closeClients : ∀ {keys : List ClientKey} {tracker : ClientTracker}, keys.Nodup →
    (tracker.closeClients keys).sent = tracker.sent ++
      (keys.filterMap tracker.clients.get).map fun client => .connectionClosed client.connectionId
  | [], _, _ => (append_nil _).symm
  | key :: keys, tracker, h => by
    rw [nodup_cons] at h
    have hget : keys.filterMap (tracker.closeClient key).clients.get = keys.filterMap tracker.clients.get := by
      refine filterMap_congr fun k hk => ?_
      rw [get_closeClient, if_neg]
      rintro rfl
      exact h.1 hk
    show ((tracker.closeClient key).closeClients keys).sent = _
    rw [sent_closeClients h.2, sent_closeClient, hget, append_assoc, filterMap_cons]
    cases tracker.clients.get key <;> rfl

/-- No connection is opened: the clients that are there were there, with the same connection, and no outbound
task is new. -/
structure Kept (tracker tracker' : ClientTracker) : Prop where
  clients : ∀ {k client'}, tracker'.clients.get k = some client' →
    ∃ client, tracker.clients.get k = some client ∧ client.connectionId = client'.connectionId
  joinSet : ∀ task ∈ tracker'.joinSet, task ∈ tracker.joinSet
  nextConnectionId : tracker.nextConnectionId ≤ tracker'.nextConnectionId

theorem Kept.refl (tracker : ClientTracker) : Kept tracker tracker := ⟨fun h => ⟨_, h, rfl⟩, fun _ h => h, le_rfl⟩

theorem kept_modify {f : ClientState → ClientState} {sent : List TransportEvent}
    (hf : ∀ client, (f client).connectionId = client.connectionId) (tracker : ClientTracker) (key : ClientKey) :
    Kept tracker { tracker with clients := tracker.clients.modify key f, sent := sent } := by
  refine ⟨fun {k client'} h => ?_, fun _ h => h, le_rfl⟩
  obtain ⟨client, hc, rfl⟩ := HashMap.get_modify_eq_some.mp h
  refine ⟨client, hc, ?_⟩
  split_ifs
  · exact (hf client).symm
  · rfl

theorem takeLegacyStream_eq (tracker : ClientTracker) (envelope : ClientEnvelope) :
    ∃ ids, tracker.takeLegacyStream envelope = { tracker with legacyStreamIds := ids } := by
  unfold takeLegacyStream
  split_ifs <;> exact ⟨_, rfl⟩

theorem kept_takeLegacyStream (tracker : ClientTracker) (envelope : ClientEnvelope) :
    Kept tracker (tracker.takeLegacyStream envelope) := by
  obtain ⟨ids, hlegacy⟩ := tracker.takeLegacyStream_eq envelope
  rw [hlegacy]
  exact ⟨fun h => ⟨_, h, rfl⟩, fun _ h => h, le_rfl⟩

theorem Kept.trans {tracker'' : ClientTracker} (h : Kept tracker tracker') (h' : Kept tracker' tracker'') :
    Kept tracker tracker'' := by
  refine ⟨fun hk => ?_, fun task ht => h.joinSet task (h'.joinSet task ht), h.nextConnectionId.trans h'.nextConnectionId⟩
  obtain ⟨client', hc', he'⟩ := h'.clients hk
  obtain ⟨client, hc, he⟩ := h.clients hc'
  exact ⟨client, hc, he.trans he'⟩

theorem kept_closeClient (tracker : ClientTracker) (key : ClientKey) : Kept tracker (tracker.closeClient key) := by
  refine ⟨fun {k client'} h => ?_, fun task h => ?_, (nextConnectionId_closeClient tracker key).ge⟩
  · rw [get_closeClient] at h
    split_ifs at h
    exact ⟨client', h, rfl⟩
  · rwa [joinSet_closeClient] at h

theorem kept_closeClients : ∀ (keys : List ClientKey) (tracker : ClientTracker),
    Kept tracker (tracker.closeClients keys)
  | [], tracker => .refl tracker
  | key :: keys, tracker => (kept_closeClient tracker key).trans (kept_closeClients keys _)

theorem kept_touch (tracker : ClientTracker) (key : ClientKey) (now : ℕ) : Kept tracker (tracker.touch key now) := by
  refine kept_modify ?_ tracker key
  exact fun _ => rfl

/-- A message that does not start a connection. -/
theorem kept_handleClientMessage {message : JSONRPCMessage}
    (h : remoteControlMessageStartsConnection message = false) (tracker : ClientTracker) (key : ClientKey)
    (seqId : Option ℕ) (isLegacy : Bool) (now : ℕ) :
    Kept tracker (tracker.handleClientMessage key message seqId isLegacy now) := by
  unfold handleClientMessage
  rw [if_neg (by simp [h])]
  split
  · exact .refl tracker
  · split_ifs
    · exact .refl tracker
    · refine kept_modify ?_ tracker key
      exact fun _ => rfl

/-- **Every message** keeps the connections, or it is an initialize message and opens one for its key after
closing the one that is there. -/
theorem handleMessage_cases (tracker : ClientTracker) (envelope : ClientEnvelope) (random : StreamId) (now : ℕ) :
    Kept tracker (tracker.handleMessage envelope random now) ∧
        (envelope.isInitialize = false ∨ tracker.resolveStream envelope random = []) ∨
      envelope.isInitialize ∧ tracker.resolveStream envelope random ≠ [] ∧
        ∃ message, envelope.event = .clientMessage message ∧
          tracker.handleMessage envelope random now =
            ((tracker.takeLegacyStream envelope).closeClient
              (envelope.clientId, tracker.resolveStream envelope random)).openClient
              (envelope.clientId, tracker.resolveStream envelope random) message envelope.seqId
              envelope.streamId.isNone now := by
  have hlegacy := kept_takeLegacyStream tracker envelope
  unfold handleMessage ClientEnvelope.isInitialize
  by_cases hs : tracker.resolveStream envelope random = []
  · simp only [if_pos hs]
    exact .inl ⟨hlegacy, .inr hs⟩
  · simp only [if_neg hs]
    cases envelope.event with
    | ack => exact .inl ⟨hlegacy, .inl rfl⟩
    | ping => exact .inl ⟨hlegacy.trans (kept_touch _ _ _), .inl rfl⟩
    | clientClosed => exact .inl ⟨hlegacy.trans (kept_closeClient _ _), .inl rfl⟩
    | clientMessage message =>
      cases hm : remoteControlMessageStartsConnection message with
      | false => exact .inl ⟨hlegacy.trans (kept_handleClientMessage hm _ _ _ _ _), .inl hm⟩
      | true =>
        refine .inr ⟨hm, hs, message, rfl, ?_⟩
        unfold handleClientMessage
        exact if_pos hm

end ClientTracker

/-! ### Own closures -/

variable {ord : IterOrder ClientKey} {tracker tracker' : ClientTracker} {input : Input}

/-- The input concerns the connection of the client: a message for its key that closes it or starts a new
connection, its own idle time, its own outbound task, or the shutdown. -/
def OwnCause (tracker : ClientTracker) (key : ClientKey) (client : ClientState) : Input → Prop
  | .envelope envelope random _ => key = (envelope.clientId, tracker.resolveStream envelope random) ∧
      (envelope.event = .clientClosed ∨ envelope.isInitialize)
  | .sweep now => remoteControlClientIsAlive client now = false
  | .collect task => tracker.joinSet[task]? = some (client.connectionId, key)
  | .shutdown => True
  | _ => False

/-- **The connections that the input closes** are open ones that it concerns. -/
def OwnClosures (ord : IterOrder ClientKey) (tracker : ClientTracker) (input : Input) : Prop :=
  ∀ tracker', next ord tracker input = some tracker' → ∀ id,
    .connectionClosed id ∈ tracker'.sent.drop tracker.sent.length →
      ∃ key client, tracker.clients.get key = some client ∧ client.connectionId = id ∧
        OwnCause tracker key client input

/-- Every outbound task that was not collected belongs to the connection of its key, if there is one. -/
def TasksCurrent (tracker : ClientTracker) : Prop :=
  ∀ id key client, (id, key) ∈ tracker.joinSet → tracker.clients.get key = some client → client.connectionId = id

variable {id : ℕ}

theorem drop_sent_closeClient (tracker : ClientTracker) (key : ClientKey)
    (h : .connectionClosed id ∈ (tracker.closeClient key).sent.drop tracker.sent.length) :
    ∃ client, tracker.clients.get key = some client ∧ client.connectionId = id := by
  rw [sent_closeClient, drop_left] at h
  obtain ⟨client, hc, he⟩ := mem_map.mp h
  exact ⟨client, mem_toList.mp hc, TransportEvent.connectionClosed.inj he⟩

theorem drop_sent_closeClients {keys : List ClientKey} (hkeys : keys.Nodup)
    (h : .connectionClosed id ∈ (tracker.closeClients keys).sent.drop tracker.sent.length) :
    ∃ key ∈ keys, ∃ client, tracker.clients.get key = some client ∧ client.connectionId = id := by
  rw [sent_closeClients hkeys, drop_left] at h
  obtain ⟨client, hc, he⟩ := mem_map.mp h
  obtain ⟨key, hkey, hget⟩ := mem_filterMap.mp hc
  exact ⟨key, hkey, client, hget, TransportEvent.connectionClosed.inj he⟩

variable {key : ClientKey} {message : JSONRPCMessage} {seqId : Option ℕ} {isLegacy : Bool} {now : ℕ}

theorem closed_openClient
    {n : ℕ} (h : .connectionClosed id ∈ (tracker.openClient key message seqId isLegacy now).sent.drop n) :
    .connectionClosed id ∈ tracker.sent.drop n := by
  rw [openClient, drop_append, mem_append] at h
  obtain h | h := h
  · exact h
  · have := mem_of_mem_drop h
    simp at this

/-- A message closes at most the connection of its key, and only if it says so. -/
theorem closed_handleMessage {envelope : ClientEnvelope} {random : StreamId}
    (h : .connectionClosed id ∈ (tracker.handleMessage envelope random now).sent.drop tracker.sent.length) :
    (∃ client, tracker.clients.get (envelope.clientId, tracker.resolveStream envelope random) = some client ∧
      client.connectionId = id) ∧ (envelope.event = .clientClosed ∨ envelope.isInitialize) := by
  obtain ⟨ids, hlegacy⟩ := tracker.takeLegacyStream_eq envelope
  have hclose := @drop_sent_closeClient id { tracker with legacyStreamIds := ids }
  have hsame : .connectionClosed id ∉ tracker.sent.drop tracker.sent.length := by
    rw [drop_length]
    exact not_mem_nil
  unfold handleMessage at h
  simp only [hlegacy] at h
  split_ifs at h with hs
  · exact absurd h hsame
  · split at h
    · next message he =>
        unfold handleClientMessage at h
        split_ifs at h with hm
        · exact ⟨hclose _ (closed_openClient h), .inr (by simp [ClientEnvelope.isInitialize, he, hm])⟩
        · split at h
          · exact absurd h hsame
          · split_ifs at h
            · exact absurd h hsame
            · rw [deliver, drop_left] at h
              simp at h
    · exact absurd h hsame
    · exact absurd h hsame
    · next he => exact ⟨hclose _ h, .inl he⟩

theorem ownClosures_of_tasksCurrent (h : TasksCurrent tracker) (input : Input) : OwnClosures ord tracker input := by
  intro tracker' hn id hid
  cases input with
  | envelope envelope random now =>
    obtain rfl := some.inj hn
    obtain ⟨⟨client, hc, hid⟩, hcause⟩ := closed_handleMessage hid
    exact ⟨_, client, hc, hid, rfl, hcause⟩
  | sweep now =>
    obtain rfl := some.inj hn
    obtain ⟨key, hkey, client, hc, hid⟩ := drop_sent_closeClients ((HashMap.nodup_keys ord _).filter _) hid
    refine ⟨key, client, hc, hid, ?_⟩
    have := (mem_filter.mp hkey).2
    rw [hc] at this
    exact (Bool.not_eq_true' _).mp this
  | collect task =>
    obtain ⟨⟨ended, key⟩, htask, rfl⟩ := map_eq_some_iff.mp hn
    obtain ⟨client, hc, hid⟩ := drop_sent_closeClient { tracker with joinSet := tracker.joinSet.eraseIdx task } key hid
    refine ⟨key, client, hc, hid, ?_⟩
    rw [OwnCause, h ended key client (mem_of_getElem? htask) hc]
    exact htask
  | skip task =>
    obtain ⟨_, _, rfl⟩ := map_eq_some_iff.mp hn
    rw [drop_length] at hid
    exact absurd hid not_mem_nil
  | takeConnectionId =>
    obtain rfl := some.inj hn
    rw [drop_length] at hid
    exact absurd hid not_mem_nil
  | shutdown =>
    obtain rfl := some.inj hn
    obtain ⟨key, _, client, hc, hid⟩ := drop_sent_closeClients (HashMap.nodup_keys ord _) hid
    exact ⟨key, client, hc, hid, trivial⟩

/-- Any late key closes a connection that is not its own. -/
theorem tasksCurrent_of_ownClosures (h : ∀ input, OwnClosures ord tracker input) : TasksCurrent tracker := by
  intro id key client htask hclient
  obtain ⟨task, htask⟩ := getElem?_of_mem htask
  obtain ⟨key', client', hclient', hid, hown⟩ := h (.collect task) _ (by rw [next, htask]; rfl) client.connectionId
    (by
      rw [sent_closeClient, drop_left]
      exact mem_map.mpr ⟨client, mem_toList.mpr hclient, rfl⟩)
  obtain ⟨rfl, rfl⟩ := Prod.mk.inj (mem_unique htask hown)
  exact hid.symm

/-- The connection ids that are in use were given out. -/
structure IdsBelow (tracker : ClientTracker) : Prop where
  clients : ∀ key client, tracker.clients.get key = some client → client.connectionId < tracker.nextConnectionId
  joinSet : ∀ task ∈ tracker.joinSet, task.1 < tracker.nextConnectionId

theorem idsBelow_of_kept (hk : Kept tracker tracker') (h : IdsBelow tracker) : IdsBelow tracker' := by
  refine ⟨fun key client' hc => ?_, fun task ht => (h.joinSet task (hk.joinSet task ht)).trans_le hk.nextConnectionId⟩
  obtain ⟨client, hc, hid⟩ := hk.clients hc
  rw [← hid]
  exact (h.clients key client hc).trans_le hk.nextConnectionId

theorem tasksCurrent_of_kept (hk : Kept tracker tracker') (h : TasksCurrent tracker) : TasksCurrent tracker' := by
  intro id key client' ht hc
  obtain ⟨client, hc, hid⟩ := hk.clients hc
  rw [← hid]
  exact h id key client (hk.joinSet _ ht) hc

theorem idsBelow_openClient (h : IdsBelow tracker) (key : ClientKey) (message : JSONRPCMessage) (seqId : Option ℕ)
    (isLegacy : Bool) (now : ℕ) : IdsBelow (tracker.openClient key message seqId isLegacy now) := by
  constructor
  · intro k client hc
    rw [get_openClient] at hc
    by_cases hk : k = key
    · rw [if_pos hk] at hc
      rw [← some.inj hc]
      exact Nat.lt_succ_self _
    · rw [if_neg hk] at hc
      exact (h.clients k client hc).trans (Nat.lt_succ_self _)
  · intro task ht
    obtain ht | ht := mem_append.mp ht
    · exact (h.joinSet task ht).trans (Nat.lt_succ_self _)
    · rw [mem_singleton.mp ht]
      exact Nat.lt_succ_self _

theorem tasksCurrent_openClient_iff (hids : IdsBelow tracker) (h : TasksCurrent tracker) :
    TasksCurrent (tracker.openClient key message seqId isLegacy now) ↔ ∀ task ∈ tracker.joinSet, task.2 ≠ key := by
  constructor
  · rintro h' ⟨id, k⟩ ht rfl
    have := h' id k _ (mem_append_left _ ht) ((get_openClient ..).trans (if_pos rfl))
    exact absurd this.symm (hids.joinSet _ ht).ne
  · intro hold id k client ht hc
    rw [get_openClient] at hc
    obtain ht | ht := mem_append.mp ht
    · rw [if_neg (hold _ ht)] at hc
      exact h id k client ht hc
    · obtain ⟨rfl, rfl⟩ := Prod.mk.inj (mem_singleton.mp ht)
      rw [if_pos rfl] at hc
      rw [← some.inj hc]

/-- **No key of an earlier connection is outstanding** when a connection is opened for it. -/
def OpensCollected (tracker : ClientTracker) : Input → Prop
  | .envelope envelope random _ => envelope.isInitialize → tracker.resolveStream envelope random ≠ [] →
      ∀ task ∈ tracker.joinSet, task.2 ≠ (envelope.clientId, tracker.resolveStream envelope random)
  | _ => True

theorem kept_eraseIdx (tracker : ClientTracker) (task : ℕ) :
    Kept tracker { tracker with joinSet := tracker.joinSet.eraseIdx task } :=
  ⟨fun h => ⟨_, h, rfl⟩, fun _ h => mem_of_mem_eraseIdx h, le_rfl⟩

theorem kept_next (h : next ord tracker input = some tracker') (hinput : ∀ e r n, input ≠ .envelope e r n) :
    Kept tracker tracker' := by
  cases input with
  | envelope envelope random now => exact absurd rfl (hinput envelope random now)
  | sweep now =>
    obtain rfl := some.inj h
    exact kept_closeClients _ tracker
  | collect task =>
    obtain ⟨ended, _, rfl⟩ := map_eq_some_iff.mp h
    exact (kept_eraseIdx tracker task).trans (kept_closeClient _ ended.2)
  | skip task =>
    obtain ⟨_, _, rfl⟩ := map_eq_some_iff.mp h
    exact kept_eraseIdx tracker task
  | takeConnectionId =>
    obtain rfl := some.inj h
    exact ⟨fun h => ⟨_, h, rfl⟩, fun _ h => h, Nat.le_succ _⟩
  | shutdown =>
    obtain rfl := some.inj h
    have hk := kept_closeClients (tracker.clients.keys ord) tracker
    exact ⟨hk.clients, forall_mem_nil _, hk.nextConnectionId⟩

/-- **One input** keeps the tasks current exactly if it opens no connection for an outstanding key. -/
theorem next_tasksCurrent_iff (hids : IdsBelow tracker) (h : TasksCurrent tracker)
    (hn : next ord tracker input = some tracker') :
    IdsBelow tracker' ∧ (TasksCurrent tracker' ↔ OpensCollected tracker input) := by
  by_cases hinput : ∃ e r n, input = .envelope e r n
  · obtain ⟨envelope, random, now, rfl⟩ := hinput
    obtain rfl := some.inj hn
    obtain ⟨hk, hno⟩ | ⟨hinit, hs, message, _, he⟩ := tracker.handleMessage_cases envelope random now
    · refine ⟨idsBelow_of_kept hk hids, iff_of_true (tasksCurrent_of_kept hk h) fun hinit hs => ?_⟩
      obtain hno | hno := hno
      · rw [hno] at hinit
        cases hinit
      · exact absurd hno hs
    · have hk := (kept_takeLegacyStream tracker envelope).trans
        (kept_closeClient _ (envelope.clientId, tracker.resolveStream envelope random))
      have hjoin : ((tracker.takeLegacyStream envelope).closeClient
          (envelope.clientId, tracker.resolveStream envelope random)).joinSet = tracker.joinSet := by
        rw [joinSet_closeClient, takeLegacyStream]
        split_ifs <;> rfl
      rw [he, tasksCurrent_openClient_iff (idsBelow_of_kept hk hids) (tasksCurrent_of_kept hk h), hjoin]
      exact ⟨idsBelow_openClient (idsBelow_of_kept hk hids) _ _ _ _ _, fun hold _ _ => hold, fun hold => hold hinit hs⟩
  · have hk := kept_next hn fun e r n he => hinput ⟨e, r, n, he⟩
    refine ⟨idsBelow_of_kept hk hids, iff_of_true (tasksCurrent_of_kept hk h) ?_⟩
    cases input with
    | envelope e r n => exact absurd ⟨e, r, n, rfl⟩ hinput
    | _ => trivial

/-- **Closures are own closures**, whatever input comes next, in every state of exactly the runs in which no
connection is opened for a key that an earlier outbound task has yet to report. -/
theorem ownClosures_throughout_iff (ord : IterOrder ClientKey) (nextConnectionId : ℕ) (inputs : List Input) :
    Throughout (next ord) (fun tracker => ∀ input, OwnClosures ord tracker input) (.new nextConnectionId) inputs ↔
      Meets (next ord) OpensCollected (.new nextConnectionId) inputs := by
  have hcurrent : ∀ tracker, (∀ input, OwnClosures ord tracker input) ↔ TasksCurrent tracker :=
    fun tracker => ⟨tasksCurrent_of_ownClosures, ownClosures_of_tasksCurrent⟩
  simp only [hcurrent]
  refine throughout_iff_meets (J := IdsBelow) ?_ ?_ ?_ ?_ ?_
  · exact fun _ _ _ hids h hn => (next_tasksCurrent_iff hids h hn).1
  · exact fun _ _ _ hids h hn => (next_tasksCurrent_iff hids h hn).2
  · -- a message is always possible
    intro tracker input _ _ hn
    cases input with
    | envelope envelope random now => cases hn
    | _ => trivial
  · exact ⟨nofun, forall_mem_nil _⟩
  · exact fun _ _ _ h _ => absurd h not_mem_nil

/-! ### A late key -/

/-- A message that starts a connection, with a stream. -/
def initializeEnvelope : ClientEnvelope :=
  ⟨.clientMessage (.request "initialize" []), "client", some "stream", some 0⟩

/-- A client starts its connection anew; the first outbound task ends and is not collected yet. -/
def reinitialized : List Input := [.envelope initializeEnvelope [] 0, .envelope initializeEnvelope [] 1]

/-- When the key of the first task is collected, the second connection is closed. -/
theorem not_ownClosures_lateKey : ∃ tracker, run (next (.inOrder _)) (.new 0) reinitialized = some tracker ∧
    tracker.joinSet[0]? = some (0, "client".toList, "stream".toList) ∧
    (next (.inOrder _) tracker (.collect 0)).map (·.sent.drop tracker.sent.length) = some [.connectionClosed 1] ∧
    ¬ OwnClosures (.inOrder _) tracker (.collect 0) := by
  obtain ⟨tracker, ht, htask, hclosed⟩ : ∃ tracker ∈ run (next (.inOrder _)) (.new 0) reinitialized,
      tracker.joinSet[0]? = some (0, "client".toList, "stream".toList) ∧
      (next (.inOrder _) tracker (.collect 0)).map (·.sent.drop tracker.sent.length) =
        some [.connectionClosed 1] := by decide +kernel
  refine ⟨tracker, ht, htask, hclosed, fun hown => ?_⟩
  obtain ⟨tracker', hn, hsent⟩ := map_eq_some_iff.mp hclosed
  obtain ⟨key, client, _, hid, hcause⟩ := hown tracker' hn 1 (by rw [hsent]; exact mem_singleton.mpr rfl)
  have : client.connectionId = 0 := (Prod.mk.inj (mem_unique hcause htask)).1
  omega

end OpenAgere.RemoteControl
