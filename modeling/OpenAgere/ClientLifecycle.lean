import OpenAgere.ClientTracker

/-! # Lifecycle of remote-control connections

What the app server hears of each connection: that it is opened, its messages beginning with the initialize
message, and at most once that it is closed.  `Consistent` couples the two maps of the tracker with the events
that were sent; every operation keeps it, and `lifecycle_of_run` reads the lifecycle off it after any inputs. -/

namespace OpenAgere.RemoteControl

open List Option Text Transition ClientTracker

/-! ### Traces -/

/-- The events of one connection. -/
def trace (id : ℕ) (events : List TransportEvent) : List TransportEvent := events.filter (·.connectionId = id)

/-- A connection is opened, an initialize message comes in, and then other messages. -/
def openEvents (id : ℕ) (key : ClientKey) (message : JSONRPCMessage) (seqId : Option ℕ)
    (rest : List (JSONRPCMessage × Option ℕ)) : List TransportEvent :=
  .connectionOpened id key :: .incomingMessage id message seqId :: rest.map fun m => .incomingMessage id m.1 m.2

/-- The sequence ids of the numbered messages. -/
def numbers (rest : List (JSONRPCMessage × Option ℕ)) : List ℕ := rest.filterMap (·.2)

/-- The events of an open connection; the numbers of its messages increase. -/
structure Conversation (id : ℕ) (key : ClientKey) (message : JSONRPCMessage) (seqId : Option ℕ)
    (rest : List (JSONRPCMessage × Option ℕ)) (events : List TransportEvent) : Prop where
  starts : remoteControlMessageStartsConnection message
  events_eq : events = openEvents id key message seqId rest
  increasing : (numbers rest).Pairwise (· < ·)

/-- **The lifecycle of a connection**: nothing, or a conversation that may be closed at its end. -/
def Lifecycle (id : ℕ) (events : List TransportEvent) : Prop :=
  events = [] ∨ ∃ key message seqId rest conversation, Conversation id key message seqId rest conversation ∧
    (events = conversation ∨ events = conversation ++ [.connectionClosed id])

theorem trace_append (id : ℕ) (events more : List TransportEvent) :
    trace id (events ++ more) = trace id events ++ trace id more := filter_append _ _

variable {id : ℕ}

theorem trace_append_of_ne {event : TransportEvent} (events : List TransportEvent)
    (h : event.connectionId ≠ id) : trace id (events ++ [event]) = trace id events := by
  rw [trace_append, trace, trace, filter_singleton, decide_eq_false h, cond_false, append_nil]

theorem trace_append_self (events : List TransportEvent) (event : TransportEvent) :
    trace event.connectionId (events ++ [event]) = trace event.connectionId events ++ [event] := by
  rw [trace_append, trace, trace, filter_singleton, decide_eq_true rfl, cond_true]

/-! ### The coupling -/

/-- **Maps and events agree.** -/
structure Consistent (tracker : ClientTracker) : Prop where
  /-- a remembered stream has a client -/
  legacy : ∀ clientId streamId, tracker.legacyStreamIds.get clientId = some streamId →
    ∃ client, tracker.clients.get (clientId, streamId) = some client
  distinct : ∀ {key key' client client'}, tracker.clients.get key = some client →
    tracker.clients.get key' = some client' → client.connectionId = client'.connectionId → key = key'
  ids : IdsBelow tracker
  sent : ∀ event ∈ tracker.sent, event.connectionId < tracker.nextConnectionId
  /-- the connection of a client is open, and its numbers are not above the last one -/
  opened : ∀ {key client}, tracker.clients.get key = some client → ∃ message seqId rest,
    Conversation client.connectionId key message seqId rest (trace client.connectionId tracker.sent) ∧
      ∀ n ∈ numbers rest, ∃ last, client.lastInboundSeqId = some last ∧ n ≤ last
  /-- any other connection was not opened here or is closed -/
  closed : ∀ {id}, (∀ key client, tracker.clients.get key = some client → client.connectionId ≠ id) →
    trace id tracker.sent = [] ∨ ∃ key message seqId rest conversation,
      Conversation id key message seqId rest conversation ∧
        trace id tracker.sent = conversation ++ [.connectionClosed id]

variable {tracker tracker' : ClientTracker} {ord : IterOrder ClientKey}

theorem consistent_new (nextConnectionId : ℕ) : Consistent (.new nextConnectionId) where
  legacy _ _ h := (nomatch h)
  distinct h := (nomatch h)
  ids := ⟨nofun, forall_mem_nil _⟩
  sent _ h := absurd h not_mem_nil
  opened h := (nomatch h)
  closed _ := .inl rfl

theorem consistent_takeLegacyStream (h : Consistent tracker) (envelope : ClientEnvelope) :
    Consistent (tracker.takeLegacyStream envelope) := by
  unfold takeLegacyStream
  split_ifs
  · refine ⟨fun clientId streamId hs => ?_, h.distinct, ⟨h.ids.clients, h.ids.joinSet⟩, h.sent, h.opened, h.closed⟩
    have hs : (tracker.legacyStreamIds.remove envelope.clientId).get clientId = some streamId := hs
    exact h.legacy clientId streamId (HashMap.get_remove_eq_some.mp hs).2
  · exact h

variable {key : ClientKey} {client : ClientState}

theorem legacy_closeClient (hkey : tracker.clients.get key = some client) {clientId : ClientId} {streamId : StreamId}
    (h : (tracker.closeClient key).legacyStreamIds.get clientId = some streamId) :
    tracker.legacyStreamIds.get clientId = some streamId ∧ (clientId, streamId) ≠ key := by
  unfold closeClient at h
  simp only [hkey] at h
  split_ifs at h with hnamed
  · obtain ⟨hc, h⟩ := HashMap.get_remove_eq_some.mp h
    exact ⟨h, fun he => hc (congrArg Prod.fst he)⟩
  · refine ⟨h, fun he => hnamed ?_⟩
    rw [← he]
    exact h

theorem consistent_closeClient (h : Consistent tracker) (key : ClientKey) : Consistent (tracker.closeClient key) := by
  cases hkey : tracker.clients.get key with
  | none =>
    rwa [show tracker.closeClient key = tracker by unfold closeClient; rw [hkey]]
  | some client =>
    have hget : ∀ {k c}, (tracker.closeClient key).clients.get k = some c →
        tracker.clients.get k = some c ∧ c.connectionId ≠ client.connectionId := by
      intro k c hc
      rw [get_closeClient] at hc
      split_ifs at hc with hk
      exact ⟨hc, fun hid => hk (h.distinct hc hkey hid)⟩
    have hsent : (tracker.closeClient key).sent = tracker.sent ++ [.connectionClosed client.connectionId] := by
      rw [sent_closeClient, hkey]
      rfl
    have hid := h.ids.clients key client hkey
    refine ⟨fun clientId streamId hs => ?_, fun hc hc' => h.distinct (hget hc).1 (hget hc').1,
      idsBelow_of_kept (kept_closeClient tracker key) h.ids, ?_, ?_, ?_⟩
    · obtain ⟨hs, hne⟩ := legacy_closeClient hkey hs
      obtain ⟨c, hc⟩ := h.legacy clientId streamId hs
      exact ⟨c, by rw [get_closeClient, if_neg hne]; exact hc⟩
    · rw [hsent, nextConnectionId_closeClient]
      intro event he
      obtain he | he := mem_append.mp he
      · exact h.sent event he
      · rw [mem_singleton.mp he]
        exact hid
    · intro k c hc
      obtain ⟨hc, hne⟩ := hget hc
      have hne : (TransportEvent.connectionClosed client.connectionId).connectionId ≠ c.connectionId := hne.symm
      rw [hsent, trace_append_of_ne _ hne]
      exact h.opened hc
    · intro id hid
      rw [hsent]
      by_cases he : id = client.connectionId
      · subst he
        obtain ⟨message, seqId, rest, hconv, _⟩ := h.opened hkey
        exact .inr ⟨key, message, seqId, rest, _, hconv, trace_append_self tracker.sent (.connectionClosed _)⟩
      · have hne : (TransportEvent.connectionClosed client.connectionId).connectionId ≠ id := Ne.symm he
        rw [trace_append_of_ne _ hne]
        refine h.closed fun k c hc hcid => ?_
        by_cases hk : k = key
        · rw [hk, hkey] at hc
          exact he (hcid ▸ congrArg ClientState.connectionId (some.inj hc).symm)
        · exact hid k c (by rw [get_closeClient, if_neg hk]; exact hc) hcid

theorem consistent_closeClients : ∀ {keys : List ClientKey} {tracker : ClientTracker}, Consistent tracker →
    Consistent (tracker.closeClients keys)
  | [], _, h => h
  | key :: keys, tracker, h => by
    show Consistent ((tracker.closeClient key).closeClients keys)
    exact consistent_closeClients (consistent_closeClient h key)

/-- A client changes, but not its connection, and the events change for this connection only. -/
theorem consistent_modify (h : Consistent tracker) {f : ClientState → ClientState}
    {sent : List TransportEvent} (hf : ∀ client, (f client).connectionId = client.connectionId)
    (hsent : ∀ event ∈ sent, event.connectionId < tracker.nextConnectionId)
    (hothers : ∀ id, (∀ client, tracker.clients.get key = some client → client.connectionId ≠ id) →
      trace id sent = trace id tracker.sent)
    (hkey : ∀ client, tracker.clients.get key = some client → ∃ message seqId rest,
      Conversation client.connectionId key message seqId rest (trace client.connectionId sent) ∧
        ∀ n ∈ numbers rest, ∃ last, (f client).lastInboundSeqId = some last ∧ n ≤ last) :
    Consistent { tracker with clients := tracker.clients.modify key f, sent := sent } := by
  have hid : ∀ {k c₀}, (if k = key then f c₀ else c₀).connectionId = c₀.connectionId := by
    intro k c₀
    split_ifs
    · exact hf c₀
    · rfl
  have hkept : Kept tracker { tracker with clients := tracker.clients.modify key f, sent := sent } :=
    kept_modify hf tracker key
  refine ⟨fun clientId streamId hs => ?_, fun {k k' c c'} hc hc' he => ?_, idsBelow_of_kept hkept h.ids, hsent,
    fun {k c} hc => ?_, fun {id} hno => ?_⟩
  · obtain ⟨c₀, hc₀⟩ := h.legacy clientId streamId hs
    exact ⟨_, HashMap.get_modify_eq_some.mpr ⟨c₀, hc₀, rfl⟩⟩
  · obtain ⟨c₀, hc₀, rfl⟩ := HashMap.get_modify_eq_some.mp hc
    obtain ⟨c₁, hc₁, rfl⟩ := HashMap.get_modify_eq_some.mp hc'
    rw [hid, hid] at he
    exact h.distinct hc₀ hc₁ he
  · obtain ⟨c₀, hc₀, rfl⟩ := HashMap.get_modify_eq_some.mp hc
    rw [hid]
    split_ifs with hk
    · exact hk ▸ hkey c₀ (hk ▸ hc₀)
    · rw [hothers c₀.connectionId fun client hclient he => hk (h.distinct hc₀ hclient he.symm)]
      exact h.opened hc₀
  · have hno' : ∀ k c, tracker.clients.get k = some c → c.connectionId ≠ id := by
      intro k c hc
      rw [← hid (k := k)]
      exact hno k _ (HashMap.get_modify_eq_some.mpr ⟨c, hc, rfl⟩)
    rw [hothers id fun client hclient => hno' key client hclient]
    exact h.closed hno'

theorem consistent_touch (h : Consistent tracker) (key : ClientKey) (now : ℕ) : Consistent (tracker.touch key now) := by
  refine consistent_modify h ?_ h.sent (fun _ _ => rfl) ?_
  · exact fun _ => rfl
  · exact fun client hclient => h.opened hclient

variable {seqId : Option ℕ}

/-- A message that is not repeated is numbered above those before it. -/
theorem numbers_of_not_repeated (hnew : isRepeated client seqId = false)
    {rest : List (JSONRPCMessage × Option ℕ)} (hinc : (numbers rest).Pairwise (· < ·))
    (hlast : ∀ n ∈ numbers rest, ∃ last, client.lastInboundSeqId = some last ∧ n ≤ last) (message : JSONRPCMessage) :
    (numbers (rest ++ [(message, seqId)])).Pairwise (· < ·) ∧ ∀ n ∈ numbers (rest ++ [(message, seqId)]),
      ∃ last, seqId.or client.lastInboundSeqId = some last ∧ n ≤ last := by
  have happend : numbers (rest ++ [(message, seqId)]) = numbers rest ++ seqId.toList := by
    unfold numbers
    rw [filterMap_append]
    cases seqId <;> rfl
  rw [happend]
  cases seqId with
  | none =>
    rw [toList_none, append_nil]
    exact ⟨hinc, hlast⟩
  | some seqId =>
    have hlt : ∀ n ∈ numbers rest, n < seqId := by
      intro n hn
      obtain ⟨last, hl, hle⟩ := hlast n hn
      rw [isRepeated, hl, any_some, decide_eq_false_iff_not] at hnew
      omega
    constructor
    · rw [toList_some, pairwise_append]
      exact ⟨hinc, pairwise_singleton _ _, fun n hn m hm => mem_singleton.mp hm ▸ hlt n hn⟩
    · intro n hn
      refine ⟨seqId, rfl, ?_⟩
      obtain hn | hn := mem_append.mp hn
      · exact (hlt n hn).le
      · exact (mem_singleton.mp hn).le

variable {message : JSONRPCMessage}

theorem consistent_deliver (h : Consistent tracker) (hkey : tracker.clients.get key = some client)
    (hnew : isRepeated client seqId = false) (now : ℕ) :
    Consistent (tracker.deliver key client message seqId now) := by
  refine consistent_modify h ?_ ?_ ?_ ?_
  · exact fun _ => rfl
  · intro event he
    obtain he | he := mem_append.mp he
    · exact h.sent event he
    · rw [mem_singleton.mp he]
      exact h.ids.clients key client hkey
  · exact fun id hid => trace_append_of_ne _ (hid client hkey)
  · intro c hc
    obtain rfl := mem_unique hkey hc
    obtain ⟨first, firstSeq, rest, hconv, hlast⟩ := h.opened hkey
    obtain ⟨hinc, hlast⟩ := numbers_of_not_repeated hnew hconv.increasing hlast message
    refine ⟨first, firstSeq, rest ++ [(message, seqId)], ⟨hconv.starts, ?_, hinc⟩, hlast⟩
    have htrace := trace_append_self tracker.sent (.incomingMessage client.connectionId message seqId)
    rw [TransportEvent.connectionId, hconv.events_eq] at htrace
    rw [htrace]
    simp [openEvents]

section Opening

variable {key : ClientKey} {message : JSONRPCMessage} {seqId : Option ℕ} {isLegacy : Bool} {now : ℕ}

theorem sent_openClient : (tracker.openClient key message seqId isLegacy now).sent = tracker.sent ++
    [.connectionOpened tracker.nextConnectionId key] ++ [.incomingMessage tracker.nextConnectionId message seqId] := by
  simp [openClient]

theorem trace_openClient_of_ne {id : ℕ} (hne : id ≠ tracker.nextConnectionId) :
    trace id (tracker.openClient key message seqId isLegacy now).sent = trace id tracker.sent := by
  have hopened : (TransportEvent.connectionOpened tracker.nextConnectionId key).connectionId ≠ id := hne.symm
  have hmessage : (TransportEvent.incomingMessage tracker.nextConnectionId message seqId).connectionId ≠ id := hne.symm
  rw [sent_openClient, trace_append_of_ne _ hmessage, trace_append_of_ne _ hopened]

theorem trace_openClient_self (h : Consistent tracker) :
    trace tracker.nextConnectionId (tracker.openClient key message seqId isLegacy now).sent =
      openEvents tracker.nextConnectionId key message seqId [] := by
  have hfresh : trace tracker.nextConnectionId tracker.sent = [] := by
    refine filter_eq_nil_iff.mpr fun event he => ?_
    simpa using (h.sent event he).ne
  have hopened : trace tracker.nextConnectionId (tracker.sent ++ [.connectionOpened tracker.nextConnectionId key]) = _ :=
    trace_append_self tracker.sent (.connectionOpened tracker.nextConnectionId key)
  have hmessage : trace tracker.nextConnectionId _ = _ :=
    trace_append_self (tracker.sent ++ [.connectionOpened tracker.nextConnectionId key])
      (.incomingMessage tracker.nextConnectionId message seqId)
  rw [sent_openClient, hmessage]
  show trace tracker.nextConnectionId _ ++ _ = _
  rw [hopened]
  show trace tracker.nextConnectionId _ ++ _ ++ _ = _
  rw [hfresh]
  rfl

theorem legacy_openClient {clientId : ClientId} {streamId : StreamId} (hne : (clientId, streamId) ≠ key)
    (h : (tracker.openClient key message seqId isLegacy now).legacyStreamIds.get clientId = some streamId) :
    tracker.legacyStreamIds.get clientId = some streamId := by
  unfold openClient at h
  simp only at h
  split_ifs at h
  · rw [HashMap.get_insert] at h
    split_ifs at h with hclient
    · exact absurd (Prod.ext hclient (some.inj h).symm) hne
    · exact h
  · exact h

/-- A client is the new one, with the new connection, or was there before with an older one. -/
theorem client_openClient (h : Consistent tracker) {k : ClientKey} {c : ClientState}
    (hc : (tracker.openClient key message seqId isLegacy now).clients.get k = some c) :
    (k = key ∧ c.connectionId = tracker.nextConnectionId) ∨
      k ≠ key ∧ tracker.clients.get k = some c ∧ c.connectionId < tracker.nextConnectionId := by
  rw [get_openClient] at hc
  by_cases hk : k = key
  · rw [if_pos hk] at hc
    exact .inl ⟨hk, congrArg ClientState.connectionId (some.inj hc).symm⟩
  · rw [if_neg hk] at hc
    exact .inr ⟨hk, hc, h.ids.clients k c hc⟩

end Opening

theorem consistent_openClient (h : Consistent tracker) (hkey : tracker.clients.get key = none)
    (hm : remoteControlMessageStartsConnection message) (seqId : Option ℕ)
    (isLegacy : Bool) (now : ℕ) : Consistent (tracker.openClient key message seqId isLegacy now) := by
  refine ⟨fun clientId streamId hs => ?_, fun {k k' c c'} hc hc' he => ?_, idsBelow_openClient h.ids .., ?_,
    fun {k c} hc => ?_, fun {id} hno => ?_⟩
  · by_cases hk : (clientId, streamId) = key
    · exact ⟨_, by rw [get_openClient, if_pos hk]⟩
    · obtain ⟨c, hc⟩ := h.legacy clientId streamId (legacy_openClient hk hs)
      exact ⟨c, by rw [get_openClient, if_neg hk]; exact hc⟩
  · obtain ⟨rfl, hid⟩ | ⟨hk, hold, hlt⟩ := client_openClient h hc <;>
      obtain ⟨rfl, hid'⟩ | ⟨hk', hold', hlt'⟩ := client_openClient h hc'
    · rfl
    · exact absurd (hid.symm.trans he) hlt'.ne'
    · exact absurd (he.trans hid') hlt.ne
    · exact h.distinct hold hold' he
  · intro event he
    rw [sent_openClient] at he
    simp only [mem_append, mem_singleton] at he
    obtain (he | rfl) | rfl := he
    · exact (h.sent event he).trans (Nat.lt_succ_self _)
    · exact Nat.lt_succ_self _
    · exact Nat.lt_succ_self _
  · obtain ⟨rfl, hid⟩ | ⟨_, hold, hlt⟩ := client_openClient h hc
    · rw [hid]
      refine ⟨message, seqId, [], ⟨hm, trace_openClient_self h, List.Pairwise.nil⟩, ?_⟩
      exact forall_mem_nil _
    · rw [trace_openClient_of_ne hlt.ne]
      exact h.opened hold
  · have hne : id ≠ tracker.nextConnectionId := by
      rintro rfl
      exact hno key _ ((get_openClient ..).trans (if_pos rfl)) rfl
    rw [trace_openClient_of_ne hne]
    refine h.closed fun k c hc => hno k c ?_
    rw [get_openClient, if_neg]
    · exact hc
    · rintro rfl
      exact nomatch hkey.symm.trans hc

/-! ### Inputs -/

theorem consistent_handleMessage (h : Consistent tracker) (envelope : ClientEnvelope) (random : StreamId) (now : ℕ) :
    Consistent (tracker.handleMessage envelope random now) := by
  have hlegacy := consistent_takeLegacyStream h envelope
  unfold handleMessage
  simp only
  split_ifs
  · exact hlegacy
  · split
    · next message he =>
        unfold handleClientMessage
        split_ifs with hm
        · exact consistent_openClient (consistent_closeClient hlegacy _)
            ((get_closeClient ..).trans (if_pos rfl)) hm _ _ _
        · split
          · exact hlegacy
          · next client hclient =>
              split_ifs with hrep
              · exact hlegacy
              · exact consistent_deliver hlegacy hclient (Bool.not_eq_true _ ▸ hrep) now
    · exact hlegacy
    · exact consistent_touch hlegacy _ _
    · exact consistent_closeClient hlegacy _

theorem Consistent.withJoinSet {joinSet : List (ℕ × ClientKey)} (h : Consistent tracker)
    (hj : ∀ task ∈ joinSet, task ∈ tracker.joinSet) : Consistent { tracker with joinSet := joinSet } :=
  ⟨h.legacy, h.distinct, ⟨h.ids.clients, fun task ht => h.ids.joinSet task (hj task ht)⟩, h.sent, h.opened, h.closed⟩

/-- **One input.** -/
theorem consistent_next {input : Input} (h : Consistent tracker) (hn : next ord tracker input = some tracker') :
    Consistent tracker' := by
  cases input with
  | envelope envelope random now =>
    obtain rfl := some.inj hn
    exact consistent_handleMessage h envelope random now
  | sweep now =>
    obtain rfl := some.inj hn
    exact consistent_closeClients h
  | collect task =>
    obtain ⟨ended, _, rfl⟩ := map_eq_some_iff.mp hn
    exact consistent_closeClient (h.withJoinSet fun _ ht => mem_of_mem_eraseIdx ht) ended.2
  | skip task =>
    obtain ⟨_, _, rfl⟩ := map_eq_some_iff.mp hn
    exact h.withJoinSet fun _ ht => mem_of_mem_eraseIdx ht
  | takeConnectionId =>
    obtain rfl := some.inj hn
    have hlt : ∀ {n}, n < tracker.nextConnectionId → n < tracker.nextConnectionId + 1 := fun h => h.trans (Nat.lt_succ_self _)
    exact ⟨h.legacy, h.distinct, ⟨fun k c hc => hlt (h.ids.clients k c hc), fun task ht => hlt (h.ids.joinSet task ht)⟩,
      fun event he => hlt (h.sent event he), h.opened, h.closed⟩
  | shutdown =>
    obtain rfl := some.inj hn
    exact (consistent_closeClients h).withJoinSet fun _ ht => absurd ht not_mem_nil

theorem get_of_opened (h : Consistent tracker)
    (ho : .connectionOpened id key ∈ tracker.sent) (hc : .connectionClosed id ∉ tracker.sent) :
    ∃ client, tracker.clients.get key = some client ∧ client.connectionId = id := by
  have hmem : .connectionOpened id key ∈ trace id tracker.sent := mem_filter.mpr ⟨ho, decide_eq_true rfl⟩
  by_cases hid : ∃ k client, tracker.clients.get k = some client ∧ client.connectionId = id
  · obtain ⟨k, client, hclient, rfl⟩ := hid
    obtain ⟨message, seqId, rest, hconv, _⟩ := h.opened hclient
    rw [hconv.events_eq] at hmem
    have hk : key = k := by simpa [openEvents] using hmem
    exact ⟨client, hk ▸ hclient, rfl⟩
  · obtain hnil | ⟨_, _, _, _, conversation, _, he⟩ := h.closed fun k client hclient he => hid ⟨k, client, hclient, he⟩
    · rw [hnil] at hmem
      exact absurd hmem not_mem_nil
    · have hclosed : .connectionClosed id ∈ trace id tracker.sent := by
        rw [he]
        exact mem_append_right _ (mem_singleton.mpr rfl)
      exact absurd (mem_filter.mp hclosed).1 hc

/-- **Lifecycles in every run**: each connection has one, each key has at most one open connection, and a
remembered stream has a client. -/
theorem lifecycle_of_run {nextConnectionId : ℕ} {inputs : List Input}
    (hrun : run (next ord) (.new nextConnectionId) inputs = some tracker) :
    (∀ id, Lifecycle id (trace id tracker.sent)) ∧
    (∀ id id' key, .connectionOpened id key ∈ tracker.sent → .connectionOpened id' key ∈ tracker.sent →
      .connectionClosed id ∉ tracker.sent → .connectionClosed id' ∉ tracker.sent → id = id') ∧
    ∀ clientId streamId, tracker.legacyStreamIds.get clientId = some streamId →
      tracker.clients.containsKey (clientId, streamId) := by
  have h : Consistent tracker := run_inv (fun _ _ _ h hn => consistent_next h hn) (consistent_new _) hrun
  refine ⟨fun id => ?_, fun id id' key ho ho' hc hc' => ?_, fun clientId streamId hs => ?_⟩
  · by_cases hid : ∃ key client, tracker.clients.get key = some client ∧ client.connectionId = id
    · obtain ⟨key, client, hc, rfl⟩ := hid
      obtain ⟨message, seqId, rest, hconv, _⟩ := h.opened hc
      exact .inr ⟨key, message, seqId, rest, _, hconv, .inl rfl⟩
    · obtain hnil | ⟨key, message, seqId, rest, conversation, hconv, he⟩ :=
        h.closed fun key client hc he => hid ⟨key, client, hc, he⟩
      · exact .inl hnil
      · exact .inr ⟨key, message, seqId, rest, conversation, hconv, .inr he⟩
  · obtain ⟨client, hclient, rfl⟩ := get_of_opened h ho hc
    obtain ⟨client', hclient', rfl⟩ := get_of_opened h ho' hc'
    rw [mem_unique hclient hclient']
  · obtain ⟨client, hclient⟩ := h.legacy clientId streamId hs
    rw [← HashMap.get_isSome, hclient]
    rfl

theorem lifecycle_reinitialized : ∃ tracker, run (next (.inOrder _)) (.new 0) reinitialized = some tracker ∧
    (trace 0 tracker.sent).length = 3 ∧ Lifecycle 0 (trace 0 tracker.sent) ∧ Lifecycle 1 (trace 1 tracker.sent) := by
  obtain ⟨tracker, ht, hlen⟩ : ∃ tracker ∈ run (next (.inOrder _)) (.new 0) reinitialized,
      (trace 0 tracker.sent).length = 3 := by decide +kernel
  obtain ⟨hlife, _, _⟩ := lifecycle_of_run ht
  exact ⟨tracker, ht, hlen, hlife 0, hlife 1⟩

end OpenAgere.RemoteControl
