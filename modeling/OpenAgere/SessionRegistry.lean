import OpenAgere.HashMap
import OpenAgere.Text
import OpenAgere.Transition

/-! # The session registry of the exec server

`exec-server/src/server/session_registry.rs`: sessions outlive the connections that use them.  A connection
attaches to a new session or to a detached one, and a session that stays detached is removed after a while.
The calls are a pool of tasks, cut at their accesses to the table of sessions, to the attachment of a session
and to the sender in its process handler; a call of `attach` makes several of them while it holds the lock of
the table.

`SessionHandle::detach` clears the attachment and the sender in two steps, outside the lock.  A connection
that attaches in between loses its sender; in all other runs the sender is that of the attached connection
(`agreement_of_meets`). -/

namespace OpenAgere.SessionRegistry

open List Option Transition

/-! ### Entries -/

/-- A `Uuid`; `Uuid::new_v4` is taken to return one that was not in use. -/
abbrev ConnectionId := ℕ

/-- Ten seconds, in the nanoseconds of `Instant`. -/
def detachedSessionTtl : ℕ := 10 * 10 ^ 9

structure AttachmentState where
  currentConnectionId : Option ConnectionId
  detachedConnectionId : Option ConnectionId
  detachedExpiresAt : Option ℕ
deriving DecidableEq, Repr

structure SessionEntry where
  sessionId : Str
  -- the sender in the process handler
  notifications : Option ℕ
  -- the process handler was shut down
  isShutDown : Bool
  attachment : AttachmentState
  -- history: the connections that have attached and not detached
  attached : List ConnectionId
  -- history: when the session was last detached, unless a connection has attached since
  detachedAt : Option ℕ
deriving DecidableEq, Repr

namespace SessionEntry

def new (sessionId : Str) (notifications : ℕ) (connectionId : ConnectionId) : SessionEntry where
  sessionId := sessionId
  notifications := some notifications
  isShutDown := false
  attachment := ⟨some connectionId, none, none⟩
  attached := [connectionId]
  detachedAt := none

def attach (entry : SessionEntry) (connectionId : ConnectionId) : SessionEntry :=
  { entry with
    attachment := ⟨some connectionId, none, none⟩
    attached := entry.attached ++ [connectionId]
    detachedAt := none }

def detach (entry : SessionEntry) (connectionId : ConnectionId) (now : ℕ) : Bool × SessionEntry :=
  if entry.attachment.currentConnectionId ≠ some connectionId then (false, entry)
  else (true, { entry with
    attachment := ⟨none, some connectionId, some (now + detachedSessionTtl)⟩
    attached := entry.attached.erase connectionId
    detachedAt := some now })

def hasActiveConnection (entry : SessionEntry) : Bool := entry.attachment.currentConnectionId.isSome

def isExpired (entry : SessionEntry) (now : ℕ) : Bool :=
  match entry.attachment.detachedExpiresAt with
  | some deadline => deadline ≤ now
  | none => false

def isDetachedConnectionExpired (entry : SessionEntry) (connectionId : ConnectionId) (now : ℕ) : Bool :=
  entry.attachment.currentConnectionId.isNone && entry.attachment.detachedConnectionId == some connectionId &&
    entry.isExpired now

/-- `set_notification_sender` of the process handler. -/
def setNotificationSender (entry : SessionEntry) (notifications : Option ℕ) : SessionEntry :=
  { entry with notifications := notifications }

def shutdown (entry : SessionEntry) : SessionEntry := { entry with isShutDown := true }

end SessionEntry

/-! ### The calls -/

/-- How far a call of `attach` is that holds the lock of the table. -/
inductive GuardPhase where
  -- it has found a session that is not expired
  | found
  -- the session has no active connection
  | inactive
  -- the sender is installed
  | installed
deriving DecidableEq, Repr

/-- The lock of the table and the call that holds it. -/
structure Guard where
  phase : GuardPhase
  entry : ℕ
  connectionId : ConnectionId
  notifications : ℕ
deriving DecidableEq, Repr

/-- What the calls share.  Entries are behind an `Arc` and outlive their place in the table. -/
structure Registry where
  sessions : HashMap Str ℕ
  entries : List SessionEntry
  guard : Option Guard
  now : ℕ
  -- history: the senders of the connections
  connections : HashMap ConnectionId ℕ

def Registry.setEntry (s : Registry) (index : ℕ) (entry : SessionEntry) : Registry :=
  { s with entries := s.entries.set index entry }

inductive AttachPc where
  | start
  -- before the lock of the table
  | locking (connectionId : ConnectionId)
  -- with the lock
  | holding
  -- before `shutdown` of an expired session
  | shuttingDown (entry : ℕ)
  | done (result : Except Str (ℕ × ConnectionId))

inductive DetachPc where
  | start
  -- before `set_notification_sender(None)`
  | clearing
  | done
deriving DecidableEq

inductive ExpirePc where
  | start
  | sleeping (wakeAt : ℕ)
  | shuttingDown (entry : ℕ)
  | done

inductive Task where
  | clock
  | attach (resumeSessionId : Option Str) (notifications : ℕ) (pc : AttachPc)
  | detach (entry : ℕ) (connectionId : ConnectionId) (pc : DetachPc)
  | expire (sessionId : Str) (connectionId : ConnectionId) (pc : ExpirePc)

inductive Answer where
  | go
  | connectionId (id : ConnectionId)
  | sessionId (id : Str)
  | elapsed (time : ℕ)

def unknownSession (sessionId : Str) : Str := "unknown session id " ++ sessionId

def alreadyAttached (sessionId : Str) : Str :=
  "session " ++ sessionId ++ " is already attached to another connection"

/-- `attach` with the lock just taken. -/
def Registry.resume (s : Registry) (sessionId : Str) (connectionId : ConnectionId) (notifications : ℕ) :
    Option (Registry × AttachPc) :=
  match s.sessions.get sessionId with
  | none => some (s, .done (.error (unknownSession sessionId)))
  | some index =>
      s.entries[index]?.map fun entry =>
        if entry.isExpired s.now then
          ({ s with sessions := s.sessions.remove sessionId }, .shuttingDown index)
        else ({ s with guard := some ⟨.found, index, connectionId, notifications⟩ }, .holding)

/-- `attach` while it holds the lock. -/
def Registry.hold (s : Registry) (sessionId : Str) (guard : Guard) : Option (Registry × AttachPc) :=
  s.entries[guard.entry]?.map fun entry =>
    match guard.phase with
    | .found =>
        if entry.hasActiveConnection then ({ s with guard := none }, .done (.error (alreadyAttached sessionId)))
        else ({ s with guard := some { guard with phase := .inactive } }, .holding)
    | .inactive =>
        ({ s.setEntry guard.entry (entry.setNotificationSender (some guard.notifications)) with
            guard := some { guard with phase := .installed } }, .holding)
    | .installed =>
        ({ s.setEntry guard.entry (entry.attach guard.connectionId) with guard := none },
          .done (.ok (guard.entry, guard.connectionId)))

/-- `attach` takes the lock when it is free; a new session is in the table when it is released. -/
def Registry.lockStep (s : Registry) (resumeSessionId : Option Str) (notifications : ℕ) (connectionId : ConnectionId)
    (answer : Answer) : Option (Registry × AttachPc) :=
  match s.guard, resumeSessionId, answer with
  | none, some sessionId, .go => s.resume sessionId connectionId notifications
  | none, none, .sessionId sessionId =>
      if s.entries.any fun entry => entry.sessionId == sessionId then none
      else some ({ s with
        sessions := s.sessions.insert sessionId s.entries.length
        entries := s.entries ++ [.new sessionId notifications connectionId] },
        .done (.ok (s.entries.length, connectionId)))
  | _, _, _ => none

def Registry.attachStep (s : Registry) (resumeSessionId : Option Str) (notifications : ℕ) :
    AttachPc → Answer → Option (Registry × AttachPc)
  | .start, .connectionId id =>
      if s.connections.containsKey id then none
      else some ({ s with connections := s.connections.insert id notifications }, .locking id)
  | .locking connectionId, answer => s.lockStep resumeSessionId notifications connectionId answer
  | .holding, .go => s.guard.bind (s.hold (resumeSessionId.getD []))
  | .shuttingDown index, .go =>
      s.entries[index]?.map fun entry =>
        (s.setEntry index entry.shutdown, .done (.error (unknownSession (resumeSessionId.getD []))))
  | _, _ => none

/-- `SessionHandle::detach`; the call of `expire_if_detached` that it spawns is a task of its own. -/
def Registry.detachStep (s : Registry) (index : ℕ) (connectionId : ConnectionId) :
    DetachPc → Option (Registry × DetachPc)
  | .start =>
      s.entries[index]?.map fun entry =>
        let detached := entry.detach connectionId s.now
        (s.setEntry index detached.2, if detached.1 then .clearing else .done)
  | .clearing =>
      s.entries[index]?.map fun entry => (s.setEntry index (entry.setNotificationSender none), .done)
  | .done => none

def Registry.expireStep (s : Registry) (sessionId : Str) (connectionId : ConnectionId) :
    ExpirePc → Option (Registry × ExpirePc)
  | .start => some (s, .sleeping (s.now + detachedSessionTtl))
  | .sleeping wakeAt =>
      if wakeAt ≤ s.now ∧ s.guard = none then
        match s.sessions.get sessionId with
        | none => some (s, .done)
        | some index =>
            s.entries[index]?.map fun entry =>
              if entry.isDetachedConnectionExpired connectionId s.now then
                ({ s with sessions := s.sessions.remove sessionId }, .shuttingDown index)
              else (s, .done)
      else none
  | .shuttingDown index => s.entries[index]?.map fun entry => (s.setEntry index entry.shutdown, .done)
  | .done => none

def step (s : Registry) : Task → Answer → Option (Registry × Task)
  | .clock, .elapsed time => some ({ s with now := s.now + time }, .clock)
  | .attach resumeSessionId notifications pc, answer =>
      (s.attachStep resumeSessionId notifications pc answer).map fun r =>
        (r.1, .attach resumeSessionId notifications r.2)
  | .detach index connectionId pc, .go =>
      (s.detachStep index connectionId pc).map fun r => (r.1, .detach index connectionId r.2)
  | .expire sessionId connectionId pc, .go =>
      (s.expireStep sessionId connectionId pc).map fun r => (r.1, .expire sessionId connectionId r.2)
  | _, _ => none

inductive Call where
  | attach (resumeSessionId : Option Str) (notifications : ℕ)
  | detach (entry : ℕ) (connectionId : ConnectionId)
  | expire (sessionId : Str) (connectionId : ConnectionId)

def start : Call → Task
  | .attach resumeSessionId notifications => .attach resumeSessionId notifications .start
  | .detach entry connectionId => .detach entry connectionId .start
  | .expire sessionId connectionId => .expire sessionId connectionId .start

abbrev RegistryPool := Pool Registry Task

abbrev RegistryEvent := Pool.Event Call Answer

def next : RegistryPool → RegistryEvent → Option RegistryPool := Pool.next start step

def newRegistry : RegistryPool := ⟨⟨HashMap.empty, [], none, 0, HashMap.empty⟩, [.clock]⟩

/-! ### One session -/

open Registry

/-- What matters to one session. -/
structure View where
  entry : SessionEntry
  registered : Bool
  -- the call of `attach` that holds the lock for this session, with its connection and sender
  holder : Option (GuardPhase × ConnectionId × ℕ)
  -- the number of calls of `detach` that are going to clear the sender
  clearing : ℕ
  now : ℕ
  senderOf : ConnectionId → Option ℕ

/-- What a step does to a session. -/
inductive View.Effect : View → View → Prop
  | quiet {v v' : View} (entry : v'.entry = v.entry) (registered : v'.registered = v.registered)
      (holder : v'.holder = v.holder) (clearing : v'.clearing = v.clearing) (now : v.now ≤ v'.now)
      (senders : ∀ c n, v.senderOf c = some n → v'.senderOf c = some n) : Effect v v'
  | find {v : View} {c : ConnectionId} {n : ℕ} (free : v.holder = none) (registered : v.registered)
      (sender : v.senderOf c = some n) : Effect v { v with holder := some (.found, c, n) }
  | refuse {v : View} {c : ConnectionId} {n : ℕ} (holder : v.holder = some (.found, c, n)) :
      Effect v { v with holder := none }
  | inactive {v : View} {c : ConnectionId} {n : ℕ} (holder : v.holder = some (.found, c, n))
      (idle : v.entry.hasActiveConnection = false) : Effect v { v with holder := some (.inactive, c, n) }
  | install {v : View} {c : ConnectionId} {n : ℕ} (holder : v.holder = some (.inactive, c, n)) :
      Effect v { v with
        entry := v.entry.setNotificationSender (some n)
        holder := some (.installed, c, n) }
  | attach {v : View} {c : ConnectionId} {n : ℕ} (holder : v.holder = some (.installed, c, n)) :
      Effect v { v with entry := v.entry.attach c, holder := none }
  | detach {v : View} {c : ConnectionId} (current : v.entry.attachment.currentConnectionId = some c) :
      Effect v { v with entry := (v.entry.detach c v.now).2, clearing := v.clearing + 1 }
  | clear {v : View} {clearing : ℕ} (count : v.clearing = clearing + 1)
      (idle : v.entry.attachment.currentConnectionId = none) (holder : ∀ c n, v.holder ≠ some (.installed, c, n)) :
      Effect v { v with entry := v.entry.setNotificationSender none, clearing := clearing }
  | expire {v : View} (holder : v.holder = none) (expired : v.entry.isExpired v.now) :
      Effect v { v with registered := false }
  | shutdown {v : View} (removed : v.registered = false) : Effect v { v with entry := v.entry.shutdown }

theorem View.Effect.of_eq {v v' v'' : View} (h : View.Effect v v') (heq : v'' = v') : View.Effect v v'' := heq ▸ h

/-- What holds of a session at all times. -/
structure View.Sound (v : View) : Prop where
  attached : v.entry.attached = v.entry.attachment.currentConnectionId.toList
  -- the sender is that of the attached connection
  sender : ∀ c, v.entry.attachment.currentConnectionId = some c →
    ∃ n, v.senderOf c = some n ∧ v.entry.notifications = some n
  -- without an attached connection there is no sender, except while one is installed or to be cleared
  absent : v.entry.attachment.currentConnectionId = none → (∀ c n, v.holder ≠ some (.installed, c, n)) →
    v.clearing = 0 → v.entry.notifications = none
  -- the session for which the lock is held stays in the table
  held : ∀ phase c n, v.holder = some (phase, c, n) → v.registered ∧ v.senderOf c = some n
  -- and no other connection attaches to it
  idle : ∀ phase c n, v.holder = some (phase, c, n) → phase ≠ .found → v.entry.attachment.currentConnectionId = none
  installed : ∀ c n, v.holder = some (.installed, c, n) → v.entry.notifications = some n
  active : v.entry.attachment.currentConnectionId.isSome → v.entry.attachment.detachedExpiresAt = none
  detached : v.entry.attachment.currentConnectionId = none → ∃ t, v.entry.detachedAt = some t ∧
    v.entry.attachment.detachedExpiresAt = some (t + detachedSessionTtl)
  -- only a session that was detached long enough is removed
  removed : v.registered = false → v.entry.attachment.currentConnectionId = none ∧
    ∃ t, v.entry.detachedAt = some t ∧ t + detachedSessionTtl ≤ v.now
  shutDown : v.entry.isShutDown → v.registered = false

section Views

variable {v v' : View}

theorem View.Sound.of_isExpired (h : v.Sound) (he : v.entry.isExpired v.now) :
    v.entry.attachment.currentConnectionId = none ∧
      ∃ t, v.entry.detachedAt = some t ∧ t + detachedSessionTtl ≤ v.now := by
  unfold SessionEntry.isExpired at he
  cases hcurrent : v.entry.attachment.currentConnectionId with
  | some c =>
    rw [h.active (by rw [hcurrent]; rfl)] at he
    exact nomatch he
  | none =>
    obtain ⟨t, hat, hexpires⟩ := h.detached hcurrent
    rw [hexpires] at he
    exact ⟨rfl, t, hat, of_decide_eq_true he⟩

variable {c : ConnectionId}

theorem View.Sound.attach {n : ℕ} (h : v.Sound) (holder : v.holder = some (.installed, c, n)) :
    View.Sound { v with entry := v.entry.attach c, holder := none } := by
  have hidle := h.idle _ c n holder (by decide)
  have hattached := h.attached
  rw [hidle] at hattached
  obtain ⟨hregistered, hsender⟩ := h.held _ c n holder
  refine
    { attached := ?_
      sender := fun c' hc => ?_
      absent := (nomatch ·)
      held := fun _ _ _ => (nomatch ·)
      idle := fun _ _ _ => (nomatch ·)
      installed := fun _ _ => (nomatch ·)
      active := fun _ => rfl
      detached := (nomatch ·)
      removed := fun hremoved => nomatch hremoved.symm.trans hregistered
      shutDown := h.shutDown }
  · show v.entry.attached ++ [c] = [c]
    rw [hattached]
    rfl
  · obtain rfl := some.inj hc
    exact ⟨n, hsender, h.installed c n holder⟩

theorem View.Sound.detach (h : v.Sound) (current : v.entry.attachment.currentConnectionId = some c) :
    View.Sound { v with entry := (v.entry.detach c v.now).2, clearing := v.clearing + 1 } := by
  have hentry : (v.entry.detach c v.now).2 = { v.entry with
      attachment := ⟨none, some c, some (v.now + detachedSessionTtl)⟩
      attached := v.entry.attached.erase c
      detachedAt := some v.now } := by
    rw [SessionEntry.detach, if_neg (not_not.mpr current)]
  have hattached := h.attached
  rw [current] at hattached
  rw [hentry]
  refine
    { attached := ?_
      sender := fun _ => (nomatch ·)
      absent := fun _ _ => (nomatch ·)
      held := h.held
      idle := fun _ _ _ _ _ => rfl
      installed := h.installed
      active := (nomatch ·)
      detached := fun _ => ⟨v.now, rfl, rfl⟩
      removed := fun hremoved => ?_
      shutDown := h.shutDown }
  · rw [hattached]
    exact erase_cons_head ..
  · exact nomatch current.symm.trans (h.removed hremoved).1

/-- **One step.** -/
theorem View.Sound.effect (h : v.Sound) (he : View.Effect v v') : v'.Sound := by
  cases he with
  | quiet entry registered holder clearing now senders =>
    obtain ⟨entry', registered', holder', clearing', now', senderOf'⟩ := v'
    subst entry registered holder clearing
    refine { h with
      sender := fun c hc => ?_
      held := fun phase c n hholder => ?_
      removed := fun hremoved => ?_ }
    · obtain ⟨n, hsender, hnotifications⟩ := h.sender c hc
      exact ⟨n, senders c n hsender, hnotifications⟩
    · obtain ⟨hregistered, hsender⟩ := h.held phase c n hholder
      exact ⟨hregistered, senders c n hsender⟩
    · obtain ⟨hidle, t, hat, hle⟩ := h.removed hremoved
      exact ⟨hidle, t, hat, hle.trans now⟩
  | find free registered sender =>
    refine { h with
      absent := fun hidle _ => h.absent hidle fun _ _ => by rw [free]; exact (nomatch ·)
      held := fun phase c n hholder => ?_
      idle := fun phase c n hholder hphase => ?_
      installed := fun c n hholder => ?_ }
    · obtain ⟨-, hc⟩ := some_mk_inj hholder
      obtain ⟨rfl, rfl⟩ := Prod.mk.inj hc
      exact ⟨registered, sender⟩
    · exact absurd (some_mk_inj hholder).1.symm hphase
    · exact nomatch (some_mk_inj hholder).1
  | refuse holder =>
    exact { h with
      absent := fun hidle _ => h.absent hidle fun _ _ => by rw [holder]; exact (nomatch ·)
      held := fun _ _ _ => (nomatch ·)
      idle := fun _ _ _ => (nomatch ·)
      installed := fun _ _ => (nomatch ·) }
  | inactive holder idle =>
    have hcurrent : v.entry.attachment.currentConnectionId = none := isNone_iff_eq_none.mp (by
      rw [← not_isSome]
      exact congrArg not idle)
    refine { h with
      absent := fun hidle _ => h.absent hidle fun _ _ => by rw [holder]; exact (nomatch ·)
      held := fun phase c n hholder => ?_
      idle := fun _ _ _ _ _ => hcurrent
      installed := fun c n hholder => ?_ }
    · obtain ⟨-, hc⟩ := some_mk_inj hholder
      obtain ⟨rfl, rfl⟩ := Prod.mk.inj hc
      exact h.held _ _ _ holder
    · exact nomatch (some_mk_inj hholder).1
  | @install c n holder =>
    have hidle := h.idle _ _ _ holder (by decide)
    refine { h with
      sender := fun c' hc => nomatch hidle.symm.trans hc
      absent := fun _ hnot => absurd rfl (hnot c n)
      held := fun phase c' n' hholder => ?_
      idle := fun _ _ _ _ _ => hidle
      installed := fun c' n' hholder => ?_ }
    · obtain ⟨-, hc⟩ := some_mk_inj hholder
      obtain ⟨rfl, rfl⟩ := Prod.mk.inj hc
      exact h.held _ _ _ holder
    · obtain ⟨-, hc⟩ := some_mk_inj hholder
      exact congrArg some (Prod.mk.inj hc).2
  | attach holder => exact h.attach holder
  | detach current => exact h.detach current
  | clear count idle holder =>
    exact { h with
      sender := fun c hc => nomatch idle.symm.trans hc
      absent := fun _ _ _ => rfl
      installed := fun c n hholder => absurd hholder (holder c n) }
  | expire holder expired =>
    exact { h with
      held := fun phase c n hholder => nomatch holder.symm.trans hholder
      removed := fun _ => h.of_isExpired expired
      shutDown := fun _ => rfl }
  | shutdown removed => exact { h with shutDown := fun _ => removed }

end Views

/-! ### All sessions -/

/-- The task is a call of `detach` that is going to clear the sender of the session. -/
def Task.clears (index : ℕ) : Task → Bool
  | .detach other _ .clearing => other == index
  | _ => false

/-- The task is a call of `attach` that holds the lock. -/
def Task.holds : Task → Bool
  | .attach _ _ .holding => true
  | _ => false

/-- The guard, if it is held for the session. -/
def Registry.holder (s : Registry) (index : ℕ) : Option (GuardPhase × ConnectionId × ℕ) :=
  match s.guard with
  | none => none
  | some guard => if guard.entry = index then some (guard.phase, guard.connectionId, guard.notifications) else none

def RegistryPool.view (pool : RegistryPool) (index : ℕ) (entry : SessionEntry) : View where
  entry := entry
  registered := pool.shared.sessions.get entry.sessionId = some index
  holder := pool.shared.holder index
  clearing := pool.tasks.countP (Task.clears index)
  now := pool.shared.now
  senderOf := pool.shared.connections.get

/-- What a task relies on. -/
def Task.Placed (s : Registry) : Task → Prop
  | .attach _ notifications (.locking connectionId) => s.connections.get connectionId = some notifications
  | .attach _ _ (.shuttingDown index) =>
      ∃ entry, s.entries[index]? = some entry ∧ s.sessions.get entry.sessionId ≠ some index
  | .expire _ _ (.shuttingDown index) =>
      ∃ entry, s.entries[index]? = some entry ∧ s.sessions.get entry.sessionId ≠ some index
  | .detach index _ .clearing => index < s.entries.length
  | _ => True

/-- The table leads to the entry with the session id. -/
def Registry.Mapped (s : Registry) : Prop :=
  ∀ sessionId index, s.sessions.get sessionId = some index →
    ∃ entry, s.entries[index]? = some entry ∧ entry.sessionId = sessionId

structure RegistryPool.Sound (pool : RegistryPool) : Prop where
  mapped : pool.shared.Mapped
  tasks : ∀ task ∈ pool.tasks, task.Placed pool.shared
  entries : ∀ index entry, pool.shared.entries[index]? = some entry → (pool.view index entry).Sound
  guarded : pool.shared.guard.isSome → ∃ task ∈ pool.tasks, task.holds

/-- Entries stay, a session that was removed is not registered again, and connections keep their senders. -/
structure Registry.Extends (s s' : Registry) : Prop where
  connections : ∀ c n, s.connections.get c = some n → s'.connections.get c = some n
  entries : ∀ (index : ℕ) (entry : SessionEntry), s.entries[index]? = some entry →
    ∃ entry' : SessionEntry, s'.entries[index]? = some entry' ∧ entry'.sessionId = entry.sessionId ∧
      (s'.sessions.get entry.sessionId = some index → s.sessions.get entry.sessionId = some index)

theorem Task.Placed.mono {s s' : Registry} {task : Task} (he : s.Extends s') (h : task.Placed s) : task.Placed s' := by
  have hremoved : ∀ index, (∃ entry, s.entries[index]? = some entry ∧ s.sessions.get entry.sessionId ≠ some index) →
      ∃ entry, s'.entries[index]? = some entry ∧ s'.sessions.get entry.sessionId ≠ some index := by
    rintro index ⟨entry, hentry, hnot⟩
    obtain ⟨entry', hentry', hid, hsessions⟩ := he.entries index entry hentry
    refine ⟨entry', hentry', fun hget => hnot (hsessions ?_)⟩
    rw [← hid]
    exact hget
  match task, h with
  | .attach _ _ (.locking connectionId), h => exact he.connections connectionId _ h
  | .attach _ _ (.shuttingDown index), h
  | .expire _ _ (.shuttingDown index), h => exact hremoved index h
  | .detach index _ .clearing, h =>
    obtain ⟨entry', hentry', -⟩ := he.entries index _ (getElem?_eq_getElem h)
    exact (List.getElem?_eq_some_iff.mp hentry').1
  | .clock, _
  | .attach _ _ .start, _ | .attach _ _ .holding, _ | .attach _ _ (.done _), _
  | .detach _ _ .start, _ | .detach _ _ .done, _
  | .expire _ _ .start, _ | .expire _ _ (.sleeping _), _ | .expire _ _ .done, _ => trivial

/-- What a step does to the sessions. -/
structure RegistryPool.Moves (pool pool' : RegistryPool) : Prop where
  extended : pool.shared.Extends pool'.shared
  mapped : pool'.shared.Mapped
  entries : ∀ index entry', pool'.shared.entries[index]? = some entry' →
    ∃ entry, pool.shared.entries[index]? = some entry ∧
      View.Effect (pool.view index entry) (pool'.view index entry')

section Steps

open RegistryPool

variable {s s' : Registry} {task task' : Task} {others : List Task} {index : ℕ} {entry entry' : SessionEntry}

theorem Registry.holder_of_free (h : s.guard = none) (index : ℕ) : s.holder index = none := by
  unfold holder
  rw [h]

theorem countP_clears_cons (h : task'.clears index = task.clears index) :
    (task' :: others).countP (Task.clears index) = (task :: others).countP (Task.clears index) := by
  rw [countP_cons, countP_cons, h]

theorem moves_quiet (hm : s.Mapped) (hclears : ∀ index, task'.clears index = task.clears index)
    (hentries : s'.entries = s.entries) (hsessions : s'.sessions = s.sessions) (hguard : s'.guard = s.guard)
    (hnow : s.now ≤ s'.now) (hconnections : ∀ c n, s.connections.get c = some n → s'.connections.get c = some n) :
    Moves ⟨s, task :: others⟩ ⟨s', task' :: others⟩ := by
  refine ⟨⟨hconnections, fun index entry hentry => ⟨entry, hentries ▸ hentry, rfl, hsessions ▸ id⟩⟩, ?_,
    fun index entry' hentry' => ⟨entry', hentries ▸ hentry', ?_⟩⟩
  · unfold Mapped
    rw [hsessions, hentries]
    exact hm
  · refine .quiet rfl ?_ ?_ (countP_clears_cons (hclears index)) hnow hconnections
    · simp only [view, hsessions]
    · simp only [view, holder, hguard]

theorem moves_set (hm : s.Mapped) (hentry : s.entries[index]? = some entry) (hid : entry'.sessionId = entry.sessionId)
    (hentries : s'.entries = s.entries.set index entry') (hsessions : s'.sessions = s.sessions) (hnow : s'.now = s.now)
    (hconnections : s'.connections = s.connections)
    (hothers : ∀ other, other ≠ index → s'.holder other = s.holder other ∧ task'.clears other = task.clears other)
    (hself : View.Effect (view ⟨s, task :: others⟩ index entry)
      (view ⟨s', task' :: others⟩ index entry')) :
    Moves ⟨s, task :: others⟩ ⟨s', task' :: others⟩ := by
  have hlt := (List.getElem?_eq_some_iff.mp hentry).1
  have hget : ∀ other, s'.entries[other]? = if index = other then some entry' else s.entries[other]? := by
    intro other
    rw [hentries, List.getElem?_set]
    simp only [hlt, if_true]
  refine ⟨⟨fun c n h => hconnections ▸ h, fun other entry'' hother => ?_⟩, fun sessionId other hother => ?_,
    fun other entry'' hother => ?_⟩
  · rw [hget, hsessions]
    split_ifs with heq
    · subst heq
      obtain rfl := mem_unique hentry hother
      exact ⟨entry', rfl, hid, id⟩
    · exact ⟨entry'', hother, rfl, id⟩
  · rw [hsessions] at hother
    obtain ⟨entry'', hentry'', hid'⟩ := hm sessionId other hother
    rw [hget]
    split_ifs with heq
    · subst heq
      obtain rfl := mem_unique hentry hentry''
      exact ⟨entry', rfl, hid.trans hid'⟩
    · exact ⟨entry'', hentry'', hid'⟩
  · have hother' : s'.entries[other]? = some entry'' := hother
    rw [hget] at hother'
    split_ifs at hother' with heq
    · subst heq
      obtain rfl := some.inj hother'
      exact ⟨entry, hentry, hself⟩
    · obtain ⟨hholder, hclears⟩ := hothers other (Ne.symm heq)
      refine ⟨entry'', hother', .quiet rfl ?_ hholder (countP_clears_cons hclears) hnow.ge ?_⟩
      · simp only [view, hsessions]
      · simp only [view, hconnections]
        exact fun _ _ => id

theorem set_entries_self (hentry : s.entries[index]? = some entry) : s.entries.set index entry = s.entries := by
  obtain ⟨hlt, hget⟩ := List.getElem?_eq_some_iff.mp hentry
  rw [← hget, List.set_getElem_self hlt]

variable {sessionId : Str} {c : ConnectionId}

section

variable (hm : s.Mapped) (hclears : ∀ index, task'.clears index = task.clears index)
include hm hclears

theorem moves_remove (hget : s.sessions.get sessionId = some index)
    (hentry : s.entries[index]? = some entry) (hguard : s.guard = none) (hexpired : entry.isExpired s.now) :
    Moves ⟨s, task :: others⟩ ⟨{ s with sessions := s.sessions.remove sessionId }, task' :: others⟩ := by
  obtain ⟨found, hfound, hid⟩ := hm sessionId index hget
  obtain rfl := mem_unique hentry hfound
  have hkeep : ∀ other i, (s.sessions.remove sessionId).get other = some i → s.sessions.get other = some i :=
    fun other i h => (HashMap.get_remove_eq_some.mp h).2
  refine ⟨⟨fun _ _ => id, fun i other hother => ⟨other, hother, rfl, hkeep _ _⟩⟩,
    fun other i h => hm other i (hkeep other i h), fun i other hother => ⟨other, hother, ?_⟩⟩
  by_cases hi : i = index
  · subst hi
    obtain rfl := mem_unique hentry hother
    have hnot : ¬ (s.sessions.remove sessionId).get entry.sessionId = some i := by
      rw [hid, HashMap.get_remove_self]
      exact (nomatch ·)
    refine .of_eq (.expire (holder_of_free hguard i) hexpired) ?_
    simp only [view, hnot, countP_cons, hclears, decide_false]
    rfl
  · have hsame : (s.sessions.remove sessionId).get other.sessionId = some i ↔
        s.sessions.get other.sessionId = some i := by
      refine ⟨hkeep _ _, fun h => HashMap.get_remove_eq_some.mpr ⟨fun heq => ?_, h⟩⟩
      rw [heq] at h
      exact hi (mem_unique h hget)
    refine .quiet rfl ?_ rfl (countP_clears_cons (hclears i)) (Nat.le_refl _) fun _ _ => id
    simp only [view, hsame]

/-- A call of `attach` has found its session. -/
theorem moves_find {n : ℕ} (hget : s.sessions.get sessionId = some index) (hentry : s.entries[index]? = some entry)
    (hguard : s.guard = none) (hsender : s.connections.get c = some n) :
    Moves ⟨s, task :: others⟩ ⟨{ s with guard := some ⟨.found, index, c, n⟩ }, task' :: others⟩ := by
  obtain ⟨found, hfound, hid⟩ := hm sessionId index hget
  obtain rfl := mem_unique hentry hfound
  have hnone := holder_of_free hguard
  refine moves_set hm hentry rfl (set_entries_self hentry).symm rfl rfl rfl (fun i hi => ⟨?_, hclears i⟩) ?_
  · exact (if_neg (Ne.symm hi)).trans (hnone i).symm
  · have hregistered : (view ⟨s, task :: others⟩ index entry).registered = true := by
      simp only [view, hid, hget, decide_true]
    refine .of_eq (.find (hnone index) hregistered hsender) ?_
    simp only [view, holder, if_true, countP_cons, hclears]

theorem moves_shutdown (hentry : s.entries[index]? = some entry)
    (hremoved : s.sessions.get entry.sessionId ≠ some index) :
    Moves ⟨s, task :: others⟩ ⟨s.setEntry index entry.shutdown, task' :: others⟩ := by
  refine moves_set hm hentry ?_ rfl rfl rfl rfl (fun i hi => ⟨rfl, hclears i⟩) ?_
  · rfl
  · have hregistered : (view ⟨s, task :: others⟩ index entry).registered = false := decide_eq_false hremoved
    refine .of_eq (.shutdown hregistered) ?_
    simp only [view, countP_cons, hclears]
    rfl

end

theorem moves_detach (hm : s.Mapped) (hentry : s.entries[index]? = some entry) :
    Moves ⟨s, .detach index c .start :: others⟩ ⟨s.setEntry index (entry.detach c s.now).2,
      .detach index c (if (entry.detach c s.now).1 then .clearing else .done) :: others⟩ := by
  by_cases hcurrent : entry.attachment.currentConnectionId = some c
  · have hdetached : (entry.detach c s.now).1 = true := by
      rw [SessionEntry.detach, if_neg (not_not.mpr hcurrent)]
    have hid : (entry.detach c s.now).2.sessionId = entry.sessionId := by
      rw [SessionEntry.detach, if_neg (not_not.mpr hcurrent)]
    rw [if_pos hdetached]
    refine moves_set hm hentry hid rfl rfl rfl rfl (fun other hother => ⟨rfl, ?_⟩) ?_
    · exact beq_false_of_ne (Ne.symm hother)
    · refine .of_eq (.detach hcurrent) ?_
      simp only [view, hid, setEntry, countP_cons, Task.clears, beq_self_eq_true]
      rfl
  · have hsame : entry.detach c s.now = (false, entry) := by
      rw [SessionEntry.detach, if_pos hcurrent]
    rw [hsame]
    exact moves_quiet hm (fun _ => rfl) (set_entries_self hentry) rfl rfl (Nat.le_refl _) fun _ _ => id

theorem moves_clear (hm : s.Mapped) (hentry : s.entries[index]? = some entry)
    (hidle : entry.attachment.currentConnectionId = none) (hholder : ∀ c n, s.holder index ≠ some (.installed, c, n)) :
    Moves ⟨s, .detach index c .clearing :: others⟩
      ⟨s.setEntry index (entry.setNotificationSender none), .detach index c .done :: others⟩ := by
  refine moves_set hm hentry ?_ rfl rfl rfl rfl (fun other hother => ⟨rfl, ?_⟩) ?_
  · rfl
  · exact (beq_false_of_ne (Ne.symm hother)).symm
  · refine .clear ?_ hidle hholder
    simp only [view, countP_cons, Task.clears, beq_self_eq_true]
    rfl

end Steps

/-! ### Agreement -/

/-- The session whose sender a task is going to clear. -/
def Task.clearing? : Task → Option ℕ
  | .detach index _ .clearing => some index
  | _ => none

/-- `detach` clears the sender of a session only while no connection is attached to it and none has its
sender installed. -/
def ClearsDetached (pool : RegistryPool) : RegistryEvent → Prop
  | .call _ => True
  | .step i _ => ∀ index ∈ pool.tasks[i]?.bind Task.clearing?, ∀ entry ∈ pool.shared.entries[index]?,
      entry.attachment.currentConnectionId = none ∧
        ∀ guard ∈ pool.shared.guard, ¬ (guard.entry = index ∧ guard.phase = .installed)

instance (pool : RegistryPool) : ∀ event, Decidable (ClearsDetached pool event)
  | .call _ => isTrue trivial
  | .step _ _ => inferInstanceAs (Decidable (∀ index ∈ _, ∀ entry ∈ _, _ ∧ ∀ guard ∈ pool.shared.guard, ¬ (_ ∧ _)))

/-- A call of `attach` holds the lock, or a call of `detach` is between its two steps. -/
def Task.inProgress : Task → Bool
  | .attach _ _ .holding => true
  | .detach _ _ .clearing => true
  | _ => false

/-- What a registry promises. -/
structure RegistryPool.Agreement (pool : RegistryPool) : Prop where
  /-- a session has at most one attached connection: those that have attached and not detached are the
  current one -/
  attached : ∀ (index : ℕ) (entry : SessionEntry), pool.shared.entries[index]? = some entry →
    entry.attached = entry.attachment.currentConnectionId.toList
  /-- a session that is removed or shut down has been detached for long enough -/
  removed : ∀ (index : ℕ) (entry : SessionEntry), pool.shared.entries[index]? = some entry →
    pool.shared.sessions.get entry.sessionId ≠ some index ∨ entry.isShutDown →
    entry.attached = [] ∧ ∃ t, entry.detachedAt = some t ∧ t + detachedSessionTtl ≤ pool.shared.now
  /-- when no call of `attach` or `detach` is in progress, the sender is that of the attached connection -/
  sender : (∀ task ∈ pool.tasks, task.inProgress = false) →
    ∀ (index : ℕ) (entry : SessionEntry), pool.shared.entries[index]? = some entry →
      entry.notifications = entry.attachment.currentConnectionId.bind pool.shared.connections.get

section Runs

variable {pool pool' : RegistryPool} {s s' : Registry} {others : List Task}

theorem RegistryPool.Sound.agreement (h : pool.Sound) : pool.Agreement := by
  refine ⟨fun index entry hentry => (h.entries index entry hentry).attached, fun index entry hentry hremoved => ?_,
    fun hidle index entry hentry => ?_⟩
  · have hv := h.entries index entry hentry
    have hregistered : (pool.view index entry).registered = false := by
      obtain hremoved | hshut := hremoved
      · exact decide_eq_false hremoved
      · exact hv.shutDown hshut
    obtain ⟨hnone, t, hat, hle⟩ := hv.removed hregistered
    refine ⟨?_, t, hat, hle⟩
    have hattached := hv.attached
    rw [hnone] at hattached
    exact hattached
  · have hv := h.entries index entry hentry
    cases hcurrent : entry.attachment.currentConnectionId with
    | some c =>
      obtain ⟨n, hsender, hnotifications⟩ := hv.sender c hcurrent
      exact hnotifications.trans hsender.symm
    | none =>
      refine hv.absent hcurrent ?_ (countP_eq_zero.mpr fun task htask => ?_)
      · have hguard : pool.shared.guard = none := by
          cases hguard : pool.shared.guard with
          | none => rfl
          | some guard =>
            obtain ⟨task, htask, hholds⟩ := h.guarded (by rw [hguard]; rfl)
            have hbusy := hidle task htask
            cases task with
            | attach _ _ pc =>
              cases pc with
              | holding => cases hbusy
              | _ => cases hholds
            | _ => cases hholds
        intro c n
        simp only [view, holder, hguard]
        intro h
        cases h
      · have hbusy := hidle task htask
        cases task with
        | detach _ _ pc =>
          cases pc with
          | clearing => cases hbusy
          | _ => exact Bool.false_ne_true
        | _ => exact Bool.false_ne_true

theorem RegistryPool.Sound.perm {tasks tasks' : List Task} (h : Sound ⟨s, tasks⟩)
    (hperm : tasks.Perm tasks') : Sound ⟨s, tasks'⟩ := by
  refine ⟨h.mapped, fun task htask => h.tasks task (hperm.mem_iff.mpr htask), fun index entry hentry => ?_,
    fun hsome => ?_⟩
  · exact (h.entries index entry hentry).effect
      (.quiet rfl rfl rfl (hperm.countP_eq _).symm (Nat.le_refl _) fun _ _ => id)
  · obtain ⟨task, htask, hholds⟩ := h.guarded hsome
    exact ⟨task, hperm.mem_iff.mp htask, hholds⟩

theorem RegistryPool.Sound.of_moves {task task' : Task} (h : Sound ⟨s, task :: others⟩)
    (hm : Moves ⟨s, task :: others⟩ ⟨s', task' :: others⟩) (hplaced : task'.Placed s')
    (hguard : s'.guard.isSome → task'.holds ∨ (s.guard.isSome ∧ task.holds = false)) :
    Sound ⟨s', task' :: others⟩ := by
  refine ⟨hm.mapped, forall_mem_cons.mpr ⟨hplaced, fun other hother => ?_⟩, fun index entry' hentry' => ?_,
    fun hsome => ?_⟩
  · exact (h.tasks other (mem_cons_of_mem _ hother)).mono hm.extended
  · obtain ⟨entry, hentry, heffect⟩ := hm.entries index entry' hentry'
    exact (h.entries index entry hentry).effect heffect
  · obtain hholds | ⟨hbefore, hnot⟩ := hguard hsome
    · exact ⟨task', mem_cons_self, hholds⟩
    · obtain ⟨holder, hmem, hholds⟩ := h.guarded hbefore
      obtain rfl | hmem := mem_cons.mp hmem
      · exact nomatch hnot.symm.trans hholds
      · exact ⟨holder, mem_cons_of_mem _ hmem, hholds⟩

variable {n : ℕ} {c : ConnectionId} {sessionId : Str}

theorem RegistryPool.Sound.create (h : Sound ⟨s, .attach none n (.locking c) :: others⟩)
    (hguard : s.guard = none)
    (hfresh : ∀ entry ∈ s.entries, entry.sessionId ≠ sessionId) :
    Sound ⟨{ s with
        sessions := s.sessions.insert sessionId s.entries.length
        entries := s.entries ++ [.new sessionId n c] },
      .attach none n (.done (.ok (s.entries.length, c))) :: others⟩ := by
  have hsender : s.connections.get c = some n := h.tasks _ mem_cons_self
  have hold : ∀ (index : ℕ) (entry : SessionEntry), s.entries[index]? = some entry →
      (s.sessions.insert sessionId s.entries.length).get entry.sessionId = s.sessions.get entry.sessionId := by
    intro index entry hentry
    rw [HashMap.get_insert, if_neg (hfresh entry (mem_of_getElem? hentry))]
  have hextends : s.Extends { s with
      sessions := s.sessions.insert sessionId s.entries.length
      entries := s.entries ++ [.new sessionId n c] } := by
    refine ⟨fun _ _ => id, fun index entry hentry =>
      ⟨entry, ?_, rfl, fun hget => (hold index entry hentry).symm.trans hget⟩⟩
    exact (List.getElem?_append_left (List.getElem?_eq_some_iff.mp hentry).1).trans hentry
  refine ⟨fun other index hother => ?_, forall_mem_cons.mpr ⟨trivial, fun task htask => ?_⟩,
    fun index entry hentry => ?_, fun hsome => ?_⟩
  · simp only [HashMap.get_insert] at hother
    split_ifs at hother with heq
    · obtain rfl := some.inj hother
      exact ⟨_, getElem?_concat_length, heq.symm⟩
    · obtain ⟨entry, hentry, hid⟩ := h.mapped other index hother
      exact ⟨entry, (List.getElem?_append_left (List.getElem?_eq_some_iff.mp hentry).1).trans hentry, hid⟩
  · exact (h.tasks task (mem_cons_of_mem _ htask)).mono hextends
  · obtain hlt | hge := Nat.lt_or_ge index s.entries.length
    · have hentry' : s.entries[index]? = some entry := (getElem?_append_left hlt).symm.trans hentry
      refine (h.entries index entry hentry').effect (.quiet rfl ?_ rfl rfl (Nat.le_refl _) fun _ _ => id)
      simp only [view, hold index entry hentry']
    · have hindex : index = s.entries.length := by
        have hlt := (List.getElem?_eq_some_iff.mp hentry).1
        rw [length_append, length_singleton] at hlt
        omega
      subst hindex
      obtain rfl := some.inj (getElem?_concat_length.symm.trans hentry)
      have hregistered : (s.sessions.insert sessionId s.entries.length).get sessionId = some s.entries.length := by
        rw [HashMap.get_insert, if_pos rfl]
      have hholder := holder_of_free hguard s.entries.length
      exact
        { attached := rfl
          sender := fun c' hc => ⟨n, some.inj hc ▸ hsender, rfl⟩
          absent := fun h => by cases h
          held := fun _ _ _ hheld => by cases hholder.symm.trans hheld
          idle := fun _ _ _ hheld => by cases hholder.symm.trans hheld
          installed := fun _ _ hheld => by cases hholder.symm.trans hheld
          active := fun _ => rfl
          detached := fun h => by cases h
          removed := fun hremoved => absurd hregistered (of_decide_eq_false hremoved)
          shutDown := fun h => by cases h }
  · rw [hguard] at hsome
    cases hsome

variable {index : ℕ}

theorem Registry.Mapped.removed {entry : SessionEntry} (h : s.Mapped)
    (hget : s.sessions.get sessionId = some index) (hentry : s.entries[index]? = some entry) :
    ∃ other, s.entries[index]? = some other ∧ (s.sessions.remove sessionId).get other.sessionId ≠ some index := by
  obtain ⟨found, hfound, hid⟩ := h sessionId index hget
  obtain rfl := mem_unique hentry hfound
  refine ⟨entry, hentry, ?_⟩
  rw [hid, HashMap.get_remove_self]
  exact (nomatch ·)

variable {resume : Option Str}

/-- **A call of `attach` that holds the lock.** -/
theorem RegistryPool.Sound.hold {guard : Guard} {pc : AttachPc} (h : Sound ⟨s, .attach resume n .holding :: others⟩)
    (hguard : s.guard = some guard) (hstep : s.hold sessionId guard = some (s', pc)) :
    Sound ⟨s', .attach resume n pc :: others⟩ := by
  obtain ⟨phase, index, c, m⟩ := guard
  obtain ⟨entry, hentry, hstep⟩ := map_eq_some_iff.mp hstep
  have hm := h.mapped
  have hholder : s.holder index = some (phase, c, m) := by
    unfold holder
    rw [hguard]
    exact if_pos rfl
  have hnone : ∀ i, i ≠ index → s.holder i = none := by
    intro i hi
    unfold holder
    rw [hguard]
    exact if_neg (Ne.symm hi)
  cases phase with
  | found =>
    simp only at hstep
    split_ifs at hstep with hactive
    · obtain ⟨rfl, rfl⟩ := Prod.mk.inj hstep
      refine h.of_moves (moves_set hm hentry rfl (set_entries_self hentry).symm rfl rfl rfl (fun i hi => ⟨?_, rfl⟩) ?_)
        trivial (absurd · Bool.false_ne_true)
      · exact (hnone i hi).symm
      · exact .refuse hholder
    · obtain ⟨rfl, rfl⟩ := Prod.mk.inj hstep
      refine h.of_moves (moves_set hm hentry rfl (set_entries_self hentry).symm rfl rfl rfl (fun i hi => ⟨?_, rfl⟩) ?_)
        trivial fun _ => .inl rfl
      · exact (if_neg (Ne.symm hi)).trans (hnone i hi).symm
      · refine .of_eq (.inactive hholder (Bool.eq_false_of_not_eq_true hactive)) ?_
        simp only [view, holder, if_true]
  | inactive =>
    obtain ⟨rfl, rfl⟩ := Prod.mk.inj hstep
    refine h.of_moves (moves_set hm hentry ?_ rfl rfl rfl rfl (fun i hi => ⟨?_, rfl⟩) ?_) trivial fun _ => .inl rfl
    · rfl
    · exact (if_neg (Ne.symm hi)).trans (hnone i hi).symm
    · refine .of_eq (.install hholder) ?_
      simp only [view, holder, if_true]
      rfl
  | installed =>
    obtain ⟨rfl, rfl⟩ := Prod.mk.inj hstep
    refine h.of_moves (moves_set hm hentry ?_ rfl rfl rfl rfl (fun i hi => ⟨?_, rfl⟩) ?_) trivial
      (absurd · Bool.false_ne_true)
    · rfl
    · exact (hnone i hi).symm
    · exact .attach hholder

variable {answer : Answer}

theorem RegistryPool.Sound.lock {pc' : AttachPc}
    (h : Sound ⟨s, .attach resume n (.locking c) :: others⟩)
    (hstep : s.lockStep resume n c answer = some (s', pc')) :
    Sound ⟨s', .attach resume n pc' :: others⟩ := by
  have hsender : s.connections.get c = some n := h.tasks _ mem_cons_self
  unfold lockStep at hstep
  split at hstep
  · next sessionId hguard =>
      unfold resume at hstep
      cases hget : s.sessions.get sessionId with
      | none =>
        rw [hget] at hstep
        obtain ⟨rfl, rfl⟩ := some_mk_inj hstep
        exact h.of_moves (moves_quiet h.mapped (fun _ => rfl) rfl rfl rfl (Nat.le_refl _) fun _ _ => id) trivial
          (fun hsome => .inr ⟨hsome, rfl⟩)
      | some index =>
        rw [hget] at hstep
        obtain ⟨entry, hentry, hstep⟩ := map_eq_some_iff.mp hstep
        split_ifs at hstep with hexpired
        · obtain ⟨rfl, rfl⟩ := Prod.mk.inj hstep
          refine h.of_moves (moves_remove h.mapped (fun _ => rfl) hget hentry hguard hexpired) ?_
            (fun hsome => .inr ⟨hsome, rfl⟩)
          exact h.mapped.removed hget hentry
        · obtain ⟨rfl, rfl⟩ := Prod.mk.inj hstep
          exact h.of_moves (moves_find h.mapped (fun _ => by rfl) hget hentry hguard hsender) trivial
            (fun _ => .inl rfl)
  · next sessionId hguard =>
      split_ifs at hstep with hused
      obtain ⟨rfl, rfl⟩ := some_mk_inj hstep
      refine h.create hguard fun entry hentry heq => hused ?_
      exact any_eq_true.mpr ⟨entry, hentry, beq_iff_eq.mpr heq⟩
  · exact nomatch hstep

/-- **A call of `attach`.** -/
theorem RegistryPool.Sound.attach {pc pc' : AttachPc}
    (h : Sound ⟨s, .attach resume n pc :: others⟩)
    (hstep : s.attachStep resume n pc answer = some (s', pc')) :
    Sound ⟨s', .attach resume n pc' :: others⟩ := by
  have hplaced := h.tasks _ mem_cons_self
  match pc, answer, hstep with
  | .start, .connectionId id, hstep =>
    rw [attachStep] at hstep
    split_ifs at hstep with hkey
    obtain ⟨rfl, rfl⟩ := some_mk_inj hstep
    refine h.of_moves (moves_quiet h.mapped (fun _ => rfl) rfl rfl rfl (Nat.le_refl _) fun c m hc => ?_) ?_
      (fun hsome => .inr ⟨hsome, rfl⟩)
    · rw [HashMap.get_insert, if_neg]
      · exact hc
      · rintro rfl
        exact nomatch (HashMap.get_eq_none.mpr (Bool.eq_false_of_not_eq_true hkey)).symm.trans hc
    · exact (HashMap.get_insert _ _ _ _).trans (if_pos rfl)
  | .locking c, answer, hstep =>
    exact h.lock hstep
  | .holding, .go, hstep =>
    obtain ⟨guard, hguard, hstep⟩ := bind_eq_some_iff.mp hstep
    exact h.hold hguard hstep
  | .shuttingDown index, .go, hstep =>
    obtain ⟨entry, hentry, hstep⟩ := map_eq_some_iff.mp hstep
    obtain ⟨rfl, rfl⟩ := Prod.mk.inj hstep
    obtain ⟨found, hfound, hremoved⟩ := hplaced
    obtain rfl := mem_unique hfound hentry
    exact h.of_moves (moves_shutdown h.mapped (fun _ => rfl) hentry hremoved) trivial
      (fun hsome => .inr ⟨hsome, rfl⟩)

/-- **A call of `detach`.** -/
theorem RegistryPool.Sound.detach {pc pc' : DetachPc}
    (h : Sound ⟨s, .detach index c pc :: others⟩)
    (hclear : pc = .clearing → ∀ entry, s.entries[index]? = some entry →
      entry.attachment.currentConnectionId = none ∧ ∀ guard, s.guard = some guard →
        ¬ (guard.entry = index ∧ guard.phase = .installed))
    (hstep : s.detachStep index c pc = some (s', pc')) :
    Sound ⟨s', .detach index c pc' :: others⟩ := by
  cases pc with
  | start =>
    obtain ⟨entry, hentry, hstep⟩ := Option.map_eq_some_iff.mp hstep
    obtain ⟨rfl, rfl⟩ := Prod.mk.inj hstep
    refine h.of_moves (moves_detach h.mapped hentry) ?_ (fun hsome => Or.inr ⟨hsome, rfl⟩)
    have hlt : index < (s.setEntry index (entry.detach c s.now).2).entries.length := by
      rw [setEntry, length_set]
      exact (List.getElem?_eq_some_iff.mp hentry).1
    split_ifs
    · exact hlt
    · trivial
  | clearing =>
    obtain ⟨entry, hentry, hstep⟩ := Option.map_eq_some_iff.mp hstep
    obtain ⟨rfl, rfl⟩ := Prod.mk.inj hstep
    obtain ⟨hidle, hguard⟩ := hclear rfl entry hentry
    refine h.of_moves (moves_clear h.mapped hentry hidle fun c' n hholder => ?_) trivial
      (fun hsome => Or.inr ⟨hsome, rfl⟩)
    unfold holder at hholder
    split at hholder
    · exact nomatch hholder
    · next guard heq =>
        split_ifs at hholder with hentry
        exact hguard guard heq ⟨hentry, (some_mk_inj hholder).1⟩
  | done => exact nomatch hstep

/-- **A call of `expire_if_detached`.** -/
theorem RegistryPool.Sound.expire {pc pc' : ExpirePc}
    (h : Sound ⟨s, .expire sessionId c pc :: others⟩)
    (hstep : s.expireStep sessionId c pc = some (s', pc')) :
    Sound ⟨s', .expire sessionId c pc' :: others⟩ := by
  have hquiet : ∀ pc'', (Task.expire sessionId c pc'').Placed s →
      Sound ⟨s, .expire sessionId c pc'' :: others⟩ := fun pc'' hplaced =>
    h.of_moves (moves_quiet h.mapped (fun _ => rfl) rfl rfl rfl (Nat.le_refl _) fun _ _ => id) hplaced
      (fun hsome => .inr ⟨hsome, rfl⟩)
  cases pc with
  | start =>
    obtain ⟨rfl, rfl⟩ := some_mk_inj hstep
    exact hquiet _ trivial
  | sleeping wakeAt =>
    rw [expireStep] at hstep
    split_ifs at hstep with hawake
    cases hget : s.sessions.get sessionId with
    | none =>
      rw [hget] at hstep
      obtain ⟨rfl, rfl⟩ := some_mk_inj hstep
      exact hquiet _ trivial
    | some index =>
      rw [hget] at hstep
      obtain ⟨entry, hentry, hstep⟩ := map_eq_some_iff.mp hstep
      split_ifs at hstep with hexpired
      · obtain ⟨rfl, rfl⟩ := Prod.mk.inj hstep
        have hexpired' : entry.isExpired s.now = true := (Bool.and_eq_true_iff.mp hexpired).2
        exact h.of_moves (moves_remove h.mapped (fun _ => rfl) hget hentry hawake.2 hexpired')
          (h.mapped.removed hget hentry) (fun hsome => .inr ⟨hsome, rfl⟩)
      · obtain ⟨rfl, rfl⟩ := Prod.mk.inj hstep
        exact hquiet _ trivial
  | shuttingDown index =>
    obtain ⟨entry, hentry, hstep⟩ := map_eq_some_iff.mp hstep
    obtain ⟨rfl, rfl⟩ := Prod.mk.inj hstep
    obtain ⟨found, hfound, hremoved⟩ := h.tasks _ mem_cons_self
    obtain rfl := mem_unique hfound hentry
    exact h.of_moves (moves_shutdown h.mapped (fun _ => rfl) hentry hremoved) trivial
      (fun hsome => .inr ⟨hsome, rfl⟩)
  | done => cases hstep

/-- **One step of a call.** -/
theorem RegistryPool.Sound.step {task task' : Task} (h : Sound ⟨s, task :: others⟩)
    (hclear : ∀ index ∈ task.clearing?, ∀ entry ∈ s.entries[index]?, entry.attachment.currentConnectionId = none ∧
      ∀ guard ∈ s.guard, ¬ (guard.entry = index ∧ guard.phase = .installed))
    (hstep : SessionRegistry.step s task answer = some (s', task')) : Sound ⟨s', task' :: others⟩ := by
  cases task with
  | clock =>
    cases answer with
    | elapsed time =>
      obtain ⟨rfl, rfl⟩ := some_mk_inj hstep
      exact h.of_moves (moves_quiet h.mapped (fun _ => rfl) rfl rfl rfl (Nat.le_add_right _ _) fun _ _ => id) trivial
        (fun hsome => .inr ⟨hsome, rfl⟩)
    | _ => cases hstep
  | attach resume n pc =>
    obtain ⟨⟨s'', pc'⟩, hattach, heq⟩ := map_eq_some_iff.mp hstep
    obtain ⟨rfl, rfl⟩ := Prod.mk.inj heq
    exact h.attach hattach
  | detach index c pc =>
    cases answer with
    | go =>
      obtain ⟨⟨s'', pc'⟩, hdetach, heq⟩ := map_eq_some_iff.mp hstep
      obtain ⟨rfl, rfl⟩ := Prod.mk.inj heq
      refine h.detach (fun hpc => ?_) hdetach
      subst hpc
      exact hclear index rfl
    | _ => cases hstep
  | expire sessionId c pc =>
    cases answer with
    | go =>
      obtain ⟨⟨s'', pc'⟩, hexpire, heq⟩ := map_eq_some_iff.mp hstep
      obtain ⟨rfl, rfl⟩ := Prod.mk.inj heq
      exact h.expire hexpire
    | _ => cases hstep

/-- **One step of the registry.** -/
theorem RegistryPool.Sound.next {event : RegistryEvent} (h : pool.Sound) (hclear : ClearsDetached pool event)
    (hn : SessionRegistry.next pool event = some pool') : pool'.Sound := by
  refine Pool.next_inv_perm (I := fun s tasks => Sound ⟨s, tasks⟩) (K := fun _ => True)
    (fun _ _ _ hperm h => h.perm hperm) (fun s tasks c h _ => ?_)
    (fun s task answer s' task' others h hclear hstep => h.step hclear hstep) h ?_ hn
  · refine ⟨h.mapped, forall_mem_cons.mpr ⟨by cases c <;> exact trivial, h.tasks⟩, fun index entry hentry => ?_,
      fun hsome => ?_⟩
    · have hclears : (start c).clears index = false := by
        cases c <;> rfl
      refine (h.entries index entry hentry).effect (.quiet rfl rfl rfl ?_ (Nat.le_refl _) fun _ _ => id)
      simp only [view, countP_cons, hclears]
      rfl
    · obtain ⟨task, htask, hholds⟩ := h.guarded hsome
      exact ⟨task, mem_cons_of_mem _ htask, hholds⟩
  · cases event with
    | call c => trivial
    | step i answer => exact fun task htask index hindex => hclear index (by rw [htask]; exact hindex)

theorem sound_newRegistry : newRegistry.Sound := by
  refine ⟨fun _ _ => (nomatch ·), fun task htask => ?_, fun _ _ => (nomatch ·), (nomatch ·)⟩
  rw [mem_singleton.mp htask]
  trivial

end Runs

/-- **Attachment and sender agree**, in every state of every run in which `detach` clears a sender only while
no connection is attached. -/
theorem agreement_of_meets {events : List RegistryEvent} (h : Meets next ClearsDetached newRegistry events) :
    Throughout next RegistryPool.Agreement newRegistry events :=
  (throughout_of_meets (fun _ _ _ hsound hclear hn => RegistryPool.Sound.next hsound hclear hn) sound_newRegistry h).imp
    fun _ hsound => hsound.agreement

/-- A new session, and the first step of the detach of its connection. -/
def detaching : List RegistryEvent :=
  [.call (.attach none 7), .step 1 (.connectionId 1), .step 1 (.sessionId ['s']), .call (.detach 0 1), .step 2 .go]

/-- A second connection attaches to the session. -/
def resuming : List RegistryEvent :=
  [.call (.attach (some ['s']) 8), .step 3 (.connectionId 2), .step 3 .go, .step 3 .go, .step 3 .go, .step 3 .go]

/-- What calls leave of the first session: its entry, the sender of the second connection, and whether a call
is in progress. -/
def outcome (events : List RegistryEvent) : Option (SessionEntry × Option ℕ × Bool) :=
  (run next newRegistry events).bind fun pool =>
    pool.shared.entries[0]?.map fun entry =>
      (entry, pool.shared.connections.get 2, pool.tasks.any Task.inProgress)

theorem exists_of_outcome {events : List RegistryEvent} {entry : SessionEntry} {sender : Option ℕ} {busy : Bool}
    (h : outcome events = some (entry, sender, busy)) :
    ∃ pool, run next newRegistry events = some pool ∧ pool.shared.entries[0]? = some entry ∧
      pool.shared.connections.get 2 = sender ∧ pool.tasks.any Task.inProgress = busy := by
  obtain ⟨pool, hrun, hpool⟩ := bind_eq_some_iff.mp h
  obtain ⟨other, hentry, heq⟩ := map_eq_some_iff.mp hpool
  obtain ⟨rfl, hrest⟩ := Prod.mk.inj heq
  exact ⟨pool, hrun, hentry, (Prod.mk.inj hrest).1, (Prod.mk.inj hrest).2⟩

theorem agreement_resumed : ∃ pool entry, run next newRegistry (detaching ++ [.step 2 .go] ++ resuming) = some pool ∧
    pool.shared.entries[0]? = some entry ∧ entry.attachment.currentConnectionId = some 2 ∧
    entry.notifications = some 8 ∧ pool.Agreement := by
  obtain ⟨pool, hrun, hentry, -, -⟩ := exists_of_outcome
    (show outcome (detaching ++ [.step 2 .go] ++ resuming) =
      some (⟨['s'], some 8, false, ⟨some 2, none, none⟩, [2], none⟩, some 8, false) by decide +kernel)
  have hagreement : Throughout next RegistryPool.Agreement newRegistry (detaching ++ [.step 2 .go] ++ resuming) :=
    agreement_of_meets (by decide +kernel)
  exact ⟨pool, _, hrun, hentry, rfl, rfl, hagreement.last hrun⟩

theorem not_agreement_overtaken : ∃ pool, run next newRegistry (detaching ++ resuming ++ [.step 2 .go]) = some pool ∧
    (∀ task ∈ pool.tasks, task.inProgress = false) ∧ ¬ pool.Agreement := by
  obtain ⟨pool, hrun, hentry, hsender, hidle⟩ := exists_of_outcome
    (show outcome (detaching ++ resuming ++ [.step 2 .go]) =
      some (⟨['s'], none, false, ⟨some 2, none, none⟩, [2], none⟩, some 8, false) by decide +kernel)
  have hidle' : ∀ task ∈ pool.tasks, task.inProgress = false :=
    fun task htask => Bool.eq_false_of_not_eq_true (any_eq_false.mp hidle task htask)
  refine ⟨pool, hrun, hidle', fun hagreement => ?_⟩
  exact nomatch (hagreement.sender hidle' 0 _ hentry).trans hsender

end OpenAgere.SessionRegistry
