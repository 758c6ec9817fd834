import OpenAgere.HashMap
import OpenAgere.Text
import OpenAgere.Transition

/-! # The registry of agents

`core/src/agent/registry.rs`: the limit on the agents of a session.  A counter has the slots that are taken, and a
table has the registered agents and the placeholders of reserved paths.  The counter is an atomic and the table is
behind a lock, so calls are cut at their accesses to either of them; a reservation is a task that is stepped by its
owner until it is committed or dropped.

In every run the counter is the number of reservations that have not given their slot back, of registered agents
other than the root, and of releases that have removed an agent and not yet counted it down; it stays within a common
limit, paths are never shared, and the slot of a commit is freed once (`accounted_of_meets`). -/

namespace OpenAgere.AgentRegistry

open List Option Transition

/-! ### Paths and agents -/

/-- The text of a `Uuid`. -/
structure ThreadId where
  text : Str
deriving DecidableEq

/-- Paths that `validate_absolute_path` accepts begin with a slash. -/
structure AgentPath where
  text : Str
  absolute : text.head? = some '/'
deriving DecidableEq

def AgentPath.root : AgentPath := ⟨"/root", rfl⟩

def AgentPath.isRoot (path : AgentPath) : Bool := path.text = AgentPath.root.text

structure AgentMetadata where
  agentId : Option ThreadId
  agentPath : Option AgentPath
deriving DecidableEq

namespace AgentMetadata

/-- The key of an agent with an id. -/
def key (agent : AgentMetadata) (threadId : ThreadId) : Str :=
  (agent.agentPath.map AgentPath.text).getD ("thread:" ++ threadId.text)

def isRoot (agent : AgentMetadata) : Bool := agent.agentPath.any AgentPath.isRoot

/-- Registered and not the root. -/
def isCounted (agent : AgentMetadata) : Bool := agent.agentId.isSome && !agent.isRoot

/-- The entry of a path that is reserved. -/
def placeholder (path : AgentPath) : AgentMetadata := ⟨none, some path⟩

end AgentMetadata

/-! ### The registry -/

open AgentMetadata

/-- The counter is an `AtomicUsize`.  Below zero it would wrap around, which is why it is an integer here; it does not
reach the largest `usize`, since everything it counts takes memory. -/
structure Registry where
  agentTree : HashMap Str AgentMetadata
  totalCount : ℤ
  /-- history: the threads that were committed -/
  committed : List ThreadId
  /-- history: the threads whose release has removed an agent that is counted -/
  freed : List ThreadId

namespace Registry

def new : Registry := ⟨.empty, 0, [], []⟩

def fetchAdd (s : Registry) (n : ℤ) : Registry := { s with totalCount := s.totalCount + n }

def reserveAgentPath (s : Registry) (path : AgentPath) : Except Str Registry :=
  if s.agentTree.containsKey path.text then
    .error ("agent path `" ++ path.text ++ "` already exists")
  else .ok { s with agentTree := s.agentTree.insert path.text (.placeholder path) }

def releaseReservedAgentPath (s : Registry) (path : AgentPath) : Registry :=
  if (s.agentTree.get path.text).any fun agent => agent.agentId.isNone then
    { s with agentTree := s.agentTree.remove path.text }
  else s

def registerSpawnedThread (s : Registry) (agent : AgentMetadata) : Registry :=
  match agent.agentId with
  | none => s
  | some threadId =>
      { s with agentTree := s.agentTree.insert (agent.key threadId) agent, committed := s.committed ++ [threadId] }

def registerRootThread (s : Registry) (threadId : ThreadId) : Registry :=
  if s.agentTree.containsKey AgentPath.root.text then s
  else { s with agentTree := s.agentTree.insert AgentPath.root.text ⟨some threadId, some .root⟩ }

/-- The key that an iteration over the table finds first for the thread. -/
def findKey (ord : IterOrder Str) (s : Registry) (threadId : ThreadId) : Option Str :=
  (s.agentTree.keys ord).find? fun key => (s.agentTree.get key).any fun agent => agent.agentId = some threadId

/-- The part of `release_spawned_thread` under the lock: whether an agent was removed that is counted. -/
def removeThread (ord : IterOrder Str) (s : Registry) (threadId : ThreadId) : Bool × Registry :=
  match s.findKey ord threadId with
  | none => (false, s)
  | some key =>
      if (s.agentTree.get key).any fun agent => !agent.isRoot then
        (true, { s with agentTree := s.agentTree.remove key, freed := s.freed ++ [threadId] })
      else (false, { s with agentTree := s.agentTree.remove key })

/-- The agents that are counted. -/
def liveCount (s : Registry) : ℕ := s.agentTree.entries.countP fun entry => entry.2.isCounted

def liveOf (s : Registry) (threadId : ThreadId) : ℕ :=
  s.agentTree.entries.countP fun entry => entry.2.isCounted && entry.2.agentId = some threadId

/-- No agent has the thread. -/
def Unregistered (s : Registry) (threadId : ThreadId) : Prop :=
  ∀ key agent, s.agentTree.get key = some agent → agent.agentId ≠ some threadId

def registeredPaths (s : Registry) : List AgentPath :=
  s.agentTree.entries.filterMap fun entry => if entry.2.agentId.isSome then entry.2.agentPath else none

end Registry

/-! ### The calls -/

open Registry

inductive Call where
  | reserveSpawnSlot (maxThreads : Option ℕ)
  | releaseSpawnedThread (threadId : ThreadId)
  | registerRootThread (threadId : ThreadId)

inductive Task where
  /-- in `reserve_spawn_slot`, with the value of the counter that was seen last -/
  | reserving (maxThreads : Option ℕ) (current : Option ℤ)
  /-- `AgentLimitReached` -/
  | limitReached (maxThreads : ℕ)
  /-- a `SpawnReservation` -/
  | held (reservedAgentPath : Option AgentPath)
  /-- in `drop`, before the counter is counted down -/
  | dropping
  /-- before the lock of `release_spawned_thread` -/
  | releasing (threadId : ThreadId)
  /-- in `release_spawned_thread`, before the counter is counted down -/
  | freeing
  | registering (threadId : ThreadId)
  | ended
deriving DecidableEq

namespace Task

def start : Call → Task
  | .reserveSpawnSlot maxThreads => reserving maxThreads none
  | .releaseSpawnedThread threadId => releasing threadId
  | .registerRootThread threadId => registering threadId

/-- The path that a reservation reserved last. -/
def path : Task → Option AgentPath
  | held path => path
  | _ => none

/-- A reservation that has not given its slot back. -/
def isReservation : Task → Bool
  | held _ | dropping => true
  | _ => false

def isFreeing : Task → Bool
  | freeing => true
  | _ => false

end Task

/-- What a task does next, where it has a choice. -/
inductive Action where
  | go
  /-- `compare_exchange_weak` fails although the values agree -/
  | spurious
  | reserveAgentPath (path : AgentPath)
  | commit (agent : AgentMetadata)
  | drop

/-- One round of the loop of `try_increment_spawned`. -/
def tryIncrement (s : Registry) (maxThreads : ℕ) (current : ℤ) (spurious : Bool) : Registry × Task :=
  if maxThreads ≤ current then (s, .limitReached maxThreads)
  else if s.totalCount = current ∧ spurious = false then (s.fetchAdd 1, .held none)
  else (s, .reserving (some maxThreads) (some s.totalCount))

def step (ord : IterOrder Str) (s : Registry) : Task → Action → Option (Registry × Task)
  | .reserving none _, .go => some (s.fetchAdd 1, .held none)
  | .reserving (some maxThreads) none, .go => some (s, .reserving (some maxThreads) (some s.totalCount))
  | .reserving (some maxThreads) (some current), .go => some (tryIncrement s maxThreads current false)
  | .reserving (some maxThreads) (some current), .spurious => some (tryIncrement s maxThreads current true)
  | .held reserved, .reserveAgentPath path =>
      match s.reserveAgentPath path with
      | .ok s => some (s, .held (some path))
      | .error _ => some (s, .held reserved)
  | .held _, .commit agent => some (s.registerSpawnedThread agent, .ended)
  | .held (some path), .drop => some (s.releaseReservedAgentPath path, .dropping)
  | .held none, .drop => some (s, .dropping)
  | .dropping, .go => some (s.fetchAdd (-1), .ended)
  | .releasing threadId, .go =>
      match s.removeThread ord threadId with
      | (true, s) => some (s, .freeing)
      | (false, s) => some (s, .ended)
  | .freeing, .go => some (s.fetchAdd (-1), .ended)
  | .registering threadId, .go => some (s.registerRootThread threadId, .ended)
  | _, _ => none

abbrev System := Pool Registry Task

abbrev Event := Pool.Event Call Action

def System.new : System := ⟨.new, []⟩

def next (ord : IterOrder Str) : System → Event → Option System := Pool.next Task.start (step ord)

/-- A commit has a thread that is not registered and the path of its reservation, which is not the root; the root is
registered with a thread that is not registered. -/
def Proper (s : Registry) : Task → Action → Prop
  | .held reserved, .commit agent => agent.agentPath = reserved ∧ agent.isRoot = false ∧
      ∃ threadId, agent.agentId = some threadId ∧ s.Unregistered threadId
  | .registering threadId, _ => s.Unregistered threadId
  | _, _ => True

/-! ### The table -/

/-- An entry is a placeholder under its path, or an agent under its key. -/
def Keyed (key : Str) (agent : AgentMetadata) : Prop :=
  (∃ path, agent = .placeholder path ∧ key = path.text) ∨
    ∃ threadId, agent.agentId = some threadId ∧ key = agent.key threadId

/-- Every entry is under its key, and every thread has one. -/
structure WellKeyed (tree : HashMap Str AgentMetadata) : Prop where
  keyed : ∀ key agent, tree.get key = some agent → Keyed key agent
  unique : ∀ key key' agent agent' threadId, tree.get key = some agent → tree.get key' = some agent' →
    agent.agentId = some threadId → agent'.agentId = some threadId → key = key'

section Table

variable {tree : HashMap Str AgentMetadata} {key key' : Str} {agent agent' : AgentMetadata} {threadId : ThreadId}
  {path : AgentPath} {ord : IterOrder Str} {s : Registry}

theorem Keyed.eq_text (h : Keyed key agent) (hpath : agent.agentPath = some path) : key = path.text := by
  obtain ⟨path', rfl, rfl⟩ | ⟨threadId, _, rfl⟩ := h
  · rw [some.inj hpath]
  · rw [key, hpath]
    rfl

theorem text_ne_thread (path : AgentPath) (threadId : ThreadId) : path.text ≠ "thread:" ++ threadId.text := by
  intro h
  have habsolute := path.absolute
  rw [h] at habsolute
  exact absurd habsolute (by simp)

theorem WellKeyed.remove (h : WellKeyed tree) (key : Str) : WellKeyed (tree.remove key) :=
  ⟨fun k a hk => h.keyed k a (HashMap.get_remove_eq_some.mp hk).2, fun k k' a a' id hk hk' =>
    h.unique k k' a a' id (HashMap.get_remove_eq_some.mp hk).2 (HashMap.get_remove_eq_some.mp hk').2⟩

theorem WellKeyed.insert (h : WellKeyed tree) (hkey : Keyed key agent)
    (hfresh : ∀ threadId, agent.agentId = some threadId → ∀ key' agent', tree.get key' = some agent' →
      agent'.agentId ≠ some threadId) : WellKeyed (tree.insert key agent) := by
  constructor
  · intro key' agent' hagent
    rw [HashMap.get_insert] at hagent
    split at hagent
    · next heq =>
        obtain rfl := some.inj hagent
        exact heq ▸ hkey
    · exact h.keyed key' agent' hagent
  · intro k k' a a' id hk hk' hid hid'
    rw [HashMap.get_insert] at hk hk'
    split at hk <;> split at hk'
    · next heq heq' => exact heq.trans heq'.symm
    · obtain rfl := some.inj hk
      exact absurd hid' (hfresh id hid k' a' hk')
    · obtain rfl := some.inj hk'
      exact absurd hid (hfresh id hid' k a hk)
    · exact h.unique k k' a a' id hk hk' hid hid'

theorem findKey_eq_some (h : s.findKey ord threadId = some key) :
    ∃ agent, s.agentTree.get key = some agent ∧ agent.agentId = some threadId := by
  have hfound := find?_some h
  obtain ⟨agent, hagent, hid⟩ := (any_eq_true _ _).mp hfound
  exact ⟨agent, hagent, of_decide_eq_true hid⟩

theorem findKey_eq_none (h : s.findKey ord threadId = none) : s.Unregistered threadId := by
  intro key agent hagent hid
  have hmem : key ∈ s.agentTree.keys ord := by
    rw [HashMap.mem_keys, ← HashMap.get_isSome, hagent]
    rfl
  have hnot := find?_eq_none.mp h key hmem
  rw [hagent] at hnot
  exact hnot (decide_eq_true hid)

/-- **A release leaves the thread unregistered.** -/
theorem unregistered_removeThread (h : WellKeyed s.agentTree) (ord : IterOrder Str) (threadId : ThreadId) :
    (s.removeThread ord threadId).2.Unregistered threadId := by
  have hremoved : ∀ key, s.findKey ord threadId = some key → ∀ key' agent,
      (s.agentTree.remove key).get key' = some agent → agent.agentId ≠ some threadId := by
    intro key hfound key' agent hagent hid
    obtain ⟨agent', hagent', hid'⟩ := findKey_eq_some hfound
    obtain ⟨hne, hagent⟩ := HashMap.get_remove_eq_some.mp hagent
    exact hne (h.unique key' key agent agent' threadId hagent hagent' hid hid')
  unfold removeThread
  split
  · next hnone => exact findKey_eq_none hnone
  · next key hfound => split <;> exact hremoved key hfound

/-- **Agents have different paths.** -/
theorem nodup_registeredPaths (h : WellKeyed s.agentTree) : s.registeredPaths.Nodup := by
  have hkeys : s.agentTree.entries.Pairwise fun entry entry' => entry.1 ≠ entry'.1 :=
    pairwise_map.mp s.agentTree.nodup
  refine (List.Pairwise.and_mem.mp hkeys).filterMap _ ?_
  rintro ⟨key, agent⟩ ⟨key', agent'⟩ ⟨hmem, hmem', hne⟩ path hpath _ hpath' rfl
  obtain ⟨_, hpath⟩ := ite_none_right_eq_some.mp hpath
  obtain ⟨_, hpath'⟩ := ite_none_right_eq_some.mp hpath'
  have hkey := (h.keyed key agent (HashMap.get_eq_some.mpr hmem)).eq_text hpath
  have hkey' := (h.keyed key' agent' (HashMap.get_eq_some.mpr hmem')).eq_text hpath'
  exact hne (hkey.trans hkey'.symm)

end Table

/-! ### What a step keeps -/

/-- The invariant of the registry and all its tasks. -/
structure Inv (s : Registry) (tasks : List Task) : Prop where
  keyed : WellKeyed s.agentTree
  held : ∀ path, .held (some path) ∈ tasks → s.agentTree.get path.text = some (.placeholder path)
  distinct : (tasks.filterMap Task.path).Nodup
  count : s.totalCount = tasks.countP Task.isReservation + tasks.countP Task.isFreeing + s.liveCount
  history : ∀ threadId, s.freed.count threadId + s.liveOf threadId = s.committed.count threadId

section Steps

variable {s s' : Registry} {tasks tasks' others : List Task} {task task' : Task} {ord : IterOrder Str}
  {path : AgentPath} {agent : AgentMetadata} {threadId : ThreadId} {reserved : Option AgentPath}

theorem Inv.perm (h : Inv s tasks) (hperm : tasks.Perm tasks') : Inv s tasks' where
  keyed := h.keyed
  held path hmem := h.held path (hperm.mem_iff.mpr hmem)
  distinct := (hperm.filterMap _).nodup_iff.mp h.distinct
  count := by rw [← hperm.countP_eq, ← hperm.countP_eq]; exact h.count
  history := h.history

theorem Task.path_eq_some (h : task.path = some path) : task = .held (some path) := by
  cases task with
  | held reserved => exact congrArg Task.held h
  | _ => exact nomatch h

theorem Inv.not_held (h : Inv s (.held (some path) :: others)) : .held (some path) ∉ others := by
  intro hmem
  have hdistinct := h.distinct
  rw [filterMap_cons_some (show Task.path (.held (some path)) = some path from rfl), nodup_cons] at hdistinct
  exact hdistinct.1 (mem_filterMap.mpr ⟨_, hmem, rfl⟩)

theorem Inv.held_others (h : Inv s (task :: others)) (hmem : .held (some path) ∈ others) :
    s.agentTree.get path.text = some (.placeholder path) := h.held path (mem_cons_of_mem task hmem)

/-- The slots that a task takes. -/
def Task.slots (task : Task) : ℕ := task.isReservation.toNat + task.isFreeing.toNat

/-- What the step of one task has to show. -/
theorem Inv.replace (h : Inv s (task :: others)) (hkeyed : WellKeyed s'.agentTree)
    (hothers : ∀ path, .held (some path) ∈ others → s'.agentTree.get path.text = some (.placeholder path))
    (htask : ∀ path, task'.path = some path →
      s'.agentTree.get path.text = some (.placeholder path) ∧ .held (some path) ∉ others)
    (hcount : s'.totalCount + task.slots + s.liveCount = s.totalCount + task'.slots + s'.liveCount)
    (hhistory : ∀ threadId, s'.freed.count threadId + s'.liveOf threadId = s'.committed.count threadId) :
    Inv s' (task' :: others) where
  keyed := hkeyed
  held path hmem := by
    obtain heq | hmem := mem_cons.mp hmem
    · exact (htask path (by rw [← heq]; rfl)).1
    · exact hothers path hmem
  distinct := by
    have hdistinct : (others.filterMap Task.path).Nodup :=
      h.distinct.sublist ((sublist_cons_self task others).filterMap _)
    cases hpath : task'.path with
    | none => rwa [filterMap_cons_none hpath]
    | some path =>
      rw [filterMap_cons_some hpath]
      refine nodup_cons.mpr ⟨fun hmem => ?_, hdistinct⟩
      obtain ⟨other, hother, hheld⟩ := mem_filterMap.mp hmem
      exact (htask path hpath).2 (Task.path_eq_some hheld ▸ hother)
  count := by
    have hold := h.count
    have htoNat : ∀ (f : Task → Bool) task, (task :: others).countP f = others.countP f + (f task).toNat := by
      intro f task
      rw [countP_cons]
      cases f task <;> rfl
    rw [htoNat, htoNat] at hold ⊢
    unfold Task.slots at hcount
    omega
  history := hhistory

theorem Inv.start (h : Inv s tasks) (hpath : task.path = none) (hreservation : task.isReservation = false)
    (hfreeing : task.isFreeing = false) : Inv s (task :: tasks) where
  keyed := h.keyed
  held path hmem := by
    obtain heq | hmem := mem_cons.mp hmem
    · rw [← heq] at hpath
      exact nomatch hpath
    · exact h.held path hmem
  distinct := by rw [filterMap_cons_none hpath]; exact h.distinct
  count := by
    rw [countP_cons_of_neg (by rw [hreservation]; exact Bool.false_ne_true),
      countP_cons_of_neg (by rw [hfreeing]; exact Bool.false_ne_true)]
    exact h.count
  history := h.history

/-- A step that leaves the table as it is, and reserves nothing. -/
theorem Inv.counted (h : Inv s (task :: others)) (n : ℤ) (hpath : task'.path = none)
    (hcount : n + task.slots = task'.slots) : Inv (s.fetchAdd n) (task' :: others) := by
  refine h.replace h.keyed (fun path => h.held_others) (fun path hsome => nomatch hpath.symm.trans hsome) ?_ h.history
  show s.totalCount + n + task.slots + s.liveCount = s.totalCount + task'.slots + s.liveCount
  omega

section

variable (h : Inv s (task :: others)) (hpath : task'.path = none)
include h hpath

theorem Inv.takesSlot (hcount : task.slots + 1 = task'.slots) :
    Inv (s.fetchAdd 1) (task' :: others) := h.counted 1 hpath (by omega)

theorem Inv.givesSlot (hcount : task.slots = task'.slots + 1) :
    Inv (s.fetchAdd (-1)) (task' :: others) := h.counted (-1) hpath (by omega)

theorem Inv.unchanged (hcount : task.slots = task'.slots) :
    Inv s (task' :: others) := by
  have hkept := h.counted 0 hpath (by omega)
  rwa [fetchAdd, Int.add_zero] at hkept

end

/-- An entry that replaces nothing that is counted. -/
theorem countP_insert_of_uncounted {tree : HashMap Str AgentMetadata} {key : Str} {f : Str × AgentMetadata → Bool}
    (h : ∀ agent, tree.get key = some agent → f (key, agent) = false) (agent : AgentMetadata) :
    (tree.insert key agent).entries.countP f = tree.entries.countP f + (f (key, agent)).toNat := by
  rw [HashMap.countP_insert]
  cases hget : tree.get key with
  | none => rw [HashMap.entries_remove_of_get hget]
  | some old =>
    rw [HashMap.countP_of_get f hget, h old hget]
    rfl

/-- A task puts an entry under a key where no slot counts one. -/
theorem Inv.insertEntry (h : Inv s (task :: others)) {key : Str} (hkey : Keyed key agent)
    (hnew : ∀ id, agent.agentId = some id → s.Unregistered id)
    (hold : ∀ old, s.agentTree.get key = some old → old.isCounted = false)
    (hothers : ∀ path, .held (some path) ∈ others → path.text ≠ key)
    (hpath : ∀ path, task'.path = some path → key = path.text ∧ agent = .placeholder path)
    (hslots : task.slots = task'.slots + agent.isCounted.toNat) {committed : List ThreadId}
    (hcommitted : ∀ id, committed.count id =
      s.committed.count id + (agent.isCounted && decide (agent.agentId = some id)).toNat) :
    Inv { s with agentTree := s.agentTree.insert key agent, committed := committed } (task' :: others) := by
  refine h.replace (h.keyed.insert hkey hnew) ?_ ?_ ?_ ?_
  · intro path hmem
    rw [HashMap.get_insert, if_neg (hothers path hmem)]
    exact h.held_others hmem
  · intro path hsome
    obtain ⟨rfl, rfl⟩ := hpath path hsome
    exact ⟨by rw [HashMap.get_insert, if_pos rfl], fun hmem => hothers path hmem rfl⟩
  · have hlive := countP_insert_of_uncounted (f := fun entry => entry.2.isCounted) hold agent
    show s.totalCount + _ + _ = s.totalCount + _ + ((s.agentTree.insert _ _).entries.countP _ : ℕ)
    rw [hlive, hslots, liveCount]
    dsimp only
    omega
  · intro id
    have hlive := countP_insert_of_uncounted (f := fun entry => entry.2.isCounted && entry.2.agentId = some id)
      (fun old hget => by rw [hold old hget]; rfl) agent
    have hhistory := h.history id
    show s.freed.count id + (s.agentTree.insert _ _).entries.countP _ = committed.count id
    rw [hlive, hcommitted, ← hhistory, liveOf, Nat.add_assoc]

/-- A task puts an entry under a free key that no slot counts. -/
theorem Inv.insertVacant (h : Inv s (task :: others)) {key : Str} (hfree : ¬ s.agentTree.containsKey key)
    (hkey : Keyed key agent) (hnew : ∀ id, agent.agentId = some id → s.Unregistered id)
    (huncounted : agent.isCounted = false)
    (hpath : ∀ path, task'.path = some path → key = path.text ∧ agent = .placeholder path)
    (hslots : task.slots = task'.slots) :
    Inv { s with agentTree := s.agentTree.insert key agent } (task' :: others) := by
  have hnone : s.agentTree.get key = none := HashMap.get_eq_none.mpr (Bool.not_eq_true _ ▸ hfree)
  refine h.insertEntry hkey hnew (fun old hold => nomatch hnone.symm.trans hold) ?_ hpath ?_ ?_
  · rintro path hmem rfl
    exact nomatch hnone.symm.trans (h.held_others hmem)
  · rw [huncounted]
    exact hslots
  · intro id
    rw [huncounted]
    rfl

theorem Inv.reserveAgentPath (h : Inv s (.held reserved :: others)) (hok : s.reserveAgentPath path = .ok s') :
    Inv s' (.held (some path) :: others) := by
  unfold Registry.reserveAgentPath at hok
  split at hok
  · exact nomatch hok
  · next hfree =>
      obtain rfl := Except.ok.inj hok
      refine h.insertVacant hfree (.inl ⟨path, rfl, rfl⟩) nofun rfl ?_ rfl
      rintro other ⟨⟩
      exact ⟨rfl, rfl⟩

theorem Inv.text_ne (h : Inv s (task :: others)) (hmem : .held (some path) ∈ others) {key : Str}
    (hagent : s.agentTree.get key = some agent) (hne : agent ≠ .placeholder path) : path.text ≠ key := by
  rintro rfl
  exact hne (mem_unique hagent (h.held_others hmem))

theorem releaseReservedAgentPath_eq (hget : s.agentTree.get path.text = some (.placeholder path)) :
    s.releaseReservedAgentPath path = { s with agentTree := s.agentTree.remove path.text } := by
  rw [releaseReservedAgentPath, hget]
  rfl

/-- A task removes an entry. -/
theorem Inv.removeEntry (h : Inv s (task :: others)) {key : Str} (hagent : s.agentTree.get key = some agent)
    (hothers : ∀ path, .held (some path) ∈ others → agent ≠ .placeholder path) (hpath : task'.path = none)
    (hslots : task'.slots = task.slots + agent.isCounted.toNat) {freed : List ThreadId}
    (hfreed : ∀ id, freed.count id =
      s.freed.count id + (agent.isCounted && decide (agent.agentId = some id)).toNat) :
    Inv { s with agentTree := s.agentTree.remove key, freed := freed } (task' :: others) := by
  refine h.replace (h.keyed.remove key) ?_ (fun path hsome => nomatch hpath.symm.trans hsome) ?_ ?_
  · intro path hmem
    rw [HashMap.get_remove (h.text_ne hmem hagent (hothers path hmem))]
    exact h.held_others hmem
  · have hlive := HashMap.countP_of_get (fun entry => entry.2.isCounted) hagent
    show s.totalCount + _ + _ = s.totalCount + _ + ((s.agentTree.remove _).entries.countP _ : ℕ)
    rw [hslots, liveCount, hlive]
    dsimp only
    omega
  · intro id
    have hlive := HashMap.countP_of_get (fun entry => entry.2.isCounted && entry.2.agentId = some id) hagent
    have hhistory := h.history id
    show freed.count id + (s.agentTree.remove _).entries.countP _ = _
    rw [hfreed, ← hhistory, liveOf, hlive]
    dsimp only
    omega

theorem Inv.releaseReservedAgentPath (h : Inv s (.held (some path) :: others)) :
    Inv (s.releaseReservedAgentPath path) (.dropping :: others) := by
  have hget := h.held path mem_cons_self
  rw [releaseReservedAgentPath_eq hget]
  refine h.removeEntry hget (fun other hmem heq => ?_) ?_ ?_ fun _ => rfl
  · obtain rfl : path = other := some.inj (congrArg agentPath heq)
    exact h.not_held hmem
  · rfl
  · rfl

/-- What is found under the key of a commit is the placeholder of its reservation, or nothing. -/
theorem Inv.get_key (h : Inv s (.held reserved :: others)) (hpath : agent.agentPath = reserved)
    (hfree : s.Unregistered threadId) {old : AgentMetadata} (hold : s.agentTree.get (agent.key threadId) = some old) :
    ∃ path, reserved = some path ∧ old = .placeholder path := by
  cases reserved with
  | some path =>
    have hkey : agent.key threadId = path.text := by rw [key, hpath]; rfl
    rw [hkey, h.held path mem_cons_self] at hold
    exact ⟨path, rfl, (some.inj hold).symm⟩
  | none =>
    have hkey : agent.key threadId = "thread:" ++ threadId.text := by rw [key, hpath]; rfl
    rw [hkey] at hold
    obtain ⟨path, _, htext⟩ | ⟨other, hid, hother⟩ := h.keyed.keyed _ _ hold
    · exact absurd htext.symm (text_ne_thread path threadId)
    · cases holdPath : old.agentPath with
      | some path =>
        exact absurd ((h.keyed.keyed _ _ hold).eq_text holdPath).symm (text_ne_thread path threadId)
      | none =>
        rw [key, holdPath] at hother
        have htext : threadId.text = other.text := append_cancel_left hother
        obtain rfl : threadId = other := by
          cases threadId
          cases other
          exact congrArg ThreadId.mk htext
        exact absurd hid (hfree _ _ hold)

theorem Inv.registerSpawnedThread (h : Inv s (.held reserved :: others))
    (hproper : Proper s (.held reserved) (.commit agent)) :
    Inv (s.registerSpawnedThread agent) (.ended :: others) := by
  obtain ⟨hpath, hroot, threadId, hid, hfree⟩ := hproper
  have hold : ∀ old, s.agentTree.get (agent.key threadId) = some old → old.isCounted = false := by
    intro old hold
    obtain ⟨path, _, rfl⟩ := h.get_key hpath hfree hold
    rfl
  have hcounted : agent.isCounted = true := by rw [isCounted, hid, hroot]; rfl
  rw [show s.registerSpawnedThread agent = { s with
      agentTree := s.agentTree.insert (agent.key threadId) agent, committed := s.committed ++ [threadId] } by
    rw [Registry.registerSpawnedThread, hid]]
  refine h.insertEntry (.inr ⟨threadId, hid, rfl⟩) ?_ hold ?_ ?_ ?_ ?_
  · intro id hid'
    obtain rfl := mem_unique hid hid'
    exact hfree
  · intro other hmem heq
    obtain ⟨path, rfl, hold⟩ := h.get_key hpath hfree (heq ▸ h.held_others hmem)
    obtain rfl : other = path := some.inj (congrArg agentPath hold)
    exact h.not_held hmem
  · exact nofun
  · rw [hcounted]
    rfl
  · intro id
    rw [hcounted, hid, count_append, count_singleton]
    by_cases heq : threadId = id <;> simp [heq]

theorem Inv.removeThread (h : Inv s (.releasing threadId :: others)) (ord : IterOrder Str) :
    Inv (s.removeThread ord threadId).2
      ((if (s.removeThread ord threadId).1 then .freeing else .ended) :: others) := by
  unfold Registry.removeThread
  cases hfound : s.findKey ord threadId with
  | none => exact h.unchanged rfl rfl
  | some key =>
    obtain ⟨agent, hagent, hid⟩ := findKey_eq_some hfound
    have hothers : ∀ path, .held (some path) ∈ others → agent ≠ .placeholder path := by
      rintro path _ rfl
      cases hid
    have hcounted : agent.isCounted = !agent.isRoot := by rw [isCounted, hid]; rfl
    simp only [hagent, any_some]
    cases hroot : agent.isRoot with
    | true =>
      -- the root takes no slot
      rw [hroot] at hcounted
      refine h.removeEntry hagent hothers ?_ ?_ fun id => ?_
      · rfl
      · rw [hcounted]
        rfl
      · rw [hcounted]
        rfl
    | false =>
      rw [hroot] at hcounted
      refine h.removeEntry hagent hothers ?_ ?_ fun id => ?_
      · rfl
      · rw [hcounted]
        rfl
      · rw [hcounted, hid, count_append, count_singleton]
        by_cases heq : threadId = id <;> simp [heq]

theorem Inv.registerRootThread (h : Inv s (.registering threadId :: others)) (hfree : s.Unregistered threadId) :
    Inv (s.registerRootThread threadId) (.ended :: others) := by
  unfold Registry.registerRootThread
  split
  · exact h.unchanged rfl rfl
  · next hvacant =>
      refine h.insertVacant hvacant (.inr ⟨threadId, rfl, rfl⟩) ?_ rfl nofun rfl
      rintro id ⟨⟩
      exact hfree

theorem Inv.tryIncrement {maxThreads : ℕ} {current : ℤ}
    (h : Inv s (.reserving (some maxThreads) (some current) :: others)) (spurious : Bool) :
    Inv (tryIncrement s maxThreads current spurious).1 ((tryIncrement s maxThreads current spurious).2 :: others) := by
  unfold AgentRegistry.tryIncrement
  split
  · exact h.unchanged rfl rfl
  · split
    · exact h.takesSlot rfl rfl
    · exact h.unchanged rfl rfl

/-- **Every step keeps the invariant.** -/
theorem Inv.step {x : Action} (h : Inv s (task :: others)) (hproper : Proper s task x)
    (hstep : step ord s task x = some (s', task')) : Inv s' (task' :: others) := by
  revert hstep hproper
  fun_cases AgentRegistry.step ord s task x with
  | case1 =>
    rintro hproper ⟨⟩
    exact h.takesSlot rfl rfl
  | case2 | case9 =>
    rintro hproper ⟨⟩
    exact h.unchanged rfl rfl
  | case3 | case4 =>
    intro hproper hstep
    obtain ⟨rfl, rfl⟩ := some_mk_inj hstep
    exact h.tryIncrement _
  | case5 _ _ _ hok =>
    rintro hproper ⟨⟩
    exact h.reserveAgentPath hok
  | case6 =>
    rintro hproper ⟨⟩
    exact h
  | case7 =>
    rintro hproper ⟨⟩
    exact h.registerSpawnedThread hproper
  | case8 =>
    rintro hproper ⟨⟩
    exact h.releaseReservedAgentPath
  | case10 | case13 =>
    rintro hproper ⟨⟩
    exact h.givesSlot rfl rfl
  | case11 _ _ heq | case12 _ _ heq =>
    rintro hproper ⟨⟩
    have hremoved := h.removeThread ord
    rwa [heq] at hremoved
  | case14 =>
    rintro hproper ⟨⟩
    exact h.registerRootThread hproper
  | case15 => exact nofun

end Steps

/-! ### Runs -/

/-- Calls and steps are as they should be. -/
def Event.Proper (p : System) (event : Event) : Prop := event.Allowed (fun _ => True) AgentRegistry.Proper p

/-- What the registry accounts for. -/
structure Accounted (ord : IterOrder Str) (p : System) : Prop where
  /-- the slots -/
  count : p.shared.totalCount =
    p.tasks.countP Task.isReservation + p.tasks.countP Task.isFreeing + p.shared.liveCount
  nonneg : 0 ≤ p.shared.totalCount
  /-- held reservations and agents have different paths -/
  paths : (p.tasks.filterMap Task.path ++ p.shared.registeredPaths).Nodup
  /-- the slot of a commit is freed once -/
  freed : ∀ threadId, p.shared.freed.count threadId + p.shared.liveOf threadId = p.shared.committed.count threadId
  /-- a thread that is released is not registered -/
  released : ∀ threadId, (p.shared.removeThread ord threadId).2.Unregistered threadId
  /-- a reservation that is dropped frees its path, and no agent loses its entry -/
  dropped : ∀ path, .held (some path) ∈ p.tasks →
    (p.shared.releaseReservedAgentPath path).agentTree.get path.text = none ∧
      ∀ key agent, p.shared.agentTree.get key = some agent → agent.agentId.isSome →
        (p.shared.releaseReservedAgentPath path).agentTree.get key = some agent

theorem Inv.accounted {p : System} (h : Inv p.shared p.tasks) (ord : IterOrder Str) : Accounted ord p where
  count := h.count
  nonneg := by
    rw [h.count]
    omega
  paths := by
    refine nodup_append.mpr ⟨h.distinct, nodup_registeredPaths h.keyed, ?_⟩
    rintro path hheld _ hregistered rfl
    obtain ⟨task, htask, hpath⟩ := mem_filterMap.mp hheld
    obtain ⟨⟨key, agent⟩, hagent, hpath'⟩ := mem_filterMap.mp hregistered
    obtain ⟨hid, hpath'⟩ := ite_none_right_eq_some.mp hpath'
    have hget := HashMap.get_eq_some.mpr hagent
    rw [(h.keyed.keyed key agent hget).eq_text hpath', h.held path (Task.path_eq_some hpath ▸ htask)] at hget
    rw [← some.inj hget] at hid
    exact nomatch hid
  freed := h.history
  released threadId := unregistered_removeThread h.keyed ord threadId
  dropped path hmem := by
    have hget := h.held path hmem
    rw [releaseReservedAgentPath_eq hget]
    refine ⟨HashMap.get_remove_self _ _, fun key agent hagent hid => ?_⟩
    have hne : key ≠ path.text := by
      rintro rfl
      rw [← mem_unique hget hagent] at hid
      exact nomatch hid
    exact (HashMap.get_remove hne).trans hagent

theorem inv_new : Inv System.new.shared System.new.tasks where
  keyed := ⟨nofun, nofun⟩
  held _ hmem := nomatch hmem
  distinct := nodup_nil
  count := rfl
  history _ := rfl

/-- The counter is within the limit, and so is every reservation that is being made. -/
structure Within (maxThreads : ℕ) (s : Registry) (tasks : List Task) : Prop where
  count : s.totalCount ≤ maxThreads
  limit : ∀ limit current, .reserving limit current ∈ tasks → limit = some maxThreads

section Limit

variable {s s' : Registry} {tasks tasks' others : List Task} {task task' : Task} {ord : IterOrder Str} {maxThreads : ℕ}

theorem Within.perm (h : Within maxThreads s tasks) (hperm : tasks.Perm tasks') : Within maxThreads s tasks' :=
  ⟨h.count, fun limit current hmem => h.limit limit current (hperm.mem_iff.mpr hmem)⟩

/-- A step that does not count up, and reserves with the same limit if at all. -/
theorem Within.replace (h : Within maxThreads s (task :: others)) (hcount : s'.totalCount ≤ maxThreads)
    (htask : ∀ limit current, task' = .reserving limit current → ∃ current', task = .reserving limit current') :
    Within maxThreads s' (task' :: others) := by
  refine ⟨hcount, fun limit current hmem => ?_⟩
  obtain heq | hmem := mem_cons.mp hmem
  · obtain ⟨current', rfl⟩ := htask limit current heq.symm
    exact h.limit limit current' mem_cons_self
  · exact h.limit limit current (mem_cons_of_mem task hmem)

theorem Within.tryIncrement {limit : ℕ} {current : ℤ}
    (h : Within maxThreads s (.reserving (some limit) (some current) :: others)) (spurious : Bool) :
    Within maxThreads (tryIncrement s limit current spurious).1
      ((tryIncrement s limit current spurious).2 :: others) := by
  obtain rfl : limit = maxThreads := some.inj (h.limit _ _ mem_cons_self)
  unfold AgentRegistry.tryIncrement
  split
  · exact h.replace h.count nofun
  · next hlimit =>
      split
      · next hequal =>
          refine h.replace ?_ nofun
          show s.totalCount + 1 ≤ limit
          omega
      · refine h.replace h.count fun _ _ heq => ?_
        obtain ⟨rfl, _⟩ := Task.reserving.inj heq
        exact ⟨_, rfl⟩

theorem totalCount_releaseReservedAgentPath (s : Registry) (path : AgentPath) :
    (s.releaseReservedAgentPath path).totalCount = s.totalCount := by
  unfold releaseReservedAgentPath
  split <;> rfl

theorem totalCount_registerSpawnedThread (s : Registry) (agent : AgentMetadata) :
    (s.registerSpawnedThread agent).totalCount = s.totalCount := by
  unfold registerSpawnedThread
  split <;> rfl

theorem totalCount_registerRootThread (s : Registry) (threadId : ThreadId) :
    (s.registerRootThread threadId).totalCount = s.totalCount := by
  unfold registerRootThread
  split <;> rfl

theorem totalCount_removeThread (s : Registry) (ord : IterOrder Str) (threadId : ThreadId) :
    (s.removeThread ord threadId).2.totalCount = s.totalCount := by
  unfold removeThread
  split
  · rfl
  · split <;> rfl

theorem totalCount_reserveAgentPath {path : AgentPath} (h : s.reserveAgentPath path = .ok s') :
    s'.totalCount = s.totalCount := by
  unfold reserveAgentPath at h
  split at h
  · exact nomatch h
  · rw [← Except.ok.inj h]

theorem Within.step {x : Action} (h : Within maxThreads s (task :: others))
    (hstep : step ord s task x = some (s', task')) : Within maxThreads s' (task' :: others) := by
  have hcount := h.count
  revert hstep
  fun_cases AgentRegistry.step ord s task x with
  | case1 => exact nomatch h.limit _ _ List.mem_cons_self
  | case2 =>
    rintro ⟨⟩
    refine h.replace hcount fun _ _ heq => ?_
    obtain ⟨rfl, _⟩ := Task.reserving.inj heq
    exact ⟨_, rfl⟩
  | case3 | case4 =>
    intro hstep
    obtain ⟨rfl, rfl⟩ := some_mk_inj hstep
    exact h.tryIncrement _
  | case5 _ _ _ hok =>
    rintro ⟨⟩
    exact h.replace (totalCount_reserveAgentPath hok ▸ hcount) nofun
  | case6 =>
    rintro ⟨⟩
    exact h
  | case7 =>
    rintro ⟨⟩
    exact h.replace (totalCount_registerSpawnedThread s _ ▸ hcount) nofun
  | case8 =>
    rintro ⟨⟩
    exact h.replace (totalCount_releaseReservedAgentPath s _ ▸ hcount) nofun
  | case9 =>
    rintro ⟨⟩
    exact h.replace hcount nofun
  | case10 | case13 =>
    rintro ⟨⟩
    exact h.replace (show s.totalCount + -1 ≤ _ by omega) nofun
  | case11 threadId _ hremove | case12 threadId _ hremove =>
    rintro ⟨⟩
    have hremoved := totalCount_removeThread s ord threadId
    rw [hremove] at hremoved
    exact h.replace (hremoved ▸ hcount) nofun
  | case14 =>
    rintro ⟨⟩
    exact h.replace (totalCount_registerRootThread s _ ▸ hcount) nofun
  | case15 => exact nofun

end Limit

/-- Slots are reserved with the limit. -/
def Call.LimitedTo (maxThreads : ℕ) : Call → Prop
  | .reserveSpawnSlot limit => limit = some maxThreads
  | _ => True

def Event.LimitedTo (maxThreads : ℕ) (event : Event) : Prop :=
  Pool.Event.Given (Call.LimitedTo maxThreads) (fun _ => True) event

theorem within_of_limited {ord : IterOrder Str} {maxThreads : ℕ} {events : List Event}
    (h : ∀ event ∈ events, Event.LimitedTo maxThreads event) :
    Throughout (next ord) (fun p => p.shared.totalCount ≤ maxThreads) System.new events := by
  have hnew : Within maxThreads System.new.shared System.new.tasks :=
    ⟨Int.natCast_nonneg maxThreads, nofun⟩
  refine (throughout_of_meets (I := fun p => Within maxThreads p.shared p.tasks) ?_ hnew (meets_of_forall h)).imp
    fun p hp => hp.count
  intro p event q hp hevent hnext
  have hallowed : event.Allowed (Call.LimitedTo maxThreads) (fun _ _ _ => True) p := by
    cases event with
    | call c => exact hevent
    | step i x => exact fun _ _ => trivial
  refine Pool.next_inv_perm (I := Within maxThreads) (fun _ _ _ hperm h => h.perm hperm) ?_
    (fun _ _ _ _ _ _ h _ => h.step) hp hallowed hnext
  intro s tasks c h hc
  refine ⟨h.count, fun limit current hmem => ?_⟩
  obtain heq | hmem := mem_cons.mp hmem
  · cases c with
    | reserveSpawnSlot limit' =>
      obtain ⟨rfl, _⟩ := Task.reserving.inj heq
      exact hc
    | releaseSpawnedThread | registerRootThread => exact nomatch heq
  · exact h.limit limit current hmem

/-- **The registry accounts for every slot and every path** in every run whose commits are proper, and the counter
stays within a limit that all reservations share. -/
theorem accounted_of_meets (ord : IterOrder Str) (events : List Event)
    (h : Meets (next ord) Event.Proper System.new events) :
    Throughout (next ord) (Accounted ord) System.new events ∧
      ∀ maxThreads, (∀ event ∈ events, Event.LimitedTo maxThreads event) →
        Throughout (next ord) (fun p => p.shared.totalCount ≤ maxThreads) System.new events := by
  refine ⟨?_, fun maxThreads hlimited => within_of_limited hlimited⟩
  refine (throughout_of_meets (I := fun p => Inv p.shared p.tasks) ?_ inv_new h).imp fun p hp => hp.accounted ord
  intro p event q hp hevent hnext
  refine Pool.next_inv_perm (I := Inv) (fun _ _ _ hperm h => h.perm hperm) ?_
    (fun _ _ _ _ _ _ h hproper => h.step hproper) hp hevent hnext
  intro s tasks c h _
  cases c <;> exact h.start rfl rfl rfl

instance (s : Registry) (threadId : ThreadId) : Decidable (s.Unregistered threadId) :=
  decidable_of_iff (∀ entry ∈ s.agentTree.entries, entry.2.agentId ≠ some threadId)
    ⟨fun h key agent hagent => h (key, agent) (HashMap.get_eq_some.mp hagent),
      fun h entry hentry => h entry.1 entry.2 (HashMap.get_eq_some.mpr hentry)⟩

instance (s : Registry) : (task : Task) → (x : Action) → Decidable (Proper s task x)
  | .held reserved, .commit ⟨some threadId, path⟩ =>
      decidable_of_iff (path = reserved ∧ (AgentMetadata.mk (some threadId) path).isRoot = false ∧
          s.Unregistered threadId)
        ⟨fun h => ⟨h.1, h.2.1, threadId, rfl, h.2.2⟩, fun ⟨hpath, hroot, _, hid, hfree⟩ =>
          ⟨hpath, hroot, some.inj hid ▸ hfree⟩⟩
  | .held _, .commit ⟨none, _⟩ => isFalse fun ⟨_, _, _, hid, _⟩ => nomatch hid
  | .registering threadId, _ => inferInstanceAs (Decidable (s.Unregistered threadId))
  | .held _, .go | .held _, .spurious | .held _, .reserveAgentPath _ | .held _, .drop => isTrue trivial
  | .reserving _ _, _ | .limitReached _, _ | .dropping, _ | .releasing _, _ | .freeing, _ | .ended, _ => isTrue trivial

instance (p : System) : (event : Event) → Decidable (Event.Proper p event)
  | .call _ => isTrue trivial
  | .step i x => inferInstanceAs (Decidable (∀ pc ∈ p.tasks[i]?, Proper p.shared pc x))

instance (maxThreads : ℕ) : (event : Event) → Decidable (Event.LimitedTo maxThreads event)
  | .call (.reserveSpawnSlot limit) => inferInstanceAs (Decidable (limit = some maxThreads))
  | .call (.releaseSpawnedThread _) | .call (.registerRootThread _) | .step _ _ => isTrue trivial

/-! ### Schedules -/

def firstThread : ThreadId := ⟨['1']⟩

def childPath : AgentPath := ⟨"/root/a", rfl⟩

/-- Two reservations compete for one slot.  The first is committed under a path; the agent is then released twice, and
the second reservation is tried again and dropped. -/
def oneSlot : List Event :=
  [.call (.reserveSpawnSlot (some 1)), .call (.reserveSpawnSlot (some 1)), .step 0 .go, .step 1 .go, .step 1 .spurious,
   .step 0 .go, .step 1 .go, .step 0 (.reserveAgentPath childPath),
   .step 0 (.commit ⟨some firstThread, some childPath⟩), .step 1 .go,
   .call (.releaseSpawnedThread firstThread), .call (.releaseSpawnedThread firstThread), .step 2 .go, .step 3 .go,
   .step 2 .go, .call (.reserveSpawnSlot (some 1)), .step 4 .go, .step 4 .go, .step 4 (.reserveAgentPath childPath),
   .step 4 .drop, .step 4 .go]

theorem accounted_oneSlot :
    Meets (next (.inOrder Str)) Event.Proper System.new oneSlot ∧
      (∃ p, run (next (.inOrder Str)) System.new oneSlot = some p ∧ Accounted (.inOrder Str) p ∧
        p.shared.freed = [firstThread]) ∧
      Throughout (next (.inOrder Str)) (fun p => p.shared.totalCount ≤ (1 : ℕ)) System.new oneSlot := by
  have hmeets : Meets (next (.inOrder Str)) Event.Proper System.new oneSlot := by decide +kernel
  have hlimited : ∀ event ∈ oneSlot, Event.LimitedTo 1 event := by decide +kernel
  obtain ⟨haccounted, hwithin⟩ := accounted_of_meets (.inOrder Str) oneSlot hmeets
  obtain ⟨p, hp, hfreed⟩ : ∃ p ∈ run (next (.inOrder Str)) System.new oneSlot, p.shared.freed = [firstThread] := by
    decide +kernel
  exact ⟨hmeets, ⟨p, hp, haccounted.last hp, hfreed⟩, hwithin 1 hlimited⟩

/-- The count without the releases that have not yet counted down. -/
def CountsAgents (p : System) : Prop :=
  p.shared.totalCount = p.tasks.countP Task.isReservation + p.shared.liveCount

/-- An agent is committed under the path of the root. -/
def rootCommit : List Event :=
  [.call (.reserveSpawnSlot none), .step 0 .go, .step 0 (.reserveAgentPath .root),
   .step 0 (.commit ⟨some firstThread, some .root⟩)]

/-- A release has removed its agent and not yet counted it down. -/
def halfReleased : List Event :=
  [.call (.reserveSpawnSlot none), .step 0 .go, .step 0 (.commit ⟨some firstThread, none⟩),
   .call (.releaseSpawnedThread firstThread), .step 1 .go]

/-- After a commit of the root path, and in the middle of a release, a slot is taken that neither a reservation nor an
agent other than the root has. -/
theorem not_countsAgents :
    (∃ p, run (next (.inOrder Str)) System.new rootCommit = some p ∧ ¬ CountsAgents p) ∧
      ∃ p, run (next (.inOrder Str)) System.new halfReleased = some p ∧ ¬ CountsAgents p := by
  constructor
  · show ∃ p ∈ run (next (.inOrder Str)) System.new rootCommit, ¬ (_ = _)
    decide +kernel
  · show ∃ p ∈ run (next (.inOrder Str)) System.new halfReleased, ¬ (_ = _)
    decide +kernel

end OpenAgere.AgentRegistry
