import OpenAgere.MachineInteger
import OpenAgere.NetworkConstraints
import OpenAgere.Transition

/-! # The shared state of the network proxy

`NetworkProxyState` of `network-proxy/src/runtime.rs` as a pool of calls on one `ConfigState` behind a
lock.  A call is cut at its lock acquisitions: each section under one acquisition is a step, and so is each
answer of the reloader.  Between the sections a call carries copies of what it read.

`Ledger` accounts for the blocked requests: each recorded one is buffered, was drained once or was evicted,
and the counter counts them.  Two operations install a state with the buffer and the counter they copied
under an earlier lock, and `forceReload` the counter of the reloader's state, so the account holds exactly
as long as these agree with what they overwrite (`ledger_throughout_iff`). -/

namespace OpenAgere.Network

open List Option MachineInteger Text Transition

open scoped Str

/-! ### Calls and their sections -/

inductive DomainListKind where
  | allow
  | deny
deriving DecidableEq, Repr

namespace DomainListKind

def listName : DomainListKind → Str
  | allow => "allowlist"
  | deny => "denylist"

def constraintField : DomainListKind → Str
  | allow => "network.allowed_domains"
  | deny => "network.denied_domains"

def permission : DomainListKind → NetworkDomainPermission
  | allow => .allow
  | deny => .deny

def entries (target : DomainListKind) (network : NetworkProxySettings) : List Str :=
  match target with
  | allow => network.allowedDomains.getD []
  | deny => network.deniedDomains.getD []

def oppositeEntries (target : DomainListKind) (network : NetworkProxySettings) : List Str :=
  match target with
  | allow => network.deniedDomains.getD []
  | deny => network.allowedDomains.getD []

end DomainListKind

variable {β : Type}

/-- The calls of interest; `reloadIfNeeded` stands for those that only reload and read. -/
inductive Call (β : Type) where
  | recordBlocked (entry : β)
  | drainBlocked
  | addAllowedDomain (host : Str)
  | addDeniedDomain (host : Str)
  | setNetworkMode (mode : NetworkMode)
  | replaceConfigState (newState : ConfigState β)
  | forceReload
  | reloadIfNeeded

/-- What a call does once `reload_if_needed` has returned. -/
inductive Body (β : Type) where
  | recordBlocked (entry : β)
  | drainBlocked
  | updateDomainList (normalizedHost : Str) (target : DomainListKind)
  | setNetworkMode (mode : NetworkMode)
  | replaceConfigState (newState : ConfigState β)
  | read

/-- Where a call stands, with the copies it holds. -/
inductive Pc (β : Type) where
  -- before `maybe_reload`
  | maybeReload (body : Body β)
  -- a new state is there: before the read section of `reload_if_needed`
  | reloadRead (newState : ConfigState β) (body : Body β)
  -- before its write section
  | reloadWrite (newState : ConfigState β) (body : Body β)
  -- before the first section of the body
  | body (body : Body β)
  -- before the write section of `update_domain_list`
  | commitDomains (normalizedHost : Str) (target : DomainListKind) (previousCfg : NetworkProxyConfig)
      (constraints : NetworkProxyConstraints) (newState : ConfigState β)
  -- before the write section of `set_network_mode`
  | commitMode (mode : NetworkMode) (constraints : NetworkProxyConstraints)
  -- before `reload_now`
  | reloadNow
  -- before the write section of `force_reload`
  | forceWrite (newState : ConfigState β)
  | returned (result : Except Failure Unit)

/-- The reloader's answer to a step that asks it. -/
inductive Answer (β : Type) where
  -- the step is a section under the lock
  | locked
  | maybeReload (answer : Except Failure (Option (ConfigState β)))
  | reloadNow (answer : Except Failure (ConfigState β))

/-- The state behind the lock; the other fields are a history: the requests whose `record_blocked` took
effect, those returned by `drain_blocked`, those evicted, and the domain updates that returned without error
since the last reload, the last one first. -/
structure Shared (β : Type) where
  guard : ConfigState β
  recorded : List β
  drained : List β
  evicted : List β
  updates : List (Str × DomainListKind)

def maxBlockedEvents : ℕ := 200

section Steps

variable (env : ConfigEnvironment)

def updateDomainList (host : Str) (target : DomainListKind) : Pc β :=
  match Host.parse env.toPolicyEnvironment host with
  | .error messages => .returned (.error ("invalid network host" :: messages))
  | .ok normalizedHost => .maybeReload (.updateDomainList normalizedHost target)

/-- The call before its first step.  The first section of `force_reload` only reads for the log. -/
def start : Call β → Pc β
  | .recordBlocked entry => .maybeReload (.recordBlocked entry)
  | .drainBlocked => .maybeReload .drainBlocked
  | .addAllowedDomain host => updateDomainList env host .allow
  | .addDeniedDomain host => updateDomainList env host .deny
  | .setNetworkMode mode => .maybeReload (.setNetworkMode mode)
  | .replaceConfigState newState => .maybeReload (.replaceConfigState newState)
  | .forceReload => .reloadNow
  | .reloadIfNeeded => .maybeReload .read

/-- The write section of `record_blocked`. -/
def recordSection (shared : Shared β) (entry : β) : Shared β :=
  let blocked := shared.guard.blocked ++ [entry]
  { shared with
    guard := { shared.guard with
      blocked := blocked.drop (blocked.length - maxBlockedEvents)
      blockedTotal := min (shared.guard.blockedTotal + 1) u64Max }
    recorded := shared.recorded ++ [entry]
    evicted := shared.evicted ++ blocked.take (blocked.length - maxBlockedEvents) }

/-- The write section of `drain_blocked`. -/
def drainSection (shared : Shared β) : Shared β :=
  { shared with
    guard := { shared.guard with blocked := [] }
    drained := shared.drained ++ shared.guard.blocked }

def reinstall (shared : Shared β) (newState : ConfigState β) : Shared β :=
  { shared with guard := newState, updates := [] }

/-- The configuration with one more permission. -/
def candidateConfig (config : NetworkProxyConfig) (normalizedHost : Str) (target : DomainListKind) :
    NetworkProxyConfig :=
  ⟨config.network.upsertDomainPermission normalizedHost target.permission (normalizeHost env.toPolicyEnvironment)⟩

/-- The target list has the host and the opposite one has not. -/
def alreadyListed (config : NetworkProxyConfig) (normalizedHost : Str) (target : DomainListKind) : Bool :=
  (target.entries config.network).any (normalizeHost env.toPolicyEnvironment · == normalizedHost) &&
    !(target.oppositeEntries config.network).any (normalizeHost env.toPolicyEnvironment · == normalizedHost)

/-- The read section of `update_domain_list` and what it computes before its write section. -/
def updateSection (shared : Shared β) (normalizedHost : Str) (target : DomainListKind) : Shared β × Pc β :=
  if alreadyListed env shared.guard.config normalizedHost target then
    ({ shared with updates := (normalizedHost, target) :: shared.updates }, .returned (.ok ()))
  else
    match validatePolicyAgainstConstraints env (candidateConfig env shared.guard.config normalizedHost target)
        shared.guard.constraints with
    | .error error => (shared, .returned (.error
        [target.constraintField ++ " constrained by managed config", error.message]))
    | .ok () =>
        match (buildConfigState env (candidateConfig env shared.guard.config normalizedHost target)
            shared.guard.constraints : Except Failure (ConfigState β)) with
        | .error messages => (shared, .returned (.error
            (("failed to compile updated network " ++ target.listName) :: messages)))
        | .ok newState => (shared, .commitDomains normalizedHost target shared.guard.config shared.guard.constraints
            { newState with blocked := shared.guard.blocked, blockedTotal := shared.guard.blockedTotal })

/-- The read section of `set_network_mode` and its validation. -/
def modeSection (shared : Shared β) (mode : NetworkMode) : Pc β :=
  match validatePolicyAgainstConstraints env (shared.guard.config.withMode mode) shared.guard.constraints with
  | .error error => .returned (.error ["network.mode constrained by managed config", error.message])
  | .ok () => .commitMode mode shared.guard.constraints

def bodySection (shared : Shared β) : Body β → Shared β × Pc β
  | .recordBlocked entry => (recordSection shared entry, .returned (.ok ()))
  | .drainBlocked => (drainSection shared, .returned (.ok ()))
  | .updateDomainList normalizedHost target => updateSection env shared normalizedHost target
  | .setNetworkMode mode => (shared, modeSection env shared mode)
  | .replaceConfigState newState =>
      (reinstall shared { newState with
        blocked := shared.guard.blocked, blockedTotal := shared.guard.blockedTotal }, .returned (.ok ()))
  | .read => (shared, .returned (.ok ()))

/-- The write section of `update_domain_list`. -/
def commitDomains (shared : Shared β) (normalizedHost : Str) (target : DomainListKind)
    (previousCfg : NetworkProxyConfig) (constraints : NetworkProxyConstraints) (newState : ConfigState β) :
    Shared β × Pc β :=
  if shared.guard.constraints ≠ constraints ∨ shared.guard.config ≠ previousCfg then
    (shared, .maybeReload (.updateDomainList normalizedHost target))
  else ({ shared with guard := newState, updates := (normalizedHost, target) :: shared.updates }, .returned (.ok ()))

/-- The write section of `set_network_mode`. -/
def commitMode (shared : Shared β) (mode : NetworkMode) (constraints : NetworkProxyConstraints) :
    Shared β × Pc β :=
  if shared.guard.constraints ≠ constraints then (shared, .maybeReload (.setNetworkMode mode))
  else ({ shared with guard := { shared.guard with config := shared.guard.config.withMode mode } }, .returned (.ok ()))

def lockedStep (shared : Shared β) : Pc β → Option (Shared β × Pc β)
  | .reloadRead newState body => some (shared, .reloadWrite
      { newState with blocked := shared.guard.blocked, blockedTotal := shared.guard.blockedTotal } body)
  | .reloadWrite newState body => some (reinstall shared newState, .body body)
  | .body body => some (bodySection env shared body)
  | .commitDomains normalizedHost target previousCfg constraints newState =>
      some (commitDomains shared normalizedHost target previousCfg constraints newState)
  | .commitMode mode constraints => some (commitMode shared mode constraints)
  | .forceWrite newState =>
      some (reinstall shared { newState with blocked := shared.guard.blocked }, .returned (.ok ()))
  | _ => none

def step (shared : Shared β) (pc : Pc β) : Answer β → Option (Shared β × Pc β)
  | .locked => lockedStep env shared pc
  | .maybeReload answer =>
      match pc, answer with
      | .maybeReload _, .error messages => some (shared, .returned (.error messages))
      | .maybeReload body, .ok none => some (shared, .body body)
      | .maybeReload body, .ok (some newState) => some (shared, .reloadRead newState body)
      | _, _ => none
  | .reloadNow answer =>
      match pc, answer with
      | .reloadNow, .error messages => some (shared, .returned (.error messages))
      | .reloadNow, .ok newState => some (shared, .forceWrite newState)
      | _, _ => none

def next : Pool (Shared β) (Pc β) → Pool.Event (Call β) (Answer β) → Option (Pool (Shared β) (Pc β)) :=
  Pool.next (start env) (step env)

end Steps

def withReloader (state : ConfigState β) : Pool (Shared β) (Pc β) := ⟨⟨state, [], [], [], []⟩, []⟩

/-! ### Frames -/

variable {env : ConfigEnvironment} {shared shared' : Shared β} {pc pc' : Pc β}

/-- The steps that ask the reloader leave the shared state alone. -/
theorem shared_of_answer {answer : Answer β} (h : step env shared pc answer = some (shared', pc'))
    (ha : answer ≠ .locked) : shared' = shared := by
  cases answer with
  | locked => exact absurd rfl ha
  | maybeReload answer =>
    cases pc <;> rcases answer with _ | _ | _ <;> cases h <;> rfl
  | reloadNow answer =>
    cases pc <;> rcases answer with _ | _ <;> cases h <;> rfl

/-! ### The account of blocked requests -/

/-- **The account**: each recorded request is evicted, drained or buffered, and the counter counts them. -/
structure Shared.Ledger (shared : Shared β) : Prop where
  perm : shared.recorded.Perm (shared.evicted ++ shared.drained ++ shared.guard.blocked)
  total : shared.guard.blockedTotal = shared.recorded.length

/-- The buffer has the same requests and the counter the same value. -/
def SameBlocked (newState guard : ConfigState β) : Prop :=
  newState.blocked.Perm guard.blocked ∧ newState.blockedTotal = guard.blockedTotal

/-- **Nothing is overwritten**: a state that is installed with the buffer and the counter of an earlier
section finds them as they were then, one that is forced in brings the current counter, and the counter is not
at its end when it is increased. -/
def Undisturbed (shared : Shared β) : Pc β → Prop
  | .reloadWrite newState _ => SameBlocked newState shared.guard
  | .commitDomains _ _ previousCfg constraints newState => shared.guard.constraints = constraints →
      shared.guard.config = previousCfg → SameBlocked newState shared.guard
  | .forceWrite newState => newState.blockedTotal = shared.guard.blockedTotal
  | .body (.recordBlocked _) => shared.guard.blockedTotal < u64Max
  | _ => True

variable {newState : ConfigState β} {updates : List (Str × DomainListKind)}

/-- Only the buffer and the counter matter when a state is installed. -/
theorem ledger_install_iff (h : shared.Ledger) : Shared.Ledger { shared with guard := newState, updates := updates } ↔
      SameBlocked newState shared.guard := by
  constructor
  · intro h'
    refine ⟨?_, h'.total.trans h.total.symm⟩
    exact (perm_append_left_iff _).mp (h'.perm.symm.trans h.perm)
  · rintro ⟨hperm, htotal⟩
    exact ⟨h.perm.trans (hperm.symm.append_left _), htotal.trans h.total⟩

variable {entry : β}

theorem perm_recordSection (h : shared.Ledger) : (recordSection shared entry).recorded.Perm
    ((recordSection shared entry).evicted ++ (recordSection shared entry).drained ++
      (recordSection shared entry).guard.blocked) := by
  dsimp only [recordSection]
  generalize (shared.guard.blocked ++ [entry]).length - maxBlockedEvents = n
  refine (h.perm.append_right [entry]).trans ?_
  rw [append_assoc _ shared.guard.blocked]
  generalize shared.guard.blocked ++ [entry] = blocked
  -- the evicted part moves in front of what was drained
  conv_lhs => rw [← take_append_drop n blocked]
  simp only [append_assoc]
  exact (perm_append_comm_assoc shared.drained _ _).append_left shared.evicted

theorem ledger_recordSection_iff (h : shared.Ledger) :
    (recordSection shared entry).Ledger ↔ shared.guard.blockedTotal < u64Max := by
  have htotal : (recordSection shared entry).guard.blockedTotal = (recordSection shared entry).recorded.length ↔
      shared.guard.blockedTotal < u64Max := by
    show min (shared.guard.blockedTotal + 1) u64Max = (shared.recorded ++ [entry]).length ↔ _
    rw [length_append, length_singleton, ← h.total]
    omega
  exact ⟨fun h' => htotal.mp h'.total, fun ht => ⟨perm_recordSection h, htotal.mpr ht⟩⟩

theorem ledger_drainSection (h : shared.Ledger) : (drainSection shared).Ledger := by
  refine ⟨?_, h.total⟩
  show shared.recorded.Perm (shared.evicted ++ (shared.drained ++ shared.guard.blocked) ++ [])
  rw [append_nil, ← append_assoc]
  exact h.perm

variable {normalizedHost : Str} {target : DomainListKind}

theorem ledger_updateSection (h : shared.Ledger) : (updateSection env shared normalizedHost target).1.Ledger := by
  unfold updateSection
  split_ifs
  · exact ⟨h.perm, h.total⟩
  · split
    · exact h
    · split <;> exact h

theorem ledger_bodySection_iff {body : Body β} (h : shared.Ledger) :
    (bodySection env shared body).1.Ledger ↔ Undisturbed shared (.body body) := by
  cases body with
  | recordBlocked entry => exact ledger_recordSection_iff h
  | drainBlocked => exact iff_of_true (ledger_drainSection h) trivial
  | updateDomainList normalizedHost target => exact iff_of_true (ledger_updateSection h) trivial
  | replaceConfigState newState =>
    exact iff_of_true ((ledger_install_iff h).mpr ⟨List.Perm.refl _, rfl⟩) trivial
  | setNetworkMode | read => exact iff_of_true h trivial

variable {constraints : NetworkProxyConstraints}

theorem ledger_commitDomains_iff {previousCfg : NetworkProxyConfig} (h : shared.Ledger) :
    (commitDomains shared normalizedHost target previousCfg constraints newState).1.Ledger ↔
      Undisturbed shared (.commitDomains normalizedHost target previousCfg constraints newState) := by
  unfold commitDomains
  split_ifs with hstale
  · refine iff_of_true h fun hc hcfg => ?_
    exact absurd hstale (by rw [hc, hcfg]; simp)
  · rw [not_or, not_not, not_not] at hstale
    rw [ledger_install_iff h]
    exact ⟨fun hs _ _ => hs, fun hs => hs hstale.1 hstale.2⟩

theorem ledger_commitMode {mode : NetworkMode} (h : shared.Ledger) :
    (commitMode shared mode constraints).1.Ledger := by
  unfold commitMode
  split_ifs
  · exact h
  · exact ⟨h.perm, h.total⟩

/-- **One section** keeps the account exactly if it overwrites nothing. -/
theorem ledger_lockedStep_iff (h : shared.Ledger) (hs : lockedStep env shared pc = some (shared', pc')) :
    shared'.Ledger ↔ Undisturbed shared pc := by
  cases pc with
  | maybeReload | reloadNow | returned => cases hs
  | reloadRead newState body =>
    obtain ⟨rfl, _⟩ := some_mk_inj hs
    exact iff_of_true h trivial
  | reloadWrite newState body =>
    obtain ⟨rfl, _⟩ := some_mk_inj hs
    exact ledger_install_iff h
  | body body =>
    have hb : (bodySection env shared body).1.Ledger ↔ Undisturbed shared (.body body) := ledger_bodySection_iff h
    rwa [some.inj hs] at hb
  | commitDomains normalizedHost target previousCfg constraints newState =>
    rw [← ledger_commitDomains_iff h, some.inj hs]
  | commitMode mode constraints =>
    refine iff_of_true ?_ trivial
    have hm : (commitMode shared mode constraints).1.Ledger := ledger_commitMode h
    rwa [some.inj hs] at hm
  | forceWrite newState =>
    obtain ⟨rfl, _⟩ := some_mk_inj hs
    refine (ledger_install_iff h).trans ?_
    exact ⟨fun hs => hs.2, fun ht => ⟨List.Perm.refl _, ht⟩⟩

/-- The section that an event runs overwrites nothing. -/
def UndisturbedBy (p : Pool (Shared β) (Pc β)) : Pool.Event (Call β) (Answer β) → Prop
  | .step task .locked => ∀ pc, p.tasks[task]? = some pc → Undisturbed p.shared pc
  | _ => True

instance decidableUndisturbed [DecidableEq β] (shared : Shared β) : ∀ pc, Decidable (Undisturbed shared pc)
  | .reloadWrite .. => inferInstanceAs (Decidable (_ ∧ _))
  | .commitDomains .. => inferInstanceAs (Decidable (_ → _ → _ ∧ _))
  | .forceWrite _ => inferInstanceAs (Decidable (_ = _))
  | .body (.recordBlocked _) => inferInstanceAs (Decidable (_ < _))
  | .body (.updateDomainList ..) | .body (.setNetworkMode _) | .body (.replaceConfigState _) | .body .drainBlocked
  | .body .read | .maybeReload _ | .reloadNow | .returned _ | .reloadRead .. | .commitMode .. => isTrue trivial

instance decidableUndisturbedBy [DecidableEq β] (p : Pool (Shared β) (Pc β)) : ∀ e, Decidable (UndisturbedBy p e)
  | .step task .locked => inferInstanceAs (Decidable (∀ pc ∈ p.tasks[task]?, Undisturbed p.shared pc))
  | .call _ | .step _ (.maybeReload _) | .step _ (.reloadNow _) => isTrue trivial

/-- An impossible section is none of the four that may overwrite. -/
theorem undisturbed_of_lockedStep_eq_none {shared : Shared β} {pc : Pc β} (h : lockedStep env shared pc = none) :
    Undisturbed shared pc := by
  cases pc with
  | maybeReload | reloadNow | returned | reloadRead | commitMode => trivial
  | reloadWrite | body | commitDomains | forceWrite => cases h

/-- **Blocked requests are accounted for** throughout exactly the runs in which no section overwrites a
buffer or counter that changed since it was copied. -/
theorem ledger_throughout_iff {config : NetworkProxyConfig} {constraints : NetworkProxyConstraints}
    {state : ConfigState β} (hbuild : buildConfigState env config constraints = .ok state)
    (events : List (Pool.Event (Call β) (Answer β))) :
    Throughout (next env) (fun p => p.shared.Ledger) (withReloader state) events ↔
      Meets (next env) UndisturbedBy (withReloader state) events := by
  have hstart : (withReloader state).shared.Ledger := by
    rw [(buildConfigState_eq_ok hbuild).2.2]
    exact ⟨List.Perm.refl _, rfl⟩
  refine throughout_iff_meets (fun _ _ _ _ _ _ => trivial) ?_ ?_ trivial hstart
  · intro p e q _ hp hq
    match e with
    | .call c =>
      obtain rfl := some.inj hq
      exact iff_of_true hp trivial
    | .step task .locked =>
      obtain ⟨pc, shared, pc', hpc, hs, rfl⟩ := Pool.next_step hq
      refine (ledger_lockedStep_iff hp hs).trans ⟨fun h pc₂ h₂ => ?_, fun h => h pc hpc⟩
      rwa [← mem_unique hpc h₂]
    | .step task (.maybeReload answer) | .step task (.reloadNow answer) =>
      obtain ⟨pc, shared, pc', hpc, hs, rfl⟩ := Pool.next_step hq
      obtain rfl := shared_of_answer hs nofun
      exact iff_of_true hp trivial
  · intro p e _ _ hnone
    match e with
    | .call c | .step task (.maybeReload answer) | .step task (.reloadNow answer) => trivial
    | .step task .locked => exact fun pc hpc => undisturbed_of_lockedStep_eq_none (Pool.step_eq_none hnone hpc)

/-! ### A lost record -/

def defaultState : ConfigState ℕ :=
  ⟨⟨NetworkProxySettings.default⟩, ⟨[]⟩, ⟨[]⟩, none, NetworkProxyConstraints.default, [], 0⟩

/-- A request is recorded while `add_allowed_domain` holds its copy of the buffer. -/
def recordDuringUpdate : List (Pool.Event (Call ℕ) (Answer ℕ)) :=
  [.call (.addAllowedDomain "example.com"), .step 0 (.maybeReload (.ok none)), .step 0 .locked,
    .call (.recordBlocked 7), .step 1 (.maybeReload (.ok none)), .step 1 .locked, .step 0 .locked]

/-- Requests are recorded before `add_allowed_domain` has its copy and after it has put it back, and drained. -/
def recordAroundUpdate : List (Pool.Event (Call ℕ) (Answer ℕ)) :=
  [.call (.addAllowedDomain "example.com"), .call (.recordBlocked 7), .step 0 (.maybeReload (.ok none)),
    .step 1 (.maybeReload (.ok none)), .step 1 .locked, .step 0 .locked, .call .drainBlocked, .step 0 .locked,
    .call (.recordBlocked 8), .step 3 (.maybeReload (.ok none)), .step 2 (.maybeReload (.ok none)), .step 3 .locked,
    .step 2 .locked]

theorem ledger_recordAroundUpdate : Throughout (next asciiEnvironment) (fun p => p.shared.Ledger)
    (withReloader defaultState) recordAroundUpdate := by
  have hbuild : buildConfigState asciiEnvironment ⟨NetworkProxySettings.default⟩ NetworkProxyConstraints.default =
      .ok defaultState := by decide +kernel
  exact (ledger_throughout_iff hbuild _).mpr (by decide +kernel)

/-- After both calls have returned, the record is nowhere and the counter is 0. -/
theorem not_ledger_recordDuringUpdate : ∃ p, run (next asciiEnvironment) (withReloader defaultState)
    recordDuringUpdate = some p ∧ p.shared.recorded = [7] ∧ p.shared.guard.blocked = [] ∧ p.shared.drained = [] ∧
      p.shared.evicted = [] ∧ p.shared.guard.blockedTotal = 0 ∧ ¬ p.shared.Ledger := by
  obtain ⟨p, hp, hr, hb, hd, he, ht⟩ : ∃ p ∈ run (next asciiEnvironment) (withReloader defaultState)
      recordDuringUpdate, p.shared.recorded = [7] ∧ p.shared.guard.blocked = [] ∧ p.shared.drained = [] ∧
        p.shared.evicted = [] ∧ p.shared.guard.blockedTotal = 0 := by decide +kernel
  refine ⟨p, hp, hr, hb, hd, he, ht, fun hl => ?_⟩
  have htotal := hl.total
  rw [ht, hr] at htotal
  cases htotal

end OpenAgere.Network
