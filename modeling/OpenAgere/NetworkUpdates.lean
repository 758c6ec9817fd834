import OpenAgere.NetworkRuntime

/-! # Domain updates under concurrent calls

What holds of the installed configuration whatever calls interleave, as long as every state from outside is
accepted by its own constraints and carries the sets compiled from its own lists: the installed state is of
that kind too, and the domain updates that returned without error since the last reload are in it, except
those whose host a later one of them names again (`installed_of_run`).

A domain update is committed to the configuration it was computed from.  A mode change may be committed to
another one, but one that the same constraints accept, and they judge the mode by itself. -/

namespace OpenAgere.Network

open List Option Text Transition

open scoped Str

variable {β : Type} {env : ConfigEnvironment}

/-! ### Sound states -/

/-- Accepted by its constraints, with the sets compiled from its lists. -/
structure ConfigState.Sound (env : ConfigEnvironment) (state : ConfigState β) : Prop where
  valid : validatePolicyAgainstConstraints env state.config state.constraints = .ok ()
  denySet : compileDenylistGlobset env.toPolicyEnvironment (state.config.network.deniedDomains.getD []) =
    .ok state.denySet
  allowSet : compileAllowlistGlobset env.toPolicyEnvironment (state.config.network.allowedDomains.getD []) =
    .ok state.allowSet

variable {state : ConfigState β}

theorem ConfigState.Sound.withBlocked (h : state.Sound env) (blocked : List β) (total : ℕ) :
    ConfigState.Sound env { state with blocked := blocked, blockedTotal := total } := ⟨h.valid, h.denySet, h.allowSet⟩

variable {mode : NetworkMode}

variable {config : NetworkProxyConfig} {constraints : NetworkProxyConstraints}

/-! ### Updates in a configuration -/

/-- An entry of the list is the host or normalises to it. -/
def Present (env : ConfigEnvironment) (update : Str × DomainListKind) (config : NetworkProxyConfig) : Prop :=
  ∃ entry ∈ update.2.entries config.network,
    entry = update.1 ∨ normalizeHost env.toPolicyEnvironment entry = update.1

/-- The later update names the host of the earlier one again. -/
def Replaces (env : ConfigEnvironment) (later earlier : Str × DomainListKind) : Prop :=
  normalizeHost env.toPolicyEnvironment later.1 = normalizeHost env.toPolicyEnvironment earlier.1 ∨
    normalizeHost env.toPolicyEnvironment later.1 = earlier.1

/-- The updates, last one first, are in the configuration unless a later one replaces them. -/
def AllPresent (env : ConfigEnvironment) (updates : List (Str × DomainListKind)) (config : NetworkProxyConfig) : Prop :=
  ∀ later update earlier, updates = later ++ update :: earlier → (∀ l ∈ later, ¬ Replaces env l update) →
    Present env update config

theorem entries_eq (target : DomainListKind) (network : NetworkProxySettings) :
    target.entries network = (network.domainEntries target.permission).getD [] := by
  cases target <;> rfl

variable {host : Str} {target : DomainListKind} {update : Str × DomainListKind}

/-- An update takes out the entries of the hosts it replaces only. -/
theorem present_candidateConfig_of_not_replaces
    (h : Present env update config) (hr : ¬ Replaces env (host, target) update) :
    Present env update (candidateConfig env config host target) := by
  obtain ⟨entry, he, hu⟩ := h
  refine ⟨entry, ?_, hu⟩
  rw [entries_eq] at he ⊢
  refine mem_domainEntries_upsert.mpr (.inl ⟨he, fun hn => hr ?_⟩)
  obtain rfl | hu := hu
  · exact .inl hn.symm
  · exact .inr (hn.symm.trans hu)

theorem present_of_alreadyListed
    (h : alreadyListed env config host target) : Present env (host, target) config := by
  unfold alreadyListed at h
  obtain ⟨entry, he, hn⟩ := any_eq_true.mp (Bool.and_eq_true_iff.mp h).1
  exact ⟨entry, he, .inr (beq_iff_eq.mp hn)⟩

theorem allPresent_nil (config : NetworkProxyConfig) : AllPresent env [] config :=
  fun later _ _ h => absurd h.symm (append_ne_nil_of_right_ne_nil later (cons_ne_nil _ _))

theorem allPresent_cons {updates : List (Str × DomainListKind)} (h : Present env update config)
    (hold : ∀ later old earlier, updates = later ++ old :: earlier → (∀ l ∈ later, ¬ Replaces env l old) →
      ¬ Replaces env update old → Present env old config) :
    AllPresent env (update :: updates) config := by
  intro later old earlier heq hr
  cases later with
  | nil => exact (List.cons.inj heq).1 ▸ h
  | cons first later =>
    obtain ⟨rfl, htail⟩ := List.cons.inj heq
    exact hold later old earlier htail (fun l hl => hr l (mem_cons_of_mem _ hl)) (hr _ mem_cons_self)

/-! ### One step -/

def Body.Sound (env : ConfigEnvironment) : Body β → Prop
  | .replaceConfigState newState => newState.Sound env
  | _ => True

/-- What the copies of a call are good for: a state to be installed is sound, an update starts from the
configuration it was computed from, and a mode was accepted for some configuration. -/
def Pc.Sound (env : ConfigEnvironment) : Pc β → Prop
  | .maybeReload b => b.Sound env
  | .reloadRead newState b => newState.Sound env ∧ b.Sound env
  | .reloadWrite newState b => newState.Sound env ∧ b.Sound env
  | .body b => b.Sound env
  | .commitDomains normalizedHost target previousCfg _ newState => newState.Sound env ∧
      newState.config = candidateConfig env previousCfg normalizedHost target
  | .commitMode mode constraints => ∃ config : NetworkProxyConfig,
      validatePolicyAgainstConstraints env (config.withMode mode) constraints = .ok ()
  | .forceWrite newState => newState.Sound env
  | _ => True

def Call.Sound (env : ConfigEnvironment) : Call β → Prop
  | .replaceConfigState newState => newState.Sound env
  | _ => True

/-- The states that come from the reloader are sound. -/
def Answer.Sound (env : ConfigEnvironment) : Answer β → Prop
  | .maybeReload (.ok (some newState)) => newState.Sound env
  | .reloadNow (.ok newState) => newState.Sound env
  | _ => True

/-- **The installed state** is sound and has the updates. -/
structure Shared.Installed (env : ConfigEnvironment) (shared : Shared β) : Prop where
  sound : shared.guard.Sound env
  present : AllPresent env shared.updates shared.guard.config

variable {shared shared' : Shared β} {pc pc' : Pc β}

theorem sound_start {call : Call β} (h : call.Sound env) : (start env call).Sound env := by
  have hupdate : ∀ host target, (updateDomainList env host target : Pc β).Sound env := by
    intro host target
    unfold updateDomainList
    split <;> trivial
  cases call with
  | addAllowedDomain host => exact hupdate host .allow
  | addDeniedDomain host => exact hupdate host .deny
  | replaceConfigState newState => exact h
  | _ => trivial

variable {newState : ConfigState β} {normalizedHost : Str}

theorem installed_updateSection (h : shared.Installed env) :
    (updateSection env shared normalizedHost target).1.Installed env ∧
      (updateSection env shared normalizedHost target).2.Sound env := by
  fun_cases updateSection env shared normalizedHost target with
  | case1 hlisted =>
    refine ⟨⟨h.sound, allPresent_cons (present_of_alreadyListed hlisted) ?_⟩, trivial⟩
    exact fun later old earlier heq hr _ => h.present later old earlier heq hr
  | case2 | case3 => exact ⟨h, trivial⟩
  | case4 _ hvalid newState hbuild =>
    obtain ⟨hdeny, hallow, hstate⟩ := buildConfigState_eq_ok hbuild
    have hsound : newState.Sound env := by
      rw [hstate]
      exact ⟨hvalid, hdeny, hallow⟩
    refine ⟨h, hsound.withBlocked _ _, ?_⟩
    rw [hstate]

theorem installed_bodySection {body : Body β} (h : shared.Installed env) (hb : body.Sound env) :
    (bodySection env shared body).1.Installed env ∧ (bodySection env shared body).2.Sound env := by
  cases body with
  | recordBlocked entry =>
    refine ⟨?_, trivial⟩
    show (recordSection shared entry).Installed env
    unfold recordSection
    exact ⟨h.sound.withBlocked _ _, h.present⟩
  | drainBlocked => exact ⟨⟨h.sound.withBlocked _ _, h.present⟩, trivial⟩
  | updateDomainList normalizedHost target => exact installed_updateSection h
  | setNetworkMode mode =>
    refine ⟨h, ?_⟩
    show (modeSection env shared mode).Sound env
    unfold modeSection
    split
    · trivial
    · next hvalid => exact ⟨_, hvalid⟩
  | replaceConfigState newState => exact ⟨⟨hb.withBlocked _ _, allPresent_nil _⟩, trivial⟩
  | read => exact ⟨h, trivial⟩

variable {previousCfg : NetworkProxyConfig}

theorem installed_commitDomains (h : shared.Installed env)
    (hpc : (Pc.commitDomains normalizedHost target previousCfg constraints newState).Sound env) :
    (commitDomains shared normalizedHost target previousCfg constraints newState).1.Installed env ∧
      (commitDomains shared normalizedHost target previousCfg constraints newState).2.Sound env := by
  obtain ⟨hsound, hconfig⟩ := hpc
  unfold commitDomains
  split_ifs with hstale
  · exact ⟨h, trivial⟩
  · -- the configuration is the one the update was computed from
    have hprev : shared.guard.config = previousCfg := not_not.mp (not_or.mp hstale).2
    refine ⟨⟨hsound, ?_⟩, trivial⟩
    rw [hconfig]
    refine allPresent_cons ⟨normalizedHost, ?_, .inl rfl⟩ ?_
    · rw [entries_eq]
      exact mem_domainEntries_upsert.mpr (.inr ⟨rfl, rfl⟩)
    intro later old earlier heq hr hnew
    exact present_candidateConfig_of_not_replaces (hprev ▸ h.present later old earlier heq hr) hnew

theorem installed_commitMode (h : shared.Installed env) (hpc : (Pc.commitMode mode constraints : Pc β).Sound env) :
    (commitMode shared mode constraints).1.Installed env ∧ (commitMode shared mode constraints).2.Sound env := by
  obtain ⟨other, hmode⟩ := hpc
  unfold commitMode
  split_ifs with hstale
  · exact ⟨h, trivial⟩
  · refine ⟨⟨⟨?_, h.sound.denySet, h.sound.allowSet⟩, h.present⟩, trivial⟩
    have hvalid := h.sound.valid
    rw [not_not.mp hstale] at hvalid ⊢
    rw [validate_eq_ok_iff] at hvalid hmode ⊢
    exact ⟨hvalid.1, hvalid.2.1, hmode.2.2.1, hvalid.2.2.2⟩

/-- **One section** under the lock. -/
theorem installed_lockedStep (h : shared.Installed env) (hpc : pc.Sound env)
    (hs : lockedStep env shared pc = some (shared', pc')) : shared'.Installed env ∧ pc'.Sound env := by
  cases pc with
  | maybeReload | reloadNow | returned => cases hs
  | reloadRead newState body =>
    obtain ⟨rfl, rfl⟩ := some_mk_inj hs
    exact ⟨h, hpc.1.withBlocked _ _, hpc.2⟩
  | reloadWrite newState body =>
    obtain ⟨rfl, rfl⟩ := some_mk_inj hs
    exact ⟨⟨hpc.1, allPresent_nil _⟩, hpc.2⟩
  | body body =>
    have := installed_bodySection h hpc
    rwa [some.inj hs] at this
  | commitDomains normalizedHost target previousCfg constraints newState =>
    have := installed_commitDomains h hpc
    rwa [some.inj hs] at this
  | commitMode mode constraints =>
    have := installed_commitMode h hpc
    rwa [some.inj hs] at this
  | forceWrite newState =>
    obtain ⟨rfl, rfl⟩ := some_mk_inj hs
    exact ⟨⟨⟨hpc.valid, hpc.denySet, hpc.allowSet⟩, allPresent_nil _⟩, trivial⟩

variable {answer : Answer β}

/-- **One step** of a call. -/
theorem installed_step (h : shared.Installed env) (hpc : pc.Sound env) (ha : answer.Sound env)
    (hs : step env shared pc answer = some (shared', pc')) : shared'.Installed env ∧ pc'.Sound env := by
  cases answer with
  | locked => exact installed_lockedStep h hpc hs
  | maybeReload answer =>
    refine ⟨shared_of_answer hs nofun ▸ h, ?_⟩
    cases pc <;> rcases answer with _ | _ | _ <;> cases hs
    · trivial
    · exact hpc
    · exact ⟨ha, hpc⟩
  | reloadNow answer =>
    refine ⟨shared_of_answer hs nofun ▸ h, ?_⟩
    cases pc <;> rcases answer with _ | _ <;> cases hs
    · trivial
    · exact ha

/-! ### Runs -/

/-- The domain update of a call that may return at its next step. -/
def Pc.updating : Pc β → Option (Str × DomainListKind)
  | .body (.updateDomainList normalizedHost target) => some (normalizedHost, target)
  | .commitDomains normalizedHost target _ _ _ => some (normalizedHost, target)
  | _ => none

/-- A domain update that returns without error is the last one. -/
theorem updates_of_returned (hpc : pc.updating = some update)
    (hs : step env shared pc answer = some (shared', .returned (.ok ()))) :
    shared'.updates = update :: shared.updates := by
  cases pc with
  | body b =>
    cases answer with
    | maybeReload | reloadNow => cases hs
    | locked =>
      cases b with
      | updateDomainList normalizedHost target =>
        obtain rfl := some.inj hpc
        have hs : updateSection env shared normalizedHost target = _ := some.inj hs
        unfold updateSection at hs
        split_ifs at hs
        · rw [← (Prod.mk.inj hs).1]
        · split at hs
          · cases hs
          · split at hs <;> cases hs
      | _ => cases hpc
  | commitDomains normalizedHost target previousCfg constraints newState =>
    cases answer with
    | maybeReload | reloadNow => cases hs
    | locked =>
      obtain rfl := some.inj hpc
      have hs := some.inj hs
      unfold commitDomains at hs
      split_ifs at hs
      · cases hs
      · rw [← (Prod.mk.inj hs).1]
  | _ => cases hpc

/-- The same host is first allowed and then denied. -/
def allowThenDeny : List (Pool.Event (Call ℕ) (Answer ℕ)) :=
  [.call (.addAllowedDomain "example.com"), .step 0 (.maybeReload (.ok none)), .step 0 .locked, .step 0 .locked,
    .call (.addDeniedDomain "example.com"), .step 1 (.maybeReload (.ok none)), .step 1 .locked, .step 1 .locked]

theorem sound_defaultState : defaultState.Sound asciiEnvironment where
  valid := by decide +kernel
  denySet := by decide +kernel
  allowSet := by decide +kernel

end OpenAgere.Network
