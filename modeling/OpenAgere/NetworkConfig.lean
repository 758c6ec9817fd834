import OpenAgere.NetworkPolicy

/-! # Configuration of the network proxy and its managed constraints

`network-proxy/src/config.rs` and `state.rs`: the settings with their list of domain permissions, the
constraints a managed configuration puts on them, `validatePolicyAgainstConstraints`, and
`buildConfigState`, which compiles the allowed and the denied patterns.

A configuration is accepted when each of its fields is (`validate_eq_ok_iff`).  The effective permission of a pattern is the strongest of its
entries; `upsertDomainPermission` takes out the entries of one normalised host and adds one
(`effectiveEntries_upsert`). -/

namespace OpenAgere.Network

open List Text

open scoped Str

/-! ### Settings -/

/-- The order of the variants is the order of precedence. -/
inductive NetworkDomainPermission where
  | none
  | allow
  | deny
deriving DecidableEq, Repr

def NetworkDomainPermission.rank : NetworkDomainPermission → ℕ
  | none => 0
  | allow => 1
  | deny => 2

structure NetworkDomainPermissionEntry where
  pattern : Str
  permission : NetworkDomainPermission
deriving DecidableEq, Repr

structure NetworkDomainPermissions where
  entries : List NetworkDomainPermissionEntry
deriving DecidableEq, Repr

inductive NetworkUnixSocketPermission where
  | allow
  | none
deriving DecidableEq, Repr

/-- The paths in the order of the `BTreeMap` that holds them. -/
structure NetworkUnixSocketPermissions where
  entries : List (Str × NetworkUnixSocketPermission)
deriving DecidableEq, Repr

inductive NetworkMode where
  | limited
  | full
deriving DecidableEq, Repr

def networkModeRank : NetworkMode → ℕ
  | .limited => 0
  | .full => 1

/-- The `Debug` text. -/
def NetworkMode.debug : NetworkMode → Str
  | limited => "Limited"
  | full => "Full"

structure NetworkProxySettings where
  enabled : Bool
  proxyUrl : Str
  enableSocks5 : Bool
  socksUrl : Str
  enableSocks5Udp : Bool
  allowUpstreamProxy : Bool
  dangerouslyAllowNonLoopbackProxy : Bool
  dangerouslyAllowAllUnixSockets : Bool
  mode : NetworkMode
  domains : Option NetworkDomainPermissions
  unixSockets : Option NetworkUnixSocketPermissions
  allowLocalBinding : Bool
  mitm : Bool
deriving DecidableEq, Repr

/-- `Default` -/
def NetworkProxySettings.default : NetworkProxySettings where
  enabled := false
  proxyUrl := "http://127.0.0.1:3128"
  enableSocks5 := true
  socksUrl := "http://127.0.0.1:8081"
  enableSocks5Udp := true
  allowUpstreamProxy := true
  dangerouslyAllowNonLoopbackProxy := false
  dangerouslyAllowAllUnixSockets := false
  mode := .full
  domains := none
  unixSockets := none
  allowLocalBinding := false
  mitm := false

structure NetworkProxyConfig where
  network : NetworkProxySettings
deriving DecidableEq, Repr

/-- One round of the loop of `effective_entries`: a pattern seen before keeps its place and the stronger
permission, and a new one comes last. -/
def addEffective (effective : List NetworkDomainPermissionEntry) (entry : NetworkDomainPermissionEntry) :
    List NetworkDomainPermissionEntry :=
  if entry.pattern ∈ effective.map (·.pattern) then
    effective.map fun e =>
      if e.pattern = entry.pattern ∧ e.permission.rank < entry.permission.rank then entry else e
  else effective ++ [entry]

def NetworkDomainPermissions.effectiveEntries (domains : NetworkDomainPermissions) :
    List NetworkDomainPermissionEntry :=
  domains.entries.foldl addEffective []

namespace NetworkProxySettings

def domainEntries (network : NetworkProxySettings) (permission : NetworkDomainPermission) : Option (List Str) :=
  (network.domains.map fun domains =>
    (domains.effectiveEntries.filter (·.permission = permission)).map (·.pattern)).filter (!·.isEmpty)

def allowedDomains (network : NetworkProxySettings) : Option (List Str) := network.domainEntries .allow

def deniedDomains (network : NetworkProxySettings) : Option (List Str) := network.domainEntries .deny

def allowUnixSockets (network : NetworkProxySettings) : List Str :=
  match network.unixSockets with
  | some unixSockets => (unixSockets.entries.filter (·.2 = .allow)).map (·.1)
  | none => []

def upsertDomainPermission (network : NetworkProxySettings) (host : Str) (permission : NetworkDomainPermission)
    (normalize : Str → Str) : NetworkProxySettings :=
  let domains := network.domains.getD ⟨[]⟩
  let entries := domains.entries.filter (fun entry => normalize entry.pattern ≠ normalize host) ++
    [⟨host, permission⟩]
  { network with domains := if entries.isEmpty then none else some ⟨entries⟩ }

end NetworkProxySettings

/-! ### Constraints -/

structure NetworkProxyConstraints where
  enabled : Option Bool
  mode : Option NetworkMode
  allowUpstreamProxy : Option Bool
  dangerouslyAllowNonLoopbackProxy : Option Bool
  dangerouslyAllowAllUnixSockets : Option Bool
  allowedDomains : Option (List Str)
  allowlistExpansionEnabled : Option Bool
  deniedDomains : Option (List Str)
  denylistExpansionEnabled : Option Bool
  allowUnixSockets : Option (List Str)
  allowLocalBinding : Option Bool
deriving DecidableEq, Repr

/-- `Default` -/
def NetworkProxyConstraints.default : NetworkProxyConstraints :=
  ⟨none, none, none, none, none, none, none, none, none, none, none⟩

/-- `NetworkProxyConstraintError::InvalidValue` -/
structure NetworkProxyConstraintError where
  fieldName : Str
  candidate : Str
  allowed : Str
deriving DecidableEq, Repr

/-- The error's `Display` text. -/
def NetworkProxyConstraintError.message (error : NetworkProxyConstraintError) : Str :=
  "invalid value for " ++ error.fieldName ++ ": " ++ error.candidate ++ " (allowed " ++
    error.allowed ++ ")"

structure MitmUpstreamConfig where
  allowUpstreamProxy : Bool
  allowLocalBinding : Bool
deriving DecidableEq, Repr

/-- What building and checking a configuration asks beyond the policy. -/
structure ConfigEnvironment extends PolicyEnvironment where
  /-- the `Debug` text of a string -/
  debugStr : Str → Str
  /-- the `Debug` text of a vector of strings -/
  debugVec : List Str → Str
  /-- the `Debug` text of a vector collected from a hash set of the strings -/
  debugSet : List Str → Str
  /-- `Path::is_absolute` -/
  isAbsolute : Str → Bool
  /-- `AbsolutePathBuf::from_absolute_path`, or its error -/
  fromAbsolutePath : Str → Except Str Unit
  /-- `MitmState::new`, or its error -/
  newMitmState : MitmUpstreamConfig → Except Str Unit

section Validation

variable (env : ConfigEnvironment)

/-- The lower-case entries, as a set. -/
def lowercaseSet (entries : List Str) : List Str := entries.map toAsciiLowercase

def sameSet (left right : List Str) : Bool := left.all (· ∈ right) && right.all (· ∈ left)

def validateNonGlobalWildcardDomainPatterns (fieldName : Str) (patterns : List Str) :
    Except NetworkProxyConstraintError Unit :=
  match patterns.find? (isGlobalWildcardDomainPattern env.toPolicyEnvironment) with
  | some pattern => .error ⟨fieldName, trim pattern,
      "exact hosts or scoped wildcards like *.example.com or **.example.com"⟩
  | none => .ok ()

/-- A flag that the managed configuration may keep off. -/
def validateFlag (fieldName : Str) (candidate permitted : Bool) : Except NetworkProxyConstraintError Unit :=
  if candidate ∧ ¬ permitted then
    .error ⟨fieldName, "true", "false (disabled by managed config)"⟩
  else .ok ()

def validateMode (mode : NetworkMode) (constraints : NetworkProxyConstraints) :
    Except NetworkProxyConstraintError Unit :=
  match constraints.mode with
  | none => .ok ()
  | some maxMode =>
      if networkModeRank maxMode < networkModeRank mode then
        .error ⟨"network.mode", mode.debug, maxMode.debug ++ " or more restrictive"⟩
      else .ok ()

def validateAllowedDomains (allowed denied : List Str) (constraints : NetworkProxyConstraints) :
    Except NetworkProxyConstraintError Unit :=
  match constraints.allowedDomains with
  | none => .ok ()
  | some managed => do
      validateNonGlobalWildcardDomainPatterns env "network.allowed_domains" managed
      match constraints.allowlistExpansionEnabled with
      | some true =>
          let missing := (lowercaseSet managed).filter fun entry =>
            entry ∉ lowercaseSet allowed ∧ entry ∉ lowercaseSet denied
          if missing = [] then .ok ()
          else .error ⟨"network.allowed_domains", "missing managed allowed_domains entries",
            env.debugSet missing⟩
      | some false =>
          if sameSet (lowercaseSet allowed) ((lowercaseSet managed).filter (· ∉ lowercaseSet denied)) then .ok ()
          else .error ⟨"network.allowed_domains", env.debugVec allowed,
            "must match managed allowed_domains"⟩
      | none =>
          let managedPatterns := managed.map (DomainPattern.parseForConstraints env.toPolicyEnvironment)
          let invalid := allowed.filter fun entry =>
            !managedPatterns.any (·.allows (DomainPattern.parseForConstraints env.toPolicyEnvironment entry))
          if invalid = [] then .ok ()
          else .error ⟨"network.allowed_domains", env.debugVec invalid,
            "subset of managed allowed_domains"⟩

def validateDeniedDomains (denied : List Str) (constraints : NetworkProxyConstraints) :
    Except NetworkProxyConstraintError Unit :=
  match constraints.deniedDomains with
  | none => .ok ()
  | some managed => do
      validateNonGlobalWildcardDomainPatterns env "network.denied_domains" managed
      match constraints.denylistExpansionEnabled with
      | some false =>
          if sameSet (lowercaseSet denied) (lowercaseSet managed) then .ok ()
          else .error ⟨"network.denied_domains", env.debugVec denied,
            "must match managed denied_domains"⟩
      | _ =>
          let missing := (lowercaseSet managed).filter (· ∉ lowercaseSet denied)
          if missing = [] then .ok ()
          else .error ⟨"network.denied_domains", "missing managed denied_domains entries",
            env.debugSet missing⟩

def validateUnixSockets (sockets : List Str) (constraints : NetworkProxyConstraints) :
    Except NetworkProxyConstraintError Unit :=
  match constraints.allowUnixSockets with
  | none => .ok ()
  | some managed =>
      let invalid := sockets.filter fun entry => toAsciiLowercase entry ∉ lowercaseSet managed
      if invalid = [] then .ok ()
      else .error ⟨"network.allow_unix_sockets", env.debugVec invalid,
        "subset of managed allow_unix_sockets"⟩

def validatePolicyAgainstConstraints (config : NetworkProxyConfig) (constraints : NetworkProxyConstraints) :
    Except NetworkProxyConstraintError Unit := do
  let allowed := config.network.allowedDomains.getD []
  let denied := config.network.deniedDomains.getD []
  validateNonGlobalWildcardDomainPatterns env "network.denied_domains" denied
  validateFlag "network.enabled" config.network.enabled (constraints.enabled.getD true)
  validateMode config.network.mode constraints
  validateFlag "network.allow_upstream_proxy" config.network.allowUpstreamProxy
    (constraints.allowUpstreamProxy.getD true)
  validateFlag "network.dangerously_allow_non_loopback_proxy"
    config.network.dangerouslyAllowNonLoopbackProxy (constraints.dangerouslyAllowNonLoopbackProxy.getD true)
  validateFlag "network.dangerously_allow_all_unix_sockets" config.network.dangerouslyAllowAllUnixSockets
    (constraints.dangerouslyAllowAllUnixSockets.getD constraints.allowUnixSockets.isNone)
  validateFlag "network.allow_local_binding" config.network.allowLocalBinding
    (constraints.allowLocalBinding.getD true)
  validateAllowedDomains env allowed denied constraints
  validateDeniedDomains env denied constraints
  validateUnixSockets env config.network.allowUnixSockets constraints

/-! ### Compiled state -/

/-- The state of the proxy; `β` is the type of the blocked requests. -/
structure ConfigState (β : Type) where
  config : NetworkProxyConfig
  allowSet : GlobSet
  denySet : GlobSet
  mitm : Option MitmUpstreamConfig
  constraints : NetworkProxyConstraints
  blocked : List β
  blockedTotal : ℕ
deriving DecidableEq

/-- `ValidatedUnixSocketPath::parse`, up to the path it returns. -/
def ValidatedUnixSocketPath.parse (socketPath : Str) : Except Failure Unit :=
  if env.isAbsolute socketPath then
    match env.fromAbsolutePath socketPath with
    | .error message => .error ["failed to normalize unix socket path " ++ env.debugStr socketPath, message]
    | .ok () => .ok ()
  else if socketPath.head? = some '/' then .ok ()
  else .error ["expected an absolute path, got " ++ env.debugStr socketPath]

/-- The loop of `validate_unix_socket_allowlist_paths`, from an index on. -/
def validateUnixSocketPathsFrom : ℕ → List Str → Except Failure Unit
  | _, [] => .ok ()
  | index, socketPath :: socketPaths =>
      match ValidatedUnixSocketPath.parse env socketPath with
      | .error messages => .error
          (("invalid network.allow_unix_sockets[" ++ (toString index).toList ++ "]") :: messages)
      | .ok () => validateUnixSocketPathsFrom (index + 1) socketPaths

def validateUnixSocketAllowlistPaths (config : NetworkProxyConfig) : Except Failure Unit :=
  validateUnixSocketPathsFrom env 0 config.network.allowUnixSockets

def newMitm (network : NetworkProxySettings) : Except Failure (Option MitmUpstreamConfig) :=
  if network.mitm then
    match env.newMitmState ⟨network.allowUpstreamProxy, network.allowLocalBinding⟩ with
    | .error message => .error [message]
    | .ok () => .ok (some ⟨network.allowUpstreamProxy, network.allowLocalBinding⟩)
  else .ok none

def buildConfigState {β : Type} (config : NetworkProxyConfig) (constraints : NetworkProxyConstraints) :
    Except Failure (ConfigState β) := do
  validateUnixSocketAllowlistPaths env config
  let allowed := config.network.allowedDomains.getD []
  let denied := config.network.deniedDomains.getD []
  (validateNonGlobalWildcardDomainPatterns env "network.denied_domains" denied).mapError ([·.message])
  let denySet ← compileDenylistGlobset env.toPolicyEnvironment denied
  let allowSet ← compileAllowlistGlobset env.toPolicyEnvironment allowed
  let mitm ← newMitm env config.network
  .ok ⟨config, allowSet, denySet, mitm, constraints, [], 0⟩

end Validation

/-! ### Acceptance -/

theorem andThen_eq_ok {ε : Type} {x : Except ε Unit} {f : Unit → Except ε Unit} :
    (x >>= f) = .ok () ↔ x = .ok () ∧ f () = .ok () := by
  rw [except_bind_ok]
  exact ⟨fun ⟨(), h⟩ => h, fun h => ⟨(), h⟩⟩

variable {env : ConfigEnvironment} {config : NetworkProxyConfig} {constraints : NetworkProxyConstraints}

/-- **Acceptance is field by field.** -/
theorem validate_eq_ok_iff : validatePolicyAgainstConstraints env config constraints = .ok () ↔
    validateNonGlobalWildcardDomainPatterns env "network.denied_domains"
      (config.network.deniedDomains.getD []) = .ok () ∧
    validateFlag "network.enabled" config.network.enabled (constraints.enabled.getD true) = .ok () ∧
    validateMode config.network.mode constraints = .ok () ∧
    validateFlag "network.allow_upstream_proxy" config.network.allowUpstreamProxy
      (constraints.allowUpstreamProxy.getD true) = .ok () ∧
    validateFlag "network.dangerously_allow_non_loopback_proxy"
      config.network.dangerouslyAllowNonLoopbackProxy
      (constraints.dangerouslyAllowNonLoopbackProxy.getD true) = .ok () ∧
    validateFlag "network.dangerously_allow_all_unix_sockets" config.network.dangerouslyAllowAllUnixSockets
      (constraints.dangerouslyAllowAllUnixSockets.getD constraints.allowUnixSockets.isNone) = .ok () ∧
    validateFlag "network.allow_local_binding" config.network.allowLocalBinding
      (constraints.allowLocalBinding.getD true) = .ok () ∧
    validateAllowedDomains env (config.network.allowedDomains.getD []) (config.network.deniedDomains.getD [])
      constraints = .ok () ∧
    validateDeniedDomains env (config.network.deniedDomains.getD []) constraints = .ok () ∧
    validateUnixSockets env config.network.allowUnixSockets constraints = .ok () := by
  unfold validatePolicyAgainstConstraints
  simp only [andThen_eq_ok]

/-- The configuration with another mode. -/
def NetworkProxyConfig.withMode (config : NetworkProxyConfig) (mode : NetworkMode) : NetworkProxyConfig :=
  ⟨{ config.network with mode := mode }⟩

/-- **What a built state is.** -/
theorem buildConfigState_eq_ok {β : Type} {state : ConfigState β}
    (h : buildConfigState env config constraints = .ok state) :
    compileDenylistGlobset env.toPolicyEnvironment (config.network.deniedDomains.getD []) = .ok state.denySet ∧
    compileAllowlistGlobset env.toPolicyEnvironment (config.network.allowedDomains.getD []) = .ok state.allowSet ∧
    state = ⟨config, state.allowSet, state.denySet, state.mitm, constraints, [], 0⟩ := by
  unfold buildConfigState at h
  obtain ⟨_, _, h⟩ := except_bind_ok.mp h
  obtain ⟨_, _, h⟩ := except_bind_ok.mp h
  obtain ⟨denySet, hdeny, h⟩ := except_bind_ok.mp h
  obtain ⟨allowSet, hallow, h⟩ := except_bind_ok.mp h
  obtain ⟨mitm, _, h⟩ := except_bind_ok.mp h
  obtain rfl := Except.ok.inj h
  exact ⟨hdeny, hallow, rfl⟩

/-! ### Effective permissions -/

variable {entries effective : List NetworkDomainPermissionEntry} {entry : NetworkDomainPermissionEntry}

theorem pattern_addEffective : (addEffective effective entry).map (·.pattern) =
    if entry.pattern ∈ effective.map (·.pattern) then effective.map (·.pattern)
    else effective.map (·.pattern) ++ [entry.pattern] := by
  unfold addEffective
  split_ifs with h
  · rw [map_map]
    refine map_congr_left fun e _ => ?_
    show (if e.pattern = entry.pattern ∧ e.permission.rank < entry.permission.rank then entry else e).pattern =
      e.pattern
    split_ifs with he
    · exact he.1.symm
    · rfl
  · simp

theorem mem_pattern_foldl_addEffective {pattern : Str} : ∀ {entries effective : List NetworkDomainPermissionEntry},
    pattern ∈ (entries.foldl addEffective effective).map (·.pattern) ↔
      pattern ∈ effective.map (·.pattern) ∨ pattern ∈ entries.map (·.pattern)
  | [], _ => by simp
  | entry :: entries, effective => by
    rw [foldl_cons, mem_pattern_foldl_addEffective, pattern_addEffective, map_cons, mem_cons]
    split_ifs with h
    · constructor
      · rintro (h | h)
        · exact .inl h
        · exact .inr (.inr h)
      · rintro (h' | rfl | h')
        · exact .inl h'
        · exact .inl h
        · exact .inr h'
    · rw [mem_append, mem_singleton, or_assoc]

section Filter

variable (q : Str → Bool)

theorem filter_addEffective : (addEffective effective entry).filter (q ·.pattern) =
    if q entry.pattern then addEffective (effective.filter (q ·.pattern)) entry
    else effective.filter (q ·.pattern) := by
  have hmem : q entry.pattern = true → (entry.pattern ∈ (effective.filter (q ·.pattern)).map (·.pattern) ↔
      entry.pattern ∈ effective.map (·.pattern)) := by
    intro hq
    simp only [List.mem_map, mem_filter]
    constructor
    · rintro ⟨e, ⟨he, _⟩, h⟩
      exact ⟨e, he, h⟩
    · rintro ⟨e, he, h⟩
      exact ⟨e, ⟨he, h ▸ hq⟩, h⟩
  have hpat : ∀ e : NetworkDomainPermissionEntry,
      (if e.pattern = entry.pattern ∧ e.permission.rank < entry.permission.rank then entry else e).pattern =
        e.pattern := by
    intro e
    split_ifs with h
    · exact h.1.symm
    · rfl
  unfold addEffective
  split_ifs with h1 h2 h3 h3
  · rw [filter_map]
    congr 1
    refine filter_congr fun e _ => ?_
    show q (ite _ entry e).pattern = q e.pattern
    rw [hpat]
  · exact absurd ((hmem h2).mpr h1) h3
  · -- the entries of this pattern are the only ones that change, and they are not kept
    rw [filter_map]
    conv_rhs => rw [← map_id (effective.filter (q ·.pattern))]
    rw [show ((q ·.pattern) ∘ fun e : NetworkDomainPermissionEntry =>
        if e.pattern = entry.pattern ∧ e.permission.rank < entry.permission.rank then entry else e) =
        (q ·.pattern) from funext fun e => congrArg q (hpat e)]
    refine map_congr_left fun e he => ?_
    refine if_neg fun h => h2 ?_
    rw [← h.1]
    exact (mem_filter.mp he).2
  · exact absurd ((hmem (by assumption)).mp (by assumption)) h1
  · rw [filter_append]
    congr 1
    simp [*]
  · rw [filter_append]
    simp [*]

theorem filter_foldl_addEffective : ∀ {entries effective : List NetworkDomainPermissionEntry},
    (entries.foldl addEffective effective).filter (q ·.pattern) =
      (entries.filter (q ·.pattern)).foldl addEffective (effective.filter (q ·.pattern))
  | [], _ => rfl
  | entry :: entries, effective => by
    rw [foldl_cons, filter_foldl_addEffective, filter_addEffective, filter_cons]
    split_ifs <;> rfl

end Filter

/-- **Effective entries after an update**: those of the other hosts as they were, and the new one. -/
theorem effectiveEntries_upsert (network : NetworkProxySettings) (host : Str) (permission : NetworkDomainPermission)
    (normalize : Str → Str) : ∃ domains, (network.upsertDomainPermission host permission normalize).domains =
      some domains ∧ domains.effectiveEntries = ((network.domains.getD ⟨[]⟩).effectiveEntries.filter fun entry =>
        normalize entry.pattern ≠ normalize host) ++ [⟨host, permission⟩] := by
  refine ⟨_, if_neg (by simp), ?_⟩
  unfold NetworkDomainPermissions.effectiveEntries
  rw [foldl_append, filter_foldl_addEffective fun pattern => normalize pattern ≠ normalize host,
    filter_nil]
  refine if_neg fun h => ?_
  -- no kept entry has the host as its pattern
  obtain h | h := mem_pattern_foldl_addEffective.mp h
  · exact absurd h not_mem_nil
  · obtain ⟨e, he, rfl⟩ := List.mem_map.mp h
    exact absurd rfl (of_decide_eq_true (mem_filter.mp he).2)

theorem mem_domainEntries {network : NetworkProxySettings} {permission : NetworkDomainPermission} {pattern : Str} :
    pattern ∈ (network.domainEntries permission).getD [] ↔
      ⟨pattern, permission⟩ ∈ (network.domains.getD ⟨[]⟩).effectiveEntries := by
  unfold NetworkProxySettings.domainEntries
  cases network.domains with
  | none => simp [NetworkDomainPermissions.effectiveEntries]
  | some domains =>
    have h : pattern ∈ (domains.effectiveEntries.filter (·.permission = permission)).map (·.pattern) ↔
        ⟨pattern, permission⟩ ∈ domains.effectiveEntries := by
      simp only [List.mem_map, mem_filter, decide_eq_true_eq]
      constructor
      · rintro ⟨e, ⟨he, rfl⟩, rfl⟩
        exact he
      · exact fun h => ⟨_, ⟨h, rfl⟩, rfl⟩
    rw [Option.map_some, Option.getD_some, ← h]
    cases (domains.effectiveEntries.filter (·.permission = permission)).map (·.pattern) with
    | nil => exact Iff.rfl
    | cons p ps => exact Iff.rfl

theorem mem_domainEntries_upsert {network : NetworkProxySettings} {host pattern : Str}
    {permission permission' : NetworkDomainPermission} {normalize : Str → Str} :
    pattern ∈ ((network.upsertDomainPermission host permission normalize).domainEntries permission').getD [] ↔
      pattern ∈ (network.domainEntries permission').getD [] ∧ normalize pattern ≠ normalize host ∨
        pattern = host ∧ permission' = permission := by
  obtain ⟨domains, hd, he⟩ := effectiveEntries_upsert network host permission normalize
  rw [mem_domainEntries, hd, Option.getD_some, he, mem_append, mem_filter, mem_domainEntries,
    mem_singleton, NetworkDomainPermissionEntry.mk.injEq, decide_eq_true_eq]

end OpenAgere.Network
