import Mathlib.Data.PNat.Defs
import OpenAgere.AccessPolicy

/-! # Permission profiles within a request

`core/src/access_policy_transforms.rs`: the part of a granted permission profile that lies within the
requested one, by which a request counts as approved before.  A granted entry is taken over when the
request covers it at the path of the entry, and the deny entries of both profiles that overlap a taken
entry are kept.

Nothing can be read under the result that the request or the grant does not let be read
(`canRead_intersect`).  Writing is bounded in the same way exactly where no read entry of the request or
the grant decides below the write entry that was taken over (`grantsNoMore_iff`): read entries of the
request are not kept, and read entries of the grant that a requested deny pattern matches are dropped. -/

namespace OpenAgere.Permissions

open List Option AbsolutePath

/-! ### Profiles -/

structure FileSystemPermissions where
  entries : List FileSystemAccessEntry
  globScanMaxDepth : Option ℕ+
deriving DecidableEq

namespace FileSystemPermissions

def default : FileSystemPermissions := ⟨[], none⟩

def isEmpty (permissions : FileSystemPermissions) : Bool := permissions.entries.isEmpty

end FileSystemPermissions

structure NetworkPermissions where
  enabled : Option Bool
deriving DecidableEq, Repr

structure AdditionalPermissionProfile where
  network : Option NetworkPermissions
  fileSystem : Option FileSystemPermissions
deriving DecidableEq

/-- The entries of the file system permissions, if there are any. -/
def AdditionalPermissionProfile.entries (profile : AdditionalPermissionProfile) : List FileSystemAccessEntry :=
  (profile.fileSystem.getD .default).entries

/-! ### Scan depths -/

inductive GlobScanDepth where
  | bounded (depth : ℕ)
  | unbounded
deriving DecidableEq, Repr

def isDenyGlob (entry : FileSystemAccessEntry) : Bool :=
  match entry.access, entry.path with
  | .none, .globPattern _ => true
  | _, _ => false

def effectiveGlobScanDepth (entries : List FileSystemAccessEntry) (depth : Option ℕ) : Option GlobScanDepth :=
  if entries.any isDenyGlob then
    some (match depth with
      | some depth => .bounded depth
      | none => .unbounded)
  else none

def mergeGlobScanMaxDepth (leftEntries : List FileSystemAccessEntry) (leftDepth : Option ℕ)
    (rightEntries : List FileSystemAccessEntry) (rightDepth : Option ℕ) : Option ℕ :=
  match effectiveGlobScanDepth leftEntries leftDepth, effectiveGlobScanDepth rightEntries rightDepth with
  | some .unbounded, _ => none
  | _, some .unbounded => none
  | some (.bounded left), some (.bounded right) => some (max left right)
  | some (.bounded depth), none => some depth
  | none, some (.bounded depth) => some depth
  | none, none => none

/-- `NonZeroUsize::new`. -/
def nonZero (n : ℕ) : Option ℕ+ := if h : 0 < n then some ⟨n, h⟩ else none

/-! ### The intersection -/

section Transforms

variable (env : Environment)

def pathsOverlap (left right : AbsolutePath) : Bool := left.startsWith right || right.startsWith left

def accessCovers (requested : FileSystemAccessMode) : FileSystemAccessMode → Bool
  | .read => requested.canRead
  | .write => requested.canWrite
  | .none => false

theorem accessCovers_none (granted : FileSystemAccessMode) : accessCovers .none granted = false := by
  cases granted <;> rfl

/-- The last of the ancestors of a directory. -/
def lastAncestor (cwd : Str) : Str := if IsAbsolute cwd then "/" else []

def resolvePermissionPath (path : FileSystemPath) (cwd : Str) : Option AbsolutePath :=
  match path with
  | .path path => some path
  | .globPattern _ => none
  | .special .root => env.fromAbsolutePath (lastAncestor cwd)
  | .special (.projectRoots subpath) => (env.fromAbsolutePath cwd).map fun cwd =>
      match subpath with
      | some subpath => resolvePathAgainstBase env.home subpath.text cwd
      | none => cwd
  | .special .tmpdir => env.tmpdirPath
  | .special .slashTmp => (env.fromAbsolutePath "/tmp").filter env.isDir
  | .special .minimal => none
  | .special (.unknown _ _) => none

def materializeCwdDependentEntry (entry : FileSystemAccessEntry) (cwd : Str) : FileSystemAccessEntry :=
  match entry.path with
  | .special (.projectRoots _) =>
      match resolvePermissionPath env entry.path cwd with
      | some path => ⟨.path path, entry.access⟩
      | none => entry
  | .globPattern pattern => ⟨.globPattern (resolveTextAgainstBase env.home pattern cwd), entry.access⟩
  | _ => entry

/-- The directory below which every match of a pattern lies. -/
def globStaticPrefixPath (pattern cwd : Str) : Option AbsolutePath :=
  let resolved := resolveTextAgainstBase env.home pattern cwd
  let static := resolved.takeWhile fun c => c ∉ ['*', '?', '[', ']']
  if static = resolved then env.fromAbsolutePath resolved
  else if static = [] then none
  else if static.getLast? = some '/' ∨ static.getLast? = some '\\' then env.fromAbsolutePath static
  else (pathParent static).bind env.fromAbsolutePath

def grantedFileSystemEntryWithinRequest (requested : FileSystemPermissions)
    (requestedPolicy : FileSystemAccessPolicy) (requestedReadDenyMatcher : Option ReadDenyMatcher)
    (grantedEntry : FileSystemAccessEntry) (cwd : Str) : Bool :=
  grantedEntry.access.canRead &&
    match resolvePermissionPath env grantedEntry.path cwd with
    | some path =>
        !(requestedReadDenyMatcher.any fun matcher => matcher.isReadDenied env path) &&
          accessCovers (requestedPolicy.resolveAccessWithCwd env path.display cwd) grantedEntry.access
    | none => requested.entries.any fun requestedEntry =>
        accessCovers requestedEntry.access grantedEntry.access && requestedEntry.path = grantedEntry.path

def denyEntryConstrainsAcceptedGrant (denyEntry : FileSystemAccessEntry)
    (acceptedEntries : List FileSystemAccessEntry) (cwd : Str) : Bool :=
  acceptedEntries.any fun entry => entry.access.canRead &&
    (resolvePermissionPath env entry.path cwd).any fun grantPath =>
      (match denyEntry.path with
        | .globPattern pattern => globStaticPrefixPath env pattern cwd
        | path => resolvePermissionPath env path cwd).any fun denyPath => pathsOverlap denyPath grantPath

/-- The deny entries that constrain an accepted grant, with the directory filled in. -/
def retainConstrainingDenyEntries (sourceEntries acceptedEntries : List FileSystemAccessEntry) (cwd : Str) :
    List FileSystemAccessEntry :=
  (sourceEntries.filter fun entry =>
    entry.access = .none ∧ denyEntryConstrainsAcceptedGrant env entry acceptedEntries cwd).map fun entry =>
      materializeCwdDependentEntry env entry cwd

/-- The granted entries that lie within the request. -/
def grantsWithinRequest (requested granted : FileSystemPermissions) (cwd : Str) : List FileSystemAccessEntry :=
  let requestedPolicy := FileSystemAccessPolicy.restricted requested.entries
  let requestedReadDenyMatcher := ReadDenyMatcher.new env requestedPolicy cwd
  granted.entries.filter fun entry =>
    grantedFileSystemEntryWithinRequest env requested requestedPolicy requestedReadDenyMatcher entry cwd

def intersectFileSystemPermissions (requested granted : FileSystemPermissions) (cwd : Str) :
    FileSystemPermissions :=
  let acceptedEntries := ((grantsWithinRequest env requested granted cwd).map fun entry =>
    materializeCwdDependentEntry env entry cwd).foldl pushUnique []
  let requestedRetained := retainConstrainingDenyEntries env requested.entries acceptedEntries cwd
  let grantedRetained := retainConstrainingDenyEntries env granted.entries acceptedEntries cwd
  { entries := grantedRetained.foldl pushUnique (requestedRetained.foldl pushUnique acceptedEntries)
    globScanMaxDepth := (mergeGlobScanMaxDepth requestedRetained (requested.globScanMaxDepth.map PNat.val)
      grantedRetained (granted.globScanMaxDepth.map PNat.val)).bind nonZero }

def intersectPermissionProfiles (requested granted : AdditionalPermissionProfile) (cwd : Str) :
    AdditionalPermissionProfile where
  network :=
    match requested.network, granted.network with
    | some ⟨some true⟩, some ⟨some true⟩ => some ⟨some true⟩
    | _, _ => none
  fileSystem := (requested.fileSystem.map fun requestedFileSystem =>
    intersectFileSystemPermissions env requestedFileSystem (granted.fileSystem.getD .default) cwd).filter
      fun fileSystem => !fileSystem.isEmpty

end Transforms

/-! ### Resolution against one directory -/

section Entries

variable {env : Environment} {cwd : Str}

theorem resolvePermissionPath_eq (hcwd : IsAbsolute cwd) (path : FileSystemPath) :
    resolvePermissionPath env path cwd = resolveEntryPath env path (env.fromAbsolutePath cwd) := by
  cases path with
  | path | globPattern => rfl
  | special value =>
    cases value with
    | root =>
      simp only [resolvePermissionPath, resolveEntryPath, lastAncestor, if_pos hcwd]
      rw [env.fromAbsolutePath_of_isAbsolute hcwd, env.fromAbsolutePath_of_isAbsolute rfl]
      rfl
    | slashTmp =>
      simp only [resolvePermissionPath, resolveEntryPath, resolveFileSystemPath, resolveFileSystemSpecialPath]
      rw [env.fromAbsolutePath_of_isAbsolute rfl]
      exact filter_some
    | minimal => rfl
    | projectRoots subpath => rfl
    | tmpdir => rfl
    | unknown path subpath => rfl

theorem access_materialize (entry : FileSystemAccessEntry) :
    (materializeCwdDependentEntry env entry cwd).access = entry.access := by
  unfold materializeCwdDependentEntry
  split
  · split <;> rfl
  · rfl
  · rfl

/-- Filling in the directory does not change what an entry resolves to. -/
theorem resolve_materialize (hcwd : IsAbsolute cwd) (entry : FileSystemAccessEntry) :
    resolveEntryPath env (materializeCwdDependentEntry env entry cwd).path (env.fromAbsolutePath cwd) =
      resolveEntryPath env entry.path (env.fromAbsolutePath cwd) := by
  unfold materializeCwdDependentEntry
  split
  · rename_i h
    split
    · rename_i path hp
      rw [← resolvePermissionPath_eq hcwd, ← resolvePermissionPath_eq hcwd, hp]
      rfl
    · rfl
  · rename_i pattern h
    rw [h]
    rfl
  · rfl

theorem rules_materialize (hcwd : IsAbsolute cwd) (entries : List FileSystemAccessEntry) :
    Rules env (entries.map fun entry => materializeCwdDependentEntry env entry cwd) cwd =
      Rules env entries cwd := by
  unfold Rules FileSystemAccessPolicy.resolvedEntriesWithCwd FileSystemAccessPolicy.restricted
  rw [filterMap_map]
  congr 1
  funext entry
  show Option.map _ (resolveEntryPath env (materializeCwdDependentEntry env entry cwd).path _) = _
  rw [resolve_materialize hcwd, access_materialize]

variable {r : ResolvedFileSystemEntry}

theorem mem_rules_pushUnique {entries added : List FileSystemAccessEntry} :
    r ∈ Rules env (added.foldl pushUnique entries) cwd ↔
      r ∈ Rules env entries cwd ∨ r ∈ Rules env added cwd := by
  simp only [mem_rules, mem_foldl_pushUnique]
  constructor
  · rintro ⟨e, he | he, h⟩
    · exact Or.inl ⟨e, he, h⟩
    · exact Or.inr ⟨e, he, h⟩
  · rintro (⟨e, he, h⟩ | ⟨e, he, h⟩)
    · exact ⟨e, Or.inl he, h⟩
    · exact ⟨e, Or.inr he, h⟩

/-- A deny entry with a path constrains the readable entries whose paths overlap its own. -/
theorem denyEntryConstrains_iff (hcwd : IsAbsolute cwd) {deny : FileSystemAccessEntry} {path : AbsolutePath}
    {accepted : List FileSystemAccessEntry}
    (h : resolveEntryPath env deny.path (env.fromAbsolutePath cwd) = some path) :
    denyEntryConstrainsAcceptedGrant env deny accepted cwd ↔
      ∃ a ∈ Rules env accepted cwd, a.access.canRead ∧ pathsOverlap path a.path := by
  have hpath : (match deny.path with
      | .globPattern pattern => globStaticPrefixPath env pattern cwd
      | p => resolvePermissionPath env p cwd) = some path := by
    split
    · rename_i pattern hp
      rw [hp] at h
      exact absurd h (by simp [resolveEntryPath, resolveFileSystemPath])
    · rw [resolvePermissionPath_eq hcwd, h]
  unfold denyEntryConstrainsAcceptedGrant
  rw [hpath]
  simp only [List.any_eq_true, Bool.and_eq_true, Option.any_eq_true, mem_rules,
    resolvePermissionPath_eq hcwd]
  constructor
  · rintro ⟨e, he, hread, grant, hg, d, hd, ho⟩
    cases hd
    exact ⟨⟨grant, e.access⟩, ⟨e, he, hg, rfl⟩, hread, ho⟩
  · rintro ⟨a, ⟨e, he, hg, ha⟩, hread, ho⟩
    exact ⟨e, he, ha ▸ hread, a.path, hg, path, rfl, ho⟩

theorem mem_rules_retain (hcwd : IsAbsolute cwd) {source accepted : List FileSystemAccessEntry} :
    r ∈ Rules env (retainConstrainingDenyEntries env source accepted cwd) cwd ↔
      r ∈ Rules env source cwd ∧ r.access = .none ∧
        ∃ a ∈ Rules env accepted cwd, a.access.canRead ∧ pathsOverlap r.path a.path := by
  unfold retainConstrainingDenyEntries
  rw [rules_materialize hcwd, mem_rules, mem_rules]
  simp only [mem_filter, decide_eq_true_eq]
  constructor
  · rintro ⟨e, ⟨he, hnone, hc⟩, hp, ha⟩
    exact ⟨⟨e, he, hp, ha⟩, ha ▸ hnone, (denyEntryConstrains_iff hcwd hp).mp hc⟩
  · rintro ⟨⟨e, he, hp, ha⟩, hnone, hc⟩
    exact ⟨e, ⟨he, ha.trans hnone, (denyEntryConstrains_iff hcwd hp).mpr hc⟩, hp, ha⟩

end Entries

/-! ### What the intersection holds -/

section Intersection

open FileSystemAccessPolicy

variable {env : Environment} {requested granted : FileSystemPermissions} {cwd : Str}

theorem of_mem_grantsWithinRequest (hcwd : IsAbsolute cwd)
    (h : r ∈ Rules env (grantsWithinRequest env requested granted cwd) cwd) :
    r ∈ Rules env granted.entries cwd ∧ r.access.canRead ∧
      accessCovers ((restricted requested.entries).resolveAccessWithCwd env r.path.display cwd)
        r.access := by
  obtain ⟨e, he, hp, ha⟩ := mem_rules.mp h
  obtain ⟨hmem, hwithin⟩ := mem_filter.mp he
  unfold grantedFileSystemEntryWithinRequest at hwithin
  rw [resolvePermissionPath_eq hcwd, hp] at hwithin
  simp only [Bool.and_eq_true, ha] at hwithin
  exact ⟨mem_rules.mpr ⟨e, hmem, hp, ha⟩, hwithin.1, hwithin.2.2⟩

/-- **Entries.** The result holds the granted entries within the request, and the deny entries of both
profiles that overlap one of them. -/
theorem mem_rules_intersect (hcwd : IsAbsolute cwd) :
    r ∈ Rules env (intersectFileSystemPermissions env requested granted cwd).entries cwd ↔
      r ∈ Rules env (grantsWithinRequest env requested granted cwd) cwd ∨
        (r ∈ Rules env requested.entries cwd ∨ r ∈ Rules env granted.entries cwd) ∧ r.access = .none ∧
          ∃ a ∈ Rules env (grantsWithinRequest env requested granted cwd) cwd,
            pathsOverlap r.path a.path := by
  have haccepted : ∀ a, a ∈ Rules env (((grantsWithinRequest env requested granted cwd).map fun entry =>
      materializeCwdDependentEntry env entry cwd).foldl pushUnique []) cwd ↔
        a ∈ Rules env (grantsWithinRequest env requested granted cwd) cwd := by
    intro a
    rw [mem_rules_pushUnique, rules_materialize hcwd]
    exact or_iff_right not_mem_nil
  have hread : ∀ a ∈ Rules env (grantsWithinRequest env requested granted cwd) cwd, a.access.canRead = true :=
    fun _ ha => (of_mem_grantsWithinRequest hcwd ha).2.1
  unfold intersectFileSystemPermissions
  simp only [mem_rules_pushUnique, mem_rules_retain hcwd, haccepted]
  constructor
  · rintro ((h | ⟨hr, hn, a, ha, _, ho⟩) | ⟨hr, hn, a, ha, _, ho⟩)
    · exact Or.inl h
    · exact Or.inr ⟨Or.inl hr, hn, a, ha, ho⟩
    · exact Or.inr ⟨Or.inr hr, hn, a, ha, ho⟩
  · rintro (h | ⟨hr | hr, hn, a, ha, ho⟩)
    · exact Or.inl (Or.inl h)
    · exact Or.inl (Or.inr ⟨hr, hn, a, ha, hread a ha, ho⟩)
    · exact Or.inr ⟨hr, hn, a, ha, hread a ha, ho⟩

/-- No deny entry of the two profiles that covers the target is as specific as `entry`. -/
def Uncut (env : Environment) (requested granted : FileSystemPermissions) (cwd : Str) (target : AbsolutePath)
    (entry : ResolvedFileSystemEntry) : Prop :=
  ∀ deny, deny ∈ Rules env requested.entries cwd ∨ deny ∈ Rules env granted.entries cwd →
    deny.access = .none → deny.key <+: target.parts → deny.key.length < entry.key.length

/-- **Deciding entry.** A readable target is decided in the result by the granted entry that decides on
it among those within the request, when no deny entry cuts it off. -/
theorem decides_intersect_iff (hcwd : IsAbsolute cwd) {target : AbsolutePath} {m : ResolvedFileSystemEntry} :
    Decides env (intersectFileSystemPermissions env requested granted cwd).entries cwd target m ∧
        m.access ≠ .none ↔
      Decides env (grantsWithinRequest env requested granted cwd) cwd target m ∧
        Uncut env requested granted cwd target m := by
  constructor
  · rintro ⟨h, hm⟩
    have hmem : m ∈ Rules env (grantsWithinRequest env requested granted cwd) cwd := by
      rcases (mem_rules_intersect hcwd).mp h.mem with hw | ⟨_, hn, _⟩
      · exact hw
      · exact absurd hn hm
    refine ⟨⟨hmem, h.covers, ?_⟩, ?_⟩
    · intro r hr hc
      exact h.highest r ((mem_rules_intersect hcwd).mpr (Or.inl hr)) hc
    · intro deny hd hn hc
      have hoverlap : pathsOverlap deny.path m.path = true := by
        rw [pathsOverlap, Bool.or_eq_true, startsWith_iff, startsWith_iff]
        exact (List.prefix_or_prefix_of_prefix hc h.covers).symm
      have hin := (mem_rules_intersect hcwd).mpr (Or.inr ⟨hd, hn, m, hmem, hoverlap⟩)
      rcases LongestMatch.rank_le_iff.mp (h.highest deny hin hc) with hlt | ⟨_, hle⟩
      · exact hlt
      · rw [hn] at hle
        exact absurd (le_antisymm (FileSystemAccessMode.le_none _) hle) hm
  · rintro ⟨h, hcut⟩
    constructor
    · refine ⟨(mem_rules_intersect hcwd).mpr (Or.inl h.mem), h.covers, ?_⟩
      intro r hr hc
      rcases (mem_rules_intersect hcwd).mp hr with hw | ⟨hd, hn, _⟩
      · exact h.highest r hw hc
      · exact LongestMatch.rank_le_iff.mpr (Or.inl (hcut r hd hn hc))
    · exact FileSystemAccessMode.canRead_iff.mp (of_mem_grantsWithinRequest hcwd h.mem).2.1

/-! ### The bound -/

variable {target : AbsolutePath} {m : ResolvedFileSystemEntry}

/-- A read entry below `entry` decides on the target. -/
def ReadBelow (env : Environment) (entries : List FileSystemAccessEntry) (cwd : Str) (target : AbsolutePath)
    (entry : ResolvedFileSystemEntry) : Prop :=
  ∃ n, Decides env entries cwd target n ∧ n.access = .read ∧ entry.key.length < n.key.length

/-- What decides on the target under a profile when `m` decides under the result: it does not deny, and
where it does not let a writable target be written it lies below `m`. -/
structure Supports (env : Environment) (entries : List FileSystemAccessEntry) (cwd : Str)
    (target : AbsolutePath) (m n : ResolvedFileSystemEntry) : Prop where
  decides : Decides env entries cwd target n
  readable : n.access ≠ .none
  below : m.access = .write → n.access ≠ .write → m.key.length < n.key.length

section

variable (hcwd : IsAbsolute cwd) (h : Decides env (grantsWithinRequest env requested granted cwd) cwd target m)
  (hcut : Uncut env requested granted cwd target m)
include hcwd h hcut

theorem exists_supports_requested : ∃ n, Supports env requested.entries cwd target m n := by
  obtain ⟨_, hread, hcovers⟩ := of_mem_grantsWithinRequest hcwd h.mem
  set mode := (restricted requested.entries).resolveAccessWithCwd env m.path.display cwd with hmode
  have hmodeRead : mode ≠ .none := by
    intro hnone
    rw [hnone, accessCovers_none] at hcovers
    exact absurd hcovers Bool.false_ne_true
  have hmodeWrite : m.access = .write → mode = .write := by
    intro hw
    rw [hw] at hcovers
    exact FileSystemAccessMode.canWrite_iff.mp hcovers
  have hself := resolveCandidatePath_display env m.path cwd
  obtain ⟨r, hr, hra⟩ := (resolveAccess_eq_iff hself hmodeRead).mp hmode.symm
  obtain ⟨n, hn⟩ := LongestMatch.exists_decides ResolvedFileSystemEntry.access hr.mem (hr.covers.trans h.covers)
  rcases Nat.lt_or_ge m.key.length n.key.length with hlt | hge
  · refine ⟨n, hn, ?_, fun _ _ => hlt⟩
    intro hnone
    exact absurd (hcut n (Or.inl hn.mem) hnone hn.covers) (by omega)
  · have hnr : n.access = mode := ((hn.of_length_le h.covers hge).verdict_eq hr).trans hra
    exact ⟨n, hn, hnr ▸ hmodeRead, fun hw hne => absurd (hnr.trans (hmodeWrite hw)) hne⟩

theorem exists_supports_granted : ∃ n, Supports env granted.entries cwd target m n := by
  obtain ⟨hmem, _, _⟩ := of_mem_grantsWithinRequest hcwd h.mem
  obtain ⟨n, hn⟩ := LongestMatch.exists_decides ResolvedFileSystemEntry.access hmem h.covers
  have hle : m.key.length ≤ n.key.length := hn.length_le hmem h.covers
  have hread : n.access ≠ .none := by
    intro hnone
    exact absurd (hcut n (Or.inr hn.mem) hnone hn.covers) (by omega)
  refine ⟨n, hn, hread, ?_⟩
  intro hw hne
  apply lt_of_le_of_ne hle
  intro heq
  have hwn : m.access ≤ n.access := hn.verdict_le hmem h.covers heq.ge
  rw [hw] at hwn
  cases ha : n.access with
  | read => exact absurd (ha ▸ hwn) (by decide)
  | write => exact hne ha
  | none => exact hread ha

end

theorem Supports.access {entries : List FileSystemAccessEntry} {n : ResolvedFileSystemEntry} {path : Str}
    (h : Supports env entries cwd target m n) (hpath : resolveCandidatePath env path cwd = some target) :
    (restricted entries).resolveAccessWithCwd env path cwd ≠ .none ∧
      (m.access = .write → ((restricted entries).resolveAccessWithCwd env path cwd = .write ↔
        ¬ ReadBelow env entries cwd target m)) := by
  rw [resolveAccess_of_decides hpath h.decides]
  refine ⟨h.readable, ?_⟩
  intro hw
  constructor
  · rintro hn ⟨c, hc, hread, _⟩
    have := hn.symm.trans (h.decides.verdict_eq hc)
    rw [hread] at this
    exact absurd this (by decide)
  · intro hbelow
    by_contra hne
    cases ha : n.access with
    | read => exact hbelow ⟨n, h.decides, ha, h.below hw hne⟩
    | write => exact hne ha
    | none => exact h.readable ha

end Intersection

/-! ### Profiles -/

section Profiles

open FileSystemAccessPolicy

variable {env : Environment} {requested granted : AdditionalPermissionProfile} {path cwd : Str}

theorem grantsWithinRequest_default (granted : FileSystemPermissions) :
    grantsWithinRequest env .default granted cwd = [] := by
  unfold grantsWithinRequest
  rw [filter_eq_nil_iff]
  intro entry _ h
  unfold grantedFileSystemEntryWithinRequest at h
  rw [Bool.and_eq_true] at h
  cases hp : resolvePermissionPath env entry.path cwd with
  | none =>
    rw [hp] at h
    exact absurd h.2 (by simp [FileSystemPermissions.default])
  | some p =>
    simp only [hp, Bool.and_eq_true] at h
    have hnone : (restricted []).resolveAccessWithCwd env p.display cwd = .none := by
      rw [resolveAccess_eq_answer (resolveCandidatePath_display env p cwd)]
      rfl
    have hcovers := h.2.2
    rw [show FileSystemPermissions.default.entries = [] from rfl, hnone, accessCovers_none] at hcovers
    exact absurd hcovers Bool.false_ne_true

theorem entries_intersectPermissionProfiles :
    (intersectPermissionProfiles env requested granted cwd).entries =
      (intersectFileSystemPermissions env (requested.fileSystem.getD .default)
        (granted.fileSystem.getD .default) cwd).entries := by
  unfold AdditionalPermissionProfile.entries intersectPermissionProfiles
  cases requested.fileSystem with
  | none =>
    simp only [map_none, filter_none, getD_none, intersectFileSystemPermissions,
      grantsWithinRequest_default]
    simp [retainConstrainingDenyEntries, denyEntryConstrainsAcceptedGrant, FileSystemPermissions.default]
  | some fs =>
    simp only [map_some, getD_some, filter_some]
    split_ifs with h
    · rfl
    · rw [Bool.not_eq_true, Bool.not_eq_false'] at h
      exact (isEmpty_iff.mp h).symm

/-- The access to a path under the restricted policy built from the entries of a profile. -/
def profileAccess (env : Environment) (profile : AdditionalPermissionProfile) (path cwd : Str) :
    FileSystemAccessMode :=
  (restricted profile.entries).resolveAccessWithCwd env path cwd

/-- What the result lets be read or written, the request and the grant do. -/
def GrantsNoMore (env : Environment) (requested granted : AdditionalPermissionProfile) (path cwd : Str) : Prop :=
  ((profileAccess env (intersectPermissionProfiles env requested granted cwd) path cwd).canRead →
    (profileAccess env requested path cwd).canRead ∧ (profileAccess env granted path cwd).canRead) ∧
  ((profileAccess env (intersectPermissionProfiles env requested granted cwd) path cwd).canWrite →
    (profileAccess env requested path cwd).canWrite ∧ (profileAccess env granted path cwd).canWrite)

instance : Decidable (GrantsNoMore env requested granted path cwd) := inferInstanceAs (Decidable (_ ∧ _))

/-- A granted write entry that decides on the target among those within the request, and that no deny entry
of the request or the grant cuts off there. -/
structure WriteTaken (env : Environment) (requested granted : AdditionalPermissionProfile) (cwd : Str)
    (target : AbsolutePath) (entry : ResolvedFileSystemEntry) : Prop where
  decides : Decides env (grantsWithinRequest env (requested.fileSystem.getD .default)
    (granted.fileSystem.getD .default) cwd) cwd target entry
  uncut : Uncut env (requested.fileSystem.getD .default) (granted.fileSystem.getD .default) cwd target entry
  write : entry.access = .write

section

variable (hcwd : IsAbsolute cwd) {target : AbsolutePath} (hpath : resolveCandidatePath env path cwd = some target)
include hcwd hpath

/-- Which entry gives the result its access. -/
theorem profileAccess_intersect_iff {mode : FileSystemAccessMode} (hm : mode ≠ .none) :
    profileAccess env (intersectPermissionProfiles env requested granted cwd) path cwd = mode ↔
      ∃ m, (Decides env (grantsWithinRequest env (requested.fileSystem.getD .default)
          (granted.fileSystem.getD .default) cwd) cwd target m ∧
        Uncut env (requested.fileSystem.getD .default) (granted.fileSystem.getD .default) cwd target m) ∧
        m.access = mode := by
  unfold profileAccess
  rw [resolveAccess_eq_iff hpath hm, entries_intersectPermissionProfiles]
  constructor
  · rintro ⟨m, hd, ha⟩
    exact ⟨m, (decides_intersect_iff hcwd).mp ⟨hd, ha ▸ hm⟩, ha⟩
  · rintro ⟨m, hd, ha⟩
    exact ⟨m, ((decides_intersect_iff hcwd).mpr hd).1, ha⟩

/-- **Reading is bounded.** What the result lets be read, the request and the grant let be read. -/
theorem canRead_intersect
    (h : (profileAccess env (intersectPermissionProfiles env requested granted cwd) path cwd).canRead) :
    (profileAccess env requested path cwd).canRead ∧ (profileAccess env granted path cwd).canRead := by
  obtain ⟨m, ⟨hd, hcut⟩, _⟩ := (profileAccess_intersect_iff hcwd hpath
    (FileSystemAccessMode.canRead_iff.mp h)).mp rfl
  obtain ⟨_, hr⟩ := exists_supports_requested hcwd hd hcut
  obtain ⟨_, hg⟩ := exists_supports_granted hcwd hd hcut
  exact ⟨FileSystemAccessMode.canRead_iff.mpr (hr.access hpath).1,
    FileSystemAccessMode.canRead_iff.mpr (hg.access hpath).1⟩

end

/-- **The bound.** Intersecting never grants more at a path exactly when no read entry of the request or
of the grant decides on the path below a write entry that was taken over. -/
theorem grantsNoMore_iff (hcwd : IsAbsolute cwd) (hpath : IsAbsolute path) :
    GrantsNoMore env requested granted path cwd ↔
      ∀ entry, WriteTaken env requested granted cwd (ofText path) entry →
        ¬ ReadBelow env requested.entries cwd (ofText path) entry ∧
          ¬ ReadBelow env granted.entries cwd (ofText path) entry := by
  have htarget := resolveCandidatePath_of_isAbsolute env hpath cwd
  have hsides : ∀ entry, WriteTaken env requested granted cwd (ofText path) entry →
      ((profileAccess env requested path cwd).canWrite = true ∧
          (profileAccess env granted path cwd).canWrite = true ↔
        ¬ ReadBelow env requested.entries cwd (ofText path) entry ∧
          ¬ ReadBelow env granted.entries cwd (ofText path) entry) := by
    intro entry ht
    obtain ⟨_, hr⟩ := exists_supports_requested hcwd ht.decides ht.uncut
    obtain ⟨_, hg⟩ := exists_supports_granted hcwd ht.decides ht.uncut
    rw [FileSystemAccessMode.canWrite_iff, FileSystemAccessMode.canWrite_iff]
    exact and_congr ((hr.access htarget).2 ht.write) ((hg.access htarget).2 ht.write)
  have hwrites : profileAccess env (intersectPermissionProfiles env requested granted cwd) path cwd = .write ↔
      ∃ entry, WriteTaken env requested granted cwd (ofText path) entry := by
    rw [profileAccess_intersect_iff hcwd htarget (by decide)]
    exact exists_congr fun m => ⟨fun h => ⟨h.1.1, h.1.2, h.2⟩, fun h => ⟨⟨h.decides, h.uncut⟩, h.write⟩⟩
  constructor
  · intro h entry ht
    exact (hsides entry ht).mp (h.2 (FileSystemAccessMode.canWrite_iff.mpr (hwrites.mpr ⟨entry, ht⟩)))
  · intro h
    refine ⟨canRead_intersect hcwd htarget, ?_⟩
    intro hw
    obtain ⟨entry, ht⟩ := hwrites.mp (FileSystemAccessMode.canWrite_iff.mp hw)
    exact (hsides entry ht).mpr (h entry ht)

/-- Nothing is set or exists, and every pattern matches the files of one name. -/
def bareEnvironment : Environment where
  home := none
  currentDir := none
  tmpdir := none
  isDir := fun _ => false
  symlinkMetadata := fun _ => none
  canonicalize := fun _ => none
  buildGlobMatcher := fun _ => some fun path => path.components.getLast? = some ".env".toList

def directory : AbsolutePath := ⟨["a"], by decide⟩

def secretFile : AbsolutePath := ⟨["a", ".env"], by decide⟩

/-- A directory to write in. -/
def writeDirectory : AdditionalPermissionProfile := ⟨none, some ⟨[⟨.path directory, .write⟩], none⟩⟩

/-- The same directory with one file that is only to be read. -/
def readOnlyFile : AdditionalPermissionProfile :=
  ⟨none, some ⟨[⟨.path directory, .write⟩, ⟨.path secretFile, .read⟩], none⟩⟩

/-- The same directory with a pattern that is denied. -/
def deniedPattern : AdditionalPermissionProfile :=
  ⟨none, some ⟨[⟨.path directory, .write⟩, ⟨.globPattern "/a/**/.env", .none⟩], none⟩⟩

theorem grantsNoMore_readOnlyFile :
    GrantsNoMore bareEnvironment readOnlyFile readOnlyFile "/a/.env" "/w" ∧
      ∀ entry, WriteTaken bareEnvironment readOnlyFile readOnlyFile "/w" (ofText "/a/.env") entry →
        ¬ ReadBelow bareEnvironment readOnlyFile.entries "/w" (ofText "/a/.env") entry ∧
          ¬ ReadBelow bareEnvironment readOnlyFile.entries "/w" (ofText "/a/.env") entry :=
  ⟨by decide +kernel, (grantsNoMore_iff (by decide) (by decide)).mp (by decide +kernel)⟩

/-- The read entry of the request is lost, and so is that of the grant when a requested pattern denies it. -/
theorem not_grantsNoMore_readOnlyFile :
    (profileAccess bareEnvironment readOnlyFile "/a/.env" "/w" = .read ∧
      profileAccess bareEnvironment (intersectPermissionProfiles bareEnvironment readOnlyFile writeDirectory
        "/w") "/a/.env" "/w" = .write ∧
      ¬ GrantsNoMore bareEnvironment readOnlyFile writeDirectory "/a/.env" "/w") ∧
    profileAccess bareEnvironment (intersectPermissionProfiles bareEnvironment deniedPattern readOnlyFile
        "/w") "/a/.env" "/w" = .write ∧
      ¬ GrantsNoMore bareEnvironment deniedPattern readOnlyFile "/a/.env" "/w" := by
  decide +kernel

end Profiles

end OpenAgere.Permissions
