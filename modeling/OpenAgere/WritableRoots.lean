import OpenAgere.MetadataProtection

/-! # Writable roots

The second view of write access in `protocol/src/permissions.rs`: a list of roots, each with the paths
below it that stay read-only and the metadata names that are protected in it, and
`WritableRoot::is_path_writable` of `protocol/src/protocol.rs`.

Without symbolic links a root lets a path through exactly when every entry between the root and the path
is a write entry and the metadata directory of the root on the way, if there is one, is not protected
(`exists_isPathWritable_iff`).  The two views differ where the deciding entry protects the path
as metadata and another root lets it through, or the other way round (`writeViewsAgree_iff`). -/

namespace OpenAgere.Permissions

open AbsolutePath FileSystemAccessPolicy

/-- What is read of the files below a writable root. -/
structure DiskEnvironment extends Environment where
  isFile : AbsolutePath → Bool
  /-- `Path::exists` -/
  pathExists : AbsolutePath → Bool
  /-- `std::fs::read_to_string` -/
  readToString : AbsolutePath → Option Str

section Model

variable (disk : DiskEnvironment)

def isGitPointerFile (path : AbsolutePath) : Bool :=
  disk.isFile path ∧ path.components.getLast? = some ".git".toList

/-- The directory that a `.git` file names, when it is there. -/
def resolveGitdirFromFile (dotGit : AbsolutePath) : Option AbsolutePath := do
  let contents ← disk.readToString dotGit
  let (label, gitdirRaw) ← Text.splitOnce ":" (Text.trim contents)
  if Text.trim label ≠ "gitdir" then none
  else if Text.trim gitdirRaw = [] then none
  else
    let base ← dotGit.parent
    let gitdirPath := resolvePathAgainstBase disk.home (Text.trim gitdirRaw) base
    if disk.pathExists gitdirPath then some gitdirPath else none

/-- The directory that the `.git` file of a root points to. -/
def topLevelGitdir (writableRoot : AbsolutePath) : Option AbsolutePath :=
  let topLevelGit := join disk.home writableRoot ".git"
  if disk.isFile topLevelGit ∧ isGitPointerFile disk topLevelGit then resolveGitdirFromFile disk topLevelGit
  else none

def defaultReadOnlySubpathsForWritableRoot (writableRoot : AbsolutePath) (protectMissingDotAgere : Bool) :
    List AbsolutePath :=
  let topLevelGit := join disk.home writableRoot ".git"
  let topLevelAgents := join disk.home writableRoot ".agents"
  let topLevelAgere := join disk.home writableRoot ".openagere"
  dedupAbsolutePaths disk.toEnvironment
    ((if disk.isDir topLevelGit ∨ disk.isFile topLevelGit then
        (topLevelGitdir disk writableRoot).toList ++ [topLevelGit]
      else []) ++
      (if disk.isDir topLevelAgents then [topLevelAgents] else []) ++
      if protectMissingDotAgere ∨ disk.isDir topLevelAgere then [topLevelAgere] else []) false

structure WritableRoot where
  root : AbsolutePath
  readOnlySubpaths : List AbsolutePath
  protectedMetadataNames : List Str
deriving DecidableEq

namespace WritableRoot

def pathContainsProtectedMetadataName (root : WritableRoot) (path : AbsolutePath) : Bool :=
  match (path.below root.root).bind List.head? with
  | none => false
  | some firstComponent => root.protectedMetadataNames.any fun name => firstComponent = name

def isPathWritable (root : WritableRoot) (path : AbsolutePath) : Bool :=
  if ¬ path.startsWith root.root then false
  else if root.readOnlySubpaths.any fun subpath => path.startsWith subpath then false
  else if root.pathContainsProtectedMetadataName path then false
  else true

end WritableRoot

variable (policy : FileSystemAccessPolicy) (cwd : Str)

def protectedMetadataNamesForWritableRoot (root : AbsolutePath) (rawWritableRoots : List AbsolutePath) :
    List Str :=
  protectedMetadataPathNames.filter fun metadataName =>
    (join disk.home root metadataName :: rawWritableRoots.map fun rawRoot => join disk.home rawRoot metadataName).all
      fun metadataPath => !policy.canWritePathWithCwd disk.toEnvironment metadataPath.display cwd

/-- The path under which an entry that is not writable is carved out of a root. -/
def carveoutPath (root : AbsolutePath) (rawWritableRoots : List AbsolutePath) (entryPath : AbsolutePath) :
    Option AbsolutePath :=
  let effectivePath := disk.normalizeEffectiveAbsolutePath entryPath
  let rawCarveoutPath :=
    if root.parent.isSome then
      if entryPath = root then none
      else if entryPath.startsWith root then some entryPath
      else rawWritableRoots.findSome? fun rawRoot =>
        (entryPath.below rawRoot).bind fun suffix =>
          if suffix = [] then none else some (join disk.home root (List.intercalate ['/'] suffix))
    else none
  match rawCarveoutPath with
  | some path => some path
  | none => if effectivePath = root ∨ ¬ effectivePath.startsWith root then none else some effectivePath

/-- The write entries that are effective at their own path. -/
def writableEntries : List AbsolutePath :=
  ((policy.resolvedEntriesWithCwd disk.toEnvironment cwd).filter fun entry =>
    entry.access.canWrite ∧ policy.canWritePathWithCwd disk.toEnvironment entry.path.display cwd).map
      fun entry => entry.path

def protectMissingDotAgere (root : AbsolutePath) : Bool :=
  match disk.fromAbsolutePath cwd with
  | none => false
  | some cwd => disk.normalizeEffectiveAbsolutePath cwd = root

/-- The root for one effective path. -/
def writableRootFor (root : AbsolutePath) : WritableRoot :=
  let resolvedEntries := policy.resolvedEntriesWithCwd disk.toEnvironment cwd
  let rawWritableRoots := (writableEntries disk policy cwd).filter fun path =>
    disk.normalizeEffectiveAbsolutePath path = root
  { root
    protectedMetadataNames := protectedMetadataNamesForWritableRoot disk policy cwd root rawWritableRoots
    readOnlySubpaths := dedupAbsolutePaths disk.toEnvironment
      (((defaultReadOnlySubpathsForWritableRoot disk root (protectMissingDotAgere disk cwd root)).filter fun path =>
          !resolvedEntries.any fun entry => entry.path = path) ++
        (resolvedEntries.filter fun entry =>
          ¬ entry.access.canWrite ∧
            ¬ policy.canWritePathWithCwd disk.toEnvironment entry.path.display cwd).filterMap
              fun entry => carveoutPath disk root rawWritableRoots entry.path) false }

def getWritableRootsWithCwd : List WritableRoot :=
  if policy.hasFullDiskWriteAccess then []
  else
    (dedupAbsolutePaths disk.toEnvironment (writableEntries disk policy cwd) true).map
      (writableRootFor disk policy cwd)

end Model

/-! ### A file system without symbolic links -/

/-- No entry is a symbolic link, so a path that exists is canonical. -/
structure Environment.NoSymlinks (env : Environment) : Prop where
  symlink : ∀ p, env.symlinkMetadata p ≠ some true
  canonical : ∀ p q, env.canonicalize p = some q → q = p

theorem Environment.NoSymlinks.normalize {env : Environment} (h : env.NoSymlinks) (p : AbsolutePath) :
    env.normalizeEffectiveAbsolutePath p = p := by
  have hcanonical : ∀ q, env.canonicalizePreservingSymlinks q = q := by
    intro q
    unfold canonicalizePreservingSymlinks
    cases hq : env.canonicalize q with
    | none => rfl
    | some c =>
      rw [h.canonical q c hq]
      simp
  unfold normalizeEffectiveAbsolutePath
  split
  · rename_i ancestor hfind
    ext1
    show (env.canonicalizePreservingSymlinks ancestor).components ++ p.components.drop _ = p.components
    rw [hcanonical]
    rcases List.mem_cons.mp (List.mem_of_find?_eq_some hfind) with rfl | hmem
    · simp
    · obtain ⟨n, hn, rfl⟩ := mem_ancestors.mp (List.mem_reverse.mp hmem)
      simp only [take, List.length_take, min_eq_left hn.le, List.take_append_drop]
  · rfl

/-- No root has a `.git` file that names a directory. -/
def DiskEnvironment.NoGitPointers (disk : DiskEnvironment) : Prop := ∀ root, topLevelGitdir disk root = none

section Roots

variable {disk : DiskEnvironment} {policy : FileSystemAccessPolicy} {cwd : Str} {root path : AbsolutePath}

variable {env : Environment} {paths : List AbsolutePath} {p : AbsolutePath}

theorem mem_dedup_false :
    p ∈ dedupAbsolutePaths env paths false ↔ p ∈ paths := by
  unfold dedupAbsolutePaths
  rw [mem_foldl_pushUnique]
  simp

theorem mem_dedup_true (h : env.NoSymlinks) :
    p ∈ dedupAbsolutePaths env paths true ↔ p ∈ paths := by
  unfold dedupAbsolutePaths
  rw [mem_foldl_pushUnique]
  simp [h.normalize]

variable {s : AbsolutePath}

/-- The default read-only paths are metadata directories, and the directory a `.git` file names. -/
theorem of_mem_defaults {b : Bool} (h : s ∈ defaultReadOnlySubpathsForWritableRoot disk root b) :
    topLevelGitdir disk root = some s ∨ ∃ name ∈ protectedMetadataPathNames, s = join disk.home root name := by
  unfold defaultReadOnlySubpathsForWritableRoot at h
  simp only [mem_dedup_false, List.mem_append] at h
  have hone : ∀ {c : Prop} [Decidable c] {q : AbsolutePath}, s ∈ (if c then [q] else []) → s = q := by
    intro c _ q hq
    split_ifs at hq
    · exact List.mem_singleton.mp hq
    · exact absurd hq List.not_mem_nil
  rcases h with (h | h) | h
  · split_ifs at h
    · rcases List.mem_append.mp h with hdir | hgit
      · exact Or.inl (Option.mem_toList.mp hdir)
      · exact Or.inr ⟨_, by decide, List.mem_singleton.mp hgit⟩
    · exact absurd h List.not_mem_nil
  · exact Or.inr ⟨_, by decide, hone h⟩
  · exact Or.inr ⟨_, by decide, hone h⟩

theorem mem_writableEntries : p ∈ writableEntries disk policy cwd ↔
    ⟨p, .write⟩ ∈ Rules disk.toEnvironment policy.entries cwd ∧
      policy.canWritePathWithCwd disk.toEnvironment p.display cwd := by
  unfold writableEntries
  simp only [List.mem_map, List.mem_filter, decide_eq_true_eq, FileSystemAccessMode.canWrite_iff]
  constructor
  · rintro ⟨⟨q, mode⟩, ⟨hmem, rfl, hcan⟩, rfl⟩
    exact ⟨hmem, hcan⟩
  · rintro ⟨hmem, hcan⟩
    exact ⟨_, ⟨hmem, rfl, hcan⟩, rfl⟩

theorem writeAt_of_mem_writableEntries (hfull : policy.hasFullDiskWriteAccess = false)
    (hp : p ∈ writableEntries disk policy cwd) : WriteAt disk.toEnvironment policy cwd p := by
  obtain ⟨hmem, hcan⟩ := mem_writableEntries.mp hp
  exact writeAt_of_canWrite hfull (e := ⟨p, .write⟩) hmem hcan

variable {r : WritableRoot}

theorem mem_getWritableRoots (hplain : disk.NoSymlinks) (hfull : policy.hasFullDiskWriteAccess = false)
    : r ∈ getWritableRootsWithCwd disk policy cwd ↔
      ∃ p ∈ writableEntries disk policy cwd, r = writableRootFor disk policy cwd p := by
  unfold getWritableRootsWithCwd
  rw [hfull, if_neg (by decide)]
  simp only [List.mem_map, mem_dedup_true hplain, eq_comm]

theorem isPathWritable_iff : r.isPathWritable path ↔
    r.root.parts <+: path.parts ∧ (∀ s ∈ r.readOnlySubpaths, ¬ s.parts <+: path.parts) ∧
      ∀ name ∈ r.protectedMetadataNames, ¬ r.root.parts ++ [name] <+: path.parts := by
  have hnames : r.pathContainsProtectedMetadataName path = true ↔
      ∃ name ∈ r.protectedMetadataNames, r.root.parts ++ [name] <+: path.parts := by
    unfold WritableRoot.pathContainsProtectedMetadataName
    simp only [← below_head?_eq_some]
    cases (path.below r.root).bind List.head? with
    | none | some => simp
  have hbool : r.isPathWritable path = (path.startsWith r.root &&
      !(r.readOnlySubpaths.any fun subpath => path.startsWith subpath) &&
        !r.pathContainsProtectedMetadataName path) := by
    unfold WritableRoot.isPathWritable
    cases path.startsWith r.root <;> cases r.readOnlySubpaths.any fun subpath => path.startsWith subpath <;>
      cases r.pathContainsProtectedMetadataName path <;> rfl
  rw [hbool, Bool.and_eq_true, Bool.and_eq_true, startsWith_iff, Bool.not_eq_true', Bool.not_eq_true',
    ← Bool.not_eq_true, ← Bool.not_eq_true, hnames, List.any_eq_true, and_assoc]
  simp only [startsWith_iff, not_exists, not_and]

/-- Without symbolic links an entry strictly below the root is carved out at its own path. -/
theorem carveoutPath_eq_some (hplain : disk.NoSymlinks) {raw : List AbsolutePath} (hraw : ∀ p ∈ raw, p = root)
    :
    carveoutPath disk root raw p = some s ↔ p = s ∧ root.parts <+: s.parts ∧ s ≠ root := by
  unfold carveoutPath
  simp only [hplain.normalize]
  have hfind : ¬ p.startsWith root = true → (raw.findSome? fun rawRoot => (p.below rawRoot).bind fun suffix =>
      if suffix = [] then none else some (join disk.home root (List.intercalate ['/'] suffix))) = none := by
    intro hnot
    apply List.findSome?_eq_none_iff.mpr
    intro q hq
    rw [hraw q hq]
    unfold below
    rw [if_neg hnot, Option.bind_none]
  by_cases hstarts : p.startsWith root = true
  · by_cases heq : p = root
    · subst heq
      simp only [if_true, ite_self, true_or]
      constructor
      · intro h
        exact nomatch h
      · rintro ⟨rfl, _, hne⟩
        exact absurd rfl hne
    · have hboth : ∀ c : Bool, (match if c = true then some p else none with
          | some path => some path
          | none => some p) = some p := by
        intro c
        cases c <;> rfl
      simp only [hstarts, if_true, not_true_eq_false, heq, or_false, if_false, hboth,
        Option.some.injEq]
      constructor
      · rintro rfl
        exact ⟨rfl, startsWith_iff.mp hstarts, heq⟩
      · exact fun h => h.1
  · simp only [hfind hstarts, hstarts, Bool.false_eq_true, not_false_eq_true, or_true, if_true, if_false, ite_self]
    constructor
    · intro h
      exact nomatch h
    · rintro ⟨rfl, hcovers, _⟩
      exact absurd (startsWith_iff.mpr hcovers) hstarts

theorem raw_eq_root (hplain : disk.NoSymlinks) : ∀ p ∈ (writableEntries disk policy cwd).filter fun path =>
    disk.normalizeEffectiveAbsolutePath path = root, p = root := by
  intro p hp
  have := (List.mem_filter.mp hp).2
  rwa [decide_eq_true_eq, hplain.normalize] at this

theorem mem_readOnlySubpaths (hplain : disk.NoSymlinks) :
    s ∈ (writableRootFor disk policy cwd root).readOnlySubpaths ↔
      (s ∈ defaultReadOnlySubpathsForWritableRoot disk root (protectMissingDotAgere disk cwd root) ∧
          ∀ e ∈ Rules disk.toEnvironment policy.entries cwd, e.path ≠ s) ∨
        ∃ e ∈ Rules disk.toEnvironment policy.entries cwd, e.path = s ∧ e.access ≠ .write ∧
          ¬ policy.canWritePathWithCwd disk.toEnvironment s.display cwd ∧ root.parts <+: s.parts ∧ s ≠ root := by
  unfold writableRootFor
  simp only [mem_dedup_false, List.mem_append, List.mem_filter, List.mem_filterMap, decide_eq_true_eq,
    carveoutPath_eq_some hplain (raw_eq_root hplain), FileSystemAccessMode.canWrite_iff, Bool.not_eq_true',
    List.any_eq_false]
  apply or_congr_right
  constructor
  · rintro ⟨e, ⟨he, hw, hcan⟩, rfl, hcovers, hne⟩
    exact ⟨e, he, rfl, hw, hcan, hcovers, hne⟩
  · rintro ⟨e, he, rfl, hw, hcan, hcovers, hne⟩
    exact ⟨e, ⟨he, hw, hcan⟩, rfl, hcovers, hne⟩

variable {name : Str}

theorem mem_protectedMetadataNames (hplain : disk.NoSymlinks) :
    name ∈ (writableRootFor disk policy cwd root).protectedMetadataNames ↔
      name ∈ protectedMetadataPathNames ∧
        ¬ policy.canWritePathWithCwd disk.toEnvironment (join disk.home root name).display cwd := by
  unfold writableRootFor protectedMetadataNamesForWritableRoot
  rw [List.mem_filter, List.all_cons, Bool.and_eq_true, Bool.not_eq_true', ← Bool.not_eq_true]
  refine and_congr_right fun _ => ⟨fun h => h.1, fun h => ⟨h, ?_⟩⟩
  rw [List.all_eq_true]
  intro q hq
  obtain ⟨p, hp, rfl⟩ := List.mem_map.mp hq
  rw [raw_eq_root hplain p hp]
  simpa using h

/-! ### What a root lets through -/

/-- The write entry for `root` is the first to have the path in its metadata. -/
abbrev ProtectsFirst (disk : DiskEnvironment) (policy : FileSystemAccessPolicy) (cwd : Str)
    (path root : AbsolutePath) (name : Str) : Prop :=
  metadataChildOfWritableRoot disk.toEnvironment policy path cwd = some (join disk.home root name, name)

abbrev ReadOnlyByDefault (disk : DiskEnvironment) (cwd : Str) (root : AbsolutePath) (name : Str) : Prop :=
  join disk.home root name ∈
    defaultReadOnlySubpathsForWritableRoot disk root (protectMissingDotAgere disk cwd root)

/-- Every entry between the root and the path grants writing, and the metadata directory of the root on
the way has entries of its own or is not protected. -/
structure Uncarved (disk : DiskEnvironment) (policy : FileSystemAccessPolicy) (cwd : Str)
    (path root : AbsolutePath) : Prop where
  mem : ⟨root, .write⟩ ∈ Rules disk.toEnvironment policy.entries cwd
  covers : root.parts <+: path.parts
  between : ∀ e ∈ Rules disk.toEnvironment policy.entries cwd, root.parts <+: e.path.parts →
    e.path.parts <+: path.parts → WriteAt disk.toEnvironment policy cwd e.path
  metadata : ∀ name, InMetadata path root name →
    (∃ e ∈ Rules disk.toEnvironment policy.entries cwd, e.path = join disk.home root name) ∨
      ¬ ProtectsFirst disk policy cwd (join disk.home root name) root name ∧ ¬ ReadOnlyByDefault disk cwd root name

theorem Uncarved.writeAt (h : Uncarved disk policy cwd path root) : WriteAt disk.toEnvironment policy cwd root :=
  h.between _ h.mem List.prefix_rfl h.covers

theorem decides_metadata (hroot : WriteAt disk.toEnvironment policy cwd root)
    (hname : name ∈ protectedMetadataPathNames)
    (hnone : ∀ e ∈ Rules disk.toEnvironment policy.entries cwd, e.path ≠ join disk.home root name) :
    Decides disk.toEnvironment policy.entries cwd (join disk.home root name) ⟨root, .write⟩ where
  mem := hroot.write
  covers := by
    rw [parts_join_metadata root hname]
    exact List.prefix_append _ _
  highest := by
    intro r hr hcovers
    apply hroot.decides.highest r hr
    have hlen : r.path.parts.length ≤ root.parts.length := by
      by_contra hlt
      have hle := hcovers.length_le
      rw [parts_join_metadata root hname, List.length_append] at hle
      have heq : r.path.parts.length = (join disk.home root name).parts.length := by
        rw [parts_join_metadata root hname, List.length_append]
        exact le_antisymm hle (by simpa using hlt)
      exact hnone r hr (parts_injective (hcovers.eq_of_length heq))
    rw [parts_join_metadata root hname] at hcovers
    exact List.prefix_of_prefix_length_le hcovers (List.prefix_append _ _) hlen

/-- The metadata directory without an entry is writable unless the root is the first to protect it. -/
theorem canWrite_metadata_iff (hfull : policy.hasFullDiskWriteAccess = false)
    (hroot : WriteAt disk.toEnvironment policy cwd root) (hname : name ∈ protectedMetadataPathNames)
    (hnone : ∀ e ∈ Rules disk.toEnvironment policy.entries cwd, e.path ≠ join disk.home root name) :
    policy.canWritePathWithCwd disk.toEnvironment (join disk.home root name).display cwd ↔
      ¬ ProtectsFirst disk policy cwd (join disk.home root name) root name := by
  have hd := decides_metadata hroot hname hnone
  rw [canWrite_iff hfull (resolveCandidatePath_display _ _ cwd)]
  constructor
  · rintro ⟨entry, hd', _, hnot⟩
    have hpath : entry.path = root := parts_injective (hd'.key_eq hd)
    rw [hpath] at hnot
    exact hnot name
  · intro hnot
    refine ⟨_, hd, rfl, ?_⟩
    intro name' hchild
    have hin : InMetadata (join disk.home root name) root name := by
      refine ⟨hname, ?_⟩
      rw [parts_join_metadata root hname]
    rw [(metadataChild_mem hchild).2.name_eq hin] at hchild
    exact hnot hchild

variable {entry : ResolvedFileSystemEntry}

/-- Below the deciding entry its metadata directory is protected as the path is. -/
theorem metadataChild_decides
    (hd : Decides disk.toEnvironment policy.entries cwd path entry)
    (hin : InMetadata path entry.path name) :
    metadataChildOfWritableRoot disk.toEnvironment policy (join disk.home entry.path name) cwd =
      metadataChildOfWritableRoot disk.toEnvironment policy path cwd := by
  have hparts : (join disk.home entry.path name).parts = entry.path.parts ++ [name] :=
    parts_join_metadata entry.path hin.mem
  apply metadataChild_congr
  · rw [hparts]
    exact hin.inside
  · intro w hw _ hcovers
    have hle : w.path.parts.length ≤ entry.path.parts.length := hd.length_le hw hcovers
    rw [hparts, List.length_append, List.length_singleton]
    omega

/-- The deciding entry leads to the path uncarved unless it has it in its metadata and protects it. -/
theorem uncarved_decides_iff
    (hd : Decides disk.toEnvironment policy.entries cwd path entry) (hw : entry.access = .write) :
    Uncarved disk policy cwd path entry.path ↔ ∀ name, InMetadata path entry.path name →
      ¬ ProtectsFirst disk policy cwd path entry.path name ∧ ¬ ReadOnlyByDefault disk cwd entry.path name := by
  constructor
  · intro h name hin
    rcases h.metadata name hin with ⟨e, he, hpath⟩ | hmetadata
    · -- an entry for the metadata directory would decide in place of the deciding one
      have hparts := congrArg parts hpath
      rw [parts_join_metadata _ hin.mem] at hparts
      have hle : e.path.parts.length ≤ entry.path.parts.length := by
        apply hd.length_le he
        show e.path.parts <+: path.parts
        rw [hparts]
        exact hin.inside
      rw [hparts] at hle
      simp at hle
    · rwa [ProtectsFirst, metadataChild_decides hd hin] at hmetadata
  · intro hmetadata
    refine ⟨hw ▸ hd.mem, hd.covers, ?_, ?_⟩
    · intro e he habove hbelow
      have heq := habove.eq_of_length (le_antisymm habove.length_le (hd.length_le he hbelow))
      rw [← parts_injective heq]
      exact writeAt_of_decides hd hw
    · intro name hin
      right
      rw [ProtectsFirst, metadataChild_decides hd hin]
      exact hmetadata name hin

/-- A path that a root leads to uncarved is decided on by a write entry. -/
theorem Uncarved.exists_decides (h : Uncarved disk policy cwd path root) :
    ∃ entry, Decides disk.toEnvironment policy.entries cwd path entry ∧ entry.access = .write := by
  obtain ⟨entry, hd⟩ := Permissions.exists_decides h.mem h.covers
  refine ⟨entry, hd, ?_⟩
  have habove : root.parts <+: entry.path.parts := hd.key_above h.mem h.covers
  have hat := h.between entry hd.mem habove hd.covers
  exact hat.access_eq hd

/-- The two views of write access agree on a path. -/
def WriteViewsAgree (disk : DiskEnvironment) (policy : FileSystemAccessPolicy) (path : AbsolutePath) (cwd : Str) :
    Prop :=
  policy.canWritePathWithCwd disk.toEnvironment path.display cwd ↔
    ∃ r ∈ getWritableRootsWithCwd disk policy cwd, r.isPathWritable path

instance (disk : DiskEnvironment) (policy : FileSystemAccessPolicy) (path : AbsolutePath) (cwd : Str) :
    Decidable (WriteViewsAgree disk policy path cwd) := inferInstanceAs (Decidable (_ ↔ _))

/-- The path lies in the metadata of the write entry that decides on it, and the other entries tell
otherwise: that entry refuses the write and another root leads to the path, or another entry comes before
it, while the directory is read-only by default and no other root leads to the path. -/
def MetadataConflict (disk : DiskEnvironment) (policy : FileSystemAccessPolicy) (path : AbsolutePath) (cwd : Str) :
    Prop :=
  ∃ entry name, Decides disk.toEnvironment policy.entries cwd path entry ∧ entry.access = .write ∧
    InMetadata path entry.path name ∧
    (ProtectsFirst disk policy cwd path entry.path name ∧
        (∃ root, root ≠ entry.path ∧ Uncarved disk policy cwd path root) ∨
      ¬ ProtectsFirst disk policy cwd path entry.path name ∧ ReadOnlyByDefault disk cwd entry.path name ∧
        ¬ ∃ root, root ≠ entry.path ∧ Uncarved disk policy cwd path root)

section Restricted

variable (hplain : disk.NoSymlinks) (hgit : disk.NoGitPointers) (hkind : policy.kind = .restricted)
  (hfull : policy.hasFullDiskWriteAccess = false)

include hplain hfull

theorem uncarved_of_isPathWritable (hroot : root ∈ writableEntries disk policy cwd)
    (h : (writableRootFor disk policy cwd root).isPathWritable path) :
    Uncarved disk policy cwd path root := by
  obtain ⟨hcovers, hsubpaths, hnames⟩ := isPathWritable_iff.mp h
  have hwrite := writeAt_of_mem_writableEntries hfull hroot
  refine ⟨hwrite.write, hcovers, ?_, ?_⟩
  · intro e he habove hbelow
    by_cases hpath : e.path = root
    · rw [hpath]
      exact hwrite
    · -- an entry that is not writable would be carved out
      have hopen : ∀ mode, mode ≠ FileSystemAccessMode.write →
          ⟨e.path, mode⟩ ∈ Rules disk.toEnvironment policy.entries cwd →
            policy.canWritePathWithCwd disk.toEnvironment e.path.display cwd = true := by
        intro mode hmode hrule
        by_contra hnot
        exact hsubpaths e.path ((mem_readOnlySubpaths hplain).mpr
          (Or.inr ⟨_, hrule, rfl, hmode, hnot, habove, hpath⟩)) hbelow
      by_cases hmode : e.access = .write
      · refine ⟨hmode ▸ he, ?_⟩
        intro hnone
        exact (writeAt_of_canWrite hfull he (hopen .none (by decide) hnone)).allowed hnone
      · exact writeAt_of_canWrite hfull he (hopen e.access hmode he)
  · intro name hin
    by_cases hrule : ∃ e ∈ Rules disk.toEnvironment policy.entries cwd, e.path = join disk.home root name
    · exact Or.inl hrule
    · right
      push Not at hrule
      have hinside : (join disk.home root name).parts <+: path.parts := by
        rw [parts_join_metadata root hin.mem]
        exact hin.inside
      constructor
      · rw [← canWrite_metadata_iff hfull hwrite hin.mem hrule]
        by_contra hnot
        exact hnames name ((mem_protectedMetadataNames hplain).mpr ⟨hin.mem, hnot⟩) hin.inside
      · intro hdefault
        exact hsubpaths _ ((mem_readOnlySubpaths hplain).mpr (Or.inl ⟨hdefault, hrule⟩)) hinside

include hgit

theorem isPathWritable_of_uncarved (h : Uncarved disk policy cwd path root) :
    (writableRootFor disk policy cwd root).isPathWritable path := by
  refine isPathWritable_iff.mpr ⟨h.covers, ?_, ?_⟩
  · intro s hs hbelow
    rcases (mem_readOnlySubpaths hplain).mp hs with ⟨hdefault, hrule⟩ | ⟨e, he, rfl, _, hnot, habove, _⟩
    · rcases of_mem_defaults hdefault with hdir | ⟨name, hname, rfl⟩
      · rw [hgit root] at hdir
        exact nomatch hdir
      · rw [parts_join_metadata root hname] at hbelow
        rcases h.metadata name ⟨hname, hbelow⟩ with ⟨e, he, hpath⟩ | ⟨_, hnot⟩
        · exact hrule e he hpath
        · exact hnot hdefault
    · exact hnot ((h.between e he habove hbelow).canWrite hfull)
  · intro name hprotected hinside
    obtain ⟨hname, hnot⟩ := (mem_protectedMetadataNames hplain).mp hprotected
    apply hnot
    by_cases hrule : ∃ e ∈ Rules disk.toEnvironment policy.entries cwd, e.path = join disk.home root name
    · obtain ⟨e, he, hpath⟩ := hrule
      rw [← hpath]
      have hparts := congrArg parts hpath
      rw [parts_join_metadata root hname] at hparts
      apply (h.between e he _ _).canWrite hfull
      · rw [hparts]
        exact List.prefix_append _ _
      · rw [hparts]
        exact hinside
    · push Not at hrule
      rw [canWrite_metadata_iff hfull h.writeAt hname hrule]
      rcases h.metadata name ⟨hname, hinside⟩ with ⟨e, he, hpath⟩ | ⟨hchild, _⟩
      · exact absurd hpath (hrule e he)
      · exact hchild

/-- **The roots' view.** Some root lets the path through when one leads to it uncarved. -/
theorem exists_isPathWritable_iff :
    (∃ r ∈ getWritableRootsWithCwd disk policy cwd, r.isPathWritable path) ↔
      ∃ root, Uncarved disk policy cwd path root := by
  constructor
  · rintro ⟨r, hr, hwritable⟩
    obtain ⟨root, hroot, rfl⟩ := (mem_getWritableRoots hplain hfull).mp hr
    exact ⟨root, uncarved_of_isPathWritable hplain hfull hroot hwritable⟩
  · rintro ⟨root, h⟩
    refine ⟨_, (mem_getWritableRoots hplain hfull).mpr ⟨root, ?_, rfl⟩,
      isPathWritable_of_uncarved hplain hgit hfull h⟩
    exact mem_writableEntries.mpr ⟨h.mem, h.writeAt.canWrite hfull⟩

omit hplain hgit in
/-- What the deciding write entry says of the first view. -/
theorem canWrite_decides_iff {entry : ResolvedFileSystemEntry}
    (hd : Decides disk.toEnvironment policy.entries cwd path entry) (hw : entry.access = .write) :
    policy.canWritePathWithCwd disk.toEnvironment path.display cwd ↔
      ∀ name, InMetadata path entry.path name → ¬ ProtectsFirst disk policy cwd path entry.path name := by
  rw [canWrite_iff hfull (resolveCandidatePath_display _ _ cwd)]
  constructor
  · rintro ⟨entry', hd', _, h⟩ name _
    rw [parts_injective (hd'.key_eq hd)] at h
    exact h name
  · intro h
    refine ⟨entry, hd, hw, ?_⟩
    intro name hfirst
    exact h name (metadataChild_mem hfirst).2 hfirst

/-- What the deciding write entry says of the second view. -/
theorem exists_isPathWritable_decides_iff {entry : ResolvedFileSystemEntry}
    (hd : Decides disk.toEnvironment policy.entries cwd path entry) (hw : entry.access = .write) :
    (∃ r ∈ getWritableRootsWithCwd disk policy cwd, r.isPathWritable path) ↔
      (∀ name, InMetadata path entry.path name →
        ¬ ProtectsFirst disk policy cwd path entry.path name ∧ ¬ ReadOnlyByDefault disk cwd entry.path name) ∨
      ∃ root, root ≠ entry.path ∧ Uncarved disk policy cwd path root := by
  rw [exists_isPathWritable_iff hplain hgit hfull, ← uncarved_decides_iff hd hw]
  constructor
  · rintro ⟨root, h⟩
    by_cases hroot : root = entry.path
    · exact Or.inl (hroot ▸ h)
    · exact Or.inr ⟨root, hroot, h⟩
  · rintro (h | ⟨root, _, h⟩)
    · exact ⟨_, h⟩
    · exact ⟨root, h⟩

include hkind in
/-- **Two views of write access.** They agree on a path exactly when the metadata of the entry that
decides on it is not in conflict with the other entries. -/
theorem writeViewsAgree_iff : WriteViewsAgree disk policy path cwd ↔ ¬ MetadataConflict disk policy path cwd := by
  unfold WriteViewsAgree
  by_cases hwrite : ∃ entry, Decides disk.toEnvironment policy.entries cwd path entry ∧ entry.access = .write
  · obtain ⟨entry, hd, hw⟩ := hwrite
    have hunique : ∀ {entry'}, Decides disk.toEnvironment policy.entries cwd path entry' →
        entry'.path = entry.path := fun hd' => parts_injective (hd'.key_eq hd)
    rw [canWrite_decides_iff hfull hd hw, exists_isPathWritable_decides_iff hplain hgit hfull hd hw]
    by_cases hmetadata : ∃ name, InMetadata path entry.path name
    · obtain ⟨name, hin⟩ := hmetadata
      have hname : ∀ {p : Str → Prop}, (∀ name', InMetadata path entry.path name' → p name') ↔ p name :=
        ⟨fun h => h name hin, fun h name' hin' => hin'.name_eq hin ▸ h⟩
      have hconflict : MetadataConflict disk policy path cwd ↔
          (ProtectsFirst disk policy cwd path entry.path name ∧
            ∃ root, root ≠ entry.path ∧ Uncarved disk policy cwd path root) ∨
          ¬ ProtectsFirst disk policy cwd path entry.path name ∧ ReadOnlyByDefault disk cwd entry.path name ∧
            ¬ ∃ root, root ≠ entry.path ∧ Uncarved disk policy cwd path root := by
        constructor
        · rintro ⟨entry', name', hd', _, hin', h⟩
          rw [hunique hd'] at hin' h
          rwa [hin'.name_eq hin] at h
        · exact fun h => ⟨entry, name, hd, hw, hin, h⟩
      rw [hname, hname, hconflict]
      generalize ProtectsFirst disk policy cwd path entry.path name = protects
      generalize ReadOnlyByDefault disk cwd entry.path name = readOnly
      generalize (∃ root, root ≠ entry.path ∧ Uncarved disk policy cwd path root) = other
      by_cases hprotects : protects <;> by_cases hother : other <;> simp [hprotects, hother]
    · push Not at hmetadata
      have hconflict : ¬ MetadataConflict disk policy path cwd := by
        rintro ⟨entry', name, hd', _, hin, _⟩
        rw [hunique hd'] at hin
        exact hmetadata name hin
      refine ⟨fun _ => hconflict, fun _ => ⟨fun _ => Or.inl ?_, fun _ => ?_⟩⟩
      · exact fun name hin => absurd hin (hmetadata name)
      · exact fun name hin => absurd hin (hmetadata name)
  · have hfirst : ¬ policy.canWritePathWithCwd disk.toEnvironment path.display cwd = true := by
      rw [canWrite_restricted_iff hkind (resolveCandidatePath_display _ _ cwd)]
      rintro ⟨entry, hd, hw, _⟩
      exact hwrite ⟨entry, hd, hw⟩
    have hsecond : ¬ ∃ r ∈ getWritableRootsWithCwd disk policy cwd, r.isPathWritable path = true := by
      rw [exists_isPathWritable_iff hplain hgit hfull]
      rintro ⟨root, h⟩
      exact hwrite h.exists_decides
    have hconflict : ¬ MetadataConflict disk policy path cwd := fun ⟨entry, _, hd, hw, _⟩ => hwrite ⟨entry, hd, hw⟩
    exact ⟨fun _ => hconflict, fun _ => ⟨fun h => absurd h hfirst, fun h => absurd h hsecond⟩⟩

end Restricted

/-! ### A nested root -/

/-- Nothing is set or exists. -/
def bareDisk : DiskEnvironment :=
  { bareEnvironment with isFile := fun _ => false, pathExists := fun _ => false, readToString := fun _ => none }

theorem bareDisk_noSymlinks : bareDisk.NoSymlinks :=
  ⟨nofun, nofun⟩

theorem bareDisk_noGitPointers : bareDisk.NoGitPointers := fun _ => rfl

/-- A directory and one below it, both writable. -/
def nestedRoots : FileSystemAccessPolicy :=
  restricted [⟨.path directory, .write⟩, ⟨.path (ofText "/a/b"), .write⟩]

theorem writeViewsAgree_nestedRoots :
    WriteViewsAgree bareDisk nestedRoots (ofText "/a/.git/x") "/w" ∧
      ¬ MetadataConflict bareDisk nestedRoots (ofText "/a/.git/x") "/w" :=
  ⟨by decide +kernel, (writeViewsAgree_iff bareDisk_noSymlinks bareDisk_noGitPointers rfl (by decide)).mp
    (by decide +kernel)⟩

/-- The metadata of the inner root is writable through the outer one. -/
theorem not_writeViewsAgree_nestedRoots :
    nestedRoots.hasFullDiskWriteAccess = false ∧
      nestedRoots.canWritePathWithCwd bareDisk.toEnvironment "/a/b/.git/x" "/w" = false ∧
      ¬ WriteViewsAgree bareDisk nestedRoots (ofText "/a/b/.git/x") "/w" := by
  decide +kernel

end Roots

end OpenAgere.Permissions
