import OpenAgere.WritableRoots

/-! # Semantic equivalence of policies

`is_semantically_equivalent_to` of `protocol/src/permissions.rs` compares two policies by a signature: the
roots that are readable, writable and unreadable at their own path, with the carve-outs of the writable
ones.  On a file system without symbolic links the signature fixes what may be read
(`canRead_of_equivalent`).  It fixes what may be written but for two cases (`agreeAt_iff`): a read
entry for `/tmp` that full write access does not count, and a read entry at the directory a `.git` file
names, which the signature does not tell from the default protection of that directory. -/

namespace OpenAgere.Permissions

open List AbsolutePath FileSystemAccessPolicy FileSystemAccessMode

/-! ### The signature -/

section Model

variable (disk : DiskEnvironment)

def sortedAbsolutePaths (paths : List AbsolutePath) : List AbsolutePath :=
  paths.insertionSort fun left right => left.parts ≤ right.parts

def sortedWritableRoots (roots : List WritableRoot) : List WritableRoot :=
  (roots.map fun root =>
    { root with
      readOnlySubpaths := sortedAbsolutePaths root.readOnlySubpaths
      protectedMetadataNames := (root.protectedMetadataNames.insertionSort (· ≤ ·)).destutter (· ≠ ·) }).insertionSort
        fun left right => left.root.parts ≤ right.root.parts

namespace FileSystemAccessPolicy

variable (policy : FileSystemAccessPolicy) (cwd : Str)

def includePlatformDefaults : Bool :=
  !policy.hasFullDiskReadAccess && policy.kind = .restricted &&
    policy.entries.any fun entry => entry.path = .special .minimal ∧ entry.access.canRead

def getReadableRootsWithCwd : List AbsolutePath :=
  if policy.hasFullDiskReadAccess then []
  else
    dedupAbsolutePaths disk.toEnvironment
      (((policy.resolvedEntriesWithCwd disk.toEnvironment cwd).filter fun entry =>
        entry.access.canRead ∧ policy.canReadPathWithCwd disk.toEnvironment entry.path.display cwd).map
          fun entry => entry.path) true

end FileSystemAccessPolicy

structure FileSystemSemanticSignature where
  hasFullDiskReadAccess : Bool
  hasFullDiskWriteAccess : Bool
  includePlatformDefaults : Bool
  readableRoots : List AbsolutePath
  writableRoots : List WritableRoot
  unreadableRoots : List AbsolutePath
  unreadableGlobs : List Str
deriving DecidableEq

namespace FileSystemAccessPolicy

def semanticSignature (policy : FileSystemAccessPolicy) (cwd : Str) : FileSystemSemanticSignature where
  hasFullDiskReadAccess := policy.hasFullDiskReadAccess
  hasFullDiskWriteAccess := policy.hasFullDiskWriteAccess
  includePlatformDefaults := policy.includePlatformDefaults
  readableRoots := sortedAbsolutePaths (policy.getReadableRootsWithCwd disk cwd)
  writableRoots := sortedWritableRoots (getWritableRootsWithCwd disk policy cwd)
  unreadableRoots := sortedAbsolutePaths (policy.getUnreadableRootsWithCwd disk.toEnvironment cwd)
  unreadableGlobs := policy.getUnreadableGlobsWithCwd disk.toEnvironment cwd

def isSemanticallyEquivalentTo (policy other : FileSystemAccessPolicy) (cwd : Str) : Bool :=
  policy.semanticSignature disk cwd = other.semanticSignature disk cwd

end FileSystemAccessPolicy

end Model

/-! ### What the signature keeps -/

variable {α : Type}

theorem mem_destutter'_ne [DecidableEq α] {x : α} : ∀ {l : List α} {a : α},
    x ∈ l.destutter' (· ≠ ·) a ↔ x = a ∨ x ∈ l
  | [], a => by simp
  | b :: l, a => by
    by_cases h : a = b
    · subst h
      rw [destutter'_cons_neg _ (by simp), mem_destutter'_ne, mem_cons, ← or_assoc, or_self]
    · rw [destutter'_cons_pos _ h, mem_cons, mem_destutter'_ne, mem_cons]

theorem mem_destutter_ne [DecidableEq α] {x : α} {l : List α} : x ∈ l.destutter (· ≠ ·) ↔ x ∈ l := by
  cases l with
  | nil => rfl
  | cons a l => rw [destutter_cons', mem_destutter'_ne, mem_cons]

theorem mem_of_sorted_eq {paths paths' : List AbsolutePath} (h : sortedAbsolutePaths paths = sortedAbsolutePaths paths')
    (p : AbsolutePath) : p ∈ paths ↔ p ∈ paths' := by
  have hsorted : ∀ l : List AbsolutePath, p ∈ sortedAbsolutePaths l ↔ p ∈ l :=
    fun l => (perm_insertionSort _ l).mem_iff
  rw [← hsorted, h, hsorted]

/-- Roots of one signature have the same carve-outs and protected names. -/
structure SameRoot (r r' : WritableRoot) : Prop where
  root : r.root = r'.root
  readOnlySubpaths : ∀ s, s ∈ r.readOnlySubpaths ↔ s ∈ r'.readOnlySubpaths
  protectedMetadataNames : ∀ name, name ∈ r.protectedMetadataNames ↔ name ∈ r'.protectedMetadataNames

theorem exists_sameRoot_of_sorted_eq {roots roots' : List WritableRoot}
    (h : sortedWritableRoots roots = sortedWritableRoots roots') {r : WritableRoot} (hr : r ∈ roots) :
    ∃ r' ∈ roots', SameRoot r r' := by
  have hmem : ∀ {l : List WritableRoot} {x : WritableRoot}, x ∈ sortedWritableRoots l ↔ ∃ r ∈ l,
      { r with
        readOnlySubpaths := sortedAbsolutePaths r.readOnlySubpaths
        protectedMetadataNames := (r.protectedMetadataNames.insertionSort (· ≤ ·)).destutter (· ≠ ·) } = x := by
    intro l x
    unfold sortedWritableRoots
    rw [(perm_insertionSort _ _).mem_iff, mem_map]
  have hr' := hmem.mpr ⟨r, hr, rfl⟩
  rw [h, hmem] at hr'
  obtain ⟨r', hr', heq⟩ := hr'
  obtain ⟨hroot, hsub, hnames⟩ := WritableRoot.mk.inj heq
  refine ⟨r', hr', hroot.symm, mem_of_sorted_eq hsub.symm, ?_⟩
  intro name
  have hsorted : ∀ l : List Str, name ∈ (l.insertionSort (· ≤ ·)).destutter (· ≠ ·) ↔ name ∈ l :=
    fun l => mem_destutter_ne.trans (perm_insertionSort _ l).mem_iff
  rw [← hsorted, ← hnames, hsorted]

/-! ### Reading -/

section Reading

variable {disk : DiskEnvironment} {policy : FileSystemAccessPolicy} {path cwd : Str} {target : AbsolutePath}
variable {env : Environment} {entries : List FileSystemAccessEntry} {entry : ResolvedFileSystemEntry}

theorem decides_self
    (hd : Decides env entries cwd target entry) : Decides env entries cwd entry.path entry :=
  hd.of_length_le hd.covers le_rfl

theorem exists_decides_self {e : ResolvedFileSystemEntry}
    (he : e ∈ Rules env entries cwd) : ∃ mode, Decides env entries cwd e.path ⟨e.path, mode⟩ := by
  obtain ⟨⟨p, mode⟩, hd⟩ := exists_decides he prefix_rfl
  have hle : e.path.parts.length ≤ p.parts.length := hd.length_le he prefix_rfl
  have hpath : p = e.path := parts_injective (hd.covers.eq_of_length (le_antisymm hd.covers.length_le hle))
  exact ⟨mode, hpath ▸ hd⟩

section

variable (hkind : policy.kind = .restricted) (hpath : resolveCandidatePath env path cwd = some target)
include hkind hpath

theorem canRead_decides (hd : Decides env policy.entries cwd target entry) :
    policy.canReadPathWithCwd env path cwd ↔ entry.access ≠ .none := by
  unfold canReadPathWithCwd
  rw [resolveAccess_restricted hkind, resolveAccess_of_decides hpath hd, canRead_iff]

theorem canRead_iff : policy.canReadPathWithCwd env path cwd ↔
    ∃ entry, Decides env policy.entries cwd target entry ∧ entry.access ≠ .none := by
  constructor
  · intro h
    unfold canReadPathWithCwd at h
    rw [resolveAccess_restricted hkind, FileSystemAccessMode.canRead_iff] at h
    obtain ⟨entry, hd, haccess⟩ := (resolveAccess_eq_iff hpath h).mp rfl
    exact ⟨entry, hd, haccess ▸ h⟩
  · rintro ⟨entry, hd, haccess⟩
    exact (canRead_decides hkind hpath hd).mpr haccess

end

theorem root_mem_rules (env : Environment) {predicate : FileSystemAccessMode → Bool} (hcwd : IsAbsolute cwd)
    (h : policy.hasRootAccess predicate) :
    ∃ mode, predicate mode ∧ ⟨root, mode⟩ ∈ Rules env policy.entries cwd := by
  unfold hasRootAccess at h
  obtain ⟨e, he, hroot⟩ := any_eq_true.mp (of_decide_eq_true h).2
  obtain ⟨hspecial, haccess⟩ := of_decide_eq_true hroot
  refine ⟨e.access, haccess, mem_rules.mpr ⟨e, he, ?_, rfl⟩⟩
  rw [hspecial, env.fromAbsolutePath_of_isAbsolute hcwd]
  rfl

theorem kind_of_not_fullRead (h : policy.hasFullDiskReadAccess = false) : policy.kind = .restricted := by
  unfold hasFullDiskReadAccess at h
  cases hkind : policy.kind with
  | restricted => rfl
  | unrestricted | external => simp [hkind] at h

variable {p : AbsolutePath}

theorem mem_readableRoots (hplain : disk.NoSymlinks) (hfull : policy.hasFullDiskReadAccess = false)
    : p ∈ policy.getReadableRootsWithCwd disk cwd ↔
      ∃ mode, mode ≠ .none ∧ Decides disk.toEnvironment policy.entries cwd p ⟨p, mode⟩ := by
  have hkind := kind_of_not_fullRead hfull
  unfold getReadableRootsWithCwd
  rw [hfull, if_neg (by decide), mem_dedup_true hplain]
  simp only [List.mem_map, List.mem_filter, decide_eq_true_eq]
  constructor
  · rintro ⟨e, ⟨he, _, hcan⟩, rfl⟩
    obtain ⟨mode, hd⟩ := exists_decides_self he
    exact ⟨mode, (canRead_decides hkind (resolveCandidatePath_display _ _ cwd) hd).mp hcan, hd⟩
  · rintro ⟨mode, hmode, hd⟩
    refine ⟨⟨p, mode⟩, ⟨hd.mem, FileSystemAccessMode.canRead_iff.mpr hmode, ?_⟩, rfl⟩
    exact (canRead_decides hkind (resolveCandidatePath_display _ _ cwd) hd).mpr hmode

theorem mem_unreadableRoots (hplain : disk.NoSymlinks) (hkind : policy.kind = .restricted) (hcwd : IsAbsolute cwd)
    : p ∈ policy.getUnreadableRootsWithCwd disk.toEnvironment cwd ↔
      Decides disk.toEnvironment policy.entries cwd p ⟨p, .none⟩ ∧ p ≠ root := by
  unfold getUnreadableRootsWithCwd
  rw [if_neg (by simp [hkind]), mem_dedup_true hplain, disk.fromAbsolutePath_of_isAbsolute hcwd]
  simp only [List.mem_map, List.mem_filter, decide_eq_true_eq, Option.map_some, absoluteRootPathForCwd, ne_eq,
    Option.some.injEq]
  constructor
  · rintro ⟨⟨q, mode⟩, ⟨he, hmode, hcan, hroot⟩, rfl⟩
    obtain ⟨mode', hd⟩ := exists_decides_self he
    have hnone : mode' = .none := by
      by_contra hne
      exact hcan ((canRead_decides hkind (resolveCandidatePath_display _ _ cwd) hd).mpr hne)
    exact ⟨hnone ▸ hd, fun h => hroot h.symm⟩
  · rintro ⟨hd, hroot⟩
    refine ⟨⟨p, .none⟩, ⟨hd.mem, rfl, ?_, fun h => hroot h.symm⟩, rfl⟩
    intro hcan
    exact (canRead_decides hkind (resolveCandidatePath_display _ _ cwd) hd).mp hcan rfl

theorem access_ne_none_of_fullRead (hkind : policy.kind = .restricted) (hfull : policy.hasFullDiskReadAccess) :
    ∀ e ∈ policy.entries, e.access ≠ .none := by
  rw [hasFullDiskReadAccess, hkind, Bool.and_eq_true, Bool.not_eq_true', hasDeniedReadRestrictions] at hfull
  exact fun e he hnone => of_decide_eq_false hfull.2 ⟨hkind, any_eq_true.mpr ⟨e, he, decide_eq_true hnone⟩⟩

theorem canRead_of_fullRead (hfull : policy.hasFullDiskReadAccess) (hcwd : IsAbsolute cwd)
    (hpath : resolveCandidatePath env path cwd = some target) :
    policy.canReadPathWithCwd env path cwd := by
  by_cases hkind : policy.kind = .restricted
  · have hallowed := access_ne_none_of_fullRead hkind hfull
    rw [hasFullDiskReadAccess, hkind, Bool.and_eq_true] at hfull
    obtain ⟨mode, _, hrule⟩ := root_mem_rules env hcwd hfull.1
    obtain ⟨entry, hd⟩ := exists_decides hrule (show root.parts <+: target.parts from List.prefix_append _ _)
    rw [canRead_decides hkind hpath hd]
    intro hnone
    obtain ⟨e', he', _, haccess⟩ := mem_rules.mp hd.mem
    exact hallowed e' he' (haccess.trans hnone)
  · unfold canReadPathWithCwd
    rw [resolveAccess_of_not_restricted hkind]
    rfl

end Reading

/-! ### Equivalent policies -/

section Equivalent

variable {disk : DiskEnvironment} {policy other : FileSystemAccessPolicy} {path cwd : Str} {target : AbsolutePath}

/-- What two policies of one signature have in common. -/
structure SameSignature (disk : DiskEnvironment) (policy other : FileSystemAccessPolicy) (cwd : Str) : Prop where
  fullRead : policy.hasFullDiskReadAccess = other.hasFullDiskReadAccess
  fullWrite : policy.hasFullDiskWriteAccess = other.hasFullDiskWriteAccess
  readable : ∀ p, p ∈ policy.getReadableRootsWithCwd disk cwd ↔ p ∈ other.getReadableRootsWithCwd disk cwd
  unreadable : ∀ p, p ∈ policy.getUnreadableRootsWithCwd disk.toEnvironment cwd ↔
    p ∈ other.getUnreadableRootsWithCwd disk.toEnvironment cwd
  writable : ∀ r ∈ getWritableRootsWithCwd disk policy cwd, ∃ r' ∈ getWritableRootsWithCwd disk other cwd, SameRoot r r'

theorem sameSignature_of_equivalent (h : policy.isSemanticallyEquivalentTo disk other cwd) :
    SameSignature disk policy other cwd := by
  have heq : policy.semanticSignature disk cwd = other.semanticSignature disk cwd := of_decide_eq_true h
  unfold semanticSignature at heq
  obtain ⟨hread, hwrite, _, hreadable, hwritable, hunreadable, _⟩ := FileSystemSemanticSignature.mk.inj heq
  exact ⟨hread, hwrite, mem_of_sorted_eq hreadable, mem_of_sorted_eq hunreadable,
    fun r hr => exists_sameRoot_of_sorted_eq hwritable hr⟩

theorem equivalent_symm (h : policy.isSemanticallyEquivalentTo disk other cwd) :
    other.isSemanticallyEquivalentTo disk policy cwd :=
  decide_eq_true (of_decide_eq_true h).symm

/-- The policies agree on what may be read and written at an absolute path. -/
def AgreeAt (disk : DiskEnvironment) (policy other : FileSystemAccessPolicy) (path cwd : Str) : Prop :=
  policy.canReadPathWithCwd disk.toEnvironment path cwd = other.canReadPathWithCwd disk.toEnvironment path cwd ∧
    policy.canWritePathWithCwd disk.toEnvironment path cwd = other.canWritePathWithCwd disk.toEnvironment path cwd

instance (disk : DiskEnvironment) (policy other : FileSystemAccessPolicy) (path cwd : Str) :
    Decidable (AgreeAt disk policy other path cwd) := inferInstanceAs (Decidable (_ ∧ _))

section Sound

variable (hplain : disk.NoSymlinks) (hcwd : IsAbsolute cwd)
  (hpath : resolveCandidatePath disk.toEnvironment path cwd = some target)

include hplain hcwd hpath

variable {entry : ResolvedFileSystemEntry}

omit hplain hcwd hpath in
theorem path_ne_of_decides
    (hd : Decides disk.toEnvironment policy.entries cwd target entry) {p : AbsolutePath}
    (hbelow : entry.path.parts.length < p.parts.length) (hcovers : p.parts <+: target.parts) :
    ∀ e ∈ Rules disk.toEnvironment policy.entries cwd, e.path ≠ p := by
  rintro e he rfl
  exact absurd (hd.length_le he hcovers) hbelow.not_ge

omit hpath in
/-- An entry that denies a path and decides deeper than one of the other policy is there in both policies. -/
theorem access_ne_none (h : SameSignature disk policy other cwd) (hkind : policy.kind = .restricted)
    (hkind' : other.kind = .restricted) {entry' : ResolvedFileSystemEntry}
    (hd : Decides disk.toEnvironment policy.entries cwd target entry)
    (hd' : Decides disk.toEnvironment other.entries cwd target entry')
    (hlt : entry.path.parts.length < entry'.path.parts.length) : entry'.access ≠ .none := by
  intro hmode
  have hroot : entry'.path ≠ root := by
    intro hroot
    rw [hroot] at hlt
    simp [parts, root] at hlt
  have hdeny : Decides disk.toEnvironment other.entries cwd entry'.path ⟨entry'.path, .none⟩ := by
    rw [← hmode]
    exact decides_self hd'
  have hunreadable := (h.unreadable entry'.path).mpr ((mem_unreadableRoots hplain hkind' hcwd).mpr ⟨hdeny, hroot⟩)
  obtain ⟨hdeny', _⟩ := (mem_unreadableRoots hplain hkind hcwd).mp hunreadable
  exact path_ne_of_decides hd hlt hd'.covers _ hdeny'.mem rfl

theorem canRead_of_sameSignature (h : SameSignature disk policy other cwd)
    (hcan : policy.canReadPathWithCwd disk.toEnvironment path cwd) :
    other.canReadPathWithCwd disk.toEnvironment path cwd := by
  cases hfull : policy.hasFullDiskReadAccess with
  | true => exact canRead_of_fullRead (h.fullRead ▸ hfull) hcwd hpath
  | false =>
    have hfull' : other.hasFullDiskReadAccess = false := h.fullRead ▸ hfull
    have hkind := kind_of_not_fullRead hfull
    have hkind' := kind_of_not_fullRead hfull'
    obtain ⟨entry, hd, haccess⟩ := (canRead_iff hkind hpath).mp hcan
    -- the deciding entry stands among the readable roots, so the other policy has one for its path
    have hreadable := (h.readable entry.path).mp ((mem_readableRoots hplain hfull).mpr
      ⟨entry.access, haccess, decides_self hd⟩)
    obtain ⟨mode, hmode, hself⟩ := (mem_readableRoots hplain hfull').mp hreadable
    obtain ⟨entry', hd'⟩ := exists_decides hself.mem hd.covers
    rw [canRead_decides hkind' hpath hd']
    intro hnone
    have hle : entry.path.parts.length ≤ entry'.path.parts.length :=
      (hd'.key_above hself.mem hd.covers).length_le
    rcases hle.lt_or_eq with hlt | heq
    · exact access_ne_none hplain hcwd h hkind hkind' hd hd' hlt hnone
    · have hsame : entry.path = entry'.path :=
        path_eq_of_length_eq hd.covers hd'.covers heq
      have hself' := decides_self hd'
      rw [← hsame] at hself'
      exact hmode ((hself.verdict_eq hself').trans hnone)

/-- **Reading.** Equivalent policies let the same paths be read. -/
theorem canRead_of_equivalent (h : policy.isSemanticallyEquivalentTo disk other cwd) :
    policy.canReadPathWithCwd disk.toEnvironment path cwd = other.canReadPathWithCwd disk.toEnvironment path cwd := by
  apply Bool.eq_iff_iff.mpr
  constructor
  · exact canRead_of_sameSignature hplain hcwd hpath (sameSignature_of_equivalent h)
  · exact canRead_of_sameSignature hplain hcwd hpath (sameSignature_of_equivalent (equivalent_symm h))

/-- The path lies below a writable root, at the directory that the root's `.git` file names, where the
other policy has a read entry. -/
def GitdirCarved (disk : DiskEnvironment) (policy other : FileSystemAccessPolicy) (target : AbsolutePath)
    (cwd : Str) : Prop :=
  policy.hasFullDiskWriteAccess = false ∧ ∃ entry gitdir,
    Decides disk.toEnvironment policy.entries cwd target entry ∧ entry.access = .write ∧
      (∀ name, ¬ ProtectsFirst disk policy cwd target entry.path name) ∧
      topLevelGitdir disk entry.path = some gitdir ∧
      Decides disk.toEnvironment other.entries cwd target ⟨gitdir, .read⟩

/-- With full write access: a read entry for `/tmp` decides, where there is no such directory. -/
def TmpReadOnly (disk : DiskEnvironment) (policy : FileSystemAccessPolicy) (target : AbsolutePath) (cwd : Str) :
    Prop :=
  policy.kind = .restricted ∧ policy.hasFullDiskWriteAccess ∧ disk.isDir Environment.slashTmp = false ∧
    Decides disk.toEnvironment policy.entries cwd target ⟨Environment.slashTmp, .read⟩

omit hplain in
theorem canWrite_fullWrite_iff (hfull : policy.hasFullDiskWriteAccess) :
    policy.canWritePathWithCwd disk.toEnvironment path cwd ↔ ¬ TmpReadOnly disk policy target cwd := by
  rw [canWrite_eq_true, and_iff_left (fun h => nomatch hfull.symm.trans h)]
  by_cases hkind : policy.kind = .restricted
  · rw [resolveAccess_write_iff hkind hpath]
    constructor
    · rintro ⟨entry, hd, hw⟩ ⟨_, _, _, hread⟩
      exact absurd ((hd.verdict_eq hread).symm.trans hw) (by decide)
    · intro hnot
      unfold hasFullDiskWriteAccess at hfull
      have hroot : policy.hasRootAccess canWrite = true := by
        simp only [hkind, Bool.and_eq_true] at hfull
        exact hfull.1
      obtain ⟨mode, haccess, hrule⟩ := root_mem_rules disk.toEnvironment hcwd hroot
      have hmode : mode = .write := FileSystemAccessMode.canWrite_iff.mp haccess
      obtain ⟨entry, hd⟩ := exists_decides hrule (show root.parts <+: target.parts from prefix_append _ _)
      refine ⟨entry, hd, ?_⟩
      by_contra hne
      obtain ⟨hread, hcase⟩ := read_of_fullDiskWrite hkind hfull hd hne
      rcases hcase with hentry | ⟨htmp, hdir⟩
      · exact access_ne_read hd hrule hmode (prefix_append _ _) (by rw [hentry]) hread
      · have hentry : entry = ⟨Environment.slashTmp, .read⟩ := by rw [← htmp, ← hread]
        exact hnot ⟨hkind, hfull, hdir, hentry ▸ hd⟩
  · exact ⟨fun _ h => hkind h.1, fun _ => resolveAccess_of_not_restricted hkind⟩

omit hplain hcwd in
/-- Where the `.git` file of a root carves its directory out, the policies differ. -/
theorem differ_of_gitdirCarved (h : SameSignature disk policy other cwd)
    (hcarved : GitdirCarved disk policy other target cwd) :
    policy.canWritePathWithCwd disk.toEnvironment path cwd ∧
      ¬ other.canWritePathWithCwd disk.toEnvironment path cwd := by
  obtain ⟨hfull, entry, gitdir, hd, hw, hnone, _, hread⟩ := hcarved
  have hfull' : other.hasFullDiskWriteAccess = false := h.fullWrite ▸ hfull
  constructor
  · rw [canWrite_iff hfull hpath]
    exact ⟨entry, hd, hw, hnone⟩
  · rw [canWrite_iff hfull' hpath]
    rintro ⟨entry', hd', hw', _⟩
    have hmode : read = .write := (hd'.verdict_eq hread).symm.trans hw'
    exact nomatch hmode

omit hcwd hpath in
/-- A writable root of one policy is a root of the other, with the same carve-outs. -/
theorem sameRoot_of_sameSignature (h : SameSignature disk policy other cwd)
    (hfull : policy.hasFullDiskWriteAccess = false) {p : AbsolutePath}
    (hp : p ∈ writableEntries disk policy cwd) :
    p ∈ writableEntries disk other cwd ∧
      SameRoot (writableRootFor disk policy cwd p) (writableRootFor disk other cwd p) := by
  obtain ⟨r', hr', hsame⟩ := h.writable _ ((mem_getWritableRoots hplain hfull).mpr ⟨p, hp, rfl⟩)
  obtain ⟨q, hq, rfl⟩ := (mem_getWritableRoots hplain (h.fullWrite ▸ hfull)).mp hr'
  obtain rfl : p = q := hsame.root
  exact ⟨hq, hsame⟩

omit hcwd hpath in
/-- The deciding entry protects a name exactly when it is the first to do so. -/
theorem mem_protectedMetadataNames_decides (hfull : policy.hasFullDiskWriteAccess = false) (hd : Decides disk.toEnvironment policy.entries cwd target entry)
    (hw : entry.access = .write) {name : Str} (hin : InMetadata target entry.path name) :
    name ∈ (writableRootFor disk policy cwd entry.path).protectedMetadataNames ↔
      ProtectsFirst disk policy cwd target entry.path name := by
  have hparts : (join disk.home entry.path name).parts = _ := parts_join_metadata _ hin.mem
  have hrule : ∀ e ∈ Rules disk.toEnvironment policy.entries cwd, e.path ≠ join disk.home entry.path name := by
    refine path_ne_of_decides hd ?_ ?_
    · rw [hparts]
      simp
    · rw [hparts]
      exact hin.inside
  rw [mem_protectedMetadataNames hplain, canWrite_metadata_iff hfull
    (writeAt_of_decides hd hw) hin.mem hrule, not_not, ProtectsFirst, metadataChild_decides hd hin]
  exact and_iff_right hin.mem

theorem canWrite_of_sameSignature (h : SameSignature disk policy other cwd)
    (hback : SameSignature disk other policy cwd) (hfull : policy.hasFullDiskWriteAccess = false)
    (hcan : policy.canWritePathWithCwd disk.toEnvironment path cwd) :
    other.canWritePathWithCwd disk.toEnvironment path cwd ∨ GitdirCarved disk policy other target cwd := by
  have hfull' : other.hasFullDiskWriteAccess = false := h.fullWrite ▸ hfull
  have hkind := kind_of_not_fullWrite hfull
  have hkind' := kind_of_not_fullWrite hfull'
  obtain ⟨entry, hd, hw, hnone⟩ := (canWrite_iff hfull hpath).mp hcan
  have hat := writeAt_of_decides hd hw
  obtain ⟨hroot, hsame⟩ := sameRoot_of_sameSignature hplain h hfull
    (mem_writableEntries.mpr ⟨hat.write, hat.canWrite hfull⟩)
  have hat' := writeAt_of_mem_writableEntries hfull' hroot
  obtain ⟨entry', hd'⟩ := exists_decides hat'.write hd.covers
  have habove : (⟨entry.path, .write⟩ : ResolvedFileSystemEntry).key <+: entry'.key :=
    hd'.key_above hat'.write hd.covers
  replace habove : entry.path.parts <+: entry'.path.parts := habove
  have hprotected : ∀ name, InMetadata target entry.path name →
      name ∉ (writableRootFor disk other cwd entry.path).protectedMetadataNames := by
    intro name hin hmem
    exact hnone name ((mem_protectedMetadataNames_decides hplain hfull hd hw hin).mp
      ((hsame.protectedMetadataNames name).mpr hmem))
  by_cases hpath' : entry'.path = entry.path
  · left
    have hw' : entry'.access = .write := WriteAt.access_eq (hpath' ▸ hat') hd'
    rw [canWrite_iff hfull' hpath]
    refine ⟨entry', hd', hw', ?_⟩
    intro name hfirst
    have hin := (metadataChild_mem hfirst).2
    apply hprotected name (hpath' ▸ hin)
    rw [← hpath']
    exact (mem_protectedMetadataNames_decides hplain hfull' hd' hw' hin).mpr hfirst
  · right
    -- the other policy decides deeper, and the first one has no entry there
    have hlt : entry.path.parts.length < entry'.path.parts.length := by
      refine lt_of_le_of_ne habove.length_le fun hlen => hpath' ?_
      exact parts_injective (habove.eq_of_length hlen).symm
    have hdeepest := path_ne_of_decides hd hlt hd'.covers
    have hw' : entry'.access ≠ .write := by
      intro hw'
      have hat := writeAt_of_decides hd' hw'
      obtain ⟨hroot', _⟩ := sameRoot_of_sameSignature hplain hback hfull'
        (mem_writableEntries.mpr ⟨hat.write, hat.canWrite hfull'⟩)
      exact hdeepest _ (mem_writableEntries.mp hroot').1 rfl
    have hnot : ¬ other.canWritePathWithCwd disk.toEnvironment entry'.path.display cwd = true := by
      intro hcan'
      have hat := writeAt_of_canWrite hfull' hd'.mem hcan'
      exact hw' (hat.decides.verdict_eq (decides_self hd')).symm
    have hcarved := (hsame.readOnlySubpaths entry'.path).mpr ((mem_readOnlySubpaths hplain).mpr
      (Or.inr ⟨entry', hd'.mem, rfl, hw', hnot, habove, hpath'⟩))
    rcases (mem_readOnlySubpaths hplain).mp hcarved with ⟨hdefault, _⟩ | ⟨e, he, heq, _⟩
    · rcases of_mem_defaults hdefault with hdir | ⟨name, hname, heq⟩
      · have hread : entry'.access = .read :=
          eq_read_of_ne hw' (access_ne_none hplain hcwd h hkind hkind' hd hd' hlt)
        refine ⟨hfull, entry, entry'.path, hd, hw, hnone, hdir, ?_⟩
        rw [← hread]
        exact hd'
      · have hin : InMetadata target entry.path name := by
          refine ⟨hname, ?_⟩
          rw [← parts_join_metadata entry.path hname, ← heq]
          exact hd'.covers
        exact absurd ((mem_protectedMetadataNames hplain).mpr ⟨hname, heq ▸ hnot⟩) (hprotected name hin)
    · exact absurd heq (hdeepest e he)

omit hpath in
/-- **Soundness of the signature.** Equivalent policies agree on an absolute path exactly when neither of
the two read entries that the signature loses decides on it in one of them alone. -/
theorem agreeAt_iff (habs : IsAbsolute path) (h : policy.isSemanticallyEquivalentTo disk other cwd) :
    AgreeAt disk policy other path cwd ↔
      (TmpReadOnly disk policy (ofText path) cwd ↔ TmpReadOnly disk other (ofText path) cwd) ∧
        ¬ GitdirCarved disk policy other (ofText path) cwd ∧
        ¬ GitdirCarved disk other policy (ofText path) cwd := by
  have hpath := resolveCandidatePath_of_isAbsolute disk.toEnvironment habs cwd
  unfold AgreeAt
  have hsig := sameSignature_of_equivalent h
  have hsig' := sameSignature_of_equivalent (equivalent_symm h)
  rw [and_iff_right (canRead_of_equivalent hplain hcwd hpath h), Bool.eq_iff_iff]
  cases hfull : policy.hasFullDiskWriteAccess with
  | true =>
    have hfull' : other.hasFullDiskWriteAccess = true := hsig.fullWrite ▸ hfull
    have hcarved : ¬ GitdirCarved disk policy other (ofText path) cwd := fun hc => nomatch hfull.symm.trans hc.1
    have hcarved' : ¬ GitdirCarved disk other policy (ofText path) cwd := fun hc => nomatch hfull'.symm.trans hc.1
    rw [canWrite_fullWrite_iff hcwd hpath hfull, canWrite_fullWrite_iff hcwd hpath hfull', not_iff_not]
    exact ⟨fun hiff => ⟨hiff, hcarved, hcarved'⟩, fun hiff => hiff.1⟩
  | false =>
    have hfull' : other.hasFullDiskWriteAccess = false := hsig.fullWrite ▸ hfull
    have htmp : TmpReadOnly disk policy (ofText path) cwd ↔ TmpReadOnly disk other (ofText path) cwd :=
      ⟨fun ht => (nomatch hfull.symm.trans ht.2.1), fun ht => (nomatch hfull'.symm.trans ht.2.1)⟩
    constructor
    · intro hiff
      refine ⟨htmp, ?_, ?_⟩
      · intro hcarved
        obtain ⟨hcan, hnot⟩ := differ_of_gitdirCarved hpath hsig hcarved
        exact hnot (hiff.mp hcan)
      · intro hcarved
        obtain ⟨hcan, hnot⟩ := differ_of_gitdirCarved hpath hsig' hcarved
        exact hnot (hiff.mpr hcan)
    · rintro ⟨_, hcarved, hcarved'⟩
      constructor
      · exact fun hcan => (canWrite_of_sameSignature hplain hcwd hpath hsig hsig' hfull hcan).resolve_right hcarved
      · exact fun hcan =>
          (canWrite_of_sameSignature hplain hcwd hpath hsig' hsig hfull' hcan).resolve_right hcarved'

end Sound

/-- Writing everywhere. -/
def writeRoot : FileSystemAccessPolicy := restricted [⟨.special .root, .write⟩]

/-- The same with a read entry for `/tmp`, and a write entry for the special path that stands for it. -/
def readTmp : FileSystemAccessPolicy :=
  restricted [⟨.special .root, .write⟩, ⟨.path Environment.slashTmp, .read⟩, ⟨.special .slashTmp, .write⟩]

/-- A root whose `.git` file names a directory below it. -/
def pointerDisk : DiskEnvironment :=
  { bareDisk with
    isFile := fun path => path = ofText "/a/.git"
    pathExists := fun _ => true
    readToString := fun path =>
      if path = ofText "/a/.git" then some "gitdir: sub/g\n" else none }

def writeBelow : FileSystemAccessPolicy := restricted [⟨.special .root, .read⟩, ⟨.path directory, .write⟩]

/-- The same with a read entry for the directory that the file names. -/
def readGitdir : FileSystemAccessPolicy :=
  restricted [⟨.special .root, .read⟩, ⟨.path directory, .write⟩, ⟨.path (ofText "/a/sub/g"), .read⟩]

theorem agreeAt_writeRoot :
    writeRoot.isSemanticallyEquivalentTo bareDisk readTmp "/w" ∧
      AgreeAt bareDisk writeRoot readTmp "/w/x" "/w" ∧
      (TmpReadOnly bareDisk writeRoot (ofText "/w/x") "/w" ↔
        TmpReadOnly bareDisk readTmp (ofText "/w/x") "/w") :=
  ⟨by decide +kernel, by decide +kernel,
    ((agreeAt_iff bareDisk_noSymlinks (by decide) (by decide) (by decide +kernel)).mp (by decide +kernel)).1⟩

/-- Both kinds of entry are lost: policies that are equivalent differ at `/tmp/x` and at `/a/sub/g/x`. -/
theorem not_agreeAt_readTmp :
    (writeRoot.isSemanticallyEquivalentTo bareDisk readTmp "/w" ∧
      ¬ AgreeAt bareDisk writeRoot readTmp "/tmp/x" "/w") ∧
    writeBelow.isSemanticallyEquivalentTo pointerDisk readGitdir "/w" ∧
      ¬ AgreeAt pointerDisk writeBelow readGitdir "/a/sub/g/x" "/w" := by
  decide +kernel

/-- **Full access to the disk.** Where `/tmp` is a directory, every path can be written or read, and nothing is denied. -/
theorem fullDisk_sound (policy : FileSystemAccessPolicy) (hcwd : IsAbsolute cwd) (habs : IsAbsolute path)
    (htmp : disk.isDir Environment.slashTmp) :
    (policy.hasFullDiskWriteAccess → policy.resolveAccessWithCwd disk.toEnvironment path cwd = .write ∧
      (policy.kind = .restricted → ∀ pattern, ⟨.globPattern pattern, .none⟩ ∉ policy.entries)) ∧
    (policy.hasFullDiskReadAccess → policy.canReadPathWithCwd disk.toEnvironment path cwd ∧
      policy.getUnreadableRootsWithCwd disk.toEnvironment cwd = [] ∧
      policy.getUnreadableGlobsWithCwd disk.toEnvironment cwd = []) := by
  have hpath := resolveCandidatePath_of_isAbsolute disk.toEnvironment habs cwd
  refine ⟨fun hfull => ⟨?_, fun hkind pattern hmem => ?_⟩, fun hfull => ⟨canRead_of_fullRead hfull hcwd hpath, ?_⟩⟩
  · have hcan := (canWrite_fullWrite_iff hcwd hpath hfull).mpr fun h => nomatch h.2.2.1.symm.trans htmp
    exact (canWrite_eq_true.mp hcan).1
  · have hnarrow : policy.hasWriteNarrowingEntries = true :=
      decide_eq_true ⟨hkind, any_eq_true.mpr ⟨_, hmem, rfl⟩⟩
    simp [hasFullDiskWriteAccess, hkind, hnarrow] at hfull
  · unfold getUnreadableRootsWithCwd getUnreadableGlobsWithCwd
    split_ifs with hkind
    · exact ⟨rfl, rfl⟩
    · have hallowed := access_ne_none_of_fullRead (not_not.mp hkind) hfull
      rw [filter_eq_nil_iff.mpr, filterMap_eq_nil_iff.mpr]
      · exact ⟨rfl, rfl⟩
      · intro e he
        have hne := hallowed e he
        split <;> simp_all
      · intro r hr h
        obtain ⟨e, he, -, haccess⟩ := mem_rules.mp hr
        exact hallowed e he (haccess.trans (of_decide_eq_true h).1)

/-- A read entry for `/tmp` narrows nothing where another entry gives the same path to be written. -/
theorem fullDisk_readTmp :
    readTmp.resolveAccessWithCwd { bareDisk with isDir := fun _ => true } "/tmp/x" "/w" = .write ∧
      readTmp.getUnreadableRootsWithCwd { bareDisk with isDir := fun _ => true } "/w" = [] := by
  have hsound := @fullDisk_sound { bareDisk with isDir := fun _ => true } "/tmp/x" "/w" readTmp
    (by decide) (by decide) rfl
  exact ⟨(hsound.1 (by decide)).1, (hsound.2 (by decide)).2.1⟩

/-- Only a restricted policy asks its entries. -/
theorem fullDisk_deniedGlob : ∃ (policy : FileSystemAccessPolicy) (pattern : Str),
    policy.hasFullDiskWriteAccess ∧ ⟨.globPattern pattern, .none⟩ ∈ policy.entries :=
  ⟨⟨.unrestricted, none, [⟨.globPattern [], .none⟩]⟩, [], rfl, mem_singleton_self _⟩

end Equivalent

end OpenAgere.Permissions
