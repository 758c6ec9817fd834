import OpenAgere.WritableRoots

/-! # Required access modes

`access_mode_requirement_for_permission_profile` of `config/src/config_requirements.rs` gives a permission profile the
access mode that a list of required modes is searched for, by its entries alone.  What the profile allows is decided by
its entries as they resolve in a working directory (`MetadataProtection`).

A profile counts as read-only only if nothing can be written (`not_canWrite_of_readOnly`).  One that counts as writing
in the workspace can write everywhere but in metadata directories if its entries resolve to a write entry for the root
and no other entry takes anything away from it, however they are spelled; otherwise the mode is a bound
(`boundedBy_requirements_iff`). -/

namespace OpenAgere.Permissions

open AbsolutePath FileSystemAccessPolicy

/-! ### Profiles -/

inductive NetworkAccessPolicy where
  | restricted
  | enabled
deriving DecidableEq

inductive ManagedFileSystemPermissions where
  | restricted (entries : List FileSystemAccessEntry) (globScanMaxDepth : Option ℕ+)
  | unrestricted

inductive PermissionProfile where
  | managed (fileSystem : ManagedFileSystemPermissions) (network : NetworkAccessPolicy)
  | disabled
  | external (network : NetworkAccessPolicy)

def FileSystemAccessPolicy.unrestricted : FileSystemAccessPolicy := ⟨.unrestricted, none, []⟩

def FileSystemAccessPolicy.externalFilesystemPolicy : FileSystemAccessPolicy := ⟨.external, none, []⟩

def appendDefaultReadOnlyEntryIfNoExplicitRule (entries : List FileSystemAccessEntry) (path : FileSystemPath) :
    List FileSystemAccessEntry :=
  if entries.any fun entry => fileSystemPathsShareTarget entry.path path then entries
  else entries ++ [⟨path, .read⟩]

/-- The subpaths of the project roots that stay read-only. -/
def readOnlyProjectRootSubpaths : List PathBuf :=
  [⟨".git", by decide⟩, ⟨".agents", by decide⟩, ⟨".openagere", by decide⟩]

def FileSystemAccessPolicy.workspaceWrite (disk : DiskEnvironment) (writableRoots : List AbsolutePath)
    (excludeTmpdirEnvVar excludeSlashTmp : Bool) : FileSystemAccessPolicy :=
  let entries : List FileSystemAccessEntry :=
    [⟨.special .root, .read⟩, ⟨.special (.projectRoots none), .write⟩] ++
      (if excludeSlashTmp then [] else [⟨.special .slashTmp, .write⟩]) ++
      (if excludeTmpdirEnvVar then [] else [⟨.special .tmpdir, .write⟩]) ++
      writableRoots.map fun path => ⟨.path path, .write⟩
  let protectedPaths : List FileSystemPath :=
    (readOnlyProjectRootSubpaths.map fun subpath => .special (.projectRoots (some subpath))) ++
      writableRoots.flatMap fun writableRoot =>
        (defaultReadOnlySubpathsForWritableRoot disk writableRoot false).map .path
  restricted (protectedPaths.foldl appendDefaultReadOnlyEntryIfNoExplicitRule entries)

/-- A restricted profile without entries stands for writing in the workspace. -/
def ManagedFileSystemPermissions.toAccessPolicy (disk : DiskEnvironment) :
    ManagedFileSystemPermissions → FileSystemAccessPolicy
  | .restricted entries globScanMaxDepth =>
      if entries.isEmpty then
        { workspaceWrite disk [] true true with globScanMaxDepth := globScanMaxDepth.map PNat.val }
      else ⟨.restricted, globScanMaxDepth.map PNat.val, entries⟩
  | .unrestricted => .unrestricted

def PermissionProfile.fileSystemAccessPolicy (disk : DiskEnvironment) : PermissionProfile → FileSystemAccessPolicy
  | .managed fileSystem _ => fileSystem.toAccessPolicy disk
  | .disabled => .unrestricted
  | .external _ => .externalFilesystemPolicy

/-! ### Required modes -/

inductive AccessModeRequirement where
  | readOnly
  | workspaceWrite
  | dangerFullAccess
  | external
deriving DecidableEq

def accessModeRequirementForPermissionProfile (disk : DiskEnvironment) (permissionProfile : PermissionProfile) :
    AccessModeRequirement :=
  match permissionProfile with
  | .disabled => .dangerFullAccess
  | .external _ => .external
  | .managed _ _ =>
      let fileSystemPolicy := permissionProfile.fileSystemAccessPolicy disk
      if fileSystemPolicy.hasFullDiskWriteAccess then .dangerFullAccess
      else if fileSystemPolicy.entries.any fun entry => entry.access.canWrite then .workspaceWrite
      else .readOnly

/-- The check of a candidate against the allowed modes. -/
def acceptsPermissionProfile (disk : DiskEnvironment) (modes : List AccessModeRequirement)
    (candidate : PermissionProfile) : Bool :=
  modes.contains (accessModeRequirementForPermissionProfile disk candidate)

/-! ### What a mode bounds -/

/-- No component of the path is a name of protected metadata. -/
def Unprotected (path : AbsolutePath) : Prop := ∀ c ∈ path.components, c ∉ protectedMetadataPathNames

/-- Some path outside of protected metadata cannot be written. -/
def LeavesSomething (env : Environment) (policy : FileSystemAccessPolicy) (cwd : Str) : Prop :=
  ∃ target, Unprotected target ∧ policy.canWritePathWithCwd env target.display cwd = false

/-- The mode of a profile bounds what it allows in a directory: read-only profiles write nothing, and those that write
in the workspace, or that are accepted where full access is not, leave something. -/
structure Bounded (disk : DiskEnvironment) (profile : PermissionProfile) (cwd : Str) : Prop where
  readOnly : accessModeRequirementForPermissionProfile disk profile = .readOnly →
    ∀ path, (profile.fileSystemAccessPolicy disk).canWritePathWithCwd disk.toEnvironment path cwd = false
  workspaceWrite : accessModeRequirementForPermissionProfile disk profile = .workspaceWrite →
    LeavesSomething disk.toEnvironment (profile.fileSystemAccessPolicy disk) cwd
  accepted : ∀ modes, .dangerFullAccess ∉ modes → acceptsPermissionProfile disk modes profile →
    LeavesSomething disk.toEnvironment (profile.fileSystemAccessPolicy disk) cwd

/-- The entries, as they resolve in the directory, grant writing at the root, and those that do not grant it are
overridden at their own paths or lie in protected metadata. -/
structure SpellsWholeDisk (env : Environment) (policy : FileSystemAccessPolicy) (cwd : Str) : Prop where
  atRoot : WriteAt env policy cwd root
  elsewhere : ∀ r ∈ Rules env policy.entries cwd, Unprotected r.path → WriteAt env policy cwd r.path

section Theory
variable {env : Environment} {policy : FileSystemAccessPolicy} {cwd path : Str} {target : AbsolutePath}

theorem unprotected_root : Unprotected root := List.forall_mem_nil _

theorem Unprotected.of_prefix {above : AbsolutePath} (h : Unprotected target) (habove : above.parts <+: target.parts) :
    Unprotected above := by
  obtain ⟨rest, hrest⟩ := habove
  have hcomponents : above.components ++ rest = target.components := (List.cons.inj hrest).2
  exact fun c hc => h c (hcomponents ▸ List.mem_append_left rest hc)

theorem Unprotected.not_inMetadata (h : Unprotected target) {above : AbsolutePath} {name : Str} :
    ¬InMetadata target above name := by
  rintro ⟨hname, rest, hrest⟩
  have hcomponents : above.components ++ [name] ++ rest = target.components := (List.cons.inj hrest).2
  refine h name ?_ hname
  rw [← hcomponents]
  exact List.mem_append_left rest (List.mem_append_right _ (List.mem_singleton_self name))

theorem canWrite_unprotected_iff (hfull : policy.hasFullDiskWriteAccess = false)
    (h : Unprotected target) : policy.canWritePathWithCwd env target.display cwd ↔
      ∃ entry, Decides env policy.entries cwd target entry ∧ entry.access = .write := by
  rw [canWrite_iff hfull (resolveCandidatePath_display env target cwd)]
  refine exists_congr fun entry => and_congr_right fun _ => and_iff_left fun name hchild => ?_
  obtain ⟨w, -, -, hin, -⟩ := exists_of_metadataChild hchild
  exact h.not_inMetadata hin

/-- **The whole disk** outside of protected metadata can be written exactly if the entries spell it. -/
theorem spellsWholeDisk_iff (hfull : policy.hasFullDiskWriteAccess = false) :
    SpellsWholeDisk env policy cwd ↔
      ∀ target, Unprotected target → policy.canWritePathWithCwd env target.display cwd := by
  constructor
  · intro h target htarget
    have hroot : root.parts <+: target.parts := ⟨target.components, rfl⟩
    obtain ⟨entry, hd⟩ := exists_decides h.atRoot.write hroot
    have hat := h.elsewhere entry hd.mem (htarget.of_prefix hd.covers)
    exact (canWrite_unprotected_iff hfull htarget).mpr ⟨entry, hd, hat.access_eq hd⟩
  · intro h
    refine ⟨?_, fun r hr hpath => writeAt_of_canWrite hfull hr (h r.path hpath)⟩
    obtain ⟨entry, hd, hw⟩ := (canWrite_unprotected_iff hfull unprotected_root).mp (h root unprotected_root)
    have hlength : entry.path.parts.length = root.parts.length :=
      le_antisymm hd.covers.length_le (Nat.succ_le_succ (Nat.zero_le _))
    rw [← parts_injective (hd.covers.eq_of_length hlength)]
    exact writeAt_of_decides hd hw

theorem not_canWrite_of_entries (hkind : policy.kind = .restricted)
    (hentries : (policy.entries.any fun entry => entry.access.canWrite) = false) :
    policy.canWritePathWithCwd env path cwd = false := by
  unfold canWritePathWithCwd
  rw [if_pos]
  intro hwrite
  rw [FileSystemAccessMode.canWrite_iff] at hwrite
  cases hpath : resolveCandidatePath env path cwd with
  | none =>
    unfold resolveAccessWithCwd at hwrite
    rw [hkind, hpath] at hwrite
    cases hwrite
  | some target =>
    obtain ⟨entry, hd, hw⟩ := (resolveAccess_write_iff hkind hpath).mp hwrite
    obtain ⟨e, he, -, haccess⟩ := mem_rules.mp hd.mem
    refine List.any_eq_false.mp hentries e he ?_
    rw [FileSystemAccessMode.canWrite_iff, haccess, hw]

end Theory

section Managed
variable {disk : DiskEnvironment} {fileSystem : ManagedFileSystemPermissions} {network : NetworkAccessPolicy}
  {cwd path : Str}

theorem not_canWrite_of_readOnly
    (h : accessModeRequirementForPermissionProfile disk (.managed fileSystem network) = .readOnly) :
    (fileSystem.toAccessPolicy disk).canWritePathWithCwd disk.toEnvironment path cwd = false := by
  unfold accessModeRequirementForPermissionProfile at h
  dsimp only at h
  split_ifs at h with hfull hentries
  rw [Bool.not_eq_true] at hfull hentries
  exact not_canWrite_of_entries (kind_of_not_fullWrite hfull) hentries

/-- **Modes as bounds.** The mode of a managed profile bounds what the profile allows in a directory, exactly if the
profile has full access, or its entries do not spell the whole disk there. -/
theorem boundedBy_requirements_iff (disk : DiskEnvironment) (fileSystem : ManagedFileSystemPermissions)
    (network : NetworkAccessPolicy) (cwd : Str) :
    Bounded disk (.managed fileSystem network) cwd ↔
      (fileSystem.toAccessPolicy disk).hasFullDiskWriteAccess ∨
        ¬SpellsWholeDisk disk.toEnvironment (fileSystem.toAccessPolicy disk) cwd := by
  have hmode : accessModeRequirementForPermissionProfile disk (.managed fileSystem network) =
    if (fileSystem.toAccessPolicy disk).hasFullDiskWriteAccess then _ else _ := rfl
  cases hfull : (fileSystem.toAccessPolicy disk).hasFullDiskWriteAccess with
  | true =>
    rw [hfull, if_pos rfl] at hmode
    refine iff_of_true ⟨fun h => ?_, fun h => ?_, fun modes hmodes h => ?_⟩ (.inl rfl)
    · cases hmode.symm.trans h
    · cases hmode.symm.trans h
    · rw [acceptsPermissionProfile, hmode, List.contains_iff_mem] at h
      exact absurd h hmodes
  | false =>
    rw [spellsWholeDisk_iff hfull, or_iff_right Bool.false_ne_true]
    simp only [not_forall, Bool.not_eq_true, exists_prop]
    constructor
    · intro h
      rw [hfull, if_neg Bool.false_ne_true] at hmode
      split_ifs at hmode with hentries
      · exact h.workspaceWrite hmode
      · exact ⟨root, unprotected_root, h.readOnly hmode _⟩
    · exact fun h => ⟨fun hread _ => not_canWrite_of_readOnly hread, fun _ => h, fun _ _ _ => h⟩

/-- A write entry for the root that is spelled as a path. -/
def literalRoot : PermissionProfile := .managed (.restricted [⟨.path root, .write⟩] none) .restricted

/-- It is accepted as writing in the workspace, and every path outside of protected metadata can be written. -/
theorem not_bounded_literalRoot :
    accessModeRequirementForPermissionProfile bareDisk literalRoot = .workspaceWrite ∧
    acceptsPermissionProfile bareDisk [.readOnly, .workspaceWrite] literalRoot ∧
    (∀ target, Unprotected target → (literalRoot.fileSystemAccessPolicy bareDisk).canWritePathWithCwd
      bareDisk.toEnvironment target.display "/work") ∧
    ¬Bounded bareDisk literalRoot "/work" := by
  have hspells : SpellsWholeDisk bareDisk.toEnvironment (literalRoot.fileSystemAccessPolicy bareDisk)
      "/work" := by
    have hat : WriteAt bareDisk.toEnvironment (literalRoot.fileSystemAccessPolicy bareDisk) "/work" root :=
      ⟨by decide, by decide⟩
    refine ⟨hat, fun r hr _ => ?_⟩
    obtain rfl := List.mem_singleton.mp hr
    exact hat
  have hwritable := (spellsWholeDisk_iff (by decide)).mp hspells
  refine ⟨by decide, by decide, hwritable, fun h => ?_⟩
  obtain ⟨target, htarget, hnot⟩ := h.workspaceWrite (by decide)
  exact Bool.false_ne_true (hnot.symm.trans (hwritable target htarget))

end Managed

end OpenAgere.Permissions
