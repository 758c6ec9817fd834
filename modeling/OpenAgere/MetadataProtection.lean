import OpenAgere.AccessPolicyTransforms

/-! # Protected metadata of writable roots

The part of `protocol/src/permissions.rs` that keeps `.git`, `.agents` and `.openagere` below a writable
path from being written.  A write is refused when the first write entry, in the order of the list, that
has the path in one of its metadata directories has no write entry at or below that directory which
covers the path.

Where the policy lets a path be written at all, this is so exactly when the first such entry is the
entry that decides on the access (`isMetadataWriteDenied_iff`).  The order of the entries counts for
nothing else, and for this exactly when a second write entry has the path in its metadata
(`orderIrrelevant_iff`). -/

namespace OpenAgere.Permissions

open List Option AbsolutePath Environment

/-! ### Full access -/

def specialPathsShareTarget : FileSystemSpecialPath → FileSystemSpecialPath → Bool
  | .root, .root => true
  | .minimal, .minimal => true
  | .tmpdir, .tmpdir => true
  | .slashTmp, .slashTmp => true
  | .projectRoots left, .projectRoots right => left = right
  | .unknown left leftSubpath, .unknown right rightSubpath => left = right ∧ leftSubpath = rightSubpath
  | _, _ => false

def specialPathMatchesAbsolutePath : FileSystemSpecialPath → AbsolutePath → Bool
  | .root, path => path.parent = none
  | .slashTmp, path => path = slashTmp
  | _, _ => false

def fileSystemPathsShareTarget : FileSystemPath → FileSystemPath → Bool
  | .path left, .path right => left = right
  | .special left, .special right => specialPathsShareTarget left right
  | .path path, .special value => specialPathMatchesAbsolutePath value path
  | .special value, .path path => specialPathMatchesAbsolutePath value path
  | .globPattern left, .globPattern right => left = right
  | _, _ => false

namespace FileSystemAccessPolicy

def hasRootAccess (policy : FileSystemAccessPolicy) (predicate : FileSystemAccessMode → Bool) : Bool :=
  policy.kind = .restricted ∧ policy.entries.any fun entry =>
    entry.path = .special .root ∧ predicate entry.access

/-- A write entry for the same target outranks `entry`. -/
def hasSameTargetWriteOverride (policy : FileSystemAccessPolicy) (entry : FileSystemAccessEntry) : Bool :=
  policy.entries.any fun candidate =>
    candidate.access.canWrite ∧ entry.access < candidate.access ∧
      fileSystemPathsShareTarget candidate.path entry.path

def hasWriteNarrowingEntries (policy : FileSystemAccessPolicy) : Bool :=
  policy.kind = .restricted ∧ policy.entries.any fun entry =>
    if entry.access.canWrite then false
    else
      match entry.path with
      | .path _ => !policy.hasSameTargetWriteOverride entry
      | .globPattern _ => true
      | .special .root => entry.access = .none
      | .special .minimal => false
      | .special (.unknown _ _) => false
      | .special _ => !policy.hasSameTargetWriteOverride entry

def hasFullDiskReadAccess (policy : FileSystemAccessPolicy) : Bool :=
  match policy.kind with
  | .unrestricted => true
  | .external => true
  | .restricted => policy.hasRootAccess FileSystemAccessMode.canRead && !policy.hasDeniedReadRestrictions

def hasFullDiskWriteAccess (policy : FileSystemAccessPolicy) : Bool :=
  match policy.kind with
  | .unrestricted => true
  | .external => true
  | .restricted => policy.hasRootAccess FileSystemAccessMode.canWrite && !policy.hasWriteNarrowingEntries

end FileSystemAccessPolicy

/-! ### Metadata paths -/

def protectedMetadataPathNames : List Str := [".git", ".agents", ".openagere"]

def metadataPathName (name : Str) : Option Str :=
  protectedMetadataPathNames.find? fun metadataName => name = metadataName

section Metadata

open FileSystemAccessPolicy

variable (env : Environment)

/-- The metadata directory of a root that the target lies in. -/
def metadataChild (target root : AbsolutePath) : Option (AbsolutePath × Str) :=
  (((target.below root).bind List.head?).bind metadataPathName).map fun metadataName =>
    (join env.home root metadataName, metadataName)

def metadataChildOfWritableRoot (policy : FileSystemAccessPolicy) (target : AbsolutePath) (cwd : Str) :
    Option (AbsolutePath × Str) :=
  (((policy.resolvedEntriesWithCwd env cwd).filter fun entry => entry.access.canWrite).filterMap
    fun entry => metadataChild env target entry.path).head?

def hasExplicitWriteEntryForMetadataPath (policy : FileSystemAccessPolicy)
    (protectedMetadataPath target : AbsolutePath) (cwd : Str) : Bool :=
  (policy.resolvedEntriesWithCwd env cwd).any fun entry =>
    entry.access.canWrite ∧ target.startsWith entry.path ∧ entry.path.startsWith protectedMetadataPath

namespace FileSystemAccessPolicy

def isMetadataWriteDenied (policy : FileSystemAccessPolicy) (path cwd : Str) : Bool :=
  if policy.kind ≠ .restricted then false
  else
    match resolveCandidatePath env path cwd with
    | none => true
    | some target =>
        match metadataChildOfWritableRoot env policy target cwd with
        | none => false
        | some (protectedMetadataPath, _) =>
            !hasExplicitWriteEntryForMetadataPath env policy protectedMetadataPath target cwd

def canWritePathWithCwd (policy : FileSystemAccessPolicy) (path cwd : Str) : Bool :=
  if ¬ (policy.resolveAccessWithCwd env path cwd).canWrite then false
  else if policy.hasFullDiskWriteAccess then true
  else !policy.isMetadataWriteDenied env path cwd

end FileSystemAccessPolicy

/-- The metadata name for which a write is blocked before it is tried. -/
def forbiddenAgentMetadataWrite (path cwd : Str) (policy : FileSystemAccessPolicy) : Option Str :=
  if policy.kind ≠ .restricted then none
  else
    match resolveCandidatePath env path cwd with
    | none => none
    | some target =>
        match metadataChildOfWritableRoot env policy target cwd with
        | none => none
        | some (protectedMetadataPath, metadataName) =>
            if hasExplicitWriteEntryForMetadataPath env policy protectedMetadataPath target cwd then none
            else if ¬ policy.canWritePathWithCwd env target.display cwd then some metadataName
            else none

end Metadata

section Theory

open FileSystemAccessPolicy

variable {env : Environment} {policy : FileSystemAccessPolicy} {path cwd : Str} {target : AbsolutePath}

/-- `root` has the target in its metadata directory `name`. -/
structure InMetadata (target root : AbsolutePath) (name : Str) : Prop where
  mem : name ∈ protectedMetadataPathNames
  inside : root.parts ++ [name] <+: target.parts

variable {name : Str}

theorem InMetadata.covers {root : AbsolutePath} (h : InMetadata target root name) : root.parts <+: target.parts :=
  (prefix_append _ _).trans h.inside

/-- A root has the target in one metadata directory at most. -/
theorem InMetadata.name_eq {root : AbsolutePath} {name' : Str} (h : InMetadata target root name)
    (h' : InMetadata target root name') : name = name' := by
  have := prefix_of_prefix_length_le h.inside h'.inside (by simp)
  simpa using (prefix_append_right_inj _).mp this

theorem metadataPathName_eq_some {c : Str} :
    metadataPathName c = some name ↔ name ∈ protectedMetadataPathNames ∧ c = name := by
  unfold metadataPathName
  constructor
  · intro h
    exact ⟨mem_of_find?_eq_some h, by simpa using find?_some h⟩
  · rintro ⟨h, rfl⟩
    cases hf : protectedMetadataPathNames.find? fun metadataName => decide (c = metadataName) with
    | none => exact absurd (find?_eq_none.mp hf c h) (by simp)
    | some d => rw [show c = d by simpa using find?_some hf]

theorem parts_join_metadata (root : AbsolutePath) (h : name ∈ protectedMetadataPathNames) :
    (join env.home root name).parts = root.parts ++ [name] := by
  have hall : ∀ c ∈ protectedMetadataPathNames, NormalComponent c ∧ c.head? ≠ some '~' := by decide
  exact parts_join (hall name h).1 (hall name h).2

variable {q : AbsolutePath}

theorem metadataChild_eq_some {root : AbsolutePath} : metadataChild env target root = some (q, name) ↔
      InMetadata target root name ∧ q = join env.home root name := by
  unfold metadataChild
  rw [map_eq_some_iff]
  constructor
  · rintro ⟨n, hn, e⟩
    obtain ⟨c, hc, hname⟩ := bind_eq_some_iff.mp hn
    obtain ⟨hmem, rfl⟩ := metadataPathName_eq_some.mp hname
    obtain ⟨rfl, rfl⟩ := Prod.mk.inj e
    exact ⟨⟨hmem, below_head?_eq_some.mp hc⟩, rfl⟩
  · rintro ⟨h, rfl⟩
    refine ⟨name, ?_, rfl⟩
    rw [below_head?_eq_some.mpr h.inside, bind_some, metadataPathName_eq_some]
    exact ⟨h.mem, rfl⟩

theorem exists_of_metadataChild (h : metadataChildOfWritableRoot env policy target cwd = some (q, name)) :
    ∃ w ∈ Rules env policy.entries cwd, w.access = .write ∧ InMetadata target w.path name ∧
      q = join env.home w.path name := by
  obtain ⟨w, hw, hchild⟩ := mem_filterMap.mp (mem_of_mem_head? h)
  obtain ⟨hmem, haccess⟩ := mem_filter.mp hw
  exact ⟨w, hmem, FileSystemAccessMode.canWrite_iff.mp haccess, metadataChild_eq_some.mp hchild⟩

variable {w : ResolvedFileSystemEntry}

theorem metadataChild_ne_none (hw : w ∈ Rules env policy.entries cwd)
    (haccess : w.access = .write) (h : InMetadata target w.path name) :
    metadataChildOfWritableRoot env policy target cwd ≠ none := by
  intro hnone
  have hempty := head?_eq_none_iff.mp hnone
  have : (join env.home w.path name, name) ∈ ([] : List (AbsolutePath × Str)) := by
    rw [← hempty]
    apply mem_filterMap.mpr
    exact ⟨w, mem_filter.mpr ⟨hw, FileSystemAccessMode.canWrite_iff.mpr haccess⟩,
      metadataChild_eq_some.mpr ⟨h, rfl⟩⟩
  exact not_mem_nil this

theorem hasExplicit_iff {root : AbsolutePath} (h : InMetadata target root name) :
    hasExplicitWriteEntryForMetadataPath env policy (join env.home root name) target cwd ↔
      ∃ e ∈ Rules env policy.entries cwd, e.access = .write ∧ e.path.parts <+: target.parts ∧
        root.parts.length < e.path.parts.length := by
  unfold hasExplicitWriteEntryForMetadataPath
  rw [List.any_eq_true]
  refine exists_congr fun e => and_congr_right fun _ => ?_
  simp only [decide_eq_true_eq, FileSystemAccessMode.canWrite_iff, startsWith_iff, parts_join_metadata root h.mem]
  refine and_congr_right fun _ => and_congr_right fun hcovers => ?_
  constructor
  · intro hle
    simpa using hle.length_le
  · intro hlt
    exact List.prefix_of_prefix_length_le h.inside hcovers (by simpa using hlt)

/-! ### The access of any policy -/

variable {entries : List FileSystemAccessEntry}

theorem exists_decides (hw : w ∈ Rules env entries cwd) (hcovers : w.path.parts <+: target.parts) :
    ∃ entry, Decides env entries cwd target entry :=
  LongestMatch.exists_decides _ hw (show w.key <+: target.parts from hcovers)

theorem resolveAccess_restricted (hkind : policy.kind = .restricted) :
    policy.resolveAccessWithCwd env path cwd = (restricted policy.entries).resolveAccessWithCwd env path cwd := by
  unfold resolveAccessWithCwd
  rw [hkind]
  rfl

theorem resolveAccess_of_not_restricted (hkind : policy.kind ≠ .restricted) :
    policy.resolveAccessWithCwd env path cwd = .write := by
  unfold resolveAccessWithCwd
  cases h : policy.kind with
  | restricted => exact absurd h hkind
  | unrestricted | external => rfl

theorem resolveAccess_write_iff (hkind : policy.kind = .restricted)
    (hpath : resolveCandidatePath env path cwd = some target) :
    policy.resolveAccessWithCwd env path cwd = .write ↔
      ∃ entry, Decides env policy.entries cwd target entry ∧ entry.access = .write := by
  rw [resolveAccess_restricted hkind]
  exact resolveAccess_eq_iff hpath (by decide)

variable {entry : ResolvedFileSystemEntry}

/-- A write entry for the path that decides, or for a deeper one, outranks every read entry. -/
theorem access_ne_read (hd : Decides env entries cwd target entry) (hw : w ∈ Rules env entries cwd)
    (haccess : w.access = .write) (hcovers : w.path.parts <+: target.parts)
    (hle : entry.path.parts.length ≤ w.path.parts.length) : entry.access ≠ .read := by
  intro hread
  have hle := hd.verdict_le hw hcovers hle
  rw [haccess, hread] at hle
  exact absurd hle (by decide)

/-- Paths of one length above a third are the same. -/
theorem path_eq_of_length_eq {p q : AbsolutePath} (hp : p.parts <+: target.parts) (hq : q.parts <+: target.parts)
    (hlen : p.parts.length = q.parts.length) : p = q :=
  parts_injective ((prefix_of_prefix_length_le hp hq hlen.le).eq_of_length hlen)

/-- The name for which a write is refused, when it is. -/
def protectedName (env : Environment) (policy : FileSystemAccessPolicy) (target : AbsolutePath) (cwd : Str) :
    Option Str :=
  match metadataChildOfWritableRoot env policy target cwd with
  | none => none
  | some (protectedMetadataPath, metadataName) =>
      if hasExplicitWriteEntryForMetadataPath env policy protectedMetadataPath target cwd then none
      else some metadataName

section

variable (hkind : policy.kind = .restricted) (hpath : resolveCandidatePath env path cwd = some target)
include hkind hpath

theorem isMetadataWriteDenied_eq :
    policy.isMetadataWriteDenied env path cwd = (protectedName env policy target cwd).isSome := by
  unfold isMetadataWriteDenied protectedName
  simp only [hkind, hpath, ne_eq, not_true_eq_false, if_false]
  cases metadataChildOfWritableRoot env policy target cwd with
  | none => rfl
  | some child =>
    cases h : hasExplicitWriteEntryForMetadataPath env policy child.1 target cwd <;> simp [h]

theorem forbiddenAgentMetadataWrite_eq :
    forbiddenAgentMetadataWrite env path cwd policy =
      if policy.canWritePathWithCwd env target.display cwd then none else protectedName env policy target cwd := by
  unfold forbiddenAgentMetadataWrite protectedName
  simp only [hkind, hpath, ne_eq, not_true_eq_false, if_false]
  cases metadataChildOfWritableRoot env policy target cwd with
  | none => simp
  | some child =>
    cases h : hasExplicitWriteEntryForMetadataPath env policy child.1 target cwd <;>
      cases policy.canWritePathWithCwd env target.display cwd <;> simp [h]

end

theorem join_metadata_inj {p : AbsolutePath} (h : name ∈ protectedMetadataPathNames)
    (hjoin : join env.home p name = join env.home q name) : p = q := by
  have hparts := congrArg parts hjoin
  rw [parts_join_metadata _ h, parts_join_metadata _ h] at hparts
  exact parts_injective (append_cancel_right hparts)

theorem metadataChild_mem {root : AbsolutePath}
    (h : metadataChildOfWritableRoot env policy target cwd = some (join env.home root name, name)) :
    ⟨root, .write⟩ ∈ Rules env policy.entries cwd ∧ InMetadata target root name := by
  obtain ⟨⟨p, access⟩, hw, rfl, hin, hjoin⟩ := exists_of_metadataChild h
  obtain rfl := join_metadata_inj hin.mem hjoin
  exact ⟨hw, hin⟩

/-- A write is refused for a name when the first write entry with the path in its metadata is the
deepest one to cover the path. -/
theorem exists_of_protectedName (h : protectedName env policy target cwd = some name) :
    ∃ w ∈ Rules env policy.entries cwd, w.access = .write ∧ InMetadata target w.path name ∧
      metadataChildOfWritableRoot env policy target cwd = some (join env.home w.path name, name) ∧
      ∀ e ∈ Rules env policy.entries cwd, e.access = .write → e.path.parts <+: target.parts →
        e.path.parts.length ≤ w.path.parts.length := by
  unfold protectedName at h
  split at h
  · exact nomatch h
  · rename_i q n hchild
    split_ifs at h with hexplicit
    obtain rfl := some.inj h
    obtain ⟨w, hw, haccess, hin, rfl⟩ := exists_of_metadataChild hchild
    refine ⟨w, hw, haccess, hin, hchild, ?_⟩
    intro e he hew hcovers
    apply not_lt.mp
    intro hlt
    exact hexplicit ((hasExplicit_iff hin).mpr ⟨e, he, hew, hcovers, hlt⟩)

/-- The first write entry with the path in its metadata is the deepest one. -/
theorem protectedName_eq_some {root : AbsolutePath}
    (hchild : metadataChildOfWritableRoot env policy target cwd = some (join env.home root name, name))
    (hdeepest : ∀ e ∈ Rules env policy.entries cwd, e.access = .write → e.path.parts <+: target.parts →
      e.path.parts.length ≤ root.parts.length) : protectedName env policy target cwd = some name := by
  unfold protectedName
  rw [hchild]
  simp only
  rw [if_neg]
  intro hexplicit
  obtain ⟨e, he, hew, hcovers, hlt⟩ := (hasExplicit_iff (metadataChild_mem hchild).2).mp hexplicit
  exact absurd (hdeepest e he hew hcovers) (not_le.mpr hlt)

/-- **Refused writes.** A path that a write entry decides on is refused when the first write entry that
has it in its metadata is that entry. -/
theorem isMetadataWriteDenied_iff (hkind : policy.kind = .restricted)
    (hpath : resolveCandidatePath env path cwd = some target)
    (hd : Decides env policy.entries cwd target entry) (hw : entry.access = .write) :
    policy.isMetadataWriteDenied env path cwd ↔
      ∃ name, metadataChildOfWritableRoot env policy target cwd = some (join env.home entry.path name, name) := by
  rw [isMetadataWriteDenied_eq hkind hpath, isSome_iff_exists]
  refine exists_congr fun name => ⟨fun h => ?_, fun hchild => ?_⟩
  · -- no write entry lies below the root, so the deciding entry does not
    obtain ⟨w, hmem, -, hin, hchild, hdeepest⟩ := exists_of_protectedName h
    have hle := hdeepest entry hd.mem hw hd.covers
    rwa [path_eq_of_length_eq hd.covers hin.covers (le_antisymm hle (hd.length_le hmem hin.covers))]
  · exact protectedName_eq_some hchild fun e he _ hcovers => hd.length_le he hcovers

/-! ### Writing at the path of an entry -/

/-- The write entries with the target in their metadata are those of any path between them and it. -/
theorem metadataChild_congr (hq : q.parts <+: target.parts)
    (hall : ∀ w ∈ Rules env policy.entries cwd, w.access = .write → w.path.parts <+: target.parts →
      w.path.parts.length < q.parts.length) :
    metadataChildOfWritableRoot env policy q cwd = metadataChildOfWritableRoot env policy target cwd := by
  unfold metadataChildOfWritableRoot
  congr 1
  apply filterMap_congr
  intro w hw
  obtain ⟨hmem, hcan⟩ := mem_filter.mp hw
  apply Option.ext
  rintro ⟨child, name⟩
  rw [metadataChild_eq_some, metadataChild_eq_some]
  refine and_congr_left fun _ => ⟨fun h => ⟨h.mem, h.inside.trans hq⟩, fun h => ⟨h.mem, ?_⟩⟩
  apply prefix_of_prefix_length_le h.inside hq
  have := hall w hmem (FileSystemAccessMode.canWrite_iff.mp hcan) h.covers
  simpa using this

theorem canWrite_eq_true : policy.canWritePathWithCwd env path cwd ↔
    policy.resolveAccessWithCwd env path cwd = .write ∧
      (policy.hasFullDiskWriteAccess = false → ¬ policy.isMetadataWriteDenied env path cwd) := by
  unfold canWritePathWithCwd
  rw [← FileSystemAccessMode.canWrite_iff]
  cases (policy.resolveAccessWithCwd env path cwd).canWrite <;> cases policy.hasFullDiskWriteAccess <;> simp

/-- **Writing.** A write entry decides, and without full access it is not the first to have the path in its
metadata. -/
theorem canWrite_restricted_iff (hkind : policy.kind = .restricted)
    (hpath : resolveCandidatePath env path cwd = some target) :
    policy.canWritePathWithCwd env path cwd ↔
      ∃ entry, Decides env policy.entries cwd target entry ∧ entry.access = .write ∧
        (policy.hasFullDiskWriteAccess = false → ∀ name,
          metadataChildOfWritableRoot env policy target cwd ≠ some (join env.home entry.path name, name)) := by
  rw [canWrite_eq_true, resolveAccess_write_iff hkind hpath]
  constructor
  · rintro ⟨⟨entry, hd, hw⟩, hnot⟩
    refine ⟨entry, hd, hw, ?_⟩
    intro hfull name hchild
    exact hnot hfull ((isMetadataWriteDenied_iff hkind hpath hd hw).mpr ⟨name, hchild⟩)
  · rintro ⟨entry, hd, hw, hnone⟩
    refine ⟨⟨entry, hd, hw⟩, ?_⟩
    intro hfull hdenied
    obtain ⟨name, hchild⟩ := (isMetadataWriteDenied_iff hkind hpath hd hw).mp hdenied
    exact hnone hfull name hchild

theorem kind_of_not_fullWrite (h : policy.hasFullDiskWriteAccess = false) : policy.kind = .restricted := by
  unfold hasFullDiskWriteAccess at h
  cases hkind : policy.kind with
  | restricted => rfl
  | unrestricted | external => simp [hkind] at h

theorem canWrite_iff (hfull : policy.hasFullDiskWriteAccess = false)
    (hpath : resolveCandidatePath env path cwd = some target) :
    policy.canWritePathWithCwd env path cwd ↔
      ∃ entry, Decides env policy.entries cwd target entry ∧ entry.access = .write ∧
        ∀ name, metadataChildOfWritableRoot env policy target cwd ≠ some (join env.home entry.path name, name) := by
  simp only [canWrite_restricted_iff (kind_of_not_fullWrite hfull) hpath, hfull, forall_const]

/-- The entries for a path grant writing. -/
structure WriteAt (env : Environment) (policy : FileSystemAccessPolicy) (cwd : Str) (q : AbsolutePath) : Prop where
  write : ⟨q, .write⟩ ∈ Rules env policy.entries cwd
  allowed : ⟨q, .none⟩ ∉ Rules env policy.entries cwd

theorem WriteAt.decides (h : WriteAt env policy cwd q) : Decides env policy.entries cwd q ⟨q, .write⟩ where
  mem := h.write
  covers := prefix_rfl
  highest := by
    rintro ⟨p, mode⟩ hr hcovers
    rw [LongestMatch.rank_le_iff]
    rcases hcovers.length_le.lt_or_eq with hlt | heq
    · exact Or.inl hlt
    · right
      refine ⟨heq, ?_⟩
      obtain rfl : p = q := parts_injective (hcovers.eq_of_length heq)
      cases mode with
      | read => exact show FileSystemAccessMode.read ≤ .write by decide
      | write => exact le_rfl
      | none => exact absurd hr h.allowed

theorem writeAt_of_decides (hd : Decides env policy.entries cwd target entry)
    (hw : entry.access = .write) : WriteAt env policy cwd entry.path where
  write := hw ▸ hd.mem
  allowed := by
    intro hnone
    have hle : FileSystemAccessMode.none ≤ entry.access := hd.verdict_le hnone hd.covers le_rfl
    rw [hw] at hle
    exact absurd hle (by decide)

/-- Where the entries for its path grant writing, the deciding entry does. -/
theorem WriteAt.access_eq (hat : WriteAt env policy cwd entry.path)
    (hd : Decides env policy.entries cwd target entry) : entry.access = .write :=
  (hd.of_length_le hd.covers le_rfl).verdict_eq hat.decides

theorem WriteAt.canWrite (hfull : policy.hasFullDiskWriteAccess = false)
    (h : WriteAt env policy cwd q) : policy.canWritePathWithCwd env q.display cwd := by
  rw [canWrite_iff hfull (resolveCandidatePath_display env q cwd)]
  refine ⟨_, h.decides, rfl, ?_⟩
  intro name hchild
  have := (metadataChild_mem hchild).2.inside.length_le
  simp at this

/-- What may be written at the path of an entry is granted by the entries for that path. -/
theorem writeAt_of_canWrite (hfull : policy.hasFullDiskWriteAccess = false)
    {e : ResolvedFileSystemEntry} (he : e ∈ Rules env policy.entries cwd)
    (hcan : policy.canWritePathWithCwd env e.path.display cwd) : WriteAt env policy cwd e.path := by
  obtain ⟨entry, hd, hw, _⟩ := (canWrite_iff hfull (resolveCandidatePath_display env e.path cwd)).mp hcan
  have hle : e.path.parts.length ≤ entry.path.parts.length := hd.length_le he prefix_rfl
  rw [← parts_injective (hd.covers.eq_of_length (le_antisymm hd.covers.length_le hle))]
  exact writeAt_of_decides hd hw

/-! ### Full write access -/

variable {p : AbsolutePath}

/-- Entries that share a target resolve to one path, but for the root without a directory and for `/tmp`
where there is none. -/
theorem resolve_of_shareTarget {left right : FileSystemPath} {cwd : Option AbsolutePath}
    (hshare : fileSystemPathsShareTarget left right) (h : resolveEntryPath env right cwd = some p) :
    resolveEntryPath env left cwd = some p ∨ p = root ∨
      p = slashTmp ∧ env.isDir slashTmp = false := by
  have htmp : ∀ q, q = slashTmp → env.isDir slashTmp = true →
      resolveEntryPath env (.special .slashTmp) cwd = some q := by
    rintro q rfl hdir
    exact if_pos hdir
  match left, right with
  | .globPattern _, .globPattern _ => exact nomatch h
  | .path q, .path q' =>
    rw [of_decide_eq_true hshare]
    exact Or.inl h
  | .special value, .path q =>
    obtain rfl : q = p := Option.some.inj h
    cases value with
    | root =>
      right; left
      by_contra hne
      exact absurd (of_decide_eq_true hshare) (by simpa [parent, root, AbsolutePath.ext_iff] using hne)
    | slashTmp =>
      have hq := of_decide_eq_true hshare
      cases hdir : env.isDir slashTmp with
      | true => exact Or.inl (htmp q hq hdir)
      | false => exact Or.inr (Or.inr ⟨hq, rfl⟩)
    | minimal | projectRoots | tmpdir | unknown => exact absurd hshare (by simp [fileSystemPathsShareTarget,
        specialPathMatchesAbsolutePath])
  | .path q, .special value =>
    cases value with
    | root =>
      obtain ⟨_, _, rfl⟩ := map_eq_some_iff.mp h
      exact Or.inr (Or.inl rfl)
    | slashTmp =>
      have hq := of_decide_eq_true hshare
      by_cases hdir : env.isDir slashTmp = true
      · rw [htmp _ rfl hdir] at h
        rw [hq]
        exact Or.inl h
      · exact absurd h (by simp [resolveEntryPath, resolveFileSystemPath, resolveFileSystemSpecialPath, hdir])
    | minimal | projectRoots | tmpdir | unknown => exact absurd hshare (by simp [fileSystemPathsShareTarget,
        specialPathMatchesAbsolutePath])
  | .special value, .special value' =>
    left
    have hsame : specialPathsShareTarget value value' = true := hshare
    cases value <;> cases value' <;>
      simp_all [specialPathsShareTarget, resolveEntryPath, resolveFileSystemPath]

theorem FileSystemAccessMode.eq_read_of_ne {mode : FileSystemAccessMode} (hwrite : mode ≠ .write)
    (hnone : mode ≠ .none) : mode = .read := by
  cases mode with
  | none => exact absurd rfl hnone
  | read => rfl
  | write => exact absurd rfl hwrite

variable {e : FileSystemAccessEntry}

theorem of_hasSameTargetWriteOverride (hover : policy.hasSameTargetWriteOverride e)
    (hw : e.access ≠ .write) : e.access = .read ∧ ∃ c ∈ policy.entries, c.access = .write ∧
      fileSystemPathsShareTarget c.path e.path := by
  unfold hasSameTargetWriteOverride at hover
  obtain ⟨c, hc, hover⟩ := any_eq_true.mp hover
  obtain ⟨hcw, hlt, hshare⟩ := of_decide_eq_true hover
  have hcw := FileSystemAccessMode.canWrite_iff.mp hcw
  rw [hcw] at hlt
  refine ⟨FileSystemAccessMode.eq_read_of_ne hw fun hnone => ?_, c, hc, hcw, hshare⟩
  rw [hnone] at hlt
  exact absurd hlt (by decide)

section

variable (hkind : policy.kind = .restricted) (hfull : policy.hasFullDiskWriteAccess = true)
include hkind hfull

/-- With full write access a resolving entry that does not grant writing is a read entry, and one for the
root or overridden by a write entry for the same target. -/
theorem overridden_of_fullDiskWrite (he : e ∈ policy.entries)
    (hw : e.access ≠ .write) {cwd : Option AbsolutePath}
    (hresolve : resolveEntryPath env e.path cwd = some p) :
    e.access = .read ∧ (p = root ∨ ∃ c ∈ policy.entries, c.access = .write ∧
      fileSystemPathsShareTarget c.path e.path) := by
  have hnarrow : policy.hasWriteNarrowingEntries = false := by
    unfold hasFullDiskWriteAccess at hfull
    simp only [hkind, Bool.and_eq_true, Bool.not_eq_true'] at hfull
    exact hfull.2
  unfold hasWriteNarrowingEntries at hnarrow
  simp only [hkind, true_and, decide_eq_false_iff_not, Bool.not_eq_true, List.any_eq_false] at hnarrow
  have hentry := hnarrow e he
  have hnw : e.access.canWrite = false := by
    rw [← Bool.not_eq_true, FileSystemAccessMode.canWrite_iff]
    exact hw
  rw [hnw] at hentry
  simp only [Bool.false_eq_true, if_false] at hentry
  have hover : policy.hasSameTargetWriteOverride e = true → _ := fun hover =>
    (of_hasSameTargetWriteOverride hover hw).imp_right (Or.inr (a := p = root))
  split at hentry
  · exact hover (by simpa using hentry)
  · exact absurd hentry (by decide)
  · rename_i heq
    rw [heq] at hresolve
    obtain ⟨_, _, rfl⟩ := Option.map_eq_some_iff.mp hresolve
    exact ⟨FileSystemAccessMode.eq_read_of_ne hw (of_decide_eq_false hentry), Or.inl rfl⟩
  iterate 2
    · rename_i heq
      rw [heq] at hresolve
      exact nomatch hresolve
  · exact hover (by simpa using hentry)

/-- **Full write access.** Where a policy with full write access still does not let a path be written,
a read entry decides: at the root, or at `/tmp` where there is no such directory. -/
theorem read_of_fullDiskWrite (hd : Decides env policy.entries cwd target entry)
    (hw : entry.access ≠ .write) :
    entry.access = .read ∧
      (entry.path = root ∨ entry.path = slashTmp ∧ env.isDir slashTmp = false) := by
  obtain ⟨e, he, hresolve, haccess⟩ := mem_rules.mp hd.mem
  obtain ⟨hread, hcase⟩ := overridden_of_fullDiskWrite hkind hfull he (haccess ▸ hw) hresolve
  rw [haccess] at hread
  refine ⟨hread, ?_⟩
  rcases hcase with hroot | ⟨c, hc, hcw, hshare⟩
  · exact Or.inl hroot
  · rcases resolve_of_shareTarget hshare hresolve with hsame | hrest
    · -- the override resolves to the same path, and would decide in place of the read entry
      have hmem : (⟨entry.path, .write⟩ : ResolvedFileSystemEntry) ∈ Rules env policy.entries cwd :=
        mem_rules.mpr ⟨c, hc, hsame, hcw⟩
      exact absurd hread (access_ne_read hd hmem rfl hd.covers le_rfl)
    · exact hrest

/-- With full write access a path that is not writable lies in no metadata directory. -/
theorem not_inMetadata_of_fullDiskWrite (hpath : resolveCandidatePath env path cwd = some target)
    (hnot : policy.resolveAccessWithCwd env path cwd ≠ .write)
    (hw : w ∈ Rules env policy.entries cwd) (haccess : w.access = .write) : ¬ InMetadata target w.path name := by
  intro hin
  obtain ⟨entry, hd⟩ := exists_decides hw hin.covers
  have hne : entry.access ≠ .write := fun h => hnot ((resolveAccess_write_iff hkind hpath).mpr ⟨entry, hd, h⟩)
  obtain ⟨hread, hcase⟩ := read_of_fullDiskWrite hkind hfull hd hne
  have hlt : w.path.parts.length < entry.path.parts.length := by
    apply lt_of_le_of_ne (hd.length_le hw hin.covers)
    exact fun heq => access_ne_read hd hw haccess hin.covers heq.ge hread
  rcases hcase with hroot | ⟨htmp, _⟩
  · rw [hroot] at hlt
    simp [parts, root] at hlt
  · rw [htmp] at hlt
    have hempty : w.path.components = [] := by
      simpa [parts, slashTmp] using hlt
    have htarget : "/".toList :: ["tmp".toList] <+: target.parts := by
      have := hd.covers
      rwa [ResolvedFileSystemEntry.key, htmp] at this
    have hinside : "/".toList :: [name] <+: target.parts := by
      have := hin.inside
      rwa [parts, hempty] at this
    have hname : name = "tmp".toList := by
      have := (prefix_of_prefix_length_le hinside htarget le_rfl).eq_of_length rfl
      simpa using this
    rw [hname] at hin
    exact absurd hin.mem (by decide)

end

/-! ### The order of the entries -/

/-- The deepest write entry to cover the target has it in its metadata, and so has another one. -/
def AmbiguousMetadata (env : Environment) (policy : FileSystemAccessPolicy) (target : AbsolutePath) (cwd : Str) :
    Prop :=
  ∃ inner ∈ Rules env policy.entries cwd, ∃ outer ∈ Rules env policy.entries cwd,
    inner.access = .write ∧ outer.access = .write ∧ outer.path ≠ inner.path ∧
      (∃ name, InMetadata target inner.path name) ∧ (∃ name, InMetadata target outer.path name) ∧
      ∀ e ∈ Rules env policy.entries cwd, e.access = .write → e.path.parts <+: target.parts →
        e.path.parts.length ≤ inner.path.parts.length

section Permuted

variable {policy' : FileSystemAccessPolicy}
  (hrules : ∀ r, r ∈ Rules env policy.entries cwd ↔ r ∈ Rules env policy'.entries cwd)

include hrules

/-- Without a second entry the order does not count. -/
theorem protectedName_of_not_ambiguous (hamb : ¬ AmbiguousMetadata env policy target cwd) {name : Str}
    (h : protectedName env policy target cwd = some name) : protectedName env policy' target cwd = some name := by
  obtain ⟨w, hw, haccess, hin, -, hdeepest⟩ := exists_of_protectedName h
  have hall : ∀ v ∈ Rules env policy'.entries cwd, v.access = .write → ∀ n, InMetadata target v.path n →
      v.path = w.path := by
    intro v hv hvw n hvin
    by_contra hne
    exact hamb ⟨w, hw, v, (hrules v).mpr hv, haccess, hvw, hne, ⟨name, hin⟩, ⟨n, hvin⟩, hdeepest⟩
  cases hchild : metadataChildOfWritableRoot env policy' target cwd with
  | none => exact absurd hchild (metadataChild_ne_none ((hrules w).mp hw) haccess hin)
  | some child =>
    obtain ⟨q, n⟩ := child
    obtain ⟨v, hv, hvw, hvin, rfl⟩ := exists_of_metadataChild hchild
    have hvw' := hall v hv hvw n hvin
    rw [hvw'] at hvin
    obtain rfl := hvin.name_eq hin
    rw [hvw'] at hchild
    exact protectedName_eq_some hchild fun e he => hdeepest e ((hrules e).mpr he)

theorem AmbiguousMetadata.congr (h : AmbiguousMetadata env policy target cwd) :
    AmbiguousMetadata env policy' target cwd := by
  obtain ⟨inner, hinner, outer, houter, hi, ho, hne, hin, hout, hdeepest⟩ := h
  exact ⟨inner, (hrules inner).mp hinner, outer, (hrules outer).mp houter, hi, ho, hne, hin, hout,
    fun e he => hdeepest e ((hrules e).mpr he)⟩

theorem protectedName_congr (hamb : ¬ AmbiguousMetadata env policy target cwd) :
    protectedName env policy target cwd = protectedName env policy' target cwd := by
  apply Option.ext
  intro name
  constructor
  · exact protectedName_of_not_ambiguous hrules hamb
  · exact protectedName_of_not_ambiguous (fun r => (hrules r).symm) fun h =>
      hamb (h.congr fun r => (hrules r).symm)

end Permuted

/-- The results a policy gives for a path. -/
def SameResults (env : Environment) (policy policy' : FileSystemAccessPolicy) (path cwd : Str) : Prop :=
  policy.resolveAccessWithCwd env path cwd = policy'.resolveAccessWithCwd env path cwd ∧
    policy.canReadPathWithCwd env path cwd = policy'.canReadPathWithCwd env path cwd ∧
    policy.canWritePathWithCwd env path cwd = policy'.canWritePathWithCwd env path cwd ∧
    forbiddenAgentMetadataWrite env path cwd policy = forbiddenAgentMetadataWrite env path cwd policy'

instance (env : Environment) (policy policy' : FileSystemAccessPolicy) (path cwd : Str) :
    Decidable (SameResults env policy policy' path cwd) := inferInstanceAs (Decidable (_ ∧ _))

def OrderIrrelevant (env : Environment) (policy : FileSystemAccessPolicy) (path cwd : Str) : Prop :=
  ∀ entries, entries.Perm policy.entries → SameResults env { policy with entries } policy path cwd

theorem mem_rules_perm {entries' : List FileSystemAccessEntry} (hperm : entries.Perm entries')
    (r : ResolvedFileSystemEntry) : r ∈ Rules env entries cwd ↔ r ∈ Rules env entries' cwd :=
  (hperm.filterMap _).mem_iff

section Permuted

variable {policy' : FileSystemAccessPolicy} (hsame : policy'.kind = policy.kind)
  (hperm : policy'.entries.Perm policy.entries)
include hsame hperm

theorem resolveAccess_perm :
    policy'.resolveAccessWithCwd env path cwd = policy.resolveAccessWithCwd env path cwd := by
  by_cases hkind : policy.kind = .restricted
  · rw [resolveAccess_restricted (hsame.trans hkind), resolveAccess_restricted hkind]
    cases hpath : resolveCandidatePath env path cwd with
    | none => simp only [resolveAccessWithCwd, restricted, hpath]
    | some target =>
      rw [resolveAccess_eq_answer hpath, resolveAccess_eq_answer hpath,
        LongestMatch.answer_congr (mem_rules_perm hperm)]
  · rw [resolveAccess_of_not_restricted (hsame ▸ hkind), resolveAccess_of_not_restricted hkind]

theorem hasFullDiskWriteAccess_perm : policy'.hasFullDiskWriteAccess = policy.hasFullDiskWriteAccess := by
  have hover : ∀ e, policy'.hasSameTargetWriteOverride e = policy.hasSameTargetWriteOverride e :=
    fun e => hperm.any_eq
  unfold hasFullDiskWriteAccess hasRootAccess hasWriteNarrowingEntries
  simp only [hsame, hover, hperm.any_eq]

/-- What is refused decides on the results, and only without full write access or where the path is not
writable anyway. -/
theorem sameResults_perm (hkind : policy.kind = .restricted) (hpath : resolveCandidatePath env path cwd = some target)
    (hname : policy.hasFullDiskWriteAccess ∧ policy.resolveAccessWithCwd env path cwd = .write ∨
      protectedName env policy' target cwd = protectedName env policy target cwd) :
    SameResults env policy' policy path cwd := by
  have hdisplay := resolveCandidatePath_display env target cwd
  have hkind' := hsame.trans hkind
  have hwrite : ∀ p, resolveCandidatePath env p cwd = some target →
      policy'.canWritePathWithCwd env p cwd = policy.canWritePathWithCwd env p cwd := by
    intro p hp
    unfold canWritePathWithCwd
    rw [resolveAccess_perm hsame hperm, hasFullDiskWriteAccess_perm hsame hperm]
    rcases hname with ⟨hfull, _⟩ | hname
    · simp only [hfull, if_true]
    · rw [isMetadataWriteDenied_eq hkind' hp, isMetadataWriteDenied_eq hkind hp, hname]
  refine ⟨resolveAccess_perm hsame hperm, ?_, hwrite path hpath, ?_⟩
  · unfold canReadPathWithCwd
    rw [resolveAccess_perm hsame hperm]
  · rw [forbiddenAgentMetadataWrite_eq hkind' hpath, forbiddenAgentMetadataWrite_eq hkind hpath, hwrite _ hdisplay]
    rcases hname with ⟨hfull, haccess⟩ | hname
    · have hcan : policy.canWritePathWithCwd env target.display cwd = true := by
        have hdisplayed : policy.resolveAccessWithCwd env target.display cwd = .write := by
          rw [resolveAccess_write_iff hkind hdisplay, ← resolveAccess_write_iff hkind hpath]
          exact haccess
        unfold canWritePathWithCwd
        rw [hdisplayed, hfull]
        rfl
      rw [if_pos hcan, if_pos hcan]
    · rw [hname]

/-- Without restrictions metadata is not protected. -/
theorem sameResults_of_not_restricted (hkind : policy.kind ≠ .restricted) :
    SameResults env policy' policy path cwd := by
  have hkind' : policy'.kind ≠ .restricted := hsame ▸ hkind
  refine ⟨resolveAccess_perm hsame hperm, ?_, ?_, ?_⟩
  · unfold canReadPathWithCwd
    rw [resolveAccess_perm hsame hperm]
  · unfold canWritePathWithCwd isMetadataWriteDenied
    rw [resolveAccess_perm hsame hperm, hasFullDiskWriteAccess_perm hsame hperm, if_pos hkind', if_pos hkind]
  · unfold forbiddenAgentMetadataWrite
    rw [if_pos hkind', if_pos hkind]

end Permuted

theorem metadataChild_cons
    (hresolve : resolveEntryPath env e.path (env.fromAbsolutePath cwd) = some w.path) (he : e.access = w.access)
    (hw : w.access = .write) (hin : InMetadata target w.path name) :
    metadataChildOfWritableRoot env { policy with entries := e :: entries } target cwd =
      some (join env.home w.path name, name) := by
  have hcan : w.access.canWrite = true := FileSystemAccessMode.canWrite_iff.mpr hw
  have hrules : Rules env (e :: entries) cwd = w :: Rules env entries cwd := by
    apply filterMap_cons_some
    rw [hresolve, he]
    rfl
  show (((Rules env (e :: entries) cwd).filter fun entry => entry.access.canWrite).filterMap
    fun entry => metadataChild env target entry.path).head? = _
  rw [hrules, filter_cons, if_pos hcan, filterMap_cons, metadataChild_eq_some.mpr ⟨hin, rfl⟩]
  rfl

section

variable (hkind : policy.kind = .restricted) (hfull : policy.hasFullDiskWriteAccess = false)
  (hpath : resolveCandidatePath env path cwd = some target)
include hkind hfull hpath

/-- The write that the first entry refuses is forbidden. -/
theorem forbidden_of_protectedName (hname : protectedName env policy target cwd = some name) :
    forbiddenAgentMetadataWrite env path cwd policy = some name := by
  rw [forbiddenAgentMetadataWrite_eq hkind hpath, if_neg, hname]
  unfold canWritePathWithCwd
  rw [isMetadataWriteDenied_eq hkind (resolveCandidatePath_display env target cwd), hname, hfull]
  simp

/-- The two entries in either order give different answers. -/
theorem not_orderIrrelevant (hamb : AmbiguousMetadata env policy target cwd) :
    ¬ OrderIrrelevant env policy path cwd := by
  intro hirr
  obtain ⟨inner, hinner, outer, houter, hi, ho, hne, ⟨iname, hin⟩, ⟨oname, hout⟩, hdeepest⟩ := hamb
  have hfirst : ∀ w ∈ Rules env policy.entries cwd, w.access = .write → ∀ name, InMetadata target w.path name →
      ∃ entries, entries.Perm policy.entries ∧
        metadataChildOfWritableRoot env { policy with entries } target cwd =
          some (join env.home w.path name, name) := by
    intro w hw haccess name hwin
    obtain ⟨e, he, hresolve, hmode⟩ := mem_rules.mp hw
    exact ⟨e :: policy.entries.erase e, (perm_cons_erase he).symm,
      metadataChild_cons hresolve hmode haccess hwin⟩
  obtain ⟨entries, hperm, hchild⟩ := hfirst inner hinner hi iname hin
  obtain ⟨entries', hperm', hchild'⟩ := hfirst outer houter ho oname hout
  -- the inner entry first: nothing below it is explicit
  have hsome : protectedName env { policy with entries } target cwd = some iname :=
    protectedName_eq_some hchild fun e he => hdeepest e ((mem_rules_perm hperm e).mp he)
  -- the outer entry first: the inner one is explicit
  have hlt : outer.path.parts.length < inner.path.parts.length := by
    apply lt_of_le_of_ne (hdeepest outer houter ho hout.covers)
    exact fun heq => hne (path_eq_of_length_eq hout.covers hin.covers heq)
  have hnone : protectedName env { policy with entries := entries' } target cwd = none := by
    unfold protectedName
    rw [hchild']
    simp only
    rw [if_pos]
    exact (hasExplicit_iff hout).mpr ⟨inner, (mem_rules_perm hperm' inner).mpr hinner, hi, hin.covers, hlt⟩
  have hfull' := (@hasFullDiskWriteAccess_perm policy { policy with entries } rfl hperm).trans hfull
  have hforbidden : forbiddenAgentMetadataWrite env path cwd { policy with entries } = some iname :=
    forbidden_of_protectedName hkind hfull' hpath hsome
  have hallowed : forbiddenAgentMetadataWrite env path cwd { policy with entries := entries' } = none := by
    rw [@forbiddenAgentMetadataWrite_eq env { policy with entries := entries' } _ _ _ hkind hpath, hnone, ite_self]
  have hsame := (hirr entries hperm).2.2.2.trans (hirr entries' hperm').2.2.2.symm
  rw [hforbidden, hallowed] at hsame
  exact nomatch hsame

end

theorem sameResults_of_unresolved {policy' : FileSystemAccessPolicy} (hkind : policy.kind = .restricted)
    (hkind' : policy'.kind = .restricted) (hpath : resolveCandidatePath env path cwd = none) :
    SameResults env policy' policy path cwd := by
  have hnone : ∀ p : FileSystemAccessPolicy, p.kind = .restricted →
      p.resolveAccessWithCwd env path cwd = .none ∧ forbiddenAgentMetadataWrite env path cwd p = none := by
    intro p hp
    simp only [resolveAccessWithCwd, forbiddenAgentMetadataWrite, hp, hpath, ne_eq, not_true_eq_false, if_false,
      and_self]
  obtain ⟨hr, hf⟩ := hnone policy hkind
  obtain ⟨hr', hf'⟩ := hnone policy' hkind'
  refine ⟨hr'.trans hr.symm, ?_, ?_, hf'.trans hf.symm⟩
  · unfold canReadPathWithCwd
    rw [hr, hr']
  · unfold canWritePathWithCwd
    rw [hr, hr']
    rfl

/-- **The order of the entries.** It counts exactly when a restricted policy without full write access
has two write entries with the path in their metadata, one of them the deepest to cover the path. -/
theorem orderIrrelevant_iff (env : Environment) (policy : FileSystemAccessPolicy) (path cwd : Str) :
    OrderIrrelevant env policy path cwd ↔
      ¬ (policy.kind = .restricted ∧ policy.hasFullDiskWriteAccess = false ∧
        ∃ target, resolveCandidatePath env path cwd = some target ∧ AmbiguousMetadata env policy target cwd) := by
  constructor
  · rintro hirr ⟨hkind, hfull, target, hpath, hamb⟩
    exact not_orderIrrelevant hkind hfull hpath hamb hirr
  · intro h entries hperm
    by_cases hkind : policy.kind = .restricted
    · cases hpath : resolveCandidatePath env path cwd with
      | none => exact sameResults_of_unresolved hkind hkind hpath
      | some target =>
        refine sameResults_perm (by rfl) hperm hkind hpath ?_
        have hrules : ∀ r, r ∈ Rules env policy.entries cwd ↔ r ∈ Rules env entries cwd :=
          mem_rules_perm hperm.symm
        cases hfull : policy.hasFullDiskWriteAccess with
        | false =>
          have hamb : ¬ AmbiguousMetadata env policy target cwd := fun hamb => h ⟨hkind, hfull, target, hpath, hamb⟩
          exact Or.inr (Eq.symm (protectedName_congr hrules hamb))
        | true =>
          by_cases haccess : policy.resolveAccessWithCwd env path cwd = .write
          · exact Or.inl ⟨rfl, haccess⟩
          · right
            refine Eq.symm (protectedName_congr hrules ?_)
            rintro ⟨inner, hinner, _, _, hi, _, _, ⟨name, hin⟩, _⟩
            exact not_inMetadata_of_fullDiskWrite hkind hfull hpath haccess hinner hi hin
    · exact sameResults_of_not_restricted rfl hperm hkind

/-- `/a`, and a directory below its `.git`. -/
def nestedHooks : FileSystemAccessPolicy :=
  restricted [⟨.path directory, .write⟩, ⟨.path (ofText "/a/.git/b"), .write⟩]

/-- The order of two write entries decides whether a path in the metadata of both is written. -/
theorem not_orderIrrelevant_nestedHooks :
    nestedHooks.canWritePathWithCwd bareEnvironment "/a/.git/b/.agents/x" "/w" ∧
      (restricted nestedHooks.entries.reverse).canWritePathWithCwd bareEnvironment
        "/a/.git/b/.agents/x" "/w" = false ∧
      ¬ OrderIrrelevant bareEnvironment nestedHooks "/a/.git/b/.agents/x" "/w" := by
  refine ⟨by decide +kernel, by decide +kernel, ?_⟩
  intro h
  have hswap := h nestedHooks.entries.reverse (reverse_perm _)
  revert hswap
  decide +kernel

end Theory

end OpenAgere.Permissions
