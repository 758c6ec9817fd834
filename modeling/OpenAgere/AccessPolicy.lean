import Mathlib.Data.Char
import Mathlib.Data.List.Destutter
import Mathlib.Data.List.Lex
import Mathlib.Data.List.Sort
import OpenAgere.LongestMatch
import OpenAgere.Paths

/-! # Access policies for the file system

`protocol/src/permissions.rs`: entries that give an access mode to a path, a glob pattern or a special
path, and the access a policy resolves for a path.  A policy answers by the most specific of its resolved
entries that cover the path, which is the longest match of the library at `FileSystemAccessMode`
(`resolveAccess_eq_iff`); glob patterns take no part in it and are matched by `ReadDenyMatcher` alone.

What the functions read of the process and the file system is an `Environment`. -/

namespace OpenAgere.Permissions

open AbsolutePath

/-- What is read of the process, of the file system and of the glob library. -/
structure Environment where
  /-- `dirs::home_dir` -/
  home : Option Str
  /-- `std::env::current_dir` -/
  currentDir : Option AbsolutePath
  /-- the variable `TMPDIR` -/
  tmpdir : Option Str
  isDir : AbsolutePath → Bool
  /-- `std::fs::symlink_metadata`: whether there is an entry, and whether it is a symbolic link -/
  symlinkMetadata : AbsolutePath → Option Bool
  canonicalize : AbsolutePath → Option AbsolutePath
  /-- `build_glob_matcher`: the matcher of a pattern that compiles -/
  buildGlobMatcher : Str → Option (AbsolutePath → Bool)

namespace Environment

variable (env : Environment)

def fromAbsolutePath (path : Str) : Option AbsolutePath :=
  let expanded := maybeExpandHomeDirectory env.home path
  if IsAbsolute expanded then some (ofText expanded)
  else env.currentDir.map (resolvePathAgainstBase env.home path)

/-- `TMPDIR` as a path; an empty variable counts as unset. -/
def tmpdirPath : Option AbsolutePath :=
  env.tmpdir.bind fun tmpdir => if tmpdir = [] then none else env.fromAbsolutePath tmpdir

def slashTmp : AbsolutePath := ⟨["tmp"], by decide⟩

/-- A nested symbolic link among the path and its ancestors. -/
def shouldPreserveLogicalPath (logical : AbsolutePath) : Bool :=
  (logical :: logical.ancestors).any fun ancestor =>
    env.symlinkMetadata ancestor = some true ∧ 2 ≤ ancestor.components.length

def canonicalizePreservingSymlinks (logical : AbsolutePath) : AbsolutePath :=
  match env.canonicalize logical with
  | some canonical =>
      if env.shouldPreserveLogicalPath logical ∧ canonical ≠ logical then logical else canonical
  | none => logical

/-- The path below its nearest existing ancestor, which is canonicalized. -/
def normalizeEffectiveAbsolutePath (path : AbsolutePath) : AbsolutePath :=
  match (path :: path.ancestors.reverse).find? fun ancestor => (env.symlinkMetadata ancestor).isSome with
  | some ancestor =>
      ⟨(env.canonicalizePreservingSymlinks ancestor).components ++ path.components.drop ancestor.components.length,
        fun c hc => (List.mem_append.mp hc).elim ((env.canonicalizePreservingSymlinks ancestor).normal c)
          fun hc => path.normal c (List.mem_of_mem_drop hc)⟩
  | none => path

theorem fromAbsolutePath_of_isAbsolute {path : Str} (h : IsAbsolute path) :
    env.fromAbsolutePath path = some (ofText path) := by
  have hexp : maybeExpandHomeDirectory env.home path = path := by
    cases path with
    | nil => exact absurd h (by simp)
    | cons c cs =>
      obtain rfl : c = '/' := Option.some.inj h
      unfold maybeExpandHomeDirectory
      cases env.home <;> rfl
  unfold fromAbsolutePath
  simp only [hexp, if_pos h]

end Environment

/-! ### Entries -/

/-- Ordered by precedence among equally specific entries, not by breadth. -/
inductive FileSystemAccessMode where
  | read
  | write
  | none
deriving DecidableEq, Repr

namespace FileSystemAccessMode

def precedence : FileSystemAccessMode → ℕ
  | read => 0
  | write => 1
  | none => 2

theorem precedence_injective : Function.Injective precedence := by
  intro a b h
  cases a <;> cases b <;> first | rfl | exact absurd h (by decide)

instance : LinearOrder FileSystemAccessMode := LinearOrder.lift' precedence precedence_injective

def canRead (mode : FileSystemAccessMode) : Bool := mode ≠ none

def canWrite (mode : FileSystemAccessMode) : Bool := mode = write

variable {mode : FileSystemAccessMode}

theorem canRead_iff : mode.canRead ↔ mode ≠ none := by simp [canRead]

theorem canWrite_iff : mode.canWrite ↔ mode = write := by simp [canWrite]

theorem le_none (mode : FileSystemAccessMode) : mode ≤ none := by cases mode <;> decide

end FileSystemAccessMode

inductive FileSystemSpecialPath where
  | root
  | minimal
  | projectRoots (subpath : Option PathBuf)
  | tmpdir
  | slashTmp
  | unknown (path : Str) (subpath : Option PathBuf)
deriving DecidableEq

inductive FileSystemPath where
  | path (path : AbsolutePath)
  | globPattern (pattern : Str)
  | special (value : FileSystemSpecialPath)
deriving DecidableEq

structure FileSystemAccessEntry where
  path : FileSystemPath
  access : FileSystemAccessMode
deriving DecidableEq

structure ResolvedFileSystemEntry where
  path : AbsolutePath
  access : FileSystemAccessMode
deriving DecidableEq

/-- The components an entry is matched by. -/
def ResolvedFileSystemEntry.key (entry : ResolvedFileSystemEntry) : List Str := entry.path.parts

def resolvedEntryPrecedence (entry : ResolvedFileSystemEntry) : ℕ ×ₗ FileSystemAccessMode :=
  toLex (entry.path.parts.length, entry.access)

section Resolve

variable (env : Environment)

/-- The last ancestor of an absolute directory. -/
def absoluteRootPathForCwd (_cwd : AbsolutePath) : AbsolutePath := root

def resolveFileSystemSpecialPath : FileSystemSpecialPath → Option AbsolutePath → Option AbsolutePath
  | .root, _ => none
  | .minimal, _ => none
  | .unknown _ _, _ => none
  | .projectRoots subpath, cwd => cwd.map fun cwd =>
      match subpath with
      | some subpath => resolvePathAgainstBase env.home subpath.text cwd
      | none => cwd
  | .tmpdir, _ => env.tmpdirPath
  | .slashTmp, _ => if env.isDir Environment.slashTmp then some Environment.slashTmp else none

def resolveFileSystemPath : FileSystemPath → Option AbsolutePath → Option AbsolutePath
  | .path path, _ => some path
  | .globPattern _, _ => none
  | .special value, cwd => resolveFileSystemSpecialPath env value cwd

def resolveEntryPath : FileSystemPath → Option AbsolutePath → Option AbsolutePath
  | .special .root, cwd => cwd.map absoluteRootPathForCwd
  | path, cwd => resolveFileSystemPath env path cwd

def resolveCandidatePath (path cwd : Str) : Option AbsolutePath :=
  if IsAbsolute path then env.fromAbsolutePath path
  else (env.fromAbsolutePath cwd).map fun cwd => join env.home cwd path

theorem resolveCandidatePath_of_isAbsolute {path : Str} (h : IsAbsolute path) (cwd : Str) :
    resolveCandidatePath env path cwd = some (ofText path) := by
  unfold resolveCandidatePath
  rw [if_pos h, env.fromAbsolutePath_of_isAbsolute h]

theorem resolveCandidatePath_display (path : AbsolutePath) (cwd : Str) :
    resolveCandidatePath env path.display cwd = some path := by
  rw [resolveCandidatePath_of_isAbsolute env rfl cwd, ofText_display]

end Resolve

/-! ### Policies -/

inductive FileSystemAccessLevel where
  | restricted
  | unrestricted
  | external
deriving DecidableEq, Repr

structure FileSystemAccessPolicy where
  kind : FileSystemAccessLevel
  globScanMaxDepth : Option ℕ
  entries : List FileSystemAccessEntry
deriving DecidableEq

namespace FileSystemAccessPolicy

variable (env : Environment)

def restricted (entries : List FileSystemAccessEntry) : FileSystemAccessPolicy :=
  ⟨.restricted, none, entries⟩

def hasDeniedReadRestrictions (policy : FileSystemAccessPolicy) : Bool :=
  policy.kind = .restricted ∧ policy.entries.any fun entry => entry.access = .none

def resolvedEntriesWithCwd (policy : FileSystemAccessPolicy) (cwd : Str) : List ResolvedFileSystemEntry :=
  policy.entries.filterMap fun entry =>
    (resolveEntryPath env entry.path (env.fromAbsolutePath cwd)).map fun path => ⟨path, entry.access⟩

/-- The entry of the highest precedence; covering entries of one precedence are equal. -/
def resolveAccessWithCwd (policy : FileSystemAccessPolicy) (path cwd : Str) : FileSystemAccessMode :=
  match policy.kind with
  | .unrestricted => .write
  | .external => .write
  | .restricted =>
      match resolveCandidatePath env path cwd with
      | none => .none
      | some path =>
          ((((policy.resolvedEntriesWithCwd env cwd).filter fun entry => path.startsWith entry.path).argmax
            resolvedEntryPrecedence).map fun entry => entry.access).getD .none

def canReadPathWithCwd (policy : FileSystemAccessPolicy) (path cwd : Str) : Bool :=
  (policy.resolveAccessWithCwd env path cwd).canRead

end FileSystemAccessPolicy

/-! ### Read denials -/

/-- Appends a value that is not there yet. -/
def pushUnique {α : Type} [DecidableEq α] (candidates : List α) (candidate : α) : List α :=
  if candidate ∈ candidates then candidates else candidates ++ [candidate]

theorem mem_pushUnique {α : Type} [DecidableEq α] {l : List α} {x y : α} :
    y ∈ pushUnique l x ↔ y ∈ l ∨ y = x := by
  unfold pushUnique
  split_ifs with h
  · exact ⟨Or.inl, fun hy => hy.elim (fun hl => hl) fun e => e ▸ h⟩
  · rw [List.mem_append, List.mem_singleton]

theorem mem_foldl_pushUnique {α : Type} [DecidableEq α] {y : α} : ∀ {xs l : List α},
    y ∈ xs.foldl pushUnique l ↔ y ∈ l ∨ y ∈ xs
  | [], l => by simp
  | x :: xs, l => by
    rw [List.foldl_cons, mem_foldl_pushUnique, mem_pushUnique, List.mem_cons, or_assoc]

namespace FileSystemAccessPolicy

variable (env : Environment)

def dedupAbsolutePaths (paths : List AbsolutePath) (normalizeEffectivePaths : Bool) : List AbsolutePath :=
  (paths.map fun path => if normalizeEffectivePaths then env.normalizeEffectiveAbsolutePath path else path).foldl
    pushUnique []

/-- Denied roots; the root of the file system is denied already where nothing else is allowed. -/
def getUnreadableRootsWithCwd (policy : FileSystemAccessPolicy) (cwd : Str) : List AbsolutePath :=
  if policy.kind ≠ .restricted then []
  else
    dedupAbsolutePaths env
      (((policy.resolvedEntriesWithCwd env cwd).filter fun entry =>
        entry.access = .none ∧ ¬ policy.canReadPathWithCwd env entry.path.display cwd ∧
          (env.fromAbsolutePath cwd).map absoluteRootPathForCwd ≠ some entry.path).map fun entry => entry.path)
      true

/-- Denied patterns, resolved against the directory, in order and once each. -/
def getUnreadableGlobsWithCwd (policy : FileSystemAccessPolicy) (cwd : Str) : List Str :=
  if policy.kind ≠ .restricted then []
  else
    ((policy.entries.filterMap fun entry =>
      match entry.access, entry.path with
      | .none, .globPattern pattern => some (resolveTextAgainstBase env.home pattern cwd)
      | _, _ => none).insertionSort (· ≤ ·)).destutter (· ≠ ·)

end FileSystemAccessPolicy

structure ReadDenyMatcher where
  deniedCandidates : List (List AbsolutePath)
  denyReadMatchers : List (AbsolutePath → Bool)
  invalidPattern : Bool

/-- The path itself and its canonical form, when there is one. -/
def normalizedAndCanonicalCandidates (env : Environment) (path : AbsolutePath) : List AbsolutePath :=
  match env.canonicalize path with
  | some canonical => pushUnique [path] canonical
  | none => [path]

namespace ReadDenyMatcher

variable (env : Environment)

def new (policy : FileSystemAccessPolicy) (cwd : Str) : Option ReadDenyMatcher :=
  if policy.hasDeniedReadRestrictions then
    some {
      deniedCandidates := (policy.getUnreadableRootsWithCwd env cwd).map (normalizedAndCanonicalCandidates env)
      denyReadMatchers := (policy.getUnreadableGlobsWithCwd env cwd).filterMap env.buildGlobMatcher
      invalidPattern := (policy.getUnreadableGlobsWithCwd env cwd).any fun pattern =>
        (env.buildGlobMatcher pattern).isNone }
  else none

/-- A pattern that does not compile denies everything. -/
def isReadDenied (matcher : ReadDenyMatcher) (path : AbsolutePath) : Bool :=
  let candidates := normalizedAndCanonicalCandidates env path
  matcher.invalidPattern ||
    (matcher.deniedCandidates.any fun denied =>
      candidates.any fun candidate => denied.any fun root => candidate = root || candidate.startsWith root) ||
    matcher.denyReadMatchers.any fun isMatch => candidates.any isMatch

end ReadDenyMatcher

/-! ### The access of a restricted policy -/

section Restricted

open FileSystemAccessPolicy

variable {env : Environment} {entries : List FileSystemAccessEntry} {path cwd : Str} {target : AbsolutePath}

/-- The entries of a restricted policy as the rules of a longest match. -/
abbrev Rules (env : Environment) (entries : List FileSystemAccessEntry) (cwd : Str) :
    List ResolvedFileSystemEntry :=
  (restricted entries).resolvedEntriesWithCwd env cwd

/-- `entry` decides on the access of a restricted policy to `target`. -/
abbrev Decides (env : Environment) (entries : List FileSystemAccessEntry) (cwd : Str) (target : AbsolutePath)
    (entry : ResolvedFileSystemEntry) : Prop :=
  LongestMatch.Decides ResolvedFileSystemEntry.key ResolvedFileSystemEntry.access (Rules env entries cwd)
    target.parts entry

theorem mem_rules {entry : ResolvedFileSystemEntry} : entry ∈ Rules env entries cwd ↔ ∃ e ∈ entries,
    resolveEntryPath env e.path (env.fromAbsolutePath cwd) = some entry.path ∧ e.access = entry.access := by
  unfold Rules resolvedEntriesWithCwd restricted
  simp only [List.mem_filterMap, Option.map_eq_some_iff]
  constructor
  · rintro ⟨e, he, p, hp, rfl⟩
    exact ⟨e, he, hp, rfl⟩
  · rintro ⟨e, he, hp, ha⟩
    exact ⟨e, he, entry.path, hp, by rw [ha]⟩

theorem resolveAccess_eq_answer (h : resolveCandidatePath env path cwd = some target) :
    (restricted entries).resolveAccessWithCwd env path cwd =
      (LongestMatch.answer ResolvedFileSystemEntry.key ResolvedFileSystemEntry.access
        (Rules env entries cwd) target.parts).getD .none := by
  unfold resolveAccessWithCwd
  simp only [restricted, h]
  rfl

/-- **Access.** A readable or writable target is decided by an entry of that mode. -/
theorem resolveAccess_eq_iff (h : resolveCandidatePath env path cwd = some target) (hm : mode ≠ .none) :
    (restricted entries).resolveAccessWithCwd env path cwd = mode ↔
      ∃ entry, Decides env entries cwd target entry ∧ entry.access = mode := by
  rw [resolveAccess_eq_answer h, ← LongestMatch.answer_eq_some]
  cases LongestMatch.answer ResolvedFileSystemEntry.key ResolvedFileSystemEntry.access
    (Rules env entries cwd) target.parts with
  | none => simp [hm.symm]
  | some v => simp

theorem resolveAccess_of_decides (h : resolveCandidatePath env path cwd = some target)
    {entry : ResolvedFileSystemEntry} (hd : Decides env entries cwd target entry) :
    (restricted entries).resolveAccessWithCwd env path cwd = entry.access := by
  rw [resolveAccess_eq_answer h, LongestMatch.answer_eq_some.mpr ⟨entry, hd, rfl⟩, Option.getD_some]

end Restricted

end OpenAgere.Permissions
