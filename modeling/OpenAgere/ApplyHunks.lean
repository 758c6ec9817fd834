import OpenAgere.Action
import OpenAgere.Replacements

/-! # Applying hunks to files

`apply_hunks_to_files` of `apply-patch/src/lib.rs` as actions on an in-memory file system: each
hunk in turn is written, removed or derived from the file as the hunks before it left it.
`applyHunk_ok` says what one successful hunk does: which file it writes, which it removes, what
the new text was derived from, and that it leaves all other files alone.  `applyHunks_same` and
`applyHunks_old` carry that through a run. -/

namespace OpenAgere.ApplyPatch

open List Option Text OpenAgere.Action

/-! ### Hunks and their paths -/

section paths
variable (home : Option Str) (cwd : AbsolutePath)

/-- The path affected by a hunk, as the patch spells it: for a move the destination. -/
def Hunk.path : Hunk → Str
  | addFile path _ => path
  | deleteFile path => path
  | updateFile path none _ => path
  | updateFile _ (some dest) _ => dest

/-- `Hunk::resolve_path`: the file the hunk names in its header. -/
def Hunk.resolvePath : Hunk → AbsolutePath
  | addFile path _ => .resolvePathAgainstBase home path cwd
  | deleteFile path => .resolvePathAgainstBase home path cwd
  | updateFile path _ _ => .resolvePathAgainstBase home path cwd

/-- The destination of a move. -/
def Hunk.resolveDest : Hunk → Option AbsolutePath
  | updateFile _ (some dest) _ => some (.resolvePathAgainstBase home dest cwd)
  | _ => none

/-- The paths a hunk names. -/
def Hunk.touched (hunk : Hunk) : List AbsolutePath :=
  hunk.resolvePath home cwd :: (hunk.resolveDest home cwd).toList

/-- The file a hunk writes. -/
def Hunk.written : Hunk → Option AbsolutePath
  | addFile path _ => some (.resolvePathAgainstBase home path cwd)
  | deleteFile _ => none
  | updateFile path none _ => some (.resolvePathAgainstBase home path cwd)
  | updateFile _ (some dest) _ => some (.resolvePathAgainstBase home dest cwd)

end paths

/-! ### Actions -/

open Hunk

/-- The errors of `apply_hunks_to_files`. -/
inductive ApplyError where
  | noFilesModified
  | io (context : Str) (source : IoErrorKind)
  | patch (e : ApplyPatchError)
deriving DecidableEq, Repr

structure AffectedPaths where
  added : List Str
  modified : List Str
  deleted : List Str
deriving DecidableEq, Repr

abbrev FsAction (α : Type) : Type := Action MemFs (Fault ApplyError) α

/-- An operation of the file system, with the context of its error. -/
def withContext {α : Type} (context : Str) (p : AbsolutePath) (x : Action MemFs IoErrorKind α) :
    FsAction α := x.mapError fun e => .error (.io (context ++ p.display) e)

/-- Remove a file that is no directory. -/
def removeFileAt (p : AbsolutePath) : Action MemFs IoErrorKind Unit := do
  let dir ← query (·.isDirectory p)
  if dir then fail .invalidInput else update (·.remove p)

/-- Create the directories above a path. -/
def createParent (p : AbsolutePath) : FsAction Unit :=
  match p.parent with
  | some d =>
      withContext "Failed to create parent directories for " p (update (·.createDirectory d))
  | none => pure ()

def writeFileWithMissingParentRetry (p : AbsolutePath) (contents : Str) : FsAction Unit :=
  tryCatch (update (·.writeFile p (.text contents))) fun e =>
    if e = .notFound then do
      createParent p
      withContext "Failed to write file " p (update (·.writeFile p (.text contents)))
    else fail (.error (.io ("Failed to write file " ++ p.display) e))

def liftDerive {α : Type} : Derive α → Except (Fault ApplyError) α
  | .ok a => .ok a
  | .error .panic => .error .panic
  | .error (.error e) => .error (.error (.patch e))

section apply
variable (home : Option Str) (cwd : AbsolutePath)

/-- One round of the loop over the hunks. -/
def applyHunk (hunk : Hunk) (affected : AffectedPaths) : FsAction AffectedPaths :=
  let p := hunk.resolvePath home cwd
  match hunk with
  | .addFile _ contents => do
      writeFileWithMissingParentRetry p contents
      return { affected with added := affected.added ++ [hunk.path] }
  | .deleteFile _ => do
      withContext "Failed to delete file " p (removeFileAt p)
      return { affected with deleted := affected.deleted ++ [hunk.path] }
  | .updateFile _ (some dest) chunks => do
      let applied ← query fun fs => liftDerive (deriveNewContentsFromChunks p chunks fs)
      writeFileWithMissingParentRetry (.resolvePathAgainstBase home dest cwd) applied.newContents
      withContext "Failed to remove original " p (removeFileAt p)
      return { affected with modified := affected.modified ++ [hunk.path] }
  | .updateFile _ none chunks => do
      let applied ← query fun fs => liftDerive (deriveNewContentsFromChunks p chunks fs)
      withContext "Failed to write file " p (update (·.writeFile p (.text applied.newContents)))
      return { affected with modified := affected.modified ++ [hunk.path] }

def applyHunksToFiles (hunks : List Hunk) : FsAction AffectedPaths :=
  if hunks.isEmpty then fail (.error .noFilesModified)
  else forEach (applyHunk home cwd) hunks ⟨[], [], []⟩

end apply

/-! ### One operation -/

theorem liftDerive_ok {α : Type} {x : Derive α} {a : α} : liftDerive x = .ok a ↔ x = .ok a := by
  unfold liftDerive
  split <;> simp_all

variable {p : AbsolutePath} {fs fs' : MemFs}

theorem removeFileAt_ok (h : removeFileAt p fs = (.ok (), fs')) :
    ∀ q, fs'.entry q = if q = p then none else fs.entry q := by
  unfold removeFileAt at h
  simp only [bind_ok, query_ok] at h
  obtain ⟨dir, t, ⟨_, rfl⟩, h⟩ := h
  cases dir with
  | true => simp at h
  | false =>
    simp only [Bool.false_eq_true, if_false, update_ok] at h
    exact fs.remove_ok h

variable {u : Unit}

theorem createParent_ok (h : createParent p fs = (.ok u, fs')) : ∀ q, SameAt (· = p) fs fs' q := by
  intro q
  unfold createParent at h
  cases hp : p.parent with
  | none =>
    simp only [hp, pure_ok] at h
    exact Or.inl (by rw [h.2])
  | some d =>
    simp only [hp, withContext, mapError_ok, update_ok] at h
    obtain e | ⟨hn, hd, ha⟩ := fs.createDirectory_ok h q
    · exact Or.inl e
    · exact Or.inr ⟨hn, hd, p, rfl, (AbsolutePath.isAncestor_iff_parent hp).mpr ha⟩

theorem writeFile_same {q : AbsolutePath} {c : Contents}
    (h : fs.writeFile p c = .ok fs') (hq : q ≠ p) : SameAt (· = p) fs fs' q := by
  left
  rw [fs.writeFile_ok h, if_neg hq]

theorem writeFileWithMissingParentRetry_ok {s : Str} (h : writeFileWithMissingParentRetry p s fs = (.ok u, fs')) :
    fs'.entry p = some (.file (.text s)) ∧ ∀ q, q ≠ p → SameAt (· = p) fs fs' q := by
  unfold writeFileWithMissingParentRetry at h
  rw [tryCatch_ok] at h
  obtain h | ⟨e, t, h1, h2⟩ := h
  · rw [update_ok] at h
    exact ⟨by rw [fs.writeFile_ok h, if_pos rfl], fun q hq => writeFile_same h hq⟩
  · obtain rfl := update_error h1
    split_ifs at h2 with he
    · simp only [bind_ok, withContext, mapError_ok, update_ok] at h2
      obtain ⟨_, mid, h2, h3⟩ := h2
      exact ⟨by rw [mid.writeFile_ok h3, if_pos rfl],
        fun q hq => (createParent_ok h2 q).trans (writeFile_same h3 hq)⟩
    · simp at h2

/-! ### One hunk -/

section effect
variable (home : Option Str) (cwd : AbsolutePath)

/-- What a hunk does to the files it names, between the file systems before and after it. -/
def Hunk.Did (hunk : Hunk) (fs fs' : MemFs) : Prop :=
  let p := hunk.resolvePath home cwd
  match hunk with
  | .addFile _ contents => fs'.file p = some (.text contents)
  | .deleteFile _ => fs'.file p = none
  | .updateFile _ none chunks => ∃ old new, fs.file p = some (.text old) ∧
      newContents p chunks old = .ok new ∧ fs'.file p = some (.text new)
  | .updateFile _ (some dest) chunks => ∃ old new, fs.file p = some (.text old) ∧
      newContents p chunks old = .ok new ∧ fs'.file p = none ∧
      (AbsolutePath.resolvePathAgainstBase home dest cwd ≠ p →
        fs'.file (.resolvePathAgainstBase home dest cwd) = some (.text new))

end effect

section run
variable {home : Option Str} {cwd : AbsolutePath}

variable {hunk : Hunk} {a a' : AffectedPaths} {fs fs' : MemFs}

theorem mem_touched {q : AbsolutePath} :
    q ∈ hunk.touched home cwd ↔ q = hunk.resolvePath home cwd ∨ hunk.resolveDest home cwd = some q := by
  rw [touched, mem_cons, mem_toList]

/-- **One hunk.**  A successful hunk does what it says to the files it names, and leaves every
other path alone, up to new directories. -/
theorem applyHunk_ok (h : applyHunk home cwd hunk a fs = (.ok a', fs')) :
    hunk.Did home cwd fs fs' ∧ ∀ q, q ∉ hunk.touched home cwd →
      SameAt (· ∈ hunk.touched home cwd) fs fs' q := by
  have hpath : ∀ {q}, q ∉ hunk.touched home cwd → q ≠ hunk.resolvePath home cwd :=
    fun hq heq => hq (mem_touched.mpr (.inl heq))
  unfold applyHunk at h
  cases hunk with
  | addFile path contents =>
    simp only [bind_ok, pure_ok] at h
    obtain ⟨_, t, hw, _, rfl⟩ := h
    obtain ⟨h1, h2⟩ := writeFileWithMissingParentRetry_ok hw
    exact ⟨t.file_eq_some.mpr h1, fun q hq => (h2 q (hpath hq)).mono fun p hp => mem_touched.mpr (.inl hp)⟩
  | deleteFile path =>
    simp only [bind_ok, pure_ok, withContext, mapError_ok] at h
    obtain ⟨_, t, hr, _, rfl⟩ := h
    have hrem := removeFileAt_ok hr
    refine ⟨t.file_eq_none_of_entry (by rw [hrem, if_pos rfl]), fun q hq => Or.inl ?_⟩
    rw [hrem, if_neg (hpath hq)]
  | updateFile path movePath chunks =>
    cases movePath with
    | none =>
      simp only [bind_ok, query_ok, pure_ok, withContext, mapError_ok, update_ok, liftDerive_ok] at h
      obtain ⟨applied, _, ⟨hd, rfl⟩, _, t, hw, _, rfl⟩ := h
      obtain ⟨hfile, hnew⟩ := deriveNewContentsFromChunks_ok.mp hd
      refine ⟨⟨_, _, hfile, hnew, t.file_eq_some.mpr ?_⟩, fun q hq => ?_⟩
      · rw [fs.writeFile_ok hw, if_pos rfl]
      · exact (writeFile_same hw (hpath hq)).mono fun p hp => mem_touched.mpr (.inl hp)
    | some dest =>
      simp only [bind_ok, query_ok, pure_ok, withContext, mapError_ok, liftDerive_ok] at h
      obtain ⟨applied, _, ⟨hd, rfl⟩, _, mid, hw, _, t, hr, _, rfl⟩ := h
      obtain ⟨hfile, hnew⟩ := deriveNewContentsFromChunks_ok.mp hd
      obtain ⟨h1, h2⟩ := writeFileWithMissingParentRetry_ok hw
      have hrem := removeFileAt_ok hr
      refine ⟨⟨_, _, hfile, hnew, t.file_eq_none_of_entry (by rw [hrem, if_pos rfl]), fun hne => ?_⟩,
        fun q hq => ?_⟩
      · rw [t.file_eq_some, hrem, if_neg hne, h1]
      · have hdest : ∀ p, p = .resolvePathAgainstBase home dest cwd →
            p ∈ (updateFile path (some dest) chunks).touched home cwd :=
          fun p hp => mem_touched.mpr (.inr (congrArg some hp.symm))
        refine ((h2 q (mt (hdest q) hq)).mono hdest).trans (Or.inl ?_)
        rw [hrem, if_neg (hpath hq)]

variable {q : AbsolutePath} {c : Contents}

theorem applyHunk_old (h : applyHunk home cwd hunk a fs = (.ok a', fs'))
    (hq : hunk.written home cwd ≠ some q) (hc : fs'.file q = some c) : fs.file q = some c := by
  obtain ⟨hdid, hsame⟩ := applyHunk_ok h
  by_cases ht : q ∈ hunk.touched home cwd
  · exfalso
    obtain rfl | ht := mem_touched.mp ht
    · cases hunk with
      | addFile => exact hq rfl
      | deleteFile => exact nomatch hdid.symm.trans hc
      | updateFile path movePath chunks =>
        cases movePath with
        | none => exact hq rfl
        | some dest =>
          obtain ⟨_, _, _, _, hnone, _⟩ := hdid
          exact nomatch hnone.symm.trans hc
    · cases hunk with
      | updateFile path movePath chunks =>
        cases movePath with
        | none => cases ht
        | some dest => exact hq ht
      | _ => cases ht
  · rw [← (hsame q ht).file]
    exact hc

/-! ### Runs -/

variable {hunks : List Hunk}

theorem applyHunks_same (h : forEach (applyHunk home cwd) hunks a fs = (.ok a', fs'))
    (hq : ∀ x ∈ hunks, q ∉ x.touched home cwd) :
    SameAt (fun p => ∃ x ∈ hunks, p ∈ x.touched home cwd) fs fs' q := by
  refine forEach_rel (R := fun s s' => SameAt _ s s' q) (fun s => SameAt.refl _ s q) SameAt.trans ?_ h
  intro x hx b c s s' hs
  exact ((applyHunk_ok hs).2 q (hq x hx)).mono fun p hp => ⟨x, hx, hp⟩

/-- A file that no hunk of a run writes holds what it held before, or is gone. -/
theorem applyHunks_old (h : forEach (applyHunk home cwd) hunks a fs = (.ok a', fs'))
    (hq : ∀ x ∈ hunks, x.written home cwd ≠ some q) (hc : fs'.file q = some c) :
    fs.file q = some c := by
  have key := forEach_rel (R := fun s s' : MemFs => ∀ c, s'.file q = some c → s.file q = some c)
    (fun _ _ h => h) (fun h1 h2 c hc => h1 c (h2 c hc))
    (fun x hx {b c s s'} hs d hd => applyHunk_old hs (hq x hx) hd) h
  exact key c hc

end run

end OpenAgere.ApplyPatch
