import OpenAgere.Paths

/-! # An in-memory file system

The operations of the trait `ExecutorFileSystem` that applying a patch uses, on a file system
kept in memory.  `MemFs` maps paths to entries and carries the shape of a tree: the root is a
directory, and so is the parent of every entry.  Each operation has one lemma that gives the
entries after its success (`writeFile_ok`, `createDirectory_ok`, `remove_ok`). -/

namespace OpenAgere

/-- The bytes of a file: the text they decode to, or bytes that are not valid UTF-8. -/
inductive Contents where
  | text (s : Str)
  | binary (bytes : List UInt8)
deriving DecidableEq, Repr

inductive Entry where
  | file (contents : Contents)
  | directory
deriving DecidableEq, Repr

/-- `io::ErrorKind`, as far as the operations return it. -/
inductive IoErrorKind where
  | notFound
  | notADirectory
  | isADirectory
  | invalidData
  | invalidInput
deriving DecidableEq, Repr

structure MemFs where
  entry : AbsolutePath → Option Entry
  root_dir : entry AbsolutePath.root = some .directory
  parent_dir : ∀ {p d}, p.parent = some d → (entry p).isSome → entry d = some .directory

namespace MemFs
variable (fs : MemFs)

/-- The contents of the file at a path, if there is one. -/
def file (p : AbsolutePath) : Option Contents :=
  match fs.entry p with
  | some (.file c) => some c
  | _ => none

def isFile (p : AbsolutePath) : Bool := (fs.file p).isSome

/-- The error of a path without entry: a file stands on the way, or nothing does. -/
def missing (p : AbsolutePath) : IoErrorKind :=
  if p.ancestors.any fs.isFile then .notADirectory else .notFound

variable {p : AbsolutePath} {c : Contents}

theorem file_eq_some : fs.file p = some c ↔ fs.entry p = some (.file c) := by
  unfold file
  split <;> simp_all

theorem file_eq_none_of_entry (h : fs.entry p = none) : fs.file p = none := by
  simp [file, h]

theorem isFile_iff : fs.isFile p ↔ ∃ c, fs.entry p = some (.file c) := by
  unfold isFile
  rw [Option.isSome_iff_exists]
  simp only [file_eq_some]

theorem entry_child {d : AbsolutePath} (h : p.parent = some d) (hd : fs.entry d ≠ some .directory) :
    fs.entry p = none := by
  by_contra hne
  exact hd (fs.parent_dir h (Option.isSome_iff_ne_none.mpr hne))

/-! ### Reading -/

def readFile (p : AbsolutePath) : Except IoErrorKind Contents :=
  match fs.entry p with
  | some (.file c) => .ok c
  | some .directory => .error .isADirectory
  | none => .error (fs.missing p)

/-- The contents of a file, decoded as UTF-8. -/
def readFileText (p : AbsolutePath) : Except IoErrorKind Str := do
  match ← fs.readFile p with
  | .text s => return s
  | .binary _ => .error .invalidData

theorem readFileText_ok {s : Str} : fs.readFileText p = .ok s ↔ fs.file p = some (.text s) := by
  rw [file_eq_some]
  unfold readFileText readFile
  rcases fs.entry p with _ | ⟨_ | _⟩ | _ <;> simp [Bind.bind, Except.bind, Pure.pure, Except.pure]

/-- `get_metadata`, of which only `is_directory` is used. -/
def isDirectory (p : AbsolutePath) : Except IoErrorKind Bool :=
  match fs.entry p with
  | some (.file _) => .ok false
  | some .directory => .ok true
  | none => .error (fs.missing p)

/-! ### Writing -/

/-- A file can be written: no directory has its name, and its parent is a directory. -/
def CanWrite (p : AbsolutePath) : Prop :=
  fs.entry p ≠ some .directory ∧ ∃ d ∈ p.parent, fs.entry d = some .directory

instance (p : AbsolutePath) : Decidable (fs.CanWrite p) :=
  inferInstanceAs (Decidable (_ ∧ ∃ d ∈ p.parent, _))

/-- The file system with a file at a path. -/
def putFile (p : AbsolutePath) (c : Contents) (h : fs.CanWrite p) : MemFs where
  entry q := if q = p then some (.file c) else fs.entry q
  root_dir := by
    have hne : AbsolutePath.root ≠ p := by
      rintro rfl
      exact h.1 fs.root_dir
    rw [if_neg hne]
    exact fs.root_dir
  parent_dir := by
    intro q d hq hs
    obtain ⟨hnd, e, he, hdir⟩ := h
    have hdp : d ≠ p := by
      rintro rfl
      split_ifs at hs with hqd
      · subst hqd
        exact AbsolutePath.not_isAncestor_self _ (AbsolutePath.isAncestor_of_parent hq)
      · rw [fs.entry_child hq hnd] at hs
        cases hs
    rw [if_neg hdp]
    split_ifs at hs with hqp
    · subst hqp
      rw [Option.mem_def, hq, Option.some.injEq] at he
      rw [he]
      exact hdir
    · exact fs.parent_dir hq hs

def writeFile (p : AbsolutePath) (c : Contents) : Except IoErrorKind MemFs :=
  if h : fs.CanWrite p then .ok (fs.putFile p c h)
  else if fs.entry p = some .directory then .error .isADirectory
  else .error (fs.missing p)

variable {fs' : MemFs}

theorem writeFile_ok (h : fs.writeFile p c = .ok fs')
    (q : AbsolutePath) : fs'.entry q = if q = p then some (.file c) else fs.entry q := by
  unfold writeFile at h
  split_ifs at h
  cases h
  rfl

/-! ### Directories -/

/-- The directories of a path, the path included, can be created: none of them is a file. -/
def CanCreate (p : AbsolutePath) : Prop := ∀ q ∈ p :: p.ancestors, fs.isFile q = false

instance (p : AbsolutePath) : Decidable (fs.CanCreate p) :=
  inferInstanceAs (Decidable (∀ q ∈ p :: p.ancestors, _))

/-- The file system with the missing directories of a path. -/
def putDirectories (p : AbsolutePath) (h : fs.CanCreate p) : MemFs where
  entry q := if q ∈ p :: p.ancestors ∧ fs.entry q = none then some .directory else fs.entry q
  root_dir := by
    rw [if_neg (by simp [fs.root_dir])]
    exact fs.root_dir
  parent_dir := by
    intro q d hq hs
    by_cases hmem : q ∈ p :: p.ancestors
    · have hd := AbsolutePath.mem_ancestors_of_parent hq hmem
      have hnf := h d hd
      cases he : fs.entry d with
      | none => simp [hd]
      | some e =>
          cases e with
          | directory => simp
          | file c => simp [isFile, file, he] at hnf
    · rw [if_neg (fun hc => hmem hc.1)] at hs
      have := fs.parent_dir hq hs
      simp [this]

def createDirectory (p : AbsolutePath) : Except IoErrorKind MemFs :=
  if h : fs.CanCreate p then .ok (fs.putDirectories p h) else .error .notADirectory

theorem createDirectory_ok (h : fs.createDirectory p = .ok fs') (q : AbsolutePath) : fs'.entry q = fs.entry q ∨
      (fs.entry q = none ∧ fs'.entry q = some .directory ∧ (q = p ∨ q.isAncestor p)) := by
  unfold createDirectory at h
  split_ifs at h
  cases h
  by_cases hq : q ∈ p :: p.ancestors ∧ fs.entry q = none
  · exact Or.inr ⟨hq.2, if_pos hq, List.mem_cons.mp hq.1⟩
  · exact Or.inl (if_neg hq)

/-! ### Removing -/

/-- The file system without the file at a path. -/
def removeFile (p : AbsolutePath) (h : fs.isFile p) : MemFs where
  entry q := if q = p then none else fs.entry q
  root_dir := by
    have hne : AbsolutePath.root ≠ p := by
      rintro rfl
      obtain ⟨c, hc⟩ := fs.isFile_iff.mp h
      rw [fs.root_dir] at hc
      cases hc
    rw [if_neg hne]
    exact fs.root_dir
  parent_dir := by
    intro q d hq hs
    obtain ⟨c, hc⟩ := fs.isFile_iff.mp h
    have hqp : q ≠ p := by
      rintro rfl
      simp at hs
    rw [if_neg hqp] at hs
    have hdir := fs.parent_dir hq hs
    have hdp : d ≠ p := by
      rintro rfl
      rw [hc] at hdir
      cases hdir
    rw [if_neg hdp]
    exact hdir

/-- `remove` without options.  The callers check first that the path is no directory. -/
def remove (p : AbsolutePath) : Except IoErrorKind MemFs :=
  if h : fs.isFile p then .ok (fs.removeFile p h)
  else if fs.entry p = some .directory then .error .isADirectory
  else .error (fs.missing p)

theorem remove_ok (h : fs.remove p = .ok fs') (q : AbsolutePath) :
    fs'.entry q = if q = p then none else fs.entry q := by
  unfold remove at h
  split_ifs at h
  cases h
  rfl

end MemFs

/-! ### What an operation leaves alone -/

/-- The entry at `q` is the same in both file systems, or a directory was created there above
one of the paths `ps`. -/
def SameAt (ps : AbsolutePath → Prop) (fs fs' : MemFs) (q : AbsolutePath) : Prop :=
  fs'.entry q = fs.entry q ∨
    (fs.entry q = none ∧ fs'.entry q = some .directory ∧ ∃ p, ps p ∧ q.isAncestor p)

theorem SameAt.refl (ps : AbsolutePath → Prop) (fs : MemFs) (q : AbsolutePath) : SameAt ps fs fs q :=
  Or.inl rfl

variable {ps : AbsolutePath → Prop} {q : AbsolutePath}

theorem SameAt.trans {fs₁ fs₂ fs₃ : MemFs}
    (h₁ : SameAt ps fs₁ fs₂ q) (h₂ : SameAt ps fs₂ fs₃ q) : SameAt ps fs₁ fs₃ q := by
  rcases h₁ with e₁ | ⟨n₁, d₁, a₁⟩
  · rcases h₂ with e₂ | ⟨n₂, d₂, a₂⟩
    · exact Or.inl (e₂.trans e₁)
    · exact Or.inr ⟨e₁ ▸ n₂, d₂, a₂⟩
  · rcases h₂ with e₂ | ⟨n₂, _, _⟩
    · exact Or.inr ⟨n₁, e₂.trans d₁, a₁⟩
    · rw [d₁] at n₂
      cases n₂

variable {fs fs' : MemFs}

theorem SameAt.mono {ps' : AbsolutePath → Prop}
    (h : SameAt ps fs fs' q) (hps : ∀ p, ps p → ps' p) : SameAt ps' fs fs' q := by
  rcases h with e | ⟨n, d, p, hp, ha⟩
  · exact Or.inl e
  · exact Or.inr ⟨n, d, p, hps p hp, ha⟩

theorem SameAt.file (h : SameAt ps fs fs' q) : fs'.file q = fs.file q := by
  unfold MemFs.file
  rcases h with e | ⟨n, d, _⟩
  · rw [e]
  · rw [n, d]

end OpenAgere
