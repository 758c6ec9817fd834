import OpenAgere.ApplyHunks

/-! # The preview of a patch

`maybe_parse_apply_patch_verified` of `apply-patch/src/invocation.rs` turns an invocation of
`apply_patch` into the changes it would make: every hunk is derived against the file system as
it is, and the changes are kept in a map keyed by the path in the header of the hunk.
`maybeParseApplyPatchVerified_direct` reduces the direct form to that loop, and
`collectChanges_live` and `collectChanges_other` say which hunk decides the change of a path. -/

namespace OpenAgere.ApplyPatch

open Text OpenAgere.Action

/-! ### Invocations -/

inductive ApplyPatchShell where
  | unix
  | powerShell
  | cmd
deriving DecidableEq, Repr

inductive ExtractHeredocError where
  | commandDidNotStartWithApplyPatch
  | failedToLoadBashGrammar
  | heredocNotUtf8
  | failedToParsePatchIntoAst
  | failedToFindHeredocBody
deriving DecidableEq, Repr

/-- The parts outside the crate: the home directory, the unified diff of two texts with one line
of context, and the bash grammar that finds the heredoc of a script. -/
structure Env where
  home : Option Str
  unifiedDiff : Str → Str → Str
  extractApplyPatchFromBash : Str → Except ExtractHeredocError (Str × Option Str)

/-- `Path::file_name`. -/
def fileName (path : Str) : Option Str :=
  match ((splitOn '/' path).filter fun c => c ≠ [] ∧ c ≠ ".").getLast? with
  | some c => if c = ".." then none else some c
  | none => none

/-- `Path::file_stem`: the name up to its last dot, unless nothing stands before that dot. -/
def fileStem (name : Str) : Str :=
  if name.take (name.length - (name.reverse.takeWhile (· ≠ '.')).length - 1) = [] then name
  else name.take (name.length - (name.reverse.takeWhile (· ≠ '.')).length - 1)

def classifyShellName (shell : Str) : Option Str :=
  (fileName shell).map fun name => toAsciiLowercase (fileStem name)

def classifyShell (shell flag : Str) : Option ApplyPatchShell :=
  (classifyShellName shell).bind fun name =>
    if (name = "bash" ∨ name = "zsh" ∨ name = "sh") ∧
        (flag = "-lc" ∨ flag = "-c") then some .unix
    else if (name = "pwsh" ∨ name = "powershell") ∧
        eqIgnoreAsciiCase flag "-command" then some .powerShell
    else if name = "cmd" ∧ eqIgnoreAsciiCase flag "/c" then some .cmd
    else none

def canSkipFlag (shell flag : Str) : Bool :=
  (classifyShellName shell).any fun name =>
    (name = "pwsh".toList ∨ name = "powershell".toList) ∧ eqIgnoreAsciiCase flag "-noprofile".toList

def parseShellScript : List Str → Option (ApplyPatchShell × Str)
  | [shell, flag, script] => (classifyShell shell flag).map (·, script)
  | [shell, skipFlag, flag, script] =>
      if canSkipFlag shell skipFlag then (classifyShell shell flag).map (·, script) else none
  | _ => none

inductive MaybeApplyPatch where
  | body (args : ApplyPatchArgs)
  | shellParseError (e : ExtractHeredocError)
  | patchParseError (e : ParseError)
  | notApplyPatch
deriving DecidableEq, Repr

/-- The heredoc of a shell script. -/
def parseScript (env : Env) (script : Str) : MaybeApplyPatch :=
  match env.extractApplyPatchFromBash script with
  | .ok (body, workdir) =>
      match parsePatch body with
      | .ok source => .body { source with workdir := workdir }
      | .error e => .patchParseError e
  | .error .commandDidNotStartWithApplyPatch => .notApplyPatch
  | .error e => .shellParseError e

def maybeParseApplyPatch (env : Env) (argv : List Str) : MaybeApplyPatch :=
  match argv with
  | [cmd, body] =>
      if cmd = "apply_patch" ∨ cmd = "applypatch" then
        match parsePatch body with
        | .ok source => .body source
        | .error e => .patchParseError e
      else .notApplyPatch
  | _ =>
      match parseShellScript argv with
      | some (_, script) => parseScript env script
      | none => .notApplyPatch

/-! ### Changes -/

inductive FileChange where
  | add (content : Str)
  | delete (content : Str)
  | update (unifiedDiff : Str) (movePath : Option AbsolutePath) (newContent : Str)
deriving DecidableEq

/-- The map from paths to changes. -/
abbrev Changes : Type := AbsolutePath → Option FileChange

structure ApplyPatchAction where
  changes : Changes
  patch : Str
  cwd : AbsolutePath

inductive MaybeApplyPatchVerified where
  | body (action : ApplyPatchAction)
  | shellParseError (e : ExtractHeredocError)
  | correctnessError (e : ApplyPatchError)
  | notApplyPatch

section preview
variable (env : Env) (cwd : AbsolutePath) (fs : MemFs)

/-- The change of one hunk, against the file system as it is. -/
def previewHunk (hunk : Hunk) : Derive FileChange :=
  let p := hunk.resolvePath env.home cwd
  match hunk with
  | .addFile _ contents => .ok (.add contents)
  | .deleteFile _ =>
      match fs.readFileText p with
      | .ok content => .ok (.delete content)
      | .error e => .error (.error (.ioError ("Failed to read " ++ p.display) e))
  | .updateFile _ movePath chunks => do
      let r ← deriveNewContentsFromChunks p chunks fs
      return .update (env.unifiedDiff r.originalContents r.newContents)
        (movePath.map (AbsolutePath.join env.home cwd)) r.newContents

/-- The loop over the hunks; a later change of the same path replaces an earlier one. -/
def collectChanges : List Hunk → Changes → Derive Changes
  | [], changes => .ok changes
  | hunk :: hunks, changes => do
      let change ← previewHunk env cwd fs hunk
      collectChanges hunks (Function.update changes (hunk.resolvePath env.home cwd) (some change))

end preview

/-- The effective working directory of an invocation. -/
def effectiveCwd (env : Env) (cwd : AbsolutePath) (workdir : Option Str) : AbsolutePath :=
  (workdir.map (AbsolutePath.join env.home cwd)).getD cwd

/-- A raw patch, given as the command or as the script of a shell. -/
def isImplicitInvocation (argv : List Str) : Bool :=
  (match argv with
    | [body] => (parsePatch body).isOk
    | _ => false) ||
  (match parseShellScript argv with
    | some (_, script) => (parsePatch script).isOk
    | none => false)

/-- `none` is a panic. -/
def maybeParseApplyPatchVerified (env : Env) (argv : List Str) (cwd : AbsolutePath) (fs : MemFs) :
    Option MaybeApplyPatchVerified :=
  if isImplicitInvocation argv then some (.correctnessError .implicitInvocation)
  else
    match maybeParseApplyPatch env argv with
    | .body args =>
        match collectChanges env (effectiveCwd env cwd args.workdir) fs args.hunks fun _ => none with
        | .ok changes => some (.body ⟨changes, args.patch, effectiveCwd env cwd args.workdir⟩)
        | .error (.error e) => some (.correctnessError e)
        | .error .panic => none
    | .shellParseError e => some (.shellParseError e)
    | .patchParseError e => some (.correctnessError (.parseError e))
    | .notApplyPatch => some .notApplyPatch

variable {args : ApplyPatchArgs}

theorem parsePatchText_workdir {t : Str} {mode : ParseMode}
    (h : parsePatchText t mode = .ok args) : args.workdir = none := by
  obtain ⟨r, s, _, _, rfl⟩ := parsePatchText_ok.mp h
  rfl

variable {env : Env} {cwd : AbsolutePath} {fs : MemFs} {patch : Str}

/-- The direct form collects the changes of the hunks of the patch. -/
theorem maybeParseApplyPatchVerified_direct (hp : parsePatch patch = .ok args) :
    maybeParseApplyPatchVerified env ["apply_patch", patch] cwd fs =
      match collectChanges env cwd fs args.hunks fun _ => none with
      | .ok changes => some (.body ⟨changes, args.patch, cwd⟩)
      | .error (.error e) => some (.correctnessError e)
      | .error .panic => none := by
  have hi : isImplicitInvocation ["apply_patch", patch] = false := rfl
  have hm : maybeParseApplyPatch env ["apply_patch", patch] = .body args := by
    unfold maybeParseApplyPatch
    simp only [hp, true_or, if_true]
  have hw : effectiveCwd env cwd args.workdir = cwd := by
    rw [parsePatchText_workdir hp]
    rfl
  unfold maybeParseApplyPatchVerified
  rw [hi, hm]
  simp only [Bool.false_eq_true, if_false, hw]

theorem maybeParseApplyPatchVerified_body {changes : Changes} (hp : parsePatch patch = .ok args)
    (h : collectChanges env cwd fs args.hunks (fun _ => none) = .ok changes) :
    maybeParseApplyPatchVerified env ["apply_patch", patch] cwd fs =
      some (.body ⟨changes, args.patch, cwd⟩) := by
  rw [maybeParseApplyPatchVerified_direct hp, h]

/-! ### The collected changes -/

section collected
variable {env : Env} {cwd : AbsolutePath} {fs : MemFs}

theorem previewHunk_update {path : Str} {movePath : Option Str} {chunks : List UpdateFileChunk}
    {c : FileChange} (h : previewHunk env cwd fs (.updateFile path movePath chunks) = .ok c) :
    ∃ r, deriveNewContentsFromChunks (.resolvePathAgainstBase env.home path cwd) chunks fs = .ok r ∧
      c = .update (env.unifiedDiff r.originalContents r.newContents)
        (movePath.map (AbsolutePath.join env.home cwd)) r.newContents := by
  obtain ⟨r, hr, hc⟩ := except_bind_ok.mp h
  exact ⟨r, hr, except_pure_ok.mp hc⟩

variable {hunk : Hunk}

theorem collectChanges_cons {hunks : List Hunk} {ch ch' : Changes}
    (h : collectChanges env cwd fs (hunk :: hunks) ch = .ok ch') :
    ∃ c, previewHunk env cwd fs hunk = .ok c ∧ collectChanges env cwd fs hunks
      (Function.update ch (hunk.resolvePath env.home cwd) (some c)) = .ok ch' := by
  exact except_bind_ok.mp h

theorem collectChanges_total : ∀ {hunks : List Hunk} (ch : Changes),
    (∀ x ∈ hunks, (previewHunk env cwd fs x).isOk) →
    ∃ ch', collectChanges env cwd fs hunks ch = .ok ch'
  | [], ch, _ => ⟨ch, rfl⟩
  | x :: xs, ch, h => by
    unfold collectChanges
    cases hp : previewHunk env cwd fs x with
    | error e =>
      have := h x (by simp)
      simp [hp, Except.isOk, Except.toBool] at this
    | ok c => exact collectChanges_total _ fun y hy => h y (List.mem_cons_of_mem x hy)

theorem collectChanges_other {p : AbsolutePath} : ∀ {hunks : List Hunk} {ch ch' : Changes},
    collectChanges env cwd fs hunks ch = .ok ch' → (∀ x ∈ hunks, x.resolvePath env.home cwd ≠ p) →
    ch' p = ch p
  | [], ch, ch', h, _ => by
    cases h
    rfl
  | x :: xs, ch, ch', h, hp => by
    obtain ⟨c, _, h⟩ := collectChanges_cons h
    rw [collectChanges_other h fun y hy => hp y (List.mem_cons_of_mem x hy),
      Function.update_of_ne (Ne.symm (hp x (by simp)))]

/-- The last hunk of a path decides its change. -/
theorem collectChanges_live {post : List Hunk} : ∀ {pre : List Hunk} {ch ch' : Changes},
    collectChanges env cwd fs (pre ++ hunk :: post) ch = .ok ch' →
    (∀ x ∈ post, x.resolvePath env.home cwd ≠ hunk.resolvePath env.home cwd) →
    ∃ c, previewHunk env cwd fs hunk = .ok c ∧ ch' (hunk.resolvePath env.home cwd) = some c
  | [], ch, ch', h, hp => by
    obtain ⟨c, hc, h⟩ := collectChanges_cons h
    refine ⟨c, hc, ?_⟩
    rw [collectChanges_other h hp, Function.update_self]
  | x :: xs, ch, ch', h, hp => by
    obtain ⟨_, _, h⟩ := collectChanges_cons h
    exact collectChanges_live h hp

end collected

end OpenAgere.ApplyPatch
