import Mathlib.Data.List.Sort
import OpenAgere.FileSystem
import OpenAgere.PatchParser

/-! # Deriving the new contents of a file

The pure part of an update (`apply-patch/src/seek_sequence.rs` and `apply-patch/src/lib.rs`):
`seekSequence` locates lines in the file, `computeReplacements` turns the chunks of an update
into replacements of line ranges, `applyReplacements` carries them out, and `newContents` is the
text of the file afterwards.  A slice, removal or insertion out of bounds is a panic of the
source and is kept as such (`Fault.panic`). -/

namespace OpenAgere.ApplyPatch

open Text

/-- How a computation of the source can end without a value. -/
inductive Fault (ε : Type) where
  | panic
  | error (e : ε)
deriving DecidableEq, Repr

inductive ApplyPatchError where
  | parseError (e : ParseError)
  | ioError (context : Str) (source : IoErrorKind)
  | computeReplacements (message : Str)
  | implicitInvocation
deriving DecidableEq, Repr

abbrev Derive (α : Type) : Type := Except (Fault ApplyPatchError) α

/-! ### Seeking -/

def slice (ls : List Str) (i n : ℕ) : Derive (List Str) :=
  if i + n ≤ ls.length then .ok ((ls.drop i).take n) else .error .panic

/-- One pass over the positions `i, i + 1, …`, `n` of them: the first window that equals the
pattern after `norm`. -/
def seekPass (norm : Str → Str) (ls pattern : List Str) : ℕ → ℕ → Derive (Option ℕ)
  | _, 0 => .ok none
  | i, n + 1 => do
      let window ← slice ls i pattern.length
      if window.map norm = pattern.map norm then return some i
      else seekPass norm ls pattern (i + 1) n

/-- Typographic dashes, quotes and spaces as their ASCII equivalents. -/
def normaliseChar (c : Char) : Char :=
  let n := c.toNat
  if (0x2010 ≤ n ∧ n ≤ 0x2015) ∨ n = 0x2212 then '-'
  else if 0x2018 ≤ n ∧ n ≤ 0x201B then '\''
  else if 0x201C ≤ n ∧ n ≤ 0x201F then '"'
  else if n = 0xA0 ∨ (0x2002 ≤ n ∧ n ≤ 0x200A) ∨ n = 0x202F ∨ n = 0x205F ∨ n = 0x3000 then ' '
  else c

def normalise (s : Str) : Str := (trim s).map normaliseChar

/-- The four levels of matching, from the strictest. -/
def seekLevels : List (Str → Str) := [id, trimEnd, trim, normalise]

/-- The passes one after the other, until one finds a window. -/
def seekLoop (ls pattern : List Str) (i n : ℕ) : List (Str → Str) → Derive (Option ℕ)
  | [] => .ok none
  | norm :: norms => do
      match ← seekPass norm ls pattern i n with
      | some r => return some r
      | none => seekLoop ls pattern i n norms

def seekSequence (ls pattern : List Str) (start : ℕ) (eof : Bool) : Derive (Option ℕ) :=
  if pattern.isEmpty then .ok (some start)
  else if pattern.length > ls.length then .ok none
  else
    let searchStart := if eof ∧ ls.length ≥ pattern.length then ls.length - pattern.length else start
    seekLoop ls pattern searchStart (ls.length - pattern.length + 1 - searchStart) seekLevels

/-! ### Replacements -/

/-- `(start_index, old_len, new_lines)`. -/
structure Replacement where
  start : ℕ
  oldLen : ℕ
  newLines : List Str
deriving DecidableEq, Repr

def contextError (context : Str) (path : AbsolutePath) : ApplyPatchError :=
  .computeReplacements ("Failed to find context '" ++ context ++ "' in " ++ path.display)

def expectedLinesError (path : AbsolutePath) (oldLines : List Str) : ApplyPatchError :=
  .computeReplacements ("Failed to find expected lines in " ++ path.display ++ ":\n" ++
    joinLines oldLines)

def endsEmpty (ls : List Str) : Bool := ls.getLast? = some []

/-- The position after the context of a chunk. -/
def seekContext (ls : List Str) (path : AbsolutePath) (lineIndex : ℕ) : Option Str → Derive ℕ
  | none => .ok lineIndex
  | some context => do
      match ← seekSequence ls [context] lineIndex false with
      | some i => return i + 1
      | none => .error (.error (contextError context path))

/-- One round of the loop over the chunks; the state is `replacements` and `line_index`. -/
def replaceChunk (ls : List Str) (path : AbsolutePath) (s : List Replacement × ℕ)
    (chunk : UpdateFileChunk) : Derive (List Replacement × ℕ) := do
  let lineIndex ← seekContext ls path s.2 chunk.changeContext
  if chunk.oldLines.isEmpty then
    let i := if endsEmpty ls then ls.length - 1 else ls.length
    return (s.1 ++ [⟨i, 0, chunk.newLines⟩], lineIndex)
  else
    let found ← seekSequence ls chunk.oldLines lineIndex chunk.isEndOfFile
    -- The retry without the empty last line, which stands for the final newline of the file.
    let retry := found.isNone ∧ endsEmpty chunk.oldLines
    let pattern := if retry then chunk.oldLines.dropLast else chunk.oldLines
    let new := if retry ∧ endsEmpty chunk.newLines then chunk.newLines.dropLast else chunk.newLines
    let found ← if retry then seekSequence ls pattern lineIndex chunk.isEndOfFile else pure found
    match found with
    | some i => return (s.1 ++ [⟨i, pattern.length, new⟩], i + pattern.length)
    | none => .error (.error (expectedLinesError path chunk.oldLines))

def replaceChunks (ls : List Str) (path : AbsolutePath) :
    List UpdateFileChunk → List Replacement × ℕ → Derive (List Replacement × ℕ)
  | [], s => .ok s
  | chunk :: chunks, s => do
      let s ← replaceChunk ls path s chunk
      replaceChunks ls path chunks s

/-- The replacements in the order of their starts; the sort is stable. -/
def computeReplacements (ls : List Str) (path : AbsolutePath) (chunks : List UpdateFileChunk) :
    Derive (List Replacement) := do
  let (replacements, _) ← replaceChunks ls path chunks ([], 0)
  return replacements.insertionSort (·.start ≤ ·.start)

/-- `for _ in 0..old_len`: remove the line at the start while there is one. -/
def removeLines (start : ℕ) : ℕ → List Str → List Str
  | 0, ls => ls
  | n + 1, ls => removeLines start n (if start < ls.length then ls.eraseIdx start else ls)

/-- Insert lines one after the other; `Vec::insert` panics past the end. -/
def insertLines : ℕ → List Str → List Str → Derive (List Str)
  | _, [], ls => .ok ls
  | i, l :: new, ls =>
      if i ≤ ls.length then insertLines (i + 1) new (ls.insertIdx i l) else .error .panic

/-- The replacements, from the last one to the first. -/
def applyReplacements (ls : List Str) : List Replacement → Derive (List Str)
  | [] => .ok ls
  | r :: rs => do
      let ls ← applyReplacements ls rs
      insertLines r.start r.newLines (removeLines r.start r.oldLen ls)

/-- The lines of a file, without the empty one after a final newline. -/
def originalLines (contents : Str) : List Str :=
  if endsEmpty (splitOn '\n' contents) then (splitOn '\n' contents).dropLast else splitOn '\n' contents

def newContents (path : AbsolutePath) (chunks : List UpdateFileChunk) (contents : Str) : Derive Str := do
  let replacements ← computeReplacements (originalLines contents) path chunks
  let ls ← applyReplacements (originalLines contents) replacements
  return joinLines (if endsEmpty ls then ls else ls ++ [[]])

structure AppliedPatch where
  originalContents : Str
  newContents : Str
deriving DecidableEq, Repr

def readError (path : AbsolutePath) (e : IoErrorKind) : ApplyPatchError :=
  .ioError ("Failed to read file to update " ++ path.display) e

def deriveNewContentsFromChunks (path : AbsolutePath) (chunks : List UpdateFileChunk) (fs : MemFs) :
    Derive AppliedPatch :=
  match fs.readFileText path with
  | .error e => .error (.error (readError path e))
  | .ok contents => do
      let new ← newContents path chunks contents
      return ⟨contents, new⟩

/-- The new contents depend on the file at the path only. -/
theorem deriveNewContentsFromChunks_ok {path : AbsolutePath} {chunks : List UpdateFileChunk} {fs : MemFs}
    {r : AppliedPatch} : deriveNewContentsFromChunks path chunks fs = .ok r ↔
      fs.file path = some (.text r.originalContents) ∧
        newContents path chunks r.originalContents = .ok r.newContents := by
  unfold deriveNewContentsFromChunks
  cases hr : fs.readFileText path with
  | error e =>
    simp only [reduceCtorEq, false_iff, not_and]
    intro h
    rw [fs.readFileText_ok.mpr h] at hr
    cases hr
  | ok s =>
    rw [fs.readFileText_ok.mp hr, Option.some.injEq, Contents.text.injEq]
    dsimp only
    rw [except_bind_ok]
    constructor
    · rintro ⟨new, hn, h⟩
      obtain rfl := except_pure_ok.mp h
      exact ⟨rfl, hn⟩
    · rintro ⟨rfl, hn⟩
      exact ⟨r.newContents, hn, rfl⟩

end OpenAgere.ApplyPatch
