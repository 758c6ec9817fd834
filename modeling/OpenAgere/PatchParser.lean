import OpenAgere.Text
import OpenAgere.ScanLoop

/-! # The patch parser

The parser of `apply-patch/src/parser.rs`: it turns the text of a patch into a list of
hunks.  `parsePatchText` trims the text, cuts it into lines, checks the begin and end markers
(`checkPatchBoundariesStrict`, `checkPatchBoundariesLenient`, `checkPatchBoundariesStreaming`)
and reads one hunk after the other (`parseOneHunk`, and `parseUpdateFileChunk` for the chunks
of an update).  The two `while` loops over the remaining lines are instances of `ScanLoop.run`. -/

namespace OpenAgere.ApplyPatch

open Text

/-! ### Data model -/

inductive ParseError where
  | invalidPatchError (message : Str)
  | invalidHunkError (message : Str) (lineNumber : ℕ)
deriving DecidableEq, Repr

structure UpdateFileChunk where
  changeContext : Option Str
  oldLines : List Str
  newLines : List Str
  isEndOfFile : Bool
deriving DecidableEq, Repr

inductive Hunk where
  | addFile (path contents : Str)
  | deleteFile (path : Str)
  | updateFile (path : Str) (movePath : Option Str) (chunks : List UpdateFileChunk)
deriving DecidableEq, Repr

structure ApplyPatchArgs where
  patch : Str
  hunks : List Hunk
  workdir : Option Str
deriving DecidableEq, Repr

inductive ParseMode where
  | strict
  | lenient
  | streaming
deriving DecidableEq, Repr

/-! ### Markers -/

def beginPatchMarker : Str := "*** Begin Patch"
def endPatchMarker : Str := "*** End Patch"
def addFileMarker : Str := "*** Add File: "
def deleteFileMarker : Str := "*** Delete File: "
def updateFileMarker : Str := "*** Update File: "
def moveToMarker : Str := "*** Move to: "
def eofMarker : Str := "*** End of File"
def changeContextMarker : Str := "@@ "
def emptyChangeContextMarker : Str := "@@"

/-! ### Boundaries -/

/-- First and last line against the begin and end markers. -/
def checkStartAndEndLinesStrict (first last : Option Str) : Except ParseError Unit :=
  match first.map trim, last.map trim with
  | some f, some l =>
      if f = beginPatchMarker ∧ l = endPatchMarker then .ok ()
      else if f ≠ beginPatchMarker then
        .error (.invalidPatchError "The first line of the patch must be '*** Begin Patch'")
      else
        .error (.invalidPatchError "The last line of the patch must be '*** End Patch'")
  | some f, none =>
      if f ≠ beginPatchMarker then
        .error (.invalidPatchError "The first line of the patch must be '*** Begin Patch'")
      else
        .error (.invalidPatchError "The last line of the patch must be '*** End Patch'")
  | none, _ =>
      .error (.invalidPatchError "The last line of the patch must be '*** End Patch'")

/-- The lines between the first and the last one. -/
def innerLines (ls : List Str) : List Str := ls.tail.dropLast

def checkPatchBoundariesStrict (ls : List Str) : Except ParseError (List Str × List Str) := do
  checkStartAndEndLinesStrict ls.head? ls.getLast?
  return (ls, innerLines ls)

/-- The three spellings of the heredoc marker. -/
def isHeredocStart (l : Str) : Bool :=
  l = "<<EOF" || l = "<<'EOF'" || l = "<<\"EOF\""

def checkPatchBoundariesLenient (ls : List Str) : Except ParseError (List Str × List Str) :=
  match checkPatchBoundariesStrict ls with
  | .ok r => .ok r
  | .error e =>
      match ls.head?, ls.getLast? with
      | some f, some l =>
          if isHeredocStart f ∧ "EOF" <:+ l ∧ 4 ≤ ls.length then
            checkPatchBoundariesStrict (innerLines ls)
          else .error e
      | _, _ => .error e

def checkPatchBoundariesStreaming (ls : List Str) : Except ParseError (List Str × List Str) :=
  match ls with
  | [] => checkPatchBoundariesStrict ls
  | first :: rest =>
      if trim first = beginPatchMarker then
        if (ls.getLast?.map trim) = some endPatchMarker then .ok (ls, rest.dropLast)
        else .ok (ls, rest)
      else checkPatchBoundariesStrict ls

/-! ### Chunks -/

/-- What a diff line adds to the old and to the new lines; `none` for any other line.  An
empty line stands for an empty context line. -/
def diffLine : Str → Option (List Str × List Str)
  | [] => some ([[]], [[]])
  | ' ' :: t => some ([t], [t])
  | '+' :: t => some ([], [t])
  | '-' :: t => some ([t], [])
  | _ => none

/-- The chunk with the contribution of one diff line. -/
def UpdateFileChunk.push (chunk : UpdateFileChunk) (d : List Str × List Str) : UpdateFileChunk :=
  { chunk with oldLines := chunk.oldLines ++ d.1, newLines := chunk.newLines ++ d.2 }

def noLinesError (lineNumber : ℕ) : ParseError :=
  .invalidHunkError "Update hunk does not contain any lines" lineNumber

def unexpectedLineError (l : Str) (lineNumber : ℕ) : ParseError :=
  .invalidHunkError ("Unexpected line found in update hunk: '" ++ l ++
    "'. Every line should start with ' ' (context line), '+' (added line), or '-' (removed line)")
    lineNumber

def missingContextError (l : Str) (lineNumber : ℕ) : ParseError :=
  .invalidHunkError ("Expected update hunk to start with a @@ context marker, got: '" ++ l ++
    "'") lineNumber

/-- The `for` loop over the lines of a chunk; the counter is `parsed_lines`. -/
def chunkLoop (lineNumber : ℕ) :
    List Str → UpdateFileChunk → ℕ → Except ParseError (UpdateFileChunk × ℕ)
  | [], chunk, n => .ok (chunk, n)
  | l :: ls, chunk, n =>
      if l = eofMarker then
        if n = 0 then .error (noLinesError (lineNumber + 1))
        else .ok ({ chunk with isEndOfFile := true }, n + 1)
      else
        match diffLine l with
        | some d => chunkLoop lineNumber ls (chunk.push d) (n + 1)
        | none =>
            if n = 0 then .error (unexpectedLineError l (lineNumber + 1)) else .ok (chunk, n)

/-- The chunk header on the first line: the context and the number of lines it takes. -/
def chunkHeader (l : Str) : Option (Option Str) :=
  if l = emptyChangeContextMarker then some none
  else (stripPrefix changeContextMarker l).map some

def parseUpdateFileChunk (ls : List Str) (lineNumber : ℕ) (allowMissingContext : Bool) :
    Except ParseError (UpdateFileChunk × ℕ) :=
  match ls with
  | [] => .error (noLinesError lineNumber)
  | l :: rest =>
      match chunkHeader l with
      | some context =>
          if rest.isEmpty then .error (noLinesError (lineNumber + 1))
          else do
            let (chunk, n) ← chunkLoop lineNumber rest ⟨context, [], [], false⟩ 0
            return (chunk, n + 1)
      | none =>
          if allowMissingContext then chunkLoop lineNumber (l :: rest) ⟨none, [], [], false⟩ 0
          else .error (missingContextError l lineNumber)

/-! ### Hunks -/

/-- One round of the loop over the chunks of an update hunk; the state is `chunks` and
`parsed_lines`. -/
def updateStep (lineNumber : ℕ) (allowIncomplete : Bool) :
    List UpdateFileChunk × ℕ → List Str →
      ScanLoop.Next (List UpdateFileChunk × ℕ) (Except ParseError (List UpdateFileChunk × ℕ))
  | s, [] => .stop (.ok s)
  | (chunks, parsed), l :: ls =>
      if isBlank l then .go (chunks, parsed + 1) 1
      else if l.head? = some '*' then .stop (.ok (chunks, parsed))
      else if allowIncomplete ∧ l = "@" then .stop (.ok (chunks, parsed))
      else
        match parseUpdateFileChunk (l :: ls) (lineNumber + parsed) chunks.isEmpty with
        | .ok (chunk, n) => .go (chunks ++ [chunk], parsed + n) n
        | .error (.invalidHunkError m k) =>
            if allowIncomplete ∧ ¬ chunks.isEmpty then .stop (.ok (chunks, parsed))
            else .stop (.error (.invalidHunkError m k))
        | .error e => .stop (.error e)

/-- The loop over the chunks of an update hunk. -/
def updateLoop (lineNumber : ℕ) (allowIncomplete : Bool) (s : List UpdateFileChunk × ℕ)
    (ls : List Str) : Except ParseError (List UpdateFileChunk × ℕ) :=
  ScanLoop.run (updateStep lineNumber allowIncomplete) .ok s ls

/-- The contents of an added file and the number of `+` lines they were read from. -/
def addLoop : List Str → Str × ℕ
  | [] => ([], 0)
  | l :: ls =>
      match stripPrefix ['+'] l with
      | some t => (t ++ '\n' :: (addLoop ls).1, (addLoop ls).2 + 1)
      | none => ([], 0)

def emptyUpdateError (path : Str) (lineNumber : ℕ) : ParseError :=
  .invalidHunkError ("Update file hunk for path '" ++ path ++ "' is empty") lineNumber

def invalidHeaderError (l : Str) (lineNumber : ℕ) : ParseError :=
  .invalidHunkError ("'" ++ l ++
    "' is not a valid hunk header. Valid hunk headers: '*** Add File: \x7bpath\x7d', '*** Delete File: \x7bpath\x7d', '*** Update File: \x7bpath\x7d'")
    lineNumber

/-- The body of an update hunk, after its optional move line. -/
def parseUpdateBody (path : Str) (movePath : Option Str) (ls : List Str) (parsed lineNumber : ℕ)
    (allowIncomplete : Bool) : Except ParseError (Hunk × ℕ) := do
  let (chunks, n) ← updateLoop lineNumber allowIncomplete ([], parsed) ls
  if chunks.isEmpty then .error (emptyUpdateError path lineNumber)
  else return (.updateFile path movePath chunks, n)

/-- One hunk from the head line and the lines after it, with the number of lines read. -/
def parseOneHunk (head : Str) (ls : List Str) (lineNumber : ℕ) (allowIncomplete : Bool) :
    Except ParseError (Hunk × ℕ) :=
  let first := trim head
  match stripPrefix addFileMarker first with
  | some path => .ok (.addFile path (addLoop ls).1, (addLoop ls).2 + 1)
  | none =>
    match stripPrefix deleteFileMarker first with
    | some path => .ok (.deleteFile path, 1)
    | none =>
      match stripPrefix updateFileMarker first with
      | some path =>
          match ls.head?.bind (stripPrefix moveToMarker) with
          | some dest => parseUpdateBody path (some dest) ls.tail 2 lineNumber allowIncomplete
          | none => parseUpdateBody path none ls 1 lineNumber allowIncomplete
      | none => .error (invalidHeaderError first lineNumber)

/-- One round of the loop over the hunks; the state is `hunks` and `line_number`. -/
def hunkStep (allowIncomplete : Bool) : List Hunk × ℕ → List Str →
    ScanLoop.Next (List Hunk × ℕ) (Except ParseError (List Hunk × ℕ))
  | s, [] => .stop (.ok s)
  | (hunks, lineNumber), l :: ls =>
      match parseOneHunk l ls lineNumber allowIncomplete with
      | .ok (hunk, n) => .go (hunks ++ [hunk], lineNumber + n) n
      | .error e => .stop (.error e)

/-- The loop over the hunks. -/
def parseHunks (allowIncomplete : Bool) (s : List Hunk × ℕ) (ls : List Str) :
    Except ParseError (List Hunk × ℕ) :=
  ScanLoop.run (hunkStep allowIncomplete) .ok s ls

def checkPatchBoundaries : ParseMode → List Str → Except ParseError (List Str × List Str)
  | .strict => checkPatchBoundariesStrict
  | .lenient => checkPatchBoundariesLenient
  | .streaming => checkPatchBoundariesStreaming

def parsePatchText (patch : Str) (mode : ParseMode) : Except ParseError ApplyPatchArgs := do
  let (patchLines, hunkLines) ← checkPatchBoundaries mode (lines (trim patch))
  let (hunks, _) ← parseHunks (mode = .streaming) ([], 2) hunkLines
  return { hunks := hunks, patch := joinLines patchLines, workdir := none }

/-- Lenient parsing for all callers (`PARSE_IN_STRICT_MODE` is false). -/
def parsePatch (patch : Str) : Except ParseError ApplyPatchArgs := parsePatchText patch .lenient

def parsePatchStreaming (patch : Str) : Except ParseError ApplyPatchArgs :=
  parsePatchText patch .streaming

/-! ### Success -/

theorem except_pure_ok {ε α : Type} {a b : α} : (pure a : Except ε α) = .ok b ↔ b = a := by
  show Except.ok a = .ok b ↔ b = a
  rw [Except.ok.injEq, eq_comm]

/-- A patch is parsed when its boundaries are found and the lines between them are hunks. -/
theorem parsePatchText_ok {t : Str} {mode : ParseMode} {args : ApplyPatchArgs} :
    parsePatchText t mode = .ok args ↔ ∃ r s, checkPatchBoundaries mode (lines (trim t)) = .ok r ∧
      parseHunks (mode = .streaming) ([], 2) r.2 = .ok s ∧ args = ⟨joinLines r.1, s.1, none⟩ := by
  unfold parsePatchText
  rw [except_bind_ok]
  constructor
  · rintro ⟨r, hr, h⟩
    obtain ⟨s, hs, h⟩ := except_bind_ok.mp h
    exact ⟨r, s, hr, hs, except_pure_ok.mp h⟩
  · rintro ⟨r, s, hr, hs, h⟩
    exact ⟨r, hr, except_bind_ok.mpr ⟨s, hs, except_pure_ok.mpr h⟩⟩

end OpenAgere.ApplyPatch
