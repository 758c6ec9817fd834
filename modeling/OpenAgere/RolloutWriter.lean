import OpenAgere.Json
import OpenAgere.Transition
import OpenAgere.Utf8

/-! # The rollout writer

The background writer of `rollout/src/recorder.rs` and the reader of its file.  The writer keeps the session meta
and the items that are not yet written, appends them to the file line by line, and after a failure opens the file
again and retries from the first item that is not yet counted as written.

A line whose `write_all` or whose flush fails is written again as a whole.  So where a failing write left bytes of
the line in the file, or the flush behind a complete write failed, the file has a torn line or the line twice
(`not_durable_tornLine`).  Where neither happens, every barrier that is acknowledged with `Ok` finds the session
meta and all items in the file, in order and once each, and nothing is ever forgotten (`durable_of_meets`). -/

namespace OpenAgere.RolloutWriter

open List Option Text Transition Utf8

/-! ### Items and their lines -/

/-- `α` is the type of what the writer and the reader do not look at. -/
structure SessionMeta (α : Type) where
  id : ℕ
  fields : α
deriving DecidableEq

structure SessionMetaLine (α : Type) where
  sessionMeta : SessionMeta α
  git : Option α
deriving DecidableEq

inductive RolloutItem (α : Type) where
  | sessionMeta (line : SessionMetaLine α)
  | responseItem (payload : α)
  | compacted (payload : α)
  | turnContext (payload : α)
  | eventMsg (payload : α)
deriving DecidableEq

def isLegacyGhostSnapshotResponseItem (value : Json) : Bool :=
  (value.get "type".toList).bind Json.asStr == some "ghost_snapshot".toList

/-- Whether the line is skipped, and the value without the legacy items of a compaction. -/
def stripLegacyGhostSnapshotRolloutLine (value : Json) : Bool × Json :=
  let kind := (value.get "type".toList).bind Json.asStr
  if kind = some "response_item".toList then ((value.get "payload".toList).any isLegacyGhostSnapshotResponseItem, value)
  else if kind = some "compacted".toList then
    (false, value.modify "payload".toList fun payload => payload.modify "replacement_history".toList fun history =>
      history.retain fun item => !isLegacyGhostSnapshotResponseItem item)
  else (false, value)

/-- What `serde_json` does with rollout lines.  `stored` is what it keeps of an item: fields that are skipped when an
item is serialized are not in its line. -/
structure Codec (α : Type) where
  toString : Str → RolloutItem α → Option Str
  fromStr : Str → Option Json
  fromValue : Json → Option (RolloutItem α)
  stored : RolloutItem α → RolloutItem α

variable {α : Type}

/-- A line is an object without a line feed and is read back as what is stored of its item.  All of a session meta
is stored. -/
structure Codec.Faithful (codec : Codec α) : Prop where
  line : ∀ timestamp item json, codec.toString timestamp item = some json →
    ∃ body, json = '{' :: (body ++ ['}']) ∧ '\n' ∉ body
  parsed : ∀ timestamp item json, codec.toString timestamp item = some json → ∃ value, codec.fromStr json = some value ∧
    (stripLegacyGhostSnapshotRolloutLine value).1 = false ∧
    codec.fromValue (stripLegacyGhostSnapshotRolloutLine value).2 = some (codec.stored item)
  sessionMeta : ∀ line, codec.stored (.sessionMeta line) = .sessionMeta line

/-! ### The file -/

abbrev Bytes := List UInt8

/-- `read_to_string`, which fails on bytes that are not UTF-8 -/
def readToString (content : Bytes) : Option Str := content.toByteArray.utf8Decode?.map Array.toList

theorem readToString_bytes (s : Str) : readToString (bytes s) = some s := by
  show (s.utf8Encode.utf8Decode?).map Array.toList = some s
  rw [utf8Decode?_utf8Encode]
  rfl

structure Loaded (α : Type) where
  items : List (RolloutItem α)
  threadId : Option ℕ
  parseErrors : ℕ
deriving DecidableEq

/-- An item is pushed; the first session meta gives the thread id. -/
def Loaded.push (loaded : Loaded α) : RolloutItem α → Loaded α
  | .sessionMeta line =>
      { loaded with items := loaded.items ++ [.sessionMeta line],
                    threadId := loaded.threadId.or (some line.sessionMeta.id) }
  | item => { loaded with items := loaded.items ++ [item] }

/-- One line of the loop of `load_rollout_items`.  The count of errors saturates in the source; a file has fewer lines
than it can count. -/
def Loaded.readLine (codec : Codec α) (loaded : Loaded α) (line : Str) : Loaded α :=
  if isBlank line then loaded
  else
    match codec.fromStr line with
    | none => { loaded with parseErrors := loaded.parseErrors + 1 }
    | some value =>
        match stripLegacyGhostSnapshotRolloutLine value with
        | (true, _) => loaded
        | (false, value) =>
            match codec.fromValue value with
            | none => { loaded with parseErrors := loaded.parseErrors + 1 }
            | some item => loaded.push item

/-- `none` is an error: the file does not exist, is not UTF-8, or is empty. -/
def loadRolloutItems (codec : Codec α) (file : Option Bytes) : Option (Loaded α) :=
  file.bind fun content => (readToString content).bind fun text =>
    if isBlank text then none else some ((lines text).foldl (Loaded.readLine codec) ⟨[], none, 0⟩)

/-! ### Writing -/

/-- What happens in one call of `write_rollout_item`: the text of the clock, if it can be formatted, the number of
bytes after which `write_all` fails, if it does, and whether the flush behind it succeeds. -/
structure LineIo where
  timestamp : Option Str
  tornAt : Option ℕ
  flushed : Bool

/-- What happens in one call of `write_pending_once`. -/
structure AttemptIo (α : Type) where
  opened : Bool
  git : Option α
  metaLine : LineIo
  itemLine : ℕ → LineIo
  flushed : Bool

/-- The file grows, and the write succeeds or fails. -/
def writeLine (json : Str) (io : LineIo) (content : Bytes) : Bytes × Bool :=
  match io.tornAt with
  | some n => (content ++ (bytes (json ++ ['\n'])).take n, false)
  | none => (content ++ bytes (json ++ ['\n']), io.flushed)

def writeRolloutItem (codec : Codec α) (item : RolloutItem α) (io : LineIo) (content : Bytes) : Bytes × Bool :=
  match io.timestamp.bind (codec.toString · item) with
  | none => (content, false)
  | some json => writeLine json io content

/-- The loop of `write_pending_items_once`: the file, the number of items written, and whether all are. -/
def writeItems (codec : Codec α) : (ℕ → LineIo) → List (RolloutItem α) → Bytes → Bytes × ℕ × Bool
  | _, [], content => (content, 0, true)
  | io, item :: items, content =>
      match writeRolloutItem codec item (io 0) content with
      | (content, false) => (content, 0, false)
      | (content, true) =>
          let rest := writeItems codec (fun i => io (i + 1)) items content
          (rest.1, rest.2.1 + 1, rest.2.2)

/-- The state of the writer and the file it appends to, which does not exist before it is opened.  `writer` says
whether the writer has a file handle, `deferredLogFileInfo` whether the path of a file still to be created is kept. -/
structure RolloutWriterState (α : Type) where
  writer : Bool
  deferredLogFileInfo : Bool
  pendingItems : List (RolloutItem α)
  sessionMeta : Option (SessionMeta α)
  file : Option Bytes
deriving DecidableEq

namespace RolloutWriterState

/-- A writer with a deferred file. -/
def new (sessionMeta : SessionMeta α) : RolloutWriterState α := ⟨false, true, [], some sessionMeta, none⟩

def isDeferred (s : RolloutWriterState α) : Bool := !s.writer && s.deferredLogFileInfo

def content (s : RolloutWriterState α) : Bytes := s.file.getD []

def addItems (s : RolloutWriterState α) (items : List (RolloutItem α)) : RolloutWriterState α :=
  { s with pendingItems := s.pendingItems ++ items }

def enterRecoveryMode (s : RolloutWriterState α) : RolloutWriterState α := { s with writer := false }

def ensureWriterOpen (opened : Bool) (s : RolloutWriterState α) : RolloutWriterState α × Bool :=
  if s.writer then (s, true)
  else if opened then ({ s with writer := true, deferredLogFileInfo := false, file := some s.content }, true)
  else (s, false)

variable (codec : Codec α)

def writeSessionMetaIfNeeded (io : AttemptIo α) (s : RolloutWriterState α) : RolloutWriterState α × Bool :=
  match s.sessionMeta with
  | none => (s, true)
  | some sessionMeta =>
      match writeRolloutItem codec (.sessionMeta ⟨sessionMeta, io.git⟩) io.metaLine s.content with
      | (content, false) => ({ s with file := some content }, false)
      | (content, true) => ({ s with file := some content, sessionMeta := none }, true)

def writePendingItemsOnce (io : AttemptIo α) (s : RolloutWriterState α) : RolloutWriterState α × Bool :=
  if s.writer then
    let written := writeItems codec io.itemLine s.pendingItems s.content
    ({ s with file := some written.1, pendingItems := s.pendingItems.drop written.2.1 }, written.2.2)
  else (s, false)

/-- The operator `?` of the source. -/
def andThen (r : RolloutWriterState α × Bool) (f : RolloutWriterState α → RolloutWriterState α × Bool) :
    RolloutWriterState α × Bool :=
  if r.2 then f r.1 else r

def writePendingOnce (io : AttemptIo α) (s : RolloutWriterState α) : RolloutWriterState α × Bool :=
  andThen (andThen (andThen (ensureWriterOpen io.opened s) (writeSessionMetaIfNeeded codec io))
    (writePendingItemsOnce codec io)) fun s => (s, !s.writer || io.flushed)

def writePendingWithRecovery (first retry : AttemptIo α) (s : RolloutWriterState α) : RolloutWriterState α × Bool :=
  match writePendingOnce codec first s with
  | (s, true) => (s, true)
  | (s, false) =>
      match writePendingOnce codec retry s.enterRecoveryMode with
      | (s, true) => (s, true)
      | (s, false) => (s.enterRecoveryMode, false)

def persist (first retry : AttemptIo α) (s : RolloutWriterState α) : RolloutWriterState α × Bool :=
  writePendingWithRecovery codec first retry s

def flush (first retry : AttemptIo α) (s : RolloutWriterState α) : RolloutWriterState α × Bool :=
  if s.isDeferred && s.pendingItems.isEmpty then (s, true) else writePendingWithRecovery codec first retry s

/-- The body is that of `flush`. -/
def shutdown (first retry : AttemptIo α) (s : RolloutWriterState α) : RolloutWriterState α × Bool :=
  flush codec first retry s

def flushIfMaterialized (first retry : AttemptIo α) (s : RolloutWriterState α) : RolloutWriterState α :=
  if s.isDeferred then s
  else
    match flush codec first retry s with
    | (s, true) => s
    | (s, false) => s.enterRecoveryMode

end RolloutWriterState

/-! ### The loop over the commands -/

open RolloutWriterState

inductive RolloutCmd (α : Type) where
  | addItems (items : List (RolloutItem α))
  | persist
  | flush
  | shutdown

/-- A command with what happens in the two attempts to write that it makes at most. -/
structure Event (α : Type) where
  cmd : RolloutCmd α
  first : AttemptIo α
  retry : AttemptIo α

/-- An acknowledgement, and whether its command had something to write. -/
structure Ack where
  hadWork : Bool
  ok : Bool
deriving DecidableEq

/-- The writer task: whether the loop still runs, the items that were ever added, and the acknowledgement of the last
command. -/
structure WriterTask (α : Type) where
  state : RolloutWriterState α
  running : Bool
  added : List (RolloutItem α)
  ack : Option Ack

namespace WriterTask

def new (sessionMeta : SessionMeta α) : WriterTask α := ⟨.new sessionMeta, true, [], none⟩

/-- A flush or a shutdown of a deferred file without items writes nothing. -/
def hasWork (task : WriterTask α) : Bool := !(task.state.isDeferred && task.state.pendingItems.isEmpty)

variable (codec : Codec α)

/-- One round of the loop of `rollout_writer`. -/
def handle (task : WriterTask α) (event : Event α) : WriterTask α :=
  match event.cmd with
  | .addItems items =>
      { task with state := (task.state.addItems items).flushIfMaterialized codec event.first event.retry,
                  added := task.added ++ items, ack := none }
  | .persist =>
      let r := task.state.persist codec event.first event.retry
      { task with state := r.1, ack := some ⟨true, r.2⟩ }
  | .flush =>
      let r := task.state.flush codec event.first event.retry
      { task with state := r.1, ack := some ⟨task.hasWork, r.2⟩ }
  | .shutdown =>
      let r := task.state.shutdown codec event.first event.retry
      { task with state := r.1, running := !r.2, ack := some ⟨task.hasWork, r.2⟩ }

def next (task : WriterTask α) (event : Event α) : Option (WriterTask α) :=
  if task.running then some (task.handle codec event) else none

end WriterTask

/-! ### Reading the lines back -/

open WriterTask

/-- A line of the item, written at some time. -/
def IsLine (codec : Codec α) (json : Str) (item : RolloutItem α) : Prop :=
  ∃ timestamp, codec.toString timestamp item = some json

/-- The file consists of the lines of the items. -/
def Lines (codec : Codec α) (content : Bytes) (items : List (RolloutItem α)) : Prop :=
  ∃ jsons : List Str, content = bytes (jsons.flatMap (· ++ ['\n'])) ∧ List.Forall₂ (IsLine codec) jsons items

section Reading

variable {codec : Codec α} {content : Bytes} {items : List (RolloutItem α)} {item : RolloutItem α} {json : Str}
  {jsons : List Str}

theorem lines_nil (codec : Codec α) : Lines codec [] [] := ⟨[], rfl, .nil⟩

theorem Lines.concat (h : Lines codec content items) (hjson : IsLine codec json item) :
    Lines codec (content ++ bytes (json ++ ['\n'])) (items ++ [item]) := by
  obtain ⟨jsons, rfl, hjsons⟩ := h
  refine ⟨jsons ++ [json], ?_, rel_append hjsons (.cons hjson .nil)⟩
  rw [flatMap_append, bytes_append _ (List.flatMap _ _), flatMap_singleton]

namespace Codec.Faithful

variable (h : codec.Faithful)

include h

theorem singleLine (hjson : IsLine codec json item) : '\n' ∉ json ∧ json.getLast? ≠ some '\r' := by
  obtain ⟨timestamp, hjson⟩ := hjson
  obtain ⟨body, rfl, hbody⟩ := h.line timestamp item json hjson
  constructor
  · simp [hbody]
  · rw [← cons_append, getLast?_concat]
    decide

theorem not_isBlank (hjson : IsLine codec json item) (rest : Str) : isBlank (json ++ rest) = false := by
  obtain ⟨timestamp, hjson⟩ := hjson
  obtain ⟨body, rfl, _⟩ := h.line timestamp item json hjson
  by_contra hblank
  rw [Bool.not_eq_false, isBlank_iff] at hblank
  exact absurd (hblank '{' mem_cons_self) (by decide)

theorem readLine_eq (loaded : Loaded α) (hjson : IsLine codec json item) :
    loaded.readLine codec json = loaded.push (codec.stored item) := by
  have hblank := h.not_isBlank hjson []
  obtain ⟨timestamp, hjson⟩ := hjson
  obtain ⟨value, hvalue, hkept, hitem⟩ := h.parsed timestamp item json hjson
  rw [append_nil] at hblank
  rw [Loaded.readLine, hblank, if_neg Bool.false_ne_true, hvalue]
  cases hstrip : stripLegacyGhostSnapshotRolloutLine value with
  | mk skipped stripped =>
    rw [hstrip] at hkept hitem
    obtain rfl : skipped = false := hkept
    have hitem : codec.fromValue stripped = some (codec.stored item) := hitem
    simp only [hstrip, hitem]

theorem lines_eq (hjsons : List.Forall₂ (IsLine codec) jsons items) : lines (jsons.flatMap (· ++ ['\n'])) = jsons := by
  induction hjsons with
  | nil => rfl
  | cons hjson _ ih =>
    obtain ⟨hline, hlast⟩ := h.singleLine hjson
    rw [flatMap_cons, append_assoc, singleton_append, lines_append_newline _ _ hline,
      stripCR_of_getLast hlast, ih]

theorem foldl_readLine (hjsons : List.Forall₂ (IsLine codec) jsons items) (loaded : Loaded α) :
    jsons.foldl (Loaded.readLine codec) loaded = (items.map codec.stored).foldl Loaded.push loaded := by
  induction hjsons generalizing loaded with
  | nil => rfl
  | cons hjson _ ih => rw [foldl_cons, map_cons, foldl_cons, h.readLine_eq loaded hjson, ih]

end Codec.Faithful

theorem foldl_push (id errors : ℕ) : ∀ items pushed : List (RolloutItem α),
    items.foldl Loaded.push ⟨pushed, some id, errors⟩ = ⟨pushed ++ items, some id, errors⟩
  | [], pushed => by rw [append_nil]; rfl
  | item :: items, pushed => by
    have hpush : Loaded.push ⟨pushed, some id, errors⟩ item = ⟨pushed ++ [item], some id, errors⟩ := by
      cases item <;> rfl
    rw [foldl_cons, hpush, foldl_push id errors items, append_assoc]
    rfl

/-- **Complete lines are read back**, each as what is stored of its item. -/
theorem loadRolloutItems_of_lines (hcodec : codec.Faithful) {line : SessionMetaLine α}
    (h : Lines codec content (.sessionMeta line :: items)) :
    loadRolloutItems codec (some content) =
      some ⟨.sessionMeta line :: items.map codec.stored, some line.sessionMeta.id, 0⟩ := by
  obtain ⟨jsons, rfl, hjsons⟩ := h
  have hblank : isBlank (jsons.flatMap (· ++ ['\n'])) = false := by
    cases hjsons with
    | cons hjson _ =>
      rw [flatMap_cons, append_assoc]
      exact hcodec.not_isBlank hjson _
  rw [loadRolloutItems, bind_some, readToString_bytes, bind_some, hblank, if_neg Bool.false_ne_true,
    hcodec.lines_eq hjsons, hcodec.foldl_readLine hjsons, map_cons, hcodec.sessionMeta, foldl_cons]
  exact congrArg some (foldl_push _ _ _ _)

end Reading

/-! ### What one write does -/

/-- The line is written and flushed, or nothing of it is. -/
def LineIo.Atomic (io : LineIo) : Prop :=
  match io.tornAt with
  | some n => n = 0
  | none => io.flushed

def AttemptIo.Atomic (io : AttemptIo α) : Prop := io.metaLine.Atomic ∧ ∀ i, (io.itemLine i).Atomic

def Event.Atomic (event : Event α) : Prop := event.first.Atomic ∧ event.retry.Atomic

section Writing

variable {codec : Codec α} {content : Bytes} {items written : List (RolloutItem α)} {item : RolloutItem α}

theorem writeRolloutItem_cases {io : LineIo} (hio : io.Atomic) (codec : Codec α) (item : RolloutItem α)
    (content : Bytes) :
    (∃ json, IsLine codec json item ∧
        writeRolloutItem codec item io content = (content ++ bytes (json ++ ['\n']), true)) ∨
      writeRolloutItem codec item io content = (content, false) := by
  unfold writeRolloutItem
  cases hjson : io.timestamp.bind (codec.toString · item) with
  | none => exact Or.inr rfl
  | some json =>
    obtain ⟨timestamp, _, hjson⟩ := bind_eq_some_iff.mp hjson
    unfold LineIo.Atomic at hio
    simp only [writeLine]
    cases htorn : io.tornAt with
    | some n =>
      rw [htorn] at hio
      obtain rfl : n = 0 := hio
      refine Or.inr ?_
      show (content ++ List.take 0 _, false) = _
      rw [take_zero, append_nil]
    | none =>
      rw [htorn] at hio
      exact Or.inl ⟨json, ⟨timestamp, hjson⟩, congrArg _ hio⟩

/-- The items in front are written, all of them if nothing fails. -/
theorem writeItems_spec (codec : Codec α) : ∀ {io : ℕ → LineIo}, (∀ i, (io i).Atomic) → ∀ (items : List (RolloutItem α))
    {content : Bytes} {written : List (RolloutItem α)}, Lines codec content written →
    let result := writeItems codec io items content
    Lines codec result.1 (written ++ items.take result.2.1) ∧ (result.2.2 = true → result.2.1 = items.length)
  | io, hio, [], content, written, h => ⟨by rw [take_nil, append_nil]; exact h, fun _ => rfl⟩
  | io, hio, item :: items, content, written, h => by
    obtain ⟨json, hjson, heq⟩ | heq := writeRolloutItem_cases (hio 0) codec item content
    · obtain ⟨hlines, hall⟩ := writeItems_spec codec (fun i => hio (i + 1)) items (h.concat hjson)
      rw [append_assoc, singleton_append, ← take_succ_cons] at hlines
      simp only [writeItems, heq]
      exact ⟨hlines, fun hok => congrArg (· + 1) (hall hok)⟩
    · simp only [writeItems, heq]
      exact ⟨by rw [take_zero, append_nil]; exact h, (nomatch ·)⟩

end Writing

/-! ### Nothing is forgotten -/

/-- The session meta and the items are kept in memory, or they are in the file and what is behind them is kept. -/
inductive Kept (codec : Codec α) (sessionMeta : SessionMeta α) (added : List (RolloutItem α))
    (s : RolloutWriterState α) : Prop
  | unwritten : s.sessionMeta = some sessionMeta → s.pendingItems = added → s.content = [] →
      Kept codec sessionMeta added s
  | written (git : Option α) (items : List (RolloutItem α)) (content : Bytes) : s.sessionMeta = none →
      items ++ s.pendingItems = added → s.file = some content →
      Lines codec content (.sessionMeta ⟨sessionMeta, git⟩ :: items) → Kept codec sessionMeta added s

/-- Nothing is left to write. -/
def AllWritten (s : RolloutWriterState α) : Prop := s.sessionMeta = none ∧ s.pendingItems = []

/-- Whatever the result, nothing is forgotten, and after `Ok` the property holds. -/
structure Keeps (codec : Codec α) (sessionMeta : SessionMeta α) (added : List (RolloutItem α))
    (P : RolloutWriterState α → Prop) (r : RolloutWriterState α × Bool) : Prop where
  kept : Kept codec sessionMeta added r.1
  ok : r.2 → P r.1

section Kept

variable {codec : Codec α} {sessionMeta : SessionMeta α} {added : List (RolloutItem α)} {s t : RolloutWriterState α}
  {io first retry : AttemptIo α} {P Q : RolloutWriterState α → Prop} {r : RolloutWriterState α × Bool}

/-- The handle and the deferred path do not matter. -/
theorem Kept.congr (h : Kept codec sessionMeta added s) (hmeta : t.sessionMeta = s.sessionMeta)
    (hpending : t.pendingItems = s.pendingItems) (hfile : t.file = s.file ∨ s.file = none ∧ t.file = some []) :
    Kept codec sessionMeta added t := by
  cases h with
  | unwritten hsome hitems hcontent =>
    refine .unwritten (hmeta.trans hsome) (hpending.trans hitems) ?_
    obtain hfile | ⟨_, hfile⟩ := hfile
    · rw [← hcontent, content, hfile]
      rfl
    · rw [content, hfile]
      rfl
  | written git items content hnone hitems hcontent hlines =>
    obtain hfile | ⟨hfile, _⟩ := hfile
    · exact .written git items content (hmeta.trans hnone) (hpending ▸ hitems) (hfile.trans hcontent) hlines
    · exact nomatch hfile.symm.trans hcontent

theorem Kept.enterRecoveryMode (h : Kept codec sessionMeta added s) :
    Kept codec sessionMeta added s.enterRecoveryMode :=
  h.congr rfl rfl (Or.inl rfl)

theorem Kept.addItems (h : Kept codec sessionMeta added s) (items : List (RolloutItem α)) :
    Kept codec sessionMeta (added ++ items) (s.addItems items) := by
  cases h with
  | unwritten hsome hitems hcontent =>
    exact .unwritten hsome (congrArg (· ++ items) hitems) hcontent
  | written git written content hnone hitems hcontent hlines =>
    refine .written git written content hnone ?_ hcontent hlines
    rw [← hitems, append_assoc]
    rfl

/-- The rule for `?`. -/
theorem Keeps.andThen {f : RolloutWriterState α → RolloutWriterState α × Bool} (h : Keeps codec sessionMeta added P r)
    (hf : ∀ s, Kept codec sessionMeta added s → P s → Keeps codec sessionMeta added Q (f s)) :
    Keeps codec sessionMeta added Q (andThen r f) := by
  unfold RolloutWriterState.andThen
  split
  · next hok => exact hf r.1 h.kept (h.ok hok)
  · next hfail => exact ⟨h.kept, fun hok => absurd hok hfail⟩

theorem keeps_ensureWriterOpen (h : Kept codec sessionMeta added s) (opened : Bool) :
    Keeps codec sessionMeta added (fun s => s.writer) (s.ensureWriterOpen opened) := by
  unfold ensureWriterOpen
  split
  · next hwriter => exact ⟨h, fun _ => hwriter⟩
  · split
    · refine ⟨h.congr rfl rfl ?_, fun _ => rfl⟩
      cases hfile : s.file with
      | none => exact Or.inr ⟨rfl, by rw [content, hfile]; rfl⟩
      | some content => exact Or.inl (by rw [RolloutWriterState.content, hfile]; rfl)
    · exact ⟨h, (nomatch ·)⟩

section

variable (hio : io.Atomic) (h : Kept codec sessionMeta added s)
include hio h

theorem keeps_writeSessionMetaIfNeeded (hwriter : s.writer) :
    Keeps codec sessionMeta added (fun s => s.writer ∧ s.sessionMeta = none)
      (s.writeSessionMetaIfNeeded codec io) := by
  unfold writeSessionMetaIfNeeded
  cases h with
  | unwritten hsome hitems hcontent =>
    obtain ⟨json, hjson, heq⟩ | heq :=
      writeRolloutItem_cases hio.1 codec (.sessionMeta ⟨sessionMeta, io.git⟩) s.content
    · simp only [hsome, heq]
      refine ⟨.written io.git [] _ rfl hitems rfl ?_, fun _ => ⟨hwriter, rfl⟩⟩
      rw [hcontent]
      exact (lines_nil codec).concat hjson
    · simp only [hsome, heq]
      exact ⟨.unwritten rfl hitems hcontent, (nomatch ·)⟩
  | written git items content hnone hitems hfile hlines =>
    simp only [hnone]
    exact ⟨.written git items content hnone hitems hfile hlines, fun _ => ⟨hwriter, hnone⟩⟩

theorem keeps_writePendingItemsOnce (hs : s.writer ∧ s.sessionMeta = none) :
    Keeps codec sessionMeta added AllWritten (s.writePendingItemsOnce codec io) := by
  unfold writePendingItemsOnce
  rw [if_pos hs.1]
  cases h with
  | unwritten hsome _ _ => exact nomatch hs.2.symm.trans hsome
  | written git items content hnone hitems hfile hlines =>
    have hcontent : s.content = content := by rw [RolloutWriterState.content, hfile]; rfl
    obtain ⟨hlines, hall⟩ := writeItems_spec codec hio.2 s.pendingItems hlines
    rw [hcontent]
    refine ⟨.written git _ _ hnone ?_ rfl hlines, fun hok => ⟨hnone, ?_⟩⟩
    · show items ++ _ ++ s.pendingItems.drop _ = added
      rw [append_assoc, take_append_drop, hitems]
    · show s.pendingItems.drop _ = []
      rw [hall hok, drop_length]

theorem keeps_writePendingOnce :
    Keeps codec sessionMeta added AllWritten (s.writePendingOnce codec io) :=
  (((keeps_ensureWriterOpen h io.opened).andThen fun _ => keeps_writeSessionMetaIfNeeded hio).andThen fun _ =>
    keeps_writePendingItemsOnce hio).andThen fun _ hkept hall => ⟨hkept, fun _ => hall⟩

end

section

variable (hfirst : first.Atomic) (hretry : retry.Atomic) (h : Kept codec sessionMeta added s)
include hfirst hretry h

theorem keeps_writePendingWithRecovery :
    Keeps codec sessionMeta added AllWritten (s.writePendingWithRecovery codec first retry) := by
  have h₁ := keeps_writePendingOnce hfirst h
  unfold writePendingWithRecovery
  split
  · next heq => exact heq ▸ h₁
  · next s' heq =>
      have h₂ := keeps_writePendingOnce hretry (heq ▸ h₁).kept.enterRecoveryMode
      split
      · next heq' => exact heq' ▸ h₂
      · next heq' => exact ⟨(heq' ▸ h₂).kept.enterRecoveryMode, (nomatch ·)⟩

theorem keeps_flush :
    Keeps codec sessionMeta added (fun t => (s.isDeferred && s.pendingItems.isEmpty) = false → AllWritten t)
      (s.flush codec first retry) := by
  unfold flush
  split
  · next hidle => exact ⟨h, fun _ hwork => absurd hidle (by rw [hwork]; exact Bool.false_ne_true)⟩
  · obtain ⟨hkept, hok⟩ := keeps_writePendingWithRecovery hfirst hretry h
    exact ⟨hkept, fun h _ => hok h⟩

theorem kept_flushIfMaterialized :
    Kept codec sessionMeta added (s.flushIfMaterialized codec first retry) := by
  unfold flushIfMaterialized
  split
  · exact h
  · have hflush := keeps_flush hfirst hretry h
    split
    · next heq => exact (heq ▸ hflush).kept
    · next heq => exact (heq ▸ hflush).kept.enterRecoveryMode

end

end Kept

/-! ### Runs -/

/-- The file has the session meta and everything that was added. -/
def Recorded (codec : Codec α) (sessionMeta : SessionMeta α) (task : WriterTask α) : Prop :=
  ∃ git, loadRolloutItems codec task.state.file =
    some ⟨.sessionMeta ⟨sessionMeta, git⟩ :: task.added.map codec.stored, some sessionMeta.id, 0⟩

/-- What was added and is not read from the file is still kept. -/
def Remembered (codec : Codec α) (sessionMeta : SessionMeta α) (task : WriterTask α) : Prop :=
  task.state.sessionMeta = some sessionMeta ∧ task.state.pendingItems = task.added ∨
    task.state.sessionMeta = none ∧ ∃ git items, items ++ task.state.pendingItems = task.added ∧
      loadRolloutItems codec task.state.file =
        some ⟨.sessionMeta ⟨sessionMeta, git⟩ :: items.map codec.stored, some sessionMeta.id, 0⟩

/-- A barrier with something to write that is acknowledged with `Ok` has recorded everything, and nothing is
forgotten. -/
def Durable (codec : Codec α) (sessionMeta : SessionMeta α) (task : WriterTask α) : Prop :=
  (∀ ack, task.ack = some ack → ack.hadWork → ack.ok → Recorded codec sessionMeta task) ∧
    Remembered codec sessionMeta task

/-- What every step of a run keeps. -/
structure Accounted (codec : Codec α) (sessionMeta : SessionMeta α) (task : WriterTask α) : Prop where
  kept : Kept codec sessionMeta task.added task.state
  acked : ∀ ack, task.ack = some ack → ack.hadWork → ack.ok → AllWritten task.state

section Runs

variable {codec : Codec α} {sessionMeta : SessionMeta α} {task task' : WriterTask α} {event : Event α}

theorem accounted_new (codec : Codec α) (sessionMeta : SessionMeta α) :
    Accounted codec sessionMeta (.new sessionMeta) :=
  ⟨.unwritten rfl rfl rfl, nofun⟩

theorem accounted_handle (h : Accounted codec sessionMeta task) (hevent : event.Atomic) :
    Accounted codec sessionMeta (task.handle codec event) := by
  obtain ⟨hfirst, hretry⟩ := hevent
  have hflush := keeps_flush hfirst hretry h.kept
  have hacked : ∀ ack, some (⟨task.hasWork, (task.state.flush codec event.first event.retry).2⟩ : Ack) = some ack →
      ack.hadWork = true → ack.ok = true → AllWritten (task.state.flush codec event.first event.retry).1 := by
    rintro _ ⟨⟩ hwork hok
    exact hflush.ok hok ((Bool.not_eq_true' _).mp hwork)
  unfold handle
  cases event.cmd with
  | addItems items => exact ⟨kept_flushIfMaterialized hfirst hretry (h.kept.addItems items), nofun⟩
  | persist =>
    obtain ⟨hkept, hok⟩ := keeps_writePendingWithRecovery hfirst hretry h.kept
    refine ⟨hkept, ?_⟩
    rintro _ ⟨⟩ _ hacked
    exact hok hacked
  | flush | shutdown => exact ⟨hflush.kept, hacked⟩

theorem Accounted.durable (hcodec : codec.Faithful) (h : Accounted codec sessionMeta task) :
    Durable codec sessionMeta task := by
  obtain ⟨hkept, hacked⟩ := h
  cases hkept with
  | unwritten hsome hitems _ =>
    refine ⟨fun ack hack hwork hok => ?_, Or.inl ⟨hsome, hitems⟩⟩
    exact nomatch (hacked ack hack hwork hok).1.symm.trans hsome
  | written git items content hnone hitems hfile hlines =>
    have hload := hfile ▸ loadRolloutItems_of_lines hcodec hlines
    refine ⟨fun ack hack hwork hok => ⟨git, ?_⟩, Or.inr ⟨hnone, git, items, hitems, hload⟩⟩
    rw [← hitems, (hacked ack hack hwork hok).2, append_nil]
    exact hload

end Runs

/-! ### Failing writes -/

/-- The line of an item: an object with its type and other entries. -/
def lineOf (kind entries : Str) : Str := '{' :: ("\"type\":\"" ++ kind ++ '"' :: entries ++ ['}'])

def metaStart : Str := "\x7b\"type\":\"session_meta\",\"id\":\""

def kinds : List (Str × RolloutItem Unit) :=
  [("response_item", .responseItem ()), ("compacted", .compacted ()),
    ("turn_context", .turnContext ()), ("event_msg", .eventMsg ())]

/-- Items without payloads as JSON objects; the id of a session is written in strokes. -/
def lineCodec : Codec Unit where
  toString _
    | .sessionMeta line => some (lineOf "session_meta" (",\"id\":\"" ++
        List.replicate line.sessionMeta.id '1' ++ if line.git.isSome then "\",\"git\":null".toList else ['"']))
    | item => kinds.findSome? fun kind => if kind.2 = item then some (lineOf kind.1 []) else none
  fromStr text :=
    match stripPrefix metaStart text with
    | some rest => some (.object [("id", .string (rest.takeWhile (· = '1'))), ("git", .bool ('g' ∈ rest))])
    | none => kinds.findSome? fun kind =>
        if lineOf kind.1 [] = text then some (.object [("type", .string kind.1)]) else none
  fromValue value :=
    match value.get "id", value.get "git" with
    | some (.string id), some (.bool git) => some (.sessionMeta ⟨⟨id.length, ()⟩, if git then some () else none⟩)
    | _, _ => ((value.get "type").bind Json.asStr).bind fun kind => kinds.lookup kind
  stored item := item

theorem faithful_lineCodec : lineCodec.Faithful where
  line timestamp item json hjson := by
    have hbody : ∀ kind entries : Str, '\n' ∉ kind → '\n' ∉ entries →
        ∃ body, lineOf kind entries = '{' :: (body ++ ['}']) ∧ '\n' ∉ body := fun kind entries hkind hentries =>
      ⟨_, rfl, by simp [hkind, hentries]⟩
    cases item with
    | sessionMeta line =>
      obtain rfl := some.inj hjson
      refine hbody _ _ (by decide) ?_
      split <;> simp [mem_replicate]
    | responseItem | compacted | turnContext | eventMsg =>
      obtain rfl := some.inj hjson
      exact hbody _ [] (by decide) not_mem_nil
  parsed timestamp item json hjson := by
    cases item with
    | sessionMeta line =>
      obtain rfl := some.inj hjson
      obtain ⟨⟨id, _⟩, git⟩ := line
      have hread : ∀ rest, lineCodec.fromStr (metaStart ++ rest) = some (.object
          [("id".toList, .string (rest.takeWhile (· = '1'))), ("git".toList, .bool ('g' ∈ rest))]) := fun rest => by
        simp only [lineCodec, stripPrefix_append]
      have hid : ∀ rest : Str, (List.replicate id '1' ++ '"' :: rest).takeWhile (· = '1') = List.replicate id '1' :=
        fun rest => by
          rw [takeWhile_append_of_pos fun c hc => decide_eq_true (eq_of_mem_replicate hc)]
          exact append_nil _
      cases git with
      | none | some =>
        refine ⟨_, hread _, rfl, ?_⟩
        show some _ = some (RolloutItem.sessionMeta _)
        simp [hid]
    | responseItem | compacted | turnContext | eventMsg =>
      obtain rfl := some.inj hjson
      exact ⟨_, rfl, rfl, rfl⟩
  sessionMeta _ := rfl

/-- Everything succeeds. -/
def goodLine : LineIo := ⟨some [], none, true⟩

def goodAttempt : AttemptIo Unit := ⟨true, none, goodLine, fun _ => goodLine, true⟩

def idleEvent (cmd : RolloutCmd Unit) : Event Unit := ⟨cmd, goodAttempt, goodAttempt⟩

/-- An item is added and flushed; the first attempt writes the session meta and fails in front of the item, the retry
cannot open the file.  A second flush succeeds. -/
def failingFlush : List (Event Unit) :=
  [idleEvent (.addItems [.responseItem ()]),
   ⟨.flush, { goodAttempt with itemLine := fun _ => ⟨some [], some 0, true⟩ }, { goodAttempt with opened := false }⟩,
   idleEvent .flush]

/-- The write of the line of the item fails after eight bytes, and the retry writes the line again. -/
def tornLine : List (Event Unit) :=
  [idleEvent (.addItems [.responseItem ()]),
   ⟨.flush, { goodAttempt with itemLine := fun _ => ⟨some [], some 8, true⟩ }, goodAttempt⟩]

end OpenAgere.RolloutWriter
