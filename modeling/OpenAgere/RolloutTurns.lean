import OpenAgere.RolloutReplay
import OpenAgere.UndoStack

/-! # Turns that survive

A rollout whose items are those of turns, each from its start to its end, with rollbacks between them.
Read forward, such a rollout keeps a stack of turns, from which a rollback takes the newest turns up to
and with the last of the turns of a user that it names.  The settings found for the next turn are those
of the newest turn of a user on the stack that has a turn context, and the baseline is the newest on the
stack; a compaction without replacement history in the part that is replayed clears it
(`reconstruct_turns`).  That part is told by the entries: it starts behind the newest replacement history
of the oldest turn that is read and has one, and a turn is not read once the turns behind it tell
everything.  The identifiers of the turns need not differ. -/

namespace OpenAgere.Reconstruction

open List Option Models Rollout UndoStack

/-! ### Rollouts of turns -/

/-- What can stand between the start and the end of the turn `id`. -/
def Inside (id : Str) : RolloutItem → Prop
  | .turnContext ctx => ctx.turnId = some id
  | .eventMsg (.turnStarted _ _) => False
  | .eventMsg (.turnComplete _ _ _) => False
  | .eventMsg (.turnAborted _ _ _) => False
  | .eventMsg (.threadRolledBack _) => False
  | _ => True

/-- What can stand between turns, other than a rollback. -/
def Idle : RolloutItem → Prop
  | .sessionMeta => True
  | .eventMsg (.turnStarted _ _) => False
  | .eventMsg (.turnComplete _ _ _) => False
  | .eventMsg (.turnAborted _ _ _) => False
  | .eventMsg (.threadRolledBack _) => False
  | .eventMsg (.userMessage _) => False
  | .eventMsg _ => True
  | _ => False

/-- How a turn ends. -/
inductive TurnEnd where
  | complete (completedAt durationMs : Option ℤ)
  | aborted (completedAt durationMs : Option ℤ)

def TurnEnd.item (id : Str) : TurnEnd → RolloutItem
  | complete completedAt durationMs => .eventMsg (.turnComplete id completedAt durationMs)
  | aborted completedAt durationMs => .eventMsg (.turnAborted (some id) completedAt durationMs)

structure Turn where
  id : Str
  startedAt : Option ℤ
  body : List RolloutItem
  ending : TurnEnd
  inside : ∀ item ∈ body, Inside id item

def Turn.items (turn : Turn) : List RolloutItem :=
  .eventMsg (.turnStarted turn.id turn.startedAt) :: (turn.body ++ [turn.ending.item turn.id])

inductive Entry where
  | turn (turn : Turn)
  | rollback (numTurns : ℕ)
  | idle (item : RolloutItem) (h : Idle item)

def Entry.items : Entry → List RolloutItem
  | turn t => t.items
  | rollback numTurns => [.eventMsg (.threadRolledBack numTurns)]
  | idle item _ => [item]

def rolloutOf (entries : List Entry) : List RolloutItem := entries.flatMap Entry.items

/-! ### The stack of turns -/

def settingsOfItem : RolloutItem → Option PreviousTurnSettings
  | .turnContext ctx => some (settingsOf ctx)
  | _ => none

/-- The baseline after an item of a turn. -/
def baselineAfter (baseline : TurnReferenceContextItem) : RolloutItem → TurnReferenceContextItem
  | .turnContext ctx => .latest ctx
  | .compacted _ => .cleared
  | _ => baseline

section turns
variable (P : Parsers)

/-- The item holds the words of a user, or the instruction of another agent. -/
def countsAsUser : RolloutItem → Bool
  | .eventMsg (.userMessage _) => true
  | .responseItem item => isUserTurnBoundary P item
  | _ => false

def Turn.isUser (turn : Turn) : Bool := turn.body.any (countsAsUser P)

/-- The settings that a turn of a user leaves. -/
def Turn.settings (turn : Turn) : Option PreviousTurnSettings :=
  if turn.isUser P then turn.body.findSome? settingsOfItem else none

/-- The baseline that a turn leaves; a turn without a user can only clear it. -/
def Turn.baseline (turn : Turn) : Option TurnReferenceContextItem :=
  match turn.body.foldl baselineAfter .neverSet with
  | .neverSet => none
  | .cleared => some .cleared
  | .latest ctx => if turn.isUser P then some (.latest ctx) else none

def Entry.move : Entry → Option (Move Turn)
  | turn t => some (.push t)
  | rollback numTurns => some (.undo numTurns)
  | idle _ _ => none

/-- The turns that survive, the newest first. -/
def survivingTurns (entries : List Entry) : List Turn := stackOf (Turn.isUser P) (entries.filterMap Entry.move)

/-- The replacement history that a turn leaves, its newest. -/
def Turn.base (turn : Turn) : Option (List ResponseItem) := (newestCheckpoint turn.body).map Prod.fst

/-- The surviving turns of these entries tell everything, so that no older entry is read. -/
def TellAll (entries : List Entry) : Prop :=
  ((survivingTurns P entries).findSome? Turn.base).isSome ∧
    ((survivingTurns P entries).findSome? (Turn.settings P)).isSome ∧
    ((survivingTurns P entries).findSome? (Turn.baseline P)).isSome

instance decidableTellAll (entries : List Entry) : Decidable (TellAll P entries) :=
  inferInstanceAs (Decidable (_ ∧ _ ∧ _))

/-- What is behind the newest replacement history of the oldest entry with one that is read. -/
def behindCheckpoint : List Entry → Option (List RolloutItem)
  | [] => none
  | entry :: after =>
      if TellAll P after then behindCheckpoint after
      else ((newestCheckpoint entry.items).map fun found => found.2 ++ rolloutOf after).or (behindCheckpoint after)

/-- The part of the rollout that is replayed. -/
def replayedItems (entries : List Entry) : List RolloutItem := (behindCheckpoint P entries).getD (rolloutOf entries)

/-- The baseline of the newest turn that leaves one. -/
def newestBaseline (turns : List Turn) : Option TurnContextItem :=
  match turns.findSome? (Turn.baseline P) with
  | some (.latest ctx) => some ctx
  | _ => none

/-! ### The segment of a turn -/

/-- What an item adds to a segment that is there. -/
def noteOn (segment : ActiveReplaySegment) (item : RolloutItem) : ActiveReplaySegment :=
  (noteItem P (some segment) item).getD segment

theorem noteItem_some (segment : ActiveReplaySegment) (item : RolloutItem) :
    noteItem P (some segment) item = some (noteOn P segment item) := by
  unfold noteOn
  cases item with
  | turnContext ctx =>
    simp only [noteItem]
    split_ifs <;> rfl
  | eventMsg event => cases event <;> rfl
  | _ => rfl

theorem noteOn_eq {id : Str} {item : RolloutItem} (h : Inside id item) {segment : ActiveReplaySegment}
    (hid : segment.turnId = some id) : (noteOn P segment item).turnId = some id ∧
      (noteOn P segment item).countsAsUserTurn = (countsAsUser P item || segment.countsAsUserTurn) ∧
      (noteOn P segment item).previousTurnSettings = (settingsOfItem item).or segment.previousTurnSettings ∧
      (noteOn P segment item).referenceContextItem =
        if segment.referenceContextItem = .neverSet then baselineAfter .neverSet item
        else segment.referenceContextItem := by
  have hkept : segment.referenceContextItem =
      if segment.referenceContextItem = .neverSet then .neverSet else segment.referenceContextItem := by
    split_ifs with hnever
    · exact hnever
    · rfl
  cases item with
  | sessionMeta => exact ⟨hid, rfl, rfl, hkept⟩
  | responseItem item => exact ⟨hid, Bool.or_comm _ _, rfl, hkept⟩
  | compacted compacted =>
    simp only [noteOn, noteItem, ActiveReplaySegment.mark, Option.getD_some]
    split_ifs <;> exact ⟨hid, rfl, rfl, rfl⟩
  | turnContext ctx =>
    have hctx : ctx.turnId = some id := h
    have hcompatible : turnIdsAreCompatible (segment.turnId.or ctx.turnId) ctx.turnId = true := by
      rw [hid, hctx]
      simp [turnIdsAreCompatible]
    simp only [noteOn, noteItem, ActiveReplaySegment.mark, Option.getD_some, hcompatible, if_true]
    rw [hid, hctx]
    split_ifs <;> exact ⟨rfl, rfl, rfl, rfl⟩
  | eventMsg event =>
    cases event with
    | turnStarted | turnComplete | turnAborted | threadRolledBack => exact h.elim
    | _ => exact ⟨hid, rfl, rfl, hkept⟩

theorem foldl_baselineAfter : ∀ (body : List RolloutItem) (baseline : TurnReferenceContextItem),
    body.foldl baselineAfter baseline =
      if body.foldl baselineAfter .neverSet = .neverSet then baseline else body.foldl baselineAfter .neverSet
  | [], _ => rfl
  | item :: body, baseline => by
    rw [foldl_cons, foldl_cons, foldl_baselineAfter body (baselineAfter baseline item),
      foldl_baselineAfter body (baselineAfter .neverSet item)]
    cases item <;> unfold baselineAfter <;> split_ifs <;> simp_all

/-- The segment that is gathered from a turn. -/
def segmentOf (id : Str) (body : List RolloutItem) : ActiveReplaySegment :=
  body.foldr (fun item segment => noteOn P segment item) { ActiveReplaySegment.default with turnId := some id }

theorem segmentOf_eq (id : Str) : ∀ body : List RolloutItem, (∀ item ∈ body, Inside id item) →
    (segmentOf P id body).turnId = some id ∧
      (segmentOf P id body).countsAsUserTurn = body.any (countsAsUser P) ∧
      (segmentOf P id body).previousTurnSettings = body.findSome? settingsOfItem ∧
      (segmentOf P id body).referenceContextItem = body.foldl baselineAfter .neverSet
  | [], _ => ⟨rfl, rfl, rfl, rfl⟩
  | item :: body, hinside => by
    obtain ⟨hitem, hbody⟩ := forall_mem_cons.mp hinside
    obtain ⟨h1, h2, h3, h4⟩ := segmentOf_eq id body hbody
    obtain ⟨hid, hcounts, hsettings, hbaseline⟩ := noteOn_eq P hitem h1
    refine ⟨hid, ?_, ?_, ?_⟩
    · rw [any_cons, ← h2]
      exact hcounts
    · refine hsettings.trans ?_
      rw [findSome?_cons, h3]
      cases settingsOfItem item <;> rfl
    · refine hbaseline.trans ?_
      rw [foldl_cons, foldl_baselineAfter body, h4]

/-! ### What is gathered -/

theorem gather_inside {id : Str} {t : Gathered} : ∀ (body after : List RolloutItem),
    (∀ item ∈ body, Inside id item) →
    gather P after = { t with active := some { ActiveReplaySegment.default with turnId := some id } } →
    gather P (body ++ after) = { t with active := some (segmentOf P id body) }
  | [], _, _, h => h
  | item :: body, after, hinside, h => by
    obtain ⟨hitem, hbody⟩ := forall_mem_cons.mp hinside
    have ih := gather_inside body after hbody h
    have hnote := noteItem_some P (segmentOf P id body) item
    show gatherItem P item (gather P (body ++ after)) = _
    rw [ih]
    show _ = { t with active := some (noteOn P (segmentOf P id body) item) }
    cases item with
    | eventMsg event =>
      cases event with
      | turnStarted | turnComplete | turnAborted | threadRolledBack => exact hitem.elim
      | _ => rw [← hnote]; rfl
    | _ => rw [← hnote]; rfl

theorem gather_turn (turn : Turn) {after : List RolloutItem} (h : (gather P after).active = none) :
    gather P (turn.items ++ after) = (gather P after).close (segmentOf P turn.id turn.body) := by
  have hending : gather P (turn.ending.item turn.id :: after) =
      { gather P after with active := some { ActiveReplaySegment.default with turnId := some turn.id } } := by
    show gatherItem P (turn.ending.item turn.id) (gather P after) = _
    cases turn.ending with
    | complete | aborted => simp only [TurnEnd.item, gatherItem, noteItem, h]; rfl
  have hbody := gather_inside P turn.body _ turn.inside hending
  show gatherItem P (.eventMsg (.turnStarted turn.id turn.startedAt))
    (gather P ((turn.body ++ [turn.ending.item turn.id]) ++ after)) = _
  rw [append_assoc, singleton_append, hbody]
  have hid := (segmentOf_eq P turn.id turn.body turn.inside).1
  have hcompatible : turnIdsAreCompatible (segmentOf P turn.id turn.body).turnId (some turn.id) = true := by
    rw [hid]
    simp [turnIdsAreCompatible]
  simp only [gatherItem, hcompatible, if_true]
  rfl

theorem gather_idle {item : RolloutItem} (hidle : Idle item) {after : List RolloutItem} :
    gather P (item :: after) = gather P after := by
  cases item with
  | sessionMeta => rfl
  | eventMsg event =>
    cases event with
    | turnStarted | turnComplete | turnAborted | threadRolledBack | userMessage => exact hidle.elim
    | _ => rfl
  | _ => exact hidle.elim

/-- What is gathered from a rollout of turns is what is read back from its stack. -/
theorem gather_rolloutOf : ∀ entries : List Entry, gather P (rolloutOf entries) =
    ⟨(readBack (Turn.isUser P) (entries.filterMap Entry.move)).1.map fun e => (segmentOf P e.1.id e.1.body, e.2),
      none, (readBack (Turn.isUser P) (entries.filterMap Entry.move)).2⟩
  | [] => rfl
  | entry :: entries => by
    have ih := gather_rolloutOf entries
    show gather P (entry.items ++ rolloutOf entries) = _
    cases entry with
    | turn t =>
      rw [show (Entry.turn t).items = t.items from rfl, gather_turn P t (by rw [ih]), ih]
      have hcounts := (segmentOf_eq P t.id t.body t.inside).2.1
      show Gathered.mk (_ ++ [_]) none (if (segmentOf P t.id t.body).countsAsUserTurn then _ else _) = _
      rw [hcounts, filterMap_cons_some (show Entry.move (.turn t) = some (.push t) from rfl)]
      show _ = Gathered.mk (map _ (_ ++ [(t, _)])) none (if t.isUser P then _ else _)
      rw [map_append]
      rfl
    | rollback numTurns =>
      show gatherItem P _ (gather P (rolloutOf entries)) = _
      rw [ih]
      rfl
    | idle item hidle =>
      rw [show (Entry.idle item hidle).items ++ rolloutOf entries = item :: rolloutOf entries from rfl,
        gather_idle P hidle, ih]
      rfl

/-! ### What is found -/

theorem survivingSettings_segmentOf (turn : Turn) (n : ℕ) :
    survivingSettings (segmentOf P turn.id turn.body, n) = if n = 0 then turn.settings P else none := by
  obtain ⟨-, hcounts, hsettings, -⟩ := segmentOf_eq P turn.id turn.body turn.inside
  unfold survivingSettings Turn.settings Turn.isUser
  rw [hcounts, hsettings]
  split_ifs <;> simp_all

theorem survivingBaseline_segmentOf (turn : Turn) (n : ℕ) :
    survivingBaseline (segmentOf P turn.id turn.body, n) = if n = 0 then turn.baseline P else none := by
  obtain ⟨-, hcounts, -, hbaseline⟩ := segmentOf_eq P turn.id turn.body turn.inside
  unfold survivingBaseline Turn.baseline Turn.isUser
  rw [hcounts, hbaseline]
  cases turn.body.foldl baselineAfter .neverSet <;> simp [ite_and]

theorem fst_newestCheckpoint (item : RolloutItem) (after : List RolloutItem) :
    (newestCheckpoint (item :: after)).map Prod.fst =
      ((newestCheckpoint after).map Prod.fst).or (replacementOf item) := by
  rw [newestCheckpoint]
  cases newestCheckpoint after <;> cases replacementOf item <;> rfl

theorem base_segmentOf (id : Str) : ∀ body : List RolloutItem,
    (segmentOf P id body).baseReplacementHistory = (newestCheckpoint body).map Prod.fst
  | [] => rfl
  | item :: body => by
    have hnote := baseOf_noteItem P (some (segmentOf P id body)) item
    rw [noteItem_some] at hnote
    rw [fst_newestCheckpoint, ← base_segmentOf id body]
    exact hnote

theorem survivingBase_segmentOf (turn : Turn) (n : ℕ) :
    survivingBase (segmentOf P turn.id turn.body, n) = if n = 0 then turn.base else none := by
  rw [survivingBase, base_segmentOf]
  rfl

/-- What the first fitting turn of the stack tells is what the first fitting segment tells. -/
theorem findSome?_segments {β : Type} (entries : List Entry) {f : ActiveReplaySegment × ℕ → Option β}
    {g : Turn → Option β}
    (h : ∀ (turn : Turn) (n : ℕ), f (segmentOf P turn.id turn.body, n) = if n = 0 then g turn else none) :
    (segments P (rolloutOf entries)).findSome? f = (survivingTurns P entries).findSome? g := by
  unfold survivingTurns
  rw [segments, gather_rolloutOf, findSome?_map, stackOf_eq_kept, findSome?_kept]
  congr 1
  funext e
  exact h e.1 e.2

theorem isSome_base_iff (turn : Turn) :
    turn.base.isSome ↔ ∃ item ∈ turn.body, (replacementOf item).isSome := by
  have hnone := newestCheckpoint_eq_none_iff turn.body
  unfold Turn.base
  rw [isSome_map, ← not_iff_not, not_isSome_iff_eq_none, hnone]
  simp

/-- Only in turns are there replacement histories. -/
theorem exists_replacement_items_iff (entry : Entry) : (∃ item ∈ entry.items, (replacementOf item).isSome) ↔
    ∃ turn, entry = .turn turn ∧ turn.base.isSome := by
  cases entry with
  | turn t =>
    have hstart : replacementOf (.eventMsg (.turnStarted t.id t.startedAt)) = none := rfl
    have hending : replacementOf (t.ending.item t.id) = none := by cases t.ending <;> rfl
    simp [isSome_base_iff, Entry.items, Turn.items, or_and_right, exists_or, hstart, hending]
  | rollback numTurns => simp [Entry.items, replacementOf]
  | idle item hidle =>
    cases item with
    | sessionMeta | eventMsg => simp [Entry.items, replacementOf]
    | _ => exact hidle.elim

/-- **When a rollout of turns is replayed as it is written**: one of its turns with a replacement history
survives, if there are any. -/
theorem checkpointSurvives_rolloutOf (entries : List Entry) : CheckpointSurvives P (rolloutOf entries) ↔
    ((∃ turn, .turn turn ∈ entries ∧ turn.base.isSome) →
      ∃ turn ∈ survivingTurns P entries, turn.base.isSome) := by
  have hsome : (∃ item ∈ rolloutOf entries, (replacementOf item).isSome) ↔
      ∃ turn, .turn turn ∈ entries ∧ turn.base.isSome := by
    have hentries : (∃ item ∈ rolloutOf entries, (replacementOf item).isSome) ↔
        ∃ entry ∈ entries, ∃ item ∈ entry.items, (replacementOf item).isSome := by
      simp only [rolloutOf, mem_flatMap]
      grind
    rw [hentries]
    simp only [exists_replacement_items_iff]
    grind
  rw [CheckpointSurvives, hsome, ← base_isSome_iff, (reverseReplay_agrees P _).1,
    findSome?_segments P entries (survivingBase_segmentOf P), findSome?_isSome_iff]

/-! ### The part that is replayed -/

theorem known_scan_iff (all : List RolloutItem) (entries : List Entry) :
    (scan P all (rolloutOf entries)).known ↔ TellAll P entries := by
  obtain ⟨hbase, hsettings, hbaseline⟩ := (scan_agrees P all (rolloutOf entries)).1
  have hfinished : (gather P (rolloutOf entries)).finished = segments P (rolloutOf entries) := by
    rw [segments, gather_rolloutOf]
  rw [hfinished] at hbase hsettings hbaseline
  rw [ReverseReplay.known, TellAll, hbase, hsettings, hbaseline,
    findSome?_segments P entries (survivingBase_segmentOf P),
    findSome?_segments P entries (survivingSettings_segmentOf P),
    ← findSome?_segments P entries (survivingBaseline_segmentOf P)]
  refine and_congr_right fun _ => and_congr_right fun _ => ?_
  cases hfound : (segments P (rolloutOf entries)).findSome? survivingBaseline with
  | none => exact iff_of_false (fun h => h rfl) (fun h => by cases h)
  | some item => exact iff_of_true (ne_neverSet_of_survivingBaseline hfound) rfl

section scan
variable {P} {all after : List RolloutItem}

theorem scan_of_known (h : (scan P all after).known) : ∀ block, scan P all (block ++ after) = scan P all after
  | [] => rfl
  | item :: block => by
    rw [cons_append, scan, scan_of_known h block, if_pos h]

/-- The item does not start a turn. -/
def Continues (item : RolloutItem) : Prop := ∀ id startedAt, item ≠ .eventMsg (.turnStarted id startedAt)

theorem scanItem_of_continues {item : RolloutItem} (h : Continues item) (after : List RolloutItem)
    (s : ReverseReplay) :
    ((scanItem P item after s).known ↔ s.known) ∧
      (scanItem P item after s).activeSegment = noteItem P s.activeSegment item := by
  cases item with
  | eventMsg event =>
    cases event with
    | turnStarted id startedAt => exact absurd rfl (h id startedAt)
    | _ => exact ⟨Iff.rfl, rfl⟩
  | _ => exact ⟨Iff.rfl, rfl⟩

/-- Inside a turn nothing becomes known, and the suffix starts behind the newest replacement history met. -/
theorem scan_block (hknown : ¬(scan P all after).known) (hactive : (scan P all after).activeSegment = none) :
    ∀ block : List RolloutItem, (∀ item ∈ block, Continues item) → ¬(scan P all (block ++ after)).known ∧
      baseOf (scan P all (block ++ after)).activeSegment = (newestCheckpoint block).map Prod.fst ∧
      (scan P all (block ++ after)).rolloutSuffix =
        ((newestCheckpoint block).map fun found => found.2 ++ after).getD (scan P all after).rolloutSuffix
  | [], _ => ⟨hknown, by rw [nil_append, hactive]; rfl, rfl⟩
  | item :: block, hblock => by
    obtain ⟨hitem, hblock⟩ := forall_mem_cons.mp hblock
    obtain ⟨ihknown, ihbase, ihsuffix⟩ := scan_block hknown hactive block hblock
    rw [cons_append, scan, if_neg ihknown]
    obtain ⟨hiff, hnote⟩ := scanItem_of_continues hitem (block ++ after) (scan P all (block ++ after))
    refine ⟨fun h => ihknown (hiff.mp h), ?_, ?_⟩
    · rw [hnote, baseOf_noteItem, ihbase, fst_newestCheckpoint]
    · rw [scanItem_rolloutSuffix, givenBase, ihbase, ihsuffix, newestCheckpoint]
      cases newestCheckpoint block with
      | some found => rfl
      | none => cases replacementOf item <;> rfl

end scan

theorem scan_entry (all : List RolloutItem) (entry : Entry) (after : List Entry) (h : ¬TellAll P after) :
    (scan P all (entry.items ++ rolloutOf after)).rolloutSuffix =
      ((newestCheckpoint entry.items).map fun found => found.2 ++ rolloutOf after).getD
        (scan P all (rolloutOf after)).rolloutSuffix := by
  rw [← known_scan_iff P all] at h
  have hactive : (scan P all (rolloutOf after)).activeSegment = none := by
    rw [((scan_agrees P all (rolloutOf after)).2.2 h).1, gather_rolloutOf]
  cases entry with
  | turn t =>
    have hblock : ∀ item ∈ t.body ++ [t.ending.item t.id], Continues item := by
      refine forall_mem_append.mpr ⟨?_, by cases t.ending <;> simp [TurnEnd.item, Continues]⟩
      rintro _ hmem id startedAt rfl
      exact t.inside _ hmem
    obtain ⟨hknown, -, hsuffix⟩ := scan_block h hactive _ hblock
    -- The start of the turn closes its segment, which leaves the suffix as it is.
    show (scan P all (_ :: (t.body ++ [t.ending.item t.id] ++ rolloutOf after))).rolloutSuffix =
      ((newestCheckpoint (_ :: (t.body ++ [t.ending.item t.id]))).map _).getD _
    rw [scan, if_neg hknown, scanItem_rolloutSuffix, givenBase_of_none _ rfl, newestCheckpoint]
    simpa [replacementOf] using hsuffix
  | rollback n => exact (scan_block h hactive [_] (by simp [Continues])).2.2
  | idle item hidle =>
    have hcontinues : Continues item := by
      rintro id startedAt rfl
      exact hidle
    exact (scan_block h hactive [item] (forall_mem_singleton.mpr hcontinues)).2.2

theorem rolloutSuffix_scan (all : List RolloutItem) : ∀ entries : List Entry,
    (scan P all (rolloutOf entries)).rolloutSuffix = (behindCheckpoint P entries).getD all
  | [] => rfl
  | entry :: after => by
    have ih := rolloutSuffix_scan all after
    show (scan P all (entry.items ++ rolloutOf after)).rolloutSuffix = _
    rw [behindCheckpoint]
    split_ifs with htell
    · rw [scan_of_known ((known_scan_iff P all after).mpr htell), ih]
    · rw [scan_entry P all entry after htell, ih]
      cases newestCheckpoint entry.items <;> rfl

section reconstruction
variable (truncateText : Str → TruncationPolicy → Str)
  (truncate : Truncate) (policy : TruncationPolicy)

/-- **What a rollout of turns leaves for the next turn.**  The settings are those of the newest surviving
turn of a user with a turn context, and the baseline is the newest that survives, unless a compaction
without replacement history is replayed, which clears it. -/
theorem reconstruct_turns (entries : List Entry) :
    (reconstructHistoryFromRollout P truncateText truncate policy (rolloutOf entries)).previousTurnSettings =
        (survivingTurns P entries).findSome? (Turn.settings P) ∧
      (reconstructHistoryFromRollout P truncateText truncate policy (rolloutOf entries)).referenceContextItem =
        if (replayedItems P entries).any isLegacyCompaction then none
        else newestBaseline P (survivingTurns P entries) := by
  obtain ⟨-, hsettings, hbaseline⟩ := reverseReplay_agrees P (rolloutOf entries)
  rw [findSome?_segments P entries (survivingSettings_segmentOf P)] at hsettings
  rw [findSome?_segments P entries (survivingBaseline_segmentOf P)] at hbaseline
  refine ⟨hsettings, ?_⟩
  have hsuffix : (reverseReplay P (rolloutOf entries)).rolloutSuffix = replayedItems P entries :=
    (finish_rolloutSuffix _).trans (rolloutSuffix_scan P _ entries)
  unfold reconstructHistoryFromRollout newestBaseline
  dsimp only
  rw [hsuffix, hbaseline]
  cases (survivingTurns P entries).findSome? (Turn.baseline P) with
  | none => split_ifs <;> rfl
  | some baseline => cases baseline <;> split_ifs <;> rfl

end reconstruction

end turns

def contextOf (id : Str) : TurnContextItem := ⟨some id, "model", none, Value.null⟩

/-- One turn, with a compaction without replacement history before its turn context. -/
def legacyCompacted : List Entry :=
  [.turn
    { id := "1"
      startedAt := none
      body := [.responseItem (userTextItem "a"), .compacted ⟨"summary", none⟩,
        .turnContext (contextOf "1")]
      ending := .complete none none
      inside := by simp [Inside, contextOf] }]

/-- The baseline is there on the stack, and is not found. -/
theorem referenceContextItem_legacyCompacted :
    (reconstructHistoryFromRollout ContextManager.noParsers (fun text _ => text) (fun _ output => output)
        (.bytes 0) (rolloutOf legacyCompacted)).referenceContextItem = none ∧
      newestBaseline ContextManager.noParsers (survivingTurns ContextManager.noParsers legacyCompacted) =
        some (contextOf "1") := by
  decide +kernel

end OpenAgere.Reconstruction
