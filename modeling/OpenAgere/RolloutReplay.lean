import OpenAgere.RolloutReconstruction

/-! # Replacement histories and the plain replay

The suffix of a rollout that is replayed starts behind the oldest replacement history that the backward
reading met, whether its segment survives or not.  It holds the newest one, or starts behind it
(`scan_suffixFits`).  So the history is that of a plain replay of the whole rollout, and the suffix is the
whole rollout when no replacement history survives, exactly when a rollout with a replacement history
has one that survives (`replaysForward_iff`). -/

namespace OpenAgere.Reconstruction

open List Option Models Rollout ContextManager

section segments
variable (P : Parsers)

/-! ### Checkpoints -/

/-- The replacement history of a compaction that has one. -/
def replacementOf : RolloutItem → Option (List ResponseItem)
  | .compacted compacted => compacted.replacementHistory
  | _ => none

/-- The newest replacement history, with the items behind it. -/
def newestCheckpoint : List RolloutItem → Option (List ResponseItem × List RolloutItem)
  | [] => none
  | item :: after => (newestCheckpoint after).or ((replacementOf item).map fun replacement => (replacement, after))

/-- The replacement histories of all segments, the newest first. -/
def Gathered.checkpoints (t : Gathered) : List (List ResponseItem) :=
  (t.finished.map (·.1) ++ t.active.toList).filterMap (·.baseReplacementHistory)

theorem exists_of_newestCheckpoint : ∀ {items : List RolloutItem} {replacement : List ResponseItem}
    {tail : List RolloutItem}, newestCheckpoint items = some (replacement, tail) →
    ∃ before item, items = before ++ item :: tail ∧ replacementOf item = some replacement
  | item :: after, replacement, tail, h => by
    unfold newestCheckpoint at h
    cases hafter : newestCheckpoint after with
    | some found =>
      rw [hafter] at h
      obtain ⟨before, checkpoint, he, hreplacement⟩ :=
        exists_of_newestCheckpoint (hafter.trans h)
      exact ⟨item :: before, checkpoint, by rw [he]; rfl, hreplacement⟩
    | none =>
      rw [hafter, none_or] at h
      obtain ⟨r, hr, he⟩ := map_eq_some_iff.mp h
      obtain ⟨rfl, rfl⟩ := Prod.mk.inj he
      exact ⟨[], item, rfl, hr⟩

/-- The replacement history of a segment, none if there is no segment yet. -/
def baseOf (active : Option ActiveReplaySegment) : Option (List ResponseItem) :=
  (active.getD .default).baseReplacementHistory

/-- The replacement history that an item gives to a segment. -/
def givenBase (active : Option ActiveReplaySegment) (item : RolloutItem) : Option (List ResponseItem) :=
  if baseOf active = none then replacementOf item else none

variable {item : RolloutItem}

theorem givenBase_of_none (active : Option ActiveReplaySegment) (h : replacementOf item = none) :
    givenBase active item = none := by
  unfold givenBase
  rw [h]
  split_ifs <;> rfl

variable {replacement : List ResponseItem}

theorem scanItem_rolloutSuffix (item : RolloutItem) (after : List RolloutItem) (s : ReverseReplay) :
    (scanItem P item after s).rolloutSuffix =
      if (givenBase s.activeSegment item).isSome then after else s.rolloutSuffix := by
  cases item with
  | compacted compacted =>
    unfold scanItem givenBase baseOf replacementOf
    by_cases hbase : (s.activeSegment.getD .default).baseReplacementHistory = none
    · cases hreplacement : compacted.replacementHistory <;> simp [hbase, hreplacement]
    · simp [hbase]
  | eventMsg event =>
    rw [givenBase_of_none s.activeSegment rfl]
    show _ = s.rolloutSuffix
    cases event with
    | turnStarted turnId startedAt =>
      simp only [scanItem]
      split
      · split_ifs
        · exact finalize_rolloutSuffix _ _
        · rfl
      · rfl
    | _ => rfl
  | _ =>
    rw [givenBase_of_none s.activeSegment rfl]
    rfl

@[simp] theorem baseReplacementHistory_mark (segment : ActiveReplaySegment) (item : TurnReferenceContextItem) :
    (segment.mark item).baseReplacementHistory = segment.baseReplacementHistory := by
  unfold ActiveReplaySegment.mark
  split_ifs <;> rfl

section

variable (active : Option ActiveReplaySegment)

theorem baseOf_noteItem (item : RolloutItem) :
    baseOf (noteItem P active item) = (baseOf active).or (replacementOf item) := by
  cases item with
  | sessionMeta | responseItem => exact (or_none).symm
  | compacted compacted => simp [noteItem, baseOf, replacementOf]
  | turnContext ctx =>
    simp only [noteItem]
    split_ifs
    · simp [baseOf, replacementOf]
    · exact (or_none).symm
  | eventMsg event =>
    rw [show replacementOf (.eventMsg event) = none from rfl, or_none]
    cases event with
    | turnAborted turnId completedAt durationMs =>
      cases active with
      | none => cases turnId <;> rfl
      | some segment => rfl
    | _ => rfl

theorem filterMap_toList_eq_baseOf :
    active.toList.filterMap (·.baseReplacementHistory) = (baseOf active).toList := by
  cases active with
  | none => rfl
  | some segment => cases h : segment.baseReplacementHistory <;> simp [baseOf, h]

theorem checkpoints_noteItem (item : RolloutItem) :
    (noteItem P active item).toList.filterMap (·.baseReplacementHistory) =
      active.toList.filterMap (·.baseReplacementHistory) ++ (givenBase active item).toList := by
  rw [filterMap_toList_eq_baseOf, filterMap_toList_eq_baseOf, baseOf_noteItem]
  show _ = _ ++ (if baseOf active = none then replacementOf item else none).toList
  cases baseOf active <;> simp

end

theorem checkpoints_gatherItem (item : RolloutItem) (t : Gathered) :
    (gatherItem P item t).checkpoints = t.checkpoints ++ (givenBase t.active item).toList := by
  have hnote : ({ t with active := noteItem P t.active item } : Gathered).checkpoints =
      t.checkpoints ++ (givenBase t.active item).toList := by
    unfold Gathered.checkpoints
    rw [filterMap_append, filterMap_append, checkpoints_noteItem, append_assoc]
  cases item with
  | eventMsg event =>
    cases event with
    | turnStarted turnId startedAt =>
      rw [givenBase_of_none t.active rfl]
      unfold gatherItem
      cases hactive : t.active with
      | none => exact (append_nil _).symm
      | some segment =>
        by_cases hid : turnIdsAreCompatible segment.turnId (some turnId) = true
        · simp [hid, Gathered.close, Gathered.checkpoints, hactive]
        · simp [hid]
    | threadRolledBack numTurns =>
      rw [givenBase_of_none t.active rfl]
      exact (append_nil _).symm
    | _ => exact hnote
  | _ => exact hnote

theorem checkpoints_eq (t : Gathered) : t.checkpoints =
    t.finished.filterMap (·.1.baseReplacementHistory) ++ (baseOf t.active).toList := by
  unfold Gathered.checkpoints
  rw [filterMap_append, filterMap_toList_eq_baseOf, filterMap_map]
  rfl

variable {t : Gathered}

/-- An item that gives nothing has nothing to give, or there is a checkpoint already. -/
theorem replacementOf_eq_none_or_of_givenBase
    (h : givenBase t.active item = none) : replacementOf item = none ∨ t.checkpoints ≠ [] := by
  unfold givenBase at h
  split_ifs at h with hbase
  · exact .inl h
  · refine .inr fun he => hbase ?_
    rw [checkpoints_eq] at he
    exact toList_eq_nil_iff.mp (append_eq_nil_iff.mp he).2

variable {s : ReverseReplay} {base : List ResponseItem}

theorem exists_of_agrees {finished : List (ActiveReplaySegment × ℕ)} (h : Agrees s finished)
    (hbase : s.baseReplacementHistory = some base) :
    base ∈ finished.filterMap (·.1.baseReplacementHistory) := by
  obtain ⟨e, hmem, he⟩ := exists_of_findSome?_eq_some (h.1.symm.trans hbase)
  unfold survivingBase at he
  split_ifs at he
  exact mem_filterMap.mpr ⟨e, hmem, he⟩

theorem mem_checkpoints_of_agrees (h : Agrees s t.finished)
    (hbase : s.baseReplacementHistory = some base) : base ∈ t.checkpoints := by
  rw [checkpoints_eq]
  exact mem_append_left _ (exists_of_agrees h hbase)

theorem filterMap_segments (items : List RolloutItem) :
    (segments P items).filterMap (·.1.baseReplacementHistory) = (gather P items).checkpoints := by
  rw [checkpoints_eq]
  unfold segments
  cases (gather P items).active with
  | none => exact (append_nil _).symm
  | some segment =>
    show (_ ++ [(segment, _)]).filterMap _ = _
    rw [filterMap_append]
    cases hbase : segment.baseReplacementHistory <;> simp [baseOf, hbase]

theorem mem_checkpoints_of_reverseReplay {items : List RolloutItem}
    (h : (reverseReplay P items).baseReplacementHistory = some base) : base ∈ (gather P items).checkpoints := by
  rw [← filterMap_segments]
  exact exists_of_agrees (reverseReplay_agrees P items) h

/-- How the suffix lies to the newest checkpoint: it starts behind it, or the checkpoint is in it. -/
def SuffixFits (all after : List RolloutItem) (s : ReverseReplay) (t : Gathered) : Prop :=
  match newestCheckpoint after with
  | none => t.checkpoints = [] ∧ s.rolloutSuffix = all
  | some (replacement, tail) => ∃ more, t.checkpoints = replacement :: more ∧
      s.rolloutSuffix.length < after.length ∧
      ((s.rolloutSuffix = tail ∧ (more = [] ∨ s.baseReplacementHistory = some replacement)) ∨
        (more ≠ [] ∧ ∃ before item, s.rolloutSuffix = before ++ item :: tail ∧
          replacementOf item = some replacement))

variable {all after : List RolloutItem} {s' : ReverseReplay} {t' : Gathered}

theorem suffixFits_of_given (h : SuffixFits all after s t)
    (hitem : replacementOf item = some replacement) (hcheckpoints : t'.checkpoints = t.checkpoints ++ [replacement])
    (hsuffix : s'.rolloutSuffix = after) : SuffixFits all (item :: after) s' t' := by
  unfold SuffixFits at h ⊢
  unfold newestCheckpoint
  rw [hcheckpoints, hsuffix]
  cases hnewest : newestCheckpoint after with
  | none =>
    rw [hnewest] at h
    rw [none_or, hitem, h.1]
    exact ⟨[], rfl, Nat.lt_succ_self _, .inl ⟨rfl, .inl rfl⟩⟩
  | some found =>
    rw [hnewest] at h
    obtain ⟨more, hmore, -, -⟩ := h
    rw [some_or, hmore]
    exact ⟨more ++ [replacement], rfl, Nat.lt_succ_self _,
      .inr ⟨by simp, exists_of_newestCheckpoint hnewest⟩⟩

/-- An item that leaves the suffix.  If it adds a checkpoint, a surviving one is found already. -/
theorem suffixFits_of_kept {given : List (List ResponseItem)} (h : SuffixFits all after s t)
    (hsuffix : s'.rolloutSuffix = s.rolloutSuffix)
    (hbase : ∀ base, s.baseReplacementHistory = some base → s'.baseReplacementHistory = some base)
    (hcheckpoints : t'.checkpoints = t.checkpoints ++ given) (hitem : replacementOf item = none ∨ t.checkpoints ≠ [])
    (hgiven : given = [] ∨ ∃ base ∈ t.checkpoints, s.baseReplacementHistory = some base) :
    SuffixFits all (item :: after) s' t' := by
  unfold SuffixFits at h ⊢
  unfold newestCheckpoint
  rw [hcheckpoints, hsuffix]
  cases hnewest : newestCheckpoint after with
  | none =>
    rw [hnewest] at h
    rw [none_or, hitem.resolve_right fun hne => hne h.1]
    refine ⟨?_, h.2⟩
    obtain rfl | ⟨base, hmem, -⟩ := hgiven
    · rw [h.1, append_nil]
    · rw [h.1] at hmem
      exact absurd hmem not_mem_nil
  | some found =>
    rw [hnewest] at h
    obtain ⟨more, hmore, hlength, hcase⟩ := h
    rw [some_or, hmore]
    refine ⟨more ++ given, rfl, Nat.lt_succ_of_lt hlength, ?_⟩
    obtain ⟨htail, hone | hsame⟩ | ⟨hne, hin⟩ := hcase
    · refine .inl ⟨htail, hgiven.imp (fun he => by rw [hone, he]; rfl) ?_⟩
      rintro ⟨base, hmem, hfound⟩
      rw [hmore, hone, mem_singleton] at hmem
      exact hbase _ (hmem ▸ hfound)
    · exact .inl ⟨htail, .inr (hbase _ hsame)⟩
    · exact .inr ⟨fun he => hne (append_eq_nil_iff.mp he).1, hin⟩

theorem scan_suffixFits (all : List RolloutItem) : ∀ after : List RolloutItem,
    SuffixFits all after (scan P all after) (gather P after)
  | [] => ⟨rfl, rfl⟩
  | item :: after => by
    have ih := scan_suffixFits all after
    obtain ⟨hagrees, -, hopen⟩ := scan_agrees P all after
    have hcheckpoints := checkpoints_gatherItem P item (gather P after)
    unfold scan gather
    by_cases hknown : (scan P all after).known
    · rw [if_pos hknown]
      obtain ⟨base, hbase⟩ := isSome_iff_exists.mp hknown.1
      have hmem := mem_checkpoints_of_agrees hagrees hbase
      exact suffixFits_of_kept ih rfl (fun _ h => h) hcheckpoints (.inr (ne_nil_of_mem hmem)) (.inr ⟨base, hmem, hbase⟩)
    · rw [if_neg hknown]
      obtain ⟨hactive, hpending⟩ := hopen hknown
      have hsuffix := scanItem_rolloutSuffix P item after (scan P all after)
      rw [hactive] at hsuffix
      cases hgiven : givenBase (gather P after).active item with
      | some replacement =>
        rw [hgiven] at hsuffix hcheckpoints
        refine suffixFits_of_given ih ?_ hcheckpoints hsuffix
        unfold givenBase at hgiven
        split_ifs at hgiven
        exact hgiven
      | none =>
        rw [hgiven] at hsuffix hcheckpoints
        refine suffixFits_of_kept ih hsuffix ?_ hcheckpoints (replacementOf_eq_none_or_of_givenBase hgiven) (.inl rfl)
        intro base hbase
        obtain ⟨segment, hscan, -⟩ | ⟨hsame, -⟩ := scanItem_cases P item after hactive hpending
        · rw [hscan]
          exact finalize_baseReplacementHistory hbase
        · exact hsame.trans hbase

theorem newestCheckpoint_eq_none_iff : ∀ items : List RolloutItem,
    newestCheckpoint items = none ↔ ∀ item ∈ items, replacementOf item = none
  | [] => by simp [newestCheckpoint]
  | item :: after => by
    unfold newestCheckpoint
    rw [or_eq_none_iff, newestCheckpoint_eq_none_iff after, map_eq_none_iff, forall_mem_cons]
    exact and_comm

end segments

/-! ### The plain replay -/

section forward
variable (P : Parsers) (truncateText : Str → TruncationPolicy → Str)
  (truncate : Truncate) (policy : TruncationPolicy)

variable {compacted : CompactedItem} {replacement : List ResponseItem}

theorem replayItem_replacement (history : ContextManager) (h : compacted.replacementHistory = some replacement) :
    replayItem P truncateText truncate policy history (.compacted compacted) = history.replace replacement := by
  simp only [replayItem, h]

theorem replayItem_legacy (history : ContextManager) (h : compacted.replacementHistory = none) :
    replayItem P truncateText truncate policy history (.compacted compacted) = history.replace
      (buildCompactedHistory truncateText (collectUserMessages P history.items) compacted.message) := by
  simp only [replayItem, h]

theorem items_replayItem_congr {history history' : ContextManager} (h : history.items = history'.items)
    (item : RolloutItem) : (replayItem P truncateText truncate policy history item).items =
      (replayItem P truncateText truncate policy history' item).items := by
  cases item with
  | responseItem item =>
    show history.items ++ _ = history'.items ++ _
    rw [h]
  | compacted compacted =>
    cases hreplacement : compacted.replacementHistory with
    | some replacement =>
      rw [replayItem_replacement _ _ _ _ _ hreplacement, replayItem_replacement _ _ _ _ _ hreplacement]
      rfl
    | none =>
      rw [replayItem_legacy _ _ _ _ _ hreplacement, replayItem_legacy _ _ _ _ _ hreplacement, h]
      rfl
  | eventMsg event =>
    cases event with
    | threadRolledBack numTurns =>
      show (history.dropLastNUserTurns P numTurns).items = (history'.dropLastNUserTurns P numTurns).items
      unfold dropLastNUserTurns
      rw [h]
      split_ifs
      · exact h
      · split <;> rfl
    | _ => exact h
  | _ => exact h

theorem items_foldl_congr : ∀ (items : List RolloutItem) {history history' : ContextManager},
    history.items = history'.items → (items.foldl (replayItem P truncateText truncate policy) history).items =
      (items.foldl (replayItem P truncateText truncate policy) history').items
  | [], _, _, h => h
  | item :: items, _, _, h =>
    items_foldl_congr items (items_replayItem_congr P truncateText truncate policy h item)

/-- A replacement history makes what was replayed before it irrelevant. -/
theorem items_foldl_checkpoint (before tail : List RolloutItem) {item : RolloutItem}
    (h : replacementOf item = some replacement) (history : ContextManager) :
    ((before ++ item :: tail).foldl (replayItem P truncateText truncate policy) history).items =
      (tail.foldl (replayItem P truncateText truncate policy) (new.replace replacement)).items := by
  rw [foldl_append, foldl_cons]
  apply items_foldl_congr
  cases item with
  | compacted compacted =>
    rw [replayItem_replacement P truncateText truncate policy _ h]
    rfl
  | _ => exact absurd h (by simp [replacementOf])

/-- The history is that of the plain replay, and without a surviving replacement history the whole rollout
is replayed. -/
def ReplaysForward (items : List RolloutItem) : Prop :=
  (reconstructHistoryFromRollout P truncateText truncate policy items).history =
      forwardReplay P truncateText truncate policy items ∧
    ((reverseReplay P items).baseReplacementHistory = none → (reverseReplay P items).rolloutSuffix = items)

/-- If the rollout has a replacement history, a segment with one ends with no rollback pending. -/
def CheckpointSurvives (items : List RolloutItem) : Prop :=
  (∃ item ∈ items, (replacementOf item).isSome) →
    ∃ e ∈ segments P items, e.2 = 0 ∧ e.1.baseReplacementHistory.isSome

instance (items : List RolloutItem) : Decidable (CheckpointSurvives P items) :=
  inferInstanceAs (Decidable ((∃ item ∈ items, _) → ∃ e ∈ segments P items, _))

theorem base_isSome_iff (items : List RolloutItem) : (reverseReplay P items).baseReplacementHistory.isSome ↔
    ∃ e ∈ segments P items, e.2 = 0 ∧ e.1.baseReplacementHistory.isSome := by
  rw [(reverseReplay_agrees P items).1, findSome?_isSome_iff]
  constructor
  · rintro ⟨e, hmem, he⟩
    unfold survivingBase at he
    split_ifs at he with hzero
    · exact ⟨e, hmem, hzero, he⟩
    · exact absurd he (by simp)
  · rintro ⟨e, hmem, hzero, he⟩
    refine ⟨e, hmem, ?_⟩
    unfold survivingBase
    rwa [if_pos hzero]

theorem history_eq_foldl (items : List RolloutItem) (history : ContextManager)
    (h : history.items = (reverseReplay P items).baseReplacementHistory.getD []) :
    (reconstructHistoryFromRollout P truncateText truncate policy items).history =
      ((reverseReplay P items).rolloutSuffix.foldl (replayItem P truncateText truncate policy) history).items := by
  unfold reconstructHistoryFromRollout
  apply items_foldl_congr
  cases hbase : (reverseReplay P items).baseReplacementHistory with
  | none | some =>
    rw [hbase] at h
    exact h.symm

variable {base : List ResponseItem}

theorem finish_baseReplacementHistory {s : ReverseReplay}
    (h : s.baseReplacementHistory = some base) : s.finish.baseReplacementHistory = some base := by
  unfold ReverseReplay.finish
  split
  · exact finalize_baseReplacementHistory h
  · exact h

variable {items : List RolloutItem}

theorem replaysForward_of_noCheckpoint (h : newestCheckpoint items = none) :
    ReplaysForward P truncateText truncate policy items := by
  obtain ⟨hnone, hall⟩ : (gather P items).checkpoints = [] ∧ (scan P items items).rolloutSuffix = items := by
    have hfits := scan_suffixFits P items items
    unfold SuffixFits at hfits
    rwa [h] at hfits
  have hsuffix : (reverseReplay P items).rolloutSuffix = items := (finish_rolloutSuffix _).trans hall
  have hbase : (reverseReplay P items).baseReplacementHistory = none := by
    cases hfound : (reverseReplay P items).baseReplacementHistory with
    | none => rfl
    | some base =>
      have hmem := mem_checkpoints_of_reverseReplay P hfound
      rw [hnone] at hmem
      exact absurd hmem not_mem_nil
  refine ⟨?_, fun _ => hsuffix⟩
  rw [history_eq_foldl P truncateText truncate policy items .new (by rw [hbase]; rfl), hsuffix]
  rfl

/-- With a surviving replacement history the replay starts from the newest one, or meets it. -/
theorem history_of_checkpoint {tail : List RolloutItem} (h : newestCheckpoint items = some (replacement, tail))
    (hbase : (reverseReplay P items).baseReplacementHistory = some base) :
    (reconstructHistoryFromRollout P truncateText truncate policy items).history =
      forwardReplay P truncateText truncate policy items := by
  have hfits := scan_suffixFits P items items
  unfold SuffixFits at hfits
  rw [h] at hfits
  obtain ⟨more, hmore, -, hcase⟩ := hfits
  have hsuffix : (reverseReplay P items).rolloutSuffix = (scan P items items).rolloutSuffix :=
    finish_rolloutSuffix _
  have hforward : forwardReplay P truncateText truncate policy items =
      (tail.foldl (replayItem P truncateText truncate policy) (new.replace replacement)).items := by
    obtain ⟨before, item, he, hitem⟩ := exists_of_newestCheckpoint h
    unfold forwardReplay
    rw [he]
    exact items_foldl_checkpoint P truncateText truncate policy before tail hitem _
  rw [hforward, history_eq_foldl P truncateText truncate policy items
    (new.replace base) (by rw [hbase]; rfl), hsuffix]
  obtain ⟨htail, hone⟩ | ⟨-, before, item, he, hitem⟩ := hcase
  · have hsame : base = replacement := by
      obtain hone | hfound := hone
      · have hmem := mem_checkpoints_of_reverseReplay P hbase
        rw [hmore, hone] at hmem
        exact mem_singleton.mp hmem
      · exact mem_unique hbase (finish_baseReplacementHistory hfound)
    rw [htail, hsame]
  · rw [he]
    exact items_foldl_checkpoint P truncateText truncate policy before tail hitem _

/-- **When a rollout is replayed as it is written.**  The history is that of a plain replay of all items,
and without a surviving replacement history all items are replayed, exactly when the rollout has no
replacement history or one of a segment that is not rolled back. -/
theorem replaysForward_iff (items : List RolloutItem) :
    ReplaysForward P truncateText truncate policy items ↔ CheckpointSurvives P items := by
  constructor
  · rintro ⟨-, hwhole⟩ ⟨item, hmem, hitem⟩
    rw [← base_isSome_iff]
    by_contra hno
    have hsuffix := hwhole (not_isSome_iff_eq_none.mp hno)
    have hfits := scan_suffixFits P items items
    unfold SuffixFits at hfits
    cases hnewest : newestCheckpoint items with
    | none =>
      rw [(newestCheckpoint_eq_none_iff items).mp hnewest item hmem] at hitem
      exact absurd hitem (by simp)
    | some found =>
      rw [hnewest] at hfits
      obtain ⟨more, -, hlength, -⟩ := hfits
      rw [← finish_rolloutSuffix] at hlength
      exact absurd (congrArg List.length hsuffix) (Nat.ne_of_lt hlength)
  · intro h
    cases hnewest : newestCheckpoint items with
    | none => exact replaysForward_of_noCheckpoint P truncateText truncate policy hnewest
    | some found =>
      obtain ⟨before, item, he, hitem⟩ := exists_of_newestCheckpoint hnewest
      have hsome := (base_isSome_iff P items).mpr
        (h ⟨item, by rw [he]; simp, by rw [hitem]; rfl⟩)
      obtain ⟨base, hbase⟩ := isSome_iff_exists.mp hsome
      refine ⟨history_of_checkpoint P truncateText truncate policy hnewest hbase, fun hnone => ?_⟩
      exact absurd (hnone.symm.trans hbase) (by simp)

end forward

/-- A turn that starts with a compaction and is rolled back. -/
def rolledBackCheckpoint : List RolloutItem :=
  [.eventMsg (.turnStarted "1" none), .responseItem (userTextItem "a"),
    .eventMsg (.turnComplete "1" none none), .eventMsg (.turnStarted "2" none),
    .compacted ⟨"summary", some [userTextItem "a", userTextItem "summary"]⟩,
    .responseItem (userTextItem "b"), .eventMsg (.turnComplete "2" none none),
    .eventMsg (.threadRolledBack 1)]

/-- The history of the rollout is lost, where the plain replay keeps what was compacted. -/
theorem history_rolledBackCheckpoint :
    (reconstructHistoryFromRollout noParsers (fun text _ => text) (fun _ output => output)
        (.bytes 0) rolledBackCheckpoint).history = [] ∧
      forwardReplay noParsers (fun text _ => text) (fun _ output => output) (.bytes 0)
        rolledBackCheckpoint = [userTextItem "a", userTextItem "summary"] := by
  decide +kernel

end OpenAgere.Reconstruction
