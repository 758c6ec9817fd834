import OpenAgere.RolloutReplay
import OpenAgere.ThreadHistory
import Mathlib.Data.List.GetD

/-! # Rollback for the client and for the model

A rollback takes turns from the list a client shows (`ThreadHistory`), and boundaries of turns from the
history of the model (`ContextManager`).  For rollouts of turns, in which every message of a user is there
as an event and as an item of the history, both lists are followed entry by entry: the texts of the
user's messages in them agree after every entry exactly when every rollback finds as many messages in the
last turns as in the last boundaries, no message is made of blanks, and no item of a tool takes the place
of a message (`agree_iff`).  Dropping turns twice is dropping their sum
(`dropLastNUserTurns_add`). -/

namespace OpenAgere.RollbackAgreement

open List ThreadHistory ContextManager Models Rollout Text Reconstruction

/-! ### Boundaries of a history -/

section positions
variable {α β : Type} {f : α → Option β} {p : α → Bool}

theorem positions_cons (p : α → Bool) (a : α) (l : List α) (n : ℕ) :
    ((a :: l).zipIdx n).filterMap (fun e => if p e.1 then some e.2 else none) =
      (if p a then [n] else []) ++ (l.zipIdx (n + 1)).filterMap fun e => if p e.1 then some e.2 else none := by
  rw [zipIdx_cons]
  cases hp : p a <;> simp [hp]

theorem length_positions (h : ∀ a, p a = (f a).isSome) (l : List α) (n : ℕ) :
    ((l.zipIdx n).filterMap fun e => if p e.1 then some e.2 else none).length = (l.filterMap f).length := by
  rw [length_filterMap_eq_countP, length_filterMap_eq_countP]
  nth_rewrite 2 [← zipIdx_map_fst n l]
  rw [countP_map]
  exact countP_congr fun e _ => by simp [← h]

/-- Before the `k`-th position stand the first `k` entries that fit. -/
theorem filterMap_take_position (h : ∀ a, p a = (f a).isSome) : ∀ (l : List α) (n k : ℕ),
    k < ((l.zipIdx n).filterMap fun e => if p e.1 then some e.2 else none).length →
    ∃ i, ((l.zipIdx n).filterMap fun e => if p e.1 then some e.2 else none).getD k 0 = n + i ∧ i < l.length ∧
      (l.take i).filterMap f = (l.filterMap f).take k
  | [], _, k, hk => absurd hk (Nat.not_lt_zero k)
  | a :: l, n, k, hk => by
    rw [positions_cons] at hk ⊢
    cases hf : f a with
    | none =>
      have hp : p a = false := by rw [h, hf]; rfl
      rw [hp] at hk ⊢
      obtain ⟨i, hi, hlt, htake⟩ := filterMap_take_position h l (n + 1) k hk
      refine ⟨i + 1, ?_, Nat.succ_lt_succ hlt, ?_⟩
      · rw [if_neg (by decide), nil_append, hi]
        omega
      · rw [take_succ_cons, filterMap_cons_none hf, filterMap_cons_none hf, htake]
    | some b =>
      have hp : p a = true := by rw [h, hf]; rfl
      rw [hp] at hk ⊢
      cases k with
      | zero => exact ⟨0, rfl, Nat.zero_lt_succ _, rfl⟩
      | succ k =>
        obtain ⟨i, hi, hlt, htake⟩ := filterMap_take_position h l (n + 1) k (by simpa using hk)
        refine ⟨i + 1, ?_, Nat.succ_lt_succ hlt, ?_⟩
        · rw [if_pos rfl, singleton_append, getD_cons_succ, hi]
          omega
        · rw [take_succ_cons, filterMap_cons_some hf, filterMap_cons_some hf,
            take_succ_cons, htake]

end positions

section history
variable (P : Parsers)

/-- The text of a boundary, if it is the message of a user. -/
def boundaryOf (item : ResponseItem) : Option (Option Str) :=
  if isUserTurnBoundary P item then some (userMessage P item) else none

def boundaries (items : List ResponseItem) : List (Option Str) := items.filterMap (boundaryOf P)

theorem isUserTurnBoundary_eq (item : ResponseItem) : isUserTurnBoundary P item = (boundaryOf P item).isSome := by
  unfold boundaryOf
  cases isUserTurnBoundary P item <;> rfl

variable {item : ResponseItem}

theorem isUserTurnBoundary_of_isPreTurnContext (h : isPreTurnContext P item) :
    isUserTurnBoundary P item = false := by
  cases item with
  | message id role content phase =>
    simp only [isPreTurnContext] at h
    simp only [isUserTurnBoundary]
    by_cases hdeveloper : role = developer
    · subst hdeveloper
      rw [decide_eq_false (by decide : ¬ developer = user), decide_eq_false (by decide : ¬ developer = assistant)]
      rfl
    · by_cases huser : role = user
      · subst huser
        rw [decide_eq_false (by decide : ¬ user = assistant)]
        simp [hdeveloper] at h
        simp [h]
      · simp [hdeveloper, huser] at h
  | _ => rfl

/-- The walk back over the context of a turn does not pass a boundary. -/
theorem boundaries_take_trim (items : List ResponseItem) (first : ℕ) : ∀ cut : ℕ,
    boundaries P (items.take (trimPreTurnContextUpdates P items first cut)) =
      boundaries P (items.take cut)
  | 0 => rfl
  | cut + 1 => by
    unfold trimPreTurnContextUpdates
    split_ifs with hcontext
    · rw [boundaries_take_trim items first cut, take_add_one]
      unfold boundaries
      rw [filterMap_append]
      cases hitem : items[cut]? with
      | none => simp
      | some item =>
        rw [hitem] at hcontext
        have hno : boundaryOf P item = none := by
          unfold boundaryOf
          rw [isUserTurnBoundary_of_isPreTurnContext P hcontext.2]
          rfl
        simp [hno]
    · rfl

theorem boundaries_take_position {items : List ResponseItem} {k : ℕ}
    (hk : k < (userMessagePositions P items).length) : (userMessagePositions P items).getD k 0 < items.length ∧
      boundaries P (items.take ((userMessagePositions P items).getD k 0)) = (boundaries P items).take k := by
  obtain ⟨i, hi, hlt, htake⟩ := filterMap_take_position (isUserTurnBoundary_eq P) items 0 k hk
  have hposition : (userMessagePositions P items).getD k 0 = i := hi.trans (Nat.zero_add i)
  rw [hposition]
  exact ⟨hlt, htake⟩

theorem length_userMessagePositions (items : List ResponseItem) :
    (userMessagePositions P items).length = (boundaries P items).length :=
  length_positions (isUserTurnBoundary_eq P) items 0

variable {P} in
/-- What is left of a history with turns. -/
theorem items_dropLastNUserTurns {history : ContextManager} {numTurns first : ℕ} {more : List ℕ} (hn : numTurns ≠ 0)
    (hp : userMessagePositions P history.items = first :: more) :
    (history.dropLastNUserTurns P numTurns).items = history.items.take (trimPreTurnContextUpdates P history.items first
      ((first :: more).getD ((first :: more).length - numTurns) 0)) := by
  have hcut : (if (first :: more).length ≤ numTurns then first
      else (first :: more).getD ((first :: more).length - numTurns) 0) =
      (first :: more).getD ((first :: more).length - numTurns) 0 := by
    split_ifs with hall
    · rw [Nat.sub_eq_zero_of_le hall]
      rfl
    · rfl
  simp only [dropLastNUserTurns, if_neg hn, rollbackCut, hp, head?_cons, hcut]

variable {P} in
theorem items_dropLastNUserTurns_of_none {history : ContextManager} (numTurns : ℕ)
    (hp : userMessagePositions P history.items = []) :
    (history.dropLastNUserTurns P numTurns).items = history.items := by
  simp only [dropLastNUserTurns, rollbackCut, hp, head?_nil, ContextManager.replace]
  split_ifs <;> rfl

/-- **Dropping turns drops the last boundaries.** -/
theorem boundaries_dropLastNUserTurns (history : ContextManager) (numTurns : ℕ) :
    boundaries P (history.dropLastNUserTurns P numTurns).items =
      (boundaries P history.items).take ((boundaries P history.items).length - numTurns) := by
  by_cases hzero : numTurns = 0
  · rw [hzero, Nat.sub_zero, take_length]
    rfl
  · rw [← length_userMessagePositions]
    cases hpositions : userMessagePositions P history.items with
    | nil =>
      rw [items_dropLastNUserTurns_of_none numTurns hpositions, length_nil, Nat.zero_sub, take_zero]
      exact length_eq_zero_iff.mp (by rw [← length_userMessagePositions, hpositions, length_nil])
    | cons first more =>
      have hposition : (first :: more).length - numTurns < (first :: more).length :=
        Nat.sub_lt (Nat.zero_lt_succ _) (Nat.pos_of_ne_zero hzero)
      rw [items_dropLastNUserTurns hzero hpositions, boundaries_take_trim]
      rw [← hpositions] at hposition ⊢
      exact (boundaries_take_position P hposition).2

theorem userMessage_eq (item : ResponseItem) : userMessage P item = (boundaryOf P item).join := by
  unfold boundaryOf
  cases item with
  | message itemId role content phase =>
    by_cases huser : role = user ∧ isContextualUserMessageContent P content = false
    · have hboundary : isUserTurnBoundary P (.message itemId role content phase) = true := by
        simp [isUserTurnBoundary, huser]
      rw [if_pos hboundary]
      rfl
    · have hnone : userMessage P (.message itemId role content phase) = none := by
        simp only [userMessage, if_neg huser]
      rw [hnone]
      split_ifs <;> rfl
  | _ => rfl

variable {P}

theorem userMessagePositions_append (items rest : List ResponseItem) :
    userMessagePositions P items <+: userMessagePositions P (items ++ rest) := by
  simp only [userMessagePositions, zipIdx_append, filterMap_append]
  exact prefix_append _ _

theorem getD_userMessagePositions_lt {items : List ResponseItem} {first : ℕ} {more : List ℕ}
    (hp : userMessagePositions P items = first :: more) {n : ℕ} (hn : n ≠ 0) :
    (first :: more).getD ((first :: more).length - n) 0 < items.length := by
  rw [← hp]
  refine (boundaries_take_position P (Nat.sub_lt ?_ (Nat.pos_of_ne_zero hn))).1
  rw [hp]
  exact Nat.zero_lt_succ _

/-- The walk back reads only what stands before the cut. -/
theorem trimPreTurnContextUpdates_take (items : List ResponseItem) (first : ℕ) {n : ℕ} : ∀ {cut : ℕ}, cut ≤ n →
    trimPreTurnContextUpdates P (items.take n) first cut = trimPreTurnContextUpdates P items first cut
  | 0, _ => rfl
  | cut + 1, h => by
    rw [trimPreTurnContextUpdates, trimPreTurnContextUpdates, getElem?_take_of_lt h,
      trimPreTurnContextUpdates_take items first (Nat.le_of_succ_le h)]

theorem trimPreTurnContextUpdates_cases (items : List ResponseItem) (first : ℕ) : ∀ {cut : ℕ}, cut ≤ items.length →
    trimPreTurnContextUpdates P items first cut ≤ cut ∧
      (first ≤ cut → first ≤ trimPreTurnContextUpdates P items first cut) ∧
      (first < trimPreTurnContextUpdates P items first cut → ∀ item ∈
        (items.take (trimPreTurnContextUpdates P items first cut)).getLast?, isPreTurnContext P item = false)
  | 0, _ => ⟨le_rfl, id, fun h => absurd h (Nat.not_lt_zero _)⟩
  | cut + 1, hle => by
    rw [trimPreTurnContextUpdates]
    split_ifs with hcontext
    · obtain ⟨h1, h2, h3⟩ := trimPreTurnContextUpdates_cases items first (Nat.le_of_succ_le hle)
      exact ⟨Nat.le_succ_of_le h1, fun _ => h2 hcontext.1, h3⟩
    · refine ⟨le_rfl, id, fun hlt item hitem => ?_⟩
      rw [take_add_one, getElem?_eq_getElem hle, Option.toList_some, getLast?_concat] at hitem
      rw [getElem?_eq_getElem hle, Option.some.inj hitem] at hcontext
      exact Bool.eq_false_of_not_eq_true fun hctx => hcontext ⟨Nat.le_of_lt_succ hlt, hctx⟩

/-- **Dropping turns twice** is dropping them all at once.  What is left is a prefix with the first turns and all that
stands before them, and it does not end in the context of a turn that was dropped. -/
theorem dropLastNUserTurns_add (history : ContextManager) (n m : ℕ) :
    ((history.dropLastNUserTurns P n).dropLastNUserTurns P m).items = (history.dropLastNUserTurns P (n + m)).items ∧
    (history.dropLastNUserTurns P n).items <+: history.items ∧
    (userMessagePositions P (history.dropLastNUserTurns P n).items).length =
      (userMessagePositions P history.items).length - n ∧
    history.items.take ((userMessagePositions P history.items).headD history.items.length) <+:
      (history.dropLastNUserTurns P n).items ∧
    (0 < n → n < (userMessagePositions P history.items).length →
      ∀ item ∈ (history.dropLastNUserTurns P n).items.getLast?, isPreTurnContext P item = false) := by
  have hcount : (userMessagePositions P (history.dropLastNUserTurns P n).items).length =
      (userMessagePositions P history.items).length - n := by
    rw [length_userMessagePositions, length_userMessagePositions, boundaries_dropLastNUserTurns, length_take]
    omega
  cases hp : userMessagePositions P history.items with
  | nil =>
    have hsame := items_dropLastNUserTurns_of_none n hp
    rw [hp] at hcount
    refine ⟨?_, by rw [hsame], hcount, by rw [hsame]; exact take_prefix _ _, fun _ h => absurd h (Nat.not_lt_zero n)⟩
    rw [items_dropLastNUserTurns_of_none (n + m) hp, items_dropLastNUserTurns_of_none m (by rw [hsame, hp]), hsame]
  | cons first more =>
    by_cases hn : n = 0
    · rw [hp] at hcount
      subst hn
      refine ⟨by rw [Nat.zero_add]; rfl, prefix_rfl, hcount, take_prefix _ _, fun h => absurd h (Nat.lt_irrefl 0)⟩
    · have hdrop := items_dropLastNUserTurns hn hp
      have hkept := items_dropLastNUserTurns (show n + m ≠ 0 by omega) hp
      obtain ⟨-, hfirst, hlast⟩ := trimPreTurnContextUpdates_cases (P := P) history.items first
        (getD_userMessagePositions_lt hp hn).le
      obtain ⟨rest, hrest⟩ : (history.dropLastNUserTurns P n).items <+: history.items := hdrop ▸ take_prefix _ _
      have hpositions := userMessagePositions_append (P := P) (history.dropLastNUserTurns P n).items rest
      rw [hrest, hp] at hpositions
      rw [hp] at hcount
      rw [← Nat.sub_sub, ← hcount] at hkept
      cases hq : userMessagePositions P (history.dropLastNUserTurns P n).items with
      | nil =>
        -- all turns are dropped: both cuts are at the first of them
        rw [hq] at hcount hkept
        rw [length_nil, Nat.zero_sub] at hkept
        rw [← hcount] at hdrop hfirst
        refine ⟨?_, ⟨rest, hrest⟩, hcount, hdrop ▸ take_prefix_take_left (hfirst le_rfl), fun _ hlt => ?_⟩
        · rw [items_dropLastNUserTurns_of_none m hq, hkept, hdrop]
          rfl
        · rw [length_nil] at hcount
          omega
      | cons a as =>
        rw [hq] at hcount hpositions hkept
        obtain ⟨rfl, later, rfl⟩ := cons_prefix_cons.mp hpositions
        have hlt := getD_userMessagePositions_lt hq (Nat.succ_ne_zero as.length)
        rw [length_cons, Nat.sub_self, hdrop] at hlt
        have hlt := hlt.trans_le (length_take_le _ _)
        refine ⟨?_, ⟨rest, hrest⟩, hcount, hdrop ▸ take_prefix_take_left hlt.le, fun _ _ => hdrop ▸ hlast hlt⟩
        by_cases hm : m = 0
        · rw [hm]
          rfl
        · have hcut := (getD_userMessagePositions_lt hq hm).le
          have htrim := (trimPreTurnContextUpdates_cases (P := P) _ a hcut).1.trans hcut
          rw [← cons_append, getD_append (a :: as) _ _ _
            (Nat.sub_lt (Nat.zero_lt_succ _) (Nat.pos_of_ne_zero hm))] at hkept
          rw [items_dropLastNUserTurns hm hq, hkept]
          rw [hdrop] at hcut htrim ⊢
          rw [take_take, Nat.min_eq_left (htrim.trans (length_take_le _ _)),
            trimPreTurnContextUpdates_take _ _ (hcut.trans (length_take_le _ _))]

end history

/-! ### Rollouts with paired messages -/

/-- The text of the message that an event shows. -/
def eventText : RolloutItem → Option Str
  | .eventMsg (.userMessage payload) => some payload.message
  | _ => none

section rollouts
variable (P : Parsers)

/-- The boundary that an item adds to the history. -/
def itemBoundary : RolloutItem → Option (Option Str)
  | .responseItem item => boundaryOf P item
  | _ => none

/-- What can stand in a turn: no compaction, no start or end of a turn, no rollback. -/
def Plain : RolloutItem → Prop
  | .compacted _ => False
  | .eventMsg (.turnStarted _ _) => False
  | .eventMsg (.turnComplete _ _ _) => False
  | .eventMsg (.turnAborted _ _ _) => False
  | .eventMsg (.threadRolledBack _) => False
  | _ => True

/-- A turn in which the messages of the user are there as events and as items, in the same order. -/
structure PairedTurn where
  id : Str
  startedAt : Option ℤ
  body : List RolloutItem
  completedAt : Option ℤ
  durationMs : Option ℤ
  plain : ∀ item ∈ body, Plain item
  paired : body.filterMap eventText = body.filterMap fun item => (itemBoundary P item).join

/-- What can stand between turns, other than a rollback. -/
inductive Unrelated : RolloutItem → Prop
  | sessionMeta : Unrelated .sessionMeta
  | turnContext (ctx : TurnContextItem) : Unrelated (.turnContext ctx)
  | other : Unrelated (.eventMsg .other)

inductive PairedEntry where
  | turn (turn : PairedTurn P)
  | rollback (numTurns : ℕ)
  | unrelated (item : RolloutItem) (h : Unrelated item)

variable {P}

def PairedTurn.items (turn : PairedTurn P) : List RolloutItem :=
  .eventMsg (.turnStarted turn.id turn.startedAt) ::
    (turn.body ++ [.eventMsg (.turnComplete turn.id turn.completedAt turn.durationMs)])

def PairedEntry.items : PairedEntry P → List RolloutItem
  | turn t => t.items
  | rollback numTurns => [.eventMsg (.threadRolledBack numTurns)]
  | unrelated item _ => [item]

def pairedRollout (entries : List (PairedEntry P)) : List RolloutItem := entries.flatMap PairedEntry.items

/-! ### Turns and boundaries that are left -/

def PairedTurn.texts (turn : PairedTurn P) : List Str := turn.body.filterMap eventText

def PairedTurn.boundaries (turn : PairedTurn P) : List (Option Str) := turn.body.filterMap (itemBoundary P)

/-- The texts of the boundaries that are messages of users. -/
def boundaryTexts (boundaries : List (Option Str)) : List Str := boundaries.filterMap id

/-- A list without its last entries, and its last entries. -/
def butLast {α : Type} (n : ℕ) (l : List α) : List α := l.take (l.length - n)

def last {α : Type} (n : ℕ) (l : List α) : List α := l.drop (l.length - n)

/-- The turns that are left if a rollback takes turns. -/
def turnsStep (turns : List (PairedTurn P)) : PairedEntry P → List (PairedTurn P)
  | .turn t => turns ++ [t]
  | .rollback numTurns => butLast numTurns turns
  | .unrelated _ _ => turns

/-- The boundaries that are left if a rollback takes boundaries. -/
def boundariesStep (boundaries : List (Option Str)) : PairedEntry P → List (Option Str)
  | .turn t => boundaries ++ t.boundaries
  | .rollback numTurns => butLast numTurns boundaries
  | .unrelated _ _ => boundaries

def turnsLeft (entries : List (PairedEntry P)) : List (PairedTurn P) := entries.foldl turnsStep []

def boundariesLeft (entries : List (PairedEntry P)) : List (Option Str) := entries.foldl boundariesStep []

theorem boundaryTexts_append (boundaries more : List (Option Str)) :
    boundaryTexts (boundaries ++ more) = boundaryTexts boundaries ++ boundaryTexts more := filterMap_append

theorem butLast_append_last {α : Type} (n : ℕ) (l : List α) : butLast n l ++ last n l = l :=
  take_append_drop _ _

theorem texts_eq (turn : PairedTurn P) : turn.texts = boundaryTexts turn.boundaries := by
  unfold PairedTurn.texts boundaryTexts PairedTurn.boundaries
  rw [turn.paired, filterMap_filterMap]
  exact filterMap_congr fun item _ => by cases itemBoundary P item <;> rfl

theorem turnsLeft_concat (before : List (PairedEntry P)) (entry : PairedEntry P) :
    turnsLeft (before ++ [entry]) = turnsStep (turnsLeft before) entry := foldl_concat ..

theorem boundariesLeft_concat (before : List (PairedEntry P)) (entry : PairedEntry P) :
    boundariesLeft (before ++ [entry]) = boundariesStep (boundariesLeft before) entry := foldl_concat ..

/-! ### The history -/

section replay
variable (truncateText : Str → TruncationPolicy → Str)
  (truncate : Truncate) (policy : TruncationPolicy)

theorem boundaryOf_of_not_isApiMessage (h : isApiMessage item = false) :
    boundaryOf P item = none := by
  cases item with
  | message id role content phase =>
    have hrole : role = "system" := not_not.mp (of_decide_eq_false h)
    have hno : isUserTurnBoundary P (.message id role content phase) = false := by
      rw [hrole]
      simp only [isUserTurnBoundary, decide_eq_false (by decide : ¬ "system" = user),
        decide_eq_false (by decide : ¬ "system" = assistant)]
      rfl
    unfold boundaryOf
    rw [hno]
    rfl
  | other => rfl
  | _ => exact absurd h (by simp [isApiMessage])

theorem boundaries_replayItem (history : ContextManager) {item : RolloutItem} (h : Plain item) :
    boundaries P (replayItem P truncateText truncate policy history item).items =
      boundaries P history.items ++ (itemBoundary P item).toList := by
  cases item with
  | responseItem item =>
    show boundaries P (history.items ++ ([item].filter isApiMessage).map
      (processItem truncate policy)) = boundaries P history.items ++ (boundaryOf P item).toList
    unfold boundaries
    rw [filterMap_append]
    congr 1
    cases hapi : isApiMessage item with
    | false =>
      rw [boundaryOf_of_not_isApiMessage hapi, filter_cons_of_neg (by rw [hapi]; decide)]
      rfl
    | true =>
      rw [filter_cons_of_pos hapi, filter_nil, map_singleton,
        show boundaryOf P item = boundaryOf P (processItem truncate policy item) by cases item <;> rfl]
      cases hboundary : boundaryOf P (processItem truncate policy item) <;> simp [hboundary]
  | compacted compacted => exact h.elim
  | eventMsg event =>
    cases event with
    | threadRolledBack numTurns => exact h.elim
    | _ => exact (append_nil _).symm
  | _ => exact (append_nil _).symm

theorem boundaries_foldl_body : ∀ (body : List RolloutItem) (history : ContextManager),
    (∀ item ∈ body, Plain item) →
    boundaries P (body.foldl (replayItem P truncateText truncate policy) history).items =
      boundaries P history.items ++ body.filterMap (itemBoundary P)
  | [], history, _ => (append_nil _).symm
  | item :: body, history, hplain => by
    obtain ⟨hitem, hbody⟩ := forall_mem_cons.mp hplain
    rw [foldl_cons, boundaries_foldl_body body _ hbody,
      boundaries_replayItem truncateText truncate policy history hitem, append_assoc]
    congr 1
    cases hboundary : itemBoundary P item with
    | none => rw [filterMap_cons_none hboundary]; rfl
    | some boundary => rw [filterMap_cons_some hboundary]; rfl

theorem boundaries_foldl_entry (history : ContextManager) (entry : PairedEntry P) :
    boundaries P (entry.items.foldl (replayItem P truncateText truncate policy) history).items =
      boundariesStep (boundaries P history.items) entry := by
  cases entry with
  | turn t =>
    show boundaries P ((t.body ++ [_]).foldl _ history).items = _
    rw [foldl_append]
    exact boundaries_foldl_body truncateText truncate policy t.body history t.plain
  | rollback numTurns => exact boundaries_dropLastNUserTurns P history numTurns
  | unrelated item hitem =>
    cases hitem <;> rfl

theorem boundaries_foldl : ∀ (entries : List (PairedEntry P)) (history : ContextManager),
    boundaries P ((pairedRollout entries).foldl (replayItem P truncateText truncate policy) history).items =
      entries.foldl boundariesStep (boundaries P history.items)
  | [], _ => rfl
  | entry :: entries, history => by
    show boundaries P ((entry.items ++ pairedRollout entries).foldl _ history).items = _
    rw [foldl_append, boundaries_foldl entries, boundaries_foldl_entry]
    rfl

/-- There is no compaction, so the whole rollout is replayed. -/
theorem newestCheckpoint_pairedRollout (entries : List (PairedEntry P)) :
    newestCheckpoint (pairedRollout entries) = none := by
  rw [newestCheckpoint_eq_none_iff]
  intro item hitem
  obtain ⟨entry, -, hmem⟩ := mem_flatMap.mp hitem
  cases entry with
  | turn t =>
    obtain rfl | hmem := mem_cons.mp hmem
    · rfl
    · obtain hmem | hmem := mem_append.mp hmem
      · have hplain := t.plain item hmem
        cases item with
        | compacted compacted => exact hplain.elim
        | _ => rfl
      · rw [mem_singleton.mp hmem]
        rfl
  | rollback numTurns =>
    rw [mem_singleton.mp hmem]
    rfl
  | unrelated other hother =>
    rw [mem_singleton.mp hmem]
    cases hother <;> rfl

/-- The texts of the messages of users in a history. -/
def historyTexts (P : Parsers) (items : List ResponseItem) : List Str := items.filterMap (userMessage P)

theorem historyTexts_eq (items : List ResponseItem) : historyTexts P items = boundaryTexts (boundaries P items) := by
  unfold historyTexts boundaryTexts boundaries
  rw [filterMap_filterMap]
  refine filterMap_congr fun item _ => ?_
  rw [userMessage_eq]
  cases boundaryOf P item <;> rfl

/-- **The history of a rollout has the texts of the boundaries that are left.** -/
theorem historyTexts_reconstruct (entries : List (PairedEntry P)) :
    historyTexts P (reconstructHistoryFromRollout P truncateText truncate policy (pairedRollout entries)).history =
      boundaryTexts (boundariesLeft entries) := by
  rw [(replaysForward_of_noCheckpoint P truncateText truncate policy (newestCheckpoint_pairedRollout entries)).1,
    historyTexts_eq]
  exact congrArg boundaryTexts (boundaries_foldl truncateText truncate policy entries .new)

end replay

/-! ### The client -/

def inputText : UserInput → Str
  | .text text _ => text
  | _ => []

/-- The text of a message of a user. -/
def itemText : ThreadItem → Option Str
  | .userMessage _ content => some (content.flatMap inputText)
  | _ => none

def shownTexts (items : List ThreadItem) : List Str := items.filterMap itemText

/-- The texts of the messages of users that a client shows. -/
def clientTexts (turns : List Turn) : List Str := turns.flatMap fun turn => shownTexts turn.items

/-- What is shown of a message: one of blanks has no text. -/
def shownText (message : Str) : Str := if isBlank message then [] else message

/-- The item with the identifier is the message of a user. -/
def isMessageId (id : Str) (items : List ThreadItem) : Bool :=
  (items.find? fun item => item.id = id).any fun item => (itemText item).isSome

/-- The items of the turn into which the item of a tool is put. -/
def targetItems (s : ThreadHistoryBuilder) (event : ToolEvent) (turnId : Str) :
    List ThreadItem :=
  let current := (s.currentTurn.map (·.items)).getD []
  let named := if s.currentTurn.any fun turn => turn.id = turnId then current
    else ((s.turns.find? fun turn => turn.id = turnId).map (·.items)).getD []
  match routeOf event with
  | .currentTurn => current
  | .turnId => named
  | .turnIdOrCurrent => if turnId = [] then current else named

/-- The item of a tool takes the place of a message of a user. -/
def overwrites (s : ThreadHistoryBuilder) : RolloutItem → Bool
  | .eventMsg (.tool event turnId (some item)) => isMessageId item.id (targetItems s event turnId)
  | _ => false

/-- Some item of a turn does so, in the state that is reached before it. -/
def loses (P : Parsers) (uuid : ℕ → Uuid) : ThreadHistoryBuilder → List RolloutItem → Bool
  | _, [] => false
  | s, item :: body => overwrites s item || loses P uuid (s.handleRolloutItem P uuid item) body

/-! ### What is lost of the texts -/

/-- The texts of the turns stay as they are, or are fewer where some are lost. -/
def Loses (lost : Bool) (old new : List (List Str)) : Prop :=
  if lost then new.flatten.length < old.flatten.length else new = old

variable {lost lost' : Bool} {old new : List (List Str)}

theorem Loses.trans {newer : List (List Str)} (h : Loses lost old new) (h' : Loses lost' new newer) :
    Loses (lost || lost') old newer := by
  cases lost with
  | false =>
    obtain rfl : new = old := h
    exact h'
  | true =>
    cases lost' with
    | false =>
      obtain rfl : newer = new := h'
      exact h
    | true => exact Nat.lt_trans (m := new.flatten.length) h' h

theorem Loses.append (h : Loses lost old new) (before after : List (List Str)) :
    Loses lost (before ++ (old ++ after)) (before ++ (new ++ after)) := by
  unfold Loses at h ⊢
  split_ifs at h ⊢
  · simpa using h
  · rw [h]

/-- More texts in the last turn. -/
theorem Loses.push {turns turns' : List (List Str)} {texts texts' : List Str}
    (h : Loses lost (turns ++ [texts]) (turns' ++ [texts'])) (more : List Str) :
    Loses lost (turns ++ [texts ++ more]) (turns' ++ [texts' ++ more]) := by
  unfold Loses at h ⊢
  split_ifs at h ⊢
  · simp only [flatten_append, flatten_singleton, length_append] at h ⊢
    omega
  · obtain ⟨rfl, htexts⟩ := append_inj' h rfl
    rw [(List.cons.inj htexts).1]

theorem shownTexts_append (items : List ThreadItem) (item : ThreadItem) :
    shownTexts (items ++ [item]) = shownTexts items ++ (itemText item).toList := by
  unfold shownTexts
  rw [filterMap_append]
  cases h : itemText item <;> simp [h]

theorem shownTexts_cons (item : ThreadItem) (items : List ThreadItem) :
    shownTexts (item :: items) = (itemText item).toList ++ shownTexts items := by
  unfold shownTexts
  rw [filterMap_cons]
  cases itemText item <;> rfl

/-- The item of a tool replaces a message exactly if it has its identifier. -/
theorem loses_upsertTurnItem {item : ThreadItem} (htext : itemText item = none) : ∀ items : List ThreadItem,
    Loses (isMessageId item.id items) [shownTexts items] [shownTexts (upsertTurnItem item items)]
  | [] => by
    show [shownTexts [item]] = [shownTexts []]
    rw [shownTexts_cons, htext]
    rfl
  | existing :: items => by
    unfold upsertTurnItem
    by_cases hid : existing.id = item.id
    · have hfound : isMessageId item.id (existing :: items) = (itemText existing).isSome := by
        simp [isMessageId, hid]
      rw [if_pos hid, hfound, shownTexts_cons, shownTexts_cons, htext]
      cases itemText existing <;> simp [Loses]
    · have hfound : isMessageId item.id (existing :: items) = isMessageId item.id items := by
        simp [isMessageId, hid]
      rw [if_neg hid, hfound, shownTexts_cons, shownTexts_cons]
      have hrest := loses_upsertTurnItem htext items
      unfold Loses at hrest ⊢
      split_ifs at hrest ⊢
      · simpa using hrest
      · rw [(List.cons.inj hrest).1]

theorem loses_modifyTurn {item : ThreadItem} (htext : itemText item = none) (turnId : Str) : ∀ turns : List Turn,
    Loses (isMessageId item.id (((turns.find? fun turn => turn.id = turnId).map (·.items)).getD []))
      (turns.map fun turn => shownTexts turn.items)
      ((modifyTurn turnId (fun turn => { turn with items := upsertTurnItem item turn.items }) turns).map
        fun turn => shownTexts turn.items)
  | [] => rfl
  | turn :: turns => by
    unfold modifyTurn
    by_cases hid : turn.id = turnId
    · rw [find?_cons_of_pos (p := fun turn : Turn => turn.id = turnId) (decide_eq_true hid), if_pos hid]
      exact (loses_upsertTurnItem htext turn.items).append [] _
    · rw [find?_cons_of_neg (p := fun turn : Turn => turn.id = turnId) (by rwa [decide_eq_true_eq]), if_neg hid]
      simpa using (loses_modifyTurn htext turnId turns).append [shownTexts turn.items] []

/-! ### The turns of the client -/

/-- The texts of finished turns, and of the turn `id` that was opened and is not finished. -/
structure Shows (s : ThreadHistoryBuilder) (turns : List (List Str)) (id : Str) (texts : List Str) :
    Prop where
  finished : s.turns.map (fun turn => shownTexts turn.items) = turns
  current : ∃ turn, s.currentTurn = some turn ∧ turn.id = id ∧ turn.openedExplicitly ∧
    shownTexts turn.items = texts

theorem text_buildUserInputs (payload : UserMessageEvent) :
    (buildUserInputs payload).flatMap inputText = shownText payload.message := by
  unfold buildUserInputs shownText
  rw [flatMap_append, flatMap_append, flatMap_map, flatMap_map]
  have hnone : ∀ {f : Str → UserInput} (images : List Str), (∀ image, inputText (f image) = []) →
      (images.flatMap fun image => inputText (f image)) = [] := fun _ h => flatMap_eq_nil_iff.mpr fun image _ => h image
  rw [hnone _ fun _ => rfl, hnone _ fun _ => rfl, append_nil, append_nil]
  cases isBlank payload.message <;> simp [inputText]

section steps
variable {s : ThreadHistoryBuilder} {turns : List (List Str)} {id : Str} {texts : List Str}

open ThreadHistory ThreadHistoryBuilder

theorem Shows.modifyCurrentTurn (h : Shows s turns id texts) {f : PendingTurn → PendingTurn} {texts' : List Str}
    (hf : ∀ turn, s.currentTurn = some turn → (f turn).id = turn.id ∧
      (f turn).openedExplicitly = turn.openedExplicitly ∧
      (shownTexts turn.items = texts → shownTexts (f turn).items = texts')) :
    Shows (s.modifyCurrentTurn f) turns id texts' := by
  obtain ⟨turn, hturn, hid, hopened, htexts⟩ := h.current
  obtain ⟨hid', hopened', hitems⟩ := hf turn hturn
  refine ⟨h.finished, f turn, ?_, hid'.trans hid, hopened'.trans hopened, hitems htexts⟩
  unfold ThreadHistoryBuilder.modifyCurrentTurn
  rw [hturn]
  rfl

theorem Shows.modifyQuiet (h : Shows s turns id texts) {f : PendingTurn → PendingTurn}
    (hf : ∀ turn, (f turn).id = turn.id ∧ (f turn).openedExplicitly = turn.openedExplicitly ∧
      (f turn).items = turn.items) : Shows (s.modifyCurrentTurn f) turns id texts :=
  h.modifyCurrentTurn fun turn _ => ⟨(hf turn).1, (hf turn).2.1, fun htexts => by rw [(hf turn).2.2, htexts]⟩

theorem Shows.ensureTurn_eq (h : Shows s turns id texts) (uuid : ℕ → Uuid) : s.ensureTurn uuid = s := by
  obtain ⟨turn, hturn, -⟩ := h.current
  unfold ensureTurn
  rw [hturn]

theorem Shows.modifyItems (uuid : ℕ → Uuid) (h : Shows s turns id texts) {f : List ThreadItem → List ThreadItem}
    {texts' : List Str} (hf : ∀ items, shownTexts items = texts → shownTexts (f items) = texts') :
    Shows (s.modifyItems uuid f) turns id texts' := by
  unfold ThreadHistoryBuilder.modifyItems
  rw [h.ensureTurn_eq uuid]
  exact h.modifyCurrentTurn fun turn _ => ⟨rfl, rfl, hf turn.items⟩

/-- Only the turns count. -/
theorem Shows.congr {s' : ThreadHistoryBuilder} (h : Shows s turns id texts) (hturns : s'.turns = s.turns)
    (hcurrent : s'.currentTurn = s.currentTurn) : Shows s' turns id texts :=
  ⟨hturns ▸ h.finished, hcurrent ▸ h.current⟩

theorem Shows.advance (h : Shows s turns id texts) : Shows s.advance turns id texts := h.congr rfl rfl

section

variable (uuid : ℕ → Uuid) (h : Shows s turns id texts) {item : Str → ThreadItem}
include h

theorem Shows.pushItem {more : List Str} (hmore : ∀ id, (itemText (item id)).toList = more) :
    Shows (s.pushItem uuid item) turns id (texts ++ more) :=
  (show Shows { s with nextItemIndex := s.nextItemIndex + 1 } turns id texts from h.congr rfl rfl).modifyItems uuid fun items htexts => by rw [shownTexts_append, hmore, htexts]

theorem Shows.pushQuiet (hmore : ∀ id, itemText (item id) = none) : Shows (s.pushItem uuid item) turns id texts := by
  have hpush : Shows (s.pushItem uuid item) turns id (texts ++ []) := h.pushItem uuid fun id => by rw [hmore]; rfl
  rwa [append_nil] at hpush

end

section

variable (uuid : ℕ → Uuid) (h : Shows s turns id texts)
include h

theorem Shows.handleTool (event : ToolEvent) (turnId : Str) (item : ToolItem) :
    ∃ turns' texts', Shows (s.handleTool uuid event turnId item) turns' id texts' ∧
      Loses (isMessageId item.id (targetItems s event turnId)) (turns ++ [texts]) (turns' ++ [texts']) := by
  obtain ⟨turn, hturn, -, -, htexts⟩ := h.current
  have hitems : (s.currentTurn.map (·.items)).getD [] = turn.items := by rw [hturn]; rfl
  have htool : itemText (.tool event item) = none := rfl
  have hupsert := loses_upsertTurnItem htool turn.items
  rw [htexts] at hupsert
  have hcurrent : ∃ turns' texts', Shows (s.upsertItemInCurrentTurn uuid (.tool event item)) turns' id texts' ∧
      Loses (isMessageId item.id turn.items) (turns ++ [texts]) (turns' ++ [texts']) := by
    refine ⟨turns, _, ?_, hupsert.append turns []⟩
    unfold upsertItemInCurrentTurn ThreadHistoryBuilder.modifyItems
    rw [h.ensureTurn_eq uuid]
    exact h.modifyCurrentTurn fun turn' hturn' => ⟨rfl, rfl, fun _ => by rw [Option.mem_unique hturn hturn']⟩
  have hid : ∃ turns' texts', Shows (s.upsertItemInTurnId turnId (.tool event item)) turns' id texts' ∧
      Loses (isMessageId item.id (if s.currentTurn.any fun turn => turn.id = turnId then turn.items
        else ((s.turns.find? fun turn => turn.id = turnId).map (·.items)).getD []))
        (turns ++ [texts]) (turns' ++ [texts']) := by
    unfold upsertItemInTurnId
    split_ifs
    · refine ⟨turns, _, ?_, hupsert.append turns []⟩
      exact h.modifyCurrentTurn fun turn' hturn' => ⟨rfl, rfl, fun _ => by rw [Option.mem_unique hturn hturn']⟩
    · have hmodify := loses_modifyTurn htool turnId s.turns
      rw [h.finished] at hmodify
      exact ⟨_, texts, ⟨rfl, h.current⟩, hmodify.append [] [texts]⟩
  unfold ThreadHistoryBuilder.handleTool targetItems
  simp only [hitems]
  cases routeOf event with
  | currentTurn => exact hcurrent
  | turnId => exact hid
  | turnIdOrCurrent =>
    by_cases hempty : turnId = []
    · simp only [if_pos hempty]
      exact hcurrent
    · simp only [if_neg hempty]
      exact hid

theorem Shows.reasoning {grow : Str → List Str → List Str → ThreadItem} {push : Str → ThreadItem}
    (hgrow : ∀ id summary content, itemText (grow id summary content) = none) (hpush : ∀ id, itemText (push id) = none) :
    Shows (match s.lastItem with
      | some (.reasoning id summary content) => s.setLastItem (grow id summary content)
      | _ => s.pushItem uuid push) turns id texts := by
  split
  · rename_i itemId summary content hlast
    refine h.modifyCurrentTurn fun turn hturn => ⟨rfl, rfl, fun htexts => ?_⟩
    unfold lastItem at hlast
    rw [hturn] at hlast
    have hitems : turn.items = turn.items.dropLast ++ [.reasoning itemId summary content] :=
      (dropLast_append_getLast? _ hlast).symm
    rw [hitems, shownTexts_append] at htexts
    rw [shownTexts_append, hgrow]
    exact htexts
  · exact h.pushQuiet uuid hpush

theorem Shows.handleUserMessage (payload : UserMessageEvent) :
    Shows (s.handleUserMessage uuid payload) turns id (texts ++ [shownText payload.message]) := by
  obtain ⟨turn, hturn, -, hopened, -⟩ := h.current
  have hstays : (s.currentTurn.any fun turn =>
      !turn.openedExplicitly && !(turn.sawCompaction && turn.items.isEmpty)) = false := by
    rw [hturn]
    simp [hopened]
  unfold ThreadHistoryBuilder.handleUserMessage
  rw [hstays]
  exact h.pushItem uuid fun _ => congrArg (fun text => [text]) (text_buildUserInputs payload)

theorem Shows.handleResponseItem (item : ResponseItem) : Shows (s.handleResponseItem P uuid item) turns id texts := by
  have hprompt : ∀ (s : ThreadHistoryBuilder) (promptId : Str) (fragments : List HookPromptFragment),
      Shows s turns id texts → Shows (s.modifyItems uuid fun items => items ++ [.hookPrompt promptId fragments])
        turns id texts := by
    intro s promptId fragments hs
    exact hs.modifyItems uuid fun items htexts => by rw [shownTexts_append, htexts]; exact append_nil _
  unfold ThreadHistoryBuilder.handleResponseItem
  split
  · split_ifs
    · split
      · exact hprompt s _ _ h
      · exact hprompt _ _ _ (h.congr rfl rfl)
      · exact h
    · exact h
  · exact h

theorem Shows.handleRolloutItem {item : RolloutItem} (hitem : Plain item) :
    ∃ turns' texts', Shows (s.handleRolloutItem P uuid item) turns' id
        (texts' ++ (eventText item).toList.map shownText) ∧
      Loses (overwrites s item) (turns ++ [texts]) (turns' ++ [texts']) := by
  have hquiet : ∀ {s : ThreadHistoryBuilder}, Shows s turns id texts →
      ∃ turns' texts', Shows s turns' id (texts' ++ []) ∧ Loses false (turns ++ [texts]) (turns' ++ [texts']) :=
    fun hs => ⟨turns, texts, by rwa [append_nil], rfl⟩
  have hadvance := h.advance
  cases item with
  | sessionMeta | turnContext => exact hquiet hadvance
  | compacted compacted => exact hitem.elim
  | responseItem item => exact hquiet (hadvance.handleResponseItem uuid item)
  | eventMsg event =>
    cases event with
    | userMessage payload => exact ⟨turns, texts, hadvance.handleUserMessage uuid payload, rfl⟩
    | agentMessage message phase memoryCitation =>
      refine hquiet ?_
      show Shows (if message = [] then _ else _) turns id texts
      split_ifs
      · exact hadvance
      · exact hadvance.pushQuiet uuid fun _ => rfl
    | agentReasoning text | agentReasoningRawContent text =>
      refine hquiet ?_
      show Shows (if text = [] then _ else _) turns id texts
      rw [hadvance.ensureTurn_eq uuid]
      split_ifs
      · exact hadvance
      · exact hadvance.reasoning uuid (fun _ _ _ => rfl) fun _ => rfl
    | tool event turnId item =>
      cases item with
      | none => exact hquiet hadvance
      | some item =>
        obtain ⟨turns', texts', hshows, hloses⟩ := hadvance.handleTool uuid event turnId item
        refine ⟨turns', texts', ?_, hloses⟩
        show Shows _ turns' id (texts' ++ [])
        rwa [append_nil]
    | contextCompacted => exact hquiet (hadvance.pushQuiet uuid fun _ => rfl)
    | enteredReviewMode userFacingHint =>
      refine hquiet ?_
      show Shows (s.advance.pushItem uuid fun id => .enteredReviewMode id _) turns id texts
      exact hadvance.pushQuiet uuid fun _ => rfl
    | exitedReviewMode overallExplanation =>
      refine hquiet ?_
      show Shows (s.advance.pushItem uuid fun id => .exitedReviewMode id _) turns id texts
      exact hadvance.pushQuiet uuid fun _ => rfl
    | error affectsTurnStatus message info =>
      refine hquiet ?_
      show Shows (if affectsTurnStatus then _ else _) turns id texts
      split_ifs
      · exact hadvance.modifyQuiet fun _ => ⟨rfl, rfl, rfl⟩
      · exact hadvance
    | other => exact hquiet hadvance
    | _ => exact hitem.elim

end

/-- The texts after the body of a turn, and whether some are lost. -/
theorem Shows.foldl (uuid : ℕ → Uuid) : ∀ (body : List RolloutItem) {s : ThreadHistoryBuilder}
    {turns : List (List Str)} {texts : List Str}, Shows s turns id texts → (∀ item ∈ body, Plain item) →
    ∃ turns' texts', Shows (body.foldl (ThreadHistoryBuilder.handleRolloutItem P uuid) s) turns' id texts' ∧
      Loses (loses P uuid s body) (turns ++ [texts ++ (body.filterMap eventText).map shownText])
        (turns' ++ [texts'])
  | [], s, turns, texts, h, _ => by
    refine ⟨turns, texts, h, ?_⟩
    show turns ++ [texts] = turns ++ [texts ++ []]
    rw [append_nil]
  | item :: body, s, turns, texts, h, hplain => by
    obtain ⟨hitem, hbody⟩ := forall_mem_cons.mp hplain
    obtain ⟨turns₁, texts₁, hstep, hloses⟩ := h.handleRolloutItem uuid hitem
    obtain ⟨turns₂, texts₂, hrest, hloses'⟩ := Shows.foldl uuid body hstep hbody
    refine ⟨turns₂, texts₂, hrest, ?_⟩
    have htexts : (item :: body).filterMap eventText = (eventText item).toList ++ body.filterMap eventText := by
      rw [filterMap_cons]
      cases eventText item <;> rfl
    rw [append_assoc] at hloses'
    rw [htexts, map_append]
    exact (hloses.push _).trans hloses'

/-- All turns are finished. -/
structure Rests (s : ThreadHistoryBuilder) (turns : List (List Str)) : Prop where
  finished : s.turns.map (fun turn => shownTexts turn.items) = turns
  current : s.currentTurn = none

theorem Rests.finishCurrentTurn_eq (h : Rests s turns) : s.finishCurrentTurn = s := by
  unfold finishCurrentTurn
  rw [h.current]

theorem Rests.handleTurnStarted (h : Rests s turns) (turnId : Str) (startedAt : Option ℤ) :
    Shows (s.handleTurnStarted turnId startedAt) turns turnId [] := by
  unfold ThreadHistoryBuilder.handleTurnStarted
  rw [h.finishCurrentTurn_eq]
  exact ⟨h.finished, _, rfl, rfl, rfl, rfl⟩

theorem Shows.finishCurrentTurn (h : Shows s turns id texts) : Rests s.finishCurrentTurn (turns ++ [texts]) := by
  obtain ⟨turn, hturn, -, hopened, htexts⟩ := h.current
  have hfinish : s.finishCurrentTurn = { s with turns := s.turns ++ [turn.toTurn], currentTurn := none } := by
    rw [ThreadHistoryBuilder.finishCurrentTurn, hturn]
    exact if_neg (by simp [hopened])
  rw [hfinish]
  refine ⟨?_, rfl⟩
  rw [map_append, h.finished]
  exact congrArg (fun x => turns ++ [x]) htexts

theorem Shows.handleTurnComplete (h : Shows s turns id texts) (completedAt durationMs : Option ℤ) :
    Rests (s.handleTurnComplete id completedAt durationMs) (turns ++ [texts]) := by
  obtain ⟨turn, hturn, hid, -⟩ := h.current
  have hcurrent : (s.currentTurn.any fun turn => turn.id = id) = true := by
    rw [hturn]
    exact decide_eq_true hid
  unfold ThreadHistoryBuilder.handleTurnComplete
  simp only [hcurrent, if_true]
  apply Shows.finishCurrentTurn
  exact h.modifyQuiet fun _ => ⟨rfl, rfl, rfl⟩

theorem Rests.handleThreadRollback (h : Rests s turns) (numTurns : ℕ) :
    Rests (s.handleThreadRollback numTurns) (butLast numTurns turns) := by
  have hlength : s.turns.length = turns.length := by
    rw [← h.finished, length_map]
  have hturns := turns_handleThreadRollback s numTurns
  rw [h.finishCurrentTurn_eq] at hturns
  refine ⟨?_, currentTurn_handleThreadRollback s numTurns⟩
  rw [hturns, map_take, h.finished, hlength]
  rfl

theorem Rests.advance (h : Rests s turns) : Rests s.advance turns := ⟨h.finished, h.current⟩

end steps

section agreement
variable (uuid : ℕ → Uuid) (truncateText : Str → TruncationPolicy → Str)
  (truncate : Truncate) (policy : TruncationPolicy)

/-- The client and the model have the same texts of messages of users. -/
def Agree (entries : List (PairedEntry P)) : Prop :=
  clientTexts (buildTurnsFromRolloutItems P uuid (pairedRollout entries)) =
    historyTexts P (reconstructHistoryFromRollout P truncateText truncate policy (pairedRollout entries)).history

/-- The builder after some items. -/
def builderAfter (P : Parsers) (uuid : ℕ → Uuid) (items : List RolloutItem) :
    ThreadHistoryBuilder :=
  items.foldl (ThreadHistoryBuilder.handleRolloutItem P uuid) .new

/-- The entry means the same to both: a turn has no message of blanks and loses none to an item of a tool, and a
rollback finds as many messages in the last turns as in the last boundaries. -/
def Means (before : List (PairedEntry P)) : PairedEntry P → Prop
  | .turn t => (∀ text ∈ t.texts, isBlank text → text = []) ∧
      loses P uuid ((builderAfter P uuid (pairedRollout before)).handleRolloutItem P uuid
        (.eventMsg (.turnStarted t.id t.startedAt))) t.body = false
  | .rollback numTurns => ((last numTurns (turnsLeft before)).flatMap PairedTurn.texts).length =
      (boundaryTexts (last numTurns (boundariesLeft before))).length
  | .unrelated _ _ => True

/-- Both lists hold what is left of the entries. -/
structure Follows (before : List (PairedEntry P)) : Prop where
  rests : Rests (builderAfter P uuid (pairedRollout before)) ((turnsLeft before).map PairedTurn.texts)
  same : (turnsLeft before).flatMap PairedTurn.texts = boundaryTexts (boundariesLeft before)

variable {uuid} {before : List (PairedEntry P)} {entry : PairedEntry P}

theorem clientTexts_of_rests {items : List RolloutItem} {turns : List (List Str)}
    (h : Rests (builderAfter P uuid items) turns) :
    clientTexts (buildTurnsFromRolloutItems P uuid items) = turns.flatten := by
  have hfinish := h.finishCurrentTurn_eq
  unfold builderAfter at h hfinish
  unfold buildTurnsFromRolloutItems ThreadHistoryBuilder.finish clientTexts
  rw [hfinish, flatMap_def, h.finished]

theorem Follows.agree (h : Follows uuid before) : Agree uuid truncateText truncate policy before := by
  unfold Agree
  rw [clientTexts_of_rests h.rests, historyTexts_reconstruct, ← flatMap_def, h.same]

theorem builderAfter_concat : builderAfter P uuid (pairedRollout (before ++ [entry])) =
    entry.items.foldl (ThreadHistoryBuilder.handleRolloutItem P uuid)
      (builderAfter P uuid (pairedRollout before)) := by
  unfold builderAfter pairedRollout
  rw [flatMap_append, flatMap_singleton, foldl_append]

/-- The client after a turn. -/
theorem Rests.turn (uuid : ℕ → Uuid) {turns : List (List Str)}
    {s : ThreadHistoryBuilder} (h : Rests s turns) (t : PairedTurn P) : ∃ turns' texts',
      Rests (t.items.foldl (ThreadHistoryBuilder.handleRolloutItem P uuid) s) (turns' ++ [texts']) ∧
      Loses (loses P uuid (s.handleRolloutItem P uuid (.eventMsg (.turnStarted t.id t.startedAt))) t.body)
        (turns ++ [t.texts.map shownText]) (turns' ++ [texts']) := by
  have hstarted := h.advance.handleTurnStarted t.id t.startedAt
  obtain ⟨turns', texts', hbody, hloses⟩ := hstarted.foldl uuid t.body t.plain
  refine ⟨turns', texts', ?_, hloses⟩
  show Rests ((t.body ++ [_]).foldl _ (s.advance.handleTurnStarted t.id t.startedAt)) _
  rw [foldl_append]
  exact hbody.advance.handleTurnComplete t.completedAt t.durationMs

theorem map_shownText_eq_iff {texts : List Str} :
    texts.map shownText = texts ↔ ∀ text ∈ texts, isBlank text → text = [] := by
  have hshown : ∀ text, shownText text = text ↔ (isBlank text → text = []) := by
    intro text
    unfold shownText
    split_ifs with hblank
    · exact ⟨fun h _ => h.symm, fun h => (h hblank).symm⟩
    · exact iff_of_true rfl fun h => absurd h hblank
  nth_rewrite 2 [← map_id texts]
  rw [map_inj_left]
  exact forall₂_congr fun text _ => hshown text

/-- A turn is shown as it is exactly if no text is of blanks and none is lost. -/
theorem Loses.flatten_eq_iff {turns : List (List Str)} {texts : List Str}
    (h : Loses lost (turns ++ [texts.map shownText]) new) : new.flatten = (turns ++ [texts]).flatten ↔
      (∀ text ∈ texts, isBlank text → text = []) ∧ lost = false := by
  cases lost with
  | true =>
    refine iff_of_false (fun hflat => ?_) nofun
    have hlt : new.flatten.length < (turns ++ [texts.map shownText]).flatten.length := h
    rw [hflat] at hlt
    simp at hlt
  | false =>
    rw [show new = _ from h, flatten_append, flatten_append, flatten_singleton, flatten_singleton,
      append_cancel_left_eq, map_shownText_eq_iff, and_iff_left rfl]

/-- One entry: the texts agree after it exactly if it means the same to both. -/
theorem Follows.concat (h : Follows uuid before) (entry : PairedEntry P) :
    (Agree uuid truncateText truncate policy (before ++ [entry]) → Means uuid before entry) ∧
      (Means uuid before entry → Follows uuid (before ++ [entry])) := by
  have hhistory : historyTexts P (reconstructHistoryFromRollout P truncateText truncate policy
      (pairedRollout (before ++ [entry]))).history = boundaryTexts (boundariesStep (boundariesLeft before) entry) := by
    rw [historyTexts_reconstruct, boundariesLeft_concat]
  cases entry with
  | turn t =>
    obtain ⟨turns', texts', hrests, hloses⟩ := h.rests.turn uuid t
    have hrests : Rests (builderAfter P uuid (pairedRollout (before ++ [.turn t]))) (turns' ++ [texts']) := by
      rw [builderAfter_concat]
      exact hrests
    have htexts : boundaryTexts (boundariesStep (boundariesLeft before) (.turn t)) =
        ((turnsLeft before).map PairedTurn.texts ++ [t.texts]).flatten := by
      show boundaryTexts (boundariesLeft before ++ t.boundaries) = _
      rw [boundaryTexts_append, ← h.same, ← texts_eq, flatten_append, flatten_singleton, flatMap_def]
    constructor
    · intro hagree
      have hflat := (clientTexts_of_rests hrests).symm.trans (hagree.trans (hhistory.trans htexts))
      exact hloses.flatten_eq_iff.mp hflat
    · rintro ⟨hblank, hlost⟩
      rw [hlost] at hloses
      rw [show turns' ++ [texts'] = _ from hloses, map_shownText_eq_iff.mpr hblank] at hrests
      constructor
      · rw [turnsLeft_concat]
        show Rests _ ((turnsLeft before ++ [t]).map PairedTurn.texts)
        rwa [map_append]
      · rw [boundariesLeft_concat, htexts, turnsLeft_concat]
        show (turnsLeft before ++ [t]).flatMap PairedTurn.texts = _
        rw [flatMap_def, map_append]
        rfl
  | rollback n =>
    have hrests : Rests (builderAfter P uuid (pairedRollout (before ++ [.rollback n])))
        ((turnsLeft (before ++ [.rollback n])).map PairedTurn.texts) := by
      rw [builderAfter_concat, turnsLeft_concat]
      show Rests _ ((butLast n (turnsLeft before)).map PairedTurn.texts)
      have hmap : (butLast n (turnsLeft before)).map PairedTurn.texts =
          butLast n ((turnsLeft before).map PairedTurn.texts) := by
        unfold butLast
        rw [map_take, length_map]
      rw [hmap]
      exact h.rests.advance.handleThreadRollback n
    have hsame := h.same
    rw [← butLast_append_last n (turnsLeft before), ← butLast_append_last n (boundariesLeft before), flatMap_append,
      boundaryTexts_append] at hsame
    constructor
    · intro hagree
      have hflat := (clientTexts_of_rests hrests).symm.trans (hagree.trans hhistory)
      rw [turnsLeft_concat, ← flatMap_def] at hflat
      have hflat : (butLast n (turnsLeft before)).flatMap PairedTurn.texts =
        boundaryTexts (butLast n (boundariesLeft before)) := hflat
      rw [hflat] at hsame
      exact congrArg length (append_cancel_left hsame)
    · intro hlength
      refine ⟨hrests, ?_⟩
      rw [turnsLeft_concat, boundariesLeft_concat]
      exact (append_inj' hsame hlength).1
  | unrelated item hitem =>
    refine ⟨fun _ => trivial, fun _ => ⟨?_, ?_⟩⟩
    · rw [builderAfter_concat, turnsLeft_concat]
      cases hitem <;> exact h.rests.advance
    · rw [turnsLeft_concat, boundariesLeft_concat]
      exact h.same

/-- Both lists follow the entries as long as each means the same to them. -/
theorem follows_of_means {entries : List (PairedEntry P)}
    (h : ∀ before entry after, entries = before ++ entry :: after → Follows uuid before → Means uuid before entry) :
    ∀ before after, entries = before ++ after → Follows uuid before := by
  intro before
  induction before using List.reverseRecOn with
  | nil => exact fun _ _ => ⟨⟨rfl, rfl⟩, rfl⟩
  | append_singleton before entry ih =>
    intro after he
    have he : entries = before ++ entry :: after := by rw [he, append_assoc]; rfl
    have hbefore := ih _ he
    exact (hbefore.concat (fun text _ => text) (fun _ output => output) (.bytes 0) entry).2 (h _ _ _ he hbefore)

variable (uuid)

/-- **When a rollback means the same to both.**  The texts agree after every entry of a rollout exactly when
every entry means the same to both. -/
theorem agree_iff (entries : List (PairedEntry P)) :
    (∀ before after, entries = before ++ after → Agree uuid truncateText truncate policy before) ↔
      ∀ before entry after, entries = before ++ entry :: after → Means uuid before entry := by
  constructor
  · intro h before entry after he
    have hmeans : ∀ before entry after, entries = before ++ entry :: after → Follows uuid before →
        Means uuid before entry := fun before entry after he hfollows =>
      (hfollows.concat truncateText truncate policy entry).1 (h (before ++ [entry]) after (by rw [he, append_assoc]; rfl))
    exact hmeans before entry after he (follows_of_means hmeans before _ he)
  · intro h before after he
    exact (follows_of_means (fun before entry after he _ => h before entry after he) before after he).agree
      truncateText truncate policy

end agreement

end rollouts

/-- The user sends a second message while the first is answered. -/
def steeredBody : List RolloutItem :=
  [.responseItem (userTextItem "a"), .eventMsg (.userMessage (plainMessage "a")),
    .responseItem (userTextItem "b"), .eventMsg (.userMessage (plainMessage "b"))]

theorem plain_steeredBody : ∀ item ∈ steeredBody, Plain item := by
  simp [steeredBody, Plain]

/-- A turn in which the user sends a second message while the first is answered. -/
def steeredTurn : PairedTurn noParsers where
  id := "1"
  startedAt := none
  body := steeredBody
  completedAt := none
  durationMs := none
  plain := plain_steeredBody
  paired := by decide +kernel

/-- The turn is rolled back: the client shows nothing, the model keeps the first message. -/
theorem texts_steeredTurn :
    clientTexts (buildTurnsFromRolloutItems noParsers (fun _ => zeroUuid)
        (pairedRollout [.turn steeredTurn, .rollback 1])) = [] ∧
      historyTexts noParsers (reconstructHistoryFromRollout noParsers
        (fun text _ => text) (fun _ output => output) (.bytes 0)
        (pairedRollout [.turn steeredTurn, .rollback 1])).history = ["a".toList] := by
  decide +kernel

end OpenAgere.RollbackAgreement
