import Mathlib.Algebra.BigOperators.Group.List.Basic
import Mathlib.Algebra.Ring.Int.Defs
import OpenAgere.Text
import OpenAgere.Transition

/-! # The goals of threads

`state/src/runtime/goals.rs`: the table of thread goals, with at most one row for each thread.  The model has the row
of one thread; a call is what its SQL statement does to the row, with the id and the time it is given by its
surroundings.  Integers are unbounded.

In every run an active goal is below its budget, what a goal has used is what was accounted to it, a complete goal
changes its status only when it is told to or replaced, and a call that expects another goal changes nothing
(`kept_of_fresh`). -/

namespace OpenAgere.ThreadGoals

open List Option Transition

/-! ### Rows -/

inductive ThreadGoalStatus where
  | active
  | paused
  | blocked
  | usageLimited
  | budgetLimited
  | complete
deriving DecidableEq

/-- The text of a `Uuid`. -/
abbrev GoalId := Str

structure ThreadGoal where
  goalId : GoalId
  objective : Str
  status : ThreadGoalStatus
  tokenBudget : Option ℤ
  tokensUsed : ℤ
  timeUsedSeconds : ℤ
  createdAtMs : ℤ
  updatedAtMs : ℤ
deriving DecidableEq

/-- `token_budget IS NOT NULL AND tokens_used >= token_budget`. -/
def reached (tokenBudget : Option ℤ) (tokensUsed : ℤ) : Bool := tokenBudget.any (decide <| · ≤ tokensUsed)

def statusAfterBudgetLimit (status : ThreadGoalStatus) (tokensUsed : ℤ) (tokenBudget : Option ℤ) : ThreadGoalStatus :=
  if status = .active ∧ reached tokenBudget tokensUsed then .budgetLimited else status

/-- `? IS NULL OR goal_id = ?`. -/
def expects (expectedGoalId : Option GoalId) (goal : ThreadGoal) : Bool := expectedGoalId.all (· = goal.goalId)

/-- `UPDATE … SET … WHERE … RETURNING`: the row after it, and the row if it was changed. -/
def updateWhere (cond : ThreadGoal → Bool) (set : ThreadGoal → ThreadGoal) :
    Option ThreadGoal → Option ThreadGoal × Option ThreadGoal
  | none => (none, none)
  | some goal => if cond goal then (some (set goal), some (set goal)) else (some goal, none)

/-- `INSERT … ON CONFLICT(thread_id) DO UPDATE SET … WHERE … RETURNING`, where all columns are set. -/
def upsertWhere (cond : ThreadGoal → Bool) (goal : ThreadGoal) :
    Option ThreadGoal → Option ThreadGoal × Option ThreadGoal
  | none => (some goal, some goal)
  | some old => if cond old then (some goal, some goal) else (some old, none)

/-- An update whose result is read back when a row was affected. -/
def readBack (r : Option ThreadGoal × Option ThreadGoal) : Option ThreadGoal × Option ThreadGoal :=
  (r.1, if r.2.isNone then none else r.1)

theorem updateWhere_cases (cond : ThreadGoal → Bool) (set : ThreadGoal → ThreadGoal) (row : Option ThreadGoal) :
    updateWhere cond set row = (row, none) ∨
      ∃ goal, row = some goal ∧ cond goal ∧ updateWhere cond set row = (some (set goal), some (set goal)) := by
  cases row with
  | none => exact .inl rfl
  | some goal =>
    cases hc : cond goal with
    | false => exact .inl (if_neg (by rw [hc]; exact Bool.false_ne_true))
    | true => exact .inr ⟨goal, rfl, hc, if_pos hc⟩

theorem upsertWhere_cases (cond : ThreadGoal → Bool) (goal : ThreadGoal) (row : Option ThreadGoal) :
    upsertWhere cond goal row = (row, none) ∨ upsertWhere cond goal row = (some goal, some goal) := by
  cases row with
  | none => exact .inr rfl
  | some old =>
    cases hc : cond old with
    | false => exact .inl (if_neg (by rw [hc]; exact Bool.false_ne_true))
    | true => exact .inr (if_pos hc)

/-! ### Calls -/

/-- A goal that starts now. -/
def startGoal (goalId : GoalId) (nowMs : ℤ) (objective : Str) (status : ThreadGoalStatus) (tokenBudget : Option ℤ) :
    ThreadGoal :=
  ⟨goalId, objective, statusAfterBudgetLimit status 0 tokenBudget, tokenBudget, 0, 0, nowMs, nowMs⟩

def replaceThreadGoal (goalId : GoalId) (nowMs : ℤ) (objective : Str) (status : ThreadGoalStatus)
    (tokenBudget : Option ℤ) : Option ThreadGoal → Option ThreadGoal × Option ThreadGoal :=
  upsertWhere (fun _ => true) (startGoal goalId nowMs objective status tokenBudget)

def insertThreadGoal (goalId : GoalId) (nowMs : ℤ) (objective : Str) (status : ThreadGoalStatus)
    (tokenBudget : Option ℤ) : Option ThreadGoal → Option ThreadGoal × Option ThreadGoal :=
  upsertWhere (·.status = .complete) (startGoal goalId nowMs objective status tokenBudget)

structure ThreadGoalUpdate where
  objective : Option Str
  status : Option ThreadGoalStatus
  /-- The inner `none` removes the budget. -/
  tokenBudget : Option (Option ℤ)
  expectedGoalId : Option GoalId
deriving DecidableEq

/-- The `CASE` of the statements that set a status. -/
def statusAfterUpdate (old new : ThreadGoalStatus) (tokensUsed : ℤ) (tokenBudget : Option ℤ) : ThreadGoalStatus :=
  if old = .budgetLimited ∧ (new = .paused ∨ new = .blocked) then old
  else if new = .active ∧ reached tokenBudget tokensUsed then .budgetLimited
  else new

def updateThreadGoal (nowMs : ℤ) (update : ThreadGoalUpdate) (row : Option ThreadGoal) :
    Option ThreadGoal × Option ThreadGoal :=
  match update.status, update.tokenBudget with
  | some status, some tokenBudget =>
      readBack (updateWhere (expects update.expectedGoalId) (fun goal =>
        { goal with
          objective := update.objective.getD goal.objective
          status := statusAfterUpdate goal.status status goal.tokensUsed tokenBudget
          tokenBudget := tokenBudget
          updatedAtMs := nowMs }) row)
  | some status, none =>
      readBack (updateWhere (expects update.expectedGoalId) (fun goal =>
        { goal with
          objective := update.objective.getD goal.objective
          status := statusAfterUpdate goal.status status goal.tokensUsed goal.tokenBudget
          updatedAtMs := nowMs }) row)
  | none, some tokenBudget =>
      readBack (updateWhere (expects update.expectedGoalId) (fun goal =>
        { goal with
          objective := update.objective.getD goal.objective
          tokenBudget := tokenBudget
          status := statusAfterBudgetLimit goal.status goal.tokensUsed tokenBudget
          updatedAtMs := nowMs }) row)
  | none, none =>
      match update.objective with
      | some objective =>
          readBack (updateWhere (expects update.expectedGoalId) (fun goal =>
            { goal with objective := objective, updatedAtMs := nowMs }) row)
      | none => (row, row.filter (expects update.expectedGoalId))

/-- Active, or out of budget where the new status says more than that. -/
def stoppable (status : ThreadGoalStatus) (goal : ThreadGoal) : Bool :=
  goal.status = .active ∨ ((status = .usageLimited ∨ status = .blocked) ∧ goal.status = .budgetLimited)

def stopActiveThreadGoal (nowMs : ℤ) (status : ThreadGoalStatus) (expectedGoalId : Option GoalId)
    (row : Option ThreadGoal) : Option ThreadGoal × Option ThreadGoal :=
  readBack (updateWhere (fun goal => stoppable status goal && expects expectedGoalId goal)
    (fun goal => { goal with status := status, updatedAtMs := nowMs }) row)

def deleteThreadGoal (row : Option ThreadGoal) : Option ThreadGoal × Bool := (none, row.isSome)

inductive ThreadGoalAccountingMode where
  | activeStatusOnly
  | activeOnly
  | activeOrComplete
  | activeOrStopped
deriving DecidableEq

namespace ThreadGoalAccountingMode

def statusFilter : ThreadGoalAccountingMode → List ThreadGoalStatus
  | activeStatusOnly => [.active]
  | activeOnly => [.active, .budgetLimited]
  | activeOrComplete => [.active, .budgetLimited, .complete]
  | activeOrStopped => [.active, .paused, .blocked, .usageLimited, .budgetLimited]

def budgetLimitStatusFilter : ThreadGoalAccountingMode → List ThreadGoalStatus
  | activeStatusOnly | activeOnly | activeOrComplete => [.active]
  | activeOrStopped => [.active, .paused, .blocked, .usageLimited, .budgetLimited]

end ThreadGoalAccountingMode

inductive ThreadGoalAccountingOutcome where
  | unchanged (goal : Option ThreadGoal)
  | updated (goal : ThreadGoal)
deriving DecidableEq

/-- What accounting sets. -/
def charge (nowMs timeDeltaSeconds tokenDelta : ℤ) (mode : ThreadGoalAccountingMode) (goal : ThreadGoal) : ThreadGoal :=
  { goal with
    timeUsedSeconds := goal.timeUsedSeconds + timeDeltaSeconds
    tokensUsed := goal.tokensUsed + tokenDelta
    status :=
      if goal.status ∈ mode.budgetLimitStatusFilter ∧ reached goal.tokenBudget (goal.tokensUsed + tokenDelta)
      then .budgetLimited else goal.status
    updatedAtMs := nowMs }

def accountThreadGoalUsage (nowMs timeDeltaSeconds tokenDelta : ℤ) (mode : ThreadGoalAccountingMode)
    (expectedGoalId : Option GoalId) (row : Option ThreadGoal) : Option ThreadGoal × ThreadGoalAccountingOutcome :=
  if max timeDeltaSeconds 0 = 0 ∧ max tokenDelta 0 = 0 then (row, .unchanged row)
  else
    match updateWhere (fun goal => decide (goal.status ∈ mode.statusFilter) && expects expectedGoalId goal)
        (charge nowMs (max timeDeltaSeconds 0) (max tokenDelta 0) mode) row with
    | (row, none) => (row, .unchanged row)
    | (row, some goal) => (row, .updated goal)

/-! ### Runs -/

/-- The calls on one thread, with the ids and the times that are given to them. -/
inductive Call where
  | insert (goalId : GoalId) (nowMs : ℤ) (objective : Str) (status : ThreadGoalStatus) (tokenBudget : Option ℤ)
  | replace (goalId : GoalId) (nowMs : ℤ) (objective : Str) (status : ThreadGoalStatus) (tokenBudget : Option ℤ)
  | update (nowMs : ℤ) (update : ThreadGoalUpdate)
  | stop (nowMs : ℤ) (status : ThreadGoalStatus) (expectedGoalId : Option GoalId)
  | account (nowMs timeDeltaSeconds tokenDelta : ℤ) (mode : ThreadGoalAccountingMode) (expectedGoalId : Option GoalId)
  | delete
deriving DecidableEq

/-- An accounting call that returned an updated goal. -/
structure Charge where
  goalId : GoalId
  timeDeltaSeconds : ℤ
  tokenDelta : ℤ
deriving DecidableEq

/-- The row of the thread; `issued` and `charges` are what happened so far. -/
structure State where
  goal : Option ThreadGoal
  issued : List GoalId
  charges : List Charge
deriving DecidableEq

def State.empty : State := ⟨none, [], []⟩

/-- One call. -/
def step (s : State) : Call → State
  | .insert goalId nowMs objective status tokenBudget =>
      ⟨(insertThreadGoal goalId nowMs objective status tokenBudget s.goal).1, goalId :: s.issued, s.charges⟩
  | .replace goalId nowMs objective status tokenBudget =>
      ⟨(replaceThreadGoal goalId nowMs objective status tokenBudget s.goal).1, goalId :: s.issued, s.charges⟩
  | .update nowMs update => { s with goal := (updateThreadGoal nowMs update s.goal).1 }
  | .stop nowMs status expectedGoalId => { s with goal := (stopActiveThreadGoal nowMs status expectedGoalId s.goal).1 }
  | .account nowMs timeDeltaSeconds tokenDelta mode expectedGoalId =>
      match accountThreadGoalUsage nowMs timeDeltaSeconds tokenDelta mode expectedGoalId s.goal with
      | (row, .unchanged _) => { s with goal := row }
      | (row, .updated goal) =>
          { s with goal := row, charges := ⟨goal.goalId, timeDeltaSeconds, tokenDelta⟩ :: s.charges }
  | .delete => { s with goal := (deleteThreadGoal s.goal).1 }

def next (s : State) (call : Call) : Option State := some (step s call)

namespace Call

/-- The goal the call expects. -/
def expectedGoalId : Call → Option GoalId
  | update _ u => u.expectedGoalId
  | stop _ _ id => id
  | account _ _ _ _ id => id
  | _ => none

/-- The call is given a status to set. -/
def SetsStatus : Call → Prop
  | update _ u => u.status.isSome
  | _ => False

/-- The id the call is given for a goal it may start. -/
def newGoalId : Call → Option GoalId
  | insert id _ _ _ _ => some id
  | replace id _ _ _ _ => some id
  | _ => none

end Call

/-- `Uuid::new_v4` gives an id that was not given before. -/
def FreshId (s : State) (call : Call) : Prop := ∀ id ∈ call.newGoalId, id ∉ s.issued

instance decidableFreshId (s : State) (call : Call) : Decidable (FreshId s call) :=
  inferInstanceAs (Decidable (∀ id ∈ call.newGoalId, id ∉ s.issued))

/-! ### What is kept -/

/-- An active goal has no budget, or has used less. -/
def WithinBudget (goal : ThreadGoal) : Prop :=
  goal.status = .active → ∀ budget, goal.tokenBudget = some budget → goal.tokensUsed < budget

/-- The sum of a delta over the updates of a goal. -/
def total (delta : Charge → ℤ) (goalId : GoalId) (charges : List Charge) : ℤ :=
  ((charges.filter (·.goalId = goalId)).map delta).sum

/-- What the goal has used is the sum of the deltas accounted to it, as `delta` reads them. -/
structure Accounted (delta : ℤ → ℤ) (charges : List Charge) (goal : ThreadGoal) : Prop where
  tokens : goal.tokensUsed = total (fun c => delta c.tokenDelta) goal.goalId charges
  seconds : goal.timeUsedSeconds = total (fun c => delta c.timeDeltaSeconds) goal.goalId charges

/-- A negative delta counts as zero. -/
def counted (delta : ℤ) : ℤ := max delta 0

/-- What a call does to the goal that is stored. -/
structure Respects (s : State) (call : Call) : Prop where
  complete : ∀ goal goal', s.goal = some goal → goal.status = .complete → (step s call).goal = some goal' →
    goal'.status ≠ .complete → call.SetsStatus ∨ call.newGoalId = some goal'.goalId
  expected : ∀ goal id, s.goal = some goal → call.expectedGoalId = some id → id ≠ goal.goalId →
    (step s call).goal = some goal

/-- The stored goal is within its budget and its usage is accounted for; every call respects it. -/
structure Kept (delta : ℤ → ℤ) (s : State) : Prop where
  budget : ∀ goal, s.goal = some goal → WithinBudget goal
  accounted : ∀ goal, s.goal = some goal → Accounted delta s.charges goal
  calls : ∀ call, Respects s call

/-! ### The effect of a call -/

/-- What a call can do to the row of the thread, with the charge it makes. -/
inductive Effect (row : Option ThreadGoal) (call : Call) : Option ThreadGoal → List Charge → Prop
  | unchanged : Effect row call row []
  | deleted (h : call = .delete) : Effect row call none []
  | started {goal : ThreadGoal} (hid : call.newGoalId = some goal.goalId) (htokens : goal.tokensUsed = 0)
      (hseconds : goal.timeUsedSeconds = 0) (hbudget : WithinBudget goal) : Effect row call (some goal) []
  | edited {goal goal' : ThreadGoal} (hrow : row = some goal) (hexp : expects call.expectedGoalId goal)
      (hid : goal'.goalId = goal.goalId) (htokens : goal'.tokensUsed = goal.tokensUsed)
      (hseconds : goal'.timeUsedSeconds = goal.timeUsedSeconds) (hbudget : WithinBudget goal → WithinBudget goal')
      (hcomplete : goal.status = .complete → call.SetsStatus ∨ goal'.status = .complete) :
      Effect row call (some goal') []
  | charged {goal : ThreadGoal} {nowMs timeDelta tokenDelta : ℤ} {mode : ThreadGoalAccountingMode}
      (hrow : row = some goal) (hexp : expects call.expectedGoalId goal) :
      Effect row call (some (charge nowMs (counted timeDelta) (counted tokenDelta) mode goal))
        [⟨goal.goalId, timeDelta, tokenDelta⟩]

variable {tokenBudget : Option ℤ}

variable {goal : ThreadGoal} {status : ThreadGoalStatus}

/-- The budget rule, whichever `CASE` states it: a goal that would be active has not reached its budget. -/
theorem withinBudget_of_limited {p : Prop} [Decidable p]
    (hs : goal.status = if p ∧ reached goal.tokenBudget goal.tokensUsed then .budgetLimited else status)
    (hp : status = .active → p) : WithinBudget goal := by
  intro ha budget hb
  by_cases hr : reached goal.tokenBudget goal.tokensUsed
  · rw [hs] at ha
    split at ha
    · cases ha
    · rename_i hn
      exact absurd ⟨hp ha, hr⟩ hn
  · rw [hb, reached, any_some, decide_eq_true_eq] at hr
    exact not_le.mp hr

variable {goalId : GoalId} {nowMs : ℤ} {objective : Str}

theorem withinBudget_startGoal : WithinBudget (startGoal goalId nowMs objective status tokenBudget) :=
  withinBudget_of_limited rfl id

theorem withinBudget_statusAfterUpdate {old new : ThreadGoalStatus}
    (hs : goal.status = statusAfterUpdate old new goal.tokensUsed goal.tokenBudget) : WithinBudget goal := by
  unfold statusAfterUpdate at hs
  split at hs
  · rename_i h
    intro ha
    rw [hs, h.1] at ha
    cases ha
  · exact withinBudget_of_limited hs id

variable {row : Option ThreadGoal} {call : Call} {cond : ThreadGoal → Bool}

theorem effect_updateWhere {set : ThreadGoal → ThreadGoal}
    (hset : ∀ goal, cond goal → Effect (some goal) call (some (set goal)) []) :
    Effect row call (updateWhere cond set row).1 [] := by
  obtain h | ⟨goal, rfl, hc, h⟩ := updateWhere_cases cond set row
  · rw [h]
    exact .unchanged
  · rw [h]
    exact hset goal hc

theorem effect_upsertWhere (hid : call.newGoalId = some goalId) :
    Effect row call (upsertWhere cond (startGoal goalId nowMs objective status tokenBudget) row).1 [] := by
  obtain h | h := upsertWhere_cases cond (startGoal goalId nowMs objective status tokenBudget) row
  · rw [h]
    exact .unchanged
  · rw [h]
    exact .started hid rfl rfl withinBudget_startGoal

theorem effect_updateThreadGoal (nowMs : ℤ) (update : ThreadGoalUpdate) (row : Option ThreadGoal) :
    Effect row (.update nowMs update) (updateThreadGoal nowMs update row).1 [] := by
  obtain ⟨objective, status, tokenBudget, expectedGoalId⟩ := update
  cases status with
  | some status =>
    cases tokenBudget with
    | some | none =>
      exact effect_updateWhere fun goal hc => .edited rfl hc rfl rfl rfl
        (fun _ => withinBudget_statusAfterUpdate rfl) (fun _ => .inl rfl)
  | none =>
    cases tokenBudget with
    | some tokenBudget =>
      exact effect_updateWhere fun goal hc => .edited rfl hc rfl rfl rfl
        (fun _ => withinBudget_of_limited rfl id)
        (fun h => .inr ((if_neg fun hn => by rw [h] at hn; cases hn.1).trans h))
    | none =>
      cases objective with
      | some objective => exact effect_updateWhere fun goal hc => .edited rfl hc rfl rfl rfl id .inr
      | none => exact .unchanged

theorem effect_stopActiveThreadGoal (nowMs : ℤ) (status : ThreadGoalStatus) (expectedGoalId : Option GoalId)
    (row : Option ThreadGoal) :
    Effect row (.stop nowMs status expectedGoalId) (stopActiveThreadGoal nowMs status expectedGoalId row).1 [] := by
  refine effect_updateWhere fun goal hc => ?_
  obtain ⟨hs, hexp⟩ := Bool.and_eq_true_iff.mp hc
  rw [stoppable, decide_eq_true_eq] at hs
  refine .edited rfl hexp rfl rfl rfl (fun hw ha => ?_) (fun h => ?_)
  · -- only an active goal can be stopped into being active
    obtain hs | ⟨rfl | rfl, _⟩ := hs
    · exact hw hs
    · cases ha
    · cases ha
  · rw [h] at hs
    obtain hs | ⟨_, hs⟩ := hs <;> cases hs

theorem accountThreadGoalUsage_cases (nowMs timeDelta tokenDelta : ℤ) (mode : ThreadGoalAccountingMode)
    (expectedGoalId : Option GoalId) (row : Option ThreadGoal) :
    accountThreadGoalUsage nowMs timeDelta tokenDelta mode expectedGoalId row = (row, .unchanged row) ∨
      ∃ goal, row = some goal ∧ expects expectedGoalId goal ∧
        accountThreadGoalUsage nowMs timeDelta tokenDelta mode expectedGoalId row =
          (some (charge nowMs (counted timeDelta) (counted tokenDelta) mode goal),
            .updated (charge nowMs (counted timeDelta) (counted tokenDelta) mode goal)) := by
  unfold accountThreadGoalUsage
  split_ifs with h
  · exact .inl rfl
  · obtain h | ⟨goal, hrow, hc, h⟩ := updateWhere_cases
      (fun goal => decide (goal.status ∈ mode.statusFilter) && expects expectedGoalId goal)
      (charge nowMs (max timeDelta 0) (max tokenDelta 0) mode) row
    · rw [h]
      exact .inl rfl
    · rw [h]
      exact .inr ⟨goal, hrow, (Bool.and_eq_true_iff.mp hc).2, rfl⟩

theorem effect_of_step (s : State) (call : Call) : ∃ charges, Effect s.goal call (step s call).goal charges ∧
    (step s call).charges = charges ++ s.charges := by
  cases call with
  | insert | replace => exact ⟨[], effect_upsertWhere rfl, rfl⟩
  | update nowMs update => exact ⟨[], effect_updateThreadGoal nowMs update s.goal, rfl⟩
  | stop nowMs status expectedGoalId => exact ⟨[], effect_stopActiveThreadGoal nowMs status expectedGoalId s.goal, rfl⟩
  | account nowMs timeDelta tokenDelta mode expectedGoalId =>
    unfold step
    dsimp only
    obtain h | ⟨goal, hrow, hexp, h⟩ :=
      accountThreadGoalUsage_cases nowMs timeDelta tokenDelta mode expectedGoalId s.goal
    · rw [h]
      exact ⟨[], .unchanged, rfl⟩
    · rw [h]
      exact ⟨[⟨goal.goalId, timeDelta, tokenDelta⟩], .charged hrow hexp, rfl⟩
  | delete => exact ⟨[], .deleted rfl, rfl⟩

theorem mem_issued_step (s : State) (call : Call) (id : GoalId) :
    id ∈ (step s call).issued ↔ call.newGoalId = some id ∨ id ∈ s.issued := by
  cases call with
  | insert | replace => exact mem_cons.trans (or_congr_left (eq_comm.trans some_inj.symm))
  | account nowMs timeDelta tokenDelta mode expectedGoalId =>
    have hissued : (step s (.account nowMs timeDelta tokenDelta mode expectedGoalId)).issued = s.issued := by
      unfold step
      dsimp only
      split <;> rfl
    rw [hissued]
    exact (or_iff_right (fun h => by cases h)).symm
  | update | stop | delete => exact (or_iff_right (fun h => by cases h)).symm

/-! ### Steps and runs -/

variable {timeDelta tokenDelta : ℤ} {mode : ThreadGoalAccountingMode}

theorem withinBudget_charge : WithinBudget (charge nowMs timeDelta tokenDelta mode goal) :=
  withinBudget_of_limited rfl fun h => by rw [h]; cases mode <;> exact mem_cons_self

theorem charge_status_complete
    (h : goal.status = .complete) : (charge nowMs timeDelta tokenDelta mode goal).status = .complete := by
  have hmode : goal.status ∉ mode.budgetLimitStatusFilter := by rw [h]; cases mode <;> decide
  exact (if_neg fun hn => hmode hn.1).trans h

theorem total_cons (delta : Charge → ℤ) (c : Charge) (charges : List Charge) :
    total delta c.goalId (c :: charges) = total delta c.goalId charges + delta c := by
  rw [total, filter_cons_of_pos (by rw [decide_eq_true_eq]), map_cons, sum_cons, add_comm, total]

variable {charges : List Charge}

theorem total_eq_zero (delta : Charge → ℤ)
    (h : ∀ c ∈ charges, c.goalId ≠ goalId) : total delta goalId charges = 0 := by
  have hnil : charges.filter (·.goalId = goalId) = [] :=
    filter_eq_nil_iff.mpr fun c hc => by rw [decide_eq_true_eq]; exact h c hc
  rw [total, hnil, map_nil, sum_nil]

/-- The goal and the charges are of ids that were issued; the goal is within its budget and accounted for. -/
structure Inv (row : Option ThreadGoal) (issued : List GoalId) (charges : List Charge) : Prop where
  goals : ∀ goal, row = some goal → goal.goalId ∈ issued
  charged : ∀ c ∈ charges, c.goalId ∈ issued
  budget : ∀ goal, row = some goal → WithinBudget goal
  accounted : ∀ goal, row = some goal → Accounted counted charges goal

variable {issued : List GoalId}

theorem inv_none (h : ∀ c ∈ charges, c.goalId ∈ issued) : Inv none issued charges where
  goals _ h := by cases h
  charged := h
  budget _ h := by cases h
  accounted _ h := by cases h

theorem inv_some (hid : goal.goalId ∈ issued)
    (hcharges : ∀ c ∈ charges, c.goalId ∈ issued) (hbudget : WithinBudget goal)
    (haccounted : Accounted counted charges goal) : Inv (some goal) issued charges where
  goals _ h := some.inj h ▸ hid
  charged := hcharges
  budget _ h := some.inj h ▸ hbudget
  accounted _ h := some.inj h ▸ haccounted

theorem Accounted.charge (h : Accounted counted charges goal)
    (nowMs timeDelta tokenDelta : ℤ) (mode : ThreadGoalAccountingMode) :
    Accounted counted (⟨goal.goalId, timeDelta, tokenDelta⟩ :: charges)
      (charge nowMs (counted timeDelta) (counted tokenDelta) mode goal) where
  tokens :=
    (congrArg (· + counted tokenDelta) h.tokens).trans
      (total_cons _ ⟨goal.goalId, timeDelta, tokenDelta⟩ charges).symm
  seconds :=
    (congrArg (· + counted timeDelta) h.seconds).trans
      (total_cons _ ⟨goal.goalId, timeDelta, tokenDelta⟩ charges).symm

theorem Inv.step {s : State} (hs : Inv s.goal s.issued s.charges) (hfresh : FreshId s call) :
    Inv (step s call).goal (step s call).issued (step s call).charges := by
  obtain ⟨charges, heff, hcharges⟩ := effect_of_step s call
  have hissued : ∀ id, id ∈ s.issued → id ∈ (ThreadGoals.step s call).issued :=
    fun id hid => (mem_issued_step s call id).mpr (.inr hid)
  have hold : ∀ c ∈ s.charges, c.goalId ∈ (ThreadGoals.step s call).issued :=
    fun c hc => hissued c.goalId (hs.charged c hc)
  rw [hcharges]
  generalize (ThreadGoals.step s call).goal = row at heff ⊢
  cases heff with
  | unchanged => exact ⟨fun goal h => hissued _ (hs.goals goal h), hold, hs.budget, hs.accounted⟩
  | deleted => exact inv_none hold
  | @started goal hid htokens hseconds hbudget =>
    -- nothing was charged to an id that is new
    have hnew : ∀ c ∈ s.charges, c.goalId ≠ goal.goalId :=
      fun c hc he => hfresh goal.goalId hid (he ▸ hs.charged c hc)
    refine inv_some ((mem_issued_step s call _).mpr (.inl hid)) hold hbudget ⟨?_, ?_⟩
    · exact htokens.trans (total_eq_zero _ hnew).symm
    · exact hseconds.trans (total_eq_zero _ hnew).symm
  | @edited goal goal' hrow _ hid htokens hseconds hbudget _ =>
    refine inv_some (hid ▸ hissued _ (hs.goals goal hrow)) hold (hbudget (hs.budget goal hrow)) ⟨?_, ?_⟩
    · rw [htokens, hid]
      exact (hs.accounted goal hrow).tokens
    · rw [hseconds, hid]
      exact (hs.accounted goal hrow).seconds
  | @charged goal _ _ _ _ hrow _ =>
    have hgoal := hissued _ (hs.goals goal hrow)
    refine inv_some hgoal (fun c hc => ?_) withinBudget_charge ((hs.accounted goal hrow).charge _ _ _ _)
    obtain rfl | hc := mem_cons.mp hc
    · exact hgoal
    · exact hold c hc

theorem Call.expectedGoalId_of_newGoalId {id : GoalId} (h : call.newGoalId = some id) :
    call.expectedGoalId = none := by
  cases call with
  | insert | replace => rfl
  | update | stop | account | delete => cases h

theorem expects_iff {id : GoalId} : expects (some id) goal ↔ id = goal.goalId := by
  rw [expects, all_some, decide_eq_true_eq]

/-- Every call respects the stored goal, in every state. -/
theorem respects (s : State) (call : Call) : Respects s call := by
  obtain ⟨charges, heff, -⟩ := effect_of_step s call
  refine ⟨fun goal goal' hgoal hcomplete hgoal' hne => ?_, fun goal id hgoal hid hne => ?_⟩
  · rw [hgoal'] at heff
    generalize hrow' : some goal' = row' at heff
    cases heff with
    | unchanged =>
      obtain rfl := some.inj (hrow'.trans hgoal)
      exact absurd hcomplete hne
    | deleted => cases hrow'
    | started hid =>
      obtain rfl := some.inj hrow'
      exact .inr hid
    | edited hrow _ _ _ _ _ hkeeps =>
      obtain rfl := some.inj hrow'
      obtain rfl := mem_unique hgoal hrow
      exact (hkeeps hcomplete).elim .inl fun h => absurd h hne
    | charged hrow =>
      obtain rfl := some.inj hrow'
      obtain rfl := mem_unique hgoal hrow
      exact absurd (charge_status_complete hcomplete) hne
  · have hother : ∀ other, s.goal = some other → expects call.expectedGoalId other = true → False := by
      intro other hother hexp
      obtain rfl := mem_unique hgoal hother
      rw [hid] at hexp
      exact hne (expects_iff.mp hexp)
    generalize (step s call).goal = row' at heff ⊢
    cases heff with
    | unchanged => exact hgoal
    | deleted h =>
      subst h
      cases hid
    | started hstarts =>
      rw [Call.expectedGoalId_of_newGoalId hstarts] at hid
      cases hid
    | edited hrow hexp | charged hrow hexp => exact (hother _ hrow hexp).elim

/-- **The goals of a thread.** In every run whose new goals get ids that were not given before, an active goal has no
budget or has used less, a goal has used exactly what was accounted to its id, with negative deltas counted as zero,
and every call respects complete goals and goals it does not expect. -/
theorem kept_of_fresh {calls : List Call} (hfresh : Meets next FreshId State.empty calls) :
    Throughout next (Kept counted) State.empty calls := by
  have hinv : Throughout next (fun s => Inv s.goal s.issued s.charges) State.empty calls :=
    throughout_of_meets (fun s call t hs hf ht => some.inj ht ▸ hs.step hf) (inv_none fun _ h => by cases h)
      hfresh
  exact hinv.imp fun s hs => ⟨hs.budget, hs.accounted, respects s⟩

/-- A goal that is charged for tokens with the clock set back in between. -/
def setBack : List Call :=
  [.insert "g" 0 "write" .active (some 50), .account 1 (-5) 10 .activeOnly (some "g"),
    .account 2 3 40 .activeOnly none, .update 3 ⟨none, some .complete, none, some "g"⟩]

theorem kept_setBack : Throughout next (Kept counted) State.empty setBack := kept_of_fresh (by decide)

/-- A negative delta is not part of the sum. -/
theorem not_kept_setBack : Meets next FreshId State.empty setBack ∧
    ¬Throughout next (Kept id) State.empty setBack := by
  refine ⟨by decide, fun h => ?_⟩
  have hkept := (((h.2 _ rfl).2 _ rfl).head.accounted _ rfl).seconds
  revert hkept
  decide

end OpenAgere.ThreadGoals
