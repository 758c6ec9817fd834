import OpenAgere.MachineInteger
import OpenAgere.Models
import OpenAgere.ThreadGoals

/-! # Accounting the usage of a turn to its goal

`core/src/goals.rs`: a turn keeps the token totals it accounted last, and a clock keeps the time it accounted last.
Each accounting call charges the goal for the difference to the totals of the session and for the whole seconds that
have passed.  The totals grow with every response of the model, and are reset when the context window is taken to be
full (`protocol/src/protocol.rs`, `fill_to_context_window`).  Counts are of type `i64`: `+` and `-` wrap around, as without
the overflow checks of a debug build, and the other operations saturate.  Instants are nanoseconds.

The seconds accounted are those that passed, short of less than one.  Without a fill the tokens accounted are exactly
those used.  After a fill the difference is taken between counters that do not belong together, and
`exact_throughout_iff` says when nothing is lost by that, for counts in the range of `i64` (`Fits`). -/

/-! ### Token usage -/

namespace OpenAgere.Models.TokenUsage

open MachineInteger

def default : TokenUsage := ⟨0, 0, 0, 0, 0⟩

def addAssign (usage other : TokenUsage) : TokenUsage :=
  ⟨wrap (usage.inputTokens + other.inputTokens), wrap (usage.cachedInputTokens + other.cachedInputTokens),
    wrap (usage.outputTokens + other.outputTokens), wrap (usage.reasoningOutputTokens + other.reasoningOutputTokens),
    wrap (usage.totalTokens + other.totalTokens)⟩

def saturatingSub (usage other : TokenUsage) : TokenUsage :=
  ⟨saturate (usage.inputTokens - other.inputTokens), saturate (usage.cachedInputTokens - other.cachedInputTokens),
    saturate (usage.outputTokens - other.outputTokens),
    saturate (usage.reasoningOutputTokens - other.reasoningOutputTokens), saturate (usage.totalTokens - other.totalTokens)⟩

def cachedInput (usage : TokenUsage) : ℤ := max usage.cachedInputTokens 0

def nonCachedInput (usage : TokenUsage) : ℤ := max (wrap (usage.inputTokens - usage.cachedInput)) 0

/-- Input that is not cached, and output. -/
def tokens (usage : TokenUsage) : ℤ := usage.inputTokens - usage.cachedInputTokens + usage.outputTokens

/-- Counts are not negative, and no more input is cached than there is. -/
structure Valid (usage : TokenUsage) : Prop where
  cached : 0 ≤ usage.cachedInputTokens
  input : usage.cachedInputTokens ≤ usage.inputTokens
  output : 0 ≤ usage.outputTokens
  input_le : usage.inputTokens ≤ i64Max
  output_le : usage.outputTokens ≤ i64Max

theorem Valid.tokens_nonneg {usage : TokenUsage} (h : usage.Valid) : 0 ≤ usage.tokens := by
  obtain ⟨hcached, hinput, houtput, -, -⟩ := h
  unfold tokens
  omega

end OpenAgere.Models.TokenUsage

namespace OpenAgere.GoalAccounting

open Option MachineInteger Models ThreadGoals Transition

def goalTokenDeltaForUsage (usage : TokenUsage) : ℤ := saturate (usage.nonCachedInput + max usage.outputTokens 0)

structure TokenUsageInfo where
  totalTokenUsage : TokenUsage
  lastTokenUsage : TokenUsage
  modelContextWindow : Option ℤ
deriving DecidableEq

namespace TokenUsageInfo

def appendLastUsage (info : TokenUsageInfo) (last : TokenUsage) : TokenUsageInfo :=
  { info with totalTokenUsage := info.totalTokenUsage.addAssign last, lastTokenUsage := last }

def newOrAppend (info : Option TokenUsageInfo) (last : Option TokenUsage) (modelContextWindow : Option ℤ) :
    Option TokenUsageInfo :=
  if info.isNone ∧ last.isNone then none
  else
    let info := info.getD ⟨.default, .default, modelContextWindow⟩
    let info := last.elim info info.appendLastUsage
    some (modelContextWindow.elim info fun window => { info with modelContextWindow := some window })

def fillToContextWindow (info : TokenUsageInfo) (contextWindow : ℤ) : TokenUsageInfo where
  totalTokenUsage := { TokenUsage.default with totalTokens := contextWindow }
  lastTokenUsage := { TokenUsage.default with totalTokens := max (wrap (contextWindow - info.totalTokenUsage.totalTokens)) 0 }
  modelContextWindow := some contextWindow

def fullContextWindow (contextWindow : ℤ) : TokenUsageInfo :=
  fillToContextWindow ⟨.default, .default, some contextWindow⟩ contextWindow

end TokenUsageInfo

/-- `ContextManager::set_token_usage_full`. -/
def setTokenUsageFull (info : Option TokenUsageInfo) (contextWindow : ℤ) : TokenUsageInfo :=
  info.elim (.fullContextWindow contextWindow) (·.fillToContextWindow contextWindow)

/-! ### What was accounted last -/

open TokenUsage

/-- Nanoseconds of a monotonic clock. -/
abbrev Instant := ℕ

def nanosPerSec : ℕ := 1000000000

structure GoalTurnAccountingSnapshot where
  turnId : Str
  lastAccountedTokenUsage : TokenUsage
  activeGoalId : Option GoalId
deriving DecidableEq

namespace GoalTurnAccountingSnapshot

def activeThisTurn (turn : GoalTurnAccountingSnapshot) : Bool := turn.activeGoalId.isSome

def tokenDeltaSinceLastAccounting (turn : GoalTurnAccountingSnapshot) (current : TokenUsage) : ℤ :=
  goalTokenDeltaForUsage (current.saturatingSub turn.lastAccountedTokenUsage)

def markAccounted (turn : GoalTurnAccountingSnapshot) (current : TokenUsage) : GoalTurnAccountingSnapshot :=
  { turn with lastAccountedTokenUsage := current }

def clearActiveGoal (turn : GoalTurnAccountingSnapshot) : GoalTurnAccountingSnapshot :=
  { turn with activeGoalId := none }

end GoalTurnAccountingSnapshot

structure GoalWallClockAccountingSnapshot where
  lastAccountedAt : Instant
  activeGoalId : Option GoalId
deriving DecidableEq

namespace GoalWallClockAccountingSnapshot

def timeDeltaSinceLastAccounting (clock : GoalWallClockAccountingSnapshot) (now : Instant) : ℤ :=
  min ((now - clock.lastAccountedAt) / nanosPerSec : ℕ) i64Max

def markAccounted (clock : GoalWallClockAccountingSnapshot) (accountedSeconds : ℤ) : GoalWallClockAccountingSnapshot :=
  if accountedSeconds ≤ 0 then clock
  -- `checked_add` does not fail: the sum is not later than the clock that gave the seconds
  else { clock with lastAccountedAt := clock.lastAccountedAt + accountedSeconds.toNat * nanosPerSec }

def markActiveGoal (clock : GoalWallClockAccountingSnapshot) (goalId : GoalId) (now : Instant) :
    GoalWallClockAccountingSnapshot :=
  if clock.activeGoalId = some goalId then clock else ⟨now, some goalId⟩

def clearActiveGoal (now : Instant) : GoalWallClockAccountingSnapshot := ⟨now, none⟩

end GoalWallClockAccountingSnapshot

/-! ### The session -/

open GoalWallClockAccountingSnapshot

/-- What accounting reads of a turn. -/
structure TurnContext where
  subId : Str
  /-- The feature is on. -/
  goalsEnabled : Bool
  /-- The mode of the turn ignores goals. -/
  ignoresGoal : Bool
deriving DecidableEq

/-- Goals are used in the turn. -/
def TurnContext.usesGoals (ctx : TurnContext) : Bool := ctx.goalsEnabled && !ctx.ignoresGoal

inductive BudgetLimitSteering where
  | allowed
  | suppressed
deriving DecidableEq

structure Session where
  tokenInfo : Option TokenUsageInfo
  turn : Option GoalTurnAccountingSnapshot
  wallClock : GoalWallClockAccountingSnapshot
  /-- The goal of the thread, where there is a store. -/
  stateDb : Option (Option ThreadGoal)
deriving DecidableEq

namespace Session

def totalTokenUsage (s : Session) : TokenUsage := (s.tokenInfo.map (·.totalTokenUsage)).getD .default

/-- The turn starts: its baseline are the totals, and an active goal is accounted to. -/
def markThreadGoalTurnStarted (s : Session) (ctx : TurnContext) (now : Instant) : Session :=
  let turn : GoalTurnAccountingSnapshot := ⟨ctx.subId, s.totalTokenUsage, none⟩
  if !ctx.goalsEnabled then { s with turn := some turn }
  else if ctx.ignoresGoal then { s with turn := some turn, wallClock := .clearActiveGoal now }
  else
    match s.stateDb with
    | none => { s with turn := some turn }
    | some none => { s with turn := some turn, wallClock := .clearActiveGoal now }
    | some (some goal) =>
        if goal.status = .active ∨ goal.status = .budgetLimited then
          { s with
            turn := some { turn with activeGoalId := some goal.goalId }
            wallClock := s.wallClock.markActiveGoal goal.goalId now }
        else { s with turn := some turn, wallClock := .clearActiveGoal now }

/-- A call of the store. -/
structure StoreCall where
  turn : GoalTurnAccountingSnapshot
  row : Option ThreadGoal
  timeDeltaSeconds : ℤ
  tokenDelta : ℤ
deriving DecidableEq

/-- The call of the store that accounting makes, if there is something to account. -/
def storeCall (s : Session) (ctx : TurnContext) (now : Instant) : Option StoreCall :=
  if ctx.usesGoals then
    s.stateDb.bind fun row =>
      (s.turn.filter fun turn => turn.turnId = ctx.subId && turn.activeThisTurn).bind fun turn =>
        let tokenDelta := turn.tokenDeltaSinceLastAccounting s.totalTokenUsage
        let timeDeltaSeconds := s.wallClock.timeDeltaSinceLastAccounting now
        if timeDeltaSeconds = 0 ∧ tokenDelta ≤ 0 then none else some ⟨turn, row, timeDeltaSeconds, tokenDelta⟩
  else none

/-- The answer of the store. -/
def StoreCall.account (call : StoreCall) (nowMs : ℤ) (mode : ThreadGoalAccountingMode) :
    Option ThreadGoal × ThreadGoalAccountingOutcome :=
  accountThreadGoalUsage nowMs call.timeDeltaSeconds call.tokenDelta mode call.turn.activeGoalId call.row

/-- The goal is no longer accounted to in this turn. -/
def clearsActiveGoal (steering : BudgetLimitSteering) : ThreadGoalStatus → Bool
  | .active => false
  | .budgetLimited => steering = .suppressed
  | .paused | .blocked | .usageLimited | .complete => true

def accountThreadGoalProgress (s : Session) (ctx : TurnContext) (now : Instant) (nowMs : ℤ)
    (steering : BudgetLimitSteering) (mode : ThreadGoalAccountingMode) : Session :=
  match s.storeCall ctx now with
  | none => s
  | some call =>
      match call.account nowMs mode with
      | (row, .unchanged _) => { s with stateDb := some row }
      | (row, .updated goal) =>
          let turn := call.turn.markAccounted s.totalTokenUsage
          let clock := s.wallClock.markAccounted call.timeDeltaSeconds
          if clearsActiveGoal steering goal.status then
            { s with stateDb := some row, turn := some turn.clearActiveGoal, wallClock := .clearActiveGoal now }
          else { s with stateDb := some row, turn := some turn, wallClock := clock }

end Session

/-! ### Turns -/

open Session

/-- The usage of a response. -/
structure Response where
  usage : TokenUsage
  valid : usage.Valid
  modelContextWindow : Option ℤ

inductive Event where
  | response (response : Response)
  | fill (contextWindow : ℤ)
  | account (now : Instant) (nowMs : ℤ) (steering : BudgetLimitSteering) (mode : ThreadGoalAccountingMode)

/-- A session in a turn, with what was used and accounted so far. -/
structure State where
  session : Session
  /-- The time of the last accounting call. -/
  now : Instant
  used : ℤ
  accountedTokens : ℤ
  accountedSeconds : ℤ
  /-- Accounting was called after the last response. -/
  settled : Bool
  /-- Where the window was filled after the baseline was taken: what was not accounted then. -/
  unaccountedAtFill : Option ℤ
deriving DecidableEq

/-- The store updated the goal and left it active. -/
def keepsActive : ThreadGoalAccountingOutcome → Bool
  | .unchanged _ => false
  | .updated goal => goal.status = .active

namespace State

/-- The turn starts. -/
def start (s : Session) (ctx : TurnContext) (now : Instant) : State :=
  ⟨s.markThreadGoalTurnStarted ctx now, now, 0, 0, 0, false, none⟩

/-- The time does not run backwards, and the store updates the goal and leaves it active. -/
def allowed (s : State) (ctx : TurnContext) : Event → Bool
  | .response _ | .fill _ => true
  | .account now nowMs _ mode =>
      decide (s.now ≤ now) && (s.session.storeCall ctx now).all fun call => keepsActive (call.account nowMs mode).2

def step (s : State) (ctx : TurnContext) : Event → State
  | .response r =>
      { s with
        session := { s.session with
          tokenInfo := TokenUsageInfo.newOrAppend s.session.tokenInfo (some r.usage) r.modelContextWindow }
        used := s.used + r.usage.tokens
        settled := false }
  | .fill contextWindow =>
      { s with
        session := { s.session with tokenInfo := some (setTokenUsageFull s.session.tokenInfo contextWindow) }
        unaccountedAtFill := some (s.used - s.accountedTokens) }
  | .account now nowMs steering mode =>
      let session := s.session.accountThreadGoalProgress ctx now nowMs steering mode
      match s.session.storeCall ctx now with
      | none => { s with session := session, now := now, settled := true }
      | some call =>
          { s with
            session := session
            now := now
            accountedTokens := s.accountedTokens + call.tokenDelta
            accountedSeconds := s.accountedSeconds + call.timeDeltaSeconds
            settled := true
            unaccountedAtFill := none }

/-- One event of a turn. -/
def next (ctx : TurnContext) (s : State) (e : Event) : Option State :=
  if s.allowed ctx e then some (s.step ctx e) else none

end State

/-- The tokens accounted are those used, and the seconds are those that passed since `origin`, less than one short. -/
structure Exact (origin : Instant) (s : State) : Prop where
  tokens : s.accountedTokens = s.used
  seconds_le : s.accountedSeconds * nanosPerSec ≤ (s.now - origin : ℤ)
  seconds_lt : (s.now - origin : ℤ) < (s.accountedSeconds + 1) * nanosPerSec

/-- The totals, what is not yet accounted and the seconds since the last accounting stay in the range of `i64`. -/
def Fits (s : State) : Event → Prop
  | .response r =>
      s.session.totalTokenUsage.inputTokens + r.usage.inputTokens ≤ i64Max ∧
        s.session.totalTokenUsage.outputTokens + r.usage.outputTokens ≤ i64Max
  | .fill _ => True
  | .account now .. =>
      s.used - s.accountedTokens ≤ i64Max ∧
        ((now - s.session.wallClock.lastAccountedAt) / nanosPerSec : ℕ) ≤ i64Max

instance decidableFits (s : State) : ∀ e, Decidable (Fits s e)
  | .response _ | .account .. => inferInstanceAs (Decidable (_ ∧ _))
  | .fill _ => isTrue trivial

/-- Counters that start again from zero and are compared with `baseline` lose nothing. -/
def Comparable (baseline current : TokenUsage) : Prop :=
  (current.inputTokens = current.cachedInputTokens ∨
    baseline.inputTokens = baseline.cachedInputTokens ∧ baseline.cachedInputTokens ≤ current.cachedInputTokens) ∧
  (current.outputTokens = 0 ∨ baseline.outputTokens = 0)

instance decidableComparable (baseline current : TokenUsage) : Decidable (Comparable baseline current) :=
  inferInstanceAs (Decidable ((_ ∨ _ ∧ _) ∧ (_ ∨ _)))

/-- If the window was filled since the baseline was taken, nothing was left to be accounted then, and the counters
of the baseline do not hide what was used since. -/
def Unharmed (ctx : TurnContext) (s : State) (e : Event) : Prop :=
  match e with
  | .response _ | .fill _ => True
  | .account .. => s.allowed ctx e → ∀ lost ∈ s.unaccountedAtFill, lost = 0 ∧
      ∀ turn ∈ s.session.turn, Comparable turn.lastAccountedTokenUsage s.session.totalTokenUsage

instance decidableUnharmed (ctx : TurnContext) (s : State) : ∀ e, Decidable (Unharmed ctx s e)
  | .response _ | .fill _ => isTrue trivial
  | .account .. => inferInstanceAs (Decidable (_ → ∀ lost ∈ s.unaccountedAtFill, _ ∧ ∀ turn ∈ s.session.turn, _))

/-! ### Deltas -/

/-- Every counter has grown, and uncached input too. -/
structure Grown (baseline current : TokenUsage) : Prop where
  cached : baseline.cachedInputTokens ≤ current.cachedInputTokens
  input : current.cachedInputTokens - baseline.cachedInputTokens ≤ current.inputTokens - baseline.inputTokens
  output : baseline.outputTokens ≤ current.outputTokens

theorem Grown.refl (usage : TokenUsage) : Grown usage usage := ⟨le_refl _, by omega, le_refl _⟩

variable {baseline current : TokenUsage}

section

variable (hb : baseline.Valid) (hc : current.Valid)
include hb hc

/-- Neither a difference nor the uncached input overflows; the sum is cut off. -/
theorem delta_eq : goalTokenDeltaForUsage (current.saturatingSub baseline) =
    min (max (current.inputTokens - baseline.inputTokens -
        max (current.cachedInputTokens - baseline.cachedInputTokens) 0) 0 +
      max (current.outputTokens - baseline.outputTokens) 0) i64Max := by
  obtain ⟨hbc, hbi, hbo, hbil, hbol⟩ := hb
  obtain ⟨hcc, hci, hco, hcil, hcol⟩ := hc
  have hinput : saturate (current.inputTokens - baseline.inputTokens) = current.inputTokens - baseline.inputTokens :=
    saturate_eq_self (by omega) (by omega)
  have hcached : saturate (current.cachedInputTokens - baseline.cachedInputTokens) =
      current.cachedInputTokens - baseline.cachedInputTokens := saturate_eq_self (by omega) (by omega)
  have houtput : saturate (current.outputTokens - baseline.outputTokens) =
      current.outputTokens - baseline.outputTokens := saturate_eq_self (by omega) (by omega)
  unfold goalTokenDeltaForUsage nonCachedInput cachedInput saturatingSub
  dsimp only
  rw [hinput, hcached, houtput, wrap_eq_self (by omega) (by omega)]
  unfold saturate i64Max
  omega

theorem Grown.delta (h : Grown baseline current) (hfits : current.tokens - baseline.tokens ≤ i64Max) :
    goalTokenDeltaForUsage (current.saturatingSub baseline) = current.tokens - baseline.tokens := by
  obtain ⟨hcached, hinput, houtput⟩ := h
  rw [delta_eq hb hc]
  unfold tokens at *
  omega

/-- Compared with a baseline of other counters, never more is found than was used. -/
theorem delta_le_iff (hfits : current.tokens ≤ i64Max) :
    goalTokenDeltaForUsage (current.saturatingSub baseline) ≤ current.tokens ∧
      (goalTokenDeltaForUsage (current.saturatingSub baseline) = current.tokens ↔ Comparable baseline current) := by
  rw [delta_eq hb hc]
  obtain ⟨hbc, hbi, hbo, -, -⟩ := hb
  obtain ⟨hcc, hci, hco, -, -⟩ := hc
  unfold tokens at *
  unfold Comparable
  omega

theorem delta_nonneg : 0 ≤ goalTokenDeltaForUsage (current.saturatingSub baseline) := by
  rw [delta_eq hb hc]
  exact le_min (add_nonneg (le_max_right _ _) (le_max_right _ _)) i64Max_nonneg

end

theorem Grown.tokens_le (h : Grown baseline current) : baseline.tokens ≤ current.tokens := by
  obtain ⟨hcached, hinput, houtput⟩ := h
  unfold tokens
  omega

/-- A response is added to totals that have room for it. -/
theorem addAssign_spec {usage : TokenUsage} (hc : current.Valid) (hu : usage.Valid)
    (hinput : current.inputTokens + usage.inputTokens ≤ i64Max)
    (houtput : current.outputTokens + usage.outputTokens ≤ i64Max) :
    (current.addAssign usage).Valid ∧ (current.addAssign usage).tokens = current.tokens + usage.tokens ∧
      ∀ baseline, Grown baseline current → Grown baseline (current.addAssign usage) := by
  obtain ⟨hcc, hci, hco, -, -⟩ := hc
  obtain ⟨huc, hui, huo, -, -⟩ := hu
  have hi : (current.addAssign usage).inputTokens = current.inputTokens + usage.inputTokens :=
    wrap_eq_self (by unfold i64Max; omega) hinput
  have hcached : (current.addAssign usage).cachedInputTokens = current.cachedInputTokens + usage.cachedInputTokens :=
    wrap_eq_self (by unfold i64Max; omega) (by omega)
  have ho : (current.addAssign usage).outputTokens = current.outputTokens + usage.outputTokens :=
    wrap_eq_self (by unfold i64Max; omega) houtput
  refine ⟨⟨by omega, by omega, by omega, by omega, by omega⟩, ?_, fun baseline hgrown => ?_⟩
  · unfold tokens
    omega
  · obtain ⟨hgc, hgi, hgo⟩ := hgrown
    exact ⟨by omega, by omega, by omega⟩

/-! ### Seconds -/

namespace GoalWallClockAccountingSnapshot

variable {clock : GoalWallClockAccountingSnapshot} {now : Instant}
  (hfits : ((now - clock.lastAccountedAt) / nanosPerSec : ℕ) ≤ i64Max)
include hfits

theorem timeDelta_eq : clock.timeDeltaSinceLastAccounting now = ((now - clock.lastAccountedAt) / nanosPerSec : ℕ) :=
  min_eq_left hfits

theorem markAccounted_lastAccountedAt :
    (clock.markAccounted (clock.timeDeltaSinceLastAccounting now)).lastAccountedAt =
      clock.lastAccountedAt + (now - clock.lastAccountedAt) / nanosPerSec * nanosPerSec := by
  rw [timeDelta_eq hfits]
  unfold markAccounted
  split_ifs with h
  · have hzero : (now - clock.lastAccountedAt) / nanosPerSec = 0 := by
      rw [← Int.natCast_inj]
      exact le_antisymm h (Int.natCast_nonneg _)
    rw [hzero, Nat.zero_mul, Nat.add_zero]
  · rw [Int.toNat_natCast]

end GoalWallClockAccountingSnapshot

/-! ### Steps -/

/-- What is known of a turn: `baseline` are the totals accounted last. -/
structure Follows (ctx : TurnContext) (origin : Instant) (first : ThreadGoal) (baseline : TokenUsage)
    (goal : ThreadGoal) (s : State) : Prop where
  turn : s.session.turn = some ⟨ctx.subId, baseline, some first.goalId⟩
  stateDb : s.session.stateDb = some (some goal)
  clock : (s.session.wallClock.lastAccountedAt : ℤ) = origin + s.accountedSeconds * nanosPerSec
  clock_le : s.session.wallClock.lastAccountedAt ≤ s.now
  baselineValid : baseline.Valid
  totalValid : s.session.totalTokenUsage.Valid
  grown : s.unaccountedAtFill = none → Grown baseline s.session.totalTokenUsage ∧
    s.used - s.accountedTokens = s.session.totalTokenUsage.tokens - baseline.tokens
  filled : ∀ lost, s.unaccountedAtFill = some lost → 0 ≤ lost ∧
    s.used - s.accountedTokens = lost + s.session.totalTokenUsage.tokens

variable {ctx : TurnContext} {origin : Instant} {first goal : ThreadGoal} {baseline : TokenUsage} {s : State}

section

variable (h : Follows ctx origin first baseline goal s)
include h

theorem Follows.unaccounted_nonneg : 0 ≤ s.used - s.accountedTokens := by
  cases hf : s.unaccountedAtFill with
  | none =>
    obtain ⟨hgrown, hpending⟩ := h.grown hf
    rw [hpending]
    exact sub_nonneg.mpr hgrown.tokens_le
  | some lost =>
    obtain ⟨hlost, hpending⟩ := h.filled lost hf
    rw [hpending]
    exact add_nonneg hlost h.totalValid.tokens_nonneg

theorem Follows.response {r : Response} (hfits : Fits s (.response r)) :
    Follows ctx origin first baseline goal (s.step ctx (.response r)) := by
  have htotal : (s.step ctx (.response r)).session.totalTokenUsage = s.session.totalTokenUsage.addAssign r.usage := by
    simp only [State.step, totalTokenUsage, TokenUsageInfo.newOrAppend]
    rw [if_neg (fun h => by cases h.2)]
    cases s.session.tokenInfo <;> cases r.modelContextWindow <;> rfl
  obtain ⟨hvalid, htokens, hgrows⟩ := addAssign_spec h.totalValid r.valid hfits.1 hfits.2
  refine ⟨h.turn, h.stateDb, h.clock, h.clock_le, h.baselineValid, ?_, fun hf => ?_, fun lost hf => ?_⟩
  · rw [htotal]
    exact hvalid
  · obtain ⟨hgrown, hpending⟩ := h.grown hf
    rw [htotal, htokens]
    refine ⟨hgrows baseline hgrown, ?_⟩
    show s.used + r.usage.tokens - s.accountedTokens = _
    omega
  · obtain ⟨hlost, hpending⟩ := h.filled lost hf
    rw [htotal, htokens]
    refine ⟨hlost, ?_⟩
    show s.used + r.usage.tokens - s.accountedTokens = _
    omega

theorem Follows.fill (window : ℤ) :
    Follows ctx origin first baseline goal (s.step ctx (.fill window)) := by
  have htotal : (s.step ctx (.fill window)).session.totalTokenUsage =
      { default with totalTokens := window } := by
    simp only [State.step, totalTokenUsage]
    cases s.session.tokenInfo <;> rfl
  refine ⟨h.turn, h.stateDb, h.clock, h.clock_le, h.baselineValid, ?_, (fun hf => by cases hf), fun lost hf => ?_⟩
  · rw [htotal]
    exact ⟨le_refl _, le_refl _, le_refl _, i64Max_nonneg, i64Max_nonneg⟩
  · obtain rfl := Option.some.inj hf
    rw [htotal]
    exact ⟨h.unaccounted_nonneg, (add_zero _).symm⟩

end

/-- What the next accounting call finds. -/
abbrev tokenDelta (baseline : TokenUsage) (s : State) : ℤ :=
  goalTokenDeltaForUsage (s.session.totalTokenUsage.saturatingSub baseline)

abbrev timeDelta (s : State) (now : Instant) : ℤ := s.session.wallClock.timeDeltaSinceLastAccounting now

theorem Follows.storeCall (h : Follows ctx origin first baseline goal s) (hctx : ctx.usesGoals) (now : Instant) :
    s.session.storeCall ctx now =
      if timeDelta s now = 0 ∧ tokenDelta baseline s ≤ 0 then none
      else some ⟨⟨ctx.subId, baseline, some first.goalId⟩, some goal, timeDelta s now, tokenDelta baseline s⟩ := by
  unfold Session.storeCall
  rw [if_pos hctx, h.stateDb, h.turn, bind_some, filter_some_pos
    (by rw [decide_eq_true rfl]; rfl), bind_some]
  rfl

variable {now : Instant}

section

variable (h : Follows ctx origin first baseline goal s) (hnow : s.now ≤ now)
  (hfits : ((now - s.session.wallClock.lastAccountedAt) / nanosPerSec : ℕ) ≤ i64Max)
include h hnow hfits

theorem Follows.clock_markAccounted_le : (s.session.wallClock.markAccounted (timeDelta s now)).lastAccountedAt ≤ now := by
  rw [markAccounted_lastAccountedAt hfits]
  calc s.session.wallClock.lastAccountedAt + (now - s.session.wallClock.lastAccountedAt) / nanosPerSec * nanosPerSec
      ≤ s.session.wallClock.lastAccountedAt + (now - s.session.wallClock.lastAccountedAt) :=
        Nat.add_le_add_left (Nat.div_mul_le_self _ _) _
    _ = now := Nat.add_sub_cancel' (h.clock_le.trans hnow)

/-- The seconds since the last accounting call: what is left over is less than one. -/
theorem Follows.seconds :
    (s.accountedSeconds + timeDelta s now) * nanosPerSec ≤ (now - origin : ℤ) ∧
      (now - origin : ℤ) < (s.accountedSeconds + timeDelta s now + 1) * nanosPerSec := by
  have hclock := h.clock
  have hle : (s.session.wallClock.lastAccountedAt : ℤ) ≤ now := Int.ofNat_le.mpr (h.clock_le.trans hnow)
  rw [timeDelta, timeDelta_eq hfits]
  unfold nanosPerSec at *
  omega

end

variable {nowMs : ℤ} {steering : BudgetLimitSteering} {mode : ThreadGoalAccountingMode}

/-- The goal is charged, stays active, and the totals and the clock are kept as accounted. -/
theorem step_account_some {call : StoreCall} (hcall : s.session.storeCall ctx now = some call)
    (hkeeps : keepsActive (call.account nowMs mode).2) :
    ∃ old, call.row = some old ∧ s.step ctx (.account now nowMs steering mode) =
      ⟨{ s.session with
          turn := some (call.turn.markAccounted s.session.totalTokenUsage)
          wallClock := s.session.wallClock.markAccounted call.timeDeltaSeconds
          stateDb := some (some (charge nowMs (counted call.timeDeltaSeconds) (counted call.tokenDelta) mode old)) },
        now, s.used, s.accountedTokens + call.tokenDelta, s.accountedSeconds + call.timeDeltaSeconds, true, none⟩ := by
  obtain h | ⟨old, hrow, -, h⟩ := accountThreadGoalUsage_cases nowMs call.timeDeltaSeconds call.tokenDelta mode
    call.turn.activeGoalId call.row
  · rw [StoreCall.account, h] at hkeeps
    cases hkeeps
  · refine ⟨old, hrow, ?_⟩
    rw [StoreCall.account, h, keepsActive, decide_eq_true_eq] at hkeeps
    unfold State.step accountThreadGoalProgress StoreCall.account
    dsimp only
    rw [hcall]
    dsimp only
    rw [h]
    dsimp only
    rw [hkeeps]
    rfl

theorem Follows.delta_iff (h : Follows ctx origin first baseline goal s)
    (hfits : s.used - s.accountedTokens ≤ i64Max) :
    s.used - s.accountedTokens = tokenDelta baseline s ↔
      ∀ lost ∈ s.unaccountedAtFill, lost = 0 ∧ Comparable baseline s.session.totalTokenUsage := by
  cases hf : s.unaccountedAtFill with
  | none =>
    obtain ⟨hgrown, hpending⟩ := h.grown hf
    rw [hpending] at hfits
    exact iff_of_true (hpending.trans (hgrown.delta h.baselineValid h.totalValid hfits).symm) fun lost hlost => by cases hlost
  | some lost =>
    obtain ⟨hlost, hpending⟩ := h.filled lost hf
    obtain ⟨hle, hiff⟩ : tokenDelta baseline s ≤ s.session.totalTokenUsage.tokens ∧ _ :=
      delta_le_iff h.baselineValid h.totalValid (by omega)
    rw [hpending, ← hiff]
    constructor
    · intro he lost' hlost'
      obtain rfl := some.inj hlost'
      have hzero : lost = 0 := by omega
      exact ⟨hzero, he.symm.trans (by rw [hzero, zero_add])⟩
    · intro hall
      obtain ⟨rfl, he⟩ := hall lost rfl
      rw [zero_add, tokenDelta, he]

/-- What an accounting call leaves. -/
structure Charged (ctx : TurnContext) (origin : Instant) (first : ThreadGoal) (s t : State) (delta : ℤ) : Prop where
  settled : t.settled
  used : t.used = s.used
  tokens : t.accountedTokens = s.accountedTokens + delta
  seconds_le : t.accountedSeconds * nanosPerSec ≤ (t.now - origin : ℤ)
  seconds_lt : (t.now - origin : ℤ) < (t.accountedSeconds + 1) * nanosPerSec
  follows : t.accountedTokens = t.used → ∃ baseline goal, Follows ctx origin first baseline goal t

theorem Follows.account (h : Follows ctx origin first baseline goal s) (hctx : ctx.usesGoals)
    (hfits : ((now - s.session.wallClock.lastAccountedAt) / nanosPerSec : ℕ) ≤ i64Max)
    (hallowed : s.allowed ctx (.account now nowMs steering mode)) :
    Charged ctx origin first s (s.step ctx (.account now nowMs steering mode)) (tokenDelta baseline s) := by
  obtain ⟨hnow, hkeeps⟩ := Bool.and_eq_true_iff.mp hallowed
  have hnow := of_decide_eq_true hnow
  obtain ⟨hle, hlt⟩ := h.seconds hnow hfits
  have hcall := h.storeCall hctx now
  split_ifs at hcall with hidle
  · -- no whole second has passed and there is nothing to charge
    have hzero : tokenDelta baseline s = 0 := le_antisymm hidle.2 (delta_nonneg h.baselineValid h.totalValid)
    have hstep : s.step ctx (.account now nowMs steering mode) = { s with now := now, settled := true } := by
      simp only [State.step, accountThreadGoalProgress, hcall]
    rw [hstep]
    rw [hidle.1, add_zero] at hle hlt
    exact {
      settled := rfl
      used := rfl
      tokens := by rw [hzero, add_zero]
      seconds_le := hle
      seconds_lt := hlt
      follows := fun _ => ⟨baseline, goal, h.turn, h.stateDb, h.clock, h.clock_le.trans hnow, h.baselineValid,
        h.totalValid, h.grown, h.filled⟩ }
  · rw [hcall, all_some] at hkeeps
    obtain ⟨old, hold, hstep⟩ := step_account_some hcall hkeeps
    obtain rfl := some.inj hold
    rw [hstep]
    exact {
      settled := rfl
      used := rfl
      tokens := rfl
      seconds_le := hle
      seconds_lt := hlt
      follows := fun hexact => ⟨s.session.totalTokenUsage, _, {
        turn := rfl
        stateDb := rfl
        clock := by
          rw [markAccounted_lastAccountedAt hfits, Nat.cast_add, Nat.cast_mul, h.clock, ← timeDelta_eq hfits, add_mul,
            add_assoc]
        clock_le := h.clock_markAccounted_le hnow hfits
        baselineValid := h.totalValid
        totalValid := h.totalValid
        grown := fun _ => ⟨.refl _, (sub_eq_zero.mpr hexact.symm).trans (sub_self _).symm⟩
        filled := fun lost hlost => by cases hlost }⟩ }

theorem follows_start {session : Session} (hctx : ctx.usesGoals)
    (hgoal : session.stateDb = some (some first)) (hactive : first.status = .active)
    (hvalid : session.totalTokenUsage.Valid) (hnow : session.wallClock.lastAccountedAt ≤ now) :
    Follows ctx (State.start session ctx now).session.wallClock.lastAccountedAt first session.totalTokenUsage first
      (State.start session ctx now) := by
  have hstart : session.markThreadGoalTurnStarted ctx now =
      { session with
        turn := some ⟨ctx.subId, session.totalTokenUsage, some first.goalId⟩
        wallClock := session.wallClock.markActiveGoal first.goalId now } := by
    obtain ⟨henabled, hmode⟩ := Bool.and_eq_true_iff.mp hctx
    rw [Bool.not_eq_true'] at hmode
    unfold markThreadGoalTurnStarted
    rw [henabled, hmode, hgoal]
    have hstatus : first.status = .active ∨ first.status = .budgetLimited := .inl hactive
    exact if_pos hstatus
  have hclock : (session.wallClock.markActiveGoal first.goalId now).lastAccountedAt ≤ now := by
    unfold markActiveGoal
    split_ifs
    · exact hnow
    · exact le_refl _
  unfold State.start
  rw [hstart]
  exact {
    turn := rfl
    stateDb := hgoal
    clock := by rw [zero_mul, add_zero]
    clock_le := hclock
    baselineValid := hvalid
    totalValid := hvalid
    grown := fun _ => ⟨.refl _, (sub_self _).trans (sub_self _).symm⟩
    filled := fun lost hlost => by cases hlost }

/-- The property, at the accounting calls. -/
def ExactWhenSettled (origin : Instant) (s : State) : Prop :=
  s.settled → Exact origin s

variable {e : Event} {t : State}

theorem allowed_of_next (h : State.next ctx s e = some t) : s.allowed ctx e ∧ t = s.step ctx e := by
  unfold State.next at h
  split_ifs at h with ha
  exact ⟨ha, (some.inj h).symm⟩

theorem Charged.exact_iff {delta : ℤ} (h : Charged ctx origin first s t delta) :
    ExactWhenSettled origin t ↔ s.used - s.accountedTokens = delta := by
  have htokens : t.accountedTokens = t.used ↔ s.used - s.accountedTokens = delta := by
    rw [h.tokens, h.used]
    omega
  rw [← htokens]
  exact ⟨fun he => (he h.settled).tokens, fun he _ => ⟨he, h.seconds_le, h.seconds_lt⟩⟩

theorem Follows.exact_step_iff (h : Follows ctx origin first baseline goal s) (hctx : ctx.usesGoals = true)
    (hs : ExactWhenSettled origin s) (hfits : Fits s e) (hallowed : s.allowed ctx e) :
    ExactWhenSettled origin (s.step ctx e) ↔ Unharmed ctx s e := by
  cases e with
  | response r => exact iff_of_true (fun hsettled => by cases hsettled) trivial
  | fill window =>
    refine iff_of_true (fun hsettled => ?_) trivial
    obtain ⟨htokens, hle, hlt⟩ := hs hsettled
    exact ⟨htokens, hle, hlt⟩
  | account now nowMs steering mode =>
    rw [(h.account hctx hfits.2 hallowed).exact_iff, h.delta_iff hfits.1]
    constructor
    · intro hall _ lost hlost
      obtain ⟨hzero, hcomparable⟩ := hall lost hlost
      refine ⟨hzero, fun turn hturn => ?_⟩
      obtain rfl := mem_unique h.turn hturn
      exact hcomparable
    · intro hall lost hlost
      obtain ⟨hzero, hcomparable⟩ := hall hallowed lost hlost
      exact ⟨hzero, hcomparable _ h.turn⟩

theorem Follows.step (h : Follows ctx origin first baseline goal s) (hctx : ctx.usesGoals)
    (hfits : Fits s e) (hallowed : s.allowed ctx e) (ht : ExactWhenSettled origin (s.step ctx e)) :
    ∃ baseline goal, Follows ctx origin first baseline goal (s.step ctx e) := by
  cases e with
  | response r => exact ⟨baseline, goal, h.response hfits⟩
  | fill window => exact ⟨baseline, goal, h.fill window⟩
  | account now nowMs steering mode =>
    have hcharged := h.account hctx hfits.2 hallowed
    exact hcharged.follows (ht hcharged.settled).tokens

/-- **Accounting of a turn.** As long as all counts fit, at every accounting call of a turn the tokens accounted are
those of the responses, and the seconds those that passed, exactly if no call comes after a fill that lost tokens or
hides some. -/
theorem exact_throughout_iff {session : Session} {now : Instant} (hctx : ctx.usesGoals = true)
    (hgoal : session.stateDb = some (some first)) (hactive : first.status = .active)
    (hvalid : session.totalTokenUsage.Valid) (hnow : session.wallClock.lastAccountedAt ≤ now) (es : List Event)
    (hfits : Meets (State.next ctx) Fits (State.start session ctx now) es) :
    Throughout (State.next ctx)
        (ExactWhenSettled (State.start session ctx now).session.wallClock.lastAccountedAt)
        (State.start session ctx now) es ↔
      Meets (State.next ctx) (Unharmed ctx) (State.start session ctx now) es := by
  have hstart := follows_start hctx hgoal hactive hvalid hnow
  generalize (State.start session ctx now).session.wallClock.lastAccountedAt = origin at hstart ⊢
  refine throughout_iff_meets_of_meets
    (J := fun s => ExactWhenSettled origin s → ∃ baseline goal, Follows ctx origin first baseline goal s)
    (fun s e t hj hs hfits hn ht => ?_) (fun s e t hj hs hfits hn => ?_) (fun s e hj hs hn => ?_) hfits
    (fun _ => ⟨_, _, hstart⟩) (fun hsettled => by cases hsettled)
  · obtain ⟨baseline, goal, hfollows⟩ := hj hs
    obtain ⟨hallowed, rfl⟩ := allowed_of_next hn
    exact hfollows.step hctx hfits hallowed ht
  · obtain ⟨baseline, goal, hfollows⟩ := hj hs
    obtain ⟨hallowed, rfl⟩ := allowed_of_next hn
    exact hfollows.exact_step_iff hctx hs hfits hallowed
  · have hnot : ¬s.allowed ctx e = true := fun ha => by
      rw [State.next, if_pos ha] at hn
      cases hn
    cases e with
    | response | fill => trivial
    | account => exact fun ha => absurd ha hnot

/-- A session with an active goal. -/
def newSession : Session :=
  ⟨none, none, ⟨0, none⟩, some (some ⟨"g", "write", .active, none, 0, 0, 0, 0⟩)⟩

def firstTurn : TurnContext := ⟨"1", true, false⟩

def response35 : Response := ⟨⟨30, 0, 5, 0, 35⟩, ⟨by decide, by decide, by decide, by decide, by decide⟩, none⟩

/-- The window is filled before the first response, and again when everything is accounted. -/
theorem exact_fillFirst : Throughout (State.next firstTurn)
    (ExactWhenSettled (State.start newSession firstTurn 0).session.wallClock.lastAccountedAt)
    (State.start newSession firstTurn 0)
    [.fill 1000, .response response35, .account 1500000000 0 .allowed .activeOnly, .response response35,
      .account 2600000000 0 .allowed .activeOnly, .fill 1000, .account 3000000000 0 .allowed .activeOnly] :=
  (exact_throughout_iff rfl rfl rfl ⟨by decide, by decide, by decide, by decide, by decide⟩ (by decide) _
    (by decide)).mpr (by decide)

/-- The window is filled between two responses of 35 tokens, of which the first is accounted; the second is not. -/
theorem not_exact_fillBetween : ¬Throughout (State.next firstTurn)
    (ExactWhenSettled (State.start newSession firstTurn 0).session.wallClock.lastAccountedAt)
    (State.start newSession firstTurn 0)
    [.response response35, .account 1500000000 0 .allowed .activeOnly, .fill 1000, .response response35,
      .account 2600000000 0 .allowed .activeOnly] := by
  intro h
  have hexact := (((((h.2 _ rfl).2 _ rfl).2 _ rfl).2 _ rfl).2 _ rfl) rfl
  have htokens := hexact.tokens
  revert htokens
  decide

end OpenAgere.GoalAccounting
