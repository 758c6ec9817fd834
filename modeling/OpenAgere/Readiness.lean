import Mathlib.Data.Finset.Card
import Mathlib.Data.BitVec
import OpenAgere.Transition

/-! # The readiness flag

`ReadinessFlag` of `utils/readiness/src/lib.rs` as a pool of calls.  A call is cut at its accesses to what
the calls share: each access of the atomic flag, each attempt to take the lock of the tokens, the section
under it, its release, and each operation on the watch channel is a step.

`wait_ready` tests the flag and creates its receiver in two steps, and `send` keeps no value for a channel
without receivers.  A call between these steps when the broadcast finds no receiver sleeps forever; at all
other times no wake-up is lost (`wakeups_of_run`).  In all runs at most one call marks the flag, for a token that
was handed out (`fair_marks_of_run`). -/

namespace OpenAgere.Readiness

open List Option Transition

/-! ### The watch channel -/

/-- A `watch` channel as its sender holds it: the stored value, the number of changes and of receivers. -/
structure Watch (α : Type) where
  value : α
  version : ℕ
  receivers : ℕ
deriving DecidableEq, Repr

namespace Watch

variable {α : Type}

/-- `channel`, after the first receiver is dropped. -/
def channel (value : α) : Watch α := ⟨value, 0, 0⟩

/-- `send` fails without a receiver, and then does not store the value. -/
def send (tx : Watch α) (value : α) : Watch α :=
  if tx.receivers = 0 then tx else { tx with value := value, version := tx.version + 1 }

/-- A new receiver has seen the present version. -/
def subscribe (tx : Watch α) : Watch α := { tx with receivers := tx.receivers + 1 }

def unsubscribe (tx : Watch α) : Watch α := { tx with receivers := tx.receivers - 1 }

@[simp] theorem receivers_send (tx : Watch α) (value : α) : (tx.send value).receivers = tx.receivers := by
  unfold send
  split <;> rfl

theorem send_of_no_receiver {tx : Watch α} (value : α) (h : tx.receivers = 0) : tx.send value = tx := if_pos h

theorem send_of_receiver {tx : Watch α} (value : α) (h : tx.receivers ≠ 0) :
    tx.send value = { tx with value := value, version := tx.version + 1 } := if_neg h

end Watch

/-! ### The flag and its tokens -/

/-- The number of a token, an `i32`. -/
abbrev Token := BitVec 32

structure ReadinessFlag where
  ready : Bool
  nextId : BitVec 32
  tokens : List Token
  locked : Bool
  tx : Watch Bool
  /-- An `is_ready` has returned true or a `mark_ready` has returned `Ok(true)`. -/
  announced : Bool
deriving DecidableEq, Repr

/-- The loop of `subscribe`: the numbers from `id` on, until one is neither 0 nor taken. -/
def claimToken (tokens : List Token) : ℕ → BitVec 32 → Option (Token × BitVec 32)
  | 0, _ => none
  | fuel + 1, id => if id ≠ 0 ∧ id ∉ tokens then some (id, id + 1) else claimToken tokens fuel (id + 1)

theorem claimToken_eq_none {tokens : List Token} : ∀ {fuel : ℕ} {id : BitVec 32}, claimToken tokens fuel id = none →
    ∀ k < fuel, id + BitVec.ofNat 32 k ∈ 0 :: tokens
  | fuel + 1, id, h, k, hk => by
    rw [claimToken] at h
    split at h
    · exact nomatch h
    · rename_i hid
      cases k with
      | zero =>
        rw [not_and_or, not_not, not_not] at hid
        rw [show id + BitVec.ofNat 32 0 = id from BitVec.add_zero id]
        exact mem_cons.mpr hid
      | succ k =>
        have := claimToken_eq_none h k (by omega)
        rwa [BitVec.add_assoc, show (1 : BitVec 32) + BitVec.ofNat 32 k = BitVec.ofNat 32 (k + 1) by
          rw [Nat.add_comm, BitVec.ofNat_add]; rfl] at this

/-- The loop ends: two more rounds than there are tokens find a free number, unless all are taken. -/
theorem claimToken_isSome {tokens : List Token} (h : tokens.length + 2 ≤ 2 ^ 32) (id : BitVec 32) :
    (claimToken tokens (tokens.length + 2) id).isSome := by
  rw [isSome_iff_ne_none]
  intro hnone
  have hmem := claimToken_eq_none hnone
  have hinj : Set.InjOn (fun k => id + BitVec.ofNat 32 k) (Finset.range (tokens.length + 2)) := by
    intro j hj k hk hjk
    have hjk := congrArg BitVec.toNat (add_left_cancel hjk)
    rw [Finset.mem_coe, Finset.mem_range] at hj hk
    rwa [BitVec.toNat_ofNat, BitVec.toNat_ofNat, Nat.mod_eq_of_lt (by omega), Nat.mod_eq_of_lt (by omega)] at hjk
  have hcard := (Finset.card_le_card_of_injOn _
    (fun k hk => mem_toFinset.mpr (hmem k (Finset.mem_range.mp hk))) hinj).trans (toFinset_card_le _)
  rw [Finset.card_range, length_cons] at hcard
  omega

theorem claimToken_isSome_wrapping : (claimToken [5, -1] 4 (-1)).isSome := claimToken_isSome (by decide) _

namespace ReadinessFlag

def new : ReadinessFlag := ⟨false, 1, [], false, .channel false, false⟩

end ReadinessFlag

/-! ### The calls -/

inductive Call where
  | isReady
  | subscribe
  | markReady (token : Token)
  | waitReady
deriving DecidableEq, Repr

/-- Who called `is_ready`. -/
inductive Caller where
  | isReady
  | waitReady
deriving DecidableEq, Repr

/-- What is done with the tokens under their lock. -/
inductive Access where
  | subscribe
  | markReady (token : Token)
deriving DecidableEq, Repr

inductive Outcome where
  | ready (value : Bool)
  | token (token : Token)
  | marked (value : Bool)
  | waited
  | flagAlreadyReady
  | tokenLockFailed
deriving DecidableEq, Repr

/-- Where a call stands: what it does next. -/
inductive Pc where
  -- `is_ready`: `load_ready`
  | load (caller : Caller)
  -- `tokens.try_lock()`
  | tryLock (caller : Caller)
  -- `tokens.is_empty()` and the swap, under the lock
  | test (caller : Caller)
  -- The guard is dropped; `swapped` is the flag before the swap, if there was one
  | release (caller : Caller) (swapped : Option Bool)
  -- `tx.send(true)`
  | broadcast (caller : Caller)
  -- The second `load_ready`
  | loadAgain (caller : Caller)
  -- `wait_ready`: `tx.subscribe()`, after `is_ready` returned false
  | subscribeRx
  -- `*rx.borrow()`
  | borrow (seen : ℕ)
  -- `rx.changed().await`
  | changed (seen : ℕ)
  -- `subscribe` and `mark_ready`: `load_ready`
  | enter (access : Access)
  -- `tokens.lock()` with its timeout
  | lock (access : Access)
  -- The closure of `with_tokens`
  | closure (access : Access)
  -- The guard of `subscribe` is dropped
  | subscribed (token : Option Token)
  -- The guard of `mark_ready` is dropped
  | marked (value : Bool)
  -- `tx.send(true)` of `mark_ready`
  | announce
  | returned (outcome : Outcome)
deriving DecidableEq, Repr

/-- A step is taken, or the wait for the lock times out. -/
inductive Turn where
  | go
  | timeout
deriving DecidableEq, Repr

def start : Call → Pc
  | .isReady => .load .isReady
  | .subscribe => .enter .subscribe
  | .markReady token => .enter (.markReady token)
  | .waitReady => .load .waitReady

namespace ReadinessFlag

/-- `is_ready` returns to its caller. -/
def isReadyReturns (flag : ReadinessFlag) (caller : Caller) (value : Bool) : ReadinessFlag × Pc :=
  ({ flag with announced := flag.announced || value },
    match caller, value with
    | .isReady, value => .returned (.ready value)
    | .waitReady, true => .returned .waited
    | .waitReady, false => .subscribeRx)

/-- `wait_ready` returns and drops its receiver. -/
def waitReadyReturns (flag : ReadinessFlag) : ReadinessFlag × Pc :=
  ({ flag with tx := flag.tx.unsubscribe }, .returned .waited)

/-- The first tests of `subscribe` and `mark_ready`. -/
def enter (flag : ReadinessFlag) : Access → Pc
  | .subscribe => if flag.ready then .returned .flagAlreadyReady else .lock .subscribe
  | .markReady token => if flag.ready ∨ token = 0 then .returned (.marked false) else .lock (.markReady token)

/-- The closures that `subscribe` and `mark_ready` give to `with_tokens`. -/
def withTokens (flag : ReadinessFlag) : Access → Option (ReadinessFlag × Pc)
  | .subscribe =>
      if flag.ready then some (flag, .subscribed none)
      else (claimToken flag.tokens (flag.tokens.length + 2) flag.nextId).map fun (token, nextId) =>
        ({ flag with tokens := token :: flag.tokens, nextId := nextId }, .subscribed (some token))
  | .markReady token => some <|
      if token ∈ flag.tokens then ({ flag with ready := true, tokens := [] }, .marked true)
      else (flag, .marked false)

end ReadinessFlag

/-- What a call does next. -/
def advance (flag : ReadinessFlag) : Pc → Option (ReadinessFlag × Pc)
  | .load caller => some (if flag.ready then flag.isReadyReturns caller true else (flag, .tryLock caller))
  | .tryLock caller => some <|
      if flag.locked then (flag, .loadAgain caller) else ({ flag with locked := true }, .test caller)
  | .test caller => some <|
      if flag.tokens = [] then ({ flag with ready := true }, .release caller (some flag.ready))
      else (flag, .release caller none)
  | .release caller none => some ({ flag with locked := false }, .loadAgain caller)
  | .release caller (some true) => some (ReadinessFlag.isReadyReturns { flag with locked := false } caller true)
  | .release caller (some false) => some ({ flag with locked := false }, .broadcast caller)
  | .broadcast caller => some (ReadinessFlag.isReadyReturns { flag with tx := flag.tx.send true } caller true)
  | .loadAgain caller => some (flag.isReadyReturns caller flag.ready)
  | .subscribeRx => some ({ flag with tx := flag.tx.subscribe }, .borrow flag.tx.version)
  | .borrow seen => some (if flag.tx.value then flag.waitReadyReturns else (flag, .changed seen))
  | .changed seen =>
      -- the receiver sleeps until the version is another than the one it has seen
      if flag.tx.version = seen then none
      else some (if flag.tx.value then flag.waitReadyReturns else (flag, .changed flag.tx.version))
  | .enter access => some (flag, flag.enter access)
  | .lock access => if flag.locked then none else some ({ flag with locked := true }, .closure access)
  | .closure access => flag.withTokens access
  | .subscribed none => some ({ flag with locked := false }, .returned .flagAlreadyReady)
  | .subscribed (some token) => some ({ flag with locked := false }, .returned (.token token))
  | .marked true => some ({ flag with locked := false }, .announce)
  | .marked false => some ({ flag with locked := false }, .returned (.marked false))
  | .announce => some ({ flag with tx := flag.tx.send true, announced := true }, .returned (.marked true))
  | .returned _ => none

def step (flag : ReadinessFlag) (pc : Pc) : Turn → Option (ReadinessFlag × Pc)
  | .go => advance flag pc
  | .timeout =>
      match pc with
      | .lock _ => some (flag, .returned .tokenLockFailed)
      | _ => none

abbrev Calls := Pool ReadinessFlag Pc

abbrev Event := Pool.Event Call Turn

abbrev next : Calls → Event → Option Calls := Pool.next start step

def new : Calls := ⟨.new, []⟩

/-! ### What a step does -/

open Pc

namespace Pc

/-- The call has set the flag or found it set. -/
def raised : Pc → Bool
  | release _ (some _) | broadcast _ | marked true | announce => true
  | _ => false

/-- The call has set the flag and has not yet sent. -/
def willSend : Pc → Bool
  | release _ (some false) | broadcast _ | marked true | announce => true
  | _ => false

/-- The next step of the call is `tx.send(true)`. -/
def sends : Pc → Bool
  | broadcast _ | announce => true
  | _ => false

/-- The call has a receiver. -/
def listens : Pc → Bool
  | borrow _ | changed _ => true
  | _ => false

/-- The call has no part in the broadcast: it has not set the flag or found it set, and does not wait for it. -/
def idle : Pc → Bool
  | release _ (some _) | broadcast _ | marked true | announce | subscribeRx | borrow _ | changed _ => false
  | _ => true

theorem of_idle {pc : Pc} (h : pc.idle) : pc.raised = false ∧ pc.willSend = false ∧ pc.sends = false ∧
    pc.listens = false ∧ pc ≠ .subscribeRx := by
  cases pc with
  | release caller swapped =>
    cases swapped with
    | none => exact ⟨rfl, rfl, rfl, rfl, by nofun⟩
    | some swapped => exact nomatch h
  | marked value =>
    cases value with
    | false => exact ⟨rfl, rfl, rfl, rfl, by nofun⟩
    | true => exact nomatch h
  | broadcast | announce | subscribeRx | borrow | changed => exact nomatch h
  | _ => exact ⟨rfl, rfl, rfl, rfl, by nofun⟩

theorem raised_of_willSend {pc : Pc} (h : pc.willSend) : pc.raised := by
  revert h
  fun_cases willSend pc with
  | case5 => exact nofun
  | _ => exact fun _ => rfl

theorem willSend_of_sends {pc : Pc} (h : pc.sends) : pc.willSend := by
  revert h
  fun_cases sends pc with
  | case3 => exact nofun
  | _ => exact fun _ => rfl

end Pc

/-- The steps of a call, up to what they do with the lock and the tokens of a flag that is not ready. -/
inductive Effect (flag : ReadinessFlag) : Pc → ReadinessFlag → Pc → Prop
  | quiet {pc pc' : Pc} (nextId : BitVec 32) (tokens : List Token) (locked announced : Bool)
      (htokens : flag.ready → tokens = [])
      (hannounced : announced → flag.announced ∨ flag.ready)
      (hraised : pc'.raised → pc.raised ∨ flag.ready)
      (hsend : pc'.willSend = pc.willSend) (hpc : pc.sends = false) (hlisten : pc.listens = false)
      (hlisten' : pc'.listens = false) (hrx : pc' ≠ .subscribeRx) :
      Effect flag pc { flag with nextId := nextId, tokens := tokens, locked := locked, announced := announced } pc'
  | raise {pc pc' : Pc} (hready : flag.ready = false) (hpc : pc.willSend = false) (hsend : pc'.willSend)
      (hlisten : pc.listens = false) (hlisten' : pc'.listens = false) (hrx : pc' ≠ .subscribeRx) :
      Effect flag pc { flag with ready := true, tokens := [] } pc'
  | send {pc : Pc} {outcome : Outcome} (hpc : pc.sends) (hlisten : pc.listens = false) :
      Effect flag pc { flag with tx := flag.tx.send true, announced := true } (.returned outcome)
  | fail {pc : Pc} (hready : flag.ready = false) (hsend : pc.willSend = false) (hlisten : pc.listens = false) :
      Effect flag pc flag .subscribeRx
  | subscribe : Effect flag .subscribeRx { flag with tx := flag.tx.subscribe } (.borrow flag.tx.version)
  | sleep {seen : ℕ} (hvalue : flag.tx.value = false) : Effect flag (.borrow seen) flag (.changed seen)
  | sleepAgain {seen : ℕ} (hvalue : flag.tx.value = false) (hseen : flag.tx.version ≠ seen) :
      Effect flag (.changed seen) flag (.changed flag.tx.version)
  | leave {pc : Pc} (hvalue : flag.tx.value) (hlisten : pc.listens) (hsend : pc.willSend = false) :
      Effect flag pc { flag with tx := flag.tx.unsubscribe } (.returned .waited)

section Effects

variable {flag flag' : ReadinessFlag} {pc pc' : Pc}

section

variable (htokens : flag.ready → flag.tokens = [])
include htokens

/-- A step that only touches the lock, of a call that has no part in the broadcast. -/
theorem Effect.idle (locked : Bool) (hpc : pc.idle)
    (hpc' : pc'.idle) : Effect flag pc { flag with locked := locked } pc' := by
  obtain ⟨-, hsend, hsends, hlisten, -⟩ := of_idle hpc
  obtain ⟨hraised', hsend', -, hlisten', hrx⟩ := of_idle hpc'
  exact .quiet _ _ _ _ htokens .inl (fun h => absurd (hraised'.symm.trans h) Bool.false_ne_true)
    (hsend'.trans hsend.symm) hsends hlisten hlisten' hrx

theorem Effect.isReadyReturns (hready : flag.ready)
    (locked : Bool) (caller : Caller) (hsend : pc.willSend = false) (hpc : pc.sends = false)
    (hlisten : pc.listens = false)
    (h : ReadinessFlag.isReadyReturns { flag with locked := locked } caller true = (flag', pc')) :
    Effect flag pc flag' pc' := by
  obtain ⟨rfl, rfl⟩ := Prod.mk.inj h
  have hinr : ∀ {p q : Prop}, p → q ∨ flag.ready = true := fun _ => .inr hready
  cases caller with
  | isReady | waitReady => exact .quiet _ _ _ _ htokens hinr hinr hsend.symm hpc hlisten rfl (by nofun)

theorem Effect.loadAgain (caller : Caller)
    (h : flag.isReadyReturns caller flag.ready = (flag', pc')) : Effect flag (.loadAgain caller) flag' pc' := by
  cases hready : flag.ready with
  | true => exact .isReadyReturns htokens hready flag.locked caller rfl rfl rfl (hready ▸ h)
  | false =>
    rw [hready] at h
    obtain ⟨rfl, rfl⟩ := Prod.mk.inj h
    rw [Bool.or_false]
    cases caller with
    | isReady => exact .idle htokens _ rfl rfl
    | waitReady => exact .fail hready rfl rfl

theorem Effect.withTokens (access : Access)
    (h : flag.withTokens access = some (flag', pc')) : Effect flag (.closure access) flag' pc' := by
  cases access with
  | subscribe =>
    rw [ReadinessFlag.withTokens] at h
    split at h
    · obtain ⟨rfl, rfl⟩ := some_mk_inj h
      exact .idle htokens _ rfl rfl
    · rename_i hready
      obtain ⟨⟨token, nextId⟩, -, h⟩ := map_eq_some_iff.mp h
      obtain ⟨rfl, rfl⟩ := Prod.mk.inj h
      exact .quiet _ _ _ _ (fun h => absurd h hready) .inl (by nofun) rfl rfl rfl rfl (by nofun)
  | markReady token =>
    have h := some.inj h
    split at h
    · rename_i htoken
      have hready : flag.ready = false := by
        rw [← Bool.not_eq_true]
        intro hready
        rw [htokens hready] at htoken
        exact not_mem_nil htoken
      obtain ⟨rfl, rfl⟩ := Prod.mk.inj h
      exact .raise hready rfl rfl rfl rfl (by nofun)
    · obtain ⟨rfl, rfl⟩ := Prod.mk.inj h
      exact .idle htokens _ rfl rfl

theorem Effect.test (caller : Caller)
    (h : advance flag (.test caller) = some (flag', pc')) : Effect flag (.test caller) flag' pc' := by
  have h := some.inj h
  split at h
  · rename_i hempty
    obtain ⟨rfl, rfl⟩ := Prod.mk.inj h
    cases hready : flag.ready with
    | true =>
      rw [← hready]
      exact .quiet _ _ _ _ htokens .inl (fun _ => .inr hready) (by rw [hready]; rfl) rfl rfl rfl (by nofun)
    | false =>
      rw [hempty]
      exact .raise hready rfl rfl rfl rfl (by nofun)
  · obtain ⟨rfl, rfl⟩ := Prod.mk.inj h
    exact .idle htokens _ rfl rfl

theorem Effect.enter (access : Access) :
    Effect flag (.enter access) flag (flag.enter access) := by
  cases access with
  | subscribe | markReady =>
    rw [ReadinessFlag.enter]
    split
    · exact .idle htokens _ rfl rfl
    · exact .idle htokens _ rfl rfl

theorem effect_of_advance (hraised : pc.raised → flag.ready)
    (h : advance flag pc = some (flag', pc')) : Effect flag pc flag' pc' := by
  revert h
  fun_cases advance flag pc with
  | case1 caller =>
    intro h
    have h := some.inj h
    split at h
    · rename_i hready
      exact .isReadyReturns htokens hready flag.locked caller rfl rfl rfl h
    · obtain ⟨rfl, rfl⟩ := Prod.mk.inj h
      exact .idle htokens _ rfl rfl
  | case2 =>
    intro h
    have h := some.inj h
    split at h <;> obtain ⟨rfl, rfl⟩ := Prod.mk.inj h
    · exact .idle htokens _ rfl rfl
    · exact .idle htokens _ rfl rfl
  | case3 caller => exact .test htokens caller
  | case4 | case15 | case17 | case18 | case20 =>
    rintro ⟨⟩
    exact .idle htokens _ rfl rfl
  | case5 caller => exact fun h => .isReadyReturns htokens (hraised rfl) false caller rfl rfl rfl (some.inj h)
  | case6 | case19 =>
    rintro ⟨⟩
    exact .quiet _ _ _ _ htokens .inl (fun _ => .inl rfl) rfl rfl rfl rfl (by nofun)
  | case7 caller =>
    rintro ⟨⟩
    rw [Bool.or_true]
    cases caller with
    | isReady | waitReady => exact .send rfl rfl
  | case8 caller => exact fun h => .loadAgain htokens caller (some.inj h)
  | case9 =>
    rintro ⟨⟩
    exact .subscribe
  | case10 seen =>
    intro h
    have h := some.inj h
    split at h <;> obtain ⟨rfl, rfl⟩ := Prod.mk.inj h
    · exact .leave ‹_› rfl rfl
    · exact .sleep (Bool.not_eq_true _ ▸ ‹_›)
  | case12 seen hseen =>
    intro h
    have h := some.inj h
    split at h <;> obtain ⟨rfl, rfl⟩ := Prod.mk.inj h
    · exact .leave ‹_› rfl rfl
    · exact .sleepAgain (Bool.not_eq_true _ ▸ ‹_›) hseen
  | case13 access =>
    rintro ⟨⟩
    exact .enter htokens access
  | case16 access => exact .withTokens htokens access
  | case21 =>
    rintro ⟨⟩
    exact .send rfl rfl
  | case11 | case14 | case22 => exact nofun

end

/-- **What a step can do.** -/
theorem effect_of_step {turn : Turn} (htokens : flag.ready → flag.tokens = [])
    (hraised : pc.raised → flag.ready)
    (h : step flag pc turn = some (flag', pc')) : Effect flag pc flag' pc' := by
  cases turn with
  | go => exact effect_of_advance htokens hraised h
  | timeout =>
    cases pc with
    | lock access =>
      obtain ⟨rfl, rfl⟩ := some_mk_inj h
      exact .idle htokens _ rfl rfl
    | _ => exact nomatch h

end Effects

/-! ### Invariants of the calls -/

/-- What always holds of a flag. -/
structure ReadinessFlag.Steady (flag : ReadinessFlag) : Prop where
  tokens : flag.ready → flag.tokens = []
  announced : flag.announced → flag.ready
  value : flag.tx.value → flag.ready
  version : flag.tx.version = 0 ↔ flag.tx.value = false

/-- What always holds of a call. -/
structure Pc.Steady (flag : ReadinessFlag) (pc : Pc) : Prop where
  raised : pc.raised → flag.ready
  borrow : ∀ seen, pc = .borrow seen → seen ≤ flag.tx.version
  changed : ∀ seen, pc = .changed seen → seen = 0

theorem Pc.Steady.of_not_listens {flag : ReadinessFlag} {pc : Pc} (hraised : pc.raised → flag.ready)
    (hlisten : pc.listens = false) : pc.Steady flag where
  raised := hraised
  borrow _ h := absurd (h ▸ hlisten) (by nofun)
  changed _ h := absurd (h ▸ hlisten) (by nofun)

/-- Other calls only raise the flag and count the version up. -/
theorem Pc.Steady.mono {flag flag' : ReadinessFlag} {pc : Pc} (h : pc.Steady flag)
    (hready : flag.ready → flag'.ready) (hversion : flag.tx.version ≤ flag'.tx.version) :
    pc.Steady flag' where
  raised hpc := hready (h.raised hpc)
  borrow seen hpc := (h.borrow seen hpc).trans hversion
  changed := h.changed

theorem idle_start (call : Call) : (start call).idle := by cases call <;> rfl

section Steps

variable {flag flag' : ReadinessFlag} {pc pc' : Pc}

section

variable (h : Effect flag pc flag' pc')
include h

theorem Effect.version_le : flag.tx.version ≤ flag'.tx.version := by
  cases h with
  | send hpc hlisten =>
    by_cases hreceivers : flag.tx.receivers = 0
    · rw [Watch.send_of_no_receiver _ hreceivers]
    · rw [Watch.send_of_receiver _ hreceivers]
      exact Nat.le_succ _
  | _ => exact Nat.le_refl _

theorem Effect.ready_mono (hready : flag.ready) : flag'.ready := by
  cases h with
  | raise => rfl
  | _ => exact hready

theorem Effect.steady (hflag : flag.Steady) (hpc : pc.Steady flag) : flag'.Steady := by
  cases h with
  | quiet nextId tokens locked announced htokens hannounced =>
    exact ⟨htokens, fun h => (hannounced h).elim hflag.announced id, hflag.value, hflag.version⟩
  | raise => exact ⟨fun _ => rfl, fun _ => rfl, fun _ => rfl, hflag.version⟩
  | send hsends hlisten =>
    have hready := hpc.raised (raised_of_willSend (willSend_of_sends hsends))
    refine ⟨hflag.tokens, fun _ => hready, fun _ => hready, ?_⟩
    by_cases hreceivers : flag.tx.receivers = 0
    · rw [Watch.send_of_no_receiver _ hreceivers]
      exact hflag.version
    · rw [Watch.send_of_receiver _ hreceivers]
      exact ⟨nofun, nofun⟩
  | _ => exact ⟨hflag.tokens, hflag.announced, hflag.value, hflag.version⟩

theorem Effect.steady_pc (hflag : flag.Steady) (hpc : pc.Steady flag) :
    pc'.Steady flag' := by
  cases h with
  | quiet nextId tokens locked announced htokens hannounced hraised hsend hsends hlisten hlisten' hrx =>
    exact .of_not_listens (fun h => (hraised h).elim hpc.raised id) hlisten'
  | raise hready hsend hsend' hlisten hlisten' hrx => exact .of_not_listens (fun _ => rfl) hlisten'
  | send | fail | leave => exact .of_not_listens (by nofun) rfl
  | subscribe => exact ⟨by nofun, fun seen h => (borrow.inj h) ▸ Nat.le_refl _, by nofun⟩
  | sleep hvalue =>
    refine ⟨by nofun, by nofun, fun seen h => ?_⟩
    have hseen := hpc.borrow _ rfl
    rw [hflag.version.mpr hvalue, Nat.le_zero] at hseen
    exact changed.inj h ▸ hseen
  | sleepAgain hvalue hseen =>
    refine ⟨by nofun, by nofun, fun seen h => ?_⟩
    exact changed.inj h ▸ hflag.version.mpr hvalue

end

end Steps

/-- The invariant of the calls on one flag: the channel counts the calls with a receiver, and at most one
call will send, after it has set the flag and before the channel shows it. -/
structure Sound (p : Calls) : Prop where
  steady : p.Inv ReadinessFlag.Steady fun flag pc => pc.Steady flag
  receivers : p.shared.tx.receivers = p.tasks.countP listens
  senders : p.tasks.countP willSend ≤ (p.shared.ready && !p.shared.tx.value).toNat

theorem sound_new : Sound new where
  steady := ⟨⟨nofun, nofun, nofun, ⟨fun _ => rfl, fun _ => rfl⟩⟩, nofun⟩
  receivers := rfl
  senders := Nat.le_refl 0

section Sound

variable {p q : Calls} {flag' : ReadinessFlag} {i : ℕ} {pc pc' : Pc} {e : Event}

theorem Sound.pc_steady (hp : Sound p) (hi : p.tasks[i]? = some pc) : pc.Steady p.shared :=
  hp.steady.tasks pc (mem_of_getElem? hi)

/-- While a call will send, the flag is set, the channel does not show it, and no other call will send. -/
theorem Sound.of_willSend (hp : Sound p) (hi : p.tasks[i]? = some pc) (hsend : pc.willSend) :
    p.shared.ready ∧ p.shared.tx.value = false ∧ p.tasks.countP willSend = 1 := by
  have hpos : 0 < p.tasks.countP willSend := countP_pos_iff.mpr ⟨pc, mem_of_getElem? hi, hsend⟩
  have hle := hp.senders
  have hone := Nat.le_antisymm (hle.trans (Bool.toNat_le _)) hpos
  have hboth : (p.shared.ready && !p.shared.tx.value) = true :=
    Bool.toNat_eq_one.mp (Nat.le_antisymm (Bool.toNat_le _) (hpos.trans_le hle))
  rw [Bool.and_eq_true, Bool.not_eq_true'] at hboth
  exact ⟨hboth.1, hboth.2, hone⟩

theorem Sound.next_cases (hp : Sound p) (h : next p e = some q) :
    (∃ call, e = .call call ∧ q = ⟨p.shared, p.tasks ++ [start call]⟩) ∨
    ∃ i turn pc flag' pc', e = .step i turn ∧ p.tasks[i]? = some pc ∧ Effect p.shared pc flag' pc' ∧
      q = ⟨flag', p.tasks.set i pc'⟩ := by
  cases e with
  | call call => exact .inl ⟨call, rfl, (some.inj h).symm⟩
  | step i turn =>
    obtain ⟨pc, flag', pc', hi, hstep, rfl⟩ := Pool.next_step h
    exact .inr ⟨i, turn, pc, flag', pc', rfl, hi,
      effect_of_step hp.steady.shared.tokens (hp.pc_steady hi).raised hstep, rfl⟩

theorem Effect.receivers (h : Effect p.shared pc flag' pc') (hi : p.tasks[i]? = some pc)
    (hp : p.shared.tx.receivers = p.tasks.countP listens) :
    flag'.tx.receivers = (p.tasks.set i pc').countP listens := by
  have hcount := Pool.countP_set (f := listens) pc' hi
  cases h with
  | quiet _ _ _ _ _ _ _ _ _ hlisten hlisten' | raise _ _ _ hlisten hlisten' =>
    rw [hlisten, hlisten'] at hcount
    exact hp.trans hcount.symm
  | send _ hlisten =>
    rw [hlisten] at hcount
    exact (Watch.receivers_send _ _).trans (hp.trans hcount.symm)
  | fail hready hsend hlisten =>
    rw [hlisten] at hcount
    exact hp.trans hcount.symm
  | subscribe => exact (congrArg (· + 1) hp).trans hcount.symm
  | sleep | sleepAgain => exact hp.trans (Nat.add_right_cancel hcount).symm
  | leave hvalue hlisten hsend =>
    rw [hlisten] at hcount
    exact (congrArg (· - 1) hp).trans (Nat.sub_eq_of_eq_add hcount.symm)

theorem Effect.senders (h : Effect p.shared pc flag' pc') (hp : Sound p) (hi : p.tasks[i]? = some pc) :
    (p.tasks.set i pc').countP willSend ≤ (flag'.ready && !flag'.tx.value).toNat := by
  have hcount := Pool.countP_set (f := willSend) pc' hi
  have hsenders := hp.senders
  cases h with
  | quiet _ _ _ _ _ _ _ hsend | fail _ hsend | leave _ _ hsend =>
    rw [hsend] at hcount
    rwa [Nat.add_right_cancel hcount]
  | raise hready hsend hsend' =>
    have hvalue : p.shared.tx.value = false :=
      Bool.eq_false_of_not_eq_true fun h => Bool.false_ne_true (hready.symm.trans (hp.steady.shared.value h))
    rw [hready] at hsenders
    rw [hsend, hsend', Nat.le_zero.mp hsenders] at hcount
    rw [hvalue]
    exact hcount.le
  | send hsends =>
    rw [willSend_of_sends hsends] at hcount
    have hle := hsenders.trans (Bool.toNat_le _)
    have hzero : (p.tasks.set i (.returned _)).countP willSend = 0 :=
      Nat.le_zero.mp (Nat.le_of_succ_le_succ (hcount.le.trans hle))
    exact hzero.le.trans (Nat.zero_le _)
  | subscribe | sleep | sleepAgain => rwa [Nat.add_right_cancel hcount]

/-- **Every event keeps the invariant.** -/
theorem Sound.next (hp : Sound p) (h : next p e = some q) : Sound q := by
  obtain ⟨call, rfl, rfl⟩ | ⟨i, turn, pc, flag', pc', rfl, hi, heffect, rfl⟩ := hp.next_cases h
  · obtain ⟨hraised, hsend, -, hlisten, -⟩ := of_idle (idle_start call)
    refine ⟨⟨hp.steady.shared, fun pc hpc => ?_⟩, ?_, ?_⟩
    · obtain hpc | hpc := mem_append.mp hpc
      · exact hp.steady.tasks pc hpc
      · rw [mem_singleton.mp hpc]
        exact .of_not_listens (fun h => absurd (hraised.symm.trans h) Bool.false_ne_true) hlisten
    · rw [countP_append, countP_singleton, hlisten]
      exact hp.receivers
    · rw [countP_append, countP_singleton, hsend]
      exact hp.senders
  · have hpc := hp.pc_steady hi
    refine ⟨⟨heffect.steady hp.steady.shared hpc, fun other hother => ?_⟩, heffect.receivers hi hp.receivers,
      heffect.senders hp hi⟩
    obtain hother | rfl := mem_or_eq_of_mem_set hother
    · exact (hp.steady.tasks other hother).mono heffect.ready_mono heffect.version_le
    · exact heffect.steady_pc hp.steady.shared hpc

theorem sound_of_run {es : List Event} (h : run Readiness.next new es = some p) : Sound p :=
  run_inv (fun _ _ _ hp h => hp.next h) sound_new h

end Sound

/-! ### Lost wake-ups -/

/-- The call sleeps in `rx.changed()`, and no further event wakes it. -/
def Stranded (p : Calls) (i : ℕ) : Prop :=
  ∃ seen, p.tasks[i]? = some (.changed seen) ∧
    ∀ es q, run next p es = some q → q.tasks[i]? = some (.changed seen)

/-- A broadcast without receivers finds no `wait_ready` between its failed test and `tx.subscribe()`. -/
def Heard (p : Calls) : Event → Prop
  | .call _ => True
  | .step i _ => ∀ pc, p.tasks[i]? = some pc → pc.sends → p.shared.tx.receivers = 0 → .subscribeRx ∉ p.tasks

instance (p : Calls) : ∀ e, Decidable (Heard p e)
  | .call _ => isTrue trivial
  | .step i _ => inferInstanceAs (Decidable (∀ pc ∈ p.tasks[i]?, _ → _ → _))

/-- Once the broadcast is over and was not stored, no `wait_ready` is on its way to sleep. -/
def Settled (p : Calls) : Prop :=
  p.shared.ready → p.tasks.countP willSend = 0 → p.shared.tx.value = false →
    ∀ pc ∈ p.tasks, pc ≠ .subscribeRx ∧ pc.listens = false

section Wakeups

variable {p q : Calls} {i : ℕ} {e : Event}

theorem Settled.next (hp : Sound p) (hs : Settled p) (hok : Heard p e) (h : next p e = some q) : Settled q := by
  obtain ⟨call, rfl, rfl⟩ | ⟨i, turn, pc, flag', pc', rfl, hi, heffect, rfl⟩ := hp.next_cases h
  · obtain ⟨-, hsend, -, hlisten, hrx⟩ := of_idle (idle_start call)
    intro hready hsenders hvalue other hother
    rw [countP_append, countP_singleton, hsend] at hsenders
    obtain hother | hother := mem_append.mp hother
    · exact hs hready hsenders hvalue other hother
    · rw [mem_singleton.mp hother]
      exact ⟨hrx, hlisten⟩
  · intro hready hsenders hvalue other hother
    have hmem := mem_of_getElem? hi
    have hcount := Pool.countP_set (f := willSend) pc' hi
    rw [hsenders] at hcount
    cases heffect with
    | quiet nextId tokens locked announced htokens hannounced hraised hsend hsends hlisten hlisten' hrx =>
      rw [hsend] at hcount
      obtain hother | rfl := mem_or_eq_of_mem_set hother
      · exact hs hready (Nat.add_right_cancel hcount).symm hvalue other hother
      · exact ⟨hrx, hlisten'⟩
    | raise _ hsend hsend' =>
      rw [hsend, hsend'] at hcount
      exact nomatch hcount
    | send hsends hlisten =>
      have hreceivers : p.shared.tx.receivers = 0 := by
        by_contra hreceivers
        rw [Watch.send_of_receiver _ hreceivers] at hvalue
        exact nomatch hvalue
      obtain hother | rfl := mem_or_eq_of_mem_set hother
      · refine ⟨fun h => hok pc hi hsends hreceivers (h ▸ hother), ?_⟩
        have hnone := countP_eq_zero.mp (hp.receivers.symm.trans hreceivers) other hother
        exact Bool.eq_false_of_not_eq_true hnone
      · exact ⟨by nofun, rfl⟩
    | fail hunready => exact absurd (hunready.symm.trans hready) Bool.false_ne_true
    | subscribe => exact absurd rfl (hs hready (Nat.add_right_cancel hcount).symm hvalue _ hmem).1
    | sleep | sleepAgain => exact nomatch (hs hready (Nat.add_right_cancel hcount).symm hvalue _ hmem).2
    | leave hstored => exact absurd (hvalue.symm.trans hstored) Bool.false_ne_true

theorem exists_wake (hp : Sound p) (hi : p.tasks[i]? = some (.changed 0)) (hvalue : p.shared.tx.value) :
    ∃ q, next p (.step i .go) = some q ∧ q.tasks[i]? = some (.returned .waited) := by
  have hversion : p.shared.tx.version ≠ 0 := fun h =>
    Bool.false_ne_true ((hp.steady.shared.version.mp h).symm.trans hvalue)
  have hstep : step p.shared (.changed 0) .go = some p.shared.waitReadyReturns := by
    rw [step, advance, if_neg hversion, if_pos hvalue]
  refine ⟨_, Pool.next_of_step hi hstep, ?_⟩
  exact List.getElem?_set_self (List.getElem?_eq_some_iff.mp hi).1

/-- A run sends, and leaves the other calls where they are. -/
def CanSend (p : Calls) (i : ℕ) : Prop :=
  ∃ es q, run next p es = some q ∧ q.shared.tx = p.shared.tx.send true ∧ ∀ j, j ≠ i → q.tasks[j]? = p.tasks[j]?

theorem canSend_of_sends {pc : Pc} (hi : p.tasks[i]? = some pc) (hsends : pc.sends) : CanSend p i := by
  revert hsends
  fun_cases sends pc with
  | case3 => exact nofun
  | _ =>
    exact fun _ => ⟨[.step i .go], _, run_singleton.trans (Pool.next_of_step hi rfl), rfl,
      fun j hj => getElem?_set_ne hj.symm⟩

theorem canSend_of_locked {pc pc' : Pc} (hi : p.tasks[i]? = some pc)
    (hstep : step p.shared pc .go = some ({ p.shared with locked := false }, pc')) (hsends : pc'.sends = true) :
    CanSend p i := by
  have hlt := (List.getElem?_eq_some_iff.mp hi).1
  obtain ⟨es, q, hq, htx, htasks⟩ := canSend_of_sends
    (p := ⟨{ p.shared with locked := false }, p.tasks.set i pc'⟩) (List.getElem?_set_self hlt) hsends
  refine ⟨.step i .go :: es, q, ?_, htx, fun j hj => ?_⟩
  · rw [run_step (Pool.next_of_step hi hstep), hq]
  · rw [htasks j hj]
    exact List.getElem?_set_ne hj.symm

/-- A call that will send can do so, whatever the others do. -/
theorem canSend_of_willSend {pc : Pc} (hi : p.tasks[i]? = some pc) (hsend : pc.willSend) : CanSend p i := by
  revert hsend
  fun_cases willSend pc with
  | case1 | case3 => exact fun _ => canSend_of_locked hi rfl rfl
  | case2 | case4 => exact fun _ => canSend_of_sends hi rfl
  | case5 => exact nofun

/-- A call that sleeps while another will send is woken by it: the channel has a receiver. -/
theorem not_stranded_of_willSend {j : ℕ} {pc : Pc} (hp : Sound p) (hj : p.tasks[j]? = some pc)
    (hsend : pc.willSend) : ¬ Stranded p i := by
  rintro ⟨seen, hi, hforever⟩
  obtain rfl := (hp.pc_steady hi).changed seen rfl
  have hij : i ≠ j := by
    rintro rfl
    obtain rfl := mem_unique hi hj
    exact nomatch hsend
  have hreceivers : p.shared.tx.receivers ≠ 0 := by
    rw [hp.receivers]
    exact (countP_pos_iff.mpr ⟨_, mem_of_getElem? hi, rfl⟩).ne'
  obtain ⟨es, q, hrun, htx, htasks⟩ := canSend_of_willSend hj hsend
  have hq : Sound q := run_inv (fun _ _ _ hp h => hp.next h) hp hrun
  rw [Watch.send_of_receiver _ hreceivers] at htx
  obtain ⟨r, hr, hwaited⟩ := exists_wake hq ((htasks i hij).trans hi) (by rw [htx])
  have hrun' : run next p (es ++ [.step i .go]) = some r := by rw [run_concat, hrun, bind_some, hr]
  exact nomatch hwaited.symm.trans (hforever _ r hrun')

/-- In a settled state of a flag known to be ready, every sleeping call can be woken. -/
theorem Settled.not_stranded (hp : Sound p) (hs : Settled p) (hannounced : p.shared.announced) :
    ¬ Stranded p i := by
  intro h
  obtain ⟨seen, hi, hforever⟩ := id h
  obtain rfl := (hp.pc_steady hi).changed seen rfl
  cases hvalue : p.shared.tx.value with
  | true =>
    obtain ⟨q, hq, hwaited⟩ := exists_wake hp hi hvalue
    exact nomatch hwaited.symm.trans (hforever [.step i .go] q (run_singleton.trans hq))
  | false =>
    have hsenders : 0 < p.tasks.countP willSend := by
      rw [Nat.pos_iff_ne_zero]
      intro hnone
      exact nomatch (hs (hp.steady.shared.announced hannounced) hnone hvalue _ (mem_of_getElem? hi)).2
    obtain ⟨pc, hmem, hsend⟩ := countP_pos_iff.mp hsenders
    obtain ⟨j, hj⟩ := getElem?_of_mem hmem
    exact not_stranded_of_willSend hp hj hsend h

/-- Nobody will send any more, and the call sleeps. -/
structure Lost (p : Calls) (i : ℕ) : Prop where
  ready : p.shared.ready
  senders : p.tasks.countP willSend = 0
  value : p.shared.tx.value = false
  sleeps : p.tasks[i]? = some (.changed 0)

theorem Lost.next (hp : Sound p) (h : Lost p i) (hnext : next p e = some q) : Lost q i := by
  obtain ⟨hready, hsenders, hvalue, hi⟩ := h
  obtain ⟨call, rfl, rfl⟩ | ⟨j, turn, pc, flag', pc', rfl, hj, heffect, rfl⟩ := hp.next_cases hnext
  · refine ⟨hready, ?_, hvalue, ?_⟩
    · rw [countP_append, countP_singleton, hsenders, (of_idle (idle_start call)).2.1]
      rfl
    · exact (List.getElem?_append_left (List.getElem?_eq_some_iff.mp hi).1).trans hi
  · have hcount := Pool.countP_set (f := willSend) pc' hj
    rw [hsenders, Nat.zero_add] at hcount
    have hnone : pc.willSend = false :=
      Bool.eq_false_of_not_eq_true (countP_eq_zero.mp hsenders pc (mem_of_getElem? hj))
    rw [hnone] at hcount
    have hother (hlisten : pc.listens = false) : (p.tasks.set j pc')[i]? = some (.changed 0) := by
      refine (getElem?_set_ne ?_).trans hi
      rintro rfl
      obtain rfl := mem_unique hi hj
      exact nomatch hlisten
    cases heffect with
    | quiet nextId tokens locked announced htokens hannounced hraised hsend hsends hlisten =>
      rw [hsend, hnone] at hcount
      exact ⟨hready, hcount, hvalue, hother hlisten⟩
    | raise hunready | fail hunready => exact absurd (hunready.symm.trans hready) Bool.false_ne_true
    | send hsends => exact absurd (hnone.symm.trans (willSend_of_sends hsends)) Bool.false_ne_true
    | subscribe => exact ⟨hready, hcount, hvalue, hother rfl⟩
    | sleep =>
      refine ⟨hready, hcount, hvalue, (getElem?_set_ne ?_).trans hi⟩
      rintro rfl
      exact nomatch hi.symm.trans hj
    | sleepAgain _ hseen =>
      refine ⟨hready, hcount, hvalue, (getElem?_set_ne ?_).trans hi⟩
      rintro rfl
      exact hseen ((hp.steady.shared.version.mpr hvalue).trans (changed.inj (mem_unique hi hj)))
    | leave hstored => exact absurd (hvalue.symm.trans hstored) Bool.false_ne_true

theorem Lost.stranded (hp : Sound p) (h : Lost p i) : Stranded p i := by
  refine ⟨0, h.sleeps, fun es q hrun => ?_⟩
  have hinv := run_inv (I := fun p => Sound p ∧ Lost p i)
    (fun _ _ _ h hnext => ⟨h.1.next hnext, h.2.next h.1 hnext⟩) ⟨hp, h⟩ hrun
  exact hinv.2.sleeps

/-- A call that creates its receiver after the broadcast is over, and was not stored, falls asleep for good. -/
theorem exists_stranded (hp : Sound p) (hready : p.shared.ready) (hsenders : p.tasks.countP willSend = 0)
    (hvalue : p.shared.tx.value = false) (hi : p.tasks[i]? = some .subscribeRx) :
    ∃ es q, run next p es = some q ∧ q.shared.announced = p.shared.announced ∧ Stranded q i := by
  have hlt := (List.getElem?_eq_some_iff.mp hi).1
  have hversion := hp.steady.shared.version.mpr hvalue
  let p₁ : Calls := ⟨{ p.shared with tx := p.shared.tx.subscribe }, p.tasks.set i (.borrow 0)⟩
  let p₂ : Calls := ⟨p₁.shared, p₁.tasks.set i (.changed 0)⟩
  have h₁ : next p (.step i .go) = some p₁ := Pool.next_of_step hi (by rw [step, advance, hversion])
  have hi₁ : p₁.tasks[i]? = some (.borrow 0) := List.getElem?_set_self hlt
  have h₂ : next p₁ (.step i .go) = some p₂ :=
    Pool.next_of_step hi₁ (congrArg some (if_neg (Bool.eq_false_iff.mp hvalue)))
  have hp₁ := hp.next h₁
  have hcount₁ := Pool.countP_set (f := willSend) (.borrow 0) hi
  have hcount₂ := Pool.countP_set (f := willSend) (.changed 0) hi₁
  have hlost : Lost p₂ i := by
    refine ⟨hready, ?_, hvalue, List.getElem?_set_self (List.getElem?_eq_some_iff.mp hi₁).1⟩
    exact (Nat.add_right_cancel hcount₂).trans ((Nat.add_right_cancel hcount₁).trans hsenders)
  refine ⟨[.step i .go, .step i .go], p₂, ?_, rfl, hlost.stranded (hp₁.next h₂)⟩
  rw [run_step h₁, run_singleton, h₂]

/-- A broadcast that is not heard leaves a call behind that can fall asleep for good. -/
theorem exists_stranded_of_not_heard (hp : Sound p) (h : next p e = some q) (hnot : ¬ Heard p e) :
    ∃ es r i, run next q es = some r ∧ r.shared.announced ∧ Stranded r i := by
  obtain ⟨call, rfl, rfl⟩ | ⟨j, turn, pc, flag', pc', rfl, hj, heffect, rfl⟩ := hp.next_cases h
  · exact absurd trivial hnot
  · simp only [Heard, not_forall, not_not, exists_prop] at hnot
    obtain ⟨pc₁, hj₁, hsends, hreceivers, hmem⟩ := hnot
    obtain rfl := mem_unique hj hj₁
    have hq := hp.next h
    have hsend := willSend_of_sends hsends
    have hcount := Pool.countP_set (f := willSend) pc' hj
    cases heffect with
    | send =>
      obtain ⟨w, hw⟩ := getElem?_of_mem hmem
      have hwj : w ≠ j := by
        rintro rfl
        obtain rfl := mem_unique hw hj
        exact nomatch hsends
      obtain ⟨hready, hvalue, hone⟩ := hp.of_willSend hj hsend
      rw [hone, hsend] at hcount
      obtain ⟨es, r, hrun, hannounced, hstranded⟩ := exists_stranded hq hready (Nat.add_right_cancel hcount)
        (by rw [Watch.send_of_no_receiver _ hreceivers]; exact hvalue) ((getElem?_set_ne hwj.symm).trans hw)
      exact ⟨es, r, w, hrun, hannounced, hstranded⟩
    | quiet _ _ _ _ _ _ _ _ hquiet => exact absurd (hquiet.symm.trans hsends) Bool.false_ne_true
    | raise _ hquiet | fail _ hquiet | leave _ _ hquiet => exact absurd (hquiet.symm.trans hsend) Bool.false_ne_true
    | _ => exact nomatch hsends

/-- **No wake-up is lost** in a run whose broadcasts are all heard: when the flag is known to be ready, no
`wait_ready` sleeps for good.  Every other broadcast can be followed by such a sleep. -/
theorem wakeups_of_run {es : List Event} (h : run next new es = some p) :
    (Meets next Heard new es → p.shared.announced → ∀ i, ¬ Stranded p i) ∧
    ∀ e q, next p e = some q → ¬ Heard p e →
      ∃ fs r i, run next q fs = some r ∧ r.shared.announced ∧ Stranded r i := by
  constructor
  · intro hmeets hannounced i
    have hinv := run_inv_of_meets (I := fun p => Sound p ∧ Settled p)
      (fun _ _ _ hp hok hnext => ⟨hp.1.next hnext, hp.2.next hp.1 hok hnext⟩) ⟨sound_new, nofun⟩ hmeets h
    exact hinv.2.not_stranded hinv.1 hannounced
  · intro e q hnext hnot
    exact exists_stranded_of_not_heard (sound_of_run h) hnext hnot

end Wakeups

/-- A token marks the flag ready while a `wait_ready` sleeps. -/
def markedAsleep : List Event :=
  [.call .subscribe, .step 0 .go, .step 0 .go, .step 0 .go, .step 0 .go,
    .call .waitReady, .step 1 .go, .step 1 .go, .step 1 .go, .step 1 .go, .step 1 .go, .step 1 .go, .step 1 .go,
    .call (.markReady 1), .step 2 .go, .step 2 .go, .step 2 .go, .step 2 .go, .step 2 .go]

theorem wakeups_markedAsleep : ∃ p, run next new markedAsleep = some p ∧
    p.tasks = [.returned (.token 1), .changed 0, .returned (.marked true)] ∧ Meets next Heard new markedAsleep ∧
    ∀ i, ¬ Stranded p i := by
  obtain ⟨p, hp, htasks, hannounced⟩ : ∃ p ∈ run next new markedAsleep,
      p.tasks = [.returned (.token 1), .changed 0, .returned (.marked true)] ∧ p.shared.announced = true := by decide
  have hmeets : Meets next Heard new markedAsleep := by decide
  exact ⟨p, hp, htasks, hmeets, (wakeups_of_run hp).1 hmeets hannounced⟩

/-- A token marks the flag ready while a `wait_ready` is between its failed test and its receiver. -/
def markedBetween : List Event :=
  [.call .subscribe, .step 0 .go, .step 0 .go, .step 0 .go, .step 0 .go,
    .call .waitReady, .step 1 .go, .step 1 .go, .step 1 .go, .step 1 .go, .step 1 .go,
    .call (.markReady 1), .step 2 .go, .step 2 .go, .step 2 .go, .step 2 .go, .step 2 .go,
    .step 1 .go, .step 1 .go]

/-- The `mark_ready` has returned `Ok(true)`, and the `wait_ready` sleeps whatever is called from now on. -/
theorem stranded_markedBetween : ∃ p, run next new markedBetween = some p ∧ p.shared.announced ∧
    p.tasks = [.returned (.token 1), .changed 0, .returned (.marked true)] ∧ Stranded p 1 := by
  obtain ⟨p, hp, htasks, hannounced, hready, hvalue⟩ : ∃ p ∈ run next new markedBetween,
      p.tasks = [.returned (.token 1), .changed 0, .returned (.marked true)] ∧ p.shared.announced = true ∧
        p.shared.ready = true ∧ p.shared.tx.value = false := by decide
  have hlost : Lost p 1 := by
    refine ⟨hready, ?_, hvalue, ?_⟩
    · rw [htasks]
      rfl
    · rw [htasks]
      rfl
  exact ⟨p, hp, hannounced, htasks, hlost.stranded (sound_of_run hp)⟩

/-! ### The call that marks the flag -/

/-- The call is a `mark_ready` that has returned `Ok(true)`, or is about to. -/
def Pc.won : Pc → Bool
  | marked true | announce | returned (.marked true) => true
  | _ => false

/-- The call is a `subscribe` that has handed out the token. -/
def Pc.issues (token : Token) : Pc → Bool
  | subscribed (some issued) | returned (.token issued) => issued = token
  | _ => false

/-- The tokens are distinct and were handed out, and no call has won before the flag is ready. -/
structure Fair (flag : ReadinessFlag) (tasks : List Pc) : Prop where
  nodup : flag.tokens.Nodup
  zero : 0 ∉ flag.tokens
  empty : flag.ready → flag.tokens = []
  issued : ∀ token ∈ flag.tokens, tasks.any (issues token)
  winners : tasks.countP won ≤ flag.ready.toNat

/-- A step of a call sets the flag for a token, or where there is none, or does not set it. -/
def Marks (flag : ReadinessFlag) (pc : Pc) (flag' : ReadinessFlag) (pc' : Pc) : Prop :=
  (pc'.won = pc.won ∧ (flag'.ready = flag.ready ∨ flag.tokens = [] ∧ ∃ caller, pc = test caller)) ∨
    ∃ token ∈ flag.tokens, pc = closure (.markReady token) ∧ pc' = marked true

theorem claimToken_eq_some {tokens : List Token} {token nextId : BitVec 32} : ∀ {fuel : ℕ} {id : BitVec 32},
    claimToken tokens fuel id = some (token, nextId) → token ≠ 0 ∧ token ∉ tokens
  | fuel + 1, id, h => by
    rw [claimToken] at h
    split_ifs at h with hid
    · cases h
      exact hid
    · exact claimToken_eq_some h

theorem won_isReadyReturns (flag : ReadinessFlag) (caller : Caller) (value : Bool) :
    (flag.isReadyReturns caller value).2.won = false := by
  cases caller <;> cases value <;> rfl

section

variable {flag flag' : ReadinessFlag} {pc pc' : Pc} {others : List Pc}

theorem Fair.quiet (h : Fair flag (pc :: others)) (htokens : flag'.tokens = flag.tokens)
    (hready : flag'.ready = flag.ready) (hissues : ∀ token, pc.issues token → pc'.issues token)
    (hwon : pc'.won = pc.won) : Fair flag' (pc' :: others) ∧ Marks flag pc flag' pc' := by
  refine ⟨⟨htokens ▸ h.nodup, htokens ▸ h.zero, ?_, fun token htoken => ?_, ?_⟩, .inl ⟨hwon, .inl hready⟩⟩
  · rw [htokens, hready]
    exact h.empty
  · have hissued := h.issued token (htokens ▸ htoken)
    rw [any_cons, Bool.or_eq_true] at hissued ⊢
    exact hissued.imp_left (hissues token)
  · rw [countP_cons, hwon, hready, ← countP_cons]
    exact h.winners

theorem Fair.withTokens {access : Access} (h : Fair flag (closure access :: others)) :
    ∀ r ∈ flag.withTokens access, Fair r.1 (r.2 :: others) ∧ Marks flag (closure access) r.1 r.2 := by
  cases access with
  | subscribe =>
    intro r hr
    rw [ReadinessFlag.withTokens] at hr
    split_ifs at hr with hready
    · cases hr
      exact h.quiet rfl rfl (fun _ => nofun) rfl
    · obtain ⟨⟨token, nextId⟩, hclaim, rfl⟩ := map_eq_some_iff.mp hr
      obtain ⟨hne, hnot⟩ := claimToken_eq_some hclaim
      refine ⟨⟨nodup_cons.mpr ⟨hnot, h.nodup⟩, not_mem_cons_of_ne_of_not_mem hne.symm h.zero,
        fun h => absurd h hready, forall_mem_cons.mpr ⟨by simp [issues], fun other hother => ?_⟩, h.winners⟩,
        .inl ⟨rfl, .inl rfl⟩⟩
      rw [any_cons, show any others _ = true from h.issued other hother, Bool.or_true]
  | markReady token =>
    rintro r ⟨⟩
    split_ifs with htoken
    · have hready : flag.ready = false := Bool.eq_false_of_not_eq_true fun hready =>
        not_mem_nil (h.empty hready ▸ htoken)
      have hwinners := h.winners
      rw [hready] at hwinners
      refine ⟨⟨nodup_nil, not_mem_nil, fun _ => rfl, nofun, ?_⟩, .inr ⟨token, htoken, rfl, rfl⟩⟩
      exact countP_cons.trans_le (Nat.succ_le_succ hwinners)
    · exact h.quiet rfl rfl (fun _ => nofun) rfl

theorem Fair.step {turn : Turn} (h : Fair flag (pc :: others)) :
    ∀ r ∈ step flag pc turn, Fair r.1 (r.2 :: others) ∧ Marks flag pc r.1 r.2 := by
  cases turn with
  | timeout =>
    cases pc with
    | lock =>
      rintro r ⟨⟩
      exact h.quiet rfl rfl (fun _ => nofun) rfl
    | _ => rintro r ⟨⟩
  | go =>
    show ∀ r ∈ advance flag pc, _
    fun_cases advance flag pc with
    | case16 access => exact h.withTokens
    | case3 caller =>
      rintro r ⟨⟩
      split_ifs with hempty
      · refine ⟨⟨h.nodup, h.zero, fun _ => hempty, h.issued, h.winners.trans (Bool.toNat_le _)⟩, ?_⟩
        exact .inl ⟨rfl, .inr ⟨hempty, caller, rfl⟩⟩
      · exact h.quiet rfl rfl (fun _ => nofun) rfl
    | case11 | case14 | case22 => rintro r ⟨⟩
    | case1 caller =>
      rintro r ⟨⟩
      split_ifs
      · exact h.quiet rfl rfl (fun _ => nofun) (won_isReadyReturns _ caller _)
      · exact h.quiet rfl rfl (fun _ => nofun) rfl
    | case5 caller | case7 caller | case8 caller =>
      rintro r ⟨⟩
      exact h.quiet rfl rfl (fun _ => nofun) (won_isReadyReturns _ caller _)
    | case18 =>
      rintro r ⟨⟩
      exact h.quiet rfl rfl (fun _ => id) rfl
    | case2 | case10 | case12 =>
      rintro r ⟨⟩
      split_ifs <;> exact h.quiet rfl rfl (fun _ => nofun) rfl
    | case13 access =>
      rintro r ⟨⟩
      exact h.quiet rfl rfl (fun _ => nofun) (by fun_cases flag.enter access <;> rfl)
    | _ =>
      rintro r ⟨⟩
      exact h.quiet rfl rfl (fun _ => nofun) rfl

end

theorem Fair.perm {flag : ReadinessFlag} {tasks tasks' : List Pc} (h : Fair flag tasks) (hperm : tasks.Perm tasks') :
    Fair flag tasks' :=
  ⟨h.nodup, h.zero, h.empty, fun token htoken => hperm.any_eq ▸ h.issued token htoken, hperm.countP_eq won ▸ h.winners⟩

section

variable {es : List Event} {p : Calls}

theorem fair_of_run (h : run next new es = some p) : Fair p.shared p.tasks := by
  refine run_inv (I := fun p => Fair p.shared p.tasks) (fun p e q hp hnext => ?_) ?_ h
  swap
  · exact ⟨nodup_nil, not_mem_nil, fun _ => rfl, forall_mem_nil _, le_rfl⟩
  have hallowed : e.Allowed (fun _ => True) (fun _ _ _ => True) p := by
    cases e <;> simp [Pool.Event.Allowed]
  refine Pool.next_inv_perm (fun _ _ _ hperm hp => hp.perm hperm) (fun flag tasks call hp _ => ?_)
    (fun _ _ _ _ _ _ hp _ hstep => (hp.step _ hstep).1) hp hallowed hnext
  refine ⟨hp.nodup, hp.zero, hp.empty, fun token htoken => ?_, ?_⟩
  · rw [any_cons, hp.issued token htoken, Bool.or_true]
  · rw [countP_cons_of_neg (by cases call <;> simp [start, won])]
    exact hp.winners

/-- **One call marks the flag**, for a token that was handed out: in every run at most one `mark_ready` returns
`Ok(true)`, and the flag is set by it or by an `is_ready` that finds no token, and stays set. -/
theorem fair_marks_of_run (h : run next new es = some p) : Fair p.shared p.tasks ∧
    ∀ e q, next p e = some q → (p.shared.ready → q.shared.ready) ∧
      ∀ i turn, e = .step i turn → ∃ pc pc', p.tasks[i]? = some pc ∧ q.tasks = p.tasks.set i pc' ∧
        Marks p.shared pc q.shared pc' := by
  have hfair := fair_of_run h
  refine ⟨hfair, fun e q hnext => ⟨?_, ?_⟩⟩
  · obtain ⟨call, rfl, rfl⟩ | ⟨i, turn, pc, flag', pc', rfl, hi, heffect, rfl⟩ := (sound_of_run h).next_cases hnext
    · exact id
    · exact heffect.ready_mono
  · rintro i turn rfl
    obtain ⟨pc, flag', pc', hi, hstep, rfl⟩ := Pool.next_step hnext
    obtain ⟨hlt, rfl⟩ := List.getElem?_eq_some_iff.mp hi
    exact ⟨_, pc', hi, rfl, ((hfair.perm (List.getElem_cons_eraseIdx_perm hlt).symm).step _ hstep).2⟩

end

theorem fair_markedAsleep : ∃ p, run next new markedAsleep = some p ∧ p.tasks.countP won = 1 ∧
    Fair p.shared p.tasks := by
  obtain ⟨p, hp, hone⟩ : ∃ p ∈ run next new markedAsleep, p.tasks.countP won = 1 := by decide
  exact ⟨p, hp, hone, (fair_marks_of_run hp).1⟩

end OpenAgere.Readiness
