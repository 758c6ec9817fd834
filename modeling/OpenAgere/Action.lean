import Mathlib.Tactic

/-! # Actions on a state that can fail

Imperative code with a state `σ` and errors `ε`: an action maps a state to a result and a new
state, and the changes made before an error stay.  Every control structure has the rule that
takes its success apart (`bind_ok`, `tryCatch_ok`, `forEach_cons_ok`), so a proof about a run
never unfolds the monad; `forEach_rel` carries a preorder on states through a loop. -/

namespace OpenAgere

/-- A result and a new state, from a state. -/
def Action (σ ε α : Type) : Type := σ → Except ε α × σ

namespace Action
variable {σ ε α β γ : Type}

instance : Monad (Action σ ε) where
  pure a := fun s => (.ok a, s)
  bind x f := fun s =>
    match x s with
    | (.ok a, s') => f a s'
    | (.error e, s') => (.error e, s')

/-- Fail with an error. -/
def fail (e : ε) : Action σ ε α := fun s => (.error e, s)

/-- Read something off the state, or fail. -/
def query (f : σ → Except ε α) : Action σ ε α := fun s => (f s, s)

/-- Change the state, or fail and leave it as it is. -/
def update (f : σ → Except ε σ) : Action σ ε Unit := fun s =>
  match f s with
  | .ok s' => (.ok (), s')
  | .error e => (.error e, s)

/-- Handle the error of an action in the state the action left. -/
def tryCatch (x : Action σ ε α) (h : ε → Action σ γ α) : Action σ γ α := fun s =>
  match x s with
  | (.ok a, s') => (.ok a, s')
  | (.error e, s') => h e s'

/-- The same action with another type of errors. -/
def mapError (f : ε → γ) (x : Action σ ε α) : Action σ γ α := tryCatch x fun e => fail (f e)

/-- A loop over a list with an accumulator. -/
def forEach (f : α → β → Action σ ε β) : List α → β → Action σ ε β
  | [], b => pure b
  | a :: as, b => do
      let b ← f a b
      forEach f as b

section ok
variable {s s' : σ}

@[simp] theorem pure_ok {a b : α} : (pure a : Action σ ε α) s = (.ok b, s') ↔ a = b ∧ s = s' := by
  show ((Except.ok a : Except ε α), s) = _ ↔ _
  simp

@[simp] theorem fail_ok {e : ε} {b : α} : (fail e : Action σ ε α) s = (.ok b, s') ↔ False := by
  simp [fail]

@[simp] theorem query_ok {f : σ → Except ε α} {b : α} :
    query f s = (.ok b, s') ↔ f s = .ok b ∧ s = s' := by
  simp [query]

@[simp] theorem update_ok {f : σ → Except ε σ} {u : Unit} :
    update f s = (.ok u, s') ↔ f s = .ok s' := by
  unfold update
  cases f s <;> simp

variable {x : Action σ ε α}

@[simp] theorem bind_ok {f : α → Action σ ε β} {b : β} :
    (x >>= f) s = (.ok b, s') ↔ ∃ a t, x s = (.ok a, t) ∧ f a t = (.ok b, s') := by
  show (match x s with
    | (.ok a, s') => f a s'
    | (.error e, s') => (.error e, s')) = _ ↔ _
  obtain ⟨r, t⟩ := x s
  cases r with
  | ok a =>
    constructor
    · intro h
      exact ⟨a, t, rfl, h⟩
    · rintro ⟨a', t', h, h'⟩
      cases h
      exact h'
  | error e => simp

theorem update_error {f : σ → Except ε σ} {e : ε} (h : update f s = (.error e, s')) : s' = s := by
  unfold update at h
  cases hf : f s with
  | ok t =>
    rw [hf] at h
    cases h
  | error e' =>
    rw [hf] at h
    cases h
    rfl

theorem tryCatch_ok {h : ε → Action σ γ α} {b : α} :
    tryCatch x h s = (.ok b, s') ↔
      x s = (.ok b, s') ∨ ∃ e t, x s = (.error e, t) ∧ h e t = (.ok b, s') := by
  unfold tryCatch
  obtain ⟨r, t⟩ := x s
  cases r <;> simp

@[simp] theorem mapError_ok {f : ε → γ} {b : α} :
    mapError f x s = (.ok b, s') ↔ x s = (.ok b, s') := by
  unfold mapError
  rw [tryCatch_ok]
  simp

variable {f : α → β → Action σ ε β}

theorem forEach_nil_ok {b c : β} :
    forEach f [] b s = (.ok c, s') ↔ b = c ∧ s = s' := pure_ok

theorem forEach_cons_ok {a : α} {as : List α} {b c : β} :
    forEach f (a :: as) b s = (.ok c, s') ↔
      ∃ d t, f a b s = (.ok d, t) ∧ forEach f as d t = (.ok c, s') := bind_ok

theorem forEach_append_ok : ∀ {as bs : List α} {b c : β} {s : σ},
    forEach f (as ++ bs) b s = (.ok c, s') ↔
      ∃ d t, forEach f as b s = (.ok d, t) ∧ forEach f bs d t = (.ok c, s')
  | [], bs, b, c, s => by
    simp only [List.nil_append, forEach_nil_ok]
    constructor
    · intro h
      exact ⟨b, s, ⟨rfl, rfl⟩, h⟩
    · rintro ⟨d, t, ⟨rfl, rfl⟩, h⟩
      exact h
  | a :: as, bs, b, c, s => by
    rw [List.cons_append, forEach_cons_ok]
    simp only [forEach_cons_ok, forEach_append_ok]
    constructor
    · rintro ⟨d, t, h1, d', t', h2, h3⟩
      exact ⟨d', t', ⟨d, t, h1, h2⟩, h3⟩
    · rintro ⟨d', t', ⟨d, t, h1, h2⟩, h3⟩
      exact ⟨d, t, h1, d', t', h2, h3⟩

/-- **The loop rule.**  A preorder on states that holds across every round holds across the
loop. -/
theorem forEach_rel {R : σ → σ → Prop} (refl : ∀ s, R s s)
    (trans : ∀ {s t u}, R s t → R t u → R s u) : ∀ {as : List α} {b c : β} {s s' : σ},
    (∀ a ∈ as, ∀ {b c s s'}, f a b s = (.ok c, s') → R s s') →
    forEach f as b s = (.ok c, s') → R s s'
  | [], b, c, s, s', _, h => by
    obtain ⟨_, rfl⟩ := forEach_nil_ok.mp h
    exact refl s
  | a :: as, b, c, s, s', hstep, h => by
    obtain ⟨d, t, h1, h2⟩ := forEach_cons_ok.mp h
    exact trans (hstep a (by simp) h1) (forEach_rel refl trans
      (fun x hx => hstep x (List.mem_cons_of_mem a hx)) h2)

end ok

end Action

end OpenAgere
