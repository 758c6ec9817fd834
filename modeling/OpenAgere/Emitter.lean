import Mathlib.Data.List.Flatten

/-! # Transitions that emit

Code that changes a state and appends to a list of results: a transition takes a state to a new
state and the results it emits.  `seq` and `run` are sequence and loop; their laws let a loop
over events be read as a loop over the smaller steps of the events (`run_flatMap`).

A monitor reads a list item by item; `Checked` says that every item is fine for what the monitor
has read before it.  `checked_run_iff` reduces what a monitor says of the results of a loop to what
another one says of the items the loop goes over. -/

namespace OpenAgere

/-- A new state and the results emitted, from a state. -/
def Emitter (σ ω : Type) : Type := σ → σ × List ω

namespace Emitter
variable {σ ω α β : Type}

/-- Do nothing. -/
def nop : Emitter σ ω := fun s => (s, [])

/-- One transition after the other. -/
def seq (f g : Emitter σ ω) : Emitter σ ω := fun s => ((g (f s).1).1, (f s).2 ++ (g (f s).1).2)

/-- A loop over a list. -/
def run (f : α → Emitter σ ω) : List α → Emitter σ ω
  | [] => nop
  | a :: as => seq (f a) (run f as)

theorem nop_seq (f : Emitter σ ω) : seq nop f = f := rfl

theorem seq_nop (f : Emitter σ ω) : seq f nop = f := by
  funext s
  simp [seq, nop]

theorem seq_assoc (f g h : Emitter σ ω) : seq (seq f g) h = seq f (seq g h) := by
  funext s
  simp [seq]

theorem run_cons (f : α → Emitter σ ω) (a : α) (as : List α) (s : σ) : run f (a :: as) s =
    ((run f as (f a s).1).1, (f a s).2 ++ (run f as (f a s).1).2) := rfl

theorem run_singleton (f : α → Emitter σ ω) (a : α) : run f [a] = f a := seq_nop (f a)

theorem run_append (f : α → Emitter σ ω) : ∀ as bs : List α, run f (as ++ bs) = seq (run f as) (run f bs)
  | [], _ => rfl
  | a :: as, bs => by
    show seq (f a) (run f (as ++ bs)) = seq (seq (f a) (run f as)) (run f bs)
    rw [run_append f as bs, seq_assoc]

theorem run_flatMap (f : β → Emitter σ ω) (g : α → List β) : ∀ as : List α,
    run f (as.flatMap g) = run (fun a => run f (g a)) as
  | [] => rfl
  | a :: as => by
    rw [List.flatMap_cons, run_append, run_flatMap f g as]
    rfl

/-- **The view rule.**  When every step changes a part of the state by `act` if the item of the step
is about that part, and not at all otherwise, so does a loop: items about other parts do not
matter. -/
theorem view_run {γ : Type} {f : α → Emitter σ ω} (view : σ → β) {about : α → Option γ} {act : β → γ → β}
    (hstep : ∀ a s, view (f a s).1 = ((about a).elim (view s) (act (view s)))) :
    ∀ (as : List α) (s : σ), view (run f as s).1 = (as.filterMap about).foldl act (view s)
  | [], _ => rfl
  | a :: as, s => by
    rw [run_cons]
    rw [view_run view hstep as (f a s).1, hstep]
    cases h : about a with
    | none => rw [List.filterMap_cons_none h]; rfl
    | some c => rw [List.filterMap_cons_some h]; rfl

end Emitter

/-! ### Monitors -/

section monitor
variable {σ ω α μ ν : Type} {next : μ → α → μ} {ok : μ → α → Prop}

/-- Every item is fine for a monitor that has read the items before it. -/
def Checked (next : μ → α → μ) (ok : μ → α → Prop) : μ → List α → Prop
  | _, [] => True
  | m, a :: as => ok m a ∧ Checked next ok (next m a) as

instance decidableChecked [∀ m a, Decidable (ok m a)] : ∀ (m : μ) (as : List α),
    Decidable (Checked next ok m as)
  | _, [] => isTrue trivial
  | m, a :: as =>
      have := decidableChecked (next m a) as
      inferInstanceAs (Decidable (_ ∧ _))

theorem checked_append : ∀ {m : μ} {as bs : List α}, Checked next ok m (as ++ bs) ↔
    Checked next ok m as ∧ Checked next ok (as.foldl next m) bs
  | _, [], _ => (and_iff_right trivial).symm
  | m, a :: as, bs => by
    show ok m a ∧ Checked next ok (next m a) (as ++ bs) ↔ _
    rw [checked_append, ← and_assoc]
    rfl

theorem checked_of_forall : ∀ {m : μ} {as : List α}, (∀ a ∈ as, ∀ m, ok m a) → Checked next ok m as
  | _, [], _ => trivial
  | _, a :: _, h => ⟨h a (by simp) _, checked_of_forall fun b hb => h b (List.mem_cons_of_mem a hb)⟩

theorem checked_flatMap {β : Type} {g : β → List α} (h : ∀ b m, Checked next ok m (g b)) :
    ∀ {m : μ} {bs : List β}, Checked next ok m (bs.flatMap g)
  | _, [] => trivial
  | m, b :: bs => by
    rw [List.flatMap_cons, checked_append]
    exact ⟨h b m, checked_flatMap h⟩

theorem checked_iff : ∀ {m : μ} {as : List α}, Checked next ok m as ↔
    ∀ before a after, as = before ++ a :: after → ok (before.foldl next m) a
  | m, [] => by
    refine iff_of_true trivial fun before a after h => ?_
    exact absurd h (by simp)
  | m, a :: as => by
    show ok m a ∧ Checked next ok (next m a) as ↔ _
    rw [checked_iff]
    constructor
    · rintro ⟨h1, h2⟩ before b after he
      cases before with
      | nil =>
        cases he
        exact h1
      | cons c before =>
        obtain ⟨rfl, rfl⟩ := List.cons.inj he
        exact h2 before b after rfl
    · intro h
      refine ⟨h [] a as rfl, fun before b after he => ?_⟩
      exact h (a :: before) b after (by rw [he]; rfl)

/-- **The monitor rule.**  When the results of every step are fine for one monitor exactly when
the item of the step is fine for another, so it is for a loop. -/
theorem checked_run_iff {f : α → Emitter σ ω} {watch : ν → ω → ν} {fine : ν → ω → Prop}
    {given : μ → α → Prop} {I : σ → ν → μ → Prop}
    (hstep : ∀ a s n m, I s n m → given m a → I (f a s).1 ((f a s).2.foldl watch n) (next m a) ∧
      (Checked watch fine n (f a s).2 ↔ ok m a)) :
    ∀ {as : List α} {s : σ} {n : ν} {m : μ}, I s n m → Checked next given m as →
      (Checked watch fine n (Emitter.run f as s).2 ↔ Checked next ok m as)
  | [], _, _, _, _, _ => Iff.rfl
  | a :: as, s, n, m, hi, hg => by
    obtain ⟨hi', hiff⟩ := hstep a s n m hi hg.1
    rw [Emitter.run_cons]
    show Checked watch fine n ((f a s).2 ++ _) ↔ ok m a ∧ Checked next ok (next m a) as
    rw [checked_append, hiff, checked_run_iff hstep hi' hg.2]

end monitor

end OpenAgere
