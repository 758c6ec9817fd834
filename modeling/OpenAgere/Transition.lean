import Mathlib.Data.List.Basic
import Mathlib.Data.List.Perm.Basic
import Mathlib.Tactic.Common

/-! # Runs of a transition function

A system that takes one event at a time: `next s e` is the state after the event, or `none` where the
event is not possible.  `run` takes a list of events.  What every possible step keeps, every run keeps
(`run_inv`); a property that steps keep under a condition holds throughout the runs whose steps all
meet it (`throughout_of_meets`), and where the condition is also needed, throughout no other runs
(`throughout_iff_meets`).

A `Pool` is a shared state with tasks that take turns: new tasks may start at any time, and each step of a
task is atomic.  `Pool.run_inv` is the rule for invariants of the shared state and of every task, and
`Pool.next_inv_perm` the one for invariants that relate the shared state to all tasks together. -/

namespace OpenAgere.Transition

open List Option

/-- The state and the task that a step gives. -/
theorem some_mk_inj {σ π : Type*} {s t : σ} {pc pc' : π} (h : some (s, pc) = some (t, pc')) : s = t ∧ pc = pc' :=
  Prod.mk.inj (some.inj h)

section Runs

variable {σ ε : Type*} (next : σ → ε → Option σ)

/-- The state after a list of events. -/
def run : σ → List ε → Option σ
  | s, [] => some s
  | s, e :: es => (next s e).bind fun t => run t es

/-- Every step of the run meets the condition, in the state before it. -/
def Meets (ok : σ → ε → Prop) : σ → List ε → Prop
  | _, [] => True
  | s, e :: es => ok s e ∧ ∀ t, next s e = some t → Meets ok t es

/-- The property holds in every state of the run. -/
def Throughout (I : σ → Prop) : σ → List ε → Prop
  | s, [] => I s
  | s, e :: es => I s ∧ ∀ t, next s e = some t → Throughout I t es

variable {next} {I : σ → Prop} {ok : σ → ε → Prop} {s t : σ} {e : ε} {es fs : List ε}

@[simp] theorem run_nil : run next s [] = some s := rfl

theorem run_cons : run next s (e :: es) = (next s e).bind fun t => run next t es := rfl

theorem run_step (h : next s e = some t) : run next s (e :: es) = run next t es := by rw [run_cons, h, bind_some]

theorem run_singleton : run next s [e] = next s e := bind_fun_some _

theorem run_append : ∀ {es : List ε} {s : σ}, run next s (es ++ fs) = (run next s es).bind fun t => run next t fs
  | [], s => by simp
  | e :: es, s => by
    rw [cons_append, run_cons, run_cons, bind_assoc]
    exact congrArg _ (funext fun t => run_append)

theorem run_concat : run next s (es ++ [e]) = (run next s es).bind fun t => next t e := by
  rw [run_append]
  exact congrArg _ (funext fun t => run_singleton)

/-- **Invariants.** What every step keeps, every run keeps. -/
theorem run_inv (hstep : ∀ s e t, I s → next s e = some t → I t) : ∀ {es : List ε} {s t : σ}, I s →
    run next s es = some t → I t
  | [], s, t, hs, hr => some.inj hr ▸ hs
  | e :: es, s, t, hs, hr => by
    obtain ⟨u, hu, hr⟩ := bind_eq_some_iff.mp hr
    exact run_inv hstep (hstep s e u hs hu) hr

theorem Throughout.last : ∀ {es : List ε} {s t : σ}, Throughout next I s es → run next s es = some t → I t
  | [], _, _, h, hr => some.inj hr ▸ h
  | _ :: _, _, _, h, hr => by
    obtain ⟨u, hu, hr⟩ := bind_eq_some_iff.mp hr
    exact (h.2 u hu).last hr

theorem Throughout.head (h : Throughout next I s es) : I s := by
  cases es with
  | nil => exact h
  | cons e es => exact h.1

theorem Throughout.imp {I' : σ → Prop} (himp : ∀ s, I s → I' s) : ∀ {es : List ε} {s : σ}, Throughout next I s es →
    Throughout next I' s es
  | [], s, h => himp s h
  | _ :: _, s, h => ⟨himp s h.1, fun t ht => (h.2 t ht).imp himp⟩

/-- A property that steps keep under a condition holds throughout every run that meets it. -/
theorem throughout_of_meets (hstep : ∀ s e t, I s → ok s e → next s e = some t → I t) :
    ∀ {es : List ε} {s : σ}, I s → Meets next ok s es → Throughout next I s es
  | [], _, hs, _ => hs
  | e :: _, s, hs, h => ⟨hs, fun t ht => throughout_of_meets hstep (hstep s e t hs h.1 ht) (h.2 t ht)⟩

theorem run_inv_of_meets (hstep : ∀ s e t, I s → ok s e → next s e = some t → I t) (hs : I s)
    (h : Meets next ok s es) (hr : run next s es = some t) : I t :=
  (throughout_of_meets hstep hs h).last hr

theorem meets_of_forall {ok : ε → Prop} : ∀ {es : List ε} {s : σ}, (∀ e ∈ es, ok e) → Meets next (fun _ => ok) s es
  | [], _, _ => trivial
  | e :: _, _, h => ⟨h e mem_cons_self, fun _ _ => meets_of_forall fun f hf => h f (mem_cons_of_mem e hf)⟩

/-- **Exact conditions.** Where a possible step keeps the property exactly under the condition, the
property holds throughout exactly the runs that meet it; `J` is an invariant that may be used, and `G` is given of every
step. -/
theorem throughout_iff_meets_of_meets {G : σ → ε → Prop} {J : σ → Prop}
    (hJ : ∀ s e t, J s → I s → G s e → next s e = some t → J t)
    (hstep : ∀ s e t, J s → I s → G s e → next s e = some t → (I t ↔ ok s e))
    (hstuck : ∀ s e, J s → I s → next s e = none → ok s e) :
    ∀ {es : List ε} {s : σ}, Meets next G s es → J s → I s → (Throughout next I s es ↔ Meets next ok s es)
  | [], _, _, _, hs => ⟨fun _ => trivial, fun _ => hs⟩
  | e :: es, s, hg, hj, hs => by
    have ih : ∀ t, next s e = some t → I t → (Throughout next I t es ↔ Meets next ok t es) := fun t ht hit =>
      throughout_iff_meets_of_meets hJ hstep hstuck (hg.2 t ht) (hJ s e t hj hs hg.1 ht) hit
    constructor
    · rintro ⟨_, h⟩
      cases hn : next s e with
      | none => exact ⟨hstuck s e hj hs hn, fun t ht => nomatch hn.symm.trans ht⟩
      | some u =>
        refine ⟨(hstep s e u hj hs hg.1 hn).mp (h u hn).head, fun t ht => ?_⟩
        obtain rfl := mem_unique hn ht
        exact (ih u hn (h u hn).head).mp (h u hn)
    · rintro ⟨hok, h⟩
      exact ⟨hs, fun t ht => (ih t ht ((hstep s e t hj hs hg.1 ht).mpr hok)).mpr (h t ht)⟩

theorem throughout_iff_meets {J : σ → Prop} (hJ : ∀ s e t, J s → I s → next s e = some t → J t)
    (hstep : ∀ s e t, J s → I s → next s e = some t → (I t ↔ ok s e))
    (hstuck : ∀ s e, J s → I s → next s e = none → ok s e) (hj : J s) (hs : I s) :
    Throughout next I s es ↔ Meets next ok s es :=
  throughout_iff_meets_of_meets (G := fun _ _ => True) (fun s e t hj hs _ => hJ s e t hj hs)
    (fun s e t hj hs _ => hstep s e t hj hs) hstuck (meets_of_forall fun _ _ => trivial) hj hs

/-- The condition of a run can be evaluated where that of a step can. -/
instance decidableMeets [∀ s e, Decidable (ok s e)] : ∀ es s, Decidable (Meets next ok s es)
  | [], _ => isTrue trivial
  | e :: es, s =>
      match h : next s e with
      | none => decidable_of_iff (ok s e) ⟨fun hok => ⟨hok, fun _ ht => nomatch h.symm.trans ht⟩, And.left⟩
      | some u =>
          have := decidableMeets es u
          decidable_of_iff (ok s e ∧ Meets next ok u es)
            ⟨fun hok => ⟨hok.1, fun _ ht => some.inj (h.symm.trans ht) ▸ hok.2⟩, fun hok => ⟨hok.1, hok.2 u h⟩⟩

end Runs

/-! ### Pools of tasks -/

/-- A shared state and the tasks that work on it. -/
structure Pool (σ π : Type*) where
  shared : σ
  tasks : List π

namespace Pool

/-- A call starts a task, or a task takes a step, with what its surroundings answer to it. -/
inductive Event (κ χ : Type*) where
  | call (call : κ)
  | step (task : ℕ) (answer : χ)

/-- The calls and the answers of an event satisfy a condition. -/
def Event.Given {κ χ : Type*} (K : κ → Prop) (C : χ → Prop) : Event κ χ → Prop
  | call c => K c
  | step _ x => C x

variable {σ π κ χ : Type*} (start : κ → π) (step : σ → π → χ → Option (σ × π))

/-- One event of the pool. -/
def next (p : Pool σ π) : Event κ χ → Option (Pool σ π)
  | .call c => some ⟨p.shared, p.tasks ++ [start c]⟩
  | .step i x => p.tasks[i]?.bind fun pc => (step p.shared pc x).map fun r => ⟨r.1, p.tasks.set i r.2⟩

variable {start step} {I : σ → Prop} {J : σ → π → Prop} {K : κ → Prop} {C : χ → Prop} {p q : Pool σ π}

theorem next_step {i : ℕ} {x : χ} (h : next start step p (.step i x) = some q) : ∃ pc s pc', p.tasks[i]? = some pc ∧
    step p.shared pc x = some (s, pc') ∧ q = ⟨s, p.tasks.set i pc'⟩ := by
  obtain ⟨pc, hpc, h⟩ := bind_eq_some_iff.mp h
  obtain ⟨⟨s, pc'⟩, hs, rfl⟩ := map_eq_some_iff.mp h
  exact ⟨pc, s, pc', hpc, hs, rfl⟩

theorem next_of_step {s : σ} {i : ℕ} {pc pc' : π} {x : χ} (hpc : p.tasks[i]? = some pc)
    (hs : step p.shared pc x = some (s, pc')) : next start step p (.step i x) = some ⟨s, p.tasks.set i pc'⟩ := by
  rw [next, hpc, bind_some, hs, map_some]

theorem step_eq_none {i : ℕ} {pc : π} {x : χ} (h : next start step p (.step i x) = none) (hpc : p.tasks[i]? = some pc) :
    step p.shared pc x = none := by
  rw [next, hpc, bind_some] at h
  exact map_eq_none_iff.mp h

/-- A property of the shared state and one of every task. -/
structure Inv (I : σ → Prop) (J : σ → π → Prop) (p : Pool σ π) : Prop where
  shared : I p.shared
  tasks : ∀ pc ∈ p.tasks, J p.shared pc

/-- An invariant needs the tasks that start to have it, and each step of a task to keep it for the task
itself and for all others. -/
theorem next_inv (hstart : ∀ s c, I s → K c → J s (start c))
    (hstep : ∀ s pc x s' pc', I s → J s pc → C x → step s pc x = some (s', pc') →
      I s' ∧ J s' pc' ∧ ∀ other, J s other → J s' other) {e : Event κ χ} (hp : Inv I J p) (he : e.Given K C)
    (h : next start step p e = some q) : Inv I J q := by
  cases e with
  | call c =>
    obtain rfl := some.inj h
    refine ⟨hp.shared, fun pc hpc => ?_⟩
    obtain hpc | hpc := mem_append.mp hpc
    · exact hp.tasks pc hpc
    · rw [mem_singleton.mp hpc]
      exact hstart _ c hp.shared he
  | step i x =>
    obtain ⟨pc, s, pc', hpc, hs, rfl⟩ := next_step h
    obtain ⟨hI, hJ, hothers⟩ := hstep _ pc x s pc' hp.shared (hp.tasks pc (mem_of_getElem? hpc)) he hs
    refine ⟨hI, fun other hother => ?_⟩
    obtain hother | rfl := mem_or_eq_of_mem_set hother
    · exact hothers other (hp.tasks other hother)
    · exact hJ

/-- **Invariants of a pool**, in every run whose calls and answers are as given. -/
theorem run_inv (hstart : ∀ s c, I s → K c → J s (start c))
    (hstep : ∀ s pc x s' pc', I s → J s pc → C x → step s pc x = some (s', pc') →
      I s' ∧ J s' pc' ∧ ∀ other, J s other → J s' other) {es : List (Event κ χ)} (hp : Inv I J p)
    (hes : ∀ e ∈ es, e.Given K C) (h : run (next start step) p es = some q) : Inv I J q :=
  run_inv_of_meets (fun _ _ _ hp he => next_inv hstart hstep hp he) hp (meets_of_forall hes) h

/-- A call, and a step of a task in the state before it, satisfy a condition. -/
def Event.Allowed (K : κ → Prop) (ok : σ → π → χ → Prop) (p : Pool σ π) : Event κ χ → Prop
  | .call c => K c
  | .step i x => ∀ pc, p.tasks[i]? = some pc → ok p.shared pc x

/-- An invariant of the shared state and the tasks, in whatever order, needs every task that starts to keep it, and
each step of a task beside all others. -/
theorem next_inv_perm {I : σ → List π → Prop} {ok : σ → π → χ → Prop}
    (hperm : ∀ s tasks tasks', tasks.Perm tasks' → I s tasks → I s tasks')
    (hstart : ∀ s tasks c, I s tasks → K c → I s (start c :: tasks))
    (hstep : ∀ s pc x s' pc' others, I s (pc :: others) → ok s pc x → step s pc x = some (s', pc') →
      I s' (pc' :: others))
    {e : Event κ χ} (hp : I p.shared p.tasks) (he : e.Allowed K ok p) (h : next start step p e = some q) :
    I q.shared q.tasks := by
  cases e with
  | call c =>
    obtain rfl := some.inj h
    exact hperm _ _ _ (List.perm_append_singleton (start c) p.tasks).symm (hstart _ _ c hp he)
  | step i x =>
    obtain ⟨pc, s, pc', hpc, hs, rfl⟩ := next_step h
    obtain ⟨hlt, rfl⟩ := List.getElem?_eq_some_iff.mp hpc
    have hothers := hperm _ _ _ (List.getElem_cons_eraseIdx_perm hlt).symm hp
    exact hperm _ _ _ (List.set_perm_cons_eraseIdx hlt pc').symm (hstep _ _ x _ _ _ hothers (he _ hpc) hs)

theorem countP_set {f : π → Bool} {pc : π} (pc' : π) : ∀ {tasks : List π} {i : ℕ}, tasks[i]? = some pc →
    (tasks.set i pc').countP f + (f pc).toNat = tasks.countP f + (f pc').toNat
  | task :: tasks, 0, h => by
    obtain rfl := some.inj h
    rw [List.set_cons_zero, List.countP_cons, List.countP_cons]
    cases f pc' <;> cases f task <;> simp
  | task :: tasks, i + 1, h => by
    have ih := countP_set (f := f) pc' (show tasks[i]? = some pc from h)
    rw [List.set_cons_succ, List.countP_cons, List.countP_cons]
    omega

end Pool

end OpenAgere.Transition
