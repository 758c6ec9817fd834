import Mathlib.Order.Bounds.Basic
import OpenAgere.ScanLoop

/-! # Scanning for delimiters

A scanner looks for the first of several patterns in the text it has, passes the text before it
on, reacts to the pattern and goes on behind it.  Without a pattern it passes the text on up to
the longest suffix with which a pattern could still begin, and keeps that suffix back.

`OccursAt`, `Best` and `Overlap` are the notions of the search: a place of a pattern, the first
one (leftmost, then longest, then of smallest index), and what can be kept back.  `run_append` is
the law of the scan: when no pattern lies inside another, more text can arrive at any place
without a change of the result. -/

namespace OpenAgere.DelimiterScan

open List Option

variable {α : Type}

/-! ### Places of patterns -/

/-- The pattern `p` stands in `t` at position `i`. -/
def OccursAt (p t : List α) (i : ℕ) : Prop := p <+: t.drop i

variable {p t : List α} {i : ℕ}

theorem OccursAt.append (h : OccursAt p t i) (b : List α) : OccursAt p (t ++ b) i := by
  unfold OccursAt at h ⊢
  rw [drop_append]
  exact h.trans (prefix_append _ _)

theorem OccursAt.length_le (h : OccursAt p t i) (hp : p ≠ []) : i + p.length ≤ t.length := by
  have hle := List.IsPrefix.length_le h
  have hpos := length_pos_iff.mpr hp
  rw [length_drop] at hle
  omega

variable {b : List α}

theorem OccursAt.of_append (h : OccursAt p (t ++ b) i) (hi : i + p.length ≤ t.length) : OccursAt p t i := by
  unfold OccursAt at h ⊢
  rw [drop_append_of_le_length (by omega)] at h
  refine prefix_of_prefix_length_le h (prefix_append _ _) ?_
  rw [length_drop]
  omega

variable {e : List α}

theorem occursAt_append_length : OccursAt p (e ++ t) (e.length + i) ↔ OccursAt p t i := by
  unfold OccursAt
  rw [drop_append, drop_eq_nil_of_le (by omega), nil_append, Nat.add_sub_cancel_left]

/-- The end of a text with which a pattern begins that more text completes. -/
theorem OccursAt.suffix (h : OccursAt p (t ++ b) i) (hi : i ≤ t.length)
    (hlt : t.length < i + p.length) : p.take (t.length - i) <:+ t := by
  unfold OccursAt at h
  rw [drop_append_of_le_length hi] at h
  have hle : (t.drop i).length ≤ p.length := by
    rw [length_drop]
    omega
  have hp := prefix_of_prefix_length_le (prefix_append (t.drop i) b) h hle
  rw [prefix_iff_eq_take, length_drop] at hp
  rw [← hp]
  exact drop_suffix i t

variable {j : ℕ}

theorem OccursAt.within {q : List α} (hp : OccursAt p t i) (hq : OccursAt q t j)
    (hji : j ≤ i) (hle : i + p.length ≤ j + q.length) : p <:+: q := by
  unfold OccursAt at hp hq
  obtain ⟨r, hr⟩ := hq
  have hdrop : t.drop i = (q ++ r).drop (i - j) := by
    rw [hr, drop_drop]
    congr 1
    omega
  rw [hdrop, drop_append_of_le_length (by omega)] at hp
  have hpq : p <+: q.drop (i - j) := by
    refine prefix_of_prefix_length_le hp (prefix_append _ _) ?_
    rw [length_drop]
    omega
  exact hpq.isInfix.trans (drop_suffix _ _).isInfix

/-- The position of the first place of a pattern. -/
def find [DecidableEq α] (p : List α) : List α → Option ℕ
  | [] => if p = [] then some 0 else none
  | a :: t => if p <+: a :: t then some 0 else (find p t).map (· + 1)

theorem occursAt_cons_succ {a : α} : OccursAt p (a :: t) (i + 1) ↔ OccursAt p t i := Iff.rfl

theorem find_eq_some [DecidableEq α] (hp : p ≠ []) : ∀ {t : List α} {i : ℕ},
    find p t = some i → OccursAt p t i ∧ ∀ i' < i, ¬ OccursAt p t i'
  | [], i, h => by
    unfold find at h
    rw [if_neg hp] at h
    cases h
  | a :: t, i, h => by
    unfold find at h
    split_ifs at h with hpre
    · cases h
      exact ⟨hpre, fun i' hi' => absurd hi' (Nat.not_lt_zero i')⟩
    · obtain ⟨k, hk, rfl⟩ := map_eq_some_iff.mp h
      obtain ⟨ho, hfirst⟩ := find_eq_some hp hk
      refine ⟨ho, ?_⟩
      intro i' hi'
      cases i' with
      | zero => exact hpre
      | succ i' =>
        rw [occursAt_cons_succ]
        exact hfirst i' (by omega)

theorem find_eq_none [DecidableEq α] (hp : p ≠ []) : ∀ {t : List α}, find p t = none → ∀ i, ¬ OccursAt p t i
  | [], _, i => by
    intro ho
    have := ho.length_le hp
    have hpos := length_pos_iff.mpr hp
    rw [length_nil] at this
    omega
  | a :: t, h, i => by
    unfold find at h
    split_ifs at h with hpre
    cases i with
    | zero => exact hpre
    | succ i =>
      rw [occursAt_cons_succ]
      exact find_eq_none hp (map_eq_none_iff.mp h) i

/-! ### The first pattern -/

/-- The pattern of index `j` is the first one in the text, at position `i`: the leftmost, of
those the longest, and of those the one of smallest index. -/
structure Best (pats : List (List α)) (t : List α) (i j : ℕ) (p : List α) : Prop where
  pat : pats[j]? = some p
  occurs : OccursAt p t i
  first : ∀ {i' j' p'}, pats[j']? = some p' → OccursAt p' t i' →
    i < i' ∨ i = i' ∧ (p'.length < p.length ∨ p'.length = p.length ∧ j ≤ j')

variable {pats : List (List α)}

theorem Best.unique {p' : List α} {i' j' : ℕ} (h : Best pats t i j p)
    (h' : Best pats t i' j' p') : i = i' ∧ j = j' := by
  have h1 := h.first h'.pat h'.occurs
  have h2 := h'.first h.pat h.occurs
  omega

/-- The patterns can be told apart: none is empty, and none lies inside another. -/
structure Separate (pats : List (List α)) : Prop where
  ne_nil : ∀ p ∈ pats, p ≠ []
  eq_of_within : ∀ p ∈ pats, ∀ q ∈ pats, p <:+: q → p = q

theorem separate_singleton (hp : p ≠ []) : Separate [p] := by
  constructor
  · intro q hq
    rw [mem_singleton.mp hq]
    exact hp
  · intro q hq r hr _
    rw [mem_singleton.mp hq, mem_singleton.mp hr]

theorem best_singleton [DecidableEq α] (hp : p ≠ []) (h : find p t = some i) : Best [p] t i 0 p := by
  obtain ⟨ho, hfirst⟩ := find_eq_some hp h
  refine ⟨rfl, ho, ?_⟩
  intro i' j' p' hp' ho'
  obtain ⟨hj, rfl⟩ := List.getElem?_eq_some_iff.mp hp'
  rw [List.getElem_singleton] at ho' ⊢
  have hle : i ≤ i' := Nat.le_of_not_lt fun hlt => hfirst i' hlt ho'
  omega

theorem Best.bounds (hs : Separate pats) (h : Best pats t i j p) : 0 < p.length ∧ i + p.length ≤ t.length := by
  have hne := hs.ne_nil p (mem_of_getElem? h.pat)
  exact ⟨length_pos_iff.mpr hne, h.occurs.length_le hne⟩

/-- More text does not change the first pattern. -/
theorem Best.append (hs : Separate pats) (h : Best pats t i j p) (b : List α) : Best pats (t ++ b) i j p := by
  refine ⟨h.pat, h.occurs.append b, ?_⟩
  intro i' j' p' hp' ho'
  obtain ⟨_, hend⟩ := h.bounds hs
  by_cases hin : i' + p'.length ≤ t.length
  · exact h.first hp' (ho'.of_append hin)
  · rcases Nat.lt_or_ge i i' with hlt | hge
    · exact Or.inl hlt
    · have hinf := (h.occurs.append b).within ho' hge (by omega)
      have he := hs.eq_of_within p (mem_of_getElem? h.pat) p' (mem_of_getElem? hp') hinf
      rw [he] at hend
      omega

/-! ### What can be kept back -/

/-- A suffix of `k` items with which a pattern can begin. -/
def Overlap (pats : List (List α)) (t : List α) (k : ℕ) : Prop :=
  k = 0 ∨ ∃ p ∈ pats, k < p.length ∧ k ≤ t.length ∧ p.take k <:+ t

variable {k : ℕ}

theorem Overlap.le_length (h : Overlap pats t k) : k ≤ t.length := by
  rcases h with rfl | ⟨_, _, _, h, _⟩
  · omega
  · exact h

theorem Overlap.of_append (h : Overlap pats (e ++ t) k) (hk : t.length ≤ k) : Overlap pats e (k - t.length) := by
  rcases h with rfl | ⟨p, hp, hlt, hle, r, hr⟩
  · exact Or.inl (by omega)
  · rw [length_append] at hle
    refine Or.inr ⟨p, hp, by omega, by omega, r, ?_⟩
    have hsplit : p.take k = p.take (k - t.length) ++ (p.take k).drop (k - t.length) := by
      conv_lhs => rw [← take_append_drop (k - t.length) (p.take k)]
      rw [take_take, min_eq_left (by omega)]
    rw [hsplit, ← append_assoc] at hr
    refine (append_inj' hr ?_).1
    simp only [length_drop, length_take]
    omega

theorem Overlap.append_left (h : Overlap pats t k) (e : List α) : Overlap pats (e ++ t) k := by
  rcases h with rfl | ⟨p, hp, hlt, hle, hs⟩
  · exact Or.inl rfl
  · exact Or.inr ⟨p, hp, hlt, by simp; omega, hs.trans (suffix_append e t)⟩

theorem Overlap.of_append_left (h : Overlap pats (e ++ t) k) (hk : k ≤ t.length) : Overlap pats t k := by
  rcases h with rfl | ⟨p, hp, hlt, hle, hs⟩
  · exact Or.inl rfl
  · refine Or.inr ⟨p, hp, hlt, hk, suffix_of_suffix_length_le hs (suffix_append e t) ?_⟩
    rw [length_take]
    omega

/-! ### Scanners -/

/-- The parts of a scan: the patterns of a state, the search for the first of them, the length of
the suffix to keep back, and what text and a pattern do to the state. -/
structure Scanner (σ α : Type) where
  pats : σ → List (List α)
  find : σ → List α → Option (ℕ × ℕ)
  keep : σ → List α → ℕ
  text : σ → List α → σ
  hit : σ → ℕ → σ

namespace Scanner
variable {σ : Type} (S : Scanner σ α)

/-- The length of a pattern. -/
def patLength (s : σ) (j : ℕ) : ℕ := ((S.pats s).getD j []).length

/-- One round: react to the first pattern, or pass on what need not be kept back. -/
def step (s : σ) (t : List α) : ScanLoop.Next σ (σ × List α) :=
  match S.find s t with
  | some (i, j) => .go (S.hit (S.text s (t.take i)) j) (i + S.patLength s j)
  | none => .stop (S.text s (t.take (t.length - S.keep s t)), t.drop (t.length - S.keep s t))

/-- The scan of a text: the state after it, and the suffix kept back. -/
def run (s : σ) (t : List α) : σ × List α := ScanLoop.run S.step (fun s => (s, [])) s t

/-- What the parts have to do with each other. -/
structure Lawful : Prop where
  separate : ∀ s, Separate (S.pats s)
  find_some : ∀ {s t i j}, S.find s t = some (i, j) → ∃ p, Best (S.pats s) t i j p
  find_none : ∀ {s t}, S.find s t = none → ∀ p ∈ S.pats s, ∀ i, ¬ OccursAt p t i
  keep : ∀ s t, IsGreatest {k | Overlap (S.pats s) t k} (S.keep s t)
  pats_text : ∀ s a, S.pats (S.text s a) = S.pats s
  text_nil : ∀ s, S.text s [] = s
  text_append : ∀ s a b, S.text (S.text s a) b = S.text s (a ++ b)

variable {S}

theorem patLength_of_best {s : σ} {t p : List α} {i j : ℕ} (h : Best (S.pats s) t i j p) :
    S.patLength s j = p.length := by
  unfold patLength
  rw [getD_eq_getElem?_getD, h.pat]
  rfl

namespace Lawful
variable (L : S.Lawful)
include L

variable {s : σ} {t : List α} {i j : ℕ}

theorem find_of_best {p : List α} (h : Best (S.pats s) t i j p) : S.find s t = some (i, j) := by
  cases hf : S.find s t with
  | none => exact absurd h.occurs (L.find_none hf p (mem_of_getElem? h.pat) i)
  | some r =>
    obtain ⟨p', h'⟩ := L.find_some hf
    obtain ⟨h1, h2⟩ := h.unique h'
    rw [h1, h2]

theorem find_text (s : σ) (a t : List α) : S.find (S.text s a) t = S.find s t := by
  cases hf : S.find s t with
  | none =>
    cases hg : S.find (S.text s a) t with
    | none => rfl
    | some r =>
      obtain ⟨p, h⟩ := L.find_some hg
      rw [L.pats_text] at h
      exact absurd h.occurs (L.find_none hf p (mem_of_getElem? h.pat) _)
  | some r =>
    obtain ⟨p, h⟩ := L.find_some hf
    rw [← L.pats_text s a] at h
    exact L.find_of_best h

theorem keep_text (s : σ) (a t : List α) : S.keep (S.text s a) t = S.keep s t := by
  have h := L.keep (S.text s a) t
  rw [L.pats_text] at h
  exact h.unique (L.keep s t)

theorem keep_le (s : σ) (t : List α) : S.keep s t ≤ t.length := (L.keep s t).1.le_length

theorem progress : ScanLoop.Progress S.step := by
  intro s a l s' n hs
  unfold step at hs
  cases hf : S.find s (a :: l) with
  | none => simp [hf] at hs
  | some r =>
    obtain ⟨p, h⟩ := L.find_some hf
    obtain ⟨hpos, _⟩ := h.bounds (L.separate s)
    simp only [hf, patLength_of_best h, ScanLoop.Next.go.injEq] at hs
    omega

theorem run_of_some (h : S.find s t = some (i, j)) :
    S.run s t = S.run (S.hit (S.text s (t.take i)) j) (t.drop (i + S.patLength s j)) := by
  cases t with
  | nil =>
    obtain ⟨p, hb⟩ := L.find_some h
    obtain ⟨hpos, hend⟩ := hb.bounds (L.separate s)
    rw [length_nil] at hend
    omega
  | cons a l =>
    unfold run
    rw [ScanLoop.run_cons _ L.progress]
    unfold step
    rw [h]

theorem run_of_none (h : S.find s t = none) :
    S.run s t = (S.text s (t.take (t.length - S.keep s t)), t.drop (t.length - S.keep s t)) := by
  cases t with
  | nil =>
    have hrun : S.run s [] = (s, []) := rfl
    rw [hrun]
    simp [L.text_nil]
  | cons a l =>
    unfold run
    rw [ScanLoop.run_cons _ L.progress]
    unfold step
    rw [h]

/-- Text that no pattern can touch is passed on. -/
theorem run_text {e : List α} (ho : ∀ p ∈ S.pats s, ∀ i < e.length, ¬ OccursAt p (e ++ t) i)
    (hk : ∀ k, Overlap (S.pats s) (e ++ t) k → k ≤ t.length) : S.run s (e ++ t) = S.run (S.text s e) t := by
  have hkeep : S.keep s (e ++ t) = S.keep s t := by
    refine IsGreatest.unique (L.keep s (e ++ t)) ⟨(L.keep s t).1.append_left e, ?_⟩
    intro k hmem
    exact (L.keep s t).2 (Overlap.of_append_left hmem (hk k hmem))
  cases hf : S.find s t with
  | none =>
    have hnone : S.find s (e ++ t) = none := by
      cases hg : S.find s (e ++ t) with
      | none => rfl
      | some r =>
        exfalso
        obtain ⟨p, h⟩ := L.find_some hg
        have hmem := mem_of_getElem? h.pat
        have hle : e.length ≤ r.1 := Nat.le_of_not_lt fun hlt => ho p hmem _ hlt h.occurs
        obtain ⟨i, hi⟩ := Nat.exists_eq_add_of_le hle
        have hoc := h.occurs
        rw [hi, occursAt_append_length] at hoc
        exact L.find_none hf p hmem i hoc
    have hle := L.keep_le s t
    rw [L.run_of_none hnone, L.run_of_none (by rw [L.find_text, hf]), hkeep, L.keep_text, L.text_append]
    have hlen : (e ++ t).length - S.keep s t = e.length + (t.length - S.keep s t) := by
      rw [length_append]
      omega
    rw [hlen, take_length_add_append, drop_length_add_append]
  | some r =>
    obtain ⟨i, j⟩ := r
    obtain ⟨p, h⟩ := L.find_some hf
    have hbest : Best (S.pats s) (e ++ t) (e.length + i) j p := by
      refine ⟨h.pat, occursAt_append_length.mpr h.occurs, ?_⟩
      intro i' j' p' hp' ho'
      have hle : e.length ≤ i' :=
        Nat.le_of_not_lt fun hlt => ho p' (mem_of_getElem? hp') _ hlt ho'
      obtain ⟨i'', rfl⟩ := Nat.exists_eq_add_of_le hle
      have := h.first hp' (occursAt_append_length.mp ho')
      omega
    have hpat : S.patLength (S.text s e) j = S.patLength s j := by
      unfold patLength
      rw [L.pats_text]
    have hfind : S.find (S.text s e) t = some (i, j) := by rw [L.find_text, hf]
    rw [L.run_of_some (L.find_of_best hbest), L.run_of_some hfind, hpat, L.text_append, Nat.add_assoc,
      take_length_add_append, drop_length_add_append]

/-- **The law of the scan.**  More text can arrive at any place. -/
theorem run_append (s : σ) (a b : List α) : S.run s (a ++ b) = S.run (S.run s a).1 ((S.run s a).2 ++ b) := by
  induction hn : a.length using Nat.strong_induction_on generalizing s a with
  | _ n ih =>
    cases hf : S.find s a with
    | some r =>
      obtain ⟨i, j⟩ := r
      obtain ⟨p, h⟩ := L.find_some hf
      obtain ⟨hpos, hend⟩ := h.bounds (L.separate s)
      have hlen := patLength_of_best h
      rw [L.run_of_some (L.find_of_best (h.append (L.separate s) b)), L.run_of_some hf,
        take_append_of_le_length (by omega), drop_append_of_le_length (by omega)]
      refine ih _ ?_ _ _ rfl
      rw [length_drop]
      omega
    | none =>
      rw [L.run_of_none hf]
      set k := S.keep s a with hk
      have hle : k ≤ a.length := L.keep_le s a
      have hsplit : a ++ b = a.take (a.length - k) ++ (a.drop (a.length - k) ++ b) := by
        rw [← append_assoc, take_append_drop]
      have htake : (a.take (a.length - k)).length = a.length - k := by
        rw [length_take]
        omega
      rw [hsplit]
      refine L.run_text ?_ ?_
      · intro p hp i hi ho
        rw [← hsplit] at ho
        by_cases hin : i + p.length ≤ a.length
        · exact L.find_none hf p hp i (ho.of_append hin)
        · have hov : Overlap (S.pats s) a (a.length - i) :=
            Or.inr ⟨p, hp, by omega, by omega, ho.suffix (by omega) (by omega)⟩
          have := (L.keep s a).2 hov
          omega
      · intro k' hov
        rw [← hsplit] at hov
        rw [length_append, length_drop]
        by_contra hlt
        have := (L.keep s a).2 (hov.of_append (by omega))
        omega

theorem run_map {φ : σ → σ} (hfind : ∀ s t, S.find (φ s) t = S.find s t)
    (hkeep : ∀ s t, S.keep (φ s) t = S.keep s t) (hpats : ∀ s, S.pats (φ s) = S.pats s)
    (htext : ∀ s a, S.text (φ s) a = φ (S.text s a)) (hhit : ∀ s j, S.hit (φ s) j = φ (S.hit s j))
    (s : σ) (t : List α) : S.run (φ s) t = (φ (S.run s t).1, (S.run s t).2) := by
  induction hn : t.length using Nat.strong_induction_on generalizing s t with
  | _ n ih =>
    cases hf : S.find s t with
    | some r =>
      obtain ⟨i, j⟩ := r
      obtain ⟨p, h⟩ := L.find_some hf
      obtain ⟨hpos, hend⟩ := h.bounds (L.separate s)
      have hlen := patLength_of_best h
      have hlen' : S.patLength (φ s) j = S.patLength s j := by
        unfold patLength
        rw [hpats]
      rw [L.run_of_some (by rw [hfind, hf]), L.run_of_some hf, htext, hhit, hlen']
      refine ih _ ?_ _ _ rfl
      rw [length_drop]
      omega
    | none => rw [L.run_of_none (by rw [hfind, hf]), L.run_of_none hf, hkeep, htext]

end Lawful

end Scanner

end OpenAgere.DelimiterScan
