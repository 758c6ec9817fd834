import OpenAgere.Text

/-! # Trees of tables and arrays

A tree has scalars at its leaves, and arrays and tables above them.  A path goes down by the keys of tables and the
indices of arrays, both as texts.  `deepMerge` puts one tree over another: tables are merged key by key, and
everything else is replaced.  `leaf_deepMerge` says which scalars a merged tree has, in terms of the two trees. -/

namespace OpenAgere

open List Option

inductive ValueTree (σ : Type) where
  | scalar (s : σ)
  | array (items : List (ValueTree σ))
  | table (entries : List (Str × ValueTree σ))

/-- Keys and indices on the way down. -/
abbrev KeyPath := List Str

/-- A list that ends in `a`, split at `b`: `b` is the end of it, or the end is behind `b`. -/
theorem concat_eq_append_cons {α : Type} {xs pre post : List α} {a b : α} (h : xs ++ [a] = pre ++ b :: post) :
    a = b ∨ ∃ rest, post = rest ++ [a] ∧ xs = pre ++ b :: rest := by
  cases post using List.reverseRecOn with
  | nil =>
    obtain ⟨rfl, he⟩ := append_inj' h rfl
    exact .inl (List.cons.inj he).1
  | append_singleton rest a' =>
    rw [← cons_append, ← append_assoc] at h
    obtain ⟨rfl, he⟩ := append_inj' h rfl
    exact .inr ⟨rest, by rw [(List.cons.inj he).1], rfl⟩

namespace Entries
variable {α : Type}

/-- Set the value of a key. -/
def insert (k : Str) (a : α) : List (Str × α) → List (Str × α)
  | [] => [(k, a)]
  | e :: es => if e.1 = k then (k, a) :: es else e :: insert k a es

theorem lookup_insert (k k' : Str) (a : α) : ∀ es : List (Str × α),
    (insert k a es).lookup k' = if k' = k then some a else es.lookup k'
  | [] => by
    by_cases h : k' = k
    · rw [insert, h, lookup_cons_self, if_pos rfl]
    · rw [insert, lookup_cons, beq_false_of_ne h, if_neg h]
  | e :: es => by
    rw [insert]
    by_cases he : e.1 = k
    · rw [if_pos he]
      by_cases h : k' = k
      · rw [h, lookup_cons_self, if_pos rfl]
      · rw [lookup_cons, lookup_cons, beq_false_of_ne h, he, beq_false_of_ne h, if_neg h]
    · rw [if_neg he, lookup_cons, lookup_cons, lookup_insert k k' a es]
      by_cases h : k' = k
      · rw [h, beq_false_of_ne (Ne.symm he), if_pos rfl]
      · rw [if_neg h, if_neg h]

theorem mem_insert {k : Str} {a : α} {e : Str × α} : ∀ {es : List (Str × α)}, e ∈ insert k a es → e = (k, a) ∨ e ∈ es
  | [], h => .inl (mem_singleton.mp h)
  | e' :: es, h => by
    rw [insert] at h
    split_ifs at h
    · exact (mem_cons.mp h).imp_right (mem_cons_of_mem e')
    · obtain rfl | h := mem_cons.mp h
      · exact .inr mem_cons_self
      · exact (mem_insert h).imp_right (mem_cons_of_mem e')

end Entries

namespace ValueTree
variable {σ : Type}

theorem induct {P : ValueTree σ → Prop} (scalar : ∀ s, P (.scalar s))
    (array : ∀ items, (∀ v ∈ items, P v) → P (.array items))
    (table : ∀ entries, (∀ e ∈ entries, P e.2) → P (.table entries)) (v : ValueTree σ) : P v :=
  @ValueTree.rec σ P (fun items => ∀ v ∈ items, P v) (fun entries => ∀ e ∈ entries, P e.2) (fun e => P e.2)
    scalar array table
    (forall_mem_nil _)
    (fun _ _ hv hvs _ h => (mem_cons.mp h).elim (fun he => he ▸ hv) (hvs _))
    (forall_mem_nil _)
    (fun _ _ he hes _ h => (mem_cons.mp h).elim (fun heq => heq ▸ he) (hes _))
    (fun _ _ h => h) v

def isTable : ValueTree σ → Bool
  | .table _ => true
  | _ => false

/-! ### Paths -/

/-- The text of an index. -/
def indexText (i : ℕ) : Str := Nat.toDigits 10 i

theorem indexText_injective : Function.Injective indexText := by
  intro i j h
  have hi : Nat.ofDigitChars 10 (indexText i) 0 = i := Nat.ofDigitChars_toDigits (by decide) (by decide)
  have hj : Nat.ofDigitChars 10 (indexText j) 0 = j := Nat.ofDigitChars_toDigits (by decide) (by decide)
  rw [← hi, h, hj]

/-- Items with the texts of their indices, from an index on. -/
def indexed : ℕ → List (ValueTree σ) → List (Str × ValueTree σ)
  | _, [] => []
  | i, v :: items => (indexText i, v) :: indexed (i + 1) items

/-- What is below a tree, with the keys and indices that lead to it. -/
def children : ValueTree σ → List (Str × ValueTree σ)
  | .scalar _ => []
  | .array items => indexed 0 items
  | .table entries => entries

/-- The tree at a path. -/
def at? : ValueTree σ → KeyPath → Option (ValueTree σ)
  | v, [] => some v
  | v, k :: p => (v.children.lookup k).bind fun w => w.at? p

/-- The tree has the scalar at the path. -/
def Leaf (v : ValueTree σ) (p : KeyPath) (s : σ) : Prop := v.at? p = some (.scalar s)

theorem at?_cons (v : ValueTree σ) (k : Str) (p : KeyPath) :
    v.at? (k :: p) = (v.children.lookup k).bind fun w => w.at? p := rfl

theorem leaf_cons {v : ValueTree σ} {k : Str} {p : KeyPath} {s : σ} :
    v.Leaf (k :: p) s ↔ ∃ w, v.children.lookup k = some w ∧ w.Leaf p s := bind_eq_some_iff

/-- Every table has a key once, and only keys that are allowed. -/
inductive WellFormed (ok : Str → Prop) : ValueTree σ → Prop
  | scalar (s : σ) : WellFormed ok (.scalar s)
  | array {items : List (ValueTree σ)} (h : ∀ v ∈ items, WellFormed ok v) : WellFormed ok (.array items)
  | table {entries : List (Str × ValueTree σ)} (hnodup : (entries.map Prod.fst).Nodup) (hok : ∀ e ∈ entries, ok e.1)
      (h : ∀ e ∈ entries, WellFormed ok e.2) : WellFormed ok (.table entries)

variable {ok : Str → Prop} {b o v w : ValueTree σ} {k : Str} {p q : KeyPath} {s : σ}

variable {e : Str × ValueTree σ}

theorem mem_of_mem_indexed : ∀ {items : List (ValueTree σ)} {i : ℕ}, e ∈ indexed i items →
    e.2 ∈ items ∧ ∃ j, i ≤ j ∧ e.1 = indexText j
  | [], _, h => absurd h not_mem_nil
  | v :: items, i, h => by
    obtain rfl | h := mem_cons.mp h
    · exact ⟨mem_cons_self, i, le_refl i, rfl⟩
    · obtain ⟨hmem, j, hj, htext⟩ := mem_of_mem_indexed h
      exact ⟨mem_cons_of_mem v hmem, j, by omega, htext⟩

theorem nodup_indexed : ∀ (items : List (ValueTree σ)) (i : ℕ), ((indexed i items).map Prod.fst).Nodup
  | [], _ => nodup_nil
  | v :: items, i => by
    refine nodup_cons.mpr ⟨fun h => ?_, nodup_indexed items (i + 1)⟩
    obtain ⟨e, he, htext⟩ := mem_map.mp h
    obtain ⟨-, j, hj, hej⟩ := mem_of_mem_indexed he
    have hij := indexText_injective (hej.symm.trans htext)
    omega

theorem WellFormed.children_nodup (h : v.WellFormed ok) : (v.children.map Prod.fst).Nodup := by
  cases h with
  | scalar => exact nodup_nil
  | array => exact nodup_indexed _ 0
  | table hnodup => exact hnodup

theorem WellFormed.of_mem_children (h : v.WellFormed ok) (he : e ∈ v.children) : e.2.WellFormed ok := by
  cases h with
  | scalar => exact absurd he not_mem_nil
  | array h => exact h e.2 (mem_of_mem_indexed he).1
  | table _ _ h => exact h e he

variable {α : Type} {a : α}

theorem lookup_eq_some_iff : ∀ {es : List (Str × α)}, (es.map Prod.fst).Nodup → (es.lookup k = some a ↔ (k, a) ∈ es)
  | [], _ => iff_of_false (fun h => by cases h) not_mem_nil
  | (k', a') :: es, hnodup => by
    obtain ⟨hnot, hnodup⟩ := nodup_cons.mp hnodup
    rw [lookup_cons, mem_cons]
    by_cases hk : k = k'
    · subst hk
      rw [beq_self_eq_true, some_inj]
      refine ⟨fun h => .inl (by rw [h]), fun h => ?_⟩
      obtain h | h := h
      · exact (congrArg Prod.snd h).symm
      · exact absurd (mem_map_of_mem h) hnot
    · rw [beq_false_of_ne hk, lookup_eq_some_iff hnodup]
      exact ⟨.inr, fun h => h.resolve_left fun he => hk (congrArg Prod.fst he)⟩

theorem WellFormed.of_lookup (h : v.WellFormed ok) (hl : v.children.lookup k = some w) : w.WellFormed ok :=
  h.of_mem_children ((lookup_eq_some_iff h.children_nodup).mp hl)

/-! ### Merging -/

mutual

/-- The overlay over the base. -/
def deepMerge : ValueTree σ → ValueTree σ → ValueTree σ
  | .table base, .table overlay => .table (mergeEntries base overlay)
  | _, overlay => overlay

def mergeEntries : List (Str × ValueTree σ) → List (Str × ValueTree σ) → List (Str × ValueTree σ)
  | base, [] => base
  | base, (k, v) :: overlay =>
      mergeEntries (Entries.insert k (match base.lookup k with | some b => deepMerge b v | none => v) base) overlay

end

/-- What a key has after merging. -/
def mergedChild : Option (ValueTree σ) → Option (ValueTree σ) → Option (ValueTree σ)
  | b, none => b
  | none, some v => some v
  | some b, some v => some (deepMerge b v)

theorem lookup_mergeEntries (k : Str) : ∀ (overlay base : List (Str × ValueTree σ)), (overlay.map Prod.fst).Nodup →
    (mergeEntries base overlay).lookup k = mergedChild (base.lookup k) (overlay.lookup k)
  | [], base, _ => by rw [mergeEntries, lookup_nil, mergedChild]
  | (k', v) :: overlay, base, hnodup => by
    obtain ⟨hnot, hrest⟩ := nodup_cons.mp hnodup
    rw [mergeEntries, lookup_mergeEntries k overlay _ hrest, Entries.lookup_insert, lookup_cons]
    by_cases hk : k = k'
    · subst hk
      have hnone : overlay.lookup k = none := by
        cases hl : overlay.lookup k with
        | none => rfl
        | some w => exact absurd (mem_map.mpr ⟨(k, w), (lookup_eq_some_iff hrest).mp hl, rfl⟩) hnot
      rw [if_pos rfl, beq_self_eq_true, hnone, mergedChild]
      cases base.lookup k with
      | none => rfl
      | some b => rfl
    · rw [if_neg hk, beq_false_of_ne hk]

theorem mem_of_lookup {es : List (Str × α)} (h : es.lookup k = some a) : (k, a) ∈ es := by
  obtain ⟨l₁, l₂, rfl, -⟩ := List.lookup_eq_some_iff.mp h
  exact List.mem_append_right l₁ List.mem_cons_self

/-- What holds of the entries of two tables, and is kept by merging, holds of the merged entries. -/
theorem forall_mem_mergeEntries {P : Str → ValueTree σ → Prop} : ∀ {overlay base : List (Str × ValueTree σ)},
    (∀ e ∈ base, P e.1 e.2) → (∀ e ∈ overlay, P e.1 e.2) →
    (∀ e ∈ overlay, ∀ b, P e.1 b → P e.1 (deepMerge b e.2)) → ∀ e ∈ mergeEntries base overlay, P e.1 e.2
  | [], base, hbase, _, _ => by
    rw [mergeEntries]
    exact hbase
  | (k, v) :: overlay, base, hbase, hover, hmerge => by
    rw [mergeEntries]
    refine forall_mem_mergeEntries (fun e he => ?_) (fun e he => hover e (mem_cons_of_mem _ he))
      fun e he => hmerge e (mem_cons_of_mem _ he)
    obtain rfl | he := Entries.mem_insert he
    · cases hl : base.lookup k with
      | none => exact hover (k, v) mem_cons_self
      | some b => exact hmerge (k, v) mem_cons_self b (hbase _ (mem_of_lookup hl))
    · exact hbase e he

theorem deepMerge_of_not (h : ¬(b.isTable ∧ o.isTable)) : deepMerge b o = o := by
  cases b with
  | table base =>
    cases o with
    | table overlay => exact absurd ⟨rfl, rfl⟩ h
    | scalar | array => rw [deepMerge]; exact fun _ _ _ he => by cases he
  | scalar | array => rw [deepMerge]; exact fun _ _ he => by cases he

theorem children_deepMerge (ho : o.WellFormed ok) (hb : b.isTable) (hot : o.isTable) (k : Str) :
    (deepMerge b o).children.lookup k = mergedChild (b.children.lookup k) (o.children.lookup k) := by
  cases b with
  | scalar | array => cases hb
  | table base =>
    cases o with
    | scalar | array => cases hot
    | table overlay =>
      rw [deepMerge]
      exact lookup_mergeEntries k overlay base ho.children_nodup

theorem isTable_deepMerge : (deepMerge b o).isTable = o.isTable := by
  by_cases h : b.isTable = true ∧ o.isTable = true
  · cases b with
    | scalar | array => cases h.1
    | table =>
      cases o with
      | scalar | array => cases h.2
      | table => rw [deepMerge]; rfl
  · rw [deepMerge_of_not h]

/-- On the way to `p` the overlay has only tables, where the base has tables too. -/
def Passes (b o : ValueTree σ) (p : KeyPath) : Prop :=
  ∀ q, q <+: p → ∀ v, o.at? q = some v → v.isTable ∧ (b.at? q).any isTable

theorem Passes.root (h : Passes b o p) : b.isTable ∧ o.isTable := by
  obtain ⟨ho, hb⟩ := h [] nil_prefix o rfl
  exact ⟨hb, ho⟩

theorem passes_cons : Passes b o (k :: p) ↔ b.isTable ∧ o.isTable ∧
    ∀ w, o.children.lookup k = some w → ∃ c, b.children.lookup k = some c ∧ Passes c w p := by
  constructor
  · intro h
    refine ⟨h.root.1, h.root.2, fun w hw => ?_⟩
    have hbelow : ∀ q, q <+: p → ∀ v, w.at? q = some v →
        v.isTable = true ∧ (b.at? (k :: q)).any isTable = true := by
      intro q hq v hv
      refine h (k :: q) (cons_prefix_cons.mpr ⟨rfl, hq⟩) v ?_
      rw [at?_cons, hw]
      exact hv
    cases hc : b.children.lookup k with
    | none =>
      have hroot := (hbelow [] nil_prefix w rfl).2
      rw [at?_cons, hc] at hroot
      cases hroot
    | some c =>
      refine ⟨c, rfl, fun q hq v hv => ?_⟩
      have hq := hbelow q hq v hv
      rw [at?_cons, hc] at hq
      exact hq
  · rintro ⟨hb, ho, h⟩ q hq v hv
    cases q with
    | nil =>
      obtain rfl := some.inj hv
      exact ⟨ho, hb⟩
    | cons k' q =>
      obtain ⟨rfl, hqp⟩ := cons_prefix_cons.mp hq
      obtain ⟨w, hw, hv⟩ := bind_eq_some_iff.mp hv
      obtain ⟨c, hc, hpass⟩ := h w hw
      rw [at?_cons, hc]
      exact hpass q hqp v hv

theorem not_leaf_nil (h : v.isTable) : ¬v.Leaf [] s := by
  intro hl
  rw [some.inj hl] at h
  cases h

theorem leaf_of_lookup (h : v.children.lookup k = some w) : v.Leaf (k :: p) s ↔ w.Leaf p s := by
  rw [Leaf, at?_cons, h, bind_some, Leaf]

theorem not_leaf_of_lookup (h : v.children.lookup k = none) : ¬v.Leaf (k :: p) s := by
  rw [Leaf, at?_cons, h, bind_none]
  exact fun hn => by cases hn

/-- **Leaves of a merged tree.** They are those of the overlay, and those of the base that the overlay passes. -/
theorem leaf_deepMerge (ho : o.WellFormed ok) :
    (deepMerge b o).Leaf p s ↔ o.Leaf p s ∨ (b.Leaf p s ∧ Passes b o p) := by
  induction p generalizing b o with
  | nil =>
    by_cases htables : b.isTable = true ∧ o.isTable = true
    · refine iff_of_false (not_leaf_nil (isTable_deepMerge.trans htables.2)) ?_
      rintro (h | ⟨h, -⟩)
      · exact not_leaf_nil htables.2 h
      · exact not_leaf_nil htables.1 h
    · rw [deepMerge_of_not htables]
      exact ⟨.inl, fun h => h.resolve_right fun h => htables h.2.root⟩
  | cons k p ih =>
    by_cases htables : b.isTable = true ∧ o.isTable = true
    · have hchild := children_deepMerge ho htables.1 htables.2 k
      rw [passes_cons]
      cases hok : o.children.lookup k with
      | none =>
        rw [hok] at hchild
        have hleaf : (deepMerge b o).Leaf (k :: p) s ↔ b.Leaf (k :: p) s := by
          rw [Leaf, at?_cons, hchild]
          rfl
        rw [hleaf]
        refine ⟨fun h => .inr ⟨h, htables.1, htables.2, fun w hw => by cases hw⟩, fun h => ?_⟩
        exact (h.resolve_left (not_leaf_of_lookup hok)).1
      | some w =>
        rw [hok] at hchild
        rw [leaf_of_lookup hok]
        cases hbk : b.children.lookup k with
        | none =>
          rw [hbk] at hchild
          rw [leaf_of_lookup hchild]
          exact ⟨.inl, fun h => h.resolve_right fun h => not_leaf_of_lookup hbk h.1⟩
        | some c =>
          rw [hbk] at hchild
          rw [leaf_of_lookup hchild, leaf_of_lookup hbk, ih (ho.of_lookup hok)]
          refine or_congr_right (and_congr_right fun _ => ⟨fun h => ?_, fun h => ?_⟩)
          · refine ⟨htables.1, htables.2, fun w' hw' => ⟨c, rfl, ?_⟩⟩
            exact some.inj hw' ▸ h
          · obtain ⟨c', hc', hpass⟩ := h.2.2 w rfl
            exact some.inj hc' ▸ hpass
    · rw [deepMerge_of_not htables]
      exact ⟨.inl, fun h => h.resolve_right fun h => htables h.2.root⟩

/-- Where the overlay has a tree, the merged tree has one that is a table if that is. -/
theorem at?_deepMerge_overlay (ho : o.WellFormed ok) (hq : o.at? q = some v) :
    ((deepMerge b o).at? q).any isTable = v.isTable := by
  induction q generalizing b o with
  | nil =>
    obtain rfl := some.inj hq
    exact isTable_deepMerge
  | cons k q ih =>
    by_cases htables : b.isTable = true ∧ o.isTable = true
    · obtain ⟨w, hw, hq⟩ := bind_eq_some_iff.mp hq
      rw [at?_cons, children_deepMerge ho htables.1 htables.2 k, hw]
      cases b.children.lookup k with
      | none =>
        show (w.at? q).any isTable = _
        rw [hq]
        rfl
      | some c => exact ih (ho.of_lookup hw) hq
    · rw [deepMerge_of_not htables, hq]
      rfl

/-- Where the overlay passes, what is a table on the way stays one. -/
theorem at?_deepMerge_base (ho : o.WellFormed ok) (hpass : Passes b o p) (hqp : q <+: p) :
    ((deepMerge b o).at? q).any isTable = (b.at? q).any isTable := by
  induction q generalizing b o p with
  | nil => exact isTable_deepMerge.trans (hpass.root.2.trans hpass.root.1.symm)
  | cons k q ih =>
    obtain ⟨p, rfl⟩ : ∃ p', p = k :: p' := by
      obtain ⟨t, rfl⟩ := hqp
      exact ⟨q ++ t, rfl⟩
    obtain ⟨hb, hot, hbelow⟩ := passes_cons.mp hpass
    rw [at?_cons, at?_cons, children_deepMerge ho hb hot k]
    cases hw : o.children.lookup k with
    | none => rfl
    | some w =>
      obtain ⟨c, hc, hpass⟩ := hbelow w hw
      rw [hc]
      exact ih (ho.of_lookup hw) hpass (cons_prefix_cons.mp hqp).2

/-! ### Merging many trees -/

/-- The trees one over the other, from the first on. -/
def mergeAll (trees : List (ValueTree σ)) : ValueTree σ := trees.foldl deepMerge (.table [])

theorem mergeAll_concat (trees : List (ValueTree σ)) (o : ValueTree σ) :
    mergeAll (trees ++ [o]) = deepMerge (mergeAll trees) o := foldl_concat ..

/-- `o` is the tree that the leaf at `p` comes from: all trees after it pass. -/
structure Writes (trees : List (ValueTree σ)) (p : KeyPath) (pre : List (ValueTree σ)) (o : ValueTree σ)
    (post : List (ValueTree σ)) : Prop where
  split : trees = pre ++ o :: post
  passes : ∀ o' ∈ post, Passes o o' p

theorem Leaf.at?_of_prefix (h : v.Leaf p s) (hq : q <+: p) : ∃ w, v.at? q = some w := by
  induction q generalizing v p with
  | nil => exact ⟨v, rfl⟩
  | cons k q ih =>
    obtain ⟨t, rfl⟩ := hq
    obtain ⟨w, hw, h⟩ := leaf_cons.mp h
    rw [at?_cons, hw]
    exact ih h ⟨t, rfl⟩

theorem Passes.congr {c : ValueTree σ} (h : ∀ q, q <+: p → (c.at? q).any isTable = (b.at? q).any isTable) :
    Passes c o p ↔ Passes b o p :=
  forall_congr' fun q => forall_congr' fun hq => forall_congr' fun _ => forall_congr' fun _ => by rw [h q hq]

variable {trees pre post : List (ValueTree σ)}

/-- On the way to a leaf the merged tree has tables where the tree has them that the leaf comes from. -/
theorem at?_mergeAll (hwf : ∀ o ∈ trees, o.WellFormed ok)
    (hw : Writes trees p pre o post) (hleaf : o.Leaf p s) : ∀ q, q <+: p →
    ((mergeAll trees).at? q).any isTable = (o.at? q).any isTable := by
  obtain ⟨rfl, hpasses⟩ := hw
  induction post using List.reverseRecOn with
  | nil =>
    intro q hq
    obtain ⟨v, hv⟩ := hleaf.at?_of_prefix hq
    rw [mergeAll_concat, at?_deepMerge_overlay (hwf o (mem_append_right _ mem_cons_self)) hv, hv]
    rfl
  | append_singleton post o' ih =>
    intro q hq
    have hsplit : pre ++ o :: (post ++ [o']) = pre ++ o :: post ++ [o'] := by
      rw [append_assoc, cons_append]
    rw [hsplit] at hwf ⊢
    have hrest := ih (fun o' ho' => hpasses o' (mem_append_left _ ho'))
      fun o ho => hwf o (mem_append_left _ ho)
    have hpass := (Passes.congr hrest).mpr (hpasses o' (mem_append_right _ mem_cons_self))
    rw [mergeAll_concat, at?_deepMerge_base (hwf o' (mem_append_right _ mem_cons_self)) hpass hq]
    exact hrest q hq

theorem Writes.concat (hw : Writes trees p pre o post) {o' : ValueTree σ}
    (hpass : Passes o o' p) : Writes (trees ++ [o']) p pre o (post ++ [o']) := by
  refine ⟨by rw [hw.split, append_assoc, cons_append], fun o'' ho'' => ?_⟩
  obtain ho'' | ho'' := mem_append.mp ho''
  · exact hw.passes o'' ho''
  · exact mem_singleton.mp ho'' ▸ hpass

/-- **Leaves of merged trees.** A leaf comes from a tree that has it and that all later trees pass. -/
theorem leaf_mergeAll (hwf : ∀ o ∈ trees, o.WellFormed ok) :
    (mergeAll trees).Leaf p s ↔ ∃ pre o post, Writes trees p pre o post ∧ o.Leaf p s := by
  induction trees using List.reverseRecOn with
  | nil =>
    refine iff_of_false ?_ ?_
    · cases p with
      | nil => exact not_leaf_nil rfl
      | cons k p => exact not_leaf_of_lookup rfl
    · rintro ⟨pre, o, post, ⟨hsplit, -⟩, -⟩
      exact append_ne_nil_of_right_ne_nil pre (cons_ne_nil o post) hsplit.symm
  | append_singleton trees o ih =>
    have hwf' : ∀ o ∈ trees, o.WellFormed ok := fun o ho => hwf o (mem_append_left _ ho)
    rw [mergeAll_concat, leaf_deepMerge (hwf o (mem_append_right _ mem_cons_self)), ih hwf']
    constructor
    · rintro (h | ⟨⟨pre, o', post, hw, h⟩, hpass⟩)
      · exact ⟨trees, o, [], ⟨rfl, fun _ h => by cases h⟩, h⟩
      · exact ⟨pre, o', post ++ [o], hw.concat ((Passes.congr (at?_mergeAll hwf' hw h)).mp hpass), h⟩
    · rintro ⟨pre, o', post, ⟨hsplit, hpasses⟩, h⟩
      obtain rfl | ⟨post, rfl, rfl⟩ := concat_eq_append_cons hsplit
      · exact .inl h
      · have hw : Writes (pre ++ o' :: post) p pre o' post :=
          ⟨rfl, fun o'' ho'' => hpasses o'' (mem_append_left _ ho'')⟩
        have hpass := hpasses o (mem_append_right _ mem_cons_self)
        exact .inr ⟨⟨pre, o', post, hw, h⟩, (Passes.congr (at?_mergeAll hwf' hw h)).mpr hpass⟩

end ValueTree

end OpenAgere
