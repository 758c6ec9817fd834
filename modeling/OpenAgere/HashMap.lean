import Mathlib.Data.List.Rotate

/-! # Hash maps

A hash map without a fixed order of iteration.  The entries are kept in the order in which their
keys came, each key once; an iteration visits the keys in an order that some `IterOrder` chooses
from them and from the history of the map, here the number of changes it went through.
`drain` is the loop that removes key after key in the order of an iteration; the values it finds
are those of the map, each once (`drain_keys_perm`). -/

namespace OpenAgere

open List Option

/-- A map from `κ` to `υ`. -/
@[ext] structure HashMap (κ υ : Type) where
  entries : List (κ × υ)
  nodup : (entries.map Prod.fst).Nodup
  age : ℕ

/-- An order of iteration for every list of keys and every age. -/
structure IterOrder (κ : Type) where
  order : ℕ → List κ → List κ
  perm : ∀ n ks, (order n ks).Perm ks

/-- The order in which the keys came. -/
def IterOrder.inOrder (κ : Type) : IterOrder κ := ⟨fun _ ks => ks, fun _ ks => List.Perm.refl ks⟩

/-- Every key one place earlier, and the first one last. -/
def IterOrder.rotated (κ : Type) : IterOrder κ := ⟨fun _ ks => ks.rotate 1, fun _ ks => ks.rotate_perm 1⟩

namespace HashMap
variable {κ υ : Type} [DecidableEq κ]

def empty : HashMap κ υ := ⟨[], List.nodup_nil, 0⟩

def containsKey (m : HashMap κ υ) (k : κ) : Bool := decide (k ∈ m.entries.map Prod.fst)

def get (m : HashMap κ υ) (k : κ) : Option υ := m.entries.lookup k

theorem fst_map_value (l : List (κ × υ)) (k : κ) (f : υ → υ) :
    (l.map fun e => if e.1 = k then (e.1, f e.2) else e).map Prod.fst = l.map Prod.fst := by
  rw [List.map_map]
  refine List.map_congr_left fun e _ => ?_
  show (if e.1 = k then (e.1, f e.2) else e).1 = e.1
  split_ifs <;> rfl

/-- Change the value of a key, if it has one. -/
def modify (m : HashMap κ υ) (k : κ) (f : υ → υ) : HashMap κ υ where
  entries := m.entries.map fun e => if e.1 = k then (e.1, f e.2) else e
  nodup := by
    rw [fst_map_value]
    exact m.nodup
  age := m.age + 1

theorem fst_modify (m : HashMap κ υ) (k : κ) (f : υ → υ) :
    (m.modify k f).entries.map Prod.fst = m.entries.map Prod.fst := fst_map_value m.entries k f

/-- Set the value of a key. -/
def insert (m : HashMap κ υ) (k : κ) (v : υ) : HashMap κ υ :=
  if h : k ∈ m.entries.map Prod.fst then m.modify k fun _ => v
  else ⟨m.entries ++ [(k, v)], by
    rw [List.map_append]
    exact List.nodup_append.mpr ⟨m.nodup, List.nodup_singleton k, fun a ha b hb hab => by
      rw [List.map_singleton, List.mem_singleton] at hb
      rw [hab, hb] at ha
      exact h ha⟩, m.age + 1⟩

def remove (m : HashMap κ υ) (k : κ) : HashMap κ υ where
  entries := m.entries.filter fun e => e.1 ≠ k
  nodup := m.nodup.sublist (List.filter_sublist.map Prod.fst)
  age := m.age + 1

def clear (m : HashMap κ υ) : HashMap κ υ := ⟨[], List.nodup_nil, m.age + 1⟩

/-- The map of some entries; of those with the same key the last one stays. -/
def collect (l : List (κ × υ)) : HashMap κ υ := l.foldl (fun m e => m.insert e.1 e.2) empty

/-- The keys in the order of an iteration. -/
def keys (ord : IterOrder κ) (m : HashMap κ υ) : List κ := ord.order m.age (m.entries.map Prod.fst)

/-- Remove the given keys one after the other; the values they had. -/
def drain : List κ → HashMap κ υ → HashMap κ υ × List υ
  | [], m => (m, [])
  | k :: ks, m =>
      match m.get k with
      | some v => ((drain ks (m.remove k)).1, v :: (drain ks (m.remove k)).2)
      | none => drain ks m

/-! ### Lookups -/

variable {m : HashMap κ υ} {k : κ} {v : υ}

theorem entries_insert_of_not_mem (h : m.containsKey k = false) : (m.insert k v).entries = m.entries ++ [(k, v)] := by
  unfold containsKey at h
  unfold insert
  rw [dif_neg (of_decide_eq_false h)]

theorem get_eq_some : m.get k = some v ↔ (k, v) ∈ m.entries := by
  have hn := m.nodup
  unfold get
  generalize m.entries = l at hn ⊢
  induction l with
  | nil => simp
  | cons e l ih =>
    obtain ⟨k', v'⟩ := e
    rw [map_cons, nodup_cons] at hn
    rw [lookup_cons, mem_cons]
    by_cases hk : k = k'
    · have hno : (k, v) ∉ l := fun hmem => hn.1 (hk ▸ List.mem_map.mpr ⟨(k, v), hmem, rfl⟩)
      subst hk
      simp [hno, eq_comm]
    · have hb : (k == k') = false := by simpa using hk
      rw [hb]
      simp [hk, ih hn.2]

theorem get_isSome : (m.get k).isSome = m.containsKey k := by
  rw [Bool.eq_iff_iff, isSome_iff_exists]
  unfold containsKey
  rw [decide_eq_true_eq, List.mem_map]
  constructor
  · rintro ⟨v, hv⟩
    exact ⟨(k, v), get_eq_some.mp hv, rfl⟩
  · rintro ⟨⟨k', v⟩, hmem, rfl⟩
    exact ⟨v, get_eq_some.mpr hmem⟩

theorem get_remove_eq_some {k' : κ} : (m.remove k).get k' = some v ↔ k' ≠ k ∧ m.get k' = some v := by
  rw [get_eq_some, get_eq_some]
  unfold remove
  simp [and_comm]

theorem get_remove {k' : κ} (h : k' ≠ k) : (m.remove k).get k' = m.get k' := by
  refine Option.ext fun v => get_remove_eq_some.trans ?_
  simp [h]

theorem get_eq_none : m.get k = none ↔ m.containsKey k = false := by
  rw [← get_isSome, ← not_isSome_iff_eq_none, Bool.not_eq_true]

theorem get_modify (m : HashMap κ υ) (k k' : κ) (f : υ → υ) :
    (m.modify k f).get k' = if k' = k then (m.get k').map f else m.get k' := by
  unfold get modify
  show List.lookup k' (m.entries.map fun e => if e.1 = k then (e.1, f e.2) else e) = _
  induction m.entries with
  | nil => simp
  | cons e l ih =>
    obtain ⟨k'', v⟩ := e
    by_cases hk : k' = k''
    · subst hk
      by_cases hk : k' = k <;> simp [hk]
    · have hb : (k' == k'') = false := beq_eq_false_iff_ne.mpr hk
      by_cases hk'' : k'' = k
      · subst hk''
        simpa [lookup_cons, hb, hk] using ih
      · simpa [lookup_cons, hb, hk''] using ih

theorem get_modify_eq_some {k' : κ} {f : υ → υ} :
    (m.modify k f).get k' = some v ↔ ∃ w, m.get k' = some w ∧ (if k' = k then f w else w) = v := by
  rw [get_modify]
  split_ifs <;> simp

theorem get_insert (m : HashMap κ υ) (k k' : κ) (v : υ) :
    (m.insert k v).get k' = if k' = k then some v else m.get k' := by
  cases hm : m.containsKey k with
  | true =>
    have hs := get_isSome.trans hm
    unfold containsKey at hm
    unfold insert
    rw [dif_pos (of_decide_eq_true hm), get_modify]
    split_ifs with hk
    · rw [hk]
      obtain ⟨w, hw⟩ := isSome_iff_exists.mp hs
      rw [hw]
      rfl
    · rfl
  | false =>
    have hn := get_eq_none.mpr hm
    unfold get at hn ⊢
    rw [entries_insert_of_not_mem hm, lookup_append]
    split_ifs with hk
    · rw [hk, hn]
      simp
    · have hb : (k' == k) = false := beq_eq_false_iff_ne.mpr hk
      simp [lookup_cons, hb]

variable {l : List (κ × υ)}

theorem get_foldl_insert_of_not_mem (h : k ∉ l.map Prod.fst) :
    ∀ m : HashMap κ υ, (l.foldl (fun m e => m.insert e.1 e.2) m).get k = m.get k := by
  induction l with
  | nil => exact fun m => rfl
  | cons e l ih =>
    intro m
    rw [map_cons, mem_cons, not_or] at h
    rw [foldl_cons, ih h.2, get_insert, if_neg h.1]

theorem get_collect {a b : List (κ × υ)} (h : k ∉ b.map Prod.fst) : (collect (a ++ (k, v) :: b)).get k = some v := by
  rw [collect, foldl_append, foldl_cons, get_foldl_insert_of_not_mem h, get_insert, if_pos rfl]

theorem entries_foldl_insert : ∀ {m : HashMap κ υ},
    ((m.entries ++ l).map Prod.fst).Nodup → (l.foldl (fun m e => m.insert e.1 e.2) m).entries = m.entries ++ l := by
  induction l with
  | nil => exact fun _ => (append_nil _).symm
  | cons e l ih =>
    intro m h
    have hnew : m.containsKey e.1 = false := by
      rw [map_append, map_cons] at h
      exact decide_eq_false fun hmem => (nodup_append.mp h).2.2 e.1 hmem e.1 mem_cons_self rfl
    have hentries := entries_insert_of_not_mem (v := e.2) hnew
    rw [foldl_cons, ih, hentries, append_assoc]
    · rfl
    · rw [hentries, append_assoc]
      exact h

theorem entries_collect (h : (l.map Prod.fst).Nodup) : (collect l).entries = l :=
  entries_foldl_insert h

theorem get_remove_self (m : HashMap κ υ) (k : κ) : (m.remove k).get k = none := by
  rw [eq_none_iff_forall_not_mem]
  intro v hv
  exact (get_remove_eq_some.mp hv).1 rfl

/-! ### The entries without one key -/

omit [DecidableEq κ] in
theorem entries_nodup (m : HashMap κ υ) : m.entries.Nodup := m.nodup.of_map Prod.fst

theorem entries_perm_of_get (h : m.get k = some v) : m.entries.Perm ((k, v) :: (m.remove k).entries) := by
  have hnot : (k, v) ∉ (m.remove k).entries := fun hmem =>
    nomatch (get_remove_self m k).symm.trans (get_eq_some.mpr hmem)
  refine (perm_ext_iff_of_nodup (entries_nodup m) (nodup_cons.mpr ⟨hnot, entries_nodup _⟩)).mpr ?_
  rintro ⟨k', v'⟩
  rw [mem_cons, ← get_eq_some, ← get_eq_some, Prod.mk.injEq, get_remove_eq_some]
  by_cases hk : k' = k
  · subst hk
    simp [h, eq_comm]
  · simp [hk]

theorem entries_insert_perm (m : HashMap κ υ) (k : κ) (v : υ) :
    (m.insert k v).entries.Perm ((k, v) :: (m.remove k).entries) := by
  refine (entries_perm_of_get (by rw [get_insert, if_pos rfl])).trans (List.Perm.cons _ ?_)
  refine (perm_ext_iff_of_nodup (entries_nodup _) (entries_nodup _)).mpr ?_
  rintro ⟨k', v'⟩
  rw [← get_eq_some, ← get_eq_some]
  by_cases hk : k' = k
  · rw [hk, get_remove_self, get_remove_self]
  · rw [get_remove hk, get_remove hk, get_insert, if_neg hk]

theorem entries_remove_of_get (h : m.get k = none) : (m.remove k).entries = m.entries := by
  refine filter_eq_self.mpr fun e he => decide_eq_true ?_
  rintro rfl
  exact nomatch h.symm.trans (get_eq_some.mpr he)

theorem countP_of_get (f : κ × υ → Bool) (h : m.get k = some v) :
    m.entries.countP f = (m.remove k).entries.countP f + (f (k, v)).toNat := by
  rw [(entries_perm_of_get h).countP_eq, countP_cons]
  cases f (k, v) <;> rfl

theorem countP_insert (f : κ × υ → Bool) (m : HashMap κ υ) (k : κ) (v : υ) :
    (m.insert k v).entries.countP f = (m.remove k).entries.countP f + (f (k, v)).toNat := by
  rw [(entries_insert_perm m k v).countP_eq, countP_cons]
  cases f (k, v) <;> rfl

/-! ### Draining -/

theorem drain_of_nodup : ∀ {ks : List κ} {m : HashMap κ υ}, ks.Nodup → (drain ks m).2 = ks.filterMap m.get
  | [], m, _ => rfl
  | k :: ks, m, h => by
    rw [nodup_cons] at h
    unfold drain
    cases hg : m.get k with
    | none =>
      rw [filterMap_cons_none hg]
      exact drain_of_nodup h.2
    | some v =>
      rw [filterMap_cons_some hg]
      rw [drain_of_nodup h.2]
      refine congrArg (v :: ·) (filterMap_congr fun k' hk' => get_remove ?_)
      rintro rfl
      exact h.1 hk'

theorem filterMap_get_keys (m : HashMap κ υ) :
    (m.entries.map Prod.fst).filterMap m.get = m.entries.map Prod.snd := by
  rw [filterMap_map, ← filterMap_eq_map]
  refine filterMap_congr fun e he => ?_
  exact get_eq_some.mpr he

omit [DecidableEq κ] in
theorem nodup_keys (ord : IterOrder κ) (m : HashMap κ υ) : (m.keys ord).Nodup :=
  (ord.perm _ _).nodup_iff.mpr m.nodup

theorem mem_keys {ord : IterOrder κ} : k ∈ m.keys ord ↔ m.containsKey k :=
  (ord.perm _ _).mem_iff.trans decide_eq_true_iff.symm

theorem drain_keys (ord : IterOrder κ) (m : HashMap κ υ) :
    (drain (m.keys ord) m).2 = (m.keys ord).filterMap m.get := drain_of_nodup (nodup_keys ord m)

/-- Whatever the order, every value comes once. -/
theorem drain_keys_perm (ord : IterOrder κ) (m : HashMap κ υ) :
    (drain (m.keys ord) m).2.Perm (m.entries.map Prod.snd) := by
  rw [drain_keys, ← filterMap_get_keys]
  exact (ord.perm _ _).filterMap _

/-- The changes of a map do not depend on the order in which all its keys are drained. -/
theorem age_drain : ∀ {ks : List κ} {m : HashMap κ υ}, ks.Nodup → (∀ k ∈ ks, m.containsKey k) →
    (drain ks m).1.age = m.age + ks.length
  | [], m, _, _ => rfl
  | k :: ks, m, hn, hmem => by
    rw [nodup_cons] at hn
    have hk := hmem k (by simp)
    rw [← get_isSome, isSome_iff_exists] at hk
    obtain ⟨v, hv⟩ := hk
    have hrest : ∀ k' ∈ ks, (m.remove k).containsKey k' = true := by
      intro k' hk'
      have hne : k' ≠ k := by
        rintro rfl
        exact hn.1 hk'
      rw [← get_isSome, get_remove hne, get_isSome]
      exact hmem k' (mem_cons_of_mem k hk')
    unfold drain
    rw [hv]
    rw [age_drain hn.2 hrest, length_cons]
    show m.age + 1 + ks.length = _
    omega

theorem clear_drain_keys (ord : IterOrder κ) (m : HashMap κ υ) :
    (drain (m.keys ord) m).1.clear = ⟨[], nodup_nil, m.age + m.entries.length + 1⟩ := by
  have hperm := ord.perm m.age (m.entries.map Prod.fst)
  have hmem : ∀ k ∈ m.keys ord, m.containsKey k = true := fun k hk => decide_eq_true (hperm.subset hk)
  have hage := age_drain (nodup_keys ord m) hmem
  have hlen : (m.keys ord).length = m.entries.length := hperm.length_eq.trans (length_map _)
  unfold clear
  rw [hage, hlen]

theorem drain_keys_inOrder (m : HashMap κ υ) :
    (drain (m.keys (.inOrder κ)) m).2 = m.entries.map Prod.snd :=
  (drain_keys _ m).trans (filterMap_get_keys m)

theorem drain_keys_rotated (m : HashMap κ υ) :
    (drain (m.keys (.rotated κ)) m).2 = (m.entries.map Prod.snd).rotate 1 := by
  rw [drain_keys, ← map_rotate]
  show ((m.entries.map Prod.fst).rotate 1).filterMap m.get = _
  rw [← map_rotate, filterMap_map, ← filterMap_eq_map]
  exact filterMap_congr fun e he => get_eq_some.mpr (mem_rotate.mp he)

end HashMap

end OpenAgere
