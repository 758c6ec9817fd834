import OpenAgere.HashMap
import OpenAgere.ValueTree

/-! # Layers of configuration

`config/src/{merge,key_aliases,fingerprint,state}.rs`: the configuration in effect is the merge of the enabled layers,
from the lowest precedence on, and a map has for each of its fields the layer it comes from.  Both read the layers
with legacy keys replaced by canonical ones.

The configuration in effect is the deep merge of the normalised layers (`effectiveConfig_eq`).  The map of origins
never forgets a field of a layer that a later layer has replaced, and `describes_iff` says for which stacks it is
right. -/

namespace OpenAgere.ConfigLayers

open List Option

open ValueTree (indexText mem_of_lookup deepMerge_of_not deepMerge Passes leaf_cons mergeEntries indexed)

abbrev Toml := ValueTree

variable {σ ν α : Type}

/-! ### Aliases of keys -/

structure ConfigKeyAlias where
  tablePath : KeyPath
  legacyKey : Str
  canonicalKey : Str
deriving DecidableEq

/-- The one alias there is. -/
def memoriesAlias : ConfigKeyAlias :=
  ⟨["memories"], "no_memories_if_mcp_or_web_search", "disable_on_external_context"⟩

def configKeyAliases : List ConfigKeyAlias := [memoriesAlias]

/-- Replace a legacy key, unless the canonical one is there too. -/
def ConfigKeyAlias.normalize (keyAlias : ConfigKeyAlias) (path : KeyPath) (table : List (Str × α)) : List (Str × α) :=
  if path = keyAlias.tablePath then
    match table.lookup keyAlias.legacyKey with
    | none => table
    | some value =>
        let table := table.filter (·.1 ≠ keyAlias.legacyKey)
        if (table.lookup keyAlias.canonicalKey).isSome then table else table ++ [(keyAlias.canonicalKey, value)]
  else table

def normalizeKeyAliases (path : KeyPath) (table : List (Str × α)) : List (Str × α) :=
  configKeyAliases.foldl (fun table keyAlias => keyAlias.normalize path table) table

mutual

def normalizedWithKeyAliases : Toml σ → KeyPath → Toml σ
  | .scalar s, _ => .scalar s
  | .array items, path => .array (normalizedItems items path)
  | .table table, path => .table (normalizeKeyAliases path (normalizedEntries table path))

def normalizedItems : List (Toml σ) → KeyPath → List (Toml σ)
  | [], _ => []
  | item :: items, path => normalizedWithKeyAliases item path :: normalizedItems items path

def normalizedEntries : List (Str × Toml σ) → KeyPath → List (Str × Toml σ)
  | [], _ => []
  | (key, child) :: table, path =>
      (key, normalizedWithKeyAliases child (path ++ [key])) :: normalizedEntries table path

end

/-! ### Merging -/

mutual

/-- The result for a base.  Normalising the overlay moves its values to other keys, which is why they are first
paired with what merging them does. -/
def mergeTomlValuesAtPath : Toml σ → Toml σ → KeyPath → Toml σ
  | .table base, .table overlay, path =>
      .table ((normalizeKeyAliases path (mergers overlay)).foldl
        (fun base e => Entries.insert e.1 (e.2 (base.lookup e.1) (path ++ [e.1])) base)
        (normalizeKeyAliases path base))
  | _, overlay, path => normalizedWithKeyAliases overlay path

/-- The keys of an overlay, each with what becomes of an existing value. -/
def mergers : List (Str × Toml σ) → List (Str × (Option (Toml σ) → KeyPath → Toml σ))
  | [] => []
  | (key, value) :: overlay =>
      (key, fun existing path =>
        match existing with
        | some existing => mergeTomlValuesAtPath existing value path
        | none => normalizedWithKeyAliases value path) :: mergers overlay

end

def mergeTomlValues (base overlay : Toml σ) : Toml σ := mergeTomlValuesAtPath base overlay []

/-! ### Origins -/

structure ConfigLayerMetadata (ν : Type) where
  name : ν
  version : Str
deriving DecidableEq

/-- `path.join(".")`. -/
def dotted (path : KeyPath) : Str := List.intercalate ['.'] path

mutual

def recordOrigins : Toml σ → ConfigLayerMetadata ν → KeyPath → HashMap Str (ConfigLayerMetadata ν) →
    HashMap Str (ConfigLayerMetadata ν)
  | .scalar _, layer, path, origins => if path = [] then origins else origins.insert (dotted path) layer
  | .array items, layer, path, origins => recordItems 0 items layer path origins
  | .table table, layer, path, origins => recordEntries table layer path origins

def recordItems : ℕ → List (Toml σ) → ConfigLayerMetadata ν → KeyPath → HashMap Str (ConfigLayerMetadata ν) →
    HashMap Str (ConfigLayerMetadata ν)
  | _, [], _, _, origins => origins
  | idx, item :: items, layer, path, origins =>
      recordItems (idx + 1) items layer path (recordOrigins item layer (path ++ [indexText idx]) origins)

def recordEntries : List (Str × Toml σ) → ConfigLayerMetadata ν → KeyPath → HashMap Str (ConfigLayerMetadata ν) →
    HashMap Str (ConfigLayerMetadata ν)
  | [], _, _, origins => origins
  | (key, val) :: table, layer, path, origins =>
      recordEntries table layer path (recordOrigins val layer (path ++ [key]) origins)

end

/-! ### Stacks -/

/-- Keys are not empty and have no dot. -/
def PlainKey (key : Str) : Prop := key ≠ [] ∧ '.' ∉ key

structure ConfigLayerEntry (σ ν : Type) where
  name : ν
  config : Toml σ
  version : Str
  disabledReason : Option Str
  wellFormed : config.WellFormed PlainKey

namespace ConfigLayerEntry

def isDisabled (layer : ConfigLayerEntry σ ν) : Bool := layer.disabledReason.isSome

def metadata (layer : ConfigLayerEntry σ ν) : ConfigLayerMetadata ν := ⟨layer.name, layer.version⟩

end ConfigLayerEntry

inductive ConfigLayerStackOrdering where
  | lowestPrecedenceFirst
  | highestPrecedenceFirst
deriving DecidableEq

/-- Lowest precedence first. -/
structure ConfigLayerStack (σ ν : Type) where
  layers : List (ConfigLayerEntry σ ν)

namespace ConfigLayerStack

def getLayers (stack : ConfigLayerStack σ ν) (ordering : ConfigLayerStackOrdering) (includeDisabled : Bool) :
    List (ConfigLayerEntry σ ν) :=
  let layers := stack.layers.filter fun layer => includeDisabled || !layer.isDisabled
  if ordering = .highestPrecedenceFirst then layers.reverse else layers

/-- The layers that count. -/
def enabledLayers (stack : ConfigLayerStack σ ν) : List (ConfigLayerEntry σ ν) :=
  stack.getLayers .lowestPrecedenceFirst false

def effectiveConfig (stack : ConfigLayerStack σ ν) : Toml σ :=
  stack.enabledLayers.foldl (fun merged layer => mergeTomlValues merged layer.config) (.table [])

def origins (stack : ConfigLayerStack σ ν) : HashMap Str (ConfigLayerMetadata ν) :=
  stack.enabledLayers.foldl
    (fun origins layer => recordOrigins (normalizedWithKeyAliases layer.config []) layer.metadata [] origins) .empty

end ConfigLayerStack

/-- Normalised layers. -/
def ConfigLayerEntry.normalized (layer : ConfigLayerEntry σ ν) : Toml σ := normalizedWithKeyAliases layer.config []

/-- No table has a key that an alias replaces there. -/
inductive Canonical : KeyPath → Toml σ → Prop
  | scalar (path : KeyPath) (s : σ) : Canonical path (.scalar s)
  | array {path : KeyPath} {items : List (Toml σ)} (h : ∀ v ∈ items, Canonical path v) : Canonical path (.array items)
  | table {path : KeyPath} {entries : List (Str × Toml σ)}
      (hkeys : ∀ a ∈ configKeyAliases, path = a.tablePath → ∀ e ∈ entries, e.1 ≠ a.legacyKey)
      (h : ∀ e ∈ entries, Canonical (path ++ [e.1]) e.2) : Canonical path (.table entries)

/-! ### Normalised trees -/

open ConfigLayerEntry

theorem normalizedItems_eq (path : KeyPath) : ∀ items : List (Toml σ),
    normalizedItems items path = items.map fun item => normalizedWithKeyAliases item path
  | [] => rfl
  | _ :: items => congrArg (_ :: ·) (normalizedItems_eq path items)

theorem normalizedEntries_eq (path : KeyPath) : ∀ table : List (Str × Toml σ), normalizedEntries table path =
    table.map fun e => (e.1, normalizedWithKeyAliases e.2 (path ++ [e.1]))
  | [] => rfl
  | _ :: table => congrArg (_ :: ·) (normalizedEntries_eq path table)

variable {path : KeyPath}

theorem normalizeKeyAliases_of_ne (h : path ≠ memoriesAlias.tablePath) (table : List (Str × α)) :
    normalizeKeyAliases path table = table := if_neg h

/-- Below the table of the alias nothing is replaced. -/
theorem normalized_of_two_le (v : Toml σ) :
    ∀ path : KeyPath, 2 ≤ path.length → normalizedWithKeyAliases v path = v := by
  induction v using ValueTree.induct with
  | scalar s => intro path _; rfl
  | array items ih =>
    intro path hpath
    rw [normalizedWithKeyAliases, normalizedItems_eq, map_congr_left fun v hv => ih v hv path hpath,
      List.map_id']
  | table table ih =>
    intro path hpath
    have hne : path ≠ memoriesAlias.tablePath := fun he => by rw [he] at hpath; exact absurd hpath (by decide)
    rw [normalizedWithKeyAliases, normalizeKeyAliases_of_ne hne, normalizedEntries_eq]
    refine congrArg _ ((map_congr_left fun e he => ?_).trans (map_id' table))
    rw [ih e he _ (by rw [length_append]; exact Nat.le_add_right_of_le hpath)]

/-- The entries that keep their keys. -/
def keptEntries (table : List (Str × α)) : List (Str × α) := table.filter (·.1 ≠ memoriesAlias.legacyKey)

variable {table : List (Str × α)}

theorem mem_keptEntries {e : Str × α} : e ∈ keptEntries table ↔ e ∈ table ∧ e.1 ≠ memoriesAlias.legacyKey := by
  rw [keptEntries, mem_filter, decide_eq_true_eq]

theorem canonicalKey_ne_legacyKey : memoriesAlias.canonicalKey ≠ memoriesAlias.legacyKey := by decide

theorem normalizeKeyAliases_tablePath (hpath : path = memoriesAlias.tablePath)
    (table : List (Str × α)) : normalizeKeyAliases path table =
      match table.lookup memoriesAlias.legacyKey with
      | none => table
      | some value =>
        if ((keptEntries table).lookup memoriesAlias.canonicalKey).isSome then keptEntries table
        else keptEntries table ++ [(memoriesAlias.canonicalKey, value)] := if_pos hpath

theorem normalizeKeyAliases_cases (path : KeyPath) (table : List (Str × α)) :
    ((path = memoriesAlias.tablePath → table.lookup memoriesAlias.legacyKey = none) ∧
      normalizeKeyAliases path table = table) ∨
    (path = memoriesAlias.tablePath ∧ ∃ value, table.lookup memoriesAlias.legacyKey = some value ∧
      (((keptEntries table).lookup memoriesAlias.canonicalKey).isSome ∧
          normalizeKeyAliases path table = keptEntries table ∨
        (keptEntries table).lookup memoriesAlias.canonicalKey = none ∧
          normalizeKeyAliases path table = keptEntries table ++ [(memoriesAlias.canonicalKey, value)])) := by
  by_cases hpath : path = memoriesAlias.tablePath
  · have heq := normalizeKeyAliases_tablePath hpath table
    cases hl : table.lookup memoriesAlias.legacyKey with
    | none =>
      rw [hl] at heq
      exact .inl ⟨fun _ => rfl, heq⟩
    | some value =>
      rw [hl] at heq
      refine .inr ⟨hpath, value, rfl, ?_⟩
      cases hc : (keptEntries table).lookup memoriesAlias.canonicalKey with
      | none => exact .inr ⟨rfl, heq.trans (by rw [hc]; rfl)⟩
      | some _ => exact .inl ⟨rfl, heq.trans (by rw [hc]; rfl)⟩
  · exact .inl ⟨fun h => absurd h hpath, normalizeKeyAliases_of_ne hpath table⟩

/-- Entries of a normalised table are those of the table, at their own keys or at the canonical one. -/
theorem mem_normalizeKeyAliases {e : Str × α} (h : e ∈ normalizeKeyAliases path table) :
    e ∈ table ∨ (path = memoriesAlias.tablePath ∧ e.1 = memoriesAlias.canonicalKey ∧
      (memoriesAlias.legacyKey, e.2) ∈ table) := by
  obtain ⟨-, heq⟩ | ⟨hpath, value, hl, ⟨-, heq⟩ | ⟨-, heq⟩⟩ := normalizeKeyAliases_cases path table
  · exact .inl (heq ▸ h)
  · rw [heq] at h
    exact .inl (mem_keptEntries.mp h).1
  · rw [heq] at h
    obtain h | h := mem_append.mp h
    · exact .inl (mem_keptEntries.mp h).1
    · obtain rfl := mem_singleton.mp h
      exact .inr ⟨hpath, rfl, mem_of_lookup hl⟩

theorem ne_legacyKey_of_mem (hpath : path = memoriesAlias.tablePath)
    {e : Str × α} (h : e ∈ normalizeKeyAliases path table) : e.1 ≠ memoriesAlias.legacyKey := by
  obtain ⟨hl, heq⟩ | ⟨-, value, -, ⟨-, heq⟩ | ⟨-, heq⟩⟩ := normalizeKeyAliases_cases path table
  · rw [heq] at h
    exact fun he => bne_iff_ne.mp (lookup_eq_none_iff.mp (hl hpath) e h) he.symm
  · rw [heq] at h
    exact (mem_keptEntries.mp h).2
  · rw [heq] at h
    obtain h | h := mem_append.mp h
    · exact (mem_keptEntries.mp h).2
    · rw [mem_singleton.mp h]
      exact canonicalKey_ne_legacyKey

theorem normalizeKeyAliases_eq_self
    (h : path = memoriesAlias.tablePath → ∀ e ∈ table, e.1 ≠ memoriesAlias.legacyKey) :
    normalizeKeyAliases path table = table := by
  obtain ⟨-, heq⟩ | ⟨hpath, value, hl, -⟩ := normalizeKeyAliases_cases path table
  · exact heq
  · exact absurd rfl (h hpath _ (mem_of_lookup hl))

theorem nodup_normalizeKeyAliases (h : (table.map Prod.fst).Nodup) :
    ((normalizeKeyAliases path table).map Prod.fst).Nodup := by
  have hkept : ((keptEntries table).map Prod.fst).Nodup := h.sublist (filter_sublist.map Prod.fst)
  obtain ⟨-, heq⟩ | ⟨-, value, -, ⟨-, heq⟩ | ⟨hnone, heq⟩⟩ := normalizeKeyAliases_cases path table
  · rw [heq]
    exact h
  · rw [heq]
    exact hkept
  · rw [heq, map_append]
    refine nodup_append.mpr ⟨hkept, nodup_singleton _, fun k hk k' hk' he => ?_⟩
    obtain ⟨e, hmem, rfl⟩ := mem_map.mp hk
    obtain rfl := mem_singleton.mp hk'
    exact bne_iff_ne.mp (lookup_eq_none_iff.mp hnone e hmem) he.symm

variable {β : Type}

theorem lookup_map (f : α → β) (key : Str) : ∀ table : List (Str × α),
    (table.map fun e => (e.1, f e.2)).lookup key = (table.lookup key).map f
  | [] => rfl
  | e :: table => by
    rw [map_cons, lookup_cons, lookup_cons, lookup_map f key table]
    cases key == e.1 <;> rfl

/-- Normalising moves values without looking at them. -/
theorem normalizeKeyAliases_map (f : α → β) (path : KeyPath) (table : List (Str × α)) :
    normalizeKeyAliases path (table.map fun e => (e.1, f e.2)) =
      (normalizeKeyAliases path table).map fun e => (e.1, f e.2) := by
  have hkept : keptEntries (table.map fun e => (e.1, f e.2)) = (keptEntries table).map fun e => (e.1, f e.2) :=
    filter_map
  by_cases hpath : path = memoriesAlias.tablePath
  · rw [normalizeKeyAliases_tablePath hpath, normalizeKeyAliases_tablePath hpath, lookup_map, hkept, lookup_map]
    cases table.lookup memoriesAlias.legacyKey with
    | none => rfl
    | some value =>
      cases (keptEntries table).lookup memoriesAlias.canonicalKey with
      | none =>
        show _ = map _ (keptEntries table ++ [(memoriesAlias.canonicalKey, value)])
        rw [map_append]
        rfl
      | some _ => rfl
  · rw [normalizeKeyAliases_of_ne hpath, normalizeKeyAliases_of_ne hpath]

/-! ### Normalised trees are canonical -/

theorem normalized_table (table : List (Str × Toml σ)) (path : KeyPath) :
    normalizedWithKeyAliases (.table table) path =
      .table ((normalizeKeyAliases path table).map fun e => (e.1, normalizedWithKeyAliases e.2 (path ++ [e.1]))) := by
  rw [normalizedWithKeyAliases, normalizedEntries_eq]
  by_cases hpath : path = memoriesAlias.tablePath
  · -- below the alias nothing is replaced
    have hbelow : ∀ (key : Str) (v : Toml σ), normalizedWithKeyAliases v (path ++ [key]) = v :=
      fun key v => normalized_of_two_le v _ (by rw [hpath]; exact le_refl 2)
    simp only [hbelow, List.map_id']
  · rw [normalizeKeyAliases_of_ne hpath, normalizeKeyAliases_of_ne hpath]

theorem canonical_normalized (v : Toml σ) : ∀ path : KeyPath, Canonical path (normalizedWithKeyAliases v path) := by
  induction v using ValueTree.induct with
  | scalar s => exact fun path => .scalar path s
  | array items ih =>
    intro path
    rw [normalizedWithKeyAliases, normalizedItems_eq]
    refine .array fun v hv => ?_
    obtain ⟨item, hitem, rfl⟩ := mem_map.mp hv
    exact ih item hitem path
  | table table ih =>
    intro path
    rw [normalized_table]
    refine .table (fun a ha hpath e he => ?_) (fun e he => ?_)
    · obtain rfl := mem_singleton.mp ha
      obtain ⟨e', he', rfl⟩ := mem_map.mp he
      show e'.1 ≠ _
      exact ne_legacyKey_of_mem hpath he'
    · obtain ⟨e', he', rfl⟩ := mem_map.mp he
      obtain hmem | ⟨-, -, hmem⟩ := mem_normalizeKeyAliases he'
      · exact ih e' hmem (path ++ [e'.1])
      · exact ih _ hmem (path ++ [e'.1])

variable {v : Toml σ}

theorem wellFormed_normalized (h : v.WellFormed PlainKey) : ∀ path : KeyPath,
    (normalizedWithKeyAliases v path).WellFormed PlainKey := by
  induction h with
  | scalar s => exact fun path => .scalar s
  | @array items h ih =>
    intro path
    rw [normalizedWithKeyAliases, normalizedItems_eq]
    refine .array fun v hv => ?_
    obtain ⟨item, hitem, rfl⟩ := mem_map.mp hv
    exact ih item hitem path
  | @table table hnodup hok h ih =>
    intro path
    rw [normalized_table]
    refine .table ?_ (fun e he => ?_) (fun e he => ?_)
    · rw [List.map_map]
      exact nodup_normalizeKeyAliases hnodup
    · obtain ⟨e', he', rfl⟩ := mem_map.mp he
      obtain hmem | ⟨-, hkey, -⟩ := mem_normalizeKeyAliases he'
      · exact hok e' hmem
      · rw [hkey]
        exact ⟨by decide, by decide⟩
    · obtain ⟨e', he', rfl⟩ := mem_map.mp he
      obtain hmem | ⟨-, -, hmem⟩ := mem_normalizeKeyAliases he'
      · exact ih e' hmem (path ++ [e'.1])
      · exact ih _ hmem (path ++ [e'.1])

/-- An entry of a canonical table. -/
def CanonicalEntry (path : KeyPath) (key : Str) (v : Toml σ) : Prop :=
  (path = memoriesAlias.tablePath → key ≠ memoriesAlias.legacyKey) ∧ Canonical (path ++ [key]) v

theorem canonical_table_iff {entries : List (Str × Toml σ)} :
    Canonical path (.table entries) ↔ ∀ e ∈ entries, CanonicalEntry path e.1 e.2 := by
  constructor
  · intro h e he
    cases h with
    | table hkeys h => exact ⟨fun hpath => hkeys memoriesAlias mem_cons_self hpath e he, h e he⟩
  · intro h
    refine .table (fun a ha hpath e he => ?_) fun e he => (h e he).2
    obtain rfl := mem_singleton.mp ha
    exact (h e he).1 hpath

variable {o : Toml σ}

theorem Canonical.deepMerge : ∀ {path : KeyPath} {b : Toml σ}, Canonical path b → Canonical path o →
    Canonical path (b.deepMerge o) := by
  induction o using ValueTree.induct with
  | scalar | array =>
    intro path b _ ho
    rw [deepMerge_of_not fun h => by cases h.2]
    exact ho
  | table overlay ih =>
    intro path b hb ho
    cases b with
    | scalar | array =>
      rw [deepMerge_of_not fun h => by cases h.1]
      exact ho
    | table base =>
      rw [ValueTree.deepMerge]
      have ho := canonical_table_iff.mp ho
      exact canonical_table_iff.mpr (ValueTree.forall_mem_mergeEntries (canonical_table_iff.mp hb) ho
        fun e he b hb => ⟨hb.1, ih e he hb.2 (ho e he).2⟩)

/-! ### The configuration in effect -/

/-- What becomes of an existing value when another is merged into it. -/
def merger (value : Toml σ) (existing : Option (Toml σ)) (path : KeyPath) : Toml σ :=
  match existing with
  | some existing => mergeTomlValuesAtPath existing value path
  | none => normalizedWithKeyAliases value path

theorem mergers_eq : ∀ overlay : List (Str × Toml σ), mergers overlay = overlay.map fun e => (e.1, merger e.2)
  | [] => by rw [mergers, map_nil]
  | (key, value) :: overlay => by
    rw [mergers, mergers_eq overlay]
    rfl

theorem foldl_merger : ∀ {overlay base : List (Str × Toml σ)}, (∀ e ∈ overlay, ∀ path b, Canonical path b →
      mergeTomlValuesAtPath b e.2 path = b.deepMerge (normalizedWithKeyAliases e.2 path)) →
    (∀ e ∈ base, Canonical (path ++ [e.1]) e.2) →
    overlay.foldl (fun base e => Entries.insert e.1 (merger e.2 (base.lookup e.1) (path ++ [e.1])) base) base =
      mergeEntries base (overlay.map fun e => (e.1, normalizedWithKeyAliases e.2 (path ++ [e.1])))
  | [], base, _, _ => by rw [foldl_nil, map_nil, mergeEntries]
  | e :: overlay, base, ih, hbase => by
    have hvalue : merger e.2 (base.lookup e.1) (path ++ [e.1]) =
        (match base.lookup e.1 with
          | some b => b.deepMerge (normalizedWithKeyAliases e.2 (path ++ [e.1]))
          | none => normalizedWithKeyAliases e.2 (path ++ [e.1])) := by
      cases hl : base.lookup e.1 with
      | none => rfl
      | some b => exact ih e mem_cons_self _ b (hbase _ (mem_of_lookup hl))
    rw [foldl_cons, map_cons, mergeEntries, hvalue]
    refine foldl_merger (fun e' he' => ih e' (mem_cons_of_mem e he')) fun e' he' => ?_
    obtain rfl | he' := Entries.mem_insert he'
    · cases hl : base.lookup e.1 with
      | none => exact canonical_normalized e.2 _
      | some b => exact (hbase _ (mem_of_lookup hl)).deepMerge (canonical_normalized e.2 _)
    · exact hbase e' he'

theorem mergeTomlValuesAtPath_eq (overlay : Toml σ) : ∀ (path : KeyPath) (base : Toml σ), Canonical path base →
    mergeTomlValuesAtPath base overlay path = base.deepMerge (normalizedWithKeyAliases overlay path) := by
  induction overlay using ValueTree.induct with
  | scalar | array =>
    intro path base _
    rw [deepMerge_of_not fun h => by cases h.2]
    cases base <;> rw [mergeTomlValuesAtPath]
    all_goals exact fun _ _ _ he => by cases he
  | table overlay ih =>
    intro path base hbase
    cases base with
    | scalar | array =>
      rw [deepMerge_of_not (fun h => by cases h.1), mergeTomlValuesAtPath]
      exact fun _ _ he => by cases he
    | table base =>
      have hentries := canonical_table_iff.mp hbase
      rw [mergeTomlValuesAtPath, mergers_eq, normalizeKeyAliases_map, foldl_map, normalized_table, deepMerge,
        normalizeKeyAliases_eq_self fun hpath e he => (hentries e he).1 hpath]
      refine congrArg _ (foldl_merger (fun e he => ?_) fun e he => (hentries e he).2)
      obtain hmem | ⟨-, -, hmem⟩ := mem_normalizeKeyAliases he
      · exact ih e hmem
      · exact ih (memoriesAlias.legacyKey, e.2) hmem

theorem foldl_mergeTomlValues : ∀ (layers : List (ConfigLayerEntry σ ν)) {base : Toml σ}, Canonical [] base →
    layers.foldl (fun merged layer => mergeTomlValues merged layer.config) base =
        (layers.map normalized).foldl deepMerge base ∧
      Canonical [] ((layers.map normalized).foldl deepMerge base)
  | [], _, hbase => ⟨rfl, hbase⟩
  | layer :: layers, base, hbase => by
    have hmerge : mergeTomlValues base layer.config = base.deepMerge layer.normalized :=
      mergeTomlValuesAtPath_eq layer.config [] base hbase
    rw [foldl_cons, map_cons, foldl_cons, hmerge]
    exact foldl_mergeTomlValues layers (hbase.deepMerge (canonical_normalized layer.config []))

theorem effectiveConfig_eq (stack : ConfigLayerStack σ ν) :
    stack.effectiveConfig = ValueTree.mergeAll (stack.enabledLayers.map normalized) :=
  (foldl_mergeTomlValues stack.enabledLayers (canonical_table_iff.mpr fun _ h => by cases h)).1

theorem canonical_effectiveConfig (stack : ConfigLayerStack σ ν) : Canonical [] stack.effectiveConfig := by
  rw [effectiveConfig_eq]
  exact (foldl_mergeTomlValues stack.enabledLayers (canonical_table_iff.mpr fun _ h => by cases h)).2

/-! ### What is recorded -/

/-- The tree has a scalar below `path` whose dotted path is the key. -/
def Records (v : Toml σ) (path : KeyPath) (key : Str) : Prop :=
  ∃ p s, v.Leaf p s ∧ path ++ p ≠ [] ∧ dotted (path ++ p) = key

variable {s : σ} {key : Str}

theorem records_scalar : Records (.scalar s) path key ↔ path ≠ [] ∧ dotted path = key := by
  constructor
  · rintro ⟨p, s', hleaf, hne, hkey⟩
    cases p with
    | nil =>
      rw [append_nil] at hne hkey
      exact ⟨hne, hkey⟩
    | cons k p => exact absurd hleaf (ValueTree.not_leaf_of_lookup rfl)
  · rintro ⟨hne, hkey⟩
    exact ⟨[], s, rfl, by rwa [append_nil], by rwa [append_nil]⟩

theorem records_children (hwf : v.WellFormed PlainKey) (hv : ∀ s, v ≠ .scalar s)
    : Records v path key ↔ ∃ e ∈ v.children, Records e.2 (path ++ [e.1]) key := by
  constructor
  · rintro ⟨p, s, hleaf, hne, hkey⟩
    cases p with
    | nil => exact absurd (some.inj hleaf) (hv s)
    | cons k p =>
      obtain ⟨w, hw, hleaf⟩ := leaf_cons.mp hleaf
      exact ⟨(k, w), mem_of_lookup hw, p, s, hleaf, by rwa [append_assoc], by rwa [append_assoc]⟩
  · rintro ⟨⟨k, w⟩, hmem, p, s, hleaf, hne, hkey⟩
    have hw := (ValueTree.lookup_eq_some_iff hwf.children_nodup).mpr hmem
    rw [append_assoc] at hne hkey
    exact ⟨k :: p, s, leaf_cons.mpr ⟨w, hw, hleaf⟩, hne, hkey⟩

theorem recordItems_eq (layer : ConfigLayerMetadata ν) (path : KeyPath) : ∀ (items : List (Toml σ)) (idx : ℕ)
    (origins : HashMap Str (ConfigLayerMetadata ν)),
    recordItems idx items layer path origins = recordEntries (indexed idx items) layer path origins
  | [], _, _ => by rw [recordItems, indexed, recordEntries]
  | item :: items, idx, origins => by
    rw [recordItems, indexed, recordEntries, recordItems_eq layer path items]

theorem recordOrigins_children (hv : ∀ s, v ≠ .scalar s) (layer : ConfigLayerMetadata ν) (path : KeyPath)
    (origins : HashMap Str (ConfigLayerMetadata ν)) :
    recordOrigins v layer path origins = recordEntries v.children layer path origins := by
  cases v with
  | scalar s => exact absurd rfl (hv s)
  | array items => rw [recordOrigins, recordItems_eq]; rfl
  | table entries => rw [recordOrigins]; rfl

variable {layer : ConfigLayerMetadata ν}

open Classical in
theorem get_recordEntries :
    ∀ {entries : List (Str × Toml σ)} {origins : HashMap Str (ConfigLayerMetadata ν)},
    (∀ e ∈ entries, ∀ path origins, (recordOrigins e.2 layer path origins).get key =
      if Records e.2 path key then some layer else origins.get key) →
    (recordEntries entries layer path origins).get key =
      if ∃ e ∈ entries, Records e.2 (path ++ [e.1]) key then some layer else origins.get key
  | [], origins, _ => by
    rw [recordEntries, if_neg]
    exact fun ⟨_, he, _⟩ => not_mem_nil he
  | (k, v) :: entries, origins, ih => by
    rw [recordEntries, get_recordEntries fun e he => ih e (mem_cons_of_mem _ he),
      ih (k, v) mem_cons_self]
    by_cases hrest : ∃ e ∈ entries, Records e.2 (path ++ [e.1]) key
    · obtain ⟨e, he, hrec⟩ := hrest
      rw [if_pos ⟨e, he, hrec⟩, if_pos ⟨e, mem_cons_of_mem _ he, hrec⟩]
    · rw [if_neg hrest]
      refine if_congr ⟨fun h => ⟨(k, v), mem_cons_self, h⟩, fun ⟨e, he, h⟩ => ?_⟩ rfl rfl
      obtain rfl | he := mem_cons.mp he
      · exact h
      · exact absurd ⟨e, he, h⟩ hrest

open Classical in
theorem get_recordOrigins (hwf : v.WellFormed PlainKey) :
    ∀ (path : KeyPath) (origins : HashMap Str (ConfigLayerMetadata ν)),
    (recordOrigins v layer path origins).get key = if Records v path key then some layer else origins.get key := by
  induction v using ValueTree.induct with
  | scalar s =>
    intro path origins
    rw [recordOrigins]
    simp only [records_scalar]
    by_cases hpath : path = []
    · rw [if_pos hpath, if_neg fun h => h.1 hpath]
    · rw [if_neg hpath, HashMap.get_insert]
      exact if_congr ⟨fun h => ⟨hpath, h.symm⟩, fun h => h.2.symm⟩ rfl rfl
  | array items ih =>
    intro path origins
    have hv : ∀ s, ValueTree.array items ≠ .scalar s := fun s h => by cases h
    rw [recordOrigins_children hv, get_recordEntries]
    · exact if_congr (records_children hwf hv).symm rfl rfl
    · intro e he
      exact ih e.2 (ValueTree.mem_of_mem_indexed he).1 (hwf.of_mem_children he)
  | table entries ih =>
    intro path origins
    have hv : ∀ s, ValueTree.table entries ≠ .scalar s := fun s h => by cases h
    rw [recordOrigins_children hv, get_recordEntries]
    · exact if_congr (records_children hwf hv).symm rfl rfl
    · intro e he
      exact ih e he (hwf.of_mem_children he)

/-! ### Dotted paths -/

/-- Keys of tables and texts of indices alike. -/
theorem plainKey_indexText (i : ℕ) : PlainKey (indexText i) :=
  ⟨Nat.toDigits_ne_nil, fun h => absurd (Nat.isDigit_of_mem_toDigits (by decide) (by decide) h) (by decide)⟩

theorem plainKey_of_mem_children (hwf : v.WellFormed PlainKey) {e : Str × Toml σ} (he : e ∈ v.children) :
    PlainKey e.1 := by
  cases hwf with
  | scalar => exact absurd he not_mem_nil
  | array =>
    obtain ⟨-, j, -, htext⟩ := ValueTree.mem_of_mem_indexed he
    exact htext ▸ plainKey_indexText j
  | table _ hok => exact hok e he

variable {p : KeyPath}

theorem plainKey_of_leaf : ∀ {v : Toml σ}, v.WellFormed PlainKey → v.Leaf p s → ∀ key ∈ p, PlainKey key := by
  induction p with
  | nil => exact fun _ _ key h => absurd h not_mem_nil
  | cons k p ih =>
    intro v hwf hleaf key hkey
    obtain ⟨w, hw, hleaf⟩ := leaf_cons.mp hleaf
    obtain rfl | hkey := mem_cons.mp hkey
    · exact plainKey_of_mem_children hwf (mem_of_lookup hw)
    · exact ih (hwf.of_lookup hw) hleaf key hkey

theorem dotted_inj {p' : KeyPath} (hp : ∀ key ∈ p, PlainKey key) (hp' : ∀ key ∈ p', PlainKey key) (hne : p ≠ [])
    (hne' : p' ≠ []) (h : dotted p = dotted p') : p = p' := by
  have hsplit := splitOn_intercalate '.' (fun key hkey => (hp key hkey).2) hne
  have hsplit' := splitOn_intercalate '.' (fun key hkey => (hp' key hkey).2) hne'
  exact hsplit.symm.trans ((congrArg (splitOn '.') h).trans hsplit')

theorem dotted_ne_nil (hp : ∀ key ∈ p, PlainKey key) (hne : p ≠ []) : dotted p ≠ [] := by
  intro h
  have hsplit := splitOn_intercalate '.' (fun key hkey => (hp key hkey).2) hne
  rw [show intercalate ['.'] p = [] from h] at hsplit
  rw [← hsplit] at hp
  exact (hp [] (by decide)).1 rfl

/-! ### Stacks -/

namespace ConfigLayerEntry

theorem normalized_wellFormed (layer : ConfigLayerEntry σ ν) : layer.normalized.WellFormed PlainKey :=
  wellFormed_normalized layer.wellFormed []

/-- The layer has a scalar at the path. -/
def HasLeaf (layer : ConfigLayerEntry σ ν) (p : KeyPath) : Prop := ∃ s, layer.normalized.Leaf p s

theorem records_iff {layer : ConfigLayerEntry σ ν} {p : KeyPath} (hp : ∀ key ∈ p, PlainKey key) (hne : p ≠ []) :
    Records layer.normalized [] (dotted p) ↔ layer.HasLeaf p := by
  constructor
  · rintro ⟨p', s, hleaf, hne', hkey⟩
    have hp' := plainKey_of_leaf layer.normalized_wellFormed hleaf
    exact ⟨s, dotted_inj hp' hp hne' hne hkey ▸ hleaf⟩
  · rintro ⟨s, hleaf⟩
    exact ⟨p, s, hleaf, hne, rfl⟩

end ConfigLayerEntry

open Classical in
theorem get_foldl_recordOrigins (layers : List (ConfigLayerEntry σ ν)) :
    (layers.foldl (fun origins layer => recordOrigins layer.normalized layer.metadata [] origins)
        HashMap.empty).get key = (layers.filter fun layer => Records layer.normalized [] key).getLast?.map metadata := by
  induction layers using reverseRecOn with
  | nil => rfl
  | append_singleton layers entry ih =>
    rw [foldl_concat, get_recordOrigins entry.normalized_wellFormed, ih, filter_append]
    by_cases hrec : Records entry.normalized [] key
    · simp [hrec]
    · simp [hrec]

open Classical in
/-- The origin of a key is the last layer that records it. -/
theorem get_origins_eq_some {stack : ConfigLayerStack σ ν} : stack.origins.get key = some layer ↔
    ∃ pre last post, stack.enabledLayers = pre ++ last :: post ∧ Records last.normalized [] key ∧
      (∀ later ∈ post, ¬Records later.normalized [] key) ∧ layer = last.metadata := by
  refine (Eq.congr_left (get_foldl_recordOrigins stack.enabledLayers)).trans (map_eq_some_iff.trans ?_)
  constructor
  · rintro ⟨last, hlast, rfl⟩
    obtain ⟨before, hfilter⟩ := getLast?_eq_some_iff.mp hlast
    obtain ⟨front, rest, hsplit, -, hrest⟩ := filter_eq_append_iff.mp hfilter
    obtain ⟨middle, post, rfl, -, hrec, hpost⟩ := filter_eq_cons_iff.mp hrest
    refine ⟨front ++ middle, last, post, by rw [hsplit, append_assoc], of_decide_eq_true hrec, fun l hl => ?_, rfl⟩
    exact mt decide_eq_true (filter_eq_nil_iff.mp hpost l hl)
  · rintro ⟨pre, last, post, hsplit, hrec, hpost, rfl⟩
    refine ⟨last, ?_, rfl⟩
    have hnone : post.filter (fun layer => Records layer.normalized [] key) = [] :=
      filter_eq_nil_iff.mpr fun l hl => mt of_decide_eq_true (hpost l hl)
    rw [hsplit, filter_append, filter_cons_of_pos (by simpa using hrec), hnone, getLast?_concat]

/-- A layer that has a scalar at `p`, and no layer after it has one there. -/
structure LastWriter (stack : ConfigLayerStack σ ν) (p : KeyPath) (pre : List (ConfigLayerEntry σ ν))
    (layer : ConfigLayerEntry σ ν) (post : List (ConfigLayerEntry σ ν)) : Prop where
  split : stack.enabledLayers = pre ++ layer :: post
  hasLeaf : layer.HasLeaf p
  later : ∀ l ∈ post, ¬l.HasLeaf p

/-- **A stack and its origins.** The configuration in effect is the deep merge of the normalised layers and has no
legacy key; the origins are those of exactly its scalars, and each is the last layer that has the scalar. -/
structure Describes (stack : ConfigLayerStack σ ν) : Prop where
  merged : stack.effectiveConfig = ValueTree.mergeAll (stack.enabledLayers.map ConfigLayerEntry.normalized)
  canonical : Canonical [] stack.effectiveConfig
  keys : ∀ key, (stack.origins.get key).isSome ↔ ∃ p s, stack.effectiveConfig.Leaf p s ∧ dotted p = key
  layers : ∀ p s origin, stack.effectiveConfig.Leaf p s → stack.origins.get (dotted p) = some origin →
    ∃ pre layer post, LastWriter stack p pre layer post ∧ layer.normalized.Leaf p s ∧ origin = layer.metadata

/-- No scalar of a layer is displaced: what the layers after the last one that has a scalar at `p` have on the way to
`p` are tables, and so is what that layer has there.  The last layer is not a scalar as a whole. -/
structure Undisturbed (stack : ConfigLayerStack σ ν) : Prop where
  passes : ∀ p pre layer post, p ≠ [] → LastWriter stack p pre layer post →
    ∀ l ∈ post, Passes layer.normalized l.normalized p
  root : ∀ layer, stack.enabledLayers.getLast? = some layer → ∀ s, layer.normalized ≠ .scalar s

variable {stack : ConfigLayerStack σ ν} {p : KeyPath} {s : σ} {pre post : List (ConfigLayerEntry σ ν)}
  {layer : ConfigLayerEntry σ ν}

theorem LastWriter.plainKeys (h : LastWriter stack p pre layer post) : ∀ key ∈ p, PlainKey key := by
  obtain ⟨s, hleaf⟩ := h.hasLeaf
  exact plainKey_of_leaf layer.normalized_wellFormed hleaf

theorem LastWriter.get_origins (h : LastWriter stack p pre layer post) (hne : p ≠ []) :
    stack.origins.get (dotted p) = some layer.metadata := by
  refine get_origins_eq_some.mpr ⟨pre, layer, post, h.split, ?_, fun l hl => ?_, rfl⟩
  · exact (records_iff h.plainKeys hne).mpr h.hasLeaf
  · exact fun hrec => h.later l hl ((records_iff h.plainKeys hne).mp hrec)

theorem exists_lastWriter {origin : ConfigLayerMetadata ν} (h : stack.origins.get key = some origin) :
    ∃ p pre layer post, p ≠ [] ∧ dotted p = key ∧ LastWriter stack p pre layer post := by
  obtain ⟨pre, layer, post, hsplit, ⟨p, s, hleaf, hne, rfl⟩, hlater, rfl⟩ := get_origins_eq_some.mp h
  have hp := plainKey_of_leaf layer.normalized_wellFormed hleaf
  refine ⟨p, pre, layer, post, hne, rfl, hsplit, ⟨s, hleaf⟩, fun l hl hl' => ?_⟩
  exact hlater l hl ((records_iff hp hne).mpr hl')

theorem not_passes_of_leaf {b : Toml σ} (h : o.Leaf p s) : ¬Passes b o p := by
  intro hpass
  cases (hpass p (prefix_refl p) _ h).1

theorem leaf_effectiveConfig : stack.effectiveConfig.Leaf p s ↔ ∃ pre layer post, LastWriter stack p pre layer post ∧
    layer.normalized.Leaf p s ∧ ∀ l ∈ post, Passes layer.normalized l.normalized p := by
  have hwf : ∀ o ∈ stack.enabledLayers.map normalized, o.WellFormed PlainKey := by
    intro o ho
    obtain ⟨l, -, rfl⟩ := mem_map.mp ho
    exact l.normalized_wellFormed
  rw [effectiveConfig_eq, ValueTree.leaf_mergeAll hwf]
  constructor
  · rintro ⟨_, _, _, ⟨hsplit, hpasses⟩, hleaf⟩
    obtain ⟨pre, rest, hlayers, rfl, hrest⟩ := map_eq_append_iff.mp hsplit
    obtain ⟨layer, post, rfl, rfl, rfl⟩ := map_eq_cons_iff.mp hrest
    have hpasses : ∀ l ∈ post, Passes layer.normalized l.normalized p :=
      fun l hl => hpasses _ (mem_map_of_mem hl)
    have hlater : ∀ l ∈ post, ¬l.HasLeaf p := by
      rintro l hl ⟨s', h⟩
      exact not_passes_of_leaf h (hpasses l hl)
    exact ⟨pre, layer, post, ⟨hlayers, ⟨s, hleaf⟩, hlater⟩, hleaf, hpasses⟩
  · rintro ⟨pre, layer, post, hw, hleaf, hpasses⟩
    refine ⟨_, _, _, ⟨by rw [hw.split, map_append, map_cons], fun o ho => ?_⟩, hleaf⟩
    obtain ⟨l, hl, rfl⟩ := mem_map.mp ho
    exact hpasses l hl

theorem LastWriter.unique {pre' post' : List (ConfigLayerEntry σ ν)} {layer' : ConfigLayerEntry σ ν}
    (h : LastWriter stack p pre layer post) (h' : LastWriter stack p pre' layer' post') :
    layer = layer' ∧ post = post' := by
  obtain ⟨as, hpre, hrest⟩ | ⟨as, hpre, hrest⟩ := append_eq_append_iff.mp (h.split.symm.trans h'.split)
  · cases as with
    | nil => exact ⟨(cons.inj hrest).1, (cons.inj hrest).2⟩
    | cons a as =>
      obtain ⟨rfl, rfl⟩ := cons.inj hrest
      exact absurd h'.hasLeaf (h.later layer' (mem_append_right as mem_cons_self))
  · cases as with
    | nil => exact ⟨(cons.inj hrest).1.symm, (cons.inj hrest).2.symm⟩
    | cons a as =>
      obtain ⟨rfl, rfl⟩ := cons.inj hrest
      exact absurd h.hasLeaf (h'.later layer (mem_append_right as mem_cons_self))

/-- The configuration in effect is a scalar as a whole if the last layer is. -/
theorem leaf_nil_effectiveConfig : stack.effectiveConfig.Leaf [] s ↔
    ∃ layer, stack.enabledLayers.getLast? = some layer ∧ layer.normalized = .scalar s := by
  rw [leaf_effectiveConfig]
  constructor
  · rintro ⟨pre, layer, post, hw, hleaf, hpasses⟩
    refine ⟨layer, ?_, some.inj hleaf⟩
    cases post with
    | nil => rw [hw.split, getLast?_concat]
    | cons l post =>
      have hroot := (hpasses l mem_cons_self).root.1
      exact absurd hleaf (ValueTree.not_leaf_nil hroot)
  · rintro ⟨layer, hlast, hs⟩
    obtain ⟨pre, hsplit⟩ := getLast?_eq_some_iff.mp hlast
    have hleaf : layer.normalized.Leaf [] s := congrArg some hs
    exact ⟨pre, layer, [], ⟨hsplit, ⟨s, hleaf⟩, forall_mem_nil _⟩, hleaf,
      forall_mem_nil _⟩

theorem get_origins_nil : stack.origins.get [] = none := by
  cases h : stack.origins.get [] with
  | none => rfl
  | some origin =>
    obtain ⟨p, pre, layer, post, hne, hkey, hw⟩ := exists_lastWriter h
    exact absurd hkey (dotted_ne_nil hw.plainKeys hne)

/-- **Origins.** The origins describe the configuration in effect exactly for the stacks in which no scalar of a
layer is displaced by a later one. -/
theorem describes_iff (stack : ConfigLayerStack σ ν) : Describes stack ↔ Undisturbed stack := by
  constructor
  · intro h
    refine ⟨fun p pre layer post hne hw l hl => ?_, fun layer hlast s hs => ?_⟩
    · have hget := (h.keys (dotted p)).mp (by rw [hw.get_origins hne]; rfl)
      obtain ⟨p', s', hleaf, hkey⟩ := hget
      obtain ⟨pre', layer', post', hw', -, hpasses⟩ := leaf_effectiveConfig.mp hleaf
      have hne' : p' ≠ [] := fun he => dotted_ne_nil hw.plainKeys hne (by rw [← hkey, he]; rfl)
      obtain rfl := dotted_inj hw'.plainKeys hw.plainKeys hne' hne hkey
      obtain ⟨rfl, rfl⟩ := hw.unique hw'
      exact hpasses l hl
    · have hget := (h.keys []).mpr ⟨[], s, leaf_nil_effectiveConfig.mpr ⟨layer, hlast, hs⟩, rfl⟩
      rw [get_origins_nil] at hget
      cases hget
  · intro h
    have hne : ∀ {p s}, stack.effectiveConfig.Leaf p s → p ≠ [] := by
      rintro p s hleaf rfl
      obtain ⟨layer, hlast, hs⟩ := leaf_nil_effectiveConfig.mp hleaf
      exact h.root layer hlast s hs
    refine ⟨effectiveConfig_eq stack, canonical_effectiveConfig stack, fun key => ⟨fun hget => ?_, ?_⟩,
      fun p s origin hleaf hget => ?_⟩
    · obtain ⟨origin, hget⟩ := isSome_iff_exists.mp hget
      obtain ⟨p, pre, layer, post, hne, rfl, hw⟩ := exists_lastWriter hget
      obtain ⟨s, hleaf⟩ := hw.hasLeaf
      exact ⟨p, s, leaf_effectiveConfig.mpr ⟨pre, layer, post, hw, hleaf, h.passes p pre layer post hne hw⟩, rfl⟩
    · rintro ⟨p, s, hleaf, rfl⟩
      obtain ⟨pre, layer, post, hw, -, -⟩ := leaf_effectiveConfig.mp hleaf
      rw [hw.get_origins (hne hleaf)]
      rfl
    · obtain ⟨pre, layer, post, hw, hlayer, -⟩ := leaf_effectiveConfig.mp hleaf
      rw [hw.get_origins (hne hleaf)] at hget
      exact ⟨pre, layer, post, hw, hlayer, (Option.some.inj hget).symm⟩

/-- A layer with an array of numbers at `a`. -/
def arrayLayer (name : ℕ) (items : List ℕ) : ConfigLayerEntry ℕ ℕ where
  name := name
  config := .table [("a", .array (items.map .scalar))]
  version := []
  disabledReason := none
  wellFormed := by
    refine .table (List.nodup_singleton _) (fun e he => ?_) fun e he => ?_
    · have ha : PlainKey "a" := ⟨by decide, by decide⟩
      exact List.mem_singleton.mp he ▸ ha
    · obtain rfl := List.mem_singleton.mp he
      refine .array fun v hv => ?_
      obtain ⟨i, -, rfl⟩ := List.mem_map.mp hv
      exact .scalar i

/-- An array of two items, and one of a single item over it. -/
def shorterArray : ConfigLayerStack ℕ ℕ := ⟨[arrayLayer 0 [1, 2], arrayLayer 1 [3]]⟩

/-- The second item still has an origin. -/
theorem not_describes_shorterArray : ¬Describes shorterArray := by
  intro h
  obtain ⟨p, s, hleaf, hkey⟩ := (h.keys "a.1".toList).mp (by decide)
  obtain ⟨pre, layer, post, hw, -, -⟩ := leaf_effectiveConfig.mp hleaf
  have hne : p ≠ [] := by
    rintro rfl
    cases hkey
  have hplain : ∀ key ∈ ["a".toList, "1".toList], PlainKey key := by
    intro key hkey
    obtain rfl | hkey := mem_cons.mp hkey
    · exact ⟨by decide, by decide⟩
    · exact mem_singleton.mp hkey ▸ ⟨by decide, by decide⟩
  obtain rfl := dotted_inj hw.plainKeys hplain hne (cons_ne_nil _ _) hkey
  cases hleaf

end OpenAgere.ConfigLayers
