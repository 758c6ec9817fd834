import Mathlib.Data.Fintype.Card
import OpenAgere.FreshNames
import OpenAgere.HashMap
import OpenAgere.Utf8

/-! # Flat names of tools on the wire

`tools/src/wire_projection.rs`: providers that know no namespaces are given every tool under a flat name of at most 64
letters, digits, underscores and hyphens.  Names that are too long, that collide or that were given away are replaced
by a part of them and eight digits of a hash; a hash that is taken is tried again with a number behind the name.  Three
maps lead from the tools to the names and back.  The words that are hashed are those of a little-endian machine of 64
bits.  An attempt is a `usize` in the source; here it is a number below the fuel of the search, and what holds for every
fuel holds for the `2 ^ 64` attempts of the code.

In a projection that is built, names are valid and distinct, and what is encoded is decoded to the same tool; if no
names collide, it is built without a search (`projection_sound`).  The search need not end: there are no more than
`2 ^ 32` names for the same tool (`not_projected_repeated`). -/

namespace OpenAgere.WireProjection

open List Option FreshNames Utf8

def maxFlatWireToolNameLen : ℕ := 64

def hashSuffixLen : ℕ := 8

def hashSeparator : Str := "__"

def toolSearchToolName : Str := "tool_search"

structure ToolName where
  name : Str
  nameSpace : Option Str
deriving DecidableEq

def ToolName.plain (name : Str) : ToolName := ⟨name, none⟩

def ToolName.namespaced (nameSpace name : Str) : ToolName := ⟨name, some nameSpace⟩

inductive FlatWireFunctionToolKind where
  | function
  | namespaceFunction
  | toolSearch
deriving DecidableEq

section
variable (σ : Type)

/-- What is read of a function tool; `σ` are the schemas of parameters. -/
structure ResponsesApiTool where
  name : Str
  description : Str
  parameters : σ

inductive ToolSpec where
  | function (tool : ResponsesApiTool σ)
  | nameSpace (name : Str) (tools : List (ResponsesApiTool σ))
  | toolSearch (description : Str) (parameters : σ)
  | localShell
  | imageGeneration
  | webSearch
  | freeform (name : Str)

structure FlatWireFunctionTool where
  wireName : Str
  canonicalName : ToolName
  sourceKind : FlatWireFunctionToolKind
  description : Str
  parameters : σ

end

/-! ### The hash -/

def offsetBasis : BitVec 64 := 0xcbf29ce484222325

def prime : BitVec 64 := 0x100000001b3

/-- `StableHasher::write` -/
def write (state : BitVec 64) (bytes : List UInt8) : BitVec 64 :=
  bytes.foldl (fun state byte => (state ^^^ byte.toBitVec.setWidth 64) * prime) (if state = 0 then offsetBasis else state)

/-- A text is hashed with a byte behind it. -/
def hashStr (state : BitVec 64) (s : Str) : BitVec 64 := write (write state (bytes s)) [0xff]

/-- The discriminant is hashed in eight bytes, the lowest first. -/
def hashOption (state : BitVec 64) : Option Str → BitVec 64
  | none => write state (0 :: List.replicate 7 0)
  | some s => hashStr (write state (1 :: List.replicate 7 0)) s

def hashToolName (toolName : ToolName) : BitVec 32 :=
  (hashStr (hashOption 0 toolName.nameSpace) toolName.name).setWidth 32

/-- The hexadecimal digits of a number, with zeros in front. -/
def hexDigits : ℕ → ℕ → Str
  | 0, _ => []
  | width + 1, n => hexDigits width (n / 16) ++ [(n % 16).digitChar]

def stableToolNameSuffix (toolName : ToolName) : Str := hexDigits hashSuffixLen (hashToolName toolName).toNat

/-! ### Names -/

/-- What a provider accepts in a name. -/
def isWireChar (c : Char) : Bool := c.isAlphanum || c = '_' || c = '-'

def sanitizeProviderToolName (name : Str) : Str :=
  let sanitized := name.map fun c => if isWireChar c then c else '_'
  if sanitized = [] then "tool" else sanitized

/-- The part of a name that is kept, with some text behind it. The name is of ASCII characters. -/
def withSuffix (wireName suffix : Str) : Str :=
  let maxPrefixLen := maxFlatWireToolNameLen - hashSeparator.length - hashSuffixLen
  (if len wireName > maxPrefixLen then wireName.take maxPrefixLen else wireName) ++ hashSeparator ++ suffix

def appendHashSuffix (wireName : Str) (canonicalName : ToolName) : Str :=
  withSuffix wireName (stableToolNameSuffix canonicalName)

def providerValidWireName (candidate : Str) (canonicalName : ToolName) : Str :=
  let sanitized := sanitizeProviderToolName candidate
  if len sanitized ≤ maxFlatWireToolNameLen then sanitized else appendHashSuffix sanitized canonicalName

def canonicalNameForDisambiguation (toolName : ToolName) (attempt : ℕ) : ToolName :=
  if attempt = 0 then toolName else ⟨toolName.name ++ '#' :: Nat.toDigits 10 attempt, toolName.nameSpace⟩

def flattenedToolName (toolName : ToolName) : Str :=
  match toolName.nameSpace with
  | some nameSpace =>
      if nameSpace.getLast? = some '_' ∨ toolName.name.head? = some '_' then nameSpace ++ toolName.name
      else nameSpace ++ '_' :: toolName.name
  | none => toolName.name

/-! ### The projection -/

variable {σ : Type}

def projectFunctionToolsForFlatWireApi : ToolSpec σ → List (FlatWireFunctionTool σ)
  | .function tool =>
      [{ wireName := providerValidWireName tool.name (.plain tool.name)
         canonicalName := .plain tool.name
         sourceKind := .function
         description := tool.description
         parameters := tool.parameters }]
  | .nameSpace name tools => tools.map fun tool =>
      { wireName := providerValidWireName (flattenedToolName (.namespaced name tool.name)) (.namespaced name tool.name)
        canonicalName := .namespaced name tool.name
        sourceKind := .namespaceFunction
        description := tool.description
        parameters := tool.parameters }
  | .toolSearch description parameters =>
      [{ wireName := toolSearchToolName
         canonicalName := .plain toolSearchToolName
         sourceKind := .toolSearch
         description := description
         parameters := parameters }]
  | .localShell => []
  | .imageGeneration => []
  | .webSearch => []
  | .freeform _ => []

/-- The indexes of the tools with each name. -/
def toolsByWireName (projected : List (FlatWireFunctionTool σ)) : HashMap Str (List ℕ) :=
  projected.zipIdx.foldl (fun m e => m.insert e.1.wireName ((m.get e.1.wireName).getD [] ++ [e.2])) HashMap.empty

def collidingIndexes (projected : List (FlatWireFunctionTool σ)) : List ℕ :=
  (((toolsByWireName projected).entries.map Prod.snd).filter fun indexes => indexes.length > 1).flatten

/-- What is tried for a tool: its name, unless that collides, and then names with a hash. -/
def request (colliding : List ℕ) (tool : FlatWireFunctionTool σ) (idx : ℕ) : Request (FlatWireFunctionTool σ) where
  own := if idx ∈ colliding then none else some tool
  candidate attempt := { tool with
    wireName := appendHashSuffix tool.wireName (canonicalNameForDisambiguation tool.canonicalName attempt) }

/-- The search for a name has no end of its own; `fuel` is the number of attempts it is given. -/
def disambiguateWireNames (fuel : ℕ) (projected : List (FlatWireFunctionTool σ)) :
    Option (List (FlatWireFunctionTool σ)) :=
  assign FlatWireFunctionTool.wireName fuel []
    (projected.zipIdx.map fun e => request (collidingIndexes projected) e.1 e.2)

structure FlatWireToolProjection (σ : Type) where
  functionTools : List (FlatWireFunctionTool σ)
  wireNamesByToolKey : HashMap (ToolName × FlatWireFunctionToolKind) Str
  canonicalNamesByWireName : HashMap Str ToolName
  sourceKindsByWireName : HashMap Str FlatWireFunctionToolKind

namespace FlatWireToolProjection

/-- The maps over tools that have their names. -/
def ofTools (tools : List (FlatWireFunctionTool σ)) : FlatWireToolProjection σ where
  functionTools := tools
  wireNamesByToolKey := HashMap.collect (tools.map fun tool => ((tool.canonicalName, tool.sourceKind), tool.wireName))
  canonicalNamesByWireName := HashMap.collect (tools.map fun tool => (tool.wireName, tool.canonicalName))
  sourceKindsByWireName := HashMap.collect (tools.map fun tool => (tool.wireName, tool.sourceKind))

def new (fuel : ℕ) (specs : List (ToolSpec σ)) : Option (FlatWireToolProjection σ) :=
  (disambiguateWireNames fuel (specs.flatMap projectFunctionToolsForFlatWireApi)).map ofTools

variable (projection : FlatWireToolProjection σ)

def canonicalNameForWireName (wireName : Str) : ToolName :=
  (projection.canonicalNamesByWireName.get wireName).getD (.plain wireName)

def sourceKindForWireName (wireName : Str) : Option FlatWireFunctionToolKind :=
  projection.sourceKindsByWireName.get wireName

def wireNameForToolKey (canonicalName : ToolName) (sourceKind : FlatWireFunctionToolKind) : Str :=
  (projection.wireNamesByToolKey.get (canonicalName, sourceKind)).getD
    (providerValidWireName (flattenedToolName canonicalName) canonicalName)

def wireNameForFunctionTool (canonicalName : ToolName) : Str :=
  projection.wireNameForToolKey canonicalName
    (if canonicalName.nameSpace.isSome then .namespaceFunction else .function)

def wireNameForToolSearch : Str := projection.wireNameForToolKey (.plain toolSearchToolName) .toolSearch

end FlatWireToolProjection

/-! ### The names that are tried -/

open FlatWireToolProjection

theorem length_hexDigits : ∀ width n : ℕ, (hexDigits width n).length = width
  | 0, _ => rfl
  | width + 1, n => by rw [hexDigits, length_append, length_hexDigits, length_singleton]

theorem isWireChar_hexDigits : ∀ width n : ℕ, (hexDigits width n).all isWireChar
  | 0, _ => rfl
  | width + 1, n => by
    have hdigit : ∀ a : Fin 16, isWireChar a.val.digitChar = true := by decide
    rw [hexDigits, all_append, isWireChar_hexDigits, Bool.true_and, all_cons, all_nil, Bool.and_true]
    exact hdigit ⟨n % 16, Nat.mod_lt _ (by decide)⟩

/-- The name with a given hash. -/
def hashedName (wireName : Str) (hash : Fin (2 ^ 32)) : Str := withSuffix wireName (hexDigits hashSuffixLen hash)

theorem appendHashSuffix_eq (wireName : Str) (canonicalName : ToolName) :
    appendHashSuffix wireName canonicalName = hashedName wireName (hashToolName canonicalName).toFin := by
  unfold appendHashSuffix stableToolNameSuffix hashedName
  rw [BitVec.val_toFin]

/-! ### Valid names -/

/-- What a provider accepts. -/
structure ValidWireName (name : Str) : Prop where
  nonempty : name ≠ []
  short : len name ≤ maxFlatWireToolNameLen
  chars : name.all isWireChar

theorem len_eq_length {name : Str} (h : name.all isWireChar) : len name = name.length := by
  refine len_of_ascii fun c hc => ?_
  have hchar := all_eq_true.mp h c hc
  unfold isWireChar at hchar
  rw [Bool.or_eq_true, Bool.or_eq_true, decide_eq_true_eq, decide_eq_true_eq] at hchar
  obtain (halnum | rfl) | rfl := hchar
  · exact val_le_of_isAlphanum halnum
  · decide
  · decide

variable {wireName : Str}

theorem validWireName_withSuffix {suffix : Str} (hname : wireName.all isWireChar)
    (hsuffix : suffix.all isWireChar) (hlength : suffix.length = hashSuffixLen) :
    ValidWireName (withSuffix wireName suffix) := by
  have hshort : ∀ kept : Str, kept.all isWireChar = true → kept.length ≤ 54 →
      ValidWireName (kept ++ hashSeparator ++ suffix) := by
    intro kept hkept hle
    have hall : (kept ++ hashSeparator ++ suffix).all isWireChar = true := by
      rw [all_append, all_append, hkept, hsuffix]
      decide
    refine ⟨?_, ?_, hall⟩
    · intro hnil
      rw [append_assoc] at hnil
      exact absurd (append_eq_nil_iff.mp hnil).2 (cons_ne_nil _ _)
    · rw [len_eq_length hall, length_append, length_append, hlength]
      show kept.length + 2 + 8 ≤ 64
      omega
  unfold withSuffix
  dsimp only
  split_ifs with hlong
  · refine hshort _ ?_ (length_take_le _ _)
    exact all_eq_true.mpr fun c hc => all_eq_true.mp hname c (mem_of_mem_take hc)
  · refine hshort _ hname ?_
    rw [len_eq_length hname] at hlong
    exact Nat.le_of_not_lt hlong

theorem validWireName_appendHashSuffix (h : wireName.all isWireChar)
    (canonicalName : ToolName) : ValidWireName (appendHashSuffix wireName canonicalName) :=
  validWireName_withSuffix h (isWireChar_hexDigits _ _) (length_hexDigits _ _)

theorem validWireName_providerValidWireName (candidate : Str) (canonicalName : ToolName) :
    ValidWireName (providerValidWireName candidate canonicalName) := by
  have hsanitized : sanitizeProviderToolName candidate ≠ [] ∧
      (sanitizeProviderToolName candidate).all isWireChar = true := by
    unfold sanitizeProviderToolName
    dsimp only
    split_ifs with hnil
    · decide
    · refine ⟨hnil, all_eq_true.mpr fun c hc => ?_⟩
      obtain ⟨d, -, rfl⟩ := mem_map.mp hc
      split_ifs with hd
      · exact hd
      · decide
  unfold providerValidWireName
  dsimp only
  split_ifs with hshort
  · exact ⟨hsanitized.1, hshort, hsanitized.2⟩
  · exact validWireName_appendHashSuffix hsanitized.2 canonicalName

/-- What is known of a tool before names are made distinct: its name is valid, and its kind follows from its canonical
name unless it is the search for tools. -/
structure Projected (tool : FlatWireFunctionTool σ) : Prop where
  valid : ValidWireName tool.wireName
  search : tool.sourceKind = .toolSearch → tool.canonicalName = .plain toolSearchToolName
  kind : tool.sourceKind ≠ .toolSearch →
    (if tool.canonicalName.nameSpace.isSome then .namespaceFunction else .function) = tool.sourceKind

variable {tool : FlatWireFunctionTool σ}

theorem projected_of_mem {spec : ToolSpec σ}
    (h : tool ∈ projectFunctionToolsForFlatWireApi spec) : Projected tool := by
  cases spec with
  | function t =>
    obtain rfl := mem_singleton.mp h
    exact ⟨validWireName_providerValidWireName _ _, (fun hkind => by cases hkind), fun _ => rfl⟩
  | nameSpace name tools =>
    obtain ⟨t, -, rfl⟩ := mem_map.mp h
    exact ⟨validWireName_providerValidWireName _ _, (fun hkind => by cases hkind), fun _ => rfl⟩
  | toolSearch description parameters =>
    obtain rfl := mem_singleton.mp h
    have hvalid : ValidWireName toolSearchToolName := ⟨by decide, by decide, by decide⟩
    exact ⟨hvalid, fun _ => rfl, fun hkind => absurd rfl hkind⟩
  | localShell | imageGeneration | webSearch | freeform => exact absurd h not_mem_nil

/-! ### Distinct names -/

/-- All of a tool but its name on the wire. -/
def unnamed (tool : FlatWireFunctionTool σ) : ToolName × FlatWireFunctionToolKind × Str × σ :=
  (tool.canonicalName, tool.sourceKind, tool.description, tool.parameters)

variable {colliding : List ℕ} {given : FlatWireFunctionTool σ} {idx : ℕ}

theorem unnamed_of_offers (h : (request colliding tool idx).Offers given) : unnamed given = unnamed tool := by
  obtain hown | ⟨attempt, rfl⟩ := h
  · unfold request at hown
    dsimp only at hown
    split_ifs at hown
    exact some.inj hown ▸ rfl
  · rfl

theorem map_unnamed_of_offers : ∀ {l : List (FlatWireFunctionTool σ × ℕ)} {tools : List (FlatWireFunctionTool σ)},
    List.Forall₂ (fun e given => (request colliding e.1 e.2).Offers given) l tools →
      tools.map unnamed = (l.map Prod.fst).map unnamed
  | [], _, .nil => rfl
  | e :: l, given :: tools, .cons hoffer hoffers => by
    rw [map_cons, map_cons, map_cons, unnamed_of_offers hoffer, map_unnamed_of_offers hoffers]

variable {fuel : ℕ} {projected tools : List (FlatWireFunctionTool σ)}

/-- What is returned: tools that differ from those that were projected in their names only. -/
theorem disambiguateWireNames_eq_some (h : disambiguateWireNames fuel projected = some tools) :
    (tools.map FlatWireFunctionTool.wireName).Nodup ∧ tools.map unnamed = projected.map unnamed ∧
      List.Forall₂ (fun e given => (request (collidingIndexes projected) e.1 e.2).Offers given) projected.zipIdx
        tools := by
  obtain ⟨hnodup, -, hoffers⟩ := assign_sound h
  rw [forall₂_map_left_iff] at hoffers
  refine ⟨hnodup, ?_, hoffers⟩
  rw [map_unnamed_of_offers hoffers, zipIdx_map_fst]

/-! ### Tools that collide -/

theorem get_toolsByWireName (name : Str) (l : List (FlatWireFunctionTool σ × ℕ)) : ∀ m : HashMap Str (List ℕ),
    ((l.foldl (fun m e => m.insert e.1.wireName ((m.get e.1.wireName).getD [] ++ [e.2])) m).get name).getD [] =
      (m.get name).getD [] ++ (l.filter fun e => e.1.wireName = name).map Prod.snd := by
  induction l with
  | nil => exact fun m => (append_nil _).symm
  | cons e l ih =>
    intro m
    rw [foldl_cons, ih, HashMap.get_insert, filter_cons]
    by_cases hname : e.1.wireName = name
    · rw [if_pos hname.symm, if_pos (decide_eq_true hname), hname, getD_some, map_cons, append_assoc]
      rfl
    · rw [if_neg fun heq => hname heq.symm, if_neg (fun hdec => hname (of_decide_eq_true hdec))]

theorem mem_collidingIndexes {e : FlatWireFunctionTool σ × ℕ} (he : e ∈ projected.zipIdx)
    (h : 1 < (projected.zipIdx.filter fun other => other.1.wireName = e.1.wireName).length) :
    e.2 ∈ collidingIndexes projected := by
  have hget : ((toolsByWireName projected).get e.1.wireName).getD [] =
      (projected.zipIdx.filter fun other => other.1.wireName = e.1.wireName).map Prod.snd :=
    get_toolsByWireName e.1.wireName projected.zipIdx HashMap.empty
  have hmem : e.2 ∈ (projected.zipIdx.filter fun other => other.1.wireName = e.1.wireName).map Prod.snd :=
    mem_map_of_mem (mem_filter.mpr ⟨he, decide_eq_true rfl⟩)
  rw [← length_map (f := Prod.snd)] at h
  rw [← hget] at hmem h
  cases hsome : (toolsByWireName projected).get e.1.wireName with
  | none =>
    rw [hsome] at hmem
    exact absurd hmem not_mem_nil
  | some indexes =>
    rw [hsome, getD_some] at hmem h
    have hentry : indexes ∈ (toolsByWireName projected).entries.map Prod.snd :=
      mem_map_of_mem (f := Prod.snd) (HashMap.get_eq_some.mp hsome)
    exact mem_flatten.mpr ⟨indexes, mem_filter.mpr ⟨hentry, decide_eq_true h⟩, hmem⟩

theorem collidingIndexes_of_nodup (h : (projected.map FlatWireFunctionTool.wireName).Nodup) :
    collidingIndexes projected = [] := by
  have hnames : projected.zipIdx.map (fun e => e.1.wireName) = projected.map FlatWireFunctionTool.wireName := by
    conv_rhs => rw [← zipIdx_map_fst 0 projected, List.map_map]
    rfl
  refine flatten_eq_nil_iff.mpr fun indexes hindexes => ?_
  obtain ⟨hmem, hlong⟩ := mem_filter.mp hindexes
  obtain ⟨⟨name, indexes⟩, hentry, rfl⟩ := mem_map.mp hmem
  have hget : ((toolsByWireName projected).get name).getD [] =
      (projected.zipIdx.filter fun e => e.1.wireName = name).map Prod.snd :=
    get_toolsByWireName name projected.zipIdx HashMap.empty
  rw [HashMap.get_eq_some.mpr hentry, getD_some] at hget
  have hcount : indexes.length ≤ 1 := by
    rw [hget, length_map, ← countP_eq_length_filter]
    calc projected.zipIdx.countP (fun e => e.1.wireName = name)
        = (projected.zipIdx.map fun e => e.1.wireName).count name := by
          rw [count, countP_map]
          exact countP_congr fun e _ => by simp
      _ ≤ 1 := nodup_iff_count_le_one.mp (hnames ▸ h) name
  exact absurd (of_decide_eq_true hlong) (Nat.not_lt.mpr hcount)

/-- Names that do not collide are kept. -/
theorem disambiguateWireNames_of_nodup (h : (projected.map FlatWireFunctionTool.wireName).Nodup) (fuel : ℕ) :
    disambiguateWireNames fuel projected = some projected := by
  refine assign_own ?_ h fun _ _ => not_mem_nil
  have hown : List.Forall₂ (fun e tool => (request (collidingIndexes projected) e.1 e.2).own = some tool)
      projected.zipIdx (projected.zipIdx.map Prod.fst) := by
    rw [collidingIndexes_of_nodup h, forall₂_map_right_iff, forall₂_same]
    exact fun e _ => by rw [request, if_neg not_mem_nil]
  rw [zipIdx_map_fst] at hown
  exact forall₂_map_left_iff.mpr hown

/-- There are no more than `2 ^ 32` names for tools that are all the same. -/
theorem disambiguateWireNames_replicate {n : ℕ} (h : 2 ^ 32 < n) (tool : FlatWireFunctionTool σ) (fuel : ℕ) :
    disambiguateWireNames fuel (replicate n tool) = none := by
  cases hsome : disambiguateWireNames fuel (replicate n tool) with
  | none => rfl
  | some tools =>
    exfalso
    obtain ⟨hnodup, hunnamed, hoffers⟩ := disambiguateWireNames_eq_some hsome
    have hsame : ∀ e ∈ (replicate n tool).zipIdx, e.1 = tool := fun e he =>
      eq_of_mem_replicate (fst_mem_of_mem_zipIdx he)
    have hcolliding : ∀ e ∈ (replicate n tool).zipIdx, e.2 ∈ collidingIndexes (replicate n tool) := by
      intro e he
      refine mem_collidingIndexes he ?_
      have hall : ((replicate n tool).zipIdx.filter fun other => other.1.wireName = e.1.wireName) =
          (replicate n tool).zipIdx :=
        filter_eq_self.mpr fun other hother => decide_eq_true (by rw [hsame other hother, hsame e he])
      rw [hall, length_zipIdx, length_replicate]
      omega
    have hhashed : ∀ given ∈ tools, given.wireName ∈ Finset.univ.image (hashedName tool.wireName) := by
      refine forall_given hoffers fun e he given hgiven => ?_
      obtain hown | ⟨attempt, rfl⟩ := hgiven
      · rw [request, if_pos (hcolliding e he)] at hown
        cases hown
      · rw [hsame e he]
        exact Finset.mem_image.mpr ⟨_, Finset.mem_univ _, (appendHashSuffix_eq _ _).symm⟩
    have hsubset : (tools.map FlatWireFunctionTool.wireName).toFinset ⊆
        Finset.univ.image (hashedName tool.wireName) := by
      intro name hname
      obtain ⟨given, hgiven, rfl⟩ := mem_map.mp (mem_toFinset.mp hname)
      exact hhashed given hgiven
    have hcard := (Finset.card_le_card hsubset).trans Finset.card_image_le
    rw [toFinset_card_of_nodup hnodup, Finset.card_univ, Fintype.card_fin, length_map] at hcard
    have hlength := congrArg length hunnamed
    rw [length_map, length_map, length_replicate] at hlength
    omega

/-! ### Encoding and decoding -/

section Maps
variable {κ υ : Type} [DecidableEq κ] (key : FlatWireFunctionTool σ → κ) (value : FlatWireFunctionTool σ → υ)

variable {tool : FlatWireFunctionTool σ}

theorem get_collect_tools {a b : List (FlatWireFunctionTool σ)} (h : ∀ other ∈ b, key other ≠ key tool) :
    (HashMap.collect ((a ++ tool :: b).map fun t => (key t, value t))).get (key tool) = some (value tool) := by
  rw [List.map_append, List.map_cons]
  refine HashMap.get_collect ?_
  rw [List.map_map]
  intro hmem
  obtain ⟨other, hother, heq⟩ := mem_map.mp hmem
  exact h other hother heq

theorem get_collect_once {tools : List (FlatWireFunctionTool σ)} (htool : tool ∈ tools)
    (honce : (tools.filter fun other => key other = key tool).length = 1) :
    (HashMap.collect (tools.map fun t => (key t, value t))).get (key tool) = some (value tool) := by
  obtain ⟨a, b, rfl⟩ := append_of_mem htool
  refine get_collect_tools key value fun other hother heq => ?_
  have hself : decide (key tool = key tool) = true := decide_eq_true rfl
  rw [filter_append, filter_cons, if_pos hself, length_append, length_cons] at honce
  have hpos : 0 < (b.filter fun other => key other = key tool).length :=
    length_pos_of_mem (mem_filter.mpr ⟨hother, decide_eq_true heq⟩)
  omega

end Maps

/-- The name under which a tool is called: that of the search for tools, or the one for its canonical name. -/
def FlatWireToolProjection.wireNameForTool (projection : FlatWireToolProjection σ) (tool : FlatWireFunctionTool σ) :
    Str :=
  if tool.sourceKind = .toolSearch then projection.wireNameForToolSearch
  else projection.wireNameForFunctionTool tool.canonicalName

/-- What the projection of some specifications is for. -/
structure Sound (specs : List (ToolSpec σ)) (projection : FlatWireToolProjection σ) : Prop where
  tools : projection.functionTools.map unnamed = (specs.flatMap projectFunctionToolsForFlatWireApi).map unnamed
  distinct : (projection.functionTools.map FlatWireFunctionTool.wireName).Nodup
  valid : ∀ tool ∈ projection.functionTools, ValidWireName tool.wireName
  decoded : ∀ tool ∈ projection.functionTools,
    projection.canonicalNameForWireName tool.wireName = tool.canonicalName ∧
      projection.sourceKindForWireName tool.wireName = some tool.sourceKind
  encoded : ∀ tool ∈ projection.functionTools, (projection.functionTools.filter fun other =>
      (other.canonicalName, other.sourceKind) = (tool.canonicalName, tool.sourceKind)).length = 1 →
    projection.wireNameForTool tool = tool.wireName
  roundTrip : ∀ tool ∈ projection.functionTools, (projection.functionTools.filter fun other =>
      (other.canonicalName, other.sourceKind) = (tool.canonicalName, tool.sourceKind)).length = 1 →
    projection.canonicalNameForWireName (projection.wireNameForTool tool) = tool.canonicalName ∧
      projection.sourceKindForWireName (projection.wireNameForTool tool) = some tool.sourceKind

theorem validWireName_of_offers
    (hvalid : ValidWireName tool.wireName) (h : (request colliding tool idx).Offers given) :
    ValidWireName given.wireName := by
  obtain hown | ⟨attempt, rfl⟩ := h
  · unfold request at hown
    dsimp only at hown
    split_ifs at hown
    exact some.inj hown ▸ hvalid
  · exact validWireName_appendHashSuffix hvalid.chars _

theorem decoded_of_nodup (hnodup : (tools.map FlatWireFunctionTool.wireName).Nodup) (htool : tool ∈ tools) :
    (ofTools tools).canonicalNameForWireName tool.wireName = tool.canonicalName ∧
      (ofTools tools).sourceKindForWireName tool.wireName = some tool.sourceKind := by
  obtain ⟨a, b, rfl⟩ := append_of_mem htool
  rw [map_append, map_cons] at hnodup
  have hlast : ∀ other ∈ b, other.wireName ≠ tool.wireName := fun other hother heq =>
    (nodup_cons.mp (nodup_append.mp hnodup).2.1).1 (heq ▸ mem_map_of_mem hother)
  constructor
  · rw [canonicalNameForWireName, ofTools,
      get_collect_tools _ _ hlast]
    rfl
  · exact get_collect_tools _ _ hlast

theorem wireNameForTool_eq (h : Projected tool) (projection : FlatWireToolProjection σ) :
    projection.wireNameForTool tool = projection.wireNameForToolKey tool.canonicalName tool.sourceKind := by
  unfold wireNameForTool
  split_ifs with hkind
  · rw [wireNameForToolSearch, h.search hkind, hkind]
  · rw [wireNameForFunctionTool, h.kind hkind]

theorem sound_of_new {specs : List (ToolSpec σ)} {projection : FlatWireToolProjection σ}
    (h : new fuel specs = some projection) : Sound specs projection := by
  obtain ⟨tools, htools, rfl⟩ := map_eq_some_iff.mp h
  obtain ⟨hnodup, hunnamed, hoffers⟩ := disambiguateWireNames_eq_some htools
  have hprojected : ∀ tool ∈ specs.flatMap projectFunctionToolsForFlatWireApi, Projected tool := fun tool htool => by
    obtain ⟨spec, -, hspec⟩ := mem_flatMap.mp htool
    exact projected_of_mem hspec
  have hcalled : ∀ tool ∈ tools, (ofTools tools).wireNameForTool tool =
      (ofTools tools).wireNameForToolKey tool.canonicalName tool.sourceKind := by
    intro tool htool
    have hmem := mem_map_of_mem (f := unnamed) htool
    rw [hunnamed] at hmem
    obtain ⟨before, hbefore, heq⟩ := mem_map.mp hmem
    have hname : before.canonicalName = tool.canonicalName := congrArg (·.1) heq
    have hkind : before.sourceKind = tool.sourceKind := congrArg (·.2.1) heq
    have hcall := wireNameForTool_eq (hprojected before hbefore) (.ofTools tools)
    rw [hname, hkind] at hcall
    rw [← hcall, wireNameForTool, wireNameForTool, hname, hkind]
  have hencoded : ∀ tool ∈ tools, (tools.filter fun other =>
      (other.canonicalName, other.sourceKind) = (tool.canonicalName, tool.sourceKind)).length = 1 →
        (ofTools tools).wireNameForTool tool = tool.wireName := by
    intro tool htool honce
    have hget := get_collect_once (fun t => (t.canonicalName, t.sourceKind)) FlatWireFunctionTool.wireName htool honce
    rw [hcalled tool htool, wireNameForToolKey, ofTools, hget]
    rfl
  refine ⟨hunnamed, hnodup, ?_, fun tool htool => decoded_of_nodup hnodup htool, hencoded, ?_⟩
  · refine forall_given hoffers fun e he given hgiven => ?_
    exact validWireName_of_offers (hprojected e.1 (fst_mem_of_mem_zipIdx he)).valid hgiven
  · intro tool htool honce
    rw [hencoded tool htool honce]
    exact decoded_of_nodup hnodup htool

/-- **Tools on the wire.** A projection that is built is sound, for any tools and any number of attempts.  If no two
tools have the same name before names are made distinct, it is built. -/
theorem projection_sound (specs : List (ToolSpec σ)) :
    (∀ fuel projection, new fuel specs = some projection → Sound specs projection) ∧
      (((specs.flatMap projectFunctionToolsForFlatWireApi).map FlatWireFunctionTool.wireName).Nodup →
        ∃ projection, ∀ fuel, new fuel specs = some projection) := by
  refine ⟨fun _ _ => sound_of_new, fun h => ⟨ofTools (specs.flatMap projectFunctionToolsForFlatWireApi), fun fuel => ?_⟩⟩
  rw [new, disambiguateWireNames_of_nodup h]
  rfl

/-- Two tools with one name on the wire. -/
theorem projection_sound_colliding : ∃ projection,
    new 1 [ToolSpec.function ⟨"a b", [], ()⟩, ToolSpec.function ⟨"a_b", [], ()⟩] = some projection ∧
      Sound [ToolSpec.function ⟨"a b", [], ()⟩, ToolSpec.function ⟨"a_b", [], ()⟩] projection := by
  have hbuilt : (new 1 [ToolSpec.function ⟨"a b", [], ()⟩,
      ToolSpec.function ⟨"a_b", [], ()⟩]).isSome = true := by decide +kernel
  obtain ⟨projection, hnew⟩ := isSome_iff_exists.mp hbuilt
  exact ⟨projection, hnew, (projection_sound _).1 1 projection hnew⟩

/-- One tool, `2 ^ 32 + 1` times: all the hashes are taken, and the search for a name never ends. -/
theorem not_projected_repeated :
    (replicate (2 ^ 32 + 1) (ToolSpec.function (σ := Unit) ⟨"a", [], ()⟩)).length = 2 ^ 32 + 1 ∧ ∀ fuel,
    new fuel (replicate (2 ^ 32 + 1) (ToolSpec.function ⟨"a", [], ()⟩)) = none := by
  refine ⟨length_replicate, ?_⟩
  have hprojected : ∀ n : ℕ, (replicate n (ToolSpec.function (σ := Unit) ⟨"a", [], ()⟩)).flatMap
      projectFunctionToolsForFlatWireApi = replicate n
        { wireName := "a", canonicalName := .plain "a", sourceKind := .function, description := [],
          parameters := () } := by
    intro n
    rw [flatMap_replicate]
    exact flatten_replicate_singleton
  intro fuel
  rw [new, hprojected, disambiguateWireNames_replicate (Nat.lt_succ_self _)]
  rfl

end OpenAgere.WireProjection
