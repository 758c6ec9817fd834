import Mathlib.Data.List.Sort
import OpenAgere.FreshNames
import OpenAgere.HashMap
import OpenAgere.Utf8

/-! # Qualified names of tools

`agere-mcp/src/tools.rs`: the tools of all servers are put into one map, under names that the model can call.  Names
are sanitized; namespaces that collide then are given a part of a hash, and so are tools that collide after that; in
the order of the identities, each tool is given its name, or one that a hash is fitted into if the name is too long or
was given to another tool.  The hash is any function to texts of 40 hexadecimal digits.

If the map is returned, it has one entry for each identity, under a name of at most 64 bytes, and the order of the
tools does not matter (`qualifyTools_sound`). -/

namespace OpenAgere.ToolQualification

open List FreshNames Utf8

def nul : Char := Char.ofNat 0

/-- What is read of a tool; `τ` is all else that is kept with it. -/
structure ToolInfo (τ : Type) where
  serverName : Str
  callableName : Str
  callableNamespace : Str
  toolName : Str
  connectorId : Option Str
  other : τ

def isHexDigit (c : Char) : Bool := c.isDigit || "abcdef".toList.contains c

/-- The hash of a text, in hexadecimal digits. -/
structure Digest where
  sha1Hex : Str → Str
  length : ∀ s, (sha1Hex s).length = 40
  digits : ∀ s, (sha1Hex s).all isHexDigit

def mcpToolNameDelimiter : Str := "__"

def maxToolNameLength : ℕ := 64

def callableNameHashLen : ℕ := 12

def isNameChar (c : Char) : Bool := c.isAlphanum || c = '_'

def sanitizeResponsesApiToolName (name : Str) : Str :=
  let sanitized := name.map fun c => if isNameChar c then c else '_'
  if sanitized = [] then "_" else sanitized

/-! ### Names with a hash -/

open ToolInfo

section Hashed
variable (digest : Digest)

def callableNameHashSuffix (rawIdentity : Str) : Str :=
  '_' :: (digest.sha1Hex rawIdentity).take callableNameHashLen

def appendHashSuffix (value rawIdentity : Str) : Str := value ++ callableNameHashSuffix digest rawIdentity

def appendNamespaceHashSuffix (nameSpace rawIdentity : Str) : Str :=
  if mcpToolNameDelimiter.isSuffixOf nameSpace then
    nameSpace.take (nameSpace.length - mcpToolNameDelimiter.length) ++ callableNameHashSuffix digest rawIdentity ++
      mcpToolNameDelimiter
  else appendHashSuffix digest nameSpace rawIdentity

def truncateName (value : Str) (maxLen : ℕ) : Str := value.take maxLen

def fitCallablePartsWithHash (nameSpace toolName rawIdentity : Str) : Str × Str :=
  let suffix := callableNameHashSuffix digest rawIdentity
  let maxToolLen := maxToolNameLength - len nameSpace
  if maxToolLen ≥ len suffix then (nameSpace, truncateName toolName (maxToolLen - len suffix) ++ suffix)
  else (truncateName nameSpace (maxToolNameLength - len suffix), suffix)

/-- What is hashed in an attempt; attempts are counted in 32 bits, up to the largest number. -/
def hashInput (rawIdentity : Str) (attempt : ℕ) : Str :=
  if attempt = 0 then rawIdentity else rawIdentity ++ nul :: Nat.toDigits 10 (min attempt (2 ^ 32 - 1))

end Hashed

/-! ### Candidates -/

variable {τ : Type}

namespace ToolInfo

def rawNamespaceIdentity (tool : ToolInfo τ) : Str :=
  tool.serverName ++ nul :: (tool.callableNamespace ++ nul :: tool.connectorId.getD [])

def rawToolIdentity (tool : ToolInfo τ) : Str :=
  tool.rawNamespaceIdentity ++ nul :: (tool.callableName ++ nul :: tool.toolName)

end ToolInfo

structure CallableToolCandidate (τ : Type) where
  tool : ToolInfo τ
  rawNamespaceIdentity : Str
  rawToolIdentity : Str
  callableNamespace : Str
  callableName : Str

namespace CallableToolCandidate

def ofTool (tool : ToolInfo τ) : CallableToolCandidate τ where
  tool := tool
  rawNamespaceIdentity := tool.rawNamespaceIdentity
  rawToolIdentity := tool.rawToolIdentity
  callableNamespace := sanitizeResponsesApiToolName tool.callableNamespace
  callableName := sanitizeResponsesApiToolName tool.callableName

def parts (candidate : CallableToolCandidate τ) : Str × Str := (candidate.callableNamespace, candidate.callableName)

end CallableToolCandidate

/-- The first tool of every identity. -/
def collectCandidates : List Str → List (ToolInfo τ) → List (CallableToolCandidate τ)
  | _, [] => []
  | seenRawNames, tool :: tools =>
      if tool.rawToolIdentity ∈ seenRawNames then collectCandidates seenRawNames tools
      else .ofTool tool :: collectCandidates (tool.rawToolIdentity :: seenRawNames) tools

section Colliding
variable {κ : Type} [DecidableEq κ] (base : CallableToolCandidate τ → κ) (identity : CallableToolCandidate τ → Str)

def addIdentity (m : HashMap κ (List Str)) (c : CallableToolCandidate τ) : HashMap κ (List Str) :=
  m.insert (base c) (((m.get (base c)).getD []).insert (identity c))

/-- The identities that have each base. -/
def identitiesByBase (candidates : List (CallableToolCandidate τ)) : HashMap κ (List Str) :=
  candidates.foldl (addIdentity base identity) HashMap.empty

/-- The bases that more than one identity has. -/
def colliding (candidates : List (CallableToolCandidate τ)) : List κ :=
  ((identitiesByBase base identity candidates).entries.filter fun e => e.2.length > 1).map Prod.fst

end Colliding

def collidingNamespaces (candidates : List (CallableToolCandidate τ)) : List Str :=
  colliding CallableToolCandidate.callableNamespace CallableToolCandidate.rawNamespaceIdentity candidates

def collidingTools (candidates : List (CallableToolCandidate τ)) : List (Str × Str) :=
  colliding CallableToolCandidate.parts CallableToolCandidate.rawToolIdentity candidates

def separateNamespaces (digest : Digest) (candidates : List (CallableToolCandidate τ)) :
    List (CallableToolCandidate τ) :=
  candidates.map fun c =>
    if c.callableNamespace ∈ collidingNamespaces candidates then
      { c with callableNamespace := appendNamespaceHashSuffix digest c.callableNamespace c.rawNamespaceIdentity }
    else c

def separateTools (digest : Digest) (candidates : List (CallableToolCandidate τ)) : List (CallableToolCandidate τ) :=
  candidates.map fun c =>
    if c.parts ∈ collidingTools candidates then
      { c with callableName := appendHashSuffix digest c.callableName c.rawToolIdentity }
    else c

/-! ### The map -/

/-- The order of texts: code points are ordered as the bytes that encode them. -/
def strLe : Str → Str → Bool
  | [], _ => true
  | _ :: _, [] => false
  | c :: s, d :: t => if c = d then strLe s t else decide (c.toNat < d.toNat)

/-- The order of the identities. -/
def Before (left right : CallableToolCandidate τ) : Prop := strLe left.rawToolIdentity right.rawToolIdentity

instance decidableBefore : DecidableRel (@Before τ) := fun left right =>
  inferInstanceAs (Decidable (strLe left.rawToolIdentity right.rawToolIdentity = true))

def qualifiedName (tool : ToolInfo τ) : Str := tool.callableNamespace ++ tool.callableName

def withParts (tool : ToolInfo τ) (parts : Str × Str) : ToolInfo τ :=
  { tool with callableNamespace := parts.1, callableName := parts.2 }

/-- `unique_callable_parts`: the name, unless it is too long, and then names that a hash is fitted into. -/
def request (digest : Digest) (candidate : CallableToolCandidate τ) : Request (ToolInfo τ) where
  own :=
    if len (candidate.callableNamespace ++ candidate.callableName) ≤ maxToolNameLength then
      some (withParts candidate.tool candidate.parts)
    else none
  candidate attempt := withParts candidate.tool
    (fitCallablePartsWithHash digest candidate.callableNamespace candidate.callableName
      (hashInput candidate.rawToolIdentity attempt))

def sortedCandidates (digest : Digest) (tools : List (ToolInfo τ)) : List (CallableToolCandidate τ) :=
  (separateTools digest (separateNamespaces digest (collectCandidates [] tools))).insertionSort Before

/-- The search for a name has no end of its own; `fuel` is the number of attempts it is given. -/
def qualifyTools (digest : Digest) (fuel : ℕ) (tools : List (ToolInfo τ)) : Option (HashMap Str (ToolInfo τ)) :=
  (assign qualifiedName fuel [] ((sortedCandidates digest tools).map (request digest))).map fun qualified =>
    HashMap.collect (qualified.map fun tool => (qualifiedName tool, tool))

/-! ### Identities -/

namespace ToolInfo

/-- What a tool is known by: a connector that is absent is one without a name. -/
def identity (tool : ToolInfo τ) : Str × Str × Str × Str × Str :=
  (tool.serverName, tool.callableNamespace, tool.connectorId.getD [], tool.callableName, tool.toolName)

/-- No name has a NUL character. -/
structure NoNul (tool : ToolInfo τ) : Prop where
  serverName : nul ∉ tool.serverName
  callableNamespace : nul ∉ tool.callableNamespace
  connectorId : nul ∉ tool.connectorId.getD []
  callableName : nul ∉ tool.callableName
  toolName : nul ∉ tool.toolName

theorem splitOn_rawToolIdentity {tool : ToolInfo τ} (h : tool.NoNul) : Text.splitOn nul tool.rawToolIdentity =
    [tool.serverName, tool.callableNamespace, tool.connectorId.getD [], tool.callableName, tool.toolName] := by
  have hassoc : tool.rawToolIdentity = tool.serverName ++ nul :: (tool.callableNamespace ++ nul ::
      (tool.connectorId.getD [] ++ nul :: (tool.callableName ++ nul :: tool.toolName))) := by
    rw [rawToolIdentity, rawNamespaceIdentity, append_assoc, cons_append, append_assoc, cons_append]
  rw [hassoc, Text.splitOn_append _ h.serverName, Text.splitOn_append _ h.callableNamespace,
    Text.splitOn_append _ h.connectorId, Text.splitOn_append _ h.callableName, Text.splitOn_of_not_mem h.toolName]

theorem rawToolIdentity_eq_iff {a b : ToolInfo τ} (ha : a.NoNul) (hb : b.NoNul) :
    a.rawToolIdentity = b.rawToolIdentity ↔ a.identity = b.identity := by
  constructor
  · intro h
    have hsplit := splitOn_rawToolIdentity ha
    rw [h, splitOn_rawToolIdentity hb] at hsplit
    obtain ⟨h1, h2, h3, h4, h5⟩ : _ ∧ _ ∧ _ ∧ _ ∧ _ := by
      simpa only [cons.injEq, and_true] using hsplit
    rw [identity, identity, h1, h2, h3, h4, h5]
  · intro h
    unfold identity at h
    simp only [Prod.mk.injEq] at h
    obtain ⟨h1, h2, h3, h4, h5⟩ := h
    rw [rawToolIdentity, rawToolIdentity, rawNamespaceIdentity, rawNamespaceIdentity, h1, h2, h3, h4, h5]

theorem nodup_rawToolIdentity_iff : ∀ {tools : List (ToolInfo τ)}, (∀ tool ∈ tools, tool.NoNul) →
    ((tools.map rawToolIdentity).Nodup ↔ (tools.map identity).Nodup)
  | [], _ => iff_of_true nodup_nil nodup_nil
  | tool :: tools, h => by
    have ih := nodup_rawToolIdentity_iff fun t ht => h t (mem_cons_of_mem tool ht)
    rw [map_cons, map_cons, nodup_cons, nodup_cons, ih, mem_map, mem_map]
    refine and_congr_left fun _ => not_congr (exists_congr fun t => and_congr_right fun ht => ?_)
    exact rawToolIdentity_eq_iff (h t (mem_cons_of_mem tool ht)) (h tool mem_cons_self)

end ToolInfo

/-- The candidates are tools of the input, one for each identity. -/
theorem collectCandidates_spec : ∀ (tools : List (ToolInfo τ)) (seen : List Str), ∃ firsts : List (ToolInfo τ),
    collectCandidates seen tools = firsts.map .ofTool ∧ firsts ⊆ tools ∧ (firsts.map rawToolIdentity).Nodup ∧
      (∀ tool ∈ firsts, tool.rawToolIdentity ∉ seen) ∧
      ∀ tool ∈ tools, tool.rawToolIdentity ∈ seen ∨ tool.rawToolIdentity ∈ firsts.map rawToolIdentity
  | [], seen => ⟨[], rfl, List.Subset.refl _, nodup_nil, forall_mem_nil _,
      forall_mem_nil _⟩
  | tool :: tools, seen => by
    rw [collectCandidates]
    split_ifs with hseen
    · obtain ⟨firsts, heq, hsub, hnodup, hfresh, hall⟩ := collectCandidates_spec tools seen
      refine ⟨firsts, heq, subset_cons_of_subset tool hsub, hnodup, hfresh, fun t ht => ?_⟩
      obtain rfl | ht := mem_cons.mp ht
      · exact .inl hseen
      · exact hall t ht
    · obtain ⟨firsts, heq, hsub, hnodup, hfresh, hall⟩ :=
        collectCandidates_spec tools (tool.rawToolIdentity :: seen)
      refine ⟨tool :: firsts, by rw [heq, map_cons], cons_subset_cons tool hsub, ?_, ?_, ?_⟩
      · rw [map_cons, nodup_cons]
        refine ⟨fun hmem => ?_, hnodup⟩
        obtain ⟨t, ht, hraw⟩ := mem_map.mp hmem
        exact hfresh t ht (hraw ▸ mem_cons_self)
      · intro t ht hmem
        obtain rfl | ht := mem_cons.mp ht
        · exact hseen hmem
        · exact hfresh t ht (mem_cons_of_mem _ hmem)
      · intro t ht
        rw [map_cons, mem_cons]
        obtain rfl | ht := mem_cons.mp ht
        · exact .inr (.inl rfl)
        · obtain hmem | hmem := hall t ht
          · obtain hraw | hmem := mem_cons.mp hmem
            · exact .inr (.inl hraw)
            · exact .inl hmem
          · exact .inr (.inr hmem)

theorem collectCandidates_of_nodup : ∀ {tools : List (ToolInfo τ)} {seen : List Str},
    (tools.map rawToolIdentity).Nodup → (∀ tool ∈ tools, tool.rawToolIdentity ∉ seen) →
      collectCandidates seen tools = tools.map .ofTool
  | [], _, _, _ => rfl
  | tool :: tools, seen, hnodup, hfresh => by
    rw [map_cons, nodup_cons] at hnodup
    rw [collectCandidates, if_neg (hfresh tool mem_cons_self), map_cons,
      collectCandidates_of_nodup hnodup.2 fun t ht hmem => ?_]
    obtain hraw | hmem := mem_cons.mp hmem
    · exact hnodup.1 (hraw ▸ mem_map_of_mem ht)
    · exact hfresh t (mem_cons_of_mem tool ht) hmem

/-! ### Collisions -/

section Colliding
variable {κ : Type} [DecidableEq κ] {base : CallableToolCandidate τ → κ} {identity : CallableToolCandidate τ → Str}

variable {m : HashMap κ (List Str)} {k : κ}

theorem mem_addIdentity {c : CallableToolCandidate τ} {x : Str} :
    x ∈ ((addIdentity base identity m c).get k).getD [] ↔
      (base c = k ∧ identity c = x) ∨ x ∈ (m.get k).getD [] := by
  rw [addIdentity, HashMap.get_insert]
  split_ifs with hk
  · rw [Option.getD_some, mem_insert_iff, hk]
    exact or_congr_left ⟨fun hx => ⟨rfl, hx.symm⟩, fun hx => hx.2.symm⟩
  · exact ⟨.inr, fun hx => hx.resolve_left fun hbase => hk hbase.1.symm⟩

theorem nodup_addIdentity (c : CallableToolCandidate τ)
    (h : ∀ k, ((m.get k).getD []).Nodup) (k : κ) : (((addIdentity base identity m c).get k).getD []).Nodup := by
  rw [addIdentity, HashMap.get_insert]
  split_ifs
  · exact (h (base c)).insert
  · exact h k

theorem foldl_addIdentity (candidates : List (CallableToolCandidate τ)) : ∀ {m : HashMap κ (List Str)},
    (∀ k, ((m.get k).getD []).Nodup) → ∀ k,
      (((candidates.foldl (addIdentity base identity) m).get k).getD []).Nodup ∧
        ∀ x, x ∈ ((candidates.foldl (addIdentity base identity) m).get k).getD [] ↔
          (∃ c ∈ candidates, base c = k ∧ identity c = x) ∨ x ∈ (m.get k).getD [] := by
  induction candidates with
  | nil => exact fun h k => ⟨h k, fun x => (or_iff_right fun ⟨_, hc, _⟩ => absurd hc not_mem_nil).symm⟩
  | cons c candidates ih =>
    intro m h k
    obtain ⟨hnodup, hmem⟩ := ih (nodup_addIdentity c h) k
    refine ⟨hnodup, fun x => ?_⟩
    rw [foldl_cons, hmem, mem_addIdentity, exists_mem_cons_iff, ← or_assoc]
    exact or_congr_left or_comm

theorem one_lt_length_iff {l : List Str} (h : l.Nodup) : 1 < l.length ↔ ∃ x ∈ l, ∃ y ∈ l, x ≠ y := by
  cases l with
  | nil => simp
  | cons a l =>
    cases l with
    | nil => simp
    | cons b l =>
      refine iff_of_true (by rw [length_cons, length_cons]; omega) ⟨a, mem_cons_self, b, ?_, ?_⟩
      · exact mem_cons_of_mem a mem_cons_self
      · exact fun hab => (nodup_cons.mp h).1 (hab ▸ mem_cons_self)

variable {candidates : List (CallableToolCandidate τ)}

theorem mem_colliding : k ∈ colliding base identity candidates ↔
    ∃ a ∈ candidates, ∃ b ∈ candidates, base a = k ∧ base b = k ∧ identity a ≠ identity b := by
  have hempty : ∀ k, (((HashMap.empty : HashMap κ (List Str)).get k).getD []).Nodup := fun _ => nodup_nil
  obtain ⟨hnodup, hmem⟩ : (((identitiesByBase base identity candidates).get k).getD []).Nodup ∧
      ∀ x, x ∈ ((identitiesByBase base identity candidates).get k).getD [] ↔
        (∃ c ∈ candidates, base c = k ∧ identity c = x) ∨ x ∈ [] := foldl_addIdentity candidates hempty k
  have hcolliding : k ∈ colliding base identity candidates ↔
      1 < (((identitiesByBase base identity candidates).get k).getD []).length := by
    unfold colliding
    rw [mem_map]
    constructor
    · rintro ⟨e, he, rfl⟩
      obtain ⟨he, hlength⟩ := mem_filter.mp he
      rw [HashMap.get_eq_some.mpr he]
      exact of_decide_eq_true hlength
    · intro hlength
      cases hget : (identitiesByBase base identity candidates).get k with
      | none =>
        rw [hget] at hlength
        exact absurd hlength (Nat.not_lt_zero 1)
      | some identities =>
        rw [hget] at hlength
        exact ⟨(k, identities), mem_filter.mpr ⟨HashMap.get_eq_some.mp hget, decide_eq_true hlength⟩, rfl⟩
  rw [hcolliding, one_lt_length_iff hnodup]
  constructor
  · rintro ⟨x, hx, y, hy, hne⟩
    obtain ⟨a, ha, hka, rfl⟩ := ((hmem x).mp hx).resolve_right not_mem_nil
    obtain ⟨b, hb, hkb, rfl⟩ := ((hmem y).mp hy).resolve_right not_mem_nil
    exact ⟨a, ha, b, hb, hka, hkb, hne⟩
  · rintro ⟨a, ha, b, hb, hka, hkb, hne⟩
    exact ⟨_, (hmem _).mpr (.inl ⟨a, ha, hka, rfl⟩), _, (hmem _).mpr (.inl ⟨b, hb, hkb, rfl⟩), hne⟩

theorem mem_colliding_perm {candidates' : List (CallableToolCandidate τ)} (h : candidates.Perm candidates') :
    k ∈ colliding base identity candidates ↔ k ∈ colliding base identity candidates' := by
  rw [mem_colliding, mem_colliding]
  simp only [h.mem_iff]

end Colliding

/-! ### The order of the tools -/

variable {candidates candidates' : List (CallableToolCandidate τ)}

theorem separateNamespaces_perm (digest : Digest) (h : candidates.Perm candidates') :
    (separateNamespaces digest candidates).Perm (separateNamespaces digest candidates') := by
  refine (List.Perm.of_eq (map_congr_left fun c _ => ?_)).trans (h.map _)
  have hmem : c.callableNamespace ∈ collidingNamespaces candidates ↔
      c.callableNamespace ∈ collidingNamespaces candidates' := mem_colliding_perm h
  simp only [hmem]

theorem separateTools_perm (digest : Digest) (h : candidates.Perm candidates') :
    (separateTools digest candidates).Perm (separateTools digest candidates') := by
  refine (List.Perm.of_eq (map_congr_left fun c _ => ?_)).trans (h.map _)
  have hmem : c.parts ∈ collidingTools candidates ↔ c.parts ∈ collidingTools candidates' := mem_colliding_perm h
  simp only [hmem]

theorem strLe_iff : ∀ {s t : Str}, strLe s t ↔ List.le s t
  | [], t => iff_of_true rfl (List.nil_le t)
  | c :: s, [] => iff_of_false Bool.false_ne_true fun h => nomatch List.le_nil.mp h
  | c :: s, d :: t => by
    refine Iff.trans ?_ List.cons_le_cons_iff.symm
    rw [strLe]
    split_ifs with hcd
    · subst hcd
      rw [strLe_iff]
      exact ⟨fun h => .inr ⟨rfl, h⟩, fun h => (h.resolve_left (Char.lt_irrefl c)).2⟩
    · simp only [hcd, false_and, or_false, decide_eq_true_eq]
      exact Iff.rfl

instance : Std.Total (@Before τ) where
  total a b := by
    unfold Before
    rw [strLe_iff, strLe_iff]
    exact List.le_total ..

instance : IsTrans (CallableToolCandidate τ) Before where
  trans _ _ _ hab hbc := strLe_iff.mpr (List.le_trans (strLe_iff.mp hab) (strLe_iff.mp hbc))

/-- Candidates with different identities have one order. -/
theorem insertionSort_eq_of_perm
    (h : candidates.Perm candidates') (hnodup : (candidates.map CallableToolCandidate.rawToolIdentity).Nodup) :
    candidates.insertionSort Before = candidates'.insertionSort Before := by
  have hperm := perm_insertionSort Before candidates
  have hperm' := perm_insertionSort Before candidates'
  refine @List.Perm.eq_of_pairwise _ Before _ _ ?_ (pairwise_insertionSort Before candidates)
    (pairwise_insertionSort Before candidates') (hperm.trans (h.trans hperm'.symm))
  intro a b ha hb hab hba
  exact inj_on_of_nodup_map hnodup (hperm.mem_iff.mp ha) (h.mem_iff.mpr (hperm'.mem_iff.mp hb))
    (List.le_antisymm (strLe_iff.mp hab) (strLe_iff.mp hba))

/-! ### Names -/

/-- All characters are of one byte. -/
def Ascii (s : Str) : Prop := ∀ c ∈ s, c.val ≤ 127

variable {s : Str}

theorem Ascii.append {t : Str} (hs : Ascii s) (ht : Ascii t) : Ascii (s ++ t) :=
  fun c hc => (mem_append.mp hc).elim (hs c) (ht c)

theorem Ascii.take (hs : Ascii s) (n : ℕ) : Ascii (s.take n) := fun c hc => hs c (mem_of_mem_take hc)

theorem ascii_sanitize (name : Str) : Ascii (sanitizeResponsesApiToolName name) := by
  unfold sanitizeResponsesApiToolName
  dsimp only
  split_ifs
  · exact forall_mem_singleton.mpr (by decide)
  · intro c hc
    obtain ⟨d, -, rfl⟩ := mem_map.mp hc
    split_ifs with hd
    · unfold isNameChar at hd
      rw [Bool.or_eq_true, decide_eq_true_eq] at hd
      obtain halnum | rfl := hd
      · exact val_le_of_isAlphanum halnum
      · decide
    · decide

theorem isAlphanum_of_isHexDigit {c : Char} (h : isHexDigit c) : c.isAlphanum := by
  unfold isHexDigit at h
  rw [Bool.or_eq_true] at h
  obtain hdigit | hletter := h
  · rw [Char.isAlphanum, hdigit, Bool.or_true]
  · have hletters : "abcdef".toList.all Char.isAlphanum = true := by decide
    exact all_eq_true.mp hletters c (contains_iff_mem.mp hletter)

section Hashed
variable (digest : Digest)

theorem ascii_callableNameHashSuffix (rawIdentity : Str) : Ascii (callableNameHashSuffix digest rawIdentity) := by
  intro c hc
  obtain rfl | hc := mem_cons.mp hc
  · decide
  · have hdigit := all_eq_true.mp (digest.digits rawIdentity) c (mem_of_mem_take hc)
    exact val_le_of_isAlphanum (isAlphanum_of_isHexDigit hdigit)

theorem length_callableNameHashSuffix (rawIdentity : Str) :
    (callableNameHashSuffix digest rawIdentity).length = 13 := by
  rw [callableNameHashSuffix, length_cons, length_take, digest.length]
  rfl

theorem len_fitCallablePartsWithHash {nameSpace toolName : Str} (hspace : Ascii nameSpace) (htool : Ascii toolName)
    (rawIdentity : Str) :
    len ((fitCallablePartsWithHash digest nameSpace toolName rawIdentity).1 ++
      (fitCallablePartsWithHash digest nameSpace toolName rawIdentity).2) ≤ maxToolNameLength := by
  have hsuffix := ascii_callableNameHashSuffix digest rawIdentity
  have hlength := length_callableNameHashSuffix digest rawIdentity
  unfold fitCallablePartsWithHash truncateName
  dsimp only
  rw [len_of_ascii hspace, len_of_ascii hsuffix, hlength]
  split_ifs with hfits
  · rw [len_of_ascii (hspace.append ((htool.take _).append hsuffix)), length_append, length_append, hlength]
    have htake := length_take_le (maxToolNameLength - nameSpace.length - 13) toolName
    omega
  · rw [len_of_ascii ((hspace.take _).append hsuffix), length_append, hlength]
    have htake := length_take_le (maxToolNameLength - 13) nameSpace
    have hmax : maxToolNameLength = 64 := rfl
    omega

end Hashed

/-- The candidate is made of its tool, with names of one-byte characters. -/
structure CallableToolCandidate.Proper (candidate : CallableToolCandidate τ) : Prop where
  raw : candidate.rawToolIdentity = candidate.tool.rawToolIdentity
  callableNamespace : Ascii candidate.callableNamespace
  callableName : Ascii candidate.callableName

theorem proper_ofTool (tool : ToolInfo τ) : (CallableToolCandidate.ofTool tool).Proper :=
  ⟨rfl, ascii_sanitize _, ascii_sanitize _⟩

theorem map_pass {pass : CallableToolCandidate τ → CallableToolCandidate τ}
    (hpass : ∀ c, c.Proper → (pass c).Proper ∧ (pass c).tool = c.tool)
    (h : ∀ c ∈ candidates, c.Proper) :
    (∀ c ∈ candidates.map pass, c.Proper) ∧
      (candidates.map pass).map CallableToolCandidate.tool = candidates.map CallableToolCandidate.tool := by
  constructor
  · intro c hc
    obtain ⟨d, hd, rfl⟩ := mem_map.mp hc
    exact (hpass d (h d hd)).1
  · rw [map_map]
    exact map_congr_left fun c hc => (hpass c (h c hc)).2

theorem ascii_appendNamespaceHashSuffix (digest : Digest) {nameSpace : Str} (h : Ascii nameSpace)
    (rawIdentity : Str) : Ascii (appendNamespaceHashSuffix digest nameSpace rawIdentity) := by
  have hsuffix := ascii_callableNameHashSuffix digest rawIdentity
  have hall : mcpToolNameDelimiter.all (fun c => decide (c.val ≤ 127)) = true := by decide
  have hdelimiter : Ascii mcpToolNameDelimiter := fun c hc => of_decide_eq_true (all_eq_true.mp hall c hc)
  unfold appendNamespaceHashSuffix appendHashSuffix
  split_ifs
  · exact ((h.take _).append hsuffix).append hdelimiter
  · exact h.append hsuffix

theorem separateNamespaces_spec (digest : Digest) (h : ∀ c ∈ candidates, c.Proper) :
    (∀ c ∈ separateNamespaces digest candidates, c.Proper) ∧
      (separateNamespaces digest candidates).map CallableToolCandidate.tool =
        candidates.map CallableToolCandidate.tool := by
  refine map_pass (fun c hc => ?_) h
  split_ifs
  · exact ⟨⟨hc.raw, ascii_appendNamespaceHashSuffix digest hc.callableNamespace _, hc.callableName⟩, rfl⟩
  · exact ⟨hc, rfl⟩

theorem separateTools_spec (digest : Digest) (h : ∀ c ∈ candidates, c.Proper) :
    (∀ c ∈ separateTools digest candidates, c.Proper) ∧
      (separateTools digest candidates).map CallableToolCandidate.tool =
        candidates.map CallableToolCandidate.tool := by
  refine map_pass (fun c hc => ?_) h
  split_ifs
  · have hname := hc.callableName.append (ascii_callableNameHashSuffix digest c.rawToolIdentity)
    exact ⟨⟨hc.raw, hc.callableNamespace, hname⟩, rfl⟩
  · exact ⟨hc, rfl⟩

/-! ### The entries -/

/-- The entry is the tool, under a name that it is called by. -/
structure EntryOf (input : ToolInfo τ) (entry : Str × ToolInfo τ) : Prop where
  key : entry.1 = entry.2.callableNamespace ++ entry.2.callableName
  short : len entry.1 ≤ maxToolNameLength
  kept : entry.2 = { input with
    callableNamespace := entry.2.callableNamespace, callableName := entry.2.callableName }

/-- One entry for each identity of the tools. -/
def OneEntryEach (tools : List (ToolInfo τ)) (qualified : HashMap Str (ToolInfo τ)) : Prop :=
  ∃ inputs : List (ToolInfo τ), inputs ⊆ tools ∧ (inputs.map identity).Nodup ∧
    (∀ tool ∈ tools, tool.identity ∈ inputs.map identity) ∧ List.Forall₂ EntryOf inputs qualified.entries

variable {digest : Digest}

theorem entryOf_of_offers {candidate : CallableToolCandidate τ} (hproper : candidate.Proper)
    {given : ToolInfo τ} (h : (request digest candidate).Offers given) :
    EntryOf candidate.tool (qualifiedName given, given) := by
  obtain hown | ⟨attempt, rfl⟩ := h
  · unfold request at hown
    dsimp only at hown
    split_ifs at hown with hshort
    obtain rfl := Option.some.inj hown
    exact ⟨rfl, hshort, rfl⟩
  · exact ⟨rfl, len_fitCallablePartsWithHash digest hproper.callableNamespace hproper.callableName _, rfl⟩

/-- The candidates that are served are made of tools of the input, one for each identity. -/
theorem sortedCandidates_spec (digest : Digest) (tools : List (ToolInfo τ)) :
    (∀ c ∈ sortedCandidates digest tools, c.Proper) ∧ ∃ firsts : List (ToolInfo τ),
      ((sortedCandidates digest tools).map CallableToolCandidate.tool).Perm firsts ∧ firsts ⊆ tools ∧
      (firsts.map rawToolIdentity).Nodup ∧
        ∀ tool ∈ tools, tool.rawToolIdentity ∈ firsts.map rawToolIdentity := by
  obtain ⟨firsts, hcollected, hsub, hnodup, -, hall⟩ := collectCandidates_spec tools []
  have hproper : ∀ c ∈ collectCandidates [] tools, c.Proper := fun c hc => by
    rw [hcollected] at hc
    obtain ⟨tool, -, rfl⟩ := mem_map.mp hc
    exact proper_ofTool tool
  obtain ⟨hspaces, hspaceTools⟩ := separateNamespaces_spec digest hproper
  obtain ⟨hnames, hnameTools⟩ := separateTools_spec digest hspaces
  have hperm : (sortedCandidates digest tools).Perm
      (separateTools digest (separateNamespaces digest (collectCandidates [] tools))) :=
    perm_insertionSort Before _
  refine ⟨fun c hc => hnames c (hperm.mem_iff.mp hc), firsts, ?_, hsub, hnodup, ?_⟩
  · refine (hperm.map CallableToolCandidate.tool).trans (List.Perm.of_eq ?_)
    rw [hnameTools, hspaceTools, hcollected, map_map]
    exact map_id firsts
  · exact fun tool htool => (hall tool htool).resolve_left not_mem_nil

variable {fuel : ℕ} {tools : List (ToolInfo τ)} {qualified : HashMap Str (ToolInfo τ)}

theorem oneEntryEach_of_qualifyTools (hnul : ∀ tool ∈ tools, tool.NoNul)
    (h : qualifyTools digest fuel tools = some qualified) : OneEntryEach tools qualified := by
  obtain ⟨given, hgiven, rfl⟩ := Option.map_eq_some_iff.mp h
  obtain ⟨hkeys, -, hoffers⟩ := assign_sound hgiven
  obtain ⟨hproper, firsts, hperm, hsub, hnodup, hall⟩ := sortedCandidates_spec digest tools
  have hsub' : (sortedCandidates digest tools).map CallableToolCandidate.tool ⊆ tools :=
    fun tool htool => hsub (hperm.mem_iff.mp htool)
  refine ⟨_, hsub', ?_, fun tool htool => ?_, ?_⟩
  · rw [← nodup_rawToolIdentity_iff fun tool htool => hnul tool (hsub' htool)]
    exact (hperm.map _).nodup_iff.mpr hnodup
  · obtain ⟨first, hfirst, hraw⟩ := mem_map.mp (hall tool htool)
    have hidentity := (rawToolIdentity_eq_iff (hnul first (hsub hfirst)) (hnul tool htool)).mp hraw
    exact hidentity ▸ mem_map_of_mem (hperm.mem_iff.mpr hfirst)
  · have hentries : (HashMap.collect (given.map fun tool => (qualifiedName tool, tool))).entries =
        given.map fun tool => (qualifiedName tool, tool) := by
      refine HashMap.entries_collect ?_
      rw [map_map]
      exact hkeys
    rw [hentries, forall₂_map_left_iff, forall₂_map_right_iff]
    rw [forall₂_map_left_iff] at hoffers
    exact ((forall₂_and_left _ _).mpr ⟨hproper, hoffers⟩).imp fun c tool hc => entryOf_of_offers hc.1 hc.2

/-- Tools with different identities are given their names in one order. -/
theorem sortedCandidates_perm (digest : Digest) {tools' : List (ToolInfo τ)} (h : tools.Perm tools')
    (hnodup : (tools.map rawToolIdentity).Nodup) :
    sortedCandidates digest tools = sortedCandidates digest tools' := by
  have hnodup' : (tools'.map rawToolIdentity).Nodup := (h.map _).nodup_iff.mp hnodup
  have hcollected : (collectCandidates [] tools).Perm (collectCandidates [] tools') := by
    rw [collectCandidates_of_nodup hnodup fun _ _ => not_mem_nil,
      collectCandidates_of_nodup hnodup' fun _ _ => not_mem_nil]
    exact h.map _
  refine insertionSort_eq_of_perm (separateTools_perm digest (separateNamespaces_perm digest hcollected)) ?_
  obtain ⟨hproper, firsts, hperm, -, hfirsts, -⟩ := sortedCandidates_spec digest tools
  have hsorted : ((sortedCandidates digest tools).map CallableToolCandidate.rawToolIdentity).Nodup := by
    rw [map_congr_left fun c hc => (hproper c hc).raw, ← Function.comp_def, ← map_map]
    exact (hperm.map _).nodup_iff.mpr hfirsts
  exact ((perm_insertionSort Before _).map _).nodup_iff.mp hsorted

/-- **Qualified names.** The map has one entry for each identity, which is the tool of the input under a name of at most
64 bytes; if no identity is repeated, the order of the tools plays no role. -/
theorem qualifyTools_sound {digest : Digest} {fuel : ℕ} {tools : List (ToolInfo τ)}
    {qualified : HashMap Str (ToolInfo τ)} (hnul : ∀ tool ∈ tools, tool.NoNul)
    (h : qualifyTools digest fuel tools = some qualified) :
    OneEntryEach tools qualified ∧ ((tools.map identity).Nodup →
      ∀ tools', tools.Perm tools' → qualifyTools digest fuel tools' = some qualified) := by
  refine ⟨oneEntryEach_of_qualifyTools hnul h, fun hnodup tools' hperm => ?_⟩
  rw [← nodup_rawToolIdentity_iff hnul] at hnodup
  rw [← h, qualifyTools, qualifyTools, sortedCandidates_perm digest hperm hnodup]

/-- Two tools whose names are sanitized to one. -/
def collidingPair : List (ToolInfo Unit) :=
  [⟨"server", "tool-name", "mcp__server__", "tool-name", none, ()⟩,
    ⟨"server", "tool_name", "mcp__server__", "tool_name", none, ()⟩]

/-- A hash that is always zero. -/
def zeroDigest : Digest where
  sha1Hex _ := List.replicate 40 '0'
  length _ := rfl
  digits _ := by decide

theorem isSome_collidingPair : (qualifyTools zeroDigest 2 collidingPair).isSome := by decide +kernel

theorem qualifyTools_collidingPair : ∃ qualified, qualifyTools zeroDigest 2 collidingPair = some qualified ∧
    OneEntryEach collidingPair qualified ∧ ((collidingPair.map identity).Nodup →
      ∀ tools', collidingPair.Perm tools' → qualifyTools zeroDigest 2 tools' = some qualified) := by
  obtain ⟨qualified, h⟩ := Option.isSome_iff_exists.mp isSome_collidingPair
  have hnul : ∀ tool ∈ collidingPair, tool.NoNul := by
    intro tool htool
    obtain rfl | htool := mem_cons.mp htool
    · exact ⟨by decide, by decide, by decide, by decide, by decide⟩
    · obtain rfl := mem_singleton.mp htool
      exact ⟨by decide, by decide, by decide, by decide, by decide⟩
  exact ⟨qualified, h, qualifyTools_sound hnul h⟩

end OpenAgere.ToolQualification
