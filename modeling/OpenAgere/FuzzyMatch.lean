import OpenAgere.Text
import Mathlib.Data.List.Dedup

/-! # Fuzzy matching

A needle is looked for as a subsequence of a haystack, both lower-cased.  The haystack is lowered character by
character and the needle as a string, where a capital sigma at the end of a word has a form of its own.  The positions
of a match are sound for every input (`covers_of_fuzzyMatch`), and a needle is found in every haystack it can be deleted
from exactly when it has no such sigma (`finds_iff_not_hasFinalSigma`). -/

namespace OpenAgere.FuzzyMatch

open List

/-! ### Lower case -/

/-- The case tables of the standard library. -/
structure CaseTable where
  lower : Char → Str
  cased : Char → Bool
  caseIgnorable : Char → Bool
  lower_sigma : lower 'Σ' = ['σ']

namespace CaseTable

variable (u : CaseTable)

def caseIgnorableThenCased (s : Str) : Bool := (s.dropWhile u.caseIgnorable).head?.any u.cased

/-- A sigma between the reversed text `before` and the text `after` ends a word. -/
def isWordFinal (before after : Str) : Bool :=
  u.caseIgnorableThenCased before && !u.caseIgnorableThenCased after

/-- The lower case of a character that follows the reversed text `before`. -/
def lowerAt (before : Str) (c : Char) (after : Str) : Str :=
  if c = 'Σ' then [if u.isWordFinal before after then 'ς' else 'σ'] else u.lower c

def lowerFrom (before : Str) : Str → Str
  | [] => []
  | c :: after => u.lowerAt before c after ++ lowerFrom (c :: before) after

/-- `str::to_lowercase`. -/
def toLowercase (s : Str) : Str := u.lowerFrom [] s

def HasFinalSigma (s : Str) : Prop := ∃ before after, s = before ++ 'Σ' :: after ∧ u.isWordFinal before.reverse after

end CaseTable

variable (u : CaseTable)

/-! ### The matcher -/

/-- The lowered characters, each with the index of its character. -/
def lowered (haystack : Str) : List (Char × ℕ) :=
  haystack.zipIdx.flatMap fun ch => (u.lower ch.1).map fun lc => (lc, ch.2)

/-- The two loops of the scan, from the position `cur` on: the position and the original index of each character
of the needle. -/
def matchFrom : Str → List (Char × ℕ) → ℕ → Option (List (ℕ × ℕ))
  | [], _, _ => some []
  | _ :: _, [], _ => none
  | nc :: needle, (lc, orig) :: rest, cur =>
      if lc = nc then (matchFrom needle rest (cur + 1)).map ((cur, orig) :: ·)
      else matchFrom (nc :: needle) rest (cur + 1)

def fuzzyMatch (haystack needle : Str) : Option (List ℕ × Int32) :=
  if needle = [] then some ([], Int32.maxValue)
  else
    let loweredNeedle := u.toLowercase needle
    (matchFrom loweredNeedle (lowered u haystack) 0).map fun found =>
      let firstLowerPos := match found with
        | [] => 0
        | (_, target) :: _ => ((lowered u haystack).findIdx? fun lc => lc.2 == target).getD 0
      let lastLowerPos := (found.getLast?.map (·.1)).getD firstLowerPos
      let window := Int32.ofNat lastLowerPos - Int32.ofNat firstLowerPos + 1 - Int32.ofNat loweredNeedle.length
      let score := max window 0
      -- sorted, equal indices are adjacent
      ((found.map (·.2)).mergeSort.dedup, if firstLowerPos = 0 then score - 100 else score)

/-- The characters at the positions. -/
def charsAt (haystack : Str) (positions : List ℕ) : Str :=
  (haystack.zipIdx.filter fun ch => ch.2 ∈ positions).map (·.1)

/-- Positions of the haystack, in order, whose characters contain the needle in lower case. -/
def Covers (haystack needle : Str) (positions : List ℕ) : Prop :=
  positions.Pairwise (· < ·) ∧ (∀ i ∈ positions, i < haystack.length) ∧
    u.toLowercase needle <+ (charsAt haystack positions).flatMap u.lower

variable {u} {haystack needle : Str}

/-! ### What a match says -/

theorem map_fst_lowered : (lowered u haystack).map (·.1) = haystack.flatMap u.lower := by
  unfold lowered
  rw [map_flatMap]
  simp only [map_map, Function.comp_def, map_id']
  conv_rhs => rw [← zipIdx_map_fst 0 haystack, flatMap_map]

/-- What is found is the needle, in the order of the lowered characters. -/
theorem matchFrom_sublist {cs : List (Char × ℕ)} {cur : ℕ} {found : List (ℕ × ℕ)}
    (h : matchFrom needle cs cur = some found) :
    ∃ ms, ms <+ cs ∧ ms.map (·.1) = needle ∧ ms.map (·.2) = found.map (·.2) := by
  fun_induction matchFrom needle cs cur generalizing found with
  | case1 =>
    obtain rfl := Option.some.inj h
    exact ⟨[], nil_sublist _, rfl, rfl⟩
  | case2 => cases h
  | case3 needle nc orig rest cur ih =>
    obtain ⟨more, hmore, rfl⟩ := Option.map_eq_some_iff.mp h
    obtain ⟨ms, hms, hneedle, hfound⟩ := ih hmore
    exact ⟨(nc, orig) :: ms, hms.cons_cons _, by rw [map_cons, hneedle], by rw [map_cons, map_cons, hfound]⟩
  | case4 nc needle lc orig rest cur _ ih =>
    obtain ⟨ms, hms, hneedle, hfound⟩ := ih h
    exact ⟨ms, hms.cons _, hneedle, hfound⟩

/-- **The greedy scan is complete.** -/
theorem matchFrom_isSome (cs : List (Char × ℕ)) (cur : ℕ) :
    (matchFrom needle cs cur).isSome ↔ needle <+ cs.map (·.1) := by
  fun_induction matchFrom needle cs cur with
  | case1 => simp
  | case2 => simp
  | case3 needle nc orig rest cur ih => rw [Option.isSome_map, ih, map_cons, cons_sublist_cons]
  | case4 nc needle lc orig rest cur hne ih =>
    rw [ih, map_cons, cons_sublist_cons']
    simp [Ne.symm hne]

theorem lt_of_mem_lowered {lc : Char × ℕ} (h : lc ∈ lowered u haystack) : lc.2 < haystack.length := by
  obtain ⟨ch, hch, hlc⟩ := mem_flatMap.mp h
  obtain ⟨c, _, rfl⟩ := mem_map.mp hlc
  exact snd_lt_of_mem_zipIdx hch

theorem map_fst_filter_lowered (positions : List ℕ) :
    ((lowered u haystack).filter fun lc => lc.2 ∈ positions).map (·.1) = (charsAt haystack positions).flatMap u.lower := by
  unfold lowered charsAt
  induction haystack.zipIdx with
  | nil => rfl
  | cons ch rest ih =>
    rw [flatMap_cons, filter_append, map_append, ih, filter_cons]
    by_cases h : ch.2 ∈ positions
    · simp [h, filter_map, Function.comp_def]
    · simp [h, filter_map, Function.comp_def]

theorem covers_of_fuzzyMatch {positions : List ℕ} {score : Int32}
    (h : fuzzyMatch u haystack needle = some (positions, score)) : Covers u haystack needle positions := by
  unfold fuzzyMatch at h
  split_ifs at h with hneedle
  · cases h
    subst hneedle
    exact ⟨.nil, nofun, nil_sublist _⟩
  · obtain ⟨found, hfound, heq⟩ := Option.map_eq_some_iff.mp h
    obtain ⟨ms, hms, hchars, horig⟩ := matchFrom_sublist hfound
    obtain ⟨rfl, _⟩ := Prod.mk.inj heq
    have hmem : ∀ lc ∈ ms, lc.2 ∈ (found.map (·.2)).mergeSort.dedup := by
      intro lc hlc
      rw [mem_dedup, mem_mergeSort, ← horig]
      exact mem_map_of_mem hlc
    refine ⟨?_, ?_, ?_⟩
    · have hsorted := pairwise_mergeSort' (· ≤ ·) (found.map (·.2))
      have hle := hsorted.sublist (dedup_sublist _)
      exact (hle.and (nodup_dedup _)).imp fun h => lt_of_le_of_ne h.1 h.2
    · intro i hi
      rw [mem_dedup, mem_mergeSort, ← horig] at hi
      obtain ⟨lc, hlc, rfl⟩ := mem_map.mp hi
      exact lt_of_mem_lowered (hms.subset hlc)
    · rw [← map_fst_filter_lowered, ← hchars]
      refine Sublist.map _ ?_
      have := hms.filter (fun lc => lc.2 ∈ (found.map (·.2)).mergeSort.dedup)
      rwa [filter_eq_self.mpr (by simpa using hmem)] at this

theorem isSome_fuzzyMatch (hneedle : needle ≠ []) :
    (fuzzyMatch u haystack needle).isSome ↔ u.toLowercase needle <+ haystack.flatMap u.lower := by
  unfold fuzzyMatch
  rw [if_neg hneedle, Option.isSome_map, matchFrom_isSome, map_fst_lowered]

/-! ### Final sigmas -/

namespace CaseTable

theorem length_lowerFrom (s before : Str) : (u.lowerFrom before s).length = (s.flatMap u.lower).length := by
  induction s generalizing before with
  | nil => rfl
  | cons c after ih =>
    rw [lowerFrom, flatMap_cons, length_append, length_append, ih, lowerAt]
    by_cases hc : c = 'Σ'
    · rw [if_pos hc, hc, u.lower_sigma]
      rfl
    · rw [if_neg hc]

theorem lowerAt_eq_iff (before after : Str) (c : Char) :
    u.lowerAt before c after = u.lower c ↔ (c = 'Σ' → u.isWordFinal before after = false) := by
  unfold lowerAt
  by_cases hc : c = 'Σ'
  · rw [if_pos hc, hc, u.lower_sigma]
    cases u.isWordFinal before after <;> simp
  · simp [hc]

theorem lowerFrom_eq_iff (s before : Str) : u.lowerFrom before s = s.flatMap u.lower ↔
    ∀ b a, s = b ++ 'Σ' :: a → u.isWordFinal (b.reverse ++ before) a = false := by
  induction s generalizing before with
  | nil => simp [lowerFrom]
  | cons c after ih =>
    have happend : u.lowerFrom before (c :: after) = (c :: after).flatMap u.lower ↔
        u.lowerAt before c after = u.lower c ∧ u.lowerFrom (c :: before) after = after.flatMap u.lower := by
      rw [lowerFrom, flatMap_cons]
      refine ⟨fun h => append_inj' h (length_lowerFrom ..), fun ⟨h, h'⟩ => ?_⟩
      rw [h, h']
    rw [happend, lowerAt_eq_iff, ih]
    constructor
    · rintro ⟨hc, hafter⟩ b a hs
      cases b with
      | nil =>
        obtain ⟨rfl, rfl⟩ := cons.inj hs
        exact hc rfl
      | cons d b =>
        obtain ⟨rfl, rfl⟩ := cons.inj hs
        simpa using hafter b a rfl
    · intro h
      refine ⟨fun hc => h [] after (by rw [hc]; rfl), fun b a hs => ?_⟩
      simpa using h (c :: b) a (by rw [hs]; rfl)

end CaseTable

/-- **What the matcher finds.** -/
theorem finds_iff_not_hasFinalSigma (u : CaseTable) (needle : Str) :
    ((needle ≠ [] → ∀ haystack, needle <+ haystack → (fuzzyMatch u haystack needle).isSome) ∧
      ∀ haystack positions score, fuzzyMatch u haystack needle = some (positions, score) →
        Covers u haystack needle positions) ↔ ¬ u.HasFinalSigma needle := by
  have hlower : ¬ u.HasFinalSigma needle ↔ u.toLowercase needle = needle.flatMap u.lower := by
    rw [CaseTable.toLowercase, CaseTable.lowerFrom_eq_iff]
    simp [CaseTable.HasFinalSigma]
  rw [hlower]
  constructor
  · rintro ⟨hfinds, -⟩
    by_cases hneedle : needle = []
    · rw [hneedle]
      rfl
    · have hself := (isSome_fuzzyMatch hneedle).mp (hfinds hneedle needle (Sublist.refl _))
      exact hself.eq_of_length (CaseTable.length_lowerFrom ..)
  · intro heq
    refine ⟨fun hneedle haystack hsub => ?_, fun _ _ _ h => covers_of_fuzzyMatch h⟩
    rw [isSome_fuzzyMatch hneedle, heq]
    exact hsub.flatMap _

/-- The tables on ASCII, and the capital sigma. -/
def asciiTable : CaseTable where
  lower c := if c = 'Σ' then ['σ'] else [c.toLower]
  cased c := c.isAlpha || c = 'Σ'
  caseIgnorable c := c ∈ "'.:^`".toList
  lower_sigma := rfl

theorem fuzzyMatch_self_eq_none :
    ['A', 'Σ'] <+ ['A', 'Σ'] ∧ fuzzyMatch asciiTable ['A', 'Σ'] ['A', 'Σ'] = none := by
  decide

end OpenAgere.FuzzyMatch
