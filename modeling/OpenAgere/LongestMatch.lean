import Mathlib.Data.List.MinMax
import Mathlib.Data.Prod.Lex
import Mathlib.Tactic.Common

/-! # Longest match

Rules with a key and a verdict that answer a query by the rule of the longest key among those whose key
is a prefix of the query; among rules of one key the greatest verdict stands.

`Decides` says which rule that is, `answer_eq_some` ties it to the computation, and
`Decides.of_length_le` says that a deciding rule also decides on every shorter query it still covers. -/

namespace OpenAgere.LongestMatch

variable {ρ α β : Type*} [LinearOrder β] (key : ρ → List α) (verdict : ρ → β)

/-- The length of the key first, then the verdict. -/
def rank (r : ρ) : ℕ ×ₗ β := toLex ((key r).length, verdict r)

/-- `m` covers the query, and no covering rule outranks it. -/
structure Decides (rules : List ρ) (query : List α) (m : ρ) : Prop where
  mem : m ∈ rules
  covers : key m <+: query
  highest : ∀ r ∈ rules, key r <+: query → rank key verdict r ≤ rank key verdict m

variable {key verdict} {rules : List ρ} {query : List α} {m r : ρ}

theorem rank_le_iff : rank key verdict r ≤ rank key verdict m ↔
    (key r).length < (key m).length ∨ (key r).length = (key m).length ∧ verdict r ≤ verdict m :=
  Prod.Lex.toLex_le_toLex

namespace Decides

section

variable (h : Decides key verdict rules query m)
include h

theorem length_le (hr : r ∈ rules) (hc : key r <+: query) :
    (key r).length ≤ (key m).length := by
  rcases rank_le_iff.mp (h.highest r hr hc) with hlt | ⟨heq, _⟩
  · exact hlt.le
  · exact heq.le

theorem verdict_le (hr : r ∈ rules) (hc : key r <+: query)
    (hl : (key m).length ≤ (key r).length) : verdict r ≤ verdict m := by
  rcases rank_le_iff.mp (h.highest r hr hc) with hlt | ⟨_, hle⟩
  · omega
  · exact hle

theorem verdict_eq (h' : Decides key verdict rules query r) :
    verdict m = verdict r := by
  apply le_antisymm
  · exact h'.verdict_le h.mem h.covers (h.length_le h'.mem h'.covers)
  · exact h.verdict_le h'.mem h'.covers (h'.length_le h.mem h.covers)

theorem key_eq (h' : Decides key verdict rules query r) :
    key m = key r := by
  have hle := h'.length_le h.mem h.covers
  have hge := h.length_le h'.mem h'.covers
  exact (List.prefix_of_prefix_length_le h.covers h'.covers hle).eq_of_length (le_antisymm hle hge)

theorem key_above (hr : r ∈ rules) (hc : key r <+: query) :
    key r <+: key m :=
  List.prefix_of_prefix_length_le hc h.covers (h.length_le hr hc)

end

theorem congr {rules' : List ρ} (hrules : ∀ r, r ∈ rules ↔ r ∈ rules') (h : Decides key verdict rules query m) :
    Decides key verdict rules' query m where
  mem := (hrules m).mp h.mem
  covers := h.covers
  highest := fun r hr => h.highest r ((hrules r).mpr hr)

theorem of_length_le {shorter : List α} (h : Decides key verdict rules query m) (hs : shorter <+: query)
    (hl : (key m).length ≤ shorter.length) : Decides key verdict rules shorter m where
  mem := h.mem
  covers := List.prefix_of_prefix_length_le h.covers hs hl
  highest := fun r hr hc => h.highest r hr (hc.trans hs)

end Decides

/-! ### The computation -/

variable [BEq α] [LawfulBEq α]

variable (key) in
/-- The rules whose key is a prefix of the query. -/
def covering (rules : List ρ) (query : List α) : List ρ :=
  rules.filter fun r => (key r).isPrefixOf query

variable (key verdict) in
def answer (rules : List ρ) (query : List α) : Option β :=
  ((covering key rules query).argmax (rank key verdict)).map verdict

omit [LinearOrder β] in
theorem mem_covering : r ∈ covering key rules query ↔ r ∈ rules ∧ key r <+: query := by
  simp [covering]

theorem decides_of_mem_argmax (h : m ∈ (covering key rules query).argmax (rank key verdict)) :
    Decides key verdict rules query m := by
  obtain ⟨hm, hc⟩ := mem_covering.mp (List.argmax_mem h)
  refine ⟨hm, hc, ?_⟩
  intro r hr hrc
  exact List.le_of_mem_argmax (mem_covering.mpr ⟨hr, hrc⟩) h

variable (verdict) in
theorem exists_mem_argmax (hr : r ∈ rules) (hc : key r <+: query) :
    ∃ m, (covering key rules query).argmax (rank key verdict) = some m := by
  apply Option.ne_none_iff_exists'.mp
  intro h
  exact List.ne_nil_of_mem (mem_covering.mpr ⟨hr, hc⟩) (List.argmax_eq_none.mp h)

variable (verdict) in
theorem exists_decides (hr : r ∈ rules) (hc : key r <+: query) : ∃ m, Decides key verdict rules query m := by
  obtain ⟨m, hm⟩ := exists_mem_argmax verdict hr hc
  exact ⟨m, decides_of_mem_argmax hm⟩

theorem answer_eq_some {v : β} :
    answer key verdict rules query = some v ↔ ∃ m, Decides key verdict rules query m ∧ verdict m = v := by
  unfold answer
  rw [Option.map_eq_some_iff]
  constructor
  · rintro ⟨m, hm, rfl⟩
    exact ⟨m, decides_of_mem_argmax hm, rfl⟩
  · rintro ⟨m, hm, rfl⟩
    obtain ⟨r, hr⟩ := exists_mem_argmax verdict hm.mem hm.covers
    exact ⟨r, hr, (decides_of_mem_argmax hr).verdict_eq hm⟩

/-- The answer depends on the set of the rules only. -/
theorem answer_congr {rules' : List ρ} (hrules : ∀ r, r ∈ rules ↔ r ∈ rules') :
    answer key verdict rules query = answer key verdict rules' query := by
  apply Option.ext
  intro v
  rw [answer_eq_some, answer_eq_some]
  constructor
  · rintro ⟨m, hm, hv⟩
    exact ⟨m, hm.congr hrules, hv⟩
  · rintro ⟨m, hm, hv⟩
    exact ⟨m, hm.congr fun r => (hrules r).symm, hv⟩

end OpenAgere.LongestMatch
