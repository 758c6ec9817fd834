import Mathlib.Data.List.DropRight
import Mathlib.Data.List.Infix
import Mathlib.Tactic

/-! # Strings as lists of characters

A string is the list of its Unicode scalar values (`Str`).  This module gives the
string operations of the standard library that line-oriented parsers use, and their
calculus:

* `isWhitespace`, `trimStart`, `trimEnd`, `trim` (the Unicode `White_Space` property);
* `stripPrefix`, and its equation `stripPrefix_eq_some`;
* `lines`: the lines of a text, cut at `\n` or `\r\n`, the last one possibly without
  terminator; `joinLines` joins lines with `\n`.

The two results the parsers rest on are `lines_joinLines` (the lines of joined lines are
those lines, up to a carriage return before a line feed) and `lines_trim_of_prefix_text`: the
lines of a trimmed prefix of a text are a prefix of the lines of the trimmed text followed
by one cut line. -/

namespace OpenAgere

open List

/-- A string: the list of its Unicode scalar values. -/
abbrev Str := List Char

/-- A literal is read as the list of its characters. -/
instance : Coe String Str := ⟨String.toList⟩

namespace Str

/-- How membership in a list of texts is decided. -/
scoped instance lawfulBEq : LawfulBEq Str := List.instLawfulBEq

end Str

namespace Text

/-! ### Operations -/

/-- The Unicode `White_Space` property. -/
def isWhitespace (c : Char) : Bool :=
  let n := c.toNat
  (9 ≤ n && n ≤ 13) || n == 0x20 || n == 0x85 || n == 0xA0 || n == 0x1680 ||
    (0x2000 ≤ n && n ≤ 0x200A) || n == 0x2028 || n == 0x2029 || n == 0x202F ||
    n == 0x205F || n == 0x3000

def toAsciiLowercase (s : Str) : Str := s.map Char.toLower

def eqIgnoreAsciiCase (s t : Str) : Bool := toAsciiLowercase s = toAsciiLowercase t

def trimStart (s : Str) : Str := s.dropWhile isWhitespace

def trimEnd (s : Str) : Str := s.rdropWhile isWhitespace

def trim (s : Str) : Str := trimEnd (trimStart s)

/-- The rest of `s` after the prefix `p`, if `s` starts with `p`. -/
def stripPrefix : Str → Str → Option Str
  | [], s => some s
  | _ :: _, [] => none
  | p :: ps, c :: cs => if p = c then stripPrefix ps cs else none

/-- A line without the carriage return in front of its line feed. -/
def stripCR (l : Str) : Str := if l.getLast? = some '\r' then l.dropLast else l

/-- The lines of a text: each ends at a `\n` or a `\r\n`, which is dropped, and a last line
without terminator counts when it is not empty. -/
def lines : Str → List Str
  | [] => []
  | '\n' :: cs => [] :: lines cs
  | '\r' :: '\n' :: cs => [] :: lines cs
  | c :: cs =>
      match lines cs with
      | [] => [[c]]
      | l :: ls => (c :: l) :: ls

/-- Lines joined with line feeds. -/
def joinLines : List Str → Str
  | [] => []
  | [l] => l
  | l :: ls => l ++ '\n' :: joinLines ls

/-- The string is empty or white space only. -/
def isBlank (s : Str) : Bool := (trim s).isEmpty

/-- The pieces of a text between occurrences of a separator; there is at least one. -/
def splitOn (sep : Char) : Str → List Str
  | [] => [[]]
  | c :: cs =>
      if c = sep then [] :: splitOn sep cs
      else
        match splitOn sep cs with
        | [] => [[c]]
        | l :: ls => (c :: l) :: ls

/-- The text before the first occurrence of a separator and the text after it. -/
def splitOnce (sep : Str) : Str → Option (Str × Str)
  | [] => (stripPrefix sep []).map fun rest => ([], rest)
  | c :: cs =>
      match stripPrefix sep (c :: cs) with
      | some rest => some ([], rest)
      | none => (splitOnce sep cs).map fun parts => (c :: parts.1, parts.2)

variable {sep : Char}

theorem not_mem_of_splitOn : ∀ {s l : Str}, l ∈ splitOn sep s → sep ∉ l
  | [], l, h => by
    simp only [splitOn, mem_singleton] at h
    simp [h]
  | c :: cs, l, h => by
    unfold splitOn at h
    split_ifs at h with hc
    · rcases mem_cons.mp h with rfl | h
      · simp
      · exact not_mem_of_splitOn h
    · cases hs : splitOn sep cs with
      | nil =>
        simp only [hs, mem_singleton] at h
        simp [h, Ne.symm hc]
      | cons p ps =>
        simp only [hs, mem_cons] at h
        rcases h with rfl | h
        · have hp : sep ∉ p := not_mem_of_splitOn (by rw [hs]; simp)
          simp [hp, Ne.symm hc]
        · exact not_mem_of_splitOn (by rw [hs]; simp [h])

theorem splitOn_eq (sep : Char) : ∀ s : Str, splitOn sep s = s.splitOn sep
  | [] => rfl
  | c :: cs => by
    rw [splitOn, splitOn_eq sep cs, splitOn_cons_eq_if_modifyHead]
    cases h : cs.splitOn sep with
    | nil => exact absurd h (splitOn_ne_nil sep cs)
    | cons => simp

theorem splitOn_of_not_mem {l : Str} (h : sep ∉ l) : splitOn sep l = [l] := by
  rw [splitOn_eq, splitOn_eq_singleton h]

theorem splitOn_append (rest : Str) {l : Str} (h : sep ∉ l) : splitOn sep (l ++ sep :: rest) = l :: splitOn sep rest := by
  rw [splitOn_eq, splitOn_append_cons_self_of_not_mem h, splitOn_eq]

/-! ### Prefix stripping -/

theorem stripPrefix_append : ∀ (p s : Str), stripPrefix p (p ++ s) = some s
  | [], _ => rfl
  | _ :: ps, s => by simp [stripPrefix, stripPrefix_append ps s]

theorem stripPrefix_eq_some : ∀ {p s r : Str}, stripPrefix p s = some r ↔ s = p ++ r
  | [], s, r => by simp [stripPrefix]
  | _ :: _, [], r => by simp [stripPrefix]
  | p :: ps, c :: cs, r => by
    by_cases h : p = c
    · subst h
      simp [stripPrefix, stripPrefix_eq_some (p := ps)]
    · have h' : ¬ c = p := fun e => h e.symm
      simp [stripPrefix, h, h']

variable {p s : Str}

theorem stripPrefix_eq_none : stripPrefix p s = none ↔ ¬ p <+: s := by
  constructor
  · rintro h ⟨r, rfl⟩
    rw [stripPrefix_append] at h
    cases h
  · intro h
    cases e : stripPrefix p s with
    | none => rfl
    | some r => exact absurd ⟨r, (stripPrefix_eq_some.mp e).symm⟩ h

/-! ### Trimming -/

variable {c : Char} {cs : Str}

theorem trimStart_cons_of_not (h : isWhitespace c = false) : trimStart (c :: cs) = c :: cs := by simp [trimStart, h]

theorem trimEnd_prefix_self (s : Str) : trimEnd s <+: s := rdropWhile_prefix _ _

theorem trimEnd_concat_of_not (s : Str) (h : isWhitespace c = false) : trimEnd (s ++ [c]) = s ++ [c] :=
  rdropWhile_concat_neg _ _ _ (by simp [h])

theorem trimEnd_concat_of_ws (s : Str) (h : isWhitespace c) : trimEnd (s ++ [c]) = trimEnd s :=
  rdropWhile_concat_pos _ _ _ (by simp [h])

theorem trim_prefix_trimStart (s : Str) : trim s <+: trimStart s := trimEnd_prefix_self _

theorem trim_eq_self {d : Char} (hc : isWhitespace c = false)
    (hd : isWhitespace d = false) (hh : s.head? = some c) (hl : s.getLast? = some d) :
    trim s = s := by
  obtain ⟨cs, rfl⟩ := head?_eq_some_iff.mp hh
  obtain ⟨ds, hds⟩ := getLast?_eq_some_iff.mp hl
  rw [trim, trimStart_cons_of_not hc, hds, trimEnd_concat_of_not _ hd]

theorem trim_concat_of_ws (s : Str) (h : isWhitespace c) : trim (s ++ [c]) = trim s := by
  unfold trim trimStart
  rw [dropWhile_append]
  cases hs : s.dropWhile isWhitespace with
  | nil => simp [h]
  | cons d ds =>
    simp only [isEmpty_cons, Bool.false_eq_true, if_false]
    exact trimEnd_concat_of_ws _ h

theorem isBlank_iff : isBlank s ↔ ∀ c ∈ s, isWhitespace c := by
  unfold isBlank trim trimEnd trimStart
  rw [List.isEmpty_iff, List.rdropWhile_eq_nil_iff]
  constructor
  · intro h c hc
    rw [← List.takeWhile_append_dropWhile (p := isWhitespace) (l := s)] at hc
    rcases List.mem_append.mp hc with hc | hc
    · exact List.mem_takeWhile_imp hc
    · exact h c hc
  · intro h c hc
    exact h c ((List.dropWhile_sublist _).mem hc)

theorem isBlank_eq_false_of_head (h : s.head? = some c) (hc : isWhitespace c = false) : isBlank s = false := by
  rw [← Bool.not_eq_true, isBlank_iff]
  intro hall
  rw [hall c (mem_of_mem_head? h)] at hc
  cases hc

theorem trim_last (h : trim s ≠ []) : ∃ u c, trim s = u ++ [c] ∧ isWhitespace c = false := by
  refine ⟨(trim s).dropLast, (trim s).getLast h, (dropLast_append_getLast h).symm, ?_⟩
  have := rdropWhile_last_not isWhitespace (trimStart s) h
  rw [Bool.not_eq_true] at this
  exact this

theorem trimEnd_append (u r : Str) (h : isWhitespace c = false) :
    trimEnd (u ++ [c] ++ r) = u ++ [c] ++ trimEnd r := by
  induction r using reverseRecOn with
  | nil => exact (append_nil _).symm ▸ trimEnd_concat_of_not u h
  | append_singleton r d ih =>
    rw [← append_assoc]
    cases hd : isWhitespace d with
    | true => rw [trimEnd_concat_of_ws _ hd, trimEnd_concat_of_ws _ hd, ih]
    | false => rw [trimEnd_concat_of_not _ hd, trimEnd_concat_of_not _ hd, append_assoc (u ++ [c])]

theorem prefix_trimEnd {u v : Str} (hc : isWhitespace c = false) (h : u ++ [c] <+: v) : u ++ [c] <+: trimEnd v := by
  obtain ⟨r, rfl⟩ := h
  rw [trimEnd_append u r hc]
  exact prefix_append _ _

variable {t : Str}

theorem trimStart_append (hp : trim p ≠ []) (r : Str) : trimStart (p ++ r) = trimStart p ++ r := by
  have hne : trimStart p ≠ [] := by
    intro e
    apply hp
    rw [trim, e]
    rfl
  unfold trimStart at hne ⊢
  rw [dropWhile_append, if_neg (by simpa using hne)]

theorem trim_prefix_trim (h : p <+: t) (hp : trim p ≠ []) : trim p <+: trim t := by
  obtain ⟨r, rfl⟩ := h
  have hs := trimStart_append hp r
  obtain ⟨u, c, hu, hc⟩ := trim_last hp
  have hpre : trim p <+: trimStart (p ++ r) := by
    rw [hs]
    exact (trim_prefix_trimStart p).trans (prefix_append _ _)
  rw [hu] at hpre ⊢
  exact prefix_trimEnd hc hpre

/-! ### Lines -/

theorem stripCR_cons_cons (c d : Char) (l : Str) :
    stripCR (c :: d :: l) = c :: stripCR (d :: l) := by
  unfold stripCR
  rw [getLast?_cons_cons]
  split_ifs <;> simp

theorem stripCR_of_getLast {l : Str} (h : l.getLast? ≠ some '\r') : stripCR l = l := if_neg h

theorem lines_cons (hc : c ≠ '\n') (hr : c = '\r' → cs.head? ≠ some '\n') :
    lines (c :: cs) = match lines cs with | [] => [[c]] | l :: ls => (c :: l) :: ls := by
  rw [lines.eq_4]
  · exact hc
  · rintro cs' rfl rfl
    exact hr rfl rfl

theorem lines_append_newline : ∀ (l rest : Str), '\n' ∉ l →
    lines (l ++ '\n' :: rest) = stripCR l :: lines rest
  | [], rest, _ => by simp [lines, stripCR]
  | [c], rest, h => by
    have hc : c ≠ '\n' := fun e => h (by simp [e])
    by_cases hr : c = '\r'
    · subst hr
      simp [lines, stripCR]
    · rw [cons_append, lines_cons hc (fun e => absurd e hr)]
      simp [lines, stripCR, hr]
  | c :: d :: l, rest, h => by
    simp only [mem_cons, not_or] at h
    have ih := lines_append_newline (d :: l) rest (by simp [h.2.1, h.2.2])
    have hd : ¬ d = '\n' := fun e => h.2.1 e.symm
    rw [cons_append, lines_cons (fun e => h.1 e.symm) (by simp [hd]), ih,
      stripCR_cons_cons]

theorem lines_of_no_newline : ∀ {l : Str}, l ≠ [] → '\n' ∉ l → lines l = [l]
  | [c], _, h => by
    have hc : c ≠ '\n' := fun e => h (by simp [e])
    rw [lines_cons hc (by simp)]
    simp [lines]
  | c :: d :: l, _, h => by
    simp only [mem_cons, not_or] at h
    have hd : ¬ d = '\n' := fun e => h.2.1 e.symm
    have ih := lines_of_no_newline (l := d :: l) (by simp) (by simp [h.2.1, h.2.2])
    rw [lines_cons (fun e => h.1 e.symm) (by simp [hd]), ih]

theorem lines_append_line {l : Str} (hl : '\n' ∉ l) (hne : l ≠ []) : ∀ {n : ℕ} {u : Str}, u.length ≤ n →
    ∃ ls, lines (u ++ '\n' :: l) = ls ++ [l]
  | 0, [], _ => ⟨[[]], by rw [lines_append_newline [] l not_mem_nil, lines_of_no_newline hne hl]; rfl⟩
  | n + 1, u, hn => by
    by_cases hu : '\n' ∈ u
    · obtain ⟨a, r, rfl, ha⟩ := eq_append_cons_of_mem hu
      simp only [length_append, length_cons] at hn
      obtain ⟨ls, hls⟩ := lines_append_line hl hne (show r.length ≤ n by omega)
      exact ⟨stripCR a :: ls, by rw [append_assoc, cons_append, lines_append_newline _ _ ha, hls]; rfl⟩
    · exact ⟨[stripCR u], by rw [lines_append_newline u l hu, lines_of_no_newline hne hl]; rfl⟩

theorem joinLines_cons_cons (l m : Str) (ls : List Str) :
    joinLines (l :: m :: ls) = l ++ '\n' :: joinLines (m :: ls) := rfl

/-- The lines of joined lines: only a carriage return at the end of a line that is not the
last one gets lost. -/
theorem lines_joinLines : ∀ (ls : List Str) (e : Str), (∀ l ∈ ls, '\n' ∉ l) → '\n' ∉ e → e ≠ [] →
    lines (joinLines (ls ++ [e])) = ls.map stripCR ++ [e]
  | [], e, _, he, hne => lines_of_no_newline hne he
  | [l], e, hls, he, hne => by
    rw [singleton_append, joinLines_cons_cons, lines_append_newline _ _ (hls l (by simp)),
      joinLines, lines_of_no_newline hne he]
    rfl
  | l :: m :: ls, e, hls, he, hne => by
    have ih := lines_joinLines (m :: ls) e (fun x hx => hls x (by simp [hx])) he hne
    rw [cons_append, cons_append, joinLines_cons_cons,
      lines_append_newline _ _ (hls l (by simp)), ← cons_append, ih]
    rfl

theorem prefix_stripCR {w : Str} (hc : c ≠ '\r') (a : Str) : w ++ [c] <+: stripCR (w ++ [c] ++ a) := by
  unfold stripCR
  split_ifs with hlast
  · rcases eq_nil_or_concat' a with rfl | ⟨a, d, rfl⟩
    · rw [append_nil, getLast?_concat] at hlast
      exact absurd (Option.some.inj hlast) hc
    · rw [← append_assoc, dropLast_concat]
      exact prefix_append _ _
  · exact prefix_append _ _

/-- The lines of a non-blank cut of a text: whole lines of the text, then one line cut after
a character that is not white space. -/
theorem lines_of_prefix_text (hc : isWhitespace c = false) (r : Str) : ∀ (n : ℕ) (u : Str), u.length < n →
    ∃ k w l, lines (u ++ [c]) = (lines (u ++ [c] ++ r)).take k ++ [w ++ [c]] ∧
      (lines (u ++ [c] ++ r))[k]? = some l ∧ w ++ [c] <+: l
  | n + 1, u, hn => by
    by_cases hu : '\n' ∈ u
    · obtain ⟨a, u, rfl, ha⟩ := eq_append_cons_of_mem hu
      simp only [length_append, length_cons] at hn
      obtain ⟨k, w, l, h1, h2, h3⟩ := lines_of_prefix_text hc r n u (by omega)
      simp only [append_assoc, cons_append, lines_append_newline _ _ ha] at h1 h2 ⊢
      exact ⟨k + 1, w, l, by rw [h1]; rfl, h2, h3⟩
    · have hcn : '\n' ≠ c := by rintro rfl; simp [isWhitespace] at hc
      have hcr : c ≠ '\r' := by rintro rfl; simp [isWhitespace] at hc
      have hno : '\n' ∉ u ++ [c] := by simp [hu, hcn]
      have hfirst : ∃ l ls, lines (u ++ [c] ++ r) = l :: ls ∧ u ++ [c] <+: l := by
        by_cases hr : '\n' ∈ r
        · obtain ⟨a, b, rfl, ha⟩ := eq_append_cons_of_mem hr
          rw [← append_assoc, lines_append_newline _ _ (by simp [hu, hcn, ha])]
          exact ⟨_, _, rfl, prefix_stripCR hcr a⟩
        · rw [lines_of_no_newline (by simp) (by simp [hu, hcn, hr])]
          exact ⟨_, _, rfl, prefix_append _ _⟩
      obtain ⟨l, ls, hls, hpre⟩ := hfirst
      rw [hls, lines_of_no_newline (by simp) hno]
      exact ⟨0, u, l, rfl, rfl, hpre⟩

/-- **Cuts of a text, line by line.**  The lines of a trimmed cut `p` of `t` are none, or whole
lines of the trimmed text followed by one cut line that does not end in white space. -/
theorem lines_trim_of_prefix_text (h : p <+: t) :
    trim p = [] ∨ ∃ k w c l, lines (trim p) = (lines (trim t)).take k ++ [w ++ [c]] ∧
      (lines (trim t))[k]? = some l ∧ w ++ [c] <+: l ∧ isWhitespace c = false := by
  by_cases hp : trim p = []
  · exact Or.inl hp
  · obtain ⟨u, c, hu, hc⟩ := trim_last hp
    have hpre := trim_prefix_trim h hp
    rw [hu] at hpre ⊢
    obtain ⟨r, hr⟩ := hpre
    rw [← hr]
    obtain ⟨k, w, l, h⟩ := lines_of_prefix_text hc r _ u (Nat.lt_succ_self _)
    exact Or.inr ⟨k, w, c, l, h.1, h.2.1, h.2.2, hc⟩

end Text

/-! ### Fallible code -/

theorem except_bind_ok {ε α β : Type} {x : Except ε α} {f : α → Except ε β} {b : β} :
    x >>= f = .ok b ↔ ∃ a, x = .ok a ∧ f a = .ok b := by
  cases x with
  | error e =>
    refine iff_of_false (fun h => ?_) fun ⟨a, h, _⟩ => ?_
    · cases h
    · cases h
  | ok a =>
    constructor
    · exact fun h => ⟨a, rfl, h⟩
    · rintro ⟨a', ha, h⟩
      cases ha
      exact h

end OpenAgere
