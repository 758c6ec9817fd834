import OpenAgere.Text

/-! # Quote removal

What a POSIX shell leaves of a word whose characters are not expanded: a backslash outside quotes is removed and the
character after it kept, single quotes keep everything between them, and double quotes keep everything but the escapes
of `"`, `\`, `$`, the backquote and the newline.

A piece of a word is closed if it does not end inside quotes or after a backslash; quote removal goes piece by piece
(`WordText.removeQuotes_append`, `removeQuotesFrom_single`, `removeQuotesFrom_double`).  It keeps the text of a piece without
backslashes that escape something, and makes every other one shorter. -/

namespace OpenAgere.ShellQuoting

open List

/-- Where a character of a word stands. -/
inductive Quoting where
  | outside
  | escaped
  | single
  | double
  | doubleEscaped
deriving DecidableEq

/-- The characters a backslash escapes in double quotes, the newline apart. -/
def escapable (c : Char) : Bool := c = '"' || c = '\\' || c = '$' || c = Char.ofNat 96

def removeQuotesFrom : Quoting → Str → Str
  | _, [] => []
  | .outside, c :: s =>
      if c = '\\' then removeQuotesFrom .escaped s
      else if c = '\'' then removeQuotesFrom .single s
      else if c = '"' then removeQuotesFrom .double s
      else c :: removeQuotesFrom .outside s
  | .escaped, c :: s => c :: removeQuotesFrom .outside s
  | .single, c :: s => if c = '\'' then removeQuotesFrom .outside s else c :: removeQuotesFrom .single s
  | .double, c :: s =>
      if c = '\\' then removeQuotesFrom .doubleEscaped s
      else if c = '"' then removeQuotesFrom .outside s
      else c :: removeQuotesFrom .double s
  | .doubleEscaped, c :: s =>
      if c = '\n' then removeQuotesFrom .double s
      else if escapable c then c :: removeQuotesFrom .double s
      else '\\' :: c :: removeQuotesFrom .double s

/-- Quote removal on a word. -/
def removeQuotes (s : Str) : Str := removeQuotesFrom .outside s

/-- Text without quotes, in which every backslash has a character after it. -/
inductive WordText : Str → Prop
  | nil : WordText []
  | char {c : Char} {s : Str} (hb : c ≠ '\\') (hs : c ≠ '\'') (hd : c ≠ '"') (h : WordText s) : WordText (c :: s)
  | escape {c : Char} {s : Str} (h : WordText s) : WordText ('\\' :: c :: s)

/-- The text between double quotes. -/
inductive DoubleText : Str → Prop
  | nil : DoubleText []
  | char {c : Char} {s : Str} (hb : c ≠ '\\') (hd : c ≠ '"') (h : DoubleText s) : DoubleText (c :: s)
  | escape {c : Char} {s : Str} (h : DoubleText s) : DoubleText ('\\' :: c :: s)

/-! ### Words without quotes -/

variable {c : Char} {s : Str}

theorem removeQuotesFrom_char (hb : c ≠ '\\') (hs : c ≠ '\'') (hd : c ≠ '"') :
    removeQuotesFrom .outside (c :: s) = c :: removeQuotesFrom .outside s := by
  show (if c = '\\' then _ else if c = '\'' then _ else if c = '"' then _ else _) = _
  rw [if_neg hb, if_neg hs, if_neg hd]

theorem removeQuotesFrom_escape : removeQuotesFrom .outside ('\\' :: c :: s) = c :: removeQuotesFrom .outside s :=
  if_pos rfl

theorem WordText.removeQuotes_append (h : WordText s) (t : Str) :
    removeQuotes (s ++ t) = removeQuotes s ++ removeQuotes t := by
  unfold removeQuotes
  induction h with
  | nil => rfl
  | char hb hs hd _ ih => rw [cons_append, removeQuotesFrom_char hb hs hd, removeQuotesFrom_char hb hs hd, ih]; rfl
  | escape _ ih =>
    rw [cons_append, cons_append, removeQuotesFrom_escape, removeQuotesFrom_escape, ih]
    rfl

theorem WordText.length_removeQuotes_le (h : WordText s) : (removeQuotes s).length ≤ s.length := by
  unfold removeQuotes
  induction h with
  | nil => exact le_refl 0
  | char hb hs hd _ ih =>
    rw [removeQuotesFrom_char hb hs hd]
    exact Nat.succ_le_succ ih
  | escape _ ih =>
    rw [removeQuotesFrom_escape]
    exact Nat.le_succ_of_le (Nat.succ_le_succ ih)

theorem WordText.removeQuotes_of_not_mem (h : WordText s) (hb : '\\' ∉ s) : removeQuotes s = s := by
  unfold removeQuotes
  induction h with
  | nil => rfl
  | char hb' hs hd _ ih =>
    rw [removeQuotesFrom_char hb' hs hd, ih fun hm => hb (mem_cons_of_mem _ hm)]
  | escape => exact absurd mem_cons_self hb

theorem WordText.length_removeQuotes_lt (h : WordText s) (hb : '\\' ∈ s) : (removeQuotes s).length < s.length := by
  unfold removeQuotes
  induction h with
  | nil => exact absurd hb not_mem_nil
  | char hb' hs hd _ ih =>
    rw [removeQuotesFrom_char hb' hs hd]
    exact Nat.succ_lt_succ (ih ((mem_cons.mp hb).resolve_left (Ne.symm hb')))
  | escape h _ =>
    rw [removeQuotesFrom_escape]
    exact Nat.lt_succ_of_le (Nat.succ_le_succ h.length_removeQuotes_le)

/-! ### Single quotes -/

variable {body : Str}

theorem removeQuotesFrom_single (h : '\'' ∉ body) (t : Str) :
    removeQuotesFrom .single (body ++ '\'' :: t) = body ++ removeQuotes t := by
  induction body with
  | nil => exact if_pos rfl
  | cons c body ih =>
    have hc : c ≠ '\'' := fun he => h (he ▸ mem_cons_self)
    show (if c = '\'' then _ else c :: removeQuotesFrom .single (body ++ '\'' :: t)) = _
    rw [if_neg hc, ih fun hm => h (mem_cons_of_mem c hm)]
    rfl

/-! ### Double quotes -/

/-- What double quotes leave of the text between them. -/
def unescape (body : Str) : Str := removeQuotesFrom .double body

theorem removeQuotesFrom_double_char (hb : c ≠ '\\') (hd : c ≠ '"') :
    removeQuotesFrom .double (c :: s) = c :: removeQuotesFrom .double s := by
  show (if c = '\\' then _ else if c = '"' then _ else _) = _
  rw [if_neg hb, if_neg hd]

theorem removeQuotesFrom_double_escape : removeQuotesFrom .double ('\\' :: c :: s) =
      (if c = '\n' then [] else if escapable c then [c] else ['\\', c]) ++ removeQuotesFrom .double s := by
  show (if c = '\n' then _ else if escapable c then _ else _) = _
  split_ifs <;> rfl

theorem removeQuotesFrom_double (h : DoubleText body) (t : Str) :
    removeQuotesFrom .double (body ++ '"' :: t) = unescape body ++ removeQuotes t := by
  unfold unescape
  induction h with
  | nil =>
    rfl
  | char hb hd _ ih =>
    rw [cons_append, removeQuotesFrom_double_char hb hd, removeQuotesFrom_double_char hb hd, ih]
    rfl
  | escape _ ih =>
    rw [cons_append, cons_append, removeQuotesFrom_double_escape, removeQuotesFrom_double_escape, ih,
      append_assoc]

/-- A backslash stands before a character it escapes. -/
def hasEscape : Str → Bool
  | [] => false
  | c :: s => (c = '\\' && s.head?.any (fun d => d = '\n' || escapable d)) || hasEscape s

theorem hasEscape_char (hb : c ≠ '\\') : hasEscape (c :: s) = hasEscape s := by
  rw [hasEscape, decide_eq_false hb, Bool.false_and, Bool.false_or]

theorem hasEscape_escape : hasEscape ('\\' :: c :: s) = ((c = '\n' || escapable c) || hasEscape s) := by
  have hhead : hasEscape ('\\' :: c :: s) = ((c = '\n' || escapable c) || hasEscape (c :: s)) := rfl
  rw [hhead]
  by_cases hc : c = '\\'
  · rw [hc]
    rfl
  · rw [hasEscape_char hc]

theorem DoubleText.length_unescape_le (h : DoubleText body) : (unescape body).length ≤ body.length := by
  unfold unescape
  induction h with
  | nil => exact le_refl 0
  | char hb hd _ ih =>
    rw [removeQuotesFrom_double_char hb hd]
    exact Nat.succ_le_succ ih
  | escape _ ih =>
    rw [removeQuotesFrom_double_escape, length_append, length_cons, length_cons]
    split_ifs <;> simp only [length_cons, length_nil] <;> omega

theorem DoubleText.unescape_of_not (h : DoubleText body) (hn : hasEscape body = false) : unescape body = body := by
  unfold unescape
  induction h with
  | nil => rfl
  | char hb hd _ ih =>
    rw [hasEscape_char hb] at hn
    rw [removeQuotesFrom_double_char hb hd, ih hn]
  | escape _ ih =>
    rw [hasEscape_escape, Bool.or_eq_false_iff, Bool.or_eq_false_iff] at hn
    rw [removeQuotesFrom_double_escape, if_neg (of_decide_eq_false hn.1.1),
      if_neg (Bool.eq_false_iff.mp hn.1.2), ih hn.2]
    rfl

theorem DoubleText.length_unescape_lt (h : DoubleText body) (hn : hasEscape body) :
    (unescape body).length < body.length := by
  unfold unescape
  induction h with
  | nil => cases hn
  | char hb hd _ ih =>
    rw [hasEscape_char hb] at hn
    rw [removeQuotesFrom_double_char hb hd]
    exact Nat.succ_lt_succ (ih hn)
  | @escape c s h ih =>
    have hle : (removeQuotesFrom .double s).length ≤ s.length := h.length_unescape_le
    rw [removeQuotesFrom_double_escape, length_append, length_cons, length_cons]
    rw [hasEscape_escape, Bool.or_eq_true_iff, Bool.or_eq_true_iff] at hn
    by_cases hnewline : c = '\n'
    · rw [if_pos hnewline, length_nil]
      omega
    · rw [if_neg hnewline]
      by_cases hesc : escapable c = true
      · rw [if_pos hesc, length_singleton]
        omega
      · rw [if_neg hesc, length_cons, length_singleton]
        have hrest := ih (hn.resolve_left fun h => h.elim (fun hc => hnewline (of_decide_eq_true hc)) hesc)
        omega

end OpenAgere.ShellQuoting
