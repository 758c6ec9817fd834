import Mathlib.Data.List.Basic
import Mathlib.Tactic.Common

/-! # A stream cut into lines

A stream arrives in pieces of any size.  What has arrived and is not part of a finished line yet waits in a
buffer.  `Cut` relates everything that has arrived to the lines taken and the buffer.  It is kept when a piece
arrives and when a line is taken, so the lines do not depend on how the stream was cut into pieces.

At the end of the stream the buffer is one more line, unless it is empty (`finalLines`). -/

namespace OpenAgere.Framing

open List Option

variable {α : Type*} [DecidableEq α] (delim : α)

/-- The first line and what follows its delimiter. -/
def takeLine : List α → Option (List α × List α)
  | [] => none
  | x :: xs => if x = delim then some ([], xs) else (takeLine xs).map fun parts => (x :: parts.1, parts.2)

/-- The lines of a whole stream; a delimiter at its end does not begin another line. -/
def finalLines (whole : List α) : List (List α) :=
  if (whole.splitOn delim).getLast? = some [] then (whole.splitOn delim).dropLast else whole.splitOn delim

/-- The lines have been taken from the front of the stream and the buffer is left. -/
def Cut (whole : List α) (lines : List (List α)) (buffer : List α) : Prop :=
  whole.splitOn delim = lines ++ buffer.splitOn delim

variable {delim} {whole buffer line rest : List α} {lines : List (List α)}

theorem takeLine_eq_some : ∀ {l line rest : List α}, takeLine delim l = some (line, rest) →
    l = line ++ delim :: rest ∧ delim ∉ line
  | x :: xs, _, _, h => by
    rw [takeLine] at h
    split at h
    · next hx =>
        obtain ⟨rfl, rfl⟩ := Prod.mk.inj (some.inj h)
        exact ⟨congrArg (· :: xs) hx, not_mem_nil⟩
    · next hx =>
        obtain ⟨⟨line', rest'⟩, hxs, h⟩ := map_eq_some_iff.mp h
        obtain ⟨rfl, rfl⟩ := Prod.mk.inj h
        obtain ⟨rfl, hmem⟩ := takeLine_eq_some hxs
        exact ⟨rfl, not_mem_cons_of_ne_of_not_mem (Ne.symm hx) hmem⟩

theorem takeLine_eq_none : ∀ {l : List α}, takeLine delim l = none → delim ∉ l
  | [], _ => not_mem_nil
  | x :: xs, h => by
    rw [takeLine] at h
    split at h
    · exact nomatch h
    · next hx =>
        exact not_mem_cons_of_ne_of_not_mem (Ne.symm hx) (takeLine_eq_none (map_eq_none_iff.mp h))

/-- Only the last line can grow. -/
theorem exists_splitOn (delim : α) : ∀ l : List α, ∃ lines last, l.splitOn delim = lines ++ [last] ∧
    ∀ piece, (l ++ piece).splitOn delim = lines ++ (last ++ piece).splitOn delim
  | [] => ⟨[], [], rfl, fun _ => rfl⟩
  | x :: xs => by
    obtain ⟨lines, last, heq, happend⟩ := exists_splitOn delim xs
    by_cases hx : x = delim
    · subst hx
      have hcons : ∀ l : List α, (x :: l).splitOn x = [] :: l.splitOn x := fun l =>
        splitOn_append_cons_self_of_not_mem not_mem_nil l
      exact ⟨[] :: lines, last, by rw [hcons, heq]; rfl, fun piece => by rw [cons_append, hcons, happend]; rfl⟩
    · have hcons : ∀ l : List α, (x :: l).splitOn delim = (l.splitOn delim).modifyHead (x :: ·) := fun l =>
        (splitOnP_cons_eq_if_modifyHead x l).trans (if_neg (mt eq_of_beq hx))
      cases lines with
      | nil =>
        refine ⟨[], x :: last, by rw [hcons, heq]; rfl, fun piece => ?_⟩
        rw [cons_append, hcons, happend, nil_append, nil_append, cons_append, hcons]
      | cons first lines =>
        exact ⟨(x :: first) :: lines, last, by rw [hcons, heq]; rfl,
          fun piece => by rw [cons_append, hcons, happend]; rfl⟩

namespace Cut

theorem empty (delim : α) : Cut delim [] [] [] := rfl

theorem append (h : Cut delim whole lines buffer) (piece : List α) :
    Cut delim (whole ++ piece) lines (buffer ++ piece) := by
  obtain ⟨done, last, heq, hwhole⟩ := exists_splitOn delim whole
  obtain ⟨done', last', heq', hbuffer⟩ := exists_splitOn delim buffer
  rw [Cut, heq, heq', ← append_assoc] at h
  obtain ⟨rfl, hlast⟩ := append_inj' h rfl
  rw [Cut, hwhole, hbuffer, singleton_inj.mp hlast, append_assoc]

theorem take (h : Cut delim whole lines buffer) (hl : takeLine delim buffer = some (line, rest)) :
    Cut delim whole (lines ++ [line]) rest := by
  obtain ⟨rfl, hmem⟩ := takeLine_eq_some hl
  rw [Cut, h, splitOn_append_cons_self_of_not_mem hmem, append_assoc]
  rfl

theorem finalLines_eq (h : Cut delim whole lines buffer) :
    finalLines delim whole = lines ++ finalLines delim buffer := by
  obtain ⟨done, last, heq, _⟩ := exists_splitOn delim buffer
  unfold finalLines
  rw [h, heq, ← append_assoc, getLast?_concat, getLast?_concat, dropLast_concat,
    dropLast_concat]
  split <;> simp

end Cut

theorem finalLines_of_not_mem (h : delim ∉ buffer) (hne : buffer ≠ []) : finalLines delim buffer = [buffer] := by
  unfold finalLines
  rw [splitOn_eq_singleton h, getLast?_singleton, if_neg]
  exact fun hnil => hne (some.inj hnil)

end OpenAgere.Framing
