import OpenAgere.ExecPolicy
import OpenAgere.NetworkPolicy

/-! # Hosts of network rules

`normalize_network_rule_host` of `execpolicy/src/rule.rs`.  A host is normalised when a rule is added or written
to a file, and again when the file is read; how texts are written and read there is a parameter (`Literals`).  The
steps run once in a fixed order, so that the host that is read can be another one; `readBackHost_iff` says for which
hosts it is not. -/

namespace OpenAgere.ExecPolicy

open List Text Network

open scoped Str

/-! ### The function -/

def emptyHost : Str := "network_rule host cannot be empty"

/-- A port: digits, and at least one. -/
def isPort (port : Str) : Bool := !port.isEmpty && port.all Char.isDigit

/-- `host` ends with its only colon and a port. -/
def HasPort (host : Str) : Prop :=
  host.count ':' = 1 ∧ host.takeWhile (· ≠ ':') ≠ [] ∧ isPort (host.dropWhile (· ≠ ':')).tail

instance (host : Str) : Decidable (HasPort host) := inferInstanceAs (Decidable (_ ∧ _))

/-- What is left of a trimmed host without its brackets or its port. -/
def hostText (raw host : Str) : Except Str Str :=
  if host.head? = some '[' then
    if ']' ∈ host then
      let rest := (host.dropWhile (· ≠ ']')).tail
      if rest = [] ∨ rest.head? = some ':' ∧ isPort rest.tail then .ok (host.takeWhile (· ≠ ']')).tail
      else .error ("network_rule host contains an unsupported suffix: " ++ raw)
    else .error "network_rule host has an invalid bracketed IPv6 literal"
  else if HasPort host then .ok (host.takeWhile (· ≠ ':'))
  else .ok host

def checkedHost (host : Str) : Except Str Str :=
  let normalized := toAsciiLowercase (trim (trimEndDots host))
  if normalized = [] then .error emptyHost
  else if '*' ∈ normalized then
    .error "network_rule host must be a specific host; wildcards are not allowed"
  else if normalized.any isWhitespace then .error "network_rule host cannot contain whitespace"
  else .ok normalized

def normalizeNetworkRuleHost (raw : Str) : Except Str Str :=
  let host := trim raw
  if host = [] then .error emptyHost
  -- `://` has a slash
  else if '/' ∈ host ∨ '?' ∈ host ∨ '#' ∈ host then
    .error "network_rule host must be a hostname or IP literal (without scheme or path)"
  else (hostText raw host).bind checkedHost

/-- Texts in a policy file: how `serde_json` writes them, and how the parser of the file reads them. -/
structure Literals where
  toString : Str → Str
  parse : Str → Except Str Str

def Literals.RoundTrip (literals : Literals) : Prop := ∀ text, literals.parse (literals.toString text) = .ok text

/-- The host that the parser reads in the line of `blocking_append_network_rule`; `add_network_rule` stores the
one of `normalizeNetworkRuleHost`. -/
def readBackHost (literals : Literals) (raw : Str) : Except Str Str :=
  (normalizeNetworkRuleHost raw).bind fun host =>
    (literals.parse (literals.toString host)).bind normalizeNetworkRuleHost

/-! ### Normalising again -/

/-- A text from which nothing is taken: it begins with no bracket, and ends with no port and no dot. -/
def Bare (host : Str) : Prop := host.head? ≠ some '[' ∧ ¬ HasPort host ∧ host.getLast? ≠ some '.'

/-- The text in the brackets or before the port is bare, without trailing dots and the blanks around it. -/
def BareInside (raw : Str) : Prop := ∀ text, hostText raw (trim raw) = .ok text → Bare (trim (trimEndDots text))

variable {raw text host n : Str}

theorem checkedHost_eq_ok : checkedHost text = .ok n ↔ toAsciiLowercase (trim (trimEndDots text)) = n ∧ n ≠ [] ∧
    '*' ∉ n ∧ n.any isWhitespace = false := by
  unfold checkedHost
  dsimp only
  constructor
  · intro h
    split_ifs at h with hnil hstar hspace
    cases h
    exact ⟨rfl, hnil, hstar, Bool.eq_false_of_not_eq_true hspace⟩
  · rintro ⟨rfl, hnil, hstar, hspace⟩
    rw [if_neg hnil, if_neg hstar, hspace]
    rfl

theorem isDigit_toLower (c : Char) : c.toLower.isDigit = c.isDigit := by
  rw [Bool.eq_iff_iff, Char.isDigit_iff_toNat, Char.isDigit_iff_toNat, toNat_toLower]
  split_ifs <;> simp
  omega

theorem bare_lower : Bare (toAsciiLowercase host) ↔ Bare host := by
  unfold Bare HasPort
  rw [count_lower (by decide), takeWhile_lower (ne_toLower (by decide)), dropWhile_lower (ne_toLower (by decide))]
  simp [toAsciiLowercase, isPort, isDigit_toLower, Function.comp_def, ← map_tail,
    map_toLower_eq_some (show '['.isAlpha = false by decide), map_toLower_eq_some (show '.'.isAlpha = false by decide)]

/-- What is taken away makes a host shorter. -/
theorem hostText_eq_ok (h : hostText raw host = .ok text) :
    text = host ∧ host.head? ≠ some '[' ∧ ¬ HasPort host ∨ text.Sublist host ∧ text.length < host.length := by
  revert h
  fun_cases hostText raw host with
  | case1 hhead =>
    rintro ⟨⟩
    obtain ⟨rest, rfl⟩ := head?_eq_some_iff.mp hhead
    have hsub := takeWhile_sublist (l := rest) (decide <| · ≠ ']')
    exact .inr ⟨hsub.cons _, Nat.lt_succ_of_le hsub.length_le⟩
  | case4 _ hport =>
    rintro ⟨⟩
    refine .inr ⟨takeWhile_sublist _, (takeWhile_sublist _).length_le.lt_of_ne fun hlen => ?_⟩
    have hall := takeWhile_eq_self_iff.mp ((takeWhile_sublist _).eq_of_length hlen)
    have hmem : ':' ∈ host := count_pos_iff.mp (by rw [hport.1]; exact Nat.one_pos)
    exact absurd rfl (of_decide_eq_true (hall ':' hmem))
  | case5 hhead hport =>
    rintro ⟨⟩
    exact .inl ⟨rfl, hhead, hport⟩
  | _ => exact nofun

theorem trimEndDots_sublist (text : Str) : (trimEndDots text).Sublist text := by
  have hdots : trimEndDots text <+: text := rdropWhile_prefix _ _
  exact hdots.sublist

theorem trim_trimEndDots_sublist (text : Str) : (trim (trimEndDots text)).Sublist (trimEndDots text) :=
  (trimEnd_prefix_self _).sublist.trans (dropWhile_suffix _).sublist

/-- What the end of the function accepts is not trimmed again. -/
theorem trim_of_checkedHost (h : checkedHost text = .ok n) : trim n = n := by
  have hnot := any_eq_false.mp (checkedHost_eq_ok.mp h).2.2.2
  unfold trim trimEnd trimStart
  rw [dropWhile_eq_self_iff.mpr fun hpos => hnot _ (getElem_mem hpos),
    rdropWhile_eq_self_iff.mpr fun hne => hnot _ (getLast_mem hne)]

/-- The checks accept their result again exactly if nothing is taken from it. -/
theorem hostText_bind_checkedHost_iff (h : checkedHost text = .ok n) :
    (hostText n n).bind checkedHost = .ok n ↔ Bare n := by
  obtain ⟨hn, hnil, hstar, hspace⟩ := checkedHost_eq_ok.mp h
  refine Iff.trans except_bind_ok ?_
  constructor
  · rintro ⟨text', htext, hchecked⟩
    have hlen : n.length ≤ (trimEndDots text').length := by
      rw [← (checkedHost_eq_ok.mp hchecked).1]
      exact (length_map _).trans_le (trim_trimEndDots_sublist text').length_le
    have hdots := (trimEndDots_sublist text').length_le
    obtain ⟨rfl, hhead, hport⟩ | ⟨-, hlt⟩ := hostText_eq_ok htext
    · refine ⟨hhead, hport, fun hdot => ?_⟩
      obtain ⟨init, rfl⟩ := getLast?_eq_some_iff.mp hdot
      rw [trimEndDots, rdropWhile_concat_pos _ _ _ rfl, length_append, length_singleton] at hlen
      have hinit : (init.rdropWhile (· == '.')).length ≤ init.length := (trimEndDots_sublist init).length_le
      omega
    · exact absurd (hlen.trans hdots) (not_le.mpr hlt)
  · rintro ⟨hhead, hport, hdot⟩
    have hdots : trimEndDots n = n := by
      refine rdropWhile_eq_self_iff.mpr fun hne hlast => hdot ?_
      rw [getLast?_eq_some_getLast hne, beq_iff_eq.mp hlast]
    refine ⟨n, by rw [hostText, if_neg hhead, if_neg hport], checkedHost_eq_ok.mpr ⟨?_, hnil, hstar, hspace⟩⟩
    rw [hdots, trim_of_checkedHost h, ← hn, toAsciiLowercase_idem]

/-- **Hosts that are read back** as they were added. -/
theorem readBackHost_iff {literals : Literals} (hliterals : literals.RoundTrip)
    (h : normalizeNetworkRuleHost raw = .ok n) :
    normalizeNetworkRuleHost n = .ok n ∧ readBackHost literals raw = .ok n ↔ BareInside raw := by
  have hread : readBackHost literals raw = normalizeNetworkRuleHost n := by
    rw [readBackHost, h]
    show (literals.parse (literals.toString n)).bind normalizeNetworkRuleHost = _
    rw [hliterals n]
    rfl
  rw [hread, and_self]
  unfold normalizeNetworkRuleHost at h
  dsimp only at h
  split_ifs at h with hempty hscheme
  obtain ⟨text, htext, hchecked⟩ := except_bind_ok.mp h
  obtain ⟨hn, hnil, -⟩ := checkedHost_eq_ok.mp hchecked
  have hsub : text.Sublist (trim raw) := (hostText_eq_ok htext).elim (fun h => h.1 ▸ .refl _) And.left
  have hkept : ∀ c : Char, c.isAlpha = false → c ∈ n → c ∈ trim raw := by
    intro c hc hmem
    rw [← hn, mem_lower hc] at hmem
    exact hsub.subset ((trimEndDots_sublist text).subset ((trim_trimEndDots_sublist text).subset hmem))
  have hagain : normalizeNetworkRuleHost n = (hostText n n).bind checkedHost := by
    unfold normalizeNetworkRuleHost
    dsimp only
    rw [trim_of_checkedHost hchecked, if_neg hnil, if_neg]
    exact fun h => hscheme (h.imp (hkept _ rfl) (Or.imp (hkept _ rfl) (hkept _ rfl)))
  rw [hagain, hostText_bind_checkedHost_iff hchecked, ← hn, bare_lower]
  exact ⟨fun hbare other hother => Except.ok.inj (htext.symm.trans hother) ▸ hbare, fun hbare => hbare text htext⟩

def quoted : Literals := ⟨fun text => '"' :: (text ++ ['"']), fun literal => .ok literal.tail.dropLast⟩

theorem readBackHost_bracketed : quoted.RoundTrip ∧ normalizeNetworkRuleHost "[A.b.]:80" = .ok "a.b" ∧
    BareInside "[A.b.]:80" := by
  have hquoted : quoted.RoundTrip := fun _ => congrArg Except.ok dropLast_concat
  have h : normalizeNetworkRuleHost "[A.b.]:80" = .ok "a.b" := by decide +kernel
  exact ⟨hquoted, h, (readBackHost_iff hquoted h).mp (by decide +kernel)⟩

/-- A port inside brackets is read as one the second time. -/
theorem not_readBackHost_bracketedPort : normalizeNetworkRuleHost "[a:1]" = .ok "a:1" ∧
    readBackHost quoted "[a:1]" = .ok "a" := by
  decide +kernel

end OpenAgere.ExecPolicy
