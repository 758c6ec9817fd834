import Mathlib.Data.List.Dedup
import Mathlib.Data.List.Induction
import Mathlib.Order.MinMax
import OpenAgere.HashMap
import OpenAgere.Text

/-! # Policies for commands

`execpolicy/src/policy.rs` and `rule.rs`: rules that match the first words of a command, stored under the
program they start with, and the decision for a list of commands.  Every builder of a policy stores a
rule under its own program, which a `Policy` carries as a field.  How the path of a program is resolved
is a parameter, and so is the order in which the overlay is iterated.

The decision for a list of commands under a merged policy is the strictest, over the commands, of the
strictest decision of all rules of both policies that match, or of the fallback if none does; it does not
depend on any order, and an overlay does not weaken the rules below it (`decision_mergeOverlay`).  The domains
of the network rules are those of the last words on them (`compiledNetworkDomains_spec`). -/

namespace OpenAgere.ExecPolicy

open List Option

/-! ### Decisions -/

inductive Decision where
  | allow
  | prompt
  | forbidden
deriving DecidableEq, Repr

/-- How strict a decision is. -/
def Decision.rank : Decision → ℕ
  | allow => 0
  | prompt => 1
  | forbidden => 2

theorem Decision.rank_injective : Function.Injective Decision.rank := by
  intro a b h
  cases a <;> cases b <;> first | rfl | exact absurd h (by decide)

instance : LinearOrder Decision := LinearOrder.lift' Decision.rank Decision.rank_injective

/-! ### Rules -/

inductive PatternToken where
  | single (expected : Str)
  | alts (alternatives : List Str)
deriving DecidableEq, Repr

def PatternToken.matches : PatternToken → Str → Bool
  | single expected, token => expected = token
  | alts alternatives, token => alternatives.any fun alt => alt = token

structure PrefixPattern where
  first : Str
  rest : List PatternToken
deriving DecidableEq, Repr

def PrefixPattern.matchesPrefix (pattern : PrefixPattern) (cmd : List Str) : Option (List Str) :=
  if cmd.length < pattern.rest.length + 1 ∨ cmd.head? ≠ some pattern.first then none
  else if (pattern.rest.zip ((cmd.take (pattern.rest.length + 1)).drop 1)).all fun e => e.1.matches e.2 then
    some (cmd.take (pattern.rest.length + 1))
  else none

inductive RuleMatch where
  | prefixRuleMatch (matchedPrefix : List Str) (decision : Decision) (resolvedProgram : Option Str)
      (justification : Option Str)
  | heuristicsRuleMatch (command : List Str) (decision : Decision)
deriving DecidableEq, Repr

def RuleMatch.decision : RuleMatch → Decision
  | prefixRuleMatch _ decision _ _ => decision
  | heuristicsRuleMatch _ decision => decision

def RuleMatch.withResolvedProgram (resolvedProgram : Str) : RuleMatch → RuleMatch
  | prefixRuleMatch matchedPrefix decision _ justification =>
      prefixRuleMatch matchedPrefix decision (some resolvedProgram) justification
  | other => other

structure PrefixRule where
  pattern : PrefixPattern
  decision : Decision
  justification : Option Str
deriving DecidableEq, Repr

def PrefixRule.program (rule : PrefixRule) : Str := rule.pattern.first

def PrefixRule.matches (rule : PrefixRule) (cmd : List Str) : Option RuleMatch :=
  (rule.pattern.matchesPrefix cmd).map fun matchedPrefix =>
    .prefixRuleMatch matchedPrefix rule.decision none rule.justification

inductive NetworkRuleProtocol where
  | http
  | https
  | socks5Tcp
  | socks5Udp
deriving DecidableEq, Repr

structure NetworkRule where
  host : Str
  protocol : NetworkRuleProtocol
  decision : Decision
  justification : Option Str
deriving DecidableEq, Repr

/-! ### Multimaps -/

/-- A map from a key to the values inserted for it, in their order. -/
abbrev MultiMap (κ υ : Type) := HashMap κ (List υ)

namespace MultiMap
variable {κ υ : Type} [DecidableEq κ]

def values (m : MultiMap κ υ) (k : κ) : List υ := (m.get k).getD []

def push (m : MultiMap κ υ) (k : κ) (v : υ) : MultiMap κ υ := HashMap.insert m k (values m k ++ [v])

/-- Insert all values of another map, key after key in the order of an iteration. -/
def pushAll (ord : IterOrder κ) (m overlay : MultiMap κ υ) : MultiMap κ υ :=
  (overlay.keys ord).foldl (fun m k => (values overlay k).foldl (fun m v => push m k v) m) m

theorem values_push (m : MultiMap κ υ) (k k' : κ) (v : υ) :
    values (push m k v) k' = if k' = k then values m k' ++ [v] else values m k' := by
  unfold values push
  rw [HashMap.get_insert]
  split_ifs with hk
  · rw [hk]
    rfl
  · rfl

theorem values_foldl_push (k k' : κ) : ∀ (vs : List υ) (m : MultiMap κ υ),
    values (vs.foldl (fun m v => push m k v) m) k' = if k' = k then values m k' ++ vs else values m k'
  | [], m => by simp
  | v :: vs, m => by
    rw [foldl_cons, values_foldl_push k k' vs, values_push]
    split_ifs <;> simp

theorem values_foldl (overlay : MultiMap κ υ) (k : κ) : ∀ (ks : List κ) (m : MultiMap κ υ), ks.Nodup →
    values (ks.foldl (fun m k => (values overlay k).foldl (fun m v => push m k v) m) m) k =
      if k ∈ ks then values m k ++ values overlay k else values m k
  | [], m, _ => by simp
  | k' :: ks, m, h => by
    obtain ⟨hnot, hrest⟩ := nodup_cons.mp h
    rw [foldl_cons, values_foldl overlay k ks _ hrest, values_foldl_push]
    by_cases hk : k = k'
    · rw [← hk] at hnot ⊢
      simp [hnot]
    · simp [hk]

theorem values_eq_nil {m : MultiMap κ υ} {k : κ} (h : k ∉ m.entries.map Prod.fst) : values m k = [] := by
  have hget : m.get k = none := HashMap.get_eq_none.mpr (decide_eq_false h)
  unfold values
  rw [hget]
  rfl

/-- Whatever the order of the iteration, the values of the overlay come behind those that were there. -/
theorem values_pushAll (ord : IterOrder κ) (m overlay : MultiMap κ υ) (k : κ) :
    values (pushAll ord m overlay) k = values m k ++ values overlay k := by
  unfold pushAll
  rw [values_foldl overlay k _ m (HashMap.nodup_keys ord overlay)]
  split_ifs with hk
  · rfl
  · have hnone := values_eq_nil fun h => hk ((ord.perm _ _).mem_iff.mpr h)
    rw [hnone, append_nil]

theorem mem_values {m : MultiMap κ υ} {k : κ} {v : υ} :
    v ∈ values m k ↔ ∃ vs, m.get k = some vs ∧ v ∈ vs := by
  unfold values
  cases m.get k <;> simp

end MultiMap

/-! ### Policies -/

structure Policy where
  rulesByProgram : MultiMap Str PrefixRule
  networkRules : List NetworkRule
  hostExecutablesByName : HashMap Str (List Str)
  /-- A rule is stored under its own program. -/
  keyed : ∀ program, ∀ rule ∈ rulesByProgram.values program, rule.program = program

namespace Policy

def empty : Policy := ⟨HashMap.empty, [], HashMap.empty, by intro _ _ h; cases h⟩

/-- All rules of a policy. -/
def rules (policy : Policy) : List PrefixRule := policy.rulesByProgram.entries.flatMap (·.2)

def addRule (policy : Policy) (rule : PrefixRule) : Policy where
  rulesByProgram := policy.rulesByProgram.push rule.program rule
  networkRules := policy.networkRules
  hostExecutablesByName := policy.hostExecutablesByName
  keyed := by
    intro program r hr
    rw [MultiMap.values_push] at hr
    split_ifs at hr with hp
    · obtain hr | hr := List.mem_append.mp hr
      · exact policy.keyed program r hr
      · rw [List.mem_singleton.mp hr, hp]
    · exact policy.keyed program r hr

/-- Set the values of all keys of another map. -/
def extend (m overlay : HashMap Str (List Str)) (ord : IterOrder Str) : HashMap Str (List Str) :=
  (overlay.keys ord).foldl (fun m k => m.insert k ((overlay.get k).getD [])) m

def mergeOverlay (ord : IterOrder Str) (policy overlay : Policy) : Policy where
  rulesByProgram := policy.rulesByProgram.pushAll ord overlay.rulesByProgram
  networkRules := policy.networkRules ++ overlay.networkRules
  hostExecutablesByName := extend policy.hostExecutablesByName overlay.hostExecutablesByName ord
  keyed := by
    intro program rule hrule
    rw [MultiMap.values_pushAll] at hrule
    obtain hrule | hrule := List.mem_append.mp hrule
    · exact policy.keyed program rule hrule
    · exact overlay.keyed program rule hrule

structure MatchOptions where
  resolveHostExecutables : Bool
deriving DecidableEq, Repr

def MatchOptions.default : MatchOptions := ⟨false⟩

structure Evaluation where
  decision : Decision
  matchedRules : List RuleMatch
deriving DecidableEq, Repr

/-- The strictest decision; none is the panic for an empty list. -/
def Evaluation.fromMatches (matchedRules : List RuleMatch) : Option Evaluation :=
  (matchedRules.map RuleMatch.decision).max?.map fun decision => ⟨decision, matchedRules⟩

section check
variable (resolveProgram : Str → Option (Str × Str)) (policy : Policy)

def matchExactRules (cmd : List Str) : List RuleMatch :=
  match cmd with
  | [] => []
  | first :: _ => (policy.rulesByProgram.values first).filterMap fun rule => rule.matches cmd

/-- Match a program given by its path under its name, if the name allows the path. -/
def matchHostExecutableRules (cmd : List Str) : List RuleMatch :=
  match cmd with
  | [] => []
  | first :: args =>
      match resolveProgram first with
      | none => []
      | some (program, basename) =>
          if ((policy.hostExecutablesByName.get basename).any fun paths => !paths.any fun path => path = program)
          then []
          else ((policy.rulesByProgram.values basename).filterMap fun rule => rule.matches (basename :: args)).map
            (RuleMatch.withResolvedProgram program)

def matchesForCommandWithOptions (cmd : List Str) (heuristicsFallback : Option (List Str → Decision))
    (options : MatchOptions) : List RuleMatch :=
  let matchedRules :=
    if matchExactRules policy cmd ≠ [] then matchExactRules policy cmd
    else if options.resolveHostExecutables then matchHostExecutableRules resolveProgram policy cmd
    else []
  match matchedRules, heuristicsFallback with
  | [], some heuristicsFallback => [.heuristicsRuleMatch cmd (heuristicsFallback cmd)]
  | matchedRules, _ => matchedRules

def checkMultipleWithOptions (commands : List (List Str)) (heuristicsFallback : List Str → Decision)
    (options : MatchOptions) : Option Evaluation :=
  Evaluation.fromMatches (commands.flatMap fun cmd =>
    matchesForCommandWithOptions resolveProgram policy cmd (some heuristicsFallback) options)

def checkMultiple (commands : List (List Str)) (heuristicsFallback : List Str → Decision) : Option Evaluation :=
  checkMultipleWithOptions resolveProgram policy commands heuristicsFallback .default

def check (cmd : List Str) (heuristicsFallback : List Str → Decision) : Option Evaluation :=
  Evaluation.fromMatches (matchesForCommandWithOptions resolveProgram policy cmd (some heuristicsFallback) .default)

end check

end Policy

/-! ### The strictest decision -/

section maximum
variable {α β : Type} [LinearOrder α]

theorem max?_congr_mem {l l' : List α} (h : ∀ a, a ∈ l ↔ a ∈ l') : l.max? = l'.max? := by
  cases hmax : l'.max? with
  | none =>
    rw [max?_eq_none_iff] at hmax ⊢
    refine eq_nil_iff_forall_not_mem.mpr fun a ha => ?_
    rw [h, hmax] at ha
    exact absurd ha not_mem_nil
  | some m =>
    rw [max?_eq_some_iff] at hmax ⊢
    exact ⟨(h m).mpr hmax.1, fun b hb => hmax.2 b ((h b).mp hb)⟩

theorem max?_flatMap {f : β → List α} {g : β → α} {l : List β} (h : ∀ x ∈ l, (f x).max? = some (g x)) :
    (l.flatMap f).max? = (l.map g).max? := by
  cases hmax : (l.map g).max? with
  | none =>
    rw [max?_eq_none_iff, map_eq_nil_iff] at hmax
    rw [hmax]
    rfl
  | some m =>
    rw [max?_eq_some_iff] at hmax ⊢
    obtain ⟨hmem, hle⟩ := hmax
    obtain ⟨x, hx, rfl⟩ := mem_map.mp hmem
    refine ⟨mem_flatMap.mpr ⟨x, hx, (max?_eq_some_iff.mp (h x hx)).1⟩, fun b hb => ?_⟩
    obtain ⟨y, hy, hby⟩ := mem_flatMap.mp hb
    exact le_trans ((max?_eq_some_iff.mp (h y hy)).2 b hby) (hle (g y) (mem_map_of_mem hy))

end maximum

/-- The strictest decision of the rules that match a command, or that of the fallback. -/
def verdict (rules : List PrefixRule) (heuristicsFallback : List Str → Decision) (cmd : List Str) : Decision :=
  ((rules.filter fun rule => (rule.pattern.matchesPrefix cmd).isSome).map PrefixRule.decision).max?.getD
    (heuristicsFallback cmd)

theorem verdict_congr_mem {rules rules' : List PrefixRule} (h : ∀ rule, rule ∈ rules ↔ rule ∈ rules')
    (heuristicsFallback : List Str → Decision) : verdict rules heuristicsFallback = verdict rules' heuristicsFallback := by
  funext cmd
  unfold verdict
  congr 1
  apply max?_congr_mem
  intro a
  simp only [List.mem_map, mem_filter, h]

/-- More rules do not weaken the decision for a command that a rule matches. -/
theorem verdict_le_append {rules : List PrefixRule} (more : List PrefixRule)
    (heuristicsFallback : List Str → Decision) {cmd : List Str} {rule : PrefixRule} (hrule : rule ∈ rules)
    (hmatch : (rule.pattern.matchesPrefix cmd).isSome) :
    verdict rules heuristicsFallback cmd ≤ verdict (rules ++ more) heuristicsFallback cmd := by
  have hne : ∀ rules' : List PrefixRule, rule ∈ rules' → ∃ m,
      ((rules'.filter fun rule => (rule.pattern.matchesPrefix cmd).isSome).map PrefixRule.decision).max? = some m := by
    intro rules' hmem
    refine isSome_iff_exists.mp (isSome_max?_iff.mpr fun he => ?_)
    have hin : rule.decision ∈
        (rules'.filter fun rule => (rule.pattern.matchesPrefix cmd).isSome).map PrefixRule.decision :=
      mem_map_of_mem (mem_filter.mpr ⟨hmem, hmatch⟩)
    rw [he] at hin
    exact absurd hin not_mem_nil
  obtain ⟨m, hm⟩ := hne rules hrule
  obtain ⟨m', hm'⟩ := hne (rules ++ more) (mem_append_left more hrule)
  unfold verdict
  rw [hm, hm']
  refine (max?_eq_some_iff.mp hm').2 m ?_
  rw [filter_append, map_append]
  exact mem_append_left _ (max?_eq_some_iff.mp hm).1

namespace Policy

theorem mem_rules_iff (policy : Policy) (rule : PrefixRule) :
    rule ∈ policy.rules ↔ rule ∈ policy.rulesByProgram.values rule.program := by
  unfold rules
  rw [mem_flatMap, MultiMap.mem_values]
  constructor
  · rintro ⟨⟨program, stored⟩, hentry, hmem⟩
    have hget := HashMap.get_eq_some.mpr hentry
    have hprogram := policy.keyed program rule (MultiMap.mem_values.mpr ⟨stored, hget, hmem⟩)
    rw [hprogram]
    exact ⟨stored, hget, hmem⟩
  · rintro ⟨stored, hget, hmem⟩
    exact ⟨(rule.program, stored), HashMap.get_eq_some.mp hget, hmem⟩

theorem mem_rules_mergeOverlay (ord : IterOrder Str) (policy overlay : Policy) (rule : PrefixRule) :
    rule ∈ (policy.mergeOverlay ord overlay).rules ↔ rule ∈ policy.rules ++ overlay.rules := by
  rw [mem_append, mem_rules_iff, mem_rules_iff, mem_rules_iff, ← mem_append]
  show rule ∈ MultiMap.values (MultiMap.pushAll ord _ _) _ ↔ _
  rw [MultiMap.values_pushAll]

section decisions
variable (resolveProgram : Str → Option (Str × Str)) (heuristicsFallback : List Str → Decision)

theorem mem_decisions_matchExactRules (policy : Policy) (cmd : List Str) (d : Decision) :
    d ∈ (matchExactRules policy cmd).map RuleMatch.decision ↔
      d ∈ (policy.rules.filter fun rule => (rule.pattern.matchesPrefix cmd).isSome).map PrefixRule.decision := by
  rw [List.mem_map, List.mem_map]
  constructor
  · rintro ⟨found, hfound, rfl⟩
    cases cmd with
    | nil => exact absurd hfound not_mem_nil
    | cons first args =>
      obtain ⟨rule, hrule, hmatches⟩ := mem_filterMap.mp hfound
      obtain ⟨matched, hmatched, rfl⟩ := map_eq_some_iff.mp hmatches
      have hprogram := policy.keyed first rule hrule
      rw [← hprogram] at hrule
      exact ⟨rule, mem_filter.mpr ⟨(mem_rules_iff policy rule).mpr hrule, by rw [hmatched]; rfl⟩, rfl⟩
  · rintro ⟨rule, hrule, rfl⟩
    obtain ⟨hmem, hsome⟩ := mem_filter.mp hrule
    have hhead : cmd.head? = some rule.pattern.first := by
      by_contra hne
      rw [PrefixPattern.matchesPrefix, if_pos (.inr hne)] at hsome
      exact absurd hsome (by simp)
    obtain ⟨matched, hmatched⟩ := Option.isSome_iff_exists.mp hsome
    cases cmd with
    | nil => exact absurd hhead (by simp)
    | cons first args =>
      have hfirst : first = rule.program := some.inj hhead
      refine ⟨.prefixRuleMatch matched rule.decision none rule.justification, ?_, rfl⟩
      refine mem_filterMap.mpr ⟨rule, ?_, ?_⟩
      · rw [hfirst]
        exact (mem_rules_iff policy rule).mp hmem
      · unfold PrefixRule.matches
        rw [hmatched]
        rfl

theorem max?_matchesForCommand (policy : Policy) (cmd : List Str) :
    ((matchesForCommandWithOptions resolveProgram policy cmd (some heuristicsFallback) .default).map
      RuleMatch.decision).max? = some (verdict policy.rules heuristicsFallback cmd) := by
  have hsame := max?_congr_mem (mem_decisions_matchExactRules policy cmd)
  unfold verdict
  rw [← hsame]
  cases hexact : matchExactRules policy cmd with
  | nil =>
    unfold matchesForCommandWithOptions
    simp [hexact, MatchOptions.default]
    rfl
  | cons found more =>
    have hall : matchesForCommandWithOptions resolveProgram policy cmd (some heuristicsFallback) .default =
        found :: more := by
      unfold matchesForCommandWithOptions
      simp [hexact]
    rw [hall]
    obtain ⟨m, hm⟩ := isSome_iff_exists.mp
      (isSome_max?_iff.mpr (by simp : (found :: more).map RuleMatch.decision ≠ []))
    rw [hm]
    rfl

theorem decision_fromMatches (matchedRules : List RuleMatch) :
    (Evaluation.fromMatches matchedRules).map Evaluation.decision = (matchedRules.map RuleMatch.decision).max? := by
  unfold Evaluation.fromMatches
  rw [Option.map_map]
  exact Option.map_id'

theorem decision_checkMultiple (policy : Policy) (commands : List (List Str)) :
    (checkMultiple resolveProgram policy commands heuristicsFallback).map Evaluation.decision =
      (commands.map (verdict policy.rules heuristicsFallback)).max? := by
  unfold checkMultiple checkMultipleWithOptions
  rw [decision_fromMatches, map_flatMap]
  exact max?_flatMap fun cmd _ => max?_matchesForCommand resolveProgram heuristicsFallback policy cmd

theorem decision_check (policy : Policy) (cmd : List Str) :
    (check resolveProgram policy cmd heuristicsFallback).map Evaluation.decision =
      some (verdict policy.rules heuristicsFallback cmd) := by
  unfold check
  rw [decision_fromMatches]
  exact max?_matchesForCommand resolveProgram heuristicsFallback policy cmd

theorem verdict_mergeOverlay (ord : IterOrder Str) (policy overlay : Policy) :
    verdict (policy.mergeOverlay ord overlay).rules heuristicsFallback =
      verdict (policy.rules ++ overlay.rules) heuristicsFallback :=
  verdict_congr_mem (mem_rules_mergeOverlay ord policy overlay) heuristicsFallback

/-- **The decision under a merged policy.**  It is the greatest over the commands of the strictest decision of
the rules of both policies that match, or of the fallback; no order of commands, of rules or of an iteration
changes it; and for a command that a rule of the policy below matches it is at least as strict as
without the overlay. -/
theorem decision_mergeOverlay (ord : IterOrder Str) (policy overlay : Policy) (commands : List (List Str)) :
    (checkMultiple resolveProgram (policy.mergeOverlay ord overlay) commands heuristicsFallback).map
        Evaluation.decision =
      (commands.map (verdict (policy.rules ++ overlay.rules) heuristicsFallback)).max? ∧
    (∀ (ord' : IterOrder Str) (policy' overlay' : Policy) (commands' : List (List Str)),
      policy'.rules.Perm policy.rules → overlay'.rules.Perm overlay.rules → commands'.Perm commands →
      (checkMultiple resolveProgram (policy'.mergeOverlay ord' overlay') commands' heuristicsFallback).map
          Evaluation.decision =
        (checkMultiple resolveProgram (policy.mergeOverlay ord overlay) commands heuristicsFallback).map
          Evaluation.decision) ∧
    (∀ (cmd : List Str) (rule : PrefixRule), rule ∈ policy.rules →
      (rule.pattern.matchesPrefix cmd).isSome →
      ∃ below merged, (check resolveProgram policy cmd heuristicsFallback).map Evaluation.decision = some below ∧
        (check resolveProgram (policy.mergeOverlay ord overlay) cmd heuristicsFallback).map Evaluation.decision =
          some merged ∧ below ≤ merged) := by
  refine ⟨by rw [decision_checkMultiple, verdict_mergeOverlay], ?_, ?_⟩
  · intro ord' policy' overlay' commands' hpolicy hoverlay hcommands
    rw [decision_checkMultiple, decision_checkMultiple, verdict_mergeOverlay, verdict_mergeOverlay]
    apply max?_congr_mem
    have hrules : ∀ rule, rule ∈ policy'.rules ++ overlay'.rules ↔ rule ∈ policy.rules ++ overlay.rules :=
      fun rule => (hpolicy.append hoverlay).mem_iff
    intro d
    simp only [List.mem_map, verdict_congr_mem hrules, hcommands.mem_iff]
  · intro cmd rule hrule hmatch
    refine ⟨_, _, decision_check resolveProgram heuristicsFallback policy cmd,
      decision_check resolveProgram heuristicsFallback _ cmd, ?_⟩
    rw [verdict_mergeOverlay]
    exact verdict_le_append overlay.rules heuristicsFallback hrule hmatch

end decisions

/-- A policy that forbids a command, under an overlay that allows it. -/
theorem decision_mergeOverlay_forbidden :
    let policy := empty.addRule ⟨⟨"rm", [.single "-rf"]⟩, .forbidden, none⟩
    let overlay := empty.addRule ⟨⟨"rm", []⟩, .allow, none⟩
    (checkMultiple (fun _ => none) (policy.mergeOverlay (.inOrder Str) overlay)
        [["rm", "-rf", "/"], ["ls"]] fun _ => .prompt).map Evaluation.decision =
      some .forbidden :=
  ((decision_mergeOverlay (fun _ => none) (fun _ => .prompt) (.inOrder Str) _ _ _).1).trans (by decide +kernel)

/-! ### Network domains -/

def upsertDomain (entries : List Str) (host : Str) : List Str := entries.filter (· ≠ host) ++ [host]

def compileRule (domains : List Str × List Str) (rule : NetworkRule) : List Str × List Str :=
  match rule.decision with
  | .allow => (upsertDomain domains.1 rule.host, domains.2.filter (· ≠ rule.host))
  | .forbidden => (domains.1.filter (· ≠ rule.host), upsertDomain domains.2 rule.host)
  | .prompt => domains

/-- The allowed and the denied domains. -/
def compiledNetworkDomains (policy : Policy) : List Str × List Str := policy.networkRules.foldl compileRule ([], [])

/-- What the last rule for a host that does not prompt decides. -/
def lastWord (rules : List NetworkRule) (host : Str) : Option Decision :=
  (rules.reverse.find? fun rule => rule.host = host ∧ rule.decision ≠ .prompt).map NetworkRule.decision

/-- The hosts whose last word is the decision, in the order of their last rules (`dedup` keeps the last of equals). -/
def decided (rules : List NetworkRule) (decision : Decision) : List Str :=
  ((rules.filter (·.decision ≠ .prompt)).map NetworkRule.host).dedup.filter (lastWord rules · = some decision)

theorem dedup_concat {α : Type} [DecidableEq α] (a : α) : ∀ l : List α, (l ++ [a]).dedup = l.dedup.filter (· ≠ a) ++ [a]
  | [] => rfl
  | b :: l => by
    rw [cons_append]
    by_cases hmem : b ∈ l
    · rw [dedup_cons_of_mem (mem_append_left _ hmem), dedup_cons_of_mem hmem, dedup_concat a l]
    · rw [dedup_cons_of_notMem hmem]
      by_cases heq : b = a
      · rw [dedup_cons_of_mem (by simp [heq]), dedup_concat a l, filter_cons_of_neg (by simp [heq])]
      · rw [dedup_cons_of_notMem (by simp [hmem, heq]), dedup_concat a l, filter_cons_of_pos (by simp [heq]),
          cons_append]

theorem lastWord_append (rules more : List NetworkRule) (host : Str) :
    lastWord (rules ++ more) host = (lastWord more host).or (lastWord rules host) := by
  rw [lastWord, reverse_append, find?_append, map_or]
  rfl

theorem mem_decided {rules : List NetworkRule} {decision : Decision} {host : Str} :
    host ∈ decided rules decision ↔ lastWord rules host = some decision := by
  rw [decided, mem_filter, mem_dedup, decide_eq_true_iff]
  refine ⟨And.right, fun h => ⟨?_, h⟩⟩
  obtain ⟨rule, hfind, -⟩ := map_eq_some_iff.mp h
  have hrule := find?_some hfind
  rw [decide_eq_true_iff] at hrule
  have hmem := mem_reverse.mp (mem_of_find?_eq_some hfind)
  exact mem_map.mpr ⟨rule, mem_filter.mpr ⟨hmem, decide_eq_true hrule.2⟩, hrule.1⟩

/-- A rule that allows or forbids has the last word on its host. -/
theorem decided_concat (rules : List NetworkRule) {rule : NetworkRule} (h : rule.decision ≠ .prompt)
    (decision : Decision) : decided (rules ++ [rule]) decision =
      (decided rules decision).filter (· ≠ rule.host) ++ if rule.decision = decision then [rule.host] else [] := by
  have hword : ∀ host, lastWord [rule] host = if rule.host = host then some rule.decision else none := by
    intro host
    by_cases hhost : rule.host = host <;> simp [lastWord, hhost, h]
  have hkept : [rule].filter (·.decision ≠ .prompt) = [rule] := by simp [h]
  rw [decided, filter_append, hkept, map_append, map_singleton, dedup_concat, filter_append, decided,
    List.filter_filter, List.filter_filter]
  congr 1
  · refine filter_congr fun host _ => ?_
    rw [lastWord_append, hword]
    by_cases hhost : rule.host = host
    · simp [hhost]
    · rw [if_neg hhost, none_or, Bool.and_comm]
  · by_cases hd : rule.decision = decision <;> simp [lastWord_append, hword, hd]

/-- **The domains of a policy** are the hosts whose last word allows or forbids, once each and in the order of the
last rules; an overlay has the last word on the hosts it decides. -/
theorem compiledNetworkDomains_spec (ord : IterOrder Str) (policy overlay : Policy) :
    policy.compiledNetworkDomains = (decided policy.networkRules .allow, decided policy.networkRules .forbidden) ∧
    policy.compiledNetworkDomains.1.Nodup ∧ policy.compiledNetworkDomains.2.Nodup ∧
    policy.compiledNetworkDomains.1.Disjoint policy.compiledNetworkDomains.2 ∧
    (∀ host, host ∈ policy.compiledNetworkDomains.1 ↔ lastWord policy.networkRules host = some .allow) ∧
    (∀ host, host ∈ policy.compiledNetworkDomains.2 ↔ lastWord policy.networkRules host = some .forbidden) ∧
    ∀ host, lastWord (policy.mergeOverlay ord overlay).networkRules host =
      (lastWord overlay.networkRules host).or (lastWord policy.networkRules host) := by
  have hfold : ∀ rules : List NetworkRule,
      rules.foldl compileRule ([], []) = (decided rules .allow, decided rules .forbidden) := by
    intro rules
    induction rules using reverseRecOn with
    | nil => rfl
    | append_singleton rules rule ih =>
      rw [foldl_concat, ih, compileRule]
      cases hd : rule.decision with
      | prompt => simp [decided, lastWord, hd]
      | _ => rw [decided_concat rules (by simp [hd]), decided_concat rules (by simp [hd])]; simp [upsertDomain, hd]
  rw [compiledNetworkDomains, hfold]
  refine ⟨rfl, (nodup_dedup _).filter _, (nodup_dedup _).filter _, fun host hallow hforbid => ?_, fun _ => mem_decided,
    fun _ => mem_decided, lastWord_append policy.networkRules overlay.networkRules⟩
  exact nomatch (mem_decided.mp hallow).symm.trans (mem_decided.mp hforbid)

end Policy

end OpenAgere.ExecPolicy
