import Mathlib.Algebra.GroupWithZero.Nat
import Mathlib.Data.List.Sort
import OpenAgere.ShellQuoting

/-! # Commands of plain words

`shell-command/src/bash.rs`: the syntax tree of a shell script is searched for commands that consist of plain words,
joined by `&&`, `||`, `;` and `|` only, and the words of each are read off the tree.  The tree is given, with the
source text of every node; what is known of it from the grammar is `WellParsed`.

The commands found are those of the tree, in the order of the source (`tryParse_eq_some`).  Their words are what the
shell makes of the source text if no backslash escapes anything, and longer otherwise (`executes_iff`). -/

namespace OpenAgere.ShellWords

open List Option ShellQuoting

/-! ### Syntax trees -/

/-- A node of a syntax tree, with its source text. -/
inductive Node where
  | mk (kind : Str) (isNamed : Bool) (startByte : ℕ) (text : Str) (children : List Node)

namespace Node

def kind : Node → Str
  | mk kind _ _ _ _ => kind

def isNamed : Node → Bool
  | mk _ isNamed _ _ _ => isNamed

def startByte : Node → ℕ
  | mk _ _ startByte _ _ => startByte

def text : Node → Str
  | mk _ _ _ text _ => text

def children : Node → List Node
  | mk _ _ _ _ children => children

def namedChildren (node : Node) : List Node := node.children.filter isNamed

mutual

/-- The node and all below it, in the order of the source. -/
def nodes : Node → List Node
  | mk kind isNamed startByte text children =>
      mk kind isNamed startByte text children :: nodesOf children

def nodesOf : List Node → List Node
  | [] => []
  | node :: rest => nodes node ++ nodesOf rest

end

end Node

open Node

/-! ### The walk over the tree -/

def allowedKinds : List Str :=
  ["program", "list", "pipeline", "command", "command_name", "word", "string", "string_content", "raw_string",
    "number", "concatenation"].map String.toList

def allowedPunctTokens : List Str := ["&&", "||", ";", "|", "\"", "'"].map String.toList

/-- A named node of an allowed kind, or an allowed or a blank token. -/
def allowed (node : Node) : Bool :=
  if node.isNamed then allowedKinds.contains node.kind
  else if node.kind.any (fun c => c = '&' || c = ';' || c = '|') && !allowedPunctTokens.contains node.kind then false
  else allowedPunctTokens.contains node.kind || Text.isBlank node.kind

def isCommand (node : Node) : Bool := node.isNamed && node.kind = "command"

/-- The loop over the stack, whose top is the head of the list; it ends after as many steps as there are nodes. -/
def collectCommands : ℕ → List Node → List Node → Option (List Node)
  | _, [], commandNodes => some commandNodes
  | 0, _ :: _, _ => none
  | fuel + 1, node :: stack, commandNodes =>
      if allowed node then
        collectCommands fuel (node.children.reverse ++ stack)
          (if isCommand node then commandNodes ++ [node] else commandNodes)
      else none

/-- `strip_prefix` and `strip_suffix` of a quote. -/
def stripQuotes (quote : Char) : Str → Option Str
  | [] => none
  | c :: text => if c = quote ∧ text.getLast? = some quote then some text.dropLast else none

def parseDoubleQuotedString (node : Node) : Option Str :=
  if node.kind ≠ "string" then none
  else if node.namedChildren.any (·.kind ≠ "string_content") then none
  else stripQuotes '"' node.text

def parseRawString (node : Node) : Option Str :=
  if node.kind ≠ "raw_string" then none else stripQuotes '\'' node.text

/-- The cases that the words of a command and the parts of a concatenation share. -/
def parsePart (node : Node) : Option Str :=
  if node.kind = "word" ∨ node.kind = "number" then some node.text
  else if node.kind = "string" then parseDoubleQuotedString node
  else if node.kind = "raw_string" then parseRawString node
  else none

def parseConcatenation (node : Node) : Option Str :=
  (node.namedChildren.mapM parsePart).bind fun parts =>
    if parts.flatten = [] then none else some parts.flatten

def parseWord (node : Node) : Option Str :=
  if node.kind = "command_name" then
    node.namedChildren.head?.bind fun word => if word.kind = "word" then some word.text else none
  else if node.kind = "concatenation" then parseConcatenation node
  else parsePart node

def parsePlainCommandFromNode (cmd : Node) : Option (List Str) :=
  if cmd.kind ≠ "command" then none else cmd.namedChildren.mapM parseWord

/-- What the grammar says of a node whose tree has no error. -/
structure WellParsed (node : Node) : Prop where
  word : node.kind = "word" → node.children = [] ∧ WordText node.text
  /-- A number with something below it has an expansion there. -/
  number : node.kind = "number" → (∀ c ∈ node.children, allowed c = false) ∧
    (node.children = [] → WordText node.text)
  string : node.kind = "string" → (∀ c ∈ node.namedChildren, c.kind = "string_content") →
    ∃ body, node.text = '"' :: body ++ ['"'] ∧ DoubleText body
  rawString : node.kind = "raw_string" → ∃ body, node.text = '\'' :: body ++ ['\''] ∧ '\'' ∉ body
  /-- Tokens between the parts are dollars and backquotes. -/
  concatenation : node.kind = "concatenation" → (∀ c ∈ node.children, c.isNamed = false → allowed c = false) ∧
    ((∀ c ∈ node.children, c.isNamed) → node.text = (node.children.map text).flatten)
  commandName : node.kind = "command_name" → ∃ word, node.children = [word] ∧ word.isNamed ∧
    node.text = word.text

structure Tree where
  root : Node
  hasError : Bool
  wellParsed : hasError = false → ∀ node ∈ root.nodes, WellParsed node

/-- The order of the source. -/
def Precedes (a b : Node) : Prop := a.startByte ≤ b.startByte

instance decidablePrecedes : DecidableRel Precedes := fun a b => inferInstanceAs (Decidable (a.startByte ≤ b.startByte))

instance : Std.Total Precedes := ⟨fun a b => Nat.le_total a.startByte b.startByte⟩

instance : IsTrans Node Precedes := ⟨fun _ _ _ => Nat.le_trans⟩

def tryParseWordOnlyCommandsSequence (tree : Tree) : Option (List (List Str)) :=
  if tree.hasError then none
  else
    (collectCommands tree.root.nodes.length [tree.root] []).bind fun commandNodes =>
      (commandNodes.insertionSort Precedes).mapM parsePlainCommandFromNode

/-! ### What the shell executes -/

/-- The commands of a tree. -/
def Tree.commandNodes (tree : Tree) : List Node := tree.root.nodes.filter isCommand

/-- The arguments a shell gives to a command whose words it does not expand. -/
def shellArgv (cmd : Node) : List Str := cmd.namedChildren.map fun word => removeQuotes word.text

/-- The commands are those of the tree, in the order of the source, each with the arguments the shell gives it. -/
def Executes (tree : Tree) (commands : List (List Str)) : Prop :=
  ∃ nodes : List Node, nodes.Perm tree.commandNodes ∧ nodes.Pairwise Precedes ∧ commands = nodes.map shellArgv

/-- Nothing is escaped in a part: no backslash outside quotes, and in double quotes none before a character that it
escapes there. -/
def plainPart (node : Node) : Bool :=
  if node.kind = "word" ∨ node.kind = "number" then !node.text.contains '\\'
  else if node.kind = "string" then !hasEscape node.text.tail.dropLast
  else true

def plainWord (node : Node) : Bool :=
  if node.kind = "command_name" ∨ node.kind = "concatenation" then node.namedChildren.all plainPart
  else plainPart node

/-- Nothing is escaped in the words of the commands. -/
def Tree.Plain (tree : Tree) : Prop := ∀ cmd ∈ tree.commandNodes, ∀ word ∈ cmd.namedChildren, plainWord word

/-! ### The commands that are found -/

theorem nodesOf_append : ∀ a b : List Node, nodesOf (a ++ b) = nodesOf a ++ nodesOf b
  | [], b => by rw [nil_append, nodesOf, nil_append]
  | node :: a, b => by rw [cons_append, nodesOf, nodesOf, nodesOf_append a b, append_assoc]

theorem nodes_eq (node : Node) : node.nodes = node :: nodesOf node.children := by
  cases node
  rw [nodes]
  rfl

theorem nodesOf_reverse_perm : ∀ l : List Node, (nodesOf l.reverse).Perm (nodesOf l)
  | [] => List.Perm.refl _
  | node :: l => by
    rw [reverse_cons, nodesOf_append, nodesOf, nodesOf, nodesOf, append_nil]
    exact perm_append_comm.trans ((nodesOf_reverse_perm l).append_left _)

/-- Below a stack are the node on top, what is below it, and what is below the rest. -/
theorem nodesOf_push_perm (node : Node) (stack : List Node) :
    (nodesOf (node :: stack)).Perm (node :: nodesOf (node.children.reverse ++ stack)) := by
  rw [nodesOf, nodes_eq, nodesOf_append, cons_append]
  exact ((nodesOf_reverse_perm node.children).symm.append_right _).cons node

/-- The walk visits every node below the stack: it fails if one is not allowed, and finds the commands otherwise. -/
theorem collectCommands_spec (fuel : ℕ) : ∀ stack commandNodes : List Node, (nodesOf stack).length ≤ fuel →
    (collectCommands fuel stack commandNodes = none ∧ ∃ node ∈ nodesOf stack, allowed node = false) ∨
    ((∀ node ∈ nodesOf stack, allowed node) ∧ ∃ new : List Node,
      collectCommands fuel stack commandNodes = some (commandNodes ++ new) ∧
        new.Perm ((nodesOf stack).filter isCommand)) := by
  induction fuel with
  | zero =>
    intro stack commandNodes hfuel
    cases stack with
    | nil => exact .inr ⟨forall_mem_nil _, [], by rw [collectCommands, append_nil], .refl _⟩
    | cons node stack =>
      rw [nodesOf, nodes_eq] at hfuel
      exact absurd hfuel (Nat.not_succ_le_zero _)
  | succ fuel ih =>
    intro stack commandNodes hfuel
    cases stack with
    | nil => exact .inr ⟨forall_mem_nil _, [], by rw [collectCommands, append_nil], .refl _⟩
    | cons node stack =>
      have hperm := nodesOf_push_perm node stack
      rw [hperm.length_eq, length_cons] at hfuel
      rw [collectCommands]
      cases hallowed : allowed node with
      | false => exact .inl ⟨rfl, node, hperm.mem_iff.mpr mem_cons_self, hallowed⟩
      | true =>
        rw [if_pos rfl]
        obtain ⟨hnone, bad, hbad, hnot⟩ | ⟨hall, new, hsome, hnew⟩ := ih _ _ (Nat.le_of_succ_le_succ hfuel)
        · exact .inl ⟨hnone, bad, hperm.mem_iff.mpr (mem_cons_of_mem node hbad), hnot⟩
        · refine .inr ⟨fun n hn => ?_, ?_⟩
          · obtain rfl | hn := mem_cons.mp (hperm.mem_iff.mp hn)
            · exact hallowed
            · exact hall n hn
          · have hcommands := hperm.filter isCommand
            cases hcommand : isCommand node with
            | false =>
              rw [hcommand] at hsome
              rw [filter_cons_of_neg (Bool.eq_false_iff.mp hcommand)] at hcommands
              exact ⟨new, hsome, hnew.trans hcommands.symm⟩
            | true =>
              rw [hcommand] at hsome
              rw [filter_cons_of_pos hcommand] at hcommands
              refine ⟨node :: new, hsome.trans ?_, (hnew.cons node).trans hcommands.symm⟩
              rw [if_pos rfl, append_assoc]
              rfl

theorem mapM_eq_some_iff {α β : Type} {f : α → Option β} : ∀ {l : List α} {bs : List β},
    l.mapM f = some bs ↔ List.Forall₂ (fun a b => f a = some b) l bs
  | [], bs => by
    rw [mapM_nil, forall₂_nil_left_iff]
    exact ⟨fun h => (some.inj h).symm, fun h => h ▸ rfl⟩
  | a :: l, bs => by
    rw [mapM_cons, forall₂_cons_left_iff]
    constructor
    · intro h
      obtain ⟨b, hb, h⟩ := bind_eq_some_iff.mp h
      obtain ⟨bs', hbs', h⟩ := bind_eq_some_iff.mp h
      exact ⟨b, bs', hb, mapM_eq_some_iff.mp hbs', (some.inj h).symm⟩
    · rintro ⟨b, bs', hb, hbs', rfl⟩
      exact bind_eq_some_iff.mpr ⟨b, hb, bind_eq_some_iff.mpr ⟨bs', mapM_eq_some_iff.mpr hbs', rfl⟩⟩

variable {tree : Tree} {commands : List (List Str)}

/-- What is accepted: every node is allowed, and the commands are read off the command nodes in the order of the
source. -/
theorem tryParse_eq_some
    (h : tryParseWordOnlyCommandsSequence tree = some commands) :
    tree.hasError = false ∧ (∀ node ∈ tree.root.nodes, allowed node) ∧ ∃ nodes : List Node,
      nodes.Perm tree.commandNodes ∧ nodes.Pairwise Precedes ∧
        List.Forall₂ (fun cmd words => parsePlainCommandFromNode cmd = some words) nodes commands := by
  unfold tryParseWordOnlyCommandsSequence at h
  split_ifs at h with herror
  obtain ⟨found, hfound, h⟩ := bind_eq_some_iff.mp h
  have hroot : nodesOf [tree.root] = tree.root.nodes := by rw [nodesOf, nodesOf, append_nil]
  obtain ⟨hnone, -⟩ | ⟨hall, new, hsome, hnew⟩ :=
    collectCommands_spec tree.root.nodes.length [tree.root] [] (by rw [hroot])
  · rw [hnone] at hfound
    cases hfound
  · rw [hsome] at hfound
    obtain rfl := some.inj hfound
    rw [hroot] at hall hnew
    refine ⟨Bool.eq_false_iff.mpr herror, hall, _, ?_, ?_, mapM_eq_some_iff.mp h⟩
    · exact (perm_insertionSort Precedes _).trans hnew
    · exact pairwise_insertionSort Precedes _

/-! ### Words -/

/-- What the shell makes of something is what was read off it if that is plain, and smaller otherwise. -/
structure Shortens {α : Type} (size : α → ℕ) (plain : Prop) (real read : α) : Prop where
  same : plain → real = read
  smaller : ¬plain → size real < size read

namespace Shortens
variable {α β : Type} {size : α → ℕ} {plain : Prop} {real read : α}

theorem le (h : Shortens size plain real read) : size real ≤ size read := by
  by_cases hp : plain
  · exact le_of_eq (congrArg size (h.same hp))
  · exact le_of_lt (h.smaller hp)

theorem congr {plain' : Prop} (h : Shortens size plain real read) (hp : plain' ↔ plain) :
    Shortens size plain' real read :=
  ⟨fun hp' => h.same (hp.mp hp'), fun hp' => h.smaller fun hp'' => hp' (hp.mpr hp'')⟩

theorem plain_of_le (h : Shortens size plain real read) (hle : size read ≤ size real) : plain := by
  by_contra hp
  exact absurd (h.smaller hp) (not_lt.mpr hle)

/-- A list is plain if all of its members are; sizes add up. -/
theorem map {real : β → α} {plain : β → Prop} : ∀ {l : List β} {reads : List α},
    List.Forall₂ (fun b read => Shortens size (plain b) (real b) read) l reads →
    Shortens (fun l => (l.map size).sum) (∀ b ∈ l, plain b) (l.map real) reads
  | [], _, .nil => ⟨fun _ => rfl, fun h => absurd (forall_mem_nil _) h⟩
  | b :: l, read :: reads, .cons h hs => by
    have ih := map hs
    refine ⟨fun hp => ?_, fun hp => ?_⟩
    · rw [map_cons, h.same (hp b mem_cons_self), ih.same fun c hc => hp c (mem_cons_of_mem b hc)]
    · have hle := h.le
      have hles : ((l.map real).map size).sum ≤ (reads.map size).sum := ih.le
      rw [map_cons, map_cons, map_cons, sum_cons, sum_cons]
      by_cases hb : plain b
      · have hrest : ¬∀ c ∈ l, plain c := fun hl => hp fun c hc =>
          (mem_cons.mp hc).elim (fun he => he ▸ hb) (hl c)
        have hlt : ((l.map real).map size).sum < (reads.map size).sum := ih.smaller hrest
        omega
      · have hlt := h.smaller hb
        omega

theorem flatten {real read : List Str} (h : Shortens (fun l => (l.map length).sum) plain real read) :
    Shortens length plain real.flatten read.flatten :=
  ⟨fun hp => congrArg List.flatten (h.same hp), fun hp => by
    rw [length_flatten, length_flatten]
    exact h.smaller hp⟩

end Shortens

theorem stripQuotes_quoted (quote : Char) (body : Str) : stripQuotes quote (quote :: body ++ [quote]) = some body := by
  rw [cons_append, stripQuotes, if_pos ⟨rfl, getLast?_concat⟩, dropLast_concat]

/-- A part that is closed: quote removal on a text that begins with it goes on behind it. -/
def Closed (text : Str) : Prop := ∀ t, removeQuotes (text ++ t) = removeQuotes text ++ removeQuotes t

theorem removeQuotes_flatten {parts : List Node} (h : ∀ part ∈ parts, Closed part.text) :
    removeQuotes (parts.map text).flatten = (parts.map fun part => removeQuotes part.text).flatten := by
  induction parts with
  | nil => rfl
  | cons part parts ih =>
    rw [map_cons, flatten_cons, h part mem_cons_self,
      ih fun p hp => h p (mem_cons_of_mem part hp)]
    rfl

variable {body : Str}

theorem closed_of_quoted {q : Char} {text : Str}
    (h : ∀ t, removeQuotes (q :: body ++ q :: t) = text ++ removeQuotes t) : Closed (q :: body ++ [q]) := by
  intro t
  rw [append_assoc, h []]
  refine (h t).trans ?_
  rw [show removeQuotes [] = [] from rfl, append_nil]

/-- The node is part of a tree that was accepted. -/
structure Accepted (node : Node) : Prop where
  wellParsed : ∀ n ∈ node.nodes, WellParsed n
  allowed : ∀ n ∈ node.nodes, allowed n

variable {n node : Node}

theorem mem_nodesOf : ∀ {l : List Node}, node ∈ l → n ∈ node.nodes → n ∈ nodesOf l
  | [], h, _ => absurd h not_mem_nil
  | node' :: l, h, hn => by
    rw [nodesOf]
    obtain rfl | h := mem_cons.mp h
    · exact mem_append_left _ hn
    · exact mem_append_right _ (mem_nodesOf h hn)

theorem mem_nodes_self (node : Node) : node ∈ node.nodes := by
  rw [nodes_eq]
  exact mem_cons_self

theorem Accepted.child {child : Node} (h : Accepted node) (hc : child ∈ node.children) : Accepted child := by
  have hsub : ∀ n ∈ child.nodes, n ∈ node.nodes := fun n hn => by
    rw [nodes_eq node]
    exact mem_cons_of_mem node (mem_nodesOf hc hn)
  exact ⟨fun n hn => h.wellParsed n (hsub n hn), fun n hn => h.allowed n (hsub n hn)⟩

theorem Accepted.self_wellParsed (h : Accepted node) : WellParsed node :=
  h.wellParsed node (mem_nodes_self node)

theorem Accepted.self_allowed (h : Accepted node) : ShellWords.allowed node :=
  h.allowed node (mem_nodes_self node)

theorem Accepted.namedChild {child : Node} (h : Accepted node) (hc : child ∈ node.namedChildren) :
    Accepted child := h.child (mem_filter.mp hc).1

theorem Accepted.wordText (h : Accepted node)
    (hkind : node.kind = "word" ∨ node.kind = "number") : WordText node.text := by
  obtain hkind | hkind := hkind
  · exact (h.self_wellParsed.word hkind).2
  · obtain ⟨hchildren, htext⟩ := h.self_wellParsed.number hkind
    refine htext (eq_nil_iff_forall_not_mem.mpr fun c hc => ?_)
    exact Bool.false_ne_true ((hchildren c hc).symm.trans (h.child hc).self_allowed)

theorem WordText.shortens {text : Str} (h : WordText text) :
    Shortens length ((!text.contains '\\')) (removeQuotes text) text := by
  have hmem : (!text.contains '\\') = true ↔ '\\' ∉ text := by
    rw [Bool.not_eq_true', Bool.eq_false_iff, ne_eq, contains_iff_mem]
  exact Shortens.congr ⟨h.removeQuotes_of_not_mem, fun hp => h.length_removeQuotes_lt (not_not.mp hp)⟩ hmem

variable {read : Str}

/-- **A part of a word.** It is closed, and what is read off it is what the shell makes of it, or longer. -/
theorem Accepted.part (h : Accepted node) (hread : parsePart node = some read) :
    Closed node.text ∧ Shortens length (plainPart node) (removeQuotes node.text) read := by
  unfold parsePart at hread
  unfold plainPart
  split_ifs at hread ⊢ with hword hstring hraw
  · obtain rfl := some.inj hread
    exact ⟨(h.wordText hword).removeQuotes_append, WordText.shortens (h.wordText hword)⟩
  · unfold parseDoubleQuotedString at hread
    rw [if_neg (not_not.mpr hstring)] at hread
    split_ifs at hread with hnamed
    have hcontent : ∀ c ∈ node.namedChildren, c.kind = "string_content" := by
      intro c hc
      by_contra hne
      exact hnamed (any_eq_true.mpr ⟨c, hc, decide_eq_true hne⟩)
    obtain ⟨body, htext, hbody⟩ := h.self_wellParsed.string hstring hcontent
    rw [htext, stripQuotes_quoted] at hread
    obtain rfl := some.inj hread
    have hreal : removeQuotes node.text = unescape body := by
      rw [htext]
      exact (removeQuotesFrom_double hbody []).trans (append_nil _)
    have hinner : node.text.tail.dropLast = body := by
      rw [htext, cons_append, tail_cons, dropLast_concat]
    refine ⟨htext ▸ closed_of_quoted (removeQuotesFrom_double hbody), ?_⟩
    rw [hreal, hinner]
    exact ⟨fun hp => hbody.unescape_of_not (by rwa [Bool.not_eq_true'] at hp),
      fun hp => hbody.length_unescape_lt (by rwa [Bool.not_eq_true', Bool.not_eq_false] at hp)⟩
  · unfold parseRawString at hread
    rw [if_neg (not_not.mpr hraw)] at hread
    obtain ⟨body, htext, hbody⟩ := h.self_wellParsed.rawString hraw
    rw [htext, stripQuotes_quoted] at hread
    obtain rfl := some.inj hread
    have hreal : removeQuotes node.text = body := by
      rw [htext]
      exact (removeQuotesFrom_single hbody []).trans (append_nil _)
    exact ⟨htext ▸ closed_of_quoted (removeQuotesFrom_single hbody), fun _ => hreal, fun hp => absurd rfl hp⟩

theorem Accepted.commandName (h : Accepted node) (hname : node.kind = "command_name")
    (hread : parseWord node = some read) :
    Shortens length (plainWord node) (removeQuotes node.text) read := by
  obtain ⟨word, hchildren, hnamed, htext⟩ := h.self_wellParsed.commandName hname
  have hnamedChildren : node.namedChildren = [word] := by
    rw [namedChildren, hchildren, filter_singleton, hnamed]
    rfl
  rw [parseWord, if_pos hname, hnamedChildren, head?_cons, bind_some] at hread
  split_ifs at hread with hword
  have hpart : parsePart word = some read := (if_pos (.inl hword)).trans hread
  have haccepted : Accepted word := h.child (hchildren ▸ mem_cons_self)
  rw [plainWord, if_pos (.inl hname), hnamedChildren, all_cons, all_nil, Bool.and_true, htext]
  exact (haccepted.part hpart).2

theorem Accepted.concatenation (h : Accepted node) (hconcat : node.kind = "concatenation")
    (hread : parseConcatenation node = some read) :
    Shortens List.length (plainWord node) (removeQuotes node.text) read := by
  obtain ⟨parts, hparts, hread⟩ := bind_eq_some_iff.mp hread
  split_ifs at hread
  obtain rfl := some.inj hread
  obtain ⟨htokens, htext⟩ := h.self_wellParsed.concatenation hconcat
  have hnamed : ∀ c ∈ node.children, c.isNamed = true := by
    intro c hc
    by_contra hne
    have hnot := htokens c hc (Bool.eq_false_iff.mpr hne)
    exact Bool.false_ne_true (hnot.symm.trans (h.child hc).self_allowed)
  have hchildren : node.namedChildren = node.children := filter_eq_self.mpr hnamed
  have hboth : List.Forall₂ (fun (c : Node) part => Closed c.text ∧
      Shortens length (plainPart c = true) (removeQuotes c.text) part) node.namedChildren parts :=
    ((forall₂_and_left _ _).mpr ⟨fun c hc => h.namedChild hc, mapM_eq_some_iff.mp hparts⟩).imp
      fun c part hc => hc.1.part hc.2
  obtain ⟨hclosed, hshortens⟩ := (forall₂_and_left _ _).mp hboth
  rw [htext hnamed, ← hchildren, removeQuotes_flatten hclosed, plainWord, if_pos (.inr hconcat), List.all_eq_true]
  exact (Shortens.map hshortens).flatten

/-- **A word of a command.** What is read off it is what the shell makes of it, or longer. -/
theorem Accepted.word (h : Accepted node) (hread : parseWord node = some read) :
    Shortens length (plainWord node) (removeQuotes node.text) read := by
  by_cases hname : node.kind = "command_name"
  · exact h.commandName hname hread
  · rw [parseWord, if_neg hname] at hread
    by_cases hconcat : node.kind = "concatenation"
    · rw [if_pos hconcat] at hread
      exact h.concatenation hconcat hread
    · rw [if_neg hconcat] at hread
      rw [plainWord, if_neg (not_or.mpr ⟨hname, hconcat⟩)]
      exact (h.part hread).2

/-- The number of characters of some words. -/
def wordsSize (words : List Str) : ℕ := (words.map List.length).sum

theorem Accepted.command {cmd : Node} (h : Accepted cmd) {words : List Str}
    (hwords : parsePlainCommandFromNode cmd = some words) :
    Shortens wordsSize (∀ word ∈ cmd.namedChildren, plainWord word) (shellArgv cmd) words := by
  unfold parsePlainCommandFromNode at hwords
  split_ifs at hwords
  exact Shortens.map (((forall₂_and_left _ _).mpr ⟨fun c hc => h.namedChild hc, mapM_eq_some_iff.mp hwords⟩).imp
    fun c word hc => hc.1.word hc.2)

theorem accepted_root
    (h : tryParseWordOnlyCommandsSequence tree = some commands) : Accepted tree.root := by
  obtain ⟨herror, hallowed, -⟩ := tryParse_eq_some h
  exact ⟨tree.wellParsed herror, hallowed⟩

mutual

variable {a b : Node}

theorem mem_nodes_trans : ∀ {node : Node}, b ∈ node.nodes → a ∈ b.nodes → a ∈ node.nodes
  | mk kind isNamed startByte text children, hb, ha => by
    rw [nodes] at hb ⊢
    obtain rfl | hb := mem_cons.mp hb
    · rwa [nodes] at ha
    · exact mem_cons_of_mem _ (mem_nodesOf_trans hb ha)

theorem mem_nodesOf_trans : ∀ {l : List Node}, b ∈ nodesOf l → a ∈ b.nodes → a ∈ nodesOf l
  | [], hb, _ => by
    rw [nodesOf] at hb
    exact absurd hb not_mem_nil
  | node :: l, hb, ha => by
    rw [nodesOf] at hb ⊢
    obtain hb | hb := mem_append.mp hb
    · exact mem_append_left _ (mem_nodes_trans hb ha)
    · exact mem_append_right _ (mem_nodesOf_trans hb ha)

end

theorem Accepted.descendant (h : Accepted node) (hn : n ∈ node.nodes) : Accepted n :=
  ⟨fun m hm => h.wellParsed m (mem_nodes_trans hn hm), fun m hm => h.allowed m (mem_nodes_trans hn hm)⟩

/-- **The commands of a script.** They are read as the shell executes them exactly if nothing is escaped in them. -/
theorem executes_iff
    (h : tryParseWordOnlyCommandsSequence tree = some commands) : Executes tree commands ↔ tree.Plain := by
  obtain ⟨-, -, nodes, hperm, hsorted, hparsed⟩ := tryParse_eq_some h
  have haccepted : ∀ cmd ∈ nodes, Accepted cmd := fun cmd hcmd =>
    (accepted_root h).descendant (mem_filter.mp (hperm.mem_iff.mp hcmd)).1
  have hshortens := Shortens.map (((forall₂_and_left _ _).mpr ⟨haccepted, hparsed⟩).imp
    fun cmd words hcmd => hcmd.1.command hcmd.2)
  have hplain : tree.Plain ↔ ∀ cmd ∈ nodes, ∀ word ∈ cmd.namedChildren, plainWord word = true :=
    forall_congr' fun cmd => by rw [hperm.mem_iff]
  rw [hplain]
  constructor
  · rintro ⟨nodes', hperm', -, rfl⟩
    refine hshortens.plain_of_le (le_of_eq ?_)
    have hall : (nodes'.map shellArgv).Perm (nodes.map shellArgv) := (hperm'.trans hperm.symm).map shellArgv
    exact (hall.map wordsSize).sum_eq
  · intro hp
    exact ⟨nodes, hperm, hsorted, (hshortens.same hp).symm⟩

end OpenAgere.ShellWords
