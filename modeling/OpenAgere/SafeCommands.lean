import OpenAgere.PatchPreview
import OpenAgere.ShellWords

/-! # Commands known to be safe

`shell-command/src/command_safety/is_safe_command.rs`: a command is known to be safe if it is on a list of commands
that only read, with arguments that keep it so, or if it is a shell script that consists of such commands.  The words
of a script are those read off its syntax tree (`ShellWords`).  Paths are those of Unix; the parser of the shell and
the judgement of PowerShell invocations are given.

A script is approved on the words that are read off it (`isKnownSafeCommand_script`), and these are the arguments the
shell gives to its commands exactly if nothing is escaped in them (`reads_arguments_iff`). -/

namespace OpenAgere.SafeCommands

open List Option

open ApplyPatch (fileName fileStem)
open ShellQuoting ShellWords Text

/-! ### Shells -/

inductive ShellType where
  | zsh
  | bash
  | powerShell
  | sh
  | cmd
deriving DecidableEq

/-- What paths are compared by: an absolute path, a path with a leading dot, and the components. -/
def pathKey (path : Str) : Bool × Bool × List Str :=
  (path.head? = some '/', (Text.splitOn '/' path).head? = some ".".toList,
    (Text.splitOn '/' path).filter fun c => c ≠ [] ∧ c ≠ ".".toList)

def shellTypeOfName (name : Str) : Option ShellType :=
  if name = "zsh" then some .zsh
  else if name = "sh" then some .sh
  else if name = "cmd" then some .cmd
  else if name = "bash" then some .bash
  else if name = "pwsh" then some .powerShell
  else if name = "powershell" then some .powerShell
  else none

theorem eq_or_length_lt_of_mem_splitOn {sep : Char} {piece : Str} (s : Str) (h : piece ∈ Text.splitOn sep s) :
    piece = s ∨ piece.length < s.length := by
  by_cases hsep : sep ∈ s
  · obtain ⟨l, rest, hs, hl⟩ := eq_append_cons_of_mem hsep
    rw [hs, splitOn_append rest hl] at h
    have hlength : s.length = l.length + (rest.length + 1) := by
      rw [hs, length_append, length_cons]
    obtain rfl | h := mem_cons.mp h
    · exact .inr (by omega)
    · obtain rfl | hlt := eq_or_length_lt_of_mem_splitOn rest h
      · exact .inr (by omega)
      · exact .inr (by omega)
  · rw [splitOn_of_not_mem hsep] at h
    exact .inl (mem_singleton.mp h)
termination_by s.length
decreasing_by
  rw [hlength]
  omega

theorem fileStem_cases (name : Str) : fileStem name = name ∨ ∃ ext, name = fileStem name ++ '.' :: ext := by
  unfold fileStem
  split_ifs with h
  · exact .inl rfl
  · right
    by_cases hdot : '.' ∈ name.reverse
    · obtain ⟨after, before, hsplit, hafter⟩ := eq_append_cons_of_mem hdot
      have htake : name.reverse.takeWhile (· ≠ '.') = after := by
        rw [hsplit, takeWhile_append_of_pos, takeWhile_cons_of_neg (by simp), append_nil]
        exact fun c hc => decide_eq_true fun heq => hafter (heq ▸ hc)
      have hname : name = before.reverse ++ '.' :: after.reverse := by
        have hreverse := reverse_eq_append_iff.mp hsplit
        rw [reverse_cons, append_assoc] at hreverse
        exact hreverse
      have hlength : name.length - after.length - 1 = before.reverse.length := by
        rw [hname, length_append, length_cons, @length_reverse _ after]
        omega
      rw [htake, hlength]
      nth_rewrite 2 [hname]
      rw [take_left]
      exact ⟨_, hname⟩
    · -- without a dot there is nothing to take
      have hall : name.reverse.takeWhile (· ≠ '.') = name.reverse :=
        takeWhile_eq_self_iff.mpr fun c hc => decide_eq_true fun heq => hdot (heq ▸ hc)
      rw [hall, length_reverse, Nat.sub_self] at h
      exact absurd rfl h

variable {path : Str}

theorem mem_splitOn_of_fileName {name : Str} (h : fileName path = some name) : name ∈ Text.splitOn '/' path := by
  unfold fileName at h
  split at h
  · rename_i c hc
    split_ifs at h
    obtain rfl := some.inj h
    exact (mem_filter.mp (mem_of_getLast? hc)).1
  · cases h

theorem fileStem_length_lt {name : Str} (hname : fileName path = some name)
    (hkey : pathKey (fileStem name) ≠ pathKey path) : (fileStem name).length < path.length := by
  obtain hstem | ⟨ext, hstem⟩ := fileStem_cases name
  · rw [hstem] at hkey ⊢
    obtain rfl | hlt := eq_or_length_lt_of_mem_splitOn path (mem_splitOn_of_fileName hname)
    · exact absurd rfl hkey
    · exact hlt
  · have hshort : (fileStem name).length < name.length := by
      have hlength := congrArg List.length hstem
      rw [length_append, length_cons] at hlength
      omega
    obtain rfl | hlt := eq_or_length_lt_of_mem_splitOn path (mem_splitOn_of_fileName hname)
    · exact hshort
    · exact hshort.trans hlt

def detectShellType (shellPath : Str) : Option ShellType :=
  match shellTypeOfName shellPath with
  | some shellType => some shellType
  | none =>
      match hname : fileName shellPath with
      | none => none
      | some name =>
          if hkey : pathKey (fileStem name) ≠ pathKey shellPath then
            have := fileStem_length_lt hname hkey
            detectShellType (fileStem name)
          else none
termination_by shellPath.length

variable {shellType : ShellType}

theorem shellTypeOfName_eq_some (h : shellTypeOfName path = some shellType) :
    path ∈ ["zsh", "sh", "cmd", "bash", "pwsh", "powershell"].map String.toList := by
  unfold shellTypeOfName at h
  split_ifs at h with h1 h2 h3 h4 h5 h6
  all_goals
    subst path
    decide

theorem takeWhile_fileStem (name : Str) : (fileStem name).takeWhile (· ≠ '.') = name.takeWhile (· ≠ '.') := by
  obtain hstem | ⟨ext, hstem⟩ := fileStem_cases name
  · rw [hstem]
  · nth_rewrite 2 [hstem]
    rw [takeWhile_append]
    split_ifs with hall
    · rw [takeWhile_cons_of_neg (by simp), append_nil]
      exact (List.takeWhile_prefix _).eq_of_length hall
    · rfl

theorem detectShellType_eq_some (path : Str) (h : detectShellType path = some shellType) :
    ∃ name, fileName path = some name ∧ shellTypeOfName (name.takeWhile (· ≠ '.')) = some shellType := by
  rw [detectShellType] at h
  split at h
  · rename_i found hfound
    have hname : ∀ path ∈ ["zsh", "sh", "cmd", "bash", "pwsh", "powershell"].map String.toList,
        fileName path = some path ∧ path.takeWhile (· ≠ '.') = path := by decide
    obtain ⟨hfile, htake⟩ := hname path (shellTypeOfName_eq_some hfound)
    exact ⟨path, hfile, by rw [htake, hfound, h]⟩
  · split at h
    · cases h
    · rename_i name hname
      split_ifs at h with hkey
      have := fileStem_length_lt hname hkey
      obtain ⟨stem, hstem, htype⟩ := detectShellType_eq_some (fileStem name) h
      have hslash : '/' ∉ fileStem name := by
        intro hmem
        refine Text.not_mem_of_splitOn (mem_splitOn_of_fileName hname) ?_
        obtain heq | ⟨ext, heq⟩ := fileStem_cases name
        · exact heq ▸ hmem
        · exact heq ▸ mem_append_left _ hmem
      have hmem := mem_splitOn_of_fileName hstem
      rw [Text.splitOn_of_not_mem hslash] at hmem
      rw [mem_singleton.mp hmem, takeWhile_fileStem] at htype
      exact ⟨name, hname, htype⟩
termination_by path.length

/-- The first of three words that call a shell with a script, and the script. -/
def extractBashCommand : List Str → Option (Str × Str)
  | [shell, flag, script] =>
      if (flag = "-lc" ∨ flag = "-c") ∧
          (detectShellType shell = some .zsh ∨ detectShellType shell = some .bash ∨
            detectShellType shell = some .sh) then some (shell, script)
      else none
  | _ => none

/-! ### Commands that only read -/

/-- `executable_name_lookup_key` where paths are those of Unix. -/
def executableNameLookupKey (raw : Str) : Option Str := fileName raw

def gitGlobalOptionsWithValue : List Str :=
  ["-C", "-c", "--config-env", "--exec-path", "--git-dir", "--namespace", "--super-prefix", "--work-tree"].map
    String.toList

def isGitGlobalOptionWithValue (arg : Str) : Bool := gitGlobalOptionsWithValue.contains arg

def isGitGlobalOptionWithInlineValue (arg : Str) : Bool :=
  (["--config-env=", "--exec-path=", "--git-dir=", "--namespace=", "--super-prefix=", "--work-tree="].any
      fun option => option.toList.isPrefixOf arg) ||
    (("-C".toList.isPrefixOf arg || "-c".toList.isPrefixOf arg) && arg.length > 2)

def gitGlobalOptionRequiresPrompt (arg : Str) : Bool :=
  isGitGlobalOptionWithValue arg || isGitGlobalOptionWithInlineValue arg

/-- The loop of `find_git_subcommand` over the arguments, from the index given. -/
def findGitSubcommandFrom (subcommands : List Str) : Bool → ℕ → List Str → Option (ℕ × Str)
  | _, _, [] => none
  | true, idx, _ :: args => findGitSubcommandFrom subcommands false (idx + 1) args
  | false, idx, arg :: args =>
      if isGitGlobalOptionWithInlineValue arg then findGitSubcommandFrom subcommands false (idx + 1) args
      else if isGitGlobalOptionWithValue arg then findGitSubcommandFrom subcommands true (idx + 1) args
      else if arg = "--" ∨ arg.head? = some '-' then findGitSubcommandFrom subcommands false (idx + 1) args
      else if subcommands.contains arg then some (idx, arg)
      else none

def findGitSubcommand (command subcommands : List Str) : Option (ℕ × Str) :=
  command.head?.bind fun cmd0 =>
    if executableNameLookupKey cmd0 ≠ some "git".toList then none
    else findGitSubcommandFrom subcommands false 1 command.tail

def gitHasUnsafeGlobalOption (command : List Str) : Bool := command.tail.any gitGlobalOptionRequiresPrompt

def unsafeGitFlags : List Str :=
  ["--output", "--ext-diff", "--textconv", "--exec", "--paginate"].map String.toList

def gitSubcommandArgsAreReadOnly (args : List Str) : Bool :=
  !args.any fun arg =>
    unsafeGitFlags.contains arg || "--output=".toList.isPrefixOf arg || "--exec=".toList.isPrefixOf arg

def readOnlyBranchFlags : List Str :=
  ["--list", "-l", "--show-current", "-a", "--all", "-r", "--remotes", "-v", "-vv", "--verbose"].map String.toList

/-- The loop of `git_branch_is_read_only`, with whether a flag that only reads was seen. -/
def branchArgsAreReadOnly : Bool → List Str → Bool
  | sawReadOnlyFlag, [] => sawReadOnlyFlag
  | _, arg :: args =>
      if readOnlyBranchFlags.contains arg || "--format=".toList.isPrefixOf arg then branchArgsAreReadOnly true args
      else false

def gitBranchIsReadOnly (branchArgs : List Str) : Bool := branchArgs.isEmpty || branchArgsAreReadOnly false branchArgs

def isNumber (s : Str) : Bool := s ≠ [] && s.all Char.isDigit

/-- The arguments of `sed -n` that print a line or some lines. -/
def isValidSedNArg : Option Str → Bool
  | none => false
  | some s =>
      s.getLast? = some 'p' &&
        match Text.splitOn ',' s.dropLast with
        | [num] => isNumber num
        | [a, b] => isNumber a && isNumber b
        | _ => false

def linuxSafeCommands : List Str := ["numfmt", "tac"].map String.toList

def safeCommands : List Str :=
  ["cat", "cd", "cut", "echo", "expr", "false", "grep", "head", "id", "ls", "nl", "paste", "pwd", "rev", "seq",
    "stat", "tail", "tr", "true", "uname", "uniq", "wc", "which", "whoami"].map String.toList

def unsafeBase64Options : List Str := ["-o", "--output"].map String.toList

def unsafeFindOptions : List Str :=
  ["-exec", "-execdir", "-ok", "-okdir", "-delete", "-fls", "-fprint", "-fprint0", "-fprintf"].map String.toList

def unsafeRipgrepOptionsWithArgs : List Str := ["--pre", "--hostname-bin"].map String.toList

def unsafeRipgrepOptionsWithoutArgs : List Str := ["--search-zip", "-z"].map String.toList

def gitSubcommands : List Str := ["status", "log", "diff", "show", "branch"].map String.toList

def base64IsSafe (command : List Str) : Bool :=
  !command.tail.any fun arg =>
    unsafeBase64Options.contains arg || "--output=".toList.isPrefixOf arg ||
      ("-o".toList.isPrefixOf arg && arg ≠ "-o")

def findIsSafe (command : List Str) : Bool := !command.any fun arg => unsafeFindOptions.contains arg

def ripgrepIsSafe (command : List Str) : Bool :=
  !command.any fun arg =>
    unsafeRipgrepOptionsWithoutArgs.contains arg ||
      unsafeRipgrepOptionsWithArgs.any fun opt => arg = opt || (opt ++ ['=']).isPrefixOf arg

def gitIsSafe (command : List Str) : Bool :=
  if gitHasUnsafeGlobalOption command then false
  else
    match findGitSubcommand command gitSubcommands with
    | none => false
    | some (subcommandIdx, subcommand) =>
        let subcommandArgs := command.drop (subcommandIdx + 1)
        if subcommand = "branch" then
          gitSubcommandArgsAreReadOnly subcommandArgs && gitBranchIsReadOnly subcommandArgs
        else gitSubcommandArgsAreReadOnly subcommandArgs

def sedIsSafe (command : List Str) : Bool :=
  command.length ≤ 4 && command[1]? = some "-n".toList && isValidSedNArg command[2]?

def isSafeToCallWithExec (command : List Str) : Bool :=
  match command.head?.bind executableNameLookupKey with
  | none => false
  | some cmd =>
      if linuxSafeCommands.contains cmd then true
      else if safeCommands.contains cmd then true
      else if cmd = "base64" then base64IsSafe command
      else if cmd = "find" then findIsSafe command
      else if cmd = "rg" then ripgrepIsSafe command
      else if cmd = "git" then gitIsSafe command
      else if cmd = "sed" then sedIsSafe command
      else false

/-! ### Approval -/

/-- What is not part of the model: the parser of the shell, and which arguments of PowerShell are safe. -/
structure Env where
  tryParseShell : Str → Option Tree
  isSafePowershellInvocation : Str → List Str → Bool

def isPowershellExecutable (exe : Str) : Bool :=
  (["powershell", "powershell.exe", "pwsh", "pwsh.exe"].map String.toList).contains
    (toAsciiLowercase ((fileName exe).getD exe))

def isSafeCommandWindows (env : Env) : List Str → Bool
  | [] => false
  | exe :: rest => isPowershellExecutable exe && env.isSafePowershellInvocation exe rest

def parseShellLcPlainCommands (env : Env) (command : List Str) : Option (List (List Str)) :=
  (extractBashCommand command).bind fun extracted =>
    (env.tryParseShell extracted.2).bind tryParseWordOnlyCommandsSequence

def bashForZsh (s : Str) : Str := if s = "zsh" then "bash" else s

def isKnownSafeCommand (env : Env) (command : List Str) : Bool :=
  let command := command.map bashForZsh
  isSafeCommandWindows env command || isSafeToCallWithExec command ||
    match parseShellLcPlainCommands env command with
    | some allCommands => !allCommands.isEmpty && allCommands.all isSafeToCallWithExec
    | none => false

/-! ### Scripts -/

def UnixShell (shell : Str) : Prop :=
  detectShellType shell = some .zsh ∨ detectShellType shell = some .bash ∨ detectShellType shell = some .sh

variable {command : List Str} {shell script : Str}

theorem extractBashCommand_eq_some
    (h : extractBashCommand command = some (shell, script)) :
    UnixShell shell ∧ ∃ flag, command = [shell, flag, script] := by
  unfold extractBashCommand at h
  split at h
  · rename_i shell' flag script'
    split_ifs at h with hshell
    obtain ⟨rfl, rfl⟩ := Prod.mk.inj (some.inj h)
    exact ⟨hshell.2, flag, rfl⟩
  · cases h

theorem UnixShell.name (h : UnixShell shell) : ∃ name, fileName shell = some name ∧
    name.takeWhile (· ≠ '.') ∈ ["zsh", "bash", "sh"].map String.toList := by
  have hnames : ∀ path ∈ ["zsh", "sh", "cmd", "bash", "pwsh", "powershell"].map String.toList,
      shellTypeOfName path = some .zsh ∨ shellTypeOfName path = some .bash ∨ shellTypeOfName path = some .sh →
        path ∈ ["zsh", "bash", "sh"].map String.toList := by decide
  obtain h | h | h := h
  all_goals
    obtain ⟨name, hname, htype⟩ := detectShellType_eq_some shell h
    refine ⟨name, hname, hnames _ (shellTypeOfName_eq_some htype) ?_⟩
    rw [htype]
    decide

/-- The commands that are safe with some arguments. -/
def safeExecutables : List Str :=
  linuxSafeCommands ++ safeCommands ++ ["base64", "find", "rg", "git", "sed"].map String.toList

theorem mem_safeExecutables {cmd : Str} (hcmd : command.head?.bind fileName = some cmd)
    (h : isSafeToCallWithExec command) : cmd ∈ safeExecutables := by
  have hlast : cmd ∈ ["base64", "find", "rg", "git", "sed"].map String.toList → cmd ∈ safeExecutables :=
    fun hmem => mem_append_right _ hmem
  unfold isSafeToCallWithExec at h
  rw [show executableNameLookupKey = fileName from rfl, hcmd] at h
  dsimp only at h
  split_ifs at h with h1 h2 h3 h4 h5 h6 h7
  · exact mem_append_left _ (mem_append_left _ (contains_iff_mem.mp h1))
  · exact mem_append_left _ (mem_append_right _ (contains_iff_mem.mp h2))
  all_goals
    refine hlast ?_
    subst cmd
    decide

theorem UnixShell.not_safe (h : UnixShell shell) (args : List Str) :
    isSafeToCallWithExec (shell :: args) = false := by
  obtain ⟨name, hname, hshell⟩ := h.name
  have hdisjoint : ∀ cmd ∈ safeExecutables, cmd.takeWhile (· ≠ '.') ∉ ["zsh", "bash", "sh"].map String.toList := by
    decide
  by_contra hsafe
  have hcmd : (shell :: args).head?.bind fileName = some name := hname
  rw [Bool.not_eq_false] at hsafe
  exact hdisjoint name (mem_safeExecutables hcmd hsafe) hshell

/-- No shell that runs scripts is a PowerShell: their names begin with other letters. -/
theorem UnixShell.not_powershell (h : UnixShell shell) : isPowershellExecutable shell = false := by
  obtain ⟨name, hname, hshell⟩ := h.name
  have hhead : ∀ s ∈ ["zsh", "bash", "sh"].map String.toList,
      s ≠ [] ∧ (toAsciiLowercase s).head? ≠ some 'p' := by decide
  have hpower : ∀ s ∈ ["powershell", "powershell.exe", "pwsh", "pwsh.exe"].map String.toList,
      s.head? = some 'p' := by decide
  obtain ⟨hne, hhead⟩ := hhead _ hshell
  obtain ⟨c, rest, hs⟩ := exists_cons_of_ne_nil hne
  by_contra hexe
  rw [Bool.not_eq_false, isPowershellExecutable, hname, getD_some, contains_iff_mem] at hexe
  have hp := hpower _ hexe
  rw [← takeWhile_append_dropWhile (p := (· ≠ '.')) (l := name), hs] at hp
  exact hhead (hs ▸ hp)

/-- **Approval of a script** rests on the commands that are read off it alone. -/
theorem isKnownSafeCommand_script {env : Env} {tree : Tree}
    {commands : List (List Str)} (hscript : extractBashCommand (command.map bashForZsh) = some (shell, script))
    (hparse : env.tryParseShell script = some tree) (h : tryParseWordOnlyCommandsSequence tree = some commands) :
    isKnownSafeCommand env command = (!commands.isEmpty && commands.all isSafeToCallWithExec) := by
  have hcommands : parseShellLcPlainCommands env (command.map bashForZsh) = some commands := by
    rw [parseShellLcPlainCommands, hscript, bind_some, hparse, bind_some, h]
  obtain ⟨hshell, flag, hcommand⟩ := extractBashCommand_eq_some hscript
  rw [isKnownSafeCommand, hcommands, hcommand, hshell.not_safe, isSafeCommandWindows, hshell.not_powershell]
  rfl

/-! ### Trees of scripts -/

variable {s : Str}

theorem wordText_append {t : Str} (hs : s.all (fun c => c ≠ '\\' && c ≠ '\'' && c ≠ '"')) (ht : WordText t) :
    WordText (s ++ t) := by
  induction s with
  | nil => exact ht
  | cons c s ih =>
    rw [all_cons, Bool.and_eq_true, Bool.and_eq_true, Bool.and_eq_true] at hs
    obtain ⟨⟨⟨hb, hsingle⟩, hdouble⟩, hs⟩ := hs
    exact .char (of_decide_eq_true hb) (of_decide_eq_true hsingle) (of_decide_eq_true hdouble) (ih hs)

theorem wordText_of_all (hs : s.all (fun c => c ≠ '\\' && c ≠ '\'' && c ≠ '"')) : WordText s :=
  append_nil s ▸ wordText_append hs .nil

def wordNode (startByte : ℕ) (text : Str) : Node := .mk "word" true startByte text []

/-- Only what the grammar says of its own kind is asked of a node. -/
theorem wellParsed_of_kind {node : Node} (h : node.kind ∉
    ["word", "number", "string", "raw_string", "concatenation", "command_name"].map String.toList) :
    WellParsed node := by
  constructor <;> exact fun hkind => absurd (hkind ▸ by decide) h

theorem wellParsed_wordNode (startByte : ℕ) {text : Str} (h : WordText text) :
    WellParsed (wordNode startByte text) := by
  constructor <;> intro hkind <;> first
    | exact ⟨rfl, h⟩
    | exact absurd (show "word".toList = _ from hkind) (by decide)

def nameNode (startByte : ℕ) (text : Str) : Node :=
  .mk "command_name" true startByte text [wordNode startByte text]

theorem wellParsed_nameNode (startByte : ℕ) (text : Str) : WellParsed (nameNode startByte text) := by
  constructor <;> intro hkind <;> first
    | exact ⟨wordNode startByte text, rfl, rfl, rfl⟩
    | exact absurd (show "command_name".toList = _ from hkind) (by decide)

/-- **The words that are judged are the arguments.** The commands that are read off a script are those the shell
executes, and a script is approved only if every command is on the arguments the shell gives it, exactly if nothing is
escaped in the words. -/
theorem reads_arguments_iff {env : Env} {tree : Tree} {commands : List (List Str)}
    (h : tryParseWordOnlyCommandsSequence tree = some commands) :
    (Executes tree commands ∧ ∀ (command : List Str) (shell script : Str),
      extractBashCommand (command.map bashForZsh) = some (shell, script) → env.tryParseShell script = some tree →
        isKnownSafeCommand env command →
          ∀ cmd ∈ tree.commandNodes, isSafeToCallWithExec (shellArgv cmd)) ↔ tree.Plain := by
  rw [← executes_iff h]
  refine ⟨And.left, fun hexec => ⟨hexec, ?_⟩⟩
  intro command shell script hscript hparse hsafe cmd hcmd
  rw [isKnownSafeCommand_script hscript hparse h, Bool.and_eq_true, List.all_eq_true] at hsafe
  obtain ⟨nodes, hperm, -, rfl⟩ := hexec
  exact hsafe.2 _ (List.mem_map_of_mem (hperm.mem_iff.mpr hcmd))

/-- The words of `cat "a b" && echo x'y'`. -/
def quotedWord : Node :=
  .mk "string" true 4 "\"a b\"" [.mk ['"'] false 4 ['"'] [],
    .mk "string_content" true 5 "a b" [], .mk ['"'] false 8 ['"'] []]

def rawPart : Node := .mk "raw_string" true 19 "'y'" []

def joinedWord : Node := .mk "concatenation" true 18 "x'y'" [wordNode 18 ['x'], rawPart]

def catCommand : Node := .mk "command" true 0 "cat \"a b\"" [nameNode 0 "cat", quotedWord]

def echoCommand : Node := .mk "command" true 13 "echo x'y'" [nameNode 13 "echo", joinedWord]

def quotedTree : Tree where
  root := .mk "program" true 0 "cat \"a b\" && echo x'y'"
    [.mk "list" true 0 "cat \"a b\" && echo x'y'"
      [catCommand, .mk "&&" false 10 "&&" [], echoCommand]]
  hasError := false
  wellParsed _ := by
    have hquoted : WellParsed quotedWord := by
      constructor <;> intro hkind <;> first
        | exact fun _ => ⟨"a b", rfl, .char (by decide) (by decide) (.char (by decide) (by decide)
            (.char (by decide) (by decide) .nil))⟩
        | exact absurd (show "string".toList = _ from hkind) (by decide)
    have hraw : WellParsed rawPart := by
      constructor <;> intro hkind <;> first
        | exact ⟨['y'], rfl, by decide⟩
        | exact absurd (show "raw_string".toList = _ from hkind) (by decide)
    have hjoined : WellParsed joinedWord := by
      constructor <;> intro hkind <;> first
        | exact ⟨by decide, fun _ => rfl⟩
        | exact absurd (show "concatenation".toList = _ from hkind) (by decide)
    have hword : ∀ (startByte : ℕ) (text : Str), _ → WellParsed (wordNode startByte text) := fun startByte _ h =>
      wellParsed_wordNode startByte (wordText_of_all h)
    exact List.forall_iff_forall_mem.mp ⟨wellParsed_of_kind (by decide), wellParsed_of_kind (by decide),
      wellParsed_of_kind (by decide), wellParsed_nameNode 0 _, hword 0 _ (by decide), hquoted,
      wellParsed_of_kind (by decide), wellParsed_of_kind (by decide), wellParsed_of_kind (by decide),
      wellParsed_of_kind (by decide), wellParsed_of_kind (by decide), wellParsed_nameNode 13 _, hword 13 _ (by decide),
      hjoined, hword 18 _ (by decide), hraw⟩

/-- Quotes, parts that are joined and two commands. -/
theorem reads_arguments_quoted :
    tryParseWordOnlyCommandsSequence quotedTree =
      some [["cat".toList, "a b".toList], ["echo".toList, "xy".toList]] ∧ ∀ env : Env,
    Executes quotedTree [["cat", "a b"], ["echo", "xy"]] ∧
      ∀ (command : List Str) (shell script : Str),
        extractBashCommand (command.map bashForZsh) = some (shell, script) →
          env.tryParseShell script = some quotedTree → isKnownSafeCommand env command →
            ∀ cmd ∈ quotedTree.commandNodes, isSafeToCallWithExec (shellArgv cmd) := by
  have hread : tryParseWordOnlyCommandsSequence quotedTree =
      some [["cat".toList, "a b".toList], ["echo".toList, "xy".toList]] := by decide +kernel
  exact ⟨hread, fun _ => (reads_arguments_iff hread).mpr (by unfold Tree.Plain; decide +kernel)⟩

/-- A backslash before a letter of the action. -/
def escapedDelete : Str := "find . -delet\\e"

def escapedDeleteCommand : Node :=
  .mk "command" true 0 escapedDelete
    [nameNode 0 "find", wordNode 5 ".", wordNode 7 "-delet\\e"]

def escapedDeleteTree : Tree where
  root := .mk "program" true 0 escapedDelete [escapedDeleteCommand]
  hasError := false
  wellParsed _ := List.forall_iff_forall_mem.mp ⟨wellParsed_of_kind (show "program".toList ∉ _ by decide),
    wellParsed_of_kind (show "command".toList ∉ _ by decide), wellParsed_nameNode 0 _,
    wellParsed_wordNode 0 (wordText_of_all (by decide)), wellParsed_wordNode 5 (wordText_of_all (by decide)),
    wellParsed_wordNode 7 (wordText_append (s := "-delet") (by decide) (.escape .nil))⟩

/-- What starts an expansion. -/
def expansionCharacters : Str := ['$', Char.ofNat 96, '*', '?', '[', '~', '{']

/-- The arguments of `find` are read with the backslash, the script is approved, and the shell runs `find . -delete`. -/
theorem not_reads_escapedDelete : ∃ (env : Env) (commands : List (List Str)) (command : List Str),
    tryParseWordOnlyCommandsSequence escapedDeleteTree = some commands ∧
    (escapedDeleteTree.root.nodes.all fun node => node.text.all fun c => !expansionCharacters.contains c) ∧
    ¬Executes escapedDeleteTree commands ∧
    extractBashCommand (command.map bashForZsh) = some ("bash".toList, escapedDelete) ∧
    env.tryParseShell escapedDelete = some escapedDeleteTree ∧
    isKnownSafeCommand env command ∧
    escapedDeleteTree.commandNodes.map shellArgv = [["find".toList, ".".toList, "-delete".toList]] ∧
    ∃ cmd ∈ escapedDeleteTree.commandNodes, isSafeToCallWithExec (shellArgv cmd) = false := by
  have hparse : tryParseWordOnlyCommandsSequence escapedDeleteTree =
      some [["find".toList, ".".toList, "-delet\\e".toList]] := by decide +kernel
  have hbash : detectShellType "bash".toList = some .bash := by
    rw [detectShellType]
    rfl
  have hscript : extractBashCommand (["bash".toList, "-lc".toList, escapedDelete].map bashForZsh) =
      some ("bash".toList, escapedDelete) := by
    have hmap : ["bash".toList, "-lc".toList, escapedDelete].map bashForZsh =
        ["bash".toList, "-lc".toList, escapedDelete] := by decide
    rw [hmap, extractBashCommand, if_pos ⟨.inl rfl, .inr (.inl hbash)⟩]
  refine ⟨⟨fun _ => some escapedDeleteTree, fun _ _ => false⟩, _, _, hparse, by decide +kernel, ?_, hscript, rfl, ?_,
    by decide +kernel, escapedDeleteCommand, ?_, by decide +kernel⟩
  · rw [executes_iff hparse]
    unfold Tree.Plain
    decide +kernel
  · rw [isKnownSafeCommand_script hscript rfl hparse]
    decide +kernel
  · exact mem_filter.mpr ⟨mem_cons_of_mem _ mem_cons_self, by decide⟩

end OpenAgere.SafeCommands
