import OpenAgere.Text

/-! # Absolute paths

`AbsolutePathBuf` of `utils/fs/src/absolute_path`: a path that is absolute and normalized, here
on a Unix platform.  It is kept as the list of its components (`AbsolutePath`), and a value
carries the proof that every component is a normal one, so equality of values is equality of
paths.  `resolvePathAgainstBase` is the resolution of a path text against a base directory, with
the expansion of the home directory; `isAncestor` orders the paths of one branch.  A path is read
back from its text (`ofText_display`).  The functions of `std::path` that work on any path are given
on texts. -/

namespace OpenAgere

open Text

/-- A component that is neither empty nor a dot component and has no separator. -/
def NormalComponent (c : Str) : Prop := c ≠ [] ∧ '/' ∉ c ∧ c ≠ "." ∧ c ≠ ".."

instance (c : Str) : Decidable (NormalComponent c) := inferInstanceAs (Decidable (_ ∧ _))

@[ext] structure AbsolutePath where
  components : List Str
  normal : ∀ c ∈ components, NormalComponent c

namespace AbsolutePath

instance : DecidableEq AbsolutePath := fun p q =>
  decidable_of_iff (p.components = q.components) AbsolutePath.ext_iff.symm

/-- The root directory. -/
def root : AbsolutePath := ⟨[], by simp⟩

/-- The first `n` components. -/
def take (p : AbsolutePath) (n : ℕ) : AbsolutePath :=
  ⟨p.components.take n, fun c hc => p.normal c (List.mem_of_mem_take hc)⟩

def parent (p : AbsolutePath) : Option AbsolutePath :=
  if p.components = [] then none else some (p.take (p.components.length - 1))

/-- The proper ancestors of a path, from the root down. -/
def ancestors (p : AbsolutePath) : List AbsolutePath := (List.range p.components.length).map p.take

/-- `p` is a proper ancestor of `q`. -/
def isAncestor (p q : AbsolutePath) : Prop := p ∈ q.ancestors

instance (p q : AbsolutePath) : Decidable (p.isAncestor q) := inferInstanceAs (Decidable (_ ∈ _))

def display (p : AbsolutePath) : Str := '/' :: List.intercalate ['/'] p.components

variable {p q : AbsolutePath}

theorem mem_ancestors : p ∈ q.ancestors ↔ ∃ n, n < q.components.length ∧ q.take n = p := by
  simp [ancestors]

theorem take_take (p : AbsolutePath) (m n : ℕ) : (p.take n).take m = p.take (min m n) := by
  ext1
  simp [take, List.take_take]

theorem parent_eq_some : p.parent = some q ↔ p.components ≠ [] ∧ q = p.take (p.components.length - 1) := by
  unfold parent
  split_ifs with h
  · simp [h]
  · simp [h, eq_comm]

theorem isAncestor_of_parent (h : p.parent = some q) : q.isAncestor p := by
  obtain ⟨hne, rfl⟩ := parent_eq_some.mp h
  have := List.length_pos_iff.mpr hne
  exact mem_ancestors.mpr ⟨p.components.length - 1, by omega, rfl⟩

theorem not_isAncestor_self (p : AbsolutePath) : ¬ p.isAncestor p := by
  intro h
  obtain ⟨n, hn, e⟩ := mem_ancestors.mp h
  have := congrArg (fun q => q.components.length) e
  simp only [take, List.length_take] at this
  omega

variable {d : AbsolutePath}

theorem isAncestor_iff_parent (h : q.parent = some d) : p.isAncestor q ↔ p = d ∨ p.isAncestor d := by
  obtain ⟨hne, rfl⟩ := parent_eq_some.mp h
  have hpos := List.length_pos_iff.mpr hne
  have hlen : (q.take (q.components.length - 1)).components.length = q.components.length - 1 := by
    simp only [take, List.length_take]
    omega
  unfold isAncestor
  rw [mem_ancestors, mem_ancestors, hlen]
  constructor
  · rintro ⟨n, hn, rfl⟩
    rcases Nat.lt_or_ge n (q.components.length - 1) with hlt | hge
    · exact Or.inr ⟨n, hlt, by rw [take_take]; congr 1; omega⟩
    · left
      congr 1
      omega
  · rintro (rfl | ⟨n, hn, rfl⟩)
    · exact ⟨q.components.length - 1, by omega, rfl⟩
    · exact ⟨n, by omega, by rw [take_take]; congr 1; omega⟩

theorem mem_ancestors_of_parent (h : q.parent = some d) (hq : q ∈ p :: p.ancestors) : d ∈ p :: p.ancestors := by
  apply List.mem_cons_of_mem
  rcases List.mem_cons.mp hq with rfl | hq
  · exact isAncestor_of_parent h
  · obtain ⟨n, hn, rfl⟩ := mem_ancestors.mp hq
    obtain ⟨_, rfl⟩ := parent_eq_some.mp h
    rw [mem_ancestors]
    exact ⟨_, lt_of_le_of_lt (min_le_right _ _) hn, (take_take _ _ _).symm⟩

/-! ### Resolution -/

/-- One component of `normalize_path`. -/
def pushComponent (acc : List Str) (c : Str) : List Str :=
  if c = [] ∨ c = "." then acc
  else if c = ".." then acc.dropLast
  else acc ++ [c]

/-- The components after a start, with the dot components resolved. -/
def normalizePath (start : List Str) (cs : List Str) : List Str := cs.foldl pushComponent start

theorem normal_normalizePath : ∀ {cs start : List Str}, (∀ c ∈ start, NormalComponent c) →
    (∀ c ∈ cs, '/' ∉ c) → ∀ c ∈ normalizePath start cs, NormalComponent c
  | [], start, hs, _ => hs
  | c :: cs, start, hs, hc => by
    have hpush : ∀ x ∈ pushComponent start c, NormalComponent x := by
      intro x hx
      unfold pushComponent at hx
      split_ifs at hx with h1 h2
      · exact hs x hx
      · exact hs x (List.dropLast_subset _ hx)
      · push Not at h1
        rcases List.mem_append.mp hx with hx | hx
        · exact hs x hx
        · rw [List.mem_singleton.mp hx]
          exact ⟨h1.1, hc c (by simp), h1.2, h2⟩
    show ∀ x ∈ normalizePath (pushComponent start c) cs, NormalComponent x
    exact normal_normalizePath hpush fun x hx => hc x (List.mem_cons_of_mem c hx)

/-- `PathBuf::join` with a relative path. -/
def joinPath (base rel : Str) : Str :=
  if base = [] ∨ base.getLast? = some '/' then base ++ rel else base ++ '/' :: rel

/-- `~` and `~/…` against the home directory, when there is one. -/
def maybeExpandHomeDirectory (home : Option Str) (path : Str) : Str :=
  match home, stripPrefix ['~'] path with
  | some home, some [] => home
  | some home, some ('/' :: rest) => joinPath home (rest.dropWhile (· = '/'))
  | _, _ => path

def resolvePathAgainstBase (home : Option Str) (path : Str) (base : AbsolutePath) : AbsolutePath where
  components :=
    normalizePath (if (maybeExpandHomeDirectory home path).head? = some '/' then [] else base.components)
      (splitOn '/' (maybeExpandHomeDirectory home path))
  normal := by
    apply normal_normalizePath
    · split_ifs
      · simp
      · exact base.normal
    · exact fun c hc => not_mem_of_splitOn hc

/-- `AbsolutePathBuf::join`. -/
def join (home : Option Str) (base : AbsolutePath) (path : Str) : AbsolutePath :=
  resolvePathAgainstBase home path base

example : resolvePathAgainstBase (some "/home/u") "~//a/./b/../c" root =
    ⟨["home", "u", "a", "c"], by decide⟩ := by decide

/-! ### Absolute paths from text -/

/-- The path an absolute text spells, with its dot components resolved. -/
def ofText (path : Str) : AbsolutePath where
  components := normalizePath [] (splitOn '/' path)
  normal := normal_normalizePath (by simp) fun _ hc => not_mem_of_splitOn hc

/-- The components as `Path::components` lists them, the root directory first. -/
def parts (p : AbsolutePath) : List Str := "/" :: p.components

def startsWith (p base : AbsolutePath) : Bool := base.parts.isPrefixOf p.parts

variable {base : AbsolutePath}

theorem startsWith_iff : p.startsWith base ↔ base.parts <+: p.parts :=
  List.isPrefixOf_iff_prefix

variable {c : Str}

theorem pushComponent_normal {acc : List Str} (h : NormalComponent c) : pushComponent acc c = acc ++ [c] := by
  obtain ⟨hne, _, hdot, hdots⟩ := h
  unfold pushComponent
  rw [if_neg (by simp only [hne, hdot, or_self, not_false_eq_true]), if_neg hdots]

theorem normalizePath_intercalate : ∀ {cs : List Str} (start : List Str), (∀ c ∈ cs, NormalComponent c) →
    normalizePath start (splitOn '/' (List.intercalate ['/'] cs)) = start ++ cs
  | [], start, _ => by simp [normalizePath, splitOn, pushComponent]
  | [c], start, h => by
    have hc := h c List.mem_cons_self
    rw [List.intercalate_singleton, splitOn_of_not_mem hc.2.1]
    exact pushComponent_normal hc
  | c :: d :: cs, start, h => by
    have hc := h c List.mem_cons_self
    rw [List.intercalate_cons_cons, List.append_assoc, List.singleton_append, splitOn_append _ hc.2.1]
    show normalizePath (pushComponent start c) _ = _
    rw [pushComponent_normal hc, normalizePath_intercalate _ fun x hx => h x (List.mem_cons_of_mem c hx),
      List.append_assoc, List.singleton_append]

theorem parts_injective : Function.Injective parts := by
  intro p q h
  ext1
  exact (List.cons.inj h).2

/-- The components below a base, when the path lies in it (`Path::strip_prefix`). -/
def below (p base : AbsolutePath) : Option (List Str) :=
  if p.startsWith base then some (p.components.drop base.components.length) else none

theorem below_head?_eq_some : (p.below base).bind List.head? = some c ↔ base.parts ++ [c] <+: p.parts := by
  unfold below
  by_cases h : p.startsWith base = true
  · obtain ⟨rest, hrest⟩ := startsWith_iff.mp h
    have hcomponents : p.components = base.components ++ rest := (List.cons.inj hrest).2.symm
    rw [if_pos h, Option.bind_some, hcomponents, List.drop_left, ← hrest, List.prefix_append_right_inj]
    cases rest with
    | nil => simp
    | cons d ds => simp [List.cons_prefix_cons, eq_comm]
  · rw [if_neg h, Option.bind_none]
    have hnot : ¬ base.parts ++ [c] <+: p.parts := fun hc =>
      h (startsWith_iff.mpr ((List.prefix_append _ _).trans hc))
    simp [hnot]

theorem parts_join {home : Option Str} (hc : NormalComponent c)
    (htilde : c.head? ≠ some '~') : (join home base c).parts = base.parts ++ [c] := by
  have hexp : maybeExpandHomeDirectory home c = c := by
    cases c with
    | nil => exact absurd rfl hc.1
    | cons d ds =>
      have hd : '~' ≠ d := fun e => htilde (congrArg some e.symm)
      unfold maybeExpandHomeDirectory stripPrefix
      rw [if_neg hd]
      cases home <;> rfl
  have hhead : c.head? ≠ some '/' := by
    intro h
    exact hc.2.1 (List.mem_of_mem_head? h)
  unfold join parts
  show "/".toList :: normalizePath _ _ = _
  rw [hexp, if_neg hhead, splitOn_of_not_mem hc.2.1]
  show "/".toList :: pushComponent _ _ = _
  rw [pushComponent_normal hc, List.cons_append]

/-- **Round trip.** A path is read back from the text it is displayed as. -/
theorem ofText_display (p : AbsolutePath) : ofText p.display = p := by
  ext1
  exact normalizePath_intercalate [] p.normal

end AbsolutePath

/-! ### Paths as text -/

/-- `Path::is_absolute`. -/
abbrev IsAbsolute (path : Str) : Prop := path.head? = some '/'

/-- `Path::components`: no empty component, and a dot only at the start of a relative path. -/
def pathComponents (path : Str) : List Str :=
  match splitOn '/' path with
  | [] => []
  | first :: rest =>
      (if first ≠ [] then [first] else if rest ≠ [] then ["/"] else []) ++
        rest.filter fun c => c ≠ [] ∧ c ≠ "."

def ofPathComponents : List Str → Str
  | [] => []
  | c :: cs =>
      if c = "/" then '/' :: List.intercalate ['/'] cs else List.intercalate ['/'] (c :: cs)

/-- `Path::parent`. -/
def pathParent (path : Str) : Option Str :=
  match (pathComponents path).getLast? with
  | none => none
  | some last =>
      if last = "/" then none else some (ofPathComponents (pathComponents path).dropLast)

/-- `PathBuf`, kept as the text of its components: paths are equal when their components are. -/
structure PathBuf where
  text : Str
  normal : ofPathComponents (pathComponents text) = text

instance : DecidableEq PathBuf := fun p q =>
  decidable_of_iff (p.text = q.text) ⟨fun h => by cases p; cases q; cases h; rfl, fun h => h ▸ rfl⟩

/-- `normalize_path` on a text. -/
def normalizeText (path : Str) : Str :=
  let components := AbsolutePath.normalizePath [] (splitOn '/' path)
  if IsAbsolute path then '/' :: List.intercalate ['/'] components
  else if components = [] then "."
  else List.intercalate ['/'] components

/-- `resolve_path_against_base` for a base that need not be absolute. -/
def resolveTextAgainstBase (home : Option Str) (path base : Str) : Str :=
  let expanded := AbsolutePath.maybeExpandHomeDirectory home path
  normalizeText (if IsAbsolute expanded then expanded else AbsolutePath.joinPath base expanded)

example : resolveTextAgainstBase none "x/../**/*.env" "/a/./b" = "/a/b/**/*.env" := by
  decide

end OpenAgere
