import OpenAgere.PatchPreview

/-! # The preview against the application

The preview derives every hunk against the file system at the start; the application of
`ApplyHunks.lean` runs the hunks one after the other.  `Applied` says when a file system is
another one updated by a map of changes.  `applied_of_compatible` proves it of every run whose
hunks do not disturb each other (`Compatible`): the last hunk for each path reads a file no
earlier hunk wrote, no later hunk names its files, and no destination of a move is forgotten.
`not_applied_updateTwice` is a run of two updates of one file where it fails. -/

namespace OpenAgere.ApplyPatch

open Text OpenAgere.Action

theorem exists_last {α : Type} {P : α → Prop} : ∀ {l : List α}, (∃ x ∈ l, P x) →
    ∃ pre x post, l = pre ++ x :: post ∧ P x ∧ ∀ y ∈ post, ¬ P y
  | [], h => by simp at h
  | a :: l, h => by
    by_cases hl : ∃ x ∈ l, P x
    · obtain ⟨pre, x, post, rfl, hx, hpost⟩ := exists_last hl
      exact ⟨a :: pre, x, post, rfl, hx, hpost⟩
    · push Not at hl
      obtain ⟨x, hx, hpx⟩ := h
      rcases List.mem_cons.mp hx with rfl | hx
      · exact ⟨[], x, l, rfl, hpx, hl⟩
      · exact absurd hpx (hl x hx)

/-! ### A file system updated by changes -/

/-- The paths a map of changes names: those of the changes and the destinations of moves. -/
def Changes.Names (changes : Changes) (q : AbsolutePath) : Prop :=
  (changes q).isSome ∨ ∃ p diff content, changes p = some (.update diff (some q) content)

def FileChange.HoldsAt (fs' : MemFs) (p : AbsolutePath) : FileChange → Prop
  | add content => fs'.file p = some (.text content)
  | delete _ => fs'.file p = none
  | update _ none content => fs'.file p = some (.text content)
  | update _ (some dest) content => fs'.file dest = some (.text content) ∧ fs'.file p = none

/-- `fs'` is `fs` updated by the changes.  Directories may appear above the named paths. -/
structure Applied (changes : Changes) (fs fs' : MemFs) : Prop where
  holds : ∀ {p c}, changes p = some c → c.HoldsAt fs' p
  other : ∀ {q}, ¬ changes.Names q → SameAt changes.Names fs fs' q

/-! ### Hunks that do not disturb each other -/

section compatible
variable (home : Option Str) (cwd : AbsolutePath)

/-- No later hunk has the path of this one, so that its change is the one kept. -/
def Live (hunk : Hunk) (post : List Hunk) : Prop :=
  ∀ x ∈ post, x.resolvePath home cwd ≠ hunk.resolvePath home cwd

def Hunk.isUpdate : Hunk → Bool
  | updateFile _ _ _ => true
  | _ => false

/-- A hunk between those before and those after it: an update reads a file that no earlier hunk
wrote, no later hunk names its files, and a move goes to another path. -/
def Undisturbed (pre : List Hunk) (hunk : Hunk) (post : List Hunk) : Prop :=
  (hunk.isUpdate → ∀ x ∈ pre, x.written home cwd ≠ some (hunk.resolvePath home cwd)) ∧
    (∀ x ∈ post, ∀ q ∈ hunk.touched home cwd, q ∉ x.touched home cwd) ∧
    hunk.resolveDest home cwd ≠ some (hunk.resolvePath home cwd)

instance (hunk : Hunk) (post : List Hunk) : Decidable (Live home cwd hunk post) :=
  inferInstanceAs (Decidable (∀ x ∈ post, _))

instance (pre : List Hunk) (hunk : Hunk) (post : List Hunk) :
    Decidable (Undisturbed home cwd pre hunk post) := inferInstanceAs (Decidable (_ ∧ _ ∧ _))

/-- Every hunk whose change is kept is undisturbed, given the hunks before the list. -/
def liveUndisturbed (pre : List Hunk) : List Hunk → Bool
  | [] => true
  | hunk :: post =>
      decide (Live home cwd hunk post → Undisturbed home cwd pre hunk post) &&
        liveUndisturbed (pre ++ [hunk]) post

/-- The destinations of the moves whose change is kept. -/
def liveDests : List Hunk → List AbsolutePath
  | [] => []
  | hunk :: post =>
      if Live home cwd hunk post then (hunk.resolveDest home cwd).toList ++ liveDests post
      else liveDests post

/-- The hunks do not disturb each other: every hunk whose change is kept is undisturbed, and the
destination of every move is named by a change that is kept. -/
def Compatible (hunks : List Hunk) : Prop :=
  liveUndisturbed home cwd [] hunks ∧ ∀ x ∈ hunks, ∀ d ∈ x.resolveDest home cwd,
    d ∈ hunks.map (Hunk.resolvePath home cwd) ∨ d ∈ liveDests home cwd hunks

instance (hunks : List Hunk) : Decidable (Compatible home cwd hunks) :=
  inferInstanceAs (Decidable (_ ∧ ∀ x ∈ hunks, ∀ d ∈ x.resolveDest home cwd, _))

end compatible

section agreement
variable {home : Option Str} {cwd : AbsolutePath}

theorem undisturbed_of_live {hunk : Hunk} {post : List Hunk} : ∀ {pre before : List Hunk},
    liveUndisturbed home cwd before (pre ++ hunk :: post) → Live home cwd hunk post →
    Undisturbed home cwd (before ++ pre) hunk post
  | [], before, h, hl => by
    rw [List.nil_append] at h
    unfold liveUndisturbed at h
    rw [Bool.and_eq_true, decide_eq_true_eq] at h
    rw [List.append_nil]
    exact h.1 hl
  | x :: pre, before, h, hl => by
    rw [List.cons_append] at h
    unfold liveUndisturbed at h
    rw [Bool.and_eq_true] at h
    have := undisturbed_of_live h.2 hl
    rwa [List.append_assoc] at this

theorem mem_liveDests {d : AbsolutePath} : ∀ {hunks : List Hunk}, d ∈ liveDests home cwd hunks →
    ∃ pre x post, hunks = pre ++ x :: post ∧ Live home cwd x post ∧ x.resolveDest home cwd = some d
  | [], h => by simp [liveDests] at h
  | x :: xs, h => by
    have lift : d ∈ liveDests home cwd xs → ∃ pre y post, x :: xs = pre ++ y :: post ∧
        Live home cwd y post ∧ y.resolveDest home cwd = some d := by
      intro hd
      obtain ⟨pre, y, post, rfl, hy⟩ := mem_liveDests hd
      exact ⟨x :: pre, y, post, rfl, hy⟩
    unfold liveDests at h
    split_ifs at h with hl
    · rcases List.mem_append.mp h with h | h
      · exact ⟨[], x, xs, rfl, hl, by simpa using h⟩
      · exact lift h
    · exact lift h

end agreement

section preview
variable {env : Env} {cwd : AbsolutePath} {fs fs' : MemFs} {hunks : List Hunk} {changes : Changes}

/-- A change is the preview of the last hunk for its path. -/
theorem collectChanges_kept {p : AbsolutePath} {c : FileChange}
    (h : collectChanges env cwd fs hunks (fun _ => none) = .ok changes) (hc : changes p = some c) :
    ∃ pre x post, hunks = pre ++ x :: post ∧ x.resolvePath env.home cwd = p ∧
      Live env.home cwd x post ∧ previewHunk env cwd fs x = .ok c := by
  have hex : ∃ x ∈ hunks, x.resolvePath env.home cwd = p := by
    by_contra hno
    push Not at hno
    rw [collectChanges_other h hno] at hc
    cases hc
  obtain ⟨pre, x, post, rfl, rfl, hl⟩ := exists_last hex
  obtain ⟨c', hp, hc'⟩ := collectChanges_live h hl
  rw [hc] at hc'
  cases hc'
  exact ⟨pre, x, post, rfl, rfl, hl, hp⟩

/-- The change an undisturbed hunk announces is the one a run makes. -/
theorem holdsAt_of_undisturbed {pre post : List Hunk} {hunk : Hunk} {c : FileChange} {a a' : AffectedPaths}
    (h : forEach (applyHunk env.home cwd) (pre ++ hunk :: post) a fs = (.ok a', fs'))
    (hu : Undisturbed env.home cwd pre hunk post) (hp : previewHunk env cwd fs hunk = .ok c) :
    c.HoldsAt fs' (hunk.resolvePath env.home cwd) := by
  obtain ⟨b, mid, hpre, h⟩ := forEach_append_ok.mp h
  obtain ⟨b', mid', hhunk, hpost⟩ := forEach_cons_ok.mp h
  have hdid := (applyHunk_ok hhunk).1
  -- the files the hunk names stay as it left them
  have hkeep : ∀ q ∈ hunk.touched env.home cwd, fs'.file q = mid'.file q := fun q hq =>
    (applyHunks_same hpost fun x hx => hu.2.1 x hx q hq).file
  have hpath := hkeep (hunk.resolvePath env.home cwd) (by simp [Hunk.touched])
  cases hunk with
  | addFile path contents =>
    cases hp
    exact hpath.trans hdid
  | deleteFile path =>
    unfold previewHunk at hp
    cases hr : fs.readFileText ((Hunk.deleteFile path).resolvePath env.home cwd) with
    | error e => simp [hr] at hp
    | ok content =>
      simp only [hr, Except.ok.injEq] at hp
      rw [← hp]
      exact hpath.trans hdid
  | updateFile path movePath chunks =>
    obtain ⟨r, hr, rfl⟩ := previewHunk_update hp
    obtain ⟨hfile, hnew⟩ := deriveNewContentsFromChunks_ok.mp hr
    have hderived : ∀ old new, mid.file (.resolvePathAgainstBase env.home path cwd) = some (.text old) →
        newContents (.resolvePathAgainstBase env.home path cwd) chunks old = .ok new →
        new = r.newContents := by
      intro old new ho hn
      cases hfile.symm.trans (applyHunks_old hpre (hu.1 rfl) ho)
      cases hnew.symm.trans hn
      rfl
    cases movePath with
    | none =>
      obtain ⟨old, new, ho, hn, hw⟩ := hdid
      rw [hderived old new ho hn] at hw
      exact hpath.trans hw
    | some dest =>
      obtain ⟨old, new, ho, hn, hgone, hw⟩ := hdid
      rw [hderived old new ho hn] at hw
      have hne : AbsolutePath.resolvePathAgainstBase env.home dest cwd ≠
          (Hunk.updateFile path (some dest) chunks).resolvePath env.home cwd := by
        intro he
        exact hu.2.2 (congrArg some he)
      have hdest := hkeep (AbsolutePath.resolvePathAgainstBase env.home dest cwd)
        (by simp [Hunk.touched, Hunk.resolveDest])
      exact ⟨hdest.trans (hw hne), hpath.trans hgone⟩

/-- Every path a hunk names is named by the changes, when no destination is forgotten. -/
theorem names_of_touched {q : AbsolutePath} {x : Hunk}
    (h : collectChanges env cwd fs hunks (fun _ => none) = .ok changes)
    (hd : ∀ x ∈ hunks, ∀ d ∈ x.resolveDest env.home cwd,
      d ∈ hunks.map (Hunk.resolvePath env.home cwd) ∨ d ∈ liveDests env.home cwd hunks)
    (hx : x ∈ hunks) (hq : q ∈ x.touched env.home cwd) : changes.Names q := by
  have hpath : ∀ y ∈ hunks, y.resolvePath env.home cwd = q → changes.Names q := by
    intro y hy hyq
    have hex : ∃ y ∈ hunks, y.resolvePath env.home cwd = q := ⟨y, hy, hyq⟩
    obtain ⟨pre, z, post, rfl, rfl, hl⟩ := exists_last hex
    obtain ⟨c, _, hc⟩ := collectChanges_live h hl
    exact Or.inl (by rw [hc]; rfl)
  unfold Hunk.touched at hq
  rcases List.mem_cons.mp hq with hq | hq
  · exact hpath x hx hq.symm
  · rcases hd x hx q (by simpa using hq) with hm | hm
    · obtain ⟨y, hy, hyq⟩ := List.mem_map.mp hm
      exact hpath y hy hyq
    · obtain ⟨pre, y, post, rfl, hl, hyd⟩ := mem_liveDests hm
      obtain ⟨c, hp, hc⟩ := collectChanges_live h hl
      cases y with
      | addFile | deleteFile => cases hyd
      | updateFile path movePath chunks =>
        obtain ⟨r, _, rfl⟩ := previewHunk_update hp
        cases movePath with
        | none => cases hyd
        | some dest =>
          cases hyd
          exact Or.inr ⟨_, _, _, hc⟩

end preview

/-- **The preview and the application agree.**  A patch whose hunks do not disturb each other
leaves the file system it started from, updated by the changes it announced. -/
theorem applied_of_compatible {env : Env} {cwd : AbsolutePath} {fs fs' : MemFs} {patch : Str}
    {args : ApplyPatchArgs} {action : ApplyPatchAction} {affected : AffectedPaths}
    (hparse : parsePatch patch = .ok args)
    (hbody : maybeParseApplyPatchVerified env ["apply_patch", patch] cwd fs = some (.body action))
    (happly : applyHunksToFiles env.home cwd args.hunks fs = (.ok affected, fs'))
    (hc : Compatible env.home cwd args.hunks) : Applied action.changes fs fs' := by
  rw [maybeParseApplyPatchVerified_direct hparse] at hbody
  have hcollect : collectChanges env cwd fs args.hunks (fun _ => none) = .ok action.changes := by
    split at hbody
    · next changes h =>
        cases hbody
        exact h
    · cases hbody
    · cases hbody
  unfold applyHunksToFiles at happly
  split_ifs at happly with hne
  · simp at happly
  constructor
  · intro p c hpc
    obtain ⟨pre, x, post, hsplit, rfl, hl, hp⟩ := collectChanges_kept hcollect hpc
    rw [hsplit] at happly
    have hu := undisturbed_of_live (hsplit ▸ hc.1) hl
    exact holdsAt_of_undisturbed happly hu hp
  · intro q hq
    have hnames : ∀ {r : AbsolutePath} {x : Hunk}, x ∈ args.hunks → r ∈ x.touched env.home cwd →
        action.changes.Names r := names_of_touched hcollect hc.2
    refine (applyHunks_same happly fun x hx hmem => hq (hnames hx hmem)).mono ?_
    rintro p ⟨x, hx, hp⟩
    exact hnames hx hp

/-! ### Two patches -/

/-- An environment without home directory, diffs and shells. -/
def bareEnv : Env := ⟨none, fun _ _ => [], fun _ => .error .commandDidNotStartWithApplyPatch⟩

def pathF : AbsolutePath := ⟨["f"], by decide⟩

/-- A file system with one file `/f` of two lines. -/
def oneFile : MemFs where
  entry q :=
    if q = AbsolutePath.root then some .directory
    else if q = pathF then some (.file (.text "a\nb\n")) else none
  root_dir := if_pos rfl
  parent_dir := by
    intro p d hd hs
    by_cases hr : p = AbsolutePath.root
    · rw [hr] at hd
      cases hd
    · by_cases hf : p = pathF
      · rw [hf] at hd
        have hroot : pathF.parent = some AbsolutePath.root := by decide
        rw [hroot, Option.some.injEq] at hd
        rw [if_pos hd.symm]
      · rw [if_neg hr, if_neg hf] at hs
        cases hs

/-- A patch that moves `/f` to `/g` with a changed line and adds `/d/h`. -/
def moveAndAdd : Str :=
  ("*** Begin Patch\n*** Update File: f\n*** Move to: g\n@@\n-a\n+c\n" ++
    "*** Add File: d/h\n+x\n*** End Patch").toList

def moveAndAddHunks : List Hunk :=
  [.updateFile "f" (some "g") [⟨none, ["a"], ["c"], false⟩],
    .addFile "d/h" "x\n"]

theorem applied_of_compatible_moveAndAdd : ∃ args action affected fs',
    parsePatch moveAndAdd = .ok args ∧
    maybeParseApplyPatchVerified bareEnv ["apply_patch", moveAndAdd] .root oneFile =
      some (.body action) ∧
    applyHunksToFiles bareEnv.home .root args.hunks oneFile = (.ok affected, fs') ∧
    Compatible bareEnv.home .root args.hunks ∧ Applied action.changes oneFile fs' := by
  have hparse : parsePatch moveAndAdd = .ok ⟨moveAndAdd, moveAndAddHunks, none⟩ := by decide +kernel
  obtain ⟨changes, hch⟩ := collectChanges_total (fun _ => none)
    (show ∀ x ∈ moveAndAddHunks, (previewHunk bareEnv .root oneFile x).isOk = true by decide +kernel)
  have hbody := maybeParseApplyPatchVerified_body hparse hch
  have happly : applyHunksToFiles bareEnv.home .root moveAndAddHunks oneFile =
      (.ok ⟨["d/h"], ["g"], []⟩, _) := Prod.ext (by decide +kernel) rfl
  have hc : Compatible bareEnv.home .root moveAndAddHunks := by decide +kernel
  exact ⟨_, _, _, _, hparse, hbody, happly, hc, applied_of_compatible hparse hbody happly hc⟩

/-- A patch that updates the two lines of `/f` in two hunks. -/
def updateTwice : Str :=
  ("*** Begin Patch\n*** Update File: f\n@@\n-a\n+c\n" ++
    "*** Update File: f\n@@\n-b\n+d\n*** End Patch").toList

def updateFirst : Hunk := .updateFile "f" none [⟨none, ["a"], ["c"], false⟩]

def updateSecond : Hunk := .updateFile "f" none [⟨none, ["b"], ["d"], false⟩]

def updateTwiceHunks : List Hunk := [updateFirst, updateSecond]

/-- The changes announce `/f` with its second line updated only; the application updates both. -/
theorem not_applied_updateTwice : ∃ args action affected fs',
    parsePatch updateTwice = .ok args ∧
    maybeParseApplyPatchVerified bareEnv ["apply_patch", updateTwice] .root oneFile =
      some (.body action) ∧
    applyHunksToFiles bareEnv.home .root args.hunks oneFile = (.ok affected, fs') ∧
    action.changes pathF = some (.update [] none "a\nd\n") ∧
    fs'.file pathF = some (.text "c\nd\n") ∧ ¬ Applied action.changes oneFile fs' := by
  have hparse : parsePatch updateTwice = .ok ⟨updateTwice, updateTwiceHunks, none⟩ := by decide +kernel
  obtain ⟨changes, hch⟩ := collectChanges_total (fun _ => none)
    (show ∀ x ∈ updateTwiceHunks, (previewHunk bareEnv .root oneFile x).isOk = true by decide +kernel)
  have hbody := maybeParseApplyPatchVerified_body hparse hch
  have happly : applyHunksToFiles bareEnv.home .root updateTwiceHunks oneFile =
      (.ok ⟨[], ["f", "f"], []⟩, _) := Prod.ext (by decide +kernel) rfl
  have hpreview : previewHunk bareEnv .root oneFile updateSecond =
      .ok (.update [] none "a\nd\n") := by decide +kernel
  have hpath : updateSecond.resolvePath bareEnv.home .root = pathF := by decide +kernel
  obtain ⟨c, hc, hchange⟩ := collectChanges_live
    (show collectChanges _ _ _ ([updateFirst] ++ updateSecond :: []) _ = _ from hch) (by simp)
  rw [hpath] at hchange
  cases hpreview.symm.trans hc
  have hfile : (applyHunksToFiles bareEnv.home .root updateTwiceHunks oneFile).2.file pathF =
      some (.text "c\nd\n") := by decide +kernel
  refine ⟨_, _, _, _, hparse, hbody, happly, hchange, hfile, ?_⟩
  intro h
  have hheld := hfile.symm.trans (h.holds hchange)
  exact absurd hheld (by decide)

end OpenAgere.ApplyPatch
