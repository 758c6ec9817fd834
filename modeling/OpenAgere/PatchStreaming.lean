import OpenAgere.PatchPrint

/-! # Parsing a patch while it streams in

`parsePatchStreaming` reads a prefix of a patch.  Against the strict parser on the whole text:
every hunk but the last one is final, hunks only come, and on the whole text the result is that
of the strict parser (`parsePatchStreaming_agrees`).

The lines a prefix leaves between the markers are a cut of the lines of the patch (`Cut`): the
text is trimmed, so the last line is a non-blank prefix of the line it was cut from.  Each level
of the parser then has a simulation lemma with two cases.  Either a line after the piece is in
sight, even if cut, and the streaming parser reads the same piece; or the piece is the last one
it can read, and it leaves at most a line that starts no hunk (`LeavesAtMost`).

The header of a further chunk is such a line, and no hunk reads it: a text that ends in one is refused
(`tolerates_iff`). -/

namespace OpenAgere.ApplyPatch

open List Text

/-! ### Cuts -/

/-- `Cut ls ms`: `ms` is what a prefix of a patch shows of the lines `ls`.  When all of `ls` is
in sight, a piece of the end marker may follow. -/
inductive Cut : List Str → List Str → Prop
  | done {ls : List Str} : Cut ls []
  | last {l q : Str} {ls : List Str} : q <+: l → isBlank q = false → Cut (l :: ls) [q]
  | extra {q : Str} : isBlank q = false → ¬ IsHeader q → Cut [] [q]
  | cons {l : Str} {ls ms : List Str} : Cut ls ms → Cut (l :: ls) (l :: ms)

/-- A cut inside the lines `ls`. -/
inductive CutInside : List Str → List Str → Prop
  | done {l : Str} {ls : List Str} : CutInside (l :: ls) []
  | last {l q : Str} {ls : List Str} : q <+: l → isBlank q = false → CutInside (l :: ls) [q]
  | cons {l : Str} {ls ms : List Str} : CutInside ls ms → CutInside (l :: ls) (l :: ms)

theorem Cut.append_inv : ∀ {as ls ms : List Str}, Cut (as ++ ls) ms →
    CutInside as ms ∨ ∃ ms', ms = as ++ ms' ∧ Cut ls ms'
  | [], ls, ms, h => .inr ⟨ms, rfl, h⟩
  | a :: as, ls, ms, h => by
    cases h with
    | done => exact .inl .done
    | last hp hb => exact .inl (.last hp hb)
    | @cons _ _ ms h =>
      have h : Cut (as ++ ls) ms := h
      rcases h.append_inv with h' | ⟨ms', e, h'⟩
      · exact .inl (.cons h')
      · exact .inr ⟨ms', by rw [e, cons_append], h'⟩

variable {ls : List Str} {ms : List Str}

theorem CutInside.length_le (h : CutInside ls ms) : ms.length ≤ ls.length := by
  induction h with
  | done | last => simp
  | cons _ ih => simpa using ih

theorem CutInside.forall {P : Str → Prop} (hP : ∀ {l q}, P l → q <+: l → isBlank q = false → P q) (h : CutInside ls ms) (hls : ∀ l ∈ ls, P l) : ∀ m ∈ ms, P m := by
  induction h with
  | done => simp
  | last hp hb => simpa using hP (hls _ (by simp)) hp hb
  | cons _ ih =>
    intro m hm
    rcases mem_cons.mp hm with rfl | hm
    · exact hls _ (by simp)
    · exact ih (fun l hl => hls l (by simp [hl])) m hm

variable {l m : Str}

theorem Cut.head (h : Cut (l :: ls) (m :: ms)) : m = l ∨ (m <+: l ∧ isBlank m = false ∧ ms = []) := by
  cases h with
  | last hp hb => exact .inr ⟨hp, hb, rfl⟩
  | cons _ => exact .inl rfl

theorem Cut.head_prefix_head (h : Cut (l :: ls) (m :: ms)) : m <+: l := by
  rcases h.head with rfl | ⟨hp, _, _⟩
  · exact prefix_rfl
  · exact hp

theorem Cut.head_not_blank (h : Cut (l :: ls) (m :: ms))
    (hl : isBlank l = false) : isBlank m = false := by
  rcases h.head with rfl | ⟨_, hb, _⟩
  · exact hl
  · exact hb

theorem Cut.of_nil (h : Cut [] ms) : ms = [] ∨ ∃ q, ms = [q] ∧ ¬ IsHeader q := by
  cases h with
  | done => exact .inl rfl
  | extra _ hq => exact .inr ⟨_, rfl, hq⟩

variable {q : Str}

theorem ne_nil_of_not_blank (h : isBlank q = false) : q ≠ [] := by
  rintro rfl
  cases h

theorem head_eq_of_cut (h : q <+: l) (hq : isBlank q = false) : q.head? = l.head? := by
  obtain ⟨t, rfl⟩ := h
  rw [head?_append_of_ne_nil _ (ne_nil_of_not_blank hq)]

theorem isDiff_of_cut (h : q <+: l) (hq : isBlank q = false) : isDiff q = isDiff l := by
  cases q with
  | nil => exact absurd rfl (ne_nil_of_not_blank hq)
  | cons c q =>
    obtain ⟨t, rfl⟩ := h
    rw [Bool.eq_iff_iff, cons_append, isDiff_cons, isDiff_cons]

/-! ### Lines that start no hunk -/

theorem not_isHeader_of_head {c : Char} (h : l.head? = some c) (hw : isWhitespace c = false)
    (hc : c ≠ '*') : ¬ IsHeader l := by
  obtain ⟨t, rfl⟩ := head?_eq_some_iff.mp h
  have hpre : trim (c :: t) <+: c :: t := by
    have := trim_prefix_trimStart (c :: t)
    rwa [trimStart_cons_of_not hw] at this
  have key : ∀ {m : Str}, m.head? = some '*' → ¬ m <+: trim (c :: t) := by
    intro m hm hp
    obtain ⟨s, e⟩ := hp.trans hpre
    obtain ⟨u, rfl⟩ := head?_eq_some_iff.mp hm
    exact hc (cons.inj e).1.symm
  rintro (h | h | h) <;> exact key rfl h

variable {t : Str}

/-- A prefix of a text `k ++ _` whose marker differs from those of the hunks. -/
theorem not_isHeader_of_marker {k : Str} (h : trim q <+: k ++ t) (hk : 5 ≤ k.length)
    (ha : addFileMarker.take 5 ≠ k.take 5) (hd : deleteFileMarker.take 5 ≠ k.take 5)
    (hu : updateFileMarker.take 5 ≠ k.take 5) : ¬ IsHeader q := by
  have key : ∀ {m : Str}, m.take 5 ≠ k.take 5 → 5 ≤ m.length → ¬ m <+: trim q := by
    intro m hm hl hp
    obtain ⟨s, e⟩ := hp.trans h
    exact append_ne_append hm hl hk s t e
  rintro (h' | h' | h')
  · exact key ha (by decide) h'
  · exact key hd (by decide) h'
  · exact key hu (by decide) h'

theorem trim_prefix_of_star (h : q <+: l) (hl : l.head? = some '*') : trim q <+: l := by
  have hq : trim q <+: q := by
    cases q with
    | nil => exact nil_prefix
    | cons c q =>
      obtain ⟨t, rfl⟩ := h
      obtain rfl : c = '*' := by simpa using hl
      have := trim_prefix_trimStart ('*' :: q)
      rwa [trimStart_cons_of_not (by decide)] at this
  exact hq.trans h

theorem not_isHeader_eofMarker (h : q <+: eofMarker) : ¬ IsHeader q := by
  have := trim_prefix_of_star h rfl
  rw [← append_nil eofMarker] at this
  exact not_isHeader_of_marker this (by decide) (by decide) (by decide) (by decide)

theorem not_isHeader_moveToMarker {dest : Str} (h : q <+: moveToMarker ++ dest) : ¬ IsHeader q :=
  not_isHeader_of_marker (trim_prefix_of_star h rfl) (by decide) (by decide) (by decide) (by decide)

theorem not_isHeader_endPatchMarker (h : trim q <+: endPatchMarker) : ¬ IsHeader q := by
  rw [← append_nil endPatchMarker] at h
  exact not_isHeader_of_marker h (by decide) (by decide) (by decide) (by decide)

/-- No cut of a header at the start of its line is the end-of-file marker. -/
theorem IsHeader.prefix_ne_eofMarker (hl : IsHeader l) (hs : l.head? = some '*')
    (h : q <+: l) : q ≠ eofMarker := by
  rintro rfl
  obtain ⟨t, rfl⟩ := h
  exact not_isHeader_of_marker (trim_prefix_of_star prefix_rfl hs) (by decide) (by decide) (by decide) (by decide) hl

/-! ### Chunks -/

/-- What the streaming parser may leave after the last piece it reads. -/
def LeavesAtMost (rest : List Str) : Prop := rest = [] ∨ ∃ q, rest = [q] ∧ ¬ IsHeader q

/-- No cut of the line after a chunk is the end-of-file marker. -/
def Lookahead (rest : List Str) : Prop :=
  ∀ r ∈ rest.head?, ∀ q, q <+: r → isBlank q = false → q ≠ eofMarker

variable {chunk : UpdateFileChunk}

theorem readsLines_all {ms : List Str} (hne : ms ≠ [])
    (h : ∀ m ∈ ms, isDiff m) : ∃ c, ReadsLines chunk ms c [] := by
  have := @ReadsLines.stop chunk ms [] hne h (by simp [StopsAt])
  rw [append_nil] at this
  exact ⟨_, this⟩

theorem readsLines_concat {ds : List Str} (hne : ds ≠ [])
    (h : ∀ d ∈ ds, isDiff d) {q : Str} (hq : ¬ IsHeader q) :
    ∃ c r, ReadsLines chunk (ds ++ [q]) c r ∧ LeavesAtMost r := by
  cases hd : isDiff q with
  | true =>
    obtain ⟨c, hc⟩ := @readsLines_all chunk (ds ++ [q]) (by simp) (by
      intro m hm
      rcases mem_append.mp hm with hm | hm
      · exact h m hm
      · rw [mem_singleton.mp hm]
        exact hd)
    exact ⟨c, [], hc, .inl rfl⟩
  | false =>
    by_cases he : q = eofMarker
    · subst he
      exact ⟨_, [], .eof hne h, .inl rfl⟩
    · exact ⟨_, [q], .stop hne h (by simpa [StopsAt] using ⟨he, hd⟩), .inr ⟨q, rfl, hq⟩⟩

variable {rest : List Str}

/-- What is left of the lines `ls` after a piece that leaves `rest`, on the cut `ms`: with a line
after the piece in sight, the same piece was read (`same`). -/
def PieceCut (ls rest ms post : List Str) (same : Prop) : Prop :=
  (rest ≠ [] ∧ post ≠ [] ∧ Cut rest post ∧ same ∧ ms.length + rest.length = ls.length + post.length) ∨
    ((rest = [] ∨ ms.length + rest.length ≤ ls.length) ∧ LeavesAtMost post)

/-- The same piece in a longer list of lines, of which as many are in sight. -/
theorem PieceCut.lift {ls' ms' post : List Str} {same same' : Prop} (h : PieceCut ls rest ms post same)
    (hlen : ms'.length + ls.length = ls'.length + ms.length) (hsame : same → same') :
    PieceCut ls' rest ms' post same' := by
  rcases h with ⟨h1, h2, h3, h4, h5⟩ | ⟨h1, h2⟩
  · exact .inl ⟨h1, h2, h3, hsame h4, by omega⟩
  · exact .inr ⟨h1.imp_right fun h => by omega, h2⟩

/-- The same piece was read. -/
theorem PieceCut.of_cut {post : List Str} {same : Prop} (hc : Cut rest post) (hsame : same)
    (hlen : ms.length + rest.length = ls.length + post.length) : PieceCut ls rest ms post same := by
  cases rest with
  | nil => exact .inr ⟨.inl rfl, hc.of_nil⟩
  | cons r rest =>
    cases post with
    | nil => exact .inr ⟨.inr hlen.le, .inl rfl⟩
    | cons m post => exact .inl ⟨cons_ne_nil _ _, cons_ne_nil _ _, hc, hsame, hlen⟩

theorem PieceCut.cons {ms post : List Str} {same : Prop} (h : PieceCut ls rest ms post same) :
    PieceCut (l :: ls) rest (m :: ms) post same := h.lift (by simp only [length_cons]; omega) id

variable {mid : List Str}

/-- The lines of a chunk, on a cut of them. -/
theorem readsLines_cut {c : UpdateFileChunk}
    (h : ReadsLines chunk ls c mid) (hl : Lookahead mid) (hc : Cut ls ms) :
    ms = [] ∨ ∃ c' r, ReadsLines chunk ms c' r ∧ PieceCut ls mid ms r (c' = c) := by
  by_cases hms : ms = []
  · exact .inl hms
  refine .inr ?_
  have hinside : ∀ {ds : List Str}, (∀ d ∈ ds, isDiff d = true) → CutInside ds ms → ds.length + mid.length ≤ ls.length →
      ∃ c' r, ReadsLines chunk ms c' r ∧ PieceCut ls mid ms r (c' = c) := by
    intro ds hds hin hlen
    have hall := hin.forall (P := fun d => isDiff d = true) (fun h hp hb => (isDiff_of_cut hp hb).trans h) hds
    obtain ⟨c', hc'⟩ := @readsLines_all chunk ms hms hall
    have := hin.length_le
    exact ⟨c', [], hc', .inr ⟨.inr (by omega), .inl rfl⟩⟩
  cases h with
  | @stop ds _ hne hds hs =>
    rcases hc.append_inv with hin | ⟨ms', rfl, hc'⟩
    · exact hinside hds hin (by rw [length_append])
    · by_cases hq : ∃ q, mid = [] ∧ ms' = [q] ∧ ¬ IsHeader q
      · obtain ⟨q, rfl, rfl, hq⟩ := hq
        obtain ⟨c', r, hr, hr'⟩ := @readsLines_concat chunk ds hne hds q hq
        exact ⟨c', r, hr, .inr ⟨.inl rfl, hr'⟩⟩
      · refine ⟨_, ms', .stop hne hds ?_, .of_cut hc' rfl (by simp only [length_append]; omega)⟩
        cases ms' with
        | nil => simp [StopsAt]
        | cons m ms' =>
          cases mid with
          | nil =>
            rcases hc'.of_nil with h0 | hq'
            · cases h0
            · exact absurd (hq'.imp fun _ h => ⟨rfl, h⟩) hq
          | cons r rest =>
            rintro x ⟨⟩
            rcases hc'.head with rfl | ⟨hp, hb, _⟩
            · exact hs m rfl
            · exact ⟨hl r rfl m hp hb, by rw [isDiff_of_cut hp hb]; exact (hs r rfl).2⟩
  | @eof ds _ hne hds =>
    rcases hc.append_inv with hin | ⟨ms', rfl, hc'⟩
    · exact hinside hds hin (by simp only [length_append, length_cons]; omega)
    · cases hc' with
      | done =>
        refine ⟨_, [], .stop hne hds (by simp [StopsAt]), .inr ⟨.inr ?_, .inl rfl⟩⟩
        simp only [length_append, length_cons, length_nil]
        omega
      | @last _ q _ hp hb =>
        obtain ⟨c', r, hr, hr'⟩ := @readsLines_concat chunk ds hne hds q (not_isHeader_eofMarker hp)
        refine ⟨c', r, hr, .inr ⟨.inr ?_, hr'⟩⟩
        simp only [length_append, length_cons, length_nil]
        omega
      | @cons _ _ ms' hc' =>
        refine ⟨_, ms', .eof hne hds, .of_cut hc' rfl ?_⟩
        simp only [length_append, length_cons]
        omega

variable {b : Bool}

theorem readsChunk_cut {c : UpdateFileChunk}
    (h : ReadsChunk b ls c mid) (hl : Lookahead mid) (hc : Cut ls (m :: ms)) :
    (∃ c' r, ReadsChunk b (m :: ms) c' r ∧ PieceCut ls mid (m :: ms) r (c' = c)) ∨
      (ms = [] ∧ m.head? = some '@' ∧ ∀ c' r, ¬ ReadsChunk b [m] c' r) := by
  cases h with
  | @header l ctx ls _ _ hctx h =>
    have hat := chunkHeader_head hctx
    have hno : ∀ {q : Str}, q.head? = some '@' → ∀ c' r, ¬ ReadsChunk b [q] c' r := by
      intro q hq c' r hr
      cases hr with
      | header _ hr => simpa using hr.head
      | bare _ _ hr =>
        obtain ⟨x, ⟨⟩, hd⟩ := hr.head
        rw [not_isDiff_of_head hq (by decide)] at hd
        cases hd
    cases hc with
    | last hp hb =>
      have hq := (head_eq_of_cut hp hb).trans hat
      exact .inr ⟨rfl, hq, hno hq⟩
    | cons hc =>
      rcases readsLines_cut h hl hc with rfl | ⟨c', r, hr, hpc⟩
      · exact .inr ⟨rfl, hat, hno hat⟩
      · exact .inl ⟨c', r, .header hctx hr, hpc.cons⟩
  | @bare l ls _ _ hb hn h =>
    rcases readsLines_cut h hl hc with h0 | ⟨c', r, hr, hpc⟩
    · cases h0
    · obtain ⟨x, ⟨⟩, hd⟩ := hr.head
      exact .inl ⟨c', r, .bare hb (chunkHeader_of_isDiff hd) hr, hpc⟩

/-! ### Updates -/

theorem isBlank_of_cut (h : q <+: l) (hl : isBlank l) : isBlank q := by
  rw [isBlank_iff] at hl ⊢
  exact fun c hc => hl c (h.subset hc)

variable {ln : ℕ} {inc : Bool} {cs : List UpdateFileChunk}

theorem ReadsUpdate.lookahead
    (h : ReadsUpdate false ls cs rest) (hrest : ∀ r ∈ rest.head?, IsHeader r) : Lookahead ls := by
  intro r hr q hq hb
  cases h with
  | nil => cases hr
  | blank hbl _ =>
    cases hr
    rw [isBlank_of_cut hq hbl] at hb
    cases hb
  | star _ hs =>
    cases hr
    exact (hrest _ rfl).prefix_ne_eofMarker hs hq
  | chunk _ _ hc _ =>
    cases hr
    rintro rfl
    have e := head_eq_of_cut hq hb
    cases hc with
    | header hctx _ =>
      rw [chunkHeader_head hctx] at e
      cases e
    | bare hf _ _ => cases hf

theorem LeavesAtMost.drop (h : LeavesAtMost ms) : ∀ k, LeavesAtMost (ms.drop k)
  | 0 => h
  | k + 1 => by
    rcases h with rfl | ⟨q, rfl, -⟩
    · exact .inl rfl
    · exact .inl drop_nil

theorem updateLoop_cut
    (h : ReadsUpdate b ls cs rest) (hrest : ∀ r ∈ rest.head?, IsHeader r) :
    ∀ {acc cs' : List UpdateFileChunk} {p p' : ℕ} {ms : List Str}, acc.isEmpty = b → Cut ls ms →
      updateLoop ln true (acc, p) ms = .ok (cs', p') →
      ∃ k, p' = p + k ∧ PieceCut ls rest ms (ms.drop k) (cs' = acc ++ cs) := by
  induction h with
  | nil =>
    intro acc cs' p p' ms _ hc hu
    obtain ⟨k, rfl⟩ := Nat.exists_eq_add_of_le (updateLoop_le le_rfl hu).1
    exact ⟨k, rfl, .inr ⟨.inl rfl, LeavesAtMost.drop hc.of_nil k⟩⟩
  | @blank b l ls rest cs hbl hr ih =>
    intro acc cs' p p' ms hb hc hu
    cases hc with
    | done =>
      cases hu
      have := hr.suffix.length_le
      exact ⟨0, rfl, .inr ⟨.inr (by simp; omega), .inl rfl⟩⟩
    | last hp hq =>
      rw [isBlank_of_cut hp hbl] at hq
      cases hq
    | @cons _ _ ms hc =>
      rw [updateLoop_blank hbl] at hu
      obtain ⟨k, rfl, hpc⟩ := ih hrest hb hc hu
      exact ⟨k + 1, by omega, hpc.cons⟩
  | @star b l ls hbl hs =>
    intro acc cs' p p' ms _ hc hu
    cases ms with
    | nil =>
      cases hu
      exact ⟨0, rfl, .inr ⟨.inr (by simp), .inl rfl⟩⟩
    | cons m ms =>
      have hm := hc.head_not_blank hbl
      rw [updateLoop_star hm ((head_eq_of_cut hc.head_prefix_head hm).trans hs)] at hu
      cases hu
      exact ⟨0, rfl, .of_cut hc (append_nil acc).symm (Nat.add_comm _ _)⟩
  | @chunk b l ls mid rest c cs hbl hs hch hr ih =>
    intro acc cs' p p' ms hb hc hu
    have hsuf := hr.suffix.length_le
    have hlt := hch.suffix.2
    cases ms with
    | nil =>
      cases hu
      exact ⟨0, rfl, .inr ⟨.inr (by simp only [length_nil]; omega), .inl rfl⟩⟩
    | cons m ms =>
      have hm := hc.head_not_blank hbl
      have hms : m.head? ≠ some '*' := by
        rw [head_eq_of_cut hc.head_prefix_head hm]
        exact hs
      subst hb
      rcases readsChunk_cut hch (hr.lookahead hrest) hc with ⟨c', r, hch', hpc⟩ | ⟨rfl, hat, hno⟩
      · rw [updateLoop_chunk hm hms hch'] at hu
        have hrest' : ∃ k, p' = p + ((m :: ms).length - r.length) + k ∧
            PieceCut (l :: ls) rest (m :: ms) (r.drop k) (cs' = acc ++ c :: cs) := by
          rcases hpc with ⟨hmid, hne, hc', rfl, hlen⟩ | ⟨hmid, hl⟩
          · obtain ⟨k, hp', hpc⟩ := ih hrest (isEmpty_concat acc c') hc' hu
            exact ⟨k, hp', hpc.lift hlen fun h => by rw [h]; simp⟩
          · obtain ⟨k, rfl⟩ := Nat.exists_eq_add_of_le (updateLoop_le le_rfl hu).1
            refine ⟨k, rfl, .inr ⟨?_, hl.drop k⟩⟩
            rcases hmid with rfl | hmid
            · exact .inl (suffix_nil.mp hr.suffix)
            · exact .inr (by omega)
        obtain ⟨k, rfl, hpc⟩ := hrest'
        refine ⟨(m :: ms).length - r.length + k, Nat.add_assoc .., ?_⟩
        rw [← drop_drop, ← suffix_iff_eq_drop.mp hch'.suffix.1]
        exact hpc
      · have hret : updateLoop ln true (acc, p) [m] = .ok (acc, p) := by
          rcases updateLoop_cases ln true acc p m [] with ⟨hb', _⟩ | ⟨_, _, e⟩ |
            ⟨_, _, c', rest', hc', _⟩ | ⟨_, ⟨_, e⟩ | ⟨e', e⟩⟩
          · rw [hm] at hb'
            cases hb'
          · exact e
          · exact absurd hc' (hno _ _)
          · exact e
          · rw [e] at hu
            cases hu
        rw [hret] at hu
        cases hu
        refine ⟨0, rfl, .inr ⟨.inr ?_, .inr ⟨m, rfl, not_isHeader_of_head hat (by decide) (by decide)⟩⟩⟩
        rw [length_singleton]
        omega

/-! ### Hunks -/

variable {n : ℕ} {path : Str} {move : Option Str} {h' : Hunk}

theorem parseUpdateBody_cut {p : ℕ} (hu : ReadsUpdate true ls cs rest)
    (hrest : ∀ r ∈ rest.head?, IsHeader r) (hc : Cut ls ms)
    (hp : parseUpdateBody path move ms p ln true = .ok (h', n)) :
    ∃ k, n = p + k ∧ PieceCut ls rest ms (ms.drop k) (h' = .updateFile path move cs) := by
  obtain ⟨cs', hl, _, rfl⟩ := parseUpdateBody_eq.mp hp
  obtain ⟨k, hn, hpc⟩ := updateLoop_cut hu hrest rfl hc hl
  exact ⟨k, hn, hpc.lift (Nat.add_comm _ _) fun h => by rw [h, nil_append]⟩

variable {post : List Str}

theorem plus_of_cut (hl : l.head? = some '+') (hp : q <+: l) (hb : isBlank q = false) :
    q.head? = some '+' := (head_eq_of_cut hp hb).trans hl

/-- The `+` lines of an add hunk, on a cut of them. -/
theorem addLoop_cut {ts : List Str} (hr : NoPlus rest)
    (hc : Cut (ts.map ('+' :: ·) ++ rest) ms) :
    PieceCut (ts.map ('+' :: ·) ++ rest) rest ms (ms.drop (addLoop ms).2) ((addLoop ms).1 = addedContents ts) := by
  obtain ⟨us, post, rfl, hpost⟩ := span_plus ms
  have hadd := addLoop_append hpost us
  rw [hadd, drop_left' (length_map _), ← hadd]
  rcases hc.append_inv with hin | ⟨ms', e, hc'⟩
  · have hall := hin.forall plus_of_cut (by simp)
    have hlen := hin.length_le
    refine .inr ⟨.inr (by simp only [length_append] at hlen ⊢; omega), .inl ?_⟩
    cases post with
    | nil => rfl
    | cons x post => exact absurd (hall x (by simp)) (hpost x rfl)
  · have hsplit : NoPlus ms' → us = ts ∧ post = ms' := by
      intro hms
      have hadd' := addLoop_append hms ts
      rw [e] at hadd
      have hlen := congrArg Prod.snd (hadd.symm.trans hadd')
      obtain ⟨h1, h2⟩ := append_inj e (by simpa using hlen)
      exact ⟨map_injective_iff.mpr (cons_injective) h1, h2⟩
    by_cases hms : NoPlus ms'
    · obtain ⟨rfl, rfl⟩ := hsplit hms
      exact .of_cut hc' (by rw [hadd]) (by simp only [length_append]; omega)
    · cases rest with
      | nil =>
        refine .inr ⟨.inl rfl, .inl ?_⟩
        obtain rfl | ⟨q, rfl, hq⟩ := hc'.of_nil
        · exact absurd (by simp [NoPlus]) hms
        · cases post with
          | nil => rfl
          | cons x post =>
            exfalso
            have hx : x ∈ ts.map ('+' :: ·) ++ [q] := by rw [← e]; simp
            rcases mem_append.mp hx with hx | hx
            · obtain ⟨t, _, rfl⟩ := mem_map.mp hx
              exact hpost _ rfl rfl
            · rw [mem_singleton.mp hx] at hpost
              exact hms (by simpa [NoPlus] using hpost)
      | cons r rest =>
        refine absurd (fun y hy => ?_) hms
        obtain ⟨ms', rfl⟩ := head?_eq_some_iff.mp hy
        rcases hc'.head with rfl | ⟨hp, hb, _⟩
        · exact hr y rfl
        · rw [head_eq_of_cut hp hb]
          exact hr r rfl

variable {h : Hunk}

theorem parseOneHunk_cut (hr : ReadsHunk (l :: ls) h rest) (hrest : ∀ r ∈ rest.head?, IsHeader r)
    (hc : Cut (l :: ls) (m :: ms)) (hp : parseOneHunk m ms ln true = .ok (h', n)) :
    PieceCut (l :: ls) rest (m :: ms) ((m :: ms).drop n) (h' = h) := by
  have hlt := hr.suffix.2
  cases ms with
  | nil =>
    have hb := parseOneHunk_bounds hp
    simp only [length_cons, length_nil] at hb hlt
    obtain rfl : n = 1 := by omega
    refine .inr ⟨.inr ?_, .inl rfl⟩
    simp only [length_cons, length_nil]
    omega
  | cons x ms =>
    cases hc with
    | cons hc =>
      cases hr with
      | @add _ path ts _ e hnp =>
        rw [parseOneHunk_add _ ln true e] at hp
        cases hp
        exact (addLoop_cut hnp hc).lift (by simp only [length_cons]; omega) fun h => by rw [h]
      | delete e =>
        rw [parseOneHunk_delete _ ln true e] at hp
        cases hp
        exact .of_cut hc rfl (by simp only [length_cons, drop_succ_cons, drop_zero]; omega)
      | @update _ path _ _ cs e hm hu hne =>
        have hm' : ∀ y ∈ (x :: ms).head?, ¬ moveToMarker <+: y := by
          rintro y ⟨⟩ hpre
          cases ls with
          | nil =>
            rcases hc.of_nil with h0 | ⟨q, hq, hnq⟩
            · cases h0
            · cases hu
              exact hne rfl
          | cons l' ls => exact hm l' rfl (hpre.trans hc.head_prefix_head)
        rw [parseOneHunk_update _ ln true e hm'] at hp
        obtain ⟨k, rfl, hpc⟩ := parseUpdateBody_cut hu hrest hc hp
        rw [Nat.add_comm]
        exact hpc.cons
      | @move _ path dest ls _ cs e hu hne =>
        cases hc with
        | last hpre hb =>
          have hbd := parseOneHunk_bounds hp
          have hl : LeavesAtMost [x] := .inr ⟨x, rfl, not_isHeader_moveToMarker hpre⟩
          obtain ⟨k, rfl⟩ := Nat.exists_eq_add_of_le hbd.1
          have hsuf := hu.suffix.length_le
          rw [Nat.add_comm]
          refine .inr ⟨.inr ?_, hl.drop k⟩
          simp only [length_cons, length_nil]
          omega
        | cons hc =>
          rw [parseOneHunk_move _ ln true e] at hp
          obtain ⟨k, rfl, hpc⟩ := parseUpdateBody_cut hu hrest hc hp
          rw [Nat.add_comm]
          exact hpc.cons.cons

/-! ### All hunks -/

variable {hs : List Hunk}

theorem ReadsHunks.isHeader (h : ReadsHunks ls hs) : ∀ r ∈ ls.head?, IsHeader r := by
  cases h with
  | nil => simp
  | cons hr _ =>
    rintro r ⟨⟩
    exact hr.isHeader

variable {ln' : ℕ}

/-- The loop over the hunks ends after the last piece, or fails. -/
theorem parseHunks_leaves {acc : List Hunk} (hl : LeavesAtMost post)
    (h : parseHunks true (acc, ln) post = .ok (hs, ln')) : hs = acc := by
  rcases hl with rfl | ⟨q, rfl, hq⟩
  · cases h
    rfl
  · obtain ⟨e, he⟩ := parseOneHunk_not_header [] ln true hq
    rw [parseHunks_cons, he] at h
    cases h

/-- The first hunk on a cut: the next one starts in sight, or this one is the last. -/
theorem parseHunks_cut {acc : List Hunk}
    (hr : ReadsHunk (l :: ls) h rest) (hrest : ∀ r ∈ rest.head?, IsHeader r)
    (hc : Cut (l :: ls) (m :: ms)) (hp : parseHunks true (acc, ln) (m :: ms) = .ok (hs, ln')) :
    ∃ post h' k, post <:+ m :: ms ∧ PieceCut (l :: ls) rest (m :: ms) post (h' = h) ∧
      parseHunks true (acc ++ [h'], k) post = .ok (hs, ln') := by
  rw [parseHunks_cons] at hp
  cases ho : parseOneHunk m ms ln true with
  | error e =>
    rw [ho] at hp
    cases hp
  | ok r =>
    obtain ⟨h', n⟩ := r
    simp only [ho] at hp
    exact ⟨_, h', _, drop_suffix n _, parseOneHunk_cut hr hrest hc ho, hp⟩

theorem parseHunks_cut_nil {acc : List Hunk} (hc : Cut [] ms)
    (hp : parseHunks true (acc, ln) ms = .ok (hs, ln')) : hs = acc := parseHunks_leaves hc.of_nil hp

/-- Every hunk but the last is that of the whole patch. -/
theorem parseHunks_of_cut {H : List Hunk} (h : ReadsHunks ls H) :
    ∀ {acc hs : List Hunk} {ln ln' : ℕ} {ms : List Str}, Cut ls ms →
      parseHunks true (acc, ln) ms = .ok (hs, ln') →
      ∃ hs', hs = acc ++ hs' ∧ hs'.length ≤ H.length ∧ hs'.dropLast <+: H ∧
        (ls ≠ [] → ms ≠ [] → hs' ≠ []) := by
  induction h with
  | nil =>
    intro acc hs ln ln' ms hc hp
    exact ⟨[], by rw [parseHunks_cut_nil hc hp, append_nil], by simp, by simp, by simp⟩
  | @cons l ls rest h H hr hrest ih =>
    intro acc hs ln ln' ms hc hp
    cases ms with
    | nil =>
      cases hp
      exact ⟨[], by simp, by simp, by simp, by simp⟩
    | cons m ms =>
      obtain ⟨post, h', k, -, ⟨_, _, hc', rfl, _⟩ | ⟨_, hleft⟩, hp'⟩ := parseHunks_cut hr hrest.isHeader hc hp
      · obtain ⟨hs', rfl, hlen, hpre, _⟩ := ih hc' hp'
        refine ⟨h' :: hs', by simp, by simpa using hlen, ?_, by simp⟩
        cases hs' with
        | nil => simp
        | cons x hs' =>
          rw [dropLast_cons_cons]
          exact cons_prefix_cons.mpr ⟨rfl, hpre⟩
      · exact ⟨[h'], parseHunks_leaves hleft hp', by simp, by simp, by simp⟩

theorem suffix_concat_inj {α : Type} {as bs cs : List α} {q : α} (h₁ : as <:+ cs ++ [q])
    (h₂ : bs <:+ cs) (hlen : as.length = bs.length + 1) : as = bs ++ [q] := by
  obtain ⟨t, rfl⟩ := h₂
  exact suffix_unique h₁ ⟨t, by simp⟩ (by simp [hlen])

/-- More lines give at least as many hunks.  A last line that starts no hunk makes no
difference. -/
theorem parseHunks_length_le {H : List Hunk} (h : ReadsHunks ls H) :
    ∀ {acc₁ acc₂ hs₁ hs₂ : List Hunk} {i₁ i₂ j₁ j₂ : ℕ} {ms₁ ms₂ : List Str}, Cut ls ms₁ → Cut ls ms₂ →
      (ms₁.length ≤ ms₂.length ∨ ∃ q, ms₁ = ms₂ ++ [q] ∧ ¬ IsHeader q) →
      parseHunks true (acc₁, i₁) ms₁ = .ok (hs₁, j₁) → parseHunks true (acc₂, i₂) ms₂ = .ok (hs₂, j₂) →
      hs₁.length + acc₂.length ≤ hs₂.length + acc₁.length := by
  induction h with
  | nil =>
    intro acc₁ acc₂ hs₁ hs₂ i₁ i₂ j₁ j₂ ms₁ ms₂ hc₁ hc₂ _ hp₁ hp₂
    rw [parseHunks_cut_nil hc₁ hp₁, parseHunks_cut_nil hc₂ hp₂]
    omega
  | @cons l ls rest h H hr hrest ih =>
    intro acc₁ acc₂ hs₁ hs₂ i₁ i₂ j₁ j₂ ms₁ ms₂ hc₁ hc₂ hle hp₁ hp₂
    obtain ⟨hs', rfl, _, _, hpos⟩ := parseHunks_of_cut (.cons hr hrest) hc₂ hp₂
    cases ms₁ with
    | nil =>
      cases hp₁
      simp only [length_append]
      omega
    | cons m₁ ms₁ =>
      cases ms₂ with
      | nil =>
        rcases hle with hle | ⟨q, e, hq⟩
        · simp at hle
        · rw [nil_append] at e
          rw [parseHunks_leaves (.inr ⟨q, e, hq⟩) hp₁]
          simp only [length_append]
          omega
      | cons m₂ ms₂ =>
        have hpos := length_pos_iff.mpr (hpos (by simp) (by simp))
        obtain ⟨post₁, h₁, k₁, hsuf₁, ⟨hne, hpost, hcut₁, rfl, hlen₁⟩ | ⟨_, hleft⟩, hp₁'⟩ :=
          parseHunks_cut hr hrest.isHeader hc₁ hp₁
        · have hpost := length_pos_iff.mpr hpost
          obtain ⟨post₂, h₂, k₂, hsuf₂, ⟨_, _, hcut₂, rfl, hlen₂⟩ | ⟨hB, _⟩, hp₂'⟩ :=
            parseHunks_cut hr hrest.isHeader hc₂ hp₂
          · have hle' : post₁.length ≤ post₂.length ∨ ∃ q, post₁ = post₂ ++ [q] ∧ ¬ IsHeader q := by
              rcases hle with hle | ⟨q, e, hq⟩
              · exact .inl (by omega)
              · have hlen := congrArg length e
                simp only [length_append, length_singleton] at hlen
                rw [e] at hsuf₁
                exact .inr ⟨q, suffix_concat_inj hsuf₁ hsuf₂ (by omega), hq⟩
            have := ih hcut₁ hcut₂ hle' hp₁' hp₂'
            simp only [length_append, length_singleton] at this ⊢
            omega
          · rcases hle with hle | ⟨q, e, hq⟩
            · exfalso
              rcases hB with hB | hB
              · exact hne hB
              · omega
            · have hone : LeavesAtMost post₁ := by
                have hlen := congrArg length e
                simp only [length_append, length_singleton] at hlen
                have h1 : post₁.length = 1 := by
                  rcases hB with hB | hB
                  · exact absurd hB hne
                  · omega
                rw [e] at hsuf₁
                exact .inr ⟨q, suffix_concat_inj hsuf₁ nil_suffix (by simpa using h1), hq⟩
              rw [parseHunks_leaves hone hp₁']
              simp only [length_append, length_singleton]
              omega
        · rw [parseHunks_leaves hleft hp₁']
          simp only [length_append, length_singleton]
          omega

/-! ### Prefixes of a patch -/

/-- The lines that the streaming parser reads hunks from. -/
def streamedLines (ls : List Str) : List Str :=
  if ls.getLast?.map trim = some endPatchMarker then ls.tail.dropLast else ls.tail

theorem streamedLines_singleton (l : Str) : streamedLines [l] = [] := by simp [streamedLines]

theorem streamedLines_concat (f : Str) (mid : List Str) (l : Str) : streamedLines (f :: (mid ++ [l])) =
    if trim l = endPatchMarker then mid else mid ++ [l] := by
  simp [streamedLines, getLast?_cons]

theorem checkPatchBoundariesStreaming_iff {r : List Str × List Str} : checkPatchBoundariesStreaming ls = .ok r ↔
      ∃ f rest, ls = f :: rest ∧ trim f = beginPatchMarker ∧ r = (ls, streamedLines ls) := by
  cases ls with
  | nil =>
    constructor
    · intro h
      cases h
    · rintro ⟨f, rest, e, _⟩
      cases e
  | cons f rest =>
    by_cases hf : trim f = beginPatchMarker
    · have e : checkPatchBoundariesStreaming (f :: rest) = .ok (f :: rest, streamedLines (f :: rest)) := by
        simp only [checkPatchBoundariesStreaming, if_pos hf, streamedLines, tail_cons]
        split_ifs <;> rfl
      rw [e]
      constructor
      · rintro ⟨⟩
        exact ⟨f, rest, rfl, hf, rfl⟩
      · rintro ⟨_, _, _, _, rfl⟩
        rfl
    · simp only [checkPatchBoundariesStreaming, if_neg hf]
      constructor
      · intro h
        obtain ⟨body, ⟨f', e', hls, hf', _⟩, _⟩ := checkPatchBoundariesStrict_iff.mp h
        obtain ⟨rfl, _⟩ := cons.inj hls
        exact absurd hf' hf
      · rintro ⟨f', rest', e, hf', _⟩
        obtain ⟨rfl, rfl⟩ := cons.inj e
        exact absurd hf' hf

theorem parsePatchStreaming_iff {p : Str} {s : ApplyPatchArgs} : parsePatchStreaming p = .ok s ↔
    ∃ f rest hs k, lines (trim p) = f :: rest ∧ trim f = beginPatchMarker ∧
      parseHunks true ([], 2) (streamedLines (lines (trim p))) = .ok (hs, k) ∧
      s = ⟨joinLines (lines (trim p)), hs, none⟩ := by
  unfold parsePatchStreaming
  rw [parsePatchText_ok]
  constructor
  · rintro ⟨r, ⟨hs, k⟩, hb, hh, ha⟩
    obtain ⟨f, rest, hls, hf, rfl⟩ := checkPatchBoundariesStreaming_iff.mp hb
    exact ⟨f, rest, hs, k, hls, hf, hh, ha⟩
  · rintro ⟨f, rest, hs, k, hls, hf, hh, ha⟩
    exact ⟨_, (hs, k), checkPatchBoundariesStreaming_iff.mpr ⟨f, rest, hls, hf, rfl⟩, hh, ha⟩

theorem cut_take : ∀ (ls : List Str) (j : ℕ), Cut ls (ls.take j)
  | [], j => by
    rw [take_nil]
    exact .done
  | l :: ls, 0 => .done
  | l :: ls, j + 1 => .cons (cut_take ls j)

theorem cut_take_concat : ∀ {ls : List Str} {j : ℕ} {l q : Str}, ls[j]? = some l → q <+: l →
    isBlank q = false → Cut ls (ls.take j ++ [q])
  | [], j, l, q, h, _, _ => by simp at h
  | l :: ls, 0, l', q, h, hp, hb => by
    obtain rfl : l = l' := by simpa using h
    exact .last hp hb
  | l :: ls, j + 1, l', q, h, hp, hb => by
    rw [getElem?_cons_succ] at h
    exact .cons (cut_take_concat h hp hb)

theorem cut_concat (hb : isBlank q = false) (hq : ¬ IsHeader q) :
    ∀ ls : List Str, Cut ls (ls ++ [q])
  | [] => .extra hb hq
  | _ :: ls => .cons (cut_concat hb hq ls)

theorem isBlank_concat {w : Str} {c : Char} (hc : isWhitespace c = false) : isBlank (w ++ [c]) = false := by
  rw [← Bool.not_eq_true, isBlank_iff]
  intro h
  rw [h c (by simp)] at hc
  cases hc

theorem not_isHeader_of_prefix_end (h : q <+: l) (hq : isBlank q = false)
    (hl : trim l = endPatchMarker) : ¬ IsHeader q := by
  have hne : trim q ≠ [] := by
    intro e
    simp [isBlank, e] at hq
  have := trim_prefix_trim h hne
  rw [hl] at this
  exact not_isHeader_endPatchMarker this

/-- What the streaming parser reads of a prefix is a cut of the lines of the patch. -/
theorem cut_streamedLines {p : Str} {body : List Str} (hf : Framed (lines (trim t)) body)
    (hp : p <+: t) : Cut body (streamedLines (lines (trim p))) := by
  rcases lines_trim_of_prefix_text hp with e | ⟨k, w, c, l, hls, hl, hq, hc⟩
  · rw [e]
    exact .done
  · obtain ⟨f, e, ht, hf, he⟩ := hf
    have hb : isBlank (w ++ [c]) = false := isBlank_concat hc
    rw [ht] at hls hl
    rw [hls]
    cases k with
    | zero =>
      rw [take_zero, nil_append, streamedLines_singleton]
      exact .done
    | succ j =>
      rw [getElem?_cons_succ] at hl
      have hj : j ≤ body.length := by
        have := (List.getElem?_eq_some_iff.mp hl).1
        simp only [length_append, length_singleton] at this
        omega
      rw [take_succ_cons, take_append_of_le_length hj, cons_append,
        streamedLines_concat]
      split_ifs with hend
      · exact cut_take body j
      · rcases Nat.lt_or_ge j body.length with hlt | hge
        · rw [getElem?_append_left hlt] at hl
          exact cut_take_concat hl hq hb
        · obtain rfl : j = body.length := by omega
          obtain rfl : e = l := by simpa using hl
          rw [take_length]
          exact cut_concat hb (not_isHeader_of_prefix_end hq hb he) body

/-- A longer prefix has at least as many lines, up to a last line that starts no hunk. -/
theorem streamedLines_length_le {p₁ p₂ f : Str} (hp : p₁ <+: p₂) (hf : lines (trim p₂) = f :: ls) :
    (streamedLines (lines (trim p₁))).length ≤ (streamedLines (lines (trim p₂))).length ∨
      ∃ q, streamedLines (lines (trim p₁)) = streamedLines (lines (trim p₂)) ++ [q] ∧ ¬ IsHeader q := by
  rcases lines_trim_of_prefix_text hp with e | ⟨k, w, c, l, hls, hl, hq, hc⟩
  · rw [e]
    exact Or.inl (Nat.zero_le _)
  · have hb : isBlank (w ++ [c]) = false := isBlank_concat hc
    generalize w ++ [c] = q at hls hq hb
    rw [hf] at hls hl ⊢
    rw [hls]
    cases k with
    | zero =>
      rw [take_zero, nil_append, streamedLines_singleton]
      exact Or.inl (Nat.zero_le _)
    | succ j =>
      rw [getElem?_cons_succ] at hl
      rw [take_succ_cons, cons_append, streamedLines_concat]
      rcases eq_nil_or_concat' ls with rfl | ⟨mid, last, rfl⟩
      · simp at hl
      · have hj := (List.getElem?_eq_some_iff.mp hl).1
        simp only [length_append, length_singleton] at hj
        rw [take_append_of_le_length (by omega), streamedLines_concat]
        rcases Nat.lt_or_ge j mid.length with hlt | hge
        · left
          split_ifs <;> simp only [length_append, length_take, length_singleton] <;> omega
        · obtain rfl : j = mid.length := by omega
          obtain rfl : last = l := by simpa using hl
          rw [take_length]
          by_cases h2 : trim last = endPatchMarker
          · rw [if_pos h2]
            split_ifs
            · exact Or.inl le_rfl
            · exact Or.inr ⟨q, rfl, not_isHeader_of_prefix_end hq hb h2⟩
          · rw [if_neg h2]
            left
            split_ifs <;> simp

/-- **Streaming agrees with the strict parser.**  On every prefix it returns at most the hunks of
the whole patch, all but the last one final; a longer prefix never has fewer; and the whole text
gives the strict result. -/
theorem parsePatchStreaming_agrees {t : Str} {args : ApplyPatchArgs}
    (h : parsePatchText t .strict = .ok args) :
    (∀ p s, p <+: t → parsePatchStreaming p = .ok s →
        s.hunks.length ≤ args.hunks.length ∧ s.hunks.dropLast <+: args.hunks) ∧
      (∀ p₁ p₂ s₁ s₂, p₁ <+: p₂ → p₂ <+: t → parsePatchStreaming p₁ = .ok s₁ →
        parsePatchStreaming p₂ = .ok s₂ → s₁.hunks.length ≤ s₂.hunks.length) ∧
      parsePatchStreaming t = .ok args := by
  obtain ⟨body, H, hf, hread, rfl⟩ := parsePatchText_strict_iff.mp h
  refine ⟨fun p s hp hs => ?_, fun p₁ p₂ s₁ s₂ h12 h2t hs₁ hs₂ => ?_, ?_⟩
  · obtain ⟨f, rest, hs, k, _, _, hh, rfl⟩ := parsePatchStreaming_iff.mp hs
    obtain ⟨hs', rfl, hlen, hpre, _⟩ := parseHunks_of_cut hread (cut_streamedLines hf hp) hh
    exact ⟨hlen, hpre⟩
  · obtain ⟨_, _, _, k₁, _, _, hh₁, rfl⟩ := parsePatchStreaming_iff.mp hs₁
    obtain ⟨f, rest, _, k₂, hls, _, hh₂, rfl⟩ := parsePatchStreaming_iff.mp hs₂
    exact parseHunks_length_le hread (cut_streamedLines hf (h12.trans h2t)) (cut_streamedLines hf h2t)
      (streamedLines_length_le h12 hls) hh₁ hh₂
  · obtain ⟨k, hk⟩ := @parseHunks_reads body true H hread [] 2
    obtain ⟨f, e, hls, hb, he⟩ := hf
    rw [parsePatchStreaming_iff]
    refine ⟨f, body ++ [e], H, k, hls, hb, ?_, rfl⟩
    rw [hls, streamedLines_concat, if_pos he]
    exact hk

/-- A patch with two hunks, cut inside the path of the second one. -/
theorem parsePatchStreaming_agrees_twoHunks :
    let t : Str := "*** Begin Patch\n*** Add File: a\n+x\n*** Delete File: bc\n*** End Patch"
    let p : Str := "*** Begin Patch\n*** Add File: a\n+x\n*** Delete File: b"
    let hunks : List Hunk := [.addFile "a" "x\n", .deleteFile "bc"]
    let seen : List Hunk := [.addFile "a" "x\n", .deleteFile "b"]
    parsePatchText t .strict = .ok ⟨t, hunks, none⟩ ∧ parsePatchStreaming p = .ok ⟨p, seen, none⟩ ∧
      seen.length ≤ hunks.length ∧ seen.dropLast <+: hunks ∧
      parsePatchStreaming t = .ok ⟨t, hunks, none⟩ := by
  intro t p hunks seen
  have ht : parsePatchText t .strict = .ok ⟨t, hunks, none⟩ := by decide +kernel
  have hs : parsePatchStreaming p = .ok ⟨p, seen, none⟩ := by decide +kernel
  obtain ⟨hpre, _, hall⟩ := parsePatchStreaming_agrees ht
  obtain ⟨hlen, hdrop⟩ := hpre p ⟨p, seen, none⟩ (by decide +kernel) hs
  exact ⟨ht, hs, hlen, hdrop, hall⟩

/-! ### Incomplete chunks -/

/-- No hunk reads a last line that starts a chunk, and by itself it is none. -/
theorem parseHunks_openChunk : ∀ {n : ℕ} {ls : List Str} {hs : List Hunk} {ln : ℕ}, ls.length ≤ n → OpenChunk ls →
    ∃ e, parseHunks true (hs, ln) ls = .error e
  | _, [], _, _, _, ⟨_, hm, _⟩ => by cases hm
  | 0, l :: ls, _, _, hn, _ => by simp at hn
  | n + 1, l :: ls, hs, ln, hn, ho => by
    rw [parseHunks_cons]
    cases hp : parseOneHunk l ls ln true with
    | error e => exact ⟨e, rfl⟩
    | ok r =>
      obtain ⟨h, k⟩ := r
      obtain ⟨hpos, _, hlt⟩ := parseOneHunk_bounds hp
      obtain ⟨_, hat⟩ | ho' := ho.cons
      · obtain ⟨e, he⟩ := parseOneHunk_not_header ls ln true (not_isHeader_of_head hat (by decide) (by decide))
        rw [he] at hp
        cases hp
      · have := hlt ho'
        refine parseHunks_openChunk (n := n) ?_ (ho.of_suffix (drop_suffix _ _) ?_)
        · simp only [length_drop, length_cons] at hn ⊢
          omega
        · rw [ne_eq, drop_eq_nil_iff]
          omega

theorem trim_ne_of_at {x m : Str} (hm : m.head? = some '*') : trim ('@' :: x) ≠ m := by
  rintro rfl
  obtain ⟨r, hr⟩ := head?_eq_some_iff.mp hm
  have hpre := trim_prefix_trimStart ('@' :: x)
  rw [hr, trimStart_cons_of_not (by decide), cons_prefix_cons] at hpre
  exact absurd hpre.1 (by decide)

theorem openChunk_streamedLines {t u f : Str} {rest : List Str} (ht : trim t ≠ []) (hu : '\n' ∉ u)
    (hls : lines (trim (t ++ '\n' :: '@' :: u)) = f :: rest) (hf : trim f = beginPatchMarker) :
    OpenChunk (streamedLines (lines (trim (t ++ '\n' :: '@' :: u)))) := by
  have hstart := trimStart_append ht ('\n' :: '@' :: u)
  -- trimming cuts the text within its last line
  obtain ⟨x, hx⟩ : trimStart t ++ ['\n'] ++ ['@'] <+: trim (t ++ '\n' :: '@' :: u) :=
    prefix_trimEnd (by decide) (hstart ▸ ⟨u, by simp⟩)
  have hpre := trim_prefix_trimStart (t ++ '\n' :: '@' :: u)
  simp only [append_assoc, cons_append, nil_append] at hx
  rw [hstart, ← hx, prefix_append_right_inj, cons_prefix_cons] at hpre
  have hno : '\n' ∉ '@' :: x := fun hm => absurd (hpre.2.subset hm) (by simp [hu])
  obtain ⟨ls, hlast⟩ := lines_append_line hno (by simp) (le_refl (trimStart t).length)
  rw [hx] at hlast
  cases ls with
  | nil =>
    rw [hls, nil_append] at hlast
    rw [(List.cons.inj hlast).1] at hf
    exact absurd hf (trim_ne_of_at rfl)
  | cons g ls =>
    rw [hlast, cons_append, streamedLines_concat, if_neg (trim_ne_of_at rfl)]
    exact ⟨'@' :: x, getLast?_concat, rfl⟩

/-- The header of a chunk without a change line. -/
def IncompleteHeader (h : Str) : Prop :=
  h = "@" ∨ h = emptyChangeContextMarker ∨ ∃ ctx, '\n' ∉ ctx ∧ h = changeContextMarker ++ ctx

/-- The last hunk is an update with a chunk. -/
def EndsInUpdate (hunks : List Hunk) : Prop :=
  ∃ hs path move cs, hunks = hs ++ [.updateFile path move cs] ∧ cs ≠ []

/-- The streaming parser reads the same hunks when an incomplete chunk follows. -/
def Tolerates (t h : Str) : Prop := ∀ s, parsePatchStreaming t = .ok s → EndsInUpdate s.hunks → IncompleteHeader h →
  ∃ s', parsePatchStreaming (t ++ '\n' :: h) = .ok s' ∧ s'.hunks = s.hunks

/-- **Incomplete chunks are never tolerated**: the text is refused whenever it is one that ends in an update. -/
theorem tolerates_iff (t h : Str) : Tolerates t h ↔
    ¬ (IncompleteHeader h ∧ ∃ s, parsePatchStreaming t = .ok s ∧ EndsInUpdate s.hunks) := by
  constructor
  · rintro htol ⟨hh, s, hs, hend⟩
    obtain ⟨s', hs', _⟩ := htol s hs hend hh
    obtain ⟨g, rs, _, _, hlines, _, _, _⟩ := parsePatchStreaming_iff.mp hs
    have ht : trim t ≠ [] := fun e => by simp [e, lines] at hlines
    obtain ⟨u, rfl, hu⟩ : ∃ u, h = '@' :: u ∧ '\n' ∉ u := by
      rcases hh with rfl | rfl | ⟨ctx, hctx, rfl⟩
      · exact ⟨_, rfl, by decide⟩
      · exact ⟨_, rfl, by decide⟩
      · exact ⟨"@ " ++ ctx, rfl, by simpa using hctx⟩
    obtain ⟨f, rest, hs, k, hls, hf, hp, _⟩ := parsePatchStreaming_iff.mp hs'
    obtain ⟨e, he⟩ := @parseHunks_openChunk _ _ [] 2 le_rfl (openChunk_streamedLines ht hu hls hf)
    rw [he] at hp
    cases hp
  · exact fun hnot s hs hend hh => absurd ⟨hh, s, hs, hend⟩ hnot

/-- An update with one chunk, and the header of a second one. -/
theorem not_tolerates_secondChunk :
    ¬ Tolerates "*** Begin Patch\n*** Update File: a\n@@\n+x" emptyChangeContextMarker := by
  intro htol
  have hs : parsePatchStreaming "*** Begin Patch\n*** Update File: a\n@@\n+x" =
      .ok ⟨"*** Begin Patch\n*** Update File: a\n@@\n+x",
        [.updateFile ['a'] none [⟨none, [], [['x']], false⟩]], none⟩ := by decide +kernel
  have hrefused : (parsePatchStreaming ("*** Begin Patch\n*** Update File: a\n@@\n+x" ++
      '\n' :: emptyChangeContextMarker)).isOk = false := by decide +kernel
  obtain ⟨s', hs', _⟩ := htol _ hs ⟨[], _, _, _, rfl, by simp⟩ (.inr (.inl rfl))
  rw [hs'] at hrefused
  cases hrefused

end OpenAgere.ApplyPatch
