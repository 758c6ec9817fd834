import OpenAgere.ProcessLifecycle

/-! # Reading the output of a process

A client that pages through the output of a process with `exec_read` gets every chunk once and in order,
except those evicted before the call that passed them (`paged_of_run`).

`exec_read` looks at the process under the lock and creates its `notified` future after releasing it.  A task
that publishes an event and calls `notify_waiters` in between leaves it asleep; in all other runs no wake-up
is lost (`awake_throughout_iff`). -/

namespace OpenAgere.Exec

open List Option ExecProcessEvent Transition Retention

/-! ### The loop over the retained chunks -/

/-- The loop takes a prefix of the chunks, at least one where there is one, and its next sequence number is
the one after the last chunk taken. -/
theorem readLoop_eq (maxBytes : ℕ) : ∀ (rest chunks : List ProcessOutputChunk) (totalBytes nextSeq : ℕ),
    ∃ pre, pre <+: rest ∧ (chunks = [] → rest ≠ [] → pre ≠ []) ∧
      (totalBytes + total chunkLen rest < maxBytes → pre = rest) ∧
      readLoop maxBytes rest chunks totalBytes nextSeq =
        (chunks ++ pre, (pre.getLast?.map fun chunk => chunk.seq + 1).getD nextSeq)
  | [], chunks, _, nextSeq =>
    ⟨[], prefix_rfl, fun _ h => absurd rfl h, fun _ => rfl, by rw [readLoop, append_nil]; rfl⟩
  | retained :: rest, chunks, totalBytes, nextSeq => by
    rw [readLoop, total_cons]
    split
    · next hcut =>
        refine ⟨[], nil_prefix, fun hchunks => ?_, fun hfits => ?_, by rw [append_nil]; rfl⟩
        · rw [hchunks] at hcut
          exact nomatch hcut
        · exact absurd (of_decide_eq_true ((Bool.and_eq_true _ _).mp hcut).2) (by omega)
    · split
      · exact ⟨[retained], prefix_append [retained] rest, fun _ _ => cons_ne_nil _ _, fun hfits => by omega, rfl⟩
      · obtain ⟨pre, hpre, _, huncut, heq⟩ := readLoop_eq maxBytes rest (chunks ++ [retained])
          (totalBytes + chunkLen retained) (retained.seq + 1)
        refine ⟨retained :: pre, cons_prefix_cons.mpr ⟨rfl, hpre⟩, fun _ _ => cons_ne_nil _ _, fun hfits => ?_, ?_⟩
        · rw [huncut (by omega)]
        · rw [heq, append_assoc, singleton_append]
          cases pre with
          | nil => rfl
          | cons chunk pre =>
            rw [getLast?_cons_cons, getLast?_eq_some_getLast (cons_ne_nil chunk pre)]
            rfl

/-! ### The numbers of the chunks -/

section Numbers

variable {events : List ExecProcessEvent}

theorem sublist_outputs : ∀ events : List ExecProcessEvent,
    ((outputs events).map ProcessOutputChunk.seq).Sublist (events.filterMap seq)
  | [] => List.Sublist.refl _
  | .output chunk :: events => (sublist_outputs events).cons_cons chunk.seq
  | .exited seq _ :: events => (sublist_outputs events).cons seq
  | .closed seq :: events => (sublist_outputs events).cons seq
  | .failed _ :: events => sublist_outputs events

theorem Numbered.sublist_range (h : Numbered events) :
    ((outputs events).map ProcessOutputChunk.seq).Sublist (range' 1 events.length) := by
  have hseq : events.filterMap seq = range' 1 events.length := by
    have heq : events.filterMap seq = (events.map seq).filterMap id := by
      rw [filterMap_map]
      rfl
    rw [heq, h, filterMap_map]
    exact filterMap_some
  rw [← hseq]
  exact sublist_outputs events

theorem Numbered.pairwise (h : Numbered events) :
    (outputs events).Pairwise fun a b => a.seq < b.seq := by
  rw [← pairwise_map (f := ProcessOutputChunk.seq) (R := (· < ·))]
  exact (pairwise_lt_range' 1 (by decide)).sublist h.sublist_range

variable {chunk : ProcessOutputChunk}

theorem Numbered.seq_pos (h : Numbered events) (hc : chunk ∈ outputs events) :
    0 < chunk.seq ∧ chunk.seq ≤ events.length := by
  have := mem_range'_1.mp (h.sublist_range.subset (mem_map_of_mem hc))
  omega

theorem mem_outputs (h : chunk ∈ outputs events) : .output chunk ∈ events := by
  obtain ⟨event, hmem, hchunk⟩ := mem_filterMap.mp h
  cases event with
  | output other =>
    obtain rfl := some.inj hchunk
    exact hmem
  | _ => exact nomatch hchunk

theorem Numbered.outputs_drop (h : Numbered events) (n : ℕ) :
    (outputs events).filter (fun chunk => n < chunk.seq) = outputs (events.drop n) := by
  have hsplit : outputs events = outputs (events.take n) ++ outputs (events.drop n) := by
    rw [outputs, outputs, outputs, ← filterMap_append, take_append_drop]
  rw [hsplit, filter_append, filter_eq_nil_iff.mpr, filter_eq_self.mpr, nil_append]
  · intro chunk hc
    obtain ⟨i, hi⟩ := mem_iff_getElem?.mp (mem_outputs hc)
    rw [getElem?_drop] at hi
    have := some.inj (h.seq_eq hi)
    exact decide_eq_true (by omega)
  · intro chunk hc hlt
    obtain ⟨i, hi⟩ := mem_iff_getElem?.mp (mem_outputs hc)
    have hi' := (List.getElem?_eq_some_iff.mp hi).1
    rw [length_take] at hi'
    rw [getElem?_take_of_lt (by omega)] at hi
    have := some.inj (h.seq_eq hi)
    have := of_decide_eq_true hlt
    omega

end Numbers

/-! ### Pages -/

namespace Page

/-- The chunks that were retained and not seen yet. -/
def unread (page : Page) : List ProcessOutputChunk := page.retained.filter fun chunk => page.params.after < chunk.seq

/-- The client's position passes the number with this page. -/
def Passes (page : Page) (seq : ℕ) : Prop := page.params.after < seq ∧ seq < page.response.nextSeq

/-- The chunks of the response were not cut by `max_bytes`. -/
def Uncut (page : Page) : Prop := page.response.chunks = page.unread

/-- What a page is, in terms of the events published so far. -/
structure Sound (events : List ExecProcessEvent) (page : Page) : Prop where
  retained : page.retained <:+: outputs events
  taken : page.response.chunks <+: page.unread
  progress : page.unread ≠ [] → page.response.chunks ≠ []
  after : ∀ chunk ∈ page.response.chunks, chunk.seq < page.response.nextSeq
  skipped : ∀ chunk ∈ page.unread, chunk ∉ page.response.chunks → page.response.nextSeq ≤ chunk.seq
  forward : page.params.after < page.response.nextSeq
  bounded : page.response.nextSeq ≤ events.length + 1
  ended : page.response.closed → events.any isClosed ∧
    (page.Uncut → ∀ chunk ∈ outputs events, chunk.seq < page.response.nextSeq)

variable {events : List ExecProcessEvent}

theorem sound_readResponse {streaming : ℕ} {process : RunningProcess}
    {params : ReadParams} (hn : Numbered events) (ht : Tracks events streaming process)
    (ha : params.after ≤ events.length) : Sound events ⟨params, process.output, readResponse process params⟩ := by
  obtain ⟨pre, hpre, hprogress, -, heq⟩ :=
    readLoop_eq params.limit (Exec.unread process params.after) [] 0 process.nextSeq
  obtain ⟨old, hold⟩ := ht.kept.longest.suffix
  have hsorted : (old ++ process.output).Pairwise fun a b => a.seq < b.seq := hold ▸ hn.pairwise
  have hunread : (Exec.unread process params.after).Pairwise fun a b => a.seq < b.seq :=
    (pairwise_append.mp hsorted).2.1.sublist filter_sublist
  have hmem : ∀ chunk ∈ pre, chunk ∈ process.output ∧ params.after < chunk.seq := fun chunk hc => by
    have := mem_filter.mp (hpre.subset hc)
    exact ⟨this.1, of_decide_eq_true this.2⟩
  have hbound : ∀ chunk ∈ process.output, chunk.seq ≤ events.length := fun chunk hc =>
    (hn.seq_pos (hold ▸ mem_append_right old hc)).2
  have hchunks : (readResponse process params).chunks = pre := by rw [readResponse, heq]; rfl
  have hnext : (readResponse process params).nextSeq = (pre.getLast?.map fun chunk => chunk.seq + 1).getD
      process.nextSeq := by rw [readResponse, heq]
  -- either nothing was unread, or the last chunk taken gives the next number
  have hcases : (pre = [] ∧ Exec.unread process params.after = [] ∧
      (readResponse process params).nextSeq = events.length + 1) ∨
      ∃ h : pre ≠ [], (readResponse process params).nextSeq = (pre.getLast h).seq + 1 := by
    by_cases h : pre = []
    · refine Or.inl ⟨h, by_contra fun hne => hprogress rfl hne h, ?_⟩
      rw [hnext, h, ← ht.nextSeq]
      rfl
    · refine Or.inr ⟨h, ?_⟩
      rw [hnext, getLast?_eq_some_getLast h]
      rfl
  have hafter : ∀ chunk ∈ pre, chunk.seq < (readResponse process params).nextSeq := by
    intro chunk hc
    obtain ⟨h, _, _⟩ | ⟨h, hlast⟩ := hcases
    · exact absurd (h ▸ hc) not_mem_nil
    · rw [hlast]
      have hle := (hunread.sublist hpre.sublist).imp Nat.le_of_lt
      exact Nat.lt_succ_of_le (hle.rel_getLast_of_rel_getLast_getLast hc (Nat.le_refl _))
  have hforward : params.after < (readResponse process params).nextSeq := by
    obtain ⟨_, _, hlast⟩ | ⟨h, hlast⟩ := hcases
    · omega
    · have := (hmem _ (getLast_mem h)).2
      omega
  refine ⟨?_, hchunks ▸ hpre, fun hne => ?_, hchunks ▸ hafter, fun chunk hc hnot => ?_, hforward, ?_,
    fun hclosed => ?_⟩
  · exact ht.kept.longest.suffix.isInfix
  · rw [hchunks]
    exact hprogress rfl hne
  · rw [hchunks] at hnot
    obtain ⟨post, hpost⟩ := hpre
    have hpost' : chunk ∈ post := (mem_append.mp (hpost ▸ hc : chunk ∈ pre ++ post)).resolve_left hnot
    obtain ⟨_, h, _⟩ | ⟨h, hlast⟩ := hcases
    · exact absurd (h ▸ hc : chunk ∈ []) not_mem_nil
    · have hlt := (pairwise_append.mp (hpost ▸ hunread)).2.2 _ (getLast_mem h) chunk hpost'
      show (readResponse process params).nextSeq ≤ chunk.seq
      omega
  · show (readResponse process params).nextSeq ≤ events.length + 1
    obtain ⟨_, _, hlast⟩ | ⟨h, hlast⟩ := hcases
    · exact hlast.le
    · have := hbound _ (hmem _ (getLast_mem h)).1
      omega
  · refine ⟨ht.closed.symm.trans hclosed, fun huncut chunk hc => ?_⟩
    have huncut : pre = Exec.unread process params.after := hchunks.symm.trans huncut
    obtain ⟨_, _, hlast⟩ | ⟨h, hlast⟩ := hcases
    · have := (hn.seq_pos hc).2
      show chunk.seq < (readResponse process params).nextSeq
      omega
    · obtain hc | hc := mem_append.mp (hold ▸ hc : chunk ∈ old ++ process.output)
      · have := (pairwise_append.mp hsorted).2.2 chunk hc _ (hmem _ (getLast_mem h)).1
        show chunk.seq < (readResponse process params).nextSeq
        omega
      · by_cases hseen : params.after < chunk.seq
        · exact hafter chunk (huncut ▸ mem_filter.mpr ⟨hc, decide_eq_true hseen⟩)
        · show chunk.seq < (readResponse process params).nextSeq
          omega

/-- What is published later does not change what a page is. -/
theorem Sound.concat {page : Page} (h : Sound events page) {event : ExecProcessEvent}
    (hevent : event.chunk? = none ∨ events.any isClosed = false) :
    Sound (events ++ [event]) page := by
  refine { h with
    retained := ?_
    bounded := ?_
    ended := ?_ }
  · rw [outputs, filterMap_append]
    exact h.retained.trans (prefix_append _ _).isInfix
  · rw [length_append]
    exact h.bounded.trans (Nat.add_le_add_right (Nat.le_add_right _ _) 1)
  · intro hclosed
    obtain ⟨hany, hended⟩ := h.ended hclosed
    obtain hnone | hopen := hevent
    · rw [any_append, hany, outputs_concat_of_none hnone]
      exact ⟨rfl, hended⟩
    · cases hany.symm.trans hopen

end Page

/-! ### Clients -/

/-- Each page begins where the one before it ended. -/
def Chained : ℕ → List Page → ℕ → Prop
  | a, [], b => a = b
  | a, page :: pages, b => page.params.after = a ∧ Chained (page.response.nextSeq - 1) pages b

theorem Chained.concat {page : Page} : ∀ {a : ℕ} {pages : List Page}, Chained a pages page.params.after →
    Chained a (pages ++ [page]) (page.response.nextSeq - 1)
  | _, [], h => ⟨h.symm, rfl⟩
  | _, _ :: _, h => ⟨h.1, h.2.concat⟩

section Chains

variable {events : List ExecProcessEvent}

variable {page : Page}

theorem Chained.before_le {behind : List Page} : ∀ {a b : ℕ} {before : List Page},
    Chained a (before ++ page :: behind) b → (∀ other ∈ before ++ page :: behind, other.Sound events) →
    a ≤ page.params.after
  | _, _, [], h, _ => h.1.ge
  | _, _, first :: _, h, hs => by
    have := (hs first mem_cons_self).forward
    have hle := h.2.before_le fun other ho => hs other (mem_cons_of_mem _ ho)
    rw [← h.1]
    omega

/-- The chunks of chained pages grow and lie between the positions. -/
theorem Chained.increasing : ∀ {a b : ℕ} {pages : List Page}, Numbered events → Chained a pages b →
    (∀ page ∈ pages, page.Sound events) →
    ((pages.flatMap fun page => page.response.chunks).Pairwise fun x y => x.seq < y.seq) ∧
      ∀ chunk ∈ pages.flatMap fun page => page.response.chunks, a < chunk.seq
  | _, _, [], _, _, _ => ⟨List.Pairwise.nil, forall_mem_nil _⟩
  | a, b, page :: pages, hn, h, hs => by
    have hpage := hs page mem_cons_self
    obtain ⟨hpairwise, hlower⟩ := h.2.increasing hn fun other ho => hs other (mem_cons_of_mem _ ho)
    have hmem : ∀ chunk ∈ page.response.chunks, a < chunk.seq := fun chunk hc =>
      h.1 ▸ of_decide_eq_true (mem_filter.mp (hpage.taken.subset hc)).2
    have hforward := hpage.forward
    rw [flatMap_cons]
    refine ⟨pairwise_append.mpr ⟨?_, hpairwise, fun x hx y hy => ?_⟩, fun chunk hc => ?_⟩
    · have hsub := hpage.taken.sublist.trans (filter_sublist.trans hpage.retained.sublist)
      exact hn.pairwise.sublist hsub
    · have := hpage.after x hx
      have := hlower y hy
      omega
    · obtain hc | hc := mem_append.mp hc
      · exact hmem chunk hc
      · have := hlower chunk hc
        have := h.1
        omega

/-- Every number between the positions is passed by a page. -/
theorem Chained.exists_passes {seq : ℕ} : ∀ {a b : ℕ} {pages : List Page}, Chained a pages b → a < seq → seq ≤ b →
    ∃ page ∈ pages, page.Passes seq
  | _, _, [], h, ha, hb => absurd (h ▸ hb) (Nat.not_le.mpr ha)
  | a, b, page :: pages, h, ha, hb => by
    by_cases hlt : seq < page.response.nextSeq
    · exact ⟨page, mem_cons_self, h.1 ▸ ha, hlt⟩
    · obtain ⟨other, ho, hpasses⟩ := h.2.exists_passes (by omega) hb
      exact ⟨other, mem_cons_of_mem _ ho, hpasses⟩

/-- After a page that is closed and not cut, nothing is left to read. -/
theorem Chained.ended {later : List Page} : ∀ {a b : ℕ} {earlier : List Page},
    Chained a (earlier ++ page :: later) b → (∀ other ∈ earlier ++ page :: later, other.Sound events) →
    page.response.closed → page.Uncut → ∀ other ∈ later, other.response.chunks = []
  | a, b, first :: earlier, h, hs, hc, hu => by
    have htail : Chained (first.response.nextSeq - 1) (earlier ++ page :: later) b := h.2
    exact htail.ended (fun other ho => hs other (mem_cons_of_mem _ ho)) hc hu
  | a, b, [], h, hs, hc, hu => by
    intro other hother
    have hpage := hs page mem_cons_self
    have hall := (hpage.ended hc).2 hu
    have hsound := hs other (mem_cons_of_mem _ hother)
    -- the later page begins at or behind the end of this one
    obtain ⟨before, behind, rfl⟩ := append_of_mem hother
    have hle : page.response.nextSeq - 1 ≤ other.params.after :=
      h.2.before_le fun other ho => hs other (mem_cons_of_mem _ ho)
    have hunread : other.unread = [] := filter_eq_nil_iff.mpr fun chunk hchunk hlt => by
      have := hall chunk (hsound.retained.subset hchunk)
      have := of_decide_eq_true hlt
      omega
    exact prefix_nil.mp (hunread ▸ hsound.taken)

end Chains

namespace Client

/-- The sequence number up to which the client has read. -/
def position (client : Client) : ℕ := client.afterSeq.getD 0

/-- What a call knows at each point. -/
def PcSound (events : List ExecProcessEvent) (position : ℕ) : ReadPc → Prop
  | .inspect params => params.after = position
  | .register params retained response => params.after = position ∧ Page.Sound events ⟨params, retained, response⟩
  | .waiting params _ => params.after = position
  | .idle => True
  | .failed _ => True

/-- The pages of a client that began at the beginning. -/
structure Paging (events : List ExecProcessEvent) (client : Client) : Prop where
  position_le : client.position ≤ events.length
  chained : Chained 0 client.pages client.position
  pages : ∀ page ∈ client.pages, page.Sound events
  pc : PcSound events client.position client.pc

variable {events : List ExecProcessEvent} {client client' : Client} {event : ExecProcessEvent}

theorem Paging.concat (h : client.Paging events)
    (hevent : event.chunk? = none ∨ events.any isClosed = false) :
    client.Paging (events ++ [event]) where
  position_le := by
    rw [length_append]
    exact Nat.le_add_right_of_le h.position_le
  chained := h.chained
  pages page hpage := (h.pages page hpage).concat hevent
  pc := by
    have hpc := h.pc
    cases hclient : client.pc with
    | register params retained response =>
      rw [hclient] at hpc
      exact ⟨hpc.1, hpc.2.concat hevent⟩
    | _ =>
      rw [hclient] at hpc
      exact hpc

theorem Paging.returned (h : client.Paging events) {page : Page} (hp : page.Sound events)
    (ha : page.params.after = client.position) : (client.returned page).Paging events where
  position_le := by
    have := hp.bounded
    show page.response.nextSeq - 1 ≤ events.length
    omega
  chained := by
    have hchained := h.chained
    rw [← ha] at hchained
    exact hchained.concat
  pages other ho := by
    obtain ho | ho := mem_append.mp ho
    · exact h.pages other ho
    · rw [mem_singleton.mp ho]
      exact hp
  pc := trivial

theorem Paging.moved (h : client.Paging events) {pc : ReadPc} (hpc : PcSound events client.position pc) :
    Paging events { client with pc := pc } :=
  ⟨h.position_le, h.chained, h.pages, hpc⟩

variable {s : Inner} {answer : Answer}

theorem start_of_stepClient (h : stepClient s client answer = some client') : client'.start = client.start := by
  unfold stepClient at h
  repeat' split at h
  all_goals cases h
  all_goals rfl

theorem sound_of_inspect {params : ReadParams} {response : ReadResponse} {streaming exiting : ℕ}
    (hc : Consistent s.process? events streaming exiting)
    (ha : params.after ≤ events.length) (h : inspect s params = .ok response) :
    Page.Sound events ⟨params, (s.process?.map RunningProcess.output).getD [], response⟩ := by
  revert h
  fun_cases inspect s params with
  | case3 process hentry =>
    rintro ⟨⟩
    have hprocess : s.process? = some process := by rw [Inner.process?, hentry]
    rw [hprocess]
    exact Page.sound_readResponse hc.numbered (hc.tracks process hprocess) ha
  | _ => exact nofun

theorem Paging.step {streaming exiting : ℕ} (h : client.Paging events)
    (hc : Consistent s.process? events streaming exiting) (hs : stepClient s client answer = some client') :
    client'.Paging events := by
  have hpc := h.pc
  revert hs
  fun_cases stepClient s client answer with
  | case1 => exact fun hs => some.inj hs ▸ h.moved rfl
  | case3 => exact fun hs => some.inj hs ▸ h.moved trivial
  | case4 params hclient response hresponse =>
    rw [hclient] at hpc
    have hpage := sound_of_inspect hc (hpc ▸ h.position_le) hresponse
    exact fun hs => some.inj hs ▸ h.returned hpage hpc
  | case5 params hclient response hresponse =>
    rw [hclient] at hpc
    have hpage := sound_of_inspect hc (hpc ▸ h.position_le) hresponse
    exact fun hs => some.inj hs ▸ h.moved ⟨hpc, hpage⟩
  | case7 late params retained response hclient =>
    rw [hclient] at hpc
    exact fun hs => some.inj hs ▸ h.returned hpc.2 hpc.1
  | case8 late params retained response hclient =>
    rw [hclient] at hpc
    exact fun hs => some.inj hs ▸ h.moved hpc.1
  | case9 late params notified hclient =>
    rw [hclient] at hpc
    exact fun hs => some.inj hs ▸ h.moved hpc
  | _ => exact nofun

end Client

/-! ### Runs with clients -/

section Runs

variable {pool pool' : ProcessPool} {s s' : Inner} {task task' : Task} {i : ℕ} {answer : Answer}

/-- A step publishes at most one event, and no output once `closed` is published. -/
theorem published_of_effect (hc : pool.Consistent) (hi : pool.tasks[i]? = some task)
    (he : Effect pool.shared task s task') : s.events.published = pool.shared.events.published ∨
      ∃ event, s.events.published = pool.shared.events.published ++ [event] ∧
        (event.chunk? = none ∨ pool.shared.events.published.any isClosed = false) := by
  cases he with
  | quiet _ events _ _ _ _ | wake _ events _ _ _ _ => exact Or.inl (congrArg _ events)
  | push stream chunk running =>
    obtain ⟨n, hn⟩ : ∃ n, inPhase pool.tasks .streaming = n + 1 := exists_inPhase_eq_succ hi
    refine Or.inr ⟨_, rfl, Or.inr (Bool.eq_false_iff.mpr fun hclosed => ?_)⟩
    exact Nat.succ_ne_zero n (hn.symm.trans (hc.settled hclosed))
  | exit | close => exact Or.inr ⟨_, rfl, Or.inl rfl⟩
  | _ => exact Or.inl rfl

theorem client_of_step {client' : Client} (h : step s task answer = some (s', .client client')) :
    ∃ client, task = .client client ∧ s' = s ∧ stepClient s client answer = some client' := by
  have hphase : task.phase = .reading := by
    have he := effect_of_step h
    cases he with
    | quiet _ _ _ phase _ _ | wake _ _ _ phase _ _ => exact phase.symm
  cases task with
  | client client =>
    obtain ⟨other, hother, heq⟩ := map_eq_some_iff.mp (h : (stepClient s client answer).map _ = _)
    obtain ⟨rfl, hc⟩ := Prod.mk.inj heq
    obtain rfl := Task.client.inj hc
    exact ⟨client, rfl, rfl, hother⟩
  | _ => exact nomatch hphase

theorem client_of_call {c : Call} {client : Client} (h : .client client ∈ pool.tasks ++ [start c]) :
    .client client ∈ pool.tasks ∨ ∃ afterSeq, client = ⟨afterSeq, afterSeq, [], .idle⟩ := by
  refine (mem_append.mp h).imp id fun h => ?_
  cases c with
  | client afterSeq => exact ⟨afterSeq, Task.client.inj (mem_singleton.mp h)⟩
  | _ => exact nomatch mem_singleton.mp h

/-- The invariant of the runs with clients. -/
structure ProcessPool.Reading (pool : ProcessPool) : Prop where
  consistent : pool.Consistent
  clients : ∀ client, .client client ∈ pool.tasks → client.start = none →
    client.Paging pool.shared.events.published

theorem reading_next {event : ProcessEvent} (h : pool.Reading) (hn : next pool event = some pool') :
    pool'.Reading := by
  refine ⟨consistent_next h.consistent hn, fun client hclient hstart => ?_⟩
  cases event with
  | call c =>
    obtain rfl := some.inj hn
    obtain hclient | ⟨afterSeq, rfl⟩ := client_of_call hclient
    · exact h.clients client hclient hstart
    · obtain rfl : afterSeq = none := hstart
      exact ⟨Nat.zero_le _, rfl, forall_mem_nil _, trivial⟩
  | step i answer =>
    obtain ⟨task, s, task', hi, hstep, rfl⟩ := Pool.next_step hn
    have hmem := mem_of_getElem? hi
    obtain hclient | rfl := mem_or_eq_of_mem_set hclient
    · have hpaging := h.clients client hclient hstart
      obtain hsame | ⟨event, hevent, hopen⟩ := published_of_effect h.consistent hi (effect_of_step hstep)
      · rw [hsame]
        exact hpaging
      · rw [hevent]
        exact hpaging.concat hopen
    · obtain ⟨before, rfl, rfl, hclientStep⟩ := client_of_step hstep
      have hstart' : before.start = none := by
        rw [← hstart]
        exact (Client.start_of_stepClient hclientStep).symm
      exact (h.clients before hmem hstart').step h.consistent hclientStep

theorem reading_of_run {processId : Str} {tty : Bool} {events : List ProcessEvent}
    (h : run next (startProcess processId tty) events = some pool) : pool.Reading := by
  refine run_inv (fun _ _ _ hp hn => reading_next hp hn) ⟨consistent_startProcess processId tty, ?_⟩ h
  intro client hclient
  simp [startProcess] at hclient

end Runs

/-- What a client that pages from the beginning has read, in terms of the events published so far. -/
structure Paged (events : List ExecProcessEvent) (client : Client) : Prop where
  /-- the chunks of all pages have growing sequence numbers -/
  increasing : (client.pages.flatMap fun page => page.response.chunks).Pairwise fun a b => a.seq < b.seq
  /-- they are chunks that the process has published -/
  genuine : ∀ page ∈ client.pages, ∀ chunk ∈ page.response.chunks, chunk ∈ outputs events
  /-- a chunk behind the client's position was returned, unless it was not retained any more at the call that
  passed it -/
  complete : ∀ chunk ∈ outputs events, chunk.seq ≤ client.position →
    ∃ page ∈ client.pages, page.Passes chunk.seq ∧ (chunk ∈ page.response.chunks ∨ chunk ∉ page.retained)
  /-- no call passes a retained chunk without returning it -/
  noSkip : ∀ page ∈ client.pages, ∀ chunk ∈ page.retained, page.Passes chunk.seq → chunk ∈ page.response.chunks
  /-- a call with an unread chunk retained returns a chunk -/
  progress : ∀ page ∈ client.pages, ∀ chunk ∈ page.retained, page.params.after < chunk.seq → page.response.chunks ≠ []
  /-- nothing comes after a page that says closed and was not cut -/
  ended : ∀ earlier page later, client.pages = earlier ++ page :: later → page.response.closed →
    page.Uncut → ∀ other ∈ later, other.response.chunks = []

/-- **Paging through the output**, for every interleaving and every sequence of byte limits. -/
theorem paged_of_run {processId : Str} {tty : Bool} {events : List ProcessEvent} {pool : ProcessPool}
    {client : Client}
    (h : run next (startProcess processId tty) events = some pool) (hclient : .client client ∈ pool.tasks)
    (hstart : client.start = none) : Paged pool.shared.events.published client := by
  have hreading := reading_of_run h
  have hn := hreading.consistent.numbered
  have hp := hreading.clients client hclient hstart
  have hskip : ∀ page ∈ client.pages, ∀ chunk ∈ page.retained, page.Passes chunk.seq →
      chunk ∈ page.response.chunks := by
    intro page hpage chunk hchunk hpasses
    have hunread : chunk ∈ page.unread := mem_filter.mpr ⟨hchunk, decide_eq_true hpasses.1⟩
    by_contra hnot
    exact absurd ((hp.pages page hpage).skipped chunk hunread hnot) (Nat.not_le.mpr hpasses.2)
  refine ⟨(hp.chained.increasing hn hp.pages).1, ?_, ?_, hskip, ?_, ?_⟩
  · intro page hpage chunk hchunk
    have hsound := hp.pages page hpage
    exact hsound.retained.subset (mem_of_mem_filter (hsound.taken.subset hchunk))
  · intro chunk hchunk hle
    obtain ⟨page, hpage, hpasses⟩ := hp.chained.exists_passes (hn.seq_pos hchunk).1 hle
    refine ⟨page, hpage, hpasses, ?_⟩
    by_cases hretained : chunk ∈ page.retained
    · exact Or.inl (hskip page hpage chunk hretained hpasses)
    · exact Or.inr hretained
  · intro page hpage chunk hchunk hlt
    exact (hp.pages page hpage).progress (ne_nil_of_mem (mem_filter.mpr ⟨hchunk, decide_eq_true hlt⟩))
  · intro earlier page later heq hclosed huncut
    have hchained := hp.chained
    have hpages := hp.pages
    rw [heq] at hchained hpages
    exact hchained.ended hpages hclosed huncut

/-- A client that reads with a byte limit of zero while the process is running. -/
def readAtOnce : List ProcessEvent :=
  [.call (.client none), .step 0 (.chunk (some [104])), .step 0 .go, .step 1 (.chunk (some [105])), .step 1 .go,
    .step 3 (.call (some 0) none), .step 3 .go, .step 3 (.call (some 0) none), .step 3 .go]

theorem paged_readAtOnce : ∃ pool client, run next (startProcess [] false) readAtOnce = some pool ∧
    .client client ∈ pool.tasks ∧ client.start = none ∧
    (client.pages.flatMap fun page => page.response.chunks.map ProcessOutputChunk.seq) = [1, 2] ∧
    Paged pool.shared.events.published client := by
  obtain ⟨pool, hrun, hclient⟩ := map_eq_some_iff.mp
    (show (run next (startProcess [] false) readAtOnce).map (fun pool => pool.tasks[3]?) = some (some (.client
      ⟨none, some 2, [⟨⟨none, some 0, none⟩, [⟨1, .stdout, [104]⟩, ⟨2, .stderr, [105]⟩],
          ⟨[⟨1, .stdout, [104]⟩], 2, false, none, false, none⟩⟩,
        ⟨⟨some 1, some 0, none⟩, [⟨1, .stdout, [104]⟩, ⟨2, .stderr, [105]⟩],
          ⟨[⟨2, .stderr, [105]⟩], 3, false, none, false, none⟩⟩], .idle⟩)) by decide +kernel)
  have hmem := mem_of_getElem? hclient
  exact ⟨pool, _, hrun, hmem, rfl, rfl, paged_of_run hrun hmem rfl⟩

/-! ### Waiting for output -/

/-- The process has something to return to a reader: a retained chunk, its end, or an exit it has not seen. -/
def Ready (s : Inner) (afterSeq : ℕ) : Prop :=
  ∃ process, s.process? = some process ∧ ((∃ chunk ∈ process.output, afterSeq < chunk.seq) ∨ process.closed ∨
    ∃ seq exitCode, .exited seq exitCode ∈ s.events.published ∧ afterSeq < seq)

/-- A task that has published is still to call `notify_waiters`. -/
def Waking (tasks : List Task) : Prop := ∃ task ∈ tasks, task.waking

/-- No reader sleeps while there is something to return to it, unless a wake-up for its future is pending. -/
def Awake (pool : ProcessPool) : Prop :=
  ∀ client params notified, .client client ∈ pool.tasks → client.pc = .waiting params notified →
    Ready pool.shared params.after → notified ≠ pool.shared.notifyWaitersCalls ∨ Waking pool.tasks

/-- A reader creates its future while there still is nothing to return to it, or before the task that has
published calls `notify_waiters`. -/
def RegistersInTime (pool : ProcessPool) : ProcessEvent → Prop
  | .call _ => True
  | .step i answer => ∀ client params retained response, pool.tasks[i]? = some (.client client) →
      client.pc = .register params retained response → answer = .clock false → params.waitMs.getD 0 ≠ 0 →
      Ready pool.shared params.after → Waking pool.tasks

/-- A future that is waited on was created after no more calls than there are now. -/
def Registered (pool : ProcessPool) : Prop :=
  ∀ client params notified, .client client ∈ pool.tasks → client.pc = .waiting params notified →
    notified ≤ pool.shared.notifyWaitersCalls

section Waiting

variable {pool pool' : ProcessPool} {s s' : Inner} {task task' : Task} {i : ℕ} {answer : Answer}

variable {afterSeq : ℕ}

theorem ready_congr (hentry : s'.entry = s.entry) (hevents : s'.events = s.events) :
    Ready s' afterSeq ↔ Ready s afterSeq := by
  unfold Ready
  rw [process?_congr hentry, hevents]

/-- A step that makes something ready is followed by `notify_waiters`. -/
theorem waking_of_ready (he : Effect s task s' task') (h : Ready s' afterSeq)
    (hn : ¬ Ready s afterSeq) : task'.waking := by
  cases he with
  | quiet entry events _ _ _ _ | wake entry events _ _ _ _ => exact absurd ((ready_congr entry events).mp h) hn
  | push _ _ _ => rfl
  | @finish process running =>
    obtain ⟨other, hother, hready⟩ := h
    obtain rfl := some.inj hother
    refine absurd ⟨process, running, ?_⟩ hn
    unfold RunningProcess.finishStream at hready
    split at hready <;> exact hready
  | exit | exitGone | close => rfl
  | finishGone | keep => exact absurd h hn
  | remove | shutdown => exact nomatch h.choose_spec.1

theorem calls_of_effect (he : Effect s task s' task') : s.notifyWaitersCalls ≤ s'.notifyWaitersCalls ∧
    (task.waking → s'.notifyWaitersCalls = s.notifyWaitersCalls + 1) := by
  cases he with
  | quiet _ _ calls _ asleep _ => exact ⟨calls.ge, fun h => nomatch h.symm.trans asleep⟩
  | wake _ _ calls _ _ _ => exact ⟨calls ▸ Nat.le_succ _, fun _ => calls⟩
  | _ => exact ⟨Nat.le_refl _, nofun⟩

variable {notified : ℕ}

theorem waking_set (hi : pool.tasks[i]? = some task) (hw : ¬ task.waking) (h : Waking pool.tasks) :
    Waking (pool.tasks.set i task') := by
  obtain ⟨waker, hmem, hwaker⟩ := h
  obtain ⟨j, hj⟩ := mem_iff_getElem?.mp hmem
  have hij : i ≠ j := by
    rintro rfl
    exact hw (mem_unique hi hj ▸ hwaker)
  refine ⟨waker, mem_iff_getElem?.mpr ⟨j, ?_⟩, hwaker⟩
  rw [getElem?_set_ne hij]
  exact hj

/-- A wake-up that is pending stays pending while its reader sleeps. -/
theorem pending_of_effect (hi : pool.tasks[i]? = some task) (he : Effect pool.shared task s task')
    (hle : notified ≤ pool.shared.notifyWaitersCalls)
    (h : notified ≠ pool.shared.notifyWaitersCalls ∨ Waking pool.tasks) :
    notified ≠ s.notifyWaitersCalls ∨ Waking (pool.tasks.set i task') := by
  obtain ⟨hmono, hcalls⟩ := calls_of_effect he
  obtain hne | hwaking := h
  · exact Or.inl (by omega)
  · by_cases hw : task.waking = true
    · have := hcalls hw
      exact Or.inl (by omega)
    · exact Or.inr (waking_set hi hw hwaking)

variable {client client' : Client} {params : ReadParams}

theorem waiting_of_stepClient
    (h : stepClient s client answer = some client') (hw : client'.pc = .waiting params notified) :
    ∃ retained response, client.pc = .register params retained response ∧ answer = .clock false ∧
      params.waitMs.getD 0 ≠ 0 ∧ notified = s.notifyWaitersCalls := by
  revert h
  fun_cases stepClient s client answer with
  | case8 late params' retained response hpc hlate =>
    rintro ⟨⟩
    obtain ⟨rfl, rfl⟩ := ReadPc.waiting.inj hw
    simp only [Bool.or_eq_true, beq_iff_eq, not_or, Bool.not_eq_true] at hlate
    exact ⟨retained, response, hpc, congrArg _ hlate.1, hlate.2, rfl⟩
  | _ =>
    intro h
    cases h <;> exact nomatch hw

theorem stepClient_register {retained : List ProcessOutputChunk}
    {response : ReadResponse} (hpc : client.pc = .register params retained response) (hw : params.waitMs.getD 0 ≠ 0) :
    stepClient s client (.clock false) = some { client with pc := .waiting params s.notifyWaitersCalls } := by
  rw [stepClient, hpc]
  simp only [Bool.false_or, beq_iff_eq]
  exact if_neg hw

variable {event : ProcessEvent}

theorem registered_next (h : Registered pool) (hn : next pool event = some pool') : Registered pool' := by
  intro client params notified hclient hpc
  cases event with
  | call c =>
    obtain rfl := some.inj hn
    obtain hclient | ⟨afterSeq, rfl⟩ := client_of_call hclient
    · exact h client params notified hclient hpc
    · exact nomatch hpc
  | step i answer =>
    obtain ⟨task, s, task', hi, hstep, rfl⟩ := Pool.next_step hn
    obtain hclient | rfl := mem_or_eq_of_mem_set hclient
    · exact (h client params notified hclient hpc).trans (calls_of_effect (effect_of_step hstep)).1
    · obtain ⟨before, rfl, rfl, hclientStep⟩ := client_of_step hstep
      obtain ⟨_, _, _, _, _, rfl⟩ := waiting_of_stepClient hclientStep hpc
      exact Nat.le_refl _

theorem waking_set_client (hi : pool.tasks[i]? = some (.client client)) :
    Waking (pool.tasks.set i (.client client')) ↔ Waking pool.tasks := by
  constructor
  · rintro ⟨waker, hmem, hwaker⟩
    obtain hmem | rfl := mem_or_eq_of_mem_set hmem
    · exact ⟨waker, hmem, hwaker⟩
    · exact nomatch hwaker
  · exact waking_set hi Bool.false_ne_true

/-- A step keeps readers from sleeping exactly if it registers in time. -/
theorem awake_next_iff (hr : Registered pool) (h : Awake pool)
    (hn : next pool event = some pool') : Awake pool' ↔ RegistersInTime pool event := by
  cases event with
  | call c =>
    obtain rfl := some.inj hn
    refine ⟨fun _ => trivial, fun _ client params notified hclient hpc hready => ?_⟩
    obtain hclient | ⟨afterSeq, rfl⟩ := client_of_call hclient
    · refine (h client params notified hclient hpc hready).imp id ?_
      rintro ⟨waker, hmem, hwaker⟩
      exact ⟨waker, mem_append_left _ hmem, hwaker⟩
    · exact nomatch hpc
  | step i answer =>
    obtain ⟨task, s, task', hi, hstep, rfl⟩ := Pool.next_step hn
    have he := effect_of_step hstep
    constructor
    · rintro hawake client params retained response hclient hpc rfl hwait hready
      obtain rfl := mem_unique hi hclient
      rw [step, stepClient_register hpc hwait] at hstep
      obtain ⟨rfl, rfl⟩ := some_mk_inj hstep
      have hmem := List.mem_set (List.getElem?_eq_some_iff.mp hi).1
        (Task.client { client with pc := .waiting params pool.shared.notifyWaitersCalls })
      obtain hne | hwaking := hawake _ params _ hmem rfl hready
      · exact absurd rfl hne
      · exact (waking_set_client hi).mp hwaking
    · intro hok client params notified hclient hpc hready
      obtain hclient | rfl := mem_or_eq_of_mem_set hclient
      · by_cases hbefore : Ready pool.shared params.after
        · have hpending := h client params notified hclient hpc hbefore
          exact pending_of_effect hi he (hr client params notified hclient hpc) hpending
        · have hmem := List.mem_set (List.getElem?_eq_some_iff.mp hi).1 task'
          exact Or.inr ⟨task', hmem, waking_of_ready he hready hbefore⟩
      · obtain ⟨before, rfl, rfl, hclientStep⟩ := client_of_step hstep
        obtain ⟨retained, response, hregister, rfl, hwait, rfl⟩ := waiting_of_stepClient hclientStep hpc
        have hwaking := hok before params retained response hi hregister rfl hwait hready
        exact Or.inr ((waking_set_client hi).mpr hwaking)

end Waiting

/-- **No reader sleeps through what it waits for** in exactly the runs in which every future is created in
time. -/
theorem awake_throughout_iff (processId : Str) (tty : Bool) (events : List ProcessEvent) :
    Throughout next Awake (startProcess processId tty) events ↔
      Meets next RegistersInTime (startProcess processId tty) events := by
  refine throughout_iff_meets (J := Registered) (fun _ _ _ hr _ hn => registered_next hr hn)
    (fun _ _ _ hr h hn => awake_next_iff hr h hn) ?_ ?_ ?_
  · intro pool event _ _ hnone
    cases event with
    | call c => exact trivial
    | step i answer =>
      rintro client params retained response hi hpc rfl hwait -
      have := Pool.step_eq_none hnone hi
      rw [step, stepClient_register hpc hwait] at this
      cases this
  · intro client params notified hclient
    simp [startProcess] at hclient
  · intro client params notified hclient
    simp [startProcess] at hclient

/-- A chunk is published and its readers are notified between the look of a reader and its future. -/
def lostWakeUp : List ProcessEvent :=
  [.call (.client none), .step 3 (.call none (some 1000)), .step 3 .go, .step 0 (.chunk (some [104])), .step 0 .go,
    .step 0 .go, .step 3 (.clock false)]

theorem not_awake_lostWakeUp : ∃ pool, run next (startProcess [] false) lostWakeUp = some pool ∧ ¬ Awake pool := by
  obtain ⟨pool, hrun, hclient, hwaking, hcalls, hprocess⟩ : ∃ pool ∈ run next (startProcess [] false) lostWakeUp,
      pool.tasks[3]? = some (.client ⟨none, none, [], .waiting ⟨none, none, some 1000⟩ 1⟩) ∧
      pool.tasks.any Task.waking = false ∧ pool.shared.notifyWaitersCalls = 1 ∧
      pool.shared.process? = some ⟨[⟨1, .stdout, [104]⟩], 1, 2, none, 2, false⟩ := by decide +kernel
  refine ⟨pool, hrun, fun hawake => ?_⟩
  have hready : Ready pool.shared 0 := ⟨_, hprocess, Or.inl ⟨_, mem_singleton_self _, Nat.zero_lt_one⟩⟩
  obtain hne | ⟨waker, hmem, hwaker⟩ := hawake _ _ 1 (mem_of_getElem? hclient) rfl hready
  · exact hne hcalls.symm
  · exact nomatch hwaking.symm.trans (any_eq_true.mpr ⟨waker, hmem, hwaker⟩)

end OpenAgere.Exec
