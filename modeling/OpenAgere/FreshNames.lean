import Mathlib.Data.List.Forall2
import Mathlib.Data.List.Nodup

/-! # Names that nobody else has

Requests are served in their order.  Each may have an item of its own, which it is given if nobody before it was given
one with the same name; if somebody was, or if there is none, the candidates of the request are tried one after the
other.  The search has no end of its own, so it is given fuel.

Names that are given are distinct (`assign_sound`), and requests whose own items have different names are served
without a search (`assign_own`). -/

namespace OpenAgere.FreshNames

open List Option

structure Request (β : Type) where
  own : Option β
  candidate : ℕ → β

/-- The item is the request's own or one of its candidates. -/
def Request.Offers {β : Type} (request : Request β) (item : β) : Prop :=
  request.own = some item ∨ ∃ attempt, item = request.candidate attempt

theorem forall_given {β γ : Type} {R : γ → β → Prop} {P : β → Prop} {l : List γ} {items : List β}
    (h : List.Forall₂ R l items) (hP : ∀ c ∈ l, ∀ item, R c item → P item) : ∀ item ∈ items, P item := by
  induction h with
  | nil => exact forall_mem_nil _
  | cons hR _ ih =>
    intro item hitem
    obtain rfl | hitem := mem_cons.mp hitem
    · exact hP _ mem_cons_self item hR
    · exact ih (fun c hc => hP c (mem_cons_of_mem _ hc)) item hitem

variable {α β : Type} [DecidableEq α] (key : β → α)

/-- The first candidate whose name is not used, from an attempt on. -/
def firstFresh (used : List α) (candidate : ℕ → β) : ℕ → ℕ → Option β
  | 0, _ => none
  | fuel + 1, attempt =>
      if key (candidate attempt) ∈ used then firstFresh used candidate fuel (attempt + 1)
      else some (candidate attempt)

def grant (fuel : ℕ) (used : List α) (request : Request β) : Option β :=
  match request.own with
  | some item => if key item ∈ used then firstFresh key used request.candidate fuel 0 else some item
  | none => firstFresh key used request.candidate fuel 0

def assign (fuel : ℕ) : List α → List (Request β) → Option (List β)
  | _, [] => some []
  | used, request :: requests =>
      (grant key fuel used request).bind fun item => (assign fuel (key item :: used) requests).map (item :: ·)

variable {key}

/-! ### What is given -/

variable {used : List α} {candidate : ℕ → β} {item : β}

theorem firstFresh_sound : ∀ {fuel attempt : ℕ},
    firstFresh key used candidate fuel attempt = some item → key item ∉ used ∧ ∃ attempt, item = candidate attempt
  | 0, _, h => by cases h
  | fuel + 1, attempt, h => by
    rw [firstFresh] at h
    split_ifs at h with hused
    · exact firstFresh_sound h
    · obtain rfl := some.inj h
      exact ⟨hused, attempt, rfl⟩

variable {fuel : ℕ} {request : Request β}

theorem grant_sound
    (h : grant key fuel used request = some item) : key item ∉ used ∧ request.Offers item := by
  revert h
  fun_cases grant key fuel used request with
  | case2 own hown hused =>
    intro h
    obtain rfl := some.inj h
    exact ⟨hused, .inl hown⟩
  | _ =>
    intro h
    exact ⟨(firstFresh_sound h).1, .inr (firstFresh_sound h).2⟩

variable {requests : List (Request β)}

/-- **Names are given once.** -/
theorem assign_sound {items : List β} : ∀ {used : List α},
    assign key fuel used requests = some items →
      (items.map key).Nodup ∧ (∀ item ∈ items, key item ∉ used) ∧ List.Forall₂ Request.Offers requests items := by
  induction requests generalizing items with
  | nil =>
    intro used h
    obtain rfl := some.inj h
    exact ⟨nodup_nil, forall_mem_nil _, .nil⟩
  | cons request requests ih =>
    intro used h
    obtain ⟨item, hitem, h⟩ := bind_eq_some_iff.mp h
    obtain ⟨rest, hrest, rfl⟩ := map_eq_some_iff.mp h
    obtain ⟨hnodup, hfresh, hoffers⟩ := ih hrest
    obtain ⟨hunused, hoffer⟩ := grant_sound hitem
    refine ⟨?_, ?_, .cons hoffer hoffers⟩
    · rw [map_cons]
      refine nodup_cons.mpr ⟨fun hmem => ?_, hnodup⟩
      obtain ⟨other, hother, heq⟩ := mem_map.mp hmem
      exact hfresh other hother (heq ▸ mem_cons_self)
    · intro other hother
      obtain rfl | hother := mem_cons.mp hother
      · exact hunused
      · exact fun hmem => hfresh other hother (mem_cons_of_mem (key item) hmem)

/-- Requests with items of different names are given these, without a search. -/
theorem assign_own : ∀ {requests : List (Request β)} {items : List β} {used : List α},
    List.Forall₂ (fun request item => request.own = some item) requests items → (items.map key).Nodup →
      (∀ item ∈ items, key item ∉ used) → assign key fuel used requests = some items
  | [], _, _, .nil, _, _ => rfl
  | request :: requests, item :: items, used, .cons hown howns, hnodup, hfresh => by
    obtain ⟨hnot, hnodup⟩ := nodup_cons.mp hnodup
    have hgrant : grant key fuel used request = some item := by
      rw [grant, hown]
      exact if_neg (hfresh item mem_cons_self)
    have hrest : ∀ other ∈ items, key other ∉ key item :: used := by
      intro other hother hmem
      obtain heq | hmem := mem_cons.mp hmem
      · exact hnot (mem_map.mpr ⟨other, hother, heq⟩)
      · exact hfresh other (mem_cons_of_mem item hother) hmem
    rw [assign, hgrant, bind_some, assign_own howns hnodup hrest]
    rfl

end OpenAgere.FreshNames
