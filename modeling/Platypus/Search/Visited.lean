import Mathlib.Data.Finset.Card
import Mathlib.Logic.Relation
import Mathlib.Tactic.Common

-- Depth-first search that ends at the first goal, with one set of visited nodes for all branches.

namespace Platypus.Search

variable {α β : Type}

-- What a chain of steps leads to.
def Reach (next : α → List α) : α → α → Prop := Relation.ReflTransGen fun v w => w ∈ next v

-- The branches in order, until one of them finds something.
def findIn (visit : List α → α → Option (Option β × List α)) :
    List α → List α → Option (Option β × List α)
  | [], seen => some (none, seen)
  | w :: ws, seen =>
    (visit seen w).bind fun r =>
      match r.1 with
      | some b => some (some b, r.2)
      | none => findIn visit ws r.2

theorem findIn_singleton (visit : List α → α → Option (Option β × List α)) (seen : List α) (w : α) :
    findIn visit [w] seen = visit seen w := by
  rw [findIn]
  cases visit seen w with
  | none => rfl
  | some r =>
    obtain ⟨found, seen'⟩ := r
    cases found <;> rfl

-- `none` if the search is deeper than `fuel`.
def find [DecidableEq α] (next : α → List α) (goal : α → Option β) :
    Nat → List α → α → Option (Option β × List α)
  | 0, _, _ => none
  | fuel + 1, seen, v =>
    if v ∈ seen then some (none, seen)
    else
      match goal v with
      | some b => some (some b, v :: seen)
      | none => findIn (find next goal fuel) (next v) (v :: seen)

-- What a search from the nodes `vs` leaves behind. Where it finds nothing, it has been at all of
-- them, and every new node has been tried with all of its branches.
structure Searched (next : α → List α) (goal : α → Option β) (vs seen : List α) (r : Option β)
    (seen' : List α) : Prop where
  subset : seen ⊆ seen'
  reach : ∀ x ∈ seen', x ∈ seen ∨ ∃ v ∈ vs, Reach next v x
  found : ∀ b, r = some b → ∃ v ∈ vs, ∃ x, Reach next v x ∧ goal x = some b
  entered : r = none → ∀ v ∈ vs, v ∈ seen'
  tried : r = none → ∀ x ∈ seen', x ∈ seen ∨ goal x = none ∧ ∀ w ∈ next x, w ∈ seen'

section Spec

variable {next : α → List α} {goal : α → Option β} {v w : α} {vs ws seen seen₁ seen₂ : List α}
  {r : Option β}

theorem Searched.nil (seen : List α) : Searched next goal [] seen none seen where
  subset := fun _ h => h
  reach := fun _ h => .inl h
  found := nofun
  entered := nofun
  tried := fun _ _ h => .inl h

theorem Searched.cons_found {b : β} (h : Searched next goal [w] seen (some b) seen₁) :
    Searched next goal (w :: ws) seen (some b) seen₁ where
  subset := h.subset
  reach x hx := (h.reach x hx).imp_right fun ⟨u, hu, hreach⟩ =>
    ⟨u, List.mem_cons.mpr (.inl (List.mem_singleton.mp hu)), hreach⟩
  found b' hb := by
    obtain ⟨u, hu, hx⟩ := h.found b' hb
    exact ⟨u, List.mem_cons.mpr (.inl (List.mem_singleton.mp hu)), hx⟩
  entered := nofun
  tried := nofun

theorem Searched.cons (h : Searched next goal [w] seen none seen₁)
    (h' : Searched next goal ws seen₁ r seen₂) : Searched next goal (w :: ws) seen r seen₂ where
  subset := fun _ hx => h'.subset (h.subset hx)
  reach x hx := by
    rcases h'.reach x hx with hx | ⟨u, hu, hreach⟩
    · refine (h.reach x hx).imp_right fun ⟨u, hu, hreach⟩ => ?_
      exact ⟨u, List.mem_cons.mpr (.inl (List.mem_singleton.mp hu)), hreach⟩
    · exact .inr ⟨u, List.mem_cons_of_mem w hu, hreach⟩
  found b hb := by
    obtain ⟨u, hu, hx⟩ := h'.found b hb
    exact ⟨u, List.mem_cons_of_mem w hu, hx⟩
  entered hr u hu := by
    rcases List.mem_cons.mp hu with rfl | hu
    · exact h'.subset (h.entered rfl u (List.mem_singleton_self u))
    · exact h'.entered hr u hu
  tried hr x hx := by
    rcases h'.tried hr x hx with hx | hx
    · refine (h.tried rfl x hx).imp_right fun ⟨hgoal, hnext⟩ => ⟨hgoal, fun u hu => ?_⟩
      exact h'.subset (hnext u hu)
    · exact .inr hx

-- A node that is no goal itself, after all of its branches.
theorem Searched.node (hgoal : goal v = none) (h : Searched next goal (next v) (v :: seen) r seen₁) :
    Searched next goal [v] seen r seen₁ where
  subset := fun _ hx => h.subset (List.mem_cons_of_mem v hx)
  reach x hx := by
    rcases h.reach x hx with hx | ⟨w, hw, hreach⟩
    · rcases List.mem_cons.mp hx with rfl | hx
      · exact .inr ⟨x, List.mem_singleton_self x, .refl⟩
      · exact .inl hx
    · exact .inr ⟨v, List.mem_singleton_self v, .head hw hreach⟩
  found b hb := by
    obtain ⟨w, hw, x, hreach, hx⟩ := h.found b hb
    exact ⟨v, List.mem_singleton_self v, x, .head hw hreach, hx⟩
  entered _ w hw := by
    rw [List.mem_singleton.mp hw]
    exact h.subset List.mem_cons_self
  tried hr x hx := by
    rcases h.tried hr x hx with hx | hx
    · rcases List.mem_cons.mp hx with rfl | hx
      · exact .inr ⟨hgoal, h.entered hr⟩
      · exact .inl hx
    · exact .inr hx

theorem Searched.of_mem (h : v ∈ seen) : Searched next goal [v] seen none seen where
  subset := fun _ hx => hx
  reach := fun _ hx => .inl hx
  found := nofun
  entered := fun _ _ hw => List.mem_singleton.mp hw ▸ h
  tried := fun _ _ hx => .inl hx

theorem Searched.of_goal {b : β} (h : goal v = some b) :
    Searched next goal [v] seen (some b) (v :: seen) where
  subset := fun _ hx => List.mem_cons_of_mem v hx
  reach x hx := by
    rcases List.mem_cons.mp hx with rfl | hx
    · exact .inr ⟨x, List.mem_singleton_self x, .refl⟩
    · exact .inl hx
  found b' hb := ⟨v, List.mem_singleton_self v, v, .refl, by rw [h, hb]⟩
  entered := nofun
  tried := nofun

theorem findIn_searched {visit : List α → α → Option (Option β × List α)} {start : List α}
    (hvisit : ∀ w ∈ ws, ∀ seen, start ⊆ seen →
      ∃ r seen', visit seen w = some (r, seen') ∧ Searched next goal [w] seen r seen')
    (hstart : start ⊆ seen) :
    ∃ r seen', findIn visit ws seen = some (r, seen') ∧ Searched next goal ws seen r seen' := by
  induction ws generalizing seen with
  | nil => exact ⟨none, seen, rfl, .nil seen⟩
  | cons w ws ih =>
    obtain ⟨r, seen₁, hw, hsearched⟩ := hvisit w List.mem_cons_self seen hstart
    cases r with
    | some b => exact ⟨some b, seen₁, by rw [findIn, hw]; rfl, hsearched.cons_found⟩
    | none =>
      obtain ⟨r, seen₂, hws, hrest⟩ := ih (fun u hu => hvisit u (List.mem_cons_of_mem w hu))
        (fun _ hx => hsearched.subset (hstart hx))
      exact ⟨r, seen₂, by rw [findIn, hw]; exact hws, hsearched.cons hrest⟩

variable [DecidableEq α]

-- Seeing a new node leaves fewer of them.
theorem card_sdiff_lt {nodes : Finset α} (hv : v ∈ nodes) (hseen : v ∉ seen)
    (hsub : v :: seen ⊆ seen₁) :
    (nodes \ seen₁.toFinset).card < (nodes \ seen.toFinset).card := by
  refine Finset.card_lt_card (Finset.ssubset_iff_of_subset ?_ |>.mpr ⟨v, ?_, ?_⟩)
  · refine Finset.sdiff_subset_sdiff le_rfl fun x hx => ?_
    exact List.mem_toFinset.mpr (hsub (List.mem_cons_of_mem v (List.mem_toFinset.mp hx)))
  · exact Finset.mem_sdiff.mpr ⟨hv, fun h => hseen (List.mem_toFinset.mp h)⟩
  · intro h
    exact (Finset.mem_sdiff.mp h).2 (List.mem_toFinset.mpr (hsub List.mem_cons_self))

-- The induction is on the fuel; each level sees one more of the nodes.
theorem find_searched (nodes : Finset α) (hclosed : ∀ x ∈ nodes, ∀ w ∈ next x, w ∈ nodes)
    {fuel : Nat} (hfuel : (nodes \ seen.toFinset).card < fuel) (hv : v ∈ nodes) :
    ∃ r seen', find next goal fuel seen v = some (r, seen') ∧
      Searched next goal [v] seen r seen' := by
  induction fuel generalizing seen v with
  | zero => exact absurd hfuel (Nat.not_lt_zero _)
  | succ fuel ih =>
    rw [find]
    by_cases hseen : v ∈ seen
    · rw [if_pos hseen]
      exact ⟨none, seen, rfl, .of_mem hseen⟩
    rw [if_neg hseen]
    cases hgoal : goal v with
    | some b => exact ⟨some b, v :: seen, rfl, .of_goal hgoal⟩
    | none =>
      have hcard (seen₁ : List α) (hsub : v :: seen ⊆ seen₁) :
          (nodes \ seen₁.toFinset).card < fuel :=
        (card_sdiff_lt hv hseen hsub).trans_le (Nat.lt_succ_iff.mp hfuel)
      obtain ⟨r, seen', hfind, hsearched⟩ : ∃ r seen',
          findIn (find next goal fuel) (next v) (v :: seen) = some (r, seen') ∧
            Searched next goal (next v) (v :: seen) r seen' :=
        findIn_searched (fun w hw seen₁ hsub => ih (hcard seen₁ hsub) (hclosed v hv w hw))
          (List.Subset.refl (v :: seen))
      exact ⟨r, seen', hfind, hsearched.node hgoal⟩

end Spec

section Exact

variable {next : α → List α} {goal : α → Option β} {v : α} {r : Option β} {seen : List α}

-- A search from the start that finds nothing has been everywhere.
theorem Searched.mem_iff (h : Searched next goal [v] [] none seen) (x : α) :
    x ∈ seen ↔ Reach next v x := by
  constructor
  · intro hx
    rcases h.reach x hx with hx | ⟨w, hw, hreach⟩
    · cases hx
    · rwa [List.mem_singleton.mp hw] at hreach
  · intro hreach
    induction hreach with
    | refl => exact h.entered rfl v (List.mem_singleton_self v)
    | @tail y z _ hz ih =>
      rcases h.tried rfl y ih with hy | ⟨-, hnext⟩
      · cases hy
      · exact hnext z hz

theorem Searched.isSome_iff (h : Searched next goal [v] [] r seen) :
    r.isSome ↔ ∃ x, Reach next v x ∧ (goal x).isSome := by
  constructor
  · intro hr
    obtain ⟨b, rfl⟩ := Option.isSome_iff_exists.mp hr
    obtain ⟨w, hw, x, hreach, hx⟩ := h.found b rfl
    rw [List.mem_singleton.mp hw] at hreach
    exact ⟨x, hreach, by rw [hx]; rfl⟩
  · rintro ⟨x, hreach, hx⟩
    cases r with
    | some b => rfl
    | none =>
      rcases h.tried rfl x ((h.mem_iff x).mpr hreach) with hnil | ⟨hgoal, -⟩
      · cases hnil
      · rw [hgoal] at hx
        cases hx

end Exact

end Platypus.Search
