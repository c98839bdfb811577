import Mathlib

namespace Platypus

-- A dictionary that keeps the order in which its keys were first set.
structure Dict (κ ν : Type) where
  entries : List (κ × ν)
  nodup : (entries.map Prod.fst).Nodup

namespace Dict

variable {κ ν : Type}

def empty : Dict κ ν := ⟨[], List.nodup_nil⟩

def keys (d : Dict κ ν) : List κ := d.entries.map Prod.fst

variable [DecidableEq κ]

def find : List (κ × ν) → κ → Option ν
  | [], _ => none
  | (k, v) :: es, k' => if k = k' then some v else find es k'

def get? (d : Dict κ ν) (k : κ) : Option ν := find d.entries k

def put : List (κ × ν) → κ → ν → List (κ × ν)
  | [], k', v' => [(k', v')]
  | (k, v) :: es, k', v' => if k = k' then (k, v') :: es else (k, v) :: put es k' v'

theorem mem_keys_put (es : List (κ × ν)) (k k' : κ) (v : ν) :
    k' ∈ (put es k v).map Prod.fst ↔ k' = k ∨ k' ∈ es.map Prod.fst := by
  induction es with
  | nil => simp [put]
  | cons e es ih =>
    obtain ⟨k₀, v₀⟩ := e
    by_cases h : k₀ = k
    · subst h
      simp [put]
    · simp only [put, if_neg h, List.map_cons, List.mem_cons, ih]
      tauto

theorem nodup_put (es : List (κ × ν)) (k : κ) (v : ν) (h : (es.map Prod.fst).Nodup) :
    ((put es k v).map Prod.fst).Nodup := by
  induction es with
  | nil => simp [put]
  | cons e es ih =>
    obtain ⟨k₀, v₀⟩ := e
    rw [List.map_cons, List.nodup_cons] at h
    by_cases hk : k₀ = k
    · simp only [put, if_pos hk, List.map_cons, List.nodup_cons]
      exact h
    · simp only [put, if_neg hk, List.map_cons, List.nodup_cons, mem_keys_put, not_or]
      exact ⟨⟨hk, h.1⟩, ih h.2⟩

def set (d : Dict κ ν) (k : κ) (v : ν) : Dict κ ν := ⟨put d.entries k v, nodup_put _ _ _ d.nodup⟩

theorem mem_keys_set (d : Dict κ ν) (k k' : κ) (v : ν) :
    k' ∈ (d.set k v).keys ↔ k' = k ∨ k' ∈ d.keys := mem_keys_put _ _ _ _

theorem find_put_self (es : List (κ × ν)) (k : κ) (v : ν) : find (put es k v) k = some v := by
  induction es with
  | nil => simp [put, find]
  | cons e es ih =>
    obtain ⟨k₀, v₀⟩ := e
    by_cases h : k₀ = k
    · simp [put, find, h]
    · simp [put, find, h, ih]

theorem find_put_of_ne (es : List (κ × ν)) {k k' : κ} (v : ν) (h : k' ≠ k) :
    find (put es k v) k' = find es k' := by
  induction es with
  | nil => simp [put, find, h.symm]
  | cons e es ih =>
    obtain ⟨k₀, v₀⟩ := e
    by_cases hk : k₀ = k
    · subst hk
      simp [put, find, h.symm]
    · simp [put, find, hk, ih]

@[simp] theorem get?_set_self (d : Dict κ ν) (k : κ) (v : ν) : (d.set k v).get? k = some v :=
  find_put_self _ _ _

theorem get?_set_of_ne (d : Dict κ ν) {k k' : κ} (v : ν) (h : k' ≠ k) :
    (d.set k v).get? k' = d.get? k' := find_put_of_ne _ _ h

theorem find_isSome (es : List (κ × ν)) (k : κ) :
    (find es k).isSome ↔ k ∈ es.map Prod.fst := by
  induction es with
  | nil => simp [find]
  | cons e es ih =>
    obtain ⟨k₀, v₀⟩ := e
    by_cases h : k₀ = k
    · simp [find, h]
    · simp only [find, if_neg h, ih, List.map_cons, List.mem_cons]
      exact ⟨.inr, fun h' => h'.resolve_left (Ne.symm h)⟩

theorem get?_eq_none_iff (d : Dict κ ν) {k : κ} : d.get? k = none ↔ k ∉ d.keys := by
  rw [← Option.not_isSome_iff_eq_none, get?, find_isSome]
  exact Iff.rfl

theorem find_of_mem (es : List (κ × ν)) (h : (es.map Prod.fst).Nodup) {k : κ} {v : ν}
    (hmem : (k, v) ∈ es) : find es k = some v := by
  induction es with
  | nil => exact absurd hmem List.not_mem_nil
  | cons e es ih =>
    obtain ⟨k₀, v₀⟩ := e
    rw [List.map_cons, List.nodup_cons] at h
    rw [List.mem_cons, Prod.mk.injEq] at hmem
    rcases hmem with ⟨rfl, rfl⟩ | hmem
    · exact if_pos rfl
    · have hne : k₀ ≠ k := by
        rintro rfl
        exact h.1 (List.mem_map.mpr ⟨_, hmem, rfl⟩)
      rw [find, if_neg hne]
      exact ih h.2 hmem

theorem get?_of_mem (d : Dict κ ν) {k : κ} {v : ν} (h : (k, v) ∈ d.entries) :
    d.get? k = some v := find_of_mem _ d.nodup h

theorem mem_of_find (es : List (κ × ν)) {k : κ} {v : ν} (h : find es k = some v) : (k, v) ∈ es := by
  induction es with
  | nil => cases h
  | cons e es ih =>
    obtain ⟨k₀, v₀⟩ := e
    rw [find] at h
    split at h
    · subst ‹k₀ = k›
      cases h
      exact List.mem_cons_self
    · exact List.mem_cons_of_mem _ (ih h)

theorem mem_of_get? (d : Dict κ ν) {k : κ} {v : ν} (h : d.get? k = some v) : (k, v) ∈ d.entries :=
  mem_of_find _ h

theorem mem_put (es : List (κ × ν)) {k : κ} {v : ν} {e : κ × ν} (h : e ∈ put es k v) :
    e = (k, v) ∨ e ∈ es := by
  induction es with
  | nil => exact .inl (List.mem_singleton.mp h)
  | cons e₀ es ih =>
    obtain ⟨k₀, v₀⟩ := e₀
    rw [put] at h
    split at h
    · subst ‹k₀ = k›
      rcases List.mem_cons.mp h with h | h
      · exact .inl h
      · exact .inr (List.mem_cons_of_mem _ h)
    · rcases List.mem_cons.mp h with h | h
      · exact .inr (h ▸ List.mem_cons_self)
      · exact (ih h).imp_right (List.mem_cons_of_mem _)

theorem mem_set (d : Dict κ ν) {k : κ} {v : ν} {e : κ × ν} (h : e ∈ (d.set k v).entries) :
    e = (k, v) ∨ e ∈ d.entries := mem_put _ h

theorem mem_keys_of_get? (d : Dict κ ν) {k : κ} {v : ν} (h : d.get? k = some v) : k ∈ d.keys :=
  List.mem_map_of_mem (d.mem_of_get? h)

-- A key has one value.
theorem eq_of_mem (d : Dict κ ν) {k : κ} {v v' : ν} (h : (k, v) ∈ d.entries)
    (h' : (k, v') ∈ d.entries) : v = v' := by
  have hsome := d.get?_of_mem h
  rw [d.get?_of_mem h', Option.some_inj] at hsome
  exact hsome.symm

def filter (p : κ × ν → Bool) (d : Dict κ ν) : Dict κ ν where
  entries := d.entries.filter p
  nodup := d.nodup.sublist (List.filter_sublist.map Prod.fst)

section Map

variable {μ : Type} (f : ν → μ)

def mapValues (d : Dict κ ν) : Dict κ μ where
  entries := d.entries.map fun e => (e.1, f e.2)
  nodup := by
    rw [List.map_map]
    exact d.nodup

theorem find_map (es : List (κ × ν)) (k : κ) :
    find (es.map fun e => (e.1, f e.2)) k = (find es k).map f := by
  induction es with
  | nil => rfl
  | cons e es ih =>
    simp only [List.map_cons, find]
    split
    · rfl
    · exact ih

@[simp] theorem get?_mapValues (d : Dict κ ν) (k : κ) :
    (d.mapValues f).get? k = (d.get? k).map f := find_map f _ _

end Map

end Dict

-- `list(dict.fromkeys(xs))`: the elements in the order of their first occurrence.
def fromkeys {α : Type} [DecidableEq α] (xs : List α) : List α := xs.eraseDups

theorem mem_fromkeys {α : Type} [DecidableEq α] {x : α} {xs : List α} :
    x ∈ fromkeys xs ↔ x ∈ xs := List.mem_eraseDups

theorem nodup_fromkeys {α : Type} [DecidableEq α] (xs : List α) : (fromkeys xs).Nodup := by
  unfold fromkeys
  induction h : xs.length using Nat.strongRecOn generalizing xs with
  | ind n ih =>
    cases xs with
    | nil => simp
    | cons x xs =>
      rw [List.eraseDups_cons, List.nodup_cons]
      constructor
      · simp [List.mem_eraseDups]
      · have hle := List.length_filter_le (fun b => !b == x) xs
        exact ih _ (by simp only [List.length_cons] at h; omega) _ rfl

theorem fromkeys_eq_nil {α : Type} [DecidableEq α] (xs : List α) : fromkeys xs = [] ↔ xs = [] := by
  constructor
  · intro h
    rw [List.eq_nil_iff_forall_not_mem]
    intro x hx
    exact absurd (mem_fromkeys.mpr hx) (by simp [h])
  · rintro rfl
    rfl

end Platypus
