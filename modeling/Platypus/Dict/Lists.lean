import Platypus.Dict.Ordered

namespace Platypus.Dict

section Values

variable {κ α : Type} [DecidableEq κ] [DecidableEq α]

-- A dictionary of lists without repetitions; a new key gets a list of its own.
def insertOnce (d : Dict κ (List α)) (k : κ) (a : α) : Dict κ (List α) :=
  match d.get? k with
  | none => d.set k [a]
  | some as => if a ∈ as then d else d.set k (as ++ [a])

theorem mem_insertOnce (d : Dict κ (List α)) (k k' : κ) (a b : α) :
    b ∈ ((d.insertOnce k a).get? k').getD [] ↔ b ∈ (d.get? k').getD [] ∨ k = k' ∧ b = a := by
  unfold insertOnce
  by_cases hk : k' = k
  · subst hk
    cases hd : d.get? k' with
    | none => simp
    | some as =>
      by_cases ha : a ∈ as
      · simp only [if_pos ha, hd, Option.getD_some, true_and]
        exact ⟨.inl, fun h => h.elim id (· ▸ ha)⟩
      · simp [if_neg ha]
  · have hne : k ≠ k' := Ne.symm hk
    cases d.get? k with
    | none => simp [d.get?_set_of_ne _ hk, hne]
    | some as =>
      dsimp only
      split
      · simp [hne]
      · simp [d.get?_set_of_ne _ hk, hne]

theorem mem_keys_insertOnce (d : Dict κ (List α)) (k k' : κ) (a : α) :
    k' ∈ (d.insertOnce k a).keys ↔ k' = k ∨ k' ∈ d.keys := by
  have hold {as : List α} (hd : d.get? k = some as) : k' ∈ d.keys ↔ k' = k ∨ k' ∈ d.keys := by
    refine ⟨.inr, fun h => h.elim ?_ id⟩
    rintro rfl
    exact List.mem_map.mpr ⟨_, d.mem_of_get? hd, rfl⟩
  unfold insertOnce
  cases hd : d.get? k with
  | none => exact d.mem_keys_set k k' _
  | some as =>
    dsimp only
    split
    · exact hold hd
    · exact d.mem_keys_set k k' _

end Values

section Rows

variable {κ ν α : Type} [DecidableEq κ]

-- The entries of the rows, a later one in place of an earlier one.
def ofRows (row : α → Option (κ × ν)) (xs : List α) : Dict κ ν :=
  xs.foldl (fun d x => match row x with
    | none => d
    | some (k, v) => d.set k v) .empty

theorem ofRows_append_singleton (row : α → Option (κ × ν)) (xs : List α) (x : α) :
    ofRows row (xs ++ [x]) =
      match row x with
      | none => ofRows row xs
      | some (k, v) => (ofRows row xs).set k v := by
  simp [ofRows]

-- Where the rows of one key agree, the dictionary is the list of the rows.
theorem get?_ofRows_iff {row : α → Option (κ × ν)} {xs : List α} {k : κ}
    (h : ∀ x ∈ xs, ∀ y ∈ xs, ∀ v w, row x = some (k, v) → row y = some (k, w) → v = w) {v : ν} :
    (ofRows row xs).get? k = some v ↔ ∃ x ∈ xs, row x = some (k, v) := by
  induction xs using List.reverseRecOn with
  | nil => simp [ofRows, get?, empty, find]
  | append_singleton xs x ih =>
    have hxs := ih fun x hx y hy => h x (List.mem_append_left _ hx) y (List.mem_append_left _ hy)
    have hx : x ∈ xs ++ [x] := List.mem_append_right _ (List.mem_singleton_self x)
    rw [ofRows_append_singleton]
    cases hrow : row x with
    | none => simp [hxs, hrow, or_and_right, exists_or]
    | some e =>
      obtain ⟨k', v'⟩ := e
      by_cases hk : k = k'
      · subst hk
        rw [get?_set_self, Option.some_inj]
        constructor
        · rintro rfl
          exact ⟨x, hx, hrow⟩
        · rintro ⟨y, hy, hv⟩
          exact h x hx y hy _ _ hrow hv
      · have hne : (k', v') ≠ (k, v) := fun heq => hk (Prod.ext_iff.mp heq).1.symm
        rw [get?_set_of_ne _ _ hk, hxs]
        simp [or_and_right, exists_or, hrow, hne]

-- A fold that sets every key takes the last value of each.
theorem get?_foldl_set (f : α → κ) (g : α → ν) (xs : List α) (d : Dict κ ν) (k : κ) :
    (xs.foldl (fun d x => d.set (f x) (g x)) d).get? k =
      ((xs.filter fun x => f x = k).getLast?.map g).or (d.get? k) := by
  induction xs generalizing d with
  | nil => simp
  | cons x xs ih =>
    rw [List.foldl_cons, ih]
    by_cases hx : f x = k
    · rw [List.filter_cons_of_pos (by simp [hx]), ← hx, get?_set_self, List.getLast?_cons]
      cases (xs.filter fun y => f y = f x).getLast? <;> simp
    · rw [List.filter_cons_of_neg (by simp [hx]), d.get?_set_of_ne _ (Ne.symm hx)]

theorem put_of_not_mem {es : List (κ × ν)} {e : κ × ν} (h : e.1 ∉ es.map Prod.fst) :
    put es e.1 e.2 = es ++ [e] := by
  induction es with
  | nil => rfl
  | cons e₀ es ih =>
    rw [List.map_cons, List.mem_cons, not_or] at h
    rw [put, if_neg (Ne.symm h.1), ih h.2, List.cons_append]

-- New keys come behind the old ones.
theorem foldl_set_entries (es : List (κ × ν)) (d : Dict κ ν)
    (h : ((d.entries ++ es).map Prod.fst).Nodup) :
    (es.foldl (fun d e => d.set e.1 e.2) d).entries = d.entries ++ es := by
  induction es generalizing d with
  | nil => rw [List.foldl_nil, List.append_nil]
  | cons e es ih =>
    have hset : (d.set e.1 e.2).entries = d.entries ++ [e] := by
      refine put_of_not_mem ?_
      rw [List.map_append, List.map_cons] at h
      exact fun hmem => (List.nodup_append.mp h).2.2 _ hmem _ List.mem_cons_self rfl
    have hnodup : (((d.set e.1 e.2).entries ++ es).map Prod.fst).Nodup := by
      rwa [hset, List.append_assoc, List.singleton_append]
    rw [List.foldl_cons, ih _ hnodup, hset, List.append_assoc, List.singleton_append]

end Rows

end Platypus.Dict
