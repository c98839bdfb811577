import Platypus.Dict.Ordered
import Platypus.Search.Visited

-- The script `ct.py`, which counts the callbacks that a library can be handed through others.

namespace Platypus.Security

section

variable {κ ε : Type} [DecidableEq κ] [DecidableEq ε]

abbrev Memo (κ ε : Type) := Dict κ (Finset ε)

variable (rules : Dict κ κ) (data : Dict κ (Finset ε))

-- `data.get(key, set())`
def table (key : κ) : Finset ε := (data.get? key).getD ∅

-- What the recursion shares: the results so far and the keys that are being visited.
structure Collecting (κ ε : Type) where
  memo : Memo κ ε
  visiting : List κ

-- `none` if the recursion is deeper than `fuel`.
def dfsCollect : Nat → κ → Collecting κ ε → Option (Finset ε × Collecting κ ε)
  | 0, _, _ => none
  | fuel + 1, key, st =>
    match st.memo.get? key with
    | some result => some (result, st)
    | none =>
      if key ∈ st.visiting then some (table data key, st)
      else do
        let st := { st with visiting := key :: st.visiting }
        let (result, st) ←
          match rules.get? key with
          | some src => do
            let (collected, st) ← dfsCollect fuel src st
            pure (table data key ∪ collected, st)
          | none => pure (table data key, st)
        pure (result, ⟨st.memo.set key result, st.visiting.erase key⟩)

-- The queries of `main`, one after the other with one memo.
def collectAll (fuel : Nat) : List κ → Memo κ ε → Option (List (κ × Finset ε))
  | [], _ => some []
  | key :: keys, memo => do
    let (result, st) ← dfsCollect rules data fuel key ⟨memo, []⟩
    let results ← collectAll fuel keys st.memo
    pure ((key, result) :: results)

-- The key that a key is followed by.
def sources (key : κ) : List κ := (rules.get? key).toList

-- The tables of all keys that are reached.
def Collected (key : κ) (e : ε) : Prop :=
  ∃ k, Search.Reach (sources rules) key k ∧ e ∈ table data k

-- What the function is for. A chain of keys without repetitions is no longer than the map.
def Exact : Prop :=
  ∀ queries, ∃ results,
    collectAll rules data (rules.keys.length + 1) queries .empty = some results ∧
      results.map Prod.fst = queries ∧
        ∀ q ∈ results, ∀ e, e ∈ q.2 ↔ Collected rules data q.1 e

def Leads : κ → κ → Prop := Relation.TransGen fun k k' => k' ∈ sources rules k

-- On a cycle every table is within those of any two neighbours.
def NeighboursCover : Prop :=
  ∀ key src, Leads rules key key → rules.get? key = some src → ∀ e, Collected rules data key e →
    e ∈ table data key ∨ e ∈ table data src

variable {rules data}

theorem mem_sources {key src : κ} : src ∈ sources rules key ↔ rules.get? key = some src := by
  rw [sources, Option.mem_toList]

omit [DecidableEq ε] in
theorem collected_iff {key : κ} {e : ε} : Collected rules data key e ↔
    e ∈ table data key ∨ ∃ src, rules.get? key = some src ∧ Collected rules data src e := by
  constructor
  · rintro ⟨k, hreach, he⟩
    rcases Relation.ReflTransGen.cases_head hreach with rfl | ⟨src, hsrc, hreach⟩
    · exact .inl he
    · exact .inr ⟨src, mem_sources.mp hsrc, k, hreach, he⟩
  · rintro (he | ⟨src, hsrc, k, hreach, he⟩)
    · exact ⟨key, .refl, he⟩
    · exact ⟨k, .head (mem_sources.mpr hsrc) hreach, he⟩

-- The four ways through the function.

section Cases

variable {fuel : Nat} {key src : κ} {st st' : Collecting κ ε} {collected : Finset ε}

theorem dfsCollect_memo {result : Finset ε} (h : st.memo.get? key = some result) :
    dfsCollect rules data (fuel + 1) key st = some (result, st) := by
  rw [dfsCollect, h]

theorem dfsCollect_visiting (hmemo : st.memo.get? key = none) (h : key ∈ st.visiting) :
    dfsCollect rules data (fuel + 1) key st = some (table data key, st) := by
  rw [dfsCollect, hmemo]
  exact if_pos h

theorem dfsCollect_leaf (hmemo : st.memo.get? key = none) (h : key ∉ st.visiting)
    (hrule : rules.get? key = none) : dfsCollect rules data (fuel + 1) key st =
      some (table data key, ⟨st.memo.set key (table data key), st.visiting⟩) := by
  rw [dfsCollect, hmemo, hrule]
  simp [h]

theorem dfsCollect_src (hmemo : st.memo.get? key = none) (h : key ∉ st.visiting)
    (hrule : rules.get? key = some src)
    (hsrc : dfsCollect rules data fuel src ⟨st.memo, key :: st.visiting⟩ = some (collected, st')) :
    dfsCollect rules data (fuel + 1) key st =
      some (table data key ∪ collected,
        ⟨st'.memo.set key (table data key ∪ collected), st'.visiting.erase key⟩) := by
  rw [dfsCollect, hmemo, hrule]
  simp [h, hsrc]

end Cases

-- Every result that is kept is complete.
def MemoExact (rules : Dict κ κ) (data : Dict κ (Finset ε)) (memo : Memo κ ε) : Prop :=
  ∀ key result, memo.get? key = some result → ∀ e, e ∈ result ↔ Collected rules data key e

omit [DecidableEq ε] in
theorem MemoExact.set {memo : Memo κ ε} (h : MemoExact rules data memo) {key : κ}
    {result : Finset ε} (hresult : ∀ e, e ∈ result ↔ Collected rules data key e) :
    MemoExact rules data (memo.set key result) := by
  intro k r hk
  by_cases hkey : k = key
  · subst hkey
    rw [Dict.get?_set_self] at hk
    cases hk
    exact hresult
  · rw [memo.get?_set_of_ne _ hkey] at hk
    exact h k r hk

-- The keys that are being visited lead to the one that is asked for next.
omit [DecidableEq ε] in
theorem leads_cons {key src : κ} {visiting : List κ} (h : ∀ k ∈ visiting, Leads rules k key)
    (hrule : rules.get? key = some src) : ∀ k ∈ key :: visiting, Leads rules k src := by
  intro k hk
  rcases List.mem_cons.mp hk with rfl | hk
  · exact .single (mem_sources.mpr hrule)
  · exact (h k hk).tail (mem_sources.mpr hrule)

-- The table of the successor is enough on a cycle.
theorem mem_union_iff (hcover : NeighboursCover rules data) {key src : κ}
    (hrule : rules.get? key = some src) {collected : Finset ε}
    (h : (∀ e, e ∈ collected ↔ Collected rules data src e) ∨
      Leads rules key key ∧ collected = table data src) (e : ε) :
    e ∈ table data key ∪ collected ↔ Collected rules data key e := by
  rw [Finset.mem_union]
  rcases h with hcollected | ⟨hcycle, rfl⟩
  · rw [collected_iff, hrule, hcollected]
    simp
  · refine ⟨fun he => ?_, hcover key src hcycle hrule e⟩
    refine collected_iff.mpr (he.imp_right fun he => ⟨src, hrule, ?_⟩)
    exact collected_iff.mpr (.inl he)

-- A key that is being visited answers with its own table only. Its caller is on a cycle then, and
-- has a complete answer nevertheless.
theorem dfsCollect_exact (hcover : NeighboursCover rules data) {fuel : Nat} (key : κ)
    (st : Collecting κ ε)
    (hfuel : (rules.keys.toFinset \ st.visiting.toFinset).card < fuel)
    (hmemo : MemoExact rules data st.memo) (hvisiting : ∀ k ∈ st.visiting, Leads rules k key) :
    ∃ result st', dfsCollect rules data fuel key st = some (result, st') ∧
      MemoExact rules data st'.memo ∧ st'.visiting = st.visiting ∧
        ((∀ e, e ∈ result ↔ Collected rules data key e) ∨
          key ∈ st.visiting ∧ result = table data key) := by
  induction fuel generalizing key st with
  | zero => exact absurd hfuel (Nat.not_lt_zero _)
  | succ fuel ih =>
    cases hget : st.memo.get? key with
    | some result =>
      exact ⟨result, st, dfsCollect_memo hget, hmemo, rfl, .inl (hmemo key result hget)⟩
    | none =>
      by_cases hvis : key ∈ st.visiting
      · exact ⟨_, st, dfsCollect_visiting hget hvis, hmemo, rfl, .inr ⟨hvis, rfl⟩⟩
      cases hrule : rules.get? key with
      | none =>
        have hleaf (e : ε) : e ∈ table data key ↔ Collected rules data key e := by
          rw [collected_iff, hrule]
          simp
        exact ⟨_, _, dfsCollect_leaf hget hvis hrule, hmemo.set hleaf, rfl, .inl hleaf⟩
      | some src =>
        have hkey : key ∈ rules.keys.toFinset :=
          List.mem_toFinset.mpr (List.mem_map.mpr ⟨_, rules.mem_of_get? hrule, rfl⟩)
        have hcard := (Search.card_sdiff_lt hkey hvis (List.Subset.refl _)).trans_le
          (Nat.lt_succ_iff.mp hfuel)
        obtain ⟨collected, st', hsrc, hmemo', hvis', hcollected⟩ :=
          ih src ⟨st.memo, key :: st.visiting⟩ hcard hmemo (leads_cons hvisiting hrule)
        have hcycle (hmem : src ∈ key :: st.visiting) : Leads rules key key := by
          rcases List.mem_cons.mp hmem with rfl | hmem
          · exact .single (mem_sources.mpr hrule)
          · exact .head (mem_sources.mpr hrule) (hvisiting src hmem)
        have hresult := mem_union_iff hcover hrule
          (hcollected.imp_right fun h => ⟨hcycle h.1, h.2⟩)
        refine ⟨_, _, dfsCollect_src hget hvis hrule hsrc, hmemo'.set hresult, ?_,
          .inl hresult⟩
        rw [hvis', List.erase_cons_head]

theorem collectAll_exact (hcover : NeighboursCover rules data) (queries : List κ)
    {memo : Memo κ ε} (hmemo : MemoExact rules data memo) :
    ∃ results, collectAll rules data (rules.keys.length + 1) queries memo = some results ∧
      results.map Prod.fst = queries ∧
        ∀ q ∈ results, ∀ e, e ∈ q.2 ↔ Collected rules data q.1 e := by
  induction queries generalizing memo with
  | nil => exact ⟨[], rfl, rfl, nofun⟩
  | cons key queries ih =>
    have hfuel : (rules.keys.toFinset \ ([] : List κ).toFinset).card < rules.keys.length + 1 := by
      simpa using Nat.lt_succ_of_le (List.toFinset_card_le rules.keys)
    obtain ⟨result, st, hkey, hmemo', -, hresult⟩ :=
      dfsCollect_exact hcover key ⟨memo, []⟩ hfuel hmemo nofun
    obtain ⟨results, hqueries, hfst, hresults⟩ := ih hmemo'
    refine ⟨(key, result) :: results, ?_, by rw [List.map_cons, hfst], ?_⟩
    · rw [collectAll, hkey]
      simp [hqueries]
    · intro q hq
      rcases List.mem_cons.mp hq with rfl | hq
      · exact hresult.resolve_right fun h => List.not_mem_nil h.1
      · exact hresults q hq

-- Keys that only lead on to themselves and to `key` do not lead to `last`.
theorem not_mem_of_reach {key last : κ} {visiting : List κ}
    (hclosed : ∀ k ∈ visiting, ∀ k', rules.get? k = some k' → k' ∈ key :: visiting)
    (hlast : last ∉ visiting) (hreach : Search.Reach (sources rules) key last) :
    key ∉ visiting := by
  intro hmem
  have hin : ∀ k, Search.Reach (sources rules) key k → k ∈ visiting := by
    intro k hk
    induction hk with
    | refl => exact hmem
    | tail _ hstep ih =>
      rcases List.mem_cons.mp (hclosed _ ih _ (mem_sources.mp hstep)) with rfl | h
      · exact hmem
      · exact h
  exact hlast (hin last hreach)

theorem closed_cons {key src : κ} {visiting : List κ}
    (h : ∀ k ∈ visiting, ∀ k', rules.get? k = some k' → k' ∈ key :: visiting)
    (hrule : rules.get? key = some src) :
    ∀ k ∈ key :: visiting, ∀ k', rules.get? k = some k' → k' ∈ src :: key :: visiting := by
  intro k hk k' hk'
  rcases List.mem_cons.mp hk with rfl | hk
  · rw [hrule] at hk'
    cases hk'
    exact List.mem_cons_self
  · exact List.mem_cons_of_mem src (h k hk k' hk')

-- The first query goes from `first` through the keys `visiting` to `key` and on to `last`, where the
-- cycle closes. What it keeps for `last` are two tables.
theorem dfsCollect_last {first last : κ} (hrule : rules.get? last = some first) {fuel : Nat}
    {key : κ} {st st' : Collecting κ ε} {result : Finset ε} (hmemo : st.memo = .empty)
    (hclosed : ∀ k ∈ st.visiting, ∀ k', rules.get? k = some k' → k' ∈ key :: st.visiting)
    (hfirst : first ∈ key :: st.visiting) (hlast : last ∉ st.visiting)
    (hreach : Search.Reach (sources rules) key last)
    (h : dfsCollect rules data fuel key st = some (result, st')) :
    st'.memo.get? last = some (table data last ∪ table data first) := by
  induction fuel generalizing key st st' result with
  | zero => cases h
  | succ fuel ih =>
    have hget (k : κ) : st.memo.get? k = none := by rw [hmemo]; rfl
    have hvis : key ∉ st.visiting := not_mem_of_reach hclosed hlast hreach
    by_cases hkey : key = last
    · subst hkey
      cases fuel with
      | zero => simp [dfsCollect, hget, hvis, hrule] at h
      | succ fuel =>
        have hstop : dfsCollect rules data (fuel + 1) first ⟨st.memo, key :: st.visiting⟩ =
            some (table data first, ⟨st.memo, key :: st.visiting⟩) :=
          dfsCollect_visiting (hget first) hfirst
        rw [dfsCollect_src (hget key) hvis hrule hstop] at h
        cases h
        exact Dict.get?_set_self _ _ _
    · rcases Relation.ReflTransGen.cases_head hreach with heq | ⟨src, hsrc, hreach'⟩
      · exact absurd heq hkey
      have hsrc' := mem_sources.mp hsrc
      cases hcall : dfsCollect rules data fuel src ⟨st.memo, key :: st.visiting⟩ with
      | none => simp [dfsCollect, hget, hvis, hsrc', hcall] at h
      | some r =>
        obtain ⟨collected, st₁⟩ := r
        have hlast' : last ∉ key :: st.visiting := by
          rw [List.mem_cons, not_or]
          exact ⟨Ne.symm hkey, hlast⟩
        have hih := @ih src ⟨st.memo, key :: st.visiting⟩ st₁ collected hmemo
          (closed_cons hclosed hsrc')
          (List.mem_cons_of_mem src hfirst) hlast' hreach' hcall
        rw [dfsCollect_src (hget key) hvis hsrc' hcall] at h
        cases h
        exact (Dict.get?_set_of_ne _ _ (Ne.symm hkey)).trans hih

-- Asking for the successor of a key first shows what is missing.
theorem neighboursCover_of_exact (h : Exact rules data) : NeighboursCover rules data := by
  intro key src hcycle hrule e he
  obtain ⟨results, hall, -, hresults⟩ := h [src, key]
  have hreach : Search.Reach (sources rules) src key := by
    obtain ⟨k, hk, hreach⟩ := Relation.TransGen.head'_iff.mp hcycle
    rw [mem_sources, hrule] at hk
    cases hk
    exact hreach
  simp only [collectAll, Option.bind_eq_bind, Option.bind_eq_some_iff] at hall
  obtain ⟨⟨result, st⟩, hfirst, results', ⟨⟨result', st'⟩, hsecond, hrest⟩, hresults'⟩ := hall
  have hkept : st.memo.get? key = some (table data key ∪ table data src) := by
    refine dfsCollect_last hrule rfl ?_ List.mem_cons_self List.not_mem_nil hreach hfirst
    nofun
  have hmemo : dfsCollect rules data (rules.keys.length + 1) key ⟨st.memo, []⟩ =
      some (table data key ∪ table data src, ⟨st.memo, []⟩) := dfsCollect_memo hkept
  rw [hmemo] at hsecond
  cases hsecond
  obtain ⟨_, hnil, hrest⟩ := hrest
  cases hnil
  cases hrest
  cases hresults'
  have hexact := hresults (key, table data key ∪ table data src)
    (List.mem_cons_of_mem _ List.mem_cons_self) e
  exact Finset.mem_union.mp (hexact.mpr he)

theorem exact_iff (rules : Dict κ κ) (data : Dict κ (Finset ε)) :
    Exact rules data ↔ NeighboursCover rules data := by
  constructor
  · exact neighboursCover_of_exact
  · intro hcover queries
    refine collectAll_exact hcover queries ?_
    intro key result hkey
    cases hkey

end

-- Three libraries that hand their callbacks round, each with one of its own.

def ringRules : Dict Nat Nat := ⟨[(0, 1), (1, 2), (2, 0)], by decide⟩

def ringData : Dict Nat (Finset Nat) := ⟨[(0, {10}), (1, {11}), (2, {12})], by decide⟩

example : collectAll ringRules ringData 4 [0, 1, 2] .empty =
    some [(0, {10, 11, 12}), (1, {10, 11, 12}), (2, {10, 12})] := by decide

theorem ring_not_exact : ¬ Exact ringRules ringData := by
  intro h
  obtain ⟨results, hall, -, hresults⟩ := h [0, 2]
  have hrun : collectAll ringRules ringData (ringRules.keys.length + 1) [0, 2] .empty =
      some [(0, {10, 11, 12}), (2, {10, 12})] := by decide
  rw [hrun, Option.some_inj] at hall
  subst hall
  have hreach : Search.Reach (sources ringRules) 2 1 :=
    .head (mem_sources.mpr (by decide : ringRules.get? 2 = some 0))
      (.single (mem_sources.mpr (by decide : ringRules.get? 0 = some 1)))
  have hmissing := (hresults (2, {10, 12}) (by simp) 11).mpr ⟨1, hreach, by decide⟩
  revert hmissing
  decide

end Platypus.Security
