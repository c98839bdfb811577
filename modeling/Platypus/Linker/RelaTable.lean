import Platypus.Linker.RelaDyn

-- The order of the relocations in `.rela.dyn`.

namespace Platypus.Linker

-- With `-z combreloc` the relative relocations go first, and their number is kept.
def partitionRels (combreloc : Bool) (relocs : List DynamicReloc) : List DynamicReloc × Nat :=
  if combreloc then
    (relocs.filter (fun r => r.type = .R_X86_64_RELATIVE) ++
        relocs.filter (fun r => r.type ≠ .R_X86_64_RELATIVE),
      (relocs.filter fun r => r.type = .R_X86_64_RELATIVE).length)
  else (relocs, 0)

section Table

variable (cfg : Config) (c : Ctx) (symIndex : SymId → Nat)

def RawReloc.index (r : RawReloc) : Nat := (r.r_sym.map symIndex).getD 0

abbrev offsetLe (a b : RawReloc) : Prop := a.r_offset ≤ b.r_offset

abbrev symIndexLe (a b : RawReloc) : Prop :=
  a.index symIndex < b.index symIndex ∨ a.index symIndex = b.index symIndex ∧ offsetLe a b

-- The IRELATIVE relocations go last. Only the others are sorted, by the index of their symbol and
-- their offset; the order of equal ones is not fixed by the source.
def sortRels (combreloc : Bool) (raws : List RawReloc) (numRelativeRelocs : Nat) : List RawReloc :=
  let relative := raws.take numRelativeRelocs
  let others := (raws.drop numRelativeRelocs).filter fun r => r.type ≠ .R_X86_64_IRELATIVE
  let irelative := (raws.drop numRelativeRelocs).filter fun r => r.type = .R_X86_64_IRELATIVE
  if combreloc then
    relative.insertionSort offsetLe ++ (others.insertionSort (symIndexLe symIndex) ++ irelative)
  else relative ++ (others ++ irelative)

-- `.rela.dyn` with the number of its relative relocations, which DT_RELACOUNT has.
def computeRelaDyn (combreloc : Bool) : Option (List RawReloc × Nat) :=
  let parts := partitionRels combreloc c.relaDyn
  (parts.1.mapM (computeRaw cfg c)).map fun raws =>
    (sortRels symIndex combreloc raws parts.2, parts.2)

-- `computeRaw` for the relocations of `.rela.plt`.
def computeRawPlt (r : DynamicReloc) : RawReloc :=
  ⟨cfg.va r.inputSec + r.offsetInSec, r.type, getSymIndex c r, computeAddend cfg c r⟩

def computeRelaPlt : List RawReloc := (computeRels c.relaPlt).map (computeRawPlt cfg c)

end Table

theorem computeRaw_place {cfg : Config} {c : Ctx} {r : DynamicReloc} {raw : RawReloc}
    (h : computeRaw cfg c r = some raw) :
    raw.type = r.type ∧ raw.r_offset = cfg.va r.inputSec + r.offsetInSec := by
  unfold computeRaw at h
  cases hsym : r.sym with
  | none =>
    rw [hsym] at h
    cases h
    exact ⟨rfl, rfl⟩
  | some s =>
    rw [hsym] at h
    dsimp only at h
    split at h
    · obtain ⟨i, -, rfl⟩ := Option.map_eq_some_iff.mp h
      exact ⟨rfl, rfl⟩
    · repeat' split at h
      all_goals
        cases h
        exact ⟨rfl, rfl⟩

theorem mapM_eq_filterMap {α β : Type} {f : α → Option β} {xs : List α} {ys : List β}
    (h : xs.mapM f = some ys) : ys = xs.filterMap f ∧ ∀ x ∈ xs, (f x).isSome := by
  induction xs generalizing ys with
  | nil =>
    cases h
    exact ⟨rfl, by simp⟩
  | cons x xs ih =>
    rw [List.mapM_cons] at h
    obtain ⟨y, hy, h⟩ := Option.bind_eq_some_iff.mp h
    obtain ⟨zs, hzs, h⟩ := Option.bind_eq_some_iff.mp h
    cases h
    obtain ⟨rfl, hsome⟩ := ih hzs
    refine ⟨by rw [List.filterMap_cons, hy], fun x' hx' => ?_⟩
    rcases List.mem_cons.mp hx' with rfl | hx'
    · rw [hy]
      rfl
    · exact hsome x' hx'

theorem partitionRels_perm (combreloc : Bool) (relocs : List DynamicReloc) :
    (partitionRels combreloc relocs).1.Perm relocs := by
  unfold partitionRels
  split
  · simp only [ne_eq, decide_not]
    exact List.filter_append_perm _ relocs
  · exact List.Perm.refl _

theorem sortRels_perm (symIndex : SymId → Nat) (combreloc : Bool) (raws : List RawReloc) (n : Nat) :
    (sortRels symIndex combreloc raws n).Perm raws := by
  have hparts : (raws.take n ++ ((raws.drop n).filter (fun r => r.type ≠ .R_X86_64_IRELATIVE) ++
      (raws.drop n).filter fun r => r.type = .R_X86_64_IRELATIVE)).Perm raws := by
    have hdrop := List.perm_append_comm.trans
      (List.filter_append_perm (fun r : RawReloc => r.type = .R_X86_64_IRELATIVE) (raws.drop n))
    simp only [ne_eq, decide_not]
    have hall := hdrop.append_left (raws.take n)
    rwa [List.take_append_drop] at hall
  unfold sortRels
  split
  · refine ((List.perm_insertionSort ..).append ?_).trans hparts
    exact (List.perm_insertionSort ..).append_right _
  · exact hparts

section Written

variable {cfg : Config} {c : Ctx} {symIndex : SymId → Nat} {combreloc : Bool} {raws : List RawReloc}
  {n : Nat}

theorem computeRelaDyn_perm (h : computeRelaDyn cfg c symIndex combreloc = some (raws, n)) :
    raws.Perm (c.relaDyn.filterMap (computeRaw cfg c)) ∧
      ∀ r ∈ c.relaDyn, (computeRaw cfg c r).isSome := by
  obtain ⟨raws₀, hraws, h⟩ := Option.map_eq_some_iff.mp h
  cases h
  obtain ⟨rfl, hsome⟩ := mapM_eq_filterMap hraws
  have hperm := partitionRels_perm combreloc c.relaDyn
  exact ⟨(sortRels_perm ..).trans (hperm.filterMap _),
    fun r hr => hsome r (hperm.mem_iff.mpr hr)⟩

-- The relocations that the loader takes for relative ones are the relative ones.
theorem computeRelaDyn_relative (h : computeRelaDyn cfg c symIndex combreloc = some (raws, n)) :
    (∀ r ∈ raws.take n, r.type = .R_X86_64_RELATIVE) ∧ n ≤ raws.length := by
  obtain ⟨raws₀, hraws, h⟩ := Option.map_eq_some_iff.mp h
  cases h
  obtain ⟨rfl, hsome⟩ := mapM_eq_filterMap hraws
  cases combreloc with
  | false => exact ⟨by simp [partitionRels], Nat.zero_le _⟩
  | true =>
    rw [partitionRels, if_pos rfl] at hsome ⊢
    let relative := c.relaDyn.filter fun r => r.type = .R_X86_64_RELATIVE
    have hlength : (relative.filterMap (computeRaw cfg c)).length = relative.length := by
      rw [List.length_filterMap_eq_countP, List.countP_eq_length]
      exact fun r hr => hsome r (List.mem_append_left _ hr)
    have htake : ((relative ++ c.relaDyn.filter fun r => r.type ≠ .R_X86_64_RELATIVE).filterMap
        (computeRaw cfg c)).take relative.length = relative.filterMap (computeRaw cfg c) := by
      rw [List.filterMap_append, ← hlength, List.take_left]
    have hsorted : (sortRels symIndex true ((relative ++ c.relaDyn.filter fun r =>
        r.type ≠ .R_X86_64_RELATIVE).filterMap (computeRaw cfg c)) relative.length).take
        relative.length = (relative.filterMap (computeRaw cfg c)).insertionSort offsetLe := by
      rw [sortRels, if_pos rfl, htake]
      exact List.take_left' ((List.length_insertionSort ..).trans hlength)
    constructor
    · intro raw hraw
      change raw ∈ (sortRels symIndex true _ relative.length).take relative.length at hraw
      rw [hsorted, List.mem_insertionSort] at hraw
      obtain ⟨r, hr, hcompute⟩ := List.mem_filterMap.mp hraw
      rw [(computeRaw_place hcompute).1]
      exact of_decide_eq_true (List.mem_filter.mp hr).2
    · change relative.length ≤ _
      rw [(sortRels_perm ..).length_eq, List.filterMap_append, List.length_append, hlength]
      exact Nat.le_add_right ..

theorem computeRels_perm (relocs : List DynamicReloc) : (computeRels relocs).Perm relocs := by
  have hall := List.perm_append_comm.trans
    (List.filter_append_perm (fun r : DynamicReloc => r.type = .R_X86_64_IRELATIVE) relocs)
  simp only [computeRels, ne_eq, decide_not]
  exact hall

end Written

end Platypus.Linker
