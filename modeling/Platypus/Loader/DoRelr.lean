import Platypus.Loader.Placement
import Platypus.State.Written

-- The loop over packed relative relocations.

namespace Platypus.Loader

section Relr

variable (l_addr : Word)

-- `*where += l_addr`
def addBase (mem : Word → Word) (place : Word) : Word → Word :=
  Function.update mem place (mem place + l_addr)

-- The loop over the bits of a bitmap; an entry of 64 bits is 0 after 64 rounds.
def doBitmap (place : Word) : Nat → Word → Nat → (Word → Word) → Word → Word
  | 0, _, _, mem => mem
  | rounds + 1, entry, i, mem =>
    let entry := entry >>> 1
    if entry = 0#64 then mem
    else
      doBitmap place rounds entry (i + 1)
        (if entry &&& 1#64 ≠ 0#64 then addBase l_addr mem (place + 8#64 * .ofNat 64 i) else mem)

-- One entry: the place that the next one starts from, and the memory.
def doRelrEntry (st : Word × (Word → Word)) (entry : Word) : Word × (Word → Word) :=
  if entry &&& 1#64 = 0#64 then
    (l_addr + entry + 8#64, addBase l_addr st.2 (l_addr + entry))
  else (st.1 + 8#64 * .ofNat 64 63, doBitmap l_addr st.1 64 entry 0 st.2)

def elfDynamicDoRelr (entries : List Word) (mem : Word → Word) : Word → Word :=
  (entries.foldl (doRelrEntry l_addr) (0#64, mem)).2

-- The places that a bitmap stands for.
def bitmapPlaces (place : Word) (rounds : Nat) (entry : Word) (i : Nat) : List Word :=
  ((List.range rounds).filter fun j => entry.getLsbD (j + 1)).map fun j =>
    place + 8#64 * .ofNat 64 (i + j)

def relrPlaces : Word → List Word → List Word
  | _, [] => []
  | place, entry :: entries =>
    if entry &&& 1#64 = 0#64 then (l_addr + entry) :: relrPlaces (l_addr + entry + 8#64) entries
    else bitmapPlaces place 64 entry 0 ++ relrPlaces (place + 8#64 * .ofNat 64 63) entries

theorem and_one_ne_zero (x : Word) : x &&& 1#64 ≠ 0#64 ↔ x.getLsbD 0 := by
  rw [BitVec.and_one_eq_setWidth_ofBool_getLsbD]
  cases x.getLsbD 0 <;> decide

theorem bitmapPlaces_succ (place : Word) (rounds : Nat) (entry : Word) (i : Nat) :
    bitmapPlaces place (rounds + 1) entry i =
      (if (entry >>> 1) &&& 1#64 ≠ 0#64 then [place + 8#64 * .ofNat 64 i] else []) ++
        bitmapPlaces place rounds (entry >>> 1) (i + 1) := by
  have hbit (j : Nat) : (entry >>> 1).getLsbD j = entry.getLsbD (j + 1) := by
    rw [BitVec.getLsbD_ushiftRight, Nat.add_comm]
  have hfirst : (entry >>> 1) &&& 1#64 ≠ 0#64 ↔ entry.getLsbD 1 := by
    rw [and_one_ne_zero, hbit]
  have hrest : ((List.range rounds).map Nat.succ).filter (fun j => entry.getLsbD (j + 1)) =
      ((List.range rounds).filter fun j => (entry >>> 1).getLsbD (j + 1)).map Nat.succ := by
    rw [List.filter_map]
    refine congrArg _ (List.filter_congr fun j _ => ?_)
    rw [hbit]
    rfl
  have hplaces : (fun j => place + 8#64 * BitVec.ofNat 64 (i + j)) ∘ Nat.succ =
      fun j => place + 8#64 * .ofNat 64 (i + 1 + j) := by
    funext j
    rw [Function.comp, Nat.succ_eq_add_one, Nat.add_right_comm, Nat.add_assoc]
  rw [bitmapPlaces, List.range_succ_eq_map, List.filter_cons, hrest]
  by_cases h : entry.getLsbD 1
  · rw [if_pos h, if_pos (hfirst.mpr h), List.map_cons, List.map_map, hplaces]
    rfl
  · rw [if_neg h, if_neg fun hone => h (hfirst.mp hone), List.map_map, hplaces]
    rfl

theorem doBitmap_eq (place : Word) (rounds : Nat) (entry : Word) (i : Nat) (mem : Word → Word) :
    doBitmap l_addr place rounds entry i mem =
      (bitmapPlaces place rounds entry i).foldl (addBase l_addr) mem := by
  induction rounds generalizing entry i mem with
  | zero => rfl
  | succ rounds ih =>
    rw [doBitmap]
    split
    · rename_i hzero
      have hnone : bitmapPlaces place (rounds + 1) entry i = [] := by
        rw [bitmapPlaces, List.map_eq_nil_iff, List.filter_eq_nil_iff]
        intro j _
        have hbit := congrArg (BitVec.getLsbD · j) hzero
        simp only [BitVec.getLsbD_ushiftRight, BitVec.getLsbD_zero] at hbit
        rw [Nat.add_comm, hbit]
        exact Bool.false_ne_true
      rw [hnone]
      rfl
    · rw [ih, bitmapPlaces_succ, List.foldl_append]
      split <;> rfl

theorem elfDynamicDoRelr_eq (entries : List Word) (mem : Word → Word) :
    elfDynamicDoRelr l_addr entries mem =
      (relrPlaces l_addr 0#64 entries).foldl (addBase l_addr) mem := by
  have hloop (place : Word) (mem : Word → Word) :
      (entries.foldl (doRelrEntry l_addr) (place, mem)).2 =
        (relrPlaces l_addr place entries).foldl (addBase l_addr) mem := by
    induction entries generalizing place mem with
    | nil => rfl
    | cons entry entries ih =>
      rw [List.foldl_cons, doRelrEntry, relrPlaces]
      split
      · exact ih _ _
      · rw [ih, List.foldl_append, doBitmap_eq]
  exact hloop 0#64 mem

-- Each of the places gets the base once.
theorem foldl_addBase {places : List Word} (hnodup : places.Nodup) (mem : Word → Word) :
    State.Written (fun p => p) (fun p => mem p + l_addr) places mem
      (places.foldl (addBase l_addr) mem) := by
  induction places generalizing mem with
  | nil => exact .nil
  | cons p places ih =>
    rw [List.nodup_cons] at hnodup
    have hrest := ih hnodup.2 (addBase l_addr mem p)
    have hsame {a : Word} (ha : a ≠ p) : addBase l_addr mem p a = mem a := Function.update_of_ne ha ..
    constructor
    · intro a ha
      rcases List.mem_cons.mp ha with rfl | ha
      · rw [List.foldl_cons, hrest.rest a fun b hb hab => hnodup.1 (hab ▸ hb)]
        exact Function.update_self ..
      · rw [List.foldl_cons, hrest.word a ha, hsame fun hap => hnodup.1 (hap ▸ ha)]
    · intro a ha
      rw [List.foldl_cons, hrest.rest a fun b hb => ha b (List.mem_cons_of_mem p hb),
        hsame (ha p List.mem_cons_self)]

end Relr

end Platypus.Loader
