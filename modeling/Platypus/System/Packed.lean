import Platypus.Linker.RelrTable
import Platypus.Loader.DoRel
import Platypus.Loader.DoRelr

-- What the loader does for packed relative relocations.

namespace Platypus.System

open Linker.RelrSection
open Loader (WordsApart RelaEnv RelaState Rela addBase bitmapPlaces relrPlaces elfDynamicDoRelr and_one_ne_zero)

variable (l_addr : Loader.Word)

theorem bitmap_odd (bitmap : BitVec 64) : ¬ (bitmap <<< 1 ||| 1#64) &&& 1#64 = 0#64 := by
  rw [← Ne, and_one_ne_zero, BitVec.getLsbD_or]
  exact Bool.or_true _

theorem bitmap_bit (bitmap : BitVec 64) (j : Nat) :
    (bitmap <<< 1 ||| 1#64).getLsbD (j + 1) ↔ j + 1 < 64 ∧ bitmap.getLsbD j := by
  rw [BitVec.getLsbD_or, BitVec.getLsbD_shiftLeft]
  simp

theorem mem_bitmapPlaces {place entry p : Loader.Word} :
    p ∈ bitmapPlaces place 64 entry 0 ↔ ∃ j < 64, entry.getLsbD (j + 1) ∧ wordAt place j = p := by
  rw [bitmapPlaces, List.mem_map]
  constructor
  · rintro ⟨j, hj, rfl⟩
    obtain ⟨hlt, hbit⟩ := List.mem_filter.mp hj
    exact ⟨j, List.mem_range.mp hlt, hbit, by rw [wordAt, Nat.zero_add]⟩
  · rintro ⟨j, hlt, hbit, rfl⟩
    exact ⟨j, List.mem_filter.mpr ⟨List.mem_range.mpr hlt, hbit⟩, by rw [wordAt, Nat.zero_add]⟩

theorem bitmapPlaces_nodup (place entry : Loader.Word) : (bitmapPlaces place 64 entry 0).Nodup := by
  refine List.Nodup.map_on (fun j hj k hk heq => ?_) (List.nodup_range.filter _)
  rw [Nat.zero_add, Nat.zero_add] at heq
  exact wordAt_inj (List.mem_range.mp (List.mem_of_mem_filter hj))
    (List.mem_range.mp (List.mem_of_mem_filter hk)) heq

theorem wordAt_base (base : Loader.Word) (b : Nat) :
    wordAt (l_addr + base) b = l_addr + wordAt base b := by
  rw [wordAt, wordAt, BitVec.add_assoc]

-- A bitmap stands for the offsets that were folded into it.
theorem bitmapPlaces_perm {base : Loader.Word} {bitmap : BitVec 64} {taken : List Loader.Word}
    (hnodup : taken.Nodup) (hwords : ∀ o ∈ taken, ∃ b < nBits, o = wordAt base b)
    (hbits : ∀ b, bitmap.getLsbD b ↔ b < nBits ∧ wordAt base b ∈ taken) :
    (bitmapPlaces (l_addr + base) 64 (bitmap <<< 1 ||| 1#64) 0).Perm (taken.map (l_addr + ·)) := by
  refine (List.perm_ext_iff_of_nodup (bitmapPlaces_nodup ..)
    (hnodup.map fun a b h => (BitVec.add_right_inj l_addr).mp h)).mpr fun p => ?_
  rw [mem_bitmapPlaces, List.mem_map]
  constructor
  · rintro ⟨j, -, hbit, rfl⟩
    obtain ⟨-, hbit⟩ := (bitmap_bit bitmap j).mp hbit
    exact ⟨wordAt base j, ((hbits j).mp hbit).2, (wordAt_base l_addr base j).symm⟩
  · rintro ⟨o, ho, rfl⟩
    obtain ⟨b, hb, rfl⟩ := hwords o ho
    have hlt : b + 1 < 64 := Nat.succ_lt_succ hb
    exact ⟨b, Nat.lt_of_succ_lt hlt, (bitmap_bit bitmap b).mpr ⟨hlt, (hbits b).mpr ⟨hb, ho⟩⟩,
      wordAt_base l_addr base b⟩

-- The bitmaps after an address stand for the offsets that are left out of the rest.
theorem bitmaps_places {fuel : Nat} {base : Loader.Word} {offsets maps rest : List Loader.Word}
    (h : bitmaps fuel base offsets = some (maps, rest)) (hnodup : offsets.Nodup) :
    ∃ taken, offsets = taken ++ rest ∧ ∀ entries, ∃ place,
      (relrPlaces l_addr (l_addr + base) (maps ++ entries)).Perm
        (taken.map (l_addr + ·) ++ relrPlaces l_addr place entries) := by
  induction fuel generalizing base offsets maps rest with
  | zero => cases h
  | succ fuel ih =>
    obtain ⟨taken, hsplit, hwords, hbits⟩ := foldable_spec base 0#64 offsets
    have hempty := foldable_nonempty hwords hbits
    rw [bitmaps] at h
    split at h
    · rename_i hzero
      cases h
      cases hempty.mp hzero
      exact ⟨[], hsplit, fun entries => ⟨l_addr + base, .refl _⟩⟩
    · obtain ⟨⟨maps', rest'⟩, hrec, heq⟩ := Option.map_eq_some_iff.mp h
      cases heq
      rw [hsplit, List.nodup_append] at hnodup
      obtain ⟨taken', hsplit', hplaces⟩ := ih hrec hnodup.2.1
      refine ⟨taken ++ taken', ?_, fun entries => ?_⟩
      · rw [List.append_assoc, ← hsplit']
        exact hsplit
      · obtain ⟨place, hperm⟩ := hplaces entries
        refine ⟨place, ?_⟩
        have hset (b : Nat) : (foldable base 0#64 offsets).1.getLsbD b ↔
            b < nBits ∧ wordAt base b ∈ taken := by
          rw [hbits, BitVec.getLsbD_zero]
          simp
        have hfirst := bitmapPlaces_perm l_addr hnodup.1 hwords hset
        rw [List.cons_append, relrPlaces, if_neg (bitmap_odd _), List.map_append, List.append_assoc]
        refine hfirst.append ?_
        rw [BitVec.add_assoc]
        exact hperm

theorem bitmaps_isSome {fuel : Nat} (base : Loader.Word) {offsets : List Loader.Word}
    (hfuel : offsets.length < fuel) : (bitmaps fuel base offsets).isSome := by
  induction fuel generalizing base offsets with
  | zero => cases hfuel
  | succ fuel ih =>
    obtain ⟨taken, hsplit, hwords, hbits⟩ := foldable_spec base 0#64 offsets
    rw [bitmaps]
    split
    · rfl
    · rename_i hzero
      have htaken := List.length_pos_iff.mpr fun hnil =>
        hzero ((foldable_nonempty hwords hbits).mpr hnil)
      have hlen := congrArg List.length hsplit
      rw [List.length_append] at hlen
      rw [Option.isSome_map]
      exact ih _ (by omega)

theorem relrPlaces_padding (place : Loader.Word) (k : Nat) :
    relrPlaces l_addr place (List.replicate k 1#64) = [] := by
  induction k generalizing place with
  | zero => rfl
  | succ k ih =>
    have hnone : bitmapPlaces place 64 1#64 0 = [] := by
      rw [List.eq_nil_iff_forall_not_mem]
      intro p hp
      obtain ⟨j, -, hbit, -⟩ := mem_bitmapPlaces.mp hp
      simp at hbit
    rw [List.replicate_succ, relrPlaces, if_neg (by decide), ih, hnone]
    rfl

theorem relrRelocs_places {fuel : Nat} {offsets : List Loader.Word} (hfuel : offsets.length ≤ fuel)
    (hnodup : offsets.Nodup) (heven : ∀ o ∈ offsets, o &&& 1#64 = 0#64) :
    ∃ relocs, relrRelocs fuel offsets = some relocs ∧ ∀ place k,
      (relrPlaces l_addr place (relocs ++ List.replicate k 1#64)).Perm (offsets.map (l_addr + ·)) := by
  induction fuel generalizing offsets with
  | zero =>
    cases List.length_eq_zero_iff.mp (Nat.le_zero.mp hfuel)
    exact ⟨[], rfl, fun place k => .of_eq (relrPlaces_padding l_addr place k)⟩
  | succ fuel ih =>
    cases offsets with
    | nil => exact ⟨[], rfl, fun place k => .of_eq (relrPlaces_padding l_addr place k)⟩
    | cons offset offsets =>
      rw [List.nodup_cons] at hnodup
      rw [List.forall_mem_cons] at heven
      obtain ⟨⟨maps, rest⟩, hmaps⟩ := Option.isSome_iff_exists.mp
        (bitmaps_isSome (offset + .ofNat 64 wordsize) (Nat.lt_succ_self offsets.length))
      obtain ⟨taken, hsplit, hplaces⟩ := bitmaps_places l_addr hmaps hnodup.2
      have hlen := congrArg List.length hsplit
      rw [List.length_append] at hlen
      rw [List.length_cons] at hfuel
      have hrestlen : rest.length ≤ fuel := by omega
      obtain ⟨relocs, hrelocs, hrest⟩ := ih hrestlen
        (hnodup.2.sublist (hsplit ▸ List.sublist_append_right ..))
        fun o ho => heven.2 o (hsplit ▸ List.mem_append_right _ ho)
      refine ⟨offset :: (maps ++ relocs), ?_, fun place k => ?_⟩
      · rw [relrRelocs, hmaps]
        change (relrRelocs fuel rest).bind _ = _
        rw [hrelocs]
        rfl
      · obtain ⟨place', hperm⟩ := hplaces (relocs ++ List.replicate k 1#64)
        rw [List.cons_append, relrPlaces, if_pos heven.1, List.map_cons, List.append_assoc,
          BitVec.add_assoc]
        refine List.Perm.cons _ (hperm.trans ?_)
        rw [hsplit, List.map_append]
        exact (hrest place' k).append_left _

-- The relocation that an offset is short for: its addend is in the place.
def relative (mem : Loader.Word → Loader.Word) (offset : Loader.Word) : Rela :=
  ⟨offset, .R_X86_64_RELATIVE, none, mem (l_addr + offset)⟩

-- The packed relocations leave the memory that they leave one by one.
theorem doRelr_eq_relative (E : RelaEnv) (offsets : List Loader.Word) (hapart : WordsApart offsets)
    (heven : ∀ o ∈ offsets, o &&& 1#64 = 0#64) (oldSize : Nat) (st : RelaState) :
    ∃ relocs st', updateAllocSize offsets oldSize = some relocs ∧
      (offsets.map (relative E.map.l_addr st.mem)).foldlM E.elfMachineRelaRelative st = some st' ∧
        elfDynamicDoRelr E.map.l_addr relocs st.mem = st'.mem := by
  have hnodup := hapart.nodup
  have hsort := List.perm_insertionSort offsetLe offsets
  obtain ⟨relocs, hrelocs, hplaces⟩ := relrRelocs_places E.map.l_addr
    (hsort.length_eq.le) (hsort.nodup_iff.mpr hnodup) fun o ho => heven o (hsort.mem_iff.mp ho)
  have hperm := (hplaces 0#64 (oldSize - relocs.length)).trans (hsort.map (E.map.l_addr + ·))
  have haddrs : (offsets.map (E.map.l_addr + ·)).Nodup :=
    hnodup.map fun a b h => (BitVec.add_right_inj _).mp h
  have hpacked := Loader.foldl_addBase E.map.l_addr (hperm.nodup_iff.mpr haddrs) st.mem
  rw [← Loader.elfDynamicDoRelr_eq] at hpacked
  have hplain : ∃ st', (offsets.map (relative E.map.l_addr st.mem)).foldlM E.elfMachineRelaRelative st =
      some st' ∧ E.Relocated (offsets.map (relative E.map.l_addr st.mem)) st.mem st'.mem := by
    refine State.Written.foldlM _ (fun r hr st => ?_) (by rwa [List.map_map]) st
    obtain ⟨o, -, rfl⟩ := List.mem_map.mp hr
    exact RelaEnv.elfMachineRelaRelative_word rfl
  obtain ⟨st', hst', hrel⟩ := hplain
  refine ⟨_, st', by rw [updateAllocSize, hrelocs]; rfl, hst', State.Written.eq ⟨?_, ?_⟩ hrel⟩
  · intro r hr
    obtain ⟨o, ho, rfl⟩ := List.mem_map.mp hr
    have hmem : E.map.l_addr + o ∈ offsets.map (E.map.l_addr + ·) := List.mem_map_of_mem ho
    refine (hpacked.word _ (hperm.mem_iff.mpr hmem)).trans ?_
    exact BitVec.add_comm ..
  · intro a ha
    refine hpacked.rest a fun p hp => ?_
    obtain ⟨o, ho, rfl⟩ := List.mem_map.mp (hperm.mem_iff.mp hp)
    exact ha _ (List.mem_map_of_mem ho)

def packedEnv : RelaEnv where
  to_mitigate := true
  call a := a
  skip_ifunc := false
  map := { l_addr := 0x10000#64 }
  found _ := none

-- Three neighbours and a word that is far from them, in a section that had six words before.
def packedOffsets : List Loader.Word := [0x4010#64, 0x4000#64, 0x5000#64, 0x4008#64]

example : updateAllocSize packedOffsets 6 =
    some [0x4000#64, 0x7#64, 0x5000#64, 1#64, 1#64, 1#64] := by decide

theorem doRelr_eq_relative_four : ∃ relocs st', updateAllocSize packedOffsets 6 = some relocs ∧
    (packedOffsets.map (relative 0x10000#64 fun a => a)).foldlM packedEnv.elfMachineRelaRelative
        ⟨fun a => a, []⟩ = some st' ∧
      elfDynamicDoRelr 0x10000#64 relocs (fun a => a) = st'.mem :=
  doRelr_eq_relative packedEnv packedOffsets (by decide) (by simp [packedOffsets]) 6 ⟨fun a => a, []⟩

end Platypus.System
