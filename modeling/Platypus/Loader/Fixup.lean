import Platypus.Loader.DoRel

-- Lazy binding: the slots of the PLT before their first call, and the fixup that the call leads to.

namespace Platypus.Loader

namespace RelaEnv

variable (E : RelaEnv) (d : RelaTables)

-- `_dl_fixup`: the function that the call goes to. The index is the one of the relocation.
def dlFixup (dl_bind_not : Bool) (reloc_arg : BitVec 32) (st : RelaState) : Option (Word × RelaState) :=
  match d.DT_JMPREL with
  | none => none
  | some (start, _) =>
    let reloc := d.read (start + BitVec.ofNat 64 (24 * reloc_arg.toNat))
    if reloc.r_type = .R_X86_64_JUMP_SLOT then
      let value := ((E.found reloc).map (Found.address E.call false)).getD 0#64
      some (value, if dl_bind_not then st else st.write (E.relocAddr reloc) value)
    else none

-- The word that a slot holds before anything is bound, from the one in the file.
def unbound (r : Rela) (old : Word) : Word :=
  if r.r_type = .R_X86_64_JUMP_SLOT then old + E.map.l_addr else (E.word r).getD 0#64

variable {E d}

theorem elfMachineLazyRel_word {r : Rela}
    (htype : r.r_type = .R_X86_64_JUMP_SLOT ∨ r.r_type = .R_X86_64_IRELATIVE) (st : RelaState) :
    ∃ st', E.elfMachineLazyRel st r = some st' ∧
      st'.mem = Function.update st.mem (E.relocAddr r) (E.unbound r (st.mem (E.relocAddr r))) := by
  rcases htype with htype | htype
  · rw [elfMachineLazyRel, unbound, htype, if_pos rfl]
    exact ⟨_, rfl, RelaState.write_mem ..⟩
  · have hslot : r.r_type ≠ .R_X86_64_JUMP_SLOT := by rw [htype]; decide
    rw [elfMachineLazyRel, unbound, if_neg hslot, word, htype]
    exact ⟨_, rfl, RelaState.write_mem ..⟩

-- The object is relocated with its slots left unbound.
theorem elfDynamicDoReloc_lazy (hd : d.WellFormed) (hrtld : E.is_rtld_link_map = false)
    (hrelative : ∀ r ∈ d.own.take d.nrelative, r.r_type = .R_X86_64_RELATIVE)
    (hwords : ∀ r ∈ d.own, (E.word r).isSome)
    (htypes : ∀ r ∈ d.plt, r.r_type = .R_X86_64_JUMP_SLOT ∨ r.r_type = .R_X86_64_IRELATIVE)
    (hnodup : ((d.own ++ d.plt).map E.relocAddr).Nodup) (st : RelaState) :
    ∃ st', E.elfDynamicDoReloc d true st = some st' ∧
      ∀ r ∈ d.plt, st'.mem (E.relocAddr r) = E.unbound r (st.mem (E.relocAddr r)) := by
  obtain ⟨hcount, hfirst, hcover⟩ := RelaTables.ranges_cover hd true
  obtain ⟨hown, hplt, hzero, hlazy⟩ := hcover.resolve_left fun h => Bool.noConfusion h.1
  rw [List.map_append, List.nodup_append] at hnodup
  obtain ⟨hnodupOwn, hnodupPlt, hapart⟩ := hnodup
  obtain ⟨st₁, hst₁, hrel⟩ := elfDynamicDoRela_relocated hrtld hrelative hwords hnodupOwn st
  obtain ⟨st₂, hst₂, hslots⟩ :=
    deferred_modify (fun r hr => elfMachineLazyRel_word (htypes r hr)) hnodupPlt st₁
  have hsecond : E.doRange d (d.ranges true).2 st₁ = some st₂ := by
    rw [doRange, hplt, hzero]
    rcases hlazy with hlazy | hnil
    · rw [hlazy, elfDynamicDoRela, if_pos rfl, List.drop_zero, hst₂]
    · rw [hnil] at hst₂ ⊢
      cases hst₂
      exact elfDynamicDoRela_nil _ _
  refine ⟨st₂, ?_, fun r hr => ?_⟩
  · rw [elfDynamicDoReloc, doRange, hown, hcount, hfirst, hst₁]
    exact hsecond
  · rw [hslots.word r hr, hrel.rest _ fun r' hr' heq => ?_]
    exact hapart _ (List.mem_map_of_mem hr') _ (List.mem_map_of_mem hr) heq.symm

theorem plt_read {i : Nat} {r : Rela} (hr : d.plt[i]? = some r) :
    ∃ start size, d.DT_JMPREL = some (start, size) ∧
      d.read (start + BitVec.ofNat 64 (24 * i)) = r := by
  unfold RelaTables.plt at hr
  cases hj : d.DT_JMPREL with
  | none =>
    rw [hj] at hr
    cases hr
  | some jmprel =>
    rw [hj] at hr
    dsimp only at hr
    rw [RelaTables.entries, List.getElem?_map] at hr
    obtain ⟨j, hj', rfl⟩ := Option.map_eq_some_iff.mp hr
    obtain ⟨hlt, hget⟩ := List.getElem?_eq_some_iff.mp hj'
    rw [List.getElem_range] at hget
    exact ⟨jmprel.1, jmprel.2, rfl, by rw [hget]⟩

-- The fixup of a slot finds the word that relocating it at once would write.
theorem dlFixup_word (hskip : E.skip_ifunc = false) {i : Nat} {r : Rela} (hr : d.plt[i]? = some r)
    (hi : i < 2 ^ 32) (htype : r.r_type = .R_X86_64_JUMP_SLOT) (dl_bind_not : Bool)
    (st : RelaState) :
    ∃ value, E.word r = some value ∧ E.dlFixup d dl_bind_not (.ofNat 32 i) st =
      some (value, if dl_bind_not then st else st.write (E.relocAddr r) value) := by
  obtain ⟨start, size, hj, hread⟩ := plt_read hr
  have hindex : (BitVec.ofNat 32 i).toNat = i := by rw [BitVec.toNat_ofNat, Nat.mod_eq_of_lt hi]
  refine ⟨((E.found r).map (Found.address E.call false)).getD 0#64, ?_, ?_⟩
  · rw [word, htype, hskip]
  · rw [dlFixup, hj]
    dsimp only
    rw [hindex, hread, if_pos htype]

end RelaEnv

end Platypus.Loader
