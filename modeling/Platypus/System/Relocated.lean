import Platypus.Header.SlotValue
import Platypus.Linker.RelaTable
import Platypus.Loader.DoRel

-- From the relocations of a link to the memory of the loaded object.

namespace Platypus.System

open Linker Loader
open Header (toRela)

-- A link, with the tables of its output in memory.
structure Linked where
  cfg : Config
  ctx : Ctx
  symIndex : SymId → Nat
  combreloc : Bool
  tables : RelaTables

namespace Linked

variable (L : Linked)

def relocs : List DynamicReloc := L.ctx.relaDyn ++ L.ctx.relaPlt

def getOffset (r : DynamicReloc) : Loader.Word := L.cfg.va r.inputSec + r.offsetInSec

-- What is written for the relocations.
structure Written : Prop where
  wellFormed : L.tables.WellFormed
  own : ∃ raws, computeRelaDyn L.cfg L.ctx L.symIndex L.combreloc = some (raws, L.tables.nrelative) ∧
    L.tables.own = raws.map (toRela L.ctx)
  plt : L.tables.plt = (computeRelaPlt L.cfg L.ctx).map (toRela L.ctx)

-- The relocations of the file that one of the link becomes.
inductive Raw (r : DynamicReloc) (raw : RawReloc) : Prop
  | dyn (mem : r ∈ L.ctx.relaDyn) (raw : computeRaw L.cfg L.ctx r = some raw)
  | plt (mem : r ∈ L.ctx.relaPlt) (raw : raw = computeRawPlt L.cfg L.ctx r)

end Linked

namespace Linked

variable {L : Linked}

theorem Written.mem_iff (h : L.Written) {rela : Rela} :
    rela ∈ L.tables.own ++ L.tables.plt ↔ ∃ r raw, L.Raw r raw ∧ rela = toRela L.ctx raw := by
  obtain ⟨raws, hraws, hown⟩ := h.own
  obtain ⟨hperm, -⟩ := computeRelaDyn_perm hraws
  rw [List.mem_append, hown, h.plt, List.mem_map, List.mem_map]
  constructor
  · rintro (⟨raw, hraw, rfl⟩ | ⟨raw, hraw, rfl⟩)
    · obtain ⟨r, hr, hcompute⟩ := List.mem_filterMap.mp (hperm.mem_iff.mp hraw)
      exact ⟨r, raw, .dyn hr hcompute, rfl⟩
    · obtain ⟨r, hr, rfl⟩ := List.mem_map.mp hraw
      exact ⟨r, _, .plt ((computeRels_perm _).mem_iff.mp hr) rfl, rfl⟩
  · rintro ⟨r, raw, hraw, rfl⟩
    cases hraw with
    | dyn hr hcompute =>
      exact .inl ⟨raw, hperm.mem_iff.mpr (List.mem_filterMap.mpr ⟨r, hr, hcompute⟩), rfl⟩
    | plt hr hraw =>
      rw [hraw]
      exact .inr ⟨_, List.mem_map_of_mem ((computeRels_perm _).mem_iff.mpr hr), rfl⟩

theorem Raw.offset {r : DynamicReloc} {raw : RawReloc} (h : L.Raw r raw) :
    raw.r_offset = L.getOffset r := by
  cases h with
  | dyn _ hcompute => exact (computeRaw_place hcompute).2
  | plt _ hraw =>
    rw [hraw]
    rfl

theorem filterMap_offsets (cfg : Config) (c : Ctx) (rs : List DynamicReloc)
    (hsome : ∀ r ∈ rs, (computeRaw cfg c r).isSome) :
    (rs.filterMap (computeRaw cfg c)).map RawReloc.r_offset =
      rs.map fun r => cfg.va r.inputSec + r.offsetInSec := by
  induction rs with
  | nil => rfl
  | cons r rs ih =>
    obtain ⟨raw, hraw⟩ := Option.isSome_iff_exists.mp (hsome r List.mem_cons_self)
    rw [List.filterMap_cons, hraw, List.map_cons, List.map_cons, (computeRaw_place hraw).2,
      ih fun r hr => hsome r (List.mem_cons_of_mem _ hr)]

-- The words that the loader writes to are those of the relocations of the link.
theorem Written.addrs_perm (h : L.Written) (E : RelaEnv) :
    ((L.tables.own ++ L.tables.plt).map E.relocAddr).Perm
      (L.relocs.map fun r => E.map.l_addr + L.getOffset r) := by
  obtain ⟨raws, hraws, hown⟩ := h.own
  obtain ⟨hperm, hsome⟩ := computeRelaDyn_perm hraws
  have hoffset : (fun raw => E.relocAddr (toRela L.ctx raw)) =
      (fun o => E.map.l_addr + o) ∘ RawReloc.r_offset := rfl
  rw [List.map_append, hown, h.plt, List.map_map, List.map_map, relocs, List.map_append]
  refine List.Perm.append ?_ ?_
  · refine (hperm.map _).trans (List.Perm.of_eq ?_)
    have hoffsets := congrArg (List.map fun o => E.map.l_addr + o)
      (filterMap_offsets L.cfg L.ctx L.ctx.relaDyn hsome)
    rw [List.map_map, List.map_map] at hoffsets
    exact hoffsets
  · rw [computeRelaPlt, List.map_map]
    exact (computeRels_perm _).map _

theorem Written.relative (h : L.Written) :
    ∀ r ∈ L.tables.own.take L.tables.nrelative, r.r_type = .R_X86_64_RELATIVE := by
  obtain ⟨raws, hraws, hown⟩ := h.own
  intro r hr
  rw [hown, ← List.map_take] at hr
  obtain ⟨raw, hraw, rfl⟩ := List.mem_map.mp hr
  exact (computeRelaDyn_relative hraws).1 raw hraw

-- Every relocation of the link leaves its word.
theorem relocated (h : L.Written) {E : RelaEnv} (hrtld : E.is_rtld_link_map = false)
    (hwords : ∀ r raw, L.Raw r raw → (E.word (toRela L.ctx raw)).isSome)
    (hnodup : (L.relocs.map fun r => E.map.l_addr + L.getOffset r).Nodup) (st : RelaState) :
    ∃ st', E.elfDynamicDoReloc L.tables false st = some st' ∧
      (∀ r raw, L.Raw r raw →
        E.word (toRela L.ctx raw) = some (st'.mem (E.map.l_addr + L.getOffset r))) ∧
      ∀ a, (∀ r ∈ L.relocs, a ≠ E.map.l_addr + L.getOffset r) → st'.mem a = st.mem a := by
  have hwords' : ∀ r ∈ L.tables.own ++ L.tables.plt, (E.word r).isSome := by
    intro r hr
    obtain ⟨r₀, raw, hraw, rfl⟩ := h.mem_iff.mp hr
    exact hwords r₀ raw hraw
  obtain ⟨st', hst', hword, hrest⟩ := E.elfDynamicDoReloc_relocated h.wellFormed hrtld h.relative
    hwords' ((h.addrs_perm E).nodup_iff.mpr hnodup) st
  refine ⟨st', hst', fun r raw hraw => ?_, fun a ha => hrest a fun rela hrela => ?_⟩
  · obtain ⟨w, hw⟩ := Option.isSome_iff_exists.mp (hwords r raw hraw)
    have heq := hword _ (h.mem_iff.mpr ⟨r, raw, hraw, rfl⟩)
    rw [hw, Option.getD_some] at heq
    rw [hw, ← heq, ← hraw.offset]
    rfl
  · obtain ⟨r, raw, hraw, rfl⟩ := h.mem_iff.mp hrela
    have hr : r ∈ L.relocs := by
      cases hraw with
      | dyn hr _ => exact List.mem_append_left _ hr
      | plt hr _ => exact List.mem_append_right _ hr
    have hne := ha r hr
    rw [← hraw.offset] at hne
    exact hne

-- The object of a link with its relocations done, each in a word of its own.
structure Loaded (L : Linked) (E : RelaEnv) (st st' : RelaState) : Prop where
  written : L.Written
  rtld : E.is_rtld_link_map = false
  words : ∀ r raw, L.Raw r raw → (E.word (toRela L.ctx raw)).isSome
  places : WordsApart (L.relocs.map fun r => E.map.l_addr + L.getOffset r)
  relocated : E.elfDynamicDoReloc L.tables false st = some st'

theorem Loaded.word {E : RelaEnv} {st st' : RelaState} (h : L.Loaded E st st') {r : DynamicReloc}
    {raw : RawReloc} (hraw : L.Raw r raw) :
    E.word (toRela L.ctx raw) = some (st'.mem (E.map.l_addr + L.getOffset r)) := by
  obtain ⟨st₁, hst₁, hwords, -⟩ := Linked.relocated h.written h.rtld h.words h.places.nodup st
  cases h.relocated.symm.trans hst₁
  exact hwords r raw hraw

-- The output of a link with `.rela.plt` behind `.rela.dyn`.
def laid (cfg : Config) (ctx : Ctx) (symIndex : SymId → Nat) (combreloc : Bool)
    (start : Loader.Word) (raws : List RawReloc) (n : Nat) : Linked where
  cfg := cfg
  ctx := ctx
  symIndex := symIndex
  combreloc := combreloc
  tables := .laidOut start (raws.map (toRela ctx)) ((computeRelaPlt cfg ctx).map (toRela ctx)) n

theorem laid_written {cfg : Config} {ctx : Ctx} {symIndex : SymId → Nat} {combreloc : Bool}
    {start : Loader.Word} {raws : List RawReloc} {n : Nat}
    (h : computeRelaDyn cfg ctx symIndex combreloc = some (raws, n)) (hstart : start ≠ 0#64)
    (hfits : 24 * (raws.length + ctx.relaPlt.length) < 2 ^ 64) :
    (laid cfg ctx symIndex combreloc start raws n).Written := by
  have hlength : 24 * ((raws.map (toRela ctx)).length +
      ((computeRelaPlt cfg ctx).map (toRela ctx)).length) < 2 ^ 64 := by
    rw [List.length_map, List.length_map, computeRelaPlt, List.length_map,
      (computeRels_perm _).length_eq]
    exact hfits
  constructor
  · refine RelaTables.laidOut_wellFormed hlength hstart ?_
    rw [List.length_map]
    exact (computeRelaDyn_relative h).2
  · exact ⟨raws, h, RelaTables.laidOut_own hlength⟩
  · exact RelaTables.laidOut_plt hlength

-- The relocations in the order in which the linker found them.
def inOrder (L : Linked) : List Rela :=
  (L.ctx.relaDyn.filterMap (computeRaw L.cfg L.ctx) ++
    L.ctx.relaPlt.map (computeRawPlt L.cfg L.ctx)).map (toRela L.ctx)

theorem Written.perm_inOrder (h : L.Written) : (L.tables.own ++ L.tables.plt).Perm L.inOrder := by
  obtain ⟨raws, hraws, hown⟩ := h.own
  rw [inOrder, List.map_append, hown, h.plt]
  refine List.Perm.append ((computeRelaDyn_perm hraws).1.map _) ?_
  exact ((computeRels_perm _).map _).map _

-- The loader leaves the memory that the relocations of the link leave one after the other, though
-- the linker has sorted them, and the loader does the relative ones in a loop of their own and
-- those with a resolver last.
theorem doReloc_eq_inOrder (L : Linked) (h : L.Written) (E : RelaEnv)
    (hrtld : E.is_rtld_link_map = false) (hwords : ∀ r ∈ L.inOrder, (E.word r).isSome)
    (hapart : WordsApart (L.relocs.map fun r => E.map.l_addr + L.getOffset r)) (st : RelaState) :
    ∃ st' st'', E.elfDynamicDoReloc L.tables false st = some st' ∧
      L.inOrder.foldlM E.elfMachineRel st = some st'' ∧ st'.mem = st''.mem := by
  have hperm := h.perm_inOrder
  have haddrs := (h.addrs_perm E).nodup_iff.mpr hapart.nodup
  have hrelative := h.relative
  obtain ⟨st', hst', hrel⟩ := E.elfDynamicDoReloc_relocated h.wellFormed hrtld hrelative
    (fun r hr => hwords r (hperm.mem_iff.mp hr)) haddrs st
  have hsteps : ∃ st'', L.inOrder.foldlM E.elfMachineRel st = some st'' ∧
      E.Relocated L.inOrder st.mem st''.mem := by
    refine State.Written.foldlM _ (fun r hr st => ?_) ((hperm.map _).nodup_iff.mp haddrs) st
    obtain ⟨w, hw⟩ := Option.isSome_iff_exists.mp (hwords r hr)
    rw [hw]
    exact RelaEnv.elfMachineRel_word hw
  obtain ⟨st'', hst'', hrel''⟩ := hsteps
  exact ⟨st', st'', hst', hst'', (State.Written.of_perm hrel hperm).eq hrel''⟩

end Linked

-- A link with relocations of five kinds, found in another order than they are written in.

def demoLinkCtx : Ctx where
  syms
    | .sym 0 => { name := "resolved".toList, kind := .Undefined }
    | _ => { name := "value".toList, kind := .Undefined }
  relaDyn :=
    [⟨.R_X86_64_IRELATIVE, .got, 0x18#64, .AddendOnly, none, 0x40, .R_ADDEND⟩,
      ⟨.R_X86_64_ORMASK, .got, 0x10#64, .AddendOnly, none, 0, .R_ADDEND⟩,
      ⟨.R_X86_64_RELATIVE, .got, 0x8#64, .AddendOnly, none, 0x50, .R_ADDEND⟩,
      ⟨.R_X86_64_GLOB_DAT, .got, 0x0#64, .AgainstSymbol, some (.sym 1), 0, .R_ADDEND⟩]
  relaPlt := [⟨.R_X86_64_JUMP_SLOT, .gotPlt, 0x18#64, .AgainstSymbol, some (.sym 0), 0, .R_ADDEND⟩]

def demoLinkConfig : Config :=
  { Header.demoScan.toConfig with
    va := fun s => if s = .gotPlt then 0x5000#64 else 0x4000#64 }

def demoTable : List RawReloc :=
  [⟨0x4008#64, .R_X86_64_RELATIVE, none, 0x50⟩, ⟨0x4010#64, .R_X86_64_ORMASK, none, 0⟩,
    ⟨0x4000#64, .R_X86_64_GLOB_DAT, some (.sym 1), 0⟩, ⟨0x4018#64, .R_X86_64_IRELATIVE, none, 0x40⟩]

def demoLink : Linked :=
  .laid demoLinkConfig demoLinkCtx (fun s => if s = .sym 0 then 1 else 2) true 0x600#64 demoTable 1

def demoEnv : RelaEnv where
  to_mitigate := true
  call a := a + 1#64
  skip_ifunc := false
  map := { l_addr := 0x10000#64 }
  found _ := some ⟨{}, 0x7000#64, false⟩

theorem demoLink_written : demoLink.Written :=
  Linked.laid_written (by decide) (by decide) (by decide)

theorem doReloc_eq_inOrder_demoLink :
    ∃ st' st'', demoEnv.elfDynamicDoReloc demoLink.tables false ⟨fun _ => 0#64, []⟩ = some st' ∧
      demoLink.inOrder.foldlM demoEnv.elfMachineRel ⟨fun _ => 0#64, []⟩ = some st'' ∧
      st'.mem = st''.mem :=
  demoLink.doReloc_eq_inOrder demoLink_written demoEnv rfl (by decide) (by decide) _

end Platypus.System
