import Platypus.Loader.Rela
import Platypus.State.Written

-- The tables of relocations of an object, and the loops over them.

namespace Platypus.Loader

open Linker (RelType)
open State (Written)

-- What the relocations of an object are carried out with.
structure RelaEnv where
  to_mitigate : Bool
  call : Resolver
  skip_ifunc : Bool
  map : LinkMap
  found : Rela → Option Found
  is_rtld_link_map : Bool := false

namespace RelaEnv

variable (E : RelaEnv)

def relocAddr (r : Rela) : Word := E.map.l_addr + r.r_offset

def elfMachineRel (st : RelaState) (r : Rela) : Option RelaState :=
  elfMachineRela E.to_mitigate E.call E.skip_ifunc E.map (E.found r) r st

-- `elf_machine_rela_relative`, with its assertion.
def elfMachineRelaRelative (st : RelaState) (r : Rela) : Option RelaState :=
  if r.r_type = .R_X86_64_RELATIVE then some (st.write (E.relocAddr r) (E.map.l_addr + r.r_addend))
  else none

-- The slots are made to point to the loaded stubs, whose addresses are in the file.
def elfMachineLazyRel (st : RelaState) (r : Rela) : Option RelaState :=
  match r.r_type with
  | .R_X86_64_JUMP_SLOT => some (st.write (E.relocAddr r) (st.mem (E.relocAddr r) + E.map.l_addr))
  | .R_X86_64_TLSDESC => E.elfMachineRel st r
  | .R_X86_64_IRELATIVE =>
    let value := E.map.l_addr + r.r_addend
    some (st.write (E.relocAddr r) (if E.skip_ifunc then value else E.call value))
  | _ => none

def isIrelative (r : Rela) : Bool := r.r_type = .R_X86_64_IRELATIVE

-- The resolvers of the object itself are called when its other relocations are done.
def deferred (step : RelaState → Rela → Option RelaState) (rs : List Rela) (st : RelaState) :
    Option RelaState := do
  let st ← (rs.filter fun r => !isIrelative r).foldlM step st
  (rs.filter isIrelative).foldlM step st

def elfDynamicDoRela (rs : List Rela) (nrelative : Nat) (lazy : Bool) (st : RelaState) :
    Option RelaState :=
  if lazy then deferred E.elfMachineLazyRel (rs.drop nrelative) st
  else do
    let st ←
      if E.is_rtld_link_map then some st
      else (rs.take nrelative).foldlM E.elfMachineRelaRelative st
    deferred E.elfMachineRel (rs.drop nrelative) st

-- The word that a relocation is for; `none` where there is none.
def word (r : Rela) : Option Word :=
  let value := ((E.found r).map (Found.address E.call E.skip_ifunc)).getD 0#64
  match r.r_type with
  | .R_X86_64_RELATIVE => some (E.map.l_addr + r.r_addend)
  | .R_X86_64_JUMP_SLOT | .R_X86_64_GLOB_DAT => some value
  | .R_X86_64_CALLBACK_TABLE | .R_X86_64_CALLBACK_MAYBE =>
    (E.found r).map fun f => r.r_addend + f.sym_map.l_addr
  | .R_X86_64_ORMASK => some (if E.to_mitigate then E.map.l_exec_start else 0#64)
  | .R_X86_64_ANDMASK => some (if E.to_mitigate then E.map.l_exec_end else BitVec.allOnes 64)
  | .R_X86_64_64 | .R_X86_64_DSO_BASE => some (value + r.r_addend)
  | .R_X86_64_IRELATIVE =>
    some (if E.skip_ifunc then E.map.l_addr + r.r_addend else E.call (E.map.l_addr + r.r_addend))
  | _ => none

-- The memory in which every one of the relocations has its word.
def Relocated (rs : List Rela) (m m' : Word → Word) : Prop :=
  Written E.relocAddr (fun r => (E.word r).getD 0#64) rs m m'

end RelaEnv

theorem RelaState.write_mem (st : RelaState) (a w : Word) :
    (st.write a w).mem = Function.update st.mem a w := by
  funext b
  rw [Function.update_apply]
  rfl

namespace RelaEnv

variable {E : RelaEnv} {r : Rela} {st : RelaState}

theorem elfMachineRel_word {w : Word} (h : E.word r = some w) :
    ∃ st', E.elfMachineRel st r = some st' ∧
      st'.mem = Function.update st.mem (E.relocAddr r) w := by
  unfold elfMachineRel elfMachineRela
  unfold word at h
  cases htype : r.r_type <;> rw [htype] at h <;> simp only [Option.some_inj, reduceCtorEq] at h ⊢
  case R_X86_64_CALLBACK_TABLE | R_X86_64_CALLBACK_MAYBE =>
    obtain ⟨f, hf, rfl⟩ := Option.map_eq_some_iff.mp h
    exact ⟨_, by rw [hf]; rfl, RelaState.write_mem ..⟩
  case R_X86_64_GLOB_DAT | R_X86_64_JUMP_SLOT =>
    refine ⟨_, rfl, (RelaState.write_mem ..).trans ?_⟩
    rw [h]
    split <;> rfl
  all_goals exact ⟨_, rfl, (RelaState.write_mem ..).trans (by rw [h]; rfl)⟩

theorem elfMachineRelaRelative_word (htype : r.r_type = .R_X86_64_RELATIVE) :
    ∃ st', E.elfMachineRelaRelative st r = some st' ∧
      st'.mem = Function.update st.mem (E.relocAddr r) ((E.word r).getD 0#64) := by
  refine ⟨_, if_pos htype, (RelaState.write_mem ..).trans ?_⟩
  rw [word, htype]
  rfl

-- The two loops reach every one of the relocations, so their order is of no account for steps that
-- each change the word of their own place.
theorem deferred_modify {step : RelaState → Rela → Option RelaState} {f : Rela → Word → Word}
    {rs : List Rela}
    (hstep : ∀ r ∈ rs, ∀ st, ∃ st', step st r = some st' ∧
      st'.mem = Function.update st.mem (E.relocAddr r) (f r (st.mem (E.relocAddr r))))
    (hnodup : (rs.map E.relocAddr).Nodup) (st : RelaState) :
    ∃ st', deferred step rs st = some st' ∧
      Written E.relocAddr (fun r => f r (st.mem (E.relocAddr r))) rs st.mem st'.mem := by
  have hperm : (rs.filter (fun r => !isIrelative r) ++ rs.filter isIrelative).Perm rs :=
    List.perm_append_comm.trans (List.filter_append_perm isIrelative rs)
  obtain ⟨st', hst', hwritten⟩ := Written.foldlM_modify
    (rs.filter (fun r => !isIrelative r) ++ rs.filter isIrelative)
    (fun r hr => hstep r (hperm.mem_iff.mp hr))
    ((hperm.map E.relocAddr).nodup_iff.mpr hnodup) st
  rw [List.foldlM_append] at hst'
  exact ⟨st', hst', hwritten.of_perm hperm⟩

theorem deferred_relocated {rs : List Rela} (hwords : ∀ r ∈ rs, (E.word r).isSome)
    (hnodup : (rs.map E.relocAddr).Nodup) (st : RelaState) :
    ∃ st', deferred E.elfMachineRel rs st = some st' ∧ E.Relocated rs st.mem st'.mem := by
  refine deferred_modify (f := fun r _ => (E.word r).getD 0#64) (fun r hr st => ?_) hnodup st
  obtain ⟨w, hw⟩ := Option.isSome_iff_exists.mp (hwords r hr)
  rw [hw]
  exact elfMachineRel_word hw

-- With the relative relocations first, the order of the others does not matter.
theorem elfDynamicDoRela_relocated {rs : List Rela} {nrelative : Nat}
    (hrtld : E.is_rtld_link_map = false)
    (hrelative : ∀ r ∈ rs.take nrelative, r.r_type = .R_X86_64_RELATIVE)
    (hwords : ∀ r ∈ rs, (E.word r).isSome) (hnodup : (rs.map E.relocAddr).Nodup) (st : RelaState) :
    ∃ st', E.elfDynamicDoRela rs nrelative false st = some st' ∧
      E.Relocated rs st.mem st'.mem := by
  have hsplit : rs.take nrelative ++ rs.drop nrelative = rs := List.take_append_drop ..
  have hfirst : ∃ st', (rs.take nrelative).foldlM E.elfMachineRelaRelative st = some st' ∧
      E.Relocated (rs.take nrelative) st.mem st'.mem := by
    refine Written.foldlM _ (fun r hr st => ?_) (hnodup.sublist ((List.take_sublist ..).map _)) st
    exact elfMachineRelaRelative_word (hrelative r hr)
  obtain ⟨st₁, h₁, hrel₁⟩ := hfirst
  obtain ⟨st₂, h₂, hrel₂⟩ := deferred_relocated
    (fun r hr => hwords r (List.mem_of_mem_drop hr))
    (hnodup.sublist ((List.drop_sublist nrelative rs).map _)) st₁
  refine ⟨st₂, ?_, ?_⟩
  · rw [elfDynamicDoRela, if_neg Bool.false_ne_true,
      if_neg (by rw [hrtld]; exact Bool.false_ne_true), h₁]
    exact h₂
  · rw [← hsplit] at hnodup
    have hall := Written.append_of_nodup hrel₁ hrel₂ hnodup
    rwa [hsplit] at hall

end RelaEnv

-- The dynamic section of an object, as far as its relocations are concerned. The tables are read
-- from memory, a relocation in 24 bytes. DT_RELA is `none` without the tag or with address 0.
structure RelaTables where
  DT_RELA : Option (Word × Word)
  DT_RELACOUNT : Nat
  DT_JMPREL : Option (Word × Word)
  read : Word → Rela

structure RelaRange where
  start : Word := 0#64
  size : Word := 0#64
  nrelative : Nat := 0
  lazy : Bool := false

namespace RelaTables

variable (d : RelaTables)

def entries (start size : Word) : List Rela :=
  (List.range ((size.toNat + 23) / 24)).map fun i => d.read (start + BitVec.ofNat 64 (24 * i))

def relaRange : RelaRange :=
  match d.DT_RELA with
  | some (start, size) => ⟨start, size, d.DT_RELACOUNT, false⟩
  | none => {}

end RelaTables

-- The table of the PLT may be the end of the other one.
def RelaRange.before (rg : RelaRange) (start size : Word) : RelaRange :=
  let rg := if rg.start = 0#64 then { rg with start := start } else rg
  if rg.start + rg.size = start + size then { rg with size := rg.size - size } else rg

-- The two ranges of `_ELF_DYNAMIC_DO_RELOC`. Unless they are lazy, the relocations of the PLT are
-- done with the others where they follow them.
def RelaTables.ranges (d : RelaTables) (do_lazy : Bool) : RelaRange × RelaRange :=
  match d.DT_JMPREL with
  | none => (d.relaRange, {})
  | some (start, size) =>
    let first := d.relaRange.before start size
    if !do_lazy && first.start + first.size = start then
      ({ first with size := first.size + size }, {})
    else (first, ⟨start, size, 0, do_lazy⟩)

def RelaEnv.doRange (E : RelaEnv) (d : RelaTables) (rg : RelaRange) (st : RelaState) :
    Option RelaState :=
  E.elfDynamicDoRela (d.entries rg.start rg.size) rg.nrelative rg.lazy st

-- `ELF_DYNAMIC_DO_RELA`.
def RelaEnv.elfDynamicDoReloc (E : RelaEnv) (d : RelaTables) (do_lazy : Bool) (st : RelaState) :
    Option RelaState := do
  let st ← E.doRange d (d.ranges do_lazy).1 st
  E.doRange d (d.ranges do_lazy).2 st

namespace RelaTables

variable (d : RelaTables)

-- The relocations of DT_RELA that are not those of the PLT.
def ownSize (rela jmprel : Word × Word) : Word :=
  if rela.1 + rela.2 = jmprel.1 + jmprel.2 then rela.2 - jmprel.2 else rela.2

def own : List Rela :=
  match d.DT_RELA, d.DT_JMPREL with
  | none, _ => []
  | some rela, none => d.entries rela.1 rela.2
  | some rela, some jmprel => d.entries rela.1 (ownSize rela jmprel)

def plt : List Rela :=
  match d.DT_JMPREL with
  | none => []
  | some jmprel => d.entries jmprel.1 jmprel.2

def nrelative : Nat := if d.DT_RELA.isSome then d.DT_RELACOUNT else 0

-- The table of the PLT lies behind the other one, is the end of it, or lies elsewhere.
structure WellFormed : Prop where
  start : ∀ rela, d.DT_RELA = some rela → rela.1 ≠ 0#64
  whole : ∀ rela jmprel, d.DT_RELA = some rela → d.DT_JMPREL = some jmprel →
    24 ∣ (ownSize rela jmprel).toNat
  fits : ∀ rela jmprel, d.DT_RELA = some rela → d.DT_JMPREL = some jmprel →
    (ownSize rela jmprel).toNat + jmprel.2.toNat < 2 ^ 64
  count : d.nrelative ≤ d.own.length

variable {d}

theorem entries_zero (start : Word) : d.entries start 0#64 = [] := rfl

theorem entries_append {start a b : Word} (ha : 24 ∣ a.toNat) (hfits : a.toNat + b.toNat < 2 ^ 64) :
    d.entries start (a + b) = d.entries start a ++ d.entries (start + a) b := by
  obtain ⟨n, hn⟩ := ha
  have hsum : (a + b).toNat = a.toNat + b.toNat := by
    rw [BitVec.toNat_add, Nat.mod_eq_of_lt hfits]
  have hcount : ((a + b).toNat + 23) / 24 = n + (b.toNat + 23) / 24 := by omega
  have hfirst : (a.toNat + 23) / 24 = n := by omega
  have hstart (i : Nat) : start + BitVec.ofNat 64 (24 * (n + i)) =
      start + a + BitVec.ofNat 64 (24 * i) := by
    rw [Nat.mul_add, ← hn, BitVec.ofNat_add, BitVec.ofNat_toNat, BitVec.setWidth_eq,
      BitVec.add_assoc]
  rw [entries, entries, entries, hcount, hfirst, List.range_add, List.map_append, List.map_map]
  exact congrArg _ (List.map_congr_left fun i _ => congrArg d.read (hstart i))

structure IsOwn (d : RelaTables) (start size : Word) (rg : RelaRange) : Prop where
  nrelative : rg.nrelative = d.nrelative
  lazy : rg.lazy = false
  entries : d.entries rg.start rg.size = d.own
  joined : rg.start + rg.size = start →
    d.entries rg.start (rg.size + size) = d.own ++ d.entries start size

theorem before_isOwn (hd : d.WellFormed) {start size : Word} (hj : d.DT_JMPREL = some (start, size)) :
    d.IsOwn start size (d.relaRange.before start size) := by
  unfold relaRange RelaRange.before
  cases hr : d.DT_RELA with
  | none =>
    have hown : d.own = [] := by rw [own, hr]
    have hcount : d.nrelative = 0 := by rw [nrelative, hr]; rfl
    have hzero : (if start + 0#64 = start + size then (⟨start, 0#64 - size, 0, false⟩ : RelaRange)
        else ⟨start, 0#64, 0, false⟩) = ⟨start, 0#64, 0, false⟩ := by
      split
      · rename_i h
        have hsize : size = 0#64 := by bv_omega
        rw [hsize]
        rfl
      · rfl
    simp only [if_true]
    rw [hzero]
    refine ⟨hcount.symm, rfl, (entries_zero _).trans hown.symm, fun _ => ?_⟩
    rw [hown, BitVec.zero_add]
    rfl
  | some rela =>
    have hstart := hd.start rela hr
    have hwhole := hd.whole rela _ hr hj
    have hfits := hd.fits rela _ hr hj
    have hown : d.own = d.entries rela.1 (ownSize rela (start, size)) := by rw [own, hr, hj]
    have hcount : d.nrelative = d.DT_RELACOUNT := by rw [nrelative, hr]; rfl
    have hrange : (if rela.1 + rela.2 = start + size then
          (⟨rela.1, rela.2 - size, d.DT_RELACOUNT, false⟩ : RelaRange)
        else ⟨rela.1, rela.2, d.DT_RELACOUNT, false⟩) =
        ⟨rela.1, ownSize rela (start, size), d.DT_RELACOUNT, false⟩ := by
      unfold ownSize
      split
      · rfl
      · rfl
    simp only [if_neg hstart]
    rw [hrange]
    refine ⟨hcount.symm, rfl, hown.symm, fun h => ?_⟩
    rw [hown, entries_append hwhole hfits]
    rw [h]

-- The loops go over every relocation of the two tables once.
theorem ranges_cover (hd : d.WellFormed) (do_lazy : Bool) :
    (d.ranges do_lazy).1.nrelative = d.nrelative ∧ (d.ranges do_lazy).1.lazy = false ∧
      (do_lazy = false ∧ d.entries (d.ranges do_lazy).1.start (d.ranges do_lazy).1.size =
            d.own ++ d.plt ∧ (d.ranges do_lazy).2 = {} ∨
        d.entries (d.ranges do_lazy).1.start (d.ranges do_lazy).1.size = d.own ∧
          d.entries (d.ranges do_lazy).2.start (d.ranges do_lazy).2.size = d.plt ∧
          (d.ranges do_lazy).2.nrelative = 0 ∧
          ((d.ranges do_lazy).2.lazy = do_lazy ∨ d.plt = [])) := by
  unfold ranges plt
  cases hj : d.DT_JMPREL with
  | none =>
    unfold relaRange nrelative own
    rw [hj]
    cases hr : d.DT_RELA with
    | none => exact ⟨rfl, rfl, .inr ⟨entries_zero _, entries_zero _, rfl, .inr rfl⟩⟩
    | some rela => exact ⟨rfl, rfl, .inr ⟨rfl, entries_zero _, rfl, .inr rfl⟩⟩
  | some jmprel =>
    obtain ⟨start, size⟩ := jmprel
    have hown := before_isOwn hd hj
    dsimp only
    split
    · rename_i h
      rw [Bool.and_eq_true, Bool.not_eq_true', decide_eq_true_eq] at h
      exact ⟨hown.nrelative, hown.lazy, .inl ⟨h.1, hown.joined h.2, rfl⟩⟩
    · exact ⟨hown.nrelative, hown.lazy, .inr ⟨hown.entries, rfl, rfl, .inl rfl⟩⟩

def nullRela : Rela := ⟨0#64, .R_X86_64_NONE, none, 0#64⟩

-- The tables of two lists of relocations, one behind the other.
def laidOut (start : Word) (own plt : List Rela) (count : Nat) : RelaTables where
  DT_RELA := some (start, BitVec.ofNat 64 (24 * own.length))
  DT_RELACOUNT := count
  DT_JMPREL :=
    some (start + BitVec.ofNat 64 (24 * own.length), BitVec.ofNat 64 (24 * plt.length))
  read a := ((own ++ plt)[(a - start).toNat / 24]?).getD nullRela

section LaidOut

variable {start : Word} {own plt : List Rela} {count : Nat}

theorem toNat_ofNat_of_lt {n : Nat} (h : n < 2 ^ 64) : (BitVec.ofNat 64 n).toNat = n := by
  rw [BitVec.toNat_ofNat, Nat.mod_eq_of_lt h]

theorem laidOut_entries (hfits : 24 * (own.length + plt.length) < 2 ^ 64) {k n : Nat}
    (hk : k + n ≤ own.length + plt.length) :
    (laidOut start own plt count).entries (start + BitVec.ofNat 64 (24 * k))
      (BitVec.ofNat 64 (24 * n)) = ((own ++ plt).drop k).take n := by
  have hcount : ((BitVec.ofNat 64 (24 * n)).toNat + 23) / 24 = n := by
    rw [toNat_ofNat_of_lt (by omega)]
    omega
  rw [entries, hcount]
  refine List.ext_getElem (by simp; omega) fun i hi hi' => ?_
  have hin : i < n := by simpa using hi
  have hindex : (start + BitVec.ofNat 64 (24 * k) + BitVec.ofNat 64 (24 * i) - start).toNat / 24 =
      k + i := by
    have haddr : start + BitVec.ofNat 64 (24 * k) + BitVec.ofNat 64 (24 * i) - start =
        BitVec.ofNat 64 (24 * (k + i)) := by
      rw [Nat.mul_add, BitVec.ofNat_add, BitVec.add_assoc, BitVec.add_comm start,
        BitVec.add_sub_cancel]
    rw [haddr, toNat_ofNat_of_lt (by omega)]
    omega
  have hlen : k + i < (own ++ plt).length := by
    rw [List.length_append]
    omega
  simp only [List.getElem_map, List.getElem_range, List.getElem_take, List.getElem_drop, laidOut]
  rw [hindex, List.getElem?_eq_getElem hlen, Option.getD_some]

theorem laidOut_ownSize :
    ownSize (start, BitVec.ofNat 64 (24 * own.length))
      (start + BitVec.ofNat 64 (24 * own.length), BitVec.ofNat 64 (24 * plt.length)) =
      BitVec.ofNat 64 (24 * own.length) := by
  unfold ownSize
  split
  · rename_i h
    have hzero : BitVec.ofNat 64 (24 * plt.length) = 0#64 := left_eq_add.mp h
    dsimp only
    rw [hzero, BitVec.sub_zero]
  · rfl

theorem laidOut_own (hfits : 24 * (own.length + plt.length) < 2 ^ 64) :
    (laidOut start own plt count).own = own := by
  have h : (laidOut start own plt count).entries (start + BitVec.ofNat 64 (24 * 0))
      (BitVec.ofNat 64 (24 * own.length)) = ((own ++ plt).drop 0).take own.length :=
    laidOut_entries hfits (by omega)
  change entries _ start (ownSize (start, _) (start + _, _)) = own
  rw [laidOut_ownSize]
  rw [Nat.mul_zero, BitVec.add_zero, List.drop_zero, List.take_left] at h
  exact h

theorem laidOut_plt (hfits : 24 * (own.length + plt.length) < 2 ^ 64) :
    (laidOut start own plt count).plt = plt := by
  have h : (laidOut start own plt count).entries (start + BitVec.ofNat 64 (24 * own.length))
      (BitVec.ofNat 64 (24 * plt.length)) = ((own ++ plt).drop own.length).take plt.length :=
    laidOut_entries hfits le_rfl
  rw [List.drop_left, List.take_length] at h
  exact h

theorem laidOut_wellFormed (hfits : 24 * (own.length + plt.length) < 2 ^ 64) (hstart : start ≠ 0#64)
    (hcount : count ≤ own.length) : (laidOut start own plt count).WellFormed where
  start _ h := by
    cases h
    exact hstart
  whole _ _ h h' := by
    cases h
    cases h'
    rw [laidOut_ownSize, toNat_ofNat_of_lt (by omega)]
    exact Nat.dvd_mul_right ..
  fits _ _ h h' := by
    cases h
    cases h'
    rw [laidOut_ownSize, toNat_ofNat_of_lt (by omega), toNat_ofNat_of_lt (by omega)]
    omega
  count := by
    rw [laidOut_own hfits]
    exact hcount

end LaidOut

end RelaTables

namespace RelaEnv

variable {E : RelaEnv} {d : RelaTables}

theorem elfDynamicDoRela_nil (lazy : Bool) (st : RelaState) :
    E.elfDynamicDoRela [] 0 lazy st = some st := by
  unfold elfDynamicDoRela
  cases lazy with
  | true => rfl
  | false => cases E.is_rtld_link_map <;> rfl

-- Without lazy binding, every relocation of the two tables leaves its word.
theorem elfDynamicDoReloc_relocated (hd : d.WellFormed) (hrtld : E.is_rtld_link_map = false)
    (hrelative : ∀ r ∈ d.own.take d.nrelative, r.r_type = .R_X86_64_RELATIVE)
    (hwords : ∀ r ∈ d.own ++ d.plt, (E.word r).isSome)
    (hnodup : ((d.own ++ d.plt).map E.relocAddr).Nodup) (st : RelaState) :
    ∃ st', E.elfDynamicDoReloc d false st = some st' ∧
      E.Relocated (d.own ++ d.plt) st.mem st'.mem := by
  obtain ⟨hcount, hlazy, hcover⟩ := d.ranges_cover hd false
  unfold elfDynamicDoReloc doRange
  rw [hcount, hlazy]
  rcases hcover with ⟨-, hall, hempty⟩ | ⟨hown, hplt, hzero, hlazy₂⟩
  · have htake : (d.own ++ d.plt).take d.nrelative = d.own.take d.nrelative :=
      List.take_append_of_le_length hd.count
    rw [← htake] at hrelative
    obtain ⟨st', h, hrel⟩ := elfDynamicDoRela_relocated hrtld hrelative hwords hnodup st
    refine ⟨st', ?_, hrel⟩
    rw [hall, h, hempty]
    change E.elfDynamicDoRela (d.entries 0#64 0#64) 0 false st' = some st'
    rw [RelaTables.entries_zero, elfDynamicDoRela_nil]
  · rw [List.map_append] at hnodup
    obtain ⟨st₁, h₁, hrel₁⟩ := elfDynamicDoRela_relocated hrtld hrelative
      (fun r hr => hwords r (List.mem_append_left _ hr)) (List.nodup_append.mp hnodup).1 st
    have hnone : ∀ r ∈ d.plt.take 0, r.r_type = .R_X86_64_RELATIVE := by simp
    obtain ⟨st₂, h₂, hrel₂⟩ := elfDynamicDoRela_relocated hrtld hnone
      (fun r hr => hwords r (List.mem_append_right _ hr))
      (List.nodup_append.mp hnodup).2.1 st₁
    refine ⟨st₂, ?_, hrel₁.append_of_nodup hrel₂ (by rwa [List.map_append])⟩
    rw [hown, h₁, hplt, hzero]
    rcases hlazy₂ with hlazy₂ | hnil
    · rw [hlazy₂]
      exact h₂
    · rw [hnil] at h₂ ⊢
      rw [elfDynamicDoRela_nil] at h₂
      exact (elfDynamicDoRela_nil _ _).trans h₂

end RelaEnv

end Platypus.Loader
