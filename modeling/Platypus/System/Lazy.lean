import Platypus.Linker.LazySlot
import Platypus.Linker.PltAddr
import Platypus.Loader.Fixup
import Platypus.System.Relocated

-- Calls through slots that are bound when they are first used.

namespace Platypus.System

open Linker Loader
open Header (toRela)

section Calls

variable (L : Linked) (E : RelaEnv)

-- Code of the loaded object that hands the index of a relocation to the resolver.
def PushesAt (w : Loader.Word) (j : BitVec 32) : Prop :=
  ∃ va bs, Linker.Entry L.cfg L.ctx va bs ∧
    lazyAt (Machine.disassemble bs va) va (w - E.map.l_addr) = some (j, pltHeaderVA L.cfg)

def slotAddr (s : SymId) : Loader.Word := E.map.l_addr + L.ctx.getGotPltVA L.cfg s

def slotRela (s : SymId) : Rela :=
  toRela L.ctx (computeRawPlt L.cfg L.ctx (slotReloc L.ctx .R_X86_64_JUMP_SLOT .gotPlt s))

-- A call through the slot of a symbol, with the address that it goes to.
inductive Call (dl_bind_not : Bool) : RelaState → SymId → Loader.Word → RelaState → Prop
  | bound (st : RelaState) (s : SymId) (hs : s ∈ L.ctx.gotPlt)
      (h : ∀ j, ¬ PushesAt L E (st.mem (slotAddr L E s)) j) :
      Call dl_bind_not st s (st.mem (slotAddr L E s)) st
  | first (st st' : RelaState) (s : SymId) (hs : s ∈ L.ctx.gotPlt) (j : BitVec 32)
      (value : Loader.Word) (h : PushesAt L E (st.mem (slotAddr L E s)) j)
      (hfixup : E.dlFixup L.tables dl_bind_not j st = some (value, st')) :
      Call dl_bind_not st s value st'

inductive Calls (dl_bind_not : Bool) : RelaState → List (SymId × Loader.Word) → RelaState → Prop
  | nil (st : RelaState) : Calls dl_bind_not st [] st
  | cons {st st' st'' : RelaState} {s : SymId} {target : Loader.Word}
      {trace : List (SymId × Loader.Word)} (hcall : Call L E dl_bind_not st s target st')
      (hrest : Calls dl_bind_not st' trace st'') : Calls dl_bind_not st ((s, target) :: trace) st''

-- A link whose slots are those of plain functions, none of which begins in the code of the PLT.
structure BindsLazily : Prop where
  written : L.Written
  slots : ∃ done, SlotInv L.ctx done
  target : L.cfg.target = .X86_64
  limits : PltLimits L.cfg L.ctx
  plain : ∀ s ∈ L.ctx.gotPlt,
    (L.ctx.syms s).isFake = false ∧ L.cfg.callb_get.lookup (L.ctx.syms s).name = none
  rtld : E.is_rtld_link_map = false
  ifunc : E.skip_ifunc = false
  words : ∀ r ∈ L.tables.own ++ L.tables.plt, (E.word r).isSome
  places : WordsApart (L.relocs.map fun r => E.map.l_addr + L.getOffset r)
  apart : ∀ s ∈ L.ctx.gotPlt, ∀ w, E.word (slotRela L s) = some w → ∀ j, ¬ PushesAt L E w j

end Calls

namespace BindsLazily

variable {L : Linked} {E : RelaEnv} (h : BindsLazily L E)
include h

theorem slot {i : Nat} {s : SymId} (hs : L.ctx.gotPlt[i]? = some s) : HasSlot L.ctx s i := by
  obtain ⟨done, hinv⟩ := h.slots
  exact hinv.slots i s hs

theorem plt_eq : L.tables.plt = L.ctx.gotPlt.map (slotRela L) ++
    (L.ctx.relaPlt.filter fun r => r.type = .R_X86_64_IRELATIVE).map fun r =>
      toRela L.ctx (computeRawPlt L.cfg L.ctx r) := by
  obtain ⟨done, hinv⟩ := h.slots
  have hslots : (L.ctx.relaPlt.filter fun r => r.type ≠ .R_X86_64_IRELATIVE) =
      L.ctx.gotPlt.map (slotReloc L.ctx .R_X86_64_JUMP_SLOT .gotPlt) := jumpSlots_eq hinv
  rw [h.written.plt, computeRelaPlt, computeRels, hslots, List.map_append, List.map_append,
    List.map_map, List.map_map, List.map_map]
  rfl

theorem plt_types : ∀ r ∈ L.tables.plt,
    r.r_type = .R_X86_64_JUMP_SLOT ∨ r.r_type = .R_X86_64_IRELATIVE := by
  rw [h.plt_eq]
  intro r hr
  rcases List.mem_append.mp hr with hr | hr
  · obtain ⟨s, -, rfl⟩ := List.mem_map.mp hr
    exact .inl rfl
  · obtain ⟨r₀, hr₀, rfl⟩ := List.mem_map.mp hr
    exact .inr (of_decide_eq_true (List.mem_filter.mp hr₀).2)

theorem plt_get {i : Nat} {s : SymId} (hs : L.ctx.gotPlt[i]? = some s) :
    L.tables.plt[i]? = some (slotRela L s) := by
  have hi := (List.getElem?_eq_some_iff.mp hs).1
  rw [h.plt_eq, List.getElem?_append_left (by rwa [List.length_map]), List.getElem?_map, hs]
  rfl

theorem slotAddr_eq {s : SymId} (hs : s ∈ L.ctx.gotPlt) :
    E.relocAddr (slotRela L s) = slotAddr L E s := by
  obtain ⟨i, hi⟩ := List.getElem?_of_mem hs
  have hiplt := (h.slot hi).isInIplt
  rw [slotAddr, Ctx.getGotPltVA, hiplt]
  rfl

theorem mem_plt {s : SymId} (hs : s ∈ L.ctx.gotPlt) : slotRela L s ∈ L.tables.plt := by
  obtain ⟨i, hi⟩ := List.getElem?_of_mem hs
  exact List.mem_of_getElem? (h.plt_get hi)

-- The code that an unbound slot leads to pushes the index of the slot.
theorem pushesAt_unbound {i : Nat} {s : SymId} (hs : L.ctx.gotPlt[i]? = some s) :
    PushesAt L E (X86_64.writeGotPlt L.cfg L.ctx s + E.map.l_addr) (.ofNat 32 i) := by
  obtain ⟨hfake, hname⟩ := h.plain s (List.mem_of_getElem? hs)
  obtain ⟨va, bs, hentry, hlazy⟩ := lazySlot_plain h.target (h.slot hs) h.limits hfake hname
  rw [writeGotPlt_x86 h.target] at hlazy
  refine ⟨va, bs, hentry, ?_⟩
  rwa [BitVec.add_sub_cancel]

theorem pushesAt_unique {i : Nat} {s : SymId} (hs : L.ctx.gotPlt[i]? = some s) {j : BitVec 32}
    (hj : PushesAt L E (X86_64.writeGotPlt L.cfg L.ctx s + E.map.l_addr) j) : j = .ofNat 32 i := by
  obtain ⟨hfake, hname⟩ := h.plain s (List.mem_of_getElem? hs)
  obtain ⟨k, hk, hva⟩ := (h.slot hs).getPltVA h.target h.limits hfake
  have hklt := (List.getElem?_eq_some_iff.mp hk).1
  have hplt := h.limits.plt
  have hvalue : X86_64.writeGotPlt L.cfg L.ctx s =
      L.cfg.va .plt + BitVec.ofNat 64 (16 + 32 * k + 6) := by
    rw [X86_64.writeGotPlt, hname, hfake, hva]
    exact add_add_ofNat _ _ 6
  obtain ⟨va, bs, hentry, hlazy⟩ := hj
  rw [BitVec.add_sub_cancel, hvalue] at hlazy
  obtain ⟨k', t, ht, hv⟩ := entry_x86 h.target hentry hlazy
  have hlt' := (List.getElem?_eq_some_iff.mp ht).1
  rcases hv with ⟨-, hv, hindex⟩ | hv
  · have heq := add_ofNat_inj (by omega) (by omega) hv
    have hsame : k = k' := by omega
    rw [← hsame, hk] at ht
    cases ht
    exact hindex.trans (h.slot hs).index
  · have heq := add_ofNat_inj (by omega) (by omega) hv
    omega

end BindsLazily

-- Each slot is as it was loaded or holds the address of its function.
def EachSlot (L : Linked) (E : RelaEnv) (eager st : RelaState) : Prop :=
  ∀ s ∈ L.ctx.gotPlt,
    st.mem (slotAddr L E s) = X86_64.writeGotPlt L.cfg L.ctx s + E.map.l_addr ∨
      st.mem (slotAddr L E s) = eager.mem (slotAddr L E s)

-- The memory in which every slot is bound.
def Bound (L : Linked) (E : RelaEnv) (eager : RelaState) : Prop :=
  ∀ s ∈ L.ctx.gotPlt, E.word (slotRela L s) = some (eager.mem (slotAddr L E s))

namespace BindsLazily

variable {L : Linked} {E : RelaEnv} (h : BindsLazily L E) {eager : RelaState}
  (hbound : Bound L E eager)
include h hbound

theorem dlFixup_unbound {s : SymId} (hs : s ∈ L.ctx.gotPlt) {j : BitVec 32}
    (hj : PushesAt L E (X86_64.writeGotPlt L.cfg L.ctx s + E.map.l_addr) j) (dl_bind_not : Bool)
    (st : RelaState) :
    E.dlFixup L.tables dl_bind_not j st = some (eager.mem (slotAddr L E s),
      if dl_bind_not then st else st.write (slotAddr L E s) (eager.mem (slotAddr L E s))) := by
  obtain ⟨i, hi⟩ := List.getElem?_of_mem hs
  have hlt : i < 2 ^ 32 := by
    have hlen := (List.getElem?_eq_some_iff.mp hi).1
    have hlimit := h.limits.gotPlt
    omega
  obtain ⟨value, hvalue, hfixup⟩ :=
    RelaEnv.dlFixup_word h.ifunc (h.plt_get hi) hlt rfl dl_bind_not st
  cases hvalue.symm.trans (hbound s hs)
  rw [h.pushesAt_unique hi hj, hfixup, h.slotAddr_eq hs]

-- A call goes where it would go if everything were bound, and keeps the other slots.
theorem call_step {dl_bind_not : Bool} {st st' : RelaState} {s : SymId} {target : Loader.Word}
    (hinv : EachSlot L E eager st) (hcall : Call L E dl_bind_not st s target st') :
    target = eager.mem (slotAddr L E s) ∧ EachSlot L E eager st' := by
  cases hcall with
  | bound _ hs hnone =>
    rcases hinv s hs with hunbound | heq
    · obtain ⟨i, hi⟩ := List.getElem?_of_mem hs
      rw [hunbound] at hnone
      exact absurd (h.pushesAt_unbound hi) (hnone _)
    · exact ⟨heq, hinv⟩
  | first _ _ hs j _ hpush hfixup =>
    rcases hinv s hs with hunbound | heq
    · rw [hunbound] at hpush
      cases hfixup.symm.trans (h.dlFixup_unbound hbound hs hpush dl_bind_not st)
      refine ⟨rfl, fun t ht => ?_⟩
      cases dl_bind_not with
      | true => exact hinv t ht
      | false =>
        by_cases hsame : slotAddr L E t = slotAddr L E s
        · right
          rw [if_neg Bool.false_ne_true, hsame]
          exact RelaState.mem_write_self ..
        · rw [if_neg Bool.false_ne_true, RelaState.write_mem, Function.update_of_ne hsame]
          exact hinv t ht
    · rw [heq] at hpush
      exact absurd hpush (h.apart s hs _ (hbound s hs) j)

theorem call_exists {st : RelaState} (hinv : EachSlot L E eager st) {s : SymId}
    (hs : s ∈ L.ctx.gotPlt) (dl_bind_not : Bool) :
    ∃ target st', Call L E dl_bind_not st s target st' := by
  obtain ⟨i, hi⟩ := List.getElem?_of_mem hs
  rcases hinv s hs with hunbound | heq
  · have hpush := h.pushesAt_unbound hi
    exact ⟨_, _, .first st _ s hs _ _ (hunbound ▸ hpush)
      (h.dlFixup_unbound hbound hs hpush dl_bind_not st)⟩
  · exact ⟨_, _, .bound st s hs (heq ▸ h.apart s hs _ (hbound s hs))⟩

theorem calls_run {dl_bind_not : Bool} {st st' : RelaState} {trace : List (SymId × Loader.Word)}
    (hinv : EachSlot L E eager st) (hcalls : Calls L E dl_bind_not st trace st') :
    (∀ call ∈ trace, call.2 = eager.mem (slotAddr L E call.1)) ∧ EachSlot L E eager st' := by
  induction hcalls with
  | nil st => exact ⟨nofun, hinv⟩
  | cons hcall _ ih =>
    obtain ⟨htarget, hinv'⟩ := h.call_step hbound hinv hcall
    obtain ⟨htargets, hend⟩ := ih hinv'
    refine ⟨?_, hend⟩
    rw [List.forall_mem_cons]
    exact ⟨htarget, htargets⟩

end BindsLazily

def lazyCtx : Ctx := postScanRelocations (demoConfig .X86_64) callsLink [0, 1, 2]

def lazyLink : Linked := .laid (demoConfig .X86_64) lazyCtx (fun _ => 1) true 0x600#64 [] 0

def lazyEnv : RelaEnv where
  to_mitigate := true
  call a := a
  skip_ifunc := false
  map := { l_addr := 0x10000000#64 }
  found _ := some ⟨{}, 0x700000#64, false⟩

def lazyState : RelaState where
  mem a :=
    ((lazyCtx.gotPlt.find? fun s => slotAddr lazyLink lazyEnv s = a).map
      (X86_64.writeGotPlt lazyLink.cfg lazyCtx)).getD 0#64
  placeholder_plts := []

theorem lazyLink_bindsLazily : BindsLazily lazyLink lazyEnv where
  written := Linked.laid_written (by decide) (by decide) (by decide)
  slots := ⟨_, callsLink_link.slotInv (demoConfig .X86_64)⟩
  target := rfl
  limits := demoConfig_limits _ _ (by decide) (by decide) (by decide)
  plain := by decide
  rtld := rfl
  ifunc := rfl
  words := by decide
  places := by decide
  apart := by
    rintro s - w hw j ⟨va, bs, hentry, hlazy⟩
    cases hw
    obtain ⟨k, t, hk, hv⟩ := entry_x86 rfl hentry hlazy
    have hlt : k < 3 := (List.getElem?_eq_some_iff.mp hk).1
    have houtside (n : Nat) (hn : n < 0x1000) :
        0x700000#64 - 0x10000000#64 ≠ 0x1000#64 + BitVec.ofNat 64 n := by
      intro heq
      have hnat := congrArg BitVec.toNat heq
      simp only [BitVec.toNat_add, BitVec.toNat_sub, BitVec.toNat_ofNat] at hnat
      omega
    rcases hv with ⟨-, hv, -⟩ | hv
    · exact houtside _ (by omega) hv
    · exact houtside _ (by omega) hv

end Platypus.System
