import Platypus.Linker.PltSlots

namespace Platypus.Linker

open Bytes Machine

-- The two sections that hold stubs for `.got.plt` slots.
inductive StubSection
  | plt
  | fakeplt
  deriving DecidableEq, Repr

namespace StubSection

def sec : StubSection → Section
  | .plt => .plt
  | .fakeplt => .fakeplt

def entries (c : Ctx) : StubSection → List SymId
  | .plt => c.plt
  | .fakeplt => c.fakeplt

def headerSize (cfg : Config) : StubSection → Nat
  | .plt => cfg.target.pltHeaderSize
  | .fakeplt => 0

def stub (cfg : Config) (c : Ctx) : StubSection → SymId → Word → Option (List Byte)
  | .plt => cfg.target.writePlt cfg c
  | .fakeplt => X86_64.writeFakePlt cfg c

def writeTo (cfg : Config) (c : Ctx) : StubSection → Buffer → Option Buffer
  | .plt => PltSection.writeTo cfg c
  | .fakeplt => FakePltSection.writeTo cfg c

def offset (cfg : Config) (S : StubSection) (j : Nat) : Nat := S.headerSize cfg + 32 * j

def stubVA (cfg : Config) (S : StubSection) (j : Nat) : Word :=
  cfg.va S.sec + BitVec.ofNat 64 (S.offset cfg j)

end StubSection

-- A call of `s` through its PLT goes to entry `j` of `S`, which was written for `s` and jumps
-- through the slot that the dynamic linker fills with `s`.
structure CallsStub (cfg : Config) (c : Ctx) (s : SymId) (S : StubSection) (j : Nat) : Prop where
  entry : (S.entries c)[j]? = some s
  plt : ∀ a p, c.getRelocTargetVA cfg .R_PLT s a p = some (S.stubVA cfg j + a)
  plt_pc : ∀ a p, c.getRelocTargetVA cfg .R_PLT_PC s a p = some (S.stubVA cfg j + a - p)
  written : ∀ buf buf', S.writeTo cfg c buf = some buf' →
    ∃ bs r, S.stub cfg c s (S.stubVA cfg j) = some bs ∧
      read buf' (S.offset cfg j) bs.length = bs ∧
      r ∈ computeRels c.relaPlt ∧ r.type = .R_X86_64_JUMP_SLOT ∧ r.inputSec = .gotPlt ∧
      r.sym = some s ∧
      jumpSlot (disassemble bs (S.stubVA cfg j)) = some (cfg.va .gotPlt + r.offsetInSec)

-- Every word of `.got.plt` is within a signed 32-bit displacement of every place of the
-- stub sections.
def Reach (cfg : Config) (c : Ctx) : Prop :=
  ∀ (S : StubSection) (b k : Nat), b ≤ S.offset cfg (S.entries c).length →
    k < c.gotPlt.length + 3 →
    -2 ^ 31 ≤ ((cfg.va .gotPlt).toNat + (8 * k : Nat) : Int) - ((cfg.va S.sec).toNat + b) ∧
      ((cfg.va .gotPlt).toNat + (8 * k : Nat) : Int) - ((cfg.va S.sec).toNat + b) < 2 ^ 31

section Reach

variable {cfg : Config} {c : Ctx} (h : Reach cfg c)

include h

theorem Reach.slot_lt {i : Nat} (hi : i < c.gotPlt.length) : 8 * (i + 3) < 2 ^ 32 := by
  have h₀ := h .fakeplt 0 0 (Nat.zero_le _) (by omega)
  have hi := h .fakeplt 0 (i + 3) (Nat.zero_le _) (by omega)
  omega

theorem Reach.offset_lt {S : StubSection} {j : Nat} (hj : j < (S.entries c).length) :
    32 * j < 2 ^ 32 := by
  have h₀ := h S 0 0 (Nat.zero_le _) (by omega)
  have hb := h S (32 * j) 0 (by unfold StubSection.offset; omega) (by omega)
  omega

theorem Reach.fits {S : StubSection} {i j e : Nat} (hi : i < c.gotPlt.length)
    (hj : j < (S.entries c).length) (he : e ≤ 32) :
    Fits (cfg.va .gotPlt + slotOffset i - (S.stubVA cfg j + BitVec.ofNat 64 e)) := by
  rw [slotOffset_eq i (h.slot_lt hi), StubSection.stubVA, BitVec.add_assoc, ← BitVec.ofNat_add,
    ofInt_sub_natCast]
  have hreach := h S (S.offset cfg j + e) (i + 3) (by unfold StubSection.offset; omega) (by omega)
  exact fits_ofInt _ (by push_cast at hreach ⊢; omega) (by push_cast at hreach ⊢; omega)

end Reach

theorem corrected_offset (j : Nat) (h : 32 * j < 2 ^ 32) :
    (BitVec.ofNat 32 j * pltEntrySize).setWidth 64 = BitVec.ofNat 64 (32 * j) := by
  apply BitVec.eq_of_toNat_eq
  simp only [pltEntrySize, BitVec.toNat_setWidth, BitVec.toNat_mul, BitVec.toNat_ofNat]
  omega

theorem stub_length (cfg : Config) (c : Ctx) (S : StubSection) (htarget : cfg.target = .IntelIBT)
    (s : SymId) (va : Word) (bs : List Byte) (h : S.stub cfg c s va = some bs) : bs.length ≤ 32 := by
  cases S with
  | fakeplt => exact writeFakePlt_length cfg c s va bs h
  | plt =>
    rw [StubSection.stub, htarget] at h
    by_cases hname : (c.syms s).startsWith "placeholder" = true
    · simp only [Target.writePlt, IntelIBT.writePlt, hname, if_true] at h
      split at h
      · obtain ⟨⟨init, reg⟩, _, rfl⟩ := Option.map_eq_some_iff.mp h
        change 26 ≤ 32
        decide
      · cases h
        change 16 ≤ 32
        decide
    · rw [Bool.not_eq_true] at hname
      rw [Target.writePlt, writePlt_eq_writeFakePlt cfg c s va hname] at h
      exact writeFakePlt_length cfg c s va bs h

-- Each section is its stubs, 32 bytes apart.
theorem read_writeTo (cfg : Config) (c : Ctx) (S : StubSection) (htarget : cfg.target = .IntelIBT)
    (buf buf' : Buffer) (h : S.writeTo cfg c buf = some buf') (j : Nat) (s : SymId)
    (hs : (S.entries c)[j]? = some s) :
    ∃ bs, S.stub cfg c s (S.stubVA cfg j) = some bs ∧
      read buf' (S.offset cfg j) bs.length = bs := by
  cases S with
  | plt =>
    exact read_writeRecords
      (fun x off bs hx => stub_length cfg c .plt htarget x _ bs hx) c.plt _ _ _ h j s hs
  | fakeplt =>
    exact read_writeRecords
      (fun x off bs hx => stub_length cfg c .fakeplt htarget x _ bs hx) c.fakeplt _ _ _ h j s hs

section Slot

variable {cfg : Config} {c : Ctx} {s : SymId} {i : Nat}

theorem HasSlot.callsStub (h : HasSlot c s i) (hi : i < c.gotPlt.length)
    (htarget : cfg.target = .IntelIBT) (hname : (c.syms s).startsWith "placeholder" = false)
    (hreach : Reach cfg c) : ∃ S j, CallsStub cfg c s S j := by
  obtain ⟨j, hj, hcorrected⟩ := h.stub
  let S : StubSection := if (c.syms s).isFake then .fakeplt else .plt
  have hentry : (S.entries c)[j]? = some s := by
    simp only [S]
    split <;> simpa [StubSection.entries, *] using hj
  have hjlt : j < (S.entries c).length := (List.getElem?_eq_some_iff.mp hentry).1
  have hoffset := corrected_offset j (hreach.offset_lt hjlt)
  -- the address that the index gives is the one at which the loop of `writeTo` writes
  have hva : (if (c.syms s).isFake then c.getFakePltVA cfg s else c.getPltVA cfg s) =
      S.stubVA cfg j := by
    simp only [Ctx.getFakePltVA, Ctx.getPltVA, h.isInIplt, hcorrected, hoffset, htarget, S]
    split <;> simp [StubSection.stubVA, StubSection.sec, StubSection.offset,
      StubSection.headerSize, htarget, Target.pltHeaderSize]
  have hslot : c.getGotPltVA cfg s = cfg.va .gotPlt + slotOffset i := by
    simp [Ctx.getGotPltVA, h.isInIplt, h.getGotPltOffset]
  have hstub : ∀ va, S.stub cfg c s va = X86_64.writeFakePlt cfg c s va := by
    intro va
    simp only [S]
    split
    · rfl
    · rw [StubSection.stub, htarget, Target.writePlt, writePlt_eq_writeFakePlt cfg c s va hname]
  refine ⟨S, j, hentry, ?_, ?_, ?_⟩
  · intro a p
    rw [Ctx.getRelocTargetVA, ← hva]
    split <;> rfl
  · intro a p
    rw [Ctx.getRelocTargetVA, ← hva]
    split <;> rfl
  · intro buf buf' hwrite
    obtain ⟨bs, hbs, hread⟩ := read_writeTo cfg c S htarget buf buf' hwrite j s hentry
    refine ⟨bs, slotReloc c .R_X86_64_JUMP_SLOT .gotPlt s, hbs, hread, ?_, rfl, rfl, rfl, ?_⟩
    · exact List.mem_append_left _ (List.mem_of_getElem? h.reloc)
    · rw [hstub] at hbs
      have hjump := jumpSlot_writeFakePlt cfg c s _ bs hbs
        (hslot ▸ hreach.fits hi hjlt (by decide)) (hslot ▸ hreach.fits hi hjlt (by decide))
      rw [hjump, hslot]
      exact congrArg (fun off => some (cfg.va .gotPlt + off)) h.getGotPltOffset.symm

end Slot

theorem postScanRelocations_append (cfg : Config) (c : Ctx) (pre : List Nat) (n : Nat)
    (post : List Nat) :
    postScanRelocations cfg c (pre ++ n :: post) =
      (post.map .sym).foldl (postScanSymbol cfg)
        (postScanSymbol cfg (postScanRelocations cfg c pre) (.sym n)) := by
  simp [postScanRelocations]

section Called

variable {c : Ctx} {pre post : List Nat} {n : Nat}

-- The symbols that the loop has not reached, after the part `pre`.
theorem Link.part_rest (h : Link c (pre ++ n :: post)) (cfg : Config) :
    ∀ m ∈ n :: post, ((postScanRelocations cfg c pre).syms (.sym m)).part =
      (c.syms (.sym m)).part := by
  intro m hm
  obtain ⟨hpre, _, hdisjoint⟩ := List.nodup_append.mp h.nodup
  have hpending : ∀ k ∈ pre, Pending (addTlsLd cfg c) (.sym k) :=
    fun k hk => h.pending cfg k (List.mem_append_left _ hk)
  exact (part_run cfg pre (addTlsLd cfg c) m (fun hm' => hdisjoint m hm' m hm rfl) hpre
    hpending).trans (SameSymbol.of_view (view_addTlsLd cfg c) _).sym

theorem Link.isFake_rest (h : Link c (pre ++ n :: post)) (cfg : Config) :
    ((postScanRelocations cfg c pre).syms (.sym n)).isFake = (c.syms (.sym n)).isFake := by
  have hreloc := congrArg SymbolPart.iscustomreloc (h.part_rest cfg n List.mem_cons_self)
  simp only [Symbol.part] at hreloc
  rw [Symbol.isFake, Symbol.customrelocType, hreloc]
  rfl

theorem Link.startsWith_rest (h : Link c (pre ++ n :: post)) (cfg : Config) (text : String) :
    ((postScanRelocations cfg c pre).syms (.sym n)).startsWith text =
      (c.syms (.sym n)).startsWith text := by
  have hname := congrArg SymbolPart.name (h.part_rest cfg n List.mem_cons_self)
  simp only [Symbol.part] at hname
  rw [Symbol.startsWith, hname]
  rfl

theorem Link.pending_rest (h : Link c (pre ++ n :: post)) (cfg : Config) :
    ∀ m ∈ n :: post, Pending (postScanRelocations cfg c pre) (.sym m) := by
  intro m hm
  have hpending : Pending c (.sym m) :=
    ⟨h.fresh.isInIplt _, h.odd m (List.mem_append_right _ hm)⟩
  exact hpending.of_part (h.part_rest cfg m hm)

theorem Link.name_eq (h : Link c (pre ++ n :: post)) (cfg : Config) :
    ((postScanRelocations cfg c (pre ++ n :: post)).syms (.sym n)).name =
      (c.syms (.sym n)).name := by
  obtain ⟨_, hnodup, _⟩ := List.nodup_append.mp h.nodup
  have hpending := h.pending_rest cfg
  have hfirst := hpending n List.mem_cons_self
  obtain ⟨fake, plain, hstep, _⟩ := postScanSymbol_step cfg (postScanRelocations cfg c pre)
    (.sym n) (SymId.copy_ne n) hfirst.isInIplt hfirst.odd
  rw [postScanRelocations_append]
  have hafter := part_run cfg post _ n (List.nodup_cons.mp hnodup).1 (List.nodup_cons.mp hnodup).2
    (Linker.pending_rest cfg hnodup hpending)
  calc _ = _ := congrArg SymbolPart.name hafter
    _ = _ := hstep.others.name (SymId.copy_ne n).symm
    _ = _ := congrArg SymbolPart.name (h.part_rest cfg n List.mem_cons_self)

-- A symbol that is called, or of a fake custom type, has a slot at the end.
theorem Link.mem_gotPlt (h : Link c (pre ++ n :: post)) (cfg : Config)
    (hname : (c.syms (.sym n)).startsWith "placeholder" = false)
    (hifunc : isOwnIfunc cfg (c.syms (.sym n)) = false)
    (hcalled : (c.syms (.sym n)).isFake = true ∨
      ((postScanRelocations cfg c pre).syms (.sym n)).flags.NEEDS_PLT = true) :
    .sym n ∈ (postScanRelocations cfg c (pre ++ n :: post)).gotPlt := by
  obtain ⟨_, hnodup, _⟩ := List.nodup_append.mp h.nodup
  have hpending := h.pending_rest cfg
  have hfirst := hpending n List.mem_cons_self
  have hpart := h.part_rest cfg n List.mem_cons_self
  have htype := congrArg SymbolPart.type hpart
  have hpreempt := congrArg SymbolPart.isPreemptible hpart
  simp only [Symbol.part] at htype hpreempt
  obtain ⟨fake, plain, hstep, hadded⟩ := postScanSymbol_step cfg (postScanRelocations cfg c pre)
    (.sym n) (SymId.copy_ne n) hfirst.isInIplt hfirst.odd
  have hslot : (fake || plain) = true := by
    apply hadded
    · rwa [isOwnIfunc, Symbol.isGnuIFunc, htype, hpreempt]
    · rwa [h.isFake_rest cfg]
    · rwa [h.startsWith_rest cfg]
  rw [postScanRelocations_append]
  refine mem_gotPlt_run cfg post _ _ ?_ (List.nodup_cons.mp hnodup).2
    (Linker.pending_rest cfg hnodup hpending)
  rw [hstep.gotPlt, if_pos hslot]
  exact List.mem_append_right _ (List.mem_singleton.mpr rfl)

end Called

-- `NEEDS_PLT`, which the scan sets for the relocations R_PLT and R_PLT_PC, is read when the
-- turn of the symbol comes: a copy relocation of an alias may have erased it before.
theorem postScanRelocations_callsStub (cfg : Config) (c : Ctx) (pre post : List Nat) (n : Nat)
    (h : Link c (pre ++ n :: post)) (htarget : cfg.target = .IntelIBT)
    (hname : (c.syms (.sym n)).startsWith "placeholder" = false)
    (hifunc : isOwnIfunc cfg (c.syms (.sym n)) = false)
    (hcalled : (c.syms (.sym n)).isFake = true ∨
      ((postScanRelocations cfg c pre).syms (.sym n)).flags.NEEDS_PLT = true)
    (hreach : Reach cfg (postScanRelocations cfg c (pre ++ n :: post))) :
    ∃ S j, CallsStub cfg (postScanRelocations cfg c (pre ++ n :: post)) (.sym n) S j := by
  have hinv := h.slotInv cfg
  obtain ⟨i, hi⟩ := List.mem_iff_getElem?.mp (h.mem_gotPlt cfg hname hifunc hcalled)
  have hname' : ((postScanRelocations cfg c (pre ++ n :: post)).syms (.sym n)).startsWith
      "placeholder" = false := by
    rwa [Symbol.startsWith, h.name_eq cfg]
  exact (hinv.slots i _ hi).callsStub (List.getElem?_eq_some_iff.mp hi).1 htarget hname' hreach

-- In the layout of `demoConfig` everything is near everything.
theorem demoConfig_reach (c : Ctx) (hplt : c.plt.length ≤ 2) (hfake : c.fakeplt.length ≤ 2)
    (hgot : c.gotPlt.length ≤ 3) : Reach (demoConfig .IntelIBT) c := by
  rintro (_ | _) b k hb hk
  · change b ≤ 0 + 32 * c.plt.length at hb
    change -2 ^ 31 ≤ ((0x5000 : Nat) + (8 * k : Nat) : Int) - ((0x1000 : Nat) + b) ∧
      ((0x5000 : Nat) + (8 * k : Nat) : Int) - ((0x1000 : Nat) + b) < 2 ^ 31
    omega
  · change b ≤ 0 + 32 * c.fakeplt.length at hb
    change -2 ^ 31 ≤ ((0x5000 : Nat) + (8 * k : Nat) : Int) - ((0x2000 : Nat) + b) ∧
      ((0x5000 : Nat) + (8 * k : Nat) : Int) - ((0x2000 : Nat) + b) < 2 ^ 31
    omega

theorem callsStub_demoLink :
    ∃ S j, CallsStub (demoConfig .IntelIBT)
      (postScanRelocations (demoConfig .IntelIBT) demoLink [0, 1, 2]) (.sym 1) S j :=
  postScanRelocations_callsStub (demoConfig .IntelIBT) demoLink [0] [2] 1 demoLink_link rfl
    (by decide) (by decide) (by decide) (demoConfig_reach _ (by decide) (by decide) (by decide))

theorem not_callsStub_of_nil (cfg : Config) (c : Ctx) (s : SymId) (hplt : c.plt = [])
    (hfake : c.fakeplt = []) : ¬ ∃ S j, CallsStub cfg c s S j := by
  rintro ⟨S, j, h⟩
  have hentry := h.entry
  cases S <;> simp [StubSection.entries, hplt, hfake] at hentry

-- An ifunc of the module itself that is called.
def ifuncLink : Ctx where
  syms _ := {
    name := ['m', 'e', 'm', 'c', 'p', 'y']
    type := .STT_GNU_IFUNC
    kind := .Defined
    isPreemptible := false
    flags := { NEEDS_PLT := true }
    section_ := some (.input 0) }

-- Two symbols at one address of a library: the first is data and is copied, the second is called.
def aliasLink : Ctx where
  syms
    | .sym 0 => {
        name := ['e', 'n', 'v']
        type := .STT_OBJECT
        size := 8#64
        flags := { NEEDS_COPY := true } }
    | _ => { name := ['e', 'n', 'v', 'p'], flags := { NEEDS_PLT := true } }

def aliasConfig : Config :=
  { demoConfig .IntelIBT with aliases := fun s => if s = .sym 0 then [.sym 0, .sym 1] else [] }

-- The call of the ifunc goes to `.iplt`; the call of the alias finds no entry at all.
theorem ifunc_and_alias_not_callsStub :
    Link ifuncLink [0] ∧ (ifuncLink.syms (.sym 0)).flags.NEEDS_PLT = true ∧
      (∀ a p, (postScanRelocations (demoConfig .IntelIBT) ifuncLink [0]).getRelocTargetVA
        (demoConfig .IntelIBT) .R_PLT_PC (.sym 0) a p =
          some ((demoConfig .IntelIBT).va .iplt + 0#64 + a - p)) ∧
      (¬ ∃ S j, CallsStub (demoConfig .IntelIBT)
        (postScanRelocations (demoConfig .IntelIBT) ifuncLink [0]) (.sym 0) S j) ∧
      Link aliasLink [0, 1] ∧ (aliasLink.syms (.sym 1)).flags.NEEDS_PLT = true ∧
      ¬ ∃ S j, CallsStub aliasConfig (postScanRelocations aliasConfig aliasLink [0, 1])
        (.sym 1) S j := by
  refine ⟨⟨⟨rfl, rfl, rfl, rfl, rfl, fun _ => rfl⟩, by decide, by decide⟩, rfl, fun a p => rfl, ?_,
    ⟨⟨rfl, rfl, rfl, rfl, rfl, ?_⟩, by decide, by decide⟩, rfl, ?_⟩
  · exact not_callsStub_of_nil _ _ _ rfl rfl
  · intro s
    rcases s with ((_ | n) | n) <;> rfl
  · exact not_callsStub_of_nil _ _ _ rfl rfl

end Platypus.Linker
