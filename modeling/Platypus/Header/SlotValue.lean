import Platypus.Header.Tables
import Platypus.Linker.CallbackReloc
import Platypus.Loader.Rela

namespace Platypus.Header

open Linker Loader

theorem mem_emitSlots (ctr : Counter) (vs : List Name) (slot : Slot) (h : slot ∈ emitSlots ctr vs) :
    ∃ i, 1 ≤ i ∧ slot.symbol = makeVarnameSuffix slot.entry i := by
  induction vs generalizing ctr with
  | nil => exact absurd h List.not_mem_nil
  | cons v vs ih =>
    rw [emitSlots, List.mem_cons] at h
    rcases h with rfl | h
    · exact ⟨ctr.bump v v, by simp [Counter.bump], rfl⟩
    · exact ih _ h

theorem mem_tables_slots (ctr : Counter) (es : List (Name × List Name)) (t : Table)
    (ht : t ∈ emitTables ctr es) (slot : Slot) (h : slot ∈ t.slots) :
    ∃ i, 1 ≤ i ∧ slot.symbol = makeVarnameSuffix slot.entry i := by
  induction es generalizing ctr with
  | nil => exact absurd ht List.not_mem_nil
  | cons e es ih =>
    obtain ⟨key, values⟩ := e
    rw [emitTables, List.mem_cons] at ht
    rcases ht with rfl | ht
    · exact mem_emitSlots _ _ slot h
    · exact ih _ ht

-- A whitelist entry: a tag and the digits of an offset into the module that the tag names.
structure Entry (entry tag digits : Name) : Prop where
  text : entry = tag ++ "_0x".toList ++ digits
  tag : '_' ∉ tag
  nonempty : digits ≠ []
  hex : ∀ c ∈ digits, Text.IsDigit 16 c
  bound : Text.ofDigits 16 digits < 0xffffff

theorem Entry.callbackName {entry tag digits : Name} (h : Entry entry tag digits) (i : Nat)
    (hi : 1 ≤ i) : CallbackName (makeVarnameSuffix entry i) tag digits where
  split := by
    refine ⟨List.replicate (i - 1) '1' ++ "1337".toList, ?_, List.suffix_append _ _⟩
    rw [makeVarnameSuffix_eq entry i hi, h.text]
    simp
  tag := h.tag
  nonempty := h.nonempty
  hex := h.hex
  bound := h.bound

-- A relocation of the file as the loader reads it.
def toRela (c : Ctx) (raw : RawReloc) : Rela :=
  ⟨raw.r_offset, raw.type, raw.r_sym.map fun s => (c.syms s).name, BitVec.ofInt 64 raw.addend⟩

-- From the name of a slot to the word in it: the linker reads the tag and the offset back, and
-- the loader writes the address at that offset in the module that it finds for the tag.
theorem slot_holds_entry (d : MaskDict) (t : Table) (ht : t ∈ tables d) (slot : Slot)
    (hslot : slot ∈ t.slots) (tag digits : Name) (hentry : Entry slot.entry tag digits)
    (cfg : ScanConfig) (st : ScanState) (secs : List (InputSec × List Rel)) (sec : InputSec)
    (rel : Rel) (honly : OnlyReference secs sec rel) (hsym : Extern (st.sym rel.sym))
    (hname : (st.sym rel.sym).name = slot.symbol) :
    callbackReloc sec rel ∈ (scanRelocations cfg st secs).ctx.relaDyn ∧
    ∃ raw, computeRaw cfg.toConfig (scanRelocations cfg st secs).ctx (callbackReloc sec rel) =
        some raw ∧
      raw.r_offset = cfg.va sec.id + rel.offset ∧ raw.addend = Text.ofDigits 16 digits ∧
      (toRela (scanRelocations cfg st secs).ctx raw).sym = some tag ∧
      ∀ (to_mitigate skip_ifunc : Bool) (call : Resolver) (map : LinkMap) (found : Found)
        (rs : RelaState),
        ∃ rs', elfMachineRela to_mitigate call skip_ifunc map (some found)
            (toRela (scanRelocations cfg st secs).ctx raw) rs = some rs' ∧
          rs'.mem (map.l_addr + (cfg.va sec.id + rel.offset)) =
            found.sym_map.l_addr + BitVec.ofNat 64 (Text.ofDigits 16 digits) ∧
          ∀ a, a ≠ map.l_addr + (cfg.va sec.id + rel.offset) → rs'.mem a = rs.mem a := by
  obtain ⟨i, hi, hsuffix⟩ := mem_tables_slots _ _ t ht slot hslot
  have hcallback : CallbackName (st.sym rel.sym).name tag digits := by
    rw [hname, hsuffix]
    exact hentry.callbackName i hi
  obtain ⟨hdecoded, hmem⟩ := scanRelocations_callback cfg st secs sec rel honly hsym
    hcallback.toWhitelistName
  have hraw := computeRaw_callback cfg.toConfig (scanRelocations cfg st secs).ctx sec rel _
    hcallback.toWhitelistName hdecoded
  have hlt : offsetOf digits < 0xffffff := hcallback.bound
  rw [hcallback.readOffset_eq, Nat.mod_eq_of_lt (by omega)] at hraw
  refine ⟨hmem, _, hraw, rfl, rfl, ?_, ?_⟩
  · rw [toRela, Option.map_some]
    exact congrArg some (congrArg Symbol.name hdecoded)
  · intro to_mitigate skip_ifunc call map found rs
    refine ⟨_, rfl, ?_, fun a ha => RelaState.mem_write_of_ne _ _ ha⟩
    refine (RelaState.mem_write_self _ _ _).trans ?_
    rw [BitVec.add_comm, toRela, BitVec.ofInt_natCast]
    rfl

-- The entry of LIBC in a header with one slot, in a link that has nothing else.

def demoEntry : MaskDict := ⟨[("LIBC".toList, ["BIN_0x10".toList])], by decide⟩

def demoSlot : Slot := ⟨"BIN_0x10".toList, "BIN_0x10_1337".toList⟩

def demoScan : ScanConfig where
  target := .IntelIBT
  shared := false
  isPic := true
  zIfuncNoplt := false
  androidPackDynRelocs := false
  relrDyn := false
  needsTlsLd := false
  aliases _ := []
  callb_get := []
  va _ := 0x3000#64
  relax := true
  zText := true
  zCopyreloc := true
  ignoreFunctionAddressEquality := false
  ignoreDataAddressEquality := false
  unresolvedSymbols := .ReportError
  noinhibitExec := false
  dsoProtected _ := false
  scriptDefined _ := false
  hasVersionSuffix _ := false
  canBeExternal _ := true

def demoData : InputSec := ⟨.input 0, true, false, 8, fun _ => 0#8⟩

def demoRel : Rel := ⟨.sym 0, 1, .R_X86_64_64, 0x8#64, 0⟩

def demoState : ScanState :=
  { ctx := { syms := fun _ =>
      { name := "BIN_0x10_1337".toList, type := .STT_NOTYPE, kind := .Undefined } } }

theorem demoRel_onlyReference : OnlyReference [(demoData, [demoRel])] demoData demoRel where
  split := ⟨[], [], [], [], rfl, by simp, by simp⟩
  isWrite := rfl
  offset := by decide

theorem demoSlot_entry : Entry demoSlot.entry "BIN".toList "10".toList where
  text := rfl
  tag := by decide
  nonempty := by decide
  hex := by
    intro c hc
    have hcases : c = '1' ∨ c = '0' := by simpa using hc
    rcases hcases with rfl | rfl <;> decide
  bound := by decide

theorem slot_holds_entry_demoEntry :
    callbackReloc demoData demoRel ∈
      (scanRelocations demoScan demoState [(demoData, [demoRel])]).ctx.relaDyn ∧
    ∃ raw, computeRaw demoScan.toConfig
        (scanRelocations demoScan demoState [(demoData, [demoRel])]).ctx
        (callbackReloc demoData demoRel) = some raw ∧
      raw.r_offset = 0x3008#64 ∧ raw.addend = 16 :=
  have h := slot_holds_entry demoEntry ⟨"LIBC".toList, [demoSlot]⟩ (by decide) demoSlot (by decide)
    "BIN".toList "10".toList demoSlot_entry demoScan demoState [(demoData, [demoRel])] demoData
    demoRel demoRel_onlyReference ⟨rfl, rfl, rfl, rfl, rfl⟩ rfl
  ⟨h.1, h.2.elim fun raw hraw => ⟨raw, hraw.1, hraw.2.1, hraw.2.2.1⟩⟩

end Platypus.Header
