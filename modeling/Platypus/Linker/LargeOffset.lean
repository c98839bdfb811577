import Platypus.Linker.CallbackReloc
import Platypus.Linker.ScanRun

namespace Platypus.Linker

-- The check that an offset fits its 24 bits is an assertion, and the linker is built without
-- assertions: what is left of a large offset is what the packed word keeps of it.

-- The linker reports an error at a reference, in whatever state the scan has reached there.
def ReportsAt (cfg : ScanConfig) (sec : InputSec) (rel : Rel) (sym : Symbol) : Prop :=
  ∃ st : ScanState, st.sym rel.sym = sym ∧ (scanOne cfg sec st rel).1.ctx.errors ≠ st.ctx.errors

-- Every relocation that the link holds for a symbol carries the offset.
def KeepsOffset (cfg : ScanConfig) (c : Ctx) (s : SymId) (offset : Nat) : Prop :=
  ∀ r ∈ c.relaDyn, r.sym = some s → ∀ raw, computeRaw cfg.toConfig c r = some raw →
    raw.addend = offset

section

variable (cfg : ScanConfig) {tag digits : Name}

theorem errors_scanOne_callback (st : ScanState) (sec : InputSec) (rel : Rel)
    (hwrite : sec.isWrite = true) (hoffset : rel.offset ≠ -1#64) (hsym : Extern (st.sym rel.sym))
    (hname : WhitelistName (st.sym rel.sym).name tag digits) :
    (scanOne cfg sec st rel).1.ctx.errors = st.ctx.errors := by
  rw [scanOne_callback cfg sec st rel hwrite hoffset hsym hname]
  rfl

theorem not_reportsAt (st : ScanState) (secs : List (InputSec × List Rel)) (sec : InputSec)
    (rel : Rel) (honly : OnlyReference secs sec rel) (hsym : Extern (st.sym rel.sym))
    (hname : WhitelistName (st.sym rel.sym).name tag digits) :
    ¬ ReportsAt cfg sec rel (st.sym rel.sym) := by
  rintro ⟨st', hst, herrors⟩
  apply herrors
  apply errors_scanOne_callback cfg st' sec rel honly.isWrite honly.offset
  · rw [hst]
    exact hsym
  · rw [hst]
    exact hname

theorem readOffset_mod_eq_iff (digits : Name) :
    readOffset digits % 2 ^ 24 = offsetOf digits ↔ offsetOf digits < 2 ^ 24 := by
  simp only [readOffset]
  omega

-- Whatever its offset, no such symbol is refused; an offset of more than 24 bits is cut.
theorem whitelist_never_refused (st : ScanState) (secs : List (InputSec × List Rel))
    (sec : InputSec) (rel : Rel) (honly : OnlyReference secs sec rel)
    (hsym : Extern (st.sym rel.sym)) (hname : WhitelistName (st.sym rel.sym).name tag digits) :
    ¬ (ReportsAt cfg sec rel (st.sym rel.sym) ∧
        KeepsOffset cfg (scanRelocations cfg st secs).ctx rel.sym (offsetOf digits)) ∧
      (∃ raw, callbackReloc sec rel ∈ (scanRelocations cfg st secs).ctx.relaDyn ∧
        computeRaw cfg.toConfig (scanRelocations cfg st secs).ctx (callbackReloc sec rel) =
          some raw ∧
        raw.addend = (readOffset digits % 2 ^ 24 : Nat)) ∧
      (2 ^ 24 ≤ offsetOf digits →
        ¬ KeepsOffset cfg (scanRelocations cfg st secs).ctx rel.sym (offsetOf digits)) := by
  obtain ⟨hdecoded, hmem⟩ := scanRelocations_callback cfg st secs sec rel honly hsym hname
  have hraw := computeRaw_callback cfg.toConfig (scanRelocations cfg st secs).ctx sec rel _ hname
    hdecoded
  refine ⟨?_, ⟨_, hmem, hraw, rfl⟩, ?_⟩
  · rintro ⟨hreports, -⟩
    exact not_reportsAt cfg st secs sec rel honly hsym hname hreports
  · intro hwide hkeeps
    have haddend : ((readOffset digits % 2 ^ 24 : Nat) : Int) = offsetOf digits :=
      hkeeps _ hmem rfl _ hraw
    have hcut := (readOffset_mod_eq_iff digits).mp (by exact_mod_cast haddend)
    omega

end

-- A slot of a table whose only entry is beyond the first 16 MiB of the module.

def demoTable : InputSec := ⟨.input 0, true, false, 8, fun _ => 0#8⟩

def demoSlotRel : Rel := ⟨.sym 0, 1, .R_X86_64_64, 0x8#64, 0⟩

def demoWide : ScanState :=
  { ctx := { syms := fun _ =>
      { name := "BIN_0x1000010_1337".toList, type := .STT_NOTYPE, kind := .Undefined } } }

theorem demoSlotRel_onlyReference :
    OnlyReference [(demoTable, [demoSlotRel])] demoTable demoSlotRel where
  split := ⟨[], [], [], [], rfl, by simp, by simp⟩
  isWrite := rfl
  offset := by decide

theorem demoWide_name :
    WhitelistName (demoWide.sym demoSlotRel.sym).name "BIN".toList "1000010".toList where
  split := ⟨"1337".toList, rfl, List.suffix_refl _⟩
  tag := by decide
  nonempty := by decide
  hex := by simp [Text.IsDigit, Text.digitValue]

theorem whitelist_never_refused_wide :
    ¬ KeepsOffset demoScanConfig
      (scanRelocations demoScanConfig demoWide [(demoTable, [demoSlotRel])]).ctx demoSlotRel.sym
      0x1000010 :=
  (whitelist_never_refused demoScanConfig demoWide [(demoTable, [demoSlotRel])] demoTable
    demoSlotRel demoSlotRel_onlyReference ⟨rfl, rfl, rfl, rfl, rfl⟩ demoWide_name).2.2 (by decide)

-- The link succeeds, and the slot has the offset 0x10 for 0x1000010.
theorem wideOffset_cut :
    (scanRelocations demoScanConfig demoWide [(demoTable, [demoSlotRel])]).ctx.errors = [] ∧
    callbackReloc demoTable demoSlotRel ∈
      (scanRelocations demoScanConfig demoWide [(demoTable, [demoSlotRel])]).ctx.relaDyn ∧
    (computeRaw demoScanConfig.toConfig
      (scanRelocations demoScanConfig demoWide [(demoTable, [demoSlotRel])]).ctx
      (callbackReloc demoTable demoSlotRel)).map (·.addend) = some 0x10 := by
  refine ⟨rfl, ?_, rfl⟩
  exact List.mem_singleton_self _

end Platypus.Linker
