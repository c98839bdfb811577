import Platypus.Linker.PltSlots
import Platypus.Linker.ScanFrame

namespace Platypus.Linker

-- The relocations of a section that `scanOne` is called with: it may skip some after a TLS one.
def handled (cfg : ScanConfig) (sec : InputSec) : Nat → ScanState → List Rel → List Rel
  | _, _, [] => []
  | skip + 1, st, _ :: rels => handled cfg sec skip st rels
  | 0, st, rel :: rels =>
    let (st, processed) := scanOne cfg sec st rel
    rel :: handled cfg sec (processed - 1) st rels

def handledAll (cfg : ScanConfig) : ScanState → List (InputSec × List Rel) → List (InputSec × Rel)
  | _, [] => []
  | st, p :: secs =>
    (handled cfg p.1 0 st p.2).map (fun rel => (p.1, rel)) ++
      handledAll cfg (scan cfg p.1 0 st p.2) secs

def scanStep (cfg : ScanConfig) (st : ScanState) (h : InputSec × Rel) : ScanState :=
  (scanOne cfg h.1 st h.2).1

theorem scan_eq_foldl (cfg : ScanConfig) (sec : InputSec) (skip : Nat) (st : ScanState)
    (rels : List Rel) :
    scan cfg sec skip st rels =
      ((handled cfg sec skip st rels).map fun rel => (sec, rel)).foldl (scanStep cfg) st := by
  induction rels generalizing skip st with
  | nil => cases skip <;> rfl
  | cons rel rels ih =>
    cases skip with
    | zero => exact ih _ _
    | succ skip => exact ih _ _

-- The scan is one step after another.
theorem scanRelocations_eq_foldl (cfg : ScanConfig) (st : ScanState)
    (secs : List (InputSec × List Rel)) :
    scanRelocations cfg st secs = (handledAll cfg st secs).foldl (scanStep cfg) st := by
  induction secs generalizing st with
  | nil => rfl
  | cons p secs ih =>
    rw [handledAll, List.foldl_append, ← scan_eq_foldl]
    exact ih _

theorem mem_secs_of_handledAll {cfg : ScanConfig} {st : ScanState}
    {secs : List (InputSec × List Rel)} {h : InputSec × Rel} (hmem : h ∈ handledAll cfg st secs) :
    ∃ rels, (h.1, rels) ∈ secs := by
  induction secs generalizing st with
  | nil => exact absurd hmem List.not_mem_nil
  | cons p secs ih =>
    rcases List.mem_append.mp hmem with hmem | hmem
    · obtain ⟨rel, -, rfl⟩ := List.mem_map.mp hmem
      exact ⟨p.2, List.mem_cons_self⟩
    · obtain ⟨rels, hrels⟩ := ih hmem
      exact ⟨rels, List.mem_cons_of_mem _ hrels⟩

-- What every step keeps, the scan keeps.
theorem scanRelocations_induction {cfg : ScanConfig} {st : ScanState}
    {secs : List (InputSec × List Rel)} {P : ScanState → Prop} (hstart : P st)
    (hstep : ∀ st sec rels rel, (sec, rels) ∈ secs → P st → P (scanOne cfg sec st rel).1) :
    P (scanRelocations cfg st secs) := by
  rw [scanRelocations_eq_foldl]
  have hsecs : ∀ h ∈ handledAll cfg st secs, ∃ rels, (h.1, rels) ∈ secs :=
    fun h hmem => mem_secs_of_handledAll hmem
  generalize handledAll cfg st secs = hs at hsecs
  induction hs generalizing st with
  | nil => exact hstart
  | cons h hs ih =>
    obtain ⟨rels, hrels⟩ := hsecs h List.mem_cons_self
    exact ih (hstep st h.1 rels h.2 hrels hstart) fun h' hh' => hsecs h' (List.mem_cons_of_mem _ hh')

-- The options of the second pass: the scan has found out whether `.got` needs a TLS module index.
def linkConfig (cfg : ScanConfig) (st : ScanState) : Config :=
  { cfg.toConfig with needsTlsLd := st.needsTlsLd }

-- The two passes of a link.
def link (cfg : ScanConfig) (st : ScanState) (secs : List (InputSec × List Rel))
    (syms : List Nat) : Ctx :=
  let st := scanRelocations cfg st secs
  postScanRelocations (linkConfig cfg st) st.ctx syms

-- The options of an executable for the examples of links.
def demoScanConfig : ScanConfig :=
  { demoConfig .IntelIBT with
    relax := true
    zText := true
    zCopyreloc := true
    ignoreFunctionAddressEquality := false
    ignoreDataAddressEquality := false
    unresolvedSymbols := .ReportError
    noinhibitExec := false
    dsoProtected := fun _ => false
    scriptDefined := fun _ => false
    hasVersionSuffix := fun _ => false
    canBeExternal := fun _ => true }

def demoText : InputSec := ⟨.input 0, false, false, 16, fun _ => 0#8⟩

end Platypus.Linker
