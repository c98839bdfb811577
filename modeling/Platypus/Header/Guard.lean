import Mathlib
import Platypus.Header.Dispatch

namespace Platypus.Header

open Asm

theorem key_mem_of_mem_tables {d : MaskDict} {t : Table} (ht : t ∈ tables d) : t.key ∈ d.keys := by
  have hkeys : (tables d).map Table.key = d.keys := emitTables_keys _ _
  rw [← hkeys]
  exact List.mem_map_of_mem ht

theorem main_mem_refs {t : Table} (h : t.key = "LIBC".toList) : "main".toList ∈ t.refs := by
  rw [Table.refs, if_pos h]
  exact List.mem_append_right _ (List.mem_singleton_self _)

section Entries

variable {t : Table} (img : Image t)

-- What the slots of the table hold at run time.
def Image.entries : List Word := t.refs.map img.symbols

theorem Image.entries_ne_zero : ∀ w ∈ img.entries, w ≠ 0#64 := by
  intro w hw
  obtain ⟨n, hn, rfl⟩ := List.mem_map.mp hw
  exact img.nonzero n hn

theorem ofNat_mul_eight_mod (i : Nat) :
    BitVec.ofNat 64 (8 * (i % 2 ^ 61)) = BitVec.ofNat 64 (8 * i) := by
  apply BitVec.eq_of_toNat_eq
  rw [BitVec.toNat_ofNat, BitVec.toNat_ofNat]
  omega

-- Memory has fewer places for words than there are words.
theorem Image.exists_not_entry : ∃ w, w ≠ 0#64 ∧ w ∉ img.entries := by
  by_contra! hall
  have hsub : Finset.range (2 ^ 64) ⊆ insert 0 ((Finset.range (2 ^ 61)).image fun i =>
      (img.mem (img.symbols (tableName t.key) + BitVec.ofNat 64 (8 * i))).toNat) := by
    intro n hn
    have hlt : (BitVec.ofNat 64 n).toNat = n := Nat.mod_eq_of_lt (Finset.mem_range.mp hn)
    rw [Finset.mem_insert, Finset.mem_image]
    by_cases hzero : BitVec.ofNat 64 n = 0#64
    · exact .inl (by rw [← hlt, hzero]; rfl)
    · obtain ⟨i, hi⟩ := List.mem_iff_getElem?.mp (List.mem_append_left [0#64] (hall _ hzero))
      refine .inr ⟨i % 2 ^ 61, Finset.mem_range.mpr (Nat.mod_lt _ (by decide)), ?_⟩
      rw [ofNat_mul_eight_mod, img.holds i _ hi, hlt]
  have hcard := Finset.card_le_card hsub
  have hinsert := Finset.card_insert_le 0 ((Finset.range (2 ^ 61)).image fun i =>
    (img.mem (img.symbols (tableName t.key) + BitVec.ofNat 64 (8 * i))).toNat)
  have himage := Finset.card_image_le (s := Finset.range (2 ^ 61)) (f := fun i =>
    (img.mem (img.symbols (tableName t.key) + BitVec.ofNat 64 (8 * i))).toNat)
  rw [Finset.card_range] at hcard himage
  omega

theorem scan_table_silent (env : Env Name) {prog rest post : Code} {s : State}
    (hloop : seek loopCetfake prog = some (scanLoop ++ rest))
    (hcall : seek callR11Cetfake prog = some (.insn .jmpR11 :: post)) (hne : t.refs ≠ [])
    (hmem : s.mem = img.mem) (hrax : s.regs .rax = img.symbols (tableName t.key)) :
    ∃ s', Scanned s s' t.refs.length ∧
      (s.regs .r11 ∈ img.entries →
        Silent env prog (scanLoop ++ rest) s (.insn .jmpR11 :: post) s') ∧
      (s.regs .r11 ∉ img.entries → Silent env prog (scanLoop ++ rest) s rest s') := by
  have hholds := img.holds
  have hzero := img.entries_ne_zero
  rw [← hmem, ← hrax] at hholds
  unfold Image.entries at hzero ⊢
  obtain ⟨n, ns, hrefs⟩ := List.exists_cons_of_ne_nil hne
  rw [hrefs] at hholds hzero ⊢
  have hlen : (n :: ns).length = (ns.map img.symbols).length + 1 := by simp
  rw [hlen]
  exact scan hloop hcall _ _ hholds fun x hx => hzero x (List.mem_cons_of_mem _ hx)

-- A scan of a table that is not empty decides whether r11 is one of its entries.
theorem scan_table (env : Env Name) {prog rest post : Code} {s : State}
    (hloop : seek loopCetfake prog = some (scanLoop ++ rest))
    (hcall : seek callR11Cetfake prog = some (.insn .jmpR11 :: post)) (hne : t.refs ≠ [])
    (hmem : s.mem = img.mem) (hrax : s.regs .rax = img.symbols (tableName t.key)) :
    ∃ s', Scanned s s' t.refs.length ∧
      (s.regs .r11 ∈ img.entries →
        Ends env prog (scanLoop ++ rest) s (.jumped (s.regs .r11) s')) ∧
      (s.regs .r11 ∉ img.entries →
        ∀ out, Ends env prog rest s' out → Ends env prog (scanLoop ++ rest) s out) := by
  obtain ⟨s', hscanned, hin, hout⟩ := scan_table_silent img env hloop hcall hne hmem hrax
  refine ⟨s', hscanned, fun hmem => ?_, fun hnot out hends => .of_silent (hout hnot) hends⟩
  rw [← hscanned.regs .r11 (by decide)]
  exact .of_silent (hin hmem) (.of_jumped rfl)

end Entries

-- A state at the entry of a dispatcher.
def entryState (mem : Word → Word) (w : Word) : State :=
  ⟨fun r => if r = .r11 then w else 0#64, false, mem, []⟩

-- The dispatcher of LIBC, generated without a pass-through.
theorem callbackTable_libc_scans (opts : Options) (d : MaskDict) (t : Table) (ht : t ∈ tables d)
    (hkey : t.key = "LIBC".toList) (hopts : opts.libc_fallthrough_libs = []) (img : Image t)
    (external : Name → State → State) (s : State) (hmem : s.mem = img.mem)
    (hreads : s.reads = []) :
    "main".toList ∈ t.refs ∧ ∃ s',
      Ends ⟨img.symbols, external⟩ (emitCallbackFunctions opts d)
        (callbackTable opts d "LIBC".toList) s
        (if s.regs .r11 ∈ img.entries then .jumped (s.regs .r11) s' else .halted s') ∧
      ∀ a ∈ s'.reads, ∃ i ≤ t.refs.length,
        a = img.symbols "libc_table".toList + BitVec.ofNat 64 (8 * i) := by
  have hlibc : "LIBC".toList ∈ d.keys := hkey ▸ key_mem_of_mem_tables ht
  obtain ⟨rest, post, hentry, hloop, hcall, after, rfl⟩ := sharedLoop_of_libc opts hlibc
  have hmain := main_mem_refs hkey
  refine ⟨hmain, ?_⟩
  rw [afterScan, if_pos hopts, List.nil_append] at hentry hloop
  obtain ⟨s', hscanned, hin, hout⟩ := scan_table img ⟨img.symbols, external⟩
    (s := s.set .rax (img.symbols "libc_table".toList))
    hloop hcall (List.ne_nil_of_mem hmain) hmem (by rw [State.regs_set_self, hkey]; rfl)
  have hr11 := s.regs_set_of_ne .rax .r11 (img.symbols "libc_table".toList) (by decide)
  rw [hr11] at hin hout
  refine ⟨s', ?_, fun a ha => ?_⟩
  · rw [hentry]
    refine .of_step rfl (.of_step rfl ?_)
    split
    · exact hin ‹_›
    · exact hout ‹_› _ (.of_halted rfl)
  · have hread := hscanned.reads a ha
    rw [State.reads_set, hreads, State.regs_set_self] at hread
    exact hread.resolve_left List.not_mem_nil

-- A small header: the empty table that the callback parser writes for THREADKEY, then LIBC.
def demoHeader : MaskDict where
  entries := [("THREADKEY".toList, []), ("LIBC".toList, ["BIN_0x10".toList]),
    ("SSL".toList, ["BIN_0x10".toList])]
  nodup := by decide

def demoThreadkey : Table := ⟨"THREADKEY".toList, []⟩

def demoLibc : Table := ⟨"LIBC".toList, [⟨"BIN_0x10".toList, "BIN_0x10_1337".toList⟩]⟩

def demoSsl : Table := ⟨"SSL".toList, [⟨"BIN_0x10".toList, "BIN_0x10_11337".toList⟩]⟩

theorem tables_demoHeader : tables demoHeader = [demoThreadkey, demoLibc, demoSsl] := by decide

def demoSymbols (n : Name) : Word :=
  if n = "threadkey_table".toList then 0x2000#64
  else if n = "libc_table".toList then 0x2008#64
  else if n = "ssl_table".toList then 0x2020#64
  else if n = "main".toList then 0x402000#64
  else 0x401010#64

def demoMem (a : Word) : Word :=
  if a = 0x2008#64 then 0x401010#64
  else if a = 0x2010#64 then 0x402000#64
  else if a = 0x2020#64 then 0x401010#64
  else 0#64

theorem holds_demoMem (t : Table) (ht : t ∈ tables demoHeader) :
    Holds demoMem (demoSymbols (tableName t.key)) (t.refs.map demoSymbols ++ [0#64]) := by
  simp only [tables_demoHeader, List.mem_cons, List.not_mem_nil, or_false] at ht
  rcases ht with rfl | rfl | rfl
  · exact .cons (by decide) (.nil _ _)
  · exact .cons (by decide) (.cons (by decide) (.cons (by decide) (.nil _ _)))
  · exact .cons (by decide) (.cons (by decide) (.nil _ _))

theorem demoSymbols_ne_zero : ∀ t ∈ tables demoHeader, ∀ n ∈ t.refs, demoSymbols n ≠ 0#64 := by
  rw [tables_demoHeader]
  decide

def demoImage (t : Table) (ht : t ∈ tables demoHeader) : Image t :=
  ⟨demoSymbols, demoMem, holds_demoMem t ht, demoSymbols_ne_zero t ht⟩

def plainOptions : Options := ⟨[], []⟩

theorem callbackTable_libc_scans_demoHeader :
    "main".toList ∈ demoLibc.refs ∧ ∃ s',
      Ends ⟨demoSymbols, fun _ s => s⟩ (emitCallbackFunctions plainOptions demoHeader)
        (callbackTable plainOptions demoHeader "LIBC".toList) (entryState demoMem 0x402000#64)
        (.jumped 0x402000#64 s') ∧
      ∀ a ∈ s'.reads, ∃ i ≤ 2, a = 0x2008#64 + BitVec.ofNat 64 (8 * i) :=
  callbackTable_libc_scans plainOptions demoHeader demoLibc (by decide) rfl rfl
    (demoImage demoLibc (by decide)) (fun _ s => s) (entryState demoMem 0x402000#64) rfl rfl

-- The dispatcher of a table jumps to r11 if that is an entry of the table, and halts if not,
-- whatever the helpers of the pass-through do.
def Guarded (opts : Options) (d : MaskDict) {t : Table} (img : Image t) : Prop :=
  ∀ (external : Name → State → State) (s : State), s.mem = img.mem → ∃ s',
    Ends ⟨img.symbols, external⟩ (emitCallbackFunctions opts d) (callbackTable opts d t.key) s
      (if s.regs .r11 ∈ img.entries then .jumped (s.regs .r11) s' else .halted s')

-- What the command line can switch on for a table other than that of LIBC.
def PassThrough (opts : Options) (key : Name) : Prop :=
  opts.libc_fallthrough_libs ≠ [] ∨ key = "FINI".toList ∧ opts.fallthrough_libs ≠ []

theorem emitCallbackFunction_fini {opts : Options} (h : opts.fallthrough_libs ≠ []) :
    emitCallbackFunction opts "FINI".toList = emitSpecialFiniCallback := by
  rw [emitCallbackFunction, if_neg (by decide), if_pos ⟨rfl, h⟩]

theorem directFini_not_mem_of_ne_fini (opts : Options) (key : Name) (hkey : key ≠ "FINI".toList) :
    .label callR11DirectFini ∉ emitCallbackFunction opts key := by
  have hloop := loopCetfake_ne_callR11DirectFini.symm
  have hcall := callR11Cetfake_ne_callR11DirectFini.symm
  by_cases hlibc : key = "LIBC".toList
  · subst hlibc
    rw [emitCallbackFunction_libc, afterScan]
    split <;> simp [scanLoop, libcFallthrough, hloop, hcall]
  · rw [emitCallbackFunction, if_neg hlibc, if_neg (fun h => hkey h.1)]
    simp

section OtherKeys

variable {opts : Options} {d : MaskDict} {t : Table} {img : Image t}

theorem callbackTable_plain (opts : Options) (ht : t ∈ tables d) (hkey : t.key ≠ "LIBC".toList)
    (hfini : ¬(t.key = "FINI".toList ∧ opts.fallthrough_libs ≠ [])) :
    ∃ post, callbackTable opts d t.key =
      .insn (.leaq (tableName t.key)) :: .insn (.jmp loopCetfake) :: post := by
  obtain ⟨post, hentry⟩ := callbackTable_of_mem opts (key_mem_of_mem_tables ht)
  rw [emitCallbackFunction, if_neg hkey, if_neg hfini] at hentry
  exact ⟨post, hentry⟩

-- Without LIBC the loop has no label.
theorem ends_stuck_of_not_libc (ht : t ∈ tables d) (hkey : t.key ≠ "LIBC".toList)
    (hfini : ¬(t.key = "FINI".toList ∧ opts.fallthrough_libs ≠ []))
    (hlibc : "LIBC".toList ∉ d.keys) (env : Env Name) (s : State) :
    Ends env (emitCallbackFunctions opts d) (callbackTable opts d t.key) s .stuck := by
  obtain ⟨post, hentry⟩ := callbackTable_plain opts ht hkey hfini
  rw [hentry]
  refine .of_step rfl (.of_last nofun ?_)
  exact step_jmp_stuck (seek_loop_of_not_libc opts hlibc)

-- An empty table has only its terminator, and the loop compares it with r11 first.
theorem jumps_of_empty (ht : t ∈ tables d) (hkey : t.key ≠ "LIBC".toList)
    (hfini : ¬(t.key = "FINI".toList ∧ opts.fallthrough_libs ≠ []))
    (hlibc : "LIBC".toList ∈ d.keys) (hempty : t.refs = []) (external : Name → State → State)
    (s : State) (hmem : s.mem = img.mem) (hr11 : s.regs .r11 = 0#64) :
    Jumps ⟨img.symbols, external⟩ (emitCallbackFunctions opts d) (callbackTable opts d t.key) s
      0#64 := by
  obtain ⟨post, hentry⟩ := callbackTable_plain opts ht hkey hfini
  obtain ⟨rest, post', -, hloop, hcall, -⟩ := sharedLoop_of_libc opts hlibc
  have hholds := img.holds
  rw [hempty, List.map_nil, List.nil_append] at hholds
  rw [hentry, ← hr11]
  refine .of_step rfl (.of_step (step_jmp hloop) ⟨_, .of_silent (scan_hit hcall ?_) (.of_jumped rfl)⟩)
  rw [State.regs_set_self, State.mem_set, hmem, State.regs_set_of_ne _ .rax .r11 _ (by decide), hr11]
  exact hholds.head

-- A helper that lets every address but zero pass.
def passAll : Name → State → State := fun _ s => s.set .rax (if s.regs .rdi = 0#64 then 0#64 else 1#64)

theorem seek_directFini (hfini : "FINI".toList ∈ d.keys) (hopts : opts.fallthrough_libs ≠ []) :
    ∃ post, seek callR11DirectFini (emitCallbackFunctions opts d) = some (.insn .jmpR11 :: post) := by
  obtain ⟨as, bs, hkeys, hnot⟩ := List.eq_append_cons_of_mem hfini
  have hlabel : .label callR11DirectFini ∉ as.flatMap (emitCallbackFunction opts) := by
    rw [List.mem_flatMap]
    rintro ⟨key, hkey, hmem⟩
    exact directFini_not_mem_of_ne_fini opts key (fun h => hnot (h ▸ hkey)) hmem
  refine ⟨bs.flatMap (emitCallbackFunction opts), ?_⟩
  rw [emitCallbackFunctions, hkeys, List.flatMap_append, seek_append_of_not_mem _ _ _ hlabel,
    List.flatMap_cons, emitCallbackFunction_fini hopts]
  simp only [emitSpecialFiniCallback, List.cons_append, List.nil_append, seek_insn, seek_label_self]

-- The special dispatcher of FINI jumps where its helper lets it.
theorem jumps_of_fini (hfini : "FINI".toList ∈ d.keys) (hopts : opts.fallthrough_libs ≠ [])
    (symbols : Name → Word) (s : State) (hr11 : s.regs .r11 ≠ 0#64) :
    Jumps ⟨symbols, passAll⟩ (emitCallbackFunctions opts d) (callbackTable opts d "FINI".toList) s
      (s.regs .r11) := by
  obtain ⟨post, hentry⟩ := callbackTable_of_mem opts hfini
  obtain ⟨post', hseek⟩ := seek_directFini hfini hopts
  rw [emitCallbackFunction_fini hopts] at hentry
  rw [hentry]
  refine .of_step rfl <| .of_step rfl <| .of_step rfl <| .of_step rfl <| .of_step rfl <|
    .of_step (step_jne hseek) ?_
  rw [if_neg (by simp [passAll, State.set, hr11])]
  exact jumps_jmpR11 _ _

-- So does what follows the shared loop.
theorem jumps_of_libcFallthrough {prog post : Code} (after : Code) (symbols : Name → Word) (s : State)
    (hcall : seek callR11Cetfake prog = some (.insn .jmpR11 :: post)) (hr11 : s.regs .r11 ≠ 0#64) :
    Jumps ⟨symbols, passAll⟩ prog (libcFallthrough ++ after) s (s.regs .r11) := by
  refine .of_step rfl <| .of_step rfl <| .of_step rfl <| .of_step rfl <| .of_step rfl <|
    .of_step rfl <| .of_step rfl <| .of_step rfl <| .of_step rfl <| .of_step rfl <| .of_step rfl <|
    .of_step (step_jne hcall) ?_
  rw [if_neg (by simp [passAll, State.set, hr11])]
  exact jumps_jmpR11 _ _

theorem refs_of_ne_libc (hkey : t.key ≠ "LIBC".toList) : t.refs = t.slots.map Slot.symbol := by
  rw [Table.refs, if_neg hkey, List.append_nil]

theorem refs_eq_nil_iff (ht : t ∈ tables d) (hkey : t.key ≠ "LIBC".toList) :
    t.refs = [] ↔ d.get? t.key = some [] := by
  obtain ⟨values, hmem, hslots⟩ := emitTables_entries _ _ t ht
  have hget := d.get?_of_mem hmem
  have hnil : t.slots = [] ↔ values = [] := by
    rw [← fromkeys_eq_nil values, ← hslots, List.map_eq_nil_iff]
  rw [refs_of_ne_libc hkey, List.map_eq_nil_iff, hnil, hget, Option.some_inj]

theorem not_guarded_of_ends {external : Name → State → State} {s : State} {out : Outcome Name}
    (hmem : s.mem = img.mem) (hnot : s.regs .r11 ∉ img.entries)
    (hends : Ends ⟨img.symbols, external⟩ (emitCallbackFunctions opts d)
      (callbackTable opts d t.key) s out) (hout : ∀ s', out ≠ .halted s') : ¬Guarded opts d img := by
  intro hguarded
  obtain ⟨s', hhalted⟩ := hguarded external s hmem
  rw [if_neg hnot] at hhalted
  exact hout s' (hends.unique hhalted)

theorem not_guarded_of_jumps {external : Name → State → State} {s : State} {target : Word}
    (hmem : s.mem = img.mem) (hnot : s.regs .r11 ∉ img.entries)
    (hjumps : Jumps ⟨img.symbols, external⟩ (emitCallbackFunctions opts d)
      (callbackTable opts d t.key) s target) : ¬Guarded opts d img := by
  obtain ⟨s', hends⟩ := hjumps
  exact not_guarded_of_ends hmem hnot hends nofun

theorem guarded_of_plain (hlibc : "LIBC".toList ∈ d.keys) (ht : t ∈ tables d)
    (hkey : t.key ≠ "LIBC".toList) (hne : t.refs ≠ []) (hpass : ¬PassThrough opts t.key) :
    Guarded opts d img := by
  rw [PassThrough, not_or, not_not] at hpass
  obtain ⟨post, hentry⟩ := callbackTable_plain opts ht hkey hpass.2
  obtain ⟨rest, post', -, hloop, hcall, after, rfl⟩ := sharedLoop_of_libc opts hlibc
  intro external s hmem
  obtain ⟨s', -, hin, hout⟩ := scan_table img ⟨img.symbols, external⟩
    (s := s.set .rax (img.symbols (tableName t.key))) hloop hcall hne hmem
    (State.regs_set_self _ _ _)
  rw [s.regs_set_of_ne .rax .r11 _ (by decide)] at hin hout
  refine ⟨s', ?_⟩
  rw [hentry]
  refine .of_step rfl (.of_step (step_jmp hloop) ?_)
  split
  · exact hin ‹_›
  · refine hout ‹_› _ ?_
    rw [afterScan, if_pos hpass.1]
    exact .of_halted rfl

theorem jumps_of_libc_fallthrough (hlibc : "LIBC".toList ∈ d.keys) (ht : t ∈ tables d)
    (hkey : t.key ≠ "LIBC".toList)
    (hfini : ¬(t.key = "FINI".toList ∧ opts.fallthrough_libs ≠ [])) (hne : t.refs ≠ [])
    (hopts : opts.libc_fallthrough_libs ≠ []) (s : State) (hmem : s.mem = img.mem)
    (hr11 : s.regs .r11 ≠ 0#64) (hnot : s.regs .r11 ∉ img.entries) :
    Jumps ⟨img.symbols, passAll⟩ (emitCallbackFunctions opts d) (callbackTable opts d t.key) s
      (s.regs .r11) := by
  obtain ⟨post, hentry⟩ := callbackTable_plain opts ht hkey hfini
  obtain ⟨rest, post', -, hloop, hcall, after, rfl⟩ := sharedLoop_of_libc opts hlibc
  obtain ⟨s', hscanned, -, hout⟩ := scan_table img ⟨img.symbols, passAll⟩
    (s := s.set .rax (img.symbols (tableName t.key))) hloop hcall hne hmem
    (State.regs_set_self _ _ _)
  have hr11' : s'.regs .r11 = s.regs .r11 := hscanned.regs .r11 (by decide)
  rw [hentry]
  refine .of_step rfl (.of_step (step_jmp hloop) ?_)
  obtain ⟨s'', hends⟩ := jumps_of_libcFallthrough (.insn .hlt :: after) img.symbols s' hcall
    (hr11'.symm ▸ hr11)
  refine ⟨s'', hout hnot _ ?_⟩
  rw [afterScan, if_neg hopts, ← hr11', List.append_assoc]
  exact hends

end OtherKeys

theorem callbackTable_guarded_iff (opts : Options) (d : MaskDict) (t : Table)
    (ht : t ∈ tables d) (hkey : t.key ≠ "LIBC".toList) (img : Image t) :
    Guarded opts d img ↔
      "LIBC".toList ∈ d.keys ∧ d.get? t.key ≠ some [] ∧ ¬PassThrough opts t.key := by
  rw [Ne, ← refs_eq_nil_iff ht hkey]
  refine ⟨fun hguarded => ?_, fun ⟨hlibc, hne, hpass⟩ => guarded_of_plain hlibc ht hkey hne hpass⟩
  obtain ⟨w, hw, hnot⟩ := img.exists_not_entry
  have hfini : ¬(t.key = "FINI".toList ∧ opts.fallthrough_libs ≠ []) := by
    rintro ⟨hfini, hopts⟩
    have hmem := key_mem_of_mem_tables ht
    have hjumps := jumps_of_fini (hfini ▸ hmem) hopts img.symbols (entryState img.mem w) hw
    exact not_guarded_of_jumps rfl hnot (hfini ▸ hjumps) hguarded
  have hlibc : "LIBC".toList ∈ d.keys := by
    by_contra hlibc
    have hstuck := ends_stuck_of_not_libc ht hkey hfini hlibc ⟨img.symbols, passAll⟩
      (entryState img.mem w)
    exact not_guarded_of_ends rfl hnot hstuck nofun hguarded
  have hne : t.refs ≠ [] := by
    intro hempty
    have hzero : 0#64 ∉ img.entries := fun h => img.entries_ne_zero _ h rfl
    exact not_guarded_of_jumps rfl hzero
      (jumps_of_empty ht hkey hfini hlibc hempty passAll (entryState img.mem 0#64) rfl rfl) hguarded
  refine ⟨hlibc, hne, ?_⟩
  rintro (hopts | hopts)
  · exact not_guarded_of_jumps rfl hnot (jumps_of_libc_fallthrough hlibc ht hkey hfini hne hopts
      (entryState img.mem w) rfl hw hnot) hguarded
  · exact hfini hopts

theorem guarded_demoSsl :
    Guarded plainOptions demoHeader (demoImage demoSsl (by decide)) :=
  (callbackTable_guarded_iff plainOptions demoHeader demoSsl (by decide) (by decide) _).mpr
    ⟨by decide, by decide, by simp [PassThrough, plainOptions]⟩

-- The table of THREADKEY is empty, and its dispatcher runs on into the table of LIBC; it also
-- takes zero for an entry.
theorem demoThreadkey_jumps_to_libc_entry :
    demoThreadkey ∈ tables demoHeader ∧ demoThreadkey.refs = [] ∧
      (∀ t ∈ tables demoHeader,
        Holds demoMem (demoSymbols (tableName t.key)) (t.refs.map demoSymbols ++ [0#64])) ∧
      Jumps ⟨demoSymbols, fun _ s => s⟩ (emitCallbackFunctions plainOptions demoHeader)
        (callbackTable plainOptions demoHeader demoThreadkey.key)
        (entryState demoMem 0x401010#64) 0x401010#64 ∧
      Jumps ⟨demoSymbols, fun _ s => s⟩ (emitCallbackFunctions plainOptions demoHeader)
        (callbackTable plainOptions demoHeader demoThreadkey.key)
        (entryState demoMem 0#64) 0#64 :=
  ⟨by decide, by decide, holds_demoMem, ⟨_, nofun, 10, rfl⟩, ⟨_, nofun, 5, rfl⟩⟩

end Platypus.Header
