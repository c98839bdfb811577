import Platypus.Header.Tables
import Platypus.Machine.Asm

namespace Platypus.Header

open Asm

abbrev Code := List (Line Name)

-- The libraries whose addresses the dispatchers let pass.
structure Options where
  fallthrough_libs : List Name
  libc_fallthrough_libs : List Name

def loopCetfake : Name := ".loop_cetfake".toList

def callR11Cetfake : Name := ".call_r11_cetfake".toList

def callR11DirectFini : Name := ".call_r11_direct_fini".toList

-- The loop that all dispatchers share, after its label.
def scanLoop : Code :=
  [.insn .cmpqMem, .insn (.je callR11Cetfake), .insn (.addq 8#64), .insn .cmpqZero,
    .insn (.jne loopCetfake)]

def libcFallthrough : Code :=
  [.insn (.movq .r11 .xmm15), .insn (.pushq .rdi), .insn (.pushq .rsi), .insn (.pushq .rdx),
    .insn (.movq .r11 .rdi), .insn (.call "libc_should_passthrough".toList),
    .insn (.popq .rdx), .insn (.popq .rsi), .insn (.popq .rdi), .insn (.movq .xmm15 .r11),
    .insn .testEax, .insn (.jne callR11Cetfake)]

def callR11 : Code := [.insn .hlt, .label callR11Cetfake, .insn .jmpR11]

def emitLibcCallback (libc_fallthrough_libs : List Name) : Code :=
  [.insn (.leaq "libc_table".toList), .label loopCetfake] ++ scanLoop ++
    (if libc_fallthrough_libs = [] then [] else libcFallthrough) ++ callR11

def emitSpecialFiniCallback : Code :=
  [.insn (.movq .r11 .xmm15), .insn (.movq .r11 .rdi),
    .insn (.call "fini_should_passthrough".toList), .insn (.movq .xmm15 .r11), .insn .testEax,
    .insn (.jne callR11DirectFini), .insn (.leaq "fini_table".toList), .insn (.jmp loopCetfake),
    .label callR11DirectFini, .insn .jmpR11]

def emitCallbackFunction (opts : Options) (key : Name) : Code :=
  if key = "LIBC".toList then emitLibcCallback opts.libc_fallthrough_libs
  else if key = "FINI".toList ∧ opts.fallthrough_libs ≠ [] then emitSpecialFiniCallback
  else [.insn (.leaq (tableName key)), .insn (.jmp loopCetfake)]

-- The functions stand one after the other in the order of the keys.
def emitCallbackFunctions (opts : Options) (d : MaskDict) : Code :=
  d.keys.flatMap (emitCallbackFunction opts)

-- The code from the entry of a key's dispatcher on.
def callbackTable (opts : Options) (d : MaskDict) (key : Name) : Code :=
  (d.keys.dropWhile (· ≠ key)).flatMap (emitCallbackFunction opts)

-- A running program: the values of the symbols, and memory that holds a table. The entries of the
-- table are addresses of code, none of them zero.
structure Image (t : Table) where
  symbols : Name → Word
  mem : Word → Word
  holds : Holds mem (symbols (tableName t.key)) (t.refs.map symbols ++ [0#64])
  nonzero : ∀ n ∈ t.refs, symbols n ≠ 0#64

-- What the loop falls into at the terminator.
def afterScan (opts : Options) : Code :=
  (if opts.libc_fallthrough_libs = [] then [] else libcFallthrough) ++ [.insn .hlt]

theorem emitCallbackFunction_libc (opts : Options) :
    emitCallbackFunction opts "LIBC".toList =
      [.insn (.leaq "libc_table".toList), .label loopCetfake] ++
        (scanLoop ++ (afterScan opts ++ [.label callR11Cetfake, .insn .jmpR11])) := by
  rw [emitCallbackFunction, if_pos rfl, emitLibcCallback, afterScan]
  simp only [List.append_assoc]
  rfl

-- Only the dispatcher of LIBC carries the labels of the shared loop.
theorem label_not_mem_of_ne_libc (opts : Options) (key l : Name) (hkey : key ≠ "LIBC".toList)
    (hl : l ≠ callR11DirectFini) : .label l ∉ emitCallbackFunction opts key := by
  rw [emitCallbackFunction, if_neg hkey]
  split
  · simp [emitSpecialFiniCallback, hl]
  · simp

theorem label_not_mem_flatMap (opts : Options) (keys : List Name) (l : Name)
    (hkeys : "LIBC".toList ∉ keys) (hl : l ≠ callR11DirectFini) :
    .label l ∉ keys.flatMap (emitCallbackFunction opts) := by
  rw [List.mem_flatMap]
  rintro ⟨key, hkey, hmem⟩
  have hne : key ≠ "LIBC".toList := fun h => hkeys (h ▸ hkey)
  exact label_not_mem_of_ne_libc opts key l hne hl hmem

theorem seek_eq_none_of_not_mem (l : Name) (code : Code) (h : .label l ∉ code) :
    seek l code = none := by
  have := seek_append_of_not_mem l code [] h
  rwa [List.append_nil] at this

theorem callbackTable_of_split (opts : Options) {d : MaskDict} {key : Name} {as bs : List Name}
    (hkeys : d.keys = as ++ key :: bs) (hnot : key ∉ as) :
    callbackTable opts d key =
      emitCallbackFunction opts key ++ bs.flatMap (emitCallbackFunction opts) := by
  have has : ∀ k ∈ as, decide (k ≠ key) = true := by
    intro k hk
    exact decide_eq_true fun heq => hnot (heq ▸ hk)
  rw [callbackTable, hkeys, List.dropWhile_append_of_pos has, List.dropWhile_cons_of_neg (by simp),
    List.flatMap_cons]

theorem callbackTable_of_mem (opts : Options) {d : MaskDict} {key : Name} (h : key ∈ d.keys) :
    ∃ post, callbackTable opts d key = emitCallbackFunction opts key ++ post := by
  obtain ⟨as, bs, hkeys, hnot⟩ := List.eq_append_cons_of_mem h
  exact ⟨_, callbackTable_of_split opts hkeys hnot⟩

-- The shared loop in the dispatcher of LIBC, and where the labels lead.
structure SharedLoop (opts : Options) (d : MaskDict) (rest post : Code) : Prop where
  entry : callbackTable opts d "LIBC".toList =
    .insn (.leaq "libc_table".toList) :: .label loopCetfake :: (scanLoop ++ rest)
  loop : seek loopCetfake (emitCallbackFunctions opts d) = some (scanLoop ++ rest)
  call : seek callR11Cetfake (emitCallbackFunctions opts d) = some (.insn .jmpR11 :: post)
  tail : ∃ after, rest = afterScan opts ++ after

theorem loopCetfake_ne_callR11Cetfake : loopCetfake ≠ callR11Cetfake := by decide

theorem loopCetfake_ne_callR11DirectFini : loopCetfake ≠ callR11DirectFini := by decide

theorem callR11Cetfake_ne_callR11DirectFini : callR11Cetfake ≠ callR11DirectFini := by decide

theorem seek_call_libc (opts : Options) (post : Code) :
    seek callR11Cetfake (emitCallbackFunction opts "LIBC".toList ++ post) =
      some (.insn .jmpR11 :: post) := by
  rw [emitCallbackFunction_libc, afterScan]
  split <;>
    simp only [scanLoop, libcFallthrough, List.cons_append, List.nil_append, seek_insn,
      seek_label_of_ne loopCetfake_ne_callR11Cetfake, seek_label_self]

theorem sharedLoop_of_libc (opts : Options) {d : MaskDict} (h : "LIBC".toList ∈ d.keys) :
    ∃ rest post, SharedLoop opts d rest post := by
  obtain ⟨as, bs, hkeys, hnot⟩ := List.eq_append_cons_of_mem h
  have hentry := callbackTable_of_split opts hkeys hnot
  -- Neither label occurs before the dispatcher of LIBC.
  have hseek : ∀ l, l ≠ callR11DirectFini → seek l (emitCallbackFunctions opts d) =
      seek l (emitCallbackFunction opts "LIBC".toList ++ bs.flatMap (emitCallbackFunction opts)) := by
    intro l hl
    rw [emitCallbackFunctions, hkeys, List.flatMap_append, List.flatMap_cons]
    exact seek_append_of_not_mem _ _ _ (label_not_mem_flatMap opts as _ hnot hl)
  refine ⟨afterScan opts ++ .label callR11Cetfake :: .insn .jmpR11 ::
    bs.flatMap (emitCallbackFunction opts), bs.flatMap (emitCallbackFunction opts), ?_, ?_, ?_,
    ⟨_, rfl⟩⟩
  · rw [hentry, emitCallbackFunction_libc]
    simp only [List.cons_append, List.nil_append, List.append_assoc]
  · rw [hseek _ loopCetfake_ne_callR11DirectFini, emitCallbackFunction_libc]
    simp only [List.cons_append, List.nil_append, seek_insn, seek_label_self, List.append_assoc]
  · rw [hseek _ callR11Cetfake_ne_callR11DirectFini, seek_call_libc]

theorem seek_loop_of_not_libc (opts : Options) {d : MaskDict} (h : "LIBC".toList ∉ d.keys) :
    seek loopCetfake (emitCallbackFunctions opts d) = none :=
  seek_eq_none_of_not_mem _ _
    (label_not_mem_flatMap opts d.keys _ h loopCetfake_ne_callR11DirectFini)

section Scan

-- The state after a comparison that found nothing and the step to the next word.
def scanNext (s : State) : State :=
  ((s.compare (s.regs .r11)).set .rax (s.regs .rax + 8#64)).compare 0#64

variable {env : Env Name} {prog rest post : Code} {s : State} {out : Outcome Name}

theorem scan_hit (hcall : seek callR11Cetfake prog = some (.insn .jmpR11 :: post))
    (h : s.mem (s.regs .rax) = s.regs .r11) :
    Silent env prog (scanLoop ++ rest) s (.insn .jmpR11 :: post) (s.compare (s.regs .r11)) := by
  refine .step rfl rfl (.step rfl (step_je hcall) ?_)
  rw [if_pos ((s.zf_compare _).mpr h)]
  exact .refl _ _

theorem scan_miss (env : Env Name) (hloop : seek loopCetfake prog = some (scanLoop ++ rest))
    (hcall : seek callR11Cetfake prog = some (.insn .jmpR11 :: post))
    (h : s.mem (s.regs .rax) ≠ s.regs .r11) :
    Silent env prog (scanLoop ++ rest) s
      (if s.mem (s.regs .rax + 8#64) = 0#64 then rest else scanLoop ++ rest) (scanNext s) := by
  refine .step rfl rfl (.step rfl (step_je hcall) ?_)
  rw [if_neg (mt (s.zf_compare _).mp h)]
  refine .step rfl rfl (.step rfl rfl (.step rfl (step_jne hloop) ?_))
  have hzf : (scanNext s).zf = true ↔ s.mem (s.regs .rax + 8#64) = 0#64 := by
    simp [scanNext, State.zf_compare]
  simp only [← hzf]
  exact .refl _ _

-- A scan leaves memory and the other registers alone and reads at most `n` words on.
structure Scanned (s s' : State) (n : Nat) : Prop where
  mem : s'.mem = s.mem
  regs : ∀ r, r ≠ .rax → s'.regs r = s.regs r
  reads : ∀ a ∈ s'.reads, a ∈ s.reads ∨ ∃ i ≤ n, a = s.regs .rax + BitVec.ofNat 64 (8 * i)

theorem scanned_compare (s : State) (w : Word) (n : Nat) : Scanned s (s.compare w) n where
  mem := rfl
  regs _ _ := rfl
  reads a ha := by
    rw [State.reads_compare, List.mem_cons] at ha
    rcases ha with rfl | ha
    · exact .inr ⟨0, Nat.zero_le n, by simp⟩
    · exact .inl ha

theorem rax_scanNext (s : State) : (scanNext s).regs .rax = s.regs .rax + 8#64 := by
  rw [scanNext, State.regs_compare, State.regs_set_self]

theorem scanned_scanNext (s : State) (n : Nat) : Scanned s (scanNext s) (n + 1) where
  mem := rfl
  regs r hr := by
    rw [scanNext, State.regs_compare, State.regs_set_of_ne _ _ _ _ hr, State.regs_compare]
  reads a ha := by
    simp only [scanNext, State.reads_compare, State.regs_set_self, State.reads_set,
      List.mem_cons] at ha
    rcases ha with rfl | rfl | ha
    · exact .inr ⟨1, Nat.le_add_left 1 n, by simp⟩
    · exact .inr ⟨0, Nat.zero_le _, by simp⟩
    · exact .inl ha

theorem Scanned.of_scanNext {s' : State} {n : Nat} (h : Scanned (scanNext s) s' n) :
    Scanned s s' (n + 1) where
  mem := h.mem.trans (scanned_scanNext s 0).mem
  regs r hr := (h.regs r hr).trans ((scanned_scanNext s 0).regs r hr)
  reads a ha := by
    rcases h.reads a ha with ha | ⟨i, hi, rfl⟩
    · exact (scanned_scanNext s n).reads a ha
    · refine .inr ⟨i + 1, by omega, ?_⟩
      rw [rax_scanNext, Nat.mul_succ, Nat.add_comm, BitVec.ofNat_add, ← BitVec.add_assoc]

-- The induction is on the words that the loop has still to pass; the first of them may be
-- anything, since the loop compares it before it looks for the terminator.
theorem scan (hloop : seek loopCetfake prog = some (scanLoop ++ rest))
    (hcall : seek callR11Cetfake prog = some (.insn .jmpR11 :: post)) (w : Word) (ws : List Word)
    (hholds : Holds s.mem (s.regs .rax) (w :: (ws ++ [0#64]))) (hws : ∀ x ∈ ws, x ≠ 0#64) :
    ∃ s', Scanned s s' (ws.length + 1) ∧
      (s.regs .r11 ∈ w :: ws →
        Silent env prog (scanLoop ++ rest) s (.insn .jmpR11 :: post) s') ∧
      (s.regs .r11 ∉ w :: ws → Silent env prog (scanLoop ++ rest) s rest s') := by
  induction ws generalizing w s with
  | nil =>
    by_cases hw : w = s.regs .r11
    · refine ⟨s.compare (s.regs .r11), scanned_compare _ _ _, fun _ => ?_, fun hnot => ?_⟩
      · exact scan_hit hcall (hholds.head.trans hw)
      · exact absurd (hw ▸ List.mem_cons_self) hnot
    · refine ⟨scanNext s, scanned_scanNext s 0, fun hmem => ?_, fun _ => ?_⟩
      · exact absurd (List.mem_singleton.mp hmem).symm hw
      · have hmiss := scan_miss env hloop hcall (hholds.head ▸ hw)
        rwa [if_pos hholds.tail.head] at hmiss
  | cons x xs ih =>
    by_cases hw : w = s.regs .r11
    · refine ⟨s.compare (s.regs .r11), scanned_compare _ _ _, fun _ => ?_, fun hnot => ?_⟩
      · exact scan_hit hcall (hholds.head.trans hw)
      · exact absurd (hw ▸ List.mem_cons_self) hnot
    · have hx : s.mem (s.regs .rax + 8#64) ≠ 0#64 := by
        rw [hholds.tail.head]
        exact hws x List.mem_cons_self
      have hr11 : (scanNext s).regs .r11 = s.regs .r11 := (scanned_scanNext s 0).regs _ (by decide)
      have hmiss := scan_miss env hloop hcall (hholds.head ▸ hw)
      rw [if_neg hx] at hmiss
      obtain ⟨s', hscanned, hin, hout⟩ := ih (s := scanNext s) x (rax_scanNext s ▸ hholds.tail)
        fun y hy => hws y (List.mem_cons_of_mem _ hy)
      rw [hr11] at hin hout
      refine ⟨s', hscanned.of_scanNext, fun hmem => ?_, fun hnot => ?_⟩
      · exact hmiss.trans (hin ((List.mem_cons.mp hmem).resolve_left (Ne.symm hw)))
      · exact hmiss.trans (hout fun h => hnot (List.mem_cons_of_mem _ h))

end Scan

end Platypus.Header
