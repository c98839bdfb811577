import Platypus.Header.Guard

namespace Platypus.Header

open Asm

def libcShouldPassthrough : Name := "libc_should_passthrough".toList

def finiShouldPassthrough : Name := "fini_should_passthrough".toList

-- What every function leaves to its caller: the stack pointer, and here the three words that the
-- dispatcher has pushed. All registers but rsp are caller-saved.
structure Abi (helper : State → State) : Prop where
  rsp : ∀ s, (helper s).regs .rsp = s.regs .rsp
  frame : ∀ s i, i < 3 → (helper s).mem (s.regs .rsp + BitVec.ofNat 64 (8 * i)) =
    s.mem (s.regs .rsp + BitVec.ofNat 64 (8 * i))

-- At the entry of a function the return address lies on an aligned stack.
def EntryAligned (s : State) : Prop := (s.regs .rsp).toNat % 16 = 8

instance decidableEntryAligned (s : State) : Decidable (EntryAligned s) :=
  inferInstanceAs (Decidable (_ = _))

def argRegs : List Reg := [.rdi, .rsi, .rdx, .rcx, .r8, .r9]

-- The dispatcher calls its helpers with an aligned stack, goes only to the value of r11 at its
-- entry, and leaves the registers `regs` as they were.
structure Transparent (env : Env Name) (prog code : Code) (regs : List Reg) (s : State) : Prop where
  aligned : ∀ sym t, Calls env prog code s sym t → 16 ∣ (t.regs .rsp).toNat
  target : ∀ w t, Ends env prog code s (.jumped w t) → w = s.regs .r11
  kept : ∀ w t, Ends env prog code s (.jumped w t) → ∀ r ∈ regs, t.regs r = s.regs r

def push (s : State) (r : Reg) : State :=
  { s.set .rsp (s.regs .rsp - 8#64) with
    mem := fun a => if a = s.regs .rsp - 8#64 then s.regs r else s.mem a }

def pop (s : State) (r : Reg) : State :=
  (s.set r (s.mem (s.regs .rsp))).set .rsp (s.regs .rsp + 8#64)

-- The state in which the dispatcher of LIBC calls its helper, and the one in which it tests
-- the answer.

def callState (s : State) : State :=
  let pushed := push (push (push (s.set .xmm15 (s.regs .r11)) .rdi) .rsi) .rdx
  pushed.set .rdi (pushed.regs .r11)

def returnState (h : State) : State :=
  let popped := pop (pop (pop h .rdx) .rsi) .rdi
  { popped.set .r11 (popped.regs .xmm15) with zf := (h.regs .rax).setWidth 32 = 0#32 }

-- The answer of the helper is in eax.
def Passes (h : State) : Prop := (h.regs .rax).setWidth 32 ≠ 0#32

section Steps

variable {env : Env Name} {prog post after : Code} {s : State}

def afterHelper : Code :=
  [.insn (.popq .rdx), .insn (.popq .rsi), .insn (.popq .rdi), .insn (.movq .xmm15 .r11),
    .insn .testEax, .insn (.jne callR11Cetfake)]

theorem libcFallthrough_silent :
    Silent env prog (libcFallthrough ++ after) s
      (.insn (.call libcShouldPassthrough) :: (afterHelper ++ after)) (callState s) :=
  .step rfl rfl <| .step rfl rfl <| .step rfl rfl <| .step rfl rfl <| .step rfl rfl <| .refl _ _

theorem zf_returnState (h : State) : (returnState h).zf = true ↔ ¬Passes h := by
  rw [Passes, not_not]
  exact decide_eq_true_iff

section Test

variable (hcall : seek callR11Cetfake prog = some (.insn .jmpR11 :: post))
include hcall

variable (env after s) in
theorem afterHelper_silent :
    Silent env prog (afterHelper ++ after) s
      (if (returnState s).zf then after else .insn .jmpR11 :: post) (returnState s) :=
  .step rfl rfl <| .step rfl rfl <| .step rfl rfl <| .step rfl rfl <| .step rfl rfl <|
    .step rfl (step_jne hcall) (.refl _ _)

theorem afterHelper_pass (h : Passes s) :
    Silent env prog (afterHelper ++ after) s (.insn .jmpR11 :: post) (returnState s) := by
  have hrun := afterHelper_silent env after s hcall
  rwa [if_neg fun hzf => (zf_returnState s).mp hzf h] at hrun

theorem afterHelper_refuse (h : ¬Passes s) :
    Silent env prog (afterHelper ++ after) s after (returnState s) := by
  have hrun := afterHelper_silent env after s hcall
  rwa [if_pos ((zf_returnState s).mpr h)] at hrun

end Test

theorem rsp_callState (s : State) : (callState s).regs .rsp = s.regs .rsp - 24#64 := by
  change s.regs .rsp - 8#64 - 8#64 - 8#64 = _
  bv_omega

theorem callState_aligned (h : EntryAligned s) : 16 ∣ ((callState s).regs .rsp).toNat := by
  unfold EntryAligned at h
  have hlt := (s.regs .rsp).isLt
  rw [rsp_callState, BitVec.toNat_sub, BitVec.toNat_ofNat]
  omega

-- What the dispatcher has pushed for the helper's return.
theorem mem_callState (s : State) (a : Word) :
    (callState s).mem a =
      if a = (callState s).regs .rsp then s.regs .rdx
      else if a = (callState s).regs .rsp + 8#64 then s.regs .rsi
      else if a = (callState s).regs .rsp + 16#64 then s.regs .rdi else s.mem a := by
  have hone : s.regs .rsp - 8#64 - 8#64 = s.regs .rsp - 24#64 + 8#64 := by bv_omega
  have htwo : s.regs .rsp - 8#64 = s.regs .rsp - 24#64 + 16#64 := by bv_omega
  rw [rsp_callState, ← hone, ← htwo, ← rsp_callState]
  rfl

-- The helper's own values of the registers that nobody saved, and the pushed values of the others.
theorem regs_returnState (h : State) :
    (returnState h).regs .r11 = h.regs .xmm15 ∧ (returnState h).regs .rcx = h.regs .rcx ∧
      (returnState h).regs .r8 = h.regs .r8 ∧ (returnState h).regs .r9 = h.regs .r9 ∧
      (returnState h).regs .rdx = h.mem (h.regs .rsp) ∧
      (returnState h).regs .rsi = h.mem (h.regs .rsp + 8#64) ∧
      (returnState h).regs .rdi = h.mem (h.regs .rsp + 8#64 + 8#64) ∧
      (returnState h).regs .rsp = h.regs .rsp + 8#64 + 8#64 + 8#64 := by
  refine ⟨rfl, rfl, rfl, rfl, rfl, rfl, rfl, rfl⟩

theorem callState_unsaved (s : State) :
    ∀ r ∈ [Reg.rcx, .r8, .r9], (callState s).regs r = s.regs r := by
  simp only [List.mem_cons, List.not_mem_nil, or_false]
  rintro r (rfl | rfl | rfl)
  · rfl
  · rfl
  · rfl

theorem returnState_unsaved (h : State) :
    ∀ r ∈ [Reg.rcx, .r8, .r9], (returnState h).regs r = h.regs r := by
  obtain ⟨-, hrcx, hr8, hr9, -⟩ := regs_returnState h
  simp only [List.mem_cons, List.not_mem_nil, or_false]
  rintro r (rfl | rfl | rfl)
  · exact hrcx
  · exact hr8
  · exact hr9

theorem returnState_saved {helper : State → State} (habi : Abi helper) (s : State) :
    ∀ r ∈ [Reg.rdi, .rsi, .rdx, .rsp], (returnState (helper (callState s))).regs r = s.regs r := by
  obtain ⟨-, -, -, -, hrdx, hrsi, hrdi, hrsp⟩ := regs_returnState (helper (callState s))
  have hframe := habi.frame (callState s)
  rw [habi.rsp] at hrdx hrsi hrdi hrsp
  have hzero := hframe 0 (by decide)
  have hone := hframe 1 (by decide)
  have htwo := hframe 2 (by decide)
  rw [mem_callState] at hzero hone htwo
  have hsp := rsp_callState s
  generalize (callState s).regs .rsp = sp at *
  rw [if_pos (by simp)] at hzero
  rw [if_neg (by bv_omega), if_pos rfl] at hone
  rw [if_neg (by bv_omega), if_neg (by bv_omega), if_pos rfl] at htwo
  have htwo' : sp + 8#64 + 8#64 = sp + BitVec.ofNat 64 (8 * 2) := by bv_omega
  intro r hr
  simp only [List.mem_cons, List.not_mem_nil, or_false] at hr
  rcases hr with rfl | rfl | rfl | rfl
  · rw [hrdi, htwo', htwo]
  · rw [hrsi]
    exact hone
  · rw [hrdx, ← hzero, Nat.mul_zero, BitVec.add_zero]
  · rw [hrsp, hsp]
    bv_omega

end Steps

-- Where the dispatcher of LIBC gets to with its pass-through: to the jump if r11 is in its table,
-- and else to the call of the helper.
theorem libc_reaches {opts : Options} {d : MaskDict} {t : Table} (ht : t ∈ tables d)
    (hkey : t.key = "LIBC".toList) (hopts : opts.libc_fallthrough_libs ≠ []) (img : Image t)
    (external : Name → State → State) (s : State) (hmem : s.mem = img.mem) :
    ∃ s' post after, (∀ r, r ≠ .rax → s'.regs r = s.regs r) ∧
      seek callR11Cetfake (emitCallbackFunctions opts d) = some (.insn .jmpR11 :: post) ∧
      (s.regs .r11 ∈ img.entries →
        Silent ⟨img.symbols, external⟩ (emitCallbackFunctions opts d)
          (callbackTable opts d "LIBC".toList) s (.insn .jmpR11 :: post) s') ∧
      (s.regs .r11 ∉ img.entries →
        Silent ⟨img.symbols, external⟩ (emitCallbackFunctions opts d)
          (callbackTable opts d "LIBC".toList) s
          (.insn (.call libcShouldPassthrough) :: (afterHelper ++ .insn .hlt :: after))
          (callState s')) := by
  have hlibc : "LIBC".toList ∈ d.keys := hkey ▸ key_mem_of_mem_tables ht
  obtain ⟨rest, post, hentry, hloop, hcall, after, rfl⟩ := sharedLoop_of_libc opts hlibc
  rw [afterScan, if_neg hopts, List.append_assoc] at hentry hloop
  obtain ⟨s', hscanned, hin, hout⟩ := scan_table_silent img ⟨img.symbols, external⟩
    (s := s.set .rax (img.symbols "libc_table".toList))
    hloop hcall (List.ne_nil_of_mem (main_mem_refs hkey)) hmem
    (by rw [State.regs_set_self, hkey]; rfl)
  have hregs : ∀ r, r ≠ .rax → s'.regs r = s.regs r := fun r hr =>
    (hscanned.regs r hr).trans (s.regs_set_of_ne _ _ _ hr)
  rw [s.regs_set_of_ne .rax .r11 _ (by decide)] at hin hout
  refine ⟨s', post, after, hregs, hcall, fun hmem => ?_, fun hnot => ?_⟩
  · rw [hentry]
    exact .step rfl rfl (.step rfl rfl (hin hmem))
  · rw [hentry]
    exact .step rfl rfl (.step rfl rfl ((hout hnot).trans libcFallthrough_silent))

-- Whatever runs into an end calls nothing and has this end only.
section Last

variable {env : Env Name} {prog code post : Code} {s s' : State}

theorem not_calls_of_jmpR11 (h : Silent env prog code s (.insn .jmpR11 :: post) s') {sym : Name}
    {u : State} : ¬Calls env prog code s sym u := by
  rw [calls_silent h]
  exact not_calls_of_last rfl nofun

theorem eq_of_jmpR11 (h : Silent env prog code s (.insn .jmpR11 :: post) s') {w : Word} {u : State}
    (hends : Ends env prog code s (.jumped w u)) : w = s'.regs .r11 ∧ u = s' := by
  have hjumped : Ends env prog code s (.jumped (s'.regs .r11) s') := .of_silent h (.of_jumped rfl)
  cases hends.unique hjumped
  exact ⟨rfl, rfl⟩

-- A way straight to the jump changes no register but rax.
theorem transparent_of_jmpR11 (h : Silent env prog code s (.insn .jmpR11 :: post) s')
    (hregs : ∀ r, r ≠ .rax → s'.regs r = s.regs r) {regs : List Reg} (hrax : .rax ∉ regs) :
    Transparent env prog code regs s where
  aligned _ _ hcalls := absurd hcalls (not_calls_of_jmpR11 h)
  target w u hends := by rw [(eq_of_jmpR11 h hends).1, hregs .r11 (by decide)]
  kept w u hends r hr := by
    rw [(eq_of_jmpR11 h hends).2]
    exact hregs r (ne_of_mem_of_not_mem hr hrax)

theorem not_calls_of_hlt (h : Silent env prog code s (.insn .hlt :: post) s') {sym : Name}
    {u : State} : ¬Calls env prog code s sym u := by
  rw [calls_silent h]
  exact not_calls_of_last rfl nofun

end Last

-- The registers that the dispatcher leaves to the helper.
def exposedRegs : List Reg := [.rcx, .r8, .r9, .xmm15]

section Helper

variable {env : Env Name} {prog code post after : Code} {s s' : State}
  (hcall : seek callR11Cetfake prog = some (.insn .jmpR11 :: post))
  (hreach : Silent env prog code s
    (.insn (.call libcShouldPassthrough) :: (afterHelper ++ .insn .hlt :: after)) (callState s'))
include hcall hreach

theorem calls_iff_of_helper {sym : Name} {u : State} :
    Calls env prog code s sym u ↔ sym = libcShouldPassthrough ∧ u = callState s' := by
  rw [calls_silent hreach, calls_call, or_iff_left]
  by_cases h : Passes (env.external libcShouldPassthrough (callState s'))
  · exact not_calls_of_jmpR11 (afterHelper_pass hcall h)
  · exact not_calls_of_hlt (afterHelper_refuse hcall h)

theorem ends_of_pass (h : Passes (env.external libcShouldPassthrough (callState s'))) :
    Ends env prog code s
      (.jumped ((env.external libcShouldPassthrough (callState s')).regs .xmm15)
        (returnState (env.external libcShouldPassthrough (callState s')))) :=
  .of_silent hreach (.of_step rfl (.of_silent (afterHelper_pass hcall h) (.of_jumped rfl)))

theorem jumped_of_helper {w : Word} {u : State} (hends : Ends env prog code s (.jumped w u)) :
    Passes (env.external libcShouldPassthrough (callState s')) ∧
      w = (env.external libcShouldPassthrough (callState s')).regs .xmm15 ∧
      u = returnState (env.external libcShouldPassthrough (callState s')) := by
  by_cases h : Passes (env.external libcShouldPassthrough (callState s'))
  · cases hends.unique (ends_of_pass hcall hreach h)
    exact ⟨h, rfl, rfl⟩
  · have hhalted : Ends env prog code s (.halted _) :=
      .of_silent hreach (.of_step rfl (.of_silent (afterHelper_refuse hcall h) (.of_halted rfl)))
    cases hends.unique hhalted

variable (hregs : ∀ r, r ≠ .rax → s'.regs r = s.regs r)
include hregs

theorem keeps_of_transparent (htrans : Transparent env prog code (argRegs ++ [.rsp]) s)
    (hpass : Passes (env.external libcShouldPassthrough (callState s'))) :
    ∀ r ∈ exposedRegs,
      (env.external libcShouldPassthrough (callState s')).regs r = (callState s').regs r := by
  have hunsaved := returnState_unsaved (env.external libcShouldPassthrough (callState s'))
  have hends := ends_of_pass hcall hreach hpass
  have hkept (r : Reg) (hr : r ∈ [Reg.rcx, .r8, .r9]) (harg : r ∈ argRegs ++ [.rsp])
      (hrax : r ≠ .rax) :
      (env.external libcShouldPassthrough (callState s')).regs r = s'.regs r :=
    ((hunsaved r hr).symm.trans (htrans.kept _ _ hends r harg)).trans (hregs r hrax).symm
  intro r hr
  simp only [exposedRegs, List.mem_cons, List.not_mem_nil, or_false] at hr
  rcases hr with rfl | rfl | rfl | rfl
  · exact hkept .rcx (by decide) (by decide) (by decide)
  · exact hkept .r8 (by decide) (by decide) (by decide)
  · exact hkept .r9 (by decide) (by decide) (by decide)
  · exact (htrans.target _ _ hends).trans (hregs .r11 (by decide)).symm

theorem transparent_of_keeps (habi : Abi (env.external libcShouldPassthrough))
    (hentry : EntryAligned s)
    (hkeeps : Passes (env.external libcShouldPassthrough (callState s')) → ∀ r ∈ exposedRegs,
      (env.external libcShouldPassthrough (callState s')).regs r = (callState s').regs r) :
    Transparent env prog code (argRegs ++ [.rsp]) s where
  aligned sym u h := by
    obtain ⟨-, rfl⟩ := (calls_iff_of_helper hcall hreach).mp h
    apply callState_aligned
    rw [EntryAligned, hregs .rsp (by decide)]
    exact hentry
  target w u h := by
    obtain ⟨hpass, rfl, rfl⟩ := jumped_of_helper hcall hreach h
    exact (hkeeps hpass .xmm15 (by decide)).trans (hregs .r11 (by decide))
  kept w u h r hr := by
    obtain ⟨hpass, rfl, rfl⟩ := jumped_of_helper hcall hreach h
    have hrax : r ≠ .rax := by
      rintro rfl
      exact absurd hr (by decide)
    refine Eq.trans ?_ (hregs r hrax)
    -- an argument register is restored from the stack or left to the helper
    by_cases hsaved : r ∈ [Reg.rdi, .rsi, .rdx, .rsp]
    · exact returnState_saved habi s' r hsaved
    · have hrest : r ∈ [Reg.rcx, .r8, .r9] := by
        revert r
        decide
      rw [returnState_unsaved _ r hrest, hkeeps hpass r (List.mem_append_left [Reg.xmm15] hrest),
        callState_unsaved s' r hrest]

end Helper

-- The dispatcher of LIBC with its pass-through, from an entry that respects the ABI.
theorem libc_transparent_iff {opts : Options} {d : MaskDict} {t : Table} (ht : t ∈ tables d)
    (hkey : t.key = "LIBC".toList) (hopts : opts.libc_fallthrough_libs ≠ []) (img : Image t)
    {external : Name → State → State} (habi : Abi (external libcShouldPassthrough)) {s : State}
    (hmem : s.mem = img.mem) (hentry : EntryAligned s) :
    Transparent ⟨img.symbols, external⟩ (emitCallbackFunctions opts d)
        (callbackTable opts d "LIBC".toList) (argRegs ++ [.rsp]) s ↔
      ∀ u, Calls ⟨img.symbols, external⟩ (emitCallbackFunctions opts d)
        (callbackTable opts d "LIBC".toList) s libcShouldPassthrough u →
        Passes (external libcShouldPassthrough u) →
        ∀ r ∈ exposedRegs, (external libcShouldPassthrough u).regs r = u.regs r := by
  obtain ⟨s', post, after, hregs, hcall, hin, hout⟩ :=
    libc_reaches ht hkey hopts img external s hmem
  by_cases hmem : s.regs .r11 ∈ img.entries
  · -- an entry of the table: no helper is called
    have hjump := hin hmem
    exact iff_of_true (transparent_of_jmpR11 hjump hregs (by decide)) fun u h =>
      absurd h (not_calls_of_jmpR11 hjump)
  have hreach := hout hmem
  constructor
  · intro htrans u hcalls hpass
    obtain ⟨-, rfl⟩ := (calls_iff_of_helper hcall hreach).mp hcalls
    exact keeps_of_transparent hcall hreach hregs htrans hpass
  · intro hkeeps
    exact transparent_of_keeps hcall hreach hregs habi hentry
      (hkeeps _ ((calls_iff_of_helper hcall hreach).mpr ⟨rfl, rfl⟩))

-- The special dispatcher of FINI calls its helper on the stack of its entry.
theorem calls_fini {opts : Options} {d : MaskDict} (hfini : "FINI".toList ∈ d.keys)
    (hopts : opts.fallthrough_libs ≠ []) (env : Env Name) (prog : Code) (s : State) :
    ∃ u, Calls env prog (callbackTable opts d "FINI".toList) s finiShouldPassthrough u ∧
      u.regs .rsp = s.regs .rsp := by
  obtain ⟨post, hentry⟩ := callbackTable_of_mem opts hfini
  rw [emitCallbackFunction_fini hopts] at hentry
  refine ⟨(s.set .xmm15 (s.regs .r11)).set .rdi (s.regs .r11), ?_, rfl⟩
  rw [hentry]
  exact ⟨2, _, rfl⟩

theorem fini_not_transparent {opts : Options} {d : MaskDict} (hfini : "FINI".toList ∈ d.keys)
    (hopts : opts.fallthrough_libs ≠ []) (env : Env Name) (prog : Code) (regs : List Reg) {s : State}
    (hentry : EntryAligned s) :
    ¬Transparent env prog (callbackTable opts d "FINI".toList) regs s := by
  intro htrans
  obtain ⟨u, hcalls, hrsp⟩ := calls_fini hfini hopts env prog s
  have hdvd := htrans.aligned _ _ hcalls
  rw [hrsp] at hdvd
  unfold EntryAligned at hentry
  omega

theorem fallthrough_transparent (opts : Options) (d : MaskDict) (t : Table) (ht : t ∈ tables d)
    (hkey : t.key = "LIBC".toList) (hopts : opts.libc_fallthrough_libs ≠ []) (img : Image t)
    (external : Name → State → State) (habi : Abi (external libcShouldPassthrough)) (s : State)
    (hmem : s.mem = img.mem) (hentry : EntryAligned s) :
    (Transparent ⟨img.symbols, external⟩ (emitCallbackFunctions opts d)
        (callbackTable opts d "LIBC".toList) (argRegs ++ [.rsp]) s ↔
      ∀ u, Calls ⟨img.symbols, external⟩ (emitCallbackFunctions opts d)
        (callbackTable opts d "LIBC".toList) s libcShouldPassthrough u →
        Passes (external libcShouldPassthrough u) →
        ∀ r ∈ exposedRegs, (external libcShouldPassthrough u).regs r = u.regs r) ∧
    ("FINI".toList ∈ d.keys → opts.fallthrough_libs ≠ [] →
      ¬Transparent ⟨img.symbols, external⟩ (emitCallbackFunctions opts d)
        (callbackTable opts d "FINI".toList) [.rsp] s) :=
  ⟨libc_transparent_iff ht hkey hopts img habi hmem hentry,
    fun hfini hlibs => fini_not_transparent hfini hlibs _ _ _ hentry⟩

-- Both dispatchers with a pass-through.

def finiHeader : MaskDict where
  entries := [("LIBC".toList, ["BIN_0x10".toList]), ("FINI".toList, ["BIN_0x10".toList])]
  nodup := by decide

def passOptions : Options := ⟨["libfini.so".toList], ["libcallback.so".toList]⟩

theorem demoLibc_mem_finiHeader : demoLibc ∈ tables finiHeader := by decide

def finiImage : Image demoLibc := demoImage demoLibc (by decide)

-- An entry with an address that is not in the table, and with 5 as the fourth argument.
def passEntry : State where
  regs r := match r with
    | .rsp => 0x7fff0008#64
    | .r11 => 0x500000#64
    | .rcx => 5#64
    | _ => 0#64
  zf := false
  mem := demoMem
  reads := []

-- A helper that lets everything pass and uses rcx for itself.
def clobberRcx : Name → State → State := fun _ s => (s.set .rax 1#64).set .rcx 0#64

theorem fallthrough_transparent_passAll :
    Transparent ⟨finiImage.symbols, passAll⟩ (emitCallbackFunctions passOptions finiHeader)
      (callbackTable passOptions finiHeader "LIBC".toList) (argRegs ++ [.rsp]) passEntry := by
  refine (fallthrough_transparent passOptions finiHeader demoLibc demoLibc_mem_finiHeader rfl
    (by decide) finiImage passAll ⟨fun _ => rfl, fun _ _ _ => rfl⟩ passEntry rfl
    (by decide)).1.mpr ?_
  intro u _ _ r hr
  refine u.regs_set_of_ne _ _ _ ?_
  rintro rfl
  exact absurd hr (by decide)

theorem fallthrough_not_transparent :
    EntryAligned passEntry ∧ Abi (clobberRcx libcShouldPassthrough) ∧
      ¬Transparent ⟨finiImage.symbols, clobberRcx⟩ (emitCallbackFunctions passOptions finiHeader)
        (callbackTable passOptions finiHeader "LIBC".toList) (argRegs ++ [.rsp]) passEntry ∧
      ¬Transparent ⟨finiImage.symbols, passAll⟩ (emitCallbackFunctions passOptions finiHeader)
        (callbackTable passOptions finiHeader "FINI".toList) [.rsp] passEntry := by
  have hentry : EntryAligned passEntry := by decide
  refine ⟨hentry, ⟨fun _ => rfl, fun _ _ _ => rfl⟩, fun htrans => ?_,
    fini_not_transparent (by decide) (by decide) _ _ _ hentry⟩
  obtain ⟨s', post, after, -, hcall, -, hout⟩ := libc_reaches demoLibc_mem_finiHeader rfl
    (show passOptions.libc_fallthrough_libs ≠ [] by decide) finiImage clobberRcx passEntry rfl
  have hends := ends_of_pass hcall (hout (by decide)) (show (1#64).setWidth 32 ≠ 0#32 by decide)
  have hrcx : (0#64 : Word) = 5#64 := htrans.kept _ _ hends .rcx (by decide)
  exact absurd hrcx (by decide)

end Platypus.Header
