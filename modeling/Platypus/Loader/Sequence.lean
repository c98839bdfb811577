import Platypus.Loader.Placed

namespace Platypus.Loader

open State

-- One successful call of `_dl_map_segments`.
structure Load where
  obj : Object
  before : Process
  map : LinkMap
  after : Process

-- The loads of one process in their order. Between two loads the process may make any
-- other requests, but nothing else writes the two static variables.
inductive Run (os : Kernel) : Process → List Load → Prop
  | nil (p : Process) : Run os p []
  | cons {p q p' : Process} {o : Object} {l l' : LinkMap} {rest : List Load} :
      q.statics = p.statics → dlMapSegments os o l q = .ok l' p' → Run os p' rest →
      Run os p (⟨o, q, l', p'⟩ :: rest)

-- A shared object whose first segment starts at virtual address 0 and whose first
-- executable segment has whole pages. The last three fields are the subtractions that
-- compute the cursor: none of them wraps.
structure Admissible (os : Kernel) (ld : Load) (e : LoadCmd) : Prop where
  type : ld.obj.type = .ET_DYN
  first : ld.obj.c.mapstart = 0#64
  exec : firstExec ld.obj.loadcmds = some e
  pos : 0 < (e.mapend - e.mapstart).toNat
  le : (e.mapend - e.mapstart).toNat ≤ 2 ^ 29
  pages : 2 ^ 12 ∣ (e.mapend - e.mapstart).toNat
  gap : 0x10000000 ≤ (cursorBase os ld.obj ld.before).toNat
  block : 2 ^ numBitsRequired (e.mapend - e.mapstart) ≤
    (cursorBase os ld.obj ld.before - 0x10000000#64).toNat
  start : e.mapstart ≤ proposed os ld.obj ld.before

theorem blockEnd_le_target (target_addr size : Word) (hlt : numBitsRequired size < 64)
    (h : 2 ^ numBitsRequired size ≤ target_addr.toNat) :
    blockEnd target_addr size ≤ target_addr.toNat := by
  have hpow : 2 ^ numBitsRequired size < 2 ^ 64 := Nat.pow_lt_pow_right (by decide) hlt
  have hshift : (1#64 <<< numBitsRequired size).toNat = 2 ^ numBitsRequired size := by
    rw [BitVec.toNat_shiftLeft, Nat.shiftLeft_eq, BitVec.toNat_ofNat]
    omega
  have hsub : (target_addr - (1#64 <<< numBitsRequired size)).toNat =
      target_addr.toNat - 2 ^ numBitsRequired size := by
    have := target_addr.isLt
    rw [BitVec.toNat_sub, hshift]
    omega
  have hdiv := Nat.mul_div_le (target_addr.toNat - 2 ^ numBitsRequired size)
    (2 ^ numBitsRequired size)
  rw [blockEnd, hsub, Nat.mul_succ]
  omega

-- Rounding a size up to a power of two adds less than half of the result.
theorem two_pow_size_lt (n bits : Nat) (hpos : 0 < n) (hle : n ≤ 2 ^ (bits + 1)) :
    2 ^ (n - 1).size < n + 2 ^ bits := by
  have hm : (n - 1).size ≤ bits + 1 :=
    Nat.size_le.mpr (by have := Nat.two_pow_pos (bits + 1); omega)
  rcases Nat.eq_zero_or_pos (n - 1).size with hz | hz
  · have := Nat.two_pow_pos bits
    rw [hz]
    omega
  · obtain ⟨m, hm'⟩ := Nat.exists_eq_succ_of_ne_zero hz.ne'
    have hlow : 2 ^ m ≤ n - 1 := Nat.lt_size.mp (by omega)
    have hpow : 2 ^ m ≤ 2 ^ bits := Nat.pow_le_pow_right (by decide) (by omega)
    rw [hm', Nat.pow_succ]
    omega

namespace Admissible

variable {os : Kernel} {ld : Load} {e : LoadCmd} {l : LinkMap}

theorem pageSize (hadm : Admissible os ld e) : PageSize (e.mapend - e.mapstart) :=
  ⟨hadm.pos, hadm.le.trans_lt (by decide), hadm.pages⟩

theorem size_setWidth (hadm : Admissible os ld e) :
    (findExecSize ld.obj.loadcmds).size.setWidth 64 = e.mapend - e.mapstart := by
  have hlt := hadm.pageSize.lt
  rw [findExecSize_of_firstExec _ _ hadm.exec]
  apply BitVec.eq_of_toNat_eq
  simp only [BitVec.toNat_setWidth]
  omega

theorem size_pos (hadm : Admissible os ld e) : 0#32 < (findExecSize ld.obj.loadcmds).size := by
  have hlt := hadm.pageSize.lt
  have hpos := hadm.pos
  rw [findExecSize_of_firstExec _ _ hadm.exec, BitVec.lt_def]
  simp only [BitVec.toNat_setWidth, BitVec.toNat_ofNat]
  omega

theorem mapstart (hadm : Admissible os ld e) :
    (findExecSize ld.obj.loadcmds).mapstart = e.mapstart := by
  rw [findExecSize_of_firstExec _ _ hadm.exec]

theorem placed (hadm : Admissible os ld e)
    (h : dlMapSegments os ld.obj l ld.before = .ok ld.map ld.after) :
    Placed os ld.obj ld.before ld.map ld.after :=
  dlMapSegments_placed os ld.obj l ld.map ld.before ld.after hadm.type hadm.size_pos h

-- The address handed to `find_addr`.
def target (os : Kernel) (ld : Load) : Word := cursorBase os ld.obj ld.before - 0x10000000#64

theorem proposed_eq (hadm : Admissible os ld e) :
    proposed os ld.obj ld.before = findAddr (target os ld) (e.mapend - e.mapstart) := by
  rw [proposed, hadm.size_setWidth, target]

theorem blockEnd_le (hadm : Admissible os ld e) :
    blockEnd (target os ld) (e.mapend - e.mapstart) + 0x10000000 ≤
      (cursorBase os ld.obj ld.before).toNat := by
  have hk := numBitsRequired_le _ hadm.pageSize.lt
  have htarget := blockEnd_le_target _ _ (by omega) hadm.block
  have hgap := hadm.gap
  have hlt := (cursorBase os ld.obj ld.before).isLt
  have hbase : (target os ld).toNat = (cursorBase os ld.obj ld.before).toNat - 0x10000000 := by
    rw [target, BitVec.toNat_sub, BitVec.toNat_ofNat]
    omega
  rw [← target, hbase] at htarget
  omega

variable (hadm : Admissible os ld e)
  (h : dlMapSegments os ld.obj l ld.before = .ok ld.map ld.after)
include hadm h

theorem exec_end_eq :
    ld.map.l_exec_end = findAddr (target os ld) (e.mapend - e.mapstart) +
      (e.mapend - e.mapstart) - 1#64 := by
  rw [(hadm.placed h).l_exec_end, hadm.size_setWidth, hadm.proposed_eq, BitVec.add_comm]

theorem exec_end_toNat :
    ld.map.l_exec_end.toNat = blockEnd (target os ld) (e.mapend - e.mapstart) - 1 := by
  rw [hadm.exec_end_eq h, hadm.pageSize.exec_end_toNat]

theorem exec_start_toNat :
    ld.map.l_exec_start.toNat + 2 ^ ((e.mapend - e.mapstart).toNat - 1).size =
      blockEnd (target os ld) (e.mapend - e.mapstart) := by
  rw [(hadm.placed h).l_exec_start, hadm.proposed_eq, hadm.exec_end_eq h,
    hadm.pageSize.commonPrefixLen_toNat]

theorem cursor_le : ld.after.addr.toNat ≤ (proposed os ld.obj ld.before).toNat := by
  have hstart := BitVec.le_def.mp hadm.start
  have hlt := (proposed os ld.obj ld.before).isLt
  rw [(hadm.placed h).cursor, hadm.mapstart, BitVec.toNat_sub]
  omega

-- At run time the first executable segment is what `find_addr` returned, up to the mask.
theorem segment_start : ld.map.l_addr + e.mapstart = proposed os ld.obj ld.before := by
  rw [(hadm.placed h).l_addr, (hadm.placed h).l_map_start, hadm.mapstart, hadm.first,
    BitVec.sub_zero, BitVec.sub_add_cancel]

theorem segment_end : ld.map.l_addr + e.mapend - 1#64 = ld.map.l_exec_end := by
  have hstart := hadm.segment_start h
  rw [hadm.exec_end_eq h, ← hadm.proposed_eq, ← hstart]
  bv_omega

end Admissible

-- Where one load puts its window and its code, relative to the address it was placed below.
structure Below (base : Word) (ld : Load) (e : LoadCmd) : Prop where
  window : ld.map.l_exec_end.toNat + 0x10000000 < base.toNat
  code : ∀ x, InSegment ld.map e x → InWindow ld.map x
  cursor : ld.after.addr.toNat < ld.map.l_exec_start.toNat + 0x10000000
  falls : ld.after.addr.toNat ≤ ld.map.l_exec_end.toNat

theorem Admissible.below {os : Kernel} {ld : Load} {e : LoadCmd} {l : LinkMap}
    (hadm : Admissible os ld e) (h : dlMapSegments os ld.obj l ld.before = .ok ld.map ld.after) :
    Below (cursorBase os ld.obj ld.before) ld e := by
  have hend := hadm.exec_end_toNat h
  have hstart := hadm.exec_start_toNat h
  have hadd := hadm.pageSize.findAddr_add (target os ld)
  rw [← hadm.proposed_eq] at hadd
  have hbase := hadm.blockEnd_le
  have hcursor := hadm.cursor_le h
  have hpos := hadm.pos
  have hreach := two_pow_size_lt _ 28 hpos hadm.le
  have hsize := Nat.lt_size_self ((e.mapend - e.mapstart).toNat - 1)
  constructor
  · omega
  · rintro x ⟨hlo, hhi⟩
    rw [hadm.segment_start h, BitVec.le_def] at hlo
    rw [hadm.segment_end h] at hhi
    refine ⟨?_, hhi⟩
    rw [BitVec.le_def]
    omega
  · omega
  · omega

theorem Run.code {os : Kernel} {p : Process} {loads : List Load} (h : Run os p loads)
    (hadm : ∀ ld ∈ loads, ∃ e, Admissible os ld e) :
    ∀ ld ∈ loads, ∀ e, firstExec ld.obj.loadcmds = some e →
      ∀ x, InSegment ld.map e x → InWindow ld.map x := by
  induction h with
  | nil => simp
  | cons _ hstep _ ih =>
    intro ld hld e he
    rcases List.mem_cons.mp hld with rfl | hld
    · obtain ⟨e', hadm'⟩ := hadm _ (List.mem_cons_self ..)
      obtain rfl : e' = e := Option.some.inj (hadm'.exec.symm.trans he)
      exact (hadm'.below hstep).code
    · exact ih (fun ld hld => hadm ld (List.mem_cons_of_mem _ hld)) ld hld e he

-- Once an object has been placed, every later load goes below the cursor it left.
theorem Run.falls {os : Kernel} {p : Process} {loads : List Load} (h : Run os p loads)
    (hadm : ∀ ld ∈ loads, ∃ e, Admissible os ld e) (hload : 1 < p.to_load) :
    ∀ ld ∈ loads, ld.map.l_exec_end.toNat + 0x10000000 < p.addr.toNat ∧
      ld.after.addr.toNat < p.addr.toNat := by
  induction h with
  | nil => simp
  | @cons p q p' o l l' rest hq hstep _ ih =>
    obtain ⟨e, he⟩ := hadm _ (List.mem_cons_self ..)
    simp only [Process.statics, Prod.mk.injEq] at hq
    have hb := he.below hstep
    have hbase : cursorBase os o q = p.addr := by
      rw [cursorBase, if_pos (by rw [hq.2]; exact hload), hq.1]
    have hwindow := hb.window
    have hcursor := hb.falls
    rw [hbase] at hwindow
    have hnext := (he.placed hstep).to_load
    simp only [hq.2] at hnext hwindow hcursor
    intro ld hld
    rcases List.mem_cons.mp hld with rfl | hld
    · exact ⟨hwindow, by simp only; omega⟩
    · have hrest := ih (fun ld hld => hadm ld (List.mem_cons_of_mem _ hld)) (by omega) ld hld
      omega

-- A later window ends below an earlier one, and the cursor falls.
theorem Run.pairwise {os : Kernel} {p : Process} {loads : List Load} (h : Run os p loads)
    (hadm : ∀ ld ∈ loads, ∃ e, Admissible os ld e) (hload : 1 ≤ p.to_load) :
    loads.Pairwise fun i j =>
      j.map.l_exec_end.toNat < i.map.l_exec_start.toNat ∧ j.after.addr.toNat < i.after.addr.toNat := by
  induction h with
  | nil => exact List.Pairwise.nil
  | @cons p q p' o l l' rest hq hstep hrun ih =>
    obtain ⟨e, he⟩ := hadm _ (List.mem_cons_self ..)
    have hrest : ∀ ld ∈ rest, ∃ e, Admissible os ld e :=
      fun ld hld => hadm ld (List.mem_cons_of_mem _ hld)
    simp only [Process.statics, Prod.mk.injEq] at hq
    have hnext := (he.placed hstep).to_load
    have hcursor := (he.below hstep).cursor
    simp only [hq.2] at hnext hcursor
    refine List.pairwise_cons.mpr ⟨?_, ih hrest (by omega)⟩
    intro ld hld
    have hfall := hrun.falls hrest (by omega) ld hld
    exact ⟨by simp only; omega, hfall.2⟩

-- The code of an object is in its own window, and windows do not meet.
theorem Run.not_inSegment {os : Kernel} {p : Process} {loads : List Load} (h : Run os p loads)
    (hadm : ∀ ld ∈ loads, ∃ e, Admissible os ld e) (hload : 1 ≤ p.to_load) {i j : Nat}
    (hi : i < loads.length) (hj : j < loads.length) (hne : j ≠ i) {e : LoadCmd}
    (he : firstExec loads[j].obj.loadcmds = some e) {x : Word} (hx : InWindow loads[i].map x) :
    ¬ InSegment loads[j].map e x := by
  intro hseg
  have hpair := List.pairwise_iff_getElem.mp (h.pairwise hadm hload)
  obtain ⟨hlo, hhi⟩ := hx
  obtain ⟨hlo', hhi'⟩ := h.code hadm _ (List.getElem_mem hj) _ he x hseg
  simp only [BitVec.le_def] at hlo hhi hlo' hhi'
  rcases Nat.lt_or_gt_of_ne hne with hlt | hlt
  · have := (hpair j i hj hi hlt).1
    omega
  · have := (hpair i j hi hj hlt).1
    omega

-- No window reaches the code of another object, whatever the order of the loads.
theorem Run.windows_disjoint {os : Kernel} {p : Process} {loads : List Load}
    (hfresh : p.statics = (0#64, 1)) (h : Run os p loads)
    (hadm : ∀ ld ∈ loads, ∃ e, Admissible os ld e) :
    (∀ i j (hi : i < loads.length) (hj : j < loads.length), i ≠ j →
      ∀ e, firstExec loads[j].obj.loadcmds = some e →
        ∀ x, ¬ (InWindow loads[i].map x ∧ InSegment loads[j].map e x)) ∧
    ∀ i (hi : i + 1 < loads.length), loads[i + 1].after.addr < loads[i].after.addr := by
  have hload : p.to_load = 1 := congrArg Prod.snd hfresh
  refine ⟨fun i j hi hj hne e he x hx => ?_, fun i hi => ?_⟩
  · exact h.not_inSegment hadm hload.ge hi hj hne.symm he hx.1 hx.2
  · have hpair := List.pairwise_iff_getElem.mp (h.pairwise hadm hload.ge)
    exact BitVec.lt_def.mpr (hpair i (i + 1) (by omega) hi (Nat.lt_succ_self i)).2

-- A kernel that gives every request in user space the address it asks for, and a library of one
-- read-only and three executable pages, loaded twice.
def demoKernel : Kernel := fun _ call =>
  match call with
  | .mmap addr _ _ _ _ _ _ =>
    if addr = 0#64 ∨ 0x7ffffffff000#64 ≤ addr then 0x7f0000000000#64 else addr
  | _ => 0#64

def demoExec : LoadCmd :=
  ⟨0x1000#64, 0x4000#64, 0x4000#64, 0x4000#64, 0x1000#64, 0x1000#64, 5⟩

def demoObject : Object where
  fd := 3
  header := ⟨0x40#64, 2#64⟩
  type := .ET_DYN
  c := ⟨0x0#64, 0x1000#64, 0x1000#64, 0x1000#64, 0x1000#64, 0x0#64, 1⟩
  cs := [demoExec]
  maplength := 0x4000#64
  has_holes := false

def demoStart : Process := ⟨0#64, 1, []⟩

def demoFirst : LinkMap × Process :=
  (outcome (dlMapSegments demoKernel demoObject {}) demoStart).get (by decide)

def demoSecond : LinkMap × Process :=
  (outcome (dlMapSegments demoKernel demoObject {}) demoFirst.2).get (by decide)

def demoLoads : List Load :=
  [⟨demoObject, demoStart, demoFirst.1, demoFirst.2⟩,
    ⟨demoObject, demoFirst.2, demoSecond.1, demoSecond.2⟩]

theorem demoLoads_run : Run demoKernel demoStart demoLoads :=
  .cons rfl (ok_of_outcome _ _ _) (.cons rfl (ok_of_outcome _ _ _) (.nil _))

theorem demoLoads_admissible : ∀ ld ∈ demoLoads, ∃ e, Admissible demoKernel ld e := by
  intro ld hld
  simp only [demoLoads, List.mem_cons, List.not_mem_nil, or_false] at hld
  refine ⟨demoExec, ?_⟩
  rcases hld with rfl | rfl <;> constructor <;> decide

theorem windows_disjoint_demoLoads :
    (∀ i j (hi : i < demoLoads.length) (hj : j < demoLoads.length), i ≠ j →
      ∀ e, firstExec demoLoads[j].obj.loadcmds = some e →
        ∀ x, ¬ (InWindow demoLoads[i].map x ∧ InSegment demoLoads[j].map e x)) ∧
    ∀ i (hi : i + 1 < demoLoads.length), demoLoads[i + 1].after.addr < demoLoads[i].after.addr :=
  Run.windows_disjoint rfl demoLoads_run demoLoads_admissible

end Platypus.Loader
