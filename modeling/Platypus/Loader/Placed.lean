import Platypus.State.Steps
import Platypus.Loader.MapSegments

namespace Platypus.Loader

open State

-- The two static variables, which only `placeBelow` writes. All other steps leave them, also when
-- they fail.
def Process.statics (p : Process) : Word × Int := (p.addr, p.to_load)

theorem request_leaves (os : Kernel) (call : Call) :
    Leaves Process.statics (request os call) := fun _ => rfl

theorem unmapRest_leaves (os : Kernel) (start delta : Word) :
    Leaves Process.statics (unmapRest os start delta) :=
  Leaves.ite (Leaves.bind (request_leaves _ _) fun _ => Leaves.pure _) (Leaves.pure _)

theorem dlMapSegment_leaves (os : Kernel) (c : LoadCmd) (mappref maplength : Word) (fd : Int) :
    Leaves Process.statics (dlMapSegment os c mappref maplength fd) := by
  apply Leaves.ite (request_leaves _ _)
  refine Leaves.bind (request_leaves _ _) fun map_start => Leaves.ite (Leaves.pure _) ?_
  refine Leaves.bind (request_leaves _ _) fun map_start_aligned => Leaves.ite ?_ ?_
  · exact Leaves.bind (request_leaves _ _) fun _ => Leaves.pure _
  · exact Leaves.bind (unmapRest_leaves _ _ _) fun _ =>
      Leaves.bind (unmapRest_leaves _ _ _) fun _ => Leaves.pure _

theorem clearPageEnd_leaves (os : Kernel) (c : LoadCmd) (zero zeropage : Word) :
    Leaves Process.statics (clearPageEnd os c zero zeropage) := by
  refine Leaves.ite (Leaves.bind (request_leaves _ _) fun ret => ?_) (Leaves.pure _)
  exact Leaves.ite (Leaves.throw _) (Leaves.bind (request_leaves _ _) fun _ => Leaves.pure _)

theorem mapZeroPages_leaves (os : Kernel) (c : LoadCmd) (zeropage zeroend : Word) :
    Leaves Process.statics (mapZeroPages os c zeropage zeroend) := by
  refine Leaves.ite (Leaves.bind (request_leaves _ _) fun _ => ?_) (Leaves.pure _)
  exact Leaves.ite (Leaves.throw _) (Leaves.pure _)

theorem zeroFill_leaves (os : Kernel) (l_addr : Word) (c : LoadCmd) :
    Leaves Process.statics (zeroFill os l_addr c) := by
  refine Leaves.ite (Leaves.bind ?_ fun _ => mapZeroPages_leaves _ _ _ _) (Leaves.pure _)
  exact clearPageEnd_leaves _ _ _ _

theorem mapFixed_leaves (os : Kernel) (fd : Int) (l_addr : Word) (mapped : Bool) (c : LoadCmd) :
    Leaves Process.statics (mapFixed os fd l_addr mapped c) := by
  refine Leaves.ite (Leaves.bind (request_leaves _ _) fun _ => ?_) (Leaves.pure _)
  exact Leaves.ite (Leaves.throw _) (Leaves.pure _)

theorem closeHoles_leaves (os : Kernel) (o : Object) (l : LinkMap) :
    Leaves Process.statics (closeHoles os o l) := by
  refine Leaves.ite (Leaves.ite (Leaves.throw _) (Leaves.bind (request_leaves _ _) fun _ => ?_))
    (Leaves.pure _)
  exact Leaves.ite (Leaves.throw _) (Leaves.pure _)

theorem mapLoop_leaves (os : Kernel) (fd : Int) (header : Ehdr) (mapped : Bool)
    (cs : List LoadCmd) (l : LinkMap) :
    Leaves Process.statics (mapLoop os fd header mapped cs l) := by
  induction cs generalizing mapped l with
  | nil => exact Leaves.pure _
  | cons c cs ih =>
    exact Leaves.bind (mapFixed_leaves _ _ _ _ _) fun _ =>
      Leaves.bind (zeroFill_leaves _ _ _) fun _ => ih _ _

-- What the segment loop leaves as it was in the link map: everything but `l_phdr`.
def LinkMap.placed (l : LinkMap) : LinkMap := { l with l_phdr := 0#64 }

theorem dlPostprocessLoadcmd_placed (header : Ehdr) (c : LoadCmd) (l : LinkMap) :
    (dlPostprocessLoadcmd header c l).placed = l.placed := by
  unfold dlPostprocessLoadcmd
  split <;> rfl

theorem mapLoop_placed (os : Kernel) (fd : Int) (header : Ehdr) (mapped : Bool)
    (cs : List LoadCmd) (l l' : LinkMap) (p p' : Process)
    (h : mapLoop os fd header mapped cs l p = .ok l' p') : l'.placed = l.placed := by
  induction cs generalizing mapped l p with
  | nil =>
    obtain ⟨rfl, _⟩ := pure_ok.mp h
    rfl
  | cons c cs ih =>
    obtain ⟨_, p₁, _, h⟩ := bind_ok.mp h
    obtain ⟨_, p₂, _, h⟩ := bind_ok.mp h
    rw [ih _ _ _ h, dlPostprocessLoadcmd_placed]

-- The address below which the next object is placed.
def cursorBase (os : Kernel) (o : Object) (p : Process) : Word :=
  if 1 < p.to_load then p.addr
  else
    match dlMapSegment os o.c o.c.mapstart o.maplength o.fd p with
    | .ok tmp _ => tmp
    | .error _ _ => 0#64

def proposed (os : Kernel) (o : Object) (p : Process) : Word :=
  findAddr (cursorBase os o p - 0x10000000#64) ((findExecSize o.loadcmds).size.setWidth 64)

-- The result of `find_addr`, when it is called at all.
def findAddrResult (os : Kernel) (o : Object) (p : Process) : Option Word :=
  if 0#32 < (findExecSize o.loadcmds).size then some (proposed os o p) else none

theorem placeBelow_ok (os : Kernel) (o : Object) (l l' : LinkMap) (st : MitigStruct)
    (base : Word) (p p' : Process) (h : placeBelow os o l st base p = .ok l' p') :
    let hmm := findAddr (base - 0x10000000#64) (st.size.setWidth 64)
    let fin := st.size.setWidth 64 + hmm - 1#64
    l' = { l with
      l_exec_end := fin, l_exec_start := commonPrefixLen hmm fin,
      l_map_start := hmm - st.mapstart } ∧
    p'.addr = hmm - st.mapstart ∧ p'.to_load = p.to_load + 1 := by
  intro hmm fin
  obtain ⟨_, p₁, h₁, h⟩ := bind_ok.mp h
  rw [modify_ok] at h₁
  obtain ⟨start, p₂, h₂, h⟩ := bind_ok.mp h
  have hkeep := (dlMapSegment_leaves _ _ _ _ _).keeps _ _ _ h₂
  rcases ite_ok.mp h with ⟨_, h⟩ | ⟨hstart, h⟩
  · exact absurd h throw_ok
  · obtain ⟨_, p₃, h₃, h⟩ := bind_ok.mp h
    rw [modify_ok] at h₃
    obtain ⟨rfl, rfl⟩ := pure_ok.mp h
    rw [not_not] at hstart
    subst h₁ h₃
    simp only [Process.statics, Prod.mk.injEq] at hkeep
    refine ⟨by rw [hstart], hkeep.1, by simp only [hkeep.2]⟩

-- Which statics and which link map a successful placement leaves behind.
theorem place_ok (os : Kernel) (o : Object) (l l' : LinkMap) (p p' : Process)
    (hsize : 0#32 < (findExecSize o.loadcmds).size) (h : place os o l p = .ok l' p') :
    let st := findExecSize o.loadcmds
    let fin := st.size.setWidth 64 + proposed os o p - 1#64
    l' = { l with
      l_exec_end := fin, l_exec_start := commonPrefixLen (proposed os o p) fin,
      l_map_start := proposed os o p - st.mapstart } ∧
    p'.addr = proposed os o p - st.mapstart ∧ p'.to_load = p.to_load + 1 := by
  obtain ⟨q, p₁, h₁, h⟩ := bind_ok.mp h
  cases h₁
  rcases ite_ok.mp h with ⟨hload, h⟩ | ⟨hload, h⟩
  · rw [if_pos hsize] at h
    have hbase : cursorBase os o p = p.addr := if_pos hload
    simpa only [proposed, hbase] using placeBelow_ok _ _ _ _ _ _ _ _ h
  · obtain ⟨tmp, p₂, h₂, h⟩ := bind_ok.mp h
    rw [if_pos hsize] at h
    have hbase : cursorBase os o p = tmp := by simp [cursorBase, hload, h₂]
    have hkeep := (dlMapSegment_leaves _ _ _ _ _).keeps _ _ _ h₂
    simp only [Process.statics, Prod.mk.injEq] at hkeep
    simpa only [proposed, hbase, hkeep.2] using placeBelow_ok _ _ _ _ _ _ _ _ h

-- What a successful load of an object with an executable segment has done.
structure Placed (os : Kernel) (o : Object) (p : Process) (l' : LinkMap) (p' : Process) : Prop where
  l_exec_end : l'.l_exec_end =
    (findExecSize o.loadcmds).size.setWidth 64 + proposed os o p - 1#64
  l_exec_start : l'.l_exec_start = commonPrefixLen (proposed os o p) l'.l_exec_end
  l_map_start : l'.l_map_start = proposed os o p - (findExecSize o.loadcmds).mapstart
  l_addr : l'.l_addr = l'.l_map_start - o.c.mapstart
  cursor : p'.addr = proposed os o p - (findExecSize o.loadcmds).mapstart
  to_load : p'.to_load = p.to_load + 1

theorem dlMapSegments_placed (os : Kernel) (o : Object) (l l' : LinkMap) (p p' : Process)
    (htype : o.type = .ET_DYN) (hsize : 0#32 < (findExecSize o.loadcmds).size)
    (h : dlMapSegments os o l p = .ok l' p') : Placed os o p l' p' := by
  simp only [dlMapSegments, htype] at h
  obtain ⟨l₁, p₁, h₁, h⟩ := bind_ok.mp h
  obtain ⟨hl₁, hcursor, hload⟩ := place_ok os o l l₁ p p₁ hsize h₁
  rcases ite_ok.mp h with ⟨_, h⟩ | ⟨_, h⟩
  · exact absurd h throw_ok
  · obtain ⟨_, p₂, h₂, h⟩ := bind_ok.mp h
    have hplaced := mapLoop_placed _ _ _ _ _ _ _ _ _ h
    have hstatics := ((mapLoop_leaves _ _ _ _ _ _).keeps _ _ _ h).trans
      ((closeHoles_leaves _ _ _).keeps _ _ _ h₂)
    simp only [Process.statics, Prod.mk.injEq] at hstatics
    simp only [LinkMap.placed, LinkMap.mk.injEq, hl₁] at hplaced
    obtain ⟨haddr, hstart, _, hes, hee, _⟩ := hplaced
    constructor
    · exact hee
    · rw [hes, hee]
    · exact hstart
    · rw [haddr, hstart]
    · rw [hstatics.1, hcursor]
    · rw [hstatics.2, hload]

def firstExec (cs : List LoadCmd) : Option LoadCmd := cs.find? fun c => 3 < c.prot

theorem findExecSize_of_firstExec (cs : List LoadCmd) (e : LoadCmd) (he : firstExec cs = some e) :
    findExecSize cs = ⟨(e.mapend - e.mapstart).setWidth 32, e.mapstart⟩ := by
  induction cs with
  | nil => simp [firstExec] at he
  | cons c cs ih =>
    by_cases hc : 3 < c.prot
    · have hce : c = e := by simpa [firstExec, hc] using he
      rw [findExecSize, if_pos hc, hce]
    · rw [findExecSize, if_neg hc]
      exact ih (by simpa [firstExec, hc] using he)

def InWindow (l : LinkMap) (x : Word) : Prop := l.l_exec_start ≤ x ∧ x ≤ l.l_exec_end

-- The run-time range of one segment of an object.
def InSegment (l : LinkMap) (e : LoadCmd) (x : Word) : Prop :=
  l.l_addr + e.mapstart ≤ x ∧ x ≤ l.l_addr + e.mapend - 1#64

end Platypus.Loader
