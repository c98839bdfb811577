import Platypus.Linker.Sections

namespace Platypus.Linker

structure PhdrFlags where
  PF_R : Bool := false
  PF_W : Bool := false
  PF_X : Bool := false
  deriving DecidableEq, Repr

def PhdrFlags.or (a b : PhdrFlags) : PhdrFlags :=
  ⟨a.PF_R || b.PF_R, a.PF_W || b.PF_W, a.PF_X || b.PF_X⟩

-- A `PT_LOAD`, with its sections and their places in the list of all sections. The first one may
-- hold the ELF header and the program headers before them.
structure PhdrEntry where
  p_flags : PhdrFlags
  headers : Bool := false
  secs : List (OutputSection × Nat) := []
  deriving DecidableEq, Repr

def PhdrEntry.add (e : PhdrEntry) (sec : OutputSection × Nat) : PhdrEntry :=
  { e with secs := e.secs ++ [sec] }

-- `lastSec->type == SHT_NOBITS`; the headers are of no such type.
def PhdrEntry.endsInNobits (e : PhdrEntry) : Bool :=
  e.secs.getLast?.any fun sec => sec.1.type = .SHT_NOBITS

def needsPtLoad (osec : OutputSection) : Bool :=
  osec.flags.SHF_ALLOC && !(osec.flags.SHF_TLS && osec.type = .SHT_NOBITS)

def getPhdrFlags (osec : OutputSection) : PhdrFlags where
  PF_R := true
  PF_W := osec.flags.SHF_WRITE
  PF_X := osec.flags.SHF_EXECINSTR

def computeFlags (cfg : LayoutConfig) (flags : PhdrFlags) : PhdrFlags :=
  if cfg.omagic then ⟨true, true, true⟩
  else if cfg.executeOnly && flags.PF_X then { flags with PF_R := false }
  else flags

-- The loop that finds where the relro sections end.
def relroStep (cfg : LayoutConfig) (part : Fin 256) (st : Bool × Option Nat)
    (sec : OutputSection × Nat) : Bool × Option Nat :=
  if sec.1.partition ≠ part || !needsPtLoad sec.1 then st
  else if isRelroSection cfg sec.1 then (true, st.2)
  else if st.1 then (false, some sec.2)
  else st

def relroEnd (cfg : LayoutConfig) (part : Fin 256) (secs : List OutputSection) : Option Nat :=
  (secs.zipIdx.foldl (relroStep cfg part) (false, none)).2

structure PhdrState where
  ret : List PhdrEntry
  load : Option Nat
  flags : PhdrFlags

section Loop

variable (cfg : LayoutConfig) (part : Fin 256) (relroEnd : Option Nat)

-- With `--no-rosegment` the segments for data and for code are compatible.
def incompatible (flags newFlags : PhdrFlags) : Bool :=
  flags.PF_R ≠ newFlags.PF_R || flags.PF_W ≠ newFlags.PF_W ||
    (flags.PF_X ≠ newFlags.PF_X && !(cfg.singleRoRx && !newFlags.PF_W))

-- The segment that the section continues, if any.
def continued (st : PhdrState) (sec : OutputSection × Nat) (newFlags : PhdrFlags) : Option Nat :=
  if incompatible cfg st.flags newFlags then none
  else
    st.load.filter fun i =>
      some sec.2 ≠ relroEnd &&
        (sec.1.type = .SHT_NOBITS || !(st.ret[i]?.any PhdrEntry.endsInNobits))

def loadStep (st : PhdrState) (sec : OutputSection × Nat) : PhdrState :=
  let newFlags := computeFlags cfg (getPhdrFlags sec.1)
  if !needsPtLoad sec.1 then st
  else if sec.1.partition ≠ part then
    -- The end of the partitions is reserved in the main one.
    if part = 1 && sec.1.partition = 255 then
      { st with ret := st.ret ++ [{ p_flags := newFlags, secs := [sec] }] }
    else st
  else
    match continued cfg relroEnd st sec newFlags with
    | some i =>
      { st with
        ret := st.ret.modify i fun e => { e.add sec with p_flags := e.p_flags.or newFlags }
        load := some i }
    | none =>
      { ret := st.ret ++ [{ p_flags := newFlags, secs := [sec] }]
        load := some st.ret.length
        flags := newFlags }

def startPhdrs : PhdrState :=
  let flags := computeFlags cfg { PF_R := true }
  if !cfg.nmagic && !cfg.omagic && part = 1 then
    { ret := [{ p_flags := flags, headers := true }], load := some 0, flags := flags }
  else { ret := [], load := none, flags := flags }

end Loop

-- The `PT_LOAD` entries that `createPhdrs` makes for a partition.
def createPhdrs (cfg : LayoutConfig) (part : Fin 256) (secs : List OutputSection) :
    List PhdrEntry :=
  (secs.zipIdx.foldl (loadStep cfg part (relroEnd cfg part secs)) (startPhdrs cfg part)).ret

section Step

variable {cfg : LayoutConfig} {part : Fin 256} {relroEnd : Option Nat} {st : PhdrState}
  {sec : OutputSection × Nat}

-- The sections for which a step does something to the segments of the partition itself.
def Loaded (part : Fin 256) (osec : OutputSection) : Prop :=
  needsPtLoad osec = true ∧ osec.partition = part

-- The end of the partitions.
def Reserved (part : Fin 256) (osec : OutputSection) : Prop :=
  needsPtLoad osec = true ∧ part = 1 ∧ osec.partition = 255

theorem loadStep_skip (h : ¬Loaded part sec.1) (hreserved : ¬Reserved part sec.1) :
    loadStep cfg part relroEnd st sec = st := by
  unfold loadStep
  split_ifs with hneeds hpart hend
  · rfl
  · simp only [Bool.and_eq_true, decide_eq_true_eq] at hend
    exact absurd ⟨by simpa using hneeds, hend⟩ hreserved
  · rfl
  · exact absurd ⟨by simpa using hneeds, not_not.mp hpart⟩ h

theorem loadStep_reserved (cfg : LayoutConfig) (relroEnd : Option Nat) (st : PhdrState)
    (hreserved : Reserved part sec.1) :
    ∃ e, loadStep cfg part relroEnd st sec = { st with ret := st.ret ++ [e] } := by
  obtain ⟨hneeds, rfl, hend⟩ := hreserved
  refine ⟨{ p_flags := computeFlags cfg (getPhdrFlags sec.1), secs := [sec] }, ?_⟩
  simp [loadStep, hneeds, hend]

theorem loadStep_continue (h : Loaded part sec.1) {i : Nat}
    (hcontinued : continued cfg relroEnd st sec (computeFlags cfg (getPhdrFlags sec.1)) = some i) :
    loadStep cfg part relroEnd st sec = { st with
      ret := st.ret.modify i fun e =>
        { e.add sec with p_flags := e.p_flags.or (computeFlags cfg (getPhdrFlags sec.1)) }
      load := some i } := by
  simp [loadStep, h.1, h.2, hcontinued]

theorem loadStep_new (h : Loaded part sec.1)
    (hcontinued : continued cfg relroEnd st sec (computeFlags cfg (getPhdrFlags sec.1)) = none) :
    loadStep cfg part relroEnd st sec = {
      ret := st.ret ++ [{ p_flags := computeFlags cfg (getPhdrFlags sec.1), secs := [sec] }]
      load := some st.ret.length
      flags := computeFlags cfg (getPhdrFlags sec.1) } := by
  simp [loadStep, h.1, h.2, hcontinued]

theorem load_of_continued {newFlags : PhdrFlags} {i : Nat}
    (h : continued cfg relroEnd st sec newFlags = some i) :
    st.load = some i ∧ incompatible cfg st.flags newFlags = false := by
  unfold continued at h
  split at h
  · cases h
  · rename_i hcompatible
    exact ⟨(Option.filter_eq_some_iff.mp h).1, by simpa using hcompatible⟩

end Step

-- The segments while only data has been added: none is executable.
structure ReadPhase (P : OutputSection → Prop) (st : PhdrState) : Prop where
  notExec : ∀ e ∈ st.ret, e.p_flags.PF_X = false
  secs : ∀ e ∈ st.ret, ∀ sec ∈ e.secs, P sec.1
  load : ∀ i, st.load = some i → i < st.ret.length
  flags : st.flags.PF_X = false ∧ st.flags.PF_W = false

section ReadPhase

variable {cfg : LayoutConfig} {part : Fin 256} {relroEnd : Option Nat} {P : OutputSection → Prop}
  {st : PhdrState} {sec : OutputSection × Nat}

theorem computeFlags_of_not_omagic (h : cfg.omagic = false) (flags : PhdrFlags) :
    (computeFlags cfg flags).PF_W = flags.PF_W ∧ (computeFlags cfg flags).PF_X = flags.PF_X := by
  unfold computeFlags
  rw [h, if_neg Bool.false_ne_true]
  split <;> exact ⟨rfl, rfl⟩

theorem ReadPhase.start (P : OutputSection → Prop) (homagic : cfg.omagic = false) :
    ReadPhase P (startPhdrs cfg part) := by
  obtain ⟨hw, hx⟩ := computeFlags_of_not_omagic homagic { PF_R := true }
  unfold startPhdrs
  dsimp only
  split
  · refine ⟨?_, ?_, ?_, hx, hw⟩
    · simpa using hx
    · simp
    · simp
  · exact ⟨by simp, by simp, by simp, hx, hw⟩

theorem mem_modify {α : Type} {l : List α} {f : α → α} {i : Nat} {a : α} (h : a ∈ l.modify i f) :
    a ∈ l ∨ ∃ b ∈ l, l[i]? = some b ∧ a = f b := by
  obtain ⟨j, hj⟩ := List.mem_iff_getElem?.mp h
  rw [List.getElem?_modify] at hj
  obtain ⟨b, hb, hab⟩ := Option.map_eq_some_iff.mp hj
  split at hab
  · rename_i hij
    subst hij
    exact .inr ⟨b, List.mem_of_getElem? hb, hb, hab.symm⟩
  · exact .inl (hab ▸ List.mem_of_getElem? hb)

theorem ReadPhase.step (h : ReadPhase P st) (homagic : cfg.omagic = false)
    (hreserved : ¬Reserved part sec.1)
    (hread : Loaded part sec.1 → sec.1.flags.SHF_WRITE = false ∧
      sec.1.flags.SHF_EXECINSTR = false ∧ P sec.1) :
    ReadPhase P (loadStep cfg part relroEnd st sec) := by
  by_cases hloaded : Loaded part sec.1
  · obtain ⟨hw, hx, hP⟩ := hread hloaded
    obtain ⟨hw', hx'⟩ := computeFlags_of_not_omagic homagic (getPhdrFlags sec.1)
    replace hw' : (computeFlags cfg (getPhdrFlags sec.1)).PF_W = false := hw'.trans hw
    replace hx' : (computeFlags cfg (getPhdrFlags sec.1)).PF_X = false := hx'.trans hx
    cases hcontinued : continued cfg relroEnd st sec (computeFlags cfg (getPhdrFlags sec.1)) with
    | none =>
      rw [loadStep_new hloaded hcontinued]
      refine ⟨fun e he => ?_, fun e he s hs => ?_, fun i hi => ?_, hx', hw'⟩
      · rcases List.mem_append.mp he with he | he
        · exact h.notExec e he
        · rw [List.mem_singleton.mp he]
          exact hx'
      · rcases List.mem_append.mp he with he | he
        · exact h.secs e he s hs
        · rw [List.mem_singleton.mp he] at hs
          rw [List.mem_singleton.mp hs]
          exact hP
      · rw [← Option.some_inj.mp hi]
        simp
    | some i =>
      rw [loadStep_continue hloaded hcontinued]
      refine ⟨fun e he => ?_, fun e he s hs => ?_, fun j hj => ?_, h.flags⟩
      · rcases mem_modify he with he | ⟨b, hb, -, rfl⟩
        · exact h.notExec e he
        · change (b.p_flags.PF_X || (computeFlags cfg (getPhdrFlags sec.1)).PF_X) = false
          rw [h.notExec b hb, hx', Bool.or_false]
      · rcases mem_modify he with he | ⟨b, hb, -, rfl⟩
        · exact h.secs e he s hs
        · rcases List.mem_append.mp hs with hs | hs
          · exact h.secs b hb s hs
          · rw [List.mem_singleton.mp hs]
            exact hP
      · rw [← Option.some_inj.mp hj, List.length_modify]
        exact h.load i (load_of_continued hcontinued).1
  · rw [loadStep_skip hloaded hreserved]
    exact h

end ReadPhase

-- The segments while code is added: all of it goes to the entry at `i`, the first that is executable.
structure ExecPhase (cfg : LayoutConfig) (P : OutputSection → Prop) (i : Nat)
    (done : List (OutputSection × Nat)) (st : PhdrState) : Prop where
  load : st.load = some i
  before : ∀ j < i, ∀ e, st.ret[j]? = some e → e.p_flags.PF_X = false
  entry : ∃ e, st.ret[i]? = some e ∧ e.p_flags.PF_X = true ∧ (∀ sec ∈ done, sec ∈ e.secs) ∧
    (∀ sec ∈ e.secs, P sec.1) ∧
    (e.endsInNobits = true → ∃ sec ∈ done, sec.1.type = .SHT_NOBITS)
  flags : ∀ newFlags, newFlags = computeFlags cfg ⟨true, false, true⟩ →
    incompatible cfg st.flags newFlags = false ∧ st.flags.PF_W = false

section ExecPhase

variable {cfg : LayoutConfig} {part : Fin 256} {relroEnd : Option Nat} {P : OutputSection → Prop}
  {st : PhdrState} {sec : OutputSection × Nat} {i : Nat} {done : List (OutputSection × Nat)}

theorem endsInNobits_add (e : PhdrEntry) (sec : OutputSection × Nat) (flags : PhdrFlags) :
    ({ e.add sec with p_flags := flags } : PhdrEntry).endsInNobits =
      decide (sec.1.type = .SHT_NOBITS) := by
  simp [PhdrEntry.endsInNobits, PhdrEntry.add]

-- The entry that a section of code is added to.
theorem ExecPhase.of_continue (done : List (OutputSection × Nat)) {e : PhdrEntry} (homagic : cfg.omagic = false)
    (hloaded : Loaded part sec.1) (hw : sec.1.flags.SHF_WRITE = false)
    (hx : sec.1.flags.SHF_EXECINSTR = true) (hP : P sec.1)
    (hcontinued : continued cfg relroEnd st sec (computeFlags cfg (getPhdrFlags sec.1)) = some i)
    (hwrite : st.flags.PF_W = false)
    (hbefore : ∀ j < i, ∀ e, st.ret[j]? = some e → e.p_flags.PF_X = false)
    (he : st.ret[i]? = some e) (hdone : ∀ sec ∈ done, sec ∈ e.secs) (hsecs : ∀ sec ∈ e.secs, P sec.1) :
    ExecPhase cfg P i (done ++ [sec]) (loadStep cfg part relroEnd st sec) := by
  have hflags : getPhdrFlags sec.1 = ⟨true, false, true⟩ := by rw [getPhdrFlags, hw, hx]
  have hexec : (computeFlags cfg (getPhdrFlags sec.1)).PF_X = true := by
    rw [(computeFlags_of_not_omagic homagic _).2, hflags]
  rw [loadStep_continue hloaded hcontinued]
  generalize computeFlags cfg (getPhdrFlags sec.1) = newFlags at hexec
  have hentry : (st.ret.modify i fun e => { e.add sec with p_flags := e.p_flags.or newFlags })[i]? =
      some { e.add sec with p_flags := e.p_flags.or newFlags } := by
    rw [List.getElem?_modify_eq, he]
    rfl
  refine ⟨rfl, fun j hj e' he' => ?_, ⟨_, hentry, ?_, ?_, ?_, ?_⟩, ?_⟩
  · exact hbefore j hj e' ((List.getElem?_modify_ne _ _ (Nat.ne_of_gt hj)).symm.trans he')
  · simp [PhdrFlags.or, hexec]
  · intro s hs
    rcases List.mem_append.mp hs with hs | hs
    · exact List.mem_append_left _ (hdone s hs)
    · exact List.mem_append_right _ hs
  · intro s hs
    rcases List.mem_append.mp hs with hs | hs
    · exact hsecs s hs
    · rw [List.mem_singleton.mp hs]
      exact hP
  · intro hnobits
    rw [endsInNobits_add, decide_eq_true_eq] at hnobits
    exact ⟨sec, by simp, hnobits⟩
  · rintro _ rfl
    exact ⟨hflags ▸ (load_of_continued hcontinued).2, hwrite⟩

theorem ExecPhase.of_new (homagic : cfg.omagic = false)
    (hloaded : Loaded part sec.1) (hw : sec.1.flags.SHF_WRITE = false)
    (hx : sec.1.flags.SHF_EXECINSTR = true) (hP : P sec.1)
    (hcontinued : continued cfg relroEnd st sec (computeFlags cfg (getPhdrFlags sec.1)) = none)
    (hread : ∀ e ∈ st.ret, e.p_flags.PF_X = false) :
    ExecPhase cfg P st.ret.length [sec] (loadStep cfg part relroEnd st sec) := by
  have hflags : getPhdrFlags sec.1 = ⟨true, false, true⟩ := by rw [getPhdrFlags, hw, hx]
  obtain ⟨hw', hx'⟩ := computeFlags_of_not_omagic homagic (getPhdrFlags sec.1)
  rw [loadStep_new hloaded hcontinued]
  refine ⟨rfl, fun j hj e he => ?_, ⟨_, List.getElem?_concat_length, ?_, ?_, ?_, ?_⟩, ?_⟩
  · rw [List.getElem?_append_left hj] at he
    exact hread e (List.mem_of_getElem? he)
  · rw [hx', hflags]
  · exact fun s hs => hs
  · intro s hs
    rw [List.mem_singleton.mp hs]
    exact hP
  · intro hnobits
    exact ⟨sec, List.mem_singleton_self _, by simpa [PhdrEntry.endsInNobits] using hnobits⟩
  · rintro _ rfl
    rw [hflags] at hw'
    rw [hflags]
    exact ⟨by simp [incompatible], hw'⟩

theorem ReadPhase.exec (h : ReadPhase P st) (homagic : cfg.omagic = false)
    (hloaded : Loaded part sec.1) (hw : sec.1.flags.SHF_WRITE = false)
    (hx : sec.1.flags.SHF_EXECINSTR = true) (hP : P sec.1) :
    ∃ i, ExecPhase cfg P i [sec] (loadStep cfg part relroEnd st sec) := by
  cases hcontinued : continued cfg relroEnd st sec (computeFlags cfg (getPhdrFlags sec.1)) with
  | none => exact ⟨_, .of_new homagic hloaded hw hx hP hcontinued h.notExec⟩
  | some i =>
    have hlt := h.load i (load_of_continued hcontinued).1
    have hentry := List.getElem?_eq_getElem hlt
    refine ⟨i, .of_continue [] homagic hloaded hw hx hP hcontinued h.flags.2 ?_ hentry
      (by simp) (h.secs _ (List.getElem_mem hlt))⟩
    exact fun j _ e he => h.notExec e (List.mem_of_getElem? he)

theorem ExecPhase.step (h : ExecPhase cfg P i done st) (homagic : cfg.omagic = false)
    (hloaded : Loaded part sec.1) (hw : sec.1.flags.SHF_WRITE = false)
    (hx : sec.1.flags.SHF_EXECINSTR = true) (hP : P sec.1) (hend : some sec.2 ≠ relroEnd)
    (hnobits : (∃ s ∈ done, s.1.type = .SHT_NOBITS) → sec.1.type = .SHT_NOBITS) :
    ExecPhase cfg P i (done ++ [sec]) (loadStep cfg part relroEnd st sec) := by
  obtain ⟨e, he, -, hdone, hsecs, hlast⟩ := h.entry
  have hflags : getPhdrFlags sec.1 = ⟨true, false, true⟩ := by rw [getPhdrFlags, hw, hx]
  obtain ⟨hcompatible, hwrite⟩ := h.flags _ rfl
  have hcontinued : continued cfg relroEnd st sec (computeFlags cfg (getPhdrFlags sec.1)) = some i := by
    have hkeep : (decide (sec.1.type = .SHT_NOBITS) || !e.endsInNobits) = true := by
      by_cases hends : e.endsInNobits = true
      · simp [hnobits (hlast hends)]
      · simp [hends]
    rw [hflags, continued, hcompatible, if_neg Bool.false_ne_true, h.load]
    simp only [Option.filter_some, he, Option.any_some, hkeep, Bool.and_true, ne_eq, hend,
      not_false_eq_true, decide_true, if_true]
  exact .of_continue done homagic hloaded hw hx hP hcontinued hwrite h.before he hdone hsecs

end ExecPhase

-- The entry at `i` is finished: the next section of the partition starts another one, or the
-- entry is no longer the current one.
structure Sealed (i : Nat) (e : PhdrEntry) (st : PhdrState) : Prop where
  entry : st.ret[i]? = some e
  before : ∀ j < i, ∀ e, st.ret[j]? = some e → e.p_flags.PF_X = false
  load : st.load = some i → st.flags.PF_W = false
  bound : ∀ j, st.load = some j → i ≤ j

section Sealed

variable {cfg : LayoutConfig} {part : Fin 256} {relroEnd : Option Nat} {st : PhdrState}
  {sec : OutputSection × Nat} {i : Nat} {e : PhdrEntry}

theorem Sealed.append (h : Sealed i e st) (e' : PhdrEntry) :
    Sealed i e { st with ret := st.ret ++ [e'] } := by
  have hlt : i < st.ret.length := (List.getElem?_eq_some_iff.mp h.entry).1
  refine ⟨?_, fun j hj e he => h.before j hj e ?_, h.load, h.bound⟩
  · rw [List.getElem?_append_left hlt]
    exact h.entry
  · rwa [List.getElem?_append_left (hj.trans hlt)] at he

theorem Sealed.skip (h : Sealed i e st) (hloaded : ¬Loaded part sec.1) :
    Sealed i e (loadStep cfg part relroEnd st sec) := by
  by_cases hreserved : Reserved part sec.1
  · obtain ⟨e', heq⟩ := loadStep_reserved cfg relroEnd st hreserved
    rw [heq]
    exact h.append e'
  · rw [loadStep_skip hloaded hreserved]
    exact h

-- After a writable section the entry is not the current one.
theorem Sealed.write (h : Sealed i e st) (relroEnd : Option Nat) (homagic : cfg.omagic = false)
    (hloaded : Loaded part sec.1) (hw : st.load = some i → sec.1.flags.SHF_WRITE = true) :
    Sealed i e (loadStep cfg part relroEnd st sec) ∧
      (loadStep cfg part relroEnd st sec).load ≠ some i := by
  have hlt : i < st.ret.length := (List.getElem?_eq_some_iff.mp h.entry).1
  cases hcontinued : continued cfg relroEnd st sec (computeFlags cfg (getPhdrFlags sec.1)) with
  | none =>
    rw [loadStep_new hloaded hcontinued]
    have hne : some st.ret.length ≠ some i := fun heq => Nat.ne_of_gt hlt (Option.some_inj.mp heq)
    have happend := h.append { p_flags := computeFlags cfg (getPhdrFlags sec.1), secs := [sec] }
    refine ⟨⟨happend.entry, happend.before, fun hload => absurd hload hne, fun j hj => ?_⟩, hne⟩
    rw [← Option.some_inj.mp hj]
    exact Nat.le_of_lt hlt
  | some j =>
    rw [loadStep_continue hloaded hcontinued]
    obtain ⟨hload, hcompatible⟩ := load_of_continued hcontinued
    have hne : j ≠ i := by
      rintro rfl
      have hnew : (computeFlags cfg (getPhdrFlags sec.1)).PF_W = true :=
        (computeFlags_of_not_omagic homagic _).1.trans (hw hload)
      simp [incompatible, h.load hload, hnew] at hcompatible
    have hne' : some j ≠ some i := fun heq => hne (Option.some_inj.mp heq)
    have hle := h.bound j hload
    refine ⟨⟨?_, fun k hk e' he' => ?_, fun hload => absurd hload hne', fun k hk => ?_⟩, hne'⟩
    · exact (List.getElem?_modify_ne _ _ hne).trans h.entry
    · have hkj : j ≠ k := by omega
      exact h.before k hk e' ((List.getElem?_modify_ne _ _ hkj).symm.trans he')
    · rwa [← Option.some_inj.mp hk]

theorem load_skip (h : ¬Loaded part sec.1) :
    (loadStep cfg part relroEnd st sec).load = st.load := by
  by_cases hreserved : Reserved part sec.1
  · obtain ⟨e', heq⟩ := loadStep_reserved cfg relroEnd st hreserved
    rw [heq]
  · rw [loadStep_skip h hreserved]

theorem Sealed.run_away (relroEnd : Option Nat) (homagic : cfg.omagic = false) (secs : List (OutputSection × Nat))
    (h : Sealed i e st) (hload : st.load ≠ some i) :
    Sealed i e (secs.foldl (loadStep cfg part relroEnd) st) := by
  induction secs generalizing st with
  | nil => exact h
  | cons sec secs ih =>
    by_cases hloaded : Loaded part sec.1
    · obtain ⟨hstep, hne⟩ := h.write relroEnd homagic hloaded fun heq => absurd heq hload
      exact ih hstep hne
    · exact ih (h.skip hloaded) (by rwa [load_skip hloaded])

-- The first section of the partition in the list, if any, is writable.
def FirstWrites (part : Fin 256) : List (OutputSection × Nat) → Prop
  | [] => True
  | sec :: secs =>
    (Loaded part sec.1 → sec.1.flags.SHF_WRITE = true) ∧
      (¬Loaded part sec.1 → FirstWrites part secs)

theorem Sealed.run (relroEnd : Option Nat) (homagic : cfg.omagic = false) (secs : List (OutputSection × Nat))
    (hsecs : FirstWrites part secs) (h : Sealed i e st) :
    Sealed i e (secs.foldl (loadStep cfg part relroEnd) st) := by
  induction secs generalizing st with
  | nil => exact h
  | cons sec secs ih =>
    by_cases hloaded : Loaded part sec.1
    · obtain ⟨hstep, hne⟩ := h.write relroEnd homagic hloaded fun _ => hsecs.1 hloaded
      exact hstep.run_away relroEnd homagic secs hne
    · exact ih (hsecs.2 hloaded) (h.skip hloaded)

end Sealed

section Run

variable {cfg : LayoutConfig} {part : Fin 256} {relroEnd : Option Nat} {P : OutputSection → Prop}
  {st : PhdrState}

theorem ReadPhase.run (homagic : cfg.omagic = false) (secs : List (OutputSection × Nat))
    (hsecs : ∀ sec ∈ secs, ¬Reserved part sec.1 ∧ (Loaded part sec.1 →
      sec.1.flags.SHF_WRITE = false ∧ sec.1.flags.SHF_EXECINSTR = false ∧ P sec.1))
    (h : ReadPhase P st) : ReadPhase P (secs.foldl (loadStep cfg part relroEnd) st) := by
  induction secs generalizing st with
  | nil => exact h
  | cons sec secs ih =>
    obtain ⟨hreserved, hread⟩ := hsecs sec List.mem_cons_self
    exact ih (fun s hs => hsecs s (List.mem_cons_of_mem _ hs)) (h.step homagic hreserved hread)

-- Nothing executable has been added yet, or all of it is in one entry.
def CodeIn (cfg : LayoutConfig) (P : OutputSection → Prop) (done : List (OutputSection × Nat))
    (st : PhdrState) : Prop :=
  (done = [] ∧ ReadPhase P st) ∨ ∃ i, ExecPhase cfg P i done st

theorem CodeIn.step {done : List (OutputSection × Nat)} {sec : OutputSection × Nat}
    (h : CodeIn cfg P done st) (homagic : cfg.omagic = false) (hloaded : Loaded part sec.1)
    (hw : sec.1.flags.SHF_WRITE = false) (hx : sec.1.flags.SHF_EXECINSTR = true) (hP : P sec.1)
    (hend : some sec.2 ≠ relroEnd)
    (hnobits : (∃ s ∈ done, s.1.type = .SHT_NOBITS) → sec.1.type = .SHT_NOBITS) :
    CodeIn cfg P (done ++ [sec]) (loadStep cfg part relroEnd st sec) := by
  rcases h with ⟨rfl, hread⟩ | ⟨i, hexec⟩
  · exact .inr (hread.exec homagic hloaded hw hx hP)
  · exact .inr ⟨i, hexec.step homagic hloaded hw hx hP hend hnobits⟩

theorem CodeIn.run (relroEnd : Option Nat) (homagic : cfg.omagic = false) (secs done : List (OutputSection × Nat))
    (hsecs : ∀ sec ∈ secs, ¬Reserved part sec.1 ∧ (Loaded part sec.1 →
      sec.1.flags.SHF_WRITE = false ∧ sec.1.flags.SHF_EXECINSTR = true ∧ P sec.1 ∧
        some sec.2 ≠ relroEnd))
    (hdone : ∀ sec ∈ done, Loaded part sec.1)
    (hnobits : (done ++ secs).Pairwise fun a b => Loaded part a.1 → Loaded part b.1 →
      a.1.type = .SHT_NOBITS → b.1.type = .SHT_NOBITS)
    (h : CodeIn cfg P done st) :
    ∃ done', (∀ sec, sec ∈ done ∨ sec ∈ secs ∧ Loaded part sec.1 → sec ∈ done') ∧
      CodeIn cfg P done' (secs.foldl (loadStep cfg part relroEnd) st) := by
  induction secs generalizing done st with
  | nil => exact ⟨done, by simp, h⟩
  | cons sec secs ih =>
    obtain ⟨hreserved, hcode⟩ := hsecs sec List.mem_cons_self
    have hrest := fun s hs => hsecs s (List.mem_cons_of_mem sec hs)
    by_cases hloaded : Loaded part sec.1
    · obtain ⟨hw, hx, hP, hend⟩ := hcode hloaded
      have hstep := h.step homagic hloaded hw hx hP hend fun hs => by
        obtain ⟨s, hs, htype⟩ := hs
        exact (List.pairwise_append.mp hnobits).2.2 s hs sec List.mem_cons_self (hdone s hs)
          hloaded htype
      have hdone' : ∀ s ∈ done ++ [sec], Loaded part s.1 := by
        intro s hs
        rcases List.mem_append.mp hs with hs | hs
        · exact hdone s hs
        · rw [List.mem_singleton.mp hs]
          exact hloaded
      obtain ⟨done', hmem, hin⟩ := ih (done ++ [sec]) hrest hdone'
        (by rwa [List.append_assoc, List.singleton_append]) hstep
      refine ⟨done', fun s hs => hmem s ?_, hin⟩
      simp only [List.mem_append, List.mem_cons] at hs ⊢
      tauto
    · have hsub : (done ++ secs).Sublist (done ++ sec :: secs) :=
        List.Sublist.append_left (List.sublist_cons_self sec secs) done
      obtain ⟨done', hmem, hin⟩ := ih done hrest hdone (hnobits.sublist hsub) h
      rw [List.foldl_cons, loadStep_skip hloaded hreserved]
      refine ⟨done', fun s hs => hmem s ?_, hin⟩
      rcases hs with hs | ⟨hs, hl⟩
      · exact .inl hs
      · rcases List.mem_cons.mp hs with rfl | hs
        · exact absurd hl hloaded
        · exact .inr ⟨hs, hl⟩

-- Once all code is added the entry is finished.
theorem CodeIn.sealed {done : List (OutputSection × Nat)} {sec : OutputSection × Nat}
    (h : CodeIn cfg P done st) (hsec : sec ∈ done) :
    ∃ i e, (Sealed i e st ∧ st.load = some i) ∧ e.p_flags.PF_X = true ∧
      (∀ sec ∈ done, sec ∈ e.secs) ∧ ∀ sec ∈ e.secs, P sec.1 := by
  rcases h with ⟨rfl, -⟩ | ⟨i, hexec⟩
  · exact absurd hsec List.not_mem_nil
  · obtain ⟨e, he, hx, hdone, hsecs, -⟩ := hexec.entry
    refine ⟨i, e, ⟨⟨he, hexec.before, fun _ => (hexec.flags _ rfl).2, fun j hj => ?_⟩, hexec.load⟩,
      hx, hdone, hsecs⟩
    rw [hexec.load] at hj
    exact Nat.le_of_eq (Option.some_inj.mp hj)

end Run

-- The sections of an entry stand in their order, and are among those that were added.
def Within (secs : List (OutputSection × Nat)) (st : PhdrState) : Prop :=
  ∀ e ∈ st.ret, (e.secs.Pairwise fun a b => a.2 < b.2) ∧
    ∀ sec ∈ e.secs, sec ∈ secs ∧ needsPtLoad sec.1 = true

section Within

variable {cfg : LayoutConfig} {part : Fin 256} {relroEnd : Option Nat} {st : PhdrState}
  {secs : List (OutputSection × Nat)} {sec : OutputSection × Nat}

theorem Within.start (cfg : LayoutConfig) (part : Fin 256) : Within [] (startPhdrs cfg part) := by
  unfold startPhdrs
  dsimp only
  split <;> simp [Within]

theorem Within.mono (h : Within secs st) : Within (secs ++ [sec]) st := fun e he =>
  ⟨(h e he).1, fun s hs => ⟨List.mem_append_left _ ((h e he).2 s hs).1, ((h e he).2 s hs).2⟩⟩

theorem Within.append (h : Within secs st) (hneeds : needsPtLoad sec.1 = true) (flags : PhdrFlags) :
    ∀ e ∈ st.ret ++ [{ p_flags := flags, secs := [sec] }],
      (e.secs.Pairwise fun a b => a.2 < b.2) ∧
        ∀ s ∈ e.secs, s ∈ secs ++ [sec] ∧ needsPtLoad s.1 = true := by
  intro e he
  rcases List.mem_append.mp he with he | he
  · exact h.mono e he
  · rw [List.mem_singleton.mp he]
    refine ⟨List.pairwise_singleton _ _, fun s hs => ?_⟩
    rw [List.mem_singleton.mp hs]
    exact ⟨List.mem_append_right _ (List.mem_singleton_self _), hneeds⟩

theorem Within.step (h : Within secs st) (hsecs : ∀ s ∈ secs, s.2 < sec.2) :
    Within (secs ++ [sec]) (loadStep cfg part relroEnd st sec) := by
  unfold loadStep
  dsimp only
  split_ifs with hneeds hpart hend
  · exact h.mono
  · exact h.append (by simpa using hneeds) _
  · exact h.mono
  · replace hneeds : needsPtLoad sec.1 = true := by simpa using hneeds
    split
    · intro e he
      rcases mem_modify he with he | ⟨b, hb, -, rfl⟩
      · exact h.mono e he
      · obtain ⟨hpairwise, hmem⟩ := h b hb
        refine ⟨?_, fun s hs => ?_⟩
        · refine List.pairwise_append.mpr ⟨hpairwise, List.pairwise_singleton _ _, ?_⟩
          intro a ha c hc
          rw [List.mem_singleton.mp hc]
          exact hsecs a (hmem a ha).1
        · rcases List.mem_append.mp hs with hs | hs
          · exact ⟨List.mem_append_left _ (hmem s hs).1, (hmem s hs).2⟩
          · rw [List.mem_singleton.mp hs]
            exact ⟨List.mem_append_right _ (List.mem_singleton_self _), hneeds⟩
    · exact h.append hneeds _

theorem Within.run (h : Within secs st) (rest : List (OutputSection × Nat))
    (hpairwise : (secs ++ rest).Pairwise fun a b => a.2 < b.2) :
    Within (secs ++ rest) (rest.foldl (loadStep cfg part relroEnd) st) := by
  induction rest generalizing secs st with
  | nil => rwa [List.append_nil]
  | cons sec rest ih =>
    have hsecs : ∀ s ∈ secs, s.2 < sec.2 := fun s hs =>
      (List.pairwise_append.mp hpairwise).2.2 s hs sec List.mem_cons_self
    rw [← List.singleton_append, ← List.append_assoc] at hpairwise ⊢
    exact ih (h.step hsecs) hpairwise

end Within

-- A segment keeps its first section.

def Starts (st : PhdrState) (sec : OutputSection × Nat) : Prop :=
  ∃ e ∈ st.ret, e.headers = false ∧ e.secs.head? = some sec

section Starts

variable {cfg : LayoutConfig} {part : Fin 256} {relroEnd : Option Nat} {st : PhdrState}
  {sec s : OutputSection × Nat}

theorem Starts.step (h : Starts st s) : Starts (loadStep cfg part relroEnd st sec) s := by
  obtain ⟨e, he, hheaders, hhead⟩ := h
  unfold loadStep
  dsimp only
  split_ifs
  · exact ⟨e, he, hheaders, hhead⟩
  · exact ⟨e, List.mem_append_left _ he, hheaders, hhead⟩
  · exact ⟨e, he, hheaders, hhead⟩
  · split
    · rename_i i _
      obtain ⟨j, hj⟩ := List.mem_iff_getElem?.mp he
      by_cases hij : i = j
      · subst hij
        refine ⟨_, List.mem_of_getElem? ((List.getElem?_modify_eq _ _ _).trans
          (congrArg _ hj)), hheaders, ?_⟩
        exact (List.head?_append_of_ne_nil _ (by rintro hnil; simp [hnil] at hhead)).trans hhead
      · exact ⟨e, List.mem_of_getElem? ((List.getElem?_modify_ne _ _ hij).trans hj), hheaders, hhead⟩
    · exact ⟨e, List.mem_append_left _ he, hheaders, hhead⟩

theorem Starts.run (secs : List (OutputSection × Nat)) (h : Starts st s) :
    Starts (secs.foldl (loadStep cfg part relroEnd) st) s := by
  induction secs generalizing st with
  | nil => exact h
  | cons sec secs ih => exact ih h.step

-- The first section after a finished entry starts a new one.
theorem Sealed.starts {i : Nat} {e : PhdrEntry} (relroEnd : Option Nat) (h : Sealed i e st)
    (hload : st.load = some i) (homagic : cfg.omagic = false) (secs : List (OutputSection × Nat))
    (hsecs : FirstWrites part secs) (hex : ∃ sec ∈ secs, Loaded part sec.1) :
    ∃ l₁ first l₂, secs = l₁ ++ first :: l₂ ∧ (∀ sec ∈ l₁, ¬Loaded part sec.1) ∧
      Loaded part first.1 ∧ Starts (secs.foldl (loadStep cfg part relroEnd) st) first := by
  induction secs generalizing st with
  | nil =>
    obtain ⟨sec, hsec, -⟩ := hex
    exact absurd hsec List.not_mem_nil
  | cons sec secs ih =>
    by_cases hloaded : Loaded part sec.1
    · refine ⟨[], sec, secs, rfl, by simp, hloaded, Starts.run secs ?_⟩
      cases hcontinued :
          continued cfg relroEnd st sec (computeFlags cfg (getPhdrFlags sec.1)) with
      | none =>
        rw [loadStep_new hloaded hcontinued]
        exact ⟨_, List.mem_append_right _ (List.mem_singleton_self _), rfl, rfl⟩
      | some j =>
        obtain ⟨hj, hcompatible⟩ := load_of_continued hcontinued
        have hnew : (computeFlags cfg (getPhdrFlags sec.1)).PF_W = true :=
          (computeFlags_of_not_omagic homagic _).1.trans (hsecs.1 hloaded)
        simp [incompatible, h.load hload, hnew] at hcompatible
    · obtain ⟨s, hs, hsloaded⟩ := hex
      have hs' : s ∈ secs := by
        rcases List.mem_cons.mp hs with rfl | hs
        · exact absurd hsloaded hloaded
        · exact hs
      have hskip : Sealed i e (loadStep cfg part relroEnd st sec) := h.skip hloaded
      obtain ⟨l₁, first, l₂, rfl, hnot, hfirst, hstarts⟩ := ih hskip
        ((load_skip hloaded).trans hload) (hsecs.2 hloaded) ⟨s, hs', hsloaded⟩
      refine ⟨sec :: l₁, first, l₂, rfl, fun s hs => ?_, hfirst, hstarts⟩
      rcases List.mem_cons.mp hs with rfl | hs
      · exact hloaded
      · exact hnot s hs

end Starts

-- The relro sections end after a relro section.

theorem zipIdx_pairwise {α : Type} (l : List α) : l.zipIdx.Pairwise fun a b => a.2 < b.2 := by
  have hrange : (l.zipIdx.map Prod.snd).Pairwise (· < ·) := by
    rw [List.zipIdx_map_snd]
    exact List.pairwise_lt_range'
  exact List.pairwise_map.mp hrange

theorem relroStep_foldl (cfg : LayoutConfig) (part : Fin 256) (secs : List (OutputSection × Nat))
    (hsecs : secs.Pairwise fun a b => a.2 < b.2) (st : Bool × Option Nat) {k : Nat}
    (h : (secs.foldl (relroStep cfg part) st).2 = some k) :
    st.2 = some k ∨
      (∃ sec ∈ secs, Loaded part sec.1 ∧ isRelroSection cfg sec.1 = true ∧ sec.2 < k) ∨
      (st.1 = true ∧ ∃ sec ∈ secs, sec.2 = k) := by
  induction secs generalizing st with
  | nil => exact .inl h
  | cons sec secs ih =>
    obtain ⟨hlt, hrest⟩ := List.pairwise_cons.mp hsecs
    have hcons := ih hrest _ h
    unfold relroStep at hcons
    split_ifs at hcons with hskip hrelro hin
    · rcases hcons with hcons | ⟨s, hs, hcons⟩ | ⟨hin, s, hs, hk⟩
      · exact .inl hcons
      · exact .inr (.inl ⟨s, List.mem_cons_of_mem _ hs, hcons⟩)
      · exact .inr (.inr ⟨hin, s, List.mem_cons_of_mem _ hs, hk⟩)
    · have hloaded : Loaded part sec.1 := by simpa [Loaded, and_comm] using hskip
      rcases hcons with hcons | ⟨s, hs, hcons⟩ | ⟨-, s, hs, rfl⟩
      · exact .inl hcons
      · exact .inr (.inl ⟨s, List.mem_cons_of_mem _ hs, hcons⟩)
      · exact .inr (.inl ⟨sec, List.mem_cons_self, hloaded, hrelro, hlt s hs⟩)
    · rcases hcons with hcons | ⟨s, hs, hcons⟩ | ⟨hin, -⟩
      · exact .inr (.inr ⟨hin, sec, List.mem_cons_self, Option.some_inj.mp hcons⟩)
      · exact .inr (.inl ⟨s, List.mem_cons_of_mem _ hs, hcons⟩)
      · exact hin.elim
    · rcases hcons with hcons | ⟨s, hs, hcons⟩ | ⟨hin, s, hs, hk⟩
      · exact .inl hcons
      · exact .inr (.inl ⟨s, List.mem_cons_of_mem _ hs, hcons⟩)
      · exact .inr (.inr ⟨hin, s, List.mem_cons_of_mem _ hs, hk⟩)

theorem relroEnd_after {cfg : LayoutConfig} {part : Fin 256} {secs : List OutputSection} {k : Nat}
    (h : relroEnd cfg part secs = some k) :
    ∃ sec ∈ secs.zipIdx, Loaded part sec.1 ∧ isRelroSection cfg sec.1 = true ∧ sec.2 < k := by
  rcases relroStep_foldl cfg part _ (zipIdx_pairwise secs) _ h with hnone | hsec | ⟨hfalse, -⟩
  · exact absurd hnone (by simp)
  · exact hsec
  · exact absurd hfalse Bool.false_ne_true

end Platypus.Linker
