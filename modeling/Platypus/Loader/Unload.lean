import Platypus.Loader.Alignment

namespace Platypus.Loader

open State

def dlUnmapSegments (os : Kernel) (l : LinkMap) : Sys Unit := do
  let _ ← request os (.munmap l.l_map_start (l.l_map_end - l.l_map_start))
  pure ()

-- An object that is placed below the cursor.
structure Places (o : Object) : Prop where
  type : o.type = .ET_DYN
  size : 0#32 < (findExecSize o.loadcmds).size

instance (o : Object) : Decidable (Places o) :=
  decidable_of_iff (o.type = .ET_DYN ∧ 0#32 < (findExecSize o.loadcmds).size)
    ⟨fun h => ⟨h.1, h.2⟩, fun h => ⟨h.1, h.2⟩⟩

section Cursor

variable {os : Kernel} {o : Object} {p : Process}

theorem afterTrial_statics : (afterTrial os o p).statics = p.statics := by
  unfold afterTrial
  split
  · rfl
  · have hleaves := dlMapSegment_leaves os o.c o.c.mapstart o.maplength o.fd p
    cases h : dlMapSegment os o.c o.c.mapstart o.maplength o.fd p with
    | ok tmp p₁ =>
      rw [h] at hleaves
      exact hleaves
    | error e p₁ =>
      rw [h] at hleaves
      exact hleaves

-- The cursor moves before the mapping is tried, and it stays there when that fails.
theorem placeBelow_final (l : LinkMap) (st : MitigStruct) (base : Word) :
    (final (placeBelow os o l st base p)).addr =
        findAddr (base - 0x10000000#64) (st.size.setWidth 64) - st.mapstart ∧
      p.to_load ≤ (final (placeBelow os o l st base p)).to_load := by
  let a := findAddr (base - 0x10000000#64) (st.size.setWidth 64) - st.mapstart
  have hleaves := dlMapSegment_leaves os o.c a o.maplength o.fd { p with addr := a }
  obtain ⟨start, p₁, h⟩ := dlMapSegment_total os o.c a o.maplength o.fd { p with addr := a }
  rw [h] at hleaves
  obtain ⟨haddr, hload⟩ := Prod.mk_inj.mp hleaves
  have hplace : placeBelow os o l st base p = (if start ≠ a then throw .mapSegment else do
      modify fun p => { p with to_load := p.to_load + 1 }
      pure { l with
        l_exec_end := st.size.setWidth 64 +
          findAddr (base - 0x10000000#64) (st.size.setWidth 64) - 1#64
        l_exec_start := commonPrefixLen (findAddr (base - 0x10000000#64) (st.size.setWidth 64))
          (st.size.setWidth 64 + findAddr (base - 0x10000000#64) (st.size.setWidth 64) - 1#64)
        l_map_start := start } : Sys LinkMap) p₁ := by
    change EStateM.bind (dlMapSegment os o.c a o.maplength o.fd) _ { p with addr := a } = _
    unfold EStateM.bind
    rw [h]
  rw [hplace]
  split
  · exact ⟨haddr, hload.ge⟩
  · refine ⟨haddr, ?_⟩
    change p.to_load ≤ p₁.to_load + 1
    have hload' : p₁.to_load = p.to_load := hload
    omega

theorem dlMapSegments_final (ho : Places o) (l : LinkMap) :
    (final (dlMapSegments os o l p)).addr = mappref os o p ∧
      p.to_load ≤ (final (dlMapSegments os o l p)).to_load := by
  have hrest : (final (dlMapSegments os o l p)).statics = (final (place os o l p)).statics := by
    simp only [dlMapSegments, ho.type]
    refine Leaves.final_bind _ (fun l => Leaves.ite (Leaves.throw _) ?_) p
    exact Leaves.bind (closeHoles_leaves _ _ _) fun _ => mapLoop_leaves _ _ _ _ _ _
  obtain ⟨haddr, hload⟩ := Prod.mk_inj.mp hrest
  have htrial : (afterTrial os o p).statics = p.statics := afterTrial_statics
  rw [haddr, hload, place_eq os o l p ho.size, ← (Prod.mk_inj.mp htrial).2]
  exact placeBelow_final l _ _

-- An object that is not placed leaves the cursor where it is.
theorem dlMapSegments_leaves (ho : ¬ Places o) (l : LinkMap) :
    Leaves Process.statics (dlMapSegments os o l) := by
  intro p
  cases htype : o.type with
  | ET_EXEC =>
    simp only [dlMapSegments, htype]
    exact mapLoop_leaves _ _ _ _ _ _ p
  | ET_DYN =>
    have hsize : ¬ 0#32 < (findExecSize o.loadcmds).size := fun h => ho ⟨htype, h⟩
    have hplace : Leaves Process.statics (place os o l) := by
      simp only [place, if_neg hsize]
      refine Leaves.bind (fun _ => rfl) fun p => Leaves.ite (Leaves.pure _) ?_
      exact Leaves.bind (dlMapSegment_leaves _ _ _ _ _) fun _ => Leaves.pure _
    simp only [dlMapSegments, htype]
    refine Leaves.bind hplace (fun l => Leaves.ite (Leaves.throw _) ?_) p
    exact Leaves.bind (closeHoles_leaves _ _ _) fun _ => mapLoop_leaves _ _ _ _ _ _

end Cursor

-- How far one load can move the cursor down: the gap, the rounding to a block, the code, and what
-- lies before it.

def codeSize (o : Object) : Word := (findExecSize o.loadcmds).size.setWidth 64

def reach (o : Object) : Nat :=
  0x10000000 + 2 ^ numBitsRequired (codeSize o) + (codeSize o).toNat +
    (findExecSize o.loadcmds).mapstart.toNat

theorem blockEnd_bounds (target_addr size : Word) :
    (target_addr - (1#64 <<< numBitsRequired size)).toNat < blockEnd target_addr size ∧
      blockEnd target_addr size ≤
        (target_addr - (1#64 <<< numBitsRequired size)).toNat + 2 ^ numBitsRequired size := by
  unfold blockEnd
  generalize (target_addr - (1#64 <<< numBitsRequired size)).toNat = y
  have hpos := Nat.two_pow_pos (numBitsRequired size)
  refine ⟨Nat.lt_mul_div_succ y hpos, ?_⟩
  rw [Nat.mul_succ]
  exact Nat.add_le_add_right (Nat.mul_div_le y _) _

-- An address that a load may ask for.
def InUserSpace (a : Word) : Prop := 0 < a.toNat ∧ a.toNat < userLimit

section Proposal

variable {o : Object} (ho : Places o) (hpaged : ∀ c ∈ o.loadcmds, Paged c) (os : Kernel)
  (p : Process)

include ho hpaged

theorem proposed_add_codeSize : (proposed os o p).toNat + (codeSize o).toNat =
    blockEnd (cursorBase os o p - 0x10000000#64) (codeSize o) :=
  (codeSize_pageSize o hpaged ho.size).findAddr_add _

-- The block ends below the gap, or the subtractions have wrapped.
theorem blockEnd_near :
    (0x10000000 + 2 ^ numBitsRequired (codeSize o) ≤ (cursorBase os o p).toNat ∧
      (cursorBase os o p).toNat < blockEnd (cursorBase os o p - 0x10000000#64) (codeSize o) +
        0x10000000 + 2 ^ numBitsRequired (codeSize o) ∧
      blockEnd (cursorBase os o p - 0x10000000#64) (codeSize o) + 0x10000000 ≤
        (cursorBase os o p).toNat) ∨
    ((cursorBase os o p).toNat < 0x10000000 + 2 ^ numBitsRequired (codeSize o) ∧
      2 ^ 64 - 2 ^ 33 < blockEnd (cursorBase os o p - 0x10000000#64) (codeSize o)) := by
  have hbits := numBitsRequired_le _ (codeSize_pageSize o hpaged ho.size).lt
  obtain ⟨hlo, hhi⟩ := blockEnd_bounds (cursorBase os o p - 0x10000000#64) (codeSize o)
  change numBitsRequired (codeSize o) ≤ 32 at hbits
  generalize blockEnd (cursorBase os o p - 0x10000000#64) (codeSize o) = top at *
  generalize numBitsRequired (codeSize o) = bits at *
  have hpow : 2 ^ bits ≤ 2 ^ 32 := Nat.pow_le_pow_right (by decide) hbits
  have hshift : (1#64 <<< bits).toNat = 2 ^ bits := by
    rw [BitVec.toNat_shiftLeft, Nat.shiftLeft_eq, BitVec.toNat_ofNat]
    omega
  have hlt := (cursorBase os o p).isLt
  simp only [BitVec.toNat_sub, hshift, BitVec.toNat_ofNat] at hlo hhi
  omega

theorem mappref_toNat (h : (findExecSize o.loadcmds).mapstart.toNat ≤ (proposed os o p).toNat) :
    (mappref os o p).toNat + (findExecSize o.loadcmds).mapstart.toNat + (codeSize o).toNat =
      blockEnd (cursorBase os o p - 0x10000000#64) (codeSize o) := by
  have hadd := proposed_add_codeSize ho hpaged os p
  have hlt := (proposed os o p).isLt
  rw [mappref, BitVec.toNat_sub]
  omega

-- With room for all of it, the proposal is below the cursor, and not further than `reach`.
theorem mappref_near (h : reach o < (cursorBase os o p).toNat) :
    (cursorBase os o p).toNat ≤ (mappref os o p).toNat + reach o ∧
      (mappref os o p).toNat + 0x10000000 ≤ (cursorBase os o p).toNat := by
  unfold reach at h ⊢
  have hadd := proposed_add_codeSize ho hpaged os p
  rcases blockEnd_near ho hpaged os p with ⟨-, hlo, hhi⟩ | ⟨hlow, -⟩
  · have hmap := mappref_toNat ho hpaged os p (by omega)
    omega
  · omega

-- A proposal in user space is below the cursor, unless the code starts far up in the object.
theorem mappref_falls (hstart : (findExecSize o.loadcmds).mapstart.toNat ≤ userLimit)
    (h : InUserSpace (mappref os o p)) :
    (mappref os o p).toNat + 0x10000000 ≤ (cursorBase os o p).toNat := by
  have hadd := proposed_add_codeSize ho hpaged os p
  have hsize := (codeSize_pageSize o hpaged ho.size).lt
  change (codeSize o).toNat < 2 ^ 32 at hsize
  obtain ⟨-, hlimit⟩ := h
  unfold userLimit at hstart hlimit
  by_cases hle : (findExecSize o.loadcmds).mapstart.toNat ≤ (proposed os o p).toNat
  · have hmap := mappref_toNat ho hpaged os p hle
    rcases blockEnd_near ho hpaged os p with ⟨-, -, hhi⟩ | ⟨-, htop⟩
    · omega
    · omega
  · have hlt := (proposed os o p).isLt
    have hmap : (mappref os o p).toNat =
        2 ^ 64 + (proposed os o p).toNat - (findExecSize o.loadcmds).mapstart.toNat := by
      rw [mappref, BitVec.toNat_sub]
      omega
    omega

end Proposal

-- A process and the objects that are mapped in it.
structure World where
  process : Process
  mapped : List LinkMap

-- What happens, with the process as it is then.
inductive Event
  | load (o : Object) (q : Process)
  | unload (l : LinkMap) (q : Process)

def FromFile (o : Object) : Prop :=
  ∃ fd header type phdr, objectOf fd header type phdr = .ok o

-- Before each event the process may make any other requests, but nothing else writes the two
-- static variables. A load that fails leaves nothing to unload.
inductive Step (os : Kernel) : World → Event → World → Prop
  | loaded {w : World} {o : Object} {q p : Process} {l : LinkMap} :
      FromFile o → q.statics = w.process.statics → dlMapSegments os o {} q = .ok l p →
      Step os w (.load o q) ⟨p, w.mapped ++ [l]⟩
  | failed {w : World} {o : Object} {q p : Process} {e : MapError} :
      FromFile o → q.statics = w.process.statics → dlMapSegments os o {} q = .error e p →
      Step os w (.load o q) ⟨p, w.mapped⟩
  | unloaded {w : World} {before after : List LinkMap} {l : LinkMap} {q p : Process} :
      w.mapped = before ++ l :: after → q.statics = w.process.statics →
      dlUnmapSegments os l q = .ok () p → Step os w (.unload l q) ⟨p, before ++ after⟩

-- The interleavings with at most `K` objects mapped at any time.
inductive History (os : Kernel) (K : Nat) : World → List Event → World → Prop
  | nil {w : World} : w.mapped.length ≤ K → History os K w [] w
  | cons {w w₁ w₂ : World} {e : Event} {es : List Event} : w.mapped.length ≤ K → Step os w e w₁ →
      History os K w₁ es w₂ → History os K w (e :: es) w₂

-- Every load proposes an address in user space.
def StaysInside (os : Kernel) (es : List Event) : Prop :=
  ∀ o q, .load o q ∈ es → Places o → InUserSpace (mappref os o q)

def Event.cost : Event → Nat
  | .load o _ => if Places o then reach o else 0
  | .unload _ _ => 0

-- All loads together fit below the address that the kernel gives to a trial mapping.
def HasRoom (os : Kernel) (total : Nat) (es : List Event) : Prop :=
  ∀ o q, .load o q ∈ es → Places o → q.to_load ≤ 1 →
    total < (cursorBase os o q).toNat ∧ (cursorBase os o q).toNat ≤ userLimit

section Step

variable {os : Kernel} {w w' : World} {o : Object} {q : Process} {l : LinkMap}

theorem Step.load_eq (h : Step os w (.load o q) w') :
    FromFile o ∧ q.statics = w.process.statics ∧
      w'.process = final (dlMapSegments os o {} q) := by
  cases h with
  | loaded hfile hstatics hload =>
    rw [hload]
    exact ⟨hfile, hstatics, rfl⟩
  | failed hfile hstatics hload =>
    rw [hload]
    exact ⟨hfile, hstatics, rfl⟩

theorem Step.unload_statics (h : Step os w (.unload l q) w') :
    w'.process.statics = w.process.statics := by
  cases h with
  | unloaded _ hstatics hunload =>
    rw [← hstatics]
    have hleaves : Leaves Process.statics (dlUnmapSegments os l) :=
      Leaves.bind (request_leaves _ _) fun _ => Leaves.pure _
    exact hleaves.keeps _ _ _ hunload

theorem FromFile.paged (h : FromFile o) : ∀ c ∈ o.loadcmds, Paged c := by
  obtain ⟨fd, header, type, phdr, h⟩ := h
  exact objectOf_paged fd header type phdr o h

theorem Step.load_statics (h : Step os w (.load o q) w') (ho : ¬ Places o) :
    w'.process.statics = w.process.statics := by
  obtain ⟨-, hstatics, hprocess⟩ := h.load_eq
  rw [hprocess, dlMapSegments_leaves ho {} q, hstatics]

theorem Step.load_cursor (h : Step os w (.load o q) w') (ho : Places o) :
    w'.process.addr = mappref os o q ∧ w.process.to_load ≤ w'.process.to_load := by
  obtain ⟨-, hstatics, hprocess⟩ := h.load_eq
  rw [hprocess, ← (Prod.mk_inj.mp hstatics).2]
  exact dlMapSegments_final ho {}

theorem Step.cursorBase_eq (h : Step os w (.load o q) w') (hload : 1 < w.process.to_load) :
    cursorBase os o q = w.process.addr := by
  obtain ⟨-, hstatics, -⟩ := h.load_eq
  obtain ⟨haddr, hto⟩ := Prod.mk_inj.mp hstatics
  rw [cursorBase, if_pos (by rw [hto]; exact hload), haddr]

end Step

-- What is still to come fits below the cursor, once there is one.
def Ready (w : World) (es : List Event) : Prop :=
  1 < w.process.to_load →
    (es.map Event.cost).sum < w.process.addr.toNat ∧ w.process.addr.toNat ≤ userLimit

section Run

variable {os : Kernel} {K : Nat} {w w₁ w' : World} {e : Event} {es : List Event}

theorem Ready.of_statics (h : Ready w (e :: es)) (hcost : e.cost = 0)
    (hstatics : w₁.process.statics = w.process.statics) : Ready w₁ es := by
  obtain ⟨haddr, hto⟩ := Prod.mk_inj.mp hstatics
  intro hload
  rw [haddr]
  have hready := h (hto ▸ hload)
  simp only [List.map_cons, List.sum_cons, hcost, Nat.zero_add] at hready
  exact hready

-- One load: its proposal is in user space, and what is left fits below that.
theorem Ready.load {o : Object} {q : Process} (h : Ready w (.load o q :: es))
    (hstep : Step os w (.load o q) w₁) (ho : Places o) {total : Nat}
    (hroom : HasRoom os total (.load o q :: es))
    (htotal : ((Event.load o q :: es).map Event.cost).sum ≤ total) :
    InUserSpace (mappref os o q) ∧ Ready w₁ es := by
  obtain ⟨hfile, hstatics, -⟩ := hstep.load_eq
  have hto : q.to_load = w.process.to_load := (Prod.mk_inj.mp hstatics).2
  have hbase : ((Event.load o q :: es).map Event.cost).sum < (cursorBase os o q).toNat ∧
      (cursorBase os o q).toNat ≤ userLimit := by
    by_cases hload : 1 < w.process.to_load
    · rw [hstep.cursorBase_eq hload]
      exact h hload
    · have hfirst := hroom o q List.mem_cons_self ho (by omega)
      exact ⟨htotal.trans_lt hfirst.1, hfirst.2⟩
  simp only [List.map_cons, List.sum_cons, Event.cost, if_pos ho] at hbase
  have hnear := mappref_near ho hfile.paged os q (by omega)
  refine ⟨⟨by omega, by omega⟩, fun _ => ?_⟩
  rw [(hstep.load_cursor ho).1]
  omega

-- The induction is along the history; `Ready` says that what is left still fits.
theorem History.staysInside (h : History os K w es w') {total : Nat} (hready : Ready w es)
    (hroom : HasRoom os total es) (htotal : (es.map Event.cost).sum ≤ total) :
    StaysInside os es := by
  induction h with
  | nil => exact fun _ _ hmem => absurd hmem List.not_mem_nil
  | @cons w w₁ w₂ e es _ hstep _ ih =>
    have hrest : HasRoom os total es := fun o q hmem => hroom o q (List.mem_cons_of_mem e hmem)
    have hsum : (es.map Event.cost).sum ≤ total := by
      rw [List.map_cons, List.sum_cons] at htotal
      omega
    have hnext : Ready w₁ es ∧
        ∀ o q, e = .load o q → Places o → InUserSpace (mappref os o q) := by
      cases e with
      | unload l q => exact ⟨hready.of_statics rfl hstep.unload_statics, nofun⟩
      | load o q =>
        by_cases ho : Places o
        · obtain ⟨hinside, hready'⟩ := hready.load hstep ho hroom htotal
          refine ⟨hready', fun o' q' heq _ => ?_⟩
          cases heq
          exact hinside
        · refine ⟨hready.of_statics (if_neg ho) (hstep.load_statics ho), ?_⟩
          intro o' q' heq ho'
          cases heq
          exact absurd ho' ho
    intro o q hmem ho
    rcases List.mem_cons.mp hmem with heq | hmem
    · exact hnext.2 o q heq.symm ho
    · exact ih hnext.1 hrest hsum o q hmem ho

def Event.isLoad : Event → Bool
  | .load _ _ => true
  | .unload _ _ => false

-- No other object is loaded.
def Event.Loads (o : Object) : Event → Prop
  | .load o' _ => o' = o
  | .unload _ _ => True

-- Every load of an object takes at least the gap from the cursor, and no unload gives it back.
theorem History.falls {o : Object} (ho : Places o)
    (hstart : (findExecSize o.loadcmds).mapstart.toNat ≤ userLimit) (h : History os K w es w')
    (hall : ∀ e ∈ es, e.Loads o) (hinside : StaysInside os es)
    (hload : 1 < w.process.to_load) :
    w'.process.addr.toNat + 0x10000000 * es.countP Event.isLoad ≤ w.process.addr.toNat := by
  induction h with
  | nil => simp
  | @cons w w₁ w₂ e es _ hstep _ ih =>
    obtain ⟨he, hall⟩ := List.forall_mem_cons.mp hall
    have hrest := ih hall fun o' q hmem => hinside o' q (List.mem_cons_of_mem e hmem)
    cases e with
    | unload l q =>
      obtain ⟨haddr, hto⟩ := Prod.mk_inj.mp hstep.unload_statics
      rw [haddr] at hrest
      simpa [List.countP_cons, Event.isLoad] using hrest (by omega)
    | load o' q =>
      obtain rfl : o' = o := he
      obtain ⟨haddr, hto⟩ := hstep.load_cursor ho
      have hfall := mappref_falls ho hstep.load_eq.1.paged os q hstart
        (hinside o' q List.mem_cons_self ho)
      rw [hstep.cursorBase_eq hload] at hfall
      have hnext := hrest (by omega)
      have hcount : (Event.load o' q :: es).countP Event.isLoad =
          es.countP Event.isLoad + 1 := List.countP_cons_of_pos rfl
      rw [haddr] at hnext
      rw [hcount, Nat.mul_succ, ← Nat.add_assoc]
      exact (Nat.add_le_add_right hnext _).trans hfall

-- An object can be loaded as often as one likes with nothing else mapped: it is unloaded again
-- whenever its load succeeds.
theorem exists_history (os : Kernel) {o : Object} (ho : FromFile o) (n : Nat) {w : World}
    (hw : w.mapped = []) : ∃ es w', History os 1 w es w' ∧ es.countP Event.isLoad = n ∧
      ∀ e ∈ es, e.Loads o := by
  induction n generalizing w with
  | zero => exact ⟨[], w, .nil (by simp [hw]), rfl, nofun⟩
  | succ n ih =>
    have hempty : w.mapped.length ≤ 1 := by simp [hw]
    cases hload : dlMapSegments os o {} w.process with
    | error e p =>
      obtain ⟨es, w', hes, hcount, hall⟩ := @ih ⟨p, w.mapped⟩ hw
      refine ⟨.load o w.process :: es, w', .cons hempty (.failed ho rfl hload) hes, ?_,
        List.forall_mem_cons.mpr ⟨rfl, hall⟩⟩
      rw [List.countP_cons_of_pos rfl, hcount]
    | ok l p =>
      obtain ⟨_, p', hunload⟩ : ∃ u p', dlUnmapSegments os l p = .ok u p' :=
        Total.bind (request_total _ _) (fun _ => Total.pure _) p
      obtain ⟨es, w', hes, hcount, hall⟩ := @ih ⟨p', []⟩ rfl
      have hstep : Step os w (.load o w.process) ⟨p, [l]⟩ := by
        have hstep := Step.loaded ho rfl hload
        rwa [hw] at hstep
      have hstep' : Step os ⟨p, [l]⟩ (.unload l p) ⟨p', []⟩ :=
        @Step.unloaded os ⟨p, [l]⟩ [] [] l p p' rfl rfl hunload
      refine ⟨.load o w.process :: .unload l p :: es, w',
        .cons hempty hstep (.cons le_rfl hstep' hes), ?_,
        List.forall_mem_cons.mpr ⟨rfl, List.forall_mem_cons.mpr ⟨trivial, hall⟩⟩⟩
      rw [List.countP_cons_of_pos rfl, List.countP_cons_of_neg Bool.false_ne_true, hcount]

end Run

-- Nothing is given back: all objects ever loaded have to fit below the first one.
theorem loads_stay_inside (os : Kernel) (K : Nat) (w w' : World) (es : List Event)
    (hfresh : w.process.statics = (0#64, 1)) (h : History os K w es w')
    (hroom : HasRoom os (es.map Event.cost).sum es) : StaysInside os es := by
  refine h.staysInside (fun hload => ?_) hroom le_rfl
  rw [show w.process.to_load = 1 from (Prod.mk_inj.mp hfresh).2] at hload
  exact absurd hload (lt_irrefl 1)

-- A library that is loaded, unloaded and loaded again.

theorem pagedObject_fromFile : FromFile pagedObject :=
  ⟨3, ⟨0x40#64, 2#64⟩, .ET_DYN, alignedTo 0x1000#64, by decide⟩

def pageFirst : LinkMap × Process :=
  (outcome (dlMapSegments hintKernel pagedObject {}) demoStart).get (by decide)

def pageUnloaded : Process :=
  final (dlUnmapSegments hintKernel pageFirst.1 pageFirst.2)

def pageAgain : LinkMap × Process :=
  (outcome (dlMapSegments hintKernel pagedObject {}) pageUnloaded).get (by decide)

def pageEvents : List Event :=
  [.load pagedObject demoStart, .unload pageFirst.1 pageFirst.2, .load pagedObject pageUnloaded]

theorem pageEvents_start {es : List Event} {w' : World}
    (h : History hintKernel 1 ⟨pageUnloaded, []⟩ es w') :
    History hintKernel 1 ⟨demoStart, []⟩
      (.load pagedObject demoStart :: .unload pageFirst.1 pageFirst.2 :: es) w' := by
  have hload : Step hintKernel ⟨demoStart, []⟩ (.load pagedObject demoStart)
      ⟨pageFirst.2, [pageFirst.1]⟩ := .loaded pagedObject_fromFile rfl (ok_of_outcome _ _ _)
  have hunload : Step hintKernel ⟨pageFirst.2, [pageFirst.1]⟩ (.unload pageFirst.1 pageFirst.2)
      ⟨pageUnloaded, []⟩ :=
    @Step.unloaded hintKernel ⟨pageFirst.2, [pageFirst.1]⟩ [] [] _ _ _ rfl rfl rfl
  exact .cons (Nat.zero_le 1) hload (.cons le_rfl hunload h)

theorem pageEvents_history :
    History hintKernel 1 ⟨demoStart, []⟩ pageEvents ⟨pageAgain.2, [pageAgain.1]⟩ := by
  have hload : Step hintKernel ⟨pageUnloaded, []⟩ (.load pagedObject pageUnloaded)
      ⟨pageAgain.2, [pageAgain.1]⟩ := .loaded pagedObject_fromFile rfl (ok_of_outcome _ _ _)
  exact pageEvents_start (.cons (Nat.zero_le 1) hload (.nil le_rfl))

theorem loads_stay_inside_pageEvents : StaysInside hintKernel pageEvents := by
  refine loads_stay_inside hintKernel 1 ⟨demoStart, []⟩ ⟨pageAgain.2, [pageAgain.1]⟩ pageEvents rfl
    pageEvents_history ?_
  intro o q hmem _ hfirst
  simp only [pageEvents, List.mem_cons, List.not_mem_nil, or_false, reduceCtorEq, false_or,
    Event.load.injEq] at hmem
  rcases hmem with ⟨rfl, rfl⟩ | ⟨rfl, rfl⟩
  · decide
  · revert hfirst
    decide

-- The first load succeeds, and with one object mapped at a time the cursor leaves user space.
theorem loads_leave_userSpace :
    ∃ es w', History hintKernel 1 ⟨demoStart, []⟩ es w' ∧ ¬ StaysInside hintKernel es := by
  have hplaces : Places pagedObject := by decide
  have hstart : (findExecSize pagedObject.loadcmds).mapstart.toNat ≤ userLimit := by decide
  obtain ⟨es, w', hes, hcount, hall⟩ := exists_history hintKernel pagedObject_fromFile (2 ^ 19)
    (w := ⟨pageUnloaded, []⟩) rfl
  refine ⟨.load pagedObject demoStart :: .unload pageFirst.1 pageFirst.2 :: es, w',
    pageEvents_start hes, fun hinside => ?_⟩
  have hrest : StaysInside hintKernel es := fun o q hmem =>
    hinside o q (List.mem_cons_of_mem _ (List.mem_cons_of_mem _ hmem))
  have hfall := hes.falls hplaces hstart hall hrest (by decide)
  have hcursor : pageUnloaded.addr.toNat < 2 ^ 47 := by decide
  rw [hcount] at hfall
  change w'.process.addr.toNat + 0x10000000 * 2 ^ 19 ≤ pageUnloaded.addr.toNat at hfall
  omega

end Platypus.Loader
