import Mathlib
import Platypus.Loader.Dispatchers

-- The placeholders: which stub the loader registers for which name.

namespace Platypus.Loader

inductive RelocType
  | R_X86_64_NONE
  | R_X86_64_RELATIVE
  | R_X86_64_JUMP_SLOT
  | R_X86_64_GLOB_DAT
  | R_X86_64_COPY
  -- DTPMOD64, DTPOFF64, TPOFF64 and TLSDESC
  | tls
  | other
  deriving DecidableEq, Repr

-- A relocation with what its slot holds, which for a placeholder leads to its stub.
structure Reloc where
  map : Module
  sym : Sym
  r_type : RelocType
  slot : Word
  version : Option FoundVersion := none
  scope : List (List Module)
  deriving DecidableEq, Repr

namespace Reloc

variable (r : Reloc)

def stub : Word := r.map.l_addr + r.slot

def isPlaceholder : Bool := "placeholder".toList.isPrefixOf r.sym.st_name

-- The types for which `elf_machine_rela` looks at `is_placeholder`.
def isSlot : Bool := r.r_type = .R_X86_64_JUMP_SLOT || r.r_type = .R_X86_64_GLOB_DAT

def query (name : Name) : Query :=
  { undef_name := name, undef_map := r.map, version := r.version,
    classPlt := r.r_type = .R_X86_64_JUMP_SLOT || r.r_type = .tls
    classCopy := r.r_type = .R_X86_64_COPY }

end Reloc

-- `search_dlsymed` and the two arrays; `bound` keeps the stubs of the slots that were bound to a
-- replacement, with its name.
structure RelocState where
  search_dlsymed : Nat := 1
  placeholders : Placeholders := {}
  bound : List (Word × Name) := []
  deriving DecidableEq, Repr

def placeholderTag (k : Nat) : Name := "placeholder".toList ++ [Char.ofNat ('0'.toNat + k)]

-- `strncpy` of 47 characters into a row of `placeholder_symbols`.
def Placeholders.register (p : Placeholders) (i : Nat) (name : Name) : Placeholders :=
  { p with symbols := p.symbols.set i (name.take 47), placeholded := p.placeholded + 1 }

-- The first free row of `placeholder_plts` is filled.
def fillFirst : List Word → Word → List Word
  | [], _ => []
  | plt :: plts, stub => if plt = 0#64 then stub :: plts else plt :: fillFirst plts stub

def LookupResult.isSelf : LookupResult → Bool
  | .self _ => true
  | _ => false

section Relocate

variable (env : Env)

def Reloc.bindsLocally (r : Reloc) : Bool :=
  r.sym.st_bind = .STB_LOCAL || bindsLocal r.sym.st_visibility

def Reloc.resolves (r : Reloc) : Bool :=
  !(r.r_type = .R_X86_64_NONE || r.r_type = .R_X86_64_RELATIVE)

-- Whether the name is the placeholder that is searched for.
def searches (st : RelocState) (r : Reloc) : Bool :=
  !r.bindsLocally &&
    (st.search_dlsymed ≠ 0 && (placeholderTag st.search_dlsymed).isPrefixOf r.sym.st_name)

-- The name that stands behind the placeholder in the main program's symbol table.
def replacement (k : Nat) : Option Name :=
  (env.main.symtab.find? fun s => (placeholderTag k ++ ['_']).isPrefixOf s.st_name).map fun s =>
    s.st_name.drop (placeholderTag k ++ ['_']).length

def lookupFor (st : RelocState) (r : Reloc) (name : Name) : LookupResult :=
  lookupSymbolX { env with placeholders := st.placeholders } (r.query name) r.scope

-- `resolve_map`, with the name of the replacement that the slot is bound to.
def resolveMap (st : RelocState) (r : Reloc) : Except String (RelocState × Option Name) :=
  if searches st r then
    match replacement env st.search_dlsymed with
    | none => .ok ({ st with search_dlsymed := 0 }, none)
    | some rest =>
      match lookupFor env st r rest with
      | .error message => .error message
      | .null => .ok ({ st with search_dlsymed := 0 }, none)
      | result =>
        -- An unresolved `callback_table` is no symbol of that name.
        let target := if result.isSelf then none else some rest
        if st.search_dlsymed ≤ 10 then
          .ok ({ st with
            search_dlsymed := st.search_dlsymed + 1
            placeholders := st.placeholders.register (st.search_dlsymed - 1) rest }, target)
        else .ok (st, target)
  else if r.isPlaceholder || r.bindsLocally then .ok (st, none)
  else
    match lookupSymbolX { env with placeholders := st.placeholders }
        { r.query r.sym.st_name with ref := some r.sym } r.scope with
    | .error message => .error message
    | _ => .ok (st, none)

-- What `elf_machine_rela` does about the placeholders.
def Reloc.elfMachineRela (st : RelocState) (r : Reloc) : Except String RelocState :=
  if r.resolves then
    match resolveMap env st r with
    | .error message => .error message
    | .ok (st, target) =>
      if r.isSlot && r.isPlaceholder then
        .ok { st with
          placeholders := { st.placeholders with plts := fillFirst st.placeholders.plts r.stub }
          bound := st.bound ++ (target.map fun name => (r.stub, name)).toList }
      else .ok st
  else .ok st

def relocate (st : RelocState) : List Reloc → Except String RelocState
  | [] => .ok st
  | r :: rs =>
    match Reloc.elfMachineRela env st r with
    | .error message => .error message
    | .ok st => relocate st rs

-- The name that a relocation registers, with what its lookup gave.
def registers (st : RelocState) (r : Reloc) : Option (Name × LookupResult) :=
  if r.resolves && searches st r && st.search_dlsymed ≤ 10 then
    match replacement env st.search_dlsymed with
    | none => none
    | some rest =>
      match lookupFor env st r rest with
      | .error _ => none
      | .null => none
      | result => some (rest, result)
  else none

end Relocate

-- Each registered stub is one whose slot was bound to the function of the registered name.
def Agrees (st : RelocState) : Prop :=
  ∀ i < st.placeholders.placeholded, ∃ stub name, st.placeholders.plts[i]? = some stub ∧
    st.placeholders.symbols[i]? = some name ∧ (stub, name) ∈ st.bound

-- A relocation that registers a name comes in turn: it has a slot, the row of its stub is the
-- one of its name, and the name fits.
def InTurn (env : Env) (st : RelocState) (r : Reloc) : Prop :=
  ∀ rest result, registers env st r = some (rest, result) →
    r.isSlot = true ∧ st.placeholders.plts.findIdx (· = 0#64) + 1 = st.search_dlsymed ∧
      rest.length ≤ 47 ∧ result.isSelf = false

-- The rows that are filled, in the order of the relocations.

def slotStubs (rs : List Reloc) : List Word :=
  (rs.filter fun r => r.isSlot && r.isPlaceholder).map Reloc.stub

def rows (stubs : List Word) : List Word :=
  stubs.take 10 ++ List.replicate (10 - stubs.length) 0#64

theorem slotStubs_concat (rs : List Reloc) (r : Reloc) :
    slotStubs (rs ++ [r]) =
      slotStubs rs ++ if r.isSlot && r.isPlaceholder then [r.stub] else [] := by
  rw [slotStubs, List.filter_append, List.map_append, ← slotStubs, List.filter_singleton]
  cases r.isSlot && r.isPlaceholder <;> rfl

theorem fillFirst_append (filled : List Word) (hne : ∀ w ∈ filled, w ≠ 0#64) (n : Nat) (stub : Word) :
    fillFirst (filled ++ List.replicate n 0#64) stub =
      filled ++ (if n = 0 then [] else stub :: List.replicate (n - 1) 0#64) := by
  induction filled with
  | nil => cases n <;> simp [fillFirst, List.replicate_succ]
  | cons w filled ih =>
    rw [List.cons_append, fillFirst, if_neg (hne w List.mem_cons_self),
      ih fun w hw => hne w (List.mem_cons_of_mem _ hw), List.cons_append]

theorem fillFirst_rows (stubs : List Word) (hne : ∀ w ∈ stubs, w ≠ 0#64) (stub : Word) :
    fillFirst (rows stubs) stub = rows (stubs ++ [stub]) := by
  rw [rows, fillFirst_append _ fun w hw => hne w (List.mem_of_mem_take hw), rows]
  by_cases hfull : 10 ≤ stubs.length
  · have hzero : 10 - stubs.length = 0 := by omega
    have hzero' : 10 - (stubs ++ [stub]).length = 0 := by simp; omega
    rw [if_pos hzero, hzero', List.take_append_of_le_length hfull, List.replicate_zero]
  · have hpos : 10 - stubs.length ≠ 0 := by omega
    have hlen : 10 - (stubs ++ [stub]).length = 10 - stubs.length - 1 := by simp; omega
    rw [if_neg hpos, hlen, List.take_of_length_le (by omega), List.take_of_length_le (by simp; omega),
      List.append_assoc, List.singleton_append]

theorem rows_getElem? (stubs : List Word) {i : Nat} (hi : i < 10) :
    (rows stubs)[i]? = some (stubs[i]?.getD 0#64) := by
  rw [rows]
  by_cases hlt : i < stubs.length
  · rw [List.getElem?_append_left (by simp; omega), List.getElem?_take_of_lt hi,
      List.getElem?_eq_getElem hlt, Option.getD_some]
  · have hlen : (stubs.take 10).length = stubs.length := by simp; omega
    rw [List.getElem?_append_right (by omega), List.getElem?_replicate, if_pos (by omega),
      List.getElem?_eq_none (by omega), Option.getD_none]

theorem rows_findIdx (stubs : List Word) (hne : ∀ w ∈ stubs, w ≠ 0#64) {m : Nat} (hm : m < 10) :
    (rows stubs).findIdx (· = 0#64) = m ↔ stubs.length = m := by
  have hnone : (stubs.take 10).findIdx (· = 0#64) = (stubs.take 10).length := by
    rw [List.findIdx_eq_length]
    intro w hw
    exact decide_eq_false (hne w (List.mem_of_mem_take hw))
  rw [rows, List.findIdx_append, hnone, if_neg (Nat.lt_irrefl _), List.length_take]
  by_cases hfull : 10 ≤ stubs.length
  · omega
  · obtain ⟨n, hn⟩ : ∃ n, 10 - stubs.length = n + 1 := ⟨9 - stubs.length, by omega⟩
    rw [hn, List.replicate_succ, List.findIdx_cons]
    simp
    omega

-- What one relocation does: it registers a name, or leaves the names alone.

structure Registered (st : RelocState) (r : Reloc) (rest : Name) (result : LookupResult)
    (st' : RelocState) : Prop where
  search : st'.search_dlsymed = st.search_dlsymed + 1
  symbols : st'.placeholders.symbols =
    st.placeholders.symbols.set (st.search_dlsymed - 1) (rest.take 47)
  placeholded : st'.placeholders.placeholded = st.placeholders.placeholded + 1
  plts : st'.placeholders.plts =
    if r.isSlot && r.isPlaceholder then fillFirst st.placeholders.plts r.stub else st.placeholders.plts
  bound : st'.bound =
    st.bound ++ if r.isSlot && !result.isSelf then [(r.stub, rest)] else []

structure Unregistered (st : RelocState) (r : Reloc) (st' : RelocState) : Prop where
  search : st'.search_dlsymed = st.search_dlsymed ∨ st'.search_dlsymed = 0
  symbols : st'.placeholders.symbols = st.placeholders.symbols
  placeholded : st'.placeholders.placeholded = st.placeholders.placeholded
  plts : st'.placeholders.plts =
    if r.isSlot && r.isPlaceholder then fillFirst st.placeholders.plts r.stub else st.placeholders.plts
  bound : st'.bound = st.bound ∨ 10 < st.search_dlsymed ∧ ∃ p, st'.bound = st.bound ++ [p]

section Step

variable {env : Env} {st st' : RelocState} {r : Reloc}

theorem searches_isPlaceholder (h : searches st r = true) : r.isPlaceholder = true := by
  rw [searches, Bool.and_eq_true, Bool.and_eq_true] at h
  rw [Reloc.isPlaceholder, List.isPrefixOf_iff_prefix]
  exact (List.prefix_append _ _).trans (List.isPrefixOf_iff_prefix.mp h.2.2)

theorem isSlot_resolves (h : r.resolves = false) : r.isSlot = false := by
  unfold Reloc.resolves at h
  unfold Reloc.isSlot
  cases htype : r.r_type <;> simp_all

theorem registers_resolves {rest : Name} {result : LookupResult}
    (h : registers env st r = some (rest, result)) :
    r.resolves = true ∧ searches st r = true ∧ st.search_dlsymed ≤ 10 := by
  unfold registers at h
  by_cases hcond : (r.resolves && searches st r && st.search_dlsymed ≤ 10) = true
  · rw [Bool.and_eq_true, Bool.and_eq_true, decide_eq_true_eq] at hcond
    exact ⟨hcond.1.1, hcond.1.2, hcond.2⟩
  · rw [if_neg hcond] at h
    cases h

theorem registers_search {rest : Name} {result : LookupResult}
    (h : registers env st r = some (rest, result)) :
    st.search_dlsymed ≠ 0 ∧ st.search_dlsymed ≤ 10 ∧ r.isPlaceholder = true := by
  obtain ⟨-, hsearch, hle⟩ := registers_resolves h
  have hplace := searches_isPlaceholder hsearch
  rw [searches, Bool.and_eq_true, Bool.and_eq_true, decide_eq_true_eq] at hsearch
  exact ⟨hsearch.2.1, hle, hplace⟩

theorem resolveMap_registered {rest : Name} {result : LookupResult}
    (h : registers env st r = some (rest, result)) :
    resolveMap env st r = .ok ({ st with
      search_dlsymed := st.search_dlsymed + 1
      placeholders := st.placeholders.register (st.search_dlsymed - 1) rest },
        if result.isSelf then none else some rest) := by
  obtain ⟨hresolves, hsearch, hle⟩ := registers_resolves h
  rw [registers, hresolves, hsearch, decide_eq_true hle, Bool.true_and, Bool.true_and, if_pos rfl] at h
  rw [resolveMap, if_pos hsearch]
  cases hrep : replacement env st.search_dlsymed with
  | none =>
    rw [hrep] at h
    cases h
  | some name =>
    rw [hrep] at h
    dsimp only at h ⊢
    cases hlook : lookupFor env st r name <;> rw [hlook] at h <;> cases h <;> exact if_pos hle

theorem elfMachineRela_registered {rest : Name} {result : LookupResult}
    (h : registers env st r = some (rest, result)) :
    ∃ st', Reloc.elfMachineRela env st r = .ok st' ∧ Registered st r rest result st' := by
  have hplace := (registers_search h).2.2
  rw [Reloc.elfMachineRela, if_pos (registers_resolves h).1, resolveMap_registered h]
  dsimp only
  by_cases hslot : (r.isSlot && r.isPlaceholder) = true
  · rw [if_pos hslot]
    refine ⟨_, rfl, rfl, rfl, rfl, (if_pos hslot).symm, ?_⟩
    rw [hplace, Bool.and_true] at hslot
    rw [hslot]
    cases result.isSelf <;> rfl
  · rw [if_neg hslot]
    refine ⟨_, rfl, rfl, rfl, rfl, (if_neg hslot).symm, ?_⟩
    rw [hplace, Bool.and_true, Bool.not_eq_true] at hslot
    rw [hslot]
    exact (List.append_nil _).symm

theorem Registered.of_ok {rest : Name} {result : LookupResult}
    (h : registers env st r = some (rest, result)) (hok : Reloc.elfMachineRela env st r = .ok st') :
    Registered st r rest result st' := by
  obtain ⟨next, hnext, hstep⟩ := elfMachineRela_registered h
  cases hnext.symm.trans hok
  exact hstep

theorem resolveMap_unregistered (hresolves : r.resolves = true) (h : registers env st r = none)
    {st₁ : RelocState} {target : Option Name} (hmap : resolveMap env st r = .ok (st₁, target)) :
    (st₁.search_dlsymed = st.search_dlsymed ∨ st₁.search_dlsymed = 0) ∧
      st₁.placeholders = st.placeholders ∧ st₁.bound = st.bound ∧
      (target = none ∨ 10 < st.search_dlsymed) := by
  unfold resolveMap at hmap
  by_cases hsearch : searches st r = true
  · rw [if_pos hsearch] at hmap
    cases hrep : replacement env st.search_dlsymed with
    | none =>
      rw [hrep] at hmap
      cases hmap
      exact ⟨.inr rfl, rfl, rfl, .inl rfl⟩
    | some name =>
      rw [hrep] at hmap
      dsimp only at hmap
      have hgt : (∀ message, lookupFor env st r name ≠ .error message) →
          lookupFor env st r name ≠ .null → 10 < st.search_dlsymed := by
        intro herror hnull
        by_contra hle
        rw [registers, hresolves, hsearch, Bool.true_and, if_pos (by simp; omega), hrep] at h
        dsimp only at h
        cases hlook : lookupFor env st r name <;> rw [hlook] at h <;> cases h
        · exact hnull hlook
        · exact herror _ hlook
      cases hlook : lookupFor env st r name with
      | error message =>
        rw [hlook] at hmap
        cases hmap
      | null =>
        rw [hlook] at hmap
        cases hmap
        exact ⟨.inr rfl, rfl, rfl, .inl rfl⟩
      | _ =>
        rw [hlook] at hmap hgt
        have hlt := hgt (fun _ => LookupResult.noConfusion) LookupResult.noConfusion
        dsimp only at hmap
        rw [if_neg (by omega)] at hmap
        cases hmap
        exact ⟨.inl rfl, rfl, rfl, .inr hlt⟩
  · rw [if_neg hsearch] at hmap
    by_cases hown : (r.isPlaceholder || r.bindsLocally) = true
    · rw [if_pos hown] at hmap
      cases hmap
      exact ⟨.inl rfl, rfl, rfl, .inl rfl⟩
    · rw [if_neg hown] at hmap
      split at hmap
      · cases hmap
      · cases hmap
        exact ⟨.inl rfl, rfl, rfl, .inl rfl⟩

theorem elfMachineRela_unregistered (h : registers env st r = none)
    (hok : Reloc.elfMachineRela env st r = .ok st') : Unregistered st r st' := by
  by_cases hresolves : r.resolves = true
  case neg =>
    rw [Bool.not_eq_true] at hresolves
    rw [Reloc.elfMachineRela, hresolves, if_neg Bool.false_ne_true] at hok
    cases hok
    exact ⟨.inl rfl, rfl, rfl, by simp [isSlot_resolves hresolves], .inl rfl⟩
  rw [Reloc.elfMachineRela, if_pos hresolves] at hok
  cases hres : resolveMap env st r with
  | error message =>
    rw [hres] at hok
    cases hok
  | ok next =>
    obtain ⟨hsearch, hplace, hbound, htarget⟩ := resolveMap_unregistered hresolves h hres
    rw [hres] at hok
    dsimp only at hok
    by_cases hslot : (r.isSlot && r.isPlaceholder) = true
    · rw [if_pos hslot] at hok
      cases hok
      refine ⟨hsearch, by rw [hplace], by rw [hplace], by rw [if_pos hslot, hplace], ?_⟩
      cases hnone : next.2 with
      | none => exact .inl (by simp [hbound])
      | some name =>
        rw [hnone] at htarget
        exact .inr ⟨htarget.resolve_left (Option.some_ne_none _), (r.stub, name), by simp [hbound]⟩
    · rw [if_neg hslot] at hok
      cases hok
      exact ⟨hsearch, by rw [hplace], by rw [hplace], by rw [if_neg hslot, hplace], .inl hbound⟩

end Step

-- What holds after the relocations `done`, whatever their order.
structure RowsFilled (done : List Reloc) (st : RelocState) : Prop where
  plts : st.placeholders.plts = rows (slotStubs done)
  symbols : st.placeholders.symbols.length = 10
  counted : st.search_dlsymed ≠ 0 → st.placeholders.placeholded + 1 = st.search_dlsymed
  placeholded : st.placeholders.placeholded ≤ 10

-- What holds as long as they come in turn.
structure Ordered (done : List Reloc) (st : RelocState) : Prop where
  named : ∀ i < st.placeholders.placeholded, ∃ stub name, (slotStubs done)[i]? = some stub ∧
    st.placeholders.symbols[i]? = some name ∧ (stub, name) ∈ st.bound
  first : st.search_dlsymed ≠ 0 → st.search_dlsymed ≤ 10 →
    st.bound.map Prod.fst = (slotStubs done).take st.placeholders.placeholded

theorem rowsFilled_nil : RowsFilled [] {} := ⟨rfl, rfl, fun _ => rfl, Nat.zero_le _⟩

theorem ordered_nil : Ordered [] {} := ⟨fun _ hi => absurd hi (Nat.not_lt_zero _), fun _ _ => rfl⟩

section Run

variable {env : Env} {done : List Reloc} {r : Reloc} {st st' : RelocState}

theorem rows_step (hplts : st.placeholders.plts = rows (slotStubs done))
    (hne : ∀ w ∈ slotStubs done, w ≠ 0#64) :
    (if r.isSlot && r.isPlaceholder then fillFirst st.placeholders.plts r.stub
      else st.placeholders.plts) = rows (slotStubs (done ++ [r])) := by
  rw [slotStubs_concat, hplts]
  split_ifs
  · exact fillFirst_rows _ hne _
  · rw [List.append_nil]

theorem RowsFilled.step (hne : ∀ w ∈ slotStubs done, w ≠ 0#64) (h : RowsFilled done st)
    (hok : Reloc.elfMachineRela env st r = .ok st') : RowsFilled (done ++ [r]) st' := by
  cases hreg : registers env st r with
  | some pair =>
    obtain ⟨rest, result⟩ := pair
    have hstep := Registered.of_ok hreg hok
    obtain ⟨hpos, hle, -⟩ := registers_search hreg
    have hcount := h.counted hpos
    refine ⟨hstep.plts.trans (rows_step h.plts hne), ?_, fun _ => ?_, ?_⟩
    · rw [hstep.symbols, List.length_set, h.symbols]
    · rw [hstep.placeholded, hstep.search, hcount]
    · rw [hstep.placeholded, hcount]
      exact hle
  | none =>
    have hstep := elfMachineRela_unregistered hreg hok
    refine ⟨hstep.plts.trans (rows_step h.plts hne), ?_, fun hpos => ?_, ?_⟩
    · rw [hstep.symbols, h.symbols]
    · rcases hstep.search with hsame | hzero
      · rw [hsame] at hpos
        rw [hstep.placeholded, hsame, h.counted hpos]
      · exact absurd hzero hpos
    · rw [hstep.placeholded]
      exact h.placeholded

theorem Ordered.le_length (h : Ordered done st) :
    st.placeholders.placeholded ≤ (slotStubs done).length := by
  by_contra hlt
  obtain ⟨stub, -, hstub, -⟩ := h.named (st.placeholders.placeholded - 1) (by omega)
  have := (List.getElem?_eq_some_iff.mp hstub).1
  omega

theorem slotStubs_getElem?_concat {i : Nat} {stub : Word} (h : (slotStubs done)[i]? = some stub) :
    (slotStubs (done ++ [r]))[i]? = some stub := by
  rw [slotStubs_concat, List.getElem?_append_left (List.getElem?_eq_some_iff.mp h).1, h]

theorem Ordered.unregistered (h : Ordered done st) (hstep : Unregistered st r st') :
    Ordered (done ++ [r]) st' := by
  constructor
  · intro i hi
    rw [hstep.placeholded] at hi
    obtain ⟨stub, name, hstub, hname, hmem⟩ := h.named i hi
    refine ⟨stub, name, slotStubs_getElem?_concat hstub, by rw [hstep.symbols, hname], ?_⟩
    rcases hstep.bound with hbound | ⟨-, p, hbound⟩
    · rwa [hbound]
    · rw [hbound]
      exact List.mem_append_left _ hmem
  · intro hpos hle
    rcases hstep.search with hsame | hzero
    · rw [hsame] at hpos hle
      rcases hstep.bound with hbound | ⟨hgt, -⟩
      · rw [hbound, h.first hpos hle, hstep.placeholded, slotStubs_concat,
          List.take_append_of_le_length h.le_length]
      · exact absurd hle (Nat.not_le.mpr hgt)
    · exact absurd hzero hpos

theorem Ordered.registered (hne : ∀ w ∈ slotStubs done, w ≠ 0#64) (hrows : RowsFilled done st)
    (h : Ordered done st) {rest : Name} {result : LookupResult}
    (hreg : registers env st r = some (rest, result)) (hstep : Registered st r rest result st')
    (hturn : InTurn env st r) : Ordered (done ++ [r]) st' := by
  obtain ⟨hpos, hle, hplace⟩ := registers_search hreg
  obtain ⟨hslot, hidx, hlen, hself⟩ := hturn rest result hreg
  have hcount := hrows.counted hpos
  have hfull : (slotStubs done).length = st.placeholders.placeholded := by
    rw [hrows.plts] at hidx
    exact (rows_findIdx _ hne (by omega)).mp (by omega)
  have hbound : st'.bound = st.bound ++ [(r.stub, rest)] := by
    rw [hstep.bound, hslot, hself]
    rfl
  have hstubs : slotStubs (done ++ [r]) = slotStubs done ++ [r.stub] := by
    rw [slotStubs_concat, hslot, hplace]
    rfl
  have hrow : st.search_dlsymed - 1 = st.placeholders.placeholded := by omega
  constructor
  · intro i hi
    rw [hstep.placeholded] at hi
    rw [hstep.symbols, hrow, hbound, hstubs]
    rcases Nat.lt_succ_iff_lt_or_eq.mp hi with hlt | rfl
    · obtain ⟨stub, name, hstub, hname, hmem⟩ := h.named i hlt
      exact ⟨stub, name, by rw [List.getElem?_append_left (by omega), hstub],
        by rw [List.getElem?_set_ne (by omega), hname], List.mem_append_left _ hmem⟩
    · refine ⟨r.stub, rest, by rw [← hfull, List.getElem?_concat_length], ?_, by simp⟩
      rw [List.getElem?_set_self (by rw [hrows.symbols]; omega), List.take_of_length_le hlen]
  · intro _ _
    rw [hbound, List.map_append, h.first hpos hle, hstep.placeholded, hstubs, ← hfull,
      List.take_length, List.take_of_length_le (by simp)]
    rfl

theorem Ordered.agrees (hrows : RowsFilled done st) (h : Ordered done st) : Agrees st := by
  intro i hi
  obtain ⟨stub, name, hstub, hname, hmem⟩ := h.named i hi
  have hle := hrows.placeholded
  refine ⟨stub, name, ?_, hname, hmem⟩
  rw [hrows.plts, rows_getElem? _ (by omega), hstub, Option.getD_some]

theorem getElem_not_mem_take {α : Type} {l : List α} (h : l.Nodup) {p : Nat} (hp : p < l.length) :
    l[p] ∉ l.take p := by
  rw [List.mem_take_iff_getElem]
  rintro ⟨j, hj, heq⟩
  have hjp := (List.Nodup.getElem_inj_iff h).mp heq
  omega

theorem Ordered.mem_take (h : Ordered done st) (hpos : st.search_dlsymed ≠ 0)
    (hle : st.search_dlsymed ≤ 10) {w : Word} {name : Name} (hmem : (w, name) ∈ st.bound) :
    w ∈ (slotStubs done).take st.placeholders.placeholded := by
  rw [← h.first hpos hle]
  exact List.mem_map_of_mem hmem

section Turn

variable (hne : ∀ w ∈ slotStubs done, w ≠ 0#64) (hrows : RowsFilled done st) {rest : Name}
  {result : LookupResult} (hreg : registers env st r = some (rest, result))
  (hstep : Registered st r rest result st') (hagrees : Agrees st')

include hne hrows hreg hstep hagrees

-- The row that a registered name comes to stand in.
theorem Agrees.row :
    ((slotStubs (done ++ [r]))[st.placeholders.placeholded]?.getD 0#64, rest.take 47) ∈
      st'.bound := by
  obtain ⟨hpos, hle, -⟩ := registers_search hreg
  have hcount := hrows.counted hpos
  have hrow : st.search_dlsymed - 1 = st.placeholders.placeholded := by omega
  obtain ⟨stub, name, hstub, hname, hmem⟩ := hagrees st.placeholders.placeholded
    (by rw [hstep.placeholded]; exact Nat.lt_succ_self _)
  rw [hstep.symbols, hrow, List.getElem?_set_self (by rw [hrows.symbols]; omega)] at hname
  rw [hstep.plts, rows_step hrows.plts hne, rows_getElem? _ (by omega)] at hstub
  cases hname
  cases hstub
  exact hmem

-- It is not that of a stub that came before and was not registered.
theorem Agrees.full (hnodup : (slotStubs (done ++ [r])).Nodup) (h : Ordered done st) :
    (slotStubs done).length = st.placeholders.placeholded := by
  obtain ⟨hpos, hle, hplace⟩ := registers_search hreg
  have hmem := Agrees.row hne hrows hreg hstep hagrees
  rw [slotStubs_concat, hplace, Bool.and_true] at hnodup
  rw [slotStubs_concat, hstep.bound, List.mem_append] at hmem
  by_contra hlength
  have hlt : st.placeholders.placeholded < (slotStubs done).length :=
    lt_of_le_of_ne h.le_length (Ne.symm hlength)
  rw [List.getElem?_append_left hlt, List.getElem?_eq_getElem hlt, Option.getD_some] at hmem
  rcases hmem with hmem | hmem
  · exact getElem_not_mem_take (List.nodup_append.mp hnodup).1 hlt (h.mem_take hpos hle hmem)
  · split_ifs at hmem with hcond
    · rw [List.mem_singleton, Prod.mk.injEq] at hmem
      rw [(Bool.and_eq_true_iff.mp hcond).1, if_pos rfl] at hnodup
      exact (List.nodup_append.mp hnodup).2.2 _ (List.getElem_mem hlt) _
        (List.mem_singleton_self _) hmem.1
    · cases hmem

end Turn

-- A name that is registered out of turn disagrees with its stub.
theorem Agrees.inTurn (hne : ∀ w ∈ slotStubs (done ++ [r]), w ≠ 0#64)
    (hnodup : (slotStubs (done ++ [r])).Nodup) (hrows : RowsFilled done st) (h : Ordered done st)
    {rest : Name} {result : LookupResult} (hreg : registers env st r = some (rest, result))
    (hstep : Registered st r rest result st') (hagrees : Agrees st') :
    r.isSlot = true ∧ st.placeholders.plts.findIdx (· = 0#64) + 1 = st.search_dlsymed ∧
      rest.length ≤ 47 ∧ result.isSelf = false := by
  obtain ⟨hpos, hle, hplace⟩ := registers_search hreg
  have hcount := hrows.counted hpos
  have hold : ∀ w ∈ slotStubs done, w ≠ 0#64 := by
    intro w hw
    rw [slotStubs_concat] at hne
    exact hne w (List.mem_append_left _ hw)
  have hfull := Agrees.full hold hrows hreg hstep hagrees hnodup h
  have hmem := Agrees.row hold hrows hreg hstep hagrees
  have hidx : st.placeholders.plts.findIdx (· = 0#64) = st.placeholders.placeholded := by
    rw [hrows.plts]
    exact (rows_findIdx _ hold (by omega)).mpr hfull
  rw [slotStubs_concat, hplace, Bool.and_true] at hnodup hmem
  rw [hstep.bound, List.mem_append] at hmem
  cases hslot : r.isSlot with
  | false =>
    rw [hslot, if_neg Bool.false_ne_true, List.append_nil, List.getElem?_eq_none (by omega),
      Option.getD_none] at hmem
    rcases hmem with hmem | hmem
    · exact absurd rfl (hold _ (List.mem_of_mem_take (h.mem_take hpos hle hmem)))
    · cases hmem
  | true =>
    rw [hslot, if_pos rfl] at hnodup
    rw [hslot, if_pos rfl, ← hfull, List.getElem?_concat_length, Option.getD_some] at hmem
    rcases hmem with hmem | hmem
    · exact absurd rfl ((List.nodup_append.mp hnodup).2.2 _
        (List.mem_of_mem_take (h.mem_take hpos hle hmem)) _ (List.mem_singleton_self _))
    · cases hself : result.isSelf with
      | true =>
        rw [hself] at hmem
        cases hmem
      | false =>
        rw [hself] at hmem
        have htake := (Prod.mk.inj (List.mem_singleton.mp hmem)).2
        have hlen := congrArg List.length htake
        rw [List.length_take] at hlen
        exact ⟨rfl, by omega, by omega, rfl⟩

theorem relocate_concat (done : List Reloc) (st : RelocState) :
    relocate env st (done ++ [r]) = .ok st' ↔
      ∃ st₁, relocate env st done = .ok st₁ ∧ Reloc.elfMachineRela env st₁ r = .ok st' := by
  induction done generalizing st with
  | nil =>
    rw [List.nil_append, relocate, relocate]
    cases hstep : Reloc.elfMachineRela env st r with
    | error message => simp [hstep]
    | ok next => simp [relocate, hstep]
  | cons head done ih =>
    rw [List.cons_append, relocate, relocate]
    cases Reloc.elfMachineRela env st head with
    | error message => simp
    | ok next => exact ih next

theorem slotStubs_append_sublist (done rest : List Reloc) :
    (slotStubs done).Sublist (slotStubs (done ++ rest)) :=
  ((List.sublist_append_left done rest).filter _).map _

theorem relocate_rowsFilled (done : List Reloc) (hne : ∀ w ∈ slotStubs done, w ≠ 0#64)
    (h : relocate env {} done = .ok st) : RowsFilled done st := by
  induction done using List.reverseRecOn generalizing st with
  | nil =>
    cases h
    exact rowsFilled_nil
  | append_singleton done r ih =>
    obtain ⟨st₁, hrun, hstep⟩ := (relocate_concat done {}).mp h
    have hold : ∀ w ∈ slotStubs done, w ≠ 0#64 := fun w hw =>
      hne w ((slotStubs_append_sublist done [r]).subset hw)
    exact (ih hold hrun).step hold hstep

theorem relocate_ordered (done : List Reloc) (hne : ∀ w ∈ slotStubs done, w ≠ 0#64)
    (hturns : ∀ before r after st, done = before ++ r :: after →
      relocate env {} before = .ok st → InTurn env st r)
    (h : relocate env {} done = .ok st) : Ordered done st := by
  induction done using List.reverseRecOn generalizing st with
  | nil =>
    cases h
    exact ordered_nil
  | append_singleton done r ih =>
    obtain ⟨st₁, hrun, hstep⟩ := (relocate_concat done {}).mp h
    have hold : ∀ w ∈ slotStubs done, w ≠ 0#64 := fun w hw =>
      hne w ((slotStubs_append_sublist done [r]).subset hw)
    have hordered := ih hold (fun before r' after st hdone hst =>
      hturns before r' (after ++ [r]) st (by rw [hdone]; simp) hst) hrun
    cases hreg : registers env st₁ r with
    | none => exact hordered.unregistered (elfMachineRela_unregistered hreg hstep)
    | some pair =>
      obtain ⟨rest, result⟩ := pair
      exact hordered.registered hold (relocate_rowsFilled done hold hrun) hreg
        (.of_ok hreg hstep) (hturns done r [] st₁ rfl hrun)

end Run

-- Every lookup that ends in a stub ends in one that was bound to the name asked for.
def LookupsServed (st : RelocState) : Prop :=
  ∀ (env : Env) (q : Query) (scopes : List (List Module)) (stub : Word),
    lookupSymbolX { env with placeholders := st.placeholders } q scopes = .placeholder stub →
      (stub, q.undef_name) ∈ st.bound

theorem Agrees.served {st : RelocState} (h : Agrees st) : LookupsServed st := by
  intro env q scopes stub hlookup
  have hfind := lookupSymbolX_placeholder_iff.mp hlookup
  rw [Placeholders.find, Option.map_eq_some_iff] at hfind
  obtain ⟨i, hi, hstub⟩ := hfind
  have hname := List.find?_some hi
  rw [decide_eq_true_eq] at hname
  obtain ⟨stub', name, hplt, hsym, hmem⟩ := h i (List.mem_range.mp (List.mem_of_find?_eq_some hi))
  rw [hplt, Option.getD_some] at hstub
  rw [hname] at hsym
  cases hsym
  rwa [← hstub]

-- The stubs and the names agree throughout a run exactly if every relocation that registers a
-- name comes in turn.
theorem relocate_agrees_iff (env : Env) (relocs : List Reloc) (hne : ∀ w ∈ slotStubs relocs, w ≠ 0#64)
    (hnodup : (slotStubs relocs).Nodup) :
    (∀ done rest st, relocs = done ++ rest → relocate env {} done = .ok st →
        Agrees st ∧ LookupsServed st) ↔
      ∀ done r rest st, relocs = done ++ r :: rest → relocate env {} done = .ok st →
        InTurn env st r := by
  constructor
  · intro h done
    -- The relocations before this one came in turn, by induction on their number.
    induction hlen : done.length using Nat.strong_induction_on generalizing done with
    | _ n ih =>
      intro r rest st hrelocs hrun found result hreg
      have hsplit : relocs = (done ++ [r]) ++ rest := by rw [hrelocs]; simp
      have hsub : (slotStubs (done ++ [r])).Sublist (slotStubs relocs) :=
        hsplit ▸ slotStubs_append_sublist _ _
      have hne' : ∀ w ∈ slotStubs (done ++ [r]), w ≠ 0#64 := fun w hw => hne w (hsub.subset hw)
      have hold : ∀ w ∈ slotStubs done, w ≠ 0#64 := fun w hw =>
        hne' w ((slotStubs_append_sublist done [r]).subset hw)
      have hordered : Ordered done st := by
        refine relocate_ordered done hold (fun before r' after st' hdone hst => ?_) hrun
        refine ih before.length ?_ before rfl r' (after ++ r :: rest) st' ?_ hst
        · rw [← hlen, hdone, List.length_append, List.length_cons]
          omega
        · rw [hrelocs, hdone]
          simp
      obtain ⟨st', hstep, hregistered⟩ := elfMachineRela_registered hreg
      have hagrees := (h (done ++ [r]) rest st' hsplit ((relocate_concat done {}).mpr ⟨st, hrun, hstep⟩)).1
      exact hagrees.inTurn hne' (hnodup.sublist hsub) (relocate_rowsFilled done hold hrun) hordered hreg
        hregistered
  · intro h done rest st hrelocs hrun
    have hold : ∀ w ∈ slotStubs done, w ≠ 0#64 := fun w hw =>
      hne w (hrelocs ▸ (slotStubs_append_sublist done rest).subset hw)
    have hordered := relocate_ordered done hold (fun before r after st' hdone hst =>
      h before r (after ++ rest) st' (by rw [hrelocs, hdone]; simp) hst) hrun
    have hagrees := hordered.agrees (relocate_rowsFilled done hold hrun)
    exact ⟨hagrees, hagrees.served⟩

-- A main program with two placeholders, a library with the two functions behind them, and the
-- relocations of the placeholders.

def placeholderMain : Module :=
  { id := 0, symtab := [{ st_name := "placeholder1_foo".toList, st_value := 0x1100#64 },
      { st_name := "placeholder2_bar".toList, st_value := 0x1100#64 }] }

def placeholderLibrary : Module :=
  { id := 1, l_addr := 0x10000#64, symtab := [{ st_name := "foo".toList, st_value := 0x2000#64 },
      { st_name := "bar".toList, st_value := 0x2100#64 }] }

def placeholderReloc (name : String) (slot : Word) : Reloc :=
  { map := placeholderMain, sym := { st_name := name.toList, st_value := 0#64 }
    r_type := .R_X86_64_JUMP_SLOT, slot := slot, scope := [[placeholderMain, placeholderLibrary]] }

-- The relocation of the second placeholder comes first: the row of foo has the stub of bar.
theorem relocate_not_agrees :
    ∃ st, relocate { main := placeholderMain } {}
        [placeholderReloc "placeholder2" 0x1020#64, placeholderReloc "placeholder1" 0x1010#64] = .ok st ∧
      st.placeholders.placeholded = 1 ∧ st.placeholders.symbols[0]? = some "foo".toList ∧
      st.placeholders.plts[0]? = some 0x1020#64 ∧ st.bound = [(0x1010#64, "foo".toList)] ∧
      ¬ Agrees st := by
  refine ⟨{ search_dlsymed := 2
            placeholders := ⟨"foo".toList :: List.replicate 9 [],
              0x1020#64 :: 0x1010#64 :: List.replicate 8 0#64, 1⟩
            bound := [(0x1010#64, "foo".toList)] },
    by decide +kernel, rfl, rfl, rfl, rfl, fun h => ?_⟩
  obtain ⟨stub, name, hstub, -, hmem⟩ := h 0 Nat.one_pos
  cases hstub
  have hstub : (0x1020#64 : Word) = 0x1010#64 := congrArg Prod.fst (List.mem_singleton.mp hmem)
  exact absurd hstub (by decide)

def firstRegistered : RelocState where
  search_dlsymed := 2
  placeholders := ⟨"foo".toList :: List.replicate 9 [], 0x1010#64 :: List.replicate 9 0#64, 1⟩
  bound := [(0x1010#64, "foo".toList)]

theorem inTurn_of_registers {env : Env} {st : RelocState} {r : Reloc} (rest : Name)
    (result : LookupResult) (hreg : registers env st r = some (rest, result))
    (h : r.isSlot = true ∧ st.placeholders.plts.findIdx (· = 0#64) + 1 = st.search_dlsymed ∧
      rest.length ≤ 47 ∧ result.isSelf = false) : InTurn env st r := by
  intro rest' result' hreg'
  cases hreg.symm.trans hreg'
  exact h

-- In their order both are registered, each with its stub.
theorem relocate_agrees_two :
    ∃ st, relocate { main := placeholderMain } {}
        [placeholderReloc "placeholder1" 0x1010#64, placeholderReloc "placeholder2" 0x1020#64] = .ok st ∧
      st.placeholders.placeholded = 2 ∧ Agrees st := by
  have hrun : relocate { main := placeholderMain } {}
      [placeholderReloc "placeholder1" 0x1010#64, placeholderReloc "placeholder2" 0x1020#64] = .ok
        { search_dlsymed := 3
          placeholders := ⟨"foo".toList :: "bar".toList :: List.replicate 8 [],
            0x1010#64 :: 0x1020#64 :: List.replicate 8 0#64, 2⟩
          bound := [(0x1010#64, "foo".toList), (0x1020#64, "bar".toList)] } := by
    decide +kernel
  have hfirst : InTurn { main := placeholderMain } {} (placeholderReloc "placeholder1" 0x1010#64) :=
    inTurn_of_registers "foo".toList (.found ⟨⟨"foo".toList, .STT_FUNC, .STB_GLOBAL, .STV_DEFAULT,
      .other, 0x2000#64, 1, false⟩, placeholderLibrary⟩) (by decide +kernel) (by decide +kernel)
  have hsecond : InTurn { main := placeholderMain } firstRegistered
      (placeholderReloc "placeholder2" 0x1020#64) :=
    inTurn_of_registers "bar".toList (.found ⟨⟨"bar".toList, .STT_FUNC, .STB_GLOBAL, .STV_DEFAULT,
      .other, 0x2100#64, 1, false⟩, placeholderLibrary⟩) (by decide +kernel) (by decide +kernel)
  have hone : relocate { main := placeholderMain } {} [placeholderReloc "placeholder1" 0x1010#64] =
      .ok firstRegistered := by
    decide +kernel
  have hstubs : slotStubs [placeholderReloc "placeholder1" 0x1010#64,
      placeholderReloc "placeholder2" 0x1020#64] = [0x1010#64, 0x1020#64] := by
    decide +kernel
  refine ⟨_, hrun, rfl, ((relocate_agrees_iff { main := placeholderMain }
    [placeholderReloc "placeholder1" 0x1010#64, placeholderReloc "placeholder2" 0x1020#64]
    (by rw [hstubs]; simp) (by rw [hstubs]; simp)).mpr ?_ _ [] _ (List.append_nil _).symm hrun).1⟩
  intro done r rest st hrelocs hst
  rcases done with _ | ⟨d, _ | ⟨d', done⟩⟩
  · cases hst
    obtain ⟨rfl, -⟩ := List.cons.inj hrelocs
    exact hfirst
  · obtain ⟨rfl, htail⟩ := List.cons.inj hrelocs
    obtain ⟨rfl, -⟩ := List.cons.inj htail
    cases hone.symm.trans hst
    exact hsecond
  · have hlen := congrArg List.length hrelocs
    simp only [List.length_append, List.length_cons, List.length_nil] at hlen
    omega

end Platypus.Loader
