import Mathlib
import Platypus.Loader.Dispatchers

-- `dlsym`, and the stubs that `create_header` generates for it.

namespace Platypus.Loader

def dsymTag : Name := "dsym_".toList

-- The name under which a function's stub is exported: its last character is dropped.
def dsymAlias (symbol : Name) : Name := dsymTag ++ symbol.dropLast

-- The functions that `emit_dsym_naked_jmp_c` writes a stub for.
def dsymTargets (dsyms : List Name) : List Name :=
  dsyms.filterMap fun dsym =>
    if !dsymTag.isPrefixOf dsym then none
    else if (dsym.drop 5).length < 2 then none
    else some (dsym.drop 5)

-- Each stub with the function that it jumps to.
def emitDsymNakedJmpC (dsyms : List Name) : List (Name × Name) :=
  (dsymTargets dsyms).map fun symbol => (dsymAlias symbol, symbol)

inductive Handle
  | RTLD_DEFAULT
  | RTLD_NEXT
  | object (map : Module)
  deriving DecidableEq, Repr

-- The loaded modules with their scopes.
structure Namespace where
  env : Env
  loaded : List Module
  l_scope : Module → List (List Module)
  l_local_scope : Module → List (List Module)
  -- the chain of `l_loader`
  loaders : Module → List Module
  env_loaded : env.Over loaded
  scope_loaded : ∀ map, ∀ m ∈ (l_scope map).flatten, m ∈ loaded
  local_loaded : ∀ map, ∀ m ∈ (l_local_scope map).flatten, m ∈ loaded

-- The arguments of `do_sym`. The caller is given by its link map, and by whether its address
-- lies in that map; `memory` says whether the name of the stub can be allocated.
structure Request where
  name : Name
  caller : Module
  callerInside : Bool := true
  vers : Option FoundVersion := none
  returnNewest : Bool := true
  memory : Bool := true

inductive SymValue
  -- a stub of the placeholders
  | stub (address : Word)
  | tls (v : SymVal)
  -- what the resolver at the symbol's address returns
  | ifunc (v : SymVal)
  | address (v : SymVal)
  deriving DecidableEq, Repr

inductive SymResult
  | value (value : SymValue)
  | null
  | error (message : String)
  -- the length of an empty name wraps around
  | fault
  deriving DecidableEq, Repr

section DlSym

variable (ns : Namespace) (call : Request)

def symQuery (name : Name) (map : Module) : Query :=
  { undef_name := name, undef_map := map, version := call.vers, returnNewest := call.returnNewest }

-- The lookup of the name itself, for each kind of handle.
def firstLookup : Handle → LookupResult
  | .RTLD_DEFAULT =>
    lookupSymbolX ns.env (symQuery call call.name call.caller) (ns.l_scope call.caller)
  | .RTLD_NEXT =>
    if call.caller.id = ns.env.main.id && !call.callerInside then
      .error "RTLD_NEXT used in code not dynamically loaded"
    else
      lookupSymbolX ns.env { symQuery call call.name call.caller with skip_map := some call.caller }
        (ns.l_local_scope ((ns.loaders call.caller).getLastD call.caller))
  | .object map => lookupSymbolX ns.env (symQuery call call.name map) (ns.l_local_scope map)

-- The lookup of the stub, in the scope of the caller.
def stubLookup (map : Module) : LookupResult :=
  lookupSymbolX ns.env (symQuery call (dsymAlias call.name) map) (ns.l_local_scope call.caller)

-- The end of `do_sym`, with `_dl_sym_post`.
def symbolValue : LookupResult → SymResult
  | .placeholder stub => .value (.stub stub)
  | .found v =>
    if v.s.st_type = .STT_TLS then .value (.tls v)
    else if v.s.st_type = .STT_GNU_IFUNC then .value (.ifunc v)
    else .value (.address v)
  | .self _ => .null
  | .null => .null
  | .error message => .error message

def doSym (handle : Handle) : SymResult :=
  match handle, firstLookup ns call handle with
  | .object map, .found v =>
    if v.s.st_type ≠ .STT_FUNC then symbolValue (.found v)
    else if !call.memory then .null
    else if call.name = [] then .fault
    else symbolValue (stubLookup ns call map)
  | _, first => symbolValue first

end DlSym

-- The value is the address of a stub for `dlsym`.
def Redirects (value : SymValue) : Prop :=
  ∃ v, value = .address v ∧ dsymTag <+: v.s.st_name

-- The names of the stubs are used for functions only, and for no placeholder.
structure StubNames (ns : Namespace) : Prop where
  function : ∀ m ∈ ns.loaded, ∀ s ∈ m.symtab, dsymTag <+: s.st_name → s.st_type = .STT_FUNC
  free : ∀ name, dsymTag <+: name → ns.env.placeholders.find name = none

section Redirects

variable {ns : Namespace} {call : Request} {handle : Handle}

theorem firstLookup_defines {v : SymVal} (h : firstLookup ns call handle = .found v) :
    Defines ns.loaded call.name v := by
  cases handle with
  | RTLD_DEFAULT => exact lookupSymbolX_defines ns.env_loaded _ (ns.scope_loaded _) rfl h
  | RTLD_NEXT =>
    rw [firstLookup] at h
    split_ifs at h
    exact lookupSymbolX_defines ns.env_loaded _ (ns.local_loaded _) rfl h
  | object map => exact lookupSymbolX_defines ns.env_loaded _ (ns.local_loaded _) rfl h

theorem dsymAlias_tag (name : Name) : dsymTag <+: dsymAlias name := List.prefix_append _ _

theorem stubLookup_not_placeholder (hstubs : StubNames ns) (map : Module) (stub : Word) :
    stubLookup ns call map ≠ .placeholder stub := by
  intro h
  have hfind := lookupSymbolX_placeholder_iff.mp h
  exact Option.some_ne_none _ (hfind.symm.trans (hstubs.free _ (dsymAlias_tag _)))

theorem stubLookup_defines {map : Module} {v : SymVal} (h : stubLookup ns call map = .found v) :
    Defines ns.loaded (dsymAlias call.name) v :=
  lookupSymbolX_defines ns.env_loaded _ (ns.local_loaded _) rfl h

-- A value that comes from the lookup of the stub is the stub's address.
theorem symbolValue_stubLookup (hstubs : StubNames ns) {map : Module} {value : SymValue}
    (h : symbolValue (stubLookup ns call map) = .value value) :
    ∃ v, stubLookup ns call map = .found v ∧ value = .address v := by
  cases hlookup : stubLookup ns call map with
  | placeholder stub => exact absurd hlookup (stubLookup_not_placeholder hstubs map stub)
  | found v =>
    obtain ⟨hloaded, hsym, hname⟩ := stubLookup_defines hlookup
    have htype := hstubs.function _ hloaded _ hsym (hname ▸ dsymAlias_tag _)
    rw [hlookup, symbolValue, htype, if_neg SymType.noConfusion, if_neg SymType.noConfusion] at h
    exact ⟨v, rfl, (SymResult.value.inj h).symm⟩
  | _ =>
    rw [hlookup] at h
    cases h

-- The value of a function that is not redirected.
theorem symbolValue_function {v : SymVal}
    (hfun : v.s.st_type = .STT_FUNC ∨ v.s.st_type = .STT_GNU_IFUNC) :
    symbolValue (.found v) = .value (if v.s.st_type = .STT_FUNC then .address v else .ifunc v) := by
  rw [symbolValue]
  rcases hfun with htype | htype
  · rw [htype]
    rfl
  · rw [htype]
    rfl

theorem doSym_plain {v : SymVal} (hfound : firstLookup ns call handle = .found v)
    (h : ¬ ((∃ map, handle = .object map) ∧ v.s.st_type = .STT_FUNC)) :
    doSym ns call handle = symbolValue (.found v) := by
  unfold doSym
  rw [hfound]
  cases handle with
  | RTLD_DEFAULT => rfl
  | RTLD_NEXT => rfl
  | object map => exact if_pos fun htype => h ⟨⟨map, rfl⟩, htype⟩

theorem doSym_not_found (h : ∀ v, firstLookup ns call handle ≠ .found v) :
    doSym ns call handle = symbolValue (firstLookup ns call handle) := by
  unfold doSym
  cases hfirst : firstLookup ns call handle with
  | found v => exact absurd hfirst (h v)
  | _ => cases handle <;> rfl

theorem doSym_object {map : Module} {v : SymVal}
    (hfound : firstLookup ns call (.object map) = .found v) (htype : v.s.st_type = .STT_FUNC) :
    doSym ns call (.object map) =
      if !call.memory then .null
      else if call.name = [] then .fault
      else symbolValue (stubLookup ns call map) := by
  unfold doSym
  rw [hfound]
  exact if_neg fun h => h htype

theorem doSym_object_value (hstubs : StubNames ns) {map : Module} {v : SymVal}
    (hfound : firstLookup ns call (.object map) = .found v) (htype : v.s.st_type = .STT_FUNC)
    {value : SymValue} (h : doSym ns call (.object map) = .value value) :
    ∃ w, stubLookup ns call map = .found w ∧ value = .address w := by
  rw [doSym_object hfound htype] at h
  split_ifs at h
  exact symbolValue_stubLookup hstubs h

-- A function that is found is returned as a stub exactly through an object handle, and then
-- only if it is no indirect function, or if a stub is what was asked for.
theorem doSym_redirects_iff (ns : Namespace) (call : Request) (handle : Handle) (v : SymVal)
    (hstubs : StubNames ns) (hfound : firstLookup ns call handle = .found v)
    (hfun : v.s.st_type = .STT_FUNC ∨ v.s.st_type = .STT_GNU_IFUNC) :
    (∀ value, doSym ns call handle = .value value → Redirects value) ↔
      dsymTag <+: call.name ∨ ((∃ map, handle = .object map) ∧ v.s.st_type = .STT_FUNC) := by
  obtain ⟨hloaded, hsym, hname⟩ := firstLookup_defines hfound
  constructor
  · intro h
    by_contra hnot
    rw [not_or] at hnot
    have hvalue := doSym_plain hfound hnot.2
    rw [symbolValue_function hfun] at hvalue
    obtain ⟨w, hw, htag⟩ := h _ hvalue
    split_ifs at hw
    cases hw
    exact hnot.1 (hname ▸ htag)
  · rintro (htag | ⟨⟨map, rfl⟩, htype⟩) value hvalue
    · have htype := hstubs.function _ hloaded _ hsym (hname.symm ▸ htag)
      by_cases hobject : ∃ map, handle = .object map
      · obtain ⟨map, rfl⟩ := hobject
        obtain ⟨w, hw, rfl⟩ := doSym_object_value hstubs hfound htype hvalue
        exact ⟨w, rfl, (stubLookup_defines hw).2.2 ▸ dsymAlias_tag _⟩
      · rw [doSym_plain hfound fun h => hobject h.1, symbolValue_function hfun, if_pos htype] at hvalue
        cases hvalue
        exact ⟨v, rfl, hname.symm ▸ htag⟩
    · obtain ⟨w, hw, rfl⟩ := doSym_object_value hstubs hfound htype hvalue
      exact ⟨w, rfl, (stubLookup_defines hw).2.2 ▸ dsymAlias_tag _⟩

end Redirects

-- The main program with stubs, a library with one function, and a process of the two.

def stubsModule (stubs : List Name) : Module :=
  { id := 0, symtab := stubs.map fun name => { st_name := name, st_value := 0x1040#64 } }

def functionModule (name : Name) : Module :=
  { id := 1, symtab := [{ st_name := name, st_value := 0x2040#64 }] }

def twoModules (main lib : Module) : Namespace where
  env := { main := main }
  loaded := [main, lib]
  l_scope _ := [[main, lib]]
  l_local_scope _ := [[main, lib]]
  loaders _ := []
  env_loaded := ⟨List.mem_cons_self, fun _ _ h => by cases h⟩
  scope_loaded _ _ hm := by simpa using hm
  local_loaded _ _ hm := by simpa using hm

def fooProcess : Namespace :=
  twoModules (stubsModule ["dsym_foo".toList]) (functionModule "fooa".toList)

theorem fooProcess_stubNames : StubNames fooProcess where
  function := by decide
  free := fun _ _ => rfl

-- RTLD_DEFAULT gives the function of the library itself.
theorem doSym_not_redirects :
    ∃ (call : Request) (v : SymVal), StubNames fooProcess ∧
      firstLookup fooProcess call .RTLD_DEFAULT = .found v ∧ v.s.st_type = .STT_FUNC ∧
      v.m = functionModule "fooa".toList ∧
      doSym fooProcess call .RTLD_DEFAULT = .value (.address v) ∧ ¬ Redirects (.address v) := by
  refine ⟨⟨"fooa".toList, stubsModule ["dsym_foo".toList], true, none, true, true⟩,
    ⟨⟨"fooa".toList, .STT_FUNC, .STB_GLOBAL, .STV_DEFAULT, .other, 0x2040#64, 1, false⟩,
      functionModule "fooa".toList⟩, fooProcess_stubNames, by decide, rfl, rfl,
    by decide, ?_⟩
  rintro ⟨w, hw, htag⟩
  cases hw
  revert htag
  decide

-- Through the handle of the library it is the stub of the main program.
theorem doSym_redirects_object :
    ∃ value, doSym fooProcess ⟨"fooa".toList, stubsModule ["dsym_foo".toList], true, none, true, true⟩
      (.object (functionModule "fooa".toList)) = .value value ∧ Redirects value := by
  have hvalue : doSym fooProcess
      ⟨"fooa".toList, stubsModule ["dsym_foo".toList], true, none, true, true⟩
      (.object (functionModule "fooa".toList)) = .value (.address
        ⟨⟨"dsym_foo".toList, .STT_FUNC, .STB_GLOBAL, .STV_DEFAULT, .other, 0x1040#64, 1, false⟩,
          stubsModule ["dsym_foo".toList]⟩) := by
    decide
  refine ⟨_, hvalue, ?_⟩
  exact (doSym_redirects_iff fooProcess _ (.object (functionModule "fooa".toList))
    ⟨⟨"fooa".toList, .STT_FUNC, .STB_GLOBAL, .STV_DEFAULT, .other, 0x2040#64, 1, false⟩,
      functionModule "fooa".toList⟩ fooProcess_stubNames (by decide) (.inl rfl)).mpr
    (.inr ⟨⟨_, rfl⟩, rfl⟩) _ hvalue

-- The stubs are exactly the ones that were generated, each under its own name.
structure Generated (ns : Namespace) (dsyms : List Name) : Prop extends StubNames ns where
  stub : ∀ m ∈ ns.loaded, ∀ s ∈ m.symtab, dsymTag <+: s.st_name →
    s.st_name ∈ (emitDsymNakedJmpC dsyms).map Prod.fst
  distinct : ((emitDsymNakedJmpC dsyms).map Prod.fst).Nodup

-- The value is the stub that jumps to the name, or the placeholder that is registered for it.
def Serves (ns : Namespace) (dsyms : List Name) (name : Name) (value : SymValue) : Prop :=
  (∃ v, value = .address v ∧ (v.s.st_name, name) ∈ emitDsymNakedJmpC dsyms) ∨
    ∃ stub, value = .stub stub ∧ ns.env.placeholders.find name = some stub

-- A module of the caller's scope exports the name of the stub.
def StubVisible (ns : Namespace) (call : Request) (map : Module) : Prop :=
  ∃ m ∈ (ns.l_local_scope call.caller).flatten,
    provides ns.env (symQuery call (dsymAlias call.name) map) m = true

-- The only function registered under the name but for its last character is the function itself.
def OnlyTarget (dsyms : List Name) (name : Name) : Prop :=
  ∀ symbol ∈ dsymTargets dsyms, symbol.dropLast = name.dropLast → symbol = name

section Exact

variable {ns : Namespace} {dsyms : List Name} {call : Request} {map : Module}

theorem dsymAlias_injective {symbol name : Name} (h : dsymAlias symbol = dsymAlias name) :
    symbol.dropLast = name.dropLast :=
  List.append_cancel_left h

theorem dsymAlias_ne_callback_table (name : Name) : dsymAlias name ≠ "callback_table".toList := by
  intro h
  have hhead : some 'd' = some 'c' := congrArg List.head? h
  exact absurd hhead (by decide)

theorem mem_emit {symbol : Name} (h : symbol ∈ dsymTargets dsyms) :
    (dsymAlias symbol, symbol) ∈ emitDsymNakedJmpC dsyms :=
  List.mem_map.mpr ⟨symbol, h, rfl⟩

theorem stubLookup_found_iff (hstubs : StubNames ns) :
    (∃ v, stubLookup ns call map = .found v) ↔ StubVisible ns call map := by
  have hiff := lookupSymbolX_found_iff ns.env (symQuery call (dsymAlias call.name) map)
    (dsymAlias_ne_callback_table _) (hstubs.free _ (dsymAlias_tag _)) (ns.l_local_scope call.caller)
  have hstart : startAt (symQuery call (dsymAlias call.name) map) (ns.l_local_scope call.caller) =
      ns.l_local_scope call.caller := by
    cases ns.l_local_scope call.caller with
    | nil => rfl
    | cons scope scopes => rfl
  rw [hstart] at hiff
  exact hiff

-- The stub that is found jumps to a function with the same name but for the last character.
theorem stubLookup_target (hgen : Generated ns dsyms) {v : SymVal}
    (h : stubLookup ns call map = .found v) :
    ∃ symbol ∈ dsymTargets dsyms, symbol.dropLast = call.name.dropLast ∧
      (v.s.st_name, symbol) ∈ emitDsymNakedJmpC dsyms := by
  obtain ⟨hloaded, hsym, hname⟩ := stubLookup_defines h
  have hmem := hgen.stub _ hloaded _ hsym (hname ▸ dsymAlias_tag _)
  obtain ⟨pair, hpair, hfst⟩ := List.mem_map.mp hmem
  obtain ⟨symbol, hsymbol, rfl⟩ := List.mem_map.mp hpair
  refine ⟨symbol, hsymbol, dsymAlias_injective (hfst.trans hname), ?_⟩
  rw [← hfst]
  exact mem_emit hsymbol

theorem serves_iff (hgen : Generated ns dsyms) {v : SymVal}
    (h : stubLookup ns call map = .found v) :
    Serves ns dsyms call.name (.address v) ↔ OnlyTarget dsyms call.name := by
  have hname := (stubLookup_defines h).2.2
  constructor
  · rintro (⟨w, hw, hmem⟩ | ⟨stub, hstub, -⟩)
    · cases hw
      intro symbol hsymbol hdrop
      have hother := mem_emit hsymbol
      have halias : dsymAlias symbol = v.s.st_name := by
        rw [hname, dsymAlias, dsymAlias, hdrop]
      rw [halias] at hother
      exact congrArg Prod.snd (List.inj_on_of_nodup_map hgen.distinct hother hmem rfl)
    · cases hstub
  · intro honly
    obtain ⟨symbol, hsymbol, hdrop, hmem⟩ := stubLookup_target hgen h
    exact .inl ⟨v, rfl, honly symbol hsymbol hdrop ▸ hmem⟩

-- Without a symbol there is a value only for a name that is registered as a placeholder.
theorem serves_of_not_found (hfound : ∀ v, firstLookup ns call (.object map) ≠ .found v)
    {value : SymValue} (hvalue : doSym ns call (.object map) = .value value) :
    Serves ns dsyms call.name value := by
  rw [doSym_not_found hfound] at hvalue
  cases hfirst : firstLookup ns call (.object map) with
  | found v => exact absurd hfirst (hfound v)
  | placeholder stub =>
    rw [hfirst] at hvalue
    cases hvalue
    exact .inr ⟨stub, rfl, lookupSymbolX_placeholder_iff.mp hfirst⟩
  | _ =>
    rw [hfirst] at hvalue
    cases hvalue

-- An address that is served is no resolver.
theorem type_of_serves {v : SymVal} (hfound : firstLookup ns call (.object map) = .found v)
    (hfun : v.s.st_type = .STT_FUNC ∨ v.s.st_type = .STT_GNU_IFUNC)
    (h : ∀ value, doSym ns call (.object map) = .value value → Serves ns dsyms call.name value) :
    v.s.st_type = .STT_FUNC := by
  by_contra hnot
  have hvalue := doSym_plain hfound fun hboth => hnot hboth.2
  rw [symbolValue_function hfun, if_neg hnot] at hvalue
  rcases h _ hvalue with ⟨w, hw, -⟩ | ⟨stub, hstub, -⟩
  · cases hw
  · cases hstub

-- Through an object handle, `dlsym` of a function fails or gives the stub for that very name
-- exactly if the function is no indirect one and no other function that is registered shares
-- all but its last character, as long as the caller sees the stub.
theorem doSym_exact_iff (ns : Namespace) (dsyms : List Name) (call : Request) (map : Module)
    (hgen : Generated ns dsyms) (hname : call.name ≠ [])
    (hfun : ∀ v, firstLookup ns call (.object map) = .found v →
      v.s.st_type = .STT_FUNC ∨ v.s.st_type = .STT_GNU_IFUNC) :
    (∀ value, doSym ns call (.object map) = .value value → Serves ns dsyms call.name value) ↔
      ∀ v, firstLookup ns call (.object map) = .found v → v.s.st_type = .STT_FUNC ∧
        (call.memory = true → StubVisible ns call map → OnlyTarget dsyms call.name) := by
  constructor
  · intro h v hfound
    have htype := type_of_serves hfound (hfun v hfound) h
    refine ⟨htype, fun hmem hvisible => ?_⟩
    obtain ⟨w, hw⟩ := (stubLookup_found_iff hgen.toStubNames).mpr hvisible
    obtain ⟨hloaded, hsym, hwname⟩ := stubLookup_defines hw
    have hwtype := hgen.function _ hloaded _ hsym (hwname ▸ dsymAlias_tag _)
    have hvalue := doSym_object hfound htype
    rw [hmem, if_neg (by decide), if_neg hname, hw, symbolValue_function (.inl hwtype),
      if_pos hwtype] at hvalue
    exact (serves_iff hgen hw).mp (h _ hvalue)
  · intro h value hvalue
    by_cases hfound : ∃ v, firstLookup ns call (.object map) = .found v
    · obtain ⟨v, hfirst⟩ := hfound
      obtain ⟨htype, honly⟩ := h v hfirst
      obtain ⟨w, hw, rfl⟩ := doSym_object_value hgen.toStubNames hfirst htype hvalue
      have hmem : call.memory = true := by
        rw [doSym_object hfirst htype] at hvalue
        cases hmemory : call.memory with
        | true => rfl
        | false =>
          rw [hmemory] at hvalue
          cases hvalue
      exact (serves_iff hgen hw).mpr
        (honly hmem ((stubLookup_found_iff hgen.toStubNames).mp ⟨w, hw⟩))
    · exact serves_of_not_found (not_exists.mp hfound) hvalue

end Exact

-- The stub for fooa is exported as dsym_foo.
theorem generated_foo (name : Name) (hname : ¬ dsymTag <+: name) :
    Generated (twoModules (stubsModule ["dsym_foo".toList]) (functionModule name))
      ["dsym_fooa".toList] where
  function := by
    intro m hm s hs htag
    rcases List.mem_cons.mp hm with rfl | hm
    · rw [List.mem_singleton.mp hs]
    · rw [List.mem_singleton.mp hm, functionModule, List.mem_singleton] at hs
      rw [hs]
  free := fun _ _ => rfl
  stub := by
    intro m hm s hs htag
    rcases List.mem_cons.mp hm with rfl | hm
    · rw [List.mem_singleton.mp hs]
      decide
    · rw [List.mem_singleton.mp hm, functionModule, List.mem_singleton] at hs
      rw [hs] at htag
      exact absurd htag hname
  distinct := by decide

-- A `dlsym` of foob gives the stub that jumps to fooa.
theorem doSym_not_exact :
    ∃ (ns : Namespace) (call : Request) (map : Module) (v : SymVal),
      Generated ns ["dsym_fooa".toList] ∧ call.name = "foob".toList ∧
        doSym ns call (.object map) = .value (.address v) ∧
        (v.s.st_name, "fooa".toList) ∈ emitDsymNakedJmpC ["dsym_fooa".toList] ∧
        ¬ Serves ns ["dsym_fooa".toList] call.name (.address v) := by
  refine ⟨_, ⟨"foob".toList, stubsModule ["dsym_foo".toList], true, none, true, true⟩,
    functionModule "foob".toList,
    ⟨⟨"dsym_foo".toList, .STT_FUNC, .STB_GLOBAL, .STV_DEFAULT, .other, 0x1040#64, 1, false⟩,
      stubsModule ["dsym_foo".toList]⟩,
    generated_foo "foob".toList (by decide), rfl, by decide, by decide, ?_⟩
  rintro (⟨w, hw, hmem⟩ | ⟨stub, hstub, -⟩)
  · cases hw
    revert hmem
    decide
  · cases hstub

-- A `dlsym` of fooa gives its own stub.
theorem doSym_exact_foo :
    ∃ value, doSym fooProcess ⟨"fooa".toList, stubsModule ["dsym_foo".toList], true, none, true, true⟩
      (.object (functionModule "fooa".toList)) = .value value ∧
        Serves fooProcess ["dsym_fooa".toList] "fooa".toList value := by
  have hfound : firstLookup fooProcess
      ⟨"fooa".toList, stubsModule ["dsym_foo".toList], true, none, true, true⟩
      (.object (functionModule "fooa".toList)) = .found
        ⟨⟨"fooa".toList, .STT_FUNC, .STB_GLOBAL, .STV_DEFAULT, .other, 0x2040#64, 1, false⟩,
          functionModule "fooa".toList⟩ := by
    decide
  have htype : ∀ v, firstLookup fooProcess
      ⟨"fooa".toList, stubsModule ["dsym_foo".toList], true, none, true, true⟩
      (.object (functionModule "fooa".toList)) = .found v → v.s.st_type = .STT_FUNC := by
    intro v hv
    rw [hfound] at hv
    cases hv
    rfl
  refine ⟨.address
    ⟨⟨"dsym_foo".toList, .STT_FUNC, .STB_GLOBAL, .STV_DEFAULT, .other, 0x1040#64, 1, false⟩,
      stubsModule ["dsym_foo".toList]⟩, by decide, ?_⟩
  refine (doSym_exact_iff fooProcess ["dsym_fooa".toList] _ (functionModule "fooa".toList)
    (generated_foo "fooa".toList (by decide)) (by decide) fun v hv => .inl (htype v hv)).mpr
    (fun v hv => ⟨htype v hv, fun _ _ symbol hsymbol _ => ?_⟩) _ (by decide)
  have htargets : dsymTargets ["dsym_fooa".toList] = ["fooa".toList] := by decide
  rw [htargets] at hsymbol
  exact List.mem_singleton.mp hsymbol

end Platypus.Loader
