import Platypus.Linker.ScanRun

namespace Platypus.Linker

-- A preemptible function whose name is none that the linker reserves.
structure PlainFunction (sym : Symbol) : Prop where
  isPreemptible : sym.isPreemptible = true
  isFunc : sym.type = .STT_FUNC
  notOr : sym.startsWith "or_mask" = false
  notAnd : sym.startsWith "and_mask" = false
  notTable : sym.startsWith "cccallback_table" = false

-- The types of relocations for which `scanOne` takes a function's address to be taken.
def addressTypes : List RelType :=
  [.R_X86_64_64, .R_X86_64_GOTPCRELX, .R_X86_64_REX_GOTPCRELX, .R_X86_64_PC32]

def marks (sym : Symbol) (type : RelType) : Bool :=
  sym.startsWith "__libc_start_main" || decide (type ∈ addressTypes)

-- The symbol is of custom type 1 once a relocation has marked it.
def Symbol.mark (sym : Symbol) (b : Bool) : Symbol :=
  if b then { sym with iscustomreloc := 0x1#32 } else sym

theorem classify_function {sym : Symbol} (h : PlainFunction sym) (type : RelType) :
    classify sym type = (sym.mark (marks sym type), type) := by
  unfold classify maskType customType marks Symbol.mark
  simp only [h.notOr, h.notAnd, Bool.false_eq_true, if_false]
  have hfunc : sym.isFunc = true := by rw [Symbol.isFunc, h.isFunc, decide_eq_true rfl]
  by_cases hmain : sym.startsWith "__libc_start_main" = true
  · have hmarked : { sym with iscustomreloc := 0x1#32 : Symbol }.startsWith "cccallback_table" = false :=
      h.notTable
    have hpreempt : { sym with iscustomreloc := 0x1#32 : Symbol }.isPreemptible = true :=
      h.isPreemptible
    have hfunc' : { sym with iscustomreloc := 0x1#32 : Symbol }.isFunc = true := hfunc
    simp only [hmain, if_true, hmarked, hpreempt, hfunc', Bool.true_or, Bool.and_self,
      Bool.false_eq_true, if_false]
    split <;> simp only [h.isPreemptible]
  · simp only [hmain, if_false, h.notTable, h.isPreemptible, hfunc, Bool.false_or, Bool.and_self,
      Bool.false_eq_true, if_true, addressTypes]
    split_ifs <;> simp_all

-- The relocations by which an address is taken, as `scanOne` sorts them.

section Kinds

variable (cfg : ScanConfig) (sec : InputSec) (sym : Symbol) (rel : Rel)

-- `reportUndefined` makes the link fail.
def refused : Bool :=
  sym.kind = .Undefined && rel.symIndex ≠ 0 && !"callback_table".toList.isSuffixOf sym.name &&
    !sym.startsWith "placeholder" && !sym.startsWith "dsym_" &&
    (cfg.hasVersionSuffix rel.sym || (!sym.isWeak &&
      !(cfg.unresolvedSymbols = .Ignore && cfg.canBeExternal rel.sym) &&
      !((cfg.unresolvedSymbols = .Warn && cfg.canBeExternal rel.sym) || cfg.noinhibitExec)))

def isLive : Bool := rel.offset ≠ -1#64 && !refused cfg sym rel

-- The address is read from `.got`.
def inGot : Bool := isLive cfg sym rel && (getRelExpr rel.type).any needsGot

def isAbs : Bool := isLive cfg sym rel && getRelExpr rel.type = some .R_ABS

-- The loader can change the word.
def isDynamic : Bool :=
  (sec.isWrite || !(cfg.zText || sec.isEh)) && getDynRel rel.type ≠ .R_X86_64_NONE

-- The address is a word that the loader writes.
def inWord : Bool := isAbs cfg sym rel && isDynamic cfg sec rel

-- The address is a word that the linker writes: an executable takes its own PLT entry.
def inImage : Bool :=
  isAbs cfg sym rel && !isDynamic cfg sec rel && !cfg.shared && sym.kind = .Shared &&
    canDefineSymbolInExecutable cfg rel.sym sym

end Kinds

-- The relocations with which the loader writes the address of something.
def wordTypes : List RelType :=
  [.R_X86_64_64, .R_X86_64_GLOB_DAT, .R_X86_64_RELATIVE, .R_X86_64_CALLBACK_MAYBE]

-- What happens to a symbol between two states of the scan: whether it is read from `.got`, and
-- whether there is a new word with its address, written by the loader or by the linker.
structure Takes (s : SymId) (got word image : Bool) (st st' : ScanState) : Prop where
  got : (st'.sym s).flags.NEEDS_GOT = ((st.sym s).flags.NEEDS_GOT || got)
  word : ∃ new, st'.ctx.relaDyn = st.ctx.relaDyn ++ new ∧
    ((∃ r ∈ new, r.sym = some s ∧ r.type ∈ wordTypes) ↔ word = true) ∧
    ∀ r ∈ new, r.sym = some s → r.type ≠ .R_X86_64_GLOB_DAT
  image : ∃ new, st'.relocs = st.relocs ++ new ∧
    ((∃ r ∈ new, r.sym = s ∧ r.expr = .R_ABS) ↔ image = true)

theorem flags_setFlags (st : ScanState) (s : SymId) (f : Flags → Flags) :
    ((st.setFlags s f).sym s).flags = f (st.sym s).flags := congrArg Symbol.flags (if_pos rfl)

namespace Takes

variable {s : SymId} {got word image got' word' image' : Bool} {st st₁ st₂ : ScanState}

theorem trans (h : Takes s got word image st st₁) (h' : Takes s got' word' image' st₁ st₂) :
    Takes s (got || got') (word || word') (image || image') st st₂ where
  got := by rw [h'.got, h.got, Bool.or_assoc]
  word := by
    obtain ⟨new, heq, hnew, htype⟩ := h.word
    obtain ⟨new', heq', hnew', htype'⟩ := h'.word
    refine ⟨new ++ new', by rw [heq', heq, List.append_assoc], ?_, fun r hr => ?_⟩
    · rw [Bool.or_eq_true, ← hnew, ← hnew']
      simp only [List.mem_append, or_and_right, exists_or]
    · exact (List.mem_append.mp hr).elim (htype r) (htype' r)
  image := by
    obtain ⟨new, heq, hnew⟩ := h.image
    obtain ⟨new', heq', hnew'⟩ := h'.image
    refine ⟨new ++ new', by rw [heq', heq, List.append_assoc], ?_⟩
    rw [Bool.or_eq_true, ← hnew, ← hnew']
    simp only [List.mem_append, or_and_right, exists_or]

-- Nothing that matters here has changed.
theorem of_same (hgot : (st₁.sym s).flags.NEEDS_GOT = (st.sym s).flags.NEEDS_GOT)
    (hrela : st₁.ctx.relaDyn = st.ctx.relaDyn) (hrelocs : st₁.relocs = st.relocs) :
    Takes s false false false st st₁ where
  got := by rw [hgot, Bool.or_false]
  word := ⟨[], by simp [hrela], by simp, by simp⟩
  image := ⟨[], by simp [hrelocs], by simp⟩

theorem addReloc (st : ScanState) {r : Relocation} (hr : r.sym = s) :
    Takes s false false (r.expr = .R_ABS) st (st.addReloc r) where
  got := (Bool.or_false _).symm
  word := ⟨[], (List.append_nil _).symm, by simp, by simp⟩
  image := ⟨[r], rfl, by simp [hr]⟩

theorem addRelaDyn (st : ScanState) {r : DynamicReloc} (hr : r.sym = some s)
    (htype : r.type ≠ .R_X86_64_GLOB_DAT) :
    Takes s false (r.type ∈ wordTypes) false st (st.addRelaDyn r) where
  got := (Bool.or_false _).symm
  word := ⟨[r], rfl, by simp [hr], by simpa [hr] using htype⟩
  image := ⟨[], (List.append_nil _).symm, by simp⟩

theorem setFlags (st : ScanState) (f : Flags → Flags)
    (h : (f (st.sym s).flags).NEEDS_GOT = (st.sym s).flags.NEEDS_GOT) :
    Takes s false false false st (st.setFlags s f) :=
  .of_same (by rw [flags_setFlags, h]) rfl rfl

theorem after (h : Takes s false false false st st₁) (h' : Takes s got word image st₁ st₂) :
    Takes s got word image st st₂ := by
  simpa only [Bool.false_or] using h.trans h'

end Takes

section Step

variable (cfg : ScanConfig) (sec : InputSec) (st : ScanState) {rel : Rel} {expr : RelExpr}

theorem noteFlags_takes (s : SymId) (expr : RelExpr) :
    Takes s (needsGot expr) false false st (noteFlags st s expr) := by
  unfold noteFlags
  split_ifs with hgot
  · refine ⟨?_, ⟨[], (List.append_nil _).symm, by simp, by simp⟩, ⟨[], (List.append_nil _).symm, by simp⟩⟩
    rw [hgot, Bool.or_true, flags_setFlags]
  · rw [Bool.eq_false_of_not_eq_true hgot]
    exact .setFlags st _ rfl
  · rw [Bool.eq_false_of_not_eq_true hgot]
    exact .setFlags st _ rfl
  · rw [Bool.eq_false_of_not_eq_true hgot]
    exact .of_same rfl rfl rfl

theorem copyOrCanonicalPlt_takes (hfn : (st.sym rel.sym).type = .STT_FUNC) (type : RelType) :
    Takes rel.sym false false
      (expr = .R_ABS && (!cfg.shared && (st.sym rel.sym).kind = .Shared &&
        canDefineSymbolInExecutable cfg rel.sym (st.sym rel.sym)))
      st (copyOrCanonicalPlt cfg sec st rel expr type) := by
  have hfunc : (st.sym rel.sym).isFunc = true := by rw [Symbol.isFunc, hfn, decide_eq_true rfl]
  have hobject : (st.sym rel.sym).isObject = false := by
    rw [Symbol.isObject, hfn, decide_eq_false (by decide)]
  unfold copyOrCanonicalPlt
  simp only [hfunc, hobject, Bool.and_false, Bool.false_eq_true, if_false, Bool.and_true]
  cases hshared : (!cfg.shared && decide ((st.sym rel.sym).kind = .Shared)) with
  | false =>
    simp only [Bool.false_and, Bool.and_false, Bool.false_eq_true, if_false]
    exact .of_same rfl rfl rfl
  | true =>
    simp only [Bool.true_and, if_true]
    cases canDefineSymbolInExecutable cfg rel.sym (st.sym rel.sym) with
    | false =>
      simp only [Bool.not_false, if_true, Bool.and_false]
      exact .of_same rfl rfl rfl
    | true =>
      simp only [Bool.not_true, Bool.false_eq_true, if_false, Bool.and_true]
      have hflags := Takes.setFlags (s := rel.sym) st
        (fun f => { f with NEEDS_COPY := true, NEEDS_PLT := true }) rfl
      have hreloc := Takes.addReloc (st.setFlags rel.sym
        fun f => { f with NEEDS_COPY := true, NEEDS_PLT := true })
        (r := toRelocation sec rel expr type) rfl
      exact hflags.after hreloc

-- The dynamic relocations that write an address are those of absolute words.
theorem mem_wordTypes_iff (type : RelType) (h : getDynRel type ≠ .R_X86_64_NONE) :
    getDynRel type ∈ wordTypes ↔ getRelExpr type = some .R_ABS := by
  revert h
  cases type <;> decide

theorem getDynRel_ne (type : RelType) : getDynRel type ≠ .R_X86_64_GLOB_DAT := by
  cases type <;> decide

theorem processDynamic_takes (hpreempt : (st.sym rel.sym).isPreemptible = true)
    (hfn : (st.sym rel.sym).type = .STT_FUNC) (hexpr : getRelExpr rel.type = some expr) :
    Takes rel.sym false (expr = .R_ABS && isDynamic cfg sec rel)
      (expr = .R_ABS && (!isDynamic cfg sec rel && (!cfg.shared &&
        (st.sym rel.sym).kind = .Shared &&
        canDefineSymbolInExecutable cfg rel.sym (st.sym rel.sym))))
      st (processDynamic cfg sec st rel expr rel.type) := by
  unfold processDynamic
  simp only [hpreempt, Bool.not_true, Bool.and_false, Bool.false_eq_true, if_false]
  cases hdyn : isDynamic cfg sec rel with
  | true =>
    have htype : getDynRel rel.type ≠ .R_X86_64_NONE := by
      intro h
      simp [isDynamic, h] at hdyn
    have habs : decide (expr = .R_ABS) = decide (getDynRel rel.type ∈ wordTypes) := by
      rw [decide_eq_decide, mem_wordTypes_iff rel.type htype, hexpr, Option.some_inj]
    rw [isDynamic] at hdyn
    simp only [hdyn, if_true, Bool.not_true, Bool.false_and, Bool.and_false, Bool.and_true, habs]
    exact .addRelaDyn (r := ⟨getDynRel rel.type, sec.id, rel.offset, .AgainstSymbol, some rel.sym,
      rel.addend, .R_ADDEND⟩) st rfl (getDynRel_ne rel.type)
  | false =>
    rw [isDynamic] at hdyn
    simp only [hdyn, Bool.false_eq_true, if_false, Bool.not_false, Bool.true_and, Bool.and_false]
    exact copyOrCanonicalPlt_takes cfg sec st hfn rel.type

theorem processAux_takes (hpic : cfg.isPic = true)
    (hpreempt : (st.sym rel.sym).isPreemptible = true)
    (hfn : (st.sym rel.sym).type = .STT_FUNC) (hexpr : getRelExpr rel.type = some expr) :
    Takes rel.sym (needsGot expr) (expr = .R_ABS && isDynamic cfg sec rel)
      (expr = .R_ABS && (!isDynamic cfg sec rel && (!cfg.shared &&
        (st.sym rel.sym).kind = .Shared &&
        canDefineSymbolInExecutable cfg rel.sym (st.sym rel.sym))))
      st (processAux cfg sec st rel expr rel.type) := by
  have hifunc : (st.sym rel.sym).isGnuIFunc = false := by
    rw [Symbol.isGnuIFunc, hfn, decide_eq_false (by decide)]
  have habsolute : refersToAbsolute cfg rel.sym (st.sym rel.sym) expr = false := by
    simp [refersToAbsolute, hpreempt]
  have hadjust : adjustExpr cfg sec (st.sym rel.sym) rel expr rel.type = expr := by
    simp [adjustExpr, hpreempt]
  have hrelax : expr ≠ .R_RELAX_GOT_PC := by
    rintro rfl
    revert hexpr
    cases rel.type <;> decide
  unfold processAux
  simp only [hifunc, hadjust, hrelax, habsolute, hpic, Bool.false_and, Bool.not_true,
    Bool.false_eq_true, if_false, Bool.or_false]
  have hnote := noteFlags_takes st rel.sym expr
  obtain ⟨flags, hown⟩ := (noteFlags_touches sec st rel expr).own
  split_ifs with hstatic
  · have habs : expr ≠ .R_ABS := by
      rintro rfl
      simp [isStaticLinkTimeConstant, hpreempt] at hstatic
    have hreloc := Takes.addReloc (noteFlags st rel.sym expr)
      (r := toRelocation sec rel expr rel.type) rfl
    rw [show (toRelocation sec rel expr rel.type).expr = expr from rfl] at hreloc
    simpa only [habs, decide_false, Bool.false_and, Bool.or_false, Bool.false_or] using
      hnote.trans hreloc
  · have hdynamic := processDynamic_takes cfg sec (noteFlags st rel.sym expr)
      (by rw [hown]; exact hpreempt) (by rw [hown]; exact hfn) hexpr
    have hdefine : canDefineSymbolInExecutable cfg rel.sym { st.sym rel.sym with flags := flags } =
        canDefineSymbolInExecutable cfg rel.sym (st.sym rel.sym) := rfl
    rw [hown, hdefine] at hdynamic
    simpa only [Bool.or_false, Bool.false_or] using hnote.trans hdynamic

theorem reportUndefined_snd (hcustom : (st.sym rel.sym).customrelocType < 2#32) :
    (reportUndefined cfg st rel).2 = refused cfg (st.sym rel.sym) rel := by
  unfold reportUndefined maybeReportUndefined refused
  simp only [hcustom, decide_true, Bool.and_true]
  split_ifs <;> simp_all
  tauto

theorem reportUndefined_same (rel : Rel) :
    (reportUndefined cfg st rel).1.ctx.syms = st.ctx.syms ∧
      (reportUndefined cfg st rel).1.ctx.relaDyn = st.ctx.relaDyn ∧
      (reportUndefined cfg st rel).1.relocs = st.relocs := by
  unfold reportUndefined maybeReportUndefined
  dsimp only
  split_ifs <;> exact ⟨rfl, rfl, rfl⟩

-- These expressions are handled like those of thread-local variables, whatever the symbol is.
theorem handleTlsRelocation_takes (hpreempt : (st.sym rel.sym).isPreemptible = true)
    (hexpr : expr ∈ [.R_TLSDESC_PC, .R_TLSDESC_CALL]) (type : RelType) :
    Takes rel.sym false false false st (handleTlsRelocation cfg sec st rel expr type).1 ∧
      (handleTlsRelocation cfg sec st rel expr type).2 ≠ 0 := by
  have hskip : getTlsGdRelaxSkip type ≠ 0 := by
    unfold getTlsGdRelaxSkip
    split <;> decide
  have hkeep : ∀ (f : Flags → Flags) (e : RelExpr), e ≠ .R_ABS →
      (f (st.sym rel.sym).flags).NEEDS_GOT = (st.sym rel.sym).flags.NEEDS_GOT →
      Takes rel.sym false false false st
        ((st.setFlags rel.sym f).addReloc (toRelocation sec rel e type)) := by
    intro f e he hf
    have hreloc := Takes.addReloc (st.setFlags rel.sym f) (r := toRelocation sec rel e type) rfl
    rw [show (toRelocation sec rel e type).expr = e from rfl, decide_eq_false he] at hreloc
    exact (Takes.setFlags st f hf).after hreloc
  unfold handleTlsRelocation
  rcases List.mem_cons.mp hexpr with rfl | hexpr
  · cases cfg.shared with
    | true => exact ⟨hkeep _ _ (by decide) rfl, Nat.one_ne_zero⟩
    | false =>
      simp only [hpreempt]
      exact ⟨hkeep _ _ (by decide) rfl, hskip⟩
  · obtain rfl := List.mem_singleton.mp hexpr
    cases cfg.shared with
    | true => exact ⟨.of_same rfl rfl rfl, Nat.one_ne_zero⟩
    | false =>
      simp only [hpreempt]
      exact ⟨hkeep _ _ (by decide) rfl, hskip⟩

theorem scanExpr_takes (hpic : cfg.isPic = true)
    (hpreempt : (st.sym rel.sym).isPreemptible = true) (hfn : (st.sym rel.sym).type = .STT_FUNC)
    (hcustom : (st.sym rel.sym).customrelocType < 2#32) (hexpr : getRelExpr rel.type = some expr)
    (hoffset : rel.offset ≠ -1#64) :
    Takes rel.sym (inGot cfg (st.sym rel.sym) rel) (inWord cfg sec (st.sym rel.sym) rel)
      (inImage cfg sec (st.sym rel.sym) rel) st (scanExpr cfg sec st rel expr rel.type).1 := by
  have htls : (st.sym rel.sym).isTls = false := by rw [Symbol.isTls, hfn, decide_eq_false (by decide)]
  obtain ⟨hsyms, hrela, hrelocs⟩ := reportUndefined_same cfg st rel
  have hsnd := reportUndefined_snd cfg st hcustom
  unfold scanExpr
  generalize reportUndefined cfg st rel = report at hsyms hrela hrelocs hsnd
  obtain ⟨st₁, failed⟩ := report
  have hsame : Takes rel.sym false false false st st₁ :=
    .of_same (by rw [ScanState.sym, hsyms, ScanState.sym]) hrela hrelocs
  have hsym : st₁.sym rel.sym = st.sym rel.sym := congrFun hsyms rel.sym
  have hlive : isLive cfg (st.sym rel.sym) rel = !failed := by
    rw [isLive, ← hsnd, decide_eq_true hoffset, Bool.true_and]
  simp only [inGot, inWord, inImage, isAbs, hlive, hexpr, Option.some_inj, Option.any_some]
  cases failed with
  | true => exact hsame
  | false =>
    have hnote : Takes rel.sym false false false st₁ (noteGotPlt st₁ expr) := by
      unfold noteGotPlt
      split <;> exact .of_same rfl rfl rfl
    have hsym₁ : (noteGotPlt st₁ expr).sym rel.sym = st.sym rel.sym := by
      unfold noteGotPlt
      split <;> exact hsym
    simp only [Bool.false_eq_true, if_false, Bool.not_false, Bool.true_and, hsym₁, htls,
      Bool.false_or, Bool.and_assoc]
    by_cases hdesc : expr ∈ [.R_TLSDESC_PC, .R_TLSDESC_CALL]
    · obtain ⟨htakes, hprocessed⟩ := handleTlsRelocation_takes cfg sec (noteGotPlt st₁ expr)
        (by rw [hsym₁]; exact hpreempt) hdesc rel.type
      have hkind : needsGot expr = false ∧ expr ≠ .R_ABS := by
        rcases List.mem_cons.mp hdesc with rfl | hdesc
        · decide
        · obtain rfl := List.mem_singleton.mp hdesc
          decide
      simp only [hdesc, decide_true, if_true, hprocessed, ne_eq, not_false_eq_true, hkind,
        decide_false, Bool.false_and]
      exact (hsame.after hnote).after htakes
    · simp only [hdesc, decide_false, Bool.false_eq_true, if_false, ne_eq, not_true_eq_false]
      have haux := processAux_takes cfg sec (noteGotPlt st₁ expr) hpic
        (by rw [hsym₁]; exact hpreempt) (by rw [hsym₁]; exact hfn) hexpr
      rw [hsym₁] at haux
      simpa only [Bool.and_assoc] using (hsame.after hnote).after haux

end Step

-- A symbol of the scan as it was at the start, but for its flags and the mark.
def Marked (sym₀ : Symbol) (b : Bool) (sym : Symbol) : Prop :=
  ∃ flags, sym = { sym₀.mark b with flags := flags }

section Marked

variable (cfg : ScanConfig) {sym₀ sym : Symbol} {b : Bool}

theorem Marked.plainFunction (h : Marked sym₀ b sym) (hfn : PlainFunction sym₀) :
    PlainFunction sym := by
  obtain ⟨flags, rfl⟩ := h
  cases b <;> exact ⟨hfn.isPreemptible, hfn.isFunc, hfn.notOr, hfn.notAnd, hfn.notTable⟩

theorem Marked.mark (h : Marked sym₀ b sym) (type : RelType) :
    Marked sym₀ (b || marks sym₀ type) (sym.mark (marks sym type)) := by
  obtain ⟨flags, rfl⟩ := h
  have hmarks : marks { sym₀.mark b with flags := flags } type = marks sym₀ type := by
    cases b <;> rfl
  rw [hmarks]
  cases b <;> cases marks sym₀ type <;> exact ⟨flags, rfl⟩

theorem Marked.customrelocType (h : Marked sym₀ b sym) (hzero : sym₀.iscustomreloc = 0#32) :
    sym.customrelocType = if b then 1#32 else 0#32 := by
  obtain ⟨flags, rfl⟩ := h
  cases b with
  | false => exact congrArg (· &&& 0xff#32) hzero
  | true => exact show 1#32 &&& 0xff#32 = 1#32 by decide

theorem Marked.inGot (h : Marked sym₀ b sym) (rel : Rel) : inGot cfg sym rel = inGot cfg sym₀ rel := by
  obtain ⟨flags, rfl⟩ := h
  cases b <;> rfl

theorem Marked.inWord (h : Marked sym₀ b sym) (sec : InputSec) (rel : Rel) :
    inWord cfg sec sym rel = inWord cfg sec sym₀ rel := by
  obtain ⟨flags, rfl⟩ := h
  cases b <;> rfl

theorem Marked.inImage (h : Marked sym₀ b sym) (sec : InputSec) (rel : Rel) :
    inImage cfg sec sym rel = inImage cfg sec sym₀ rel := by
  obtain ⟨flags, rfl⟩ := h
  cases b <;> rfl

end Marked

section Run

variable {cfg : ScanConfig} {sym₀ : Symbol}

theorem scanOne_own (hpic : cfg.isPic = true) (hfn : PlainFunction sym₀)
    (hzero : sym₀.iscustomreloc = 0#32) (sec : InputSec) (st : ScanState) (rel : Rel) {b : Bool}
    (hsym : Marked sym₀ b (st.sym rel.sym)) :
    Marked sym₀ (b || marks sym₀ rel.type) ((scanOne cfg sec st rel).1.sym rel.sym) ∧
      Takes rel.sym (inGot cfg sym₀ rel) (inWord cfg sec sym₀ rel) (inImage cfg sec sym₀ rel) st
        (scanOne cfg sec st rel).1 := by
  have hclassify := classify_function (hsym.plainFunction hfn) rel.type
  have hmarked := hsym.mark rel.type
  constructor
  · obtain ⟨flags, hflags⟩ := (scanOne_touches cfg sec st rel).own
    rw [hflags, sym_setSym, hclassify]
    obtain ⟨flags', hmarked⟩ := hmarked
    rw [hmarked]
    exact ⟨flags, rfl⟩
  · rw [← hmarked.inGot cfg, ← hmarked.inWord cfg sec, ← hmarked.inImage cfg sec]
    unfold scanOne
    simp only [hclassify]
    generalize hsym₁ : (st.sym rel.sym).mark (marks (st.sym rel.sym) rel.type) = sym₁ at hmarked
    have hflags : sym₁.flags = (st.sym rel.sym).flags := by
      rw [← hsym₁, Symbol.mark]
      split <;> rfl
    have hset : Takes rel.sym false false false st (st.setSym rel.sym sym₁) :=
      .of_same (by rw [sym_setSym, hflags]) rfl rfl
    have hcustom := hmarked.customrelocType hzero
    have hlt : sym₁.customrelocType < 2#32 := by
      rw [hcustom]
      split <;> decide
    have hnot : ¬1#32 < sym₁.customrelocType := by
      rw [hcustom]
      split <;> decide
    simp only [hnot, decide_false, Bool.false_and, Bool.false_eq_true, if_false]
    by_cases hoffset : rel.offset = -1#64
    · rw [if_pos hoffset]
      simpa [Linker.inGot, Linker.inWord, Linker.inImage, isAbs, isLive, hoffset] using hset
    · rw [if_neg hoffset]
      split
      · rename_i hexpr
        have herror : Takes rel.sym false false false (st.setSym rel.sym sym₁)
            ((st.setSym rel.sym sym₁).error (.unknownRelocation rel.type rel.sym)) :=
          .of_same rfl rfl rfl
        simpa [Linker.inGot, Linker.inWord, Linker.inImage, isAbs, hexpr] using hset.after herror
      · rename_i hexpr
        simpa [Linker.inGot, Linker.inWord, Linker.inImage, isAbs, hexpr, needsGot] using hset
      · rename_i expr _ hexpr
        have hplain := hmarked.plainFunction hfn
        have hscan := scanExpr_takes cfg sec (st.setSym rel.sym sym₁) hpic
          (by rw [sym_setSym]; exact hplain.isPreemptible) (by rw [sym_setSym]; exact hplain.isFunc)
          (by rw [sym_setSym]; exact hlt) hexpr hoffset
        rw [sym_setSym] at hscan
        exact hset.after hscan

-- A relocation against another symbol.
theorem scanOne_other (cfg : ScanConfig) {s : SymId} (sec : InputSec) (st : ScanState) {rel : Rel} (h : rel.sym ≠ s) :
    (scanOne cfg sec st rel).1.sym s = st.sym s ∧
      Takes s false false false st (scanOne cfg sec st rel).1 := by
  have htouches := scanOne_touches cfg sec st rel
  have hsym : (scanOne cfg sec st rel).1.sym s = st.sym s :=
    (htouches.others s h.symm).trans (if_neg h.symm)
  refine ⟨hsym, ?_, ?_, ?_⟩
  · rw [hsym, Bool.or_false]
  · obtain ⟨new, heq, hnew⟩ := htouches.relaDyn
    have hother : ∀ r ∈ new, r.sym ≠ some s := fun r hr hs =>
      h (Option.some_inj.mp ((hnew r hr).2.symm.trans hs))
    refine ⟨new, heq, iff_of_false ?_ Bool.false_ne_true, fun r hr hs => absurd hs (hother r hr)⟩
    rintro ⟨r, hr, hs, -⟩
    exact hother r hr hs
  · obtain ⟨new, heq, hnew⟩ := htouches.relocs
    refine ⟨new, heq, iff_of_false ?_ Bool.false_ne_true⟩
    rintro ⟨r, hr, hs, -⟩
    exact h ((hnew r hr).symm.trans hs)

-- Some relocation of the list against the symbol is of this kind.
def anyOf (s : SymId) (kind : InputSec → Rel → Bool) (hs : List (InputSec × Rel)) : Bool :=
  hs.any fun h => h.2.sym = s && kind h.1 h.2

theorem scanStep_takes (hpic : cfg.isPic = true) (hfn : PlainFunction sym₀)
    (hzero : sym₀.iscustomreloc = 0#32) {s : SymId} (st : ScanState) (h : InputSec × Rel) {b : Bool}
    (hsym : Marked sym₀ b (st.sym s)) :
    Marked sym₀ (b || (h.2.sym = s && marks sym₀ h.2.type)) ((scanStep cfg st h).sym s) ∧
      Takes s (h.2.sym = s && inGot cfg sym₀ h.2) (h.2.sym = s && inWord cfg h.1 sym₀ h.2)
        (h.2.sym = s && inImage cfg h.1 sym₀ h.2) st (scanStep cfg st h) := by
  by_cases hs : h.2.sym = s
  · subst hs
    simp only [decide_true, Bool.true_and]
    exact scanOne_own hpic hfn hzero h.1 st h.2 hsym
  · obtain ⟨hsame, htakes⟩ := scanOne_other cfg h.1 st hs
    simp only [hs, decide_false, Bool.false_and, Bool.or_false]
    exact ⟨hsame.symm ▸ hsym, htakes⟩

theorem foldl_scanStep_takes (hpic : cfg.isPic = true) (hfn : PlainFunction sym₀)
    (hzero : sym₀.iscustomreloc = 0#32) {s : SymId} (hs : List (InputSec × Rel)) (st : ScanState)
    {b : Bool} (hsym : Marked sym₀ b (st.sym s)) :
    Marked sym₀ (b || anyOf s (fun _ rel => marks sym₀ rel.type) hs)
        ((hs.foldl (scanStep cfg) st).sym s) ∧
      Takes s (anyOf s (fun _ => inGot cfg sym₀) hs) (anyOf s (inWord cfg · sym₀) hs)
        (anyOf s (inImage cfg · sym₀) hs) st (hs.foldl (scanStep cfg) st) := by
  induction hs generalizing st b with
  | nil => exact ⟨by simpa [anyOf] using hsym, .of_same rfl rfl rfl⟩
  | cons h hs ih =>
    obtain ⟨hstep, htakes⟩ := scanStep_takes hpic hfn hzero st h hsym
    obtain ⟨hrun, htakes'⟩ := ih (scanStep cfg st h) hstep
    refine ⟨?_, ?_⟩
    · rw [Bool.or_assoc] at hrun
      exact hrun
    · exact htakes.trans htakes'

-- The scan marks the function if some relocation does, and takes its address as some of them do.
theorem scanRelocations_takes (hpic : cfg.isPic = true) (st : ScanState) (s : SymId)
    (hfn : PlainFunction (st.sym s)) (hzero : (st.sym s).iscustomreloc = 0#32)
    (secs : List (InputSec × List Rel)) :
    Marked (st.sym s) (anyOf s (fun _ rel => marks (st.sym s) rel.type) (handledAll cfg st secs))
        ((scanRelocations cfg st secs).sym s) ∧
      Takes s (anyOf s (fun _ => inGot cfg (st.sym s)) (handledAll cfg st secs))
        (anyOf s (inWord cfg · (st.sym s)) (handledAll cfg st secs))
        (anyOf s (inImage cfg · (st.sym s)) (handledAll cfg st secs)) st
        (scanRelocations cfg st secs) := by
  rw [scanRelocations_eq_foldl]
  exact foldl_scanStep_takes hpic hfn hzero _ st (b := false) ⟨(st.sym s).flags, rfl⟩

end Run

end Platypus.Linker
