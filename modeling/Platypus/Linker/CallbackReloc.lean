import Platypus.Linker.RelaDyn
import Platypus.Linker.ScanFrame

namespace Platypus.Linker

-- A reference in the object file to a variable that it declares and does not define.
structure Extern (sym : Symbol) : Prop where
  type : sym.type = .STT_NOTYPE
  kind : sym.kind = .Undefined
  isWeak : sym.isWeak = false
  isPreemptible : sym.isPreemptible = true
  iscustomreloc : sym.iscustomreloc = 0#32

-- A name with a tag and an offset.
structure WhitelistName (name tag digits : Name) : Prop where
  split : ∃ occ, name = tag ++ '_' :: ('0' :: 'x' :: digits ++ '_' :: occ) ∧
    "1337".toList <:+ occ
  tag : '_' ∉ tag
  nonempty : digits ≠ []
  hex : ∀ c ∈ digits, Text.IsDigit 16 c

-- One that the linker can read.
structure CallbackName (name tag digits : Name) : Prop extends WhitelistName name tag digits where
  bound : Text.ofDigits 16 digits < 0xffffff

-- The symbol after the linker has read its name.
def Symbol.decoded (sym : Symbol) (tag : Name) (offset : Nat) : Symbol :=
  { sym with name := tag, iscustomreloc := BitVec.ofNat 32 (offset * 256 + 4) }

theorem Symbol.customrelocType_decoded (sym : Symbol) (tag : Name) (offset : Nat) :
    (sym.decoded tag offset).customrelocType = 4#32 := and_0xff_packed offset

def offsetOf (digits : Name) : Nat := Text.ofDigits 16 digits

-- The offset as `strtol` returns it.
def readOffset (digits : Name) : Nat := min (offsetOf digits) (2 ^ 63 - 1)

theorem CallbackName.readOffset_eq {name tag digits : Name} (h : CallbackName name tag digits) :
    readOffset digits = offsetOf digits := by
  have hlt : offsetOf digits < 0xffffff := h.bound
  simp only [readOffset]
  omega

-- No text with an underscore before something else than a digit 0 starts such a name.
theorem startsWith_eq_false {sym : Symbol} {tag rest a b : Name} {c : Char} (text : String)
    (hname : sym.name = tag ++ '_' :: '0' :: rest) (htag : '_' ∉ tag)
    (htext : text.toList = a ++ '_' :: c :: b) (ha : '_' ∉ a) (hc : c ≠ '0') :
    sym.startsWith text = false := by
  rw [Symbol.startsWith, Bool.eq_false_iff, Ne, List.isPrefixOf_iff_prefix, hname, htext]
  rintro ⟨r, hr⟩
  rw [List.append_assoc] at hr
  obtain ⟨-, htail⟩ := Text.append_cons_inj_of_first ha htag hr
  exact hc (List.cons.inj htail).1

section Decode

variable {sym : Symbol} {tag digits : Name}

theorem WhitelistName.isCallbackName {name : Name} (h : WhitelistName name tag digits) :
    isCallbackName name = true := by
  obtain ⟨occ, rfl, hocc⟩ := h.split
  have hsuffix : "1337".toList <:+ tag ++ '_' :: ('0' :: 'x' :: digits ++ '_' :: occ) := by
    refine hocc.trans ⟨tag ++ '_' :: ('0' :: 'x' :: digits ++ ['_']), ?_⟩
    simp
  rw [Linker.isCallbackName, Bool.and_eq_true, List.isSuffixOf_iff_suffix]
  exact ⟨hsuffix, by simp⟩

theorem decodeCallback_eq (h : WhitelistName sym.name tag digits) :
    decodeCallback sym = sym.decoded tag (readOffset digits) := by
  obtain ⟨occ, hname, -⟩ := h.split
  have htag : sym.name.takeWhile (· ≠ '_') = tag := by
    rw [hname, Text.takeWhile_ne_append h.tag]
  have hdrop : sym.name.drop (tag.length + 1) = '0' :: 'x' :: digits ++ '_' :: occ := by
    rw [hname, List.drop_length_add_append]
    rfl
  have hmid : '_' ∉ '0' :: 'x' :: digits := by
    simp [Text.underscore_not_mem_of_digits (by decide) h.hex]
  have hword : (BitVec.ofInt 64 (readOffset digits) * 256#64 + 0x4#64).setWidth 32 =
      BitVec.ofNat 32 (readOffset digits * 256 + 4) := by
    rw [BitVec.ofInt_natCast]
    apply BitVec.eq_of_toNat_eq
    simp only [BitVec.toNat_setWidth, BitVec.toNat_add, BitVec.toNat_mul, BitVec.toNat_ofNat]
    omega
  have hread : Text.strtol ('0' :: 'x' :: digits) = readOffset digits :=
    Text.strtol_hex digits h.nonempty h.hex
  rw [decodeCallback, htag, hdrop, Text.takeWhile_ne_append hmid, hread, hword]
  rfl

theorem maskType_callback (type : RelType) (h : WhitelistName sym.name tag digits) :
    maskType sym type = (sym, type) := by
  obtain ⟨occ, hname, -⟩ := h.split
  have hor := startsWith_eq_false "or_mask" hname h.tag (a := "or".toList) rfl (by decide) (by decide)
  have hand := startsWith_eq_false "and_mask" hname h.tag (a := "and".toList) rfl (by decide)
    (by decide)
  have hmain := startsWith_eq_false "__libc_start_main" hname h.tag (a := []) rfl (by decide)
    (by decide)
  rw [maskType, if_neg (by simp [hor]), if_neg (by simp [hand]), if_neg (by simp [hmain])]

theorem classify_callback (hsym : Extern sym) (h : WhitelistName sym.name tag digits) (type : RelType) :
    classify sym type = (sym.decoded tag (readOffset digits), .R_X86_64_CALLBACK_MAYBE) := by
  obtain ⟨occ, hname, -⟩ := h.split
  have htable := startsWith_eq_false "cccallback_table" hname h.tag (a := "cccallback".toList) rfl
    (by decide) (by decide)
  have hfunc : sym.isFunc = false := by simp [Symbol.isFunc, hsym.type]
  have hlow : sym.iscustomreloc < 0x100#32 := by
    rw [hsym.iscustomreloc]
    decide
  rw [classify, maskType_callback type h]
  dsimp only
  rw [customType, if_neg (by simp [htable]), if_neg (by simp [hfunc]), if_pos h.isCallbackName,
    if_pos hlow, decodeCallback_eq h]

end Decode

section Word

variable (cfg : ScanConfig) (sec : InputSec)

-- The reference of a table slot: `.rela.dyn` gets a relocation against the symbol.
theorem processAux_callback (st : ScanState) (rel : Rel) (hwrite : sec.isWrite = true)
    (htype : (st.sym rel.sym).type = .STT_NOTYPE) (hweak : (st.sym rel.sym).isWeak = false)
    (hpre : (st.sym rel.sym).isPreemptible = true) :
    processAux cfg sec st rel .R_ABS .R_X86_64_CALLBACK_MAYBE =
      addSymbolReloc sec st rel .R_X86_64_CALLBACK_MAYBE := by
  have hifunc : (st.sym rel.sym).isGnuIFunc = false := by simp [Symbol.isGnuIFunc, htype]
  have hundef : (st.sym rel.sym).isUndefWeak = false := by simp [Symbol.isUndefWeak, hweak]
  have hadjust : adjustExpr cfg sec (st.sym rel.sym) rel .R_ABS .R_X86_64_CALLBACK_MAYBE = .R_ABS := by
    simp [adjustExpr, hpre]
  have hnote : noteFlags st rel.sym .R_ABS = st := by simp [noteFlags, needsGot, needsPlt, hifunc]
  have habs : refersToAbsolute cfg rel.sym (st.sym rel.sym) .R_ABS = false := by
    simp [refersToAbsolute, hpre]
  have hstatic : isStaticLinkTimeConstant cfg (st.sym rel.sym) .R_ABS = false := by
    simp [isStaticLinkTimeConstant, hpre]
  have hdyn : processDynamic cfg sec st rel .R_ABS .R_X86_64_CALLBACK_MAYBE =
      addSymbolReloc sec st rel .R_X86_64_CALLBACK_MAYBE := by
    simp [processDynamic, getDynRel, hwrite]
  unfold processAux
  simp [hadjust, hifunc, hnote, habs, hstatic, hundef, hdyn]

theorem scanExpr_callback (st : ScanState) (rel : Rel) (hwrite : sec.isWrite = true)
    (htype : (st.sym rel.sym).type = .STT_NOTYPE) (hweak : (st.sym rel.sym).isWeak = false)
    (hpre : (st.sym rel.sym).isPreemptible = true)
    (hcustom : (st.sym rel.sym).customrelocType = 4#32) :
    scanExpr cfg sec st rel .R_ABS .R_X86_64_CALLBACK_MAYBE =
      (addSymbolReloc sec st rel .R_X86_64_CALLBACK_MAYBE, 1) := by
  have hundef : reportUndefined cfg st rel = (st, false) := by simp [reportUndefined, hcustom]
  have hgotplt : noteGotPlt st .R_ABS = st := by simp [noteGotPlt]
  have htls : (st.sym rel.sym).isTls = false := by simp [Symbol.isTls, htype]
  unfold scanExpr
  simp [hundef, hgotplt, htls, processAux_callback cfg sec st rel hwrite htype hweak hpre]

theorem scanOne_callback (st : ScanState) (rel : Rel) {tag digits : Name}
    (hwrite : sec.isWrite = true) (hoffset : rel.offset ≠ -1#64) (hsym : Extern (st.sym rel.sym))
    (hname : WhitelistName (st.sym rel.sym).name tag digits) :
    scanOne cfg sec st rel =
      (addSymbolReloc sec
        (st.setSym rel.sym ((st.sym rel.sym).decoded tag (readOffset digits))) rel
        .R_X86_64_CALLBACK_MAYBE, 1) := by
  generalize hdec : (st.sym rel.sym).decoded tag (readOffset digits) = sym
  have hcustom : sym.customrelocType = 4#32 := hdec ▸ Symbol.customrelocType_decoded _ _ _
  have hself : (st.setSym rel.sym sym).sym rel.sym = sym := if_pos rfl
  have hscan := scanExpr_callback cfg sec (st.setSym rel.sym sym) rel hwrite
    (by rw [hself, ← hdec]; exact hsym.type) (by rw [hself, ← hdec]; exact hsym.isWeak)
    (by rw [hself, ← hdec]; exact hsym.isPreemptible) (hself.symm ▸ hcustom)
  unfold scanOne
  rw [classify_callback hsym hname, hdec]
  simp only [if_neg hoffset, getRelExpr, hcustom]
  exact hscan

-- A relocation of a whole word is handled alone: the linker skips only after TLS sequences.

theorem getRelExpr_maskType (sym : Symbol) (type : RelType) (h : getRelExpr type = some .R_ABS) :
    getRelExpr (maskType sym type).2 = some .R_ABS := by
  unfold maskType
  split_ifs
  · rfl
  · rfl
  · exact h
  · exact h

theorem getRelExpr_customType (sym : Symbol) (type : RelType) (h : getRelExpr type = some .R_ABS) :
    getRelExpr (customType sym type).2 = some .R_ABS := by
  unfold customType
  split_ifs <;> first | exact h | rfl

theorem getRelExpr_classify_word (sym : Symbol) :
    getRelExpr (classify sym .R_X86_64_64).2 = some .R_ABS :=
  getRelExpr_customType _ _ (getRelExpr_maskType sym .R_X86_64_64 rfl)

theorem handleTlsRelocation_word (st : ScanState) (rel : Rel) (expr : RelExpr) (type : RelType)
    (h : expr = .R_ABS ∨ expr = .R_GOT_PC) :
    (handleTlsRelocation cfg sec st rel expr type).2 ≤ 1 := by
  rcases h with rfl | rfl
  · simp [handleTlsRelocation]
  · simp only [handleTlsRelocation]
    split_ifs <;> simp_all

theorem scanExpr_word (st : ScanState) (rel : Rel) (expr : RelExpr) (type : RelType)
    (h : expr = .R_ABS ∨ expr = .R_GOT_PC) : (scanExpr cfg sec st rel expr type).2 = 1 := by
  unfold scanExpr
  generalize reportUndefined cfg st rel = p
  obtain ⟨st₁, failed⟩ := p
  dsimp only
  split
  · rfl
  have htls : (if ((noteGotPlt st₁ expr).sym rel.sym).isTls ||
      expr ∈ [.R_TLSDESC_PC, .R_TLSDESC_CALL] then
      handleTlsRelocation cfg sec (noteGotPlt st₁ expr) rel expr type
      else (noteGotPlt st₁ expr, 0)).2 ≤ 1 := by
    split
    · exact handleTlsRelocation_word cfg sec _ rel expr type h
    · exact Nat.zero_le _
  generalize (if ((noteGotPlt st₁ expr).sym rel.sym).isTls ||
    expr ∈ [.R_TLSDESC_PC, .R_TLSDESC_CALL] then
    handleTlsRelocation cfg sec (noteGotPlt st₁ expr) rel expr type
    else (noteGotPlt st₁ expr, 0)) = q at htls ⊢
  split
  · exact Nat.le_antisymm htls (Nat.pos_of_ne_zero ‹_›)
  · rfl

theorem scanOne_word (st : ScanState) (rel : Rel) (h : rel.type = .R_X86_64_64) :
    (scanOne cfg sec st rel).2 = 1 := by
  have hexpr := getRelExpr_classify_word (st.sym rel.sym)
  unfold scanOne
  rw [h]
  generalize classify (st.sym rel.sym) .R_X86_64_64 = p at hexpr ⊢
  obtain ⟨sym, type⟩ := p
  dsimp only at hexpr ⊢
  split
  · rfl
  rw [hexpr]
  refine scanExpr_word cfg sec _ rel _ type ?_
  split
  · exact .inr rfl
  · exact .inl rfl

theorem scan_append_of_words (st : ScanState) (rels rels' : List Rel)
    (h : ∀ rel ∈ rels, rel.type = .R_X86_64_64) :
    scan cfg sec 0 st (rels ++ rels') = scan cfg sec 0 (scan cfg sec 0 st rels) rels' := by
  induction rels generalizing st with
  | nil => rfl
  | cons rel rels ih =>
    have hone := scanOne_word cfg sec st rel (h rel List.mem_cons_self)
    simp only [List.cons_append, scan, hone]
    exact ih _ fun r hr => h r (List.mem_cons_of_mem _ hr)

end Word

-- The only reference to a symbol in a link, from a word of a section of words such as a table.
structure OnlyReference (secs : List (InputSec × List Rel)) (sec : InputSec) (rel : Rel) : Prop where
  split : ∃ before after rels rels', secs = before ++ (sec, rels ++ rel :: rels') :: after ∧
    (∀ p ∈ before ++ after, ∀ r ∈ p.2, r.sym ≠ rel.sym) ∧
    (∀ r ∈ rels ++ rels', r.sym ≠ rel.sym ∧ r.type = .R_X86_64_64)
  isWrite : sec.isWrite = true
  offset : rel.offset ≠ -1#64

def callbackReloc (sec : InputSec) (rel : Rel) : DynamicReloc :=
  ⟨.R_X86_64_CALLBACK_MAYBE, sec.id, rel.offset, .AgainstSymbol, some rel.sym, rel.addend,
    .R_ADDEND⟩

theorem scanRelocations_callback (cfg : ScanConfig) (st : ScanState)
    (secs : List (InputSec × List Rel)) (sec : InputSec) (rel : Rel) {tag digits : Name}
    (honly : OnlyReference secs sec rel) (hsym : Extern (st.sym rel.sym))
    (hname : WhitelistName (st.sym rel.sym).name tag digits) :
    (scanRelocations cfg st secs).sym rel.sym =
        (st.sym rel.sym).decoded tag (readOffset digits) ∧
      callbackReloc sec rel ∈ (scanRelocations cfg st secs).ctx.relaDyn := by
  obtain ⟨before, after, rels, rels', rfl, hsecs, hrels⟩ := honly.split
  have hbefore := scanRelocations_keeps cfg st rel.sym before fun p hp =>
    hsecs p (List.mem_append_left _ hp)
  generalize hst₁ : scanRelocations cfg st before = st₁ at hbefore
  have hrels₁ := scan_keeps cfg sec st₁ rel.sym 0 rels fun r hr =>
    (hrels r (List.mem_append_left _ hr)).1
  generalize hst₂ : scan cfg sec 0 st₁ rels = st₂ at hrels₁
  -- up to here nothing has touched the symbol
  have hkept : st₂.sym rel.sym = st.sym rel.sym := hrels₁.sym.trans hbefore.sym
  have hone := scanOne_callback cfg sec st₂ rel honly.isWrite honly.offset (hkept ▸ hsym)
    (hkept ▸ hname)
  rw [hkept] at hone
  generalize hst₃ : addSymbolReloc sec (st₂.setSym rel.sym
    ((st.sym rel.sym).decoded tag (readOffset digits))) rel .R_X86_64_CALLBACK_MAYBE = st₃ at hone
  have hrels₂ := scan_keeps cfg sec st₃ rel.sym 0 rels' fun r hr =>
    (hrels r (List.mem_append_right _ hr)).1
  have hafter := hrels₂.trans (scanRelocations_keeps cfg _ rel.sym after fun p hp =>
    hsecs p (List.mem_append_right _ hp))
  have hfinal : scanRelocations cfg st (before ++ (sec, rels ++ rel :: rels') :: after) =
      scanRelocations cfg (scan cfg sec 0 st₃ rels') after := by
    rw [scanRelocations, List.foldl_append, List.foldl_cons]
    change scanRelocations cfg (scan cfg sec 0 (scanRelocations cfg st before) _) after = _
    rw [hst₁, scan_append_of_words cfg sec st₁ rels _ fun r hr =>
      (hrels r (List.mem_append_left _ hr)).2, hst₂, scan, hone]
  rw [hfinal]
  have hsym₃ : st₃.sym rel.sym = (st.sym rel.sym).decoded tag (readOffset digits) := by
    rw [← hst₃]
    exact if_pos rfl
  have hmem₃ : callbackReloc sec rel ∈ st₃.ctx.relaDyn := by
    rw [← hst₃]
    exact List.mem_append_right _ (List.mem_singleton_self _)
  exact ⟨hafter.sym.trans hsym₃, hafter.relaDyn.subset hmem₃⟩

theorem startsWith_eq_false_of_underscore {sym : Symbol} (text : String) (hname : '_' ∉ sym.name)
    (htext : '_' ∈ text.toList) : sym.startsWith text = false := by
  rw [Symbol.startsWith, Bool.eq_false_iff, Ne, List.isPrefixOf_iff_prefix]
  exact fun h => hname (h.subset htext)

-- The relocation as the linker writes it.
theorem computeRaw_callback (cfg : Config) (c : Ctx) (sec : InputSec) (rel : Rel) (sym : Symbol)
    {name tag digits : Name} (hname : WhitelistName name tag digits)
    (hsym : c.syms rel.sym = sym.decoded tag (readOffset digits)) :
    computeRaw cfg c (callbackReloc sec rel) = some
      ⟨cfg.va sec.id + rel.offset, .R_X86_64_CALLBACK_MAYBE, some rel.sym,
        (readOffset digits % 2 ^ 24 : Nat)⟩ := by
  have hcustom : (c.syms rel.sym).customrelocType = 4#32 :=
    hsym ▸ sym.customrelocType_decoded tag (readOffset digits)
  have hfake : (c.syms rel.sym).isFake = false := by
    rw [Symbol.isFake, hcustom]
    rfl
  have htag : '_' ∉ (c.syms rel.sym).name := by
    rw [hsym]
    exact hname.tag
  have hoffset : (((c.syms rel.sym).iscustomreloc &&& 0xffffff00#32) >>> 8).toNat =
      readOffset digits % 2 ^ 24 := by
    rw [hsym]
    exact offset_packed _
  have hindex : getSymIndex c (callbackReloc sec rel) = some rel.sym := by
    simp [getSymIndex, callbackReloc, startsWith_eq_false_of_underscore "or_mask" htag (by decide),
      startsWith_eq_false_of_underscore "and_mask" htag (by decide)]
  unfold computeRaw
  rw [hindex]
  simp [callbackReloc, hfake, hcustom, hoffset]

end Platypus.Linker
