import Platypus.Bytes.Buffer
import Platypus.Loader.Rela
import Platypus.Parser.Tagged
import Platypus.Text.Fields

-- The script `create_tables.py`, which lists the functions of `.init_array` and `.fini_array`.

namespace Platypus.Parser.CreateTables

open Bytes Text
open Linker (RelType)

inductive ElfClass
  | ELF32
  | ELF64
  deriving DecidableEq, Repr

def getPtrSize : ElfClass → Nat
  | .ELF32 => 4
  | .ELF64 => 8

structure Section where
  name : Name
  vma : Nat
  size : Nat
  fileoff : Nat

-- The texts that the script looks for.

def relativePhrase : Name := "RELATIVE".toList

def initArray : Name := ".init_array".toList

def finiArray : Name := ".fini_array".toList

def initSection : Name := ".init".toList

def finiSection : Name := ".fini".toList

-- The types that `"RELATIVE" in columns[2]` finds.
def isRelative : RelType → Bool
  | .R_X86_64_RELATIVE | .R_X86_64_IRELATIVE => true
  | _ => false

-- A relocation of the file. The addend of a `Rel` or `Relr` one is what the slot holds.
structure Reloc where
  r_offset : Nat
  r_type : RelType
  sym : Option Name
  r_addend : Option Nat
  unnamed : isRelative r_type = true → sym = none

structure Elf where
  cls : ElfClass
  sections : List Section
  content : List Byte
  relocs : List Reloc
  addends : ∀ r ∈ relocs, ∀ a, r.r_addend = some a → a < 256 ^ getPtrSize cls

-- `re.match(r'[0-9a-fA-F]{8,16}', s)`
def startsWithAddress (s : Name) : Bool := 8 ≤ (s.takeWhile fun c => decide (IsDigit 16 c)).length

-- The row that `llvm-readelf -rW` prints for a relocation: its address first, its type third, and
-- where there is no symbol the addend, if there is one, alone at the end.
structure Readelf where
  columns : Reloc → List Name
  address : ∀ r, ∃ c, (columns r).head? = some c ∧ startsWithAddress c = true ∧
    intBase16 c = some r.r_offset
  type : ∀ r, ∃ c, (columns r)[2]? = some c ∧ contains c relativePhrase = isRelative r.r_type
  implicit : ∀ r, r.sym = none → r.r_addend = none → (columns r).length = 3
  explicit : ∀ r a, r.sym = none → r.r_addend = some a →
    4 ≤ (columns r).length ∧ intBase16 ((columns r).getLastD []) = some a

def parseSectionInfo (elf : Elf) (secname : Name) : Option Section :=
  elf.sections.find? fun s => s.name = secname

-- `none` is a `ValueError`.
def relocLine (relocs : Dict Nat (List Name)) (columns : List Name) :
    Option (Dict Nat (List Name)) :=
  match columns.head? with
  | none => some relocs
  | some c =>
    if startsWithAddress c then (intBase16 c).map fun addr => relocs.set addr columns
    else some relocs

def getRelocMap (lines : List (List Name)) : Option (Dict Nat (List Name)) :=
  State.trace relocLine .empty lines

-- `int.from_bytes(chunk, "little")`
def fromBytes (chunk : List Byte) : Nat := Nat.ofDigits 256 (chunk.map BitVec.toNat)

def readArrayEntries (elf : Elf) (fileoff nentries ptr_size : Nat) : List Nat :=
  let data := (elf.content.drop fileoff).take (nentries * ptr_size)
  (List.range nentries).map fun i => fromBytes ((data.drop (i * ptr_size)).take ptr_size)

def dedupPreserveOrder (seq : List Nat) : List Nat :=
  seq.foldl (fun out item => if item ∈ out then out else out ++ [item]) []

-- What a row adds. `none` is an `IndexError` or a `ValueError`.
def relocStuff (columns : List Name) : Option (List Nat) := do
  let type ← columns[2]?
  if contains type relativePhrase ∧ 4 ≤ columns.length then
    (intBase16 (columns.getLastD [])).map ([·])
  else some []

-- What a slot adds.
def slotStuff (reloc_map : Dict Nat (List Name)) (entry_addr addr : Nat) : Option (List Nat) := do
  let function_addr ←
    match reloc_map.get? entry_addr with
    | none => some []
    | some columns => relocStuff columns
  return function_addr ++ if addr ≠ 0 then [addr] else []

-- The loops over `.init_array` and `.fini_array` are the same.
def arrayStuff (elf : Elf) (reloc_map : Dict Nat (List Name)) (sec : Name) : Option (List Nat) :=
  match parseSectionInfo elf sec with
  | none => some []
  | some s =>
    let ptr_size := getPtrSize elf.cls
    let nentries := s.size / ptr_size
    let file_addrs := readArrayEntries elf s.fileoff nentries ptr_size
    ((List.range nentries).mapM fun i =>
      slotStuff reloc_map (s.vma + i * ptr_size) (file_addrs.getD i 0)).map List.flatten

def sectionStuff (elf : Elf) (sec : Name) : List Nat :=
  ((parseSectionInfo elf sec).map Section.vma).toList

def tagged (tag : Name) (addrs : List Nat) : List Entry :=
  (dedupPreserveOrder addrs).map fun addr => entry tag (hex addr)

def main (rd : Readelf) (elf : Elf) (tag : Name) : Option (List Entry × List Entry) := do
  let reloc_map ← getRelocMap (elf.relocs.map rd.columns)
  let init_array ← arrayStuff elf reloc_map initArray
  let fini_array ← arrayStuff elf reloc_map finiArray
  return (tagged tag (init_array ++ sectionStuff elf initSection),
    tagged tag (fini_array ++ sectionStuff elf finiSection))

theorem mem_dedupPreserveOrder (seq : List Nat) (x : Nat) :
    x ∈ dedupPreserveOrder seq ↔ x ∈ seq := by
  have hfold (out : List Nat) : x ∈ seq.foldl (fun out item => if item ∈ out then out
      else out ++ [item]) out ↔ x ∈ out ∨ x ∈ seq := by
    induction seq generalizing out with
    | nil => simp
    | cons item seq ih =>
      rw [List.foldl_cons, ih, List.mem_cons]
      by_cases hmem : item ∈ out
      · rw [if_pos hmem]
        constructor
        · exact fun h => h.imp_right .inr
        · rintro (h | rfl | h)
          · exact .inl h
          · exact .inl hmem
          · exact .inr h
      · rw [if_neg hmem, List.mem_append, List.mem_singleton, or_assoc]
  exact (hfold []).trans (or_iff_right List.not_mem_nil)

theorem nodup_dedupPreserveOrder (seq : List Nat) : (dedupPreserveOrder seq).Nodup := by
  have hfold (out : List Nat) (hout : out.Nodup) :
      (seq.foldl (fun out item => if item ∈ out then out else out ++ [item]) out).Nodup := by
    induction seq generalizing out with
    | nil => exact hout
    | cons item seq ih =>
      rw [List.foldl_cons]
      by_cases hmem : item ∈ out
      · rw [if_pos hmem]
        exact ih out hout
      · rw [if_neg hmem]
        refine ih _ (List.nodup_append.mpr ⟨hout, List.nodup_singleton item, ?_⟩)
        intro x hx y hy
        rw [List.mem_singleton.mp hy]
        rintro rfl
        exact hmem hx
  exact hfold [] List.nodup_nil

theorem mem_tagged (tag : Name) (addrs : List Nat) (e : Entry) :
    e ∈ tagged tag addrs ↔ ∃ a ∈ addrs, e = entry tag (hex a) := by
  simp only [tagged, List.mem_map, mem_dedupPreserveOrder, eq_comm]

theorem entry_hex_inj {tag : Name} {a b : Nat} (h : entry tag (hex a) = entry tag (hex b)) : a = b :=
  hex_inj (entry_inj h).2

theorem nodup_tagged (tag : Name) (addrs : List Nat) : (tagged tag addrs).Nodup :=
  (nodup_dedupPreserveOrder addrs).map fun _ _ h => entry_hex_inj h

-- The relocation that fills an address: a later one overwrites what an earlier one stored.
def filledBy (relocs : List Reloc) (addr : Nat) : Option Reloc :=
  (relocs.filter fun r => r.r_offset = addr).getLast?

theorem filledBy_cons (r : Reloc) (relocs : List Reloc) (addr : Nat) :
    filledBy (r :: relocs) addr =
      (filledBy relocs addr).or (if r.r_offset = addr then some r else none) := by
  unfold filledBy
  by_cases h : r.r_offset = addr
  · rw [List.filter_cons_of_pos (by simpa using h), List.getLast?_cons, if_pos h]
    cases (relocs.filter fun r => r.r_offset = addr).getLast? <;> rfl
  · rw [List.filter_cons_of_neg (by simpa using h), if_neg h, Option.or_none]

theorem relocLine_columns (rd : Readelf) (d : Dict Nat (List Name)) (r : Reloc) :
    relocLine d (rd.columns r) = some (d.set r.r_offset (rd.columns r)) := by
  obtain ⟨c, hhead, hstart, hint⟩ := rd.address r
  simp [relocLine, hhead, hstart, hint]

theorem trace_relocLine (rd : Readelf) (relocs : List Reloc) (d : Dict Nat (List Name)) :
    ∃ d', State.trace relocLine d (relocs.map rd.columns) = some d' ∧
      ∀ addr, d'.get? addr = ((filledBy relocs addr).map rd.columns).or (d.get? addr) := by
  induction relocs generalizing d with
  | nil => exact ⟨d, rfl, fun _ => rfl⟩
  | cons r relocs ih =>
    obtain ⟨d', htrace, hget⟩ := ih (d.set r.r_offset (rd.columns r))
    refine ⟨d', ?_, fun addr => ?_⟩
    · rw [List.map_cons, State.trace, relocLine_columns]
      exact htrace
    · rw [hget, filledBy_cons]
      by_cases h : r.r_offset = addr
      · subst h
        cases filledBy relocs r.r_offset <;> simp
      · rw [d.get?_set_of_ne _ (Ne.symm h), if_neg h, Option.or_none]

theorem getRelocMap_columns (rd : Readelf) (relocs : List Reloc) :
    ∃ d, getRelocMap (relocs.map rd.columns) = some d ∧
      ∀ addr, d.get? addr = (filledBy relocs addr).map rd.columns := by
  obtain ⟨d, htrace, hget⟩ := trace_relocLine rd relocs .empty
  exact ⟨d, htrace, fun addr => (hget addr).trans (Option.or_none)⟩

-- A slot of an array: the relocation that fills it, and what the file has there.
structure Slot where
  reloc : Option Reloc
  bytes : Nat

def slots (elf : Elf) (sec : Name) : List Slot :=
  match parseSectionInfo elf sec with
  | none => []
  | some s =>
    let ptr_size := getPtrSize elf.cls
    let nentries := s.size / ptr_size
    (List.range nentries).map fun i =>
      ⟨filledBy elf.relocs (s.vma + i * ptr_size),
        (readArrayEntries elf s.fileoff nentries ptr_size).getD i 0⟩

-- The addend that the script takes for a function.
def Slot.addend (s : Slot) : Option Nat :=
  s.reloc.bind fun r => if isRelative r.r_type then r.r_addend else none

def Slot.listed (s : Slot) : List Nat := s.addend.toList ++ if s.bytes ≠ 0 then [s.bytes] else []

theorem relocStuff_columns (rd : Readelf) (r : Reloc) :
    relocStuff (rd.columns r) =
      some (if isRelative r.r_type then r.r_addend else none).toList := by
  obtain ⟨c, hc, htype⟩ := rd.type r
  rw [relocStuff, hc, Option.bind_eq_bind, Option.bind_some, htype]
  cases hrel : isRelative r.r_type with
  | false => rfl
  | true =>
    have hsym := r.unnamed hrel
    cases ha : r.r_addend with
    | none =>
      rw [if_neg (by rw [rd.implicit r hsym ha]; decide)]
      rfl
    | some a =>
      obtain ⟨hlen, hint⟩ := rd.explicit r a hsym ha
      rw [if_pos ⟨rfl, hlen⟩, hint]
      rfl

theorem slotStuff_eq (rd : Readelf) {d : Dict Nat (List Name)} {addr : Nat} {s : Slot}
    (hget : d.get? addr = s.reloc.map rd.columns) :
    slotStuff d addr s.bytes = some s.listed := by
  cases hr : s.reloc with
  | none => simp [slotStuff, hget, hr, Slot.listed, Slot.addend]
  | some r => simp [slotStuff, hget, hr, relocStuff_columns, Slot.listed, Slot.addend]

theorem mapM_eq_some {α β : Type} {f : α → Option β} {g : α → β} {xs : List α}
    (h : ∀ x ∈ xs, f x = some (g x)) : xs.mapM f = some (xs.map g) := by
  induction xs with
  | nil => rfl
  | cons x xs ih =>
    rw [List.mapM_cons, h x List.mem_cons_self, ih fun y hy => h y (List.mem_cons_of_mem x hy)]
    rfl

theorem arrayStuff_eq (rd : Readelf) (elf : Elf) {d : Dict Nat (List Name)} (sec : Name)
    (hget : ∀ addr, d.get? addr = (filledBy elf.relocs addr).map rd.columns) :
    arrayStuff elf d sec = some ((slots elf sec).flatMap Slot.listed) := by
  unfold arrayStuff slots
  cases parseSectionInfo elf sec with
  | none => rfl
  | some s =>
    dsimp only
    rw [mapM_eq_some fun i _ => slotStuff_eq rd (s := ⟨filledBy elf.relocs _, _⟩) (hget _)]
    rw [Option.map_some, List.flatMap_map]
    rfl

theorem main_eq (rd : Readelf) (elf : Elf) (tag : Name) :
    main rd elf tag = some
      (tagged tag ((slots elf initArray).flatMap Slot.listed ++ sectionStuff elf initSection),
        tagged tag ((slots elf finiArray).flatMap Slot.listed ++ sectionStuff elf finiSection)) := by
  obtain ⟨d, hmap, hget⟩ := getRelocMap_columns rd elf.relocs
  simp only [main, hmap, arrayStuff_eq rd elf _ hget, Option.bind_eq_bind, Option.bind_some]
  rfl

-- The module in memory: where it starts, which of its addresses are mapped, and what the loader
-- stores for a relocation into a slot that held a value.
structure Image (elf : Elf) where
  base : Nat
  first : Nat
  last : Nat
  top : base + last ≤ 256 ^ getPtrSize elf.cls
  store : Reloc → Nat → Nat
  relative : ∀ r v, r.r_type = .R_X86_64_RELATIVE →
    store r v = (base + r.r_addend.getD v) % 256 ^ getPtrSize elf.cls

section Target

variable {elf : Elf} (im : Image elf)

def Image.Inside (a : Nat) : Prop := im.first ≤ a ∧ a < im.last

instance (a : Nat) : Decidable (im.Inside a) := inferInstanceAs (Decidable (_ ∧ _))

-- The offset of an address that lies in the module.
def Image.offset (value : Nat) : Option Nat :=
  if im.base ≤ value ∧ im.Inside (value - im.base) then some (value - im.base) else none

def Slot.value (s : Slot) : Nat :=
  match s.reloc with
  | none => s.bytes
  | some r => im.store r s.bytes

-- The run-time target of a slot, if it lies in the module.
def Slot.target (s : Slot) : Option Nat := im.offset (s.value im)

-- The list is what it is for.
structure Lists (tag : Name) (slots : List Slot) (sec : List Nat) (out : List Entry) : Prop where
  mem : ∀ e, e ∈ out ↔
    (∃ s ∈ slots, ∃ t, s.target im = some t ∧ e = entry tag (hex t)) ∨
      ∃ a ∈ sec, e = entry tag (hex a)
  nodup : out.Nodup

-- The address in a slot is the one that the file gives, plus the base.
def Slot.Direct (s : Slot) : Prop :=
  match s.reloc with
  | none => im.base = 0 ∧ s.bytes ≠ 0
  | some r => r.r_type = .R_X86_64_RELATIVE ∧ (r.r_addend = none → s.bytes ≠ 0)

-- What the file has in the slot is not used.
def Slot.Overwritten (s : Slot) : Prop :=
  match s.reloc with
  | none => im.base ≠ 0
  | some r => ¬ (r.r_type = .R_X86_64_RELATIVE ∧ r.r_addend = none)

-- A target that no `RELATIVE` relocation stores, an overwritten word and the resolver of an
-- `IRELATIVE` relocation do no harm only where another slot makes up for them.
structure Accurate (slots : List Slot) (sec : List Nat) : Prop where
  missed : ∀ s ∈ slots, ¬ s.Direct im → ∀ t, s.target im = some t →
    t ∈ sec ∨ ∃ s' ∈ slots, s'.addend = some t ∨ s'.bytes = t ∧ t ≠ 0
  stale : ∀ s ∈ slots, s.bytes ≠ 0 → s.Overwritten im ∨ ¬ im.Inside s.bytes →
    s.bytes ∈ sec ∨ ∃ s' ∈ slots, s'.target im = some s.bytes
  resolver : ∀ s ∈ slots, ∀ r a, s.reloc = some r → s.addend = some a →
    r.r_type = .R_X86_64_IRELATIVE ∨ ¬ im.Inside a →
      a ∈ sec ∨ ∃ s' ∈ slots, s'.target im = some a

-- The words of the file and the addends are below the modulus of the addresses.

structure Slot.Bounded (elf : Elf) (s : Slot) : Prop where
  bytes : s.bytes < 256 ^ getPtrSize elf.cls
  addend : ∀ r a, s.reloc = some r → r.r_addend = some a → a < 256 ^ getPtrSize elf.cls

theorem fromBytes_lt {chunk : List Byte} {n : Nat} (h : chunk.length ≤ n) :
    fromBytes chunk < 256 ^ n := by
  have hdigits : ∀ d ∈ chunk.map BitVec.toNat, d < 256 := by
    intro d hd
    obtain ⟨b, -, rfl⟩ := List.mem_map.mp hd
    exact b.isLt
  have hlt := Nat.ofDigits_lt_base_pow_length (by decide : 1 < 256) hdigits
  rw [List.length_map] at hlt
  exact hlt.trans_le (Nat.pow_le_pow_right (by decide) h)

theorem mem_of_filledBy {relocs : List Reloc} {addr : Nat} {r : Reloc}
    (h : filledBy relocs addr = some r) : r ∈ relocs :=
  List.mem_of_mem_filter (List.mem_of_getLast? h)

theorem bounded_of_mem_slots {sec : Name} {s : Slot} (h : s ∈ slots elf sec) : s.Bounded elf := by
  unfold slots at h
  cases hsec : parseSectionInfo elf sec with
  | none => simp [hsec] at h
  | some i =>
    rw [hsec] at h
    obtain ⟨k, hk, rfl⟩ := List.mem_map.mp h
    refine ⟨?_, fun r a hr ha => elf.addends r (mem_of_filledBy hr) a ha⟩
    have hlen := List.mem_range.mp hk
    simp only [readArrayEntries, List.getD_eq_getElem?_getD, List.getElem?_map,
      List.getElem?_range hlen, Option.map_some, Option.getD_some]
    exact fromBytes_lt (List.length_take_le _ _)

theorem offset_add (a : Nat) (ha : a < 256 ^ getPtrSize elf.cls) :
    im.offset ((im.base + a) % 256 ^ getPtrSize elf.cls) =
      if im.Inside a then some a else none := by
  have htop := im.top
  generalize 256 ^ getPtrSize elf.cls = modulus at *
  unfold Image.offset
  by_cases hwrap : im.base + a < modulus
  · rw [Nat.mod_eq_of_lt hwrap, Nat.add_sub_cancel_left]
    simp
  · -- the sum wraps around and ends below the base
    have hvalue : (im.base + a) % modulus = im.base + a - modulus := by
      rw [Nat.mod_eq_sub_mod (by omega), Nat.mod_eq_of_lt (by omega)]
    have hin : ¬ im.Inside a := by
      rintro ⟨-, hlast⟩
      omega
    rw [hvalue, if_neg hin, if_neg]
    rintro ⟨hbase, -⟩
    omega

variable {im} {s : Slot}

theorem mem_listed {x : Nat} : x ∈ s.listed ↔ s.addend = some x ∨ s.bytes = x ∧ x ≠ 0 := by
  unfold Slot.listed
  by_cases h : s.bytes = 0
  · simp only [h, ne_eq, not_true, if_false, List.append_nil, Option.mem_toList]
    exact ⟨.inl, fun hx => hx.resolve_right fun hx => hx.2 hx.1.symm⟩
  · simp only [ne_eq, h, not_false_iff, if_true, List.mem_append, Option.mem_toList,
      List.mem_singleton]
    refine or_congr_right ⟨?_, fun hx => hx.1.symm⟩
    rintro rfl
    exact ⟨rfl, h⟩

theorem target_relative (hs : s.Bounded elf) {r : Reloc} (hr : s.reloc = some r)
    (htype : r.r_type = .R_X86_64_RELATIVE) :
    s.target im = if im.Inside (r.r_addend.getD s.bytes) then some (r.r_addend.getD s.bytes)
      else none := by
  have hlt : r.r_addend.getD s.bytes < 256 ^ getPtrSize elf.cls := by
    cases ha : r.r_addend with
    | none => exact hs.bytes
    | some a => exact hs.addend r a hr ha
  rw [Slot.target, Slot.value, hr]
  dsimp only
  rw [im.relative r _ htype, offset_add im _ hlt]

theorem target_fixed (hr : s.reloc = none) (hbase : im.base = 0) :
    s.target im = if im.Inside s.bytes then some s.bytes else none := by
  simp [Slot.target, Slot.value, hr, Image.offset, hbase]

theorem mem_listed_of_direct (hs : s.Bounded elf) (hdirect : s.Direct im) {t : Nat}
    (ht : s.target im = some t) : t ∈ s.listed := by
  rw [mem_listed]
  cases hr : s.reloc with
  | none =>
    rw [Slot.Direct, hr] at hdirect
    rw [target_fixed hr hdirect.1] at ht
    obtain ⟨-, ht⟩ := Option.ite_none_right_eq_some.mp ht
    cases ht
    exact .inr ⟨rfl, hdirect.2⟩
  | some r =>
    rw [Slot.Direct, hr] at hdirect
    rw [target_relative hs hr hdirect.1] at ht
    obtain ⟨-, ht⟩ := Option.ite_none_right_eq_some.mp ht
    cases ht
    cases ha : r.r_addend with
    | none => exact .inr ⟨rfl, hdirect.2 ha⟩
    | some a =>
      refine .inl ?_
      simp [Slot.addend, hr, ha, hdirect.1, isRelative]

theorem target_of_used (hs : s.Bounded elf) (hused : ¬ s.Overwritten im)
    (hin : im.Inside s.bytes) : s.target im = some s.bytes := by
  cases hr : s.reloc with
  | none =>
    rw [Slot.Overwritten, hr, not_not] at hused
    rw [target_fixed hr hused, if_pos hin]
  | some r =>
    rw [Slot.Overwritten, hr, not_not] at hused
    rw [target_relative hs hr hused.1, hused.2, Option.getD_none, if_pos hin]

theorem target_of_addend (hs : s.Bounded elf) {r : Reloc} {a : Nat} (hr : s.reloc = some r)
    (ha : s.addend = some a) (htype : r.r_type ≠ .R_X86_64_IRELATIVE) (hin : im.Inside a) :
    s.target im = some a := by
  rw [Slot.addend, hr, Option.bind_some] at ha
  obtain ⟨hrel, haddend⟩ := Option.ite_none_right_eq_some.mp ha
  have hrelative : r.r_type = .R_X86_64_RELATIVE := by
    unfold isRelative at hrel
    split at hrel
    · assumption
    · contradiction
    · cases hrel
  rw [target_relative hs hr hrelative, haddend, Option.getD_some, if_pos hin]

theorem exists_reloc_of_addend {a : Nat} (ha : s.addend = some a) : ∃ r, s.reloc = some r := by
  obtain ⟨r, hr, -⟩ := Option.bind_eq_some_iff.mp ha
  exact ⟨r, hr⟩

variable {ss : List Slot} {sec : List Nat}

theorem lists_iff {tag : Name} : Lists im tag ss sec (tagged tag (ss.flatMap Slot.listed ++ sec)) ↔
    ∀ x, (∃ s ∈ ss, x ∈ s.listed) ∨ x ∈ sec ↔ (∃ s ∈ ss, s.target im = some x) ∨ x ∈ sec := by
  have hout (x : Nat) : entry tag (hex x) ∈ tagged tag (ss.flatMap Slot.listed ++ sec) ↔
      (∃ s ∈ ss, x ∈ s.listed) ∨ x ∈ sec := by
    rw [mem_tagged]
    constructor
    · rintro ⟨a, ha, he⟩
      rw [entry_hex_inj he]
      simpa using ha
    · exact fun hx => ⟨x, by simpa using hx, rfl⟩
  have hspec (x : Nat) : ((∃ s ∈ ss, ∃ t, s.target im = some t ∧
      entry tag (hex x) = entry tag (hex t)) ∨ ∃ a ∈ sec, entry tag (hex x) = entry tag (hex a)) ↔
      (∃ s ∈ ss, s.target im = some x) ∨ x ∈ sec := by
    constructor
    · rintro (⟨s, hs, t, ht, he⟩ | ⟨a, ha, he⟩)
      · exact .inl ⟨s, hs, entry_hex_inj he ▸ ht⟩
      · exact .inr (entry_hex_inj he ▸ ha)
    · rintro (⟨s, hs, ht⟩ | hx)
      · exact .inl ⟨s, hs, x, ht, rfl⟩
      · exact .inr ⟨x, hx, rfl⟩
  constructor
  · exact fun h x => (hout x).symm.trans ((h.mem _).trans (hspec x))
  · refine fun h => ⟨fun e => ⟨fun he => ?_, fun he => ?_⟩, nodup_tagged tag _⟩
    · obtain ⟨x, -, rfl⟩ := (mem_tagged tag _ e).mp he
      exact (hspec x).mpr ((h x).mp ((hout x).mp he))
    · have hx : ∃ x, e = entry tag (hex x) := by
        rcases he with ⟨_, _, t, _, rfl⟩ | ⟨a, _, rfl⟩
        · exact ⟨t, rfl⟩
        · exact ⟨a, rfl⟩
      obtain ⟨x, rfl⟩ := hx
      exact (hout x).mpr ((h x).mpr ((hspec x).mp he))

theorem lists_iff_accurate {tag : Name} (hbounded : ∀ s ∈ ss, s.Bounded elf) :
    Lists im tag ss sec (tagged tag (ss.flatMap Slot.listed ++ sec)) ↔ Accurate im ss sec := by
  rw [lists_iff]
  constructor
  · intro h
    refine ⟨fun s hs _ t ht => ?_, fun s hs hbytes _ => ?_, fun s hs r a _ ha _ => ?_⟩
    · refine ((h t).mpr (.inl ⟨s, hs, ht⟩)).symm.imp_right ?_
      rintro ⟨s', hs', hmem⟩
      exact ⟨s', hs', mem_listed.mp hmem⟩
    · exact ((h s.bytes).mp (.inl ⟨s, hs, mem_listed.mpr (.inr ⟨rfl, hbytes⟩)⟩)).symm
    · exact ((h a).mp (.inl ⟨s, hs, mem_listed.mpr (.inl ha)⟩)).symm
  · intro h x
    constructor
    · rintro (⟨s, hs, hmem⟩ | hx)
      · rcases mem_listed.mp hmem with ha | ⟨rfl, hbytes⟩
        · obtain ⟨r, hr⟩ := exists_reloc_of_addend ha
          by_cases hbad : r.r_type = .R_X86_64_IRELATIVE ∨ ¬ im.Inside x
          · exact (h.resolver s hs r x hr ha hbad).symm
          · rw [not_or, not_not] at hbad
            exact .inl ⟨s, hs, target_of_addend (hbounded s hs) hr ha hbad.1 hbad.2⟩
        · by_cases hbad : s.Overwritten im ∨ ¬ im.Inside s.bytes
          · exact (h.stale s hs hbytes hbad).symm
          · rw [not_or, not_not] at hbad
            exact .inl ⟨s, hs, target_of_used (hbounded s hs) hbad.1 hbad.2⟩
      · exact .inr hx
    · rintro (⟨s, hs, ht⟩ | hx)
      · by_cases hdirect : s.Direct im
        · exact .inl ⟨s, hs, mem_listed_of_direct (hbounded s hs) hdirect ht⟩
        · refine (h.missed s hs hdirect x ht).symm.imp_left ?_
          rintro ⟨s', hs', hmem⟩
          exact ⟨s', hs', mem_listed.mpr hmem⟩
      · exact .inr hx

end Target

-- The script always finishes. Each of its lists is exact under its own condition.
theorem main_lists_iff (rd : Readelf) (elf : Elf) (im : Image elf) (tag : Name) :
    ∃ init fini, main rd elf tag = some (init, fini) ∧
      (Lists im tag (slots elf initArray) (sectionStuff elf initSection) init ∧
          Lists im tag (slots elf finiArray) (sectionStuff elf finiSection) fini ↔
        Accurate im (slots elf initArray) (sectionStuff elf initSection) ∧
          Accurate im (slots elf finiArray) (sectionStuff elf finiSection)) := by
  refine ⟨_, _, main_eq rd elf tag, and_congr ?_ ?_⟩
  · exact lists_iff_accurate fun _ => bounded_of_mem_slots
  · exact lists_iff_accurate fun _ => bounded_of_mem_slots

-- The loader of this repository stores what the relocation says.

def loaderStore (map : Loader.LinkMap) (found : Reloc → Option Loader.Found)
    (call : Loader.Resolver) (r : Reloc) (v : Nat) : Nat :=
  let reloc : Loader.Rela :=
    ⟨.ofNat 64 r.r_offset, r.r_type, r.sym, .ofNat 64 (r.r_addend.getD v)⟩
  match Loader.elfMachineRela true call false map (found r) reloc ⟨fun _ => .ofNat 64 v, []⟩ with
  | some st => (st.mem (map.l_addr + reloc.r_offset)).toNat
  | none => v

theorem loaderStore_relative (map : Loader.LinkMap) (found : Reloc → Option Loader.Found)
    (call : Loader.Resolver) (r : Reloc) (v : Nat) (h : r.r_type = .R_X86_64_RELATIVE) :
    loaderStore map found call r v = (map.l_addr.toNat + r.r_addend.getD v) % 256 ^ 8 := by
  simp [loaderStore, Loader.elfMachineRela, h]

def loaderImage (elf : Elf) (h : elf.cls = .ELF64) (map : Loader.LinkMap)
    (hmap : map.l_addr.toNat ≤ map.l_map_end.toNat) (found : Reloc → Option Loader.Found)
    (call : Loader.Resolver) : Image elf where
  base := map.l_addr.toNat
  first := map.l_map_start.toNat - map.l_addr.toNat
  last := map.l_map_end.toNat - map.l_addr.toNat
  top := by
    rw [h, Nat.add_sub_cancel' hmap]
    exact map.l_map_end.isLt.le
  store := loaderStore map found call
  relative := by
    intro r v hr
    rw [h]
    exact loaderStore_relative map found call r v hr

-- The rows as `llvm-readelf` prints them.

def typeText : RelType → Name
  | .R_X86_64_NONE => "R_X86_64_NONE".toList
  | .R_X86_64_64 => "R_X86_64_64".toList
  | .R_X86_64_PC32 => "R_X86_64_PC32".toList
  | .R_X86_64_GOT32 => "R_X86_64_GOT32".toList
  | .R_X86_64_PLT32 => "R_X86_64_PLT32".toList
  | .R_X86_64_GOTPCREL => "R_X86_64_GOTPCREL".toList
  | .R_X86_64_32 => "R_X86_64_32".toList
  | .R_X86_64_32S => "R_X86_64_32S".toList
  | .R_X86_64_16 => "R_X86_64_16".toList
  | .R_X86_64_PC16 => "R_X86_64_PC16".toList
  | .R_X86_64_8 => "R_X86_64_8".toList
  | .R_X86_64_PC8 => "R_X86_64_PC8".toList
  | .R_X86_64_TLSGD => "R_X86_64_TLSGD".toList
  | .R_X86_64_TLSLD => "R_X86_64_TLSLD".toList
  | .R_X86_64_DTPOFF32 => "R_X86_64_DTPOFF32".toList
  | .R_X86_64_GOTTPOFF => "R_X86_64_GOTTPOFF".toList
  | .R_X86_64_TPOFF32 => "R_X86_64_TPOFF32".toList
  | .R_X86_64_PC64 => "R_X86_64_PC64".toList
  | .R_X86_64_GOTOFF64 => "R_X86_64_GOTOFF64".toList
  | .R_X86_64_GOTPC32 => "R_X86_64_GOTPC32".toList
  | .R_X86_64_GOT64 => "R_X86_64_GOT64".toList
  | .R_X86_64_GOTPC64 => "R_X86_64_GOTPC64".toList
  | .R_X86_64_PLTOFF64 => "R_X86_64_PLTOFF64".toList
  | .R_X86_64_SIZE32 => "R_X86_64_SIZE32".toList
  | .R_X86_64_SIZE64 => "R_X86_64_SIZE64".toList
  | .R_X86_64_GOTPC32_TLSDESC => "R_X86_64_GOTPC32_TLSDESC".toList
  | .R_X86_64_TLSDESC_CALL => "R_X86_64_TLSDESC_CALL".toList
  | .R_X86_64_GOTPCRELX => "R_X86_64_GOTPCRELX".toList
  | .R_X86_64_REX_GOTPCRELX => "R_X86_64_REX_GOTPCRELX".toList
  | .R_X86_64_CODE_4_GOTPCRELX => "R_X86_64_CODE_4_GOTPCRELX".toList
  | .R_X86_64_CODE_4_GOTTPOFF => "R_X86_64_CODE_4_GOTTPOFF".toList
  | .R_X86_64_CODE_4_GOTPC32_TLSDESC => "R_X86_64_CODE_4_GOTPC32_TLSDESC".toList
  | .R_X86_64_CODE_6_GOTTPOFF => "R_X86_64_CODE_6_GOTTPOFF".toList
  | .R_X86_64_COPY => "R_X86_64_COPY".toList
  | .R_X86_64_GLOB_DAT => "R_X86_64_GLOB_DAT".toList
  | .R_X86_64_JUMP_SLOT => "R_X86_64_JUMP_SLOT".toList
  | .R_X86_64_RELATIVE => "R_X86_64_RELATIVE".toList
  | .R_X86_64_IRELATIVE => "R_X86_64_IRELATIVE".toList
  | .R_X86_64_TLSDESC => "R_X86_64_TLSDESC".toList
  | .R_X86_64_DTPMOD64 => "R_X86_64_DTPMOD64".toList
  | .R_X86_64_DTPOFF64 => "R_X86_64_DTPOFF64".toList
  | .R_X86_64_TPOFF64 => "R_X86_64_TPOFF64".toList
  | .R_X86_64_ORMASK => "R_X86_64_ORMASK".toList
  | .R_X86_64_ANDMASK => "R_X86_64_ANDMASK".toList
  | .R_X86_64_CALLBACK_TABLE => "R_X86_64_CALLBACK_TABLE".toList
  | .R_X86_64_CALLBACK_MAYBE => "R_X86_64_CALLBACK_MAYBE".toList
  | .R_X86_64_DSO_BASE => "R_X86_64_DSO_BASE".toList

theorem contains_typeText (t : RelType) : contains (typeText t) relativePhrase = isRelative t := by
  cases t <;> decide +kernel

-- A number of 16 digits.
def padded (n : Nat) : Name :=
  List.replicate (16 - (Nat.toDigits 16 n).length) '0' ++ Nat.toDigits 16 n

theorem isDigit_of_mem_padded {n : Nat} {c : Char} (hc : c ∈ padded n) : IsDigit 16 c := by
  rcases List.mem_append.mp hc with hc | hc
  · rw [List.eq_of_mem_replicate hc]
    decide
  · exact isDigit_of_mem_toDigits n c hc

theorem ofDigits_replicate_append (k : Nat) (ds : Name) :
    ofDigits 16 (List.replicate k '0' ++ ds) = ofDigits 16 ds := by
  induction k with
  | zero => rfl
  | succ k ih => exact ih

theorem intBase16_of_digits {ds : Name} (hne : ds ≠ []) (h : ∀ c ∈ ds, IsDigit 16 c) :
    intBase16 ds = some (ofDigits 16 ds) := if_pos ⟨hne, h⟩

theorem length_padded (n : Nat) : 16 ≤ (padded n).length := by
  simp only [padded, List.length_append, List.length_replicate]
  omega

theorem intBase16_padded (n : Nat) : intBase16 (padded n) = some n := by
  have hne : padded n ≠ [] := List.ne_nil_of_length_pos (by have := length_padded n; omega)
  rw [intBase16_of_digits hne fun _ => isDigit_of_mem_padded, padded, ofDigits_replicate_append,
    ofDigits_toDigits]

theorem startsWithAddress_padded (n : Nat) : startsWithAddress (padded n) = true := by
  have hall : (padded n).takeWhile (fun c => decide (IsDigit 16 c)) = padded n :=
    List.takeWhile_eq_self_iff.mpr fun c hc => decide_eq_true (isDigit_of_mem_padded hc)
  rw [startsWithAddress, hall, decide_eq_true_eq]
  have := length_padded n
  omega

def symbolColumns (value : Name → Nat) (r : Reloc) : List Name :=
  match r.sym with
  | none => []
  | some name => [padded (value name), name] ++ if r.r_addend.isSome then [['+']] else []

def gnuColumns (info : Reloc → Nat) (value : Name → Nat) (r : Reloc) : List Name :=
  [padded r.r_offset, padded (info r), typeText r.r_type] ++ symbolColumns value r ++
    (r.r_addend.map (Nat.toDigits 16)).toList

def gnuStyle (info : Reloc → Nat) (value : Name → Nat) : Readelf where
  columns := gnuColumns info value
  address r := ⟨padded r.r_offset, rfl, startsWithAddress_padded _, intBase16_padded _⟩
  type r := ⟨typeText r.r_type, rfl, contains_typeText _⟩
  implicit := by
    intro r hsym ha
    simp [gnuColumns, symbolColumns, hsym, ha]
  explicit := by
    intro r a hsym ha
    have hcolumns : gnuColumns info value r =
        [padded r.r_offset, padded (info r), typeText r.r_type, Nat.toDigits 16 a] := by
      simp [gnuColumns, symbolColumns, hsym, ha]
    rw [hcolumns]
    refine ⟨le_rfl, ?_⟩
    rw [List.getLastD_cons, List.getLastD_cons, List.getLastD_cons, List.getLastD_cons,
      List.getLastD_nil, intBase16_of_digits Nat.toDigits_ne_nil (isDigit_of_mem_toDigits a),
      ofDigits_toDigits]

-- A library whose only constructor has a symbol that another module could define: the slot has an
-- `R_X86_64_64` relocation, and the file has zeros there.

def ctorReloc : Reloc where
  r_offset := 0x3000
  r_type := .R_X86_64_64
  sym := some "ctor".toList
  r_addend := some 0
  unnamed := nofun

def ctorElf : Elf where
  cls := .ELF64
  sections := [⟨initArray, 0x3000, 8, 0⟩]
  content := List.replicate 8 0#8
  relocs := [ctorReloc]
  addends := by
    intro r hr a ha
    rw [List.mem_singleton.mp hr] at ha
    cases ha
    decide

def ctorMap : Loader.LinkMap where
  l_addr := 0x7f0000000000#64
  l_map_start := 0x7f0000000000#64
  l_map_end := 0x7f0000004000#64

def ctorImage : Image ctorElf :=
  loaderImage ctorElf rfl ctorMap (by decide)
    (fun _ => some ⟨ctorMap, 0x7f0000001000#64, false⟩) id

theorem target_ctor : (⟨some ctorReloc, 0⟩ : Slot).target ctorImage = some 0x1000 := by decide

theorem slots_ctorElf : slots ctorElf initArray = [⟨some ctorReloc, 0⟩] := by
  rfl

theorem ctor_not_listed : ¬ ∃ init fini,
    main (gnuStyle (fun _ => 0) fun _ => 0x1000) ctorElf "LIB".toList = some (init, fini) ∧
      Lists ctorImage "LIB".toList (slots ctorElf initArray) (sectionStuff ctorElf initSection)
        init ∧
      Lists ctorImage "LIB".toList (slots ctorElf finiArray) (sectionStuff ctorElf finiSection)
        fini := by
  rintro ⟨init, fini, hmain, hlists, -⟩
  rw [main_eq] at hmain
  cases hmain
  have htarget := (lists_iff.mp hlists 0x1000).mpr
    (.inl ⟨_, by rw [slots_ctorElf]; exact List.mem_singleton_self _, target_ctor⟩)
  rw [slots_ctorElf] at htarget
  revert htarget
  simp [Slot.listed, Slot.addend, isRelative, ctorReloc, sectionStuff, parseSectionInfo, ctorElf]

end Platypus.Parser.CreateTables
