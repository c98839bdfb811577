import Platypus.Linker.GnuHash
import Platypus.Loader.GnuLookup

-- What the loader finds in the hash table that the linker has written.

namespace Platypus.System

open Linker.GnuHashTableSection
open Linker (Ctx SymbolTableEntry GnuHashTableSection hashGnu nextPowerOf2)
open Loader (Words Query Sym GnuMap GnuTable Versioned checkMatch tryMatch walkChain passesFilter
  bitmaskWord searchGnu dlSetupHash settle gnuLookup findSym)

theorem nextPowerOf2_le (n : Nat) : nextPowerOf2 n ≤ 2 * n + 1 := by
  unfold nextPowerOf2
  split
  · omega
  · rename_i hn
    have hlog := Nat.log2_self_le hn
    rw [Nat.pow_succ]
    omega

theorem words_at_add (mem : Words) (p : Loader.Word) (i j : Nat) :
    mem.at (p + 4#64 * .ofNat 64 i) j = mem.at p (i + j) := by
  rw [Words.at, Words.at, BitVec.ofNat_add, BitVec.mul_add, BitVec.add_assoc]

theorem setWidth_ofNat {n : Nat} (h : n < 2 ^ 32) :
    (BitVec.ofNat 32 n).setWidth 64 = BitVec.ofNat 64 n := by
  apply BitVec.eq_of_toNat_eq
  rw [BitVec.toNat_setWidth, BitVec.toNat_ofNat, BitVec.toNat_ofNat, Nat.mod_eq_of_lt h]

theorem exists_pairs {α β γ : Type} {f : α → γ} {g : β → γ} {as : List α} {bs : List β}
    (h : bs.map g = as.map f) :
    ∃ zs : List (α × β), as = zs.map Prod.fst ∧ bs = zs.map Prod.snd ∧ ∀ z ∈ zs, g z.2 = f z.1 := by
  induction as generalizing bs with
  | nil => exact ⟨[], rfl, List.map_eq_nil_iff.mp h, nofun⟩
  | cons a as ih =>
    cases bs with
    | nil => cases h
    | cons b bs =>
      rw [List.map_cons, List.map_cons, List.cons.injEq] at h
      obtain ⟨zs, has, hbs, hzs⟩ := ih h.2
      refine ⟨(a, b) :: zs, congrArg _ has, congrArg _ hbs, ?_⟩
      rw [List.forall_mem_cons]
      exact ⟨h.1, hzs⟩

theorem checkMatch_name {q : Query} {m : Loader.Module} {sym : Sym} (h : checkMatch q m sym ≠ .no) :
    sym.st_name = q.undef_name := by
  by_contra hne
  unfold checkMatch at h
  simp [hne] at h

theorem split_at {α : Type} {l : List α} {j : Nat} {a : α} (h : l[j]? = some a) :
    l = l.take j ++ a :: l.drop (j + 1) ∧ (l.take j).length = j := by
  obtain ⟨hj, rfl⟩ := List.getElem?_eq_some_iff.mp h
  refine ⟨?_, List.length_take_of_le hj.le⟩
  rw [← List.drop_eq_getElem_cons hj, List.take_append_drop]

theorem halves_append (w : BitVec 64) : ((w >>> 32).setWidth 32 ++ w.setWidth 32 : BitVec 64) = w := by
  apply BitVec.eq_of_getLsbD_eq
  intro i hi
  rw [BitVec.getLsbD_append, BitVec.getLsbD_setWidth, BitVec.getLsbD_setWidth,
    BitVec.getLsbD_ushiftRight]
  by_cases hlt : i < 32
  · simp [hlt]
  · have hsub : i - 32 < 32 := by omega
    have hadd : 32 + (i - 32) = i := by omega
    simp [hlt, hsub, hadd]

theorem and_bits {w : BitVec 64} {a b : Nat} (ha : w.getLsbD a) (hb : w.getLsbD b) :
    (w >>> a) &&& (w >>> b) &&& 1#64 ≠ 0#64 := by
  intro h
  have hbit := congrArg (BitVec.getLsbD · 0) h
  simp [ha, hb] at hbit

-- A module whose `.dynsym` and `.gnu.hash` are those of a link.
structure Hashed (c : Ctx) (v : List SymbolTableEntry) (mem : Words) (gnu : Loader.Word)
    (m : Loader.Module) : Prop where
  nodup : (v.map (·.sym)).Nodup
  lt : v.length + 1 < 2 ^ 32
  words : ∀ i w, (written c v)[i]? = some w → mem.at gnu i = w
  names : m.symtab.map Sym.st_name = [] :: (sorted c v).map fun s => (c.syms s.sym).name
  undefined : ∀ sym ∈ m.symtab.take ((unhashed c v).length + 1),
    sym.st_value = 0#64 ∧ sym.st_shndx = .SHN_UNDEF

-- The tables of the loader begin where those of the linker do.
structure SetUp (c : Ctx) (v : List SymbolTableEntry) (mem : Words) (gnu : Loader.Word) (g : GnuMap) :
    Prop where
  nbuckets : g.l_nbuckets = .ofNat 32 (addSymbols c v).nBuckets
  idxbits : g.l_gnu_bitmask_idxbits.toNat = (addSymbols c v).maskWords - 1
  shift : g.l_gnu_shift = 26#32
  bitmask : ∀ j, mem.at g.l_gnu_bitmask j = mem.at gnu (4 + j)
  buckets : ∀ j, mem.at g.l_gnu_buckets j = mem.at gnu (4 + 2 * (addSymbols c v).maskWords + j)
  chain_zero : ∀ j, mem.at g.l_gnu_chain_zero ((unhashed c v).length + 1 + j) =
    mem.at gnu (4 + 2 * (addSymbols c v).maskWords + ((addSymbols c v).nBuckets + j))

namespace Hashed

variable {c : Ctx} {v : List SymbolTableEntry} {mem : Words} {gnu : Loader.Word} {m : Loader.Module}

theorem length_symbols : (unhashed c v).length + (addSymbols c v).symbols.length = v.length := by
  have h := (sorted_perm c v).length_eq
  rwa [sorted, List.length_append, List.length_map] at h

section

variable (h : Hashed c v mem gnu m)
include h

theorem maskWords_lt : (addSymbols c v).maskWords < 2 ^ 32 := by
  have hlen := length_symbols (c := c) (v := v)
  have hlt := h.lt
  have hnext := nextPowerOf2_le ((addSymbols c v).symbols.length * 12 / 64)
  unfold maskWords
  split <;> omega

theorem nBuckets_lt : (addSymbols c v).nBuckets < 2 ^ 32 :=
  (nBuckets_le c v).trans_lt h.lt

theorem header : mem.at gnu 0 = .ofNat 32 (addSymbols c v).nBuckets ∧
    mem.at gnu 1 = .ofNat 32 ((unhashed c v).length + 1) ∧
      mem.at gnu 2 = .ofNat 32 (addSymbols c v).maskWords ∧ mem.at gnu 3 = .ofNat 32 26 := by
  have hcount : (sorted c v).length + 1 - (addSymbols c v).symbols.length =
      (unhashed c v).length + 1 := by
    rw [(sorted_perm c v).length_eq, ← length_symbols (c := c)]
    omega
  refine ⟨h.words 0 _ rfl, ?_, h.words 2 _ rfl, h.words 3 _ rfl⟩
  rw [← hcount]
  exact h.words 1 _ rfl

theorem nwords_pow : (BitVec.ofNat 32 (addSymbols c v).maskWords &&&
    (BitVec.ofNat 32 (addSymbols c v).maskWords - 1#32)) = 0#32 ∧
      (BitVec.ofNat 32 (addSymbols c v).maskWords - 1#32).toNat = (addSymbols c v).maskWords - 1 := by
  have hlt := h.maskWords_lt
  obtain ⟨k, hk⟩ := (addSymbols c v).maskWords_eq
  have hpos : 0 < (addSymbols c v).maskWords := hk ▸ Nat.two_pow_pos k
  have hsub : (BitVec.ofNat 32 (addSymbols c v).maskWords - 1#32).toNat =
      (addSymbols c v).maskWords - 1 := by
    rw [BitVec.toNat_sub, BitVec.toNat_ofNat, BitVec.toNat_ofNat]
    omega
  refine ⟨?_, hsub⟩
  apply BitVec.eq_of_toNat_eq
  rw [BitVec.toNat_and, hsub, BitVec.toNat_ofNat, Nat.mod_eq_of_lt hlt, hk,
    Nat.and_two_pow_sub_one_eq_mod, Nat.mod_self]
  rfl

theorem setup : ∃ g, dlSetupHash mem gnu = some g ∧ SetUp c v mem gnu g := by
  obtain ⟨hnb, hbias, hnwords, hshift⟩ := h.header
  have hbiaslt : (unhashed c v).length + 1 < 2 ^ 32 := by
    have hlen := length_symbols (c := c) (v := v)
    have hlt := h.lt
    omega
  have hbitmask : gnu + 16#64 = gnu + 4#64 * .ofNat 64 4 := rfl
  have hbuckets : gnu + 16#64 + 4#64 * (2#64 * BitVec.ofNat 64 (addSymbols c v).maskWords) =
      gnu + 4#64 * .ofNat 64 (4 + 2 * (addSymbols c v).maskWords) := by
    rw [hbitmask, BitVec.ofNat_add, BitVec.mul_add, BitVec.add_assoc, BitVec.ofNat_mul]
  refine ⟨⟨.ofNat 32 (addSymbols c v).nBuckets, .ofNat 32 (addSymbols c v).maskWords - 1#32, 26#32,
    gnu + 16#64, gnu + 4#64 * .ofNat 64 (4 + 2 * (addSymbols c v).maskWords),
    gnu + 4#64 * .ofNat 64 (4 + 2 * (addSymbols c v).maskWords) +
      4#64 * .ofNat 64 (addSymbols c v).nBuckets - 4#64 * .ofNat 64 ((unhashed c v).length + 1)⟩,
    ?_, ⟨rfl, h.nwords_pow.2, rfl, fun j => ?_, fun j => ?_, fun j => ?_⟩⟩
  · unfold dlSetupHash
    simp only [hnb, hbias, hnwords, hshift]
    rw [if_pos h.nwords_pow.1, setWidth_ofNat h.maskWords_lt, setWidth_ofNat h.nBuckets_lt,
      setWidth_ofNat hbiaslt, hbuckets]
  · rw [hbitmask, words_at_add]
  · exact words_at_add ..
  · rw [← words_at_add, BitVec.sub_add_cancel, words_at_add, words_at_add]

theorem bucket_empty {k : Nat} (hk : k < (addSymbols c v).nBuckets)
    (hnone : ∀ e ∈ (addSymbols c v).symbols, e.bucketIdx ≠ k) :
    mem.at gnu (4 + 2 * (addSymbols c v).maskWords + k) = 0#32 := by
  refine h.words _ _ ?_
  rw [written, writeTo_bucket _ _ _ hk, writeChains_of_not_mem hnone,
    List.getElem?_replicate_of_lt hk]

theorem bucket_first {k : Nat} (hk : k < (addSymbols c v).nBuckets) {pre post : List Entry} {e : Entry}
    (hsplit : (addSymbols c v).symbols = pre ++ e :: post) (hpre : ∀ e ∈ pre, e.bucketIdx ≠ k)
    (he : e.bucketIdx = k) :
    mem.at gnu (4 + 2 * (addSymbols c v).maskWords + k) =
      .ofNat 32 ((unhashed c v).length + 1 + pre.length) := by
  have hlt := h.nBuckets_lt
  have hindex : number 0 (fun _ => 0) (sorted c v) e.sym = (unhashed c v).length + 1 + pre.length := by
    have hget : (sorted c v)[(unhashed c v).length + pre.length]? =
        some ⟨e.sym, e.strTabOffset⟩ := by
      rw [sorted, List.getElem?_append_right (Nat.le_add_right ..), Nat.add_sub_cancel_left, hsplit]
      simp
    have hnodup := (((sorted_perm c v).map (·.sym)).nodup_iff).mpr h.nodup
    have hnumber := number_eq hnodup hget 0 fun _ => 0
    dsimp only at hnumber
    omega
  refine h.words _ _ ?_
  rw [written, writeTo_bucket _ _ _ hk, hsplit,
    writeChains_bucket pre hpre e he post (hsplit ▸ symbols_sorted c v) (by omega) _
      (by rwa [List.length_replicate]), hindex]

theorem chain_word {pre post : List Entry} {e : Entry}
    (hsplit : (addSymbols c v).symbols = pre ++ e :: post) :
    mem.at gnu (4 + 2 * (addSymbols c v).maskWords + ((addSymbols c v).nBuckets + pre.length)) =
      chainWord e post :=
  h.words _ _ (writeTo_value _ _ _ hsplit)

-- A bucket is empty, or holds the index of the first symbol of its run.
theorem bucket_cases {α : Type} {zs : List (Entry × α)}
    (hentries : (addSymbols c v).symbols = zs.map Prod.fst) {k : Nat}
    (hk : k < (addSymbols c v).nBuckets) :
    (∀ z ∈ zs, z.1.bucketIdx ≠ k) ∧
        mem.at gnu (4 + 2 * (addSymbols c v).maskWords + k) = 0#32 ∨
      ∃ pre run post, run ≠ [] ∧ zs = pre ++ run ++ post ∧
        run = zs.filter (fun z => z.1.bucketIdx = k) ∧ (∀ z ∈ pre, z.1.bucketIdx ≠ k) ∧
          (∀ z ∈ post, z.1.bucketIdx ≠ k) ∧
            mem.at gnu (4 + 2 * (addSymbols c v).maskWords + k) =
              .ofNat 32 ((unhashed c v).length + 1 + pre.length) := by
  have hsorted : zs.Pairwise fun y z => y.1.bucketIdx ≤ z.1.bucketIdx := by
    have hpairs := symbols_sorted c v
    rwa [hentries, List.pairwise_map] at hpairs
  have hruns := Hash.runs (fun z : Entry × α => z.1.bucketIdx) zs hsorted k
  cases hrun : zs.filter (fun z => z.1.bucketIdx = k) with
  | nil =>
    rw [List.filter_eq_nil_iff] at hrun
    have hempty : ∀ z ∈ zs, z.1.bucketIdx ≠ k := fun z hz => by simpa using hrun z hz
    refine .inl ⟨hempty, h.bucket_empty hk fun e he => ?_⟩
    obtain ⟨z, hz, rfl⟩ := List.mem_map.mp (hentries ▸ he)
    exact hempty z hz
  | cons z run =>
    have hz : z ∈ zs.filter fun z => z.1.bucketIdx = k := hrun ▸ List.mem_cons_self
    have hpre : ∀ y ∈ zs.filter (fun z => z.1.bucketIdx < k), y.1.bucketIdx ≠ k :=
      fun y hy => (of_decide_eq_true (List.mem_filter.mp hy).2).ne
    rw [hrun] at hruns
    have hsplit : (addSymbols c v).symbols = (zs.filter fun z => z.1.bucketIdx < k).map Prod.fst ++
        z.1 :: (run ++ zs.filter fun z => k < z.1.bucketIdx).map Prod.fst := by
      rw [hentries, ← List.map_cons, ← List.map_append, ← List.cons_append, ← List.append_assoc,
        ← hruns]
    have hfirst := h.bucket_first hk hsplit (by simpa using hpre)
      (of_decide_eq_true (List.mem_filter.mp hz).2)
    rw [List.length_map] at hfirst
    exact .inr ⟨_, z :: run, _, List.cons_ne_nil _ _, hruns, rfl, hpre,
      fun y hy => (of_decide_eq_true (List.mem_filter.mp hy).2).ne', hfirst⟩

variable {g : GnuMap} (hg : SetUp c v mem gnu g)
include hg

-- The filter lets every hash of the table pass.
theorem passesFilter_of_mem {e : Entry} (he : e ∈ (addSymbols c v).symbols) :
    passesFilter mem g e.hash := by
  have hword {b : Nat} (hb : (bitsOf e.hash).getLsbD b) :
      (bitmaskWord mem g.l_gnu_bitmask
        ((e.hash.toNat / 64) &&& g.l_gnu_bitmask_idxbits.toNat)).getLsbD b := by
    obtain ⟨w, hw, hbit⟩ := (addSymbols c v).bloomFilter_testBit he hb
    obtain ⟨hlow, hhigh⟩ := writeTo_filter _ (sorted c v) (number 0 (fun _ => 0) (sorted c v)) hw
    have hwords : bitmaskWord mem g.l_gnu_bitmask ((addSymbols c v).wordOf e.hash) = w := by
      rw [bitmaskWord, hg.bitmask, hg.bitmask, h.words _ _ hlow, h.words _ _ hhigh]
      exact halves_append w
    rw [hg.idxbits, ← wordOf, hwords]
    exact hbit
  have hmod (n : Nat) : n &&& 63 = n % 64 := Nat.and_two_pow_sub_one_eq_mod n 6
  unfold passesFilter
  rw [hmod, hmod, hg.shift, decide_eq_true_eq]
  exact and_bits (hword (bitsOf_first _)) (hword (bitsOf_second _))

end

-- The walk through a chain tries the symbols of the chain whose hash is the one that is looked
-- for, up to the lowest bit.
theorem walkChain_run (h : Hashed c v mem gnu m) {g : GnuMap} (hg : SetUp c v mem gnu g) (q : Query)
    (hash : BitVec 32) {k : Nat} {pre run post : List (Entry × Sym)}
    (hentries : (addSymbols c v).symbols = (pre ++ run ++ post).map Prod.fst)
    (hsyms : m.symtab.drop ((unhashed c v).length + 1) = (pre ++ run ++ post).map Prod.snd)
    (hne : run ≠ []) (hrun : ∀ z ∈ run, z.1.bucketIdx = k) (hpost : ∀ z ∈ post, z.1.bucketIdx ≠ k)
    {fuel : Nat} (hfuel : run.length ≤ fuel) (st : Versioned) :
    walkChain mem q m g.l_gnu_chain_zero hash fuel ((unhashed c v).length + 1 + pre.length) st =
      some (((run.filter fun z => (z.1.hash ^^^ hash) >>> 1 = 0#32).map Prod.snd).foldlM
        (tryMatch q m) st) := by
  induction run generalizing pre fuel st with
  | nil => exact absurd rfl hne
  | cons z run ih =>
    cases fuel with
    | zero => cases hfuel
    | succ fuel =>
      rw [List.forall_mem_cons] at hrun
      have hword : mem.at g.l_gnu_chain_zero ((unhashed c v).length + 1 + pre.length) =
          chainWord z.1 ((run ++ post).map Prod.fst) := by
        have hsplit : (addSymbols c v).symbols =
            pre.map Prod.fst ++ z.1 :: (run ++ post).map Prod.fst := by
          rw [hentries]
          simp
        rw [hg.chain_zero, ← h.chain_word hsplit, List.length_map]
      have hsym : m.symtab[(unhashed c v).length + 1 + pre.length]? = some z.2 := by
        rw [← List.getElem?_drop, hsyms]
        simp
      -- the chain goes on exactly if the run does
      have hnext (st : Versioned) :
          (if chainWord z.1 ((run ++ post).map Prod.fst) &&& 1#32 = 0#32 then
            walkChain mem q m g.l_gnu_chain_zero hash fuel
              ((unhashed c v).length + 1 + pre.length + 1) st
          else some (.ok st)) =
            some (((run.filter fun z => (z.1.hash ^^^ hash) >>> 1 = 0#32).map Prod.snd).foldlM
              (tryMatch q m) st) := by
        cases run with
        | nil =>
          have hlast : isLastInChain z.1 (post.map Prod.fst) = true := by
            cases post with
            | nil => rfl
            | cons z' post =>
              rw [List.forall_mem_cons] at hpost
              exact decide_eq_true (hrun.1.trans_ne hpost.1.symm)
          rw [if_neg]
          · rfl
          · rw [chainWord_and, List.nil_append, hlast]
            exact Bool.noConfusion
        | cons z' run =>
          have hlast : isLastInChain z.1 ((z' :: run ++ post).map Prod.fst) = false :=
            decide_eq_false (not_not.mpr (hrun.1.trans (hrun.2 z' List.mem_cons_self).symm))
          rw [if_pos ((chainWord_and _ _).mpr hlast)]
          have hentries' : (addSymbols c v).symbols =
              (pre ++ [z] ++ z' :: run ++ post).map Prod.fst := by
            rw [hentries]
            simp
          have hsyms' : m.symtab.drop ((unhashed c v).length + 1) =
              (pre ++ [z] ++ z' :: run ++ post).map Prod.snd := by
            rw [hsyms]
            simp
          have hrest := ih hentries' hsyms' (List.cons_ne_nil _ _) hrun.2
            (Nat.le_of_succ_le_succ hfuel) st
          rwa [List.length_append] at hrest
      rw [walkChain, hword, hsym, chainWord_xor]
      by_cases hhash : (z.1.hash ^^^ hash) >>> 1 = 0#32
      · rw [List.filter_cons_of_pos (by simpa using hhash), List.map_cons, List.foldlM_cons,
          if_pos hhash, Option.map_some]
        cases tryMatch q m st z.2 with
        | error sym => rfl
        | ok st' => exact hnext st'
      · rw [List.filter_cons_of_neg (by simpa using hhash), if_neg hhash]
        exact hnext st

-- The entries of the hash table with their symbols.
theorem pairs (h : Hashed c v mem gnu m) : ∃ zs : List (Entry × Sym),
    (addSymbols c v).symbols = zs.map Prod.fst ∧
      m.symtab.drop ((unhashed c v).length + 1) = zs.map Prod.snd ∧
        ∀ z ∈ zs, z.2.st_name = (c.syms z.1.sym).name := by
  have hnames : (m.symtab.drop ((unhashed c v).length + 1)).map Sym.st_name =
      (addSymbols c v).symbols.map fun e => (c.syms e.sym).name := by
    rw [List.map_drop, h.names, List.drop_succ_cons, sorted, List.map_append,
      List.drop_left' (List.length_map _), List.map_map]
    rfl
  exact exists_pairs hnames

theorem mem_pairs {zs : List (Entry × Sym)} (hentries : (addSymbols c v).symbols = zs.map Prod.fst)
    (hnames : ∀ z ∈ zs, z.2.st_name = (c.syms z.1.sym).name) {q : Query} {z : Entry × Sym}
    (hz : z ∈ zs) (hmatch : checkMatch q m z.2 ≠ .no) :
    z.1 ∈ (addSymbols c v).symbols ∧ z.1.hash = hashGnu q.undef_name ∧
      z.1.bucketIdx = (hashGnu q.undef_name).toNat % (addSymbols c v).nBuckets := by
  have hmem : z.1 ∈ (addSymbols c v).symbols := hentries ▸ List.mem_map_of_mem hz
  obtain ⟨hhash, hbucket⟩ := mem_symbols c v hmem
  rw [← hnames z hz, checkMatch_name hmatch] at hhash
  exact ⟨hmem, hhash, hhash ▸ hbucket⟩

-- Where the bucket of the hash is not empty, its run is tried.
theorem searchGnu_run (h : Hashed c v mem gnu m) {g : GnuMap} (hg : SetUp c v mem gnu g) (q : Query)
    {hash : BitVec 32} {zs pre run post : List (Entry × Sym)}
    (hentries : (addSymbols c v).symbols = zs.map Prod.fst)
    (hsyms : m.symtab.drop ((unhashed c v).length + 1) = zs.map Prod.snd) (hne : run ≠ [])
    (hsplit : zs = pre ++ run ++ post)
    (hrun : run = zs.filter fun z => z.1.bucketIdx = hash.toNat % (addSymbols c v).nBuckets)
    (hpost : ∀ z ∈ post, z.1.bucketIdx ≠ hash.toNat % (addSymbols c v).nBuckets)
    (hbucket : mem.at g.l_gnu_buckets (hash.toNat % (addSymbols c v).nBuckets) =
      .ofNat 32 ((unhashed c v).length + 1 + pre.length))
    {fuel : Nat} (hfuel : v.length ≤ fuel) :
    mem.at g.l_gnu_buckets (hash.toNat % (addSymbols c v).nBuckets) ≠ 0#32 ∧
      walkChain mem q m g.l_gnu_chain_zero hash fuel
          (mem.at g.l_gnu_buckets (hash.toNat % (addSymbols c v).nBuckets)).toNat {} =
        some (((run.filter fun z => (z.1.hash ^^^ hash) >>> 1 = 0#32).map Prod.snd).foldlM
          (tryMatch q m) {}) := by
  have hlen : pre.length + run.length + post.length = (addSymbols c v).symbols.length := by
    rw [hentries, List.length_map, hsplit, List.length_append, List.length_append]
  have hcount := length_symbols (c := c) (v := v)
  have hlt := h.lt
  have hindex : (BitVec.ofNat 32 ((unhashed c v).length + 1 + pre.length)).toNat =
      (unhashed c v).length + 1 + pre.length := by
    rw [BitVec.toNat_ofNat]
    omega
  rw [hbucket, hindex]
  refine ⟨fun hzero => ?_, ?_⟩
  · rw [hzero] at hindex
    simp only [BitVec.toNat_ofNat] at hindex
    omega
  · refine h.walkChain_run hg q hash (hsplit ▸ hentries) (hsplit ▸ hsyms) hne (fun z hz => ?_) hpost
      (by omega) {}
    rw [hrun, List.mem_filter] at hz
    exact of_decide_eq_true hz.2

-- The search tries some of the hashed symbols, among them all that match.
theorem searchGnu_tries (h : Hashed c v mem gnu m) {g : GnuMap} (hg : SetUp c v mem gnu g) (q : Query)
    {fuel : Nat} (hfuel : v.length ≤ fuel) :
    ∃ tried : List Sym,
      searchGnu mem q m g (hashGnu q.undef_name) fuel = some (tried.foldlM (tryMatch q m) {}) ∧
        (tried.filter fun sym => checkMatch q m sym ≠ .no) =
          (m.symtab.drop ((unhashed c v).length + 1)).filter fun sym => checkMatch q m sym ≠ .no := by
  obtain ⟨zs, hentries, hsyms, hnames⟩ := h.pairs
  have hmatch {z : Entry × Sym} := mem_pairs hentries hnames (q := q) (z := z) (m := m)
  have hnbpos := nBuckets_pos c v
  have hnbuckets : g.l_nbuckets.toNat = (addSymbols c v).nBuckets := by
    rw [hg.nbuckets, BitVec.toNat_ofNat, Nat.mod_eq_of_lt h.nBuckets_lt]
  have hnonzero : g.l_nbuckets ≠ 0#32 := by
    intro hzero
    rw [hzero] at hnbuckets
    exact hnbpos.ne hnbuckets
  -- nothing is tried where nothing can match
  have hnothing (hno : ∀ z ∈ zs, checkMatch q m z.2 = .no) :
      ([].filter fun sym => checkMatch q m sym ≠ .no) =
        (m.symtab.drop ((unhashed c v).length + 1)).filter fun sym => checkMatch q m sym ≠ .no := by
    rw [hsyms, List.filter_nil, eq_comm, List.filter_eq_nil_iff]
    intro sym hsym
    obtain ⟨z, hz, rfl⟩ := List.mem_map.mp hsym
    simpa using hno z hz
  unfold searchGnu
  rw [if_neg hnonzero, hnbuckets]
  by_cases hpass : passesFilter mem g (hashGnu q.undef_name)
  · rw [if_pos hpass]
    rcases h.bucket_cases hentries (Nat.mod_lt (hashGnu q.undef_name).toNat hnbpos) with
      ⟨hempty, hzero⟩ | ⟨pre, run, post, hne, hsplit, hrun, -, hpost, hfirst⟩
    · refine ⟨[], ?_, hnothing fun z hz => ?_⟩
      · rw [hg.buckets, hzero]
        rfl
      · by_contra hno
        exact hempty z hz (hmatch hz hno).2.2
    · rw [← hg.buckets] at hfirst
      obtain ⟨hbucket, hwalk⟩ := h.searchGnu_run hg q hentries hsyms hne hsplit hrun hpost hfirst hfuel
      refine ⟨_, (if_pos hbucket).trans hwalk, ?_⟩
      rw [hsyms, List.filter_map, List.filter_map, hrun, List.filter_filter, List.filter_filter]
      refine congrArg _ (List.filter_congr fun y hy => ?_)
      by_cases hno : checkMatch q m y.2 = .no
      · simp [hno]
      · obtain ⟨-, hhash, hbucket⟩ := hmatch hy hno
        simp [hno, hhash, hbucket]
  · rw [if_neg hpass]
    refine ⟨[], rfl, hnothing fun z hz => ?_⟩
    by_contra hno
    obtain ⟨hmem, hhash, -⟩ := hmatch hz hno
    exact hpass (hhash ▸ h.passesFilter_of_mem hg hmem)

-- Where a name is looked up through the hash table, the symbol is found that a search through the
-- whole symbol table finds.
theorem gnuLookup_eq_findSym (h : Hashed c v mem gnu m) (q : Query)
    (hname : 0#8 ∉ Hash.bytes q.undef_name)
    (htls : ∀ sym ∈ m.symtab, sym.st_shndx = .SHN_UNDEF → sym.st_name = q.undef_name →
      sym.st_type ≠ .STT_TLS)
    (fuel : Nat) (hfuel : v.length ≤ fuel) : gnuLookup mem q m gnu fuel = some (findSym q m) := by
  obtain ⟨g, hsetup, hg⟩ := h.setup
  obtain ⟨tried, hsearch, htried⟩ := h.searchGnu_tries hg q hfuel
  have hunhashed : (m.symtab.take ((unhashed c v).length + 1)).filter
      (fun sym => checkMatch q m sym ≠ .no) = [] := by
    rw [List.filter_eq_nil_iff]
    intro sym hsym
    obtain ⟨hvalue, hshndx⟩ := h.undefined sym hsym
    rw [decide_eq_true_eq, not_not]
    by_contra hno
    have htype := htls sym (List.mem_of_mem_take hsym) hshndx (checkMatch_name hno)
    unfold checkMatch at hno
    simp [hvalue, hshndx, htype] at hno
  have hsame : tried.foldlM (tryMatch q m) {} = m.symtab.foldlM (tryMatch q m) {} := by
    rw [Loader.foldlM_tryMatch_filter tried, Loader.foldlM_tryMatch_filter m.symtab, htried]
    nth_rewrite 2 [← List.take_append_drop ((unhashed c v).length + 1) m.symtab]
    rw [List.filter_append, hunhashed, List.nil_append]
  have hhash : Loader.dlNewHash 5381#32 (Hash.bytes q.undef_name) = hashGnu q.undef_name :=
    Loader.dlNewHash_eq _ _ hname
  rw [gnuLookup, hsetup, hhash, Option.bind_eq_bind, Option.bind_some, hsearch, Option.bind_eq_bind,
    Option.bind_some, hsame, Loader.settle_foldlM]
  rfl

section Count

variable (h : Hashed c v mem gnu m)
include h

theorem length_symtab : m.symtab.length = v.length + 1 := by
  have hlen := congrArg List.length h.names
  rwa [List.length_map, List.length_cons, List.length_map, (sorted_perm c v).length_eq] at hlen

theorem symoffset_eq : (GnuTable.symoffset ⟨mem, gnu⟩).toNat = (unhashed c v).length + 1 := by
  have hlen := length_symbols (c := c) (v := v)
  have hlt := h.lt
  rw [GnuTable.symoffset, h.header.2.1, BitVec.toNat_ofNat]
  omega

theorem nbuckets_eq : (GnuTable.nbuckets ⟨mem, gnu⟩).toNat = (addSymbols c v).nBuckets := by
  rw [GnuTable.nbuckets, h.header.1, BitVec.toNat_ofNat, Nat.mod_eq_of_lt h.nBuckets_lt]

theorem buckets_eq : GnuTable.buckets ⟨mem, gnu⟩ =
    gnu + 4#64 * .ofNat 64 (4 + 2 * (addSymbols c v).maskWords) := by
  rw [GnuTable.buckets, h.header.2.2.1, setWidth_ofNat h.maskWords_lt, BitVec.ofNat_add,
    BitVec.ofNat_mul]

theorem bucket_eq (b : Nat) : GnuTable.bucket ⟨mem, gnu⟩ b =
    mem.at gnu (4 + 2 * (addSymbols c v).maskWords + b) := by
  rw [GnuTable.bucket, h.buckets_eq, words_at_add]

theorem chainOf_eq {pre post : List Entry} {e : Entry}
    (hsplit : (addSymbols c v).symbols = pre ++ e :: post) :
    GnuTable.chainOf ⟨mem, gnu⟩ ((unhashed c v).length + 1 + pre.length) = chainWord e post := by
  have hlen := congrArg List.length hsplit
  have hcount := length_symbols (c := c) (v := v)
  have hlt := h.lt
  rw [List.length_append, List.length_cons] at hlen
  have hindex : (BitVec.ofNat 32 pre.length).toNat = pre.length := by
    rw [BitVec.toNat_ofNat]
    omega
  rw [GnuTable.chainOf, h.symoffset_eq, Nat.add_sub_cancel_left, GnuTable.chain, hindex,
    GnuTable.chains, h.buckets_eq, GnuTable.nbuckets, h.header.1, setWidth_ofNat h.nBuckets_lt,
    words_at_add, words_at_add, h.chain_word hsplit]

theorem chain_goes_on {j : Nat} {e e' : Entry} (he : (addSymbols c v).symbols[j]? = some e)
    (he' : (addSymbols c v).symbols[j + 1]? = some e') (hbucket : e.bucketIdx = e'.bucketIdx) :
    GnuTable.chainOf ⟨mem, gnu⟩ ((unhashed c v).length + 1 + j) &&& 1#32 = 0#32 := by
  obtain ⟨hsplit, hlen⟩ := split_at he
  obtain ⟨hj, hget⟩ := List.getElem?_eq_some_iff.mp he'
  rw [List.drop_eq_getElem_cons hj, hget] at hsplit
  rw [← hlen, h.chainOf_eq hsplit, chainWord_and]
  exact decide_eq_false (not_not.mpr hbucket)

theorem chain_ends {j : Nat} (hj : (addSymbols c v).symbols.length = j + 1) :
    GnuTable.chainOf ⟨mem, gnu⟩ ((unhashed c v).length + 1 + j) &&& 1#32 ≠ 0#32 := by
  have hlt : j < (addSymbols c v).symbols.length := by omega
  obtain ⟨hsplit, hlen⟩ := split_at (List.getElem?_eq_getElem hlt)
  rw [← hj, List.drop_length] at hsplit
  rw [← hlen, h.chainOf_eq hsplit, Ne, chainWord_and]
  exact Bool.noConfusion

theorem covered {j : Nat} (hj : j < (addSymbols c v).symbols.length) :
    ∃ b < (addSymbols c v).nBuckets, ∃ first ≤ j,
      GnuTable.bucket ⟨mem, gnu⟩ b = .ofNat 32 ((unhashed c v).length + 1 + first) ∧
        ∀ i, first ≤ i → i < j →
          GnuTable.chainOf ⟨mem, gnu⟩ ((unhashed c v).length + 1 + i) &&& 1#32 = 0#32 := by
  obtain ⟨zs, hentries, -, -⟩ := h.pairs
  obtain ⟨z, hget⟩ : ∃ z, zs[j]? = some z := by
    rw [hentries, List.length_map] at hj
    exact ⟨_, List.getElem?_eq_getElem hj⟩
  have hz := List.mem_of_getElem? hget
  have hb : z.1.bucketIdx < (addSymbols c v).nBuckets := by
    rw [(mem_symbols c v (hentries ▸ List.mem_map_of_mem hz)).2]
    exact Nat.mod_lt _ (nBuckets_pos c v)
  rcases h.bucket_cases hentries hb with
    ⟨hempty, -⟩ | ⟨pre, run, post, -, hsplit, hrun, hpre, hpost, hfirst⟩
  · exact absurd rfl (hempty z hz)
  · have hge : pre.length ≤ j := by
      by_contra hlt
      rw [hsplit, List.append_assoc, List.getElem?_append_left (Nat.lt_of_not_le hlt)] at hget
      exact hpre z (List.mem_of_getElem? hget) rfl
    have hlt : j < (pre ++ run).length := by
      by_contra hge
      rw [hsplit, List.getElem?_append_right (Nat.le_of_not_lt hge)] at hget
      exact hpost z (List.mem_of_getElem? hget) rfl
    rw [List.length_append] at hlt
    -- the symbols from the first of the run on are of the run
    have hin (i : Nat) (hi : pre.length ≤ i) (hij : i ≤ j) :
        ∃ e, (addSymbols c v).symbols[i]? = some e ∧ e.bucketIdx = z.1.bucketIdx := by
      have hrunlt : i - pre.length < run.length := by omega
      have hmem : run[i - pre.length] ∈ zs.filter fun y => y.1.bucketIdx = z.1.bucketIdx :=
        hrun ▸ List.getElem_mem hrunlt
      refine ⟨(run[i - pre.length]).1, ?_, of_decide_eq_true (List.mem_filter.mp hmem).2⟩
      rw [hentries, hsplit, List.getElem?_map, List.append_assoc, List.getElem?_append_right hi,
        List.getElem?_append_left hrunlt, List.getElem?_eq_getElem hrunlt]
      rfl
    refine ⟨_, hb, pre.length, hge, (h.bucket_eq _).trans hfirst, fun i hi hij => ?_⟩
    obtain ⟨e, he, hbucket⟩ := hin i hi hij.le
    obtain ⟨e', he', hbucket'⟩ := hin (i + 1) (hi.trans (Nat.le_succ i)) hij
    exact h.chain_goes_on he he' (hbucket.trans hbucket'.symm)

theorem wellFormed : GnuTable.WellFormed ⟨mem, gnu⟩ (v.length + 1) := by
  have hlen := length_symbols (c := c) (v := v)
  have hoffset := h.symoffset_eq
  have hlt := h.lt
  refine ⟨h.lt, by omega, by omega, fun b hb => ?_, fun i hi hin => ?_, fun hin => ?_⟩
  · rw [h.nbuckets_eq] at hb
    obtain ⟨zs, hentries, -, -⟩ := h.pairs
    rcases h.bucket_cases hentries hb with
      ⟨-, hzero⟩ | ⟨pre, run, post, hne, hsplit, -, -, -, hfirst⟩
    · exact .inl ((h.bucket_eq b).trans hzero)
    · have hrun := List.length_pos_iff.mpr hne
      have hsum : (addSymbols c v).symbols.length = pre.length + run.length + post.length := by
        rw [hentries, List.length_map, hsplit, List.length_append, List.length_append]
      right
      rw [h.bucket_eq, hfirst, BitVec.toNat_ofNat]
      omega
  · obtain ⟨b, hb, first, hle, hbucket, hclear⟩ :=
      h.covered (j := i - ((unhashed c v).length + 1)) (by omega)
    have hindex : (BitVec.ofNat 32 ((unhashed c v).length + 1 + first)).toNat =
        (unhashed c v).length + 1 + first := by
      rw [BitVec.toNat_ofNat]
      omega
    refine ⟨b, h.nbuckets_eq ▸ hb, fun hzero => ?_, ?_, fun j hj hji => ?_⟩
    · rw [← hbucket, hzero] at hindex
      simp only [BitVec.toNat_ofNat] at hindex
      omega
    · rw [hbucket, hindex]
      omega
    · rw [hbucket, hindex] at hj
      have hclear := hclear (j - ((unhashed c v).length + 1)) (by omega) (by omega)
      rwa [Nat.add_sub_cancel' (by omega)] at hclear
  · have hends := h.chain_ends (j := (addSymbols c v).symbols.length - 1) (by omega)
    have hlast : v.length + 1 - 1 =
        (unhashed c v).length + 1 + ((addSymbols c v).symbols.length - 1) := by omega
    rw [hlast]
    exact hends

end Count

-- The symbols of a linked object are counted from its hash table alone.
theorem symtab_counted (h : Hashed c v mem gnu m) (d : Loader.DynamicSection)
    (hsysv : d.ptr .DT_HASH = 0#64) (hgnu : d.ptr .DT_GNU_HASH = gnu) (hne : gnu ≠ 0#64) (fuel : Nat)
    (hfuel : m.symtab.length ≤ fuel) :
    Loader.getDynsymtabAndCountFromLinkMap mem fuel d.l_ld =
      some (d.ptr .DT_SYMTAB, m.symtab.length) := by
  have hlen := h.length_symtab
  have hnsyms := h.wellFormed.nsyms_eq (hlen ▸ hfuel)
  have hlt := h.lt
  rw [Loader.getDynsymtabAndCountFromLinkMap, d.scanDynamic_l_ld, hlen]
  simpa [hsysv, hgnu, hne, hnsyms] using hlt

end Hashed

-- Three symbols that are found in their table.

def wordsAt (gnu : Loader.Word) (ws : List (BitVec 32)) : Words :=
  fun a => (ws[(a - gnu).toNat / 4]?).getD 0#32

theorem wordsAt_at {gnu : Loader.Word} {ws : List (BitVec 32)} (hlen : ws.length < 2 ^ 62) {i : Nat}
    {w : BitVec 32} (hw : ws[i]? = some w) : (wordsAt gnu ws).at gnu i = w := by
  have hi := (List.getElem?_eq_some_iff.mp hw).1
  have hindex : (gnu + 4#64 * BitVec.ofNat 64 i - gnu).toNat / 4 = i := by
    rw [BitVec.add_comm, BitVec.add_sub_cancel, BitVec.toNat_mul, BitVec.toNat_ofNat,
      BitVec.toNat_ofNat]
    omega
  rw [Words.at, wordsAt, hindex, hw]
  rfl

def hashCtx : Ctx where
  syms
    | .sym 0 => { name := "puts".toList, kind := .Shared }
    | .sym 1 => { name := "apply".toList, kind := .Defined }
    | _ => { name := "main".toList, kind := .Defined }

def hashEntries : List SymbolTableEntry := [⟨.sym 1, 1⟩, ⟨.sym 0, 7⟩, ⟨.sym 2, 12⟩]

def hashModule : Loader.Module where
  id := 0
  symtab :=
    [{ st_name := [], st_type := .STT_NOTYPE, st_shndx := .SHN_UNDEF, st_value := 0#64 },
      { st_name := "puts".toList, st_shndx := .SHN_UNDEF, st_value := 0#64 },
      { st_name := "apply".toList, st_value := 0x1000#64 },
      { st_name := "main".toList, st_value := 0x1040#64 }]

def hashWords : Words := wordsAt 0x400#64 (written hashCtx hashEntries)

theorem hashModule_hashed : Hashed hashCtx hashEntries hashWords 0x400#64 hashModule where
  nodup := by decide
  lt := by decide
  words _ _ hw := wordsAt_at (by decide) hw
  names := by decide
  undefined := by decide

theorem gnuLookup_eq_findSym_main :
    gnuLookup hashWords ⟨"main".toList, hashModule, none, none, false, false, false, none⟩ hashModule
        0x400#64 3 =
      some (findSym ⟨"main".toList, hashModule, none, none, false, false, false, none⟩ hashModule) :=
  hashModule_hashed.gnuLookup_eq_findSym _ (by decide) (by decide) 3 (by decide)

def hashDynamic : Loader.DynamicSection where
  entries := [⟨.DT_SYMTAB, 0x200#64⟩, ⟨.DT_GNU_HASH, 0x400#64⟩]
  noNull := by decide

theorem symtab_counted_hashModule :
    Loader.getDynsymtabAndCountFromLinkMap hashWords 4 hashDynamic.l_ld = some (0x200#64, 4) :=
  hashModule_hashed.symtab_counted hashDynamic (by decide) (by decide) (by decide) 4 (by decide)

end Platypus.System
