import Platypus.Hash.Chains
import Platypus.Linker.Symbols

-- The `.gnu.hash` section, and the order of `.dynsym` that goes with it.

namespace Platypus.Linker

structure SymbolTableEntry where
  sym : SymId
  strTabOffset : Nat
  deriving DecidableEq, Repr

def hashGnu (name : Name) : BitVec 32 := Hash.times33 5381#32 (Hash.bytes name)

-- `NextPowerOf2`: the least power of two above a number.
def nextPowerOf2 (n : Nat) : Nat := if n = 0 then 1 else 2 ^ (n.log2 + 1)

namespace GnuHashTableSection

structure Entry where
  sym : SymId
  strTabOffset : Nat
  hash : BitVec 32
  bucketIdx : Nat
  deriving DecidableEq, Repr

def Entry.le (l r : Entry) : Prop :=
  l.bucketIdx < r.bucketIdx ∨ l.bucketIdx = r.bucketIdx ∧ l.strTabOffset ≤ r.strTabOffset

instance : DecidableRel Entry.le := fun _ _ => inferInstanceAs (Decidable (_ ∨ _))

end GnuHashTableSection

structure GnuHashTableSection where
  nBuckets : Nat
  symbols : List GnuHashTableSection.Entry

namespace GnuHashTableSection

def Shift2 : Nat := 26

section AddSymbols

variable (c : Ctx) (v : List SymbolTableEntry)

def isHashed (s : SymbolTableEntry) : Bool := (c.syms s.sym).kind = .Defined

def unhashed : List SymbolTableEntry := v.filter fun s => !isHashed c s

def entry (nBuckets : Nat) (ent : SymbolTableEntry) : Entry :=
  let hash := hashGnu (c.syms ent.sym).name
  ⟨ent.sym, ent.strTabOffset, hash, hash.toNat % nBuckets⟩

def addSymbols : GnuHashTableSection :=
  let hashed := v.filter (isHashed c)
  let nBuckets := max (hashed.length / 4) 1
  ⟨nBuckets, (hashed.map (entry c nBuckets)).insertionSort Entry.le⟩

-- The symbols of `.dynsym` afterwards.
def sorted : List SymbolTableEntry :=
  unhashed c v ++ (addSymbols c v).symbols.map fun e => ⟨e.sym, e.strTabOffset⟩

end AddSymbols

-- The numbers that the symbols of `.dynsym` get; the null symbol is before them.
def number : Nat → (SymId → Nat) → List SymbolTableEntry → SymId → Nat
  | _, dynsymIndex, [] => dynsymIndex
  | i, dynsymIndex, s :: ss => number (i + 1) (Function.update dynsymIndex s.sym (i + 1)) ss

section WriteTo

variable (S : GnuHashTableSection)

def maskWords : Nat := if S.symbols = [] then 1 else nextPowerOf2 (S.symbols.length * 12 / 64)

def wordOf (hash : BitVec 32) : Nat := (hash.toNat / 64) &&& (S.maskWords - 1)

def bitsOf (hash : BitVec 32) : BitVec 64 :=
  1#64 <<< (hash.toNat % 64) ||| 1#64 <<< ((hash >>> Shift2).toNat % 64)

def setBits (words : List (BitVec 64)) (e : Entry) : List (BitVec 64) :=
  words.modify (S.wordOf e.hash) (· ||| bitsOf e.hash)

def bloomFilter : List (BitVec 64) := S.symbols.foldl S.setBits (List.replicate S.maskWords 0#64)

-- A word of 64 bits in memory is two of 32, the lower one first.
def halves (ws : List (BitVec 64)) : List (BitVec 32) :=
  ws.flatMap fun w : BitVec 64 => [w.setWidth 32, (w >>> 32).setWidth 32]

def isLastInChain (e : Entry) : List Entry → Bool
  | [] => true
  | e' :: _ => e.bucketIdx ≠ e'.bucketIdx

def chainWord (e : Entry) (es : List Entry) : BitVec 32 :=
  if isLastInChain e es then e.hash ||| 1#32 else e.hash &&& ~~~1#32

-- The loop over the symbols: the buckets, and the words of the chains.
def writeChains (index : SymId → Nat) :
    Nat → List (BitVec 32) → List Entry → List (BitVec 32) × List (BitVec 32)
  | _, buckets, [] => (buckets, [])
  | oldBucket, buckets, e :: es =>
    let buckets :=
      if e.bucketIdx = oldBucket then buckets
      else buckets.set e.bucketIdx (.ofNat 32 (index e.sym))
    let written := writeChains index e.bucketIdx buckets es
    (written.1, chainWord e es :: written.2)

-- The section in words of 32 bits.
def writeTo (dynsym : List SymbolTableEntry) (index : SymId → Nat) : List (BitVec 32) :=
  let written := writeChains index (2 ^ 32 - 1) (List.replicate S.nBuckets 0#32) S.symbols
  [.ofNat 32 S.nBuckets, .ofNat 32 (dynsym.length + 1 - S.symbols.length), .ofNat 32 S.maskWords,
      .ofNat 32 Shift2] ++
    halves S.bloomFilter ++ written.1 ++ written.2

end WriteTo

-- The section of a link.
def written (c : Ctx) (v : List SymbolTableEntry) : List (BitVec 32) :=
  (addSymbols c v).writeTo (sorted c v) (number 0 (fun _ => 0) (sorted c v))

theorem nextPowerOf2_eq (n : Nat) : ∃ k, nextPowerOf2 n = 2 ^ k := by
  unfold nextPowerOf2
  split
  · exact ⟨0, rfl⟩
  · exact ⟨_, rfl⟩

theorem maskWords_eq (S : GnuHashTableSection) : ∃ k, S.maskWords = 2 ^ k := by
  unfold maskWords
  split
  · exact ⟨0, rfl⟩
  · exact nextPowerOf2_eq _

theorem number_of_not_mem {ss : List SymbolTableEntry} {s : SymId} (h : s ∉ ss.map (·.sym))
    (i : Nat) (f : SymId → Nat) : number i f ss s = f s := by
  induction ss generalizing i f with
  | nil => rfl
  | cons s' ss ih =>
    rw [List.map_cons, List.mem_cons, not_or] at h
    rw [number, ih h.2, Function.update_of_ne h.1]

theorem number_eq {ss : List SymbolTableEntry} (hnodup : (ss.map (·.sym)).Nodup) {j : Nat}
    {s : SymbolTableEntry} (hs : ss[j]? = some s) (i : Nat) (f : SymId → Nat) :
    number i f ss s.sym = i + j + 1 := by
  induction ss generalizing i f j with
  | nil => cases hs
  | cons s' ss ih =>
    rw [List.map_cons, List.nodup_cons] at hnodup
    cases j with
    | zero =>
      cases hs
      rw [number, number_of_not_mem hnodup.1, Function.update_self, Nat.add_zero]
    | succ j =>
      rw [number, ih hnodup.2 hs]
      omega

section Chains

variable {index : SymId → Nat} {k : Nat}

theorem writeChains_length (old : Nat) (bs : List (BitVec 32)) (es : List Entry) :
    (writeChains index old bs es).1.length = bs.length ∧
      (writeChains index old bs es).2.length = es.length := by
  induction es generalizing old bs with
  | nil => exact ⟨rfl, rfl⟩
  | cons e es ih =>
    obtain ⟨hbuckets, hvalues⟩ := ih e.bucketIdx
      (if e.bucketIdx = old then bs else bs.set e.bucketIdx (.ofNat 32 (index e.sym)))
    refine ⟨hbuckets.trans ?_, congrArg (· + 1) hvalues⟩
    split
    · rfl
    · exact List.length_set

theorem writeChains_value (old : Nat) (bs : List (BitVec 32)) (pre : List Entry) (e : Entry)
    (post : List Entry) :
    (writeChains index old bs (pre ++ e :: post)).2[pre.length]? = some (chainWord e post) := by
  induction pre generalizing old bs with
  | nil => rfl
  | cons e' pre ih => exact ih _ _

theorem bucket_set_of_ne {e : Entry} (h : e.bucketIdx ≠ k) (old : Nat) (bs : List (BitVec 32)) :
    (if e.bucketIdx = old then bs else bs.set e.bucketIdx (.ofNat 32 (index e.sym)))[k]? =
      bs[k]? := by
  split
  · rfl
  · exact List.getElem?_set_ne h

theorem writeChains_of_not_mem {es : List Entry} (h : ∀ e ∈ es, e.bucketIdx ≠ k) (old : Nat)
    (bs : List (BitVec 32)) : (writeChains index old bs es).1[k]? = bs[k]? := by
  induction es generalizing old bs with
  | nil => rfl
  | cons e es ih =>
    rw [List.forall_mem_cons] at h
    rw [writeChains, ih h.2, bucket_set_of_ne h.1]

-- The bucket of the chain that is being written is not written again.
theorem writeChains_of_old {es : List Entry}
    (hsorted : es.Pairwise fun l r => l.bucketIdx ≤ r.bucketIdx) (hle : ∀ e ∈ es, k ≤ e.bucketIdx)
    (bs : List (BitVec 32)) : (writeChains index k bs es).1[k]? = bs[k]? := by
  induction es generalizing bs with
  | nil => rfl
  | cons e es ih =>
    rw [List.pairwise_cons] at hsorted
    rw [List.forall_mem_cons] at hle
    by_cases heq : e.bucketIdx = k
    · rw [writeChains, if_pos heq, heq]
      exact ih hsorted.2 hle.2 bs
    · have hnone : ∀ e' ∈ es, e'.bucketIdx ≠ k := by
        intro e' he'
        have hlt := hsorted.1 e' he'
        have hge := hle.1
        omega
      rw [writeChains, writeChains_of_not_mem hnone, bucket_set_of_ne heq]

theorem writeChains_bucket (pre : List Entry) (hpre : ∀ e ∈ pre, e.bucketIdx ≠ k) (e : Entry)
    (he : e.bucketIdx = k) (post : List Entry)
    (hsorted : (pre ++ e :: post).Pairwise fun l r => l.bucketIdx ≤ r.bucketIdx) {old : Nat}
    (hold : old ≠ k) (bs : List (BitVec 32)) (hk : k < bs.length) :
    (writeChains index old bs (pre ++ e :: post)).1[k]? = some (.ofNat 32 (index e.sym)) := by
  induction pre generalizing old bs with
  | nil =>
    rw [List.nil_append, List.pairwise_cons] at hsorted
    rw [List.nil_append, writeChains, if_neg (he ▸ hold.symm), he,
      writeChains_of_old hsorted.2 (he ▸ hsorted.1), List.getElem?_set_self hk]
  | cons e' pre ih =>
    rw [List.forall_mem_cons] at hpre
    rw [List.cons_append, List.pairwise_cons] at hsorted
    rw [List.cons_append, writeChains]
    refine ih hpre.2 hsorted.2 hpre.1 _ ?_
    split
    · exact hk
    · rw [List.length_set]
      exact hk

end Chains

section Words

theorem chainWord_xor (e : Entry) (es : List Entry) (h : BitVec 32) :
    (chainWord e es ^^^ h) >>> 1 = (e.hash ^^^ h) >>> 1 := by
  apply BitVec.eq_of_getLsbD_eq
  intro i hi
  have hone : (1#32).getLsbD (1 + i) = false := by
    simp
  rw [BitVec.getLsbD_ushiftRight, BitVec.getLsbD_ushiftRight, BitVec.getLsbD_xor, BitVec.getLsbD_xor]
  congr 1
  unfold chainWord
  split
  · rw [BitVec.getLsbD_or, hone, Bool.or_false]
  · rw [BitVec.getLsbD_and, BitVec.getLsbD_not, hone]
    by_cases hlt : 1 + i < 32
    · simp [hlt]
    · simp [hlt, BitVec.getLsbD_of_ge _ _ (Nat.le_of_not_lt hlt)]

theorem chainWord_and (e : Entry) (es : List Entry) :
    chainWord e es &&& 1#32 = 0#32 ↔ isLastInChain e es = false := by
  unfold chainWord
  split
  · rename_i hlast
    simp only [hlast, Bool.true_eq_false, iff_false]
    intro h
    have hbit := congrArg (BitVec.getLsbD · 0) h
    simp at hbit
  · rename_i hlast
    simp only [hlast, iff_true]
    rw [BitVec.and_assoc]
    simp

theorem bitsOf_first (h : BitVec 32) : (bitsOf h).getLsbD (h.toNat % 64) := by
  have hlt := Nat.mod_lt h.toNat (show 0 < 64 by decide)
  rw [bitsOf, BitVec.getLsbD_or, BitVec.getLsbD_shiftLeft]
  simp [hlt]

theorem bitsOf_second (h : BitVec 32) : (bitsOf h).getLsbD ((h >>> 26).toNat % 64) := by
  have hlt := Nat.mod_lt (h >>> 26).toNat (show 0 < 64 by decide)
  rw [bitsOf, BitVec.getLsbD_or, Shift2, BitVec.getLsbD_shiftLeft (1#64) ((h >>> 26).toNat % 64)]
  simp only [hlt, decide_true, Nat.lt_irrefl, decide_false, Bool.not_false, Bool.true_and, Nat.sub_self]
  exact Bool.or_true _

end Words

section Filter

variable (S : GnuHashTableSection)

theorem foldl_setBits_length (es : List Entry) (ws : List (BitVec 64)) :
    (es.foldl S.setBits ws).length = ws.length := by
  induction es generalizing ws with
  | nil => rfl
  | cons e es ih => rw [List.foldl_cons, ih, setBits, List.length_modify]

theorem bloomFilter_length : S.bloomFilter.length = S.maskWords := by
  rw [bloomFilter, foldl_setBits_length, List.length_replicate]

theorem wordOf_lt (hash : BitVec 32) : S.wordOf hash < S.maskWords := by
  obtain ⟨k, hk⟩ := S.maskWords_eq
  have hle : S.wordOf hash ≤ S.maskWords - 1 := Nat.and_le_right
  have hpos : 0 < S.maskWords := hk ▸ Nat.two_pow_pos k
  omega

-- Bits that are set stay set.
theorem foldl_setBits_testBit (es : List Entry) (ws : List (BitVec 64)) {i b : Nat} {w : BitVec 64}
    (hw : ws[i]? = some w) (hb : w.getLsbD b) :
    ∃ w', (es.foldl S.setBits ws)[i]? = some w' ∧ w'.getLsbD b := by
  induction es generalizing ws w with
  | nil => exact ⟨w, hw, hb⟩
  | cons e es ih =>
    rw [List.foldl_cons]
    by_cases hi : S.wordOf e.hash = i
    · refine ih _ (w := w ||| bitsOf e.hash) ?_ ?_
      · rw [setBits, hi, List.getElem?_modify_eq, hw]
        rfl
      · rw [BitVec.getLsbD_or, hb, Bool.true_or]
    · refine ih _ ?_ hb
      rw [setBits, List.getElem?_modify_ne _ _ hi]
      exact hw

theorem bloomFilter_testBit {e : Entry} (he : e ∈ S.symbols) {b : Nat} (hb : (bitsOf e.hash).getLsbD b) :
    ∃ w, S.bloomFilter[S.wordOf e.hash]? = some w ∧ w.getLsbD b := by
  obtain ⟨pre, post, hsplit⟩ := List.append_of_mem he
  have hlen : S.wordOf e.hash < (pre.foldl S.setBits (List.replicate S.maskWords 0#64)).length := by
    rw [foldl_setBits_length, List.length_replicate]
    exact S.wordOf_lt e.hash
  rw [bloomFilter, hsplit, List.foldl_append, List.foldl_cons]
  obtain ⟨w, hw⟩ : ∃ w, (pre.foldl S.setBits (List.replicate S.maskWords 0#64))[S.wordOf e.hash]? =
      some w := ⟨_, List.getElem?_eq_getElem hlen⟩
  refine S.foldl_setBits_testBit post _ (w := w ||| bitsOf e.hash) ?_ ?_
  · rw [setBits, List.getElem?_modify_eq, hw]
    rfl
  · rw [BitVec.getLsbD_or, hb, Bool.or_true]

end Filter

-- The places of the parts of the section.

section Layout

variable (S : GnuHashTableSection) (dynsym : List SymbolTableEntry) (index : SymId → Nat)

theorem halves_length (ws : List (BitVec 64)) : (halves ws).length = 2 * ws.length := by
  induction ws with
  | nil => rfl
  | cons w ws ih =>
    rw [List.length_cons, Nat.mul_succ, ← ih]
    rfl

theorem halves_get {ws : List (BitVec 64)} {i : Nat} {w : BitVec 64} (h : ws[i]? = some w) :
    (halves ws)[2 * i]? = some (w.setWidth 32) ∧
      (halves ws)[2 * i + 1]? = some ((w >>> 32).setWidth 32) := by
  induction ws generalizing i with
  | nil => cases h
  | cons w' ws ih =>
    cases i with
    | zero =>
      cases h
      exact ⟨rfl, rfl⟩
    | succ i => exact ih h

theorem writeTo_filter {i : Nat} {w : BitVec 64} (h : S.bloomFilter[i]? = some w) :
    (S.writeTo dynsym index)[4 + 2 * i]? = some (w.setWidth 32) ∧
      (S.writeTo dynsym index)[4 + (2 * i + 1)]? = some ((w >>> 32).setWidth 32) := by
  have hhalves := halves_get h
  have hin (j : Nat) (x : BitVec 32) (hx : (halves S.bloomFilter)[j]? = some x) :
      (S.writeTo dynsym index)[4 + j]? = some x := by
    have hj := (List.getElem?_eq_some_iff.mp hx).1
    rw [writeTo, List.append_assoc, List.append_assoc,
      List.getElem?_append_right (Nat.le_add_right 4 j)]
    refine (congrArg _ (Nat.add_sub_cancel_left ..)).trans ?_
    rw [List.getElem?_append_left hj]
    exact hx
  exact ⟨hin _ _ hhalves.1, hin _ _ hhalves.2⟩

theorem writeTo_chains (j : Nat) :
    (S.writeTo dynsym index)[4 + 2 * S.maskWords + j]? =
      ((writeChains index (2 ^ 32 - 1) (List.replicate S.nBuckets 0#32) S.symbols).1 ++
        (writeChains index (2 ^ 32 - 1) (List.replicate S.nBuckets 0#32) S.symbols).2)[j]? := by
  have hlen : ([BitVec.ofNat 32 S.nBuckets, .ofNat 32 (dynsym.length + 1 - S.symbols.length),
      .ofNat 32 S.maskWords, .ofNat 32 Shift2] ++ halves S.bloomFilter).length =
        4 + 2 * S.maskWords := by
    rw [List.length_append, halves_length, bloomFilter_length]
    rfl
  rw [writeTo, List.append_assoc, List.getElem?_append_right (hlen ▸ Nat.le_add_right ..),
    hlen, Nat.add_sub_cancel_left]

theorem writeTo_bucket {k : Nat} (hk : k < S.nBuckets) :
    (S.writeTo dynsym index)[4 + 2 * S.maskWords + k]? =
      (writeChains index (2 ^ 32 - 1) (List.replicate S.nBuckets 0#32) S.symbols).1[k]? := by
  rw [writeTo_chains, List.getElem?_append_left]
  rw [(writeChains_length ..).1, List.length_replicate]
  exact hk

theorem writeTo_value {pre post : List Entry} {e : Entry} (h : S.symbols = pre ++ e :: post) :
    (S.writeTo dynsym index)[4 + 2 * S.maskWords + (S.nBuckets + pre.length)]? =
      some (chainWord e post) := by
  have hlen : (writeChains index (2 ^ 32 - 1) (List.replicate S.nBuckets 0#32) S.symbols).1.length =
      S.nBuckets := by
    rw [(writeChains_length ..).1, List.length_replicate]
  rw [writeTo_chains, List.getElem?_append_right (hlen.le.trans (Nat.le_add_right ..)), hlen,
    Nat.add_sub_cancel_left, h]
  exact writeChains_value ..

end Layout

-- The order of the symbols.

section Sorted

variable (c : Ctx) (v : List SymbolTableEntry)

instance : Std.Total Entry.le := ⟨fun a b => by unfold Entry.le; omega⟩

instance : IsTrans Entry Entry.le := ⟨fun a b d => by unfold Entry.le; omega⟩

theorem symbols_perm : (addSymbols c v).symbols.Perm
    ((v.filter (isHashed c)).map (entry c (addSymbols c v).nBuckets)) :=
  List.perm_insertionSort ..

theorem symbols_sorted :
    (addSymbols c v).symbols.Pairwise fun l r => l.bucketIdx ≤ r.bucketIdx :=
  (List.pairwise_insertionSort Entry.le _).imp fun h => by
    unfold Entry.le at h
    omega

theorem nBuckets_pos : 0 < (addSymbols c v).nBuckets := Nat.lt_of_lt_of_le Nat.one_pos (Nat.le_max_right ..)

theorem nBuckets_le : (addSymbols c v).nBuckets ≤ v.length + 1 := by
  have hle := List.length_filter_le (isHashed c) v
  unfold addSymbols
  dsimp only
  omega

theorem mem_symbols {e : Entry} (h : e ∈ (addSymbols c v).symbols) :
    e.hash = hashGnu (c.syms e.sym).name ∧
      e.bucketIdx = e.hash.toNat % (addSymbols c v).nBuckets := by
  obtain ⟨ent, -, rfl⟩ := List.mem_map.mp ((symbols_perm c v).mem_iff.mp h)
  exact ⟨rfl, rfl⟩

theorem sorted_perm : (sorted c v).Perm v := by
  have hmap : ((addSymbols c v).symbols.map fun e => (⟨e.sym, e.strTabOffset⟩ : SymbolTableEntry)).Perm
      (v.filter (isHashed c)) := by
    refine ((symbols_perm c v).map _).trans ?_
    rw [List.map_map]
    exact List.Perm.of_eq (List.map_id _)
  refine (List.Perm.append_left _ hmap).trans ?_
  exact List.perm_append_comm.trans (List.filter_append_perm (isHashed c) v)

end Sorted

end GnuHashTableSection

end Platypus.Linker
