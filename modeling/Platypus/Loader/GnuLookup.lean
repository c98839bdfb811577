import Platypus.Hash.Chains
import Platypus.Loader.DynSymCount
import Platypus.Loader.Lookup

-- The search for a name in the `DT_GNU_HASH` table of a module.

namespace Platypus.Loader

-- `_dl_new_hash`, which takes two characters in a round; the string ends before a null.
def dlNewHash : BitVec 32 → List (BitVec 8) → BitVec 32
  | h, [] => h
  | h, [c0] => if c0 = 0#8 then h else h * 32#32 + (c0.setWidth 32 + h)
  | h, c0 :: c1 :: s =>
    if c0 = 0#8 then h
    else if c1 = 0#8 then h * 32#32 + (c0.setWidth 32 + h)
    else
      dlNewHash
        (h * (33#32 * 33#32) + (c1.setWidth 32 + c0.setWidth 32 + c0.setWidth 32 * 32#32)) s

-- What `_dl_setup_hash` keeps of the table.
structure GnuMap where
  l_nbuckets : BitVec 32
  l_gnu_bitmask_idxbits : BitVec 32
  l_gnu_shift : BitVec 32
  l_gnu_bitmask : Word
  l_gnu_buckets : Word
  l_gnu_chain_zero : Word

-- `none` where the assertion fails.
def dlSetupHash (mem : Words) (hash32 : Word) : Option GnuMap :=
  let nbuckets := mem.at hash32 0
  let symbias := mem.at hash32 1
  let bitmask_nwords := mem.at hash32 2
  if bitmask_nwords &&& (bitmask_nwords - 1#32) = 0#32 then
    let bitmask := hash32 + 16#64
    let buckets := bitmask + 4#64 * (2#64 * bitmask_nwords.setWidth 64)
    some ⟨nbuckets, bitmask_nwords - 1#32, mem.at hash32 3, bitmask, buckets,
      buckets + 4#64 * nbuckets.setWidth 64 - 4#64 * symbias.setWidth 64⟩
  else none

-- The match so far that the version tables leave open, and how many there were.
structure Versioned where
  versioned_sym : Option Sym := none
  num_versions : Nat := 0

section Walk

variable (mem : Words) (q : Query) (m : Module)

-- `check_match` with its effect on the two variables; `.error` is `goto found_it`.
def tryMatch (st : Versioned) (sym : Sym) : Except Sym Versioned :=
  match checkMatch q m sym with
  | .yes => .error sym
  | .fallback => .ok ⟨if st.num_versions = 0 then some sym else st.versioned_sym, st.num_versions + 1⟩
  | .no => .ok st

-- The chain from a symbol on; `none` where it leaves the symbol table or takes more rounds.
def walkChain (chain_zero : Word) (new_hash : BitVec 32) :
    Nat → Nat → Versioned → Option (Except Sym Versioned)
  | 0, _, _ => none
  | fuel + 1, symidx, st => do
    let word := mem.at chain_zero symidx
    let tried ←
      if (word ^^^ new_hash) >>> 1 = 0#32 then (m.symtab[symidx]?).map (tryMatch q m st)
      else some (.ok st)
    match tried with
    | .error sym => some (.error sym)
    | .ok st =>
      if word &&& 1#32 = 0#32 then walkChain chain_zero new_hash fuel (symidx + 1) st
      else some (.ok st)

def bitmaskWord (bitmask : Word) (i : Nat) : BitVec 64 :=
  mem.at bitmask (2 * i + 1) ++ mem.at bitmask (2 * i)

def passesFilter (g : GnuMap) (new_hash : BitVec 32) : Bool :=
  let word := bitmaskWord mem g.l_gnu_bitmask
    ((new_hash.toNat / 64) &&& g.l_gnu_bitmask_idxbits.toNat)
  let hashbit1 := new_hash.toNat &&& 63
  let hashbit2 := (new_hash >>> g.l_gnu_shift.toNat).toNat &&& 63
  (word >>> hashbit1) &&& (word >>> hashbit2) &&& 1#64 ≠ 0#64

def searchGnu (g : GnuMap) (new_hash : BitVec 32) (fuel : Nat) : Option (Except Sym Versioned) :=
  if g.l_nbuckets = 0#32 then some (.ok {})
  else if passesFilter mem g new_hash then
    let bucket := mem.at g.l_gnu_buckets (new_hash.toNat % g.l_nbuckets.toNat)
    if bucket ≠ 0#32 then walkChain mem q m g.l_gnu_chain_zero new_hash fuel bucket.toNat {}
    else some (.ok {})
  else some (.ok {})

-- A single match that the versions leave open is taken.
def settle : Except Sym Versioned → Option Sym
  | .error sym => some sym
  | .ok st => if st.num_versions = 1 then st.versioned_sym else none

-- The symbol that the table of the module leads to.
def gnuLookup (hash32 : Word) (fuel : Nat) : Option (Option Sym) := do
  let g ← dlSetupHash mem hash32
  let found ← searchGnu mem q m g (dlNewHash 5381#32 (Hash.bytes q.undef_name)) fuel
  return settle found

end Walk

theorem dlNewHash_eq (h : BitVec 32) (s : List (BitVec 8)) (hs : 0#8 ∉ s) :
    dlNewHash h s = Hash.times33 h s := by
  fun_induction dlNewHash h s with
  | case1 h => rfl
  | case2 h => exact absurd List.mem_cons_self hs
  | case3 h c0 hc0 =>
    have hmul : h * 33#32 = h * 32#32 + h := by bv_omega
    rw [Hash.times33, List.foldl_cons, List.foldl_nil, hmul]
    bv_omega
  | case4 h c1 s => exact absurd List.mem_cons_self hs
  | case5 h c0 s hc0 => exact absurd (List.mem_cons_of_mem _ List.mem_cons_self) hs
  | case6 h c0 c1 s hc0 hc1 ih =>
    rw [ih fun hmem => hs (List.mem_cons_of_mem _ (List.mem_cons_of_mem _ hmem))]
    rw [Hash.times33, Hash.times33, List.foldl_cons, List.foldl_cons]
    congr 1
    rw [BitVec.add_mul, BitVec.mul_assoc]
    have hc : c0.setWidth 32 * 33#32 = c0.setWidth 32 + c0.setWidth 32 * 32#32 := by bv_omega
    rw [hc]
    bv_omega

section Settle

variable {q : Query} {m : Module}

-- A symbol that does not match changes nothing.
theorem foldlM_tryMatch_filter (syms : List Sym) (st : Versioned) :
    syms.foldlM (tryMatch q m) st =
      (syms.filter fun sym => checkMatch q m sym ≠ .no).foldlM (tryMatch q m) st := by
  induction syms generalizing st with
  | nil => rfl
  | cons sym syms ih =>
    rw [List.foldlM_cons]
    by_cases hno : checkMatch q m sym = .no
    · rw [List.filter_cons_of_neg (by simpa using hno), ← ih, tryMatch, hno]
      rfl
    · rw [List.filter_cons_of_pos (by simpa using hno), List.foldlM_cons]
      exact congrArg _ (funext ih)

theorem foldlM_tryMatch_yes {syms : List Sym} {sym : Sym}
    (h : syms.find? (fun sym => checkMatch q m sym = .yes) = some sym) (st : Versioned) :
    syms.foldlM (tryMatch q m) st = .error sym := by
  induction syms generalizing st with
  | nil => cases h
  | cons sym' syms ih =>
    rw [List.foldlM_cons]
    rw [List.find?_cons] at h
    cases hsym : checkMatch q m sym' with
    | yes =>
      rw [hsym] at h
      cases h
      rw [tryMatch, hsym]
      rfl
    | no =>
      rw [hsym] at h
      rw [tryMatch, hsym]
      exact ih h st
    | fallback =>
      rw [hsym] at h
      rw [tryMatch, hsym]
      exact ih h _

theorem foldlM_tryMatch_open {syms : List Sym} (h : ∀ sym ∈ syms, checkMatch q m sym ≠ .yes)
    (st : Versioned) :
    syms.foldlM (tryMatch q m) st =
      .ok ⟨if st.num_versions = 0 then
            (syms.filter fun sym => checkMatch q m sym = .fallback).head?.or st.versioned_sym
          else st.versioned_sym,
        st.num_versions + (syms.filter fun sym => checkMatch q m sym = .fallback).length⟩ := by
  induction syms generalizing st with
  | nil =>
    rw [List.filter_nil, List.head?_nil, Option.none_or, ite_self]
    rfl
  | cons sym syms ih =>
    rw [List.forall_mem_cons] at h
    rw [List.foldlM_cons, tryMatch]
    cases hsym : checkMatch q m sym with
    | yes => exact absurd hsym h.1
    | no =>
      rw [List.filter_cons_of_neg (by simp [hsym])]
      exact ih h.2 st
    | fallback =>
      rw [List.filter_cons_of_pos (by simp [hsym]), List.head?_cons, Option.some_or,
        List.length_cons]
      refine (ih h.2 _).trans ?_
      rw [if_neg (Nat.succ_ne_zero _), Nat.add_right_comm, Nat.add_assoc]

theorem settle_foldlM (syms : List Sym) :
    settle (syms.foldlM (tryMatch q m) {}) = findSym q { m with symtab := syms } := by
  have hcheck (sym : Sym) : checkMatch q { m with symtab := syms } sym = checkMatch q m sym := rfl
  unfold findSym
  simp only [hcheck]
  cases hfind : syms.find? fun sym => checkMatch q m sym = .yes with
  | some sym =>
    rw [foldlM_tryMatch_yes hfind]
    rfl
  | none =>
    rw [List.find?_eq_none] at hfind
    rw [foldlM_tryMatch_open fun sym hsym => by simpa using hfind sym hsym]
    rcases syms.filter fun sym => checkMatch q m sym = .fallback with - | ⟨sym, - | ⟨sym', syms'⟩⟩
    · rfl
    · rfl
    · simp [settle]

end Settle

end Platypus.Loader
