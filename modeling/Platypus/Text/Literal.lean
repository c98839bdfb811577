import Platypus.Text.Lines
import Platypus.Text.Scan
import Platypus.Dict.Lists

-- Strings, lists and dictionaries as `repr` writes them and `ast.literal_eval` reads them.

namespace Platypus.Text

def hexDigit (n : Nat) : Char := "0123456789abcdef".toList.getD n '0'

def hexDigits : Nat → Nat → List Char
  | 0, _ => []
  | w + 1, n => hexDigit (n / 16 ^ w % 16) :: hexDigits w (n % 16 ^ w)

section Repr

-- `str.isprintable`, which is asked only outside of ASCII.
variable (printable : Char → Bool)

def escapeChar (q c : Char) : List Char :=
  if c = q ∨ c = '\\' then ['\\', c]
  else if c = '\t' then ['\\', 't']
  else if c = '\n' then ['\\', 'n']
  else if c = '\r' then ['\\', 'r']
  else if 32 ≤ c.toNat ∧ (c.toNat < 127 ∨ 127 < c.toNat ∧ printable c) then [c]
  else if c.toNat < 0x100 then '\\' :: 'x' :: hexDigits 2 c.toNat
  else if c.toNat < 0x10000 then '\\' :: 'u' :: hexDigits 4 c.toNat
  else '\\' :: 'U' :: hexDigits 8 c.toNat

def reprQuote (s : List Char) : Char := if '\'' ∈ s ∧ '"' ∉ s then '"' else '\''

def reprStr (s : List Char) : List Char :=
  reprQuote s :: (s.flatMap (escapeChar printable (reprQuote s)) ++ [reprQuote s])

def commaJoin : List (List Char) → List Char
  | [] => []
  | [x] => x
  | x :: xs => x ++ ',' :: ' ' :: commaJoin xs

def reprList (xs : List (List Char)) : List Char :=
  '[' :: (commaJoin (xs.map (reprStr printable)) ++ [']'])

def reprItem (e : List Char × List (List Char)) : List Char :=
  reprStr printable e.1 ++ ':' :: ' ' :: reprList printable e.2

def reprDict (d : Dict (List Char) (List (List Char))) : List Char :=
  '\x7b' :: (commaJoin (d.entries.map (reprItem printable)) ++ ['\x7d'])

end Repr

example : reprStr (fun _ => true) "it's\n\"x\"\\".toList = "'it\\'s\\n\"x\"\\\\'".toList := by decide

-- The reader. It knows the literals that `repr` writes, with any blanks between their parts and a
-- comma after the last element, and `none` is an error or a literal of another kind.

def hexValue (c : Char) : Option Nat := if IsDigit 16 c then some (digitValue c) else none

def simpleEscape (c : Char) : Option Char :=
  if c = '\\' ∨ c = '\'' ∨ c = '"' then some c
  else if c = 't' then some '\t'
  else if c = 'n' then some '\n'
  else if c = 'r' then some '\r'
  else none

-- Where the reader is inside of a string.
inductive Escape
  | plain
  | backslash
  | hex (left value : Nat)

def pushChar (c : Char) (p : List Char × List Char) : List Char × List Char := (c :: p.1, p.2)

def unquote (q : Char) : Escape → List Char → Option (List Char × List Char)
  | _, [] => none
  | .plain, c :: cs =>
    if c = q then some ([], cs)
    else if c = '\\' then unquote q .backslash cs
    else if c = '\n' then none
    else (unquote q .plain cs).map (pushChar c)
  | .backslash, c :: cs =>
    if c = 'x' then unquote q (.hex 2 0) cs
    else if c = 'u' then unquote q (.hex 4 0) cs
    else if c = 'U' then unquote q (.hex 8 0) cs
    else (simpleEscape c).bind fun e => (unquote q .plain cs).map (pushChar e)
  | .hex left value, c :: cs =>
    (hexValue c).bind fun d =>
      let value := value * 16 + d
      if 1 < left then unquote q (.hex (left - 1) value) cs
      else if value.isValidChar then (unquote q .plain cs).map (pushChar (Char.ofNat value))
      else none

def isGap (c : Char) : Bool := c = ' ' || c = '\t' || c = '\n' || c = '\x0c'

def literalStr (s : List Char) : Option (List Char × List Char) :=
  match s.dropWhile isGap with
  | [] => none
  | c :: cs => if c = '\'' ∨ c = '"' then unquote c .plain cs else none

section Items

variable {β : Type} (elem : List Char → Option (β × List Char)) (close : Char)

-- The elements up to the closing bracket, of which the text has at most as many as characters.
def items : Nat → List Char → Option (List β × List Char)
  | 0, _ => none
  | n + 1, s =>
    match s.dropWhile isGap with
    | [] => none
    | c :: cs =>
      if c = close then some ([], cs)
      else
        (elem (c :: cs)).bind fun p =>
          match p.2.dropWhile isGap with
          | [] => none
          | d :: ds =>
            if d = ',' then (items n ds).map fun r => (p.1 :: r.1, r.2)
            else if d = close then some ([p.1], ds)
            else none

def bracketed (left : Char) (s : List Char) : Option (List β × List Char) :=
  match s.dropWhile isGap with
  | [] => none
  | c :: cs => if c = left then items elem close (cs.length + 1) cs else none

end Items

def literalList : List Char → Option (List (List Char) × List Char) := bracketed literalStr ']' '['

section Pairs

variable {β : Type} (value : List Char → Option (β × List Char))

def literalItem (s : List Char) : Option ((List Char × β) × List Char) :=
  (literalStr s).bind fun k =>
    match k.2.dropWhile isGap with
    | [] => none
    | c :: cs => if c = ':' then (value cs).map fun v => ((k.1, v.1), v.2) else none

-- `ast.literal_eval` of a dictionary.
def literalDict (s : List Char) : Option (Dict (List Char) β) :=
  (bracketed (literalItem value) '\x7d' '\x7b' s).bind fun r =>
    if r.2.all isGap then some (r.1.foldl (fun d e => d.set e.1 e.2) .empty) else none

end Pairs

-- Reading what was written.

section Strings

variable {q : Char}

theorem digitValue_hexDigit {n : Nat} (h : n < 16) : hexValue (hexDigit n) = some n := by
  interval_cases n <;> decide

theorem unquote_hexDigits (w value n : Nat) (hn : n < 16 ^ (w + 1)) (rest : List Char) :
    unquote q (.hex (w + 1) value) (hexDigits (w + 1) n ++ rest) =
      if (value * 16 ^ (w + 1) + n).isValidChar then
        (unquote q .plain rest).map (pushChar (Char.ofNat (value * 16 ^ (w + 1) + n)))
      else none := by
  induction w generalizing value n with
  | zero =>
    have hdigit : n / 16 ^ 0 % 16 = n := by omega
    rw [hexDigits, hexDigits, hdigit, List.cons_append, List.nil_append, unquote,
      digitValue_hexDigit (by omega), Option.bind_some]
    simp only [zero_add, pow_one, lt_self_iff_false, if_false]
  | succ w ih =>
    have hlt : n / 16 ^ (w + 1) < 16 := by
      rw [Nat.div_lt_iff_lt_mul (by positivity), ← pow_succ']
      exact hn
    have hrest : n % 16 ^ (w + 1) < 16 ^ (w + 1) := Nat.mod_lt _ (by positivity)
    have hvalue : (value * 16 + n / 16 ^ (w + 1)) * 16 ^ (w + 1) + n % 16 ^ (w + 1) =
        value * 16 ^ (w + 2) + n := by
      have hdiv := Nat.div_add_mod n (16 ^ (w + 1))
      rw [add_mul, mul_assoc, ← pow_succ', add_assoc, mul_comm (n / _), hdiv]
    rw [hexDigits, List.cons_append, unquote, Nat.mod_eq_of_lt hlt, digitValue_hexDigit hlt,
      Option.bind_some]
    simp only [add_tsub_cancel_right]
    rw [if_pos (by omega), ih _ _ hrest, hvalue]

theorem unquote_char (w : Nat) (c : Char) (hc : c.toNat < 16 ^ (w + 1)) (rest : List Char) :
    unquote q (.hex (w + 1) 0) (hexDigits (w + 1) c.toNat ++ rest) =
      (unquote q .plain rest).map (pushChar c) := by
  have hvalid : c.toNat.isValidChar := c.valid
  rw [unquote_hexDigits w 0 _ hc, zero_mul, zero_add, if_pos hvalid, Char.ofNat_toNat]

variable (printable : Char → Bool)

theorem unquote_escapeChar (hq : q = '\'' ∨ q = '"') (c : Char) (rest : List Char) :
    unquote q .plain (escapeChar printable q c ++ rest) =
      (unquote q .plain rest).map (pushChar c) := by
  have hback : ('\\' : Char) ≠ q := by
    rcases hq with rfl | rfl
    · decide
    · decide
  have hescape (d : Char) (s : List Char) :
      unquote q .plain ('\\' :: d :: s) = unquote q .backslash (d :: s) := by
    rw [unquote, if_neg hback, if_pos rfl]
  unfold escapeChar
  split_ifs with h₁ h₂ h₃ h₄ h₅ h₆ h₇
  · have hc : c = '\\' ∨ c = '\'' ∨ c = '"' := by
      rcases h₁ with rfl | rfl
      · exact .inr hq
      · exact .inl rfl
    rw [List.cons_append, List.cons_append, List.nil_append, hescape, unquote]
    rcases hc with rfl | rfl | rfl
    · rfl
    · rfl
    · rfl
  · subst h₂
    exact hescape _ _
  · subst h₃
    exact hescape _ _
  · subst h₄
    exact hescape _ _
  · rw [not_or] at h₁
    rw [List.cons_append, List.nil_append, unquote, if_neg h₁.1, if_neg h₁.2, if_neg h₃]
  · rw [List.cons_append, List.cons_append, hescape]
    exact unquote_char 1 c h₆ rest
  · rw [List.cons_append, List.cons_append, hescape]
    exact unquote_char 3 c h₇ rest
  · rw [List.cons_append, List.cons_append, hescape]
    refine unquote_char 7 c ?_ rest
    have hvalid := c.valid
    rcases hvalid with h | h
    · exact Nat.lt_trans h (by decide)
    · exact Nat.lt_trans h.2 (by decide)

theorem unquote_flatMap (hq : q = '\'' ∨ q = '"') (s rest : List Char) :
    unquote q .plain (s.flatMap (escapeChar printable q) ++ q :: rest) = some (s, rest) := by
  induction s with
  | nil => rw [List.flatMap_nil, List.nil_append, unquote, if_pos rfl]
  | cons c s ih =>
    rw [List.flatMap_cons, List.append_assoc, unquote_escapeChar printable hq, ih]
    rfl

theorem reprQuote_cases (P : Char → Prop) (hsingle : P '\'') (hdouble : P '"') (s : List Char) :
    P (reprQuote s) := by
  unfold reprQuote
  split
  · exact hdouble
  · exact hsingle

theorem reprQuote_eq (s : List Char) : reprQuote s = '\'' ∨ reprQuote s = '"' :=
  reprQuote_cases (fun q => q = '\'' ∨ q = '"') (.inl rfl) (.inr rfl) s

theorem isGap_reprQuote (s : List Char) : isGap (reprQuote s) = false :=
  reprQuote_cases (isGap · = false) (by decide) (by decide) s

theorem literalStr_reprStr (s rest : List Char) :
    literalStr (reprStr printable s ++ rest) = some (s, rest) := by
  have hq := reprQuote_eq s
  rw [literalStr, reprStr, List.cons_append, List.dropWhile_cons, isGap_reprQuote]
  simp only [Bool.false_eq_true, if_false, if_pos hq, List.append_assoc, List.singleton_append]
  exact unquote_flatMap printable hq s rest

end Strings

-- The written text has no control characters, and a closing brace only where a string has one.

section Chars

variable (printable : Char → Bool)

def Safe (s : List Char) : Prop := ∀ c ∈ s, 32 ≤ c.toNat ∧ c ≠ '\x7d'

theorem Safe.nil : Safe [] := fun _ h => absurd h List.not_mem_nil

theorem Safe.cons {c : Char} {s : List Char} (hc : 32 ≤ c.toNat ∧ c ≠ '\x7d') (hs : Safe s) :
    Safe (c :: s) := List.forall_mem_cons.mpr ⟨hc, hs⟩

theorem Safe.append {s t : List Char} (hs : Safe s) (ht : Safe t) : Safe (s ++ t) :=
  List.forall_mem_append.mpr ⟨hs, ht⟩

theorem Safe.commaJoin {xs : List (List Char)} (h : ∀ x ∈ xs, Safe x) : Safe (commaJoin xs) := by
  induction xs with
  | nil => exact Safe.nil
  | cons x xs ih =>
    have hx := h x List.mem_cons_self
    have hrest := ih fun y hy => h y (List.mem_cons_of_mem x hy)
    cases xs with
    | nil => exact hx
    | cons y ys => exact hx.append (.cons (by decide) (.cons (by decide) hrest))

theorem hexDigits_safe (w n : Nat) : Safe (hexDigits w n) := by
  have hdigit : ∀ k < 16, 32 ≤ (hexDigit k).toNat ∧ hexDigit k ≠ '\x7d' := by decide
  induction w generalizing n with
  | zero => exact Safe.nil
  | succ w ih => exact .cons (hdigit _ (Nat.mod_lt _ (by decide))) (ih _)

theorem escapeChar_safe {q c : Char} (hq : q = '\'' ∨ q = '"') (hc : c ≠ '\x7d') :
    Safe (escapeChar printable q c) := by
  unfold escapeChar
  split_ifs with h₁ h₂ h₃ h₄ h₅ h₆ h₇
  · refine .cons (by decide) (.cons ⟨?_, hc⟩ .nil)
    rcases h₁ with rfl | rfl
    · rcases hq with rfl | rfl
      · decide
      · decide
    · decide
  · exact .cons (by decide) (.cons (by decide) .nil)
  · exact .cons (by decide) (.cons (by decide) .nil)
  · exact .cons (by decide) (.cons (by decide) .nil)
  · exact .cons ⟨h₅.1, hc⟩ .nil
  · exact .cons (by decide) (.cons (by decide) (hexDigits_safe _ _))
  · exact .cons (by decide) (.cons (by decide) (hexDigits_safe _ _))
  · exact .cons (by decide) (.cons (by decide) (hexDigits_safe _ _))

theorem reprStr_safe {s : List Char} (hs : '\x7d' ∉ s) : Safe (reprStr printable s) := by
  have hq := reprQuote_eq s
  have hquote : 32 ≤ (reprQuote s).toNat ∧ reprQuote s ≠ '\x7d' :=
    reprQuote_cases (fun q => 32 ≤ q.toNat ∧ q ≠ '\x7d') (by decide) (by decide) s
  refine .cons hquote (.append (fun c hc => ?_) (.cons hquote .nil))
  obtain ⟨d, hd, hc⟩ := List.mem_flatMap.mp hc
  exact escapeChar_safe printable hq (fun h => hs (h ▸ hd)) c hc

theorem reprItem_safe {e : List Char × List (List Char)} (hkey : '\x7d' ∉ e.1)
    (hvalues : ∀ x ∈ e.2, '\x7d' ∉ x) : Safe (reprItem printable e) := by
  refine (reprStr_safe printable hkey).append (.cons (by decide) (.cons (by decide) ?_))
  refine .cons (by decide) (.append (.commaJoin fun t ht => ?_) (.cons (by decide) .nil))
  obtain ⟨x, hx, rfl⟩ := List.mem_map.mp ht
  exact reprStr_safe printable (hvalues x hx)

end Chars

section Items

variable {β : Type} {elem : List Char → Option (β × List Char)} {close : Char}
  {print : β → List Char}

-- An element is read back, and does not look like a gap or the end.
structure Reads (elem : List Char → Option (β × List Char)) (close : Char)
    (print : β → List Char) (x : β) : Prop where
  head : ∃ c cs, print x = c :: cs ∧ isGap c = false ∧ c ≠ close
  read : ∀ rest, elem (print x ++ rest) = some (x, rest)

theorem items_gap (n : Nat) (s : List Char) : items elem close n (' ' :: s) = items elem close n s := by
  cases n with
  | zero => rfl
  | succ n =>
    have hgap : (' ' :: s).dropWhile isGap = s.dropWhile isGap := rfl
    rw [items, items, hgap]

theorem items_cons {x : β} (hx : Reads elem close print x) (n : Nat) (s : List Char) :
    items elem close (n + 1) (print x ++ s) =
      match s.dropWhile isGap with
      | [] => none
      | d :: ds =>
        if d = ',' then (items elem close n ds).map fun r => (x :: r.1, r.2)
        else if d = close then some ([x], ds)
        else none := by
  obtain ⟨c, cs, hprint, hgap, hclose⟩ := hx.head
  have hread := hx.read s
  rw [hprint, List.cons_append] at hread
  rw [hprint, items, List.cons_append, List.dropWhile_cons, hgap]
  simp only [Bool.false_eq_true, if_false, if_neg hclose, hread, Option.bind_some]

theorem items_commaJoin (hgap : isGap close = false) (hcomma : close ≠ ',') {xs : List β}
    (hxs : ∀ x ∈ xs, Reads elem close print x) {n : Nat} (hn : xs.length < n) (rest : List Char) :
    items elem close n (commaJoin (xs.map print) ++ close :: rest) = some (xs, rest) := by
  have hend : (close :: rest).dropWhile isGap = close :: rest := by
    rw [List.dropWhile_cons, hgap]
    rfl
  induction xs generalizing n with
  | nil =>
    obtain ⟨n, rfl⟩ := Nat.exists_eq_succ_of_ne_zero (Nat.ne_of_gt hn)
    rw [List.map_nil, commaJoin, List.nil_append, items, hend]
    simp only [if_true]
  | cons x xs ih =>
    obtain ⟨n, rfl⟩ := Nat.exists_eq_succ_of_ne_zero (Nat.ne_zero_of_lt hn)
    have hx := hxs x List.mem_cons_self
    have hrest : ∀ y ∈ xs, Reads elem close print y := fun y hy =>
      hxs y (List.mem_cons_of_mem x hy)
    rw [List.length_cons] at hn
    cases xs with
    | nil =>
      rw [List.map_cons, List.map_nil, commaJoin, items_cons hx, hend]
      simp only [if_neg hcomma, if_true]
    | cons y ys =>
      have hjoin : commaJoin ((x :: y :: ys).map print) =
          print x ++ ',' :: ' ' :: commaJoin ((y :: ys).map print) := rfl
      have htext : (',' :: ' ' :: (commaJoin ((y :: ys).map print) ++ close :: rest)).dropWhile
          isGap = ',' :: ' ' :: (commaJoin ((y :: ys).map print) ++ close :: rest) := rfl
      rw [hjoin, List.append_assoc, items_cons hx, List.cons_append, List.cons_append, htext]
      simp only [if_true]
      rw [items_gap, ih hrest (by omega)]
      rfl

theorem length_le_commaJoin (xs : List (List Char)) (h : ∀ x ∈ xs, x ≠ []) :
    xs.length ≤ (commaJoin xs).length := by
  induction xs with
  | nil => exact Nat.le_refl 0
  | cons x xs ih =>
    have hx := List.length_pos_iff.mpr (h x List.mem_cons_self)
    have hrest := ih fun y hy => h y (List.mem_cons_of_mem x hy)
    cases xs with
    | nil => exact hx
    | cons y ys =>
      simp only [commaJoin, List.length_append, List.length_cons] at hrest ⊢
      omega

theorem bracketed_commaJoin {left : Char} (hleft : isGap left = false) (hgap : isGap close = false)
    (hcomma : close ≠ ',') {xs : List β} (hxs : ∀ x ∈ xs, Reads elem close print x)
    (rest : List Char) :
    bracketed elem close left (left :: (commaJoin (xs.map print) ++ close :: rest)) =
      some (xs, rest) := by
  have hlength : xs.length ≤ (commaJoin (xs.map print)).length := by
    rw [← List.length_map print]
    refine length_le_commaJoin _ fun t ht => ?_
    obtain ⟨x, hx, rfl⟩ := List.mem_map.mp ht
    obtain ⟨c, cs, hprint, -⟩ := (hxs x hx).head
    rw [hprint]
    exact List.cons_ne_nil c cs
  rw [bracketed, List.dropWhile_cons, hleft]
  simp only [Bool.false_eq_true, if_false, if_true]
  refine items_commaJoin hgap hcomma hxs ?_ rest
  rw [List.length_append]
  omega

end Items

section Dicts

variable (printable : Char → Bool)

theorem reads_str {close : Char} (h : close ≠ '\'' ∧ close ≠ '"') (s : List Char) :
    Reads literalStr close (reprStr printable) s := by
  have hclose : reprQuote s ≠ close := reprQuote_cases (· ≠ close) h.1.symm h.2.symm s
  exact ⟨⟨_, _, rfl, isGap_reprQuote s, hclose⟩, literalStr_reprStr printable s⟩

theorem literalList_reprList (xs : List (List Char)) (rest : List Char) :
    literalList (reprList printable xs ++ rest) = some (xs, rest) := by
  rw [reprList, List.cons_append, List.append_assoc, List.singleton_append]
  exact bracketed_commaJoin (by decide) (by decide) (by decide)
    (fun x _ => reads_str printable (by decide) x) rest

theorem reads_item (e : List Char × List (List Char)) :
    Reads (literalItem literalList) '\x7d' (reprItem printable) e := by
  have hkey : Reads literalStr '\x7d' (reprStr printable) e.1 := reads_str printable (by decide) e.1
  obtain ⟨c, cs, hprint, hgap, hclose⟩ := hkey.head
  refine ⟨⟨c, cs ++ ':' :: ' ' :: reprList printable e.2, ?_, hgap, hclose⟩, fun rest => ?_⟩
  · rw [reprItem, hprint, List.cons_append]
  · have hcolon (s : List Char) : (':' :: s).dropWhile isGap = ':' :: s := rfl
    have hspace (s : List Char) : literalList (' ' :: s) = literalList s := by
      have hgap : (' ' :: s).dropWhile isGap = s.dropWhile isGap := rfl
      rw [literalList, bracketed, bracketed, hgap]
    rw [literalItem, reprItem, List.append_assoc, literalStr_reprStr, Option.bind_some,
      List.cons_append, hcolon]
    simp only [if_true, List.cons_append, hspace, literalList_reprList, Option.map_some]

theorem literalDict_reprDict (d : Dict (List Char) (List (List Char))) :
    literalDict literalList (reprDict printable d) = some d := by
  have hfold : d.entries.foldl (fun d e => d.set e.1 e.2) .empty = d := by
    have hentries := Dict.foldl_set_entries d.entries .empty d.nodup
    cases hd : d.entries.foldl (fun d e => d.set e.1 e.2) (.empty : Dict _ _) with
    | mk entries nodup =>
      rw [hd] at hentries
      obtain ⟨entries', nodup'⟩ := d
      congr
  rw [literalDict, reprDict, bracketed_commaJoin (by decide) (by decide) (by decide)
    (fun e _ => reads_item printable e) [], Option.bind_some, hfold]
  rfl

end Dicts

end Platypus.Text
