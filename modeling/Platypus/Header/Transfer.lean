import Platypus.Header.Tables
import Platypus.State.Trace

namespace Platypus.Header

-- One dictionary of the file: its lists go behind those that the keys have already.
def collect (result d : MaskDict) : MaskDict :=
  d.entries.foldl (fun r e => r.set e.1 ((r.get? e.1).getD [] ++ e.2)) result

-- An item of the first line: the table of its key takes the table of its value.
def transfer (result : MaskDict) (item : Name × Name) : Option MaskDict := do
  let dst ← result.get? item.1
  let src ← result.get? item.2
  return result.set item.1 (dst ++ src)

def merged (possible_dicts : List MaskDict) : MaskDict :=
  (possible_dicts.foldl collect .empty).mapValues fromkeys

-- `none` is a `KeyError`.
def parseAllDicts (first_line_data : Dict Name Name) (possible_dicts : List MaskDict) :
    Option MaskDict :=
  State.trace transfer (merged possible_dicts) first_line_data.entries

def Lists (d : MaskDict) (key : Name) (x : Name) : Prop := ∃ vs, d.get? key = some vs ∧ x ∈ vs

-- Some dictionary of the file lists the entry under the key.
def Given (possible_dicts : List MaskDict) (key x : Name) : Prop :=
  ∃ d ∈ possible_dicts, Lists d key x

-- An item of the map, or several in a row.
def Reaches (first_line_data : Dict Name Name) : Name → Name → Prop :=
  Relation.TransGen fun dst src => (dst, src) ∈ first_line_data.entries

theorem lists_set {d : MaskDict} {key key' x : Name} {vs : List Name} :
    Lists (d.set key vs) key' x ↔ key' = key ∧ x ∈ vs ∨ key' ≠ key ∧ Lists d key' x := by
  by_cases h : key' = key
  · subst h
    simp [Lists]
  · simp [Lists, d.get?_set_of_ne vs h, h]

section Merged

theorem lists_extend (d : MaskDict) (e : Name × List Name) (key x : Name) :
    Lists (d.set e.1 ((d.get? e.1).getD [] ++ e.2)) key x ↔
      Lists d key x ∨ key = e.1 ∧ x ∈ e.2 := by
  rw [lists_set]
  by_cases h : key = e.1
  · subst h
    cases hget : d.get? e.1 <;> simp [Lists, hget]
  · simp [h]

theorem lists_collect (result d : MaskDict) (key x : Name) :
    Lists (collect result d) key x ↔ Lists result key x ∨ Lists d key x := by
  have hfold : ∀ (es : List (Name × List Name)) (r : MaskDict),
      Lists (es.foldl (fun r e => r.set e.1 ((r.get? e.1).getD [] ++ e.2)) r) key x ↔
        Lists r key x ∨ ∃ e ∈ es, key = e.1 ∧ x ∈ e.2 := by
    intro es
    induction es with
    | nil => simp
    | cons e es ih =>
      intro r
      rw [List.foldl_cons, ih, lists_extend]
      simp [or_assoc]
  rw [collect, hfold]
  refine or_congr_right ⟨?_, ?_⟩
  · rintro ⟨e, he, rfl, hx⟩
    exact ⟨e.2, d.get?_of_mem he, hx⟩
  · rintro ⟨vs, hvs, hx⟩
    exact ⟨(key, vs), d.mem_of_get? hvs, rfl, hx⟩

theorem lists_merged (ds : List MaskDict) (key x : Name) :
    Lists (merged ds) key x ↔ Given ds key x := by
  have hfold : ∀ (ds : List MaskDict) (r : MaskDict),
      Lists (ds.foldl collect r) key x ↔ Lists r key x ∨ Given ds key x := by
    intro ds
    induction ds with
    | nil => simp [Given]
    | cons d ds ih =>
      intro r
      rw [List.foldl_cons, ih, lists_collect]
      simp [Given, or_assoc]
  have hempty : ¬Lists .empty key x := by
    rintro ⟨vs, hvs, -⟩
    cases hvs
  have hmap : Lists (merged ds) key x ↔ Lists (ds.foldl collect .empty) key x := by
    simp [Lists, merged, mem_fromkeys]
  rw [hmap, hfold]
  simp [hempty]

end Merged

section Run

variable {r r' : MaskDict} {item : Name × Name} {items : List (Name × Name)}

theorem transfer_lists (h : transfer r item = some r') (key x : Name) :
    Lists r' key x ↔ key = item.1 ∧ Lists r item.2 x ∨ Lists r key x := by
  obtain ⟨dst, hdst, h⟩ := Option.bind_eq_some_iff.mp h
  obtain ⟨src, hsrc, h⟩ := Option.bind_eq_some_iff.mp h
  obtain rfl := Option.some_inj.mp h
  rw [lists_set]
  by_cases hkey : key = item.1
  · subst hkey
    simp [Lists, hdst, hsrc, or_comm]
  · simp [hkey]

theorem transfer_keys (h : transfer r item = some r') (key : Name) : key ∈ r'.keys ↔ key ∈ r.keys := by
  obtain ⟨dst, hdst, h⟩ := Option.bind_eq_some_iff.mp h
  obtain ⟨src, hsrc, h⟩ := Option.bind_eq_some_iff.mp h
  obtain rfl := Option.some_inj.mp h
  rw [r.mem_keys_set]
  refine or_iff_right_of_imp ?_
  rintro rfl
  by_contra hkey
  rw [r.get?_eq_none_iff.mpr hkey] at hdst
  cases hdst

theorem transfer_isSome :
    (∃ r', transfer r item = some r') ↔ item.1 ∈ r.keys ∧ item.2 ∈ r.keys := by
  unfold transfer
  cases hdst : r.get? item.1 with
  | none => simp [r.get?_eq_none_iff.mp hdst]
  | some dst =>
    cases hsrc : r.get? item.2 with
    | none => simp [r.get?_eq_none_iff.mp hsrc]
    | some src => simp [r.mem_keys_of_get? hdst, r.mem_keys_of_get? hsrc]

-- The run fails only on a name that the dictionaries do not have.
theorem trace_transfer_isSome (r : MaskDict) (items : List (Name × Name)) :
    (∃ r', State.trace transfer r items = some r') ↔
      ∀ item ∈ items, item.1 ∈ r.keys ∧ item.2 ∈ r.keys := by
  induction items generalizing r with
  | nil => simp [State.trace]
  | cons item items ih =>
    rw [List.forall_mem_cons, ← transfer_isSome]
    constructor
    · rintro ⟨r', h⟩
      obtain ⟨r₁, hitem, hitems⟩ := Option.bind_eq_some_iff.mp h
      refine ⟨⟨r₁, hitem⟩, fun item' hitem' => ?_⟩
      have hkeys := (ih r₁).mp ⟨r', hitems⟩ item' hitem'
      rwa [transfer_keys hitem, transfer_keys hitem] at hkeys
    · rintro ⟨⟨r₁, hitem⟩, hkeys⟩
      have hrest : ∀ item' ∈ items, item'.1 ∈ r₁.keys ∧ item'.2 ∈ r₁.keys := by
        intro item' hitem'
        rw [transfer_keys hitem, transfer_keys hitem]
        exact hkeys item' hitem'
      obtain ⟨r', hitems⟩ := (ih r₁).mpr hrest
      refine ⟨r', ?_⟩
      rw [State.trace, hitem]
      exact hitems

theorem trace_transfer_mono {key x : Name} (h : State.trace transfer r items = some r')
    (hx : Lists r key x) : Lists r' key x := by
  induction items generalizing r with
  | nil =>
    rw [State.trace, Option.some_inj] at h
    exact h ▸ hx
  | cons item items ih =>
    obtain ⟨r₁, hitem, hitems⟩ := Option.bind_eq_some_iff.mp h
    exact ih hitems ((transfer_lists hitem key x).mpr (.inr hx))

-- A table changes only when its item comes.
theorem trace_transfer_frame {key : Name} (h : State.trace transfer r items = some r')
    (hkey : key ∉ items.map Prod.fst) (x : Name) : Lists r' key x ↔ Lists r key x := by
  induction items generalizing r with
  | nil =>
    rw [State.trace, Option.some_inj] at h
    rw [h]
  | cons item items ih =>
    rw [List.map_cons, List.mem_cons, not_or] at hkey
    obtain ⟨r₁, hitem, hitems⟩ := Option.bind_eq_some_iff.mp h
    rw [ih hitems hkey.2, transfer_lists hitem]
    simp [hkey.1]

end Run

section Closed

variable {first_line_data : Dict Name Name} {base r r' : MaskDict}

-- Nothing has to travel further than one item.
def Short (m : Dict Name Name) (lists : Name → Name → Prop) : Prop :=
  ∀ dst src src', (dst, src) ∈ m.entries → (src, src') ∈ m.entries →
    ∀ x, lists src' x → lists dst x ∨ lists src x

-- The entries that a table has of its own and of its source.
def OneStep (m : List (Name × Name)) (lists : Name → Name → Prop) (key x : Name) : Prop :=
  lists key x ∨ ∃ src, (key, src) ∈ m ∧ lists src x

-- The items that have been processed are the only ones that count, in whatever order they came.
theorem trace_transfer_oneStep {m : Dict Name Name} (hshort : Short m (Lists base))
    {done items : List (Name × Name)} (hitems : ∀ item ∈ done ++ items, item ∈ m.entries)
    (hr : ∀ key x, Lists r key x ↔ OneStep done (Lists base) key x)
    (h : State.trace transfer r items = some r') (key x : Name) :
    Lists r' key x ↔ OneStep (done ++ items) (Lists base) key x := by
  induction items generalizing done r with
  | nil =>
    rw [State.trace, Option.some_inj] at h
    rw [← h, List.append_nil]
    exact hr key x
  | cons item items ih =>
    obtain ⟨dst, src⟩ := item
    obtain ⟨r₁, hitem, hrest⟩ := Option.bind_eq_some_iff.mp h
    rw [List.append_cons] at hitems ⊢
    refine ih hitems ?_ hrest
    intro key x
    rw [transfer_lists hitem, hr, hr]
    unfold OneStep
    have hmem : (dst, src) ∈ m.entries := hitems _ (by simp)
    constructor
    · rintro (⟨rfl, hsrc | ⟨src', hsrc', hx⟩⟩ | hown | ⟨src', hsrc', hx⟩)
      · exact .inr ⟨src, by simp, hsrc⟩
      · have hmem' : (src, src') ∈ m.entries := hitems _ (by simp [hsrc'])
        rcases hshort _ _ _ hmem hmem' x hx with hx | hx
        · exact .inl hx
        · exact .inr ⟨src, by simp, hx⟩
      · exact .inl hown
      · exact .inr ⟨src', by simp [hsrc'], hx⟩
    · rintro (hown | ⟨src', hsrc', hx⟩)
      · exact .inr (.inl hown)
      · rcases List.mem_append.mp hsrc' with hsrc' | hsrc'
        · exact .inr (.inr ⟨src', hsrc', hx⟩)
        · cases List.mem_singleton.mp hsrc'
          exact .inl ⟨rfl, .inl hx⟩

theorem parseAllDicts_oneStep {m : Dict Name Name} {ds : List MaskDict}
    (hshort : Short m (Lists (merged ds))) (h : parseAllDicts m ds = some r) (key x : Name) :
    Lists r key x ↔ OneStep m.entries (Lists (merged ds)) key x := by
  have hstart : ∀ key x, Lists (merged ds) key x ↔ OneStep [] (Lists (merged ds)) key x := by
    simp [OneStep]
  exact trace_transfer_oneStep hshort (fun _ hitem => hitem) hstart h key x

theorem parseAllDicts_perm {m m' : Dict Name Name} {ds : List MaskDict}
    (hperm : m'.entries.Perm m.entries) (h : parseAllDicts m ds = some r) :
    ∃ r', parseAllDicts m' ds = some r' := by
  refine (trace_transfer_isSome _ _).mpr fun item hitem => ?_
  exact (trace_transfer_isSome _ _).mp ⟨r, h⟩ item (hperm.mem_iff.mp hitem)

-- Some order of the items starts with two that follow each other.
theorem exists_perm_cons_cons {m : Dict Name Name} {item item' : Name × Name}
    (hitem : item ∈ m.entries) (hitem' : item' ∈ m.entries) (hne : item.1 ≠ item'.1) :
    ∃ (m' : Dict Name Name) (rest : List (Name × Name)), m'.entries = item :: item' :: rest ∧
      m'.entries.Perm m.entries := by
  have hmem : item' ∈ m.entries.erase item :=
    (List.mem_erase_of_ne fun h => hne (congrArg Prod.fst h).symm).mpr hitem'
  have hperm : (item :: item' :: (m.entries.erase item).erase item').Perm m.entries :=
    ((List.perm_cons_erase hmem).symm.cons item).trans (List.perm_cons_erase hitem).symm
  exact ⟨⟨_, (hperm.map Prod.fst).nodup_iff.mpr m.nodup⟩, _, rfl, hperm⟩

-- If the item of a source comes after the item that reads it, the entries that the source gains
-- do not arrive.
theorem late_source {m' : Dict Name Name} {ds : List MaskDict} {rest : List (Name × Name)}
    {dst src src' x : Name} (hm' : m'.entries = (dst, src) :: (src, src') :: rest)
    (h : parseAllDicts m' ds = some r') (hx : Lists (merged ds) src' x) :
    Lists r' src x ∧ (Lists r' dst x → Lists (merged ds) dst x ∨ Lists (merged ds) src x) := by
  have hnodup := m'.nodup
  rw [hm', List.map_cons, List.map_cons, List.nodup_cons, List.nodup_cons] at hnodup
  obtain ⟨hdst, -, -⟩ := hnodup
  rw [parseAllDicts, hm'] at h
  obtain ⟨r₁, hfirst, h⟩ := Option.bind_eq_some_iff.mp h
  obtain ⟨r₂, hsecond, hrest⟩ := Option.bind_eq_some_iff.mp h
  constructor
  · refine trace_transfer_mono hrest ((transfer_lists hsecond src x).mpr (.inl ⟨rfl, ?_⟩))
    exact (transfer_lists hfirst src' x).mpr (.inr hx)
  · intro hdst'
    rw [List.mem_cons, not_or] at hdst
    rw [trace_transfer_frame hrest hdst.2, transfer_lists hsecond dst x,
      transfer_lists hfirst dst x] at hdst'
    rcases hdst' with ⟨heq, -⟩ | ⟨-, hsrc⟩ | hown
    · exact absurd heq hdst.1
    · exact .inr hsrc
    · exact .inl hown

end Closed

def Same (r r' : MaskDict) : Prop := ∀ key x, Lists r key x ↔ Lists r' key x

-- The tables are closed under the map, and do not depend on the order of its items, exactly if
-- no entry has to take two items.
theorem parseAllDicts_closed_iff (m : Dict Name Name) (ds : List MaskDict) (r : MaskDict)
    (h : parseAllDicts m ds = some r) :
    ((∀ dst src, Reaches m dst src → ∀ x, Lists r src x → Lists r dst x) ∧
      ∀ m' : Dict Name Name, m'.entries.Perm m.entries →
        ∃ r', parseAllDicts m' ds = some r' ∧ Same r' r) ↔
    Short m (Given ds) := by
  have hgiven : Lists (merged ds) = Given ds := by
    funext key x
    exact propext (lists_merged ds key x)
  rw [← hgiven]
  constructor
  · rintro ⟨hclosed, horder⟩ dst src src' hitem hitem' x hx
    by_cases heq : dst = src
    · subst heq
      exact .inl (m.eq_of_mem hitem' hitem ▸ m.eq_of_mem hitem' hitem ▸ hx)
    · obtain ⟨m', rest, hm', hperm⟩ := exists_perm_cons_cons hitem hitem' heq
      obtain ⟨r', hr', hsame⟩ := horder m' hperm
      obtain ⟨hsrc, hdst⟩ := late_source hm' hr' hx
      refine hdst ((hsame dst x).mpr ?_)
      exact hclosed dst src (.single hitem) x ((hsame src x).mp hsrc)
  · intro hshort
    have hr := parseAllDicts_oneStep hshort h
    have hitem : ∀ dst src, (dst, src) ∈ m.entries → ∀ x, Lists r src x → Lists r dst x := by
      intro dst src hmem x hx
      rw [hr] at hx ⊢
      rcases hx with hown | ⟨src', hmem', hx⟩
      · exact .inr ⟨src, hmem, hown⟩
      · rcases hshort dst src src' hmem hmem' x hx with hx | hx
        · exact .inl hx
        · exact .inr ⟨src, hmem, hx⟩
    refine ⟨fun dst src hreach => ?_, fun m' hperm => ?_⟩
    · induction hreach with
      | single hmem => exact hitem _ _ hmem
      | tail _ hmem ih => exact fun x hx => ih x (hitem _ _ hmem x hx)
    · obtain ⟨r', hr'⟩ := parseAllDicts_perm hperm h
      refine ⟨r', hr', fun key x => ?_⟩
      have hshort' : Short m' (Lists (merged ds)) := fun dst src src' hmem hmem' =>
        hshort dst src src' (hperm.mem_iff.mp hmem) (hperm.mem_iff.mp hmem')
      rw [hr, parseAllDicts_oneStep hshort' hr']
      simp only [OneStep, hperm.mem_iff]

-- LIBA gives to LIBC what it was given by nobody.
def demoDicts : List MaskDict :=
  [⟨[("LIBC".toList, ["BIN_0x10".toList]), ("LIBA".toList, ["BIN_0x20".toList])], by decide⟩,
    ⟨[("LIBB".toList, ["LIBA_0x30".toList])], by decide⟩]

def demoMap : Dict Name Name := ⟨[("LIBC".toList, "LIBA".toList)], by decide⟩

def demoResult : MaskDict :=
  ⟨[("LIBC".toList, ["BIN_0x10".toList, "BIN_0x20".toList]), ("LIBA".toList, ["BIN_0x20".toList]),
    ("LIBB".toList, ["LIBA_0x30".toList])], by decide⟩

theorem parseAllDicts_closed_demoMap : Lists demoResult "LIBC".toList "BIN_0x20".toList := by
  have hshort : Short demoMap (Given demoDicts) := by
    intro dst src src' hitem hitem'
    cases List.mem_singleton.mp hitem
    have hkey : "LIBA".toList = "LIBC".toList := congrArg Prod.fst (List.mem_singleton.mp hitem')
    exact absurd hkey (by decide)
  exact ((parseAllDicts_closed_iff demoMap demoDicts demoResult rfl).mpr hshort).1 "LIBC".toList
    "LIBA".toList (.single List.mem_cons_self) _ ⟨_, rfl, List.mem_cons_self⟩

-- LIBC takes the table of LIBA before LIBA takes that of LIBB.
def chainMap : Dict Name Name :=
  ⟨[("LIBC".toList, "LIBA".toList), ("LIBA".toList, "LIBB".toList)], by decide⟩

theorem chainMap_not_closed :
    ∃ r, parseAllDicts chainMap demoDicts = some r ∧
      Lists r "LIBA".toList "LIBA_0x30".toList ∧ ¬Lists r "LIBC".toList "LIBA_0x30".toList := by
  refine ⟨_, rfl, ⟨_, rfl, by decide⟩, ?_⟩
  rintro ⟨vs, hvs, hx⟩
  cases hvs
  exact absurd hx (by decide)

end Platypus.Header
