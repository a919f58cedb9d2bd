import RSearch.Lib.Bytes
import RSearch.Lib.Glob

/-!
# The paths of the dynamic field

The keys of a JSON field's term dictionary are sorted; each is a path, a zero byte, the code of a value
type and the bytes of a value.  The scan takes the path of the first key past a bound, asks for the
block of each type, and moves the bound behind the path: up to there are only keys of that path
(`start_of_lt`).
-/

namespace RSearch.DynamicPaths

open List

/-! ### Words with a common start -/

section Words

variable {α : Type*} [LinearOrder α] {p x t : List α}

theorem le_append : p ≤ p ++ t :=
  not_lt.mp List.le_append_left

theorem start_of_le (hge : p ≤ x) (hle : x ≤ p ++ t) : p <+: x := by
  induction p generalizing x with
  | nil => exact nil_prefix
  | cons a p ih =>
    cases x with
    | nil => exact absurd hge (not_le.mpr (nil_lt_cons _ _))
    | cons c x =>
      rw [← not_lt, cons_lt_cons_iff] at hge
      rw [cons_append, ← not_lt, cons_lt_cons_iff] at hle
      push Not at hge hle
      obtain rfl := le_antisymm hge.1 hle.1
      exact (prefix_cons_inj a).mpr (ih (hge.2 rfl) (hle.2 rfl))

theorem start_of_lt {a b : α} (hnext : ∀ c < b, c ≤ a) (hge : p ++ a :: t ≤ x) (hlt : x < p ++ [b]) :
    p ++ [a] <+: x := by
  obtain ⟨y, rfl⟩ := start_of_le (le_append.trans hge) hlt.le
  replace hge : ¬y < a :: t := fun h => hge.not_gt (append_left_lt h)
  have hy : y < [b] := by
    obtain h | rfl | h := lt_trichotomy y [b]
    · exact h
    · exact absurd hlt (lt_irrefl _)
    · exact absurd (append_left_lt h) hlt.not_gt
  cases y with
  | nil => exact absurd (nil_lt_cons _ _) hge
  | cons c y =>
    have hc : c < b := by simpa [cons_lt_cons_iff] using hy
    rw [cons_lt_cons_iff] at hge
    push Not at hge
    obtain rfl := le_antisymm hge.1 (hnext c hc)
    exact ⟨y, by simp⟩

end Words

local instance byteOrder : LinearOrder UInt8 where
  le_refl := UInt8.le_refl
  le_trans _ _ _ := UInt8.le_trans
  le_antisymm _ _ := UInt8.le_antisymm
  le_total := UInt8.le_total
  lt_iff_le_not_ge _ _ := by rw [UInt8.not_le, iff_and_self]; exact UInt8.le_of_lt
  toDecidableLE := inferInstance

/-! ### Types and keys -/

/-- The types a term of a JSON field can have. -/
inductive TermType where
  | str
  | i64
  | u64
  | f64
  | bool
  | date
deriving DecidableEq

inductive DynamicType where
  | string
  | long
  | double
  | boolean
  | date
deriving DecidableEq

def DynamicType.codes : DynamicType → List TermType
  | string => [.str]
  | long => [.i64, .u64]
  | double => [.f64]
  | boolean => [.bool]
  | date => [.date]

def DynamicType.all : List DynamicType :=
  [.string, .long, .double, .boolean, .date]

/-- The byte a type is written as, another one for each. -/
structure TypeCodes where
  toCode : TermType → UInt8
  injective : Function.Injective toCode

def jsonPathSegmentSep : UInt8 := 1

def jsonEndOfPath : UInt8 := 0

/-- The fields found: the map from a path to the types seen under it, as the pairs it holds. -/
abbrev DynamicFields := Finset (String × DynamicType)

def decodePath (bytes : Bytes) : String :=
  ".".intercalate ((bytes.splitOn jsonPathSegmentSep).map fun segment =>
    .ofList ((Bytes.fromUtf8Lossy segment).toList.flatMap fun c => if c = '.' then ['\\', '.'] else [c]))

/-! ### The scan -/

variable (codes : TypeCodes)

/-- The stream of a sorted dictionary from a bound on. -/
def rangeGe (dict : List Bytes) : Option Bytes → List Bytes
  | none => dict
  | some bound => dict.filter (bound ≤ ·)

def pathOf (key : Bytes) : Option Bytes :=
  (key.findIdx? (· = jsonEndOfPath)).map key.take

/-- The first key from the probe on starts with it. -/
def holds (dict : List Bytes) (probe : Bytes) : Bool :=
  (rangeGe dict (some probe)).head?.any (probe.isPrefixOf ·)

/-- The types under which the dictionary has a key of the path. -/
def probeTypes (dict : List Bytes) (path : Bytes) (types : List DynamicType) (paths : DynamicFields) :
    DynamicFields :=
  types.foldl (fun paths ty =>
    if ty.codes.any fun code => holds dict (path ++ [jsonEndOfPath, codes.toCode code]) then
      insert (decodePath path, ty) paths
    else paths) paths

/-- The loop over one segment's dictionary, `none` if the fuel does not last. -/
def scan (dynamic : String) (dict : List Bytes) :
    ℕ → Option Bytes → DynamicFields → ExceptT String Option DynamicFields
  | 0, _, _ => none
  | fuel + 1, bound, paths =>
    match rangeGe dict bound with
    | [] => pure paths
    | key :: _ =>
      match pathOf key with
      | none => throw s!"malformed JSON term key in field {dynamic}: no end-of-path byte"
      | some path =>
        scan dynamic dict fuel (some (path ++ [jsonPathSegmentSep]))
          (probeTypes codes dict path DynamicType.all paths)

def dynamicFieldTypes (dynamic : String) (segments : List (List Bytes)) (fuel : ℕ) :
    ExceptT String Option DynamicFields :=
  segments.foldlM (fun paths dict => scan codes dynamic dict fuel none paths) ∅

/-! ### Dictionaries -/

/-- A term under a path. -/
structure Term where
  path : Bytes
  path_noEnd : jsonEndOfPath ∉ path
  type : TermType
  value : Bytes

def Term.key (t : Term) : Bytes :=
  t.path ++ jsonEndOfPath :: codes.toCode t.type :: t.value

/-- The type a term is reported as. -/
def TermType.dynamic : TermType → DynamicType
  | .str => .string
  | .i64 => .long
  | .u64 => .long
  | .f64 => .double
  | .bool => .boolean
  | .date => .date

def Term.found (t : Term) : String × DynamicType :=
  (decodePath t.path, t.type.dynamic)

/-- A segment's dictionary: well-formed keys in their order. -/
structure Dictionary where
  terms : List Term
  sorted : (terms.map (Term.key codes)).Pairwise (· < ·)

def Dictionary.keys {codes : TypeCodes} (d : Dictionary codes) : List Bytes :=
  d.terms.map (Term.key codes)

/-- What a reading of every key finds. -/
def foundIn (terms : List Term) : DynamicFields :=
  (terms.map Term.found).toFinset

variable {codes} {d : Dictionary codes}

theorem mem_codes_iff {c : TermType} {ty : DynamicType} : c ∈ ty.codes ↔ c.dynamic = ty := by
  cases c <;> cases ty <;> decide

theorem pathOf_append {path : Bytes} (h : jsonEndOfPath ∉ path) (rest : Bytes) :
    pathOf (path ++ jsonEndOfPath :: rest) = some path := by
  have hnone : path.findIdx? (· = jsonEndOfPath) = none := by
    rw [findIdx?_eq_none_iff]
    intro b hb
    exact decide_eq_false fun heq => h (heq ▸ hb)
  simp [pathOf, hnone, findIdx?_cons]

theorem path_eq {path rest : Bytes} (h : jsonEndOfPath ∉ path) {t : Term}
    (heq : path ++ jsonEndOfPath :: rest = t.key codes) : t.path = path := by
  have hpath := congrArg pathOf heq
  rw [pathOf_append h, Term.key, pathOf_append t.path_noEnd] at hpath
  exact (Option.some.inj hpath).symm

theorem start_iff {path : Bytes} (h : jsonEndOfPath ∉ path) {c : TermType} {t : Term} :
    path ++ [jsonEndOfPath, codes.toCode c] <+: t.key codes ↔ t.path = path ∧ t.type = c := by
  constructor
  · rintro ⟨rest, hrest⟩
    rw [append_assoc] at hrest
    obtain rfl := path_eq h hrest
    have hcode := append_cancel_left hrest
    exact ⟨rfl, (codes.injective (cons.inj (cons.inj hcode).2).1).symm⟩
  · rintro ⟨rfl, rfl⟩
    exact ⟨t.value, by simp [Term.key]⟩

theorem rangeGe_sublist (dict : List Bytes) (bound : Option Bytes) : rangeGe dict bound <+ dict := by
  cases bound with
  | none => exact .refl _
  | some _ => exact filter_sublist

theorem holds_iff {dict : List Bytes} (hsorted : dict.Pairwise (· < ·)) {probe : Bytes} :
    holds dict probe ↔ ∃ key ∈ dict, probe <+: key := by
  have hmem : ∀ key, key ∈ rangeGe dict (some probe) ↔ key ∈ dict ∧ probe ≤ key := by simp [rangeGe]
  have hlater := hsorted.sublist (rangeGe_sublist dict (some probe))
  rw [holds]
  cases hrange : rangeGe dict (some probe) with
  | nil =>
    simp only [head?_nil, Option.any_none, Bool.false_eq_true, false_iff, not_exists, not_and]
    rintro key hkey ⟨t, rfl⟩
    have := (hmem _).mpr ⟨hkey, le_append⟩
    simp [hrange] at this
  | cons first rest =>
    rw [hrange] at hmem hlater
    simp only [head?_cons, Option.any_some, isPrefixOf_iff_prefix]
    refine ⟨fun h => ⟨first, ((hmem first).mp mem_cons_self).1, h⟩, ?_⟩
    rintro ⟨key, hkey, t, rfl⟩
    refine start_of_le ((hmem first).mp mem_cons_self).2 (t := t) ?_
    obtain heq | hrest := mem_cons.mp ((hmem _).mpr ⟨hkey, le_append⟩)
    · exact heq.ge
    · exact (rel_of_pairwise_cons hlater hrest).le

theorem mem_probeTypes {path : Bytes} (h : jsonEndOfPath ∉ path) {types : List DynamicType}
    {paths : DynamicFields} {x : String × DynamicType} :
    x ∈ probeTypes codes d.keys path types paths ↔
      x ∈ paths ∨ x.2 ∈ types ∧ ∃ t ∈ d.terms, t.path = path ∧ t.found = x := by
  have hblock : ∀ ty : DynamicType,
      (ty.codes.any fun code => holds d.keys (path ++ [jsonEndOfPath, codes.toCode code])) = true ↔
        ∃ t ∈ d.terms, t.path = path ∧ t.type.dynamic = ty := by
    simp only [any_eq_true, holds_iff d.sorted, Dictionary.keys, mem_map, exists_exists_and_eq_and,
      start_iff h, mem_codes_iff]
    grind
  induction types generalizing paths with
  | nil => simp [probeTypes]
  | cons ty types ih =>
    refine ih.trans ?_
    grind [Term.found]

/-- Moved behind the first key, the stream is the part of its rest past the new bound. -/
theorem rangeGe_next {dict rest : List Bytes} {bound : Option Bytes} {key next : Bytes}
    (hrange : rangeGe dict bound = key :: rest) (hkey : key < next) :
    rangeGe dict (some next) = rest.filter (next ≤ ·) := by
  have hnext : rangeGe dict (some next) = (rangeGe dict bound).filter (next ≤ ·) := by
    cases bound with
    | none => rfl
    | some b =>
      have hfirst : key ∈ rangeGe dict (some b) := by simp [hrange]
      have hb : b ≤ key := by simpa using (mem_filter.mp hfirst).2
      simp only [rangeGe, filter_filter]
      refine filter_congr fun x _ => ?_
      simpa using fun h => hb.trans (hkey.le.trans h)
  rw [hnext, hrange, filter_cons_of_neg (by simpa using hkey)]

theorem le_end_of_lt_sep (c : UInt8) (h : c < jsonPathSegmentSep) : c ≤ jsonEndOfPath :=
  UInt8.le_iff_toNat_le.mpr (Nat.le_of_lt_succ (UInt8.lt_iff_toNat_lt.mp h))

/-- One segment: if what is behind the bound has been recorded, the scan adds what is in the dictionary. -/
theorem scan_eq {dynamic : String} {fuel : ℕ} {bound : Option Bytes} {base paths : DynamicFields}
    (hfuel : (rangeGe d.keys bound).length < fuel) (hbase : base ⊆ paths)
    (hsound : paths ⊆ base ∪ foundIn d.terms)
    (hbehind : ∀ t ∈ d.terms, t.key codes ∉ rangeGe d.keys bound → t.found ∈ paths) :
    scan codes dynamic d.keys fuel bound paths = pure (base ∪ foundIn d.terms) := by
  induction fuel generalizing bound paths with
  | zero => exact absurd hfuel (Nat.not_lt_zero _)
  | succ fuel ih =>
    rw [scan]
    cases hrange : rangeGe d.keys bound with
    | nil =>
      refine congrArg pure (hsound.antisymm (Finset.union_subset hbase fun x hx => ?_))
      obtain ⟨t, ht, rfl⟩ := mem_map.mp (mem_toFinset.mp hx)
      exact hbehind t ht (by simp [hrange])
    | cons key rest =>
      have hlater := d.sorted.sublist (hrange ▸ rangeGe_sublist d.keys bound)
      have hmem : key ∈ d.keys := (rangeGe_sublist _ bound).subset (by simp [hrange])
      obtain ⟨t, -, rfl⟩ := mem_map.mp hmem
      have hkey : t.key codes < t.path ++ [jsonPathSegmentSep] :=
        append_left_lt (.rel (by decide))
      simp only [Term.key, pathOf_append t.path_noEnd]
      refine ih ?_ ?_ ?_ ?_
      · rw [rangeGe_next hrange hkey]
        rw [hrange, length_cons] at hfuel
        have := rest.length_filter_le (t.path ++ [jsonPathSegmentSep] ≤ ·)
        omega
      · exact fun x hx => (mem_probeTypes t.path_noEnd).mpr (.inl (hbase hx))
      · intro x hx
        obtain hx | ⟨-, u, hu, -, rfl⟩ := (mem_probeTypes t.path_noEnd).mp hx
        · exact hsound hx
        · exact Finset.mem_union_right _ (mem_toFinset.mpr (mem_map_of_mem hu))
      · intro u hu hnot
        refine (mem_probeTypes t.path_noEnd).mpr ?_
        by_cases hin : u.key codes ∈ rangeGe d.keys bound
        · -- between the first key and the new bound only the path of the first key is found
          have hge : t.key codes ≤ u.key codes := by
            rw [hrange] at hin
            obtain heq | hrest := mem_cons.mp hin
            · exact heq.ge
            · exact (rel_of_pairwise_cons hlater hrest).le
          have hlt : u.key codes < t.path ++ [jsonPathSegmentSep] := by
            have hkeys : u.key codes ∈ d.keys := mem_map_of_mem hu
            simpa [rangeGe, hkeys] using hnot
          obtain ⟨more, hmore⟩ := start_of_lt le_end_of_lt_sep hge hlt
          rw [append_assoc] at hmore
          exact .inr ⟨by cases u.found.2 <;> decide, u, hu, path_eq t.path_noEnd hmore, rfl⟩
        · exact .inl (hbehind u hu hin)

/-- **The scan of the dynamic field ends, and finds what a reading of every key finds**: for the sorted
dictionaries of all segments, whatever the bytes of their paths and values are. -/
theorem dynamicFieldTypes_exact (codes : TypeCodes) (dynamic : String) (segments : List (Dictionary codes)) :
    ∃ steps, ∀ fuel ≥ steps,
      (dynamicFieldTypes codes dynamic (segments.map Dictionary.keys) fuel).run =
        some (.ok (foundIn (segments.flatMap (·.terms)))) := by
  refine ⟨(segments.map (·.terms.length)).sum + 1, fun fuel hfuel => ?_⟩
  suffices h : ∀ paths, (segments.map Dictionary.keys).foldlM
      (fun paths dict => scan codes dynamic dict fuel none paths) paths =
        pure (paths ∪ foundIn (segments.flatMap (·.terms))) from
    (h ∅).trans (by rfl)
  induction segments with
  | nil => simp [foundIn]
  | cons d segments ih =>
    intro paths
    simp only [map_cons, sum_cons] at hfuel
    have hscan : scan codes dynamic d.keys fuel none paths = pure (paths ∪ foundIn d.terms) :=
      scan_eq (by simp [rangeGe, Dictionary.keys]; omega) subset_rfl Finset.subset_union_left
        fun t ht h => absurd (mem_map_of_mem ht) h
    rw [map_cons, foldlM_cons, hscan, pure_bind, ih (by omega), Finset.union_assoc]
    simp [foundIn]

/-- The codes of the engine, the letters of its types. -/
def typeCodes : TypeCodes where
  toCode
    | .str => 115
    | .i64 => 105
    | .u64 => 117
    | .f64 => 102
    | .bool => 111
    | .date => 100
  injective := by
    intro a b h
    cases a <;> cases b <;> first | rfl | exact absurd h (by decide)

/-- Under `a` there are an integer and two strings, one of which has a zero byte, and under its child `b` a
number. -/
def parentAndChild : Dictionary typeCodes where
  terms := [⟨[97], by decide, .i64, [1, 0]⟩, ⟨[97], by decide, .str, []⟩, ⟨[97], by decide, .str, [0, 255]⟩,
    ⟨[97, 1, 98], by decide, .f64, [7]⟩]
  sorted := by decide

/-- The path `a` again, with a large integer, and a path whose name goes on from it without a separator. -/
def longerName : Dictionary typeCodes where
  terms := [⟨[97], by decide, .u64, [255]⟩, ⟨[97, 46, 98], by decide, .bool, [1]⟩,
    ⟨[97, 97], by decide, .date, []⟩]
  sorted := by decide

/-- The two segments together: `a` has two types, its child one, and the dot of `a.b` is escaped. -/
theorem dynamicFieldTypes_exact_two : ∃ steps, ∀ fuel ≥ steps,
    (dynamicFieldTypes typeCodes "_dynamic" [parentAndChild.keys, longerName.keys] fuel).run =
      some (.ok {("a", .long), ("a", .string), ("a.b", .double), ("a\\.b", .boolean), ("aa", .date)}) := by
  have hfound : foundIn ([parentAndChild, longerName].flatMap (·.terms)) =
      {("a", .long), ("a", .string), ("a.b", .double), ("a\\.b", .boolean), ("aa", .date)} := by
    decide +kernel
  exact hfound ▸ dynamicFieldTypes_exact typeCodes "_dynamic" [parentAndChild, longerName]

/-! ### The name of a field -/

/-- The separator as a key can hold it. -/
def sepChar : Char := '\x01'

/-- The name of a field in the inventory, by the keys on its path. -/
def fieldName (segments : List String) : String :=
  decodePath ([jsonPathSegmentSep].intercalate (segments.map Bytes.utf8))

/-- A dot of a key is escaped, and the separator becomes a dot. -/
def nameChars (c : Char) : List Char :=
  if c = sepChar then ['.'] else if c = '.' then ['\\', '.'] else [c]

theorem flatMap_intercalate {α β : Type*} (f : α → List β) (x : α) (ls : List (List α)) :
    ([x].intercalate ls).flatMap f = (f x).intercalate (ls.map (flatMap f)) := by
  induction ls with
  | nil => rfl
  | cons l ls ih =>
    cases ls with
    | nil => simp
    | cons l' ls => simp_all

theorem eq_sepChar {c : Char} (h : jsonPathSegmentSep ∈ String.utf8EncodeChar c) : c = sepChar := by
  simp only [String.utf8EncodeChar, jsonPathSegmentSep] at h
  refine Char.ext (UInt32.toNat_inj.mp ?_)
  split_ifs at h <;> simp only [mem_cons, not_mem_nil, or_false, ← UInt8.toNat_inj, UInt8.toNat_ofNat',
    UInt8.reduceToNat] at h <;> change c.val.toNat = 1 <;> omega

theorem toList_decodePath (text : List Char) :
    (decodePath (text.flatMap String.utf8EncodeChar)).toList = text.flatMap nameChars := by
  have hpieces := @Glob.notMem_of_mem_splitOn _ _ sepChar text
  rw [← @intercalate_splitOn _ text _ _ sepChar]
  have hsep : String.utf8EncodeChar sepChar = [jsonPathSegmentSep] := by decide
  have hname : nameChars sepChar = ".".toList := by decide
  rw [decodePath, flatMap_intercalate, flatMap_intercalate, hsep, splitOn_intercalate _ _ (by simp),
    String.toList_intercalate, map_map, map_map, hname]
  · refine congrArg _ (map_congr_left fun l hl => ?_)
    have hlossy := Bytes.fromUtf8Lossy_utf8 (.ofList l)
    rw [Bytes.utf8, String.toList_ofList] at hlossy
    simp only [Function.comp, hlossy, String.toList_ofList]
    exact flatMap_congr fun c hc =>
      (if_neg fun hsep : c = sepChar => hpieces l hl (hsep ▸ hc)).symm
  · intro l hl hmem
    obtain ⟨piece, hpiece, rfl⟩ := mem_map.mp hl
    obtain ⟨c, hc, hbyte⟩ := mem_flatMap.mp hmem
    exact hpieces piece hpiece (eq_sepChar hbyte ▸ hc)

theorem fieldName_eq (segments : List String) : fieldName segments
    = .ofList (([sepChar].intercalate (segments.map String.toList)).flatMap nameChars) := by
  rw [← toList_decodePath, flatMap_intercalate, map_map, String.ofList_toList]
  rfl

/-! ### Which fields share a name -/

/-- A text read with a dot for each separator that follows a backslash. -/
def respell : List Char → List Char
  | c :: d :: rest =>
    if c = '\\' ∧ d = sepChar then '.' :: respell rest else c :: respell (d :: rest)
  | text => text

/-- The way back from a name: a dot after a backslash was a dot, any other one a separator. -/
def readName : List Char → List Char
  | c :: d :: rest =>
    if c = '\\' ∧ d = '.' then '.' :: readName rest
    else (if c = '.' then sepChar else c) :: readName (d :: rest)
  | [c] => [if c = '.' then sepChar else c]
  | [] => []

theorem flatMap_nameChars_respell (text : List Char) :
    (respell text).flatMap nameChars = text.flatMap nameChars := by
  fun_induction respell text with
  | case1 c d rest h ih => simp [ih, h.1, h.2, nameChars, sepChar]
  | case2 c d rest h ih => simp [ih]
  | case3 text h => rfl

theorem readName_cons {c : Char} {name : List Char} (h : c = '\\' → name.head? ≠ some '.') :
    readName (c :: name) = (if c = '.' then sepChar else c) :: readName name := by
  cases name with
  | nil => rfl
  | cons d name => rw [readName, if_neg fun hboth => h hboth.1 (by simp [hboth.2])]

theorem readName_flatMap_nameChars (text : List Char) :
    readName (text.flatMap nameChars) = respell text := by
  fun_induction respell text with
  | case1 c d rest h ih => simp [h.1, h.2, nameChars, sepChar, readName, ih]
  | case2 c d rest h ih =>
    -- a backslash is only followed by a dot in the name if it is one of the name's own
    have hhead : c = '\\' → ((d :: rest).flatMap nameChars).head? ≠ some '.' := by
      intro hc
      have hd : d ≠ sepChar := fun hd => h ⟨hc, hd⟩
      by_cases hdot : d = '.'
      · simp [hdot, nameChars, sepChar]
      · simp [nameChars, hd, hdot]
    rw [flatMap_cons, ← ih]
    by_cases hsep : c = sepChar
    · subst hsep
      exact readName_cons nofun
    · by_cases hdot : c = '.'
      · subst hdot
        rfl
      · simp only [nameChars, if_neg hsep, if_neg hdot, singleton_append]
        rw [readName_cons hhead, if_neg hdot]
  | case3 text h =>
    obtain _ | ⟨c, _ | ⟨d, rest⟩⟩ := text
    · rfl
    · by_cases hsep : c = sepChar
      · subst hsep
        rfl
      · by_cases hdot : c = '.'
        · subst hdot
          rfl
        · simp [nameChars, hsep, hdot, readName]
    · exact absurd rfl (h c d rest)

/-- **The keys of a path in one text**, the separator between them, and a dot for each separator that
follows a backslash. -/
def spelling (segments : List String) : List Char :=
  respell ([sepChar].intercalate (segments.map String.toList))

theorem fieldName_eq_iff {segments other : List String} :
    fieldName segments = fieldName other ↔ spelling segments = spelling other := by
  rw [fieldName_eq, fieldName_eq, String.ofList_inj, spelling, spelling]
  constructor
  · intro h
    simpa only [readName_flatMap_nameChars] using congrArg readName h
  · intro h
    simpa only [flatMap_nameChars_respell] using congrArg (flatMap nameChars) h

/-- No key holds the separator, and none but the last ends in a backslash. -/
structure Plain (segments : List String) : Prop where
  ne_nil : segments ≠ []
  noSep : ∀ key ∈ segments, sepChar ∉ key.toList
  noBackslash : ∀ key ∈ segments.dropLast, key.toList.getLast? ≠ some '\\'

theorem respell_append {key rest : List Char} (hsep : sepChar ∉ key)
    (hlast : key.getLast? ≠ some '\\') : respell (key ++ rest) = key ++ respell rest := by
  induction key with
  | nil => rfl
  | cons c key ih =>
    rw [mem_cons, not_or] at hsep
    cases key with
    | nil =>
      have hc : c ≠ '\\' := by simpa using hlast
      cases rest <;> simp [respell, hc]
    | cons d key =>
      have hd : d ≠ sepChar := fun h => hsep.2 (h ▸ mem_cons_self)
      rw [cons_append, cons_append, respell, if_neg fun h => hd h.2, ← cons_append,
        ih hsep.2 (by simpa using hlast)]
      rfl

theorem respell_of_notMem {text : List Char} (hsep : sepChar ∉ text) : respell text = text := by
  fun_induction respell text with
  | case1 c d rest h ih => simp [h.2] at hsep
  | case2 c d rest h ih => rw [ih fun hmem => hsep (mem_cons_of_mem _ hmem)]
  | case3 text h => rfl

theorem Plain.spelling_eq {segments : List String} (h : Plain segments) :
    spelling segments = [sepChar].intercalate (segments.map String.toList) := by
  obtain ⟨hne, hsep, hlast⟩ := h
  unfold spelling
  induction segments with
  | nil => exact absurd rfl hne
  | cons key segments ih =>
    cases segments with
    | nil => exact respell_of_notMem (by simpa using hsep key mem_cons_self)
    | cons next segments =>
      have hrest := ih nofun (fun k hk => hsep k (mem_cons_of_mem _ hk))
        fun k hk => hlast k (mem_cons_of_mem _ hk)
      have hkey := hsep key mem_cons_self
      have hstep : ∀ text : List Char, respell (sepChar :: text) = sepChar :: respell text := by
        intro text
        cases text <;> simp [respell, sepChar]
      simp only [map_cons, intercalate_cons_cons, append_assoc, cons_append, nil_append] at hrest ⊢
      rw [respell_append hkey (hlast key mem_cons_self), hstep, hrest]

/-- **Two paths share their name exactly if they have one spelling.**  So `a\` with `b` below it shares its
name with the one key `a.b`, and two paths have different names whenever both are `Plain`. -/
theorem fieldName_distinct_iff (segments other : List String) :
    (fieldName segments ≠ fieldName other ↔ spelling segments ≠ spelling other) ∧
      (Plain segments → Plain other → segments ≠ other → fieldName segments ≠ fieldName other) := by
  refine ⟨fieldName_eq_iff.not, fun hsegments hother hne hname => hne ?_⟩
  rw [fieldName_eq_iff, hsegments.spelling_eq, hother.spelling_eq] at hname
  have hback : ∀ {keys : List String}, Plain keys →
      splitOn sepChar ([sepChar].intercalate (keys.map String.toList)) = keys.map String.toList :=
    fun h => splitOn_intercalate _ (by simpa using h.noSep) (by simpa using h.ne_nil)
  have hsplit := congrArg (splitOn sepChar) hname
  rw [hback hsegments, hback hother] at hsplit
  exact map_injective_iff.mpr (fun _ _ => String.toList_injective) hsplit

/-- Siblings, and a key with a dot of its own beside the path that is written like it. -/
theorem fieldName_distinct_siblings :
    fieldName ["a", "b"] ≠ fieldName ["a", "c"] ∧ fieldName ["a.b", "c\\"] ≠ fieldName ["a", "b", "c\\"] :=
  ⟨(fieldName_distinct_iff _ _).2 ⟨nofun, by decide, by decide⟩ ⟨nofun, by decide, by decide⟩ (by decide),
    (fieldName_distinct_iff _ _).2 ⟨nofun, by decide, by decide⟩ ⟨nofun, by decide, by decide⟩
      (by decide)⟩

theorem fieldName_backslash : ∃ segments other : List String,
    segments ≠ other ∧ fieldName segments = fieldName other :=
  ⟨["a\\", "b"], ["a.b"], by decide, by decide⟩

end RSearch.DynamicPaths
