import RSearch.Lib.Compare
import RSearch.Search.Page

/-!
# The values of a field sort

A search may be ordered by fields, each in its own direction, with the documents that lack a field
first, last or taken as if they had a given value.  A document is ordered by a list of materialized
values, then the timestamp and `_seq`, newest first.
-/

namespace RSearch.Search

open List Json Index Compare

/-! ### Values and their order -/

inductive SortType where
  | keyword
  | long
  | boolean
  | date
  | ip
  deriving DecidableEq

def SortType.name : SortType → String
  | .keyword => "Keyword"
  | .long => "Long"
  | .boolean => "Boolean"
  | .date => "Date"
  | .ip => "Ip"

/-- A materialized value.  Strings are ordered by their characters' code points, which is the order of
their bytes in UTF-8; an address is the number its 16 bytes are. -/
inductive SortValue where
  | missing
  | str (s : String)
  | i64 (n : ℤ)
  | bool (b : Bool)
  | ip (bits : ℕ)
  deriving DecidableEq

open SortValue

def SortValue.rank : SortValue → ℕ
  | .missing => 0
  | .bool _ => 1
  | .i64 _ => 2
  | .str _ => 3
  | .ip _ => 4

def SortValue.cmpNatural (nullIsMax : Bool) : SortValue → SortValue → Ordering
  | .missing, .missing => .eq
  | .missing, _ => if nullIsMax then .gt else .lt
  | _, .missing => if nullIsMax then .lt else .gt
  | .str a, .str b => compare a b
  | .i64 a, .i64 b => compare a b
  | .bool a, .bool b => compare a b
  | .ip a, .ip b => compare a b
  | a, b => compare a.rank b.rank

structure FieldOrder where
  desc : Bool
  nullIsMax : Bool
  deriving DecidableEq

open FieldOrder

def FieldOrder.directed (o : FieldOrder) (natural : Ordering) : Ordering :=
  if o.desc then natural.swap else natural

def FieldOrder.cmpValue (o : FieldOrder) (a b : SortValue) : Ordering :=
  o.directed (a.cmpNatural o.nullIsMax b)

structure Position where
  values : List SortValue
  millis : ℤ
  seq : ℤ
  deriving DecidableEq

def cmpTiebreak (a b : ℤ × ℤ) : Ordering := (compare b.1 a.1).then (compare b.2 a.2)

/-- `cmp_hits`: **the order of the results**, less for what comes earlier. -/
def cmpHits (orders : List FieldOrder) (a b : Position) : Ordering :=
  (Compare.clauses .missing (orders.map FieldOrder.cmpValue) a.values b.values).then
    (cmpTiebreak (a.millis, a.seq) (b.millis, b.seq))

/-! ### Clauses -/

def SortValue.OfType : SortType → SortValue → Prop
  | _, .missing => True
  | .keyword, .str _ => True
  | .long, .i64 n | .date, .i64 n => i64Min ≤ n ∧ n ≤ i64Max
  | .boolean, .bool _ => True
  | .ip, .ip bits => bits < 2 ^ 128
  | _, _ => False

structure ResolvedSort where
  field : String
  ty : SortType
  desc : Bool
  /-- A document with several values is ordered by the largest, else by the smallest. -/
  useMax : Bool
  nullIsMax : Bool
  /-- `missing: <value>`. -/
  substitute : Option SortValue
  substitute_ofType : ∀ v ∈ substitute, v.OfType ty

def ResolvedSort.order (sort : ResolvedSort) : FieldOrder := ⟨sort.desc, sort.nullIsMax⟩

/-! ### The order is one -/

def SortValue.rankIn (nullIsMax : Bool) (v : SortValue) : ℕ :=
  if v = .missing ∧ nullIsMax = true then 5 else v.rank

def SortValue.number : SortValue → ℤ
  | .missing | .str _ => 0
  | .i64 n => n
  | .bool b => if b then 1 else 0
  | .ip bits => bits

def SortValue.text : SortValue → String
  | .str s => s
  | .missing | .i64 _ | .bool _ | .ip _ => ""

theorem SortValue.cmpNatural_eq (nullIsMax : Bool) :
    cmpNatural nullIsMax = compareLex (compareOn (rankIn nullIsMax))
      (compareLex (compareOn number) (compareOn text)) := by
  funext a b
  have hip : ∀ m n : ℕ, compare m n = compare (m : ℤ) n := fun m n => by
    simp only [compare, compareOfLessAndEq, Nat.cast_lt, Nat.cast_inj]
  cases nullIsMax <;> rcases a with _ | a | a | a | a <;> rcases b with _ | b | b | b | b
  case false.bool.bool | true.bool.bool => cases a <;> cases b <;> rfl
  all_goals first
    | rfl
    | simp [cmpNatural, compareLex, compareOn, rankIn, rank, number, text, hip]

instance (nullIsMax : Bool) : Std.TransCmp (SortValue.cmpNatural nullIsMax) := by
  rw [SortValue.cmpNatural_eq]
  infer_instance

theorem SortValue.cmpNatural_eq_eq_iff {nullIsMax : Bool} {v w : SortValue} :
    v.cmpNatural nullIsMax w = .eq ↔ v = w := by
  constructor
  · intro h
    cases nullIsMax <;> rcases v with _ | a | a | a | a <;> rcases w with _ | b | b | b | b <;>
      simp_all [cmpNatural, rank]
  · grind

instance (o : FieldOrder) : Std.TransCmp o.cmpValue := by
  have hdirected : o.cmpValue = if o.desc then fun a b => (a.cmpNatural o.nullIsMax b).swap
      else SortValue.cmpNatural o.nullIsMax := by
    grind [FieldOrder.directed, FieldOrder.cmpValue]
  rw [hdirected]
  split_ifs
  · exact Compare.transCmp_swap _
  · infer_instance

theorem FieldOrder.cmpValue_eq_eq_iff {o : FieldOrder} {v w : SortValue} :
    o.cmpValue v w = .eq ↔ v = w := by
  rw [← @cmpNatural_eq_eq_iff o.nullIsMax]
  unfold cmpValue directed
  split_ifs
  · exact Ordering.swap_eq_eq
  · exact Iff.rfl

instance : Std.TransCmp cmpTiebreak := by
  have hmillis := Compare.transCmp_comap (fun a b : ℤ => compare b a) (Prod.fst : ℤ × ℤ → ℤ)
  have hseq := Compare.transCmp_comap (fun a b : ℤ => compare b a) (Prod.snd : ℤ × ℤ → ℤ)
  exact inferInstanceAs (Std.TransCmp (compareLex (fun a b : ℤ × ℤ => compare b.1 a.1)
    fun a b : ℤ × ℤ => compare b.2 a.2))

instance (orders : List FieldOrder) : Std.TransCmp (cmpHits orders) := by
  have hvalues : Std.TransCmp (Compare.clauses SortValue.missing (orders.map FieldOrder.cmpValue)) := by
    refine Compare.transCmp_clauses _ fun cmp hcmp => ?_
    obtain ⟨o, _, rfl⟩ := mem_map.mp hcmp
    infer_instance
  have hfirst := Compare.transCmp_comap
    (Compare.clauses SortValue.missing (orders.map FieldOrder.cmpValue)) Position.values
  have hrest := Compare.transCmp_comap cmpTiebreak fun p : Position => (p.millis, p.seq)
  exact inferInstanceAs (Std.TransCmp (compareLex
    (fun a b : Position => Compare.clauses .missing (orders.map FieldOrder.cmpValue) a.values b.values)
    fun a b : Position => cmpTiebreak (a.millis, a.seq) (b.millis, b.seq)))

/-! ### Values as JSON -/

inductive IpAddr where
  | v4 (bits : ℕ)
  | v6 (bits : ℕ)
  deriving DecidableEq

/-- How the standard library writes the addresses of each of the two kinds and reads an address, and how
JSON values are written: the text of an address is read back as that address. -/
structure Texts where
  showV4 : ℕ → String
  showV6 : ℕ → String
  parseAddr : String → Option IpAddr
  render : Value → String
  parseAddr_showV4 : ∀ bits < 2 ^ 32, parseAddr (showV4 bits) = some (.v4 bits)
  parseAddr_showV6 : ∀ bits < 2 ^ 128, parseAddr (showV6 bits) = some (.v6 bits)

def toIpv4Mapped (bits : ℕ) : Option ℕ :=
  if bits / 2 ^ 32 = 0xffff then some (bits % 2 ^ 32) else none

def toIpv6Mapped (bits : ℕ) : ℕ := 0xffff * 2 ^ 32 + bits

def formatIp (t : Texts) (bits : ℕ) : String :=
  match toIpv4Mapped bits with
  | some v4 => t.showV4 v4
  | none => t.showV6 bits

/-- An address as a sort value, one of the older kind as the address that it is mapped to. -/
def parseIp (t : Texts) (s : String) : Option ℕ :=
  (t.parseAddr s).map fun
    | .v4 bits => toIpv6Mapped bits
    | .v6 bits => bits

theorem parseIp_formatIp (t : Texts) {bits : ℕ} (h : bits < 2 ^ 128) :
    parseIp t (formatIp t bits) = some bits := by
  unfold formatIp toIpv4Mapped
  split_ifs with hmapped
  · have hlow : bits % 2 ^ 32 < 2 ^ 32 := Nat.mod_lt _ (by decide)
    simp only [parseIp, t.parseAddr_showV4 _ hlow, Option.map_some, toIpv6Mapped]
    exact congrArg some (by omega)
  · simp only [parseIp, t.parseAddr_showV6 _ h, Option.map_some]

/-- `SortValue::to_json`: a missing value is the extreme of the side it is placed on. -/
def SortValue.toJson (t : Texts) (ty : SortType) (nullIsMax : Bool) : SortValue → Value
  | .missing =>
    match ty with
    | .keyword | .ip => .null
    | .long | .date => intNumber (if nullIsMax then i64Max else i64Min)
    | .boolean => intNumber (if nullIsMax then 2147483647 else -2147483648)
  | .str s => .string s
  | .i64 n => intNumber n
  | .bool b => intNumber (if b then 1 else 0)
  | .ip bits => .string (formatIp t bits)

def longValue (n : ℤ) : SortValue := if n = i64Max ∨ n = i64Min then .missing else .i64 n

def parseSortBool : Value → Option SortValue
  | .bool b => some (.bool b)
  | .number n =>
    n.asI64.bind fun i =>
      if i = 0 then some (.bool false)
      else if i = 1 then some (.bool true)
      else if i = 2147483647 ∨ i = -2147483648 then some .missing
      else none
  | .string s => if s = "true" then some (.bool true) else if s = "false" then some (.bool false) else none
  | .null | .array _ | .object _ => none

def parseSortValue (t : Texts) (now : Option ℤ) (ty : SortType) (value : Value) :
    Unwind (Option SortValue) :=
  if value.isNull then .ok (some .missing)
  else
    match ty with
    | .keyword => .ok (some (.str (value.asStr.getD (t.render value))))
    | .long => .ok ((cursorInt value).map longValue)
    | .date =>
      match cursorInt value with
      | some n => .ok (some (longValue n))
      | none => (parseTimeMillis now value).map (Option.map longValue)
    | .boolean => .ok (parseSortBool value)
    | .ip => .ok ((value.asStr.bind (parseIp t)).map .ip)

def SortValue.Extreme (v : SortValue) : Prop := v = .i64 i64Max ∨ v = .i64 i64Min

instance (v : SortValue) : Decidable v.Extreme := inferInstanceAs (Decidable (_ ∨ _))

variable {n : ℤ} {fields : List ResolvedSort}

theorem longValue_of_not_extreme (h : ¬ (i64 n).Extreme) : longValue n = .i64 n := by
  refine if_neg fun hn => h ?_
  rcases hn with rfl | rfl
  · exact .inl rfl
  · exact .inr rfl

theorem isNull_intNumber (n : ℤ) : (intNumber n).isNull = false := rfl

theorem parseSortValue_intNumber (t : Texts) (now : Option ℤ) {ty : SortType}
    (hty : ty = .long ∨ ty = .date) (hn : n ≤ i64Max) :
    parseSortValue t now ty (intNumber n) = .ok (some (longValue n)) := by
  have hread : cursorInt (intNumber n) = some n := cursorInt_intNumber (Int.lt_of_le_sub_one hn)
  grind [isNull_intNumber, parseSortValue]

theorem longValue_extreme (nullIsMax : Bool) :
    longValue (if nullIsMax then i64Max else i64Min) = .missing := by
  cases nullIsMax <;> rfl

theorem parseSortValue_toJson (t : Texts) (now : Option ℤ) {ty : SortType} (nullIsMax : Bool)
    {v : SortValue} (hv : v.OfType ty) (hextreme : ¬ v.Extreme) :
    parseSortValue t now ty (v.toJson t ty nullIsMax) = .ok (some v) := by
  cases v with
  | missing =>
    cases ty with
    | keyword | ip => rfl
    | long | date =>
      rw [toJson, parseSortValue_intNumber t now (by simp) (by cases nullIsMax <;> decide),
        longValue_extreme]
    | boolean => cases nullIsMax <;> rfl
  | str s =>
    cases ty with
    | keyword => rfl
    | long | boolean | date | ip => cases hv
  | i64 n =>
    cases ty with
    | long | date =>
      rw [toJson, parseSortValue_intNumber t now (by simp) hv.2, longValue_of_not_extreme hextreme]
    | keyword | boolean | ip => cases hv
  | bool b =>
    cases ty with
    | boolean => cases b <;> rfl
    | keyword | long | date | ip => cases hv
  | ip bits =>
    cases ty with
    | ip => simp [toJson, parseSortValue, Value.isNull, Value.asStr, parseIp_formatIp t hv]
    | keyword | long | boolean | date => cases hv

theorem parseSortValue_toJson_iff (t : Texts) (now : Option ℤ) {ty : SortType} (nullIsMax : Bool)
    {v : SortValue} (hv : v.OfType ty) :
    parseSortValue t now ty (v.toJson t ty nullIsMax) = .ok (some v) ↔ ¬ v.Extreme := by
  refine ⟨?_, parseSortValue_toJson t now nullIsMax hv⟩
  rintro hread (rfl | rfl)
  all_goals
    cases ty with
    | long | date =>
      cases hread
    | keyword | boolean | ip => cases hv

/-! ### Addresses in full -/

def hexDigit (c : Char) : ℕ := if c.isDigit then c.toNat - 48 else c.toNat - 87

def hexValue (digits : List Char) : ℕ := digits.foldl (fun n c => 16 * n + hexDigit c) 0

theorem hexValue_toDigits (n : ℕ) : hexValue (Nat.toDigits 16 n) = n ∧ ':' ∉ Nat.toDigits 16 n := by
  have hdigit : ∀ d < 16, hexDigit d.digitChar = d ∧ ':' ≠ d.digitChar := by decide
  induction n using Nat.strongRecOn with
  | ind n ih =>
    rcases lt_or_ge n 16 with hlt | hge
    · rw [Nat.toDigits_of_lt_base hlt]
      exact ⟨by simp [hexValue, (hdigit n hlt).1], by simp⟩
    · obtain ⟨hvalue, hcolon⟩ := ih (n / 16) (by omega)
      have hlast := (hdigit (n % 16) (Nat.mod_lt n (by decide))).1
      rw [Nat.toDigits_of_base_le (by decide) hge]
      refine ⟨?_, by simp [hcolon]⟩
      rw [hexValue, foldl_append, ← hexValue, hvalue, foldl_cons, foldl_nil, hlast]
      omega

/-- The groups of a number's digits to a base, the first one first. -/
def groups (base : ℕ) : ℕ → ℕ → List ℕ
  | 0, _ => []
  | k + 1, n => groups base k (n / base) ++ [n % base]

theorem foldl_groups (base k : ℕ) {n : ℕ} (h : n < base ^ k) :
    (groups base k n).foldl (fun m d => base * m + d) 0 = n := by
  induction k generalizing n with
  | zero => exact (Nat.lt_one_iff.mp h).symm
  | succ k ih =>
    rw [groups, foldl_append, ih (Nat.div_lt_of_lt_mul (by rwa [Nat.pow_succ'] at h))]
    exact Nat.div_add_mod n base

/-- Four decimal numbers between dots, or eight hexadecimal ones between colons. -/
def plainTexts : Texts where
  showV4 bits := .ofList (['.'].intercalate ((groups 256 4 bits).map (Nat.toDigits 10)))
  showV6 bits := .ofList ([':'].intercalate ((groups 65536 8 bits).map (Nat.toDigits 16)))
  parseAddr s :=
    if ':' ∈ s.toList then
      some (.v6 (((s.toList.splitOn ':').map hexValue).foldl (fun m d => 65536 * m + d) 0))
    else some (.v4 (((s.toList.splitOn '.').map (Nat.ofDigitChars 10 · 0)).foldl
      (fun m d => 256 * m + d) 0))
  render _ := ""
  parseAddr_showV4 bits h := by
    have hdigits : ∀ g ∈ (groups 256 4 bits).map (Nat.toDigits 10), ∀ c ∈ g, c.isDigit = true := by
      intro g hg c hc
      obtain ⟨n, -, rfl⟩ := mem_map.mp hg
      exact Nat.isDigit_of_mem_toDigits (by decide) (by decide) hc
    have hdot : ∀ g ∈ (groups 256 4 bits).map (Nat.toDigits 10), '.' ∉ g :=
      fun g hg hc => absurd (hdigits g hg _ hc) (by decide)
    have hcolon : ':' ∉ ['.'].intercalate ((groups 256 4 bits).map (Nat.toDigits 10)) := by
      simp only [groups, nil_append, cons_append, map_cons, map_nil] at hdigits ⊢
      intro hmem
      simp only [intercalate_cons_cons, intercalate_singleton, mem_append, mem_singleton,
        show ¬ ':' = '.' by decide, or_false] at hmem
      grind
    rw [String.toList_ofList, if_neg hcolon, splitOn_intercalate _ hdot (by simp [groups]), map_map]
    simp [Function.comp_def, Nat.ofDigitChars_ten_toDigits, foldl_groups 256 4 h]
  parseAddr_showV6 bits h := by
    have hcolon : ∀ g ∈ (groups 65536 8 bits).map (Nat.toDigits 16), ':' ∉ g := by
      intro g hg
      obtain ⟨n, -, rfl⟩ := mem_map.mp hg
      exact (hexValue_toDigits n).2
    have hmem : ':' ∈ [':'].intercalate ((groups 65536 8 bits).map (Nat.toDigits 16)) := by
      simp [groups, intercalate_cons_cons]
    rw [String.toList_ofList, if_pos hmem, splitOn_intercalate _ hcolon (by simp [groups]), map_map]
    simp [Function.comp_def, (hexValue_toDigits _).1, foldl_groups 65536 8 h]

example : formatIp plainTexts 0xffff0a000001 = "10.0.0.1" ∧
    formatIp plainTexts 0x20010db8000100020003000400050006 = "2001:db8:1:2:3:4:5:6" := by decide +kernel

/-! ### The cursor -/

/-- A `search_after` of a field sort: a value for each clause, and the tiebreak as far as it was passed
back. -/
structure FieldCursor where
  values : List SortValue
  millis : Option ℤ
  seq : Option ℤ
  deriving DecidableEq

def parseCursorValue (t : Texts) (now : Option ℤ) (value : Value) (sort : ResolvedSort) :
    Except Refusal SortValue := do
  match ← (parseSortValue t now sort.ty value).mapError Refusal.panic with
  | some v => return v
  | none => .error (.badRequest
      s!"search_after value {t.render value} for [{sort.field}] is not a valid {sort.ty.name}")

def parseTiebreak (what : String) (value : Value) : Except Refusal ℤ :=
  if value.isNull then .ok (-1)
  else
    match cursorInt value with
    | some n => .ok (if n = i64Max ∨ n = i64Min then -1 else n)
    | none => .error (.badRequest s!"search_after {what} must be an integer")

def FieldCursor.parse (t : Texts) (now : Option ℤ) (fields : List ResolvedSort) (values : List Value) :
    Except Refusal FieldCursor := do
  if values.length < fields.length ∨ fields.length + 2 < values.length then
    .error (.badRequest
      s!"search_after has {values.length} value(s) but sort has {fields.length}.")
  else
    let parsed ← (values.zip fields).mapM fun p => parseCursorValue t now p.1 p.2
    let millis ← values[fields.length]?.mapM (parseTiebreak "timestamp tiebreak")
    let seq ← values[fields.length + 1]?.mapM (parseTiebreak "_seq tiebreak")
    return ⟨parsed, millis.map clampMillis, seq⟩

def sortJson (t : Texts) : List ResolvedSort → List SortValue → List Value
  | [], _ => []
  | sort :: fields, values =>
    (values.headD .missing).toJson t sort.ty sort.nullIsMax :: sortJson t fields values.tail

def hitSortJson (t : Texts) (fields : List ResolvedSort) (p : Position) : Value :=
  .array (sortJson t fields p.values ++ [intNumber p.millis, intNumber p.seq])

def Position.OfTypes (p : Position) (fields : List ResolvedSort) : Prop :=
  List.Forall₂ (fun v sort => v.OfType sort.ty) p.values fields

/-- **The position can be read back**: none of its numbers is one that stands for a missing value. -/
def Position.Readable (p : Position) : Prop := (∀ v ∈ p.values, ¬ v.Extreme) ∧ p.seq ≠ i64Max

instance (p : Position) : Decidable p.Readable := inferInstanceAs (Decidable (_ ∧ _))

def Position.cursor (p : Position) : FieldCursor := ⟨p.values, some p.millis, some p.seq⟩

theorem length_sortJson (t : Texts) (fields : List ResolvedSort) (values : List SortValue) :
    (sortJson t fields values).length = fields.length := by
  induction fields generalizing values with
  | nil => rfl
  | cons sort fields ih => grind [sortJson]

theorem parse_sortJson (t : Texts) (now : Option ℤ) {values : List SortValue}
    (htypes : List.Forall₂ (fun v sort => v.OfType sort.ty) values fields)
    (hextreme : ∀ v ∈ values, ¬ v.Extreme) :
    ((sortJson t fields values).zip fields).mapM (fun p => parseCursorValue t now p.1 p.2) =
      .ok values := by
  induction htypes with
  | nil => rfl
  | cons hv htail ih =>
    rename_i v sort values fields
    obtain ⟨hhead, hrest⟩ := forall_mem_cons.mp hextreme
    have hparse : parseCursorValue t now (v.toJson t sort.ty sort.nullIsMax) sort = .ok v := by
      rw [parseCursorValue, parseSortValue_toJson t now sort.nullIsMax hv hhead]
      rfl
    rw [sortJson, headD_cons, tail_cons, zip_cons_cons, mapM_cons, hparse, ih hrest]
    rfl

theorem parseTiebreak_intNumber {what : String} (hn : i64Min < n) (hn' : n ≤ i64Max) :
    parseTiebreak what (intNumber n) = .ok (if n = i64Max then -1 else n) := by
  have hread : cursorInt (intNumber n) = some n := cursorInt_intNumber (Int.lt_of_le_sub_one hn')
  grind [isNull_intNumber, parseTiebreak]

theorem FieldCursor.parse_hitSortJson (t : Texts) (now : Option ℤ) {p : Position}
    (htypes : p.OfTypes fields) (hextreme : ∀ v ∈ p.values, ¬ v.Extreme)
    (hmillis : -maxSafeMillis ≤ p.millis ∧ p.millis ≤ maxSafeMillis)
    (hseq : -1 ≤ p.seq ∧ p.seq ≤ i64Max) :
    FieldCursor.parse t now fields (sortJson t fields p.values ++ [intNumber p.millis, intNumber p.seq]) =
      .ok ⟨p.values, some p.millis, some (if p.seq = i64Max then -1 else p.seq)⟩ := by
  have hlength := length_sortJson t fields p.values
  have hclamp : clampMillis p.millis = p.millis := by
    grind [clampMillis]
  have hts : parseTiebreak "timestamp tiebreak" (intNumber p.millis) = .ok p.millis := by
    grind [parseTiebreak_intNumber, i64Max, i64Min, maxSafeMillis]
  have hq : parseTiebreak "_seq tiebreak" (intNumber p.seq) = .ok (if p.seq = i64Max then -1 else p.seq) := by
    refine parseTiebreak_intNumber ?_ hseq.2
    unfold i64Min
    omega
  have hzip : (sortJson t fields p.values ++ [intNumber p.millis, intNumber p.seq]).zip fields =
      (sortJson t fields p.values).zip fields := by
    have happend : (sortJson t fields p.values ++ [intNumber p.millis, intNumber p.seq]).zip
        (fields ++ []) = (sortJson t fields p.values).zip fields ++ List.zip _ [] :=
      zip_append hlength
    grind
  have hcount : ¬ ((sortJson t fields p.values ++ [intNumber p.millis, intNumber p.seq]).length <
      fields.length ∨ fields.length + 2 <
      (sortJson t fields p.values ++ [intNumber p.millis, intNumber p.seq]).length) := by
    rw [length_append, hlength]
    simp
  have hfirst : (sortJson t fields p.values ++ [intNumber p.millis, intNumber p.seq])[fields.length]?
      = some (intNumber p.millis) := by
    grind
  have hsecond : (sortJson t fields p.values ++ [intNumber p.millis, intNumber p.seq])[fields.length + 1]?
      = some (intNumber p.seq) := by
    rw [getElem?_append_right (by omega), hlength, Nat.add_sub_cancel_left]
    rfl
  rw [FieldCursor.parse, if_neg hcount, hzip, parse_sortJson t now htypes hextreme, hfirst, hsecond]
  simp only [Option.mapM_some, hts, hq]
  simp only [bind, Except.bind, pure, Except.pure, Functor.map, Except.map, Option.map_some, hclamp]

end RSearch.Search
