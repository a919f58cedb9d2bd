import RSearch.Lib.Gaps
import RSearch.Search.SortValue

/-!
# The keys of a segment

Inside one segment a string stands for its ordinal in the dictionary of the segment's column,
doubled and with one added, so that a string that is not in the dictionary has a place between two
ordinals; numbers, booleans and addresses stand for themselves.
-/

namespace RSearch.Search

open List Option Json Index Compare FieldOrder Gaps FieldCursor

/-! ### Keys -/

inductive SegKey where
  | missing
  | ord (n : ℕ)
  | i64 (n : ℤ)
  | bool (b : Bool)
  | ip (bits : ℕ)
  deriving DecidableEq

def SegKey.kind : SegKey → ℕ
  | .missing => 0
  | .bool _ => 1
  | .i64 _ => 2
  | .ord _ => 3
  | .ip _ => 4

def SegKey.cmpNatural (nullIsMax : Bool) : SegKey → SegKey → Ordering
  | .missing, .missing => .eq
  | .missing, _ => if nullIsMax then .gt else .lt
  | _, .missing => if nullIsMax then .lt else .gt
  | .ord a, .ord b => compare a b
  | .i64 a, .i64 b => compare a b
  | .bool a, .bool b => compare a b
  | .ip a, .ip b => compare a b
  | a, b => compare a.kind b.kind

def FieldOrder.cmpKey (o : FieldOrder) (a b : SegKey) : Ordering :=
  o.directed (a.cmpNatural o.nullIsMax b)

/-- What the engine finds for a string in a column's dictionary: its ordinal, or the one of the next term. -/
inductive TermOrdHit where
  | exact (ord : ℕ)
  | next (ord : ℕ)
  deriving DecidableEq

/-- **The dictionary of a column**: its terms in their order, and the engine's lookup.  A term is found at its
ordinal; for any other string the terms below it are those with a smaller ordinal than the one found, which
depends on nothing but these terms. -/
structure Dictionary where
  terms : List String
  sorted : terms.Pairwise (· < ·)
  size : terms.length < 2 ^ 63
  termOrdOrNext : String → TermOrdHit
  exact_iff : ∀ s o, termOrdOrNext s = .exact o ↔ terms[o]? = some s
  next_iff : ∀ s o, termOrdOrNext s = .next o → ∀ i t, terms[i]? = some t → (t < s ↔ i < o)
  next_congr : ∀ s s' o, (∀ t ∈ terms, t < s ↔ t < s') → termOrdOrNext s = .next o → s' ∉ terms →
    termOrdOrNext s' = .next o

/-- The dictionary of some terms, with the number of terms below a string as the ordinal found. -/
def Dictionary.ofTerms (terms : List String) (sorted : terms.Pairwise (· < ·)) (size : terms.length < 2 ^ 63) :
    Dictionary where
  terms := terms
  sorted := sorted
  size := size
  termOrdOrNext s :=
    let below := terms.countP fun t => decide (t < s)
    if terms[below]? = some s then .exact below else .next below
  exact_iff s o := by
    constructor
    · intro h
      dsimp only at h
      split_ifs at h with hplace
      cases h
      exact hplace
    · intro h
      have hcount := countP_lt_getElem sorted (List.getElem?_eq_some_iff.mp h).1
      rw [(List.getElem?_eq_some_iff.mp h).2] at hcount
      simp only [hcount, h, if_true]
  next_iff s o h i t ht := by
    dsimp only at h
    split_ifs at h with hplace
    cases h
    obtain ⟨hi, rfl⟩ := List.getElem?_eq_some_iff.mp ht
    have hcount := countP_lt_getElem sorted hi
    constructor
    · intro hlt
      refine lt_of_le_of_ne (hcount ▸ countP_mono_left fun u _ hu => ?_) fun heq => ?_
      · exact decide_eq_true ((of_decide_eq_true hu).trans hlt)
      · have hle := countP_le_le_countP_lt terms hlt
        rw [countP_le_eq, count_eq_one_of_mem (sorted.imp fun h => h.ne) (getElem_mem hi)] at hle
        omega
    · intro hlt
      by_contra hge
      have hle : (terms.countP fun u => decide (u < s)) ≤ terms.countP fun u => decide (u < terms[i]) :=
        countP_mono_left fun u _ hu => decide_eq_true ((of_decide_eq_true hu).trans_le (not_lt.mp hge))
      omega
  next_congr s s' o hsame h hnot := by
    dsimp only at h
    split_ifs at h with hplace
    cases h
    have hcount : (terms.countP fun t => decide (t < s')) = terms.countP fun t => decide (t < s) :=
      countP_congr fun t ht => by simp [hsame t ht]
    simp only [hcount]
    rw [if_neg fun heq => hnot (mem_of_getElem? heq)]

def u64Max : ℕ := 2 ^ 64 - 1

inductive Accessor where
  /-- The field has no column here. -/
  | none
  | str (dict : Dictionary) (ords : ℕ → List (Fin dict.terms.length))
  | i64 (values : ℕ → List ℤ)
  | bool (values : ℕ → List Bool)
  /-- Nanoseconds. -/
  | date (values : ℕ → List ℤ)
  | ip (values : ℕ → List ℕ)

def pick {α : Type} [Max α] [Min α] (useMax : Bool) (values : List α) : Option α :=
  if useMax then values.max? else values.min?

namespace Accessor

def key (accessor : Accessor) (doc : ℕ) (useMax : Bool) : SegKey :=
  match accessor with
  | .none => .missing
  | .str _ ords => ((pick useMax (ords doc)).map fun o => SegKey.ord (o.val * 2 + 1)).getD .missing
  | .i64 values => ((pick useMax (values doc)).map SegKey.i64).getD .missing
  | .bool values => ((pick useMax (values doc)).map SegKey.bool).getD .missing
  | .date values =>
    ((pick useMax ((values doc).map fun nanos => nanos.tdiv 1000000)).map SegKey.i64).getD .missing
  | .ip values => ((pick useMax (values doc)).map SegKey.ip).getD .missing

def termKey (dict : Dictionary) (s : String) : ℕ :=
  match dict.termOrdOrNext s with
  | .exact o => o * 2 + 1
  | .next o => min (o * 2) u64Max

/-- `SegAccessor::key_for`: **the key of a value**, whether or not a document of the segment has it. -/
def keyFor (accessor : Accessor) : SortValue → SegKey
  | .missing => .missing
  | .str s =>
    match accessor with
    | .str dict _ => .ord (termKey dict s)
    | .none | .i64 _ | .bool _ | .date _ | .ip _ => .ord 0
  | .i64 n => .i64 n
  | .bool b => .bool b
  | .ip bits => .ip bits

/-- The value behind a key; the key of a term is twice its ordinal. -/
def materialize (accessor : Accessor) : SegKey → SortValue
  | .missing => .missing
  | .ord o =>
    match accessor with
    | .str dict _ => (dict.terms[o / 2]?.map SortValue.str).getD .missing
    | .none | .i64 _ | .bool _ | .date _ | .ip _ => .missing
  | .i64 n => .i64 n
  | .bool b => .bool b
  | .ip bits => .ip bits

/-- **The segment does not tell the values apart**: they are different strings, and no term of the
column is at or between them, or there is no such column. -/
def blurs (accessor : Accessor) : SortValue → SortValue → Bool
  | .str a, .str b =>
    decide (a ≠ b) &&
      match accessor with
      | .str dict _ => decide (Gaps.SameGap dict.terms a b)
      | .none | .i64 _ | .bool _ | .date _ | .ip _ => true
  | _, _ => false

end Accessor

/-! ### The key of a string -/

namespace Accessor

variable {dict : Dictionary} {a b s : String}

theorem termOrdOrNext_of_mem (h : s ∈ dict.terms) :
    dict.termOrdOrNext s = .exact (dict.terms.countP fun t => decide (t < s)) :=
  (dict.exact_iff s _).mpr (getElem?_countP_of_mem dict.sorted h)

theorem exists_next_of_notMem (h : s ∉ dict.terms) : ∃ o, dict.termOrdOrNext s = .next o := by
  cases hhit : dict.termOrdOrNext s with
  | exact o => exact absurd (mem_of_getElem? ((dict.exact_iff s o).mp hhit)) h
  | next o => exact ⟨o, rfl⟩

/-- The terms below a string come first in the dictionary, so that their number is the ordinal found. -/
theorem countP_eq_min_of_next {o : ℕ} (h : dict.termOrdOrNext s = .next o) :
    (dict.terms.countP fun t => decide (t < s)) = min o dict.terms.length := by
  have hbelow := dict.next_iff s o h
  clear h
  generalize dict.terms = terms at hbelow
  induction terms generalizing o with
  | nil => simp
  | cons t terms ih =>
    have hhead := hbelow 0 t rfl
    rw [countP_cons, ih (o := o - 1) fun i u hu => (hbelow (i + 1) u (by simpa using hu)).trans (by omega),
      length_cons]
    by_cases ht : t < s
    · have := hhead.mp ht
      simp only [ht, decide_true, if_true]
      omega
    · have hzero : o = 0 := by
        by_contra ho
        exact ht (hhead.mpr (by omega))
      simp [ht, hzero]

theorem termKey_of_lt (h : slot dict.terms s < 2 * dict.terms.length) :
    termKey dict s = slot dict.terms s := by
  have hsize := dict.size
  by_cases hmem : s ∈ dict.terms
  · rw [slot_of_mem dict.sorted hmem]
    simp only [termKey, termOrdOrNext_of_mem hmem]
    omega
  · obtain ⟨o, ho⟩ := exists_next_of_notMem hmem
    rw [slot_of_notMem hmem, countP_eq_min_of_next ho] at h ⊢
    simp only [termKey, ho, u64Max]
    omega

theorem le_termKey (h : 2 * dict.terms.length ≤ slot dict.terms s) :
    2 * dict.terms.length ≤ termKey dict s := by
  have hsize := dict.size
  by_cases hmem : s ∈ dict.terms
  · have hlt := (List.getElem?_eq_some_iff.mp (getElem?_countP_of_mem dict.sorted hmem)).1
    rw [slot_of_mem dict.sorted hmem] at h
    omega
  · obtain ⟨o, ho⟩ := exists_next_of_notMem hmem
    rw [slot_of_notMem hmem, countP_eq_min_of_next ho] at h
    simp only [termKey, ho, u64Max]
    omega

theorem past_of_le (h : 2 * dict.terms.length ≤ slot dict.terms s) :
    s ∉ dict.terms ∧ ∀ t ∈ dict.terms, t < s := by
  have hnot : s ∉ dict.terms := by
    intro hmem
    have hlt := (List.getElem?_eq_some_iff.mp (getElem?_countP_of_mem dict.sorted hmem)).1
    rw [slot_of_mem dict.sorted hmem] at h
    omega
  rw [slot_of_notMem hnot] at h
  have hcount : (dict.terms.countP fun t => decide (t < s)) = dict.terms.length :=
    le_antisymm countP_le_length (by omega)
  exact ⟨hnot, fun t ht => of_decide_eq_true (countP_eq_length.mp hcount t ht)⟩

theorem compare_termKey (dict : Dictionary) (a b : String) :
    compare (termKey dict a) (termKey dict b) = compare (slot dict.terms a) (slot dict.terms b) := by
  have hle := slot_le dict.terms
  rcases lt_or_ge (slot dict.terms a) (2 * dict.terms.length) with ha | ha <;>
    rcases lt_or_ge (slot dict.terms b) (2 * dict.terms.length) with hb | hb
  · rw [termKey_of_lt ha, termKey_of_lt hb]
  · rw [termKey_of_lt ha, compare_lt_iff_lt.mpr (ha.trans_le (le_termKey hb)),
      compare_lt_iff_lt.mpr (ha.trans_le hb)]
  · rw [termKey_of_lt hb, compare_gt_iff_gt.mpr (hb.trans_le (le_termKey ha)),
      compare_gt_iff_gt.mpr (hb.trans_le ha)]
  · -- two strings past the last term have one key
    obtain ⟨hnot, hbelow⟩ := past_of_le ha
    obtain ⟨hnot', hbelow'⟩ := past_of_le hb
    obtain ⟨o, ho⟩ := exists_next_of_notMem hnot
    have ho' := dict.next_congr a b o (fun t ht => iff_of_true (hbelow t ht) (hbelow' t ht)) ho hnot'
    rw [show slot dict.terms a = slot dict.terms b from
      ((hle a).antisymm ha).trans ((hle b).antisymm hb).symm]
    simp [termKey, ho, ho']

theorem termKey_getElem (dict : Dictionary) {o : ℕ} (ho : o < dict.terms.length) :
    termKey dict dict.terms[o] = o * 2 + 1 := by
  have hslot := slot_getElem dict.sorted ho
  rw [termKey_of_lt (by omega), hslot]
  omega

theorem cmpNatural_keyFor (accessor : Accessor) (nullIsMax : Bool) (v w : SortValue) :
    (accessor.keyFor v).cmpNatural nullIsMax (accessor.keyFor w) =
      if accessor.blurs v w then .eq else v.cmpNatural nullIsMax w := by
  rcases v with _ | a | a | a | a <;> rcases w with _ | b | b | b | b
  case str.str =>
    by_cases hab : a = b
    · subst hab
      simp [keyFor, blurs, SegKey.cmpNatural, SortValue.cmpNatural]
      cases accessor <;> simp
    · cases accessor with
      | str dict ords =>
        simp only [keyFor, blurs, SegKey.cmpNatural, SortValue.cmpNatural, compare_termKey]
        by_cases hgap : SameGap dict.terms a b
        · simp [hab, hgap, slot_eq_slot_of_sameGap hgap]
        · simp only [ne_eq, hab, not_false_eq_true, decide_true, hgap, decide_false, Bool.and_false,
            Bool.false_eq_true, if_false]
          exact compare_slot fun _ => hgap
      | none | i64 | bool | date | ip =>
        simp [keyFor, blurs, SegKey.cmpNatural, hab]
  all_goals cases accessor <;> rfl

end Accessor

/-! ### The keys and values of a document -/

namespace Accessor

def docKey (accessor : Accessor) (sort : ResolvedSort) (doc : ℕ) : SegKey :=
  match accessor.key doc sort.useMax, sort.substitute with
  | .missing, some v => accessor.keyFor v
  | key, _ => key

/-- The value a document is returned with (`harvest`): the substitute if its key is that of the
substitute. -/
def docValue (accessor : Accessor) (sort : ResolvedSort) (doc : ℕ) : SortValue :=
  if sort.substitute.map accessor.keyFor = some (accessor.docKey sort doc) then
    sort.substitute.getD .missing
  else accessor.materialize (accessor.docKey sort doc)

variable {accessor : Accessor} {sort : ResolvedSort} {doc : ℕ}

theorem keyFor_materialize_key (useMax : Bool) :
    accessor.keyFor (accessor.materialize (accessor.key doc useMax)) = accessor.key doc useMax := by
  cases accessor with
  | none => rfl
  | str dict ords =>
    rw [key]
    cases pick useMax (ords doc) with
    | none => rfl
    | some o =>
      grind [termKey_getElem, materialize, keyFor]
  | i64 values | bool values | ip values =>
    rw [key]
    cases pick useMax (values doc) <;> rfl
  | date values =>
    rw [key]
    cases pick useMax ((values doc).map fun nanos => nanos.tdiv 1000000) <;> rfl

theorem docKey_cases (accessor : Accessor) (sort : ResolvedSort) (doc : ℕ) :
    sort.substitute.map accessor.keyFor = some (accessor.docKey sort doc) ∨
      accessor.docKey sort doc = accessor.key doc sort.useMax := by
  grind [docKey]

theorem keyFor_docValue : accessor.keyFor (accessor.docValue sort doc) = accessor.docKey sort doc := by
  unfold docValue
  split_ifs with hsub
  · obtain ⟨v, hv, hkey⟩ := map_eq_some_iff.mp hsub
    rw [hv, getD_some, hkey]
  · grind [keyFor_materialize_key, docKey_cases]

variable {a : String}

theorem docValue_str (h : accessor.docValue sort doc = .str a) :
    sort.substitute = some (.str a) ∨ ∃ dict ords, accessor = .str dict ords ∧ a ∈ dict.terms := by
  unfold docValue at h
  split_ifs at h with hsub
  · obtain ⟨v, hv, _⟩ := map_eq_some_iff.mp hsub
    grind
  · cases hkey : accessor.docKey sort doc with
    | ord o =>
      rw [hkey] at h
      cases accessor with
      | str dict ords =>
        grind [materialize]
      | none | i64 | bool | date | ip => cases h
    | missing | i64 | bool | ip =>
      rw [hkey] at h
      cases h

theorem blurs_of_mem (dict : Dictionary) {ords : ℕ → List (Fin dict.terms.length)} (ha : a ∈ dict.terms)
    (v : SortValue) :
    (Accessor.str dict ords).blurs (.str a) v = false ∧ (Accessor.str dict ords).blurs v (.str a) = false := by
  cases v with
  | str b =>
    have hleft : ¬ SameGap dict.terms a b := fun h => by simpa using h a ha
    have hright : ¬ SameGap dict.terms b a := fun h => by simpa using h a ha
    simp [blurs, hleft, hright]
  | missing | i64 | bool | ip => exact ⟨rfl, rfl⟩

theorem blurs_docValue (accessor : Accessor) (sort : ResolvedSort) (doc doc' : ℕ) :
    accessor.blurs (accessor.docValue sort doc) (accessor.docValue sort doc') = false := by
  cases hv : accessor.docValue sort doc with
  | str a =>
    cases hw : accessor.docValue sort doc' with
    | str b =>
      rcases docValue_str hv with hsub | ⟨dict, ords, rfl, hmem⟩
      · rcases docValue_str hw with hsub' | ⟨dict, ords, rfl, hmem⟩
        · obtain rfl : a = b := by
            grind
          simp [blurs]
        · exact (blurs_of_mem dict hmem _).2
      · exact (blurs_of_mem dict hmem _).1
    | missing | i64 | bool | ip => rfl
  | missing | i64 | bool | ip => rfl

theorem blurs_docValue_left (hsub : sort.substitute = .none) (w : SortValue) :
    accessor.blurs (accessor.docValue sort doc) w = false := by
  cases hv : accessor.docValue sort doc with
  | str a =>
    rcases docValue_str hv with h | ⟨dict, ords, rfl, hmem⟩
    · cases hsub.symm.trans h
    · exact (blurs_of_mem dict hmem w).1
  | missing | i64 | bool | ip => rfl

end Accessor

/-! ### Clause by clause -/

def toldOrder (column : ResolvedSort → Accessor) :
    List ResolvedSort → List SortValue → List SortValue → Ordering
  | [], _, _ => .eq
  | sort :: fields, vs, ws =>
    (if (column sort).blurs (vs.headD .missing) (ws.headD .missing) then .eq
      else sort.order.cmpValue (vs.headD .missing) (ws.headD .missing)).then
    (toldOrder column fields vs.tail ws.tail)

def keysFor (column : ResolvedSort → Accessor) (fields : List ResolvedSort) (vs : List SortValue) :
    List SegKey :=
  List.zipWith (fun sort v => (column sort).keyFor v) fields vs

theorem FieldOrder.cmpKey_keyFor (o : FieldOrder) (accessor : Accessor) (v w : SortValue) :
    o.cmpKey (accessor.keyFor v) (accessor.keyFor w) =
      if accessor.blurs v w then .eq else o.cmpValue v w := by
  rw [cmpKey, Accessor.cmpNatural_keyFor]
  unfold cmpValue directed
  split_ifs <;> rfl

theorem clauses_keysFor (column : ResolvedSort → Accessor) (fields : List ResolvedSort)
    (vs ws : List SortValue) :
    clauses .missing (fields.map fun sort => sort.order.cmpKey)
      (keysFor column fields vs) (keysFor column fields ws) = toldOrder column fields vs ws := by
  have hhead : ∀ (sort : ResolvedSort) fields vs,
      (keysFor column (sort :: fields) vs).headD .missing = (column sort).keyFor (vs.headD .missing) := by
    intro sort fields vs
    cases vs <;> rfl
  have htail : ∀ (sort : ResolvedSort) fields vs,
      (keysFor column (sort :: fields) vs).tail = keysFor column fields vs.tail := by
    intro sort fields vs
    cases vs with
    | nil => cases fields <;> rfl
    | cons v vs => rfl
  induction fields generalizing vs ws with
  | nil => rfl
  | cons sort fields ih =>
    rw [map_cons, clauses, hhead, hhead, htail, htail, ih, cmpKey_keyFor, toldOrder]

/-! ### A segment -/

def Accessor.Fits (ty : SortType) : Accessor → Prop
  | .none => True
  | .str _ _ => ty = .keyword
  | .i64 values => (ty = .long ∨ ty = .date) ∧ ∀ doc, ∀ n ∈ values doc, i64Min ≤ n ∧ n ≤ i64Max
  | .bool _ => ty = .boolean
  | .date values => ty = .date ∧ ∀ doc, ∀ n ∈ values doc, i64Min ≤ n ∧ n ≤ i64Max
  | .ip values => ty = .ip ∧ ∀ doc, ∀ bits ∈ values doc, bits < 2 ^ 128

/-- The documents of a segment, and the column that `open_accessor` finds for a clause. -/
structure Segment where
  docs : List Doc
  column : ResolvedSort → Accessor
  fits : ∀ sort, (column sort).Fits sort.ty

structure Row where
  doc : Doc
  id : ℕ

structure Ranked where
  keys : List SegKey
  millis : ℤ
  seq : ℤ
  id : ℕ
  deriving DecidableEq

namespace Segment

def rows (seg : Segment) : List Row := seg.docs.zipIdx.map fun p => ⟨p.1, p.2⟩

def position (seg : Segment) (fields : List ResolvedSort) (row : Row) : Position :=
  ⟨fields.map fun sort => (seg.column sort).docValue sort row.id, row.doc.millis, row.doc.seqKey⟩

def ranked (seg : Segment) (fields : List ResolvedSort) (row : Row) : Ranked :=
  ⟨fields.map fun sort => (seg.column sort).docKey sort row.id, row.doc.millis, row.doc.seqKey, row.id⟩

end Segment

def cmpKeys (fields : List ResolvedSort) (a b : Ranked) : Ordering :=
  (Compare.clauses .missing (fields.map fun sort => sort.order.cmpKey) a.keys b.keys).then
    (cmpTiebreak (a.millis, a.seq) (b.millis, b.seq))

def cmpRanked (fields : List ResolvedSort) (a b : Ranked) : Ordering :=
  (cmpKeys fields a b).then (compare a.id b.id)

def FieldCursor.cmpTie (c : FieldCursor) (millis seq : ℤ) : Ordering :=
  match c.millis with
  | none => .eq
  | some t => (compare t millis).then (c.seq.elim .eq fun q => compare q seq)

def Segment.cmpCursor (seg : Segment) (fields : List ResolvedSort) (c : FieldCursor) (a : Ranked) :
    Ordering :=
  (Compare.clauses .missing (fields.map fun sort => sort.order.cmpKey) a.keys
    (keysFor seg.column fields c.values)).then (c.cmpTie a.millis a.seq)

def Segment.afterCursor (seg : Segment) (fields : List ResolvedSort) (cursor : Option FieldCursor)
    (a : Ranked) : Bool :=
  cursor.all fun c => seg.cmpCursor fields c a == .gt

def ordersOf (fields : List ResolvedSort) : List FieldOrder := fields.map ResolvedSort.order

/-- The position of a cursor.  What it leaves open of the tiebreak it has in common with the document it
is compared with. -/
def FieldCursor.against (c : FieldCursor) (p : Position) : Position :=
  match c.millis with
  | none => ⟨c.values, p.millis, p.seq⟩
  | some t => ⟨c.values, t, c.seq.getD p.seq⟩

theorem mem_of_pick {α : Type} [LinearOrder α] {useMax : Bool} {values : List α} {a : α}
    (h : pick useMax values = some a) : a ∈ values := by
  unfold pick at h
  split_ifs at h
  · exact max?_mem h
  · exact min?_mem h

theorem Accessor.ofType_materialize_key {accessor : Accessor} {ty : SortType} (hfits : accessor.Fits ty)
    (doc : ℕ) (useMax : Bool) : (accessor.materialize (accessor.key doc useMax)).OfType ty := by
  cases accessor with
  | none => cases ty <;> trivial
  | str dict ords =>
    obtain rfl : ty = .keyword := hfits
    rw [key]
    cases pick useMax (ords doc) with
    | none => trivial
    | some o =>
      have hhalf : (o.val * 2 + 1) / 2 = o.val := by omega
      simp only [map_some, getD_some, materialize, hhalf, getElem?_eq_getElem o.isLt]
      trivial
  | i64 values =>
    obtain ⟨hty, hrange⟩ := hfits
    rw [key]
    cases hpick : pick useMax (values doc) with
    | none => cases ty <;> trivial
    | some n => rcases hty with rfl | rfl <;> exact hrange doc n (mem_of_pick hpick)
  | bool values =>
    obtain rfl : ty = .boolean := hfits
    rw [key]
    cases pick useMax (values doc) <;> trivial
  | date values =>
    obtain ⟨rfl, hrange⟩ := hfits
    rw [key]
    cases hpick : pick useMax ((values doc).map fun nanos => nanos.tdiv 1000000) with
    | none => trivial
    | some n =>
      obtain ⟨nanos, hnanos, rfl⟩ := List.mem_map.mp (mem_of_pick hpick)
      obtain ⟨hlo, hhi⟩ := hrange doc nanos hnanos
      have habs : (nanos.tdiv 1000000).natAbs = nanos.natAbs / 1000000 := Int.natAbs_tdiv nanos 1000000
      show i64Min ≤ nanos.tdiv 1000000 ∧ nanos.tdiv 1000000 ≤ i64Max
      unfold i64Min i64Max at *
      omega
  | ip values =>
    obtain ⟨rfl, hrange⟩ := hfits
    rw [key]
    cases hpick : pick useMax (values doc) with
    | none => trivial
    | some bits => exact hrange doc bits (mem_of_pick hpick)

theorem Segment.position_ofTypes (seg : Segment) (fields : List ResolvedSort) (row : Row) :
    (seg.position fields row).OfTypes fields := by
  refine forall₂_map_left_iff.mpr (forall₂_same.mpr fun sort _ => ?_)
  unfold Accessor.docValue
  split_ifs with hsub
  · obtain ⟨v, hv, _⟩ := map_eq_some_iff.mp hsub
    rw [hv, getD_some]
    exact sort.substitute_ofType v hv
  · rw [(Accessor.docKey_cases _ sort row.id).resolve_left hsub]
    exact Accessor.ofType_materialize_key (seg.fits sort) row.id sort.useMax

/-! ### Two documents -/

theorem Segment.keys_ranked (seg : Segment) (fields : List ResolvedSort) (row : Row) :
    (seg.ranked fields row).keys = keysFor seg.column fields (seg.position fields row).values := by
  simp [ranked, position, keysFor, zipWith_map_right, Accessor.keyFor_docValue]

theorem toldOrder_docValues (column : ResolvedSort → Accessor) (fields : List ResolvedSort) (i j : ℕ) :
    toldOrder column fields (fields.map fun sort => (column sort).docValue sort i)
      (fields.map fun sort => (column sort).docValue sort j) =
    clauses .missing ((ordersOf fields).map cmpValue) (fields.map fun sort => (column sort).docValue sort i)
      (fields.map fun sort => (column sort).docValue sort j) := by
  induction fields with
  | nil => rfl
  | cons sort fields ih =>
    rw [toldOrder, map_cons, map_cons, headD_cons, headD_cons,
      Accessor.blurs_docValue, if_neg Bool.false_ne_true, tail_cons, tail_cons, ih]
    rfl

theorem cmpKeys_eq_cmpHits (seg : Segment) (fields : List ResolvedSort) (row row' : Row) :
    cmpKeys fields (seg.ranked fields row) (seg.ranked fields row') =
      cmpHits (ordersOf fields) (seg.position fields row) (seg.position fields row') := by
  rw [cmpKeys, seg.keys_ranked, seg.keys_ranked, clauses_keysFor]
  exact congrArg (Ordering.then · _) (toldOrder_docValues seg.column fields row.id row'.id)

/-! ### A document and a cursor -/

section Settled

variable (same : Ordering → Ordering → Prop) (column : ResolvedSort → Accessor) (tie : Ordering)

/-- **The condition.**  Either the first clause in which the values differ is one the segment tells apart,
or what decides in its place, the further clauses that it tells apart and the tiebreak, comes to the
same. -/
def Settled : List ResolvedSort → List SortValue → List SortValue → Prop
  | [], _, _ => True
  | sort :: fields, vs, ws =>
    if vs.headD .missing = ws.headD .missing then Settled fields vs.tail ws.tail
    else (column sort).blurs (vs.headD .missing) (ws.headD .missing) = true →
      same ((toldOrder column fields vs.tail ws.tail).then tie)
        (sort.order.cmpValue (vs.headD .missing) (ws.headD .missing))

instance decidableSettled [DecidableRel same] : (fields : List ResolvedSort) → (vs ws : List SortValue) →
    Decidable (Settled same column tie fields vs ws)
  | [], _, _ => instDecidableTrue
  | sort :: fields, vs, ws =>
    haveI := decidableSettled fields vs.tail ws.tail
    inferInstanceAs (Decidable (if vs.headD .missing = ws.headD .missing
      then Settled same column tie fields vs.tail ws.tail
      else (column sort).blurs (vs.headD .missing) (ws.headD .missing) = true →
        same ((toldOrder column fields vs.tail ws.tail).then tie)
          (sort.order.cmpValue (vs.headD .missing) (ws.headD .missing))))

end Settled

theorem Accessor.blurs_self (accessor : Accessor) (v : SortValue) : accessor.blurs v v = false := by
  cases v <;> simp [blurs]

theorem cmpTiebreak_against (c : FieldCursor) (p : Position) :
    cmpTiebreak (p.millis, p.seq) ((c.against p).millis, (c.against p).seq) =
      c.cmpTie p.millis p.seq := by
  unfold cmpTiebreak against cmpTie
  cases c.millis with
  | none => simp
  | some t => cases c.seq <;> simp

theorem settled_iff {same : Ordering → Ordering → Prop} (hrefl : ∀ o, same o o)
    (column : ResolvedSort → Accessor) (tie : Ordering) (fields : List ResolvedSort)
    (vs ws : List SortValue) :
    same ((toldOrder column fields vs ws).then tie)
        ((clauses .missing ((ordersOf fields).map cmpValue) vs ws).then tie) ↔
      Settled same column tie fields vs ws := by
  induction fields generalizing vs ws with
  | nil => exact iff_of_true (hrefl _) trivial
  | cons sort fields ih =>
    rw [toldOrder, Settled, ordersOf, map_cons, map_cons, clauses]
    generalize vs.headD .missing = v
    generalize ws.headD .missing = w
    by_cases hvw : v = w
    · subst hvw
      rw [if_pos rfl, Accessor.blurs_self, if_neg Bool.false_ne_true, cmpValue_eq_eq_iff.mpr rfl]
      exact ih vs.tail ws.tail
    · have hne : sort.order.cmpValue v w ≠ .eq := fun h => hvw (cmpValue_eq_eq_iff.mp h)
      rw [if_neg hvw, then_of_ne_eq hne, then_of_ne_eq hne]
      split_ifs with hblurs
      · simp only [hblurs, true_implies]
        exact Iff.rfl
      · refine iff_of_true ?_ fun h => absurd h hblurs
        rw [then_of_ne_eq hne, then_of_ne_eq hne]
        exact hrefl _

/-- The keys put a document to the cursor as its values do. -/
def Segment.Settles (seg : Segment) (fields : List ResolvedSort) (c : FieldCursor) (row : Row) : Prop :=
  Settled Eq seg.column (c.cmpTie row.doc.millis row.doc.seqKey) fields (seg.position fields row).values
    c.values

def SamePast (o o' : Ordering) : Prop := o = .gt ↔ o' = .gt

instance : DecidableRel SamePast := fun o o' => inferInstanceAs (Decidable (o = .gt ↔ o' = .gt))

/-- The keys put a document past the cursor exactly if its values do. -/
def Segment.SettlesPast (seg : Segment) (fields : List ResolvedSort) (c : FieldCursor) (row : Row) : Prop :=
  Settled SamePast seg.column (c.cmpTie row.doc.millis row.doc.seqKey) fields
    (seg.position fields row).values c.values

instance (seg : Segment) (fields : List ResolvedSort) (c : FieldCursor) (row : Row) :
    Decidable (seg.SettlesPast fields c row) :=
  decidableSettled _ _ _ _ _ _

theorem same_cmpCursor_iff {same : Ordering → Ordering → Prop} (hrefl : ∀ o, same o o) (seg : Segment)
    (fields : List ResolvedSort) (c : FieldCursor) (row : Row) :
    same (seg.cmpCursor fields c (seg.ranked fields row))
        (cmpHits (ordersOf fields) (seg.position fields row) (c.against (seg.position fields row))) ↔
      Settled same seg.column (c.cmpTie row.doc.millis row.doc.seqKey) fields
        (seg.position fields row).values c.values := by
  rw [Segment.cmpCursor, seg.keys_ranked, clauses_keysFor, cmpHits, cmpTiebreak_against]
  have hvalues : (c.against (seg.position fields row)).values = c.values := by
    grind [against]
  rw [hvalues]
  exact settled_iff hrefl seg.column _ fields _ _

theorem cmpCursor_eq_iff (seg : Segment) (fields : List ResolvedSort) (c : FieldCursor) (row : Row) :
    seg.cmpCursor fields c (seg.ranked fields row) =
        cmpHits (ordersOf fields) (seg.position fields row) (c.against (seg.position fields row)) ↔
      seg.Settles fields c row :=
  same_cmpCursor_iff (fun _ => rfl) seg fields c row

theorem cmpCursor_gt_iff {seg : Segment} {fields : List ResolvedSort} {c : FieldCursor} {row : Row}
    (h : seg.SettlesPast fields c row) :
    seg.cmpCursor fields c (seg.ranked fields row) = .gt ↔
      cmpHits (ordersOf fields) (seg.position fields row) (c.against (seg.position fields row)) = .gt :=
  (@same_cmpCursor_iff SamePast (fun _ => Iff.rfl) seg fields c row).mpr h

/-- A document without substitutes has terms of the columns only, so no cursor is blurred with it. -/
theorem Segment.settlesPast_of_plain (seg : Segment) {fields : List ResolvedSort}
    (hsub : ∀ sort ∈ fields, sort.substitute = none) (c : FieldCursor) (row : Row) :
    seg.SettlesPast fields c row := by
  unfold SettlesPast position
  generalize c.values = ws
  induction fields generalizing ws with
  | nil => trivial
  | cons sort fields ih =>
    obtain ⟨hsort, hfields⟩ := forall_mem_cons.mp hsub
    rw [Settled, map_cons, headD_cons, tail_cons, Accessor.blurs_docValue_left hsort]
    split_ifs
    · exact ih hfields ws.tail
    · exact False.elim

end RSearch.Search
