import RSearch.Search.Splits

/-!
# What the scan finds and the translator does not ask for

A split is not searched when its timestamps are outside the interval of the scan.  That hides no match
as long as every bound that narrowed the interval is one the translated query asks for.  The scan takes
more than that: a bound is **stray** when it is

* anywhere in the body of another query than `bool`, or inside the body of a `range`,
* on a field of a `range` other than the one that comes first,
* on a side of that field where a later operator takes its place, as `gte` does with `gt`,
* written `now`, which the translator reads from the clock again, or too far out for nanoseconds.

Every other bound is enforced: a document that the translated query matches meets it.

## Main results

* `scanTimeBounds_narrows` — the scan narrows its interval by the bounds of `harvest`.
* `translateQuery_keeps` — on a document that matches, the bounds of `harvest` come down to the stray
  ones.
* `match_inside_interval_iff` — a match is inside the interval, and in a split that is searched, exactly
  when it meets the stray bounds.
-/

namespace RSearch.Search

open List Option Json Index Except Search.Interval

/-! ### Bounds -/

structure TimeBound where
  side : Side
  millis : ℤ
  deriving DecidableEq

def TimeBound.Holds (b : TimeBound) (t : ℤ) : Prop :=
  match b.side with
  | .lower => b.millis ≤ t
  | .upper => t ≤ b.millis

instance : (b : TimeBound) → (t : ℤ) → Decidable (b.Holds t)
  | ⟨.lower, ms⟩, t => inferInstanceAs (Decidable (ms ≤ t))
  | ⟨.upper, ms⟩, t => inferInstanceAs (Decidable (t ≤ ms))

def Meets (bounds : List TimeBound) (t : ℤ) : Prop := ∀ b ∈ bounds, b.Holds t

instance (bounds : List TimeBound) (t : ℤ) : Decidable (Meets bounds t) :=
  inferInstanceAs (Decidable (∀ b ∈ bounds, _))

@[simp] theorem meets_nil (t : ℤ) : Meets [] t := by simp [Meets]

variable {l l' : List TimeBound} {t ms : ℤ} {i j : Interval} {now now' : Option ℤ}
  {ops fields : Members} {value body : Value} {op kind : String} {lower upper bound : Bound}
  {b : Bound × Bound} {schema : Schema} {d : Doc}

@[simp] theorem meets_append :
    Meets (l ++ l') t ↔ Meets l t ∧ Meets l' t := forall_mem_append

def Narrows (bounds : List TimeBound) (i j : Interval) : Prop :=
  ∀ t, j.Contains t ↔ i.Contains t ∧ Meets bounds t

theorem Narrows.refl (i : Interval) : Narrows [] i i := by simp [Narrows]

theorem Narrows.trans {k : Interval} (h : Narrows l i j) (h' : Narrows l' j k) :
    Narrows (l ++ l') i k := by
  intro t
  rw [h' t, h t, meets_append, and_assoc]

/-! ### What the scan finds -/

def timeBound : Option Side → Option ℤ → List TimeBound
  | some side, some ms => [⟨side, ms⟩]
  | _, _ => []

def harvestOp (now : Option ℤ) (op : String) (value : Value) : List TimeBound :=
  timeBound (opSide op) ((parseTimeMillis now value).toOption.join)

def harvestOps (now : Option ℤ) : Members → List TimeBound
  | [] => []
  | (op, value) :: ops => harvestOp now op value ++ harvestOps now ops

def harvestRange (now : Option ℤ) : Members → List TimeBound
  | [] => []
  | (field, .object ops) :: fields =>
    (if field ∈ timestampAliases then harvestOps now ops else []) ++ harvestRange now fields
  | _ :: fields => harvestRange now fields

mutual

/-- **The bounds the scan finds in a value.** -/
def harvest (now : Option ℤ) : Value → List TimeBound
  | .object ms => harvestRange now (rangeFields ms) ++
      (harvestBool now ms).getD (harvestMembers now ms)
  | .array items => harvestItems now items
  | _ => []

def harvestBool (now : Option ℤ) : Members → Option (List TimeBound)
  | [] => none
  | (key, value) :: ms =>
    if key = "bool" then
      match value with
      | .object sections =>
        some (harvestSection now "must" sections ++ harvestSection now "filter" sections)
      | _ => none
    else harvestBool now ms

def harvestSection (now : Option ℤ) (name : String) : Members → List TimeBound
  | [] => []
  | (key, value) :: ms => if key = name then harvest now value else harvestSection now name ms

def harvestMembers (now : Option ℤ) : Members → List TimeBound
  | [] => []
  | (_, value) :: ms => harvest now value ++ harvestMembers now ms

def harvestItems (now : Option ℤ) : List Value → List TimeBound
  | [] => []
  | value :: items => harvest now value ++ harvestItems now items

end

theorem narrow_narrows (i : Interval) (side : Option Side) (ms : Option ℤ) :
    Narrows (timeBound side ms) i (i.narrow side ms) := by
  intro t
  rcases side with _ | side
  · simp [timeBound, narrow]
  · rcases ms with _ | ms
    · simp [timeBound, narrow]
    · cases side with
      | lower =>
        cases hstart : i.start with
        | none => simp [timeBound, narrow, Contains, Meets, TimeBound.Holds, hstart,
            and_comm]
        | some s =>
          simp only [timeBound, narrow, Contains, Meets, TimeBound.Holds, hstart,
            elim_some, mem_some_iff, forall_eq', mem_singleton, forall_eq,
            max_le_iff]
          tauto
      | upper =>
        cases hfinish : i.finish with
        | none => simp [timeBound, narrow, Contains, Meets, TimeBound.Holds, hfinish]
        | some e =>
          simp only [timeBound, narrow, Contains, Meets, TimeBound.Holds, hfinish,
            elim_some, mem_some_iff, forall_eq', mem_singleton, forall_eq,
            le_min_iff]
          tauto

theorem scanOps_narrows (h : scanOps now ops i = .ok j) : Narrows (harvestOps now ops) i j := by
  induction ops generalizing i with
  | nil =>
    cases h
    exact .refl _
  | cons member ops ih =>
    obtain ⟨op, value⟩ := member
    rw [scanOps, bind_eq_ok_iff] at h
    obtain ⟨ms, hms, h⟩ := h
    have hop : harvestOp now op value = timeBound (opSide op) ms := by
      rw [harvestOp, hms]
      rfl
    rw [harvestOps, hop]
    exact (narrow_narrows i _ ms).trans (ih h)

theorem scanRange_narrows (h : scanRange now fields i = .ok j) :
    Narrows (harvestRange now fields) i j := by
  fun_induction harvestRange now fields generalizing i with
  | case1 =>
    cases h
    exact .refl _
  | case2 field ops fields ih =>
    rw [scanRange] at h
    split_ifs at h ⊢ with halias
    · rw [bind_eq_ok_iff] at h
      obtain ⟨k, hk, h⟩ := h
      exact (scanOps_narrows hk).trans (ih h)
    · exact (Narrows.refl i).trans (ih h)
  | case3 member fields hne ih =>
    grind [scanRange]

mutual

theorem scanTimeBounds_narrows {now : Option ℤ} : ∀ {v : Value} {i j : Interval},
    scanTimeBounds now v i = .ok j → Narrows (harvest now v) i j
  | .object ms, i, j, h => by
    rw [scanTimeBounds, bind_eq_ok_iff] at h
    obtain ⟨k, hk, h⟩ := h
    rw [harvest]
    refine (scanRange_narrows hk).trans ?_
    cases hbool : scanBool now ms k with
    | none =>
      rw [hbool] at h
      rw [harvestBool_eq_none hbool]
      exact scanMembers_narrows h
    | some scanned =>
      rw [hbool] at h
      obtain ⟨l, hl, hnarrows⟩ := scanBool_narrows (hbool.trans (congrArg some h))
      rw [hl]
      exact hnarrows
  | .array items, i, j, h => by
    rw [harvest]
    exact scanItems_narrows h
  | .null, i, j, h | .bool _, i, j, h | .number _, i, j, h | .string _, i, j, h => by
    cases h
    exact .refl i

theorem harvestBool_eq_none {now : Option ℤ} : ∀ {ms : Members} {i : Interval},
    scanBool now ms i = none → harvestBool now ms = none
  | [], i, h => rfl
  | (key, value) :: ms, i, h => by
    unfold scanBool at h
    unfold harvestBool
    split_ifs at h ⊢ with hkey
    · grind
    · exact harvestBool_eq_none h

theorem scanBool_narrows {now : Option ℤ} : ∀ {ms : Members} {i j : Interval},
    scanBool now ms i = some (.ok j) → ∃ l, harvestBool now ms = some l ∧ Narrows l i j
  | [], i, j, h => by cases h
  | (key, value) :: ms, i, j, h => by
    unfold scanBool at h
    unfold harvestBool
    split_ifs at h ⊢ with hkey
    · cases value with
      | object sections =>
        obtain ⟨k, hk, hj⟩ := of_bind (Option.some.inj h)
        exact ⟨_, rfl, (scanSection_narrows hk).trans (scanSection_narrows hj)⟩
      | _ => cases h
    · exact scanBool_narrows h

theorem scanSection_narrows {now : Option ℤ} {name : String} : ∀ {ms : Members} {i j : Interval},
    scanSection now name ms i = .ok j → Narrows (harvestSection now name ms) i j
  | [], i, j, h => by
    cases h
    exact .refl i
  | (key, value) :: ms, i, j, h => by
    rw [scanSection] at h
    rw [harvestSection]
    split_ifs at h ⊢ with hkey
    · exact scanTimeBounds_narrows h
    · exact scanSection_narrows h

theorem scanMembers_narrows {now : Option ℤ} : ∀ {ms : Members} {i j : Interval},
    scanMembers now ms i = .ok j → Narrows (harvestMembers now ms) i j
  | [], i, j, h => by
    cases h
    exact .refl i
  | (key, value) :: ms, i, j, h => by
    rw [scanMembers, bind_eq_ok_iff] at h
    obtain ⟨k, hk, h⟩ := h
    exact (scanTimeBounds_narrows hk).trans (scanMembers_narrows h)

theorem scanItems_narrows {now : Option ℤ} : ∀ {items : List Value} {i j : Interval},
    scanItems now items i = .ok j → Narrows (harvestItems now items) i j
  | [], i, j, h => by
    cases h
    exact .refl i
  | value :: items, i, j, h => by
    rw [scanItems, bind_eq_ok_iff] at h
    obtain ⟨k, hk, h⟩ := h
    exact (scanTimeBounds_narrows hk).trans (scanItems_narrows h)

end

theorem extractTimeBounds_contains {query : Value} (h : extractTimeBounds now query = .ok i) (t : ℤ) :
    i.Contains t ↔ Meets (harvest now query) t := by
  rw [scanTimeBounds_narrows h t]
  simp [Contains]

/-! ### The stray bounds -/

/-- The translator's reading of the value is the scan's: it is not the clock's, and it is in the range
that nanoseconds have. -/
def steady (now : Option ℤ) (value : Value) : Bool :=
  value.asStr != some "now" && ((parseTimeMillis now value).toOption.join).any fun ms =>
    decide (-maxSafeMillis ≤ ms) && decide (ms ≤ maxSafeMillis)

/-- The operators of the field that a `range` is about: a bound stays if no later operator is on its
side. -/
def strayOps (now : Option ℤ) : Members → List TimeBound
  | [] => []
  | (op, value) :: ops =>
    (if (ops.all fun later => opSide later.1 != opSide op) && steady now value then []
      else harvestOp now op value) ++ strayOps now ops

def strayFields (now : Option ℤ) : Members → List TimeBound
  | (field, .object ops) :: fields =>
    (if field ∈ timestampAliases then strayOps now ops else []) ++ harvestRange now fields
  | fields => harvestRange now fields

mutual

/-- **The bounds of the scan that the translator does not ask for.** -/
def stray (now : Option ℤ) : Value → List TimeBound
  | .object [(kind, body)] =>
    if kind = "bool" then
      match body with
      | .object sections => straySection now "must" sections ++ straySection now "filter" sections
      | _ => []
    else (if kind = "range" then strayFields now (body.asObject.getD []) else []) ++ harvest now body
  | _ => []

def straySection (now : Option ℤ) (name : String) : Members → List TimeBound
  | [] => []
  | (key, .array items) :: ms =>
    if key = name then strayItems now items else straySection now name ms
  | (key, query) :: ms => if key = name then stray now query else straySection now name ms

def strayItems (now : Option ℤ) : List Value → List TimeBound
  | [] => []
  | item :: items => stray now item ++ strayItems now items

end

/-! ### What the translator asks for -/

theorem fromTimestampMillis_of_safe (hlo : -maxSafeMillis ≤ ms) (hhi : ms ≤ maxSafeMillis) :
    fromTimestampMillis ms = ms * 1000000 := by
  have hmax : maxSafeMillis = 9223372036854 := by decide
  grind [fromTimestampMillis]

theorem parseTimeMillis_of_not_now (h : value.asStr ≠ some "now") (now now' : Option ℤ) :
    parseTimeMillis now value = parseTimeMillis now' value := by
  cases value with
  | string s =>
    have hs : s ≠ "now" := fun hs => h (congrArg some hs)
    grind [parseTimeMillis]
  | _ => rfl

theorem timestampTerm_of_steady {side : Side} {term : ℤ} (hsteady : steady now value = true)
    (hside : opSide op = some side) (hterm : timestampTerm now' value = .ok term) :
    ∃ ms, harvestOp now op value = [⟨side, ms⟩] ∧ term = ms * 1000000 := by
  obtain ⟨hnow, hms⟩ := Bool.and_eq_true_iff.mp hsteady
  obtain ⟨ms, hparse, hsafe⟩ := (any_eq_true _ _).mp hms
  refine ⟨ms, by rw [harvestOp, hside, hparse]; rfl, ?_⟩
  rw [parseTimeMillis_of_not_now (by simpa using hnow) now now'] at hparse
  rw [timestampTerm, bind_eq_ok_iff] at hterm
  obtain ⟨parsed, hparsed, hterm⟩ := hterm
  cases hok : parseTimeMillis now' value with
  | error p =>
    rw [hok] at hparsed
    cases hparsed
  | ok found =>
    rw [hok] at hparse hparsed
    have hfound : found = some ms := hparse
    rw [hfound] at hparsed
    cases hparsed
    cases hterm
    grind [fromTimestampMillis_of_safe]

theorem rangeBounds_cons (h : rangeBounds now ((op, value) :: ops) lower upper = .ok b) :
    (∃ term bound, timestampTerm now value = .ok term ∧ (bound = .included term ∨ bound = .excluded term) ∧
      (opSide op = some .lower ∧ rangeBounds now ops bound upper = .ok b ∨
        opSide op = some .upper ∧ rangeBounds now ops lower bound = .ok b)) ∨
    opSide op = none ∧ rangeBounds now ops lower upper = .ok b := by
  rw [rangeBounds] at h
  split_ifs at h with hgte hgt hlte hlt hother
  · obtain ⟨term, hterm, h⟩ := of_bind h
    grind [opSide]
  · obtain ⟨term, hterm, h⟩ := of_bind h
    grind [opSide]
  · obtain ⟨term, hterm, h⟩ := of_bind h
    exact .inl ⟨term, _, hterm, .inl rfl, .inr ⟨by simp [opSide, hlte], h⟩⟩
  · obtain ⟨term, hterm, h⟩ := of_bind h
    exact .inl ⟨term, _, hterm, .inr rfl, .inr ⟨by simp [opSide, hlt], h⟩⟩
  · grind [opSide]

theorem rangeBounds_other (h : rangeBounds now ops lower upper = .ok b) :
    ((∀ o ∈ ops, opSide o.1 ≠ some .lower) → b.1 = lower) ∧
      ((∀ o ∈ ops, opSide o.1 ≠ some .upper) → b.2 = upper) := by
  induction ops generalizing lower upper with
  | nil =>
    cases h
    exact ⟨fun _ => rfl, fun _ => rfl⟩
  | cons member ops ih =>
    simp only [forall_mem_cons]
    rcases rangeBounds_cons h with ⟨term, bound, -, -, ⟨hside, h⟩ | ⟨hside, h⟩⟩ | ⟨-, h⟩
    · grind
    · grind
    · grind

theorem holds_of_below (hbound : bound = .included (ms * 1000000) ∨ bound = .excluded (ms * 1000000))
    (h : bound.below (t * 1000000) = true) : ms ≤ t := by
  rcases hbound with rfl | rfl
  all_goals
    have := of_decide_eq_true h
    omega

theorem holds_of_above (hbound : bound = .included (ms * 1000000) ∨ bound = .excluded (ms * 1000000))
    (h : bound.above (t * 1000000) = true) : t ≤ ms := by
  rcases hbound with rfl | rfl
  all_goals
    have := of_decide_eq_true h
    omega

theorem rangeBounds_keeps (h : rangeBounds now' ops lower upper = .ok b)
    (hlower : b.1.below (t * 1000000) = true) (hupper : b.2.above (t * 1000000) = true) :
    Meets (harvestOps now ops) t ↔ Meets (strayOps now ops) t := by
  induction ops generalizing lower upper with
  | nil => exact Iff.rfl
  | cons member ops ih =>
    rw [harvestOps, strayOps, meets_append, meets_append]
    have hrest : Meets (harvestOps now ops) t ↔ Meets (strayOps now ops) t := by
      rcases rangeBounds_cons h with ⟨term, bound, -, -, ⟨-, h⟩ | ⟨-, h⟩⟩ | ⟨-, h⟩
      all_goals exact ih h
    refine and_congr ?_ hrest
    split_ifs with hkept
    · -- the bound is the last one on its side, so it is the one of the translated range
      obtain ⟨hlast, hsteady⟩ := Bool.and_eq_true_iff.mp hkept
      simp only [List.all_eq_true, bne_iff_ne] at hlast
      rcases rangeBounds_cons h with ⟨term, bound, hterm, hbound, ⟨hside, h⟩ | ⟨hside, h⟩⟩ | ⟨hside, h⟩
      · obtain ⟨ms, hms, rfl⟩ := timestampTerm_of_steady hsteady hside hterm
        rw [(rangeBounds_other h).1 fun o ho => hside ▸ hlast o ho] at hlower
        simpa [hms, Meets, TimeBound.Holds] using holds_of_below hbound hlower
      · obtain ⟨ms, hms, rfl⟩ := timestampTerm_of_steady hsteady hside hterm
        rw [(rangeBounds_other h).2 fun o ho => hside ▸ hlast o ho] at hupper
        simpa [hms, Meets, TimeBound.Holds] using holds_of_above hbound hupper
      · simp [harvestOp, hside, timeBound]
    · rfl

theorem translateRange_keeps {q : Query} (h : translateRange schema now' (.object fields) = .ok q)
    (hmatch : q.matches schema d = true) :
    Meets (harvestRange now fields) d.millis ↔ Meets (strayFields now fields) d.millis := by
  rcases fields with _ | ⟨⟨name, bounds⟩, fields⟩
  · cases h
  · cases bounds with
    | object ops =>
      rw [translateRange] at h
      rw [harvestRange, strayFields, meets_append, meets_append]
      refine and_congr_left fun _ => ?_
      split_ifs at h ⊢ with halias
      · obtain ⟨b, hb, h⟩ := of_bind h
        obtain ⟨-, rfl⟩ := timestampRange_eq_ok_iff.mp h
        rw [Query.matches, Bool.and_eq_true] at hmatch
        exact rangeBounds_keeps hb hmatch.1 hmatch.2
      · rfl
    | _ => cases h

theorem rangeFields_single (kind : String) (body : Value) :
    rangeFields [(kind, body)] = if kind = "range" then body.asObject.getD [] else [] := by
  rw [rangeFields, Members.get_cons]
  by_cases hrange : kind = "range"
  · simp [hrange]
  · simp [hrange, Ne.symm hrange, Members.get]

theorem harvest_single (h : kind ≠ "bool") :
    harvest now (.object [(kind, body)]) =
      (if kind = "range" then harvestRange now (body.asObject.getD []) else []) ++
        harvest now body := by
  have hbool : harvestBool now [(kind, body)] = none := by
    unfold harvestBool
    rw [if_neg h, harvestBool]
  grind [rangeFields_single, harvest, harvestMembers, harvestRange]

theorem translateKind_keeps {q : Query} (hkind : kind ≠ "bool")
    (h : translateKind schema now' kind body = .ok q) (hmatch : q.matches schema d = true) :
    Meets (harvest now (.object [(kind, body)])) d.millis ↔
      Meets (stray now (.object [(kind, body)])) d.millis := by
  unfold stray
  rw [harvest_single hkind, if_neg hkind, meets_append, meets_append]
  refine and_congr_left fun _ => ?_
  by_cases hrange : kind = "range"
  · subst hrange
    cases body with
    | object fields => exact translateRange_keeps h hmatch
    | _ => cases h
  · rw [if_neg hrange, if_neg hrange]

theorem matchesAll_append {l l' : List Query} :
    matchesAll schema d (l ++ l') = true ↔
      matchesAll schema d l = true ∧ matchesAll schema d l' = true := by
  induction l with
  | nil => simp [matchesAll]
  | cons q l ih => simp [matchesAll, ih, and_assoc]

theorem matchesAll_of_boolQuery {must should mustNot : List Query}
    (h : (boolQuery must should mustNot).matches schema d = true) :
    matchesAll schema d must = true := by
  unfold boolQuery at h
  split_ifs at h with hnone hmust
  · rw [List.isEmpty_iff.mp hnone.1, matchesAll]
  · rw [List.isEmpty_iff.mp hmust.1, matchesAll]
  · rw [Query.matches, Bool.and_eq_true, Bool.and_eq_true] at h
    exact h.1.1

mutual

theorem translateQuery_keeps {schema : Schema} {now now' : Option ℤ} {d : Doc} :
    ∀ {query : Value} {q : Query}, translateQuery schema now' query = .ok q → q.matches schema d = true →
      (Meets (harvest now query) d.millis ↔ Meets (stray now query) d.millis)
  | .object [], q, h, _ => by cases h
  | .object [(kind, body)], q, h, hmatch => by
    unfold translateQuery at h
    split_ifs at h with hkind
    · cases body with
      | object sections =>
        obtain ⟨must, hmust, h⟩ := of_bind h
        obtain ⟨filter, hfilter, h⟩ := of_bind h
        obtain ⟨should, -, h⟩ := of_bind h
        obtain ⟨mustNot, -, h⟩ := of_bind h
        cases h
        obtain ⟨hmust', hfilter'⟩ := matchesAll_append.mp (matchesAll_of_boolQuery hmatch)
        have hharvest : harvest now (.object [(kind, .object sections)]) =
            harvestSection now "must" sections ++ harvestSection now "filter" sections := by
          rw [harvest, rangeFields_single, if_neg (by simp [hkind])]
          unfold harvestBool
          rw [if_pos hkind]
          rfl
        unfold stray
        rw [hharvest, if_pos hkind, meets_append, meets_append]
        exact and_congr (translateSection_keeps hmust hmust') (translateSection_keeps hfilter hfilter')
      | _ => cases h
    · exact translateKind_keeps hkind h hmatch
  | .object (_ :: _ :: _), q, h, _ => by cases h
  | .null, q, h, _ | .bool _, q, h, _ | .number _, q, h, _ | .string _, q, h, _
  | .array _, q, h, _ => by cases h

theorem translateSection_keeps {schema : Schema} {now now' : Option ℤ} {d : Doc} {name : String} :
    ∀ {ms : Members} {qs : List Query}, translateSection schema now' name ms = .ok qs →
      matchesAll schema d qs = true →
      (Meets (harvestSection now name ms) d.millis ↔ Meets (straySection now name ms) d.millis)
  | [], qs, _, _ => Iff.rfl
  | (key, .array items) :: ms, qs, h, hmatch => by
    rw [translateSection] at h
    rw [harvestSection, straySection]
    split_ifs at h ⊢ with hkey
    · rw [harvest]
      exact translateItems_keeps h hmatch
    · exact translateSection_keeps h hmatch
  | (key, .object members) :: ms, qs, h, hmatch => by
    unfold translateSection at h
    unfold harvestSection straySection
    split_ifs at h ⊢ with hkey
    · obtain ⟨q, hq, rfl⟩ := map_eq_ok_iff.mp h
      rw [matchesAll, Bool.and_eq_true] at hmatch
      exact translateQuery_keeps hq hmatch.1
    · exact translateSection_keeps h hmatch
  | (key, .null) :: ms, qs, h, hmatch | (key, .bool _) :: ms, qs, h, hmatch
  | (key, .number _) :: ms, qs, h, hmatch | (key, .string _) :: ms, qs, h, hmatch => by
    unfold translateSection at h
    unfold harvestSection straySection
    split_ifs at h ⊢ with hkey
    · cases h
    · exact translateSection_keeps h hmatch

theorem translateItems_keeps {schema : Schema} {now now' : Option ℤ} {d : Doc} :
    ∀ {items : List Value} {qs : List Query}, translateItems schema now' items = .ok qs →
      matchesAll schema d qs = true →
      (Meets (harvestItems now items) d.millis ↔ Meets (strayItems now items) d.millis)
  | [], qs, _, _ => Iff.rfl
  | item :: items, qs, h, hmatch => by
    obtain ⟨q, hq, h⟩ := of_bind h
    obtain ⟨rest, hrest, h⟩ := of_bind h
    cases h
    rw [matchesAll, Bool.and_eq_true] at hmatch
    rw [harvestItems, strayItems, meets_append, meets_append]
    exact and_congr (translateQuery_keeps hq hmatch.1) (translateItems_keeps hrest hmatch.2)

end

/-! ### The interval and the matches -/

/-- **A match is inside the interval, and its split is searched, exactly when it meets the stray
bounds.**  `now` is the clock's reading for the scan, `now'` the one for the translation. -/
theorem match_inside_interval_iff {split : Split} {now now' : Option ℤ} {query : Value} {i : Interval}
    {q : Query} {d : Doc} (hscan : extractTimeBounds now query = .ok i)
    (haccept : translateQuery split.schema now' query = .ok q) (hd : d ∈ split.docs)
    (hmatch : q.matches split.schema d = true) :
    i.Contains d.millis ∧ split.overlaps i = true ↔ Meets (stray now query) d.millis := by
  rw [← translateQuery_keeps haccept hmatch, ← extractTimeBounds_contains hscan]
  grind [Split.overlaps_of_contains]

def timestampOnly : Schema where
  accepts _ _ := .error "no such field"
  holds _ _ _ := false

def atFifteenHundred : Doc := ⟨1500000, some 1, .object [], by decide, by decide⟩

def oneDocument : Split where
  docs := [atFifteenHundred]
  timeStart := 1500000
  timeEnd := 1500000
  schema := timestampOnly
  hasSeq := true
  hidden _ := false
  covers := by simp [atFifteenHundred]
  fits := by decide
  seqs := by simp [atFifteenHundred]

def seconds (n : ℕ) : Value := .number (.posInt n)

def betweenSeconds : Value :=
  .object [("bool", .object [
    ("filter", .array [.object [("range", .object [("@timestamp", .object [("gte", seconds 1000)])])]]),
    ("must", .object [("range", .object [("timestamp", .object [("lt", seconds 2000)])])])])]

/-- The document is inside the interval of the conjunction, which has no stray bound. -/
theorem match_inside_interval_betweenSeconds :
    ∃ i q, extractTimeBounds none betweenSeconds = .ok i ∧
      translateQuery oneDocument.schema none betweenSeconds = .ok q ∧
      q.matches oneDocument.schema atFifteenHundred = true ∧ stray none betweenSeconds = [] ∧
      i.Contains atFifteenHundred.millis ∧ oneDocument.overlaps i = true := by
  have hscan : extractTimeBounds none betweenSeconds = .ok ⟨some 1000000, some 2000000⟩ := rfl
  have haccept : translateQuery oneDocument.schema none betweenSeconds = .ok
      (.bool [.range .unbounded (.excluded 2000000000000), .range (.included 1000000000000) .unbounded]
        [] []) := rfl
  have hmatch : Query.matches oneDocument.schema atFifteenHundred
      (.bool [.range .unbounded (.excluded 2000000000000), .range (.included 1000000000000) .unbounded]
        [] []) = true := rfl
  have hnone : stray none betweenSeconds = [] := rfl
  refine ⟨_, _, hscan, haccept, hmatch, hnone, ?_⟩
  refine (match_inside_interval_iff hscan haccept (mem_singleton.mpr rfl) hmatch).mpr ?_
  rw [hnone]
  exact meets_nil _

/-- Two bounds on one side.  The translator keeps `gte`, which comes later; the scan takes both. -/
def twoLowerBounds : Value :=
  .object [("range", .object [("@timestamp", .object [("gt", seconds 2000), ("gte", seconds 1000)])])]

/-- **The interval leaves out a match.**  The document is at 1500 seconds, the translated range starts
at 1000, the interval at 2000. -/
theorem match_outside_interval :
    ¬ ∀ (split : Split) (now now' : Option ℤ) (query : Value) (i : Interval) (q : Query) (d : Doc),
      extractTimeBounds now query = .ok i → translateQuery split.schema now' query = .ok q →
      d ∈ split.docs → q.matches split.schema d = true →
      i.Contains d.millis ∧ split.overlaps i = true := by
  intro hclaim
  have hinside := (hclaim oneDocument none none twoLowerBounds ⟨some 2000000, none⟩
    (.range (.included 1000000000000) .unbounded) atFifteenHundred rfl rfl
    (mem_singleton.mpr rfl) rfl).1
  exact absurd hinside (by decide)

end RSearch.Search
