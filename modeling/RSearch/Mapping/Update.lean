import RSearch.Lib.Runs
import RSearch.Mapping.Declare

/-!
# Updating a mapping

`PUT /{index}/_mapping` adds fields to the mapping of an index.  The handler reads the stored mapping,
merges the declared properties in, and writes all of it back.
-/

namespace RSearch.Mapping

open List Option

open Json (Value Members)
open Index (Platform)

/-! ### The merge -/

structure ErrorResponse where
  status : ℕ
  type : String
  reason : String
  deriving DecidableEq

def mappingError : MappingError → ErrorResponse
  | .illegalArgument reason => ⟨400, "illegal_argument_exception", reason⟩
  | error => ⟨400, "mapper_parsing_exception", error.text⟩

def typeConflict (name : String) (current incoming : FieldDef) : ErrorResponse :=
  let old := current.ty.asStr
  let new := incoming.ty.asStr
  ⟨400, "illegal_argument_exception",
    s!"mapper [{name}] cannot be changed from type [{old}] to [{new}]"⟩

def mergeProperties (existing : IndexMapping) (incomingProps : Members) :
    List (String × FieldDef) → Members → Except ErrorResponse Members
  | [], merged => .ok merged
  | (name, field) :: incoming, merged =>
    match existing.properties.lookup name with
    | some current =>
      if current.ty ≠ field.ty then .error (typeConflict name current field)
      else mergeProperties existing incomingProps incoming merged
    | none =>
      mergeProperties existing incomingProps incoming
        (if (incomingProps.get name).isSome then merged.insert name field.toJson else merged)

def withProperties (mapping : Value) (properties : Members) : Value :=
  match mapping with
  | .object members => .object (Members.insert "properties" (.object properties) members)
  | _ => .object [("properties", .object properties)]

def existingOf (P : Platform) (stored : Value) : IndexMapping :=
  match IndexMapping.fromJson P stored with
  | .ok mapping => mapping
  | .error _ => {}

/-- **The mapping a request writes**, from the one it has read. -/
def putMapping (P : Platform) (stored body : Value) : Except ErrorResponse Value :=
  let existing := existingOf P stored
  match IndexMapping.fromMappingUpdate P body existing with
  | .error e => .error (mappingError e)
  | .ok incoming =>
    (mergeProperties existing (propertiesOf body) incoming.properties (propertiesOf stored)).map
      (withProperties stored)

/-! ### What one merge keeps and adds -/

section Merge

variable {P : Platform} {existing : IndexMapping} {props : Members} {incoming : List (String × FieldDef)}
  {merged out : Members} {name : String}

theorem get_merge_of_kept (h : mergeProperties existing props incoming merged = .ok out)
    (hkept : (existing.properties.lookup name).isSome ∨ name ∉ incoming.map Prod.fst) :
    out.get name = merged.get name := by
  induction incoming generalizing merged with
  | nil =>
    cases h
    rfl
  | cons head incoming ih =>
    obtain ⟨key, field⟩ := head
    have htail : (existing.properties.lookup name).isSome ∨ name ∉ incoming.map Prod.fst :=
      hkept.imp_right fun hnot hmem => hnot (mem_cons_of_mem _ hmem)
    unfold mergeProperties at h
    split at h
    · split_ifs at h
      exact ih h htail
    · next hnew =>
        have hne : name ≠ key := by
          rintro rfl
          rcases hkept with hsome | hnot
          · rw [hnew] at hsome
            cases hsome
          · exact hnot mem_cons_self
        rw [ih h htail]
        split_ifs
        · rw [Members.get_insert, if_neg hne]
        · rfl

theorem get_merge_of_new (h : mergeProperties existing props incoming merged = .ok out)
    (hkeys : (incoming.map Prod.fst).Nodup) (hnew : existing.properties.lookup name = none)
    (hprops : (props.get name).isSome) {field : FieldDef} (hfield : incoming.lookup name = some field) :
    out.get name = some field.toJson := by
  induction incoming generalizing merged with
  | nil => cases hfield
  | cons head incoming ih =>
    obtain ⟨hfirst, hkeys⟩ := nodup_cons.mp hkeys
    rw [lookup_cons] at hfield
    unfold mergeProperties at h
    split at hfield
    · next heq =>
        cases hfield
        obtain rfl := beq_iff_eq.mp heq
        rw [hnew] at h
        rw [get_merge_of_kept h (.inr hfirst), if_pos hprops, Members.get_insert, if_pos rfl]
    · split at h
      · split_ifs at h
        exact ih h hkeys hfield
      · exact ih h hkeys hfield

end Merge

@[simp] theorem propertiesOf_withProperties (mapping : Value) (properties : Members) :
    propertiesOf (withProperties mapping properties) = properties := by
  cases mapping with
  | object members => simp [propertiesOf, withProperties, Value.get, Members.get_insert, Value.asObject]
  | null | bool | number | string | array => rfl

variable {P : Platform} {stored : Value} {body : Body}

theorem lookup_existingOf {name : String} (h : (propertiesOf stored).get name = none) :
    (existingOf P stored).properties.lookup name = none := by
  unfold existingOf
  split
  · next mapping hmapping =>
      have hkeys := keys_of_mapM (IndexMapping.properties_of_fromJson hmapping)
      rwa [← not_isSome_iff_eq_none, Members.get, Json.isSome_lookup_iff, ← hkeys,
        ← Json.isSome_lookup_iff, not_isSome_iff_eq_none] at h
  · rfl

structure Body where
  value : Value
  keys : ((propertiesOf value).map Prod.fst).Nodup

/-- **The request adds to the mapping**: what it declares of a property that is stored is stored
already, in a mapping that can be read. -/
def Additive (P : Platform) (stored : Value) (body : Body) : Prop :=
  ∀ name rest, (declAt stored [name]).isSome → (declAt body.value (name :: rest)).isSome →
    (∃ mapping, IndexMapping.fromJson P stored = .ok mapping) ∧ (declAt stored (name :: rest)).isSome

def Keeps (old new : Value) : Prop :=
  ∀ path field, declAt old path = some field → declAt new path = some field

def HasPaths (body : Body) (mapping : Value) : Prop :=
  ∀ path, (declAt body.value path).isSome → (declAt mapping path).isSome

theorem Keeps.hasPaths {old new : Value} (h : Keeps old new) (hpaths : HasPaths body old) :
    HasPaths body new := by
  intro path hpath
  obtain ⟨field, hfield⟩ := isSome_iff_exists.mp (hpaths path hpath)
  exact isSome_iff_exists.mpr ⟨field, h path field hfield⟩

theorem putMapping_adds {mapping : Value} (hadd : Additive P stored body)
    (h : putMapping P stored body.value = .ok mapping) :
    Keeps stored mapping ∧ HasPaths body mapping := by
  unfold putMapping at h
  simp only at h
  split at h
  · cases h
  next incoming hincoming =>
  obtain ⟨out, hout, rfl⟩ := Except.map_eq_ok_iff.mp h
  have hread := IndexMapping.properties_of_parse hincoming
  have hkeys : (incoming.properties.map Prod.fst).Nodup := by
    rw [keys_of_mapM hread]
    exact body.keys
  have hkeeps : Keeps stored (withProperties stored out) := by
    rintro (_ | ⟨name, rest⟩) field hfield
    · cases hfield
    rw [declAt_cons] at hfield ⊢
    rw [propertiesOf_withProperties]
    obtain ⟨value, hvalue, hrest⟩ := bind_eq_some_iff.mp hfield
    rw [get_merge_of_kept hout, hvalue, bind_some, hrest]
    -- a property that is stored and declared is one that was read
    by_cases hdeclared : name ∈ incoming.properties.map Prod.fst
    · have hstored : (declAt stored [name]).isSome := by
        rw [declAt_cons, hvalue]
        rfl
      rw [keys_of_mapM hread, ← Json.isSome_lookup_iff] at hdeclared
      obtain ⟨⟨existing, hexisting⟩, -⟩ := hadd name [] hstored (by
        rw [declAt_cons]
        obtain ⟨value', hvalue'⟩ := isSome_iff_exists.mp hdeclared
        rw [Members.get, hvalue']
        rfl)
      obtain ⟨field', hfield', -⟩ := property_of_mapM (IndexMapping.properties_of_fromJson hexisting) hvalue
      grind [existingOf]
    · exact .inr hdeclared
  refine ⟨hkeeps, ?_⟩
  rintro (_ | ⟨name, rest⟩) hpath
  · cases hpath
  cases hstored : (propertiesOf stored).get name with
  | some value =>
    have hthere : (declAt stored [name]).isSome := by
      rw [declAt_cons, hstored]
      rfl
    obtain ⟨found, hfound⟩ := isSome_iff_exists.mp (hadd name rest hthere hpath).2
    exact isSome_iff_exists.mpr ⟨found, hkeeps _ _ hfound⟩
  | none =>
    obtain ⟨found, hfound⟩ := isSome_iff_exists.mp hpath
    rw [declAt_cons] at hfound
    obtain ⟨value, hvalue, hrest⟩ := bind_eq_some_iff.mp hfound
    obtain ⟨field, hfield, hfromJson⟩ := property_of_mapM hread hvalue
    have hnew := lookup_existingOf (P := P) hstored
    rw [declAt_cons, propertiesOf_withProperties, get_merge_of_new hout hkeys hnew
      (isSome_iff_exists.mpr ⟨value, hvalue⟩) hfield]
    exact fieldAt_toJson hfromJson (isSome_iff_exists.mpr ⟨found, hrest⟩)

/-! ### Requests on one index -/

/-- Where a request stands.  With `merging` it has read `mapping` and is about to write `merged`. -/
inductive Stage where
  | called
  | merging (mapping merged : Value)
  | answered (answer : Except ErrorResponse Unit)

structure Request where
  body : Except String Body
  stage : Stage := .called

structure State where
  /-- The stored mapping, if the index exists. -/
  stored : Option Value
  requests : List Request := []

inductive Outcome where
  | ok
  /-- It reports an error, and has taken effect or not. -/
  | failed (applied : Bool) (text : String)
  deriving DecidableEq

inductive Action where
  | call (body : Except String Body)
  /-- Request `k` reads the row; `failure` if the metastore cannot be asked. -/
  | read (k : ℕ) (failure : Option String)
  /-- Request `k` writes the merged mapping. -/
  | write (k : ℕ) (outcome : Outcome)

def indexNotFound (index : String) : ErrorResponse :=
  ⟨404, "index_not_found_exception", s!"no such index [{index}]"⟩

def internalError (text : String) : ErrorResponse := ⟨500, "internal_error", text⟩

def readStage (P : Platform) (index : String) (stored : Option Value) (body : Except String Body)
    (failure : Option String) : Stage :=
  match body, failure, stored with
  | .error e, _, _ => .answered (.error ⟨400, "parse_exception", s!"invalid body: {e}"⟩)
  | .ok _, some text, _ => .answered (.error (internalError text))
  | .ok _, none, none => .answered (.error (indexNotFound index))
  | .ok body, none, some mapping =>
    match putMapping P mapping body.value with
    | .error e => .answered (.error e)
    | .ok merged => .merging mapping merged

def writeRow (index : String) (stored : Option Value) (merged : Value) :
    Outcome → Option Value × Except ErrorResponse Unit
  | .ok =>
    match stored with
    | some _ => (some merged, .ok ())
    | none => (none, .error (indexNotFound index))
  | .failed applied text =>
    (if applied then stored.map fun _ => merged else stored, .error (internalError text))

def State.setStage (s : State) (k : ℕ) (r : Request) (stage : Stage) : State :=
  { s with requests := s.requests.set k { r with stage } }

def step (P : Platform) (index : String) (s : State) : Action → Option State
  | .call body => some { s with requests := s.requests ++ [{ body }] }
  | .read k failure =>
    (s.requests[k]?).bind fun r =>
      match r.stage with
      | .called => some (s.setStage k r (readStage P index s.stored r.body failure))
      | _ => none
  | .write k outcome =>
    (s.requests[k]?).bind fun r =>
      match r.stage with
      | .merging _ merged =>
        let w := writeRow index s.stored merged outcome
        some ({ s with stored := w.1 }.setStage k r (.answered w.2))
      | _ => none

/-- **The condition**: a write finds the mapping that was merged into, and what the request declares of
a property that is stored is stored already. -/
def WritesWhatItRead (P : Platform) (s : State) : Action → Prop
  | .write k _ => ∀ r ∈ s.requests[k]?,
      match r.stage, r.body with
      | .merging mapping _, .ok body => s.stored = some mapping ∧ Additive P mapping body
      | _, _ => True
  | _ => True

/-- **What the requests leave behind**: the declarations that were there, and every path of every
acknowledged request. -/
structure Kept (before : Option Value) (s : State) : Prop where
  existence : s.stored.isSome = before.isSome
  keeps : ∀ old ∈ before, ∀ new ∈ s.stored, Keeps old new
  acknowledged : ∀ r ∈ s.requests, r.stage = .answered (.ok ()) →
    ∃ body mapping, r.body = .ok body ∧ s.stored = some mapping ∧ HasPaths body mapping

def Request.Merges (P : Platform) (r : Request) : Prop :=
  ∀ mapping merged, r.stage = .merging mapping merged →
    ∃ body, r.body = .ok body ∧ putMapping P mapping body.value = .ok merged

section Steps

variable {P : Platform} {index : String} {before : Option Value} {s s' : State} {k : ℕ} {r : Request}

theorem merges_readStage (P : Platform) (index : String) (r : Request) (stored : Option Value)
    (failure : Option String) :
    Request.Merges P { r with stage := readStage P index stored r.body failure } ∧
      readStage P index stored r.body failure ≠ .answered (.ok ()) := by
  unfold readStage Request.Merges
  split
  · simp
  · simp
  · simp
  · grind

theorem writeRow_some (index : String) (mapping merged : Value) (outcome : Outcome) :
    (writeRow index (some mapping) merged outcome).1.isSome = (some mapping).isSome ∧
      (∀ m ∈ (writeRow index (some mapping) merged outcome).1, m = mapping ∨ m = merged) ∧
      ((writeRow index (some mapping) merged outcome).2 = .ok () →
        (writeRow index (some mapping) merged outcome).1 = some merged) := by
  cases outcome with
  | ok => simp [writeRow]
  | failed applied text => cases applied <;> simp [writeRow]

theorem Kept.store (h : Kept before s) {new : Option Value} (hexists : new.isSome = s.stored.isSome)
    (hkeeps : ∀ m ∈ s.stored, ∀ m' ∈ new, Keeps m m') : Kept before { s with stored := new } where
  existence := hexists.trans h.existence
  keeps old hold m hm := by
    have hsome : s.stored.isSome := by
      rw [h.existence, hold]
      rfl
    obtain ⟨m₀, hm₀⟩ := isSome_iff_exists.mp hsome
    exact fun path field hfield => hkeeps m₀ hm₀ m hm path field (h.keeps old hold m₀ hm₀ path field hfield)
  acknowledged r hr hstage := by
    obtain ⟨body, m₀, hbody, hm₀, hpaths⟩ := h.acknowledged r hr hstage
    obtain ⟨m, hm⟩ := isSome_iff_exists.mp (hexists.trans (by rw [hm₀]; rfl))
    exact ⟨body, m, hbody, hm, (hkeeps m₀ hm₀ m hm).hasPaths hpaths⟩

theorem Kept.setStage (h : Kept before s) (k : ℕ) {stage : Stage} (hstage : stage = .answered (.ok ()) →
      ∃ body mapping, r.body = .ok body ∧ s.stored = some mapping ∧ HasPaths body mapping) :
    Kept before (s.setStage k r stage) where
  existence := h.existence
  keeps := h.keeps
  acknowledged r' hr' hanswered := by
    rcases mem_or_eq_of_mem_set hr' with hr' | rfl
    · exact h.acknowledged r' hr' hanswered
    · exact hstage hanswered

theorem kept_step {a : Action} (h : Kept before s ∧ ∀ r ∈ s.requests, r.Merges P)
    (hcond : WritesWhatItRead P s a) (hstep : step P index s a = some s') :
    Kept before s' ∧ ∀ r ∈ s'.requests, r.Merges P := by
  obtain ⟨hkept, hmerges⟩ := h
  have hset {k : ℕ} {r : Request} (hr : r.Merges P) : ∀ r' ∈ s.requests.set k r, r'.Merges P := by
    grind
  cases a with
  | call body =>
    cases hstep
    refine ⟨⟨hkept.existence, hkept.keeps, fun r hr hstage => ?_⟩, fun r hr => ?_⟩
    all_goals rcases mem_append.mp hr with hr | hr
    · exact hkept.acknowledged r hr hstage
    · grind
    · exact hmerges r hr
    · rw [mem_singleton.mp hr]
      rintro _ _ ⟨⟩
  | read k failure =>
    obtain ⟨r, hk, hstep⟩ := bind_eq_some_iff.mp hstep
    split at hstep
    · cases hstep
      obtain ⟨hread, hanswered⟩ := merges_readStage P index r s.stored failure
      exact ⟨hkept.setStage k (absurd · hanswered), hset hread⟩
    · cases hstep
  | write k outcome =>
    obtain ⟨r, hk, hstep⟩ := bind_eq_some_iff.mp hstep
    split at hstep
    · next mapping merged hstage =>
        obtain ⟨body, hbody, hmerged⟩ := hmerges r (mem_of_getElem? hk) mapping merged hstage
        have hcond' := hcond r hk
        simp only [hstage, hbody] at hcond'
        obtain ⟨hstored, hadd⟩ := hcond'
        obtain ⟨hkeeps, hpaths⟩ := putMapping_adds hadd hmerged
        cases hstep
        obtain ⟨hexists, hwritten, hanswer⟩ := writeRow_some index mapping merged outcome
        rw [← hstored] at hexists hwritten hanswer
        refine ⟨Kept.setStage (hkept.store hexists fun m hm m' hm' => ?_) k fun hacknowledged => ?_,
          hset (by rintro _ _ ⟨⟩)⟩
        · rw [hstored] at hm
          cases hm
          rcases hwritten m' hm' with rfl | rfl
          · exact fun _ _ hfield => hfield
          · exact hkeeps
        · grind
    · cases hstep

end Steps

/-- **Acknowledged updates are kept**, in every run in which each write finds the mapping it was merged
into and no request declares more of a stored property than is stored of it. -/
theorem updates_kept (P : Platform) (index : String) {before : Option Value} {as : List Action}
    {s : State} (hcond : Runs.Along (step P index) (WritesWhatItRead P) { stored := before } as)
    (hrun : Runs.run (step P index) { stored := before } as = some s) : Kept before s := by
  have hstart : Kept before { stored := before } := by
    refine ⟨rfl, fun old hold new hnew => ?_, by simp⟩
    rw [mem_unique hnew hold]
    exact fun _ _ hfield => hfield
  exact (Runs.run_invariant (step P index) (fun _ _ _ h hc hstep => kept_step h hc hstep)
    ⟨hstart, by simp⟩ hcond hrun).1

/-! ### Two updates at a time -/

def plainPlatform : Platform where
  toString _ := ""
  display _ := ""
  normalize _ s := s
  parseIp _ := none

def declares (name : String) : Body where
  value := .object [("properties", .object [(name, .object [("type", .string "keyword")])])]
  keys := by simp [propertiesOf, Value.get, Members.get, Value.asObject]

def noFields : Option Value := some (.object [("properties", .object [])])

def oneByOne : List Action :=
  [.call (.ok (declares "a")), .call (.ok (declares "b")), .read 0 none, .write 0 .ok, .read 1 none,
    .write 1 .ok]

def interleaved : List Action :=
  [.call (.ok (declares "a")), .call (.ok (declares "b")), .read 0 none, .read 1 none, .write 0 .ok,
    .write 1 .ok]

def Request.acknowledged (r : Request) : Bool :=
  match r.stage with
  | .answered (.ok _) => true
  | _ => false

theorem additive_of_disjoint
    (h : ∀ name ∈ (propertiesOf body.value).map Prod.fst, (propertiesOf stored).get name = none) :
    Additive P stored body := by
  intro name rest hstored hdeclared
  obtain ⟨field, hfield⟩ := isSome_iff_exists.mp hdeclared
  rw [declAt_cons] at hstored hfield
  obtain ⟨value, hvalue, -⟩ := bind_eq_some_iff.mp hfield
  have hmem := (Json.isSome_lookup_iff _ _).mp (isSome_iff_exists.mpr ⟨value, hvalue⟩)
  rw [h name hmem] at hstored
  cases hstored

theorem updates_kept_oneByOne :
    ∃ s, Runs.run (step plainPlatform "logs") { stored := noFields } oneByOne = some s ∧
      Kept noFields s ∧ s.requests.map Request.acknowledged = [true, true] := by
  obtain ⟨s, hrun, hs⟩ : ∃ s, Runs.run (step plainPlatform "logs") { stored := noFields } oneByOne
      = some s ∧ s.requests.map Request.acknowledged = [true, true] := by
    decide +kernel
  refine ⟨s, hrun, updates_kept plainPlatform "logs" ?_ hrun, hs⟩
  refine ⟨trivial, fun s₁ h₁ => ?_⟩
  cases h₁
  refine ⟨trivial, fun s₂ h₂ => ?_⟩
  cases h₂
  refine ⟨trivial, fun s₃ h₃ => ?_⟩
  cases h₃
  refine ⟨?_, fun s₄ h₄ => ?_⟩
  · rintro r ⟨⟩
    exact ⟨rfl, additive_of_disjoint (by decide +kernel)⟩
  cases h₄
  refine ⟨trivial, fun s₅ h₅ => ?_⟩
  cases h₅
  refine ⟨?_, fun s₆ h₆ => ?_⟩
  · rintro r ⟨⟩
    exact ⟨rfl, additive_of_disjoint (by decide +kernel)⟩
  · trivial

/-- **An acknowledged update is overwritten.**  Both requests are acknowledged, and the stored mapping
has the field of the second only. -/
theorem concurrent_update_lost :
    ∃ s, Runs.run (step plainPlatform "logs") { stored := noFields } interleaved = some s ∧
      ¬Kept noFields s := by
  obtain ⟨s, hrun, mapping, hmapping, hnone, r, hr, hacknowledged, body, hbody, hdeclared⟩ :
      ∃ s, Runs.run (step plainPlatform "logs") { stored := noFields } interleaved = some s ∧
        ∃ mapping, s.stored = some mapping ∧ (declAt mapping ["a"]).isNone ∧
        ∃ r ∈ s.requests, r.acknowledged ∧
        ∃ body, r.body.toOption = some body ∧ (declAt body.value ["a"]).isSome := by
    decide +kernel
  refine ⟨s, hrun, fun hkept => ?_⟩
  have hstage : r.stage = .answered (.ok ()) := by
    grind [Request.acknowledged]
  obtain ⟨body', mapping', hbody', hmapping', hpaths⟩ := hkept.acknowledged r hr hstage
  rw [hbody'] at hbody
  cases hbody
  rw [hmapping] at hmapping'
  cases hmapping'
  have hsome := hpaths ["a"] hdeclared
  rw [isNone_iff_eq_none.mp hnone] at hsome
  cases hsome

end RSearch.Mapping
