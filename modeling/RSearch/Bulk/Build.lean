import RSearch.Bulk.Handle

/-!
# From an acknowledged document to its split

The split is built from the batches a worker cuts.  The build reads each line again; a line that does
not read, a document the converter refuses and a conversion that unwinds are skipped with a warning,
and the batch goes on without them.
-/

namespace RSearch.Bulk

open List Except

open Json (Value Members)
open Index (Platform MappedSchema IndexError DocIdentity Converted Holds CutsDate)

/-! ### Building a split -/

structure WorkItem where
  source : String
  identity : DocIdentity

/-- One document into the split: skipped when it does not read, is refused or unwinds. -/
def addDocument (P : Platform) (R : Reader) (schema : MappedSchema) (fallback : ℤ) (w : WorkItem) :
    Except IndexError (Option Converted) :=
  match R.fromStr w.source with
  | .error _ => .ok none
  | .ok doc =>
    match Index.convertWithSource P schema doc (some w.source) w.identity fallback with
    | .error _ => .ok none
    | .ok (.error (.invalidDocument _)) => .ok none
    | .ok (.error e) => .error e
    | .ok (.ok c) => .ok (some c)

def buildSplit (P : Platform) (R : Reader) (schema : MappedSchema) (fallback : ℤ) :
    List WorkItem → Except IndexError (List Converted)
  | [] => .ok []
  | w :: ws => do
    let c ← addDocument P R schema fallback w
    let cs ← buildSplit P R schema fallback ws
    return c.toList ++ cs

section Build

variable {P : Platform} {R : Reader} {schema : MappedSchema} {fallback : ℤ} {w : WorkItem}
  {members : Members}

theorem addDocument_of_cutsDate (hread : R.fromStr w.source = .ok (.object members))
    (hcut : CutsDate schema members) : addDocument P R schema fallback w = .ok none := by
  unfold addDocument
  simp only [hread, (Index.convertWithSource_eq_error_iff (p := .notCharBoundary)).mpr hcut]

theorem addDocument_of_not_cutsDate (hread : R.fromStr w.source = .ok (.object members))
    (hcut : ¬CutsDate schema members) :
    ∃ c, addDocument P R schema fallback w = .ok (some c) ∧
      Holds P schema members w.source w.identity c.doc := by
  obtain ⟨c, hc, hholds⟩ : ∃ c, Index.convertWithSource P schema (.object members) (some w.source)
      w.identity fallback = .ok (.ok c) ∧ Holds P schema members w.source w.identity c.doc :=
    Index.convertWithSource_holds hcut
  grind [addDocument]

variable (P R schema fallback)

theorem exists_addDocument_eq (w : WorkItem) : ∃ c, addDocument P R schema fallback w = .ok c := by
  cases hread : R.fromStr w.source with
  | error e => exact ⟨none, by rw [addDocument, hread]⟩
  | ok doc =>
    cases doc with
    | object members =>
      by_cases hcut : CutsDate schema members
      · exact ⟨none, addDocument_of_cutsDate hread hcut⟩
      · obtain ⟨c, hc, -⟩ := addDocument_of_not_cutsDate (P := P) hread hcut
        exact ⟨some c, hc⟩
    | _ => exact ⟨none, by rw [addDocument, hread]; rfl⟩

theorem exists_buildSplit_eq (batch : List WorkItem) :
    ∃ docs, buildSplit P R schema fallback batch = .ok docs := by
  induction batch with
  | nil => exact ⟨[], rfl⟩
  | cons w ws ih =>
    obtain ⟨c, hc⟩ := exists_addDocument_eq P R schema fallback w
    obtain ⟨cs, hcs⟩ := ih
    exact ⟨c.toList ++ cs, bind_eq_ok_iff.mpr ⟨c, hc, bind_eq_ok_iff.mpr ⟨cs, hcs, rfl⟩⟩⟩

variable {P R schema fallback}

theorem buildSplit_append_cons {before after : List WorkItem} {w : WorkItem} {db da : List Converted}
    {c : Option Converted} (hb : buildSplit P R schema fallback before = .ok db)
    (hw : addDocument P R schema fallback w = .ok c)
    (ha : buildSplit P R schema fallback after = .ok da) :
    buildSplit P R schema fallback (before ++ w :: after) = .ok (db ++ (c.toList ++ da)) := by
  induction before generalizing db with
  | nil =>
    cases hb
    exact bind_eq_ok_iff.mpr ⟨c, hw, bind_eq_ok_iff.mpr ⟨da, ha, rfl⟩⟩
  | cons v before ih =>
    obtain ⟨d, hd, hb⟩ := of_bind hb
    obtain ⟨ds, hds, hb⟩ := of_bind hb
    cases hb
    refine bind_eq_ok_iff.mpr ⟨d, hd, bind_eq_ok_iff.mpr ⟨_, ih hds, ?_⟩⟩
    rw [append_assoc]
    rfl

end Build

/-! ### What the request path queues -/

/-- The laws of the JSON reader and writer: what is read nests to a limited depth, and an object
within that depth reads back as an object. -/
structure Reader.Lawful (R : Reader) (P : Platform) (limit : Nat) : Prop where
  depth_le : ∀ {text v}, R.fromStr text = .ok v → v.depth ≤ limit
  reads_back : ∀ {v : Value}, v.depth ≤ limit → v.isObject = true → R.ReadsObject (P.toString v)

def Env.FindsRead (env : Env) : Prop :=
  ∀ stream ids docs, env.getDocuments stream ids = .found docs →
    ∀ d ∈ docs, ∃ text, env.R.fromStr text = .ok d.2.source

variable {env : Env} {items : List (Nat × BulkItem)} {s : Session} {planned : List Planned}
  {item : BulkItem} {settled : Settled} {limit : Nat} {a : Accepted}

theorem kept_subset_of_resolveItems {mode : String → StreamMode} {named : Named}
    (h : resolveItems env mode items s = .ok named) : named.kept ⊆ items := by
  induction items generalizing s named with
  | nil =>
    cases h
    exact nil_subset _
  | cons p items ih =>
    obtain ⟨⟨s', info⟩, -, h⟩ := of_bind h
    obtain ⟨rest, hrest, h⟩ := of_bind h
    have hsub := ih hrest
    cases info with
    | some info =>
      cases h
      exact cons_subset_cons p hsub
    | none =>
      cases h
      exact subset_cons_of_subset p hsub

theorem exists_planItem_of_mem_planned {rest : List (Nat × BulkItem)} {results : List ItemResult}
    (h : planItems env s items rest = .ok (results, planned)) :
    ∀ plan ∈ planned, ∃ p ∈ rest, planItem env s items p.1 p.2 = .ok (.inr plan) := by
  induction rest generalizing results planned with
  | nil =>
    cases h
    simp
  | cons p rest ih =>
    obtain ⟨decision, hdecision, h⟩ := of_bind h
    obtain ⟨⟨rs, ps⟩, hrest, h⟩ := of_bind h
    have hlater : ∀ plan ∈ ps, ∃ q ∈ p :: rest,
        planItem env s items q.1 q.2 = .ok (.inr plan) := by
      grind
    cases decision with
    | inl body =>
      cases h
      exact hlater
    | inr first =>
      cases h
      grind

theorem exists_settle_of_planItem {position : Nat} {plan : Planned}
    (h : planItem env s items position item = .ok (.inr plan)) :
    ∃ settled, settle env s items item = .ok settled ∧ plan.item = settled.item := by
  unfold planItem at h
  split at h
  · cases h
  case h_2 settled hsettled =>
    obtain ⟨malformed, -, h⟩ := of_bind h
    cases malformed with
    | some e => cases h
    | none =>
      cases h
      exact ⟨settled, hsettled, rfl⟩

theorem settle_item (h : settle env s items item = .ok settled) :
    settled.item = item ∧ item.action ≠ .update ∨
      item.action = .update ∧ ∃ current doc upsert, currentOf env s items item = .ok current ∧
        applyUpdate item.doc (current.map (·.source)) = .ok (some (doc, upsert)) ∧
        settled.item = { item with raw := env.P.toString doc, doc, action := .index } := by
  unfold settle at h
  split at h
  case h_1 haction =>
    grind
  case h_2 haction =>
    refine .inl ⟨?_, by simp [haction]⟩
    split at h
    · split at h
      · obtain ⟨current, -, h⟩ := of_bind h
        cases current <;> cases h
        rfl
      · cases h
    · cases h
      rfl
  case h_3 haction =>
    split at h
    · obtain ⟨current, hcurrent, h⟩ := of_bind h
      grind [settleUpdate]
    · cases h
  grind

theorem exists_text_of_currentOf {found : FoundDocument} (hfinds : env.FindsRead)
    (h : currentOf env s items item = .ok (some found)) :
    ∃ text, env.R.fromStr text = .ok found.source := by
  unfold currentOf at h
  split at h
  case h_1 docs hdocs =>
    have hlookup : docs.lookup item.docId = some found := by simpa using h
    obtain ⟨l₁, l₂, rfl, -⟩ := lookup_eq_some_iff.mp hlookup
    exact hfinds _ _ _ hdocs (item.docId, found) (by simp)
  all_goals cases h

theorem readsObject_of_settle (hR : env.R.Lawful env.P limit) (hfinds : env.FindsRead)
    (hread : item.action ≠ .delete → env.R.fromStr item.raw = .ok item.doc ∧ item.doc.isObject = true)
    (h : settle env s items item = .ok settled) (hwrite : isWrite settled.item.action = true) :
    env.R.ReadsObject settled.item.raw := by
  rcases settle_item h with ⟨heq, -⟩ | ⟨haction, current, doc, upsert, hcurrent, happly, heq⟩
  · rw [heq] at hwrite ⊢
    have hne : item.action ≠ .delete := by
      grind [isWrite]
    obtain ⟨hfrom, hobj⟩ := hread hne
    cases hdoc : item.doc with
    | object members => exact ⟨members, hdoc ▸ hfrom⟩
    | _ => simp [hdoc, Value.isObject] at hobj
  · rw [heq]
    obtain ⟨hfrom, -⟩ := hread (by simp [haction])
    have hbody := hR.depth_le hfrom
    obtain ⟨hobj, hdepth⟩ := applyUpdate_eq_some happly
    refine hR.reads_back ?_ hobj
    rcases hdepth with hdepth | ⟨c, hc, hdepth⟩
    · exact hdepth.trans hbody
    · obtain ⟨found, hfound, rfl⟩ := Option.map_eq_some_iff.mp hc
      subst hfound
      obtain ⟨text, htext⟩ := exists_text_of_currentOf hfinds hcurrent
      exact hdepth.trans (max_le (hR.depth_le htext) hbody)

theorem exists_planned_of_mem_acceptedCopies (h : a ∈ acceptedCopies env planned) :
    ∃ plan ∈ planned, isWrite plan.item.action = true ∧ a.source = some plan.item.raw := by
  obtain ⟨x, hx, hsome⟩ := mem_filterMap.mp h
  obtain ⟨y, hy, rfl⟩ := mem_map.mp hx
  obtain ⟨z, hz, hcopy⟩ := mem_flatMap.mp (fst_mem_of_mem_zipIdx hy)
  obtain ⟨v, hv, rfl⟩ := mem_map.mp hz
  grind

theorem source_of_mem_deletes (h : a ∈ deletes s planned) : a.source = none := by
  obtain ⟨x, -, hsome⟩ := mem_filterMap.mp h
  grind

/-- **A text some request has queued and answered for.** -/
def Acknowledged (P : Platform) (R : Reader) (source : String) : Prop :=
  ∃ env pace clock defaultIndex body r w, env.P = P ∧ env.R = R ∧ env.FindsRead ∧
    handleBulkLocal env pace clock defaultIndex body = .ok r ∧ w ∈ r.writes ∧
    w.1.source = some source

theorem readsObject_of_acknowledged {P : Platform} {R : Reader} (hR : R.Lawful P limit)
    {source : String} (h : Acknowledged P R source) : R.ReadsObject source := by
  obtain ⟨env, pace, clock, defaultIndex, body, r, w, rfl, rfl, hfinds, hr, hw, hsource⟩ := h
  obtain ⟨p, c, hp, hc, rfl⟩ := handleBulkLocal_eq_ok_iff.mp hr
  obtain ⟨a, ha, rfl⟩ := mem_map.mp hw
  obtain ⟨outcome, named, bound, results, planned, hparse, hnamed, -, hplan, rfl⟩ :=
    eq_of_prepare hp
  rw [accepted_of_commit hc] at ha
  rcases mem_append.mp ha with ha | ha
  · grind [source_of_mem_deletes]
  · obtain ⟨plan, hmem, hwrite, hraw⟩ := exists_planned_of_mem_acceptedCopies ha
    obtain ⟨q, hq, hdec⟩ := exists_planItem_of_mem_planned hplan plan hmem
    obtain ⟨settled, hsettle, hitem⟩ := exists_settle_of_planItem hdec
    have hparsed := fromStr_raw_of_mem_items hparse q (kept_subset_of_resolveItems hnamed hq)
    rw [hitem] at hwrite hraw
    cases hraw.symm.trans hsource
    exact readsObject_of_settle hR hfinds hparsed hsettle hwrite

/-! ### What a split keeps -/

/-- **A document is in the split of its batch, once and whole**: the split is what the batch would
have without it, with one document more in its place, which holds the text, the identity, everything
unmapped and every value a column can read. -/
def KeptIn (P : Platform) (R : Reader) (schema : MappedSchema) (fallback : ℤ)
    (before : List WorkItem) (w : WorkItem) (after : List WorkItem) : Prop :=
  ∃ members db c da, R.fromStr w.source = .ok (.object members) ∧
    buildSplit P R schema fallback before = .ok db ∧
    buildSplit P R schema fallback after = .ok da ∧
    buildSplit P R schema fallback (before ++ w :: after) = .ok (db ++ c :: da) ∧
    Holds P schema members w.source w.identity c.doc

/-- **When an acknowledged document is never lost.** -/
theorem kept_iff {P : Platform} {R : Reader} {limit : Nat} (hR : R.Lawful P limit)
    (schema : MappedSchema) (fallback : ℤ) (w : WorkItem) (hw : Acknowledged P R w.source) :
    (∀ before after, KeptIn P R schema fallback before w after) ↔
      ∀ members, R.fromStr w.source = .ok (.object members) → ¬CutsDate schema members := by
  constructor
  · intro h members hread hcut
    obtain ⟨-, db, c, da, -, hb, ha, hall, -⟩ := h [] []
    cases hb
    have hskip : buildSplit P R schema fallback ([] ++ w :: [])
        = .ok ([] ++ (Option.toList none ++ [])) :=
      buildSplit_append_cons rfl (addDocument_of_cutsDate hread hcut) rfl
    rw [hskip] at hall
    cases hall
  · intro h before after
    obtain ⟨members, hread⟩ := readsObject_of_acknowledged hR hw
    obtain ⟨c, hc, hholds⟩ : ∃ c, addDocument P R schema fallback w = .ok (some c) ∧
        Holds P schema members w.source w.identity c.doc :=
      addDocument_of_not_cutsDate hread (h members hread)
    obtain ⟨db, hb⟩ := exists_buildSplit_eq P R schema fallback before
    obtain ⟨da, ha⟩ := exists_buildSplit_eq P R schema fallback after
    exact ⟨members, db, c, da, hread, hb, ha, buildSplit_append_cons hb hc ha, hholds⟩

/-! ### A log line with a timestamp -/

def logAction : String := "\x7b\"index\":\x7b\"_index\":\"logs\"\x7d\x7d"

def logLine (time : String) : String := "\x7b\"@timestamp\":\"" ++ time ++ "\"\x7d"

def logReader (time : String) : Reader where
  fromStr line :=
    if line = logAction then .ok (.object [("index", .object [("_index", .string "logs")])])
    else .ok (.object [("@timestamp", .string time)])
  newUuid _ := "generated"

def logPlatform : Platform := ⟨fun _ => "", fun _ => "", fun _ s => s, fun _ => none⟩

def logEnv (time : String) : Env where
  P := logPlatform
  R := logReader time
  autoCreateIndex := "true"
  autoCreateAllows _ := true
  cached _ _ := none
  ensureStream _ _ _ := .ok ⟨1, .log⟩
  getStream _ _ := .ok true
  streamMaxSeq _ _ := .ok none
  table := .ok []
  getDocuments _ _ := .noRole
  streamSchema _ _ := .error ""
  rules _ := []
  upsertTombstones := .ok ()
  appendBatch := .ok ()
  enqueue _ _ := .accepted 1

theorem fromStr_logReader {time line : String} (h : line ≠ logAction) :
    (logReader time).fromStr line = .ok (.object [("@timestamp", .string time)]) :=
  if_neg h

theorem fromStr_logAction (time : String) : (logReader time).fromStr logAction
    = .ok (.object [("index", .object [("_index", .string "logs")])]) := by
  simp [logReader]

theorem logReader_lawful (time : String) : (logReader time).Lawful logPlatform 2 where
  depth_le {text v} h := by
    by_cases hline : text = logAction
    · rw [hline, fromStr_logAction] at h
      cases h
      decide
    · cases (fromStr_logReader hline).symm.trans h
      exact Nat.le_succ 1
  reads_back _ _ := ⟨_, fromStr_logReader (show "" ≠ logAction by decide)⟩

def logSchema : MappedSchema where
  source := 0
  timestamp := 1
  dynamic := 2
  fields := [("@timestamp", ⟨3, .date, none, none, false⟩)]
  mapping := ⟨[("@timestamp", ⟨.date, none, none, false, []⟩)], []⟩
  id := some 4
  seq := some 5
  dynamicRaw := some 6

/-- A line with a plain timestamp stays in the split it is part of. -/
theorem kept_iff_plainTimestamp :
    KeptIn logPlatform (logReader "2026-09-16T00:00:00+01:30") logSchema 0 []
      ⟨logLine "2026-09-16T00:00:00+01:30", ⟨"generated", 1024⟩⟩ [] := by
  obtain ⟨r, hr, w, hw, hsource⟩ : ∃ r, handleBulkLocal (logEnv "2026-09-16T00:00:00+01:30") stillPace
      freshClock none (logAction ++ "\n" ++ logLine "2026-09-16T00:00:00+01:30" ++ "\n") = .ok r ∧
      ∃ w ∈ r.writes, w.1.source = some (logLine "2026-09-16T00:00:00+01:30") := by
    decide +kernel
  refine (kept_iff (logReader_lawful _) logSchema 0 _ ⟨logEnv "2026-09-16T00:00:00+01:30",
    stillPace, freshClock, none, _, r, w, rfl, rfl, ?_, hr, hw, hsource⟩).mpr ?_
      [] []
  · intro stream ids docs h
    cases h
  · intro members hread hcut
    cases (fromStr_logReader (by decide +kernel)).symm.trans hread
    have hconverts : (Index.convertWithSource logPlatform logSchema
        (.object [("@timestamp", .string "2026-09-16T00:00:00+01:30")]) none ⟨"", 0⟩
        0).toOption.isSome = true := by decide +kernel
    rw [(Index.convertWithSource_eq_error_iff (p := .notCharBoundary)).mpr hcut] at hconverts
    cases hconverts

/-- **An acknowledged document that is lost.**  The log-mode stream answers 201 and the line is
queued, but its timestamp ends in an offset whose second byte is inside a character, and no split
has the document. -/
theorem acknowledged_document_lost :
    (∃ r, handleBulkLocal (logEnv "2026-09-16T00:00:00+1é2") stillPace freshClock none
        (logAction ++ "\n" ++ logLine "2026-09-16T00:00:00+1é2" ++ "\n") = .ok r ∧
      r.items.map (·.status) = [201] ∧
      r.writes.map (fun w => (w.1.row, w.1.source))
        = [(1, some (logLine "2026-09-16T00:00:00+1é2"))]) ∧
    ∀ schema fallback identity, buildSplit logPlatform (logReader "2026-09-16T00:00:00+1é2") schema
      fallback [⟨logLine "2026-09-16T00:00:00+1é2", identity⟩] = .ok [] := by
  refine ⟨by decide +kernel, fun schema fallback identity => ?_⟩
  have hcut : CutsDate schema [("@timestamp", .string "2026-09-16T00:00:00+1é2")] :=
    .inl ⟨_, rfl, _, rfl, Index.parseDateString_eq_error_iff.mp
      (show Index.parseDateString _ = .error .notCharBoundary by decide +kernel)⟩
  rfl

end RSearch.Bulk
