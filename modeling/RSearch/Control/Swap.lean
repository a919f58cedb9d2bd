import RSearch.Lib.KeyedSum
import RSearch.Lib.Runs

/-!
# Split rewrites by more than one control plane

`merge_job`, `compaction_job` and `schema_upgrade_job` read the sources' documents without the ones a
tombstone hides, stage a new split, and `swap_splits` publishes it and marks the sources for delete in
one transaction.  Leadership is checked *between* ticks, so a leader that has lost its lock goes on
rewriting.
-/

namespace RSearch.Control

open List Option

/-! ## The metastore's side: rows and transactions -/

inductive SplitState where
  | staged
  | published
  | markedForDelete
deriving DecidableEq

/-- A stored document version.  `key` says which ingested document it is a copy of (the identity a
rewrite preserves); `id` is absent in splits of the legacy layout. -/
structure Doc where
  key : ℕ
  id : Option String
  seq : ℤ
deriving DecidableEq

/-- A committed row of `doc_tombstones`: hide the versions of `docId` below `beforeSeq`. -/
structure Tombstone where
  streamId : ℤ
  seq : ℤ
  docId : String
  beforeSeq : ℤ
deriving DecidableEq

/-- A row of the `splits` table, with the contents of the (immutable) object it points to. -/
structure SplitRow where
  splitId : String
  streamId : ℤ
  state : SplitState
  tombstoneSeqApplied : ℤ
  docs : List Doc
deriving DecidableEq

open SplitRow

def Tombstone.hides (t : Tombstone) (streamId : ℤ) (d : Doc) : Bool :=
  t.streamId == streamId && d.id == some t.docId && decide (d.seq < t.beforeSeq)

def hidden (ts : List Tombstone) (streamId : ℤ) (d : Doc) : Bool :=
  ts.any fun t => t.hides streamId d

variable {ts : List Tombstone} {streamId applied : ℤ} {t t' : Splits} {p : SplitRow → Bool}
  {st : SplitState} {r' r : SplitRow} {splitId newId : String} {docs : List Doc}
  {oldIds : List String} {j : Job} {k : ℕ}

theorem hidden_mono {ts' : List Tombstone} (hsub : ts ⊆ ts') {d : Doc} (h : hidden ts streamId d = true) :
    hidden ts' streamId d = true := by
  obtain ⟨t, ht, hhides⟩ := any_eq_true.mp h
  exact any_eq_true.mpr ⟨t, hsub ht, hhides⟩

structure Splits where
  rows : List SplitRow
  uniqueIds : (rows.map SplitRow.splitId).Nodup

open Control.Splits

namespace Splits

def setState (t : Splits) (p : SplitRow → Bool) (st : SplitState) : Splits where
  rows := t.rows.map fun r => if p r then { r with state := st } else r
  uniqueIds := by
    have h : (t.rows.map fun r => if p r then { r with state := st } else r).map SplitRow.splitId =
        t.rows.map SplitRow.splitId := by
      rw [List.map_map]
      refine map_congr_left fun r _ => ?_
      grind
    rw [h]
    exact t.uniqueIds

def stageSplit (t : Splits) (splitId : String) (streamId applied : ℤ) (docs : List Doc) :
    Option Splits :=
  if h : splitId ∈ t.rows.map SplitRow.splitId then none
  else some
    { rows := ⟨splitId, streamId, .staged, applied, docs⟩ :: t.rows
      uniqueIds := nodup_cons.mpr ⟨h, t.uniqueIds⟩ }

/-- `swap_splits`: the new split must be `staged` (else the transaction rolls back); the rows it
replaces are marked for delete whatever state they are in. -/
def swapSplits (t : Splits) (oldIds : List String) (newId : String) : Option Splits :=
  let staged := fun r : SplitRow => r.splitId == newId && r.state == .staged
  if t.rows.any staged then
    some ((t.setState staged .published).setState (fun r => oldIds.contains r.splitId)
      .markedForDelete)
  else none

def markSplitsForDelete (t : Splits) (ids : List String) : Splits :=
  t.setState (fun r => ids.contains r.splitId && r.state != .markedForDelete) .markedForDelete

def markTombstonesApplied (t : Splits) (splitId : String) (through : ℤ) : Splits where
  rows := t.rows.map fun r =>
    if r.splitId = splitId then
      { r with tombstoneSeqApplied := max r.tombstoneSeqApplied through } else r
  uniqueIds := by
    have h : (t.rows.map fun r => if r.splitId = splitId then
        { r with tombstoneSeqApplied := max r.tombstoneSeqApplied through } else r).map
          SplitRow.splitId = t.rows.map SplitRow.splitId := by
      rw [List.map_map]
      refine map_congr_left fun r _ => ?_
      grind
    rw [h]
    exact t.uniqueIds

end Splits

/-! ## The rebuild itself -/

/-- The documents of a source split that survive `apply_tombstones`: tombstones the split has
already applied are not looked up again. -/
def survivors (ts : List Tombstone) (r : SplitRow) : List Doc :=
  r.docs.filter fun d => !hidden (ts.filter fun t => decide (r.tombstoneSeqApplied < t.seq))
    r.streamId d

/-- The identity a document gets in the new split: its own, or a generated one at sequence 0. -/
def identity (fresh : ℕ → String) (n : ℕ) (d : Doc) : Doc :=
  match d.id with
  | some _ => d
  | none => { d with id := some (fresh n), seq := 0 }

def rebuilt (fresh : ℕ → String) (ts : List Tombstone) (sources : List SplitRow) : List Doc :=
  (sources.flatMap (survivors ts)).mapIdx (identity fresh)

def appliedThrough (ts : List Tombstone) : ℤ :=
  (ts.getLast?.map Tombstone.seq).getD 0

@[simp] theorem identity_key (fresh : ℕ → String) (n : ℕ) (d : Doc) :
    (identity fresh n d).key = d.key := by
  unfold identity
  split <;> rfl

/-! ## The processes -/

inductive Job where
  /-- Between rewrites. -/
  | idle
  /-- The rows to rewrite have been read (all of them were published then). -/
  | selected (sources : List SplitRow)
  /-- The stream's tombstones have been read too. -/
  | reading (sources : List SplitRow) (tombstones : List Tombstone)
  /-- The new split is staged; the swap is next. -/
  | staged (sources : List SplitRow) (newId : String)
deriving DecidableEq

def Job.sources : Job → List SplitRow
  | .idle => []
  | .selected sources => sources
  | .reading sources _ => sources
  | .staged sources _ => sources

structure State (P : Type) where
  splits : Splits
  tombstones : List Tombstone
  job : P → Job

inductive Action (P : Type) where
  /-- Process `p` picks published splits of a stream to rewrite. -/
  | select (p : P) (sources : List SplitRow)
  /-- Process `p` has paged the stream's tombstones out of the metastore. -/
  | readTombstones (p : P) (ts : List Tombstone)
  /-- Process `p` rewrites the sources and stages the result under the generated id `newId` (or
  marks the sources when nothing survived). -/
  | build (p : P) (fresh : ℕ → String) (newId : String)
  /-- Process `p` runs `swap_splits`. -/
  | swap (p : P)
  /-- Process `p` found nothing hidden in its one source and only records that. -/
  | markApplied (p : P)
  /-- A storage or metastore call of process `p` failed; the job ends. -/
  | fail (p : P)
  /-- `staged_orphan_job` of some leader sweeps a split stuck in `staged`. -/
  | sweepStaged (id : String)
  /-- A write or delete commits a tombstone. -/
  | tombstone (t : Tombstone)
  /-- An ingest node publishes a split of new documents. -/
  | publish (id : String) (streamId : ℤ) (docs : List Doc)

variable {P : Type}

/-- What a job reads from the table to rewrite: distinct published splits of one stream. -/
def State.Selectable (s : State P) (sources : List SplitRow) : Prop :=
  sources ≠ [] ∧ (sources.map SplitRow.splitId).Nodup ∧
    (∀ r ∈ sources, r ∈ s.splits.rows ∧ r.state = .published) ∧
    ∀ r ∈ sources, ∀ r' ∈ sources, r.streamId = r'.streamId

instance (s : State P) (sources : List SplitRow) : Decidable (s.Selectable sources) :=
  inferInstanceAs (Decidable (_ ∧ _ ∧ _ ∧ _))

def State.setJob [DecidableEq P] (s : State P) (p : P) (j : Job) : State P :=
  { s with job := Function.update s.job p j }

def State.setSplits (s : State P) (splits : Splits) : State P :=
  { s with splits }

def step [DecidableEq P] (s : State P) : Action P → Option (State P)
  | .select p sources =>
    match s.job p with
    | .idle =>
      if s.Selectable sources then some (s.setJob p (.selected sources)) else none
    | _ => none
  | .readTombstones p ts =>
    match s.job p with
    | .selected sources =>
      if ts ⊆ s.tombstones then some (s.setJob p (.reading sources ts)) else none
    | _ => none
  | .build p fresh newId =>
    match s.job p with
    | .reading sources ts =>
      let docs := rebuilt fresh ts sources
      if docs = [] then
        some ((s.setSplits (s.splits.markSplitsForDelete
          (sources.map SplitRow.splitId))).setJob p .idle)
      else do
        let first ← sources.head?
        let splits ← s.splits.stageSplit newId first.streamId (appliedThrough ts) docs
        some ((s.setSplits splits).setJob p (.staged sources newId))
    | _ => none
  | .swap p =>
    match s.job p with
    | .staged sources newId =>
      match s.splits.swapSplits (sources.map SplitRow.splitId) newId with
      | some splits => some ((s.setSplits splits).setJob p .idle)
      | none => some (s.setJob p .idle)
    | _ => none
  | .markApplied p =>
    match s.job p with
    | .reading [source] ts =>
      if survivors ts source = source.docs then
        some ((s.setSplits (s.splits.markTombstonesApplied source.splitId
          (appliedThrough ts))).setJob p .idle)
      else none
    | _ => none
  | .fail p => some (s.setJob p .idle)
  | .sweepStaged id =>
    some (s.setSplits (s.splits.setState (fun r => r.splitId == id && r.state == .staged)
      .markedForDelete))
  | .tombstone t => some { s with tombstones := s.tombstones ++ [t] }
  | .publish id streamId docs =>
    if ∀ r ∈ s.splits.rows, ∀ d ∈ r.docs, ∀ d' ∈ docs, d.key ≠ d'.key then do
      let splits ← s.splits.stageSplit id streamId 0 docs
      some (s.setSplits (splits.setState (fun r => r.splitId == id) .published))
    else none

/-- What a step did: one case for each way through `step`. -/
inductive Steps [DecidableEq P] (s : State P) : Action P → State P → Prop
  | select (hsel : s.Selectable sources) : Steps s (.select q sources) (s.setJob q (.selected sources))
  | readTombstones (hjob : s.job q = .selected sources) (hts : seen ⊆ s.tombstones) :
      Steps s (.readTombstones q seen) (s.setJob q (.reading sources seen))
  | buildNothing (hjob : s.job q = .reading sources seen) (hnil : rebuilt fresh seen sources = []) :
      Steps s (.build q fresh made) ((s.setSplits (s.splits.markSplitsForDelete
        (sources.map SplitRow.splitId))).setJob q .idle)
  | build {splits : Splits} (hjob : s.job q = .reading sources seen)
      (hstage : s.splits.stageSplit made stream (appliedThrough seen) (rebuilt fresh seen sources)
        = some splits) :
      Steps s (.build q fresh made) ((s.setSplits splits).setJob q (.staged sources made))
  | swap {splits : Splits} (hjob : s.job q = .staged sources made)
      (hswap : s.splits.swapSplits (sources.map SplitRow.splitId) made = some splits) :
      Steps s (.swap q) ((s.setSplits splits).setJob q .idle)
  | swapFails : Steps s (.swap q) (s.setJob q .idle)
  | markApplied : Steps s (.markApplied q) ((s.setSplits (s.splits.markTombstonesApplied source
      (appliedThrough seen))).setJob q .idle)
  | fail : Steps s (.fail q) (s.setJob q .idle)
  | sweepStaged {id : String} : Steps s (.sweepStaged id) (s.setSplits (s.splits.setState
      (fun r => r.splitId == id && r.state == .staged) .markedForDelete))
  | tombstone : Steps s (.tombstone stone) { s with tombstones := s.tombstones ++ [stone] }
  | publish {id : String} {docs : List Doc} {splits : Splits}
      (hfresh : ∀ r ∈ s.splits.rows, ∀ d ∈ r.docs, ∀ d' ∈ docs, d.key ≠ d'.key)
      (hstage : s.splits.stageSplit id stream 0 docs = some splits) :
      Steps s (.publish id stream docs)
        (s.setSplits (splits.setState (fun r => r.splitId == id) .published))

/-! ## What is visible -/

def countKey (k : ℕ) (docs : List Doc) : ℕ := docs.countP fun d => d.key == k

def SplitRow.weight (k : ℕ) (r : SplitRow) : ℕ :=
  if r.state = .published then countKey k r.docs else 0

def State.copies (s : State P) (k : ℕ) : ℕ :=
  (s.splits.rows.map (SplitRow.weight k)).sum

def State.NotHidden (s : State P) (k : ℕ) : Prop :=
  ∀ r ∈ s.splits.rows, ∀ d ∈ r.docs, d.key = k → hidden s.tombstones r.streamId d = false

/-- **Visible exactly once, before and after**: a document with one published copy in `s₀` that no
tombstone hides in `s` has one published copy in `s`. -/
def ExactlyOnce (s₀ s : State P) : Prop :=
  ∀ k, s₀.copies k = 1 → s.NotHidden k → s.copies k = 1

def SourcesPublished (s : State P) : Action P → Prop
  | .swap p => ∀ src ∈ (s.job p).sources,
      ∃ r ∈ s.splits.rows, r.splitId = src.splitId ∧ r.state = .published
  | _ => True

instance (s : State P) (a : Action P) : Decidable (SourcesPublished s a) := by
  unfold SourcesPublished
  split <;> infer_instance

/-! ## Rows are never lost, contents never change -/

structure Extends (s s' : State P) : Prop where
  row : ∀ r ∈ s.splits.rows, ∃ r' ∈ s'.splits.rows,
    r'.splitId = r.splitId ∧ r'.streamId = r.streamId ∧ r'.docs = r.docs
  tombstones : s.tombstones ⊆ s'.tombstones

theorem Splits.mem_setState :
    r' ∈ (t.setState p st).rows ↔
      ∃ r ∈ t.rows, r' = if p r then { r with state := st } else r := by
  simp only [setState, List.mem_map, eq_comm]

theorem Splits.setState_row (p : SplitRow → Bool) (st : SplitState) (hr : r ∈ t.rows) :
    ∃ r' ∈ (t.setState p st).rows,
      r'.splitId = r.splitId ∧ r'.streamId = r.streamId ∧ r'.docs = r.docs := by
  refine ⟨_, mem_setState.mpr ⟨r, hr, rfl⟩, ?_⟩
  split <;> exact ⟨rfl, rfl, rfl⟩

theorem Splits.markTombstonesApplied_row (splitId : String) (through : ℤ) (hr : r ∈ t.rows) :
    ∃ r' ∈ (t.markTombstonesApplied splitId through).rows,
      r'.splitId = r.splitId ∧ r'.streamId = r.streamId ∧ r'.docs = r.docs := by
  refine ⟨_, mem_map_of_mem hr, ?_⟩
  split <;> exact ⟨rfl, rfl, rfl⟩

theorem Splits.stageSplit_rows (h : t.stageSplit splitId streamId applied docs = some t') :
    splitId ∉ t.rows.map SplitRow.splitId ∧
      t'.rows = ⟨splitId, streamId, .staged, applied, docs⟩ :: t.rows := by
  grind [stageSplit]

theorem Splits.stageSplit_row (h : t.stageSplit splitId streamId applied docs = some t')
    (hr : r ∈ t.rows) : ∃ r' ∈ t'.rows,
      r'.splitId = r.splitId ∧ r'.streamId = r.streamId ∧ r'.docs = r.docs := by
  rw [(stageSplit_rows h).2]
  grind

theorem Splits.swapSplits_row (h : t.swapSplits oldIds newId = some t') (hr : r ∈ t.rows) :
    ∃ r' ∈ t'.rows, r'.splitId = r.splitId ∧ r'.streamId = r.streamId ∧ r'.docs = r.docs := by
  unfold swapSplits at h
  dsimp only at h
  split at h
  · obtain ⟨r₁, hr₁, hid₁, hstream₁, hdocs₁⟩ :=
      setState_row (fun r => r.splitId == newId && r.state == .staged) .published hr
    obtain ⟨r₂, hr₂, hid₂, hstream₂, hdocs₂⟩ :=
      setState_row (fun r => oldIds.contains r.splitId) .markedForDelete hr₁
    grind
  · cases h

theorem Splits.eq_of_splitId (t : Splits) (hr : r ∈ t.rows) (hr' : r' ∈ t.rows)
    (h : r.splitId = r'.splitId) : r = r' :=
  inj_on_of_nodup_map t.uniqueIds hr hr' h

namespace Extends

theorem of_rows {s s' : State P} (htomb : s'.tombstones = s.tombstones)
    (hrow : ∀ r ∈ s.splits.rows, ∃ r' ∈ s'.splits.rows,
      r'.splitId = r.splitId ∧ r'.streamId = r.streamId ∧ r'.docs = r.docs) : Extends s s' :=
  ⟨hrow, htomb ▸ Subset.refl _⟩

theorem notHidden {s s' : State P} (h : Extends s s') {k : ℕ} (hk : s'.NotHidden k) :
    s.NotHidden k := by
  intro r hr d hd hkey
  obtain ⟨r', hr', -, hstream, hdocs⟩ := h.row r hr
  have hd' : d ∈ r'.docs := hdocs ▸ hd
  by_contra hne
  have hhid := hidden_mono h.tombstones (Bool.not_eq_false _ ▸ hne)
  rw [← hstream, hk r' hr' d hd' hkey] at hhid
  exact Bool.false_ne_true hhid

end Extends

variable [DecidableEq P]

variable {s s' : State P} {a : Action P}

theorem steps_of_step (h : step s a = some s') : Steps s a s' := by
  cases a <;> simp only [step] at h
  case select | readTombstones | markApplied =>
    split at h
    · split at h <;> cases h
      constructor <;> assumption
    · cases h
  case build =>
    split at h
    · split at h
      · cases h
        exact .buildNothing ‹_› ‹_›
      · obtain ⟨first, -, h⟩ := bind_eq_some_iff.mp h
        obtain ⟨splits, hstage, h⟩ := bind_eq_some_iff.mp h
        cases h
        exact .build ‹_› hstage
    · cases h
  case swap =>
    split at h
    · split at h <;> cases h
      · exact .swap ‹_› ‹_›
      · exact .swapFails
    · cases h
  case publish =>
    split at h
    · obtain ⟨splits, hstage, h⟩ := bind_eq_some_iff.mp h
      cases h
      exact .publish ‹_› hstage
    · cases h
  all_goals
    cases h
    constructor

theorem step_extends (h : step s a = some s') : Extends s s' := by
  have hsame : ∀ r ∈ s.splits.rows, ∃ r' ∈ s.splits.rows,
      r'.splitId = r.splitId ∧ r'.streamId = r.streamId ∧ r'.docs = r.docs :=
    fun r hr => ⟨r, hr, rfl, rfl, rfl⟩
  cases steps_of_step h with
  | select | readTombstones | swapFails | fail => exact .of_rows rfl hsame
  | buildNothing | sweepStaged => exact .of_rows rfl fun r hr => setState_row _ _ hr
  | build _ hstage => exact .of_rows rfl fun r hr => stageSplit_row hstage hr
  | swap _ hswap => exact .of_rows rfl fun r hr => swapSplits_row hswap hr
  | markApplied => exact .of_rows rfl fun r hr => markTombstonesApplied_row _ _ hr
  | tombstone => exact ⟨hsame, subset_append_left _ _⟩
  | publish _ hstage =>
    refine .of_rows rfl fun r hr => ?_
    obtain ⟨r₁, hr₁, hid₁, hstream₁, hdocs₁⟩ := stageSplit_row hstage hr
    obtain ⟨r₂, hr₂, hid₂, hstream₂, hdocs₂⟩ := setState_row _ .published hr₁
    exact ⟨r₂, hr₂, hid₂.trans hid₁, hstream₂.trans hstream₁, hdocs₂.trans hdocs₁⟩

/-! ## What a job knows -/

/-- What stays true of a job while it runs: its sources are (still) rows of the table with the
contents it read, and the split it staged holds what it rebuilt from them. -/
structure JobOk (s : State P) (j : Job) : Prop where
  nodup : (j.sources.map SplitRow.splitId).Nodup
  source : ∀ src ∈ j.sources, ∃ r ∈ s.splits.rows,
    r.splitId = src.splitId ∧ r.streamId = src.streamId ∧ r.docs = src.docs
  read : ∀ sources ts, j = .reading sources ts → ts ⊆ s.tombstones
  staged : ∀ sources newId, j = .staged sources newId →
    newId ∉ sources.map SplitRow.splitId ∧
      ∃ r ∈ s.splits.rows, r.splitId = newId ∧
        ∃ fresh ts, ts ⊆ s.tombstones ∧ r.docs = rebuilt fresh ts sources

omit [DecidableEq P] in
theorem JobOk.idle (s : State P) : JobOk s .idle where
  nodup := nodup_nil
  source := fun src hsrc => absurd hsrc not_mem_nil
  read := fun _ _ h => by cases h
  staged := fun _ _ h => by cases h

omit [DecidableEq P] in
theorem JobOk.mono {s s' : State P} (hext : Extends s s') (h : JobOk s j) :
    JobOk s' j where
  nodup := h.nodup
  source := by
    intro src hsrc
    obtain ⟨r, hr, hid, hstream, hdocs⟩ := h.source src hsrc
    obtain ⟨r', hr', hid', hstream', hdocs'⟩ := hext.row r hr
    grind
  read := fun sources ts hj _ ht => hext.tombstones (h.read sources ts hj ht)
  staged := by
    intro sources newId hj
    obtain ⟨hnew, r, hr, hid, fresh, ts, hts, hdocs⟩ := h.staged sources newId hj
    obtain ⟨r', hr', hid', -, hdocs'⟩ := hext.row r hr
    exact ⟨hnew, r', hr', hid'.trans hid, fresh, ts, fun _ ht => hext.tombstones (hts ht), hdocs'.trans hdocs⟩

def JobsOk (s : State P) : Prop := ∀ p, JobOk s (s.job p)

theorem JobsOk.setJob {s : State P} (h : JobsOk s) {p : P} (hj : JobOk s j) :
    JobsOk (s.setJob p j) := by
  have hext : Extends s (s.setJob p j) := .of_rows rfl fun r hr => ⟨r, hr, rfl, rfl, rfl⟩
  intro q
  simp only [State.setJob, Function.update_apply]
  split
  · exact hj.mono hext
  · exact (h q).mono hext

omit [DecidableEq P] in
theorem JobsOk.setSplits {s : State P} (h : JobsOk s) {splits : Splits}
    (hrow : ∀ r ∈ s.splits.rows, ∃ r' ∈ splits.rows,
      r'.splitId = r.splitId ∧ r'.streamId = r.streamId ∧ r'.docs = r.docs) :
    JobsOk (s.setSplits splits) := by
  have hext : Extends s (s.setSplits splits) := .of_rows rfl hrow
  exact fun q => (h q).mono hext

theorem step_jobsOk (hok : JobsOk s) (h : step s a = some s') : JobsOk s' := by
  have hext := step_extends h
  cases steps_of_step h with
  | select hsel =>
    obtain ⟨-, hnodup, hrows, -⟩ := hsel
    refine hok.setJob ⟨hnodup, fun src hsrc => ⟨src, (hrows src hsrc).1, rfl, rfl, rfl⟩, ?_, ?_⟩
    · intro _ _ hj
      cases hj
    · intro _ _ hj
      cases hj
  | readTombstones hjob hts =>
    have hp := hjob ▸ hok _
    refine hok.setJob ⟨hp.nodup, hp.source, ?_, ?_⟩
    · grind
    · intro _ _ hj
      cases hj
  | buildNothing =>
    exact (hok.setSplits fun r hr => setState_row _ _ hr).setJob (JobOk.idle _)
  | build hjob hstage =>
    have hp := hjob ▸ hok _
    obtain ⟨hfresh, hrows⟩ := stageSplit_rows hstage
    refine (hok.setSplits fun r hr => stageSplit_row hstage hr).setJob
      ⟨hp.nodup, (hp.mono hext).source, ?_, ?_⟩
    · intro _ _ hj
      cases hj
    · intro _ _ hj
      cases hj
      refine ⟨?_, _, hrows ▸ mem_cons_self, rfl, _, _, hp.read _ _ rfl, rfl⟩
      -- The sources are rows of the table, and `newId` was not an id of the table.
      intro hmem
      obtain ⟨src, hsrc, hid⟩ := mem_map.mp hmem
      obtain ⟨r, hr, hid', -⟩ := hp.source src hsrc
      grind
  | swap _ hswap => exact (hok.setSplits fun r hr => swapSplits_row hswap hr).setJob (JobOk.idle _)
  | markApplied =>
    exact (hok.setSplits fun r hr => markTombstonesApplied_row _ _ hr).setJob (JobOk.idle _)
  | swapFails | fail => exact hok.setJob (JobOk.idle _)
  | sweepStaged | tombstone | publish => exact fun q => (hok q).mono hext

/-! ## Copies are conserved -/

theorem countKey_eq_zero (h : ∀ d ∈ docs, d.key ≠ k) : countKey k docs = 0 :=
  countP_eq_zero.mpr fun d hd => by simpa using h d hd

theorem countKey_survivors (hnot : ∀ d ∈ r.docs, d.key = k → hidden ts r.streamId d = false) :
    countKey k (survivors ts r) = countKey k r.docs := by
  unfold countKey survivors
  rw [countP_filter]
  refine countP_congr fun d hd => ?_
  simp only [Bool.and_eq_true, beq_iff_eq, and_iff_left_iff_imp]
  intro hkey
  rw [Bool.not_eq_true', ← Bool.not_eq_true]
  intro hhid
  have := hidden_mono (filter_subset_self _) hhid
  grind

theorem countKey_mapIdx_identity (fresh : ℕ → String) (k : ℕ) (docs : List Doc) :
    countKey k (docs.mapIdx (identity fresh)) = countKey k docs := by
  have hkeys : (docs.mapIdx (identity fresh)).map Doc.key = docs.map Doc.key := by
    apply ext_getElem
    · simp
    · simp
  have hcount : ∀ l : List Doc, countKey k l = (l.map Doc.key).count k := by
    intro l
    rw [count_eq_countP, countP_map]
    rfl
  rw [hcount, hcount, hkeys]

theorem countKey_rebuilt (fresh : ℕ → String) {sources : List SplitRow}
    (hnot : ∀ r ∈ sources, ∀ d ∈ r.docs, d.key = k → hidden ts r.streamId d = false) :
    countKey k (rebuilt fresh ts sources) =
      (sources.map fun r => countKey k r.docs).sum := by
  unfold rebuilt
  rw [countKey_mapIdx_identity]
  unfold countKey
  rw [countP_flatMap]
  refine congrArg sum (map_congr_left fun r hr => ?_)
  exact countKey_survivors (hnot r hr)

omit [DecidableEq P] in
theorem JobOk.source_notHidden {s : State P} (hj : JobOk s j) (hnot : s.NotHidden k)
    (hts : ts ⊆ s.tombstones) :
    ∀ r ∈ j.sources, ∀ d ∈ r.docs, d.key = k → hidden ts r.streamId d = false := by
  intro src hsrc d hd hkey
  obtain ⟨r, hr, -, hstream, hdocs⟩ := hj.source src hsrc
  rw [← Bool.not_eq_true]
  intro hhid
  have := hidden_mono hts hhid
  rw [← hstream, hnot r hr d (hdocs ▸ hd) hkey] at this
  exact Bool.false_ne_true this

def swapRow (oldIds : List String) (newId : String) (r : SplitRow) : SplitRow :=
  if r.splitId ∈ oldIds then { r with state := .markedForDelete }
  else if r.splitId = newId ∧ r.state = .staged then { r with state := .published } else r

theorem Splits.swapSplits_rows (h : t.swapSplits oldIds newId = some t') :
    t'.rows = t.rows.map (swapRow oldIds newId) ∧
      ∃ r ∈ t.rows, r.splitId = newId ∧ r.state = .staged := by
  unfold swapSplits at h
  dsimp only at h
  split at h
  · cases h
    constructor
    · simp only [setState, List.map_map]
      refine map_congr_left fun r _ => ?_
      grind [swapRow]
    · grind
  · cases h

theorem weight_swapRow (hnew : newId ∉ oldIds) (hstaged : r.splitId = newId → r.state = .staged) :
    (swapRow oldIds newId r).weight k + (if r.splitId ∈ oldIds then r.weight k else 0) =
      r.weight k + (if r.splitId = newId then countKey k r.docs else 0) := by
  grind [weight, swapRow]

theorem weight_swapSplits {sources : List SplitRow}
    (hswap : t.swapSplits (sources.map SplitRow.splitId) newId = some t')
    (hnodup : (sources.map SplitRow.splitId).Nodup) (hnew : newId ∉ sources.map SplitRow.splitId)
    (hsrc : ∀ src ∈ sources, ∃ r ∈ t.rows,
      r.splitId = src.splitId ∧ r.weight k = countKey k src.docs) {row : SplitRow} (hrow : row ∈ t.rows)
    (hid : row.splitId = newId)
    (hcount : countKey k row.docs = (sources.map fun r => countKey k r.docs).sum) :
    (t'.rows.map (SplitRow.weight k)).sum = (t.rows.map (SplitRow.weight k)).sum := by
  obtain ⟨hrows, r, hr, hrid, hstaged⟩ := swapSplits_rows hswap
  obtain rfl : row = r := t.eq_of_splitId hrow hr (hid.trans hrid.symm)
  have hpointwise : ∀ x ∈ t.rows, (swapRow (sources.map SplitRow.splitId) newId x).weight k +
          (if x.splitId ∈ sources.map SplitRow.splitId then x.weight k else 0) =
        x.weight k + (if x.splitId = row.splitId then countKey k x.docs else 0) := by
    intro x hx
    rw [hid]
    refine weight_swapRow hnew fun hxid => ?_
    rw [t.eq_of_splitId hx hrow (hxid.trans hid.symm)]
    exact hstaged
  have hsum := congrArg List.sum (map_congr_left hpointwise)
  rw [sum_map_add, sum_map_add, KeyedSum.sum_ite_key_mem SplitRow.splitId t.uniqueIds _ SplitRow.splitId
      (fun src => countKey k src.docs) hnodup hsrc,
    KeyedSum.sum_ite_key_eq SplitRow.splitId t.uniqueIds hrow, hcount] at hsum
  rw [hrows, List.map_map]
  exact Nat.add_right_cancel hsum

theorem weight_setState (h : ∀ r ∈ t.rows, p r = true →
      countKey k r.docs = 0 ∨ r.state ≠ .published ∧ st ≠ .published) :
    ((t.setState p st).rows.map (weight k)).sum =
      (t.rows.map (weight k)).sum := by
  simp only [setState, List.map_map]
  refine congrArg List.sum (map_congr_left fun r hr => ?_)
  simp only [Function.comp_apply]
  split
  · rename_i hp
    rcases h r hr hp with hzero | ⟨hbefore, hafter⟩
    · simp [weight, hzero]
    · simp [weight, hbefore, hafter]
  · rfl

omit [DecidableEq P] in
theorem JobOk.countKey_eq_zero_of_rebuilt {s : State P} {sources : List SplitRow}
    (hj : JobOk s (.reading sources ts)) {fresh : ℕ → String} (hnot : s.NotHidden k)
    (hnil : rebuilt fresh ts sources = []) (hr : r ∈ s.splits.rows)
    (hmem : r.splitId ∈ sources.map SplitRow.splitId) : countKey k r.docs = 0 := by
  obtain ⟨src, hsrc, hid⟩ := mem_map.mp hmem
  obtain ⟨r', hr', hid', -, hdocs⟩ := hj.source src hsrc
  have hcount := countKey_rebuilt fresh (hj.source_notHidden hnot (hj.read _ _ rfl))
  rw [Job.sources, hnil, countKey, countP_nil, eq_comm, sum_eq_zero_iff] at hcount
  rw [s.splits.eq_of_splitId hr hr' (hid.symm.trans hid'.symm), hdocs]
  exact hcount _ (mem_map_of_mem hsrc)

theorem step_copies (hok : JobsOk s) (hpub : SourcesPublished s a)
    (h : step s a = some s') (hstored : ∃ r ∈ s.splits.rows, ∃ d ∈ r.docs, d.key = k)
    (hnot' : s'.NotHidden k) : s'.copies k = s.copies k := by
  have hnot : s.NotHidden k := (step_extends h).notHidden hnot'
  cases steps_of_step h with
  | select | readTombstones | swapFails | fail | tombstone => rfl
  | buildNothing hjob hnil =>
    refine weight_setState fun r hr hmem => Or.inl ?_
    simp only [Bool.and_eq_true, contains_iff_mem] at hmem
    exact (hjob ▸ hok _).countKey_eq_zero_of_rebuilt hnot hnil hr hmem.1
  | @build _ _ _ _ _ _ splits _ hstage =>
    change (splits.rows.map (SplitRow.weight k)).sum = _
    rw [(stageSplit_rows hstage).2, map_cons, sum_cons]
    exact Nat.zero_add _
  | swap hjob hswap =>
    have hp := hjob ▸ hok _
    obtain ⟨hnew, row, hrow, hid, fresh, ts, hts, hdocs⟩ := hp.staged _ _ rfl
    refine weight_swapSplits hswap hp.nodup hnew ?_ hrow hid
      (hdocs ▸ countKey_rebuilt fresh (hp.source_notHidden hnot hts))
    intro src hsrc
    obtain ⟨r, hr, hrid, -, hrdocs⟩ := hp.source src hsrc
    obtain ⟨r', hr', hrid', hstate⟩ := hpub src (by rw [hjob]; exact hsrc)
    obtain rfl : r = r' := s.splits.eq_of_splitId hr hr' (hrid.trans hrid'.symm)
    grind [SplitRow.weight]
  | markApplied =>
    simp only [State.copies, State.setJob, State.setSplits, markTombstonesApplied, List.map_map]
    refine congrArg List.sum (map_congr_left fun r _ => ?_)
    simp only [Function.comp_apply]
    split <;> rfl
  | sweepStaged =>
    refine weight_setState fun r _ hp => Or.inr ?_
    grind
  | @publish _ id docs splits hfreshKeys hstage =>
    obtain ⟨r, hr, d, hd, hkey⟩ := hstored
    obtain ⟨hfresh, hrows⟩ := stageSplit_rows hstage
    have hzero : countKey k docs = 0 :=
      countKey_eq_zero fun d' hd' heq => hfreshKeys r hr d hd d' hd' (hkey.trans heq.symm)
    have hstate : ∀ x ∈ splits.rows, (x.splitId == id) = true →
        countKey k x.docs = 0 ∨ x.state ≠ .published ∧ SplitState.published ≠ .published := by
      grind
    refine (weight_setState hstate).trans ?_
    rw [hrows, map_cons, sum_cons]
    exact Nat.zero_add _

/-! ## Whole runs -/

def State.Quiet (s : State P) : Prop := ∀ p, s.job p = .idle

omit [DecidableEq P] in
theorem stored_of_copies {s : State P} (h : s.copies k ≠ 0) :
    ∃ r ∈ s.splits.rows, ∃ d ∈ r.docs, d.key = k := by
  by_contra hnone
  refine h (sum_eq_zero fun n hn => ?_)
  grind [countKey_eq_zero, weight]

/-- **Every run in which the swaps find their sources published keeps every document visible
exactly once** — any number of processes, any groups, any failures, any order. -/
theorem rebuild_exactly_once_of_sourcesPublished {s₀ s : State P} {as : List (Action P)}
    (hquiet : s₀.Quiet) (hrun : Runs.run step s₀ as = some s)
    (hpub : Runs.Along step SourcesPublished s₀ as) : ExactlyOnce s₀ s := by
  intro k hone hnot
  have hinv : (JobsOk s ∧ ∃ r ∈ s.splits.rows, ∃ d ∈ r.docs, d.key = k) ∧
      (s.NotHidden k → s.copies k = 1) := by
    refine Runs.run_invariant step (I := fun s => (JobsOk s ∧ ∃ r ∈ s.splits.rows, ∃ d ∈ r.docs,
      d.key = k) ∧ (s.NotHidden k → s.copies k = 1)) ?_ ?_ hpub hrun
    · rintro s a s' ⟨⟨hok, hstored⟩, hcopies⟩ hcond hstep
      have hext := step_extends hstep
      refine ⟨⟨step_jobsOk hok hstep, ?_⟩, fun hnot' => ?_⟩
      · obtain ⟨r, hr, d, hd, hkey⟩ := hstored
        obtain ⟨r', hr', -, -, hdocs⟩ := hext.row r hr
        exact ⟨r', hr', d, hdocs ▸ hd, hkey⟩
      · rw [step_copies hok hcond hstep hstored hnot']
        exact hcopies (hext.notHidden hnot')
    · refine ⟨⟨fun p => ?_, stored_of_copies (by omega)⟩, fun _ => hone⟩
      rw [hquiet p]
      exact JobOk.idle s₀
  exact hinv.2 hnot

/-! ## Two leaders -/

def sourceS : SplitRow := ⟨"s", 1, .published, 0, [⟨7, some "a", 3⟩]⟩

def sourceT : SplitRow := ⟨"t", 1, .published, 0, [⟨8, some "b", 4⟩, ⟨9, none, 5⟩]⟩

/-- Two published splits, and two control planes that both believe they lead. -/
def twoSplits : State (Fin 2) where
  splits := ⟨[sourceS, sourceT], by decide⟩
  tombstones := []
  job := fun _ => .idle

/-- Each leader rewrites a split of its own, and their steps alternate; a tombstone for an older version
of `a` is written in between. -/
def apartLeaders : List (Action (Fin 2)) :=
  [.select 0 [sourceS], .select 1 [sourceT], .readTombstones 0 [], .tombstone ⟨1, 1, "a", 2⟩,
    .readTombstones 1 [⟨1, 1, "a", 2⟩], .build 1 (fun _ => "v") "m1", .build 0 (fun _ => "u") "m0",
    .swap 1, .swap 0]

/-- The swaps of both leaders find their sources published, and every document stays visible once. -/
theorem rebuild_exactly_once_apartLeaders :
    ∃ s, Runs.run step twoSplits apartLeaders = some s ∧ ExactlyOnce twoSplits s ∧
      s.copies 7 = 1 ∧ s.copies 8 = 1 ∧ s.copies 9 = 1 := by
  have hpub : Runs.Along step SourcesPublished twoSplits apartLeaders := by decide
  exact ⟨_, rfl, rebuild_exactly_once_of_sourcesPublished (fun _ => rfl)
    (rfl : Runs.run step twoSplits apartLeaders = some _) hpub, by decide⟩

/-- Both leaders rewrite the same split. -/
def twoLeaders : List (Action (Fin 2)) :=
  [.select 0 [sourceS], .readTombstones 0 [], .select 1 [sourceS], .readTombstones 1 [],
    .build 0 (fun _ => "u") "m0", .build 1 (fun _ => "u") "m1", .swap 0, .swap 1]

/-- **Two leaders can publish a document twice.**  The second swap finds its source already marked
for delete and publishes the second copy all the same. -/
theorem two_leaders_publish_twice :
    ¬ ∀ (s₀ s : State (Fin 2)) (as : List (Action (Fin 2))),
      s₀.Quiet → Runs.run step s₀ as = some s → ExactlyOnce s₀ s := by
  intro hclaim
  have h := hclaim twoSplits _ twoLeaders (fun _ => rfl) rfl 7 (by decide)
    (by intro r _ d _ _; rfl)
  revert h
  decide

end RSearch.Control
