import RSearch.Visibility.Exclusions

/-!
# The metastore's tombstone table

What decides which document versions are visible: the `doc_tombstones` table, the `splits` table
(`Control.Splits`), and the database clock.  Every function here is one transaction.
-/

namespace RSearch.Visibility

open List Control

structure Row extends Tombstone where
  createdAt : ℕ
deriving DecidableEq

structure NewTombstone where
  streamId : ℤ
  docId : String
  beforeSeq : ℤ
deriving DecidableEq

def Row.keyed (row : Row) (streamId : ℤ) (docId : String) : Bool :=
  row.streamId == streamId && row.docId == docId

theorem Row.keyed_iff {row : Row} {streamId : ℤ} {docId : String} :
    row.keyed streamId docId = true ↔ row.streamId = streamId ∧ row.docId = docId := by
  simp [Row.keyed]

def live (r : SplitRow) : Bool := r.state != .markedForDelete

structure Store where
  /-- `now()` of the database. -/
  clock : ℕ
  /-- The next value of the tombstone sequence. -/
  nextSeq : ℤ
  /-- `doc_tombstones`, in sequence order. -/
  tombstones : List Row
  splits : Splits
  /-- History: the bounds passed to `upsert_tombstones` so far. -/
  issued : List NewTombstone
  /-- History: every row version committed so far. -/
  committed : List Row
  /-- History: the rows deleted from the table. -/
  removed : List Row

def Store.init : Store where
  clock := 0
  nextSeq := 1
  tombstones := []
  splits := ⟨[], nodup_nil⟩
  issued := []
  committed := []
  removed := []

namespace Store

/-! ## Transactions on the tombstones -/

/-- `GROUP BY stream_id, doc_id` with `MAX(before_seq)`: the duplicates of a batch collapse. -/
def collapse (items : List NewTombstone) : List NewTombstone :=
  (items.filter fun t => items.all fun u =>
    !(u.streamId == t.streamId && u.docId == t.docId) || decide (u.beforeSeq ≤ t.beforeSeq)).dedup

/-- `ON CONFLICT (stream_id, doc_id) DO UPDATE … WHERE EXCLUDED.before_seq > before_seq` for one
bound; a row that is inserted or raised draws a new sequence, `gap` past the next value (other
streams draw from the same sequence). -/
def upsertOne (gap : ℕ) (s : Store) (t : NewTombstone) : Store :=
  if s.tombstones.any fun row => row.keyed t.streamId t.docId && decide (t.beforeSeq ≤ row.beforeSeq)
  then { s with issued := s.issued ++ [t] }
  else
    let row : Row := ⟨⟨t.streamId, s.nextSeq + gap, t.docId, t.beforeSeq⟩, s.clock⟩
    { s with
      nextSeq := row.seq + 1
      tombstones := s.tombstones.filter (fun old => !old.keyed t.streamId t.docId) ++ [row]
      issued := s.issued ++ [t]
      committed := s.committed ++ [row] }

def upsertTombstones (s : Store) (items : List NewTombstone) (gap : ℕ) : Store :=
  let s' := (collapse items).foldl (upsertOne gap) s
  { s' with issued := s.issued ++ items }

def tombstonesSince (s : Store) (streamId after : ℤ) (limit : ℕ) : List Row :=
  Feed.since (fun row => row.seq) (s.tombstones.filter fun row => row.streamId == streamId) after
    limit

/-- What `purge_tombstones` may delete: rows past the grace period that every staged or published
split of their stream with a `seq_min` has applied. -/
def purgeable (grace : ℕ) (s : Store) (row : Row) : Bool :=
  decide (row.createdAt + grace < s.clock) &&
    s.splits.rows.all fun r =>
      !(r.streamId == row.streamId && live r && (seqMin r.docs).isSome) ||
        decide (row.seq ≤ r.tombstoneSeqApplied)

def removeRows (s : Store) (p : Row → Bool) : Store :=
  { s with
    tombstones := s.tombstones.filter fun row => !p row
    removed := s.removed ++ s.tombstones.filter p }

/-- `purge_tombstones`: the rows with the picked sequences (the oldest ones, up to a limit), as far
as they may be deleted. -/
def purgeTombstones (grace : ℕ) (s : Store) (picked : List ℤ) : Store :=
  s.removeRows fun row => picked.contains row.seq && s.purgeable grace row

/-- `retire_stream`: the index is deleted, its splits marked and its tombstones dropped. -/
def retireStream (s : Store) (streamId : ℤ) : Store :=
  let s' := s.removeRows fun row => row.streamId == streamId
  { s' with splits := s.splits.setState (fun r => r.streamId == streamId) .markedForDelete }

def withSplits (s : Store) (splits : Splits) : Store := { s with splits }

/-! ## What holds of the table -/

def Covered (rows : List Row) (streamId : ℤ) (docId : String) (beforeSeq : ℤ) : Prop :=
  ∃ row ∈ rows, row.streamId = streamId ∧ row.docId = docId ∧ beforeSeq ≤ row.beforeSeq

instance (rows : List Row) (streamId : ℤ) (docId : String) (beforeSeq : ℤ) :
    Decidable (Covered rows streamId docId beforeSeq) :=
  inferInstanceAs (Decidable (∃ row ∈ rows, _))

variable {rows : List Row} {row : Row} {streamId beforeSeq : ℤ} {docId : String} {s s' : Store}
  {t : NewTombstone} {items : List NewTombstone} {t' splits : Splits}

theorem Covered.below (h : Covered rows row.streamId row.docId row.beforeSeq) {d : Doc}
    (hbelow : below row.toTombstone d = true) :
    ∃ row' ∈ rows, row'.streamId = row.streamId ∧ Visibility.below row'.toTombstone d = true := by
  obtain ⟨row', hrow', hstream, hdoc, hle⟩ := h
  grind [below_iff]

theorem Covered.mono {rows' : List Row} (hsub : rows ⊆ rows')
    (h : Covered rows streamId docId beforeSeq) : Covered rows' streamId docId beforeSeq := by
  obtain ⟨row, hrow, hcov⟩ := h
  exact ⟨row, hsub hrow, hcov⟩

structure Ok (s : Store) : Prop where
  pos : 0 < s.nextSeq
  sorted : Feed.Sorted (fun row : Row => row.seq) s.tombstones
  /-- Sequences are handed out once and start at 1. -/
  seq_mem : ∀ row ∈ s.committed, 0 < row.seq ∧ row.seq < s.nextSeq
  table_sub : s.tombstones ⊆ s.committed
  removed_sub : s.removed ⊆ s.committed
  createdAt_le : ∀ row ∈ s.committed, row.createdAt ≤ s.clock
  /-- A bound is lost only by deleting the row that carries it. -/
  covered : ∀ t ∈ s.issued, Covered s.tombstones t.streamId t.docId t.beforeSeq ∨
    Covered s.removed t.streamId t.docId t.beforeSeq
  /-- Every row version goes back to an upsert. -/
  issued : ∀ row ∈ s.committed, ⟨row.streamId, row.docId, row.beforeSeq⟩ ∈ s.issued
  /-- A split never claims more than has been sequenced. -/
  applied : ∀ r ∈ s.splits.rows, 0 ≤ r.tombstoneSeqApplied ∧ r.tombstoneSeqApplied < s.nextSeq

theorem Ok.covered_committed (h : s.Ok) (hrow : row ∈ s.committed) :
    Covered s.tombstones row.streamId row.docId row.beforeSeq ∨
      Covered s.removed row.streamId row.docId row.beforeSeq :=
  h.covered _ (h.issued row hrow)

theorem Ok.init : Store.init.Ok where
  pos := Int.one_pos
  sorted := List.Pairwise.nil
  seq_mem := fun _ h => by cases h
  table_sub := Subset.refl _
  removed_sub := Subset.refl _
  createdAt_le := fun _ h => by cases h
  covered := fun _ h => by cases h
  issued := fun _ h => by cases h
  applied := fun _ h => by cases h

/-! ## What a transaction can do -/

/-- **How the store moves on**: sequences and time only go up, new row versions come above every
sequence handed out so far, nothing of the history is forgotten, and a split keeps its contents. -/
structure Later (s s' : Store) : Prop where
  nextSeq : s.nextSeq ≤ s'.nextSeq
  clock : s.clock ≤ s'.clock
  table : ∀ row ∈ s'.tombstones, row ∈ s.tombstones ∨ s.nextSeq ≤ row.seq
  committed_sub : s.committed ⊆ s'.committed
  committed : ∀ row ∈ s'.committed, row ∈ s.committed ∨ s.nextSeq ≤ row.seq ∧ s.clock ≤ row.createdAt
  removed : s.removed ⊆ s'.removed
  splits : ∀ r ∈ s.splits.rows, ∃ r' ∈ s'.splits.rows, r'.splitId = r.splitId ∧
    r'.streamId = r.streamId ∧ r'.docs = r.docs ∧ r.tombstoneSeqApplied ≤ r'.tombstoneSeqApplied

theorem Later.refl (s : Store) : s.Later s where
  nextSeq := le_rfl
  clock := le_rfl
  table := fun _ => .inl
  committed_sub := Subset.refl _
  committed := fun _ => .inl
  removed := Subset.refl _
  splits := fun r hr => ⟨r, hr, rfl, rfl, rfl, le_rfl⟩

theorem Later.trans {s'' : Store} (h : s.Later s') (h' : s'.Later s'') : s.Later s'' where
  nextSeq := h.nextSeq.trans h'.nextSeq
  clock := h.clock.trans h'.clock
  table := fun row hrow => by
    rcases h'.table row hrow with hold | hnew
    · exact h.table row hold
    · exact .inr (h.nextSeq.trans hnew)
  committed_sub := Subset.trans h.committed_sub h'.committed_sub
  committed := fun row hrow => by
    rcases h'.committed row hrow with hold | ⟨hseq, htime⟩
    · exact h.committed row hold
    · exact .inr ⟨h.nextSeq.trans hseq, h.clock.trans htime⟩
  removed := Subset.trans h.removed h'.removed
  splits := fun r hr => by
    obtain ⟨r', hr', hid, hstream, hdocs, hle⟩ := h.splits r hr
    obtain ⟨r'', hr'', hid', hstream', hdocs', hle'⟩ := h'.splits r' hr'
    grind

theorem Later.mem_of_seq_lt (h : s.Later s') (hrow : row ∈ s'.committed) (hlt : row.seq < s.nextSeq) :
    row ∈ s.committed := by
  rcases h.committed row hrow with hold | ⟨hseq, -⟩
  · exact hold
  · exact absurd hlt hseq.not_gt

theorem Later.mem_of_createdAt_lt (h : s.Later s') (hrow : row ∈ s'.committed)
    (hlt : row.createdAt < s.clock) : row ∈ s.committed := by
  rcases h.committed row hrow with hold | ⟨-, htime⟩
  · exact hold
  · exact absurd hlt htime.not_gt

/-! ### Upserts -/

def newRow (s : Store) (gap : ℕ) (t : NewTombstone) : Row :=
  ⟨⟨t.streamId, s.nextSeq + gap, t.docId, t.beforeSeq⟩, s.clock⟩

theorem upsertOne_cases (s : Store) (gap : ℕ) (t : NewTombstone) :
    (Covered s.tombstones t.streamId t.docId t.beforeSeq ∧
      s.upsertOne gap t = { s with issued := s.issued ++ [t] }) ∨
    ((∀ row ∈ s.tombstones, row.keyed t.streamId t.docId = true → row.beforeSeq < t.beforeSeq) ∧
      s.upsertOne gap t = { s with
          nextSeq := s.nextSeq + gap + 1
          tombstones := s.tombstones.filter (fun old => !old.keyed t.streamId t.docId) ++ [s.newRow gap t]
          issued := s.issued ++ [t]
          committed := s.committed ++ [s.newRow gap t] }) := by
  unfold upsertOne
  split
  · next hany =>
      obtain ⟨row, hrow, hkey⟩ := any_eq_true.mp hany
      obtain ⟨hkeyed, hle⟩ := Bool.and_eq_true_iff.mp hkey
      obtain ⟨hstream, hdoc⟩ := Row.keyed_iff.mp hkeyed
      exact .inl ⟨⟨row, hrow, hstream, hdoc, of_decide_eq_true hle⟩, rfl⟩
  · next hnone =>
      refine .inr ⟨fun row hrow hkey => ?_, rfl⟩
      grind

theorem Later.upsertOne (s : Store) (gap : ℕ) (t : NewTombstone) : s.Later (s.upsertOne gap t) := by
  obtain ⟨-, heq⟩ | ⟨-, heq⟩ := s.upsertOne_cases gap t <;> rw [heq]
  · exact { Later.refl s with }
  · have hseq : s.nextSeq ≤ (s.newRow gap t).seq := by
      simp only [newRow]
      omega
    refine { Later.refl s with nextSeq := ?_, table := ?_, committed_sub := ?_, committed := ?_ }
    · dsimp only
      omega
    · grind
    · exact subset_append_left _ _
    · intro row hrow
      rcases mem_append.mp hrow with hold | hnew
      · exact .inl hold
      · rw [mem_singleton.mp hnew]
        exact .inr ⟨hseq, le_rfl⟩

theorem Covered.raise {row' : Row} (hstream' : row'.streamId = t.streamId) (hdoc' : row'.docId = t.docId)
    (hweaker : ∀ row ∈ rows, row.keyed t.streamId t.docId = true → row.beforeSeq < row'.beforeSeq)
    (h : Covered rows streamId docId beforeSeq) :
    Covered (rows.filter (fun old => !old.keyed t.streamId t.docId) ++ [row']) streamId docId
      beforeSeq := by
  obtain ⟨row, hrow, hstream, hdoc, hle⟩ := h
  by_cases hkey : row.keyed t.streamId t.docId = true
  · obtain ⟨hs, hd⟩ := Row.keyed_iff.mp hkey
    refine ⟨row', mem_append_right _ (mem_singleton_self _), ?_, ?_, ?_⟩
    · rw [hstream', ← hs, hstream]
    · rw [hdoc', ← hd, hdoc]
    · exact hle.trans (hweaker row hrow hkey).le
  · refine ⟨row, mem_append_left _ (mem_filter.mpr ⟨hrow, ?_⟩), hstream, hdoc, hle⟩
    rw [Bool.eq_false_iff.mpr hkey]
    rfl

theorem Ok.upsertOne (h : s.Ok) (gap : ℕ) (t : NewTombstone) : (s.upsertOne gap t).Ok := by
  obtain ⟨hcov, heq⟩ | ⟨hweaker, heq⟩ := s.upsertOne_cases gap t <;> rw [heq]
  · refine { h with covered := ?_, issued := ?_ }
    · intro u hu
      rcases mem_append.mp hu with hold | hnew
      · exact h.covered u hold
      · grind
    · exact fun row hrow => mem_append_left _ (h.issued row hrow)
  · have hpos := h.pos
    have hlt : ∀ row ∈ s.committed, row.seq < s.nextSeq + gap := fun row hrow => by
      have := (h.seq_mem row hrow).2
      omega
    have hold : ∀ row ∈ s.tombstones.filter fun old => !old.keyed t.streamId t.docId,
        row ∈ s.committed := fun row hrow => h.table_sub (mem_of_mem_filter hrow)
    refine ⟨?_, ?_, ?_, ?_, ?_, ?_, ?_, ?_, ?_⟩
    · dsimp only
      omega
    · exact (h.sorted.filter _).concat fun row hrow => hlt row (hold row hrow)
    · intro row hrow
      dsimp only
      rcases mem_append.mp hrow with hmem | hmem
      · have := h.seq_mem row hmem
        omega
      · rw [mem_singleton.mp hmem]
        simp only [newRow]
        omega
    · grind
    · exact fun row hrow => mem_append_left _ (h.removed_sub hrow)
    · intro row hrow
      rcases mem_append.mp hrow with hmem | hmem
      · exact h.createdAt_le row hmem
      · rw [mem_singleton.mp hmem]
        exact le_rfl
    · intro u hu
      rcases mem_append.mp hu with hmem | hmem
      · exact (h.covered u hmem).imp_left (Covered.raise rfl rfl hweaker)
      · rw [mem_singleton.mp hmem]
        exact .inl ⟨_, mem_append_right _ (mem_singleton_self _), rfl, rfl, le_rfl⟩
    · intro row hrow
      rcases mem_append.mp hrow with hmem | hmem
      · exact mem_append_left _ (h.issued row hmem)
      · rw [mem_singleton.mp hmem]
        exact mem_append_right _ (mem_singleton_self _)
    · intro r hr
      have := h.applied r hr
      dsimp only
      omega

theorem upsertOne_frame (s : Store) (gap : ℕ) (t : NewTombstone) :
    (s.upsertOne gap t).splits = s.splits ∧ (s.upsertOne gap t).removed = s.removed ∧
      (s.upsertOne gap t).clock = s.clock ∧ (s.upsertOne gap t).issued = s.issued ++ [t] := by
  grind [upsertOne]

theorem foldl_upsertOne (h : s.Ok) (gap : ℕ) (items : List NewTombstone) :
    (items.foldl (upsertOne gap) s).Ok ∧ s.Later (items.foldl (upsertOne gap) s) ∧
      (items.foldl (upsertOne gap) s).splits = s.splits ∧
      (items.foldl (upsertOne gap) s).removed = s.removed ∧
      (items.foldl (upsertOne gap) s).clock = s.clock ∧
      (items.foldl (upsertOne gap) s).issued = s.issued ++ items := by
  induction items generalizing s with
  | nil => grind [Later.refl]
  | cons t items ih =>
    obtain ⟨hsplits, hremoved, hclock, hissued⟩ := s.upsertOne_frame gap t
    obtain ⟨hok, hlater, hs, hr, hc, hi⟩ := ih (h.upsertOne gap t)
    refine ⟨hok, (Later.upsertOne s gap t).trans hlater, hs.trans hsplits, hr.trans hremoved,
      hc.trans hclock, ?_⟩
    grind

theorem mem_of_mem_collapse (h : t ∈ collapse items) : t ∈ items :=
  mem_of_mem_filter (mem_dedup.mp h)

theorem exists_collapse (ht : t ∈ items) :
    ∃ u ∈ collapse items, u.streamId = t.streamId ∧ u.docId = t.docId ∧
      t.beforeSeq ≤ u.beforeSeq := by
  let same := items.filter fun u => u.streamId == t.streamId && u.docId == t.docId
  have hsame : ∀ u, u ∈ same ↔ u ∈ items ∧ u.streamId = t.streamId ∧ u.docId = t.docId := by
    simp [same]
  obtain ⟨u, hu, hmax⟩ := Finset.exists_max_image same.toFinset NewTombstone.beforeSeq
    ⟨t, mem_toFinset.mpr ((hsame t).mpr ⟨ht, rfl, rfl⟩)⟩
  obtain ⟨humem, hstream, hdoc⟩ := (hsame u).mp (mem_toFinset.mp hu)
  refine ⟨u, mem_dedup.mpr (mem_filter.mpr ⟨humem, all_eq_true.mpr ?_⟩), hstream, hdoc,
    hmax t (mem_toFinset.mpr ((hsame t).mpr ⟨ht, rfl, rfl⟩))⟩
  intro v hv
  by_cases hkey : v.streamId = u.streamId ∧ v.docId = u.docId
  · have hle := hmax v (mem_toFinset.mpr ((hsame v).mpr ⟨hv, hkey.1.trans hstream, hkey.2.trans hdoc⟩))
    simp [hle]
  · grind

theorem Ok.upsertTombstones (h : s.Ok) (items : List NewTombstone) (gap : ℕ) :
    (s.upsertTombstones items gap).Ok := by
  obtain ⟨hok, hlater, hsplits, hremoved, hclock, hissued⟩ := foldl_upsertOne h gap (collapse items)
  refine { hok with covered := ?_, issued := ?_ }
  · intro t ht
    rcases mem_append.mp ht with hold | hnew
    · exact hok.covered t (hissued ▸ mem_append_left _ hold)
    · obtain ⟨u, hu, hstream, hdoc, hle⟩ := exists_collapse hnew
      have hcov := hok.covered u (hissued ▸ mem_append_right _ hu)
      rw [hstream, hdoc] at hcov
      refine hcov.imp ?_ ?_ <;> rintro ⟨row, hrow, hs, hd, hle'⟩ <;>
        exact ⟨row, hrow, hs, hd, hle.trans hle'⟩
  · intro row hrow
    have hmem := hok.issued row hrow
    rw [hissued] at hmem
    rcases mem_append.mp hmem with hold | hnew
    · exact mem_append_left _ hold
    · exact mem_append_right _ (mem_of_mem_collapse hnew)

theorem Ok.later_upsertTombstones (h : s.Ok) (items : List NewTombstone) (gap : ℕ) :
    s.Later (s.upsertTombstones items gap) :=
  { (foldl_upsertOne h gap (collapse items)).2.1 with }

theorem Ok.upsertTombstones_frame (h : s.Ok) (items : List NewTombstone) (gap : ℕ) :
    (s.upsertTombstones items gap).splits = s.splits ∧ (s.upsertTombstones items gap).removed = s.removed ∧
      (s.upsertTombstones items gap).clock = s.clock := by
  obtain ⟨-, -, hsplits, hremoved, hclock, -⟩ := foldl_upsertOne h gap (collapse items)
  exact ⟨hsplits, hremoved, hclock⟩

theorem mem_foldl_upsertOne {gap : ℕ} (hrow : row ∈ (items.foldl (upsertOne gap) s).committed) :
    row ∈ s.committed ∨ ⟨row.streamId, row.docId, row.beforeSeq⟩ ∈ items := by
  induction items generalizing s with
  | nil => exact .inl hrow
  | cons t items ih =>
    rcases ih hrow with hone | hmem
    · obtain ⟨-, heq⟩ | ⟨-, heq⟩ := s.upsertOne_cases gap t <;> rw [heq] at hone
      · exact .inl hone
      · rcases mem_append.mp hone with hold | hnew
        · exact .inl hold
        · rw [mem_singleton.mp hnew]
          exact .inr mem_cons_self
    · exact .inr (mem_cons_of_mem _ hmem)

theorem mem_upsertTombstones {gap : ℕ} (hrow : row ∈ (s.upsertTombstones items gap).committed) :
    row ∈ s.committed ∨ ⟨row.streamId, row.docId, row.beforeSeq⟩ ∈ items :=
  (mem_foldl_upsertOne hrow).imp_right mem_of_mem_collapse

/-! ### Deleting rows -/

theorem Ok.removeRows (h : s.Ok) (p : Row → Bool) : (s.removeRows p).Ok := by
  have htable : ∀ row ∈ s.tombstones.filter fun row => !p row, row ∈ s.committed :=
    fun row hrow => h.table_sub (mem_of_mem_filter hrow)
  refine { h with sorted := h.sorted.filter _, table_sub := htable, removed_sub := ?_, covered := ?_ }
  · intro row hrow
    rcases mem_append.mp hrow with hold | hnew
    · exact h.removed_sub hold
    · exact h.table_sub (mem_of_mem_filter hnew)
  · intro t ht
    rcases h.covered t ht with ⟨row, hrow, hcov⟩ | hrem
    · cases hp : p row with
      | false => exact .inl ⟨row, mem_filter.mpr ⟨hrow, by rw [hp]; rfl⟩, hcov⟩
      | true => exact .inr ⟨row, mem_append_right _ (mem_filter.mpr ⟨hrow, hp⟩), hcov⟩
    · exact .inr (hrem.mono (subset_append_left _ _))

theorem later_removeRows (s : Store) (p : Row → Bool) : s.Later (s.removeRows p) :=
  { Later.refl s with
    table := fun _ hrow => .inl (mem_of_mem_filter hrow)
    removed := subset_append_left _ _ }

theorem mem_removed_removeRows {p : Row → Bool} :
    row ∈ (s.removeRows p).removed ↔ row ∈ s.removed ∨ row ∈ s.tombstones ∧ p row = true := by
  grind [removeRows]

theorem purgeable_iff {grace : ℕ} :
    s.purgeable grace row = true ↔ row.createdAt + grace < s.clock ∧
      ∀ r ∈ s.splits.rows, r.streamId = row.streamId → live r = true →
        (seqMin r.docs).isSome = true → row.seq ≤ r.tombstoneSeqApplied := by
  simp only [purgeable, Bool.and_eq_true, decide_eq_true_eq, all_eq_true, Bool.or_eq_true,
    Bool.not_eq_true', Bool.and_eq_false_iff, beq_eq_false_iff_ne]
  refine and_congr_right fun _ => forall₂_congr fun r _ => ?_
  cases live r <;> cases (seqMin r.docs).isSome <;> simp [imp_iff_not_or]

/-! ### Changing the splits -/

/-- What a transaction on the splits does to the rows that are already there: their contents stay,
and a row that counts afterwards counted before. -/
structure Moved (t t' : Splits) : Prop where
  kept : ∀ r ∈ t.rows, ∃ r' ∈ t'.rows, r'.splitId = r.splitId ∧ r'.streamId = r.streamId ∧
    r'.docs = r.docs ∧ r.tombstoneSeqApplied = r'.tombstoneSeqApplied
  source : ∀ r' ∈ t'.rows, ∃ r ∈ t.rows, r'.splitId = r.splitId ∧ r'.streamId = r.streamId ∧
    r'.docs = r.docs ∧ r'.tombstoneSeqApplied = r.tombstoneSeqApplied ∧
      (live r' = true → live r = true)

theorem Moved.trans {t t'' : Splits} (h : Moved t t') (h' : Moved t' t'') : Moved t t'' where
  kept := fun r hr => by
    obtain ⟨r', hr', hid, hstream, hdocs, happ⟩ := h.kept r hr
    obtain ⟨r'', hr'', hid', hstream', hdocs', happ'⟩ := h'.kept r' hr'
    grind
  source := fun r'' hr'' => by
    obtain ⟨r', hr', hid', hstream', hdocs', happ', hlive'⟩ := h'.source r'' hr''
    obtain ⟨r, hr, hid, hstream, hdocs, happ, hlive⟩ := h.source r' hr'
    exact ⟨r, hr, hid'.trans hid, hstream'.trans hstream, hdocs'.trans hdocs, happ'.trans happ,
      hlive ∘ hlive'⟩

theorem Moved.setState (t : Splits) {p : SplitRow → Bool} {st : SplitState}
    (h : st = .markedForDelete ∨ ∀ r, p r = true → live r = true) : Moved t (t.setState p st) where
  kept := fun r hr => by
    refine ⟨_, Splits.mem_setState.mpr ⟨r, hr, rfl⟩, ?_⟩
    split <;> exact ⟨rfl, rfl, rfl, rfl⟩
  source := fun r' hr' => by
    obtain ⟨r, hr, rfl⟩ := Splits.mem_setState.mp hr'
    refine ⟨r, hr, ?_⟩
    split
    · next hp =>
        refine ⟨rfl, rfl, rfl, rfl, fun hlive => ?_⟩
        rcases h with rfl | h
        · cases hlive
        · exact h r hp
    · exact ⟨rfl, rfl, rfl, rfl, id⟩

theorem Moved.swapSplits {t : Splits} {oldIds : List String} {newId : String}
    (h : t.swapSplits oldIds newId = some t') : Moved t t' := by
  unfold Splits.swapSplits at h
  dsimp only at h
  split at h
  · cases h
    refine (Moved.setState t (.inr fun r hr => ?_)).trans (Moved.setState _ (.inl rfl))
    grind [live]
  · cases h

theorem Moved.of_eq {t : Splits} (h : t' = t) : Moved t t' := by
  subst h
  exact ⟨fun r hr => ⟨r, hr, rfl, rfl, rfl, rfl⟩, fun r hr => ⟨r, hr, rfl, rfl, rfl, rfl, id⟩⟩

theorem Moved.publish (t : Splits) (splitId : String) :
    Moved t (t.setState (fun r => r.splitId == splitId && r.state == .staged) .published) := by
  grind [setState, live]

theorem Moved.markSplitsForDelete (t : Splits) (ids : List String) :
    Moved t (t.markSplitsForDelete ids) :=
  Moved.setState t (.inl rfl)

theorem Ok.withSplits (h : s.Ok)
    (happlied : ∀ r ∈ splits.rows, 0 ≤ r.tombstoneSeqApplied ∧ r.tombstoneSeqApplied < s.nextSeq) :
    (s.withSplits splits).Ok :=
  { h with applied := happlied }

theorem Ok.moved (h : s.Ok) (hmoved : Moved s.splits splits) : (s.withSplits splits).Ok := by
  refine h.withSplits fun r' hr' => ?_
  obtain ⟨r, hr, -, -, -, happ, -⟩ := hmoved.source r' hr'
  rw [happ]
  exact h.applied r hr

theorem later_withSplits (s : Store) (h : ∀ r ∈ s.splits.rows, ∃ r' ∈ splits.rows, r'.splitId = r.splitId ∧
      r'.streamId = r.streamId ∧ r'.docs = r.docs ∧
        r.tombstoneSeqApplied ≤ r'.tombstoneSeqApplied) : s.Later (s.withSplits splits) :=
  { Later.refl s with splits := h }

theorem later_moved (s : Store) (h : Moved s.splits splits) : s.Later (s.withSplits splits) := by
  refine s.later_withSplits fun r hr => ?_
  obtain ⟨r', hr', hid, hstream, hdocs, happ⟩ := h.kept r hr
  grind

end Store

end RSearch.Visibility
