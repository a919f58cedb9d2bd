import RSearch.Lib.Outcome
import RSearch.Lib.Runs
import RSearch.Wal.Writer

/-!
# Replay against confirms and appends

The replay iterator opens a segment when it reaches it.  Meanwhile records are confirmed and batches
appended, and both unlink exhausted segments.  `step` interleaves a turn of the iterator, a `confirm`,
an `append_batch` with any pattern of failures, and the unlinking of one file.
-/

namespace RSearch.Wal

open List Bytes WalReplay

/-- A replay in progress: the log, the iterator, what it has yielded in how many turns, and the first
segment written since the open. -/
structure Race where
  world : World
  replay : WalReplay
  opened : ℕ
  yielded : List (Except IoError SegmentCursor) := []
  turns : ℕ := 0

def Race.start (w : World) (r : WalReplay) : Race where
  world := w
  replay := r
  opened := w.inner.currentSeq

namespace Race

inductive Action where
  | turn
  | confirm (positions : List WalPos)
  | append (items : List WalItem) (script : List (Option ℕ))
  | unlink (path : String)

def mayConfirm (s : Race) (pos : WalPos) : Bool :=
  decide (s.opened ≤ pos.segment) || s.yielded.any fun item =>
    match item with
    | .ok c => c.seq == pos.segment
    | .error _ => false

def step (crc : Bytes → UInt32) (s : Race) : Action → Option Race
  | .turn =>
    match s.replay.turn crc s.world.dir with
    | (.yield item, r) =>
      some { s with replay := r, yielded := s.yielded ++ [item], turns := s.turns + 1 }
    | (.again, r) => some { s with replay := r, turns := s.turns + 1 }
    | (.finished, r) => some { s with replay := r, turns := s.turns + 1 }
  | .confirm positions =>
    if positions.all s.mayConfirm then some { s with world := s.world.confirm positions } else none
  | .append items script =>
    some { s with world := (appendBatch crc items { s.world with script }).2 }
  | .unlink path =>
    if path ∈ s.world.pending then some { s with world := s.world.unlink path } else none

def RoomLeft (s : Race) : Action → Prop
  | .append items _ => s.world.inner.currentSeq + items.length < 2 ^ 64
  | _ => True

instance decidableRoomLeft (s : Race) (a : Action) : Decidable (s.RoomLeft a) := by
  cases a <;> unfold RoomLeft <;> infer_instance

end Race

def listedRecords (crc : Bytes → UInt32) (dir : Dir) (seq : ℕ) : List SegmentCursor :=
  match dir[segmentPath seq]? with
  | some file => segmentRecords crc seq file.bytes
  | none => []

def counted (crc : Bytes → UInt32) (dir : Dir) : List SegmentCursor :=
  (segmentSeqs dir).dedup.flatMap (listedRecords crc dir)

/-- The iterator has yielded counted records in order and nothing else, and all of them once it has
made as many turns as there are records and segments. -/
def YieldsCounted (crc : Bytes → UInt32) (dir : Dir) (s : Race) : Prop :=
  s.yielded <+: (counted crc dir).map .ok ∧
    ((counted crc dir).length + (segmentSeqs dir).length ≤ s.turns →
      s.yielded = (counted crc dir).map .ok)

/-- No two names of the directory stand for one segment, no segment has the highest number, and every
segment holds a valid record. -/
structure Replayable (crc : Bytes → UInt32) (dir : Dir) : Prop where
  nodup : (segmentSeqs dir).Nodup
  below_max : ∀ seq ∈ segmentSeqs dir, seq + 1 < 2 ^ 64
  nonempty : ∀ seq ∈ segmentSeqs dir, listedRecords crc dir seq ≠ []

/-! ## What lies ahead stays -/

/-- Every segment ahead of the iterator is as it was at open: its file has not changed, its count is
positive, and none of its records was yielded. -/
structure Tracks (crc : Bytes → UInt32) (dir : Dir) (s : Race) : Prop where
  wf : WellFormed s.world
  opened_le : s.opened ≤ s.world.inner.currentSeq
  canonical : ∀ entry ∈ s.replay.segments, entry.2 = segmentPath entry.1
  lt_opened : ∀ entry ∈ s.replay.segments, entry.1 < s.opened
  distinct : (s.replay.segments.map Prod.fst).Nodup
  intact : ∀ entry ∈ s.replay.segments, s.world.fileAt entry.1 = dir[entry.2]?
  waiting : ∀ entry ∈ s.replay.segments, ∃ state : SegmentState,
    s.world.inner.segments[entry.1]? = some state ∧ 0 < state.outstanding
  unseen : ∀ entry ∈ s.replay.segments, ∀ c, .ok c ∈ s.yielded → c.seq ≠ entry.1
  passed : ∀ entry ∈ s.replay.segments, ∀ c, s.replay.current = some c → c.seq ≠ entry.1
  split : s.yielded ++ s.replay.ahead crc dir = (counted crc dir).map .ok
  clock : s.replay.turnsLeft crc dir
    ≤ (counted crc dir).length + (segmentSeqs dir).length - s.turns

namespace Tracks

open Race

variable {crc : Bytes → UInt32} {dir : Dir} {s s' : Race}

theorem of_world (h : Tracks crc dir s) {w : World} (hwf : WellFormed w)
    (hseq : s.world.inner.currentSeq ≤ w.inner.currentSeq)
    (hfile : ∀ entry ∈ s.replay.segments, w.fileAt entry.1 = s.world.fileAt entry.1)
    (hcount : ∀ entry ∈ s.replay.segments, ∃ state : SegmentState,
      w.inner.segments[entry.1]? = some state ∧ 0 < state.outstanding) :
    Tracks crc dir { s with world := w } where
  wf := hwf
  opened_le := h.opened_le.trans hseq
  canonical := h.canonical
  lt_opened := h.lt_opened
  distinct := h.distinct
  intact := fun entry he => (hfile entry he).trans (h.intact entry he)
  waiting := hcount
  unseen := h.unseen
  passed := h.passed
  split := h.split
  clock := h.clock

variable {r : WalReplay}

theorem of_turn (h : Tracks crc dir s) {yielded : List (Except IoError SegmentCursor)}
    (hsuffix : r.segments <:+ s.replay.segments)
    (hunseen : ∀ entry ∈ r.segments, ∀ c, .ok c ∈ yielded → c.seq ≠ entry.1)
    (hpassed : ∀ entry ∈ r.segments, ∀ c, r.current = some c → c.seq ≠ entry.1)
    (hsplit : yielded ++ r.ahead crc dir = (counted crc dir).map .ok) (hclock : r.turnsLeft crc dir
      ≤ (counted crc dir).length + (segmentSeqs dir).length - (s.turns + 1)) :
    Tracks crc dir { s with replay := r, yielded, turns := s.turns + 1 } where
  wf := h.wf
  opened_le := h.opened_le
  canonical := fun entry he => h.canonical entry (hsuffix.subset he)
  lt_opened := fun entry he => h.lt_opened entry (hsuffix.subset he)
  distinct := h.distinct.sublist (hsuffix.sublist.map Prod.fst)
  intact := fun entry he => h.intact entry (hsuffix.subset he)
  waiting := fun entry he => h.waiting entry (hsuffix.subset he)
  unseen := hunseen
  passed := hpassed
  split := hsplit
  clock := hclock

theorem turn (h : Tracks crc dir s) (hstep : step crc s .turn = some s') : Tracks crc dir s' := by
  have hcongr : s.replay.turn crc s.world.dir = s.replay.turn crc dir := by
    refine turn_congr fun entry he => ?_
    have hmem : entry ∈ s.replay.segments := mem_of_mem_head? he
    rw [← h.intact entry hmem, World.fileAt, h.canonical entry hmem]
  have hspec := s.replay.turn_spec crc dir
  have hclock := h.clock
  simp only [step, hcongr] at hstep
  split at hstep
  · next item r hturn =>
      obtain rfl := Option.some.inj hstep
      rw [hturn] at hspec
      obtain ⟨hahead, hturns, hsuffix⟩ := hspec
      have hclock' : r.turnsLeft crc dir
          ≤ (counted crc dir).length + (segmentSeqs dir).length - (s.turns + 1) := by omega
      have hsplit : (s.yielded ++ [item]) ++ r.ahead crc dir = (counted crc dir).map .ok := by
        grind [split]
      obtain ⟨c, -, rfl⟩ : ∃ c ∈ counted crc dir, Except.ok c = item :=
        mem_map.mp (hsplit ▸ by simp)
      obtain ⟨hcurrent, hfrom⟩ := turn_ok hturn
      -- the record's segment is not among those that are still to be opened
      have hfresh (entry : ℕ × String) (he : entry ∈ r.segments) : c.seq ≠ entry.1 := by
        rcases hfrom with ⟨c₀, hc₀, hseq, hsegs⟩ | ⟨first, hsegs, hseq⟩
        · rw [hseq]
          exact h.passed entry (hsegs ▸ he) c₀ hc₀
        · grind [distinct]
      refine h.of_turn hsuffix (fun entry he c' hc' => ?_) (fun entry he c' hc' => ?_) hsplit hclock'
      · rcases mem_append.mp hc' with hc' | hc'
        · exact h.unseen entry (hsuffix.subset he) c' hc'
        · grind
      · grind
  · next r hturn =>
      obtain rfl := Option.some.inj hstep
      rw [hturn] at hspec
      obtain ⟨hahead, hturns, hsuffix⟩ := hspec
      refine h.of_turn hsuffix (fun entry he => h.unseen entry (hsuffix.subset he))
        (fun entry _ c hc => ?_) (hahead ▸ h.split) (by omega)
      rw [turn_again hturn] at hc
      cases hc
  · next r hturn =>
      obtain rfl := Option.some.inj hstep
      rw [hturn] at hspec
      obtain ⟨hzero, rfl⟩ := hspec
      exact h.of_turn (suffix_refl _) h.unseen h.passed h.split (by omega)

theorem confirm (h : Tracks crc dir s) {positions : List WalPos}
    (hstep : step crc s (.confirm positions) = some s') : Tracks crc dir s' := by
  simp only [step] at hstep
  split_ifs at hstep with hmay
  obtain rfl := Option.some.inj hstep
  refine h.of_world (h.wf.confirm positions) le_rfl (fun _ _ => rfl) fun entry he => ?_
  obtain ⟨state, hstate, hpos⟩ := h.waiting entry he
  have huntouched : ∀ pos ∈ positions, pos.segment ≠ entry.1 := by
    intro pos hmem heq
    have hpos := all_eq_true.mp hmay pos hmem
    simp only [mayConfirm, Bool.or_eq_true, decide_eq_true_eq, any_eq_true] at hpos
    rcases hpos with hnew | ⟨item, hitem, hseq⟩
    · have := h.lt_opened entry he
      omega
    · cases item with
      | ok c => exact h.unseen entry he c hitem ((beq_iff_eq.mp hseq).trans heq)
      | error e => cases hseq
  refine ⟨state, Segments.getElem?_collectConfirmed_of_pos ?_ hpos, hpos⟩
  show (positions.foldl Segments.confirmOne s.world.inner.segments)[entry.1]? = some state
  rw [Segments.getElem?_foldl_confirmOne huntouched, hstate]

theorem append (h : Tracks crc dir s) {items : List WalItem} {script : List (Option ℕ)}
    (hroom : s.RoomLeft (.append items script)) (hstep : step crc s (.append items script) = some s') :
    Tracks crc dir s' := by
  obtain rfl := Option.some.inj hstep
  have hwf : WellFormed { s.world with script } :=
    h.wf.withScript script
  obtain ⟨hwf', hgrows⟩ := appendBatch_safe crc hwf hroom
  refine h.of_world hwf' hgrows.seq_le (fun entry he => ?_) fun entry he => ?_
  · exact hgrows.old entry.1 ((h.lt_opened entry he).trans_le h.opened_le)
  · obtain ⟨state, hstate, hpos⟩ := h.waiting entry he
    obtain ⟨state', hstate', hle⟩ := hgrows.counts entry.1 state hstate hpos
    grind

theorem unlink (h : Tracks crc dir s) {path : String} (hstep : step crc s (.unlink path) = some s') :
    Tracks crc dir s' := by
  simp only [step] at hstep
  split_ifs at hstep with hpending
  obtain rfl := Option.some.inj hstep
  refine h.of_world (h.wf.unlink hpending) le_rfl (fun entry he => ?_) h.waiting
  rw [World.fileAt_unlink, if_neg ?_]
  rintro rfl
  obtain ⟨state, hstate, -⟩ := h.waiting entry he
  rw [(h.wf.pending_untracked _ hpending).2] at hstate
  cases hstate

theorem step (h : Tracks crc dir s) {a : Action} (hroom : s.RoomLeft a)
    (hstep : Race.step crc s a = some s') : Tracks crc dir s' := by
  cases a with
  | turn => exact h.turn hstep
  | confirm positions => exact h.confirm hstep
  | append items script => exact h.append hroom hstep
  | unlink path => exact h.unlink hstep

theorem of_openWal {max : ℕ} {w : World} (hopen : openWal crc dir max = .ok (w, r))
    (hdir : Replayable crc dir) : Tracks crc dir (Race.start w r) := by
  have hwf : WellFormed w := .of_openWal hopen hdir.below_max
  obtain ⟨segments, hcount, rfl, rfl⟩ := openWal_eq_ok hopen
  obtain ⟨hlisted, -⟩ := countSegments_eq_ok hcount
  have hlt {seq : ℕ} (hseq : seq ∈ segmentSeqs dir) : seq < freshSeq (segmentSeqs dir) :=
    lt_freshSeq hdir.below_max hseq
  have hitems (seq : ℕ) (hseq : seq ∈ segmentSeqs dir) :
      segmentItems crc dir (seq, segmentPath seq)
        = (listedRecords crc dir seq).map .ok := by
    grind [segmentItems, listedRecords]
  have hahead : ahead crc dir { segments := (segmentSeqs dir).map fun seq => (seq, segmentPath seq) }
        = (counted crc dir).map .ok := by
    rw [counted, hdir.nodup.dedup, map_flatMap]
    simp only [ahead, currentItems, nil_append, flatMap_map]
    exact flatMap_congr hitems
  refine ⟨hwf, le_rfl, ?_, ?_, ?_, ?_, ?_, ?_, ?_, ?_, ?_⟩
  · rintro _ he
    obtain ⟨seq, -, rfl⟩ := mem_map.mp he
    rfl
  · rintro _ he
    obtain ⟨seq, hseq, rfl⟩ := mem_map.mp he
    exact hlt hseq
  · simpa [Race.start, Function.comp_def] using hdir.nodup
  · rintro _ he
    obtain ⟨seq, hseq, rfl⟩ := mem_map.mp he
    grind [start, World.fileAt]
  · rintro _ he
    obtain ⟨seq, hseq, rfl⟩ := mem_map.mp he
    obtain ⟨file, hfile, hstate⟩ := hlisted seq hseq
    refine ⟨_, (Segments.getElem?_track ..).trans ((if_neg (hlt hseq).ne').trans hstate), ?_⟩
    have hne : segmentRecords crc seq file.bytes ≠ [] := by
      simpa [listedRecords, hfile] using hdir.nonempty seq hseq
    exact length_pos_iff.mpr hne
  · rintro _ _ c hc
    exact absurd hc not_mem_nil
  · rintro _ _ c hc
    cases hc
  · exact hahead
  · simp [Race.start, turnsLeft, hahead]

end Tracks

/-- **Replay of a directory whose segments all hold a valid record**: in every interleaving of the
iterator's turns with confirms, appends and unlinks, it yields the counted records in order and never
an error, and it has yielded all of them after as many turns as there are records and segments. -/
theorem replay_yields_counted {crc : Bytes → UInt32} {dir : Dir} {max : ℕ} {w : World} {r : WalReplay}
    (hopen : openWal crc dir max = .ok (w, r)) (hdir : Replayable crc dir) {as : List Race.Action}
    {s : Race} (hrun : Runs.run (Race.step crc) (Race.start w r) as = some s)
    (hroom : Runs.Along (Race.step crc) Race.RoomLeft (Race.start w r) as) :
    YieldsCounted crc dir s := by
  have h : Tracks crc dir s :=
    Runs.run_invariant (Race.step crc) (fun _ _ _ hs hcond hstep => Tracks.step hs hcond hstep)
      (Tracks.of_openWal hopen hdir) hroom hrun
  refine ⟨⟨_, h.split⟩, fun hturns => ?_⟩
  have hclock := h.clock
  have hdone := h.split
  grind [WalReplay.ahead_eq_nil]

def segmentOf (items : List WalItem) : File where
  bytes := items.flatMap (·.encode crc32)
  durable := 0
  durable_le := Nat.zero_le _

def oneRecord : Dir :=
  (∅ : Dir).insert (segmentPath 0) (segmentOf [⟨"s", "a", 1, false, "x"⟩])

def twoSegments : Dir :=
  oneRecord.insert (segmentPath 1) (segmentOf [⟨"s", "b", 2, false, "y"⟩, ⟨"t", "c", 3, true, "z"⟩])

theorem replayable_twoSegments : Replayable crc32 twoSegments where
  nodup := by decide +kernel
  below_max := by decide +kernel
  nonempty := by decide +kernel

/-- While the iterator is in the second segment, the first is confirmed and unlinked, and a batch is
appended whose flush fails. -/
def confirmedMeanwhile : List Race.Action :=
  [.turn, .turn, .turn, .confirm [⟨0⟩], .unlink (segmentPath 0), .append [⟨"s", "d", 4, false, "w"⟩] [some 3],
    .turn, .turn]

theorem replay_yields_counted_twoSegments :
    ∃ w r s, openWal crc32 twoSegments 64 = .ok (w, r) ∧
      Runs.run (Race.step crc32) (Race.start w r) confirmedMeanwhile = some s ∧
      YieldsCounted crc32 twoSegments s ∧ s.yielded.length = 3 := by
  obtain ⟨⟨w, r⟩, hopen, s, hrun, hthree, hroom⟩ : ∃ o, openWal crc32 twoSegments 64 = .ok o ∧
      ∃ s, Runs.run (Race.step crc32) (Race.start o.1 o.2) confirmedMeanwhile = some s ∧
        s.yielded.length = 3 ∧
        Runs.Along (Race.step crc32) Race.RoomLeft (Race.start o.1 o.2) confirmedMeanwhile := by
    decide +kernel
  exact ⟨w, r, s, hopen, hrun, replay_yields_counted hopen replayable_twoSegments hrun hroom, hthree⟩

/-- The same directory with an empty segment behind it, as a restart without a write leaves it. -/
def emptySegmentBehind : Dir :=
  oneRecord.insert (segmentPath 1) .empty

/-- **An empty segment aborts replay.**  Confirming the only record of segment 0 also collects the
empty segment 1; the iterator then fails to open it. -/
theorem empty_segment_aborts_replay :
    ¬ ∀ (dir : Dir) (max : ℕ) (w : World) (r : WalReplay) (as : List Race.Action) (s : Race),
      openWal crc32 dir max = .ok (w, r) →
      Runs.run (Race.step crc32) (Race.start w r) as = some s → YieldsCounted crc32 dir s := by
  intro hclaim
  obtain ⟨⟨w, r⟩, hopen, s, hrun, item, hitem, hbad⟩ : ∃ o, openWal crc32 emptySegmentBehind 64 = .ok o ∧
      ∃ s, Runs.run (Race.step crc32) (Race.start o.1 o.2)
        [.turn, .confirm [⟨0⟩], .unlink (segmentPath 1), .turn, .turn] = some s ∧
        ∃ item ∈ s.yielded, item.toBool = false := by
    decide +kernel
  obtain ⟨c, -, rfl⟩ := mem_map.mp ((hclaim _ _ _ _ _ _ hopen hrun).1.subset hitem)
  cases hbad

end RSearch.Wal
