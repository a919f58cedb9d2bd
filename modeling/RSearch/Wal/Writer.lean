import RSearch.Lib.Prog
import RSearch.Wal.Open

/-!
# Appending to the log

`append_batch` writes a record in eight writes, and may rotate to a fresh segment before each. Every
system call can fail.  The call then returns the error, and what the earlier writes left in the buffer
and in the file stays there.
-/

namespace RSearch.Wal

open List Bytes Prog Segments Triple World

abbrev Call (α : Type) := Prog World IoError α

/-! ## System calls -/

def nextOutcome : Call (Option ℕ) := fun w =>
  match w.script with
  | [] => (.ok none, w)
  | outcome :: script => (.ok outcome, { w with script })

/-- A change to the file of segment `g`.  A file that was unlinked under an open descriptor is out
of reach of every later open, and changes to it are not recorded. -/
def World.modifyFile (w : World) (g : ℕ) (f : File → File) : World :=
  { w with dir := w.dir.modify (segmentPath g) f }

def World.createFile (w : World) (g : ℕ) : World :=
  { w with dir := w.dir.insertIfNew (segmentPath g) .empty }

def World.extendFile (w : World) (bs : Bytes) : World :=
  w.modifyFile w.inner.currentSeq fun file => file.extend bs

def World.setBuffer (w : World) (buffer : Bytes) : World :=
  { w with inner := { w.inner with buffer } }

def World.setSegments (w : World) (segments : Segments) : World :=
  { w with inner := { w.inner with segments } }

/-- `File::write_all` on the current segment: all of `bs`, or a proper part of it and an error. -/
def fileWriteAll (bs : Bytes) : Call Unit := do
  if bs = [] then
    pure ()
  else
    match ← nextOutcome with
    | none => Prog.modify fun w => w.extendFile bs
    | some n =>
      Prog.modify fun w => w.extendFile (bs.dropLast.take n)
      Prog.throw .os

/-- `sync_data` on the file of segment `g`: the bytes it holds are durable when it returns. -/
def syncData (g : ℕ) : Call Unit := do
  match ← nextOutcome with
  | none => Prog.modify fun w => w.modifyFile g File.sync
  | some _ => Prog.throw .os

def openAppend (g : ℕ) : Call Unit := do
  match ← nextOutcome with
  | none => Prog.modify fun w => w.createFile g
  | some _ => Prog.throw .os

def tryClone : Call Unit := do
  match ← nextOutcome with
  | none => pure ()
  | some _ => Prog.throw .os

/-! ## The buffered writer -/

def bufCapacity : ℕ := 8192

/-- `BufWriter::flush_buf`: what the operating system took leaves the buffer, also on an error. -/
def flushBuf : Call Unit := do
  let buffer ← Prog.gets fun w => w.inner.buffer
  if buffer = [] then
    pure ()
  else
    match ← nextOutcome with
    | none => Prog.modify fun w => (w.extendFile buffer).setBuffer []
    | some n =>
      Prog.modify fun w =>
        (w.extendFile (buffer.dropLast.take n)).setBuffer
          (buffer.drop (buffer.dropLast.take n).length)
      Prog.throw .os

/-- `BufWriter::write_all`: into the buffer if it fits, else after a flush, and past the buffer if
it is as large as the buffer. -/
def writeAll (bs : Bytes) : Call Unit := do
  let buffered ← Prog.gets fun w => w.inner.buffer.length
  if bs.length < bufCapacity - buffered then
    Prog.modify fun w => w.setBuffer (w.inner.buffer ++ bs)
  else
    Prog.when (bs.length > bufCapacity - buffered) flushBuf
    if bs.length ≥ bufCapacity then
      fileWriteAll bs
    else
      Prog.modify fun w => w.setBuffer (w.inner.buffer ++ bs)

/-! ## Rotation and append -/

def World.collect (w : World) : World :=
  { w with
    inner := { w.inner with segments := w.inner.segments.collectConfirmed.2 }
    pending := w.pending ++ w.inner.segments.collectConfirmed.1.map segmentPath }

def World.switchTo (w : World) (newSeq : ℕ) : World :=
  { w with inner := { w.inner with
      currentSeq := newSeq, currentLen := 0, buffer := []
      segments := w.inner.segments.track newSeq } }

/-- Seal the current segment and open a fresh one.  Returns the sealed segment, which the caller
syncs. -/
def rotate : Call ℕ := do
  flushBuf
  let oldSeq ← Prog.gets fun w => w.inner.currentSeq
  Prog.modify fun w => w.setSegments (w.inner.segments.sealSegment oldSeq)
  let newSeq := (oldSeq + 1) % 2 ^ 64
  openAppend newSeq
  Prog.modify fun w => w.switchTo newSeq
  Prog.modify World.collect
  pure oldSeq

def rotateIfFull : Call (List ℕ) := do
  let full ← Prog.gets fun w => decide (w.maxSegmentBytes ≤ w.inner.currentLen)
  if full then
    let old ← rotate
    pure [old]
  else
    pure []

def appendRecord (crc : Bytes → UInt32) (item : WalItem) : Call WalPos := do
  if item.tooLong then
    Prog.throw (.invalidInput "stream name or document id too long for the WAL")
  else
    Prog.forM (item.writes crc) writeAll
    Prog.modify fun w =>
      { w with inner := { w.inner with currentLen := w.inner.currentLen + 8 + item.payloadLen } }
    let seq ← Prog.gets fun w => w.inner.currentSeq
    let bumped ← Prog.gets fun w => w.inner.segments.bump seq
    match bumped with
    | none => Prog.throw (.other "WAL invariant violated: current segment untracked")
    | some segments =>
      Prog.modify fun w => w.setSegments segments
      pure ⟨seq⟩

/-- The loop of `append_batch` under the writer lock: the positions of the records, and the segments
sealed on the way. -/
def appendItems (crc : Bytes → UInt32) : List WalItem → Call (List WalPos × List ℕ)
  | [] => pure ([], [])
  | item :: items => do
    let sealed ← rotateIfFull
    let pos ← appendRecord crc item
    let (positions, later) ← appendItems crc items
    pure (pos :: positions, sealed ++ later)

/-- The end of `append_batch`: hand the buffer to the operating system, count the batch as written,
sync the segments sealed on the way, and then the current one unless a later sync has covered it. -/
def commit (count : ℕ) (sealed : List ℕ) : Call Unit := do
  flushBuf
  tryClone
  Prog.modify fun w => { w with inner := { w.inner with written := w.inner.written + count } }
  let fd ← Prog.gets fun w => w.inner.currentSeq
  let myGen ← Prog.gets fun w => w.inner.written
  Prog.forM sealed syncData
  let synced ← Prog.gets fun w => w.synced
  Prog.when (synced < myGen) do
    let covered ← Prog.gets fun w => w.inner.written
    syncData fd
    Prog.modify fun w => { w with synced := max w.synced covered }

def appendBatch (crc : Bytes → UInt32) (items : List WalItem) : Call (List WalPos) := do
  let (positions, sealed) ← appendItems crc items
  commit items.length sealed
  pure positions

def World.confirm (w : World) (positions : List WalPos) : World :=
  (w.setSegments (positions.foldl Segments.confirmOne w.inner.segments)).collect

def World.unlink (w : World) (path : String) : World :=
  { w with dir := w.dir.erase path, pending := w.pending.erase path }

/-! ## What the state changes do to the files -/

section Files

variable (w : World) (g : ℕ)

theorem World.fileAt_modifyFile (h : ℕ) (f : File → File) :
    (w.modifyFile h f).fileAt g = if g = h then (w.fileAt g).map f else w.fileAt g := by
  grind [segmentPath_inj, modifyFile, fileAt]

theorem World.fileAt_createFile (h : ℕ) :
    (w.createFile h).fileAt g
      = if g = h ∧ w.fileAt h = none then some .empty else w.fileAt g := by
  grind [segmentPath_inj, fileAt, createFile]

theorem World.fileAt_unlink (path : String) :
    (w.unlink path).fileAt g = if path = segmentPath g then none else w.fileAt g := by
  grind [unlink, fileAt]

@[simp] theorem World.fileAt_setBuffer (buffer : Bytes) :
    (w.setBuffer buffer).fileAt g = w.fileAt g := rfl

@[simp] theorem World.fileAt_switchTo (newSeq : ℕ) :
    (w.switchTo newSeq).fileAt g = w.fileAt g := rfl

end Files

/-! ## The log stays well formed, and only grows -/

/-- What every call keeps of the log and its directory.  The current segment is the last one; each
tracked segment has its file; a file that waits to be unlinked belongs to a segment that is no longer
tracked. -/
structure WellFormed (w : World) : Prop where
  seq_lt : w.inner.currentSeq < 2 ^ 64
  tracked_le : ∀ g : ℕ, w.inner.segments[g]? ≠ none → g ≤ w.inner.currentSeq
  tracked_file : ∀ g : ℕ, w.inner.segments[g]? ≠ none → w.fileAt g ≠ none
  fresh : ∀ g, w.inner.currentSeq < g → g < 2 ^ 64 → w.fileAt g = none
  pending_untracked : ∀ g, segmentPath g ∈ w.pending →
    g ≤ w.inner.currentSeq ∧ w.inner.segments[g]? = none
  synced_le : w.synced ≤ w.inner.written

namespace WellFormed

variable {w : World}

theorem setSegments (h : WellFormed w) {segs : Segments}
    (htracked : ∀ g : ℕ, segs[g]? ≠ none → w.inner.segments[g]? ≠ none) :
    WellFormed (w.setSegments segs) := by
  refine ⟨h.seq_lt, fun g hg => h.tracked_le g (htracked g hg),
    fun g hg => h.tracked_file g (htracked g hg), h.fresh, fun g hg => ?_, h.synced_le⟩
  obtain ⟨hle, huntracked⟩ := h.pending_untracked g hg
  exact ⟨hle, by_contra fun hsome => htracked g hsome huntracked⟩

theorem withScript (h : WellFormed w) (script : List (Option ℕ)) : WellFormed { w with script } :=
  ⟨h.seq_lt, h.tracked_le, h.tracked_file, h.fresh, h.pending_untracked, h.synced_le⟩

theorem collect (h : WellFormed w) : WellFormed w.collect := by
  have hsegs : WellFormed (w.setSegments w.inner.segments.collectConfirmed.2) := by
    refine h.setSegments fun g hg hnone => ?_
    grind [getElem?_collectConfirmed]
  refine ⟨hsegs.seq_lt, hsegs.tracked_le, hsegs.tracked_file, hsegs.fresh, fun g hg => ?_, hsegs.synced_le⟩
  rcases mem_append.mp hg with hg | hg
  · exact hsegs.pending_untracked g hg
  · obtain ⟨g', hvictim, hpath⟩ := mem_map.mp hg
    obtain rfl : g' = g := segmentPath_inj.mp hpath
    obtain ⟨state, hstate, -⟩ := (mem_collectConfirmed _ g').mp hvictim
    exact ⟨h.tracked_le g' (by rw [hstate]; simp),
      getElem?_of_mem_collectConfirmed hvictim⟩

theorem confirm (h : WellFormed w) (positions : List WalPos) : WellFormed (w.confirm positions) :=
  (h.setSegments fun _ hg hnone => hg (foldl_confirmOne_eq_none hnone)).collect

theorem unlink (h : WellFormed w) {path : String} (hpath : path ∈ w.pending) :
    WellFormed (w.unlink path) := by
  refine ⟨h.seq_lt, h.tracked_le, fun g hg => ?_, fun g hlt hmax => ?_, fun g hg => ?_, h.synced_le⟩
  · rw [fileAt_unlink, if_neg ?_]
    · exact h.tracked_file g hg
    · rintro rfl
      exact hg (h.pending_untracked g hpath).2
  · rw [fileAt_unlink, h.fresh g hlt hmax, ite_self]
  · exact h.pending_untracked g (mem_of_mem_erase hg)

theorem of_openWal {crc : Bytes → UInt32} {dir : Dir} {max : ℕ} {r : WalReplay}
    (hopen : openWal crc dir max = .ok (w, r)) (hmax : ∀ seq ∈ segmentSeqs dir, seq + 1 < 2 ^ 64) :
    WellFormed w := by
  obtain ⟨segments, hcount, rfl, rfl⟩ := openWal_eq_ok hopen
  obtain ⟨hlisted, hothers⟩ := countSegments_eq_ok hcount
  have htracked (g : ℕ) (hg : (segments.track (freshSeq (segmentSeqs dir)))[g]? ≠ none) :
      g = freshSeq (segmentSeqs dir) ∨ g ∈ segmentSeqs dir := by
    grind [getElem?_track]
  have hat (g : ℕ) : (dir.insertIfNew (segmentPath (freshSeq (segmentSeqs dir)))
      File.empty)[segmentPath g]? = if freshSeq (segmentSeqs dir) = g ∧
        dir[segmentPath (freshSeq (segmentSeqs dir))]? = none then some .empty
        else dir[segmentPath g]? := by
    grind [segmentPath_inj]
  refine ⟨freshSeq_lt _, fun g hg => ?_, fun g hg => ?_, fun g hlt hg => ?_, fun g hg => ?_, le_rfl⟩
  · rcases htracked g hg with rfl | hseq
    · exact le_rfl
    · exact (lt_freshSeq hmax hseq).le
  · show (dir.insertIfNew _ _)[segmentPath g]? ≠ none
    rw [hat]
    split_ifs with hnew
    · simp
    · rcases htracked g hg with rfl | hseq
      · exact fun hnone => hnew ⟨rfl, hnone⟩
      · obtain ⟨file, hfile, -⟩ := hlisted g hseq
        simp [hfile]
  · show (dir.insertIfNew _ _)[segmentPath g]? = none
    change freshSeq (segmentSeqs dir) < g at hlt
    rw [hat, if_neg (by omega)]
    by_contra hsome
    have hseq : g ∈ segmentSeqs dir := mem_segmentSeqs.mpr
      ⟨segmentPath g, by simpa using hsome, parseSegmentName_segmentPath hg⟩
    have := lt_freshSeq hmax hseq
    omega
  · exact absurd hg not_mem_nil

end WellFormed

/-- What an append leaves alone: files before the current one do not change, every other file only
gets longer and more durable, and a segment with unconfirmed records stays tracked with at least as
many. -/
structure Grows (w w' : World) : Prop where
  seq_le : w.inner.currentSeq ≤ w'.inner.currentSeq
  old : ∀ g < w.inner.currentSeq, w'.fileAt g = w.fileAt g
  files : ∀ g file, w.fileAt g = some file → ∃ file', w'.fileAt g = some file' ∧
    file.bytes <+: file'.bytes ∧ file.durable ≤ file'.durable
  counts : ∀ (g : ℕ) (state : SegmentState), w.inner.segments[g]? = some state → 0 < state.outstanding →
    ∃ state' : SegmentState, w'.inner.segments[g]? = some state' ∧ state.outstanding ≤ state'.outstanding

theorem Grows.refl (w : World) : Grows w w :=
  ⟨le_rfl, fun _ _ => rfl, fun _ file h => ⟨file, h, prefix_refl _, le_rfl⟩,
    fun _ state h _ => ⟨state, h, le_rfl⟩⟩

/-- A log in the middle of a call that started in `w₀` and has at most `n` rotations ahead. -/
structure Safe (w₀ : World) (n : ℕ) (w : World) : Prop where
  wf : WellFormed w
  grows : Grows w₀ w
  room : w.inner.currentSeq + n < 2 ^ 64

open Safe

def Unharmed (w₀ w : World) : Prop :=
  WellFormed w ∧ Grows w₀ w

namespace Safe

variable {w₀ w w' : World} {n : ℕ}

theorem unharmed (h : Safe w₀ n w) : Unharmed w₀ w :=
  ⟨h.wf, h.grows⟩

theorem mono {m : ℕ} (h : Safe w₀ n w) (hle : m ≤ n) : Safe w₀ m w :=
  ⟨h.wf, h.grows, by have := h.room; omega⟩

theorem of_same (h : Safe w₀ n w) (hdir : w'.dir = w.dir) (hpending : w'.pending = w.pending)
    (hseq : w'.inner.currentSeq = w.inner.currentSeq) (hsegs : w'.inner.segments = w.inner.segments)
    (hsynced : w'.synced ≤ w'.inner.written) : Safe w₀ n w' := by
  have hfile (g : ℕ) : w'.fileAt g = w.fileAt g := by rw [fileAt, fileAt, hdir]
  obtain ⟨⟨h₀, h₁, h₂, h₃, h₄, -⟩, ⟨k₁, k₂, k₃, k₄⟩, hroom⟩ := h
  refine ⟨⟨?_, ?_, ?_, ?_, ?_, hsynced⟩, ⟨?_, ?_, ?_, ?_⟩, ?_⟩ <;>
    simp only [hfile, hpending, hseq, hsegs] <;> assumption

theorem setBuffer (h : Safe w₀ n w) (buffer : Bytes) : Safe w₀ n (w.setBuffer buffer) :=
  h.of_same rfl rfl rfl rfl h.wf.synced_le

theorem modifyFile (h : Safe w₀ n w) {g : ℕ} (hg : w₀.inner.currentSeq ≤ g) {f : File → File}
    (hf : ∀ file : File, file.bytes <+: (f file).bytes ∧ file.durable ≤ (f file).durable) :
    Safe w₀ n (w.modifyFile g f) := by
  have hat := fun g' => w.fileAt_modifyFile g' g f
  have hnone (g' : ℕ) : (w.modifyFile g f).fileAt g' = none ↔ w.fileAt g' = none := by
    rw [hat]
    split_ifs <;> simp
  refine ⟨⟨h.wf.seq_lt, h.wf.tracked_le, fun g' hg' => ?_, fun g' hg' hlt => ?_, h.wf.pending_untracked,
    h.wf.synced_le⟩, ⟨h.grows.seq_le, fun g' hg' => ?_, fun g' file hfile => ?_, h.grows.counts⟩,
    h.room⟩
  · exact (hnone g').not.mpr (h.wf.tracked_file g' hg')
  · exact (hnone g').mpr (h.wf.fresh g' hg' hlt)
  · rw [hat, if_neg (by omega), h.grows.old g' hg']
  · obtain ⟨file', hfile', hbytes, hdurable⟩ := h.grows.files g' file hfile
    grind

theorem extendFile (h : Safe w₀ n w) (bs : Bytes) : Safe w₀ n (w.extendFile bs) :=
  h.modifyFile h.grows.seq_le fun _ => ⟨prefix_append .., le_rfl⟩

variable {segs : Segments}

theorem setSegments (h : Safe w₀ n w) (htracked : ∀ g : ℕ, segs[g]? ≠ none → w.inner.segments[g]? ≠ none)
    (hcounts : ∀ (g : ℕ) (state : SegmentState), w.inner.segments[g]? = some state → 0 < state.outstanding →
      ∃ state' : SegmentState, segs[g]? = some state' ∧ state.outstanding ≤ state'.outstanding) :
    Safe w₀ n (w.setSegments segs) := by
  refine ⟨h.wf.setSegments htracked, ⟨h.grows.seq_le, h.grows.old, h.grows.files,
    fun g state hstate hpos => ?_⟩, h.room⟩
  obtain ⟨state₁, hstate₁, hle₁⟩ := h.grows.counts g state hstate hpos
  obtain ⟨state₂, hstate₂, hle₂⟩ := hcounts g state₁ hstate₁ (hpos.trans_le hle₁)
  exact ⟨state₂, hstate₂, hle₁.trans hle₂⟩

theorem sealSegment (h : Safe w₀ n w) (seq : ℕ) :
    Safe w₀ n (w.setSegments (w.inner.segments.sealSegment seq)) := by
  refine h.setSegments (fun g hg => ?_) fun g state hstate _ => ?_
  · grind [getElem?_sealSegment]
  · grind [getElem?_sealSegment]

theorem bump (h : Safe w₀ n w) {seq : ℕ} (hbump : w.inner.segments.bump seq = some segs) :
    Safe w₀ n (w.setSegments segs) := by
  obtain ⟨state, hstate, hget⟩ := bump_eq_some hbump
  refine h.setSegments (fun g hg => ?_) fun g state' hstate' _ => ?_
  · grind
  · grind

theorem collect (h : Safe w₀ n w) : Safe w₀ n w.collect := by
  refine ⟨h.wf.collect, ⟨h.grows.seq_le, h.grows.old, h.grows.files, fun g state hstate hpos => ?_⟩, h.room⟩
  obtain ⟨state', hstate', hle⟩ := h.grows.counts g state hstate hpos
  exact ⟨state', getElem?_collectConfirmed_of_pos hstate' (hpos.trans_le hle), hle⟩

theorem switchTo (h : Safe w₀ (n + 1) w) :
    Safe w₀ n ((w.createFile (w.inner.currentSeq + 1)).switchTo (w.inner.currentSeq + 1)) := by
  have hroom := h.room
  have hfresh : w.fileAt (w.inner.currentSeq + 1) = none :=
    h.wf.fresh _ (by omega) (by omega)
  have hat (g : ℕ) : ((w.createFile (w.inner.currentSeq + 1)).switchTo (w.inner.currentSeq + 1)).fileAt g
        = if g = w.inner.currentSeq + 1 then some .empty else w.fileAt g := by
    grind [fileAt_createFile, fileAt_switchTo]
  have huntracked : w.inner.segments[w.inner.currentSeq + 1]? = none := by
    by_contra htracked
    have := h.wf.tracked_le _ htracked
    omega
  have hget (g : ℕ) : (w.inner.segments.track (w.inner.currentSeq + 1))[g]?
      = if w.inner.currentSeq + 1 = g then some ⟨0, false⟩ else w.inner.segments[g]? :=
    getElem?_track ..
  refine ⟨⟨(by omega : w.inner.currentSeq + 1 < 2 ^ 64), fun g hg => ?_, fun g hg => ?_,
    fun g hlt hmax => ?_, fun g hg => ?_, h.wf.synced_le⟩, ⟨?_, fun g hg => ?_, fun g file hfile => ?_,
    fun g state hstate hpos => ?_⟩, ?_⟩
  · change (w.inner.segments.track (w.inner.currentSeq + 1))[g]? ≠ none at hg
    show g ≤ w.inner.currentSeq + 1
    rw [hget] at hg
    split_ifs at hg with heq
    · omega
    · exact (h.wf.tracked_le g hg).trans (Nat.le_succ _)
  · change (w.inner.segments.track (w.inner.currentSeq + 1))[g]? ≠ none at hg
    by_cases heq : w.inner.currentSeq + 1 = g
    · rw [hat, if_pos heq.symm]
      simp
    · rw [hget, if_neg heq] at hg
      rw [hat, if_neg (Ne.symm heq)]
      exact h.wf.tracked_file g hg
  · change w.inner.currentSeq + 1 < g at hlt
    rw [hat, if_neg (by omega)]
    exact h.wf.fresh g (by omega) hmax
  · obtain ⟨hle, hnone⟩ := h.wf.pending_untracked g hg
    refine ⟨hle.trans (Nat.le_succ _), ?_⟩
    show (w.inner.segments.track (w.inner.currentSeq + 1))[g]? = none
    rw [hget, if_neg (by omega), hnone]
  · exact h.grows.seq_le.trans (Nat.le_succ _)
  · have := h.grows.seq_le
    rw [hat, if_neg (by omega), h.grows.old g hg]
  · obtain ⟨file', hfile', hrest⟩ := h.grows.files g file hfile
    grind
  · obtain ⟨state', hstate', hle⟩ := h.grows.counts g state hstate hpos
    refine ⟨state', ?_, hle⟩
    show (w.inner.segments.track (w.inner.currentSeq + 1))[g]? = some state'
    grind
  · show w.inner.currentSeq + 1 + n < 2 ^ 64
    omega

end Safe

/-! ## The calls -/

open Prog (Triple)

def Unscripted (P : World → Prop) : Prop :=
  ∀ w script, P w → P { w with script }

theorem triple_outcome {α : Type} {P : World → Prop} {Q : α → World → Prop} {E : World → Prop}
    {ok : Call α} {fail : ℕ → Call α} (hP : Unscripted P) (hok : Triple P ok Q E)
    (hfail : ∀ n, Triple P (fail n) Q E) :
    Triple P (do match ← nextOutcome with
      | none => ok
      | some n => fail n) Q E := by
  have hnext : Triple P nextOutcome (fun _ => P) E := by
    intro w hw
    unfold nextOutcome
    cases hscript : w.script with
    | nil => exact hw
    | cons outcome script => exact hP w script hw
  refine bind hnext fun outcome => ?_
  grind

def Keeps {α : Type} (w₀ : World) (n : ℕ) (x : Call α) : Prop :=
  Triple (Safe w₀ n) x (fun _ => Safe w₀ n) (Unharmed w₀)

section Calls

variable {w₀ : World} {n : ℕ} {crc : Bytes → UInt32}

theorem Safe.unscripted : Unscripted (Safe w₀ n) :=
  fun _ _ h => h.of_same rfl rfl rfl rfl h.wf.synced_le

theorem keeps_throw {α : Type} (e : IoError) : Keeps w₀ n (throw e : Call α) :=
  throw fun _ => unharmed

theorem keeps_gets {α : Type} (f : World → α) : Keeps w₀ n (gets f : Call α) :=
  gets fun _ h => h

theorem keeps_fileWriteAll (bs : Bytes) : Keeps w₀ n (fileWriteAll bs) := by
  refine ite (fun _ => pure fun _ h => h) fun _ =>
    triple_outcome unscripted (modify fun _ h => h.extendFile bs) fun k => ?_
  exact bind (Q := fun _ => Safe w₀ n) (modify fun _ h => h.extendFile _) fun _ => keeps_throw _

theorem keeps_flushBuf : Keeps w₀ n flushBuf := by
  refine bind (keeps_gets _) fun buffer => ite (fun _ => pure fun _ h => h)
    fun _ => triple_outcome unscripted (modify fun _ h => (h.extendFile _).setBuffer _) fun k => ?_
  exact bind (Q := fun _ => Safe w₀ n) (modify fun _ h => (h.extendFile _).setBuffer _) fun _ => keeps_throw _

theorem keeps_writeAll (bs : Bytes) : Keeps w₀ n (writeAll bs) := by
  have hbuffer : Keeps w₀ n (modify fun w => w.setBuffer (w.inner.buffer ++ bs)) :=
    modify fun _ h => h.setBuffer _
  refine bind (keeps_gets _) fun buffered => ite (fun _ => hbuffer) fun _ => ?_
  refine bind (when (fun _ => keeps_flushBuf) fun _ _ h => h) fun _ => ?_
  exact ite (fun _ => keeps_fileWriteAll bs) fun _ => hbuffer

theorem Safe.sync {w : World} (h : Safe w₀ n w) {g : ℕ} (hg : w₀.inner.currentSeq ≤ g) :
    Safe w₀ n (w.modifyFile g File.sync) :=
  h.modifyFile hg fun file => ⟨prefix_refl _, file.durable_le⟩

theorem keeps_syncData {g : ℕ} (hg : w₀.inner.currentSeq ≤ g) : Keeps w₀ n (syncData g) :=
  triple_outcome unscripted (modify fun _ h => h.sync hg) fun _ => keeps_throw _

theorem keeps_tryClone : Keeps w₀ n tryClone :=
  triple_outcome unscripted (pure fun _ h => h) fun _ => keeps_throw _

theorem rotate_safe :
    Triple (Safe w₀ (n + 1)) rotate
      (fun old w => Safe w₀ n w ∧ w₀.inner.currentSeq ≤ old ∧ old + 1 = w.inner.currentSeq)
      (Unharmed w₀) := by
  refine bind keeps_flushBuf fun _ => ?_
  refine bind (Q := fun old w => Safe w₀ (n + 1) w ∧ old = w.inner.currentSeq)
    (gets fun _ h => ⟨h, rfl⟩) fun old => ?_
  refine bind (Q := fun _ w => Safe w₀ (n + 1) w ∧ old = w.inner.currentSeq)
    (modify fun _ h => ⟨h.1.sealSegment old, h.2⟩) fun _ => ?_
  refine bind (Q := fun _ w => ∃ w', Safe w₀ (n + 1) w' ∧ old = w'.inner.currentSeq ∧
    w = w'.createFile ((old + 1) % 2 ^ 64)) ?_ fun _ => ?_
  · refine triple_outcome (fun w script h => ⟨unscripted w script h.1, h.2⟩)
      (modify fun w h => ⟨w, h.1, h.2, rfl⟩) fun _ => throw fun _ h => h.1.unharmed
  · refine bind (Q := fun _ w => Safe w₀ n w ∧ w₀.inner.currentSeq ≤ old ∧
      old + 1 = w.inner.currentSeq) (modify ?_) fun _ => ?_
    · rintro _ ⟨w, hsafe, rfl, rfl⟩
      have hroom := hsafe.room
      rw [Nat.mod_eq_of_lt (by omega)]
      exact ⟨hsafe.switchTo, hsafe.grows.seq_le, rfl⟩
    · exact bind (Q := fun _ w => Safe w₀ n w ∧ w₀.inner.currentSeq ≤ old ∧
        old + 1 = w.inner.currentSeq) (modify fun _ h => ⟨h.1.collect, h.2⟩)
        fun _ => pure fun _ h => h

theorem rotateIfFull_safe :
    Triple (Safe w₀ (n + 1)) rotateIfFull
      (fun sealed w => Safe w₀ n w ∧ ∀ g ∈ sealed, w₀.inner.currentSeq ≤ g) (Unharmed w₀) := by
  refine bind (keeps_gets _) fun full => ite (fun _ => ?_) fun _ => ?_
  · refine bind rotate_safe fun old => pure fun w h => ⟨h.1, ?_⟩
    simpa using h.2.1
  · exact pure fun w h => ⟨h.mono (Nat.le_succ n), by simp⟩

theorem keeps_appendRecord (item : WalItem) : Keeps w₀ n (appendRecord crc item) := by
  refine ite (fun _ => keeps_throw _) fun _ => ?_
  refine bind (forM (I := fun _ => Safe w₀ n) fun _ bs _ _ => keeps_writeAll bs) fun _ => ?_
  refine bind (Q := fun _ => Safe w₀ n)
    (modify fun _ h => h.of_same rfl rfl rfl rfl h.wf.synced_le) fun _ => ?_
  refine bind (keeps_gets _) fun seq => ?_
  refine bind (Q := fun bumped w => Safe w₀ n w ∧ bumped = w.inner.segments.bump seq)
    (gets fun _ h => ⟨h, rfl⟩) fun bumped => ?_
  cases bumped with
  | none => exact throw fun _ h => h.1.unharmed
  | some segments =>
    exact bind (Q := fun _ => Safe w₀ n) (modify fun _ h => h.1.bump h.2.symm) fun _ => pure fun _ h => h

theorem appendItems_safe (items : List WalItem) :
    Triple (Safe w₀ (n + items.length)) (appendItems crc items)
      (fun r w => Safe w₀ n w ∧ ∀ g ∈ r.2, w₀.inner.currentSeq ≤ g) (Unharmed w₀) := by
  induction items with
  | nil => exact pure fun _ h => ⟨h, by simp⟩
  | cons item items ih =>
    refine bind rotateIfFull_safe fun sealed => ?_
    refine bind (Q := fun _ w => Safe w₀ (n + items.length) w ∧
      ∀ g ∈ sealed, w₀.inner.currentSeq ≤ g) ?_ fun pos => ?_
    · intro w h
      exact (keeps_appendRecord item).conseq (fun _ hw => hw) (fun _ _ hw => ⟨hw, h.2⟩) (fun _ hw => hw) w h.1
    · refine bind (Q := fun r w => (Safe w₀ n w ∧ ∀ g ∈ r.2, w₀.inner.currentSeq ≤ g) ∧
        ∀ g ∈ sealed, w₀.inner.currentSeq ≤ g) ?_ fun r => pure fun w h => ?_
      · intro w h
        exact ih.conseq (fun _ hw => hw) (fun _ _ hw => ⟨hw, h.2⟩) (fun _ hw => hw) w h.1
      · grind

theorem commit_safe {count : ℕ} {sealed : List ℕ} (hsealed : ∀ g ∈ sealed, w₀.inner.currentSeq ≤ g) :
    Keeps w₀ n (commit count sealed) := by
  refine bind keeps_flushBuf fun _ => bind keeps_tryClone fun _ => ?_
  refine bind (Q := fun _ => Safe w₀ n) (modify fun _ h =>
    h.of_same rfl rfl rfl rfl (h.wf.synced_le.trans (Nat.le_add_right ..))) fun _ => ?_
  refine bind (Q := fun fd w => Safe w₀ n w ∧ w₀.inner.currentSeq ≤ fd)
    (gets fun _ h => ⟨h, h.grows.seq_le⟩) fun fd => of_forall fun w₁ hw₁ => ?_
  refine bind (Q := fun _ => Safe w₀ n) (gets (by rintro _ rfl; exact hw₁.1)) fun myGen => ?_
  refine bind (forM (I := fun _ => Safe w₀ n) fun done g rest hcs =>
    keeps_syncData (hsealed g (by rw [← hcs]; simp))) fun _ => ?_
  refine bind (keeps_gets _) fun synced => when (fun _ => ?_) fun _ _ h => h
  refine bind (Q := fun covered w => Safe w₀ n w ∧ covered = w.inner.written)
    (gets fun _ h => ⟨h, rfl⟩) fun covered => ?_
  refine bind (Q := fun _ w => Safe w₀ n w ∧ covered = w.inner.written) ?_ fun _ =>
    modify fun w h => h.1.of_same rfl rfl rfl rfl (max_le h.1.wf.synced_le h.2.le)
  exact triple_outcome (fun w script h => ⟨unscripted w script h.1, h.2⟩)
    (modify fun _ h => ⟨h.1.sync hw₁.2, h.2⟩) fun _ => throw fun _ h => h.1.unharmed

theorem appendBatch_keeps (crc : Bytes → UInt32) (items : List WalItem) :
    Triple (Safe w₀ items.length) (appendBatch crc items) (fun _ => Safe w₀ 0) (Unharmed w₀) := by
  refine bind ((appendItems_safe items).conseq (fun _ h => by rwa [Nat.zero_add])
    (fun _ _ h => h) fun _ h => h) fun r => of_forall fun w₁ hw₁ => ?_
  refine bind (Q := fun _ => Safe w₀ 0) ?_ fun _ => pure fun _ h => h
  exact (commit_safe hw₁.2).conseq (by rintro _ rfl; exact hw₁.1) (fun _ _ h => h) fun _ h => h

end Calls

theorem appendBatch_safe (crc : Bytes → UInt32) {w : World} {items : List WalItem} (hwf : WellFormed w)
    (hroom : w.inner.currentSeq + items.length < 2 ^ 64) :
    WellFormed (appendBatch crc items w).2 ∧ Grows w (appendBatch crc items w).2 := by
  have h := appendBatch_keeps crc items w ⟨hwf, Grows.refl w, hroom⟩
  split at h
  · next heq =>
      rw [heq]
      exact h.unharmed
  · next heq =>
      rw [heq]
      exact h

end RSearch.Wal
