import RSearch.Lib.Runs
import RSearch.Wal.Writer

/-!
# Acknowledged records across failed appends

A batch is acknowledged when `append_batch` returns its positions.  Until the records are confirmed, the
next open of the log must yield them, whatever a crash takes of what was not durable.
-/

namespace RSearch.Wal

open List Option Bytes SegmentCursor World WalReplay WalItem WalPos
open Prog (Triple)

variable {crc : Bytes → UInt32}

/-! ## What a segment holds -/

def Stored (crc : Bytes → UInt32) (item : WalItem) (g : ℕ) (bytes : Bytes) : Prop :=
  ∃ c ∈ segmentRecords crc g bytes, ∀ uuid, c.record uuid = item.toRecord g

def Whole (crc : Bytes → UInt32) (g : ℕ) (bytes : Bytes) : Prop :=
  (SegmentCursor.scan crc { seq := g, reader := bytes }).2.reader = []

instance decidableWhole (g : ℕ) (bytes : Bytes) : Decidable (Whole crc g bytes) :=
  inferInstanceAs (Decidable (_ = _))

variable {item : WalItem} {g : ℕ} {bytes bs : Bytes} {w : World}

theorem Stored.mono {bytes' : Bytes} (h : Stored crc item g bytes) (hle : bytes <+: bytes') :
    Stored crc item g bytes' := by
  obtain ⟨c, hc, hrecord⟩ := h
  obtain ⟨more, rfl⟩ := hle
  have hscan := scan_extend crc { seq := g, reader := bytes } more
  refine ⟨c.extend more, ?_, hrecord⟩
  show _ ∈ (scan crc (({ seq := g, reader := bytes } : SegmentCursor).extend more)).1
  rw [hscan]
  exact mem_append_left _ (List.mem_map_of_mem hc)

theorem whole_nil (g : ℕ) : Whole crc g [] := by
  rw [Whole, scan_of_reader_nil rfl]

theorem Whole.encode (h : Whole crc g bytes) (hfits : item.Fits) :
    Whole crc g (bytes ++ item.encode crc) ∧ Stored crc item g (bytes ++ item.encode crc) := by
  have hscan := scan_extend crc { seq := g, reader := bytes } (item.encode crc)
  have hseq := seq_of_scan crc { seq := g, reader := bytes }
  rw [Whole] at h
  generalize (scan crc { seq := g, reader := bytes }).2 = last at h hscan hseq
  obtain ⟨seq, reader, buf, layout⟩ := last
  obtain rfl : seq = g := hseq
  obtain rfl : reader = [] := h
  have hlast : ({ seq, reader := [], buf, layout } : SegmentCursor).extend (item.encode crc)
      = { seq, reader := item.encode crc ++ [], buf, layout } := by
    simp [extend]
  have hend : (after item seq []).scan crc = ([], after item seq []) :=
    scan_of_reader_nil rfl
  rw [hlast, scan_encode hfits, hend] at hscan
  refine ⟨?_, after item seq [], ?_, fun uuid => record_after ..⟩
  · show (scan crc (extend { seq, reader := bytes } (item.encode crc))).2.reader = []
    rw [hscan]
    rfl
  · show _ ∈ (scan crc (extend { seq, reader := bytes } (item.encode crc))).1
    rw [hscan]
    simp

/-! ## What the writer puts into the segments -/

def World.content (w : World) (g : ℕ) : Option Bytes :=
  (w.fileAt g).map fun file =>
    file.bytes ++ if g = w.inner.currentSeq then w.inner.buffer else []

/-- From `w` to `w'`, the writer added `bs` to the current segment and changed no count. -/
structure Wrote (w : World) (bs : Bytes) (w' : World) : Prop where
  seq : w'.inner.currentSeq = w.inner.currentSeq
  segments : w'.inner.segments = w.inner.segments
  content : ∀ g, w'.content g
    = if g = w.inner.currentSeq then (w.content g).map (· ++ bs) else w.content g

namespace Wrote

variable {w w' w'' : World} {bs bs' : Bytes}

theorem refl (w : World) : Wrote w [] w := by
  refine ⟨rfl, rfl, fun g => ?_⟩
  split_ifs <;> simp

theorem trans (h : Wrote w bs w') (h' : Wrote w' bs' w'') : Wrote w (bs ++ bs') w'' := by
  refine ⟨h'.seq.trans h.seq, h'.segments.trans h.segments, fun g => ?_⟩
  rw [h'.content, h.content, h.seq]
  split_ifs with hg
  · cases w.content g <;> simp
  · rfl

theorem script (h : Wrote w bs w') (script : List (Option ℕ)) : Wrote w bs { w' with script } :=
  ⟨h.seq, h.segments, h.content⟩

theorem setBuffer (w : World) (bs : Bytes) : Wrote w bs (w.setBuffer (w.inner.buffer ++ bs)) := by
  refine ⟨rfl, rfl, fun g => ?_⟩
  simp only [World.content, World.fileAt_setBuffer]
  by_cases hg : g = w.inner.currentSeq
  · cases w.fileAt g <;> simp [World.setBuffer, hg]
  · simp [World.setBuffer, hg]

theorem extendFile {w : World} (hbuffer : w.inner.buffer = []) (bs : Bytes) :
    Wrote w bs (w.extendFile bs) := by
  refine ⟨rfl, rfl, fun g => ?_⟩
  simp only [World.content, World.extendFile, World.fileAt_modifyFile]
  by_cases hg : g = w.inner.currentSeq
  · cases hfile : w.fileAt g <;> simp [hg, hbuffer, File.extend, World.modifyFile]
  · simp [hg, World.modifyFile]

theorem flush (w : World) : Wrote w [] ((w.extendFile w.inner.buffer).setBuffer []) := by
  refine ⟨rfl, rfl, fun g => ?_⟩
  simp only [World.content, World.fileAt_setBuffer, World.extendFile, World.fileAt_modifyFile]
  by_cases hg : g = w.inner.currentSeq
  · cases hfile : w.fileAt g <;> simp [hg, File.extend, World.modifyFile, World.setBuffer]
  · simp [hg, World.modifyFile, World.setBuffer]

end Wrote

section Calls

variable {w : World} {bs bs' : Bytes}

theorem flushBuf_wrote :
    Triple (Wrote w bs) flushBuf (fun _ w' => Wrote w bs w' ∧ w'.inner.buffer = [])
      (fun _ => True) := by
  refine Triple.bind (Q := fun buffer w' => Wrote w bs w' ∧ buffer = w'.inner.buffer)
    (Triple.gets fun _ h => ⟨h, rfl⟩) fun buffer => Triple.ite (fun hnil => ?_) fun _ => ?_
  · exact Triple.pure fun _ h => ⟨h.1, h.2 ▸ hnil⟩
  · refine triple_outcome (fun _ script h => ⟨h.1.script script, h.2⟩) (Triple.modify ?_) fun _ => ?_
    · rintro w' ⟨h, rfl⟩
      exact ⟨by simpa using h.trans (Wrote.flush w'), rfl⟩
    · exact Triple.bind (Q := fun _ _ => True) (Triple.modify fun _ _ => trivial)
        fun _ => Triple.throw fun _ _ => trivial

theorem fileWriteAll_wrote :
    Triple (fun w' => Wrote w bs w' ∧ w'.inner.buffer = []) (fileWriteAll bs')
      (fun _ => Wrote w (bs ++ bs')) (fun _ => True) := by
  refine Triple.ite (fun hnil => ?_) fun _ => ?_
  · exact Triple.pure fun _ h => by rw [hnil, append_nil]; exact h.1
  · refine triple_outcome (fun _ script h => ⟨h.1.script script, h.2⟩)
      (Triple.modify fun _ h => h.1.trans (Wrote.extendFile h.2 bs')) fun _ => ?_
    exact Triple.bind (Q := fun _ _ => True) (Triple.modify fun _ _ => trivial)
      fun _ => Triple.throw fun _ _ => trivial

theorem writeAll_wrote :
    Triple (Wrote w bs) (writeAll bs') (fun _ => Wrote w (bs ++ bs')) (fun _ => True) := by
  have hbuffer : Triple (Wrote w bs) (Prog.modify fun w' => w'.setBuffer (w'.inner.buffer ++ bs') : Call Unit)
      (fun _ => Wrote w (bs ++ bs')) (fun _ => True) :=
    Triple.modify fun w' h => h.trans (Wrote.setBuffer w' bs')
  refine Triple.bind (Q := fun buffered w' => Wrote w bs w' ∧ buffered = w'.inner.buffer.length)
    (Triple.gets fun _ h => ⟨h, rfl⟩) fun buffered => ?_
  refine Triple.ite (fun _ => hbuffer.conseq (fun _ h => h.1) (fun _ _ h => h) fun _ h => h) fun _ => ?_
  refine Triple.bind (Q := fun _ w' => Wrote w bs w' ∧
    (bufCapacity ≤ bs'.length → w'.inner.buffer = [])) ?_ fun _ => ?_
  · refine Triple.when (fun _ => ?_) fun hfits w' h => ⟨h.1, fun hlarge => ?_⟩
    · exact flushBuf_wrote.conseq (fun _ h => h.1) (fun _ _ h => ⟨h.1, fun _ => h.2⟩) fun _ h => h
    · -- a write of exactly the buffer's size skips the flush only if the buffer is empty
      have hcap : 0 < bufCapacity := by decide
      exact length_eq_zero_iff.mp (by omega)
  · refine Triple.ite (fun hlarge => ?_) fun _ => ?_
    · exact fileWriteAll_wrote.conseq (fun _ h => ⟨h.1, h.2 hlarge⟩) (fun _ _ h => h) fun _ h => h
    · exact hbuffer.conseq (fun _ h => h.1) (fun _ _ h => h) fun _ h => h

end Calls

/-! ## A batch in progress -/

/-- An append in progress that started in `w₀`: `done` are the records written so far with their
segments, `sealed` the segments left behind, and `A` the segments of the records acknowledged
before. -/
structure Intact (crc : Bytes → UInt32) (w₀ : World) (A : List ℕ) (done : List (WalItem × ℕ))
    (sealed : List ℕ) (n : ℕ) (w : World) : Prop where
  safe : Safe w₀ n w
  whole : ∀ bytes, w.content w.inner.currentSeq = some bytes → Whole crc w.inner.currentSeq bytes
  stored : ∀ p ∈ done, ∃ bytes, w.content p.2 = some bytes ∧ Stored crc p.1 p.2 bytes
  home : ∀ p ∈ done, w₀.inner.currentSeq ≤ p.2 ∧ (p.2 ∈ sealed ∨ p.2 = w.inner.currentSeq)
  sealed_lt : ∀ g ∈ sealed, w₀.inner.currentSeq ≤ g ∧ g < w.inner.currentSeq
  covers : Covers w.inner.segments (done.map Prod.snd ++ A)

namespace Intact

variable {w₀ w w' : World} {A : List ℕ} {done : List (WalItem × ℕ)} {sealed : List ℕ} {n : ℕ}

theorem mono {m : ℕ} (h : Intact crc w₀ A done sealed n w) (hle : m ≤ n) :
    Intact crc w₀ A done sealed m w :=
  { h with safe := h.safe.mono hle }

theorem of_wrote (h : Intact crc w₀ A done sealed n w) (hw : Wrote w [] w') (hsafe : Safe w₀ n w') :
    Intact crc w₀ A done sealed n w' := by
  have hcontent (g : ℕ) : w'.content g = w.content g := by
    rw [hw.content]
    split_ifs <;> simp
  refine ⟨hsafe, ?_, ?_, ?_, ?_, ?_⟩
  · rw [hw.seq]
    simpa only [hcontent] using h.whole
  · simpa only [hcontent] using h.stored
  · rw [hw.seq]
    exact h.home
  · rw [hw.seq]
    exact h.sealed_lt
  · rw [hw.segments]
    exact h.covers

theorem sealSegment (h : Intact crc w₀ A done sealed n w) (seq : ℕ) :
    Intact crc w₀ A done sealed n (w.setSegments (w.inner.segments.sealSegment seq)) :=
  ⟨h.safe.sealSegment seq, h.whole, h.stored, h.home, h.sealed_lt, h.covers.sealSegment seq⟩

theorem collect (h : Intact crc w₀ A done sealed n w) : Intact crc w₀ A done sealed n w.collect :=
  ⟨h.safe.collect, h.whole, h.stored, h.home, h.sealed_lt, h.covers.collectConfirmed⟩

theorem switchTo (h : Intact crc w₀ A done sealed (n + 1) w) (hbuffer : w.inner.buffer = []) :
    Intact crc w₀ A done (sealed ++ [w.inner.currentSeq]) n
      ((w.createFile (w.inner.currentSeq + 1)).switchTo (w.inner.currentSeq + 1)) := by
  have hroom := h.safe.room
  have hfresh : w.fileAt (w.inner.currentSeq + 1) = none :=
    h.safe.wf.fresh _ (by omega) (by omega)
  have hcontent (g : ℕ) : ((w.createFile (w.inner.currentSeq + 1)).switchTo
      (w.inner.currentSeq + 1)).content g
        = if g = w.inner.currentSeq + 1 then some [] else w.content g := by
    simp only [content, fileAt_switchTo, fileAt_createFile, hfresh, and_true, hbuffer, ite_self, append_nil]
    have hempty : ((w.createFile (w.inner.currentSeq + 1)).switchTo
        (w.inner.currentSeq + 1)).inner.buffer = [] := rfl
    simp only [hempty, ite_self, append_nil]
    split_ifs <;> rfl
  have huntracked : w.inner.segments[w.inner.currentSeq + 1]? = none := by
    by_contra htracked
    have := h.safe.wf.tracked_le _ htracked
    omega
  have hle {p : WalItem × ℕ} (hp : p ∈ done) : p.2 ≤ w.inner.currentSeq := by
    rcases (h.home p hp).2 with hsealed | hcurrent
    · exact (h.sealed_lt _ hsealed).2.le
    · exact hcurrent.le
  refine ⟨h.safe.switchTo, fun bytes hbytes => ?_, fun p hp => ?_, fun p hp => ?_, fun g hg => ?_,
    (h.covers.track huntracked)⟩
  · change content _ (w.inner.currentSeq + 1) = some bytes at hbytes
    grind [whole_nil]
  · obtain ⟨bytes, hbytes, hstored⟩ := h.stored p hp
    grind
  · obtain ⟨hge, hsealed | hcurrent⟩ := h.home p hp
    · grind
    · grind
  · show _ ∧ g < w.inner.currentSeq + 1
    rcases mem_append.mp hg with hg | hg
    · have := h.sealed_lt g hg
      omega
    · obtain rfl := mem_singleton.mp hg
      exact ⟨h.safe.grows.seq_le, Nat.lt_succ_self _⟩

variable {item : WalItem}

theorem appended (h : Intact crc w₀ A done sealed n w) (hfits : item.Fits)
    (hw : Wrote w (item.encode crc) w') (hsafe : Safe w₀ n w') {segs : Segments}
    (hbump : w'.inner.segments.bump w'.inner.currentSeq = some segs) :
    Intact crc w₀ A ((item, w'.inner.currentSeq) :: done) sealed n (w'.setSegments segs) := by
  have hseq := hw.seq
  have hcurrent : w'.content w'.inner.currentSeq
      = (w.content w'.inner.currentSeq).map (· ++ item.encode crc) := by
    rw [hw.content, if_pos hseq]
  have hwhole {bytes : Bytes} (hbytes : w.content w'.inner.currentSeq = some bytes) :
      Whole crc w'.inner.currentSeq bytes := by
    rw [hseq] at hbytes ⊢
    exact h.whole bytes hbytes
  refine ⟨hsafe.bump hbump, fun bytes hbytes => ?_, fun p hp => ?_, fun p hp => ?_, ?_, ?_⟩
  · change w'.content w'.inner.currentSeq = some bytes at hbytes
    rw [hcurrent, map_eq_some_iff] at hbytes
    obtain ⟨before, hbefore, rfl⟩ := hbytes
    exact ((hwhole hbefore).encode hfits).1
  · change ∃ bytes, w'.content p.2 = some bytes ∧ _
    rcases mem_cons.mp hp with rfl | hp
    · obtain ⟨state, hstate, -⟩ := Segments.bump_eq_some hbump
      obtain ⟨file, hfile⟩ := ne_none_iff_exists'.mp
        (hsafe.wf.tracked_file w'.inner.currentSeq (by rw [hstate]; simp))
      obtain ⟨bytes, hbytes⟩ : ∃ bytes, w'.content w'.inner.currentSeq = some bytes :=
        ⟨_, by rw [content, hfile]; rfl⟩
      refine ⟨bytes, hbytes, ?_⟩
      rw [hcurrent, map_eq_some_iff] at hbytes
      obtain ⟨before, hbefore, rfl⟩ := hbytes
      exact ((hwhole hbefore).encode hfits).2
    · obtain ⟨bytes, hbytes, hstored⟩ := h.stored p hp
      rw [hw.content, hbytes]
      split_ifs
      · exact ⟨_, rfl, hstored.mono (prefix_append ..)⟩
      · exact ⟨_, rfl, hstored⟩
  · rcases mem_cons.mp hp with rfl | hp
    · exact ⟨hsafe.grows.seq_le, .inr rfl⟩
    · obtain ⟨hge, hhome⟩ := h.home p hp
      rw [← hseq] at hhome
      exact ⟨hge, hhome⟩
  · show ∀ g ∈ sealed, _ ∧ g < w'.inner.currentSeq
    rw [hseq]
    exact h.sealed_lt
  · have hcovers : Covers w'.inner.segments (done.map Prod.snd ++ A) := hw.segments ▸ h.covers
    exact hcovers.bump hbump

theorem flushBuf :
    Triple (Intact crc w₀ A done sealed n) flushBuf
      (fun _ w => Intact crc w₀ A done sealed n w ∧ w.inner.buffer = []) (Unharmed w₀) := by
  refine Triple.of_forall fun w h => ?_
  have hboth : Triple (fun w' => Safe w₀ n w' ∧ Wrote w [] w') Wal.flushBuf
      (fun _ w' => Safe w₀ n w' ∧ Wrote w [] w' ∧ w'.inner.buffer = [])
      (fun w' => Unharmed w₀ w' ∧ True) := Triple.and keeps_flushBuf flushBuf_wrote
  refine hboth.conseq ?_ ?_ fun _ h => h.1
  · grind [safe, Wrote.refl]
  · exact fun _ w' hw' => ⟨h.of_wrote hw'.2.1 hw'.1, hw'.2.2⟩

theorem rotate :
    Triple (Intact crc w₀ A done sealed (n + 1)) rotate
      (fun old => Intact crc w₀ A done (sealed ++ [old]) n) (Unharmed w₀) := by
  refine Triple.bind flushBuf fun _ => ?_
  refine Triple.bind (Q := fun old w => (Intact crc w₀ A done sealed (n + 1) w ∧
    w.inner.buffer = []) ∧ old = w.inner.currentSeq) (Triple.gets fun _ h => ⟨h, rfl⟩) fun old => ?_
  refine Triple.bind (Q := fun _ w => (Intact crc w₀ A done sealed (n + 1) w ∧
    w.inner.buffer = []) ∧ old = w.inner.currentSeq)
    (Triple.modify fun _ h => ⟨⟨h.1.1.sealSegment old, h.1.2⟩, h.2⟩) fun _ => ?_
  refine Triple.bind (Q := fun _ w => ∃ w', (Intact crc w₀ A done sealed (n + 1) w' ∧
    w'.inner.buffer = []) ∧ old = w'.inner.currentSeq ∧ w = w'.createFile ((old + 1) % 2 ^ 64))
    ?_ fun _ => ?_
  · refine triple_outcome (fun w script h => ⟨⟨?_, h.1.2⟩, h.2⟩)
      (Triple.modify fun w h => ⟨w, h.1, h.2, rfl⟩) fun _ =>
        Triple.throw fun _ h => h.1.1.safe.unharmed
    exact h.1.1.of_wrote ((Wrote.refl w).script script) (Safe.unscripted w script h.1.1.safe)
  · refine Triple.bind (Q := fun _ => Intact crc w₀ A done (sealed ++ [old]) n) (Triple.modify ?_) fun _ => ?_
    · rintro _ ⟨w, ⟨h, hbuffer⟩, rfl, rfl⟩
      have hroom := h.safe.room
      rw [Nat.mod_eq_of_lt (by omega)]
      exact h.switchTo hbuffer
    · exact Triple.bind (Q := fun _ => Intact crc w₀ A done (sealed ++ [old]) n)
        (Triple.modify fun _ h => h.collect) fun _ => Triple.pure fun _ h => h

theorem rotateIfFull :
    Triple (Intact crc w₀ A done sealed (n + 1)) rotateIfFull
      (fun new => Intact crc w₀ A done (sealed ++ new) n) (Unharmed w₀) := by
  refine Triple.bind (Q := fun _ => Intact crc w₀ A done sealed (n + 1))
    (Triple.gets fun _ h => h) fun full => Triple.ite (fun _ => ?_) fun _ => ?_
  · exact Triple.bind rotate fun old => Triple.pure fun _ h => h
  · exact Triple.pure fun _ h => by rw [append_nil]; exact h.mono (Nat.le_succ n)

theorem appendRecord (hlen : item.payloadLen < 2 ^ 32) :
    Triple (Intact crc w₀ A done sealed n) (appendRecord crc item)
      (fun pos => Intact crc w₀ A ((item, pos.segment) :: done) sealed n) (Unharmed w₀) := by
  refine Triple.ite (fun _ => Triple.throw fun _ h => h.safe.unharmed) fun hnames => ?_
  have hfits : item.Fits := ⟨by simpa using hnames, hlen⟩
  refine Triple.of_forall fun w h => ?_
  have hwrites : Triple (· = w) (Prog.forM (item.writes crc) writeAll)
      (fun _ w' => Safe w₀ n w' ∧ Wrote w (item.encode crc) w') (Unharmed w₀) := by
    refine (Triple.forM (I := fun parts w' => Safe w₀ n w' ∧ Wrote w parts.flatten w')
      fun parts bs rest _ => ?_).conseq ?_ (fun _ _ hw' => hw') fun _ he => he
    · have hboth : Triple (fun w' => Safe w₀ n w' ∧ Wrote w parts.flatten w') (writeAll bs)
          (fun _ w' => Safe w₀ n w' ∧ Wrote w (parts.flatten ++ bs) w')
          (fun w' => Unharmed w₀ w' ∧ True) := Triple.and (keeps_writeAll bs) writeAll_wrote
      grind
    · grind [safe, Wrote.refl]
  refine Triple.bind hwrites fun _ => ?_
  refine Triple.bind (Q := fun _ w' => Safe w₀ n w' ∧ Wrote w (item.encode crc) w')
    (Triple.modify fun w' hw' => ⟨hw'.1.of_same rfl rfl rfl rfl hw'.1.wf.synced_le,
      ⟨hw'.2.seq, hw'.2.segments, hw'.2.content⟩⟩) fun _ => ?_
  refine Triple.bind (Q := fun seq w' => (Safe w₀ n w' ∧ Wrote w (item.encode crc) w') ∧
    seq = w'.inner.currentSeq) (Triple.gets fun _ hw' => ⟨hw', rfl⟩) fun seq => ?_
  refine Triple.bind (Q := fun bumped w' => ((Safe w₀ n w' ∧ Wrote w (item.encode crc) w') ∧
    seq = w'.inner.currentSeq) ∧ bumped = w'.inner.segments.bump seq)
    (Triple.gets fun _ hw' => ⟨hw', rfl⟩) fun bumped => ?_
  cases bumped with
  | none => exact Triple.throw fun _ hw' => hw'.1.1.1.unharmed
  | some segs =>
    rintro w' ⟨⟨⟨hsafe, hwrote⟩, rfl⟩, hbump⟩
    exact h.appended hfits hwrote hsafe hbump.symm

theorem appendItems {items : List WalItem} (hlen : ∀ item ∈ items, item.payloadLen < 2 ^ 32) :
    Triple (Intact crc w₀ A done sealed (n + items.length)) (appendItems crc items)
      (fun r w => r.1.length = items.length ∧ Intact crc w₀ A
        ((items.zip (r.1.map segment)).reverse ++ done) (sealed ++ r.2) n w)
      (Unharmed w₀) := by
  induction items generalizing done sealed with
  | nil => exact Triple.pure fun _ h => ⟨rfl, by simpa using h⟩
  | cons item items ih =>
    refine Triple.bind rotateIfFull fun new => ?_
    refine Triple.bind (appendRecord (hlen item mem_cons_self)) fun pos => ?_
    refine Triple.bind (ih fun other hother => hlen other (mem_cons_of_mem _ hother))
      fun r => Triple.pure fun w h => ⟨by simp [h.1], ?_⟩
    simpa using h.2

end Intact

/-! ## The syncs -/

/-- The records of a batch are in their files, and in the durable part of those already synced. -/
structure Landed (crc : Bytes → UInt32) (A : List ℕ) (done : List (WalItem × ℕ)) (synced : List ℕ)
    (w : World) : Prop where
  covers : Covers w.inner.segments (done.map Prod.snd ++ A)
  stored : ∀ p ∈ done, ∃ file, w.fileAt p.2 = some file ∧ Stored crc p.1 p.2 file.bytes ∧
    (p.2 ∈ synced → file.durable = file.bytes.length)

namespace Landed

variable {A : List ℕ} {done : List (WalItem × ℕ)} {synced : List ℕ} {w : World}

variable {w₀ : World} {sealed : List ℕ}

theorem of_intact {n : ℕ} (h : Intact crc w₀ A done sealed n w) (hbuffer : w.inner.buffer = []) :
    Landed crc A done [] w := by
  refine ⟨h.covers, fun p hp => ?_⟩
  obtain ⟨bytes, hbytes, hstored⟩ := h.stored p hp
  rw [content, hbuffer, map_eq_some_iff] at hbytes
  grind

theorem sync (h : Landed crc A done synced w) (g : ℕ) :
    Landed crc A done (synced ++ [g]) (w.modifyFile g File.sync) := by
  refine ⟨h.covers, fun p hp => ?_⟩
  obtain ⟨file, hfile, hstored, hdurable⟩ := h.stored p hp
  rw [fileAt_modifyFile, hfile]
  split_ifs with hg
  · exact ⟨_, rfl, hstored, fun _ => rfl⟩
  · grind

theorem commit :
    Triple (Intact crc w₀ A done sealed 0) (commit done.length sealed)
      (fun _ w => ∃ fd, Landed crc A done (sealed ++ [fd]) w ∧
        ∀ p ∈ done, w₀.inner.currentSeq ≤ p.2 ∧ (p.2 ∈ sealed ∨ p.2 = fd)) (fun _ => True) := by
  refine Triple.bind (Intact.flushBuf.conseq (fun _ h => h) (fun _ _ h => h) fun _ _ => trivial) fun _ => ?_
  refine Triple.bind (Q := fun _ w => Intact crc w₀ A done sealed 0 w ∧ w.inner.buffer = [])
    (triple_outcome (fun w script h => ⟨?_, h.2⟩) (Triple.pure fun _ h => h)
      fun _ => Triple.throw fun _ _ => trivial) fun _ => ?_
  · exact h.1.of_wrote ((Wrote.refl w).script script) (Safe.unscripted w script h.1.safe)
  refine Triple.bind (Q := fun _ w => Landed crc A done [] w ∧ w.synced + done.length ≤ w.inner.written ∧
    ∀ p ∈ done, w₀.inner.currentSeq ≤ p.2 ∧ (p.2 ∈ sealed ∨ p.2 = w.inner.currentSeq))
    (Triple.modify fun w h => ?_) fun _ => ?_
  · have hlanded := Landed.of_intact h.1 h.2
    exact ⟨⟨hlanded.covers, hlanded.stored⟩, Nat.add_le_add_right h.1.safe.wf.synced_le _, h.1.home⟩
  refine Triple.bind (Q := fun fd w => Landed crc A done [] w ∧ w.synced + done.length ≤ w.inner.written ∧
    ∀ p ∈ done, w₀.inner.currentSeq ≤ p.2 ∧ (p.2 ∈ sealed ∨ p.2 = fd))
    (Triple.gets fun _ h => h) fun fd => Triple.of_forall fun w₁ hw₁ => ?_
  refine Triple.bind (Q := fun myGen w => Landed crc A done [] w ∧ w.synced + done.length ≤ myGen)
    (Triple.gets (by rintro _ rfl; exact ⟨hw₁.1, hw₁.2.1⟩)) fun myGen => ?_
  refine Triple.bind (Triple.forM (I := fun synced w => Landed crc A done synced w ∧
    w.synced + done.length ≤ myGen) fun synced g _ _ => ?_) fun _ => ?_
  · exact triple_outcome (fun _ _ h => ⟨⟨h.1.covers, h.1.stored⟩, h.2⟩)
      (Triple.modify fun _ h => ⟨h.1.sync g, h.2⟩) fun _ => Triple.throw fun _ _ => trivial
  refine Triple.bind (Q := fun synced w => Landed crc A done sealed w ∧
    synced + done.length ≤ myGen) (Triple.gets fun _ h => h) fun synced => ?_
  refine Triple.when (fun _ => ?_) fun hskip w h => ?_
  · refine Triple.bind (Q := fun _ => Landed crc A done sealed) (Triple.gets fun _ h => h.1) fun covered => ?_
    refine Triple.bind (Q := fun _ => Landed crc A done (sealed ++ [fd])) ?_ fun _ =>
      Triple.modify fun w h => ⟨fd, ⟨h.covers, h.stored⟩, hw₁.2.2⟩
    exact triple_outcome (fun _ _ h => ⟨h.covers, h.stored⟩) (Triple.modify fun _ h => h.sync fd)
      fun _ => Triple.throw fun _ _ => trivial
  · obtain rfl : done = [] := length_eq_zero_iff.mp (by have := h.2; omega)
    exact ⟨fd, ⟨h.1.covers, by simp⟩, by simp⟩

end Landed

theorem appendBatch_stored {w₀ : World} {A : List ℕ} {items : List WalItem} (hwf : WellFormed w₀)
    (hwhole : ∀ bytes, w₀.content w₀.inner.currentSeq = some bytes →
      Whole crc w₀.inner.currentSeq bytes) (hcovers : Covers w₀.inner.segments A)
    (hlen : ∀ item ∈ items, item.payloadLen < 2 ^ 32)
    (hroom : w₀.inner.currentSeq + items.length < 2 ^ 64) {positions : List WalPos}
    (hok : appendBatch crc items w₀ = (.ok positions, w)) :
    Covers w.inner.segments ((items.zip (positions.map segment)).map Prod.snd ++ A) ∧
      ∀ p ∈ items.zip (positions.map segment), w₀.inner.currentSeq ≤ p.2 ∧
        ∃ file, w.fileAt p.2 = some file ∧ Stored crc p.1 p.2 file.durableBytes := by
  have hstart : Intact crc w₀ A [] [] (0 + items.length) w₀ :=
    ⟨⟨hwf, Grows.refl w₀, by omega⟩, hwhole, by simp, by simp, by simp, by simpa using hcovers⟩
  suffices htriple : Triple (· = w₀) (appendBatch crc items) (fun positions w => ∃ sealed fd, Landed crc A
          (items.zip (positions.map segment)).reverse (sealed ++ [fd]) w ∧
        ∀ p ∈ items.zip (positions.map segment), w₀.inner.currentSeq ≤ p.2 ∧
          (p.2 ∈ sealed ∨ p.2 = fd)) (fun _ => True) by
    have h := htriple w₀ rfl
    rw [hok] at h
    obtain ⟨sealed, fd, hlanded, hhome⟩ := h
    refine ⟨hlanded.covers.of_subperm ?_, fun p hp => ⟨(hhome p hp).1, ?_⟩⟩
    · rw [map_reverse]
      exact ((reverse_perm _).symm.append_right A).subperm
    · obtain ⟨file, hfile, hstored, hdurable⟩ := hlanded.stored p (mem_reverse.mpr hp)
      grind [File.durableBytes]
  refine Triple.bind ((Intact.appendItems hlen).conseq (by rintro _ rfl; exact hstart)
    (fun _ _ h => h) fun _ _ => trivial) fun r => ?_
  obtain ⟨positions, sealed⟩ := r
  refine Triple.of_forall fun w₁ hw₁ => ?_
  have hcount : items.length = (items.zip (positions.map segment)).reverse.length := by
    simp [hw₁.1]
  have hintact : ∀ w, w = w₁ → Intact crc w₀ A
      (items.zip (positions.map segment)).reverse sealed 0 w := by
    rintro _ rfl
    simpa using hw₁.2
  rw [hcount]
  refine Triple.bind (Landed.commit.conseq hintact (fun _ _ h => h) fun _ h => h) fun _ =>
    Triple.pure fun w h => ?_
  obtain ⟨fd, hlanded, hhome⟩ := h
  exact ⟨sealed, fd, hlanded, by simpa using hhome⟩

/-! ## Runs -/

/-- The log in use: `acked` are the records of acknowledged batches that are not confirmed, with
their segments, and `opened` is the first segment written since the open. -/
structure Session where
  world : World
  opened : ℕ
  acked : List (WalItem × ℕ) := []

open Session

def Session.start (w : World) : Session where
  world := w
  opened := w.inner.currentSeq

namespace Session

/-- The calls on the log.  A `confirm` takes acknowledged records, each at most once, and positions
of records found at the open. -/
inductive Action where
  | append (items : List WalItem) (script : List (Option ℕ))
  | confirm (records : List (WalItem × ℕ)) (old : List WalPos)
  | unlink (path : String)

def step (crc : Bytes → UInt32) (s : Session) : Action → Option Session
  | .append items script =>
    match appendBatch crc items { s.world with script } with
    | (.ok positions, w) =>
      some { s with world := w, acked := s.acked ++ items.zip (positions.map WalPos.segment) }
    | (.error _, w) => some { s with world := w }
  | .confirm records old =>
    if records.Subperm s.acked ∧ ∀ pos ∈ old, pos.segment < s.opened then
      some { s with
        world := s.world.confirm (records.map (fun r => ⟨r.2⟩) ++ old)
        acked := s.acked.diff records }
    else none
  | .unlink path =>
    if path ∈ s.world.pending then some { s with world := s.world.unlink path } else none

/-- An append starts with whole records in the current segment, its payloads fit their length field,
and the segment numbers do not run out. -/
def CleanAppend (crc : Bytes → UInt32) (s : Session) : Action → Prop
  | .append items _ =>
    (∀ bytes ∈ s.world.content s.world.inner.currentSeq,
      Whole crc s.world.inner.currentSeq bytes) ∧
    (∀ item ∈ items, item.payloadLen < 2 ^ 32) ∧
    s.world.inner.currentSeq + items.length < 2 ^ 64
  | _ => True

instance decidableCleanAppend (s : Session) (a : Action) : Decidable (s.CleanAppend crc a) := by
  cases a <;> unfold CleanAppend <;> infer_instance

end Session

/-- Nothing durable is lost: each file is there, and starts with the bytes that were durable. -/
def Survives (w : World) (dir : Dir) : Prop :=
  ∀ (path : String) (file : File), w.dir[path]? = some file →
    ∃ file' : File, dir[path]? = some file' ∧ file.durableBytes <+: file'.bytes

def Replayed (crc : Bytes → UInt32) (dir : Dir) (max : ℕ) (item : WalItem) (g : ℕ) : Prop :=
  ∀ w r, openWal crc dir max = .ok (w, r) →
    ∃ n c, .ok c ∈ r.yieldedIn crc w.dir n ∧ ∀ uuid, c.record uuid = item.toRecord g

theorem Stored.replayed {dir : Dir} {file : File} (hfile : dir[segmentPath g]? = some file)
    (h : Stored crc item g file.bytes) (hg : g < 2 ^ 64) (max : ℕ) : Replayed crc dir max item g := by
  intro w r hopen
  obtain ⟨segments, -, rfl, rfl⟩ := openWal_eq_ok hopen
  obtain ⟨c, hc, hrecord⟩ := h
  have hseq : g ∈ segmentSeqs dir := mem_segmentSeqs.mpr ⟨segmentPath g, by grind,
      parseSegmentName_segmentPath hg⟩
  have hahead : .ok c ∈ ahead crc (dir.insertIfNew (segmentPath (freshSeq (segmentSeqs dir))) File.empty)
      { segments := (segmentSeqs dir).map fun seq => (seq, segmentPath seq) } := by
    refine mem_append_right _ (mem_flatMap.mpr ⟨(g, segmentPath g), List.mem_map_of_mem hseq, ?_⟩)
    grind [segmentItems]
  grind [exists_mem_yieldedIn]

/-- Every acknowledged record that is not confirmed is counted, and is in the durable bytes of its
segment. -/
structure Holds (crc : Bytes → UInt32) (s : Session) : Prop where
  wf : WellFormed s.world
  opened_le : s.opened ≤ s.world.inner.currentSeq
  covers : Covers s.world.inner.segments (s.acked.map Prod.snd)
  opened : ∀ p ∈ s.acked, s.opened ≤ p.2
  stored : ∀ p ∈ s.acked, ∃ file, s.world.fileAt p.2 = some file ∧
    Stored crc p.1 p.2 file.durableBytes

namespace Holds

open Session

variable {s s' : Session}

variable {w w' : World}

theorem start {dir : Dir} {max : ℕ} {r : WalReplay} (hopen : openWal crc dir max = .ok (w, r))
    (hmax : ∀ seq ∈ segmentSeqs dir, seq + 1 < 2 ^ 64) : Holds crc (Session.start w) :=
  ⟨.of_openWal hopen hmax, le_rfl, .nil _, by simp [Session.start], by simp [Session.start]⟩

theorem stored_of_grows (hgrows : Grows w w') {item : WalItem} {g : ℕ}
    (h : ∃ file, w.fileAt g = some file ∧ Stored crc item g file.durableBytes) :
    ∃ file, w'.fileAt g = some file ∧ Stored crc item g file.durableBytes := by
  obtain ⟨file, hfile, hstored⟩ := h
  obtain ⟨file', hfile', hbytes, hdurable⟩ := hgrows.files g file hfile
  refine ⟨file', hfile', hstored.mono ?_⟩
  grind [File.durableBytes]

theorem covers_of_grows (hgrows : Grows w w') {A : List ℕ} (h : Covers w.inner.segments A) :
    Covers w'.inner.segments A := by
  intro g hg
  obtain ⟨state, hstate, hle⟩ := h g hg
  have hpos : 0 < A.count g := count_pos_iff.mpr hg
  obtain ⟨state', hstate', hle'⟩ := hgrows.counts g state hstate (hpos.trans_le hle)
  exact ⟨state', hstate', hle.trans hle'⟩

theorem append (h : Holds crc s) {items : List WalItem} {script : List (Option ℕ)}
    (hclean : s.CleanAppend crc (.append items script))
    (hstep : step crc s (.append items script) = some s') : Holds crc s' := by
  obtain ⟨hwhole, hlen, hroom⟩ := hclean
  have hwf := h.wf.withScript script
  obtain ⟨hwf', hgrows⟩ := appendBatch_safe crc hwf hroom
  simp only [step] at hstep
  split at hstep
  · next positions w hok =>
      obtain rfl := Option.some.inj hstep
      rw [hok] at hwf' hgrows
      obtain ⟨hcovers, hbatch⟩ :=
        appendBatch_stored hwf hwhole h.covers hlen hroom hok
      refine ⟨hwf', h.opened_le.trans hgrows.seq_le, ?_, fun p hp => ?_, fun p hp => ?_⟩
      · refine hcovers.of_subperm ?_
        rw [map_append]
        exact perm_append_comm.subperm
      · rcases mem_append.mp hp with hp | hp
        · exact h.opened p hp
        · exact h.opened_le.trans (hbatch p hp).1
      · rcases mem_append.mp hp with hp | hp
        · exact stored_of_grows hgrows (h.stored p hp)
        · exact (hbatch p hp).2
  · next e w herr =>
      obtain rfl := Option.some.inj hstep
      rw [herr] at hwf' hgrows
      exact ⟨hwf', h.opened_le.trans hgrows.seq_le, covers_of_grows hgrows h.covers, h.opened,
        fun p hp => stored_of_grows hgrows (h.stored p hp)⟩

theorem confirm (h : Holds crc s) {records : List (WalItem × ℕ)} {old : List WalPos}
    (hstep : step crc s (.confirm records old) = some s') : Holds crc s' := by
  simp only [step] at hstep
  split_ifs at hstep with hmay
  obtain ⟨hsub, hold⟩ := hmay
  obtain rfl := Option.some.inj hstep
  have hperm : (records.map Prod.snd ++ (s.acked.diff records).map Prod.snd).Perm
      (s.acked.map Prod.snd) := by
    rw [← map_append]
    exact (subperm_append_diff_self_of_count_le (subperm_ext_iff.mp hsub)).map Prod.snd
  have hrest {p : WalItem × ℕ} (hp : p ∈ s.acked.diff records) : p ∈ s.acked :=
    diff_subset _ _ hp
  refine ⟨h.wf.confirm _, h.opened_le, ?_, fun p hp => h.opened p (hrest hp),
    fun p hp => h.stored p (hrest hp)⟩
  refine Covers.collectConfirmed ?_
  rw [foldl_append]
  refine Covers.foldl_confirmOne_of_notMem (Covers.foldl_confirmOne ?_) fun pos hpos hmem => ?_
  · refine h.covers.of_subperm (Perm.subperm ?_)
    simpa [Function.comp_def] using hperm
  · obtain ⟨p, hp, hseg⟩ := List.mem_map.mp hmem
    have := hold pos hpos
    have := h.opened p (hrest hp)
    omega

theorem unlink (h : Holds crc s) {path : String} (hstep : step crc s (.unlink path) = some s') :
    Holds crc s' := by
  simp only [step] at hstep
  split_ifs at hstep with hpending
  obtain rfl := Option.some.inj hstep
  refine ⟨h.wf.unlink hpending, h.opened_le, h.covers, h.opened, fun p hp => ?_⟩
  rw [fileAt_unlink, if_neg ?_]
  · exact h.stored p hp
  · rintro rfl
    obtain ⟨state, hstate, -⟩ := h.covers p.2 (List.mem_map_of_mem hp)
    rw [(h.wf.pending_untracked _ hpending).2] at hstate
    cases hstate

theorem step (h : Holds crc s) {a : Action} (hclean : s.CleanAppend crc a)
    (hstep : step crc s a = some s') : Holds crc s' := by
  cases a with
  | append items script => exact h.append hclean hstep
  | confirm records old => exact h.confirm hstep
  | unlink path => exact h.unlink hstep

end Holds

/-- **Acknowledged records are replayed**, in every run whose appends start with whole records in the
current segment: whatever fails in between and whatever a crash takes away from what was not durable,
the next open's iterator yields each acknowledged record that is not confirmed. -/
theorem acknowledged_replayed {dir : Dir} {max : ℕ} {w : World} {r : WalReplay}
    (hopen : openWal crc dir max = .ok (w, r)) (hmax : ∀ seq ∈ segmentSeqs dir, seq + 1 < 2 ^ 64)
    {as : List Session.Action} {s : Session}
    (hrun : Runs.run (Session.step crc) (Session.start w) as = some s)
    (hclean : Runs.Along (Session.step crc) (Session.CleanAppend crc) (Session.start w) as)
    {crashed : Dir} (hcrash : Survives s.world crashed) {p : WalItem × ℕ} (hp : p ∈ s.acked) :
    Replayed crc crashed max p.1 p.2 := by
  have h : Holds crc s :=
    Runs.run_invariant (Session.step crc) (fun _ _ _ hs hcond hstep => hs.step hcond hstep)
      (Holds.start hopen hmax) hclean hrun
  obtain ⟨file, hfile, hstored⟩ := h.stored p hp
  obtain ⟨file', hfile', hprefix⟩ := hcrash _ _ hfile
  obtain ⟨state, hstate, -⟩ := h.covers p.2 (List.mem_map_of_mem hp)
  have hlt : p.2 < 2 ^ 64 := (h.wf.tracked_le p.2 (by rw [hstate]; simp)).trans_lt h.wf.seq_lt
  exact (hstored.mono hprefix).replayed hfile' hlt max

/-! ## One call that fails and one that does not -/

theorem writeAll_of_lt (h : w.inner.buffer.length + bs.length < bufCapacity) :
    writeAll bs w = (.ok (), w.setBuffer (w.inner.buffer ++ bs)) := by
  have hlt : bs.length < bufCapacity - w.inner.buffer.length := by omega
  simp only [writeAll, bind, Prog.bind, Prog.gets, if_pos hlt]
  rfl

theorem forM_writeAll_of_lt {parts : List Bytes}
    (h : w.inner.buffer.length + parts.flatten.length < bufCapacity) :
    Prog.forM parts writeAll w = (.ok (), w.setBuffer (w.inner.buffer ++ parts.flatten)) := by
  induction parts generalizing w with
  | nil => 
    simp [Prog.forM, setBuffer]
    rfl
  | cons bs parts ih =>
    rw [flatten_cons, length_append] at h
    rw [Prog.forM, Prog.bind, writeAll_of_lt (by omega)]
    grind [setBuffer]

theorem writeAll_fails {script : List (Option ℕ)} (hb : w.inner.buffer ≠ [])
    (h : bufCapacity ≤ bs.length) (hs : w.script = some 0 :: script) :
    writeAll bs w = (.error .os, (({ w with script }).extendFile []).setBuffer w.inner.buffer) := by
  have hpos := length_pos_iff.mpr hb
  have hcap : bufCapacity = 8192 := rfl
  have hgt : bs.length > bufCapacity - w.inner.buffer.length := by omega
  simp only [writeAll, bind, Prog.bind, Prog.gets, if_neg (not_lt.mpr hgt.le), Prog.when, if_pos hgt, flushBuf, if_neg hb, nextOutcome, hs]
  rfl

def WalItem.head (crc : Bytes → UInt32) (item : WalItem) : List Bytes :=
  toLe 4 item.payloadLen :: toLe 4 (crc item.payload).toNat :: item.payloadParts.dropLast

theorem WalItem.writes_eq_head (item : WalItem) :
    item.writes crc = item.head crc ++ [utf8 item.doc] := rfl

def fresh : World where
  maxSegmentBytes := 65536
  inner :=
    { currentSeq := 0, currentLen := 0, buffer := [], segments := (∅ : Segments).track 0
      written := 0 }
  dir := (∅ : Dir).insertIfNew (segmentPath 0) .empty

theorem openWal_empty : openWal crc ∅ 65536 = .ok (fresh, { segments := [] }) := rfl

def largeItem : WalItem :=
  ⟨"s", "a", 1, false, String.ofList (List.replicate 8192 'a')⟩

def smallItem : WalItem :=
  ⟨"s", "b", 2, false, "y"⟩

theorem Survives.refl (w : World) : Survives w w.dir :=
  fun _ file hfile => ⟨file, hfile, take_prefix ..⟩

def otherItem : WalItem := ⟨"s", "c", 3, true, "z"⟩

/-- The flush of the first call fails after ten bytes and leaves the rest in the buffer; the second call
writes it out before its own records, and only its fsync fails; the third succeeds. -/
def failedFlush : List Session.Action :=
  [.append [otherItem] [some 10], .append [otherItem, smallItem] [none, none, some 0], .append [smallItem] []]

theorem acknowledged_replayed_failedFlush :
    ∃ s, Runs.run (Session.step crc32) (Session.start fresh) failedFlush = some s ∧
      s.acked = [(smallItem, 0)] ∧ Replayed crc32 s.world.dir 65536 smallItem 0 := by
  obtain ⟨s, hrun, hacked⟩ : ∃ s, Runs.run (Session.step crc32) (Session.start fresh) failedFlush
      = some s ∧ s.acked = [(smallItem, 0)] := by
    decide +kernel
  exact ⟨s, hrun, hacked, acknowledged_replayed openWal_empty (by decide) hrun (by decide +kernel)
    (Survives.refl s.world) (hacked ▸ mem_singleton_self _)⟩

theorem length_utf8_largeItem : (utf8 largeItem.doc).length = 8192 := by
  have hlen (n : ℕ) : (utf8 (String.ofList (List.replicate n 'a'))).length = n := by
    have hchar : 'a'.utf8Size = 1 := by decide
    simp [utf8, hchar]
  exact hlen 8192

theorem payloadLen_largeItem : largeItem.payloadLen = 8206 := by
  have hstream : (utf8 largeItem.stream).length = 1 := by decide
  have hid : (utf8 largeItem.id).length = 1 := by decide
  rw [payloadLen, hstream, hid, length_utf8_largeItem]

def torn (head : Bytes) : World :=
  (fresh.extendFile []).setBuffer head

theorem step_tears (hnames : item.tooLong = false)
    (hhead : (item.head crc).flatten.length < bufCapacity) (hdoc : bufCapacity ≤ (utf8 item.doc).length) :
    step crc (start fresh) (.append [item] [some 0])
      = some { world := torn (item.head crc).flatten, opened := 0 } := by
  let w : World := { fresh with script := [some 0] }
  have hwrites : Prog.forM (item.writes crc) writeAll w
      = (.error .os, torn (item.head crc).flatten) := by
    rw [item.writes_eq_head, Prog.forM_append,
      Prog.bind_of_ok (forM_writeAll_of_lt (by simpa [w, fresh] using hhead))]
    exact Prog.bind_of_error (writeAll_fails (cons_ne_nil _ _) hdoc rfl)
  have hrecord : appendRecord crc item w = (.error .os, torn (item.head crc).flatten) := by
    rw [appendRecord, if_neg (by simp [hnames])]
    exact Prog.bind_of_error hwrites
  have hcall : appendBatch crc [item] w = (.error .os, torn (item.head crc).flatten) :=
    Prog.bind_of_error ((Prog.bind_of_ok (rfl : rotateIfFull w = (.ok [], w))).trans
      (Prog.bind_of_error hrecord))
  simp only [step, start]
  rw [hcall]
  rfl

/-- The head of the large record, with its checksum. -/
def tornHead (sum : UInt32) : Bytes :=
  toLe 4 8206 ++ (toLe 4 sum.toNat ++ largeItem.payloadParts.dropLast.flatten)

theorem flatten_head_largeItem :
    (largeItem.head crc32).flatten = tornHead (crc32 largeItem.payload) := by
  rw [WalItem.head, payloadLen_largeItem, flatten_cons, flatten_cons, tornHead]

/-- The directory once the small record is acknowledged: its bytes follow the head of the large one. -/
def tornDir (sum : UInt32) : Dir :=
  ((fresh.dir.modify (segmentPath 0) (·.extend [])).modify (segmentPath 0)
    (·.extend (tornHead sum ++ smallItem.encode crc32))).modify (segmentPath 0) File.sync

set_option maxRecDepth 10000 in
theorem step_acknowledges (sum : UInt32) :
    ∃ w, step crc32 { world := torn (tornHead sum), opened := 0 } (.append [smallItem] [])
        = some { world := w, opened := 0, acked := [(smallItem, 0)] } ∧ w.dir = tornDir sum :=
  ⟨_, rfl, rfl⟩

set_option maxRecDepth 10000 in
theorem segmentRecords_torn (sum : UInt32) :
    segmentRecords crc32 0 (tornHead sum ++ smallItem.encode crc32) = [] := by
  rfl

theorem openWal_tornDir (sum : UInt32) :
    ∃ w r, openWal crc32 (tornDir sum) 65536 = .ok (w, r) ∧ r.ahead crc32 w.dir = [] := by
  refine ⟨_, _, by with_unfolding_all rfl, ?_⟩
  have hseqs : segmentSeqs (tornDir sum) = [0] := by
    with_unfolding_all rfl
  have hfile : (tornDir sum)[segmentPath 0]? = some ((File.empty.extend []).extend
      (tornHead sum ++ smallItem.encode crc32)).sync := by
    with_unfolding_all rfl
  simp only [ahead, currentItems, hseqs, map_cons, map_nil, flatMap_singleton,
    nil_append, segmentItems, Std.ExtTreeMap.getElem?_insertIfNew, hfile]
  rw [if_neg fun h => absurd h.1 (by decide)]
  exact congrArg (map Except.ok) (segmentRecords_torn sum)

/-- **A torn record hides an acknowledged one.**  The write of a large document fails, and the head of
its record stays in the buffer.  The next batch is acknowledged, but its record lies behind the head,
and the reader stops there. -/
theorem torn_record_hides_acknowledged :
    ¬ ∀ (dir : Dir) (max : ℕ) (w : World) (r : WalReplay) (as : List Session.Action) (s : Session)
      (crashed : Dir), openWal crc32 dir max = .ok (w, r) →
      Runs.run (Session.step crc32) (Session.start w) as = some s → Survives s.world crashed →
      ∀ p ∈ s.acked, Replayed crc32 crashed max p.1 p.2 := by
  intro hclaim
  have htear : Session.step crc32 (Session.start fresh) (.append [largeItem] [some 0])
      = some { world := torn (largeItem.head crc32).flatten, opened := 0 } :=
    step_tears rfl (by decide) length_utf8_largeItem.ge
  obtain ⟨w, hack, hw⟩ := step_acknowledges (crc32 largeItem.payload)
  have hrun := (Runs.run_cons_eq_some (Session.step crc32)).mpr
    ⟨_, htear, (Runs.run_cons_eq_some _).mpr ⟨_, flatten_head_largeItem ▸ hack, Runs.run_nil ..⟩⟩
  obtain ⟨w', r', hopen, hahead⟩ := openWal_tornDir (crc32 largeItem.payload)
  rw [← hw] at hopen
  obtain ⟨n, c, hc, -⟩ := hclaim ∅ 65536 fresh _ _ _ w.dir openWal_empty hrun (Survives.refl w)
    (smallItem, 0) (by simp) w' r' hopen
  have hread := WalReplay.mem_ahead_of_mem_yieldedIn hc
  rw [hahead] at hread
  cases hread

end RSearch.Wal
