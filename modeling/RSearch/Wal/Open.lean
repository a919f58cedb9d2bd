import RSearch.Wal.Segments

/-!
# Opening the log and replaying it

`Wal::open` sorts the numbers of the files `wal-<number>.log` and makes a counting pass over each
segment; new writes go to a fresh segment after the highest number.  The replay iterator opens each file
when it reaches it.
-/

namespace RSearch.Wal

open List Bytes

inductive IoError where
  | os
  | notFound
  | invalidInput (message : String)
  | other (message : String)
deriving DecidableEq

/-- A segment file: the bytes the operating system holds, and how many of them a completed sync has
made durable. -/
structure File where
  bytes : Bytes
  durable : ℕ
  durable_le : durable ≤ bytes.length
deriving DecidableEq

namespace File

def empty : File := ⟨[], 0, le_rfl⟩

def extend (file : File) (bs : Bytes) : File :=
  ⟨file.bytes ++ bs, file.durable, file.durable_le.trans (by simp)⟩

def sync (file : File) : File :=
  ⟨file.bytes, file.bytes.length, le_rfl⟩

def durableBytes (file : File) : Bytes :=
  file.bytes.take file.durable

end File

abbrev Dir := Std.ExtTreeMap String File

/-! ## Segment names -/

def segmentChars (seq : ℕ) : List Char :=
  "wal-".toList ++ ((List.replicate (16 - (Nat.toDigits 10 seq).length) '0' ++ Nat.toDigits 10 seq)
    ++ ".log".toList)

def segmentPath (seq : ℕ) : String :=
  String.ofList (segmentChars seq)

def dropPlus : List Char → List Char
  | '+' :: rest => rest
  | cs => cs

/-- `str::parse::<u64>`: an optional `+`, then at least one decimal digit, below `2 ^ 64`. -/
def parseU64 (cs : List Char) : Option ℕ :=
  let digits := dropPlus cs
  if digits ≠ [] ∧ digits.all Char.isDigit = true ∧ Nat.ofDigitChars 10 digits 0 < 2 ^ 64 then
    some (Nat.ofDigitChars 10 digits 0)
  else none

def parseSegmentName (name : String) : Option ℕ :=
  (name.toList.dropPrefix? "wal-".toList).bind fun rest =>
    (rest.dropSuffix? ".log".toList).bind parseU64

def segmentSeqs (dir : Dir) : List ℕ :=
  (dir.keys.filterMap parseSegmentName).insertionSort (· ≤ ·)

theorem ofDigitChars_padded (n seq : ℕ) :
    Nat.ofDigitChars 10 (List.replicate n '0' ++ Nat.toDigits 10 seq) 0 = seq := by
  rw [Nat.ofDigitChars_append, Nat.ofDigitChars_replicate_zero, Nat.mul_zero, Nat.ofDigitChars_ten_toDigits]

theorem segmentPath_injective : Function.Injective segmentPath := by
  intro a b h
  have hchars : segmentChars a = segmentChars b := by
    have := congrArg String.toList h
    simpa [segmentPath] using this
  have hdigits := append_cancel_right (append_cancel_left hchars)
  have hval := congrArg (fun cs => Nat.ofDigitChars 10 cs 0) hdigits
  simpa only [ofDigitChars_padded] using hval

@[simp] theorem segmentPath_inj {a b : ℕ} : segmentPath a = segmentPath b ↔ a = b :=
  segmentPath_injective.eq_iff

variable {seq : ℕ} {dir : Dir}

theorem parseSegmentName_segmentPath (h : seq < 2 ^ 64) :
    parseSegmentName (segmentPath seq) = some seq := by
  have hdigits : ∀ c ∈ List.replicate (16 - (Nat.toDigits 10 seq).length) '0'
      ++ Nat.toDigits 10 seq, c.isDigit = true := by
    intro c hc
    rcases mem_append.mp hc with hc | hc
    · rw [eq_of_mem_replicate hc]
      decide
    · exact Nat.isDigit_of_mem_toDigits (by decide) (by decide) hc
  have hne : List.replicate (16 - (Nat.toDigits 10 seq).length) '0' ++ Nat.toDigits 10 seq ≠ [] := by
    simp [Nat.toDigits_ne_nil]
  have hval := ofDigitChars_padded (16 - (Nat.toDigits 10 seq).length) seq
  rw [parseSegmentName, segmentPath, String.toList_ofList, segmentChars,
    dropPrefix?_append_of_beq _ (by decide), Option.bind_some,
    dropSuffix?_eq_some_iff.mpr ⟨_, rfl, by decide⟩, Option.bind_some]
  generalize List.replicate (16 - (Nat.toDigits 10 seq).length) '0' ++ Nat.toDigits 10 seq
    = digits at hdigits hne hval
  have hplus : dropPlus digits = digits := by
    unfold dropPlus
    split
    · exact absurd (hdigits '+' (by simp)) (by decide)
    · rfl
  rw [parseU64, hplus, hval, if_pos ⟨hne, by simpa using hdigits, h⟩]

theorem mem_segmentSeqs : seq ∈ segmentSeqs dir ↔ ∃ name ∈ dir, parseSegmentName name = some seq := by
  simp [segmentSeqs, mem_filterMap]

/-! ## The log and its directory -/

/-- The part of the log behind the writer lock.  The buffered writer's file is the one of
`currentSeq`; `buffer` holds what it has not handed to the operating system. -/
structure WalInner where
  currentSeq : ℕ
  currentLen : ℕ
  buffer : Bytes
  segments : Segments
  written : ℕ

/-- The log, its directory, and what lies ahead of both: `pending` are the files collected by calls
that have yet to unlink them, and `script` says what the next system calls do: `none` for a call
that succeeds and `some n` for one that fails after `n` bytes. -/
structure World where
  maxSegmentBytes : ℕ
  inner : WalInner
  synced : ℕ := 0
  dir : Dir
  pending : List String := []
  script : List (Option ℕ) := []

def World.fileAt (w : World) (g : ℕ) : Option File :=
  w.dir[segmentPath g]?

/-- Lazy iterator over the records found at open: the segments not yet opened, and the cursor of the
open one. -/
structure WalReplay where
  segments : List (ℕ × String)
  current : Option SegmentCursor := none
deriving DecidableEq

/-- The counting pass: the number of valid records of each segment, all of them sealed. -/
def countSegments (crc : Bytes → UInt32) (dir : Dir) : List ℕ → Segments → Except IoError Segments
  | [], segments => .ok segments
  | seq :: seqs, segments =>
    match dir[segmentPath seq]? with
    | none => .error .notFound
    | some file =>
      countSegments crc dir seqs
        (segments.insert seq ⟨(segmentRecords crc seq file.bytes).length, true⟩)

/-- The segment that takes the writes after an open.  The addition is the code's `u64` addition. -/
def freshSeq (seqs : List ℕ) : ℕ :=
  match seqs.getLast? with
  | some last => (last + 1) % 2 ^ 64
  | none => 0

def openWal (crc : Bytes → UInt32) (dir : Dir) (maxSegmentBytes : ℕ) :
    Except IoError (World × WalReplay) :=
  match countSegments crc dir (segmentSeqs dir) ∅ with
  | .error e => .error e
  | .ok segments =>
    let currentSeq := freshSeq (segmentSeqs dir)
    .ok
      ({ maxSegmentBytes
         inner :=
           { currentSeq, currentLen := 0, buffer := [], segments := segments.track currentSeq
             written := 0 }
         dir := dir.insertIfNew (segmentPath currentSeq) .empty },
        { segments := (segmentSeqs dir).map fun seq => (seq, segmentPath seq) })

variable {crc : Bytes → UInt32}

theorem countSegments_eq_ok {seqs : List ℕ} {segs segs' : Segments}
    (h : countSegments crc dir seqs segs = .ok segs') :
    (∀ seq ∈ seqs, ∃ file, dir[segmentPath seq]? = some file ∧
      segs'[seq]? = some ⟨(segmentRecords crc seq file.bytes).length, true⟩) ∧
    ∀ g ∉ seqs, segs'[g]? = segs[g]? := by
  induction seqs generalizing segs with
  | nil =>
    cases h
    simp
  | cons seq seqs ih =>
    unfold countSegments at h
    split at h
    · cases h
    · next file hfile =>
        obtain ⟨hin, hout⟩ := ih h
        refine ⟨fun g hg => ?_, fun g hg => ?_⟩
        · by_cases hmem : g ∈ seqs
          · exact hin g hmem
          · obtain rfl : g = seq := (mem_cons.mp hg).resolve_right hmem
            refine ⟨file, hfile, ?_⟩
            rw [hout g hmem, Std.ExtTreeMap.getElem?_insert_self]
        · rw [mem_cons, not_or] at hg
          rw [hout g hg.2, Std.ExtTreeMap.getElem?_insert]
          simp [Std.LawfulEqCmp.compare_eq_iff_eq, Ne.symm hg.1]

theorem openWal_eq_ok {max : ℕ} {w : World} {r : WalReplay} (h : openWal crc dir max = .ok (w, r)) :
    ∃ segments : Segments, countSegments crc dir (segmentSeqs dir) ∅ = .ok segments ∧
      w = { maxSegmentBytes := max
            inner :=
              { currentSeq := freshSeq (segmentSeqs dir), currentLen := 0, buffer := []
                segments := segments.track (freshSeq (segmentSeqs dir)), written := 0 }
            dir := dir.insertIfNew (segmentPath (freshSeq (segmentSeqs dir))) .empty } ∧
      r = { segments := (segmentSeqs dir).map fun seq => (seq, segmentPath seq) } := by
  unfold openWal at h
  split at h
  · cases h
  · next segments hcount =>
      cases h
      exact ⟨segments, hcount, rfl, rfl⟩

theorem exists_openWal (crc : Bytes → UInt32)
    (h : ∀ seq ∈ segmentSeqs dir, dir[segmentPath seq]? ≠ none) (max : ℕ) :
    ∃ w r, openWal crc dir max = .ok (w, r) := by
  have hcount (seqs : List ℕ) (hseqs : ∀ seq ∈ seqs, dir[segmentPath seq]? ≠ none)
      (segs : Segments) : ∃ segs', countSegments crc dir seqs segs = .ok segs' := by
    induction seqs generalizing segs with
    | nil => exact ⟨segs, rfl⟩
    | cons seq seqs ih =>
      obtain ⟨file, hfile⟩ := Option.ne_none_iff_exists'.mp (hseqs seq mem_cons_self)
      simp only [countSegments, hfile]
      exact ih (fun g hg => hseqs g (mem_cons_of_mem _ hg)) _
  obtain ⟨segs, hsegs⟩ := hcount _ h ∅
  simp only [openWal, hsegs]
  exact ⟨_, _, rfl⟩

/-! ## The replay iterator -/

inductive Turn where
  | yield (item : Except IoError SegmentCursor)
  | again
  | finished
deriving DecidableEq

namespace WalReplay

def read (crc : Bytes → UInt32) (r : WalReplay) (c : SegmentCursor) : Turn × WalReplay :=
  match c.advance crc with
  | some c' => (.yield (.ok c'), { r with current := some c' })
  | none => (.again, { r with current := none })

/-- One turn of the loop.  A record is yielded as the cursor that holds it; the caller gets
`c.record`. -/
def turn (crc : Bytes → UInt32) (dir : Dir) (r : WalReplay) : Turn × WalReplay :=
  match r.current with
  | some c => r.read crc c
  | none =>
    match r.segments with
    | [] => (.finished, r)
    | (seq, path) :: rest =>
      match dir[path]? with
      | none => (.yield (.error .notFound), { segments := rest, current := none })
      | some file => read crc { segments := rest } { seq, reader := file.bytes }

def yieldedIn (crc : Bytes → UInt32) (dir : Dir) : ℕ → WalReplay → List (Except IoError SegmentCursor)
  | 0, _ => []
  | n + 1, r =>
    match r.turn crc dir with
    | (.yield item, r') => item :: yieldedIn crc dir n r'
    | (.again, r') => yieldedIn crc dir n r'
    | (.finished, _) => []

def segmentItems (crc : Bytes → UInt32) (dir : Dir) (entry : ℕ × String) :
    List (Except IoError SegmentCursor) :=
  match dir[entry.2]? with
  | none => [.error .notFound]
  | some file => (segmentRecords crc entry.1 file.bytes).map .ok

def currentItems (crc : Bytes → UInt32) (r : WalReplay) : List (Except IoError SegmentCursor) :=
  match r.current with
  | some c => (c.scan crc).1.map .ok
  | none => []

def ahead (crc : Bytes → UInt32) (dir : Dir) (r : WalReplay) : List (Except IoError SegmentCursor) :=
  r.currentItems crc ++ r.segments.flatMap (segmentItems crc dir)

def turnsLeft (crc : Bytes → UInt32) (dir : Dir) (r : WalReplay) : ℕ :=
  (r.ahead crc dir).length + r.segments.length + if r.current.isSome then 1 else 0

variable {dir : Dir} {r r' : WalReplay} {item : Except IoError SegmentCursor}

theorem ahead_eq_nil (h : r.turnsLeft crc dir = 0) : r.ahead crc dir = [] := by
  unfold turnsLeft at h
  exact length_eq_zero_iff.mp (by omega)

def TurnSpec (crc : Bytes → UInt32) (dir : Dir) (r : WalReplay) : Turn × WalReplay → Prop
  | (.yield item, r') =>
    r.ahead crc dir = item :: r'.ahead crc dir ∧ r'.turnsLeft crc dir < r.turnsLeft crc dir ∧
      r'.segments <:+ r.segments
  | (.again, r') =>
    r.ahead crc dir = r'.ahead crc dir ∧ r'.turnsLeft crc dir < r.turnsLeft crc dir ∧
      r'.segments <:+ r.segments
  | (.finished, r') => r.turnsLeft crc dir = 0 ∧ r' = r

theorem read_spec {r₀ : WalReplay} {c : SegmentCursor}
    (hahead : r₀.ahead crc dir = (c.scan crc).1.map .ok ++ r.segments.flatMap (segmentItems crc dir))
    (hturns : (r₀.ahead crc dir).length + r.segments.length < r₀.turnsLeft crc dir)
    (hsuffix : r.segments <:+ r₀.segments) : TurnSpec crc dir r₀ (r.read crc c) := by
  unfold read
  cases hadv : c.advance crc with
  | none =>
    have hnil : r₀.ahead crc dir = ({ r with current := none } : WalReplay).ahead crc dir := by
      rw [hahead, SegmentCursor.scan_of_none hadv]
      rfl
    refine ⟨hnil, ?_, hsuffix⟩
    have : ({ r with current := none } : WalReplay).turnsLeft crc dir
        = (r₀.ahead crc dir).length + r.segments.length := by
      simp [turnsLeft, hnil]
    omega
  | some c' =>
    have hcons : r₀.ahead crc dir
        = .ok c' :: ({ r with current := some c' } : WalReplay).ahead crc dir := by
      rw [hahead, SegmentCursor.scan_of_some hadv]
      rfl
    refine ⟨hcons, ?_, hsuffix⟩
    have : ({ r with current := some c' } : WalReplay).turnsLeft crc dir
        = (r₀.ahead crc dir).length + r.segments.length := by
      rw [hcons]
      simp [turnsLeft]
      omega
    omega

theorem turn_spec (crc : Bytes → UInt32) (dir : Dir) (r : WalReplay) :
    TurnSpec crc dir r (r.turn crc dir) := by
  obtain ⟨segments, current⟩ := r
  cases current with
  | some c =>
    exact read_spec rfl (by simp [turnsLeft]) (suffix_refl _)
  | none =>
    cases segments with
    | nil => exact ⟨rfl, rfl⟩
    | cons entry rest =>
      obtain ⟨seq, path⟩ := entry
      cases hfile : dir[path]? with
      | none =>
        have hturn : turn crc dir { segments := (seq, path) :: rest, current := none }
            = (.yield (.error .notFound), { segments := rest, current := none }) := by
          simp only [turn, hfile]
        rw [hturn]
        refine ⟨?_, ?_, suffix_cons ..⟩
        · simp [ahead, currentItems, segmentItems, hfile]
        · simp [turnsLeft, ahead, currentItems, segmentItems, hfile]
          omega
      | some file =>
        have hturn : turn crc dir { segments := (seq, path) :: rest, current := none }
            = read crc { segments := rest } { seq, reader := file.bytes } := by
          simp only [turn, hfile]
        rw [hturn]
        refine read_spec ?_ ?_ (suffix_cons ..)
        · simp [ahead, currentItems, segmentItems, hfile, segmentRecords]
        · simp [turnsLeft]

theorem turn_congr {dir' : Dir} (h : ∀ entry ∈ r.segments.head?, dir[entry.2]? = dir'[entry.2]?) :
    r.turn crc dir = r.turn crc dir' := by
  obtain ⟨segments, current⟩ := r
  cases current with
  | some c => rfl
  | none =>
    cases segments with
    | nil => rfl
    | cons entry rest =>
      have hentry := h entry rfl
      simp only [turn, hentry]

theorem yieldedIn_eq_ahead {n : ℕ} (h : r.turnsLeft crc dir ≤ n) :
    r.yieldedIn crc dir n = r.ahead crc dir := by
  induction n generalizing r with
  | zero =>
    rw [ahead_eq_nil (Nat.le_zero.mp h)]
    rfl
  | succ n ih =>
    have hspec := r.turn_spec crc dir
    unfold yieldedIn
    split
    · next item r' hturn =>
        rw [hturn] at hspec
        rw [hspec.1, ih (by have := hspec.2.1; omega)]
    · next r' hturn =>
        rw [hturn] at hspec
        rw [hspec.1, ih (by have := hspec.2.1; omega)]
    · next r' hturn =>
        rw [hturn] at hspec
        rw [ahead_eq_nil hspec.1]

theorem mem_ahead_of_mem_yieldedIn {n : ℕ} (h : item ∈ r.yieldedIn crc dir n) :
    item ∈ r.ahead crc dir := by
  induction n generalizing r with
  | zero => cases h
  | succ n ih =>
    have hspec := r.turn_spec crc dir
    unfold yieldedIn at h
    split at h
    · next first r' hturn =>
        rw [hturn] at hspec
        rw [hspec.1]
        rcases mem_cons.mp h with rfl | h
        · exact mem_cons_self
        · exact mem_cons_of_mem _ (ih h)
    · next r' hturn =>
        rw [hturn] at hspec
        rw [hspec.1]
        exact ih h
    · cases h

theorem exists_mem_yieldedIn (h : item ∈ r.ahead crc dir) : ∃ n, item ∈ r.yieldedIn crc dir n :=
  ⟨_, (yieldedIn_eq_ahead le_rfl).symm ▸ h⟩

theorem turn_ok {c' : SegmentCursor} (h : r.turn crc dir = (.yield (.ok c'), r')) :
    r'.current = some c' ∧ ((∃ c, r.current = some c ∧ c'.seq = c.seq ∧ r'.segments = r.segments) ∨
        ∃ entry, r.segments = entry :: r'.segments ∧ c'.seq = entry.1) := by
  obtain ⟨segments, current⟩ := r
  cases current with
  | some c =>
    simp only [turn, read] at h
    split at h
    · next c'' hadv =>
        obtain ⟨rfl, rfl⟩ := h
        exact ⟨rfl, .inl ⟨c, rfl, SegmentCursor.seq_of_advance hadv, rfl⟩⟩
    · simp at h
  | none =>
    cases segments with
    | nil => simp [turn] at h
    | cons entry rest =>
      simp only [turn] at h
      split at h
      · simp at h
      · next file hfile =>
          simp only [read] at h
          split at h
          · next c'' hadv =>
              obtain ⟨rfl, rfl⟩ := h
              exact ⟨rfl, .inr ⟨entry, rfl, SegmentCursor.seq_of_advance hadv⟩⟩
          · simp at h

theorem turn_again (h : r.turn crc dir = (.again, r')) : r'.current = none := by
  unfold turn read at h
  split at h
  · split at h
    · simp at h
    · cases h
      rfl
  · split at h
    · simp at h
    · split at h
      · simp at h
      · split at h
        · simp at h
        · cases h
          rfl

end WalReplay

/-! ## The fresh segment -/

theorem sorted_segmentSeqs (dir : Dir) : (segmentSeqs dir).Pairwise (· ≤ ·) :=
  pairwise_insertionSort _ _

theorem freshSeq_lt (seqs : List ℕ) : freshSeq seqs < 2 ^ 64 := by
  unfold freshSeq
  split
  · exact Nat.mod_lt _ (by decide)
  · decide

theorem lt_freshSeq (hmax : ∀ seq ∈ segmentSeqs dir, seq + 1 < 2 ^ 64) (hseq : seq ∈ segmentSeqs dir) :
    seq < freshSeq (segmentSeqs dir) := by
  obtain ⟨last, hlast⟩ := Option.isSome_iff_exists.mp (getLast?_isSome.mpr (ne_nil_of_mem hseq))
  obtain ⟨before, hsplit⟩ := getLast?_eq_some_iff.mp hlast
  have hmem : last ∈ segmentSeqs dir := hsplit ▸ mem_append_right _ (mem_singleton_self _)
  have hle : seq ≤ last := by
    have hsorted := sorted_segmentSeqs dir
    rw [hsplit] at hsorted hseq
    rcases mem_append.mp hseq with hbefore | hself
    · exact (pairwise_append.mp hsorted).2.2 seq hbefore last (mem_singleton_self _)
    · exact (mem_singleton.mp hself).le
  rw [freshSeq, hlast]
  show seq < (last + 1) % 2 ^ 64
  rw [Nat.mod_eq_of_lt (hmax last hmem)]
  omega

end RSearch.Wal
