import RSearch.Wal.Open

/-!
# The log reads back what it holds

A segment may begin with records of the first version, without an identity, and goes on with records of
the second.  Both are frames around a payload; the high bit of the first length field tells them apart.
`Entry` is a record of either version as its writer had it.
-/

namespace RSearch.Wal

open List Bytes SegmentCursor WalReplay

variable {crc : Bytes → UInt32}

/-! ## Frames -/

def frame (crc : Bytes → UInt32) (payload : Bytes) : Bytes :=
  toLe 4 payload.length ++ (toLe 4 (crc payload).toNat ++ payload)

@[simp] theorem length_frame (crc : Bytes → UInt32) (payload : Bytes) :
    (frame crc payload).length = 8 + payload.length := by
  simp only [frame, length_append, length_toLe]
  omega

theorem readFrame_frame {payload : Bytes} (htwo : 2 ≤ payload.length) (hlen : payload.length < 2 ^ 32)
    (rest : Bytes) : readFrame crc (frame crc payload ++ rest) = some (payload, rest) := by
  have hlenField : ofLe (slice (frame crc payload ++ rest) (0, 4)) = payload.length := by
    rw [frame, append_assoc, slice_left _ (length_toLe ..)]
    exact ofLe_toLe_of_lt (by exact hlen)
  have hsum : ofLe (slice (frame crc payload ++ rest) (4, 8)) = (crc payload).toNat := by
    rw [frame, append_assoc, append_assoc, slice_middle _ _ _ (by simp) (by simp)]
    exact ofLe_toLe_of_lt (crc payload).toNat_lt
  have hbody : (frame crc payload ++ rest).drop 8 = payload ++ rest := by
    rw [frame, ← append_assoc, append_assoc]
    exact drop_append_of_length _ (by simp)
  have htotal : (frame crc payload ++ rest).length = 8 + payload.length + rest.length := by
    rw [length_append, length_frame]
  simp only [readFrame, hlenField, hsum, hbody, take_append_of_length _ rfl, drop_append_of_length _ rfl]
  rw [if_neg (by omega), if_neg (by omega), if_neg (by rw [length_append]; omega),
    if_neg (by simp)]

theorem readFrame_take_frame {payload : Bytes} (htwo : 2 ≤ payload.length)
    (hlen : payload.length < 2 ^ 32) (rest : Bytes) {n : ℕ} (hn : n < 8 + payload.length) :
    readFrame crc ((frame crc payload ++ rest).take n) = none := by
  rw [Option.eq_none_iff_forall_ne_some]
  rintro ⟨buf, left⟩ hread
  have hwhole := (readFrame_spec hread).2 ((frame crc payload ++ rest).drop n)
  rw [take_append_drop, readFrame_frame htwo hlen] at hwhole
  obtain ⟨-, hrest⟩ := Prod.mk.inj (Option.some.inj hwhole)
  have hlength := congrArg List.length hrest
  rw [length_append, length_drop, length_append, length_frame] at hlength
  omega

/-! ## Records of both versions -/

structure LegacyRecord where
  stream : String
  doc : Bytes
  deriving DecidableEq

inductive Entry where
  | legacy (r : LegacyRecord)
  | item (i : WalItem)
  deriving DecidableEq

open Entry

namespace LegacyRecord

def payload (r : LegacyRecord) : Bytes :=
  toLe 2 (utf8 r.stream).length ++ (utf8 r.stream ++ r.doc)

def layout (r : LegacyRecord) : RecordLayout where
  stream := (2, 2 + (utf8 r.stream).length)
  docStart := 2 + (utf8 r.stream).length

theorem length_payload (r : LegacyRecord) :
    r.payload.length = 2 + (utf8 r.stream).length + r.doc.length := by
  simp only [payload, length_append, length_toLe]
  omega

theorem parseLayout_payload {r : LegacyRecord} (h : (utf8 r.stream).length < 0x8000) :
    parseLayout r.payload = some r.layout := by
  have hfield : readU16 r.payload 0 = UInt16.ofNat (utf8 r.stream).length := by
    refine readU16_of_slice ?_
    have hnat : (UInt16.ofNat (utf8 r.stream).length).toNat = (utf8 r.stream).length := by
      rw [UInt16.toNat_ofNat', Nat.mod_eq_of_lt (by omega)]
    rw [hnat, payload]
    exact slice_left _ (length_toLe ..)
  have hlow : (UInt16.ofNat (utf8 r.stream).length &&& ~~~v2Flag).toNat
      = (utf8 r.stream).length := by
    have hflag := toNat_flagged_low h false
    rwa [if_neg Bool.false_ne_true, UInt16.or_zero] at hflag
  have hhigh : UInt16.ofNat (utf8 r.stream).length &&& v2Flag = 0 := by
    have hflag := flagged_high h false
    rwa [if_neg Bool.false_ne_true, UInt16.or_zero] at hflag
  have hlen := r.length_payload
  simp only [parseLayout, hfield, hlow, hhigh]
  rw [if_neg (by omega), if_pos trivial]
  rfl

end LegacyRecord

namespace Entry

def payload : Entry → Bytes
  | .legacy r => r.payload
  | .item i => i.payload

def layout : Entry → RecordLayout
  | .legacy r => r.layout
  | .item i => i.layout

def encode (crc : Bytes → UInt32) : Entry → Bytes
  | .legacy r => frame crc r.payload
  | .item i => i.encode crc

/-- What the format can hold: names shorter than 32768 bytes, and a payload whose length fits its
field. -/
def Fits : Entry → Prop
  | .legacy r => (utf8 r.stream).length < 0x8000 ∧ r.payload.length < 2 ^ 32
  | .item i => (utf8 i.stream).length < 0x8000 ∧ (utf8 i.id).length < 0x8000 ∧
      i.payload.length < 2 ^ 32

/-- The record that replay gives back.  One of the first version has no identity and is given
`uuid`. -/
def toRecord (seg : ℕ) (uuid : String) : Entry → WalRecord
  | .legacy r => ⟨r.stream, uuid, 0, false, r.doc, ⟨seg⟩⟩
  | .item i => i.toRecord seg

theorem encode_eq_frame (crc : Bytes → UInt32) (e : Entry) : e.encode crc = frame crc e.payload := by
  cases e with
  | legacy r => rfl
  | item i =>
    show i.encode crc = frame crc i.payload
    rw [i.encode_eq, frame, i.length_payload]

theorem two_le_length_payload (e : Entry) : 2 ≤ e.payload.length := by
  cases e with
  | legacy r =>
    show 2 ≤ r.payload.length
    rw [r.length_payload]
    omega
  | item i =>
    show 2 ≤ i.payload.length
    rw [i.length_payload, WalItem.payloadLen]
    omega

variable {e : Entry} {es : List Entry}

theorem Fits.length_lt (h : e.Fits) : e.payload.length < 2 ^ 32 := by
  cases e with
  | legacy r => exact h.2
  | item i => exact h.2.2

theorem parseLayout_payload (h : e.Fits) : parseLayout e.payload = some e.layout := by
  cases e with
  | legacy r => exact LegacyRecord.parseLayout_payload h.1
  | item i =>
    refine WalItem.parseLayout_payload ?_
    simp only [WalItem.tooLong, Bool.or_eq_false_iff, decide_eq_false_iff_not, not_le]
    exact ⟨h.1, h.2.1⟩

def after (e : Entry) (seq : ℕ) (rest : Bytes) : SegmentCursor :=
  { seq, reader := rest, buf := e.payload, layout := e.layout }

theorem record_after (e : Entry) (uuid : String) (seq : ℕ) (rest : Bytes) :
    (e.after seq rest).record uuid = e.toRecord seq uuid := by
  cases e with
  | item i => exact SegmentCursor.record_after i uuid seq rest
  | legacy r =>
    have hstream : slice r.payload (2, 2 + (utf8 r.stream).length) = utf8 r.stream :=
      slice_middle _ _ _ (length_toLe ..) rfl
    have hdoc : r.payload.drop (2 + (utf8 r.stream).length) = r.doc := by
      rw [LegacyRecord.payload, ← append_assoc]
      exact drop_append_of_length _ (by simp)
    simp only [after, SegmentCursor.record, payload, layout, LegacyRecord.layout, hstream, hdoc,
      fromUtf8Lossy_utf8]
    rfl

theorem advance_encode (h : e.Fits) (seq : ℕ) (rest buf : Bytes) (layout : RecordLayout) :
    ({ seq, reader := e.encode crc ++ rest, buf, layout } : SegmentCursor).advance crc
      = some (e.after seq rest) := by
  simp [advance, encode_eq_frame,
    readFrame_frame e.two_le_length_payload h.length_lt, parseLayout_payload h, after]

theorem advance_take (h : e.Fits) (seq : ℕ) (rest buf : Bytes) (layout : RecordLayout) {n : ℕ}
    (hn : n < (e.encode crc).length) :
    ({ seq, reader := (e.encode crc ++ rest).take n, buf, layout } : SegmentCursor).advance crc
      = none := by
  rw [encode_eq_frame, length_frame] at hn
  simp [advance, encode_eq_frame, readFrame_take_frame e.two_le_length_payload h.length_lt rest hn]

def whole (crc : Bytes → UInt32) : ℕ → List Entry → List Entry
  | _, [] => []
  | n, e :: es =>
    if (e.encode crc).length ≤ n then e :: whole crc (n - (e.encode crc).length) es else []

theorem whole_eq_self {n : ℕ} (h : (es.flatMap (encode crc)).length ≤ n) : whole crc n es = es := by
  induction es generalizing n with
  | nil => rfl
  | cons e es ih =>
    rw [flatMap_cons, length_append] at h
    rw [whole, if_pos (by omega), ih (by omega)]

def content (c : SegmentCursor) : ℕ × Bytes × RecordLayout := (c.seq, c.buf, c.layout)

theorem contents_scan_take (seq : ℕ) (h : ∀ e ∈ es, e.Fits) (n : ℕ) (buf : Bytes) (layout : RecordLayout) :
    ((({ seq, reader := (es.flatMap (encode crc)).take n, buf, layout } :
        SegmentCursor).scan crc).1.map content)
      = (whole crc n es).map fun e => (seq, e.payload, e.layout) := by
  induction es generalizing n buf layout with
  | nil => simp [whole, scan_of_reader_nil]
  | cons e es ih =>
    have hfits := h e mem_cons_self
    rw [flatMap_cons, whole]
    split_ifs with hn
    · -- The record is whole: the pass goes on behind it, with that much less before the cut.
      rw [take_append, take_of_length_le hn, scan_of_some (advance_encode hfits seq _ buf layout), map_cons,
        map_cons]
      exact congrArg _ (ih (fun e he => h e (mem_cons_of_mem _ he)) _ _ _)
    · rw [scan_of_none (advance_take hfits seq _ buf layout (not_le.mp hn))]
      rfl

end Entry

def decodeSegment (crc : Bytes → UInt32) (seg : ℕ) (uuid : ℕ → String) (bytes : Bytes) :
    List WalRecord :=
  (segmentRecords crc seg bytes).mapIdx fun i c => c.record (uuid i)

theorem mapIdx_map {α β γ : Type*} (f : ℕ → β → γ) (g : α → β) (l : List α) :
    (l.map g).mapIdx f = l.mapIdx fun i a => f i (g a) := by
  refine ext_getElem? fun i => ?_
  simp only [getElem?_mapIdx, getElem?_map, Option.map_map, Function.comp_def]

theorem decodeSegment_take (crc : Bytes → UInt32) (seg : ℕ) (uuid : ℕ → String) {es : List Entry}
    (h : ∀ e ∈ es, e.Fits) (n : ℕ) :
    decodeSegment crc seg uuid ((es.flatMap (encode crc)).take n)
      = (whole crc n es).mapIdx fun i e => e.toRecord seg (uuid i) := by
  -- A record is a function of what the cursor holds, so the pass can be compared by contents.
  have hcontents : decodeSegment crc seg uuid ((es.flatMap (encode crc)).take n)
      = ((segmentRecords crc seg ((es.flatMap (encode crc)).take n)).map content).mapIdx fun i x =>
            ({ seq := x.1, reader := [], buf := x.2.1, layout := x.2.2 } :
              SegmentCursor).record (uuid i) := by
    rw [mapIdx_map]
    rfl
  rw [hcontents, segmentRecords, contents_scan_take seg h, mapIdx_map]
  exact congrFun (congrArg List.mapIdx (funext fun i => funext fun e => e.record_after (uuid i) seg [])) _

/-! ## The counting pass and the iterator -/

/-- **Every segment has the name the log gives it.**  The log itself never makes another. -/
def OwnNames (dir : Dir) : Prop :=
  ∀ name ∈ dir, ∀ seq, parseSegmentName name = some seq → name = segmentPath seq

def recordsOf (seg : ℕ) (items : List (Except IoError SegmentCursor)) : List SegmentCursor :=
  items.filterMap fun item => item.toOption.filter fun c => c.seq = seg

variable {dir : Dir} {seq seg : ℕ} {file : File} {seqs : List ℕ}

theorem nodup_segmentSeqs (h : OwnNames dir) : (segmentSeqs dir).Nodup := by
  refine (perm_insertionSort _ _).nodup_iff.mpr ?_
  refine pairwise_filterMap.mpr ?_
  refine Std.ExtTreeMap.distinct_keys.imp_of_mem ?_
  intro name name' hname hname' hne seq hseq seq' hseq' heq
  subst heq
  rw [Std.ExtTreeMap.mem_keys] at hname hname'
  rw [h name hname seq hseq, h name' hname' seq hseq'] at hne
  exact hne Std.ReflCmp.compare_self

theorem isSome_segmentPath (h : OwnNames dir) (hseq : seq ∈ segmentSeqs dir) :
    ∃ file, dir[segmentPath seq]? = some file := by
  obtain ⟨name, hname, hparse⟩ := mem_segmentSeqs.mp hseq
  rw [h name hname seq hparse] at hname
  exact ⟨_, Std.ExtTreeMap.getElem?_eq_some_getElem hname⟩

@[simp] theorem recordsOf_append (seg : ℕ) (items items' : List (Except IoError SegmentCursor)) :
    recordsOf seg (items ++ items') = recordsOf seg items ++ recordsOf seg items' :=
  filterMap_append

theorem recordsOf_segmentRecords (seg seq : ℕ) (bytes : Bytes) :
    recordsOf seg ((segmentRecords crc seq bytes).map .ok)
      = if seq = seg then segmentRecords crc seq bytes else [] := by
  have hseq : ∀ c ∈ segmentRecords crc seq bytes, c.seq = seq :=
    fun c hc => seq_of_mem_scan hc
  generalize segmentRecords crc seq bytes = cs at hseq
  induction cs with
  | nil => simp [recordsOf]
  | cons c cs ih =>
    have htail := ih fun c hc => hseq c (mem_cons_of_mem _ hc)
    simp only [recordsOf, map_cons, filterMap_cons, Except.toOption] at htail ⊢
    by_cases heq : seq = seg
    · simp_all [Option.filter]
    · simp_all [Option.filter]

theorem recordsOf_segmentItems (hfile : dir[segmentPath seq]? = some file) :
    recordsOf seg (segmentItems crc dir (seq, segmentPath seq))
      = if seq = seg then segmentRecords crc seq file.bytes else [] := by
  rw [← recordsOf_segmentRecords, segmentItems, hfile]

theorem recordsOf_of_notMem (crc : Bytes → UInt32)
    (hfiles : ∀ seq ∈ seqs, ∃ file, dir[segmentPath seq]? = some file) (hseg : seg ∉ seqs) :
    recordsOf seg (seqs.flatMap fun seq =>
      segmentItems crc dir (seq, segmentPath seq)) = [] := by
  induction seqs with
  | nil => rfl
  | cons seq seqs ih =>
    rw [mem_cons, not_or] at hseg
    obtain ⟨file, hfile⟩ := hfiles seq mem_cons_self
    rw [flatMap_cons, recordsOf_append, recordsOf_segmentItems hfile,
      if_neg (Ne.symm hseg.1), ih (fun seq h => hfiles seq (mem_cons_of_mem _ h)) hseg.2]
    rfl

theorem recordsOf_flatMap (hnodup : seqs.Nodup)
    (hfiles : ∀ seq ∈ seqs, ∃ file, dir[segmentPath seq]? = some file) (hseg : seg ∈ seqs)
    (hfile : dir[segmentPath seg]? = some file) :
    recordsOf seg (seqs.flatMap fun seq =>
      segmentItems crc dir (seq, segmentPath seq))
        = segmentRecords crc seg file.bytes := by
  obtain ⟨before, after, rfl⟩ := append_of_mem hseg
  obtain ⟨-, hafter, hdisjoint⟩ := nodup_append.mp hnodup
  have hbefore : seg ∉ before := fun h => hdisjoint seg h seg mem_cons_self rfl
  have hleft := recordsOf_of_notMem crc (fun seq h => hfiles seq (mem_append_left _ h)) hbefore
  have hright := recordsOf_of_notMem crc (fun seq h => hfiles seq (mem_append_right _ (mem_cons_of_mem _ h)))
    (nodup_cons.mp hafter).1
  rw [flatMap_append, flatMap_cons, recordsOf_append, recordsOf_append, hleft, hright,
    recordsOf_segmentItems hfile, if_pos rfl, nil_append, append_nil]

theorem exists_recordsOf_yieldedIn (crc : Bytes → UInt32) (h : OwnNames dir) (max : ℕ) :
    ∃ w r segs turns, openWal crc dir max = .ok (w, r) ∧
      countSegments crc dir (segmentSeqs dir) ∅ = .ok segs ∧ ∀ n ≥ turns, ∀ seg,
        (∀ file, seg ∈ segmentSeqs dir → dir[segmentPath seg]? = some file →
          segs[seg]? = some ⟨(segmentRecords crc seg file.bytes).length, true⟩ ∧
          recordsOf seg (r.yieldedIn crc w.dir n) = segmentRecords crc seg file.bytes) ∧
        (seg ∉ segmentSeqs dir →
          segs[seg]? = none ∧ recordsOf seg (r.yieldedIn crc w.dir n) = []) := by
  have hsome : ∀ seq ∈ segmentSeqs dir, dir[segmentPath seq]? ≠ none := by
    intro seq hseq hnone
    obtain ⟨file, hfile⟩ := isSome_segmentPath h hseq
    rw [hnone] at hfile
    cases hfile
  obtain ⟨w, r, hopen⟩ := exists_openWal crc hsome max
  obtain ⟨segs, hcount, hw, hr⟩ := openWal_eq_ok hopen
  obtain ⟨hin, hout⟩ := countSegments_eq_ok hcount
  refine ⟨w, r, segs, r.turnsLeft crc w.dir, hopen, hcount, fun n hn seg => ?_⟩
  rw [yieldedIn_eq_ahead hn, hw, hr]
  -- Opening adds a file only where there was none, so every listed segment is as it was counted.
  have hsame : ∀ {seq : ℕ} {file : File}, dir[segmentPath seq]? = some file →
      (dir.insertIfNew (segmentPath (freshSeq (segmentSeqs dir))) .empty)[segmentPath seq]?
        = some file := by
    intro seq file hfile
    rw [Std.ExtTreeMap.getElem?_insertIfNew, if_neg, hfile]
    rintro ⟨heq, hnotMem⟩
    rw [Std.LawfulEqCmp.compare_eq_iff_eq] at heq
    rw [heq] at hnotMem
    exact hnotMem (Std.ExtTreeMap.mem_iff_isSome_getElem?.mpr (by rw [hfile]; rfl))
  have hfiles : ∀ seq ∈ segmentSeqs dir, ∃ file,
      (dir.insertIfNew (segmentPath (freshSeq (segmentSeqs dir))) .empty)[segmentPath seq]?
        = some file := by
    intro seq hseq
    obtain ⟨file, hfile⟩ := isSome_segmentPath h hseq
    exact ⟨file, hsame hfile⟩
  simp only [ahead, currentItems, nil_append, flatMap_map]
  refine ⟨fun file hseg hfile => ⟨?_, ?_⟩, fun hseg => ⟨?_, ?_⟩⟩
  · obtain ⟨file', hfile', hsegs⟩ := hin seg hseg
    rw [hfile] at hfile'
    cases hfile'
    exact hsegs
  · exact recordsOf_flatMap (nodup_segmentSeqs h) hfiles hseg (hsame hfile)
  · rw [hout seg hseg]
    simp
  · exact recordsOf_of_notMem crc hfiles hseg

/-- **The log reads back what it holds.**  A sequence of records of both versions reads back as the
same records in order, cut anywhere it reads back as the records that are whole, and of every
directory with the log's own names the counting pass of `open` counts, segment by segment, the
records that the iterator yields, which for a segment that holds the sequence are those records. -/
theorem decode_round_trip (crc : Bytes → UInt32) {entries : List Entry} (hfits : ∀ e ∈ entries, e.Fits)
    {seg : ℕ} (hseg : seg < 2 ^ 64) (uuid : ℕ → String) :
    decodeSegment crc seg uuid (entries.flatMap (Entry.encode crc))
      = entries.mapIdx (fun i e => e.toRecord seg (uuid i)) ∧
    (∀ cut, decodeSegment crc seg uuid ((entries.flatMap (Entry.encode crc)).take cut)
      = (Entry.whole crc cut entries).mapIdx fun i e => e.toRecord seg (uuid i)) ∧
    ∀ dir max, OwnNames dir → ∃ w r segs turns, openWal crc dir max = .ok (w, r) ∧
      countSegments crc dir (segmentSeqs dir) ∅ = .ok segs ∧ ∀ n ≥ turns,
        (∀ seg', (segs[seg']?.map (·.outstanding)).getD 0
          = (recordsOf seg' (r.yieldedIn crc w.dir n)).length) ∧
        ∀ file cut, dir[segmentPath seg]? = some file →
          file.bytes = (entries.flatMap (Entry.encode crc)).take cut →
          (recordsOf seg (r.yieldedIn crc w.dir n)).mapIdx (fun i c => c.record (uuid i))
            = (Entry.whole crc cut entries).mapIdx fun i e => e.toRecord seg (uuid i) := by
  have htake := decodeSegment_take crc seg uuid hfits
  refine ⟨?_, htake, fun dir max hnames => ?_⟩
  · have hall := htake (entries.flatMap (Entry.encode crc)).length
    rwa [take_length, Entry.whole_eq_self le_rfl] at hall
  obtain ⟨w, r, segs, turns, hopen, hcount, hagree⟩ :=
    exists_recordsOf_yieldedIn crc hnames max
  refine ⟨w, r, segs, turns, hopen, hcount, fun n hn => ⟨fun seg' => ?_, ?_⟩⟩
  · by_cases hmem : seg' ∈ segmentSeqs dir
    · obtain ⟨file, hfile⟩ := isSome_segmentPath hnames hmem
      obtain ⟨hsegs, hyield⟩ := (hagree n hn seg').1 file hmem hfile
      rw [hsegs, hyield]
      rfl
    · obtain ⟨hsegs, hyield⟩ := (hagree n hn seg').2 hmem
      rw [hsegs, hyield]
      rfl
  · intro file cut hfile hbytes
    have hmem : seg ∈ segmentSeqs dir := mem_segmentSeqs.mpr
      ⟨segmentPath seg, Std.ExtTreeMap.mem_iff_isSome_getElem?.mpr (by rw [hfile]; rfl),
        parseSegmentName_segmentPath hseg⟩
    rw [((hagree n hn seg).1 file hmem hfile).2, hbytes]
    exact htake cut

def mixedEntries : List Entry :=
  [.legacy ⟨"old", utf8 "\x7b\x7d"⟩, .item ⟨"a", "7", 1, true, "\x7b\x7d"⟩]

theorem decode_round_trip_mixed :
    decodeSegment crc32 3 (fun _ => "uuid") (mixedEntries.flatMap (Entry.encode crc32))
      = [⟨"old", "uuid", 0, false, utf8 "\x7b\x7d", ⟨3⟩⟩,
          ⟨"a", "7", 1, true, utf8 "\x7b\x7d", ⟨3⟩⟩] ∧
    decodeSegment crc32 3 (fun _ => "uuid") ((mixedEntries.flatMap (Entry.encode crc32)).take 38)
      = [⟨"old", "uuid", 0, false, utf8 "\x7b\x7d", ⟨3⟩⟩] := by
  have hfits : ∀ e ∈ mixedEntries, e.Fits := by
    intro e he
    simp only [mixedEntries, mem_cons, not_mem_nil, or_false] at he
    rcases he with rfl | rfl
    · exact ⟨by decide, by decide⟩
    · exact ⟨by decide, by decide, by decide⟩
  have hseg : 3 < 2 ^ 64 := by decide
  obtain ⟨hall, hcut, -⟩ := decode_round_trip crc32 hfits hseg fun _ => "uuid"
  exact ⟨hall, hcut 38⟩

end RSearch.Wal
