import RSearch.Lib.Bytes

/-!
# The record format of the write-ahead log

A segment file is a sequence of records `[len: u32 LE][crc32(payload): u32 LE][payload]`.  The writer
produces the second payload version, `[0x8000 | stream_len][stream][flag | id_len][id][seq: i64
LE][doc]`, in eight writes.  The reader also accepts the first version, `[stream_len][stream][doc]`.
-/

namespace RSearch.Wal

open List Bytes

structure WalPos where
  segment : ℕ
deriving DecidableEq

structure WalItem where
  stream : String
  id : String
  seq : Int64
  tombstone : Bool
  doc : String
deriving DecidableEq

structure WalRecord where
  stream : String
  id : String
  seq : Int64
  tombstone : Bool
  doc : Bytes
  pos : WalPos
deriving DecidableEq

def v2Flag : UInt16 := 0x8000

def tombstoneFlag : UInt16 := 0x8000

/-! ## Writing -/

namespace WalItem

def tooLong (item : WalItem) : Bool :=
  v2Flag.toNat ≤ (utf8 item.stream).length || tombstoneFlag.toNat ≤ (utf8 item.id).length

def payloadLen (item : WalItem) : ℕ :=
  2 + (utf8 item.stream).length + 2 + (utf8 item.id).length + 8 + (utf8 item.doc).length

def lenField (item : WalItem) : UInt16 :=
  UInt16.ofNat (utf8 item.stream).length ||| v2Flag

def idLenField (item : WalItem) : UInt16 :=
  UInt16.ofNat (utf8 item.id).length ||| if item.tombstone then tombstoneFlag else 0

def seqBytes (item : WalItem) : Bytes :=
  toLe 8 item.seq.toUInt64.toNat

def payloadParts (item : WalItem) : List Bytes :=
  [toLe 2 item.lenField.toNat, utf8 item.stream, toLe 2 item.idLenField.toNat, utf8 item.id,
    item.seqBytes, utf8 item.doc]

def payload (item : WalItem) : Bytes :=
  item.payloadParts.flatten

def writes (crc : Bytes → UInt32) (item : WalItem) : List Bytes :=
  toLe 4 item.payloadLen :: toLe 4 (crc item.payload).toNat :: item.payloadParts

def encode (crc : Bytes → UInt32) (item : WalItem) : Bytes :=
  (item.writes crc).flatten

def toRecord (item : WalItem) (seg : ℕ) : WalRecord :=
  ⟨item.stream, item.id, item.seq, item.tombstone, utf8 item.doc, ⟨seg⟩⟩

/-- An item whose record the reader can take back: the names pass the check, and the payload's
length fits its 32-bit field. -/
structure Fits (item : WalItem) : Prop where
  names : item.tooLong = false
  payload : item.payloadLen < 2 ^ 32

theorem length_seqBytes (item : WalItem) : item.seqBytes.length = 8 :=
  length_toLe ..

theorem length_payload (item : WalItem) : item.payload.length = item.payloadLen := by
  simp [payload, payloadParts, payloadLen, length_seqBytes]
  omega

theorem encode_eq (crc : Bytes → UInt32) (item : WalItem) :
    item.encode crc = toLe 4 item.payloadLen ++ (toLe 4 (crc item.payload).toNat ++ item.payload) :=
  rfl

theorem length_encode (crc : Bytes → UInt32) (item : WalItem) :
    (item.encode crc).length = 8 + item.payloadLen := by
  simp [encode_eq, length_payload]
  omega

variable {item : WalItem}

theorem length_stream_lt (h : item.tooLong = false) : (utf8 item.stream).length < 0x8000 := by
  simp only [tooLong, Bool.or_eq_false_iff, decide_eq_false_iff_not, not_le] at h
  exact h.1

theorem length_id_lt (h : item.tooLong = false) : (utf8 item.id).length < 0x8000 := by
  simp only [tooLong, Bool.or_eq_false_iff, decide_eq_false_iff_not, not_le] at h
  exact h.2

end WalItem

/-! ## Length fields with a flag in the high bit -/

variable {n i j : ℕ} {buf : Bytes} {crc : Bytes → UInt32}

theorem toNat_flagged_low (h : n < 0x8000) (b : Bool) :
    ((UInt16.ofNat n ||| if b then 0x8000 else 0) &&& ~~~(0x8000 : UInt16)).toNat = n := by
  have hn : n % 2 ^ 16 = n := Nat.mod_eq_of_lt (by omega)
  have hmask : (~~~(0x8000 : UInt16)).toNat = 2 ^ 15 - 1 := by decide
  rw [UInt16.toNat_and, hmask, Nat.and_two_pow_sub_one_eq_mod, UInt16.toNat_or, UInt16.toNat_ofNat', hn]
  cases b with
  | false =>
    grind
  | true =>
    have hor : 2 ^ 15 * 1 + n = 2 ^ 15 * 1 ||| n := Nat.two_pow_add_eq_or_of_lt h 1
    grind

theorem flagged_high (h : n < 0x8000) (b : Bool) :
    (UInt16.ofNat n ||| if b then 0x8000 else 0) &&& (0x8000 : UInt16)
      = if b then 0x8000 else 0 := by
  have hn : n % 2 ^ 16 = n := Nat.mod_eq_of_lt (by omega)
  have hbit : n.testBit 15 = false := Nat.testBit_lt_two_pow h
  apply UInt16.toNat_inj.1
  rw [UInt16.toNat_and, UInt16.toNat_or, UInt16.toNat_ofNat', hn,
    show (0x8000 : UInt16).toNat = 2 ^ 15 from rfl, Nat.and_two_pow, Nat.testBit_or, hbit]
  cases b <;> rfl

/-! ## The checksum -/

def crcBit (c : UInt32) : UInt32 :=
  if c &&& 1 = 1 then (c >>> 1) ^^^ 0xEDB88320 else c >>> 1

def crcByte (c : UInt32) (b : UInt8) : UInt32 :=
  crcBit^[8] (c ^^^ b.toUInt32)

def crc32 (bs : Bytes) : UInt32 :=
  bs.foldl crcByte 0xFFFFFFFF ^^^ 0xFFFFFFFF

example : crc32 (utf8 "123456789") = 0xCBF43926 := by decide +kernel

/-! ## Reading -/

structure RecordLayout where
  stream : ℕ × ℕ := (0, 0)
  /-- `none` for a legacy record without identity. -/
  id : Option (ℕ × ℕ) := none
  seq : Int64 := 0
  tombstone : Bool := false
  docStart : ℕ := 0
deriving DecidableEq

def slice (buf : Bytes) (r : ℕ × ℕ) : Bytes :=
  (buf.take r.2).drop r.1

def readU16 (buf : Bytes) (i : ℕ) : UInt16 :=
  UInt16.ofNat (ofLe (slice buf (i, i + 2)))

def readI64 (buf : Bytes) (i : ℕ) : Int64 :=
  (UInt64.ofNat (ofLe (slice buf (i, i + 8)))).toInt64

/-- The layout of a payload whose length and checksum are right, or `none` where a part runs over
the end. -/
def parseLayout (buf : Bytes) : Option RecordLayout :=
  let lenField := readU16 buf 0
  let streamLen := (lenField &&& ~~~v2Flag).toNat
  if buf.length < 2 + streamLen then none
  else if lenField &&& v2Flag = 0 then
    some { stream := (2, 2 + streamLen), docStart := 2 + streamLen }
  else if buf.length < 2 + streamLen + 2 then none
  else
    let idLenField := readU16 buf (2 + streamLen)
    let idLen := (idLenField &&& ~~~tombstoneFlag).toNat
    let idStart := 2 + streamLen + 2
    if buf.length < idStart + idLen + 8 then none
    else
      some
        { stream := (2, 2 + streamLen)
          id := some (idStart, idStart + idLen)
          seq := readI64 buf (idStart + idLen)
          tombstone := idLenField &&& tombstoneFlag != 0
          docStart := idStart + idLen + 8 }

/-- The payload at the head of `reader` and what follows it, if the frame around it checks. -/
def readFrame (crc : Bytes → UInt32) (reader : Bytes) : Option (Bytes × Bytes) :=
  if reader.length < 8 then none
  else
    let len := ofLe (slice reader (0, 4))
    let sum := ofLe (slice reader (4, 8))
    let body := reader.drop 8
    if len < 2 then none
    else if body.length < len then none
    else if (crc (body.take len)).toNat ≠ sum then none
    else some (body.take len, body.drop len)

/-- Streaming cursor over one segment file: the unread bytes, and the record last read. -/
structure SegmentCursor where
  seq : ℕ
  reader : Bytes
  buf : Bytes := []
  layout : RecordLayout := {}
deriving DecidableEq

namespace SegmentCursor

def advance (crc : Bytes → UInt32) (c : SegmentCursor) : Option SegmentCursor :=
  match readFrame crc c.reader with
  | none => none
  | some (buf, rest) =>
    match parseLayout buf with
    | none => none
    | some layout => some { c with reader := rest, buf, layout }

def record (uuid : String) (c : SegmentCursor) : WalRecord where
  stream := fromUtf8Lossy (slice c.buf c.layout.stream)
  id := match c.layout.id with
    | some r => fromUtf8Lossy (slice c.buf r)
    | none => uuid
  seq := c.layout.seq
  tombstone := c.layout.tombstone
  doc := c.buf.drop c.layout.docStart
  pos := ⟨c.seq⟩

def scanFuel (crc : Bytes → UInt32) : ℕ → SegmentCursor → List SegmentCursor × SegmentCursor
  | 0, c => ([], c)
  | fuel + 1, c =>
    match c.advance crc with
    | none => ([], c)
    | some c' => ((c' :: (scanFuel crc fuel c').1), (scanFuel crc fuel c').2)

/-- `while cursor.advance()`: every record takes at least one byte, so the length bounds the pass. -/
def scan (crc : Bytes → UInt32) (c : SegmentCursor) : List SegmentCursor × SegmentCursor :=
  scanFuel crc c.reader.length c

def extend (c : SegmentCursor) (bs : Bytes) : SegmentCursor :=
  { c with reader := c.reader ++ bs }

end SegmentCursor

/-- The records a pass over segment `seq` with content `bytes` reads, as cursor positions. -/
def segmentRecords (crc : Bytes → UInt32) (seq : ℕ) (bytes : Bytes) : List SegmentCursor :=
  (SegmentCursor.scan crc { seq, reader := bytes }).1

/-! ## Reading back what was written -/

theorem slice_middle (as bs cs : Bytes) (hi : as.length = i) (hj : i + bs.length = j) :
    slice (as ++ (bs ++ cs)) (i, j) = bs := by
  grind [slice]

theorem slice_left {as : Bytes} (bs : Bytes) (hj : as.length = j) : slice (as ++ bs) (0, j) = as := by
  grind [slice]

theorem readU16_of_slice {v : UInt16} (h : slice buf (i, i + 2) = toLe 2 v.toNat) :
    readU16 buf i = v := by
  have hv : v.toNat < 256 ^ 2 := v.toNat_lt
  rw [readU16, h, ofLe_toLe_of_lt hv, UInt16.ofNat_toNat]

theorem readI64_of_slice {v : Int64} (h : slice buf (i, i + 8) = toLe 8 v.toUInt64.toNat) :
    readI64 buf i = v := by
  have hv : v.toUInt64.toNat < 256 ^ 8 := v.toUInt64.toNat_lt
  rw [readI64, h, ofLe_toLe_of_lt hv, UInt64.ofNat_toNat, Int64.toInt64_toUInt64]

namespace WalItem

def layout (item : WalItem) : RecordLayout where
  stream := (2, 2 + (utf8 item.stream).length)
  id := some (2 + (utf8 item.stream).length + 2,
    2 + (utf8 item.stream).length + 2 + (utf8 item.id).length)
  seq := item.seq
  tombstone := item.tombstone
  docStart := 2 + (utf8 item.stream).length + 2 + (utf8 item.id).length + 8

theorem payload_eq (item : WalItem) :
    item.payload = toLe 2 item.lenField.toNat ++ (utf8 item.stream ++ (toLe 2 item.idLenField.toNat
      ++ (utf8 item.id ++ (item.seqBytes ++ utf8 item.doc)))) := by
  simp [payload, payloadParts]

theorem slice_lenField (item : WalItem) :
    slice item.payload (0, 0 + 2) = toLe 2 item.lenField.toNat := by
  exact slice_left _ (length_toLe ..)

theorem slice_stream (item : WalItem) :
    slice item.payload (2, 2 + (utf8 item.stream).length) = utf8 item.stream := by
  exact slice_middle _ _ _ (by simp) rfl

theorem slice_idLenField (item : WalItem) :
    slice item.payload (2 + (utf8 item.stream).length, 2 + (utf8 item.stream).length + 2)
      = toLe 2 item.idLenField.toNat := by
  rw [payload_eq, ← append_assoc]
  exact slice_middle _ _ _ (by simp) (by simp)

theorem slice_id (item : WalItem) :
    slice item.payload (2 + (utf8 item.stream).length + 2,
      2 + (utf8 item.stream).length + 2 + (utf8 item.id).length) = utf8 item.id := by
  rw [payload_eq, ← append_assoc, ← append_assoc]
  exact slice_middle _ _ _ (by simp; omega) rfl

theorem slice_seqBytes (item : WalItem) :
    slice item.payload (2 + (utf8 item.stream).length + 2 + (utf8 item.id).length,
      2 + (utf8 item.stream).length + 2 + (utf8 item.id).length + 8) = item.seqBytes := by
  rw [payload_eq, ← append_assoc, ← append_assoc, ← append_assoc]
  exact slice_middle _ _ _ (by simp; omega) (by rw [length_seqBytes])

theorem drop_docStart (item : WalItem) :
    item.payload.drop (2 + (utf8 item.stream).length + 2 + (utf8 item.id).length + 8)
      = utf8 item.doc := by
  rw [payload_eq]
  simp only [← append_assoc]
  exact drop_append_of_length _ (by simp [length_seqBytes]; omega)

theorem parseLayout_payload {item : WalItem} (h : item.tooLong = false) :
    parseLayout item.payload = some item.layout := by
  have hlen : item.payload.length = item.payloadLen := item.length_payload
  have hlenField : readU16 item.payload 0 = item.lenField := readU16_of_slice item.slice_lenField
  have hidField : readU16 item.payload (2 + (utf8 item.stream).length) = item.idLenField :=
    readU16_of_slice item.slice_idLenField
  have hstream : (item.lenField &&& ~~~v2Flag).toNat = (utf8 item.stream).length :=
    toNat_flagged_low (length_stream_lt h) true
  have hv2 : item.lenField &&& v2Flag = 0x8000 := flagged_high (length_stream_lt h) true
  have hid : (item.idLenField &&& ~~~tombstoneFlag).toNat = (utf8 item.id).length :=
    toNat_flagged_low (length_id_lt h) item.tombstone
  have htomb : (item.idLenField &&& tombstoneFlag != 0) = item.tombstone := by
    have hflag : item.idLenField &&& tombstoneFlag = if item.tombstone then 0x8000 else 0 :=
      flagged_high (length_id_lt h) item.tombstone
    rw [hflag]
    cases item.tombstone <;> rfl
  have hseq := readI64_of_slice item.slice_seqBytes
  simp only [payloadLen] at hlen
  simp only [parseLayout, hlenField, hstream]
  rw [if_neg (by omega), hv2, if_neg (by decide), if_neg (by omega)]
  simp only [hidField, hid]
  rw [if_neg (by omega), hseq, htomb]
  rfl

end WalItem

theorem readFrame_encode {item : WalItem} (h : item.payloadLen < 2 ^ 32) (rest : Bytes) :
    readFrame crc (item.encode crc ++ rest) = some (item.payload, rest) := by
  have hlen : ofLe (slice (item.encode crc ++ rest) (0, 4)) = item.payloadLen := by
    rw [item.encode_eq, append_assoc, slice_left _ (length_toLe ..)]
    exact ofLe_toLe_of_lt (by exact h)
  have hsum : ofLe (slice (item.encode crc ++ rest) (4, 8)) = (crc item.payload).toNat := by
    rw [item.encode_eq, append_assoc, append_assoc, slice_middle _ _ _ (by simp) (by simp)]
    exact ofLe_toLe_of_lt (crc item.payload).toNat_lt
  have hbody : (item.encode crc ++ rest).drop 8 = item.payload ++ rest := by
    rw [item.encode_eq, ← append_assoc, append_assoc]
    exact drop_append_of_length _ (by simp)
  have htotal := item.length_encode crc
  have htake : (item.payload ++ rest).take item.payloadLen = item.payload :=
    take_append_of_length _ item.length_payload
  have hdrop : (item.payload ++ rest).drop item.payloadLen = rest :=
    drop_append_of_length _ item.length_payload
  have htwo : 2 ≤ item.payloadLen := by
    simp only [WalItem.payloadLen]
    omega
  simp only [readFrame, hlen, hsum, hbody, htake, hdrop]
  rw [if_neg (by rw [length_append]; omega), if_neg (by omega),
    if_neg (by rw [length_append, item.length_payload]; omega), if_neg (by simp)]

theorem readFrame_spec {reader rest : Bytes} (h : readFrame crc reader = some (buf, rest)) :
    rest.length < reader.length ∧
      ∀ more, readFrame crc (reader ++ more) = some (buf, rest ++ more) := by
  simp only [readFrame] at h
  split_ifs at h with h₁ h₂ h₃ h₄
  grind [slice, readFrame]

namespace SegmentCursor

variable {crc : Bytes → UInt32} {c c' : SegmentCursor}

theorem advance_eq_some (h : c.advance crc = some c') :
    ∃ buf rest layout, readFrame crc c.reader = some (buf, rest) ∧ parseLayout buf = some layout ∧
      c' = { c with reader := rest, buf, layout } := by
  grind [advance]

theorem length_reader_of_advance (h : c.advance crc = some c') :
    c'.reader.length < c.reader.length := by
  obtain ⟨buf, rest, layout, hframe, -, rfl⟩ := advance_eq_some h
  exact (readFrame_spec hframe).1

theorem seq_of_advance (h : c.advance crc = some c') : c'.seq = c.seq := by
  grind [advance_eq_some]

theorem advance_extend (h : c.advance crc = some c') (bs : Bytes) :
    (c.extend bs).advance crc = some (c'.extend bs) := by
  obtain ⟨buf, rest, layout, hframe, hlayout, rfl⟩ := advance_eq_some h
  simp [advance, (readFrame_spec hframe).2 bs, hlayout, extend]

def after (item : WalItem) (seq : ℕ) (rest : Bytes) : SegmentCursor :=
  { seq, reader := rest, buf := item.payload, layout := item.layout }

variable {item : WalItem}

theorem advance_encode (h : item.Fits) (seq : ℕ) (rest buf : Bytes) (layout : RecordLayout) :
    ({ seq, reader := item.encode crc ++ rest, buf, layout } : SegmentCursor).advance crc
      = some (after item seq rest) := by
  simp [advance, readFrame_encode h.payload, WalItem.parseLayout_payload h.names, after]

theorem record_after (item : WalItem) (uuid : String) (seq : ℕ) (rest : Bytes) :
    (after item seq rest).record uuid = item.toRecord seq := by
  simp only [record, after, WalItem.layout, item.slice_stream, item.slice_id, item.drop_docStart,
    fromUtf8Lossy_utf8]
  rfl

/-! ## Whole passes -/

theorem scanFuel_eq_scan (fuel : ℕ) (c : SegmentCursor) (hfuel : c.reader.length ≤ fuel) :
    scanFuel crc fuel c = c.scan crc := by
  suffices h : ∀ n m (c : SegmentCursor), c.reader.length ≤ n → c.reader.length ≤ m →
      scanFuel crc n c = scanFuel crc m c from h _ _ c hfuel le_rfl
  intro n
  induction n with
  | zero =>
    intro m c hn _
    have hnone : c.advance crc = none := by
      by_contra hsome
      obtain ⟨c', hc'⟩ := Option.ne_none_iff_exists'.mp hsome
      have := length_reader_of_advance hc'
      omega
    cases m <;> simp [scanFuel, hnone]
  | succ n ih =>
    intro m c hn hm
    cases hadv : c.advance crc with
    | none => cases m <;> simp [scanFuel, hadv]
    | some c' =>
      have hlt := length_reader_of_advance hadv
      obtain ⟨m, rfl⟩ : ∃ k, m = k + 1 := ⟨m - 1, by omega⟩
      grind [scanFuel]

theorem scan_of_none (h : c.advance crc = none) : c.scan crc = ([], c) := by
  rw [← scanFuel_eq_scan (c.reader.length + 1) c (by omega)]
  simp [scanFuel, h]

theorem scan_of_some (h : c.advance crc = some c') :
    c.scan crc = (c' :: (c'.scan crc).1, (c'.scan crc).2) := by
  have hlt := length_reader_of_advance h
  rw [← scanFuel_eq_scan (c.reader.length + 1) c (by omega)]
  grind [scanFuel_eq_scan, scanFuel]

theorem scan_induction (crc : Bytes → UInt32) {motive : SegmentCursor → Prop}
    (stop : ∀ c, c.advance crc = none → motive c)
    (step : ∀ c c', c.advance crc = some c' → motive c' → motive c) (c : SegmentCursor) : motive c := by
  induction hn : c.reader.length using Nat.strong_induction_on generalizing c with
  | _ n ih =>
    cases hadv : c.advance crc with
    | none => exact stop c hadv
    | some c' => grind [length_reader_of_advance]

theorem scan_extend (crc : Bytes → UInt32) (c : SegmentCursor) (bs : Bytes) :
    (c.extend bs).scan crc = ((c.scan crc).1.map (·.extend bs) ++ (((c.scan crc).2.extend bs).scan crc).1,
        (((c.scan crc).2.extend bs).scan crc).2) := by
  induction c using scan_induction crc with
  | stop c h => simp [scan_of_none h]
  | step c c' h ih =>
    grind [advance_extend, scan_of_some]

theorem seq_of_scan (crc : Bytes → UInt32) (c : SegmentCursor) : (c.scan crc).2.seq = c.seq := by
  induction c using scan_induction crc with
  | stop c h => rw [scan_of_none h]
  | step c c' h ih => rw [scan_of_some h, ← seq_of_advance h, ← ih]

theorem seq_of_mem_scan {d : SegmentCursor} (h : d ∈ (c.scan crc).1) : d.seq = c.seq := by
  induction c using scan_induction crc with
  | stop c hstop =>
    rw [scan_of_none hstop] at h
    cases h
  | step c c' hadv ih =>
    grind [seq_of_advance, scan_of_some]

theorem scan_encode (h : item.Fits) (seq : ℕ) (rest buf : Bytes) (layout : RecordLayout) :
    ({ seq, reader := item.encode crc ++ rest, buf, layout } : SegmentCursor).scan crc
      = (after item seq rest :: ((after item seq rest).scan crc).1, ((after item seq rest).scan crc).2) :=
  scan_of_some (advance_encode h seq rest buf layout)

theorem scan_of_reader_nil (h : c.reader = []) : c.scan crc = ([], c) :=
  scan_of_none (by simp [advance, readFrame, h])

end SegmentCursor

end RSearch.Wal
