import RSearch.Lib.Outcome
import RSearch.Lib.Runs
import RSearch.Wal.Writer

/-!
# Group commit

Under the writer lock `append_batch` writes the records, clones the descriptor of the current
segment, and takes the sum in `written` as its generation.  Outside the lock it syncs the files it has
sealed, and its last segment by group commit: if `synced` has reached its generation another sync
counts for it; otherwise it takes the gate, reads `written` again, syncs its own descriptor and raises
`synced` to what it read.
-/

namespace RSearch.Wal

open List Bytes Function

/-- What a system call does: it succeeds, a write having taken `n` bytes, or it fails. -/
inductive Outcome where
  | ok (n : ℕ)
  | fail
deriving DecidableEq

def File.syncTo (file : File) (n : ℕ) : File where
  bytes := file.bytes
  durable := max file.durable (min n file.bytes.length)
  durable_le := max_le file.durable_le (Nat.min_le_right ..)

namespace Group

structure Placed where
  item : WalItem
  segment : ℕ
  start : ℕ
deriving DecidableEq

structure Store where
  maxSegmentBytes : ℕ
  inner : WalInner
  file : ℕ → File

open Store

/-- The variables of one call under the lock: the batch, the items not yet written, the records
written, and the segments sealed on the way. -/
structure Batch where
  items : List WalItem
  todo : List WalItem
  placed : List Placed := []
  sealed : List ℕ := []

/-- Where a call stands under the lock.  `start` is the offset at which the record in work begins. -/
inductive Phase where
  /-- The head of the loop over the items. -/
  | head
  /-- `rotate` flushes the buffered writer. -/
  | rotateFlush
  /-- `rotate` seals the segment and opens the next one. -/
  | rotateOpen
  /-- The lengths of the names are checked. -/
  | prepare
  /-- The slices of the record that are still to be written. -/
  | write (start : ℕ) (slices : List Bytes)
  /-- `write_all` of `bs` empties the buffer first. -/
  | makeRoom (start : ℕ) (bs : Bytes) (slices : List Bytes)
  /-- `write_all` of `bs` goes on with room in the buffer. -/
  | place (start : ℕ) (bs : Bytes) (slices : List Bytes)
  /-- `bs` is left of a slice that goes past the buffer. -/
  | direct (start : ℕ) (bs : Bytes) (slices : List Bytes)
  /-- The record is written and is to be counted. -/
  | count (start : ℕ)
  /-- The flush after the last item. -/
  | flush
  /-- The descriptor is cloned and the batch counted. -/
  | clone

/-- What a step under the lock leads to: the call goes on, it returns an error, or it is done and
leaves the lock. -/
inductive Progress where
  | goes (b : Batch) (phase : Phase)
  | fails
  | done (b : Batch)

namespace Store

def content (st : Store) : Bytes :=
  (st.file st.inner.currentSeq).bytes ++ st.inner.buffer

def setFile (st : Store) (g : ℕ) (file : File) : Store :=
  { st with file := Function.update st.file g file }

def extend (st : Store) (bs : Bytes) : Store :=
  st.setFile st.inner.currentSeq ((st.file st.inner.currentSeq).extend bs)

def setBuffer (st : Store) (buffer : Bytes) : Store :=
  { st with inner := { st.inner with buffer } }

def setSegments (st : Store) (segments : Segments) : Store :=
  { st with inner := { st.inner with segments } }

def spill (st : Store) (n : ℕ) : Store :=
  (st.extend (st.inner.buffer.take n)).setBuffer (st.inner.buffer.drop n)

def switchTo (st : Store) (newSeq : ℕ) : Store :=
  { st with inner := { st.inner with
      currentSeq := newSeq, currentLen := 0, buffer := []
      segments := (st.inner.segments.track newSeq).collectConfirmed.2 } }

def addLen (st : Store) (item : WalItem) : Store :=
  { st with inner := { st.inner with currentLen := st.inner.currentLen + 8 + item.payloadLen } }

def addWritten (st : Store) (n : ℕ) : Store :=
  { st with inner := { st.inner with written := st.inner.written + n } }

def confirm (st : Store) (positions : List WalPos) : Store :=
  st.setSegments (positions.foldl Segments.confirmOne st.inner.segments).collectConfirmed.2

def flushTurn (st : Store) (o : Outcome) (b : Batch) (phase next : Phase) :
    Option (Store × Progress) :=
  if st.inner.buffer = [] then
    some (st, .goes b next)
  else
    match o with
    | .ok n =>
      if 0 < n ∧ n ≤ st.inner.buffer.length then some (st.spill n, .goes b phase) else none
    | .fail => some (st, .fails)

def held (crc : Bytes → UInt32) (st : Store) (o : Outcome) (b : Batch) :
    Phase → Option (Store × Progress)
  | .head =>
    match b.todo with
    | [] => some (st, .goes b .flush)
    | _ :: _ =>
      if st.maxSegmentBytes ≤ st.inner.currentLen then some (st, .goes b .rotateFlush)
      else some (st, .goes b .prepare)
  | .rotateFlush => st.flushTurn o b .rotateFlush .rotateOpen
  | .rotateOpen =>
    let sealed := st.setSegments (st.inner.segments.sealSegment st.inner.currentSeq)
    match o with
    | .ok _ =>
      some (sealed.switchTo ((st.inner.currentSeq + 1) % 2 ^ 64),
        .goes { b with sealed := b.sealed ++ [st.inner.currentSeq] } .prepare)
    | .fail => some (sealed, .fails)
  | .prepare =>
    match b.todo with
    | [] => none
    | item :: _ =>
      if item.tooLong then some (st, .fails)
      else some (st, .goes b (.write st.content.length (item.writes crc)))
  | .write start [] => some (st, .goes b (.count start))
  | .write start (bs :: slices) =>
    if bs.length < bufCapacity - st.inner.buffer.length then
      some (st.setBuffer (st.inner.buffer ++ bs), .goes b (.write start slices))
    else if bs.length > bufCapacity - st.inner.buffer.length then
      some (st, .goes b (.makeRoom start bs slices))
    else
      some (st, .goes b (.place start bs slices))
  | .makeRoom start bs slices =>
    st.flushTurn o b (.makeRoom start bs slices) (.place start bs slices)
  | .place start bs slices =>
    if bs.length ≥ bufCapacity then some (st, .goes b (.direct start bs slices))
    else some (st.setBuffer (st.inner.buffer ++ bs), .goes b (.write start slices))
  | .direct start bs slices =>
    if bs = [] then
      some (st, .goes b (.write start slices))
    else
      match o with
      | .ok n =>
        if 0 < n ∧ n ≤ bs.length then
          some (st.extend (bs.take n), .goes b (.direct start (bs.drop n) slices))
        else none
      | .fail => some (st, .fails)
  | .count start =>
    match b.todo with
    | [] => none
    | item :: todo =>
      match st.inner.segments.bump st.inner.currentSeq with
      | none => some (st.addLen item, .fails)
      | some segments =>
        some ((st.addLen item).setSegments segments,
          .goes { b with
            todo, placed := b.placed ++ [⟨item, st.inner.currentSeq, start⟩] } .head)
  | .flush => st.flushTurn o b .flush .clone
  | .clone =>
    match o with
    | .ok _ => some (st.addWritten b.items.length, .done b)
    | .fail => some (st, .fails)

end Store

/-! ## The callers -/

/-- What a call keeps when it leaves the writer lock: its records, the segment of the descriptor it
cloned, and its generation. -/
structure Flushed where
  items : List WalItem
  placed : List Placed
  fd : ℕ
  gen : ℕ

/-- Where a caller stands.  `running` is `some n` between the start of a sync, at which the file
held `n` bytes, and its end. -/
inductive Pc where
  | idle
  /-- Waiting for the writer lock. -/
  | waiting (items : List WalItem)
  /-- Holding the writer lock. -/
  | locked (b : Batch) (phase : Phase)
  /-- Syncing the segments sealed on the way; those in `rest` are left. -/
  | syncSealed (c : Flushed) (rest : List ℕ) (running : Option ℕ)
  /-- Before the first load of `synced`. -/
  | check (c : Flushed)
  /-- Waiting for the gate. -/
  | gate (c : Flushed)
  /-- Holding the gate, before the second load of `synced`. -/
  | recheck (c : Flushed)
  /-- Holding the gate, about to read `written`. -/
  | snapshot (c : Flushed)
  /-- Syncing the cloned descriptor for everything up to `covered`. -/
  | sync (c : Flushed) (covered : ℕ) (running : Option ℕ)
  /-- About to raise `synced` to `covered`. -/
  | publish (c : Flushed) (covered : ℕ)
  /-- Returned, with the records in their places or with an error. -/
  | returned (items : List WalItem) (result : Option (List Placed))

namespace Pc

def flushed? : Pc → Option Flushed
  | syncSealed c _ _ | check c | gate c | recheck c | snapshot c | sync c _ _ | publish c _ => some c
  | _ => none

def acked? : Pc → Option (List WalItem × List Placed)
  | returned items (some placed) => some (items, placed)
  | _ => none

def Holding : Pc → Prop
  | locked _ _ => True
  | _ => False

end Pc

structure State (P : Type) where
  store : Store
  synced : ℕ
  lock : Option P := none
  syncGate : Option P := none
  call : P → Pc := fun _ => .idle

open State

inductive Action (P : Type) where
  /-- `p` calls `append_batch`. -/
  | append (p : P) (items : List WalItem)
  /-- `p` makes its next step; `o` is what a system call in it does. -/
  | tick (p : P) (o : Outcome)
  /-- Somebody confirms records. -/
  | confirm (positions : List WalPos)

variable {P : Type}

namespace State

variable [DecidableEq P]

def setCall (s : State P) (p : P) (pc : Pc) : State P :=
  { s with call := Function.update s.call p pc }

def afterHeld (s : State P) (p : P) (items : List WalItem) (st : Store) : Progress → State P
  | .goes b phase => { s with store := st }.setCall p (.locked b phase)
  | .fails => { s with store := st, lock := none }.setCall p (.returned items none)
  | .done b =>
    { s with store := st, lock := none }.setCall p
      (.syncSealed ⟨b.items, b.placed, st.inner.currentSeq, st.inner.written⟩ b.sealed none)

def tick (crc : Bytes → UInt32) (s : State P) (p : P) (o : Outcome) : Pc → Option (State P)
  | .idle => none
  | .waiting items =>
    if s.lock = none then
      some ({ s with lock := some p }.setCall p (.locked { items, todo := items } .head))
    else none
  | .locked b phase =>
    (s.store.held crc o b phase).map fun r => s.afterHeld p b.items r.1 r.2
  | .syncSealed c [] _ => some (s.setCall p (.check c))
  | .syncSealed c (g :: rest) none =>
    some (s.setCall p (.syncSealed c (g :: rest) (some (s.store.file g).bytes.length)))
  | .syncSealed c (g :: rest) (some n) =>
    match o with
    | .ok _ =>
      some ({ s with store := s.store.setFile g ((s.store.file g).syncTo n) }.setCall p
        (.syncSealed c rest none))
    | .fail => some (s.setCall p (.returned c.items none))
  | .check c =>
    if s.synced < c.gen then some (s.setCall p (.gate c))
    else some (s.setCall p (.returned c.items (some c.placed)))
  | .gate c =>
    if s.syncGate = none then some ({ s with syncGate := some p }.setCall p (.recheck c)) else none
  | .recheck c =>
    if s.synced < c.gen then some (s.setCall p (.snapshot c))
    else some ({ s with syncGate := none }.setCall p (.returned c.items (some c.placed)))
  | .snapshot c =>
    if s.lock = none then some (s.setCall p (.sync c s.store.inner.written none)) else none
  | .sync c covered none =>
    some (s.setCall p (.sync c covered (some (s.store.file c.fd).bytes.length)))
  | .sync c covered (some n) =>
    match o with
    | .ok _ =>
      some ({ s with store := s.store.setFile c.fd ((s.store.file c.fd).syncTo n) }.setCall p
        (.publish c covered))
    | .fail => some ({ s with syncGate := none }.setCall p (.returned c.items none))
  | .publish c covered =>
    some ({ s with synced := max s.synced covered, syncGate := none }.setCall p
      (.returned c.items (some c.placed)))
  | .returned _ _ => none

def step (crc : Bytes → UInt32) (s : State P) : Action P → Option (State P)
  | .append p items =>
    match s.call p with
    | .idle | .returned _ _ => some (s.setCall p (.waiting items))
    | _ => none
  | .tick p o => s.tick crc p o (s.call p)
  | .confirm positions =>
    if s.lock = none then some { s with store := s.store.confirm positions } else none

end State

/-! ## Records in files -/

section Facts

variable (crc : Bytes → UInt32)

/-- The record lies, whole and where it was put, in the first `n` bytes of its segment's file. -/
def Within (st : Store) (r : Placed) (n : ℕ) : Prop :=
  r.item.encode crc <+: ((st.file r.segment).bytes.take n).drop r.start

def Put (st : Store) (r : Placed) : Prop :=
  Within crc st r (st.file r.segment).bytes.length

/-- **The record is on disk**: it lies in the bytes of its segment's file that a completed sync of
that file, started after they were flushed, has covered. -/
def OnDisk (st : Store) (r : Placed) : Prop :=
  Within crc st r (st.file r.segment).durable

instance (st : Store) (r : Placed) (n : ℕ) : Decidable (Within crc st r n) :=
  inferInstanceAs (Decidable (_ <+: _))

instance (st : Store) (r : Placed) : Decidable (OnDisk crc st r) :=
  inferInstanceAs (Decidable (_ <+: _))

structure Store.Grows (st st' : Store) : Prop where
  bytes : ∀ g, (st.file g).bytes <+: (st'.file g).bytes
  durable : ∀ g, (st.file g).durable ≤ (st'.file g).durable
  written : st.inner.written ≤ st'.inner.written

variable {crc} {st st' : Store} {r : Placed}

namespace Store.Grows

theorem refl (st : Store) : st.Grows st :=
  ⟨fun _ => prefix_rfl, fun _ => le_rfl, le_rfl⟩

theorem of_file (hfile : st'.file = st.file) (hwritten : st.inner.written ≤ st'.inner.written) :
    st.Grows st' := by
  refine ⟨fun g => ?_, fun g => ?_, hwritten⟩ <;> rw [hfile]

theorem setFile {g : ℕ} {file : File} (hbytes : (st.file g).bytes <+: file.bytes)
    (hdurable : (st.file g).durable ≤ file.durable) : st.Grows (st.setFile g file) := by
  refine ⟨fun h => ?_, fun h => ?_, le_rfl⟩
  · rcases eq_or_ne h g with rfl | hne
    · simpa [Store.setFile] using hbytes
    · simp [Store.setFile, hne]
  · rcases eq_or_ne h g with rfl | hne
    · simpa [Store.setFile] using hdurable
    · simp [Store.setFile, hne]

theorem extend (st : Store) (bs : Bytes) : st.Grows (st.extend bs) :=
  setFile (prefix_append ..) le_rfl

theorem setBuffer (st : Store) (buffer : Bytes) : st.Grows (st.setBuffer buffer) :=
  of_file rfl le_rfl

theorem spill (st : Store) (n : ℕ) : st.Grows (st.spill n) :=
  ⟨(extend st _).bytes, (extend st _).durable, le_rfl⟩

theorem syncTo (st : Store) (g n : ℕ) : st.Grows (st.setFile g ((st.file g).syncTo n)) :=
  setFile prefix_rfl (le_max_left ..)

end Store.Grows

theorem Within.mono {n n' : ℕ} (h : Within crc st r n) (hgrows : st.Grows st') (hle : n ≤ n') :
    Within crc st' r n' := by
  have htake : (st.file r.segment).bytes.take n <+: (st'.file r.segment).bytes.take n' :=
    (take_prefix_take_left hle).trans ((hgrows.bytes r.segment).take n')
  exact h.trans (htake.drop r.start)

theorem Put.mono (h : Put crc st r) (hgrows : st.Grows st') : Put crc st' r :=
  Within.mono h hgrows (hgrows.bytes r.segment).length_le

theorem OnDisk.mono (h : OnDisk crc st r) (hgrows : st.Grows st') : OnDisk crc st' r :=
  Within.mono h hgrows (hgrows.durable r.segment)

theorem put_iff : Put crc st r ↔ r.item.encode crc <+: (st.file r.segment).bytes.drop r.start := by
  rw [Put, Within, take_length]

theorem onDisk_syncTo {n : ℕ} (h : Within crc st r n) :
    OnDisk crc (st.setFile r.segment ((st.file r.segment).syncTo n)) r := by
  have hcut : Within crc st r (min n (st.file r.segment).bytes.length) := by
    grind [Within]
  have hgrows := Grows.syncTo st r.segment n
  refine Within.mono hcut hgrows ?_
  simp [setFile, File.syncTo]

end Facts

/-! ## Under the writer lock -/

section Locked

variable (crc : Bytes → UInt32)

/-- The record of the first item to do has been written from `start` on, up to `rest`. -/
def Writing (st : Store) (b : Batch) (start : ℕ) (rest : Bytes) : Prop :=
  ∃ item todo before done, b.todo = item :: todo ∧ st.content = before ++ done ∧
    before.length = start ∧ done ++ rest = item.encode crc

def PhaseOk (st : Store) (b : Batch) : Phase → Prop
  | .head | .rotateFlush | .prepare => True
  | .rotateOpen => st.inner.buffer = []
  | .write start slices => Writing crc st b start slices.flatten
  | .makeRoom start bs slices => Writing crc st b start (bs ++ slices.flatten)
  | .place start bs slices =>
    Writing crc st b start (bs ++ slices.flatten) ∧
      (bufCapacity ≤ bs.length → st.inner.buffer = [])
  | .direct start bs slices =>
    Writing crc st b start (bs ++ slices.flatten) ∧ st.inner.buffer = []
  | .count start => Writing crc st b start []
  | .flush => b.todo = []
  | .clone => b.todo = [] ∧ st.inner.buffer = []

def InCurrent (st : Store) (r : Placed) : Prop :=
  r.segment = st.inner.currentSeq ∧ r.item.encode crc <+: st.content.drop r.start

/-- **The invariant under the lock.**  The records written so far are whole, those of the segments
sealed on the way are flushed, and the others are in the current segment. -/
structure Held (st : Store) (b : Batch) (phase : Phase) : Prop where
  items : b.placed.map (·.item) ++ b.todo = b.items
  placed : ∀ r ∈ b.placed, InCurrent crc st r ∨ r.segment ∈ b.sealed ∧ Put crc st r
  phase : PhaseOk crc st b phase

def ProgressOk (st : Store) : Progress → Prop
  | .goes b phase => Held crc st b phase
  | .fails => True
  | .done b =>
    b.placed.map (·.item) = b.items ∧
      ∀ r ∈ b.placed, Put crc st r ∧ (r.segment = st.inner.currentSeq ∨ r.segment ∈ b.sealed)

variable {crc} {st st' : Store} {b : Batch} {phase : Phase} {o : Outcome}

theorem Store.content_of_buffer_nil (h : st.inner.buffer = []) :
    st.content = (st.file st.inner.currentSeq).bytes := by
  rw [content, h, append_nil]

theorem Store.content_setBuffer (st : Store) (bs : Bytes) :
    (st.setBuffer (st.inner.buffer ++ bs)).content = st.content ++ bs :=
  (append_assoc ..).symm

theorem Store.content_spill (st : Store) (n : ℕ) : (st.spill n).content = st.content := by
  simp [content, spill, extend, setFile, setBuffer, File.extend]

theorem Store.content_extend (h : st.inner.buffer = []) (bs : Bytes) :
    (st.extend bs).content = st.content ++ bs := by
  simp [content, extend, setFile, File.extend, h]

theorem Writing.grow {start : ℕ} {bs rest : Bytes} (h : Writing crc st b start (bs ++ rest))
    (hcontent : st'.content = st.content ++ bs) : Writing crc st' b start rest := by
  obtain ⟨item, todo, before, done, htodo, hsplit, hlen, henc⟩ := h
  refine ⟨item, todo, before, done ++ bs, htodo, ?_, hlen, by rw [append_assoc, henc]⟩
  rw [hcontent, hsplit, append_assoc]

theorem Writing.congr {start : ℕ} {rest : Bytes} (h : Writing crc st b start rest)
    (hcontent : st'.content = st.content) : Writing crc st' b start rest := by
  rw [← nil_append rest] at h
  exact h.grow (by rw [hcontent, append_nil])

namespace Held

variable {phase' : Phase} {pr : Progress} {bs : Bytes} {slices : List Bytes}

theorem goes (h : Held crc st b phase) (hgrows : st.Grows st')
    (hseq : st'.inner.currentSeq = st.inner.currentSeq) (hcontent : st.content <+: st'.content)
    (hphase : PhaseOk crc st' b phase') : Held crc st' b phase' := by
  refine ⟨h.items, fun r hr => ?_, hphase⟩
  rcases h.placed r hr with ⟨hcur, hin⟩ | ⟨hsealed, hput⟩
  · exact .inl ⟨hcur.trans hseq.symm, hin.trans (hcontent.drop r.start)⟩
  · exact .inr ⟨hsealed, hput.mono hgrows⟩

theorem goesOn (h : Held crc st b phase) (hphase : PhaseOk crc st b phase') : Held crc st b phase' :=
  h.goes (.refl st) rfl prefix_rfl hphase

theorem flushTurn (h : Held crc st b phase) (next : Phase) (hstay : ∀ n, PhaseOk crc (st.spill n) b phase)
    (hnext : st.inner.buffer = [] → PhaseOk crc st b next)
    (hstep : st.flushTurn o b phase next = some (st', pr)) : st.Grows st' ∧ ProgressOk crc st' pr := by
  unfold Store.flushTurn at hstep
  split_ifs at hstep with hempty
  · cases hstep
    exact ⟨.refl st, h.goesOn (hnext hempty)⟩
  · split at hstep
    · next n =>
        split_ifs at hstep
        cases hstep
        exact ⟨.spill st n, h.goes (.spill st n) rfl (by rw [Store.content_spill]) (hstay n)⟩
    · cases hstep
      exact ⟨.refl st, trivial⟩

theorem put (h : Held crc st b phase) (hempty : st.inner.buffer = []) {r : Placed} (hr : r ∈ b.placed) :
    Put crc st r ∧ (r.segment = st.inner.currentSeq ∨ r.segment ∈ b.sealed) := by
  rcases h.placed r hr with ⟨hcur, hin⟩ | ⟨hsealed, hput⟩
  · grind [content_of_buffer_nil, put_iff]
  · exact ⟨hput, .inr hsealed⟩

theorem rotateOpen (h : Held crc st b .rotateOpen)
    (hstep : st.held crc o b .rotateOpen = some (st', pr)) : st.Grows st' ∧ ProgressOk crc st' pr := by
  cases o with
  | fail =>
    cases hstep
    exact ⟨.of_file rfl le_rfl, trivial⟩
  | ok n =>
    cases hstep
    refine ⟨.of_file rfl le_rfl, h.items, fun r hr => Or.inr ?_, trivial⟩
    obtain ⟨hput, hseg⟩ := h.put h.phase hr
    refine ⟨?_, hput.mono (.of_file rfl le_rfl)⟩
    grind

theorem setBuffer (h : Held crc st b phase) {start : ℕ}
    (hphase : Writing crc st b start (bs ++ slices.flatten)) :
    Held crc (st.setBuffer (st.inner.buffer ++ bs)) b (.write start slices) := by
  have hcontent := content_setBuffer st bs
  refine h.goes (.setBuffer st (st.inner.buffer ++ bs)) rfl ?_ (hphase.grow hcontent)
  rw [hcontent]
  exact prefix_append ..

theorem write {start : ℕ} (h : Held crc st b (.write start slices))
    (hstep : st.held crc o b (.write start slices) = some (st', pr)) :
    st.Grows st' ∧ ProgressOk crc st' pr := by
  cases slices with
  | nil =>
    cases hstep
    exact ⟨.refl st, h.goesOn h.phase⟩
  | cons bs slices =>
    simp only [held] at hstep
    have hphase : Writing crc st b start (bs ++ slices.flatten) := h.phase
    split_ifs at hstep with hfits hlarge
    · cases hstep
      exact ⟨.setBuffer st _, h.setBuffer hphase⟩
    · cases hstep
      exact ⟨.refl st, h.goesOn hphase⟩
    · cases hstep
      refine ⟨.refl st, h.goesOn ⟨hphase, fun hcap => ?_⟩⟩
      -- the slice is as large as the room that is left, so all of the buffer is room
      have hcapacity : bufCapacity = 8192 := rfl
      exact length_eq_zero_iff.mp (by omega)

theorem place {start : ℕ} (h : Held crc st b (.place start bs slices))
    (hstep : st.held crc o b (.place start bs slices) = some (st', pr)) :
    st.Grows st' ∧ ProgressOk crc st' pr := by
  obtain ⟨hphase, hempty⟩ := h.phase
  simp only [held] at hstep
  split_ifs at hstep with hlarge
  · cases hstep
    exact ⟨.refl st, h.goesOn ⟨hphase, hempty hlarge⟩⟩
  · cases hstep
    exact ⟨.setBuffer st _, h.setBuffer hphase⟩

theorem direct {start : ℕ} (h : Held crc st b (.direct start bs slices))
    (hstep : st.held crc o b (.direct start bs slices) = some (st', pr)) :
    st.Grows st' ∧ ProgressOk crc st' pr := by
  obtain ⟨hphase, hempty⟩ := h.phase
  simp only [held] at hstep
  split_ifs at hstep with hnil
  · cases hstep
    rw [hnil] at hphase
    exact ⟨.refl st, h.goesOn hphase⟩
  · split at hstep
    · next n =>
        split_ifs at hstep
        cases hstep
        have hcontent := content_extend hempty (bs.take n)
        have hrest : Writing crc st b start (bs.take n ++ (bs.drop n ++ slices.flatten)) := by
          rwa [← append_assoc, take_append_drop]
        refine ⟨.extend st _, h.goes (.extend st _) rfl ?_ ⟨hrest.grow hcontent, hempty⟩⟩
        grind
    · cases hstep
      exact ⟨.refl st, trivial⟩

theorem count {start : ℕ} (h : Held crc st b (.count start)) {pr : Progress}
    (hstep : st.held crc o b (.count start) = some (st', pr)) :
    st.Grows st' ∧ ProgressOk crc st' pr := by
  obtain ⟨item, todo, before, done, htodo, hcontent, hlen, henc⟩ :
    Writing crc st b start [] := h.phase
  simp only [held, htodo] at hstep
  split at hstep
  · cases hstep
    exact ⟨.of_file rfl le_rfl, trivial⟩
  · cases hstep
    refine ⟨.of_file rfl le_rfl, ?_, fun r hr => ?_, trivial⟩
    · grind [items]
    · rcases mem_append.mp hr with hr | hr
      · exact h.placed r hr
      · rw [mem_singleton] at hr
        subst hr
        refine .inl ⟨rfl, ?_⟩
        show item.encode crc <+: st.content.drop start
        grind

theorem step (h : Held crc st b phase) (hstep : st.held crc o b phase = some (st', pr)) :
    st.Grows st' ∧ ProgressOk crc st' pr := by
  cases phase with
  | head =>
    simp only [held] at hstep
    split at hstep
    · next htodo =>
        cases hstep
        exact ⟨.refl st, h.goesOn htodo⟩
    · split_ifs at hstep <;> cases hstep <;> exact ⟨.refl st, h.goesOn trivial⟩
  | rotateFlush => exact h.flushTurn .rotateOpen (fun _ => trivial) id hstep
  | rotateOpen => exact h.rotateOpen hstep
  | prepare =>
    simp only [held] at hstep
    split at hstep
    · cases hstep
    · next item todo htodo =>
        split_ifs at hstep
        · cases hstep
          exact ⟨.refl st, trivial⟩
        · cases hstep
          exact ⟨.refl st, h.goesOn ⟨item, todo, st.content, [], htodo, (append_nil _).symm, rfl, rfl⟩⟩
  | write start slices => exact h.write hstep
  | makeRoom start bs slices =>
    have hphase : Writing crc st b start (bs ++ slices.flatten) := h.phase
    refine h.flushTurn (.place start bs slices) (fun n => ?_) (fun hempty => ?_) hstep
    · exact hphase.congr (content_spill st n)
    · exact ⟨hphase, fun _ => hempty⟩
  | place start bs slices => exact h.place hstep
  | direct start bs slices => exact h.direct hstep
  | count start => exact h.count hstep
  | flush =>
    have htodo : b.todo = [] := h.phase
    refine h.flushTurn .clone (fun _ => htodo) (fun hempty => ?_) hstep
    exact ⟨htodo, hempty⟩
  | clone =>
    obtain ⟨htodo, hempty⟩ := h.phase
    cases o with
    | fail =>
      cases hstep
      exact ⟨.refl st, trivial⟩
    | ok n =>
      cases hstep
      refine ⟨.of_file rfl (Nat.le_add_right ..), ?_, fun r hr => ?_⟩
      · grind [items]
      · exact h.put hempty hr

end Held

end Locked

/-! ## All callers -/

section Callers

variable (crc : Bytes → UInt32)

/-- What holds of a call between the writer lock and its return: its records are flushed, and once
`synced` has reached its generation those of its last segment are on disk. -/
structure FlushedOk (s : State P) (c : Flushed) : Prop where
  items : c.placed.map (·.item) = c.items
  gen_le : c.gen ≤ s.store.inner.written
  put : ∀ r ∈ c.placed, Put crc s.store r
  settled : c.gen ≤ s.synced → ∀ r ∈ c.placed, r.segment = c.fd → OnDisk crc s.store r

def OnlyLastLeft (st : Store) (c : Flushed) : Prop :=
  ∀ r ∈ c.placed, r.segment = c.fd ∨ OnDisk crc st r

def PcOk (s : State P) : Pc → Prop
  | .idle | .waiting _ | .returned _ none => True
  | .locked b phase => Held crc s.store b phase
  | .syncSealed c rest running =>
    FlushedOk crc s c ∧
      (∀ r ∈ c.placed, r.segment = c.fd ∨ r.segment ∈ rest ∨ OnDisk crc s.store r) ∧
      ∀ n ∈ running, ∀ r ∈ c.placed, rest.head? = some r.segment → Within crc s.store r n
  | .check c | .gate c | .recheck c | .snapshot c =>
    FlushedOk crc s c ∧ OnlyLastLeft crc s.store c
  | .sync c covered _ | .publish c covered =>
    FlushedOk crc s c ∧ OnlyLastLeft crc s.store c ∧ c.gen ≤ covered
  | .returned items (some placed) =>
    placed.map (·.item) = items ∧ ∀ r ∈ placed, OnDisk crc s.store r

/-- What a leader knows of the calls up to `covered`: the records of their last segments are on
disk, or its own sync is about to cover them. -/
def LeaderOk (s : State P) : Pc → Prop
  | .sync c covered running =>
    covered ≤ s.store.inner.written ∧
      ∀ q, ∀ f ∈ (s.call q).flushed?, f.gen ≤ covered → ∀ r ∈ f.placed, r.segment = f.fd →
        OnDisk crc s.store r ∨ f.fd = c.fd ∧ ∀ n ∈ running, Within crc s.store r n
  | .publish _ covered =>
    covered ≤ s.store.inner.written ∧
      ∀ q, ∀ f ∈ (s.call q).flushed?, f.gen ≤ covered → ∀ r ∈ f.placed, r.segment = f.fd →
        OnDisk crc s.store r
  | _ => True

/-- **The invariant of all callers.** -/
structure Inv (s : State P) : Prop where
  exclusive : ∀ p, (s.call p).Holding → s.lock = some p
  pc : ∀ p, PcOk crc s (s.call p)
  leader : ∀ p, LeaderOk crc s (s.call p)
  synced_le : s.synced ≤ s.store.inner.written

variable {crc} {s s' : State P} {c : Flushed} {pc : Pc}

variable {st st' : Store}

theorem Held.congr {b : Batch} {phase : Phase} (h : Held crc st b phase) (hgrows : st.Grows st')
    (hinner : st'.inner = st.inner) (hbytes : ∀ g, (st'.file g).bytes = (st.file g).bytes) :
    Held crc st' b phase := by
  have hcontent : st'.content = st.content := by
    grind [content]
  refine h.goes hgrows (by rw [hinner]) (by rw [hcontent]) ?_
  have hphase := h.phase
  cases phase <;> simp only [PhaseOk, hinner] at hphase ⊢ <;> try exact hphase
  case write => exact hphase.congr hcontent
  case makeRoom => exact hphase.congr hcontent
  case place => exact ⟨hphase.1.congr hcontent, hphase.2⟩
  case direct => exact ⟨hphase.1.congr hcontent, hphase.2⟩
  case count => exact hphase.congr hcontent

theorem FlushedOk.mono (h : FlushedOk crc s c) (hgrows : s.store.Grows s'.store)
    (hsettled : c.gen ≤ s'.synced → ∀ r ∈ c.placed, r.segment = c.fd → OnDisk crc s'.store r) :
    FlushedOk crc s' c :=
  ⟨h.items, h.gen_le.trans hgrows.written, fun r hr => (h.put r hr).mono hgrows, hsettled⟩

theorem OnlyLastLeft.mono (h : OnlyLastLeft crc st c) (hgrows : st.Grows st') :
    OnlyLastLeft crc st' c :=
  fun r hr => (h r hr).imp_right fun hdisk => hdisk.mono hgrows

theorem PcOk.mono (h : PcOk crc s pc) (hpc : ¬ pc.Holding) (hgrows : s.store.Grows s'.store)
    (hsettled : ∀ f ∈ pc.flushed?, f.gen ≤ s'.synced → ∀ r ∈ f.placed, r.segment = f.fd →
      OnDisk crc s'.store r) : PcOk crc s' pc := by
  cases pc with
  | idle | waiting items => trivial
  | locked b phase => exact absurd trivial hpc
  | syncSealed c rest running =>
    obtain ⟨hok, hleft, hrunning⟩ := h
    refine ⟨hok.mono hgrows (hsettled c rfl), fun r hr => ?_, fun n hn r hr hhead => ?_⟩
    · exact (hleft r hr).imp_right fun h => h.imp_right fun hdisk => hdisk.mono hgrows
    · exact (hrunning n hn r hr hhead).mono hgrows le_rfl
  | check c | gate c | recheck c | snapshot c =>
    exact ⟨h.1.mono hgrows (hsettled c rfl), h.2.mono hgrows⟩
  | sync c covered running | publish c covered =>
    exact ⟨h.1.mono hgrows (hsettled c rfl), h.2.1.mono hgrows, h.2.2⟩
  | returned items result =>
    cases result with
    | none => trivial
    | some placed => exact ⟨h.1, fun r hr => (h.2 r hr).mono hgrows⟩

theorem LeaderOk.mono (h : LeaderOk crc s pc) (hgrows : s.store.Grows s'.store)
    (hcalls : ∀ q, ∀ f ∈ (s'.call q).flushed?, (∃ q', f ∈ (s.call q').flushed?) ∨ f.placed = [] ∨
      s.store.inner.written < f.gen) : LeaderOk crc s' pc := by
  cases pc with
  | sync c covered running =>
    obtain ⟨hle, hknown⟩ := h
    refine ⟨hle.trans hgrows.written, fun q f hf hgen r hr hfd => ?_⟩
    rcases hcalls q f hf with ⟨q', hf'⟩ | hempty | hlater
    · rcases hknown q' f hf' hgen r hr hfd with hdisk | ⟨hsame, hwithin⟩
      · exact .inl (hdisk.mono hgrows)
      · exact .inr ⟨hsame, fun n hn => (hwithin n hn).mono hgrows le_rfl⟩
    · rw [hempty] at hr
      cases hr
    · omega
  | publish c covered =>
    obtain ⟨hle, hknown⟩ := h
    refine ⟨hle.trans hgrows.written, fun q f hf hgen r hr hfd => ?_⟩
    rcases hcalls q f hf with ⟨q', hf'⟩ | hempty | hlater
    · exact (hknown q' f hf' hgen r hr hfd).mono hgrows
    · rw [hempty] at hr
      cases hr
    · omega
  | _ => trivial

namespace Inv

theorem flushedOk (h : Inv crc s) {q : P} {f : Flushed} (hf : f ∈ (s.call q).flushed?) :
    FlushedOk crc s f := by
  have hq := h.pc q
  cases hpc : s.call q <;> rw [hpc] at hf hq <;> cases hf <;> exact hq.1

theorem returns (h : Inv crc s) {p : P} {c : Flushed} (hc : c ∈ (s.call p).flushed?)
    (hlast : OnlyLastLeft crc s.store c) (hgen : ¬ s.synced < c.gen) :
    PcOk crc s (.returned c.items (some c.placed)) := by
  have hok := h.flushedOk hc
  refine ⟨hok.items, fun r hr => ?_⟩
  rcases hlast r hr with hfd | hdisk
  · exact hok.settled (Nat.le_of_not_lt hgen) r hr hfd
  · exact hdisk

theorem move (h : Inv crc s) (p : P) (hcall : ∀ q, q ≠ p → s'.call q = s.call q)
    (hgrows : s.store.Grows s'.store) (hlock : ∀ q, q ≠ p → (s.call q).Holding → s'.lock = s.lock ∧
      s'.store.inner = s.store.inner ∧ ∀ g, (s'.store.file g).bytes = (s.store.file g).bytes)
    (hself : (s'.call p).Holding → s'.lock = some p)
    (hflushed : ∀ f ∈ (s'.call p).flushed?, f ∈ (s.call p).flushed? ∨ f.placed = [] ∨
      s.store.inner.written < f.gen)
    (hsettled : ∀ q, ∀ f ∈ (s.call q).flushed?, f.gen ≤ s'.synced → ∀ r ∈ f.placed,
      r.segment = f.fd → OnDisk crc s'.store r) (hpc : PcOk crc s' (s'.call p))
    (hleader : LeaderOk crc s' (s'.call p)) (hsynced : s'.synced ≤ s'.store.inner.written) :
    Inv crc s' := by
  have hcalls : ∀ q, ∀ f ∈ (s'.call q).flushed?, (∃ q', f ∈ (s.call q').flushed?) ∨
      f.placed = [] ∨ s.store.inner.written < f.gen := by
    intro q f hf
    rcases eq_or_ne q p with rfl | hne
    · grind
    · exact .inl ⟨q, hcall q hne ▸ hf⟩
  refine ⟨fun q hq => ?_, fun q => ?_, fun q => ?_, hsynced⟩
  · rcases eq_or_ne q p with rfl | hne
    · exact hself hq
    · rw [hcall q hne] at hq
      exact (hlock q hne hq).1.trans (h.exclusive q hq)
  · rcases eq_or_ne q p with rfl | hne
    · exact hpc
    · have hq := h.pc q
      rw [hcall q hne]
      by_cases hholding : (s.call q).Holding
      · obtain ⟨-, hinner, hbytes⟩ := hlock q hne hholding
        cases hpcq : s.call q <;> rw [hpcq] at hholding hq <;> try cases hholding
        exact Held.congr hq hgrows hinner hbytes
      · exact hq.mono hholding hgrows (hsettled q)
  · rcases eq_or_ne q p with rfl | hne
    · exact hleader
    · rw [hcall q hne]
      exact (h.leader q).mono hgrows hcalls

end Inv

end Callers

/-! ## Every step keeps the invariant -/

section Steps

variable [DecidableEq P] {crc : Bytes → UInt32} {s s' : State P} {p : P} {o : Outcome}

@[simp] theorem State.setCall_call_self (s : State P) (p : P) (pc : Pc) :
    (s.setCall p pc).call p = pc :=
  update_self ..

theorem State.setCall_call_of_ne (s : State P) {p q : P} (hne : q ≠ p) (pc : Pc) :
    (s.setCall p pc).call q = s.call q :=
  update_of_ne hne ..

theorem State.mem_flushed_setCall {pc : Pc} {q : P} {f : Flushed}
    (hf : f ∈ ((s.setCall p pc).call q).flushed?) (hpc : ∀ f ∈ pc.flushed?, f ∈ (s.call p).flushed?) :
    f ∈ (s.call q).flushed? := by
  rcases eq_or_ne q p with rfl | hne
  · grind [setCall_call_self]
  · rwa [setCall_call_of_ne _ hne] at hf

/-- What a leader has to find when it reads `written`: the records of the calls under way that went
to another segment than its own are on disk. -/
def LeaderFinds (crc : Bytes → UInt32) (s : State P) : Pc → Prop
  | .snapshot c =>
    ∀ q, ∀ f ∈ (s.call q).flushed?, f.fd = c.fd ∨ ∀ r ∈ f.placed, r.segment = f.fd →
      OnDisk crc s.store r
  | _ => True

def OthersOnDisk (crc : Bytes → UInt32) (s : State P) : Action P → Prop
  | .tick p _ => LeaderFinds crc s (s.call p)
  | _ => True

instance decidableLeaderFinds [Fintype P] (s : State P) (pc : Pc) :
    Decidable (LeaderFinds crc s pc) := by
  cases pc <;> unfold LeaderFinds <;> infer_instance

instance decidableOthersOnDisk [Fintype P] (s : State P) (a : Action P) :
    Decidable (OthersOnDisk crc s a) := by
  cases a <;> unfold OthersOnDisk <;> infer_instance

theorem Store.bytes_syncTo (st : Store) (g n h : ℕ) :
    ((st.setFile g ((st.file g).syncTo n)).file h).bytes = (st.file h).bytes := by
  rcases eq_or_ne h g with rfl | hne
  · simp [setFile, File.syncTo]
  · simp [setFile, hne]

namespace Inv

variable {pc : Pc} {phase : Phase} {c : Flushed} {running : Option ℕ} {covered : ℕ}

theorem moveOutside (h : Inv crc s) (hgrows : s.store.Grows s'.store)
    (hcall : s'.call = Function.update s.call p pc) (hlock : s'.lock = s.lock)
    (hinner : s'.store.inner = s.store.inner)
    (hbytes : ∀ g, (s'.store.file g).bytes = (s.store.file g).bytes) (hsynced : s'.synced = s.synced)
    (hholding : ¬ pc.Holding) (hflushed : ∀ f ∈ pc.flushed?, f ∈ (s.call p).flushed?)
    (hpc : PcOk crc s' pc) (hleader : LeaderOk crc s' pc) : Inv crc s' := by
  have hself : s'.call p = pc := by rw [hcall, update_self]
  refine h.move p (fun q hne => by rw [hcall, update_of_ne hne]) hgrows
    (fun q _ _ => ⟨hlock, hinner, hbytes⟩) (fun hp => ?_) (fun f hf => ?_) (fun q f hf hgen r hr hfd => ?_)
    (hself ▸ hpc) (hself ▸ hleader) ?_
  · grind
  · grind
  · exact ((h.flushedOk hf).settled (hsynced ▸ hgen) r hr hfd).mono hgrows
  · grind [synced_le]

theorem moveOn (h : Inv crc s) (hstore : s'.store = s.store)
    (hcall : s'.call = Function.update s.call p pc) (hlock : s'.lock = s.lock)
    (hsynced : s'.synced = s.synced) (hholding : ¬ pc.Holding)
    (hflushed : ∀ f ∈ pc.flushed?, f ∈ (s.call p).flushed?) (hpc : PcOk crc s pc)
    (hleader : LeaderOk crc s' pc) : Inv crc s' := by
  have hgrows : s.store.Grows s'.store := hstore ▸ .refl s.store
  refine h.moveOutside hgrows hcall hlock (by rw [hstore]) (fun g => by rw [hstore]) hsynced
    hholding hflushed (hpc.mono hholding hgrows fun f hf hgen r hr hfd => ?_) hleader
  exact ((h.flushedOk (hflushed f hf)).settled (hsynced ▸ hgen) r hr hfd).mono hgrows

theorem lock (h : Inv crc s) (hfree : s.lock = none) (items : List WalItem) :
    Inv crc ({ s with lock := some p }.setCall p (.locked { items, todo := items } .head)) := by
  refine h.move p (fun q hne => setCall_call_of_ne _ hne _) (.refl _) (fun q _ hq => ?_)
    (fun _ => rfl) (fun f hf => ?_) (fun q f hf => (h.flushedOk hf).settled) ?_ ?_ h.synced_le
  · cases hfree.symm.trans (h.exclusive q hq)
  · rw [setCall_call_self] at hf
    cases hf
  · rw [setCall_call_self]
    exact ⟨rfl, fun r hr => (not_mem_nil hr).elim, trivial⟩
  · rw [setCall_call_self]
    trivial

theorem written_of_done {st st' : Store} {b b' : Batch}
    (hstep : st.held crc o b phase = some (st', .done b')) :
    st'.inner.written = st.inner.written + b'.items.length := by
  cases phase with
  | clone =>
    cases o with
    | ok n => cases hstep; rfl
    | fail => cases hstep
  | write start slices =>
    cases slices with
    | nil => cases hstep
    | cons bs slices =>
      grind [held]
  | _ =>
    simp only [held, flushTurn] at hstep
    repeat' (split at hstep)
    all_goals cases hstep

theorem moveHolder (h : Inv crc s) (hmine : s.lock = some p) (hgrows : s.store.Grows s'.store)
    (hcall : s'.call = Function.update s.call p pc) (hsynced : s'.synced = s.synced)
    (hholding : pc.Holding → s'.lock = some p)
    (hflushed : ∀ f ∈ pc.flushed?, f.placed = [] ∨ s.store.inner.written < f.gen) (hpc : PcOk crc s' pc)
    (hleader : LeaderOk crc s' pc) : Inv crc s' := by
  have hself : s'.call p = pc := by rw [hcall, update_self]
  refine h.move p (fun q hne => by rw [hcall, update_of_ne hne]) hgrows (fun q hne hq => ?_)
    (hself ▸ hholding) (fun f hf => ?_) (fun q f hf hgen r hr hfd => ?_) (hself ▸ hpc)
    (hself ▸ hleader) ?_
  · exact absurd (Option.some.inj ((h.exclusive q hq).symm.trans hmine)) hne
  · grind
  · exact ((h.flushedOk hf).settled (hsynced ▸ hgen) r hr hfd).mono hgrows
  · rw [hsynced]
    exact h.synced_le.trans hgrows.written

theorem held (h : Inv crc s) {b : Batch} (hp : s.call p = .locked b phase) {st : Store} {pr : Progress}
    (hstep : s.store.held crc o b phase = some (st, pr)) : Inv crc (s.afterHeld p b.items st pr) := by
  have hheld : Held crc s.store b phase := by
    have := h.pc p
    rwa [hp] at this
  have hmine : s.lock = some p := h.exclusive p (by rw [hp]; trivial)
  obtain ⟨hgrows, hpr⟩ := hheld.step hstep
  cases pr with
  | goes b' phase' =>
    exact h.moveHolder hmine hgrows rfl rfl (fun _ => hmine) (fun f hf => by cases hf) hpr trivial
  | fails =>
    exact h.moveHolder hmine hgrows rfl rfl (fun hq => by cases hq) (fun f hf => by cases hf) trivial
      trivial
  | done b' =>
    obtain ⟨hitems, hplaced⟩ := hpr
    have hwritten := written_of_done hstep
    -- a batch with records has raised `written`, so its generation is new
    have hnew : b'.placed = [] ∨ s.store.inner.written < st.inner.written := by
      rcases b'.placed.eq_nil_or_concat with hnil | ⟨rs, r, hrs⟩
      · exact .inl hnil
      · grind
    refine h.moveHolder hmine hgrows rfl rfl (fun hq => by cases hq) (fun f hf => ?_) ?_ trivial
    · cases hf
      exact hnew
    · refine ⟨⟨hitems, le_rfl, fun r hr => (hplaced r hr).1, fun hgen r hr hfd => ?_⟩,
        fun r hr => (hplaced r hr).2.imp_right Or.inl, fun n hn => by cases hn⟩
      rcases hnew with hnil | hlt
      · grind
      · have hle : st.inner.written ≤ s.synced := hgen
        have := h.synced_le
        omega

theorem syncSealed (h : Inv crc s) {rest : List ℕ} (hp : s.call p = .syncSealed c rest running)
    (hstep : s.tick crc p o (.syncSealed c rest running) = some s') : Inv crc s' := by
  have hsub : ∀ f ∈ some c, f ∈ (s.call p).flushed? := fun f hf => by rwa [hp]
  obtain ⟨hok, hleft, hrunning⟩ : PcOk crc s (.syncSealed c rest running) := hp ▸ h.pc p
  cases rest with
  | nil =>
    cases hstep
    refine h.moveOn rfl rfl rfl rfl id hsub ⟨hok, fun r hr => ?_⟩ trivial
    grind
  | cons g rest =>
    cases running with
    | none =>
      cases hstep
      refine h.moveOn rfl rfl rfl rfl id hsub ⟨hok, hleft, fun n hn r hr hhead => ?_⟩ trivial
      cases hn
      cases hhead
      exact hok.put r hr
    | some n =>
      cases o with
      | fail =>
        cases hstep
        exact h.moveOn rfl rfl rfl rfl id (fun f hf => by cases hf) trivial trivial
      | ok k =>
        cases hstep
        have hgrows := Grows.syncTo s.store g n
        refine h.moveOutside hgrows rfl rfl rfl (bytes_syncTo s.store g n) rfl id hsub
          ⟨hok.mono hgrows fun hgen r hr hfd => (hok.settled hgen r hr hfd).mono hgrows,
            fun r hr => ?_, fun n hn => by cases hn⟩ trivial
        rcases hleft r hr with hfd | hrest | hdisk
        · exact .inl hfd
        · rcases mem_cons.mp hrest with rfl | hlater
          · exact .inr (.inr (onDisk_syncTo (hrunning n rfl r hr rfl)))
          · exact .inr (.inl hlater)
        · exact .inr (.inr (hdisk.mono hgrows))

theorem snapshot (h : Inv crc s) (hp : s.call p = .snapshot c) (hcond : OthersOnDisk crc s (.tick p o)) :
    Inv crc (s.setCall p (.sync c s.store.inner.written none)) := by
  have hsub : ∀ f ∈ some c, f ∈ (s.call p).flushed? := fun f hf => by rwa [hp]
  obtain ⟨hok, hlast⟩ : PcOk crc s (.snapshot c) := hp ▸ h.pc p
  simp only [OthersOnDisk, hp, LeaderFinds] at hcond
  refine h.moveOn rfl rfl rfl rfl id hsub ⟨hok, hlast, hok.gen_le⟩ ⟨le_rfl, fun q f hf hgen r hr hfd => ?_⟩
  rcases hcond q f (mem_flushed_setCall hf hsub) with hsame | hdisk
  · grind
  · exact .inl (hdisk r hr hfd)

theorem sync (h : Inv crc s) (hp : s.call p = .sync c covered running)
    (hstep : s.tick crc p o (.sync c covered running) = some s') : Inv crc s' := by
  have hsub : ∀ f ∈ some c, f ∈ (s.call p).flushed? := fun f hf => by rwa [hp]
  obtain ⟨hok, hlast, hgen⟩ : PcOk crc s (.sync c covered running) := hp ▸ h.pc p
  obtain ⟨hcovered, hknown⟩ : LeaderOk crc s (.sync c covered running) := hp ▸ h.leader p
  cases running with
  | none =>
    cases hstep
    refine h.moveOn rfl rfl rfl rfl id hsub ⟨hok, hlast, hgen⟩ ⟨hcovered, fun q f hf hle r hr hfd => ?_⟩
    have hf' := mem_flushed_setCall hf hsub
    rcases hknown q f hf' hle r hr hfd with hdisk | ⟨hsame, -⟩
    · exact .inl hdisk
    · refine .inr ⟨hsame, fun n hn => ?_⟩
      cases hn
      rw [← hsame, ← hfd]
      exact (h.flushedOk hf').put r hr
  | some n =>
    cases o with
    | fail =>
      cases hstep
      exact h.moveOn rfl rfl rfl rfl id (fun f hf => by cases hf) trivial trivial
    | ok k =>
      cases hstep
      have hgrows := Grows.syncTo s.store c.fd n
      refine h.moveOutside hgrows rfl rfl rfl (bytes_syncTo s.store c.fd n) rfl id hsub
        ⟨hok.mono hgrows fun hle r hr hfd => (hok.settled hle r hr hfd).mono hgrows,
          hlast.mono hgrows, hgen⟩ ⟨hcovered, fun q f hf hle r hr hfd => ?_⟩
      have hf' : f ∈ (s.call q).flushed? := mem_flushed_setCall hf hsub
      rcases hknown q f hf' hle r hr hfd with hdisk | ⟨hsame, hwithin⟩
      · exact hdisk.mono hgrows
      · have := onDisk_syncTo (hwithin n rfl)
        rwa [hfd, hsame] at this

theorem publish (h : Inv crc s) (hp : s.call p = .publish c covered) :
    Inv crc ({ s with synced := max s.synced covered, syncGate := none }.setCall p
      (.returned c.items (some c.placed))) := by
  have hmem : c ∈ (s.call p).flushed? := by rw [hp]; rfl
  obtain ⟨hok, hlast, hgen⟩ : PcOk crc s (.publish c covered) := hp ▸ h.pc p
  obtain ⟨hcovered, hknown⟩ : LeaderOk crc s (.publish c covered) := hp ▸ h.leader p
  refine h.move p (fun q hne => setCall_call_of_ne _ hne _) (.refl _)
    (fun q _ _ => ⟨rfl, rfl, fun _ => rfl⟩) (fun hq => ?_) (fun f hf => ?_)
    (fun q f hf hle r hr hfd => ?_) ?_ ?_ (max_le h.synced_le hcovered)
  · rw [setCall_call_self] at hq
    cases hq
  · rw [setCall_call_self] at hf
    cases hf
  · rcases le_max_iff.mp hle with hle | hle
    · exact (h.flushedOk hf).settled hle r hr hfd
    · exact hknown q f hf hle r hr hfd
  · rw [setCall_call_self]
    refine ⟨hok.items, fun r hr => ?_⟩
    rcases hlast r hr with hfd | hdisk
    · exact hknown p c hmem hgen r hr hfd
    · exact hdisk
  · rw [setCall_call_self]
    trivial

theorem step (h : Inv crc s) {a : Action P} (hcond : OthersOnDisk crc s a)
    (hstep : s.step crc a = some s') : Inv crc s' := by
  cases a with
  | append p items =>
    simp only [State.step] at hstep
    split at hstep <;> cases hstep
    all_goals exact h.moveOn rfl rfl rfl rfl id (fun f hf => by cases hf) trivial trivial
  | confirm positions =>
    simp only [State.step] at hstep
    split_ifs at hstep with hfree
    cases hstep
    refine ⟨h.exclusive, fun q => ?_, fun q => (h.leader q).mono (.of_file rfl le_rfl) ?_, h.synced_le⟩
    · refine (h.pc q).mono (fun hq => ?_) (.of_file rfl le_rfl) fun f hf => (h.flushedOk hf).settled
      cases hfree.symm.trans (h.exclusive q hq)
    · exact fun q f hf => .inl ⟨q, hf⟩
  | tick p o =>
    simp only [State.step] at hstep
    have hpc := h.pc p
    cases hp : s.call p with
    | idle | returned items result => rw [hp] at hstep; cases hstep
    | waiting items =>
      rw [hp] at hstep
      simp only [State.tick] at hstep
      split_ifs at hstep with hfree
      cases hstep
      exact h.lock hfree items
    | locked b phase =>
      rw [hp] at hstep
      obtain ⟨⟨st, pr⟩, hheld, rfl⟩ := Option.map_eq_some_iff.mp hstep
      exact h.held hp hheld
    | syncSealed c rest running =>
      rw [hp] at hstep
      exact h.syncSealed hp hstep
    | check c | recheck c =>
      rw [hp] at hstep hpc
      have hsub : ∀ f ∈ some c, f ∈ (s.call p).flushed? := fun f hf => by rwa [hp]
      simp only [State.tick] at hstep
      split_ifs at hstep with hgen <;> cases hstep
      · exact h.moveOn rfl rfl rfl rfl id hsub hpc trivial
      · exact h.moveOn rfl rfl rfl rfl id (fun f hf => by cases hf)
          (h.returns (hsub c rfl) hpc.2 hgen) trivial
    | gate c =>
      rw [hp] at hstep hpc
      simp only [State.tick] at hstep
      split_ifs at hstep with hfree
      cases hstep
      exact h.moveOn rfl rfl rfl rfl id (fun f hf => by rwa [hp]) hpc trivial
    | snapshot c =>
      rw [hp] at hstep
      simp only [State.tick] at hstep
      split_ifs at hstep with hfree
      cases hstep
      exact h.snapshot hp hcond
    | sync c covered running =>
      rw [hp] at hstep
      exact h.sync hp hstep
    | publish c covered =>
      rw [hp] at hstep
      cases hstep
      exact h.publish hp

end Inv

end Steps

/-! ## What a return acknowledges -/

def State.start (w : World) : State P where
  store :=
    { maxSegmentBytes := w.maxSegmentBytes
      inner := w.inner
      file := fun g => (w.fileAt g).getD .empty }
  synced := w.synced

def AllOnDisk (crc : Bytes → UInt32) (s : State P) : Prop :=
  ∀ p, ∀ batch ∈ (s.call p).acked?,
    batch.2.map (·.item) = batch.1 ∧ ∀ r ∈ batch.2, OnDisk crc s.store r

instance decidableAllOnDisk [Fintype P] (crc : Bytes → UInt32) (s : State P) :
    Decidable (AllOnDisk crc s) := by
  unfold AllOnDisk
  infer_instance

variable {crc : Bytes → UInt32}

theorem Inv.start {dir : Dir} {max : ℕ} {w : World} {r : WalReplay}
    (hopen : openWal crc dir max = .ok (w, r)) : Inv crc (start w : State P) := by
  obtain ⟨segments, -, rfl, -⟩ := openWal_eq_ok hopen
  exact ⟨fun _ hp => hp.elim, fun _ => trivial, fun _ => trivial, le_rfl⟩

theorem Inv.allOnDisk {s : State P} (h : Inv crc s) : AllOnDisk crc s := by
  intro p batch hbatch
  have hp := h.pc p
  cases hpc : s.call p with
  | returned items result =>
    rw [hpc] at hbatch hp
    cases result with
    | none => cases hbatch
    | some placed =>
      cases hbatch
      exact hp
  | _ =>
    rw [hpc] at hbatch
    cases hbatch

/-- **Acknowledged records are on disk**, in every run in which each leader, when it reads
`written`, finds the records of the calls under way in other segments on disk. -/
theorem acknowledged_onDisk [DecidableEq P] {crc : Bytes → UInt32} {dir : Dir} {max : ℕ} {w : World}
    {r : WalReplay} (hopen : openWal crc dir max = .ok (w, r)) {as : List (Action P)} {s : State P}
    (hrun : Runs.run (State.step crc) (State.start w) as = some s)
    (hothers : Runs.Along (State.step crc) (OthersOnDisk crc) (State.start w) as) :
    AllOnDisk crc s := by
  have hinv : Inv crc s :=
    Runs.run_invariant (State.step crc) (fun _ _ _ hs hcond hstep => hs.step hcond hstep)
      (Inv.start hopen) hothers hrun
  exact hinv.allOnDisk

/-! ## Two calls -/

/-- The callers are numbered. -/
local instance twoCallers : NeZero 2 := ⟨by decide⟩

/-- `n` steps of a caller in which every system call succeeds.  The records below have 23 bytes, and
each flush takes all of them. -/
def ticks (p : Fin 2) (n : ℕ) : List (Action (Fin 2)) :=
  List.replicate n (.tick p (.ok 23))

def firstItem : WalItem := ⟨"s", "a", 1, false, "x"⟩

def secondItem : WalItem := ⟨"s", "b", 2, false, "y"⟩

def coalesced : List (Action (Fin 2)) :=
  .append 0 [firstItem] :: ticks 0 21 ++ .append 1 [secondItem] :: ticks 1 18 ++ ticks 0 4 ++ ticks 1 1

/-- The second call returns without a sync of its own, and its record is on disk. -/
theorem acknowledged_onDisk_coalesced :
    ∃ w r s, openWal crc32 ∅ 64 = .ok (w, r) ∧
      Runs.run (State.step crc32) (State.start w) coalesced = some s ∧ AllOnDisk crc32 s ∧
      (s.call 1).acked? = some ([secondItem], [⟨secondItem, 0, 23⟩]) := by
  obtain ⟨⟨w, r⟩, hopen, hothers, s, hrun, hacked⟩ : ∃ o, openWal crc32 ∅ 64 = .ok o ∧
      Runs.Along (State.step crc32) (OthersOnDisk crc32) (State.start o.1) coalesced ∧
      ∃ s, Runs.run (State.step crc32) (State.start o.1) coalesced = some s ∧
        (s.call 1).acked? = some ([secondItem], [⟨secondItem, 0, 23⟩]) := by
    decide +kernel
  exact ⟨w, r, s, hopen, hrun, acknowledged_onDisk hopen hrun hothers, hacked⟩

/-- The second call rotates between the first one's batch and the first one's reading of `written`. -/
def rotatedBetween : List (Action (Fin 2)) :=
  .append 0 [firstItem] :: ticks 0 21 ++ .append 1 [secondItem] :: ticks 1 22 ++ ticks 0 4 ++ ticks 1 1

/-- **A rotation makes a call skip its sync.**  The leader reads `written = 2`, syncs segment 0 and
raises `synced` to 2; the second call, whose record is in segment 1, takes that for its own sync. -/
theorem rotation_skips_sync :
    ¬ ∀ (dir : Dir) (max : ℕ) (w : World) (r : WalReplay) (as : List (Action (Fin 2)))
      (s : State (Fin 2)), openWal crc32 dir max = .ok (w, r) →
      Runs.run (State.step crc32) (State.start w) as = some s → AllOnDisk crc32 s := by
  intro hclaim
  obtain ⟨⟨w, r⟩, hopen, s, hrun, hbad⟩ : ∃ o, openWal crc32 ∅ 1 = .ok o ∧
      ∃ s, Runs.run (State.step crc32) (State.start o.1) rotatedBetween = some s ∧
        ¬AllOnDisk crc32 s := by
    decide +kernel
  exact hbad (hclaim _ _ w r _ s hopen hrun)

end Group

end RSearch.Wal
