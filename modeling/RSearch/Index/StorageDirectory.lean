import RSearch.Lib.Runs
import RSearch.Index.SplitCache

/-!
# Reading through the block cache

A bundled file of a split is read in blocks.  A read looks each block up in the cache, claims those that
are missing, fetches what it could claim with ranged requests to the storage, waits until the others are
not claimed any more, and looks again, until it has all blocks.  Contiguous blocks share requests; a read
that continues the one before fetches some blocks ahead, which it has *not* claimed.

`step` is one node with any number of reads at once, in any interleaving of their steps: every lookup,
file operation, request, answer, insertion and release is a step of its own.  Requests fail or answer too
little, files vanish or cannot be read, written or removed.

## Main results

* `flatMap_blocks_plan` — without blocks ahead, the requests are for the claimed blocks, each once.
* `assemble_eq` — the blocks of a range make up the range.
* `inv_step` — one step keeps the invariant: what is cached, on its way or already in a read's hands is
  right, and no block is claimed twice.
* `block_cache_coherent` — **in every run, a read that succeeds returns the object's bytes of its range,
  every cached block holds the object's bytes at its offset, and without blocks ahead at most one request
  for a block is on its way**.
-/

namespace RSearch.StorageDirectory

open RSearch.Bundle (FileSpan getRange)
open Blocks (slice)
open SplitCache

/-! ### Planning the requests -/

/-- A range of block indices. -/
structure Run where
  start : ℕ
  stop : ℕ
  deriving DecidableEq, Repr

/-- The blocks of a range. -/
def Run.blocks (run : Run) : List ℕ := List.range' run.start (run.stop - run.start)

/-- Largest single ranged storage request. -/
def fetchChunkBytes : ℕ := 8388608

/-- Concurrent ranged requests per read. -/
def fetchConcurrency : ℕ := 8

/-- An index is added to the last run, or starts a new one. -/
def addIndex (runs : List Run) (i : ℕ) : List Run :=
  match runs.getLast? with
  | some run =>
      if run.stop = i then runs.dropLast ++ [⟨run.start, run.stop + 1⟩] else runs ++ [⟨i, i + 1⟩]
  | none => runs ++ [⟨i, i + 1⟩]

/-- The last run is extended, up to the end of the file. -/
def extendLast (readahead totalBlocks : ℕ) (runs : List Run) : List Run :=
  match runs.getLast? with
  | some run => runs.dropLast ++ [⟨run.start, min (run.stop + readahead) totalBlocks⟩]
  | none => runs

/-- A run cut into requests. -/
def chunks (chunkBlocks : ℕ) (run : Run) : List Run :=
  (List.range ((run.stop - run.start + chunkBlocks - 1) / chunkBlocks)).map fun k =>
    ⟨run.start + k * chunkBlocks, min (run.start + k * chunkBlocks + chunkBlocks) run.stop⟩

/-- **The requests for the claimed blocks.** -/
def plan (len blockSize readahead : ℕ) (indices : List ℕ) : List Run :=
  let totalBlocks := (len + blockSize - 1) / blockSize
  let chunkBlocks := max (fetchChunkBytes / blockSize) 1
  (extendLast readahead totalBlocks (indices.foldl addIndex [])).flatMap (chunks chunkBlocks)

/-! ### Reads -/

/-- The file of a handle, and how many blocks its directory fetches ahead. -/
structure Handle where
  file : String
  readaheadBlocks : ℕ

/-- The cache, and the handles. -/
structure Directories extends Setup where
  handle : ℕ → Handle

inductive ReadError where
  | invalidInput (message : String)
  | other
  | unexpectedEof (message : String)
  /-- A block that is not there is unwrapped. -/
  | panicked
  deriving DecidableEq, Repr

/-- A ranged request, and its answer. -/
structure Request where
  run : Run
  data : Option Bytes := none
  deriving DecidableEq, Repr

/-- Where a lookup on disk stands. -/
inductive Lookup where
  | touch
  | file
  | promote (data : Bytes)
  | forget
  | unlink
  deriving DecidableEq, Repr

/-- Where the storing of a block stands. -/
inductive Store where
  | register
  | unlink (victims : List BlockKey)
  | memory
  deriving DecidableEq, Repr

/-- Where a read stands.  A pass scans the blocks that are not there yet; what it claims is `mine`, what
others are fetching `theirs`, what it fetched `out`. -/
inductive Phase where
  | scan (todo missing : List ℕ)
  | get (index : ℕ) (lookup : Lookup) (todo missing : List ℕ)
  | claim (missing : List ℕ)
  | fetch (mine theirs : List ℕ) (requests : List Request) (issued : ℕ)
  | put (mine theirs : List ℕ) (out todo : List (ℕ × Bytes))
  | store (index : ℕ) (data : Bytes) (stage : Store) (mine theirs : List ℕ) (out todo : List (ℕ × Bytes))
  | release (mine theirs : List ℕ)
  | abandon (mine : List ℕ) (error : ReadError)
  | wait (theirs : List ℕ)
  | done (result : Except ReadError Bytes)
  deriving DecidableEq, Repr

/-- A read of a range. -/
structure Read where
  handle : ℕ
  start : ℕ
  stop : ℕ
  readahead : ℕ
  blocks : List (Option Bytes)
  phase : Phase

variable (D : Directories)

namespace Read

/-- The key of the file. -/
def fileKey (read : Read) : String := (D.handle read.handle).file

def file (read : Read) : File := D.file (read.fileKey D)

def first (read : Read) : ℕ := read.start / D.blockSize

def last (read : Read) : ℕ := (read.stop - 1) / D.blockSize

/-- The indices of the blocks that are not there. -/
def unfilled (read : Read) : List ℕ :=
  (List.range read.blocks.length).filterMap fun k =>
    if read.blocks[k]? = some none then some (read.first D + k) else none

/-- The next pass. -/
def nextPass (read : Read) : Read := { read with phase := .scan (read.unfilled D) [] }

/-- A block is there, if it is one of the range. -/
def fill (read : Read) (block : ℕ × Bytes) : Read :=
  if read.first D ≤ block.1 ∧ block.1 ≤ read.last D then
    { read with blocks := read.blocks.set (block.1 - read.first D) (some block.2) }
  else read

/-- The bytes of the range, from its blocks. -/
def assemble (read : Read) (blocks : List Bytes) : Bytes :=
  match blocks with
  | [only] =>
      let startInFirst := read.start - read.first D * D.blockSize
      slice startInFirst (startInFirst + (read.stop - read.start)) only
  | blocks => blocks.zipIdx.flatMap fun (block, offset) =>
      let blockStart := (read.first D + offset) * D.blockSize
      slice (read.start - blockStart) (min (read.stop - blockStart) block.length) block

end Read

/-- The read continues the one before: the same or the next block. -/
def continuesSequentialRead (node : Node) (handle first : ℕ) : Bool :=
  match node.lastBlock handle with
  | none => false
  | some last => decide (first = last) || decide (first = last + 1)

/-- **A read begins.** -/
def openRead (node : Node) (handle start stop : ℕ) : Read :=
  let name := (D.file (D.handle handle).file).name
  let len := (D.file (D.handle handle).file).span.len
  if start > stop ∨ stop > len then
    ⟨handle, start, stop, 0, [], .done (.error (.invalidInput
      s!"read {start}..{stop} past the end of {name} ({len} bytes)"))⟩
  else if start = stop then ⟨handle, start, stop, 0, [], .done (.ok [])⟩
  else
    let first := start / D.blockSize
    let last := (stop - 1) / D.blockSize
    let readahead := (D.handle handle).readaheadBlocks
    let ahead := if 0 < readahead ∧ continuesSequentialRead node handle first = true then readahead else 0
    Read.nextPass D ⟨handle, start, stop, ahead, List.replicate (last - first + 1) none, .scan [] []⟩

/-- The range of the object that a request asks for, in the file. -/
def requestBounds (read : Read) (run : Run) : ℕ × ℕ :=
  (run.start * D.blockSize, min (run.stop * D.blockSize) (read.file D).span.len)

/-- The blocks of an answer, with their indices. -/
def pieces (blockSize start : ℕ) (data : Bytes) : List (ℕ × Bytes) :=
  (List.range ((data.length + blockSize - 1) / blockSize)).map fun k =>
    (start + k, Blocks.block blockSize k data)

/-- The blocks of all answers, once they are there. -/
def collect (requests : List Request) : Option (List (ℕ × Bytes)) :=
  (requests.mapM fun q : Request => q.data.map (pieces D.blockSize q.run.start)).map List.flatten

/-- A pass is over: the read is, too, if no block is missing. -/
def endPass (node : Node) (read : Read) : List ℕ → Node × Read
  | [] =>
      let node := { node with lastBlock := Function.update node.lastBlock read.handle (some (read.last D)) }
      match read.blocks.mapM id with
      | some blocks => (node, { read with phase := .done (.ok (read.assemble D blocks)) })
      | none => (node, { read with phase := .done (.error .panicked) })
  | missing => (node, { read with phase := .claim missing })

/-- **A step of `get_block` on disk.** -/
def advanceGet (node : Node) (read : Read) (index : ℕ) (todo missing : List ℕ) : Lookup → Node × Read
  | .touch =>
      if node.Holds (read.fileKey D, index) then
        (node.touch (read.fileKey D, index), { read with phase := .get index .file todo missing })
      else (node, { read with phase := .scan todo (missing ++ [index]) })
  | .file =>
      match node.disk (blockRelativePath (read.fileKey D, index)) with
      | some data =>
          if data.length = blockLen (read.file D).span.len D.blockSize index then
            (node, { read with phase := .get index (.promote data) todo missing })
          else (node, { read with phase := .get index .forget todo missing })
      | none => (node, { read with phase := .get index .forget todo missing })
  | .promote data =>
      (node.insertMemory D.toSetup (read.fileKey D, index) data,
        { read.fill D (index, data) with phase := .scan todo missing })
  | .forget =>
      (node.forget (read.fileKey D, index), { read with phase := .get index .unlink todo missing })
  | .unlink =>
      (node.unlink (read.fileKey D, index), { read with phase := .scan todo (missing ++ [index]) })

/-- **A step of `put_block`** after the file. -/
def advanceStore (node : Node) (read : Read) (index : ℕ) (data : Bytes) (mine theirs : List ℕ)
    (out todo : List (ℕ × Bytes)) : Store → Node × Read
  | .register =>
      match D.diskBytes with
      | some budget =>
          let (node, victims) := node.register budget (read.fileKey D, index) data.length
          (node, { read with phase := .store index data (.unlink victims) mine theirs out todo })
      | none => (node, { read with phase := .store index data .memory mine theirs out todo })
  | .unlink [] => (node, { read with phase := .store index data .memory mine theirs out todo })
  | .unlink (victim :: victims) =>
      (node.unlink victim, { read with phase := .store index data (.unlink victims) mine theirs out todo })
  | .memory =>
      (node.insertMemory D.toSetup (read.fileKey D, index) data,
        { read with phase := .put mine theirs out todo })

/-- **The next step of a read**, where nothing fails. -/
def advance (node : Node) (read : Read) : Option (Node × Read) :=
  match read.phase with
  | .scan [] missing => some (endPass D node read missing)
  | .scan (index :: todo) missing =>
      match node.getMemory D.toSetup (read.fileKey D, index) with
      | some data =>
          some (node.touchMemory D.toSetup (read.fileKey D, index),
            { read.fill D (index, data) with phase := .scan todo missing })
      | none =>
          match D.diskBytes with
          | some _ => some (node, { read with phase := .get index .touch todo missing })
          | none => some (node, { read with phase := .scan todo (missing ++ [index]) })
  | .get index lookup todo missing => some (advanceGet D node read index todo missing lookup)
  | .claim missing =>
      let (mine, theirs, inflight) := claim (read.fileKey D) missing node.inflight
      let node := { node with inflight }
      if mine = [] then some (node, { read with phase := .release mine theirs })
      else
        let requests := plan (read.file D).span.len D.blockSize read.readahead mine
        some (node, { read with phase := .fetch mine theirs (requests.map fun run => ⟨run, none⟩) 0 })
  | .fetch mine theirs requests _ =>
      (collect D requests).map fun out => (node, { read with phase := .put mine theirs out out })
  | .put mine theirs out [] =>
      some (node, { out.foldl (Read.fill D) read with phase := .release mine theirs })
  | .put mine theirs out ((index, data) :: todo) =>
      match D.diskBytes with
      | some _ =>
          some (node.writeFile (read.fileKey D, index) data,
            { read with phase := .store index data .register mine theirs out todo })
      | none => some (node, { read with phase := .store index data .memory mine theirs out todo })
  | .store index data stage mine theirs out todo =>
      some (advanceStore D node read index data mine theirs out todo stage)
  | .release mine theirs =>
      let node := { node with inflight := release (read.fileKey D) mine node.inflight }
      some (node, if theirs = [] then read.nextPass D else { read with phase := .wait theirs })
  | .abandon mine error =>
      some ({ node with inflight := release (read.fileKey D) mine node.inflight },
        { read with phase := .done (.error error) })
  | .wait theirs =>
      if ∃ index ∈ theirs, node.Claimed (read.fileKey D, index) then none
      else some (node, read.nextPass D)
  | .done _ => none

/-- The file operation of the next step fails: a file cannot be read, written or removed. -/
def fail (node : Node) (read : Read) : Option (Node × Read) :=
  match read.phase with
  | .get index .file todo missing => some (node, { read with phase := .get index .forget todo missing })
  | .get index .unlink todo missing => some (node, { read with phase := .scan todo (missing ++ [index]) })
  | .put mine theirs out ((index, data) :: todo) =>
      D.diskBytes.map fun _ => (node, { read with phase := .store index data .memory mine theirs out todo })
  | .store index data (.unlink (_ :: victims)) mine theirs out todo =>
      some (node, { read with phase := .store index data (.unlink victims) mine theirs out todo })
  | _ => none

/-- The next request is sent, if there are not too many before it that are not collected. -/
def issue (read : Read) : Option Read :=
  match read.phase with
  | .fetch mine theirs requests issued =>
      if issued < requests.length ∧
          issued < (requests.takeWhile (·.data.isSome)).length + fetchConcurrency then
        some { read with phase := .fetch mine theirs requests (issued + 1) }
      else none
  | _ => none

/-- What a storage may answer: what has the length that was asked for is the object's. -/
def MayAnswer (read : Read) (run : Run) (data : Bytes) : Prop :=
  data.length = (requestBounds D read run).2 - (requestBounds D read run).1 →
    data = (read.file D).objectBytes (requestBounds D read run).1 (requestBounds D read run).2

instance (read : Read) (run : Run) (data : Bytes) : Decidable (MayAnswer D read run data) :=
  inferInstanceAs (Decidable (_ → _))

/-- A request is answered.  An answer that is too short is an error. -/
def answer (read : Read) (i : ℕ) (data : Bytes) : Option Read :=
  match read.phase with
  | .fetch mine theirs requests issued =>
      match requests[i]? with
      | some ⟨run, none⟩ =>
          if i < issued ∧ MayAnswer D read run data then
            let asked := (requestBounds D read run).2 - (requestBounds D read run).1
            if data.length ≠ asked then
              let key := (read.file D).key
              let name := (read.file D).name
              let got := data.length
              some { read with phase := .abandon mine (.unexpectedEof
                s!"{key}: short read of {name} ({got} of {asked} bytes)") }
            else some { read with
              phase := .fetch mine theirs (requests.set i ⟨run, some data⟩) issued }
          else none
      | _ => none
  | _ => none

/-- A request fails, and with it the read. -/
def refuse (read : Read) (i : ℕ) : Option Read :=
  match read.phase with
  | .fetch mine _ requests issued =>
      if i < issued ∧ (requests[i]?.bind Request.data).isNone then
        some { read with phase := .abandon mine .other }
      else none
  | _ => none

/-! ### The machine -/

structure State where
  node : Node
  reads : ℕ → Option Read

/-- What a read does next, and how that ends. -/
inductive Move where
  | advance
  | fail
  | issue
  | answer (i : ℕ) (data : Bytes)
  | refuse (i : ℕ)

inductive Action where
  | begin (r handle start stop : ℕ)
  | move (r : ℕ) (m : Move)
  /-- A file is lost. -/
  | vanish (path : String)

def move (node : Node) (read : Read) : Move → Option (Node × Read)
  | .advance => advance D node read
  | .fail => fail D node read
  | .issue => (issue read).map (node, ·)
  | .answer i data => (answer D read i data).map (node, ·)
  | .refuse i => (refuse read i).map (node, ·)

/-- **One step of the node.** -/
def step (s : State) : Action → Option State
  | .begin r handle start stop =>
      if s.reads r = none then
        some { s with reads := Function.update s.reads r (some (openRead D s.node handle start stop)) }
      else none
  | .move r m => do
      let read ← s.reads r
      let (node, read) ← move D s.node read m
      return ⟨node, Function.update s.reads r (some read)⟩
  | .vanish path =>
      some { s with node := { s.node with disk := Function.update s.node.disk path none } }

/-! ### What is requested -/

section Plan

theorem length_blocks (run : Run) : run.blocks.length = run.stop - run.start :=
  List.length_range'

theorem mem_blocks {run : Run} {i : ℕ} : i ∈ run.blocks ↔ run.start ≤ i ∧ i < run.stop := by
  rw [Run.blocks, List.mem_range'_1]
  omega

theorem blocks_single (i : ℕ) : (⟨i, i + 1⟩ : Run).blocks = [i] := by
  simp [Run.blocks]

theorem blocks_extended {run : Run} (h : run.start < run.stop) :
    (⟨run.start, run.stop + 1⟩ : Run).blocks = run.blocks ++ [run.stop] := by
  have hcount : run.stop + 1 - run.start = run.stop - run.start + 1 := by omega
  rw [Run.blocks, hcount, List.range'_concat, Nat.one_mul, Nat.add_sub_cancel' h.le]
  rfl

/-- The runs are of the indices that were added, and none is empty. -/
theorem addIndex_spec {runs : List Run} (hruns : ∀ run ∈ runs, run.start < run.stop) (i : ℕ) :
    (addIndex runs i).flatMap Run.blocks = runs.flatMap Run.blocks ++ [i] ∧
      ∀ run ∈ addIndex runs i, run.start < run.stop := by
  have hnew : (runs ++ [(⟨i, i + 1⟩ : Run)]).flatMap Run.blocks = runs.flatMap Run.blocks ++ [i] ∧
      ∀ run ∈ runs ++ [⟨i, i + 1⟩], run.start < run.stop := by
    grind [blocks_single]
  rcases List.eq_nil_or_concat' runs with rfl | ⟨before, run, rfl⟩
  · exact hnew
  · rw [addIndex, List.getLast?_concat]
    dsimp only
    split_ifs with hadjacent
    · subst hadjacent
      have hlt := hruns run (List.mem_append_right before (List.mem_singleton_self run))
      rw [List.dropLast_concat]
      refine ⟨by simp [blocks_extended hlt], fun run' hrun' => ?_⟩
      rcases List.mem_append.mp hrun' with hrun' | hrun'
      · grind
      · grind
    · exact hnew

theorem foldl_addIndex_spec (indices : List ℕ) {runs : List Run}
    (hruns : ∀ run ∈ runs, run.start < run.stop) :
    (indices.foldl addIndex runs).flatMap Run.blocks = runs.flatMap Run.blocks ++ indices ∧
      ∀ run ∈ indices.foldl addIndex runs, run.start < run.stop := by
  induction indices generalizing runs with
  | nil => simpa using hruns
  | cons i indices ih =>
      obtain ⟨hblocks, hnonempty⟩ := addIndex_spec hruns i
      obtain ⟨hrest, hall⟩ := ih hnonempty
      grind

/-- Without blocks ahead, runs inside the file stay as they are. -/
theorem extendLast_zero {totalBlocks : ℕ} {runs : List Run} (h : ∀ run ∈ runs, run.stop ≤ totalBlocks) :
    extendLast 0 totalBlocks runs = runs := by
  rcases List.eq_nil_or_concat' runs with rfl | ⟨before, run, rfl⟩
  · rfl
  · have hle := h run (List.mem_append_right before (List.mem_singleton_self run))
    rw [extendLast, List.getLast?_concat]
    dsimp only
    rw [List.dropLast_concat, Nat.add_zero, min_eq_left hle]

/-- The requests of a run are for its blocks. -/
theorem flatMap_blocks_chunks {chunkBlocks : ℕ} (h : 0 < chunkBlocks) (run : Run) :
    (chunks chunkBlocks run).flatMap Run.blocks = run.blocks := by
  have hblock : ∀ k, Blocks.block chunkBlocks k run.blocks =
      (⟨run.start + k * chunkBlocks, min (run.start + k * chunkBlocks + chunkBlocks) run.stop⟩ : Run).blocks
      := by
    intro k
    rw [Blocks.block, Run.blocks, Blocks.slice_range', Run.blocks, Nat.succ_mul]
    dsimp only
    congr 1
    omega
  have hwhole := Blocks.flatMap_block (l := run.blocks) h
  rw [length_blocks] at hwhole
  rw [chunks, List.flatMap_map]
  simpa only [hblock] using hwhole

/-- **Without blocks ahead, the requests are for the claimed blocks, each once.** -/
theorem flatMap_blocks_plan {len blockSize : ℕ} {indices : List ℕ}
    (hindices : ∀ i ∈ indices, i < (len + blockSize - 1) / blockSize) :
    (plan len blockSize 0 indices).flatMap Run.blocks = indices := by
  obtain ⟨hblocks, hnonempty⟩ : (indices.foldl addIndex []).flatMap Run.blocks = indices ∧
      ∀ run ∈ indices.foldl addIndex [], run.start < run.stop :=
    foldl_addIndex_spec indices nofun
  have hinside : ∀ run ∈ indices.foldl addIndex [], run.stop ≤ (len + blockSize - 1) / blockSize := by
    intro run hrun
    have hlt := hnonempty run hrun
    have hlast : run.stop - 1 ∈ indices := by
      grind [mem_blocks]
    have := hindices _ hlast
    omega
  have hcut : ∀ run, (chunks (max (fetchChunkBytes / blockSize) 1) run).flatMap Run.blocks = run.blocks :=
    flatMap_blocks_chunks (by omega)
  rw [plan, extendLast_zero hinside, List.flatMap_assoc]
  simp only [hcut]
  exact hblocks

end Plan

/-! ### What a read returns -/

section Assembly

variable {D} {read : Read}

/-- **A read that has its range, and the right blocks as far as they are there.** -/
structure Read.Open (D : Directories) (read : Read) : Prop where
  nonempty : read.start < read.stop
  inside : read.stop ≤ (read.file D).span.len
  length : read.blocks.length = read.last D - read.first D + 1
  right : ∀ k data, read.blocks[k]? = some (some data) → data = D.block (read.fileKey D, read.first D + k)

theorem mapM_id_eq_some {α : Type} {l : List (Option α)} {l' : List α} (h : l.mapM id = some l') :
    l = l'.map some := by
  induction l generalizing l' with
  | nil =>
      cases h
      rfl
  | cons a l ih =>
      simp only [List.mapM_cons, id_eq, Option.bind_eq_bind, Option.bind_eq_some_iff, Option.pure_def,
        Option.some.injEq] at h
      grind

theorem first_mul_le : read.first D * D.blockSize ≤ read.start := Nat.div_mul_le_self _ _

theorem lt_first_succ_mul : read.start < (read.first D + 1) * D.blockSize := by
  rw [Nat.succ_mul]
  exact Nat.lt_div_mul_add D.blockSize_pos

theorem Read.Open.first_le_last (h : read.Open D) : read.first D ≤ read.last D :=
  Nat.div_le_div_right (by have := h.nonempty; omega)

theorem Read.Open.last_mul_lt (h : read.Open D) : read.last D * D.blockSize < read.stop := by
  have hle : read.last D * D.blockSize ≤ read.stop - 1 := Nat.div_mul_le_self _ _
  have := h.nonempty
  omega

theorem stop_le_last_succ_mul : read.stop ≤ (read.last D + 1) * D.blockSize := by
  have hlt : read.stop - 1 < read.last D * D.blockSize + D.blockSize := Nat.lt_div_mul_add D.blockSize_pos
  rw [Nat.succ_mul]
  omega

/-- The blocks of a read that has them all. -/
theorem Read.Open.blocks_eq (h : read.Open D) {blocks : List Bytes} (hall : read.blocks.mapM id = some blocks) :
    blocks = (List.range (read.last D - read.first D + 1)).map fun k =>
      Blocks.block D.blockSize (read.first D + k) (read.file D).content := by
  have heq := mapM_id_eq_some hall
  have hlength := h.length
  rw [heq, List.length_map] at hlength
  refine List.ext_getElem (by simp [hlength]) fun k hk _ => ?_
  have hright := h.right k blocks[k] (by simp [heq, hk])
  rw [Setup.block_eq] at hright
  rw [List.getElem_map, List.getElem_range]
  exact hright

theorem zipIdx_map_range {α : Type} (f : ℕ → α) (n : ℕ) :
    ((List.range n).map f).zipIdx = (List.range n).map fun k => (f k, k) :=
  List.ext_getElem (by simp) fun k _ _ => by simp

/-- More than one block. -/
theorem Read.assemble_of_length {blocks : List Bytes} (h : blocks.length ≠ 1) :
    read.assemble D blocks = blocks.zipIdx.flatMap fun (block, offset) =>
      slice (read.start - (read.first D + offset) * D.blockSize)
        (min (read.stop - (read.first D + offset) * D.blockSize) block.length) block := by
  unfold Read.assemble
  split
  · exact absurd rfl h
  · rfl

/-- **The blocks of a range make up the range.** -/
theorem Read.Open.assemble_eq (h : read.Open D) {blocks : List Bytes}
    (hall : read.blocks.mapM id = some blocks) :
    read.assemble D blocks = (read.file D).objectBytes read.start read.stop := by
  have hfirst : read.first D * D.blockSize ≤ read.start := first_mul_le
  have hstart : read.start < (read.first D + 1) * D.blockSize := lt_first_succ_mul
  have horder := h.first_le_last
  have hlast := h.last_mul_lt
  have hstop : read.stop ≤ (read.last D + 1) * D.blockSize := stop_le_last_succ_mul
  have hnonempty := h.nonempty
  have hinside := h.inside
  rw [File.objectBytes_eq h.inside, h.blocks_eq hall]
  have hlength : (read.file D).content.length = (read.file D).span.len := File.length_content
  generalize (read.file D).content = content at *
  generalize hn : read.last D - read.first D = n
  cases n with
  | zero =>
      -- the range is in one block
      have hsame : read.last D = read.first D := by omega
      rw [hsame] at hstop
      change slice _ _ (Blocks.block D.blockSize (read.first D + 0) content) = _
      rw [Nat.add_zero, Blocks.block, Blocks.slice_slice]
      congr 1 <;> omega
  | succ n =>
      have hpiece : ∀ k ∈ List.range (n + 1 + 1),
          slice (read.start - (read.first D + k) * D.blockSize)
            (min (read.stop - (read.first D + k) * D.blockSize)
              (Blocks.block D.blockSize (read.first D + k) content).length)
            (Blocks.block D.blockSize (read.first D + k) content) =
          slice (max read.start ((read.first D + k) * D.blockSize))
            (min read.stop ((read.first D + k + 1) * D.blockSize)) content := by
        intro k hk
        have hk := List.mem_range.mp hk
        have hmul : (read.first D + k) * D.blockSize ≤ read.last D * D.blockSize :=
          Nat.mul_le_mul_right _ (by omega)
        rw [Blocks.block, Blocks.length_slice, Blocks.slice_slice, Nat.succ_mul]
        congr 1 <;> omega
      have hend : read.first D + (n + 1) + 1 = read.last D + 1 := by omega
      rw [Read.assemble_of_length (by simp), zipIdx_map_range, List.flatMap_map]
      rw [List.flatMap_congr hpiece, Blocks.flatMap_slice hfirst hstart, hend, min_eq_left hstop]

end Assembly

/-! ### What is right -/

/-- The blocks that a read has claimed. -/
def Phase.held : Phase → List ℕ
  | .fetch mine _ _ _ | .put mine _ _ _ | .store _ _ _ mine _ _ _ | .release mine _ | .abandon mine _ => mine
  | _ => []

/-- Blocks with their indices, as the object has them. -/
def Read.RightBlocks (read : Read) (blocks : List (ℕ × Bytes)) : Prop :=
  ∀ e ∈ blocks, e.2 = D.block (read.fileKey D, e.1)

/-- **What a read has in its hands is right.**  Indices are of the range; answers are the object's bytes;
the requests are those planned for what is claimed. -/
def Phase.Right (read : Read) : Phase → Prop
  | .scan todo missing => ∀ i ∈ todo ++ missing, i ≤ read.last D
  | .get index lookup todo missing =>
      (∀ i ∈ index :: (todo ++ missing), i ≤ read.last D) ∧
      ∀ data, lookup = .promote data → data = D.block (read.fileKey D, index)
  | .claim missing => ∀ i ∈ missing, i ≤ read.last D
  | .fetch mine _ requests _ =>
      (∀ i ∈ mine, i ≤ read.last D) ∧
      requests.map Request.run = plan (read.file D).span.len D.blockSize read.readahead mine ∧
      ∀ q ∈ requests, ∀ data ∈ q.data, data =
        (read.file D).objectBytes (requestBounds D read q.run).1 (requestBounds D read q.run).2
  | .put _ _ out todo => read.RightBlocks D (out ++ todo)
  | .store index data _ _ _ out todo => read.RightBlocks D ((index, data) :: (out ++ todo))
  | _ => True

/-- **The read returns the object's bytes of its range.** -/
def Read.Returns (read : Read) (bytes : Bytes) : Prop :=
  read.start ≤ read.stop ∧ read.stop ≤ (read.file D).span.len ∧
    bytes = (read.file D).objectBytes read.start read.stop

/-- A read that is right: what it holds, and what it returns if it is done. -/
structure Read.Right (read : Read) : Prop where
  returns : ∀ bytes, read.phase = .done (.ok bytes) → read.Returns D bytes
  opened : (∀ result, read.phase ≠ .done result) → read.Open D
  phase : read.phase.Right D read

/-- What a step does to the claims: nothing, or it takes what nobody has, or it gives all back. -/
def ClaimStep (node : Node) (read : Read) (node' : Node) (read' : Read) : Prop :=
  (read'.phase.held = read.phase.held ∧ node'.inflight = node.inflight) ∨
  (read.phase.held = [] ∧ read'.phase.held.Nodup ∧
    (∀ i ∈ read'.phase.held, (read.fileKey D, i) ∉ node.inflight) ∧
    ∀ key, key ∈ node'.inflight ↔ key ∈ node.inflight ∨ key ∈ read'.phase.held.map (read.fileKey D, ·)) ∨
  (read'.phase.held = [] ∧ node'.inflight = release (read.fileKey D) read.phase.held node.inflight)

/-- **A step that is sound.** -/
structure Sound (node : Node) (read : Read) (node' : Node) (read' : Read) : Prop where
  tiers : node'.Right D.toSetup
  hands : read'.Right D
  handle : read'.handle = read.handle
  claims : ClaimStep D node read node' read'

section Moves

variable {D} {node node' : Node} {read read' : Read}

/-- A step to a phase that is right, which neither claims nor releases. -/
theorem sound_of_phase {blocks : List (Option Bytes)} {phase : Phase} (hnode : node'.Right D.toSetup)
    (hopen : Read.Open D { read with blocks }) (hphase : phase.Right D read)
    (hheld : phase.held = read.phase.held) (hinflight : node'.inflight = node.inflight)
    (hnot : ∀ result, phase ≠ .done result) : Sound D node read node' { read with blocks, phase } where
  tiers := hnode
  hands := ⟨fun bytes hbytes => absurd hbytes (hnot _),
    fun _ => ⟨hopen.nonempty, hopen.inside, hopen.length, hopen.right⟩, by cases phase <;> exact hphase⟩
  handle := rfl
  claims := .inl ⟨hheld, hinflight⟩

theorem Read.Open.fill (h : read.Open D) {e : ℕ × Bytes} (he : e.2 = D.block (read.fileKey D, e.1)) :
    ∃ blocks, read.fill D e = { read with blocks } ∧ Read.Open D { read with blocks } := by
  unfold Read.fill
  split_ifs with hin
  · refine ⟨_, rfl, h.nonempty, h.inside, ?_, fun k data hdata => ?_⟩
    · exact (List.length_set).trans h.length
    · rw [List.getElem?_set] at hdata
      split_ifs at hdata with hk
      · obtain rfl := Option.some.inj (Option.some.inj hdata)
        have hindex : read.first D + k = e.1 := by
          have := hin.1
          omega
        exact he.trans (congrArg (fun i => D.block (read.fileKey D, i)) hindex.symm)
      · exact h.right k data hdata
  · exact ⟨read.blocks, rfl, h⟩

theorem Read.Open.foldl_fill (h : read.Open D) {blocks : List (ℕ × Bytes)}
    (hblocks : read.RightBlocks D blocks) :
    ∃ filled, blocks.foldl (Read.fill D) read = { read with blocks := filled } ∧
      Read.Open D { read with blocks := filled } := by
  induction blocks generalizing read with
  | nil => exact ⟨read.blocks, rfl, h⟩
  | cons e blocks ih =>
      obtain ⟨he, hrest⟩ := List.forall_mem_cons.mp hblocks
      obtain ⟨filled, hfilled, hopen⟩ := h.fill he
      obtain ⟨filled', hfilled', hopen'⟩ := ih hopen hrest
      grind

/-- The blocks that are not there are of the range. -/
theorem Read.Open.le_last_of_mem_unfilled (h : read.Open D) {i : ℕ} (hi : i ∈ read.unfilled D) :
    i ≤ read.last D := by
  obtain ⟨k, hk, hi⟩ := List.mem_filterMap.mp hi
  grind [first_le_last, length]

/-- The next pass. -/
theorem Read.Open.right_nextPass (h : read.Open D) : (read.nextPass D).Right D where
  returns _ hbytes := nomatch hbytes
  opened _ := ⟨h.nonempty, h.inside, h.length, h.right⟩
  phase _ hi := h.le_last_of_mem_unfilled ((List.mem_append.mp hi).resolve_right nofun)

theorem sound_endPass (hnode : node.Right D.toSetup) (hopen : read.Open D) {missing : List ℕ}
    (hmissing : ∀ i ∈ missing, i ≤ read.last D) (hheld : read.phase.held = []) :
    Sound D node read (endPass D node read missing).1 (endPass D node read missing).2 := by
  unfold endPass
  split
  · cases hall : read.blocks.mapM id with
    | some blocks =>
        refine ⟨node.right_of_eq hnode rfl rfl, ⟨?_, fun hnot => absurd rfl (hnot _), trivial⟩, rfl,
          .inl ⟨hheld.symm, rfl⟩⟩
        rintro bytes ⟨rfl⟩
        exact ⟨hopen.nonempty.le, hopen.inside, hopen.assemble_eq hall⟩
    | none =>
        exact ⟨node.right_of_eq hnode rfl rfl, ⟨nofun, fun hnot => absurd rfl (hnot _), trivial⟩, rfl,
          .inl ⟨hheld.symm, rfl⟩⟩
  · exact sound_of_phase hnode hopen hmissing hheld.symm rfl nofun

theorem sound_advanceGet (hnode : node.Right D.toSetup) (hopen : read.Open D) {index : ℕ} {lookup : Lookup}
    {todo missing : List ℕ} (hphase : read.phase = .get index lookup todo missing)
    (hright : Phase.Right D read (.get index lookup todo missing)) :
    Sound D node read (advanceGet D node read index todo missing lookup).1
      (advanceGet D node read index todo missing lookup).2 := by
  obtain ⟨hindices, hdata⟩ := hright
  have hheld : [] = read.phase.held := by rw [hphase]; rfl
  obtain ⟨hindex, hrest⟩ := List.forall_mem_cons.mp hindices
  have hmissing : ∀ i ∈ todo ++ (missing ++ [index]), i ≤ read.last D := by
    grind
  have hstay : ∀ lookup : Lookup, (∀ data, lookup = .promote data → data = D.block (read.fileKey D, index)) →
      Phase.Right D read (.get index lookup todo missing) := fun _ h => ⟨hindices, h⟩
  cases lookup with
  | touch =>
      rw [advanceGet]
      split_ifs
      · exact sound_of_phase (node.right_of_eq hnode rfl rfl) hopen (hstay .file nofun) hheld rfl nofun
      · exact sound_of_phase hnode hopen hmissing hheld rfl nofun
  | file =>
      rw [advanceGet]
      cases hfile : node.disk (blockRelativePath (read.fileKey D, index)) with
      | none => exact sound_of_phase hnode hopen (hstay .forget nofun) hheld rfl nofun
      | some data =>
          dsimp only
          split_ifs
          · refine sound_of_phase hnode hopen (hstay (.promote data) ?_) hheld rfl nofun
            rintro _ ⟨rfl⟩
            exact hnode.disk _ _ hfile
          · exact sound_of_phase hnode hopen (hstay .forget nofun) hheld rfl nofun
  | promote data =>
      obtain ⟨blocks, hfill, hfilled⟩ := hopen.fill (e := (index, data)) (hdata data rfl)
      rw [advanceGet, hfill]
      exact sound_of_phase (Node.right_insertMemory hnode (hdata data rfl)) hfilled hrest hheld
        (Node.insertMemory_inflight ..) nofun
  | forget =>
      exact sound_of_phase (node.right_of_eq hnode rfl rfl) hopen (hstay .unlink nofun) hheld rfl nofun
  | unlink =>
      exact sound_of_phase (Node.right_unlink hnode _) hopen hmissing hheld rfl nofun

theorem sound_advanceStore (hnode : node.Right D.toSetup) (hopen : read.Open D) {index : ℕ} {data : Bytes}
    {stage : Store} {mine theirs : List ℕ} {out todo : List (ℕ × Bytes)}
    (hphase : read.phase = .store index data stage mine theirs out todo)
    (hright : read.RightBlocks D ((index, data) :: (out ++ todo))) :
    Sound D node read (advanceStore D node read index data mine theirs out todo stage).1
      (advanceStore D node read index data mine theirs out todo stage).2 := by
  have hheld : mine = read.phase.held := by rw [hphase]; rfl
  obtain ⟨hdata, hrest⟩ := List.forall_mem_cons.mp hright
  cases stage with
  | register =>
      rw [advanceStore]
      cases D.diskBytes with
      | none => exact sound_of_phase hnode hopen hright hheld rfl nofun
      | some budget => exact sound_of_phase (node.right_of_eq hnode rfl rfl) hopen hright hheld rfl nofun
  | unlink victims =>
      cases victims with
      | nil => exact sound_of_phase hnode hopen hright hheld rfl nofun
      | cons victim victims =>
          exact sound_of_phase (Node.right_unlink hnode _) hopen hright hheld rfl nofun
  | memory =>
      exact sound_of_phase (Node.right_insertMemory hnode hdata) hopen hrest hheld
        (Node.insertMemory_inflight ..) nofun

theorem exists_of_mem_mapM {α β : Type} {f : α → Option β} {l : List α} {l' : List β}
    (h : l.mapM f = some l') {b : β} (hb : b ∈ l') : ∃ a ∈ l, f a = some b := by
  induction l generalizing l' with
  | nil =>
      cases h
      cases hb
  | cons a l ih =>
      simp only [List.mapM_cons, Option.bind_eq_bind, Option.bind_eq_some_iff, Option.pure_def,
        Option.some.injEq] at h
      grind

/-- The blocks of an answer are blocks of the file. -/
theorem rightBlocks_pieces {run : Run} {data : Bytes} (hdata : data =
      (read.file D).objectBytes (requestBounds D read run).1 (requestBounds D read run).2) :
    read.RightBlocks D (pieces D.blockSize run.start data) := by
  have hpos := D.blockSize_pos
  have hslice : data = slice (run.start * D.blockSize) (run.stop * D.blockSize) (read.file D).content := by
    rw [hdata, requestBounds, File.objectBytes_eq (min_le_right _ _), ← File.length_content,
      Blocks.slice_min_length]
  intro e he
  obtain ⟨k, hk, rfl⟩ := List.mem_map.mp he
  have hlength : data.length ≤ run.stop * D.blockSize - run.start * D.blockSize := by
    rw [hslice, Blocks.length_slice]
    omega
  have hwhole : (k + 1) * D.blockSize ≤ data.length + D.blockSize - 1 :=
    (Nat.le_div_iff_mul_le hpos).mp (List.mem_range.mp hk)
  have hlt : run.start + k < run.stop := by
    refine Nat.lt_of_mul_lt_mul_right (a := D.blockSize) ?_
    grind
  rw [Setup.block_eq, hslice, Blocks.block_slice hlt]
  rfl

/-- **What was fetched is right.** -/
theorem rightBlocks_collect {requests : List Request} {out : List (ℕ × Bytes)}
    (h : ∀ q ∈ requests, ∀ data ∈ q.data, data =
      (read.file D).objectBytes (requestBounds D read q.run).1 (requestBounds D read q.run).2)
    (hout : collect D requests = some out) : read.RightBlocks D out := by
  obtain ⟨parts, hparts, rfl⟩ := Option.map_eq_some_iff.mp hout
  intro e he
  obtain ⟨part, hpart, he⟩ := List.mem_flatten.mp he
  obtain ⟨q, hq, hpieces⟩ := exists_of_mem_mapM hparts hpart
  obtain ⟨data, hdata, rfl⟩ := Option.map_eq_some_iff.mp hpieces
  exact rightBlocks_pieces (h q hq data hdata) e he

/-- A step to a phase that is right, which releases all claims. -/
theorem sound_of_release {phase : Phase} (hnode : node.Right D.toSetup) (hopen : read.Open D)
    (hphase : phase.Right D read) (hheld : phase.held = []) (hnot : ∀ bytes, phase ≠ .done (.ok bytes)) :
    Sound D node read { node with inflight := release (read.fileKey D) read.phase.held node.inflight }
      { read with phase } where
  tiers := node.right_of_eq hnode rfl rfl
  hands := ⟨fun bytes hbytes => absurd hbytes (hnot bytes),
    fun _ => ⟨hopen.nonempty, hopen.inside, hopen.length, hopen.right⟩, by cases phase <;> exact hphase⟩
  handle := rfl
  claims := .inr (.inr ⟨hheld, rfl⟩)

/-- **A claim**, and the requests that are planned for it. -/
theorem sound_claim (hnode : node.Right D.toSetup) (hopen : read.Open D) {missing : List ℕ}
    (hphase : read.phase = .claim missing) (hmissing : ∀ i ∈ missing, i ≤ read.last D)
    (h : advance D node read = some (node', read')) : Sound D node read node' read' := by
  have hheld : read.phase.held = [] := by rw [hphase]; rfl
  rw [advance, hphase] at h
  dsimp only at h
  obtain ⟨hsub, hnodup, hfree, hmem⟩ := claim_spec (read.fileKey D) missing node.inflight
  generalize hclaim : claim (read.fileKey D) missing node.inflight = c at h hsub hnodup hfree hmem
  obtain ⟨mine, theirs, inflight⟩ := c
  dsimp only at h hsub hnodup hfree hmem
  have hopened : ∀ phase, Read.Open D { read with phase } := fun _ =>
    ⟨hopen.nonempty, hopen.inside, hopen.length, hopen.right⟩
  split_ifs at h
  · cases h
    exact ⟨node.right_of_eq hnode rfl rfl, ⟨nofun, fun _ => hopened _, trivial⟩, rfl,
      .inr (.inl ⟨hheld, hnodup, hfree, hmem⟩)⟩
  · cases h
    refine ⟨node.right_of_eq hnode rfl rfl, ⟨nofun, fun _ => hopened _, ?_, ?_, ?_⟩, rfl,
      .inr (.inl ⟨hheld, hnodup, hfree, hmem⟩)⟩
    · exact fun i hi => hmissing i (hsub hi)
    · rw [List.map_map]
      exact List.map_id _
    · grind

theorem Sound.of_eq {p : Node × Read} (hsound : Sound D node read p.1 p.2) (h : p = (node', read')) :
    Sound D node read node' read' := by
  subst h
  exact hsound

/-- A lookup in the memory. -/
theorem sound_scan (hnode : node.Right D.toSetup) (hopen : read.Open D) {index : ℕ} {todo missing : List ℕ}
    (hphase : read.phase = .scan (index :: todo) missing)
    (hright : Phase.Right D read (.scan (index :: todo) missing))
    (h : advance D node read = some (node', read')) : Sound D node read node' read' := by
  have hheld : [] = read.phase.held := by rw [hphase]; rfl
  obtain ⟨hindex, hrest⟩ := List.forall_mem_cons.mp hright
  rw [advance, hphase] at h
  dsimp only at h
  cases hget : node.getMemory D.toSetup (read.fileKey D, index) with
  | some data =>
      have hdata := Node.eq_block_of_getMemory hnode hget
      obtain ⟨blocks, hfill, hfilled⟩ := hopen.fill (e := (index, data)) hdata
      rw [hget] at h
      dsimp only at h
      rw [hfill] at h
      cases h
      exact sound_of_phase (Node.right_touchMemory hnode _) hfilled hrest hheld rfl nofun
  | none =>
      rw [hget] at h
      dsimp only at h
      split at h
      · cases h
        exact sound_of_phase hnode hopen ⟨hright, nofun⟩ hheld rfl nofun
      · cases h
        refine sound_of_phase hnode hopen (fun i hi => ?_) hheld rfl nofun
        rw [← List.append_assoc] at hi
        rcases List.mem_append.mp hi with hi | hi
        · exact hrest i hi
        · grind

/-- What was fetched is put into the cache and taken over. -/
theorem sound_put (hnode : node.Right D.toSetup) (hopen : read.Open D) {mine theirs : List ℕ}
    {out todo : List (ℕ × Bytes)} (hphase : read.phase = .put mine theirs out todo)
    (hright : read.RightBlocks D (out ++ todo)) (h : advance D node read = some (node', read')) :
    Sound D node read node' read' := by
  have hheld : mine = read.phase.held := by rw [hphase]; rfl
  rw [advance, hphase] at h
  cases todo with
  | nil =>
      obtain ⟨blocks, hfill, hfilled⟩ := hopen.foldl_fill fun e he => hright e (List.mem_append_left [] he)
      dsimp only at h
      rw [hfill] at h
      cases h
      exact sound_of_phase hnode hfilled trivial hheld rfl nofun
  | cons e todo =>
      have hblocks : read.RightBlocks D (e :: (out ++ todo)) := by
        intro e' he'
        refine hright e' ?_
        grind
      dsimp only at h
      split at h
      · cases h
        exact sound_of_phase (Node.right_writeFile hnode (hblocks e List.mem_cons_self)) hopen hblocks hheld
          rfl nofun
      · cases h
        exact sound_of_phase hnode hopen hblocks hheld rfl nofun

/-- **A step where nothing fails.** -/
theorem sound_advance (hnode : node.Right D.toSetup) (hread : read.Right D)
    (h : advance D node read = some (node', read')) : Sound D node read node' read' := by
  by_cases hdone : ∃ result, read.phase = .done result
  · grind [advance]
  have hopen := hread.opened fun result hphase => hdone ⟨result, hphase⟩
  have hright := hread.phase
  cases hphase : read.phase with
  | scan todo missing =>
      rw [hphase] at hright
      cases todo with
      | nil =>
          rw [advance, hphase] at h
          exact (sound_endPass hnode hopen hright (by rw [hphase]; rfl)).of_eq (Option.some.inj h)
      | cons index todo => exact sound_scan hnode hopen hphase hright h
  | get index lookup todo missing =>
      grind [sound_advanceGet, advance]
  | claim missing =>
      rw [hphase] at hright
      exact sound_claim hnode hopen hphase hright h
  | fetch mine theirs requests issued =>
      rw [hphase] at hright
      rw [advance, hphase] at h
      obtain ⟨out, hout, hnext⟩ := Option.map_eq_some_iff.mp h
      cases hnext
      have hblocks := rightBlocks_collect hright.2.2 hout
      refine sound_of_phase hnode hopen (fun e he => ?_) (by rw [hphase]; rfl) rfl nofun
      exact (List.mem_append.mp he).elim (hblocks e) (hblocks e)
  | put mine theirs out todo =>
      rw [hphase] at hright
      exact sound_put hnode hopen hphase hright h
  | store index data stage mine theirs out todo =>
      rw [hphase] at hright
      rw [advance, hphase] at h
      exact (sound_advanceStore hnode hopen hphase hright).of_eq (Option.some.inj h)
  | release mine theirs =>
      have hmine : mine = read.phase.held := by rw [hphase]; rfl
      rw [advance, hphase] at h
      cases h
      rw [hmine]
      split_ifs
      · exact sound_of_release hnode hopen hopen.right_nextPass.phase rfl nofun
      · exact sound_of_release hnode hopen trivial rfl nofun
  | abandon mine error =>
      have hmine : mine = read.phase.held := by rw [hphase]; rfl
      rw [advance, hphase] at h
      cases h
      rw [hmine]
      exact sound_of_release hnode hopen trivial rfl nofun
  | wait theirs =>
      rw [advance, hphase] at h
      dsimp only at h
      split_ifs at h
      cases h
      exact sound_of_phase hnode hopen hopen.right_nextPass.phase (by rw [hphase]; rfl) rfl nofun
  | done result => exact absurd ⟨result, hphase⟩ hdone

/-- A step whose file operation fails. -/
theorem sound_fail (hnode : node.Right D.toSetup) (hread : read.Right D)
    (h : fail D node read = some (node', read')) : Sound D node read node' read' := by
  have hright := hread.phase
  unfold fail at h
  split at h
  next index todo missing hphase =>
    cases h
    rw [hphase] at hright
    exact sound_of_phase hnode (hread.opened (by rw [hphase]; nofun)) ⟨hright.1, nofun⟩ (by rw [hphase]; rfl)
      rfl nofun
  next index todo missing hphase =>
    cases h
    rw [hphase] at hright
    refine sound_of_phase hnode (hread.opened (by rw [hphase]; nofun)) (fun i hi => hright.1 i ?_)
      (by rw [hphase]; rfl) rfl nofun
    grind
  next mine theirs out index data todo hphase =>
    obtain ⟨_, -, hnext⟩ := Option.map_eq_some_iff.mp h
    cases hnext
    rw [hphase] at hright
    refine sound_of_phase hnode (hread.opened (by rw [hphase]; nofun)) (fun e he => hright e ?_)
      (by rw [hphase]; rfl) rfl nofun
    grind
  next index data victim victims mine theirs out todo hphase =>
    cases h
    rw [hphase] at hright
    exact sound_of_phase hnode (hread.opened (by rw [hphase]; nofun)) hright (by rw [hphase]; rfl) rfl nofun
  next => cases h

theorem sound_issue (hnode : node.Right D.toSetup) (hread : read.Right D) (h : issue read = some read') :
    Sound D node read node read' := by
  have hright := hread.phase
  unfold issue at h
  split at h
  next mine theirs requests issued hphase =>
    split_ifs at h
    cases h
    rw [hphase] at hright
    exact sound_of_phase hnode (hread.opened (by rw [hphase]; nofun)) hright (by rw [hphase]; rfl) rfl nofun
  next => cases h

/-- **An answer of the length that was asked for is the object's.** -/
theorem sound_answer (hnode : node.Right D.toSetup) (hread : read.Right D) {i : ℕ} {data : Bytes}
    (h : answer D read i data = some read') : Sound D node read node read' := by
  have hright := hread.phase
  unfold answer at h
  split at h
  next mine theirs requests issued hphase =>
    have hopen := hread.opened (by rw [hphase]; nofun)
    rw [hphase] at hright
    obtain ⟨hmine, hplan, hdata⟩ := hright
    split at h
    next run hrequest =>
      dsimp only at h
      split_ifs at h with hmay hshort
      · cases h
        exact sound_of_phase hnode hopen trivial (by rw [hphase]; rfl) rfl nofun
      · cases h
        refine sound_of_phase hnode hopen ⟨hmine, ?_, ?_⟩ (by rw [hphase]; rfl) rfl nofun
        · rw [← hplan]
          refine List.ext_getElem? fun j => ?_
          grind
        · intro q hq data' hdata'
          rcases List.mem_or_eq_of_mem_set hq with hq | rfl
          · exact hdata q hq data' hdata'
          · cases hdata'
            exact hmay.2 (not_not.mp hshort)
    next => cases h
  next => cases h

theorem sound_refuse (hnode : node.Right D.toSetup) (hread : read.Right D) {i : ℕ}
    (h : refuse read i = some read') : Sound D node read node read' := by
  unfold refuse at h
  split at h
  next mine theirs requests issued hphase =>
    split_ifs at h
    cases h
    exact sound_of_phase hnode (hread.opened (by rw [hphase]; nofun)) trivial (by rw [hphase]; rfl) rfl nofun
  next => cases h

/-- **Every move of a read is sound.** -/
theorem sound_move (hnode : node.Right D.toSetup) (hread : read.Right D) {m : Move}
    (h : move D node read m = some (node', read')) : Sound D node read node' read' := by
  cases m with
  | advance => exact sound_advance hnode hread h
  | fail => exact sound_fail hnode hread h
  | issue =>
      obtain ⟨_, hnext, heq⟩ := Option.map_eq_some_iff.mp h
      grind [sound_issue]
  | answer i data =>
      obtain ⟨_, hnext, heq⟩ := Option.map_eq_some_iff.mp h
      grind [sound_answer]
  | refuse i =>
      obtain ⟨_, hnext, heq⟩ := Option.map_eq_some_iff.mp h
      grind [sound_refuse]

end Moves

/-! ### Every run -/

/-- The claimed blocks, with the key of the file. -/
def Read.heldKeys (read : Read) : List BlockKey := read.phase.held.map (read.fileKey D, ·)

/-- **The invariant.**  The tiers and the hands of all reads are right; what a read has claimed is being
fetched, and claimed by no other read. -/
structure Inv (s : State) : Prop where
  tiers : s.node.Right D.toSetup
  hands : ∀ r read, s.reads r = some read → read.Right D
  nodup : ∀ r read, s.reads r = some read → read.phase.held.Nodup
  claimed : ∀ r read, s.reads r = some read → ∀ key ∈ read.heldKeys D, key ∈ s.node.inflight
  apart : ∀ r r' read read', s.reads r = some read → s.reads r' = some read' → r ≠ r' →
    ∀ key ∈ read.heldKeys D, key ∉ read'.heldKeys D

section Machine

variable {D} {s s' : State}

theorem right_openRead (node : Node) (handle start stop : ℕ) :
    (openRead D node handle start stop).Right D := by
  unfold openRead
  dsimp only
  by_cases hpast : start > stop ∨ stop > (D.file (D.handle handle).file).span.len
  · rw [if_pos hpast]
    exact ⟨nofun, fun hnot => absurd rfl (hnot _), trivial⟩
  rw [if_neg hpast]
  obtain ⟨hle, hinside⟩ := not_or.mp hpast
  by_cases hempty : start = stop
  · subst hempty
    rw [if_pos rfl]
    refine ⟨?_, fun hnot => absurd rfl (hnot _), trivial⟩
    rintro bytes ⟨rfl⟩
    refine ⟨le_rfl, not_lt.mp hinside, ?_⟩
    simp [File.objectBytes, getRange]
  · rw [if_neg hempty]
    refine Read.Open.right_nextPass ⟨?_, not_lt.mp hinside, List.length_replicate, ?_⟩
    · exact lt_of_le_of_ne (not_lt.mp hle) hempty
    · grind

/-- A read that begins has claimed nothing. -/
theorem held_openRead (node : Node) (handle start stop : ℕ) :
    (openRead D node handle start stop).phase.held = [] := by
  unfold openRead
  dsimp only
  by_cases hpast : start > stop ∨ stop > (D.file (D.handle handle).file).span.len
  · rw [if_pos hpast]
    rfl
  rw [if_neg hpast]
  by_cases hempty : start = stop
  · rw [if_pos hempty]
    rfl
  · rw [if_neg hempty]
    rfl

/-- **A read comes or moves, the others stay as they are.**  What it holds then is right, is being fetched,
and is no other's. -/
theorem inv_update (h : Inv D s) {node' : Node} {r : ℕ} {read' : Read} (hnode : node'.Right D.toSetup)
    (hread' : read'.Right D) (hnodup : read'.phase.held.Nodup)
    (hown : ∀ key ∈ read'.heldKeys D, key ∈ node'.inflight)
    (hothers : ∀ r' read, s.reads r' = some read → r' ≠ r → ∀ key ∈ read.heldKeys D,
      key ∈ node'.inflight ∧ key ∉ read'.heldKeys D) :
    Inv D ⟨node', Function.update s.reads r (some read')⟩ := by
  have hcases : ∀ r' read, Function.update s.reads r (some read') r' = some read →
      r' = r ∧ read = read' ∨ r' ≠ r ∧ s.reads r' = some read := by
    grind
  refine ⟨hnode, fun r₁ read₁ h₁ => ?_, fun r₁ read₁ h₁ => ?_, fun r₁ read₁ h₁ => ?_, ?_⟩
  · rcases hcases r₁ read₁ h₁ with ⟨-, rfl⟩ | ⟨-, h₁⟩
    · exact hread'
    · exact h.hands r₁ read₁ h₁
  · rcases hcases r₁ read₁ h₁ with ⟨-, rfl⟩ | ⟨-, h₁⟩
    · exact hnodup
    · exact h.nodup r₁ read₁ h₁
  · grind
  · intro r₁ r₂ read₁ read₂ h₁ h₂ hne key hkey hkey'
    rcases hcases r₁ read₁ h₁ with ⟨rfl, rfl⟩ | ⟨hr₁, hold₁⟩
    · grind
    · rcases hcases r₂ read₂ h₂ with ⟨-, rfl⟩ | ⟨-, hold₂⟩
      · grind
      · exact h.apart r₁ r₂ read₁ read₂ hold₁ hold₂ hne key hkey hkey'

/-- A read moves. -/
theorem inv_move (h : Inv D s) {r : ℕ} {read : Read} (hread : s.reads r = some read) {node' : Node}
    {read' : Read} (hsound : Sound D s.node read node' read') :
    Inv D ⟨node', Function.update s.reads r (some read')⟩ := by
  have hfile : read'.fileKey D = read.fileKey D := by rw [Read.fileKey, hsound.handle, Read.fileKey]
  have hheld : read.phase.held.Nodup := h.nodup r read hread
  have hkeys : ∀ key ∈ read.heldKeys D, key ∈ s.node.inflight := h.claimed r read hread
  have hapart : ∀ r' read₁, s.reads r' = some read₁ → r' ≠ r → ∀ key ∈ read₁.heldKeys D,
      key ∈ s.node.inflight ∧ key ∉ read.heldKeys D := fun r' read₁ h₁ hne key hkey =>
    ⟨h.claimed r' read₁ h₁ key hkey, h.apart r' r read₁ read h₁ hread hne key hkey⟩
  rcases hsound.claims with ⟨hsame, hinflight⟩ | ⟨-, hnodup, hfree, hmem⟩ | ⟨hnone, hinflight⟩
  · -- nothing is claimed or released
    have hkeysEq : read'.heldKeys D = read.heldKeys D := by grind [Read.heldKeys]
    refine inv_update h hsound.tiers hsound.hands (hsame ▸ hheld) ?_ ?_
    · rw [hkeysEq, hinflight]
      exact hkeys
    · grind
  · -- what is claimed was free, and what the others hold was not
    have hkeysEq : read'.heldKeys D = read'.phase.held.map (read.fileKey D, ·) := by
      rw [Read.heldKeys, hfile]
    refine inv_update h hsound.tiers hsound.hands hnodup ?_ ?_
    · grind
    · grind
  · -- only its own claims are released
    have hkeysEq : read'.heldKeys D = [] := by rw [Read.heldKeys, hnone, List.map_nil]
    refine inv_update h hsound.tiers hsound.hands (hnone ▸ List.nodup_nil) ?_ ?_
    · rw [hkeysEq]
      nofun
    · intro r' read₁ h₁ hne key hkey
      rw [hkeysEq, hinflight, mem_release]
      exact ⟨hapart r' read₁ h₁ hne key hkey, List.not_mem_nil⟩

/-- **One step keeps the invariant.** -/
theorem inv_step (h : Inv D s) {a : Action} (hstep : step D s a = some s') : Inv D s' := by
  cases a with
  | begin r handle start stop =>
      dsimp only [step] at hstep
      split_ifs at hstep
      cases hstep
      have hnone := @held_openRead D s.node handle start stop
      have hkeys : (openRead D s.node handle start stop).heldKeys D = [] := by
        rw [Read.heldKeys, hnone, List.map_nil]
      refine inv_update h h.tiers (right_openRead ..) (hnone ▸ List.nodup_nil) ?_ ?_
      · rw [hkeys]
        nofun
      · intro r' read h₁ _ key hkey
        rw [hkeys]
        exact ⟨h.claimed r' read h₁ key hkey, List.not_mem_nil⟩
  | move r m =>
      obtain ⟨read, hread, hstep⟩ := Option.bind_eq_some_iff.mp hstep
      obtain ⟨⟨node', read'⟩, hmove, hstep⟩ := Option.bind_eq_some_iff.mp hstep
      cases hstep
      exact inv_move h hread (sound_move h.tiers (h.hands r read hread) hmove)
  | vanish path =>
      cases hstep
      exact ⟨Node.right_unlink h.tiers path, h.hands, h.nodup, h.claimed, h.apart⟩

/-- A request that is on its way. -/
def Read.Outstanding (read : Read) (i : ℕ) (run : Run) : Prop :=
  ∃ mine theirs requests issued, read.phase = .fetch mine theirs requests issued ∧ i < issued ∧
    requests[i]? = some ⟨run, none⟩

theorem eq_of_nodup_flatMap {α β : Type} {l : List α} {f : α → List β} (h : (l.flatMap f).Nodup) {i j : ℕ}
    {a a' : α} (ha : l[i]? = some a) (ha' : l[j]? = some a') {b : β} (hb : b ∈ f a) (hb' : b ∈ f a') :
    i = j := by
  have hapart := (List.nodup_flatMap.mp h).2
  obtain ⟨hi, rfl⟩ := List.getElem?_eq_some_iff.mp ha
  obtain ⟨hj, rfl⟩ := List.getElem?_eq_some_iff.mp ha'
  rcases Nat.lt_trichotomy i j with hlt | heq | hlt
  · exact absurd hb' (List.pairwise_iff_getElem.mp hapart i j hi hj hlt hb)
  · exact heq
  · exact absurd hb (List.pairwise_iff_getElem.mp hapart j i hj hi hlt hb')

/-- **Without blocks ahead, a read fetches what it has claimed.** -/
theorem Read.Right.fetches {read : Read} (h : read.Right D) (hahead : read.readahead = 0) {mine theirs : List ℕ}
    {requests : List Request} {issued : ℕ} (hphase : read.phase = .fetch mine theirs requests issued) :
    (requests.map Request.run).flatMap Run.blocks = read.phase.held := by
  have hopen := h.opened (by rw [hphase]; nofun)
  have hright := h.phase
  rw [hphase] at hright ⊢
  obtain ⟨hmine, hplan, -⟩ := hright
  rw [hplan, hahead]
  refine flatMap_blocks_plan fun i hi => ?_
  refine Nat.lt_of_lt_of_le (Nat.lt_succ_of_le (hmine i hi)) ?_
  rw [Nat.le_div_iff_mul_le D.blockSize_pos, Nat.succ_mul]
  have hlast := hopen.last_mul_lt
  grind [Open.inside]

/-- **At most one request for a block is on its way.** -/
theorem Inv.outstanding_unique (h : Inv D s) {r r' : ℕ} {read read' : Read} (hread : s.reads r = some read)
    (hread' : s.reads r' = some read') (hahead : read.readahead = 0) (hahead' : read'.readahead = 0)
    (hfile : read.fileKey D = read'.fileKey D) {i i' : ℕ} {run run' : Run} (hi : read.Outstanding i run)
    (hi' : read'.Outstanding i' run') {index : ℕ} (hindex : index ∈ run.blocks) (hindex' : index ∈ run'.blocks) :
    r = r' ∧ i = i' := by
  obtain ⟨mine, theirs, requests, issued, hphase, -, hrequest⟩ := hi
  obtain ⟨mine', theirs', requests', issued', hphase', -, hrequest'⟩ := hi'
  have hrun : (requests.map Request.run)[i]? = some run := by rw [List.getElem?_map, hrequest]; rfl
  have hrun' : (requests'.map Request.run)[i']? = some run' := by rw [List.getElem?_map, hrequest']; rfl
  have hfetches := (h.hands r read hread).fetches hahead hphase
  have hfetches' := (h.hands r' read' hread').fetches hahead' hphase'
  have hheld : index ∈ read.phase.held :=
    hfetches ▸ List.mem_flatMap.mpr ⟨run, List.mem_of_getElem? hrun, hindex⟩
  have hheld' : index ∈ read'.phase.held :=
    hfetches' ▸ List.mem_flatMap.mpr ⟨run', List.mem_of_getElem? hrun', hindex'⟩
  have hsame : r = r' := by
    by_contra hne
    refine h.apart r r' read read' hread hread' hne (read.fileKey D, index) (List.mem_map_of_mem hheld) ?_
    rw [hfile]
    exact List.mem_map_of_mem hheld'
  subst hsame
  obtain rfl := Option.some.inj (hread.symm.trans hread')
  refine ⟨rfl, ?_⟩
  cases hphase.symm.trans hphase'
  exact eq_of_nodup_flatMap (hfetches ▸ h.nodup r read hread) hrun hrun' hindex hindex'

end Machine

/-- **A cache that starts**: nothing is in memory, nobody reads, and a file is missing or holds what was
written to it, the object's bytes at the offset of the block. -/
structure Start (s : State) : Prop where
  memory : ∀ shard, s.node.memory shard = []
  disk : ∀ key data, s.node.disk (blockRelativePath key) = some data → data = D.block key
  inflight : s.node.inflight = []
  reads : ∀ r, s.reads r = none

theorem inv_of_start {s : State} (h : Start D s) : Inv D s where
  tiers := ⟨fun shard e he => absurd (h.memory shard ▸ he) List.not_mem_nil, h.disk⟩
  hands r read hread := by rw [h.reads r] at hread; cases hread
  nodup r read hread := by rw [h.reads r] at hread; cases hread
  claimed r read hread := by rw [h.reads r] at hread; cases hread
  apart r _ read _ hread := by rw [h.reads r] at hread; cases hread

/-- **The block cache is coherent.**  For any files, block size, budgets, shards and numbers of blocks
ahead, in any interleaving of any number of reads with evictions, lost files and operations and requests
that fail: a read that succeeds returns the object's bytes of its range; a block in memory or on disk holds
the object's bytes at its offset; and of the reads without blocks ahead, at most one has a request on its
way that covers a block, and it has one such request. -/
theorem block_cache_coherent {D : Directories} {s₀ s : State} {as : List Action} (hstart : Start D s₀)
    (hrun : Runs.run (step D) s₀ as = some s) :
    (∀ r read bytes, s.reads r = some read → read.phase = .done (.ok bytes) →
      read.start ≤ read.stop ∧ read.stop ≤ (read.file D).span.len ∧
      bytes = (read.file D).objectBytes read.start read.stop) ∧
    ((∀ shard, ∀ e ∈ s.node.memory shard, e.2 = D.block e.1) ∧
      ∀ key data, s.node.disk (blockRelativePath key) = some data → data = D.block key) ∧
    ∀ r r' read read' i i' run run' index, s.reads r = some read → s.reads r' = some read' →
      read.readahead = 0 → read'.readahead = 0 → read.fileKey D = read'.fileKey D →
      read.Outstanding i run → read'.Outstanding i' run' → index ∈ run.blocks → index ∈ run'.blocks →
      r = r' ∧ i = i' := by
  have hinv : Inv D s := Runs.run_invariant_always (step D) (fun _ _ _ hinv hstep => inv_step hinv hstep)
    (inv_of_start D hstart) hrun
  refine ⟨?_, ⟨hinv.tiers.memory, hinv.tiers.disk⟩, ?_⟩
  · intro r read bytes hread hdone
    exact (hinv.hands r read hread).returns bytes hdone
  · intro r r' read read' i i' run run' index hread hread' hahead hahead' hfile hi hi' hindex hindex'
    exact hinv.outstanding_unique hread hread' hahead hahead' hfile hi hi' hindex hindex'

/-- A file of nine bytes, in blocks of four; the disk has room for one block, a shard for two. -/
def nineBytes : Directories where
  blockSize := 4
  blockSize_pos := Nat.succ_pos 3
  diskBytes := some 6
  memoryShardBytes := 8
  memoryShard _ := 0
  file _ := ⟨"splits/s", "a", [0, 1, 2, 3, 4, 5, 6, 7, 8, 9], ⟨1, 9⟩, Nat.le_refl 10⟩
  handle _ := ⟨"s/a", 0⟩

def emptyCache : State where
  node := ⟨fun _ => [], [], fun _ => none, [], fun _ => none⟩
  reads _ := none

/-- A read moves on, several times. -/
def advances (r n : ℕ) : List Action := List.replicate n (.move r .advance)

/-- One read fetches the range from the third byte on.  Another waits for its first block, which is evicted
from both tiers before the second pass, and asks the storage again. -/
def twoReads : List Action :=
  .begin 0 0 2 9 :: advances 0 8 ++ .begin 1 0 0 4 :: advances 1 5 ++
    .move 0 .issue :: .move 0 (.answer 0 [1, 2, 3, 4, 5, 6, 7, 8, 9]) :: advances 0 17 ++ advances 1 5 ++
    [.move 1 .issue]

/-- The first read returns the bytes of the object. -/
theorem block_cache_coherent_nineBytes :
    ∃ s read, Runs.run (step nineBytes) emptyCache twoReads = some s ∧ s.reads 0 = some read ∧
      read.phase = .done (.ok [3, 4, 5, 6, 7, 8, 9]) ∧
      [3, 4, 5, 6, 7, 8, 9] = (read.file nineBytes).objectBytes read.start read.stop := by
  have hstart : Start nineBytes emptyCache := ⟨fun _ => rfl, nofun, rfl, fun _ => rfl⟩
  have hphase : ((Runs.run (step nineBytes) emptyCache twoReads).bind fun s => (s.reads 0).map Read.phase)
      = some (.done (.ok [3, 4, 5, 6, 7, 8, 9])) := by decide +kernel
  obtain ⟨s, hrun, hread⟩ := Option.bind_eq_some_iff.mp hphase
  obtain ⟨read, hread, hdone⟩ := Option.map_eq_some_iff.mp hread
  exact ⟨s, read, hrun, hread, hdone,
    ((block_cache_coherent hstart hrun).1 0 read _ hread hdone).2.2⟩

end RSearch.StorageDirectory
