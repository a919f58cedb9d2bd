import RSearch.Lib.Blocks
import RSearch.Index.Bundle

/-!
# The split cache

A node caches the files of split objects in aligned blocks: in memory, in sixteen shards, and as one file
a block below a root directory.  Each tier drops what was least recently used when it is over its budget.
A reader that is about to fetch blocks claims them first, so that no other reader fetches them meanwhile.

Nothing here happens at once.  A lookup asks the memory, then the entries of the disk tier, then reads the
file outside of any lock; a block is written, then registered, and what that evicts is unlinked after the
lock is released, when another reader may have written it anew.  The functions of this module are the
single steps, each under one lock or with one call of the file system.

The recency of a block is its place in a list, least recently used first: the order of the ticks.

## Main results

* `blockRelativePath_injective` — two blocks never share a file.
* `Node.Right` — **every block of a tier holds the object's bytes at its place**; the lemmas say that each
  step keeps this (`right_insertMemory`, `right_writeFile`, `right_unlink`).
* `claim_spec` — a claim takes what nobody has claimed.
-/

namespace RSearch.SplitCache

open RSearch.Bundle (FileSpan getRange)
open Blocks (slice)

/-! ### Files and blocks -/

/-- A bundled file of a split: the object it is in, and its place there. -/
structure File where
  /-- The key of the object in the storage. -/
  key : String
  name : String
  object : Bytes
  span : FileSpan
  inside : span.offset + span.len ≤ object.length

/-- The bytes of the file. -/
def File.content (file : File) : Bytes := file.span.read file.object

/-- **The object's bytes for a range of the file.** -/
def File.objectBytes (file : File) (start stop : ℕ) : Bytes :=
  getRange file.object (file.span.offset + start) (file.span.offset + stop)

/-- The file, as `split/name`, and the index of a block. -/
abbrev BlockKey := String × ℕ

/-- Where a block lives on disk. -/
def blockRelativePath (key : BlockKey) : String :=
  key.1 ++ ".b" ++ String.ofList (Nat.toDigits 10 key.2)

/-- The length of a block: that of a file's last is short. -/
def blockLen (len blockSize index : ℕ) : ℕ := min (len - index * blockSize) blockSize

/-- The options of a cache, how keys are spread over the shards, and the files behind the keys. -/
structure Setup where
  blockSize : ℕ
  blockSize_pos : 0 < blockSize
  /-- The budget of the disk tier, if there is one. -/
  diskBytes : Option ℕ
  memoryShardBytes : ℕ
  memoryShard : BlockKey → Fin 16
  file : String → File

/-- **What a block is to hold**: the object's bytes at its offset. -/
def Setup.block (S : Setup) (key : BlockKey) : Bytes :=
  (S.file key.1).objectBytes (key.2 * S.blockSize) (min ((key.2 + 1) * S.blockSize) (S.file key.1).span.len)

section Files

variable {file : File}

theorem File.length_content : file.content.length = file.span.len := by
  have hinside := file.inside
  simp only [File.content, FileSpan.read, getRange, List.length_drop, List.length_take]
  omega

theorem File.objectBytes_eq {start stop : ℕ} (hstop : stop ≤ file.span.len) :
    file.objectBytes start stop = slice start stop file.content := by
  have hslice : file.content = slice file.span.offset (file.span.offset + file.span.len) file.object := rfl
  rw [hslice, Blocks.slice_slice, min_eq_left (Nat.add_le_add_left hstop _)]
  rfl

theorem Setup.block_eq (S : Setup) (key : BlockKey) :
    S.block key = Blocks.block S.blockSize key.2 (S.file key.1).content := by
  rw [Setup.block, File.objectBytes_eq (min_le_right _ _), ← File.length_content, Blocks.slice_min_length]
  rfl

end Files

/-- **Two blocks never share a file.**  The digits after the last `.b` are the index. -/
theorem blockRelativePath_injective : Function.Injective blockRelativePath := by
  rintro ⟨file, index⟩ ⟨file', index'⟩ h
  have hdigits : ∀ n, ∀ c ∈ (Nat.toDigits 10 n).reverse, c.isDigit = true := fun n c hc =>
    Nat.isDigit_of_mem_toDigits (by decide) (by decide) (List.mem_reverse.mp hc)
  -- read from the end, the path starts with the digits, and the letter before them is none
  have hpath : ∀ file index, (blockRelativePath (file, index)).toList.reverse
      = (Nat.toDigits 10 index).reverse ++ 'b' :: '.' :: file.toList.reverse := by
    intro file index
    simp [blockRelativePath]
  have hread : ∀ file index, (blockRelativePath (file, index)).toList.reverse.takeWhile Char.isDigit
      = (Nat.toDigits 10 index).reverse := by
    intro file index
    rw [hpath, List.takeWhile_append_of_pos (hdigits index), List.takeWhile_cons_of_neg (by decide),
      List.append_nil]
  have hindex : Nat.toDigits 10 index = Nat.toDigits 10 index' := by
    have hboth := hread file' index'
    rw [← h, hread file index] at hboth
    exact List.reverse_injective hboth
  have hsame : index = index' := by
    have hvalue := congrArg (fun cs => Nat.ofDigitChars 10 cs 0) hindex
    simpa only [Nat.ofDigitChars_ten_toDigits] using hvalue
  subst hsame
  have hfile := hpath file' index
  rw [← h, hpath file index] at hfile
  have htail := List.append_cancel_left hfile
  simp only [List.cons.injEq, true_and] at htail
  rw [String.toList_injective (List.reverse_injective htail)]

/-! ### The tiers -/

/-- **What the readers of a node share**: the shards of the memory, the entries of the disk tier with
their sizes, both least recently used first, the files below the root, the blocks that some reader is
fetching, and the last block that was read through each handle. -/
structure Node where
  memory : Fin 16 → List (BlockKey × Bytes)
  entries : List (BlockKey × ℕ)
  disk : String → Option Bytes
  inflight : List BlockKey
  lastBlock : ℕ → Option ℕ

/-- The entry of a key becomes the most recently used. -/
def refresh {β : Type} (key : BlockKey) (l : List (BlockKey × β)) : List (BlockKey × β) :=
  l.filter (·.1 ≠ key) ++ l.filter (·.1 = key)

/-- The least recently used are dropped until the rest is within the budget. -/
def evictMemory (budget : ℕ) : List (BlockKey × Bytes) → List (BlockKey × Bytes)
  | [] => []
  | e :: es =>
      if budget < ((e :: es).map fun e => e.2.length).sum then evictMemory budget es else e :: es

/-- The entries that stay, and the victims.  The block just written is never evicted. -/
def evictDisk (key : BlockKey) (budget : ℕ) :
    List (BlockKey × ℕ) → List (BlockKey × ℕ) × List BlockKey
  | [] => ([], [])
  | e :: es =>
      if budget < ((e :: es).map Prod.snd).sum then
        if e.1 = key then (e :: es, [])
        else
          let (kept, victims) := evictDisk key budget es
          (kept, e.1 :: victims)
      else (e :: es, [])

namespace Node

/-- The blocks of the shard of a key. -/
def shard (S : Setup) (node : Node) (key : BlockKey) : List (BlockKey × Bytes) :=
  node.memory (S.memoryShard key)

def setShard (S : Setup) (node : Node) (key : BlockKey) (blocks : List (BlockKey × Bytes)) : Node :=
  { node with memory := Function.update node.memory (S.memoryShard key) blocks }

/-- The block in the memory. -/
def getMemory (S : Setup) (node : Node) (key : BlockKey) : Option Bytes := (node.shard S key).lookup key

def touchMemory (S : Setup) (node : Node) (key : BlockKey) : Node :=
  node.setShard S key (refresh key (node.shard S key))

/-- **`insert_memory`.**  A block larger than the budget of a shard is not kept. -/
def insertMemory (S : Setup) (node : Node) (key : BlockKey) (data : Bytes) : Node :=
  if S.memoryShardBytes < data.length then node
  else node.setShard S key
    (evictMemory S.memoryShardBytes ((node.shard S key).filter (·.1 ≠ key) ++ [(key, data)]))

/-- The disk tier holds the block. -/
def Holds (node : Node) (key : BlockKey) : Prop := key ∈ node.entries.map Prod.fst

instance (node : Node) (key : BlockKey) : Decidable (node.Holds key) :=
  inferInstanceAs (Decidable (_ ∈ _))

/-- Some reader is fetching the block. -/
def Claimed (node : Node) (key : BlockKey) : Prop := key ∈ node.inflight

instance (node : Node) (key : BlockKey) : Decidable (node.Claimed key) :=
  inferInstanceAs (Decidable (_ ∈ _))

def touch (node : Node) (key : BlockKey) : Node := { node with entries := refresh key node.entries }

/-- The entry of a block whose file is gone or unreadable. -/
def forget (node : Node) (key : BlockKey) : Node :=
  { node with entries := node.entries.filter (·.1 ≠ key) }

/-- A file is removed. -/
def unlink (node : Node) (key : BlockKey) : Node :=
  { node with disk := Function.update node.disk (blockRelativePath key) none }

/-- A file is written under a temporary name and renamed. -/
def writeFile (node : Node) (key : BlockKey) (data : Bytes) : Node :=
  { node with disk := Function.update node.disk (blockRelativePath key) (some data) }

/-- The entry of a block that was written; what is over the budget is to be unlinked. -/
def register (node : Node) (budget : ℕ) (key : BlockKey) (size : ℕ) : Node × List BlockKey :=
  let (entries, victims) := evictDisk key budget (node.entries.filter (·.1 ≠ key) ++ [(key, size)])
  ({ node with entries }, victims)

/-- **Every block of a tier holds the object's bytes at its place.** -/
structure Right (S : Setup) (node : Node) : Prop where
  memory : ∀ shard, ∀ e ∈ node.memory shard, e.2 = S.block e.1
  disk : ∀ key data, node.disk (blockRelativePath key) = some data → data = S.block key

section Right

variable {S : Setup} {node : Node} {key : BlockKey} {data : Bytes}

theorem right_of_eq {node' : Node} (h : node.Right S) (hmemory : node'.memory = node.memory)
    (hdisk : node'.disk = node.disk) : node'.Right S :=
  ⟨hmemory ▸ h.memory, hdisk ▸ h.disk⟩

theorem mem_of_mem_evictMemory {budget : ℕ} {l : List (BlockKey × Bytes)} {e : BlockKey × Bytes}
    (h : e ∈ evictMemory budget l) : e ∈ l := by
  induction l with
  | nil => exact h
  | cons e' es ih =>
      rw [evictMemory] at h
      split_ifs at h
      · exact List.mem_cons_of_mem e' (ih h)
      · exact h

theorem eq_block_of_getMemory (h : node.Right S) (hget : node.getMemory S key = some data) :
    data = S.block key := by
  obtain ⟨l₁, l₂, hl, -⟩ := List.lookup_eq_some_iff.mp hget
  have hmem : (key, data) ∈ node.shard S key := by
    rw [hl]
    exact List.mem_append_right l₁ List.mem_cons_self
  exact h.memory _ _ hmem

theorem right_setShard (h : node.Right S) (key : BlockKey) {blocks : List (BlockKey × Bytes)}
    (hblocks : ∀ e ∈ blocks, e.2 = S.block e.1) : (node.setShard S key blocks).Right S := by
  refine ⟨fun shard e he => ?_, h.disk⟩
  unfold setShard at he
  by_cases hshard : shard = S.memoryShard key
  · subst hshard
    exact hblocks e (by simpa using he)
  · exact h.memory shard e (by simpa [hshard] using he)

theorem right_touchMemory (h : node.Right S) (key : BlockKey) : (node.touchMemory S key).Right S := by
  refine right_setShard h key fun e he => h.memory (S.memoryShard key) e ?_
  rcases List.mem_append.mp he with he | he
  · exact (List.mem_filter.mp he).1
  · exact (List.mem_filter.mp he).1

theorem right_insertMemory (h : node.Right S) (hdata : data = S.block key) :
    (node.insertMemory S key data).Right S := by
  unfold insertMemory
  split_ifs
  · exact h
  · refine right_setShard h key fun e he => ?_
    rcases List.mem_append.mp (mem_of_mem_evictMemory he) with he | he
    · exact h.memory _ e (List.mem_filter.mp he).1
    · rw [List.mem_singleton.mp he]
      exact hdata

theorem right_unlink (h : node.Right S) (path : String) :
    Right S { node with disk := Function.update node.disk path none } := by
  refine ⟨h.memory, fun key data hdata => ?_⟩
  by_cases hpath : blockRelativePath key = path
  · rw [← hpath] at hdata
    simp at hdata
  · exact h.disk key data (by simpa [hpath] using hdata)

/-- **A block that was fetched is written to its own file.** -/
theorem right_writeFile (h : node.Right S) (hdata : data = S.block key) :
    (node.writeFile key data).Right S := by
  refine ⟨h.memory, fun key' data' hdata' => ?_⟩
  unfold writeFile at hdata'
  by_cases hkey : key' = key
  · subst hkey
    simpa [hdata] using hdata'.symm
  · have hpath : blockRelativePath key' ≠ blockRelativePath key :=
      fun heq => hkey (blockRelativePath_injective heq)
    exact h.disk key' data' (by simpa [hpath] using hdata')

end Right

theorem insertMemory_inflight (S : Setup) (node : Node) (key : BlockKey) (data : Bytes) :
    (node.insertMemory S key data).inflight = node.inflight := by
  unfold insertMemory
  split_ifs
  · rfl
  · rfl

end Node

/-! ### Claims -/

/-- **`claim`**: the indices that nobody is fetching, which are taken, and the others. -/
def claim (file : String) : List ℕ → List BlockKey → List ℕ × List ℕ × List BlockKey
  | [], inflight => ([], [], inflight)
  | i :: indices, inflight =>
      if (file, i) ∈ inflight then
        let (mine, theirs, inflight') := claim file indices inflight
        (mine, i :: theirs, inflight')
      else
        let (mine, theirs, inflight') := claim file indices ((file, i) :: inflight)
        (i :: mine, theirs, inflight')

/-- A claim is dropped. -/
def release (file : String) (mine : List ℕ) (inflight : List BlockKey) : List BlockKey :=
  inflight.filter fun key => ¬ (key.1 = file ∧ key.2 ∈ mine)

theorem mem_release {file : String} {mine : List ℕ} {inflight : List BlockKey} {key : BlockKey} :
    key ∈ release file mine inflight ↔ key ∈ inflight ∧ key ∉ mine.map (file, ·) := by
  obtain ⟨file', i⟩ := key
  rw [release, List.mem_filter, decide_eq_true_eq]
  refine and_congr_right fun _ => not_congr ⟨?_, ?_⟩
  · rintro ⟨rfl, hi⟩
    exact List.mem_map_of_mem hi
  · intro hi
    obtain ⟨j, hj, heq⟩ := List.mem_map.mp hi
    cases heq
    exact ⟨rfl, hj⟩

/-- **A claim takes what nobody has claimed**, each block once, and nothing else changes. -/
theorem claim_spec (file : String) (indices : List ℕ) (inflight : List BlockKey) :
    (claim file indices inflight).1 ⊆ indices ∧ (claim file indices inflight).1.Nodup ∧
    (∀ i ∈ (claim file indices inflight).1, (file, i) ∉ inflight) ∧
    ∀ key, key ∈ (claim file indices inflight).2.2 ↔
      key ∈ inflight ∨ key ∈ (claim file indices inflight).1.map (file, ·) := by
  induction indices generalizing inflight with
  | nil => simp [claim]
  | cons i indices ih =>
      rw [claim]
      split_ifs with htaken
      · obtain ⟨hsub, hnodup, hfree, hmem⟩ := ih inflight
        exact ⟨List.Subset.trans hsub (List.subset_cons_self i indices), hnodup, hfree, hmem⟩
      · obtain ⟨hsub, hnodup, hfree, hmem⟩ := ih ((file, i) :: inflight)
        dsimp only
        refine ⟨?_, ?_, ?_, ?_⟩
        · exact List.cons_subset_cons i hsub
        · exact List.nodup_cons.mpr ⟨fun hi => hfree i hi List.mem_cons_self, hnodup⟩
        · rintro j hj hin
          rcases List.mem_cons.mp hj with rfl | hj
          · exact htaken hin
          · exact hfree j hj (List.mem_cons_of_mem _ hin)
        · intro key
          rw [hmem key, List.mem_cons, List.map_cons, List.mem_cons]
          tauto

end RSearch.SplitCache
