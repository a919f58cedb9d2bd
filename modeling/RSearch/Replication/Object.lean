import RSearch.Cluster.Nodes

/-!
# One object of the replicated backend

The metastore keeps in `object_locations` which nodes hold which key.  An object is immutable, so the
state is that of one key: the nodes with a file under it and those with a placement row for it.  The two
are written apart, file first.
-/

namespace RSearch.Replication

open AList

abbrev Bytes := List UInt8

structure Object where
  files : AList fun _ : String => Bytes
  rows : AList fun _ : String => ℕ

namespace Object

def absent : Object := ⟨∅, ∅⟩

def store (o : Object) (node : String) (data : Bytes) : Object :=
  { o with files := o.files.insert node data }

def deleteFile (o : Object) (node : String) : Object := { o with files := o.files.erase node }

def recordLocation (o : Object) (node : String) (size : ℕ) : Object :=
  { o with rows := o.rows.insert node size }

/-- `record_object_location_if_known`: nothing when no row of the key exists, else whether the row is
a new one. -/
def recordLocationIfKnown (o : Object) (node : String) (size : ℕ) : Option Bool × Object :=
  if o.rows.keys = [] then (none, o)
  else (some (decide (node ∉ o.rows)), o.recordLocation node size)

def removeLocation (o : Object) (node : String) : Object := { o with rows := o.rows.erase node }

def removeLocations (o : Object) : Object := { o with rows := ∅ }

def HeldBy (o : Object) (data : Bytes) (node : String) : Prop :=
  o.files.lookup node = some data ∧ node ∈ o.rows

instance (o : Object) (data : Bytes) (node : String) : Decidable (o.HeldBy data node) :=
  inferInstanceAs (Decidable (_ ∧ _))

def holders (o : Object) (data : Bytes) : List String :=
  o.files.keys.filter fun n => decide (o.HeldBy data n)

def HeldByAtLeast (o : Object) (data : Bytes) (count : ℕ) : Prop :=
  ∃ nodes : List String, nodes.Nodup ∧ count ≤ nodes.length ∧ ∀ n ∈ nodes, o.HeldBy data n

def Absent (o : Object) : Prop := ∀ n, n ∉ o.files ∧ n ∉ o.rows

section

variable {o : Object} {data : Bytes} {node n : String} {size : ℕ}

@[simp] theorem rows_removeLocation : (o.removeLocation node).rows = o.rows.erase node := rfl

theorem lookup_store : (o.store node data).files.lookup node = some data := lookup_insert _

theorem lookup_store_of_lookup (h : o.files.lookup n = some data) :
    (o.store node data).files.lookup n = some data := by
  by_cases hn : n = node
  · rw [hn]
    exact lookup_store
  · rw [store, lookup_insert_ne hn]
    exact h

theorem HeldBy.store (h : o.HeldBy data n) : (o.store node data).HeldBy data n :=
  ⟨lookup_store_of_lookup h.1, h.2⟩

theorem HeldBy.recordLocation (h : o.HeldBy data n) : (o.recordLocation node size).HeldBy data n :=
  ⟨h.1, (mem_insert _).mpr (.inr h.2)⟩

theorem heldBy_recordLocation (h : o.files.lookup node = some data) :
    (o.recordLocation node size).HeldBy data node :=
  ⟨h, (mem_insert _).mpr (.inl rfl)⟩

theorem mem_holders : n ∈ o.holders data ↔ o.HeldBy data n := by
  rw [holders, List.mem_filter, decide_eq_true_eq, and_iff_right_iff_imp]
  intro h
  exact mem_keys.mpr (lookup_isSome.mp (by rw [h.1]; rfl))

theorem heldByAtLeast_iff {count : ℕ} :
    o.HeldByAtLeast data count ↔ count ≤ (o.holders data).length := by
  constructor
  · rintro ⟨nodes, hnodup, hcount, hheld⟩
    exact hcount.trans (hnodup.subperm fun n hn => mem_holders.mpr (hheld n hn)).length_le
  · intro h
    exact ⟨o.holders data, o.files.keys_nodup.filter _, h, fun n hn => mem_holders.mp hn⟩

instance {count : ℕ} : Decidable (o.HeldByAtLeast data count) :=
  decidable_of_iff _ heldByAtLeast_iff.symm

theorem absent_absent : absent.Absent :=
  fun _ => ⟨notMem_empty _, notMem_empty _⟩

end

end Object

/-! ### The quorum -/

structure StorageConfig where
  replicationFactor : ℕ
  writeQuorum : ℕ

/-- Copies required before a write is acknowledged: the configured quorum clamped to the replication
factor, with 0 meaning `min 2 replicationFactor`. -/
def StorageConfig.effectiveWriteQuorum (config : StorageConfig) : ℕ :=
  let quorum :=
    if config.writeQuorum = 0 then min config.replicationFactor 2 else config.writeQuorum
  max (min quorum config.replicationFactor) 1

structure ReplicatedStorage where
  nodeId : String
  replicationFactor : ℕ
  writeQuorum : ℕ

namespace ReplicatedStorage

def ofConfig (nodeId : String) (config : StorageConfig) : ReplicatedStorage :=
  ⟨nodeId, config.replicationFactor, config.effectiveWriteQuorum⟩

def needed (storage : ReplicatedStorage) : ℕ := storage.replicationFactor - 1

def quorum (storage : ReplicatedStorage) : ℕ :=
  max (min storage.writeQuorum storage.replicationFactor) 1

theorem quorum_ofConfig (nodeId : String) (config : StorageConfig) :
    (ofConfig nodeId config).quorum = config.effectiveWriteQuorum := by
  simp only [quorum, ofConfig, StorageConfig.effectiveWriteQuorum]
  omega

end ReplicatedStorage

end RSearch.Replication
