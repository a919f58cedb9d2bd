import Mathlib

/-!
# The registry of nodes

Every node upserts its row of the `nodes` table on a heartbeat: its roles, the address its peers dial
and the time.  Readers see the age of each heartbeat and decide what is stale.
-/

namespace RSearch.Cluster

open List

structure NodeRecord where
  id : String
  roles : List String
  address : Option String
  draining : Bool
  heartbeatAgeMillis : ℕ
  deriving DecidableEq

structure Nodes where
  rows : List NodeRecord
  uniqueIds : (rows.map NodeRecord.id).Nodup

def Nodes.setNodeDraining (nodes : Nodes) (id : String) (draining : Bool) : Nodes where
  rows := nodes.rows.map fun n => if n.id = id then { n with draining } else n
  uniqueIds := by
    have hids : NodeRecord.id ∘ (fun n => if n.id = id then { n with draining } else n) =
        NodeRecord.id := by
      funext n
      by_cases h : n.id = id <;> simp [h]
    rw [map_map, hids]
    exact nodes.uniqueIds

/-- How targets for new copies are ranked: those not draining first, then the fewest bytes held, then
the id. -/
def ranksBefore (held : String → ℕ) (a b : NodeRecord) : Prop :=
  (a.draining = false ∧ b.draining = true) ∨
    a.draining = b.draining ∧ (held a.id < held b.id ∨ held a.id = held b.id ∧ a.id ≤ b.id)

instance (held : String → ℕ) (a b : NodeRecord) : Decidable (ranksBefore held a b) :=
  inferInstanceAs (Decidable (_ ∨ _))

def replicationTargets (nodes : Nodes) (held : String → ℕ) (staleAfterMillis : ℕ)
    (exclude : List String) (limit : ℕ) (includeDraining : Bool) : List NodeRecord :=
  let candidates := nodes.rows.filter fun n =>
    decide (n.heartbeatAgeMillis < staleAfterMillis) && decide (n.id ∉ exclude) &&
      (!n.draining || includeDraining)
  (candidates.insertionSort (ranksBefore held)).take limit

theorem of_mem_replicationTargets {nodes : Nodes} {held : String → ℕ} {staleAfterMillis : ℕ}
    {exclude : List String} {limit : ℕ} {includeDraining : Bool} {n : NodeRecord}
    (h : n ∈ replicationTargets nodes held staleAfterMillis exclude limit includeDraining) :
    n ∈ nodes.rows ∧ n.heartbeatAgeMillis < staleAfterMillis ∧ n.id ∉ exclude ∧
      (includeDraining = false → n.draining = false) := by
  have hmem := mem_of_mem_take h
  rw [mem_insertionSort, mem_filter] at hmem
  simp only [Bool.and_eq_true, decide_eq_true_eq, Bool.or_eq_true, Bool.not_eq_true'] at hmem
  obtain ⟨hrow, ⟨hlive, hout⟩, hdraining⟩ := hmem
  refine ⟨hrow, hlive, hout, fun hexcluded => ?_⟩
  exact hdraining.resolve_right (by simp [hexcluded])

theorem nodup_replicationTargets (nodes : Nodes) (held : String → ℕ) (staleAfterMillis : ℕ)
    (exclude : List String) (limit : ℕ) (includeDraining : Bool) :
    ((replicationTargets nodes held staleAfterMillis exclude limit includeDraining).map
      NodeRecord.id).Nodup := by
  refine (Sublist.map _ (take_sublist _ _)).nodup ?_
  refine ((perm_insertionSort _ _).map _).nodup_iff.mpr ?_
  exact (Sublist.map _ filter_sublist).nodup nodes.uniqueIds

end RSearch.Cluster
