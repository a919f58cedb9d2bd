import Mathlib

/-!
# Sums over a list with unique keys

A sum over the rows with a given key has at most one term (`sum_ite_key_eq`), and a sum over the rows
whose key occurs in a duplicate-free list can be read off that list (`sum_ite_key_mem`).  Together they
account for an update that moves weight between rows.
-/

namespace KeyedSum

open List

universe u v w

variable {ι : Type u} {η : Type v} {κ : Type w} [DecidableEq κ] (key : ι → κ)

variable {xs : List ι}

theorem sum_ite_key_of_notMem {k : κ} (hk : k ∉ xs.map key) (f : ι → ℕ) :
    (xs.map fun x => if key x = k then f x else 0).sum = 0 := by
  refine sum_eq_zero fun n hn => ?_
  obtain ⟨x, hx, rfl⟩ := mem_map.mp hn
  have hne : key x ≠ k := by
    rintro rfl
    exact hk (mem_map_of_mem hx)
  rw [if_neg hne]

theorem sum_ite_key_eq (hnodup : (xs.map key).Nodup) {x : ι} (hx : x ∈ xs) (f : ι → ℕ) :
    (xs.map fun y => if key y = key x then f y else 0).sum = f x := by
  induction xs with
  | nil => exact absurd hx not_mem_nil
  | cons a xs ih =>
    rw [map_cons, nodup_cons] at hnodup
    rw [map_cons, sum_cons]
    rcases mem_cons.mp hx with rfl | hx
    · rw [if_pos rfl, sum_ite_key_of_notMem key hnodup.1, Nat.add_zero]
    · have hne : key a ≠ key x := by
        intro heq
        exact hnodup.1 (heq ▸ mem_map_of_mem hx)
      rw [if_neg hne, ih hnodup.2 hx, Nat.zero_add]

theorem sum_ite_key_mem (hnodup : (xs.map key).Nodup) (f : ι → ℕ) (key' : η → κ) (g : η → ℕ)
    {ys : List η} (hys : (ys.map key').Nodup) (hmatch : ∀ y ∈ ys, ∃ x ∈ xs, key x = key' y ∧ f x = g y) :
    (xs.map fun x => if key x ∈ ys.map key' then f x else 0).sum = (ys.map g).sum := by
  induction ys with
  | nil => simp
  | cons y ys ih =>
    rw [map_cons, nodup_cons] at hys
    obtain ⟨x, hx, hkey, hweight⟩ := hmatch y mem_cons_self
    have hrest := ih hys.2 fun z hz => hmatch z (mem_cons_of_mem y hz)
    have hsplit : ∀ z ∈ xs, (if key z ∈ (y :: ys).map key' then f z else 0) =
          (if key z = key x then f z else 0) +
            (if key z ∈ ys.map key' then f z else 0) := by
      intro z _
      by_cases hz : key z = key x
      · have hnot : key z ∉ ys.map key' := by
          rw [hz, hkey]
          exact hys.1
        have hmem : key z ∈ (y :: ys).map key' := by
          rw [hz, hkey]
          exact mem_cons_self
        rw [if_pos hmem, if_pos hz, if_neg hnot, Nat.add_zero]
      · have hiff : key z ∈ (y :: ys).map key' ↔ key z ∈ ys.map key' := by
          rw [map_cons, mem_cons, ← hkey, or_iff_right hz]
        simp only [hiff, if_neg hz, Nat.zero_add]
    rw [map_congr_left hsplit, sum_map_add, hrest, sum_ite_key_eq key hnodup hx, hweight, map_cons, sum_cons]

end KeyedSum
