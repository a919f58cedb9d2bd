import Mathlib

/-!
# Lists in blocks

A list is cut into blocks of one size, the last of which may be short.  `slice a b l` are the entries from
position `a` up to, not including, position `b`; `block size i l` is the slice of the `i`-th block.

## Main results

* `slice_append`, `slice_slice` — slices that meet make up a slice, and a slice of a slice is a slice.
* `block_slice` — cutting a slice of whole blocks gives the blocks of the list.
* `flatMap_slice`, `flatMap_block` — what a range has of each block, one after the other, is the range;
  the blocks are the list.
-/

namespace Blocks

variable {α : Type*} {l : List α} {a b c a' b' size first start stop k n : ℕ}

/-- The entries from one position up to another. -/
def slice (a b : ℕ) (l : List α) : List α := (l.take b).drop a

/-- The block of an index. -/
def block (size i : ℕ) (l : List α) : List α := slice (i * size) ((i + 1) * size) l

@[simp] theorem length_slice : (slice a b l).length = min b l.length - a := by
  simp [slice]

theorem slice_append (hab : a ≤ b) (hbc : b ≤ c) : slice a b l ++ slice b c l = slice a c l := by
  have htake : l.take b = (l.take c).take b := by rw [List.take_take, min_eq_left hbc]
  have hdrop : (l.take c).drop a = ((l.take c).drop a).take (b - a) ++ ((l.take c).drop a).drop (b - a) :=
    (List.take_append_drop _ _).symm
  rw [slice, slice, slice, hdrop, htake, List.drop_take, List.drop_drop, Nat.add_sub_cancel' hab]

theorem slice_slice : slice a' b' (slice a b l) = slice (a + a') (min (a + b') b) l := by
  rw [slice, slice, slice, List.take_drop, List.drop_drop, List.take_take]

/-- Nothing is after the end. -/
theorem slice_min_length : slice a (min b l.length) l = slice a b l := by
  rw [slice, slice, ← List.take_take, List.take_length]

/-- **The blocks of a slice of whole blocks are blocks of the list.** -/
theorem block_slice (h : start + k < stop) :
    block size k (slice (start * size) (stop * size) l) = block size (start + k) l := by
  have hend : start * size + (k + 1) * size ≤ stop * size := by
    rw [← Nat.add_mul]
    exact Nat.mul_le_mul_right size h
  rw [block, slice_slice, min_eq_left hend, ← Nat.add_mul, ← Nat.add_mul]
  rfl

/-- **What a range has of each block, one after the other.**  The range starts in the first block. -/
theorem flatMap_slice (hfirst : first * size ≤ a) (ha : a < (first + 1) * size) (n : ℕ) :
    ((List.range (n + 1)).flatMap fun k =>
        slice (max a ((first + k) * size)) (min b ((first + k + 1) * size)) l) =
      slice a (min b ((first + n + 1) * size)) l := by
  induction n with
  | zero => simp [hfirst]
  | succ n ih =>
      have hmul : (first + 1) * size ≤ (first + n + 1) * size := Nat.mul_le_mul_right size (by omega)
      have hnext : (first + n + 1) * size ≤ (first + n + 1 + 1) * size :=
        Nat.mul_le_mul_right size (by omega)
      rw [List.range_succ, List.flatMap_append, ih, List.flatMap_cons, List.flatMap_nil, List.append_nil,
        ← Nat.add_assoc first n 1, max_eq_right (ha.le.trans hmul)]
      rcases Nat.le_total b ((first + n + 1) * size) with hb | hb
      · -- the range ends before this block
        have hempty : slice ((first + n + 1) * size) (min b ((first + n + 1 + 1) * size)) l = [] := by
          refine List.eq_nil_of_length_eq_zero ?_
          rw [length_slice]
          omega
        rw [hempty, List.append_nil, min_eq_left hb, min_eq_left (hb.trans hnext)]
      · rw [min_eq_right hb]
        exact slice_append (ha.le.trans hmul) (le_min hb hnext)

/-- **The blocks of a list, one after the other.** -/
theorem flatMap_block (hsize : 0 < size) :
    ((List.range ((l.length + size - 1) / size)).flatMap fun k => block size k l) = l := by
  rcases Nat.eq_zero_or_pos l.length with hzero | hpos
  · rw [hzero, Nat.zero_add, Nat.div_eq_of_lt (by omega), List.eq_nil_of_length_eq_zero hzero]
    rfl
  · obtain ⟨n, hn⟩ : ∃ n, (l.length + size - 1) / size = n + 1 :=
      Nat.exists_eq_add_one.mpr (Nat.div_pos (by omega) hsize)
    have hend : l.length ≤ (0 + n + 1) * size := by
      have hlt := Nat.lt_mul_of_div_lt (hn.trans_lt (Nat.lt_succ_self (n + 1))) hsize
      rw [Nat.succ_mul] at hlt
      rw [Nat.zero_add]
      omega
    have hwhole : slice 0 (min l.length ((0 + n + 1) * size)) l = l := by
      rw [min_eq_left hend, slice, List.take_length, List.drop_zero]
    have hblock : ∀ k, block size k l
        = slice (max 0 ((0 + k) * size)) (min l.length ((0 + k + 1) * size)) l := by
      intro k
      rw [Nat.zero_add, Nat.zero_max, min_comm, slice_min_length]
      rfl
    simp only [hn, hblock]
    rw [flatMap_slice (by omega) (by omega), hwhole]

theorem slice_range' (s n : ℕ) : slice a b (List.range' s n) = List.range' (s + a) (min b n - a) := by
  refine List.ext_getElem (by simp [slice]) fun i _ _ => ?_
  simp [slice, Nat.add_assoc]

end Blocks
