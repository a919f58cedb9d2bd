import RSearch.Index.Date

/-!
# The sequence clock

Write sequences come from a hybrid logical clock.  A stamp is a slot of 1024 sequences, the
microseconds of the wall clock, plus the node's salt inside the slot; it is forced past everything
the clock has stamped or observed, and saturates at the top of the 64-bit range.
-/

namespace RSearch.Bulk

open List
open Index (i64Max)

def slotSize : ℤ := 1024

def slotMax : ℤ := i64Max / slotSize

/-- A node's clock: the last stamp it gave or saw, and its own offset within a slot. -/
structure SeqClock where
  last : ℤ
  salt : ℤ
  last_nonneg : 0 ≤ last
  salt_mem : 0 ≤ salt ∧ salt < slotSize

namespace SeqClock

def observe (c : SeqClock) (seen : ℤ) : SeqClock :=
  { c with last := max c.last seen, last_nonneg := le_max_of_le_left c.last_nonneg }

def observeAll (c : SeqClock) (seen : List ℤ) : SeqClock := seen.foldl observe c

def stampAfter (c : SeqClock) (last : ℤ) : ℤ :=
  if slotMax < last / slotSize + 1 then i64Max else (last / slotSize + 1) * slotSize + c.salt

def now (c : SeqClock) (micros : ℤ) : ℤ := max 0 (min micros slotMax) * slotSize + c.salt

/-- The wall clock's stamp, or the first one of a later slot than the last stamp's. -/
def nextStamp (c : SeqClock) (micros : ℤ) : ℤ := max (c.now micros) (c.stampAfter c.last)

theorem nextStamp_nonneg (c : SeqClock) (micros : ℤ) : 0 ≤ c.nextStamp micros := by
  have h := c.salt_mem.1
  refine le_max_of_le_left ?_
  unfold now slotSize
  omega

def tick (c : SeqClock) (micros : ℤ) : SeqClock :=
  { c with last := c.nextStamp micros, last_nonneg := c.nextStamp_nonneg micros }

theorem observeAll_last (c : SeqClock) (seen : List ℤ) :
    (c.observeAll seen).last = seen.foldl max c.last := by
  induction seen generalizing c with
  | nil => rfl
  | cons s seen ih => exact ih (c.observe s)

theorem observeAll_salt (c : SeqClock) (seen : List ℤ) : (c.observeAll seen).salt = c.salt := by
  induction seen generalizing c with
  | nil => rfl
  | cons s seen ih => exact ih (c.observe s)

end SeqClock

/-- What a request does not decide about its stamps: the wall clock's readings, and how far the
node's other requests have pushed the clock by then. -/
structure Pace where
  wall : Nat → ℤ
  others : Nat → ℤ

def stamps (pace : Pace) : SeqClock → Nat → Nat → List ℤ
  | _, _, 0 => []
  | c, k, n + 1 =>
    (c.observe (pace.others k)).nextStamp (pace.wall k) ::
      stamps pace ((c.observe (pace.others k)).tick (pace.wall k)) (k + 1) n

/-! ### Which bounds a stamp is above -/

/-- **What carries the `i`-th stamp above a bound.**  The slot of the bound, counted from the node's salt, is
below that of the stamp: because of what the clock had stamped or observed before, or because of another
request of the node or the wall clock's reading at this stamp or one before it.  Each stamp in between moves
the clock by one slot.  No stamp is above the greatest number of 64 bits. -/
def Reached (pace : Pace) (c : SeqClock) (k i : ℕ) (b : ℤ) : Prop :=
  b < i64Max ∧ ((b - c.salt) / slotSize ≤ c.last / slotSize + i ∨ ∃ j < i + 1,
    (b - c.salt) / slotSize ≤ pace.others (k + j) / slotSize + (i - j) ∨
      (b - c.salt) / slotSize < max 0 (min (pace.wall (k + j)) slotMax) + (i - j))

theorem lt_nextStamp_iff (c : SeqClock) (micros : ℤ) {b : ℤ} : b < c.nextStamp micros ↔
    b < i64Max ∧ ((b - c.salt) / slotSize ≤ c.last / slotSize ∨
      (b - c.salt) / slotSize < max 0 (min micros slotMax)) := by
  have hsalt := c.salt_mem
  unfold SeqClock.nextStamp SeqClock.now SeqClock.stampAfter slotMax slotSize i64Max at *
  split <;> omega

/-- After a stamp the clock is a slot further, up to the last slot. -/
theorem le_nextStamp_div_iff (c : SeqClock) (micros : ℤ) {β n : ℤ} (hn : 0 ≤ n) (hβ : β ≤ slotMax) :
    β ≤ c.nextStamp micros / slotSize + n ↔
      β ≤ c.last / slotSize + (n + 1) ∨ β < max 0 (min micros slotMax) + (n + 1) := by
  have hsalt := c.salt_mem
  unfold SeqClock.nextStamp SeqClock.now SeqClock.stampAfter slotMax slotSize i64Max at *
  split <;> omega

theorem lt_stamps_iff {pace : Pace} {c : SeqClock} {k i n : ℕ} {b : ℤ} (hi : i < n) :
    b < (stamps pace c k n).getD i 0 ↔ Reached pace c k i b := by
  have hobserved : ∀ (c : SeqClock) (k : ℕ) (β m : ℤ), β ≤ (c.observe (pace.others k)).last / slotSize + m ↔
      β ≤ c.last / slotSize + m ∨ β ≤ pace.others k / slotSize + m := by
    intro c k β m
    unfold SeqClock.observe slotSize
    dsimp only
    omega
  induction n generalizing c k i with
  | zero => omega
  | succ n ih =>
    cases i with
    | zero =>
      have hfirst := hobserved c k ((b - c.salt) / slotSize) 0
      simp only [add_zero] at hfirst
      rw [stamps, getD_cons_zero, lt_nextStamp_iff, Reached]
      change b < i64Max ∧ ((b - c.salt) / slotSize ≤ _ ∨ _) ↔ _
      rw [hfirst]
      simp only [Nat.cast_zero, add_zero, zero_add, Nat.lt_one_iff, exists_eq_left, sub_zero, or_assoc]
      rfl
    | succ i =>
      have hrest := @ih ((c.observe (pace.others k)).tick (pace.wall k)) (k + 1) i (by omega)
      refine hrest.trans ?_
      rw [Reached, Reached, Nat.exists_lt_succ_left (n := i + 1)]
      refine and_congr_right fun hb => ?_
      have hβ : (b - c.salt) / slotSize ≤ slotMax := by
        have := c.salt_mem
        unfold slotMax slotSize i64Max at *
        omega
      have hlast := le_nextStamp_div_iff (c.observe (pace.others k)) (pace.wall k) (Int.natCast_nonneg i) hβ
      rw [hobserved] at hlast
      change ((b - c.salt) / slotSize ≤ (c.observe (pace.others k)).nextStamp (pace.wall k) / slotSize + i ∨ _) ↔ _
      rw [hlast, or_assoc, or_assoc, or_assoc]
      have hshift : ∀ j, k + 1 + j = k + (j + 1) := fun j => by omega
      simp only [hshift, Nat.cast_add, Nat.cast_one, add_zero, Nat.cast_zero, sub_zero, add_sub_add_right_eq_sub]
      rfl
def stillPace : Pace := ⟨fun _ => 0, fun _ => 0⟩

def freshClock : SeqClock := ⟨0, 0, le_rfl, by decide⟩

end RSearch.Bulk
