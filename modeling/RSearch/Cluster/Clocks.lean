import RSearch.Lib.Runs
import RSearch.Bulk.Clock

/-!
# The sequence clocks of a cluster

Every node has its own sequence clock, and their calls interleave in any order.  `next` reads the wall
clock and exchanges the clock's value afterwards; since the reading is arbitrary, the exchange is the
only point at which calls meet, and one action stands for the whole call.
-/

namespace RSearch.Cluster

open List Function

open Bulk (SeqClock slotSize slotMax)
open Index (i64Max)

variable {Node : Type*} [DecidableEq Node]

inductive ClockEvent where
  | observed (seen : ℤ)
  | stamped (stamp : ℤ)
  deriving DecidableEq

def ClockEvent.seq : ClockEvent → ℤ
  | .observed seen => seen
  | .stamped stamp => stamp

def ClockEvent.stamp? : ClockEvent → Option ℤ
  | .observed _ => none
  | .stamped stamp => some stamp

structure Clocks (Node : Type*) where
  clock : Node → SeqClock
  events : Node → List ClockEvent

inductive ClockCall (Node : Type*) where
  | observe (node : Node) (seen : ℤ)
  /-- `next`, with the microseconds of the wall clock. -/
  | next (node : Node) (micros : ℤ)

namespace Clocks

def start (salt : Node → ℤ) (hsalt : ∀ n, 0 ≤ salt n ∧ salt n < slotSize) : Clocks Node where
  clock n := { Bulk.freshClock with salt := salt n, salt_mem := hsalt n }
  events _ := []

def set (s : Clocks Node) (node : Node) (clock : SeqClock) (event : ClockEvent) : Clocks Node where
  clock := Function.update s.clock node clock
  events := Function.update s.events node (event :: s.events node)

def step (s : Clocks Node) : ClockCall Node → Option (Clocks Node)
  | .observe node seen => some (s.set node ((s.clock node).observe seen) (.observed seen))
  | .next node micros =>
    some (s.set node ((s.clock node).tick micros) (.stamped ((s.clock node).nextStamp micros)))

/-- **Below saturation**: a clock that is asked for a stamp has a slot left after its own. -/
def BelowSaturation (s : Clocks Node) : ClockCall Node → Prop
  | .observe _ _ => True
  | .next node _ => (s.clock node).last / slotSize < slotMax

instance (s : Clocks Node) : (call : ClockCall Node) → Decidable (s.BelowSaturation call)
  | .observe _ _ => instDecidableTrue
  | .next node _ => inferInstanceAs (Decidable ((s.clock node).last / slotSize < slotMax))

def stamps (s : Clocks Node) (node : Node) : List ℤ :=
  (s.events node).filterMap ClockEvent.stamp?

end Clocks

/-! ### One stamp -/

section

variable {c : SeqClock} {micros : ℤ}

theorem stampAfter_eq (h : c.last / slotSize < slotMax) :
    c.stampAfter c.last = (c.last / slotSize + 1) * slotSize + c.salt := by
  rw [SeqClock.stampAfter, if_neg (by omega)]

theorem last_lt_nextStamp (h : c.last / slotSize < slotMax) : c.last < c.nextStamp micros := by
  refine lt_max_of_lt_right ?_
  have hsalt := c.salt_mem.1
  rw [stampAfter_eq h]
  unfold slotSize
  omega

theorem nextStamp_emod (h : c.last / slotSize < slotMax) : c.nextStamp micros % slotSize = c.salt := by
  obtain ⟨hlow, hhigh⟩ := c.salt_mem
  have hmod : ∀ slot : ℤ, (slot * slotSize + c.salt) % slotSize = c.salt := by
    intro slot
    rw [Int.add_emod, Int.mul_emod_left, zero_add, Int.emod_emod, Int.emod_eq_of_lt hlow hhigh]
  rcases max_choice (c.now micros) (c.stampAfter c.last) with hmax | hmax
  · rw [SeqClock.nextStamp, hmax]
    exact hmod _
  · grind [stampAfter_eq, SeqClock.nextStamp]

end

/-! ### Every run -/

def Increasing : List ClockEvent → Prop
  | [] => True
  | .observed _ :: before => Increasing before
  | .stamped stamp :: before => (∀ e ∈ before, e.seq < stamp) ∧ Increasing before

/-- **What the clocks keep**, for nodes with the given salts. -/
structure Clocks.Kept (salt : Node → ℤ) (s : Clocks Node) : Prop where
  salts : ∀ n, (s.clock n).salt = salt n
  /-- A clock is at or past everything its node has stamped or observed. -/
  covered : ∀ n, ∀ e ∈ s.events n, e.seq ≤ (s.clock n).last
  increasing : ∀ n, Increasing (s.events n)
  /-- Every stamp carries its node's salt. -/
  salted : ∀ n, ∀ stamp ∈ s.stamps n, stamp % slotSize = salt n

namespace Clocks

variable {salt : Node → ℤ} {s s' : Clocks Node}

omit [DecidableEq Node] in
theorem start_kept (hsalt : ∀ n, 0 ≤ salt n ∧ salt n < slotSize) :
    (start salt hsalt).Kept salt where
  salts _ := rfl
  covered _ _ h := absurd h not_mem_nil
  increasing _ := trivial
  salted _ _ h := absurd h not_mem_nil

theorem Kept.set {node : Node} {clock : SeqClock} {event : ClockEvent} (h : s.Kept salt)
    (hclock : clock.salt = (s.clock node).salt) (hcovered : event.seq ≤ clock.last)
    (hlast : (s.clock node).last ≤ clock.last) (hincreasing : Increasing (event :: s.events node))
    (hsalted : ∀ stamp, event = .stamped stamp → stamp % slotSize = salt node) :
    (s.set node clock event).Kept salt where
  salts n := by
    by_cases hn : n = node
    · subst hn
      simpa [Clocks.set, hclock] using h.salts n
    · simpa [Clocks.set, hn] using h.salts n
  covered n e he := by
    by_cases hn : n = node
    · subst hn
      simp only [Clocks.set, update_self, mem_cons] at he ⊢
      rcases he with rfl | he
      · exact hcovered
      · exact (h.covered n e he).trans hlast
    · simp only [Clocks.set, update_of_ne hn] at he ⊢
      exact h.covered n e he
  increasing n := by
    by_cases hn : n = node
    · subst hn
      simpa [Clocks.set] using hincreasing
    · simpa [Clocks.set, hn] using h.increasing n
  salted n stamp hstamp := by
    by_cases hn : n = node
    · subst hn
      simp only [stamps, Clocks.set, update_self, mem_filterMap, mem_cons] at hstamp
      obtain ⟨e, rfl | he, hsome⟩ := hstamp
      · cases e with
        | observed seen => cases hsome
        | stamped stamp' =>
          obtain rfl : stamp' = stamp := Option.some.inj hsome
          exact hsalted stamp' rfl
      · exact h.salted n stamp (mem_filterMap.mpr ⟨e, he, hsome⟩)
    · simp only [stamps, Clocks.set, update_of_ne hn] at hstamp
      exact h.salted n stamp hstamp

theorem step_kept {call : ClockCall Node} (h : s.Kept salt) (hbelow : s.BelowSaturation call)
    (hstep : s.step call = some s') : s'.Kept salt := by
  cases call with
  | observe node seen =>
    cases hstep
    refine h.set rfl (le_max_right _ _) (le_max_left _ _) (h.increasing node) ?_
    intro stamp hstamp
    cases hstamp
  | next node micros =>
    cases hstep
    have hpast : (s.clock node).last < (s.clock node).nextStamp micros := last_lt_nextStamp hbelow
    refine h.set rfl le_rfl hpast.le ⟨fun e he => ?_, h.increasing node⟩ ?_
    · exact (h.covered node e he).trans_lt hpast
    · rintro stamp ⟨⟩
      rw [nextStamp_emod hbelow, h.salts node]

theorem run_kept {hsalt : ∀ n, 0 ≤ salt n ∧ salt n < slotSize} {calls : List (ClockCall Node)}
    (hbelow : Runs.Along step BelowSaturation (start salt hsalt) calls)
    (hrun : Runs.run step (start salt hsalt) calls = some s) : s.Kept salt :=
  Runs.run_invariant step (fun _ _ _ h hP hstep => step_kept h hP hstep) (start_kept hsalt) hbelow hrun

theorem pairwise_stamps_of_increasing {events : List ClockEvent} (h : Increasing events) :
    (events.filterMap ClockEvent.stamp?).Pairwise (· > ·) := by
  induction events with
  | nil => exact List.Pairwise.nil
  | cons e before ih =>
    cases e with
    | observed seen => exact ih h
    | stamped stamp =>
      refine List.Pairwise.cons (fun later hlater => ?_) (ih h.2)
      obtain ⟨e, he, hsome⟩ := mem_filterMap.mp hlater
      cases e with
      | observed seen => cases hsome
      | stamped stamp' =>
        obtain rfl : stamp' = later := Option.some.inj hsome
        exact h.1 _ he

theorem lt_of_increasing {after before : List ClockEvent} {stamp : ℤ}
    (h : Increasing (after ++ .stamped stamp :: before)) : ∀ e ∈ before, e.seq < stamp := by
  induction after with
  | nil => exact h.1
  | cons e after ih =>
    cases e with
    | observed seen => exact ih h
    | stamped later => exact ih h.2

end Clocks

/-- **The guarantees of the sequence clocks**, for any number of nodes, any wall-clock readings and
any observations, as long as no clock has run out of slots: a node's stamps strictly increase, each
is past everything the node observed before it, each carries the node's salt in its low ten bits,
and nodes with different salts never return the same stamp. -/
theorem stamps_distinct_across_nodes {salt : Node → ℤ} {hsalt : ∀ n, 0 ≤ salt n ∧ salt n < slotSize}
    {calls : List (ClockCall Node)} {s : Clocks Node}
    (hbelow : Runs.Along Clocks.step Clocks.BelowSaturation (Clocks.start salt hsalt) calls)
    (hrun : Runs.run Clocks.step (Clocks.start salt hsalt) calls = some s) :
    (∀ n, (s.stamps n).Pairwise (· > ·)) ∧
    (∀ n after before stamp, s.events n = after ++ .stamped stamp :: before →
      ∀ seen, .observed seen ∈ before → seen < stamp) ∧
    (∀ n, ∀ stamp ∈ s.stamps n, stamp % 2 ^ 10 = salt n) ∧
    ∀ n n', salt n ≠ salt n' → ∀ stamp ∈ s.stamps n, stamp ∉ s.stamps n' := by
  have hkept := Clocks.run_kept hbelow hrun
  refine ⟨fun n => Clocks.pairwise_stamps_of_increasing (hkept.increasing n), ?_, ?_, ?_⟩
  · intro n after before stamp hevents seen hseen
    have hincreasing := hkept.increasing n
    rw [hevents] at hincreasing
    exact Clocks.lt_of_increasing hincreasing (.observed seen) hseen
  · exact hkept.salted
  · intro n n' hne stamp hstamp hstamp'
    exact hne ((hkept.salted n stamp hstamp).symm.trans (hkept.salted n' stamp hstamp'))

def twoSalts (node : Bool) : ℤ := if node then 7 else 3

theorem twoSalts_mem (node : Bool) : 0 ≤ twoSalts node ∧ twoSalts node < slotSize := by
  cases node <;> decide

/-- Two nodes at one microsecond; then one of them observes a sequence far ahead and its wall clock
goes back. -/
def twoNodeCalls : List (ClockCall Bool) :=
  [.next false 5, .next true 5, .observe false 90000, .next false 2, .observe true (-4), .next true 5]

theorem stamps_distinct_two_nodes :
    ∃ s, Runs.run Clocks.step (Clocks.start twoSalts twoSalts_mem) twoNodeCalls = some s ∧
      s.stamps false = [90115, 5123] ∧ s.stamps true = [6151, 5127] ∧
      ∀ stamp ∈ s.stamps false, stamp ∉ s.stamps true := by
  refine ⟨_, rfl, by decide, by decide, ?_⟩
  have hbelow : Runs.Along Clocks.step Clocks.BelowSaturation (Clocks.start twoSalts twoSalts_mem)
      twoNodeCalls := by decide
  exact (stamps_distinct_across_nodes hbelow rfl).2.2.2 false true (by decide)

end RSearch.Cluster
