import RSearch.Lib.Runs
import RSearch.Search.Bounds
import RSearch.Search.OneSplit

/-!
# The total of a search

The splits of a search are searched sixteen at a time, started in their order.  Each adds its count to a
running total at its end, and looks at it at its start: once the ceiling is reached, a split may leave
its count out, and the sum is reported as `gte`.
-/

namespace RSearch.Search

open Json Index Finset Runs

/-! ### The splits side by side -/

def splitSearchConcurrency : ℕ := 16

/-- What one search works on: the clock's reading for its translations, the request, the interval of
the scan, and the splits. -/
structure Task where
  now : Option ℤ
  request : Request
  interval : Interval
  splits : List Split

/-- How far a search is: for every split that has started, whether it leaves its count out if it can,
and the splits that are done. -/
structure Progress where
  skips : List Bool
  finished : Finset ℕ
  deriving DecidableEq

def Progress.init : Progress := ⟨[], ∅⟩

inductive SplitAction where
  /-- The next split is started. -/
  | start
  | finish (j : ℕ)
  deriving DecidableEq

namespace Task

def ceiling (c : Task) : Option ℕ := trackTotalHits c.request.track

def outcome (c : Task) (skips : List Bool) (j : ℕ) : Outcome :=
  match c.splits[j]?, skips[j]? with
  | some s, some skip => searchSplit c.now c.request c.interval s skip
  | _, _ => ⟨0, false⟩

def counted (c : Task) (p : Progress) : ℕ := ∑ j ∈ p.finished, (c.outcome p.skips j).count

def reached (c : Task) (n : ℕ) : Bool := c.ceiling.any fun cap => decide (cap ≤ n)

/-- One split starts or finishes.  Results are taken in the order of the splits, so a split starts only
when all but the fifteen before it are done. -/
def step (c : Task) (p : Progress) : SplitAction → Option Progress
  | .start =>
    if p.skips.length < c.splits.length ∧
        ∀ j < p.skips.length, j + splitSearchConcurrency ≤ p.skips.length → j ∈ p.finished then
      some { p with skips := p.skips ++ [c.reached (c.counted p)] }
    else none
  | .finish j =>
    if j < p.skips.length ∧ j ∉ p.finished then some { p with finished := insert j p.finished }
    else none

def Done (c : Task) (p : Progress) : Prop :=
  p.skips.length = c.splits.length ∧ ∀ j < c.splits.length, j ∈ p.finished

instance (c : Task) (p : Progress) : Decidable (c.Done p) := inferInstanceAs (Decidable (_ ∧ _))

end Task

inductive Relation where
  | eq
  | gte
  deriving DecidableEq

structure TotalHits where
  value : ℕ
  relation : Relation
  deriving DecidableEq

/-- **The total that is reported.** -/
def Task.total (c : Task) (skips : List Bool) : TotalHits where
  value := ∑ j ∈ range c.splits.length, (c.outcome skips j).count
  relation :=
    if ∃ j < c.splits.length, (c.outcome skips j).isLowerBound = true then .gte else .eq

/-- A total is **sound** for a request with `n` matches: it does not exceed them, `eq` says that it is
exact, it is exact below the ceiling, and it is exact with `eq` if the request wants every match
counted. -/
structure Sound (r : Request) (n : ℕ) (t : TotalHits) : Prop where
  le : t.value ≤ n
  eq : t.relation = .eq → t.value = n
  below : (∀ cap ∈ trackTotalHits r.track, n < cap) → t.value = n
  tracked : r.track = some (.bool true) → t = ⟨n, .eq⟩

/-! ### The counts -/

namespace Task

def foundAt (c : Task) (j : ℕ) : ℕ :=
  (c.splits[j]?).elim 0 fun s => (s.found c.now c.request.query).length

def foundBefore (c : Task) (n : ℕ) : ℕ := ∑ j ∈ range n, c.foundAt j

def skippableAt (c : Task) (j : ℕ) : Bool := (c.splits[j]?).any (Split.skippable c.request c.interval)

def Accepted (c : Task) : Prop :=
  ∀ s ∈ c.splits, ∃ q, translateQuery s.schema c.now c.request.query = .ok q

variable {c : Task} {skips : List Bool} {j : ℕ}

variable {l : List Bool} {n m w : ℕ} {p : Progress}

theorem outcome_of_lt (hj : j < skips.length) : c.outcome (skips ++ l) j = c.outcome skips j := by
  grind [outcome]

theorem outcome_isLowerBound :
    (c.outcome skips j).isLowerBound = ((skips[j]?).getD false && c.skippableAt j) := by
  grind [searchSplit_isLowerBound, skippableAt, outcome]

theorem outcome_count_le (h : c.Accepted) : (c.outcome skips j).count ≤ c.foundAt j := by
  rw [outcome, foundAt]
  cases hs : c.splits[j]? with
  | none => exact Nat.zero_le _
  | some s =>
    cases skips[j]? with
    | none => exact Nat.zero_le _
    | some skip =>
      obtain ⟨q, hq⟩ := h s (List.mem_of_getElem? hs)
      exact searchSplit_count_le hq

theorem outcome_count_eq (h : c.Accepted) (hj : j < skips.length)
    (hexact : (c.outcome skips j).isLowerBound = false) : (c.outcome skips j).count = c.foundAt j := by
  rw [outcome] at hexact ⊢
  rw [foundAt]
  rw [List.getElem?_eq_getElem hj] at hexact ⊢
  cases hs : c.splits[j]? with
  | none => rfl
  | some s =>
    rw [hs] at hexact
    obtain ⟨q, hq⟩ := h s (List.mem_of_getElem? hs)
    exact searchSplit_count_eq hq hexact

theorem sum_count_le (h : c.Accepted) (n : ℕ) :
    ∑ k ∈ range n, (c.outcome skips k).count ≤ c.foundBefore n :=
  sum_le_sum fun _ _ => outcome_count_le h

theorem sum_count_eq (h : c.Accepted) (hn : n ≤ skips.length)
    (hexact : ∀ k < n, (c.outcome skips k).isLowerBound = false) :
    ∑ k ∈ range n, (c.outcome skips k).count = c.foundBefore n :=
  sum_congr rfl fun k hk =>
    outcome_count_eq h ((mem_range.mp hk).trans_le hn) (hexact k (mem_range.mp hk))

theorem reached_iff : c.reached n = true ↔ ∃ cap ∈ c.ceiling, cap ≤ n := by
  rw [reached, Option.any_eq_true]
  simp

theorem not_reached_iff : c.reached n = false ↔ ∀ cap ∈ c.ceiling, n < cap := by
  grind [reached_iff]

theorem reached_mono (hnm : n ≤ m) (h : c.reached n = true) : c.reached m = true := by
  grind [reached_iff]

/-! ### What a split's decision says -/

/-- A split that leaves its count out has the ceiling reached by all splits before it, and one that does
not has it not reached by those that must be done. -/
structure Flags (c : Task) (p : Progress) : Prop where
  started : ∀ j ∈ p.finished, j < p.skips.length
  skipped : ∀ j, p.skips[j]? = some true →
    c.reached (∑ k ∈ range j, (c.outcome p.skips k).count) = true
  counts : ∀ j, p.skips[j]? = some false →
    c.reached (∑ k ∈ range (j + 1 - splitSearchConcurrency), (c.outcome p.skips k).count) = false

theorem sum_outcome_append (hn : n ≤ skips.length) :
    ∑ k ∈ range n, (c.outcome (skips ++ l) k).count = ∑ k ∈ range n, (c.outcome skips k).count :=
  sum_congr rfl fun k hk => by grind [outcome_of_lt]

theorem Flags.init (c : Task) : Flags c .init := by
  refine ⟨fun j hj => ?_, fun j hj => ?_, fun j hj => ?_⟩
  · cases hj
  · simp [Progress.init] at hj
  · simp [Progress.init] at hj

theorem getElem?_concat {b b' : Bool} (h : (skips ++ [b])[j]? = some b') :
    j < skips.length ∧ skips[j]? = some b' ∨ j = skips.length ∧ b = b' := by
  grind

theorem Flags.start (h : Flags c p)
    (hwindow : ∀ j < p.skips.length, j + splitSearchConcurrency ≤ p.skips.length → j ∈ p.finished) :
    Flags c { p with skips := p.skips ++ [c.reached (c.counted p)] } := by
  have hsixteen : splitSearchConcurrency = 16 := rfl
  have hupper : c.counted p ≤ ∑ k ∈ range p.skips.length, (c.outcome p.skips k).count :=
    sum_le_sum_of_subset fun j hj => mem_range.mpr (h.started j hj)
  have hlower : ∑ k ∈ range (p.skips.length + 1 - splitSearchConcurrency),
      (c.outcome p.skips k).count ≤ c.counted p := by
    refine sum_le_sum_of_subset fun j hj => ?_
    grind
  refine ⟨fun j hj => ?_, fun j hj => ?_, fun j hj => ?_⟩
  · have := h.started j hj
    grind
  · rcases getElem?_concat hj with ⟨hlt, hold⟩ | ⟨rfl, hskip⟩
    · rw [sum_outcome_append hlt.le]
      exact h.skipped j hold
    · rw [sum_outcome_append le_rfl]
      exact reached_mono hupper hskip
  · rcases getElem?_concat hj with ⟨hlt, hold⟩ | ⟨rfl, hskip⟩
    · rw [sum_outcome_append (by omega)]
      exact h.counts j hold
    · rw [sum_outcome_append (by omega)]
      by_contra hreached
      rw [Bool.not_eq_false] at hreached
      rw [reached_mono hlower hreached] at hskip
      cases hskip

theorem Flags.step {p' : Progress} (h : Flags c p) {a : SplitAction} (hstep : c.step p a = some p') :
    Flags c p' := by
  cases a with
  | start =>
    rw [Task.step] at hstep
    split_ifs at hstep with hcond
    cases hstep
    exact h.start hcond.2
  | finish j =>
    rw [Task.step] at hstep
    split_ifs at hstep with hcond
    cases hstep
    refine ⟨fun k hk => ?_, h.skipped, h.counts⟩
    rcases mem_insert.mp hk with rfl | hk
    · exact hcond.1
    · exact h.started k hk

theorem Flags.of_run {as : List SplitAction} (hrun : run c.step .init as = some p) : Flags c p :=
  run_invariant_always c.step (fun _ _ _ h hstep => h.step hstep) (.init c) hrun

/-! ### Orders in which the splits can finish -/

/-- The state of a search `w` splits at a time, once it has started `n` of them: every decision was made
with all but the `w - 1` splits before it done. -/
structure Windowed (c : Task) (w n : ℕ) (p : Progress) : Prop where
  length : p.skips.length = n
  finished : p.finished = range (n - w)
  skips : ∀ j < n, p.skips[j]? =
    some (c.reached (∑ k ∈ range (j + 1 - w), (c.outcome p.skips k).count))

theorem step_finish {skips : List Bool} (hm : m < skips.length) :
    c.step ⟨skips, range m⟩ (.finish m) = some ⟨skips, range (m + 1)⟩ := by
  rw [step, if_pos ⟨hm, by simp⟩, range_add_one]

theorem exists_windowed (c : Task) (hw : 1 ≤ w) (hle : w ≤ splitSearchConcurrency)
    (hn : n ≤ c.splits.length) : ∃ as p, run c.step .init as = some p ∧ Windowed c w n p := by
  induction n with
  | zero => exact ⟨[], .init, rfl, rfl, by simp [Progress.init], fun j hj => by omega⟩
  | succ n ih =>
    obtain ⟨as, ⟨skips, finished⟩, hrun, hlength, hfinished, hskips⟩ := ih (by omega)
    dsimp only at hlength hfinished hskips
    subst hfinished
    -- before the next split starts, the one that leaves the window finishes
    obtain ⟨bs, hbs⟩ : ∃ bs, run c.step ⟨skips, range (n - w)⟩ bs =
        some ⟨skips, range (n + 1 - w)⟩ := by
      rcases lt_or_ge n w with hlt | hge
      · refine ⟨[], ?_⟩
        rw [show n + 1 - w = n - w by omega]
        rfl
      · refine ⟨[.finish (n - w)], ?_⟩
        rw [run_cons, step_finish (by omega), show n + 1 - w = n - w + 1 by omega]
        rfl
    refine ⟨as ++ bs ++ [.start],
      ⟨skips ++ [c.reached (c.counted ⟨skips, range (n + 1 - w)⟩)], range (n + 1 - w)⟩, ?_, ?_⟩
    · have hwindow : ∀ j < skips.length, j + splitSearchConcurrency ≤ skips.length →
          j ∈ range (n + 1 - w) := by
        grind
      have hroom : skips.length < c.splits.length := by omega
      rw [run_append, run_append, hrun, Option.bind_some, hbs, Option.bind_some,
        run_cons, step, if_pos ⟨hroom, hwindow⟩]
      rfl
    · refine ⟨by simp [hlength], rfl, fun j hj => ?_⟩
      rcases lt_or_eq_of_le (Nat.lt_succ_iff.mp hj) with hlt | rfl
      · rw [List.getElem?_append_left (by omega), hskips j hlt, sum_outcome_append (by omega)]
      · rw [List.getElem?_append_right hlength.le, hlength, Nat.sub_self, sum_outcome_append (by omega)]
        rfl

theorem exists_finish (c : Task) {skips : List Bool} (hm : m ≤ skips.length) :
    ∃ as, run c.step ⟨skips, range m⟩ as = some ⟨skips, range skips.length⟩ := by
  induction hk : skips.length - m generalizing m with
  | zero =>
    refine ⟨[], ?_⟩
    rw [show skips.length = m by omega]
    rfl
  | succ k ih =>
    obtain ⟨as, has⟩ := ih (m := m + 1) (by omega) (by omega)
    refine ⟨.finish m :: as, ?_⟩
    rw [run_cons, step_finish (by omega)]
    exact has

theorem exists_done (c : Task) (hw : 1 ≤ w) (hle : w ≤ splitSearchConcurrency) :
    ∃ as p, run c.step .init as = some p ∧ c.Done p ∧ ∀ j < c.splits.length,
      p.skips[j]? = some (c.reached (∑ k ∈ range (j + 1 - w), (c.outcome p.skips k).count)) := by
  obtain ⟨as, ⟨skips, finished⟩, hrun, hlength, hfinished, hskips⟩ :=
    exists_windowed c hw hle (n := c.splits.length) le_rfl
  dsimp only at hlength hfinished hskips
  subst hfinished
  obtain ⟨bs, hbs⟩ := exists_finish c (show c.splits.length - w ≤ skips.length by omega)
  refine ⟨as ++ bs, ⟨skips, range skips.length⟩, ?_, ⟨hlength, fun j hj => ?_⟩, hskips⟩
  · rw [run_append, hrun, Option.bind_some, hbs]
  · exact mem_range.mpr (by omega)

/-! ### The reported total -/

theorem foundBefore_mono (c : Task) (h : n ≤ m) : c.foundBefore n ≤ c.foundBefore m :=
  sum_le_sum_of_subset fun _ hk => mem_range.mpr ((mem_range.mp hk).trans_le h)

theorem lt_of_skippableAt (h : c.skippableAt j = true) : j < c.splits.length := by
  grind [skippableAt]

theorem total_value_le (h : c.Accepted) (skips : List Bool) :
    (c.total skips).value ≤ c.foundBefore c.splits.length :=
  sum_count_le h _

theorem total_relation_eq_iff : (c.total skips).relation = .eq ↔
    ∀ j < c.splits.length, (c.outcome skips j).isLowerBound = false := by
  rw [total]
  split_ifs with hsome
  · grind
  · grind

theorem total_eq (h : c.Accepted) (hlength : skips.length = c.splits.length)
    (hexact : ∀ j < c.splits.length, (c.outcome skips j).isLowerBound = false) :
    c.total skips = ⟨c.foundBefore c.splits.length, .eq⟩ := by
  have hvalue : (c.total skips).value = c.foundBefore c.splits.length :=
    sum_count_eq h hlength.ge hexact
  have hrelation : (c.total skips).relation = .eq := total_relation_eq_iff.mpr hexact
  rw [← hvalue, ← hrelation]

theorem Flags.exact (hflags : Flags c p) (h : c.Accepted)
    (hcalm : ∀ j, c.skippableAt j = true → c.reached (c.foundBefore j) = false) (j : ℕ) :
    (c.outcome p.skips j).isLowerBound = false := by
  by_contra hlower
  rw [Bool.not_eq_false, outcome_isLowerBound, Bool.and_eq_true] at hlower
  obtain ⟨hskip, hskippable⟩ := hlower
  have hsome : p.skips[j]? = some true := by
    cases hget : p.skips[j]? with
    | none =>
      rw [hget] at hskip
      cases hskip
    | some b =>
      rw [hget] at hskip
      exact congrArg some hskip
  have hreached := reached_mono (sum_count_le h j) (hflags.skipped j hsome)
  rw [hcalm j hskippable] at hreached
  cases hreached

theorem Flags.gte (hflags : Flags c p) (h : c.Accepted) (hlength : p.skips.length = c.splits.length)
    (hskippable : c.skippableAt j = true)
    (hreached : c.reached (c.foundBefore (j + 1 - splitSearchConcurrency)) = true) :
    (c.total p.skips).relation ≠ .eq := by
  intro hrelation
  have hexact := total_relation_eq_iff.mp hrelation
  have hj := lt_of_skippableAt hskippable
  have hcounts : p.skips[j]? = some false := by
    grind [outcome_isLowerBound]
  have hsum := sum_count_eq h (n := j + 1 - splitSearchConcurrency) (by omega) fun k hk => hexact k (by omega)
  have hnot := hflags.counts j hcounts
  rw [hsum, hreached] at hnot
  cases hnot

theorem exists_gte (h : c.Accepted) (hskippable : c.skippableAt j = true)
    (hreached : c.reached (c.foundBefore j) = true) :
    ∃ as p, run c.step .init as = some p ∧ c.Done p ∧ (c.total p.skips).relation ≠ .eq := by
  obtain ⟨as, p, hrun, hdone, hskips⟩ := exists_done c le_rfl (by decide)
  refine ⟨as, p, hrun, hdone, fun hrelation => ?_⟩
  have hexact := total_relation_eq_iff.mp hrelation
  have hj := lt_of_skippableAt hskippable
  grind [sum_count_eq, outcome_isLowerBound]

theorem exists_exact (h : c.Accepted) (hcalm : ∀ j, c.skippableAt j = true →
      c.reached (c.foundBefore (j + 1 - splitSearchConcurrency)) = false) :
    ∃ as p, run c.step .init as = some p ∧ c.Done p ∧
      c.total p.skips = ⟨c.foundBefore c.splits.length, .eq⟩ := by
  obtain ⟨as, p, hrun, hdone, hskips⟩ := exists_done c (w := splitSearchConcurrency) (by decide) le_rfl
  refine ⟨as, p, hrun, hdone, total_eq h hdone.1 fun j hj => ?_⟩
  by_contra hlower
  rw [Bool.not_eq_false, outcome_isLowerBound, hskips j hj, Option.getD_some, Bool.and_eq_true] at hlower
  have hreached := reached_mono (sum_count_le h _) hlower.1
  rw [hcalm j hlower.2] at hreached
  cases hreached

theorem sound_iff (h : c.Accepted) (pruned : ℕ) :
    (∀ as p, run c.step .init as = some p → c.Done p →
      Sound c.request (c.foundBefore c.splits.length + pruned) (c.total p.skips)) ↔
    pruned = 0 ∧ (c.request.track = some (.bool true) →
      ∀ j, c.skippableAt j = true → c.foundBefore j < defaultTrackTotalHits) ∨
    pruned ≠ 0 ∧ c.request.track ≠ some (.bool true) ∧ ∃ j, c.skippableAt j = true ∧
      c.reached (c.foundBefore (j + 1 - splitSearchConcurrency)) = true := by
  have hceiling : c.request.track = some (.bool true) → c.ceiling = some defaultTrackTotalHits := by
    intro htrack
    rw [ceiling, htrack]
    rfl
  constructor
  · intro hsound
    rcases Nat.eq_zero_or_pos pruned with rfl | hpos
    · refine .inl ⟨rfl, fun htrack j hskippable => ?_⟩
      by_contra hge
      have hreached : c.reached (c.foundBefore j) = true :=
        reached_iff.mpr ⟨_, hceiling htrack, not_lt.mp hge⟩
      obtain ⟨as, p, hrun, hdone, hgte⟩ := exists_gte h hskippable hreached
      exact hgte (by rw [(hsound as p hrun hdone).tracked htrack])
    · refine .inr ⟨hpos.ne', fun htrack => ?_, ?_⟩
      · obtain ⟨as, p, hrun, hdone, -⟩ := exists_done c le_rfl (by decide)
        have htotal := congrArg TotalHits.value ((hsound as p hrun hdone).tracked htrack)
        grind [total_value_le]
      · by_contra hnone
        push Not at hnone
        obtain ⟨as, p, hrun, hdone, htotal⟩ :=
          exists_exact h fun j hj => by simpa using hnone j hj
        have hvalue := (hsound as p hrun hdone).eq (by rw [htotal])
        grind
  · intro hcond as p hrun hdone
    have hflags := Flags.of_run hrun
    have hle := total_value_le h p.skips
    rcases hcond with ⟨rfl, htracked⟩ | ⟨-, htrack, j, hskippable, hreached⟩
    · refine ⟨hle, fun hrelation => ?_, fun hbelow => ?_, fun htrack => ?_⟩
      · rw [total_eq h hdone.1 (total_relation_eq_iff.mp hrelation), Nat.add_zero]
      · rw [total_eq h hdone.1 fun j _ => hflags.exact h (fun k hk => ?_) j, Nat.add_zero]
        refine not_reached_iff.mpr fun cap hcap => ?_
        exact (c.foundBefore_mono (lt_of_skippableAt hk).le).trans_lt (hbelow cap hcap)
      · rw [total_eq h hdone.1 fun j _ => hflags.exact h (fun k hk => ?_) j, Nat.add_zero]
        refine not_reached_iff.mpr fun cap hcap => ?_
        rw [hceiling htrack, Option.mem_some_iff] at hcap
        exact hcap ▸ htracked htrack k hk
    · refine ⟨hle.trans (Nat.le_add_right _ _), fun hrelation => ?_, fun hbelow => ?_,
        fun h' => absurd h' htrack⟩
      · exact absurd hrelation (hflags.gte h hdone.1 hskippable hreached)
      · obtain ⟨cap, hcap, hle'⟩ := reached_iff.mp hreached
        have hlt := hbelow cap hcap
        have hj := lt_of_skippableAt hskippable
        have hmono := c.foundBefore_mono (n := j + 1 - splitSearchConcurrency)
          (m := c.splits.length) (by omega)
        omega

end Task

/-! ### All published splits -/

def trueCount (now : Option ℤ) (published : List Split) (query : Value) : ℕ :=
  (published.map fun s => (s.found now query).length).sum

theorem sum_getElem?_elim {α : Type} (l : List α) (f : α → ℕ) :
    ∑ j ∈ range l.length, (l[j]?).elim 0 f = (l.map f).sum := by
  induction l with
  | nil => rfl
  | cons a l ih =>
    rw [List.length_cons, sum_range_succ', List.map_cons, List.sum_cons, ← ih, add_comm]
    rfl

variable {published : List Split}

theorem trueCount_eq {c : Task} (hperm : c.splits.Perm (published.filter (Split.overlaps c.interval))) :
    trueCount c.now published c.request.query = c.foundBefore c.splits.length +
      trueCount c.now (published.filter fun s => !s.overlaps c.interval) c.request.query := by
  have hsearched : c.foundBefore c.splits.length = trueCount c.now c.splits c.request.query :=
    sum_getElem?_elim c.splits _
  rw [hsearched, trueCount, trueCount, trueCount, ← List.sum_append, ← List.map_append]
  refine (List.Perm.map _ ?_).sum_eq
  exact (List.filter_append_perm (Split.overlaps c.interval) published).symm.trans (hperm.symm.append_right _)

theorem nothingPruned_iff {now : Option ℤ} {query : Value} {i : Interval} :
    NothingPruned now published query i ↔
      trueCount now (published.filter fun s => !s.overlaps i) query = 0 := by
  rw [trueCount, List.sum_eq_zero_iff, List.forall_mem_map]
  simp [NothingPruned]

/-- **The condition.**  No match is pruned, and if the request wants every match counted, the splits
before each one whose count may be left out stay below the default ceiling.  If a match is pruned, the
total is still sound when nothing exact was asked for and some count is left out in every order. -/
def CountStands (published : List Split) (c : Task) : Prop :=
  NothingPruned c.now published c.request.query c.interval ∧
    (c.request.track = some (.bool true) →
      ∀ j, c.skippableAt j = true → c.foundBefore j < defaultTrackTotalHits) ∨
  ¬ NothingPruned c.now published c.request.query c.interval ∧
    c.request.track ≠ some (.bool true) ∧
    ∃ j, c.skippableAt j = true ∧
      c.reached (c.foundBefore (j + 1 - splitSearchConcurrency)) = true

/-- **The reported total is sound in every order in which the splits can finish exactly under the
condition.**  `now` is the clock's reading for the scan, `c.now` the one for the translations. -/
theorem total_sound_iff {c : Task} {now : Option ℤ} {published : List Split}
    (hscan : extractTimeBounds now c.request.query = .ok c.interval)
    (hsplits : searchedSplits now published c.request.query = .ok c.splits) (haccept : c.Accepted) :
    (∀ as p, Runs.run c.step .init as = some p → c.Done p →
      Sound c.request (trueCount c.now published c.request.query) (c.total p.skips)) ↔
    CountStands published c := by
  rw [trueCount_eq (searchedSplits_perm hscan hsplits), CountStands, nothingPruned_iff]
  exact Task.sound_iff haccept _

def sinceEpoch : Value :=
  .object [("range", .object [("@timestamp", .object [("gte", seconds 0)])])]

def everyMatch : Request where
  query := sinceEpoch
  limit := 10
  track := some (.bool true)
  aggs := false
  plan := .timestamp true none

def twoDocuments : Split where
  docs := [⟨1210000, some 12, .object [], by decide, by decide⟩,
    ⟨1430000, some 13, .object [], by decide, by decide⟩]
  timeStart := 1210000
  timeEnd := 1430000
  schema := timestampOnly
  hasSeq := true
  hidden _ := false
  covers := by decide
  fits := by decide
  seqs := by decide

/-- A split that ends before the interval of the searches begins. -/
def beforeInterval : Split where
  docs := [⟨510000, some 14, .object [], by decide, by decide⟩]
  timeStart := 510000
  timeEnd := 510000
  schema := timestampOnly
  hasSeq := true
  hidden _ := false
  covers := by decide
  fits := by decide
  seqs := by decide

def threePublished : List Split := [oneDocument, beforeInterval, twoDocuments]

def sinceThousand : Value :=
  .object [("range", .object [("@timestamp", .object [("gte", seconds 1000)])])]

/-- The search of three published splits, one of which is pruned, for one hit and with the wish `track`. -/
def threeSplitTask (track : Value) : Task where
  now := none
  request := ⟨sinceThousand, 1, some track, false, .timestamp true none⟩
  interval := ⟨some 1000000, none⟩
  splits := [twoDocuments, oneDocument]

theorem countStands_threeSplitTask (track : Value) : CountStands threePublished (threeSplitTask track) := by
  refine .inl ⟨?_, fun _ j hj => ?_⟩
  · rintro s hs houtside
    simp only [threePublished, List.mem_cons, List.not_mem_nil, or_false] at hs
    obtain rfl | rfl | rfl := hs
    · cases houtside
    · rfl
    · cases houtside
  · have hle := (threeSplitTask track).foundBefore_mono (Task.lt_of_skippableAt hj).le
    exact hle.trans_lt (show 3 < defaultTrackTotalHits by decide)

/-- **Every match of the two splits that are searched is counted**, in whichever order they finish; with a
ceiling of two the second split leaves its count out, and the total says so. -/
theorem total_sound_threePublished :
    (∃ p, Runs.run (threeSplitTask (.bool true)).step .init [.start, .start, .finish 1, .finish 0] = some p ∧
      Sound (threeSplitTask (.bool true)).request (trueCount none threePublished sinceThousand)
        ((threeSplitTask (.bool true)).total p.skips) ∧
      (threeSplitTask (.bool true)).total p.skips = ⟨3, .eq⟩) ∧
    ∃ p, Runs.run (threeSplitTask (seconds 2)).step .init [.start, .finish 0, .start, .finish 1] = some p ∧
      Sound (threeSplitTask (seconds 2)).request (trueCount none threePublished sinceThousand)
        ((threeSplitTask (seconds 2)).total p.skips) ∧
      ((threeSplitTask (seconds 2)).total p.skips).relation = .gte := by
  have haccept : ∀ track, (threeSplitTask track).Accepted := by
    intro track s hs
    simp only [threeSplitTask, List.mem_cons, List.not_mem_nil, or_false] at hs
    obtain rfl | rfl := hs <;> exact ⟨_, rfl⟩
  have hsound : ∀ track as p, Runs.run (threeSplitTask track).step .init as = some p →
      (threeSplitTask track).Done p → Sound (threeSplitTask track).request
        (trueCount none threePublished sinceThousand) ((threeSplitTask track).total p.skips) :=
    fun track => (@total_sound_iff _ none _ rfl rfl (haccept track)).mpr
      (countStands_threeSplitTask track)
  have hcounted : Runs.run (threeSplitTask (.bool true)).step .init [.start, .start, .finish 1, .finish 0] =
      some ⟨[false, false], {0, 1}⟩ := rfl
  have hskipped : Runs.run (threeSplitTask (seconds 2)).step .init [.start, .finish 0, .start, .finish 1] =
      some ⟨[false, true], {1, 0}⟩ := rfl
  exact ⟨⟨_, hcounted, hsound _ _ _ hcounted (by decide), rfl⟩,
    ⟨_, hskipped, hsound _ _ _ hskipped (by decide), rfl⟩⟩

def tenThousand : Split where
  docs := List.replicate 10000 atFifteenHundred
  timeStart := 1500000
  timeEnd := 1500000
  schema := timestampOnly
  hasSeq := true
  hidden _ := false
  covers d hd := by
    rw [List.eq_of_mem_replicate hd]
    decide
  fits := oneDocument.fits
  seqs d hd := by
    rw [List.eq_of_mem_replicate hd]
    rfl

def twoSplitTask : Task := ⟨none, everyMatch, ⟨some 0, none⟩, [tenThousand, oneDocument]⟩

theorem found_tenThousand : (tenThousand.found none sinceEpoch).length = 10000 := by
  have hfinds : tenThousand.finds none sinceEpoch atFifteenHundred = true := rfl
  grind [tenThousand, Split.found]

/-- **`track_total_hits: true` does not count every match.**  It asks for no more than the default
ceiling, which the first split reaches. -/
theorem tracked_total_not_exact :
    ¬ ∀ (c : Task) (now : Option ℤ) (published : List Split),
      extractTimeBounds now c.request.query = .ok c.interval →
      searchedSplits now published c.request.query = .ok c.splits → c.Accepted →
      ∀ as p, Runs.run c.step .init as = some p → c.Done p →
        Sound c.request (trueCount c.now published c.request.query) (c.total p.skips) := by
  intro hclaim
  have haccept : twoSplitTask.Accepted := by
    intro s hs
    all_goals exact ⟨_, rfl⟩
  have hreached : twoSplitTask.reached (twoSplitTask.foundBefore 1) = true := by
    have hfound : twoSplitTask.foundBefore 1 = 10000 := by
      rw [Task.foundBefore, sum_range_one]
      exact found_tenThousand
    rw [hfound]
    rfl
  obtain ⟨as, p, hrun, hdone, hgte⟩ :=
    Task.exists_gte haccept (show twoSplitTask.skippableAt 1 = true from rfl) hreached
  have hsound := hclaim twoSplitTask none [tenThousand, oneDocument] rfl rfl haccept as p hrun hdone
  exact hgte (by rw [hsound.tracked rfl])

end RSearch.Search
