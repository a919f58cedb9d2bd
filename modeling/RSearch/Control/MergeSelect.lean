import Mathlib

/-!
# Choosing what to merge

A stream's small splits come in time order; dominant ones, more than ten times the sum of the
smaller ones, are left out, and of the rest as many are taken as reach the target.  Streams take turns:
a **cursor** has the stream that was picked last.
-/

namespace RSearch.Merge

open List

def i64Max : ℕ := 2 ^ 63 - 1

/-- What the choice reads of a published split. -/
structure SplitRecord where
  id : ℤ
  streamId : ℤ
  sizeBytes : ℕ
  sizeBytes_le : sizeBytes ≤ i64Max
  timeStartMillis : ℤ
  deriving DecidableEq

def bytes (group : List SplitRecord) : ℕ := (group.map SplitRecord.sizeBytes).sum

def mergeSkewFactor : ℕ := 10

structure MergeConfig where
  targetBytes : ℤ
  maxGroup : ℕ

def saturatingMul (a b : ℤ) : ℤ := max (-2 ^ 63) (min (a * b) i64Max)

/-- A sum of 64 bits, which wraps around (a build with overflow checks unwinds instead). -/
def wrappingSum (sizes : List ℕ) : ℤ := (sizes.sum : ℤ).bmod (2 ^ 64)

/-- How many leading sizes of a descending list dominate what follows them.  The last is not tested. -/
def dominant : List ℕ → ℕ
  | x :: y :: rest =>
    if saturatingMul mergeSkewFactor (wrappingSum (y :: rest)) < x then dominant (y :: rest) + 1 else 0
  | _ => 0

def bySize (group : List SplitRecord) : List ℕ :=
  (group.map SplitRecord.sizeBytes).insertionSort (· ≥ ·)

/-- The group without its dominant splits. -/
def mergeCandidates (group : List SplitRecord) : List SplitRecord :=
  match dominant (bySize group) with
  | 0 => group
  | cut + 1 => group.filter fun s => s.sizeBytes < (bySize group).getD cut 0

/-- The first length at which the sum of the sizes reaches the target. -/
def takeLoop (targetBytes : ℤ) : List SplitRecord → ℕ → ℕ → Option ℕ
  | [], _, _ => none
  | s :: rest, sum, i =>
    if targetBytes ≤ min (sum + s.sizeBytes) i64Max then some (i + 1)
    else takeLoop targetBytes rest (min (sum + s.sizeBytes) i64Max) (i + 1)

variable (c : MergeConfig)

def mergeTake (group : List SplitRecord) : ℕ :=
  (takeLoop c.targetBytes (group.take c.maxGroup) 0 0).getD (min group.length c.maxGroup)

def candidates (small : List SplitRecord) (id : ℤ) : List SplitRecord :=
  mergeCandidates (small.filter fun s => s.streamId = id)

def mergeGroup (small : List SplitRecord) (id : ℤ) : Option (ℤ × List SplitRecord) :=
  if 2 ≤ mergeTake c (candidates small id) then
    some (id, (candidates small id).take (mergeTake c (candidates small id)))
  else none

/-- The streams that have a group to merge, in the order of their ids. -/
def eligible (small : List SplitRecord) : List (ℤ × List SplitRecord) :=
  ((small.map SplitRecord.streamId).dedup.insertionSort (· ≤ ·)).filterMap (mergeGroup c small)

def streams (small : List SplitRecord) : List ℤ := (eligible c small).map Prod.fst

def selectMergeGroup (small : List SplitRecord) (afterStream : ℤ) : Option (ℤ × List SplitRecord) :=
  ((eligible c small).find? fun e => afterStream < e.1).or (eligible c small).head?

/-- **The picks of `merge_job`**, tick after tick.  Candidates are fetched anew for each, so that any list
of splits may follow; the cursor moves before the merge is tried. -/
def picks : ℤ → List (List SplitRecord) → List (ℤ × List SplitRecord)
  | _, [] => []
  | cursor, small :: later =>
    match selectMergeGroup c small cursor with
    | none => picks cursor later
    | some e => e :: picks e.1 later

/-! ### The group of a stream -/

variable {c} {small group : List SplitRecord} {cursor id : ℤ} {e : ℤ × List SplitRecord}

theorem takeLoop_reaches {targetBytes : ℤ} {l : List SplitRecord} {sum i k : ℕ}
    (h : takeLoop targetBytes l sum i = some k) :
    ∃ n, k = i + n ∧ n ≤ l.length ∧ targetBytes ≤ sum + bytes (l.take n) := by
  induction l generalizing sum i with
  | nil => cases h
  | cons s rest ih =>
    rw [takeLoop] at h
    split_ifs at h with hreach
    · cases h
      refine ⟨1, rfl, by simp, ?_⟩
      simp only [bytes, take_succ_cons, take_zero, map_singleton, sum_singleton]
      omega
    · obtain ⟨n, rfl, hn, hsum⟩ := ih h
      refine ⟨n + 1, by omega, by simpa using hn, ?_⟩
      simp only [bytes, take_succ_cons, map_cons, sum_cons] at hsum ⊢
      omega

theorem mergeTake_spec (c : MergeConfig) (group : List SplitRecord) :
    mergeTake c group ≤ min group.length c.maxGroup ∧
      (c.targetBytes ≤ bytes (group.take (mergeTake c group)) ∨
        mergeTake c group = min group.length c.maxGroup) := by
  unfold mergeTake
  cases h : takeLoop c.targetBytes (group.take c.maxGroup) 0 0 with
  | none => exact ⟨le_rfl, .inr rfl⟩
  | some k =>
    obtain ⟨n, rfl, hn, hsum⟩ := takeLoop_reaches h
    rw [length_take] at hn
    rw [take_take, min_eq_left (hn.trans (min_le_left _ _))] at hsum
    simp only [zero_add, Option.getD_some]
    exact ⟨by omega, .inl (by simpa using hsum)⟩

/-- Before the loop ends, the target is not reached. -/
theorem lt_of_lt_takeLoop {targetBytes : ℤ} {l : List SplitRecord} {sum i m : ℕ}
    (hfits : sum + bytes l ≤ i64Max) (hm : 1 ≤ m)
    (h : i + m < (takeLoop targetBytes l sum i).getD (i + l.length + 1)) :
    sum + bytes (l.take m) < targetBytes := by
  induction l generalizing sum i m with
  | nil =>
    simp only [takeLoop, Option.getD_none, length_nil] at h
    omega
  | cons s rest ih =>
    simp only [bytes, map_cons, sum_cons] at hfits
    have hsum : min (sum + s.sizeBytes) i64Max = sum + s.sizeBytes := by
      unfold bytes at ih
      omega
    rw [takeLoop] at h
    split_ifs at h with hreach
    · simp only [Option.getD_some] at h
      omega
    · obtain ⟨m, rfl⟩ := Nat.exists_eq_add_of_le' hm
      simp only [bytes, take_succ_cons, map_cons, sum_cons]
      rcases Nat.eq_zero_or_pos m with rfl | hpos
      · simp only [take_zero, map_nil, sum_nil]
        omega
      · rw [hsum, length_cons] at h
        have hrest := @ih (sum + s.sizeBytes) (i + 1) m (by unfold bytes; omega) hpos (by
          rw [show i + 1 + m = i + (m + 1) by omega, show i + 1 + rest.length + 1 = i + (rest.length + 1) + 1
            by omega]
          exact h)
        unfold bytes at hrest
        omega

theorem lt_of_lt_mergeTake {m : ℕ} (hfits : bytes group ≤ i64Max) (hm : 1 ≤ m)
    (h : m < mergeTake c group) : bytes (group.take m) < c.targetBytes := by
  have hle := (mergeTake_spec c group).1
  have hprefix : bytes (group.take c.maxGroup) ≤ bytes group :=
    ((take_sublist _ _).map _).sum_le_sum fun _ _ => Nat.zero_le _
  have hbefore := @lt_of_lt_takeLoop c.targetBytes (group.take c.maxGroup) 0 0 m (by omega) hm (by
    unfold mergeTake at h
    rw [length_take]
    cases htake : takeLoop c.targetBytes (group.take c.maxGroup) 0 0 with
    | none =>
      simp only [htake, Option.getD_none] at h ⊢
      omega
    | some k => simpa [htake] using h)
  rw [take_take, min_eq_left (by omega)] at hbefore
  simpa using hbefore

theorem mergeCandidates_sublist (group : List SplitRecord) : (mergeCandidates group).Sublist group := by
  unfold mergeCandidates
  split
  · exact Sublist.refl _
  · exact filter_sublist

theorem candidates_sublist (small : List SplitRecord) (id : ℤ) : (candidates small id).Sublist small :=
  (mergeCandidates_sublist _).trans filter_sublist

variable {s : SplitRecord}

theorem streamId_of_mem_candidates (h : s ∈ candidates small id) : s.streamId = id := by
  simpa using (mem_filter.mp ((mergeCandidates_sublist _).subset h)).2

theorem mergeGroup_eq_some_iff : mergeGroup c small id = some e ↔
    2 ≤ mergeTake c (candidates small id) ∧ e.1 = id ∧
      e.2 = (candidates small id).take (mergeTake c (candidates small id)) := by
  unfold mergeGroup
  split_ifs with htwo
  · simp [htwo, Prod.ext_iff, eq_comm]
  · simp [htwo]

theorem mem_eligible_iff : e ∈ eligible c small ↔ 2 ≤ mergeTake c (candidates small e.1) ∧
      e.2 = (candidates small e.1).take (mergeTake c (candidates small e.1)) := by
  simp only [eligible, mem_filterMap, mergeGroup_eq_some_iff]
  constructor
  · rintro ⟨id, -, htwo, rfl, hgroup⟩
    exact ⟨htwo, hgroup⟩
  · rintro ⟨htwo, hgroup⟩
    refine ⟨e.1, ?_, htwo, rfl, hgroup⟩
    -- a group of two has a split of the stream
    have hle := (mergeTake_spec c (candidates small e.1)).1
    obtain ⟨s, hs⟩ := exists_mem_of_length_pos (l := candidates small e.1) (by omega)
    rw [mem_insertionSort, mem_dedup]
    exact mem_map.mpr ⟨s, (candidates_sublist small e.1).subset hs, streamId_of_mem_candidates hs⟩

/-- **The shape of a group.**  It is a prefix of the stream's candidates, which keep the order the splits
came in, and has reached the target or taken all that is allowed. -/
structure Shaped (c : MergeConfig) (small : List SplitRecord) (e : ℤ × List SplitRecord) :
    Prop where
  stream : ∀ s ∈ e.2, s.streamId = e.1
  isPrefix : e.2 <+: candidates small e.1
  ordered : e.2.Sublist small
  inTime : small.Pairwise (fun a b => a.streamId = b.streamId → a.timeStartMillis ≤ b.timeStartMillis) →
    e.2.Pairwise fun a b => a.timeStartMillis ≤ b.timeStartMillis
  two_le : 2 ≤ e.2.length
  le_max : e.2.length ≤ c.maxGroup
  reaches : c.targetBytes ≤ bytes e.2 ∨
    e.2.length = min (candidates small e.1).length c.maxGroup

theorem shaped_of_mem (h : e ∈ eligible c small) : Shaped c small e := by
  obtain ⟨htwo, hgroup⟩ := mem_eligible_iff.mp h
  obtain ⟨hle, hreach⟩ := mergeTake_spec c (candidates small e.1)
  have hlength : e.2.length = mergeTake c (candidates small e.1) := by
    rw [hgroup, length_take]
    omega
  have htaken : e.2 <+: candidates small e.1 := hgroup ▸ take_prefix _ _
  have hstream : ∀ s ∈ e.2, s.streamId = e.1 := fun s hs => streamId_of_mem_candidates (htaken.subset hs)
  have hordered := htaken.sublist.trans (candidates_sublist _ _)
  exact {
    stream := hstream
    isPrefix := htaken
    ordered := hordered
    inTime := fun h => (h.sublist hordered).imp_of_mem fun {a b} ha hb hle =>
      hle ((hstream a ha).trans (hstream b hb).symm)
    two_le := by omega
    le_max := by omega
    reaches := by rwa [← hgroup, ← hlength] at hreach }

/-! ### Taking turns -/

/-- **The next stream**: the first past the cursor, or else the first of all. -/
structure Next (c : MergeConfig) (small : List SplitRecord) (cursor : ℤ) (e : ℤ × List SplitRecord) :
    Prop where
  mem : e ∈ eligible c small
  first : cursor < e.1 ∧ (∀ e' ∈ eligible c small, cursor < e'.1 → e.1 ≤ e'.1) ∨
    ∀ e' ∈ eligible c small, e'.1 ≤ cursor ∧ e.1 ≤ e'.1

theorem pairwise_eligible (c : MergeConfig) (small : List SplitRecord) :
    (eligible c small).Pairwise fun e e' => e.1 ≤ e'.1 := by
  refine List.Pairwise.filterMap _ ?_ (pairwise_insertionSort (· ≤ ·) _)
  intro id id' hle e he e' he'
  rw [(mergeGroup_eq_some_iff.mp he).2.1, (mergeGroup_eq_some_iff.mp he').2.1]
  exact hle

theorem next_of_select (h : selectMergeGroup c small cursor = some e) : Next c small cursor e := by
  have hsorted := pairwise_eligible c small
  rcases Option.or_eq_some_iff.mp h with hfind | ⟨hnone, hhead⟩
  · obtain ⟨hlt, before, after, heq, hbefore⟩ := find?_eq_some_iff_append.mp hfind
    refine ⟨mem_of_find?_eq_some hfind, .inl ⟨by simpa using hlt, fun e' he' hlt' => ?_⟩⟩
    rw [heq] at he' hsorted
    have hafter := (pairwise_cons.mp (pairwise_append.mp hsorted).2.1).1
    rcases mem_append.mp he' with he' | he'
    · exact absurd hlt' (by simpa using hbefore e' he')
    · rcases mem_cons.mp he' with rfl | he'
      · exact le_rfl
      · exact hafter e' he'
  · obtain ⟨rest, heq⟩ := head?_eq_some_iff.mp hhead
    refine ⟨mem_of_mem_head? hhead, .inr fun e' he' => ⟨?_, ?_⟩⟩
    · simpa using find?_eq_none.mp hnone e' he'
    · rw [heq] at he' hsorted
      rcases mem_cons.mp he' with rfl | he'
      · exact le_rfl
      · exact (pairwise_cons.mp hsorted).1 e' he'

theorem exists_select_of_mem (cursor : ℤ) (h : e ∈ eligible c small) :
    ∃ e', selectMergeGroup c small cursor = some e' := by
  unfold selectMergeGroup
  obtain ⟨first, rest, heq⟩ := exists_cons_of_ne_nil (ne_nil_of_mem h)
  rw [heq, head?_cons]
  cases List.find? _ _ <;> simp

/-- The streams from the cursor on, around the end, before `id`. -/
def Between (cursor x id : ℤ) : Prop := if cursor < id then cursor < x ∧ x < id else cursor < x ∨ x < id

/-- **Turns go around.**  As long as a stream is not picked the picks approach it, so no other is picked
twice. -/
theorem picks_approach {windows : List (List SplitRecord)}
    (hid : ∀ small ∈ windows, id ∈ streams c small) (hnot : id ∉ (picks c cursor windows).map Prod.fst) :
    (∀ x ∈ (picks c cursor windows).map Prod.fst, Between cursor x id ∧ x ∈ windows.flatMap (streams c)) ∧
    ((picks c cursor windows).map Prod.fst).Nodup ∧
    ((picks c cursor windows).map Prod.fst).length = windows.length := by
  induction windows generalizing cursor with
  | nil => simp [picks]
  | cons small later ih =>
    obtain ⟨hhere, hlater⟩ := forall_mem_cons.mp hid
    obtain ⟨own, hown, rfl⟩ := mem_map.mp hhere
    obtain ⟨e, he⟩ := exists_select_of_mem cursor hown
    have hnext := next_of_select he
    simp only [picks, he, map_cons, mem_cons, not_or] at hnot ⊢
    obtain ⟨hbetween, hnodup, hlength⟩ := ih hlater hnot.2
    have hfirst : Between cursor e.1 own.1 := by
      unfold Between
      rcases hnext.first with hfirst | hfirst
      · have := hfirst.2 own hown
        split_ifs <;> omega
      · have := hfirst own hown
        split_ifs <;> omega
    refine ⟨?_, nodup_cons.mpr ⟨fun hmem => ?_, hnodup⟩, by simp [← hlength]⟩
    · rintro x (rfl | hx)
      · exact ⟨hfirst, mem_flatMap.mpr ⟨small, mem_cons_self, mem_map_of_mem hnext.mem⟩⟩
      · refine ⟨?_, mem_flatMap.mpr ?_⟩
        · have hx := (hbetween x hx).1
          unfold Between at hfirst hx ⊢
          split_ifs at * <;> omega
        · obtain ⟨w, hw, hmem⟩ := mem_flatMap.mp (hbetween x hx).2
          exact ⟨w, mem_cons_of_mem _ hw, hmem⟩
    · have hself := (hbetween _ hmem).1
      unfold Between at hfirst hself
      split_ifs at * <;> omega

/-- **Every group has the shape that is asked for, and no stream that has something to merge is passed
over**: if over a span of picks it always has, and no more streams than picks ever have, then it is picked
in the span. -/
theorem merge_picks_fair (c : MergeConfig) (cursor : ℤ) :
    (∀ small e, selectMergeGroup c small cursor = some e → Shaped c small e) ∧
    ∀ (windows : List (List SplitRecord)) (id : ℤ), windows ≠ [] →
      (∀ small ∈ windows, id ∈ streams c small) →
      (windows.flatMap (streams c)).toFinset.card ≤ windows.length →
      id ∈ (picks c cursor windows).map Prod.fst := by
  refine ⟨fun small e h => shaped_of_mem (next_of_select h).mem, fun windows id hspan hid hcard => ?_⟩
  by_contra hnot
  obtain ⟨hbetween, hnodup, hlength⟩ := picks_approach hid hnot
  have hsubset : (id :: (picks c cursor windows).map Prod.fst).toFinset ⊆
      (windows.flatMap (streams c)).toFinset := by
    obtain ⟨small, hsmall⟩ := exists_mem_of_ne_nil windows hspan
    intro x hx
    rw [mem_toFinset] at hx ⊢
    rcases mem_cons.mp hx with rfl | hx
    · exact mem_flatMap.mpr ⟨small, hsmall, hid small hsmall⟩
    · exact (hbetween x hx).2
  have hle := Finset.card_le_card hsubset
  rw [toFinset_card_of_nodup (nodup_cons.mpr ⟨hnot, hnodup⟩), length_cons, hlength] at hle
  omega

def splitOf (id streamId : ℤ) (sizeBytes : ℕ) : SplitRecord :=
  ⟨id, streamId, min sizeBytes i64Max, min_le_right _ _, id⟩

/-- Two streams of two splits each.  The cursor is at the second. -/
theorem merge_picks_fair_two : 1 ∈ (picks ⟨100, 8⟩ 2 [[splitOf 1 1 5, splitOf 2 1 5, splitOf 3 2 5,
    splitOf 4 2 5], [splitOf 1 1 5, splitOf 2 1 5, splitOf 3 2 5, splitOf 4 2 5]]).map Prod.fst :=
  (merge_picks_fair ⟨100, 8⟩ 2).2 _ 1 (by decide) (by decide) (by decide)

/-! ### Dominant splits -/

theorem skewed_iff {x : ℕ} {rest : List ℕ} (hrest : rest.sum ≤ i64Max) (hx : x ≤ i64Max) :
    saturatingMul mergeSkewFactor (wrappingSum rest) < x ↔ mergeSkewFactor * rest.sum < x := by
  have hwrap : wrappingSum rest = rest.sum := by
    unfold wrappingSum i64Max at *
    rw [Int.bmod_eq_of_le] <;> omega
  rw [hwrap, saturatingMul]
  generalize rest.sum = n at hrest ⊢
  unfold mergeSkewFactor i64Max at *
  omega

/-- Past the dominant sizes of a descending list the first is not dominant, unless it is alone; and they are
what is below the last dominant one. -/
theorem dominant_spec {b : List ℕ} (hsorted : b.Pairwise (· ≥ ·)) (hfits : b.sum ≤ i64Max) :
    (∀ h y t, b.drop (dominant b) = h :: y :: t → h ≤ mergeSkewFactor * (y :: t).sum) ∧
    ∀ cut, dominant b = cut + 1 → b.filter (· < b.getD cut 0) = b.drop (cut + 1) := by
  induction b with
  | nil => simp
  | cons x rest ih =>
    obtain ⟨hx, hrest⟩ := pairwise_cons.mp hsorted
    rw [sum_cons] at hfits
    cases rest with
    | nil => simp [dominant]
    | cons y rest =>
      rw [dominant]
      simp only [skewed_iff (show (y :: rest).sum ≤ i64Max by omega) (show x ≤ i64Max by omega)]
      split_ifs with hskew
      · obtain ⟨hkept, hfilter⟩ := ih hrest (by omega)
        refine ⟨by simpa using hkept, fun cut hcut => ?_⟩
        obtain rfl : dominant (y :: rest) = cut := Nat.succ.inj hcut
        rw [drop_succ_cons]
        cases hd : dominant (y :: rest) with
        | zero =>
          have hall : ∀ z ∈ y :: rest, z < x := fun z hz => by
            have hle := single_le_sum (fun _ _ => Nat.zero_le _) z hz
            unfold mergeSkewFactor at hskew
            omega
          rw [getD_cons_zero, filter_cons_of_neg (by simp), drop_zero]
          exact filter_eq_self.mpr fun z hz => by simpa using hall z hz
        | succ cut =>
          have hthreshold : (y :: rest).getD cut 0 ≤ x := by
            rcases lt_or_ge cut (y :: rest).length with hlt | hge
            · rw [getD_eq_getElem _ _ hlt]
              exact hx _ (getElem_mem hlt)
            · rw [getD_eq_default _ _ hge]
              exact Nat.zero_le x
          rw [getD_cons_succ, filter_cons_of_neg (by simpa using hthreshold), hfilter cut hd]
      · refine ⟨?_, by simp⟩
        rintro h y' t ⟨⟩
        exact not_lt.mp hskew

/-- **No candidate outweighs the others**, where there are any. -/
theorem le_of_mem_mergeCandidates (hfits : bytes group ≤ i64Max) (htwo : 2 ≤ (mergeCandidates group).length)
    (hs : s ∈ mergeCandidates group) : (mergeSkewFactor + 1) * s.sizeBytes ≤
      mergeSkewFactor * bytes (mergeCandidates group) := by
  have hperm : (bySize group).Perm (group.map SplitRecord.sizeBytes) := perm_insertionSort _ _
  have hsorted : (bySize group).Pairwise (· ≥ ·) := pairwise_insertionSort _ _
  obtain ⟨hfirst, hfilter⟩ := dominant_spec hsorted (hperm.sum_eq.trans_le hfits)
  have hkept : ((mergeCandidates group).map SplitRecord.sizeBytes).Perm
      ((bySize group).drop (dominant (bySize group))) := by
    unfold mergeCandidates
    cases hd : dominant (bySize group) with
    | zero => exact hperm.symm
    | succ cut =>
      rw [← hfilter cut hd]
      have hmap := (hperm.filter fun n => decide (n < (bySize group).getD cut 0)).symm
      rwa [filter_map] at hmap
  have hdrop := hsorted.drop (i := dominant (bySize group))
  have hlength := hkept.length_eq
  have hmem := hkept.subset (mem_map_of_mem hs)
  rw [length_map] at hlength
  rw [bytes, hkept.sum_eq]
  match hlist : (bySize group).drop (dominant (bySize group)) with
  | [] | [_] =>
    rw [hlist] at hlength
    simp only [length_nil, length_singleton] at hlength
    omega
  | h :: y :: t =>
    have hhead := hfirst h y t hlist
    rw [hlist] at hmem hdrop
    have hle : s.sizeBytes ≤ h := by
      rcases mem_cons.mp hmem with heq | hmem
      · exact heq.le
      · exact (pairwise_cons.mp hdrop).1 _ hmem
    rw [sum_cons]
    unfold mergeSkewFactor at hhead ⊢
    omega

/-- **No split of the group outweighs the others.** -/
def Balanced (group : List SplitRecord) : Prop :=
  ∀ s ∈ group, s.sizeBytes ≤ mergeSkewFactor * bytes (group.erase s)

instance (group : List SplitRecord) : Decidable (Balanced group) := List.decidableBAll _ _

theorem le_others_iff (hs : s ∈ group) :
    s.sizeBytes ≤ mergeSkewFactor * bytes (group.erase s) ↔
      (mergeSkewFactor + 1) * s.sizeBytes ≤ mergeSkewFactor * bytes group := by
  rw [bytes, bytes, ← sum_map_erase SplitRecord.sizeBytes hs]
  unfold mergeSkewFactor
  omega

/-! ### The condition on the splits of a stream -/

section Sizes

variable {b b' : List ℕ} {x y : ℕ}

/-- The other sizes that are not larger. -/
def others (b : List ℕ) (x : ℕ) : List ℕ := (b.erase x).filter (· ≤ x)

/-- A size **outweighs** the smaller ones, of which there are some. -/
def Outweighs (b : List ℕ) (x : ℕ) : Prop := others b x ≠ [] ∧ mergeSkewFactor * (others b x).sum < x

instance : Decidable (Outweighs b x) := inferInstanceAs (Decidable (_ ∧ _))

/-- It contends as long as not all from it upwards outweigh the smaller ones. -/
def Contends (b : List ℕ) (x : ℕ) : Prop := ∃ y ∈ b, x ≤ y ∧ ¬ Outweighs b y

instance : Decidable (Contends b x) := inferInstanceAs (Decidable (∃ y ∈ b, _))

theorem contends_congr (h : b.Perm b') : Contends b x ↔ Contends b' x := by
  have hothers : ∀ y, (others b y).Perm (others b' y) := fun y => (h.erase y).filter _
  have houtweighs : ∀ y, Outweighs b y ↔ Outweighs b' y := fun y => by
    rw [Outweighs, Outweighs, (hothers y).sum_eq, Ne, Ne, ← length_eq_zero_iff, (hothers y).length_eq,
      length_eq_zero_iff]
  simp only [Contends, h.mem_iff, houtweighs]

theorem contends_iff (hsorted : b.Pairwise (· ≥ ·)) (hfits : b.sum ≤ i64Max) (hx : x ∈ b) :
    Contends b x ↔ ∀ cut, dominant b = cut + 1 → x < b.getD cut 0 := by
  induction b generalizing x with
  | nil => cases hx
  | cons z rest ih =>
    obtain ⟨hz, hrest⟩ := pairwise_cons.mp hsorted
    rw [sum_cons] at hfits
    have hothers : others (z :: rest) z = rest := by
      rw [others, erase_cons_head]
      exact filter_eq_self.mpr fun y hy => by simpa using hz y hy
    have hxz : x ≤ z := by
      rcases mem_cons.mp hx with rfl | hx
      · exact le_rfl
      · exact hz x hx
    cases rest with
    | nil =>
      refine iff_of_true ⟨z, mem_cons_self, hxz, fun h => h.1 hothers⟩ fun cut h => ?_
      cases h
    | cons y rest =>
      rw [dominant]
      simp only [skewed_iff (show (y :: rest).sum ≤ i64Max by omega) (show z ≤ i64Max by omega)]
      split_ifs with hskew
      · have hlt : ∀ w ∈ y :: rest, w < z := fun w hw => by
          have hle := single_le_sum (fun _ _ => Nat.zero_le _) w hw
          unfold mergeSkewFactor at hskew
          omega
        have houtweighs : Outweighs (z :: y :: rest) z := by
          rw [Outweighs, hothers]
          exact ⟨cons_ne_nil _ _, hskew⟩
        have hbelow : ∀ w ∈ y :: rest, others (z :: y :: rest) w = others (y :: rest) w := fun w hw => by
          have hw := hlt w hw
          rw [others, others, erase_cons_tail (by simpa using hw.ne'),
            filter_cons_of_neg (by simpa using hw)]
        rcases mem_cons.mp hx with rfl | hx
        · refine iff_of_false ?_ fun h => ?_
          · rintro ⟨w, hw, hle, hnot⟩
            rcases mem_cons.mp hw with rfl | hw
            · exact hnot houtweighs
            · exact absurd (hlt w hw) hle.not_gt
          · have hlast := h _ rfl
            rcases lt_or_ge (dominant (y :: rest)) (x :: y :: rest).length with hin | hout
            · rw [getD_eq_getElem _ _ hin] at hlast
              rcases mem_cons.mp (getElem_mem hin) with heq | hmem
              · exact absurd hlast heq.not_gt
              · exact absurd (hlt _ hmem) hlast.not_gt
            · rw [getD_eq_default _ _ hout] at hlast
              exact absurd hlast (Nat.not_lt_zero _)
        · have hsame : Contends (z :: y :: rest) x ↔ Contends (y :: rest) x := by
            constructor
            · rintro ⟨w, hw, hle, hnot⟩
              rcases mem_cons.mp hw with rfl | hw
              · exact absurd houtweighs hnot
              · exact ⟨w, hw, hle, by rwa [Outweighs, ← hbelow w hw]⟩
            · rintro ⟨w, hw, hle, hnot⟩
              exact ⟨w, mem_cons_of_mem _ hw, hle, by rwa [Outweighs, hbelow w hw]⟩
          rw [hsame, ih hrest (by omega) hx]
          constructor
          · rintro h cut hcut
            cases cut with
            | zero => exact hlt x hx
            | succ cut => exact h cut (Nat.succ.inj hcut)
          · intro h cut hcut
            exact h (cut + 1) (congrArg (· + 1) hcut)
      · refine iff_of_true ⟨z, mem_cons_self, hxz, fun h => hskew ?_⟩ nofun
        rw [← hothers]
        exact h.2

end Sizes

/-- The splits of a stream that contend for a merge, in their order. -/
def contenders (group : List SplitRecord) : List SplitRecord :=
  group.filter fun s => Contends (group.map SplitRecord.sizeBytes) s.sizeBytes

theorem mergeCandidates_eq_contenders (hfits : bytes group ≤ i64Max) :
    mergeCandidates group = contenders group := by
  have hperm : (bySize group).Perm (group.map SplitRecord.sizeBytes) := perm_insertionSort _ _
  have hiff : ∀ s ∈ group, Contends (group.map SplitRecord.sizeBytes) s.sizeBytes ↔
      ∀ cut, dominant (bySize group) = cut + 1 → s.sizeBytes < (bySize group).getD cut 0 := fun s hs => by
    rw [← contends_congr hperm]
    exact contends_iff (pairwise_insertionSort _ _) (hperm.sum_eq.trans_le hfits)
      (hperm.symm.subset (mem_map_of_mem hs))
  unfold mergeCandidates contenders
  cases hd : dominant (bySize group) with
  | zero =>
    refine (filter_eq_self.mpr fun s hs => decide_eq_true ((hiff s hs).mpr fun cut hcut => ?_)).symm
    cases hd.symm.trans hcut
  | succ cut =>
    refine filter_congr fun s hs => decide_eq_decide.mpr ?_
    rw [hiff s hs]
    constructor
    · intro h cut' hcut
      cases hd.symm.trans hcut
      exact h
    · exact fun h => h cut hd

/-- The first `n` of more splits **are cut off** from the others: they reach the target for the first time,
or are as many as may be merged. -/
structure CutOff (c : MergeConfig) (group : List SplitRecord) (n : ℕ) : Prop where
  two_le : 2 ≤ n
  lt_length : n < group.length
  le_max : n ≤ c.maxGroup
  before : ∀ m, 1 ≤ m → m < n → bytes (group.take m) < c.targetBytes
  reaches : c.targetBytes ≤ bytes (group.take n) ∨ n = c.maxGroup

theorem CutOff.eq_mergeTake {n : ℕ} (h : CutOff c group n) (hfits : bytes group ≤ i64Max) :
    mergeTake c group = n := by
  obtain ⟨htwo, hlt, hmax, hbefore, hreaches⟩ := h
  obtain ⟨hle, hend⟩ := mergeTake_spec c group
  have htake : mergeTake c group = 0 → c.targetBytes ≤ 0 := fun hzero => by
    rw [hzero, take_zero] at hend
    exact hend.resolve_right (by omega)
  rcases lt_trichotomy (mergeTake c group) n with hless | heq | hmore
  · rcases Nat.eq_zero_or_pos (mergeTake c group) with hzero | hpos
    · have := hbefore 1 le_rfl (by omega)
      have := htake hzero
      omega
    · have := hbefore _ hpos hless
      omega
  · exact heq
  · have := lt_of_lt_mergeTake hfits (by omega) hmore
    omega

/-- **The condition on the splits of a stream.**  Wherever its contenders are cut off, none of those before
the cut is more than `mergeSkewFactor` times as large as the others before the cut together. -/
def CutEvenly (c : MergeConfig) (group : List SplitRecord) : Prop :=
  ∀ n, CutOff c (contenders group) n → ∀ s ∈ (contenders group).take n,
    s.sizeBytes + mergeSkewFactor * s.sizeBytes ≤ mergeSkewFactor * bytes ((contenders group).take n)

theorem exists_selected (h : e ∈ eligible c small) : selectMergeGroup c small (e.1 - 1) = some e := by
  obtain ⟨e', he'⟩ := exists_select_of_mem (e.1 - 1) h
  obtain ⟨hmem, hfirst⟩ := next_of_select he'
  have hid : e'.1 = e.1 := by
    rcases hfirst with ⟨hlt, hfirst⟩ | hlast
    · have := hfirst e h (by omega)
      omega
    · have := (hlast e h).1
      omega
  have hgroup : e'.2 = e.2 := by
    rw [(mem_eligible_iff.mp hmem).2, (mem_eligible_iff.mp h).2, hid]
  rw [he', Prod.ext hid hgroup]

theorem balanced_iff_take {n : ℕ} : Balanced (group.take n) ↔ ∀ s ∈ group.take n,
    s.sizeBytes + mergeSkewFactor * s.sizeBytes ≤ mergeSkewFactor * bytes (group.take n) := by
  refine forall₂_congr fun s hs => ?_
  rw [le_others_iff hs]
  unfold mergeSkewFactor
  omega

/-- **No group that can be selected has a split that outweighs the others exactly if the splits of every
stream are cut evenly.**  The filter looks at all splits of the stream, and the group is cut afterwards.
The sizes are taken to sum up to no more than 64 bits hold. -/
theorem selected_balanced_iff (c : MergeConfig) {small : List SplitRecord} (hfits : bytes small ≤ i64Max) :
    (∀ cursor, ∀ e ∈ selectMergeGroup c small cursor, Balanced e.2) ↔
      ∀ id, CutEvenly c (small.filter fun s => s.streamId = id) := by
  have hstream : ∀ id, bytes (small.filter fun s => s.streamId = id) ≤ i64Max := fun id =>
    le_trans ((filter_sublist.map _).sum_le_sum fun _ _ => Nat.zero_le _) hfits
  have hcontenders : ∀ id, candidates small id = contenders (small.filter fun s => s.streamId = id) :=
    fun id => mergeCandidates_eq_contenders (hstream id)
  have hkept : ∀ id, bytes (candidates small id) ≤ i64Max := fun id =>
    le_trans (((candidates_sublist small id).map _).sum_le_sum fun _ _ => Nat.zero_le _) hfits
  constructor
  · intro h id n hcut
    rw [← hcontenders] at hcut ⊢
    have htake := hcut.eq_mergeTake (hkept id)
    have hmem : (id, (candidates small id).take n) ∈ eligible c small :=
      mem_eligible_iff.mpr ⟨htake.symm ▸ hcut.two_le, by rw [htake]⟩
    exact balanced_iff_take.mp (h _ _ (exists_selected hmem))
  · intro h cursor e he
    obtain ⟨htwo, hgroup⟩ := mem_eligible_iff.mp (next_of_select he).mem
    obtain ⟨hle, hend⟩ := mergeTake_spec c (candidates small e.1)
    rw [hgroup]
    rcases eq_or_lt_of_le (hle.trans (min_le_left _ _)) with hall | hlt
    · -- all candidates are taken, and the filter has balanced them
      rw [hall, take_length]
      intro s hs
      rw [le_others_iff hs]
      exact le_of_mem_mergeCandidates (hstream e.1) (show 2 ≤ (candidates small e.1).length by omega) hs
    · refine balanced_iff_take.mpr ?_
      have heven := h e.1 (mergeTake c (candidates small e.1))
      rw [← hcontenders] at heven
      exact heven ⟨htwo, hlt, hle.trans (min_le_right _ _), fun m hm hlt => lt_of_lt_mergeTake (hkept e.1) hm hlt,
        hend.imp_right fun heq => by omega⟩

/-- The splits of two streams: of the four of the first, three reach the target, with two that balance the
largest one. -/
def twoStreams : List SplitRecord :=
  [splitOf 1 1 100, splitOf 2 1 5, splitOf 3 2 7, splitOf 4 1 10, splitOf 5 1 20, splitOf 6 2 7]

theorem selected_balanced_twoStreams :
    (∀ cursor, ∀ e ∈ selectMergeGroup ⟨115, 8⟩ twoStreams cursor, Balanced e.2) ∧
      selectMergeGroup ⟨115, 8⟩ twoStreams 0 = some (1, [splitOf 1 1 100, splitOf 2 1 5, splitOf 4 1 10]) := by
  refine ⟨(selected_balanced_iff ⟨115, 8⟩ (by decide)).mpr fun id n hcut => ?_, by decide⟩
  obtain ⟨htwo, hlt, hmax, hbefore, hreaches⟩ := hcut
  rcases eq_or_ne id 1 with rfl | hone
  · have hall : contenders (twoStreams.filter fun s => s.streamId = 1) =
        [splitOf 1 1 100, splitOf 2 1 5, splitOf 4 1 10, splitOf 5 1 20] := by decide
    rw [hall] at hlt hreaches ⊢
    obtain rfl | rfl : n = 2 ∨ n = 3 := by
      simp only [length_cons, length_nil] at hlt
      omega
    · exact absurd hreaches (by decide)
    · decide
  · rcases eq_or_ne id 2 with rfl | htwo'
    · have hall : contenders (twoStreams.filter fun s => s.streamId = 2) =
          [splitOf 3 2 7, splitOf 6 2 7] := by decide
      rw [hall] at hlt
      exact absurd hlt htwo.not_gt
    · have hnone : twoStreams.filter (fun s => s.streamId = id) = [] := by
        simp [twoStreams, splitOf, hone.symm, htwo'.symm]
      rw [hnone] at hlt
      exact absurd hlt (Nat.not_lt_zero n)

/-- **A large split is rewritten for a small one.**  All four splits of the stream are candidates, since
the largest does not outweigh the other three; at most two are taken. -/
theorem skewed_prefix_selected :
    selectMergeGroup ⟨1000, 2⟩ [splitOf 1 1 100, splitOf 2 1 1, splitOf 3 1 10,
      splitOf 4 1 10] 0 = some (1, [splitOf 1 1 100, splitOf 2 1 1]) ∧
    ¬ Balanced [splitOf 1 1 100, splitOf 2 1 1] := by
  decide

end RSearch.Merge
