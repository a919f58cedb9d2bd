import Mathlib
import RSearch.Index.Date

/-!
# Tail sessions

Documents become visible late, so each poll reads a trailing window again and drops what the session has
already sent.  A set of sent entries that grows too large is emptied, and the window then begins, inclusively,
at the end of the poll (`sent_once_iff`).
-/

namespace RSearch.Loki.Tail

open List Index

def tailRescanMs : ℤ := 60000

def tailSeenCap : ℕ := 100000

/-- The timestamp, line and labels of a hit: what is hashed. -/
abbrev Entry := ℤ × String × List (String × String)

/-- The most hits that a query answers with. -/
def scanLimit : ℕ := 5000

/-- A poll: the clock it reads, and what the query from a watermark up to that time answers, if it does.  Both
bounds of the query are read as epochs of unknown unit, so that a clock of our days is read as it is; the hits
are the newest ones, up to the limit. -/
structure Poll where
  endMs : ℤ
  outcome : ℤ → Option (List Entry)
  clockLow : 100000000000 ≤ endMs
  clockHigh : endMs ≤ maxSafeMillis
  inside : ∀ watermark, ∀ hits ∈ outcome watermark, ∀ e ∈ hits,
    epochToMillis watermark ≤ e.1 ∧ e.1 ≤ epochToMillis endMs
  capped : ∀ watermark, ∀ hits ∈ outcome watermark, hits.length ≤ scanLimit

/-- The polls of a session: the clock does not go back. -/
structure Polls where
  list : List Poll
  clock : list.Pairwise (·.endMs ≤ ·.endMs)

/-- How far a session has read, what it remembers, and all it has sent. -/
structure Session where
  watermarkMs : ℤ
  seen : List Entry
  sent : List Entry

/-- The hits that the set does not hold, each once: it holds them from then on. -/
def fresh : List Entry → List Entry → List Entry
  | _, [] => []
  | seen, e :: hits => if e ∈ seen then fresh seen hits else e :: fresh (e :: seen) hits

def Session.tick (s : Session) (p : Poll) : Session :=
  if p.endMs ≤ s.watermarkMs then s
  else
    match p.outcome s.watermarkMs with
    | none => s
    | some hits =>
      let new := fresh s.seen hits
      let sent := s.sent ++ new.mergeSort fun a b => decide (a.1 ≤ b.1)
      if tailSeenCap < (new ++ s.seen).length then ⟨p.endMs, [], sent⟩
      else ⟨max s.watermarkMs (p.endMs - tailRescanMs), new ++ s.seen, sent⟩

def session (start : ℤ) (polls : List Poll) : Session :=
  polls.foldl Session.tick ⟨start, [], []⟩

/-- The poll finds, at the very watermark, an entry that was sent and is no longer remembered. -/
def Session.FindsForgotten (s : Session) (p : Poll) : Prop :=
  s.watermarkMs < p.endMs ∧
    ∃ hits ∈ p.outcome s.watermarkMs, ∃ e ∈ hits, e.1 = s.watermarkMs ∧ e ∈ s.sent ∧ e ∉ s.seen

theorem fresh_spec (seen hits : List Entry) :
    (fresh seen hits).Nodup ∧ ∀ e, e ∈ fresh seen hits ↔ e ∈ hits ∧ e ∉ seen := by
  induction hits generalizing seen with
  | nil => simp [fresh]
  | cons e hits ih => grind [fresh]

theorem epochToMillis_of_clock {ms : ℤ} (hsince : 100000000000 ≤ ms) (huntil : ms ≤ maxSafeMillis) :
    epochToMillis ms = ms := by
  unfold epochToMillis clampMillis
  unfold maxSafeMillis i64Max at *
  dsimp only
  split_ifs <;> omega

/-- What holds of a session between polls: it remembers only what it has sent, and what it has forgotten
is not younger than the watermark, which is then one that a poll has read off the clock, or a later one. -/
structure Session.Holds (s : Session) (polls : List Poll) : Prop where
  remembers : ∀ e ∈ s.seen, e ∈ s.sent
  forgets : ∀ e ∈ s.sent, e ∈ s.seen ∨
    e.1 ≤ s.watermarkMs ∧ 100000000000 ≤ s.watermarkMs ∧ s.watermarkMs ≤ maxSafeMillis
  past : ∀ e ∈ s.sent, ∀ p ∈ polls, e.1 ≤ p.endMs

variable {s : Session} {p : Poll} {polls : List Poll}

/-- A poll that is read: what it sends, and what the session remembers then. -/
theorem Session.tick_cases (s : Session) (p : Poll) :
    s.tick p = s ∧ ¬s.FindsForgotten p ∨ ∃ hits ∈ p.outcome s.watermarkMs, s.watermarkMs < p.endMs ∧
        (∃ new, new.Perm (fresh s.seen hits) ∧ (s.tick p).sent = s.sent ++ new) ∧
        ((s.tick p).seen = [] ∧ (s.tick p).watermarkMs = p.endMs ∨
          (s.tick p).seen = fresh s.seen hits ++ s.seen ∧
            (s.tick p).watermarkMs = max s.watermarkMs (p.endMs - tailRescanMs)) := by
  unfold tick
  split_ifs with hend
  · exact .inl ⟨rfl, fun h => absurd h.1 hend.not_gt⟩
  cases hout : p.outcome s.watermarkMs with
  | none => exact .inl ⟨rfl, fun ⟨_, _, hmem, _⟩ => by simp [hout] at hmem⟩
  | some hits =>
    refine .inr ⟨hits, rfl, not_le.mp hend, ⟨_, mergeSort_perm _ fun a b => decide (a.1 ≤ b.1), ?_⟩, ?_⟩
    · dsimp only
      split_ifs <;> rfl
    · dsimp only
      split_ifs
      · exact .inl ⟨rfl, rfl⟩
      · exact .inr ⟨rfl, rfl⟩

theorem Session.Holds.tick (h : s.Holds (p :: polls)) (hclock : ∀ q ∈ polls, p.endMs ≤ q.endMs) :
    (s.tick p).Holds polls := by
  obtain ⟨heq, -⟩ | ⟨hits, hout, hend, ⟨new, hperm, hsent⟩, hseen⟩ := s.tick_cases p
  · rw [heq]
    exact ⟨h.remembers, h.forgets, fun e he q hq => h.past e he q (mem_cons_of_mem _ hq)⟩
  · have hinside := p.inside _ hits hout
    have huntil := p.clockHigh
    rw [epochToMillis_of_clock p.clockLow p.clockHigh] at hinside
    obtain ⟨hremembers, hforgets, hpast⟩ := h
    simp only [forall_mem_cons] at hpast
    have hnew : ∀ e, e ∈ new ↔ e ∈ hits ∧ e ∉ s.seen := fun e =>
      hperm.mem_iff.trans ((fresh_spec ..).2 e)
    refine ⟨?_, ?_, ?_⟩ <;> rw [hsent]
    · grind [fresh_spec]
    · rcases hseen with ⟨-, hwatermark⟩ | ⟨hkeeps, hwatermark⟩ <;> rw [hwatermark]
      · exact fun e he => .inr ⟨by grind, p.clockLow, p.clockHigh⟩
      · intro e he
        by_cases hseen : e ∈ (s.tick p).seen
        · exact .inl hseen
        · obtain ⟨hle, hlow, hhigh⟩ := (hforgets e (by grind [fresh_spec])).resolve_left (by grind)
          refine .inr ⟨le_max_of_le_left hle, le_max_of_le_left hlow, max_le hhigh ?_⟩
          unfold tailRescanMs
          omega
    · grind

theorem Session.Holds.nodup_tick_iff (h : s.Holds (p :: polls)) :
    (s.tick p).sent.Nodup ↔ s.sent.Nodup ∧ ¬s.FindsForgotten p := by
  obtain ⟨heq, hnot⟩ | ⟨hits, hout, hend, ⟨new, hperm, hsent⟩, -⟩ := s.tick_cases p
  · rw [heq]
    exact (and_iff_left hnot).symm
  · have hnew : ∀ e, e ∈ new ↔ e ∈ hits ∧ e ∉ s.seen := fun e =>
      hperm.mem_iff.trans ((fresh_spec ..).2 e)
    have hinside := p.inside _ hits hout
    have hnodup := hperm.nodup_iff.mpr (fresh_spec ..).1
    rw [hsent, nodup_append, FindsForgotten, Option.mem_def.mp hout]
    refine and_congr_right fun _ => ⟨?_, ?_⟩
    · rintro ⟨-, hapart⟩ ⟨-, _, ⟨⟩, e, he, -, hsent, hseen⟩
      exact hapart e hsent e ((hnew e).mpr ⟨he, hseen⟩) rfl
    · refine fun hnot => ⟨hnodup, ?_⟩
      rintro e hsent _ he rfl
      obtain ⟨hhit, hseen⟩ := (hnew e).mp he
      obtain ⟨hle, hsince, huntil⟩ := (h.forgets e hsent).resolve_left hseen
      have hfrom := (hinside e hhit).1
      rw [epochToMillis_of_clock hsince huntil] at hfrom
      exact hnot ⟨hend, hits, rfl, e, hhit, le_antisymm hle hfrom, hsent, hseen⟩

theorem sublist_foldl (s : Session) (polls : List Poll) : s.sent <+ (polls.foldl Session.tick s).sent := by
  induction polls generalizing s with
  | nil => exact .refl _
  | cons p polls ih =>
    refine .trans ?_ (ih (s.tick p))
    obtain ⟨heq, -⟩ | ⟨_, _, _, ⟨new, -, hsent⟩, -⟩ := s.tick_cases p
    · rw [heq]
    · rw [hsent]
      exact sublist_append_left ..

theorem Session.holds_start (start : ℤ) (polls : List Poll) : Session.Holds ⟨start, [], []⟩ polls := by
  constructor <;> simp

theorem Session.Holds.nodup_iff (h : s.Holds polls) (hclock : polls.Pairwise (·.endMs ≤ ·.endMs))
    (hs : s.sent.Nodup) : (polls.foldl Session.tick s).sent.Nodup ↔
      ∀ before p after, polls = before ++ p :: after →
        ¬(before.foldl Session.tick s).FindsForgotten p := by
  induction polls generalizing s with
  | nil => simpa using hs
  | cons p polls ih =>
    obtain ⟨hfirst, hclock⟩ := pairwise_cons.mp hclock
    constructor
    · intro hnodup before q after heq
      have htick := (h.nodup_tick_iff.mp (hnodup.sublist (sublist_foldl ..)))
      cases before with
      | nil =>
        cases heq
        exact htick.2
      | cons _ before =>
        cases heq
        exact (ih (h.tick hfirst) hclock (h.nodup_tick_iff.mpr htick)).mp hnodup before q after rfl
    · intro hnone
      have htick := h.nodup_tick_iff.mpr ⟨hs, hnone [] p polls rfl⟩
      exact (ih (h.tick hfirst) hclock htick).mpr fun before q after heq =>
        hnone (p :: before) q after (congrArg _ heq)

/-- **No entry is sent twice exactly if no poll finds, at the very watermark, an entry that the session
has sent and forgotten.** -/
theorem sent_once_iff (start : ℤ) (polls : Polls) : (session start polls.list).sent.Nodup ↔
    ∀ before p after, polls.list = before ++ p :: after → ¬(session start before).FindsForgotten p :=
  (Session.holds_start ..).nodup_iff polls.clock nodup_nil

/-! ### A session that is sent lines twice -/

/-- The time of the `k`-th poll, a second after the one before it; the session has 22. -/
def pollTime (k : ℕ) : ℤ := 1700000000000 + 1000 * min k 21

/-- As many lines of one millisecond as a query answers with. -/
def batch (k : ℕ) : List Entry :=
  (range scanLimit).map fun i => (pollTime k, .ofList (replicate i 'a'), [])

theorem length_batch (k : ℕ) : (batch k).length = scanLimit := by
  rw [batch, length_map, length_range]

theorem nodup_batch (k : ℕ) : (batch k).Nodup :=
  nodup_range.map fun i j h => by simpa using congrArg (·.2.1.toList.length) h

theorem fst_of_mem_batch {k : ℕ} {e : Entry} (h : e ∈ batch k) : e.1 = pollTime k := by
  obtain ⟨i, -, rfl⟩ := mem_map.mp h
  rfl

theorem pollTime_inside (k : ℕ) : 100000000000 ≤ pollTime k ∧ pollTime k ≤ maxSafeMillis := by
  unfold pollTime maxSafeMillis i64Max
  omega

/-- The `k`-th poll finds the lines of the `j`-th. -/
def busyPoll (k j : ℕ) (hle : pollTime j ≤ pollTime k) : Poll where
  endMs := pollTime k
  outcome w := if epochToMillis w ≤ pollTime j then some (batch j) else none
  clockLow := (pollTime_inside k).1
  clockHigh := (pollTime_inside k).2
  inside w hits hhits e he := by
    obtain ⟨hfrom, hbatch⟩ := Option.ite_none_right_eq_some.mp hhits
    obtain rfl := Option.some.inj hbatch
    rw [fst_of_mem_batch he, epochToMillis_of_clock (pollTime_inside k).1 (pollTime_inside k).2]
    exact ⟨hfrom, hle⟩
  capped w hits hhits := by
    obtain ⟨-, hbatch⟩ := Option.ite_none_right_eq_some.mp hhits
    obtain rfl := Option.some.inj hbatch
    exact (length_batch j).le

theorem busyPoll_outcome {k j : ℕ} (hle : pollTime j ≤ pollTime k) {w : ℤ} (h : epochToMillis w ≤ pollTime j) :
    (busyPoll k j hle).outcome w = some (batch j) :=
  if_pos h

/-- The first `k` polls, each of which finds the lines of its own millisecond. -/
def busyPolls (k : ℕ) : List Poll := (range k).map fun i => busyPoll i i le_rfl

/-- The lines of a poll are new to a session that has seen none of its millisecond. -/
theorem tick_busyPoll {s : Session} {k : ℕ} (hfrom : 100000000000 ≤ s.watermarkMs)
    (hto : s.watermarkMs < pollTime k) (hseen : ∀ e ∈ s.seen, e.1 < pollTime k) :
    ∃ new, new.Perm (batch k) ∧ s.tick (busyPoll k k le_rfl) =
      if tailSeenCap < (new ++ s.seen).length then
        ⟨pollTime k, [], s.sent ++ new.mergeSort fun a b => decide (a.1 ≤ b.1)⟩
      else ⟨max s.watermarkMs (pollTime k - tailRescanMs), new ++ s.seen,
        s.sent ++ new.mergeSort fun a b => decide (a.1 ≤ b.1)⟩ := by
  refine ⟨fresh s.seen (batch k), ?_, ?_⟩
  · refine (perm_ext_iff_of_nodup (fresh_spec ..).1 (nodup_batch k)).mpr fun e => ?_
    rw [(fresh_spec ..).2]
    exact and_iff_left_of_imp fun he hs => (hseen e hs).ne (fst_of_mem_batch he)
  · have houtcome : (busyPoll k k le_rfl).outcome s.watermarkMs = some (batch k) := by
      refine busyPoll_outcome le_rfl ?_
      rw [epochToMillis_of_clock hfrom (hto.le.trans (pollTime_inside k).2)]
      exact hto.le
    rw [Session.tick, if_neg (show ¬ (busyPoll k k le_rfl).endMs ≤ s.watermarkMs from not_le.mpr hto),
      houtcome]
    rfl

theorem session_succ (start : ℤ) (k : ℕ) : session start (busyPolls (k + 1)) =
    (session start (busyPolls k)).tick (busyPoll k k le_rfl) := by
  rw [session, busyPolls, range_succ, map_append, foldl_append]
  rfl

/-- Up to twenty polls the session remembers everything. -/
theorem session_busyPolls {k : ℕ} (hk : k ≤ 20) :
    (session 1699999000000 (busyPolls k)).seen.length = k * scanLimit ∧
    (∀ e ∈ (session 1699999000000 (busyPolls k)).seen, e.1 < pollTime k) ∧
    100000000000 ≤ (session 1699999000000 (busyPolls k)).watermarkMs ∧
    (session 1699999000000 (busyPolls k)).watermarkMs < pollTime k := by
  induction k with
  | zero => exact ⟨rfl, nofun, by decide, by decide⟩
  | succ k ih =>
    obtain ⟨hlength, hseen, hfrom, hto⟩ := ih (by omega)
    obtain ⟨new, hperm, htick⟩ := tick_busyPoll hfrom hto hseen
    have hnext : pollTime k < pollTime (k + 1) := by
      unfold pollTime
      omega
    have hcount : (new ++ (session 1699999000000 (busyPolls k)).seen).length = (k + 1) * scanLimit := by
      rw [length_append, hlength, hperm.length_eq, length_batch]
      ring
    rw [if_neg (by rw [hcount]; unfold tailSeenCap scanLimit; omega)] at htick
    rw [session_succ, htick]
    refine ⟨hcount, fun e he => ?_, le_max_of_le_left hfrom, max_lt (hto.trans hnext) ?_⟩
    · rcases mem_append.mp he with he | he
      · rw [fst_of_mem_batch (hperm.subset he)]
        exact hnext
      · exact (hseen e he).trans hnext
    · unfold tailRescanMs
      omega

/-- **A busy session.**  The lines of its twenty-first poll are more than the set may hold, so that it is
emptied; the next poll finds these lines again, which are of the millisecond it starts from. -/
theorem busy_lines_sent_twice : ∃ start, ∃ polls : Polls, ¬(session start polls.list).sent.Nodup := by
  have hclock : (busyPolls 21 ++ [busyPoll 21 20 (by decide)]).Pairwise (·.endMs ≤ ·.endMs) := by
    have htimes : (range 22).Pairwise fun i j => pollTime i ≤ pollTime j :=
      pairwise_lt_range.imp fun h => by
        unfold pollTime
        omega
    rw [show (22 : ℕ) = 21 + 1 from rfl, range_succ] at htimes
    refine pairwise_append.mpr ⟨pairwise_map.mpr (pairwise_append.mp htimes).1, pairwise_singleton _ _, ?_⟩
    intro p hp q hq
    obtain ⟨i, hi, rfl⟩ := mem_map.mp hp
    cases mem_singleton.mp hq
    exact (pairwise_append.mp htimes).2.2 i hi 21 (mem_singleton_self 21)
  refine ⟨1699999000000, ⟨_, hclock⟩, fun h => ?_⟩
  refine ((Session.holds_start ..).nodup_iff hclock nodup_nil).mp h (busyPolls 21) _ [] rfl ?_
  obtain ⟨hlength, hseen, hfrom, hto⟩ := session_busyPolls le_rfl
  obtain ⟨new, hperm, htick⟩ := tick_busyPoll hfrom hto hseen
  have hcount : (new ++ (session 1699999000000 (busyPolls 20)).seen).length = 21 * scanLimit := by
    rw [length_append, hlength, hperm.length_eq, length_batch]
    ring
  rw [if_pos (by rw [hcount]; decide)] at htick
  obtain ⟨e, he⟩ := exists_mem_of_length_pos ((length_batch 20).symm ▸ show 0 < scanLimit by decide)
  rw [show (busyPolls 21).foldl Session.tick _ = _ from (session_succ 1699999000000 20).trans htick]
  have hfrom : epochToMillis (pollTime 20) ≤ pollTime 20 := by decide
  refine ⟨show pollTime 20 < pollTime 21 by decide, batch 20, busyPoll_outcome _ hfrom, e, he, fst_of_mem_batch he, ?_, not_mem_nil⟩
  exact mem_append_right _ (mem_mergeSort.mpr (hperm.symm.subset he))

end RSearch.Loki.Tail
