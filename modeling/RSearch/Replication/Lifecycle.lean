import RSearch.Replication.Put

/-!
# From the acknowledgement of a write to the delete of its object

Once a write is acknowledged its remaining pushes run on, detached.  Later copies are pulled to other
nodes (`replicate`), every node sweeps its disk (`reconcile`), and in the end each live holder drops its
copy, then the placement rows of the key go, then the split row.
-/

namespace RSearch.Replication

open Option Runs

inductive TransferStage where
  /-- The source's file is open. -/
  | pulling (data : Bytes)
  | pulled (size : ℕ)
  /-- The object is gone; the file just pulled goes too. -/
  | discarding
  | ended
  deriving DecidableEq

structure Transfer where
  node : String
  stage : TransferStage
  deriving DecidableEq

inductive SweepStage where
  /-- The file is on disk, with this size. -/
  | found (size : ℕ)
  /-- The guarded insert found no row of the key. -/
  | unknown (size : ℕ)
  /-- The key is tracked: its row is to be restored. -/
  | restoring (size : ℕ)
  /-- The key is tracked nowhere. -/
  | orphan
  | ended
  deriving DecidableEq

structure Sweep where
  node : String
  stage : SweepStage
  deriving DecidableEq

def Sweep.restores (w : Sweep) : Bool :=
  match w.stage with
  | .restoring _ => true
  | _ => false

inductive DeletePhase where
  | idle
  | running
  /-- The rows are dropped. -/
  | dropped
  | returned
  deriving DecidableEq

structure Life where
  object : Object
  /-- A split row references the key. -/
  splitRow : Bool
  pushes : List Push
  transfers : List Transfer
  sweeps : List Sweep
  delete : DeletePhase

def Life.rowsDropped (s : Life) : Prop := s.delete = .dropped ∨ s.delete = .returned

instance (s : Life) : Decidable s.rowsDropped := inferInstanceAs (Decidable (_ ∨ _))

inductive Event where
  | receipt (i : ℕ) (r : Receipt)
  /-- The leader tells a node to pull the object from another. -/
  | beginTransfer (node source : String)
  | pull (i : ℕ)
  | recordTransfer (i : ℕ)
  | discard (i : ℕ)
  | endTransfer (i : ℕ)
  /-- A node's reconcile pass comes to the key. -/
  | beginSweep (node : String)
  | sweepRecord (i : ℕ)
  | sweepKnown (i : ℕ)
  | sweepRestore (i : ℕ)
  | sweepDelete (i : ℕ)
  | endSweep (i : ℕ)
  /-- A row goes: a verify pass, a drain, the expiry of a node, a peer's `DELETE`. -/
  | removeLocation (node : String)
  | stageSplit
  | deleteSplitRow
  | beginDelete
  /-- The delete drops a copy, at a peer or at home. -/
  | deleteCopy (node : String)
  | removeAll
  | returnDelete
  /-- The delete fails, before or after the rows are dropped. -/
  | abortDelete
  deriving DecidableEq

def Life.onTransfer (s : Life) (i : ℕ) (f : Transfer → Option (Object × TransferStage)) :
    Option Life := do
  let w ← s.transfers[i]?
  let (object, stage) ← f w
  some { s with object, transfers := s.transfers.set i { w with stage } }

def Life.onSweep (s : Life) (i : ℕ) (f : Sweep → Option (Object × SweepStage)) : Option Life := do
  let w ← s.sweeps[i]?
  let (object, stage) ← f w
  some { s with object, sweeps := s.sweeps.set i { w with stage } }

def recordPulled (o : Object) (w : Transfer) : Option (Object × TransferStage) :=
  match w.stage with
  | .pulled size =>
    match o.recordLocationIfKnown w.node size with
    | (some _, o') => some (o', .ended)
    | (none, _) => some (o, .discarding)
  | _ => none

def recordFound (o : Object) (w : Sweep) : Option (Object × SweepStage) :=
  match w.stage with
  | .found size =>
    match o.recordLocationIfKnown w.node size with
    | (some _, o') => some (o', .ended)
    | (none, _) => some (o, .unknown size)
  | _ => none

/-- **One event in the life of the object.** -/
def live (network : String → Option String) (data : Bytes) (s : Life) : Event → Option Life
  | .receipt i r => do
    let p ← s.pushes[i]?
    let (object, p') ← receive network data s.object p r
    some { s with object, pushes := s.pushes.set i p' }
  | .beginTransfer node source => do
    let contents ← s.object.files.lookup source
    some { s with transfers := s.transfers ++ [⟨node, .pulling contents⟩] }
  | .pull i => s.onTransfer i fun w =>
    match w.stage with
    | .pulling contents => some (s.object.store w.node contents, .pulled contents.length)
    | _ => none
  | .recordTransfer i => s.onTransfer i (recordPulled s.object)
  | .discard i => s.onTransfer i fun w =>
    if w.stage = .discarding then some (s.object.deleteFile w.node, .ended) else none
  | .endTransfer i => s.onTransfer i fun _ => some (s.object, .ended)
  | .beginSweep node => do
    let contents ← s.object.files.lookup node
    some { s with sweeps := s.sweeps ++ [⟨node, .found contents.length⟩] }
  | .sweepRecord i => s.onSweep i (recordFound s.object)
  | .sweepKnown i => s.onSweep i fun w =>
    match w.stage with
    | .unknown size =>
      -- `object_known`: a placement row or a split row.
      if s.object.rows.keys ≠ [] ∨ s.splitRow = true then some (s.object, .restoring size)
      else some (s.object, .orphan)
    | _ => none
  | .sweepRestore i => s.onSweep i fun w =>
    match w.stage with
    | .restoring size => some (s.object.recordLocation w.node size, .ended)
    | _ => none
  | .sweepDelete i => s.onSweep i fun w =>
    if w.stage = .orphan then some (s.object.deleteFile w.node, .ended) else none
  | .endSweep i => s.onSweep i fun _ => some (s.object, .ended)
  | .removeLocation node => some { s with object := s.object.removeLocation node }
  | .stageSplit => some { s with splitRow := true }
  | .deleteSplitRow => some { s with splitRow := false }
  | .beginDelete => if s.delete = .idle then some { s with delete := .running } else none
  | .deleteCopy node =>
    if s.delete = .running then some { s with object := s.object.deleteFile node } else none
  | .removeAll =>
    if s.delete = .running then
      some { s with object := s.object.removeLocations, delete := .dropped }
    else none
  | .returnDelete => if s.delete = .dropped then some { s with delete := .returned } else none
  | .abortDelete =>
    if s.delete = .running ∨ s.delete = .dropped then some { s with delete := .idle } else none

/-- **The condition.**  When the rows are dropped no push is under way and no sweep has a row to
restore, and while they are, no sweep asks for the key and finds the split row. -/
def DroppedLast (s : Life) : Event → Prop
  | .removeAll => (∀ p ∈ s.pushes, p.ended = true) ∧ ∀ w ∈ s.sweeps, w.restores = false
  | .sweepKnown _ => s.rowsDropped → s.splitRow = false
  | _ => True

instance (s : Life) (e : Event) : Decidable (DroppedLast s e) := by
  unfold DroppedLast
  cases e <;> infer_instance

/-! ## After the rows are dropped -/

theorem Object.recordLocationIfKnown_of_noRows {o : Object} (h : o.rows = ∅) (node : String) (size : ℕ) :
    o.recordLocationIfKnown node size = (none, o) := by
  rw [recordLocationIfKnown, h, if_pos AList.keys_empty]

section

variable {network : String → Option String} {data : Bytes} {s t : Life} {i : ℕ}

variable {f : Transfer → Option (Object × TransferStage)} {e : Event}

theorem Life.onTransfer_eq_some :
    s.onTransfer i f = some t ↔ ∃ w o stage, s.transfers[i]? = some w ∧ f w = some (o, stage) ∧
      t = { s with object := o, transfers := s.transfers.set i { w with stage } } := by
  simp [onTransfer, bind_eq_some_iff, eq_comm (b := t)]

theorem Life.onSweep_eq_some {f : Sweep → Option (Object × SweepStage)} :
    s.onSweep i f = some t ↔ ∃ w o stage, s.sweeps[i]? = some w ∧ f w = some (o, stage) ∧
      t = { s with object := o, sweeps := s.sweeps.set i { w with stage } } := by
  simp [onSweep, bind_eq_some_iff, eq_comm (b := t)]

/-- **Nothing is left to write a row.** -/
structure Quiet (s : Life) : Prop where
  noRows : s.object.rows = ∅
  ended : ∀ p ∈ s.pushes, p.ended = true
  restored : ∀ w ∈ s.sweeps, w.restores = false

theorem Quiet.onTransfer (h : Quiet s) (hf : ∀ w o stage, f w = some (o, stage) → o.rows = ∅)
    (ht : s.onTransfer i f = some t) : Quiet t := by
  obtain ⟨w, o, stage, -, hw, rfl⟩ := Life.onTransfer_eq_some.mp ht
  exact ⟨hf w o stage hw, h.ended, h.restored⟩

theorem Quiet.onSweep (h : Quiet s) {f : Sweep → Option (Object × SweepStage)}
    (hf : ∀ w ∈ s.sweeps, ∀ o stage, f w = some (o, stage) →
      o.rows = ∅ ∧ ({ w with stage } : Sweep).restores = false) (ht : s.onSweep i f = some t) :
    Quiet t := by
  obtain ⟨w, o, stage, hw, hstage, rfl⟩ := Life.onSweep_eq_some.mp ht
  obtain ⟨hrows, hrestores⟩ := hf w (List.mem_of_getElem? hw) o stage hstage
  refine ⟨hrows, h.ended, fun v hv => ?_⟩
  rcases List.mem_or_eq_of_mem_set hv with hv | rfl
  · exact h.restored v hv
  · exact hrestores

theorem Quiet.step (h : Quiet s) (hknown : ∀ i, e = .sweepKnown i → s.splitRow = false)
    (hstep : live network data s e = some t) : Quiet t := by
  cases e with
  | receipt i r =>
    simp only [live, bind_eq_bind, bind_eq_some_iff] at hstep
    obtain ⟨p, hp, ⟨o', p'⟩, hreceive, -⟩ := hstep
    have hended := (receives_of_receive hreceive).not_ended
    rw [h.ended p (List.mem_of_getElem? hp)] at hended
    cases hended
  | beginTransfer node source =>
    simp only [live, bind_eq_bind, bind_eq_some_iff, some.injEq] at hstep
    obtain ⟨contents, -, rfl⟩ := hstep
    exact ⟨h.noRows, h.ended, h.restored⟩
  | pull i =>
    refine h.onTransfer (fun w o stage hw => ?_) hstep
    split at hw
    · cases hw
      exact h.noRows
    · cases hw
  | recordTransfer i =>
    refine h.onTransfer (fun w o stage hw => ?_) hstep
    grind [noRows, Object.recordLocationIfKnown_of_noRows, recordPulled]
  | discard i =>
    refine h.onTransfer (fun w o stage hw => ?_) hstep
    simp only [ite_none_right_eq_some] at hw
    obtain ⟨-, hw⟩ := hw
    cases hw
    exact h.noRows
  | endTransfer i =>
    refine h.onTransfer (fun w o stage hw => ?_) hstep
    cases hw
    exact h.noRows
  | beginSweep node =>
    simp only [live, bind_eq_bind, bind_eq_some_iff, some.injEq] at hstep
    obtain ⟨contents, -, rfl⟩ := hstep
    refine ⟨h.noRows, h.ended, fun w hw => ?_⟩
    rcases List.mem_append.mp hw with hw | hw
    · exact h.restored w hw
    · rw [List.mem_singleton.mp hw]
      rfl
  | sweepRecord i =>
    refine h.onSweep (fun w _ o stage hw => ?_) hstep
    simp only [recordFound] at hw
    split at hw
    · rw [Object.recordLocationIfKnown_of_noRows h.noRows] at hw
      cases hw
      exact ⟨h.noRows, rfl⟩
    · cases hw
  | sweepKnown i =>
    refine h.onSweep (fun w _ o stage hw => ?_) hstep
    rw [h.noRows, hknown i rfl] at hw
    split at hw
    · cases hw
      exact ⟨h.noRows, rfl⟩
    · cases hw
  | sweepRestore i =>
    refine h.onSweep (fun w hmem o stage hw => ?_) hstep
    have hrestored := h.restored w hmem
    grind [Sweep.restores]
  | sweepDelete i =>
    refine h.onSweep (fun w _ o stage hw => ?_) hstep
    simp only [ite_none_right_eq_some] at hw
    obtain ⟨-, hw⟩ := hw
    cases hw
    exact ⟨h.noRows, rfl⟩
  | endSweep i =>
    refine h.onSweep (fun w _ o stage hw => ?_) hstep
    cases hw
    exact ⟨h.noRows, rfl⟩
  | removeLocation node =>
    cases hstep
    refine ⟨?_, h.ended, h.restored⟩
    rw [Object.rows_removeLocation, h.noRows]
    rfl
  | stageSplit | deleteSplitRow =>
    cases hstep
    exact ⟨h.noRows, h.ended, h.restored⟩
  | removeAll =>
    simp only [live, ite_none_right_eq_some, some.injEq] at hstep
    obtain ⟨-, rfl⟩ := hstep
    exact ⟨rfl, h.ended, h.restored⟩
  | beginDelete | deleteCopy | returnDelete | abortDelete =>
    simp only [live, ite_none_right_eq_some, some.injEq] at hstep
    obtain ⟨-, rfl⟩ := hstep
    exact ⟨h.noRows, h.ended, h.restored⟩

theorem rowsDropped_of_step (hstep : live network data s e = some t) (ht : t.rowsDropped) :
    s.rowsDropped ∨ e = .removeAll := by
  cases e with
  | removeAll => exact .inr rfl
  | receipt i r =>
    simp only [live, bind_eq_bind, bind_eq_some_iff] at hstep
    obtain ⟨p, -, ⟨o', p'⟩, -, hstep⟩ := hstep
    cases hstep
    exact .inl ht
  | beginTransfer node source | beginSweep node =>
    simp only [live, bind_eq_bind, bind_eq_some_iff, some.injEq] at hstep
    obtain ⟨contents, -, rfl⟩ := hstep
    exact .inl ht
  | pull i | recordTransfer i | discard i | endTransfer i =>
    obtain ⟨w, o, stage, -, -, rfl⟩ := Life.onTransfer_eq_some.mp hstep
    exact .inl ht
  | sweepRecord i | sweepKnown i | sweepRestore i | sweepDelete i | endSweep i =>
    obtain ⟨w, o, stage, -, -, rfl⟩ := Life.onSweep_eq_some.mp hstep
    exact .inl ht
  | removeLocation node | stageSplit | deleteSplitRow =>
    cases hstep
    exact .inl ht
  | returnDelete =>
    simp only [live, ite_none_right_eq_some, some.injEq] at hstep
    exact .inl (.inl hstep.1)
  | deleteCopy node =>
    simp only [live, ite_none_right_eq_some, some.injEq] at hstep
    obtain ⟨-, rfl⟩ := hstep
    exact .inl ht
  | beginDelete | abortDelete =>
    simp only [live, ite_none_right_eq_some, some.injEq] at hstep
    obtain ⟨-, rfl⟩ := hstep
    rcases ht with ht | ht <;> cases ht

theorem quiet_step (s : Life) (e : Event) (t : Life) (h : s.rowsDropped → Quiet s)
    (hcond : DroppedLast s e) (hstep : live network data s e = some t) : t.rowsDropped → Quiet t := by
  intro ht
  rcases rowsDropped_of_step hstep ht with hs | rfl
  · refine (h hs).step (fun i hi => ?_) hstep
    subst hi
    exact hcond hs
  · simp only [live, ite_none_right_eq_some, some.injEq] at hstep
    obtain ⟨-, rfl⟩ := hstep
    exact ⟨rfl, hcond.1, hcond.2⟩

theorem Quiet.noRows_step (h : Quiet s) (hstep : live network data s e = some t) :
    t.object.rows = ∅ := by
  by_cases hknown : ∃ i, e = .sweepKnown i
  · obtain ⟨i, rfl⟩ := hknown
    obtain ⟨w, o, stage, -, hw, rfl⟩ := Life.onSweep_eq_some.mp hstep
    grind [noRows]
  · exact (h.step (fun i hi => absurd ⟨i, hi⟩ hknown) hstep).noRows

end

/-- **A deleted object stays deleted** in every run that meets the condition: once the delete has
returned there is no placement row, and no step creates one. -/
theorem no_row_after_delete (network : String → Option String) (data : Bytes) {s₀ s t : Life}
    {events : List Event} {e : Event} (hbefore : ¬s₀.rowsDropped)
    (halong : Along (live network data) DroppedLast s₀ events)
    (hrun : run (live network data) s₀ events = some s) (hreturned : s.delete = .returned)
    (hstep : live network data s e = some t) : s.object.rows = ∅ ∧ t.object.rows = ∅ := by
  have hquiet := run_invariant (live network data) (I := fun s => s.rowsDropped → Quiet s) quiet_step
    (fun h => absurd h hbefore) halong hrun (.inr hreturned)
  exact ⟨hquiet.noRows, hquiet.noRows_step hstep⟩

/-- A write acknowledged by the nodes `a` and `b`; the push to `c` is under way, if it still is. -/
def acknowledged (stage : Stage) : Life where
  object := (((Object.absent.store "a" [7]).recordLocation "a" 1).store "b" [7]).recordLocation "b" 1
  splitRow := true
  pushes := [⟨"c", "http://c:9200", stage, none⟩]
  transfers := []
  sweeps := []
  delete := .idle

def deletedRun : List Event :=
  [.beginDelete, .deleteCopy "b", .removeLocation "b", .deleteCopy "a", .removeAll, .returnDelete,
    .deleteSplitRow]

def thirdNetwork : String → Option String
  | "http://c:9200" => some "c"
  | _ => none

/-- The push to `c` has failed and a pull from `a` ends only after the delete: it is recorded
nowhere. -/
theorem no_row_after_delete_latePull :
    ∃ s t, run (live thirdNetwork [7]) (acknowledged (.stopped true))
        (.beginTransfer "d" "a" :: deletedRun ++ [.pull 0]) = some s ∧
      live thirdNetwork [7] s (.recordTransfer 0) = some t ∧
      s.delete = .returned ∧ t.object.rows = ∅ := by
  obtain ⟨s, hrun, hreturned, hnext⟩ : ∃ s, run (live thirdNetwork [7]) (acknowledged (.stopped true))
      (.beginTransfer "d" "a" :: deletedRun ++ [.pull 0]) = some s ∧ s.delete = .returned ∧
        (live thirdNetwork [7] s (.recordTransfer 0)).isSome := by
    decide +kernel
  obtain ⟨t, ht⟩ := isSome_iff_exists.mp hnext
  exact ⟨s, t, hrun, ht, hreturned,
    (no_row_after_delete thirdNetwork [7] (by decide) (by decide +kernel) hrun hreturned ht).2⟩

/-- **A straggler brings a deleted object back.**  The delete has returned, no split row references
the key, and the push to `c` stores its file and records a row for it. -/
theorem straggler_recreates_row :
    ∃ s t, run (live thirdNetwork [7]) (acknowledged .sending) deletedRun = some s ∧
      s.delete = .returned ∧ s.splitRow = false ∧ s.object.rows.keys = [] ∧
      run (live thirdNetwork [7]) s [.receipt 0 .store, .receipt 0 .record] = some t ∧
      t.delete = .returned ∧ t.splitRow = false ∧ t.object.rows.keys = ["c"] := by
  simp only [exists_and_left]
  decide +kernel

end RSearch.Replication
