import RSearch.Lib.Runs

/-!
# Placement rows without a file

A node removes its placement rows whose file is not on its disk (`verify_placements`).  It first asks
the metastore whether another node has a row for the object: the last one is removed only when the
node's object root is not empty, and reported.  The control leader meanwhile expires dead nodes
(`expire_dead_nodes`), with those rows for which another one survives on a registered node.
-/

namespace RSearch.Replication.Verify

open Option Function Verify

inductive DiskCheck where
  | present
  | absent
  | error
  deriving DecidableEq

/-- A running `verify_placements`: the number of files listed before it began, the keys of the page
that are left, and the counters it reports.  `judged` is the key whose file is missing and whether its
row was found to be the last one, **between the question and the removal**. -/
structure Pass (Key : Type) where
  filesOnDisk : ℕ
  page : List Key
  judged : Option (Key × Bool)
  removed : ℕ
  lastCopies : ℕ
  keptSole : ℕ
  checkErrors : ℕ

def Pass.begun {Key : Type} (filesOnDisk : ℕ) : Pass Key := ⟨filesOnDisk, [], none, 0, 0, 0, 0⟩

/-- A running `expire_dead_nodes`: the nodes its first statement has deleted and the rows its second one
has, none of which is gone before the commit. -/
structure Expiry (Key Node : Type) where
  dead : Finset Node
  doomed : Finset (Key × Node)

/-- Who removes rows: the verification on a node, and the expiry a node runs as the leader. -/
inductive Party (Node : Type) where
  | pass (node : Node)
  | expiry (node : Node)
  deriving DecidableEq, Fintype

structure State (Key Node : Type) where
  rows : Finset (Key × Node)
  nodes : Finset Node
  passes : Node → Option (Pass Key)
  expiries : Node → Option (Expiry Key Node)

open Verify.State

/-- What can happen.  The environment chooses which rows are old enough to be listed, what the disk
says, whether a statement fails, which nodes have not been heard of for long enough, and when copies are
recorded and nodes heard of. -/
inductive Action (Key Node : Type) where
  | start (node : Node) (filesOnDisk : ℕ)
  | list (node : Node) (page : List Key)
  | check (node : Node) (disk : DiskCheck) (answered : Bool)
  | remove (node : Node) (done : Bool)
  | finish (node : Node)
  | expire (node : Node) (dead : Finset Node)
  | commit (node : Node)
  | rollback (node : Node)
  | record (key : Key) (node : Node)
  | heartbeat (node : Node)

variable {Key Node : Type} [DecidableEq Key] [DecidableEq Node]

def otherHoldersExist (rows : Finset (Key × Node)) (key : Key) (node : Node) : Bool :=
  decide (∃ r ∈ rows, r.1 = key ∧ r.2 ≠ node)

/-- Whether the node takes its row for the last one of the object.  A question that is **not answered**
counts as "others exist". -/
def soleHolder (rows : Finset (Key × Node)) (key : Key) (node : Node) (answered : Bool) : Bool :=
  !(if answered then otherHoldersExist rows key node else true)

/-- One turn of the loop over a page, up to the removal.  The last row is kept over an empty object
root. -/
def Pass.check (p : Pass Key) (rows : Finset (Key × Node)) (node : Node) (disk : DiskCheck)
    (answered : Bool) : Option (Pass Key) :=
  match p.page, p.judged with
  | key :: page, none =>
    match disk with
    | .present => some { p with page }
    | .error => some { p with page, checkErrors := p.checkErrors + 1 }
    | .absent =>
      if soleHolder rows key node answered ∧ p.filesOnDisk = 0 then
        some { p with page, keptSole := p.keptSole + 1 }
      else some { p with page, judged := some (key, soleHolder rows key node answered) }
  | _, _ => none

def Pass.counted (p : Pass Key) (sole : Bool) : Pass Key :=
  { p with
    judged := none
    removed := p.removed + 1
    lastCopies := if sole then p.lastCopies + 1 else p.lastCopies }

/-- The rows the expiry's second statement deletes: those of the dead nodes whose object has a row on a
node that is neither dead nor unregistered. -/
def doomedRows (rows : Finset (Key × Node)) (nodes dead : Finset Node) : Finset (Key × Node) :=
  rows.filter fun r => r.2 ∈ dead ∧ ∃ t ∈ rows, t.1 = r.1 ∧ t.2 ∉ dead ∧ t.2 ∈ nodes

namespace State

def initial (rows : Finset (Key × Node)) (nodes : Finset Node) : State Key Node :=
  ⟨rows, nodes, fun _ => none, fun _ => none⟩

def setPass (s : State Key Node) (node : Node) (p : Option (Pass Key)) : State Key Node :=
  { s with passes := Function.update s.passes node p }

def setExpiry (s : State Key Node) (node : Node) (e : Option (Expiry Key Node)) : State Key Node :=
  { s with expiries := Function.update s.expiries node e }

def HasRow (s : State Key Node) (key : Key) : Prop := ∃ r ∈ s.rows, r.1 = key

instance (s : State Key Node) (key : Key) : Decidable (s.HasRow key) :=
  inferInstanceAs (Decidable (∃ r ∈ s.rows, r.1 = key))

/-- The objects a party has **read about and not yet removed** a row of. -/
def pending (s : State Key Node) : Party Node → Finset Key
  | .pass n => (((s.passes n).bind Pass.judged).map Prod.fst).toFinset
  | .expiry n => ((s.expiries n).map fun e => e.doomed.image Prod.fst).getD ∅

end State

def step (s : State Key Node) : Action Key Node → Option (State Key Node)
  | .start n files => if (s.passes n).isNone then some (s.setPass n (some (.begun files))) else none
  | .list n page =>
    (s.passes n).bind fun p =>
      if p.page = [] ∧ p.judged.isNone ∧ ∀ key ∈ page, (key, n) ∈ s.rows then
        some (s.setPass n (some { p with page }))
      else none
  | .check n disk answered =>
    (s.passes n).bind fun p =>
      (p.check s.rows n disk answered).map fun p' => s.setPass n (some p')
  | .remove n done =>
    (s.passes n).bind fun p => p.judged.map fun j =>
      if done then
        { s.setPass n (some (p.counted j.2)) with rows := s.rows.erase (j.1, n) }
      else s.setPass n (some { p with judged := none })
  | .finish n => some (s.setPass n none)
  | .expire n dead =>
    if (s.expiries n).isNone ∧ dead ⊆ s.nodes then
      some (s.setExpiry n (some ⟨dead, doomedRows s.rows s.nodes dead⟩))
    else none
  | .commit n =>
    (s.expiries n).map fun e =>
      { s.setExpiry n none with rows := s.rows \ e.doomed, nodes := s.nodes \ e.dead }
  | .rollback n => (s.expiries n).map fun _ => s.setExpiry n none
  | .record key n => some { s with rows := insert (key, n) s.rows }
  | .heartbeat n => some { s with nodes := insert n s.nodes }

/-- **Nobody is disturbed** by the action: a question is answered, and a party that removes rows shares
no object with another one that is about to. -/
def Undisturbed (s : State Key Node) : Action Key Node → Prop
  | .check _ _ answered => answered = true
  | .remove n done => done = true → ∀ q ≠ Party.pass n, Disjoint (s.pending (.pass n)) (s.pending q)
  | .commit n => ∀ q ≠ Party.expiry n, Disjoint (s.pending (.expiry n)) (s.pending q)
  | .start _ _ | .list _ _ | .finish _ | .expire _ _ | .rollback _ | .record _ _ | .heartbeat _ => True

instance [Fintype Node] (s : State Key Node) (a : Action Key Node) : Decidable (Undisturbed s a) := by
  unfold Undisturbed
  split <;> infer_instance

/-! ### What a party has read still holds -/

/-- What the removals rest on.  A pass about to remove a row that is not the last knows another row of
the object, and one about to remove the last has files on its disk; an expiry leaves a row of every
object of which it removes one. -/
structure State.Sound (s : State Key Node) : Prop where
  sole : ∀ {n p key}, s.passes n = some p → p.judged = some (key, true) → p.filesOnDisk ≠ 0
  other : ∀ {n p key}, s.passes n = some p → p.judged = some (key, false) →
    ∃ m, m ≠ n ∧ (key, m) ∈ s.rows
  survivor : ∀ {n e r}, s.expiries n = some e → r ∈ e.doomed →
    r.2 ∈ e.dead ∧ ∃ m, m ∉ e.dead ∧ (r.1, m) ∈ s.rows

variable {s s' : State Key Node} {n : Node} {p : Option (Pass Key)} {key : Key}
  {rows : Finset (Key × Node)} {q : Party Node} {a : Action Key Node}

omit [DecidableEq Node] in
theorem State.mem_pending_pass {p : Pass Key} {sole : Bool} (hp : s.passes n = some p)
    (hj : p.judged = some (key, sole)) : key ∈ s.pending (.pass n) := by
  simp [pending, hp, hj]

omit [DecidableEq Node] in
theorem State.mem_pending_expiry {e : Expiry Key Node} {r : Key × Node} (he : s.expiries n = some e)
    (hr : r ∈ e.doomed) : r.1 ∈ s.pending (.expiry n) := by
  simpa [pending, he] using ⟨r.2, hr⟩

omit [DecidableEq Key] [DecidableEq Node] in
theorem State.sound_initial (rows : Finset (Key × Node)) (nodes : Finset Node) :
    (initial rows nodes).Sound := by
  constructor
  · rintro n p key hp
    cases hp
  · rintro n p key hp
    cases hp
  · rintro n e r he
    cases he

omit [DecidableEq Node] in
theorem State.Sound.frame (h : s.Sound)
    (hpasses : ∀ {n p key sole}, s'.passes n = some p → p.judged = some (key, sole) →
      s.passes n = some p) (hexpiries : ∀ {n e}, s'.expiries n = some e → s.expiries n = some e)
    (hrows : ∀ {q key m}, key ∈ s'.pending q → (key, m) ∈ s.rows → (key, m) ∈ s'.rows) : s'.Sound := by
  constructor
  · intro n p key hp hj
    exact h.sole (hpasses hp hj) hj
  · intro n p key hp hj
    obtain ⟨m, hm, hrow⟩ := h.other (hpasses hp hj) hj
    exact ⟨m, hm, hrows (mem_pending_pass hp hj) hrow⟩
  · intro n e r he hr
    obtain ⟨hdead, m, hm, hrow⟩ := h.survivor (hexpiries he) hr
    exact ⟨hdead, m, hm, hrows (mem_pending_expiry he hr) hrow⟩

theorem State.Sound.setPass (h : s.Sound) (n : Node) (hp : ∀ p' ∈ p, p'.judged = none) :
    (s.setPass n p).Sound := by
  refine h.frame ?_ id fun _ hrow => hrow
  intro m p' key sole hp' hj
  by_cases hm : m = n
  · subst hm
    have hset : p = some p' := by simpa [State.setPass] using hp'
    rw [hp p' hset] at hj
    cases hj
  · simpa [State.setPass, update_of_ne hm] using hp'

theorem Pass.judged_check {p p' : Pass Key} {disk : DiskCheck} {answered : Bool}
    (h : p.check rows n disk answered = some p') :
    p'.judged = none ∨ ∃ key, p'.judged = some (key, soleHolder rows key n answered) ∧
      (soleHolder rows key n answered = true → p'.filesOnDisk ≠ 0) := by
  unfold check at h
  split at h
  · rename_i key page _ hjudged
    cases disk with
    | present | error =>
      cases h
      exact .inl hjudged
    | absent =>
      simp only at h
      split at h
      · cases h
        exact .inl hjudged
      · rename_i hkeep
        cases h
        exact .inr ⟨key, rfl, fun hsole hfiles => hkeep ⟨hsole, hfiles⟩⟩
  · cases h

theorem exists_other_of_soleHolder (h : soleHolder rows key n true = false) :
    ∃ m, m ≠ n ∧ (key, m) ∈ rows := by
  grind [otherHoldersExist, soleHolder]

theorem State.Sound.check {s : State Key Node} (h : s.Sound) {n : Node} {p p' : Pass Key}
    {disk : DiskCheck} (hcheck : p.check s.rows n disk true = some p') :
    (s.setPass n (some p')).Sound := by
  rcases Pass.judged_check hcheck with hnone | ⟨key, hjudged, hfiles⟩
  · exact h.setPass n (by rintro _ ⟨⟩; exact hnone)
  -- only the pass that has asked is new
  have hpass : ∀ {m q}, (s.setPass n (some p')).passes m = some q →
      m = n ∧ q = p' ∨ s.passes m = some q := by
    intro m q hq
    by_cases hm : m = n
    · subst hm
      exact .inl ⟨rfl, by simpa [State.setPass, eq_comm] using hq⟩
    · exact .inr (by simpa [State.setPass, update_of_ne hm] using hq)
  constructor
  · intro m q key' hq hj
    rcases hpass hq with ⟨rfl, rfl⟩ | hold
    · rw [hjudged] at hj
      cases hsole : soleHolder s.rows key m true with
      | true => exact hfiles hsole
      | false =>
        rw [hsole] at hj
        cases hj
    · exact h.sole hold hj
  · intro m q key' hq hj
    rcases hpass hq with ⟨rfl, rfl⟩ | hold
    · rw [hjudged] at hj
      simp only [some.injEq, Prod.mk.injEq] at hj
      obtain ⟨rfl, hsole⟩ := hj
      exact exists_other_of_soleHolder hsole
    · exact h.other hold hj
  · intro m e r he hr
    exact h.survivor he hr

theorem State.Sound.expire (h : s.Sound) (n : Node) (dead : Finset Node) :
    (s.setExpiry n (some ⟨dead, doomedRows s.rows s.nodes dead⟩)).Sound := by
  refine ⟨h.sole, h.other, ?_⟩
  intro m e r he hr
  by_cases hm : m = n
  · subst hm
    have hset : e = ⟨dead, doomedRows s.rows s.nodes dead⟩ := by
      simpa [setExpiry, eq_comm] using he
    subst hset
    obtain ⟨_, hdead, t, ht, hkey, halive, _⟩ := Finset.mem_filter.mp hr
    exact ⟨hdead, t.2, halive, hkey ▸ ht⟩
  · exact h.survivor (by simpa [setExpiry, update_of_ne hm] using he) hr

theorem State.Sound.endExpiry (h : s.Sound) (n : Node) : (s.setExpiry n none).Sound := by
  refine h.frame (fun hp _ => hp) ?_ fun _ hrow => hrow
  intro m e he
  by_cases hm : m = n
  · subst hm
    simp [setExpiry] at he
  · simpa [setExpiry, update_of_ne hm] using he

theorem State.pending_setPass_of_ne (hq : q ≠ .pass n) : (s.setPass n p).pending q = s.pending q := by
  cases q with
  | pass m =>
    have hm : m ≠ n := fun h => hq (congrArg _ h)
    simp [pending, setPass, update_of_ne hm]
  | expiry m => rfl

theorem State.pending_setExpiry_of_ne {e : Option (Expiry Key Node)} (hq : q ≠ .expiry n) :
    (s.setExpiry n e).pending q = s.pending q := by
  cases q with
  | pass m => rfl
  | expiry m =>
    have hm : m ≠ n := fun h => hq (congrArg _ h)
    simp [pending, setExpiry, update_of_ne hm]

omit [DecidableEq Node] in
theorem State.Sound.withRows (h : s.Sound) {nodes : Finset Node}
    (hrows : ∀ {q key m}, key ∈ s.pending q → (key, m) ∈ s.rows → (key, m) ∈ rows) :
    ({ s with rows, nodes } : State Key Node).Sound :=
  h.frame (fun hp _ => hp) id fun {q} {_} {_} hkey hrow => hrows (q := q) hkey hrow

theorem State.Sound.step (h : s.Sound) (hcond : Undisturbed s a) (hstep : step s a = some s') :
    s'.Sound := by
  cases a with
  | start n files =>
    simp only [step, ite_none_right_eq_some, some.injEq] at hstep
    obtain ⟨_, rfl⟩ := hstep
    exact h.setPass n (by rintro _ ⟨⟩; rfl)
  | list n page =>
    simp only [step, bind_eq_some_iff, ite_none_right_eq_some, some.injEq] at hstep
    obtain ⟨p, _, ⟨_, hjudged, _⟩, rfl⟩ := hstep
    exact h.setPass n (by rintro _ ⟨⟩; exact isNone_iff_eq_none.mp hjudged)
  | check n disk answered =>
    simp only [step, bind_eq_some_iff, map_eq_some_iff] at hstep
    obtain ⟨p, _, p', hcheck, rfl⟩ := hstep
    obtain rfl : answered = true := hcond
    exact h.check hcheck
  | remove n done =>
    simp only [step, bind_eq_some_iff, map_eq_some_iff] at hstep
    obtain ⟨p, hp, ⟨key, sole⟩, hj, rfl⟩ := hstep
    cases done with
    | false => exact h.setPass n (by rintro _ ⟨⟩; rfl)
    | true =>
      refine (h.setPass n (p := some (p.counted sole)) (by rintro _ ⟨⟩; rfl)).withRows ?_
      -- whoever is about to remove another row stands before a different object
      intro q key' m hkey hrow
      refine Finset.mem_erase.mpr ⟨fun heq => ?_, hrow⟩
      obtain ⟨rfl, rfl⟩ := Prod.mk.inj heq
      by_cases hq : q = .pass m
      · subst hq
        simp [State.pending, State.setPass, Pass.counted] at hkey
      · refine Finset.disjoint_left.mp (hcond rfl q hq) (State.mem_pending_pass hp hj) ?_
        rwa [State.pending_setPass_of_ne hq] at hkey
  | finish n =>
    cases hstep
    exact h.setPass n (by rintro _ ⟨⟩)
  | expire n dead =>
    simp only [step, ite_none_right_eq_some, some.injEq] at hstep
    obtain ⟨_, rfl⟩ := hstep
    exact h.expire n dead
  | commit n =>
    simp only [step, map_eq_some_iff] at hstep
    obtain ⟨e, he, rfl⟩ := hstep
    refine (h.endExpiry n).withRows ?_
    intro q key m hkey hrow
    refine Finset.mem_sdiff.mpr ⟨hrow, fun hdoomed => ?_⟩
    by_cases hq : q = .expiry n
    · subst hq
      simp [State.pending, State.setExpiry] at hkey
    · refine Finset.disjoint_left.mp (hcond q hq) (State.mem_pending_expiry he hdoomed) ?_
      rwa [State.pending_setExpiry_of_ne hq] at hkey
  | rollback n =>
    simp only [step, map_eq_some_iff] at hstep
    obtain ⟨e, _, rfl⟩ := hstep
    exact h.endExpiry n
  | record key n =>
    cases hstep
    exact h.withRows fun _ hrow => Finset.mem_insert_of_mem hrow
  | heartbeat n =>
    cases hstep
    exact h.withRows fun _ hrow => hrow

theorem rows_of_step (hstep : step s a = some s') :
    s.rows ⊆ s'.rows ∨
      (∃ n p key sole, a = .remove n true ∧ s.passes n = some p ∧ p.judged = some (key, sole) ∧
        s'.rows = s.rows.erase (key, n) ∧ s'.passes n = some (p.counted sole)) ∨
      ∃ n e, a = .commit n ∧ s.expiries n = some e ∧ s'.rows = s.rows \ e.doomed := by
  cases a with
  | start n files | expire n dead =>
    simp only [step, ite_none_right_eq_some, some.injEq] at hstep
    obtain ⟨_, rfl⟩ := hstep
    exact .inl subset_rfl
  | list n page =>
    simp only [step, bind_eq_some_iff, ite_none_right_eq_some, some.injEq] at hstep
    obtain ⟨p, _, _, rfl⟩ := hstep
    exact .inl subset_rfl
  | check n disk answered =>
    simp only [step, bind_eq_some_iff, map_eq_some_iff] at hstep
    obtain ⟨p, _, p', _, rfl⟩ := hstep
    exact .inl subset_rfl
  | remove n done =>
    simp only [step, bind_eq_some_iff, map_eq_some_iff] at hstep
    obtain ⟨p, hp, ⟨key, sole⟩, hj, rfl⟩ := hstep
    cases done with
    | false => exact .inl subset_rfl
    | true =>
      refine .inr (.inl ⟨n, p, key, sole, rfl, hp, hj, rfl, ?_⟩)
      simp [setPass]
  | finish n | heartbeat n =>
    cases hstep
    exact .inl subset_rfl
  | commit n =>
    simp only [step, map_eq_some_iff] at hstep
    grind
  | rollback n =>
    simp only [step, map_eq_some_iff] at hstep
    obtain ⟨e, _, rfl⟩ := hstep
    exact .inl subset_rfl
  | record key n =>
    cases hstep
    exact .inl (Finset.subset_insert _ _)

theorem State.Sound.last_row (h : s.Sound) (hstep : Verify.step s a = some s') (hbefore : s.HasRow key)
    (hafter : ¬ s'.HasRow key) :
    ∃ n p, a = .remove n true ∧ s.passes n = some p ∧ p.judged = some (key, true) ∧
      s'.passes n = some (p.counted true) := by
  obtain ⟨⟨k, holder⟩, hrow, hk⟩ := hbefore
  obtain rfl : k = key := hk
  have hgone : ∀ m, (k, m) ∉ s'.rows := fun m hm => hafter ⟨_, hm, rfl⟩
  rcases rows_of_step hstep with hkept | ⟨n, p, key', sole, ha, hp, hj, hrows, hcounted⟩ |
    ⟨n, e, ha, he, hrows⟩
  · exact absurd (hkept hrow) (hgone holder)
  · -- the row removed is the one that stood, so the object is the one judged
    have herased : (k, holder) = (key', n) := by
      grind
    obtain ⟨rfl, rfl⟩ := Prod.mk.inj herased
    cases sole with
    | true => exact ⟨_, p, ha, hp, hj, hcounted⟩
    | false =>
      obtain ⟨m, hm, hother⟩ := h.other hp hj
      grind
  · -- the survivor is on no dead node, and a doomed row is
    have hdoomed : (k, holder) ∈ e.doomed := by
      grind
    obtain ⟨_, m, hm, hsurvives⟩ := h.survivor he hdoomed
    have hkept : (k, m) ∉ e.doomed := fun hmem => hm (h.survivor he hmem).1
    grind

/-! ### Last copies -/

/-- **The last row is counted.**  Whatever rows and nodes there are to begin with, and however
verification on any number of nodes, expiries and new copies are interleaved: as long as questions are
answered and nobody removes a row of an object about which somebody else stands between reading and
removing, the step that leaves an object without a row is the removal of a pass that found the row to be
the last one, counts it as a last copy, and listed files in its own object root. -/
theorem last_row_counted {rows : Finset (Key × Node)} {nodes : Finset Node}
    {acts : List (Action Key Node)} {a : Action Key Node} {s s' : State Key Node}
    (halong : Runs.Along step Undisturbed (State.initial rows nodes) (acts ++ [a]))
    (hrun : Runs.run step (State.initial rows nodes) acts = some s) (hstep : step s a = some s')
    {key : Key} (hbefore : s.HasRow key) (hafter : ¬ s'.HasRow key) :
    ∃ n p p', a = .remove n true ∧ s.passes n = some p ∧ s'.passes n = some p' ∧
      p.filesOnDisk ≠ 0 ∧ p'.lastCopies = p.lastCopies + 1 := by
  have hsound : s.Sound := by
    refine Runs.run_invariant step (I := State.Sound) (P := Undisturbed) ?_
      (State.sound_initial rows nodes) ((Runs.along_append step hrun).mp halong).1 hrun
    exact fun _ _ _ h hcond hstep => h.step hcond hstep
  obtain ⟨n, p, ha, hp, hj, hcounted⟩ := hsound.last_row hstep hbefore hafter
  exact ⟨n, p, p.counted true, ha, hp, hcounted, hsound.sole hp hj, rfl⟩

/-- Two nodes have lost the file of an object.  The second removes its row, which is not the last, before
the first asks. -/
def inTurnRun : List (Action Unit Bool) :=
  [.start true 1, .start false 2, .list true [()], .list false [()], .check false .absent true,
    .remove false true, .finish false, .check true .absent true]

/-- Of the two removals the last one is counted. -/
theorem last_row_counted_inTurn :
    ∃ s s' : State Unit Bool,
      Runs.run step (State.initial {((), true), ((), false)} {true, false}) inTurnRun = some s ∧
      step s (.remove true true) = some s' ∧ s.HasRow () ∧ ¬ s'.HasRow () ∧
      ∃ n p p', Action.remove true true = (.remove n true : Action Unit Bool) ∧
        s.passes n = some p ∧ s'.passes n = some p' ∧ p.filesOnDisk ≠ 0 ∧
        p'.lastCopies = p.lastCopies + 1 := by
  refine ⟨_, _, rfl, rfl, by decide, by decide, ?_⟩
  exact @last_row_counted Unit Bool _ _ {((), true), ((), false)} {true, false} inTurnRun
    (.remove true true) _ _
    (by decide +kernel) rfl rfl () (by decide) (by decide)

/-- Two nodes without the file ask about each other's row before either removes its own. -/
def mutualRun : List (Action Unit Bool) :=
  [.start true 1, .start false 1, .list true [()], .list false [()],
    .check true .absent true, .check false .absent true, .remove true true]

/-- **The last rows are removed silently.**  Every question is answered, both nodes have files on their
disks, and the object has lost its last row although neither pass has counted a last copy. -/
theorem last_rows_removed_silently :
    ∃ s s' : State Unit Bool,
      Runs.run step (State.initial {((), true), ((), false)} {true, false}) mutualRun = some s ∧
      step s (.remove false true) = some s' ∧ s.HasRow () ∧ ¬ s'.HasRow () ∧
      ∀ n, (s'.passes n).map Pass.lastCopies = some 0 := by
  exact ⟨_, _, rfl, rfl, by decide, by decide, by decide⟩

end RSearch.Replication.Verify
