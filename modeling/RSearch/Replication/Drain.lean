import RSearch.Replication.Put

/-!
# Taking objects off a draining node

An operator marks a node as draining, and the control leader moves its objects away (`drain_job`): for
each node listed as draining and each object recorded there it makes sure of `replication_factor` copies
elsewhere, then deletes the node's copy (`drain_one`).
-/

namespace RSearch.Replication.Drain

open List Option Cluster

/-- `live_holders_of`: the nodes with a row for the object and a recent heartbeat, by id. -/
def liveHoldersOf (nodes : Nodes) (o : Object) (staleAfterMillis : ℕ) : List NodeRecord :=
  (nodes.rows.filter fun n =>
    decide (n.id ∈ o.rows) && decide (n.heartbeatAgeMillis < staleAfterMillis)).insertionSort
      fun a b => a.id ≤ b.id

inductive Stage where
  | holders
  | targets (source : String) (exclude : List String)
  /-- The targets with an address that no copy has been asked of yet. -/
  | copying (source : String) (targets : List NodeRecord)
  | deleting
  | dropping
  | returned (moved : Bool)
  deriving DecidableEq

/-- A running `drain_one`: the node as it was listed, the object, and the count of safe copies.

`kept` and `confirmed` are for the reader of a run: the nodes that were live holders and not draining
**when the holders were read**, and those that have **confirmed** a copy since. -/
structure Call where
  node : NodeRecord
  key : String
  stage : Stage
  safe : ℕ
  kept : Finset String
  confirmed : Finset String

def Call.begun (node : NodeRecord) (key : String) : Call := ⟨node, key, .holders, 0, ∅, ∅⟩

inductive Turn where
  /-- An error or a timeout; what such a request still does at a peer is that peer's doing. -/
  | failed
  /-- A read of the metastore is answered; the bytes each node holds rank the targets. -/
  | read (held : String → ℕ)
  /-- `node` has pulled the object and recorded it, and says so. -/
  | copied (node : String) (data : Bytes)
  /-- `node` has carried out a `DELETE`, in part or whole, and its answer does or does not arrive. -/
  | deleted (node : String) (how : Deletion) (answered : Bool)
  /-- The row is removed, and the answer does or does not arrive. -/
  | removed (answered : Bool)

namespace Call

/-- The end of `drain_one`: with enough safe copies the node's own is deleted, through the node if it
has an address. -/
def settle (factor : ℕ) (call : Call) : Call :=
  if factor ≤ call.safe then
    { call with stage := if call.node.address.isSome then .deleting else .dropping }
  else { call with stage := .returned false }

def proceed (factor : ℕ) (call : Call) (source : String) (targets : List NodeRecord) : Call :=
  if targets = [] then call.settle factor else { call with stage := .copying source targets }

/-- The holders are read: the first one with an address is the source, and those that are not draining
are safe. -/
def readHolders (factor : ℕ) (call : Call) (holders : List NodeRecord) : Call :=
  match holders.findSome? NodeRecord.address with
  | none => { call with stage := .returned false }
  | some source =>
    let staying := holders.filter fun n => !n.draining
    let counted := { call with
      safe := staying.length
      kept := (staying.map NodeRecord.id).toFinset }
    if staying.length < factor then
      { counted with stage := .targets source (holders.map NodeRecord.id) }
    else counted.settle factor

def confirm (call : Call) (node : String) : Call :=
  { call with safe := call.safe + 1, confirmed := insert node call.confirmed }

/-- **One step of `drain_one`**, on the object it is about. -/
def advance (factor : ℕ) (nodes : Nodes) (o : Object) (call : Call) (turn : Turn) :
    Option (Object × Call) :=
  match call.stage with
  | .holders =>
    match turn with
    | .failed => some (o, { call with stage := .returned false })
    | .read _ => some (o, call.readHolders factor (liveHoldersOf nodes o liveAfterMillis))
    | .copied _ _ | .deleted _ _ _ | .removed _ => none
  | .targets source exclude =>
    match turn with
    | .failed => some (o, { call with stage := .returned false })
    | .read held =>
      some (o, call.proceed factor source
        ((replicationTargets nodes held liveAfterMillis exclude (factor - call.safe) false).filter
          fun t => t.address.isSome))
    | .copied _ _ | .deleted _ _ _ | .removed _ => none
  | .copying _ [] => none
  | .copying source (_ :: targets) =>
    match turn with
    | .failed => some (o, call.proceed factor source targets)
    | .copied node data =>
      -- a pull of an object that is no longer recorded anywhere is refused
      match (o.store node data).recordLocationIfKnown node data.length with
      | (some _, o') => some (o', (call.confirm node).proceed factor source targets)
      | (none, _) => none
    | .read _ | .deleted _ _ _ | .removed _ => none
  | .deleting =>
    match turn with
    | .failed => some (o, { call with stage := .dropping })
    | .deleted node how answered =>
      some (o.deletedAt node how,
        { call with stage := if answered then .returned true else .dropping })
    | .read _ | .copied _ _ | .removed _ => none
  | .dropping =>
    match turn with
    | .failed => some (o, { call with stage := .returned false })
    | .removed answered =>
      some (o.removeLocation call.node.id, { call with stage := .returned answered })
    | .read _ | .copied _ _ | .deleted _ _ _ => none
  | .returned _ => none

end Call

/-- The registry, the objects, and the passes over them: what each pass has listed as draining, and the
calls in flight. -/
structure State where
  nodes : Nodes
  objects : String → Object
  passes : ℕ → List NodeRecord
  calls : ℕ → Option Call

inductive Action where
  /-- An operator starts or cancels the drain of a node. -/
  | setDraining (id : String) (draining : Bool)
  /-- Heartbeats arrive, time passes, nodes join and expire. -/
  | registry (nodes : Nodes)
  /-- Others store, copy and delete the object. -/
  | object (key : String) (o : Object)
  /-- A pass lists the nodes and keeps those that are draining. -/
  | list (pass : ℕ)
  /-- A pass takes on an object recorded on a node it has listed. -/
  | take (pass call : ℕ) (node : NodeRecord) (key : String)
  | advance (call : ℕ) (turn : Turn)

def State.initial (nodes : Nodes) (objects : String → Object) : State :=
  ⟨nodes, objects, fun _ => [], fun _ => none⟩

def step (factor : ℕ) (s : State) : Action → Option State
  | .setDraining id draining => some { s with nodes := s.nodes.setNodeDraining id draining }
  | .registry nodes => some { s with nodes }
  | .object key o => some { s with objects := Function.update s.objects key o }
  | .list pass =>
    some { s with passes := Function.update s.passes pass (s.nodes.rows.filter NodeRecord.draining) }
  | .take pass call node key =>
    if node ∈ s.passes pass ∧ node.id ∈ (s.objects key).rows ∧ (s.calls call).isNone then
      some { s with calls := Function.update s.calls call (some (.begun node key)) }
    else none
  | .advance c turn =>
    (s.calls c).bind fun call =>
      (call.advance factor s.nodes (s.objects call.key) turn).map fun r =>
        { s with
          objects := Function.update s.objects call.key r.1
          calls := Function.update s.calls c (some r.2) }

/-! ### The condition -/

def stillDraining (nodes : Nodes) (id : String) : Bool :=
  nodes.rows.all fun n => n.id != id || n.draining

/-- **The step meets the cluster it was planned for**: the node is still draining when the holders or the
targets are read, and the node that answers a request is the one whose address was dialled. -/
def Call.steady (nodes : Nodes) (turn : Turn) (call : Call) : Bool :=
  match call.stage with
  | .holders | .targets _ _ =>
    match turn with
    | .read _ => stillDraining nodes call.node.id
    | .failed | .copied _ _ | .deleted _ _ _ | .removed _ => true
  | .copying _ [] => true
  | .copying _ (t :: _) =>
    match turn with
    | .copied node _ => node == t.id
    | .failed | .read _ | .deleted _ _ _ | .removed _ => true
  | .deleting =>
    match turn with
    | .deleted node _ _ => node == call.node.id
    | .failed | .read _ | .copied _ _ | .removed _ => true
  | .dropping | .returned _ => true

def Steady (s : State) : Action → Prop
  | .advance c turn => (s.calls c).all (Call.steady s.nodes turn) = true
  | .setDraining _ _ | .registry _ | .object _ _ | .list _ | .take _ _ _ _ => True

instance (s : State) (a : Action) : Decidable (Steady s a) := by
  unfold Steady
  split <;> infer_instance

variable {nodes : Nodes} {n node : String} {o : Object} {factor : ℕ}

theorem draining_of_stillDraining {id : String} (h : stillDraining nodes id = true) {n : NodeRecord}
    (hn : n ∈ nodes.rows) (hid : n.id = id) : n.draining = true := by
  have hrow := List.all_eq_true.mp h n hn
  simpa [hid] using hrow

/-! ### What a call has counted -/

theorem mem_liveHoldersOf {staleAfterMillis : ℕ} {n : NodeRecord} :
    n ∈ liveHoldersOf nodes o staleAfterMillis ↔
      n ∈ nodes.rows ∧ n.id ∈ o.rows ∧ n.heartbeatAgeMillis < staleAfterMillis := by
  simp [liveHoldersOf]

theorem nodup_liveHoldersOf (nodes : Nodes) (o : Object) (staleAfterMillis : ℕ) :
    ((liveHoldersOf nodes o staleAfterMillis).map NodeRecord.id).Nodup := by
  refine ((perm_insertionSort _ _).map _).nodup_iff.mpr ?_
  grind [Nodes.uniqueIds]

/-- The nodes the object stays on: holders that were not draining, and confirmed targets. -/
def Call.covering (call : Call) : Finset String := call.kept ∪ call.confirmed

/-- What the count of safe copies is worth where the call stands: it is one of **different nodes**, and
the targets that are left are further ones. -/
def Call.Counted (factor : ℕ) (call : Call) : Stage → Prop
  | .holders => call.kept = ∅ ∧ call.confirmed = ∅
  | .targets _ exclude =>
    call.safe = call.kept.card ∧ call.confirmed = ∅ ∧ ∀ id ∈ call.kept, id ∈ exclude
  | .copying _ targets =>
    call.safe = call.covering.card ∧ (targets.map NodeRecord.id).Nodup ∧
      ∀ t ∈ targets, t.id ≠ call.node.id ∧ t.id ∉ call.covering
  | .deleting | .dropping => factor ≤ call.covering.card
  | .returned _ => True

structure Call.Sound (factor : ℕ) (call : Call) : Prop where
  outside : call.node.id ∉ call.covering
  counted : call.Counted factor call.stage

namespace Call.Sound

variable {factor : ℕ} {call : Call}

theorem counted_at (h : call.Sound factor) {stage : Stage} (hstage : call.stage = stage) :
    call.Counted factor stage :=
  hstage ▸ h.counted

theorem begun (node : NodeRecord) (key : String) : (Call.begun node key).Sound factor where
  outside := by simp [Call.begun, covering]
  counted := ⟨rfl, rfl⟩

theorem settle (houtside : call.node.id ∉ call.covering) (hsafe : call.safe = call.covering.card) :
    (call.settle factor).Sound factor := by
  unfold Call.settle
  split_ifs with henough haddress
  · exact ⟨houtside, hsafe ▸ henough⟩
  · exact ⟨houtside, hsafe ▸ henough⟩
  · exact ⟨houtside, trivial⟩

theorem proceed (houtside : call.node.id ∉ call.covering) (hsafe : call.safe = call.covering.card)
    (source : String) {targets : List NodeRecord} (hnodup : (targets.map NodeRecord.id).Nodup)
    (htargets : ∀ t ∈ targets, t.id ≠ call.node.id ∧ t.id ∉ call.covering) :
    (call.proceed factor source targets).Sound factor := by
  unfold Call.proceed
  split_ifs with hnil
  · exact settle houtside hsafe
  · exact ⟨houtside, hsafe, hnodup, htargets⟩

variable {nodes : Nodes} {source : String} {t : NodeRecord} {targets : List NodeRecord}

theorem readHolders (h : call.Sound factor) (hstage : call.stage = .holders)
    (hdraining : stillDraining nodes call.node.id = true) (o : Object) :
    (call.readHolders factor (liveHoldersOf nodes o liveAfterMillis)).Sound factor := by
  unfold Call.readHolders
  split
  · exact ⟨h.outside, trivial⟩
  have hconfirmed : call.confirmed = ∅ := (h.counted_at hstage).2
  set staying := (liveHoldersOf nodes o liveAfterMillis).filter fun n => !n.draining with hstaying
  have hcard : staying.length = ((staying.map NodeRecord.id).toFinset).card := by
    have hnodup : (staying.map NodeRecord.id).Nodup :=
      (Sublist.map _ filter_sublist).nodup (nodup_liveHoldersOf _ _ _)
    rw [toFinset_card_of_nodup hnodup, length_map]
  have hout : call.node.id ∉ (staying.map NodeRecord.id).toFinset := by
    intro hmem
    obtain ⟨n, hn, hid⟩ := List.mem_map.mp (List.mem_toFinset.mp hmem)
    obtain ⟨hlive, hstays⟩ := mem_filter.mp hn
    have hdrains := draining_of_stillDraining hdraining (mem_liveHoldersOf.mp hlive).1 hid
    simp [hdrains] at hstays
  have houtside : call.node.id ∉ (staying.map NodeRecord.id).toFinset ∪ call.confirmed := by
    grind
  simp only
  split_ifs with hfew
  · refine ⟨houtside, hcard, hconfirmed, fun id hid => ?_⟩
    obtain ⟨n, hn, rfl⟩ := List.mem_map.mp (List.mem_toFinset.mp hid)
    grind
  · refine settle houtside ?_
    simp only [covering, hconfirmed, Finset.union_empty]
    exact hcard

theorem readTargets (h : call.Sound factor) {exclude : List String}
    (hstage : call.stage = .targets source exclude)
    (hdraining : stillDraining nodes call.node.id = true) (held : String → ℕ) (limit : ℕ) :
    (call.proceed factor source ((replicationTargets nodes held liveAfterMillis exclude limit false).filter
        fun t => t.address.isSome)).Sound factor := by
  obtain ⟨hsafe, hconfirmed, hkept⟩ := h.counted_at hstage
  have hcovering : call.covering = call.kept := by
    grind [covering]
  refine proceed h.outside (hcovering ▸ hsafe) source ?_ ?_
  · grind [nodup_replicationTargets]
  · intro t ht
    obtain ⟨hrow, _, hexcluded, hstays⟩ := of_mem_replicationTargets (mem_filter.mp ht).1
    refine ⟨fun hid => ?_, fun hmem => hexcluded (hkept _ (hcovering ▸ hmem))⟩
    have hdrains := draining_of_stillDraining hdraining hrow hid
    rw [hstays rfl] at hdrains
    cases hdrains

theorem confirm (h : call.Sound factor) (hstage : call.stage = .copying source (t :: targets)) :
    ((call.confirm t.id).proceed factor source targets).Sound factor := by
  obtain ⟨hsafe, hnodup, htargets⟩ := h.counted_at hstage
  obtain ⟨hne, hnew⟩ := htargets t mem_cons_self
  rw [map_cons, nodup_cons] at hnodup
  have hcovering : (call.confirm t.id).covering = insert t.id call.covering := by
    simp [covering, Call.confirm]
  refine proceed ?_ ?_ source hnodup.2 ?_
  · rw [hcovering]
    exact fun hmem => (Finset.mem_insert.mp hmem).elim (fun heq => hne heq.symm) h.outside
  · rw [hcovering, Finset.card_insert_of_notMem hnew, ← hsafe]
    rfl
  · intro u hu
    obtain ⟨hune, hunew⟩ := htargets u (mem_cons_of_mem _ hu)
    refine ⟨hune, ?_⟩
    grind

theorem skip (h : call.Sound factor) (hstage : call.stage = .copying source (t :: targets)) :
    (call.proceed factor source targets).Sound factor := by
  obtain ⟨hsafe, hnodup, htargets⟩ := h.counted_at hstage
  rw [map_cons, nodup_cons] at hnodup
  exact proceed h.outside hsafe source hnodup.2 fun u hu => htargets u (mem_cons_of_mem _ hu)

theorem advance (h : call.Sound factor) {nodes : Nodes} {o o' : Object} {turn : Turn} {call' : Call}
    (hsteady : call.steady nodes turn = true)
    (hstep : call.advance factor nodes o turn = some (o', call')) : call'.Sound factor := by
  unfold Call.advance at hstep
  unfold Call.steady at hsteady
  cases hstage : call.stage with
  | holders =>
    rw [hstage] at hstep hsteady
    cases turn with
    | failed =>
      cases hstep
      exact ⟨h.outside, trivial⟩
    | read held =>
      cases hstep
      exact h.readHolders hstage hsteady o
    | copied node data | deleted node how answered | removed answered => cases hstep
  | targets source exclude =>
    rw [hstage] at hstep hsteady
    cases turn with
    | failed =>
      cases hstep
      exact ⟨h.outside, trivial⟩
    | read held =>
      cases hstep
      exact h.readTargets hstage hsteady held _
    | copied node data | deleted node how answered | removed answered => cases hstep
  | copying source targets =>
    rw [hstage] at hstep hsteady
    cases targets with
    | nil => cases hstep
    | cons t targets =>
      cases turn with
      | failed =>
        cases hstep
        exact h.skip hstage
      | copied node data =>
        obtain rfl : node = t.id := beq_iff_eq.mp hsteady
        simp only at hstep
        split at hstep
        · cases hstep
          exact h.confirm hstage
        · cases hstep
      | read held | deleted node how answered | removed answered => cases hstep
  | deleting =>
    rw [hstage] at hstep
    cases turn with
    | failed =>
      cases hstep
      exact ⟨h.outside, h.counted_at hstage⟩
    | deleted node how answered =>
      cases hstep
      cases answered with
      | true => exact ⟨h.outside, trivial⟩
      | false => exact ⟨h.outside, h.counted_at hstage⟩
    | read held | copied node data | removed answered => cases hstep
  | dropping =>
    rw [hstage] at hstep
    cases turn with
    | failed | removed answered =>
      cases hstep
      exact ⟨h.outside, trivial⟩
    | read held | copied node data | deleted node how answered => cases hstep
  | returned moved =>
    rw [hstage] at hstep
    cases hstep

end Call.Sound

/-! ### What a call takes away -/

def Loses (o o' : Object) (node : String) : Prop :=
  (node ∈ o.files ∧ node ∉ o'.files) ∨ (node ∈ o.rows ∧ node ∉ o'.rows)

instance (o o' : Object) (node : String) : Decidable (Loses o o' node) :=
  inferInstanceAs (Decidable (_ ∨ _))

theorem not_loses_self (o : Object) (node : String) : ¬ Loses o o node := by
  rintro (⟨h, h'⟩ | ⟨h, h'⟩)
  · exact h' h
  · exact h' h

theorem not_loses_recordLocation (o : Object) (node n : String) (data : Bytes) (size : ℕ) :
    ¬ Loses o ((o.store node data).recordLocation node size) n := by
  rintro (⟨h, h'⟩ | ⟨h, h'⟩)
  · exact h' (AList.mem_insert _ |>.mpr (.inr h))
  · exact h' (AList.mem_insert _ |>.mpr (.inr h))

theorem eq_of_loses_deletedAt {how : Deletion} (h : Loses o (o.deletedAt node how) n) : n = node := by
  by_contra hne
  cases how with
  | nothing => exact not_loses_self o n h
  | file =>
    rcases h with ⟨h, h'⟩ | ⟨h, h'⟩
    · exact h' (AList.mem_erase.mpr ⟨hne, h⟩)
    · exact h' h
  | fileAndRow =>
    rcases h with ⟨h, h'⟩ | ⟨h, h'⟩
    · exact h' (AList.mem_erase.mpr ⟨hne, h⟩)
    · exact h' (AList.mem_erase.mpr ⟨hne, h⟩)

theorem eq_of_loses_removeLocation (h : Loses o (o.removeLocation node) n) : n = node := by
  by_contra hne
  rcases h with ⟨h, h'⟩ | ⟨h, h'⟩
  · exact h' h
  · exact h' (AList.mem_erase.mpr ⟨hne, h⟩)

theorem Call.loses_of_advance {call call' : Call} {o' : Object} {turn : Turn}
    (hsteady : call.steady nodes turn = true)
    (hstep : call.advance factor nodes o turn = some (o', call')) (hloses : Loses o o' n) :
    n = call.node.id ∧ (call.stage = .deleting ∨ call.stage = .dropping) := by
  unfold Call.advance at hstep
  unfold Call.steady at hsteady
  cases hstage : call.stage with
  | holders =>
    grind [not_loses_self]
  | targets source exclude =>
    rw [hstage] at hstep
    cases turn <;> cases hstep <;> exact absurd hloses (not_loses_self _ _)
  | copying source targets =>
    rw [hstage] at hstep
    cases targets with
    | nil => cases hstep
    | cons t targets =>
      cases turn with
      | failed =>
        grind [not_loses_self]
      | copied node data =>
        grind [not_loses_recordLocation, Object.recordLocationIfKnown]
      | read held | deleted node how answered | removed answered => cases hstep
  | deleting =>
    grind [not_loses_self, eq_of_loses_deletedAt]
  | dropping =>
    grind [eq_of_loses_removeLocation, not_loses_self]
  | returned moved =>
    rw [hstage] at hstep
    cases hstep

/-! ### Runs -/

def State.Sound (factor : ℕ) (s : State) : Prop := ∀ {c call}, s.calls c = some call → call.Sound factor

theorem State.Sound.step {s s' : State} {a : Action} (h : s.Sound factor) (hsteady : Steady s a)
    (hstep : Drain.step factor s a = some s') : s'.Sound factor := by
  cases a with
  | setDraining id draining | registry nodes | object key o | list pass =>
    cases hstep
    exact h
  | take pass c node key =>
    simp only [Drain.step, ite_none_right_eq_some, some.injEq] at hstep
    obtain ⟨_, rfl⟩ := hstep
    intro c' call hcall
    by_cases hc : c' = c
    · grind [Call.Sound.begun]
    · exact h (by simpa [Function.update_of_ne hc] using hcall)
  | advance c turn =>
    simp only [Drain.step, bind_eq_some_iff, map_eq_some_iff] at hstep
    obtain ⟨call, hcall, ⟨o', call'⟩, hadvance, rfl⟩ := hstep
    have hcond : call.steady s.nodes turn = true := by
      simpa [Steady, hcall] using hsteady
    intro c' call'' hcall'
    by_cases hc : c' = c
    · subst hc
      obtain rfl : call' = call'' := by simpa using hcall'
      exact (h hcall).advance hcond hadvance
    · exact h (by simpa [Function.update_of_ne hc] using hcall')

/-- **A drained copy is covered.**  Whatever the registry and the objects are, however passes over them,
failures of every kind, operators and the rest of the cluster are interleaved: as long as the node is
still draining whenever a call reads holders or targets, and requests are answered by the nodes whose
addresses were read, a call that takes a copy or a row of an object from a node has the replication
factor of other nodes that were live holders not draining when the holders were read, or have confirmed
a copy since. -/
theorem drained_copy_covered {factor : ℕ} {nodes : Nodes} {objects : String → Object}
    {acts : List Action} {c : ℕ} {turn : Turn} {s s' : State}
    (halong : Runs.Along (step factor) Steady (State.initial nodes objects) (acts ++ [.advance c turn]))
    (hrun : Runs.run (step factor) (State.initial nodes objects) acts = some s)
    (hstep : step factor s (.advance c turn) = some s') {key node : String}
    (hloses : Loses (s.objects key) (s'.objects key) node) :
    ∃ call, s.calls c = some call ∧ call.key = key ∧
      factor ≤ ((call.kept ∪ call.confirmed).erase node).card := by
  have hsound : s.Sound factor := by
    refine Runs.run_invariant (step factor) (I := State.Sound factor) (P := Steady) ?_ ?_
      ((Runs.along_append _ hrun).mp halong).1 hrun
    · exact fun _ _ _ h hsteady hstep => h.step hsteady hstep
    · intro c call hcall
      cases hcall
  have hsteady : Steady s (.advance c turn) := halong.last _ hrun
  simp only [step, bind_eq_some_iff, map_eq_some_iff] at hstep
  obtain ⟨call, hcall, ⟨o', call'⟩, hadvance, rfl⟩ := hstep
  have hcond : call.steady s.nodes turn = true := by
    simpa [Steady, hcall] using hsteady
  -- only the object of the call is touched
  obtain rfl : call.key = key := by
    grind [not_loses_self]
  simp only [Function.update_self] at hloses
  obtain ⟨rfl, hend⟩ := Call.loses_of_advance hcond hadvance hloses
  have hcall_sound := hsound hcall
  refine ⟨call, hcall, rfl, ?_⟩
  have hout : call.node.id ∉ call.kept ∪ call.confirmed := hcall_sound.outside
  rw [Finset.erase_eq_of_notMem hout]
  rcases hend with hstage | hstage
  · exact hcall_sound.counted_at hstage
  · exact hcall_sound.counted_at hstage

/-! ### Two nodes -/

/-- A node that drains and one that stays, both with an address and a recent heartbeat. -/
def pair : Nodes where
  rows := [⟨"a", [], some "a:9200", true, 0⟩, ⟨"b", [], some "b:9200", false, 0⟩]
  uniqueIds := by decide

def onlyCopy : String → Object := fun _ => (Object.absent.store "a" [1]).recordLocation "a" 1

def copiedRun : List Action :=
  [.list 0, .take 0 0 ⟨"a", [], some "a:9200", true, 0⟩ "k", .advance 0 (.read fun _ => 0),
    .advance 0 (.read fun _ => 0), .advance 0 (.copied "b" [1])]

/-- The drained node's copy is deleted once the other node has confirmed its own. -/
theorem drained_copy_covered_pair :
    ∃ s s' : State, Runs.run (step 1) (State.initial pair onlyCopy) copiedRun = some s ∧
      step 1 s (.advance 0 (.deleted "a" .fileAndRow true)) = some s' ∧
      Loses (s.objects "k") (s'.objects "k") "a" ∧
      ∃ call, s.calls 0 = some call ∧ call.key = "k" ∧
        1 ≤ ((call.kept ∪ call.confirmed).erase "a").card := by
  refine ⟨_, _, rfl, rfl, by decide +kernel, ?_⟩
  exact @drained_copy_covered 1 pair onlyCopy copiedRun 0 (.deleted "a" .fileAndRow true) _ _
    (by decide +kernel) rfl rfl "k" "a" (by decide +kernel)

def cancelledRun : List Action :=
  [.list 0, .take 0 0 ⟨"a", [], some "a:9200", true, 0⟩ "k", .setDraining "a" false,
    .advance 0 (.read fun _ => 0)]

/-- **A cancelled drain deletes the only copy.**  The node counts as the one safe holder of its own
object, which is then deleted there: no node has the object any more, and none but the node itself was a
holder or has confirmed a copy. -/
theorem cancelled_drain_deletes_only_copy :
    ∃ s s' : State, Runs.run (step 1) (State.initial pair onlyCopy) cancelledRun = some s ∧
      step 1 s (.advance 0 (.deleted "a" .fileAndRow true)) = some s' ∧
      Loses (s.objects "k") (s'.objects "k") "a" ∧ (s'.objects "k").files.keys = [] ∧
      ∃ call, s.calls 0 = some call ∧ call.key = "k" ∧
        ((call.kept ∪ call.confirmed).erase "a").card < 1 := by
  exact ⟨_, _, rfl, rfl, by decide +kernel, by decide +kernel, _, rfl, by decide +kernel,
    by decide +kernel⟩

end RSearch.Replication.Drain
