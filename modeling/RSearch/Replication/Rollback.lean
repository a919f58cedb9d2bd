import RSearch.Replication.Put

/-!
# What a failed write leaves behind

A write that fails is meant to leave nothing in the way of the next attempt.  The rollback takes back
the node's own file, the copies of the peers that answered with success, and every row of the key.
-/

namespace RSearch.Replication

open List Option Cluster Runs

/-- **The condition.**  A failed step had no effect, none of the steps without a rollback fails, a
push is given up only once its receiver has, with nothing stored, and the rollback does what it
tries. -/
def TakenBack (c : Setup) (s : State) : Action → Prop
  | .localWrite reply | .record reply => reply ≠ .failed true
  | .localSize ok | .objectPath ok => ok = true
  | .list answer => c.storage.needed = 0 ∨ answer.isSome = true
  | .answer i ok => ok = false → ∀ p ∈ s.pushes[i]?, p.stage = .stopped false
  | .undo reply | .deleteLocal reply | .removeAll reply => reply.applied = true
  | .deletePeer d => d = .fileAndRow
  | .receipt _ _ | .settle => True

instance (c : Setup) (s : State) (a : Action) : Decidable (TakenBack c s a) := by
  unfold TakenBack
  split <;> infer_instance

def Push.left (p : Push) : Prop :=
  p.stage = .stored ∨ p.stage = .recorded ∨ p.stage = .finished ∨ p.stage = .stopped true

def Object.Traced (o : Object) (n : String) : Prop := n ∈ o.files ∨ n ∈ o.rows

variable {o : Object} {node n : String}

theorem Object.traced_store {data : Bytes} (h : (o.store node data).Traced n) :
    n = node ∨ o.Traced n := by
  rcases h with h | h
  · exact ((AList.mem_insert _).mp h).imp_right .inl
  · exact .inr (.inr h)

theorem Object.traced_recordLocation {size : ℕ} (h : (o.recordLocation node size).Traced n) :
    n = node ∨ o.Traced n := by
  rcases h with h | h
  · exact .inr (.inl h)
  · exact ((AList.mem_insert _).mp h).imp_right .inr

theorem mem_set_or_eq {α : Type} {l : List α} {i : ℕ} {x y z : α} (hx : l[i]? = some x) (hz : z ∈ l) :
    z ∈ l.set i y ∨ z = x := by
  obtain ⟨j, hj⟩ := mem_iff_getElem?.mp hz
  by_cases hij : i = j
  · grind
  · exact .inl (mem_iff_getElem?.mpr ⟨j, by rw [getElem?_set_ne hij, hj]⟩)

section Receiver

variable {network : String → Option String} {data : Bytes} {o o' : Object} {p p' : Push} {r : Receipt}

theorem Receives.left (h : Receives network data o p r o' p') (hleft : p.left) : p'.left := by
  cases h <;> simp_all [Push.left]

theorem Receives.traced (h : Receives network data o p r o' p') {n : String} (hn : o'.Traced n) :
    o.Traced n ∨ network p'.address = some n ∧ p'.left := by
  cases h with
  | store _ hreach =>
    rcases Object.traced_store hn with rfl | hn
    · exact .inr ⟨hreach, .inl rfl⟩
    · exact .inl hn
  | record _ hreach =>
    rcases Object.traced_recordLocation hn with rfl | hn
    · exact .inr ⟨hreach, .inr (.inl rfl)⟩
    · exact .inl hn
  | finish | stopSending | stopStored => exact .inl hn

end Receiver

/-- **What the call knows of while it waits.**  Every trace of the object is the call's own or that
of a push, a push given up left none, and a push that answered with success is on the list the
rollback goes through. -/
structure Tracked (c : Setup) (o : Object) (pushes : List Push) (pushed : List (String × String)) :
    Prop where
  traces : ∀ n, o.Traced n → n = c.nodeId ∨ ∃ p ∈ pushes, c.network p.address = some n ∧ p.left
  refused : ∀ p ∈ pushes, p.answer = some false → p.stage = .stopped false
  confirmed : ∀ p ∈ pushes, p.answer = some true → p.stage = .finished ∧ (p.id, p.address) ∈ pushed

section Tracked

variable {c : Setup} {o : Object} {pushes : List Push} {pushed : List (String × String)}

theorem tracked_spawn {targets : List NodeRecord} (h : ∀ n, o.Traced n → n = c.nodeId) :
    Tracked c o (spawn targets) pushed := by
  have hnew : ∀ p ∈ spawn targets, p.answer = none := by
    intro p hp
    obtain ⟨t, -, ht⟩ := mem_filterMap.mp hp
    obtain ⟨address, -, rfl⟩ := map_eq_some_iff.mp ht
    rfl
  refine ⟨fun n hn => .inl (h n hn), fun p hp hanswer => ?_, fun p hp hanswer => ?_⟩
  · cases (hnew p hp).symm.trans hanswer
  · cases (hnew p hp).symm.trans hanswer

theorem Tracked.receipt (h : Tracked c o pushes pushed) {i : ℕ} {p p' : Push} {r : Receipt}
    {o' : Object} (hp : pushes[i]? = some p) (hreceives : Receives c.network c.data o p r o' p') :
    Tracked c o' (pushes.set i p') pushed := by
  have hmem : p ∈ pushes := mem_of_getElem? hp
  have hlt : i < pushes.length := (List.getElem?_eq_some_iff.mp hp).1
  -- A push with an answer has ended, so it is not this one.
  have hnone : p.answer = none := by
    have hended := hreceives.not_ended
    cases hanswer : p.answer with
    | none => rfl
    | some ok =>
      cases ok with
      | true => rw [Push.ended, (h.confirmed p hmem hanswer).1] at hended; cases hended
      | false => rw [Push.ended, h.refused p hmem hanswer] at hended; cases hended
  have hnone' : p'.answer = none := hreceives.answer.trans hnone
  refine ⟨fun n hn => ?_, fun q hq hanswer => ?_, fun q hq hanswer => ?_⟩
  · rcases hreceives.traced hn with hn | ⟨hreach, hleft⟩
    · rcases h.traces n hn with rfl | ⟨q, hq, hreach, hleft⟩
      · exact .inl rfl
      · rcases mem_set_or_eq (y := p') hp hq with hq | rfl
        · exact .inr ⟨q, hq, hreach, hleft⟩
        · exact .inr ⟨p', mem_set hlt _, hreceives.address ▸ hreach, hreceives.left hleft⟩
    · exact .inr ⟨p', mem_set hlt _, hreach, hleft⟩
  · rcases mem_or_eq_of_mem_set hq with hq | rfl
    · exact h.refused q hq hanswer
    · cases hnone'.symm.trans hanswer
  · rcases mem_or_eq_of_mem_set hq with hq | rfl
    · exact h.confirmed q hq hanswer
    · cases hnone'.symm.trans hanswer

theorem Tracked.answered (h : Tracked c o pushes pushed) {i : ℕ} {p : Push} {ok : Bool}
    (hp : pushes[i]? = some p) (hfinished : ok = true → p.stage = .finished)
    (hstopped : ok = false → p.stage = .stopped false) :
    Tracked c o (pushes.set i { p with answer := some ok })
      (if ok then pushed ++ [(p.id, p.address)] else pushed) := by
  have hlt : i < pushes.length := (List.getElem?_eq_some_iff.mp hp).1
  refine ⟨fun n hn => ?_, fun q hq hanswer => ?_, fun q hq hanswer => ?_⟩
  · rcases h.traces n hn with rfl | ⟨q, hq, hreach, hleft⟩
    · exact .inl rfl
    · rcases mem_set_or_eq (y := { p with answer := some ok }) hp hq with hq | rfl
      · exact .inr ⟨q, hq, hreach, hleft⟩
      · exact .inr ⟨_, mem_set hlt _, hreach, hleft⟩
  · rcases mem_or_eq_of_mem_set hq with hq | rfl
    · exact h.refused q hq hanswer
    · exact hstopped (Option.some.inj hanswer)
  · rcases mem_or_eq_of_mem_set hq with hq | rfl
    · obtain ⟨hstage, hpushed⟩ := h.confirmed q hq hanswer
      refine ⟨hstage, ?_⟩
      split
      · exact mem_append_left _ hpushed
      · exact hpushed
    · have hok : ok = true := Option.some.inj hanswer
      refine ⟨hfinished hok, ?_⟩
      rw [if_pos hok]
      exact mem_append_right _ (mem_singleton.mpr rfl)

theorem Tracked.ended (h : Tracked c o pushes pushed) (hanswered : ∀ p ∈ pushes, p.answer.isSome) :
    ∀ p ∈ pushes, p.ended = true := by
  intro p hp
  obtain ⟨ok, hok⟩ := isSome_iff_exists.mp (hanswered p hp)
  cases ok with
  | true => rw [Push.ended, (h.confirmed p hp hok).1]
  | false => rw [Push.ended, h.refused p hp hok]

theorem Tracked.listed (h : Tracked c o pushes pushed) (hanswered : ∀ p ∈ pushes, p.answer.isSome)
    {n : String} (hn : o.Traced n) (hne : n ≠ c.nodeId) :
    ∃ peer ∈ pushed, c.network peer.2 = some n := by
  rcases h.traces n hn with rfl | ⟨p, hp, hreach, hleft⟩
  · exact absurd rfl hne
  · obtain ⟨ok, hok⟩ := isSome_iff_exists.mp (hanswered p hp)
    cases ok with
    | true => exact ⟨_, (h.confirmed p hp hok).2, hreach⟩
    | false => simp [Push.left, h.refused p hp hok] at hleft

end Tracked

def FilesAtPeers (c : Setup) (o : Object) (rest : List (String × String)) : Prop :=
  ∀ n ∈ o.files, ∃ peer ∈ rest, c.network peer.2 = some n

theorem filesAtPeers_deletedAt {c : Setup} {id address : String} {rest : List (String × String)}
    (h : FilesAtPeers c o ((id, address) :: rest)) :
    FilesAtPeers c (match c.network address with
      | some node => o.deletedAt node .fileAndRow
      | none => o) rest := by
  intro n hn
  cases hreach : c.network address with
  | none =>
    rw [hreach] at hn
    obtain ⟨peer, hpeer, hpeerReach⟩ := h n hn
    grind
  | some node =>
    rw [hreach] at hn
    obtain ⟨hne, hn⟩ := (AList.mem_erase).mp hn
    obtain ⟨peer, hpeer, hpeerReach⟩ := h n hn
    grind

def Remains (c : Setup) (s : State) : Prop :=
  match s.phase with
  | .writing => s.pushes = [] ∧ s.object.Absent
  | .sizing | .recording | .undoing => s.pushes = [] ∧ ∀ n, n ∉ s.object.rows ∧
      (n ∈ s.object.files → n = c.nodeId)
  | .locating | .listing => s.pushes = [] ∧ ∀ n, s.object.Traced n → n = c.nodeId
  | .waiting => Tracked c s.object s.pushes s.pushed
  | .rollingBack => Tracked c s.object s.pushes s.pushed ∧ ∀ p ∈ s.pushes, p.answer.isSome
  | .rollingBackPeers rest => FilesAtPeers c s.object rest ∧ ∀ p ∈ s.pushes, p.ended = true
  | .returned false => s.object.Absent ∧ ∀ p ∈ s.pushes, p.ended = true
  | .returned true => True

theorem remains_step {c : Setup} (s : State) (a : Action) (t : State) (h : Remains c s)
    (hcond : TakenBack c s a) (hstep : step c s a = some t) : Remains c t := by
  cases moves_of_step hstep with
  | write hphase =>
    rw [Remains, hphase] at h
    obtain ⟨hpushes, habsent⟩ := h
    have hnew : ∀ n, n ∉ (s.object.store c.nodeId c.data).rows ∧
        (n ∈ (s.object.store c.nodeId c.data).files → n = c.nodeId) := by
      intro n
      refine ⟨(habsent n).2, fun hn => ?_⟩
      exact ((AList.mem_insert _).mp hn).resolve_right (habsent n).1
    cases c.fromFile <;> exact ⟨hpushes, hnew⟩
  | writeFailed applied hphase =>
    rw [Remains, hphase] at h
    have happlied : applied = false := by
      cases applied with
      | true => exact absurd rfl hcond
      | false => rfl
    subst happlied
    exact ⟨h.2, by simp [h.1]⟩
  | size hphase | locate hphase =>
    rw [Remains, hphase] at h
    exact h
  | sizeFailed | locateFailed => cases hcond
  | record hphase =>
    rw [Remains, hphase] at h
    obtain ⟨hpushes, honly⟩ := h
    have hnew : ∀ n, (s.object.recordLocation c.nodeId c.data.length).Traced n → n = c.nodeId := by
      intro n hn
      rcases Object.traced_recordLocation hn with hn | hn | hn
      · exact hn
      · exact (honly n).2 hn
      · exact absurd hn (honly n).1
    cases c.fromFile <;> exact ⟨hpushes, hnew⟩
  | recordFailed applied hphase =>
    rw [Remains, hphase] at h
    have happlied : applied = false := by
      cases applied with
      | true => exact absurd rfl hcond
      | false => rfl
    subst happlied
    exact h
  | listNothing answer hphase hneeded =>
    rw [Remains, hphase] at h
    simp only [Remains, h.1]
    exact ⟨fun n hn => .inl (h.2 n hn), by simp, by simp⟩
  | listFailed hphase hneeded =>
    rcases hcond with hcond | hcond
    · exact absurd hcond hneeded
    · cases hcond
  | list nodes held hphase =>
    grind [tracked_spawn, Remains]
  | @receipt i r p p' o' hp hreceives =>
    have hmem : p ∈ s.pushes := mem_of_getElem? hp
    have hended : p.ended ≠ true := by simp [hreceives.not_ended]
    cases hphase : s.phase with
    | writing | sizing | recording | undoing | locating | listing | rollingBackPeers rest =>
      grind [Remains]
    | waiting =>
      simp only [Remains, hphase] at h ⊢
      exact h.receipt hp hreceives
    | rollingBack =>
      rw [Remains, hphase] at h
      exact absurd (h.1.ended h.2 p hmem) hended
    | returned ok =>
      cases ok with
      | true => trivial
      | false =>
        grind [Remains]
  | answer ok hp hphase hnone hfinished =>
    simp only [Remains, hphase] at h ⊢
    exact h.answered hp hfinished fun hok => hcond hok _ hp
  | acknowledge => trivial
  | giveUp hphase hanswered =>
    grind [Remains]
  | undo reply hphase =>
    rw [Remains, hphase] at h
    obtain ⟨hpushes, honly⟩ := h
    have happlied : reply.applied = true := hcond
    simp only [Remains, happlied, if_true, hpushes]
    refine ⟨fun n => ⟨fun hn => ?_, (honly n).1⟩, by simp⟩
    obtain ⟨hne, hn⟩ := AList.mem_erase.mp hn
    exact hne ((honly n).2 hn)
  | deleteLocal reply hphase =>
    rw [Remains, hphase] at h
    obtain ⟨htracked, hanswered⟩ := h
    have happlied : reply.applied = true := hcond
    simp only [Remains, happlied, if_true]
    refine ⟨fun n hn => ?_, htracked.ended hanswered⟩
    obtain ⟨hne, hn⟩ := AList.mem_erase.mp hn
    exact htracked.listed hanswered (.inl hn) hne
  | deletePeer d hphase =>
    rw [Remains, hphase] at h
    cases (hcond : d = .fileAndRow)
    exact ⟨filesAtPeers_deletedAt h.1, h.2⟩
  | removeAll reply hphase =>
    rw [Remains, hphase] at h
    have happlied : reply.applied = true := hcond
    simp only [Remains, happlied, if_true]
    refine ⟨fun n => ⟨fun hn => ?_, AList.notMem_empty n⟩, h.2⟩
    obtain ⟨peer, hpeer, -⟩ := h.1 n hn
    cases hpeer

/-- **A failed write leaves nothing** in any run that meets the condition: no file and no row, from
the moment the call has returned an error. -/
theorem failed_write_leaves_nothing (c : Setup) {as : List Action} {s : State}
    (halong : Along (step c) (TakenBack c) (start .absent) as)
    (hrun : run (step c) (start .absent) as = some s) (hreturned : s.phase = .returned false) :
    s.object.Absent := by
  have hstart : Remains c (start .absent) := ⟨rfl, Object.absent_absent⟩
  have h := run_invariant (step c) remains_step hstart halong hrun
  rw [Remains, hreturned] at h
  exact h.1

/-- A write that needs all three of its copies. -/
def tripleWrite : Setup :=
  { pairWrite pairNetwork with
    config := { replicationFactor := 3, writeQuorum := 3 }
    network := fun address => match address with
      | "http://b:9200" => some "b"
      | "http://c:9200" => some "c"
      | _ => none }

def tripleNodes : Nodes :=
  ⟨[liveNode "a" "http://a:9200", liveNode "b" "http://b:9200", liveNode "c" "http://c:9200"], by decide⟩

/-- The push to `b` is stored and acknowledged; `c` refuses its push and stores nothing.  The rollback takes
back the file of `a`, then the copy of `b`, then the rows. -/
def refusedPushRun : List Action :=
  [.localWrite .ok, .record .ok, .list (some (tripleNodes, fun _ => 0)), .receipt 0 .store,
    .receipt 1 .stop, .receipt 0 .record, .receipt 0 .finish, .answer 1 false, .answer 0 true, .settle,
    .deleteLocal .ok, .deletePeer .fileAndRow, .removeAll .ok]

theorem failed_write_leaves_nothing_refused :
    ∃ s, run (step tripleWrite) (start .absent) refusedPushRun = some s ∧ s.pushes.length = 2 ∧
      s.phase = .returned false ∧ s.object.Absent := by
  obtain ⟨s, hrun, hpushes, hreturned⟩ : ∃ s, run (step tripleWrite) (start .absent) refusedPushRun
      = some s ∧ s.pushes.length = 2 ∧ s.phase = .returned false := by
    decide +kernel
  exact ⟨s, hrun, hpushes, hreturned, failed_write_leaves_nothing _ (by decide +kernel) hrun hreturned⟩

/-- The sender gives the push up while it is under way; the rollback runs; then the receiver writes
the file, records its row and answers into the void. -/
def latePushRun : List Action :=
  [.localWrite .ok, .record .ok, .list (some (pairNodes, fun _ => 0)), .answer 0 false, .settle,
    .deleteLocal .ok, .removeAll .ok, .receipt 0 .store, .receipt 0 .record, .receipt 0 .finish]

/-- **The rollback does not reach a push that did not answer.**  The call has returned an error, no
push is in flight, and the peer holds a file and a row. -/
theorem late_push_survives_rollback :
    ∃ s, run (step (pairWrite pairNetwork)) (start .absent) latePushRun = some s ∧
      s.phase = .returned false ∧ (∀ p ∈ s.pushes, p.ended = true) ∧
      "b" ∈ s.object.files ∧ "b" ∈ s.object.rows := by
  decide +kernel

end RSearch.Replication
