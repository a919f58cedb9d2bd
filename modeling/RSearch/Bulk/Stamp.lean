import RSearch.Bulk.Handle

/-!
# Stamps and the tombstones that are already there

A write replaces the older versions of its id by a tombstone bound, so a version stamped at or below a
bound that is there is hidden from the start.  The handler therefore shows the bounds of its ids to its
clock before it stamps.
-/

namespace RSearch.Bulk

open List

/-- The cluster around a request: the modes of the rows, and every tombstone bound committed before
the request started. -/
structure Cluster where
  mode : ℤ → StreamMode
  committed : List Bound

/-- An accepted write that replaces a document: the client gave its id, and its row is in document
mode. -/
def Cluster.Replaces (cluster : Cluster) (a : Accepted) : Prop :=
  a.explicitId = true ∧ cluster.mode a.row = .document

instance (cluster : Cluster) (a : Accepted) : Decidable (cluster.Replaces a) :=
  inferInstanceAs (Decidable (_ ∧ _))

def Cluster.boundsOf (cluster : Cluster) (a : Accepted) : List ℤ :=
  (cluster.committed.filter fun b => b.stream = a.row ∧ b.docId = a.docId).map (·.beforeSeq)

/-- **No earlier tombstone hides an accepted write**: each is stamped above every bound its
document has. -/
def Outranks (cluster : Cluster) (r : BulkReply) : Prop :=
  ∀ w ∈ r.writes, cluster.Replaces w.1 → ∀ b ∈ cluster.boundsOf w.1, b < w.2

instance (cluster : Cluster) (r : BulkReply) : Decidable (Outranks cluster r) :=
  inferInstanceAs (Decidable (∀ w ∈ r.writes, _))

/-- **What a request is shown** before it stamps: the highest published sequence of a stream that the body
names and the metastore is asked for, and the bounds that the table has for the explicit ids under the rows of
the document-mode streams it names. -/
def Shown (env : Env) (defaultIndex : Option String) (body : String) (seen : ℤ) : Prop :=
  ∃ outcome named, parseBulkBody env.P env.R body defaultIndex = .ok outcome ∧
    resolveItems env (createMode outcome.items) outcome.items .start = .ok named ∧
    (seen ∈ named.session.observed ∨ ∃ table, env.table = .ok table ∧ ∃ bound ∈ table,
      bound.beforeSeq = seen ∧ ∃ x ∈ named.kept, x.2.explicitId = true ∧ bound.docId = x.2.docId ∧
        ∃ info, named.session.infos.lookup x.2.stream = some info ∧ info.mode = .document ∧
          bound.stream = info.id)

/-- **The condition** on a bound and the `i`-th item of a request: what the request is shown reaches the bound,
or the node's clock, its other requests or the wall clock's readings do. -/
def Covered (env : Env) (pace : Pace) (clock : SeqClock) (defaultIndex : Option String) (body : String)
    (i : ℕ) (b : ℤ) : Prop :=
  Reached pace clock 0 i b ∨ b < Index.i64Max ∧ ∃ seen, Shown env defaultIndex body seen ∧
    (b - clock.salt) / slotSize ≤ seen / slotSize + i

/-! ### The writes of a request -/

variable {planned : List Planned} {a : Accepted}

theorem lt_length_of_mem_numbered {x : Nat × Planned} (h : x ∈ numbered planned) :
    x.1 < planned.length := by
  obtain ⟨y, hy, rfl⟩ := mem_map.mp h
  have := snd_lt_of_mem_zipIdx hy
  simpa using this

theorem item_lt_of_mem_deletes {s : Session} (h : a ∈ deletes s planned) : a.item < planned.length := by
  obtain ⟨x, hx, hsome⟩ := mem_filterMap.mp h
  have hlt := lt_length_of_mem_numbered hx
  split at hsome
  · split at hsome
    · split at hsome
      · cases hsome
        exact hlt
      · cases hsome
    · cases hsome
  · cases hsome

theorem fst_lt_of_mem_copies {x : Nat × Planned × String} (h : x ∈ copies planned) :
    x.1 < planned.length := by
  obtain ⟨y, hy, hmem⟩ := mem_flatMap.mp h
  split at hmem
  · obtain ⟨stream, -, rfl⟩ := mem_map.mp hmem
    exact lt_length_of_mem_numbered hy
  · cases hmem

theorem item_lt_of_mem_acceptedCopies {env : Env} (h : a ∈ acceptedCopies env planned) :
    a.item < planned.length := by
  obtain ⟨x, hx, hsome⟩ := mem_filterMap.mp h
  obtain ⟨y, hy, rfl⟩ := mem_map.mp hx
  have hcopy : y.1 ∈ copies planned := fst_mem_of_mem_zipIdx hy
  split at hsome
  · cases hsome
    exact fst_lt_of_mem_copies hcopy
  · cases hsome

theorem item_lt_of_mem_accepted {env : Env} {p : Prepared} {c : Committed} (h : commit env p = .ok c)
    (ha : a ∈ c.accepted) : a.item < p.planned.length := by
  rw [accepted_of_commit h] at ha
  rcases mem_append.mp ha with ha | ha
  · exact item_lt_of_mem_deletes ha
  · exact item_lt_of_mem_acceptedCopies ha

/-! ### What the request is shown -/

theorem le_foldl_max_div_iff {β m : ℤ} {last : ℤ} (seen : List ℤ) :
    β ≤ seen.foldl max last / slotSize + m ↔
      β ≤ last / slotSize + m ∨ ∃ s ∈ seen, β ≤ s / slotSize + m := by
  induction seen generalizing last with
  | nil => simp
  | cons s seen ih =>
    have hmax : β ≤ max last s / slotSize + m ↔ β ≤ last / slotSize + m ∨ β ≤ s / slotSize + m := by
      unfold slotSize
      omega
    rw [foldl_cons, ih, hmax, exists_mem_cons_iff, or_assoc]

theorem reached_observeAll_iff {pace : Pace} {clock : SeqClock} {seen : List ℤ} {i : ℕ} {b : ℤ} :
    Reached pace (clock.observeAll seen) 0 i b ↔ Reached pace clock 0 i b ∨
      b < Index.i64Max ∧ ∃ s ∈ seen, (b - clock.salt) / slotSize ≤ s / slotSize + i := by
  unfold Reached
  rw [SeqClock.observeAll_last, SeqClock.observeAll_salt, le_foldl_max_div_iff, or_right_comm, and_or_left]

theorem mem_idPairs_iff {s : Session} {items : List (Nat × BulkItem)} {row : ℤ} {docId : String} :
    (row, docId) ∈ idPairs s items ↔ ∃ x ∈ items, x.2.explicitId = true ∧ docId = x.2.docId ∧
      ∃ info, s.infos.lookup x.2.stream = some info ∧ info.mode = .document ∧ row = info.id := by
  rw [idPairs, mem_filterMap]
  refine exists_congr fun x => and_congr_right fun _ => ?_
  cases hinfo : s.infos.lookup x.2.stream with
  | none => simp [Session.docMode, hinfo]
  | some info =>
    simp only [Session.docMode, hinfo, Option.any_some, decide_eq_true_eq, Option.map_some,
      Option.ite_none_right_eq_some, Option.some.injEq, Prod.mk.injEq, exists_eq_left']
    constructor
    · rintro ⟨⟨hexplicit, hmode⟩, hrow, hid⟩
      exact ⟨hexplicit, hid.symm, hmode, hrow.symm⟩
    · rintro ⟨hexplicit, hid, hmode, hrow⟩
      exact ⟨⟨hexplicit, hmode⟩, hrow.symm, hid.symm⟩

/-- The greatest of the bounds found stands for all of them. -/
theorem observedBound_iff {env : Env} {s : Session} {items : List (Nat × BulkItem)} {bound : Option ℤ}
    (h : observedBound env s items = .ok bound) {β m : ℤ} :
    (∃ seen ∈ bound, β ≤ seen / slotSize + m) ↔ ∃ table, env.table = .ok table ∧ ∃ b ∈ table,
      (b.stream, b.docId) ∈ idPairs s items ∧ β ≤ b.beforeSeq / slotSize + m := by
  unfold observedBound at h
  split_ifs at h with hnone
  · cases h
    simp [hnone]
  · cases htable : env.table with
    | error e =>
      rw [htable] at h
      cases h
    | ok table =>
      rw [htable] at h
      simp only [Except.ok.injEq, exists_eq_left'] at h ⊢
      subst h
      constructor
      · rintro ⟨seen, hseen, hle⟩
        obtain ⟨b, hb, rfl⟩ := mem_map.mp (max?_mem hseen)
        obtain ⟨hmem, hpair⟩ := mem_filter.mp hb
        exact ⟨b, hmem, of_decide_eq_true hpair, hle⟩
      · rintro ⟨b, hmem, hpair, hle⟩
        have hb : b.beforeSeq ∈ (tombstoneBounds (idPairs s items) table).map (·.beforeSeq) :=
          mem_map_of_mem (mem_filter.mpr ⟨hmem, decide_eq_true hpair⟩)
        obtain ⟨seen, hseen⟩ := Option.isSome_iff_exists.mp (isSome_max?_of_mem hb)
        refine ⟨seen, hseen, hle.trans ?_⟩
        have hmax := (max?_eq_some_iff.mp hseen).2 _ hb
        exact Int.add_le_add_right (Int.ediv_le_ediv (by decide) hmax) m

theorem exists_observed_iff {env : Env} {defaultIndex : Option String} {body : String} {p : Prepared}
    (h : prepare env defaultIndex body = .ok p) {β m : ℤ} :
    (∃ s ∈ p.observed, β ≤ s / slotSize + m) ↔
      ∃ s, Shown env defaultIndex body s ∧ β ≤ s / slotSize + m := by
  obtain ⟨outcome, named, bound, results, planned, hparse, hnamed, hbound, -, rfl⟩ := eq_of_prepare h
  have hiff := @observedBound_iff _ _ _ _ hbound β m
  constructor
  · rintro ⟨s, hs, hle⟩
    rcases mem_append.mp hs with hs | hs
    · exact ⟨s, ⟨outcome, named, hparse, hnamed, .inl hs⟩, hle⟩
    · obtain ⟨table, htable, b, hb, hpair, hle⟩ := hiff.mp ⟨s, by simpa using hs, hle⟩
      exact ⟨_, ⟨outcome, named, hparse, hnamed, .inr ⟨table, htable, b, hb, rfl, mem_idPairs_iff.mp hpair⟩⟩, hle⟩
  · rintro ⟨s, ⟨outcome', named', hparse', hnamed', hshown⟩, hle⟩
    cases hparse.symm.trans hparse'
    cases hnamed.symm.trans hnamed'
    rcases hshown with hs | ⟨table, htable, b, hb, rfl, hpair⟩
    · exact ⟨s, mem_append_left _ hs, hle⟩
    · obtain ⟨seen, hseen, hle⟩ := hiff.mpr ⟨table, htable, b, hb, mem_idPairs_iff.mpr hpair, hle⟩
      exact ⟨seen, mem_append_right _ (by simpa using hseen), hle⟩

/-- **The writes of a request outrank every earlier tombstone exactly if each bound of a replaced document is
covered**: by the clock of the node and its readings, or by what the request is shown, which is nothing about
a stream that only a route names. -/
theorem outranks_iff {env : Env} {pace : Pace} {clock : SeqClock} {defaultIndex : Option String}
    {body : String} {r : BulkReply} (h : handleBulkLocal env pace clock defaultIndex body = .ok r)
    (cluster : Cluster) :
    Outranks cluster r ↔ ∀ w ∈ r.writes, cluster.Replaces w.1 → ∀ b ∈ cluster.boundsOf w.1,
      Covered env pace clock defaultIndex body w.1.item b := by
  obtain ⟨p, c, hp, hc, rfl⟩ := handleBulkLocal_eq_ok_iff.mp h
  refine forall₂_congr fun w hw => forall_congr' fun _ => forall₂_congr fun b _ => ?_
  obtain ⟨a, ha, rfl⟩ := mem_map.mp hw
  rw [lt_stamps_iff (item_lt_of_mem_accepted hc ha), reached_observeAll_iff, exists_observed_iff hp]
  exact Iff.rfl

/-! ### A copy below an older bound -/

def writeBody : String := "\x7b\"index\":\x7b\"_index\":\"a\",\"_id\":\"x\"\x7d\x7d\n\x7b\"kind\":\"k\"\x7d\n"

def writeReader : Reader where
  fromStr line :=
    if line = "\x7b\"kind\":\"k\"\x7d" then .ok (.object [("kind", .string "k")])
    else .ok (.object [("index", .object [("_id", .string "x"), ("_index", .string "a")])])
  newUuid _ := ""

def emptySchema : Index.MappedSchema := ⟨0, 1, 2, [], ⟨[], []⟩, some 3, some 4, some 5⟩

/-- A node whose stream cache is empty, in a cluster with the document-mode streams `a` and `b` and a
rule that copies every document with a `kind` to `b`.  Another node, whose clock runs ahead, has
written `x` to `b`. -/
def copyEnv : Env where
  P := ⟨fun _ => "", fun _ => "", fun _ s => s, fun _ => none⟩
  R := writeReader
  autoCreateIndex := "true"
  autoCreateAllows _ := true
  cached _ _ := none
  ensureStream _ name _ := .ok ⟨if name = "a" then 1 else 2, .document⟩
  getStream _ _ := .ok true
  streamMaxSeq _ _ := .ok none
  table := .ok [⟨2, "x", 5000000⟩]
  getDocuments _ _ := .found []
  streamSchema _ _ := .ok emptySchema
  rules _ := [⟨"kind", .exists, "", "b", true⟩]
  upsertTombstones := .ok ()
  appendBatch := .ok ()
  enqueue _ name := .accepted (if name = "a" then 1 else 2)

def copyCluster : Cluster := ⟨fun _ => .document, [⟨2, "x", 5000000⟩]⟩

/-- **A routed copy below an older bound**: both copies of the write are accepted with the stamp of
the named stream, and the copy in `b` is hidden by the tombstone that was already there. -/
theorem routed_copy_outranked :
    ∃ r, handleBulkLocal copyEnv ⟨fun _ => 3000, fun _ => 0⟩ freshClock none writeBody = .ok r ∧
      r.writes.map (fun w => (w.1.row, w.1.docId, w.2)) = [(1, "x", 3072000), (2, "x", 3072000)] ∧
      ¬Outranks copyCluster r := by
  decide +kernel

/-- On a node whose wall clock reads six milliseconds both copies are above the bound. -/
theorem outranks_currentClock :
    ∃ r, handleBulkLocal copyEnv ⟨fun _ => 6000, fun _ => 0⟩ freshClock none writeBody = .ok r ∧
      r.writes.map (fun w => (w.1.row, w.1.docId, w.2)) = [(1, "x", 6144000), (2, "x", 6144000)] ∧
      Outranks copyCluster r := by
  obtain ⟨r, hr, hwrites⟩ : ∃ r, handleBulkLocal copyEnv ⟨fun _ => 6000, fun _ => 0⟩ freshClock none
      writeBody = .ok r ∧
      r.writes.map (fun w => (w.1.row, w.1.docId, w.2)) = [(1, "x", 6144000), (2, "x", 6144000)] := by
    decide +kernel
  refine ⟨r, hr, hwrites, (outranks_iff hr copyCluster).mpr fun w hw _ b hb => .inl ?_⟩
  obtain ⟨bound, hbound, rfl⟩ := mem_map.mp hb
  obtain rfl := mem_singleton.mp (mem_filter.mp hbound).1
  refine ⟨by decide, .inr ⟨0, Nat.succ_pos _, .inr ?_⟩⟩
  change (5000000 - 0) / 1024 < max 0 (min 6000 slotMax) + ((w.1.item : ℤ) - 0)
  unfold slotMax slotSize Index.i64Max
  omega

end RSearch.Bulk
