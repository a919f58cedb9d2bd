import RSearch.Bulk.Targets

/-!
# Where the split of an accepted document is stored

A batch of a stream becomes a split, stored under `streams/<stream>/<split id>.split`.  The local
backend keeps objects as files under a root and refuses every key that could lead out of it: one with an
empty segment, a segment `.` or `..`, or a backslash.
-/

namespace RSearch.Storage

open List Bulk
open Index (Platform)

/-! ### Keys -/

inductive StorageError where
  | invalidKey (text : String)
  deriving DecidableEq

def BadSegment (part : List Char) : Prop :=
  part = [] ∨ part = ['.'] ∨ part = ['.', '.'] ∨ '\\' ∈ part

instance (part : List Char) : Decidable (BadSegment part) :=
  inferInstanceAs (Decidable (_ ∨ _ ∨ _ ∨ _))

/-- The local filesystem backend.  `escapes` says whether a key's file exists and its canonical path
lies outside the canonical root. -/
structure FsStorage where
  root : String
  escapes : String → Bool

def FsStorage.resolve (fs : FsStorage) (key : String) : Except StorageError String :=
  if key = "" ∨ key.toList.head? = some '/' ∨ ∃ part ∈ key.toList.splitOn '/', BadSegment part then
    .error (.invalidKey key)
  else if fs.escapes key then .error (.invalidKey (key ++ " resolves outside the storage root"))
  else .ok (fs.root ++ "/" ++ key)

def FsStorage.Healthy (fs : FsStorage) : Prop := ∀ key, fs.escapes key = false

structure SplitId where
  text : String
  hex : ∀ c ∈ text.toList, c.isAlphanum = true

def storageKey (stream : String) (id : SplitId) : String :=
  "streams/" ++ stream ++ "/" ++ id.text ++ ".split"

/-- **A clean name**: no segment of it is one that the backend refuses. -/
def CleanName (stream : String) : Prop := ∀ part ∈ stream.toList.splitOn '/', ¬BadSegment part

instance (stream : String) : Decidable (CleanName stream) :=
  inferInstanceAs (Decidable (∀ part ∈ stream.toList.splitOn '/', ¬BadSegment part))

def SplitId.fileName (id : SplitId) : List Char := id.text.toList ++ ".split".toList

theorem SplitId.notMem_fileName {id : SplitId} {c : Char} (hc : c ∉ ".split".toList)
    (halpha : c.isAlphanum = false) : c ∉ id.fileName := by
  intro h
  rcases mem_append.mp h with h | h
  · rw [id.hex c h] at halpha
    cases halpha
  · exact hc h

theorem SplitId.not_badSegment (id : SplitId) : ¬BadSegment id.fileName := by
  have hlen : 6 ≤ id.fileName.length := by
    simp [fileName]
  rintro (h | h | h | h)
  · simp [h] at hlen
  · simp [h] at hlen
  · simp [h] at hlen
  · exact id.notMem_fileName (by decide) (by decide) h

theorem toList_storageKey (stream : String) (id : SplitId) :
    (storageKey stream id).toList
      = "streams".toList ++ '/' :: (stream.toList ++ '/' :: id.fileName) := by
  simp [storageKey, SplitId.fileName]

theorem splitOn_storageKey (stream : String) (id : SplitId) :
    (storageKey stream id).toList.splitOn '/'
      = "streams".toList :: (stream.toList.splitOn '/' ++ [id.fileName]) := by
  have hfile : id.fileName.splitOn '/' = [id.fileName] :=
    splitOn_eq_singleton (id.notMem_fileName (by decide) (by decide))
  have hprefix : "streams".toList.splitOn '/' = ["streams".toList] :=
    splitOn_eq_singleton (by decide)
  have happend (as bs : List Char) :
      (as ++ '/' :: bs).splitOn '/' = as.splitOn '/' ++ bs.splitOn '/' :=
    splitOnP_append_cons as bs (by decide)
  grind [toList_storageKey]

theorem exists_badSegment_iff (stream : String) (id : SplitId) :
    (∃ part ∈ (storageKey stream id).toList.splitOn '/', BadSegment part) ↔ ¬CleanName stream := by
  rw [splitOn_storageKey]
  simp only [CleanName, mem_cons, mem_append, not_mem_nil, or_false, not_forall, not_not, exists_prop]
  constructor
  · rintro ⟨part, rfl | hpart | rfl, hbad⟩
    · exact absurd hbad (by decide)
    · exact ⟨part, hpart, hbad⟩
    · exact absurd hbad id.not_badSegment
  · grind

variable {fs : FsStorage} {stream : String} {planned : List Planned} {plan : Planned}

theorem resolve_storageKey (hfs : fs.Healthy) (h : CleanName stream) (id : SplitId) :
    fs.resolve (storageKey stream id) = .ok (fs.root ++ "/" ++ storageKey stream id) := by
  have hhead : (storageKey stream id).toList.head? ≠ some '/' := by
    rw [toList_storageKey]
    simp
  have hne : storageKey stream id ≠ "" := by
    intro heq
    have := congrArg String.toList heq
    rw [toList_storageKey] at this
    cases this
  rw [FsStorage.resolve, if_neg, hfs, if_neg Bool.false_ne_true]
  rintro (hempty | hslash | hbad)
  · exact hne hempty
  · exact hhead hslash
  · exact (exists_badSegment_iff stream id).mp hbad h

theorem resolve_storageKey_of_not (fs : FsStorage) (h : ¬CleanName stream) (id : SplitId) :
    fs.resolve (storageKey stream id) = .error (.invalidKey (storageKey stream id)) := by
  rw [FsStorage.resolve, if_pos (.inr (.inr ((exists_badSegment_iff stream id).mpr h)))]

/-- **The splits of a stream can be stored**, whatever ids they get. -/
def Storable (fs : FsStorage) (stream : String) : Prop :=
  ∀ id, ∃ path, fs.resolve (storageKey stream id) = .ok path

def someId : SplitId := ⟨"0", by simp⟩

theorem storable_iff (hfs : fs.Healthy) : Storable fs stream ↔ CleanName stream := by
  constructor
  · intro h
    obtain ⟨path, hpath⟩ := h someId
    grind [resolve_storageKey_of_not]
  · exact fun h id => ⟨_, resolve_storageKey hfs h id⟩

/-! ### What a request was granted -/

def grantedTo (n : ℕ) (c : (ℕ × Planned × String) × EnqueueAnswer) : Option String :=
  match c.2 with
  | .accepted _ => if c.1.1 = n then some c.1.2.2 else none
  | .saturated => none
  | .failed _ => none

def grantedStreams (env : Env) (planned : List Planned) (n : ℕ) : List String :=
  (queued env planned).filterMap (grantedTo n)

def copyAnswers (env : Env) (planned : List Planned) (n : ℕ) : List EnqueueAnswer :=
  ((queued env planned).filter (·.1.1 = n)).map (·.2)

def Succeeded (body : ItemBody) : Prop := 200 ≤ body.status ∧ body.status < 300

/-- A name the write path takes: the target of an action of the body, where the path's index stands
in for a missing one, or the target of a routing rule. -/
def NamedBy (env : Env) (defaultIndex : Option String) (body stream : String) : Prop :=
  (∃ a ∈ bodyActions env.R (bodyLines body), targetIndex a.metadata defaultIndex = stream) ∨
    ∃ position, ∃ rule ∈ env.rules position, rule.targetStream = stream

theorem mem_expandRoutes {P : Platform} {rules : List RoutingRule} {name : String} {doc : Json.Value}
    (h : stream ∈ expandRoutes P rules name doc) :
    stream = name ∨ ∃ rule ∈ rules, rule.targetStream = stream := by
  have hfold : ∀ (extra routes : List String),
      stream ∈ extra.foldl (fun routes s => if s ∈ routes then routes else routes ++ [s]) routes →
        stream ∈ routes ∨ stream ∈ extra := by
    intro extra
    induction extra with
    | nil => exact fun routes h => .inl h
    | cons s extra ih =>
      intro routes h
      rcases ih _ h with h | h
      · dsimp only at h
        split_ifs at h with hmem
        · exact .inl h
        · grind
      · exact .inr (mem_cons_of_mem _ h)
  rcases hfold _ _ h with h | h
  · rw [mem_singleton] at h
    cases hlast : ((rules.filter (·.matches P doc)).filter (!·.copy)).getLast? with
    | none =>
      rw [hlast] at h
      exact .inl h
    | some rule =>
      grind
  · obtain ⟨rule, hrule, rfl⟩ := mem_map.mp h
    grind

section

variable {env : Env} {s : Session} {items : List (ℕ × BulkItem)} {planned : List Planned}

variable {item : BulkItem} {plan : Planned} {answers : List EnqueueAnswer} {seq : ℤ}

theorem status_of_settle {settled : Settled} (h : settle env s items item = .ok settled) :
    settled.status = 200 ∨ settled.status = 201 := by
  unfold settle at h
  split at h
  · split_ifs at h <;> cases h <;> simp
  · split_ifs at h
    · obtain ⟨current, -, h⟩ := Except.of_bind h
      grind
    · cases h
      exact .inr rfl
  · split_ifs at h
    obtain ⟨current, -, h⟩ := Except.of_bind h
    grind [settleUpdate]
  · cases h
    exact .inl rfl

theorem eq_of_planItem {position : ℕ} (h : planItem env s items position item = .ok (.inr plan)) :
    (plan.status = 200 ∨ plan.status = 201) ∧ plan.position = position ∧ plan.item.stream = item.stream ∧
      ∀ stream ∈ plan.routes, stream = item.stream ∨
        ∃ rule ∈ env.rules position, rule.targetStream = stream := by
  unfold planItem at h
  split at h
  · cases h
  · next settled hsettled =>
      obtain ⟨malformed, -, h⟩ := Except.of_bind h
      cases malformed with
      | some e => cases h
      | none =>
        cases h
        grind [mem_expandRoutes, settle_item, status_of_settle]

theorem accepted_iff_mem_copyAnswers {n : ℕ} :
    (∃ row, EnqueueAnswer.accepted row ∈ copyAnswers env planned n) ↔
      grantedStreams env planned n ≠ [] := by
  constructor
  · rintro ⟨row, hrow⟩
    obtain ⟨⟨⟨m, plan, stream⟩, answer⟩, hc, rfl⟩ := mem_map.mp hrow
    obtain ⟨hmem, hn⟩ := mem_filter.mp hc
    have hgranted : stream ∈ grantedStreams env planned n :=
      mem_filterMap.mpr ⟨_, hmem, if_pos (of_decide_eq_true hn)⟩
    exact ne_nil_of_mem hgranted
  · intro hne
    obtain ⟨stream, hstream⟩ := exists_mem_of_ne_nil _ hne
    obtain ⟨⟨⟨m, plan, s⟩, answer⟩, hc, hgranted⟩ := mem_filterMap.mp hstream
    unfold grantedTo at hgranted
    cases answer with
    | accepted row =>
      split_ifs at hgranted with hn
      exact ⟨row, mem_map.mpr ⟨_, mem_filter.mpr ⟨hc, decide_eq_true hn⟩, rfl⟩⟩
    | saturated | failed e => cases hgranted

theorem writeResult_of_accepted {row : ℤ} (h : EnqueueAnswer.accepted row ∈ answers) :
    writeResult plan answers seq
      = itemOk plan.wireAction plan.item.stream plan.item.docId seq plan.result plan.status :=
  if_pos (any_eq_true.mpr ⟨_, h, rfl⟩)

theorem status_writeResult_of_not (h : ∀ row, EnqueueAnswer.accepted row ∉ answers) :
    (writeResult plan answers seq).status = 429 ∨ (writeResult plan answers seq).status = 500 := by
  unfold writeResult
  rw [if_neg]
  · split_ifs
    · exact .inl rfl
    · exact .inr rfl
  · grind

theorem succeeded_writeResult_iff (hstatus : plan.status = 200 ∨ plan.status = 201) {n : ℕ} :
    Succeeded (writeResult plan (copyAnswers env planned n) seq) ↔
      grantedStreams env planned n ≠ [] := by
  grind [writeResult_of_accepted, status_writeResult_of_not, accepted_iff_mem_copyAnswers, Succeeded, itemOk]

end

/-! ### Requests -/

theorem mem_of_mem_numbered {n : ℕ} (h : (n, plan) ∈ numbered planned) : plan ∈ planned :=
  mem_of_getElem? (mem_numbered_iff.mp h)

theorem eq_of_mem_planned {env : Env} {defaultIndex : Option String} {body : String} {p : Prepared}
    (h : prepare env defaultIndex body = .ok p) (hplan : plan ∈ p.planned) :
    (plan.status = 200 ∨ plan.status = 201) ∧
      ∀ stream ∈ plan.routes, NamedBy env defaultIndex body stream := by
  obtain ⟨outcome, hparse, hitems⟩ := exists_item_of_mem_planned h
  obtain ⟨q, hq, hcan, hstream⟩ := hitems plan hplan
  obtain ⟨a, ha, -, htarget⟩ := (exists_item_iff_bodyAction hparse _).mp ⟨q, hq, hcan, rfl⟩
  obtain ⟨outcome', named, bound, results, planned, -, -, -, hplans, rfl⟩ := eq_of_prepare h
  obtain ⟨q', -, hdec⟩ := exists_planItem_of_mem_planned hplans plan hplan
  obtain ⟨hstatus, -, hitem, hroutes⟩ := eq_of_planItem hdec
  refine ⟨hstatus, fun stream hmem => ?_⟩
  rcases hroutes stream hmem with rfl | ⟨rule, hrule, htarget⟩
  · exact .inl ⟨a, ha, htarget.trans (hstream.symm.trans hitem)⟩
  · exact .inr ⟨_, rule, hrule, htarget⟩

theorem exists_mem_items_reply {env : Env} {p : Prepared} {c : Committed} {seqs : List ℤ} {n : ℕ}
    {plan : Planned} (h : (n, plan) ∈ numbered p.planned) (hwrite : isWrite plan.item.action = true) :
    ∃ seq, writeResult plan (copyAnswers env p.planned n) seq ∈ (reply env p c seqs).items := by
  have hbody : (planResult env c.session p.planned seqs (n, plan)).body
      = writeResult plan (copyAnswers env p.planned n) (seqs.getD n 0) := by
    unfold planResult
    cases haction : plan.item.action with
    | index | create => rfl
    | update | delete =>
      rw [haction] at hwrite
      cases hwrite
  refine ⟨seqs.getD n 0, mem_map.mpr ⟨_, (mem_insertionSort _).mpr ?_, hbody⟩⟩
  grind

theorem mem_routes_of_granted {env : Env} {n : ℕ} (h : stream ∈ grantedStreams env planned n) :
    ∃ plan, (n, plan) ∈ numbered planned ∧ stream ∈ plan.routes := by
  obtain ⟨⟨⟨m, plan, s⟩, answer⟩, hc, hgranted⟩ := mem_filterMap.mp h
  obtain ⟨⟨copy, k⟩, hk, heq⟩ := mem_map.mp hc
  obtain ⟨⟨m', plan'⟩, hnum, hmem⟩ := mem_flatMap.mp (fst_mem_of_mem_zipIdx hk)
  split_ifs at hmem with hwrite
  · grind [grantedTo]
  · cases hmem

/-- **Where an answered write can be stored.**  Each planned write has its answer in the reply, and
the answer is a success exactly when a stream took a copy.  Every stream that did is named by the
request or by a rule, and the splits of those streams can be stored **exactly when their names are
clean**; the split of another one is refused under whatever id it is tried. -/
theorem accepted_storable_iff {fs : FsStorage} (hfs : fs.Healthy) {env : Env} {pace : Pace}
    {clock : SeqClock} {defaultIndex : Option String} {body : String} {r : BulkReply}
    (h : handleBulkLocal env pace clock defaultIndex body = .ok r) :
    ∃ p, prepare env defaultIndex body = .ok p ∧
      ∀ n plan, (n, plan) ∈ numbered p.planned → isWrite plan.item.action = true →
        ∃ answer ∈ r.items,
          (∃ seq, answer = writeResult plan (copyAnswers env p.planned n) seq) ∧
          (Succeeded answer ↔ grantedStreams env p.planned n ≠ []) ∧
          (∀ stream ∈ grantedStreams env p.planned n, NamedBy env defaultIndex body stream) ∧
          ((∀ stream ∈ grantedStreams env p.planned n, Storable fs stream) ↔
            ∀ stream ∈ grantedStreams env p.planned n, CleanName stream) ∧
          ∀ stream ∈ grantedStreams env p.planned n, ¬CleanName stream → ∀ id,
            fs.resolve (storageKey stream id) = .error (.invalidKey (storageKey stream id)) := by
  obtain ⟨p, c, hp, hc, rfl⟩ := handleBulkLocal_eq_ok_iff.mp h
  refine ⟨p, hp, fun n plan hplan hwrite => ?_⟩
  obtain ⟨seq, hseq⟩ := @exists_mem_items_reply env p c
    (stamps pace (clock.observeAll p.observed) 0 p.planned.length) n plan hplan hwrite
  have hstatus := (eq_of_mem_planned hp (mem_of_mem_numbered hplan)).1
  refine ⟨_, hseq, ⟨seq, rfl⟩, succeeded_writeResult_iff hstatus, fun stream hstream => ?_, ?_,
    fun stream _ hname id => resolve_storageKey_of_not fs hname id⟩
  · obtain ⟨plan', hplan', hroute⟩ := mem_routes_of_granted hstream
    exact (eq_of_mem_planned hp (mem_of_mem_numbered hplan')).2 stream hroute
  · grind [storable_iff]

def oneDocReader (stream : String) : Reader where
  fromStr line :=
    if line = "\x7b\"m\":1\x7d" then .ok (.object [("m", .number (.posInt 1))])
    else .ok (.object [("index", .object [("_index", .string stream)])])
  newUuid _ := "generated"

def openEnv (stream : String) : Env :=
  acceptingEnv unaryPlatform (oneDocReader stream) ⟨.index, stream, "generated", false, .null, ""⟩

def plainStorage : FsStorage := ⟨"/data", fun _ => false⟩

def logsBody : String := "\x7b\"index\":\x7b\"_index\":\"logs\"\x7d\x7d\n\x7b\"m\":1\x7d\n"

/-- A document for `logs` is accepted, and `logs` can be stored. -/
theorem accepted_storable_logs :
    ∃ r p, handleBulkLocal (openEnv "logs") ⟨fun _ => 3000, fun _ => 0⟩ freshClock none logsBody
        = .ok r ∧ prepare (openEnv "logs") none logsBody = .ok p ∧
      grantedStreams (openEnv "logs") p.planned 0 = ["logs"] ∧
      ∀ stream ∈ grantedStreams (openEnv "logs") p.planned 0, Storable plainStorage stream := by
  obtain ⟨p, hp, hgranted, plan, hplan, hwrite⟩ : ∃ p, prepare (openEnv "logs") none logsBody = .ok p ∧
      grantedStreams (openEnv "logs") p.planned 0 = ["logs"] ∧
      ∃ plan, p.planned[0]? = some plan ∧ isWrite plan.item.action := by
    decide +kernel
  obtain ⟨r, hr, -⟩ : ∃ r, handleBulkLocal (openEnv "logs") ⟨fun _ => 3000, fun _ => 0⟩ freshClock none
      logsBody = .ok r ∧ True := by
    decide +kernel
  obtain ⟨p', hp', hplans⟩ := accepted_storable_iff (fun _ => rfl : plainStorage.Healthy) hr
  cases hp.symm.trans hp'
  obtain ⟨answer, -, -, -, -, hstorable, -⟩ := hplans 0 plan (mem_numbered_iff.mpr hplan) hwrite
  refine ⟨r, p, hr, hp, hgranted, hstorable.mpr ?_⟩
  rw [hgranted]
  decide +kernel

def dotsBody : String := "\x7b\"index\":\x7b\"_index\":\"..\"\x7d\x7d\n\x7b\"m\":1\x7d\n"

/-- **An accepted document that is never stored.**  A document for the stream `..` is answered with
201, and the key of its split is refused under every id. -/
theorem accepted_dots_refused :
    ∃ r, handleBulkLocal (openEnv "..") ⟨fun _ => 3000, fun _ => 0⟩ freshClock none dotsBody
        = .ok r ∧ r.items.map (·.status) = [201] ∧ r.items.map (·.index) = [".."] ∧
      ∀ id, plainStorage.resolve (storageKey ".." id)
        = .error (.invalidKey (storageKey ".." id)) := by
  obtain ⟨r, hr, hstatus, hindex⟩ : ∃ r, handleBulkLocal (openEnv "..") ⟨fun _ => 3000, fun _ => 0⟩
      freshClock none dotsBody = .ok r ∧ r.items.map (·.status) = [201] ∧
        r.items.map (·.index) = [".."] := by
    decide +kernel
  exact ⟨r, hr, hstatus, hindex,
    fun id => resolve_storageKey_of_not plainStorage (by decide +kernel) id⟩

end RSearch.Storage
