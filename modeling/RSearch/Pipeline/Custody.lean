import RSearch.Pipeline.System

/-!
# Who has which record

Every record that is in the log and not confirmed is in one place: with the request that appended it,
with replay, with a worker, or lost (`State.held`).  A step moves records between places, and what it
takes away it confirms: that is `Flow`, for every step that neither appends nor restarts.
-/

namespace RSearch.Pipeline

open List Option Wal Book Segments Worker State Hub

variable {M : Type}

/-! ## The places -/

def Work.records (work : Work M) : List LogRecord :=
  (work.sender.map fun p => p.1.record).toList ++ work.routes.map (·.record)

def Request.records (r : Request M) : List LogRecord :=
  (r.work.map Work.records).getD [] ++ r.plans.flatten.map (·.record)

def Replay.records (r : Replay M) : List LogRecord :=
  (r.current.map ReplayStage.record).toList ++ r.ahead

def Hub.records (hub : Hub M) : List LogRecord :=
  hub.workers.flatMap Worker.records

def State.held (s : State M) : List LogRecord :=
  s.requests.flatMap Request.records ++ (s.replay.records ++ (s.hub.records ++ s.lost))

def State.Untouched (s : State M) : Prop :=
  ∀ w ∈ s.hub.workers, w.Untouched

/-- **What a step does to the records held.**  It takes `gone` away and confirms `entries`. -/
structure Flow (s s' : State M) (gone : List LogRecord) (entries : List (LogRecord × Fate M)) :
    Prop where
  held : s.held.Perm (s'.held ++ gone)
  settled : s'.settled = s.settled ++ entries
  book : (entries = [] ∧ s'.book = s.book) ∨ s'.book = s.book.confirm (entries.map (·.1.pos))
  gone : s.Untouched → gone.Perm (entries.map Prod.fst)

namespace Flow

variable {s s' : State M}

theorem of_perm (hheld : s.held.Perm s'.held) (hsettled : s'.settled = s.settled)
    (hbook : s'.book = s.book) : Flow s s' [] [] where
  held := by simpa using hheld
  settled := by simpa using hsettled
  book := .inl ⟨rfl, hbook⟩
  gone _ := Perm.refl _

end Flow

/-! ## Senders -/

section Senders

variable {env : Env M} {hub hub' : Hub M} {snd : Sender M} {blocking ok : Bool} {d : Delivery M}

theorem Worker.records_push (w : Worker M) (x : WorkItem) (permits : ℕ) :
    { w with queue := w.queue ++ [Msg.doc x], permits }.records.Perm (w.records ++ [x.record]) := by
  have hdoc : [Msg.doc x].filterMap Msg.record? = [x.record] := rfl
  simp only [records, filterMap_append, hdoc, append_assoc]
  rw [← append_assoc (w.buffer.map _)]
  exact perm_append_comm.append_left _

def Delivery.Gives (snd : Sender M) (hub hub' : Hub M) : Delivery M → Prop
  | .goes snd' => snd'.record = snd.record ∧ hub'.records.Perm hub.records
  | .sent => hub'.records.Perm (hub.records ++ [snd.record])
  | .saturated | .closed | .failed => hub'.records.Perm hub.records

theorem Hub.Delivers.gives (h : Delivers env blocking ok hub snd d hub') : d.Gives snd hub hub' := by
  have hworkers := hub.streamInfo_workers env snd.record.item.stream ok
  cases h with
  | info _ hinfo =>
    rw [hinfo] at hworkers
    exact ⟨rfl, by rw [records, records, hworkers]⟩
  | infoFails _ hinfo =>
    rw [hinfo] at hworkers
    exact (by rw [records, records, hworkers] : hub'.records.Perm hub.records)
  | spawns => exact ⟨rfl, by simp [records, spawn, Worker.records, Run.owned]⟩
  | reserves _ hw => exact ⟨rfl, Slots.perm_of_keeps Worker.records hw (Perm.refl _)⟩
  | fills _ hw => exact Slots.perm_of_takes Worker.records hw (Worker.records_push _ _ _)
  | found | missing | locks | resolves | retries => exact ⟨rfl, Perm.refl _⟩
  | resolveFails | closed | saturated => exact Perm.refl _

end Senders

/-! ## Every step is a flow -/

section Steps

variable {env : Env M} {s s' : State M}

theorem State.count_held (s : State M) (x : LogRecord) :
    s.held.count x = (s.requests.flatMap Request.records).count x +
      (s.replay.records.count x + (s.hub.records.count x + s.lost.count x)) := by
  simp only [held, count_append]

theorem Flow.of_parts (out₁ out₂ new : List LogRecord) (entries : List (LogRecord × Fate M))
    (hrequests : (s.requests.flatMap Request.records).Perm (s'.requests.flatMap Request.records ++ out₁))
    (hreplay : s.replay.records.Perm (s'.replay.records ++ out₂))
    (hhub : s'.hub.records.Perm (s.hub.records ++ new)) (hlost : s'.lost = s.lost)
    (hbalance : (out₁ ++ out₂).Perm (new ++ entries.map Prod.fst))
    (hsettled : s'.settled = s.settled ++ entries)
    (hbook : (entries = [] ∧ s'.book = s.book) ∨ s'.book = s.book.confirm (entries.map (·.1.pos))) :
    Flow s s' (entries.map Prod.fst) entries where
  held := by
    refine perm_iff_count.mpr fun x => ?_
    have h₄ := hbalance.count_eq x
    grind [count_held]
  settled := hsettled
  book := hbook
  gone _ := Perm.refl _

theorem Flow.of_hub (hrequests : s'.requests = s.requests) (hreplay : s'.replay = s.replay)
    (hhub : s'.hub.records.Perm s.hub.records) (hlost : s'.lost = s.lost)
    (hsettled : s'.settled = s.settled) (hbook : s'.book = s.book) : Flow s s' [] [] := by
  grind [of_perm, count_held]

variable {r : Request M} {work : Work M} {snd : Sender M} {infoId j : ℕ}

theorem Request.records_sending (hwork : r.work = some work) (hsender : work.sender = some (snd, infoId)) :
    r.records = snd.record :: (work.routes.map (·.record) ++ r.plans.flatten.map (·.record)) := by
  simp [Request.records, Work.records, hwork, hsender]

theorem Request.records_leaves (hwork : r.work = some work) (hsender : work.sender = some (snd, infoId)) :
    r.records.Perm ((work.routes.map (·.record) ++ r.plans.flatten.map (·.record)) ++
      [snd.record]) := by
  rw [Request.records_sending hwork hsender]
  exact (perm_append_singleton ..).symm

theorem Replay.records_of_current {r : Replay M} {stage : ReplayStage M} (h : r.current = some stage) :
    r.records = stage.record :: r.ahead := by
  simp [Replay.records, h]

/-- **A step of request `j`.**  It gives some of its records away: the workers take `new`, and the others
were refused and are confirmed. -/
structure RequestMove (s s' : State M) (j : ℕ) (r r' : Request M)
    (entries : List (LogRecord × Fate M)) : Prop where
  requests : s'.requests = s.requests.set j r'
  gives : ∃ new, r.records.Perm (r'.records ++ (new ++ entries.map Prod.fst)) ∧
    s'.hub.records.Perm (s.hub.records ++ new)
  replay : s'.replay = s.replay
  lost : s'.lost = s.lost
  settled : s'.settled = s.settled ++ entries
  rejected : ∀ e ∈ entries, e.2 = .rejected
  book : (entries = [] ∧ s'.book = s.book) ∨ s'.book = s.book.confirm (entries.map (·.1.pos))

/-- **A step of replay.**  It gives some of its records away; what it confirms is one that is not JSON, or one
whose worker is gone, and what it yields is one of its records. -/
structure ReplayMove (env : Env M) (s s' : State M) (entries : List (LogRecord × Fate M)) : Prop where
  requests : s'.requests = s.requests
  gives : ∃ new, s.replay.records.Perm (s'.replay.records ++ (new ++ entries.map Prod.fst)) ∧
    s'.hub.records.Perm (s.hub.records ++ new)
  yielded : ∀ r ∈ s'.replay.yielded, r ∈ s.replay.yielded ∨ r ∈ s.replay.records
  lost : s'.lost = s.lost
  settled : s'.settled = s.settled ++ entries
  dropped : ∀ e ∈ entries, e.2 = .undelivered ∨ e.2 = .corrupt ∧ env.parses e.1.item.doc = false
  book : (entries = [] ∧ s'.book = s.book) ∨ s'.book = s.book.confirm (entries.map (·.1.pos))

section Moved

variable {j : ℕ} {r r' : Request M} {es : List (LogRecord × Fate M)}

theorem kept_of_book {b b' : Book} (h : (es = [] ∧ b' = b) ∨ b' = b.confirm (es.map (·.1.pos))) :
    b'.stored = b.stored ∧ b'.files = b.files ∧ b'.nextRid = b.nextRid := by
  rcases h with ⟨-, rfl⟩ | rfl <;> exact ⟨rfl, rfl, rfl⟩

namespace RequestMove

variable (h : RequestMove s s' j r r' es)

include h

theorem records : r'.records ⊆ r.records := by
  obtain ⟨new, hperm, -⟩ := h.gives
  exact fun x hx => hperm.mem_iff.mpr (mem_append_left _ hx)

theorem entries : ∀ e ∈ es, e.2 = .rejected ∧ e.1 ∈ r.records := by
  obtain ⟨new, hperm, -⟩ := h.gives
  exact fun e he => ⟨h.rejected e he, hperm.mem_iff.mpr (by grind)⟩

theorem stored : s'.book.stored = s.book.stored := (kept_of_book h.book).1

theorem nextRid : s'.book.nextRid = s.book.nextRid := (kept_of_book h.book).2.2

theorem flow (hj : s.requests[j]? = some r) : Flow s s' (es.map Prod.fst) es := by
  obtain ⟨new, hout, hhub⟩ := h.gives
  refine Flow.of_parts (new ++ es.map Prod.fst) [] new es ?_ ?_ hhub h.lost ?_ h.settled h.book
  · rw [h.requests]
    exact Slots.perm_of_gives Request.records hj hout
  · rw [h.replay, append_nil]
  · rw [append_nil]

end RequestMove

namespace ReplayMove

variable (h : ReplayMove env s s' es)

include h

theorem records : s'.replay.records ⊆ s.replay.records := by
  obtain ⟨new, hperm, -⟩ := h.gives
  exact fun x hx => hperm.mem_iff.mpr (mem_append_left _ hx)

theorem stored : s'.book.stored = s.book.stored := (kept_of_book h.book).1

theorem nextRid : s'.book.nextRid = s.book.nextRid := (kept_of_book h.book).2.2

theorem flow : Flow s s' (es.map Prod.fst) es := by
  obtain ⟨new, hout, hhub⟩ := h.gives
  refine Flow.of_parts [] (new ++ es.map Prod.fst) new es ?_ hout hhub h.lost ?_ h.settled h.book
  · rw [h.requests, append_nil]
  · rw [nil_append]

end ReplayMove

end Moved

theorem refuse_move {hub : Hub M} (saturated : Bool) (hwork : r.work = some work)
    (hsender : work.sender = some (snd, infoId)) (hhub : hub.records.Perm s.hub.records) :
    ∃ r', RequestMove s
      ({ s with hub }.refuse j r work snd.record saturated) j r r' [(snd.record, .rejected)] := by
  have hout := Request.records_leaves hwork hsender
  exact ⟨_, rfl, ⟨[], hout, by rwa [append_nil]⟩, rfl, rfl, rfl, by simp, .inr rfl⟩

theorem State.Serves.move (h : Serves env s j r s') :
    ∃ r' entries, RequestMove s s' j r r' entries := by
  have hkeeps {s' : State M} {r' : Request M} (hrequests : s'.requests = s.requests.set j r')
      (hrecords : r'.records = r.records) (hhub : s'.hub.records.Perm s.hub.records)
      (hreplay : s'.replay = s.replay) (hlost : s'.lost = s.lost) (hsettled : s'.settled = s.settled)
      (hbook : s'.book = s.book) : ∃ r' entries, RequestMove s s' j r r' entries :=
    ⟨r', [], hrequests, ⟨[], by simp [hrecords], by simpa using hhub⟩, hreplay, hlost,
      by simpa using hsettled, by simp, .inl ⟨rfl, hbook⟩⟩
  cases h with
  | plan hwork hplans =>
    exact hkeeps rfl (by simp [Request.records, Work.records, hwork, hplans]) (.refl _) rfl rfl rfl rfl
  | issue => exact hkeeps rfl rfl (.refl _) rfl rfl rfl rfl
  | route hwork hsender hroutes | answer hwork hsender hroutes =>
    exact hkeeps rfl (by simp [Request.records, Work.records, hwork, hsender, hroutes]) (.refl _) rfl rfl
      rfl rfl
  | @deliver work snd infoId ok d hub hwork hsender hd =>
    have hgives := hd.gives
    cases d with
    | goes snd' =>
      refine hkeeps rfl ?_ hgives.2 rfl rfl rfl rfl
      rw [Request.records_sending hwork hsender, Request.records_sending rfl rfl, hgives.1]
    | sent =>
      have hout := Request.records_leaves hwork hsender
      exact ⟨_, [], rfl, ⟨[snd.record], hout, hgives⟩, rfl, rfl, (append_nil _).symm, by simp,
        .inl ⟨rfl, rfl⟩⟩
    | saturated | closed | failed =>
      obtain ⟨r', hmove⟩ := refuse_move _ hwork hsender hgives
      exact ⟨r', _, hmove⟩

theorem State.Replays.move {ok : Bool} (h : Replays env ok s s') :
    ∃ entries, ReplayMove env s s' entries := by
  have hsame {s' : State M} (hrequests : s'.requests = s.requests)
      (hrecords : s'.replay.records = s.replay.records)
      (hyielded : s'.replay.yielded = s.replay.yielded) (hhub : s'.hub.records.Perm s.hub.records)
      (hlost : s'.lost = s.lost) (hsettled : s'.settled = s.settled) (hbook : s'.book = s.book) :
      ∃ entries, ReplayMove env s s' entries :=
    ⟨[], hrequests, ⟨[], by simp [hrecords], by simpa using hhub⟩, fun r hr => .inl (hyielded ▸ hr), hlost,
      by simpa using hsettled, by simp, .inl ⟨rfl, hbook⟩⟩
  have hleaves {stage : ReplayStage M} (hcurrent : s.replay.current = some stage) :
      s.replay.records.Perm (s.replay.ahead ++ [stage.record]) := by
    rw [Replay.records_of_current hcurrent]
    exact (perm_append_singleton ..).symm
  have hdrops {hub : Hub M} (stage : ReplayStage M) {fate : Fate M}
      (hcurrent : s.replay.current = some stage) (hhub : hub.records.Perm s.hub.records)
      (hfate : fate = .undelivered ∨ fate = .corrupt ∧ env.parses stage.record.item.doc = false) :
      ∃ entries, ReplayMove env s ({ s with hub }.replayDrops stage.record fate) entries :=
    ⟨[(stage.record, fate)], rfl, ⟨[], hleaves hcurrent, by rwa [append_nil]⟩, fun _ => .inl, rfl, rfl,
      by simpa using hfate, .inr rfl⟩
  cases h with
  | stops | issues => exact hsame rfl rfl rfl (.refl _) rfl rfl rfl
  | @yields r ahead hcurrent hahead =>
    refine ⟨[], rfl, ⟨[], ?_, by simp [setReplay]⟩, fun r' hr' => ?_, rfl,
      (append_nil _).symm, by simp, .inl ⟨rfl, rfl⟩⟩
    · simp only [setReplay, Replay.records, hcurrent, hahead]
      split_ifs <;> simp [ReplayStage.record]
    · rcases mem_append.mp hr' with hr' | hr'
      · exact .inl hr'
      · grind [Replay.records]
  | @tomb r hcurrent =>
    have hhub : (s.hub.streamInfo env r.item.stream ok).2.records = s.hub.records := by
      rw [Hub.records, Hub.records, s.hub.streamInfo_workers]
    unfold replayTomb
    rcases hinfo : s.hub.streamInfo env r.item.stream ok with ⟨_ | id, hub⟩ <;> rw [hinfo] at hhub
    · exact hsame rfl rfl rfl (.of_eq hhub) rfl rfl rfl
    · refine hsame rfl ?_ rfl (.of_eq hhub) rfl rfl rfl
      simp only [setReplay, Replay.records, hcurrent]
      split_ifs <;> rfl
  | upsert hcurrent =>
    unfold replayUpsert
    split_ifs
    · exact hsame rfl (by rw [Replay.records_of_current hcurrent]; rfl) rfl (.refl _) rfl rfl rfl
    · exact hsame rfl rfl rfl (.refl _) rfl rfl rfl
  | @check r hcurrent =>
    unfold replayCheck
    split_ifs with hparses
    · exact hsame rfl (by rw [Replay.records_of_current hcurrent]; rfl) rfl (.refl _) rfl rfl rfl
    · exact hdrops (.check r) hcurrent (.refl _) (.inr ⟨rfl, Bool.eq_false_iff.mpr hparses⟩)
  | @deliver snd d hub hcurrent hd =>
    have hgives := hd.gives
    cases d with
    | goes snd' =>
      refine hsame rfl ?_ rfl hgives.2 rfl rfl rfl
      rw [Replay.records_of_current hcurrent]
      exact congrArg (· :: s.replay.ahead) hgives.1
    | sent =>
      exact ⟨[], rfl, ⟨[snd.record], hleaves hcurrent, hgives⟩, fun _ => .inl, rfl,
        (append_nil _).symm, by simp, .inl ⟨rfl, rfl⟩⟩
    | saturated | closed => exact hdrops (.deliver snd) hcurrent hgives (.inl rfl)
    | failed => exact hsame rfl rfl rfl hgives rfl rfl rfl

theorem flow_worker {i : ℕ} {w w' : Worker M} {eff : Effect M} {row : Option (StreamRow M)}
    {input : Input} (hi : s.hub.workers[i]? = some w) (h : w.step env row input = some (w', eff)) :
    ∃ gone, Flow s ({ s with hub := s.hub.setWorker i w' }.apply w.name w.target.id eff) gone
      (eff.confirm.getD []) := by
  obtain ⟨gone, hperm, huntouched⟩ := Worker.step_records h
  have hworkers := Slots.perm_of_gives Worker.records hi hperm
  refine ⟨gone, perm_iff_count.mpr fun x => ?_, apply_settled .., apply_book ..,
    fun hs => huntouched (hs w (mem_of_getElem? hi))⟩
  have hcount := hworkers.count_eq x
  simp only [count_append, count_held, Hub.records, apply_requests,
    apply_replay, apply_lost, apply_hub, Hub.setWorker] at *
  omega

theorem step_flow {a : Action M} (h : s.step env a = some s') :
    (∃ gone entries, Flow s s' gone entries) ∨ (∃ plans, a = .append plans) ∨
      (∃ routes, a = .appendFails routes) ∨ (∃ g, a = .unlink g) ∨ a = .crash := by
  have hquiet {s' : State M} (hrequests : s'.requests = s.requests) (hreplay : s'.replay = s.replay)
      (hhub : s'.hub.records.Perm s.hub.records) (hlost : s'.lost = s.lost)
      (hsettled : s'.settled = s.settled) (hbook : s'.book = s.book) :
      ∃ gone entries, Flow s s' gone entries :=
    ⟨[], [], Flow.of_hub hrequests hreplay hhub hlost hsettled hbook⟩
  cases a with
  | createStream name mapping =>
    simp only [State.step] at h
    split at h
    · cases h
    · cases h
      exact .inl (hquiet rfl rfl (Perm.refl _) rfl rfl rfl)
  | deleteStream | putMapping | expire =>
    cases h
    exact .inl (hquiet rfl rfl (Perm.refl _) rfl rfl rfl)
  | append plans => exact .inr (.inl ⟨plans, rfl⟩)
  | appendFails routes | unlink g => grind
  | request j ok =>
    obtain ⟨r, hj, hstep⟩ := bind_eq_some_iff.mp h
    obtain ⟨r', entries, hmove⟩ := (State.serves_of_requestStep hstep).move
    exact .inl ⟨_, entries, hmove.flow hj⟩
  | replay ok =>
    obtain ⟨entries, hmove⟩ := (State.replays_of_replayStep h).2.move
    exact .inl ⟨_, entries, hmove.flow⟩
  | worker i input =>
    obtain ⟨w, hi, hstep⟩ := bind_eq_some_iff.mp h
    obtain ⟨⟨w', eff⟩, hworker, rfl⟩ := map_eq_some_iff.mp hstep
    obtain ⟨gone, hflow⟩ := flow_worker hi hworker
    exact .inl ⟨gone, _, hflow⟩
  | flushStream i =>
    obtain ⟨w, hi, hstep⟩ := bind_eq_some_iff.mp h
    split_ifs at hstep
    cases hstep
    refine .inl (hquiet rfl rfl (Slots.perm_of_keeps Worker.records hi ?_) rfl rfl rfl)
    grind [Worker.records, Msg.record?]
  | crash => exact .inr (.inr (.inr (.inr rfl)))

end Steps

/-! ## The book -/

/-- What holds of the book: a tracked segment has its file, and nobody is about to unlink it. -/
structure BookOk (b : Book) : Prop where
  tracked : ∀ g : ℕ, b.segments[g]? ≠ none → g ∈ b.files ∧ g ∉ b.pending
  files_le : ∀ g ∈ b.files, g ≤ b.current
  pending_le : ∀ g ∈ b.pending, g ≤ b.current

/-- What an append does to the book: `records` are stored, with new numbers, and their segments
count them. -/
structure Appended (b b' : Book) (records : List LogRecord) : Prop where
  stored : b'.stored = b.stored ++ records
  nextRid : b'.nextRid = b.nextRid + records.length
  rids : records.map (·.rid) = List.range' b.nextRid records.length
  ok : BookOk b → BookOk b'
  covers : BookOk b → ∀ A, Covers b.segments A →
    Covers b'.segments (A ++ records.map (·.pos.segment))

namespace BookOk

variable {b : Book}

theorem untracked_next (h : BookOk b) : b.segments[b.current + 1]? = none := by
  by_contra hsome
  have := h.files_le _ (h.tracked _ hsome).1
  omega

theorem of_collect {segs : Segments} {files pending : List ℕ} {current : ℕ}
    (htracked : ∀ g : ℕ, segs[g]? ≠ none → g ∈ files ∧ g ∉ pending) (hfiles : ∀ g ∈ files, g ≤ current)
    (hpending : ∀ g ∈ pending, g ≤ current) (stored : List LogRecord) (nextRid : ℕ) :
    BookOk ⟨segs.collectConfirmed.2, current, files, pending ++ segs.collectConfirmed.1, stored,
      nextRid⟩ where
  tracked g hg := by
    grind [getElem?_of_mem_collectConfirmed, getElem?_collectConfirmed]
  files_le := hfiles
  pending_le g hg := by
    grind [mem_collectConfirmed]

theorem rotate (h : BookOk b) : BookOk b.rotate := by
  refine of_collect (fun g hg => ?_) (fun g hg => ?_) (fun g hg => ?_) _ _
  · rw [getElem?_track] at hg
    split_ifs at hg with hnew
    · refine ⟨by simp [hnew], fun hmem => ?_⟩
      have := h.pending_le g hmem
      omega
    · have hbefore : b.segments[g]? ≠ none := by
        grind [getElem?_sealSegment]
      obtain ⟨hfile, hnot⟩ := h.tracked g hbefore
      grind
  · rcases mem_append.mp hg with hg | hg
    · exact (h.files_le g hg).trans (Nat.le_succ _)
    · grind
  · exact (h.pending_le g hg).trans (Nat.le_succ _)

theorem confirm (h : BookOk b) (positions : List WalPos) : BookOk (b.confirm positions) := by
  refine of_collect (fun g hg => h.tracked g fun hnone => hg ?_) h.files_le h.pending_le _ _
  exact foldl_confirmOne_eq_none hnone

theorem unlink (h : BookOk b) {g : ℕ} (hg : g ∈ b.pending) : BookOk (b.unlink g) where
  tracked k hk := by
    obtain ⟨hfile, hnot⟩ := h.tracked k hk
    have hne : k ≠ g := by
      rintro rfl
      exact hnot hg
    exact ⟨(mem_erase_of_ne hne).mpr hfile, fun hmem => hnot (mem_of_mem_erase hmem)⟩
  files_le k hk := h.files_le k (mem_of_mem_erase hk)
  pending_le k hk := h.pending_le k (mem_of_mem_erase hk)

end BookOk

theorem covers_rotate {b : Book} (h : BookOk b) {A : List ℕ} (hcovers : Covers b.segments A) :
    Covers b.rotate.segments A := by
  refine ((hcovers.sealSegment b.current).track ?_).collectConfirmed
  rw [getElem?_sealSegment, if_neg (by omega)]
  exact h.untracked_next

namespace Appended

variable {b b' b'' : Book}

theorem refl (b : Book) : Appended b b [] where
  stored := (append_nil _).symm
  nextRid := rfl
  rids := rfl
  ok := id
  covers _ A hA := by simpa using hA

theorem trans {xs ys : List LogRecord} (h₁ : Appended b b' xs) (h₂ : Appended b' b'' ys) :
    Appended b b'' (xs ++ ys) where
  stored := by rw [h₂.stored, h₁.stored, append_assoc]
  nextRid := by rw [h₂.nextRid, h₁.nextRid, length_append, Nat.add_assoc]
  rids := by
    rw [map_append, h₁.rids, h₂.rids, h₁.nextRid, length_append, range'_append_1]
  ok h := h₂.ok (h₁.ok h)
  covers h A hA := by
    rw [map_append, ← append_assoc]
    exact h₂.covers (h₁.ok h) _ (h₁.covers h A hA)

theorem bump {segments : Segments} (hbump : b.segments.bump b.current = some segments) (item : WalItem) :
    Appended b { b with
      segments, stored := b.stored ++ [⟨b.nextRid, item, ⟨b.current⟩⟩], nextRid := b.nextRid + 1 }
      [⟨b.nextRid, item, ⟨b.current⟩⟩] where
  stored := rfl
  nextRid := rfl
  rids := rfl
  ok h := by
    refine ⟨fun g hg => h.tracked g fun hnone => hg ?_, h.files_le, h.pending_le⟩
    grind [bump_eq_some]
  covers _ A hA := (hA.bump hbump).of_subperm (perm_append_singleton ..).subperm

theorem rotate (b : Book) : Appended b b.rotate [] where
  stored := (append_nil _).symm
  nextRid := rfl
  rids := rfl
  ok := BookOk.rotate
  covers h A hA := by
    grind [covers_rotate]

theorem of_append {full : Bool} {item : WalItem} {r : LogRecord} (h : b.append full item = some (r, b')) :
    Appended b b' [r] := by
  have hpre : Appended b (if full then b.rotate else b) [] := by
    grind [refl, rotate]
  unfold append at h
  simp only at h
  split at h
  · cases h
  · next segments hbump =>
      cases h
      exact hpre.trans (bump hbump item)

theorem of_appendRoutes {news : List NewRoute} {routes : List Route}
    (h : b.appendRoutes news = some (routes, b')) : Appended b b' (routes.map (·.record)) := by
  induction news generalizing b routes with
  | nil =>
    cases h
    exact refl _
  | cons new news ih =>
    obtain ⟨⟨r, b₁⟩, hfirst, hrest⟩ := bind_eq_some_iff.mp h
    obtain ⟨⟨rest, b₂⟩, htail, heq⟩ := map_eq_some_iff.mp hrest
    cases heq
    exact (of_append hfirst).trans (ih htail)

theorem of_appendPlans {news : List (List NewRoute)} {plans : List (List Route)}
    (h : b.appendPlans news = some (plans, b')) : Appended b b' (plans.flatten.map (·.record)) := by
  induction news generalizing b plans with
  | nil =>
    cases h
    exact refl _
  | cons new news ih =>
    obtain ⟨⟨routes, b₁⟩, hfirst, hrest⟩ := bind_eq_some_iff.mp h
    obtain ⟨⟨rest, b₂⟩, htail, heq⟩ := map_eq_some_iff.mp hrest
    cases heq
    rw [flatten_cons, map_append]
    exact (of_appendRoutes hfirst).trans (ih htail)

end Appended

/-! ## A restart -/

theorem Book.getElem?_countFiles (records : List LogRecord) (files : List ℕ) (g : ℕ) :
    (countFiles records files)[g]?
      = if g ∈ files then some ⟨countIn records g, true⟩ else none := by
  have hfold (files : List ℕ) (segs : Segments) :
      (files.foldl (fun (segs : Segments) g => segs.insert g ⟨countIn records g, true⟩) segs)[g]?
        = if g ∈ files then some ⟨countIn records g, true⟩ else segs[g]? := by
    induction files generalizing segs with
    | nil => simp
    | cons k files ih =>
      grind
  rw [countFiles, hfold]
  simp

theorem Book.lt_nextSegment {files : List ℕ} {g : ℕ} (h : g ∈ files) : g < nextSegment files := by
  unfold nextSegment
  split
  · next m hm => exact Nat.lt_succ_of_le ((max?_eq_some_iff.mp hm).2 g h)
  · grind

theorem BookOk.restart (b : Book) : BookOk b.restart where
  tracked g hg := by
    have hmem : g ∈ b.files ++ [nextSegment b.files] := by
      change ((countFiles b.surviving b.files).track _)[g]? ≠ none at hg
      grind [getElem?_track, getElem?_countFiles]
    exact ⟨hmem, not_mem_nil⟩
  files_le g hg := by
    rcases mem_append.mp hg with hg | hg
    · exact (lt_nextSegment hg).le
    · rw [mem_singleton] at hg
      exact hg.le
  pending_le g hg := absurd hg not_mem_nil

theorem covers_restart (b : Book) : Covers b.restart.segments (b.surviving.map (·.pos.segment)) := by
  intro g hg
  obtain ⟨r, hr, rfl⟩ := mem_map.mp hg
  have hfile : r.pos.segment ∈ b.files := by simpa using (mem_filter.mp hr).2
  have hne : nextSegment b.files ≠ r.pos.segment := (lt_nextSegment hfile).ne'
  refine ⟨⟨countIn b.surviving r.pos.segment, true⟩, ?_, ?_⟩
  · change ((countFiles b.surviving b.files).track _)[r.pos.segment]? = _
    rw [getElem?_track, if_neg hne, getElem?_countFiles, if_pos hfile]
  · rw [count, countP_map]
    exact le_rfl

/-! ## Every record is accounted for -/

structure Numbered (b : Book) : Prop where
  nodup : (b.stored.map (·.rid)).Nodup
  lt : ∀ r ∈ b.stored, r.rid < b.nextRid

namespace Numbered

variable {b b' : Book}

variable {records : List LogRecord}

theorem new (h : Appended b b' records) :
    ∀ r ∈ records, b.nextRid ≤ r.rid ∧ r.rid < b.nextRid + records.length := by
  intro r hr
  have hmem : r.rid ∈ records.map (·.rid) := mem_map_of_mem hr
  rwa [h.rids, mem_range'_1] at hmem

theorem append (h : Numbered b) (hb : Appended b b' records) : Numbered b' := by
  constructor
  · rw [hb.stored, map_append, hb.rids]
    refine Nodup.append h.nodup (nodup_range' ..) fun rid hrid hnew => ?_
    obtain ⟨r, hr, rfl⟩ := mem_map.mp hrid
    have := h.lt r hr
    rw [mem_range'_1] at hnew
    omega
  · intro r hr
    rw [hb.stored] at hr
    rw [hb.nextRid]
    rcases mem_append.mp hr with hr | hr
    · exact (h.lt r hr).trans_le (Nat.le_add_right ..)
    · exact (new hb r hr).2

theorem restart (h : Numbered b) : Numbered b.restart :=
  ⟨h.nodup.sublist (filter_sublist.map _), fun r hr => h.lt r (mem_of_mem_filter hr)⟩

theorem empty : Numbered .empty :=
  ⟨nodup_nil, fun _ hr => absurd hr not_mem_nil⟩

end Numbered

section Held

variable {env : Env M} {s s' : State M}

theorem State.held_append (s : State M) (b : Book) (new : List (List Route)) :
    ({ s with book := b, requests := s.requests ++ [{ plans := new }] } : State M).held.Perm
      (s.held ++ new.flatten.map fun route => route.record) := by
  refine perm_iff_count.mpr fun x => ?_
  simp only [count_held, count_append, flatMap_append, flatMap_singleton]
  grind [Request.records]

theorem State.held_appendFails (s : State M) (b : Book) (new : List Route) :
    ({ s with book := b, lost := s.lost ++ new.map fun route => route.record } : State M).held.Perm
      (s.held ++ new.map fun route => route.record) := by
  grind [count_held]

theorem State.held_restart (s : State M) : s.restart.held = s.book.surviving := by
  simp [held, restart, Replay.records, Hub.records]

structure Housed (s : State M) : Prop where
  numbered : Numbered s.book
  held : s.held.Subperm s.book.stored

namespace Housed

theorem nodup (h : Housed s) : (s.held.map (·.rid)).Nodup := by
  obtain ⟨l, hperm, hsub⟩ := h.held
  exact (hperm.map _).nodup_iff.mp (h.numbered.nodup.sublist (hsub.map _))

variable {r x : LogRecord}

theorem request_ne (h : Housed s) {req : Request M} (hreq : req ∈ s.requests) (hr : r ∈ req.records)
    (hx : x ∈ s.replay.records ∨ x ∈ s.hub.records) : x.rid ≠ r.rid := by
  have hnodup := h.nodup
  rw [State.held, map_append, nodup_append] at hnodup
  refine (hnodup.2.2 _ (mem_map_of_mem (mem_flatMap.mpr ⟨req, hreq, hr⟩)) _ (mem_map_of_mem ?_)).symm
  grind

theorem replay_ne_hub (h : Housed s) (hr : r ∈ s.replay.records) (hx : x ∈ s.hub.records) :
    x.rid ≠ r.rid := by
  have hnodup := h.nodup
  rw [State.held, map_append, nodup_append, map_append, nodup_append] at hnodup
  exact (hnodup.2.1.2.2 _ (mem_map_of_mem hr) _ (mem_map_of_mem (mem_append_left _ hx))).symm

theorem lt (h : Housed s) : ∀ r ∈ s.held, r.rid < s.book.nextRid :=
  fun r hr => h.numbered.lt r (h.held.subset hr)

theorem of_held (h : Housed s) (hheld : s'.held.Subperm s.held)
    (hstored : s'.book.stored = s.book.stored) (hnext : s'.book.nextRid = s.book.nextRid) :
    Housed s' where
  numbered := ⟨by rw [hstored]; exact h.numbered.nodup, by rw [hstored, hnext]; exact h.numbered.lt⟩
  held := by
    rw [hstored]
    exact hheld.trans h.held

theorem append (h : Housed s) {records : List LogRecord} (hb : Appended s.book s'.book records)
    (hheld : s'.held.Perm (s.held ++ records)) : Housed s' where
  numbered := h.numbered.append hb
  held := by
    rw [hb.stored]
    exact hheld.subperm.trans ((subperm_append_right records).mpr h.held)

theorem restart (h : Housed s) : Housed s.restart where
  numbered := h.numbered.restart
  held := by
    rw [held_restart]
    exact Subperm.refl _

theorem init : Housed (init : State M) where
  numbered := .empty
  held := nil_subperm

theorem step (h : Housed s) {a : Action M} (hstep : s.step env a = some s') : Housed s' := by
  obtain ⟨gone, entries, hflow⟩ | ⟨plans, rfl⟩ | ⟨routes, rfl⟩ | ⟨g, rfl⟩ | rfl := step_flow hstep
  · have hheld : s'.held.Subperm s.held :=
      (sublist_append_left s'.held gone).subperm.trans hflow.held.symm.subperm
    rcases hflow.book with ⟨-, hbook⟩ | hbook
    · exact h.of_held hheld (by rw [hbook]) (by rw [hbook])
    · exact h.of_held hheld (by rw [hbook]; rfl) (by rw [hbook]; rfl)
  · obtain ⟨⟨new, b⟩, hb, rfl⟩ := map_eq_some_iff.mp hstep
    exact h.append (Appended.of_appendPlans hb) (s.held_append b new)
  · obtain ⟨⟨new, b⟩, hb, rfl⟩ := map_eq_some_iff.mp hstep
    exact h.append (Appended.of_appendRoutes hb) (s.held_appendFails b new)
  · simp only [State.step] at hstep
    split_ifs at hstep
    cases hstep
    exact h.of_held (Subperm.refl _) rfl rfl
  · cases hstep
    exact h.restart

end Housed

end Held

/-- **Every record is in one place.**  The records stored are those confirmed and those somebody has,
each once, and the segments' counts are enough for the latter. -/
structure Balanced (s : State M) : Prop where
  numbered : Numbered s.book
  balance : (s.settled.map Prod.fst ++ s.held).Perm s.book.stored
  covers : Covers s.book.segments (s.held.map (·.pos.segment))
  book : BookOk s.book
  untouched : s.Untouched

namespace Balanced

variable {env : Env M} {s s' : State M}

theorem flow (h : Balanced s) {gone : List LogRecord} {entries : List (LogRecord × Fate M)}
    (hflow : Flow s s' gone entries) (huntouched : s'.Untouched) : Balanced s' := by
  have hgone := hflow.gone h.untouched
  have hheld : s.held.Perm (entries.map Prod.fst ++ s'.held) :=
    hflow.held.trans (perm_append_comm.trans (hgone.append_right _))
  have hbalance : (s'.settled.map Prod.fst ++ s'.held).Perm s.book.stored := by
    rw [hflow.settled, map_append, append_assoc]
    grind [balance]
  have hcovers : Covers s.book.segments
      ((entries.map (·.1.pos)).map WalPos.segment ++ s'.held.map (·.pos.segment)) := by
    refine h.covers.of_subperm ?_
    have hmap := hheld.map (·.pos.segment)
    rw [map_append, List.map_map] at hmap
    rw [List.map_map]
    exact hmap.symm.subperm
  rcases hflow.book with ⟨rfl, hbook⟩ | hbook
  · exact ⟨hbook ▸ h.numbered, hbook ▸ hbalance, hbook ▸ hcovers, hbook ▸ h.book, huntouched⟩
  · refine ⟨?_, ?_, ?_, ?_, huntouched⟩ <;> rw [hbook]
    · exact ⟨h.numbered.nodup, h.numbered.lt⟩
    · exact hbalance
    · exact hcovers.confirm.1
    · exact h.book.confirm _

theorem append (h : Balanced s) {b' : Book} {records : List LogRecord} (hb : Appended s.book b' records)
    (hbook : s'.book = b') (hheld : s'.held.Perm (s.held ++ records))
    (hsettled : s'.settled = s.settled) (huntouched : s'.Untouched) : Balanced s' := by
  subst hbook
  refine ⟨h.numbered.append hb, ?_, ?_, hb.ok h.book, huntouched⟩
  · rw [hsettled, hb.stored]
    refine (hheld.append_left _).trans ?_
    rw [← append_assoc]
    exact h.balance.append_right records
  · have hmap := hheld.map (·.pos.segment)
    rw [map_append] at hmap
    exact (hb.covers h.book _ h.covers).of_subperm hmap.subperm

theorem restart (h : Balanced s) : Balanced s.restart := by
  have hheld := s.held_restart
  refine ⟨h.numbered.restart, ?_, ?_, BookOk.restart s.book, fun w hw => absurd hw not_mem_nil⟩
  · rw [hheld]
    exact Perm.refl _
  · rw [hheld]
    exact covers_restart s.book

theorem init : Balanced (init : State M) where
  numbered := .empty
  balance := Perm.refl _
  covers := Covers.nil _
  book := by
    refine ⟨fun g hg => ?_, fun g hg => (mem_singleton.mp hg).le, fun g hg => ?_⟩
    · grind [getElem?_track, init, empty]
    · exact absurd hg not_mem_nil
  untouched w hw := absurd hw not_mem_nil

end Balanced

/-! ## Confirmed once -/

/-- A lookup that finds the stream deleted comes before the flush has dropped anything. -/
def DeletedBeforeDrops (s : State M) : Action M → Prop
  | .worker i (.lookup true) =>
    ∀ w ∈ s.hub.workers[i]?, w.NothingDropped (s.hub.store.streams w.name)
  | _ => True

instance decidableDeletedBeforeDrops (s : State M) (a : Action M) :
    Decidable (DeletedBeforeDrops s a) := by
  unfold DeletedBeforeDrops
  split <;> infer_instance

theorem Balanced.step {env : Env M} {s s' : State M} {a : Action M} (h : Balanced s)
    (hcond : DeletedBeforeDrops s a) (hstep : s.step env a = some s') : Balanced s' := by
  have huntouched : s'.Untouched := by
    refine State.step_workers (p := Untouched) ?_ ?_ h.untouched ?_ hstep
    · grind [untouched_of_run]
    · exact fun w queue permits hw => hw
    · rintro i input w w' eff rfl hi hworker
      refine untouched_step (fun hinput => ?_) hworker
      subst hinput
      exact hcond w hi
  obtain ⟨gone, entries, hflow⟩ | ⟨plans, rfl⟩ | ⟨routes, rfl⟩ | ⟨g, rfl⟩ | rfl := step_flow hstep
  · exact h.flow hflow huntouched
  · obtain ⟨⟨new, b⟩, hb, rfl⟩ := map_eq_some_iff.mp hstep
    exact h.append (Appended.of_appendPlans hb) rfl (s.held_append b new) rfl huntouched
  · obtain ⟨⟨new, b⟩, hb, rfl⟩ := map_eq_some_iff.mp hstep
    exact h.append (Appended.of_appendRoutes hb) rfl (s.held_appendFails b new) rfl huntouched
  · simp only [State.step] at hstep
    split_ifs at hstep with hg
    cases hstep
    exact ⟨⟨h.numbered.nodup, h.numbered.lt⟩, h.balance, h.covers, h.book.unlink hg, huntouched⟩
  · cases hstep
    exact h.restart

/-- Every record is confirmed at most once, and a file that is gone held only records that are
settled. -/
def ConfirmedOnce (s : State M) : Prop :=
  (s.settled.map (·.1.rid)).Nodup ∧
    ∀ r ∈ s.book.stored, r.pos.segment ∉ s.book.files → ∃ fate, (r, fate) ∈ s.settled

theorem Balanced.confirmedOnce {s : State M} (h : Balanced s) : ConfirmedOnce s := by
  constructor
  · have hnodup := (h.balance.map (·.rid)).nodup_iff.mpr h.numbered.nodup
    grind
  · intro r hr hgone
    rcases mem_append.mp (h.balance.mem_iff.mpr hr) with hsettled | hheld
    · grind
    · obtain ⟨state, hstate, -⟩ := h.covers _ (mem_map_of_mem hheld)
      exact absurd (h.book.tracked _ (by rw [hstate]; simp)).1 hgone

/-- **Every record is confirmed at most once**, and a segment file is unlinked only when all its
records are settled, in every run in which no lookup finds a stream deleted after the same flush has
dropped something. -/
theorem confirmed_once {env : Env M} {as : List (Action M)} {s : State M}
    (hrun : Runs.run (State.step env) State.init as = some s)
    (hcond : Runs.Along (State.step env) DeletedBeforeDrops State.init as) : ConfirmedOnce s :=
  (Runs.run_invariant (State.step env) (fun _ _ _ hs hc hstep => hs.step hc hstep) Balanced.init hcond
    hrun).confirmedOnce

/-! ## One stream, deleted and re-created -/

/-- A document is published at the second attempt, and another waits in the channel when the process
crashes.  Replay hands both over again, the stream is deleted, and the flush that finds it so confirms
both; a third document keeps its segment. -/
def deletedAfterReplay : List (Action Unit) :=
  [.createStream "s" (), appendDoc false "a"] ++ serve 0 9 ++ [.worker 0 .recv, .worker 0 .timeout,
    .worker 0 (.lookup true), .worker 0 .tick, .worker 0 (.build .failed)] ++
    [.worker 0 (.lookup true), .worker 0 .tick, .worker 0 (.build .ok), .worker 0 .tick,
      appendDoc false "b"] ++ serve 1 6 ++ [.crash] ++ replays 15 ++
    [.worker 0 .recv, .worker 0 .recv, appendDoc false "c", .deleteStream "s", .worker 0 .timeout,
      .worker 0 (.lookup true), .worker 0 .tick, .unlink 0]

theorem confirmed_once_deletedAfterReplay :
    ∃ s, Runs.run (State.step plain) State.init deletedAfterReplay = some s ∧ ConfirmedOnce s ∧
      s.book.files = [1] ∧ s.settled.map Prod.snd = [.deleted 0, .deleted 0] := by
  obtain ⟨s, hrun, hend⟩ : ∃ s, Runs.run (State.step plain) State.init deletedAfterReplay = some s ∧
      s.book.files = [1] ∧ s.settled.map Prod.snd = [.deleted 0, .deleted 0] := by
    decide +kernel
  exact ⟨s, hrun, confirmed_once hrun (by decide +kernel), hend⟩

/-- **A record is in one place.**  In every run, crashes and replays included, no record of the log is held
twice, whoever holds it. -/
theorem held_once {env : Env M} {as : List (Action M)} {s : State M}
    (hrun : Runs.run (State.step env) State.init as = some s) :
    (s.held.map (·.rid)).Nodup ∧ s.held ⊆ s.book.stored := by
  have h : Housed s := Runs.run_invariant_always _ (fun _ _ _ h hstep => h.step hstep) .init hrun
  exact ⟨h.nodup, h.held.subset⟩

/-- After the crash one document waits in the channel again, and replay has the other. -/
theorem held_once_afterCrash :
    ∃ s, Runs.run (State.step plain) State.init (deletedAfterReplay.take 38) = some s ∧
      s.held.length = 2 ∧ (s.held.map (·.rid)).Nodup := by
  obtain ⟨s, hrun, hheld⟩ : ∃ s, Runs.run (State.step plain) State.init (deletedAfterReplay.take 38)
      = some s ∧ s.held.length = 2 := by
    decide +kernel
  exact ⟨s, hrun, hheld, (held_once hrun).1⟩

/-- Documents `a` and `b` are in one buffer, accepted against the first and the second row of the
stream, and `c` waits in its request.  The flush drops `a` as stale, fails to publish `b`, and then
finds the stream deleted. -/
def deletedAfterDrop : List (Action Unit) :=
  [.createStream "s" (), appendDoc false "a"] ++ serve 0 9 ++
    [.deleteStream "s", .createStream "s" (), .expire "s", appendDoc false "b"] ++ serve 1 6 ++
    [appendDoc false "c", appendDoc true "d", .worker 0 .recv, .worker 0 .recv, .worker 0 .timeout,
      .worker 0 (.lookup true), .worker 0 .tick, .worker 0 (.build .failed), .deleteStream "s",
      .worker 0 (.lookup true), .worker 0 .tick, .unlink 0]

/-- **A stream deleted after a drop is confirmed twice.**  The flush counts `a` down twice, and the
file that holds `c` is unlinked while `c` is with its request. -/
theorem deleted_after_drop_confirms_twice :
    ¬ ∀ (as : List (Action Unit)) (s : State Unit),
      Runs.run (State.step plain) State.init as = some s → ConfirmedOnce s := by
  intro hclaim
  obtain ⟨s, hrun, r, hr, hgone, hunsettled⟩ :
      ∃ s, Runs.run (State.step plain) State.init deletedAfterDrop = some s ∧
        ∃ r ∈ s.book.stored, r.pos.segment ∉ s.book.files ∧ r ∉ s.settled.map Prod.fst := by
    decide +kernel
  obtain ⟨fate, hfate⟩ := (hclaim _ s hrun).2 r hr hgone
  grind

end RSearch.Pipeline
