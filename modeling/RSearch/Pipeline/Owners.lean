import RSearch.Pipeline.Items

/-!
# One row, one stream

A row belongs to one stream name for good, also after the stream was deleted.  The metastore keeps only
live rows, so the owner of a row is history: an `owner` function that agrees with every row in sight,
and that a new row extends.
-/

namespace RSearch.Pipeline

open List Option Wal Function Metastore State

variable {M : Type}

structure Metastore.Owns (owner : ℕ → String) (store : Metastore M) (id : ℕ) (name : String) : Prop where
  created : id < store.nextId
  name : owner id = name

/-- The rows that were created keep their owners, and the live ones are their names'. -/
structure Metastore.Extends (owner : ℕ → String) (store : Metastore M) (owner' : ℕ → String)
    (store' : Metastore M) : Prop where
  keeps : ∀ id name, store.Owns owner id name → store'.Owns owner' id name
  live : (∀ name id, store.Live name id → store.Owns owner id name) →
    ∀ name id, store'.Live name id → store'.Owns owner' id name
  published : store'.published = store.published

namespace Metastore.Extends

variable {owner : ℕ → String} {store store' : Metastore M}

theorem of_noneRevived (h : store.NoneRevived store') (hnext : store'.nextId = store.nextId)
    (hpublished : store'.published = store.published) : Extends owner store owner store' where
  keeps _ _ howns := ⟨hnext ▸ howns.created, howns.name⟩
  live hlive name id hid :=
    have howns := hlive name id (h name id hid)
    ⟨hnext ▸ howns.created, howns.name⟩
  published := hpublished

theorem refl (owner : ℕ → String) (store : Metastore M) : Extends owner store owner store :=
  of_noneRevived (fun _ _ h => h) rfl rfl

theorem create (owner : ℕ → String) (store : Metastore M) (name : String) (mapping : M) :
    Extends owner store (Function.update owner store.nextId name) (store.create name mapping) := by
  have hkeeps (id : ℕ) (name' : String) (howns : store.Owns owner id name') :
      (store.create name mapping).Owns (Function.update owner store.nextId name) id name' := by
    refine ⟨howns.created.trans (Nat.lt_succ_self _), ?_⟩
    rw [update_of_ne howns.created.ne, howns.name]
  refine ⟨hkeeps, fun hlive name' id hid => ?_, rfl⟩
  simp only [Metastore.Live, Metastore.create] at hid
  by_cases hname : name' = name
  · subst hname
    rw [update_self] at hid
    cases hid
    exact ⟨Nat.lt_succ_self _, update_self ..⟩
  · rw [update_of_ne hname] at hid
    exact hkeeps id name' (hlive name' id hid)

theorem ensureStream (env : Env M) (owner : ℕ → String) (store : Metastore M) (name : String)
    (hlive : ∀ name id, store.Live name id → store.Owns owner id name) :
    ∃ owner', Extends owner store owner' (store.ensureStream env name).2 ∧
      (store.ensureStream env name).2.Owns owner' (store.ensureStream env name).1.id name := by
  unfold Metastore.ensureStream
  cases hrow : store.streams name with
  | some row =>
    refine ⟨owner, refl owner store, hlive name row.id ?_⟩
    rw [Metastore.Live, hrow]
    rfl
  | none =>
    refine ⟨_, create owner store name env.newMapping, Nat.lt_succ_self _, ?_⟩
    exact update_self ..

theorem streamInfo (env : Env M) (owner : ℕ → String) (hub : Hub M) (name : String) (ok : Bool)
    (hlive : ∀ name id, hub.store.Live name id → hub.store.Owns owner id name) :
    ∃ owner', Extends owner hub.store owner' (hub.streamInfo env name ok).2.store := by
  unfold Hub.streamInfo
  split
  · exact ⟨owner, refl owner hub.store⟩
  · split_ifs
    · obtain ⟨owner', hextends, -⟩ := ensureStream env owner hub.store name hlive
      exact ⟨owner', hextends⟩
    · exact ⟨owner, refl owner hub.store⟩

end Metastore.Extends

/-! ## The owner function of a state -/

def Sender.SpawnsOwned (owner : ℕ → String) (store : Metastore M) (snd : Sender M) : Prop :=
  match snd.stage with
  | .spawn _ row => store.Owns owner row.id snd.record.item.stream
  | _ => True

structure Owned (owner : ℕ → String) (s : State M) : Prop where
  live : ∀ name id, s.hub.store.Live name id → s.hub.store.Owns owner id name
  workers : ∀ w ∈ s.hub.workers, s.hub.store.Owns owner w.target.id w.name
  requests : ∀ req ∈ s.requests, ∀ snd ∈ req.sender?, snd.SpawnsOwned owner s.hub.store
  replay : ∀ snd ∈ s.replay.sender?, snd.SpawnsOwned owner s.hub.store
  published : ∀ e ∈ s.hub.store.published, s.hub.store.Owns owner e.1 e.2.item.stream

theorem Sender.SpawnsOwned.mono {owner owner' : ℕ → String} {store store' : Metastore M}
    {snd : Sender M} (h : snd.SpawnsOwned owner store)
    (hkeeps : ∀ id name, store.Owns owner id name → store'.Owns owner' id name) :
    snd.SpawnsOwned owner' store' := by
  grind [SpawnsOwned]

section Senders

variable {env : Env M} {blocking ok : Bool} {hub hub' : Hub M} {snd : Sender M} {d : Delivery M}

structure DeliversOwned (owner : ℕ → String) (hub : Hub M) (d : Delivery M) (owner' : ℕ → String)
    (hub' : Hub M) : Prop where
  extends_ : Metastore.Extends owner hub.store owner' hub'.store
  workers : ∀ w ∈ hub'.workers, hub'.store.Owns owner' w.target.id w.name
  goes : ∀ snd', d = .goes snd' → snd'.SpawnsOwned owner' hub'.store

theorem Hub.Delivers.owned {owner : ℕ → String} (h : Delivers env blocking ok hub snd d hub')
    (hlive : ∀ name id, hub.store.Live name id → hub.store.Owns owner id name)
    (hworkers : ∀ w ∈ hub.workers, hub.store.Owns owner w.target.id w.name)
    (hsnd : snd.SpawnsOwned owner hub.store) : ∃ owner', DeliversOwned owner hub d owner' hub' := by
  have hset {i : ℕ} {w : Worker M} (hw : hub.workers[i]? = some w) (queue : List Msg) (permits : ℕ) :
      ∀ v ∈ (hub.setWorker i { w with queue, permits }).workers,
        hub.store.Owns owner v.target.id v.name := by
    intro v hv
    rcases mem_or_eq_of_mem_set hv with hv | rfl
    · exact hworkers v hv
    · grind
  have hinfo := hub.streamInfo_workers env snd.record.item.stream ok
  obtain ⟨owner', hextends⟩ :=
    Extends.streamInfo env owner hub snd.record.item.stream ok hlive
  cases h with
  | info _ heq | infoFails _ heq =>
    rw [heq] at hinfo hextends
    refine ⟨owner', hextends, fun w hw => ?_, fun snd' hgoes => ?_⟩
    · exact hextends.keeps _ _ (hworkers w (hinfo ▸ hw))
    · cases hgoes
      try trivial
  | resolves =>
    obtain ⟨owner', hextends, howns⟩ :=
      Extends.ensureStream env owner hub.store snd.record.item.stream hlive
    refine ⟨owner', hextends, fun w hw => hextends.keeps _ _ (hworkers w hw), fun snd' hgoes => ?_⟩
    cases hgoes
    exact howns
  | spawns hstage =>
    refine ⟨owner, .refl owner hub.store, fun w hw => ?_, fun snd' hgoes => ?_⟩
    · rcases mem_append.mp hw with hw | hw
      · exact hworkers w hw
      · rw [mem_singleton.mp hw]
        simp only [Sender.SpawnsOwned, hstage] at hsnd
        exact hsnd
    · cases hgoes
      trivial
  | reserves _ hw | fills _ hw =>
    refine ⟨owner, .refl owner hub.store, hset hw _ _, fun snd' hgoes => ?_⟩
    cases hgoes
    try trivial
  | found | missing | locks | resolveFails | closed | retries | saturated =>
    refine ⟨owner, .refl owner hub.store, hworkers, fun snd' hgoes => ?_⟩
    cases hgoes
    try trivial

end Senders

variable {env : Env M}

theorem Worker.step_target {row : Option (StreamRow M)} {w w' : Worker M} {input : Input}
    {eff : Effect M} (h : w.step env row input = some (w', eff)) :
    w'.target = w.target ∨ row = some w'.target := by
  have hend (w : Worker M) (last : Bool) : (w.endFlush last).target = w.target := rfl
  have hdrain (w : Worker M) (msg : Msg) : (w.drain msg).target = w.target := by cases msg <;> rfl
  obtain ⟨msg, queue, -, -, hmove⟩ | ⟨-, -, rfl, -⟩ | ⟨-, rfl, -⟩ | ⟨-, -, -, rfl, -⟩ | ⟨hstart, -⟩ |
    ⟨f, last, -, hflush⟩ := step_cases h
  · refine Or.inl ?_
    rcases hmove with ⟨-, rfl⟩ | ⟨-, rfl⟩
    · rcases receive_eq env { w with queue } msg with heq | heq
      · rw [heq, hdrain]
      · rw [heq]
        exact hdrain _ msg
    · exact hdrain _ msg
  · exact .inl rfl
  · exact .inl rfl
  · exact .inl rfl
  · rcases hstart with ⟨-, rfl⟩ | ⟨-, -, rfl⟩ <;> exact .inl rfl
  · obtain ⟨-, answers, -, heq⟩ | ⟨-, heq⟩ | ⟨-, heq⟩ | ⟨-, outcome, -, heq⟩ | ⟨mapping, -, heq⟩ :=
      flushStep_cases hflush
    · cases answers with
      | false =>
        cases heq
        exact .inl rfl
      | true =>
        cases row with
        | none =>
          cases heq
          exact .inl rfl
        | some row =>
          cases heq
          exact .inr rfl
    · cases heq
      exact .inl rfl
    · grind [sift]
    · cases outcome with
      | ok =>
        simp only [build] at heq
        split_ifs at heq <;> cases heq <;> exact .inl rfl
      | failed | committed | aborted =>
        cases heq
        exact .inl rfl
    · cases heq
      exact .inl rfl

theorem WorkerOk.stream_of_holds {current : Prop} {store : Metastore M} {w : Worker M}
    (h : WorkerOk env current store w) {x : WorkItem} (hx : w.Holds x) :
    x.record.item.stream = w.name := by
  rcases hx with hx | hx | hx
  · exact (h.queue x hx).stream
  · exact (h.buffer x hx).stream
  · unfold Run.owned at hx
    split at hx
    · next f last hrun => exact ((h.flush f last hrun).owned x hx).stream
    · cases hx

namespace Owned

variable {env : Env M} {s s' : State M} {owner owner' : ℕ → String}

theorem move (h : Owned owner s) (hextends : Extends owner s.hub.store owner' s'.hub.store)
    (hworkers : ∀ w ∈ s'.hub.workers, w ∈ s.hub.workers ∨
      s'.hub.store.Owns owner' w.target.id w.name) (hrequests : ∀ req ∈ s'.requests, req ∈ s.requests ∨
      ∀ snd ∈ req.sender?, snd.SpawnsOwned owner' s'.hub.store)
    (hreplay : ∀ snd ∈ s'.replay.sender?, snd ∈ s.replay.sender? ∨
      snd.SpawnsOwned owner' s'.hub.store) : Owned owner' s' where
  live := hextends.live h.live
  workers w hw := by
    rcases hworkers w hw with hw | hw
    · exact hextends.keeps _ _ (h.workers w hw)
    · exact hw
  requests req hreq snd hsnd := by
    rcases hrequests req hreq with hreq | hreq
    · exact (h.requests req hreq snd hsnd).mono hextends.keeps
    · exact hreq snd hsnd
  replay snd hsnd := by
    rcases hreplay snd hsnd with hsnd | hsnd
    · exact (h.replay snd hsnd).mono hextends.keeps
    · exact hsnd
  published e he := hextends.keeps _ _ (h.published e (hextends.published ▸ he))

theorem setStore (h : Owned owner s) {store : Metastore M} {cache : String → Option ℕ}
    (hextends : Extends owner s.hub.store owner' store) :
    Owned owner' { s with hub := { s.hub with store, cache } } :=
  h.move hextends (fun _ => Or.inl) (fun _ => Or.inl) fun _ => Or.inl

variable {r : Request M}

theorem setRequest (h : Owned owner s) {j : ℕ} (hextends : Extends owner s.hub.store owner' s'.hub.store)
    (hworkers : ∀ w ∈ s'.hub.workers, w ∈ s.hub.workers ∨
      s'.hub.store.Owns owner' w.target.id w.name) (hrequests : s'.requests = s.requests.set j r)
    (hreplay : s'.replay = s.replay) (hsnd : ∀ snd ∈ r.sender?, snd.SpawnsOwned owner' s'.hub.store) :
    Owned owner' s' := by
  refine h.move hextends hworkers (fun req hreq => ?_) fun snd hsnd => .inl (hreplay ▸ hsnd)
  grind

theorem serves (h : Owned owner s) {j : ℕ} (hj : s.requests[j]? = some r)
    (hserves : Serves env s j r s') : ∃ owner', Owned owner' s' := by
  have hquiet {s' : State M} {r' : Request M} (hextends : Extends owner s.hub.store owner s'.hub.store)
      (hworkers : s'.hub.workers = s.hub.workers) (hrequests : s'.requests = s.requests.set j r')
      (hreplay : s'.replay = s.replay)
      (hsnd : ∀ snd ∈ r'.sender?, snd.SpawnsOwned owner s'.hub.store) : ∃ owner', Owned owner' s' :=
    ⟨owner, h.setRequest hextends (fun w hw => .inl (hworkers ▸ hw)) hrequests hreplay hsnd⟩
  have hrefl := Extends.refl owner s.hub.store
  cases hserves with
  | plan | answer => exact hquiet hrefl rfl rfl rfl fun snd hsnd => by cases hsnd
  | issue =>
    have hissued : Extends owner s.hub.store owner (s.issue r.tombs).hub.store :=
      .of_noneRevived (fun _ _ h => h) rfl rfl
    refine hquiet hissued rfl rfl rfl fun snd hsnd => ?_
    exact (h.requests r (mem_of_getElem? hj) snd hsnd).mono hissued.keeps
  | route =>
    refine hquiet hrefl rfl rfl rfl fun snd hsnd => ?_
    cases hsnd
    trivial
  | @deliver work snd infoId ok d hub hwork hsender hd =>
    have hsnd : snd ∈ r.sender? := by simp [Request.sender?, hwork, hsender]
    obtain ⟨owner', hdelivers⟩ :=
      hd.owned h.live h.workers (h.requests r (mem_of_getElem? hj) snd hsnd)
    have hsent (r' : Request M) (s' : State M) (hhub : s'.hub = hub)
        (hrequests : s'.requests = s.requests.set j r') (hreplay : s'.replay = s.replay)
        (hnext : ∀ snd ∈ r'.sender?, snd.SpawnsOwned owner' hub.store) :
        ∃ owner', Owned owner' s' := by
      refine ⟨owner', h.setRequest (hhub ▸ hdelivers.extends_) (fun w hw => Or.inr ?_) hrequests
        hreplay (hhub ▸ hnext)⟩
      rw [hhub] at hw ⊢
      exact hdelivers.workers w hw
    cases d with
    | goes snd' =>
      refine hsent _ _ rfl rfl rfl fun snd hsnd => ?_
      cases hsnd
      exact hdelivers.goes snd' rfl
    | sent | saturated | closed | failed => exact hsent _ _ rfl rfl rfl fun snd hsnd => by cases hsnd

theorem replays (h : Owned owner s) {ok : Bool} (hreplays : Replays env ok s s') :
    ∃ owner', Owned owner' s' := by
  have hquiet {s' : State M} (owner' : ℕ → String) (hextends : Extends owner s.hub.store owner' s'.hub.store)
      (hworkers : s'.hub.workers = s.hub.workers) (hrequests : s'.requests = s.requests)
      (hsnd : ∀ snd ∈ s'.replay.sender?, snd ∈ s.replay.sender? ∨
        snd.SpawnsOwned owner' s'.hub.store) : ∃ owner', Owned owner' s' :=
    ⟨owner', h.move hextends (fun w hw => .inl (hworkers ▸ hw))
      (fun req hreq => .inl (hrequests ▸ hreq)) hsnd⟩
  have hrefl := Extends.refl owner s.hub.store
  have hissued : Extends owner s.hub.store owner (s.issue s.replay.tombs).hub.store :=
    .of_noneRevived (fun _ _ h => h) rfl rfl
  cases hreplays with
  | stops => exact hquiet owner hrefl rfl rfl fun _ => Or.inl
  | yields =>
    refine hquiet owner hrefl rfl rfl fun snd hsnd => ?_
    grind [setReplay, Replay.sender?]
  | issues => exact hquiet owner hissued rfl rfl fun _ => Or.inl
  | @tomb r =>
    have hworkers := s.hub.streamInfo_workers env r.item.stream ok
    obtain ⟨owner', hextends⟩ :=
      Extends.streamInfo env owner s.hub r.item.stream ok h.live
    unfold replayTomb
    rcases hinfo : s.hub.streamInfo env r.item.stream ok with ⟨_ | id, hub⟩
    all_goals rw [hinfo] at hworkers hextends
    · exact hquiet owner' hextends hworkers rfl fun _ => Or.inl
    · refine hquiet owner' hextends hworkers rfl fun snd hsnd => ?_
      grind [setReplay, Replay.sender?]
  | upsert =>
    unfold replayUpsert
    split_ifs
    · exact hquiet owner hissued rfl rfl fun snd hsnd => by cases hsnd
    · exact hquiet owner hrefl rfl rfl fun _ => Or.inl
  | check =>
    unfold replayCheck
    split_ifs
    · refine hquiet owner hrefl rfl rfl fun snd hsnd => ?_
      cases hsnd
      exact .inr trivial
    · exact hquiet owner hrefl rfl rfl fun snd hsnd => by cases hsnd
  | @deliver snd d hub hcurrent hd =>
    have hsnd : snd ∈ s.replay.sender? := by
      rw [Replay.sender?, hcurrent]
      rfl
    obtain ⟨owner', hdelivers⟩ := hd.owned h.live h.workers (h.replay snd hsnd)
    have hsent (s' : State M) (hhub : s'.hub = hub) (hrequests : s'.requests = s.requests)
        (hnext : ∀ snd ∈ s'.replay.sender?, snd ∈ s.replay.sender? ∨
          snd.SpawnsOwned owner' hub.store) : ∃ owner', Owned owner' s' := by
      refine ⟨owner', h.move (hhub ▸ hdelivers.extends_) (fun w hw => Or.inr ?_)
        (fun req hreq => .inl (hrequests ▸ hreq)) (hhub ▸ hnext)⟩
      rw [hhub] at hw ⊢
      exact hdelivers.workers w hw
    cases d with
    | goes snd' =>
      refine hsent _ rfl rfl fun snd hsnd => Or.inr ?_
      cases hsnd
      exact hdelivers.goes snd' rfl
    | failed => exact hsent _ rfl rfl fun _ => Or.inl
    | sent | saturated | closed => exact hsent _ rfl rfl fun snd hsnd => by cases hsnd

theorem workerStep (h : Owned owner s) (hrows : RowsInv env False s)
    (hmatched : ∀ w ∈ s.hub.workers, w.Matched) {i : ℕ} {input : Input} {w w' : Worker M}
    {eff : Effect M} (hi : s.hub.workers[i]? = some w)
    (hstep : w.step env (s.hub.store.streams w.name) input = some (w', eff)) :
    Owned owner ({ s with hub := s.hub.setWorker i w' }.apply w.name w.target.id eff) := by
  have hmem := mem_of_getElem? hi
  have hpasses := Worker.step_passes (hmatched w hmem) hstep
  have hkeeps (id : ℕ) (name : String) (howns : s.hub.store.Owns owner id name) :
      ({ s with hub := s.hub.setWorker i w' }.apply w.name w.target.id eff).hub.store.Owns owner id
        name := by
    rw [apply_hub]
    exact ⟨howns.created, howns.name⟩
  refine ⟨fun name id hid => hkeeps _ _ (h.live name id ?_), fun v hv => hkeeps _ _ ?_,
    fun req hreq snd hsnd => ?_, fun snd hsnd => ?_, fun e he => hkeeps _ _ ?_⟩
  · rwa [apply_hub] at hid
  · rw [apply_hub] at hv
    rcases mem_or_eq_of_mem_set hv with hv | rfl
    · exact h.workers v hv
    · rw [hpasses.name]
      rcases Worker.step_target hstep with htarget | hrow
      · rw [htarget]
        exact h.workers w hmem
      · refine h.live w.name _ ?_
        rw [Live, hrow]
        rfl
  · rw [apply_requests] at hreq
    exact (h.requests req hreq snd hsnd).mono hkeeps
  · rw [apply_replay] at hsnd
    exact (h.replay snd hsnd).mono hkeeps
  · rw [apply_hub] at he
    rcases mem_append.mp he with he | he
    · exact h.published e he
    · obtain ⟨x, hx, rfl⟩ := List.mem_map.mp he
      obtain ⟨-, howned, -, -⟩ := hpasses.publish x hx
      have hitem := (hrows.hub.workers w hmem).stream_of_holds (.inr (.inr howned))
      rw [hitem]
      exact h.workers w hmem

theorem step (h : Owned owner s) (hrows : RowsInv env False s)
    (hmatched : ∀ w ∈ s.hub.workers, w.Matched) {a : Action M} (hstep : s.step env a = some s') :
    ∃ owner', Owned owner' s' := by
  cases a with
  | createStream name mapping =>
    simp only [State.step] at hstep
    split at hstep <;> cases hstep
    exact ⟨_, h.setStore (.create owner s.hub.store name mapping)⟩
  | deleteStream name =>
    cases hstep
    exact ⟨owner, h.setStore (.of_noneRevived (s.hub.store.noneRevived_delete name) rfl rfl)⟩
  | putMapping name mapping =>
    cases hstep
    exact ⟨owner, h.setStore (.of_noneRevived (s.hub.store.noneRevived_putMapping name mapping) rfl rfl)⟩
  | expire name =>
    cases hstep
    exact ⟨owner, h.setStore (.refl owner s.hub.store)⟩
  | append plans =>
    obtain ⟨⟨new, b⟩, -, rfl⟩ := map_eq_some_iff.mp hstep
    refine ⟨owner, h.move (.refl owner s.hub.store) (fun _ => Or.inl) (fun req hreq => ?_) fun _ => Or.inl⟩
    rcases mem_append.mp hreq with hreq | hreq
    · exact .inl hreq
    · rw [mem_singleton.mp hreq]
      exact .inr fun snd hsnd => by cases hsnd
  | appendFails routes =>
    obtain ⟨⟨new, b⟩, -, rfl⟩ := map_eq_some_iff.mp hstep
    exact ⟨owner, h.move (.refl owner s.hub.store) (fun _ => Or.inl) (fun _ => Or.inl) fun _ => Or.inl⟩
  | request j ok =>
    obtain ⟨r, hj, hrequest⟩ := bind_eq_some_iff.mp hstep
    exact h.serves hj (State.serves_of_requestStep hrequest)
  | replay ok => exact h.replays (State.replays_of_replayStep hstep).2
  | worker i input =>
    obtain ⟨w, hi, happlied⟩ := bind_eq_some_iff.mp hstep
    obtain ⟨⟨w', eff⟩, hworker, rfl⟩ := map_eq_some_iff.mp happlied
    exact ⟨owner, h.workerStep hrows hmatched hi hworker⟩
  | flushStream i =>
    obtain ⟨w, hi, hflush⟩ := bind_eq_some_iff.mp hstep
    split_ifs at hflush
    cases hflush
    refine ⟨owner, h.move (.refl owner s.hub.store) (fun v hv => ?_) (fun _ => Or.inl) fun _ => Or.inl⟩
    rcases mem_or_eq_of_mem_set hv with hv | rfl
    · exact .inl hv
    · exact .inr (h.workers w (mem_of_getElem? hi))
  | unlink g =>
    simp only [State.step] at hstep
    split_ifs at hstep
    cases hstep
    exact ⟨owner, h.move (.refl owner s.hub.store) (fun _ => Or.inl) (fun _ => Or.inl) fun _ => Or.inl⟩
  | crash =>
    cases hstep
    refine ⟨owner, h.move (.refl owner s.hub.store) (fun w hw => ?_) (fun req hreq => ?_) fun snd hsnd => ?_⟩
    · cases hw
    · cases hreq
    · cases hsnd

theorem init : Owned (fun _ => "") (init : State M) where
  live name id h := by cases h
  workers w hw := by cases hw
  requests req hreq := by cases hreq
  replay snd hsnd := by cases hsnd
  published e he := by cases he

theorem same_stream (h : Owned owner s) {e e' : ℕ × LogRecord} (he : e ∈ s.hub.store.published)
    (he' : e' ∈ s.hub.store.published) (hrow : e.1 = e'.1) : e.2.item.stream = e'.2.item.stream := by
  rw [← (h.published e he).name, ← (h.published e' he').name, hrow]

end Owned

end RSearch.Pipeline
