import RSearch.Auth.Accounts

/-!
# The first user

While no user exists nothing is enforced, so that the first one can be created; the first one is always
an administrator.  Both rest on a count that is taken before it is used.
-/

namespace RSearch.Auth

open Function State Call

open Json (Value)

/-! ### The role of a row -/

theorem Db.role_getUser_upsertUser (db : Db) (name hash role : String) (streams : List String) :
    ((db.upsertUser name hash role streams).getUser name).map UserRecord.role = some role := by
  unfold upsertUser
  cases hold : db.getUser name with
  | some old =>
    have hfind : (db.users.map fun u => if u.username = name then
        (⟨u.id, name, hash, role, streams⟩ : UserRecord) else u).find?
          (fun u => u.username == name) = some ⟨old.id, name, hash, role, streams⟩ := by
      rw [List.find?_map]
      have hsame : ((fun u : UserRecord => u.username == name) ∘ fun u =>
          if u.username = name then (⟨u.id, name, hash, role, streams⟩ : UserRecord) else u)
          = fun u => u.username == name := by
        grind
      have hname : old.username = name := by
        simpa using List.find?_some hold
      rw [hsame, show db.users.find? (fun u => u.username == name) = some old from hold]
      simp [hname]
    simp [getUser, hfind]
  | none =>
    grind [getUser]

section Role

variable {Node : Type} [DecidableEq Node] {crypto : Crypto} {s s' : State Node}

theorem State.db_of_put {c : ℕ} {turn : Turn} {call : Call Node} {name : String} {body : Value}
    {count : Option ℕ} {hash : String} (hcall : s.calls c = some call)
    (hrequest : call.request = .putUser name body) (hstage : call.stage = .writing count hash)
    (hstep : step crypto s (.advance c turn) = some s') (hwrote : s'.version ≠ s.version) :
    s'.db = s.db.upsertUser name hash (roleOf count body) (streamsOf body) := by
  obtain ⟨call', hcall', hstep⟩ := Option.bind_eq_some_iff.mp hstep
  cases hcall.symm.trans hcall'
  obtain ⟨⟨touch, stage⟩, hadvance, hstep⟩ := Option.bind_eq_some_iff.mp hstep
  cases hstep
  simp only [advance, hrequest, hstage, Option.some.injEq] at hadvance
  unfold Turn.write at hadvance
  split at hadvance
  · cases hadvance
    exact update_self _ _ _
  · split_ifs at hadvance
    · cases hadvance
      exact update_self _ _ _
    · cases hadvance
      exact absurd rfl hwrote

/-- **When a row becomes an administrator's.**  In any state and for any `put_user` that writes its row
there: the row is an administrator's only if the request asked for that or no user existed, exactly when
the request asked for it, or its count found users, or no user existed. -/
theorem admin_row_iff {c : ℕ} {turn : Turn} {call : Call Node} {name : String} {body : Value}
    {count : Option ℕ} {hash : String} (hcall : s.calls c = some call)
    (hrequest : call.request = .putUser name body) (hstage : call.stage = .writing count hash)
    (hstep : State.step crypto s (.advance c turn) = some s') (hwrote : s'.version ≠ s.version) :
    ((s'.db.getUser name).map UserRecord.role = some "admin" →
        askedRole body = some "admin" ∨ s.db.users = []) ↔
      askedRole body = some "admin" ∨ (∃ n, count = some n ∧ n ≠ 0) ∨ s.db.users = [] := by
  rw [State.db_of_put hcall hrequest hstage hstep hwrote, Db.role_getUser_upsertUser,
    Option.some.injEq]
  unfold roleOf
  split_ifs with hfirst
  · have hnone : ¬∃ n, count = some n ∧ n ≠ 0 := by
      rintro ⟨n, rfl, hn⟩
      exact hn (beq_iff_eq.mp hfirst)
    simp [hnone]
  · have hsome : ∃ n, count = some n ∧ n ≠ 0 := by
      cases count with
      | none => exact absurd rfl hfirst
      | some n => exact ⟨n, rfl, fun hn => hfirst (beq_iff_eq.mpr hn)⟩
    cases hasked : askedRole body with
    | none | some role =>
      grind

end Role

/-! ### Two first users -/

def plainCrypto : Crypto := ⟨id, fun password hash => password == hash⟩

def noAccounts : Db := ⟨[], [], [], 1⟩

def plainUser : Value := .object [("password", .string "correct horse")]

def upToWrite (c : ℕ) (name : String) : List (Act Unit) :=
  [.call c () (.putUser name plainUser), .advance c (.ok ""), .advance c (.ok "correct horse")]

/-- A second user is created as a plain one, because the count finds the first. -/
theorem admin_row_secondUser :
    ∃ s s' : State Unit,
      Runs.run (State.step plainCrypto) (State.start noAccounts)
        (upToWrite 0 "a" ++ .advance 0 (.ok "") :: upToWrite 1 "b") = some s ∧
      State.step plainCrypto s (.advance 1 (.ok "")) = some s' ∧ s.db.users ≠ [] ∧
      ((s'.db.getUser "b").map UserRecord.role = some "admin" →
        askedRole plainUser = some "admin" ∨ s.db.users = []) := by
  refine ⟨_, _, rfl, rfl, by decide, ?_⟩
  refine (@admin_row_iff Unit _ plainCrypto _ _ 1 (.ok "") ⟨(), .putUser "b" plainUser,
    .writing (some 1) "correct horse"⟩ "b" plainUser (some 1) _ rfl rfl rfl rfl (by decide)).mpr ?_
  exact .inr (.inl ⟨1, rfl, by decide⟩)

/-- **Two first users.**  Two requests that ask for no role count before either writes; the second row is
written when a user exists, and is an administrator's. -/
theorem two_first_users :
    ∃ s s' : State Unit,
      Runs.run (State.step plainCrypto) (State.start noAccounts)
        (upToWrite 0 "a" ++ upToWrite 1 "b" ++ [.advance 0 (.ok "")]) = some s ∧
      State.step plainCrypto s (.advance 1 (.ok "")) = some s' ∧
      askedRole plainUser = none ∧ s.db.users ≠ [] ∧
      (s'.db.getUser "b").map UserRecord.role = some "admin" :=
  ⟨_, _, rfl, rfl, by decide, by decide, by decide⟩

/-! ### Enforcement -/

section Armed

variable {Node : Type}

/-- The state of the metastore a `put_user` has written, once it has raised the flag. -/
def Call.armedAt (call : Call Node) : Option ℕ :=
  if call.request.isPutUser && !call.stage.isArming then call.stage.version? else none

variable {call : Call Node}

theorem Call.version?_of_armedAt {v : ℕ} (h : call.armedAt = some v) :
    call.stage.version? = some v := by
  grind [armedAt]

theorem Call.armedAt_eq_none (h : call.stage.version? = none) : call.armedAt = none := by
  unfold armedAt
  rw [h, ite_self]

end Armed

section Enforced

variable {Node : Type} [DecidableEq Node] {crypto : Crypto}

namespace State

variable {s s' : State Node}

def Populated (s : State Node) (v : ℕ) : Prop :=
  ∀ v', v ≤ v' → v' ≤ s.version → (s.log v').users ≠ []

variable {db : Db} {v c : ℕ} {node : Node} {t : Touch} {st : AuthState} {call : Call Node}

omit [DecidableEq Node] in
theorem Populated.of_write (h : (s.write db).Populated v) : s.Populated v := by
  intro v' hv hversion
  have hsame : (s.write db).log v' = s.log v' := update_of_ne (by omega) _ _
  rw [← hsame]
  exact h v' hv (hversion.trans (Nat.le_succ _))

theorem Populated.of_touch (h : (s.touch node t).Populated v) : s.Populated v := by
  intro v' hv hversion
  rw [← log_touch node t hversion]
  exact h v' hv (hversion.trans (version_le_touch node t))

/-- **The invariant.**  Where a `put_user` has raised the flag, it is up for as long as users exist. -/
def Armed (s : State Node) : Prop :=
  ∀ c call v, s.calls c = some call → call.armedAt = some v → s.Populated v →
    (s.nodes call.node).enforced = true

def StoresWhileEmpty (s : State Node) : Act Node → Prop
  | .refresherStore node => (s.nodes node).counted = some 0 → s.db.users = []
  | .call _ _ _ | .advance _ _ | .begin _ _ _ | .proceed _ _ | .refresherCount _ _ | .evict _ _
  | .forget _ _ | .createSession _ | .expireSession _ | .createApiKey _ => True

instance (s : State Node) (a : Act Node) : Decidable (s.StoresWhileEmpty a) := by
  unfold State.StoresWhileEmpty
  split <;> infer_instance

theorem enforced_apply {op : AuthOp} (hop : op ≠ .store 0) (h : st.enforced = true) :
    (op.apply st).enforced = true := by
  cases op with
  | arm => rfl
  | store n =>
    grind [AuthOp.apply]
  | clear v | clearNegative | cachePut key identity | negativePut key | evict key | forget key
  | count n => exact h

theorem enforced_touch (ht : t ≠ .auth (.store 0)) {n : Node} (h : (s.nodes n).enforced = true) :
    ((s.touch node t).nodes n).enforced = true := by
  cases t with
  | nothing | write db => exact h
  | auth op =>
    unfold touch
    dsimp only
    by_cases hn : n = node
    · subst hn
      rw [update_self]
      exact enforced_apply (fun hop => ht (congrArg _ hop)) h
    · rwa [update_of_ne hn]

theorem Armed.touch (h : s.Armed) (ht : t ≠ .auth (.store 0)) : (s.touch node t).Armed := by
  intro c call v hcall harmed hpopulated
  rw [touch_calls] at hcall
  exact enforced_touch ht (h c call v hcall harmed hpopulated.of_touch)

omit [DecidableEq Node] in
theorem Armed.setCall (h : s.Armed)
    (hcall : ∀ v, call.armedAt = some v → s.Populated v → (s.nodes call.node).enforced = true) :
    (s.setCall c call).Armed := by
  intro c' call' v hcall' harmed hpopulated
  rcases of_setCall hcall' with ⟨-, rfl⟩ | hcall'
  · exact hcall v harmed hpopulated
  · exact h c' call' v hcall' harmed hpopulated

theorem Armed.advance (h : s.Armed) {stage : CallStage} (hcall : s.calls c = some call)
    (hmoves : CallMoves call.request s.version call.stage t stage) :
    ((s.touch call.node t).setCall c { call with stage := stage }).Armed := by
  have hold := h c call
  obtain ⟨node, request, before⟩ := call
  cases hmoves with
  | idle hnext | unacknowledged hnext =>
    refine (h.touch (by simp)).setCall fun v harmed => ?_
    grind [armedAt_eq_none]
  | put =>
    refine (h.touch (by simp)).setCall fun v harmed => ?_
    simp [armedAt, CallStage.isArming] at harmed
  | delete hrequest =>
    refine (h.touch (by simp)).setCall fun v harmed => ?_
    simp [armedAt, hrequest] at harmed
  | arm =>
    refine (h.touch (by simp)).setCall fun v _ _ => ?_
    simp [State.touch, AuthOp.apply]
  | clear | acknowledge =>
    refine (h.touch (by simp)).setCall fun v harmed hpopulated => ?_
    exact enforced_touch (by simp) (hold v hcall harmed hpopulated.of_touch)

omit [DecidableEq Node] in
theorem ne_store_of_requestMoves {r r' : AuthRequest Node} (h : RequestMoves crypto st db r t r') :
    t ≠ .auth (.store 0) := by
  cases h with
  | pass ht =>
    rcases ht with rfl | ⟨key, rfl⟩ <;> simp
  | hit | read | readUser | verified | cached => simp

theorem Armed.step (h : s.Armed) (hnumbered : s.Numbered) {a : Act Node} (ha : s.StoresWhileEmpty a)
    (hstep : step crypto s a = some s') : s'.Armed := by
  cases steps_of_step hstep with
  | call hfree =>
    refine h.setCall fun v harmed => ?_
    grind [armedAt_eq_none, ChangeRequest.version?_start]
  | advance hcall hadvance => exact h.advance hcall (callMoves_of_advance hadvance)
  | begin hfree | countFails => exact h
  | proceed hrequest hproceed =>
    exact h.touch (ne_store_of_requestMoves (requestMoves_of_proceed hproceed))
  | count | evict | forget => exact h.touch (by simp)
  | @store node n hcounted =>
    by_cases hn : n = 0
    · subst hn
      -- no user exists, so that there is nothing left to guard
      intro c call v hcall harmed hpopulated
      have hv := hnumbered c call v hcall (version?_of_armedAt harmed)
      exact absurd (ha hcounted) (hpopulated.of_touch s.version hv le_rfl)
    · refine h.touch fun heq => hn ?_
      cases heq
      rfl
  | elsewhere husers =>
    exact fun c call v hcall harmed hpopulated => h c call v hcall harmed hpopulated.of_write

theorem run_armed {acts : List (Act Node)}
    (halong : Runs.Along (step crypto) StoresWhileEmpty (start db) acts)
    (hrun : Runs.run (step crypto) (start db) acts = some s) : s.Armed := by
  refine (Runs.run_invariant (step crypto) (I := fun s => s.Armed ∧ s.Numbered)
    (fun s a s' hs ha hstep => ⟨hs.1.step hs.2 ha hstep, hs.2.step hstep⟩) ⟨?_, start_numbered db⟩
    halong hrun).1
  rintro c call v ⟨⟩

end State

/-- **Enforcement stays on.**  In every state of a run in which no zero is stored over a user: once a
`put_user` has been acknowledged on a node, and for as long as users have existed since it wrote its
row, enforcement is on there, and every request that comes is authenticated. -/
theorem enforced_while_populated {db : Db} {acts : List (Act Node)} {s : State Node}
    (halong : Runs.Along (State.step crypto) State.StoresWhileEmpty (State.start db) acts)
    (hrun : Runs.run (State.step crypto) (State.start db) acts = some s) {c v : ℕ} {first : Bool}
    {node : Node} {name : String} {body : Value}
    (hcall : s.calls c = some ⟨node, .putUser name body, .answered (.acknowledged v first)⟩)
    (hpopulated : s.Populated v) :
    (s.nodes node).enforced = true ∧
      ∀ r credentials s', State.step crypto s (.begin r node credentials) = some s' →
        s'.requests r = some ⟨node, credentials, credentials, false, .looking⟩ := by
  have henforced : (s.nodes node).enforced = true :=
    State.run_armed halong hrun c _ v hcall rfl hpopulated
  refine ⟨henforced, fun r credentials s' hstep => ?_⟩
  simp only [State.step] at hstep
  split_ifs at hstep
  cases hstep
  have hself : (s.setRequest r (s.arrive node credentials)).requests r
      = some (s.arrive node credentials) := update_self _ _ _
  rw [hself, State.arrive, henforced]
  rfl

end Enforced

/-! ### A count that is stored too late -/

def firstUser : List (Act Unit) :=
  upToWrite 0 "a" ++ [.advance 0 (.ok ""), .advance 0 (.ok ""), .advance 0 (.ok ""),
    .advance 0 (.ok "")]

def countedTwice : List (Act Unit) :=
  [.refresherCount () false, .refresherStore ()] ++ firstUser ++
    [.refresherCount () false, .refresherStore ()]

/-- Enforcement is on after a refresher that had counted zero before has counted again. -/
theorem enforced_while_populated_counted :
    ∃ s : State Unit,
      Runs.run (State.step plainCrypto) (State.start noAccounts) countedTwice = some s ∧
      s.Populated 1 ∧ (s.nodes ()).enforced = true := by
  have hpopulated : ∀ s : State Unit, s.version = 1 → s.db.users ≠ [] → s.Populated 1 := by
    intro s hversion husers v hv hle
    rw [show v = s.version by omega]
    exact husers
  refine ⟨_, rfl, hpopulated _ rfl (by decide), ?_⟩
  exact (@enforced_while_populated Unit _ plainCrypto noAccounts countedTwice _ (by decide +kernel) rfl
    0 1 true () "a" plainUser rfl (hpopulated _ rfl (by decide))).1

/-- **Enforcement is switched off by a stale count.**  The refresher counts no users; the first user is
created and the call is answered; the refresher stores its count.  A user exists, and the next request
goes on unchecked. -/
theorem stale_count_disarms :
    ∃ s s' : State Unit,
      Runs.run (State.step plainCrypto) (State.start noAccounts)
        ([.refresherCount () false] ++ firstUser ++ [.refresherStore ()]) = some s ∧
      (s.calls 0).map Call.stage = some (.answered (.acknowledged 1 true)) ∧ s.db.users ≠ [] ∧
      (s.nodes ()).enforced = false ∧
      State.step plainCrypto s (.begin 0 () []) = some s' ∧
      s'.requests 0 = some ⟨(), [], [], false, .unchecked⟩ :=
  ⟨_, _, rfl, by decide, by decide, by decide, rfl, rfl⟩

end RSearch.Auth
