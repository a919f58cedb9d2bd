import RSearch.Auth.Bootstrap

/-!
# Changed accounts and what a node remembers of them

Every call that changes an account clears the cache of its node before it answers.  But a request
**reads first and stores afterwards**: if the cache is cleared in between, it puts back what was to go.
-/

namespace RSearch.Auth

open Function State Runs

/-! ### States of the metastore at or after a given one -/

namespace State

variable {Node : Type} {crypto : Crypto} {s s' : State Node}

def Since (s : State Node) (v₀ : ℕ) (p : Db → Prop) : Prop := ∃ v, v₀ ≤ v ∧ v ≤ s.version ∧ p (s.log v)

variable {v₀ : ℕ} {p : Db → Prop}

theorem since_now (hv : v₀ ≤ s.version) (h : p s.db) : s.Since v₀ p :=
  ⟨s.version, hv, le_rfl, h⟩

theorem Since.mono {v₁ : ℕ} {q : Db → Prop} (h : s.Since v₁ p) (hv : v₀ ≤ v₁) (himp : ∀ db, p db → q db) :
    s.Since v₀ q := by
  obtain ⟨v, hv₁, hversion, hp⟩ := h
  exact ⟨v, hv.trans hv₁, hversion, himp _ hp⟩

theorem Since.write (h : s.Since v₀ p) (db : Db) : (s.write db).Since v₀ p := by
  obtain ⟨v, hv₀, hversion, hp⟩ := h
  refine ⟨v, hv₀, hversion.trans (Nat.le_succ _), ?_⟩
  have hsame : (s.write db).log v = s.log v := update_of_ne (by omega) _ _
  rwa [hsame]

theorem Since.touch [DecidableEq Node] (h : s.Since v₀ p) (node : Node) (t : Touch) :
    (s.touch node t).Since v₀ p := by
  cases t with
  | nothing | auth op => exact h
  | write db => exact h.write db

end State

/-! ### The invariant -/

def RequestStage.clears? : RequestStage → Option ℕ
  | .verifying (some _) clears | .caching _ _ clears => some clears
  | .looking | .missed | .session | .apiKey _ | .negative | .user | .verifying none _ | .done _
  | .unchecked => none

def CallStage.clearedFor? : CallStage → Option ℕ
  | .clearingNegative v _ | .answered (.acknowledged v _) => some v
  | .counting | .hashing _ | .writing _ _ | .deleting | .arming _ _ | .clearing _ _
  | .answered (.refused _ _) => none

theorem CallStage.clearedFor?_eq_none {stage : CallStage} (h : stage.version? = none) :
    stage.clearedFor? = none := by
  cases stage with
  | answered answer =>
    cases answer with
    | acknowledged v first => cases h
    | refused status reason => rfl
  | clearingNegative v first => cases h
  | counting | hashing count | writing count hash | deleting | arming v first | clearing v first => rfl

theorem clears?_of_isNeutral {stage : RequestStage} (h : stage.isNeutral = true) :
    stage.clears? = none := by
  unfold RequestStage.isNeutral at h
  split at h <;> first | rfl | cases h

namespace State

variable {Node : Type} {crypto : Crypto} {s s' : State Node}

/-- What a request holds between a read and its store was so in a state no older than the given one. -/
structure Backed (crypto : Crypto) (s : State Node) (v₀ : ℕ) (r : AuthRequest Node) : Prop where
  caching : ∀ key identity clears, r.stage = .caching key identity clears →
    s.Since v₀ fun db => db.Grants crypto key identity
  verifying : ∀ user clears username password rest, r.stage = .verifying (some user) clears →
    r.todo = .basic username password :: rest → s.Since v₀ fun db => db.getUser username = some user

variable {v₀ : ℕ} {r : AuthRequest Node}

theorem backed_of_clears?_none (h : r.stage.clears? = none) :
    s.Backed crypto v₀ r where
  caching key identity clears hstage := by
    rw [hstage] at h
    cases h
  verifying user clears username password rest hstage := by
    rw [hstage] at h
    cases h

theorem Backed.of_since (h : s.Backed crypto v₀ r) (hsince : ∀ p, s.Since v₀ p → s'.Since v₀ p) :
    s'.Backed crypto v₀ r where
  caching key identity clears hstage := hsince _ (h.caching key identity clears hstage)
  verifying user clears username password rest hstage htodo :=
    hsince _ (h.verifying user clears username password rest hstage htodo)

/-- What a request holds is current as long as the cache has not been cleared since it was read. -/
def Pending (crypto : Crypto) (s : State Node) (r : AuthRequest Node) : Prop :=
  ∀ clears, r.stage.clears? = some clears → clears ≤ (s.nodes r.node).clears ∧
    (clears = (s.nodes r.node).clears → s.Backed crypto (s.nodes r.node).clearedFor r)

theorem Pending.of_since (h : s.Pending crypto r) (hnodes : s'.nodes r.node = s.nodes r.node)
    (hsince : ∀ v₀ p, s.Since v₀ p → s'.Since v₀ p) : s'.Pending crypto r := by
  intro clears hclears
  obtain ⟨hle, hbacked⟩ := h clears hclears
  rw [hnodes]
  exact ⟨hle, fun heq => (hbacked heq).of_since (hsince _)⟩

/-- **The invariant.**  The caches are cleared for states that exist, for every call that says so; every
entry is current; and so is what a request holds. -/
structure Sound (crypto : Crypto) (s : State Node) : Prop where
  exists_cleared : ∀ n, (s.nodes n).clearedFor ≤ s.version
  cleared : ∀ c call v, s.calls c = some call → call.stage.clearedFor? = some v →
    v ≤ (s.nodes call.node).clearedFor
  current : ∀ n key identity, (key, identity) ∈ (s.nodes n).cache →
    s.Since (s.nodes n).clearedFor fun db => db.Grants crypto key identity
  pending : ∀ r request, s.requests r = some request → s.Pending crypto request

theorem start_sound (db : Db) : (start db : State Node).Sound crypto where
  exists_cleared _ := le_rfl
  cleared := by rintro c call v ⟨⟩
  current := by rintro n key identity ⟨⟩
  pending := by rintro r request ⟨⟩

theorem Sound.setCall (h : s.Sound crypto) {c : ℕ} {call : Call Node}
    (hcall : ∀ v, call.stage.clearedFor? = some v → v ≤ (s.nodes call.node).clearedFor) :
    (s.setCall c call).Sound crypto where
  exists_cleared := h.exists_cleared
  cleared c' call' v hcall' hv := by
    rcases of_setCall hcall' with ⟨-, rfl⟩ | hcall'
    · exact hcall v hv
    · exact h.cleared c' call' v hcall' hv
  current := h.current
  pending r request hrequest := (h.pending r request hrequest).of_since rfl fun _ _ hp => hp

theorem Sound.setRequest (h : s.Sound crypto) {r : ℕ} {request : AuthRequest Node}
    (hrequest : s.Pending crypto request) : (s.setRequest r request).Sound crypto where
  exists_cleared := h.exists_cleared
  cleared := h.cleared
  current := h.current
  pending r' request' hrequest' := by
    rcases of_setRequest hrequest' with ⟨-, rfl⟩ | ⟨-, hrequest'⟩
    · exact hrequest.of_since rfl fun _ _ hp => hp
    · exact (h.pending r' request' hrequest').of_since rfl fun _ _ hp => hp

theorem Sound.write (h : s.Sound crypto) (db : Db) : (s.write db).Sound crypto where
  exists_cleared n := (h.exists_cleared n).trans (Nat.le_succ _)
  cleared := h.cleared
  current n key identity hmem := (h.current n key identity hmem).write db
  pending r request hrequest :=
    (h.pending r request hrequest).of_since rfl fun _ _ hp => hp.write db

end State

theorem AuthOp.apply_cases (st : AuthState) (op : AuthOp) :
    (∃ v, op = .clear v) ∨ ((op.apply st).clears = st.clears ∧ (op.apply st).clearedFor = st.clearedFor ∧
        ∀ e ∈ (op.apply st).cache, e ∈ st.cache ∨ op = .cachePut e.1 e.2) := by
  cases op with
  | clear v => exact .inl ⟨v, rfl⟩
  | cachePut key identity =>
    refine .inr ⟨rfl, rfl, fun e he => ?_⟩
    rcases List.mem_cons.mp he with rfl | he
    · exact .inr rfl
    · grind
  | evict key => exact .inr ⟨rfl, rfl, fun e he => .inl (List.mem_of_mem_filter he)⟩
  | arm | clearNegative | negativePut key | forget key | count n | store n =>
    exact .inr ⟨rfl, rfl, fun e he => .inl he⟩

theorem AuthOp.clearedFor_le_apply (st : AuthState) (op : AuthOp) :
    st.clearedFor ≤ (op.apply st).clearedFor := by
  rcases op.apply_cases st with ⟨v, rfl⟩ | ⟨-, h, -⟩
  · exact le_max_left _ _
  · exact h.ge

namespace State

variable {Node : Type} [DecidableEq Node] {crypto : Crypto} {s s' : State Node}

theorem clearedFor_le_touch (node : Node) (t : Touch) (n : Node) :
    (s.nodes n).clearedFor ≤ ((s.touch node t).nodes n).clearedFor := by
  cases t with
  | nothing | write db => exact le_rfl
  | auth op =>
    by_cases hn : n = node
    · subst hn
      simp only [touch, update_self]
      exact op.clearedFor_le_apply _
    · simp [touch, update_of_ne hn]

variable {node : Node} {t : Touch} {r request r' : AuthRequest Node} {fails : Bool} {a : Act Node}
  {v₀ : ℕ} {credentials : List Credential}

theorem Sound.touch (h : s.Sound crypto) (hclear : ∀ v, t = .auth (.clear v) → v ≤ s.version)
    (hput : ∀ key identity, t = .auth (.cachePut key identity) →
      s.Since (s.nodes node).clearedFor fun db => db.Grants crypto key identity) :
    (s.touch node t).Sound crypto := by
  cases t with
  | nothing => exact h
  | write db => exact h.write db
  | auth op =>
    have hcases := op.apply_cases (s.nodes node)
    refine ⟨fun n => ?_, fun c call v hcall hv => ?_, fun n key identity hmem => ?_,
      fun r request hrequest clears hclears => ?_⟩
    · by_cases hn : n = node
      · subst hn
        simp only [touch, update_self]
        rcases hcases with ⟨v, rfl⟩ | ⟨-, hsame, -⟩
        · exact max_le (h.exists_cleared n) (hclear v rfl)
        · rw [hsame]
          exact h.exists_cleared n
      · simp only [touch, update_of_ne hn]
        exact h.exists_cleared n
    · exact (h.cleared c call v hcall hv).trans (clearedFor_le_touch node (.auth op) call.node)
    · by_cases hn : n = node
      · subst hn
        simp only [touch, update_self] at hmem ⊢
        rcases hcases with ⟨v, rfl⟩ | ⟨-, hsame, hentries⟩
        · cases hmem
        · rw [hsame]
          rcases hentries _ hmem with hold | rfl
          · exact h.current n key identity hold
          · exact hput key identity rfl
      · simp only [touch, update_of_ne hn] at hmem ⊢
        exact h.current n key identity hmem
    · by_cases hn : request.node = node
      · subst hn
        obtain ⟨hle, hbacked⟩ := h.pending r request hrequest clears hclears
        simp only [touch, update_self]
        rcases hcases with ⟨v, rfl⟩ | ⟨hsame, hsame', -⟩
        · refine ⟨hle.trans (Nat.le_succ _), fun heq => ?_⟩
          -- the cache has just been cleared once more
          have hclears' : clears = (s.nodes request.node).clears + 1 := heq
          omega
        · rw [hsame, hsame']
          exact ⟨hle, fun heq => (hbacked heq).of_since fun _ hp => hp⟩
      · have hnodes : (s.touch node (.auth op)).nodes request.node = s.nodes request.node :=
          update_of_ne hn _ _
        have hpending : (s.touch node (.auth op)).Pending crypto request :=
          (h.pending r request hrequest).of_since hnodes fun _ _ hp => hp
        exact hpending clears hclears

/-- A request stores what it holds only if the cache has not been cleared since it read it. -/
def storesCurrent (s : State Node) : Act Node → Bool
  | .proceed r _ =>
    match s.requests r with
    | some request =>
      match request.stage with
      | .caching _ _ clears => clears == (s.nodes request.node).clears
      | .looking | .missed | .session | .apiKey _ | .negative | .user | .verifying _ _ | .done _
      | .unchecked => true
    | none => true
  | .call _ _ _ | .advance _ _ | .begin _ _ _ | .refresherCount _ _ | .refresherStore _ | .evict _ _
  | .forget _ _ | .createSession _ | .expireSession _ | .createApiKey _ => true

omit [DecidableEq Node] in
theorem clears_of_storesCurrent {r : ℕ} {key : String} {identity : Identity} {clears : ℕ}
    (h : s.storesCurrent (.proceed r fails) = true) (hrequest : s.requests r = some request)
    (hstage : request.stage = .caching key identity clears) :
    clears = (s.nodes request.node).clears := by
  grind [storesCurrent]

theorem Sound.advance (h : s.Sound crypto) (hnumbered : s.Numbered) {c : ℕ} {call : Call Node}
    {stage : CallStage} (hcall : s.calls c = some call)
    (hmoves : CallMoves call.request s.version call.stage t stage) :
    ((s.touch call.node t).setCall c { call with stage := stage }).Sound crypto := by
  have hwritten := hnumbered c call
  have hcleared := h.cleared c call
  obtain ⟨node, request, before⟩ := call
  cases hmoves with
  | idle hnext | unacknowledged hnext =>
    refine (h.touch (by simp) (by simp)).setCall fun v hv => ?_
    rw [CallStage.clearedFor?_eq_none hnext] at hv
    cases hv
  | put | delete | arm =>
    refine (h.touch (by simp) (by simp)).setCall fun v hv => ?_
    cases hv
  | @clear v first =>
    refine (h.touch (fun v' hv' => ?_) (by simp)).setCall fun v' hv' => ?_
    · cases hv'
      exact hwritten v hcall rfl
    · cases hv'
      simp [State.touch, AuthOp.apply]
  | acknowledge =>
    refine (h.touch (by simp) (by simp)).setCall fun v hv => ?_
    exact (hcleared v hcall hv).trans (clearedFor_le_touch _ _ _)

theorem Sound.proceed (h : s.Sound crypto) {r : ℕ} {next : AuthRequest Node}
    (hstores : s.storesCurrent (.proceed r fails) = true) (hrequest : s.requests r = some request)
    (hmoves : RequestMoves crypto (s.nodes request.node) s.db request t next) :
    ((s.touch request.node t).setRequest r next).Sound crypto := by
  have hpending := h.pending r request hrequest
  cases hmoves with
  | pass ht hnode hcredentials htodo hstage =>
    refine (h.touch ?_ ?_).setRequest fun clears hclears => ?_
    · rcases ht with rfl | ⟨key, rfl⟩ <;> simp
    · rcases ht with rfl | ⟨key, rfl⟩ <;> simp
    · rw [clears?_of_isNeutral hstage] at hclears
      cases hclears
  | hit hmem hget =>
    refine (h.touch (by simp) (by simp)).setRequest fun clears hclears => ?_
    cases hclears
  | read hmem hgrants =>
    refine (h.touch (by simp) (by simp)).setRequest fun clears hclears => ?_
    cases hclears
    refine ⟨le_rfl, fun _ => ⟨fun key identity clears hstage => ?_, ?_⟩⟩
    · cases hstage
      exact since_now (h.exists_cleared _) hgrants
    · rintro user clears username password rest ⟨⟩
  | readUser htodo huser =>
    refine (h.touch (by simp) (by simp)).setRequest fun clears hclears => ?_
    cases hclears
    refine ⟨le_rfl, fun _ => ⟨?_, fun user clears username password rest hstage htodo' => ?_⟩⟩
    · rintro key identity clears ⟨⟩
    · cases hstage
      cases htodo.symm.trans htodo'
      exact since_now (h.exists_cleared _) huser
  | @verified username password rest user clears hstage htodo hverify =>
    obtain ⟨hle, hbacked⟩ := hpending clears (by rw [hstage]; rfl)
    refine (h.touch (by simp) (by simp)).setRequest fun clears' hclears => ?_
    cases hclears
    refine ⟨hle, fun heq => ⟨fun key identity clears' hstage' => ?_, ?_⟩⟩
    · cases hstage'
      have huser := (hbacked heq).verifying user clears username password rest hstage htodo
      exact huser.mono le_rfl fun db hdb => .basic rfl hdb hverify
    · rintro user clears username password rest ⟨⟩
  | @cached key identity clears hstage =>
    refine (h.touch (by simp) fun key' identity' heq => ?_).setRequest fun clears' hclears => ?_
    · cases heq
      obtain ⟨-, hbacked⟩ := hpending clears (by rw [hstage]; rfl)
      have hcurrent := clears_of_storesCurrent hstores hrequest hstage
      exact (hbacked hcurrent).caching key identity clears hstage
    · cases hclears

theorem Sound.step (h : s.Sound crypto) (hnumbered : s.Numbered) (ha : s.storesCurrent a = true)
    (hstep : step crypto s a = some s') : s'.Sound crypto := by
  cases steps_of_step hstep with
  | call hfree =>
    refine h.setCall fun v hv => ?_
    rw [CallStage.clearedFor?_eq_none (ChangeRequest.version?_start _)] at hv
    cases hv
  | advance hcall hadvance => exact h.advance hnumbered hcall (callMoves_of_advance hadvance)
  | begin hfree =>
    refine h.setRequest fun clears hclears => ?_
    unfold arrive at hclears
    split_ifs at hclears <;> cases hclears
  | proceed hrequest hproceed =>
    exact h.proceed ha hrequest (requestMoves_of_proceed hproceed)
  | countFails => exact h
  | count | store hcounted | evict | forget => exact h.touch (by simp) (by simp)
  | elsewhere husers => exact h.write _

/-! ### One request -/

/-- **A request that is judged by a state no older than the given one**: its node's cache has been cleared
for that state, and what it holds and what it was given were so since. -/
structure Judged (crypto : Crypto) (s : State Node) (v₀ : ℕ) (r : AuthRequest Node) : Prop where
  cleared : v₀ ≤ (s.nodes r.node).clearedFor
  todo : r.todo ⊆ r.credentials
  checked : r.stage ≠ .unchecked
  backed : s.Backed crypto v₀ r
  own : ∀ key identity clears, r.stage = .caching key identity clears →
    ∃ credential ∈ r.credentials, credential.key crypto = key
  given : ∀ identity, r.stage = .done (.as identity) →
    ∃ credential ∈ r.credentials,
      s.Since v₀ fun db => db.Grants crypto (credential.key crypto) identity

omit [DecidableEq Node] in
theorem Judged.of_since (h : s.Judged crypto v₀ r)
    (hcleared : (s.nodes r.node).clearedFor ≤ (s'.nodes r.node).clearedFor)
    (hsince : ∀ p, s.Since v₀ p → s'.Since v₀ p) : s'.Judged crypto v₀ r where
  cleared := h.cleared.trans hcleared
  todo := h.todo
  checked := h.checked
  backed := h.backed.of_since hsince
  own := h.own
  given identity hstage := by
    obtain ⟨credential, hmem, hgiven⟩ := h.given identity hstage
    grind

theorem Judged.touch (h : s.Judged crypto v₀ r) (node : Node) (t : Touch) :
    (s.touch node t).Judged crypto v₀ r :=
  h.of_since (clearedFor_le_touch node t r.node) fun _ hp => hp.touch node t

omit [DecidableEq Node] in
theorem Judged.of_neutral (h : s.Judged crypto v₀ r) (hnode : r'.node = r.node)
    (hcredentials : r'.credentials = r.credentials) (htodo : r'.todo <:+ r.todo)
    (hstage : r'.stage.isNeutral = true) : s.Judged crypto v₀ r' where
  cleared := hnode ▸ h.cleared
  todo := hcredentials ▸ List.Subset.trans htodo.subset h.todo
  checked hunchecked := by
    rw [hunchecked] at hstage
    cases hstage
  backed := backed_of_clears?_none (clears?_of_isNeutral hstage)
  own key identity clears hcaching := by
    rw [hcaching] at hstage
    cases hstage
  given identity hdone := by
    rw [hdone] at hstage
    cases hstage

omit [DecidableEq Node] in
theorem Judged.proceed (h : s.Judged crypto v₀ r) (hsound : s.Sound crypto)
    (hmoves : RequestMoves crypto (s.nodes r.node) s.db r t r') : s.Judged crypto v₀ r' := by
  have hversion : v₀ ≤ s.version := h.cleared.trans (hsound.exists_cleared r.node)
  cases hmoves with
  | pass ht hnode hcredentials htodo hstage => exact h.of_neutral hnode hcredentials htodo hstage
  | @hit credential identity hmem hget =>
    have hentry := AuthState.mem_cache_of_cacheGet hget
    have hcurrent := hsound.current r.node _ identity hentry
    refine ⟨h.cleared, h.todo, by rintro ⟨⟩, backed_of_clears?_none rfl, by rintro _ _ _ ⟨⟩, ?_⟩
    rintro identity' ⟨⟩
    exact ⟨credential, h.todo hmem, hcurrent.mono h.cleared fun _ hp => hp⟩
  | @read credential identity hmem hgrants =>
    refine ⟨h.cleared, h.todo, by rintro ⟨⟩, ⟨?_, by rintro _ _ _ _ _ ⟨⟩⟩, ?_, by rintro _ ⟨⟩⟩
    · rintro key identity' clears ⟨⟩
      exact since_now hversion hgrants
    · rintro key identity' clears ⟨⟩
      exact ⟨credential, h.todo hmem, rfl⟩
  | readUser htodo huser =>
    refine ⟨h.cleared, h.todo, by rintro ⟨⟩, ⟨by rintro _ _ _ ⟨⟩, ?_⟩, by rintro _ _ _ ⟨⟩,
      by rintro _ ⟨⟩⟩
    rintro user clears username password rest ⟨⟩ htodo'
    cases htodo.symm.trans htodo'
    exact since_now hversion huser
  | @verified username password rest user clears hstage htodo hverify =>
    have huser := h.backed.verifying user clears username password rest hstage htodo
    refine ⟨h.cleared, h.todo, by rintro ⟨⟩, ⟨?_, by rintro _ _ _ _ _ ⟨⟩⟩, ?_, by rintro _ ⟨⟩⟩
    · rintro key identity clears' ⟨⟩
      exact huser.mono le_rfl fun db hdb => .basic rfl hdb hverify
    · rintro key identity clears' ⟨⟩
      exact ⟨_, h.todo (htodo ▸ List.mem_cons_self), rfl⟩
  | @cached key identity clears hstage =>
    obtain ⟨credential, hmem, hkey⟩ := h.own key identity clears hstage
    have hgrants := h.backed.caching key identity clears hstage
    refine ⟨h.cleared, h.todo, by rintro ⟨⟩, backed_of_clears?_none rfl, by rintro _ _ _ ⟨⟩, ?_⟩
    rintro identity' ⟨⟩
    exact ⟨credential, hmem, hkey ▸ hgrants⟩

/-- The request with the given number, at the given node and with the given credentials, is judged. -/
def JudgesRequest (crypto : Crypto) (v₀ r : ℕ) (node : Node) (credentials : List Credential)
    (s : State Node) : Prop :=
  ∃ request, s.requests r = some request ∧
    (request.node = node ∧ request.credentials = credentials) ∧ s.Judged crypto v₀ request

omit [DecidableEq Node] in
theorem same_of_requestMoves {st : AuthState} {db : Db} (h : RequestMoves crypto st db r t r') :
    r'.node = r.node ∧ r'.credentials = r.credentials := by
  cases h with
  | pass ht hnode hcredentials htodo hstage => exact ⟨hnode, hcredentials⟩
  | hit | read | readUser | verified | cached => exact ⟨rfl, rfl⟩

theorem JudgesRequest.step {r : ℕ} (h : s.JudgesRequest crypto v₀ r node credentials)
    (hsound : s.Sound crypto) (hstep : step crypto s a = some s') :
    s'.JudgesRequest crypto v₀ r node credentials := by
  obtain ⟨request, hrequest, hsame, hjudged⟩ := h
  have htouch (n : Node) (t : Touch) : (s.touch n t).JudgesRequest crypto v₀ r node credentials := by
    refine ⟨request, ?_, hsame, hjudged.touch n t⟩
    rw [touch_requests]
    exact hrequest
  cases steps_of_step hstep with
  | call hfree =>
    exact ⟨request, hrequest, hsame, hjudged.of_since le_rfl fun _ hp => hp⟩
  | @advance c turn call t stage hcall hadvance =>
    obtain ⟨request', hrequest', hsame', hjudged'⟩ := htouch call.node t
    exact ⟨request', hrequest', hsame', hjudged'.of_since le_rfl fun _ hp => hp⟩
  | @begin r' node' credentials' hfree =>
    have hne : r ≠ r' := by
      grind
    refine ⟨request, ?_, hsame, hjudged.of_since le_rfl fun _ hp => hp⟩
    exact (update_of_ne hne _ _).trans hrequest
  | @proceed r' fails request' next t hrequest' hproceed =>
    by_cases hr : r = r'
    · subst hr
      cases hrequest.symm.trans hrequest'
      have hmoves := requestMoves_of_proceed hproceed
      have hnext := (hjudged.proceed hsound hmoves).touch request.node t
      refine ⟨next, update_self _ _ _, ?_, hnext.of_since le_rfl fun _ hp => hp⟩
      grind [same_of_requestMoves]
    · obtain ⟨request'', hrequest'', hsame'', hjudged''⟩ := htouch request'.node t
      refine ⟨request'', ?_, hsame'', hjudged''.of_since le_rfl fun _ hp => hp⟩
      exact (update_of_ne hr _ _).trans hrequest''
  | countFails => exact ⟨request, hrequest, hsame, hjudged⟩
  | count | store hcounted | evict | forget => exact htouch _ _
  | elsewhere husers =>
    exact ⟨request, hrequest, hsame, hjudged.of_since le_rfl fun _ hp => hp.write _⟩

theorem judgesRequest_begin {r : ℕ} (hcleared : v₀ ≤ (s.nodes node).clearedFor)
    (henforced : (s.nodes node).enforced = true)
    (hstep : step crypto s (.begin r node credentials) = some s') :
    s'.JudgesRequest crypto v₀ r node credentials := by
  simp only [step] at hstep
  split_ifs at hstep
  cases hstep
  refine ⟨_, update_self _ _ _, ⟨rfl, rfl⟩, hcleared, List.Subset.refl _, ?_, ?_, ?_, ?_⟩
  all_goals simp only [arrive, henforced, if_true]
  · rintro ⟨⟩
  · exact backed_of_clears?_none rfl
  · rintro _ _ _ ⟨⟩
  · rintro _ ⟨⟩

theorem run_sound {db : Db} {acts : List (Act Node)}
    (halong : Along (step crypto) (fun s a => s.storesCurrent a = true) (start db) acts)
    (hrun : run (step crypto) (start db) acts = some s) : s.Sound crypto ∧ s.Numbered :=
  run_invariant (step crypto) (I := fun s => s.Sound crypto ∧ s.Numbered)
    (fun _ _ _ hs ha hstep => ⟨hs.1.step hs.2 ha hstep, hs.2.step hstep⟩)
    ⟨start_sound db, start_numbered db⟩ halong hrun

end State

section Main

variable {Node : Type} [DecidableEq Node] {crypto : Crypto}

/-- **Later requests are judged by the changed record.**  Take any run in which every request that stores
what it has read does so before the cache is cleared again.  A change is acknowledged on a node, and then
a request comes there while something is enforced.  Whatever happens afterwards, the request is
authenticated, and the identity it is given, if any, is one that its credentials are granted by a state of
the metastore **at or after the change**. -/
theorem judged_by_changed_record {db : Db} {before after : List (Act Node)} {s₁ s₂ : State Node} {r : ℕ}
    {node : Node} {credentials : List Credential}
    (halong : Runs.Along (State.step crypto) (fun s a => s.storesCurrent a = true) (State.start db)
      (before ++ .begin r node credentials :: after))
    (hbefore : Runs.run (State.step crypto) (State.start db) before = some s₁)
    (hafter : Runs.run (State.step crypto) (State.start db)
      (before ++ .begin r node credentials :: after) = some s₂) {c v : ℕ} {request : ChangeRequest}
    {first : Bool} (hcall : s₁.calls c = some ⟨node, request, .answered (.acknowledged v first)⟩)
    (henforced : (s₁.nodes node).enforced = true) :
    ∃ stage todo backendError, s₂.requests r = some ⟨node, credentials, todo, backendError, stage⟩ ∧
      stage ≠ .unchecked ∧
      ∀ identity, stage = .done (.as identity) →
        ∃ credential ∈ credentials, ∃ v', v ≤ v' ∧ v' ≤ s₂.version ∧
          (s₂.log v').Grants crypto (credential.key crypto) identity := by
  obtain ⟨halong₁, halong₂⟩ := (Runs.along_append (State.step crypto) hbefore).mp halong
  rw [Runs.run_append, hbefore, Option.bind_some] at hafter
  obtain ⟨s, hbegin, hrun⟩ := (Runs.run_cons_eq_some _).mp hafter
  obtain ⟨hsound, hnumbered⟩ := State.run_sound halong₁ hbefore
  have hcleared := hsound.cleared c _ v hcall rfl
  have hbegins : s.Sound crypto ∧ s.Numbered ∧ s.JudgesRequest crypto v r node credentials :=
    ⟨hsound.step hnumbered rfl hbegin, hnumbered.step hbegin,
      State.judgesRequest_begin hcleared henforced hbegin⟩
  obtain ⟨-, -, request', hrequest, ⟨hnode, hcredentials⟩, hjudged⟩ :=
    Runs.run_invariant (State.step crypto)
      (I := fun s => s.Sound crypto ∧ s.Numbered ∧ s.JudgesRequest crypto v r node credentials)
      (fun _ _ _ hs ha hstep =>
        ⟨hs.1.step hs.2.1 ha hstep, hs.2.1.step hstep, hs.2.2.step hs.1 hstep⟩)
      hbegins (halong₂.2 s hbegin) hrun
  obtain ⟨node', credentials', todo, backendError, stage⟩ := request'
  cases hnode
  cases hcredentials
  refine ⟨stage, todo, backendError, hrequest, hjudged.checked, fun identity hstage => ?_⟩
  exact hjudged.given identity hstage

end Main

/-! ### A deleted key -/

def ingestKey : ApiKeyRecord := ⟨"shipper", "secret", ["ingest"], ["*"]⟩

def oneKey : Db := ⟨[⟨1, "root", "correct horse", "admin", ["*"]⟩], [], [ingestKey], 2⟩

def readsKey (r : ℕ) : List (Act Unit) :=
  [.begin r () [.token "secret"], .proceed r false, .proceed r false, .proceed r false,
    .proceed r false]

def deletesKey : List (Act Unit) :=
  [.call 0 () (.deleteApiKey "shipper"), .advance 0 (.ok ""), .advance 0 (.ok ""), .advance 0 (.ok "")]

/-- A request that has stored its answer before the deletion does not help the next one. -/
theorem judged_by_changed_record_storedBefore :
    ∃ (s : State Unit) (stage : RequestStage) (todo : List Credential) (backendError : Bool),
      Runs.run (State.step plainCrypto) (State.start oneKey)
        ((readsKey 0 ++ [.proceed 0 false] ++ deletesKey) ++
          .begin 1 () [.token "secret"] :: (readsKey 1).tail) = some s ∧
      s.requests 1 = some ⟨(), [.token "secret"], todo, backendError, stage⟩ ∧
      ∀ identity, stage = .done (.as identity) →
        ∃ credential ∈ [Credential.token "secret"], ∃ v, 1 ≤ v ∧ v ≤ s.version ∧
          (s.log v).Grants plainCrypto (credential.key plainCrypto) identity := by
  obtain ⟨stage, todo, backendError, hrequest, -, hgiven⟩ :=
    @judged_by_changed_record Unit _ plainCrypto oneKey
      (readsKey 0 ++ [.proceed 0 false] ++ deletesKey) (readsKey 1).tail _ _ 1 () [.token "secret"]
      (by decide +kernel) rfl rfl 0 1 (.deleteApiKey "shipper") false rfl rfl
  exact ⟨_, stage, todo, backendError, rfl, hrequest, hgiven⟩

/-- **A deleted key that still works.**  A request reads the key; the key is deleted and the deletion is
answered; the request stores what it has read.  The next request with the key finds it in the cache. -/
theorem revoked_key_still_accepted :
    ∃ s₁ s₂ : State Unit,
      Runs.run (State.step plainCrypto) (State.start oneKey) (readsKey 0 ++ deletesKey) = some s₁ ∧
      (s₁.calls 0).map Call.stage = some (.answered (.acknowledged 1 false)) ∧
      (s₁.nodes ()).enforced = true ∧ s₁.db.apiKeys = [] ∧
      Runs.run (State.step plainCrypto) s₁
        [.proceed 0 false, .begin 1 () [.token "secret"], .proceed 1 false] = some s₂ ∧
      s₂.db.apiKeys = [] ∧
      s₂.requests 1
        = some ⟨(), [.token "secret"], [.token "secret"], false, .done (.as (keyIdentity ingestKey))⟩ :=
  ⟨_, _, rfl, by decide, by decide, by decide, rfl, by decide, rfl⟩

end RSearch.Auth
