import Mathlib

/-!
# The first entries of a list in an order

Lists are ordered by a total and transitive relation `r` that need not be antisymmetric: entries may
tie.  A list is apart when no two of its entries do; then its order is the only one there is, and
the following are equations rather than facts up to permutation.
-/

namespace TopK

open List

universe u v

variable {α : Type u} {β : Type v} (r : α → α → Prop)

def Before (a b : α) : Prop := ¬ r b a

def Apart (l : List α) : Prop := l.Pairwise fun a b => ¬ (r a b ∧ r b a)

def first [DecidableRel r] (k : ℕ) (l : List α) : List α := (l.insertionSort r).take k

instance [DecidableRel r] (a b : α) : Decidable (Before r a b) := inferInstanceAs (Decidable (¬ r b a))

def past [DecidableRel r] (a : α) (l : List α) : List α := l.filter fun b => decide (Before r a b)

variable {r}

/-! ### Lists that are apart -/

variable {l l' : List α} {a b top : α} {k : ℕ} {parts : List β} {f : β → List α}

theorem Apart.sublist (h : Apart r l) (hsub : l'.Sublist l) : Apart r l' :=
  List.Pairwise.sublist hsub h

theorem Apart.perm (h : Apart r l) (hperm : l.Perm l') : Apart r l' := by
  refine (hperm.pairwise_iff ?_).mp h
  grind

theorem Apart.eq_of_tie (h : Apart r l) (ha : a ∈ l) (hb : b ∈ l) (hab : r a b) (hba : r b a) :
    a = b := by
  have : Std.Symm fun a b => ¬ (r a b ∧ r b a) := ⟨fun a b hnot hba => hnot ⟨hba.2, hba.1⟩⟩
  by_contra hne
  exact List.Pairwise.forall h ha hb hne ⟨hab, hba⟩

theorem Apart.nodup [Std.Total r] (h : Apart r l) : l.Nodup := by
  refine List.Pairwise.imp ?_ h
  intro a b hnot heq
  have hself : r a a := (Std.Total.total a a).elim id id
  exact hnot (heq ▸ ⟨hself, hself⟩)

theorem Before.rel [Std.Total r] (h : Before r a b) : r a b :=
  (Std.Total.total a b).resolve_right h

theorem Before.trans [Std.Total r] [IsTrans α r] {c : α} (h : Before r a b) (h' : Before r b c) :
    Before r a c :=
  fun hca => h (IsTrans.trans _ _ _ h'.rel hca)

theorem not_before_self [Std.Total r] (a : α) : ¬ Before r a a :=
  fun h => h ((Std.Total.total a a).elim id id)

variable [DecidableRel r] [Std.Total r] [IsTrans α r]

theorem pairwise_before_insertionSort (h : Apart r l) : (l.insertionSort r).Pairwise (Before r) := by
  have happart : Apart r (l.insertionSort r) := h.perm (perm_insertionSort _ _).symm
  refine ((pairwise_insertionSort r l).and happart).imp ?_
  rintro a b ⟨hab, hnot⟩ hba
  exact hnot ⟨hab, hba⟩

theorem insertionSort_eq_of_perm (h : Apart r l) (hperm : l.Perm l') (hsorted : l'.Pairwise r) :
    l.insertionSort r = l' := by
  refine Perm.eq_of_pairwise ?_ (pairwise_insertionSort _ _) hsorted ((perm_insertionSort _ _).trans hperm)
  intro a b ha hb hab hba
  exact h.eq_of_tie ((mem_insertionSort r).mp ha) (hperm.mem_iff.mpr hb) hab hba

theorem insertionSort_filter (h : Apart r l) (p : α → Bool) :
    (l.filter p).insertionSort r = (l.insertionSort r).filter p :=
  insertionSort_eq_of_perm (h.sublist filter_sublist) ((perm_insertionSort _ _).filter p).symm
    ((pairwise_insertionSort _ _).sublist filter_sublist)

/-! ### Ranks -/

omit [IsTrans α r] in
theorem mem_take_iff (h : l.Pairwise (Before r)) :
    a ∈ l.take k ↔ a ∈ l ∧ (l.countP fun b => decide (Before r b a)) < k := by
  induction l generalizing k with
  | nil => simp
  | cons b l ih =>
    obtain ⟨hb, hl⟩ := pairwise_cons.mp h
    cases k with
    | zero => simp
    | succ k =>
      by_cases hab : a = b
      · subst hab
        have hnone : (l.countP fun c => decide (Before r c a)) = 0 := by
          refine countP_eq_zero.mpr fun c hc => ?_
          rw [decide_eq_true_iff]
          exact fun hca => hca (hb c hc).rel
        simp [hnone, not_before_self]
      · grind

theorem mem_first_iff (h : Apart r l) :
    a ∈ first r k l ↔ a ∈ l ∧ (l.countP fun b => decide (Before r b a)) < k := by
  rw [first, mem_take_iff (pairwise_before_insertionSort h), mem_insertionSort,
    (perm_insertionSort r l).countP_eq]

theorem take_filter {p : α → Bool} (h : ∀ a ∈ l.take k, p a = true) :
    (l.filter p).take k = l.take k := by
  induction l generalizing k with
  | nil => rfl
  | cons a l ih =>
    cases k with
    | zero => rfl
    | succ k =>
      grind

theorem flatMap_sublist {g : β → List α} (h : ∀ b ∈ parts, (f b).Sublist (g b)) :
    (parts.flatMap f).Sublist (parts.flatMap g) := by
  induction parts with
  | nil => exact Sublist.refl _
  | cons b parts ih =>
    grind

omit [Std.Total r] [IsTrans α r] in
theorem Apart.flatMap_first (h : Apart r (parts.flatMap f)) (k : ℕ) :
    Apart r (parts.flatMap fun b => first r k (f b)) := by
  have hperm : (parts.flatMap fun b => (f b).insertionSort r).Perm (parts.flatMap f) :=
    Perm.flatMap_left parts fun b _ => perm_insertionSort r (f b)
  exact (h.perm hperm.symm).sublist (flatMap_sublist fun b _ => take_sublist k _)

omit [Std.Total r] [IsTrans α r] in
theorem map_first {s : β → β → Prop} [DecidableRel s] {f : α → β} (k : ℕ)
    (h : ∀ a ∈ l, ∀ b ∈ l, r a b ↔ s (f a) (f b)) : (first r k l).map f = first s k (l.map f) := by
  rw [first, first, map_take, map_insertionSort r s f l h]

theorem first_flatMap (h : Apart r (parts.flatMap f)) (k : ℕ) :
    first r k (parts.flatMap fun b => first r k (f b)) = first r k (parts.flatMap f) := by
  classical
  set given := parts.flatMap fun b => first r k (f b) with hgiven
  have hsub : ∀ b ∈ parts, (f b).Sublist (parts.flatMap f) := fun b hb => by
    exact sublist_flatten_of_mem (mem_map_of_mem hb)
  -- an entry with fewer than `k` before it in the whole has fewer than `k` before it in its part
  have hfirst : ∀ a ∈ first r k (parts.flatMap f), a ∈ given := by
    intro a ha
    obtain ⟨hmem, hrank⟩ := (mem_first_iff h).mp ha
    obtain ⟨b, hb, hab⟩ := mem_flatMap.mp hmem
    refine mem_flatMap.mpr ⟨b, hb, (mem_first_iff (h.sublist (hsub b hb))).mpr ⟨hab, ?_⟩⟩
    exact ((hsub b hb).countP_le).trans_lt hrank
  have hperm : given.Perm ((parts.flatMap f).filter fun a => decide (a ∈ given)) := by
    refine (perm_ext_iff_of_nodup (h.flatMap_first k).nodup (h.nodup.filter _)).mpr fun a => ?_
    rw [mem_filter, decide_eq_true_iff]
    refine ⟨fun ha => ⟨?_, ha⟩, fun ha => ha.2⟩
    obtain ⟨b, hb, hab⟩ := mem_flatMap.mp ha
    exact (hsub b hb).subset ((mem_insertionSort r).mp (mem_of_mem_take hab))
  have hsorted : given.insertionSort r =
      ((parts.flatMap f).insertionSort r).filter fun a => decide (a ∈ given) := by
    rw [← insertionSort_filter h]
    exact insertionSort_eq_of_perm (h.flatMap_first k)
      (hperm.trans (perm_insertionSort _ _).symm) (pairwise_insertionSort _ _)
  rw [first, hsorted]
  exact take_filter fun a ha => decide_eq_true (hfirst a ha)

/-! ### Keeping the first entries -/

/-- **An entry is offered to a bounded heap**, which is written as the list of its entries in order: it is
taken as long as there is room, and in place of the last one if it comes before that. -/
def offer (r : α → α → Prop) [DecidableRel r] (k : ℕ) (heap : List α) (a : α) : List α :=
  if heap.length < k then heap.orderedInsert r a
  else
    match heap.getLast? with
    | none => heap
    | some top => if Before r a top then heap.dropLast.orderedInsert r a else heap

omit [IsTrans α r] in
theorem take_orderedInsert_of_before (htop : l[k]? = some top) (ha : Before r a top) :
    (l.orderedInsert r a).take (k + 1) = (l.take k).orderedInsert r a := by
  induction l generalizing k with
  | nil => cases htop
  | cons b l ih =>
    by_cases hab : r a b
    · grind
    · cases k with
      | zero =>
        obtain rfl : b = top := Option.some.inj htop
        exact absurd ha.rel hab
      | succ k =>
        grind

theorem take_orderedInsert_of_after (hl : l.Pairwise (Before r)) (htop : l[k]? = some top)
    (ha : Before r top a) : (l.orderedInsert r a).take (k + 1) = l.take (k + 1) := by
  induction l generalizing k with
  | nil => cases htop
  | cons b l ih =>
    obtain ⟨hb, htail⟩ := pairwise_cons.mp hl
    have hba : Before r b a := by
      cases k with
      | zero =>
        grind
      | succ k => exact (hb top (mem_of_getElem? (by simpa using htop))).trans ha
    rw [orderedInsert_of_not_le r l hba, take_succ_cons, take_succ_cons]
    grind

theorem offer_first (hk : 0 < k) (h : Apart r (l ++ [a])) :
    offer r k (first r k l) a = first r k (l ++ [a]) := by
  have hl : Apart r l := h.sublist (sublist_append_left _ _)
  have hinsert : (l ++ [a]).insertionSort r = (l.insertionSort r).orderedInsert r a := by
    refine insertionSort_eq_of_perm h ?_ ((pairwise_insertionSort r l).orderedInsert a _)
    refine (perm_append_singleton a l).trans ?_
    exact ((perm_insertionSort r l).symm.cons a).trans (perm_orderedInsert r a _).symm
  obtain ⟨k, rfl⟩ : ∃ k', k = k' + 1 := ⟨k - 1, by omega⟩
  rw [first, first, hinsert, offer]
  by_cases hroom : l.length < k + 1
  · have hall : (l.insertionSort r).take (k + 1) = l.insertionSort r :=
      take_of_length_le (by rw [length_insertionSort]; omega)
    rw [hall, length_insertionSort, if_pos hroom, take_of_length_le]
    rw [orderedInsert_length, length_insertionSort]
    omega
  · have hlength : (l.insertionSort r).length = l.length := length_insertionSort r l
    have hfull : ¬ ((l.insertionSort r).take (k + 1)).length < k + 1 := by
      rw [length_take]
      omega
    obtain ⟨top, htop⟩ : ∃ top, (l.insertionSort r)[k]? = some top :=
      ⟨_, getElem?_eq_getElem (by omega)⟩
    have hlast : ((l.insertionSort r).take (k + 1)).getLast? = some top := by
      rw [getLast?_take, if_neg (Nat.succ_ne_zero k)]
      simp [htop]
    rw [if_neg hfull, hlast]
    by_cases hbefore : Before r a top
    · simp only [if_pos hbefore]
      have hdrop : ((l.insertionSort r).take (k + 1)).dropLast = (l.insertionSort r).take k := by
        rw [dropLast_eq_take, take_take, length_take]
        congr 1
        omega
      rw [take_orderedInsert_of_before htop hbefore, hdrop]
    · simp only [if_neg hbefore]
      have hne : Before r top a := by
        intro hat
        have hmem : top ∈ l := (mem_insertionSort r).mp (mem_of_getElem? htop)
        have hta : r top a := not_not.mp hbefore
        exact (pairwise_append.mp h).2.2 top hmem a (mem_singleton.mpr rfl) ⟨hta, hat⟩
      rw [take_orderedInsert_of_after (pairwise_before_insertionSort hl) htop hne]

theorem foldl_offer (hk : 0 < k) (h : Apart r l) : l.foldl (offer r k) [] = first r k l := by
  induction l using List.reverseRecOn with
  | nil => simp [first]
  | append_singleton l a ih =>
    rw [foldl_append, ih (h.sublist (sublist_append_left _ _))]
    exact offer_first hk h

/-! ### Pages -/

theorem insertionSort_eq_first_append (h : Apart r l) (hlast : (first r k l).getLast? = some a) :
    l.insertionSort r = first r k l ++ (past r a l).insertionSort r := by
  have hsplit : first r k l ++ (l.insertionSort r).drop k = l.insertionSort r :=
    take_append_drop _ _
  have hsorted : (first r k l ++ (l.insertionSort r).drop k).Pairwise (Before r) := by
    rw [hsplit]
    exact pairwise_before_insertionSort h
  obtain ⟨init, hinit⟩ := getLast?_eq_some_iff.mp hlast
  obtain ⟨hfirst, _, hacross⟩ := pairwise_append.mp hsorted
  have hnone : (first r k l).filter (fun b => decide (Before r a b)) = [] := by
    refine filter_eq_nil_iff.mpr fun b hb => ?_
    rw [decide_eq_true_iff]
    rw [hinit] at hb hfirst
    rcases mem_append.mp hb with hb | hb
    · exact fun hab => hab ((pairwise_append.mp hfirst).2.2 b hb a mem_cons_self).rel
    · rw [mem_singleton.mp hb]
      exact not_before_self a
  have hall : ((l.insertionSort r).drop k).filter (fun b => decide (Before r a b))
      = (l.insertionSort r).drop k := by
    refine filter_eq_self.mpr fun b hb => decide_eq_true ?_
    exact hacross a (hinit ▸ mem_append_right _ mem_cons_self) b hb
  have hpast : (past r a l).insertionSort r = (l.insertionSort r).drop k := by
    rw [past, insertionSort_filter h, ← hsplit, filter_append, hnone, nil_append, hsplit, hall]
  rw [hpast, hsplit]

/-- A page is right if nothing of the entries before it is kept, and everything on it. -/
theorem first_filter_eq {p : α → Bool} (h : Apart r l) {m : ℕ}
    (hbefore : ∀ a ∈ (l.insertionSort r).take m, p a = false)
    (hpage : ∀ a ∈ ((l.insertionSort r).drop m).take k, p a = true) :
    first r k (l.filter p) = ((l.insertionSort r).drop m).take k := by
  have hnone : ((l.insertionSort r).take m).filter p = [] := filter_eq_nil_iff.mpr (by simpa using hbefore)
  rw [first, insertionSort_filter h, ← take_append_drop m (l.insertionSort r), filter_append, hnone,
    nil_append, take_append_drop]
  generalize (l.insertionSort r).drop m = rest at hpage ⊢
  nth_rewrite 1 [← take_append_drop k rest]
  rw [filter_append, filter_eq_self.mpr hpage]
  rcases le_total k rest.length with hle | hle
  · rw [take_append_of_le_length (by simp [hle]), take_take, min_self]
  · rw [drop_of_length_le hle, filter_nil, append_nil, take_take, min_self]

/-- **Following the pages.**  `ask` answers with a page, past a cursor if one is given; the cursor is
made of the last entry of the page before.  `none` if the pages do not end within `n` questions. -/
def follow {ε : Type} {γ : Type} (ask : Option γ → Except ε (List α)) (cursor : α → γ) :
    ℕ → Option γ → Except ε (Option (List α))
  | 0, _ => .ok none
  | n + 1, c => do
    let page ← ask c
    match page.getLast? with
    | none => return some []
    | some a =>
      let rest ← follow ask cursor n (some (cursor a))
      return rest.map (page ++ ·)

section Follow

variable {ε γ : Type} {ask : Option γ → Except ε (List α)} {cursor : α → γ}

omit [DecidableRel r] [Std.Total r] [IsTrans α r]

variable {c : Option γ}

theorem follow_of_nil {n : ℕ} (hask : ask c = .ok []) :
    follow ask cursor (n + 1) c = .ok (some []) := by
  rw [follow, hask]
  rfl

theorem follow_of_getLast? {n : ℕ} {page : List α} {a : α} (hask : ask c = .ok page)
    (hlast : page.getLast? = some a) :
    follow ask cursor (n + 1) c = (follow ask cursor n (some (cursor a))).map (Option.map (page ++ ·)) := by
  rw [follow, hask]
  simp only [bind, Except.bind, hlast]
  cases follow ask cursor n (some (cursor a)) <;> rfl

/-- **The pages of a list**: `ask` answers with the next `k` entries past the end of each page, the last of
which may be shorter. -/
theorem follow_eq_of_ends {k n : ℕ} {l : List α} (hk : 0 < k) (hn : l.length < n)
    (hfirst : ask none = .ok (l.take k))
    (hnext : ∀ m a, 0 < m → k ∣ m ∨ m = l.length → l[m - 1]? = some a →
      ask (some (cursor a)) = .ok ((l.drop m).take k)) :
    follow ask cursor n none = .ok (some l) := by
  have hrest : ∀ n m (c : Option γ), l.length - m < n → k ∣ m ∨ m = l.length →
      ask c = .ok ((l.drop m).take k) → follow ask cursor n c = .ok (some (l.drop m)) := by
    intro n
    induction n with
    | zero => omega
    | succ n ih =>
      intro m c hlen hend hask
      rcases lt_or_ge m l.length with hlt | hge
      · -- the page ends after the entry before `next`
        have hdvd : k ∣ m := hend.resolve_right (by omega)
        have hpage : (l.drop m).take k ++ l.drop (min (m + k) l.length) = l.drop m := by
          rcases le_total (m + k) l.length with hle | hle
          · rw [min_eq_left hle, ← drop_drop, take_append_drop]
          · rw [min_eq_right hle, drop_length, append_nil, take_of_length_le (by simp; omega)]
        have hlast : ((l.drop m).take k).getLast? = l[min (m + k) l.length - 1]? := by
          rw [getLast?_eq_getElem?, getElem?_take, getElem?_drop, length_take, length_drop, if_pos (by omega)]
          congr 1
          omega
        have hnextEnd : k ∣ min (m + k) l.length ∨ min (m + k) l.length = l.length := by
          rcases le_total (m + k) l.length with hle | hle
          · rw [min_eq_left hle]
            exact .inl (Nat.dvd_add_self_right.mpr hdvd)
          · exact .inr (min_eq_right hle)
        have hin : min (m + k) l.length - 1 < l.length := by omega
        rw [getElem?_eq_getElem hin] at hlast
        rw [follow_of_getLast? hask hlast, ih _ _ (by omega) hnextEnd
          (hnext _ _ (by omega) hnextEnd (getElem?_eq_getElem hin))]
        exact congrArg (Except.ok ∘ some) hpage
      · rw [drop_of_length_le hge, take_nil] at hask
        rw [follow_of_nil hask, drop_of_length_le hge]
  exact hrest n 0 none (by omega) (.inl (dvd_zero k)) hfirst

theorem follow_mono {n m : ℕ} {l : List α} (h : follow ask cursor n c = .ok (some l)) (hnm : n ≤ m) :
    follow ask cursor m c = .ok (some l) := by
  induction n generalizing m c l with
  | zero => cases h
  | succ n ih =>
    obtain ⟨m, rfl⟩ : ∃ m', m = m' + 1 := ⟨m - 1, by omega⟩
    cases hask : ask c with
    | error e =>
      rw [follow, hask] at h
      cases h
    | ok page =>
      cases hlast : page.getLast? with
      | none =>
        rw [getLast?_eq_none_iff.mp hlast] at hask
        rw [follow_of_nil hask] at h ⊢
        exact h
      | some a =>
        rw [follow_of_getLast? hask hlast] at h ⊢
        cases hrest : follow ask cursor n (some (cursor a)) with
        | error e =>
          rw [hrest] at h
          cases h
        | ok rest =>
          cases rest with
          | none =>
            rw [hrest] at h
            cases h
          | some rest =>
            grind

end Follow

theorem follow_eq_insertionSort {ε γ : Type} {ask : Option γ → Except ε (List α)} {cursor : α → γ}
    {n : ℕ} (h : Apart r l) (hk : 0 < k) (hn : l.length < n) (hfirst : ask none = .ok (first r k l))
    (hnext : ∀ a ∈ l, ask (some (cursor a)) = .ok (first r k (past r a l))) :
    follow ask cursor n none = .ok (some (l.insertionSort r)) := by
  refine follow_eq_of_ends hk (by rwa [length_insertionSort]) hfirst fun m a hm _ hget => ?_
  have hlt : m - 1 < (l.insertionSort r).length := (List.getElem?_eq_some_iff.mp hget).1
  have hlast : (first r m l).getLast? = some a := by
    rw [first, getLast?_eq_getElem?, length_take, min_eq_left (by omega), getElem?_take,
      if_pos (by omega), hget]
  -- past the end of a page comes what is left of the sorted list
  have hpast : first r m l ++ (past r a l).insertionSort r
      = first r m l ++ (l.insertionSort r).drop m := by
    rw [← insertionSort_eq_first_append h hlast, first, take_append_drop]
  rw [hnext a ((mem_insertionSort r).mp (mem_of_getElem? hget)), first, append_cancel_left hpast]

end TopK
