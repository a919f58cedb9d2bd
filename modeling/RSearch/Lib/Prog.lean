import Mathlib

/-!
# Computations that can fail part-way

`Prog σ ε α` is a computation over a state `σ` that returns a value or fails with an error, and keeps
the state it had reached when it failed: what file operations leave behind when one of them fails.
-/

universe u v w

/-- A computation over a state that returns a value or fails, keeping the state either way. -/
def Prog (σ : Type u) (ε : Type v) (α : Type w) : Type (max u v w) :=
  σ → Except ε α × σ

namespace Prog

variable {σ : Type u} {ε : Type v} {α β : Type w}

def bind (x : Prog σ ε α) (f : α → Prog σ ε β) : Prog σ ε β := fun s =>
  match x s with
  | (.ok a, s') => f a s'
  | (.error e, s') => (.error e, s')

instance : Monad (Prog σ ε) where
  pure a := fun s => (.ok a, s)
  bind := bind

def throw (e : ε) : Prog σ ε α := fun s => (.error e, s)

def gets (f : σ → α) : Prog σ ε α := fun s => (.ok (f s), s)

def modify (f : σ → σ) : Prog σ ε PUnit.{w + 1} := fun s => (.ok ⟨⟩, f s)

def when (p : Prop) [Decidable p] (x : Prog σ ε PUnit.{w + 1}) : Prog σ ε PUnit.{w + 1} :=
  if p then x else pure ⟨⟩

def forM {γ : Type*} : List γ → (γ → Prog σ ε PUnit.{w + 1}) → Prog σ ε PUnit.{w + 1}
  | [], _ => pure ⟨⟩
  | c :: cs, f => bind (f c) fun _ => forM cs f

variable {x : Prog σ ε α} {f : α → Prog σ ε β}

theorem bind_of_ok {s s' : σ} {a : α} (h : x s = (.ok a, s')) : (x >>= f) s = f a s' := by
  show bind x f s = f a s'
  rw [bind, h]

theorem bind_of_error {s s' : σ} {e : ε} (h : x s = (.error e, s')) : (x >>= f) s = (.error e, s') := by
  show bind x f s = (.error e, s')
  rw [bind, h]

theorem forM_append {γ : Type*} (cs ds : List γ) (f : γ → Prog σ ε PUnit) :
    forM (cs ++ ds) f = (forM cs f >>= fun _ => forM ds f) := by
  induction cs with
  | nil => rfl
  | cons c cs ih =>
    funext s
    show bind (f c) (fun _ => forM (cs ++ ds) f) s
      = bind (bind (f c) fun _ => forM cs f) (fun _ => forM ds f) s
    rw [ih]
    simp only [bind]
    split <;> rfl

def Triple (P : σ → Prop) (x : Prog σ ε α) (Q : α → σ → Prop) (E : σ → Prop) : Prop :=
  ∀ s, P s → match x s with
    | (.ok a, s') => Q a s'
    | (.error _, s') => E s'

namespace Triple

variable {P P' : σ → Prop} {Q Q' : α → σ → Prop} {R : β → σ → Prop} {E E' : σ → Prop}

variable {x : Prog σ ε α}

theorem conseq (h : Triple P' x Q' E') (hpre : ∀ s, P s → P' s) (hpost : ∀ a s, Q' a s → Q a s)
    (herr : ∀ s, E' s → E s) : Triple P x Q E := by
  intro s hs
  have hx := h s (hpre s hs)
  split <;> simp_all

theorem and (h : Triple P x Q E) (h' : Triple P' x Q' E') :
    Triple (fun s => P s ∧ P' s) x (fun a s => Q a s ∧ Q' a s) (fun s => E s ∧ E' s) := by
  intro s hs
  have hx := h s hs.1
  have hx' := h' s hs.2
  split <;> simp_all

theorem of_forall (h : ∀ s₀, P s₀ → Triple (· = s₀) x Q E) : Triple P x Q E :=
  fun s hs => h s hs s rfl

theorem pure {a : α} (h : ∀ s, P s → Q a s) : Triple P (Pure.pure a : Prog σ ε α) Q E := h

theorem throw {e : ε} (h : ∀ s, P s → E s) : Triple P (Prog.throw e : Prog σ ε α) Q E := h

theorem gets {f : σ → α} (h : ∀ s, P s → Q (f s) s) : Triple P (Prog.gets f : Prog σ ε α) Q E := h

theorem modify {f : σ → σ} {Q : PUnit → σ → Prop} (h : ∀ s, P s → Q ⟨⟩ (f s)) :
    Triple P (Prog.modify f : Prog σ ε PUnit) Q E := h

theorem bind {f : α → Prog σ ε β} (hx : Triple P x Q E) (hf : ∀ a, Triple (Q a) (f a) R E) :
    Triple P (x >>= f) R E := by
  intro s hs
  have h := hx s hs
  show match Prog.bind x f s with
    | (.ok a, s') => R a s'
    | (.error _, s') => E s'
  unfold Prog.bind
  split at h
  · next a s' _ => exact hf a s' h
  · exact h

theorem ite {p : Prop} [Decidable p] {y : Prog σ ε α} (hx : p → Triple P x Q E)
    (hy : ¬ p → Triple P y Q E) : Triple P (if p then x else y) Q E := by
  split_ifs with hp
  · exact hx hp
  · exact hy hp

theorem when {p : Prop} [Decidable p] {x : Prog σ ε PUnit} {Q : PUnit → σ → Prop}
    (hx : p → Triple P x Q E) (hskip : ¬ p → ∀ s, P s → Q ⟨⟩ s) : Triple P (Prog.when p x) Q E :=
  ite hx fun hp => pure (hskip hp)

theorem forM {γ : Type*} {f : γ → Prog σ ε PUnit} {I : List γ → σ → Prop} {cs : List γ}
    (h : ∀ done c rest, done ++ c :: rest = cs → Triple (I done) (f c) (fun _ => I (done ++ [c])) E) :
    Triple (I []) (Prog.forM cs f) (fun _ => I cs) E := by
  suffices hsuffix : ∀ rest done, done ++ rest = cs →
      Triple (I done) (Prog.forM rest f) (fun _ => I cs) E from hsuffix cs [] rfl
  intro rest
  induction rest with
  | nil =>
    rintro done rfl
    rw [List.append_nil]
    exact pure fun _ hs => hs
  | cons c rest ih =>
    intro done hdone
    exact bind (h done c rest hdone) fun _ => ih (done ++ [c]) (by simpa using hdone)

end Triple

end Prog
