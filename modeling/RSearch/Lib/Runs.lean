import Mathlib

/-!
# Runs of a partial step function

A concurrent component is a state type `σ`, a type `α` of actions, and a partial step function `step : σ
→ α → Option σ`.  An action carries every choice the environment makes, so a run is a list of actions;
`none` says that the action is not possible in that state.
-/

namespace Runs

universe u v

variable {σ : Type u} {α : Type v} (step : σ → α → Option σ)

/-- The state a list of actions leads to, `none` as soon as one of them is not possible. -/
def run : σ → List α → Option σ
  | s, [] => some s
  | s, a :: as => (step s a).bind fun s' => run s' as

/-- What holds where a run ends is decided by running it. -/
instance decidableExistsEqSome {x : Option σ} {p : σ → Prop} [DecidablePred p] :
    Decidable (∃ s, x = some s ∧ p s) :=
  decidable_of_iff (∃ s ∈ x, p s) Iff.rfl

def Along (P : σ → α → Prop) : σ → List α → Prop
  | _, [] => True
  | s, a :: as => P s a ∧ ∀ s', step s a = some s' → Along P s' as

@[simp] theorem run_nil (s : σ) : run step s [] = some s := rfl

@[simp] theorem run_cons (s : σ) (a : α) (as : List α) :
    run step s (a :: as) = (step s a).bind fun s' => run step s' as := rfl

variable {s t : σ} {a : α} {as : List α} {P Q : σ → α → Prop} {I : σ → Prop}

theorem run_cons_eq_some :
    run step s (a :: as) = some t ↔ ∃ s', step s a = some s' ∧ run step s' as = some t := by
  rw [run_cons, Option.bind_eq_some_iff]

theorem run_append (s : σ) (as bs : List α) :
    run step s (as ++ bs) = (run step s as).bind fun s' => run step s' bs := by
  induction as generalizing s with
  | nil => rfl
  | cons a as ih =>
    rw [List.cons_append, run_cons, run_cons, Option.bind_assoc]
    exact Option.bind_congr fun s' _ => ih s'

@[simp] theorem along_nil (P : σ → α → Prop) (s : σ) : Along step P s [] := trivial

theorem along_cons {s' : σ} (hstep : step s a = some s') :
    Along step P s (a :: as) ↔ P s a ∧ Along step P s' as := by
  constructor
  · rintro ⟨hP, htail⟩
    exact ⟨hP, htail s' hstep⟩
  · rintro ⟨hP, htail⟩
    refine ⟨hP, fun t ht => ?_⟩
    rw [hstep] at ht
    exact Option.some.inj ht ▸ htail

theorem along_cons_of_none (hstep : step s a = none) : Along step P s (a :: as) ↔ P s a := by
  constructor
  · exact fun h => h.1
  · refine fun h => ⟨h, fun s' hs' => ?_⟩
    rw [hstep] at hs'
    cases hs'

theorem along_append {bs : List α} (hrun : run step s as = some t) :
    Along step P s (as ++ bs) ↔ Along step P s as ∧ Along step P t bs := by
  induction as generalizing s with
  | nil =>
    cases hrun
    exact (and_iff_right trivial).symm
  | cons a as ih =>
    obtain ⟨s', hstep, htail⟩ := (run_cons_eq_some step).mp hrun
    rw [List.cons_append, along_cons step hstep, along_cons step hstep, ih htail, and_assoc]

instance decidableAlong (P : σ → α → Prop) [∀ s a, Decidable (P s a)] :
    (s : σ) → (as : List α) → Decidable (Along step P s as)
  | _, [] => isTrue trivial
  | s, a :: as =>
    match h : step s a with
    | none => decidable_of_iff _ (along_cons_of_none step h).symm
    | some s' =>
      haveI := decidableAlong P s' as
      decidable_of_iff _ (along_cons step h).symm

theorem along_of_forall (h : ∀ s a, P s a) (s : σ) (as : List α) : Along step P s as := by
  induction as generalizing s with
  | nil => trivial
  | cons a as ih => exact ⟨h s a, fun s' _ => ih s'⟩

theorem Along.last (halong : Along step P s (as ++ [a])) (hrun : run step s as = some t) : P t a := by
  induction as generalizing s with
  | nil =>
    cases hrun
    exact halong.1
  | cons b as ih =>
    obtain ⟨s', hstep, htail⟩ := (run_cons_eq_some step).mp hrun
    exact ih (halong.2 s' hstep) htail

theorem run_invariant (preserved : ∀ s a s', I s → P s a → step s a = some s' → I s') (hI : I s)
    (halong : Along step P s as) (hrun : run step s as = some t) : I t := by
  induction as generalizing s with
  | nil =>
    exact Option.some.inj hrun ▸ hI
  | cons a as ih =>
    obtain ⟨s', hstep, htail⟩ := (run_cons_eq_some step).mp hrun
    obtain ⟨hP, halong'⟩ := (along_cons step hstep).mp halong
    exact ih (preserved s a s' hI hP hstep) halong' htail

theorem Along.of_invariant (halong : Along step P s as)
    (preserved : ∀ s a s', I s → P s a → step s a = some s' → I s') (himp : ∀ s a, I s → P s a → Q s a)
    (hI : I s) : Along step Q s as := by
  induction as generalizing s with
  | nil => trivial
  | cons a as ih =>
    refine ⟨himp s a hI halong.1, fun s' hstep => ?_⟩
    exact ih (halong.2 s' hstep) (preserved s a s' hI halong.1 hstep)

theorem Along.imp (h : ∀ s a, P s a → Q s a) (halong : Along step P s as) : Along step Q s as :=
  halong.of_invariant step (I := fun _ => True) (fun _ _ _ _ _ _ => trivial) (fun s a _ => h s a) trivial

theorem run_invariant_always (preserved : ∀ s a s', I s → step s a = some s' → I s') (hI : I s)
    (hrun : run step s as = some t) : I t :=
  run_invariant step (P := fun _ _ => True) (fun s a s' hs _ => preserved s a s' hs) hI
    (along_of_forall step (fun _ _ => trivial) s as) hrun

end Runs
