import Mathlib.Init

/-!
# Labelled transitions and forward simulation

`step s a t` says that the action `a` may take the state `s` to `t`; one action may have
several outcomes. `Steps` takes actions in turn, and an invariant of every step is one of
every run.

A `Simulation` relates the states of two systems so that each step of the first is matched
by one of the second with the same action. Its runs are matched then, and an invariant of
the second system holds of what the first reaches (`Simulation.inv`).
-/

namespace Clib

universe u v w

variable {σ : Type u} {τ : Type v} {α : Type w}

inductive Steps (step : σ → α → σ → Prop) : List α → σ → σ → Prop
  | nil (s : σ) : Steps step [] s s
  | cons {a : α} {as : List α} {s t u : σ} :
      step s a t → Steps step as t u → Steps step (a :: as) s u

namespace Steps

variable {step : σ → α → σ → Prop} {as : List α} {s t : σ}

theorem single {a : α} (h : step s a t) : Steps step [a] s t := .cons h (.nil t)

theorem append {bs : List α} {u : σ} (h : Steps step as s t) (h' : Steps step bs t u) :
    Steps step (as ++ bs) s u := by
  induction h with
  | nil => exact h'
  | cons hstep _ ih => exact .cons hstep (ih h')

/-- **What every step keeps holds at the end of a run.** -/
theorem inv {I : σ → Prop} (hstep : ∀ {s a t}, I s → step s a t → I t) (h : Steps step as s t)
    (hs : I s) : I t := by
  induction h with
  | nil => exact hs
  | cons hst _ ih => exact ih (hstep hs hst)

theorem inv_of_forall {I : σ → Prop} {P : α → Prop}
    (hstep : ∀ {s a t}, P a → I s → step s a t → I t) (h : Steps step as s t)
    (hP : ∀ a ∈ as, P a) (hs : I s) : I t := by
  induction h with
  | nil => exact hs
  | cons hst _ ih =>
    obtain ⟨ha, has⟩ := List.forall_mem_cons.mp hP
    exact ih has (hstep ha hs hst)

theorem forall_of_inv {I : σ → Prop} {P : α → Prop}
    (hstep : ∀ {s a t}, I s → step s a t → I t ∧ P a) (h : Steps step as s t) (hs : I s) :
    ∀ a ∈ as, P a := by
  induction h with
  | nil => exact fun _ ha => absurd ha List.not_mem_nil
  | cons hst _ ih =>
    obtain ⟨hI, hP⟩ := hstep hs hst
    exact List.forall_mem_cons.mpr ⟨hP, ih hI⟩

/-- **A history**: what is computed from the actions alone follows the states. -/
theorem fold {ρ : Type} {f : ρ → α → ρ} {Q : σ → ρ → Prop}
    (hstep : ∀ {s a t r}, Q s r → step s a t → Q t (f r a)) (h : Steps step as s t) {r : ρ}
    (hs : Q s r) : Q t (as.foldl f r) := by
  induction h generalizing r with
  | nil => exact hs
  | cons hst _ ih => exact ih (hstep hs hst)

/-- **The step at which a property is lost**: a run that starts with it and ends without it
has a first step after which it is gone. -/
theorem exists_lost {I : σ → Prop} (h : Steps step as s t) (hs : I s) (ht : ¬I t) :
    ∃ bs a cs u v, as = bs ++ a :: cs ∧ Steps step bs s u ∧ I u ∧ step u a v ∧ ¬I v ∧
      Steps step cs v t := by
  induction h with
  | nil => exact absurd hs ht
  | @cons a as s v t hst hrest ih =>
    by_cases hv : I v
    · obtain ⟨bs, b, cs, u, w, rfl, hbs, hu, hstep, hw, hcs⟩ := ih hv ht
      exact ⟨a :: bs, b, cs, u, w, rfl, .cons hst hbs, hu, hstep, hw, hcs⟩
    · exact ⟨[], a, as, s, v, rfl, .nil s, hs, hst, hv, hrest⟩

end Steps

/-- Each step of the one system is a step of the other. -/
structure Simulation (step : σ → α → σ → Prop) (step' : τ → α → τ → Prop) (R : σ → τ → Prop) :
    Prop where
  match_step : ∀ {s t a s'}, R s t → step s a s' → ∃ t', step' t a t' ∧ R s' t'

namespace Simulation

variable {step : σ → α → σ → Prop} {step' : τ → α → τ → Prop} {R : σ → τ → Prop}

/-- **Each run of the one system is a run of the other**, with the same actions. -/
theorem run (S : Simulation step step' R) {as : List α} {s s' : σ} {t : τ} (hR : R s t)
    (h : Steps step as s s') : ∃ t', Steps step' as t t' ∧ R s' t' := by
  induction h generalizing t with
  | nil => exact ⟨t, .nil t, hR⟩
  | cons hstep _ ih =>
    obtain ⟨u, hu, hRu⟩ := S.match_step hR hstep
    obtain ⟨t', hrun, hR'⟩ := ih hRu
    exact ⟨t', .cons hu hrun, hR'⟩

theorem inv (S : Simulation step step' R) {I : τ → Prop}
    (hinv : ∀ {t a t'}, I t → step' t a t' → I t') {as : List α} {s s' : σ} {t : τ} (hR : R s t)
    (hI : I t) (h : Steps step as s s') : ∃ t', R s' t' ∧ I t' := by
  obtain ⟨t', hrun, hR'⟩ := S.run hR h
  exact ⟨t', hR', hrun.inv hinv hI⟩

end Simulation

end Clib
