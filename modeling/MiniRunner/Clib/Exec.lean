import Mathlib.Init

/-!
# Executions that may stop

A C function runs on a process state and either returns or stops the process.
`Exec S α` is such a computation: a result or a `Halt`, and a state in both
cases, since what a stopped process leaves behind still matters. `wp x Q E s`
says that `x`, started in `s`, returns into `Q` or halts into `E`; the rules
below compute it along the structure of a program. `Keeps I x` says that `x` leads from
an invariant back into it.
-/

namespace Clib

/-- How a process can stop before it returns. -/
inductive Halt where
  /-- The program gives up (`abort`, a failed exit status). -/
  | aborted
  /-- The standard gives the execution no meaning from here on. -/
  | undefined
  /-- A wait that no step of this process can end. -/
  | blocked
  deriving DecidableEq, Repr

/-- A caller that gives up when the callee's return code is not 0. -/
def orAbort {α : Type} (r : Except Halt (Int × α)) : Except Halt α := do
  let (rc, a) ← r
  if rc ≠ 0 then throw .aborted else pure a

/-- A computation on a process state `S`. -/
abbrev Exec (S α : Type) := EStateM Halt S α

namespace Exec

variable {S T α β : Type}

def ofExcept : Except Halt α → Exec S α
  | .ok a => pure a
  | .error e => throw e

/-- Run a pure step on the part of the state that `get` reads and `put` writes. -/
def onPart (get : S → T) (put : S → T → S) (f : T → Except Halt (α × T)) : Exec S α := fun s =>
  match f (get s) with
  | .ok (a, t) => .ok a (put s t)
  | .error e => .error e s

/-- Run a computation on the part of the state that `get` reads and `put` writes. -/
def zoom (get : S → T) (put : S → T → S) (x : Exec T α) : Exec S α := fun s =>
  match x.run (get s) with
  | .ok a t => .ok a (put s t)
  | .error e t => .error e (put s t)

/-- Weakest precondition: `Q` on return, `E` on a halt. -/
def wp (x : Exec S α) (Q : α → S → Prop) (E : Halt → S → Prop) (s : S) : Prop :=
  match x.run s with
  | .ok a s' => Q a s'
  | .error e s' => E e s'

section rules

variable {Q Q' : α → S → Prop} {E E' : Halt → S → Prop} {s : S}

theorem wp_total {f : S → α} {g : S → S} :
    wp (fun s => .ok (f s) (g s) : Exec S α) Q E s ↔ Q (f s) (g s) := Iff.rfl

@[simp] theorem wp_pure (a : α) : wp (pure a : Exec S α) Q E s ↔ Q a s := Iff.rfl

@[simp] theorem wp_throw (e : Halt) : wp (throw e : Exec S α) Q E s ↔ E e s := Iff.rfl

@[simp] theorem wp_bind (x : Exec S β) (f : β → Exec S α) :
    wp (x >>= f) Q E s ↔ wp x (fun b s' => wp (f b) Q E s') E s := by
  simp only [wp, EStateM.run, bind, EStateM.bind]
  cases x s <;> rfl

@[simp] theorem wp_map (g : β → α) (x : Exec S β) :
    wp (g <$> x) Q E s ↔ wp x (fun b s' => Q (g b) s') E s := by
  simp only [wp, EStateM.run, Functor.map, EStateM.map]
  cases x s <;> rfl

@[simp] theorem wp_get {Q : S → S → Prop} : wp (get : Exec S S) Q E s ↔ Q s s := Iff.rfl

@[simp] theorem wp_set {Q : PUnit → S → Prop} (s' : S) :
    wp (set s' : Exec S PUnit) Q E s ↔ Q ⟨⟩ s' := Iff.rfl

@[simp] theorem wp_modify {Q : PUnit → S → Prop} (f : S → S) :
    wp (modify f : Exec S PUnit) Q E s ↔ Q ⟨⟩ (f s) := Iff.rfl

theorem wp_ite {c : Prop} [Decidable c] (x y : Exec S α) :
    wp (if c then x else y) Q E s ↔ (c → wp x Q E s) ∧ (¬c → wp y Q E s) := by
  by_cases h : c <;> simp [h]

theorem wp_ofExcept (r : Except Halt α) :
    wp (ofExcept r) Q E s ↔
      (∀ a, r = .ok a → Q a s) ∧ (∀ e, r = .error e → E e s) := by
  cases r <;> simp [ofExcept]

@[simp] theorem wp_ofExcept_ok (a : α) :
    wp (ofExcept (.ok a) : Exec S α) Q E s ↔ Q a s := Iff.rfl

@[simp] theorem wp_ofExcept_error (e : Halt) :
    wp (ofExcept (.error e) : Exec S α) Q E s ↔ E e s := Iff.rfl

theorem wp_onPart {get : S → T} {put : S → T → S} {f : T → Except Halt (α × T)} :
    wp (onPart get put f) Q E s ↔
      match f (get s) with
      | .ok r => Q r.1 (put s r.2)
      | .error e => E e s := by
  simp only [wp, EStateM.run, onPart]
  cases f (get s) <;> rfl

@[simp] theorem wp_zoom {get : S → T} {put : S → T → S} {x : Exec T α} :
    wp (zoom get put x) Q E s ↔
      wp x (fun a t => Q a (put s t)) (fun e t => E e (put s t)) (get s) := by
  simp only [wp, EStateM.run, zoom]
  cases x (get s) <;> rfl

theorem wp_mono {x : Exec S α} (h : wp x Q E s) (hQ : ∀ a s', Q a s' → Q' a s')
    (hE : ∀ e s', E e s' → E' e s') : wp x Q' E' s := by
  unfold wp at *
  split at h
  · exact hQ _ _ h
  · exact hE _ _ h

theorem wp_next {x rest : Exec S Int} {Q : Int → S → Prop}
    (h : wp x (fun rc s' => rc = 0 ∧ wp rest Q E s') E s) :
    wp (x >>= fun rc => if rc ≠ 0 then pure (-1) else rest) Q E s := by
  rw [wp_bind]
  refine wp_mono h (fun rc s' hrc => ?_) fun _ _ he => he
  rw [if_neg fun hne => hne hrc.1]
  exact hrc.2

theorem wp_true {x : Exec S α} : wp x (fun _ _ => True) (fun _ _ => True) s := by
  unfold wp
  cases x.run s <;> trivial

theorem wp_of_forall {x : Exec S α} (hQ : ∀ a s', Q a s') (hE : ∀ e s', E e s') : wp x Q E s :=
  wp_mono wp_true (fun a s' _ => hQ a s') fun e s' _ => hE e s'

theorem wp_and {x : Exec S α} (h : wp x Q E s) (h' : wp x Q' E' s) :
    wp x (fun a s' => Q a s' ∧ Q' a s') (fun e s' => E e s' ∧ E' e s') s := by
  unfold wp at *
  split at h <;> split at h' <;> simp_all

theorem not_wp_false {x : Exec S α} : ¬wp x (fun _ _ => False) (fun _ _ => False) s := by
  unfold wp
  cases x.run s <;> exact id

/-- Where a computation must return, it returns in a state that every other specification
of it describes too. -/
theorem exists_of_wp {x : Exec S α} {Q R : α → S → Prop} {E : Halt → S → Prop} (h : wp x Q E s)
    (h' : wp x R (fun _ _ => False) s) : ∃ a s', Q a s' ∧ R a s' := by
  refine Classical.byContradiction fun hno => not_wp_false (wp_mono (wp_and h h') ?_ ?_)
  · exact fun a s' ha => hno ⟨a, s', ha⟩
  · exact fun _ _ he => he.2

theorem wp_of_run {x : Exec S α} {a : α} {s' : S} (hrun : x.run s = .ok a s') :
    wp x Q E s ↔ Q a s' := by
  simp only [wp, hrun]

theorem wp_run_ok {x : Exec S α} {a : α} {s' : S} (h : wp x Q E s) (hrun : x.run s = .ok a s') :
    Q a s' := by
  simpa only [wp, hrun] using h

theorem wp_run_error {x : Exec S α} {e : Halt} {s' : S} (h : wp x Q E s)
    (hrun : x.run s = .error e s') : E e s' := by
  simpa only [wp, hrun] using h

theorem wp_iff_exists_run {x : Exec S α} {P : S → Prop} :
    wp x (fun _ s' => P s') (fun _ _ => False) s ↔ ∃ a s', x.run s = .ok a s' ∧ P s' := by
  unfold wp
  cases x.run s with
  | ok a s' =>
    refine ⟨fun h => ⟨a, s', rfl, h⟩, ?_⟩
    rintro ⟨b, t, heq, h⟩
    cases heq
    exact h
  | error e s' => simp

theorem run_of_wp {x : Exec S α} {a : α} {s' : S}
    (h : wp x (fun b t => b = a ∧ t = s') (fun _ _ => False) s) : x.run s = .ok a s' := by
  cases hrun : x.run s with
  | ok b t =>
    obtain ⟨rfl, rfl⟩ := wp_run_ok h hrun
    rfl
  | error e t => exact (wp_run_error h hrun).elim

end rules

/-! ## Invariants -/

/-- Wherever it starts in the invariant, the computation ends in it, by a return or a halt. -/
def Keeps (I : S → Prop) (x : Exec S α) : Prop := ∀ s, I s → wp x (fun _ => I) (fun _ => I) s

namespace Keeps

variable {I : S → Prop}

theorem pure (a : α) : Keeps I (Pure.pure a : Exec S α) := fun _ h => (wp_pure a).mpr h

theorem throw (e : Halt) : Keeps I (MonadExcept.throw e : Exec S α) :=
  fun _ h => (wp_throw e).mpr h

theorem bind {x : Exec S β} {f : β → Exec S α} (hx : Keeps I x) (hf : ∀ b, Keeps I (f b)) :
    Keeps I (x >>= f) := fun s h => by
  rw [wp_bind]
  exact wp_mono (hx s h) (fun b s' hs' => hf b s' hs') fun _ _ he => he

theorem ite {c : Prop} [Decidable c] {x y : Exec S α} (hx : c → Keeps I x)
    (hy : ¬c → Keeps I y) : Keeps I (if c then x else y) := fun s h =>
  (wp_ite x y).mpr ⟨fun hc => hx hc s h, fun hc => hy hc s h⟩

theorem get_bind {f : S → Exec S α} (hf : ∀ s, I s → Keeps I (f s)) :
    Keeps I (get >>= f) := fun s h => by
  rw [wp_bind, wp_get]
  exact hf s h s h

theorem modify {f : S → S} (hf : ∀ s, I s → I (f s)) :
    Keeps I (modify f : Exec S PUnit) := fun s h => (wp_modify f).mpr (hf s h)

theorem ofExcept (r : Except Halt α) : Keeps I (ofExcept r : Exec S α) := by
  cases r with
  | ok a => exact pure a
  | error e => exact throw e

end Keeps

-- a `wp` of a closed program must not be run while its type is read
attribute [irreducible] wp

end Exec

end Clib
