import Mathlib.Init

/-!
# Runs of a stepping system

`step a s` is what the action `a` does in the state `s`, when it is enabled there. A
run takes a list of actions in turn. `Every` says something of each step of a run;
used as an assumption it restricts the order of steps, used as a conclusion it says
what holds all along. The two rules carry an invariant through a run whose steps meet
an assumption: `every_of_inv` to all its steps and `runs_keeps` to its last state.

Where every step lowers a measure, the runs are bounded and each can be taken to a state
where nothing is enabled.

A guard says of each action whether it may be taken where it is taken; it is exact where it
says which actions are enabled and keep an invariant (`guarded_iff`).

A view of the state that some actions change in their own terms, and the others not at
all, is what the visible actions alone make of it (`view_foldl`).
-/

namespace Clib

variable {σ α : Type} (step : α → σ → Option σ)

def runs : List α → σ → Option σ
  | [], s => some s
  | a :: as, s =>
    match step a s with
    | none => none
    | some s' => runs as s'

/-- Each step of the run, from `s` by `a` to `s'`, meets `P s a s'`. -/
def Every (P : σ → α → σ → Prop) : List α → σ → Prop
  | [], _ => True
  | a :: as, s =>
    match step a s with
    | none => True
    | some s' => P s a s' ∧ Every P as s'

instance Every.decidable (P : σ → α → σ → Prop) [∀ s a s', Decidable (P s a s')] :
    ∀ (as : List α) (s : σ), Decidable (Every step P as s)
  | [], _ => inferInstanceAs (Decidable True)
  | a :: as, s =>
    match hs : step a s with
    | none => decidable_of_iff True (by simp [Every, hs])
    | some s' =>
      have := Every.decidable P as s'
      decidable_of_iff (P s a s' ∧ Every step P as s') (by simp [Every, hs])

variable {step}

theorem runs_cons {a : α} {as : List α} {s s' : σ} :
    runs step (a :: as) s = some s' ↔ ∃ t, step a s = some t ∧ runs step as t = some s' := by
  cases h : step a s <;> simp [runs, h]

theorem runs_append {as bs : List α} {s t u : σ} (h : runs step as s = some t)
    (h' : runs step bs t = some u) : runs step (as ++ bs) s = some u := by
  induction as generalizing s with
  | nil =>
    cases h
    exact h'
  | cons a as ih =>
    obtain ⟨t', ht', hrest⟩ := runs_cons.mp h
    exact runs_cons.mpr ⟨t', ht', ih hrest⟩

theorem runs_mono {step' : α → σ → Option σ}
    (h : ∀ {a s s'}, step a s = some s' → step' a s = some s') {as : List α} {s s' : σ}
    (hrun : runs step as s = some s') : runs step' as s = some s' := by
  induction as generalizing s with
  | nil => exact hrun
  | cons a as ih =>
    obtain ⟨t, ht, hrest⟩ := runs_cons.mp hrun
    exact runs_cons.mpr ⟨t, h ht, ih hrest⟩

theorem every_cons {P : σ → α → σ → Prop} {a : α} {as : List α} {s : σ} :
    Every step P (a :: as) s ↔ ∀ t, step a s = some t → P s a t ∧ Every step P as t := by
  cases h : step a s <;> simp [Every, h]

/-- **What every step keeps holds all along the run**, with what it gives for the step. -/
theorem every_of_inv {G P : σ → α → σ → Prop} {I : σ → Prop}
    (hstep : ∀ {s a s'}, I s → G s a s' → step a s = some s' → I s' ∧ P s a s') (as : List α) :
    ∀ {s : σ}, I s → Every step G as s → Every step P as s := by
  induction as with
  | nil => exact fun _ _ => trivial
  | cons a as ih =>
    intro s hI hG
    refine every_cons.mpr fun t ht => ?_
    obtain ⟨hGa, hGas⟩ := every_cons.mp hG t ht
    obtain ⟨hIt, hP⟩ := hstep hI hGa ht
    exact ⟨hP, ih hIt hGas⟩

/-- **What every step keeps holds at the end of the run.** -/
theorem runs_keeps {G : σ → α → σ → Prop} {I : σ → Prop}
    (hstep : ∀ {s a s'}, I s → G s a s' → step a s = some s' → I s') (as : List α) :
    ∀ {s s' : σ}, I s → Every step G as s → runs step as s = some s' → I s' := by
  induction as with
  | nil =>
    intro s s' hI _ hrun
    cases hrun
    exact hI
  | cons a as ih =>
    intro s s' hI hG hrun
    obtain ⟨t, ht, hrest⟩ := runs_cons.mp hrun
    obtain ⟨hGa, hGas⟩ := every_cons.mp hG t ht
    exact ih (hstep hI hGa ht) hGas hrest

theorem every_true (as : List α) : ∀ s : σ, Every step (fun _ _ _ => True) as s := by
  induction as with
  | nil => exact fun _ => trivial
  | cons a as ih => exact fun s => every_cons.mpr fun t _ => ⟨trivial, ih t⟩

theorem every_of_forall_mem {P : α → Prop} (as : List α) (h : ∀ a ∈ as, P a) :
    ∀ s : σ, Every step (fun _ a _ => P a) as s := by
  induction as with
  | nil => exact fun _ => trivial
  | cons a as ih =>
    obtain ⟨ha, has⟩ := List.forall_mem_cons.mp h
    exact fun s => every_cons.mpr fun t _ => ⟨ha, ih has t⟩

theorem runs_inv {I : σ → Prop} (hstep : ∀ {s a s'}, I s → step a s = some s' → I s')
    {as : List α} {s s' : σ} (h : I s) (hrun : runs step as s = some s') : I s' :=
  runs_keeps (G := fun _ _ _ => True) (fun hI _ hs => hstep hI hs) as h (every_true as s) hrun

theorem every_congr {P G : σ → α → σ → Prop} {I : σ → Prop}
    (hstep : ∀ {s a s'}, I s → step a s = some s' → I s' ∧ (P s a s' ↔ G s a s')) (as : List α)
    {s : σ} (h : I s) : Every step P as s ↔ Every step G as s := by
  induction as generalizing s with
  | nil => exact Iff.rfl
  | cons a as ih =>
    rw [every_cons, every_cons]
    refine forall_congr' fun t => forall_congr' fun ht => ?_
    obtain ⟨hI, hiff⟩ := hstep h ht
    exact and_congr hiff (ih hI)

/-- **The exact guard of an invariant**: where it holds, `G` says which steps keep it. -/
theorem every_inv_iff {G : σ → α → Prop} {I : σ → Prop}
    (hstep : ∀ {s a s'}, I s → step a s = some s' → (I s' ↔ G s a)) (as : List α) :
    ∀ {s : σ}, I s →
      (Every step (fun _ _ s' => I s') as s ↔ Every step (fun s a _ => G s a) as s) := by
  induction as with
  | nil => exact fun _ => Iff.rfl
  | cons a as ih =>
    intro s hI
    rw [every_cons, every_cons]
    refine forall_congr' fun t => forall_congr' fun ht => ?_
    constructor
    · rintro ⟨hIt, hrest⟩
      exact ⟨(hstep hI ht).mp hIt, (ih hIt).mp hrest⟩
    · rintro ⟨hG, hrest⟩
      have hIt := (hstep hI ht).mpr hG
      exact ⟨hIt, (ih hIt).mpr hrest⟩

theorem exists_runs {I : σ → Prop} (hstep : ∀ {s} (a : α), I s → ∃ s', step a s = some s' ∧ I s')
    (as : List α) {s : σ} (h : I s) : ∃ s', runs step as s = some s' ∧ I s' := by
  induction as generalizing s with
  | nil => exact ⟨s, rfl, h⟩
  | cons a as ih =>
    obtain ⟨t, ht, hIt⟩ := hstep a h
    obtain ⟨s', hs', hI⟩ := ih hIt
    exact ⟨s', runs_cons.mpr ⟨t, ht, hs'⟩, hI⟩

/-! ## Runs that end -/

def Stuck (step : α → σ → Option σ) (s : σ) : Prop := ∀ a, step a s = none

/-- **A measure that every step lowers** bounds the length of a run. -/
theorem length_le_of_measure {m : σ → Nat}
    (hstep : ∀ {s a s'}, step a s = some s' → m s' < m s) (as : List α) :
    ∀ {s s' : σ}, runs step as s = some s' → as.length ≤ m s := by
  induction as with
  | nil => exact fun _ => Nat.zero_le _
  | cons a as ih =>
    intro s s' hrun
    obtain ⟨t, ht, hrest⟩ := runs_cons.mp hrun
    have hlt := hstep ht
    have hle := ih hrest
    rw [List.length_cons]
    omega

theorem exists_stuck {m : σ → Nat} (hstep : ∀ {s a s'}, step a s = some s' → m s' < m s)
    (s : σ) : ∃ as s', runs step as s = some s' ∧ Stuck step s' := by
  induction hm : m s using Nat.strongRecOn generalizing s with
  | ind n ih =>
    by_cases hstuck : Stuck step s
    · exact ⟨[], s, rfl, hstuck⟩
    · obtain ⟨a, ha⟩ := Classical.not_forall.mp hstuck
      obtain ⟨t, ht⟩ := Option.ne_none_iff_exists'.mp ha
      obtain ⟨as, s', hrun, hs'⟩ := ih (m t) (hm ▸ hstep ht) t rfl
      exact ⟨a :: as, s', runs_cons.mpr ⟨t, ht, hrun⟩, hs'⟩

/-! ## Guards -/

/-- Each action of the run meets `G` where it is taken, whether it is enabled there or not. -/
def Guarded (step : α → σ → Option σ) (G : σ → α → Prop) : List α → σ → Prop
  | [], _ => True
  | a :: as, s => G s a ∧ ∀ s', step a s = some s' → Guarded step G as s'

instance Guarded.decidable (G : σ → α → Prop) [∀ s a, Decidable (G s a)] :
    ∀ (as : List α) (s : σ), Decidable (Guarded step G as s)
  | [], _ => inferInstanceAs (Decidable True)
  | a :: as, s =>
    match hs : step a s with
    | none => decidable_of_iff (G s a) (by simp [Guarded, hs])
    | some s' =>
      have := Guarded.decidable G as s'
      decidable_of_iff (G s a ∧ Guarded step G as s') (by simp [Guarded, hs])

theorem guarded_mono {G H : σ → α → Prop} (h : ∀ {s a}, G s a → H s a) (as : List α) :
    ∀ {s : σ}, Guarded step G as s → Guarded step H as s := by
  induction as with
  | nil => exact fun _ => trivial
  | cons a as ih => exact fun hG => ⟨h hG.1, fun t ht => ih (hG.2 t ht)⟩

theorem Guarded.and {G H : σ → α → Prop} {as : List α} {s : σ} (hG : Guarded step G as s)
    (hH : Guarded step H as s) : Guarded step (fun s a => G s a ∧ H s a) as s := by
  induction as generalizing s with
  | nil => trivial
  | cons a as ih => exact ⟨⟨hG.1, hH.1⟩, fun t ht => ih (hG.2 t ht) (hH.2 t ht)⟩

/-- **An exact guard.** Where `G` says of every state of the invariant which actions are
enabled and keep it, it says of a run whether it goes through and keeps it all along. -/
theorem guarded_iff {A G : σ → α → Prop} {I : σ → Prop}
    (hstep : ∀ {s a}, I s → A s a → (G s a ↔ ∃ s', step a s = some s' ∧ I s')) (as : List α) :
    ∀ {s : σ}, I s → Guarded step A as s → (Guarded step G as s ↔
      (∃ s', runs step as s = some s') ∧ Every step (fun _ _ s' => I s') as s) := by
  induction as with
  | nil => exact fun _ _ => iff_of_true trivial ⟨⟨_, rfl⟩, trivial⟩
  | cons a as ih =>
    rintro s hI ⟨hA, hAs⟩
    rw [Guarded, hstep hI hA, every_cons]
    constructor
    · rintro ⟨⟨t, ht, hIt⟩, hrest⟩
      obtain ⟨⟨s', hs'⟩, hall⟩ := (ih hIt (hAs t ht)).mp (hrest t ht)
      refine ⟨⟨s', runs_cons.mpr ⟨t, ht, hs'⟩⟩, fun u hu => ?_⟩
      rw [ht] at hu
      cases hu
      exact ⟨hIt, hall⟩
    · rintro ⟨⟨s', hs'⟩, hall⟩
      obtain ⟨t, ht, hrun⟩ := runs_cons.mp hs'
      refine ⟨⟨t, ht, (hall t ht).1⟩, fun u hu => ?_⟩
      obtain ⟨hIu, hevery⟩ := hall u hu
      rw [ht] at hu
      cases hu
      exact (ih hIu (hAs t ht)).mpr ⟨⟨s', hrun⟩, hevery⟩

/-- Two guards that agree in every state of an invariant agree along a run, when the actions
they admit keep it. -/
theorem guarded_congr {G H : σ → α → Prop} {I : σ → Prop}
    (hiff : ∀ {s a}, I s → (G s a ↔ H s a))
    (hstep : ∀ {s a s'}, I s → H s a → step a s = some s' → I s') (as : List α) :
    ∀ {s : σ}, I s → (Guarded step G as s ↔ Guarded step H as s) := by
  induction as with
  | nil => exact fun _ => Iff.rfl
  | cons a as ih =>
    intro s hI
    rw [Guarded, Guarded, hiff hI]
    refine and_congr_right fun hH => forall_congr' fun t => forall_congr' fun ht => ?_
    exact ih (hstep hI hH ht)

theorem guarded_of_inv {G : σ → α → Prop} {I : σ → Prop} (hG : ∀ {s a}, I s → G s a)
    (hstep : ∀ {s a s'}, I s → step a s = some s' → I s') (as : List α) :
    ∀ {s : σ}, I s → Guarded step G as s := by
  induction as with
  | nil => exact fun _ => trivial
  | cons a as ih => exact fun hI => ⟨hG hI, fun _ hs => ih (hstep hI hs)⟩

/-! ## Views -/

/-- **A view that the unseen actions leave alone** is a fold of the seen ones. -/
theorem view_foldl {β : Type} {f : σ → α → σ} {g : β → α → β} {view : σ → β} {seen : α → Bool}
    (hseen : ∀ s a, seen a = true → view (f s a) = g (view s) a)
    (hunseen : ∀ s a, seen a = false → view (f s a) = view s) (as : List α) :
    ∀ s : σ, view (as.foldl f s) = (as.filter seen).foldl g (view s) := by
  induction as with
  | nil => exact fun _ => rfl
  | cons a as ih =>
    intro s
    rw [List.foldl_cons, ih]
    cases ha : seen a with
    | true => rw [List.filter_cons_of_pos ha, List.foldl_cons, hseen s a ha]
    | false => rw [List.filter_cons_of_neg (by simp [ha]), hunseen s a ha]

/-- **A run simulates a fold** when each of its steps does. -/
theorem runs_foldl {β : Type} {G : σ → α → σ → Prop} {g : β → α → β} {view : σ → β}
    (hstep : ∀ {s a s'}, G s a s' → step a s = some s' → view s' = g (view s) a) (as : List α) :
    ∀ {s s' : σ}, Every step G as s → runs step as s = some s' →
      view s' = as.foldl g (view s) := by
  induction as with
  | nil =>
    intro s s' _ hrun
    cases hrun
    rfl
  | cons a as ih =>
    intro s s' hG hrun
    obtain ⟨t, ht, hrest⟩ := runs_cons.mp hrun
    obtain ⟨hGa, hGas⟩ := every_cons.mp hG t ht
    rw [List.foldl_cons, ← hstep hGa ht]
    exact ih hGas hrest

end Clib
