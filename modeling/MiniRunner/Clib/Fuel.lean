import MiniRunner.Clib.Exec

/-!
# Loops with fuel

A loop or a recursion of C without a bound is a function of some fuel that ends as `blocked`
when it is used up. `Upto x y` says that `y` does what `x` does wherever `x` has enough; the
rules compare two programs along their structure. Where more fuel is `Upto` less, a run that has
enough is the run with any more of it (`run_of_le`).
-/

namespace Clib

namespace Exec

variable {S α β : Type}

/-- `y` ends like `x` unless `x` is blocked. -/
def Upto (x y : Exec S α) : Prop := ∀ s, y.run s = x.run s ∨ ∃ s', x.run s = .error .blocked s'

namespace Upto

theorem refl (x : Exec S α) : Upto x x := fun _ => .inl rfl

theorem trans {x y z : Exec S α} (h : Upto x y) (h' : Upto y z) : Upto x z := fun s => by
  rcases h s with heq | hblocked
  · rcases h' s with heq' | ⟨s', hs'⟩
    · exact .inl (heq'.trans heq)
    · exact .inr ⟨s', heq ▸ hs'⟩
  · exact .inr hblocked

theorem blocked (y : Exec S α) : Upto (throw .blocked) y := fun s => .inr ⟨s, rfl⟩

theorem bind {x y : Exec S β} {f g : β → Exec S α} (h : Upto x y) (hf : ∀ b, Upto (f b) (g b)) :
    Upto (x >>= f) (y >>= g) := fun s => by
  simp only [EStateM.run, Bind.bind, EStateM.bind]
  rcases h s with heq | ⟨s', hs'⟩
  · simp only [EStateM.run] at heq
    rw [heq]
    cases x s with
    | ok b s₁ => exact hf b s₁
    | error e s₁ => exact .inl rfl
  · simp only [EStateM.run] at hs'
    rw [hs']
    exact .inr ⟨s', rfl⟩

theorem ite {c : Prop} [Decidable c] {x y x' y' : Exec S α} (hx : Upto x x') (hy : Upto y y') :
    Upto (if c then x else y) (if c then x' else y') := by
  by_cases hc : c
  · rw [if_pos hc, if_pos hc]
    exact hx
  · rw [if_neg hc, if_neg hc]
    exact hy

end Upto

/-- **Enough fuel is enough.** -/
theorem run_of_le {f : Nat → Exec S α} (hstep : ∀ n, Upto (f n) (f (n + 1))) {n m : Nat}
    (hle : n ≤ m) {s s' : S} {a : α} (hrun : (f n).run s = .ok a s') :
    (f m).run s = .ok a s' := by
  induction hle with
  | refl => exact hrun
  | @step m hle ih =>
    rcases hstep m s with heq | ⟨t, ht⟩
    · rw [heq, ih]
    · rw [ih] at ht
      cases ht

end Exec

end Clib
