import Mathlib.Init

/-!
# Counting loops

`forFrom body i n` is a loop of C over `n` indices from `i` on, in any monad: a round that
fails ends it. The loop can be cut in two (`forFrom_add`), rounds that change nothing can be
left out (`forFrom_idle`), and an invariant is carried through it (`results_forFrom`), with what
holds where a round fails.
-/

namespace Clib

variable {m : Type → Type} [Monad m] {σ ε : Type}

/-- `for (i = first; i < first + n; ++i)`. -/
def forFrom (body : Nat → σ → m σ) : Nat → Nat → σ → m σ
  | _, 0, s => pure s
  | i, n + 1, s => do
    let s ← body i s
    forFrom body (i + 1) n s

section rules

variable {body : Nat → σ → m σ}

theorem forFrom_succ (i n : Nat) (s : σ) :
    forFrom body i (n + 1) s = body i s >>= forFrom body (i + 1) n := rfl

theorem forFrom_one [LawfulMonad m] (i : Nat) (s : σ) : forFrom body i 1 s = body i s :=
  bind_pure (body i s)

theorem forFrom_add [LawfulMonad m] (i n k : Nat) (s : σ) :
    forFrom body i (n + k) s = forFrom body i n s >>= forFrom body (i + n) k := by
  induction n generalizing i s with
  | zero => simp [forFrom]
  | succ n ih =>
    have hi : i + 1 + n = i + (n + 1) := by omega
    rw [show n + 1 + k = n + k + 1 by omega, forFrom_succ, forFrom_succ, bind_assoc, ← hi]
    exact bind_congr fun s' => ih (i + 1) s'

theorem forFrom_idle [LawfulMonad m] {i n : Nat} {s : σ}
    (h : ∀ j, i ≤ j → j < i + n → body j s = pure s) : forFrom body i n s = pure s := by
  induction n generalizing i with
  | zero => rfl
  | succ n ih =>
    rw [forFrom_succ, h i (Nat.le_refl i) (by omega), pure_bind]
    exact ih fun j hj hlt => h j (by omega) (by omega)

theorem forFrom_foldlM [LawfulMonad m] {α : Type} {l : List α} {f : σ → α → m σ}
    (h : ∀ i x, l[i]? = some x → ∀ s, body i s = f s x) {n : Nat} (hn : n ≤ l.length) (s : σ) :
    forFrom body 0 n s = (l.take n).foldlM f s := by
  induction n generalizing s with
  | zero => rfl
  | succ n ih =>
    have hlast : l[n]? = some (l.get ⟨n, hn⟩) := List.getElem?_eq_getElem hn
    rw [forFrom_add, ih (Nat.le_of_succ_le hn), Nat.zero_add, List.take_add_one, hlast,
      List.foldlM_append]
    refine bind_congr fun s' => ?_
    rw [forFrom_one, h n _ hlast]
    exact (bind_pure _).symm

theorem forFrom_foldl [LawfulMonad m] {α : Type} {l : List α} {f : σ → α → σ}
    (h : ∀ i x, l[i]? = some x → ∀ s, body i s = pure (f s x)) {n : Nat} (hn : n ≤ l.length)
    (s : σ) : forFrom body 0 n s = pure ((l.take n).foldl f s) := by
  rw [forFrom_foldlM (f := fun s x => pure (f s x)) h hn, List.foldlM_pure]

end rules

/-- How a computation ends: in `Q`, or with an error in `E`. -/
def Results (Q : σ → Prop) (E : ε → Prop) : Except ε σ → Prop
  | .ok s => Q s
  | .error e => E e

variable {body : Nat → σ → Except ε σ} {I : Nat → σ → Prop} {E : ε → Prop}

theorem results_bind {τ : Type} {x : Except ε σ} {f : σ → Except ε τ} {Q : τ → Prop}
    (h : Results (fun s => Results Q E (f s)) E x) : Results Q E (x >>= f) := by
  cases x with
  | ok s => exact h
  | error e => exact h

theorem results_mono {x : Except ε σ} {Q Q' : σ → Prop} {E' : ε → Prop} (h : Results Q E x)
    (hQ : ∀ s, Q s → Q' s) (hE : ∀ e, E e → E' e) : Results Q' E' x := by
  cases x with
  | ok s => exact hQ s h
  | error e => exact hE e h

/-- **An invariant of a loop.** What each round keeps holds at its end, or where it fails. -/
theorem results_forFrom {i n : Nat} {s : σ}
    (hstep : ∀ {j s}, i ≤ j → j < i + n → I j s → Results (I (j + 1)) E (body j s)) (h : I i s) :
    Results (I (i + n)) E (forFrom body i n s) := by
  induction n generalizing i s with
  | zero => exact h
  | succ n ih =>
    rw [forFrom_succ, show i + (n + 1) = i + 1 + n by omega]
    refine results_bind (results_mono (hstep (Nat.le_refl i) (by omega) h) ?_ fun _ he => he)
    exact fun s' hI => ih (fun hj hlt => hstep (by omega) (by omega)) hI

/-- A loop in which no round fails keeps its invariant. -/
theorem forFrom_ok {i n : Nat} {s : σ}
    (hstep : ∀ {j s}, i ≤ j → j < i + n → I j s → ∃ s', body j s = .ok s' ∧ I (j + 1) s')
    (h : I i s) : ∃ s', forFrom body i n s = .ok s' ∧ I (i + n) s' := by
  have hresults : Results (I (i + n)) (fun _ => False) (forFrom body i n s) := by
    refine results_forFrom (fun hj hlt hI => ?_) h
    obtain ⟨s', hs', hI'⟩ := hstep hj hlt hI
    rw [hs']
    exact hI'
  cases hloop : forFrom body i n s with
  | error e =>
    rw [hloop] at hresults
    exact hresults.elim
  | ok s' =>
    rw [hloop] at hresults
    exact ⟨s', rfl, hresults⟩

end Clib
