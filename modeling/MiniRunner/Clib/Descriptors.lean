import MiniRunner.Clib.Exec

/-!
# A bounded table of descriptors

A process state beside the number of its descriptors in use, of which the kernel grants
at most `nofile`. `take` is the part of a call that asks for descriptors: it fails, and
takes none, where they are not left.

`Spends x k` bounds what a computation leaves open: wherever it returns `a`, at least `k a`
descriptors more are in use than before it (`k` is an `Int`, since a computation may close
some). The rules add the bounds up along a program.
-/

namespace Clib

/-- A process with `opened` of its `nofile` descriptors in use. -/
structure Proc (nofile : Nat) (S : Type) where
  state : S
  opened : Nat
  le : opened ≤ nofile

namespace Proc

variable {nofile : Nat} {S α β : Type}

/-- Take `n` descriptors at once, or none. -/
def take (n : Nat) : Exec (Proc nofile S) Bool := fun p =>
  if h : p.opened + n ≤ nofile then .ok true ⟨p.state, p.opened + n, h⟩ else .ok false p

/-- `close` of one descriptor. -/
def close : Exec (Proc nofile S) Unit := modify fun p =>
  ⟨p.state, p.opened - 1, Nat.le_trans (Nat.sub_le _ _) p.le⟩

/-- A step that opens and closes nothing. -/
def onState (x : Exec S α) : Exec (Proc nofile S) α :=
  Exec.zoom (·.state) (fun p s => { p with state := s }) x

section rules

variable {Q : α → Proc nofile S → Prop} {E : Halt → Proc nofile S → Prop} {p : Proc nofile S}

theorem wp_take {n : Nat} {Q : Bool → Proc nofile S → Prop} :
    Exec.wp (take n) Q E p ↔
      (∀ h : p.opened + n ≤ nofile, Q true ⟨p.state, p.opened + n, h⟩) ∧
        (nofile < p.opened + n → Q false p) := by
  unfold take Exec.wp
  by_cases h : p.opened + n ≤ nofile
  · simp only [EStateM.run, dif_pos h]
    exact ⟨fun hQ => ⟨fun _ => hQ, fun hlt => absurd h (by omega)⟩, fun hQ => hQ.1 h⟩
  · simp only [EStateM.run, dif_neg h]
    exact ⟨fun hQ => ⟨fun h' => absurd h' h, fun _ => hQ⟩, fun hQ => hQ.2 (by omega)⟩

@[simp] theorem wp_close {Q : Unit → Proc nofile S → Prop} :
    Exec.wp close Q E p ↔ Q () ⟨p.state, p.opened - 1, Nat.le_trans (Nat.sub_le _ _) p.le⟩ :=
  Exec.wp_modify _

theorem wp_close_succ {Q : Unit → Proc nofile S → Prop} {s : S} {n : Nat} {h : n + 1 ≤ nofile} :
    Exec.wp close Q E ⟨s, n + 1, h⟩ ↔ Q () ⟨s, n, Nat.le_of_succ_le h⟩ :=
  wp_close

@[simp] theorem wp_onState {x : Exec S α} :
    Exec.wp (onState x) Q E p ↔
      Exec.wp x (fun a s => Q a { p with state := s }) (fun e s => E e { p with state := s })
        p.state :=
  Exec.wp_zoom

end rules

/-! ## What a computation leaves open -/

def Spends (x : Exec (Proc nofile S) α) (k : α → Int) : Prop :=
  ∀ p, Exec.wp x (fun a p' => p.opened + k a ≤ p'.opened) (fun _ _ => True) p

namespace Spends

variable {x : Exec (Proc nofile S) α} {k : α → Int}

theorem pure (a : α) (h : k a ≤ 0) : Spends (Pure.pure a : Exec (Proc nofile S) α) k := fun p =>
  (Exec.wp_pure a).mpr (by omega)

theorem throw (e : Halt) : Spends (MonadExcept.throw e : Exec (Proc nofile S) α) k := fun _ =>
  (Exec.wp_throw e).mpr trivial

theorem bind {f : α → Exec (Proc nofile S) β} {K : β → Int} (hx : Spends x k)
    (hf : ∀ a, Spends (f a) fun b => K b - k a) : Spends (x >>= f) K := fun p => by
  rw [Exec.wp_bind]
  refine Exec.wp_mono (hx p) (fun a q hq => ?_) fun _ _ he => he
  refine Exec.wp_mono (hf a q) (fun b r hr => ?_) fun _ _ he => he
  have hsum : (q.opened : Int) + (K b - k a) ≤ r.opened := hr
  omega

theorem ite {c : Prop} [Decidable c] {y : Exec (Proc nofile S) α} (hx : c → Spends x k)
    (hy : ¬c → Spends y k) : Spends (if c then x else y) k := fun p =>
  (Exec.wp_ite x y).mpr ⟨fun hc => hx hc p, fun hc => hy hc p⟩

theorem mono {m : α → Int} (hx : Spends x k) (h : ∀ a, m a ≤ k a) : Spends x m := fun p =>
  Exec.wp_mono (hx p) (fun a q hq => by have := h a; omega) fun _ _ he => he

theorem onState (x : Exec S α) : Spends (Proc.onState x : Exec (Proc nofile S) α) fun _ => 0 :=
  fun p => by
    rw [wp_onState]
    exact Exec.wp_of_forall (fun _ _ => by simp) fun _ _ => trivial

theorem ofExcept (r : Except Halt α) (h : ∀ a, k a ≤ 0) :
    Spends (Exec.ofExcept r : Exec (Proc nofile S) α) k := by
  cases r with
  | ok a => exact pure a (h a)
  | error e => exact throw e

theorem get : Spends (MonadState.get : Exec (Proc nofile S) (Proc nofile S)) fun _ => 0 :=
  fun p => Exec.wp_get.mpr (by simp)

theorem take (n : Nat) :
    Spends (Proc.take n : Exec (Proc nofile S) Bool) fun ok => if ok then n else 0 := fun p =>
  wp_take.mpr ⟨fun _ => by simp, fun _ => by simp⟩

theorem close : Spends (Proc.close : Exec (Proc nofile S) Unit) fun _ => -1 := fun p => by
  rw [wp_close]
  simp only
  omega

end Spends

end Proc

end Clib
