import MiniRunner.Clib.Str

/-!
# Paths

A path is a list of components between slashes. An empty component and `.` stay, `..` goes
up and stays at the root, any other component goes down (`walk`). A position is kept with
its deepest component first.

A sequence of steps does to every position what its route does: go up a number of levels,
then down through a list of components (`foldl_walk`). So where the tail of a path leads is
a matter of the tail alone and of the position it starts from (`resolve_append`).
-/

namespace Clib

inductive PathStep (α : Type) where
  | stay
  | up
  | down (a : α)
  deriving DecidableEq

section steps

variable {α : Type}

def walk : List α → PathStep α → List α
  | pos, .stay => pos
  | pos, .up => pos.tail
  | pos, .down a => a :: pos

/-- Up, then down; the deepest component is first. -/
structure Route (α : Type) where
  ups : Nat
  downs : List α

namespace Route

def push : Route α → PathStep α → Route α
  | r, .stay => r
  | ⟨ups, []⟩, .up => ⟨ups + 1, []⟩
  | ⟨ups, _ :: downs⟩, .up => ⟨ups, downs⟩
  | ⟨ups, downs⟩, .down a => ⟨ups, a :: downs⟩

def ofSteps (steps : List (PathStep α)) : Route α := steps.foldl push ⟨0, []⟩

def leads (r : Route α) (pos : List α) : List α := r.downs ++ pos.drop r.ups

theorem leads_push (r : Route α) (s : PathStep α) (pos : List α) :
    (r.push s).leads pos = walk (r.leads pos) s := by
  obtain ⟨ups, downs⟩ := r
  cases s with
  | stay => rfl
  | down a => rfl
  | up =>
    cases downs with
    | nil => simp [push, leads, walk, List.tail_drop]
    | cons d downs => rfl

theorem leads_foldl (steps : List (PathStep α)) (pos : List α) :
    ∀ r : Route α, (steps.foldl push r).leads pos = steps.foldl walk (r.leads pos) := by
  induction steps with
  | nil => exact fun _ => rfl
  | cons s steps ih =>
    intro r
    rw [List.foldl_cons, List.foldl_cons, ih, leads_push]

end Route

/-- **A sequence of steps leads where its route leads.** -/
theorem foldl_walk (steps : List (PathStep α)) (pos : List α) :
    steps.foldl walk pos = (Route.ofSteps steps).leads pos :=
  (Route.leads_foldl steps pos ⟨0, []⟩).symm

end steps

/-- `'/'`. -/
abbrev slash : UInt8 := 47
/-- `'.'`. -/
abbrev dot : UInt8 := 46

def stepOf (component : Bytes) : PathStep Bytes :=
  if component = [] ∨ component = [dot] then .stay
  else if component = [dot, dot] then .up
  else .down component

theorem stepOf_name {component : Bytes} (hempty : component ≠ []) (hdot : component ≠ [dot])
    (hdots : component ≠ [dot, dot]) : stepOf component = .down component := by
  rw [stepOf, if_neg (not_or.mpr ⟨hempty, hdot⟩), if_neg hdots]

def pathSteps (path : Bytes) : List (PathStep Bytes) := (path.splitOn slash).map stepOf

def resolve (path : Bytes) : List Bytes := (pathSteps path).foldl walk []

theorem pathSteps_append (p q : Bytes) :
    pathSteps (p ++ slash :: q) = pathSteps p ++ pathSteps q := by
  rw [pathSteps, List.splitOn_append_cons_self, List.map_append, pathSteps, pathSteps]

/-- **The tail of a path** starts where its head leads. -/
theorem resolve_append (p q : Bytes) :
    resolve (p ++ slash :: q) = (Route.ofSteps (pathSteps q)).leads (resolve p) := by
  rw [resolve, pathSteps_append, List.foldl_append, foldl_walk, resolve]

theorem pathSteps_of_notMem {p : Bytes} (h : slash ∉ p) : pathSteps p = [stepOf p] := by
  rw [pathSteps, List.splitOn_eq_singleton h, List.map_singleton]

end Clib
