import MiniRunner.Ops.Update
import MiniRunner.System.Processes

/-!
# Processes that update services

Beside the twelve commands of `Command` there are `update` and `neglect-updates`. They work on the
update status and on nothing else that is stored, so a run of processes with updates in it is
a run of the database on its commands alone. The status shuts the gate to the start of
services: what has shut it once keeps it shut, through any processes, until an update comes
to its end or the updates are neglected.
-/

namespace MiniRunner.System

open Clib MiniRunner Process Update

variable {W : Type}

/-! ## Processes -/

inductive Errand where
  | command (cmd : Command)
  | update (serviceName : CStr) (stop : Bool)
  | neglect
  deriving DecidableEq

/-- What a process calls, and the steps of its writes of the status that fail. -/
structure Outside (W : Type) where
  calls : Calls W
  puller : Puller W
  fails : Option StatusStep × Option StatusStep

/-- The branch of `main`. -/
def Errand.exec (out : Outside W) : Errand → Exec (Process W) Int
  | .command cmd => cmd.exec out.calls
  | .update serviceName stop => do
    Update.updateService out.puller out.fails serviceName stop
    pure 0
  | .neglect => do
    neglectUpdate out.fails.2
    pure 0

/-- A world, with the number of times that a service was started in it. -/
structure Counted (W : Type) where
  rest : W
  launches : Nat

namespace Counted

def aside {α : Type} (f : W → α × W) (w : Counted W) : α × Counted W :=
  ((f w.rest).1, { w with rest := (f w.rest).2 })

def calls (base : Calls W) : Calls (Counted W) where
  clone githubRepo name := aside (base.clone githubRepo name)
  folderExists name := aside (base.folderExists name)
  deleteFolderRecursievly name := aside (base.deleteFolderRecursievly name)
  renameFolder beforeName newName := aside (base.renameFolder beforeName newName)
  kill sig pid := aside (base.kill sig pid)
  updateCgrp name := aside (base.updateCgrp name)
  updateCgroup name pid := aside (base.updateCgroup name pid)
  renameCgrp name newName pid := aside (base.renameCgrp name newName pid)
  createThread := aside base.createThread
  detachThread := aside base.detachThread
  launch params w :=
    ((base.launch params w.rest).1, ⟨(base.launch params w.rest).2, w.launches + 1⟩)
  lag := aside base.lag
  interruptLast pauses := aside (base.interruptLast pauses)
  limitCpuAndMemory name pid cpu limitMemory memBytes :=
    aside (base.limitCpuAndMemory name pid cpu limitMemory memBytes)
  limitMm name pid memBytes := aside (base.limitMm name pid memBytes)
  fileExists name := aside (base.fileExists name)
  time := aside base.time

def puller (base : Puller W) : Puller (Counted W) where
  interrupt pid := aside (base.interrupt pid)
  pipe := aside base.pipe
  fork := aside base.fork
  chdir path := aside (base.chdir path)
  gitPull := aside base.gitPull

end Counted

def Outside.counted (out : Outside W) : Outside (Counted W) :=
  ⟨Counted.calls out.calls, Counted.puller out.puller, out.fails⟩

/-- A process: what it was started for, and how it ended. -/
structure Errand.Event where
  errand : Errand
  outcome : Outcome
  deriving DecidableEq

/-- A process takes the files, and the number of services started so far, to those behind
it. -/
inductive ErrandStep : Files × Nat → Errand.Event → Files × Nat → Prop
  | exits {W : Type} {out : Outside W} {errand : Errand} {fs : Files} {n : Nat} {w : W} {rc : Int}
      {p : Process (Counted W)} :
      (wholeProcess (errand.exec out.counted)).run (.start fs ⟨w, n⟩) = .ok rc p →
      ErrandStep (fs, n) ⟨errand, .exits rc⟩ (p.files, p.world.launches)
  | aborts {W : Type} {out : Outside W} {errand : Errand} {fs : Files} {n : Nat} {w : W}
      {p : Process (Counted W)} :
      (wholeProcess (errand.exec out.counted)).run (.start fs ⟨w, n⟩) = .error .aborted p →
      ErrandStep (fs, n) ⟨errand, .aborts⟩ (p.files, p.world.launches)

/-- A world in which all goes well but the pull. -/
def pullFails : Outside Unit where
  calls := .allWell 5
  puller := ⟨fun _ _ => (0, ()), fun _ => (true, ()), fun _ => (true, ()), fun _ _ => (true, ()),
    fun _ => (1, ())⟩
  fails := (none, none)

def outcomesOf : List Errand → Files × Nat → Option (List Outcome)
  | [], _ => some []
  | errand :: errands, s =>
    match (wholeProcess (errand.exec pullFails.counted)).run (.start s.1 ⟨(), s.2⟩) with
    | .ok rc p => (outcomesOf errands (p.files, p.world.launches)).map (.exits rc :: ·)
    | .error .aborted p => (outcomesOf errands (p.files, p.world.launches)).map (.aborts :: ·)
    | .error _ _ => none

theorem exists_steps {errands : List Errand} {outcomes : List Outcome} {s : Files × Nat}
    (h : outcomesOf errands s = some outcomes) :
    ∃ s', Steps ErrandStep (List.zipWith Errand.Event.mk errands outcomes) s s' := by
  induction errands generalizing s outcomes with
  | nil => exact ⟨s, .nil s⟩
  | cons errand errands ih =>
    rw [outcomesOf] at h
    split at h
    · rename_i rc p hrun
      obtain ⟨rest, hrest, rfl⟩ := Option.map_eq_some_iff.mp h
      obtain ⟨s', hsteps⟩ := ih hrest
      exact ⟨s', .cons (.exits hrun) hsteps⟩
    · rename_i p hrun
      obtain ⟨rest, hrest, rfl⟩ := Option.map_eq_some_iff.mp h
      obtain ⟨s', hsteps⟩ := ih hrest
      exact ⟨s', .cons (.aborts hrun) hsteps⟩
    · cases h

/-! ## The tables -/

/-- The event of the database behind that of a process. -/
def Errand.Event.command? (e : Errand.Event) : Option System.Event :=
  match e.errand with
  | .command cmd => some ⟨cmd, e.outcome⟩
  | .update _ _ | .neglect => none

section tables

variable {fs : Files} {d : Tables}

theorem Opened.aside {p p' : Process W} (h : Opened fs d p) (haside : Aside p p') :
    Due fs d p' d := by
  obtain ⟨w, fs', rfl, hsame⟩ := haside
  have hdue := h.due
  refine ⟨hdue.state, fun s hs => ?_, hdue.services, hdue.jobs, hdue.envs, hdue.limits⟩
  refine (hsame _ ?_).trans (hdue.files s hs)
  simp only [List.mem_cons, List.not_mem_nil, or_false] at hs
  rcases hs with rfl | rfl | rfl <;> decide

/-- A body that does no more than an update leaves the database as it was. -/
theorem Holds.wp_aside (h : Holds fs d) (hd : d.Sound) {body : Exec (Process W) Int}
    (hbody : ∀ p, Exec.wp body (fun _ p' => Aside p p')
      (fun e p' => e = .aborted ∧ Aside p p') p) (w : W) :
    Exec.wp (wholeProcess body) (fun _ p' => Holds p'.files d)
      (fun e p' => e = .aborted ∧ Holds p'.files d) (.start fs w) := by
  simp only [wholeProcess, Exec.wp_bind, Exec.wp_pure]
  refine Exec.wp_mono (wp_init fs w) ?_ fun _ _ hno => absurd h.loads hno
  intro _ p hp
  refine Exec.wp_mono (hbody p) ?_ ?_
  · intro rc p₁ haside
    have hdue : Due fs d p₁ d := (h.opened hp).aside haside
    refine Exec.wp_mono (hdue.wp_closeProcess h.rests hd.memory hd.toSavable) ?_
      fun _ _ he => he.elim
    intro _ p₂ hleaves
    have hholds := hleaves.holds
    rw [hd.reread] at hholds
    exact hholds hd.apart
  · rintro e p₁ ⟨he, w', fs', rfl, hsame⟩
    refine ⟨he, h.congr fun s hs => (hsame _ ?_).trans (Loaded.data hp s hs)⟩
    simp only [List.mem_cons, List.not_mem_nil, or_false] at hs
    rcases hs with rfl | rfl | rfl | rfl | rfl <;> decide

theorem Errand.wp_aside (out : Outside W) {errand : Errand}
    (h : ∀ outcome, (Errand.Event.mk errand outcome).command? = none) (p : Process W) :
    Exec.wp (errand.exec out) (fun _ p' => Aside p p')
      (fun e p' => e = .aborted ∧ Aside p p') p := by
  cases errand with
  | command cmd => cases h .aborts
  | update serviceName stop =>
    simp only [Errand.exec, Exec.wp_bind, Exec.wp_pure]
    exact Update.wp_updateService out.fails serviceName stop
  | neglect =>
    simp only [Errand.exec, Exec.wp_bind, Exec.wp_pure]
    exact Exec.wp_mono (wp_neglectUpdate out.fails.2) (fun _ _ h => h) fun _ _ h => h.elim

theorem Bricked.wp_body (h : Bricked fs) (body : Exec (Process W) Int) (w : W) :
    Exec.wp (wholeProcess body) (fun _ _ => False)
      (fun e p' => e = .aborted ∧ SameBut [.file .updateStatus] fs p'.files) (.start fs w) := by
  simp only [wholeProcess, Exec.wp_bind]
  exact Exec.wp_mono (wp_init_bricked h w) (fun _ _ => False.elim) fun _ _ he => he

theorem Stands.of_aside {st : Option Database} (h : Stands fs st) {out : Outside W}
    {errand : Errand} (hno : ∀ outcome, (Errand.Event.mk errand outcome).command? = none) (w : W) :
    Exec.wp (wholeProcess (errand.exec out)) (fun _ p' => Stands p'.files st)
      (fun e p' => e = .aborted ∧ Stands p'.files st) (.start fs w) := by
  cases st with
  | none =>
    refine Exec.wp_mono (Bricked.wp_body h _ w) (fun _ _ => False.elim) ?_
    exact fun _ _ hsame => ⟨hsame.1, Bricked.congr hsame.2 h⟩
  | some d => exact Holds.wp_aside h d.sound (Errand.wp_aside out hno) w

/-- **Each process is a step of the database**, or leaves it alone. -/
theorem ErrandStep.matched {st : Option Database} {n n' : Nat} {fs' : Files} {e : Errand.Event}
    (hstep : ErrandStep (fs, n) e (fs', n')) (h : Stands fs st) :
    ∃ st', Steps Step e.command?.toList st st' ∧ Stands fs' st' := by
  have hcommand {cmd : Command} {outcome : Outcome} (hprocess : ProcessStep fs ⟨cmd, outcome⟩ fs') :
      ∃ st', Steps Step [⟨cmd, outcome⟩] st st' ∧ Stands fs' st' := by
    obtain ⟨st', hmatch, hstands⟩ := processes_simulate.match_step h hprocess
    exact ⟨st', .single hmatch, hstands⟩
  cases hstep with
  | @exits W out errand _ _ w rc p hrun =>
    cases errand with
    | command cmd => exact hcommand (.exits hrun)
    | update _ _ | neglect =>
      exact ⟨st, .nil st, Exec.wp_run_ok (Q := fun _ p' => Stands p'.files st)
        (h.of_aside (fun _ => rfl) _) hrun⟩
  | @aborts W out errand _ _ w p hrun =>
    cases errand with
    | command cmd => exact hcommand (.aborts hrun)
    | update _ _ | neglect =>
      obtain ⟨-, hstands⟩ := Exec.wp_run_error (h.of_aside (fun _ => rfl) _) hrun
      exact ⟨st, .nil st, hstands⟩

theorem Stands.errand_never_waits {st : Option Database} (h : Stands fs st) (out : Outside W)
    (errand : Errand) (w : W) :
    Exec.wp (wholeProcess (errand.exec out)) (fun _ _ => True) (fun e _ => e ≠ .blocked)
      (.start fs w) := by
  cases errand with
  | command cmd => exact h.never_waits cmd out.calls w
  | update _ _ | neglect =>
    refine Exec.wp_mono (h.of_aside (fun _ => rfl) w) (fun _ _ _ => trivial) ?_
    rintro e p ⟨rfl, -⟩
    decide

end tables

end MiniRunner.System
