import MiniRunner.Restart.Safety
import MiniRunner.System.Commands

/-!
# Processes refine the database

A whole process of the program (constructor, command, destructor) is one step from the files
it finds to those it leaves. The commands are the twelve of `Command`; time shifts, the limits
of the jobs and the daemon are not among them. Whatever the worlds answer, a run of such
processes is a run of the database of `Database`, as long as none of them does what the
standard leaves undefined. So the invariant of the database is one of the files, and files
that no process gets past come from one command of two kinds.
-/

namespace MiniRunner.System

open Clib MiniRunner Process

variable {W : Type} {fs fs' : Files}

/-- **A process**: one command in some world, and how it ended. -/
inductive ProcessStep : Files → Event → Files → Prop
  | exits {W : Type} {sys : Calls W} {cmd : Command} {fs : Files} {w : W} {rc : Int}
      {p : Process W} : (wholeProcess (cmd.exec sys)).run (.start fs w) = .ok rc p →
      ProcessStep fs ⟨cmd, .exits rc⟩ p.files
  | aborts {W : Type} {sys : Calls W} {cmd : Command} {fs : Files} {w : W}
      {p : Process W} : (wholeProcess (cmd.exec sys)).run (.start fs w) = .error .aborted p →
      ProcessStep fs ⟨cmd, .aborts⟩ p.files

/-! ## One process -/

theorem Holds.congr {d : Tables} (h : Holds fs d)
    (hsame : ∀ s ∈ [Store.projects, .jobs, .env, .limits, .jobsSync],
      fs'.content (.file s) = fs.content (.file s)) : Holds fs' d := by
  refine ⟨?_, ?_, ?_, ?_, (LockFree.congr (hsame .jobsSync (by simp))).mpr h.lock⟩
  · rw [hsame .projects (by simp)]
    exact h.services
  · rw [hsame .jobs (by simp)]
    exact h.jobs
  · rw [hsame .env (by simp)]
    exact h.envs
  · rw [hsame .limits (by simp)]
    exact h.limits

theorem Loaded.data {w : W} {p : Process W} (h : Loaded fs w p) :
    ∀ s ∈ [Store.projects, .jobs, .env, .limits, .jobsSync],
      p.files.content (.file s) = fs.content (.file s) := by
  intro s hs
  refine h.files _ ?_
  simp only [List.mem_cons, List.not_mem_nil, or_false] at hs
  rcases hs with rfl | rfl | rfl | rfl | rfl <;> decide

theorem Holds.loads {d : Tables} (h : Holds fs d) : Loads fs := by
  obtain ⟨services, hservices, -⟩ := h.services
  obtain ⟨jobs, hjobs, -⟩ := h.jobs
  obtain ⟨envs, henvs, -⟩ := h.envs
  obtain ⟨limits, hlimits, -⟩ := h.limits
  exact ⟨⟨services, hservices⟩, ⟨jobs, hjobs⟩, ⟨envs, henvs⟩, ⟨limits, hlimits⟩⟩

/-- **A process on files that hold a database**: its command has an effect, and the files
hold what is read back of that, or are bricked. It never waits. -/
theorem Holds.wp_wholeProcess {d : Tables} (h : Holds fs d) (hd : d.Sound) (cmd : Command)
    (sys : Calls W) (w : W) :
    Exec.wp (wholeProcess (cmd.exec sys))
      (fun rc p' => ∃ T, Effect d cmd rc T ∧ (T.reread.Apart → Holds p'.files T.reread) ∧
        (¬T.reread.Apart → Bricked p'.files))
      (fun e p' => e = .undefined ∨
        e = .aborted ∧ (givesUp cmd ∨ crowds d cmd) ∧ Holds p'.files d)
      (.start fs w) := by
  simp only [wholeProcess, Exec.wp_bind, Exec.wp_pure]
  refine Exec.wp_mono (wp_init fs w) ?_ fun _ _ hno => absurd h.loads hno
  intro _ p hp
  refine Exec.wp_mono (acts hd.toSavable cmd sys (h.opened hp)) ?_ ?_
  · rintro rc p₁ (⟨T, heffect, hdue⟩ | ⟨hcrowds, hcrowded⟩)
    · exact Exec.wp_mono (hdue.wp_closeProcess h.rests hd.memory (heffect.savable hd.toSavable))
        (fun _ _ hleaves => ⟨T, heffect, hleaves.holds, hleaves.bricked⟩) fun _ _ he => he.elim
    · refine Exec.wp_mono (hcrowded.wp_closeProcess h.rests hd.memory hd.toSavable)
        (fun _ _ => False.elim) ?_
      rintro e p₂ ⟨he, hleaves⟩
      have hholds := hleaves.holds
      rw [hd.reread] at hholds
      exact .inr ⟨he, .inr hcrowds, hholds hd.apart⟩
  · rintro e p₁ (he | ⟨he, hgives, hfiles⟩)
    · exact .inl he
    · exact .inr ⟨he, .inl hgives, h.congr fun s hs => (hfiles _).trans (Loaded.data hp s hs)⟩

theorem Bricked.wp_wholeProcess (h : Bricked fs) (cmd : Command) (sys : Calls W) (w : W) :
    Exec.wp (wholeProcess (cmd.exec sys)) (fun _ _ => False)
      (fun e p' => e = .aborted ∧ SameBut [.file .updateStatus] fs p'.files) (.start fs w) := by
  simp only [wholeProcess, Exec.wp_bind]
  exact Exec.wp_mono (wp_init_bricked h w) (fun _ _ => False.elim) fun _ _ he => he

/-! ## Steps -/

theorem Bricked.step (h : Bricked fs) {e : Event} (hstep : ProcessStep fs e fs') :
    e.outcome = .aborts ∧ Bricked fs' ∧ SameBut [.file .updateStatus] fs fs' := by
  cases hstep with
  | exits hrun => exact (Exec.wp_run_ok (h.wp_wholeProcess _ _ _) hrun).elim
  | aborts hrun =>
    obtain ⟨-, hsame⟩ := Exec.wp_run_error (h.wp_wholeProcess _ _ _) hrun
    exact ⟨rfl, Bricked.congr hsame h, hsame⟩

/-- **Each process is a step of the database.** -/
theorem processes_simulate : Simulation ProcessStep Step Stands where
  match_step := by
    rintro fs st ev fs' hstands hstep
    cases st with
    | none =>
      obtain ⟨cmd, outcome⟩ := ev
      obtain ⟨rfl, hbricked, -⟩ := Bricked.step hstands hstep
      exact ⟨none, .dead cmd, hbricked⟩
    | some d =>
      cases hstep with
      | exits hrun =>
        obtain ⟨T, heffect, hsaved, hlost⟩ :=
          Exec.wp_run_ok (Holds.wp_wholeProcess hstands d.sound _ _ _) hrun
        by_cases hapart : T.reread.Apart
        · have hsound : T.reread.Sound := (heffect.savable d.sound.toSavable).sound hapart
          exact ⟨some ⟨T.reread, hsound⟩, .saved heffect rfl, hsaved hapart⟩
        · exact ⟨none, .bricked heffect hapart, hlost hapart⟩
      | aborts hrun =>
        obtain he | ⟨-, hgives | hcrowds, hholds⟩ :=
          Exec.wp_run_error (Holds.wp_wholeProcess hstands d.sound _ _ _) hrun
        · cases he
        · exact ⟨some d, .gaveUp hgives, hholds⟩
        · exact ⟨some d, .crowded hcrowds, hholds⟩

theorem Stands.never_waits {st : Option Database} (h : Stands fs st) (cmd : Command)
    (sys : Calls W) (w : W) :
    Exec.wp (wholeProcess (cmd.exec sys)) (fun _ _ => True) (fun e _ => e ≠ .blocked)
      (.start fs w) := by
  cases st with
  | none =>
    refine Exec.wp_mono (Bricked.wp_wholeProcess h cmd sys w) (fun _ _ => False.elim) ?_
    rintro e p ⟨rfl, -⟩
    decide
  | some d =>
    refine Exec.wp_mono (Holds.wp_wholeProcess h d.sound cmd sys w) (fun _ _ _ => trivial) ?_
    rintro e p (rfl | ⟨rfl, -⟩) <;> decide

theorem ProcessStep.of_completes {cmd : Command} {sys : Calls W}
    (h : Completes (cmd.exec sys) fs fs') : ProcessStep fs ⟨cmd, .exits 0⟩ fs' := by
  obtain ⟨w, p, hrun, rfl⟩ := h
  exact .exits hrun

/-- The database of `a^r#0`, `b^s#0`. -/
def twoDatabase : Database where
  services := twoStored.services.items
  jobs := []
  envs := []
  limits := []
  sound := by
    refine ⟨⟨?_, by simp, List.Pairwise.nil, by simp, by decide, by simp, by decide, by simp⟩,
      ?_, by simp, by simp⟩
    · simp only [twoStored, List.forall_mem_cons, List.not_mem_nil, false_implies,
        implies_true, and_true]
      exact ⟨⟨⟨by decide, by decide, rfl⟩, by decide, by decide⟩, ⟨⟨by decide, by decide, rfl⟩,
        by decide, by decide⟩⟩
    · decide

theorem holds_twoDatabase : Holds twoServices twoDatabase.toTables :=
  ⟨⟨_, twoStored.loadsServices, rfl⟩, ⟨_, twoStored.loadsJobs, rfl⟩, ⟨_, twoStored.loadsEnvs, rfl⟩,
    ⟨_, twoStored.loadsLimits, rfl⟩, by decide⟩

theorem renameToTaken_step : ProcessStep twoServices ⟨renameToTaken, .exits 0⟩
    (filesAfter (renameToTaken.exec (.allWell 1)) twoServices) :=
  .of_completes (completes_of_succeeds (by decide +kernel))

end MiniRunner.System
