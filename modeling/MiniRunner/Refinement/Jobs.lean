import MiniRunner.Fini
import MiniRunner.Ops.Tables

/-!
# The persisted jobs are an ordered table

A session is one process that works on the jobs: load the file, run `add-job` or
`remove-job`, save. The abstract table is a list without clashing names or
runnable files, on which `add` enters and `remove` strikes. `Holds fs l` says the
jobs file holds the table `l`. One session takes `Holds` to `Holds` along the
abstract operation (`session_step`), so a sequence of sessions does along their
fold (`jobs_refine`).
-/

namespace MiniRunner.Jobs

open Clib MiniRunner

/-- The two commands, with the time the process reads. -/
inductive Op where
  | addJob (jobName runnableFile : CStr) (timeInSeconds now : BitVec 64)
  | removeJob (jobName : CStr)
  deriving DecidableEq

namespace Op

/-- The branch of `main` on the loaded table. -/
def exec : Op → Table Job → Except Halt (Int × Table Job)
  | addJob jobName runnableFile timeInSeconds now, jobs =>
    if isValidJobName jobName = false then .ok (1, jobs)
    else if isValidJobPath runnableFile = false then .ok (1, jobs)
    else if timeInSeconds = 0 then .ok (1, jobs)
    else createJob jobName runnableFile timeInSeconds now jobs
  | removeJob jobName, jobs => .ok (MiniRunner.removeJob jobName jobs)

/-- The operands `main` accepts. -/
def Accepted : Op → Prop
  | addJob jobName runnableFile timeInSeconds _ =>
    isValidJobName jobName = true ∧ isValidJobPath runnableFile = true ∧ timeInSeconds ≠ 0
  | removeJob _ => True

instance : (op : Op) → Decidable op.Accepted
  | addJob _ _ _ _ => inferInstanceAs (Decidable (_ ∧ _ ∧ _ ≠ _))
  | removeJob _ => .isTrue trivial

/-- **The abstract operation**: `add` appends a job of pid 0 unless its name or file
occurs, `remove` deletes the job of that name. -/
def spec : Op → List Job → List Job
  | addJob jobName runnableFile timeInSeconds now =>
    Ledger.enter (jobClash · · = true) (newJob jobName runnableFile timeInSeconds now)
  | removeJob jobName => Ledger.strike (·.name == jobName)

end Op

/-- One process: load, run the command, save at exit. -/
def session (op : Op) : Exec Files Int := do
  modify (·.openCreate (.file .jobs))
  let fs ← get
  let jobs ← Exec.ofExcept (loadJobs initialJobs (fs.content (.file .jobs)))
  let (rc, jobs) ← Exec.ofExcept (op.exec jobs)
  if (← saveJobs jobs) ≠ 0 then throw .aborted else pure rc

def sessions : List Op → Exec Files Unit
  | [] => pure ()
  | op :: ops => do
    let _ ← session op
    sessions ops

/-- The jobs file holds the table `l`. -/
structure Holds (fs : Files) (l : List Job) : Prop where
  file : fs.content (.file .jobs) = jobsText l
  ok : ∀ j ∈ l, j.Ok
  distinct : DistinctJobs l

theorem Holds.load {fs : Files} {l : List Job} (h : Holds fs l) :
    ∃ t, loadJobs initialJobs (fs.content (.file .jobs)) = .ok t ∧ t.items = l ∧ t.Honest := by
  rw [h.file]
  exact loadJobs_jobsText (Table.honest_alloc _) rfl h.ok h.distinct

theorem newJob_ok {jobName runnableFile : CStr} {timeInSeconds now : BitVec 64}
    (h : (Op.addJob jobName runnableFile timeInSeconds now).Accepted) :
    (newJob jobName runnableFile timeInSeconds now).Ok := by
  obtain ⟨hname, hpath, hint⟩ := h
  exact ⟨(checkJob_eq_true.mp hname).2.1, (checkJob_eq_true.mp hpath).2.2.1, hint⟩

/-- The command follows the abstract operation on the table in memory. -/
theorem exec_refines {op : Op} (hop : op.Accepted) {t : Table Job} (ht : t.Honest) :
    ∃ rc t', op.exec t = .ok (rc, t') ∧ t'.items = op.spec t.items := by
  cases op with
  | addJob jobName runnableFile timeInSeconds now =>
    obtain ⟨hname, hpath, hint⟩ := hop
    have hexec : Op.exec (.addJob jobName runnableFile timeInSeconds now) t =
        createJob jobName runnableFile timeInSeconds now t := by
      rw [Op.exec, if_neg (by simp [hname]), if_neg (by simp [hpath]), if_neg hint]
    rw [hexec]
    by_cases hc : ∃ y ∈ t.items,
        jobClash y (newJob jobName runnableFile timeInSeconds now) = true
    · exact ⟨-1, t, createJob_of_clash hc, (if_pos hc).symm⟩
    · obtain ⟨t', h, hitems⟩ := createJob_of_fresh ht hc
      exact ⟨0, t', h, hitems.trans (if_neg hc).symm⟩
  | removeJob jobName =>
    exact ⟨_, _, rfl, removeJob_items jobName t⟩

theorem spec_ok {op : Op} (hop : op.Accepted) {l : List Job} (hok : ∀ j ∈ l, j.Ok)
    (hd : DistinctJobs l) : (∀ j ∈ op.spec l, j.Ok) ∧ DistinctJobs (op.spec l) := by
  cases op with
  | addJob jobName runnableFile timeInSeconds now =>
    refine ⟨?_, Ledger.distinct_enter hd⟩
    show ∀ j ∈ Ledger.enter (jobClash · · = true) _ l, j.Ok
    exact Ledger.forall_enter hok (newJob_ok hop)
  | removeJob jobName => exact ⟨Ledger.forall_strike hok, Ledger.distinct_strike hd⟩

/-- **One session** refines its operation, unless it waits for a lock that nobody
frees; a free lock stays free. -/
theorem session_step {op : Op} (hop : op.Accepted) {fs : Files} {l : List Job} (h : Holds fs l) :
    Exec.wp (session op) (fun _ fs' => Holds fs' (op.spec l) ∧ (LockFree fs → LockFree fs'))
      (fun e _ => e = .blocked ∧ ¬LockFree fs) fs := by
  obtain ⟨t, hload, hitems, ht⟩ := h.load
  obtain ⟨rc, t', hexec, hitems'⟩ := exec_refines hop ht
  obtain ⟨hok, hd⟩ := spec_ok hop h.ok h.distinct
  have hlock : LockFree (fs.openCreate (.file .jobs)) ↔ LockFree fs := LockFree.congr (by simp)
  simp only [session, Exec.wp_bind, Exec.wp_modify, Exec.wp_get, FileStore.content_openCreate,
    hload, hexec, Exec.wp_ofExcept_ok]
  refine Exec.wp_mono (wp_saveJobs t' _) ?_ ?_
  · rintro rc' fs' ⟨rfl, hfile, -, hfree, _⟩
    simp only [ne_eq, not_true_eq_false, if_false, Exec.wp_pure]
    exact ⟨⟨by rw [hfile, hitems', hitems], hok, hd⟩, hfree ∘ hlock.mpr⟩
  · rintro e fs' ⟨he, -, hno⟩
    exact ⟨he, mt hlock.mpr hno⟩

/-- A run of sessions keeps the file in step with the fold. -/
theorem sessions_holds {ops : List Op} (hops : ∀ op ∈ ops, op.Accepted) :
    ∀ {fs : Files} {l : List Job}, Holds fs l →
      Exec.wp (sessions ops)
        (fun _ fs' => Holds fs' (ops.foldl (fun l op => op.spec l) l) ∧
          (LockFree fs → LockFree fs'))
        (fun e _ => e = .blocked ∧ ¬LockFree fs) fs := by
  induction ops with
  | nil =>
    intro fs l h
    exact (Exec.wp_pure _).mpr ⟨h, id⟩
  | cons op ops ih =>
    intro fs l h
    simp only [sessions, Exec.wp_bind]
    refine Exec.wp_mono (session_step (hops op (by simp)) h) ?_ fun _ _ h' => h'
    rintro _ fs₁ ⟨h₁, hlock₁⟩
    refine Exec.wp_mono (ih (fun o ho => hops o (by simp [ho])) h₁) ?_ ?_
    · rintro _ fs₂ ⟨h₂, hlock₂⟩
      exact ⟨h₂, hlock₂ ∘ hlock₁⟩
    · rintro e _ ⟨he, hno⟩
      exact ⟨he, hno ∘ hlock₁⟩

/-- **The persisted jobs store refines the abstract table.** From an empty jobs
file, after any sequence of accepted commands the file loads as the fold of the
abstract operations, and its jobs are distinct. A process of the sequence can only
fail to end when the lock was left taken before the first one. -/
theorem jobs_refine (ops : List Op) (hops : ∀ op ∈ ops, op.Accepted) (fs : Files)
    (hempty : fs.content (.file .jobs) = []) :
    Exec.wp (sessions ops)
      (fun _ fs' => ∃ t, loadJobs initialJobs (fs'.content (.file .jobs)) = .ok t ∧
        t.items = ops.foldl (fun l op => op.spec l) [] ∧ DistinctJobs t.items)
      (fun e _ => e = .blocked ∧ ¬LockFree fs) fs := by
  have hstart : Holds fs [] := ⟨hempty, by simp, Ledger.distinct_nil⟩
  refine Exec.wp_mono (sessions_holds hops hstart) ?_ fun _ _ h => h
  rintro _ fs' ⟨h, _⟩
  obtain ⟨t, hload, hitems, _⟩ := h.load
  exact ⟨t, hload, hitems, hitems ▸ h.distinct⟩

/-- Add a job, then try to remove another one. -/
def nightly : List Op :=
  [.addJob (.ofBytes [97]) (.ofBytes [47, 97]) 60 100, .removeJob (.ofBytes [98])]

theorem jobs_refine_nightly :
    Exec.wp (sessions nightly)
      (fun _ fs' => ∃ t, loadJobs initialJobs (fs'.content (.file .jobs)) = .ok t ∧
        t.items = nightly.foldl (fun l op => op.spec l) [] ∧ DistinctJobs t.items)
      (fun e _ => e = .blocked ∧ ¬LockFree fun _ => none) (fun _ => none) :=
  jobs_refine nightly (by decide) (fun _ => none) rfl

end MiniRunner.Jobs
