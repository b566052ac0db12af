import MiniRunner.Fini

/-!
# The job daemon

`job_ops/run_jobs.c`. A cycle of `runJobsDaemon` loads the jobs file, runs the jobs
that are due, saves the table and frees it. The table, `numberOfJobsDaemon` and
`capacityOfJobsDaemon` are the daemon's own; `numberOfJobs`, which the saver tests,
is the global of the process that forked it and never changes again.

`cycle_keeps_iff` says for which inherited `numberOfJobs` a cycle keeps the table
of the file it read: `numberOfJobs` must be 0 exactly when that table is empty.
-/

namespace MiniRunner

open Clib

/-- What the daemon learns of a job it starts: nothing when the pipe fails or stays
empty, else the pid its child wrote and the time after. -/
structure DaemonCalls (W : Type) where
  startJob : Job → W → Option (BitVec 32 × BitVec 64) × W

structure Daemon (W : Type) where
  files : Files
  world : W
  jobs : Table Job
  waitedTime : BitVec 64

variable {W : Type} (sys : DaemonCalls W)

namespace Daemon

/-- `is_divisible(secondsInterval, waitedTime)`. -/
def isDue (waitedTime : BitVec 64) (j : Job) : Bool := waitedTime % j.secondsInterval == 0

def runJob (waitedTime : BitVec 64) (j : Job) (w : W) : Job × W :=
  if isDue waitedTime j then
    match sys.startJob j w with
    | (none, w) => (j, w)
    | (some (pid, now), w) => ({ j with pid := pid, lastTimeRunned := now }, w)
  else (j, w)

def runJobs (waitedTime : BitVec 64) : List Job → W → List Job × W
  | [], w => ([], w)
  | j :: js, w =>
    let (j, w) := runJob sys waitedTime j w
    let (js, w) := runJobs waitedTime js w
    (j :: js, w)

theorem length_runJobs (waitedTime : BitVec 64) (js : List Job) :
    ∀ w : W, (runJobs sys waitedTime js w).1.length = js.length := by
  induction js with
  | nil => exact fun _ => rfl
  | cons j js ih => exact fun w => congrArg (· + 1) (ih _)

def onFiles {α : Type} (x : Exec Files α) : Exec (Daemon W) α := fun d =>
  match x.run d.files with
  | .ok a fs => .ok a { d with files := fs }
  | .error e fs => .error e { d with files := fs }

/-- `freeJobs` and the new block: four slots, but no capacity recorded. -/
def renewJobs : Exec (Daemon W) Unit :=
  modify fun d => { d with jobs := .blank 0 initialScaleSizeOfJobs }

/-- `loadJobsDaemon` with its wait for the lock, which this process cannot end. -/
def load : Exec (Daemon W) Int := do
  if (← onFiles isJobFree) = false then throw .blocked
  else
    onFiles (modify (·.openCreate (.file .jobs)))
    let d ← get
    let (rc, jobs) ← Exec.ofExcept (loadJobsDaemon d.jobs (d.files.content (.file .jobs)))
    set { d with jobs := jobs }
    pure rc

def runDue : Exec (Daemon W) Unit :=
  modify fun d =>
    { d with
      world := (runJobs sys d.waitedTime d.jobs.items d.world).2
      jobs := d.jobs.mapItems (fun js => (runJobs sys d.waitedTime js d.world).1)
        (length_runJobs sys _ _ _) }

/-- `save_jobs_daemon` until it returns 0, at most `attempts` times. -/
def save (numberOfJobs : Nat) : Nat → Exec (Daemon W) Unit
  | 0 => throw .blocked
  | attempts + 1 => do
    let d ← get
    if (← onFiles (saveJobsDaemon numberOfJobs d.jobs)) ≠ 0 then save numberOfJobs attempts
    else pure ()

/-- One round of the loop of `runJobsDaemon`, with its answer whether the jobs ran:
after a failed load it starts over with a new block. -/
def cycle (numberOfJobs attempts : Nat) : Exec (Daemon W) Bool := do
  if (← load) ≠ 0 then
    renewJobs
    pure false
  else
    runDue sys
    save numberOfJobs (attempts + 1)
    modify fun d => { d with waitedTime := d.waitedTime + 1 }
    renewJobs
    pure true

def oneJob : Job := ⟨.ofBytes [97], .ofBytes [47, 97], 0, 60, 0⟩

theorem oneJob_ok : oneJob.Ok := ⟨by decide, by decide, by decide⟩

/-! ## What a cycle does -/

section specs

variable {sys} {d : Daemon W} {t : Table Job}

@[simp] theorem wp_onFiles {α : Type} {x : Exec Files α} {Q : α → Daemon W → Prop}
    {E : Halt → Daemon W → Prop} :
    Exec.wp (onFiles x) Q E d ↔
      Exec.wp x (fun a fs => Q a { d with files := fs }) (fun e fs => E e { d with files := fs })
        d.files := by
  simp only [Exec.wp, EStateM.run, onFiles]
  cases x d.files <;> rfl

/-- **A job after a cycle**: as it was, or due and with a new pid and time. -/
def RunsTo (waitedTime : BitVec 64) (j j' : Job) : Prop :=
  j' = j ∨ isDue waitedTime j = true ∧ ∃ pid now, j' = { j with pid := pid, lastTimeRunned := now }

theorem runJob_runsTo (waitedTime : BitVec 64) (j : Job) (w : W) :
    RunsTo waitedTime j (runJob sys waitedTime j w).1 := by
  unfold runJob
  split
  · rename_i hdue
    split
    · exact .inl rfl
    · exact .inr ⟨hdue, _, _, rfl⟩
  · exact .inl rfl

theorem runJobs_runsTo (waitedTime : BitVec 64) (js : List Job) :
    ∀ w : W, List.Forall₂ (RunsTo waitedTime) js (runJobs sys waitedTime js w).1 := by
  induction js with
  | nil => exact fun _ => .nil
  | cons j js ih => exact fun w => .cons (runJob_runsTo waitedTime j w) (ih _)

theorem RunsTo.ok {waitedTime : BitVec 64} {j j' : Job} (h : RunsTo waitedTime j j') (hj : j.Ok) :
    j'.Ok := by
  obtain rfl | ⟨_, pid, now, rfl⟩ := h
  · exact hj
  · exact ⟨hj.name, hj.runnableFile, hj.secondsInterval⟩

theorem RunsTo.key {waitedTime : BitVec 64} {j j' : Job} (h : RunsTo waitedTime j j') :
    (j'.name, j'.runnableFile) = (j.name, j.runnableFile) := by
  obtain rfl | ⟨_, pid, now, rfl⟩ := h <;> rfl

theorem runsTo_keeps {waitedTime : BitVec 64} {l l' : List Job}
    (h : List.Forall₂ (RunsTo waitedTime) l l') (hok : ∀ j ∈ l, j.Ok) (hd : DistinctJobs l) :
    (∀ j ∈ l', j.Ok) ∧ DistinctJobs l' := by
  have hkeys : l'.map (fun j => (j.name, j.runnableFile)) =
      l.map fun j => (j.name, j.runnableFile) := by
    induction h with
    | nil => rfl
    | cons hj _ ih =>
      rw [List.map_cons, List.map_cons, hj.key, ih (fun x hx => hok x (by simp [hx]))
        (List.Pairwise.of_cons hd)]
  refine ⟨?_, Ledger.distinct_of_map_eq (k := fun j : Job => (j.name, j.runnableFile))
    (r := fun a b => (a.1 == b.1 || a.2 == b.2) = true) (fun _ _ => Iff.rfl) hd hkeys⟩
  clear hkeys hd
  induction h with
  | nil => simp
  | cons hj _ ih =>
    have := ih fun x hx => hok x (by simp [hx])
    simpa using ⟨hj.ok (hok _ (by simp)), this⟩

/-- Between two cycles the daemon has an empty block of its own. -/
structure Fresh (d : Daemon W) : Prop where
  items : d.jobs.items = []
  honest : d.jobs.Honest
  block : d.jobs.isNull = false

/-- The load of this cycle returns 0 with the table `t`. -/
structure Accepts (d : Daemon W) (t : Table Job) : Prop where
  lock : readsFree (d.files.content (.file .jobsSync)) = true
  decodes : loadJobsDaemon d.jobs (d.files.content (.file .jobs)) = .ok (0, t)

/-- The file of a later load holds the same jobs, up to what a cycle may change. -/
def Keeps (waitedTime : BitVec 64) (l : List Job) (fs : Files) : Prop :=
  ∃ t', loadJobs initialJobs (fs.content (.file .jobs)) = .ok t' ∧
    List.Forall₂ (RunsTo waitedTime) l t'.items

/-- The table of an accepted load, after the due jobs ran. -/
def ranTable (sys : DaemonCalls W) (d : Daemon W) (t : Table Job) : Table Job :=
  t.mapItems (fun js => (runJobs sys d.waitedTime js d.world).1) (length_runJobs sys _ _ _)

/-- The files a load leaves: it opens the lock and the jobs. -/
def loadFiles (fs : Files) : Files := (fs.openCreate (.file .jobsSync)).openCreate (.file .jobs)

/-- **A cycle is its save**: what the first save leaves in the files is what the cycle
leaves, and the daemon is fresh again. -/
theorem wp_cycle {n attempts : Nat} {Q : Files → Prop} {E : Halt → Prop} (h : Accepts d t)
    (hsave : Exec.wp (saveJobsWith n (ranTable sys d t)) (fun rc fs => rc = 0 ∧ Q fs)
      (fun e _ => E e) (loadFiles d.files)) :
    Exec.wp (cycle sys n attempts)
      (fun ran d' => ran = true ∧ Q d'.files ∧ Fresh d' ∧ d'.waitedTime = d.waitedTime + 1)
      (fun e _ => E e) d := by
  simp only [cycle, load, runDue, renewJobs, save, Exec.wp_bind, wp_onFiles, wp_isJobFree, h.lock,
    Bool.true_eq_false, if_false, Exec.wp_modify, Exec.wp_get, FileStore.content_openCreate,
    h.decodes, Exec.wp_ofExcept_ok, Exec.wp_set, Exec.wp_pure, ne_eq, not_true_eq_false,
    saveJobsDaemon]
  refine Exec.wp_mono hsave ?_ fun _ _ h => h
  rintro rc fs ⟨rfl, hQ⟩
  simp only [not_true_eq_false, if_false, Exec.wp_pure, true_and, and_true]
  exact ⟨hQ, rfl, by simp [Table.Honest, initialScaleSizeOfJobs], rfl⟩

theorem content_loadFiles (fs : Files) (q : Path) : (loadFiles fs).content q = fs.content q := by
  simp [loadFiles]

theorem Accepts.table (h : Accepts d t) (hfresh : Fresh d) :
    (∀ j ∈ t.items, j.Ok) ∧ DistinctJobs t.items :=
  have hload := loadJobsDaemon_eq_ok.mp h.decodes
  have hsound := loadJobs_sound hfresh.honest hfresh.items hload
  ⟨hsound.1, hsound.2.1⟩

theorem ranTable_runsTo (sys : DaemonCalls W) (d : Daemon W) (t : Table Job) :
    List.Forall₂ (RunsTo d.waitedTime) t.items (ranTable sys d t).items :=
  runJobs_runsTo d.waitedTime t.items d.world

theorem ranTable_eq_nil : (ranTable sys d t).items = [] ↔ t.items = [] := by
  rw [← List.length_eq_zero_iff, ← List.length_eq_zero_iff, (ranTable_runsTo sys d t).length_eq]

theorem ranTable_keeps (sys : DaemonCalls W) (h : Accepts d t) (hfresh : Fresh d) :
    (∀ j ∈ (ranTable sys d t).items, j.Ok) ∧ DistinctJobs (ranTable sys d t).items :=
  runsTo_keeps (ranTable_runsTo sys d t) (h.table hfresh).1 (h.table hfresh).2

theorem wp_cycle_erased {n attempts : Nat} (h : Accepts d t) (hn : n = 0) :
    Exec.wp (cycle sys n attempts)
      (fun ran d' => ran = true ∧ (d'.files.content (.file .jobs) = [] ∧
        readsFree (d'.files.content (.file .jobsSync)) = true) ∧ Fresh d' ∧
        d'.waitedTime = d.waitedTime + 1)
      (fun _ _ => False) d := by
  refine wp_cycle (Q := fun fs => fs.content (.file .jobs) = [] ∧
    readsFree (fs.content (.file .jobsSync)) = true) (E := fun _ => False) h ?_
  refine Exec.wp_mono (wp_saveJobsWith_zero (.inl hn) _ _) ?_ fun _ _ h => h
  rintro rc fs ⟨hrc, hfile, hsame⟩
  refine ⟨hrc, hfile, ?_⟩
  rw [hsame _ (by decide), content_loadFiles]
  exact h.lock

theorem wp_cycle_undefined {n attempts : Nat} (h : Accepts d t) (hn : n ≠ 0) (ht : t.items = [])
    (hnull : t.isNull = false) :
    Exec.wp (cycle sys n attempts) (fun _ _ => False) (fun _ _ => True) d := by
  refine Exec.wp_mono (wp_cycle (Q := fun _ => False) (E := fun _ => True) h ?_)
    (fun _ _ h => h.2.1) fun _ _ h => h
  exact (wp_saveJobsWith_undefined (t := ranTable sys d t) (E := fun _ _ => True) hn hnull
    (ranTable_eq_nil.mpr ht)).mpr trivial

theorem Accepts.not_null (h : Accepts d t) (hfresh : Fresh d) (ht : t.items = []) :
    t.isNull = false := by
  obtain ⟨rs, _, hfold⟩ := jobsFormat.parse_eq_fold (loadJobsDaemon_eq_ok.mp h.decodes)
  have hitems := ((jobs_loads 0).sound (hfresh.items ▸ Ledger.distinct_nil) hfold).1
  rw [hfresh.items, List.nil_append, ht] at hitems
  subst hitems
  cases hfold
  exact hfresh.block

/-- A cycle that keeps its table was forked with a matching count. -/
theorem count_of_keeps {n attempts : Nat} (hfresh : Fresh d) (h : Accepts d t)
    (hkeeps : Exec.wp (cycle sys n attempts)
      (fun ran d' => ran = true ∧ Keeps d.waitedTime t.items d'.files) (fun _ _ => False) d) :
    n = 0 ↔ t.items = [] := by
  by_cases hn : n = 0
  · refine ⟨fun _ => ?_, fun _ => hn⟩
    by_contra ht
    refine Exec.not_wp_false (Exec.wp_mono (Exec.wp_and hkeeps (wp_cycle_erased h hn)) ?_
      fun _ _ h => h.1)
    rintro ran d' ⟨⟨-, t', hload, hruns⟩, -, ⟨hfile, -⟩, -⟩
    rw [hfile] at hload
    cases hload
    exact ht (List.forall₂_nil_right_iff.mp hruns)
  · refine ⟨fun h0 => absurd h0 hn, fun ht => ?_⟩
    have hundefined : Exec.wp (cycle sys n attempts) (fun _ _ => False) (fun _ _ => True) d :=
      wp_cycle_undefined h hn ht (h.not_null hfresh ht)
    refine (Exec.not_wp_false (Exec.wp_mono (Exec.wp_and hkeeps hundefined) ?_ ?_)).elim
    · exact fun _ _ h => h.2
    · exact fun _ _ h => h.1

/-- With a matching count the cycle writes its table and leaves the lock free. -/
theorem wp_cycle_table {n attempts : Nat} (h : Accepts d t) (hcount : n = 0 ↔ t.items = []) :
    Exec.wp (cycle sys n attempts)
      (fun ran d' => ran = true ∧
        (d'.files.content (.file .jobs) = jobsText (ranTable sys d t).items ∧
          readsFree (d'.files.content (.file .jobsSync)) = true) ∧ Fresh d' ∧
        d'.waitedTime = d.waitedTime + 1)
      (fun _ _ => False) d := by
  by_cases hn : n = 0
  · refine Exec.wp_mono (wp_cycle_erased h hn) ?_ fun _ _ h => h
    rintro ran d' ⟨hran, ⟨hfile, hlock⟩, hend⟩
    rw [ranTable_eq_nil.mpr (hcount.mp hn)]
    exact ⟨hran, ⟨hfile, hlock⟩, hend⟩
  · refine wp_cycle (Q := fun fs => fs.content (.file .jobs) = jobsText (ranTable sys d t).items ∧
      readsFree (fs.content (.file .jobsSync)) = true) (E := fun _ => False) h ?_
    have hran : (ranTable sys d t).items ≠ [] := ranTable_eq_nil.not.mpr (mt hcount.mpr hn)
    refine Exec.wp_mono (wp_saveJobsWith_table hn hran _) ?_ ?_
    · rintro rc fs ⟨hrc, -, hfile, hlock, -⟩
      exact ⟨hrc, hfile, hlock ▸ readsFree_freeText⟩
    · rintro e fs ⟨-, hno⟩
      exact hno ((LockFree.congr (content_loadFiles _ _)).mpr h.lock)

/-- **When a cycle keeps the table of its file**: the inherited `numberOfJobs` and the
decoded table are both empty or both not. -/
theorem cycle_keeps_iff (sys : DaemonCalls W) (numberOfJobs attempts : Nat) (d : Daemon W)
    (t : Table Job) (hfresh : Fresh d) (h : Accepts d t) :
    Exec.wp (cycle sys numberOfJobs attempts)
      (fun ran d' => ran = true ∧ Keeps d.waitedTime t.items d'.files) (fun _ _ => False) d ↔
    (numberOfJobs = 0 ↔ t.items = []) := by
  constructor
  · exact count_of_keeps hfresh h
  · intro hcount
    obtain ⟨hok, hd⟩ := ranTable_keeps sys h hfresh
    refine Exec.wp_mono (wp_cycle_table h hcount) ?_ fun _ _ h => h
    rintro ran d' ⟨hran, ⟨hfile, -⟩, -⟩
    obtain ⟨t', hload, hitems, -⟩ := loadJobs_jobsText (Table.honest_alloc _) rfl hok hd
    exact ⟨hran, t', by rw [hfile]; exact hload, hitems ▸ ranTable_runsTo sys d t⟩

/-- A daemon forked before the first job was added, on a file with one job. -/
def earlyDaemon : Daemon Unit where
  files := FileStore.put (fun _ => none) (.file .jobs) (jobsText [oneJob])
  world := ()
  jobs := .alloc initialScaleSizeOfJobs
  waitedTime := 1

def idleCalls : DaemonCalls Unit := ⟨fun _ _ => (none, ())⟩

theorem earlyDaemon_fresh : Fresh earlyDaemon := ⟨rfl, Table.honest_alloc _, rfl⟩

theorem earlyDaemon_accepts : ∃ t, Accepts earlyDaemon t ∧ t.items = [oneJob] := by
  obtain ⟨t, hload, hitems, -⟩ := loadJobs_jobsText (l := [oneJob]) earlyDaemon_fresh.honest rfl
    (by simpa using oneJob_ok) (List.pairwise_singleton _ _)
  exact ⟨t, ⟨rfl, loadJobsDaemon_eq_ok.mpr hload⟩, hitems⟩

theorem cycle_keeps_iff_earlyDaemon :
    ∃ t : Table Job, Exec.wp (cycle idleCalls 1 0)
      (fun ran d' => ran = true ∧ Keeps earlyDaemon.waitedTime t.items d'.files)
      (fun _ _ => False) earlyDaemon ↔ (1 = 0 ↔ t.items = []) :=
  earlyDaemon_accepts.imp fun t h =>
    cycle_keeps_iff idleCalls 1 0 earlyDaemon t earlyDaemon_fresh h.1

theorem not_cycle_keeps_earlyDaemon :
    ∃ t : Table Job, Fresh earlyDaemon ∧ Accepts earlyDaemon t ∧ ¬Exec.wp (cycle idleCalls 0 0)
      (fun ran d' => ran = true ∧ Keeps earlyDaemon.waitedTime t.items d'.files)
      (fun _ _ => False) earlyDaemon := by
  obtain ⟨t, haccepts, hitems⟩ := earlyDaemon_accepts
  refine ⟨t, earlyDaemon_fresh, haccepts, fun hkeeps => ?_⟩
  have hnil := (count_of_keeps earlyDaemon_fresh haccepts hkeeps).mp rfl
  rw [hitems] at hnil
  cases hnil

/-! ## Many cycles -/

/-- The daemon left alone for some rounds. -/
def cycles (sys : DaemonCalls W) (numberOfJobs attempts : Nat) : Nat → Exec (Daemon W) Unit
  | 0 => pure ()
  | rounds + 1 => do
    let _ ← cycle sys numberOfJobs attempts
    cycles sys numberOfJobs attempts rounds

def identity (j : Job) : CStr × CStr × BitVec 64 := (j.name, j.runnableFile, j.secondsInterval)

theorem RunsTo.identity {waitedTime : BitVec 64} {j j' : Job} (h : RunsTo waitedTime j j') :
    identity j' = identity j := by
  obtain rfl | ⟨_, pid, now, rfl⟩ := h <;> rfl

/-- A fresh daemon whose next load returns the jobs `l`, up to pids and times. -/
def Serves (l : List Job) (d : Daemon W) : Prop :=
  Fresh d ∧ ∃ t, Accepts d t ∧ t.items.map identity = l.map identity

theorem forall₂_identity {waitedTime : BitVec 64} {l l' : List Job}
    (h : List.Forall₂ (RunsTo waitedTime) l l') : l'.map identity = l.map identity := by
  induction h with
  | nil => rfl
  | cons hj _ ih => rw [List.map_cons, List.map_cons, hj.identity, ih]

theorem wp_cycle_serves {n attempts : Nat} {l : List Job} (hcount : n = 0 ↔ l = [])
    (h : Serves l d) :
    Exec.wp (cycle sys n attempts) (fun _ d' => Serves l d') (fun _ _ => False) d := by
  obtain ⟨hfresh, t, haccepts, hsame⟩ := h
  have hnil : t.items = [] ↔ l = [] := by
    rw [← List.map_eq_nil_iff (f := identity), hsame, List.map_eq_nil_iff]
  obtain ⟨hok, hd⟩ := ranTable_keeps sys haccepts hfresh
  refine Exec.wp_mono (wp_cycle_table haccepts (hcount.trans hnil.symm)) ?_ fun _ _ h => h
  rintro ran d' ⟨-, ⟨hfile, hlock⟩, hfresh', -⟩
  obtain ⟨t', hload, hitems, -⟩ := loadJobs_jobsText hfresh'.honest hfresh'.items hok hd
  refine ⟨hfresh', t', ⟨hlock, ?_⟩, ?_⟩
  · rw [loadJobsDaemon_eq_ok, hfile]
    exact hload
  · rw [hitems, forall₂_identity (ranTable_runsTo sys d t), hsame]

/-- **An undisturbed daemon keeps its jobs** through any number of cycles. -/
theorem cycles_serve {n attempts : Nat} {l : List Job} (hcount : n = 0 ↔ l = [])
    (rounds : Nat) :
    ∀ {d : Daemon W}, Serves l d →
      Exec.wp (cycles sys n attempts rounds) (fun _ d' => Serves l d') (fun _ _ => False) d := by
  induction rounds with
  | zero => exact fun h => (Exec.wp_pure _).mpr h
  | succ rounds ih =>
    intro d h
    simp only [cycles, Exec.wp_bind]
    exact Exec.wp_mono (wp_cycle_serves hcount h) (fun _ _ h' => ih h') fun _ _ h' => h'

end specs

end Daemon

end MiniRunner
