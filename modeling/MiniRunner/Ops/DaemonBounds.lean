import MiniRunner.Clib.RecordReader
import MiniRunner.Daemon
import MiniRunner.Ops.Bounds

/-!
# The bounds of the daemon's array

A cycle of `runJobsDaemon` loads the jobs file into the array it has, walks over the entries
to run, to save and to free them, and allocates the 4 slots of the next cycle with a capacity
of 0. A load that fails leaves the entries it has, which are freed as well. Allocations
succeed.
-/

namespace MiniRunner

open Clib Cells

namespace Bounds

/-! ## The operations -/

/-- The fields of the jobs file; a zero interval is rejected. -/
def jobReader : RecordReader JobField Job where
  delim
    | .findName => caret
    | .findRunnable _ => hash
    | .findTime _ _ => dollar
    | .findInterval _ _ _ => atSign
    | .findPid _ _ _ _ => newline
  field
    | .findName, name => some (.findRunnable name, none)
    | .findRunnable name, runnableFile => some (.findTime name runnableFile, none)
    | .findTime name runnableFile, lastTimeRunnedBuff =>
      some (.findInterval name runnableFile (atol lastTimeRunnedBuff), none)
    | .findInterval name runnableFile lastTimeRunned, intervalBuff =>
      if atol intervalBuff = 0 then none
      else some (.findPid name runnableFile lastTimeRunned (atol intervalBuff), none)
    | .findPid name runnableFile lastTimeRunned interval, pidBuff =>
      some (.findName, some ⟨name, runnableFile, lastTimeRunned, interval, atoi pidBuff⟩)

/-- What a job that is due brings: nothing, or the pid its child wrote and the time after. -/
abbrev Started := Nat → Job → Option (BitVec 32 × BitVec 64)

section daemon

variable (junk : Nat → Job) (jobs : Cells Job)

/-- The daemon's copy of `loadJob`. -/
def loadJobDaemon (newJob : Job) : Except Halt (Int × Cells Job) := loadJob junk jobs newJob

def loadJobsDaemon (data : Bytes) : Except Halt (Int × Cells Job) :=
  jobReader.readInto (fun newJob jobs => loadJobDaemon junk jobs newJob) .findName data jobs

/-- The loop over `n` jobs from `i` on that runs those that are due. -/
def runFrom (waitedTime : BitVec 64) (started : Started) :
    Nat → Nat → Cells Job → Except Halt (Cells Job)
  | 0, _, jobs => .ok jobs
  | n + 1, i, jobs => do
    let currentJob ← jobs.read i
    if Daemon.isDue waitedTime currentJob then
      match started i currentJob with
      | none => runFrom waitedTime started n (i + 1) jobs
      | some (pid, now) =>
        let jobs ← jobs.write i { currentJob with pid := pid, lastTimeRunned := now }
        runFrom waitedTime started n (i + 1) jobs
    else runFrom waitedTime started n (i + 1) jobs

/-- The text of the `n` jobs from `i` on. -/
def textFrom (jobs : Cells Job) : Nat → Nat → Except Halt Bytes
  | 0, _ => .ok []
  | n + 1, i => do
    let j ← jobs.read i
    let rest ← textFrom jobs n (i + 1)
    pure (jobText j ++ rest)

/-- `save_jobs_daemon`; without a job `strlen` gets NULL. -/
def saveJobsDaemon (numberOfJobs : Nat) : Except Halt Unit :=
  if numberOfJobs = 0 ∨ jobs.block.isNone then pure ()
  else do
    let dataTobeWritten ← textFrom jobs jobs.count 0
    if dataTobeWritten = [] then throw .aborted else pure ()

/-- It is called until it returns 0, after `failed` times that it does not. -/
def saveUntil (numberOfJobs : Nat) : Nat → Except Halt Unit
  | 0 => saveJobsDaemon jobs numberOfJobs
  | failed + 1 => do
    saveJobsDaemon jobs numberOfJobs
    saveUntil numberOfJobs failed

/-- Free each of the `n` jobs from `i` on. -/
def freeFrom (jobs : Cells Job) : Nat → Nat → Except Halt Unit
  | 0, _ => .ok ()
  | n + 1, i => do
    let _currentJob ← jobs.read i
    freeFrom jobs n (i + 1)

def freeJobs : Except Halt (Cells Job) := do
  if jobs.block.isNone then pure ⟨none, 0, 0⟩
  else
    freeFrom jobs jobs.count 0
    pure { jobs.free with count := 0, capacity := 0 }

def newJobMemory : Cells Job :=
  { jobs with block := some ((List.range initialScaleSizeOfJobs).map junk) }

end daemon

/-! ## Cycles -/

/-- The array between two cycles, and the cycles that ran. -/
structure DaemonArray where
  jobs : Cells Job
  waitedTime : BitVec 64

/-- What a cycle finds: the file, the children of the jobs, the saves that fail, and what is
in the slots that it allocates. -/
structure Round where
  file : Bytes
  started : Started
  failedSaves : Nat
  junk : Nat → Job

def DaemonArray.start (junk : Nat → Job) : DaemonArray where
  jobs := ⟨some ((List.range initialScaleSizeOfJobs).map junk), 0, initialScaleSizeOfJobs⟩
  waitedTime := 0

namespace Round

/-- One round of the loop of `runJobsDaemon`. -/
def cycle (numberOfJobs : Nat) (a : Round) (d : DaemonArray) : Except Halt DaemonArray := do
  let (rc, jobs) ← loadJobsDaemon a.junk d.jobs a.file
  if rc ≠ 0 then
    let jobs ← freeJobs jobs
    pure { d with jobs := newJobMemory a.junk jobs }
  else
    let jobs ← runFrom d.waitedTime a.started jobs.count 0 jobs
    saveUntil jobs numberOfJobs a.failedSaves
    let jobs ← freeJobs jobs
    pure ⟨newJobMemory a.junk jobs, d.waitedTime + 1⟩

def step (numberOfJobs : Nat) (a : Round) (d : DaemonArray) : Option DaemonArray :=
  match a.cycle numberOfJobs d with
  | .ok d' => some d'
  | .error _ => none

/-- **Every index is below the number of allocated slots**, in the whole cycle, and the
capacity is not above it: not after any number of bytes of the file, and not after the
cycle. -/
structure InBounds (numberOfJobs : Nat) (d : DaemonArray) (a : Round) : Prop where
  stays : Cells.Stays (a.cycle numberOfJobs d)
  loading : ∀ i rc jobs, loadJobsDaemon a.junk d.jobs (a.file.take i) = .ok (rc, jobs) →
    jobs.capacity ≤ jobs.slots
  after : ∀ d', a.step numberOfJobs d = some d' → d'.jobs.capacity ≤ d'.jobs.slots

end Round

/-! ## What a cycle keeps -/

section cycle

variable {jobs : Cells Job} (junk : Nat → Job)

theorem backed_loadJobDaemon (h : jobs.Backed) (newJob : Job) :
    ∃ b, loadJobDaemon junk jobs newJob = .ok b ∧ b.2.Backed := by
  obtain ⟨hr, hlt⟩ := h.reserve jobGrowth_safe junk
  rw [loadJobDaemon, loadJob]
  rcases hr.find (jobClash · newJob) with hfind | ⟨i, hfind, -⟩
  · obtain ⟨t, ht, hbacked, -⟩ := hr.push hlt newJob
    rw [hfind]
    simp only [bind, Except.bind, ht]
    exact ⟨_, rfl, hbacked⟩
  · rw [hfind]
    exact ⟨_, rfl, hr⟩

theorem backed_loadJobsDaemon (h : jobs.Backed) (data : Bytes) :
    ∃ b, loadJobsDaemon junk jobs data = .ok b ∧ b.2.Backed := by
  rw [loadJobsDaemon, RecordReader.readInto_eq]
  generalize (jobReader.records .findName data).1 = l
  induction l generalizing jobs with
  | nil => exact ⟨_, rfl, h⟩
  | cons newJob l ih =>
    obtain ⟨⟨rc, t⟩, ht, hbacked⟩ := backed_loadJobDaemon junk h newJob
    simp only [RecordReader.loadUntil, ht, bind, Except.bind]
    split
    · exact ⟨_, rfl, hbacked⟩
    · exact ih hbacked

theorem backed_runFrom (waitedTime : BitVec 64) (started : Started) {n i : Nat}
    (h : jobs.Backed) (hn : i + n ≤ jobs.slots) :
    ∃ t, runFrom waitedTime started n i jobs = .ok t ∧ t.Backed := by
  induction n generalizing jobs i with
  | zero => exact ⟨_, rfl, h⟩
  | succ n ih =>
    have hslot : i < jobs.slots := by omega
    rw [runFrom, read_eq hslot]
    simp only [bind, Except.bind]
    split
    · split
      · exact ih h (by omega)
      · rw [write_eq hslot]
        exact ih (h.set i _) (by rw [slots_set]; omega)
    · exact ih h (by omega)

theorem textFrom_ok {n i : Nat} (hn : i + n ≤ jobs.slots) :
    ∃ text, textFrom jobs n i = .ok text := by
  induction n generalizing i with
  | zero => exact ⟨_, rfl⟩
  | succ n ih =>
    obtain ⟨rest, hrest⟩ := ih (i := i + 1) (by omega)
    rw [textFrom, read_eq (by omega)]
    exact ⟨_, by simp only [bind, Except.bind, hrest]; rfl⟩

theorem freeFrom_ok {n i : Nat} (hn : i + n ≤ jobs.slots) : freeFrom jobs n i = .ok () := by
  induction n generalizing i with
  | zero => rfl
  | succ n ih =>
    rw [freeFrom, read_eq (by omega)]
    exact ih (by omega)

theorem backed_le_slots (h : jobs.Backed) : 0 + jobs.count ≤ jobs.slots := by
  have := h.le_capacity
  have := h.le_slots
  omega

/-- A save ends, or the process does. -/
theorem saveUntil_cases (h : jobs.Backed) (numberOfJobs failed : Nat) :
    saveUntil jobs numberOfJobs failed = .ok () ∨
      saveUntil jobs numberOfJobs failed = .error .aborted := by
  obtain ⟨text, htext⟩ := textFrom_ok (backed_le_slots h)
  have hsave : saveJobsDaemon jobs numberOfJobs = .ok () ∨
      saveJobsDaemon jobs numberOfJobs = .error .aborted := by
    rw [saveJobsDaemon, htext]
    split
    · exact .inl rfl
    · simp only [bind, Except.bind]
      split
      · exact .inr rfl
      · exact .inl rfl
  induction failed with
  | zero => exact hsave
  | succ failed ih =>
    rw [saveUntil]
    rcases hsave with hok | herror
    · rw [hok]
      exact ih
    · rw [herror]
      exact .inr rfl

theorem backed_freeJobs (h : jobs.Backed) : ∃ t, freeJobs jobs = .ok t ∧
    (newJobMemory junk t).Backed := by
  have hnew (t : Cells Job) (hcount : t.count = 0) (hcap : t.capacity = 0) :
      (newJobMemory junk t).Backed :=
    ⟨Nat.le_trans (Nat.le_of_eq hcount) (Nat.zero_le _),
      Nat.le_trans (Nat.le_of_eq hcap) (Nat.zero_le _)⟩
  rw [freeJobs]
  split
  · exact ⟨_, rfl, hnew _ rfl rfl⟩
  · rw [freeFrom_ok (backed_le_slots h)]
    exact ⟨_, rfl, hnew _ rfl rfl⟩

/-- A cycle leaves an array for the next one, or the process ends in its save. -/
theorem backed_cycle {d : DaemonArray} (h : d.jobs.Backed) (numberOfJobs : Nat) (a : Round) :
    (∃ d', a.cycle numberOfJobs d = .ok d' ∧ d'.jobs.Backed) ∨
      a.cycle numberOfJobs d = .error .aborted := by
  obtain ⟨⟨rc, t⟩, ht, hloaded⟩ := backed_loadJobsDaemon a.junk h a.file
  rw [Round.cycle, ht]
  simp only [bind, Except.bind]
  split
  · obtain ⟨u, hu, hnew⟩ := backed_freeJobs a.junk hloaded
    rw [hu]
    exact .inl ⟨_, rfl, hnew⟩
  · obtain ⟨v, hv, hran⟩ := backed_runFrom d.waitedTime a.started hloaded (backed_le_slots hloaded)
    rw [hv]
    rcases saveUntil_cases hran numberOfJobs a.failedSaves with hok | herror
    · obtain ⟨u, hu, hnew⟩ := backed_freeJobs a.junk hran
      simp only [hok, hu]
      exact .inl ⟨_, rfl, hnew⟩
    · exact .inr (by simp only [herror])

theorem Round.inBounds {d : DaemonArray} (h : d.jobs.Backed) {numberOfJobs : Nat} {a : Round} :
    a.InBounds numberOfJobs d where
  stays := by
    rcases backed_cycle h numberOfJobs a with ⟨d', hd', -⟩ | herror
    · rw [hd']
      trivial
    · rw [herror]
      trivial
  loading i rc t hload := by
    obtain ⟨b, hb, hbacked⟩ := backed_loadJobsDaemon a.junk h (a.file.take i)
    rw [hb] at hload
    cases hload
    exact hbacked.le_slots
  after d' hstep := by
    rw [Round.step] at hstep
    rcases backed_cycle h numberOfJobs a with ⟨d'', hd'', hbacked⟩ | herror
    · rw [hd''] at hstep
      cases hstep
      exact hbacked.le_slots
    · rw [herror] at hstep
      cases hstep

theorem backed_step {d d' : DaemonArray} {numberOfJobs : Nat} {a : Round} (h : d.jobs.Backed)
    (hstep : a.step numberOfJobs d = some d') : d'.jobs.Backed := by
  rw [Round.step] at hstep
  rcases backed_cycle h numberOfJobs a with ⟨d'', hd'', hbacked⟩ | herror
  · rw [hd''] at hstep
    cases hstep
    exact hbacked
  · rw [herror] at hstep
    cases hstep

theorem backed_start : (DaemonArray.start junk).jobs.Backed where
  le_capacity := Nat.zero_le _
  le_slots := by simp [DaemonArray.start, Cells.slots]

end cycle

/-- **The daemon's array stays in its allocation** over any number of cycles, whatever the
files, the children and the saves do, and whatever number of jobs the process inherited. -/
theorem daemon_inBounds (numberOfJobs : Nat) (junk : Nat → Job) (rounds : List Round) :
    Guarded (Round.step numberOfJobs) (fun d a => a.InBounds numberOfJobs d) rounds
      (.start junk) :=
  guarded_of_inv (fun h => Round.inBounds h) (fun h hstep => backed_step h hstep) rounds
    (backed_start junk)

/-! ## The same load on a table -/

section agrees

variable {jobs : Cells Job} {t : Table Job}

theorem loadJobsDaemon_eq (t : Table Job) (data : Bytes) : MiniRunner.loadJobsDaemon t data =
    jobReader.readInto MiniRunner.loadJobDaemon .findName data t := by
  have hscanner : jobsScanner (ε := DaemonReject) MiniRunner.loadJobDaemon .inl .inr =
      jobReader.scanner (RecordReader.stopAt MiniRunner.loadJobDaemon) .inr := by
    rw [jobsScanner, RecordReader.scanner]
    congr 1
    funext q s t
    cases q with
    | findInterval name runnableFile lastTimeRunned =>
      simp only [jobReader]
      split <;> rfl
    | findPid name runnableFile lastTimeRunned interval =>
      simp only [jobReader, RecordReader.stopAt]
      cases MiniRunner.loadJobDaemon ⟨name, runnableFile, lastTimeRunned, interval, atoi s⟩ t with
      | error e => rfl
      | ok b =>
        obtain ⟨rc, t'⟩ := b
        by_cases hrc : rc ≠ 0
        · simp only [if_pos hrc]
          rfl
        · simp only [if_neg hrc]
          rfl
    | _ => rfl
  rw [MiniRunner.loadJobsDaemon, hscanner, RecordReader.readInto]
  rcases (jobReader.scanner _ _).parse _ data t with (e | t') | t' <;> rfl

/-- The array of a load has the entries of the table. -/
theorem loadJobsDaemon_agrees (h : jobs.Shows t) (hbacked : jobs.Backed)
    (junk : Nat → Job) (data : Bytes) : Agrees (fun a b => a.1 = b.1 ∧ a.2.Shows b.2)
      (loadJobsDaemon junk jobs data) (MiniRunner.loadJobsDaemon t data) := by
  rw [loadJobsDaemon_eq, loadJobsDaemon, RecordReader.readInto_eq, RecordReader.readInto_eq]
  generalize (jobReader.records .findName data).1 = l
  induction l generalizing jobs t with
  | nil => exact ⟨rfl, h⟩
  | cons newJob l ih =>
    have hload := loadJob_agrees h (by
      rw [← h.count, ← h.capacity]
      exact hbacked.le_capacity) junk newJob
    obtain ⟨⟨rc, jobs'⟩, hjobs, hbacked'⟩ := backed_loadJobDaemon junk hbacked newJob
    rw [← loadJobDaemon, ← MiniRunner.loadJobDaemon, hjobs] at hload
    rw [RecordReader.loadUntil, RecordReader.loadUntil, hjobs]
    cases ht : MiniRunner.loadJobDaemon newJob t with
    | error e =>
      rw [ht] at hload
      exact hload.elim
    | ok b =>
      obtain ⟨rc', t'⟩ := b
      rw [ht] at hload
      obtain ⟨rfl, hshows⟩ := hload
      simp only [bind, Except.bind]
      split
      · exact ⟨rfl, hshows⟩
      · exact ih hshows hbacked'

theorem newJobMemory_shows (junk : Nat → Job) (h : jobs.count = 0) (hcap : jobs.capacity = 0) :
    (newJobMemory junk jobs).Shows (.blank 0 initialScaleSizeOfJobs) where
  items := by simp [newJobMemory, h]
  count := h
  capacity := hcap
  slots := by simp [newJobMemory, Cells.slots]

end agrees

end Bounds

end MiniRunner
