import MiniRunner.Clib.Decimal
import MiniRunner.Clib.Paths
import MiniRunner.Clib.Pipe
import MiniRunner.Schedule

/-!
# The start of a job

What `runJobsDaemon` does for a due job. The child looks for the directory of the script,
goes there, writes its pid into a pipe and hands the script to `bash`; the `0` that is to
report a failed `exec` goes to a closed descriptor. Unlike the start of a service, the parent
first waits for the child to end, so the script is over when its pid is read.

The daemon of `Daemon` asks its `DaemonCalls` to start a job; `calls` answers with the code.
-/

namespace MiniRunner.JobStart

open Clib Schedule

/-! ## The directory of a script -/

/-- The loop of `getPath` from an index down to 1. -/
def getPathFrom (runnableFile : Bytes) : Nat → Option Bytes
  | 0 => none
  | i + 1 =>
    if runnableFile[i + 1]? = some slash then some (runnableFile.take (i + 1))
    else getPathFrom runnableFile i

def getPath (runnableFile : CStr) : Option CStr :=
  (getPathFrom runnableFile.bytes (runnableFile.len - 1)).map .ofBytes

section getPath

variable {bs : Bytes}

/-- There is a `/` behind the first byte. -/
def HasDirectory (runnableFile : CStr) : Prop := slash ∈ runnableFile.bytes.tail

instance (runnableFile : CStr) : Decidable (HasDirectory runnableFile) :=
  inferInstanceAs (Decidable (_ ∈ _))

theorem getPathFrom_eq_some {n : Nat} {path : Bytes} (h : getPathFrom bs n = some path) :
    ∃ i, 0 < i ∧ i ≤ n ∧ bs[i]? = some slash ∧ path = bs.take i ∧
      ∀ j, i < j → j ≤ n → bs[j]? ≠ some slash := by
  induction n with
  | zero => cases h
  | succ n ih =>
    rw [getPathFrom] at h
    split at h
    · rename_i hslash
      exact ⟨n + 1, by omega, le_rfl, hslash, (Option.some.inj h).symm, fun j _ _ => by omega⟩
    · rename_i hother
      obtain ⟨i, hpos, hle, hslash, hpath, hlast⟩ := ih h
      refine ⟨i, hpos, by omega, hslash, hpath, fun j hij hj => ?_⟩
      by_cases hlt : j ≤ n
      · exact hlast j hij hlt
      · rwa [show j = n + 1 by omega]

theorem getPathFrom_eq_none {n : Nat} :
    getPathFrom bs n = none ↔ ∀ i, 0 < i → i ≤ n → bs[i]? ≠ some slash := by
  induction n with
  | zero => exact iff_of_true rfl fun i _ _ => by omega
  | succ n ih =>
    rw [getPathFrom]
    split
    · rename_i hslash
      exact iff_of_false (by simp) fun h => h (n + 1) (by omega) le_rfl hslash
    · rename_i hother
      rw [ih]
      refine ⟨fun h i hpos hi => ?_, fun h i hpos hi => h i hpos (by omega)⟩
      by_cases hlt : i ≤ n
      · exact h i hpos hlt
      · rwa [show i = n + 1 by omega]

/-- **Which scripts have a directory**: those with a `/` behind their first byte. -/
theorem getPath_isSome {runnableFile : CStr} :
    (getPath runnableFile).isSome ↔ HasDirectory runnableFile := by
  rw [getPath, Option.isSome_map, ← Option.not_isNone, Bool.not_eq_true', ← Bool.not_eq_true,
    Option.isNone_iff_eq_none, getPathFrom_eq_none, HasDirectory, List.mem_iff_getElem?]
  simp only [CStr.len, List.getElem?_tail]
  constructor
  · intro h
    by_contra hno
    refine h fun i hpos hi hslash => hno ⟨i - 1, ?_⟩
    rwa [Nat.sub_add_cancel hpos]
  · rintro ⟨i, hslash⟩ h
    have hlt : i + 1 < runnableFile.bytes.length := (List.getElem?_eq_some_iff.mp hslash).1
    exact h (i + 1) (by omega) (by omega) hslash

/-- It is what stands before the last `/`. -/
theorem getPath_eq_some {runnableFile path : CStr} (h : getPath runnableFile = some path) :
    path.bytes ≠ [] ∧ ∃ rest, slash ∉ rest ∧
      runnableFile.bytes = path.bytes ++ slash :: rest := by
  obtain ⟨bs, hbs, rfl⟩ := Option.map_eq_some_iff.mp h
  obtain ⟨i, hpos, hle, hslash, rfl, hlast⟩ := getPathFrom_eq_some hbs
  obtain ⟨hlt, heq⟩ := List.getElem?_eq_some_iff.mp hslash
  have hnul : (0 : UInt8) ∉ runnableFile.bytes.take i := fun hmem =>
    runnableFile.noNul (List.mem_of_mem_take hmem)
  rw [CStr.ofBytes_bytes_of_noNul hnul]
  refine ⟨?_, runnableFile.bytes.drop (i + 1), ?_, ?_⟩
  · rw [ne_eq, List.take_eq_nil_iff]
    rintro (h0 | hnil)
    · omega
    · rw [hnil] at hlt
      cases hlt
  · rw [List.mem_iff_getElem?]
    rintro ⟨j, hj⟩
    rw [List.getElem?_drop] at hj
    have hjlt : i + 1 + j < runnableFile.bytes.length := (List.getElem?_eq_some_iff.mp hj).1
    refine hlast (i + 1 + j) (by omega) ?_ hj
    simp only [CStr.len]
    omega
  · rw [← heq, ← List.drop_eq_getElem_cons hlt, List.take_append_drop]

end getPath

/-! ## The start -/

structure Pid where
  value : BitVec 32
  positive : 0 < value.toInt

/-- The system, as the start of a job sees it. -/
structure Kernel (W : Type) where
  pipe : W → Bool × W
  fork : W → Option Pid × W
  chdir : CStr → W → Bool × W
  /-- `execlp` of `bash` for a script in a directory, and the script to its end; or no `bash`. -/
  bash : CStr → CStr → W → Bool × W
  time : W → BitVec 64 × W

/-- The child: the pipe, whether it has its write end, and the world. -/
structure Child (W : Type) where
  pipe : Pipe
  canWrite : Bool
  world : W

variable {W : Type}

namespace Child

def call {α : Type} (f : W → α × W) : Exec (Child W) α := fun c =>
  .ok (f c.world).1 { c with world := (f c.world).2 }

def closeRead : Exec (Child W) Unit := modify fun c => { c with pipe := c.pipe.closeReader }

def closed (c : Child W) : Child W :=
  { c with pipe := if c.canWrite then c.pipe.closeWriter else c.pipe, canWrite := false }

def closeWrite : Exec (Child W) Unit := modify closed

/-- `write` and `check_write`. -/
def write (text : Bytes) : Exec (Child W) Unit := do
  let c ← get
  match if c.canWrite then c.pipe.write text else none with
  | some pipe => set { c with pipe := pipe }
  | none => throw .aborted

/-- `"0\0"`, with its NUL. -/
def zeroText : Bytes := [48, 0]

def refuse : Exec (Child W) Unit := do
  write zeroText
  closeWrite
  throw .aborted

/-- `snprintf(res, 13, "%i", getpid())`, with its NUL. -/
def pidText (pid : BitVec 32) : Bytes :=
  ((fmtInt32 pid).bytes.take 12 ++ [0]).take ((fmtInt32 pid).len + 1)

/-- What the child does with the job. The second close of its read end does nothing. -/
def run (k : Kernel W) (pid : Pid) (currentJob : Job) : Exec (Child W) Unit := do
  closeRead
  match getPath currentJob.runnableFile with
  | none => refuse
  | some path =>
    if (← call (k.chdir path)) = false then refuse
    else
      write (pidText pid.value)
      closeWrite
      if (← call (k.bash path currentJob.runnableFile)) then pure () else refuse

end Child

/-- `waitpid` for the child: what it leaves of the pipe when it has ended. -/
def waitFor (k : Kernel W) (pid : Pid) (currentJob : Job) : Exec W Pipe := fun w =>
  match (Child.run k pid currentJob).run ⟨.shared 2, true, w⟩ with
  | .ok _ c | .error _ c => .ok c.closed.pipe c.world

def ask {α : Type} (f : W → α × W) : Exec W α := fun w => .ok (f w).1 (f w).2

/-- The size of `resBuff`. -/
def buffSize : Nat := 13

/-- The parent behind `waitpid`: the pid that it reads and the time, or nothing. -/
def hear (k : Kernel W) (pipe : Pipe) : Exec W (Option (BitVec 32 × BitVec 64)) :=
  match pipe.closeWriter.read buffSize with
  | none => throw .blocked
  | some (resBuff, _) =>
    if resBuff = [] then pure none
    else if 0 ∉ resBuff then throw .undefined
    else do
      let now ← ask k.time
      let _ ← ask k.time
      pure (some (atoi (.ofBytes resBuff), now))

/-- A due job. Without a child, `waitpid(-1, ..)` fails at once. -/
def start (k : Kernel W) (currentJob : Job) : Exec W (Option (BitVec 32 × BitVec 64)) := do
  if (← ask k.pipe) = false then pure none
  else
    let _ ← ask k.time
    match ← ask k.fork with
    | none => hear k (.shared 1)
    | some pid =>
      let pipe ← waitFor k pid currentJob
      hear k pipe

/-! ## What it does -/

/-- Bash gets the script: it has a directory, and the child can go there. -/
def reaches (k : Kernel W) (currentJob : Job) (w : W) : Bool :=
  match getPath currentJob.runnableFile with
  | none => false
  | some path => (k.chdir path w).1

def childWorld (k : Kernel W) (currentJob : Job) (w : W) : W :=
  match getPath currentJob.runnableFile with
  | none => w
  | some path =>
    if (k.chdir path w).1 then (k.bash path currentJob.runnableFile (k.chdir path w).2).2
    else (k.chdir path w).2

section specs

variable {k : Kernel W} {currentJob : Job} {pid : Pid}

theorem pidText_eq (pid : Pid) : Child.pidText pid.value = (fmtInt32 pid.value).bytes ++ [0] ∧
    (Child.pidText pid.value).length ≤ buffSize := by
  obtain ⟨hlt, htext⟩ := fmtInt32_of_pos pid.positive
  have hlen : (fmtInt32 pid.value).bytes.length ≤ 10 := by
    rw [htext]
    exact length_fmtNat_le (k := 10) (by decide) (by omega)
  have hcut : (fmtInt32 pid.value).bytes.take 12 = (fmtInt32 pid.value).bytes :=
    List.take_of_length_le (by omega)
  have heq : Child.pidText pid.value = (fmtInt32 pid.value).bytes ++ [0] := by
    rw [Child.pidText, CStr.len, hcut]
    exact List.take_of_length_le (by simp)
  refine ⟨heq, ?_⟩
  rw [heq, List.length_append, List.length_singleton, buffSize]
  omega

theorem wp_call {α : Type} {f : W → α × W} {Q : α → Child W → Prop} {E : Halt → Child W → Prop}
    {c : Child W} :
    Exec.wp (Child.call f) Q E c ↔ Q (f c.world).1 { c with world := (f c.world).2 } :=
  Exec.wp_total

theorem wp_ask {α : Type} {f : W → α × W} {Q : α → W → Prop} {E : Halt → W → Prop} {w : W} :
    Exec.wp (ask f) Q E w ↔ Q (f w).1 (f w).2 := Exec.wp_total

theorem wp_write {text : Bytes} {Q : Unit → Child W → Prop} {E : Halt → Child W → Prop}
    {pipe : Pipe} (hreaders : 0 < pipe.readers) {w : W} :
    Exec.wp (Child.write text) Q E ⟨pipe, true, w⟩ ↔
      Q () ⟨{ pipe with data := pipe.data ++ text }, true, w⟩ := by
  simp only [Child.write, Exec.wp_bind, Exec.wp_get, if_true, Pipe.write_of_readers hreaders,
    Exec.wp_set]

theorem wp_refuse {Q : Unit → Child W → Prop} {E : Halt → Child W → Prop} {pipe : Pipe}
    (hreaders : 0 < pipe.readers) {w : W} :
    Exec.wp Child.refuse Q E ⟨pipe, true, w⟩ ↔ E .aborted
      ⟨Pipe.closeWriter { pipe with data := pipe.data ++ Child.zeroText }, false, w⟩ := by
  simp only [Child.refuse, Exec.wp_bind, wp_write hreaders, Child.closeWrite, Exec.wp_modify,
    Exec.wp_throw, Child.closed, if_true]

theorem wp_refuse_closed {Q : Unit → Child W → Prop} {E : Halt → Child W → Prop} {pipe : Pipe}
    {w : W} : Exec.wp Child.refuse Q E ⟨pipe, false, w⟩ ↔ E .aborted ⟨pipe, false, w⟩ := by
  simp only [Child.refuse, Child.write, Exec.wp_bind, Exec.wp_get, Bool.false_eq_true, if_false,
    Exec.wp_throw]

theorem wp_waitFor_iff {Q : Pipe → W → Prop} {E : Halt → W → Prop} {w : W} :
    Exec.wp (waitFor k pid currentJob) Q E w ↔
      Exec.wp (Child.run k pid currentJob) (fun _ c => Q c.closed.pipe c.world)
        (fun _ c => Q c.closed.pipe c.world) ⟨.shared 2, true, w⟩ := by
  simp only [Exec.wp, EStateM.run, waitFor]
  cases Child.run k pid currentJob ⟨.shared 2, true, w⟩ <;> rfl

/-- **What the child leaves**: one message, said before it has tried `bash`. -/
theorem wp_waitFor {Q : Pipe → W → Prop} {E : Halt → W → Prop} {w : W} :
    Exec.wp (waitFor k pid currentJob) Q E w ↔
      Q ⟨if reaches k currentJob w then Child.pidText pid.value else Child.zeroText, 1, 1⟩
        (childWorld k currentJob w) := by
  have hopen : 0 < (Pipe.shared 2).closeReader.readers := by decide
  have hzero : ∀ {w : W}, Exec.wp Child.refuse (fun _ c => Q c.closed.pipe c.world)
      (fun _ c => Q c.closed.pipe c.world) ⟨(Pipe.shared 2).closeReader, true, w⟩ ↔
      Q ⟨Child.zeroText, 1, 1⟩ w := wp_refuse hopen
  rw [wp_waitFor_iff]
  simp only [Child.run, Child.closeRead, Exec.wp_bind, Exec.wp_modify, reaches, childWorld]
  obtain hpath | ⟨path, hpath⟩ := Option.eq_none_or_eq_some (getPath currentJob.runnableFile)
  · simp only [hpath, hzero, Bool.false_eq_true, if_false]
  · simp only [hpath, Exec.wp_bind, wp_call, Exec.wp_ite]
    cases hdir : (k.chdir path w).1 with
    | false => simp [hzero]
    | true =>
      simp only [Bool.true_eq_false, not_false_eq_true, false_implies, true_and, true_implies,
        wp_write hopen, Child.closeWrite, Exec.wp_modify, Child.closed, if_true, Exec.wp_pure,
        wp_refuse_closed, Bool.false_eq_true, if_false]
      cases (k.bash path currentJob.runnableFile (k.chdir path w).2).1 <;>
        simp [Pipe.shared, Pipe.closeWriter]

theorem wp_hear {Q : Option (BitVec 32 × BitVec 64) → W → Prop} {E : Halt → W → Prop} {w : W}
    {text : CStr} (hlen : text.len < buffSize) :
    Exec.wp (hear k ⟨text.bytes ++ [0], 1, 1⟩) Q E w ↔
      Q (some (atoi text, (k.time w).1)) (k.time (k.time w).2).2 := by
  have hread : Pipe.read buffSize (Pipe.closeWriter ⟨text.bytes ++ [0], 1, 1⟩) =
      some (text.bytes ++ [0], ⟨[], 0, 1⟩) := by
    refine Pipe.read_message ?_ ?_
    · simp
    · simp only [Pipe.data_closeWriter, List.length_append, List.length_singleton]
      exact hlen
  have htext : CStr.ofBytes (text.bytes ++ [0]) = text := text.ofBytes_nul []
  simp only [hear, hread, htext, List.append_eq_nil_iff, List.cons_ne_nil, and_false, if_false,
    List.mem_append, List.mem_singleton, or_true, not_true_eq_false, Exec.wp_bind, wp_ask,
    Exec.wp_pure]

theorem wp_hear_nobody {Q : Option (BitVec 32 × BitVec 64) → W → Prop} {E : Halt → W → Prop}
    {w : W} : Exec.wp (hear k (.shared 1)) Q E w ↔ Q none w := Exec.wp_pure _

/-- **What the start of a job does**: the pipe or the child fails and nothing is recorded; or
the script has no directory to go to and 0 is recorded; or `bash` gets the script, and the pid
of a child that has ended is recorded, whether there was a `bash` or not. -/
theorem wp_start {Q : Option (BitVec 32 × BitVec 64) → W → Prop} {E : Halt → W → Prop} {w : W} :
    Exec.wp (start k currentJob) Q E w ↔
      if (k.pipe w).1 = false then Q none (k.pipe w).2
      else
        match k.fork (k.time (k.pipe w).2).2 with
        | (none, w) => Q none w
        | (some pid, w) =>
          Q (some (if reaches k currentJob w then pid.value else 0,
              (k.time (childWorld k currentJob w)).1))
            (k.time (k.time (childWorld k currentJob w)).2).2 := by
  simp only [start, Exec.wp_bind, wp_ask, Exec.wp_ite, Exec.wp_pure]
  cases hpipe : (k.pipe w).1 with
  | false => simp
  | true =>
    obtain ⟨answer, w'⟩ := k.fork (k.time (k.pipe w).2).2
    simp only [Bool.true_eq_false, not_false_eq_true, false_implies, true_and, true_implies,
      if_false]
    cases answer with
    | none => exact wp_hear_nobody
    | some pid =>
      simp only [Exec.wp_bind, wp_waitFor]
      cases reaches k currentJob w' with
      | true =>
        obtain ⟨htext, hlen⟩ := pidText_eq pid
        rw [htext, List.length_append, List.length_singleton] at hlen
        simp only [if_true, htext]
        rw [wp_hear hlen, atoi_fmtInt32]
      | false =>
        have hzero : Child.zeroText = (CStr.ofBytes [48]).bytes ++ [0] := by decide
        simp only [Bool.false_eq_true, if_false, hzero]
        rw [wp_hear (by decide), show atoi (.ofBytes [48]) = 0 by decide]

end specs

/-! ## What bash gets -/

/-- The daemon's calls, answered by the code. It always comes to an answer (`wp_start`). -/
def calls (k : Kernel W) : DaemonCalls W where
  startJob currentJob w :=
    match (start k currentJob).run w with
    | .ok answer w => (answer, w)
    | .error _ w => (none, w)

namespace Kernel

/-- The system, with the scripts that `bash` got. -/
def tracing (k : Kernel W) : Kernel (W × List CStr) where
  pipe w := ((k.pipe w.1).1, (k.pipe w.1).2, w.2)
  fork w := ((k.fork w.1).1, (k.fork w.1).2, w.2)
  chdir path w := ((k.chdir path w.1).1, (k.chdir path w.1).2, w.2)
  bash path file w := ((k.bash path file w.1).1, (k.bash path file w.1).2, w.2 ++ [file])
  time w := ((k.time w.1).1, (k.time w.1).2, w.2)

/-- Each child comes into being and gets to its directory. -/
structure Works (k : Kernel W) : Prop where
  pipe : ∀ w, (k.pipe w).1 = true
  fork : ∀ w, (k.fork w).1.isSome = true
  chdir : ∀ path w, (k.chdir path w).1 = true

end Kernel

/-- **What bash gets** of the jobs that are started: no script without a directory, and every
other one, in turn, on a system that works. -/
structure Handed (k : Kernel W) (started : List Job) (scripts : List CStr) : Prop where
  only : scripts.Sublist
    ((started.filter fun j => HasDirectory j.runnableFile).map (·.runnableFile))
  all : k.Works →
    scripts = (started.filter fun j => HasDirectory j.runnableFile).map (·.runnableFile)

section handed

variable {k : Kernel W}

theorem Handed.nil : Handed k [] [] := ⟨List.Sublist.slnil, fun _ => rfl⟩

theorem Handed.append {started started' : List Job} {scripts scripts' : List CStr}
    (h : Handed k started scripts) (h' : Handed k started' scripts') :
    Handed k (started ++ started') (scripts ++ scripts') := by
  refine ⟨?_, fun hworks => ?_⟩
  · rw [List.filter_append, List.map_append]
    exact h.only.append h'.only
  · rw [List.filter_append, List.map_append, ← h.all hworks, ← h'.all hworks]

theorem reaches_iff {currentJob : Job} {w : W} : reaches k currentJob w = true ↔
    ∃ path, getPath currentJob.runnableFile = some path ∧ (k.chdir path w).1 = true := by
  unfold reaches
  split
  · rename_i hpath
    simp [hpath]
  · rename_i path hpath
    simp [hpath]

theorem childWorld_tracing (currentJob : Job) (w : W × List CStr) :
    (childWorld k.tracing currentJob w).2 =
      w.2 ++ if reaches k.tracing currentJob w then [currentJob.runnableFile] else [] := by
  unfold childWorld reaches
  split
  · exact (List.append_nil _).symm
  · split
    · rfl
    · exact (List.append_nil _).symm

theorem handed_child (currentJob : Job) (w : W × List CStr) :
    Handed k [currentJob]
      (if reaches k.tracing currentJob w then [currentJob.runnableFile] else []) := by
  by_cases hdir : HasDirectory currentJob.runnableFile
  · refine ⟨?_, fun hworks => ?_⟩
    · simp only [List.filter_cons, hdir, decide_true, if_true, List.filter_nil, List.map_cons,
        List.map_nil]
      split
      · exact List.Sublist.refl _
      · exact List.nil_sublist _
    · obtain ⟨path, hpath⟩ := Option.isSome_iff_exists.mp (getPath_isSome.mpr hdir)
      have hreaches : reaches k.tracing currentJob w = true :=
        reaches_iff.mpr ⟨path, hpath, hworks.chdir path w.1⟩
      simp [hreaches, hdir]
  · have hreaches : ¬reaches k.tracing currentJob w = true := fun h => by
      obtain ⟨path, hpath, -⟩ := reaches_iff.mp h
      exact hdir (getPath_isSome.mp (by rw [hpath]; rfl))
    rw [if_neg hreaches]
    exact ⟨List.nil_sublist _, fun _ => by simp [hdir]⟩

/-- One start. -/
theorem handed_startJob (currentJob : Job) (w : W × List CStr) :
    ∃ scripts, ((calls k.tracing).startJob currentJob w).2.2 = w.2 ++ scripts ∧
      Handed k [currentJob] scripts := by
  have hnone : ¬k.Works → Handed k [currentJob] [] := fun hno =>
    ⟨List.nil_sublist _, fun hworks => absurd hworks hno⟩
  have hspec : Exec.wp (start k.tracing currentJob)
      (fun _ w' => ∃ scripts, w'.2 = w.2 ++ scripts ∧ Handed k [currentJob] scripts)
      (fun _ _ => False) w := by
    rw [wp_start]
    split
    · rename_i hpipe
      refine ⟨[], (List.append_nil _).symm, hnone fun hworks => ?_⟩
      exact absurd (hworks.pipe w.1) (Bool.eq_false_iff.mp hpipe)
    · split
      · rename_i w₁ hfork
        obtain ⟨hanswer, rfl⟩ := Prod.mk.inj hfork
        refine ⟨[], (List.append_nil _).symm, hnone fun hworks => ?_⟩
        have hsome := hworks.fork (k.time (k.pipe w.1).2).2
        rw [show (k.fork (k.time (k.pipe w.1).2).2).1 = none from hanswer] at hsome
        cases hsome
      · rename_i pid w₁ hfork
        obtain ⟨-, rfl⟩ := Prod.mk.inj hfork
        exact ⟨_, childWorld_tracing currentJob _, handed_child currentJob _⟩
  simp only [calls]
  cases hrun : (start k.tracing currentJob).run w with
  | ok answer w' => exact Exec.wp_run_ok hspec hrun
  | error e w' => exact (Exec.wp_run_error hspec hrun).elim

theorem runJob_world {V : Type} (sys : DaemonCalls V) (waitedTime : BitVec 64) (j : Job)
    (w : V) : (Daemon.runJob sys waitedTime j w).2 =
      if Daemon.isDue waitedTime j then (sys.startJob j w).2 else w := by
  unfold Daemon.runJob
  split
  · obtain ⟨_ | ⟨pid, now⟩, w'⟩ := sys.startJob j w <;> rfl
  · rfl

/-- The loop over the jobs: those that it notes as started, and what `bash` gets. -/
theorem handed_runJobs (waitedTime : BitVec 64) (js : List Job) :
    ∀ w : (W × List CStr) × List Job, ∃ started scripts,
      (Daemon.runJobs (noting (calls k.tracing)) waitedTime js w).2.2 = w.2 ++ started ∧
      (Daemon.runJobs (noting (calls k.tracing)) waitedTime js w).2.1.2 = w.1.2 ++ scripts ∧
      Handed k started scripts := by
  induction js with
  | nil => exact fun w => ⟨[], [], (List.append_nil _).symm, (List.append_nil _).symm, .nil⟩
  | cons j js ih =>
    intro w
    obtain ⟨started, scripts, hstarted, hscripts, hhanded⟩ :=
      ih (Daemon.runJob (noting (calls k.tracing)) waitedTime j w).2
    have hone : ∃ started scripts,
        (Daemon.runJob (noting (calls k.tracing)) waitedTime j w).2.2 = w.2 ++ started ∧
        (Daemon.runJob (noting (calls k.tracing)) waitedTime j w).2.1.2 = w.1.2 ++ scripts ∧
        Handed k started scripts := by
      obtain ⟨scripts, hlog, hone⟩ := handed_startJob (k := k) j w.1
      rw [runJob_world]
      split
      · exact ⟨[j], scripts, rfl, hlog, hone⟩
      · exact ⟨[], [], (List.append_nil _).symm, (List.append_nil _).symm, .nil⟩
    obtain ⟨started', scripts', hstarted', hscripts', hhanded'⟩ := hone
    refine ⟨started' ++ started, scripts' ++ scripts, ?_, ?_, hhanded'.append hhanded⟩
    · rw [← List.append_assoc, ← hstarted', ← hstarted]
      rfl
    · rw [← List.append_assoc, ← hscripts', ← hscripts]
      rfl

/-- The scripts that `bash` has got belong to the jobs that the cycles have started. -/
def HandedSoFar (k : Kernel W) (s : Past (W × List CStr)) : Prop :=
  Handed k (s.history.flatMap (·.started)) s.daemon.world.1.2

theorem handed_turnStep {numberOfJobs : Nat} {t : Turn} {s s' : Past (W × List CStr)}
    (h : HandedSoFar k s)
    (hstep : turnStep (calls k.tracing) numberOfJobs t s = some s') : HandedSoFar k s' := by
  rw [turnStep] at hstep
  cases hrun : (Daemon.cycle (noting (calls k.tracing)) numberOfJobs t.attempts).run
      (s.awake t) with
  | error e d =>
    rw [hrun] at hstep
    cases hstep
  | ok ran d =>
    rw [hrun] at hstep
    cases hstep
    have hdone := Exec.wp_run_ok (wp_cycle_done numberOfJobs t.attempts) hrun
    simp only [HandedSoFar, List.flatMap_append, List.flatMap_singleton]
    cases ran with
    | true =>
      obtain ⟨jobs, -, hworld, -⟩ := hdone.success rfl
      obtain ⟨started, scripts, hstarted, hscripts, hhanded⟩ :=
        handed_runJobs (k := k) (s.awake t).waitedTime jobs.items (s.awake t).world
      rw [hworld, hstarted, hscripts]
      exact h.append hhanded
    | false =>
      obtain ⟨-, hworld, -⟩ := hdone.failure rfl
      rw [hworld]
      simpa [Past.awake] using (show Handed k _ _ from h)

/-- **What bash gets in a run of the daemon**: the scripts of the jobs that its cycles start,
in turn, but never one without a directory. -/
theorem handed_of_runs {numberOfJobs : Nat} {turns : List Turn} {w : W}
    {s : Past (W × List CStr)}
    (hrun : runs (turnStep (calls k.tracing) numberOfJobs) turns (Schedule.start (w, [])) =
      some s) :
    Handed k (s.history.flatMap (·.started)) s.daemon.world.1.2 := by
  have hstart : HandedSoFar k (Schedule.start (w, [])) := .nil
  exact runs_inv (I := HandedSoFar k) (fun h hstep => handed_turnStep h hstep) hstart hrun

/-- A system in which all goes well and no script does anything. -/
def idleKernel : Kernel Unit where
  pipe _ := (true, ())
  fork _ := (some ⟨7#32, by decide⟩, ())
  chdir _ _ := (true, ())
  bash _ _ _ := (true, ())
  time _ := (0, ())

/-- Before the first cycle `bash` has got nothing. -/
def nothingYet : Unit × List CStr := ((), [])

theorem scripts_fourTurns :
    (runs (turnStep (calls idleKernel.tracing) 1) fourTurns (Schedule.start nothingYet)).map
        (fun s => (s.history.flatMap (·.started), s.daemon.world.1.2)) =
      some ([Daemon.oneJob, dirJob, dirJob], [dirJob.runnableFile, dirJob.runnableFile]) := by
  decide +kernel

theorem handed_of_runs_fourTurns : ∃ s : Past (Unit × List CStr),
    runs (turnStep (calls idleKernel.tracing) 1) fourTurns (Schedule.start nothingYet) = some s ∧
      s.daemon.world.1.2 = [dirJob.runnableFile, dirJob.runnableFile] ∧
      Handed idleKernel (s.history.flatMap (·.started)) s.daemon.world.1.2 := by
  obtain ⟨s, hrun, hscripts⟩ := Option.map_eq_some_iff.mp scripts_fourTurns
  exact ⟨s, hrun, congrArg Prod.snd hscripts, handed_of_runs hrun⟩

/-! ## What is recorded -/

/-- **What the start of a due job leaves**: where the pipe or the child fails, the job as it was;
else the time at which the child has ended, with its pid, or with 0 where it did not get to a
directory. Whether there was a `bash`, and what the script did, makes no difference. -/
inductive Recorded (k : Kernel W) (j : Job) (w : W) : Job → W → Prop where
  | noPipe (hpipe : (k.pipe w).1 = false) : Recorded k j w j (k.pipe w).2
  | noChild (w₁ : W) (hpipe : (k.pipe w).1 = true)
    (hfork : k.fork (k.time (k.pipe w).2).2 = (none, w₁)) : Recorded k j w j w₁
  | ended (pid : Pid) (w₁ : W) (hpipe : (k.pipe w).1 = true)
    (hfork : k.fork (k.time (k.pipe w).2).2 = (some pid, w₁)) :
    Recorded k j w
      { j with
        pid := if reaches k j w₁ then pid.value else 0
        lastTimeRunned := (k.time (childWorld k j w₁)).1 }
      (k.time (k.time (childWorld k j w₁)).2).2

/-- **The jobs of a cycle, one after another**: the due ones are started, the others stay. -/
inductive RanThrough (k : Kernel W) (waitedTime : BitVec 64) :
    List Job → W → List Job → W → Prop where
  | nil (w : W) : RanThrough k waitedTime [] w [] w
  | stays {j : Job} {js js' : List Job} {w w' : W} (hdue : Daemon.isDue waitedTime j = false)
    (hrest : RanThrough k waitedTime js w js' w') :
    RanThrough k waitedTime (j :: js) w (j :: js') w'
  | due {j j' : Job} {js js' : List Job} {w w₁ w' : W} (hdue : Daemon.isDue waitedTime j = true)
    (hone : Recorded k j w j' w₁) (hrest : RanThrough k waitedTime js w₁ js' w') :
    RanThrough k waitedTime (j :: js) w (j' :: js') w'

/-- One due job. -/
theorem recorded_runJob {waitedTime : BitVec 64} {j : Job} (hdue : Daemon.isDue waitedTime j = true)
    (w : W) : Recorded k j w (Daemon.runJob (calls k) waitedTime j w).1
      (Daemon.runJob (calls k) waitedTime j w).2 := by
  have hspec : Exec.wp (start k j)
      (fun answer w' => Recorded k j w
        (answer.elim j fun r => { j with pid := r.1, lastTimeRunned := r.2 }) w')
      (fun _ _ => False) w := by
    rw [wp_start]
    split
    · rename_i hpipe
      exact .noPipe hpipe
    · rename_i hpipe
      have hpipe' : (k.pipe w).1 = true := by simpa using hpipe
      split
      · rename_i w₁ hfork
        exact .noChild w₁ hpipe' hfork
      · rename_i pid w₁ hfork
        exact .ended pid w₁ hpipe' hfork
  unfold Daemon.runJob
  rw [if_pos hdue]
  simp only [calls]
  cases hrun : (start k j).run w with
  | error e w' => exact (Exec.wp_run_error hspec hrun).elim
  | ok answer w' =>
    have hone := Exec.wp_run_ok hspec hrun
    cases answer with
    | none => exact hone
    | some r => exact hone

theorem ranThrough_runJobs (waitedTime : BitVec 64) (js : List Job) :
    ∀ w : W, RanThrough k waitedTime js w (Daemon.runJobs (calls k) waitedTime js w).1
      (Daemon.runJobs (calls k) waitedTime js w).2 := by
  induction js with
  | nil => exact fun w => .nil w
  | cons j js ih =>
    intro w
    cases hdue : Daemon.isDue waitedTime j with
    | true => exact .due hdue (recorded_runJob hdue w) (ih _)
    | false =>
      have hsame : Daemon.runJob (calls k) waitedTime j w = (j, w) := by
        simp [Daemon.runJob, hdue]
      simp only [Daemon.runJobs, hsame]
      exact .stays hdue (ih w)

/-- **What a cycle records**, whatever the system answers: where the lock is free and the file
loads, it saves the jobs of the file with the due ones recorded as run, also those that have no
directory and are never run. -/
theorem cycle_records {numberOfJobs attempts : Nat} {d : Daemon W} {t : Table Job}
    (h : Daemon.Accepts d t) (hcount : numberOfJobs = 0 ↔ t.items = []) :
    Exec.wp (Daemon.cycle (calls k) numberOfJobs attempts)
      (fun _ d' => ∃ l w', d'.files.content (.file .jobs) = jobsText l ∧
        RanThrough k d.waitedTime t.items d.world l w')
      (fun _ _ => False) d :=
  Exec.wp_mono (Daemon.wp_cycle_table h hcount)
    (fun _ _ hend => ⟨_, _, hend.2.1.1, ranThrough_runJobs d.waitedTime t.items d.world⟩)
    fun _ _ hno => hno

def twoJobsDaemon : Daemon Unit where
  files := (jobsTurn [Daemon.oneJob, dirJob]).files
  world := ()
  jobs := initialJobs
  waitedTime := 0

theorem twoJobsDaemon_accepts : ∃ t, Daemon.Accepts twoJobsDaemon t ∧
    t.items = [Daemon.oneJob, dirJob] := by
  have hok : ∀ j ∈ [Daemon.oneJob, dirJob], j.Ok := by
    simpa using ⟨Daemon.oneJob_ok, (⟨by decide, by decide, by decide⟩ : dirJob.Ok)⟩
  obtain ⟨t, hload, hitems, -⟩ := loadJobs_jobsText (t := initialJobs) (Table.honest_alloc _) rfl
    hok (by decide)
  exact ⟨t, ⟨rfl, loadJobsDaemon_eq_ok.mpr hload⟩, hitems⟩

theorem cycle_records_twoJobs : ∃ t : Table Job, t.items = [Daemon.oneJob, dirJob] ∧
    Exec.wp (Daemon.cycle (calls idleKernel) 2 0)
      (fun _ d' => ∃ l w', d'.files.content (.file .jobs) = jobsText l ∧
        RanThrough idleKernel twoJobsDaemon.waitedTime t.items twoJobsDaemon.world l w')
      (fun _ _ => False) twoJobsDaemon := by
  obtain ⟨t, haccepts, hitems⟩ := twoJobsDaemon_accepts
  exact ⟨t, hitems, cycle_records haccepts (by simp [hitems])⟩

end handed

end MiniRunner.JobStart
