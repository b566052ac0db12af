import Mathlib.Data.Fintype.Option
import MiniRunner.Daemon
import MiniRunner.Refinement.Jobs
import MiniRunner.Sync.Readers

/-!
# Updates of the jobs file by several processes

A daemon that goes through its cycles and any number of command-line processes, each
with one `add-job` or `remove-job`. Every process reads the jobs file (the steps of
`Readers`), decodes it, works on its own table, and writes the whole table back (the
steps of `Writers`). The log holds the commands that returned 0, the last one first.

Nothing in the code stops a process from loading the file before another one has
saved, so an update can be lost. `no_lost_update` says that none is when a process
opens the file only while no other is between its load and the end of its save, and
when the count the daemon tests is 0 exactly when its table is empty.
-/

namespace MiniRunner.Sync

open Clib MiniRunner Jobs

/-! ## Processes -/

/-- Where a process is on its way through the jobs file. -/
inductive Stage where
  | loading (r : ReaderPhase)
  | loaded (jobs : Table Job)
  /-- The command has returned, or the due jobs ran. -/
  | ran (jobs : Table Job)
  | saving (data : Bytes) (p : Phase)
  | ended
  | failed

/-- From opening the jobs file to the end of the save. -/
def Stage.Active : Stage → Prop
  | .loading (.reading _ _ _) | .loading (.done _ _) => True
  | .loaded _ | .ran _ | .saving _ _ => True
  | _ => False

instance : (st : Stage) → Decidable st.Active
  | .loading (.reading _ _ _) | .loading (.done _ _) => .isTrue trivial
  | .loaded _ | .ran _ | .saving _ _ => .isTrue trivial
  | .loading .start | .loading .sawFree | .loading .faulted | .ended | .failed => .isFalse id

/-- The shared files, what the daemon keeps between its cycles, and where each process
is: `none` is the daemon, `some i` the `i`-th command line. -/
structure System (ι W : Type) where
  files : Files
  world : W
  block : Table Job
  waitedTime : BitVec 64
  stage : Option ι → Stage
  log : List Op

inductive Act where
  | read (a : ReaderAct)
  | decode
  | work
  | save
  | write (a : WriterAct)
  deriving DecidableEq, Repr

/-- `freeJobs` and the new block of the daemon, as in `Daemon.renewJobs`. -/
def renewedBlock : Table Job := .blank 0 initialScaleSizeOfJobs

section step

variable {ι W : Type} [DecidableEq ι] (numberOfJobs : Nat) (sys : DaemonCalls W) (op : ι → Op)

def System.to (s : System ι W) (p : Option ι) (st : Stage) : System ι W :=
  { s with stage := Function.update s.stage p st }

/-- After its save the command line ends and the daemon starts over. -/
def finish (p : Option ι) (s : System ι W) : System ι W :=
  match p with
  | some _ => s.to p .ended
  | none =>
    { s with waitedTime := s.waitedTime + 1, block := renewedBlock }.to p (.loading .start)

/-- The decoder of `loadJobs`, or of `loadJobsDaemon` with its answer to a `-1`. -/
def decode (p : Option ι) (scanned : Bytes) (s : System ι W) : System ι W :=
  match p with
  | some _ =>
    match loadJobs initialJobs scanned with
    | .ok jobs => s.to p (.loaded jobs)
    | .error _ => s.to p .failed
  | none =>
    match loadJobsDaemon s.block scanned with
    | .ok (rc, jobs) =>
      if rc ≠ 0 then { s with block := renewedBlock }.to p (.loading .start)
      else s.to p (.loaded jobs)
    | .error _ => s.to p .failed

/-- The command of a command line, or the due jobs of the daemon. -/
def work (p : Option ι) (jobs : Table Job) (s : System ι W) : System ι W :=
  match p with
  | some i =>
    match (op i).exec jobs with
    | .ok (rc, jobs) => { s with log := if rc = 0 then op i :: s.log else s.log }.to p (.ran jobs)
    | .error _ => s.to p .failed
  | none =>
    { s with world := (Daemon.runJobs sys s.waitedTime jobs.items s.world).2 }.to p
      (.ran (jobs.mapItems (fun js => (Daemon.runJobs sys s.waitedTime js s.world).1)
        (Daemon.length_runJobs sys _ _ _)))

def countOf (p : Option ι) (jobs : Table Job) : Nat :=
  match p with
  | some _ => jobs.items.length
  | none => numberOfJobs

/-- The savers up to `writeData`: without a count they empty the file. -/
def startSave (p : Option ι) (jobs : Table Job) (s : System ι W) : System ι W :=
  if countOf numberOfJobs p jobs = 0 ∨ jobs.isNull then
    finish p { s with files := (s.files.openCreate (.file .jobs)).put (.file .jobs) [] }
  else if jobs.items = [] then s.to p .failed
  else s.to p (.saving (jobsText jobs.items) .start)

/-- After a step of `writeData`. -/
def written (p : Option ι) (data : Bytes) (q : Phase) (s : System ι W) : System ι W :=
  match q with
  | .done => finish p s
  | .faulted => s.to p .failed
  | q => s.to p (.saving data q)

def systemStep : Option ι × Act → System ι W → Option (System ι W)
  | (p, .read a), s =>
    match s.stage p with
    | .loading r =>
      (readerStep p.isNone a (r, s.files)).map fun y =>
        { s with files := y.2 }.to p (.loading y.1)
    | _ => none
  | (p, .decode), s =>
    match s.stage p with
    | .loading (.done scanned _) => some (decode p scanned s)
    | _ => none
  | (p, .work), s =>
    match s.stage p with
    | .loaded jobs => some (work sys op p jobs s)
    | _ => none
  | (p, .save), s =>
    match s.stage p with
    | .ran jobs => some (startSave numberOfJobs p jobs s)
    | _ => none
  | (p, .write a), s =>
    match s.stage p with
    | .saving data q =>
      (writerStep data a (q, s.files)).map fun y => written p data y.1 { s with files := y.2 }
    | _ => none

end step

/-! ## What the log promises -/

/-- What `add-job` fixes of a job. -/
def jobKey (j : Job) : CStr × CStr × BitVec 64 := (j.name, j.runnableFile, j.secondsInterval)

/-- **The table `l` reflects the log**: each job added and not removed later is there,
and no job is that was removed and not added later. -/
structure Reflects (log : List Op) (l : List Job) : Prop where
  added : ∀ later earlier jobName runnableFile timeInSeconds now,
    log = later ++ .addJob jobName runnableFile timeInSeconds now :: earlier →
    .removeJob jobName ∉ later → (jobName, runnableFile, timeInSeconds) ∈ l.map jobKey
  removed : ∀ later earlier jobName, log = later ++ .removeJob jobName :: earlier →
    (∀ runnableFile timeInSeconds now,
      .addJob jobName runnableFile timeInSeconds now ∉ later) →
    jobName ∉ (l.map jobKey).map (·.1)

theorem reflects_nil (l : List Job) : Reflects [] l where
  added later earlier _ _ _ _ h := by simp at h
  removed later earlier _ h := by simp at h

theorem Reflects.congr {log : List Op} {l l' : List Job} (h : Reflects log l)
    (hkey : l'.map jobKey = l.map jobKey) : Reflects log l' where
  added := by
    rw [hkey]
    exact h.added
  removed := by
    rw [hkey]
    exact h.removed

theorem Reflects.addJob {log : List Op} {l : List Job} (h : Reflects log l)
    (jobName runnableFile : CStr) (timeInSeconds now : BitVec 64) :
    Reflects (.addJob jobName runnableFile timeInSeconds now :: log)
      (l ++ [newJob jobName runnableFile timeInSeconds now]) where
  added later earlier name file time t hlog hno := by
    rw [List.map_append, List.mem_append]
    cases later with
    | nil =>
      cases hlog
      exact .inr (by simp [jobKey, newJob])
    | cons o later =>
      cases hlog
      exact .inl (h.added later earlier name file time t rfl fun hm => hno (by simp [hm]))
  removed later earlier name hlog hno := by
    cases later with
    | nil => cases hlog
    | cons o later =>
      cases hlog
      have hne : name ≠ jobName := fun e => hno runnableFile timeInSeconds now (by simp [e])
      have hold := h.removed later earlier name rfl fun f t n hm => hno f t n (by simp [hm])
      simp only [List.map_append, List.mem_append, not_or]
      exact ⟨hold, by simpa [jobKey, newJob] using hne⟩

theorem Reflects.removeJob {log : List Op} {l l' : List Job} (h : Reflects log l)
    {jobName : CStr} (hkept : ∀ j ∈ l, j.name ≠ jobName → j ∈ l')
    (hsub : ∀ j ∈ l', j ∈ l ∧ j.name ≠ jobName) : Reflects (.removeJob jobName :: log) l' where
  added later earlier name file time t hlog hno := by
    cases later with
    | nil => cases hlog
    | cons o later =>
      cases hlog
      have hold := h.added later earlier name file time t rfl fun hm => hno (by simp [hm])
      obtain ⟨j, hj, hkey⟩ := List.mem_map.mp hold
      have hname : j.name = name := congrArg (·.1) hkey
      exact List.mem_map.mpr ⟨j, hkept j hj fun e => hno (by simp [← hname, e]), hkey⟩
  removed later earlier name hlog hno := by
    rw [List.map_map, List.mem_map]
    rintro ⟨j, hj, hname⟩
    obtain ⟨hjl, hne⟩ := hsub j hj
    cases later with
    | nil =>
      cases hlog
      exact hne hname
    | cons o later =>
      cases hlog
      refine h.removed later earlier name rfl (fun f t n hm => hno f t n (by simp [hm])) ?_
      rw [List.map_map, List.mem_map]
      exact ⟨j, hjl, hname⟩

/-! ## What a serialised run keeps -/

/-- A table that can be saved and loaded back. -/
def Sound (l : List Job) : Prop := (∀ j ∈ l, j.Ok) ∧ DistinctJobs l

/-- The file loads, as a table that reflects the log. -/
def Good (log : List Op) (file : Bytes) : Prop :=
  ∃ t, loadJobs initialJobs file = .ok t ∧ Reflects log t.items

theorem good_jobsText {log : List Op} {l : List Job} (h : Sound l) (hl : Reflects log l) :
    Good log (jobsText l) := by
  obtain ⟨t, hload, hitems, -⟩ := loadJobs_jobsText (Table.honest_alloc _) rfl h.1 h.2
  exact ⟨t, hload, hitems ▸ hl⟩

/-- What holds of a process at its stage, while it is the only active one. -/
def Stage.Fits (log : List Op) (file : Bytes) : Stage → Prop
  | .loading r => ((Stage.loading r).Active → Good log file) ∧ r.Sees file
  | .loaded jobs => jobs.Honest ∧ Sound jobs.items ∧ Reflects log jobs.items
  | .ran jobs => Sound jobs.items ∧ Reflects log jobs.items
  | .saving data q =>
    (∃ l, data = jobsText l ∧ Sound l ∧ Reflects log l) ∧ ∃ old, q.FileAt old data file
  | .ended => True
  | .failed => False

theorem Stage.Fits.of_not_active {log log' : List Op} {file file' : Bytes} {st : Stage}
    (h : st.Fits log file) (hst : ¬st.Active) : st.Fits log' file' := by
  cases st with
  | loading r =>
    refine ⟨fun ha => absurd ha hst, ?_⟩
    cases r with
    | start => trivial
    | sawFree => trivial
    | faulted => exact h.2
    | _ => exact absurd trivial hst
  | ended => trivial
  | failed => exact h
  | _ => exact absurd trivial hst

theorem exec_addJob (jobName runnableFile : CStr) (timeInSeconds now : BitVec 64) (t : Table Job) :
    Op.exec (.addJob jobName runnableFile timeInSeconds now) t = .ok (1, t) ∨
      (Op.addJob jobName runnableFile timeInSeconds now).Accepted ∧
        Op.exec (.addJob jobName runnableFile timeInSeconds now) t =
          createJob jobName runnableFile timeInSeconds now t := by
  rw [Op.exec]
  by_cases hname : isValidJobName jobName = false
  · exact .inl (if_pos hname)
  · by_cases hpath : isValidJobPath runnableFile = false
    · exact .inl (by rw [if_neg hname, if_pos hpath])
    · by_cases hint : timeInSeconds = 0
      · exact .inl (by rw [if_neg hname, if_neg hpath, if_pos hint])
      · refine .inr ⟨⟨by simpa using hname, by simpa using hpath, hint⟩, ?_⟩
        rw [if_neg hname, if_neg hpath, if_neg hint]

/-- `add-job` keeps the table sound and, with the log, what the log promises. -/
theorem addJob_reflects {jobName runnableFile : CStr} {timeInSeconds now : BitVec 64}
    {t : Table Job} (ht : t.Honest) (hsound : Sound t.items) {log : List Op}
    (hl : Reflects log t.items) :
    ∃ rc t', Op.exec (.addJob jobName runnableFile timeInSeconds now) t = .ok (rc, t') ∧
      Sound t'.items ∧ Reflects
        (if rc = 0 then .addJob jobName runnableFile timeInSeconds now :: log else log)
        t'.items := by
  obtain hexec | ⟨haccepted, hexec⟩ := exec_addJob jobName runnableFile timeInSeconds now t
  · exact ⟨1, t, hexec, hsound, hl⟩
  · rw [hexec]
    by_cases hc : ∃ y ∈ t.items, jobClash y (newJob jobName runnableFile timeInSeconds now) = true
    · exact ⟨-1, t, createJob_of_clash hc, hsound, hl⟩
    · obtain ⟨t', ht', hitems⟩ := createJob_of_fresh ht hc
      refine ⟨0, t', ht', ?_, ?_⟩
      · rw [hitems]
        refine ⟨fun j hj => ?_, Ledger.distinct_append_singleton.mpr ⟨hsound.2, ?_⟩⟩
        · rcases List.mem_append.mp hj with hj | hj
          · exact hsound.1 j hj
          · rw [List.mem_singleton.mp hj]
            exact newJob_ok haccepted
        · exact fun y hy hclash => hc ⟨y, hy, hclash⟩
      · rw [if_pos rfl, hitems]
        exact hl.addJob ..

/-- `remove-job` does too. -/
theorem removeJob_reflects {jobName : CStr} {t : Table Job} (hsound : Sound t.items)
    {log : List Op} (hl : Reflects log t.items) {rc : Int} {t' : Table Job}
    (h : MiniRunner.removeJob jobName t = (rc, t')) :
    Sound t'.items ∧ Reflects (if rc = 0 then .removeJob jobName :: log else log) t'.items := by
  have hitems : t'.items = Ledger.strike (·.name == jobName) t.items := by
    rw [← removeJob_items, h]
  have hsame : ∀ x y : Job, (x.name == jobName) = true → (y.name == jobName) = true →
      jobClash x y = true := fun x y hx hy => by simp_all [jobClash]
  have hstruck : ∀ j ∈ t'.items, j ∈ t.items ∧ j.name ≠ jobName := fun j hj => by
    rw [hitems] at hj
    have hnot := Ledger.not_of_mem_strike hsame hsound.2 j hj
    exact ⟨List.mem_of_mem_eraseP hj, by simpa using hnot⟩
  have hkept : ∀ j ∈ t.items, j.name ≠ jobName → j ∈ t'.items := fun j hj hne => by
    rw [hitems]
    exact (List.mem_eraseP_of_neg (by simpa using hne)).mpr hj
  refine ⟨⟨fun j hj => hsound.1 j (hstruck j hj).1, ?_⟩, ?_⟩
  · rw [hitems]
    exact Ledger.distinct_strike hsound.2
  · split
    · exact hl.removeJob hkept hstruck
    · rename_i hrc
      have hself : (MiniRunner.removeJob jobName t).2 = t := removeJob_eq_self (by rwa [h])
      rw [h] at hself
      rwa [show t' = t from hself]

section serial

variable {ι W : Type}

/-- **The invariant**: one active process at most, every process fits, and while none
is active the file is good. -/
structure Serial (s : System ι W) : Prop where
  alone : ∀ p q, (s.stage p).Active → (s.stage q).Active → p = q
  fits : ∀ p, (s.stage p).Fits s.log (s.files.content (.file .jobs))
  rest : (∀ p, ¬(s.stage p).Active) → Good s.log (s.files.content (.file .jobs))
  block : s.block.items = [] ∧ s.block.Honest

theorem Serial.only {s : System ι W} (h : Serial s) {p : Option ι} (hp : (s.stage p).Active) :
    ∀ q, q ≠ p → ¬(s.stage q).Active := fun q hq ha => hq (h.alone q p ha hp)

variable [DecidableEq ι]

/-- One process moves while the others are inactive. -/
theorem Serial.to {s : System ι W} (h : Serial s) (s₁ : System ι W) {p : Option ι} {st : Stage}
    (honly : ∀ q, q ≠ p → ¬(s.stage q).Active) (hst : s₁.stage = s.stage)
    (hblock : s₁.block.items = [] ∧ s₁.block.Honest)
    (hfits : st.Fits s₁.log (s₁.files.content (.file .jobs)))
    (hrest : ¬st.Active → Good s₁.log (s₁.files.content (.file .jobs))) : Serial (s₁.to p st) := by
  have hself : (s₁.to p st).stage p = st := Function.update_self ..
  have hother : ∀ q, q ≠ p → (s₁.to p st).stage q = s.stage q := fun q hq => by
    rw [← hst]
    exact Function.update_of_ne hq ..
  have hp : ∀ q, ((s₁.to p st).stage q).Active → q = p := fun q hq => by
    by_contra hne
    rw [hother q hne] at hq
    exact honly q hne hq
  refine ⟨fun q r hq hr => (hp q hq).trans (hp r hr).symm, fun q => ?_, fun hno => ?_, hblock⟩
  · by_cases hq : q = p
    · rw [hq, hself]
      exact hfits
    · rw [hother q hq]
      exact (h.fits q).of_not_active (honly q hq)
  · exact hrest (hself ▸ hno p)

/-- An inactive process moves among its inactive stages. -/
theorem Serial.idle {s : System ι W} (h : Serial s) {p : Option ι} {st : Stage} {fs' : Files}
    (hp : ¬(s.stage p).Active)
    (hkept : fs'.content (.file .jobs) = s.files.content (.file .jobs)) (hst : ¬st.Active)
    (hfits : st.Fits s.log (s.files.content (.file .jobs))) :
    Serial (System.to { s with files := fs' } p st) := by
  have hactive : ∀ q, ((Function.update s.stage p st) q).Active ↔ (s.stage q).Active := fun q => by
    by_cases hq : q = p
    · subst hq
      rw [Function.update_self]
      exact iff_of_false hst hp
    · rw [Function.update_of_ne hq]
  refine ⟨fun q r hq hr => h.alone q r ((hactive q).mp hq) ((hactive r).mp hr), fun q => ?_,
    fun hno => ?_, h.block⟩
  · show (Function.update s.stage p st q).Fits s.log (fs'.content (.file .jobs))
    rw [hkept]
    by_cases hq : q = p
    · subst hq
      rwa [Function.update_self]
    · rw [Function.update_of_ne hq]
      exact h.fits q
  · show Good s.log (fs'.content (.file .jobs))
    rw [hkept]
    exact h.rest fun q => mt (hactive q).mpr (hno q)

theorem honest_renewedBlock : renewedBlock.items = [] ∧ renewedBlock.Honest :=
  ⟨rfl, by simp [Table.Honest, renewedBlock, initialScaleSizeOfJobs]⟩

variable {s : System ι W} {p : Option ι}

theorem Serial.finish (h : Serial s) (s₁ : System ι W)
    (honly : ∀ q, q ≠ p → ¬(s.stage q).Active) (hst : s₁.stage = s.stage)
    (hblock : s₁.block.items = [] ∧ s₁.block.Honest)
    (hgood : Good s₁.log (s₁.files.content (.file .jobs))) : Serial (finish p s₁) := by
  cases p with
  | some i => exact h.to s₁ honly hst hblock trivial fun _ => hgood
  | none =>
    refine h.to { s₁ with waitedTime := _, block := _ } honly hst honest_renewedBlock ?_
      fun _ => hgood
    exact ⟨False.elim, trivial⟩

/-! ### One step -/

/-- The decoded table is the one the file holds. -/
theorem Serial.decode (h : Serial s) {scanned : Bytes} {copied : List (Nat × UInt8)}
    (hp : s.stage p = .loading (.done scanned copied)) : Serial (decode p scanned s) := by
  have hactive : (s.stage p).Active := by
    rw [hp]
    trivial
  have hfits := h.fits p
  rw [hp] at hfits
  obtain ⟨t, hload, hreflects⟩ := hfits.1 trivial
  obtain ⟨hscanned, -⟩ := hfits.2
  rw [← hscanned] at hload
  obtain ⟨hok, hd, ht⟩ := loadJobs_sound (Table.honest_alloc _) rfl hload
  cases p with
  | some i =>
    simp only [Sync.decode, hload]
    exact h.to s (h.only hactive) rfl h.block ⟨ht, ⟨hok, hd⟩, hreflects⟩
      fun hno => absurd trivial hno
  | none =>
    obtain ⟨u, hu, hsame⟩ := SameJobs.loadJobs
      ⟨h.block.1, Table.honest_alloc _, h.block.2⟩ hload
    simp only [Sync.decode, loadJobsDaemon_eq_ok.mpr hu, ne_eq, not_true_eq_false, if_false]
    refine h.to s (h.only hactive) rfl h.block ⟨hsame.right, ?_, ?_⟩ fun hno => absurd trivial hno
    · rw [hsame.items]
      exact ⟨hok, hd⟩
    · rw [hsame.items]
      exact hreflects

theorem runsTo_jobKey {waitedTime : BitVec 64} {l l' : List Job}
    (h : List.Forall₂ (Daemon.RunsTo waitedTime) l l') : l'.map jobKey = l.map jobKey := by
  induction h with
  | nil => rfl
  | cons hj _ ih =>
    rw [List.map_cons, List.map_cons, ih]
    congr 1
    obtain rfl | ⟨_, pid, now, rfl⟩ := hj <;> rfl

theorem Serial.work (h : Serial s) {sys : DaemonCalls W} {op : ι → Op} {t : Table Job}
    (hp : s.stage p = .loaded t) : Serial (work sys op p t s) := by
  have hactive : (s.stage p).Active := by
    rw [hp]
    trivial
  have hfits := h.fits p
  rw [hp] at hfits
  obtain ⟨ht, hsound, hl⟩ := hfits
  cases p with
  | some i =>
    obtain ⟨rc, t', hexec, hsound', hl'⟩ : ∃ rc t', (op i).exec t = .ok (rc, t') ∧
        Sound t'.items ∧ Reflects (if rc = 0 then op i :: s.log else s.log) t'.items := by
      cases op i with
      | addJob => exact addJob_reflects ht hsound hl
      | removeJob => exact ⟨_, _, rfl, removeJob_reflects hsound hl rfl⟩
    simp only [Sync.work, hexec]
    exact h.to { s with log := _ } (h.only hactive) rfl h.block ⟨hsound', hl'⟩
      fun hno => absurd trivial hno
  | none =>
    have hruns : List.Forall₂ (Daemon.RunsTo s.waitedTime) t.items
        (Daemon.runJobs sys s.waitedTime t.items s.world).1 :=
      Daemon.runJobs_runsTo s.waitedTime t.items s.world
    exact h.to { s with world := _ } (h.only hactive) rfl h.block
      ⟨Daemon.runsTo_keeps hruns hsound.1 hsound.2, hl.congr (runsTo_jobKey hruns)⟩
      fun hno => absurd trivial hno

/-- A save starts well when the count and the table are both empty or both not. -/
theorem Serial.startSave (h : Serial s) {numberOfJobs : Nat} {t : Table Job}
    (hp : s.stage p = .ran t) (hcount : countOf numberOfJobs p t = 0 ↔ t.items = []) :
    Serial (startSave numberOfJobs p t s) := by
  have hactive : (s.stage p).Active := by
    rw [hp]
    trivial
  have hfits := h.fits p
  rw [hp] at hfits
  obtain ⟨hsound, hl⟩ := hfits
  unfold Sync.startSave
  by_cases ht : t.items = []
  · rw [if_pos (.inl (hcount.mpr ht))]
    refine h.finish _ (h.only hactive) rfl h.block ?_
    rw [FileStore.content_put]
    rw [ht] at hsound hl
    exact good_jobsText hsound hl
  · rw [if_neg (by simp [Table.isNull_eq_false ht, hcount, ht]), if_neg ht]
    exact h.to s (h.only hactive) rfl h.block ⟨⟨_, rfl, hsound, hl⟩, _, rfl⟩
      fun hno => absurd trivial hno

theorem Serial.written (h : Serial s) {data : Bytes} {a : WriterAct} {q q' : Phase} {fs' : Files}
    (hp : s.stage p = .saving data q) (hstep : WriterStep data a (q, s.files) (q', fs')) :
    Serial (written p data q' { s with files := fs' }) := by
  have hactive : (s.stage p).Active := by
    rw [hp]
    trivial
  have hfits := h.fits p
  rw [hp] at hfits
  obtain ⟨⟨l, hdata, hsound, hl⟩, old, hfile⟩ := hfits
  have hfile' := hstep.fileAt hfile
  have hsaving : ∀ r, r = q' → Serial (System.to { s with files := fs' } p (.saving data r)) :=
    fun r hr => h.to { s with files := fs' } (h.only hactive) rfl h.block
      ⟨⟨l, hdata, hsound, hl⟩, old, hr ▸ hfile'⟩ fun hno => absurd trivial hno
  cases q' with
  | done =>
    refine h.finish { s with files := fs' } (h.only hactive) rfl h.block ?_
    show Good s.log (fs'.content (.file .jobs))
    rw [show fs'.content (.file .jobs) = data from hfile', hdata]
    exact good_jobsText hsound hl
  | faulted => exact hfile'.elim
  | start => exact hsaving _ rfl
  | polling => exact hsaving _ rfl
  | sawFree => exact hsaving _ rfl
  | copying k => exact hsaving _ rfl

/-! ### Runs -/

/-- The daemon's count is right for a table it is about to save. -/
def CountFits (numberOfJobs : Nat) : Stage → Prop
  | .ran jobs => numberOfJobs = 0 ↔ jobs.items = []
  | _ => True

instance (numberOfJobs : Nat) : (st : Stage) → Decidable (CountFits numberOfJobs st)
  | .ran jobs => inferInstanceAs (Decidable (numberOfJobs = 0 ↔ jobs.items = []))
  | .loading _ | .loaded _ | .saving _ _ | .ended | .failed => .isTrue trivial

/-- A process opens the jobs file only while no other is between its load and the end
of its save, and the daemon saves only with a count that is right. -/
def Serialised (numberOfJobs : Nat) (s : System ι W) (a : Option ι × Act) (_ : System ι W) :
    Prop :=
  (a.2 = .read .openJobs → ∀ p, ¬(s.stage p).Active) ∧
    (a = (none, .save) → CountFits numberOfJobs (s.stage none))

instance [Fintype ι] (numberOfJobs : Nat) (s : System ι W) (a : Option ι × Act)
    (s' : System ι W) : Decidable (Serialised numberOfJobs s a s') :=
  inferInstanceAs (Decidable ((_ → _) ∧ (_ → _)))

/-- What a reader's step makes of a process that fits. -/
theorem Serial.read (h : Serial s) {r r' : ReaderPhase} {fs' : Files} {a : ReaderAct}
    (hp : s.stage p = .loading r)
    (hstep : ReaderStep p.isNone (s.files.content (.file .jobs)) a r r')
    (hkept : ∀ q, fs'.content q = s.files.content q)
    (hopen : a = .openJobs → ∀ p, ¬(s.stage p).Active) :
    Serial (System.to { s with files := fs' } p (.loading r')) := by
  have hfits := h.fits p
  rw [hp] at hfits
  have hsees : r'.Sees (fs'.content (.file .jobs)) := by
    rw [hkept]
    exact hstep.sees hfits.2
  by_cases hactive : (s.stage p).Active
  · have hgood : Good s.log (fs'.content (.file .jobs)) := by
      rw [hkept]
      exact hfits.1 (hp ▸ hactive)
    exact h.to { s with files := fs' } (h.only hactive) rfl h.block
      ⟨fun _ => hgood, hsees⟩ fun _ => hgood
  · rw [hp] at hactive
    cases hstep with
    | poll free =>
      have hidle : ¬(Stage.loading (if free then .sawFree else .start)).Active := by
        cases free <;> exact id
      exact h.idle (by rwa [hp]) (hkept _) hidle ⟨fun ha => absurd ha hidle, hkept _ ▸ hsees⟩
    | openJobs =>
      have hnone := hopen rfl
      have hgood : Good s.log (fs'.content (.file .jobs)) := by
        rw [hkept]
        exact h.rest hnone
      exact h.to { s with files := fs' } (fun q _ => hnone q) rfl h.block
        ⟨fun _ => hgood, hsees⟩ fun _ => hgood
    | _ => exact absurd trivial hactive

/-- **A serialised step** keeps the invariant. -/
theorem Serial.step {numberOfJobs : Nat} {sys : DaemonCalls W} {op : ι → Op} {s s' : System ι W}
    {a : Option ι × Act} (h : Serial s) (hguard : Serialised numberOfJobs s a s')
    (hs : systemStep numberOfJobs sys op a s = some s') : Serial s' := by
  obtain ⟨p, a⟩ := a
  cases a with
  | read a =>
    simp only [systemStep] at hs
    split at hs
    · rename_i r hp
      obtain ⟨⟨r', fs'⟩, hr, rfl⟩ := Option.map_eq_some_iff.mp hs
      obtain ⟨hstep, hkept⟩ := readerStep_cases hr
      exact h.read hp hstep hkept fun ha => hguard.1 (by rw [ha])
    · cases hs
  | decode =>
    simp only [systemStep] at hs
    split at hs
    · rename_i scanned copied hp
      cases hs
      exact h.decode hp
    · cases hs
  | work =>
    simp only [systemStep] at hs
    split at hs
    · rename_i t hp
      cases hs
      exact h.work hp
    · cases hs
  | save =>
    simp only [systemStep] at hs
    split at hs
    · rename_i t hp
      cases hs
      refine h.startSave hp ?_
      cases p with
      | some i => exact List.length_eq_zero_iff
      | none =>
        have hcount := hguard.2 rfl
        rwa [hp] at hcount
    · cases hs
  | write a =>
    simp only [systemStep] at hs
    split at hs
    · rename_i data q hp
      obtain ⟨⟨q', fs'⟩, hr, rfl⟩ := Option.map_eq_some_iff.mp hs
      exact h.written hp (writerStep_cases hr)
    · cases hs

/-- Nobody has started, and the daemon has its first block. -/
structure System.Start (s : System ι W) : Prop where
  stage : ∀ p, s.stage p = .loading .start
  block : s.block.items = [] ∧ s.block.Honest
  log : s.log = []

/-- **No lost update**: from a jobs file that loads, at the end of a serialised run that
leaves no process between its load and the end of its save, the jobs file loads, it has
every job that was added and not removed later, and none that was removed and not added
later. -/
theorem no_lost_update (numberOfJobs : Nat) (sys : DaemonCalls W) (op : ι → Op)
    (as : List (Option ι × Act)) (s s' : System ι W) (hstart : s.Start)
    (hloads : ∃ t, loadJobs initialJobs (s.files.content (.file .jobs)) = .ok t)
    (hguard : Every (systemStep numberOfJobs sys op) (Serialised numberOfJobs) as s)
    (hrun : runs (systemStep numberOfJobs sys op) as s = some s')
    (hend : ∀ p, ¬(s'.stage p).Active) :
    ∃ t, loadJobs initialJobs (s'.files.content (.file .jobs)) = .ok t ∧
      Reflects s'.log t.items := by
  obtain ⟨t, hload⟩ := hloads
  have hinit : Serial s := by
    refine ⟨fun p q hp => ?_, fun p => ?_, fun _ => ?_, hstart.block⟩
    · rw [hstart.stage p] at hp
      exact hp.elim
    · rw [hstart.stage p]
      exact ⟨False.elim, trivial⟩
    · exact ⟨t, hload, hstart.log ▸ reflects_nil _⟩
  exact (runs_keeps (fun h hg hs => h.step hg hs) as hinit hguard hrun).rest hend

end serial

/-! ### A lost update -/

/-- Load a file of `n` bytes and work on its table. -/
def loadActs (p : Option Unit) (n : Nat) : List (Option Unit × Act) :=
  let acts : List Act := (if p.isNone then [.read .poll] else []) ++ [.read .openJobs] ++
    List.replicate n (.read .scan) ++ [.read .finish, .decode, .work]
  acts.map (p, ·)

/-- Write the table back as `data`. -/
def saveActs (p : Option Unit) (data : Bytes) : List (Option Unit × Act) :=
  let acts : List Act := .save :: (writeSteps data).map .write
  acts.map (p, ·)

def quietDaemon : DaemonCalls Unit := ⟨fun _ w => (none, w)⟩

/-- The one command line adds a job `b`. -/
def addB : Op := .addJob (.ofBytes [98]) (.ofBytes [47, 98]) 60 0

def jobB : Job := newJob (.ofBytes [98]) (.ofBytes [47, 98]) 60 0

def oneJobSystem : System Unit Unit where
  files q := if q = .file .jobs then some (jobsText [Daemon.oneJob]) else none
  world := ()
  block := initialJobs
  waitedTime := 1
  stage _ := .loading .start
  log := []

theorem oneJobSystem_start : oneJobSystem.Start :=
  ⟨fun _ => rfl, ⟨rfl, Table.honest_alloc _⟩, rfl⟩

theorem loadJobs_oneJob :
    ∃ t, loadJobs initialJobs (jobsText [Daemon.oneJob]) = .ok t ∧ t.items = [Daemon.oneJob] := by
  obtain ⟨t, hload, hitems, -⟩ := loadJobs_jobsText (t := initialJobs) (l := [Daemon.oneJob])
    (Table.honest_alloc _) rfl (by simpa using Daemon.oneJob_ok) (List.pairwise_singleton ..)
  exact ⟨t, hload, hitems⟩

/-- The command line, then a cycle of the daemon. -/
def inSeries : List (Option Unit × Act) :=
  loadActs (some ()) (jobsText [Daemon.oneJob]).length ++
    saveActs (some ()) (jobsText [Daemon.oneJob, jobB]) ++
    loadActs none (jobsText [Daemon.oneJob, jobB]).length ++
    saveActs none (jobsText [Daemon.oneJob, jobB])

theorem no_lost_update_inSeries :
    (runs (systemStep 1 quietDaemon fun _ => addB) inSeries oneJobSystem).isSome ∧
      ∀ s', runs (systemStep 1 quietDaemon fun _ => addB) inSeries oneJobSystem = some s' →
        ∃ t, loadJobs initialJobs (s'.files.content (.file .jobs)) = .ok t ∧
          Reflects s'.log t.items := by
  refine ⟨by decide +kernel, fun s' hrun => ?_⟩
  have hend : ∀ s, runs (systemStep 1 quietDaemon fun _ => addB) inSeries oneJobSystem = some s →
      ∀ p, ¬(s.stage p).Active := by
    have hall : (runs (systemStep 1 quietDaemon fun _ => addB) inSeries oneJobSystem).all
        (fun s => decide (∀ p, ¬(s.stage p).Active)) = true := by decide +kernel
    intro s hs
    rw [hs] at hall
    exact of_decide_eq_true hall
  obtain ⟨t, hload, -⟩ := loadJobs_oneJob
  exact no_lost_update 1 quietDaemon (fun _ => addB) inSeries oneJobSystem s' oneJobSystem_start
    ⟨t, hload⟩ (by decide +kernel) hrun (hend s' hrun)

/-- The command line adds its job between the daemon's load and the daemon's save. -/
def overlapping : List (Option Unit × Act) :=
  loadActs none (jobsText [Daemon.oneJob]).length ++
    loadActs (some ()) (jobsText [Daemon.oneJob]).length ++
    saveActs (some ()) (jobsText [Daemon.oneJob, jobB]) ++
    saveActs none (jobsText [Daemon.oneJob])

theorem not_no_lost_update_overlapping :
    oneJobSystem.Start ∧
    (∃ t, loadJobs initialJobs (oneJobSystem.files.content (.file .jobs)) = .ok t) ∧
    ∃ s', runs (systemStep 1 quietDaemon fun _ => addB) overlapping oneJobSystem = some s' ∧
      (∀ p, ¬(s'.stage p).Active) ∧
      ¬∃ t, loadJobs initialJobs (s'.files.content (.file .jobs)) = .ok t ∧
        Reflects s'.log t.items := by
  have hrun : (runs (systemStep 1 quietDaemon fun _ => addB) overlapping oneJobSystem).map
      (fun s => (s.files.content (.file .jobs), s.log, decide (∀ p, ¬(s.stage p).Active))) =
        some (jobsText [Daemon.oneJob], [addB], true) := by
    decide +kernel
  obtain ⟨s', hs', heq⟩ := Option.map_eq_some_iff.mp hrun
  simp only [Prod.mk.injEq, decide_eq_true_eq] at heq
  obtain ⟨hfile, hlog, hend⟩ := heq
  obtain ⟨u, hu, hitems⟩ := loadJobs_oneJob
  refine ⟨oneJobSystem_start, ⟨u, hu⟩, s', hs', hend, ?_⟩
  rintro ⟨t, hload, hreflects⟩
  rw [hfile, hu] at hload
  cases hload
  have hadded := hreflects.added [] [] _ _ _ _ hlog (by simp)
  rw [hitems] at hadded
  revert hadded
  decide

end MiniRunner.Sync
