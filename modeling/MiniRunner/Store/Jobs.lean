import MiniRunner.Clib.RecordFormat
import MiniRunner.Exceptions

/-!
# The jobs store

`init/job_init.c`, `init/daemon_init.c`, their `loadJob` functions, and the text
half of `fini/save_jobs.c` and `fini/daemon_save_jobs.c`. A record is
`name^runnable#time$interval@pid\n`. The command line and the daemon scan the
same format: the command line gives up on a repeated job or a zero interval,
the daemon returns `-1` with the table loaded so far (`jobsScanner` takes that
difference as a parameter, and `loadJobsDaemon_eq` states what follows).
-/

namespace MiniRunner

open Clib

/-! ## Loading -/

/-- `realloc` to 4 more slots. -/
def jobGrowth : Table.Growth := fun capacity _ =>
  (capacity + initialScaleSizeOfJobs, capacity + initialScaleSizeOfJobs)

/-- Two jobs may not share a name or a runnable file. -/
def jobClash (y x : Job) : Bool := y.name == x.name || y.runnableFile == x.runnableFile

/-- Unlike `loadProject`, the block grows before the duplicate check. -/
def loadJob (newJob : Job) (jobs : Table Job) : Except Halt (Int × Table Job) := do
  let jobs ← jobs.reserve jobGrowth
  if jobs.items.any (jobClash · newJob) then pure (-1, jobs)
  else
    let jobs ← jobs.push newJob
    pure (0, jobs)

/-- The daemon's copy works on `numberOfJobsDaemon` and `capacityOfJobsDaemon`. -/
def loadJobDaemon (newJob : Job) (jobs : Table Job) : Except Halt (Int × Table Job) :=
  loadJob newJob jobs

/-- The states of `loadJobs`, with the fields collected so far. -/
inductive JobField where
  | findName
  | findRunnable (name : CStr)
  | findTime (name runnableFile : CStr)
  | findInterval (name runnableFile : CStr) (lastTimeRunned : BitVec 64)
  | findPid (name runnableFile : CStr) (lastTimeRunned interval : BitVec 64)

/-- The scan of a jobs file. `halt` is a fault of the loader, `reject` the answer
to a zero interval or a failed load, with the table at that point. -/
def jobsScanner {ε : Type} (load : Job → Table Job → Except Halt (Int × Table Job))
    (halt : Halt → ε) (reject : Table Job → ε) : Scanner JobField (Table Job) ε where
  delim
    | .findName => caret
    | .findRunnable _ => hash
    | .findTime _ _ => dollar
    | .findInterval _ _ _ => atSign
    | .findPid _ _ _ _ => newline
  field
    | .findName, name, jobs => .ok (.findRunnable name, jobs)
    | .findRunnable name, runnableFile, jobs => .ok (.findTime name runnableFile, jobs)
    | .findTime name runnableFile, lastTimeRunnedBuff, jobs =>
      .ok (.findInterval name runnableFile (atol lastTimeRunnedBuff), jobs)
    | .findInterval name runnableFile lastTimeRunned, intervalBuff, jobs =>
      if atol intervalBuff = 0 then .error (reject jobs)
      else .ok (.findPid name runnableFile lastTimeRunned (atol intervalBuff), jobs)
    | .findPid name runnableFile lastTimeRunned interval, pidBuff, jobs =>
      match load ⟨name, runnableFile, lastTimeRunned, interval, atoi pidBuff⟩ jobs with
      | .error e => .error (halt e)
      | .ok (rc, jobs) => if rc ≠ 0 then .error (reject jobs) else .ok (.findName, jobs)

def loadJobs (jobs : Table Job) (data : Bytes) : Except Halt (Table Job) :=
  (jobsScanner loadJob id fun _ => .aborted).parse .findName data jobs

/-- A fault, or the table at the point of the `-1`. -/
abbrev DaemonReject := Halt ⊕ Table Job

/-- The decoding part of `loadJobsDaemon`, with its return code. -/
def loadJobsDaemon (jobs : Table Job) (data : Bytes) : Except Halt (Int × Table Job) :=
  match (jobsScanner (ε := DaemonReject) loadJobDaemon .inl .inr).parse .findName data jobs with
  | .ok jobs => .ok (0, jobs)
  | .error (.inr jobs) => .ok (-1, jobs)
  | .error (.inl e) => .error e

/-! ## Saving -/

/-- `%s^%s#%li$%li@%i\n`. -/
def jobText (j : Job) : Bytes :=
  j.name.bytes ++ caret :: (j.runnableFile.bytes ++ hash :: ((fmtLong j.lastTimeRunned).bytes ++
    dollar :: ((fmtLong j.secondsInterval).bytes ++ atSign :: ((fmtInt32 j.pid).bytes ++
      [newline]))))

/-- `dataTobeWritten`, built by appending one record after another. -/
def jobsText (jobs : List Job) : Bytes := jobs.foldl (fun text j => text ++ jobText j) []

/-! ## The format -/

structure Job.Ok (j : Job) : Prop where
  name : caret ∉ j.name.bytes
  runnableFile : hash ∉ j.runnableFile.bytes
  secondsInterval : j.secondsInterval ≠ 0

namespace JobField

def Ok : JobField → Prop
  | findName => True
  | findRunnable name => caret ∉ name.bytes
  | findTime name runnableFile => caret ∉ name.bytes ∧ hash ∉ runnableFile.bytes
  | findInterval name runnableFile _ => caret ∉ name.bytes ∧ hash ∉ runnableFile.bytes
  | findPid name runnableFile _ interval =>
    caret ∉ name.bytes ∧ hash ∉ runnableFile.bytes ∧ interval ≠ 0

end JobField

theorem jobs_record {j : Job} (hj : j.Ok) (t : Table Job) (rest : Bytes) :
    (jobsScanner loadJob id fun _ => Halt.aborted).run ⟨.findName, [], t⟩ (jobText j ++ rest) =
      orAbort (loadJob j t) >>= fun t' =>
        (jobsScanner loadJob id fun _ => Halt.aborted).run ⟨.findName, [], t'⟩ rest := by
  let S := jobsScanner loadJob id fun _ => Halt.aborted
  have hname := S.run_field (q := .findName) hj.name
  have hrun := S.run_field (q := .findRunnable j.name) hj.runnableFile
  have htime := S.run_field (q := .findTime j.name j.runnableFile)
    (show dollar ∉ (fmtLong j.lastTimeRunned).bytes from notMem_fmtInt (by decide) (by decide))
  have hint := S.run_field (q := .findInterval j.name j.runnableFile j.lastTimeRunned)
    (show atSign ∉ (fmtLong j.secondsInterval).bytes from notMem_fmtInt (by decide) (by decide))
  have hpid := S.run_field
    (q := .findPid j.name j.runnableFile j.lastTimeRunned j.secondsInterval)
    (show newline ∉ (fmtInt32 j.pid).bytes from notMem_fmtInt (by decide) (by decide))
  have htext : jobText j ++ rest = j.name.bytes ++ caret :: (j.runnableFile.bytes ++ hash ::
      ((fmtLong j.lastTimeRunned).bytes ++ dollar :: ((fmtLong j.secondsInterval).bytes ++
        atSign :: ((fmtInt32 j.pid).bytes ++ newline :: rest)))) := by
    simp [jobText]
  have hinterval : S.field (.findInterval j.name j.runnableFile j.lastTimeRunned)
      (fmtLong j.secondsInterval) t =
        .ok (.findPid j.name j.runnableFile j.lastTimeRunned j.secondsInterval, t) := by
    simp only [S, jobsScanner, atol_fmtLong, if_neg hj.secondsInterval]
  rw [htext]
  refine (hname t _).trans ((hrun t _).trans ((htime t _).trans ?_))
  simp only [S, jobsScanner, atol_fmtLong, bind, Except.bind]
  refine (hint t _).trans ?_
  rw [hinterval]
  refine (hpid t rest).trans ?_
  simp only [S, jobsScanner, atoi_fmtInt32]
  cases hl : loadJob j t with
  | error e => rfl
  | ok p =>
    obtain ⟨rc, t'⟩ := p
    by_cases hrc : rc = 0
    · subst hrc
      rfl
    · simp only [orAbort, bind, Except.bind, ne_eq, hrc, not_false_eq_true, if_true]
      rfl

def jobsFormat : RecordFormat JobField Job where
  scanner := jobsScanner loadJob id fun _ => .aborted
  start := .findName
  text := jobText
  load t j := orAbort (loadJob j t)
  readBack := id
  Ok := Job.Ok
  PhaseOk := JobField.Ok
  start_ok := trivial
  record := jobs_record
  field_loads {q s t q' t'} hdelim hq h := by
    cases q with
    | findName =>
      cases h
      exact ⟨hdelim, .inl rfl⟩
    | findRunnable name =>
      cases h
      exact ⟨⟨hq, hdelim⟩, .inl rfl⟩
    | findTime name runnableFile =>
      cases h
      exact ⟨hq, .inl rfl⟩
    | findInterval name runnableFile lastTimeRunned =>
      simp only [jobsScanner] at h
      split at h
      · cases h
      · rename_i hne
        cases h
        exact ⟨⟨hq.1, hq.2, hne⟩, .inl rfl⟩
    | findPid name runnableFile lastTimeRunned interval =>
      simp only [jobsScanner] at h
      split at h
      · cases h
      · rename_i rc u hl
        split at h
        · cases h
        · rename_i hrc
          cases h
          refine ⟨trivial, .inr ⟨⟨name, runnableFile, lastTimeRunned, interval, atoi s⟩,
            ⟨hq.1, hq.2.1, hq.2.2⟩, ?_⟩⟩
          rw [hl, not_not.mp hrc]
          rfl

theorem reserve_honest {t : Table Job} (ht : t.Honest) :
    ∃ t', t.reserve jobGrowth = .ok t' ∧ t'.items = t.items ∧ t'.Honest ∧
      t'.items.length < t'.slots ∧ t'.items.length < t'.capacity := by
  obtain ⟨hc, hs⟩ := ht
  unfold Table.reserve
  split
  · rw [Table.realloc_eq (by simp only [jobGrowth]; omega)]
    refine ⟨_, rfl, rfl, ?_⟩
    simp only [Table.Honest, jobGrowth, initialScaleSizeOfJobs]
    omega
  · refine ⟨_, rfl, rfl, ⟨hc, hs⟩, ?_⟩
    omega

theorem loadJob_of_clash {t : Table Job} {j : Job} (ht : t.Honest)
    (h : t.items.any (jobClash · j) = true) :
    ∃ t', loadJob j t = .ok (-1, t') ∧ t'.items = t.items ∧ t'.Honest := by
  obtain ⟨t', hr, hi, hh, _⟩ := reserve_honest ht
  exact ⟨t', by simp only [loadJob, hr, bind, Except.bind, hi, h, if_true]; rfl, hi, hh⟩

theorem loadJob_of_fresh {t : Table Job} {j : Job} (ht : t.Honest)
    (h : t.items.any (jobClash · j) = false) :
    ∃ t', loadJob j t = .ok (0, t') ∧ t'.items = t.items ++ [j] ∧ t'.Honest := by
  obtain ⟨t', hr, hi, hh, hslots, hcap⟩ := reserve_honest ht
  refine ⟨⟨t'.items ++ [j], t'.capacity, t'.slots, by simp; omega⟩, ?_,
    congrArg (· ++ [j]) hi, ?_⟩
  · simp only [loadJob, hr, bind, Except.bind, hi, h, Bool.false_eq_true, if_false,
      Table.push_eq hslots]
    rfl
  · simp only [Table.Honest, List.length_append, List.length_singleton]
    obtain ⟨hc, hs⟩ := hh
    omega

/-- A `loadJob` that returns 0 has appended a fresh job. -/
theorem loadJob_eq_ok {t t' : Table Job} {j : Job} (h : orAbort (loadJob j t) = .ok t') :
    t.items.any (jobClash · j) = false ∧ t'.items = t.items ++ [j] := by
  simp only [orAbort, loadJob, bind, Except.bind] at h
  cases hr : t.reserve jobGrowth with
  | error e => rw [hr] at h; cases h
  | ok t₁ =>
    simp only [hr, Table.reserve_items hr] at h
    cases hc : t.items.any (jobClash · j) with
    | true => rw [hc] at h; cases h
    | false =>
      simp only [hc, Bool.false_eq_true, if_false] at h
      cases hp : t₁.push j with
      | error e => rw [hp] at h; cases h
      | ok t₂ =>
        rw [hp] at h
        cases h
        exact ⟨rfl, (Table.push_items hp).trans (by rw [Table.reserve_items hr])⟩

theorem jobs_loads (N : Nat) : Loads (jobClash · · = true) Table.Honest N jobsFormat.load where
  appends h := (loadJob_eq_ok h).2
  refuses h y hy hc := by simpa [hc] using List.any_eq_false.mp (loadJob_eq_ok h).1 y hy
  accepts {t x} ht _ hc := by
    obtain ⟨t', h, _, ht'⟩ := loadJob_of_fresh ht (by simpa using hc)
    exact ⟨t', by simp only [jobsFormat, h]; rfl, ht'⟩
  keeps {t x t'} h ht := by
    obtain ⟨t'', h', _, ht''⟩ := loadJob_of_fresh ht (loadJob_eq_ok h).1
    simp only [jobsFormat, h'] at h
    cases h
    exact ht''

/-! ## The store -/

/-- The table the constructor allocates before it loads. -/
def initialJobs : Table Job := .alloc initialScaleSizeOfJobs

/-- No two jobs share a name or a runnable file. -/
abbrev DistinctJobs (l : List Job) : Prop := Distinct (jobClash · · = true) l

theorem jobsText_eq (l : List Job) : jobsText l = jobsFormat.textAll l :=
  List.flatMap_eq_foldl.symm

theorem loadJobs_sound {data : Bytes} {t t' : Table Job} (ht : t.Honest) (hempty : t.items = [])
    (h : loadJobs t data = .ok t') :
    (∀ j ∈ t'.items, j.Ok) ∧ DistinctJobs t'.items ∧ t'.Honest :=
  jobsFormat.parse_sound (jobs_loads 0) ht hempty h

structure SameJobs (t u : Table Job) : Prop where
  items : u.items = t.items
  left : t.Honest
  right : u.Honest

theorem SameJobs.loadJob {t u t' : Table Job} {rc : Int} {j : Job} (h : SameJobs t u)
    (hl : MiniRunner.loadJob j t = .ok (rc, t')) :
    ∃ u', MiniRunner.loadJob j u = .ok (rc, u') ∧ SameJobs t' u' := by
  cases hc : t.items.any (jobClash · j) with
  | true =>
    obtain ⟨t₁, ht₁, hti, hth⟩ := loadJob_of_clash h.left hc
    obtain ⟨u₁, hu₁, hui, huh⟩ := loadJob_of_clash h.right (h.items ▸ hc)
    rw [ht₁] at hl
    cases hl
    exact ⟨u₁, hu₁, by rw [hui, hti, h.items], hth, huh⟩
  | false =>
    obtain ⟨t₁, ht₁, hti, hth⟩ := loadJob_of_fresh h.left hc
    obtain ⟨u₁, hu₁, hui, huh⟩ := loadJob_of_fresh h.right (h.items ▸ hc)
    rw [ht₁] at hl
    cases hl
    exact ⟨u₁, hu₁, by rw [hui, hti, h.items], hth, huh⟩

/-- What a file loads as does not depend on the block it is loaded into. -/
theorem SameJobs.loadJobs {t u t' : Table Job} {data : Bytes} (h : SameJobs t u)
    (hl : MiniRunner.loadJobs t data = .ok t') :
    ∃ u', MiniRunner.loadJobs u data = .ok u' ∧ SameJobs t' u' := by
  refine Scanner.parse_simulates _ (R := SameJobs) (fun {q s t u q' t'} hR hf => ?_) h hl
  cases q with
  | findInterval name runnableFile lastTimeRunned =>
    simp only [jobsScanner] at hf ⊢
    split at hf
    · cases hf
    · rename_i hne
      cases hf
      exact ⟨u, if_neg hne, hR⟩
  | findPid name runnableFile lastTimeRunned interval =>
    simp only [jobsScanner] at hf ⊢
    split at hf
    · cases hf
    · rename_i rc t₁ ht₁
      obtain ⟨u₁, hu₁, hR₁⟩ := hR.loadJob ht₁
      rw [hu₁]
      split at hf
      · cases hf
      · rename_i hrc
        cases hf
        exact ⟨u₁, if_neg hrc, hR₁⟩
  | _ =>
    cases hf
    exact ⟨u, rfl, hR⟩

/-- **Saving and loading jobs.** Distinct well-formed jobs are read back as they were. -/
theorem loadJobs_jobsText {l : List Job} {t : Table Job} (ht : t.Honest) (hempty : t.items = [])
    (hok : ∀ j ∈ l, j.Ok) (hd : DistinctJobs l) :
    ∃ t', loadJobs t (jobsText l) = .ok t' ∧ t'.items = l ∧ t'.Honest := by
  obtain ⟨t', h, hitems, ht'⟩ := jobsFormat.parse_text (jobs_loads l.length) ht hempty hok
    (by simpa [jobsFormat] using hd) le_rfl
  rw [jobsText_eq]
  exact ⟨t', h, by simpa [jobsFormat] using hitems, ht'⟩

theorem jobsText_ne_nil {l : List Job} (h : l ≠ []) : jobsText l ≠ [] := by
  obtain ⟨j, l, rfl⟩ := List.exists_cons_of_ne_nil h
  rw [jobsText_eq]
  simp [RecordFormat.textAll, jobsFormat, jobText]

/-! ## The daemon's copy -/

/-- **The daemon accepts what the command line accepts**, with the same table. -/
theorem loadJobsDaemon_eq_ok {jobs t : Table Job} {data : Bytes} :
    loadJobsDaemon jobs data = .ok (0, t) ↔ loadJobs jobs data = .ok t := by
  have hmap : (jobsScanner loadJob id fun _ => Halt.aborted) =
      (jobsScanner (ε := DaemonReject) loadJobDaemon .inl .inr).mapError
        (Sum.elim id fun _ => .aborted) := by
    simp only [Scanner.mapError, jobsScanner, Scanner.mk.injEq, true_and]
    funext q s u
    cases q with
    | findInterval name runnableFile lastTimeRunned =>
      simp only
      split <;> rfl
    | findPid name runnableFile lastTimeRunned interval =>
      simp only [loadJobDaemon]
      split
      · rfl
      · split <;> rfl
    | _ => rfl
  simp only [loadJobs, hmap, Scanner.parse_mapError, loadJobsDaemon]
  cases h : (jobsScanner (ε := DaemonReject) loadJobDaemon .inl .inr).parse .findName data jobs with
  | ok u => simp [Except.mapError]
  | error e => cases e <;> simp [Except.mapError]

end MiniRunner
