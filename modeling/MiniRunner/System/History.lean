import MiniRunner.System.Processes

/-!
# What a run of processes leaves

The database of the files after a run of processes, each with one of the twelve commands of
`Command`, from the run's events: the jobs and the env entries
are those of the commands that reported success (`jobsAfter`, `envsAfter`), a service and its
limit are there until a command names them, and files that do not load any more are the work
of one process, behind which no process does anything.
-/

namespace MiniRunner.System

open Clib MiniRunner

variable {fs fs' : Files} {d : Tables} {events : List Event}

/-! ## Histories -/

/-- A job, but for its times and its pid. -/
def jobKey (j : Job) : CStr × CStr × BitVec 64 := (j.name, j.runnableFile, j.secondsInterval)

/-- What an event has done to the jobs, by its return code. -/
def jobsAfter (jobs : List (CStr × CStr × BitVec 64)) (e : Event) :
    List (CStr × CStr × BitVec 64) :=
  if e.outcome ≠ .exits 0 then jobs
  else
    match e.command with
    | .addJob jobName runnableFile timeInSeconds =>
      jobs ++ [(jobName, runnableFile, timeInSeconds)]
    | .removeJob jobName => Ledger.strike (·.1 == jobName) jobs
    | _ => jobs

/-- What an event has done to the env entries. -/
def envsAfter (envs : List Env) (e : Event) : List Env :=
  if e.outcome ≠ .exits 0 then envs
  else
    match e.command with
    | .addEnv name key value =>
      if envs.any (isEnv name key) then envs else rereadEnvs (envs ++ [⟨name, key, value⟩])
    | .updateEnv name key value =>
      rereadEnvs (Table.updateFirst (isEnv name key) (fun e => { e with value := value }) envs)
    | .removeEnv name key => Ledger.strike (isEnv name key) envs
    | _ => envs

theorem Effect.jobs_eq {cmd : Command} {rc : Int} {T : Tables} (h : Effect d cmd rc T) :
    T.jobs.map jobKey = jobsAfter (d.jobs.map jobKey) ⟨cmd, .exits rc⟩ := by
  cases h with
  | failed => rfl
  | pids cmd rc services hcmd =>
    unfold jobsAfter
    split
    · rfl
    · cases cmd <;> first | rfl | exact hcmd.elim
  | jobAdded => exact List.map_append
  | jobRemoved jobName => exact Ledger.map_strike jobKey (·.1 == jobName) d.jobs
  | _ => rfl

/-- So are its env entries, as they are read back. -/
theorem Effect.envs_eq {cmd : Command} {rc : Int} {T : Tables} (h : Effect d cmd rc T)
    (hd : d.Sound) : rereadEnvs T.envs = envsAfter d.envs ⟨cmd, .exits rc⟩ := by
  have hsame : rereadEnvs d.envs = d.envs := rereadEnvs_of_ok hd.newlines
  cases h with
  | failed => exact hsame
  | pids cmd rc services hcmd =>
    unfold envsAfter
    split
    · exact hsame
    · cases cmd <;> first | exact hsame | exact hcmd.elim
  | envAdded name key value hvalid hbound hroom => simp [envsAfter, hbound]
  | envBound name key value hbound => simp [envsAfter, hbound, hsame]
  | envUpdated => rfl
  | envRemoved name key => exact rereadEnvs_of_ok (Ledger.forall_strike hd.newlines)
  | _ => exact hsame

theorem Step.follows {d d' : Database} {e : Event} (h : Step (some d) e (some d')) :
    d'.jobs.map jobKey = jobsAfter (d.jobs.map jobKey) e ∧ d'.envs = envsAfter d.envs e := by
  generalize hst : some d' = st at h
  cases h with
  | @saved _ d'' _ _ _ heffect hreread =>
    cases hst
    rw [hreread]
    exact ⟨heffect.jobs_eq, heffect.envs_eq d.sound⟩
  | bricked => cases hst
  | gaveUp | crowded =>
    cases hst
    exact ⟨rfl, rfl⟩

/-- `add-env a k 1`. -/
def bindOne : Command := .addEnv (.ofBytes [97]) (.ofBytes [107]) (.ofBytes [49])

/-- `update-env a k 2`. -/
def bindTwo : Command := .updateEnv (.ofBytes [97]) (.ofBytes [107]) (.ofBytes [50])

def boundThenUpdated : List Event := [⟨bindOne, .exits 0⟩, ⟨bindTwo, .exits 0⟩]

theorem boundThenUpdated_run : ∃ fs', Steps ProcessStep boundThenUpdated twoServices fs' := by
  have hone : Completes (bindOne.exec (.allWell 1)) twoServices
      (filesAfter (bindOne.exec (.allWell 1)) twoServices) :=
    completes_of_succeeds (by decide +kernel)
  have htwo : Completes (bindTwo.exec (.allWell 1))
      (filesAfter (bindOne.exec (.allWell 1)) twoServices)
      (filesAfter (bindTwo.exec (.allWell 1))
        (filesAfter (bindOne.exec (.allWell 1)) twoServices)) :=
    completes_of_succeeds (by decide +kernel)
  exact ⟨_, .cons (.of_completes hone) (.single (.of_completes htwo))⟩

def takes (name : CStr) : Command → Prop
  | .remove serviceName => serviceName = name
  | .rename oldName _ => oldName = name
  | _ => False

/-- Those that may change the limit of a service. -/
def relimits (name : CStr) : Command → Prop
  | .setLimit serviceName _ _ _ => serviceName = name
  | cmd => takes name cmd

/-- **What no command names is kept**: a service under its name with its repository. -/
theorem Effect.keeps_service {cmd : Command} {rc : Int} {T : Tables} (h : Effect d cmd rc T)
    {s : Service} (hs : s ∈ d.services) (hno : ¬takes s.name cmd) :
    ∃ s' ∈ T.services, s'.name = s.name ∧ s'.githubRepo = s.githubRepo := by
  have hkept : ∀ {l : List Service}, s ∈ l →
      ∃ s' ∈ l, s'.name = s.name ∧ s'.githubRepo = s.githubRepo := fun hmem => ⟨s, hmem, rfl, rfl⟩
  cases h with
  | added => exact hkept (List.mem_append_left _ hs)
  | removed name =>
    have hother : (s.name == name) = false := beq_false_of_ne fun heq => hno heq.symm
    exact hkept (Ledger.mem_strike (p := fun s : Service => s.name == name) hother hs)
  | pids cmd rc services hcmd hmap =>
    obtain ⟨s', hs', hrepo, hname, -⟩ := mem_of_identity hmap.symm hs
    exact ⟨s', hs', hname, hrepo⟩
  | renamed oldName newName =>
    have hother : (s.name == oldName) = false := beq_false_of_ne fun heq => hno heq.symm
    exact hkept (Table.mem_updateFirst (p := fun s : Service => s.name == oldName) hother hs)
  | _ => exact hkept hs

/-- And its limit. -/
theorem Effect.keeps_limit {cmd : Command} {rc : Int} {T : Tables} (h : Effect d cmd rc T)
    {l : Limit} (hl : l ∈ d.limits) (hno : ¬relimits l.name cmd) : l ∈ T.limits := by
  cases h with
  | removed name =>
    have hother : (l.name == name) = false := beq_false_of_ne fun heq => hno heq.symm
    exact Ledger.mem_strike (p := fun l : Limit => l.name == name) hother hl
  | renamed oldName newName =>
    have hother : (l.name == oldName) = false := beq_false_of_ne fun heq => hno heq.symm
    exact Table.mem_updateFirst (p := fun l : Limit => l.name == oldName) hother hl
  | limited name =>
    have hother : (l.name == name) = false := beq_false_of_ne fun heq => hno heq.symm
    simp only [Tables.record, recordLimit]
    split
    · exact Table.mem_updateFirst (p := fun l : Limit => l.name == name) hother hl
    · exact List.mem_append_left _ hl
  | _ => exact hl

theorem Step.keeps_service {d d' : Database} {e : Event} (h : Step (some d) e (some d'))
    {s : Service} (hs : s ∈ d.services) (hno : ¬takes s.name e.command) :
    ∃ s' ∈ d'.services, s'.name = s.name ∧ s'.githubRepo = s.githubRepo := by
  generalize hst : some d' = st at h
  cases h with
  | saved heffect hreread =>
    cases hst
    rw [hreread]
    exact heffect.keeps_service hs hno
  | bricked => cases hst
  | gaveUp | crowded =>
    cases hst
    exact ⟨s, hs, rfl, rfl⟩

theorem Step.keeps_limit {d d' : Database} {e : Event} (h : Step (some d) e (some d'))
    {l : Limit} (hl : l ∈ d.limits) (hno : ¬relimits l.name e.command) : l ∈ d'.limits := by
  generalize hst : some d' = st at h
  cases h with
  | saved heffect hreread =>
    cases hst
    have hread : l.readBack = l := l.readBack_eq_iff.mpr (d.sound.memory l hl)
    rw [hreread, ← hread]
    exact List.mem_map_of_mem (heffect.keeps_limit hl hno)
  | bricked => cases hst
  | gaveUp | crowded =>
    cases hst
    exact hl

theorem Effect.bricks {cmd : Command} {rc : Int} {T : Tables} (h : Effect d cmd rc T)
    (hd : d.Sound) (hno : ¬T.reread.Apart) : rc = 0 ∧ mayBrick d cmd := by
  have hbrick : mayBrick d cmd := not_not.mp fun h' => hno ((h.apart_iff hd).mpr (.inr h'))
  refine ⟨?_, hbrick⟩
  cases h with
  | failed =>
    rw [hd.reread] at hno
    exact absurd hd.apart hno
  | pids cmd rc services hcmd => cases cmd <;> first | exact hcmd.elim | exact hbrick.elim
  | _ => rfl

end MiniRunner.System
