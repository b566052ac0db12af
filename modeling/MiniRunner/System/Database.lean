import MiniRunner.Clib.Transitions
import MiniRunner.Refinement.Services
import MiniRunner.Restart.Durable
import MiniRunner.Restart.Envs
import MiniRunner.System.Reread

/-!
# The data files as one database

What the program keeps between its processes is four tables. `Effect` says what each command
does to them, by what its process reports, and `Step` what is there for the next process: the
tables as they are read back, or nothing when they are not apart any more, which no later
process gets past. A `Database` carries what is invariant of all of them: a limit belongs to
a service that is there, there is one limit at most, and so on (`Sound`).

That the processes of the program do no more than these steps is shown in `Processes`.
-/

namespace MiniRunner.System

open Clib MiniRunner

structure Tables where
  services : List Service
  jobs : List Job
  envs : List Env
  limits : List Limit
  deriving DecidableEq

namespace Tables

/-- The tables as the next process reads them. -/
def reread (T : Tables) : Tables :=
  { T with envs := rereadEnvs T.envs, limits := T.limits.map Limit.readBack }

/-- The tables that a constructor does not refuse. -/
def Apart (T : Tables) : Prop := DistinctServices T.services ∧ DistinctEnvs T.envs

instance (T : Tables) : Decidable T.Apart := inferInstanceAs (Decidable (_ ∧ _))

/-- The entry of the service says that it runs. -/
def Running (T : Tables) (name : CStr) : Prop :=
  ∃ s, T.services.find? (·.name == name) = some s ∧ s.pid ≠ 0

def Has (T : Tables) (name : CStr) : Prop := ∃ s ∈ T.services, s.name = name

def record (T : Tables) (l : Limit) : Tables :=
  { T with limits := recordLimit l.name l.cpu l.memory T.limits }

/-- Tables as a process may have them in memory when it ends. -/
structure Savable (T : Tables) : Prop where
  services : ∀ s ∈ T.services, Services.Entry s
  jobs : ∀ j ∈ T.jobs, j.Ok
  jobsApart : DistinctJobs T.jobs
  envs : ∀ e ∈ T.envs, e.Savable
  envsFit : T.envs.length ≤ envLimit
  limits : ∀ l ∈ T.limits, l.Ok
  oneLimit : T.limits.length ≤ 1
  /-- A limit belongs to a service. -/
  covered : ∀ l ∈ T.limits, T.Has l.name

/-- **The invariant of the data files**: moreover, they load, and as what they say. -/
structure Sound (T : Tables) : Prop extends Savable T where
  apart : T.Apart
  newlines : ∀ e ∈ T.envs, newline ∉ e.value.bytes
  memory : ∀ l ∈ T.limits, l.memory.toNat < 2 ^ 63

end Tables

structure Database extends Tables where
  sound : toTables.Sound

/-! ## Steps -/

def startsOrStops : Command → Prop
  | .run _ _ _ | .stop _ | .restart _ _ _ => True
  | _ => False

/-- A `set-limit` that was not called off, with something to set. -/
structure Asked (cpu : Option (BitVec 64)) (declined : Bool) (mem : Option Amount) : Prop where
  some : cpu.isSome ∨ mem.isSome
  accepted : Accepted mem
  confirmed : cpu.isSome → declined = false

/-- **What a command does to the tables** when its process ends with a return code. -/
inductive Effect (d : Tables) : Command → Int → Tables → Prop
  /-- A failure that is reported has changed nothing. -/
  | failed (cmd : Command) : Effect d cmd 1 d
  | added (githubLink nickName : CStr) :
      isValidName nickName = 0 → isValidGithubRepo githubLink = 0 →
      Fresh githubLink nickName d.services →
      Effect d (.add githubLink nickName) 0
        { d with services := d.services ++ [addedService githubLink nickName true] }
  /-- `remove` and `rename` report nothing. -/
  | notRemoved (name : CStr) : Effect d (.remove name) 0 d
  | removed (name : CStr) :
      Effect d (.remove name) 0
        { d with
          services := Ledger.strike (·.name == name) d.services
          limits := Ledger.strike (·.name == name) d.limits }
  /-- Starting and stopping changes pids. -/
  | pids (cmd : Command) (rc : Int) (services : List Service) : startsOrStops cmd →
      services.map Service.identity = d.services.map Service.identity →
      Effect d cmd rc { d with services := services }
  | notRenamed (oldName newName : CStr) : Effect d (.rename oldName newName) 0 d
  /-- Nobody asks whether the new name is taken. -/
  | renamed (oldName newName : CStr) : isValidName newName = 0 → d.Has oldName →
      Effect d (.rename oldName newName) 0
        { d with
          services := MiniRunner.renamed oldName newName d.services
          limits := Table.updateFirst (·.name == oldName) (fun l => { l with name := newName })
            d.limits }
  /-- A success that recorded nothing, or nothing that is saved. -/
  | notLimited (name : CStr) (cpu : Option (BitVec 64)) (declined : Bool) (mem : Option Amount) :
      (d.Running name → marksLimits cpu mem = true → cpu = none ∧ mem = none) →
      Effect d (.setLimit name cpu declined mem) 0 d
  | limited (name : CStr) (cpu : Option (BitVec 64)) (declined : Bool) (mem : Option Amount) :
      d.Running name → marksLimits cpu mem = true → Asked cpu declined mem →
      (d.record (limitFor name cpu mem)).limits.length ≤ 1 →
      Effect d (.setLimit name cpu declined mem) 0 (d.record (limitFor name cpu mem))
  | jobAdded (jobName runnableFile : CStr) (timeInSeconds now : BitVec 64) :
      (Jobs.Op.addJob jobName runnableFile timeInSeconds now).Accepted →
      (∀ y ∈ d.jobs, ¬jobClash y (newJob jobName runnableFile timeInSeconds now) = true) →
      Effect d (.addJob jobName runnableFile timeInSeconds) 0
        { d with jobs := d.jobs ++ [newJob jobName runnableFile timeInSeconds now] }
  | jobRemoved (jobName : CStr) : (∃ j ∈ d.jobs, j.name = jobName) →
      Effect d (.removeJob jobName) 0
        { d with jobs := Ledger.strike (·.name == jobName) d.jobs }
  | envAdded (name key value : CStr) : ValidEnv name key value →
      d.envs.any (isEnv name key) = false → d.envs.length < envLimit →
      Effect d (.addEnv name key value) 0 { d with envs := d.envs ++ [⟨name, key, value⟩] }
  /-- A pair that is bound stays as it is, and that is a success. -/
  | envBound (name key value : CStr) : d.envs.any (isEnv name key) = true →
      Effect d (.addEnv name key value) 0 d
  | envUpdated (name key value : CStr) : ValidEnv name key value →
      d.envs.any (isEnv name key) = true →
      Effect d (.updateEnv name key value) 0
        { d with
          envs := Table.updateFirst (isEnv name key) (fun e => { e with value := value }) d.envs }
  | envRemoved (name key : CStr) : d.envs.any (isEnv name key) = true →
      Effect d (.removeEnv name key) 0
        { d with envs := Ledger.strike (isEnv name key) d.envs }

inductive Outcome where
  | exits (rc : Int)
  | aborts
  deriving DecidableEq

/-- One process: its command and how it ended. -/
structure Event where
  command : Command
  outcome : Outcome
  deriving DecidableEq

/-- A clone and a start are given up where their child does not answer. -/
def givesUp : Command → Prop
  | .add _ _ | .run _ _ _ | .restart _ _ _ => True
  | _ => False

/-- A `set-limit` that records a second limit to be saved. -/
def crowds (d : Tables) : Command → Prop
  | .setLimit name cpu declined mem => d.Running name ∧ marksLimits cpu mem = true ∧
    Asked cpu declined mem ∧ 2 ≤ (d.record (limitFor name cpu mem)).limits.length
  | _ => False

/-- **A step of the database**; `none` is files that no constructor loads. -/
inductive Step : Option Database → Event → Option Database → Prop
  | saved {d d' : Database} {cmd : Command} {rc : Int} {T : Tables} :
      Effect d.toTables cmd rc T → d'.toTables = T.reread →
      Step (some d) ⟨cmd, .exits rc⟩ (some d')
  | bricked {d : Database} {cmd : Command} {rc : Int} {T : Tables} :
      Effect d.toTables cmd rc T → ¬T.reread.Apart → Step (some d) ⟨cmd, .exits rc⟩ none
  | gaveUp {d : Database} {cmd : Command} : givesUp cmd → Step (some d) ⟨cmd, .aborts⟩ (some d)
  /-- The destructor saves the other tables, as they were, and aborts on two limits. -/
  | crowded {d : Database} {cmd : Command} : crowds d.toTables cmd →
      Step (some d) ⟨cmd, .aborts⟩ (some d)
  | dead (cmd : Command) : Step none ⟨cmd, .aborts⟩ none

/-! ## What an effect keeps -/

section sound

variable {d : Tables}

theorem Tables.Sound.reread (h : d.Sound) : d.reread = d := by
  rw [Tables.reread, rereadEnvs_of_ok h.newlines, readBack_of_lt h.memory]

/-- **What is saved and read back apart is sound.** -/
theorem Tables.Savable.sound {T : Tables} (h : T.Savable) (hapart : T.reread.Apart) :
    T.reread.Sound := by
  have henvs : ∀ e ∈ T.reread.envs, e.Ok := ok_rereadEnvs h.envs
  refine ⟨⟨h.services, h.jobs, h.jobsApart, fun e he => (henvs e he).savable, ?_, fun l hl => ?_,
    ?_, fun l hl => ?_⟩, hapart, fun e he => (henvs e he).value, fun l hl => ?_⟩
  · exact (length_rereadEnvs T.envs).trans_le h.envsFit
  · obtain ⟨l₀, hl₀, rfl⟩ := List.mem_map.mp hl
    exact ⟨(h.limits l₀ hl₀).name⟩
  · exact (List.length_map _).trans_le h.oneLimit
  · obtain ⟨l₀, hl₀, rfl⟩ := List.mem_map.mp hl
    exact h.covered l₀ hl₀
  · obtain ⟨l₀, -, rfl⟩ := List.mem_map.mp hl
    exact l₀.readBack_lt

theorem Tables.Savable.withServices (h : d.Savable) {services : List Service}
    {limits : List Limit} (hentry : ∀ s ∈ services, Services.Entry s)
    (hlimits : ∀ l ∈ limits, l.Ok) (hone : limits.length ≤ 1)
    (hcovered : ∀ l ∈ limits, ∃ s ∈ services, s.name = l.name) :
    Tables.Savable { d with services := services, limits := limits } :=
  ⟨hentry, h.jobs, h.jobsApart, h.envs, h.envsFit, hlimits, hone, hcovered⟩

theorem Tables.Savable.withJobs (h : d.Savable) {jobs : List Job} (hok : ∀ j ∈ jobs, j.Ok)
    (hapart : DistinctJobs jobs) : Tables.Savable { d with jobs := jobs } :=
  ⟨h.services, hok, hapart, h.envs, h.envsFit, h.limits, h.oneLimit, h.covered⟩

theorem Tables.Savable.withEnvs (h : d.Savable) {envs : List Env} (hok : ∀ e ∈ envs, e.Savable)
    (hfit : envs.length ≤ envLimit) : Tables.Savable { d with envs := envs } :=
  ⟨h.services, h.jobs, h.jobsApart, hok, hfit, h.limits, h.oneLimit, h.covered⟩

theorem mem_of_identity {services services' : List Service}
    (hmap : services'.map Service.identity = services.map Service.identity) {s : Service}
    (hs : s ∈ services') : ∃ s₀ ∈ services, s₀.githubRepo = s.githubRepo ∧ s₀.name = s.name ∧
      s₀.cloned = s.cloned := by
  have hmem : s.identity ∈ services.map Service.identity := hmap ▸ List.mem_map_of_mem hs
  obtain ⟨s₀, hs₀, heq⟩ := List.mem_map.mp hmem
  simp only [Service.identity, Prod.mk.injEq] at heq
  exact ⟨s₀, hs₀, heq⟩

theorem entry_of_identity {services services' : List Service}
    (hmap : services'.map Service.identity = services.map Service.identity)
    (hentry : ∀ s ∈ services, Services.Entry s) : ∀ s ∈ services', Services.Entry s := by
  intro s hs
  obtain ⟨s₀, hs₀, hrepo, hname, hcloned⟩ := mem_of_identity hmap hs
  have h := hentry s₀ hs₀
  exact ⟨⟨hname ▸ h.ok.name, hrepo ▸ h.ok.githubRepo, hcloned ▸ h.ok.cloned⟩, hname ▸ h.name,
    hrepo ▸ h.githubRepo⟩

/-- What a strike leaves of the limits is covered by what it leaves of the services. -/
theorem Tables.Savable.covered_strike (h : d.Savable) (name : CStr) :
    ∀ l ∈ Ledger.strike (·.name == name) d.limits,
      ∃ s ∈ Ledger.strike (·.name == name) d.services, s.name = l.name := by
  intro l hl
  have hdistinct : DistinctLimits d.limits := by
    match hlimits : d.limits, h.oneLimit with
    | [], _ => exact List.Pairwise.nil
    | [x], _ => exact List.pairwise_singleton _ x
  have hother : (l.name == name) = false :=
    Ledger.not_of_mem_strike (fun x y hx hy => by
      simp only [beq_iff_eq, limitClash] at *
      exact hx.trans hy.symm) hdistinct l hl
  obtain ⟨s, hs, hname⟩ := h.covered l (List.mem_of_mem_eraseP hl)
  refine ⟨s, Ledger.mem_strike ?_ hs, hname⟩
  simpa [hname] using hother

/-- A rename takes the service and its limit along. -/
theorem Tables.Savable.covered_renamed (h : d.Savable) {oldName newName : CStr}
    (hfound : d.Has oldName) :
    ∀ l ∈ Table.updateFirst (·.name == oldName) (fun l => { l with name := newName }) d.limits,
      ∃ s ∈ MiniRunner.renamed oldName newName d.services, s.name = l.name := by
  intro l hl
  match hlimits : d.limits, h.oneLimit with
  | [], _ =>
    rw [hlimits] at hl
    cases hl
  | [x], _ =>
    rw [hlimits, Table.updateFirst] at hl
    by_cases hx : x.name = oldName
    · simp only [hx, beq_self_eq_true, if_true, List.mem_singleton] at hl
      subst hl
      exact exists_renamed newName hfound
    · simp only [beq_iff_eq, hx, if_false, Table.updateFirst, List.mem_singleton] at hl
      subst hl
      obtain ⟨s, hs, hname⟩ := h.covered l (by simp [hlimits])
      have hother : (s.name == oldName) = false := beq_false_of_ne (hname.trans_ne hx)
      exact ⟨s, Table.mem_updateFirst (p := fun s : Service => s.name == oldName) hother hs, hname⟩

theorem recordLimit_ok {name : CStr} {cpu : BitVec 64} {memory : BitVec 128} {l : List Limit}
    (hname : caret ∉ name.bytes) (hl : ∀ x ∈ l, x.Ok) :
    ∀ x ∈ recordLimit name cpu memory l, x.Ok := by
  unfold recordLimit
  split
  · exact Table.forall_updateFirst (fun x _ hx => ⟨hx.name⟩) hl
  · exact List.forall_mem_append.mpr ⟨hl, List.forall_mem_singleton.mpr ⟨hname⟩⟩

theorem mem_recordLimit {name : CStr} {cpu : BitVec 64} {memory : BitVec 128} {l : List Limit}
    {x : Limit} (hx : x ∈ recordLimit name cpu memory l) :
    x.name = name ∨ ∃ y ∈ l, y.name = x.name := by
  unfold recordLimit at hx
  split at hx
  · have hname : ∀ y ∈ Table.updateFirst (·.name == name)
        (fun y : Limit => { y with cpu := cpu, memory := memory }) l, ∃ z ∈ l, z.name = y.name :=
      Table.forall_updateFirst (P := fun y : Limit => ∃ z ∈ l, z.name = y.name)
        (f := fun y => { y with cpu := cpu, memory := memory }) (fun _ _ hy => hy)
        fun y hy => ⟨y, hy, rfl⟩
    exact .inr (hname x hx)
  · rcases List.mem_append.mp hx with hx | hx
    · exact .inr ⟨x, hx, rfl⟩
    · exact .inl (by rw [List.mem_singleton.mp hx])

/-- **What an effect leaves can be saved.** -/
theorem Effect.savable {cmd : Command} {rc : Int} {T : Tables} (h : Effect d cmd rc T)
    (hd : d.Savable) : T.Savable := by
  cases h with
  | failed | notRemoved | notRenamed | notLimited | envBound => exact hd
  | added githubLink nickName hname hrepo hfresh =>
    refine hd.withServices (List.forall_mem_append.mpr ⟨hd.services,
      List.forall_mem_singleton.mpr (Services.entry_added hname hrepo)⟩) hd.limits hd.oneLimit
      fun l hl => ?_
    obtain ⟨s, hs, hsname⟩ := hd.covered l hl
    exact ⟨s, List.mem_append_left _ hs, hsname⟩
  | removed name =>
    exact hd.withServices (Ledger.forall_strike hd.services) (Ledger.forall_strike hd.limits)
      (List.length_eraseP_le.trans hd.oneLimit) (hd.covered_strike name)
  | pids _ _ services _ hmap =>
    refine hd.withServices (entry_of_identity hmap hd.services) hd.limits hd.oneLimit fun l hl => ?_
    obtain ⟨s, hs, hsname⟩ := hd.covered l hl
    obtain ⟨s', hs', -, hname', -⟩ := mem_of_identity hmap.symm hs
    exact ⟨s', hs', hname'.trans hsname⟩
  | renamed oldName newName hvalid hfound =>
    obtain ⟨-, hlen, hcaret, -⟩ := checkService_eq_zero.mp hvalid
    refine hd.withServices (Table.forall_updateFirst (fun s _ hs => ?_) hd.services)
      (Table.forall_updateFirst (fun _ _ _ => ⟨hcaret⟩) hd.limits) ?_ (hd.covered_renamed hfound)
    · exact ⟨⟨hcaret, hs.ok.githubRepo, hs.ok.cloned⟩, hlen, hs.githubRepo⟩
    · rw [Table.length_updateFirst]
      exact hd.oneLimit
  | limited name cpu declined mem hrunning hmarks hasked hone =>
    obtain ⟨s, hfind, -⟩ := hrunning
    have hs := List.mem_of_find?_eq_some hfind
    have hname : s.name = name := by simpa using List.find?_some hfind
    refine hd.withServices hd.services (recordLimit_ok (hname ▸ (hd.services s hs).ok.name)
      hd.limits) hone fun l hl => ?_
    rcases mem_recordLimit hl with hl | ⟨y, hy, hyname⟩
    · exact ⟨s, hs, hname.trans hl.symm⟩
    · exact hyname ▸ hd.covered y hy
  | jobAdded jobName runnableFile timeInSeconds now haccepted hfresh =>
    exact hd.withJobs (List.forall_mem_append.mpr ⟨hd.jobs,
      List.forall_mem_singleton.mpr (Jobs.newJob_ok haccepted)⟩)
      (Ledger.distinct_append_singleton.mpr ⟨hd.jobsApart, hfresh⟩)
  | jobRemoved jobName =>
    exact hd.withJobs (Ledger.forall_strike hd.jobs) (Ledger.distinct_strike hd.jobsApart)
  | envAdded name key value hvalid hbound hroom =>
    obtain ⟨hname, hkey, hvalue⟩ := hvalid
    refine hd.withEnvs (List.forall_mem_append.mpr ⟨hd.envs, List.forall_mem_singleton.mpr ?_⟩)
      (by simpa using hroom)
    exact ⟨(checkEnv_eq_true.mp hname).1, (checkEnv_eq_true.mp hkey).2,
      fun _ => (checkEnv_eq_true.mp hvalue).1⟩
  | envUpdated name key value hvalid hbound =>
    refine hd.withEnvs (Table.forall_updateFirst (fun e _ he => ?_) hd.envs) ?_
    · exact ⟨he.name, he.key, fun _ => (checkEnv_eq_true.mp hvalid.2.2).1⟩
    · rw [Table.length_updateFirst]
      exact hd.envsFit
  | envRemoved name key hbound =>
    exact hd.withEnvs (Ledger.forall_strike hd.envs) (List.length_eraseP_le.trans hd.envsFit)

end sound

/-! ## How the tables stop being apart -/

/-- The commands that can make two entries alike: a rename to the name of another service, and
an update whose newline gives the entry behind it a name that is taken. -/
def mayBrick (d : Tables) : Command → Prop
  | .rename oldName newName => d.Has oldName ∧ d.Has newName ∧ newName ≠ oldName
  | .updateEnv name key value =>
    newline ∈ value.bytes ∧ ∃ next ∈ nextEnv name key d.envs, ¬GluedFree value next d.envs
  | _ => False

section apart

variable {d : Tables}

theorem rereadEnvs_append {l l' : List Env} (hl : ∀ e ∈ l, newline ∉ e.value.bytes) :
    rereadEnvs (l ++ l') = l ++ rereadEnvs l' := by
  induction l with
  | nil => rfl
  | cons e l ih =>
    obtain ⟨he, hrest⟩ := List.forall_mem_cons.mp hl
    rw [List.cons_append, rereadEnvs, rereadFrom, if_neg he]
    exact congrArg (e :: ·) (ih hrest)

theorem rereadEnvs_single (e : Env) :
    ∃ e', rereadEnvs [e] = [e'] ∧ e'.name = e.name ∧ e'.key = e.key := by
  rw [rereadEnvs, rereadFrom]
  split
  · exact ⟨e.cut, rfl, rfl, rfl⟩
  · exact ⟨e, rfl, rfl, rfl⟩

/-- **An update is read back apart** unless its value runs into a name that is taken. -/
theorem distinct_updated_iff (hd : d.Sound) (name key value : CStr) :
    DistinctEnvs (rereadEnvs (Table.updateFirst (isEnv name key)
      (fun e => { e with value := value }) d.envs)) ↔
      ∀ next ∈ nextEnv name key d.envs, newline ∈ value.bytes → GluedFree value next d.envs := by
  have hapart := hd.apart.2
  have hlines := hd.newlines
  by_cases hbound : d.envs.any (isEnv name key) = true
  swap
  · rw [nextEnv_eq_none hbound, Table.updateFirst_of_forall_not (by simpa using hbound),
      rereadEnvs_of_ok hlines]
    exact iff_of_true hapart (by simp)
  obtain ⟨before, e, after, henvs, hbefore, he, hnext⟩ := nextEnv_split hbound
  rw [hnext, henvs, Table.updateFirst_append_cons hbefore he]
  rw [henvs] at hapart hlines
  obtain ⟨hlinesBefore, hlinesRest⟩ := List.forall_mem_append.mp hlines
  obtain ⟨-, hlinesAfter⟩ := List.forall_mem_cons.mp hlinesRest
  rw [rereadEnvs_append hlinesBefore, rereadEnvs, rereadFrom]
  by_cases hnewline : newline ∈ value.bytes
  swap
  · have hrest : rereadFrom none after = after := rereadEnvs_of_ok hlinesAfter
    rw [if_neg hnewline, hrest]
    exact iff_of_true (distinct_update _ hapart rfl rfl) fun _ _ h => absurd h hnewline
  · rw [if_pos hnewline]
    cases after with
    | nil => exact iff_of_true (distinct_update _ hapart rfl rfl) (by simp)
    | cons next after =>
      obtain ⟨hnextLine, hafter⟩ := List.forall_mem_cons.mp hlinesAfter
      have hrest : rereadFrom none after = after := rereadEnvs_of_ok hafter
      rw [rereadFrom, if_neg hnextLine, hrest]
      refine (distinct_glued_iff (Env.cut { e with value := value }) value hapart rfl rfl).trans ?_
      simp [hnewline]

/-- **When the tables stay apart**: unless such a command has changed something. -/
theorem Effect.apart_iff {cmd : Command} {rc : Int} {T : Tables} (h : Effect d cmd rc T)
    (hd : d.Sound) : T.reread.Apart ↔ T = d ∨ ¬mayBrick d cmd := by
  obtain ⟨hservices, henvs⟩ := hd.apart
  have hsame : DistinctEnvs (rereadEnvs d.envs) := by
    rw [rereadEnvs_of_ok hd.newlines]
    exact henvs
  cases h with
  | failed | notRemoved | notRenamed | notLimited | envBound =>
    rw [hd.reread]
    exact iff_of_true hd.apart (.inl rfl)
  | added githubLink nickName hname hrepo hfresh =>
    refine iff_of_true ⟨?_, hsame⟩ (.inr id)
    exact Ledger.distinct_append_singleton.mpr ⟨hservices, fun y hy => by simp [hfresh y hy]⟩
  | removed name =>
    exact iff_of_true ⟨Ledger.distinct_strike hservices, hsame⟩ (.inr id)
  | pids cmd _ services hcmd hmap =>
    refine iff_of_true ⟨?_, hsame⟩ (.inr fun hbrick => ?_)
    · refine Ledger.distinct_of_map_eq (k := Service.identity)
        (r := fun a b => (a.1 == b.1 || a.2.1 == b.2.1) = true) (fun _ _ => Iff.rfl) hservices hmap
    · cases cmd <;> first | exact hcmd | exact hbrick
  | renamed oldName newName hvalid hfound =>
    have hiff : Tables.Apart (Tables.reread { d with
        services := MiniRunner.renamed oldName newName d.services
        limits := Table.updateFirst (·.name == oldName) (fun l => { l with name := newName })
          d.limits }) ↔ ¬mayBrick d (.rename oldName newName) := by
      have hrenamed : DistinctServices (MiniRunner.renamed oldName newName d.services) ↔
          ∀ s ∈ d.services, s.name = newName → newName = oldName :=
        distinct_renamed_iff hservices hfound
      refine (and_iff_left (hsame)).trans (hrenamed.trans ?_)
      constructor
      · rintro hall ⟨-, ⟨s, hs, hname⟩, hne⟩
        exact hne (hall s hs hname)
      · intro hno s hs hname
        by_contra hne
        exact hno ⟨hfound, ⟨s, hs, hname⟩, hne⟩
    refine hiff.trans ⟨.inr, ?_⟩
    rintro (heq | hno)
    · refine hiff.mp ?_
      rw [heq, hd.reread]
      exact hd.apart
    · exact hno
  | limited | jobAdded | jobRemoved =>
    exact iff_of_true ⟨hservices, hsame⟩ (.inr id)
  | envAdded name key value hvalid hbound hroom =>
    refine iff_of_true ⟨hservices, ?_⟩ (.inr id)
    obtain ⟨e', hsingle, hname, hkey⟩ := rereadEnvs_single ⟨name, key, value⟩
    change DistinctEnvs (rereadEnvs (d.envs ++ [⟨name, key, value⟩]))
    rw [rereadEnvs_append hd.newlines, hsingle]
    refine Ledger.distinct_append_singleton.mpr ⟨henvs, fun y hy => ?_⟩
    have hno : ¬isEnv name key y = true := fun h => by
      rw [List.any_eq_true.mpr ⟨y, hy, h⟩] at hbound
      cases hbound
    simpa [isEnv, envClash, hname, hkey, and_comm] using hno
  | envUpdated name key value hvalid hbound =>
    have hiff : Tables.Apart (Tables.reread { d with
        envs := Table.updateFirst (isEnv name key) (fun e => { e with value := value }) d.envs }) ↔
        ¬mayBrick d (.updateEnv name key value) := by
      refine (and_iff_right hservices).trans ((distinct_updated_iff hd name key value).trans ?_)
      simp only [mayBrick, not_and, not_exists, not_not]
      exact ⟨fun hall hnewline next hnext => hall next hnext hnewline,
        fun hall next hnext hnewline => hall hnewline next hnext⟩
    refine hiff.trans ⟨.inr, ?_⟩
    rintro (heq | hno)
    · refine hiff.mp ?_
      rw [heq, hd.reread]
      exact hd.apart
    · exact hno
  | envRemoved name key hbound =>
    have hstruck : DistinctEnvs (rereadEnvs (Ledger.strike (isEnv name key) d.envs)) := by
      rw [rereadEnvs_of_ok (Ledger.forall_strike hd.newlines)]
      exact Ledger.distinct_strike henvs
    exact iff_of_true ⟨hservices, hstruck⟩ (.inr id)

end apart

end MiniRunner.System
