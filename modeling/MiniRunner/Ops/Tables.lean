import MiniRunner.Store.Services
import MiniRunner.Store.Jobs
import MiniRunner.Store.Envs
import MiniRunner.Store.Limits

/-!
# Operations on the tables

The commands that change a table without leaving the program: `job_ops`
(`createJob`, `removeJob`), `env_man` (`addEnv`, `updateEnv`, `removeEnv`,
`getArgs`) and the limit functions of `utils_ops`. Each returns the C return code
with the table it leaves. The removal loops are `Table.removeFirst`.
-/

namespace MiniRunner

open Clib

/-! ## Jobs -/

/-- Here the new size is counted from the number of jobs. -/
def createJobGrowth : Table.Growth := fun _ numberOfJobs =>
  (numberOfJobs + initialScaleSizeOfJobs, numberOfJobs + initialScaleSizeOfJobs)

/-- The job `createJob` makes at time `now`. -/
def newJob (jobName runnableFile : CStr) (secondsInterval now : BitVec 64) : Job :=
  ⟨jobName, runnableFile, now + 1, secondsInterval, 0⟩

def createJob (jobName runnableFile : CStr) (secondsInterval now : BitVec 64)
    (jobs : Table Job) : Except Halt (Int × Table Job) :=
  jobs.insert createJobGrowth (jobClash · (newJob jobName runnableFile secondsInterval now))
    (newJob jobName runnableFile secondsInterval now)

def removeJob (jobName : CStr) (jobs : Table Job) : Int × Table Job :=
  if jobs.isNull ∧ jobs.items.length = 0 then (0, jobs)
  else
    match jobs.removeFirst (·.name == jobName) with
    | none => (-1, jobs)
    | some (_, jobs) => (0, jobs)

theorem createJobGrowth_safe : createJobGrowth.Safe := by
  intro n
  simp [createJobGrowth, initialScaleSizeOfJobs]

theorem createJob_of_clash {jobName runnableFile : CStr} {secondsInterval now : BitVec 64}
    {jobs : Table Job}
    (h : ∃ y ∈ jobs.items, jobClash y (newJob jobName runnableFile secondsInterval now) = true) :
    createJob jobName runnableFile secondsInterval now jobs = .ok (-1, jobs) :=
  Table.insert_of_clash (List.any_eq_true.mpr h)

theorem createJob_of_fresh {jobName runnableFile : CStr} {secondsInterval now : BitVec 64}
    {jobs : Table Job} (hj : jobs.Honest)
    (h : ¬∃ y ∈ jobs.items, jobClash y (newJob jobName runnableFile secondsInterval now) = true) :
    ∃ jobs', createJob jobName runnableFile secondsInterval now jobs = .ok (0, jobs') ∧
      jobs'.items = jobs.items ++ [newJob jobName runnableFile secondsInterval now] := by
  obtain ⟨t', ha, hitems, _⟩ := hj.append createJobGrowth_safe
    (newJob jobName runnableFile secondsInterval now)
  refine ⟨t', ?_, hitems⟩
  rw [createJob, Table.insert_of_fresh (by simpa using h), ha]
  rfl

theorem removeJob_items (jobName : CStr) (jobs : Table Job) :
    (removeJob jobName jobs).2.items = Ledger.strike (·.name == jobName) jobs.items := by
  unfold removeJob
  split
  · rename_i h
    rw [List.length_eq_zero_iff.mp h.2]
    rfl
  · split
    · rename_i h
      exact (List.eraseP_of_forall_not fun x hx => by
        simpa using Table.removeFirst_eq_none.mp h x hx).symm
    · rename_i h
      exact (Table.removeFirst_eq_some h).2

theorem removeJob_eq_self {jobName : CStr} {jobs : Table Job}
    (h : (removeJob jobName jobs).1 ≠ 0) :
    (removeJob jobName jobs).2 = jobs := by
  revert h
  unfold removeJob
  split
  · exact fun _ => rfl
  · split
    · exact fun _ => rfl
    · exact fun h => absurd rfl h

/-! ## Environment variables -/

/-- An entry is looked up by name and key. -/
def isEnv (name key : CStr) (e : Env) : Bool := e.name == name && e.key == key

/-- A bound pair is left alone, and that counts as success. -/
def addEnv (name key value : CStr) (envs : Table Env) : Except Halt (Int × Table Env) :=
  if envs.items.any (isEnv name key) then .ok (0, envs)
  else (envs.append envGrowth ⟨name, key, value⟩).map (0, ·)

def updateEnv (name key value : CStr) (envs : Table Env) : Int × Table Env :=
  if envs.items.any (isEnv name key) then
    (0, envs.mapItems (Table.updateFirst (isEnv name key) fun e => { e with value := value })
      (Table.length_updateFirst _ _ _))
  else (-1, envs)

def removeEnv (name key : CStr) (envs : Table Env) : Int × Table Env :=
  match envs.removeFirst (isEnv name key) with
  | none => (-1, envs)
  | some (_, envs) => (0, envs)

theorem updateEnv_items (name key value : CStr) (envs : Table Env) :
    (updateEnv name key value envs).2.items =
      Table.updateFirst (isEnv name key) (fun e => { e with value := value }) envs.items := by
  unfold updateEnv
  split
  · rfl
  · rename_i h
    exact (Table.updateFirst_of_forall_not (by simpa using h)).symm

theorem removeEnv_items (name key : CStr) (envs : Table Env) :
    (removeEnv name key envs).2.items = Ledger.strike (isEnv name key) envs.items := by
  unfold removeEnv
  split
  · rename_i h
    exact (List.eraseP_of_forall_not fun x hx => by
      simpa using Table.removeFirst_eq_none.mp h x hx).symm
  · rename_i h
    exact (Table.removeFirst_eq_some h).2

/-- `%s=%s`. -/
def parseEnvToString (e : Env) : CStr :=
  ⟨e.key.bytes ++ 61 :: e.value.bytes, by simp [e.key.noNul, e.value.noNul]⟩

/-- As in `envGrowth`, the capacity takes the number of bytes. -/
def argsGrowth : Table.Growth := fun capacity _ =>
  (pointerSize * (capacity + initialScaleOfEnv), capacity + initialScaleOfEnv)

/-- One round of the loop of `getArgs`. -/
def collectArg (name : CStr) (arg : Table CStr) (e : Env) : Except Halt (Table CStr) :=
  if e.name == name then arg.append argsGrowth (parseEnvToString e) else .ok arg

/-- The strings of a service's entries; the final NULL goes to index `found + 1`. -/
def getArgs (name : CStr) (envs : List Env) : Except Halt EnvToArg := do
  let arg ← envs.foldlM (collectArg name) (.alloc initialScaleOfEnv)
  let found := arg.items.length
  if found + 1 < arg.slots then
    let cells := arg.items.map (fun s => some (some s)) ++ List.replicate (arg.slots - found) none
    pure ⟨cells.set (found + 1) (some none), found, arg.capacity⟩
  else throw .undefined

/-- Before and after the first growth of the argument block. -/
def ArgBlock (t : Table CStr) : Prop :=
  (t.capacity = 20 ∧ t.slots = 20) ∨ (t.capacity = 320 ∧ t.slots = 40 ∧ 20 < t.items.length)

theorem ArgBlock.append {t : Table CStr} (ht : ArgBlock t) (x : CStr)
    (h : t.items.length < envLimit) : ∃ t', t.append argsGrowth x = .ok t' ∧ ArgBlock t' := by
  have hin := t.inBlock
  simp only [envLimit] at h
  obtain ⟨hc, hs⟩ | ⟨hc, hs, hlen⟩ := ht
  · by_cases hfull : t.capacity ≤ t.items.length
    · refine ⟨_, Table.append_of_full hfull ?_, .inr ?_⟩
      · simp only [argsGrowth, hc, initialScaleOfEnv]
        omega
      · simp [argsGrowth, hc, initialScaleOfEnv, pointerSize]
        omega
    · exact ⟨_, Table.append_of_room (by omega) (by omega), .inl ⟨hc, hs⟩⟩
  · refine ⟨_, Table.append_of_room (by omega) (by omega), .inr ⟨hc, hs, ?_⟩⟩
    simp only [List.length_append, List.length_singleton]
    omega

/-- The loop of `getArgs` collects the entries of the service. -/
theorem collectArg_fold (name : CStr) (envs : List Env) :
    ∀ {t : Table CStr}, ArgBlock t → t.items.length + envs.countP (·.name == name) ≤ envLimit →
      ∃ t', envs.foldlM (collectArg name) t = .ok t' ∧ ArgBlock t' ∧
        t'.items.length = t.items.length + envs.countP (·.name == name) := by
  induction envs with
  | nil => exact fun ht _ => ⟨_, rfl, ht, rfl⟩
  | cons e envs ih =>
    intro t ht hn
    rw [List.foldlM_cons, collectArg]
    by_cases he : (e.name == name) = true
    · have hcount : (e :: envs).countP (·.name == name) = envs.countP (·.name == name) + 1 :=
        List.countP_cons_of_pos he
      rw [if_pos he, hcount]
      rw [hcount] at hn
      obtain ⟨t₁, happend, ht₁⟩ := ht.append (parseEnvToString e) (by omega)
      have hlen : t₁.items.length = t.items.length + 1 := by
        rw [Table.append_items happend, List.length_append, List.length_singleton]
      obtain ⟨t', hfold, ht', hlen'⟩ := ih ht₁ (by omega)
      exact ⟨t', by rw [happend]; exact hfold, ht', by omega⟩
    · have hcount : (e :: envs).countP (·.name == name) = envs.countP (·.name == name) :=
        List.countP_cons_of_neg he
      rw [if_neg he, hcount]
      rw [hcount] at hn
      obtain ⟨t', hfold, ht', hlen'⟩ := ih ht (by omega)
      exact ⟨t', hfold, ht', by omega⟩

/-- The numbers of entries for which the final NULL is past the block. -/
def argsOverflow (found : Nat) : Bool :=
  found == 19 || found == 20 || found == 39 || found == 40

/-- **`getArgs`** is defined unless its final NULL is written past the block. -/
theorem getArgs_cases (name : CStr) {envs : List Env} (hn : envs.length ≤ envLimit) :
    if argsOverflow (envs.countP (·.name == name)) then getArgs name envs = .error .undefined
    else ∃ args, getArgs name envs = .ok args := by
  have hcount := List.countP_le_length (p := (·.name == name)) (l := envs)
  have hstart : ArgBlock (.alloc initialScaleOfEnv) := .inl ⟨rfl, rfl⟩
  obtain ⟨t, hfold, ht, hlen⟩ := collectArg_fold name envs hstart
    (by simp only [Table.alloc, List.length_nil]; omega)
  simp only [Table.alloc, List.length_nil, Nat.zero_add] at hlen
  have hin := t.inBlock
  have hover : argsOverflow (envs.countP (·.name == name)) = true ↔
      ¬t.items.length + 1 < t.slots := by
    simp only [envLimit] at hn
    simp only [argsOverflow, Bool.or_eq_true, beq_iff_eq, ← hlen]
    obtain ⟨_, hs⟩ | ⟨_, hs, _⟩ := ht <;> omega
  simp only [getArgs, hfold, bind, Except.bind]
  split
  · rename_i h
    rw [if_neg (hover.mp h)]
    rfl
  · rename_i h
    rw [if_pos (not_not.mp (mt hover.mpr h))]
    exact ⟨_, rfl⟩

/-! ## Limits -/

/-- `createLimit` reallocates the slots it records. -/
def createLimitGrowth : Table.Growth := fun capacity _ =>
  (capacity + initialScaleOfResLimit, capacity + initialScaleOfResLimit)

def createLimit (name : CStr) (cpuLimit : BitVec 64) (memLimit : BitVec 128)
    (limits : Table Limit) : Except Halt (Int × Table Limit) :=
  if limits.isNull then .ok (-1, limits)
  else if limits.items.any (·.name == name) then
    .ok (0, limits.mapItems (Table.updateFirst (·.name == name)
      fun l => { l with cpu := cpuLimit, memory := memLimit }) (Table.length_updateFirst _ _ _))
  else (limits.append createLimitGrowth ⟨name, cpuLimit, memLimit⟩).map (0, ·)

/-- The cpu quota and the memory of a limit. -/
def Limit.amounts (l : Limit) : BitVec 64 × BitVec 128 := (l.cpu, l.memory)

/-- What is recorded for a name, in its first entry. -/
def limitOf (name : CStr) (limits : List Limit) : Option (BitVec 64 × BitVec 128) :=
  (limits.find? (·.name == name)).map Limit.amounts

def removeLimit (name : CStr) (limits : Table Limit) : Int × Table Limit :=
  match limits.removeFirst (·.name == name) with
  | none => (0, limits)
  | some (_, limits) => (0, limits)

theorem removeLimit_items (name : CStr) (limits : Table Limit) :
    (removeLimit name limits).2.items = Ledger.strike (·.name == name) limits.items := by
  unfold removeLimit
  split
  · rename_i h
    exact (List.eraseP_of_forall_not fun x hx => by
      simpa using Table.removeFirst_eq_none.mp h x hx).symm
  · rename_i h
    exact (Table.removeFirst_eq_some h).2

theorem removeLimit_rc (name : CStr) (limits : Table Limit) : (removeLimit name limits).1 = 0 := by
  unfold removeLimit
  split <;> rfl

def renameLimit (name newName : CStr) (limits : Table Limit) : Int × Table Limit :=
  if limits.isNull then (-1, limits)
  else (0, limits.mapItems (Table.updateFirst (·.name == name)
    fun l => { l with name := newName }) (Table.length_updateFirst _ _ _))

end MiniRunner
