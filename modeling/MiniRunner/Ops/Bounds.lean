import MiniRunner.Clib.Cells
import MiniRunner.Clib.Runs
import MiniRunner.Ops.Services

/-!
# The bounds of the services and jobs arrays

The operations on the two arrays with every index they use. What is allocated, the count
and the capacity are moved by different functions: `-m` allocates and says so nowhere, and
the removal of the last entry frees the block under a capacity that is not 0. An access is
out of bounds after either, and only then.
-/

namespace MiniRunner

open Clib Cells

namespace Bounds

/-! ## The operations -/

section services

variable (junk : Nat → Service) (services : Cells Service)

def loadProject (newService : Service) : Except Halt (Int × Cells Service) :=
  services.insert serviceGrowth (serviceClash · newService) newService junk

/-- `addProject`; `cloneRepo` takes the entry at the end of the array. -/
def addProject (githubRepo nickName : CStr) (cloned : Cloned) :
    Except Halt (Int × Cells Service) := do
  let newService : Service := ⟨githubRepo, nickName, 0, false⟩
  let (rc, services) ← services.insert serviceGrowth (serviceClash · newService) newService junk
  if rc ≠ 0 then pure (-1, services)
  else
    let s ← services.read (services.count - 1)
    match cloned with
    | .gaveUp => throw .aborted
    | .failed => pure (-1, services)
    | .done => do
      let services ← services.write (services.count - 1) { s with cloned := true }
      pure (0, services)

/-- `normalDeleteServices`; `deleted` is whether the folder of the service could be removed. -/
def normalDeleteServices (serviceName : CStr) (deleted : Bool) : Except Halt (Cells Service) := do
  if services.block.isNone then pure services
  else
    match ← services.find (·.name == serviceName) with
    | none => pure services
    | some i =>
      if deleted = false then pure services
      else
        let services ← services.removeAt i
        if services.count = 0 then
          pure { services.free with capacity := initialScaleSizeOfServices }
        else pure services

/-- `renameService`; `renamed` is whether the folder, the cgroup and the limit followed. -/
def renameService (serviceName newName : CStr) (renamed : Bool) :
    Except Halt (Cells Service) := do
  if services.block.isNone then pure services
  else
    match ← services.find (·.name == serviceName) with
    | none => pure services
    | some i =>
      let s ← services.read i
      if renamed = false then pure services
      else services.write i { s with name := newName }

/-- `-m`. A negative number is more bytes than there are, and a `realloc` of a block to
nothing answers NULL too; `granted` is whether the rest can be allocated. -/
def max (numberofProcesses : Int) (granted : Bool) : Except Halt (Cells Service) :=
  if numberofProcesses < 0 ∨ (numberofProcesses = 0 ∧ services.block.isSome) ∨ granted = false
  then throw .aborted
  else pure (services.realloc junk numberofProcesses.toNat)

end services

section jobs

variable (junk : Nat → Job) (jobs : Cells Job)

def loadJob (newJob : Job) : Except Halt (Int × Cells Job) := do
  let jobs := jobs.reserve jobGrowth junk
  match ← jobs.find (jobClash · newJob) with
  | some _ => pure (-1, jobs)
  | none =>
    let jobs ← jobs.push newJob
    pure (0, jobs)

def createJob (jobName runnableFile : CStr) (secondsInterval now : BitVec 64) :
    Except Halt (Int × Cells Job) :=
  jobs.insert createJobGrowth (jobClash · (newJob jobName runnableFile secondsInterval now))
    (newJob jobName runnableFile secondsInterval now) junk

def removeJob (jobName : CStr) : Except Halt (Cells Job) := do
  if jobs.block.isNone ∧ jobs.count = 0 then pure jobs
  else
    match ← jobs.find (·.name == jobName) with
    | none => pure jobs
    | some i =>
      let jobs ← jobs.removeAt i
      if jobs.count = 0 then pure jobs.free else pure jobs

end jobs

/-! ## Runs -/

structure Arrays where
  services : Cells Service
  jobs : Cells Job

/-- What the slots hold that an allocation adds. -/
structure Junk where
  services : Nat → Service
  jobs : Nat → Job

def Junk.blank : Junk where
  services _ := ⟨.empty, .empty, 0, false⟩
  jobs _ := newJob .empty .empty 0 0

def Arrays.start (junk : Junk) : Arrays where
  services := ⟨some ((List.range initialScaleSizeOfServices).map junk.services), 0,
    initialScaleSizeOfServices⟩
  jobs := ⟨some ((List.range initialScaleSizeOfJobs).map junk.jobs), 0, initialScaleSizeOfJobs⟩

/-- An operation on one of the arrays, with what the calls out of it answer. -/
inductive ArrayOp where
  | load (newService : Service)
  | add (githubRepo nickName : CStr) (cloned : Cloned)
  | remove (serviceName : CStr) (deleted : Bool)
  | rename (serviceName newName : CStr) (renamed : Bool)
  | max (numberofProcesses : Int) (granted : Bool)
  | loadJob (newJob : Job)
  | createJob (jobName runnableFile : CStr) (secondsInterval now : BitVec 64)
  | removeJob (jobName : CStr)

namespace ArrayOp

def exec (junk : Junk) (s : Arrays) : ArrayOp → Except Halt Arrays
  | load newService =>
    (loadProject junk.services s.services newService).map fun r => { s with services := r.2 }
  | add githubRepo nickName cloned =>
    (addProject junk.services s.services githubRepo nickName cloned).map fun r =>
      { s with services := r.2 }
  | remove serviceName deleted =>
    (normalDeleteServices s.services serviceName deleted).map fun t => { s with services := t }
  | rename serviceName newName renamed =>
    (renameService s.services serviceName newName renamed).map fun t => { s with services := t }
  | max numberofProcesses granted =>
    (Bounds.max junk.services s.services numberofProcesses granted).map fun t =>
      { s with services := t }
  | loadJob newJob =>
    (Bounds.loadJob junk.jobs s.jobs newJob).map fun r => { s with jobs := r.2 }
  | createJob jobName runnableFile secondsInterval now =>
    (Bounds.createJob junk.jobs s.jobs jobName runnableFile secondsInterval now).map fun r =>
      { s with jobs := r.2 }
  | removeJob jobName =>
    (Bounds.removeJob s.jobs jobName).map fun t => { s with jobs := t }

/-- One operation; a run ends where the process does. -/
def step (a : ArrayOp × Junk) (s : Arrays) : Option Arrays :=
  match a.1.exec a.2 s with
  | .ok s' => some s'
  | .error _ => none

/-- **Every index is below the number of allocated slots.** -/
def InBounds (s : Arrays) (a : ArrayOp × Junk) : Prop := Cells.Stays (a.1.exec a.2 s)

/-- There is room for one more service: the entries that the duplicate check looks at are in
the block, and unless it finds one the table is full, and grows, or has a slot left. -/
def HasRoom (newService : Service) (t : Cells Service) : Prop :=
  t.Walks (serviceClash · newService) ∧
    ((∃ s ∈ t.cells.take t.count, serviceClash s newService = true) ∨ t.count = t.capacity ∨
      t.count < t.slots)

/-- What the operation needs of the slots that were allocated. -/
def Fits (s : Arrays) : ArrayOp → Prop
  | load newService => HasRoom newService s.services
  | add githubRepo nickName _ => HasRoom ⟨githubRepo, nickName, 0, false⟩ s.services
  | remove serviceName deleted =>
    s.services.count ≤ s.services.slots ∨
      deleted = false ∧ ∃ x ∈ s.services.cells, (x.name == serviceName) = true
  | rename serviceName _ _ => s.services.Walks (·.name == serviceName)
  | max _ _ | removeJob _ => True
  | loadJob _ | createJob _ _ _ _ => 0 < s.jobs.slots

end ArrayOp

/-- The count is within the capacity, and a freed array is empty. -/
structure ServicesTracked (t : Cells Service) : Prop where
  le_capacity : t.count ≤ t.capacity
  freed : t.block = none → t.count = 0

/-- Nothing but the growth allocates the jobs array: it is freed or as large as recorded. -/
structure JobsTracked (t : Cells Job) : Prop where
  le_capacity : t.count ≤ t.capacity
  capacity_pos : 0 < t.capacity
  slots : t.block = none ∧ t.count = 0 ∨ t.capacity ≤ t.slots

structure Tracked (s : Arrays) : Prop where
  services : ServicesTracked s.services
  jobs : JobsTracked s.jobs

/-! ## What stays in the block -/

section stays

variable {junk : Nat → Service} {services : Cells Service}

theorem stays_loadProject {newService : Service} (h : ServicesTracked services) :
    Cells.Stays (loadProject junk services newService) ↔
      ArrayOp.HasRoom newService services :=
  Cells.stays_insert serviceGrowth_safe h.le_capacity

theorem ServicesTracked.le_slots_of_freed (h : ServicesTracked services)
    (hblock : services.block = none) : services.count ≤ services.slots := by
  rw [h.freed hblock]
  exact Nat.zero_le _

/-- What comes after the append is in the block. -/
theorem stays_addProject {githubRepo nickName : CStr} {cloned : Cloned}
    (h : ServicesTracked services) :
    Cells.Stays (addProject junk services githubRepo nickName cloned) ↔
      ArrayOp.HasRoom ⟨githubRepo, nickName, 0, false⟩ services := by
  rw [← @stays_loadProject junk services _ h, loadProject, addProject]
  cases hins : services.insert serviceGrowth (serviceClash · ⟨githubRepo, nickName, 0, false⟩)
      ⟨githubRepo, nickName, 0, false⟩ junk with
  | error e => cases e <;> exact Iff.rfl
  | ok r =>
    obtain ⟨rc, t⟩ := r
    rcases Cells.insert_ok hins with ⟨rfl, rfl⟩ | ⟨rfl, l, rfl, -, hlt⟩
    · exact iff_of_true trivial trivial
    · have hread (k : Nat) := Cells.read_eq (t := (⟨some l, services.count + 1, k⟩ :
        Cells Service)) hlt
      have hwrite (k : Nat) (s : Service) := Cells.write_eq (t := (⟨some l, services.count + 1, k⟩ :
        Cells Service)) (x := s) hlt
      refine iff_of_true ?_ trivial
      simp only [bind, Except.bind, ne_eq, not_true_eq_false, if_false, Nat.add_sub_cancel, hread]
      cases cloned with
      | gaveUp => exact trivial
      | failed => exact trivial
      | done =>
        simp only [hwrite]
        exact trivial

theorem stays_normalDeleteServices {serviceName : CStr} {deleted : Bool}
    (h : ServicesTracked services) :
    Cells.Stays (normalDeleteServices services serviceName deleted) ↔
      services.count ≤ services.slots ∨
        deleted = false ∧ ∃ x ∈ services.cells, (x.name == serviceName) = true := by
  rw [normalDeleteServices]
  cases hblock : services.block with
  | none => exact iff_of_true trivial (.inl (h.le_slots_of_freed hblock))
  | some l =>
    simp only [Option.isNone_some, Bool.false_eq_true, if_false]
    rcases Cells.find_cases (·.name == serviceName) services with
      ⟨i, hfind, hi, hslot, hp⟩ | ⟨hfind, hle⟩ | ⟨hfind, hlt, hw⟩
    · rw [hfind]
      cases deleted with
      | false => exact iff_of_true trivial (.inr ⟨rfl, _, List.get_mem _ _, hp⟩)
      | true =>
        simp only [bind, Except.bind, Bool.true_eq_false, if_false, false_and, or_false]
        by_cases hle : services.count ≤ services.slots
        · rw [Cells.removeAt_eq hi hle]
          simp only
          split
          · exact iff_of_true trivial hle
          · exact iff_of_true trivial hle
        · rw [Cells.removeAt_outside hslot (Nat.lt_of_not_le hle)]
          exact iff_of_false id hle
    · rw [hfind]
      exact iff_of_true trivial (.inl hle)
    · rw [hfind]
      refine iff_of_false id ?_
      rintro (hle | ⟨-, hfound⟩)
      · omega
      · exact hw (.inr hfound)

theorem stays_renameService {serviceName newName : CStr} {renamed : Bool}
    (h : ServicesTracked services) :
    Cells.Stays (renameService services serviceName newName renamed) ↔
      services.Walks (·.name == serviceName) := by
  rw [renameService]
  cases hblock : services.block with
  | none => exact iff_of_true trivial (.inl (h.le_slots_of_freed hblock))
  | some l =>
    simp only [Option.isNone_some, Bool.false_eq_true, if_false]
    rcases Cells.find_cases (·.name == serviceName) services with
      ⟨i, hfind, hi, hslot, hp⟩ | ⟨hfind, hle⟩ | ⟨hfind, hlt, hw⟩
    · refine iff_of_true ?_ (.inr ⟨_, List.get_mem _ _, hp⟩)
      rw [hfind]
      simp only [bind, Except.bind]
      rw [Cells.read_eq hslot]
      simp only
      split
      · exact trivial
      · rw [Cells.write_eq hslot]
        exact trivial
    · rw [hfind]
      exact iff_of_true trivial (.inl hle)
    · rw [hfind]
      exact iff_of_false id hw

theorem stays_max (n : Int) (granted : Bool) :
    Cells.Stays (Bounds.max junk services n granted) := by
  rw [Bounds.max]
  split <;> exact trivial

end stays

section staysJobs

variable {junk : Nat → Job} {jobs : Cells Job}

theorem hasRoom_iff (h : JobsTracked jobs) (p : Job → Bool) :
    (jobs.Walks p ∧ ((∃ x ∈ jobs.cells.take jobs.count, p x = true) ∨
      jobs.count = jobs.capacity ∨ jobs.count < jobs.slots)) ↔ 0 < jobs.slots := by
  obtain ⟨hjobs, hcap, hslots⟩ := h
  rcases hslots with ⟨hblock, hcount⟩ | hslots
  · have hcells : jobs.cells = [] := by rw [Cells.cells, hblock]; rfl
    have hzero : jobs.slots = 0 := by rw [Cells.slots, hcells]; rfl
    refine iff_of_false ?_ (by omega)
    rintro ⟨-, ⟨x, hx, -⟩ | hfull | hlt⟩
    · simp [hcells] at hx
    · omega
    · omega
  · exact iff_of_true ⟨.inl (by omega), .inr (by omega)⟩ (by omega)

theorem stays_createJob {jobName runnableFile : CStr} {secondsInterval now : BitVec 64}
    (h : JobsTracked jobs) :
    Cells.Stays (Bounds.createJob junk jobs jobName runnableFile secondsInterval now) ↔
      0 < jobs.slots := by
  rw [Bounds.createJob, Cells.stays_insert createJobGrowth_safe h.le_capacity]
  exact hasRoom_iff h _

theorem jobGrowth_safe : jobGrowth.Safe := by
  intro n
  simp [jobGrowth, initialScaleSizeOfJobs]

/-- The growth comes before the duplicate check, which it keeps in the block. -/
theorem stays_loadJob {newJob : Job} (h : JobsTracked jobs) :
    Cells.Stays (Bounds.loadJob junk jobs newJob) ↔ 0 < jobs.slots := by
  have hroom : jobs.count < (jobs.reserve jobGrowth junk).slots ↔ 0 < jobs.slots := by
    rw [Cells.lt_slots_reserve_iff jobGrowth_safe h.le_capacity]
    obtain ⟨hjobs, hcap, hslots⟩ := h
    omega
  obtain ⟨-, hcap, hslots⟩ := h
  rw [← hroom, Bounds.loadJob]
  rcases Cells.find_cases (jobClash · newJob) (jobs.reserve jobGrowth junk) with
    ⟨i, hfind, -, hslot, -⟩ | ⟨hfind, -⟩ | ⟨hfind, hlt, -⟩
  · rw [hfind]
    refine iff_of_true trivial ?_
    omega
  · rw [hfind]
    simp only [bind, Except.bind]
    by_cases hlt : (jobs.reserve jobGrowth junk).count < (jobs.reserve jobGrowth junk).slots
    · rw [Cells.push_eq hlt]
      exact iff_of_true trivial (by rwa [Cells.count_reserve] at hlt)
    · rw [Cells.push_outside (Nat.le_of_not_lt hlt)]
      exact iff_of_false id (by rwa [Cells.count_reserve] at hlt)
  · rw [hfind]
    rw [Cells.count_reserve] at hlt
    exact iff_of_false id (by omega)

theorem stays_removeJob {jobName : CStr} (h : JobsTracked jobs) :
    Cells.Stays (Bounds.removeJob jobs jobName) := by
  have hle : jobs.count ≤ jobs.slots := by
    obtain ⟨hjobs, -, hslots⟩ := h
    omega
  rw [Bounds.removeJob]
  split
  · exact trivial
  · rcases Cells.find_cases (·.name == jobName) jobs with
      ⟨i, hfind, hi, -⟩ | ⟨hfind, -⟩ | ⟨-, hlt, -⟩
    · rw [hfind]
      simp only [bind, Except.bind]
      rw [Cells.removeAt_eq hi hle]
      simp only
      split <;> exact trivial
    · rw [hfind]
      exact trivial
    · omega

end staysJobs

/-! ## What the operations keep -/

section kept

variable {services : Cells Service} {jobs : Cells Job}

theorem yields_write {i : Nat} {s : Service} (h : ServicesTracked services) :
    Yields ServicesTracked (services.write i s) :=
  .ite (fun _ => .ok ⟨h.le_capacity, nofun⟩) fun _ => .error

theorem yields_insert {junk : Nat → Service} {newService : Service}
    (h : ServicesTracked services) : Yields (fun r => ServicesTracked r.2)
      (services.insert serviceGrowth (serviceClash · newService) newService junk) := by
  rintro ⟨rc, t⟩ hins
  rcases Cells.insert_ok hins with ⟨-, rfl⟩ | ⟨-, l, rfl, -⟩
  · exact h
  · exact ⟨Cells.lt_capacity_reserve serviceGrowth_safe h.le_capacity, nofun⟩

theorem yields_addProject {junk : Nat → Service} {githubRepo nickName : CStr} {cloned : Cloned}
    (h : ServicesTracked services) : Yields (fun r => ServicesTracked r.2)
      (addProject junk services githubRepo nickName cloned) := by
  refine .bind (yields_insert h) fun r hr => .ite (fun _ => .ok hr) fun _ =>
    .bind (P := fun _ => True) (fun _ _ => trivial) fun s _ => ?_
  cases cloned with
  | gaveUp => exact .error
  | failed => exact .ok hr
  | done => exact .bind (yields_write hr) fun t ht => .ok ht

theorem yields_renameService {serviceName newName : CStr} {renamed : Bool}
    (h : ServicesTracked services) :
    Yields ServicesTracked (renameService services serviceName newName renamed) := by
  refine .ite (fun _ => .ok h) fun _ => .bind (P := fun _ => True) (fun _ _ => trivial)
    fun o _ => ?_
  cases o with
  | none => exact .ok h
  | some i =>
    exact .bind (P := fun _ => True) (fun _ _ => trivial) fun s _ => .ite (fun _ => .ok h)
      fun _ => yields_write h

theorem yields_normalDeleteServices {serviceName : CStr} {deleted : Bool}
    (h : ServicesTracked services) :
    Yields ServicesTracked (normalDeleteServices services serviceName deleted) := by
  refine .ite (fun _ => .ok h) fun _ => .bind (yields_find _ _) fun o ho => ?_
  cases o with
  | none => exact .ok h
  | some i =>
    obtain ⟨hi, hslot⟩ := ho i rfl
    refine .ite (fun _ => .ok h) fun _ => .bind (yields_removeAt hi hslot) fun t ht => ?_
    obtain ⟨hcount, hcap, -, hblock⟩ := ht
    have hle := h.le_capacity
    refine .ite (fun hzero => .ok ⟨?_, fun _ => hzero⟩) fun _ => .ok ⟨by omega, fun hnone =>
      absurd hnone hblock⟩
    exact hzero ▸ Nat.zero_le _

theorem yields_max {junk : Nat → Service} {n : Int} {granted : Bool}
    (h : ServicesTracked services) : Yields ServicesTracked (Bounds.max junk services n granted) :=
  .ite (fun _ => .error) fun _ => .ok ⟨h.le_capacity, nofun⟩

theorem JobsTracked.reserve (h : JobsTracked jobs) {g : Table.Growth} (hg : g.Safe)
    (junk : Nat → Job) : JobsTracked (jobs.reserve g junk) ∧
      (jobs.reserve g junk).count < (jobs.reserve g junk).capacity := by
  have hlt := @Cells.lt_capacity_reserve _ jobs g junk hg h.le_capacity
  rw [Cells.count_reserve]
  refine ⟨⟨by rw [Cells.count_reserve]; omega, by omega, ?_⟩, hlt⟩
  rcases Nat.lt_or_eq_of_le h.le_capacity with hroom | hfull
  · rw [Cells.reserve_of_room hroom]
    exact h.slots
  · exact .inr (Cells.reserve_full hg hfull.symm).2

theorem yields_push {newJob : Job} (h : JobsTracked jobs) (hlt : jobs.count < jobs.capacity) :
    Yields JobsTracked (jobs.push newJob) := by
  by_cases hslot : jobs.count < jobs.slots
  · rw [Cells.push_eq hslot]
    have hlen : (jobs.cells.set jobs.count newJob).length = jobs.slots := List.length_set
    refine .ok ⟨hlt, h.capacity_pos, .inr ?_⟩
    rcases h.slots with ⟨hblock, -⟩ | hcap
    · rw [Cells.slots, Cells.cells, hblock] at hslot
      exact absurd hslot (Nat.not_lt_zero _)
    · exact Nat.le_trans hcap (Nat.le_of_eq hlen.symm)
  · rw [Cells.push_outside (Nat.le_of_not_lt hslot)]
    exact .error

theorem yields_createJob {junk : Nat → Job} {jobName runnableFile : CStr}
    {secondsInterval now : BitVec 64} (h : JobsTracked jobs) : Yields (fun r => JobsTracked r.2)
      (Bounds.createJob junk jobs jobName runnableFile secondsInterval now) := by
  refine .bind (yields_find _ _) fun o _ => ?_
  cases o with
  | some i => exact .ok h
  | none =>
    obtain ⟨hr, hlt⟩ := h.reserve createJobGrowth_safe junk
    exact .bind (yields_push hr hlt) fun t ht => .ok ht

theorem yields_loadJob {junk : Nat → Job} {newJob : Job} (h : JobsTracked jobs) :
    Yields (fun r => JobsTracked r.2) (Bounds.loadJob junk jobs newJob) := by
  obtain ⟨hr, hlt⟩ := h.reserve jobGrowth_safe junk
  refine .bind (yields_find _ _) fun o _ => ?_
  cases o with
  | some i => exact .ok hr
  | none => exact .bind (yields_push hr hlt) fun t ht => .ok ht

theorem yields_removeJob {jobName : CStr} (h : JobsTracked jobs) :
    Yields JobsTracked (Bounds.removeJob jobs jobName) := by
  refine .ite (fun _ => .ok h) fun _ => .bind (yields_find _ _) fun o ho => ?_
  cases o with
  | none => exact .ok h
  | some i =>
    obtain ⟨hi, hslot⟩ := ho i rfl
    obtain ⟨hle, hpos, hslots⟩ := h
    refine .bind (yields_removeAt hi hslot) fun t ht => ?_
    obtain ⟨hcount, hcap, hslots', -⟩ := ht
    refine .ite (fun hzero => .ok ⟨?_, ?_, .inl ⟨rfl, hzero⟩⟩) fun _ => .ok ⟨?_, ?_, .inr ?_⟩
    · exact hzero ▸ Nat.zero_le _
    · exact hcap ▸ hpos
    · omega
    · omega
    · omega

end kept

/-! ## Along a run -/

section run

variable {junk : Junk} {s s' : Arrays} {a : ArrayOp × Junk}

theorem ArrayOp.inBounds_iff (h : Tracked s) : ArrayOp.InBounds s a ↔ a.1.Fits s := by
  obtain ⟨op, junk⟩ := a
  cases op with
  | load newService => exact (stays_map _ _).trans (stays_loadProject h.services)
  | add githubRepo nickName cloned => exact (stays_map _ _).trans (stays_addProject h.services)
  | remove serviceName deleted =>
    exact (stays_map _ _).trans (stays_normalDeleteServices h.services)
  | rename serviceName newName renamed =>
    exact (stays_map _ _).trans (stays_renameService h.services)
  | max n granted => exact (stays_map _ _).trans (iff_of_true (stays_max n granted) trivial)
  | loadJob newJob => exact (stays_map _ _).trans (stays_loadJob h.jobs)
  | createJob jobName runnableFile secondsInterval now =>
    exact (stays_map _ _).trans (stays_createJob h.jobs)
  | removeJob jobName => exact (stays_map _ _).trans (iff_of_true (stays_removeJob h.jobs) trivial)

/-- Where the capacity is really allocated, every operation fits. -/
theorem ArrayOp.fits_of_allocated (h : Tracked s)
    (hservices : s.services.capacity ≤ s.services.slots)
    (hjobs : s.jobs.capacity ≤ s.jobs.slots) (op : ArrayOp) : op.Fits s := by
  have hle := h.services.le_capacity
  have hpos := h.jobs.capacity_pos
  have hroom (newService : Service) : HasRoom newService s.services :=
    ⟨.inl (by omega), .inr (by omega)⟩
  cases op with
  | load newService => exact hroom _
  | add => exact hroom _
  | remove => exact .inl (by omega)
  | rename => exact .inl (by omega)
  | max | removeJob => exact trivial
  | loadJob | createJob =>
    change 0 < s.jobs.slots
    omega

theorem Tracked.exec (h : Tracked s) (op : ArrayOp) (junk : Junk) :
    Yields Tracked (op.exec junk s) := by
  cases op with
  | load newService => exact .map (yields_insert h.services) fun _ hr => ⟨hr, h.jobs⟩
  | add githubRepo nickName cloned =>
    exact .map (yields_addProject h.services) fun _ hr => ⟨hr, h.jobs⟩
  | remove serviceName deleted =>
    exact .map (yields_normalDeleteServices h.services) fun _ ht => ⟨ht, h.jobs⟩
  | rename serviceName newName renamed =>
    exact .map (yields_renameService h.services) fun _ ht => ⟨ht, h.jobs⟩
  | max n granted => exact .map (yields_max h.services) fun _ ht => ⟨ht, h.jobs⟩
  | loadJob newJob => exact .map (yields_loadJob h.jobs) fun _ hr => ⟨h.services, hr⟩
  | createJob jobName runnableFile secondsInterval now =>
    exact .map (yields_createJob h.jobs) fun _ hr => ⟨h.services, hr⟩
  | removeJob jobName => exact .map (yields_removeJob h.jobs) fun _ ht => ⟨h.services, ht⟩

theorem Tracked.step (h : Tracked s) (hstep : ArrayOp.step a s = some s') : Tracked s' := by
  rw [ArrayOp.step] at hstep
  split at hstep
  · rename_i hexec
    cases hstep
    exact h.exec _ _ _ hexec
  · cases hstep

theorem tracked_start (junk : Junk) : Tracked (.start junk) where
  services := ⟨Nat.zero_le _, nofun⟩
  jobs := ⟨Nat.zero_le _, Nat.succ_pos 3, .inr (by simp [Arrays.start, Cells.slots])⟩

end run

/-- **No operation leaves the arrays**, in any run from the constructor on, if and only if
each finds the slots it needs. -/
theorem arrays_inBounds_iff (junk : Junk) (ops : List (ArrayOp × Junk)) :
    Guarded ArrayOp.step ArrayOp.InBounds ops (.start junk) ↔
      Guarded ArrayOp.step (fun s a => a.1.Fits s) ops (.start junk) :=
  guarded_congr ArrayOp.inBounds_iff (fun h _ hstep => h.step hstep) ops (tracked_start junk)

/-- `mrn remove a add r b` with one service `a`: the append writes to NULL. -/
theorem not_arrays_inBounds : ¬Guarded ArrayOp.step ArrayOp.InBounds
    [(.load ⟨.ofBytes [115], .ofBytes [97], 0, true⟩, .blank),
      (.remove (.ofBytes [97]) true, .blank),
      (.add (.ofBytes [114]) (.ofBytes [98]) .done, .blank)] (.start .blank) := by
  rintro ⟨-, h⟩
  obtain ⟨-, h⟩ := h _ rfl
  exact (h _ rfl).1

/-! ## The same operations on tables -/

section agrees

variable {services : Cells Service} {t : Table Service} {jobs : Cells Job} {u : Table Job}

theorem loadProject_agrees (h : services.Shows t) (junk : Nat → Service)
    (githubRepo nickName : CStr) (pid : BitVec 32) :
    Agrees (fun a b => a.1 = b.1 ∧ a.2.Shows b.2)
      (loadProject junk services ⟨githubRepo, nickName, pid, true⟩)
      (MiniRunner.loadProject githubRepo nickName pid t) :=
  h.insert serviceGrowth _ junk _

theorem createJob_agrees (h : jobs.Shows u) (junk : Nat → Job) (jobName runnableFile : CStr)
    (secondsInterval now : BitVec 64) :
    Agrees (fun a b => a.1 = b.1 ∧ a.2.Shows b.2)
      (Bounds.createJob junk jobs jobName runnableFile secondsInterval now)
      (MiniRunner.createJob jobName runnableFile secondsInterval now u) :=
  h.insert createJobGrowth _ junk _

theorem lookup_cases {α : Type} {t : Cells α} {u : Table α} (h : t.Shows u) (p : α → Bool) :
    (t.find p = .ok none ∧ u.items.find? p = none) ∨
      ∃ i x, t.find p = .ok (some i) ∧ u.items.findIdx? p = some i ∧ u.items.find? p = some x := by
  rw [h.find]
  cases hx : u.items.find? p with
  | none =>
    refine .inl ⟨?_, rfl⟩
    rw [List.findIdx?_eq_none_iff.mpr fun x hmem => by simpa using List.find?_eq_none.mp hx x hmem]
  | some x =>
    obtain ⟨i, hi, -⟩ := Table.exists_findIdx? hx
    exact .inr ⟨i, x, by rw [hi], hi, rfl⟩

theorem normalDeleteServices_agrees (h : services.Shows t) (serviceName : CStr) :
    Agrees (fun a b => a.Shows b.2) (normalDeleteServices services serviceName true)
      (dropService serviceName t) := by
  rw [normalDeleteServices, dropService]
  rcases lookup_cases h (·.name == serviceName) with ⟨hfind, hnone⟩ | ⟨i, x, hfind, hi, hx⟩
  · rw [hfind, Table.removeFirst_eq_none.mpr (by simpa using hnone)]
    split <;> exact h
  · obtain ⟨r, hr, hcount, hshows⟩ := h.removeAt hi
    rw [h.isNone_eq_false hi, hfind, Table.removeFirst_of_some hx]
    simp only [Bool.false_eq_true, if_false, bind, Except.bind, Bool.true_eq_false, hr]
    by_cases hzero : r.count = 0
    · have hempty := hshows.isEmpty_iff.mp hzero
      simp only at hempty
      simp only [hzero, hempty, if_true, List.isEmpty_nil]
      exact Shows.free hzero _
    · have hempty : (t.items.eraseP (·.name == serviceName)).isEmpty = false := by
        simpa using mt hshows.isEmpty_iff.mpr hzero
      simp only [hzero, hempty, if_false, Bool.false_eq_true]
      exact hshows

theorem removeJob_agrees (h : jobs.Shows u) (jobName : CStr) :
    Agrees Shows (Bounds.removeJob jobs jobName) (.ok (MiniRunner.removeJob jobName u).2) := by
  rw [Bounds.removeJob, MiniRunner.removeJob]
  rcases lookup_cases h (·.name == jobName) with ⟨hfind, hnone⟩ | ⟨i, x, hfind, hi, hx⟩
  · rw [hfind, Table.removeFirst_eq_none.mpr (by simpa using hnone)]
    split <;> split <;> exact h
  · obtain ⟨r, hr, hcount, hshows⟩ := h.removeAt hi
    have hitems : u.items.length ≠ 0 := by
      obtain ⟨hlt, -⟩ := List.findIdx?_eq_some_iff_getElem.mp hi
      omega
    have hfreed := hshows.freeEmpty
    rw [h.isNone_eq_false hi, hfind, Table.removeFirst_of_some hx]
    simp only [Bool.false_eq_true, false_and, hitems, and_false, if_false, bind, Except.bind, hr]
    split at hfreed
    · rename_i hzero
      rw [if_pos hzero]
      exact hfreed
    · rename_i hzero
      rw [if_neg hzero]
      exact hfreed

theorem renameService_agrees (h : services.Shows t) (serviceName newName : CStr) :
    Agrees Shows (renameService services serviceName newName true)
      (.ok (t.mapItems (Table.updateFirst (·.name == serviceName)
        fun s => { s with name := newName }) (Table.length_updateFirst _ _ _))) := by
  rw [renameService]
  rcases lookup_cases h (·.name == serviceName) with ⟨hfind, hnone⟩ | ⟨i, x, hfind, hi, hx⟩
  · have hsame : Table.updateFirst (·.name == serviceName)
        (fun s : Service => { s with name := newName }) t.items = t.items :=
      Table.updateFirst_of_forall_not (by simpa using hnone)
    have hshows : services.Shows (t.mapItems (Table.updateFirst (·.name == serviceName)
        fun s => { s with name := newName }) (Table.length_updateFirst _ _ _)) :=
      ⟨h.items.trans hsame.symm, h.count.trans (Table.length_updateFirst _ _ _).symm, h.capacity,
        h.slots⟩
    rw [hfind]
    split <;> exact hshows
  · obtain ⟨s, hread, r, hwrite, hshows⟩ := h.update hi fun s => { s with name := newName }
    rw [h.isNone_eq_false hi, hfind]
    simp only [Bool.false_eq_true, if_false, bind, Except.bind, Bool.true_eq_false, hread, hwrite]
    exact hshows

theorem loadJob_agrees (h : jobs.Shows u) (hu : u.items.length ≤ u.capacity) (junk : Nat → Job)
    (newJob : Job) : Agrees (fun a b => a.1 = b.1 ∧ a.2.Shows b.2)
      (Bounds.loadJob junk jobs newJob) (MiniRunner.loadJob newJob u) := by
  obtain ⟨u', hu', hr⟩ := h.reserve (g := jobGrowth) junk fun _ => by
    simp only [jobGrowth]
    omega
  rw [Bounds.loadJob, MiniRunner.loadJob, hu']
  rcases lookup_cases hr (jobClash · newJob) with ⟨hfind, hnone⟩ | ⟨i, x, hfind, hi, hx⟩
  · have hany : u'.items.any (jobClash · newJob) = false := by simpa using hnone
    have hpush := hr.push newJob
    rw [hfind]
    simp only [bind, Except.bind, hany, Bool.false_eq_true, if_false]
    cases ht : (jobs.reserve jobGrowth junk).push newJob <;> cases hv : u'.push newJob <;>
      rw [ht, hv] at hpush
    · exact hpush
    · exact hpush.elim
    · exact hpush.elim
    · exact ⟨rfl, hpush⟩
  · have hany : u'.items.any (jobClash · newJob) = true :=
      List.any_eq_true.mpr ⟨x, List.mem_of_find?_eq_some hx,
        List.find?_some (p := (jobClash · newJob)) hx⟩
    rw [hfind]
    simp only [bind, Except.bind, hany, if_true]
    exact ⟨rfl, hr⟩

end agrees

end Bounds

end MiniRunner
