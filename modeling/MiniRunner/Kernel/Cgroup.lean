import MiniRunner.Store.Limits

/-!
# Service folders and cgroups

The part of the system that `rename_service.c`, `stop_service.c` and `res_man` work on:
the folders under `/var/lib` and the cgroup directories with their control files. Version
2 has one directory for a service, version 1 has one under `cpu` and one under `memory`.

A call succeeds when it is possible and `faults` does not make it fail; a call that fails
changes nothing. The functions of the program are sequences of such calls that return at
the first failure, which leaves what the calls before it have done.
-/

namespace MiniRunner

open Clib

/-- The directory that the cgroups of services lie in; `unified` is version 2. -/
inductive Controller where
  | unified | cpu | memory
  deriving DecidableEq, Repr

inductive ControlFile where
  | cpuMax | memoryMax | cpuCfsQuotaUs | cpuCfsPeriodUs | memoryLimitInBytes
  deriving DecidableEq, Repr

def ControlFile.controller : ControlFile → Controller
  | cpuMax | memoryMax => .unified
  | cpuCfsQuotaUs | cpuCfsPeriodUs => .cpu
  | memoryLimitInBytes => .memory

/-- A cgroup directory: its processes, and what was last written to a control file, if
anything was. -/
structure Cgroup where
  procs : List (BitVec 32)
  written : ControlFile → Option Bytes

inductive KernelCall where
  | renameFolder (beforeName newName : CStr)
  | mkdirRoot (c : Controller)
  | mkdir (c : Controller) (name : CStr)
  | writeProcs (c : Controller) (name : CStr)
  | fileCopy (f : ControlFile) (oldName newName : CStr)
  | write (f : ControlFile) (name : CStr)
  | rmdir (c : Controller) (name : CStr)
  deriving DecidableEq

structure Kernel where
  /-- `/sys/fs/cgroup/cgroup.controllers` exists. -/
  unified : Bool
  /-- `/sys/fs/cgroup/cpu` and `/sys/fs/cgroup/memory`. -/
  roots : Controller → Bool
  cgroups : Controller → CStr → Option Cgroup
  /-- The text of a control file nothing was written to. -/
  initial : ControlFile → Bytes
  /-- A service folder, as the names of what is in it. -/
  folders : CStr → Option (List CStr)
  /-- The process id of the program. -/
  self : BitVec 32
  faults : KernelCall → Bool

namespace Kernel

/-! ## Calls -/

/-- A call that succeeds when it is possible and does not fail for another reason. -/
def attempt (c : KernelCall) (possible : Kernel → Bool) (f : Kernel → Kernel) : Exec Kernel Int :=
  fun k => if k.faults c || !possible k then .ok (-1) k else .ok 0 (f k)

/-- Whether `rename` can replace the target: it is missing, empty or the source itself. -/
def canRename (beforeName newName : CStr) (k : Kernel) : Bool :=
  (k.folders beforeName).isSome &&
    (beforeName == newName || ((k.folders newName).getD []).isEmpty)

def renameServiceProjectFoler (beforeName newName : CStr) : Exec Kernel Int :=
  attempt (.renameFolder beforeName newName) (canRename beforeName newName) fun k =>
    if beforeName = newName then k
    else { k with
      folders := Function.update (Function.update k.folders newName (k.folders beforeName))
        beforeName none }

def setCgroup (c : Controller) (name : CStr) (g : Option Cgroup) (k : Kernel) : Kernel :=
  { k with cgroups := Function.update k.cgroups c (Function.update (k.cgroups c) name g) }

def mkdirRoot (c : Controller) : Exec Kernel Int :=
  attempt (.mkdirRoot c) (fun _ => true) fun k =>
    { k with roots := Function.update k.roots c true }

def mkdir (c : Controller) (name : CStr) : Exec Kernel Int :=
  attempt (.mkdir c name) (fun k => (k.cgroups c name).isNone)
    (setCgroup c name (some ⟨[], fun _ => none⟩))

/-- The process that a pid stands for when it is written: 0 is the writer. -/
def procOf (pid : BitVec 32) (k : Kernel) : BitVec 32 := if pid = 0 then k.self else pid

def move (c : Controller) (name : CStr) (pid : BitVec 32) (k : Kernel) : Kernel :=
  { k with cgroups := Function.update k.cgroups c fun n =>
      (k.cgroups c n).map fun g =>
        { g with procs := if n = name then k.procOf pid :: g.procs.erase (k.procOf pid)
            else g.procs.erase (k.procOf pid) } }

/-- Write a pid to the `cgroup.procs` of a cgroup. -/
def writeProcs (c : Controller) (name : CStr) (pid : BitVec 32) : Exec Kernel Int :=
  attempt (.writeProcs c name) (fun k => (k.cgroups c name).isSome) (move c name pid)

def text (f : ControlFile) (g : Cgroup) (k : Kernel) : Bytes := (g.written f).getD (k.initial f)

def putText (f : ControlFile) (name : CStr) (bs : Bytes) (k : Kernel) : Kernel :=
  setCgroup f.controller name ((k.cgroups f.controller name).map fun g =>
    { g with written := Function.update g.written f (some bs) }) k

def write (f : ControlFile) (name : CStr) (bs : Bytes) : Exec Kernel Int :=
  attempt (.write f name) (fun k => (k.cgroups f.controller name).isSome) (putText f name bs)

/-- `fileCopy` from one cgroup to another; a control file is shorter than the buffer. -/
def fileCopy (f : ControlFile) (oldName newName : CStr) : Exec Kernel Int :=
  attempt (.fileCopy f oldName newName)
    (fun k => (k.cgroups f.controller oldName).isSome && (k.cgroups f.controller newName).isSome)
    fun k => putText f newName
      ((k.cgroups f.controller oldName).elim [] fun g => k.text f g) k

/-- A cgroup with processes in it is busy. -/
def rmdir (c : Controller) (name : CStr) : Exec Kernel Int :=
  attempt (.rmdir c name) (fun k => (k.cgroups c name).any fun g => g.procs.isEmpty)
    (setCgroup c name none)

/-! ## Functions -/

/-- `deleteDirectory`, whose sixty attempts are one. -/
def deleteDirectory (c : Controller) (name : CStr) : Exec Kernel Int := do
  let k ← get
  if (k.cgroups c name).isNone then pure 0 else rmdir c name

/-- A directory that is made when it is missing. -/
def ensureRoot (c : Controller) : Exec Kernel Int := do
  let k ← get
  if k.roots c then pure 0 else mkdirRoot c

def ensureDirectory (c : Controller) (name : CStr) : Exec Kernel Int := do
  let k ← get
  if (k.cgroups c name).isSome then pure 0 else mkdir c name

/-- `basic_v2_setup`; the root is there, since `cgroup.controllers` was found in it. -/
def basicV2Setup (serviceName : CStr) : Exec Kernel Int := ensureDirectory .unified serviceName

def basicV1Setup (serviceName : CStr) : Exec Kernel Int := do
  if (← ensureRoot .cpu) ≠ 0 then pure (-1)
  else if (← ensureRoot .memory) ≠ 0 then pure (-1)
  else if (← ensureDirectory .cpu serviceName) ≠ 0 then pure (-1)
  else ensureDirectory .memory serviceName

def createProcess (serviceName : CStr) (servicePid : BitVec 32) : Exec Kernel Int :=
  writeProcs .unified serviceName servicePid

def createProcessV1 (serviceName : CStr) (servicePid : BitVec 32) : Exec Kernel Int :=
  writeProcs .cpu serviceName servicePid

/-! ## Renaming -/

/-- The version 2 half of `renameCgrp` once both directories are there. -/
def moveCgrpV2 (serviceName newName : CStr) (pid : BitVec 32) : Exec Kernel Int := do
  if (← writeProcs .unified newName pid) ≠ 0 then pure (-1)
  else if (← fileCopy .cpuMax serviceName newName) ≠ 0 then pure (-1)
  else if (← fileCopy .memoryMax serviceName newName) ≠ 0 then pure (-1)
  else if (← deleteDirectory .unified serviceName) ≠ 0 then pure (-1)
  else pure 0

/-- The version 2 half of `renameCgrp`. -/
def renameCgrpV2 (serviceName newName : CStr) (pid : BitVec 32) : Exec Kernel Int := do
  let k ← get
  if (k.cgroups .unified serviceName).isNone then pure 0
  else if (← basicV2Setup newName) ≠ 0 then pure (-1)
  else moveCgrpV2 serviceName newName pid

/-- The version 1 half of `renameCgrp`. The path of the `memory.max` to copy is cut off behind
the name of the service: `access` sees the directory, and `fileCopy` cannot open one for
writing. What comes after the copy is never reached. -/
def renameCgrpV1 (serviceName newName : CStr) (pid : BitVec 32) : Exec Kernel Int := do
  let k ← get
  if (k.cgroups .cpu serviceName).isNone then pure 0
  else if (← basicV1Setup newName) ≠ 0 then pure (-1)
  else if (← createProcessV1 newName pid) ≠ 0 then pure (-1)
  else
    let k ← get
    if (k.cgroups .memory serviceName).isNone then pure 0 else pure (-1)

def renameCgrp (serviceName newName : CStr) (pid : BitVec 32) : Exec Kernel Int := do
  let k ← get
  if k.unified then renameCgrpV2 serviceName newName pid
  else renameCgrpV1 serviceName newName pid

/-! ## Limiting -/

/-- The number of cores times 100000, as one number for the file and for the table. -/
def quotaText (quota : BitVec 64) : Bytes := fmtNat quota.toNat

/-- ` 100000`. -/
def periodText : Bytes := [32, 49, 48, 48, 48, 48, 48]

/-- The number of bytes as each width prints it: `%i`, `%li` and `uint128_to_chars`. -/
def amountText : Amount → Bytes
  | .standard bytes => fmtInt bytes.toInt
  | .custom bytes => fmtInt bytes.toInt
  | .extreme bytes => uint128ToChars bytes

/-- `memoryLimit`, `memoryLimit_F_LRG` and `memoryLimit_F_EXTR`. -/
def memoryLimit (serviceName : CStr) (memBytes : Amount) : Exec Kernel Int :=
  write .memoryMax serviceName (amountText memBytes)

/-- `limitMemory_v1`, `limitMemory_v1_F_LRG` and `limitMemory_v1_F_EXTR`. -/
def limitMemoryV1 (serviceName : CStr) (servicePid : BitVec 32) (memBytes : Amount) :
    Exec Kernel Int := do
  if (← writeProcs .memory serviceName servicePid) ≠ 0 then pure (-1)
  else write .memoryLimitInBytes serviceName (amountText memBytes)

/-- `limitCpuAndMemory`, `limitCpuAndMemory_F_LRG` and `limitCpuAndMemory_F_EXTR`. -/
def limitCpuAndMemory (serviceName : CStr) (servicePid : BitVec 32) (cpuLimit : BitVec 64)
    (limitMemory : Bool) (memBytes : Amount) : Exec Kernel Int := do
  let k ← get
  if k.unified then
    if (← basicV2Setup serviceName) ≠ 0 then pure (-1)
    else if (← createProcess serviceName servicePid) ≠ 0 then pure (-1)
    else if (← write .cpuMax serviceName (quotaText cpuLimit ++ periodText)) ≠ 0 then pure (-1)
    else if limitMemory = false then pure 0
    else memoryLimit serviceName memBytes
  else
    if (← basicV1Setup serviceName) ≠ 0 then pure (-1)
    else if (← createProcessV1 serviceName servicePid) ≠ 0 then pure (-1)
    else if (← write .cpuCfsQuotaUs serviceName (quotaText cpuLimit)) ≠ 0 then pure (-1)
    else if (← write .cpuCfsPeriodUs serviceName periodText.tail) ≠ 0 then pure (-1)
    else if limitMemory = false then pure 0
    else limitMemoryV1 serviceName servicePid memBytes

/-- `limitMm`, `limitMm_F_LRG` and `limitMm_F_EXTR`. -/
def limitMm (serviceName : CStr) (servicePid : BitVec 32) (memBytes : Amount) :
    Exec Kernel Int := do
  let k ← get
  if k.unified then
    if (← basicV2Setup serviceName) ≠ 0 then pure (-1)
    else if (← createProcess serviceName servicePid) ≠ 0 then pure (-1)
    else memoryLimit serviceName memBytes
  else
    if (← basicV1Setup serviceName) ≠ 0 then pure (-1)
    else if (← createProcessV1 serviceName servicePid) ≠ 0 then pure (-1)
    else limitMemoryV1 serviceName servicePid memBytes

/-! ## As calls of the program -/

/-- A function of the kernel state as a call; these functions always return. -/
def asCall (x : Exec Kernel Int) (k : Kernel) : Int × Kernel :=
  match x.run k with
  | .ok rc k => (rc, k)
  | .error _ k => (-1, k)

/-- The calls that these functions make; the others are as in `base`. -/
def calls (base : Calls Kernel) : Calls Kernel :=
  { base with
    renameFolder := fun beforeName newName => asCall (renameServiceProjectFoler beforeName newName)
    renameCgrp := fun serviceName newName pid => asCall (renameCgrp serviceName newName pid)
    limitCpuAndMemory := fun serviceName pid cpuLimit limitMemory memBytes =>
      asCall (limitCpuAndMemory serviceName pid cpuLimit limitMemory memBytes)
    limitMm := fun serviceName pid memBytes => asCall (limitMm serviceName pid memBytes) }

/-! ## What the calls do -/

section rules

variable {k : Kernel} {Q : Int → Kernel → Prop} {E : Halt → Kernel → Prop}

theorem wp_attempt {c : KernelCall} {possible : Kernel → Bool} {f : Kernel → Kernel} :
    Exec.wp (attempt c possible f) Q E k ↔
      if k.faults c = true ∨ possible k = false then Q (-1) k else Q 0 (f k) := by
  unfold Exec.wp EStateM.run attempt
  by_cases h : (k.faults c || !possible k) = true
  · rw [if_pos h, if_pos (by simpa using h)]
  · rw [if_neg h, if_neg (by simpa using h)]

theorem wp_attempt_then {c : KernelCall} {possible : Kernel → Bool} {f : Kernel → Kernel}
    {rest : Exec Kernel Int} :
    Exec.wp (attempt c possible f >>= fun rc => if rc ≠ 0 then pure (-1) else rest) Q E k ↔
      if k.faults c = true ∨ possible k = false then Q (-1) k else Exec.wp rest Q E (f k) := by
  rw [Exec.wp_bind, wp_attempt]
  split
  · exact Exec.wp_pure _
  · exact Iff.rfl

theorem asCall_attempt (c : KernelCall) (possible : Kernel → Bool) (f : Kernel → Kernel) :
    asCall (attempt c possible f) k =
      if k.faults c = true ∨ possible k = false then (-1, k) else (0, f k) := by
  unfold asCall EStateM.run attempt
  by_cases h : (k.faults c || !possible k) = true
  · rw [if_pos h, if_pos (by simpa using h)]
  · rw [if_neg h, if_neg (by simpa using h)]

theorem wp_ensureDirectory {c : Controller} {name : CStr} :
    Exec.wp (ensureDirectory c name) Q E k ↔
      if (k.cgroups c name).isSome then Q 0 k
      else if k.faults (.mkdir c name) = true then Q (-1) k
      else Q 0 (setCgroup c name (some ⟨[], fun _ => none⟩) k) := by
  simp only [ensureDirectory, Exec.wp_bind, Exec.wp_get]
  split
  · exact Exec.wp_pure _
  · rename_i hnone
    simp only [mkdir, wp_attempt, show (k.cgroups c name).isNone = true by simpa using hnone,
      Bool.true_eq_false, or_false]

theorem wp_ensureRoot {c : Controller} :
    Exec.wp (ensureRoot c) Q E k ↔
      if k.roots c then Q 0 k
      else if k.faults (.mkdirRoot c) = true then Q (-1) k
      else Q 0 { k with roots := Function.update k.roots c true } := by
  simp only [ensureRoot, Exec.wp_bind, Exec.wp_get]
  split
  · exact Exec.wp_pure _
  · simp only [mkdirRoot, wp_attempt, Bool.true_eq_false, or_false]

theorem asCall_of_wp {x : Exec Kernel Int} (h : Exec.wp x Q (fun _ _ => False) k) :
    Q (asCall x k).1 (asCall x k).2 := by
  unfold asCall
  cases hrun : x.run k with
  | ok rc k' => exact Exec.wp_run_ok h hrun
  | error e k' => exact (Exec.wp_run_error h hrun).elim

end rules

/-! ## Processes in a cgroup -/

/-- The processes of a cgroup, if it is there. -/
def procsOf (c : Controller) (name : CStr) (k : Kernel) : Option (List (BitVec 32)) :=
  (k.cgroups c name).map (·.procs)

section procs

variable (k : Kernel) (c c' : Controller) (n name : CStr)

theorem isSome_procsOf : (k.procsOf c n).isSome = (k.cgroups c n).isSome := Option.isSome_map

theorem procsOf_setCgroup (g : Option Cgroup) :
    (setCgroup c name g k).procsOf c' n =
      if c' = c ∧ n = name then g.map (·.procs) else k.procsOf c' n := by
  unfold procsOf setCgroup
  by_cases hc : c' = c
  · subst hc
    by_cases hn : n = name <;> simp [hn]
  · simp [hc]

@[simp] theorem procsOf_putText (f : ControlFile) (bs : Bytes) :
    (putText f name bs k).procsOf c n = k.procsOf c n := by
  unfold putText
  rw [procsOf_setCgroup]
  split
  · rename_i h
    rw [h.1, h.2, procsOf, Option.map_map]
    rfl
  · rfl

theorem procsOf_move (pid : BitVec 32) :
    (move c name pid k).procsOf c n = (k.procsOf c n).map fun procs =>
      if n = name then k.procOf pid :: procs.erase (k.procOf pid)
      else procs.erase (k.procOf pid) := by
  simp only [procsOf, move, Function.update_self, Option.map_map]
  rfl

theorem isSome_procsOf_move (pid : BitVec 32) :
    ((move c name pid k).procsOf c' n).isSome = (k.procsOf c' n).isSome := by
  by_cases hc : c' = c
  · rw [hc, procsOf_move, Option.isSome_map]
  · simp [procsOf, move, hc]

theorem wp_deleteDirectory {k : Kernel} {c : Controller} {name : CStr}
    {procs : List (BitVec 32)} (h : k.procsOf c name = some procs) {Q : Int → Kernel → Prop}
    {E : Halt → Kernel → Prop} :
    Exec.wp (deleteDirectory c name) Q E k ↔
      if k.faults (.rmdir c name) = true ∨ procs ≠ [] then Q (-1) k
      else Q 0 (setCgroup c name none k) := by
  obtain ⟨g, hg, rfl⟩ := Option.map_eq_some_iff.mp h
  simp only [deleteDirectory, Exec.wp_bind, Exec.wp_get, hg, Option.isNone_some,
    Bool.false_eq_true, if_false, rmdir, wp_attempt, Option.any_some, List.isEmpty_eq_false_iff]

end procs

/-! ## The text of a control file -/

/-- What a read of a control file of a cgroup gives, if the cgroup is there. -/
def textOf (c : Controller) (name : CStr) (f : ControlFile) (k : Kernel) : Option Bytes :=
  (k.cgroups c name).map (k.text f)

section texts

variable {k : Kernel} {c : Controller} {n name : CStr} {f g : ControlFile}

theorem textOf_move (c' : Controller) (pid : BitVec 32) :
    (move c' name pid k).textOf c n g = k.textOf c n g := by
  by_cases hc : c = c'
  · subst hc
    simp only [textOf, move, Function.update_self, Option.map_map]
    rfl
  · simp [textOf, move, hc, text]

/-- A text that is put into a control file is read from there. -/
theorem textOf_putText (bs : Bytes) :
    (putText f name bs k).textOf c n g =
      if c = f.controller ∧ n = name ∧ g = f then (k.textOf c n g).map fun _ => bs
      else k.textOf c n g := by
  by_cases hplace : c = f.controller ∧ n = name
  · obtain ⟨rfl, rfl⟩ := hplace
    simp only [textOf, putText, setCgroup, Function.update_self, Option.map_map, true_and]
    split
    · rename_i hg
      subst hg
      congr 1
      funext x
      simp [text]
    · rename_i hg
      congr 1
      funext x
      simp [text, Function.update_of_ne hg]
  · rw [if_neg fun h => hplace ⟨h.1, h.2.1⟩]
    unfold textOf putText setCgroup
    by_cases hc : c = f.controller
    · subst hc
      have hn : n ≠ name := fun h => hplace ⟨rfl, h⟩
      simp only [Function.update_self, Function.update_of_ne hn]
      rfl
    · simp only [Function.update_of_ne hc]
      rfl

end texts

end Kernel

end MiniRunner
