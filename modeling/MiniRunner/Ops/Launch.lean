import MiniRunner.Ops.Services

/-!
# Starting services and setting limits

`utils_ops/run_service.c`, `ops/restart_service.c` and the table side of `res_man`.
`runService` and `warmService` build the parameters of `runthread`, whose parent
side records the pid and frees the argument block; `warmService` never sets that
block. The six functions that set limits share one body.
-/

namespace MiniRunner

open Clib Process

variable {W : Type} (sys : Calls W)

/-- `run.sh`. -/
def defaultScript : CStr := ⟨[114, 117, 110, 46, 115, 104], by decide⟩

/-- `/var/lib/%s/%s`. -/
def scriptPath (name bash : CStr) : CStr :=
  (serviceRoot.append name).append ((⟨[47], by decide⟩ : CStr).append bash)

/-- The text `idle`. -/
def idleText : Bytes := [105, 100, 108, 101]

/-! ## Starting -/

def setPid (i : Nat) (pid : BitVec 32) : Exec (Process W) Unit := fun p =>
  .ok () { p with
    services := p.services.mapItems (·.modify i fun s => { s with pid := pid }) (by simp) }

/-- `atomic_exchange(&pidSet, 1)`. -/
def exchangePidSet : Exec (Process W) Unit := modify fun p => { p with pidSet := true }

/-- The parent side of `runthread`, and whether it records a pid. After an answer the
argument block is freed, whatever the field holds. -/
def runthread (params : Param) : Exec (Process W) Bool := do
  match ← call (sys.launch params) with
  | .noPipe => do
    exchangePidSet
    pure false
  | .noAnswer => throw .aborted
  | .answered pid => do
    setPid params.service pid
    exchangePidSet
    if params.args.isNone then throw .undefined else pure true

/-- How far the thread is when the start returns; a start that waits for it finds it through. -/
def lagOf (waits : Bool) : Exec (Process W) Lag :=
  if waits then pure .through else call sys.lag

/-- What the thread has done when the start returns, and whether it has recorded a pid. How a
late one goes on is not followed: it sets `pidSet` at some time, so no later start waits for
its own thread. -/
def threadSoFar (waits : Bool) (params : Param) : Exec (Process W) Bool := do
  match ← lagOf sys waits with
  | .through => runthread sys params
  | .forked => do
    let _ ← call (sys.launch params)
    exchangePidSet
    pure false
  | .waiting => do
    exchangePidSet
    pure false

/-- `backup` after the SIGINT: the pid is 0, unless the thread records it afterwards. -/
def backup (i : Nat) (recordedAfter : Bool) : Exec (Process W) Unit :=
  if recordedAfter then pure () else setPid i 0

/-- The thread of a start, from `pthread_create` on. Nothing resets `pidSet` and `running`:
only the first start of a process waits for its thread, and only the first attached one for
SIGINT. A failed `pthread_detach` returns before the wait. -/
def startThread (params : Param) : Exec (Process W) Int := do
  if (← call sys.createThread) ≠ 0 then pure (-1)
  else do
    let p ← get
    if params.attach then
      let recorded ← threadSoFar sys (!p.pidSet) params
      let last ← call (sys.interruptLast (!p.running))
      backup params.service (recorded && !last)
      modify fun p => { p with running := true }
      pure 0
    else if (← call sys.detachThread) ≠ 0 then
      let _ ← threadSoFar sys false params
      pure (-1)
    else
      let _ ← threadSoFar sys (!p.pidSet) params
      pure 0

/-- Whether an update is under way. An empty status file cannot be mapped, and the
failed mapping is read. -/
def updateAvialable : Exec (Process W) Bool := do
  onFiles (modify (·.openCreate (.file .updateStatus)))
  let p ← get
  let data := p.files.content (.file .updateStatus)
  if data = [] then throw .undefined else pure ((CStr.ofBytes data).bytes != idleText)

/-- The slot of the first service of a name. -/
def findSlot (name : CStr) : Exec (Process W) (Option Nat) := fun p =>
  .ok (p.services.items.findIdx? (·.name == name)) p

def runService (name : CStr) (bash : Option CStr) (attach : Bool) : Exec (Process W) Int := do
  let p ← get
  if p.services.isNull then pure (-1)
  else if name.bytes = [] then pure (-1)
  else if ← updateAvialable then pure (-1)
  else
    match ← findSlot name with
    | none => pure (-1)
    | some i =>
      let args ← Exec.ofExcept (getArgs name p.envs.items)
      startThread sys ⟨i, scriptPath name (bash.getD defaultScript), name, some args, attach⟩

/-- Unlike `runService`, the argument block is never set. -/
def warmService (i : Nat) (name : CStr) (bash : Option CStr) (attach : Bool) :
    Exec (Process W) Int := do
  if name.bytes = [] then pure (-1)
  else if ← updateAvialable then pure (-1)
  else startThread sys ⟨i, scriptPath name (bash.getD defaultScript), name, none, attach⟩

def restartService (serviceName : CStr) (bash : Option CStr) (attach : Bool) :
    Exec (Process W) Int := do
  match ← findSlot serviceName with
  | none => pure (-1)
  | some i =>
    let p ← get
    if (← killService sys ((p.services.items[i]?.map (·.pid)).getD 0)) ≠ 0 then pure (-1)
    else if (← warmService sys i serviceName (some (bash.getD defaultScript)) attach) ≠ 0 then
      pure (-1)
    else
      let p ← get
      let pid := (p.services.items[i]?.map (·.pid)).getD 0
      if (← call (sys.updateCgroup serviceName pid)) ≠ 0 then
        if (← killService sys pid) ≠ 0 then pure (-1) else pure (-1)
      else pure 0

/-! ## Limits -/

/-- The body of the six `set…Limit` functions: write the cgroup of a running
service, then record the limit. `missing` is the end of the function. -/
def limitService (serviceName : CStr) (write : BitVec 32 → W → Int × W) (cpu : BitVec 64)
    (memory : BitVec 128) (missing : Exec (Process W) Int) : Exec (Process W) Int := do
  match ← findService serviceName with
  | none => missing
  | some s =>
    if s.pid = 0 then pure 0
    else if (← call (write s.pid)) ≠ 0 then pure (-1)
    else if (← onLimits (createLimit serviceName cpu memory)) ≠ 0 then pure (-1)
    else pure 0

/-- An amount as the 128-bit number that is recorded; an `int` is sign-extended. -/
def Amount.recorded : Amount → BitVec 128
  | .standard bytes => bytes.signExtend 128
  | .custom bytes => bytes.setWidth 128
  | .extreme bytes => bytes

/-- `setCpuResourceLimit`, `setCpuResourceLimit_F_LRG` and `setCpuResourceLimit_F_EXTR`,
by the width of the amount. -/
def setCpuResourceLimit (serviceName : CStr) (cpuSeconds : BitVec 64) (limitMemory : Bool)
    (memBytes : Amount) : Exec (Process W) Int :=
  limitService serviceName
    (fun pid => sys.limitCpuAndMemory serviceName pid cpuSeconds limitMemory memBytes)
    cpuSeconds memBytes.recorded (pure (-1))

/-- `setMemoryLimit`, `setMemoryLimit_F_LRG` and `setMemoryLimit_F_EXTR`, by the width
of the amount. For a missing service they end without a return value. -/
def setMemoryLimit (serviceName : CStr) (memBytes : Amount) : Exec (Process W) Int :=
  limitService serviceName (fun pid => sys.limitMm serviceName pid memBytes)
    0 memBytes.recorded (throw .undefined)

/-! ## What starting does -/

section specs

variable {sys} {p : Process W}

/-- What a start never changes of a service. -/
def Service.identity (s : Service) : CStr × CStr × Bool := (s.githubRepo, s.name, s.cloned)

/-- **What a start leaves**: services with other pids, at most, and files of the same content. -/
structure Started (p p' : Process W) : Prop where
  services : p'.services.items.map Service.identity = p.services.items.map Service.identity
  files : ∀ q, p'.files.content q = p.files.content q
  others : p'.jobs = p.jobs ∧ p'.envs = p.envs ∧ p'.limits = p.limits ∧
    p'.reformatState = p.reformatState ∧ p'.reformatLimits = p.reformatLimits

theorem Started.refl (p : Process W) : Started p p := ⟨rfl, fun _ => rfl, rfl, rfl, rfl, rfl, rfl⟩

theorem Started.world (p : Process W) (w : W) : Started p { p with world := w } :=
  ⟨rfl, fun _ => rfl, rfl, rfl, rfl, rfl, rfl⟩

theorem Started.trans {p₁ p₂ p₃ : Process W} (h : Started p₁ p₂) (h' : Started p₂ p₃) :
    Started p₁ p₃ := by
  obtain ⟨hj, he, hl, hs, hr⟩ := h.others
  obtain ⟨hj', he', hl', hs', hr'⟩ := h'.others
  exact ⟨h'.services.trans h.services, fun q => (h'.files q).trans (h.files q), hj'.trans hj,
    he'.trans he, hl'.trans hl, hs'.trans hs, hr'.trans hr⟩

theorem map_identity_modify (l : List Service) (i : Nat) (pid : BitVec 32) :
    (l.modify i fun s => { s with pid := pid }).map Service.identity = l.map Service.identity := by
  induction l generalizing i with
  | nil => simp
  | cons s l ih => cases i <;> simp [Service.identity, ih]

theorem wp_setPid {i : Nat} {pid : BitVec 32} {Q : Unit → Process W → Prop}
    {E : Halt → Process W → Prop} (h : ∀ p', Started p p' → Q () p') :
    Exec.wp (setPid i pid) Q E p :=
  Exec.wp_total.mpr (h _ ⟨map_identity_modify .., fun _ => rfl, rfl, rfl, rfl, rfl, rfl⟩)

theorem Started.flags (p : Process W) (pidSet running : Bool) :
    Started p { p with pidSet := pidSet, running := running } :=
  ⟨rfl, fun _ => rfl, rfl, rfl, rfl, rfl, rfl⟩

section keeps

variable {I : Process W → Prop} {params : Param}

/-- A launch keeps `I`, and so does the record of the pid it answers. -/
def LaunchKeeps (sys : Calls W) (params : Param) (I : Process W → Prop) : Prop :=
  ∀ p, I p → I { p with world := (sys.launch params p.world).2 } ∧
    ∀ pid, (sys.launch params p.world).1 = .answered pid →
      Exec.Keeps I (setPid params.service pid)

theorem keeps_exchangePidSet (hflags : ∀ p a b, I p → I { p with pidSet := a, running := b }) :
    Exec.Keeps I exchangePidSet :=
  .modify fun p h => hflags p true p.running h

theorem keeps_runthread (hlaunch : LaunchKeeps sys params I)
    (hflags : ∀ p a b, I p → I { p with pidSet := a, running := b }) :
    Exec.Keeps I (runthread sys params) := fun p h => by
  obtain ⟨hworld, hrecord⟩ := hlaunch p h
  rw [runthread, Exec.wp_bind, wp_call]
  generalize sys.launch params p.world = answer at hworld hrecord
  obtain ⟨launch, w⟩ := answer
  cases launch with
  | noPipe => exact Exec.Keeps.bind (keeps_exchangePidSet hflags) (fun _ => .pure _) _ hworld
  | noAnswer => exact (Exec.wp_throw _).mpr hworld
  | answered pid =>
    exact Exec.Keeps.bind (hrecord pid rfl) (fun _ => .bind (keeps_exchangePidSet hflags)
      fun _ => .ite (fun _ => .throw _) fun _ => .pure _) _ hworld

theorem keeps_threadSoFar (hlag : Exec.Keeps I (call sys.lag))
    (hlaunch : LaunchKeeps sys params I)
    (hflags : ∀ p a b, I p → I { p with pidSet := a, running := b }) (waits : Bool) :
    Exec.Keeps I (threadSoFar sys waits params) := by
  have hlagOf : Exec.Keeps I (lagOf sys waits) := .ite (fun _ => .pure _) fun _ => hlag
  refine .bind hlagOf fun lag => ?_
  have hpidSet : Exec.Keeps I exchangePidSet := keeps_exchangePidSet hflags
  cases lag with
  | through => exact keeps_runthread hlaunch hflags
  | forked =>
    exact .bind (fun p h => wp_call.mpr (hlaunch p h).1) fun _ => .bind hpidSet fun _ => .pure _
  | waiting => exact .bind hpidSet fun _ => .pure _

/-- **A start keeps** what its calls, its records and its flags keep. -/
theorem keeps_startThread (hcreate : Exec.Keeps I (call sys.createThread))
    (hdetach : Exec.Keeps I (call sys.detachThread)) (hlag : Exec.Keeps I (call sys.lag))
    (hlast : ∀ pauses, Exec.Keeps I (call (sys.interruptLast pauses)))
    (hlaunch : LaunchKeeps sys params I) (hzero : Exec.Keeps I (setPid params.service 0))
    (hflags : ∀ p a b, I p → I { p with pidSet := a, running := b }) :
    Exec.Keeps I (startThread sys params) := by
  have hthread := keeps_threadSoFar hlag hlaunch hflags
  refine .bind hcreate fun _ => .ite (fun _ => .pure _) fun _ => .get_bind fun p _ =>
    .ite (fun _ => ?_) fun _ => ?_
  · exact .bind (hthread _) fun _ => .bind (hlast _) fun _ =>
      .bind (.ite (fun _ => .pure _) fun _ => hzero) fun _ =>
        .bind (.modify fun p h => hflags p p.pidSet true h) fun _ => .pure _
  · exact .bind hdetach fun _ => .ite (fun _ => .bind (hthread _) fun _ => .pure _)
      fun _ => .bind (hthread _) fun _ => .pure _

end keeps

theorem started_setPid {p₀ : Process W} (i : Nat) (pid : BitVec 32) :
    Exec.Keeps (Started p₀) (setPid i pid) := fun _ h => wp_setPid fun _ h' => h.trans h'

theorem started_startThread (sys : Calls W) (p₀ : Process W) (params : Param) :
    Exec.Keeps (Started p₀) (startThread sys params) := by
  have hcall {α : Type} (f : W → α × W) : Exec.Keeps (Started p₀) (call f) := fun p h =>
    wp_call.mpr (h.trans (.world p _))
  exact keeps_startThread (hcall _) (hcall _) (hcall _) (fun _ => hcall _)
    (fun p h => ⟨h.trans (.world p _), fun _ _ => started_setPid _ _⟩) (started_setPid _ 0)
    fun p a b h => h.trans (.flags p a b)

/-- How a start can fail to return: its child gives no answer, or the argument block that
nobody set is freed. -/
def StartHalts (params : Param) (e : Halt) : Prop :=
  e = .aborted ∨ e = .undefined ∧ params.args.isNone = true

theorem halts_threadSoFar (waits : Bool) (params : Param) :
    Exec.wp (threadSoFar sys waits params) (fun _ _ => True) (fun e _ => StartHalts params e)
      p := by
  have hrun (p : Process W) :
      Exec.wp (runthread sys params) (fun _ _ => True) (fun e _ => StartHalts params e) p := by
    rw [runthread, Exec.wp_bind, wp_call]
    cases (sys.launch params p.world).1 with
    | noPipe => exact Exec.wp_total.mpr trivial
    | noAnswer => exact (Exec.wp_throw _).mpr (.inl rfl)
    | answered pid =>
      simp only [Exec.wp_bind, Exec.wp_ite, exchangePidSet, Exec.wp_modify, Exec.wp_throw,
        Exec.wp_pure]
      exact wp_setPid fun _ _ => ⟨fun hnone => .inr ⟨rfl, hnone⟩, fun _ => trivial⟩
  simp only [threadSoFar, lagOf, Exec.wp_bind, Exec.wp_ite, Exec.wp_pure, wp_call]
  refine ⟨fun _ => hrun p, fun _ => ?_⟩
  cases (sys.lag p.world).1 with
  | through => exact hrun _
  | forked => exact Exec.wp_total.mpr trivial
  | waiting => exact Exec.wp_total.mpr trivial

theorem halts_startThread (params : Param) :
    Exec.wp (startThread sys params) (fun _ _ => True) (fun e _ => StartHalts params e) p := by
  simp only [startThread, backup, Exec.wp_bind, wp_call, Exec.wp_ite, Exec.wp_get, Exec.wp_pure,
    Exec.wp_modify]
  refine ⟨fun _ => trivial, fun _ => ⟨fun _ => ?_, fun _ => ⟨fun _ => ?_, fun _ => ?_⟩⟩⟩
  · refine Exec.wp_mono (halts_threadSoFar _ params) (fun recorded p' _ => ?_) fun _ _ h => h
    exact ⟨fun _ => trivial, fun _ => wp_setPid fun _ _ => trivial⟩
  · exact halts_threadSoFar false params
  · exact halts_threadSoFar _ params

theorem wp_startThread {params : Param} (hargs : params.args.isNone = false) :
    Exec.wp (startThread sys params) (fun _ p' => Started p p')
      (fun e p' => e = .aborted ∧ Started p p') p := by
  refine Exec.wp_mono (Exec.wp_and (started_startThread sys p params p (.refl p))
    (halts_startThread params)) (fun _ _ h => h.1) fun e p' h => ⟨?_, h.1⟩
  simpa [StartHalts, hargs] using h.2

/-- Whether the update status lets a service start. -/
def isIdle (data : Bytes) : Bool := (CStr.ofBytes data).bytes == idleText

/-- The process after a look at the update status. -/
def sawStatus (p : Process W) : Process W :=
  { p with files := p.files.openCreate (.file .updateStatus) }

theorem Started.sawStatus (p : Process W) : Started p (sawStatus p) :=
  ⟨rfl, fun _ => FileStore.content_openCreate .., rfl, rfl, rfl, rfl, rfl⟩

theorem wp_updateAvialable {Q : Bool → Process W → Prop} {E : Halt → Process W → Prop} :
    Exec.wp updateAvialable Q E p ↔
      if p.files.content (.file .updateStatus) = [] then E .undefined (MiniRunner.sawStatus p)
      else Q (!isIdle (p.files.content (.file .updateStatus))) (MiniRunner.sawStatus p) := by
  simp only [updateAvialable, Exec.wp_bind, wp_onFiles, Exec.wp_modify, Exec.wp_get,
    FileStore.content_openCreate]
  split
  · exact Exec.wp_throw _
  · exact Exec.wp_pure _

theorem findSlot_isSome (name : CStr) (l : List Service) :
    (l.findIdx? (·.name == name)).isSome = l.any (·.name == name) := by
  rw [List.findIdx?_isSome]

@[simp] theorem wp_findSlot {name : CStr} {Q : Option Nat → Process W → Prop}
    {E : Halt → Process W → Prop} :
    Exec.wp (findSlot name) Q E p ↔ Q (p.services.items.findIdx? (·.name == name)) p :=
  Exec.wp_total

/-- When `runService` runs into what the standard leaves undefined: the update status
is empty, or the argument block of the service it starts overflows. -/
def RunFaults (status : Bytes) (services : List Service) (envs : List Env) (name : CStr) : Prop :=
  status = [] ∨ isIdle status = true ∧ services.any (·.name == name) = true ∧
    argsOverflow (envs.countP (·.name == name)) = true

instance (status : Bytes) (services : List Service) (envs : List Env) (name : CStr) :
    Decidable (RunFaults status services envs name) :=
  inferInstanceAs (Decidable (_ ∨ _ ∧ _ ∧ _))

theorem wp_runService {name : CStr} {bash : Option CStr} {attach : Bool}
    (henvs : p.envs.items.length ≤ envLimit)
    (hok : ¬RunFaults (p.files.content (.file .updateStatus)) p.services.items p.envs.items name) :
    Exec.wp (runService sys name bash attach) (fun _ p' => Started p p')
      (fun e p' => e = .aborted ∧ Started p p') p := by
  obtain ⟨hstatus, hargs⟩ := not_or.mp hok
  simp only [runService, Exec.wp_bind, Exec.wp_get, Exec.wp_ite, Exec.wp_pure, wp_updateAvialable,
    if_neg hstatus]
  refine ⟨fun _ => .refl p, fun _ => ⟨fun _ => .refl p, fun _ => ⟨fun _ => .sawStatus p,
    fun hidle => ?_⟩⟩⟩
  simp only [wp_findSlot]
  have hcases := getArgs_cases name henvs
  cases hslot : (MiniRunner.sawStatus p).services.items.findIdx? (·.name == name) with
  | none => exact (Exec.wp_pure _).mpr (.sawStatus p)
  | some i =>
    have hfound : p.services.items.any (·.name == name) = true := by
      rw [← findSlot_isSome]
      exact Option.isSome_iff_exists.mpr ⟨i, hslot⟩
    have hover : ¬argsOverflow (p.envs.items.countP (·.name == name)) = true :=
      fun h => hargs ⟨by simpa using hidle, hfound, h⟩
    rw [if_neg hover] at hcases
    obtain ⟨args, hargs⟩ := hcases
    simp only [Exec.wp_bind, hargs, Exec.wp_ofExcept_ok]
    refine Exec.wp_mono (wp_startThread rfl) ?_ ?_
    · exact fun _ p' h => (Started.sawStatus p).trans h
    · exact fun e p' h => ⟨h.1, (Started.sawStatus p).trans h.2⟩

theorem wp_runService_undefined {name : CStr} {bash : Option CStr} {attach : Bool}
    (henvs : p.envs.items.length ≤ envLimit) (hnull : p.services.isNull = false)
    (hname : name.bytes ≠ [])
    (hfault : RunFaults (p.files.content (.file .updateStatus)) p.services.items p.envs.items name)
    {Q : Int → Process W → Prop} {E : Halt → Process W → Prop} (hE : ∀ p', E .undefined p') :
    Exec.wp (runService sys name bash attach) Q E p := by
  simp only [runService, Exec.wp_bind, Exec.wp_get, hnull, Bool.false_eq_true, if_false, hname,
    wp_updateAvialable]
  by_cases hstatus : p.files.content (.file .updateStatus) = []
  · rw [if_pos hstatus]
    exact hE _
  · obtain ⟨hidle, hfound, hover⟩ := hfault.resolve_left hstatus
    have hcases := getArgs_cases name henvs
    rw [if_pos hover] at hcases
    rw [← findSlot_isSome] at hfound
    obtain ⟨i, hslot⟩ := Option.isSome_iff_exists.mp hfound
    rw [if_neg hstatus, hidle]
    simp only [Bool.not_true, Bool.false_eq_true, if_false, Exec.wp_bind, wp_findSlot]
    rw [show (MiniRunner.sawStatus p).services.items.findIdx? (·.name == name) = some i from hslot]
    simp only [Exec.wp_bind, hcases, Exec.wp_ofExcept_error]
    exact hE _

/-- When `restartService` can: the service is there, and an empty update status is read
or the process is started without its argument block. -/
def RestartFaults (status : Bytes) (services : List Service) (name : CStr) : Prop :=
  services.any (·.name == name) = true ∧ name.bytes ≠ [] ∧ (status = [] ∨ isIdle status = true)

instance (status : Bytes) (services : List Service) (name : CStr) :
    Decidable (RestartFaults status services name) :=
  inferInstanceAs (Decidable (_ ∧ _ ∧ (_ ∨ _)))

theorem wp_restartService {name : CStr} {bash : Option CStr} {attach : Bool}
    (hok : ¬RestartFaults (p.files.content (.file .updateStatus)) p.services.items name) :
    Exec.wp (restartService sys name bash attach) (fun _ p' => Started p p') (fun _ _ => False)
      p := by
  simp only [restartService, Exec.wp_bind, wp_findSlot]
  cases hslot : p.services.items.findIdx? (·.name == name) with
  | none => exact (Exec.wp_pure _).mpr (.refl p)
  | some i =>
    have hfound : p.services.items.any (·.name == name) = true := by
      rw [← findSlot_isSome, hslot]
      rfl
    simp only [Exec.wp_bind, Exec.wp_get]
    refine wp_killService fun rc w => ?_
    simp only [warmService, Exec.wp_ite, Exec.wp_pure, Exec.wp_bind, wp_updateAvialable]
    refine ⟨fun _ => .world p w, fun _ => ⟨fun _ => ⟨fun _ => .world p w, fun h => ?_⟩,
      fun hname => ?_⟩⟩
    · exact absurd (by decide) h
    · obtain ⟨hstatus, hidle⟩ := not_or.mp fun h => hok ⟨hfound, hname, h⟩
      rw [if_neg hstatus]
      refine ⟨fun _ => ⟨fun _ => ?_, fun h => absurd (by decide) h⟩, fun h => ?_⟩
      · exact (Started.world p w).trans (.sawStatus _)
      · simp only [Bool.not_eq_true] at hidle
        simp [hidle] at h

theorem wp_killService_quiet (hkill : ∀ sig pid w, sys.kill sig pid w = (0, w)) {pid : BitVec 32}
    {Q : Int → Process W → Prop} {E : Halt → Process W → Prop} :
    Exec.wp (killService sys pid) Q E p ↔ Q 0 p := by
  simp only [killService, killProcess, hkill, Exec.wp_ite, Exec.wp_bind, wp_call, Exec.wp_pure,
    ne_eq, not_true_eq_false, false_implies, not_false_eq_true, true_implies, true_and]
  exact ⟨fun h => by_cases h.1 h.2, fun h => ⟨fun _ => h, fun _ => h⟩⟩

/-- Where the calls work, the thread comes to the argument block that nobody set before the
start returns, whether it waits or not. -/
theorem wp_startThread_undefined {params : Param} {pid : BitVec 32}
    (hargs : params.args.isNone = true) (hcreate : ∀ w, sys.createThread w = (0, w))
    (hdetach : ∀ w, sys.detachThread w = (0, w)) (hlag : ∀ w, sys.lag w = (.through, w))
    (hlaunch : (sys.launch params p.world).1 = .answered pid) {Q : Int → Process W → Prop}
    {E : Halt → Process W → Prop}
    (hE : ∀ p', p'.world = (sys.launch params p.world).2 → E .undefined p') :
    Exec.wp (startThread sys params) Q E p := by
  have hrun {Q : Bool → Process W → Prop} : Exec.wp (runthread sys params) Q E p := by
    simp only [runthread, exchangePidSet, Exec.wp_bind, wp_call, hlaunch, Exec.wp_modify, hargs,
      if_true]
    exact Exec.wp_total.mpr ((Exec.wp_throw _).mpr (hE _ rfl))
  have hthread (waits : Bool) {Q : Bool → Process W → Prop} :
      Exec.wp (threadSoFar sys waits params) Q E p := by
    cases waits <;>
      simp only [threadSoFar, lagOf, Bool.false_eq_true, if_false, if_true, Exec.wp_bind,
        Exec.wp_pure, wp_call, hlag]
    all_goals exact hrun
  simp only [startThread, Exec.wp_bind, wp_call, hcreate, ne_eq, not_true_eq_false, if_false,
    Exec.wp_get, Exec.wp_ite, hdetach, false_implies, not_false_eq_true, true_implies, true_and]
  exact ⟨fun _ => hthread _, fun _ => hthread _⟩

/-- A world in which every call works is enough for the fault. -/
theorem wp_restartService_undefined {name : CStr} {bash : Option CStr} {attach : Bool}
    {p : Process Unit}
    (hfault : RestartFaults (p.files.content (.file .updateStatus)) p.services.items name)
    {k : BitVec 32}
    {Q : Int → Process Unit → Prop} {E : Halt → Process Unit → Prop}
    (hE : ∀ p', E .undefined p') :
    Exec.wp (restartService (.allWell k) name bash attach) Q E p := by
  obtain ⟨hfound, hname, hstatus⟩ := hfault
  rw [← findSlot_isSome] at hfound
  obtain ⟨i, hslot⟩ := Option.isSome_iff_exists.mp hfound
  have hkill : ∀ sig pid w, (Calls.allWell k).kill sig pid w = (0, w) := fun _ _ _ => rfl
  simp only [restartService, Exec.wp_bind, wp_findSlot, hslot, Exec.wp_get,
    wp_killService_quiet hkill, ne_eq, not_true_eq_false, if_false, warmService, hname,
    wp_updateAvialable]
  split
  · exact hE _
  · rename_i hnonempty
    rw [hstatus.resolve_left hnonempty]
    simp only [Bool.not_true, Bool.false_eq_true, if_false]
    exact wp_startThread_undefined rfl (fun _ => rfl) (fun _ => rfl) (fun _ => rfl) rfl
      fun p' _ => hE p'

/-! ## What setting a limit does -/

/-- The limits after `createLimit`. -/
def recordLimit (name : CStr) (cpu : BitVec 64) (memory : BitVec 128) (l : List Limit) :
    List Limit :=
  if l.any (·.name == name) then
    Table.updateFirst (·.name == name) (fun x => { x with cpu := cpu, memory := memory }) l
  else l ++ [⟨name, cpu, memory⟩]

theorem length_recordLimit (name : CStr) (cpu : BitVec 64) (memory : BitVec 128)
    (l : List Limit) : (recordLimit name cpu memory l).length =
      if l.any (·.name == name) then l.length else l.length + 1 := by
  unfold recordLimit
  split
  · exact Table.length_updateFirst _ _ l
  · exact List.length_append

/-- On any table, `createLimit` records the limit or leaves the table alone. -/
theorem createLimit_items {name : CStr} {cpu : BitVec 64} {memory : BitVec 128}
    {t t' : Table Limit} {rc : Int} (h : createLimit name cpu memory t = .ok (rc, t')) :
    t'.items = t.items ∨ t'.items = recordLimit name cpu memory t.items := by
  unfold createLimit at h
  split at h
  · cases h
    exact .inl rfl
  · split at h
    · rename_i hany
      cases h
      exact .inr (if_pos hany).symm
    · rename_i hany
      cases ha : t.append createLimitGrowth ⟨name, cpu, memory⟩ with
      | error e => rw [ha] at h; cases h
      | ok t₁ =>
        rw [ha] at h
        cases h
        exact .inr ((Table.append_items ha).trans (if_neg hany).symm)

theorem createLimit_of_honest {t : Table Limit} (hnull : t.isNull = false) (ht : t.Honest)
    (name : CStr) (cpu : BitVec 64) (memory : BitVec 128) :
    ∃ t', createLimit name cpu memory t = .ok (0, t') ∧
      t'.items = recordLimit name cpu memory t.items ∧ t'.isNull = false ∧ t'.Honest := by
  simp only [createLimit, hnull, Bool.false_eq_true, if_false, recordLimit]
  split
  · refine ⟨_, rfl, rfl, hnull, ?_⟩
    unfold Table.Honest Table.mapItems
    rw [Table.length_updateFirst]
    exact ht
  · obtain ⟨t', happend, hitems, hhonest⟩ := ht.append (g := createLimitGrowth)
      (fun n => by simp [createLimitGrowth, initialScaleOfResLimit]) ⟨name, cpu, memory⟩
    exact ⟨t', by rw [happend]; rfl, hitems,
      Table.isNull_eq_false (by rw [hitems]; exact List.concat_ne_nil _ _), hhonest⟩

theorem createLimit_eq {t : Table Limit} (ht : LimitBlock t) (name : CStr) (cpu : BitVec 64)
    (memory : BitVec 128) :
    ∃ t', createLimit name cpu memory t = .ok (0, t') ∧
      t'.items = recordLimit name cpu memory t.items := by
  have hin := t.inBlock
  rw [ht.2] at hin
  have hhonest : t.Honest := ⟨by rw [ht.1]; exact hin, by rw [ht.1, ht.2]⟩
  obtain ⟨t', hcreate, hitems, -⟩ := createLimit_of_honest (by simp [Table.isNull, ht.2]) hhonest
    name cpu memory
  exact ⟨t', hcreate, hitems⟩

theorem limitOf_recordLimit (name : CStr) (cpu : BitVec 64) (memory : BitVec 128)
    (l : List Limit) : limitOf name (recordLimit name cpu memory l) = some (cpu, memory) := by
  unfold limitOf recordLimit
  induction l with
  | nil => simp [Limit.amounts]
  | cons x l ih =>
    cases hx : x.name == name with
    | true => simp [hx, Table.updateFirst, Limit.amounts]
    | false =>
      simp only [List.any_cons, hx, Bool.false_or, Table.updateFirst, Bool.false_eq_true,
        if_false, List.cons_append] at ih ⊢
      split <;> simp_all

/-- **What the six functions do** for a service they find: a stopped one is left
alone, else the cgroup is written and the limit recorded. -/
theorem wp_limitService (name : CStr) (write : BitVec 32 → W → Int × W) (cpu : BitVec 64)
    (memory : BitVec 128) (missing : Exec (Process W) Int) (ht : LimitBlock p.limits) :
    ∃ t, t.items = recordLimit name cpu memory p.limits.items ∧
      ∀ {Q : Int → Process W → Prop} {E : Halt → Process W → Prop},
        Exec.wp (limitService name write cpu memory missing) Q E p ↔
          match p.services.items.find? (·.name == name) with
          | none => Exec.wp missing Q E p
          | some s =>
            if s.pid = 0 then Q 0 p
            else if (write s.pid p.world).1 ≠ 0 then
              Q (-1) { p with world := (write s.pid p.world).2 }
            else Q 0 { p with world := (write s.pid p.world).2, limits := t } := by
  obtain ⟨t, hcreate, hitems⟩ := createLimit_eq ht name cpu memory
  refine ⟨t, hitems, fun {Q E} => ?_⟩
  simp only [limitService, Exec.wp_bind, wp_findService]
  cases p.services.items.find? (·.name == name) with
  | none => rfl
  | some s =>
    simp only
    split
    · exact Exec.wp_pure _
    · simp only [Exec.wp_bind, wp_call]
      split
      · exact Exec.wp_pure _
      · simp only [Exec.wp_bind, wp_onLimits, hcreate, ne_eq, not_true_eq_false, if_false,
          Exec.wp_pure]

theorem limitService_running {name : CStr} {write : BitVec 32 → W → Int × W}
    {s : Service} (hfind : p.services.items.find? (·.name == name) = some s) (hpid : s.pid ≠ 0)
    (hnull : p.limits.isNull = false) (hhonest : p.limits.Honest)
    (hwrite : (write s.pid p.world).1 = 0) (cpu : BitVec 64) (memory : BitVec 128)
    (missing : Exec (Process W) Int) :
    ∃ t, t.items = recordLimit name cpu memory p.limits.items ∧ t.isNull = false ∧ t.Honest ∧
      (limitService name write cpu memory missing).run p =
        .ok 0 { p with world := (write s.pid p.world).2, limits := t } := by
  obtain ⟨t, hcreate, hitems, hnull', hhonest'⟩ := createLimit_of_honest hnull hhonest name cpu
    memory
  refine ⟨t, hitems, hnull', hhonest', Exec.run_of_wp ?_⟩
  simp only [limitService, Exec.wp_bind, wp_findService, hfind, if_neg hpid, wp_call, hwrite,
    ne_eq, not_true_eq_false, if_false, wp_onLimits, hcreate, Exec.wp_pure, and_self]

/-- What the six functions may leave, on any table: no service changes, and a limit is
recorded only for a service that is there. -/
theorem wp_limitService_cases (name : CStr) (write : BitVec 32 → W → Int × W) (cpu : BitVec 64)
    (memory : BitVec 128) {missing : Exec (Process W) Int} {E : Halt → Process W → Prop}
    {Q : Int → Process W → Prop} (hmissing : Exec.wp missing Q E p)
    (hE : ∀ e p', E e p') (hkept : ∀ rc w, Q rc { p with world := w })
    (hlimits : ∀ rc w t, p.services.items.any (·.name == name) = true →
      t.items = p.limits.items ∨ t.items = recordLimit name cpu memory p.limits.items →
        Q rc { p with world := w, limits := t }) :
    Exec.wp (limitService name write cpu memory missing) Q E p := by
  simp only [limitService, Exec.wp_bind, wp_findService]
  cases hfind : p.services.items.find? (·.name == name) with
  | none => exact hmissing
  | some s =>
    have hfound : p.services.items.any (·.name == name) = true :=
      List.any_eq_true.mpr ⟨s, List.mem_of_find?_eq_some hfind, by
        simpa using List.find?_some hfind⟩
    simp only [Exec.wp_ite, Exec.wp_pure, Exec.wp_bind, wp_call, wp_onLimits]
    refine ⟨fun _ => hkept 0 p.world, fun _ => ⟨fun _ => hkept _ _, fun _ => ?_⟩⟩
    cases hcreate : createLimit name cpu memory p.limits with
    | error e => exact hE e _
    | ok r =>
      have hpair : createLimit name cpu memory p.limits = .ok (r.1, r.2) := hcreate
      have ht := createLimit_items hpair
      exact ⟨fun _ => hlimits _ _ _ hfound ht, fun _ => hlimits _ _ _ hfound ht⟩

end specs

end MiniRunner
