import MiniRunner.Ops.Launch

/-!
# Launched again

`restartService` starts a service through `warmService`, which builds the parameter
block of `runthread` in code of its own. The calls of a world are logged to see what
the two hand over: `handed` is the list of the blocks an operation gave to `runthread`.

The blocks agree field by field, but for the argument block, which is read by
`runthread` and never set by `warmService` (`handed_alike_but_args`). So a restart is
launched like a run only where it launches nothing (`launchesAlike_iff`).
-/

namespace MiniRunner

open Clib Process

variable {W α : Type}

/-! ## Logged calls -/

def keepLog {L : Type} (f : W → α × W) : W × L → α × (W × L) := fun w =>
  ((f w.1).1, (f w.1).2, w.2)

/-- The calls of a world beside a log that they leave alone. -/
def Calls.beside (sys : Calls W) (L : Type) : Calls (W × L) where
  clone githubRepo name := keepLog (sys.clone githubRepo name)
  folderExists name := keepLog (sys.folderExists name)
  deleteFolderRecursievly name := keepLog (sys.deleteFolderRecursievly name)
  renameFolder beforeName newName := keepLog (sys.renameFolder beforeName newName)
  kill sig pid := keepLog (sys.kill sig pid)
  updateCgrp name := keepLog (sys.updateCgrp name)
  updateCgroup name pid := keepLog (sys.updateCgroup name pid)
  renameCgrp name newName pid := keepLog (sys.renameCgrp name newName pid)
  createThread := keepLog sys.createThread
  detachThread := keepLog sys.detachThread
  launch params := keepLog (sys.launch params)
  lag := keepLog sys.lag
  interruptLast pauses := keepLog (sys.interruptLast pauses)
  limitCpuAndMemory name pid cpu limitMemory memBytes :=
    keepLog (sys.limitCpuAndMemory name pid cpu limitMemory memBytes)
  limitMm name pid memBytes := keepLog (sys.limitMm name pid memBytes)
  fileExists name := keepLog (sys.fileExists name)
  time := keepLog sys.time

/-- The calls of a world, with the parameters of every launch logged. -/
def Calls.logging (sys : Calls W) : Calls (W × List Param) :=
  { sys.beside (List Param) with
    launch := fun params w =>
      ((sys.launch params w.1).1, (sys.launch params w.1).2, w.2 ++ [params]) }

def Process.withLog (p : Process W) : Process (W × List Param) :=
  ⟨p.files, (p.world, []), p.services, p.jobs, p.envs, p.limits, p.reformatState,
    p.reformatLimits, p.pidSet, p.running⟩

@[simp] theorem Process.withLog_services (p : Process W) : p.withLog.services = p.services := rfl
@[simp] theorem Process.withLog_envs (p : Process W) : p.withLog.envs = p.envs := rfl
@[simp] theorem Process.withLog_files (p : Process W) : p.withLog.files = p.files := rfl

/-- What an operation hands to `runthread`, however it ends. -/
def handed (x : Exec (Process (W × List Param)) α) (p : Process W) : List Param :=
  match x.run p.withLog with
  | .ok _ p' => p'.world.2
  | .error _ p' => p'.world.2

@[simp] theorem sawStatus_services (p : Process W) : (sawStatus p).services = p.services := rfl

theorem handed_of_wp {x : Exec (Process (W × List Param)) α} {p : Process W}
    {P : List Param → Prop}
    (h : Exec.wp x (fun _ p' => P p'.world.2) (fun _ p' => P p'.world.2) p.withLog) :
    P (handed x p) := by
  unfold handed
  cases hrun : x.run p.withLog with
  | ok a p' => exact Exec.wp_run_ok h hrun
  | error e p' => exact Exec.wp_run_error h hrun

/-! ## What is handed over -/

/-- The log so far holds only blocks with `P`. -/
def Logs (P : Param → Prop) (p : Process (W × List Param)) : Prop := ∀ x ∈ p.world.2, P x

theorem logs_withLog {P : Param → Prop} (p : Process W) : Logs P p.withLog :=
  fun _ hx => absurd hx List.not_mem_nil

theorem mem_handed {x : Exec (Process (W × List Param)) α} {p : Process W} {P : Param → Prop}
    (h : Exec.wp x (fun _ => Logs P) (fun _ => Logs P) p.withLog) :
    ∀ params ∈ handed x p, P params :=
  handed_of_wp (P := fun log => ∀ params ∈ log, P params) h

section specs

variable {sys : Calls W} {P : Param → Prop} {p : Process (W × List Param)}

theorem logs_keepLog (f : W → α × W) : Exec.Keeps (Logs P) (call (keepLog f)) :=
  fun _ hp => wp_call.mpr hp

theorem logs_setPid (i : Nat) (pid : BitVec 32) :
    Exec.Keeps (Logs (W := W) P) (setPid i pid) :=
  fun _ hp => Exec.wp_total.mpr hp

theorem logs_startThread {params : Param} (h : P params) :
    Exec.Keeps (Logs P) (startThread sys.logging params) := by
  refine keeps_startThread (logs_keepLog _) (logs_keepLog _) (logs_keepLog _)
    (fun _ => logs_keepLog _) (fun p hp => ⟨fun x hx => ?_, fun _ _ => logs_setPid _ _⟩)
    (logs_setPid _ 0) fun _ _ _ hp => hp
  rcases List.mem_append.mp hx with hx | hx
  · exact hp x hx
  · rw [List.mem_singleton.mp hx]
    exact h

theorem wp_killService_logging {pid : BitVec 32} {Q : Int → Process (W × List Param) → Prop}
    {E : Halt → Process (W × List Param) → Prop}
    (h : ∀ rc w, Q rc { p with world := (w, p.world.2) }) :
    Exec.wp (killService sys.logging pid) Q E p := by
  simp only [killService, killProcess, Calls.logging, Calls.beside, keepLog, Exec.wp_ite,
    Exec.wp_pure, Exec.wp_bind, wp_call]
  exact ⟨fun _ => h 0 p.world.1, fun _ => ⟨fun _ => h _ _, fun _ => ⟨fun _ => h _ _,
    fun _ => h _ _⟩⟩⟩

theorem logs_killService (pid : BitVec 32) :
    Exec.Keeps (Logs P) (killService sys.logging pid) :=
  fun _ hp => wp_killService_logging fun _ _ => hp

/-- `warmService` hands over a block for the slot and name it got, and only while no
update is under way. -/
theorem logs_warmService {i : Nat} {name : CStr} {bash : Option CStr} {attach : Bool}
    (hp : Logs P p)
    (h : name.bytes ≠ [] → isIdle (p.files.content (.file .updateStatus)) = true →
      P ⟨i, scriptPath name (bash.getD defaultScript), name, none, attach⟩) :
    Exec.wp (warmService sys.logging i name bash attach) (fun _ => Logs P) (fun _ => Logs P)
      p := by
  simp only [warmService, Exec.wp_ite, Exec.wp_pure, Exec.wp_bind, wp_updateAvialable]
  refine ⟨fun _ => hp, fun hname => ?_⟩
  split
  · exact hp
  · refine ⟨fun _ => hp, fun hidle => ?_⟩
    exact logs_startThread (h hname (by simpa using hidle)) (sawStatus p) hp

end specs

section launches

variable {sys : Calls W} {p : Process W} {name : CStr} {bash : Option CStr} {attach : Bool}

/-- What a run hands over. -/
theorem handed_runService :
    ∀ params ∈ handed (runService sys.logging name bash attach) p, ∃ i args,
      p.services.items.findIdx? (·.name == name) = some i ∧
      getArgs name p.envs.items = .ok args ∧
      params = ⟨i, scriptPath name (bash.getD defaultScript), name, some args, attach⟩ := by
  refine mem_handed ?_
  simp only [runService, Exec.wp_bind, Exec.wp_get, Exec.wp_ite, Exec.wp_pure, wp_updateAvialable]
  refine ⟨fun _ => logs_withLog p, fun _ => ⟨fun _ => logs_withLog p, fun _ => ?_⟩⟩
  split
  · exact logs_withLog p
  · refine ⟨fun _ => logs_withLog p, fun _ => ?_⟩
    simp only [wp_findSlot, sawStatus_services, Process.withLog_services]
    cases hslot : p.services.items.findIdx? (·.name == name) with
    | none => exact (Exec.wp_pure _).mpr (logs_withLog p)
    | some i =>
      simp only [Exec.wp_bind, Process.withLog_envs]
      cases hargs : getArgs name p.envs.items with
      | error e =>
        rw [Exec.wp_ofExcept_error]
        exact logs_withLog p
      | ok args =>
        rw [Exec.wp_ofExcept_ok]
        exact logs_startThread ⟨i, args, rfl, rfl, rfl⟩ (sawStatus p.withLog) (logs_withLog p)

/-- What a restart hands over, and when it does. -/
theorem handed_restartService :
    ∀ params ∈ handed (restartService sys.logging name bash attach) p, ∃ i,
      p.services.items.findIdx? (·.name == name) = some i ∧ name.bytes ≠ [] ∧
      isIdle (p.files.content (.file .updateStatus)) = true ∧
      params = ⟨i, scriptPath name (bash.getD defaultScript), name, none, attach⟩ := by
  refine mem_handed ?_
  simp only [restartService, Exec.wp_bind, wp_findSlot, Process.withLog_services]
  cases hslot : p.services.items.findIdx? (·.name == name) with
  | none => exact (Exec.wp_pure _).mpr (logs_withLog p)
  | some i =>
    simp only [Exec.wp_bind, Exec.wp_get]
    refine wp_killService_logging fun rc w => ?_
    rw [Exec.wp_ite]
    refine ⟨fun _ => (Exec.wp_pure _).mpr (logs_withLog p), fun _ => ?_⟩
    rw [Exec.wp_bind]
    refine Exec.wp_mono (logs_warmService (logs_withLog p) fun hname hidle =>
      ⟨i, rfl, hname, hidle, rfl⟩) ?_ fun _ _ he => he
    intro rc p₁ hp₁
    refine (Exec.Keeps.ite (fun _ => .pure _) fun _ => .get_bind fun p₂ _ => ?_) p₁ hp₁
    refine .bind (logs_keepLog _) fun rc₂ => .ite (fun _ => ?_) fun _ => .pure _
    exact .bind (logs_killService _) fun rc₃ => .ite (fun _ => .pure _) fun _ => .pure _

theorem handed_alike_but_args :
    ∀ warm ∈ handed (restartService sys.logging name bash attach) p,
      ∀ fresh ∈ handed (runService sys.logging name bash attach) p,
        warm = { fresh with args := none } := by
  intro warm hwarm fresh hfresh
  obtain ⟨i, hi, -, -, rfl⟩ := handed_restartService warm hwarm
  obtain ⟨j, args, hj, -, rfl⟩ := handed_runService fresh hfresh
  rw [hi] at hj
  cases hj
  rfl

/-- Where every call works, a restart of a service that is there comes to its launch. -/
theorem handed_restartService_ne_nil (bash : Option CStr) (attach : Bool)
    (hfound : p.services.items.any (·.name == name) = true) (hname : name.bytes ≠ [])
    (hidle : isIdle (p.files.content (.file .updateStatus)) = true) :
    handed (restartService ((Calls.allWell 1).within W).logging name bash attach) p ≠ [] := by
  rw [← findSlot_isSome] at hfound
  obtain ⟨i, hslot⟩ := Option.isSome_iff_exists.mp hfound
  have hstatus : p.files.content (.file .updateStatus) ≠ [] := by
    intro hnil
    rw [hnil] at hidle
    exact absurd hidle (by decide)
  have hkill : ∀ sig pid w, ((Calls.allWell 1).within W).logging.kill sig pid w = (0, w) :=
    fun _ _ _ => rfl
  refine handed_of_wp (P := (· ≠ [])) ?_
  simp only [restartService, Exec.wp_bind, wp_findSlot, Process.withLog_services, hslot,
    Exec.wp_get, wp_killService_quiet hkill, ne_eq, not_true_eq_false, if_false, warmService, hname,
    wp_updateAvialable, Process.withLog_files, hstatus, hidle, Bool.not_true, Bool.false_eq_true]
  -- the block is logged before the argument block is missed
  refine wp_startThread_undefined rfl (fun _ => rfl) (fun _ => rfl) (fun _ => rfl) rfl
    fun p' hlog => ?_
  rw [hlog]
  exact List.concat_ne_nil _ _

/-- Every block a restart hands over is complete, and is the one a run of the same
service hands over. -/
def LaunchesAlike (sys : Calls W) (p : Process W) (name : CStr) (bash : Option CStr)
    (attach : Bool) : Prop :=
  ∀ warm ∈ handed (restartService sys.logging name bash attach) p, warm.args.isSome = true ∧
    ∀ fresh ∈ handed (runService sys.logging name bash attach) p, warm = fresh

end launches

/-- **Restart launches a service the way run does** only where it launches none: the
service is not there, its name is empty, or the update status is not idle. -/
theorem launchesAlike_iff (p : Process W) (name : CStr) (bash : Option CStr) (attach : Bool) :
    (∀ sys : Calls W, LaunchesAlike sys p name bash attach) ↔
      ¬(p.services.items.any (·.name == name) = true ∧ name.bytes ≠ [] ∧
        isIdle (p.files.content (.file .updateStatus)) = true) := by
  constructor
  · rintro hall ⟨hfound, hname, hidle⟩
    obtain ⟨warm, hwarm⟩ := List.exists_mem_of_ne_nil _
      (handed_restartService_ne_nil bash attach hfound hname hidle)
    obtain ⟨i, -, -, -, rfl⟩ := handed_restartService warm hwarm
    exact absurd (hall _ _ hwarm).1 Bool.false_ne_true
  · rintro hno sys warm hwarm
    obtain ⟨i, hslot, hname, hidle, rfl⟩ := handed_restartService warm hwarm
    have hfound : p.services.items.any (·.name == name) = true := by
      rw [← findSlot_isSome, hslot]
      rfl
    exact absurd ⟨hfound, hname, hidle⟩ hno

/-- A stopped service `a`, with an entry for its environment, and no update under way. -/
def stopped : Process Unit where
  files := fun q => if q = .file .updateStatus then some idleText else none
  world := ()
  services := .ofList [⟨.ofBytes [114], .ofBytes [97], 0, true⟩]
  jobs := .alloc initialScaleSizeOfJobs
  envs := .ofList [⟨.ofBytes [97], .ofBytes [107], .ofBytes [118]⟩]
  limits := .alloc initialScaleOfResLimit
  reformatState := false
  reformatLimits := false

/-- With every call working, its restart hands over a block without an environment. -/
theorem not_launchesAlike_stopped :
    ¬∀ (sys : Calls Unit) (p : Process Unit) (name : CStr) (bash : Option CStr) (attach : Bool),
      LaunchesAlike sys p name bash attach := by
  intro h
  have hhanded : handed (restartService (Calls.allWell 1).logging (.ofBytes [97]) none false)
      stopped = [⟨0, scriptPath (.ofBytes [97]) defaultScript, .ofBytes [97], none, false⟩] := rfl
  have hargs := (h (.allWell 1) stopped (.ofBytes [97]) none false _
    (by rw [hhanded]; exact List.mem_singleton_self _)).1
  exact absurd hargs (by decide)

end MiniRunner
