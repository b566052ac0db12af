import MiniRunner.Clib.Leases
import MiniRunner.Clib.Runs
import MiniRunner.Ops.Launch

/-!
# Recorded pids and live processes

The pid column of the services table against the processes that are alive. `runService`,
`restartService`, `stopService` and `normalDeleteServices` start and end processes in one
place and record pids in another, with returns in between. A pid is a token that a service
holds, so `Held` says that the column matches the processes.

`PidOp.Keeps` says which calls keep it that way, and is exact: a call that does not meet it
loses a process, keeps the pid of a dead one, or runs into what the standard leaves
undefined. A run may go over several processes of the program, and take several operations
in one; there a start that does not wait can return while its thread is `Late`.
-/

namespace MiniRunner

open Clib Process

variable {W : Type}

/-! ## The system -/

/-- The live processes that the program started, and the rest of the world. -/
structure Os (W : Type) where
  live : BitVec 32 → Bool
  rest : W

/-- What the system does for a start: the pid that `fork` gives, whether the thread can be
`created` and `detached` and how far it is when the start returns, whether the `backup` of an
attached start comes `last`, and whether the SIGINT ends the process as well. -/
structure Fork where
  pid : BitVec 32
  created : Bool := true
  detached : Bool := true
  lag : Lag := .through
  last : Bool := false
  reached : Bool := false
  deriving DecidableEq

namespace Os

def aside {α : Type} (f : W → α × W) (w : Os W) : α × Os W :=
  ((f w.rest).1, { w with rest := (f w.rest).2 })

/-- A system in which every fork, exec and kill succeeds and no process ends by itself; the
answers about the thread are those of `fork`, and all others those of `base`. -/
def calls (base : Calls W) (fork : Fork) : Calls (Os W) where
  clone githubRepo name := aside (base.clone githubRepo name)
  folderExists name := aside (base.folderExists name)
  deleteFolderRecursievly name := aside (base.deleteFolderRecursievly name)
  renameFolder beforeName newName := aside (base.renameFolder beforeName newName)
  kill sig pid w :=
    if w.live pid = false then (-1, w)
    else match sig with
      | .probe => (0, w)
      | .sigkill => (0, { w with live := Function.update w.live pid false })
  updateCgrp name := aside (base.updateCgrp name)
  updateCgroup name pid := aside (base.updateCgroup name pid)
  renameCgrp name newName pid := aside (base.renameCgrp name newName pid)
  createThread w := (if fork.created then 0 else -1, w)
  detachThread w := (if fork.detached then 0 else -1, w)
  launch _ w := (.answered fork.pid, { w with live := Function.update w.live fork.pid true })
  lag w := (fork.lag, w)
  interruptLast pauses w :=
    (fork.last,
      { w with live := if pauses && fork.reached then Function.update w.live fork.pid false
          else w.live })
  limitCpuAndMemory name pid cpu limitMemory memBytes :=
    aside (base.limitCpuAndMemory name pid cpu limitMemory memBytes)
  limitMm name pid memBytes := aside (base.limitMm name pid memBytes)
  fileExists name := aside (base.fileExists name)
  time := aside base.time

end Os

/-! ## Operations -/

/-- The four operations, and the end of a process after which the next one begins with the
tables that it leaves. A start comes with what the system does for it. -/
inductive PidOp where
  | run (name : CStr) (bash : Option CStr) (attach : Bool) (fork : Fork)
  | restart (serviceName : CStr) (bash : Option CStr) (attach : Bool) (fork : Fork)
  | stop (serviceName : CStr)
  | remove (serviceName : CStr)
  | exit
  deriving DecidableEq

def noFork : Fork := { pid := 0 }

def PidOp.exec (base : Calls W) : PidOp → Exec (Process (Os W)) Int
  | run name bash attach fork => runService (Os.calls base fork) name bash attach
  | restart serviceName bash attach fork =>
    restartService (Os.calls base fork) serviceName bash attach
  | stop serviceName => stopService (Os.calls base noFork) serviceName
  | remove serviceName => normalDeleteServices (Os.calls base noFork) serviceName
  | exit => do
    modify fun p => { p with pidSet := false, running := false }
    pure 0

/-- A run ends where an operation does not return. -/
def PidOp.step (base : Calls W) (op : PidOp) (p : Process (Os W)) : Option (Process (Os W)) :=
  match (op.exec base).run p with
  | .ok _ p' => some p'
  | .error _ _ => none

/-- **The pid column matches the processes**: every live process is the recorded pid of
exactly one service, every recorded pid that is not 0 is alive. -/
def PidsMatch (p : Process (Os W)) : Prop := Held Service.pid 0 p.world.live p.services.items

/-- `fork` gives a pid that is positive and not in use. -/
def PidOp.Fresh (p : Process (Os W)) : PidOp → Prop
  | run _ _ _ fork | restart _ _ _ fork => fork.pid ≠ 0 ∧ p.world.live fork.pid = false
  | stop _ | remove _ | exit => True

instance PidOp.decidableFresh (p : Process (Os W)) : (op : PidOp) → Decidable (op.Fresh p)
  | .run .. | .restart .. => inferInstanceAs (Decidable (_ ≠ _ ∧ _ = false))
  | .stop _ | .remove _ | .exit => inferInstanceAs (Decidable True)

def Process.found (name : CStr) (p : Process W) : Option Service :=
  p.services.items.find? (·.name == name)

def Process.status (p : Process W) : Bytes := p.files.content (.file .updateStatus)

/-- The thread is through when the start returns: the start waits for it, as the first one of
a process does unless the thread cannot be detached, or it is fast enough. -/
def Fork.InTime (fork : Fork) (p : Process (Os W)) (attach : Bool) : Prop :=
  p.pidSet = false ∧ (attach = true ∨ fork.detached = true) ∨ fork.lag = .through

/-- A start that gets as far as a thread returns before the thread is through. -/
def PidOp.Late (p : Process (Os W)) : PidOp → Prop
  | run name _ attach fork =>
    p.services.isNull = false ∧ name.bytes ≠ [] ∧ isIdle p.status = true ∧
      (∃ s, p.found name = some s) ∧ (∃ args, getArgs name p.envs.items = .ok args) ∧
      fork.created = true ∧ ¬fork.InTime p attach
  | restart serviceName _ attach fork =>
    (∃ s, p.found serviceName = some s) ∧ serviceName.bytes ≠ [] ∧ isIdle p.status = true ∧
      fork.created = true ∧ ¬fork.InTime p attach
  | stop _ | remove _ | exit => False

/-- **When an operation keeps the column.** A run that gets as far as a thread starts a
stopped service and returns when the thread is through, and if it is attached, `backup` comes
after the pid is recorded exactly when a SIGINT ends the process. A restart is of a stopped
service, and returns before the thread that would free an argument block nobody set. A stop
takes the service out of its cgroup. -/
def PidOp.Keeps (base : Calls W) (p : Process (Os W)) : PidOp → Prop
  | run name _ attach fork =>
    p.services.isNull = true ∨ name.bytes = [] ∨ p.status ≠ [] ∧
      (isIdle p.status = true → ∀ s, p.found name = some s →
        (∃ args, getArgs name p.envs.items = .ok args) ∧
          (fork.created = true → fork.InTime p attach ∧ s.pid = 0 ∧
            (attach = true → (!p.running && fork.reached) = fork.last)))
  | restart serviceName _ _ fork =>
    ∀ s, p.found serviceName = some s → s.pid = 0 ∧ (serviceName.bytes = [] ∨ p.status ≠ [] ∧
      (isIdle p.status = true → fork.created = false))
  | stop serviceName =>
    ∀ s, p.found serviceName = some s → s.pid ≠ 0 →
      (base.updateCgrp serviceName p.world.rest).1 = 0
  | remove serviceName => ∀ s, p.found serviceName = some s → FolderFits serviceName
  | exit => True

theorem PidOp.Keeps.not_late {base : Calls W} {p : Process (Os W)} {op : PidOp}
    (h : op.Keeps base p) : ¬op.Late p := by
  cases op with
  | run name bash attach fork =>
    rintro ⟨hnull, hname, hidle, ⟨s, hs⟩, -, hcreated, hlate⟩
    rcases h with h | h | ⟨-, h⟩
    · exact absurd (hnull.symm.trans h) Bool.false_ne_true
    · exact hname h
    · exact hlate ((h hidle s hs).2 hcreated).1
  | restart serviceName bash attach fork =>
    rintro ⟨⟨s, hs⟩, hname, hidle, hcreated, -⟩
    obtain ⟨-, h | ⟨-, h⟩⟩ := h s hs
    · exact hname h
    · exact absurd ((h hidle).symm.trans hcreated) Bool.false_ne_true
  | stop serviceName => exact id
  | remove serviceName => exact id
  | exit => exact id

/-! ## What they do -/

section specs

variable {base : Calls W} {fork : Fork} {p : Process (Os W)} {Q : Int → Process (Os W) → Prop}
  {E : Halt → Process (Os W) → Prop}

theorem PidOp.exists_step_iff (op : PidOp) {I : Process (Os W) → Prop} :
    (∃ p', op.step base p = some p' ∧ I p') ↔
      Exec.wp (op.exec base) (fun _ p' => I p') (fun _ _ => False) p := by
  rw [Exec.wp_iff_exists_run]
  unfold step
  cases (op.exec base).run p with
  | ok rc p' => simp
  | error e p' => simp

def ended (pid : BitVec 32) (p : Process (Os W)) : Process (Os W) :=
  { p with world := { p.world with live := Function.update p.world.live pid false } }

theorem wp_killProcess_os {pid : BitVec 32} :
    Exec.wp (killProcess (Os.calls base fork) pid) Q E p ↔ Q 0 (ended pid p) := by
  simp only [killProcess, Exec.wp_bind, wp_call, Os.calls]
  cases hlive : p.world.live pid with
  | true => simp [hlive, ended]
  | false =>
    have hsame : Function.update p.world.live pid false = p.world.live := by
      rw [← hlive, Function.update_eq_self]
    simp [ended, hsame]

theorem wp_killService_os {pid : BitVec 32} (hzero : p.world.live 0 = false) :
    Exec.wp (killService (Os.calls base fork) pid) Q E p ↔ Q 0 (ended pid p) := by
  unfold killService
  split
  · rename_i hpid
    rw [Exec.wp_pure, hpid, ended, ← hzero, Function.update_eq_self]
  · exact wp_killProcess_os

theorem not_isNull_of_find? {name : CStr} {s : Service}
    (hfind : p.services.items.find? (·.name == name) = some s) : p.services.isNull = false :=
  Table.isNull_eq_false (List.ne_nil_of_mem (List.mem_of_find?_eq_some hfind))

theorem wp_deleteFromPcFolder_os {name : CStr} (hfits : FolderFits name)
    (h : ∀ rc rest, Q rc { p with world := { p.world with rest := rest } }) :
    Exec.wp (deleteFromPcFolder (Os.calls base fork) name) Q E p := by
  unfold deleteFromPcFolder
  rw [if_neg (by simp only [len_serviceRoot_append, folderCommandSize, FolderFits] at *; omega)]
  simp only [Exec.wp_bind, wp_call, Exec.wp_ite, Exec.wp_pure]
  exact ⟨fun _ => h _ _, fun _ => ⟨fun _ => h _ _, fun _ => h _ _⟩⟩

theorem stopService_keeps (h : PidsMatch p) (serviceName : CStr) :
    (PidOp.stop serviceName).Keeps base p ↔
      Exec.wp ((PidOp.stop serviceName).exec base) (fun _ p' => PidsMatch p')
        (fun _ _ => False) p := by
  simp only [PidOp.Keeps, PidOp.exec, Process.found, stopService, Exec.wp_bind, wp_findService]
  cases hfind : p.services.items.find? (·.name == serviceName) with
  | none => exact iff_of_true (fun s hs => by cases hs) ((Exec.wp_pure _).mpr h)
  | some s =>
    simp only [Option.some.injEq, forall_eq']
    by_cases hpid : s.pid = 0
    · rw [if_pos hpid]
      exact iff_of_true (absurd hpid) ((Exec.wp_pure _).mpr h)
    · rw [if_neg hpid]
      simp only [Exec.wp_bind, wp_killProcess_os, ne_eq, not_true_eq_false, if_false, wp_call]
      by_cases hrc : (base.updateCgrp serviceName p.world.rest).1 = 0
      · refine iff_of_true (fun _ => hrc) ?_
        simp only [ended, Os.calls, Os.aside, hrc, not_true_eq_false, if_false, Exec.wp_bind,
          wp_updateService, Exec.wp_pure]
        exact Held.takeBack h hfind rfl
      · refine iff_of_false (fun hall => hrc (hall hpid)) fun hwp => hpid ?_
        simp only [ended, Os.calls, Os.aside, hrc, not_false_eq_true, if_true, Exec.wp_pure] at hwp
        exact (Held.end_iff h (List.mem_of_find?_eq_some hfind)).mp hwp

theorem normalDeleteServices_keeps (h : PidsMatch p) (serviceName : CStr) :
    (PidOp.remove serviceName).Keeps base p ↔
      Exec.wp ((PidOp.remove serviceName).exec base) (fun _ p' => PidsMatch p')
        (fun _ _ => False) p := by
  simp only [PidOp.Keeps, PidOp.exec, Process.found]
  cases hfind : p.services.items.find? (·.name == serviceName) with
  | none =>
    refine iff_of_true (fun s hs => by cases hs) ?_
    simp only [normalDeleteServices, Exec.wp_bind, Exec.wp_get, Exec.wp_ite, Exec.wp_pure,
      wp_findService, hfind]
    exact ⟨fun _ => h, fun _ => h⟩
  | some s =>
    simp only [Option.some.injEq, forall_eq']
    by_cases hfits : FolderFits serviceName
    · refine iff_of_true hfits ?_
      have hname : s.name = serviceName := by simpa using List.find?_some hfind
      have hnull := not_isNull_of_find? hfind
      obtain ⟨t, ht, hitems⟩ := dropService_eq serviceName p.services
      have hgone : Held Service.pid 0 (Function.update p.world.live s.pid false) t.items := by
        rw [hitems]
        exact Held.strike h hfind
      simp only [normalDeleteServices, Exec.wp_bind, Exec.wp_get, hnull, Bool.false_eq_true,
        if_false, wp_findService, hfind, hname]
      refine wp_deleteFromPcFolder_os hfits fun rc rest => ?_
      simp only [Exec.wp_ite, Exec.wp_pure, Exec.wp_bind, wp_onServices, ht, Exec.wp_get,
        wp_onLimits, removeLimit_rc, wp_killService_os, h.freeNotLive, ne_eq, not_true_eq_false,
        false_implies, not_false_eq_true, true_implies, true_and]
      exact ⟨fun _ => h, fun _ => ⟨fun _ => hgone, fun _ => hgone⟩⟩
    · exact iff_of_false (fun hall => hfits hall)
        fun hwp => (wp_normalDeleteServices_undefined (by rw [hfind]; rfl) hfits).mp hwp

theorem wp_setPid_iff {W : Type} {p : Process W} {i : Nat} {pid : BitVec 32}
    {Q : Unit → Process W → Prop} {E : Halt → Process W → Prop} :
    Exec.wp (setPid i pid) Q E p ↔ Q () { p with
      services := p.services.mapItems (·.modify i fun s => { s with pid := pid }) (by simp) } :=
  Exec.wp_total

theorem started_iff (h : PidsMatch p) {name : CStr} {s : Service} {i : Nat}
    (hfind : p.services.items.find? (·.name == name) = some s)
    (hslot : p.services.items.findIdx? (·.name == name) = some i) (hpid : fork.pid ≠ 0)
    (hfresh : p.world.live fork.pid = false) (alive recorded : Bool) {p' : Process (Os W)}
    (hlive : p'.world.live = Function.update p.world.live fork.pid alive)
    (hitems : p'.services.items = p.services.items.modify i fun s =>
      { s with pid := if recorded then fork.pid else 0 }) :
    PidsMatch p' ↔ s.pid = 0 ∧ alive = recorded := by
  obtain ⟨j, hj, -, hmodify⟩ := Table.exists_findIdx? hfind
  cases hslot.symm.trans hj
  rw [PidsMatch, hlive, hitems, hmodify]
  exact Held.lend_iff h hfind rfl hpid hfresh

/-- The process when a thread is through. -/
def recorded (fork : Fork) (i : Nat) (p : Process (Os W)) : Process (Os W) :=
  { p with
    world := { p.world with live := Function.update p.world.live fork.pid true }
    services := p.services.mapItems (·.modify i fun s => { s with pid := fork.pid }) (by simp)
    pidSet := true }

theorem wp_runthread_os {params : Param} (hargs : params.args.isNone = false)
    {Q : Bool → Process (Os W) → Prop} :
    Exec.wp (runthread (Os.calls base fork) params) Q E p ↔
      Q true (recorded fork params.service p) := by
  simp only [runthread, exchangePidSet, Exec.wp_bind, wp_call, Os.calls, wp_setPid_iff,
    Exec.wp_modify, hargs, Bool.false_eq_true, if_false, Exec.wp_pure, recorded]

theorem wp_threadSoFar_os {waits : Bool} (hlag : waits = true ∨ fork.lag = .through)
    (params : Param) {Q : Bool → Process (Os W) → Prop} :
    Exec.wp (threadSoFar (Os.calls base fork) waits params) Q E p ↔
      Exec.wp (runthread (Os.calls base fork) params) Q E p := by
  simp only [threadSoFar, lagOf, Exec.wp_bind]
  cases waits with
  | true => simp only [if_true, Exec.wp_pure]
  | false =>
    have hlag' : ((Os.calls base fork).lag p.world).1 = .through :=
      hlag.resolve_left Bool.false_ne_true
    simp only [Bool.false_eq_true, if_false, wp_call, hlag']
    exact Iff.rfl

theorem wp_startThread_uncreated (params : Param) (hcreated : fork.created = false) :
    Exec.wp (startThread (Os.calls base fork) params) Q E p ↔ Q (-1) p := by
  have hrc : (Os.calls base fork).createThread p.world = (-1, p.world) := by
    simp [Os.calls, hcreated]
  simp only [startThread, Exec.wp_bind, wp_call, hrc, ne_eq, reduceCtorEq, not_false_eq_true,
    if_true, Exec.wp_pure]

/-- A start that is in time does what its thread does, and an attached one `backup`. -/
theorem wp_startThread_os (params : Param) (hcreated : fork.created = true)
    (hintime : fork.InTime p params.attach) :
    Exec.wp (startThread (Os.calls base fork) params) Q E p ↔
      Exec.wp (runthread (Os.calls base fork) params) (fun rec p' =>
        if params.attach = true then
          Exec.wp (backup params.service (rec && !fork.last))
            (fun _ p₂ => Q 0 { p₂ with running := true }) E { p' with world := { p'.world with
              live := if !p.running && fork.reached then
                  Function.update p'.world.live fork.pid false
                else p'.world.live } }
        else Q (if fork.detached then 0 else -1) p') E p := by
  have hrc (w : Os W) : (Os.calls base fork).createThread w = (0, w) := by
    simp [Os.calls, hcreated]
  have hwaits : (!p.pidSet) = true ∨ fork.lag = .through :=
    hintime.imp_left fun h => by simp [h.1]
  simp only [startThread, Exec.wp_bind, wp_call, hrc, ne_eq, not_true_eq_false, if_false,
    Exec.wp_get]
  cases hattach : params.attach with
  | true =>
    simp only [if_true, Exec.wp_bind, wp_threadSoFar_os hwaits, wp_call, Exec.wp_modify,
      Exec.wp_pure]
    exact Iff.rfl
  | false =>
    have hdetach (w : Os W) :
        (Os.calls base fork).detachThread w = (if fork.detached then 0 else -1, w) := rfl
    simp only [Bool.false_eq_true, if_false, Exec.wp_bind, wp_call, hdetach]
    cases hdetached : fork.detached with
    | true =>
      simp only [if_true, not_true_eq_false, if_false, Exec.wp_bind, wp_threadSoFar_os hwaits,
        Exec.wp_pure]
    | false =>
      have hthrough : fork.lag = .through := by
        rcases hintime with ⟨-, h | h⟩ | h
        · exact absurd (hattach.symm.trans h) Bool.false_ne_true
        · exact absurd (hdetached.symm.trans h) Bool.false_ne_true
        · exact h
      simp only [Bool.false_eq_true, if_false, reduceCtorEq, not_false_eq_true, if_true,
        Exec.wp_bind, wp_threadSoFar_os (.inr hthrough), Exec.wp_pure]

theorem startThread_keeps (h : PidsMatch p) (params : Param) {name : CStr} {s : Service}
    (hfind : p.services.items.find? (·.name == name) = some s)
    (hslot : p.services.items.findIdx? (·.name == name) = some params.service)
    (hargs : params.args.isNone = false) (hpid : fork.pid ≠ 0)
    (hfresh : p.world.live fork.pid = false) (hcreated : fork.created = true)
    (hintime : fork.InTime p params.attach) :
    Exec.wp (startThread (Os.calls base fork) params) (fun _ p' => PidsMatch p')
        (fun _ _ => False) p ↔
      s.pid = 0 ∧ (params.attach = true → (!p.running && fork.reached) = fork.last) := by
  rw [wp_startThread_os params hcreated hintime, wp_runthread_os hargs]
  cases hattach : params.attach with
  | false =>
    simp only [Bool.false_eq_true, if_false, false_implies, and_true]
    rw [started_iff h hfind hslot hpid hfresh true true rfl rfl, and_iff_left rfl]
  | true =>
    have hlive : (if (!p.running && fork.reached) = true then
        Function.update (Function.update p.world.live fork.pid true) fork.pid false
      else Function.update p.world.live fork.pid true) =
        Function.update p.world.live fork.pid (!(!p.running && fork.reached)) := by
      cases !p.running && fork.reached <;> simp
    simp only [if_true, true_implies, recorded, hlive, backup]
    cases fork.last with
    | true =>
      simp only [Bool.not_true, Bool.and_false, Bool.false_eq_true, if_false, wp_setPid_iff]
      rw [started_iff h hfind hslot hpid hfresh (!(!p.running && fork.reached)) false rfl
        (List.modify_modify_eq ..), Bool.not_eq_false']
    | false =>
      simp only [Bool.not_false, Bool.and_true, if_true, Exec.wp_pure]
      rw [started_iff h hfind hslot hpid hfresh (!(!p.running && fork.reached)) true rfl rfl,
        Bool.not_eq_true']

theorem findIdx?_eq_none {name : CStr} {l : List Service} (h : l.find? (·.name == name) = none) :
    l.findIdx? (·.name == name) = none :=
  List.findIdx?_eq_none_iff.mpr fun x hx => by simpa using List.find?_eq_none.mp h x hx

theorem wp_updateAvialable_status {Q : Bool → Process (Os W) → Prop} :
    Exec.wp updateAvialable Q E p ↔
      if p.status = [] then E .undefined (sawStatus p) else Q (!isIdle p.status) (sawStatus p) :=
  wp_updateAvialable

theorem runService_keeps (h : PidsMatch p) (name : CStr) (bash : Option CStr) (attach : Bool)
    (hfresh : (PidOp.run name bash attach fork).Fresh p)
    (hlate : ¬(PidOp.run name bash attach fork).Late p) :
    (PidOp.run name bash attach fork).Keeps base p ↔
      Exec.wp ((PidOp.run name bash attach fork).exec base) (fun _ p' => PidsMatch p')
        (fun _ _ => False) p := by
  have hstays {q : Process (Os W)} {rc : Int} (hq : PidsMatch q) :
      Exec.wp (pure rc) (fun _ p' => PidsMatch p') (fun _ _ => False) q := (Exec.wp_pure rc).mpr hq
  simp only [PidOp.Keeps, PidOp.exec, runService, Exec.wp_bind, Exec.wp_get]
  by_cases hnull : p.services.isNull = true
  · rw [if_pos hnull]
    exact iff_of_true (.inl hnull) (hstays h)
  by_cases hname : name.bytes = []
  · rw [if_neg hnull, if_pos hname]
    exact iff_of_true (.inr (.inl hname)) (hstays h)
  rw [if_neg hnull, if_neg hname, or_iff_right hnull, or_iff_right hname, Exec.wp_bind,
    wp_updateAvialable_status]
  by_cases hstatus : p.status = []
  · rw [if_pos hstatus]
    exact iff_of_false (fun hall => hall.1 hstatus) id
  rw [if_neg hstatus, and_iff_right hstatus]
  cases hidle : isIdle p.status with
  | false => exact iff_of_true (fun hall => by cases hall) (hstays h)
  | true =>
    simp only [true_implies, Bool.not_true, Bool.false_eq_true, if_false, Exec.wp_bind, wp_findSlot,
      Process.found]
    cases hfind : p.services.items.find? (·.name == name) with
    | none =>
      rw [show (sawStatus p).services.items.findIdx? (·.name == name) = none from
        findIdx?_eq_none hfind]
      exact iff_of_true (fun s hs => by cases hs) (hstays h)
    | some s =>
      obtain ⟨i, hslot, -⟩ := Table.exists_findIdx? hfind
      rw [show (sawStatus p).services.items.findIdx? (·.name == name) = some i from hslot]
      simp only [Option.some.injEq, forall_eq', Exec.wp_bind]
      cases hargs : getArgs name p.envs.items with
      | error e =>
        rw [Exec.wp_ofExcept_error]
        refine iff_of_false ?_ id
        rintro ⟨⟨args, hok⟩, -⟩
        cases hok
      | ok args =>
        rw [Exec.wp_ofExcept_ok, and_iff_right ⟨args, rfl⟩]
        cases hcreated : fork.created with
        | false =>
          rw [wp_startThread_uncreated _ hcreated]
          exact iff_of_true (fun hno => by cases hno) h
        | true =>
          have hintime : fork.InTime p attach := by
            by_contra hlag
            exact hlate ⟨by simpa using hnull, hname, hidle, ⟨s, hfind⟩, ⟨args, hargs⟩, hcreated,
              hlag⟩
          rw [forall_prop_of_true rfl, and_iff_right hintime]
          exact (startThread_keeps (p := sawStatus p) h
            ⟨i, scriptPath name (bash.getD defaultScript), name, some args, attach⟩ hfind hslot rfl
            hfresh.1 hfresh.2 hcreated hintime).symm

theorem restartService_keeps (h : PidsMatch p) (serviceName : CStr) (bash : Option CStr)
    (attach : Bool) (hlate : ¬(PidOp.restart serviceName bash attach fork).Late p) :
    (PidOp.restart serviceName bash attach fork).Keeps base p ↔
      Exec.wp ((PidOp.restart serviceName bash attach fork).exec base) (fun _ p' => PidsMatch p')
        (fun _ _ => False) p := by
  simp only [PidOp.Keeps, PidOp.exec, restartService, Exec.wp_bind, wp_findSlot, Process.found]
  cases hfind : p.services.items.find? (·.name == serviceName) with
  | none =>
    rw [findIdx?_eq_none hfind]
    exact iff_of_true (fun s hs => by cases hs) ((Exec.wp_pure _).mpr h)
  | some s =>
    obtain ⟨i, hslot, hget, -⟩ := Table.exists_findIdx? hfind
    simp only [hslot, Option.some.injEq, forall_eq', Exec.wp_bind, Exec.wp_get, hget,
      Option.map_some, Option.getD_some, wp_killService_os h.freeNotLive, ne_eq, not_true_eq_false,
      if_false, warmService]
    have hended : PidsMatch (ended s.pid p) ↔ s.pid = 0 :=
      Held.end_iff h (List.mem_of_find?_eq_some hfind)
    by_cases hname : serviceName.bytes = []
    · simp only [hname, if_true, Exec.wp_pure, reduceCtorEq, not_false_eq_true, true_or, and_true]
      exact hended.symm
    simp only [if_neg hname, Exec.wp_bind, wp_updateAvialable_status, or_iff_right hname]
    rw [show (ended s.pid p).status = p.status from rfl]
    by_cases hstatus : p.status = []
    · rw [if_pos hstatus]
      exact iff_of_false (fun hall => hall.2.1 hstatus) id
    rw [if_neg hstatus]
    cases hidle : isIdle p.status with
    | false =>
      simp only [hstatus, not_false_eq_true, Bool.false_eq_true, false_implies, and_true,
        Bool.not_false, if_true, Exec.wp_pure, reduceCtorEq]
      exact hended.symm
    | true =>
      simp only [hstatus, not_false_eq_true, true_implies, true_and, Bool.not_true,
        Bool.false_eq_true, if_false]
      cases hcreated : fork.created with
      | false =>
        rw [wp_startThread_uncreated _ hcreated]
        simp only [reduceCtorEq, not_false_eq_true, if_true, Exec.wp_pure, and_true]
        exact hended.symm
      | true =>
        have hintime : fork.InTime p attach := by
          by_contra hlag
          exact hlate ⟨⟨s, hfind⟩, hname, hidle, hcreated, hlag⟩
        rw [wp_startThread_os _ hcreated hintime]
        simp only [runthread, Os.calls, exchangePidSet, Exec.wp_bind, wp_call, wp_setPid_iff,
          Exec.wp_modify, Option.isNone_none, if_true, Exec.wp_throw, Bool.true_eq_false, and_false]

/-- **One operation** goes through and keeps the column exactly where it meets `Keeps`. -/
theorem PidOp.keeps_iff {op : PidOp} (h : PidsMatch p) (hfresh : op.Fresh p)
    (hlate : ¬op.Late p) :
    op.Keeps base p ↔ ∃ p', op.step base p = some p' ∧ PidsMatch p' := by
  rw [op.exists_step_iff]
  cases op with
  | run name bash attach fork => exact runService_keeps h name bash attach hfresh hlate
  | restart serviceName bash attach fork =>
    exact restartService_keeps h serviceName bash attach hlate
  | stop serviceName => exact stopService_keeps h serviceName
  | remove serviceName => exact normalDeleteServices_keeps h serviceName
  | exit => exact iff_of_true trivial (Exec.wp_total.mpr h)

end specs

/-- **The pid column matches the processes** after every operation of a run, the run goes
through and no thread of it is late, exactly where every operation of it meets `Keeps`. -/
theorem pids_match_iff (base : Calls W) (ops : List PidOp) {p : Process (Os W)}
    (h : PidsMatch p) (hfresh : Guarded (PidOp.step base) (fun p op => op.Fresh p) ops p) :
    Guarded (PidOp.step base) (fun p op => op.Keeps base p) ops p ↔
      Guarded (PidOp.step base) (fun p op => ¬op.Late p) ops p ∧
        (∃ p', runs (PidOp.step base) ops p = some p') ∧
        Every (PidOp.step base) (fun _ _ p' => PidsMatch p') ops p := by
  have hexact (hlate : Guarded (PidOp.step base) (fun p op => ¬op.Late p) ops p) :=
    guarded_iff (fun hI hA => PidOp.keeps_iff hI hA.1 hA.2) ops h (hfresh.and hlate)
  constructor
  · intro hkeeps
    have hlate := guarded_mono PidOp.Keeps.not_late ops hkeeps
    exact ⟨hlate, (hexact hlate).mp hkeeps⟩
  · rintro ⟨hlate, hall⟩
    exact (hexact hlate).mpr hall

/-- Two stopped services `a` and `b`, nothing alive, and no update under way. -/
def bothStopped : Process (Os Unit) where
  files := fun path => if path = .file .updateStatus then some idleText else none
  world := ⟨fun _ => false, ()⟩
  services := .ofList [⟨.ofBytes [114], .ofBytes [97], 0, true⟩,
    ⟨.ofBytes [114], .ofBytes [98], 0, true⟩]
  jobs := .blank 4 4
  envs := .blank 20 20
  limits := .blank 4 4
  reformatState := true
  reformatLimits := true

theorem bothStopped_matches : PidsMatch bothStopped where
  freeNotLive := rfl
  once := fun _ h => by cases h
  live_of_mem := by decide

/-- One process starts `a` and then `b` without a wait, the next one stops `a`. -/
def twoStarts : List PidOp :=
  [.run (.ofBytes [97]) none false { pid := 5 }, .run (.ofBytes [98]) none false { pid := 6 },
    .exit, .stop (.ofBytes [97])]

theorem pids_match_twoStarts :
    Guarded (PidOp.step (.allWell 1)) (fun p op => op.Keeps (.allWell 1) p) twoStarts
        bothStopped ↔
      Guarded (PidOp.step (.allWell 1)) (fun p op => ¬op.Late p) twoStarts bothStopped ∧
        (∃ p', runs (PidOp.step (.allWell 1)) twoStarts bothStopped = some p') ∧
        Every (PidOp.step (.allWell 1)) (fun _ _ p' => PidsMatch p') twoStarts bothStopped :=
  pids_match_iff _ _ bothStopped_matches (by decide)

/-- `a` is started by two processes: the one with pid 5 is alive, and no service has its pid. -/
theorem not_pids_match :
    ¬∀ (base : Calls Unit) (ops : List PidOp) (p : Process (Os Unit)), PidsMatch p →
      Guarded (PidOp.step base) (fun p op => op.Fresh p) ops p →
        Every (PidOp.step base) (fun _ _ p' => PidsMatch p') ops p := by
  intro h
  have hall := h (.allWell 1) [.run (.ofBytes [97]) none false { pid := 5 }, .exit,
    .run (.ofBytes [97]) none false { pid := 6 }] bothStopped bothStopped_matches (by decide)
  obtain ⟨-, hend⟩ := every_cons.mp hall _ rfl
  obtain ⟨-, hsecond⟩ := every_cons.mp hend _ rfl
  obtain ⟨hmatch, -⟩ := every_cons.mp hsecond _ rfl
  exact absurd (hmatch.once 5 rfl) (by decide)

end MiniRunner
