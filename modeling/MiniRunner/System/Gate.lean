import MiniRunner.System.Updates

/-!
# The gate of the update status

No service is started while the update status does not read `idle`. `Shut` is a status that
no resizing makes idle, together with the number of services started so far; each command of
a process keeps it, the constructor and the destructor do, and so does an update that does
not come to its end. So a gate that an update has shut stays shut over any processes but those
that open it.
-/

namespace MiniRunner.System

open Clib MiniRunner Process Update

variable {W : Type} {n : Nat}

/-! ## A shut gate -/

/-- A status that does not read idle, however often it is resized. -/
structure ReadsShut (status : Bytes) : Prop where
  stored : status ≠ []
  shut : status.take idleText.length ≠ idleText

theorem ReadsShut.not_isIdle {status : Bytes} (h : ReadsShut status) : isIdle status = false := by
  rw [isIdle, beq_eq_false_iff_ne]
  intro hidle
  have hprefix : (CStr.ofBytes status).bytes <+: status := List.takeWhile_prefix _
  rw [hidle] at hprefix
  exact h.shut (List.prefix_iff_eq_take.mp hprefix).symm

/-- A resized status has no more than zeros behind what it had. -/
theorem ReadsShut.ftruncate {status : Bytes} (h : ReadsShut status) {size : Nat}
    (hsize : idleText.length ≤ size) : ReadsShut (Clib.ftruncate size status) := by
  refine ⟨fun hnil => ?_, fun hidle => h.shut ?_⟩
  · have hlen := congrArg List.length hnil
    rw [length_ftruncate, List.length_nil] at hlen
    rw [hlen] at hsize
    exact absurd hsize (by decide)
  · rw [Clib.ftruncate] at hidle
    by_cases hlen : idleText.length ≤ status.length
    · have hfits : idleText.length ≤ (status.take size).length := by
        rw [List.length_take]
        omega
      rwa [List.take_append_of_le_length hfits, List.take_take, Nat.min_eq_left hsize] at hidle
    · -- a zero is among the first bytes
      have hzero : (0 : UInt8) ∈ (status.take size ++ List.replicate (size - status.length) 0).take
          idleText.length := by
        refine List.mem_iff_getElem?.mpr ⟨status.length, ?_⟩
        rw [List.getElem?_take_of_lt (by omega), List.take_of_length_le (by omega),
          List.getElem?_append_right le_rfl, Nat.sub_self, List.getElem?_replicate,
          if_pos (by omega)]
      rw [hidle] at hzero
      exact absurd hzero (by decide)

/-- The gate is shut, and so many services were started. -/
def Shut (n : Nat) (p : Process (Counted W)) : Prop :=
  ReadsShut (p.files.content (.file .updateStatus)) ∧ p.world.launches = n

/-! ## The commands -/

section commands

variable {base : Calls W} {α : Type}

theorem shut_aside (f : W → α × W) :
    Exec.Keeps (Shut n) (call (Counted.aside f) : Exec (Process (Counted W)) α) := fun _ h =>
  wp_call.mpr h

theorem shut_onServices (f : Table Service → Except Halt (α × Table Service)) :
    Exec.Keeps (Shut n) (onServices f : Exec (Process (Counted W)) α) := fun p h => by
  rw [wp_onServices]
  cases f p.services <;> exact h

theorem shut_onJobs (f : Table Job → Except Halt (α × Table Job)) :
    Exec.Keeps (Shut n) (onJobs f : Exec (Process (Counted W)) α) := fun p h => by
  rw [wp_onJobs]
  cases f p.jobs <;> exact h

theorem shut_onEnvs (f : Table Env → Except Halt (α × Table Env)) :
    Exec.Keeps (Shut n) (onEnvs f : Exec (Process (Counted W)) α) := fun p h => by
  rw [wp_onEnvs]
  cases f p.envs <;> exact h

theorem shut_onLimits (f : Table Limit → Except Halt (α × Table Limit)) :
    Exec.Keeps (Shut n) (onLimits f : Exec (Process (Counted W)) α) := fun p h => by
  rw [wp_onLimits]
  cases f p.limits <;> exact h

theorem shut_findService (name : CStr) :
    Exec.Keeps (Shut n) (findService name : Exec (Process (Counted W)) _) := fun _ h =>
  wp_findService.mpr h

theorem shut_killProcess (pid : BitVec 32) :
    Exec.Keeps (Shut n) (killProcess (Counted.calls base) pid) :=
  .bind (shut_aside _) fun _ => .ite (fun _ => .pure _) fun _ =>
    .bind (shut_aside _) fun _ => .ite (fun _ => .pure _) fun _ => .pure _

theorem shut_killService (pid : BitVec 32) :
    Exec.Keeps (Shut n) (killService (Counted.calls base) pid) :=
  .ite (fun _ => .pure _) fun _ => shut_killProcess pid

theorem shut_addProject (githubRepo nickName : CStr) :
    Exec.Keeps (Shut n) (addProject (Counted.calls base) githubRepo nickName) := by
  refine .bind (shut_onServices _) fun _ => .ite (fun _ => .pure _) fun _ =>
    .bind (shut_aside _) fun cloned => ?_
  cases cloned with
  | gaveUp => exact .throw _
  | failed => exact .pure _
  | done => exact .bind (.modify fun _ h => h) fun _ => .pure _

theorem shut_normalDeleteServices (serviceName : CStr) :
    Exec.Keeps (Shut n) (normalDeleteServices (Counted.calls base) serviceName) := by
  have hfolder : ∀ name, Exec.Keeps (Shut n) (deleteFromPcFolder (Counted.calls base) name) :=
    fun _ => .ite (fun _ => .throw _) fun _ => .bind (shut_aside _) fun _ =>
      .ite (fun _ => .pure _) fun _ => .bind (shut_aside _) fun _ =>
        .ite (fun _ => .pure _) fun _ => .pure _
  refine .get_bind fun _ _ => .ite (fun _ => .pure _) fun _ =>
    .bind (shut_findService _) fun found => ?_
  cases found with
  | none => exact .pure _
  | some s =>
    refine .bind (hfolder _) fun _ => .ite (fun _ => .pure _) fun _ =>
      .bind (shut_onServices _) fun _ => .get_bind fun _ _ => .ite (fun _ => ?_) fun _ => ?_
    · exact .bind (shut_killService _) fun _ => .bind (shut_onLimits _) fun _ =>
        .ite (fun _ => .pure _) fun _ => .pure _
    · exact .bind (shut_onLimits _) fun _ => .ite (fun _ => .pure _) fun _ =>
        .bind (shut_killService _) fun _ => .pure _

theorem shut_stopAll (names : List CStr) :
    Exec.Keeps (Shut n) (stopAll (Counted.calls base) names) := by
  have hone : ∀ name, Exec.Keeps (Shut n) (stopService (Counted.calls base) name) := by
    intro name
    refine .bind (shut_findService _) fun found => ?_
    cases found with
    | none => exact .pure _
    | some s =>
      exact .ite (fun _ => .pure _) fun _ => .bind (shut_killProcess _) fun _ =>
        .ite (fun _ => .pure _) fun _ => .bind (shut_aside _) fun _ => .ite (fun _ => .pure _)
          fun _ => .bind (fun _ h => Exec.wp_total.mpr h) fun _ => .pure _
  induction names with
  | nil => exact .pure _
  | cons name names ih => exact .bind (hone name) fun _ => ih

theorem shut_renameService (serviceName newName : CStr) :
    Exec.Keeps (Shut n) (renameService (Counted.calls base) serviceName newName) := by
  refine .get_bind fun _ _ => .ite (fun _ => .pure _) fun _ =>
    .bind (shut_findService _) fun found => ?_
  cases found with
  | none => exact .pure _
  | some s =>
    refine .bind (shut_aside _) fun _ => .ite (fun _ => .pure _) fun _ =>
      .bind (shut_aside _) fun _ => .ite (fun _ => ?_) fun _ => ?_
    · exact .bind (shut_aside _) fun _ => .pure _
    · refine .bind (shut_onLimits _) fun _ => .ite (fun _ => ?_) fun _ => ?_
      · exact .bind (shut_aside _) fun _ => .ite
          (fun _ => .bind (shut_aside _) fun _ => .pure _) fun _ => .pure _
      · exact fun _ h => Exec.wp_total.mpr h

/-- **The gate turns a start away.** -/
theorem shut_updateAvialable {f : Bool → Exec (Process (Counted W)) α}
    (hf : Exec.Keeps (Shut n) (f true)) : Exec.Keeps (Shut n) (updateAvialable >>= f) := by
  intro p h
  rw [Exec.wp_bind, wp_updateAvialable, if_neg h.1.stored, h.1.not_isIdle]
  refine hf _ ⟨?_, h.2⟩
  rw [sawStatus, FileStore.content_openCreate]
  exact h.1

theorem shut_runService (name : CStr) (bash : Option CStr) (attach : Bool) :
    Exec.Keeps (Shut n) (runService (Counted.calls base) name bash attach) :=
  .get_bind fun _ _ => .ite (fun _ => .pure _) fun _ => .ite (fun _ => .pure _) fun _ =>
    shut_updateAvialable (.ite (fun _ => .pure _) fun hno => absurd rfl hno)

theorem shut_restartService (serviceName : CStr) (bash : Option CStr) (attach : Bool) :
    Exec.Keeps (Shut n) (restartService (Counted.calls base) serviceName bash attach) := by
  have hwarm : ∀ i, Exec.Keeps (Shut n) (warmService (Counted.calls base) i serviceName
      (some (bash.getD defaultScript)) attach) := fun _ =>
    .ite (fun _ => .pure _) fun _ =>
      shut_updateAvialable (.ite (fun _ => .pure _) fun hno => absurd rfl hno)
  refine .bind (fun _ h => wp_findSlot.mpr h) fun found => ?_
  cases found with
  | none => exact .pure _
  | some i =>
    refine .get_bind fun _ _ => .bind (shut_killService _) fun _ => .ite (fun _ => .pure _)
      fun _ => .bind (hwarm i) fun _ => .ite (fun _ => .pure _) fun _ =>
        .get_bind fun _ _ => .bind (shut_aside _) fun _ => .ite (fun _ => ?_) fun _ => .pure _
    exact .bind (shut_killService _) fun _ => .ite (fun _ => .pure _) fun _ => .pure _

theorem shut_limitService (serviceName : CStr) (write : BitVec 32 → W → Int × W)
    (cpu : BitVec 64) (memory : BitVec 128) {missing : Exec (Process (Counted W)) Int}
    (hmissing : Exec.Keeps (Shut n) missing) :
    Exec.Keeps (Shut n) (limitService serviceName (fun pid => Counted.aside (write pid)) cpu memory
      missing) := by
  refine .bind (shut_findService _) fun found => ?_
  cases found with
  | none => exact hmissing
  | some s =>
    exact .ite (fun _ => .pure _) fun _ => .bind (shut_aside _) fun _ => .ite (fun _ => .pure _)
      fun _ => .bind (shut_onLimits _) fun _ => .ite (fun _ => .pure _) fun _ => .pure _

theorem shut_markLimits : Exec.Keeps (Shut n) (markLimits : Exec (Process (Counted W)) Unit) :=
  .modify fun _ h => h

theorem shut_setLimitCpu (serviceName : CStr) (cpu : BitVec 64) (mem : Option Amount) :
    Exec.Keeps (Shut n) (setLimitCpu (Counted.calls base) serviceName cpu mem) := by
  have hset : ∀ limitMemory memBytes, Exec.Keeps (Shut n)
      (setCpuResourceLimit (Counted.calls base) serviceName cpu limitMemory memBytes) :=
    fun _ _ => shut_limitService _ _ _ _ (.pure _)
  cases mem with
  | none =>
    exact .bind (hset _ _) fun _ => .ite (fun _ => .pure _) fun _ =>
      .bind shut_markLimits fun _ => .pure _
  | some amount =>
    refine .ite (fun _ => .pure _) fun _ => ?_
    cases amount with
    | standard bytes =>
      exact .bind (hset _ _) fun _ => .ite (fun _ => .pure _) fun _ =>
        .bind shut_markLimits fun _ => .pure _
    | custom bytes | extreme bytes =>
      exact .bind (hset _ _) fun _ => .ite (fun _ => .bind shut_markLimits fun _ => .pure _)
        fun _ => .pure _

theorem shut_setLimitMem (serviceName : CStr) (amount : Amount) :
    Exec.Keeps (Shut n) (setLimitMem (Counted.calls base) serviceName amount) :=
  .ite (fun _ => .pure _) fun _ => .bind (shut_limitService _ _ _ _ (.throw _)) fun _ =>
    .ite (fun _ => .pure _) fun _ => .bind shut_markLimits fun _ => .pure _

theorem shut_failing {op : Exec (Process (Counted W)) Int} (hop : Exec.Keeps (Shut n) op) :
    Exec.Keeps (Shut n) (failing op) :=
  .bind hop fun _ => .ite (fun _ => .pure _) fun _ => .pure _

/-- **No command opens the gate**, or starts a service. -/
theorem shut_command (cmd : Command) : Exec.Keeps (Shut n) (cmd.exec (Counted.calls base)) := by
  cases cmd with
  | add githubLink nickName =>
    exact .ite (fun _ => .pure _) fun _ => .ite (fun _ => .pure _) fun _ =>
      shut_failing (shut_addProject githubLink nickName)
  | remove serviceName =>
    exact .bind (shut_normalDeleteServices serviceName) fun _ =>
      .bind shut_markLimits fun _ => .pure _
  | run name bash attach =>
    exact .ite (fun _ => .pure _) fun _ => .bind (shut_runService name bash attach) fun _ => .pure _
  | stop names => exact .bind (shut_stopAll names) fun _ => .pure _
  | restart serviceName bash attach =>
    exact shut_failing (shut_restartService serviceName bash attach)
  | rename oldName newName =>
    exact .ite (fun _ => .pure _) fun _ => .bind (shut_renameService oldName newName) fun _ =>
      .bind shut_markLimits fun _ => .pure _
  | setLimit serviceName cpu declined mem =>
    cases cpu with
    | none =>
      cases mem with
      | none => exact .pure _
      | some amount => exact shut_setLimitMem serviceName amount
    | some cpu => exact .ite (fun _ => .pure _) fun _ => shut_setLimitCpu serviceName cpu mem
  | addJob jobName runnableFile timeInSeconds =>
    exact .ite (fun _ => .pure _) fun _ => .ite (fun _ => .pure _) fun _ =>
      .bind (shut_aside _) fun _ => .ite (fun _ => .pure _) fun _ => .ite (fun _ => .pure _)
        fun _ => .bind (shut_aside _) fun _ => shut_failing (shut_onJobs _)
  | removeJob jobName => exact shut_failing (shut_onJobs _)
  | addEnv name key value => exact .ite (fun _ => .pure _) fun _ => shut_failing (shut_onEnvs _)
  | updateEnv name key value => exact .ite (fun _ => .pure _) fun _ => shut_failing (shut_onEnvs _)
  | removeEnv name key => exact shut_failing (shut_onEnvs _)

end commands

/-! ## Updates -/

section updates

variable {base : Puller W} {p : Process (Counted W)}

theorem shut_updateFoundService (foundService : Service) (stop : Bool) :
    Exec.Keeps (Shut n) (updateFoundService (Counted.puller base) foundService stop) := by
  have hhear : ∀ message, Exec.Keeps (Shut n)
      (hear message : Exec (Process (Counted W)) Int) := fun _ =>
    .ite (fun _ => .throw _) fun _ => .ite (fun _ => .pure _) fun _ => .pure _
  have hchild : Exec.Keeps (Shut n) (child (Counted.puller base) foundService.name) :=
    .bind (shut_aside _) fun _ => .ite (fun _ => .pure _) fun _ =>
      .bind (shut_aside _) fun _ => .ite (fun _ => .pure _) fun _ => .pure _
  have hpull : Exec.Keeps (Shut n) (pull (Counted.puller base) foundService.name) :=
    .bind (shut_aside _) fun _ => .ite (fun _ => .pure _) fun _ => .bind (shut_aside _) fun _ =>
      .ite (fun _ => .bind hchild fun _ => hhear _) fun _ => hhear _
  exact .ite (fun _ => .bind (shut_aside _) fun _ => hpull) fun _ => hpull

theorem shut_written {fs fs' : Files} {text : Bytes} {rc : Int}
    (h : ReadsShut (fs.content (.file .updateStatus))) (hwritten : Written fs text rc fs')
    (hsize : idleText.length ≤ text.length) (hrc : rc ≠ 0 ∨ ReadsShut text) :
    ReadsShut (fs'.content (.file .updateStatus)) := by
  by_cases hzero : rc = 0
  · rw [hwritten.success hzero]
    exact hrc.resolve_left (not_not.mpr hzero)
  · rcases hwritten.failure hzero with heq | heq
    · rwa [heq]
    · rw [heq]
      exact h.ftruncate hsize

theorem shut_writeStatus (fails : Option StatusStep) {text : Bytes}
    (hsize : idleText.length ≤ text.length) (h : Shut n p) :
    Exec.wp (onFiles (writeUpdateAvialable fails text))
      (fun rc p' => rc ≠ 0 ∨ ReadsShut text → Shut n p') (fun _ _ => False) p := by
  rw [wp_onFiles]
  have hne : text ≠ [] := by
    rintro rfl
    exact absurd hsize (by decide)
  exact Exec.wp_mono (wp_writeUpdateAvialable fails hne p.files)
    (fun _ _ hwritten hrc => ⟨shut_written h.1 hwritten hsize hrc, h.2⟩) fun _ _ hno => hno

/-- An update that aborts leaves the gate shut. -/
theorem shut_updateService (fails : Option StatusStep × Option StatusStep) (serviceName : CStr)
    (stop : Bool) (h : Shut n p) :
    Exec.wp (Update.updateService (Counted.puller base) fails serviceName stop)
      (fun _ _ => True) (fun _ p' => Shut n p') p := by
  have hupdating : ReadsShut updatingText := ⟨by decide, by decide⟩
  simp only [Update.updateService, Exec.wp_bind, Exec.wp_get, Exec.wp_ite, Exec.wp_pure,
    wp_findService, implies_true, true_and]
  intro _
  cases p.services.items.find? (·.name == serviceName) with
  | none => exact (Exec.wp_pure _).mpr trivial
  | some foundService =>
    simp only [Exec.wp_bind, Exec.wp_ite, Exec.wp_throw, Exec.wp_pure, implies_true, and_true]
    refine Exec.wp_mono (shut_writeStatus fails.1 (by decide) h) ?_ fun _ _ hno => hno.elim
    intro rc p₁ h₁
    refine ⟨fun _ => h₁ (.inr hupdating), fun _ => ?_⟩
    refine Exec.wp_mono (shut_updateFoundService foundService stop p₁ (h₁ (.inr hupdating))) ?_
      fun _ _ h₂ => h₂
    intro rc p₂ h₂
    refine ⟨fun _ => h₂, fun _ => ?_⟩
    exact Exec.wp_mono (shut_writeStatus fails.2 (by decide) h₂) (fun rc p₃ h₃ hrc => h₃ (.inl hrc))
      fun _ _ hno => hno.elim

end updates

/-! ## Whole processes -/

theorem shut_onFiles {α : Type} {x : Exec Files α}
    (hx : Exec.Keeps (fun fs => ReadsShut (fs.content (.file .updateStatus))) x) :
    Exec.Keeps (Shut n) (onFiles x : Exec (Process (Counted W)) α) := fun p h => by
  rw [wp_onFiles]
  exact Exec.wp_mono (hx p.files h.1) (fun _ _ hfs => ⟨hfs, h.2⟩) fun _ _ hfs => ⟨hfs, h.2⟩

/-- The constructor writes a status only where there is none. -/
theorem shut_init : Exec.Keeps (Shut n) (init : Exec (Process (Counted W)) Unit) := by
  have hread : ∀ s, Exec.Keeps (Shut n) (readStore s : Exec (Process (Counted W)) Bytes) := by
    intro s
    refine .bind (shut_onFiles (.modify fun fs h => ?_)) fun _ => .get_bind fun _ _ => .pure _
    rwa [FileStore.content_openCreate]
  have hload {α : Type} {s : Store} {decode : Bytes → Except Halt α}
      {set : α → Process (Counted W) → Process (Counted W)}
      {rest : α → Exec (Process (Counted W)) Unit} (hset : ∀ a p, Shut n p → Shut n (set a p))
      (hrest : ∀ a, Exec.Keeps (Shut n) (rest a)) :
      Exec.Keeps (Shut n) (readStore s >>= fun bs => Exec.ofExcept (decode bs) >>= fun a =>
        modify (set a) >>= fun _ => rest a) :=
    .bind (hread s) fun _ => .bind (.ofExcept _) fun a => .bind (.modify (hset a)) fun _ => hrest a
  have hbackup : ∀ {src dest : Path}, dest ≠ .file .updateStatus → ∀ count,
      Exec.Keeps (Shut n) (onFiles (backupUnlessEmpty count src dest) :
        Exec (Process (Counted W)) Int) := by
    refine fun hdest count => shut_onFiles fun fs h => ?_
    rw [wp_backupUnlessEmpty, content_backupFiles_of_ne (Ne.symm hdest)]
    exact h
  refine .bind (shut_onFiles (.modify fun fs h => ?_)) fun _ => ?_
  · rw [content_initiateMemoryPtr, if_pos rfl, statusText]
    split
    · rename_i hnone
      rw [Option.isNone_iff_eq_none] at hnone
      exact absurd (by rw [FileStore.content, hnone]; rfl) h.stored
    · exact h
  refine hload (fun _ _ h => h) fun _ => hload (fun _ _ h => h) fun _ =>
    hload (fun _ _ h => h) fun _ => hload (fun _ _ h => h) fun _ => ?_
  exact .bind (hbackup (by decide) _) fun _ => .ite (fun _ => .throw _) fun _ =>
    .bind (hbackup (by decide) _) fun _ => .ite (fun _ => .throw _) fun _ => .pure _

/-- The destructor writes no status. -/
theorem shut_closeProcess {p : Process (Counted W)} (h : Shut n p) :
    Exec.wp closeProcess (fun _ p' => Shut n p') (fun e p' => e = .aborted → Shut n p') p := by
  have hfiles : ∀ {α : Type} (x : Exec Files α), Exec.Keeps (fun p => p.world.launches = n)
      (onFiles x : Exec (Process (Counted W)) α) := fun x p hp => by
    rw [wp_onFiles]
    exact Exec.wp_of_forall (fun _ _ => hp) fun _ _ => hp
  have hworld : Exec.Keeps (fun p => p.world.launches = n)
      (closeProcess : Exec (Process (Counted W)) Unit) := by
    have hstate : Exec.Keeps (fun p => p.world.launches = n)
        (saveState : Exec (Process (Counted W)) Unit) := by
      refine .get_bind fun p _ => .bind (hfiles _) fun rc => ?_
      have hback : ∀ rc : Int, Exec.Keeps (fun p => p.world.launches = n) (if rc ≠ 0 then do
          if (← onFiles (applyBackup p.services.items.length)) ≠ 0 then throw .aborted
          else if (← onFiles (applyBackupForjobs p.jobs.items.length)) ≠ 0 then throw .aborted
          else throw .aborted
        else pure () : Exec (Process (Counted W)) Unit) := fun _ =>
        .ite (fun _ => .bind (hfiles _) fun _ => .ite (fun _ => .throw _) fun _ =>
          .bind (hfiles _) fun _ => .ite (fun _ => .throw _) fun _ => .throw _) fun _ => .pure _
      exact .ite (fun _ => .bind (.pure rc) hback) fun _ => .bind (hfiles _) hback
    have hrest : Exec.Keeps (fun p => p.world.launches = n)
        (saveRest : Exec (Process (Counted W)) Unit) :=
      .get_bind fun _ _ => .bind (hfiles _) fun _ => .ite (fun _ => .throw _) fun _ =>
        .ite (fun _ => .bind (hfiles _) fun _ => .ite (fun _ => .throw _) fun _ => .pure _)
          fun _ => .pure _
    exact .get_bind fun _ _ => .ite (fun _ => .bind hstate fun _ => hrest) fun _ => hrest
  have hclosed {p' : Process (Counted W)} (hfiles : Closed p p'.files)
      (hlaunches : p'.world.launches = n) : Shut n p' := by
    refine ⟨?_, hlaunches⟩
    rw [hfiles.files _ (by decide)]
    exact h.1
  refine Exec.wp_mono (Exec.wp_and (wp_closeProcess p) (hworld p h.2)) ?_ ?_
  · rintro _ p' ⟨⟨-, hfiles⟩, hlaunches⟩
    exact hclosed hfiles hlaunches
  · rintro e p' ⟨⟨rfl, -⟩ | ⟨-, -, hfiles⟩, hlaunches⟩ he
    · cases he
    · exact hclosed hfiles hlaunches

theorem closeProcess_unmarked {p : Process W} (h : p.reformatLimits = false) :
    Exec.wp closeProcess (fun _ _ => True) (fun e _ => e ≠ .aborted) p := by
  refine Exec.wp_mono (wp_closeProcess p) (fun _ _ _ => trivial) ?_
  rintro e p' (⟨rfl, -⟩ | ⟨-, hover, -⟩)
  · decide
  · exact absurd (h.symm.trans hover.1) Bool.false_ne_true

/-- What may open the gate: an update that comes to its end, and neglecting the updates. -/
def Errand.Event.mayOpen (e : Errand.Event) : Prop :=
  match e.errand with
  | .command _ => False
  | .update _ _ => e.outcome ≠ .aborts
  | .neglect => True

/-- **A process leaves a shut gate shut**, unless it is one that may open it. -/
theorem ErrandStep.shut {fs fs' : Files} {n n' : Nat} {e : Errand.Event}
    (hstep : ErrandStep (fs, n) e (fs', n')) (hno : ¬e.mayOpen)
    (h : ReadsShut (fs.content (.file .updateStatus))) :
    ReadsShut (fs'.content (.file .updateStatus)) ∧ n' = n := by
  have hwhole {W : Type} {out : Outside W} {errand : Errand} (w : W)
      {Q : Process (Counted W) → Prop} (hexec : ∀ p, Shut n p → p.reformatLimits = false →
        Exec.wp (errand.exec out.counted) (fun _ p' => Exec.wp closeProcess (fun _ p' => Q p')
          (fun e p' => e = .aborted → Shut n p') p') (fun _ p' => Shut n p') p) :
      Exec.wp (wholeProcess (errand.exec out.counted)) (fun _ p' => Q p')
        (fun e p' => e = .aborted → Shut n p') (.start fs ⟨w, n⟩) := by
    simp only [wholeProcess, Exec.wp_bind, Exec.wp_pure]
    have hstart : Shut n (Process.start fs (⟨w, n⟩ : Counted W)) := ⟨h, rfl⟩
    have hinit := wp_init fs (⟨w, n⟩ : Counted W)
    refine Exec.wp_mono (Exec.wp_and (shut_init _ hstart) hinit) ?_ fun _ _ hp _ => hp.1
    rintro _ p ⟨hp, hloaded⟩
    exact Exec.wp_mono (hexec p hp hloaded.reformatLimits) (fun _ _ hclose => hclose)
      fun _ _ hp' _ => hp'
  have hcommand {W : Type} (out : Outside W) (cmd : Command) (w : W) :
      Exec.wp (wholeProcess ((Errand.command cmd).exec out.counted)) (fun _ p' => Shut n p')
        (fun e p' => e = .aborted → Shut n p') (.start fs ⟨w, n⟩) :=
    hwhole w fun p hp _ => Exec.wp_mono (shut_command cmd p hp) (fun _ _ => shut_closeProcess)
      fun _ _ hp' => hp'
  cases hstep with
  | @exits W out errand _ _ w rc p hrun =>
    cases errand with
    | command cmd => exact Exec.wp_run_ok (Q := fun _ p' => Shut n p') (hcommand out cmd w) hrun
    | update serviceName stop => exact absurd Outcome.noConfusion hno
    | neglect => exact absurd trivial hno
  | @aborts W out errand _ _ w p hrun =>
    cases errand with
    | command cmd =>
      exact Exec.wp_run_error (E := fun e p' => e = .aborted → Shut n p') (hcommand out cmd w) hrun
        rfl
    | update serviceName stop =>
      have hupdate : Exec.wp (wholeProcess ((Errand.update serviceName stop).exec out.counted))
          (fun _ _ => True) (fun e p' => e = .aborted → Shut n p') (.start fs ⟨w, n⟩) := by
        refine hwhole w fun p hp hunmarked => ?_
        simp only [Errand.exec, Exec.wp_bind, Exec.wp_pure]
        refine Exec.wp_mono (Exec.wp_and (shut_updateService out.fails serviceName stop hp)
          (Update.wp_updateService out.fails serviceName stop)) ?_ fun _ _ hp' => hp'.1
        rintro _ _ ⟨-, w', fs', rfl, -⟩
        exact Exec.wp_mono (closeProcess_unmarked hunmarked) (fun _ _ h => h)
          fun e _ he heq => absurd heq he
      exact Exec.wp_run_error (E := fun e p' => e = .aborted → Shut n p') hupdate hrun rfl
    | neglect => exact absurd trivial hno

/-- **What has shut the gate keeps it shut**: over any processes none of which may open it, no
service is started. -/
theorem stays_shut {events : List Errand.Event} {fs : Files} {n : Nat} {s : Files × Nat}
    (hrun : Steps ErrandStep events (fs, n) s) (hno : ∀ e ∈ events, ¬e.mayOpen)
    (h : ReadsShut (fs.content (.file .updateStatus))) :
    ReadsShut (s.1.content (.file .updateStatus)) ∧ s.2 = n := by
  have hinv : ∀ {s e t}, ¬e.mayOpen →
      ReadsShut (s.1.content (.file .updateStatus)) ∧ s.2 = n → ErrandStep s e t →
      ReadsShut (t.1.content (.file .updateStatus)) ∧ t.2 = n := by
    rintro ⟨fs, m⟩ e ⟨fs', m'⟩ hno ⟨hshut, rfl⟩ hstep
    exact hstep.shut hno hshut
  exact Steps.inv_of_forall (I := fun s : Files × Nat =>
    ReadsShut (s.1.content (.file .updateStatus)) ∧ s.2 = n) hinv hrun hno ⟨h, rfl⟩

/-- The services `a` and `b`, behind an update that has failed. -/
def shutServices : Files := twoServices.put (.file .updateStatus) updatingText

/-- `run a` reports success and starts nothing, and another update fails. -/
theorem stays_shut_runAndUpdate : ∃ s : Files × Nat,
    Steps ErrandStep [⟨.command (.run (.ofBytes [97]) none false), .exits 0⟩,
        ⟨.update (.ofBytes [97]) true, .aborts⟩] (shutServices, 0) s ∧
      ReadsShut (s.1.content (.file .updateStatus)) ∧ s.2 = 0 := by
  have houtcomes : outcomesOf [.command (.run (.ofBytes [97]) none false),
      .update (.ofBytes [97]) true] (shutServices, 0) = some [.exits 0, .aborts] := by
    decide +kernel
  obtain ⟨s, hsteps⟩ := exists_steps houtcomes
  have hshut : ReadsShut (shutServices.content (.file .updateStatus)) := ⟨by decide, by decide⟩
  exact ⟨s, hsteps, stays_shut hsteps (by simp [Errand.Event.mayOpen]) hshut⟩

end MiniRunner.System
