import MiniRunner.Argv.Once

/-!
# The loop runs the commands

For a clear command that works on the data files, `main` with the operations of this
development does what `Command.exec` says: the loop, the operands and the conversions
disappear (`mainLoop_command`).
-/

namespace MiniRunner.Argv

open Clib Process

variable {D W : Type}

/-- The operations of this development. What the others do is left open, a quota is computed
from a number of cores by `quota`, and the question of `set-limit` is answered with `given`. -/
def processProgram (sys : Calls W) (quota : D → BitVec 64)
    (other : Operation D → Exec (Process W) Int) (given : CStr) : Program D (Process W) where
  perform
    | .addProject githubLink nickName => MiniRunner.addProject sys githubLink nickName
    | .normalDeleteServices (some serviceName) => MiniRunner.normalDeleteServices sys serviceName
    | .runService name bash attach => MiniRunner.runService sys name bash attach
    | .stopService name => MiniRunner.stopService sys name
    | .restartService serviceName bash attach =>
      MiniRunner.restartService sys serviceName bash attach
    | .renameService oldName newName => do
      MiniRunner.renameService sys oldName newName
      pure 0
    | .setCpuResourceLimit serviceName cpuLimit limitMemory memBytes =>
      MiniRunner.setCpuResourceLimit sys serviceName (quota cpuLimit) limitMemory memBytes
    | .setMemoryLimit serviceName memBytes => MiniRunner.setMemoryLimit sys serviceName memBytes
    | .createJob jobName runnableFile timeInSeconds => do
      let now ← call sys.time
      onJobs (MiniRunner.createJob jobName runnableFile timeInSeconds now)
    | .removeJob jobName => onJobs fun t => .ok (MiniRunner.removeJob jobName t)
    | .addEnv name key value => onEnvs (MiniRunner.addEnv name key value)
    | .updateEnv name key value => onEnvs fun t => .ok (MiniRunner.updateEnv name key value t)
    | .removeEnv name key => onEnvs fun t => .ok (MiniRunner.removeEnv name key t)
    | op => other op
  fileExists path := call (sys.fileExists path)
  answer := pure (some given)
  markLimits p := { p with reformatLimits := true }
  keepState p := { p with reformatState := false }

/-- The command behind a documented one, if it works on the data files. -/
def Usage.command (fl : Doubles D) (quota : D → BitVec 64) : Usage → Option Command
  | .add githubRepo serviceName => some (.add githubRepo serviceName)
  | .remove serviceName => some (.remove serviceName)
  | .run serviceName bash attach => some (.run serviceName bash attach)
  | .stop serviceName => some (.stop [serviceName])
  | .restart serviceName bash attach => some (.restart serviceName bash attach)
  | .rename oldName newName => some (.rename oldName newName)
  | .setLimit serviceName cores amount => some (.setLimit serviceName
      ((cores.bind (convertToFloat fl)).map quota) false
      (amount.bind fun x => Usage.amountOf fl x.1 (x.2.getD .standard)))
  | .addJob jobName runnableFile interval =>
    some (.addJob jobName runnableFile (formatTime fl interval))
  | .removeJob jobName => some (.removeJob jobName)
  | .addEnv serviceName key value => some (.addEnv serviceName key value)
  | .updateEnv serviceName key value => some (.updateEnv serviceName key value)
  | .removeEnv serviceName key => some (.removeEnv serviceName key)
  | _ => none

/-- The branch does what the command does, and goes on where the command returns 0. -/
def Simulates (x : Exec (Process W) Int) (y : Exec (Called D (Process W)) Flow) : Prop :=
  ∀ (Q : Int → Process W → Prop) (E : Halt → Process W → Prop) (c : Called D (Process W)),
    Exec.wp x Q E c.state → Exec.wp y
      (fun flow c' => match flow with
        | .ret code => Q code c'.state
        | .next => Q 0 c'.state)
      (fun e c' => E e c'.state) c

section simulates

variable {P : Program D (Process W)} {op : Operation D} {x : Exec (Process W) Int}

theorem simulates_orReturn (h : P.perform op = x) : Simulates (failing x) (orReturn P op) := by
  intro Q E c hx
  simp only [failing, Exec.wp_bind] at hx
  simp only [orReturn, Exec.wp_bind, wp_perform, h]
  refine Exec.wp_mono hx (fun rc p hp => ?_) fun _ _ he => he
  by_cases hrc : rc = 0
  · simpa [hrc] using hp
  · simpa [hrc] using hp

theorem simulates_andGoOn (h : P.perform op = x) :
    Simulates (do let _ ← x; pure 0) (andGoOn P op) := by
  intro Q E c hx
  simp only [Exec.wp_bind, Exec.wp_pure] at hx
  simp only [andGoOn, Exec.wp_bind, wp_perform, h, Exec.wp_pure]
  exact hx

theorem simulates_marked (h : P.perform op = x)
    (hmark : P.markLimits = fun p => { p with reformatLimits := true }) :
    Simulates (do let _ ← x; MiniRunner.markLimits; pure 0) (do
      let _ ← perform P op
      markLimits P
      pure .next) := by
  intro Q E c hx
  simp only [Exec.wp_bind, MiniRunner.markLimits, Exec.wp_modify, Exec.wp_pure] at hx
  simp only [Exec.wp_bind, wp_perform, h, wp_markLimits, hmark, Exec.wp_pure]
  exact hx

end simulates

section process

variable {sys : Calls W} {quota : D → BitVec 64} {other : Operation D → Exec (Process W) Int}
  {given : CStr} {fl : Doubles D} {op : Operation D}

theorem simulates_addJob {jobName runnableFile interval : CStr}
    (hname : isValidJobName jobName = true) (hpath : isValidJobPath runnableFile = true)
    (htime : formatTime fl interval ≠ 0) :
    Simulates ((Command.addJob jobName runnableFile (formatTime fl interval)).exec sys)
      (branch (processProgram sys quota other given) fl .addJob
        [jobName, runnableFile, interval]) := by
  intro Q E c hx
  rw [branch_addJob hname hpath htime]
  simp only [Command.exec, hname, hpath, Bool.true_eq_false, if_false, Exec.wp_bind, wp_call] at hx
  simp only [inProgram, processProgram, Exec.wp_bind, Exec.wp_zoom, wp_call]
  cases hfound : (sys.fileExists runnableFile c.state.world).1 with
  | false =>
    simp only [hfound, if_true, Exec.wp_pure] at hx ⊢
    exact hx
  | true =>
    simp only [hfound, Bool.true_eq_false, if_false, htime] at hx ⊢
    exact simulates_orReturn rfl Q E _ (by simpa only [failing, bind_assoc] using hx)

def isStandard : Amount → Bool
  | .standard _ => true
  | _ => false

/-- The standard type marks the limits after success, the others after a failure. -/
theorem setLimitCpu_some (serviceName : CStr) (cpu : BitVec 64) {amount : Amount}
    (h : amount.isZero = false) :
    setLimitCpu sys serviceName cpu (some amount) = (do
      let rc ← MiniRunner.setCpuResourceLimit sys serviceName cpu true amount
      if isStandard amount then
        if rc ≠ 0 then pure 1
        else
          MiniRunner.markLimits
          pure 0
      else if rc ≠ 0 then
        MiniRunner.markLimits
        pure 1
      else pure 0) := by
  simp only [setLimitCpu, h, Bool.false_eq_true, if_false]
  cases amount <;> rfl

theorem standard_of_amountOf {cores : Option CStr} {size : CStr} {type : Option MemType}
    {amount : Amount} (h : Usage.amountOf fl size (type.getD .standard) = some amount) :
    (!(readLimits fl cores (some (size, type))).useLarge &&
      !(readLimits fl cores (some (size, type))).useExtreme) =
        isStandard amount := by
  match type with
  | none | some .standard | some .custom | some .extreme =>
    simp only [Usage.amountOf, Option.getD_none, Option.getD_some] at h
    split at h
    · cases h
    · cases h
      rfl

theorem simulates_setLimitCpu {serviceName : CStr} {a : LimitArgs D} {amount : Amount}
    (hcpu : a.doCpuLimit = true) (hnonzero : amount.isZero = false)
    (hamount : (limitAmount fl a : Exec (Called D (Process W)) _) = pure (some amount))
    (hflags : (!a.useLarge && !a.useExtreme) = isStandard amount) :
    Simulates (setLimitCpu sys serviceName (quota a.cpuLimit) (some amount))
      (applyLimits (processProgram sys quota other given) fl serviceName a) := by
  intro Q E c hx
  rw [setLimitCpu_some serviceName _ hnonzero] at hx
  simp only [Exec.wp_bind, MiniRunner.markLimits] at hx
  simp only [applyLimits, hcpu, if_true, hamount, pure_bind, hflags, hnonzero, Bool.not_false,
    Exec.wp_bind, wp_perform, processProgram]
  refine Exec.wp_mono hx (fun rc p hp => ?_) fun _ _ he => he
  simp only [Exec.wp_ite, Exec.wp_bind, Exec.wp_modify, Exec.wp_pure, wp_markLimits] at hp ⊢
  exact hp

theorem simulates_setLimitMem {serviceName : CStr} {a : LimitArgs D} {amount : Amount}
    (hcpu : a.doCpuLimit = false) (hmem : a.doMemLimit = true) (hnonzero : amount.isZero = false)
    (hamount : (limitAmount fl a : Exec (Called D (Process W)) _) = pure (some amount)) :
    Simulates (setLimitMem sys serviceName amount)
      (applyLimits (processProgram sys quota other given) fl serviceName a) := by
  intro Q E c hx
  simp only [setLimitMem, hnonzero, Bool.false_eq_true, if_false, Exec.wp_bind,
    MiniRunner.markLimits] at hx
  simp only [applyLimits, hcpu, hmem, Bool.false_eq_true, if_false, if_true, hamount, pure_bind,
    Exec.wp_bind, wp_perform, processProgram]
  refine Exec.wp_mono hx (fun rc p hp => ?_) fun _ _ he => he
  simp only [Exec.wp_ite, Exec.wp_bind, Exec.wp_modify, Exec.wp_pure, wp_markLimits] at hp ⊢
  exact hp

/-- **The quota, the amount and the mark** of `set-limit`. -/
theorem simulates_applyLimits {serviceName : CStr} {cores : Option CStr}
    {amount : Option (CStr × Option MemType)} {command : Command}
    (hop : (Usage.setLimit serviceName cores amount).operation fl = some op)
    (hcommand : (Usage.setLimit serviceName cores amount).command fl quota = some command) :
    Simulates (command.exec sys) (applyLimits (processProgram sys quota other given) fl
      serviceName (readLimits fl cores amount)) := by
  cases hcommand
  match cores, amount with
  | none, none => cases hop
  | some x, none =>
    obtain ⟨cpu, hcpu, -⟩ := Option.map_eq_some_iff.mp hop
    intro Q E c hx
    simp only [Command.exec, Option.bind_some, hcpu, Option.map_some, Option.bind_none,
      Bool.false_eq_true, if_false, setLimitCpu, Exec.wp_bind, MiniRunner.markLimits] at hx
    have hamount : (limitAmount fl (readLimits fl (some x) none) :
      Exec (Called D (Process W)) _) = pure (some (.standard 0)) := rfl
    have hread : (readLimits fl (some x) none).cpuLimit = cpu := by simp [readLimits, hcpu]
    have hdo : (readLimits fl (some x) none).doCpuLimit = true := rfl
    simp only [applyLimits, hdo, if_true, hamount, pure_bind, hread, Exec.wp_bind, wp_perform]
    refine Exec.wp_mono hx (fun rc p hp => ?_) fun _ _ he => he
    simp only [Exec.wp_ite, Exec.wp_bind, Exec.wp_modify, Exec.wp_pure] at hp
    by_cases hrc : rc = 0
    · simpa [hrc, readLimits, wp_markLimits, processProgram] using hp
    · simpa [hrc, readLimits] using hp
  | none, some (size, type) =>
    obtain ⟨amount, hamount, -⟩ := Option.map_eq_some_iff.mp hop
    simp only [Command.exec, Option.bind_none, Option.map_none, Option.bind_some, hamount]
    exact simulates_setLimitMem rfl rfl (isZero_of_amountOf hamount)
      (limitAmount_readLimits hamount)
  | some x, some (size, type) =>
    obtain ⟨cpu, hcpu, hmap⟩ := Option.bind_eq_some_iff.mp hop
    obtain ⟨amount, hamount, -⟩ := Option.map_eq_some_iff.mp hmap
    have hread : (readLimits fl (some x) (some (size, type))).cpuLimit = cpu := by
      simp [readLimits, hcpu]
    simp only [Command.exec, Option.bind_some, hcpu, Option.map_some, hamount, Bool.false_eq_true,
      if_false]
    rw [← hread]
    exact simulates_setLimitCpu rfl (isZero_of_amountOf hamount)
      (limitAmount_readLimits hamount) (standard_of_amountOf hamount)

theorem wp_declines_given (hlen : given.len < 2) (hn : given ≠ .ofText "n")
    (hN : given ≠ .ofText "N") {Q : Bool → Called D (Process W) → Prop}
    {E : Halt → Called D (Process W) → Prop} {c : Called D (Process W)} (h : Q false c) :
    Exec.wp (declines (processProgram sys quota other given)) Q E c := by
  simp only [declines, inProgram, processProgram, Exec.wp_bind, Exec.wp_zoom, Exec.wp_pure,
    if_neg (show ¬2 ≤ given.len by omega), hn, hN, or_self, decide_false]
  exact h

/-- **The branch of a clear command** does what the command does. -/
theorem branch_command {u : Usage} {command : Command} (hlen : given.len < 2)
    (hn : given ≠ .ofText "n") (hN : given ≠ .ofText "N") (hop : u.operation fl = some op)
    (hparses : u.Parses) (hcommand : u.command fl quota = some command) :
    Simulates (command.exec sys)
      (branch (processProgram sys quota other given) fl u.word u.operands) := by
  cases u with
  | add githubRepo serviceName =>
    cases hcommand
    simp only [Usage.operation] at hop
    split at hop
    · rename_i hvalid
      simp only [Usage.word, Usage.operands, branch_add hvalid.1 hvalid.2, Command.exec, hvalid,
        ne_eq, not_true_eq_false, if_false]
      exact simulates_orReturn rfl
    · cases hop
  | remove serviceName =>
    cases hcommand
    simp only [Usage.word, Usage.operands, branch_remove, Command.exec]
    exact simulates_marked rfl rfl
  | stop serviceName =>
    cases hcommand
    simp only [Usage.word, Usage.operands, branch_stop, Command.exec, stopAll, bind_assoc,
      pure_bind]
    exact simulates_andGoOn rfl
  | run serviceName bash attach =>
    cases hcommand
    simp only [Usage.operation] at hop
    split at hop
    · cases hop
    rename_i hname
    simp only [Usage.word, branch_run hparses hname, Command.exec, if_neg hname]
    exact simulates_andGoOn rfl
  | restart serviceName bash attach =>
    cases hcommand
    simp only [Usage.word, branch_restart hparses, Command.exec]
    exact simulates_orReturn rfl
  | rename oldName newName =>
    cases hcommand
    simp only [Usage.operation] at hop
    split at hop
    · rename_i hvalid
      simp only [Usage.word, Usage.operands, branch_rename hvalid, Command.exec, hvalid, ne_eq,
        not_true_eq_false, if_false]
      intro Q E c hx
      refine simulates_marked (x := do MiniRunner.renameService sys oldName newName; pure 0)
        rfl rfl Q E c ?_
      simpa only [bind_assoc, pure_bind] using hx
    · cases hop
  | setLimit serviceName cores amount =>
    have hread := limitArgs_operands hparses (cores_of_operation hop) (amount_of_operation hop)
    rw [Usage.operands, List.cons_append] at hread ⊢
    simp only [Usage.word, branch, setLimit, argvAt_one, pure_bind, hread]
    split
    · intro Q E c hx
      rw [Exec.wp_bind]
      refine wp_declines_given hlen hn hN ?_
      simp only [Bool.false_eq_true, if_false]
      exact simulates_applyLimits hop hcommand Q E c hx
    · exact simulates_applyLimits hop hcommand
  | addJob jobName runnableFile interval =>
    cases hcommand
    simp only [Usage.operation] at hop
    split at hop
    · rename_i hvalid
      exact simulates_addJob hvalid.1 hvalid.2.1 hvalid.2.2
    · cases hop
  | removeJob jobName =>
    cases hcommand
    simp only [Usage.word, Usage.operands, branch, oneOperand_cons, Command.exec]
    exact simulates_orReturn rfl
  | addEnv serviceName key value | updateEnv serviceName key value =>
    cases hcommand
    simp only [Usage.operation] at hop
    split at hop
    · rename_i hvalid
      simp only [Usage.word, Usage.operands, branch, envOperands_valid hvalid, Command.exec, hvalid,
        Bool.true_eq_false, or_self, if_false]
      exact simulates_orReturn rfl
    · cases hop
  | removeEnv serviceName key =>
    cases hcommand
    simp only [Usage.word, Usage.operands, branch_removeEnv, Command.exec]
    exact simulates_orReturn rfl
  | stopAll | runBash | update | list | find | neglectUpdates | resUsage | resLimit | warmupJobs
  | configJob | showJobLimit | restartJobs | stopJobs | jobStatus | listJobs | timeShiftCreate
  | timeShiftApply | showEnv => cases hcommand

/-- **`main` runs the command**: from its arguments to its return code and the state it
leaves. -/
theorem mainLoop_command {u : Usage} {command : Command} (hlen : given.len < 2)
    (hn : given ≠ .ofText "n") (hN : given ≠ .ofText "N") (hop : u.operation fl = some op)
    (hclear : u.Clear) (hcommand : u.command fl quota = some command)
    {Q : Int → Process W → Prop} {E : Halt → Process W → Prop} {p : Process W}
    (h : Exec.wp (command.exec sys) Q E p) :
    Exec.wp (mainLoop (processProgram sys quota other given) fl u.argv)
      (fun rc m => Q rc m.called.state) (fun e m => E e m.called.state) ⟨[], ⟨[], p⟩⟩ := by
  rw [wp_mainLoop_argv]
  refine Exec.wp_mono (branch_command hlen hn hN hop hclear.1 hcommand Q E ⟨[], p⟩ h) ?_
    fun _ _ he => he
  intro flow c hflow
  cases flow with
  | ret code => exact (Exec.wp_pure code).mpr hflow
  | next =>
    rw [Flow.andThen, mainLoop_of_forall hclear.2]
    exact (Exec.wp_pure 0).mpr hflow

end process

end MiniRunner.Argv
