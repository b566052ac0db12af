import MiniRunner.Argv.Loop

/-!
# The documented commands

`Usage` lists the commands of `Documentation/usage.txt`, with their operands as the strings
that are typed. `Usage.operation` is the operation that each stands for, where the validators
and conversions of `main` accept the operands, and `Usage.ExecutesOnce` says that `main` does
that and nothing else: whatever the operation returns, one word is matched and the one
operation is called.
-/

namespace MiniRunner.Argv

open Clib

/-- The types of `set-limit`. -/
inductive MemType where
  | standard | custom | extreme
  deriving DecidableEq

def MemType.text : MemType → CStr
  | standard => .ofText "standard"
  | custom => .ofText "custom"
  | extreme => .ofText "extreme"

inductive Usage where
  | stopAll
  | runBash (bash : CStr)
  | add (githubRepo serviceName : CStr)
  | remove (serviceName : CStr)
  | update (serviceName : CStr) (stop : Bool)
  | stop (serviceName : CStr)
  | list
  | find (serviceName : CStr) (sort : Bool)
  | run (serviceName : CStr) (bash : Option CStr) (attach : Bool)
  | rename (oldName newName : CStr)
  | neglectUpdates
  | restart (serviceName : CStr) (bash : Option CStr) (attach : Bool)
  | setLimit (serviceName : CStr) (cores : Option CStr) (amount : Option (CStr × Option MemType))
  | resUsage (serviceName : CStr)
  | resLimit (serviceName : CStr)
  | addJob (jobName runnableFile interval : CStr)
  | removeJob (jobName : CStr)
  | warmupJobs
  /-- The flags say which of the two spellings of an option is used. -/
  | configJob (cores amount : Option (Bool × CStr))
  | showJobLimit
  | restartJobs
  | stopJobs
  | jobStatus
  | listJobs
  | timeShiftCreate
  | timeShiftApply
  | addEnv (serviceName key value : CStr)
  | showEnv (serviceName key : CStr)
  | removeEnv (serviceName key : CStr)
  | updateEnv (serviceName key value : CStr)

namespace Usage

def word : Usage → Word
  | stopAll | stop _ => .stop
  | runBash _ | run _ _ _ => .run
  | add _ _ => .add
  | remove _ => .remove
  | update _ _ => .update
  | list => .list
  | find _ _ => .find
  | rename _ _ => .rename
  | neglectUpdates => .neglectUpdates
  | restart _ _ _ => .restart
  | setLimit _ _ _ => .setLimit
  | resUsage _ => .resUsage
  | resLimit _ => .resLimit
  | addJob _ _ _ => .addJob
  | removeJob _ => .removeJob
  | warmupJobs => .warmupJobs
  | configJob _ _ => .config
  | showJobLimit => .showJobLimit
  | restartJobs => .restartJobs
  | stopJobs => .stopJobs
  | jobStatus => .jobStatus
  | listJobs => .listJobs
  | timeShiftCreate | timeShiftApply => .timeShift
  | addEnv _ _ _ => .addEnv
  | showEnv _ _ => .showEnv
  | removeEnv _ _ => .removeEnv
  | updateEnv _ _ _ => .updateEnv

def flagText (flag : CStr) (given : Bool) : List CStr := if given then [flag] else []

/-- An option of `config job`, in its long or its short spelling. -/
def jobOptionText (long short : CStr) : Option (Bool × CStr) → List CStr
  | none => []
  | some (isLong, x) => [if isLong then long else short, x]

def coresText : Option CStr → List CStr
  | none => []
  | some cores => [.ofText "-cpu", cores]

def amountText : Option (CStr × Option MemType) → List CStr
  | none => []
  | some (amount, none) => [.ofText "-mem", amount]
  | some (amount, some type) => [.ofText "-mem", amount, .ofText "--type", type.text]

def operands : Usage → List CStr
  | stopAll | list | neglectUpdates | warmupJobs | showJobLimit | restartJobs | stopJobs
  | jobStatus | listJobs => []
  | runBash x | remove x | stop x | resUsage x | resLimit x | removeJob x => [x]
  | add x y | rename x y | showEnv x y | removeEnv x y => [x, y]
  | addJob x y z | addEnv x y z | updateEnv x y z => [x, y, z]
  | update serviceName stopping => serviceName :: flagText (.ofText "--stop") stopping
  | find serviceName sort => serviceName :: flagText (.ofText "--sort") sort
  | run serviceName bash attach | restart serviceName bash attach =>
    serviceName :: bash.toList ++ flagText (.ofText "--attach") attach
  | setLimit serviceName cores amount => serviceName :: coresText cores ++ amountText amount
  | configJob cores amount => .ofText "job" ::
      jobOptionText (.ofText "--max-cpu") (.ofText "-mc") cores ++
        jobOptionText (.ofText "--max-memory") (.ofText "-mm") amount
  | timeShiftCreate => [.ofText "create"]
  | timeShiftApply => [.ofText "apply"]

/-- The arguments behind the program's name. -/
def argv (u : Usage) : List CStr := u.word.text :: u.operands

/-! ## What a command stands for -/

variable {D : Type}

/-- An amount at its type, unless it is 0. -/
def amountOf (fl : Doubles D) (amount : CStr) : MemType → Option Amount
  | .standard => if convertToByte fl amount = 0 then none
      else some (.standard (convertToByte fl amount))
  | .custom => if convertToByteLrg fl amount = 0 then none
      else some (.custom (convertToByteLrg fl amount))
  | .extreme => if convertToByteExtr fl amount = 0 then none
      else some (.extreme (convertToByteExtr fl amount))

/-- A limit of `config job`: 0 if it is not given, and nothing if it is given as 0. -/
def jobLimitOf {w : Nat} (convert : CStr → BitVec w) : Option (Bool × CStr) → Option (BitVec w)
  | none => some 0
  | some (_, x) => if convert x = 0 then none else some (convert x)

/-- **The operation of a command**, where its operands are accepted. -/
def operation (fl : Doubles D) : Usage → Option (Operation D)
  | stopAll => some .stopAll
  | runBash bash => if bash.bytes = [] then none else some (.runBash bash)
  | add githubRepo serviceName =>
    if isValidName serviceName = 0 ∧ isValidGithubRepo githubRepo = 0 then
      some (.addProject githubRepo serviceName)
    else none
  | remove serviceName => some (.normalDeleteServices (some serviceName))
  | update serviceName stopping => some (.updateService serviceName stopping)
  | stop serviceName => some (.stopService serviceName)
  | list => some .listServices
  | find serviceName sort => some (.search serviceName sort)
  | run serviceName bash attach =>
    if serviceName.bytes = [] then none else some (.runService serviceName bash attach)
  | rename oldName newName =>
    if isValidName newName = 0 then some (.renameService oldName newName) else none
  | neglectUpdates => some .neglectUpdate
  | restart serviceName bash attach => some (.restartService serviceName bash attach)
  | setLimit _ none none => none
  | setLimit serviceName (some cores) none =>
    (convertToFloat fl cores).map fun cpu =>
      .setCpuResourceLimit serviceName cpu false (.standard 0)
  | setLimit serviceName none (some (amount, type)) =>
    (amountOf fl amount (type.getD .standard)).map (.setMemoryLimit serviceName)
  | setLimit serviceName (some cores) (some (amount, type)) =>
    (convertToFloat fl cores).bind fun cpu =>
      (amountOf fl amount (type.getD .standard)).map
        (.setCpuResourceLimit serviceName cpu true)
  | resUsage serviceName => some (.showRsUsage serviceName)
  | resLimit serviceName => some (.showRsLimit serviceName)
  | addJob jobName runnableFile interval =>
    if isValidJobName jobName = true ∧ isValidJobPath runnableFile = true ∧
        formatTime fl interval ≠ 0 then
      some (.createJob jobName runnableFile (formatTime fl interval))
    else none
  | removeJob jobName => some (.removeJob jobName)
  | warmupJobs => some .launchDaemon
  | configJob cores amount =>
    (jobLimitOf (convertToSeconds fl) cores).bind fun cpuLimit =>
      (jobLimitOf (convertToBytesJob fl) amount).map fun memLimit =>
        .configJobRes memLimit cpuLimit (memLimit ≠ 0) (cpuLimit ≠ 0)
  | showJobLimit => some .showJobDaemonRsLimits
  | restartJobs => some .restartJobDaemon
  | stopJobs => some .stopJobDaemon
  | jobStatus => some .showDaemonStatus
  | listJobs => some .showJobs
  | timeShiftCreate => some .createTimeShift
  | timeShiftApply => some .applyTimeShift
  | addEnv serviceName key value =>
    if isValidEnvName serviceName = true ∧ isValidEnvKey key = true ∧
        isValidEnvValue value = true then
      some (.addEnv serviceName key value)
    else none
  | showEnv serviceName key => some (.showEnv serviceName key)
  | removeEnv serviceName key => some (.removeEnv serviceName key)
  | updateEnv serviceName key value =>
    if isValidEnvName serviceName = true ∧ isValidEnvKey key = true ∧
        isValidEnvValue value = true then
      some (.updateEnv serviceName key value)
    else none

end Usage

/-- The file of a job is there, and a question is not answered with no. -/
structure Program.Grants {σ : Type} (P : Program D σ) : Prop where
  fileExists : ∀ path s, Exec.wp (P.fileExists path) (fun found _ => found = true)
    (fun _ _ => False) s
  answer : ∀ s, Exec.wp P.answer (fun given _ => ∃ x, given = some x ∧ x.len < 2 ∧
    x ≠ .ofText "n" ∧ x ≠ .ofText "N") (fun _ _ => False) s

/-- One word was matched and one operation called. -/
def Matched.Just {σ : Type} (word : Word) (op : Operation D) (m : Matched D σ) : Prop :=
  m.words = [word] ∧ m.called.operations = [op]

/-- **The command does its operation once and no other**, whatever the operation does. -/
def Usage.ExecutesOnce (fl : Doubles D) (u : Usage) (op : Operation D) : Prop :=
  ∀ (σ : Type) (P : Program D σ), P.Grants → ∀ s,
    Exec.wp (mainLoop P fl u.argv) (fun _ m => m.Just u.word op) (fun _ m => m.Just u.word op)
      ⟨[], ⟨[], s⟩⟩

/-- The options are read as they are meant: none of them stands where an operand should, and
none is taken for an operand. -/
def Usage.Parses : Usage → Prop
  | .stopAll | .runBash _ => False
  | .update serviceName stopping => serviceName = .ofText "--stop" → stopping = true
  | .run serviceName bash attach | .restart serviceName bash attach =>
    if attach then bash ≠ none
    else serviceName ≠ .ofText "--attach" ∧ bash ≠ some (.ofText "--attach")
  | .setLimit serviceName _ amount =>
    serviceName ≠ .ofText "-cpu" ∧ (serviceName = .ofText "-mem" → amount ≠ none)
  | _ => True

/-- **When a command is executed once**: its options are read as they are meant, and no
operand is a command word. -/
def Usage.Clear (u : Usage) : Prop :=
  u.Parses ∧ ∀ token ∈ u.operands, Word.ofToken? token = none

end MiniRunner.Argv
