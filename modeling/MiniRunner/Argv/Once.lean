import MiniRunner.Argv.Options

/-!
# Every command once

A branch calls one operation (`CallsOnly`), and the loop then looks at the operands as if they
were commands. So a command is executed once exactly when its options are read as they are
meant and no operand is a command word (`Usage.Clear`): the other operands are passed over
in silence, and a command word is matched whenever the operation before it returned 0.
-/

namespace MiniRunner.Argv

open Clib

variable {D σ : Type} {P : Program D σ} {fl : Doubles D} {op : Operation D}

/-! ## The loop -/

theorem ofToken?_text (w : Word) : Word.ofToken? w.text = some w := by
  cases w <;> decide +kernel

/-- **Operands that are no command words** are passed over. -/
theorem mainLoop_of_forall {tokens : List CStr}
    (h : ∀ token ∈ tokens, Word.ofToken? token = none) : mainLoop P fl tokens = pure 0 := by
  induction tokens with
  | nil => rfl
  | cons token tokens ih =>
    obtain ⟨htoken, htokens⟩ := List.forall_mem_cons.mp h
    rw [mainLoop, htoken]
    exact ih htokens

/-- The loop never forgets a word. -/
theorem mainLoop_words (tokens : List CStr) (m : Matched D σ) :
    Exec.wp (mainLoop P fl tokens) (fun _ m' => m.words.length ≤ m'.words.length)
      (fun _ m' => m.words.length ≤ m'.words.length) m := by
  induction tokens generalizing m with
  | nil => exact (Exec.wp_pure 0).mpr le_rfl
  | cons token tokens ih =>
    unfold mainLoop
    cases Word.ofToken? token with
    | none => exact ih m
    | some word =>
      have hgrown : m.words.length ≤ (m.words ++ [word]).length := by simp
      simp only [Exec.wp_bind, Exec.wp_modify, Exec.wp_zoom]
      refine Exec.wp_mono Exec.wp_true (fun flow c _ => ?_) fun _ _ _ => hgrown
      cases flow with
      | ret code => exact (Exec.wp_pure code).mpr hgrown
      | next => exact Exec.wp_mono (ih _) (fun _ _ h => hgrown.trans h) fun _ _ h => hgrown.trans h

/-- **A command word among the tokens** is matched. -/
theorem mainLoop_matches {tokens : List CStr}
    (h : ¬∀ token ∈ tokens, Word.ofToken? token = none) (m : Matched D σ) :
    Exec.wp (mainLoop P fl tokens) (fun _ m' => m.words.length < m'.words.length)
      (fun _ m' => m.words.length < m'.words.length) m := by
  induction tokens with
  | nil => exact absurd (fun _ hx => by cases hx) h
  | cons token tokens ih =>
    unfold mainLoop
    cases htoken : Word.ofToken? token with
    | none => exact ih fun htokens => h (List.forall_mem_cons.mpr ⟨htoken, htokens⟩)
    | some word =>
      have hgrown : m.words.length < (m.words ++ [word]).length := by simp
      simp only [Exec.wp_bind, Exec.wp_modify, Exec.wp_zoom]
      refine Exec.wp_mono Exec.wp_true (fun flow c _ => ?_) fun _ _ _ => hgrown
      cases flow with
      | ret code => exact (Exec.wp_pure code).mpr hgrown
      | next =>
        exact Exec.wp_mono (mainLoop_words tokens _) (fun _ _ h => hgrown.trans_le h)
          fun _ _ h => hgrown.trans_le h

/-- The rounds after a branch, if there are any. -/
def Flow.andThen {S : Type} (rounds : Exec S Int) : Flow → Exec S Int
  | ret code => pure code
  | next => rounds

theorem wp_mainLoop_argv (u : Usage) {Q : Int → Matched D σ → Prop}
    {E : Halt → Matched D σ → Prop} {s : σ} :
    Exec.wp (mainLoop P fl u.argv) Q E ⟨[], ⟨[], s⟩⟩ ↔
      Exec.wp (branch P fl u.word u.operands)
        (fun flow c => Exec.wp (flow.andThen (mainLoop P fl u.operands)) Q E ⟨[u.word], c⟩)
        (fun e c => E e ⟨[u.word], c⟩) ⟨[], s⟩ := by
  rw [Usage.argv, mainLoop, ofToken?_text]
  simp only [Exec.wp_bind, Exec.wp_modify, Exec.wp_zoom, List.nil_append]
  exact Iff.rfl

/-! ## A branch that calls one operation -/

def Program.Succeeds (P : Program D σ) : Prop :=
  ∀ op s, Exec.wp (P.perform op) (fun rc _ => rc = 0) (fun _ _ => False) s

/-- **The branch calls the operation and no other.** Where operands are left (`more`) and the
operation returned 0 it goes on to them. -/
def CallsOnly (more : Prop) (P : Program D σ) (op : Operation D)
    (x : Exec (Called D σ) Flow) : Prop :=
  ∀ c, Exec.wp x
    (fun flow c' => c'.operations = c.operations ++ [op] ∧ (more → P.Succeeds → flow = .next))
    (fun _ c' => c'.operations = c.operations ++ [op] ∧ ¬P.Succeeds) c

theorem wp_perform {Q : Int → Called D σ → Prop} {E : Halt → Called D σ → Prop}
    {c : Called D σ} :
    Exec.wp (perform P op) Q E c ↔
      Exec.wp (P.perform op) (fun rc s => Q rc ⟨c.operations ++ [op], s⟩)
        (fun e s => E e ⟨c.operations ++ [op], s⟩) c.state := by
  simp only [perform, inProgram, Exec.wp_bind, Exec.wp_modify, Exec.wp_zoom]

variable {more : Prop}

theorem calls_bind {k : Int → Exec (Called D σ) Flow}
    (hk : ∀ rc c, Exec.wp (k rc)
      (fun flow c' => c'.operations = c.operations ∧ (more → rc = 0 → flow = .next))
      (fun _ _ => False) c) : CallsOnly more P op (perform P op >>= k) := by
  intro c
  rw [Exec.wp_bind, wp_perform]
  by_cases hsucceeds : P.Succeeds
  · refine Exec.wp_mono (hsucceeds op c.state) (fun rc s hrc => ?_) fun _ _ h => h.elim
    refine Exec.wp_mono (hk rc _) (fun flow c' h => ?_) fun _ _ h => h.elim
    exact ⟨h.1, fun hmore _ => h.2 hmore hrc⟩
  · refine Exec.wp_mono Exec.wp_true (fun rc s _ => ?_) fun _ _ _ => ⟨rfl, hsucceeds⟩
    refine Exec.wp_mono (hk rc _) (fun flow c' h => ?_) fun _ _ h => h.elim
    exact ⟨h.1, fun _ hno => absurd hno hsucceeds⟩

theorem calls_orReturn : CallsOnly more P op (orReturn P op) := by
  refine calls_bind fun rc _ => ?_
  by_cases hrc : rc = 0
  · simp [hrc]
  · simp [hrc]

theorem calls_andGoOn : CallsOnly more P op (andGoOn P op) :=
  calls_bind fun _ _ => (Exec.wp_pure _).mpr ⟨rfl, fun _ _ => rfl⟩

theorem wp_markLimits {Q : PUnit → Called D σ → Prop} {E : Halt → Called D σ → Prop}
    {c : Called D σ} :
    Exec.wp (markLimits P) Q E c ↔ Q ⟨⟩ { c with state := P.markLimits c.state } := by
  simp only [markLimits, inProgram, Exec.wp_zoom, Exec.wp_modify]

theorem calls_of_answer {α : Type} {x : Exec (Called D σ) α} {k : α → Exec (Called D σ) Flow}
    {a : α} (hx : ∀ c, Exec.wp x (fun b c' => b = a ∧ c'.operations = c.operations)
      (fun _ _ => False) c) (hk : CallsOnly more P op (k a)) : CallsOnly more P op (x >>= k) := by
  intro c
  rw [Exec.wp_bind]
  refine Exec.wp_mono (hx c) (fun b c' h => ?_) fun _ _ h => h.elim
  obtain ⟨rfl, hsame⟩ := h
  rw [← hsame]
  exact hk c'

/-! ## The branch of each command -/

theorem argvAt_one (x : CStr) (rest : List CStr) :
    (argvAt (x :: rest) 1 : Exec (Called D σ) _) = pure (some x) := by
  simp [argvAt]

theorem argvAt_two (x : CStr) (rest : List CStr) :
    (argvAt (x :: rest) 2 : Exec (Called D σ) _) = pure rest.head? := by
  simp [argvAt, List.head?_eq_getElem?]

theorem argvAt_three (x y : CStr) (rest : List CStr) :
    (argvAt (x :: y :: rest) 3 : Exec (Called D σ) _) = pure rest.head? := by
  simp [argvAt, List.head?_eq_getElem?]

theorem calls_marked : CallsOnly more P op (do
    let _ ← perform P op
    markLimits P
    pure .next) :=
  calls_bind fun _ _ => by
    simp only [Exec.wp_bind, wp_markLimits, Exec.wp_pure, implies_true, and_self]

/-- What `run` and `restart` read from a name, a script and the flag. -/
theorem startOperands_of_parses {name : CStr} {bash : Option CStr} {attach : Bool}
    (h : (Usage.run name bash attach).Parses) :
    (startOperands (Usage.run name bash attach).operands : Exec (Called D σ) _) =
      pure (some name, bash, attach) := by
  cases attach with
  | true =>
    cases bash with
    | none => exact absurd rfl h
    | some x =>
      simp [startOperands, Usage.operands, Usage.flagText, argvAt_one, argvAt_two, flagFrom]
  | false =>
    obtain ⟨hname, hbash⟩ := h
    cases bash with
    | none =>
      simp [startOperands, Usage.operands, Usage.flagText, argvAt_one, argvAt_two, flagFrom,
        Ne.symm hname]
    | some x =>
      have hx : CStr.ofText "--attach" ≠ x := fun h => hbash (congrArg some h.symm)
      simp [startOperands, Usage.operands, Usage.flagText, argvAt_one, argvAt_two, flagFrom,
        Ne.symm hname, hx]

theorem branch_add {githubRepo serviceName : CStr} (hname : isValidName serviceName = 0)
    (hrepo : isValidGithubRepo githubRepo = 0) :
    branch P fl .add [githubRepo, serviceName] =
      orReturn P (.addProject githubRepo serviceName) := by
  simp only [branch, argvAt_one, argvAt_two, pure_bind, List.head?_cons, deref, hname, hrepo, ne_eq,
    not_true_eq_false, if_false]

theorem branch_remove (serviceName : CStr) : branch P fl .remove [serviceName] = (do
    let _ ← perform P (.normalDeleteServices (some serviceName))
    markLimits P
    pure .next) := by
  simp only [branch, argvAt_one, pure_bind]

theorem branch_stop (serviceName : CStr) :
    branch P fl .stop [serviceName] = andGoOn P (.stopService serviceName) := by
  simp only [branch, stopOperands, bind_assoc, pure_bind, andGoOn]

theorem branch_run {name : CStr} {bash : Option CStr} {attach : Bool}
    (h : (Usage.run name bash attach).Parses) (hname : name.bytes ≠ []) :
    branch P fl .run (Usage.run name bash attach).operands =
      andGoOn P (.runService name bash attach) := by
  simp only [branch, startOperands_of_parses h, pure_bind, if_neg hname]

theorem branch_restart {name : CStr} {bash : Option CStr} {attach : Bool}
    (h : (Usage.restart name bash attach).Parses) :
    branch P fl .restart (Usage.restart name bash attach).operands =
      orReturn P (.restartService name bash attach) := by
  have hstart : (startOperands (Usage.restart name bash attach).operands :
      Exec (Called D σ) _) = pure (some name, bash, attach) := startOperands_of_parses h
  simp only [branch, hstart, pure_bind]

theorem branch_rename {oldName newName : CStr} (hname : isValidName newName = 0) :
    branch P fl .rename [oldName, newName] = (do
      let _ ← perform P (.renameService oldName newName)
      markLimits P
      pure .next) := by
  simp only [branch, argvAt_one, argvAt_two, pure_bind, List.head?_cons, deref, hname, ne_eq,
    not_true_eq_false, if_false]

theorem branch_addJob {jobName runnableFile interval : CStr}
    (hname : isValidJobName jobName = true) (hpath : isValidJobPath runnableFile = true)
    (htime : formatTime fl interval ≠ 0) :
    branch P fl .addJob [jobName, runnableFile, interval] = (do
      if (← inProgram (P.fileExists runnableFile)) = false then pure (.ret 1)
      else orReturn P (.createJob jobName runnableFile (formatTime fl interval))) := by
  simp only [branch, addJob, argvAt_one, argvAt_two, argvAt_three, pure_bind, List.head?_cons,
    hname, hpath, Bool.true_eq_false, if_false, htime]

theorem oneOperand_cons (x : CStr) (op : CStr → Operation D) :
    oneOperand P [x] op = orReturn P (op x) := by
  simp only [oneOperand, argvAt_one, pure_bind]

theorem envOperands_valid {name key value : CStr} (h : isValidEnvName name = true ∧
    isValidEnvKey key = true ∧ isValidEnvValue value = true)
    (op : CStr → CStr → CStr → Operation D) :
    envOperands P [name, key, value] op = orReturn P (op name key value) := by
  simp only [envOperands, argvAt_one, argvAt_two, argvAt_three, pure_bind, List.head?_cons, h,
    Bool.true_eq_false, or_self, if_false]

theorem branch_removeEnv (name key : CStr) :
    branch P fl .removeEnv [name, key] = orReturn P (.removeEnv name key) := by
  simp only [branch, argvAt_one, argvAt_two, pure_bind, List.head?_cons]

/-! ## The branch of `set-limit` -/

theorem isZero_of_amountOf {size : CStr} {type : MemType} {amount : Amount}
    (h : Usage.amountOf fl size type = some amount) : amount.isZero = false := by
  unfold Usage.amountOf at h
  cases type
  all_goals
    simp only at h
    split at h
    · cases h
    · rename_i hne
      cases h
      exact beq_eq_false_iff_ne.mpr hne

theorem limitAmount_readLimits {cores : Option CStr} {size : CStr} {type : Option MemType}
    {amount : Amount} (h : Usage.amountOf fl size (type.getD .standard) = some amount) :
    (limitAmount fl (readLimits fl cores (some (size, type))) : Exec (Called D σ) _) =
      pure (some amount) := by
  match type with
  | none | some .standard | some .custom | some .extreme =>
    simp only [Usage.amountOf, Option.getD_none, Option.getD_some] at h
    split at h
    · cases h
    · rename_i hne
      cases h
      simp [limitAmount, readLimits, deref]
      exact fun hzero => absurd hzero hne

theorem calls_setCpuResourceLimit {fl : Doubles D} {serviceName : CStr} {a : LimitArgs D}
    {amount : Amount} (hcpu : a.doCpuLimit = true)
    (hamount : (limitAmount fl a : Exec (Called D σ) _) = pure (some amount)) :
    CallsOnly more P (.setCpuResourceLimit serviceName a.cpuLimit (!amount.isZero) amount)
      (applyLimits P fl serviceName a) := by
  simp only [applyLimits, hcpu, if_true, hamount, pure_bind]
  refine calls_bind fun rc c => ?_
  simp only [Exec.wp_ite, Exec.wp_bind, wp_markLimits, Exec.wp_pure]
  by_cases hrc : rc = 0 <;> simp [hrc]

theorem calls_setMemoryLimit {fl : Doubles D} {serviceName : CStr} {a : LimitArgs D}
    {amount : Amount} (hcpu : a.doCpuLimit = false) (hmem : a.doMemLimit = true)
    (hamount : (limitAmount fl a : Exec (Called D σ) _) = pure (some amount)) :
    CallsOnly more P (.setMemoryLimit serviceName amount) (applyLimits P fl serviceName a) := by
  simp only [applyLimits, hcpu, hmem, Bool.false_eq_true, if_false, if_true, hamount, pure_bind]
  refine calls_bind fun rc c => ?_
  simp only [Exec.wp_ite, Exec.wp_bind, wp_markLimits, Exec.wp_pure]
  by_cases hrc : rc = 0 <;> simp [hrc]

theorem calls_applyLimits {serviceName : CStr} {cores : Option CStr}
    {amount : Option (CStr × Option MemType)}
    (hop : (Usage.setLimit serviceName cores amount).operation fl = some op) :
    CallsOnly more P op (applyLimits P fl serviceName (readLimits fl cores amount)) := by
  match cores, amount with
  | none, none => cases hop
  | some x, none =>
    obtain ⟨cpu, hcpu, rfl⟩ := Option.map_eq_some_iff.mp hop
    have hread : (readLimits fl (some x) none).cpuLimit = cpu := by simp [readLimits, hcpu]
    rw [← hread]
    have hamount : (limitAmount fl (readLimits fl (some x) none) : Exec (Called D σ) _) =
      pure (some (.standard 0)) := rfl
    exact calls_setCpuResourceLimit rfl hamount
  | none, some (size, type) =>
    obtain ⟨amount, hamount, rfl⟩ := Option.map_eq_some_iff.mp hop
    exact calls_setMemoryLimit rfl rfl (limitAmount_readLimits hamount)
  | some x, some (size, type) =>
    obtain ⟨cpu, hcpu, hmap⟩ := Option.bind_eq_some_iff.mp hop
    obtain ⟨amount, hamount, rfl⟩ := Option.map_eq_some_iff.mp hmap
    have hread : (readLimits fl (some x) (some (size, type))).cpuLimit = cpu := by
      simp [readLimits, hcpu]
    have hnonzero : (!amount.isZero) = true := by simp [isZero_of_amountOf hamount]
    rw [← hread, ← hnonzero]
    exact calls_setCpuResourceLimit rfl (limitAmount_readLimits hamount)

theorem wp_declines (hP : P.Grants) (c : Called D σ) :
    Exec.wp (declines P) (fun b c' => b = false ∧ c'.operations = c.operations)
      (fun _ _ => False) c := by
  simp only [declines, inProgram, Exec.wp_bind, Exec.wp_zoom]
  refine Exec.wp_mono (hP.answer c.state) ?_ fun _ _ h => h
  rintro _ s ⟨x, rfl, hlen, hn, hN⟩
  simp only [if_neg (show ¬2 ≤ x.len by omega), Exec.wp_pure, hn, hN, or_self, decide_false,
    and_self]

theorem cores_of_operation {serviceName : CStr} {cores : Option CStr}
    {amount : Option (CStr × Option MemType)}
    (hop : (Usage.setLimit serviceName cores amount).operation fl = some op) :
    ∀ x ∈ cores, ∃ cpu, convertToFloat fl x = some cpu := by
  rintro x rfl
  match amount with
  | none =>
    obtain ⟨cpu, hcpu, -⟩ := Option.map_eq_some_iff.mp hop
    exact ⟨cpu, hcpu⟩
  | some _ =>
    obtain ⟨cpu, hcpu, -⟩ := Option.bind_eq_some_iff.mp hop
    exact ⟨cpu, hcpu⟩

theorem amount_of_operation {serviceName : CStr} {cores : Option CStr}
    {amount : Option (CStr × Option MemType)}
    (hop : (Usage.setLimit serviceName cores amount).operation fl = some op) :
    ∀ x ∈ amount, limitOption x.1 = none := by
  rintro ⟨size, type⟩ rfl
  match cores with
  | none =>
    obtain ⟨amount, hamount, -⟩ := Option.map_eq_some_iff.mp hop
    exact limitOption_of_amountOf hamount
  | some _ =>
    obtain ⟨cpu, -, hmap⟩ := Option.bind_eq_some_iff.mp hop
    obtain ⟨amount, hamount, -⟩ := Option.map_eq_some_iff.mp hmap
    exact limitOption_of_amountOf hamount

theorem calls_setLimit (hP : P.Grants) {serviceName : CStr} {cores : Option CStr}
    {amount : Option (CStr × Option MemType)}
    (hop : (Usage.setLimit serviceName cores amount).operation fl = some op)
    (hparses : (Usage.setLimit serviceName cores amount).Parses) :
    CallsOnly more P op (setLimit P fl (Usage.setLimit serviceName cores amount).operands) := by
  have hread := limitArgs_operands hparses (cores_of_operation hop) (amount_of_operation hop)
  rw [Usage.operands, List.cons_append] at hread ⊢
  simp only [setLimit, argvAt_one, pure_bind, hread]
  split
  · refine calls_of_answer (wp_declines hP) ?_
    simp only [Bool.false_eq_true, if_false]
    exact calls_applyLimits hop
  · exact calls_applyLimits hop

/-! ## The branch of every command -/

/-- **Where the options are read as they are meant**, the branch calls the operation. -/
theorem branch_calls {u : Usage} (hop : u.operation fl = some op) (hparses : u.Parses)
    (hP : P.Grants) : CallsOnly (u.operands ≠ []) P op (branch P fl u.word u.operands) := by
  cases u with
  | stopAll | runBash => exact hparses.elim
  | add githubRepo serviceName =>
    simp only [Usage.operation] at hop
    split at hop
    · rename_i hvalid
      cases hop
      simp only [Usage.word, Usage.operands, branch_add hvalid.1 hvalid.2]
      exact calls_orReturn
    · cases hop
  | remove serviceName =>
    cases hop
    simp only [Usage.word, Usage.operands, branch_remove]
    exact calls_marked
  | update serviceName stopping =>
    cases hop
    have hflag : flagFrom 1 (.ofText "--stop")
        (serviceName :: Usage.flagText (.ofText "--stop") stopping) = stopping := by
      cases stopping with
      | true => simp [flagFrom, Usage.flagText]
      | false =>
        have hne : CStr.ofText "--stop" ≠ serviceName := fun h => by
          have := hparses h.symm
          cases this
        simp [flagFrom, Usage.flagText, hne]
    simp only [Usage.word, Usage.operands, branch, argvAt_one, pure_bind, hflag]
    exact calls_andGoOn
  | stop serviceName =>
    cases hop
    simp only [Usage.word, Usage.operands, branch_stop]
    exact calls_andGoOn
  | find serviceName sort =>
    cases hop
    have hflag : flagFrom 2 (.ofText "--sort")
        (serviceName :: Usage.flagText (.ofText "--sort") sort) = sort := by
      cases sort <;> simp [flagFrom, Usage.flagText]
    simp only [Usage.word, Usage.operands, branch, argvAt_one, pure_bind, hflag]
    exact calls_andGoOn
  | run serviceName bash attach =>
    simp only [Usage.operation] at hop
    split at hop
    · cases hop
    rename_i hname
    cases hop
    simp only [Usage.word, branch_run hparses hname]
    exact calls_andGoOn
  | rename oldName newName =>
    simp only [Usage.operation] at hop
    split at hop
    · rename_i hvalid
      cases hop
      simp only [Usage.word, Usage.operands, branch_rename hvalid]
      exact calls_marked
    · cases hop
  | neglectUpdates =>
    cases hop
    exact calls_bind fun _ _ => (Exec.wp_pure _).mpr ⟨rfl, fun h => absurd rfl h⟩
  | restart serviceName bash attach =>
    cases hop
    simp only [Usage.word, branch_restart hparses]
    exact calls_orReturn
  | setLimit serviceName cores amount => exact calls_setLimit hP hop hparses
  | resUsage | resLimit | removeJob =>
    cases hop
    simp only [Usage.word, Usage.operands, branch, oneOperand_cons]
    exact calls_orReturn
  | addJob jobName runnableFile interval =>
    simp only [Usage.operation] at hop
    split at hop
    · rename_i hvalid
      cases hop
      simp only [Usage.word, Usage.operands, branch_addJob hvalid.1 hvalid.2.1 hvalid.2.2]
      refine calls_of_answer (a := true) (fun c => ?_) ?_
      · simp only [inProgram, Exec.wp_zoom]
        exact Exec.wp_mono (hP.fileExists _ _) (fun _ _ h => ⟨h, trivial⟩) fun _ _ h => h
      · simp only [Bool.true_eq_false, if_false]
        exact calls_orReturn
    · cases hop
  | warmupJobs | restartJobs | stopJobs =>
    cases hop
    exact calls_orReturn
  | list | showJobLimit | jobStatus | listJobs =>
    cases hop
    exact calls_andGoOn
  | configJob cores amount =>
    obtain ⟨cpuLimit, hcpu, hmap⟩ := Option.bind_eq_some_iff.mp hop
    obtain ⟨memLimit, hmem, rfl⟩ := Option.map_eq_some_iff.mp hmap
    have hread := jobArgs_operands hcpu hmem
    simp only [Usage.word, branch, config]
    rw [Usage.operands, List.cons_append] at hread ⊢
    simp only [argvAt_one, pure_bind, deref, if_true, hread]
    exact calls_orReturn
  | timeShiftCreate =>
    cases hop
    simp only [Usage.word, Usage.operands, branch, timeShift, argvAt_one, pure_bind, if_true]
    exact calls_orReturn
  | timeShiftApply =>
    cases hop
    have hne : CStr.ofText "apply" ≠ .ofText "create" := by decide
    simp only [Usage.word, Usage.operands, branch, timeShift, argvAt_one, pure_bind, if_neg hne,
      if_true]
    refine calls_bind fun rc c => ?_
    simp only [inProgram, Exec.wp_ite, Exec.wp_bind, Exec.wp_zoom, Exec.wp_modify, Exec.wp_pure]
    by_cases hrc : rc = 0 <;> simp [hrc]
  | addEnv | updateEnv =>
    simp only [Usage.operation] at hop
    split at hop
    · rename_i hvalid
      cases hop
      simp only [Usage.word, Usage.operands, branch, envOperands_valid hvalid]
      exact calls_orReturn
    · cases hop
  | showEnv =>
    cases hop
    simp only [Usage.word, Usage.operands, branch, argvAt_one, argvAt_two, pure_bind,
      List.head?_cons]
    exact calls_andGoOn
  | removeEnv =>
    cases hop
    simp only [Usage.word, Usage.operands, branch_removeEnv]
    exact calls_orReturn

/-! ## A branch that misreads its options -/

/-- The branch calls nothing, and where operands are left it returns. -/
def Silent (more : Prop) (x : Exec (Called D σ) Flow) : Prop :=
  ∀ c, Exec.wp x (fun flow c' => c'.operations = c.operations ∧ (more → flow ≠ .next))
    (fun _ _ => False) c

theorem silent_ret (code : Int) : Silent more (pure (.ret code) : Exec (Called D σ) Flow) :=
  fun _ => (Exec.wp_pure _).mpr ⟨rfl, fun _ h => by cases h⟩

theorem silent_of_answer {α : Type} {x : Exec (Called D σ) α} {k : α → Exec (Called D σ) Flow}
    {a : α} (hx : ∀ c, Exec.wp x (fun b c' => b = a ∧ c'.operations = c.operations)
      (fun _ _ => False) c) (hk : Silent more (k a)) : Silent more (x >>= k) := by
  intro c
  rw [Exec.wp_bind]
  refine Exec.wp_mono (hx c) (fun b c' h => ?_) fun _ _ h => h
  obtain ⟨rfl, hsame⟩ := h
  rw [← hsame]
  exact hk c'

variable (D σ) in
/-- A name or a script that is spelled like the flag, or the flag in place of the script. -/
theorem startOperands_misread {name : CStr} {bash : Option CStr} {attach : Bool}
    (h : ¬(Usage.run name bash attach).Parses) :
    ∃ bash' attach', (startOperands (Usage.run name bash attach).operands :
      Exec (Called D σ) _) = pure (some name, bash', attach') ∧
        (bash' ≠ bash ∨ attach' ≠ attach) := by
  cases attach with
  | true =>
    have hbash : bash = none := by simpa [Usage.Parses] using h
    subst hbash
    refine ⟨some (.ofText "--attach"), true, ?_, .inl (by simp)⟩
    simp [startOperands, Usage.operands, Usage.flagText, argvAt_one, argvAt_two, flagFrom]
  | false =>
    have hflag : name = .ofText "--attach" ∨ bash = some (.ofText "--attach") := by
      by_contra hno
      exact h ⟨fun hname => hno (.inl hname), fun hbash => hno (.inr hbash)⟩
    refine ⟨bash, true, ?_, .inr (by simp)⟩
    cases bash with
    | none =>
      have hname : name = .ofText "--attach" := hflag.resolve_right (by simp)
      simp [startOperands, Usage.operands, Usage.flagText, argvAt_one, argvAt_two, flagFrom, hname]
    | some x =>
      have hmem : CStr.ofText "--attach" ∈ [name, x] := by
        rcases hflag with rfl | hx
        · simp
        · simp [Option.some.inj hx]
      simp only [startOperands, Usage.operands, Usage.flagText, Option.toList_some,
        Bool.false_eq_true, if_false, List.cons_append, List.nil_append, argvAt_one, argvAt_two,
        pure_bind, List.head?_cons, flagFrom, Nat.sub_self, List.drop_zero, hmem, decide_true]

/-- A misread `set-limit` reads nothing, or an amount of 0. -/
theorem silent_setLimit (hP : P.Grants) {serviceName : CStr} {cores : Option CStr}
    {amount : Option (CStr × Option MemType)}
    (hop : (Usage.setLimit serviceName cores amount).operation fl = some op)
    (hno : ¬(Usage.setLimit serviceName cores amount).Parses) :
    Silent more (setLimit P fl (Usage.setLimit serviceName cores amount).operands) := by
  have hgiven : cores ≠ none ∨ amount ≠ none := by
    match cores, amount with
    | none, none => cases hop
    | some _, _ => simp
    | none, some _ => simp
  have hread := limitArgs_misread hno (cores_of_operation hop) hgiven
  rw [Usage.operands, List.cons_append] at hread ⊢
  simp only [setLimit, argvAt_one, pure_bind]
  cases hargs : limitArgs fl (.ofText "set-limit" ::
      (serviceName :: (Usage.coresText cores ++ Usage.amountText amount)))
      ⟨fl.zero, none, false, false, false, false⟩ with
  | none => exact silent_ret 1
  | some a =>
    obtain ⟨hcpu, hsize, hlarge, hextreme⟩ := hread a hargs
    have hzero : convertToByte fl (.ofText "-cpu") = 0 :=
      convertToByte_numberless fl (by decide) (by decide)
    have happly : applyLimits P fl serviceName a = pure (.ret 1) := by
      simp only [applyLimits, limitAmount, hcpu, hsize, hlarge, hextreme, hzero, Bool.not_false,
        Bool.and_self, if_true, pure_bind]
    simp only [happly]
    split
    · refine silent_of_answer (wp_declines hP) ?_
      simp only [Bool.false_eq_true, if_false]
      exact silent_ret 1
    · exact silent_ret 1

/-- **Where the options are misread**, the branch calls another operation or none. -/
theorem branch_misreads {u : Usage} (hop : u.operation fl = some op) (hno : ¬u.Parses)
    (hP : P.Grants) :
    (∃ op', op' ≠ op ∧ CallsOnly (u.operands ≠ []) P op' (branch P fl u.word u.operands)) ∨
      Silent (u.operands ≠ []) (branch P fl u.word u.operands) := by
  cases u with
  | stopAll =>
    right
    intro c
    simp only [Usage.word, Usage.operands, branch, stopOperands, pure_bind, Exec.wp_pure, ne_eq,
      not_true_eq_false, false_implies, and_self]
  | runBash bash =>
    left
    simp only [Usage.operation] at hop
    split at hop
    · cases hop
    rename_i hbash
    cases hop
    refine ⟨.runService bash none (flagFrom 1 (.ofText "--attach") [bash]), by simp, ?_⟩
    simp only [Usage.word, Usage.operands, branch, startOperands, argvAt_one, argvAt_two,
      pure_bind, List.head?_nil, if_neg hbash]
    exact calls_andGoOn
  | update serviceName stopping =>
    left
    cases hop
    have hname : serviceName = .ofText "--stop" ∧ stopping = false := by
      simpa [Usage.Parses] using hno
    obtain ⟨rfl, rfl⟩ := hname
    refine ⟨.updateService (.ofText "--stop") true, by simp, ?_⟩
    have hflag : flagFrom 1 (.ofText "--stop") [CStr.ofText "--stop"] = true := by decide
    simp only [Usage.word, Usage.operands, Usage.flagText, Bool.false_eq_true, if_false, branch,
      argvAt_one, pure_bind, hflag]
    exact calls_andGoOn
  | run serviceName bash attach =>
    left
    simp only [Usage.operation] at hop
    split at hop
    · cases hop
    rename_i hname
    cases hop
    obtain ⟨bash', attach', hstart, hne⟩ := startOperands_misread D σ hno
    refine ⟨.runService serviceName bash' attach', by simp; tauto, ?_⟩
    simp only [Usage.word, branch, hstart, pure_bind, if_neg hname]
    exact calls_andGoOn
  | restart serviceName bash attach =>
    left
    cases hop
    obtain ⟨bash', attach', hstart, hne⟩ := startOperands_misread D σ hno
    refine ⟨.restartService serviceName bash' attach', by simp; tauto, ?_⟩
    simp only [Usage.word, branch]
    rw [show (Usage.restart serviceName bash attach).operands =
      (Usage.run serviceName bash attach).operands from rfl, hstart]
    simp only [pure_bind]
    exact calls_orReturn
  | setLimit serviceName cores amount => exact .inr (silent_setLimit hP hop hno)
  | add | remove | stop | list | find | rename | neglectUpdates | resUsage | resLimit | addJob
  | removeJob | warmupJobs | configJob | showJobLimit | restartJobs | stopJobs | jobStatus
  | listJobs | timeShiftCreate | timeShiftApply | addEnv | showEnv | removeEnv | updateEnv =>
    exact absurd trivial hno

/-! ## Every command -/

/-- A program in which everything succeeds. -/
def obliging : Program D Unit where
  perform _ := pure 0
  fileExists _ := pure true
  answer := pure (some (.ofText "y"))
  markLimits := id
  keepState := id

theorem obliging_grants : (obliging : Program D Unit).Grants where
  fileExists _ _ := (Exec.wp_pure _).mpr rfl
  answer _ := (Exec.wp_pure _).mpr ⟨_, rfl, by decide, by decide, by decide⟩

theorem obliging_succeeds : (obliging : Program D Unit).Succeeds :=
  fun _ _ => (Exec.wp_pure _).mpr rfl

section rest

variable {word : Word} {tokens : List CStr} {c : Called D σ}

theorem operations_of_rest (hquiet : ∀ token ∈ tokens, Word.ofToken? token = none) {flow : Flow}
    (h : Exec.wp (flow.andThen (mainLoop P fl tokens)) (fun _ m => m.Just word op)
      (fun _ m => m.Just word op) ⟨[word], c⟩) : c.operations = [op] := by
  cases flow with
  | ret code => exact ((Exec.wp_pure code).mp h).2
  | next =>
    rw [Flow.andThen, mainLoop_of_forall hquiet] at h
    exact ((Exec.wp_pure 0).mp h).2

theorem quiet_of_rest (h : Exec.wp (mainLoop P fl tokens) (fun _ m => m.Just word op)
      (fun _ m => m.Just word op) ⟨[word], c⟩) :
    ∀ token ∈ tokens, Word.ofToken? token = none := by
  by_contra hno
  have hno' (m : Matched D σ) (hm : m.Just word op ∧ [word].length < m.words.length) : False := by
    rw [hm.1.1] at hm
    exact lt_irrefl _ hm.2
  exact Exec.not_wp_false (Exec.wp_mono (Exec.wp_and h (mainLoop_matches hno ⟨[word], c⟩))
    (fun _ m hm => hno' m hm) fun _ m hm => hno' m hm)

end rest

/-- A command that is executed once is clear. -/
theorem clear_of_executesOnce {u : Usage} (hop : u.operation fl = some op)
    (h : u.ExecutesOnce fl op) : u.Clear := by
  have hrun := (wp_mainLoop_argv u).mp (h Unit obliging obliging_grants ())
  have hparses : u.Parses := by
    by_contra hno
    rcases branch_misreads hop hno obliging_grants with ⟨op', hne, hcalls⟩ | hsilent
    · refine Exec.not_wp_false (Exec.wp_mono (Exec.wp_and hrun (hcalls ⟨[], ()⟩)) ?_ ?_)
      · rintro flow c ⟨hrest, hops, hgoes⟩
        have hquiet : ∀ token ∈ u.operands, Word.ofToken? token = none := by
          by_cases hmore : u.operands = []
          · simp [hmore]
          · cases hgoes hmore obliging_succeeds
            exact quiet_of_rest hrest
        have := operations_of_rest hquiet hrest
        rw [hops] at this
        exact hne (by simpa using this)
      · exact fun _ _ h => h.2.2 obliging_succeeds
    · refine Exec.not_wp_false (Exec.wp_mono (Exec.wp_and hrun (hsilent ⟨[], ()⟩)) ?_ ?_)
      · rintro flow c ⟨hrest, hops, hreturns⟩
        have hnone : c.operations ≠ [op] := by simp [hops]
        by_cases hmore : u.operands = []
        · have hquiet : ∀ token ∈ u.operands, Word.ofToken? token = none := by simp [hmore]
          exact hnone (operations_of_rest hquiet hrest)
        · cases flow with
          | ret code => exact hnone ((Exec.wp_pure code).mp hrest).2
          | next => exact hreturns hmore rfl
      · exact fun _ _ h => h.2
  refine ⟨hparses, ?_⟩
  by_cases hmore : u.operands = []
  · simp [hmore]
  by_contra hno
  refine Exec.not_wp_false (Exec.wp_mono
    (Exec.wp_and hrun (branch_calls hop hparses obliging_grants ⟨[], ()⟩)) ?_ ?_)
  · rintro flow c ⟨hrest, -, hgoes⟩
    cases hgoes hmore obliging_succeeds
    exact hno (quiet_of_rest hrest)
  · exact fun _ _ h => h.2.2 obliging_succeeds

/-- **Every command is executed once** exactly when it is clear. -/
theorem executesOnce_iff (fl : Doubles D) (u : Usage) (op : Operation D)
    (hop : u.operation fl = some op) : u.ExecutesOnce fl op ↔ u.Clear := by
  refine ⟨clear_of_executesOnce hop, ?_⟩
  rintro ⟨hparses, hquiet⟩ σ P hP s
  rw [wp_mainLoop_argv]
  refine Exec.wp_mono (branch_calls hop hparses hP ⟨[], s⟩) ?_ fun _ c h => ⟨rfl, h.1⟩
  rintro flow c ⟨hops, -⟩
  cases flow with
  | ret code => exact (Exec.wp_pure code).mpr ⟨rfl, hops⟩
  | next =>
    rw [Flow.andThen, mainLoop_of_forall hquiet]
    exact (Exec.wp_pure 0).mpr ⟨rfl, hops⟩

/-- `mrn set-limit a -cpu 1 -mem 4k`. -/
theorem executesOnce_setLimit :
    (Usage.setLimit (.ofText "a") (some (.ofText "1")) (some (.ofText "4k", none))).ExecutesOnce
      wholeNumbers (.setCpuResourceLimit (.ofText "a") 1 true (.standard 4096)) ↔
    (Usage.setLimit (.ofText "a") (some (.ofText "1")) (some (.ofText "4k", none))).Clear :=
  executesOnce_iff wholeNumbers _ _ (by decide)

/-- `mrn remove stop`: once the service `stop` is removed, its name is matched as a command. -/
theorem not_executesOnce :
    ¬∀ (u : Usage) (op : Operation Nat), u.operation wholeNumbers = some op →
      u.ExecutesOnce wholeNumbers op := by
  intro h
  have hop : (Usage.remove (.ofText "stop")).operation wholeNumbers =
      some (.normalDeleteServices (some (.ofText "stop"))) := rfl
  have hclear := clear_of_executesOnce hop (h _ _ hop)
  exact absurd (hclear.2 (.ofText "stop") (List.mem_singleton.mpr rfl)) (by decide)

end MiniRunner.Argv
