import MiniRunner.Argv.Commands
import MiniRunner.Interpreter.Run
import MiniRunner.System.Processes

/-!
# Scripts of commands

A script that runs this program line by line. The interpreter cuts its file into lines and a
line into words, `execvp` starts the program, the loop of `main` finds the command in its
arguments, and the process does it between its constructor and its destructor. For a script
of documented commands all of that together is a run of the database.
-/

namespace MiniRunner.System

open Clib MiniRunner Process Argv Interpreter Script

variable {D W : Type}

/-! ## The machine -/

/-- The world of a script: the files of the program, what else there is, and how a process
has ended after which nothing more is said. -/
structure Machine (W : Type) where
  files : Files
  world : W
  halted : Option Halt

/-- `main`, between the constructor and the destructor. -/
def mainBody (P : Program D (Process W)) (fl : Doubles D) (argv : List CStr) :
    Exec (Process W) Int := fun p =>
  match (mainLoop P fl argv).run ⟨[], ⟨[], p⟩⟩ with
  | .ok rc m => .ok rc m.called.state
  | .error e m => .error e m.called.state

/-- `execvp` and `waitpid`: a process that aborts has ended, too. -/
def invoke (P : Program D (Process W)) (fl : Doubles D) (argv : List CStr) (m : Machine W) :
    Machine W :=
  if m.halted.isSome then m
  else
    match (wholeProcess (mainBody P fl argv)).run (.start m.files m.world) with
    | .ok _ p | .error .aborted p => ⟨p.files, p.world, none⟩
    | .error e p => ⟨p.files, p.world, some e⟩

/-- What a script calls, where `program` is the name of this program. -/
def scriptCalls (program : Bytes) (P : Program D (Process W)) (fl : Doubles D)
    (others : Script.Calls (Machine W)) : Script.Calls (Machine W) where
  chdir := others.chdir
  execute words m :=
    match words with
    | [] => others.execute [] m
    | name :: argv =>
      if name = program then invoke P fl (argv.map CStr.ofBytes) m else others.execute words m
  realloc := others.realloc

/-! ## The script -/

/-- A name that the lines of a script can start with. -/
structure IsProgram (program : Bytes) : Prop where
  blank : space ∉ program
  line : newline ∉ program
  noNul : (0 : UInt8) ∉ program
  notCd : startsWithCd program = false

/-- The program and the arguments of a documented command. -/
def lineWords (program : Bytes) (u : Usage) : List Bytes := program :: u.argv.map (·.bytes)

def commandLine (program : Bytes) (u : Usage) : Bytes := [space].intercalate (lineWords program u)

def scriptText (program : Bytes) (us : List Usage) : Bytes :=
  (us.map (commandLine program)).flatMap (· ++ [newline])

/-- A command that a line of a script can say: `main` accepts it, it works on the data files,
and its operands are words. -/
structure Scripted (fl : Doubles D) (quota : D → BitVec 64) (u : Usage) (cmd : Command) :
    Prop where
  accepted : (u.operation fl).isSome
  clear : u.Clear
  command : u.command fl quota = some cmd
  words : ∀ token ∈ u.operands, space ∉ token.bytes ∧ newline ∉ token.bytes
  /-- A blank at the end of a line starts no further word. -/
  ends : u.argv.getLast? ≠ some (.ofBytes [])

/-! ## A line -/

section line

variable {program : Bytes} {u : Usage}

theorem word_plain (w : Word) : space ∉ w.text.bytes ∧ newline ∉ w.text.bytes := by
  cases w <;> decide +kernel

theorem length_flagText_le (flag : CStr) (given : Bool) :
    (Usage.flagText flag given).length ≤ 1 := by
  cases given with
  | false => exact Nat.zero_le 1
  | true => exact le_rfl

theorem length_jobOptionText_le (long short : CStr) (x : Option (Bool × CStr)) :
    (Usage.jobOptionText long short x).length ≤ 2 := by
  cases x with
  | none => exact Nat.zero_le 2
  | some x => exact le_rfl

theorem length_coresText_le (cores : Option CStr) : (Usage.coresText cores).length ≤ 2 := by
  cases cores with
  | none => exact Nat.zero_le 2
  | some cores => exact le_rfl

theorem length_amountText_le (amount : Option (CStr × Option MemType)) :
    (Usage.amountText amount).length ≤ 4 := by
  obtain _ | ⟨size, _ | type⟩ := amount
  · exact Nat.zero_le 4
  · exact Nat.le_add_left 2 2
  · exact le_rfl

/-- No command has as many words as the array of the interpreter has slots. -/
theorem length_argv_lt (u : Usage) : u.argv.length + 1 < initialScaleNumArgs := by
  rw [Usage.argv, List.length_cons, initialScaleNumArgs]
  cases u with
  | update _ given | find _ given =>
    have := length_flagText_le (.ofText "--stop") given
    have := length_flagText_le (.ofText "--sort") given
    simp only [Usage.operands, List.length_cons]
    omega
  | run _ bash given | restart _ bash given =>
    have := length_flagText_le (.ofText "--attach") given
    have hbash : bash.toList.length ≤ 1 := by cases bash <;> simp
    simp only [Usage.operands, List.cons_append, List.length_cons, List.length_append]
    omega
  | setLimit _ cores amount =>
    have := length_coresText_le cores
    have := length_amountText_le amount
    simp only [Usage.operands, List.cons_append, List.length_cons, List.length_append]
    omega
  | configJob cores amount =>
    have := length_jobOptionText_le (.ofText "--max-cpu") (.ofText "-mc") cores
    have := length_jobOptionText_le (.ofText "--max-memory") (.ofText "-mm") amount
    simp only [Usage.operands, List.cons_append, List.length_cons, List.length_append]
    omega
  | _ => simp [Usage.operands]

theorem not_startsWithCd {rest : Bytes} (h : startsWithCd program = false) :
    startsWithCd (program ++ space :: rest) = false := by
  rw [← Bool.not_eq_true, startsWithCd_iff] at h ⊢
  intro hcd
  cases program with
  | nil => exact absurd hcd (by simp [cd, space])
  | cons c program =>
    cases program with
    | nil => exact absurd hcd (by simp [cd, space])
    | cons d program =>
      refine h ?_
      simpa [cd] using hcd

variable {fl : Doubles D} {quota : D → BitVec 64} {cmd : Command}

theorem notMem_commandLine {c : UInt8} (hc : c ≠ space)
    (hwords : ∀ word ∈ lineWords program u, c ∉ word) : c ∉ commandLine program u := by
  have hintercalate : ∀ l : List Bytes, (∀ word ∈ l, c ∉ word) → c ∉ [space].intercalate l := by
    intro l hl
    induction l with
    | nil => exact List.not_mem_nil
    | cons word l ih =>
      obtain ⟨hword, hrest⟩ := List.forall_mem_cons.mp hl
      cases l with
      | nil => rwa [List.intercalate_singleton]
      | cons next l =>
        rw [List.intercalate_cons_of_ne_nil (List.cons_ne_nil next l), List.append_assoc]
        simp [hword, hc, ih hrest]
  exact hintercalate _ hwords

theorem Scripted.lineWords (h : Scripted fl quota u cmd) (hprogram : IsProgram program) :
    ∀ word ∈ lineWords program u, space ∉ word ∧ newline ∉ word ∧ (0 : UInt8) ∉ word := by
  simp only [System.lineWords, Usage.argv, List.map_cons, List.forall_mem_cons, List.forall_mem_map]
  refine ⟨⟨hprogram.blank, hprogram.line, hprogram.noNul⟩, ?_, fun token htoken => ?_⟩
  · exact ⟨(word_plain u.word).1, (word_plain u.word).2, u.word.text.noNul⟩
  · exact ⟨(h.words token htoken).1, (h.words token htoken).2, token.noNul⟩

/-- **The interpreter finds the words again.** -/
theorem pieces_commandLine (h : Scripted fl quota u cmd) (hprogram : IsProgram program) :
    pieces space (commandLine program u) = lineWords program u := by
  refine pieces_intercalate (fun word hword => (h.lineWords hprogram word hword).1) fun hlast => ?_
  have hargv : u.argv.map (·.bytes) ≠ [] := by simp [Usage.argv]
  rw [lineWords, List.getLast?_cons_of_ne_nil hargv, List.getLast?_map] at hlast
  obtain ⟨token, htoken, hnil⟩ := Option.map_eq_some_iff.mp hlast
  refine h.ends (htoken.trans (congrArg some (CStr.ext ?_)))
  exact hnil

theorem startsWithCd_commandLine (hprogram : IsProgram program) :
    startsWithCd (commandLine program u) = false := by
  have hargv : u.argv.map (·.bytes) ≠ [] := by simp [Usage.argv]
  rw [commandLine, lineWords, List.intercalate_cons_of_ne_nil hargv, List.append_assoc]
  exact not_startsWithCd hprogram.notCd

theorem lineAction_commandLine (h : Scripted fl quota u cmd) (hprogram : IsProgram program) :
    lineAction (commandLine program u) = .execute (lineWords program u) := by
  rw [lineAction_of_not_cd (startsWithCd_commandLine hprogram), pieces_commandLine h hprogram]

theorem lineOk_commandLine (h : Scripted fl quota u cmd) (hprogram : IsProgram program) :
    LineOk (commandLine program u) := by
  have hcd : startsWithCd (commandLine program u) = false := startsWithCd_commandLine hprogram
  refine ⟨fun hyes => ?_, fun _ => ?_⟩
  · rw [hcd] at hyes
    cases hyes
  · rw [pieces_commandLine h hprogram, System.lineWords, List.length_cons, List.length_map]
    exact length_argv_lt u

end line

/-! ## A process -/

section process

variable {sys : Calls W} {quota : D → BitVec 64} {other : Operation D → Exec (Process W) Int}
  {given : CStr} {fl : Doubles D} {program : Bytes}

/-- **`main` is its command.** -/
theorem mainBody_eq {u : Usage} {cmd : Command} (hlen : given.len < 2)
    (hn : given ≠ .ofText "n") (hN : given ≠ .ofText "N") (h : Scripted fl quota u cmd) :
    mainBody (processProgram sys quota other given) fl u.argv = cmd.exec sys := by
  obtain ⟨op, hop⟩ := Option.isSome_iff_exists.mp h.accepted
  funext p
  have hspec : Exec.wp (cmd.exec sys) (fun rc p' => cmd.exec sys p = .ok rc p')
      (fun e p' => cmd.exec sys p = .error e p') p := by
    unfold Exec.wp EStateM.run
    cases cmd.exec sys p <;> rfl
  have hmain : Exec.wp (mainLoop (processProgram sys quota other given) fl u.argv)
      (fun rc m => cmd.exec sys p = .ok rc m.called.state)
      (fun e m => cmd.exec sys p = .error e m.called.state) ⟨[], ⟨[], p⟩⟩ :=
    mainLoop_command hlen hn hN hop h.clear h.command hspec
  unfold Exec.wp at hmain
  unfold mainBody
  split at hmain <;> rename_i hrun
  · rw [hrun, hmain]
  · rw [hrun, hmain]

/-- A process on files that stand for something: it is a step, or it has done what is
undefined. -/
theorem invoke_steps {u : Usage} {cmd : Command} (hlen : given.len < 2)
    (hn : given ≠ .ofText "n") (hN : given ≠ .ofText "N") (h : Scripted fl quota u cmd)
    {m : Machine W} (hm : m.halted = none) {st : Option Database} (hst : Stands m.files st)
    {m' : Machine W}
    (hinvoke : invoke (processProgram sys quota other given) fl u.argv m = m') :
    m'.halted = some .undefined ∨ m'.halted = none ∧
      ∃ e : Event, e.command = cmd ∧ ProcessStep m.files e m'.files := by
  have hwaits := hst.never_waits cmd sys m.world
  rw [invoke, hm, if_neg (by simp), mainBody_eq hlen hn hN h] at hinvoke
  split at hinvoke
  · rename_i rc p hrun
    subst hinvoke
    exact .inr ⟨rfl, ⟨cmd, .exits rc⟩, rfl, .exits hrun⟩
  · rename_i p hrun
    subst hinvoke
    exact .inr ⟨rfl, ⟨cmd, .aborts⟩, rfl, .aborts hrun⟩
  · rename_i e p habort hrun
    subst hinvoke
    cases e with
    | aborted => exact (habort rfl).elim
    | undefined => exact .inl rfl
    | blocked => exact absurd rfl (Exec.wp_run_error hwaits hrun)

def invokeAll (P : Program D (Process W)) (fl : Doubles D) (us : List Usage) (m : Machine W) :
    Machine W :=
  us.foldl (fun m u => invoke P fl u.argv m) m

theorem invokeAll_halted {P : Program D (Process W)} (us : List Usage) {m : Machine W}
    (h : m.halted.isSome) : invokeAll P fl us m = m := by
  induction us with
  | nil => rfl
  | cons u us ih =>
    have hinvoke : invoke P fl u.argv m = m := if_pos h
    rw [invokeAll, List.foldl_cons, hinvoke]
    exact ih

/-- The lines of a script perform its processes. -/
theorem performAll_scriptCalls {P : Program D (Process W)} {others : Script.Calls (Machine W)}
    (us : List Usage) (m : Machine W) :
    performAll (scriptCalls program P fl others)
      (us.map fun u => .execute (lineWords program u)) m = invokeAll P fl us m := by
  induction us generalizing m with
  | nil => rfl
  | cons u us ih =>
    have hwords : (u.argv.map (·.bytes)).map CStr.ofBytes = u.argv := by
      rw [List.map_map]
      exact List.map_id'' (fun token => token.ofBytes_bytes) _
    have hfirst : (scriptCalls program P fl others).execute (lineWords program u) m =
        invoke P fl u.argv m := by
      simp only [scriptCalls, lineWords, if_true, hwords]
    rw [List.map_cons, performAll, ih, hfirst]
    rfl

/-- All of them together, up to one that has done what is undefined. -/
theorem invokeAll_steps {us : List Usage} {cmds : List Command} (hlen : given.len < 2)
    (hn : given ≠ .ofText "n") (hN : given ≠ .ofText "N")
    (h : List.Forall₂ (Scripted fl quota) us cmds) {m : Machine W} (hm : m.halted = none)
    {st : Option Database} (hst : Stands m.files st) {m' : Machine W}
    (hall : invokeAll (processProgram sys quota other given) fl us m = m') :
    m'.halted = some .undefined ∨ m'.halted = none ∧
      ∃ events : List Event, events.map (·.command) = cmds ∧
        Steps ProcessStep events m.files m'.files := by
  induction h generalizing m st with
  | nil =>
    subst hall
    exact .inr ⟨hm, [], rfl, .nil _⟩
  | @cons u cmd us cmds hu _ ih =>
    rw [invokeAll, List.foldl_cons] at hall
    generalize hfirst : invoke (processProgram sys quota other given) fl u.argv m = m₁ at hall
    obtain hundefined | ⟨hm₁, e, rfl, hstep⟩ := invoke_steps hlen hn hN hu hm hst hfirst
    · have hstays : m₁ = m' :=
        (invokeAll_halted us (by rw [hundefined]; rfl)).symm.trans hall
      exact .inl (hstays ▸ hundefined)
    · obtain ⟨st₁, -, hst₁⟩ := processes_simulate.match_step hst hstep
      obtain hundefined | ⟨hm', events, hevents, hsteps⟩ := ih hm₁ hst₁ hall
      · exact .inl hundefined
      · exact .inr ⟨hm', e :: events, by rw [List.map_cons, hevents], .cons hstep hsteps⟩

end process

/-! ## The script -/

section script

variable {sys : Calls W} {quota : D → BitVec 64} {other : Operation D → Exec (Process W) Int}
  {given : CStr} {fl : Doubles D} {program : Bytes} {us : List Usage} {cmds : List Command}

theorem exists_scripted (h : List.Forall₂ (Scripted fl quota) us cmds) :
    ∀ u ∈ us, ∃ cmd, Scripted fl quota u cmd := by
  induction h with
  | nil => exact fun _ hu => absurd hu List.not_mem_nil
  | cons hu _ ih => exact List.forall_mem_cons.mpr ⟨⟨_, hu⟩, ih⟩

/-- What a script of commands asks for, line by line. -/
theorem actions_scriptText (h : List.Forall₂ (Scripted fl quota) us cmds)
    (hprogram : IsProgram program) :
    (pieces newline (scriptText program us)).map lineAction =
        us.map (fun u => .execute (lineWords program u)) ∧
      ∀ line ∈ pieces newline (scriptText program us), LineOk line ∧ (0 : UInt8) ∉ line := by
  have hscripted := exists_scripted h
  have hpieces : pieces newline (scriptText program us) = us.map (commandLine program) := by
    refine pieces_flatMap fun line hline => ?_
    obtain ⟨u, hu, rfl⟩ := List.mem_map.mp hline
    obtain ⟨cmd, hcmd⟩ := hscripted u hu
    exact notMem_commandLine (by decide) fun word hword => (hcmd.lineWords hprogram word hword).2.1
  rw [hpieces, List.map_map]
  refine ⟨List.map_congr_left fun u hu => ?_, List.forall_mem_map.mpr fun u hu => ?_⟩
  · obtain ⟨cmd, hcmd⟩ := hscripted u hu
    exact lineAction_commandLine hcmd hprogram
  · obtain ⟨cmd, hcmd⟩ := hscripted u hu
    refine ⟨lineOk_commandLine hcmd hprogram, ?_⟩
    exact notMem_commandLine (by decide) fun word hword => (hcmd.lineWords hprogram word hword).2.2

theorem scriptOk_scriptText (h : List.Forall₂ (Scripted fl quota) us cmds)
    (hprogram : IsProgram program) (hne : us ≠ [])
    (hsize : (scriptText program us).length < 2 ^ 31) : ScriptOk (scriptText program us) := by
  obtain ⟨-, hlines⟩ := actions_scriptText h hprogram
  refine ⟨hsize, ?_, fun hnul => ?_, fun line hline => (hlines line hline).1⟩
  · obtain ⟨us, u, rfl⟩ := List.eq_nil_or_concat' us |>.resolve_left hne
    rw [scriptText, List.map_append, List.flatMap_append]
    simp
  · obtain ⟨line, hline, hzero⟩ := exists_mem_pieces newline hnul (by decide)
    exact (hlines line hline).2 hzero

/-- The lines `mr rename a b` and `mr remove-job j`. -/
def renameAndRemove : List Usage :=
  [.rename (.ofText "a") (.ofText "b"), .removeJob (.ofText "j")]

def nothingElse : Script.Calls (Machine Unit) := ⟨fun _ m => (0, m), fun _ m => m, fun _ => .moves⟩

theorem scripted_renameAndRemove (quota : Nat → BitVec 64) :
    List.Forall₂ (Scripted wholeNumbers quota) renameAndRemove
      [.rename (.ofText "a") (.ofText "b"), .removeJob (.ofText "j")] := by
  refine .cons ⟨by decide +kernel, ⟨trivial, by decide +kernel⟩, rfl, by decide +kernel, ?_⟩
    (.cons ⟨rfl, ⟨trivial, by decide +kernel⟩, rfl, by decide +kernel, ?_⟩ .nil)
  · decide +kernel
  · decide +kernel

end script

end MiniRunner.System
