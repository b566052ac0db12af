import MiniRunner.Interpreter.Parse

/-!
# Running a script

`mrn_interpreter/run/run.c`. The child of `runMrnFile` goes over the mapped file and handles
a line at each newline, and at the last index what is left behind the last one. What `chdir`
and the programs do is a parameter, and so is `realloc`; opening and mapping the file, `fork`
and the other allocations succeed. Each `giveString` is kept with its bounds.

The two branches of the loop differ in what they free and in where the copy ends: the second
ends one byte behind the file, in the zeros that fill its last page or outside the mapping.

`loop_lines` ties the loop over the bytes to the lines of the file.
-/

namespace MiniRunner

open Clib

namespace Interpreter

namespace Script

variable {W : Type}

/-! ## The model -/

structure Calls (W : Type) where
  chdir : Bytes → W → Int × W
  /-- `fork`, `execvp` and `waitpid` of `runCode`. -/
  execute : List Bytes → W → W
  realloc : Nat → Realloc

/-- The world of the child, and the copies that `giveString` has made. -/
structure Shell (W : Type) where
  world : W
  slices : List Slice

def pageSize : Nat := 4096

/-- `mmap`: behind the file its last page is filled with zeros. -/
def mapped (file : Bytes) : Bytes :=
  file ++ List.replicate ((pageSize - file.length % pageSize) % pageSize) 0

/-- `giveString` on a string of `length` bytes in `memory`. -/
def giveString (memory : Bytes) (length startingIndex endingIndex : Nat) :
    Exec (Shell W) CStr := do
  modify fun s => { s with slices := s.slices ++ [⟨length, startingIndex, endingIndex⟩] }
  if startingIndex ≤ endingIndex ∧ endingIndex ≤ memory.length then
    pure (.ofBytes ((memory.take endingIndex).drop startingIndex))
  else throw .undefined

variable (calls : Calls W)

def ch (path : Bytes) : Exec (Shell W) Int := fun s =>
  let (rc, w) := calls.chdir path s.world
  .ok (if rc ≠ 0 then -1 else 0) { s with world := w }

instance decidableAllocated (e : MrnExec) : Decidable (Allocated e) :=
  decidable_of_iff ((∀ w ∈ e.writes, w.index < w.slots) ∧ e.current = true)
    ⟨fun h => ⟨h.1, h.2⟩, fun h => ⟨h.1, h.2⟩⟩

/-- `runCode`, which reads the array again: that has no meaning once a write went outside. -/
def runCode (e : MrnExec) : Exec (Shell W) Unit :=
  if Allocated e then
    modify fun s => { s with world := calls.execute (e.words.map (·.bytes)) s.world }
  else throw .undefined

/-- `getParse`, with the copies that it makes. -/
def parseCommand (command : CStr) : Exec (Shell W) (Option MrnExec) := fun s =>
  match getParse calls.realloc command command.len with
  | .ok p => .ok (some p.args.exec) { s with slices := s.slices ++ p.slices }
  | .error p => .ok none { s with slices := s.slices ++ p.slices }

/-- `command[0] == 'c' && command[1] == 'd'`. -/
def startsWithCd (command : Bytes) : Bool :=
  command[0]? == some 99 && command[1]? == some 100

/-- What both branches do with the line that they have cut. -/
def runCommand (command : CStr) : Exec (Shell W) Unit := do
  if startsWithCd command.bytes then
    let path ← giveString (command.bytes ++ [0]) command.len 3 command.len
    if (← ch calls path.bytes) ≠ 0 then throw .aborted else pure ()
  else
    match ← parseCommand calls command with
    | none => throw .aborted
    | some newMrnExec => runCode calls newMrnExec

def scriptStep (file : Bytes) (i lastIndex : Nat) : Exec (Shell W) Nat :=
  if file[i]? = some newline then do
    let command ← giveString (mapped file) file.length lastIndex i
    runCommand calls command
    pure (i + 1)
  else if i = file.length - 1 then do
    let command ← giveString (mapped file) file.length lastIndex (file.length + 1)
    runCommand calls command
    pure lastIndex
  else pure lastIndex

def scriptLoop (file : Bytes) : Exec (Shell W) Nat :=
  forFrom (scriptStep calls file) 0 file.length 0

/-- `runMrnFile`. However the child ends, its parent returns 0; but the index of the loop is
an `int`. -/
def runMrnFile (file : Bytes) : Exec (Shell W) Int := fun s =>
  if file = [] then .ok (-1) s
  else if 2 ^ 31 ≤ file.length then .error .undefined s
  else
    match (scriptLoop calls file).run s with
    | .ok _ s' => .ok 0 s'
    | .error .aborted s' => .ok 0 s'
    | .error e s' => .error e s'

/-! ## What a script says -/

/-- The word `cd`. -/
def cd : Bytes := [99, 100]

inductive Action where
  | chdir (path : Bytes)
  | execute (words : List Bytes)
  deriving DecidableEq

/-- A line whose first word is exactly `cd` names a directory, any other is a command. -/
def lineAction (line : Bytes) : Action :=
  if (pieces space line).head? = some cd then .chdir (line.drop 3)
  else .execute (pieces space line)

/-- The actions in turn, up to a directory that cannot be entered. -/
def performAll : List Action → W → W
  | [], w => w
  | .chdir path :: actions, w =>
    let (rc, w) := calls.chdir path w
    if rc ≠ 0 then w else performAll actions w
  | .execute words :: actions, w => performAll actions (calls.execute words w)

/-- The script performs one action for each line, in order, and every `giveString` stays in
the string it was given. -/
def RunsLineByLine (file : Bytes) (w : W) : Prop :=
  Exec.wp (runMrnFile calls file)
    (fun rc s => rc = 0 ∧ s.world = performAll calls ((pieces newline file).map lineAction) w ∧
      ∀ c ∈ s.slices, c.InBounds)
    (fun _ _ => False) ⟨w, []⟩

/-- A line that is handled as it says: `cd` and a blank, or a command of at most 19 words. -/
structure LineOk (line : Bytes) : Prop where
  blank : startsWithCd line = true → (line.drop 2).head? = some space
  words : startsWithCd line = false → (pieces space line).length < initialScaleNumArgs

/-- The script ends with a newline, below 2 GiB, and each of its lines is handled. -/
structure ScriptOk (file : Bytes) : Prop where
  size : file.length < 2 ^ 31
  terminated : file.getLast? = some newline
  noNul : (0 : UInt8) ∉ file
  lines : ∀ line ∈ pieces newline file, LineOk line

/-! ## The lines of the loop -/

/-- A line that starts at `lastIndex`. -/
def doLine (file : Bytes) (lastIndex : Nat) (line : Bytes) : Exec (Shell W) Unit := do
  let command ← giveString (mapped file) file.length lastIndex (lastIndex + line.length)
  runCommand calls command

/-- The lines in turn, with the place behind the last one. -/
def runLines (file : Bytes) : Nat → List Bytes → Exec (Shell W) Nat
  | lastIndex, [] => pure lastIndex
  | lastIndex, line :: lines => do
    doLine calls file lastIndex line
    runLines file (lastIndex + line.length + 1) lines

section loop

variable {calls} {file rest : Bytes}

theorem scriptStep_idle (i lastIndex : Nat) (hlt : i + 1 < file.length)
    (hbyte : file[i]? ≠ some newline) : scriptStep calls file i lastIndex = pure lastIndex := by
  rw [scriptStep, if_neg hbyte, if_neg (by omega)]

/-- **The loop goes line by line.** -/
theorem loop_lines {lines : List Bytes} (hlines : ∀ line ∈ lines, newline ∉ line) {o : Nat}
    (h : file.drop o = lines.flatMap (· ++ [newline]) ++ rest) :
    forFrom (scriptStep calls file) o (lines.flatMap (· ++ [newline])).length o =
      runLines calls file o lines := by
  rw [forFrom_parts scriptStep_idle hlines h]
  clear hlines
  induction lines generalizing o with
  | nil => rfl
  | cons line lines ih =>
    rw [List.flatMap_cons, List.append_assoc, List.append_assoc, List.singleton_append] at h
    rw [overParts, scriptStep, if_pos (getElem?_behind h), runLines]
    simp only [doLine, bind_assoc, pure_bind, ih (drop_next h)]

end loop

/-! ## What a line does -/

theorem startsWithCd_iff {line : Bytes} : startsWithCd line = true ↔ cd <+: line := by
  rw [startsWithCd, Bool.and_eq_true, beq_iff_eq, beq_iff_eq, cd]
  constructor
  · rintro ⟨h₀, h₁⟩
    obtain ⟨c, line, rfl⟩ := List.exists_cons_of_ne_nil (l := line) (by rintro rfl; cases h₀)
    obtain ⟨d, line, rfl⟩ := List.exists_cons_of_ne_nil (l := line) (by rintro rfl; cases h₁)
    cases h₀
    cases h₁
    exact ⟨line, rfl⟩
  · rintro ⟨more, rfl⟩
    exact ⟨rfl, rfl⟩

theorem lineAction_cd (path : Bytes) : lineAction (cd ++ space :: path) = .chdir path := by
  have hcd : space ∉ cd := by decide
  rw [lineAction, pieces_append hcd]
  exact if_pos rfl

theorem lineAction_of_not_cd {line : Bytes} (h : startsWithCd line = false) :
    lineAction line = .execute (pieces space line) := by
  refine if_neg fun hhead => ?_
  have hcd : cd <+: line := by
    rcases eq_of_head?_pieces hhead with rfl | ⟨rest, rfl⟩
    · exact List.prefix_refl cd
    · exact List.prefix_append cd _
  rw [startsWithCd_iff.mpr hcd] at h
  cases h

theorem eq_cd_append {line : Bytes} (h : startsWithCd line = true)
    (hblank : (line.drop 2).head? = some space) : ∃ path, line = cd ++ space :: path := by
  obtain ⟨more, rfl⟩ := startsWithCd_iff.mp h
  obtain ⟨c, path, rfl⟩ := List.exists_cons_of_ne_nil (l := more) (by rintro rfl; cases hblank)
  cases hblank
  exact ⟨path, rfl⟩

def Good (s : Shell W) : Prop := ∀ c ∈ s.slices, c.InBounds

section specs

variable {calls} {s : Shell W}

theorem wp_giveString {memory : Bytes} {length start stop : Nat}
    (h : start ≤ stop ∧ stop ≤ memory.length) {Q : CStr → Shell W → Prop}
    {E : Halt → Shell W → Prop} :
    Exec.wp (giveString memory length start stop) Q E s ↔
      Q (.ofBytes ((memory.take stop).drop start))
        { s with slices := s.slices ++ [⟨length, start, stop⟩] } := by
  simp only [giveString, Exec.wp_bind, Exec.wp_modify, if_pos h, Exec.wp_pure]

theorem wp_giveString_undefined {memory : Bytes} {length start stop : Nat}
    (h : ¬(start ≤ stop ∧ stop ≤ memory.length)) {Q : CStr → Shell W → Prop}
    {E : Halt → Shell W → Prop} :
    Exec.wp (giveString memory length start stop) Q E s ↔
      E .undefined { s with slices := s.slices ++ [⟨length, start, stop⟩] } := by
  simp only [giveString, Exec.wp_bind, Exec.wp_modify, if_neg h, Exec.wp_throw]

theorem wp_ch {path : Bytes} {Q : Int → Shell W → Prop} {E : Halt → Shell W → Prop} :
    Exec.wp (ch calls path) Q E s ↔
      Q (if (calls.chdir path s.world).1 ≠ 0 then -1 else 0)
        { s with world := (calls.chdir path s.world).2 } := Exec.wp_total

theorem wp_parseCommand {command : CStr} {Q : Option MrnExec → Shell W → Prop}
    {E : Halt → Shell W → Prop}
    (hstored : ∀ p, Stored calls.realloc command p →
      Q (some p.args.exec) { s with slices := s.slices ++ p.slices })
    (hgivenUp : ∀ p, GivenUp calls.realloc command p →
      Q none { s with slices := s.slices ++ p.slices }) :
    Exec.wp (parseCommand calls command) Q E s := by
  have hresults := results_getParse calls.realloc command
  unfold Exec.wp parseCommand EStateM.run
  cases hend : getParse calls.realloc command command.len with
  | ok p =>
    rw [hend] at hresults
    exact hstored p hresults
  | error p =>
    rw [hend] at hresults
    exact hgivenUp p hresults

theorem Good.append (hs : Good s) {l : List Slice} (hl : ∀ c ∈ l, c.InBounds) (w : W) :
    Good (⟨w, s.slices ++ l⟩ : Shell W) := fun c hc =>
  (List.mem_append.mp hc).elim (hs c) (hl c)

/-- **A line that is handled** performs its action. -/
theorem wp_runCommand {line : Bytes} (hok : LineOk line) (hnul : (0 : UInt8) ∉ line)
    (hs : Good s) (actions : List Action) :
    Exec.wp (runCommand calls (.ofBytes line))
      (fun _ s' => Good s' ∧
        performAll calls actions s'.world = performAll calls (lineAction line :: actions) s.world)
      (fun e s' => e = .aborted ∧ Good s' ∧
        s'.world = performAll calls (lineAction line :: actions) s.world) s := by
  have hbytes : (CStr.ofBytes line).bytes = line := CStr.ofBytes_bytes_of_noNul hnul
  rw [runCommand, hbytes]
  cases hcd : startsWithCd line with
  | true =>
    obtain ⟨path, rfl⟩ := eq_cd_append hcd (hok.blank hcd)
    have hlen : (CStr.ofBytes (cd ++ space :: path)).len = path.length + 3 := by
      rw [CStr.len, hbytes]
      rfl
    have hrange : 3 ≤ path.length + 3 ∧ path.length + 3 ≤ (cd ++ space :: path ++ [0]).length := by
      simp [cd]
    have hpath : (CStr.ofBytes (((cd ++ space :: path ++ [0]).take (path.length + 3)).drop 3)).bytes
        = path := by
      have htake : (cd ++ space :: path ++ [0]).take (path.length + 3) = cd ++ space :: path :=
        List.take_left' rfl
      rw [htake]
      exact CStr.ofBytes_bytes_of_noNul fun h => hnul (List.mem_of_mem_drop h)
    rw [if_pos rfl, hlen, Exec.wp_bind, wp_giveString hrange, hpath, Exec.wp_bind, wp_ch,
      lineAction_cd]
    have hgood (w : W) :
        Good (⟨w, s.slices ++ [⟨path.length + 3, 3, path.length + 3⟩]⟩ : Shell W) :=
      hs.append (by simp [Slice.InBounds]) w
    by_cases hrc : (calls.chdir path s.world).1 = 0
    · simp only [hrc, ne_eq, not_true_eq_false, if_false, Exec.wp_pure, performAll]
      exact ⟨hgood _, trivial⟩
    · simp only [hrc, ne_eq, not_false_eq_true, if_true, performAll]
      exact (Exec.wp_throw _).mpr ⟨rfl, hgood _, rfl⟩
  | false =>
    have hwords : (commandWords (.ofBytes line)).length = (pieces space line).length := by
      rw [commandWords, List.length_map, hbytes]
    have hlt := hok.words hcd
    rw [← hwords] at hlt
    rw [if_neg Bool.false_ne_true, Exec.wp_bind, lineAction_of_not_cd hcd]
    refine wp_parseCommand (fun p hp => ?_) fun p hp => absurd hp.full (Nat.not_lt_of_lt hlt)
    have hall : Allocated p.args.exec := hp.allocated.mpr (.inl hlt)
    have hargv : p.args.exec.words.map (·.bytes) = pieces space line := by
      rw [hp.words hall, map_bytes_commandWords, hbytes]
    simp only [runCode, if_pos hall, Exec.wp_modify, hargv, performAll]
    exact ⟨hs.append hp.inBounds _, trivial⟩

/-! ## A script that is handled -/

theorem take_mapped {file line rest : Bytes} {o : Nat} (h : file.drop o = line ++ newline :: rest) :
    (o ≤ o + line.length ∧ o + line.length ≤ (mapped file).length) ∧
      o + line.length ≤ file.length ∧ ((mapped file).take (o + line.length)).drop o = line := by
  have hlen := length_of_drop h (by simp)
  have hmapped : (mapped file).length =
      file.length + (pageSize - file.length % pageSize) % pageSize := by
    rw [mapped, List.length_append, List.length_replicate]
  refine ⟨⟨Nat.le_add_right o _, by omega⟩, by omega, ?_⟩
  rw [mapped, List.take_append_of_le_length (by omega), drop_take_of_drop h]

theorem wp_doLine {file line rest : Bytes} {o : Nat} (h : file.drop o = line ++ newline :: rest)
    {Q : Unit → Shell W → Prop} {E : Halt → Shell W → Prop} :
    Exec.wp (doLine calls file o line) Q E s ↔
      Exec.wp (runCommand calls (.ofBytes line)) Q E
        { s with slices := s.slices ++ [⟨file.length, o, o + line.length⟩] } := by
  obtain ⟨hrange, -, hbytes⟩ := take_mapped h
  rw [doLine, Exec.wp_bind, wp_giveString hrange, hbytes]

theorem wp_runLines {file : Bytes} {lines : List Bytes} (hok : ∀ line ∈ lines, LineOk line)
    (hnul : ∀ line ∈ lines, (0 : UInt8) ∉ line) {o : Nat} {rest : Bytes}
    (h : file.drop o = lines.flatMap (· ++ [newline]) ++ rest) (hs : Good s) :
    Exec.wp (runLines calls file o lines)
      (fun _ s' => Good s' ∧ s'.world = performAll calls (lines.map lineAction) s.world)
      (fun e s' => e = .aborted ∧ Good s' ∧
        s'.world = performAll calls (lines.map lineAction) s.world) s := by
  induction lines generalizing o s with
  | nil => exact (Exec.wp_pure _).mpr ⟨hs, rfl⟩
  | cons line lines ih =>
    rw [List.flatMap_cons, List.append_assoc, List.append_assoc, List.singleton_append] at h
    obtain ⟨-, hle, -⟩ := take_mapped h
    have hgood : Good { s with slices := s.slices ++ [⟨file.length, o, o + line.length⟩] } :=
      hs.append (by simpa [Slice.InBounds] using hle) _
    rw [runLines, Exec.wp_bind, wp_doLine h, List.map_cons]
    refine Exec.wp_mono (wp_runCommand (hok line List.mem_cons_self)
      (hnul line List.mem_cons_self) hgood (lines.map lineAction)) ?_ fun e s' h => h
    rintro _ s' ⟨hs', hworld⟩
    rw [← hworld]
    exact ih (fun l hl => hok l (List.mem_cons_of_mem line hl))
      (fun l hl => hnul l (List.mem_cons_of_mem line hl)) (drop_next h) hs'

theorem wp_runMrnFile {file : Bytes} (hne : file ≠ []) (hsize : file.length < 2 ^ 31)
    {P : Shell W → Prop} :
    Exec.wp (runMrnFile calls file) (fun rc s => rc = 0 ∧ P s) (fun _ _ => False) s ↔
      Exec.wp (scriptLoop calls file) (fun _ s => P s) (fun e s => e = .aborted ∧ P s) s := by
  unfold Exec.wp runMrnFile EStateM.run
  simp only [if_neg hne, if_neg (Nat.not_le_of_lt hsize)]
  cases scriptLoop calls file s with
  | ok o s' => simp
  | error e s' => cases e <;> simp

theorem drop_lines {file : Bytes} (h : file.getLast? = some newline) :
    file.drop 0 = (pieces newline file).flatMap (· ++ [newline]) ++ [] := by
  rw [flatMap_pieces h, List.append_nil]
  rfl

theorem scriptLoop_eq {file : Bytes} (h : file.getLast? = some newline) :
    scriptLoop calls file = runLines calls file 0 (pieces newline file) := by
  have hlines : forFrom (scriptStep calls file) 0
      ((pieces newline file).flatMap (· ++ [newline])).length 0 =
      runLines calls file 0 (pieces newline file) :=
    loop_lines (fun _ => notMem_of_mem_pieces) (drop_lines h)
  rwa [flatMap_pieces h] at hlines

theorem ScriptOk.runs {file : Bytes} (h : ScriptOk file) (w : W) :
    RunsLineByLine calls file w := by
  have hne : file ≠ [] := by
    rintro rfl
    cases h.terminated
  rw [RunsLineByLine, wp_runMrnFile hne h.size, scriptLoop_eq h.terminated]
  refine Exec.wp_mono (wp_runLines h.lines ?_ (drop_lines h.terminated) ?_) ?_ ?_
  · exact fun line hline hnul => h.noNul (mem_of_mem_pieces hline hnul)
  · exact fun c hc => absurd hc List.not_mem_nil
  · exact fun _ s' hs' => ⟨hs'.2, hs'.1⟩
  · exact fun e s' hs' => ⟨hs'.1, hs'.2.2, hs'.2.1⟩

/-! ## Only such a script is -/

/-- A world that keeps the actions: every directory can be entered, and a block that grows
moves. -/
def recorder : Calls (List Action) where
  chdir path w := (0, w ++ [.chdir path])
  execute words w := w ++ [.execute words]
  realloc _ := .moves

theorem performAll_recorder (actions : List Action) (w : List Action) :
    performAll recorder actions w = w ++ actions := by
  induction actions generalizing w with
  | nil => exact (List.append_nil w).symm
  | cons a actions ih =>
    cases a with
    | chdir path =>
      simp only [performAll, recorder, ne_eq, not_true_eq_false, if_false]
      exact (ih _).trans (List.append_assoc ..)
    | execute words => exact (ih _).trans (List.append_assoc ..)

def commandAction (command : Bytes) : Action :=
  if startsWithCd command = true then .chdir (command.drop 3)
  else .execute (pieces space command)

structure CommandOk (command : Bytes) : Prop where
  path : startsWithCd command = true → 3 ≤ command.length
  words : startsWithCd command = false → (pieces space command).length < initialScaleNumArgs

/-- A command in that world: its action is kept, or the run has no meaning. -/
theorem wp_runCommand_recorder (command : CStr) (s : Shell (List Action)) :
    Exec.wp (runCommand recorder command)
      (fun _ s' => s'.world = s.world ++ [commandAction command.bytes] ∧
        CommandOk command.bytes ∧ s.slices <+: s'.slices)
      (fun e _ => e = .undefined) s := by
  rw [runCommand]
  cases hcd : startsWithCd command.bytes with
  | true =>
    rw [if_pos rfl, Exec.wp_bind]
    by_cases hlen : 3 ≤ command.len
    · have hrange : 3 ≤ command.len ∧ command.len ≤ (command.bytes ++ [0]).length :=
        ⟨hlen, by simp [CStr.len]⟩
      have htake : (command.bytes ++ [0]).take command.len = command.bytes := List.take_left' rfl
      have hpath : (CStr.ofBytes (command.bytes.drop 3)).bytes = command.bytes.drop 3 :=
        CStr.ofBytes_bytes_of_noNul fun h => command.noNul (List.mem_of_mem_drop h)
      rw [wp_giveString hrange, htake, hpath, Exec.wp_bind, wp_ch]
      simp only [recorder, ne_eq, not_true_eq_false, if_false, Exec.wp_pure, commandAction, hcd,
        if_true, true_and]
      refine ⟨⟨fun _ => hlen, fun h => ?_⟩, List.prefix_append _ _⟩
      rw [hcd] at h
      cases h
    · rw [wp_giveString_undefined fun h => hlen h.1]
  | false =>
    rw [if_neg Bool.false_ne_true, Exec.wp_bind]
    refine wp_parseCommand (fun p hp => ?_) fun p hp => ?_
    · show Exec.wp (runCode recorder p.args.exec) _ _ _
      rw [runCode]
      by_cases hall : Allocated p.args.exec
      · have hwords : (pieces space command.bytes).length < initialScaleNumArgs := by
          have hfits := hp.allocated.mp hall
          rw [commandWords, List.length_map] at hfits
          exact hfits.resolve_right fun h => by simp [recorder] at h
        simp only [if_pos hall, Exec.wp_modify, hp.words hall, map_bytes_commandWords,
          commandAction, hcd, Bool.false_eq_true, if_false]
        refine ⟨rfl, ⟨fun h => ?_, fun _ => hwords⟩, List.prefix_append _ _⟩
        rw [hcd] at h
        cases h
      · rw [if_neg hall]
        exact (Exec.wp_throw _).mpr rfl
    · obtain ⟨size, hsize⟩ := hp.cause
      cases hsize

/-- What the code does with a line: what is behind a NUL does not count. -/
def codeAction (line : Bytes) : Action := commandAction (CStr.ofBytes line).bytes

theorem wp_runLines_recorder {file : Bytes} {lines : List Bytes} {o : Nat} {rest : Bytes}
    (h : file.drop o = lines.flatMap (· ++ [newline]) ++ rest) (s : Shell (List Action)) :
    Exec.wp (runLines recorder file o lines)
      (fun o' s' => o' = o + (lines.flatMap (· ++ [newline])).length ∧
        s'.world = s.world ++ lines.map codeAction ∧
        ∀ line ∈ lines, CommandOk (CStr.ofBytes line).bytes)
      (fun e _ => e = .undefined) s := by
  induction lines generalizing o s with
  | nil => exact (Exec.wp_pure _).mpr ⟨rfl, (List.append_nil _).symm, by simp⟩
  | cons line lines ih =>
    rw [List.flatMap_cons, List.append_assoc, List.append_assoc, List.singleton_append] at h
    rw [runLines, Exec.wp_bind, wp_doLine h]
    refine Exec.wp_mono (wp_runCommand_recorder _ _) ?_ fun _ _ he => he
    rintro _ s₁ ⟨hworld, hline, -⟩
    refine Exec.wp_mono (ih (drop_next h) s₁) ?_ fun _ _ he => he
    rintro o' s' ⟨ho, hrest, hlines⟩
    refine ⟨?_, ?_, List.forall_mem_cons.mpr ⟨hline, hlines⟩⟩
    · rw [ho, List.flatMap_cons, List.length_append, List.length_append, List.length_singleton]
      omega
    · rw [hrest, hworld, List.map_cons, List.append_assoc]
      rfl

/-- **The lines that the code handles as they say.** -/
theorem lineOk_of_codeAction {line : Bytes} (h : codeAction line = lineAction line)
    (hok : CommandOk (CStr.ofBytes line).bytes) : (0 : UInt8) ∉ line ∧ LineOk line := by
  generalize hc : (CStr.ofBytes line).bytes = c at hok
  have hprefix : c <+: line := hc ▸ List.takeWhile_prefix _
  have hnul : (0 : UInt8) ∉ c := hc ▸ (CStr.ofBytes line).noNul
  rw [codeAction, hc, commandAction] at h
  cases hcd : startsWithCd c with
  | true =>
    obtain ⟨more, rfl⟩ := hprefix
    rw [if_pos hcd, lineAction] at h
    split at h
    · rename_i hhead
      -- nothing is behind the command, and what follows its first word is the blank
      rw [List.drop_append_of_le_length (hok.path hcd), Action.chdir.injEq,
        List.self_eq_append_right] at h
      rw [h, List.append_nil] at hhead ⊢
      refine ⟨hnul, fun _ => ?_, fun hno => ?_⟩
      · rcases eq_of_head?_pieces hhead with rfl | ⟨rest, rfl⟩
        · exact absurd (hok.path hcd) (by decide)
        · rfl
      · rw [hcd] at hno
        cases hno
    · cases h
  | false =>
    rw [if_neg (by simp [hcd]), lineAction] at h
    split at h
    · cases h
    · have hpieces := Action.execute.inj h
      have hline : (0 : UInt8) ∉ line := fun hmem => by
        obtain ⟨p, hp, hzero⟩ := exists_mem_pieces space hmem (by decide)
        rw [← hpieces] at hp
        exact hnul (mem_of_mem_pieces hp hzero)
      rw [CStr.ofBytes_bytes_of_noNul hline] at hc
      subst hc
      refine ⟨hline, fun hyes => ?_, hok.words⟩
      rw [hcd] at hyes
      cases hyes

/-- A part behind the last newline is copied with the byte behind the file. -/
theorem wp_last_part {file last : Bytes} {o : Nat} (h : file.drop o = last) (hne : last ≠ [])
    (hlast : newline ∉ last) (s : Shell (List Action)) :
    Exec.wp (forFrom (scriptStep recorder file) o last.length o)
      (fun _ s' => ¬Good s') (fun e _ => e = .undefined) s := by
  obtain ⟨n, hn⟩ : ∃ n, last.length = n + 1 :=
    Nat.exists_eq_succ_of_ne_zero (List.length_pos_iff.mpr hne).ne'
  have hdrop : file.drop o = last ++ [] := by rw [h, List.append_nil]
  have hlen := length_of_drop hdrop (by simpa using hne)
  have hbyte : file[o + n]? ≠ some newline := by
    rw [getElem?_of_drop hdrop (by omega)]
    exact fun heq => hlast (List.mem_of_getElem? heq)
  rw [hn, forFrom_add, forFrom_part scriptStep_idle hlast hdrop (by omega) (by simp at hlen; omega),
    pure_bind, forFrom_succ]
  simp only [scriptStep, if_neg hbyte, forFrom]
  rw [if_pos (by simp at hlen; omega), Exec.wp_bind, Exec.wp_bind]
  by_cases hrange : o ≤ file.length + 1 ∧ file.length + 1 ≤ (mapped file).length
  · rw [wp_giveString hrange, Exec.wp_bind]
    refine Exec.wp_mono (wp_runCommand_recorder _ _) ?_ fun _ _ he => he
    rintro _ s' ⟨-, -, hprefix⟩
    simp only [Exec.wp_pure]
    intro hgood
    have hmem := hprefix.subset (List.mem_append_right s.slices List.mem_cons_self)
    exact Nat.not_succ_le_self file.length (hgood _ hmem).2
  · rw [wp_giveString_undefined hrange]

/-- In that world a script that runs line by line is one that is handled. -/
theorem scriptOk_of_runs {file : Bytes} (hne : file ≠ [])
    (h : RunsLineByLine recorder file []) : ScriptOk file := by
  rw [RunsLineByLine] at h
  have hsize : file.length < 2 ^ 31 := by
    by_contra hlarge
    unfold Exec.wp runMrnFile EStateM.run at h
    simp only [if_neg hne, if_pos (Nat.le_of_not_lt hlarge)] at h
  rw [wp_runMrnFile hne hsize, performAll_recorder] at h
  have hterminated : file.getLast? = some newline := by
    by_contra hopen
    obtain ⟨ps, last, hfile, hlast, hsep, hps⟩ := exists_last_part hne hopen
    have hdrop : file.drop 0 = ps.flatMap (· ++ [newline]) ++ last := hfile
    have hlength : file.length = (ps.flatMap (· ++ [newline])).length + last.length := by
      rw [hfile, List.length_append]
    rw [scriptLoop, hlength, forFrom_add, loop_lines hps hdrop, Exec.wp_bind, Nat.zero_add] at h
    refine Exec.not_wp_false (Exec.wp_mono (Exec.wp_and h (wp_runLines_recorder hdrop _)) ?_ ?_)
    · rintro o s' ⟨hrest, ho, -⟩
      have hbehind : file.drop o = last := by
        rw [ho, Nat.zero_add]
        conv_lhs => rw [hfile]
        exact List.drop_left
      rw [Nat.zero_add] at ho
      rw [← ho] at hrest
      refine Exec.not_wp_false (Exec.wp_mono (Exec.wp_and hrest
        (wp_last_part hbehind hlast hsep s')) ?_ ?_)
      · exact fun _ _ hboth => hboth.2 hboth.1.2
      · rintro e _ ⟨⟨rfl, -⟩, he⟩
        cases he
    · rintro e _ ⟨⟨rfl, -⟩, he⟩
      cases he
  rw [scriptLoop_eq hterminated] at h
  by_contra hno
  have hlogged := wp_runLines_recorder (drop_lines hterminated)
  refine Exec.not_wp_false (Exec.wp_mono (Exec.wp_and h (hlogged _)) ?_ ?_)
  · rintro _ s' ⟨⟨hasked, -⟩, -, hdone, hcommands⟩
    have hactions := List.map_inj_left.mp (hdone.symm.trans hasked)
    have hlines (line : Bytes) (hmem : line ∈ pieces newline file) :=
      lineOk_of_codeAction (hactions line hmem) (hcommands line hmem)
    refine hno ⟨hsize, hterminated, fun hnul => ?_, fun line hmem => (hlines line hmem).2⟩
    obtain ⟨line, hmem, hzero⟩ := exists_mem_pieces newline hnul (by decide)
    exact (hlines line hmem).1 hzero
  · rintro e _ ⟨⟨rfl, -⟩, he⟩
    cases he

/-- **A script runs line by line** in every world exactly when it is one that is handled. -/
theorem runsLineByLine_iff {file : Bytes} (hne : file ≠ []) :
    (∀ (W : Type) (calls : Calls W) (w : W), RunsLineByLine calls file w) ↔ ScriptOk file :=
  ⟨fun h => scriptOk_of_runs hne (h _ recorder []), fun h _ _ w => h.runs w⟩

/-- The script `ls`, with its newline. -/
theorem runsLineByLine_iff_ls :
    (∀ (W : Type) (calls : Calls W) (w : W), RunsLineByLine calls [108, 115, newline] w) ↔
      ScriptOk [108, 115, newline] :=
  runsLineByLine_iff (List.cons_ne_nil _ _)

/-- `cd` alone is cut from behind its end, and a last line without its newline is copied with
a byte more than the file has. -/
theorem not_runsLineByLine :
    ¬RunsLineByLine recorder [99, 100, newline] [] ∧ ¬RunsLineByLine recorder [108, 115] [] := by
  constructor
  · intro h
    have hline := (scriptOk_of_runs (List.cons_ne_nil _ _) h).lines cd List.mem_cons_self
    cases hline.blank rfl
  · intro h
    cases (scriptOk_of_runs (List.cons_ne_nil _ _) h).terminated

end specs

end Script

end Interpreter

end MiniRunner
