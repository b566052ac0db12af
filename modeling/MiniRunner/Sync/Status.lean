import MiniRunner.Clib.FileSteps
import MiniRunner.Clib.Runs
import MiniRunner.Ops.Update

/-!
# Updates side by side

The update status is one file for all processes, and it does not count the updates that are
under way. Here updates and neglects of them run side by side, and other processes come
between any two steps of a write: the backup, the truncation, each byte of the copy. A process
may be killed anywhere, which is also how one ends whose pull fails. SIGINT ends it too, but
once it has made its backup the handler puts that backup into the status and the process goes
on; that a second SIGINT in a pull meets `read` is left out.

While an update pulls, no look at the status may find it idle. `sealed_iff` says when that
holds whatever the schedule is.
-/

namespace MiniRunner.Status

open Clib MiniRunner Update

/-! ## Processes -/

inductive Op where
  /-- Open, make the backup and set the handler. -/
  | backup
  | file (step : FileStep Path)
  | pull

/-- `writeUpdateAvialable`, step by step. -/
def writeOps (dataToWrite : Bytes) : List Op :=
  .backup :: (FileStep.rewriteSteps (.file .updateStatus) dataToWrite).map .file

inductive Kind where
  | updates | neglects
  deriving DecidableEq

/-- `updateService` with a pull that goes through, and `neglectUpdate`. -/
def Kind.ops : Kind → List Op
  | updates => writeOps updatingText ++ .pull :: writeOps idleText
  | neglects => writeOps idleText

/-- `createBackupForUpdateStatus` and `applyBackupUpdateStatus`, which are taken as one step. -/
def createBackup (fs : Files) : Files :=
  doBackupFiles (.file .updateStatus) (.fileCopy .updateStatus) fs

def applyBackup (fs : Files) : Files :=
  doBackupFiles (.fileCopy .updateStatus) (.file .updateStatus) fs

def Op.apply (fs : Files) : Op → Files
  | backup => createBackup fs
  | file step => FileStep.apply fs step
  | pull => fs

def applyOps (ops : List Op) (fs : Files) : Files := ops.foldl Op.apply fs

/-- A process: what it has still to do, and whether its handler is set. -/
structure Party where
  todo : List Op
  handles : Bool

structure State where
  files : Files
  parties : List Party

inductive Act where
  | step (i : Nat)
  | kill (i : Nat)
  /-- SIGINT. -/
  | interrupt (i : Nat)
  deriving DecidableEq

/-- The processes with another one at an index. -/
def State.withParty (s : State) (i : Nat) (party : Party) : State :=
  { s with parties := s.parties.set i party }

def statusStep : Act → State → Option State
  | .step i, s =>
    match s.parties[i]? with
    | some ⟨op :: todo, _⟩ => some ⟨op.apply s.files, s.parties.set i ⟨todo, true⟩⟩
    | _ => none
  | .kill i, s =>
    match s.parties[i]? with
    | some ⟨_ :: _, handles⟩ => some (s.withParty i ⟨[], handles⟩)
    | _ => none
  | .interrupt i, s =>
    match s.parties[i]? with
    | some ⟨_ :: _, true⟩ => some { s with files := applyBackup s.files }
    | some ⟨_ :: _, false⟩ => some (s.withParty i ⟨[], false⟩)
    | _ => none

def start (kinds : List Kind) (files : Files) : State := ⟨files, kinds.map fun k => ⟨k.ops, false⟩⟩

def Party.Pulls (party : Party) : Prop := party.todo.head? = some .pull

/-- While one pulls, the status does not read idle. -/
def Sealed (s : State) : Prop :=
  ∀ party ∈ s.parties, party.Pulls → isIdle (s.files.content (.file .updateStatus)) = false

/-- A schedule in which nobody gets SIGINT. -/
def Undisturbed (acts : List Act) : Prop := ∀ i, .interrupt i ∉ acts

/-! ## One process -/

section ops

variable {fs : Files} {text : Bytes}

theorem applyOps_append (ops ops' : List Op) (fs : Files) :
    applyOps (ops ++ ops') fs = applyOps ops' (applyOps ops fs) := List.foldl_append

theorem applyOps_map_file (steps : List (FileStep Path)) (fs : Files) :
    applyOps (steps.map .file) fs = FileStep.applyAll steps fs := List.foldl_map

theorem content_createBackup (fs : Files) (q : Path) : (createBackup fs).content q =
    if q = .fileCopy .updateStatus ∧ fs.content (.file .updateStatus) ≠ [] then
      fs.content (.file .updateStatus)
    else fs.content q := content_doBackupFiles _ _ q fs

theorem content_writeOps (text : Bytes) (fs : Files) (q : Path) :
    (applyOps (writeOps text) fs).content q =
      if q = .file .updateStatus then text else (createBackup fs).content q := by
  show (applyOps ((FileStep.rewriteSteps (.file .updateStatus) text).map .file)
    (createBackup fs)).content q = _
  rw [applyOps_map_file, FileStep.content_rewriteSteps]

/-- **It does what `writeUpdateAvialable` does.** -/
theorem solo_write (hne : text ≠ []) (fs : Files) :
    Exec.wp (writeUpdateAvialable none text)
      (fun rc fs' => rc = 0 ∧ ∀ q, fs'.content q = (applyOps (writeOps text) fs).content q)
      (fun _ _ => False) fs := by
  have hbackup : ∀ q, (doBackupFiles (.file .updateStatus) (.fileCopy .updateStatus)
      (fs.openCreate (.file .updateStatus))).content q = (createBackup fs).content q := fun q => by
    simp only [content_createBackup, content_doBackupFiles, FileStore.content_openCreate]
  have hcopied : ∀ old : Bytes, copyInto (ftruncate text.length old) text = text := fun _ =>
    copyInto_of_length_eq (length_ftruncate _ _)
  simp only [writeUpdateAvialable, reduceCtorEq, if_false, if_neg hne, Exec.wp_bind, Exec.wp_modify,
    wp_doBackup, ne_eq, not_true_eq_false, FileStore.content_put, hcopied, Exec.wp_pure, true_and]
  intro q
  rw [content_writeOps]
  split
  · rename_i hq
    rw [hq, FileStore.content_put]
  · rename_i hq
    rw [FileStore.content_put_of_ne hq, FileStore.content_put_of_ne hq, hbackup]

end ops

/-! ## Alone -/

section alone

variable {todo : List Op} {fs : Files}

theorem pull_notMem_writeOps (text : Bytes) : .pull ∉ writeOps text := by
  simp [writeOps]

/-- **The process shuts the gate before it pulls**: what it has still to do up to a pull
leaves `updating`. -/
def Shuts (fs : Files) (todo : List Op) : Prop :=
  ∀ before after, todo = before ++ .pull :: after →
    (applyOps before fs).content (.file .updateStatus) = updatingText

theorem shuts_of_no_pull (h : .pull ∉ todo) : Shuts fs todo := by
  rintro before after rfl
  exact absurd (List.mem_append_right before List.mem_cons_self) h

theorem shuts_ops (kind : Kind) : Shuts fs kind.ops := by
  cases kind with
  | neglects => exact shuts_of_no_pull (pull_notMem_writeOps _)
  | updates =>
    intro before after hsplit
    obtain ⟨rfl, -⟩ := (List.append_cons_inj_of_notMem (pull_notMem_writeOps _)
      (pull_notMem_writeOps _)).mp hsplit
    rw [content_writeOps, if_pos rfl]

theorem Shuts.step {op : Op} (h : Shuts fs (op :: todo)) : Shuts (op.apply fs) todo := by
  rintro before after rfl
  exact h (op :: before) after rfl

theorem Party.Pulls.exists_cons {party : Party} (h : party.Pulls) :
    ∃ rest, party.todo = .pull :: rest := by
  obtain ⟨op, rest, htodo⟩ := List.exists_cons_of_ne_nil (l := party.todo)
    (by rintro hnil; rw [Party.Pulls, hnil] at h; cases h)
  rw [Party.Pulls, htodo] at h
  cases h
  exact ⟨rest, htodo⟩

theorem sealed_of_shuts {s : State} (h : ∀ party ∈ s.parties, Shuts s.files party.todo) :
    Sealed s := by
  intro party hmem hpulls
  obtain ⟨rest, htodo⟩ := hpulls.exists_cons
  have hstatus : s.files.content (.file .updateStatus) = updatingText := h party hmem [] rest htodo
  rw [hstatus]
  decide

theorem sealed_of_no_pull {s : State} (h : ∀ party ∈ s.parties, .pull ∉ party.todo) :
    Sealed s := by
  intro party hmem hpulls
  obtain ⟨rest, htodo⟩ := hpulls.exists_cons
  exact absurd (htodo ▸ List.mem_cons_self) (h party hmem)

/-- What a step is: the next one of a process, its end, or its handler. -/
theorem statusStep_cases {a : Act} {s s' : State} (h : statusStep a s = some s') :
    ∃ i op todo handles, s.parties[i]? = some ⟨op :: todo, handles⟩ ∧
      (s' = ⟨op.apply s.files, s.parties.set i ⟨todo, true⟩⟩ ∨ s' = s.withParty i ⟨[], handles⟩ ∨
        a = .interrupt i ∧ s' = { s with files := applyBackup s.files }) := by
  cases a with
  | step i =>
    simp only [statusStep] at h
    split at h
    · rename_i op todo handles hparty
      cases h
      exact ⟨i, op, todo, handles, hparty, .inl rfl⟩
    · cases h
  | kill i =>
    simp only [statusStep] at h
    split at h
    · rename_i op todo handles hparty
      cases h
      exact ⟨i, op, todo, handles, hparty, .inr (.inl rfl)⟩
    · cases h
  | interrupt i =>
    simp only [statusStep] at h
    split at h
    · rename_i op todo hparty
      cases h
      exact ⟨i, op, todo, true, hparty, .inr (.inr ⟨rfl, rfl⟩)⟩
    · rename_i op todo hparty
      cases h
      exact ⟨i, op, todo, false, hparty, .inr (.inl rfl)⟩
    · cases h

theorem noPull_step {a : Act} {s s' : State} (h : ∀ party ∈ s.parties, .pull ∉ party.todo)
    (hstep : statusStep a s = some s') : ∀ party ∈ s'.parties, .pull ∉ party.todo := by
  obtain ⟨i, op, todo, handles, hparty, hcase⟩ := statusStep_cases hstep
  have hold : .pull ∉ op :: todo := h _ (List.mem_of_getElem? hparty)
  rcases hcase with rfl | rfl | ⟨-, rfl⟩
  · intro party hmem
    rcases List.mem_or_eq_of_mem_set hmem with hmem | rfl
    · exact h party hmem
    · exact fun hpull => hold (List.mem_cons_of_mem op hpull)
  · intro party hmem
    rcases List.mem_or_eq_of_mem_set hmem with hmem | rfl
    · exact h party hmem
    · exact List.not_mem_nil
  · exact h

/-- One process by itself, without SIGINT. -/
theorem shuts_step {a : Act} {s s' : State} (ha : ∀ i, a ≠ .interrupt i)
    (hone : s.parties.length ≤ 1) (h : ∀ party ∈ s.parties, Shuts s.files party.todo)
    (hstep : statusStep a s = some s') :
    s'.parties.length ≤ 1 ∧ ∀ party ∈ s'.parties, Shuts s'.files party.todo := by
  obtain ⟨i, op, todo, handles, hparty, hcase⟩ := statusStep_cases hstep
  obtain ⟨party₀, hparties⟩ : ∃ party₀, s.parties = [party₀] := by
    obtain ⟨hlt, -⟩ := List.getElem?_eq_some_iff.mp hparty
    exact List.length_eq_one_iff.mp (by omega)
  obtain rfl : i = 0 := by
    obtain ⟨hlt, -⟩ := List.getElem?_eq_some_iff.mp hparty
    omega
  have hset : ∀ party, s.parties.set 0 party = [party] := fun party => by rw [hparties]; rfl
  have hold : Shuts s.files (op :: todo) := h _ (List.mem_of_getElem? hparty)
  rcases hcase with rfl | rfl | ⟨rfl, -⟩
  · rw [hset]
    exact ⟨le_rfl, List.forall_mem_singleton.mpr hold.step⟩
  · rw [State.withParty, hset]
    exact ⟨le_rfl, List.forall_mem_singleton.mpr (shuts_of_no_pull List.not_mem_nil)⟩
  · exact absurd rfl (ha 0)

end alone

/-! ## Together -/

section together

variable {s : State} {i : Nat} {rest : List Op}

/-- A process is taken through its next steps. -/
theorem runs_party {ops : List Op} (hne : ops ≠ []) {handles : Bool}
    (hparty : s.parties[i]? = some ⟨ops ++ rest, handles⟩) :
    runs statusStep (List.replicate ops.length (.step i)) s =
      some ⟨applyOps ops s.files, s.parties.set i ⟨rest, true⟩⟩ := by
  induction ops generalizing s handles with
  | nil => exact absurd rfl hne
  | cons op ops ih =>
    have hlt : i < s.parties.length := (List.getElem?_eq_some_iff.mp hparty).1
    rw [List.length_cons, List.replicate_succ, runs_cons]
    refine ⟨⟨op.apply s.files, s.parties.set i ⟨ops ++ rest, true⟩⟩, ?_, ?_⟩
    · simp only [statusStep, hparty, List.cons_append]
    · by_cases hnil : ops = []
      · subst hnil
        rfl
      · have hnext := ih (s := ⟨op.apply s.files, s.parties.set i ⟨ops ++ rest, true⟩⟩) hnil
          (List.getElem?_set_self hlt)
        rw [hnext, List.set_set]
        rfl

theorem exists_pulling {kinds : List Kind} (files : Files) (hi : kinds[i]? = some .updates) :
    ∃ s, runs statusStep (List.replicate (writeOps updatingText).length (.step i))
        (start kinds files) = some s ∧
      s.parties = (start kinds files).parties.set i ⟨.pull :: writeOps idleText, true⟩ ∧
      s.files = applyOps (writeOps updatingText) files := by
  have hparty : (start kinds files).parties[i]? =
      some ⟨writeOps updatingText ++ .pull :: writeOps idleText, false⟩ := by
    simp [start, hi, Kind.ops]
  exact ⟨_, runs_party (by simp [writeOps]) hparty, rfl, rfl⟩

theorem status_ops (kind : Kind) (files : Files) :
    (applyOps kind.ops files).content (.file .updateStatus) = idleText := by
  cases kind with
  | neglects => rw [Kind.ops, content_writeOps, if_pos rfl]
  | updates =>
    have hsplit : Kind.updates.ops = (writeOps updatingText ++ [.pull]) ++ writeOps idleText := by
      simp [Kind.ops]
    rw [hsplit, applyOps_append, content_writeOps, if_pos rfl]

theorem ops_ne_nil (kind : Kind) : kind.ops ≠ [] := by
  cases kind <;> simp [Kind.ops, writeOps]

theorem not_sealed {s : State} {handles : Bool}
    (hparty : s.parties[i]? = some ⟨.pull :: rest, handles⟩)
    (hidle : isIdle (s.files.content (.file .updateStatus)) = true) : ¬Sealed s := fun h => by
  have hshut := h _ (List.mem_of_getElem? hparty) rfl
  rw [hidle] at hshut
  cases hshut

theorem undisturbed_replicate (n i : Nat) : Undisturbed (List.replicate n (.step i)) :=
  fun _ hmem => by cases List.eq_of_mem_replicate hmem

/-- Somebody else opens the gate of an update that pulls. -/
theorem exists_unsealed_of_other {kinds : List Kind} (files : Files) {j : Nat} {kind : Kind}
    (hi : kinds[i]? = some .updates) (hj : kinds[j]? = some kind) (hne : i ≠ j) :
    ∃ acts s, Undisturbed acts ∧ runs statusStep acts (start kinds files) = some s ∧ ¬Sealed s := by
  obtain ⟨s₁, hfirst, hparties, -⟩ := exists_pulling files hi
  have hlt : i < (start kinds files).parties.length := by
    simpa [start] using (List.getElem?_eq_some_iff.mp hi).1
  have hother : s₁.parties[j]? = some ⟨kind.ops ++ [], false⟩ := by
    rw [hparties, List.getElem?_set_ne hne]
    simp [start, hj]
  have hsecond := runs_party (ops_ne_nil kind) hother
  have hpulls : (s₁.parties.set j ⟨[], true⟩)[i]? = some ⟨.pull :: writeOps idleText, true⟩ := by
    rw [List.getElem?_set_ne (Ne.symm hne), hparties, List.getElem?_set_self hlt]
  have hopen : isIdle ((applyOps kind.ops s₁.files).content (.file .updateStatus)) = true := by
    rw [status_ops]
    decide
  refine ⟨_, _, fun k hmem => ?_, runs_append hfirst hsecond, not_sealed hpulls hopen⟩
  rcases List.mem_append.mp hmem with hmem | hmem
  · exact undisturbed_replicate _ i k hmem
  · exact undisturbed_replicate _ j k hmem

/-- So does SIGINT, where the gate was open before the update. -/
theorem exists_unsealed_of_interrupt {kinds : List Kind} {files : Files}
    (hi : kinds[i]? = some .updates)
    (hidle : isIdle (files.content (.file .updateStatus)) = true) :
    ∃ acts s, runs statusStep acts (start kinds files) = some s ∧ ¬Sealed s := by
  obtain ⟨s₁, hfirst, hparties, hfiles⟩ := exists_pulling files hi
  have hlt : i < (start kinds files).parties.length := by
    simpa [start] using (List.getElem?_eq_some_iff.mp hi).1
  have hparty : s₁.parties[i]? = some ⟨.pull :: writeOps idleText, true⟩ := by
    rw [hparties, List.getElem?_set_self hlt]
  have hstep : statusStep (.interrupt i) s₁ = some { s₁ with files := applyBackup s₁.files } := by
    simp only [statusStep, hparty]
  have hlast : runs statusStep [.interrupt i] s₁ = some { s₁ with files := applyBackup s₁.files } :=
    runs_cons.mpr ⟨_, hstep, rfl⟩
  refine ⟨_, _, runs_append hfirst hlast, not_sealed (s := ⟨_, _⟩) hparty ?_⟩
  -- the backup is what was there before the update
  have hne : files.content (.file .updateStatus) ≠ [] := by
    intro hnil
    rw [hnil] at hidle
    revert hidle
    decide
  have hcopy : s₁.files.content (.fileCopy .updateStatus) =
      files.content (.file .updateStatus) := by
    rw [hfiles, content_writeOps, if_neg (by decide), content_createBackup, if_pos ⟨rfl, hne⟩]
  rw [applyBackup, content_doBackupFiles, hcopy, if_pos ⟨rfl, hne⟩]
  exact hidle

end together

/-- **When the gate holds**: whatever the schedule is, no look at the status while an update
pulls finds it idle, if and only if there is no update, or the one process there is is an
update and nobody gets SIGINT. -/
theorem sealed_iff (kinds : List Kind) {files : Files}
    (hidle : isIdle (files.content (.file .updateStatus)) = true) (disturbed : Bool) :
    (∀ acts s, (disturbed = false → Undisturbed acts) →
      runs statusStep acts (start kinds files) = some s → Sealed s) ↔
      .updates ∉ kinds ∨ disturbed = false ∧ kinds.length = 1 := by
  constructor
  · intro h
    by_contra hno
    obtain ⟨hupdate, hmore⟩ := not_or.mp hno
    obtain ⟨i, hi⟩ := List.mem_iff_getElem?.mp (not_not.mp hupdate)
    cases disturbed with
    | true =>
      obtain ⟨acts, s, hrun, hunsealed⟩ := exists_unsealed_of_interrupt hi hidle
      exact hunsealed (h acts s Bool.noConfusion hrun)
    | false =>
      have hlt : i < kinds.length := (List.getElem?_eq_some_iff.mp hi).1
      have hlen : kinds.length ≠ 1 := fun hone => hmore ⟨rfl, hone⟩
      obtain ⟨j, hj, hne⟩ : ∃ j, j < kinds.length ∧ i ≠ j := by
        by_cases hzero : i = 0
        · exact ⟨1, by omega, by omega⟩
        · exact ⟨0, by omega, hzero⟩
      obtain ⟨acts, s, hundisturbed, hrun, hunsealed⟩ :=
        exists_unsealed_of_other files hi (List.getElem?_eq_getElem hj) hne
      exact hunsealed (h acts s (fun _ => hundisturbed) hrun)
  · rintro (hno | ⟨rfl, hone⟩) acts s hundisturbed hrun
    · have hstart : ∀ party ∈ (start kinds files).parties, .pull ∉ party.todo := by
        refine List.forall_mem_map.mpr fun kind hkind => ?_
        cases kind with
        | updates => exact absurd hkind hno
        | neglects => exact pull_notMem_writeOps _
      exact sealed_of_no_pull (runs_inv (I := fun s => ∀ party ∈ s.parties, .pull ∉ party.todo)
        (fun h hstep => noPull_step h hstep) hstart hrun)
    · have hcalm : ∀ a ∈ acts, ∀ i, a ≠ .interrupt i :=
        fun a hmem i ha => hundisturbed rfl i (ha ▸ hmem)
      have hstart : (start kinds files).parties.length ≤ 1 ∧
          ∀ party ∈ (start kinds files).parties, Shuts files party.todo :=
        ⟨by rw [start, List.length_map, hone], List.forall_mem_map.mpr fun kind _ => shuts_ops kind⟩
      have hcalmRun : Every statusStep (fun _ a _ => ∀ i, a ≠ .interrupt i) acts
          (start kinds files) := every_of_forall_mem acts hcalm _
      have hkeeps : ∀ {s a s'},
          (s.parties.length ≤ 1 ∧ ∀ party ∈ s.parties, Shuts s.files party.todo) →
          (∀ i, a ≠ .interrupt i) → statusStep a s = some s' →
          s'.parties.length ≤ 1 ∧ ∀ party ∈ s'.parties, Shuts s'.files party.todo :=
        fun hI ha hstep => shuts_step ha hI.1 hI.2 hstep
      exact sealed_of_shuts (runs_keeps @hkeeps acts hstart hcalmRun hrun).2

/-- A status file that reads `idle`. -/
def idleFiles : Files := FileStore.put (fun _ => none) (.file .updateStatus) idleText

/-- Two updates side by side. -/
theorem sealed_iff_twoUpdates : ¬∀ acts s, (false = false → Undisturbed acts) →
    runs statusStep acts (start [.updates, .updates] idleFiles) = some s → Sealed s := by
  have hidle : isIdle (idleFiles.content (.file .updateStatus)) = true := by decide
  exact fun h => absurd ((sealed_iff [.updates, .updates] hidle false).mp h) (by decide)

end MiniRunner.Status
