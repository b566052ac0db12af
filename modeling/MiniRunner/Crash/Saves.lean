import MiniRunner.Clib.FileSteps
import MiniRunner.Fini

/-!
# The saves step by step

`save_services`, `saveEnvs` and `saveLimits` as the file steps that a kill or a signal can
come between. Each backs its file up, installs a signal handler that copies the backup over
the file, resizes the file and copies the new text into it byte by byte. Taken to its end
each does what the function of `fini/` does (`servicesSave_run` and its siblings).

An empty source is not backed up and an empty backup is not applied, since `doBackup`
returns early.
-/

namespace MiniRunner

open Clib FileStep

/-- The steps of a save: before its handler is installed, if it installs one, and after. -/
structure Save where
  before : List (FileStep Path)
  handler : Option (Files → Files)
  guarded : List (FileStep Path)

namespace Save

def run (s : Save) (fs : Files) : Files := applyAll (s.before ++ s.guarded) fs

/-- The process is killed after `n` steps. -/
def killed (s : Save) (n : Nat) (fs : Files) : Files :=
  applyAll ((s.before ++ s.guarded).take n) fs

/-- The signal arrives after `j` of the guarded steps: the handler runs, and the save goes
on. -/
def interrupted (s : Save) (handler : Files → Files) (j : Nat) (fs : Files) : Files :=
  applyAll (s.guarded.drop j) (handler (applyAll (s.guarded.take j) (applyAll s.before fs)))

end Save

/-! ## The three saves -/

/-- `doBackup`. -/
def doBackupSteps (src dest : Path) (fs : Files) : List (FileStep Path) :=
  .create src :: if fs.content src = [] then [] else
    .create dest :: rewriteSteps dest (fs.content src)

def backupSteps (count : Nat) (src dest : Path) (fs : Files) : List (FileStep Path) :=
  if count = 0 then [] else doBackupSteps src dest fs

/-- `save_services`; the handler is `handleServicesBackup`. -/
def servicesSave (services : Table Service) (fs : Files) : Save :=
  let numberOfProjects := services.items.length
  let dataToBeWritten := servicesText services.items
  if services.items.any (·.cloned) = false ∧ 0 < numberOfProjects then ⟨[], none, []⟩
  else if numberOfProjects = 0 ∧ fs.content (.file .projects) = [] then
    ⟨[.create (.file .projects)], none, []⟩
  else
    { before := .create (.file .projects) ::
        backupSteps numberOfProjects (.file .projects) (.fileCopy .projects) fs
      handler := some (backupFiles numberOfProjects (.fileCopy .projects) (.file .projects))
      guarded :=
        if dataToBeWritten = [] then [.truncate (.file .projects) 0]
        else rewriteSteps (.file .projects) dataToBeWritten }

/-- `saveEnvs`; the handler is `handleBackupForEnv`, and an empty table installs none. -/
def envsSave (envs : Table Env) (fs : Files) : Save :=
  let numberOfEnv := envs.items.length
  if numberOfEnv = 0 then ⟨[.create (.file .env), .truncate (.file .env) 0], none, []⟩
  else
    { before := .create (.file .env) :: backupSteps numberOfEnv (.file .env) (.fileCopy .env) fs
      handler := some (backupFiles numberOfEnv (.fileCopy .env) (.file .env))
      guarded := rewriteSteps (.file .env) (envsText envs.items) }

/-- The steps that the three saves have in common: back up, install the handler, rewrite. -/
def backedSave (s : Store) (data : Bytes) (fs : Files) : Save where
  before := .create (.file s) :: doBackupSteps (.file s) (.fileCopy s) fs
  handler := some (doBackupFiles (.fileCopy s) (.file s))
  guarded := rewriteSteps (.file s) data

/-- `saveLimits`; the handler is `handleBackup`. Where the loop that builds the text aborts,
there is no step at all. -/
def limitsSave (limits : Table Limit) (fs : Files) : Except Halt Save :=
  if limits.items.length = 0 then
    pure { backedSave .limits [] fs with guarded := [.truncate (.file .limits) 0] }
  else do
    match ← limitsData limits.items with
    | none => pure ⟨[], none, []⟩
    | some (dataToWrite, dataSize) => do
      let data ← readBytes dataToWrite dataSize
      pure (backedSave .limits data fs)

theorem backupFiles_of_ne_zero {count : Nat} (h : count ≠ 0) :
    backupFiles count = doBackupFiles := by
  funext src dest fs
  exact if_neg h

theorem servicesSave_of_any {t : Table Service} (h : t.items.any (·.cloned) = true) (fs : Files) :
    servicesSave t fs = backedSave .projects (servicesText t.items) fs := by
  have hne : t.items.length ≠ 0 := by
    intro hlen
    rw [List.length_eq_zero_iff.mp hlen] at h
    cases h
  simp only [servicesSave, h, Bool.true_eq_false, false_and, if_false, hne, backupSteps,
    servicesText_ne_nil h, backupFiles_of_ne_zero hne, backedSave]

theorem envsSave_of_ne_nil {t : Table Env} (h : t.items ≠ []) (fs : Files) :
    envsSave t fs = backedSave .env (envsText t.items) fs := by
  have hne : t.items.length ≠ 0 := mt List.length_eq_zero_iff.mp h
  simp only [envsSave, if_neg hne, backupSteps, backupFiles_of_ne_zero hne, backedSave]

/-! ## What the two halves write -/

theorem before_spares (s : Store) (data : Bytes) (fs : Files) :
    ∀ x ∈ (backedSave s data fs).before, x.Spares (.file s) := by
  intro x hx
  unfold backedSave doBackupSteps at hx
  rcases List.mem_cons.mp hx with rfl | hx
  · trivial
  rcases List.mem_cons.mp hx with rfl | hx
  · trivial
  split at hx
  · cases hx
  rcases List.mem_cons.mp hx with rfl | hx
  · trivial
  · exact spares_of_mem_rewriteSteps (by simp) hx

theorem guarded_spares (s : Store) (data : Bytes) (fs : Files) :
    ∀ x ∈ (backedSave s data fs).guarded, x.Spares (.fileCopy s) :=
  fun _ hx => spares_of_mem_rewriteSteps (by simp) hx

/-! ## Taken to the end -/

theorem content_doBackupSteps (src dest : Path) (fs : Files) (q : Path) :
    (applyAll (doBackupSteps src dest fs) fs).content q =
      (doBackupFiles src dest fs).content q := by
  rw [content_doBackupFiles, doBackupSteps]
  split
  · rename_i hempty
    rw [if_neg fun h => h.2 hempty]
    exact FileStore.content_openCreate fs src q
  · rename_i hne
    rw [applyAll, List.foldl_cons, List.foldl_cons, ← applyAll, content_rewriteSteps]
    by_cases hq : q = dest
    · rw [if_pos hq, if_pos ⟨hq, hne⟩]
    · rw [if_neg hq, if_neg fun h => hq h.1]
      simp [apply]

theorem content_doBackupFiles_congr (src dest : Path) {fs fs' : Files}
    (h : ∀ q, fs.content q = fs'.content q) (q : Path) :
    (doBackupFiles src dest fs).content q = (doBackupFiles src dest fs').content q := by
  rw [content_doBackupFiles, content_doBackupFiles, h src, h q]

theorem content_create_cons (p : Path) (steps : List (FileStep Path)) (fs : Files) (q : Path) :
    (applyAll (.create p :: steps) fs).content q = (applyAll steps fs).content q :=
  applyAll_congr steps (fun r => FileStore.content_openCreate fs p r) q

/-- **Taken to its end**, a backed save is a backup and a rewrite. -/
theorem content_backedSave_run (s : Store) (data : Bytes) (fs : Files) (q : Path) :
    ((backedSave s data fs).run fs).content q = if q = .file s then data
      else (doBackupFiles (.file s) (.fileCopy s) (fs.openCreate (.file s))).content q := by
  simp only [Save.run, backedSave]
  rw [applyAll_append, content_rewriteSteps, content_create_cons, content_doBackupSteps]
  split
  · rfl
  · exact content_doBackupFiles_congr _ _ (fun r => (FileStore.content_openCreate fs _ r).symm) q

/-- What the backup holds then: the old content, and if there is none an older one. -/
def putBack (s : Store) (fs : Files) : Bytes :=
  if fs.content (.file s) = [] then fs.content (.fileCopy s) else fs.content (.file s)

theorem content_copy_before (s : Store) (data : Bytes) (fs : Files) :
    (applyAll (backedSave s data fs).before fs).content (.fileCopy s) = putBack s fs := by
  rw [backedSave, content_create_cons, content_doBackupSteps, content_doBackupFiles, putBack]
  by_cases hempty : fs.content (.file s) = []
  · rw [if_neg (by simp [hempty]), if_pos hempty]
  · rw [if_pos ⟨rfl, hempty⟩, if_neg hempty]

theorem servicesSave_run (t : Table Service) (E : Halt → Files → Prop) (fs : Files) :
    Exec.wp (saveServices t)
      (fun rc fs' => rc = 0 ∧ ∀ q, fs'.content q = ((servicesSave t fs).run fs).content q)
      E fs := by
  unfold saveServices
  rw [if_neg (Table.not_isNull_of_length t)]
  by_cases hunc : t.items.any (·.cloned) = false ∧ 0 < t.items.length
  · simp only [if_pos hunc, Exec.wp_pure, servicesSave]
    exact ⟨trivial, fun _ => rfl⟩
  simp only [if_neg hunc, Exec.wp_bind, Exec.wp_modify, Exec.wp_get, FileStore.content_openCreate,
    List.length_eq_zero_iff (l := fs.content (.file .projects))]
  by_cases hitems : t.items = []
  · by_cases hfile : fs.content (.file .projects) = []
    · simp only [hitems, hfile, List.length_nil, true_and, if_true, Exec.wp_pure]
      intro q
      simp [servicesSave, hitems, hfile, Save.run, applyAll, apply]
    · have htext : servicesText [] = [] := rfl
      simp only [hitems, hfile, List.length_nil, true_and, if_false, Exec.wp_bind, createBackup,
        wp_backupUnlessEmpty, ne_eq, not_true_eq_false, htext, if_true, Exec.wp_modify,
        Exec.wp_pure, lt_self_iff_false, and_false]
      intro q
      simp [servicesSave, hitems, hfile, htext, Save.run, applyAll, apply, backupSteps,
        backupFiles]
  have hcloned : t.items.any (·.cloned) = true := by
    by_contra hno
    exact hunc ⟨by simpa using hno, List.length_pos_iff.mpr hitems⟩
  have hne : t.items.length ≠ 0 := mt List.length_eq_zero_iff.mp hitems
  simp only [hne, servicesText_ne_nil hcloned, false_and, if_false, Exec.wp_bind, createBackup,
    wp_backupUnlessEmpty, ne_eq, not_true_eq_false, Exec.wp_modify, Exec.wp_pure, true_and,
    backupFiles_of_ne_zero hne, servicesSave_of_any hcloned, content_backedSave_run]
  exact fun q => FileStore.content_rewrite _ _ q _

theorem envsSave_run (t : Table Env) (E : Halt → Files → Prop) (fs : Files) :
    Exec.wp (saveEnvs t)
      (fun rc fs' => rc = 0 ∧ ∀ q, fs'.content q = ((envsSave t fs).run fs).content q) E fs := by
  unfold saveEnvs
  by_cases hempty : t.items.length = 0
  · simp only [envsSave, if_pos hempty, Exec.wp_bind, Exec.wp_modify, Exec.wp_pure, true_and]
    intro q
    simp [Save.run, applyAll, apply]
  have hitems : t.items ≠ [] := mt List.length_eq_zero_iff.mpr hempty
  have hnull : ¬t.isNull = true := by
    rw [Table.isNull_eq_false hitems]
    decide
  simp only [if_neg hempty, if_neg hnull, Exec.wp_bind, Exec.wp_modify, createEnvBackup,
    wp_backupUnlessEmpty, ne_eq, not_true_eq_false, if_false, Exec.wp_pure, true_and,
    backupFiles_of_ne_zero hempty, envsSave_of_ne_nil hitems, content_backedSave_run]
  exact fun q => FileStore.content_rewrite _ _ q _

theorem limitsSave_le_one {t : Table Limit} (h : t.items.length ≤ 1) (fs : Files) :
    limitsSave t fs = .ok (backedSave .limits (limitsFormat.textAll t.items) fs) := by
  unfold limitsSave
  match hitems : t.items with
  | [] => rfl
  | [l] =>
    simp only [List.length_singleton, Nat.one_ne_zero, if_false, limitsData_singleton, bind,
      Except.bind, readBytes_length, pure, Except.pure]
    simp [RecordFormat.textAll, limitsFormat]
  | _ :: _ :: _ => simp [hitems] at h

theorem limitsSave_many {t : Table Limit} (h : 2 ≤ t.items.length) (fs : Files) :
    limitsSave t fs = .error .aborted := by
  unfold limitsSave
  rw [if_neg (by omega), limitsData_many h]
  rfl

theorem limitsSave_run {t : Table Limit} (h : t.items.length ≤ 1) {s : Save} {fs : Files}
    (hs : limitsSave t fs = .ok s) (E : Halt → Files → Prop) :
    Exec.wp (saveLimits t)
      (fun rc fs' => rc = 0 ∧ ∀ q, fs'.content q = (s.run fs).content q) E fs := by
  cases (limitsSave_le_one h fs).symm.trans hs
  simp only [content_backedSave_run]
  unfold saveLimits eraseLimitsData writeLimitsData
  rcases hitems : t.items with _ | ⟨l, _ | _⟩
  · simp only [List.length_nil, ne_eq, not_true_eq_false, and_false, if_false, if_true,
      Exec.wp_bind, Exec.wp_modify, wp_createBackupLimit, Exec.wp_pure, true_and,
      FileStore.content_put_eq]
    exact fun q => rfl
  · rw [if_neg (by simp [Table.isNull_eq_false (t := t) (by simp [hitems])])]
    simp only [List.length_singleton, Nat.one_ne_zero, if_false, Exec.wp_bind, Exec.wp_modify,
      wp_createBackupLimit, ne_eq, not_true_eq_false, Exec.wp_ofExcept, limitsData_singleton,
      readBytes_length, Except.ok.injEq, reduceCtorEq, forall_eq', false_implies,
      implies_true, and_true, Exec.wp_pure, true_and, FileStore.content_put]
    intro q
    rw [copyInto_of_length_eq (by simp), FileStore.content_put_eq,
      FileStore.content_put_eq]
    split
    · simp [RecordFormat.textAll, limitsFormat]
    · rfl
  · simp [hitems] at h

end MiniRunner
