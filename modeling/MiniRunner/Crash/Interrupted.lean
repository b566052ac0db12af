import MiniRunner.Crash.Saves

/-!
# A save that is interrupted

`SIGINT` after the handler was installed: the handler copies the backup over the file, and
the save resumes with the steps that are left. What it stores past the end that the backup
gave the file is lost, and what it stored before the signal is overwritten, so the file ends
as a mixture of the two texts unless they happen to fit together (`Blends`).
-/

namespace MiniRunner

open Clib FileStep

/-- The three saves, each with its table. -/
inductive Saving where
  | services (services : Table Service)
  | envs (envs : Table Env)
  | limits (limits : Table Limit)

namespace Saving

def save (fs : Files) : Saving → Except Halt Save
  | services t => pure (servicesSave t fs)
  | envs t => pure (envsSave t fs)
  | limits t => limitsSave t fs

def store : Saving → Store
  | services _ => .projects
  | envs _ => .env
  | limits _ => .limits

def text : Saving → Bytes
  | services t => servicesText t.items
  | envs t => envsText t.items
  | limits t => limitsFormat.textAll t.items

/-- **The signal corrupts nothing**: it arrives after `j` of the guarded steps, and at the end
the file holds what it held, or the new text. -/
def Survives (x : Saving) (fs : Files) (j : Nat) : Prop :=
  match x.save fs with
  -- an abort before the first step leaves the old content
  | .error e => e = .aborted
  | .ok s =>
    match s.handler with
    | none => True
    | some handler =>
      (s.interrupted handler j fs).content (.file x.store) = fs.content (.file x.store) ∨
        (s.interrupted handler j fs).content (.file x.store) = x.text

end Saving

/-- **When the two texts fit together** for a signal after `j` steps, the first of which is the
truncation. Either nothing is put back or everything is written again; or what is put back
begins with the bytes already stored and has the length of the new text; or it is the old
content, and the bytes still to be stored are in it already. -/
def Blends (s : Store) (data : Bytes) (fs : Files) (j : Nat) : Prop :=
  putBack s fs = [] ∨ j = 0 ∨
    ((putBack s fs).length = data.length ∧
      (putBack s fs).take (j - 1) = data.take (j - 1)) ∨
    (fs.content (.file s) ≠ [] ∧ ∀ i, j - 1 ≤ i → i < data.length →
      i < (fs.content (.file s)).length → (fs.content (.file s))[i]? = data[i]?)

/-- **When a save survives**: nothing is written, or the texts fit together. Of two limits or
more nothing is written, as `saveLimits` aborts on them. -/
def Saving.Keeps (x : Saving) (fs : Files) (j : Nat) : Prop :=
  match x with
  | services t => t.items.any (·.cloned) = false ∨ Blends .projects (servicesText t.items) fs j
  | envs t => t.items = [] ∨ Blends .env (envsText t.items) fs j
  | limits t =>
    2 ≤ t.items.length ∨ Blends .limits (limitsFormat.textAll t.items) fs j

/-! ## The file at the end -/

/-- **What an interrupted save leaves**: the new text if there was nothing to put back or the
truncation was still to come, and otherwise what was put back under the rest of the text. -/
theorem content_interrupted (s : Store) (data : Bytes) (fs : Files) (j : Nat) :
    ((backedSave s data fs).interrupted (doBackupFiles (.fileCopy s) (.file s)) j fs).content
      (.file s) = if putBack s fs = [] ∨ j = 0 then data
        else patch (j - 1) (data.drop (j - 1)) (putBack s fs) := by
  have hcopy : (applyAll ((backedSave s data fs).guarded.take j)
      (applyAll (backedSave s data fs).before fs)).content (.fileCopy s) = putBack s fs := by
    rw [content_applyAll_of_spares fun x hx => guarded_spares s data fs x
      (List.mem_of_mem_take hx), content_copy_before]
  have hhandler (q : Path) := content_doBackupFiles (.fileCopy s) (.file s) q
    (applyAll ((backedSave s data fs).guarded.take j)
      (applyAll (backedSave s data fs).before fs))
  simp only [hcopy] at hhandler
  unfold Save.interrupted
  by_cases hnone : putBack s fs = []
  · -- the handler changes nothing, so the save is a plain one
    rw [if_pos (.inl hnone)]
    simp only [hnone, ne_eq, not_true_eq_false, and_false, if_false] at hhandler
    rw [applyAll_congr _ hhandler, ← applyAll_append, List.take_append_drop]
    exact (content_rewriteSteps _ _ _ _).trans (if_pos rfl)
  cases j with
  | zero =>
    rw [if_pos (.inr rfl)]
    exact (content_rewriteSteps _ _ _ _).trans (if_pos rfl)
  | succ k =>
    rw [if_neg (by simp [hnone]), Nat.add_sub_cancel]
    refine (content_drop_rewriteSteps (Path.file s) data k _).trans ?_
    rw [hhandler, if_pos ⟨rfl, hnone⟩]

/-- The end is the old content or the new one exactly when the texts fit together. -/
theorem backedSave_survives_iff (s : Store) (data : Bytes) (fs : Files) (j : Nat) :
    (((backedSave s data fs).interrupted (doBackupFiles (.fileCopy s) (.file s)) j fs).content
        (.file s) = fs.content (.file s) ∨
      ((backedSave s data fs).interrupted (doBackupFiles (.fileCopy s) (.file s)) j fs).content
        (.file s) = data) ↔ Blends s data fs j := by
  rw [content_interrupted]
  unfold Blends
  by_cases hdone : putBack s fs = [] ∨ j = 0
  · rw [if_pos hdone]
    exact iff_of_true (.inr rfl) (by tauto)
  rw [if_neg hdone, patch_drop_eq_data_iff]
  have hold : patch (j - 1) (data.drop (j - 1)) (putBack s fs) = fs.content (.file s) ↔
      fs.content (.file s) ≠ [] ∧ ∀ i, j - 1 ≤ i → i < data.length →
        i < (fs.content (.file s)).length → (fs.content (.file s))[i]? = data[i]? := by
    by_cases hempty : fs.content (.file s) = []
    · refine iff_of_false (fun h => hdone (.inl ?_)) fun h => h.1 hempty
      rw [← List.length_eq_zero_iff, ← length_patch (data.drop (j - 1)) (j - 1), h, hempty]
      rfl
    · rw [putBack, if_neg hempty, patch_drop_eq_self_iff]
      exact (and_iff_right hempty).symm
  rw [hold]
  tauto

/-! ## The three saves -/

/-- A save that installs no handler, or whose handler has nothing to copy. -/
theorem survives_services_uncloned {t : Table Service} (h : t.items.any (·.cloned) = false)
    (fs : Files) (j : Nat) : (Saving.services t).Survives fs j := by
  by_cases hempty : t.items = []
  swap
  · have hsave : servicesSave t fs = ⟨[], none, []⟩ := by
      simp [servicesSave, h, List.length_pos_iff.mpr hempty]
    simp only [Saving.Survives, Saving.save, hsave, pure, Except.pure]
  by_cases hfile : fs.content (.file .projects) = []
  · have hsave : servicesSave t fs = ⟨[.create (.file .projects)], none, []⟩ := by
      simp [servicesSave, hempty, hfile]
    simp only [Saving.Survives, Saving.save, hsave, pure, Except.pure]
  have hsave : servicesSave t fs = ⟨[.create (.file .projects)],
      some (backupFiles 0 (.fileCopy .projects) (.file .projects)),
      [.truncate (.file .projects) 0]⟩ := by
    simp [servicesSave, hempty, hfile, backupSteps, servicesText]
  simp only [Saving.Survives, Saving.save, hsave, pure, Except.pure]
  right
  cases j <;> simp [Save.interrupted, Saving.store, Saving.text, servicesText, applyAll, apply,
    backupFiles, hempty]

/-- `K=v` of the service `a`. -/
def oneEntry : Table Env := .ofList [⟨.ofBytes [97], .ofBytes [75], .ofBytes [118]⟩]

/-- **Ctrl+C corrupts nothing** exactly when the texts fit together. -/
theorem survives_iff (x : Saving) (fs : Files) (j : Nat) : x.Survives fs j ↔ x.Keeps fs j := by
  cases x with
  | services t =>
    by_cases h : t.items.any (·.cloned) = true
    · simp only [Saving.Survives, Saving.save, servicesSave_of_any h, pure, Except.pure,
        Saving.Keeps, h, Bool.true_eq_false, false_or]
      exact backedSave_survives_iff .projects _ fs j
    · have hno : t.items.any (·.cloned) = false := by simpa using h
      exact iff_of_true (survives_services_uncloned hno fs j) (.inl hno)
  | envs t =>
    by_cases h : t.items = []
    · refine iff_of_true ?_ (.inl h)
      simp only [Saving.Survives, Saving.save, envsSave, h, List.length_nil, if_true, pure,
        Except.pure]
    · simp only [Saving.Survives, Saving.save, envsSave_of_ne_nil h, pure, Except.pure,
        Saving.Keeps, h, false_or]
      exact backedSave_survives_iff .env _ fs j
  | limits t =>
    by_cases h : 2 ≤ t.items.length
    · simp only [Saving.Survives, Saving.save, limitsSave_many h, Saving.Keeps, h, true_or]
    · simp only [Saving.Survives, Saving.save,
        limitsSave_le_one (show t.items.length ≤ 1 by omega), Saving.Keeps, h, false_or]
      exact backedSave_survives_iff .limits _ fs j

/-- The value `old` becomes `v`, and the signal arrives once the file has its new size: the
handler puts the longer text back, and its tail stays. -/
theorem not_survives : ¬∀ (x : Saving) (fs : Files) (j : Nat), x.Survives fs j := by
  intro h
  rcases h (.envs oneEntry) (FileStore.put (fun _ => none) (.file .env)
    [97, 96, 75, 94, 111, 108, 100, 10]) 1 with hold | hnew
  · exact absurd hold (by decide +kernel)
  · exact absurd hnew (by decide +kernel)

end MiniRunner
