import MiniRunner.Crash.Saves

/-!
# A save that is killed

`save_services` keeps the old content of the projects file in its backup while it writes
the file, so a process that is killed leaves one of the two whole. An empty projects file is
not backed up, and then the backup is an older one: the services that were stored before the
table became empty.
-/

namespace MiniRunner

open Clib FileStep

/-- The old content or the new encoding is left in the projects file or its backup. -/
def Recoverable (old new : Bytes) (fs : Files) : Prop :=
  ∃ p ∈ [Path.file .projects, .fileCopy .projects], fs.content p = old ∨ fs.content p = new

/-- **A killed save is recoverable** after each of its steps. -/
def AlwaysRecoverable (services : Table Service) (fs : Files) : Prop :=
  ∀ n, Recoverable (fs.content (.file .projects)) (servicesText services.items)
    ((servicesSave services fs).killed n fs)

/-- **When it is**: nothing is written, or the old content is not empty, or the backup that
stays holds nothing or already the new encoding. -/
def BackupServes (services : Table Service) (fs : Files) : Prop :=
  services.items.any (·.cloned) = false ∨ fs.content (.file .projects) ≠ [] ∨
    fs.content (.fileCopy .projects) = [] ∨
    fs.content (.fileCopy .projects) = servicesText services.items

instance (services : Table Service) (fs : Files) : Decidable (BackupServes services fs) :=
  inferInstanceAs (Decidable (_ ∨ _ ∨ _ ∨ _))

theorem zero_notMem_servicesText (l : List Service) : 0 ∉ servicesText l := by
  simp only [servicesText, List.mem_flatMap, not_exists, not_and]
  intro s _ h
  have hmem : 0 ∈ serviceText s := List.mem_of_mem_take h
  simp only [serviceText, List.mem_append, List.mem_cons, List.not_mem_nil, or_false] at hmem
  rcases hmem with h | h | h | h | h | h
  · exact s.name.noNul h
  · exact absurd h (by decide)
  · exact s.githubRepo.noNul h
  · exact absurd h (by decide)
  · exact (fmtInt32 s.pid).noNul h
  · exact absurd h (by decide)

/-! ## The save step by step -/

/-- A save without a cloned service writes at most the empty text. -/
theorem alwaysRecoverable_of_uncloned {t : Table Service}
    (h : t.items.any (·.cloned) = false) (fs : Files) : AlwaysRecoverable t fs := by
  intro n
  refine ⟨.file .projects, by simp, ?_⟩
  by_cases hempty : t.items = []
  · by_cases hfile : fs.content (.file .projects) = []
    · have hsave : servicesSave t fs = ⟨[.create (.file .projects)], none, []⟩ := by
        simp [servicesSave, hempty, hfile]
      refine .inl (content_applyAll_of_spares (fun s hs => ?_) fs)
      rw [hsave] at hs
      cases List.mem_singleton.mp (List.mem_of_mem_take hs)
      trivial
    · have hsave : (servicesSave t fs).before ++ (servicesSave t fs).guarded =
          [.create (.file .projects), .truncate (.file .projects) 0] := by
        simp [servicesSave, hempty, hfile, backupSteps, servicesText]
      rw [Save.killed, hsave]
      rcases n with _ | _ | n
      · exact .inl rfl
      · exact .inl (FileStore.content_openCreate fs _ _)
      · right
        rw [hempty]
        simp [applyAll, apply, servicesText]
  · have hsave : servicesSave t fs = ⟨[], none, []⟩ := by
      simp [servicesSave, h, List.length_pos_iff.mpr hempty]
    rw [Save.killed, hsave]
    exact .inl (by simp [applyAll])

section cloned

variable {t : Table Service} (h : t.items.any (·.cloned) = true) (fs : Files)
include h

theorem content_killed_before {n : Nat} (hn : n ≤ (servicesSave t fs).before.length) :
    ((servicesSave t fs).killed n fs).content (.file .projects) =
      fs.content (.file .projects) := by
  rw [Save.killed, List.take_append_of_le_length hn, servicesSave_of_any h]
  exact content_applyAll_of_spares
    (fun x hx => before_spares .projects _ fs x (List.mem_of_mem_take hx)) fs

theorem content_copy_killed_guarded (j : Nat) :
    ((servicesSave t fs).killed ((servicesSave t fs).before.length + j) fs).content
      (.fileCopy .projects) = putBack .projects fs := by
  rw [Save.killed, List.take_length_add_append, applyAll_append, servicesSave_of_any h,
    content_applyAll_of_spares fun x hx => guarded_spares .projects _ fs x
      (List.mem_of_mem_take hx), content_copy_before]

theorem content_killed_truncated (hempty : fs.content (.file .projects) = []) :
    ((servicesSave t fs).killed ((servicesSave t fs).before.length + 1) fs).content
      (.file .projects) = List.replicate (servicesText t.items).length 0 := by
  have hbefore : (applyAll (backedSave .projects (servicesText t.items) fs).before fs).content
      (.file .projects) = [] :=
    (content_applyAll_of_spares (before_spares .projects _ fs) fs).trans hempty
  have hfirst : (backedSave .projects (servicesText t.items) fs).guarded.take 1 =
      [.truncate (.file .projects) (servicesText t.items).length] := rfl
  rw [Save.killed, List.take_length_add_append, applyAll_append, servicesSave_of_any h, hfirst,
    content_applyAll_truncate, hbefore]
  simp [ftruncate]

end cloned

/-- A stale backup does not help a save that is killed after its truncation. -/
theorem backupServes_of_alwaysRecoverable {services : Table Service} {fs : Files}
    (hall : AlwaysRecoverable services fs) : BackupServes services fs := by
  by_contra hbad
  simp only [BackupServes, not_or, Bool.not_eq_false, not_not] at hbad
  obtain ⟨h, hold, hcopy, hnew⟩ := hbad
  have hzeros : 0 ∈ List.replicate (servicesText services.items).length (0 : UInt8) :=
    List.mem_replicate.mpr ⟨mt List.length_eq_zero_iff.mp (servicesText_ne_nil h), rfl⟩
  obtain ⟨p, hp, hcontent⟩ := hall ((servicesSave services fs).before.length + 1)
  simp only [List.mem_cons, List.not_mem_nil, or_false] at hp
  rcases hp with rfl | rfl
  · rw [content_killed_truncated h fs hold] at hcontent
    rcases hcontent with heq | heq
    · rw [heq, hold] at hzeros
      cases hzeros
    · rw [heq] at hzeros
      exact zero_notMem_servicesText _ hzeros
  · rw [content_copy_killed_guarded h fs 1, putBack, if_pos hold, hold] at hcontent
    exact hcontent.elim hcopy hnew

/-- **A killed save is recoverable** exactly when its backup is not a stale one. -/
theorem alwaysRecoverable_iff (services : Table Service) (fs : Files) :
    AlwaysRecoverable services fs ↔ BackupServes services fs := by
  refine ⟨backupServes_of_alwaysRecoverable, fun hserves n => ?_⟩
  by_cases h : services.items.any (·.cloned) = true
  swap
  · exact alwaysRecoverable_of_uncloned (by simpa using h) fs n
  rcases Nat.le_total n (servicesSave services fs).before.length with hn | hn
  · exact ⟨.file .projects, by simp, .inl (content_killed_before h fs hn)⟩
  obtain ⟨j, rfl⟩ := Nat.exists_eq_add_of_le hn
  refine ⟨.fileCopy .projects, by simp, ?_⟩
  rw [content_copy_killed_guarded h fs j, putBack]
  by_cases hold : fs.content (.file .projects) = []
  swap
  · exact .inl (if_neg hold)
  rw [if_pos hold]
  rcases hserves with hno | hne | hcopy | hnew
  · rw [h] at hno
    cases hno
  · exact absurd hold hne
  · exact .inl (hcopy.trans hold.symm)
  · exact .inr hnew

/-- No projects yet, and `b^r#5` in the backup: `a` is in neither file once the projects file
was resized. -/
theorem not_alwaysRecoverable :
    ¬∀ (services : Table Service) (fs : Files), AlwaysRecoverable services fs := by
  intro h
  have hall := h (.ofList [⟨.ofBytes [114], .ofBytes [97], 0, true⟩])
    (FileStore.put (fun _ => none) (.fileCopy .projects) [98, 94, 114, 35, 53, 10])
  exact absurd (backupServes_of_alwaysRecoverable hall) (by decide +kernel)

end MiniRunner
