import MiniRunner.Fini

/-!
# Saves that settle

For the services and for the jobs a save and a load agree, whatever was in the file
before. What the loader of the jobs makes of any bytes is a list of well-formed jobs, so
one save brings the file into a form that loads and saves as it is. A valid services
table comes back as its cloned entries, and the old text does not shine through.
-/

namespace MiniRunner

open Clib

/-! ## Jobs -/

theorem loadJobs_loaded {data : Bytes} {t : Table Job} (h : loadJobs initialJobs data = .ok t) :
    ∃ t', loadJobs initialJobs (jobsText t.items) = .ok t' ∧ t'.items = t.items := by
  obtain ⟨hok, hdistinct, -⟩ := loadJobs_sound (Table.honest_alloc _) rfl h
  obtain ⟨t', hload, hitems, -⟩ := loadJobs_jobsText (t := initialJobs) (Table.honest_alloc _) rfl
    hok hdistinct
  exact ⟨t', hload, hitems⟩

/-- **Any jobs file settles after one save**: whatever bytes were loaded, the save returns 0
with a file that loads as the same jobs and is their text, or waits for a taken lock. -/
theorem jobs_settle {data : Bytes} {t : Table Job} (h : loadJobs initialJobs data = .ok t)
    (fs : Files) :
    Exec.wp (saveJobs t)
      (fun rc fs' => rc = 0 ∧ fs'.content (.file .jobs) = jobsText t.items ∧
        ∃ t', loadJobs initialJobs (fs'.content (.file .jobs)) = .ok t' ∧ t'.items = t.items)
      (fun e _ => e = .blocked ∧ t.items ≠ [] ∧ ¬LockFree fs) fs := by
  refine Exec.wp_mono (wp_saveJobs t fs) ?_ fun _ _ h => h
  rintro rc fs' ⟨hrc, hfile, -⟩
  refine ⟨hrc, hfile, ?_⟩
  rw [hfile]
  exact loadJobs_loaded h

/-- A cut file with numbers that overflow or are garbage: `j^r#x$9z@5` and a newline, then a
record without its end. -/
def garbledJobs : Bytes := [106, 94, 114, 35, 120, 36, 57, 122, 64, 53, 10, 107, 94, 115, 35]

/-- It loads as the one job that is whole. -/
def garbledTable : Table Job :=
  ⟨[⟨.ofBytes [106], .ofBytes [114], 0, 9, 5⟩], 4, 4, by decide⟩

theorem jobs_settle_garbled :
    Exec.wp (saveJobs garbledTable)
      (fun rc fs' => rc = 0 ∧ fs'.content (.file .jobs) = jobsText garbledTable.items ∧
        ∃ t', loadJobs initialJobs (fs'.content (.file .jobs)) = .ok t' ∧
          t'.items = garbledTable.items)
      (fun e _ => e = .blocked ∧ garbledTable.items ≠ [] ∧ ¬LockFree fun _ => none)
      fun _ => none :=
  @jobs_settle garbledJobs garbledTable rfl _

/-! ## Services -/

/-- An entry that the validators of `add` accept. -/
def Service.Accepted (s : Service) : Prop :=
  isValidName s.name = 0 ∧ isValidGithubRepo s.githubRepo = 0

instance Service.decidableAccepted (s : Service) : Decidable s.Accepted :=
  inferInstanceAs (Decidable (_ ∧ _))

theorem Service.Accepted.ok {s : Service} (h : s.Accepted) (hc : s.cloned = true) : s.Ok :=
  ⟨(checkService_eq_zero.mp h.1).2.2.1, (checkService_eq_zero.mp h.2).2.2.2, hc⟩

theorem Service.Accepted.fits {s : Service} (h : s.Accepted) : s.Fits := by
  have hname := (checkService_eq_zero.mp h.1).2.1
  have hrepo := (checkService_eq_zero.mp h.2).2.1
  simp only [Service.Fits, singleDataSize]
  omega

theorem distinctServices_of_nodup {l : List Service} (hnames : (l.map (·.name)).Nodup)
    (hrepos : (l.map (·.githubRepo)).Nodup) : DistinctServices l := by
  have hnames' := List.pairwise_map.mp hnames
  have hrepos' := List.pairwise_map.mp hrepos
  refine (hnames'.and hrepos').imp ?_
  rintro x y ⟨hname, hrepo⟩
  simp [serviceClash, hname, hrepo]

/-- **Services survive a save over any old file**: an empty table, or one with a cloned
entry, is saved with 0, and what the file then holds is the text of the cloned entries and
loads as these, in order. -/
theorem services_round_trip {t : Table Service} (hvalid : ∀ s ∈ t.items, s.Accepted)
    (hnames : (t.items.map (·.name)).Nodup) (hrepos : (t.items.map (·.githubRepo)).Nodup)
    (hcloned : t.items = [] ∨ ∃ s ∈ t.items, s.cloned = true) (fs : Files) :
    Exec.wp (saveServices t)
      (fun rc fs' => rc = 0 ∧
        fs'.content (.file .projects) = servicesFormat.textAll (t.items.filter (·.cloned)) ∧
        ∃ t', loadServices initialServices (fs'.content (.file .projects)) = .ok t' ∧
          t'.items = t.items.filter (·.cloned))
      (fun _ _ => False) fs := by
  have hsaved : ¬(t.items.any (·.cloned) = false ∧ 0 < t.items.length) := by
    rintro ⟨hnone, hpos⟩
    obtain hempty | ⟨s, hs, hc⟩ := hcloned
    · simp [hempty] at hpos
    · simp [List.any_eq_false.mp hnone s hs] at hc
  have hfits : ∀ s ∈ t.items, s.cloned = true → s.Fits := fun s hs _ => (hvalid s hs).fits
  have hdistinct : DistinctServices (t.items.filter (·.cloned)) :=
    (distinctServices_of_nodup hnames hrepos).sublist List.filter_sublist
  refine Exec.wp_mono (wp_saveServices t _ fs) ?_ fun _ _ h => h
  rintro rc fs' ⟨hrc, hfile, -⟩
  rw [if_neg hsaved] at hfile
  refine ⟨hrc, hfile.trans (servicesText_eq hfits), ?_⟩
  rw [hfile]
  exact loadServices_servicesText (fun s hs hc => (hvalid s hs).ok hc) hfits hdistinct

/-- A cloned service with a name of 20 characters and the largest pid, and an uncloned one. -/
def clonedAndNot : Table Service :=
  .ofList [⟨.ofBytes [114], .ofBytes (List.replicate 20 97), 4294967295, true⟩,
    ⟨.ofBytes [115], .ofBytes [98], 0, false⟩]

theorem services_round_trip_clonedAndNot :
    Exec.wp (saveServices clonedAndNot)
      (fun rc fs' => rc = 0 ∧ fs'.content (.file .projects) =
          servicesFormat.textAll (clonedAndNot.items.filter (·.cloned)) ∧
        ∃ t', loadServices initialServices (fs'.content (.file .projects)) = .ok t' ∧
          t'.items = clonedAndNot.items.filter (·.cloned))
      (fun _ _ => False) (FileStore.put (fun _ => none) (.file .projects) [1, 2, 3]) :=
  services_round_trip (by decide) (by decide) (by decide)
    (.inr ⟨⟨.ofBytes [114], .ofBytes (List.replicate 20 97), 4294967295, true⟩,
      by decide, by decide⟩) _

end MiniRunner
