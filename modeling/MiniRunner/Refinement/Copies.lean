import MiniRunner.Fini

/-!
# The daemon's copies

The jobs file has two readers and two writers: `loadJobs` and `save_jobs` in the
process the command line starts, `loadJobsDaemon` and `save_jobs_daemon` in the daemon. Each
pair counts with its own globals, and the readers leave a bad file in different ways.
On an empty table the readers agree on every file (`loads_alike`), and the writers run
alike on one list of jobs whatever block it is in (`saveJobsDaemon_eq_saveJobs`).

That a file is rejected by one reader is not that the other one rejects it: the
table could fault instead. `jobsScanner_fails` rules that out.
-/

namespace MiniRunner

open Clib

/-! ## The readers -/

/-- A table without jobs whose block has the capacity it records. -/
structure EmptyJobs where
  table : Table Job
  honest : table.Honest
  empty : table.items = []

namespace EmptyJobs

/-- What the command line loads into, and the daemon at first. -/
def atStart : EmptyJobs := ⟨initialJobs, Table.honest_alloc _, rfl⟩

/-- What the daemon loads into after it freed its jobs. -/
def renewed : EmptyJobs := ⟨.blank 0 initialScaleSizeOfJobs, ⟨le_rfl, Nat.zero_le _⟩, rfl⟩

theorem same (t u : EmptyJobs) : SameJobs t.table u.table :=
  ⟨u.empty.trans t.empty.symm, t.honest, u.honest⟩

end EmptyJobs

theorem loadJob_answers {t : Table Job} (ht : t.Honest) (j : Job) :
    ∃ rc t', loadJob j t = .ok (rc, t') ∧ t'.Honest := by
  cases hc : t.items.any (jobClash · j) with
  | true =>
    obtain ⟨t', hl, _, ht'⟩ := loadJob_of_clash ht hc
    exact ⟨-1, t', hl, ht'⟩
  | false =>
    obtain ⟨t', hl, _, ht'⟩ := loadJob_of_fresh ht hc
    exact ⟨0, t', hl, ht'⟩

/-- A field of a jobs file is taken, or rejects the file. -/
theorem jobsScanner_field {ε : Type} (halt : Halt → ε) (reject : Table Job → ε) {t : Table Job}
    (ht : t.Honest) (q : JobField) (s : CStr) :
    (∃ q' t', (jobsScanner loadJob halt reject).field q s t = .ok (q', t') ∧ t'.Honest) ∨
      ∃ t', (jobsScanner loadJob halt reject).field q s t = .error (reject t') := by
  cases q with
  | findInterval name runnableFile lastTimeRunned =>
    by_cases hzero : atol s = 0
    · exact .inr ⟨t, if_pos hzero⟩
    · exact .inl ⟨_, t, if_neg hzero, ht⟩
  | findPid name runnableFile lastTimeRunned interval =>
    obtain ⟨rc, t', hl, ht'⟩ :=
      loadJob_answers ht ⟨name, runnableFile, lastTimeRunned, interval, atoi s⟩
    simp only [jobsScanner, hl]
    by_cases hrc : rc = 0
    · exact .inl ⟨_, t', if_neg (not_not.mpr hrc), ht'⟩
    · exact .inr ⟨t', if_pos hrc⟩
  | _ => exact .inl ⟨_, t, rfl, ht⟩

/-- **A scan of a jobs file fails by rejecting it**, never by a fault of the table. -/
theorem jobsScanner_fails {ε : Type} {halt : Halt → ε} {reject : Table Job → ε} {t : Table Job}
    {data : Bytes} {e : ε} (ht : t.Honest)
    (h : (jobsScanner loadJob halt reject).parse .findName data t = .error e) :
    ∃ t', e = reject t' := by
  refine Scanner.parse_fails _ (I := Table.Honest) (P := fun e => ∃ t', e = reject t') ?_ ?_ ht h
  · intro q s t q' t' ht hf
    rcases jobsScanner_field halt reject ht q s with
      ⟨q₁, t₁, hq₁, ht₁⟩ | ⟨t₁, hrejects⟩
    · rw [hq₁] at hf
      cases hf
      exact ht₁
    · rw [hrejects] at hf
      cases hf
  · intro q s t e ht hf
    rcases jobsScanner_field halt reject ht q s with
      ⟨q₁, t₁, hq₁, ht₁⟩ | ⟨t₁, hrejects⟩
    · rw [hq₁] at hf
      cases hf
    · rw [hrejects] at hf
      cases hf
      exact ⟨t₁, rfl⟩

theorem loadJobs_error {t : Table Job} {data : Bytes} {e : Halt} (ht : t.Honest)
    (h : loadJobs t data = .error e) : e = .aborted := by
  obtain ⟨_, he⟩ := jobsScanner_fails ht h
  exact he

theorem loadJobsDaemon_answers {t : Table Job} (ht : t.Honest) (data : Bytes) :
    ∃ rc t', loadJobsDaemon t data = .ok (rc, t') ∧ (rc = 0 ∨ rc = -1) := by
  unfold loadJobsDaemon
  cases h : (jobsScanner (ε := DaemonReject) loadJobDaemon .inl .inr).parse .findName data t with
  | ok t' => exact ⟨0, t', rfl, .inl rfl⟩
  | error e =>
    obtain ⟨t', rfl⟩ := jobsScanner_fails ht h
    exact ⟨-1, t', rfl, .inr rfl⟩

/-- Both readers reject the file, `loadJobs` by leaving the program, or both build the
same list. -/
def LoadAlike (t u : Table Job) (data : Bytes) : Prop :=
  (loadJobs t data = .error .aborted ∧ ∃ u', loadJobsDaemon u data = .ok (-1, u')) ∨
    ∃ t' u', loadJobs t data = .ok t' ∧ loadJobsDaemon u data = .ok (0, u') ∧
      u'.items = t'.items

theorem loads_alike (t u : EmptyJobs) (data : Bytes) : LoadAlike t.table u.table data := by
  cases h : loadJobs t.table data with
  | ok t' =>
    obtain ⟨u', hu', hsame⟩ := (t.same u).loadJobs h
    exact .inr ⟨t', u', h, loadJobsDaemon_eq_ok.mpr hu', hsame.items⟩
  | error e =>
    obtain ⟨rc, u', hu', hrc⟩ := loadJobsDaemon_answers u.honest data
    rw [loadJobs_error t.honest h] at h
    refine .inl ⟨h, u', ?_⟩
    -- an answer of 0 would be a list that the other reader builds too
    have hne : rc ≠ 0 := by
      rintro rfl
      obtain ⟨t', ht', _⟩ := (u.same t).loadJobs (loadJobsDaemon_eq_ok.mp hu')
      rw [h] at ht'
      cases ht'
    rw [hu', hrc.resolve_left hne]

/-! ## The writers -/

theorem createBackupForJobs_congr {m n : Nat} (hm : m ≠ 0) (hn : n ≠ 0) :
    createBackupForJobs m = createBackupForJobs n := by
  simp only [createBackupForJobs, backupUnlessEmpty, hm, hn, if_false]

theorem writeJobsData_congr {m n : Nat} (hm : m ≠ 0) (hn : n ≠ 0) (data : Bytes) :
    writeJobsData m data = writeJobsData n data := by
  simp only [writeJobsData, createBackupForJobs_congr hm hn]

theorem saveJobsDaemon_eq_saveJobs {n : Nat} {t u : Table Job} (hn : n ≠ 0) (ht : t.items ≠ [])
    (hu : u.items = t.items) : saveJobsDaemon n u = saveJobs t := by
  have hlen : t.items.length ≠ 0 := by simpa using ht
  have hdaemon : ¬(n = 0 ∨ u.isNull = true) := by
    simp [hn, Table.isNull_eq_false (hu ▸ ht)]
  have hcli : ¬(t.items.length = 0 ∨ t.isNull = true) := by
    simp [ht, Table.isNull_eq_false ht]
  unfold saveJobsDaemon saveJobs saveJobsWith
  rw [if_neg hdaemon, if_neg hcli, hu, if_neg ht, if_neg ht, writeJobsData_congr hn hlen]

/-! ## Both -/

/-- **The command line and the daemon read the same jobs, and write the same files.**
From empty tables every file is rejected by both readers or loads as one list in both;
from every file state the two writers of a non-empty list end alike with the same
files, which hold the text of that list. -/
theorem copies_agree :
    (∀ (t u : EmptyJobs) (data : Bytes), LoadAlike t.table u.table data) ∧
      ∀ (n : Nat) (t u : Table Job), n ≠ 0 → t.items ≠ [] → u.items = t.items →
        ∀ fs : Files, (saveJobsDaemon n u).run fs = (saveJobs t).run fs ∧
          Exec.wp (saveJobs t) (fun rc fs' => rc = 0 ∧
            fs'.content (.file .jobs) = jobsText t.items) (fun e _ => e = .blocked) fs := by
  refine ⟨loads_alike, fun n t u hn ht hu fs => ⟨?_, ?_⟩⟩
  · rw [saveJobsDaemon_eq_saveJobs hn ht hu]
  · refine Exec.wp_mono (wp_saveJobs t fs) ?_ ?_
    · rintro rc fs' ⟨hrc, hjobs, _⟩
      exact ⟨hrc, hjobs⟩
    · rintro e _ ⟨he, _⟩
      exact he

/-- A file without a record, and one job under the count 3. -/
theorem copies_agree_oneJob :
    LoadAlike EmptyJobs.atStart.table EmptyJobs.renewed.table [97, 94] ∧
      ∀ fs : Files, (saveJobsDaemon 3 (.ofList [⟨.ofBytes [97], .ofBytes [47], 0, 60, 0⟩])).run fs =
        (saveJobs (.ofList [⟨.ofBytes [97], .ofBytes [47], 0, 60, 0⟩])).run fs :=
  ⟨copies_agree.1 .atStart .renewed [97, 94],
    fun fs => (copies_agree.2 3 _ _ (by decide) (by simp [Table.ofList]) rfl fs).1⟩

end MiniRunner
