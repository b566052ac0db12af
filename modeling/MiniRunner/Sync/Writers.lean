import Mathlib.Logic.Function.Basic
import MiniRunner.Clib.Runs
import MiniRunner.Fini

/-!
# Writers of the jobs file

`writeData` of `save_jobs` and of `save_jobs_daemon` as the steps that other
processes can come between: truncate the file, poll the lock until it reads free,
take it, copy the data byte by byte, give it back. The steps are the file operations
of `IoMan` and `Fini`, and a writer that runs alone does what `writeJobsData` does
(`solo_run`).

Polling and taking the lock are two steps and the truncation takes no lock, so
mutual exclusion depends on the order of steps: `guarded_exclusive` says that it
holds in a run in which the lock reads free at every truncation and every taking.
-/

namespace MiniRunner.Sync

open Clib MiniRunner

/-! ## One writer -/

/-- Where a writer is in `writeData`. -/
inductive Phase where
  | start
  | polling
  | sawFree
  /-- It holds the lock and has copied `k` bytes. -/
  | copying (k : Nat)
  | done
  /-- Its mapping has no page behind it any more. -/
  | faulted
  deriving DecidableEq, Repr

inductive WriterAct where
  | truncate
  | poll
  | lock
  | copy
  | unlock
  deriving DecidableEq, Repr

/-- A mapped byte can be reached: its page starts before the end of the file. -/
def onPage (data : Bytes) (k : Nat) : Bool := k / pageSize * pageSize < data.length

/-- One step of the writer of `data`. -/
def writerStep (data : Bytes) : WriterAct → Phase × Files → Option (Phase × Files)
  | .truncate, (.start, fs) =>
    let fs := fs.openCreate (.file .jobs)
    let fs := fs.put (.file .jobs) (ftruncate data.length (fs.content (.file .jobs)))
    -- a mapping of length 0 is refused
    some (if data = [] then .done else .polling, fs)
  | .poll, (.polling, fs) =>
    some (if readsFree (fs.content (.file .jobsSync)) then .sawFree else .polling,
      fs.openCreate (.file .jobsSync))
  | .lock, (.sawFree, fs) => some (.copying 0, syncFiles true fs)
  | .copy, (.copying k, fs) =>
    match data[k]? with
    | none => none
    | some b =>
      let old := fs.content (.file .jobs)
      if onPage old k then some (.copying (k + 1), fs.put (.file .jobs) (old.set k b))
      else some (.faulted, fs)
  | .unlock, (.copying k, fs) =>
    if k = data.length then some (.done, syncFiles false fs) else none
  | _, _ => none

/-- Between a `syncJob(true)` and its `syncJob(false)`. -/
def Phase.InSection : Phase → Prop
  | .copying _ => True
  | _ => False

instance : (p : Phase) → Decidable p.InSection
  | .copying _ => .isTrue trivial
  | .start | .polling | .sawFree | .done | .faulted => .isFalse id

inductive WriterStep (data : Bytes) : WriterAct → Phase × Files → Phase × Files → Prop
  | truncate (fs : Files) : WriterStep data .truncate (.start, fs)
      (if data = [] then .done else .polling, (fs.openCreate (.file .jobs)).put (.file .jobs)
        (ftruncate data.length (fs.content (.file .jobs))))
  | poll (fs : Files) : WriterStep data .poll (.polling, fs)
      (if readsFree (fs.content (.file .jobsSync)) then .sawFree else .polling,
        fs.openCreate (.file .jobsSync))
  | lock (fs : Files) : WriterStep data .lock (.sawFree, fs) (.copying 0, syncFiles true fs)
  | copy (fs : Files) (k : Nat) (b : UInt8) : data[k]? = some b →
      onPage (fs.content (.file .jobs)) k = true →
      WriterStep data .copy (.copying k, fs)
        (.copying (k + 1), fs.put (.file .jobs) ((fs.content (.file .jobs)).set k b))
  | fault (fs : Files) (k : Nat) : k < data.length →
      onPage (fs.content (.file .jobs)) k = false →
      WriterStep data .copy (.copying k, fs) (.faulted, fs)
  | unlock (fs : Files) :
      WriterStep data .unlock (.copying data.length, fs) (.done, syncFiles false fs)

theorem writerStep_cases {data : Bytes} {a : WriterAct} {x y : Phase × Files}
    (h : writerStep data a x = some y) : WriterStep data a x y := by
  obtain ⟨p, fs⟩ := x
  cases a <;> cases p <;> simp only [writerStep, reduceCtorEq] at h
  · cases h
    simpa using (WriterStep.truncate fs : WriterStep data _ _ _)
  · cases h
    exact .poll fs
  · cases h
    exact .lock fs
  · rename_i k
    split at h
    · cases h
    · rename_i b hb
      split at h
      · rename_i hpage
        cases h
        exact .copy fs k b hb hpage
      · rename_i hpage
        cases h
        exact .fault fs k (List.getElem?_eq_some_iff.mp hb).1 (by simpa using hpage)
  · rename_i k
    split at h
    · rename_i hk
      cases h
      subst hk
      exact .unlock fs
    · cases h

/-! ## A writer alone -/

theorem onPage_of_lt {data : Bytes} {k : Nat} (h : k < data.length) : onPage data k = true := by
  have := Nat.div_mul_le_self k pageSize
  simp only [onPage, decide_eq_true_eq]
  omega

theorem take_set_succ {old data : Bytes} {k : Nat} {b : UInt8} (hlen : old.length = data.length)
    (h : old.take k = data.take k) (hb : data[k]? = some b) :
    (old.set k b).take (k + 1) = data.take (k + 1) := by
  have hk : k < old.length := by
    rw [hlen]
    exact (List.getElem?_eq_some_iff.mp hb).1
  rw [List.take_add_one, List.take_add_one, List.take_set_of_le (Nat.le_refl k), h, hb,
    List.getElem?_set_self hk]

/-- From `k` copied bytes on, the rest of the copy makes the file the data. -/
theorem copy_run (data : Bytes) (n : Nat) :
    ∀ (k : Nat) (fs : Files), k + n = data.length →
      (fs.content (.file .jobs)).length = data.length →
      (fs.content (.file .jobs)).take k = data.take k →
      ∃ fs', runs (writerStep data) (List.replicate n .copy) (.copying k, fs) =
          some (.copying data.length, fs') ∧
        fs'.content (.file .jobs) = data ∧
        ∀ q, q ≠ .file .jobs → fs'.content q = fs.content q := by
  induction n with
  | zero =>
    intro k fs hk hlen htake
    have hk' : k = data.length := hk
    subst hk'
    refine ⟨fs, rfl, ?_, fun _ _ => rfl⟩
    rw [List.take_length, ← hlen, List.take_length] at htake
    exact htake
  | succ n ih =>
    intro k fs hk hlen htake
    have hlt : k < data.length := by omega
    have hb : data[k]? = some data[k] := List.getElem?_eq_getElem hlt
    have hpage : onPage (fs.content (.file .jobs)) k = true := onPage_of_lt (by omega)
    obtain ⟨fs', hrun, hdata, hrest⟩ := ih (k + 1)
      (fs.put (.file .jobs) ((fs.content (.file .jobs)).set k data[k])) (by omega)
      (by simpa using hlen) (by simpa using take_set_succ hlen htake hb)
    refine ⟨fs', ?_, hdata, fun q hq => ?_⟩
    · rw [List.replicate_succ, runs_cons]
      exact ⟨_, by simp [writerStep, hb, hpage], hrun⟩
    · rw [hrest q hq, FileStore.content_put_of_ne hq]

/-- The steps of `writeData` in their order, with one poll. -/
def writeSteps (data : Bytes) : List WriterAct :=
  [.truncate, .poll, .lock] ++ List.replicate data.length .copy ++ [.unlock]

/-- **A writer alone does what `writeJobsData` does**, the backup it makes first apart. -/
theorem solo_run {data : Bytes} (hdata : data ≠ []) (n : Nat) {fs : Files} (hlock : LockFree fs) :
    ∃ fs', runs (writerStep data) (writeSteps data) (.start, fs) = some (.done, fs') ∧
      Exec.wp (writeJobsData n data)
        (fun rc fs'' => rc = 0 ∧ ∀ q, q ≠ .fileCopy .jobs → fs''.content q = fs'.content q)
        (fun _ _ => False) fs := by
  let fs₁ := (fs.openCreate (.file .jobs)).put (.file .jobs)
    (ftruncate data.length ((fs.openCreate (.file .jobs)).content (.file .jobs)))
  let fs₂ := syncFiles true (fs₁.openCreate (.file .jobsSync))
  have hkept₁ : ∀ q, q ≠ .file .jobs → fs₁.content q = fs.content q := by
    intro q hq
    simp [fs₁, FileStore.content_put_of_ne hq]
  have hlock₁ : readsFree (fs₁.content (.file .jobsSync)) = true := by
    rw [hkept₁ _ (by decide)]
    exact hlock
  have hjobs₂ : (fs₂.content (.file .jobs)).length = data.length := by
    simp [fs₂, fs₁, content_syncFiles]
  obtain ⟨fs₃, hcopy, hdata₃, hkept₃⟩ := copy_run data data.length 0 fs₂ (by simp) hjobs₂ rfl
  have hopen : runs (writerStep data) [.truncate, .poll, .lock] (.start, fs) =
      some (.copying 0, fs₂) := by
    refine runs_cons.mpr ⟨(.polling, fs₁), ?_, ?_⟩
    · simp [writerStep, hdata, fs₁]
    · refine runs_cons.mpr ⟨(.sawFree, fs₁.openCreate (.file .jobsSync)), ?_, rfl⟩
      simp only [writerStep, hlock₁, if_true]
  refine ⟨syncFiles false fs₃, runs_append (runs_append hopen hcopy) ?_, ?_⟩
  · simp [runs, writerStep]
  · refine Exec.wp_mono (wp_writeJobsData hdata n fs) ?_ fun _ _ h => h.2 hlock
    rintro rc fs'' ⟨hrc, -, hjobs, hsync, hsame⟩
    refine ⟨hrc, fun q hq => ?_⟩
    rw [content_syncFiles]
    by_cases hqs : q = .file .jobsSync
    · rw [if_pos hqs, hqs, hsync]
      rfl
    · rw [if_neg hqs]
      by_cases hqj : q = .file .jobs
      · rw [hqj, hjobs, hdata₃]
      · rw [hkept₃ q hqj, hsame q (by simp [hq, hqs, hqj])]
        simp only [fs₂, content_syncFiles, if_neg hqs, FileStore.content_openCreate]
        exact (hkept₁ q hqj).symm

/-! ## Many writers -/

structure Writers (ι : Type) where
  files : Files
  phase : ι → Phase

section many

variable {ι : Type}

def step [DecidableEq ι] (data : ι → Bytes) (a : ι × WriterAct) (s : Writers ι) :
    Option (Writers ι) :=
  (writerStep (data a.1) a.2 (s.phase a.1, s.files)).map fun r =>
    ⟨r.2, Function.update s.phase a.1 r.1⟩

/-- The lock reads free at a truncation and at a taking of the lock. -/
def ReadsFree (s : Writers ι) (a : ι × WriterAct) (_ : Writers ι) : Prop :=
  a.2 = .truncate ∨ a.2 = .lock → LockFree s.files

instance (s : Writers ι) (a : ι × WriterAct) (s' : Writers ι) : Decidable (ReadsFree s a s') :=
  inferInstanceAs (Decidable (_ → _))

/-- **Mutual exclusion**: no two writers are in the section. -/
def Exclusive (s : Writers ι) : Prop :=
  ∀ i j, (s.phase i).InSection → (s.phase j).InSection → i = j

/-- The step of one writer changes nothing under another one that is in the section. -/
def Undisturbed (s : Writers ι) (a : ι × WriterAct) (s' : Writers ι) : Prop :=
  ∀ j, j ≠ a.1 → (s.phase j).InSection →
    s'.files.content (.file .jobs) = s.files.content (.file .jobs)

/-- A writer in the section holds the lock, and holds it alone. -/
structure Guarding (s : Writers ι) : Prop where
  locked : ∀ i, (s.phase i).InSection → ¬LockFree s.files
  exclusive : Exclusive s

theorem Guarding.of_leave {s s' : Writers ι} (h : Guarding s)
    (hin : ∀ i, (s'.phase i).InSection → (s.phase i).InSection)
    (hlock : (∃ i, (s'.phase i).InSection) → (LockFree s'.files ↔ LockFree s.files)) :
    Guarding s' where
  locked i hi := mt (hlock ⟨i, hi⟩).mp (h.locked i (hin i hi))
  exclusive i j hi hj := h.exclusive i j (hin i hi) (hin j hj)

variable [DecidableEq ι] {data : ι → Bytes}

theorem step_cases {a : ι × WriterAct} {s s' : Writers ι} (h : step data a s = some s') :
    ∃ p, WriterStep (data a.1) a.2 (s.phase a.1, s.files) (p, s'.files) ∧
      s'.phase = Function.update s.phase a.1 p := by
  obtain ⟨⟨p, fs⟩, hr, rfl⟩ := Option.map_eq_some_iff.mp h
  exact ⟨p, writerStep_cases hr, rfl⟩

/-- **A guarded step keeps the lock's promise.** -/
theorem Guarding.step {a : ι × WriterAct} {s s' : Writers ι} (h : Guarding s)
    (hguard : ReadsFree s a s') (hs : step data a s = some s') : Guarding s' := by
  obtain ⟨i, a⟩ := a
  obtain ⟨p, hstep, hphase⟩ := step_cases hs
  simp only at hstep hphase hguard
  -- the other writers are where they were
  have hother : ∀ {q}, s.phase i = q → (p.InSection → q.InSection) →
      ∀ j, (s'.phase j).InSection → (s.phase j).InSection := by
    intro q hq hp j hj
    rw [hphase] at hj
    by_cases hji : j = i
    · rw [hji, Function.update_self] at hj
      rw [hji, hq]
      exact hp hj
    · rwa [Function.update_of_ne hji] at hj
  generalize hfs' : s'.files = fs' at hstep
  generalize hq : s.phase i = q at hstep
  cases hstep with
  | truncate =>
    refine h.of_leave (hother hq ?_) fun _ => ?_
    · split <;> exact id
    · rw [hfs']
      exact LockFree.congr (by simp [FileStore.content_put_of_ne])
  | poll =>
    refine h.of_leave (hother hq ?_) fun _ => ?_
    · split <;> exact id
    · rw [hfs']
      exact LockFree.congr (by simp)
  | lock =>
    -- nobody else is in the section while the lock reads free
    have hfree : LockFree s.files := hguard (.inr rfl)
    have honly : ∀ j, (s'.phase j).InSection → j = i := fun j hj => by
      by_contra hji
      rw [hphase, Function.update_of_ne hji] at hj
      exact h.locked j hj hfree
    refine ⟨fun j _ => ?_, fun j k hj hk => (honly j hj).trans (honly k hk).symm⟩
    rw [hfs', LockFree, content_syncFiles, if_pos rfl]
    exact Bool.eq_false_iff.mp readsFree_lockedText
  | copy =>
    refine h.of_leave (hother hq fun _ => trivial) fun _ => ?_
    rw [hfs']
    exact LockFree.congr (FileStore.content_put_of_ne (by decide) _)
  | fault =>
    refine h.of_leave (hother hq False.elim) fun _ => ?_
    rw [hfs']
  | unlock =>
    -- the writer that leaves was the only one
    have hnone : ∀ j, ¬(s'.phase j).InSection := fun j hj => by
      rw [hphase] at hj
      by_cases hji : j = i
      · rw [hji, Function.update_self] at hj
        exact hj
      · rw [Function.update_of_ne hji] at hj
        exact hji (h.exclusive j i hj (by rw [hq]; trivial))
    exact ⟨fun j hj => absurd hj (hnone j), fun j _ hj => absurd hj (hnone j)⟩

/-- A guarded step leaves the jobs file to the writer that is in the section. -/
theorem Guarding.undisturbed {a : ι × WriterAct} {s s' : Writers ι} (h : Guarding s)
    (hguard : ReadsFree s a s') (hs : Sync.step data a s = some s') : Undisturbed s a s' := by
  obtain ⟨i, a⟩ := a
  intro j hji hj
  obtain ⟨p, hstep, -⟩ := step_cases hs
  simp only at hji hstep hguard
  generalize hfs' : s'.files = fs' at hstep
  generalize hq : s.phase i = q at hstep
  cases hstep with
  | truncate => exact absurd (hguard (.inl rfl)) (h.locked j hj)
  | poll => exact FileStore.content_openCreate ..
  | lock => exact absurd (hguard (.inr rfl)) (h.locked j hj)
  | copy => exact absurd (h.exclusive j i hj (by rw [hq]; trivial)) hji
  | fault => rfl
  | unlock => exact absurd (h.exclusive j i hj (by rw [hq]; trivial)) hji

/-- **Mutual exclusion of the writers**: in a run from writers that have not started,
in which the lock reads free at every truncation and at every taking of it, no two
writers are ever in the section and nobody changes the file under the one that is. -/
theorem writers_exclude (data : ι → Bytes) (s : Writers ι) (as : List (ι × WriterAct))
    (hstart : ∀ i, s.phase i = .start) (hguard : Every (step data) ReadsFree as s) :
    Every (step data) (fun s a s' => Exclusive s' ∧ Undisturbed s a s') as s := by
  have hnone : ∀ i, ¬(s.phase i).InSection := fun i hi => by
    rw [hstart i] at hi
    exact hi
  have hinit : Guarding s := ⟨fun i hi => absurd hi (hnone i), fun i _ hi => absurd hi (hnone i)⟩
  refine every_of_inv (fun h hg hs => ?_) as hinit hguard
  exact ⟨h.step hg hs, (h.step hg hs).exclusive, h.undisturbed hg hs⟩

end many

/-- Two writers that have not started, and no file. -/
def twoWriters : Writers Bool := ⟨fun _ => none, fun _ => .start⟩

def inTurn : List (Bool × WriterAct) :=
  (writeSteps [1]).map (true, ·) ++ (writeSteps [2]).map (false, ·)

theorem writers_exclude_inTurn :
    Every (step fun i => if i then [1] else [2])
      (fun s a s' => Exclusive s' ∧ Undisturbed s a s') inTurn twoWriters :=
  writers_exclude _ twoWriters inTurn (fun _ => rfl) (by decide +kernel)

/-- Both writers poll before either takes the lock. -/
def pollTogether : List (Bool × WriterAct) :=
  [(true, .truncate), (true, .poll), (false, .truncate), (false, .poll), (true, .lock),
    (false, .lock)]

theorem not_writers_exclude_pollTogether :
    LockFree twoWriters.files ∧ (∀ i, twoWriters.phase i = .start) ∧
      ¬Every (step fun i => if i then [1] else [2])
        (fun s a s' => Exclusive s' ∧ Undisturbed s a s') pollTogether twoWriters := by
  refine ⟨by decide, fun _ => rfl, ?_⟩
  simp only [Exclusive, Undisturbed]
  decide +kernel

end MiniRunner.Sync
