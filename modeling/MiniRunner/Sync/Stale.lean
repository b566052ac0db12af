import Mathlib.Algebra.BigOperators.Group.Finset.Basic
import Mathlib.Algebra.Order.BigOperators.Group.Finset
import MiniRunner.Sync.Writers

/-!
# The lock of a writer that died

The writers of `Sync.Writers`, any of which may be killed between two steps (`SIGKILL`, or
the fault of its own copy). The lock is a text in a file, so nothing gives it back for a
dead holder, and `while (!isJobFree())` has no end of its own.

The lock is abandoned when it reads locked and no live writer is past its poll. From then
on it stays so in every run, and the jobs file is only ever truncated; so it is when the one
writer past its poll is killed in its section (`abandoned_forever`).
Only a writer that died between `syncJob(true)` and `syncJob(false)` can have left it so
(`holder_died`), and otherwise the live writers can all finish (`finish_iff`).
-/

namespace MiniRunner.Sync

open Clib MiniRunner

/-- The writers, and which of them were killed. -/
structure Mortals (ι : Type) where
  writers : Writers ι
  killed : ι → Bool

inductive LifeAct where
  | write (a : WriterAct)
  | kill
  deriving DecidableEq, Repr

variable {ι : Type}

/-- Neither killed nor stopped by a fault. -/
def Mortals.Live (s : Mortals ι) (i : ι) : Prop :=
  s.killed i = false ∧ s.writers.phase i ≠ .faulted

def mortalStep [DecidableEq ι] (data : ι → Bytes) : ι × LifeAct → Mortals ι → Option (Mortals ι)
  | (i, .write a), s =>
    if s.killed i then none
    else (step data (i, a) s.writers).map fun w => { s with writers := w }
  | (i, .kill), s =>
    if s.killed i then none else some { s with killed := Function.update s.killed i true }

/-- Past the poll, on the way to `syncJob(false)`. -/
def Phase.Releases : Phase → Prop
  | .sawFree | .copying _ => True
  | _ => False

/-- The lock reads locked and nobody alive will give it back. -/
structure Abandoned (s : Mortals ι) : Prop where
  locked : ¬LockFree s.writers.files
  nobody : ∀ i, s.Live i → ¬(s.writers.phase i).Releases

/-- It still has to get the lock; an empty text is given up before that. -/
def Phase.Waits (data : Bytes) : Phase → Prop
  | .start => data ≠ []
  | .polling => True
  | _ => False

/-- What `writeData` still has to do. -/
def Phase.remaining (data : Bytes) : Phase → Nat
  | .start => data.length + 4
  | .polling => data.length + 3
  | .sawFree => data.length + 2
  | .copying k => data.length - k + 1
  | .done | .faulted => 0

/-- A writer that has truncated the file can reach every byte it has to copy. -/
def Phase.Fits (data file : Bytes) : Phase → Prop
  | .polling | .sawFree => ∀ k < data.length, onPage file k = true
  | .copying j => j ≤ data.length ∧ ∀ k < data.length, onPage file k = true
  | _ => True

variable [DecidableEq ι] {data : ι → Bytes} {s s' : Mortals ι}

/-- What a step can do: a step of a live writer, or the end of one. -/
theorem mortalStep_cases {i : ι} {a : LifeAct} (h : mortalStep data (i, a) s = some s') :
    s.killed i = false ∧
      ((∃ b p, a = .write b ∧
          WriterStep (data i) b (s.writers.phase i, s.writers.files) (p, s'.writers.files) ∧
          s'.writers.phase = Function.update s.writers.phase i p ∧ s'.killed = s.killed) ∨
        a = .kill ∧ s'.writers = s.writers ∧ s'.killed = Function.update s.killed i true) := by
  cases a with
  | write b =>
    simp only [mortalStep] at h
    split at h
    · cases h
    · rename_i hlive
      obtain ⟨w, hw, rfl⟩ := Option.map_eq_some_iff.mp h
      obtain ⟨p, hstep, hphase⟩ := step_cases hw
      exact ⟨by simpa using hlive, .inl ⟨b, p, rfl, hstep, hphase, rfl⟩⟩
  | kill =>
    simp only [mortalStep] at h
    split at h
    · cases h
    · rename_i hlive
      cases h
      exact ⟨by simpa using hlive, .inr ⟨rfl, rfl, rfl⟩⟩

theorem WriterStep.not_faulted {text : Bytes} {b : WriterAct} {p : Phase} {fs : Files}
    {y : Phase × Files} (h : WriterStep text b (p, fs) y) : p ≠ .faulted := by
  rintro rfl
  cases h

/-! ## An abandoned lock -/

/-- A writer short of its poll can only truncate the file, or poll again. -/
theorem WriterStep.waiting {text : Bytes} {b : WriterAct} {p p' : Phase} {fs fs' : Files}
    (h : WriterStep text b (p, fs) (p', fs')) (hlocked : ¬LockFree fs) (hp : ¬p.Releases) :
    ¬p'.Releases ∧ p' ≠ .faulted ∧ (p.Waits text → p'.Waits text) ∧
      fs'.content (.file .jobsSync) = fs.content (.file .jobsSync) ∧
      (fs'.content (.file .jobs) = fs.content (.file .jobs) ∨
        fs'.content (.file .jobs) = ftruncate text.length (fs.content (.file .jobs))) := by
  cases h with
  | truncate =>
    refine ⟨?_, ?_, ?_, by simp [FileStore.content_put_of_ne], .inr (by simp)⟩
    · split <;> exact id
    · split <;> simp
    · intro hdata
      rw [if_neg hdata]
      trivial
  | poll =>
    have hread : readsFree (fs.content (.file .jobsSync)) = false := by
      simpa [LockFree] using hlocked
    rw [hread]
    exact ⟨id, by simp, fun h => h, by simp, .inl (by simp)⟩
  | lock => exact absurd trivial hp
  | copy => exact absurd trivial hp
  | fault => exact absurd trivial hp
  | unlock => exact absurd trivial hp

/-- **A step under an abandoned lock**: it stays abandoned, nobody gets past the poll and
the jobs file is truncated at most. -/
theorem Abandoned.step {i : ι} {a : LifeAct} (h : Abandoned s)
    (hs : mortalStep data (i, a) s = some s') :
    Abandoned s' ∧
      (∀ j, (s.writers.phase j).Waits (data j) → (s'.writers.phase j).Waits (data j)) ∧
      (s'.writers.files.content (.file .jobs) = s.writers.files.content (.file .jobs) ∨
        ∃ j, s'.writers.files.content (.file .jobs) =
          ftruncate (data j).length (s.writers.files.content (.file .jobs))) := by
  obtain ⟨hkilled, ⟨b, p, -, hstep, hphase, hsame⟩ | ⟨-, hwriters, hkill⟩⟩ := mortalStep_cases hs
  · obtain ⟨hreleases, -, hwaits, hsync, hjobs⟩ :=
      hstep.waiting h.locked (h.nobody i ⟨hkilled, hstep.not_faulted⟩)
    refine ⟨⟨mt (LockFree.congr hsync).mp h.locked, fun j hj => ?_⟩, fun j hw => ?_,
      hjobs.imp_right fun hj => ⟨i, hj⟩⟩
    · by_cases hji : j = i
      · rwa [hji, hphase, Function.update_self]
      · rw [Mortals.Live, hphase, hsame, Function.update_of_ne hji] at hj
        rw [hphase, Function.update_of_ne hji]
        exact h.nobody j hj
    · rw [hphase]
      by_cases hji : j = i
      · subst hji
        rw [Function.update_self]
        exact hwaits hw
      · rwa [Function.update_of_ne hji]
  · refine ⟨⟨by rw [hwriters]; exact h.locked, fun j hj => ?_⟩, fun j hw => by rwa [hwriters],
      .inl (by rw [hwriters])⟩
    rw [hwriters]
    refine h.nobody j ⟨?_, by rw [← hwriters]; exact hj.2⟩
    by_cases hji : j = i
    · rwa [hji]
    · have := hj.1
      rwa [hkill, Function.update_of_ne hji] at this

/-- It is in its section, and no other live writer is past its poll. -/
structure HoldsAlone (s : Mortals ι) (i : ι) : Prop where
  live : s.Live i
  inSection : (s.writers.phase i).InSection
  locked : ¬LockFree s.writers.files
  alone : ∀ j, j ≠ i → s.Live j → ¬(s.writers.phase j).Releases

/-- The only holder is killed. -/
theorem HoldsAlone.killed {i : ι} (h : HoldsAlone s i)
    (hs : mortalStep data (i, .kill) s = some s') :
    Abandoned s' ∧ s'.writers = s.writers := by
  obtain ⟨-, ⟨b, p, hkill, -⟩ | ⟨-, hwriters, hkill⟩⟩ := mortalStep_cases hs
  · cases hkill
  refine ⟨⟨by rw [hwriters]; exact h.locked, fun j hj => ?_⟩, hwriters⟩
  have hji : j ≠ i := by
    rintro rfl
    have hlive := hj.1
    rw [hkill, Function.update_self] at hlive
    cases hlive
  have hkilled := hj.1
  rw [hkill, Function.update_of_ne hji] at hkilled
  rw [hwriters]
  exact h.alone j hji ⟨hkilled, by rw [← hwriters]; exact hj.2⟩

/-- **A lock whose only holder is killed is abandoned for good**: whatever the writers do then
and whichever of them are killed, the lock reads locked, no writer gets past its poll, and the
jobs file changes only by the truncations of the writers that come. -/
theorem abandoned_forever (data : ι → Bytes) (s : Mortals ι) (i : ι) (as : List (ι × LifeAct))
    (h : HoldsAlone s i) :
    Every (mortalStep data)
      (fun s _ s' => Abandoned s' ∧
        (∀ j, (s.writers.phase j).Waits (data j) → (s'.writers.phase j).Waits (data j)) ∧
        (s'.writers.files.content (.file .jobs) = s.writers.files.content (.file .jobs) ∨
          ∃ j, s'.writers.files.content (.file .jobs) =
            ftruncate (data j).length (s.writers.files.content (.file .jobs))))
      ((i, .kill) :: as) s := by
  refine every_cons.mpr fun s' hs => ?_
  obtain ⟨habandoned, hsame⟩ := h.killed hs
  refine ⟨⟨habandoned, fun j hj => by rwa [hsame], .inl (by rw [hsame])⟩, ?_⟩
  exact every_of_inv (G := fun _ _ _ => True) (fun hI _ hs => ⟨(hI.step hs).1, hI.step hs⟩) as
    habandoned (every_true as s')

/-- One writer is in its section, the other one polls. -/
def heldSection : Mortals Bool where
  writers :=
    { files := syncFiles true (FileStore.put (fun _ => none) (.file .jobs) [0])
      phase := fun i => if i then .copying 0 else .polling }
  killed := fun _ => false

theorem heldSection_holdsAlone : HoldsAlone heldSection true := by
  refine ⟨⟨rfl, by decide⟩, trivial, by decide, fun j hj _ => ?_⟩
  cases j with
  | false => exact id
  | true => exact absurd rfl hj

theorem abandoned_forever_heldSection :
    Every (mortalStep fun _ => [1])
      (fun s _ s' => Abandoned s' ∧
        (∀ j : Bool, (s.writers.phase j).Waits [1] → (s'.writers.phase j).Waits [1]) ∧
        (s'.writers.files.content (.file .jobs) = s.writers.files.content (.file .jobs) ∨
          ∃ _ : Bool, s'.writers.files.content (.file .jobs) =
            ftruncate 1 (s.writers.files.content (.file .jobs))))
      [(true, .kill), (false, .write .poll), (false, .kill)] heldSection :=
  abandoned_forever (fun _ => [1]) heldSection true _ heldSection_holdsAlone

/-- The holder was killed, the other one polls. -/
def killedHolder : Mortals Bool where
  writers := heldSection.writers
  killed := id

/-! ## Who abandons it -/

/-- While the lock reads locked some writer is in its section, or stopped there. -/
def HeldBy (s : Mortals ι) : Prop :=
  ¬LockFree s.writers.files →
    ∃ i, (s.writers.phase i).InSection ∨ s.writers.phase i = .faulted

theorem HeldBy.step {i : ι} {a : LifeAct} (h : HeldBy s)
    (hs : mortalStep data (i, a) s = some s') : HeldBy s' := by
  obtain ⟨-, ⟨b, p, -, hstep, hphase, -⟩ | ⟨-, hwriters, -⟩⟩ := mortalStep_cases hs
  · -- a holder other than the one that moves stays where it is
    have hother : (¬LockFree s'.writers.files → ¬LockFree s.writers.files) →
        (∀ q, s.writers.phase i = q → ¬(q.InSection ∨ q = .faulted)) → HeldBy s' := by
      intro hlock hi hlocked
      obtain ⟨j, hj⟩ := h (hlock hlocked)
      refine ⟨j, ?_⟩
      rw [hphase, Function.update_of_ne fun hji => hi _ rfl (by rwa [hji] at hj)]
      exact hj
    have hself : (p.InSection ∨ p = .faulted) → HeldBy s' := fun hp _ =>
      ⟨i, by rwa [hphase, Function.update_self]⟩
    generalize hfs' : s'.writers.files = fs' at hstep
    generalize hq : s.writers.phase i = q at hstep
    cases hstep with
    | truncate =>
      refine hother (mt fun hf => ?_) fun q hq' => ?_
      · rw [hfs']
        exact (LockFree.congr (by simp [FileStore.content_put_of_ne])).mpr hf
      · rw [← hq', hq]
        exact fun h => h.elim id (by simp)
    | poll =>
      refine hother (mt fun hf => ?_) fun q hq' => ?_
      · rw [hfs']
        exact (LockFree.congr (by simp)).mpr hf
      · rw [← hq', hq]
        exact fun h => h.elim id (by simp)
    | lock => exact hself (.inl trivial)
    | copy => exact hself (.inl trivial)
    | fault => exact hself (.inr rfl)
    | unlock =>
      intro hlocked
      refine absurd ?_ hlocked
      rw [hfs', LockFree, content_syncFiles, if_pos rfl]
      exact readsFree_freeText
  · intro hlocked
    rw [hwriters] at hlocked ⊢
    exact h hlocked

/-- Nobody has started or died, and the lock is free. -/
structure Mortals.Start (s : Mortals ι) : Prop where
  phase : ∀ i, s.writers.phase i = .start
  lock : LockFree s.writers.files

/-- **Only a writer that died in its section leaves the lock abandoned.** -/
theorem holder_died {as : List (ι × LifeAct)} (hstart : s.Start)
    (hrun : runs (mortalStep data) as s = some s') (h : Abandoned s') :
    ∃ i, s'.writers.phase i = .faulted ∨
      s'.killed i = true ∧ (s'.writers.phase i).InSection := by
  have hinit : HeldBy s := fun hlocked => absurd hstart.lock hlocked
  have hheld : HeldBy s' := runs_inv (fun hI hs => hI.step hs) hinit hrun
  obtain ⟨i, hi | hi⟩ := hheld h.locked
  · refine ⟨i, .inr ⟨?_, hi⟩⟩
    by_contra hlive
    have hne : s'.writers.phase i ≠ .faulted := fun hf => by
      rw [hf] at hi
      exact hi
    have hreleases : (s'.writers.phase i).Releases := by
      cases hp : s'.writers.phase i <;> rw [hp] at hi <;> first | exact hi | trivial
    exact h.nobody i ⟨by simpa using hlive, hne⟩ hreleases
  · exact ⟨i, .inl hi⟩

/-! ## Finishing -/

def writeStep (data : ι → Bytes) (a : ι × WriterAct) (s : Mortals ι) : Option (Mortals ι) :=
  mortalStep data (a.1, .write a.2) s

/-- It has truncated the file and not given back the lock. -/
def Phase.Opened : Phase → Prop
  | .polling | .sawFree | .copying _ => True
  | _ => False

/-- The steps of a schedule that gets everybody through: no poll of a held lock, and no
truncation under a writer that has its text still to copy. -/
structure Useful (s : Mortals ι) (a : WriterAct) : Prop where
  poll : a = .poll → LockFree s.writers.files
  truncate : a = .truncate → ∀ j, s.Live j → ¬(s.writers.phase j).Opened

omit [DecidableEq ι] in
theorem Useful.of_ne {b : WriterAct} (hpoll : b ≠ .poll) (htruncate : b ≠ .truncate) :
    Useful s b :=
  ⟨fun h => absurd h hpoll, fun h => absurd h htruncate⟩

open Classical in
noncomputable def usefulStep (data : ι → Bytes) (a : ι × WriterAct) (s : Mortals ι) :
    Option (Mortals ι) :=
  if Useful s a.2 then writeStep data a s else none

theorem usefulStep_eq_some {a : ι × WriterAct} :
    usefulStep data a s = some s' ↔ Useful s a.2 ∧ writeStep data a s = some s' := by
  unfold usefulStep
  split
  · rename_i h
    simp [h]
  · rename_i h
    simp [h]

theorem writeStep_cases {a : ι × WriterAct} (h : writeStep data a s = some s') :
    s.killed a.1 = false ∧ ∃ p,
      WriterStep (data a.1) a.2 (s.writers.phase a.1, s.writers.files) (p, s'.writers.files) ∧
      s'.writers.phase = Function.update s.writers.phase a.1 p ∧ s'.killed = s.killed := by
  obtain ⟨hkilled, ⟨b, p, hb, hstep⟩ | ⟨hb, -⟩⟩ := mortalStep_cases h
  · cases hb
    exact ⟨hkilled, p, hstep⟩
  · cases hb

/-- Every step but a poll of a held lock leaves its writer less to do. -/
theorem WriterStep.remaining_lt {text : Bytes} {b : WriterAct} {p p' : Phase} {fs fs' : Files}
    (h : WriterStep text b (p, fs) (p', fs')) (hpoll : b = .poll → LockFree fs) :
    p'.remaining text < p.remaining text := by
  cases h with
  | truncate =>
    split
    · simp [Phase.remaining]
    · simp [Phase.remaining]
  | poll =>
    have hfree : readsFree (fs.content (.file .jobsSync)) = true := hpoll rfl
    simp [hfree, Phase.remaining]
  | lock => simp [Phase.remaining]
  | copy _ k b hk =>
    have := (List.getElem?_eq_some_iff.mp hk).1
    simp only [Phase.remaining]
    omega
  | fault => simp [Phase.remaining]
  | unlock => simp [Phase.remaining]

def totalRemaining [Fintype ι] (data : ι → Bytes) (s : Mortals ι) : Nat :=
  ∑ i, (s.writers.phase i).remaining (data i)

theorem usefulStep_lt [Fintype ι] {a : ι × WriterAct} (h : usefulStep data a s = some s') :
    totalRemaining data s' < totalRemaining data s := by
  obtain ⟨huseful, hstep⟩ := usefulStep_eq_some.mp h
  obtain ⟨-, p, hstep, hphase, -⟩ := writeStep_cases hstep
  have hlt := hstep.remaining_lt huseful.poll
  refine Finset.sum_lt_sum (fun i _ => ?_) ⟨a.1, Finset.mem_univ _, ?_⟩
  · rw [hphase]
    by_cases hi : i = a.1
    · subst hi
      rw [Function.update_self]
      exact hlt.le
    · rw [Function.update_of_ne hi]
  · rwa [hphase, Function.update_self]

/-- What a good schedule keeps: the lock is not abandoned and every live writer can copy its
text. -/
structure Orderly (data : ι → Bytes) (s : Mortals ι) : Prop where
  fits : ∀ i, s.Live i →
    (s.writers.phase i).Fits (data i) (s.writers.files.content (.file .jobs))
  kept : ¬Abandoned s

theorem Phase.Fits.congr {text file file' : Bytes} {p : Phase} (h : p.Fits text file)
    (hlen : file'.length = file.length) : p.Fits text file' := by
  have hpage : ∀ k, onPage file' k = onPage file k := fun k => by rw [onPage, onPage, hlen]
  cases p <;> first | trivial | simpa only [Phase.Fits, hpage] using h

/-- One useful step of a writer that fits. -/
theorem WriterStep.fits {text : Bytes} {b : WriterAct} {p p' : Phase} {fs fs' : Files}
    (h : WriterStep text b (p, fs) (p', fs')) (hpoll : b = .poll → LockFree fs)
    (hfits : p.Fits text (fs.content (.file .jobs))) :
    p' ≠ .faulted ∧ p'.Fits text (fs'.content (.file .jobs)) ∧
      (b = .truncate ∧ fs'.content (.file .jobsSync) = fs.content (.file .jobsSync) ∨
        (fs'.content (.file .jobs)).length = (fs.content (.file .jobs)).length ∧
          (LockFree fs' ∨ p'.Releases)) := by
  cases h with
  | truncate =>
    refine ⟨?_, ?_, .inl ⟨rfl, by simp [FileStore.content_put_of_ne]⟩⟩
    · split <;> simp
    · split
      · trivial
      · intro k hk
        refine onPage_of_lt ?_
        rwa [FileStore.content_put, length_ftruncate]
  | poll =>
    have hfree : readsFree (fs.content (.file .jobsSync)) = true := hpoll rfl
    rw [if_pos hfree]
    exact ⟨by simp, hfits.congr (by simp), .inr ⟨by simp, .inr trivial⟩⟩
  | lock =>
    have hjobs : (syncFiles true fs).content (.file .jobs) = fs.content (.file .jobs) := by
      rw [content_syncFiles, if_neg (by decide)]
    rw [hjobs]
    exact ⟨by simp, ⟨Nat.zero_le _, hfits⟩, .inr ⟨rfl, .inr trivial⟩⟩
  | copy _ k b hb =>
    have hk := (List.getElem?_eq_some_iff.mp hb).1
    have hnext : (Phase.copying (k + 1)).Fits text (fs.content (.file .jobs)) := ⟨hk, hfits.2⟩
    exact ⟨by simp, hnext.congr (by simp), .inr ⟨by simp, .inr trivial⟩⟩
  | fault _ k hk hpage =>
    rw [hfits.2 k hk] at hpage
    cases hpage
  | unlock =>
    refine ⟨by simp, trivial, .inr ⟨by rw [content_syncFiles, if_neg (by decide)], .inl ?_⟩⟩
    rw [LockFree, content_syncFiles, if_pos rfl]
    exact readsFree_freeText

/-- **A useful step** keeps order and loses nobody. -/
theorem Orderly.step {a : ι × WriterAct} (h : Orderly data s)
    (hs : usefulStep data a s = some s') :
    Orderly data s' ∧ ∀ j, s.Live j → s'.Live j := by
  obtain ⟨huseful, hs⟩ := usefulStep_eq_some.mp hs
  obtain ⟨hkilled, p, hstep, hphase, hsame⟩ := writeStep_cases hs
  have hlive : s.Live a.1 := ⟨hkilled, hstep.not_faulted⟩
  obtain ⟨hp, hfits, hrest⟩ := hstep.fits huseful.poll (h.fits a.1 hlive)
  have hself : s'.writers.phase a.1 = p := by rw [hphase, Function.update_self]
  have hother : ∀ j, j ≠ a.1 → s'.writers.phase j = s.writers.phase j := fun j hj => by
    rw [hphase, Function.update_of_ne hj]
  have hstays : ∀ j, j ≠ a.1 → (s'.Live j ↔ s.Live j) := fun j hj => by
    rw [Mortals.Live, Mortals.Live, hother j hj, hsame]
  refine ⟨⟨fun j hj => ?_, fun habandoned => ?_⟩, fun j hj => ?_⟩
  · by_cases hja : j = a.1
    · rw [hja, hself]
      exact hfits
    · rw [hother j hja]
      have hj' := (hstays j hja).mp hj
      rcases hrest with ⟨htruncate, -⟩ | ⟨hlen, -⟩
      · -- the others have nothing to copy
        have hclosed := huseful.truncate htruncate j hj'
        cases hq : s.writers.phase j <;> rw [hq] at hclosed <;>
          first | trivial | exact absurd trivial hclosed
      · exact (h.fits j hj').congr hlen
  · rcases hrest with ⟨htruncate, hsync⟩ | ⟨-, hfree | hreleases⟩
    · refine h.kept ⟨mt (LockFree.congr hsync).mpr habandoned.locked, fun j hj hreleases => ?_⟩
      have hclosed := huseful.truncate htruncate j hj
      cases hq : s.writers.phase j <;> rw [hq] at hclosed hreleases <;>
        first | exact hreleases | exact hclosed trivial
    · exact habandoned.locked hfree
    · exact habandoned.nobody a.1 ⟨by rw [hsame]; exact hkilled, by rw [hself]; exact hp⟩
        (by rw [hself]; exact hreleases)
  · by_cases hja : j = a.1
    · rw [hja]
      exact ⟨by rw [hsame]; exact hkilled, by rw [hself]; exact hp⟩
    · exact (hstays j hja).mpr hj

theorem exists_writeStep {i : ι} {b : WriterAct} (h : s.Live i)
    (hstep : ∃ y, writerStep (data i) b (s.writers.phase i, s.writers.files) = some y) :
    ∃ s', writeStep data (i, b) s = some s' := by
  obtain ⟨y, hy⟩ := hstep
  simp only [writeStep, mortalStep, h.1, Bool.false_eq_true, if_false, Sync.step, hy,
    Option.map_some]
  exact ⟨_, rfl⟩

/-- **Where no useful step is left** every live writer is done. -/
theorem Orderly.done (h : Orderly data s) (hstuck : Stuck (usefulStep data) s) (i : ι)
    (hi : s.Live i) : s.writers.phase i = .done := by
  have hnone : ∀ j b, s.Live j → Useful s b →
      ¬∃ y, writerStep (data j) b (s.writers.phase j, s.writers.files) = some y := by
    intro j b hj hb hy
    obtain ⟨s', hs'⟩ := exists_writeStep hj hy
    have hno := hstuck (j, b)
    rw [usefulStep_eq_some.mpr ⟨hb, hs'⟩] at hno
    cases hno
  -- nobody is past the poll: its next step would be useful
  have hreleases : ∀ j, s.Live j → ¬(s.writers.phase j).Releases := by
    intro j hj hp
    cases hq : s.writers.phase j with
    | sawFree =>
      refine hnone j .lock hj (.of_ne (by simp) (by simp)) ?_
      simp [hq, writerStep]
    | copying k =>
      have hfits := h.fits j hj
      rw [hq] at hfits
      obtain ⟨hk, hpage⟩ := hfits
      rcases Nat.lt_or_eq_of_le hk with hlt | heq
      · refine hnone j .copy hj (.of_ne (by simp) (by simp)) ?_
        simp [hq, writerStep, List.getElem?_eq_getElem hlt, hpage k hlt]
      · refine hnone j .unlock hj (.of_ne (by simp) (by simp)) ?_
        simp [hq, writerStep, heq]
    | start | polling | done | faulted =>
      rw [hq] at hp
      exact hp
  have hfree : LockFree s.writers.files := by
    by_contra hlocked
    exact h.kept ⟨hlocked, hreleases⟩
  have hpolling : ∀ j, s.Live j → s.writers.phase j ≠ .polling := fun j hj hq =>
    hnone j .poll hj ⟨fun _ => hfree, by simp⟩ (by simp [hq, writerStep])
  cases hq : s.writers.phase i with
  | start =>
    refine absurd ?_ (hnone i .truncate hi ⟨by simp, fun _ j hj hopened => ?_⟩)
    · simp [hq, writerStep]
    · cases hp : s.writers.phase j with
      | polling => exact hpolling j hj hp
      | sawFree | copying => exact hreleases j hj (by rw [hp]; trivial)
      | start | done | faulted =>
        rw [hp] at hopened
        exact hopened
  | polling => exact absurd hq (hpolling i hi)
  | sawFree => exact absurd (by rw [hq]; trivial) (hreleases i hi)
  | copying k => exact absurd (by rw [hq]; trivial) (hreleases i hi)
  | done => rfl
  | faulted => exact absurd hq hi.2

theorem Abandoned.waits_forever {as : List (ι × WriterAct)} {i : ι} (h : Abandoned s)
    (hwaits : (s.writers.phase i).Waits (data i))
    (hrun : runs (writeStep data) as s = some s') :
    (s'.writers.phase i).Waits (data i) := by
  have hinv : Abandoned s' ∧ (s'.writers.phase i).Waits (data i) :=
    runs_inv (I := fun t => Abandoned t ∧ (t.writers.phase i).Waits (data i))
      (fun ht hs => ⟨(ht.1.step hs).1, (ht.1.step hs).2.1 i ht.2⟩) ⟨h, hwaits⟩ hrun
  exact hinv.2

/-- With the lock not abandoned, some schedule finishes every save. -/
theorem exists_finish [Fintype ι] (hkept : ¬Abandoned s)
    (hfits : ∀ i, s.Live i →
      (s.writers.phase i).Fits (data i) (s.writers.files.content (.file .jobs))) :
    ∃ as s', runs (writeStep data) as s = some s' ∧
      ∀ i, s.Live i → s'.writers.phase i = .done := by
  have hlt : ∀ {t a t'}, usefulStep data a t = some t' →
      totalRemaining data t' < totalRemaining data t := usefulStep_lt
  obtain ⟨as, s', hrun, hstuck⟩ := exists_stuck hlt s
  have hinv : Orderly data s' ∧ ∀ j, s.Live j → s'.Live j := by
    refine runs_inv (I := fun t => Orderly data t ∧ ∀ j, s.Live j → t.Live j) ?_
      ⟨⟨hfits, hkept⟩, fun _ h => h⟩ hrun
    rintro t a t' ⟨ht, hlive⟩ hs
    obtain ⟨ht', hnext⟩ := ht.step hs
    exact ⟨ht', fun j hj => hnext j (hlive j hj)⟩
  exact ⟨as, s', runs_mono (fun hs => (usefulStep_eq_some.mp hs).2) hrun,
    fun i hi => hinv.1.done hstuck i (hinv.2 i hi)⟩

/-- **Who can finish**: among finitely many writers that have something to write and whose
mappings reach all they have to copy, some schedule takes every live one to the end of its
save, unless the lock is abandoned and a live writer waits for it. -/
theorem finish_iff [Fintype ι] (data : ι → Bytes) (s : Mortals ι) (hdata : ∀ i, data i ≠ [])
    (hfits : ∀ i, s.Live i →
      (s.writers.phase i).Fits (data i) (s.writers.files.content (.file .jobs))) :
    (∃ as s', runs (writeStep data) as s = some s' ∧
      ∀ i, s.Live i → s'.writers.phase i = .done) ↔
    ¬(Abandoned s ∧ ∃ i, s.Live i ∧ (s.writers.phase i).Waits (data i)) := by
  constructor
  · rintro ⟨as, s', hrun, hdone⟩ ⟨habandoned, i, hi, hwaits⟩
    have hw := habandoned.waits_forever hwaits hrun
    rw [hdone i hi] at hw
    exact hw
  · intro hno
    by_cases habandoned : Abandoned s
    · -- nobody alive waits for the lock and nobody has it: they are all done
      refine ⟨[], s, rfl, fun i hi => ?_⟩
      have hreleases := habandoned.nobody i hi
      have hwaits : ¬(s.writers.phase i).Waits (data i) := fun hw => hno ⟨habandoned, i, hi, hw⟩
      cases hq : s.writers.phase i with
      | done => rfl
      | faulted => exact absurd hq hi.2
      | start => exact absurd (by rw [hq]; exact hdata i) hwaits
      | polling => exact absurd (by rw [hq]; trivial) hwaits
      | sawFree => exact absurd (by rw [hq]; trivial) hreleases
      | copying k => exact absurd (by rw [hq]; trivial) hreleases
    · exact exists_finish habandoned hfits

theorem finish_iff_killedHolder :
    (∃ as s', runs (writeStep fun _ => [1]) as killedHolder = some s' ∧
      ∀ i, killedHolder.Live i → s'.writers.phase i = .done) ↔
    ¬(Abandoned killedHolder ∧
      ∃ i, killedHolder.Live i ∧ (killedHolder.writers.phase i).Waits [1]) := by
  refine finish_iff (fun _ => [1]) killedHolder (fun _ => by simp) fun i hi => ?_
  cases i with
  | false =>
    intro k hk
    refine onPage_of_lt ?_
    have hjobs : killedHolder.writers.files.content (.file .jobs) = [0] := rfl
    rw [hjobs]
    exact hk
  | true => exact absurd hi.1 (by decide)

/-! ## Texts of one page -/

structure Paged (data : ι → Bytes) (w : Writers ι) : Prop where
  running : ∀ i, w.phase i ≠ .faulted
  copied : ∀ i k, w.phase i = .copying k → k ≤ (data i).length
  file : ∀ i, (w.phase i).Opened → w.files.content (.file .jobs) ≠ []

theorem onPage_of_page {file : Bytes} {k : Nat} (hk : k < pageSize) (hfile : file ≠ []) :
    onPage file k = true := by
  have := List.length_pos_iff.mpr hfile
  simp only [onPage, Nat.div_eq_of_lt hk, decide_eq_true_eq]
  omega

omit [DecidableEq ι] in
theorem Paged.fits {w : Writers ι} (h : Paged data w) (hpage : ∀ i, (data i).length ≤ pageSize)
    (i : ι) : (w.phase i).Fits (data i) (w.files.content (.file .jobs)) := by
  have hfile := h.file i
  have hcopied := h.copied i
  have hreach : w.files.content (.file .jobs) ≠ [] → ∀ k < (data i).length,
      onPage (w.files.content (.file .jobs)) k = true := fun hne k hk =>
    onPage_of_page (hk.trans_le (hpage i)) hne
  cases hq : w.phase i <;> rw [hq] at hfile hcopied
  case polling => exact hreach (hfile trivial)
  case sawFree => exact hreach (hfile trivial)
  case copying k => exact ⟨hcopied k rfl, hreach (hfile trivial)⟩
  all_goals trivial

/-- A writer step whose text takes one page. -/
theorem WriterStep.paged {text : Bytes} {b : WriterAct} {p p' : Phase} {fs fs' : Files}
    (h : WriterStep text b (p, fs) (p', fs')) (hdata : text ≠ []) (hlen : text.length ≤ pageSize)
    (hfile : p.Opened → fs.content (.file .jobs) ≠ []) :
    p' ≠ .faulted ∧ (∀ k, p' = .copying k → k ≤ text.length) ∧
      (p'.Opened → fs'.content (.file .jobs) ≠ []) ∧
      (fs.content (.file .jobs) ≠ [] → fs'.content (.file .jobs) ≠ []) := by
  cases h with
  | truncate =>
    have hne : ftruncate text.length (fs.content (.file .jobs)) ≠ [] :=
      List.ne_nil_of_length_pos (by simpa using List.length_pos_iff.mpr hdata)
    rw [if_neg hdata, FileStore.content_put]
    exact ⟨by simp, by simp, fun _ => hne, fun _ => hne⟩
  | poll =>
    simp only [FileStore.content_openCreate]
    refine ⟨?_, ?_, fun _ => hfile trivial, id⟩
    · split <;> simp
    · split <;> simp
  | lock =>
    rw [content_syncFiles, if_neg (by decide)]
    exact ⟨by simp, fun k hk => by cases hk; exact Nat.zero_le _, fun _ => hfile trivial, id⟩
  | copy _ k b hb =>
    have hk := (List.getElem?_eq_some_iff.mp hb).1
    have hne : (fs.content (.file .jobs)).set k b ≠ [] := by simpa using hfile trivial
    rw [FileStore.content_put]
    exact ⟨by simp, fun j hj => by cases hj; exact hk, fun _ => hne, fun _ => hne⟩
  | fault _ k hk hno =>
    rw [onPage_of_page (hk.trans_le hlen) (hfile trivial)] at hno
    cases hno
  | unlock =>
    rw [content_syncFiles, if_neg (by decide)]
    exact ⟨by simp, by simp, fun h => h.elim, id⟩

theorem Paged.step {a : ι × LifeAct} (h : Paged data s.writers) (hdata : ∀ i, data i ≠ [])
    (hpage : ∀ i, (data i).length ≤ pageSize) (hs : mortalStep data a s = some s') :
    Paged data s'.writers := by
  obtain ⟨i, a⟩ := a
  obtain ⟨-, ⟨b, p, -, hstep, hphase, -⟩ | ⟨-, hwriters, -⟩⟩ := mortalStep_cases hs
  · obtain ⟨hp, hk, hfile, hkept⟩ := hstep.paged (hdata i) (hpage i) (h.file i)
    refine ⟨fun j => ?_, fun j => ?_, fun j => ?_⟩ <;> rw [hphase] <;> by_cases hji : j = i
    · rwa [hji, Function.update_self]
    · rw [Function.update_of_ne hji]
      exact h.running j
    · rw [hji, Function.update_self]
      exact hk
    · rw [Function.update_of_ne hji]
      exact h.copied j
    · rwa [hji, Function.update_self]
    · rw [Function.update_of_ne hji]
      exact fun hj => hkept (h.file j hj)
  · rwa [hwriters]

/-- **Whoever lives can finish, unless a holder was killed**: in every run of writers with
texts of one page at most, from a free lock, the writers still alive can all be taken to
the end of their saves, or one was killed between `syncJob(true)` and `syncJob(false)`. -/
theorem finish_or_killed [Fintype ι] (data : ι → Bytes) (s s' : Mortals ι)
    (as : List (ι × LifeAct)) (hdata : ∀ i, data i ≠ [])
    (hpage : ∀ i, (data i).length ≤ pageSize) (hstart : s.Start)
    (hrun : runs (mortalStep data) as s = some s') :
    (∃ bs t, runs (writeStep data) bs s' = some t ∧
      ∀ i, s'.Live i → t.writers.phase i = .done) ∨
    ∃ i, s'.killed i = true ∧ (s'.writers.phase i).InSection := by
  have hpaged : Paged data s'.writers := by
    refine runs_inv (I := fun t => Paged data t.writers)
      (fun hI hs => hI.step hdata hpage hs) ?_ hrun
    refine ⟨fun i => ?_, fun i k hk => ?_, fun i hi => ?_⟩
    · rw [hstart.phase i]
      simp
    · rw [hstart.phase i] at hk
      cases hk
    · rw [hstart.phase i] at hi
      exact hi.elim
  by_cases habandoned : Abandoned s'
  · obtain ⟨i, hi | hi⟩ := holder_died hstart hrun habandoned
    · exact absurd hi (hpaged.running i)
    · exact .inr ⟨i, hi⟩
  · exact .inl (exists_finish habandoned fun i _ => hpaged.fits hpage i)

/-- Two writers that have not started, one of them killed. -/
def oneKilled : Mortals Bool := ⟨twoWriters, Function.update (fun _ => false) true true⟩

theorem finish_or_killed_oneKilled :
    (∃ bs t, runs (writeStep fun _ => [1]) bs oneKilled = some t ∧
      ∀ i, oneKilled.Live i → t.writers.phase i = .done) ∨
    ∃ i, oneKilled.killed i = true ∧ (oneKilled.writers.phase i).InSection :=
  finish_or_killed (fun _ => [1]) ⟨twoWriters, fun _ => false⟩ oneKilled [(true, .kill)]
    (fun _ => by simp) (fun _ => by simp [pageSize]) ⟨fun _ => rfl, by decide⟩ rfl

end MiniRunner.Sync
