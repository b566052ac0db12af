import MiniRunner.Kernel.Cgroup
import MiniRunner.Ops.Services

/-!
# Undoing a rename that fails

`renameService` renames the folder, the cgroup and the limit in turn. After a failure it
renames the folder back; the cgroup only `if (undo folder fails && ...)`, so never when
the folder could be put back. A cgroup rename that fails in the middle is not undone
either: it has made a second directory by then.

`Undone` says when all the same nothing is left behind: the folder rename fails, or the
cgroup rename changes no directory, no process and no text (`CgroupsStay`).
-/

namespace MiniRunner

open Clib Process Kernel

/-! ## What a cgroup rename leaves -/

/-- **The same cgroups**: the same directories, with the same processes in them, in whatever
order, and the same texts in their control files. -/
structure SameCgroups (k k' : Kernel) : Prop where
  procs : ∀ c name, Option.Rel List.Perm (k.procsOf c name) (k'.procsOf c name)
  texts : ∀ c name f, k'.textOf c name f = k.textOf c name f

/-- The parts of the system that a cgroup rename never touches. -/
def SameSystem (k k' : Kernel) : Prop := k'.folders = k.folders ∧ k'.faults = k.faults

/-- The process of a pid is in the cgroup of a name, and in no other one beside it. -/
def InGroup (c : Controller) (name : CStr) (pid : BitVec 32) (k : Kernel) : Prop :=
  ∀ n procs, k.procsOf c n = some procs → (k.procOf pid ∈ procs ↔ n = name)

/-- A control file of version 2 says the same for both names. -/
def SameText (f : ControlFile) (serviceName newName : CStr) (k : Kernel) : Prop :=
  k.textOf .unified newName f = k.textOf .unified serviceName f

/-- Both directories being there, the steps of `moveCgrpV2` up to the one that fails change
nothing, and one of them fails. -/
def MoveStays (serviceName newName : CStr) (pid : BitVec 32) (k : Kernel) : Prop :=
  k.faults (.writeProcs .unified newName) = true ∨
    InGroup .unified newName pid k ∧
      (k.faults (.fileCopy .cpuMax serviceName newName) = true ∨
        SameText .cpuMax serviceName newName k ∧
          (k.faults (.fileCopy .memoryMax serviceName newName) = true ∨
            SameText .memoryMax serviceName newName k ∧
              (k.faults (.rmdir .unified serviceName) = true ∨
                k.procsOf .unified serviceName ≠ some [])))

/-- The directory is missing and cannot be made. -/
def MkdirFails (c : Controller) (name : CStr) (k : Kernel) : Prop :=
  (k.cgroups c name).isSome = false ∧ k.faults (.mkdir c name) = true

/-- The directory over those of the services is missing and cannot be made. -/
def RootFails (c : Controller) (k : Kernel) : Prop :=
  k.roots c = false ∧ k.faults (.mkdirRoot c) = true

/-- `basic_v1_setup` fails before it has made a directory for the service. -/
def SetupFails (name : CStr) (k : Kernel) : Prop :=
  RootFails .cpu k ∨ RootFails .memory k ∨ MkdirFails .cpu name k ∨
    (k.cgroups .cpu name).isSome = true ∧ MkdirFails .memory name k

def BothThere (name : CStr) (k : Kernel) : Prop :=
  (k.cgroups .cpu name).isSome = true ∧ (k.cgroups .memory name).isSome = true

/-- **A cgroup rename leaves the cgroups as they are**: the service has none, or the rename
fails before it has made a directory, or the new directory is there and what is done before
the step that fails changes nothing. -/
def CgroupsStay (serviceName newName : CStr) (pid : BitVec 32) (k : Kernel) : Prop :=
  if k.unified then
    (k.cgroups .unified serviceName).isSome → MkdirFails .unified newName k ∨
      (k.cgroups .unified newName).isSome ∧ MoveStays serviceName newName pid k
  else
    (k.cgroups .cpu serviceName).isSome → SetupFails newName k ∨
      BothThere newName k ∧
        (k.faults (.writeProcs .cpu newName) = true ∨ InGroup .cpu newName pid k)

theorem SameSystem.refl (k : Kernel) : SameSystem k k := ⟨rfl, rfl⟩

theorem SameSystem.trans {k k' k'' : Kernel} (h : SameSystem k k') (h' : SameSystem k' k'') :
    SameSystem k k'' := ⟨h'.1.trans h.1, h'.2.trans h.2⟩

theorem SameCgroups.refl (k : Kernel) : SameCgroups k k :=
  ⟨fun c name => by cases k.procsOf c name <;> constructor; rfl, fun _ _ _ => rfl⟩

theorem sameCgroups_with (k k' : Kernel) (roots : Controller → Bool)
    (folders : CStr → Option (List CStr)) :
    SameCgroups { k with roots := roots, folders := folders } k' ↔ SameCgroups k k' :=
  ⟨fun h => ⟨h.procs, h.texts⟩, fun h => ⟨h.procs, h.texts⟩⟩

theorem sameCgroups_withFolders (k k' : Kernel) (folders : CStr → Option (List CStr)) :
    SameCgroups k { k' with folders := folders } ↔ SameCgroups k k' :=
  ⟨fun h => ⟨h.procs, h.texts⟩, fun h => ⟨h.procs, h.texts⟩⟩

theorem SameCgroups.isSome_eq {k k' : Kernel} (h : SameCgroups k k') (c : Controller)
    (name : CStr) : (k'.cgroups c name).isSome = (k.cgroups c name).isSome := by
  rw [← isSome_procsOf, ← isSome_procsOf]
  have hrel := h.procs c name
  generalize k.procsOf c name = x at hrel
  generalize k'.procsOf c name = y at hrel
  cases hrel <;> rfl

theorem not_sameCgroups_of_isSome {k k' : Kernel} (c : Controller) (name : CStr)
    (h : (k'.cgroups c name).isSome ≠ (k.cgroups c name).isSome) : ¬SameCgroups k k' :=
  fun hsame => h (hsame.isSome_eq c name)

section rename

variable {serviceName newName : CStr} {pid : BitVec 32} {k : Kernel}

theorem perm_cons_erase_iff {α : Type} [DecidableEq α] {a : α} {l : List α} :
    l.Perm (a :: l.erase a) ↔ a ∈ l :=
  ⟨fun h => h.symm.subset (List.mem_cons_self ..), List.perm_cons_erase⟩

theorem perm_erase_iff {α : Type} [DecidableEq α] {a : α} {l : List α} :
    l.Perm (l.erase a) ↔ a ∉ l := by
  refine ⟨fun h ha => ?_, fun h => by rw [List.erase_of_not_mem h]⟩
  have hlength := h.length_eq
  rw [List.length_erase_of_mem ha] at hlength
  have := List.length_pos_of_mem ha
  omega

/-- Writing a pid changes no processes exactly where it is in that cgroup already. -/
theorem procs_move_iff {c : Controller} :
    (∀ c' n, Option.Rel List.Perm (k.procsOf c' n) ((move c newName pid k).procsOf c' n)) ↔
      InGroup c newName pid k := by
  have hname : ∀ n procs, k.procsOf c n = some procs →
      (Option.Rel List.Perm (k.procsOf c n) ((move c newName pid k).procsOf c n) ↔
        (k.procOf pid ∈ procs ↔ n = newName)) := by
    intro n procs hprocs
    rw [procsOf_move, hprocs, Option.map_some, Option.rel_some_some]
    split
    · rename_i hn
      rw [perm_cons_erase_iff, iff_true_right hn]
    · rename_i hn
      rw [perm_erase_iff, iff_false_right hn]
  refine ⟨fun h n procs hprocs => (hname n procs hprocs).mp (h c n), fun h c' n => ?_⟩
  by_cases hc : c' = c
  · subst hc
    cases hprocs : k.procsOf c' n with
    | none =>
      rw [procsOf_move, hprocs]
      exact .none
    | some procs =>
      rw [← hprocs]
      exact (hname n procs hprocs).mpr (h n procs hprocs)
  · have hsame : (move c newName pid k).procsOf c' n = k.procsOf c' n := by
      simp [procsOf, move, hc]
    rw [hsame]
    exact (SameCgroups.refl k).procs c' n

theorem sameCgroups_move_iff {c : Controller} :
    SameCgroups k (move c newName pid k) ↔ InGroup c newName pid k :=
  ⟨fun h => procs_move_iff.mp h.procs,
    fun h => ⟨procs_move_iff.mpr h, fun _ _ _ => textOf_move ..⟩⟩

/-- What a copy of a control file leaves. -/
def copied (f : ControlFile) (serviceName newName : CStr) (k : Kernel) : Kernel :=
  putText f newName ((k.cgroups f.controller serviceName).elim [] fun g => k.text f g) k

theorem textOf_copied {f : ControlFile}
    (hold : (k.cgroups f.controller serviceName).isSome = true)
    (hnew : (k.cgroups f.controller newName).isSome = true) (c : Controller) (name : CStr)
    (g : ControlFile) :
    (copied f serviceName newName k).textOf c name g =
      if c = f.controller ∧ name = newName ∧ g = f then k.textOf f.controller serviceName f
      else k.textOf c name g := by
  obtain ⟨x, hx⟩ := Option.isSome_iff_exists.mp hold
  obtain ⟨y, hy⟩ := Option.isSome_iff_exists.mp hnew
  rw [copied, textOf_putText]
  split
  · rename_i h
    obtain ⟨rfl, rfl, rfl⟩ := h
    simp [textOf, hx, hy]
  · rfl

/-- **Where the move stands**: the process is moved, and these control files are copied. -/
structure CgrpCarried (files : List ControlFile) (serviceName newName : CStr) (pid : BitVec 32)
    (k k' : Kernel) : Prop where
  system : SameSystem k k'
  procs : ∀ c name, k'.procsOf c name = (move .unified newName pid k).procsOf c name
  texts : ∀ c name g, k'.textOf c name g =
    if c = .unified ∧ name = newName ∧ g ∈ files then k.textOf .unified serviceName g
    else k.textOf c name g

theorem CgrpCarried.move : CgrpCarried [] serviceName newName pid k (move .unified newName pid k) :=
  ⟨⟨rfl, rfl⟩, fun _ _ => rfl, fun _ _ _ => by rw [textOf_move, if_neg (by simp)]⟩

theorem CgrpCarried.isSome_eq {files : List ControlFile} {k' : Kernel}
    (h : CgrpCarried files serviceName newName pid k k') (c : Controller) (name : CStr) :
    (k'.cgroups c name).isSome = (k.cgroups c name).isSome := by
  rw [← isSome_procsOf, h.procs, isSome_procsOf_move, isSome_procsOf]

theorem CgrpCarried.copied {files : List ControlFile} {f : ControlFile} {k' : Kernel}
    (h : CgrpCarried files serviceName newName pid k k') (hf : f.controller = .unified)
    (hold : (k.cgroups .unified serviceName).isSome = true)
    (hnew : (k.cgroups .unified newName).isSome = true) :
    CgrpCarried (f :: files) serviceName newName pid k (copied f serviceName newName k') := by
  refine ⟨⟨h.system.1, h.system.2⟩, fun c name => (procsOf_putText ..).trans (h.procs c name),
    fun c name g => ?_⟩
  rw [textOf_copied (by rw [hf, h.isSome_eq, hold]) (by rw [hf, h.isSome_eq, hnew]), hf, h.texts,
    h.texts]
  by_cases hplace : c = .unified ∧ name = newName
  · obtain ⟨rfl, rfl⟩ := hplace
    by_cases hg : g = f
    · subst hg
      simp
    · simp [hg]
  · simp only [← and_assoc, hplace, false_and, if_false]

/-- All is as before exactly where the process was there and the copied texts are the same. -/
theorem CgrpCarried.same_iff {files : List ControlFile} {k' : Kernel}
    (h : CgrpCarried files serviceName newName pid k k') :
    SameCgroups k k' ↔
      InGroup .unified newName pid k ∧ ∀ f ∈ files, SameText f serviceName newName k := by
  constructor
  · intro hsame
    refine ⟨procs_move_iff.mp fun c n => h.procs c n ▸ hsame.procs c n, fun f hf => ?_⟩
    have htext := hsame.texts .unified newName f
    rw [h.texts, if_pos ⟨rfl, rfl, hf⟩] at htext
    exact htext.symm
  · rintro ⟨hin, hsame⟩
    refine ⟨fun c n => (h.procs c n).symm ▸ procs_move_iff.mpr hin c n, fun c n g => ?_⟩
    rw [h.texts]
    split
    · rename_i hg
      obtain ⟨rfl, rfl, hg⟩ := hg
      exact (hsame g hg).symm
    · rfl

theorem CgrpCarried.left {files : List ControlFile} {k' : Kernel} {procs left : List (BitVec 32)}
    (h : CgrpCarried files serviceName newName pid k k') (hin : InGroup .unified newName pid k)
    (hold : k.procsOf .unified serviceName = some procs)
    (hleft : k'.procsOf .unified serviceName = some left) : left ≠ [] ↔ procs ≠ [] := by
  have hrel := procs_move_iff.mpr hin .unified serviceName
  rw [← h.procs, hold, hleft, Option.rel_some_some] at hrel
  rw [ne_eq, ne_eq, ← List.length_eq_zero_iff, ← List.length_eq_zero_iff, hrel.length_eq]

/-- The copy of one control file either fails, or carries it along. -/
theorem CgrpCarried.wp_fileCopy_then {files : List ControlFile} {f : ControlFile} {k' : Kernel}
    (h : CgrpCarried files serviceName newName pid k k') (hf : f.controller = .unified)
    (hold : (k.cgroups .unified serviceName).isSome = true)
    (hnew : (k.cgroups .unified newName).isSome = true) {rest : Exec Kernel Int}
    {Q : Int → Kernel → Prop} {E : Halt → Kernel → Prop}
    (hfail : k.faults (.fileCopy f serviceName newName) = true → Q (-1) k')
    (hok : ¬k.faults (.fileCopy f serviceName newName) = true →
      ∀ k'', CgrpCarried (f :: files) serviceName newName pid k k'' → Exec.wp rest Q E k'') :
    Exec.wp (fileCopy f serviceName newName >>= fun rc => if rc ≠ 0 then pure (-1) else rest)
      Q E k' := by
  have hfaults : k'.faults = k.faults := h.system.2
  rw [fileCopy, wp_attempt_then]
  simp only [hf, h.isSome_eq, hold, hnew, Bool.and_self, Bool.true_eq_false, or_false, hfaults]
  split
  · rename_i hfault
    exact hfail hfault
  · rename_i hfault
    refine hok hfault _ ?_
    have hcopied := h.copied hf hold hnew
    rwa [MiniRunner.copied, hf] at hcopied

/-- How the move ends: other directories are still there, and it tells when all is the same. -/
structure CgrpMoved (serviceName newName : CStr) (pid : BitVec 32) (k k' : Kernel) : Prop where
  system : SameSystem k k'
  others : ∀ c name, name ≠ serviceName → (k'.cgroups c name).isSome = (k.cgroups c name).isSome
  same : SameCgroups k k' ↔ MoveStays serviceName newName pid k

theorem CgrpCarried.stopped {files : List ControlFile} {k' : Kernel}
    (h : CgrpCarried files serviceName newName pid k k')
    (hstays : MoveStays serviceName newName pid k ↔
      InGroup .unified newName pid k ∧ ∀ f ∈ files, SameText f serviceName newName k) :
    CgrpMoved serviceName newName pid k k' :=
  ⟨h.system, fun c name _ => h.isSome_eq c name, h.same_iff.trans hstays.symm⟩

theorem wp_moveCgrpV2 (hold : (k.cgroups .unified serviceName).isSome = true)
    (hnew : (k.cgroups .unified newName).isSome = true) :
    Exec.wp (moveCgrpV2 serviceName newName pid)
      (fun _ k' => CgrpMoved serviceName newName pid k k') (fun _ _ => False) k := by
  rw [moveCgrpV2, writeProcs, wp_attempt_then, hnew]
  split
  · rename_i hwrite
    have hfault : k.faults (.writeProcs .unified newName) = true := by simpa using hwrite
    exact ⟨.refl k, fun _ _ _ => rfl, iff_of_true (.refl k) (.inl hfault)⟩
  rename_i hwrite
  have hwrite' : ¬k.faults (.writeProcs .unified newName) = true := fun h => hwrite (.inl h)
  have hmoved : CgrpCarried [] serviceName newName pid k _ := .move
  refine hmoved.wp_fileCopy_then rfl hold hnew (fun hcpu => hmoved.stopped ?_) ?_
  · simp [MoveStays, hwrite', hcpu]
  intro hcpu k₁ hfirst
  refine hfirst.wp_fileCopy_then rfl hold hnew (fun hmemory => hfirst.stopped ?_) ?_
  · simp [MoveStays, hwrite', hcpu, hmemory]
  intro hmemory k₂ hboth
  obtain ⟨procs, hprocs⟩ : ∃ procs, k.procsOf .unified serviceName = some procs :=
    Option.isSome_iff_exists.mp (by rw [isSome_procsOf, hold])
  obtain ⟨left, hleft⟩ : ∃ left, k₂.procsOf .unified serviceName = some left :=
    Option.isSome_iff_exists.mp (by rw [isSome_procsOf, hboth.isSome_eq, hold])
  rw [Exec.wp_bind, wp_deleteDirectory hleft, hboth.system.2]
  split
  · rename_i hstop
    refine (Exec.wp_pure _).mpr (hboth.stopped ?_)
    simp only [MoveStays, hwrite', hcpu, hmemory, Bool.false_eq_true, false_or, hprocs,
      List.forall_mem_cons, List.not_mem_nil, false_implies, implies_true, and_true,
      and_congr_right_iff, ne_eq, Option.some.injEq]
    intro hin
    rw [← ne_eq, ← hboth.left hin hprocs hleft]
    tauto
  · rename_i hgone
    refine (Exec.wp_pure _).mpr ⟨⟨hboth.system.1, hboth.system.2⟩, fun c name hne => ?_,
      iff_of_false (not_sameCgroups_of_isSome .unified serviceName ?_) ?_⟩
    · rw [← isSome_procsOf, procsOf_setCgroup, if_neg fun h => hne h.2, isSome_procsOf]
      exact hboth.isSome_eq c name
    · rw [hold]
      simp [setCgroup]
    · simp only [MoveStays, hwrite', hcpu, hmemory, Bool.false_eq_true, false_or, hprocs, ne_eq,
        Option.some.injEq]
      rintro ⟨hin, -, -, h⟩
      exact hgone (h.imp_right (hboth.left hin hprocs hleft).mpr)

theorem wp_renameCgrpV2 (hu : k.unified = true) :
    Exec.wp (renameCgrpV2 serviceName newName pid)
      (fun _ k' => SameSystem k k' ∧ (SameCgroups k k' ↔ CgroupsStay serviceName newName pid k))
      (fun _ _ => False) k := by
  simp only [renameCgrpV2, Exec.wp_bind, Exec.wp_get, Exec.wp_ite, Exec.wp_pure, basicV2Setup,
    wp_ensureDirectory, CgroupsStay, if_pos hu]
  refine ⟨fun hnone => ⟨.refl k, iff_of_true (.refl k) ?_⟩, fun hsome => ?_⟩
  · intro hsome
    rw [Option.isNone_iff_eq_none] at hnone
    simp [hnone] at hsome
  have hold : (k.cgroups .unified serviceName).isSome = true := by
    rwa [Option.isSome_iff_ne_none, ne_eq, ← Option.isNone_iff_eq_none]
  simp only [hold, true_implies, MkdirFails]
  split
  · rename_i hnew
    -- the new directory is there: the outcome is that of the move
    refine ⟨fun h => absurd rfl h, fun _ => ?_⟩
    refine Exec.wp_mono (wp_moveCgrpV2 hold hnew) (fun _ k' hmoved => ?_) fun _ _ h => h
    rw [hmoved.same]
    simp [hmoved.system, hnew]
  rename_i hnew
  rw [Bool.not_eq_true] at hnew
  split
  · rename_i hfault
    exact ⟨fun _ => ⟨.refl k, iff_of_true (.refl k) (.inl ⟨hnew, hfault⟩)⟩,
      fun h => absurd (by decide) h⟩
  · rename_i hfault
    have hne : newName ≠ serviceName := by
      rintro rfl
      rw [hold] at hnew
      cases hnew
    refine ⟨fun h => absurd rfl h, fun _ => ?_⟩
    refine Exec.wp_mono (wp_moveCgrpV2 ?_ ?_) (fun _ k' hmoved => ?_) fun _ _ h => h
    · simpa [setCgroup, Function.update_of_ne hne.symm] using hold
    · simp [setCgroup]
    · refine ⟨.trans ⟨rfl, rfl⟩ hmoved.system, iff_of_false
        (not_sameCgroups_of_isSome .unified newName ?_) ?_⟩
      · rw [hmoved.others _ _ hne, hnew]
        simp [setCgroup]
      · simp [hnew, hfault]

/-- The directories over those of the services come first. -/
theorem wp_ensureRoot_then {c : Controller} {rest : Exec Kernel Int} {Q : Int → Kernel → Prop}
    {E : Halt → Kernel → Prop} (hfail : RootFails c k → Q (-1) k)
    (hok : ∀ roots, (∀ c', c' ≠ c → roots c' = k.roots c') → ¬RootFails c k →
      Exec.wp rest Q E { k with roots := roots }) :
    Exec.wp (ensureRoot c >>= fun rc => if rc ≠ 0 then pure (-1) else rest) Q E k := by
  rw [Exec.wp_bind, wp_ensureRoot]
  split
  · rename_i hroot
    refine hok k.roots (fun _ _ => rfl) fun h => ?_
    rw [h.1] at hroot
    cases hroot
  · rename_i hroot
    split
    · rename_i hfault
      exact (Exec.wp_pure _).mpr (hfail ⟨by simpa using hroot, hfault⟩)
    · rename_i hfault
      exact hok _ (fun c' hc => Function.update_of_ne hc ..) fun h => hfault h.2

/-- How `basic_v1_setup` ends. -/
inductive SetUp (newName : CStr) (k : Kernel) : Int → Kernel → Prop where
  /-- Both directories were there. -/
  | there (roots : Controller → Bool) (hthere : BothThere newName k) (hok : ¬SetupFails newName k) :
    SetUp newName k 0 { k with roots := roots }
  /-- A directory is missing, and none could be made. -/
  | failed (roots : Controller → Bool) (hfails : SetupFails newName k) :
    SetUp newName k (-1) { k with roots := roots }
  /-- A directory was made. -/
  | made (rc : Int) (k' : Kernel) (c : Controller) (hsystem : SameSystem k k')
    (hmissing : (k.cgroups c newName).isSome = false)
    (hmade : (k'.cgroups c newName).isSome = true)
    (hchanges : ¬SetupFails newName k ∧ ¬BothThere newName k) : SetUp newName k rc k'

theorem wp_basicV1Setup :
    Exec.wp (basicV1Setup newName) (SetUp newName k) (fun _ _ => False) k := by
  unfold basicV1Setup
  refine wp_ensureRoot_then (fun h => .failed k.roots (.inl h)) ?_
  intro roots hroots hcpuRoot
  refine wp_ensureRoot_then (fun h => .failed roots (.inr (.inl ?_))) ?_
  · exact ⟨(hroots .memory (by decide)).symm.trans h.1, h.2⟩
  intro roots' _ hmemoryRoot
  have hmemoryRoot' : ¬RootFails .memory k := fun h =>
    hmemoryRoot ⟨(hroots .memory (by decide)).trans h.1, h.2⟩
  rw [Exec.wp_bind, wp_ensureDirectory]
  split
  · rename_i hcpu
    simp only [ne_eq, not_true_eq_false, if_false, wp_ensureDirectory]
    split
    · rename_i hmemory
      exact .there roots' ⟨hcpu, hmemory⟩ (by simp_all [SetupFails, MkdirFails])
    rename_i hmemory
    split
    · rename_i hfault
      exact .failed roots' (.inr (.inr (.inr ⟨hcpu, by simpa using hmemory, hfault⟩)))
    · rename_i hfault
      exact .made 0 _ .memory ⟨rfl, rfl⟩ (by simpa using hmemory) (by simp [setCgroup])
        (by simp_all [SetupFails, MkdirFails, BothThere])
  rename_i hcpu
  split
  · rename_i hfault
    exact (Exec.wp_pure _).mpr (.failed roots' (.inr (.inr (.inl ⟨by simpa using hcpu, hfault⟩))))
  · rename_i hfault
    -- the directory under `cpu` is new, whatever happens under `memory`
    have hchanges : ¬SetupFails newName k ∧ ¬BothThere newName k := by
      simp_all [SetupFails, MkdirFails, BothThere]
    simp only [ne_eq, not_true_eq_false, if_false, wp_ensureDirectory]
    split
    · exact .made _ _ .cpu ⟨rfl, rfl⟩ (by simpa using hcpu) (by simp [setCgroup]) hchanges
    split
    · exact .made _ _ .cpu ⟨rfl, rfl⟩ (by simpa using hcpu) (by simp [setCgroup]) hchanges
    · exact .made _ _ .cpu ⟨rfl, rfl⟩ (by simpa using hcpu) (by simp [setCgroup]) hchanges

theorem wp_renameCgrpV1 (hu : k.unified = false) :
    Exec.wp (renameCgrpV1 serviceName newName pid)
      (fun _ k' => SameSystem k k' ∧ (SameCgroups k k' ↔ CgroupsStay serviceName newName pid k))
      (fun _ _ => False) k := by
  simp only [renameCgrpV1, Exec.wp_bind, Exec.wp_get, CgroupsStay, hu, Bool.false_eq_true, if_false]
  split
  · rename_i hnone
    refine (Exec.wp_pure _).mpr ⟨.refl k, iff_of_true (.refl k) fun h => ?_⟩
    rw [Option.isNone_iff_eq_none.mp hnone] at h
    cases h
  rename_i hsome
  have hold : (k.cgroups .cpu serviceName).isSome = true := by
    rwa [Option.isSome_iff_ne_none, ne_eq, ← Option.isNone_iff_eq_none]
  simp only [Exec.wp_bind, hold, true_implies]
  refine Exec.wp_mono wp_basicV1Setup (fun rc k' h => ?_) fun _ _ h => h
  -- whatever is answered for the copy, nothing more is changed after the process is written
  have hends : ∀ {k₂ : Kernel} {Q : Int → Kernel → Prop}, (∀ rc, Q rc k₂) →
      Exec.wp ((get : Exec Kernel Kernel) >>= fun k =>
        if (k.cgroups .memory serviceName).isNone = true then (pure 0 : Exec Kernel Int)
        else pure (-1)) Q (fun _ _ => False) k₂ := fun hq => by
    simp only [Exec.wp_bind, Exec.wp_get, Exec.wp_ite, Exec.wp_pure]
    exact ⟨fun _ => hq 0, fun _ => hq (-1)⟩
  cases h with
  | there roots hthere hok =>
    simp only [ne_eq, not_true_eq_false, if_false, createProcessV1, writeProcs, wp_attempt_then,
      hthere.1, Bool.true_eq_false, or_false]
    split
    · rename_i hwrite
      exact ⟨⟨rfl, rfl⟩, iff_of_true
        ((sameCgroups_with k _ roots k.folders).mp (.refl _)) (.inr ⟨hthere, .inl hwrite⟩)⟩
    · rename_i hwrite
      have hmove : SameCgroups k (move .cpu newName pid { k with roots := roots }) ↔
          InGroup .cpu newName pid k :=
        (sameCgroups_with k _ roots k.folders).symm.trans sameCgroups_move_iff
      refine hends fun _ => ⟨⟨rfl, rfl⟩, hmove.trans ?_⟩
      simp [hok, hthere, hwrite]
  | failed roots hfails =>
    exact (Exec.wp_pure _).mpr ⟨⟨rfl, rfl⟩, iff_of_true
      ((sameCgroups_with k _ roots k.folders).mp (.refl _)) (.inl hfails)⟩
  | made rc k' c hsystem hmissing hmade hchanges =>
    have hnew : ∀ k'' : Kernel, (k''.cgroups c newName).isSome = true → SameSystem k k'' →
        SameSystem k k'' ∧ (SameCgroups k k'' ↔ SetupFails newName k ∨ BothThere newName k ∧
          (k.faults (.writeProcs .cpu newName) = true ∨ InGroup .cpu newName pid k)) :=
      fun k'' h hsystem => ⟨hsystem, iff_of_false
        (not_sameCgroups_of_isSome c newName (by rw [h, hmissing]; decide))
        fun h => h.elim hchanges.1 fun h => hchanges.2 h.1⟩
    split
    · exact (Exec.wp_pure _).mpr (hnew k' hmade hsystem)
    · simp only [createProcessV1, writeProcs, wp_attempt_then]
      split
      · exact hnew k' hmade hsystem
      · refine hends fun _ => hnew _ ?_ (hsystem.trans ⟨rfl, rfl⟩)
        rw [← isSome_procsOf, isSome_procsOf_move, isSome_procsOf, hmade]

/-- **What `renameCgrp` leaves**, whichever of its steps fail. -/
theorem wp_renameCgrp :
    Exec.wp (renameCgrp serviceName newName pid)
      (fun _ k' => SameSystem k k' ∧ (SameCgroups k k' ↔ CgroupsStay serviceName newName pid k))
      (fun _ _ => False) k := by
  simp only [renameCgrp, Exec.wp_bind, Exec.wp_get]
  split
  · rename_i hu
    exact wp_renameCgrpV2 hu
  · rename_i hu
    exact wp_renameCgrpV1 (by simpa using hu)

end rename

/-! ## The undo -/

def FolderMoves (serviceName newName : CStr) (k : Kernel) : Prop :=
  k.faults (.renameFolder serviceName newName) = false ∧
    k.canRename serviceName newName = true

/-- Renaming the folder back, if it was renamed, does not fail. -/
def UndoSucceeds (serviceName newName : CStr) (k : Kernel) : Prop :=
  FolderMoves serviceName newName k → k.faults (.renameFolder newName serviceName) = false

/-- **As before the call**: the service's folder, the cgroups with their processes and their
control files, and the limits. -/
structure Restored (serviceName : CStr) (p p' : Process Kernel) : Prop where
  folder : p'.world.folders serviceName = p.world.folders serviceName
  cgroups : SameCgroups p.world p'.world
  limits : p'.limits.items = p.limits.items

/-- **When a rename that does not change the name leaves nothing behind**: there is no
such service, the folder cannot be renamed, or the cgroup rename changes nothing. -/
def Undone (serviceName newName : CStr) (p : Process Kernel) : Prop :=
  ∀ s, p.services.items.find? (·.name == serviceName) = some s →
    FolderMoves serviceName newName p.world → CgroupsStay serviceName newName s.pid p.world

section undo

variable {serviceName newName : CStr}

/-- A folder rename fails and changes nothing, or moves the folder. -/
theorem renameFolder_cases (base : Calls Kernel) (serviceName newName : CStr) (k : Kernel) :
    (¬FolderMoves serviceName newName k ∧
      (calls base).renameFolder serviceName newName k = (-1, k)) ∨
    (FolderMoves serviceName newName k ∧ ∃ folders,
      (calls base).renameFolder serviceName newName k = (0, { k with folders := folders }) ∧
      folders newName = k.folders serviceName ∧
      (serviceName ≠ newName → folders serviceName = none)) := by
  have hcall : (calls base).renameFolder serviceName newName k = _ := asCall_attempt _ _ _
  by_cases h : k.faults (.renameFolder serviceName newName) = true ∨
      k.canRename serviceName newName = false
  · refine .inl ⟨fun hmoves => ?_, hcall.trans (if_pos h)⟩
    rcases h with h | h
    · rw [hmoves.1] at h
      cases h
    · rw [hmoves.2] at h
      cases h
  · obtain ⟨hfault, hcan⟩ := not_or.mp h
    refine .inr ⟨⟨by simpa using hfault, by simpa using hcan⟩, ?_⟩
    rw [hcall, if_neg h]
    split
    · rename_i heq
      exact ⟨k.folders, rfl, by rw [heq], fun hne => absurd heq hne⟩
    · rename_i hne
      exact ⟨_, rfl, by simp [Function.update_of_ne (Ne.symm hne)], fun _ => by simp⟩

/-- Renaming the folder back puts it where it was. -/
theorem renameFolder_undo (base : Calls Kernel) {k k' : Kernel}
    (hmoved : k'.folders newName = k.folders serviceName)
    (hgone : serviceName ≠ newName → k'.folders serviceName = none)
    (hmoves : FolderMoves serviceName newName k)
    (hundo : k'.faults (.renameFolder newName serviceName) = false) :
    ∃ folders, (calls base).renameFolder newName serviceName k' =
        (0, { k' with folders := folders }) ∧ folders serviceName = k.folders serviceName := by
  have hthere : (k.folders serviceName).isSome = true := by
    have := hmoves.2
    simp only [canRename, Bool.and_eq_true] at this
    exact this.1
  have hcan : k'.canRename newName serviceName = true := by
    by_cases heq : newName = serviceName
    · subst heq
      simp [canRename, hmoved, hthere]
    · simp [canRename, hmoved, hthere, hgone (Ne.symm heq)]
  rcases renameFolder_cases base newName serviceName k' with
    ⟨hno, -⟩ | ⟨-, folders, hcall, hfolder, -⟩
  · exact absurd ⟨hundo, hcan⟩ hno
  · exact ⟨folders, hcall, hfolder.trans hmoved⟩

/-- Where the folder moves and can be moved back, only the cgroup rename decides. -/
theorem renameService_restored_of_moves (base : Calls Kernel) {p : Process Kernel} {s : Service}
    (hfind : p.services.items.find? (·.name == serviceName) = some s)
    (hmoves : FolderMoves serviceName newName p.world)
    (hundo : p.world.faults (.renameFolder newName serviceName) = false) :
    Exec.wp (renameService (calls base) serviceName newName)
      (fun _ p' => p'.services.items = p.services.items →
        (Restored serviceName p p' ↔ CgroupsStay serviceName newName s.pid p.world))
      (fun _ _ => False) p := by
  have hthere : p.services.isNull = false :=
    Table.isNull_eq_false (List.ne_nil_of_mem (List.mem_of_find?_eq_some hfind))
  obtain ⟨folders, hcall, hfolder, hgone⟩ :=
    (renameFolder_cases base serviceName newName p.world).elim (fun h => absurd hmoves h.1)
      fun h => h.2
  simp only [renameService, Exec.wp_bind, Exec.wp_get, hthere, Bool.false_eq_true, if_false,
    wp_findService, hfind, wp_call, hcall, ne_eq, not_true_eq_false]
  have hcgrp : SameSystem { p.world with folders := folders }
        ((calls base).renameCgrp serviceName newName s.pid
          { p.world with folders := folders }).2 ∧
      (SameCgroups p.world ((calls base).renameCgrp serviceName newName s.pid
          { p.world with folders := folders }).2 ↔
        CgroupsStay serviceName newName s.pid p.world) := by
    rw [← sameCgroups_with p.world _ p.world.roots folders]
    exact asCall_of_wp wp_renameCgrp
  generalize (calls base).renameCgrp serviceName newName s.pid
    { p.world with folders := folders } = r at hcgrp ⊢
  obtain ⟨rc, k⟩ := r
  obtain ⟨⟨hfolders, hfaults⟩, hdirs⟩ := hcgrp
  simp only at hfolders hfaults hdirs ⊢
  -- the undo, if it is made
  obtain ⟨folders', hback, hrestored⟩ := renameFolder_undo base
    (by rw [hfolders]; exact hfolder) (by rw [hfolders]; exact hgone) hmoves
    (by rw [hfaults]; exact hundo)
  have hiff : ∀ lim : Table Limit, lim.items = p.limits.items →
      (Restored serviceName p { p with limits := lim, world := { k with folders := folders' } } ↔
        CgroupsStay serviceName newName s.pid p.world) := fun lim hlim =>
    ⟨fun h => hdirs.mp ((sameCgroups_withFolders _ k folders').mp h.cgroups), fun h =>
      ⟨hrestored, (sameCgroups_withFolders _ k folders').mpr (hdirs.mpr h), hlim⟩⟩
  by_cases hrc : rc = 0
  swap
  · simp only [hrc, not_false_eq_true, if_true, Exec.wp_bind, wp_call, hback, Exec.wp_pure]
    exact fun _ => hiff p.limits rfl
  simp only [hrc, not_true_eq_false, if_false, Exec.wp_bind, wp_onLimits]
  by_cases hnull : p.limits.isNull = true
  · simp only [renameLimit, hnull, if_true, reduceCtorEq, not_false_eq_true, Exec.wp_bind,
      wp_call, hback, not_true_eq_false, if_false, Exec.wp_pure]
    exact fun _ => hiff p.limits rfl
  · rw [Bool.not_eq_true] at hnull
    simp only [renameLimit, hnull, Bool.false_eq_true, if_false, not_true_eq_false,
      wp_updateService]
    intro hsame
    -- the name did not change: it is the old one
    have hname : newName = s.name := congrArg Service.name
      (Table.eq_of_updateFirst_eq_self hfind hsame)
    have hs : s.name = serviceName := by simpa using List.find?_some hfind
    have heq : newName = serviceName := hname.trans hs
    refine ⟨fun h => hdirs.mp h.cgroups, fun h => ⟨?_, hdirs.mpr h, ?_⟩⟩
    · rw [← hfolder, heq, ← hfolders]
    · refine Table.updateFirst_of_forall_eq (fun l hl => ?_) _
      rw [heq, ← eq_of_beq hl]

/-- Where there is no such service, or its folder does not move, nothing is touched. -/
theorem renameService_untouched (base : Calls Kernel) {p : Process Kernel}
    (h : (p.services.items.find? (·.name == serviceName)).isSome = true →
      ¬FolderMoves serviceName newName p.world) :
    Exec.wp (renameService (calls base) serviceName newName) (fun _ p' => p' = p)
      (fun _ _ => False) p := by
  simp only [renameService, Exec.wp_bind, Exec.wp_get]
  split
  · exact (Exec.wp_pure _).mpr rfl
  rw [Exec.wp_bind, wp_findService]
  cases hfind : p.services.items.find? (·.name == serviceName) with
  | none => exact (Exec.wp_pure _).mpr rfl
  | some s =>
    rcases renameFolder_cases base serviceName newName p.world with ⟨-, hcall⟩ | ⟨hmoves, -⟩
    · simp only [Exec.wp_bind, wp_call, hcall, ne_eq, reduceCtorEq, not_false_eq_true, if_true,
        Exec.wp_pure]
    · exact absurd hmoves (h (by rw [hfind]; rfl))

/-- **When a failed rename is undone.** For every state of the folders, the cgroups and the
limits, and whichever calls fail: a rename that returns without changing the service's name
and whose undo succeeds leaves the folder, the cgroups and the limits as they were exactly on the
states of `Undone`. -/
theorem renameService_restored_iff (base : Calls Kernel) (p : Process Kernel)
    (serviceName newName : CStr) :
    Exec.wp (renameService (calls base) serviceName newName)
      (fun _ p' => p'.services.items = p.services.items →
        UndoSucceeds serviceName newName p.world →
          (Restored serviceName p p' ↔ Undone serviceName newName p))
      (fun _ _ => False) p := by
  by_cases hundo : UndoSucceeds serviceName newName p.world
  swap
  · exact Exec.wp_mono (wp_renameService serviceName newName) (fun _ _ _ _ h => absurd h hundo)
      fun _ _ h => h
  by_cases hmoves : (p.services.items.find? (·.name == serviceName)).isSome = true ∧
      FolderMoves serviceName newName p.world
  · obtain ⟨hsome, hmoves⟩ := hmoves
    obtain ⟨s, hfind⟩ := Option.isSome_iff_exists.mp hsome
    have hundone : Undone serviceName newName p ↔ CgroupsStay serviceName newName s.pid p.world :=
      ⟨fun h => h s hfind hmoves, fun h s' hs' _ => by rw [hfind] at hs'; cases hs'; exact h⟩
    refine Exec.wp_mono (renameService_restored_of_moves base hfind hmoves (hundo hmoves))
      (fun _ _ h hsame _ => ?_) fun _ _ h => h
    rw [hundone]
    exact h hsame
  · have huntouched := not_and.mp hmoves
    refine Exec.wp_mono (renameService_untouched base huntouched) ?_ fun _ _ h => h
    rintro - p' rfl - -
    refine iff_of_true ⟨rfl, .refl _, rfl⟩ fun s hs h => absurd h (huntouched ?_)
    rw [hs]
    rfl

end undo

/-- A running service `a` with a folder and a cgroup, and no limits table: its last limit
was removed before. -/
def noLimits : Process Kernel where
  files := fun _ => none
  world :=
    { unified := true
      roots := fun _ => true
      cgroups := fun c name =>
        if c = .unified ∧ name = .ofBytes [97] then some ⟨[5], fun _ => none⟩ else none
      initial := fun _ => [109]
      folders := fun name => if name = .ofBytes [97] then some [] else none
      self := 9
      faults := fun _ => false }
  services := .ofList [⟨.ofBytes [114], .ofBytes [97], 5, true⟩]
  jobs := .blank 4 4
  envs := .blank 20 20
  limits := .blank 4 0
  reformatState := true
  reformatLimits := true

/-- What a rename of `a` to `b` leaves there. -/
def noLimitsRenamed : Process Kernel :=
  match (renameService (calls ((Calls.allWell 1).within Kernel)) (.ofBytes [97])
    (.ofBytes [98])).run noLimits with
  | .ok _ p => p
  | .error _ p => p

/-- Every call succeeds and only the limit cannot be renamed: the folder goes back to `a`,
the cgroup stays with `b`. -/
theorem not_renameService_restored :
    ¬∀ (base : Calls Kernel) (p : Process Kernel) (serviceName newName : CStr),
      Exec.wp (renameService (calls base) serviceName newName)
        (fun _ p' => p'.services.items = p.services.items →
          UndoSucceeds serviceName newName p.world → Restored serviceName p p')
        (fun _ _ => False) p := by
  intro h
  have hrun : (renameService (calls ((Calls.allWell 1).within Kernel)) (.ofBytes [97])
      (.ofBytes [98])).run noLimits = .ok () noLimitsRenamed := rfl
  have hrestored := Exec.wp_run_ok (h _ noLimits (.ofBytes [97]) (.ofBytes [98])) hrun rfl
    fun _ => rfl
  have hdir := hrestored.cgroups.isSome_eq .unified (.ofBytes [98])
  exact absurd hdir (by decide)

end MiniRunner
