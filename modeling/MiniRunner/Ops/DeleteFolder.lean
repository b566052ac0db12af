import MiniRunner.Kernel.FileCalls
import MiniRunner.Clib.Fuel

/-!
# Deleting a folder

`deleteFolderRecursievly` of `utils.c`. The result of the recursion is ignored, and so is a
`getdents64` that fails with another number than -1; what is left then makes the removal of
the directory fail. A subdirectory that could not be opened is taken for open unless the number
is -1; no `getdents64` reads from it.
-/

namespace MiniRunner

open Clib Clib.Exec

namespace Deletion

section program

variable {W : Type} (o : Faults W)

/-- One round of the inner loop: -1 where the function returns. -/
def deleteEntry (recurse : Int → Exec (Files W) Int) (fd : Int) (dName : Bytes) :
    Exec (Files W) Int := do
  if dName = [dot] ∨ dName = [dot, dot] then return 0
  let (rc, isDir) ← syscallFstatat o fd dName true
  if rc = 0 then
    if isDir = true then
      let subFd ← syscallOpenat o fd dName true
      if subFd ≠ -1 then
        let _ ← recurse subFd
        let _ ← syscallClose o subFd
        if (← syscallUnlinkat o fd dName true) ≠ 0 then return -1
        return 0
      else return -1
    else
      if (← syscallUnlinkat o fd dName false) ≠ 0 then return -1
      return 0
  else return -1

def deleteEntries (recurse : Int → Exec (Files W) Int) (fd : Int) :
    List Bytes → Exec (Files W) Int
  | [] => pure 0
  | dName :: rest => do
    if (← deleteEntry o recurse fd dName) ≠ 0 then return -1
    deleteEntries recurse fd rest

/-- `deleteFolderFdRc`: so many rounds of the loop and levels of the recursion. -/
def deleteFolderFdRc : Nat → Int → Exec (Files W) Int
  | 0, _ => throw .blocked
  | fuel + 1, fd => do
    let (bytes, names) ← syscallGetdents64 o fd
    if bytes > 0 then
      if (← deleteEntries o (deleteFolderFdRc fuel) fd names) ≠ 0 then return -1
      deleteFolderFdRc fuel fd
    else if bytes = -1 then return -1
    else return 0

def deleteFolderRecursievly (fuel : Nat) (folderPath : CStr) : Exec (Files W) Int := do
  let fd ← openFolder o folderPath.bytes true
  if fd = -1 then return -1
  let result ← deleteFolderFdRc o fuel fd
  let _ ← syscallClose o fd
  if (← syscallRmdir o folderPath.bytes) ≠ 0 then return -1
  return result

end program

/-- The directory that the path of a folder leads to. A link at its end is not followed, unless
a slash is behind it. -/
def Files.folder {W : Type} (s : Files W) (folderPath : CStr) : Option (List Bytes) :=
  match s.find atFdcwd folderPath.bytes false with
  | none => none
  | some d => if s.tree.node d = some .dir then some d else none

/-- Nothing outside of the folder has changed, and with 0 nothing is left of it. -/
structure Deletes {W : Type} (s : Files W) (folderPath : CStr) (rc : Int) (s' : Files W) :
    Prop where
  outside : ∀ q, (∀ d, s.folder folderPath = some d → ¬d <:+ q) → s'.tree.node q = s.tree.node q
  gone : rc = 0 → ∃ d, s.folder folderPath = some d ∧ ∀ q, d <:+ q → s'.tree.node q = none

/-! ## What is left to do -/

/-- 1 as long as a name has not been returned. -/
def unread (name : Bytes) (returned : List Bytes) : Nat :=
  if returned.contains name then 0 else 1

/-- The rounds and levels that reading a directory can still take. -/
def work (t : FileTree Bytes) (d returned : List Bytes) : Nat :=
  unread [dot] returned + unread [dot, dot] returned + 3 * t.pending d returned

theorem unread_of_mem {name : Bytes} {returned : List Bytes} (h : name ∈ returned) :
    unread name returned = 0 := if_pos (List.contains_iff_mem.mpr h)

theorem unread_of_notMem {name : Bytes} {returned : List Bytes} (h : name ∉ returned) :
    unread name returned = 1 := if_neg fun hc => h (List.contains_iff_mem.mp hc)

theorem unread_le (name : Bytes) (returned : List Bytes) : unread name returned ≤ 1 := by
  unfold unread
  split
  · exact Nat.zero_le 1
  · exact Nat.le_refl 1

theorem unread_anti {name : Bytes} {returned returned' : List Bytes} (h : returned ⊆ returned') :
    unread name returned' ≤ unread name returned := by
  by_cases hin : name ∈ returned
  · rw [unread_of_mem (h hin)]
    exact Nat.zero_le _
  · rw [unread_of_notMem hin]
    exact unread_le name returned'

theorem unread_take {name : Bytes} {returned returned' : List Bytes} (h : name ∉ returned)
    (h' : name ∈ returned') : unread name returned' < unread name returned := by
  rw [unread_of_mem h', unread_of_notMem h]
  exact Nat.one_pos

section work

variable {t t' : FileTree Bytes} {d returned names : List Bytes} {x : Bytes}

theorem work_le_of_keys (h : t'.nodes.keys.Sublist t.nodes.keys) :
    work t' d returned ≤ work t d returned :=
  Nat.add_le_add_left (Nat.mul_le_mul_left 3 (pending_le_of_keys h d returned)) _

/-- **A batch** leaves less to do. -/
theorem work_batch (hne : names ≠ [])
    (hsub : ∀ x ∈ names, x ∉ returned ∧ (x = [dot] ∨ x = [dot, dot] ∨ x ∈ t.names d)) :
    work t d (returned ++ names) < work t d returned := by
  obtain ⟨x, hx⟩ := List.exists_mem_of_ne_nil names hne
  obtain ⟨hnew, hkind⟩ := hsub x hx
  have hold : returned ⊆ returned ++ names := List.subset_append_left _ _
  have hmem : x ∈ returned ++ names := List.mem_append_right _ hx
  have hdot : unread [dot] (returned ++ names) ≤ unread [dot] returned := unread_anti hold
  have hdotdot : unread [dot, dot] (returned ++ names) ≤ unread [dot, dot] returned :=
    unread_anti hold
  have hpending : t.pending d (returned ++ names) ≤ t.pending d returned := pending_anti hold
  unfold work
  rcases hkind with rfl | rfl | hname
  · have := unread_take hnew hmem
    omega
  · have := unread_take hnew hmem
    omega
  · have := pending_take hnew (FileTree.mem_names.mp hname) hold hmem
    omega

/-- **A child** that was not returned has less to do. -/
theorem work_child (hnew : x ∉ returned) (hnode : t.node (x :: d) ≠ none) :
    work t (x :: d) [] < work t d returned := by
  have hpending := pending_child (d := d) hnew hnode []
  have hdot : unread [dot] [] = 1 := rfl
  have hdotdot : unread [dot, dot] [] = 1 := rfl
  unfold work
  omega

theorem work_le_length : work t d returned ≤ 3 * t.nodes.keys.length + 2 := by
  have hpending : t.pending d returned ≤ t.nodes.keys.length := List.countP_le_length
  have hdot := unread_le [dot] returned
  have hdotdot := unread_le [dot, dot] returned
  unfold work
  omega

end work

/-! ## What a call leaves -/

/-- `s'` is `s` without some nodes below `d`; the descriptors in use, other than `own`, are
what they were. No descriptor is -1. -/
structure Tidied {W : Type} (d : List Bytes) (own : Int) (s s' : Files W) : Prop where
  tree : Prunes d s.tree s'.tree
  cwd : s'.cwd = s.cwd
  fds : ∀ i ≠ own, ∀ e, s.slot i = some e → s'.slot i = some e

section tidied

variable {W : Type} {o : Faults W} {s s' s'' : Files W} {d : List Bytes} {own fd : Int}

theorem Tidied.withWorld (d : List Bytes) (own : Int) (s : Files W) (w : W) :
    Tidied d own s (s.withWorld w) := ⟨Prunes.refl d s.tree, rfl, fun _ _ _ h => h⟩

theorem Tidied.refl (d : List Bytes) (own : Int) (s : Files W) : Tidied d own s s :=
  ⟨Prunes.refl d s.tree, rfl, fun _ _ _ h => h⟩

theorem Tidied.trans (h : Tidied d own s s') (h' : Tidied d own s' s'') : Tidied d own s s'' :=
  ⟨h.tree.trans h'.tree, h'.cwd.trans h.cwd, fun i hi e he => h'.fds i hi e (h.fds i hi e he)⟩

theorem ne_of_slot {e : Descriptor} (h : s.slot fd = some e) : fd ≠ -1 := by
  rintro rfl
  cases h

theorem Tidied.slot {e : Descriptor} (h : Tidied d (-1) s s') (hs : s.slot fd = some e) :
    s'.slot fd = some e := h.fds fd (ne_of_slot hs) e hs

theorem Tidied.of_none (h : Tidied d (-1) s s') : Tidied d own s s' :=
  ⟨h.tree, h.cwd, fun _ _ _ he => h.slot he⟩

theorem Removed.tidied {x : Bytes} {removedir : Bool} (h : Removed s (x :: d) removedir s') :
    Tidied d (-1) s s' :=
  ⟨h.tree ▸ Prunes.remove h.leaf, h.cwd, fun i _ _ he => (h.slot i).trans he⟩

theorem Tidied.of_child {x : Bytes} (h : Tidied (x :: d) own s s') : Tidied d own s s' :=
  ⟨h.tree.of_child, h.cwd, h.fds⟩

theorem Tidied.of_opened {s₁ s₂ : Files W} (hopen : Closed s own s₁) (hfree : s.slot own = none)
    (h : Tidied d own s₁ s₂) (hclose : Closed s₂ own s') : Tidied d (-1) s s' := by
  refine ⟨?_, hclose.cwd.trans (h.cwd.trans hopen.cwd), fun i _ e he => ?_⟩
  · rw [hclose.tree, ← hopen.tree]
    exact h.tree
  · have hne : i ≠ own := by
      rintro rfl
      rw [hfree] at he
      cases he
    rw [hclose.slot_of_ne i hne]
    exact h.fds i hne e ((hopen.slot_of_ne i hne).trans he)

end tidied

/-! ## The recursion -/

section recursion

variable {W : Type} {o : Faults W} {s s' : Files W}

/-- `f` only removes nodes below the directory it is given, when it has less than `bound` to do
there. A number that is no open directory can be given any. -/
def Tidies (f : Int → Exec (Files W) Int) (bound : Nat) : Prop :=
  ∀ fd d s, (∀ pos returned, s.slot fd = some (.dir pos returned) →
      pos = d ∧ work s.tree pos returned < bound) →
    wp (f fd) (fun _ s' => Tidied d fd s s') (fun _ _ => False) s

structure Deletable (t : FileTree Bytes) (d : List Bytes) (bound : Nat) (name : Bytes) : Prop where
  valid : ValidName name
  work_lt : work t (name :: d) [] < bound

variable {recurse : Int → Exec (Files W) Int} {bound : Nat} {fd : Int} {d returned : List Bytes}
  {name : Bytes}

theorem unlink_tidied {removedir : Bool} (hslot : s.slot fd = some (.dir d returned))
    (hvalid : ValidName name) :
    wp (syscallUnlinkat o fd name removedir >>= fun rc =>
        if rc ≠ 0 then pure (-1) else pure 0)
      (fun _ s' => Tidied d (-1) s s') (fun _ _ => False) s := by
  rw [wp_bind]
  refine wp_mono unlinkat_spec (fun rc s' hrc => ?_) fun _ _ he => he
  have htidied : Tidied d (-1) s s' := by
    rcases hrc with ⟨-, w, rfl⟩ | ⟨q, hfind, hr⟩
    · exact Tidied.withWorld d (-1) s w
    · obtain rfl := findEntry_name hslot hvalid hfind
      exact hr.tidied
  rw [wp_ite]
  exact ⟨fun _ => (wp_pure _).mpr htidied, fun _ => (wp_pure _).mpr htidied⟩

theorem openat_child (hslot : s.slot fd = some (.dir d returned)) (hvalid : ValidName name) :
    wp (syscallOpenat o fd name true)
      (fun sub s' => Closed s sub s' ∧ s.slot sub = none ∧
        ∀ pos returned', s'.slot sub = some (.dir pos returned') → pos = name :: d ∧ returned' = [])
      (fun _ _ => False) s := by
  refine wp_mono openat_spec (fun sub s' hsub => ?_) fun _ _ he => he
  rcases hsub with ⟨hneg, w, rfl⟩ | ⟨pos, hfind, hopen⟩
  · cases sub with
    | ofNat n => exact absurd hneg (Int.not_lt.mpr (Int.natCast_nonneg n))
    | negSucc n => exact ⟨⟨rfl, rfl, fun _ _ => rfl⟩, rfl, fun pos returned' h => by cases h⟩
  · obtain rfl := find_name hslot hvalid hfind
    refine ⟨⟨hopen.tree, hopen.cwd, hopen.slot_of_ne⟩, hopen.free, fun pos returned' h => ?_⟩
    obtain ⟨rfl, rfl⟩ := Descriptor.dir.inj (Option.some.inj (hopen.slot_self.symm.trans h))
    exact ⟨rfl, rfl⟩

/-- **A round of the inner loop** only removes nodes below the directory that is read. -/
theorem deleteEntry_tidied (hrec : Tidies recurse bound)
    (hslot : s.slot fd = some (.dir d returned))
    (hname : name ≠ [dot] → name ≠ [dot, dot] → Deletable s.tree d bound name) :
    wp (deleteEntry o recurse fd name) (fun _ s' => Tidied d (-1) s s') (fun _ _ => False) s := by
  unfold deleteEntry
  rw [wp_ite]
  refine ⟨fun _ => (wp_pure _).mpr (Tidied.refl d (-1) s), fun hskip => ?_⟩
  obtain ⟨hvalid, hwork⟩ := hname (fun h => hskip (.inl h)) fun h => hskip (.inr h)
  rw [wp_bind]
  refine wp_mono fstatat_spec ?_ fun _ _ he => he
  rintro ⟨rc, isDir⟩ s₁ ⟨w, rfl⟩
  have hworld : Tidied d (-1) s (s.withWorld w) := Tidied.withWorld d (-1) s w
  refine wp_mono ?_ (fun _ s' h => hworld.trans h) fun _ _ he => he
  have hslot₁ : (s.withWorld w).slot fd = some (.dir d returned) := hslot
  dsimp only
  rw [wp_ite]
  refine ⟨fun _ => ?_, fun _ => (wp_pure _).mpr (Tidied.refl d (-1) _)⟩
  rw [wp_ite]
  refine ⟨fun _ => ?_, fun _ => unlink_tidied hslot₁ hvalid⟩
  rw [wp_bind]
  refine wp_mono (openat_child hslot₁ hvalid) (fun sub s₂ hsub => ?_) fun _ _ he => he
  obtain ⟨hopen, hfree, hdir⟩ := hsub
  rw [wp_ite]
  refine ⟨fun _ => ?_, fun _ => (wp_pure _).mpr ?_⟩
  · rw [wp_bind]
    refine wp_mono (hrec sub (name :: d) s₂ fun pos returned' h => ?_) (fun _ s₃ htidied => ?_)
      fun _ _ he => he
    · obtain ⟨rfl, rfl⟩ := hdir pos returned' h
      refine ⟨rfl, ?_⟩
      rw [hopen.tree]
      exact hwork
    · rw [wp_bind]
      refine wp_mono close_spec (fun _ s₄ hclose => ?_) fun _ _ he => he
      have hround : Tidied d (-1) (s.withWorld w) s₄ :=
        Tidied.of_opened hopen hfree htidied.of_child hclose
      refine wp_mono (unlink_tidied (hround.slot hslot₁) hvalid) (fun _ s₅ hlast => ?_)
        fun _ _ he => he
      exact hround.trans hlast
  · exact Tidied.of_opened hopen hfree (Tidied.refl d sub s₂) ⟨rfl, rfl, fun _ _ => rfl⟩

theorem Deletable.of_prunes {t t' : FileTree Bytes} (h : Deletable t d bound name)
    (hp : Prunes d t t') : Deletable t' d bound name :=
  ⟨h.valid, Nat.lt_of_le_of_lt (work_le_of_keys hp.keys) h.work_lt⟩

theorem deleteEntries_tidied (hrec : Tidies recurse bound) {names : List Bytes} :
    ∀ {s : Files W}, s.slot fd = some (.dir d returned) →
      (∀ name ∈ names, name ≠ [dot] → name ≠ [dot, dot] → Deletable s.tree d bound name) →
      wp (deleteEntries o recurse fd names) (fun _ s' => Tidied d (-1) s s') (fun _ _ => False)
        s := by
  induction names with
  | nil => exact fun _ _ => (wp_pure _).mpr (Tidied.refl d (-1) _)
  | cons name names ih =>
    intro s hslot hnames
    unfold deleteEntries
    rw [wp_bind]
    refine wp_mono (deleteEntry_tidied hrec hslot (hnames name List.mem_cons_self)) ?_
      fun _ _ he => he
    intro rc s₁ hfirst
    rw [wp_ite]
    refine ⟨fun _ => (wp_pure _).mpr hfirst, fun _ => ?_⟩
    refine wp_mono (ih (hfirst.slot hslot) fun name' hmem h h' => ?_)
      (fun _ s₂ hrest => hfirst.trans hrest) fun _ _ he => he
    exact (hnames name' (List.mem_cons_of_mem _ hmem) h h').of_prunes hfirst.tree

theorem mem_unreturned {pos : List Bytes} (h : name ∈ s.unreturned pos returned) :
    name ∉ returned ∧ (name = [dot] ∨ name = [dot, dot] ∨ name ∈ s.tree.names pos) := by
  obtain ⟨hmem, hnew⟩ := List.mem_filter.mp h
  refine ⟨of_decide_eq_true hnew, ?_⟩
  rcases List.mem_cons.mp hmem with hdot | hmem
  · exact .inl hdot
  · exact .inr (List.mem_cons.mp hmem)

theorem deletable_of_unreturned {pos : List Bytes} (h : name ∈ s.unreturned pos returned)
    (hdot : name ≠ [dot]) (hdotdot : name ≠ [dot, dot])
    (hwork : work s.tree pos returned ≤ bound) : Deletable s.tree pos bound name := by
  obtain ⟨hnew, hkind⟩ := mem_unreturned h
  have hmem := (hkind.resolve_left hdot).resolve_left hdotdot
  have hnode := FileTree.mem_names.mp hmem
  exact ⟨s.named hnode, Nat.lt_of_lt_of_le (work_child hnew hnode) hwork⟩

theorem Batch.tidied {pos names : List Bytes} (h : Batch s fd pos returned names s') :
    Tidied pos fd s s' :=
  ⟨h.tree ▸ Prunes.refl pos s.tree, h.cwd, fun i hi _ he => (h.slot_of_ne i hi).trans he⟩

theorem Batch.work_lt {pos names : List Bytes} (h : Batch s fd pos returned names s') :
    work s.tree pos (returned ++ names) < work s.tree pos returned :=
  work_batch h.nonempty fun _ hx => mem_unreturned (h.subset hx)

/-- **A round of the outer loop** with a batch, and what comes after it: the recursion has
enough fuel for each name of the batch, and for the rounds that are left. -/
theorem round_tidied {pos names : List Bytes} (hrec : Tidies recurse bound)
    (hbatch : Batch s fd pos returned names s') (hwork : work s.tree pos returned ≤ bound) :
    wp (deleteEntries o recurse fd names >>= fun rc => if rc ≠ 0 then pure (-1) else recurse fd)
      (fun _ s'' => Tidied pos fd s s'') (fun _ _ => False) s' := by
  rw [wp_bind]
  refine wp_mono (deleteEntries_tidied hrec hbatch.slot_self fun name hmem h h' => ?_) ?_
    fun _ _ he => he
  · rw [hbatch.tree]
    exact deletable_of_unreturned (hbatch.subset hmem) h h' hwork
  · intro rc s₂ hentries
    have hround : Tidied pos fd s s₂ := hbatch.tidied.trans hentries.of_none
    rw [wp_ite]
    refine ⟨fun _ => (wp_pure _).mpr hround, fun _ => ?_⟩
    refine wp_mono (hrec fd pos s₂ fun pos' returned' h => ?_)
      (fun _ s₃ hrest => hround.trans hrest) fun _ _ he => he
    have hsame := (hentries.slot hbatch.slot_self).symm.trans h
    obtain ⟨rfl, rfl⟩ := Descriptor.dir.inj (Option.some.inj hsame)
    have hkeys : s₂.tree.nodes.keys.Sublist s.tree.nodes.keys := hround.tree.keys
    exact ⟨rfl, Nat.lt_of_le_of_lt (work_le_of_keys hkeys)
      (Nat.lt_of_lt_of_le hbatch.work_lt hwork)⟩

/-- **`deleteFolderFdRc` only removes nodes below its directory**, and has enough fuel when it
has more than there is to do. The induction is on the fuel: a batch leaves less to do, and each
child of it has less to do. -/
theorem deleteFolderFdRc_tidies (fuel : Nat) (hfuel : 0 < fuel) :
    Tidies (deleteFolderFdRc o fuel) fuel := by
  induction fuel with
  | zero => exact absurd hfuel (Nat.lt_irrefl 0)
  | succ fuel ih =>
    intro fd d s hs
    unfold deleteFolderFdRc
    rw [wp_bind]
    refine wp_mono getdents64_spec ?_ fun _ _ he => he
    rintro ⟨bytes, names⟩ s₁ (⟨hle, w, rfl⟩ | ⟨pos, returned, hslot, hbatch⟩)
    · have hdone : Tidied d fd s (s.withWorld w) := Tidied.withWorld d fd s w
      have hnot : ¬bytes > 0 := Int.not_lt.mpr hle
      dsimp only
      rw [if_neg hnot, wp_ite]
      exact ⟨fun _ => (wp_pure _).mpr hdone, fun _ => (wp_pure _).mpr hdone⟩
    · obtain ⟨rfl, hlt⟩ := hs pos returned hslot
      have hwork : work s.tree pos returned ≤ fuel := Nat.le_of_lt_succ hlt
      have hrec : Tidies (deleteFolderFdRc o fuel) fuel :=
        ih (Nat.lt_of_le_of_lt (Nat.zero_le _) (Nat.lt_of_lt_of_le hbatch.work_lt hwork))
      dsimp only
      rw [wp_ite, wp_ite]
      refine ⟨fun _ => round_tidied hrec hbatch hwork, fun _ => ?_⟩
      exact ⟨fun _ => (wp_pure _).mpr hbatch.tidied, fun _ => (wp_pure _).mpr hbatch.tidied⟩

end recursion

/-! ## The folder -/

section folder

variable {W : Type} {o : Faults W} {s s' : Files W} {folderPath : CStr} {d : List Bytes}

theorem folder_of_find (hfind : s.find atFdcwd folderPath.bytes false = some d)
    (hdir : s.tree.node d = some .dir) : s.folder folderPath = some d := by
  rw [Files.folder, hfind]
  exact if_pos hdir

theorem Prunes.outside (h : Prunes d s.tree s'.tree) (hfolder : s.folder folderPath = some d)
    (q : List Bytes) (hq : ∀ d, s.folder folderPath = some d → ¬d <:+ q) :
    s'.tree.node q = s.tree.node q :=
  h.node_of_not_below fun hb => hq d hfolder hb.suffix

/-- **The last `rmdir`** removes the directory that was opened: the path still leads there, or
nowhere. -/
theorem rmdir_folder {q : List Bytes} (h : Tidied d (-1) s s')
    (hfind : s.find atFdcwd folderPath.bytes false = some d)
    (hentry : s'.findEntry atFdcwd folderPath.bytes = some q)
    (hdir : s'.tree.node q = some .dir) : q = d := by
  have hstart : s'.startOf atFdcwd (pathOf folderPath.bytes) =
      s.startOf atFdcwd (pathOf folderPath.bytes) := by
    simp only [Files.startOf, Files.base, if_true, h.cwd]
  unfold Files.find at hfind
  unfold Files.findEntry at hentry
  rw [hstart] at hentry
  split at hfind
  · cases hfind
  · rename_i start hs
    rw [hs] at hentry
    exact FileTree.find_of_findEntry (fun p v hp => h.tree.node_of_some hp) hfind hentry hdir

/-- What is left when the folder has been read and the last `rmdir` is made. -/
theorem rmdir_deletes (h : Tidied d (-1) s s')
    (hfind : s.find atFdcwd folderPath.bytes false = some d)
    (hdir : s.tree.node d = some .dir) (result : Int) :
    wp (syscallRmdir o folderPath.bytes >>= fun rc => if rc ≠ 0 then pure (-1) else pure result)
      (fun rc s'' => Deletes s folderPath rc s'') (fun _ _ => False) s' := by
  have hfolder : s.folder folderPath = some d := folder_of_find hfind hdir
  rw [wp_bind]
  refine wp_mono rmdir_spec ?_ fun _ _ he => he
  rintro rc s₁ (⟨hrc, w, rfl⟩ | ⟨q, hentry, hr⟩)
  · rw [if_pos hrc]
    exact (wp_pure _).mpr ⟨fun q hq => Prunes.outside h.tree hfolder q hq,
      fun h => absurd h (by decide)⟩
  · obtain rfl := rmdir_folder h hfind hentry (hr.dir rfl)
    have hgone : s₁.tree.node q = none := by
      rw [hr.tree]
      exact FileTree.remove_self hr.leaf hr.ne_root
    have houtside (p) (hp : ∀ d, s.folder folderPath = some d → ¬d <:+ p) :
        s₁.tree.node p = s.tree.node p := by
      have hne : p ≠ q := by
        rintro rfl
        exact hp p hfolder (List.suffix_refl p)
      rw [hr.tree, FileTree.remove_of_ne hr.leaf hne]
      exact Prunes.outside h.tree hfolder p hp
    rw [wp_ite]
    refine ⟨fun _ => (wp_pure _).mpr ⟨houtside, fun h => absurd h (by decide)⟩,
      fun _ => (wp_pure _).mpr ⟨houtside, fun _ => ⟨q, hfolder, fun p hp => ?_⟩⟩⟩
    exact FileTree.node_of_suffix hgone hp

/-- With enough fuel for a round or a level for each name of the tree. -/
theorem deleteFolderRecursievly_deletes {fuel : Nat}
    (hfuel : 3 * s.tree.nodes.keys.length + 3 ≤ fuel) :
    wp (deleteFolderRecursievly o fuel folderPath) (fun rc s' => Deletes s folderPath rc s')
      (fun _ _ => False) s := by
  unfold deleteFolderRecursievly
  rw [wp_bind]
  refine wp_mono openFolder_spec ?_ fun _ _ he => he
  rintro fd s₁ (⟨rfl, w, rfl⟩ | ⟨d, hfind, hopen⟩)
  · rw [if_pos rfl]
    exact (wp_pure _).mpr ⟨fun _ _ => rfl, fun h => absurd h (by decide)⟩
  · rw [wp_ite]
    refine ⟨fun hfd => absurd hfd (ne_of_slot hopen.slot_self), fun _ => ?_⟩
    have hrec : wp (deleteFolderFdRc o fuel fd) (fun _ s' => Tidied d fd s₁ s')
        (fun _ _ => False) s₁ := by
      refine deleteFolderFdRc_tidies fuel (Nat.lt_of_lt_of_le (Nat.succ_pos _) hfuel) fd d s₁ ?_
      intro pos returned h
      obtain ⟨rfl, rfl⟩ := Descriptor.dir.inj (Option.some.inj (hopen.slot_self.symm.trans h))
      have hwork : work s₁.tree d [] ≤ 3 * s₁.tree.nodes.keys.length + 2 := work_le_length
      rw [hopen.tree] at hwork ⊢
      exact ⟨rfl, by omega⟩
    rw [wp_bind]
    refine wp_mono hrec (fun result s₂ htidied => ?_) fun _ _ he => he
    rw [wp_bind]
    refine wp_mono close_spec (fun _ s₃ hclose => ?_) fun _ _ he => he
    have hround : Tidied d (-1) s s₃ :=
      Tidied.of_opened ⟨hopen.tree, hopen.cwd, hopen.slot_of_ne⟩ hopen.free htidied hclose
    exact rmdir_deletes hround hfind hopen.dir result

end folder

/-! ## The fuel -/

section fuel

variable {W : Type} {o : Faults W}

theorem deleteEntry_upto {recurse recurse' : Int → Exec (Files W) Int}
    (h : ∀ fd, Upto (recurse fd) (recurse' fd)) (fd : Int) (name : Bytes) :
    Upto (deleteEntry o recurse fd name) (deleteEntry o recurse' fd name) := by
  unfold deleteEntry
  refine Upto.ite (Upto.refl _) (Upto.bind (Upto.refl _) fun r => ?_)
  obtain ⟨rc, isDir⟩ := r
  refine Upto.ite (Upto.ite (Upto.bind (Upto.refl _) fun sub => ?_) (Upto.refl _)) (Upto.refl _)
  exact Upto.ite (Upto.bind (h sub) fun _ => Upto.refl _) (Upto.refl _)

theorem deleteEntries_upto {recurse recurse' : Int → Exec (Files W) Int}
    (h : ∀ fd, Upto (recurse fd) (recurse' fd)) (fd : Int) (names : List Bytes) :
    Upto (deleteEntries o recurse fd names) (deleteEntries o recurse' fd names) := by
  induction names with
  | nil => exact Upto.refl _
  | cons name names ih =>
    exact Upto.bind (deleteEntry_upto h fd name) fun rc => Upto.ite (Upto.refl _) ih

theorem deleteFolderFdRc_upto (fuel : Nat) : ∀ fd,
    Upto (deleteFolderFdRc o fuel fd) (deleteFolderFdRc o (fuel + 1) fd) := by
  induction fuel with
  | zero => exact fun fd => Upto.blocked _
  | succ fuel ih =>
    intro fd
    rw [deleteFolderFdRc, deleteFolderFdRc]
    refine Upto.bind (Upto.refl _) fun r => ?_
    obtain ⟨bytes, names⟩ := r
    refine Upto.ite (Upto.bind (deleteEntries_upto ih fd names) fun rc => ?_) (Upto.refl _)
    exact Upto.ite (Upto.refl _) (ih fd)

theorem deleteFolderRecursievly_upto (folderPath : CStr) (fuel : Nat) :
    Upto (deleteFolderRecursievly o fuel folderPath)
      (deleteFolderRecursievly o (fuel + 1) folderPath) :=
  Upto.bind (Upto.refl _) fun fd => Upto.ite (Upto.refl _)
    (Upto.bind (deleteFolderFdRc_upto fuel fd) fun _ => Upto.refl _)

end fuel

/-- **Deleting a folder** ends with the same result for any fuel that is enough. Where it
returns 0, the folder is gone with all that was below it, and in every case nothing outside of
it has changed. -/
theorem deleteFolderRecursievly_removes {W : Type} (o : Faults W) (folderPath : CStr)
    (s : Files W) : ∃ n rc s',
      (∀ fuel, n ≤ fuel → (deleteFolderRecursievly o fuel folderPath).run s = .ok rc s') ∧
        Deletes s folderPath rc s' := by
  have hdeletes : wp (deleteFolderRecursievly o (3 * s.tree.nodes.keys.length + 3) folderPath) _ _
      s := deleteFolderRecursievly_deletes (Nat.le_refl _)
  cases hrun : (deleteFolderRecursievly o (3 * s.tree.nodes.keys.length + 3) folderPath).run s with
  | error e s' => exact (wp_run_error hdeletes hrun).elim
  | ok rc s' =>
    exact ⟨_, rc, s', fun fuel hle => run_of_le (deleteFolderRecursievly_upto folderPath) hle hrun,
      wp_run_ok hdeletes hrun⟩

end Deletion

end MiniRunner
