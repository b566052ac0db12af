import MiniRunner.Clib.Renames
import MiniRunner.TimeShift

/-!
# Service folders across a time shift

`time-shift apply` puts an older services table back and renames the folders of the
services whose names have changed since. `renameMoved` does so in the order of the older
table, one rename at a time, and takes the names to rename from the table as it was loaded.
A folder that is in the way makes a rename fail, which is only printed.

`/var/lib` is a directory of repos here. `renameMoved_foldersBack_iff` says for which pairs
of tables every folder gets its old name back.
-/

namespace MiniRunner

open Clib Process

/-- `/var/lib`: the repo in the folder of a name. -/
abbrev VarLib := Directory CStr CStr

/-- `rename` of one folder to another; to itself it succeeds. -/
def VarLib.renameFolder (beforeName newName : CStr) (lib : VarLib) : Int × VarLib :=
  if lib.CanMove beforeName newName then (0, lib.rename beforeName newName)
  else if beforeName = newName ∧ (lib beforeName).isSome then (0, lib)
  else (-1, lib)

/-- Calls whose folder renames work on `/var/lib`. -/
def libCalls (sys : Calls Unit) : Calls VarLib :=
  { sys.within VarLib with renameFolder := VarLib.renameFolder }

def foldersOf (services : List Service) : VarLib := fun name =>
  (services.find? (·.name == name)).map (·.githubRepo)

/-- The service that has the repo of a restored one under another name. -/
def movedService (services : List Service) (clone : Service) : Option Service :=
  services.find? fun s => s.githubRepo == clone.githubRepo && s.name != clone.name

/-- The renames that are tried, in the order of the restored table. -/
def folderMoves (services clones : List Service) : List (CStr × CStr) :=
  clones.filterMap fun clone => (movedService services clone).map fun s => (s.name, clone.name)

/-- **Every repo of both tables** lies under the name it has in the restored one. -/
def FoldersBack (services clones : List Service) (lib : VarLib) : Prop :=
  ∀ clone ∈ clones, (∃ s ∈ services, s.githubRepo = clone.githubRepo) →
    lib clone.name = some clone.githubRepo

/-- **At its turn** each restored name that was given to another service since has been
given up: no service has it now, or the one that has it was renamed before. -/
def NamesFree (services clones : List Service) : Prop :=
  Directory.InTurn (fun name => name ∉ services.map (·.name)) (folderMoves services clones)

instance (services clones : List Service) : Decidable (NamesFree services clones) :=
  Directory.InTurn.decidable _ _

/-! ## The loop -/

theorem VarLib.renameFolder_snd (beforeName newName : CStr) (lib : VarLib) :
    (VarLib.renameFolder beforeName newName lib).2 = lib.rename beforeName newName := by
  unfold VarLib.renameFolder
  split
  · rfl
  · rename_i h
    rw [Directory.rename_of_not h]
    split <;> rfl

/-- **The loop tries its renames in turn** and changes nothing but the folders. -/
theorem wp_renameMoved_folders (sys : Calls Unit) (services clones : List Service)
    {Q : Unit → Process VarLib → Prop} {E : Halt → Process VarLib → Prop} :
    ∀ {p : Process VarLib}, Exec.wp (renameMoved (libCalls sys) services clones) Q E p ↔
      Q () { p with world := Directory.renames (folderMoves services clones) p.world } := by
  induction clones with
  | nil => exact fun {p} => Exec.wp_pure _
  | cons clone clones ih =>
    intro p
    rw [renameMoved]
    have hmoves : folderMoves services (clone :: clones) =
        ((movedService services clone).map fun s => (s.name, clone.name)).toList ++
          folderMoves services clones := by
      unfold folderMoves
      rw [List.filterMap_cons]
      cases movedService services clone <;> rfl
    rw [hmoves, movedService]
    cases services.find? (fun s => s.githubRepo == clone.githubRepo && s.name != clone.name) with
    | none => exact ih
    | some s =>
      simp only [Exec.wp_bind, wp_call, ih]
      have hfolders : ((libCalls sys).renameFolder s.name clone.name p.world).2 =
          p.world.rename s.name clone.name := VarLib.renameFolder_snd ..
      rw [hfolders]
      rfl

/-! ## The two tables -/

/-- No two services of a table share a name, and no two a repo. -/
structure NamesApart (l : List Service) : Prop where
  names : (l.map (·.name)).Nodup
  repos : (l.map (·.githubRepo)).Nodup

section tables

variable {services clones : List Service}

theorem NamesApart.eq_of_name (h : NamesApart services) {s t : Service} (hs : s ∈ services)
    (ht : t ∈ services) (heq : s.name = t.name) : s = t :=
  List.inj_on_of_nodup_map h.names hs ht heq

theorem NamesApart.eq_of_repo (h : NamesApart services) {s t : Service} (hs : s ∈ services)
    (ht : t ∈ services) (heq : s.githubRepo = t.githubRepo) : s = t :=
  List.inj_on_of_nodup_map h.repos hs ht heq

theorem foldersOf_name (h : NamesApart services) {s : Service} (hs : s ∈ services) :
    foldersOf services s.name = some s.githubRepo := by
  obtain ⟨t, hfind⟩ := Option.isSome_iff_exists.mp
    (List.find?_isSome (p := fun t : Service => t.name == s.name) |>.mpr ⟨s, hs, by simp⟩)
  have hname : t.name = s.name := by simpa using List.find?_some hfind
  rw [foldersOf, hfind, h.eq_of_name (List.mem_of_find?_eq_some hfind) hs hname]
  rfl

theorem exists_of_foldersOf {name repo : CStr} (h : foldersOf services name = some repo) :
    ∃ s ∈ services, s.name = name ∧ s.githubRepo = repo := by
  obtain ⟨s, hfind, hrepo⟩ := Option.map_eq_some_iff.mp h
  exact ⟨s, List.mem_of_find?_eq_some hfind, by simpa using List.find?_some hfind, hrepo⟩

theorem foldersOf_eq_none {name : CStr} :
    foldersOf services name = none ↔ name ∉ services.map (·.name) := by
  simp [foldersOf]

theorem foldersOf_injective (h : NamesApart services) : (foldersOf services).Injective := by
  intro x y repo hx hy
  obtain ⟨s, hs, rfl, hrepo⟩ := exists_of_foldersOf hx
  obtain ⟨t, ht, rfl, hrepo'⟩ := exists_of_foldersOf hy
  rw [h.eq_of_repo hs ht (hrepo.trans hrepo'.symm)]

theorem movedService_eq_some (h : NamesApart services) {clone s : Service} :
    movedService services clone = some s ↔
      s ∈ services ∧ s.githubRepo = clone.githubRepo ∧ s.name ≠ clone.name := by
  constructor
  · intro hfind
    have := List.find?_some hfind
    simp only [Bool.and_eq_true, beq_iff_eq, bne_iff_ne, ne_eq] at this
    exact ⟨List.mem_of_find?_eq_some hfind, this.1, this.2⟩
  · rintro ⟨hs, hrepo, hname⟩
    have hsome : (movedService services clone).isSome := by
      rw [movedService, List.find?_isSome]
      exact ⟨s, hs, by simp [hrepo, hname]⟩
    obtain ⟨t, hfind⟩ := Option.isSome_iff_exists.mp hsome
    have := List.find?_some hfind
    simp only [Bool.and_eq_true, beq_iff_eq] at this
    rw [hfind, h.eq_of_repo (List.mem_of_find?_eq_some hfind) hs (this.1.trans hrepo.symm)]

theorem mem_folderMoves (h : NamesApart services) {move : CStr × CStr} :
    move ∈ folderMoves services clones ↔ ∃ clone ∈ clones, ∃ s ∈ services,
      s.githubRepo = clone.githubRepo ∧ s.name ≠ clone.name ∧ (s.name, clone.name) = move := by
  simp only [folderMoves, List.mem_filterMap, Option.map_eq_some_iff, movedService_eq_some h,
    and_assoc]

theorem nodup_sources (h : NamesApart services) (h' : NamesApart clones) :
    ((folderMoves services clones).map Prod.fst).Nodup := by
  rw [List.Nodup, List.pairwise_map, folderMoves, List.pairwise_filterMap]
  refine (List.pairwise_map.mp h'.repos).imp ?_
  intro clone clone' hrepos move hmove move' hmove' heq
  obtain ⟨s, hs, rfl⟩ := Option.map_eq_some_iff.mp hmove
  obtain ⟨t, ht, rfl⟩ := Option.map_eq_some_iff.mp hmove'
  obtain ⟨hs, hrepo, -⟩ := (movedService_eq_some h).mp hs
  obtain ⟨ht, hrepo', -⟩ := (movedService_eq_some h).mp ht
  rw [h.eq_of_name hs ht heq] at hrepo
  exact hrepos (hrepo.symm.trans hrepo')

theorem nodup_targets (h' : NamesApart clones) :
    ((folderMoves services clones).map Prod.snd).Nodup := by
  rw [List.Nodup, List.pairwise_map, folderMoves, List.pairwise_filterMap]
  refine (List.pairwise_map.mp h'.names).imp ?_
  intro clone clone' hnames move hmove move' hmove' heq
  obtain ⟨s, -, rfl⟩ := Option.map_eq_some_iff.mp hmove
  obtain ⟨t, -, rfl⟩ := Option.map_eq_some_iff.mp hmove'
  exact hnames heq

/-- A folder that has its old name already is no end of a rename. -/
theorem renames_unmoved (h : NamesApart services) (h' : NamesApart clones) {clone s : Service}
    (hclone : clone ∈ clones) (hs : s ∈ services) (hrepo : s.githubRepo = clone.githubRepo)
    (hname : s.name = clone.name) :
    Directory.renames (folderMoves services clones) (foldersOf services) clone.name =
      some clone.githubRepo := by
  rw [Directory.renames_of_notMem, ← hname, foldersOf_name h hs, hrepo]
  · intro hmem
    obtain ⟨move, hmove, heq⟩ := List.mem_map.mp hmem
    obtain ⟨clone', hclone', t, ht, hrepo', hne, rfl⟩ := (mem_folderMoves h).mp hmove
    -- the source is the service itself, which has not been renamed
    have hts : t = s := h.eq_of_name ht hs (heq.trans hname.symm)
    rw [hts, hrepo] at hrepo'
    rw [hts, hname] at hne
    exact hne (congrArg Service.name (h'.eq_of_repo hclone hclone' hrepo'))
  · intro hmem
    obtain ⟨move, hmove, heq⟩ := List.mem_map.mp hmem
    obtain ⟨clone', hclone', t, ht, hrepo', hne, rfl⟩ := (mem_folderMoves h).mp hmove
    -- the target is the clone itself, whose repo has not been renamed
    have hcc : clone' = clone := h'.eq_of_name hclone' hclone heq
    rw [hcc, ← hrepo] at hrepo'
    rw [h.eq_of_repo ht hs hrepo', hcc] at hne
    exact hne hname

theorem foldersBack_renames_iff (h : NamesApart services) (h' : NamesApart clones) :
    FoldersBack services clones
        (Directory.renames (folderMoves services clones) (foldersOf services)) ↔
      ∀ move ∈ folderMoves services clones, Directory.renames (folderMoves services clones)
        (foldersOf services) move.2 = foldersOf services move.1 := by
  constructor
  · intro hback move hmove
    obtain ⟨clone, hclone, s, hs, hrepo, -, rfl⟩ := (mem_folderMoves h).mp hmove
    rw [hback clone hclone ⟨s, hs, hrepo⟩, foldersOf_name h hs, hrepo]
  · rintro hall clone hclone ⟨s, hs, hrepo⟩
    by_cases hname : s.name = clone.name
    · exact renames_unmoved h h' hclone hs hrepo hname
    · rw [hall (s.name, clone.name) ((mem_folderMoves h).mpr
        ⟨clone, hclone, s, hs, hrepo, hname, rfl⟩), foldersOf_name h hs, hrepo]

/-- **When every folder gets its old name back.** For every services table whose folders
match it and every restored table, and whatever becomes of the cgroups. -/
theorem renameMoved_foldersBack_iff (sys : Calls Unit) {p : Process VarLib}
    (h : NamesApart p.services.items) (h' : NamesApart clones)
    (hfolders : p.world = foldersOf p.services.items) :
    Exec.wp (renameMoved (libCalls sys) p.services.items clones)
      (fun _ p' => FoldersBack p.services.items clones p'.world ↔
        NamesFree p.services.items clones)
      (fun _ _ => False) p := by
  rw [wp_renameMoved_folders]
  show FoldersBack p.services.items clones (Directory.renames _ p.world) ↔ _
  rw [hfolders, foldersBack_renames_iff h h', Directory.renames_iff (foldersOf_injective h)
    (nodup_sources h h') (nodup_targets h') fun move hmove => ?_]
  · exact Directory.InTurn.congr fun _ _ => foldersOf_eq_none
  · obtain ⟨clone, hclone, s, hs, -, hne, rfl⟩ := (mem_folderMoves h).mp hmove
    exact ⟨hne, by rw [foldersOf_name h hs]; rfl⟩

end tables

/-- Two services that have swapped their names since the time shift. -/
def swapped : Process VarLib where
  files := fun _ => none
  world := foldersOf [⟨.ofBytes [114], .ofBytes [98], 0, true⟩,
    ⟨.ofBytes [115], .ofBytes [97], 0, true⟩]
  services := .ofList [⟨.ofBytes [114], .ofBytes [98], 0, true⟩,
    ⟨.ofBytes [115], .ofBytes [97], 0, true⟩]
  jobs := .blank 4 4
  envs := .blank 20 20
  limits := .blank 4 4
  reformatState := true
  reformatLimits := false

def beforeSwap : List Service :=
  [⟨.ofBytes [114], .ofBytes [97], 0, true⟩, ⟨.ofBytes [115], .ofBytes [98], 0, true⟩]

theorem renameMoved_foldersBack_swapped :
    Exec.wp (renameMoved (libCalls (.allWell 1)) swapped.services.items beforeSwap)
      (fun _ p' => FoldersBack swapped.services.items beforeSwap p'.world ↔
        NamesFree swapped.services.items beforeSwap)
      (fun _ _ => False) swapped :=
  renameMoved_foldersBack_iff (.allWell 1) ⟨by decide, by decide⟩ ⟨by decide, by decide⟩ rfl

/-- Each of the two renames finds the other folder in its way. -/
theorem not_renameMoved_foldersBack :
    ¬∀ (sys : Calls Unit) (p : Process VarLib) (clones : List Service),
      NamesApart p.services.items → NamesApart clones →
      p.world = foldersOf p.services.items →
        Exec.wp (renameMoved (libCalls sys) p.services.items clones)
          (fun _ p' => FoldersBack p.services.items clones p'.world) (fun _ _ => False) p := by
  intro h
  have hback := h (.allWell 1) swapped beforeSwap ⟨by decide, by decide⟩ ⟨by decide, by decide⟩
    rfl
  rw [wp_renameMoved_folders] at hback
  have hfolder := hback ⟨.ofBytes [114], .ofBytes [97], 0, true⟩ (by decide)
    ⟨⟨.ofBytes [114], .ofBytes [98], 0, true⟩, by decide, rfl⟩
  revert hfolder
  decide

end MiniRunner
