import MiniRunner.Clib.FileTree
import MiniRunner.Clib.Exec

/-!
# Calls on the file tree

The calls that the deletion of a folder makes: `open` of the C library, and the raw calls of
`syscalls`. A call is refused where the tree does not allow it, and may fail for any other
reason (`Faults.fault`); either way it changes nothing. A raw call that fails returns its error
number negated, the `open` of the C library returns -1.

An open directory knows which names it has handed out. `getdents64` hands out some of the
others that are still there, at least one if there is one (`Faults.batch`).
-/

namespace MiniRunner

open Clib Clib.Exec

namespace Deletion

structure ValidName (name : Bytes) : Prop where
  noSlash : slash ∉ name
  nonempty : name ≠ []
  ne_dot : name ≠ [dot]
  ne_dotdot : name ≠ [dot, dot]

def pathOf (path : Bytes) : FilePath Bytes where
  absolute := path.head? == some slash
  steps := ((path.splitOn slash).filter fun component => decide (component ≠ [])).map stepOf
  slashed := path.getLast? == some slash

theorem pathOf_name {name : Bytes} (h : ValidName name) :
    (pathOf name).steps = [.down name] ∧ (pathOf name).absolute = false ∧
      (pathOf name).slashed = false := by
  have hcomponent : ([name] : List Bytes).filter (fun component => decide (component ≠ [])) =
      [name] := List.filter_cons_of_pos (decide_eq_true h.nonempty)
  have hstep : stepOf name = .down name := stepOf_name h.nonempty h.ne_dot h.ne_dotdot
  refine ⟨?_, ?_, ?_⟩
  · change ((name.splitOn slash).filter _).map stepOf = _
    rw [List.splitOn_eq_singleton h.noSlash, hcomponent, List.map_singleton, hstep]
  · refine beq_eq_false_iff_ne.mpr fun hhead => h.noSlash ?_
    exact List.mem_of_mem_head? hhead
  · refine beq_eq_false_iff_ne.mpr fun hlast => h.noSlash ?_
    exact List.mem_of_mem_getLast? hlast

structure Errno where
  number : Nat
  positive : 0 < number

/-- What the system decides: which calls fail, the number of a call that the tree refuses, and
the batches of `getdents64`. -/
structure Faults (W : Type) where
  fault : W → Option Errno × W
  errno : W → Errno
  batch : List Bytes → W → List Bytes × W
  batch_ne : ∀ {rest : List Bytes} {w : W}, rest ≠ [] → (batch rest w).1 ≠ []
  batch_subset : ∀ {rest : List Bytes} {w : W}, (batch rest w).1 ⊆ rest
  batch_nodup : ∀ {rest : List Bytes} {w : W}, rest.Nodup → (batch rest w).1.Nodup

/-- An open file: a directory with its position and the names it has returned, or another. -/
inductive Descriptor where
  | other
  | dir (pos : List Bytes) (returned : List Bytes)

/-- The file system and the descriptors of the process, by number. -/
structure Files (W : Type) where
  tree : FileTree Bytes
  named : ∀ {x p}, tree.node (x :: p) ≠ none → ValidName x
  fds : List (Option Descriptor)
  cwd : List Bytes
  world : W

def atFdcwd : Int := -100

namespace Files

variable {W : Type} (s : Files W)

def withWorld (w : W) : Files W := { s with world := w }

def remove (q : List Bytes) (h : s.tree.Leaf q) : Files W :=
  { s with
    tree := s.tree.remove q h
    named := by
      intro x p hnode
      have hne : x :: p ≠ q := by
        rintro rfl
        exact hnode (FileTree.remove_self h (List.cons_ne_nil x p))
      rw [FileTree.remove_of_ne h hne] at hnode
      exact s.named hnode }

def slot (fd : Int) : Option Descriptor :=
  match fd with
  | .ofNat n => s.fds.getD n none
  | .negSucc _ => none

/-- The directory that the relative paths of a call start from. -/
def base (fd : Int) : Option (List Bytes) :=
  if fd = atFdcwd then some s.cwd
  else
    match s.slot fd with
    | some (.dir pos _) => some pos
    | _ => none

def startOf (fd : Int) (path : FilePath Bytes) : Option (List Bytes) :=
  if path.absolute then some [] else s.base fd

def find (fd : Int) (path : Bytes) (follow : Bool) : Option (List Bytes) :=
  match s.startOf fd (pathOf path) with
  | none => none
  | some start => s.tree.find follow (pathOf path) start

def findEntry (fd : Int) (path : Bytes) : Option (List Bytes) :=
  match s.startOf fd (pathOf path) with
  | none => none
  | some start => s.tree.findEntry (pathOf path) start

/-- The names that an open directory has not returned. -/
def unreturned (pos returned : List Bytes) : List Bytes :=
  ([dot] :: [dot, dot] :: s.tree.names pos).filter fun name => decide (name ∉ returned)

end Files

/-- The lowest number that is free, and the table with it in use. -/
def install (e : Descriptor) : List (Option Descriptor) → Nat × List (Option Descriptor)
  | [] => (0, [some e])
  | none :: fds => (0, some e :: fds)
  | some e' :: fds => ((install e fds).1 + 1, some e' :: (install e fds).2)

/-- `d_reclen` of an entry. -/
def reclen (name : Bytes) : Nat := (19 + name.length + 1 + 7) / 8 * 8

def bytesOf (names : List Bytes) : Nat := names.foldr (fun name n => reclen name + n) 0

section calls

variable {W : Type} (o : Faults W)

/-- A call that may fail, and that the tree may refuse. -/
def attempt {α : Type} (failed : Int → α) (act : Files W → Option (α × Files W)) :
    Exec (Files W) α := fun s =>
  match o.fault s.world with
  | (some e, w) => .ok (failed (-e.number)) (s.withWorld w)
  | (none, w) =>
    match act (s.withWorld w) with
    | some (r, s') => .ok r s'
    | none => .ok (failed (-(o.errno w).number)) (s.withWorld w)

def openDirectory (fd : Int) (path : Bytes) (nofollow : Bool) (s : Files W) :
    Option (Int × Files W) :=
  match s.find fd path !nofollow with
  | none => none
  | some pos =>
    if s.tree.node pos = some .dir then
      some ((install (.dir pos []) s.fds).1,
        { s with fds := (install (.dir pos []) s.fds).2 })
    else none

/-- Remove an entry: a directory that is empty, or what is no directory. -/
def removeEntry (fd : Int) (path : Bytes) (removedir : Bool) (s : Files W) :
    Option (Int × Files W) :=
  match s.findEntry fd path with
  | none => none
  | some q =>
    if q ≠ [] ∧ s.tree.node q ≠ none ∧
        (removedir = true ↔ s.tree.node q = some .dir) ∧
        (removedir = true ∨ (pathOf path).slashed = false) then
      if h : s.tree.Leaf q then some (0, s.remove q h) else none
    else none

/-- `open(path, O_DIRECTORY | O_RDONLY)`, with `O_NOFOLLOW` for `nofollow`. -/
def openFolder (path : Bytes) (nofollow : Bool) : Exec (Files W) Int :=
  attempt o (fun _ => -1) (openDirectory atFdcwd path nofollow)

/-- `syscall_openat(fd, path, O_DIRECTORY | O_RDONLY, 0)`, with `O_NOFOLLOW` for `nofollow`. -/
def syscallOpenat (fd : Int) (path : Bytes) (nofollow : Bool) : Exec (Files W) Int :=
  attempt o id (openDirectory fd path nofollow)

/-- `syscall_fstatat`, with `AT_SYMLINK_NOFOLLOW` for `nofollow`; the result has `S_ISDIR` with
it. -/
def syscallFstatat (fd : Int) (path : Bytes) (nofollow : Bool) : Exec (Files W) (Int × Bool) :=
  attempt o (fun rc => (rc, false)) fun s =>
    match s.find fd path !nofollow with
    | none => none
    | some q =>
      match s.tree.node q with
      | none => none
      | some v => some ((0, decide (v = .dir)), s)

/-- `syscall_getdents64`: the bytes it read, and the names in the buffer. -/
def syscallGetdents64 (fd : Int) : Exec (Files W) (Int × List Bytes) :=
  attempt o (fun rc => (rc, [])) fun s =>
    match s.slot fd with
    | some (.dir pos returned) =>
      if s.tree.node pos = some .dir then
        if s.unreturned pos returned = [] then some ((0, []), s)
        else
          let (names, w) := o.batch (s.unreturned pos returned) s.world
          some ((bytesOf names, names),
            { s with
              fds := s.fds.set fd.toNat (some (.dir pos (returned ++ names)))
              world := w })
      else none
    | _ => none

def syscallClose (fd : Int) : Exec (Files W) Int :=
  attempt o id fun s =>
    match s.slot fd with
    | none => none
    | some _ => some (0, { s with fds := s.fds.set fd.toNat none })

/-- `syscall_unlinkat`, with `AT_REMOVEDIR` for `removedir`. -/
def syscallUnlinkat (fd : Int) (path : Bytes) (removedir : Bool) : Exec (Files W) Int :=
  attempt o id (removeEntry fd path removedir)

def syscallRmdir (path : Bytes) : Exec (Files W) Int :=
  attempt o id (removeEntry atFdcwd path true)

end calls

/-! ## What the calls do -/

section install

variable {e : Descriptor} {fds : List (Option Descriptor)}

theorem install_free : fds.getD (install e fds).1 none = none := by
  induction fds with
  | nil => rfl
  | cons d fds ih =>
    cases d with
    | none => rfl
    | some e' => exact ih

theorem install_self : (install e fds).2.getD (install e fds).1 none = some e := by
  induction fds with
  | nil => rfl
  | cons d fds ih =>
    cases d with
    | none => rfl
    | some e' => exact ih

theorem install_of_ne : ∀ {i : Nat}, i ≠ (install e fds).1 →
    (install e fds).2.getD i none = fds.getD i none := by
  induction fds with
  | nil =>
    intro i h
    cases i with
    | zero => exact absurd rfl h
    | succ i => rfl
  | cons d fds ih =>
    intro i h
    cases d with
    | none =>
      cases i with
      | zero => exact absurd rfl h
      | succ i => rfl
    | some e' =>
      cases i with
      | zero => rfl
      | succ i => exact ih fun heq => h (congrArg Nat.succ heq)

theorem getD_set_of_ne {i n : Nat} (h : i ≠ n) (d : Option Descriptor) :
    (fds.set n d).getD i none = fds.getD i none := by
  rw [List.getD_eq_getElem?_getD, List.getElem?_set_ne h.symm, ← List.getD_eq_getElem?_getD]

theorem getD_set_self {n : Nat} (h : fds.getD n none = some e) (d : Option Descriptor) :
    (fds.set n d).getD n none = d := by
  have hlt : n < fds.length := by
    refine Classical.byContradiction fun hge => ?_
    rw [List.getD_eq_getElem?_getD, List.getElem?_eq_none (Nat.le_of_not_lt hge)] at h
    cases h
  rw [List.getD_eq_getElem?_getD, List.getElem?_set_self hlt, Option.getD_some]

end install

section specs

variable {W : Type} {o : Faults W} {s s' : Files W} {E : Halt → Files W → Prop}

theorem slot_nat {fd : Int} {e : Descriptor} (h : s.slot fd = some e) :
    ∃ n : Nat, fd = n ∧ s.fds.getD n none = some e := by
  cases fd with
  | ofNat n => exact ⟨n, rfl, h⟩
  | negSucc n => cases h

theorem slot_set_of_ne {n : Nat} {i : Int} (h : i ≠ n) {d : Option Descriptor}
    (hfds : s'.fds = s.fds.set n d) : s'.slot i = s.slot i := by
  cases i with
  | ofNat k =>
    change s'.fds.getD k none = s.fds.getD k none
    rw [hfds]
    exact getD_set_of_ne (fun heq => h (congrArg Int.ofNat heq)) d
  | negSucc k => rfl

theorem startOf_name {fd : Int} {pos returned : List Bytes} {name : Bytes}
    (hslot : s.slot fd = some (.dir pos returned)) (hname : ValidName name) :
    s.startOf fd (pathOf name) = some pos := by
  have hne : fd ≠ atFdcwd := by
    rintro rfl
    cases hslot
  rw [Files.startOf, (pathOf_name hname).2.1, Files.base, if_neg hne, hslot]
  rfl

theorem find_name {fd : Int} {pos returned q : List Bytes} {name : Bytes}
    (hslot : s.slot fd = some (.dir pos returned)) (hname : ValidName name)
    (h : s.find fd name false = some q) : q = name :: pos := by
  obtain ⟨hsteps, -, hslashed⟩ := pathOf_name hname
  rw [Files.find, startOf_name hslot hname] at h
  exact FileTree.find_name hsteps hslashed h

theorem findEntry_name {fd : Int} {pos returned q : List Bytes} {name : Bytes}
    (hslot : s.slot fd = some (.dir pos returned)) (hname : ValidName name)
    (h : s.findEntry fd name = some q) : q = name :: pos := by
  obtain ⟨hsteps, -, -⟩ := pathOf_name hname
  rw [Files.findEntry, startOf_name hslot hname] at h
  exact FileTree.findEntry_name hsteps h

theorem wp_attempt {α : Type} {failed : Int → α} {act : Files W → Option (α × Files W)}
    {Q : α → Files W → Prop} (hfail : ∀ (e : Errno) (w : W), Q (failed (-e.number)) (s.withWorld w))
    (hact : ∀ w r s', act (s.withWorld w) = some (r, s') → Q r s') :
    wp (attempt o failed act) Q E s := by
  simp only [wp, EStateM.run, attempt]
  rcases o.fault s.world with ⟨_ | e, w⟩
  · dsimp only
    cases hout : act (s.withWorld w) with
    | none => exact hfail (o.errno w) w
    | some out => exact hact w out.1 out.2 hout
  · exact hfail e w

theorem neg_errno (e : Errno) : (-e.number : Int) < 0 := by
  have := e.positive
  omega

/-- `s'` has the directory `pos` open under the new number `fd`. -/
structure Opened (s : Files W) (pos : List Bytes) (fd : Int) (s' : Files W) : Prop where
  tree : s'.tree = s.tree
  cwd : s'.cwd = s.cwd
  dir : s.tree.node pos = some .dir
  free : s.slot fd = none
  slot_self : s'.slot fd = some (.dir pos [])
  slot_of_ne : ∀ i ≠ fd, s'.slot i = s.slot i

/-- The number `fd` may be free again. -/
structure Closed (s : Files W) (fd : Int) (s' : Files W) : Prop where
  tree : s'.tree = s.tree
  cwd : s'.cwd = s.cwd
  slot_of_ne : ∀ i ≠ fd, s'.slot i = s.slot i

/-- The entry `q` is gone. -/
structure Removed (s : Files W) (q : List Bytes) (removedir : Bool) (s' : Files W) : Prop where
  leaf : s.tree.Leaf q
  tree : s'.tree = s.tree.remove q leaf
  ne_root : q ≠ []
  dir : removedir = true → s.tree.node q = some .dir
  cwd : s'.cwd = s.cwd
  slot : ∀ i, s'.slot i = s.slot i

/-- A batch of `pos` has been read from `fd`. -/
structure Batch (s : Files W) (fd : Int) (pos returned names : List Bytes) (s' : Files W) :
    Prop where
  tree : s'.tree = s.tree
  cwd : s'.cwd = s.cwd
  nonempty : names ≠ []
  subset : names ⊆ s.unreturned pos returned
  slot_self : s'.slot fd = some (.dir pos (returned ++ names))
  slot_of_ne : ∀ i ≠ fd, s'.slot i = s.slot i

theorem openDirectory_spec {fd fd' : Int} {path : Bytes} {nofollow : Bool}
    (h : openDirectory fd path nofollow s = some (fd', s')) :
    ∃ pos, s.find fd path (!nofollow) = some pos ∧ Opened s pos fd' s' := by
  unfold openDirectory at h
  split at h
  · cases h
  · rename_i pos hfind
    split at h
    · rename_i hdir
      obtain ⟨rfl, rfl⟩ := Prod.mk.inj (Option.some.inj h)
      refine ⟨pos, hfind, rfl, rfl, hdir, install_free, install_self, fun i hi => ?_⟩
      cases i with
      | ofNat k => exact install_of_ne fun heq => hi (congrArg Int.ofNat heq)
      | negSucc k => rfl
    · cases h

theorem removeEntry_spec {fd rc : Int} {path : Bytes} {removedir : Bool}
    (h : removeEntry fd path removedir s = some (rc, s')) :
    rc = 0 ∧ ∃ q, s.findEntry fd path = some q ∧ Removed s q removedir s' := by
  unfold removeEntry at h
  split at h
  · cases h
  · rename_i q hfind
    split at h
    · rename_i hok
      split at h
      · rename_i hleaf
        obtain ⟨rfl, rfl⟩ := Prod.mk.inj (Option.some.inj h)
        exact ⟨rfl, q, hfind, hleaf, rfl, hok.1, hok.2.2.1.mp, rfl, fun _ => rfl⟩
      · cases h
    · cases h

theorem open_spec {fd : Int} {path : Bytes} {nofollow : Bool} {failed : Int → Int} :
    wp (attempt o failed (openDirectory fd path nofollow))
      (fun fd' s' => (∃ (e : Errno) (w : W), fd' = failed (-e.number) ∧ s' = s.withWorld w) ∨
        ∃ pos, s.find fd path (!nofollow) = some pos ∧ Opened s pos fd' s') E s := by
  refine wp_attempt (fun e w => .inl ⟨e, w, rfl, rfl⟩) fun w fd' s' hact => .inr ?_
  obtain ⟨pos, hfind, hopen⟩ := openDirectory_spec hact
  exact ⟨pos, hfind, hopen.tree, hopen.cwd, hopen.dir, hopen.free, hopen.slot_self,
    hopen.slot_of_ne⟩

theorem openFolder_spec {path : Bytes} {nofollow : Bool} :
    wp (openFolder o path nofollow)
      (fun fd s' => (fd = -1 ∧ ∃ w, s' = s.withWorld w) ∨
        ∃ pos, s.find atFdcwd path (!nofollow) = some pos ∧ Opened s pos fd s') E s := by
  refine wp_mono open_spec (fun fd s' h => h.imp_left ?_) fun _ _ he => he
  rintro ⟨e, w, rfl, rfl⟩
  exact ⟨rfl, w, rfl⟩

theorem openat_spec {fd : Int} {path : Bytes} {nofollow : Bool} :
    wp (syscallOpenat o fd path nofollow)
      (fun fd' s' => (fd' < 0 ∧ ∃ w, s' = s.withWorld w) ∨
        ∃ pos, s.find fd path (!nofollow) = some pos ∧ Opened s pos fd' s') E s := by
  refine wp_mono open_spec (fun fd s' h => h.imp_left ?_) fun _ _ he => he
  rintro ⟨e, w, rfl, rfl⟩
  exact ⟨neg_errno e, w, rfl⟩

theorem fstatat_spec {fd : Int} {path : Bytes} {nofollow : Bool} :
    wp (syscallFstatat o fd path nofollow) (fun _ s' => ∃ w, s' = s.withWorld w) E s := by
  refine wp_attempt (fun e w => ⟨w, rfl⟩) fun w r s' hact => ?_
  split at hact
  · cases hact
  · split at hact
    · cases hact
    · exact ⟨w, (Prod.mk.inj (Option.some.inj hact)).2.symm⟩

theorem close_spec {fd : Int} :
    wp (syscallClose o fd) (fun _ s' => Closed s fd s') E s := by
  refine wp_attempt (fun e w => ⟨rfl, rfl, fun _ _ => rfl⟩) fun w r s' hact => ?_
  split at hact
  · cases hact
  · rename_i e hslot
    obtain ⟨n, rfl, -⟩ := slot_nat hslot
    obtain ⟨rfl, rfl⟩ := Prod.mk.inj (Option.some.inj hact)
    exact ⟨rfl, rfl, fun i hi => slot_set_of_ne hi rfl⟩

theorem unlinkat_spec {fd : Int} {path : Bytes} {removedir : Bool} :
    wp (syscallUnlinkat o fd path removedir)
      (fun rc s' => (rc ≠ 0 ∧ ∃ w, s' = s.withWorld w) ∨
        ∃ q, s.findEntry fd path = some q ∧ Removed s q removedir s') E s := by
  refine wp_attempt (fun e w => .inl ⟨Int.ne_of_lt (neg_errno e), w, rfl⟩)
    fun w rc s' hact => .inr ?_
  obtain ⟨-, q, hfind, hr⟩ := removeEntry_spec hact
  exact ⟨q, hfind, hr.leaf, hr.tree, hr.ne_root, hr.dir, hr.cwd, hr.slot⟩

theorem rmdir_spec {path : Bytes} :
    wp (syscallRmdir o path)
      (fun rc s' => (rc ≠ 0 ∧ ∃ w, s' = s.withWorld w) ∨
        ∃ q, s.findEntry atFdcwd path = some q ∧ Removed s q true s') E s := unlinkat_spec

theorem getdents64_spec {fd : Int} :
    wp (syscallGetdents64 o fd)
      (fun r s' => (r.1 ≤ 0 ∧ ∃ w, s' = s.withWorld w) ∨
        ∃ pos returned, s.slot fd = some (.dir pos returned) ∧
          Batch s fd pos returned r.2 s') E s := by
  refine wp_attempt (fun e w => .inl ⟨Int.le_of_lt (neg_errno e), w, rfl⟩) fun w r s' hact => ?_
  split at hact
  · rename_i pos returned hslot
    split at hact
    · split at hact
      · obtain ⟨rfl, rfl⟩ := Prod.mk.inj (Option.some.inj hact)
        exact .inl ⟨Int.le_refl 0, w, rfl⟩
      · rename_i hrest
        obtain ⟨n, rfl, hn⟩ := slot_nat hslot
        obtain ⟨rfl, rfl⟩ := Prod.mk.inj (Option.some.inj hact)
        refine .inr ⟨pos, returned, hslot, rfl, rfl, o.batch_ne hrest, o.batch_subset, ?_,
          fun i hi => slot_set_of_ne hi rfl⟩
        exact getD_set_self hn _
    · cases hact
  · cases hact

end specs

end Deletion

end MiniRunner
