import MiniRunner.Clib.Paths
import Mathlib.Data.List.AList

/-!
# File trees

A `FileTree` has finitely many nodes below its root: files, symbolic links and directories,
each at a position with its deepest component first, each in a directory. So the nodes below
a position are the ones that have it as a suffix.

`Prunes d t t'` says that `t'` is `t` without some nodes below `d`. Paths are walked with
symbolic links followed, at most 40 of them; where a walk in a pruned tree leads, it led before
(`walkTo_imp`), so a path that was opened as a directory names that directory or nothing when
it is removed (`find_of_findEntry`).

`pending t d taken` counts the nodes below those children of `d` that are not in `taken`. It
goes down when a child is taken, when nodes go, and from a directory to a child of it that is
not taken.
-/

namespace Clib

/-- A path without its empty components; `slashed` when it ends in a slash. -/
structure FilePath (N : Type) where
  absolute : Bool
  steps : List (PathStep N)
  slashed : Bool
  deriving DecidableEq

inductive FileNode (N : Type) where
  | file (content : Bytes)
  | link (target : FilePath N)
  | dir
  deriving DecidableEq

variable {N : Type} [DecidableEq N]

structure FileTree (N : Type) [DecidableEq N] where
  nodes : AList fun _ : List N => FileNode N
  closed : ∀ {x p}, x :: p ∈ nodes → p = [] ∨ nodes.lookup p = some .dir

namespace FileTree

def node (t : FileTree N) : List N → Option (FileNode N)
  | [] => some .dir
  | x :: p => t.nodes.lookup (x :: p)

/-- The name of a position in the directory `d`. -/
def nameIn (d : List N) : List N → Option N
  | [] => none
  | x :: p => if p = d then some x else none

def names (t : FileTree N) (d : List N) : List N := t.nodes.keys.filterMap (nameIn d)

/-- Nothing is in `p`. -/
def Leaf (t : FileTree N) (p : List N) : Prop := ∀ x, t.node (x :: p) = none

theorem mem_names {t : FileTree N} {d : List N} {x : N} :
    x ∈ t.names d ↔ t.node (x :: d) ≠ none := by
  rw [names, List.mem_filterMap, node, Ne, AList.lookup_eq_none, not_not, AList.mem_keys]
  constructor
  · rintro ⟨p, hp, hname⟩
    cases p with
    | nil => cases hname
    | cons y p =>
      rw [nameIn] at hname
      split at hname
      · rename_i heq
        obtain rfl := Option.some.inj hname
        rwa [heq] at hp
      · cases hname
  · exact fun hp => ⟨x :: d, hp, if_pos rfl⟩

theorem leaf_iff {t : FileTree N} {p : List N} : t.Leaf p ↔ t.names p = [] := by
  constructor
  · exact fun h => List.eq_nil_iff_forall_not_mem.mpr fun x hx => mem_names.mp hx (h x)
  · intro h x
    refine Classical.byContradiction fun hx => ?_
    have hmem := mem_names.mpr hx
    rw [h] at hmem
    cases hmem

instance (t : FileTree N) (p : List N) : Decidable (t.Leaf p) :=
  decidable_of_iff _ leaf_iff.symm

theorem parent {t : FileTree N} {x : N} {p : List N} (h : t.node (x :: p) ≠ none) :
    t.node p = some .dir := by
  have hmem : x :: p ∈ t.nodes := by
    rwa [node, Ne, AList.lookup_eq_none, not_not] at h
  rcases t.closed hmem with rfl | hp
  · rfl
  · cases p with
    | nil => rfl
    | cons y p => exact hp

theorem leaf_of_ne {t : FileTree N} {p : List N} (h : t.node p ≠ some .dir) : t.Leaf p :=
  fun _ => Classical.byContradiction fun hx => h (parent hx)

theorem node_of_suffix {t : FileTree N} {d : List N} (h : t.node d = none) {q : List N}
    (hq : d <:+ q) : t.node q = none := by
  obtain ⟨s, rfl⟩ := hq
  induction s with
  | nil => exact h
  | cons x s ih =>
    refine leaf_of_ne (p := s ++ d) ?_ x
    rw [ih]
    exact (Option.some_ne_none _).symm

def remove (t : FileTree N) (p : List N) (h : t.Leaf p) : FileTree N where
  nodes := t.nodes.erase p
  closed := by
    intro x q hmem
    obtain ⟨-, hold⟩ := AList.mem_erase.mp hmem
    have hne : q ≠ p := by
      rintro rfl
      have hnone := h x
      rw [node, AList.lookup_eq_none] at hnone
      exact hnone hold
    rw [AList.lookup_erase_ne hne]
    exact t.closed hold

theorem remove_self {t : FileTree N} {p : List N} (h : t.Leaf p) (hp : p ≠ []) :
    (t.remove p h).node p = none := by
  cases p with
  | nil => exact absurd rfl hp
  | cons x p => exact AList.lookup_erase _ _

theorem remove_of_ne {t : FileTree N} {p : List N} (h : t.Leaf p) {q : List N} (hq : q ≠ p) :
    (t.remove p h).node q = t.node q := by
  cases q with
  | nil => rfl
  | cons x q => exact AList.lookup_erase_ne hq

end FileTree

/-- `q` is below `d`. -/
def Below (d q : List N) : Prop := ∃ x, x :: d <:+ q

omit [DecidableEq N] in
theorem Below.suffix {d q : List N} (h : Below d q) : d <:+ q := by
  obtain ⟨x, hx⟩ := h
  exact (List.suffix_cons x d).trans hx

omit [DecidableEq N] in
theorem Below.of_child {d q : List N} {x : N} (h : x :: d <:+ q) : Below d q := ⟨x, h⟩

/-- `t'` is `t` without some nodes below `d`. -/
structure Prunes (d : List N) (t t' : FileTree N) : Prop where
  keys : t'.nodes.keys.Sublist t.nodes.keys
  node : ∀ q, t'.node q = t.node q ∨ (Below d q ∧ t'.node q = none)

namespace Prunes

variable {t t' t'' : FileTree N} {d : List N}

theorem refl (d : List N) (t : FileTree N) : Prunes d t t :=
  ⟨List.Sublist.refl _, fun _ => .inl rfl⟩

theorem trans (h : Prunes d t t') (h' : Prunes d t' t'') : Prunes d t t'' := by
  refine ⟨h'.keys.trans h.keys, fun q => ?_⟩
  rcases h'.node q with heq | hgone
  · rw [heq]
    exact h.node q
  · exact .inr hgone

theorem of_child {x : N} (h : Prunes (x :: d) t t') : Prunes d t t' :=
  ⟨h.keys, fun q => (h.node q).imp_right fun hq => ⟨⟨x, hq.1.suffix⟩, hq.2⟩⟩

theorem remove {x : N} (h : t.Leaf (x :: d)) : Prunes d t (t.remove (x :: d) h) := by
  refine ⟨?_, fun q => ?_⟩
  · exact (List.kerase_sublist _ _).map Sigma.fst
  · by_cases hq : q = x :: d
    · rw [hq]
      exact .inr ⟨⟨x, List.suffix_refl _⟩, FileTree.remove_self h (List.cons_ne_nil x d)⟩
    · exact .inl (FileTree.remove_of_ne h hq)

theorem node_of_some (h : Prunes d t t') {q : List N} {v : FileNode N}
    (hq : t'.node q = some v) : t.node q = some v := by
  rcases h.node q with heq | ⟨-, hnone⟩
  · rw [← heq, hq]
  · rw [hnone] at hq
    cases hq

theorem node_of_not_below (h : Prunes d t t') {q : List N} (hq : ¬Below d q) :
    t'.node q = t.node q := (h.node q).resolve_right fun hb => hq hb.1

end Prunes

/-! ## Walks -/

namespace FileTree

section walks

variable (t : FileTree N)

/-- Walk the steps of a path; `jump` goes on where a symbolic link points. A link at the end
is only followed with `follow`. -/
def walkWith (follow : Bool) (jump : List (PathStep N) → List N → Option (List N)) :
    List (PathStep N) → List N → Option (List N)
  | [], pos => some pos
  | .stay :: rest, pos => walkWith follow jump rest pos
  | .up :: rest, pos => walkWith follow jump rest pos.tail
  | .down x :: rest, pos =>
    match t.node (x :: pos) with
    | none => none
    | some .dir => walkWith follow jump rest (x :: pos)
    | some (.file _) => if rest = [] then some (x :: pos) else none
    | some (.link target) =>
      if rest = [] ∧ follow = false then some (x :: pos)
      else jump (target.steps ++ rest) (if target.absolute then [] else pos)

def walkTo (follow : Bool) : Nat → List (PathStep N) → List N → Option (List N)
  | 0 => walkWith t follow fun _ _ => none
  | links + 1 => walkWith t follow (walkTo follow links)

/-- The links that one walk follows at most. -/
def maxLinks : Nat := 40

/-- Where a path leads from the directory `start`. A slash at the end asks for a directory, and
follows a link there. -/
def find (follow : Bool) (path : FilePath N) (start : List N) : Option (List N) :=
  if path.steps = [] ∧ path.absolute = false ∨ t.node start ≠ some .dir then none
  else
    match t.walkTo (follow || path.slashed) maxLinks path.steps start with
    | none => none
    | some q => if path.slashed = true ∧ t.node q ≠ some .dir then none else some q

/-- The entry that the last component of a path names, itself not followed. -/
def findEntry (path : FilePath N) (start : List N) : Option (List N) :=
  match path.steps.getLast? with
  | some (.down _) =>
    if t.node start = some .dir then t.walkTo false maxLinks path.steps start else none
  | _ => none

end walks

/-- In a walk through one tree that ends at `q`, another tree that has the nodes of the walk
leads there too, also with links followed at the end when `q` is none. -/
theorem walkWith_imp {t t' : FileTree N} {follow follow' : Bool} {q : List N}
    {jump jump' : List (PathStep N) → List N → Option (List N)}
    (hnode : ∀ p v, t.node p = some v → t'.node p = some v)
    (hfollow : follow' = follow ∨ ∀ target, t.node q ≠ some (.link target))
    (hjump : ∀ steps pos, jump steps pos = some q → jump' steps pos = some q)
    (hrest : follow' = false → follow = false) (steps : List (PathStep N)) :
    ∀ pos, t.walkWith follow jump steps pos = some q →
      t'.walkWith follow' jump' steps pos = some q := by
  induction steps with
  | nil => exact fun pos h => h
  | cons step rest ih =>
    intro pos h
    cases step with
    | stay => exact ih pos h
    | up => exact ih pos.tail h
    | down x =>
      rw [walkWith] at h ⊢
      cases hv : t.node (x :: pos) with
      | none =>
        rw [hv] at h
        cases h
      | some v =>
        rw [hnode _ _ hv]
        rw [hv] at h
        cases v with
        | dir => exact ih _ h
        | file content => exact h
        | link target =>
          simp only at h ⊢
          split at h
          · rename_i hlast
            obtain rfl := Option.some.inj h
            rcases hfollow with heq | hno
            · rw [if_pos ⟨hlast.1, heq ▸ hlast.2⟩]
            · exact absurd hv (hno target)
          · rename_i hgo
            rw [if_neg fun hlast => hgo ⟨hlast.1, hrest hlast.2⟩]
            exact hjump _ _ h

theorem walkTo_imp {t t' : FileTree N} {follow follow' : Bool} {q : List N}
    (hnode : ∀ p v, t.node p = some v → t'.node p = some v)
    (hfollow : follow' = follow ∨ ∀ target, t.node q ≠ some (.link target))
    (hrest : follow' = false → follow = false) (links : Nat) :
    ∀ steps pos, t.walkTo follow links steps pos = some q →
      t'.walkTo follow' links steps pos = some q := by
  induction links with
  | zero => exact walkWith_imp hnode hfollow (fun _ _ h => by cases h) hrest
  | succ links ih => exact walkWith_imp hnode hfollow ih hrest

theorem walkWith_name {t : FileTree N} {jump : List (PathStep N) → List N → Option (List N)}
    {x : N} {d q : List N} (h : t.walkWith false jump [.down x] d = some q) : q = x :: d := by
  rw [walkWith] at h
  cases hv : t.node (x :: d) with
  | none =>
    rw [hv] at h
    cases h
  | some v =>
    rw [hv] at h
    cases v with
    | dir => exact (Option.some.inj h).symm
    | file content => exact (Option.some.inj h).symm
    | link target => exact (Option.some.inj h).symm

theorem walkTo_name {t : FileTree N} {links : Nat} {x : N} {d q : List N}
    (h : t.walkTo false links [.down x] d = some q) : q = x :: d := by
  cases links with
  | zero => exact walkWith_name h
  | succ links => exact walkWith_name h

theorem find_name {t : FileTree N} {path : FilePath N} {x : N} {d q : List N}
    (hsteps : path.steps = [.down x]) (hslashed : path.slashed = false)
    (h : t.find false path d = some q) : q = x :: d := by
  unfold find at h
  split at h
  · cases h
  · rw [hslashed, hsteps] at h
    split at h
    · cases h
    · rename_i q' hwalk
      obtain rfl := walkTo_name hwalk
      rw [if_neg fun hs => Bool.noConfusion hs.1] at h
      exact (Option.some.inj h).symm

theorem findEntry_name {t : FileTree N} {path : FilePath N} {x : N} {d q : List N}
    (hsteps : path.steps = [.down x]) (h : t.findEntry path d = some q) : q = x :: d := by
  unfold findEntry at h
  rw [hsteps] at h
  split at h
  · split at h
    · exact walkTo_name h
    · cases h
  · cases h

/-- **The entry to remove** in a pruned tree is the directory that was opened before. -/
theorem find_of_findEntry {t t' : FileTree N} {path : FilePath N} {start d q : List N}
    (hnode : ∀ p v, t'.node p = some v → t.node p = some v)
    (hfind : t.find false path start = some d) (hentry : t'.findEntry path start = some q)
    (hq : t'.node q = some .dir) : q = d := by
  unfold findEntry at hentry
  split at hentry
  · split at hentry
    · have hwalk : t.walkTo (false || path.slashed) maxLinks path.steps start = some q := by
        refine walkTo_imp hnode (.inr fun target hlink => ?_) (fun _ => rfl) _ _ _ hentry
        rw [hq] at hlink
        cases hlink
      unfold find at hfind
      rw [hwalk] at hfind
      split at hfind
      · cases hfind
      · simp only at hfind
        split at hfind
        · cases hfind
        · exact Option.some.inj hfind
    · cases hentry
  · cases hentry

end FileTree

/-! ## What is left to take -/

omit [DecidableEq N] in
/-- Below a child of `d` that is not in `taken`. -/
def Waiting (d taken p : List N) : Prop := ∃ x ∈ p, x ∉ taken ∧ x :: d <:+ p

instance (d taken p : List N) : Decidable (Waiting d taken p) :=
  inferInstanceAs (Decidable (∃ x ∈ p, x ∉ taken ∧ x :: d <:+ p))

/-- The nodes below children of `d` that are not in `taken`. -/
def FileTree.pending (t : FileTree N) (d taken : List N) : Nat :=
  t.nodes.keys.countP fun p => decide (Waiting d taken p)

theorem countP_lt_of_mem {α : Type} {p q : α → Bool} {l : List α} {a : α} (ha : a ∈ l)
    (h : ∀ b ∈ l, p b = true → q b = true) (hq : q a = true) (hp : p a = false) :
    l.countP p < l.countP q := by
  obtain ⟨l₁, l₂, rfl⟩ := List.append_of_mem ha
  have hleft : l₁.countP p ≤ l₁.countP q :=
    List.countP_mono_left fun b hb => h b (List.mem_append_left _ hb)
  have hright : l₂.countP p ≤ l₂.countP q :=
    List.countP_mono_left fun b hb => h b (List.mem_append_right _ (List.mem_cons_of_mem _ hb))
  rw [List.countP_append, List.countP_append, List.countP_cons_of_pos hq,
    List.countP_cons_of_neg (by rw [hp]; exact Bool.false_ne_true)]
  omega

section pending

variable {t t' : FileTree N} {d taken taken' : List N} {x : N}

theorem pending_le_of_keys (h : t'.nodes.keys.Sublist t.nodes.keys) (d taken : List N) :
    t'.pending d taken ≤ t.pending d taken := h.countP_le

theorem pending_anti (h : taken ⊆ taken') : t.pending d taken' ≤ t.pending d taken := by
  refine List.countP_mono_left fun p _ hp => ?_
  obtain ⟨y, hmem, hy, hsuffix⟩ := of_decide_eq_true hp
  exact decide_eq_true ⟨y, hmem, fun hin => hy (h hin), hsuffix⟩

theorem mem_keys_of_node {p : List N} (h : t.node (x :: p) ≠ none) : x :: p ∈ t.nodes.keys := by
  rwa [FileTree.node, Ne, AList.lookup_eq_none, not_not] at h

/-- **Taking a child.** -/
theorem pending_take (hx : x ∉ taken) (hnode : t.node (x :: d) ≠ none) (h : taken ⊆ taken')
    (hx' : x ∈ taken') : t.pending d taken' < t.pending d taken := by
  refine countP_lt_of_mem (mem_keys_of_node hnode) (fun p _ hp => ?_) ?_ ?_
  · obtain ⟨y, hmem, hy, hsuffix⟩ := of_decide_eq_true hp
    exact decide_eq_true ⟨y, hmem, fun hin => hy (h hin), hsuffix⟩
  · exact decide_eq_true ⟨x, List.mem_cons_self, hx, List.suffix_refl _⟩
  · refine decide_eq_false ?_
    rintro ⟨y, -, hy, hsuffix⟩
    obtain ⟨rfl, -⟩ := List.cons.inj (hsuffix.eq_of_length (by simp))
    exact hy hx'

/-- **Going down** to a child that is not taken. -/
theorem pending_child (hx : x ∉ taken) (hnode : t.node (x :: d) ≠ none) (taken' : List N) :
    t.pending (x :: d) taken' < t.pending d taken := by
  refine countP_lt_of_mem (mem_keys_of_node hnode) (fun p _ hp => ?_) ?_ ?_
  · obtain ⟨y, hmem, -, hsuffix⟩ := of_decide_eq_true hp
    have hchild : x :: d <:+ p := (List.suffix_cons y _).trans hsuffix
    exact decide_eq_true ⟨x, hchild.subset List.mem_cons_self, hx, hchild⟩
  · exact decide_eq_true ⟨x, List.mem_cons_self, hx, List.suffix_refl _⟩
  · refine decide_eq_false ?_
    rintro ⟨y, -, -, hsuffix⟩
    have := hsuffix.length_le
    rw [List.length_cons] at this
    omega

end pending

end Clib
