import MiniRunner.Clib.Cells

/-!
# Removal in one pass

The loop that finds an entry, frees it, moves the rest down and lowers the count is a single
pass over the array with a state beside the index. One round can go through several states,
and the last of them returns out of the loop.

`Removal.run_eq` takes the pass apart into a lookup and a removal, whatever the slots are.
Where the entries are in the block it removes the first entry that is looked for and frees
the blocks of that entry, or changes nothing.
-/

namespace Clib

/-- A record on the heap: where it is, where its strings are and what it says. -/
structure Owned (φ α : Type) where
  addr : Nat
  field : φ → Nat
  value : α

/-- What such a function does with an entry; `β` is a block on the heap. -/
structure Removal (α β : Type) where
  /-- Whether it is the one to remove. -/
  hit : α → Bool
  /-- Whether what has to go before it could be removed. -/
  permitted : α → Bool
  /-- The entry is read from the array again before it is freed. -/
  rereads : Bool
  /-- Its blocks, in the order in which they are freed. -/
  release : α → List β
  /-- The capacity that is recorded when the array was freed. -/
  emptied : Nat → Nat

namespace Removal

variable {α β : Type}

inductive Phase (α : Type) where
  | find
  | free (found : α)
  | fmt
  | del

/-- The variables of the loop; `rc` is there once the function has returned from it. -/
structure Pass (α β : Type) where
  phase : Phase α
  table : Cells α
  freed : List β
  rc : Option Int

variable (r : Removal α β)

def findStep (i : Nat) (s : Pass α β) : Except Halt (Pass α β) :=
  match s.phase with
  | .find => do
    let x ← s.table.read i
    if r.hit x then
      if r.permitted x then pure { s with phase := .free x } else pure { s with rc := some (-1) }
    else pure s
  | _ => pure s

def freeStep (i : Nat) (s : Pass α β) : Except Halt (Pass α β) :=
  match s.phase with
  | .free found => do
    let x ← if r.rereads then s.table.read i else pure found
    pure { s with phase := .fmt, freed := s.freed ++ r.release x }
  | _ => pure s

def fmtStep (i : Nat) (s : Pass α β) : Except Halt (Pass α β) :=
  match s.phase with
  | .fmt =>
    if i = s.table.count - 1 then pure { s with phase := .del }
    else do
      let x ← s.table.read (i + 1)
      let t ← s.table.write i x
      pure { s with table := t }
  | _ => pure s

def clear (t : Cells α) : Cells α :=
  if t.count = 0 then { t.free with capacity := r.emptied t.capacity } else t

def delStep (s : Pass α β) : Pass α β :=
  match s.phase with
  | .del =>
    { s with table := r.clear { s.table with count := s.table.count - 1 }, rc := some 0 }
  | _ => s

/-- One round: the four tests in turn, each of the state that the last one left. -/
def round (i : Nat) (s : Pass α β) : Except Halt (Pass α β) := do
  let s ← r.findStep i s
  let s ← r.freeStep i s
  let s ← fmtStep i s
  pure (r.delStep s)

/-- `n` rounds from index `i` on, unless one returns. -/
def rounds : Nat → Nat → Pass α β → Except Halt (Pass α β)
  | 0, _, s => .ok s
  | n + 1, i, s => do
    let s ← r.round i s
    if s.rc.isSome then pure s else rounds n (i + 1) s

def run (t : Cells α) : Except Halt (Pass α β) := r.rounds t.count 0 ⟨.find, t, [], none⟩

/-! ## The pass taken apart -/

variable {r} {t : Cells α} {freed : List β}

/-- The rounds that move the entries down. -/
theorem rounds_fmt {n i : Nat} (hcount : i + n + 1 = t.count) :
    r.rounds (n + 1) i ⟨.fmt, t, freed, none⟩ =
      (t.shiftFrom n i).map fun u =>
        ⟨.del, r.clear { u with count := u.count - 1 }, freed, some 0⟩ := by
  induction n generalizing t i with
  | zero =>
    have hlast : i = t.count - 1 := by omega
    simp only [rounds, round, findStep, freeStep, fmtStep, delStep, pure, Except.pure, bind,
      Except.bind, if_pos hlast, Option.isSome_some, if_true, Cells.shiftFrom, Except.map]
  | succ n ih =>
    have hlast : i ≠ t.count - 1 := by omega
    rw [rounds, Cells.shiftFrom]
    simp only [round, findStep, freeStep, fmtStep, delStep, pure, Except.pure, bind, Except.bind,
      if_neg hlast]
    cases t.read (i + 1) with
    | error e => rfl
    | ok x =>
      cases hwrite : t.write i x with
      | error e =>
        simp only [hwrite]
        rfl
      | ok u =>
        have hsame : u.count = t.count := Cells.count_write hwrite
        simp only [hwrite, Option.isSome_none, Bool.false_eq_true, if_false]
        exact ih (by omega)

theorem round_hit {i : Nat} {x : α} (hread : t.read i = .ok x) (hit : r.hit x = true)
    (hperm : r.permitted x = true) : r.round i ⟨.find, t, freed, none⟩ =
      r.round i ⟨.fmt, t, freed ++ r.release x, none⟩ := by
  -- read again or not, it is the entry that was found
  simp only [round, findStep, freeStep, hread, bind, Except.bind, hit, if_true, hperm, pure,
    Except.pure, ite_self]

/-- The rounds that look for the entry. -/
theorem rounds_find {n i : Nat} (hcount : i + n = t.count) :
    r.rounds n i ⟨.find, t, freed, none⟩ = (do
      match ← t.findFrom r.hit n i with
      | none => pure ⟨.find, t, freed, none⟩
      | some j =>
        let x ← t.read j
        if r.permitted x then
          (t.removeAt j).map fun u => ⟨.del, r.clear u, freed ++ r.release x, some 0⟩
        else pure ⟨.find, t, freed, some (-1)⟩) := by
  induction n generalizing i with
  | zero => rfl
  | succ n ih =>
    rw [Cells.findFrom]
    cases hread : t.read i with
    | error e => simp only [rounds, round, findStep, hread, bind, Except.bind]
    | ok x =>
      simp only [bind, Except.bind]
      cases hit : r.hit x with
      | false =>
        have hround : r.round i ⟨.find, t, freed, none⟩ = .ok ⟨.find, t, freed, none⟩ := by
          simp only [round, findStep, freeStep, fmtStep, delStep, hread, bind, Except.bind, hit,
            Bool.false_eq_true, if_false, pure, Except.pure]
        rw [rounds, hround]
        exact ih (by omega)
      | true =>
        simp only [if_true, pure, Except.pure, hread]
        cases hperm : r.permitted x with
        | false =>
          simp only [rounds, round, findStep, freeStep, fmtStep, delStep, hread, bind, Except.bind,
            hit, hperm, Bool.false_eq_true, if_false, if_true, pure, Except.pure,
            Option.isSome_some]
        | true =>
          have hrest : t.count - 1 - i = n := by omega
          rw [rounds, round_hit hread hit hperm, if_pos rfl, Cells.removeAt, hrest]
          refine (rounds_fmt (by omega)).trans ?_
          cases t.shiftFrom n i <;> rfl

/-- **The pass is a lookup and a removal.** -/
theorem run_eq (t : Cells α) : r.run t = (do
    match ← t.find r.hit with
    | none => pure ⟨.find, t, [], none⟩
    | some i =>
      let x ← t.read i
      if r.permitted x then
        (t.removeAt i).map fun u => ⟨.del, r.clear u, r.release x, some 0⟩
      else pure ⟨.find, t, [], some (-1)⟩) :=
  rounds_find (Nat.zero_add _)

/-! ## What it leaves -/

variable {x : α}

theorem run_of_absent (h : t.count ≤ t.slots) (hx : t.entries.find? r.hit = none) :
    r.run t = .ok ⟨.find, t, [], none⟩ := by
  have hidx : t.entries.findIdx? r.hit = none := by
    rw [List.findIdx?_eq_none_iff]
    simpa using hx
  rw [run_eq, Cells.find_eq, hidx, if_pos h]
  rfl

theorem find_of_found (hx : t.entries.find? r.hit = some x) :
    ∃ i, t.find r.hit = .ok (some i) ∧ t.entries.findIdx? r.hit = some i ∧ t.read i = .ok x := by
  obtain ⟨i, hi, hget, -⟩ := Table.exists_findIdx? hx
  have hlt : i < t.count := by
    have := (List.findIdx?_eq_some_iff_getElem.mp hi).1
    rw [List.length_take] at this
    omega
  rw [List.getElem?_take_of_lt hlt] at hget
  refine ⟨i, ?_, hi, ?_⟩
  · rw [Cells.find_eq, hi]
  · rw [Cells.read, hget]

theorem count_clear (u : Cells α) : (r.clear u).count = u.count := by
  rw [clear]
  split <;> rfl

theorem entries_clear (u : Cells α) : (r.clear u).entries = u.entries := by
  rw [clear]
  split
  · rename_i hzero
    simp [Cells.entries, Cells.free, hzero]
  · rfl

/-- **What is looked for is removed**, and its blocks are freed. -/
theorem run_of_found (h : t.count ≤ t.slots) (hx : t.entries.find? r.hit = some x)
    (hperm : r.permitted x = true) : ∃ u, r.run t = .ok ⟨.del, u, r.release x, some 0⟩ ∧
      u.entries = t.entries.eraseP r.hit ∧ u.count + 1 = t.count := by
  obtain ⟨i, hfind, hi, hread⟩ := find_of_found hx
  obtain ⟨u, hremove, hcount, hshows⟩ := (Cells.shows_entries h).removeAt hi
  have hpos : 0 < t.count := by
    have := (List.findIdx?_eq_some_iff_getElem.mp hi).1
    rw [List.length_take] at this
    omega
  refine ⟨r.clear u, ?_, ?_, ?_⟩
  · rw [run_eq, hfind]
    simp only [bind, Except.bind, hread, hperm, if_true, hremove]
    rfl
  · exact (entries_clear u).trans hshows.items
  · rw [count_clear]
    omega

/-! ## Another view of the entries -/

/-- The lookup and the removal, with what the pass returns, if it does; `ok` is whether the
entry may be touched. -/
def dropFirst (p : α → Bool) (ok : Bool) (emptied : Nat → Nat) (t : Cells α) :
    Except Halt (Option Int × Cells α) := do
  match ← t.find p with
  | none => pure (none, t)
  | some i =>
    if ok = false then pure (some (-1), t)
    else
      let u ← t.removeAt i
      pure (some 0, if u.count = 0 then { u.free with capacity := emptied u.capacity } else u)

/-- **The pass on another view** of the entries, that `hit` can be told from. -/
theorem run_map {γ : Type} {f : α → γ} {p : γ → Bool} (hp : ∀ x, r.hit x = p (f x)) {ok : Bool}
    (hperm : ∀ x, r.permitted x = ok) :
    (r.run t).map (fun s => (s.rc, s.table.map f)) = dropFirst p ok r.emptied (t.map f) := by
  have hhit : r.hit = fun x => p (f x) := funext hp
  rw [run_eq, dropFirst, Cells.find_map, ← hhit]
  rcases Cells.find_cases r.hit t with ⟨i, hfind, -, hslot, -⟩ | ⟨hfind, -⟩ | ⟨hfind, -⟩
  · rw [hfind]
    simp only [bind, Except.bind, Cells.read_eq hslot, hperm, Cells.removeAt_map]
    cases ok with
    | false => rfl
    | true =>
      simp only [if_true, Bool.true_eq_false, if_false]
      cases t.removeAt i with
      | error e => rfl
      | ok u =>
        have hclear : (r.clear u).map f = if u.count = 0 then
            { (u.map f).free with capacity := r.emptied (u.map f).capacity } else u.map f := by
          rw [clear]
          split <;> rfl
        exact congrArg (fun v => Except.ok (some 0, v)) hclear
  · rw [hfind]
    rfl
  · rw [hfind]
    rfl

/-! ## Blocks -/

/-- **Blocks are freed once.** The blocks of the entry that was removed and those of the entries
that were kept are the blocks there were. -/
theorem release_perm {l : List α} {p : α → Bool} (release : α → List β)
    (hx : l.find? p = some x) :
    (release x ++ (l.eraseP p).flatMap release).Perm (l.flatMap release) := by
  obtain ⟨hp, before, after, rfl, hbefore⟩ := List.find?_eq_some_iff_append.mp hx
  have hno : ∀ y ∈ before, ¬p y = true := fun y hy => by simpa using hbefore y hy
  rw [List.eraseP_append_right _ hno, List.eraseP_cons_of_pos hp, List.flatMap_append,
    List.flatMap_append, List.flatMap_cons, ← List.append_assoc, ← List.append_assoc]
  exact List.Perm.append_right _ List.perm_append_comm

end Removal

end Clib
