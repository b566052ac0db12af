import MiniRunner.Clib.Exec

/-!
# Growable pointer arrays

`Table α` is a C array of pointers kept as three globals: the live entries, the
capacity the program believes in, and the slots its block really has. The live
entries fit the block (`inBlock`), so reading below the count is always defined;
`push` writes at the count and is undefined when the block has no such slot.
A NULL array is a block without slots.

`insert` is the duplicate check, growth and append that loaders and constructors
share; `removeFirst` is the one-pass loop that finds an entry, releases it, shifts
the rest down and shortens the count. `removePass_eq` says the loop removes
exactly the first match.
-/

namespace Clib

/-- A C array with its count, the capacity recorded for it and its allocated slots. -/
structure Table (α : Type) where
  items : List α
  capacity : Nat
  slots : Nat
  inBlock : items.length ≤ slots

namespace Table

variable {α : Type}

/-- No entry yet, a recorded capacity and a number of slots. -/
abbrev blank (capacity slots : Nat) : Table α := ⟨[], capacity, slots, Nat.zero_le slots⟩

/-- A fresh block of `n` slots, with capacity `n` recorded. -/
def alloc (n : Nat) : Table α := blank n n

def ofList (l : List α) : Table α := ⟨l, l.length, l.length, Nat.le_refl _⟩

def isNull (t : Table α) : Bool := t.slots == 0

/-- How a growth step picks the new capacity and the new number of slots, from the
old capacity and the count. -/
abbrev Growth := Nat → Nat → Nat × Nat

/-- `realloc`. A block cut below its live entries is out of bounds at the next access. -/
def realloc (t : Table α) (capacity slots : Nat) : Except Halt (Table α) :=
  if h : t.items.length ≤ slots then .ok ⟨t.items, capacity, slots, h⟩ else .error .undefined

/-- Grow when the count has reached the capacity. -/
def reserve (g : Growth) (t : Table α) : Except Halt (Table α) :=
  if t.capacity ≤ t.items.length then
    t.realloc (g t.capacity t.items.length).1 (g t.capacity t.items.length).2
  else .ok t

theorem length_push_le {items : List α} {slots : Nat} {x : α} (h : items.length < slots) :
    (items ++ [x]).length ≤ slots := by
  rw [List.length_append, List.length_singleton]
  omega

def push (t : Table α) (x : α) : Except Halt (Table α) :=
  if h : t.items.length < t.slots then
    .ok ⟨t.items ++ [x], t.capacity, t.slots, length_push_le h⟩
  else .error .undefined

/-- Append `x`, growing the block first if it is full. -/
def append (g : Growth) (x : α) (t : Table α) : Except Halt (Table α) := do
  let t ← t.reserve g
  t.push x

/-- Append `x` unless an entry clashes with it; `-1` on a clash. -/
def insert (g : Growth) (clash : α → Bool) (x : α) (t : Table α) :
    Except Halt (Int × Table α) :=
  if t.items.any clash then .ok (-1, t) else do
    let t ← t.append g x
    pure (0, t)

/-- Replace the entries without changing their number. -/
def mapItems (t : Table α) (f : List α → List α) (h : (f t.items).length = t.items.length) :
    Table α :=
  ⟨f t.items, t.capacity, t.slots, h ▸ t.inBlock⟩

/-! ## Growth -/

/-- The recorded capacity is honest: the block has at least as many slots. -/
def Honest (t : Table α) : Prop := t.items.length ≤ t.capacity ∧ t.capacity ≤ t.slots

/-- A growth step that really allocates what it records, and more than the count. -/
def Growth.Safe (g : Growth) : Prop := ∀ n, n < (g n n).1 ∧ (g n n).1 ≤ (g n n).2

theorem honest_alloc (n : Nat) : (alloc n : Table α).Honest := by simp [Honest, alloc]

theorem isNull_eq_false {t : Table α} (h : t.items ≠ []) : t.isNull = false := by
  have := t.inBlock
  have hpos := List.length_pos_iff.mpr h
  simp only [isNull, beq_eq_false_iff_ne]
  omega

theorem not_isNull_of_length (t : Table α) : ¬(t.isNull = true ∧ t.items.length ≠ 0) := by
  rintro ⟨hnull, hne⟩
  rw [isNull_eq_false (List.ne_nil_of_length_pos (Nat.pos_of_ne_zero hne))] at hnull
  cases hnull

theorem push_eq {t : Table α} {x : α} (h : t.items.length < t.slots) :
    t.push x = .ok ⟨t.items ++ [x], t.capacity, t.slots, length_push_le h⟩ := dif_pos h

theorem push_items {t t' : Table α} {x : α} (h : t.push x = .ok t') :
    t'.items = t.items ++ [x] := by
  unfold push at h
  split at h <;> cases h
  rfl

theorem realloc_eq {t : Table α} {capacity slots : Nat} (h : t.items.length ≤ slots) :
    t.realloc capacity slots = .ok ⟨t.items, capacity, slots, h⟩ := dif_pos h

theorem reserve_items {g : Growth} {t t' : Table α} (h : t.reserve g = .ok t') :
    t'.items = t.items := by
  unfold reserve at h
  split at h
  · unfold realloc at h
    split at h <;> cases h
    rfl
  · cases h
    rfl

theorem append_items {g : Growth} {x : α} {t t' : Table α} (h : t.append g x = .ok t') :
    t'.items = t.items ++ [x] := by
  unfold append at h
  cases hr : t.reserve g with
  | error e => rw [hr] at h; cases h
  | ok t₁ =>
    rw [hr] at h
    rw [← reserve_items hr]
    exact push_items h

theorem append_of_room {g : Growth} {x : α} {t : Table α} (hc : t.items.length < t.capacity)
    (hs : t.items.length < t.slots) :
    t.append g x = .ok ⟨t.items ++ [x], t.capacity, t.slots, length_push_le hs⟩ := by
  have hr : t.reserve g = .ok t := if_neg (by omega)
  rw [append, hr]
  exact push_eq hs

theorem append_of_full {g : Growth} {x : α} {t : Table α} (hc : t.capacity ≤ t.items.length)
    (hs : t.items.length < (g t.capacity t.items.length).2) :
    t.append g x = .ok ⟨t.items ++ [x], (g t.capacity t.items.length).1,
      (g t.capacity t.items.length).2, length_push_le hs⟩ := by
  rw [append, reserve, if_pos hc, realloc_eq (by omega)]
  exact push_eq (t := ⟨t.items, _, _, _⟩) hs

theorem Honest.append {g : Growth} (hg : g.Safe) {t : Table α} (ht : t.Honest) (x : α) :
    ∃ t', t.append g x = .ok t' ∧ t'.items = t.items ++ [x] ∧ t'.Honest := by
  obtain ⟨hc, hs⟩ := ht
  by_cases hfull : t.capacity ≤ t.items.length
  · have heq : t.capacity = t.items.length := by omega
    obtain ⟨h₁, h₂⟩ := hg t.items.length
    refine ⟨_, append_of_full hfull (by rw [heq]; omega), rfl, ?_⟩
    simp only [Honest, List.length_append, List.length_singleton, heq]
    omega
  · refine ⟨_, append_of_room (by omega) (by omega), rfl, ?_⟩
    simp only [Honest, List.length_append, List.length_singleton]
    omega

theorem insert_of_clash {g : Growth} {clash : α → Bool} {x : α} {t : Table α}
    (h : t.items.any clash = true) : t.insert g clash x = .ok (-1, t) := if_pos h

theorem insert_of_fresh {g : Growth} {clash : α → Bool} {x : α} {t : Table α}
    (h : t.items.any clash = false) :
    t.insert g clash x = (t.append g x).map fun t' => (0, t') := by
  simp only [insert, h, Bool.false_eq_true, if_false, bind, Except.bind]
  cases t.append g x <;> rfl

/-- An insertion adds nothing but `x`. -/
theorem forall_insert {g : Growth} {clash : α → Bool} {x : α} {t t' : Table α} {rc : Int}
    (h : t.insert g clash x = .ok (rc, t')) {P : α → Prop} (hx : P x) (ht : ∀ y ∈ t.items, P y) :
    ∀ y ∈ t'.items, P y := by
  by_cases hc : t.items.any clash = true
  · rw [insert_of_clash hc] at h
    cases h
    exact ht
  · rw [insert_of_fresh (Bool.not_eq_true _ ▸ hc)] at h
    cases ha : t.append g x with
    | error e =>
      rw [ha] at h
      cases h
    | ok t₁ =>
      rw [ha] at h
      cases h
      rw [append_items ha]
      exact List.forall_mem_append.mpr ⟨ht, List.forall_mem_singleton.mpr hx⟩

/-! ## The first match -/

/-- Apply `f` to the first entry that satisfies `p`. -/
def updateFirst (p : α → Bool) (f : α → α) : List α → List α
  | [] => []
  | x :: xs => if p x then f x :: xs else x :: updateFirst p f xs

@[simp] theorem length_updateFirst (p : α → Bool) (f : α → α) (xs : List α) :
    (updateFirst p f xs).length = xs.length := by
  induction xs with
  | nil => rfl
  | cons x xs ih =>
    unfold updateFirst
    split <;> simp [ih]

theorem updateFirst_of_forall_not {p : α → Bool} {f : α → α} {xs : List α}
    (h : ∀ x ∈ xs, p x = false) : updateFirst p f xs = xs := by
  induction xs with
  | nil => rfl
  | cons x xs ih =>
    simp only [updateFirst, h x (by simp), Bool.false_eq_true, if_false,
      ih fun y hy => h y (by simp [hy])]

theorem updateFirst_of_forall_eq {p : α → Bool} {f : α → α} (h : ∀ x, p x = true → f x = x)
    (xs : List α) : updateFirst p f xs = xs := by
  induction xs with
  | nil => rfl
  | cons x xs ih =>
    unfold updateFirst
    split
    · rename_i hp
      rw [h x hp]
    · rw [ih]

theorem updateFirst_eq_self {p : α → Bool} {f : α → α} {xs : List α} {x : α}
    (h : xs.find? p = some x) (hf : f x = x) : updateFirst p f xs = xs := by
  induction xs with
  | nil => rfl
  | cons y ys ih =>
    by_cases hy : p y = true
    · rw [List.find?_cons_of_pos hy, Option.some.injEq] at h
      rw [updateFirst, if_pos hy, h, hf]
    · rw [List.find?_cons_of_neg hy] at h
      simp only [updateFirst, hy, Bool.false_eq_true, if_false, ih h]

theorem eq_of_updateFirst_eq_self {p : α → Bool} {f : α → α} {xs : List α} {x : α}
    (h : xs.find? p = some x) (heq : updateFirst p f xs = xs) : f x = x := by
  induction xs with
  | nil => cases h
  | cons y ys ih =>
    by_cases hy : p y = true
    · rw [List.find?_cons_of_pos hy, Option.some.injEq] at h
      rw [updateFirst, if_pos hy, List.cons.injEq] at heq
      rw [← h, heq.1]
    · rw [List.find?_cons_of_neg hy] at h
      rw [updateFirst, if_neg hy, List.cons.injEq] at heq
      exact ih h heq.2

theorem forall_updateFirst {p : α → Bool} {f : α → α} {P : α → Prop}
    (hf : ∀ x, p x = true → P x → P (f x)) {xs : List α} (h : ∀ x ∈ xs, P x) :
    ∀ x ∈ updateFirst p f xs, P x := by
  induction xs with
  | nil => simp [updateFirst]
  | cons x xs ih =>
    have hx := h x (by simp)
    have hxs : ∀ y ∈ xs, P y := fun y hy => h y (by simp [hy])
    unfold updateFirst
    split
    · rename_i hp
      simpa using ⟨hf x hp hx, hxs⟩
    · simpa using ⟨hx, ih hxs⟩

theorem mem_updateFirst {p : α → Bool} {f : α → α} {x : α} (hx : p x = false) {xs : List α}
    (h : x ∈ xs) : x ∈ updateFirst p f xs := by
  induction xs with
  | nil => cases h
  | cons y xs ih =>
    rw [updateFirst]
    rcases List.mem_cons.mp h with rfl | h
    · simp [hx]
    · split
      · exact List.mem_cons_of_mem _ h
      · exact List.mem_cons_of_mem _ (ih h)

theorem forall_modify {P : α → Prop} {f : α → α} (hf : ∀ x, P x → P (f x)) {xs : List α}
    (h : ∀ x ∈ xs, P x) (i : Nat) : ∀ x ∈ xs.modify i f, P x := by
  induction xs generalizing i with
  | nil => simp
  | cons y xs ih =>
    obtain ⟨hy, hxs⟩ := List.forall_mem_cons.mp h
    cases i with
    | zero => exact List.forall_mem_cons.mpr ⟨hf y hy, hxs⟩
    | succ i => exact List.forall_mem_cons.mpr ⟨hy, ih hxs i⟩

theorem updateFirst_append_cons {p : α → Bool} {f : α → α} {ys zs : List α} {x : α}
    (hys : ∀ y ∈ ys, p y = false) (hx : p x = true) :
    updateFirst p f (ys ++ x :: zs) = ys ++ f x :: zs := by
  induction ys with
  | nil => simp [updateFirst, hx]
  | cons y ys ih =>
    simp only [List.cons_append, updateFirst, hys y (by simp), Bool.false_eq_true, if_false,
      ih fun y' hy => hys y' (by simp [hy])]

/-- The first entry by its slot. -/
theorem exists_findIdx? {p : α → Bool} {xs : List α} {x : α} (h : xs.find? p = some x) :
    ∃ i, xs.findIdx? p = some i ∧ xs[i]? = some x ∧
      ∀ f : α → α, xs.modify i f = updateFirst p f xs := by
  induction xs with
  | nil => cases h
  | cons y xs ih =>
    rw [List.find?_cons] at h
    split at h
    · rename_i hy
      cases h
      exact ⟨0, by simp [List.findIdx?_cons, hy], rfl, fun f => by simp [updateFirst, hy]⟩
    · rename_i hy
      obtain ⟨i, hi, hget, hmodify⟩ := ih h
      refine ⟨i + 1, by simp [List.findIdx?_cons, hy, hi], by simpa using hget, fun f => ?_⟩
      simp [updateFirst, hy, hmodify f]

theorem map_updateFirst {β : Type} {p : α → Bool} {f : α → α} {key : α → β}
    (h : ∀ x, p x = true → key (f x) = key x) (xs : List α) :
    (updateFirst p f xs).map key = xs.map key := by
  induction xs with
  | nil => rfl
  | cons x xs ih =>
    unfold updateFirst
    split
    · rename_i hx
      simp [h x hx]
    · simp [ih]

theorem filter_updateFirst {p q : α → Bool} {f : α → α}
    (hq : ∀ x, p x = true → q x = true ∧ q (f x) = true) (xs : List α) :
    (updateFirst p f xs).filter q = updateFirst p f (xs.filter q) := by
  induction xs with
  | nil => rfl
  | cons x xs ih =>
    by_cases hp : p x = true
    · obtain ⟨hx, hfx⟩ := hq x hp
      rw [updateFirst, if_pos hp, List.filter_cons_of_pos hfx, List.filter_cons_of_pos hx,
        updateFirst, if_pos hp]
    · rw [updateFirst, if_neg hp]
      by_cases hx : q x = true
      · rw [List.filter_cons_of_pos hx, List.filter_cons_of_pos hx, updateFirst, if_neg hp, ih]
      · rw [List.filter_cons_of_neg hx, List.filter_cons_of_neg hx, ih]

theorem filter_updateFirst_of_not {p q : α → Bool} {f : α → α}
    (hq : ∀ x, p x = true → q x = false ∧ q (f x) = false) (xs : List α) :
    (updateFirst p f xs).filter q = xs.filter q := by
  induction xs with
  | nil => rfl
  | cons x xs ih =>
    by_cases hp : p x = true
    · obtain ⟨hx, hfx⟩ := hq x hp
      rw [updateFirst, if_pos hp, List.filter_cons_of_neg (by simp [hfx]),
        List.filter_cons_of_neg (by simp [hx])]
    · rw [updateFirst, if_neg hp, List.filter_cons, List.filter_cons, ih]

/-! ## Removal in one pass -/

/-- The removal loop with `k` iterations left: `freed` is the entry released so
far, the state beyond `FIND`. From there each slot takes its right neighbour,
until the last index shortens the count. -/
def removePass (p : α → Bool) : Nat → Option α → List α → Option (α × List α)
  | 0, _, _ => none
  | k + 1, freed, xs =>
    let i := xs.length - (k + 1)
    match freed.or (xs[i]?.filter p) with
    | none => removePass p k none xs
    | some x =>
      match xs[i + 1]? with
      | none => some (x, xs.dropLast)
      | some y => removePass p k (some x) (xs.set i y)

theorem removePass_shift (p : α → Bool) (x : α) (zs : List α) :
    ∀ (ys : List α) (z : α), removePass p (zs.length + 1) (some x) (ys ++ z :: zs) =
      some (x, ys ++ zs) := by
  induction zs with
  | nil =>
    intro ys z
    simp [removePass]
  | cons w zs ih =>
    intro ys z
    have hi : (ys ++ z :: w :: zs).length - ((w :: zs).length + 1) = ys.length := by simp
    simp only [removePass, hi, Option.some_or,
      List.getElem?_append_right (Nat.le_succ ys.length)]
    simpa using ih (ys ++ [w]) w

theorem removePass_find (p : α → Bool) (zs : List α) :
    ∀ (ys : List α), removePass p zs.length none (ys ++ zs) =
      (zs.find? p).map fun x => (x, ys ++ zs.eraseP p) := by
  induction zs with
  | nil =>
    intro ys
    rfl
  | cons z zs ih =>
    intro ys
    have hi : (ys ++ z :: zs).length - (zs.length + 1) = ys.length := by simp
    by_cases hz : p z = true
    · have hshift := removePass_shift p z zs ys z
      simp only [removePass, hi, Option.some_or] at hshift
      simp only [List.length_cons, removePass, hi]
      simpa [Option.filter, hz] using hshift
    · simp only [List.length_cons, removePass, hi]
      simpa [Option.filter, hz] using ih (ys ++ [z])

/-- **The loop removes exactly the first match** and reports the released entry. -/
theorem removePass_eq (p : α → Bool) (xs : List α) :
    removePass p xs.length none xs = (xs.find? p).map fun x => (x, xs.eraseP p) :=
  removePass_find p xs []

theorem length_le_of_removePass {p : α → Bool} {xs ys : List α} {x : α}
    (h : removePass p xs.length none xs = some (x, ys)) : ys.length ≤ xs.length := by
  rw [removePass_eq, Option.map_eq_some_iff] at h
  obtain ⟨_, _, h⟩ := h
  cases h
  exact List.length_eraseP_le

/-- Remove the first match; a table that becomes empty is freed and set to NULL. -/
def removeFirst (p : α → Bool) (t : Table α) : Option (α × Table α) :=
  match h : removePass p t.items.length none t.items with
  | none => none
  | some (x, rest) =>
    if rest.isEmpty then some (x, blank t.capacity 0)
    else some (x, ⟨rest, t.capacity, t.slots, Nat.le_trans (length_le_of_removePass h) t.inBlock⟩)

theorem removeFirst_of_some {p : α → Bool} {t : Table α} {x : α} (h : t.items.find? p = some x) :
    t.removeFirst p = some (x, if (t.items.eraseP p).isEmpty then blank t.capacity 0
      else ⟨t.items.eraseP p, t.capacity, t.slots,
        Nat.le_trans List.length_eraseP_le t.inBlock⟩) := by
  unfold removeFirst
  split
  · rename_i hnone
    rw [removePass_eq, h] at hnone
    cases hnone
  · rename_i y rest hsome
    rw [removePass_eq, h] at hsome
    cases hsome
    split <;> simp [*]

theorem removeFirst_eq_none {p : α → Bool} {t : Table α} :
    t.removeFirst p = none ↔ ∀ x ∈ t.items, p x = false := by
  unfold removeFirst
  split
  · rename_i h
    rw [removePass_eq] at h
    simpa using h
  · rename_i x rest h
    rw [removePass_eq] at h
    constructor
    · intro h'
      split at h' <;> cases h'
    · intro hall
      have : t.items.find? p = none := by simpa using hall
      simp [this] at h

theorem removeFirst_eq_some {p : α → Bool} {t t' : Table α} {x : α}
    (h : t.removeFirst p = some (x, t')) :
    t.items.find? p = some x ∧ t'.items = t.items.eraseP p := by
  unfold removeFirst at h
  split at h
  · cases h
  · rename_i y rest hrest
    rw [removePass_eq, Option.map_eq_some_iff] at hrest
    obtain ⟨z, hz, hpair⟩ := hrest
    cases hpair
    split at h
    · rename_i hnil
      cases h
      exact ⟨hz, (List.isEmpty_iff.mp hnil).symm⟩
    · cases h
      exact ⟨hz, rfl⟩

end Table

end Clib
