import MiniRunner.Clib.Block

/-!
# Arrays with checked accesses

`Cells α` is a C array as its program keeps it: the pointer with the block behind it, and
beside it a count and a capacity that are nothing but numbers. Each read and each write
names an index and is checked against the slots that were last allocated; an index that is
not below them is `undefined`, and nothing else is.

`Shows` ties it to `Table`, which knows its entries and no indexes: as long as the entries
are in the block, the loops over the slots do what `Table` says.
-/

namespace Clib

/-- A C array: the pointer, NULL or to a block, and the two numbers kept beside it. -/
structure Cells (α : Type) where
  block : Option (List α)
  count : Nat
  capacity : Nat

namespace Cells

variable {α : Type}

def cells (t : Cells α) : List α := t.block.getD []

/-- The slots that the count says are used. -/
abbrev entries (t : Cells α) : List α := t.cells.take t.count

def slots (t : Cells α) : Nat := t.cells.length

def read (i : Nat) (t : Cells α) : Except Halt α :=
  match t.cells[i]? with
  | some x => .ok x
  | none => .error .undefined

def write (i : Nat) (x : α) (t : Cells α) : Except Halt (Cells α) :=
  if i < t.slots then .ok { t with block := some (t.cells.set i x) } else .error .undefined

/-- `realloc` to `n` slots. A slot it adds holds what was there before, given by `junk`. -/
def realloc (junk : Nat → α) (n : Nat) (t : Cells α) : Cells α :=
  { t with block := some ((List.range n).map fun i => t.cells.getD i (junk i)) }

/-- `free`, with the pointer set to NULL. -/
def free (t : Cells α) : Cells α := { t with block := none }

/-- The loop over `n` slots from `i` on, to the first that satisfies `p`. -/
def findFrom (p : α → Bool) (t : Cells α) : Nat → Nat → Except Halt (Option Nat)
  | 0, _ => .ok none
  | n + 1, i => do
    let x ← t.read i
    if p x then pure (some i) else findFrom p t n (i + 1)

def find (p : α → Bool) (t : Cells α) : Except Halt (Option Nat) := t.findFrom p t.count 0

/-- Copy each of the `n` slots above `i` into the one below it. -/
def shiftFrom : Nat → Nat → Cells α → Except Halt (Cells α)
  | 0, _, t => .ok t
  | n + 1, i, t => do
    let x ← t.read (i + 1)
    let t ← t.write i x
    shiftFrom n (i + 1) t

/-- Move the entries above `i` down and lower the count. -/
def removeAt (i : Nat) (t : Cells α) : Except Halt (Cells α) := do
  let t ← t.shiftFrom (t.count - 1 - i) i
  pure { t with count := t.count - 1 }

/-- Grow when the count has reached the capacity. -/
def reserve (g : Table.Growth) (junk : Nat → α) (t : Cells α) : Cells α :=
  if t.capacity ≤ t.count then
    { t.realloc junk (g t.capacity t.count).2 with capacity := (g t.capacity t.count).1 }
  else t

/-- Write at the count, look at what was written and raise the count. -/
def push (x : α) (t : Cells α) : Except Halt (Cells α) := do
  let t ← t.write t.count x
  let _ ← t.read t.count
  pure { t with count := t.count + 1 }

/-- Append `x` unless an entry clashes with it; `-1` on a clash. -/
def insert (g : Table.Growth) (clash : α → Bool) (x : α) (junk : Nat → α) (t : Cells α) :
    Except Halt (Int × Cells α) := do
  match ← t.find clash with
  | some _ => pure (-1, t)
  | none =>
    let t ← (t.reserve g junk).push x
    pure (0, t)

/-- Write at the count and raise it, without a look. -/
def put (x : α) (t : Cells α) : Except Halt (Cells α) := do
  let t ← t.write t.count x
  pure { t with count := t.count + 1 }

/-- `insert` without a look at what was written. -/
def enter (g : Table.Growth) (clash : α → Bool) (x : α) (junk : Nat → α) (t : Cells α) :
    Except Halt (Int × Cells α) := do
  match ← t.find clash with
  | some _ => pure (-1, t)
  | none =>
    let t ← (t.reserve g junk).put x
    pure (0, t)

/-! ## Which accesses are in the block -/

/-- The loop over the count stays in the block: the entries are all there, or it ends at one
of those that are. -/
def Walks (p : α → Bool) (t : Cells α) : Prop :=
  t.count ≤ t.slots ∨ ∃ x ∈ t.cells, p x = true

instance decidableWalks (p : α → Bool) (t : Cells α) : Decidable (t.Walks p) :=
  inferInstanceAs (Decidable (_ ∨ _))

variable {t : Cells α}

@[simp] theorem cells_mk (l : List α) (n k : Nat) : (⟨some l, n, k⟩ : Cells α).cells = l := rfl

theorem read_eq {i : Nat} (h : i < t.slots) : t.read i = .ok (t.cells.get ⟨i, h⟩) := by
  rw [read, List.getElem?_eq_getElem h]
  rfl

theorem read_outside {i : Nat} (h : t.slots ≤ i) : t.read i = .error .undefined := by
  rw [read, List.getElem?_eq_none h]

theorem findFrom_eq (p : α → Bool) (n : Nat) {i : Nat} (hi : i ≤ t.slots) :
    t.findFrom p n i =
      match ((t.cells.drop i).take n).findIdx? p with
      | some j => .ok (some (i + j))
      | none => if i + n ≤ t.slots then .ok none else .error .undefined := by
  induction n generalizing i with
  | zero => simp [findFrom, hi]
  | succ n ih =>
    rcases Nat.lt_or_eq_of_le hi with hlt | heq
    · have hdrop : t.cells.drop i = t.cells.get ⟨i, hlt⟩ :: t.cells.drop (i + 1) :=
        List.drop_eq_getElem_cons hlt
      rw [findFrom, read_eq hlt, hdrop, List.take_succ_cons, List.findIdx?_cons]
      cases hp : p (t.cells.get ⟨i, hlt⟩) with
      | true =>
        simp only [bind, Except.bind, hp, if_true]
        rfl
      | false =>
        simp only [bind, Except.bind, hp, Bool.false_eq_true, if_false]
        rw [ih hlt, show i + 1 + n = i + (n + 1) by omega]
        cases ((t.cells.drop (i + 1)).take n).findIdx? p with
        | none => rfl
        | some j => simp [show i + 1 + j = i + (j + 1) by omega]
    · rw [findFrom, read_outside (by omega), List.drop_eq_nil_of_le (Nat.le_of_eq heq.symm),
        List.take_nil, List.findIdx?_nil, if_neg (by omega)]
      rfl

theorem find_eq (p : α → Bool) (t : Cells α) : t.find p =
    match (t.cells.take t.count).findIdx? p with
    | some i => .ok (some i)
    | none => if t.count ≤ t.slots then .ok none else .error .undefined := by
  rw [find, findFrom_eq p t.count (Nat.zero_le _), List.drop_zero, Nat.zero_add]
  cases (t.cells.take t.count).findIdx? p <;> simp

def Stays {β : Type} : Except Halt β → Prop
  | .error .undefined => False
  | _ => True

instance decidableStays {β : Type} : (r : Except Halt β) → Decidable (Stays r)
  | .error .undefined => inferInstanceAs (Decidable False)
  | .error .aborted => inferInstanceAs (Decidable True)
  | .error .blocked => inferInstanceAs (Decidable True)
  | .ok _ => inferInstanceAs (Decidable True)

theorem stays_map {β γ : Type} (f : β → γ) (r : Except Halt β) : Stays (r.map f) ↔ Stays r := by
  cases r with
  | ok b => exact Iff.rfl
  | error e => cases e <;> exact Iff.rfl

/-- Whatever it returns is in `P`. -/
def Yields {β : Type} (P : β → Prop) (r : Except Halt β) : Prop := ∀ b, r = .ok b → P b

theorem Yields.ok {β : Type} {P : β → Prop} {b : β} (h : P b) : Yields P (.ok b) :=
  fun _ hb => by
    cases hb
    exact h

theorem Yields.error {β : Type} {P : β → Prop} {e : Halt} : Yields P (.error e) :=
  fun _ hb => by cases hb

theorem Yields.bind {β γ : Type} {P : β → Prop} {R : γ → Prop} {r : Except Halt β}
    {f : β → Except Halt γ} (hr : Yields P r) (hf : ∀ b, P b → Yields R (f b)) :
    Yields R (r >>= f) := by
  cases r with
  | ok b => exact hf b (hr b rfl)
  | error e => exact .error

theorem Yields.map {β γ : Type} {P : β → Prop} {R : γ → Prop} {r : Except Halt β} {f : β → γ}
    (hr : Yields P r) (hf : ∀ b, P b → R (f b)) : Yields R (r.map f) := by
  cases r with
  | ok b => exact .ok (hf b (hr b rfl))
  | error e => exact .error

theorem Yields.ite {β : Type} {c : Prop} [Decidable c] {P : β → Prop} {x y : Except Halt β}
    (hx : c → Yields P x) (hy : ¬c → Yields P y) : Yields P (if c then x else y) := by
  split
  · exact hx ‹_›
  · exact hy ‹_›

variable {p : α → Bool}

theorem get_of_findIdx? {i : Nat} (h : (t.cells.take t.count).findIdx? p = some i) :
    i < t.count ∧ ∃ hi : i < t.slots, p (t.cells.get ⟨i, hi⟩) = true := by
  obtain ⟨hi, hp, -⟩ := List.findIdx?_eq_some_iff_getElem.mp h
  rw [List.length_take] at hi
  have hslot : i < t.slots := Nat.lt_of_lt_of_le hi (Nat.min_le_right _ _)
  rw [List.getElem_take] at hp
  exact ⟨Nat.lt_of_lt_of_le hi (Nat.min_le_left _ _), hslot, hp⟩

theorem walks_of_some {i : Nat} (h : (t.cells.take t.count).findIdx? p = some i) :
    t.Walks p := by
  obtain ⟨-, hi, hp⟩ := get_of_findIdx? h
  exact .inr ⟨_, List.get_mem _ _, hp⟩

theorem walks_iff_of_none (h : (t.cells.take t.count).findIdx? p = none) :
    t.Walks p ↔ t.count ≤ t.slots := by
  refine ⟨fun hw => ?_, .inl⟩
  obtain hle | ⟨x, hx, hp⟩ := hw
  · exact hle
  · refine Nat.le_of_not_lt fun hlt => ?_
    rw [List.take_of_length_le (Nat.le_of_lt hlt), List.findIdx?_eq_none_iff] at h
    exact absurd hp (by simp [h x hx])

theorem write_eq {i : Nat} {x : α} (h : i < t.slots) :
    t.write i x = .ok { t with block := some (t.cells.set i x) } := if_pos h

theorem write_outside {i : Nat} {x : α} (h : t.slots ≤ i) : t.write i x = .error .undefined :=
  if_neg (Nat.not_lt.mpr h)

@[simp] theorem slots_set (t : Cells α) (i : Nat) (x : α) :
    ({ t with block := some (t.cells.set i x) } : Cells α).slots = t.slots := List.length_set

theorem count_write {i : Nat} {x : α} {u : Cells α} (h : t.write i x = .ok u) :
    u.count = t.count := by
  rw [write] at h
  split at h <;> cases h
  rfl

/-- **An append** is in the block if there is a slot for it. -/
theorem push_eq {x : α} (h : t.count < t.slots) :
    t.push x = .ok ⟨some (t.cells.set t.count x), t.count + 1, t.capacity⟩ := by
  rw [push, write_eq h]
  have hread : ({ t with block := some (t.cells.set t.count x) } : Cells α).read t.count =
      .ok x := by
    have hget : (t.cells.set t.count x)[t.count]? = some x := List.getElem?_set_self h
    rw [read, cells_mk, hget]
  simp only [bind, Except.bind, hread, pure, Except.pure]

theorem push_outside {x : α} (h : t.slots ≤ t.count) : t.push x = .error .undefined := by
  rw [push, write_outside h]
  rfl

theorem put_eq (x : α) (t : Cells α) : t.put x = t.push x := by
  rw [put]
  by_cases h : t.count < t.slots
  · rw [push_eq h, write_eq h]
    rfl
  · rw [push_outside (Nat.le_of_not_lt h), write_outside (Nat.le_of_not_lt h)]
    rfl

theorem enter_eq (g : Table.Growth) (clash : α → Bool) (x : α) (junk : Nat → α) (t : Cells α) :
    t.enter g clash x junk = t.insert g clash x junk := by
  simp only [enter, insert, put_eq]

@[simp] theorem slots_realloc (junk : Nat → α) (n : Nat) : (t.realloc junk n).slots = n := by
  simp [slots, cells, realloc]

/-- The block after `n` entries were moved down to `i`. -/
def shifted (n i : Nat) (l : List α) : List α :=
  l.take i ++ (l.drop (i + 1)).take n ++ l.drop (i + n)

theorem shiftFrom_succ {n i : Nat} (h : i + 1 < t.slots) : t.shiftFrom (n + 1) i =
    shiftFrom n (i + 1) { t with block := some (t.cells.set i (t.cells.get ⟨i + 1, h⟩)) } := by
  rw [shiftFrom, read_eq h]
  simp only [bind, Except.bind]
  rw [write_eq (Nat.lt_of_succ_lt h)]

theorem shifted_succ {n i : Nat} {l : List α} (h : i + 1 < l.length) :
    shifted n (i + 1) (l.set i (l.get ⟨i + 1, h⟩)) = shifted (n + 1) i l := by
  have htake : (l.set i (l.get ⟨i + 1, h⟩)).take (i + 1) = l.take i ++ [l.get ⟨i + 1, h⟩] := by
    rw [List.take_succ_eq_append_getElem (by simp; omega), List.take_set_of_le (Nat.le_refl i)]
    simp
  have hdrop : l.drop (i + 1) = l.get ⟨i + 1, h⟩ :: l.drop (i + 1 + 1) :=
    List.drop_eq_getElem_cons h
  rw [shifted, shifted, htake, List.drop_set_of_lt (by omega), List.drop_set_of_lt (by omega),
    hdrop, List.take_succ_cons, show i + (n + 1) = i + 1 + n by omega]
  simp

theorem shiftFrom_eq {n i : Nat} (hi : i < t.slots) (h : i + n < t.slots) :
    t.shiftFrom n i = .ok { t with block := some (shifted n i t.cells) } := by
  induction n generalizing t i with
  | zero =>
    obtain ⟨block, count, capacity⟩ := t
    cases block with
    | none => exact absurd hi (Nat.not_lt_zero i)
    | some l => simp [shiftFrom, shifted, cells]
  | succ n ih =>
    have hslots : ({ t with block := some (t.cells.set i (t.cells.get ⟨i + 1, by
        rw [← slots]; omega⟩)) } : Cells α).slots = t.slots := List.length_set
    rw [shiftFrom_succ (by omega), ih (by omega) (by omega)]
    exact congrArg (fun l => Except.ok { t with block := some l }) (shifted_succ _)

theorem length_shifted {n i : Nat} {l : List α} (h : i + n < l.length) :
    (shifted n i l).length = l.length := by
  simp only [shifted, List.length_append, List.length_take, List.length_drop]
  omega

theorem shiftFrom_outside {n i : Nat} (hi : i < t.slots) (h : t.slots ≤ i + n) :
    t.shiftFrom n i = .error .undefined := by
  induction n generalizing t i with
  | zero => omega
  | succ n ih =>
    by_cases hnext : i + 1 < t.slots
    · have hslots : ({ t with block := some (t.cells.set i (t.cells.get ⟨i + 1, hnext⟩)) } :
          Cells α).slots = t.slots := List.length_set
      rw [shiftFrom_succ hnext]
      exact ih (by omega) (by omega)
    · rw [shiftFrom, read_outside (by omega)]
      rfl

/-- **A removal** is in the block if all entries are. -/
theorem removeAt_eq {i : Nat} (hi : i < t.count) (h : t.count ≤ t.slots) : t.removeAt i =
    .ok ⟨some (shifted (t.count - 1 - i) i t.cells), t.count - 1, t.capacity⟩ := by
  rw [removeAt, shiftFrom_eq (by omega) (by omega)]
  rfl

theorem removeAt_outside {i : Nat} (hi : i < t.slots) (h : t.slots < t.count) :
    t.removeAt i = .error .undefined := by
  rw [removeAt, shiftFrom_outside hi (by omega)]
  rfl

section insertion

variable {g : Table.Growth} {junk : Nat → α} {clash : α → Bool} {x : α}

theorem reserve_of_room (h : t.count < t.capacity) : t.reserve g junk = t :=
  if_neg (Nat.not_le.mpr h)

theorem reserve_of_full (h : t.capacity ≤ t.count) : t.reserve g junk =
    { t.realloc junk (g t.capacity t.count).2 with capacity := (g t.capacity t.count).1 } :=
  if_pos h

@[simp] theorem count_reserve : (t.reserve g junk).count = t.count := by
  unfold reserve
  split <;> rfl

theorem reserve_full (hg : g.Safe) (hcap : t.capacity = t.count) :
    t.count < (t.reserve g junk).capacity ∧
      (t.reserve g junk).capacity ≤ (t.reserve g junk).slots := by
  rw [reserve_of_full (Nat.le_of_eq hcap), hcap]
  have hslots : ∀ k, ({ t.realloc junk (g t.count t.count).2 with capacity := k } : Cells α).slots =
      (g t.count t.count).2 := fun _ => slots_realloc junk _
  rw [hslots]
  exact hg t.count

theorem lt_capacity_reserve (hg : g.Safe) (hcap : t.count ≤ t.capacity) :
    t.count < (t.reserve g junk).capacity := by
  rcases Nat.lt_or_eq_of_le hcap with hlt | heq
  · rwa [reserve_of_room hlt]
  · exact (reserve_full hg heq.symm).1

theorem lt_slots_reserve_iff (hg : g.Safe) (hcap : t.count ≤ t.capacity) :
    t.count < (t.reserve g junk).slots ↔ t.count = t.capacity ∨ t.count < t.slots := by
  rcases Nat.lt_or_eq_of_le hcap with hlt | heq
  · rw [reserve_of_room hlt]
    omega
  · obtain ⟨h₁, h₂⟩ := @reserve_full α t g junk hg heq.symm
    exact iff_of_true (by omega) (.inl heq)

theorem insert_eq (t : Cells α) : t.insert g clash x junk =
    match (t.cells.take t.count).findIdx? clash with
    | some _ => .ok (-1, t)
    | none =>
      if t.count ≤ t.slots then ((t.reserve g junk).push x).map fun t' => (0, t')
      else .error .undefined := by
  rw [insert, find_eq]
  cases (t.cells.take t.count).findIdx? clash with
  | some i => rfl
  | none =>
    by_cases hle : t.count ≤ t.slots
    · simp only [hle, if_true, bind, Except.bind]
      cases (t.reserve g junk).push x <;> rfl
    · simp only [hle, if_false, bind, Except.bind]

/-- **An insertion** is in the block if the loop is, and, unless it finds a clash, the table
is full or has a slot left. -/
theorem stays_insert (hg : g.Safe) (hcap : t.count ≤ t.capacity) :
    Stays (t.insert g clash x junk) ↔ t.Walks clash ∧
      ((∃ y ∈ t.cells.take t.count, clash y = true) ∨ t.count = t.capacity ∨
        t.count < t.slots) := by
  rw [insert_eq]
  cases h : (t.cells.take t.count).findIdx? clash with
  | some i =>
    obtain ⟨hi, hp, -⟩ := List.findIdx?_eq_some_iff_getElem.mp h
    exact iff_of_true trivial ⟨walks_of_some h, .inl ⟨_, List.getElem_mem hi, hp⟩⟩
  | none =>
    have hno : ¬∃ y ∈ t.cells.take t.count, clash y = true := by
      rintro ⟨y, hy, hclash⟩
      exact absurd hclash (by simp [List.findIdx?_eq_none_iff.mp h y hy])
    rw [walks_iff_of_none h, or_iff_right hno, ← @lt_slots_reserve_iff α t g junk hg hcap]
    by_cases hle : t.count ≤ t.slots
    · rw [if_pos hle, and_iff_right hle]
      by_cases hlt : t.count < (t.reserve g junk).slots
      · rw [push_eq (by rwa [count_reserve])]
        exact iff_of_true trivial hlt
      · rw [push_outside (by rw [count_reserve]; omega)]
        exact iff_of_false id hlt
    · rw [if_neg hle]
      exact iff_of_false id fun h => hle h.1

/-- What an insertion leaves. -/
theorem insert_ok {rc : Int} {t' : Cells α} (h : t.insert g clash x junk = .ok (rc, t')) :
    rc = -1 ∧ t' = t ∨ rc = 0 ∧ ∃ l, t' = ⟨some l, t.count + 1, (t.reserve g junk).capacity⟩ ∧
      l.length = (t.reserve g junk).slots ∧ t.count < l.length := by
  rw [insert_eq] at h
  split at h
  · cases h
    exact .inl ⟨rfl, rfl⟩
  · split at h
    · by_cases hlt : (t.reserve g junk).count < (t.reserve g junk).slots
      · have hlen : ∀ y, ((t.reserve g junk).cells.set (t.reserve g junk).count y).length =
            (t.reserve g junk).slots := fun _ => List.length_set
        rw [push_eq hlt] at h
        cases h
        rw [count_reserve] at hlt
        exact .inr ⟨rfl, _, by rw [count_reserve], hlen x, by rwa [hlen]⟩
      · rw [push_outside (by omega)] at h
        cases h
    · cases h

end insertion

theorem find_cases (p : α → Bool) (t : Cells α) :
    (∃ i, t.find p = .ok (some i) ∧ i < t.count ∧ ∃ hi : i < t.slots,
      p (t.cells.get ⟨i, hi⟩) = true) ∨
    (t.find p = .ok none ∧ t.count ≤ t.slots) ∨
    (t.find p = .error .undefined ∧ t.slots < t.count ∧ ¬t.Walks p) := by
  rw [find_eq]
  cases h : (t.cells.take t.count).findIdx? p with
  | some i => exact .inl ⟨i, rfl, get_of_findIdx? h⟩
  | none =>
    by_cases hle : t.count ≤ t.slots
    · exact .inr (.inl ⟨if_pos hle, hle⟩)
    · exact .inr (.inr ⟨if_neg hle, Nat.lt_of_not_le hle, fun hw =>
        hle ((walks_iff_of_none h).mp hw)⟩)

theorem yields_find (p : α → Bool) (t : Cells α) :
    Yields (fun o => ∀ i ∈ o, i < t.count ∧ i < t.slots) (t.find p) := by
  rcases find_cases p t with ⟨i, hfind, hi, hslot, -⟩ | ⟨hfind, -⟩ | ⟨hfind, -⟩
  · rw [hfind]
    exact .ok fun j hj => by
      cases hj
      exact ⟨hi, hslot⟩
  · rw [hfind]
    exact .ok nofun
  · rw [hfind]
    exact .error

theorem yields_removeAt {i : Nat} (hi : i < t.count) (hslot : i < t.slots) :
    Yields (fun t' => t'.count = t.count - 1 ∧ t'.capacity = t.capacity ∧ t'.slots = t.slots ∧
      t'.block ≠ none) (t.removeAt i) := by
  by_cases hle : t.count ≤ t.slots
  · rw [removeAt_eq hi hle]
    have hlast : i + (t.count - 1 - i) < t.cells.length := by
      change _ < t.slots
      omega
    exact .ok ⟨rfl, rfl, length_shifted hlast, nofun⟩
  · rw [removeAt_outside hslot (Nat.lt_of_not_le hle)]
    exact .error

/-! ## A capacity that was allocated -/

/-- The capacity is within the slots, and the count within the capacity. -/
structure Backed (t : Cells α) : Prop where
  le_capacity : t.count ≤ t.capacity
  le_slots : t.capacity ≤ t.slots

namespace Backed

theorem find (h : t.Backed) (p : α → Bool) : t.find p = .ok none ∨
    ∃ i, t.find p = .ok (some i) ∧ i < t.count ∧ i < t.slots := by
  rcases find_cases p t with ⟨i, hfind, hi, hslot, -⟩ | ⟨hfind, -⟩ | ⟨-, hlt, -⟩
  · exact .inr ⟨i, hfind, hi, hslot⟩
  · exact .inl hfind
  · have := Nat.le_trans h.le_capacity h.le_slots
    omega

theorem set (h : t.Backed) (i : Nat) (x : α) :
    ({ t with block := some (t.cells.set i x) } : Cells α).Backed :=
  ⟨h.le_capacity, Nat.le_trans h.le_slots (Nat.le_of_eq List.length_set.symm)⟩

theorem reserve (h : t.Backed) {g : Table.Growth} (hg : g.Safe) (junk : Nat → α) :
    (t.reserve g junk).Backed ∧ (t.reserve g junk).count < (t.reserve g junk).capacity := by
  have hlt := @lt_capacity_reserve α t g junk hg h.le_capacity
  rw [count_reserve]
  refine ⟨⟨by rw [count_reserve]; omega, ?_⟩, hlt⟩
  rcases Nat.lt_or_eq_of_le h.le_capacity with hroom | hfull
  · rw [reserve_of_room hroom]
    exact h.le_slots
  · exact (reserve_full hg hfull.symm).2

theorem push (h : t.Backed) (hlt : t.count < t.capacity) (x : α) :
    ∃ t', t.push x = .ok t' ∧ t'.Backed ∧ t'.block ≠ none :=
  ⟨_, push_eq (Nat.lt_of_lt_of_le hlt h.le_slots),
    ⟨hlt, Nat.le_trans h.le_slots (Nat.le_of_eq List.length_set.symm)⟩, nofun⟩

theorem removeAt (h : t.Backed) {i : Nat} (hi : i < t.count) :
    ∃ t', t.removeAt i = .ok t' ∧ t'.Backed ∧ t'.block ≠ none := by
  have hle := Nat.le_trans h.le_capacity h.le_slots
  have hlast : i + (t.count - 1 - i) < t.cells.length := by
    change _ < t.slots
    omega
  exact ⟨_, removeAt_eq hi hle, ⟨Nat.le_trans (Nat.sub_le _ _) h.le_capacity,
    Nat.le_trans h.le_slots (Nat.le_of_eq (length_shifted hlast).symm)⟩, nofun⟩

end Backed

/-! ## The entries -/

structure Shows (t : Cells α) (u : Table α) : Prop where
  items : t.cells.take t.count = u.items
  count : t.count = u.items.length
  capacity : t.capacity = u.capacity
  slots : t.slots = u.slots

/-- Two runs that end alike, with what `R` relates. -/
def Agrees {β γ : Type} (R : β → γ → Prop) : Except Halt β → Except Halt γ → Prop
  | .ok b, .ok c => R b c
  | .error e, .error e' => e = e'
  | _, _ => False

theorem Agrees.foldlM {β γ δ : Type} {R : β → γ → Prop} {f : β → δ → Except Halt β}
    {g : γ → δ → Except Halt γ} (hstep : ∀ {b y}, R b y → ∀ x, Agrees R (f b x) (g y x))
    (l : List δ) : ∀ {b : β} {y : γ}, R b y → Agrees R (l.foldlM f b) (l.foldlM g y) := by
  induction l with
  | nil => exact fun h => h
  | cons x l ih =>
    intro b y h
    have hx := hstep h x
    rw [List.foldlM_cons, List.foldlM_cons]
    cases hf : f b x <;> cases hg : g y x <;> rw [hf, hg] at hx
    · exact hx
    · exact hx.elim
    · exact hx.elim
    · exact ih hx

theorem Agrees.orAbort {β γ : Type} {R : β → γ → Prop} {r : Except Halt (Int × β)}
    {r' : Except Halt (Int × γ)} (h : Agrees (fun a b => a.1 = b.1 ∧ R a.2 b.2) r r') :
    Agrees R (orAbort r) (orAbort r') := by
  cases r <;> cases r'
  · exact h
  · exact h.elim
  · exact h.elim
  · rename_i a b
    obtain ⟨hrc, hR⟩ := h
    simp only [Clib.orAbort, bind, Except.bind, hrc]
    split
    · exact rfl
    · exact hR

theorem shows_entries (h : t.count ≤ t.slots) : t.Shows ⟨t.entries, t.capacity, t.slots,
    List.length_take_le' _ _⟩ where
  items := rfl
  count := (List.length_take_of_le h).symm
  capacity := rfl
  slots := rfl

namespace Shows

variable {u : Table α}

theorem le_slots (h : t.Shows u) : t.count ≤ t.slots := by
  rw [h.count, h.slots]
  exact u.inBlock

theorem find (h : t.Shows u) (p : α → Bool) : t.find p = .ok (u.items.findIdx? p) := by
  rw [find_eq, h.items, if_pos h.le_slots]
  cases u.items.findIdx? p <;> rfl

theorem realloc (h : t.Shows u) (junk : Nat → α) {k n : Nat} (hn : u.items.length ≤ n) :
    ({ t.realloc junk n with capacity := k } : Cells α).Shows ⟨u.items, k, n, hn⟩ where
  items := by
    rw [← h.items]
    refine List.ext_getElem? fun i => ?_
    simp only [Cells.realloc, cells_mk, List.getElem?_take]
    split
    · rename_i hi
      have hslot : i < t.cells.length := Nat.lt_of_lt_of_le hi h.le_slots
      have hrange : i < n := by have := h.count; omega
      simp [hrange, List.getElem?_eq_getElem hslot]
    · rfl
  count := h.count
  capacity := rfl
  slots := slots_realloc junk n

theorem push (h : t.Shows u) (x : α) :
    Agrees Shows (t.push x) (u.push x) := by
  by_cases hlt : t.count < t.slots
  · have hlt' : u.items.length < u.slots := by rwa [← h.count, ← h.slots]
    rw [push_eq hlt, Table.push_eq hlt']
    refine ⟨?_, ?_, h.capacity, ?_⟩
    · have hlen : t.count < (t.cells.set t.count x).length := by rwa [List.length_set]
      rw [cells_mk, List.take_succ_eq_append_getElem hlen, List.take_set_of_le (Nat.le_refl _),
        List.getElem_set_self, h.items]
    · simp [h.count]
    · exact List.length_set.trans h.slots
  · rw [push_outside (by omega), Table.push, dif_neg (by rw [← h.count, ← h.slots]; omega)]
    rfl

theorem reserve (h : t.Shows u) {g : Table.Growth} (junk : Nat → α)
    (hg : u.capacity ≤ u.items.length → u.items.length ≤ (g u.capacity u.items.length).2) :
    ∃ u', u.reserve g = .ok u' ∧ (t.reserve g junk).Shows u' := by
  rw [Table.reserve]
  by_cases hfull : u.capacity ≤ u.items.length
  · rw [if_pos hfull, Table.realloc_eq (hg hfull), reserve_of_full (by rwa [h.capacity, h.count]),
      h.capacity, h.count]
    exact ⟨_, rfl, h.realloc junk (hg hfull)⟩
  · rw [if_neg hfull, reserve_of_room (by rw [h.capacity, h.count]; omega)]
    exact ⟨u, rfl, h⟩

theorem append (h : t.Shows u) (g : Table.Growth) (junk : Nat → α) (x : α) :
    Agrees Shows ((t.reserve g junk).push x) (u.append g x) := by
  rw [Table.append]
  by_cases hg : u.capacity ≤ u.items.length → u.items.length ≤ (g u.capacity u.items.length).2
  · obtain ⟨u', hu', hshows⟩ := h.reserve junk hg
    rw [hu']
    exact hshows.push x
  · -- the block was cut below its entries
    obtain ⟨hfull, hcut⟩ := Classical.not_imp.mp hg
    have hcount := h.count
    have hslots := slots_realloc (t := t) junk (g u.capacity u.items.length).2
    rw [Table.reserve, if_pos hfull, Table.realloc, dif_neg hcut,
      reserve_of_full (by rwa [h.capacity, h.count]), h.capacity, h.count, push_outside]
    · rfl
    · change (t.realloc junk (g u.capacity u.items.length).2).slots ≤ t.count
      omega

theorem insert (h : t.Shows u) (g : Table.Growth) (clash : α → Bool) (junk : Nat → α) (x : α) :
    Agrees (fun a b => a.1 = b.1 ∧ a.2.Shows b.2) (t.insert g clash x junk)
      (u.insert g clash x) := by
  rw [insert_eq, h.items, if_pos h.le_slots]
  cases hfind : u.items.findIdx? clash with
  | some i =>
    obtain ⟨hi, hp, -⟩ := List.findIdx?_eq_some_iff_getElem.mp hfind
    rw [Table.insert_of_clash (List.any_eq_true.mpr ⟨_, List.getElem_mem hi, hp⟩)]
    exact ⟨rfl, h⟩
  | none =>
    rw [Table.insert_of_fresh (List.any_eq_false.mpr fun y hy => by
      simp [List.findIdx?_eq_none_iff.mp hfind y hy])]
    have happend := h.append g junk x
    cases ht : (t.reserve g junk).push x <;> cases hu : u.append g x <;>
      rw [ht, hu] at happend
    · exact happend
    · exact happend.elim
    · exact happend.elim
    · exact ⟨rfl, happend⟩

theorem free (h : t.count = 0) (k : Nat) :
    ({ t.free with capacity := k } : Cells α).Shows (.blank k 0) :=
  ⟨List.take_nil, h, rfl, rfl⟩

theorem isEmpty_iff (h : t.Shows u) : t.count = 0 ↔ u.items.isEmpty = true := by
  rw [h.count, List.isEmpty_iff, List.length_eq_zero_iff]

theorem freeEmpty (h : t.Shows u) : (if t.count = 0 then t.free else t).Shows
    (if u.items.isEmpty then .blank u.capacity 0 else u) := by
  by_cases hzero : t.count = 0
  · rw [if_pos hzero, if_pos (h.isEmpty_iff.mp hzero), ← h.capacity]
    exact Shows.free hzero t.capacity
  · rw [if_neg hzero, if_neg (mt h.isEmpty_iff.mpr hzero)]
    exact h

theorem isNone_eq_false (h : t.Shows u) {p : α → Bool} {i : Nat}
    (hi : u.items.findIdx? p = some i) : t.block.isNone = false := by
  obtain ⟨hlt, -⟩ := List.findIdx?_eq_some_iff_getElem.mp hi
  have hpos : 0 < t.slots := by
    have hle := h.le_slots
    have hcount := h.count
    omega
  cases hblock : t.block with
  | none =>
    rw [Cells.slots, Cells.cells, hblock] at hpos
    exact absurd hpos (Nat.not_lt_zero _)
  | some l => rfl

/-- The entries after a removal. -/
theorem removeAt (h : t.Shows u) {p : α → Bool} {i : Nat} (hi : u.items.findIdx? p = some i) :
    ∃ t', t.removeAt i = .ok t' ∧ t'.count = t.count - 1 ∧
      t'.Shows ⟨u.items.eraseP p, u.capacity, u.slots,
        Nat.le_trans List.length_eraseP_le u.inBlock⟩ := by
  have hlt : i < t.count := by
    obtain ⟨hlt, -, -⟩ := List.findIdx?_eq_some_iff_getElem.mp hi
    rwa [h.count]
  have hle := h.le_slots
  have herase : u.items.eraseP p = u.items.eraseIdx i := by rw [List.eraseP_eq_eraseIdx, hi]
  have hlen : (t.cells.take i ++ (t.cells.drop (i + 1)).take (t.count - 1 - i)).length =
      t.count - 1 := by
    have : t.cells.length = t.slots := rfl
    simp only [List.length_append, List.length_take, List.length_drop]
    omega
  refine ⟨_, removeAt_eq hlt hle, rfl, ?_, ?_, h.capacity, ?_⟩
  · simp only [cells_mk, shifted]
    rw [List.take_left' hlen, herase, ← h.items, List.eraseIdx_eq_take_drop_succ, List.take_take,
      List.drop_take, Nat.min_eq_left (Nat.le_of_lt hlt), show t.count - (i + 1) =
      t.count - 1 - i by omega]
  · simp only [herase, List.length_eraseIdx, ← h.count, if_pos hlt]
  · have hlast : i + (t.count - 1 - i) < t.cells.length := by
      change _ < t.slots
      omega
    exact (length_shifted hlast).trans h.slots

/-- The entries after one of them was changed in place. -/
theorem update (h : t.Shows u) {p : α → Bool} {i : Nat} (hi : u.items.findIdx? p = some i)
    (f : α → α) : ∃ x, t.read i = .ok x ∧ ∃ t', t.write i (f x) = .ok t' ∧
      t'.Shows (u.mapItems (Table.updateFirst p f) (Table.length_updateFirst p f _)) := by
  obtain ⟨hlt, hp, -⟩ := List.findIdx?_eq_some_iff_getElem.mp hi
  obtain ⟨x, hx⟩ := Option.isSome_iff_exists.mp
    (List.find?_isSome.mpr ⟨_, List.getElem_mem hlt, hp⟩)
  obtain ⟨j, hj, hget, hmodify⟩ := Table.exists_findIdx? hx
  obtain rfl : i = j := Option.some_inj.mp (hi.symm.trans hj)
  have hcount : i < t.count := by rwa [h.count]
  have hslot : i < t.slots := Nat.lt_of_lt_of_le hcount h.le_slots
  have hset : u.items.modify i f = u.items.set i (f x) := by
    refine List.ext_getElem? fun k => ?_
    rw [List.getElem?_modify, List.getElem?_set]
    by_cases hk : i = k
    · subst hk
      rw [if_pos rfl, if_pos hlt, hget]
      simp
    · simp [hk]
  rw [← h.items, List.getElem?_take_of_lt hcount] at hget
  refine ⟨x, by rw [read, hget], _, write_eq hslot, ?_, ?_, h.capacity, ?_⟩
  · simp only [Table.mapItems, ← hmodify, hset, cells_mk, List.take_set, h.items]
  · simp [Table.mapItems, h.count]
  · exact List.length_set.trans h.slots

end Shows

/-! ## Another view of the slots -/

/-- The array with each slot seen through `f`. -/
def map {β : Type} (f : α → β) (t : Cells α) : Cells β :=
  ⟨t.block.map (List.map f), t.count, t.capacity⟩

section map

variable {β : Type} (f : α → β)

@[simp] theorem cells_map (t : Cells α) : (t.map f).cells = t.cells.map f := by
  cases hblock : t.block <;> simp [map, cells, hblock]

@[simp] theorem slots_map (t : Cells α) : (t.map f).slots = t.slots := by simp [slots]

theorem read_map (t : Cells α) (i : Nat) : (t.map f).read i = (t.read i).map f := by
  rw [read, read, cells_map, List.getElem?_map]
  cases t.cells[i]? <;> rfl

theorem write_map (t : Cells α) (i : Nat) (x : α) :
    (t.map f).write i (f x) = (t.write i x).map (map f) := by
  rw [write, write, slots_map, cells_map]
  split
  · simp only [Except.map, map, Option.map_some, List.map_set]
  · rfl

theorem find_map (t : Cells α) (p : β → Bool) : (t.map f).find p = t.find (fun x => p (f x)) := by
  rw [find_eq, find_eq, cells_map, slots_map]
  simp only [map, ← List.map_take, List.findIdx?_map, Function.comp_def]
  cases (t.cells.take t.count).findIdx? fun x => p (f x) <;> rfl

theorem shiftFrom_map (n i : Nat) (t : Cells α) :
    (t.map f).shiftFrom n i = (t.shiftFrom n i).map (map f) := by
  induction n generalizing t i with
  | zero => rfl
  | succ n ih =>
    rw [shiftFrom, shiftFrom, read_map]
    cases t.read (i + 1) with
    | error e => rfl
    | ok x =>
      simp only [Except.map, bind, Except.bind, write_map]
      cases t.write i x with
      | error e => rfl
      | ok u => exact ih (i + 1) u

theorem removeAt_map (t : Cells α) (i : Nat) :
    (t.map f).removeAt i = (t.removeAt i).map (map f) := by
  rw [removeAt, removeAt, shiftFrom_map, show (t.map f).count = t.count from rfl]
  cases t.shiftFrom (t.count - 1 - i) i <;> rfl

end map

end Cells

end Clib
