import Mathlib.Data.List.Basic
import Mathlib.Tactic.Common
import Mathlib.Logic.Function.Basic
import Mathlib.Algebra.Group.Nat.Defs

/-!
# Address ranges and byte memories

A `Range` is a run of addresses; two ranges are `Apart` when they share none. A `Mem` maps
an address to its byte, or to `none` where nothing is mapped. A word is stored with its
low byte first: `loadLE_storeLE` reads it back, `loadLE_congr` says which bytes a load
depends on. Memory is mapped and unmapped in pages, `span n` bytes for a request of `n`.
-/

namespace Clib

/-- The addresses `base ≤ x < base + size`. -/
structure Range where
  base : Nat
  size : Nat
  deriving DecidableEq, Repr

namespace Range

def Has (r : Range) (x : Nat) : Prop := r.base ≤ x ∧ x < r.base + r.size

def Within (r r' : Range) : Prop := r'.base ≤ r.base ∧ r.base + r.size ≤ r'.base + r'.size

def Apart (r r' : Range) : Prop := r.base + r.size ≤ r'.base ∨ r'.base + r'.size ≤ r.base

instance (r : Range) (x : Nat) : Decidable (r.Has x) :=
  inferInstanceAs (Decidable (r.base ≤ x ∧ x < r.base + r.size))

instance (r r' : Range) : Decidable (r.Within r') :=
  inferInstanceAs (Decidable (r'.base ≤ r.base ∧ r.base + r.size ≤ r'.base + r'.size))

instance (r r' : Range) : Decidable (r.Apart r') :=
  inferInstanceAs (Decidable (r.base + r.size ≤ r'.base ∨ r'.base + r'.size ≤ r.base))

theorem Within.refl (r : Range) : r.Within r := ⟨Nat.le_refl _, Nat.le_refl _⟩

theorem Within.trans {r s t : Range} (h : r.Within s) (h' : s.Within t) : r.Within t :=
  ⟨Nat.le_trans h'.1 h.1, Nat.le_trans h.2 h'.2⟩

theorem Within.has {r s : Range} (h : r.Within s) {x : Nat} (hx : r.Has x) : s.Has x :=
  ⟨Nat.le_trans h.1 hx.1, Nat.lt_of_lt_of_le hx.2 h.2⟩

theorem Apart.symm {r s : Range} (h : r.Apart s) : s.Apart r := Or.symm h

theorem Apart.mono {r r' s s' : Range} (h : r.Apart s) (hr : r'.Within r) (hs : s'.Within s) :
    r'.Apart s' := by
  unfold Apart Within at *
  omega

theorem Apart.not_has {r s : Range} (h : r.Apart s) {x : Nat} (hx : r.Has x) : ¬s.Has x := by
  unfold Apart Has at *
  omega

theorem apart_of_not_has {r s : Range} (hr : 0 < r.size) (hs : 0 < s.size)
    (h : ∀ x, r.Has x → ¬s.Has x) : r.Apart s := by
  have hleft := h r.base
  have hright := h s.base
  unfold Has Apart at *
  omega

def part (r : Range) : List Range := if 0 < r.size then [r] else []

/-- What is left of `r` when `u` is taken away. -/
def cut (u r : Range) : List Range :=
  part ⟨r.base, min r.size (u.base - r.base)⟩ ++
    part ⟨max r.base (u.base + u.size), r.base + r.size - max r.base (u.base + u.size)⟩

theorem part_of_pos {r : Range} (h : 0 < r.size) : part r = [r] := if_pos h

theorem part_of_zero {r : Range} (h : r.size = 0) : part r = [] :=
  if_neg (h ▸ Nat.lt_irrefl 0)

theorem cut_of_within {u r : Range} (h : r.Within u) : cut u r = [] := by
  obtain ⟨hbase, hend⟩ := h
  rw [cut, part_of_zero, part_of_zero]
  · rfl
  · simp only []
    omega
  · simp only []
    omega

theorem cut_of_apart {u r : Range} (h : u.Apart r) (hr : 0 < r.size) : cut u r = [r] := by
  unfold Apart at h
  rcases h with h | h
  · have hleft : min r.size (u.base - r.base) = 0 := by omega
    have hright : max r.base (u.base + u.size) = r.base := by omega
    rw [cut, part_of_zero hleft, hright, Nat.add_sub_cancel_left, part_of_pos hr]
    rfl
  · have hleft : min r.size (u.base - r.base) = r.size := by omega
    have hright : r.base + r.size - max r.base (u.base + u.size) = 0 := by omega
    rw [cut, hleft, part_of_pos hr, part_of_zero hright]
    rfl

/-- **Taking one range away** where the others are apart from it. -/
theorem flatMap_cut {u r : Range} (hr : r.Within u) {l : List Range}
    (h : ∀ r' ∈ l, r' = r ∨ (0 < r'.size ∧ u.Apart r')) (hne : 0 < r.size) :
    l.flatMap (cut u) = l.filter fun r' => decide (r' ≠ r) := by
  induction l with
  | nil => rfl
  | cons r' l ih =>
    have hrest := ih fun s hs => h s (List.mem_cons_of_mem _ hs)
    rw [List.flatMap_cons, hrest]
    rcases h r' List.mem_cons_self with rfl | ⟨hpos, hapart⟩
    · rw [cut_of_within hr, List.filter_cons_of_neg (by simp)]
      rfl
    · have hdiff : r' ≠ r := by
        rintro rfl
        exact hapart.not_has (x := r'.base) (hr.has ⟨Nat.le_refl _, by omega⟩)
          ⟨Nat.le_refl _, by omega⟩
      rw [cut_of_apart hapart hpos, List.filter_cons_of_pos (by simp [hdiff])]
      rfl

end Range

/-! ## Memories -/

/-- The byte at each address; `none` where nothing is mapped. -/
abbrev Mem := Nat → Option UInt8

namespace Mem

def write (m : Mem) (x : Nat) (b : UInt8) : Mem := Function.update m x (some b)

def Mapped (m : Mem) (r : Range) : Prop := ∀ i < r.size, (m (r.base + i)).isSome

instance (m : Mem) (r : Range) : Decidable (m.Mapped r) :=
  inferInstanceAs (Decidable (∀ i < r.size, (m (r.base + i)).isSome))

/-- The range as `mmap` hands it out. -/
def zeroed (m : Mem) (r : Range) : Mem := fun x => if r.Has x then some 0 else m x

def unmapped (m : Mem) (r : Range) : Mem := fun x => if r.Has x then none else m x

/-- `n` bytes from `src` on, written from `dst` on. -/
def copy (m : Mem) (dst src n : Nat) : Mem := fun x =>
  if Range.Has ⟨dst, n⟩ x then m (src + (x - dst)) else m x

theorem mapped_iff {m : Mem} {r : Range} : m.Mapped r ↔ ∀ x, r.Has x → (m x).isSome := by
  constructor
  · rintro h x ⟨hle, hlt⟩
    have := h (x - r.base) (by omega)
    rwa [Nat.add_sub_cancel' hle] at this
  · exact fun h i hi => h _ ⟨Nat.le_add_right _ _, by omega⟩

theorem Mapped.mono {m : Mem} {r r' : Range} (h : m.Mapped r) (hle : r'.Within r) :
    m.Mapped r' :=
  mapped_iff.mpr fun x hx => mapped_iff.mp h x (hle.has hx)

theorem Mapped.congr {m m' : Mem} {r : Range} (h : m.Mapped r)
    (hsome : ∀ x, r.Has x → (m x).isSome → (m' x).isSome) : m'.Mapped r :=
  mapped_iff.mpr fun x hx => hsome x hx (mapped_iff.mp h x hx)

theorem mapped_zeroed (m : Mem) (r : Range) : (m.zeroed r).Mapped r :=
  mapped_iff.mpr fun x hx => by rw [zeroed, if_pos hx]; rfl

theorem zeroed_of_not_has {m : Mem} {r : Range} {x : Nat} (h : ¬r.Has x) :
    m.zeroed r x = m x := if_neg h

theorem copy_of_not_has {m : Mem} {dst src n x : Nat} (h : ¬Range.Has ⟨dst, n⟩ x) :
    m.copy dst src n x = m x := if_neg h

theorem copy_has {m : Mem} {dst src n i : Nat} (h : i < n) :
    m.copy dst src n (dst + i) = m (src + i) := by
  rw [copy, if_pos ⟨Nat.le_add_right _ _, by simpa using h⟩, Nat.add_sub_cancel_left]

/-! ## Words -/

/-- `n` bytes of `v` from `p` on, the low one first. -/
def storeLE : Nat → Mem → Nat → Nat → Mem
  | 0, m, _, _ => m
  | n + 1, m, p, v => storeLE n (m.write p (UInt8.ofNat v)) (p + 1) (v / 256)

/-- The number in `n` bytes from `p` on; `none` where one of them is not mapped. -/
def loadLE : Nat → Mem → Nat → Option Nat
  | 0, _, _ => some 0
  | n + 1, m, p =>
    match m p, loadLE n m (p + 1) with
    | some b, some v => some (b.toNat + 256 * v)
    | _, _ => none

theorem storeLE_of_not_has {n : Nat} : ∀ {m : Mem} {p v x : Nat}, ¬Range.Has ⟨p, n⟩ x →
    storeLE n m p v x = m x := by
  induction n with
  | zero => exact fun _ => rfl
  | succ n ih =>
    intro m p v x h
    unfold Range.Has at h
    have hne : x ≠ p := by
      simp only [] at h
      omega
    rw [storeLE, ih (fun hx => h ?_), write, Function.update_of_ne hne]
    unfold Range.Has at hx
    simp only [] at hx ⊢
    omega

theorem write_isSome {m : Mem} {x y : Nat} {b : UInt8} (h : (m y).isSome) :
    (m.write x b y).isSome := by
  by_cases hy : y = x
  · rw [hy, write, Function.update_self]
    rfl
  · rwa [write, Function.update_of_ne hy]

theorem storeLE_isSome {n : Nat} : ∀ {m : Mem} {p v x : Nat}, (m x).isSome →
    (storeLE n m p v x).isSome := by
  induction n with
  | zero => exact fun h => h
  | succ n ih => exact fun h => ih (write_isSome h)

theorem loadLE_congr {n : Nat} : ∀ {m m' : Mem} {p : Nat},
    (∀ x, Range.Has ⟨p, n⟩ x → m x = m' x) → loadLE n m p = loadLE n m' p := by
  induction n with
  | zero => exact fun _ => rfl
  | succ n ih =>
    intro m m' p h
    have hhead := h p ⟨Nat.le_refl _, by simp⟩
    have hrest : loadLE n m (p + 1) = loadLE n m' (p + 1) := by
      refine ih fun x hx => h x ?_
      unfold Range.Has at hx ⊢
      simp only [] at hx ⊢
      omega
    rw [loadLE, loadLE, hhead, hrest]

/-- **A stored word reads back.** -/
theorem loadLE_storeLE {n : Nat} : ∀ {m : Mem} {p v : Nat}, v < 256 ^ n →
    loadLE n (storeLE n m p v) p = some v := by
  induction n with
  | zero =>
    intro m p v h
    rw [Nat.pow_zero, Nat.lt_one_iff] at h
    rw [h]
    rfl
  | succ n ih =>
    intro m p v h
    have hdiv : v / 256 < 256 ^ n := by
      rw [Nat.pow_succ] at h
      omega
    have hhead : storeLE (n + 1) m p v p = some (UInt8.ofNat v) := by
      rw [storeLE, storeLE_of_not_has, write, Function.update_self]
      exact fun hp => Nat.not_succ_le_self p hp.1
    have hrest : loadLE n (storeLE (n + 1) m p v) (p + 1) = some (v / 256) := ih hdiv
    rw [loadLE, hhead, hrest]
    simp only [UInt8.toNat_ofNat']
    congr 1
    omega

end Mem

/-! ## Pages -/

/-- `PAGE_SIZE`. -/
def pageLen : Nat := 4096

/-- The bytes of the pages that hold `n` bytes. -/
def span (n : Nat) : Nat := (n + (pageLen - 1)) / pageLen * pageLen

theorem le_span (n : Nat) : n ≤ span n := by
  unfold span pageLen
  omega

theorem pageLen_le_span {n : Nat} (h : 0 < n) : pageLen ≤ span n := by
  unfold span pageLen
  omega

end Clib
