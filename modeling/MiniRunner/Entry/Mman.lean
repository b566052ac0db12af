import MiniRunner.Clib.Memory
import MiniRunner.Clib.Exec
import MiniRunner.Clib.Runs
import Mathlib.Data.List.Pairwise

/-!
# The allocator over `mmap`

`entry/mm/mman.c`. A block is a mapping of its own: 8 bytes with the length that was asked
of `mmap`, and then the bytes of the caller. `Free` hands that length to `munmap`, and
`Realloc` takes from it how many bytes it copies to the new block.

Where `mmap` places a mapping is up to the system, which only promises that the pages were
free (`Mmap.fresh`).
-/

namespace MiniRunner

open Clib Clib.Exec

namespace Mman

/-- `mmap` without a hint: the base of the new mapping, or `none` for `MAP_FAILED`. -/
structure Mmap (W : Type) where
  place : Mem → Nat → W → Option Nat × W
  fresh : ∀ {m : Mem} {length p : Nat} {w : W}, (place m length w).1 = some p →
    0 < length ∧ p % pageLen = 0 ∧ ∀ x, Range.Has ⟨p, span length⟩ x → m x = none

/-- The memory of the process, the mappings of the allocator with the length asked for, and
what the allocator stored, the last store first. -/
structure Space (W : Type) where
  mem : Mem
  maps : List Range
  log : List Range
  world : W

def pages (r : Range) : Range := ⟨r.base, span r.size⟩

/-- Where `memcpy` has a meaning: the ranges share nothing, and all of it is mapped. -/
def Copyable {W : Type} (s : Space W) (dst src n : Nat) : Prop :=
  Range.Apart ⟨dst, n⟩ ⟨src, n⟩ ∧ s.mem.Mapped ⟨dst, n⟩ ∧ s.mem.Mapped ⟨src, n⟩

instance {W : Type} (s : Space W) (dst src n : Nat) : Decidable (Copyable s dst src n) :=
  inferInstanceAs (Decidable (_ ∧ _ ∧ _))

def Space.copied {W : Type} (s : Space W) (dst src n : Nat) : Space W :=
  { s with mem := s.mem.copy dst src n, log := ⟨dst, n⟩ :: s.log }

section calls

variable {W : Type} (o : Mmap W)

/-- `mmap(NULL, length, PROT_READ | PROT_WRITE, MAP_ANONYMOUS | MAP_SHARED, -1, 0)`. -/
def mmap (length : Nat) : Exec (Space W) (Option Nat) := fun s =>
  match o.place s.mem length s.world with
  | (none, w) => .ok none { s with world := w }
  | (some p, w) =>
    .ok (some p)
      { mem := s.mem.zeroed ⟨p, span length⟩, maps := ⟨p, length⟩ :: s.maps, log := s.log,
        world := w }

/-- `munmap(mem, length)`: every page that holds a part of the range. -/
def munmap (mem length : Nat) : Exec (Space W) Int := fun s =>
  if mem % pageLen ≠ 0 ∨ length = 0 then .ok (-1) s
  else
    .ok 0 { s with
      mem := s.mem.unmapped ⟨mem, span length⟩,
      maps := s.maps.flatMap (Range.cut ⟨mem, span length⟩) }

/-- `*(__uint64_t*)mem`. -/
def getSize (mem : Nat) : Exec (Space W) (BitVec 64) := fun s =>
  match s.mem.loadLE 8 mem with
  | some v => .ok (BitVec.ofNat 64 v) s
  | none => .error .undefined s

/-- `*(__uint64_t*)mem = size`. -/
def putSize (mem : Nat) (size : BitVec 64) : Exec (Space W) Unit := fun s =>
  if s.mem.Mapped ⟨mem, 8⟩ then
    .ok () { s with mem := s.mem.storeLE 8 mem size.toNat, log := ⟨mem, 8⟩ :: s.log }
  else .error .undefined s

/-- `memcpy(dst, src, n)`. -/
def memcpy (dst src n : Nat) : Exec (Space W) Unit := fun s =>
  if Copyable s dst src n then .ok () (s.copied dst src n) else .error .undefined s

/-- `Malloc`; 0 is NULL. -/
def malloc (size : BitVec 64) : Exec (Space W) Nat := do
  if size = 0 then return 0
  let size := size + 8
  match ← mmap o size.toNat with
  | none => return 0
  | some allocatedMemory => do
    putSize allocatedMemory size
    return allocatedMemory + 8

def free (mem : Nat) : Exec (Space W) Unit := do
  if mem = 0 then return ()
  let size ← getSize (mem - 8)
  let _ ← munmap (mem - 8) size.toNat

def realloc (mem : Nat) (newSize : BitVec 64) : Exec (Space W) Nat := do
  if mem = 0 then return 0
  let newMemory ← malloc o newSize
  if newMemory = 0 then return 0
  let size ← getSize (mem - 8)
  let beforeDataLength := size - 8
  memcpy newMemory mem beforeDataLength.toNat
  return newMemory

end calls

/-! ## A program that uses it -/

/-- What `Malloc` or `Realloc` returned, with the size asked for. -/
structure Block where
  ptr : Nat
  size : BitVec 64
  deriving DecidableEq, Repr

def Block.region (b : Block) : Range := ⟨b.ptr - 8, (b.size + 8).toNat⟩

/-- The memory and the blocks the program holds. -/
structure System (W : Type) where
  space : Space W
  blocks : List Block

inductive Action where
  | malloc (size : BitVec 64)
  | free (mem : Nat)
  | realloc (mem : Nat) (newSize : BitVec 64)
  /-- A store of the program. -/
  | store (x : Nat) (b : UInt8)

def System.keep {W : Type} (σ : System W) (space : Space W) (ptr : Nat) (size : BitVec 64) :
    System W :=
  { space := space, blocks := if ptr = 0 then σ.blocks else ⟨ptr, size⟩ :: σ.blocks }

/-- One step of the program. It frees and reallocates NULL or blocks it holds, and its own
stores leave the sizes in front of the blocks alone. -/
def step {W : Type} (o : Mmap W) (a : Action) (σ : System W) : Option (System W) :=
  match a with
  | .malloc size =>
    match (malloc o size).run σ.space with
    | .ok p space => some (σ.keep space p size)
    | .error _ _ => none
  | .free mem =>
    if mem = 0 ∨ ∃ b ∈ σ.blocks, b.ptr = mem then
      match (free mem).run σ.space with
      | .ok _ space =>
        some { space := space, blocks := σ.blocks.filter fun b => decide (b.ptr ≠ mem) }
      | .error _ _ => none
    else none
  | .realloc mem newSize =>
    if mem = 0 ∨ ∃ b ∈ σ.blocks, b.ptr = mem then
      match (realloc o mem newSize).run σ.space with
      | .ok p space => some (σ.keep space p newSize)
      | .error _ _ => none
    else none
  | .store x b =>
    if (σ.space.mem x).isSome ∧ ∀ r ∈ σ.space.maps, ¬Range.Has ⟨r.base, 8⟩ x then
      some { σ with space := { σ.space with mem := σ.space.mem.write x b } }
    else none

/-- The process before the first call, with whatever it has in memory. -/
def start {W : Type} (mem : Mem) (w : W) : System W :=
  { space := { mem := mem, maps := [], log := [], world := w }, blocks := [] }

/-! ## What the calls do -/

/-- A request that `Malloc` meets. -/
def Allocates {W : Type} (o : Mmap W) (s : Space W) (size : BitVec 64) : Prop :=
  size ≠ 0 ∧ (o.place s.mem (size + 8).toNat s.world).1 ≠ none

/-- A new mapping at `base` with its length stored in front. -/
structure Grown {W : Type} (s : Space W) (length base : Nat) (s' : Space W) : Prop where
  positive : 0 < length
  aligned : base % pageLen = 0
  unused : ∀ x, (pages ⟨base, length⟩).Has x → s.mem x = none
  mem : s'.mem = (s.mem.zeroed (pages ⟨base, length⟩)).storeLE 8 base length
  maps : s'.maps = ⟨base, length⟩ :: s.maps
  log : s'.log = ⟨base, 8⟩ :: s.log

structure Same {W : Type} (s s' : Space W) : Prop where
  mem : s'.mem = s.mem
  maps : s'.maps = s.maps
  log : s'.log = s.log

/-- The mapping is gone, and nothing else is. -/
structure Unmaps {W : Type} (s : Space W) (r : Range) (s' : Space W) : Prop where
  maps : s'.maps = s.maps.filter fun r' => decide (r' ≠ r)
  mem : ∀ x, s'.mem x = if (pages r).Has x then none else s.mem x

/-- The bytes of the old size fit into the new one, which does not wrap with its header. -/
def Grows (old new : BitVec 64) : Prop := old ≤ new ∧ new.toNat + 8 < 2 ^ 64

instance (old new : BitVec 64) : Decidable (Grows old new) :=
  inferInstanceAs (Decidable (_ ∧ _))

/-- Every mapping has the length that was asked for in front, and `Free` gives back exactly
what was mapped. -/
structure Headed {W : Type} (s : Space W) : Prop where
  header : ∀ r ∈ s.maps, s.mem.loadLE 8 r.base = some r.size
  frees : ∀ r ∈ s.maps,
    wp (free (r.base + 8)) (fun _ s' => Unmaps s r s') (fun _ _ => False) s

/-- `Realloc` of `b` to `t` bytes, from `s` to `s'`: the block it returned is a mapping of its
own with room for `t` bytes, it stored nothing outside of that, the bytes of the old block
are there, and every mapping is still `Headed`. -/
structure ReallocOk {W : Type} (s : Space W) (b : Block) (t : BitVec 64) (q : Nat)
    (s' : Space W) : Prop where
  behind : 8 ≤ q
  maps : s'.maps = ⟨q - 8, t.toNat + 8⟩ :: s.maps
  stores : ∃ new, s'.log = new ++ s.log ∧ ∀ r ∈ new, r.Within ⟨q - 8, t.toNat + 8⟩
  frame : ∀ x, ¬(pages ⟨q - 8, t.toNat + 8⟩).Has x → s'.mem x = s.mem x
  kept : ∀ i < min b.size.toNat t.toNat, s'.mem (q + i) = s.mem (b.ptr + i)
  headed : Headed s'

@[simp] theorem copied_mem {W : Type} (s : Space W) (dst src n : Nat) :
    (s.copied dst src n).mem = s.mem.copy dst src n := rfl

section specs

variable {W : Type} {o : Mmap W} {s s' : Space W} {E : Halt → Space W → Prop}

theorem wp_getSize {mem : Nat} {v : BitVec 64} {Q : BitVec 64 → Space W → Prop}
    (h : s.mem.loadLE 8 mem = some v.toNat) (hQ : Q v s) : wp (getSize mem) Q E s := by
  simp only [wp, EStateM.run, getSize, h, BitVec.ofNat_toNat, BitVec.setWidth_eq]
  exact hQ

theorem wp_putSize {mem : Nat} {v : BitVec 64} {Q : Unit → Space W → Prop}
    (h : s.mem.Mapped ⟨mem, 8⟩)
    (hQ : Q () { s with mem := s.mem.storeLE 8 mem v.toNat, log := ⟨mem, 8⟩ :: s.log }) :
    wp (putSize mem v) Q E s := by
  simp only [wp, EStateM.run, putSize, if_pos h]
  exact hQ

theorem wp_memcpy {dst src n : Nat} {Q : Unit → Space W → Prop}
    (h : Copyable s dst src n → Q () (s.copied dst src n))
    (h' : ¬Copyable s dst src n → E .undefined s) : wp (memcpy dst src n) Q E s := by
  simp only [wp, EStateM.run, memcpy]
  by_cases hc : Copyable s dst src n
  · rw [if_pos hc]
    exact h hc
  · rw [if_neg hc]
    exact h' hc

theorem wp_mmap_none {length : Nat} {Q : Option Nat → Space W → Prop}
    (h : (o.place s.mem length s.world).1 = none)
    (hQ : Q none { s with world := (o.place s.mem length s.world).2 }) :
    wp (mmap o length) Q E s := by
  simp only [wp, EStateM.run, mmap]
  rcases hout : o.place s.mem length s.world with ⟨_ | p, w⟩
  · rw [hout] at hQ
    exact hQ
  · rw [hout] at h
    cases h

theorem wp_mmap_some {length base : Nat} {Q : Option Nat → Space W → Prop}
    (h : (o.place s.mem length s.world).1 = some base)
    (hQ : Q (some base)
      { mem := s.mem.zeroed (pages ⟨base, length⟩), maps := ⟨base, length⟩ :: s.maps,
        log := s.log, world := (o.place s.mem length s.world).2 }) :
    wp (mmap o length) Q E s := by
  simp only [wp, EStateM.run, mmap]
  rcases hout : o.place s.mem length s.world with ⟨_ | p, w⟩
  · rw [hout] at h
    cases h
  · rw [hout] at h hQ
    obtain rfl : p = base := Option.some.inj h
    exact hQ

theorem within_pages (r : Range) : r.Within (pages r) :=
  ⟨Nat.le_refl _, Nat.add_le_add_left (le_span _) _⟩

theorem header_within {base length : Nat} (h : 0 < length) :
    Range.Within ⟨base, 8⟩ (pages ⟨base, length⟩) := by
  have hpage : 8 ≤ span length :=
    Nat.le_trans (by decide : 8 ≤ pageLen) (pageLen_le_span h)
  exact ⟨Nat.le_refl _, Nat.add_le_add_left hpage _⟩

theorem malloc_null {size : BitVec 64} (h : ¬Allocates o s size) :
    wp (malloc o size) (fun p s' => p = 0 ∧ Same s s') E s := by
  unfold malloc
  refine (wp_ite _ _).mpr ⟨fun _ => ?_, fun hsize => ?_⟩
  · rw [wp_pure]
    exact ⟨rfl, rfl, rfl, rfl⟩
  · have hplace : (o.place s.mem (size + 8).toNat s.world).1 = none :=
      Classical.byContradiction fun hne => h ⟨hsize, hne⟩
    rw [wp_bind]
    refine wp_mmap_none hplace ?_
    rw [wp_pure]
    exact ⟨rfl, rfl, rfl, rfl⟩

/-- **`Malloc`** maps pages that were free and stores the length in front of the block. -/
theorem malloc_some {size : BitVec 64} {base : Nat} (hsize : size ≠ 0)
    (h : (o.place s.mem (size + 8).toNat s.world).1 = some base) :
    wp (malloc o size) (fun p s' => p = base + 8 ∧ Grown s (size + 8).toNat base s' ∧
      s'.world = (o.place s.mem (size + 8).toNat s.world).2) E s := by
  obtain ⟨hpos, haligned, hunused⟩ := o.fresh h
  unfold malloc
  rw [wp_ite]
  refine ⟨fun hzero => absurd hzero hsize, fun _ => ?_⟩
  rw [wp_bind]
  refine wp_mmap_some h ?_
  rw [wp_bind]
  refine wp_putSize (Mem.mapped_zeroed _ _ |>.mono (header_within hpos)) ?_
  rw [wp_pure]
  exact ⟨rfl, ⟨hpos, haligned, hunused, rfl, rfl, rfl⟩, rfl⟩

theorem Grown.unchanged {length base x : Nat} (h : Grown s length base s')
    (hx : ¬(pages ⟨base, length⟩).Has x) : s'.mem x = s.mem x := by
  rw [h.mem, Mem.storeLE_of_not_has fun h8 => hx ((header_within h.positive).has h8),
    Mem.zeroed_of_not_has hx]

theorem Grown.isSome {length base x : Nat} (h : Grown s length base s')
    (hx : (s.mem x).isSome ∨ (pages ⟨base, length⟩).Has x) : (s'.mem x).isSome := by
  rw [h.mem]
  refine Mem.storeLE_isSome ?_
  by_cases hin : (pages ⟨base, length⟩).Has x
  · exact Mem.mapped_iff.mp (Mem.mapped_zeroed _ _) x hin
  · rw [Mem.zeroed_of_not_has hin]
    exact hx.resolve_right hin

end specs

/-! ## The invariant -/

/-- A mapping of the allocator: pages that are mapped, with their length in front. -/
structure Held (m : Mem) (r : Range) : Prop where
  positive : 0 < r.size
  fits : r.size < 2 ^ 64
  aligned : r.base % pageLen = 0
  mapped : m.Mapped (pages r)
  header : m.loadLE 8 r.base = some r.size

structure Sound {W : Type} (s : Space W) : Prop where
  apart : s.maps.Pairwise fun r r' => (pages r).Apart (pages r')
  held : ∀ r ∈ s.maps, Held s.mem r

structure Live {W : Type} (s : Space W) (b : Block) : Prop where
  region : b.region ∈ s.maps
  behind : 8 ≤ b.ptr

theorem Held.congr {m m' : Mem} {r : Range} (h : Held m r)
    (hsome : ∀ x, (pages r).Has x → (m x).isSome → (m' x).isSome)
    (hheader : ∀ x, Range.Has ⟨r.base, 8⟩ x → m' x = m x) : Held m' r where
  positive := h.positive
  fits := h.fits
  aligned := h.aligned
  mapped := h.mapped.congr hsome
  header := (Mem.loadLE_congr hheader).trans h.header

section invariant

variable {W : Type} {o : Mmap W} {s s' : Space W} {E : Halt → Space W → Prop}

theorem Sound.of_same (h : Sound s) (hs : Same s s') : Sound s' where
  apart := hs.maps ▸ h.apart
  held := by
    rw [hs.maps, hs.mem]
    exact h.held

theorem Sound.of_stores (h : Sound s) (hmaps : s'.maps = s.maps)
    (hsome : ∀ x, (s.mem x).isSome → (s'.mem x).isSome)
    (hheader : ∀ r ∈ s.maps, ∀ x, Range.Has ⟨r.base, 8⟩ x → s'.mem x = s.mem x) : Sound s' where
  apart := hmaps ▸ h.apart
  held := by
    rw [hmaps]
    exact fun r hr => (h.held r hr).congr (fun x _ => hsome x) (hheader r hr)

theorem Sound.apart_of_unused (h : Sound s) {r : Range} (hr : r ∈ s.maps) {u : Range}
    (hpos : 0 < u.size) (hunused : ∀ x, (pages u).Has x → s.mem x = none) :
    (pages u).Apart (pages r) := by
  refine Range.apart_of_not_has (Nat.lt_of_lt_of_le hpos (le_span _))
    (Nat.lt_of_lt_of_le (h.held r hr).positive (le_span _)) fun x hx hx' => ?_
  have hsome := Mem.mapped_iff.mp (h.held r hr).mapped x hx'
  rw [hunused x hx] at hsome
  cases hsome

/-- **A new mapping** is apart from the ones that are there. -/
theorem Sound.grown (h : Sound s) {length base : Nat} (hg : Grown s length base s')
    (hfits : length < 2 ^ 64) : Sound s' := by
  have hapart (r) (hr : r ∈ s.maps) : (pages ⟨base, length⟩).Apart (pages r) :=
    h.apart_of_unused hr hg.positive hg.unused
  constructor
  · rw [hg.maps]
    exact List.Pairwise.cons hapart h.apart
  · rw [hg.maps]
    rintro r (_ | ⟨_, hr⟩)
    · refine ⟨hg.positive, hfits, hg.aligned,
        Mem.mapped_iff.mpr fun x hx => hg.isSome (.inr hx), ?_⟩
      rw [hg.mem]
      exact Mem.loadLE_storeLE (by simpa using hfits)
    · have hold := h.held r hr
      refine hold.congr (fun x _ hx => hg.isSome (.inl hx)) fun x hx => hg.unchanged ?_
      exact (hapart r hr).symm.not_has ((header_within hold.positive).has hx)

theorem Sound.apart_of_ne (h : Sound s) {r r' : Range} (hr : r ∈ s.maps) (hr' : r' ∈ s.maps)
    (hne : r ≠ r') : (pages r).Apart (pages r') :=
  have : Std.Symm fun r r' => (pages r).Apart (pages r') := ⟨fun _ _ => Range.Apart.symm⟩
  h.apart.forall hr hr' hne

/-- **`Free`** unmaps the pages of its block and no others. -/
theorem free_unmaps (h : Sound s) {r : Range} (hr : r ∈ s.maps) :
    wp (free (r.base + 8)) (fun _ s' => Unmaps s r s') E s := by
  have hold := h.held r hr
  have hlength : (BitVec.ofNat 64 r.size).toNat = r.size := by
    rw [BitVec.toNat_ofNat, Nat.mod_eq_of_lt hold.fits]
  unfold free
  rw [wp_ite]
  refine ⟨fun hzero => absurd hzero (Nat.succ_ne_zero _), fun _ => ?_⟩
  rw [wp_bind, Nat.add_sub_cancel]
  refine wp_getSize (v := BitVec.ofNat 64 r.size) (by rw [hlength]; exact hold.header) ?_
  have hvalid : ¬(r.base % pageLen ≠ 0 ∨ r.size = 0) := by
    have hpos := hold.positive
    have haligned := hold.aligned
    omega
  rw [hlength, wp_bind]
  simp only [wp, EStateM.run, munmap, if_neg hvalid]
  refine ⟨Range.flatMap_cut (within_pages r) (fun r' hr' => ?_) hold.positive, fun x => rfl⟩
  by_cases heq : r' = r
  · exact .inl heq
  · refine .inr ⟨(h.held r' hr').positive, ?_⟩
    exact (h.apart_of_ne hr hr' (Ne.symm heq)).mono (Range.Within.refl _) (within_pages r')

theorem Sound.headed (h : Sound s) : Headed s where
  header := fun r hr => (h.held r hr).header
  frees := fun _ hr => free_unmaps h hr

theorem Sound.unmapped (h : Sound s) {r : Range} (hr : r ∈ s.maps) (hu : Unmaps s r s') :
    Sound s' := by
  constructor
  · rw [hu.maps]
    exact h.apart.filter _
  · rw [hu.maps]
    intro r' hr'
    obtain ⟨hin, hne⟩ := List.mem_filter.mp hr'
    have hapart := h.apart_of_ne hin hr (of_decide_eq_true hne)
    have hold := h.held r' hin
    have hmem (x) (hx : (pages r').Has x) : s'.mem x = s.mem x := by
      rw [hu.mem, if_neg (hapart.not_has hx)]
    refine hold.congr (fun x hx hsome => ?_) fun x hx => ?_
    · rwa [hmem x hx]
    · exact hmem x ((header_within hold.positive).has hx)

/-! ## `Realloc` -/

/-- The process after `Realloc` in front of its `memcpy`, and what that copies. -/
theorem realloc_spec (h : Sound s) {b : Block} (hb : Live s b) {t : BitVec 64} {base : Nat}
    (ht : t ≠ 0) (hplace : (o.place s.mem (t + 8).toNat s.world).1 = some base) :
    wp (realloc o b.ptr t)
      (fun q s' => q = base + 8 ∧ ∃ s₁, Grown s (t + 8).toNat base s₁ ∧
        s' = s₁.copied (base + 8) b.ptr b.size.toNat)
      (fun _ _ => ∃ s₁, Grown s (t + 8).toNat base s₁ ∧
        ¬Copyable s₁ (base + 8) b.ptr b.size.toNat) s := by
  unfold realloc
  rw [wp_ite]
  refine ⟨fun hzero => ?_, fun _ => ?_⟩
  · have := hb.behind
    omega
  · rw [wp_bind]
    refine wp_mono (malloc_some ht hplace) (fun q s₁ hq => ?_) fun _ _ he => he
    obtain ⟨rfl, hg, -⟩ := hq
    rw [wp_ite]
    refine ⟨fun hzero => absurd hzero (Nat.succ_ne_zero _), fun _ => ?_⟩
    have hheader : s₁.mem.loadLE 8 (b.ptr - 8) = some (b.size + 8).toNat :=
      ((h.grown hg (BitVec.isLt _)).held b.region
        (hg.maps ▸ List.mem_cons_of_mem _ hb.region)).header
    rw [wp_bind]
    refine wp_getSize hheader ?_
    rw [wp_bind, BitVec.add_sub_cancel]
    refine wp_memcpy (fun _ => ?_) fun hno => ⟨s₁, hg, hno⟩
    rw [wp_pure]
    exact ⟨rfl, s₁, hg, rfl⟩

theorem toNat_add_eight {t : BitVec 64} (h : t.toNat + 8 < 2 ^ 64) :
    (t + 8).toNat = t.toNat + 8 := by
  rw [BitVec.toNat_add]
  exact Nat.mod_eq_of_lt h

theorem Grows.fits {old new : BitVec 64} (h : Grows old new) : old.toNat + 8 < 2 ^ 64 :=
  Nat.lt_of_le_of_lt (Nat.add_le_add_right (BitVec.le_def.mp h.1) 8) h.2

section copy

variable {b : Block} {t : BitVec 64} {base : Nat}

theorem Live.within (hb : Live s b) (hfits : b.size.toNat + 8 < 2 ^ 64) :
    Range.Within ⟨b.ptr, b.size.toNat⟩ (pages b.region) := by
  have hspan := le_span (b.size.toNat + 8)
  have hbehind := hb.behind
  unfold Range.Within pages Block.region
  rw [toNat_add_eight hfits]
  simp only []
  omega

theorem within_new (h : Grows b.size t) :
    Range.Within ⟨base + 8, b.size.toNat⟩ (pages ⟨base, t.toNat + 8⟩) := by
  have hspan := le_span (t.toNat + 8)
  have hle := BitVec.le_def.mp h.1
  unfold Range.Within pages
  simp only []
  omega

theorem copyable_of_grows (h : Sound s) (hb : Live s b) (hgrows : Grows b.size t)
    (hg : Grown s (t.toNat + 8) base s') : Copyable s' (base + 8) b.ptr b.size.toNat := by
  have hapart := h.apart_of_unused hb.region hg.positive hg.unused
  have hold := hb.within hgrows.fits
  refine ⟨hapart.mono (within_new hgrows) hold, ?_, ?_⟩
  · exact Mem.mapped_iff.mpr fun x hx => hg.isSome (.inr ((within_new hgrows).has hx))
  · refine Mem.mapped_iff.mpr fun x hx => hg.isSome (.inl ?_)
    exact Mem.mapped_iff.mp (h.held _ hb.region).mapped x (hold.has hx)

theorem Sound.copied (h : Sound s) (hb : Live s b) (hgrows : Grows b.size t)
    (hg : Grown s (t.toNat + 8) base s') :
    Sound (s'.copied (base + 8) b.ptr b.size.toNat) := by
  have hcopy := copyable_of_grows h hb hgrows hg
  refine (h.grown hg hgrows.2).of_stores rfl (fun x hx => ?_) fun r hr x hx => ?_
  · by_cases hin : Range.Has ⟨base + 8, b.size.toNat⟩ x
    · obtain ⟨i, rfl⟩ : ∃ i, x = base + 8 + i := Nat.exists_eq_add_of_le hin.1
      have hi : i < b.size.toNat := Nat.lt_of_add_lt_add_left hin.2
      rw [copied_mem, Mem.copy_has hi]
      exact hcopy.2.2 i hi
    · rwa [copied_mem, Mem.copy_of_not_has hin]
  · refine Mem.copy_of_not_has ?_
    rw [hg.maps] at hr
    rcases List.mem_cons.mp hr with rfl | hr
    · exact Range.Apart.not_has (.inl (Nat.le_refl _)) hx
    · have hapart := h.apart_of_unused hr hg.positive hg.unused
      exact (hapart.symm.mono (header_within (h.held r hr).positive)
        (within_new hgrows)).not_has hx

/-- **A block that grows** is copied whole, into its new mapping. -/
theorem reallocOk_of_grows (h : Sound s) (hb : Live s b) (hgrows : Grows b.size t)
    (hg : Grown s (t.toNat + 8) base s') :
    ReallocOk s b t (base + 8) (s'.copied (base + 8) b.ptr b.size.toNat) := by
  have hsound := h.copied hb hgrows hg
  have hle := BitVec.le_def.mp hgrows.1
  have hmin : min b.size.toNat t.toNat = b.size.toNat := Nat.min_eq_left hle
  refine
    { behind := Nat.le_add_left _ _
      maps := hg.maps
      stores := ⟨[⟨base + 8, b.size.toNat⟩, ⟨base, 8⟩], congrArg _ hg.log, ?_⟩
      frame := fun x hx => ?_
      kept := fun i hi => ?_
      headed := hsound.headed }
  · rw [Nat.add_sub_cancel]
    intro r hr
    rcases List.mem_pair.mp hr with rfl | rfl
    · unfold Range.Within
      simp only []
      omega
    · unfold Range.Within
      simp only []
      omega
  · rw [Nat.add_sub_cancel] at hx
    rw [copied_mem, Mem.copy_of_not_has fun hin => hx ((within_new hgrows).has hin),
      hg.unchanged hx]
  · rw [hmin] at hi
    have hin : (pages b.region).Has (b.ptr + i) :=
      (hb.within hgrows.fits).has ⟨Nat.le_add_right _ _, Nat.add_lt_add_left hi _⟩
    have hapart := h.apart_of_unused hb.region hg.positive hg.unused
    rw [copied_mem, Mem.copy_has hi, hg.unchanged (hapart.symm.not_has hin)]

/-- `Realloc` keeps to the new block where the size grows, and nowhere else. -/
theorem realloc_iff (h : Sound s) (hb : Live s b) (halloc : Allocates o s t) :
    wp (realloc o b.ptr t) (ReallocOk s b t) (fun _ _ => False) s ↔ Grows b.size t := by
  obtain ⟨ht, hplace⟩ := halloc
  obtain ⟨base, hbase⟩ := Option.ne_none_iff_exists'.mp hplace
  have hspec := realloc_spec h hb ht hbase
  constructor
  · intro hok
    obtain ⟨q, s', ⟨rfl, s₁, hg, rfl⟩, hq⟩ := exists_of_wp hspec hok
    -- the new mapping has the length that `Malloc` asked for, and the copy the old size
    obtain ⟨hregion, -⟩ := List.cons.inj (hg.maps.symm.trans hq.maps)
    have hlength : (t + 8).toNat = t.toNat + 8 := congrArg Range.size hregion
    have hwrap := BitVec.isLt (t + 8)
    obtain ⟨new, hlog, hnew⟩ := hq.stores
    have hnews : [⟨base + 8, b.size.toNat⟩, ⟨base, 8⟩] = new :=
      List.append_cancel_right ((congrArg (List.cons _) hg.log).symm.trans hlog)
    have hin := hnew _ (hnews ▸ List.mem_cons_self)
    unfold Range.Within at hin
    simp only [] at hin
    exact ⟨BitVec.le_def.mpr (by omega), by omega⟩
  · intro hgrows
    rw [toNat_add_eight hgrows.2] at hspec
    refine wp_mono hspec ?_ ?_
    · rintro q s' ⟨rfl, s₁, hg, rfl⟩
      exact reallocOk_of_grows h hb hgrows hg
    · rintro e s' ⟨s₁, hg, hno⟩
      exact hno (copyable_of_grows h hb hgrows hg)

end copy

end invariant

/-! ## Runs -/

/-- A step that does not make a block smaller. -/
def NeverShrinks {W : Type} (o : Mmap W) (σ : System W) : Action → Prop
  | .realloc mem newSize =>
    ∀ b ∈ σ.blocks, b.ptr = mem → Allocates o σ.space newSize → Grows b.size newSize
  | _ => True

structure Inv {W : Type} (σ : System W) : Prop where
  sound : Sound σ.space
  live : ∀ b ∈ σ.blocks, Live σ.space b

section runs

variable {W : Type} {o : Mmap W} {σ σ' : System W}

theorem inv_start (m : Mem) (w : W) : Inv (start m w) where
  sound := ⟨List.Pairwise.nil, fun _ hr => (List.not_mem_nil hr).elim⟩
  live := fun _ hb => (List.not_mem_nil hb).elim

theorem Live.of_maps {s s' : Space W} {b : Block} (h : Live s b) (hmaps : b.region ∈ s'.maps) :
    Live s' b := ⟨hmaps, h.behind⟩

theorem Inv.keep_null (h : Inv σ) {space : Space W} (hs : Same σ.space space)
    (size : BitVec 64) : Inv (σ.keep space 0 size) where
  sound := h.sound.of_same hs
  live := fun b hb => (h.live b hb).of_maps (hs.maps ▸ (h.live b hb).region)

/-- A call that returned a new block. -/
theorem Inv.keep_new (h : Inv σ) {space : Space W} {base : Nat} {size : BitVec 64}
    (hsound : Sound space) (hmaps : space.maps = ⟨base, (size + 8).toNat⟩ :: σ.space.maps) :
    Inv (σ.keep space (base + 8) size) where
  sound := hsound
  live := by
    intro b hb
    change Live space b
    rw [System.keep, if_neg (Nat.succ_ne_zero _)] at hb
    rcases List.mem_cons.mp hb with rfl | hb
    · refine ⟨?_, Nat.le_add_left _ _⟩
      rw [hmaps, Block.region, Nat.add_sub_cancel]
      exact List.mem_cons_self
    · refine (h.live b hb).of_maps ?_
      rw [hmaps]
      exact List.mem_cons_of_mem _ (h.live b hb).region

theorem malloc_spec (s : Space W) (size : BitVec 64) {E : Halt → Space W → Prop} :
    wp (malloc o size) (fun p s' => (p = 0 ∧ Same s s') ∨
      ∃ base, p = base + 8 ∧ Grown s (size + 8).toNat base s') E s := by
  by_cases h : Allocates o s size
  · obtain ⟨base, hbase⟩ := Option.ne_none_iff_exists'.mp h.2
    exact wp_mono (malloc_some h.1 hbase) (fun p s' hp => .inr ⟨base, hp.1, hp.2.1⟩)
      fun _ _ he => he
  · exact wp_mono (malloc_null h) (fun p s' hp => .inl hp) fun _ _ he => he

/-- **A new block** shares no byte with the blocks that are there. -/
theorem malloc_apart {s : Space W} (h : Sound s) {size : BitVec 64}
    (hfits : size.toNat + 8 < 2 ^ 64) {E : Halt → Space W → Prop} :
    wp (malloc o size) (fun p _ => p ≠ 0 → ∀ b, Live s b → b.size.toNat + 8 < 2 ^ 64 →
      Range.Apart ⟨p, size.toNat⟩ ⟨b.ptr, b.size.toNat⟩) E s := by
  refine wp_mono (malloc_spec s size) ?_ fun _ _ he => he
  rintro p s' (⟨rfl, -⟩ | ⟨base, rfl, hg⟩) hne b hb hold
  · exact absurd rfl hne
  · have hapart := h.apart_of_unused hb.region hg.positive hg.unused
    rw [toNat_add_eight hfits] at hapart
    exact hapart.mono (within_new (b := ⟨0, size⟩) ⟨BitVec.le_refl size, hfits⟩)
      (hb.within hold)

theorem realloc_null {s : Space W} {mem : Nat} {t : BitVec 64} {E : Halt → Space W → Prop}
    (h : mem = 0 ∨ ¬Allocates o s t) :
    wp (realloc o mem t) (fun q s' => q = 0 ∧ Same s s') E s := by
  unfold realloc
  rw [wp_ite]
  refine ⟨fun _ => ?_, fun hne => ?_⟩
  · rw [wp_pure]
    exact ⟨rfl, rfl, rfl, rfl⟩
  · rw [wp_bind]
    refine wp_mono (malloc_null (h.resolve_left hne)) (fun q s' hq => ?_) fun _ _ he => he
    rw [if_pos hq.1, wp_pure]
    exact ⟨rfl, hq.2⟩

theorem free_null {s : Space W} {mem : Nat} {E : Halt → Space W → Prop} (h : mem = 0) :
    wp (free mem) (fun _ s' => s = s') E s := by
  unfold free
  rw [if_pos h]
  exact (wp_pure _).mpr rfl

theorem inv_malloc (h : Inv σ) {size : BitVec 64} (hs : step o (.malloc size) σ = some σ') :
    Inv σ' := by
  rw [step] at hs
  cases hrun : (malloc o size).run σ.space with
  | error e space =>
    rw [hrun] at hs
    cases hs
  | ok p space =>
    rw [hrun] at hs
    obtain rfl := Option.some.inj hs
    rcases wp_run_ok (malloc_spec σ.space size (E := fun _ _ => True)) hrun with
      ⟨rfl, hsame⟩ | ⟨base, rfl, hg⟩
    · exact h.keep_null hsame size
    · exact h.keep_new (h.sound.grown hg (BitVec.isLt _)) hg.maps

theorem inv_realloc (h : Inv σ) {mem : Nat} {t : BitVec 64}
    (hguard : NeverShrinks o σ (.realloc mem t)) (hs : step o (.realloc mem t) σ = some σ') :
    Inv σ' := by
  rw [step] at hs
  split at hs
  · rename_i hheld
    cases hrun : (realloc o mem t).run σ.space with
    | error e space =>
      rw [hrun] at hs
      cases hs
    | ok q space =>
      rw [hrun] at hs
      obtain rfl := Option.some.inj hs
      by_cases hnull : mem = 0 ∨ ¬Allocates o σ.space t
      · obtain ⟨rfl, hsame⟩ := wp_run_ok (realloc_null (E := fun _ _ => True) hnull) hrun
        exact h.keep_null hsame t
      · obtain ⟨hne, halloc⟩ := not_or.mp hnull
        have halloc := Classical.not_not.mp halloc
        obtain ⟨b, hb, rfl⟩ := hheld.resolve_left hne
        have hgrows := hguard b hb rfl halloc
        obtain ⟨base, hbase⟩ := Option.ne_none_iff_exists'.mp halloc.2
        have hspec := realloc_spec h.sound (h.live b hb) halloc.1 hbase
        rw [toNat_add_eight hgrows.2] at hspec
        obtain ⟨rfl, s₁, hg, rfl⟩ := wp_run_ok hspec hrun
        refine h.keep_new (h.sound.copied (h.live b hb) hgrows hg) ?_
        rw [toNat_add_eight hgrows.2]
        exact hg.maps
  · cases hs

theorem inv_free (h : Inv σ) {mem : Nat} (hs : step o (.free mem) σ = some σ') : Inv σ' := by
  rw [step] at hs
  split at hs
  · rename_i hheld
    cases hrun : (free mem).run σ.space with
    | error e space =>
      rw [hrun] at hs
      cases hs
    | ok u space =>
      rw [hrun] at hs
      obtain rfl := Option.some.inj hs
      by_cases hnull : mem = 0
      · obtain rfl := wp_run_ok (free_null (s := σ.space) (E := fun _ _ => True) hnull) hrun
        exact ⟨h.sound, fun b hb => h.live b (List.mem_filter.mp hb).1⟩
      · obtain ⟨b, hb, rfl⟩ := hheld.resolve_left hnull
        have hlive := h.live b hb
        have hptr : b.region.base + 8 = b.ptr := Nat.sub_add_cancel hlive.behind
        have hspec := free_unmaps (E := fun _ _ => True) h.sound hlive.region
        rw [hptr] at hspec
        have hu := wp_run_ok hspec hrun
        refine ⟨h.sound.unmapped hlive.region hu, fun c hc => ?_⟩
        obtain ⟨hin, hne⟩ := List.mem_filter.mp hc
        have hother := h.live c hin
        refine hother.of_maps ?_
        rw [hu.maps]
        refine List.mem_filter.mpr ⟨hother.region, decide_eq_true fun heq => ?_⟩
        have hbase : c.ptr - 8 = b.ptr - 8 := congrArg Range.base heq
        have hbehind := hother.behind
        have hbehind' := hlive.behind
        exact of_decide_eq_true hne (by omega)
  · cases hs

theorem inv_store (h : Inv σ) {x : Nat} {b : UInt8} (hs : step o (.store x b) σ = some σ') :
    Inv σ' := by
  rw [step] at hs
  split at hs
  · rename_i hallowed
    obtain ⟨hmapped, hheaders⟩ := hallowed
    obtain rfl := Option.some.inj hs
    refine ⟨h.sound.of_stores rfl (fun y hy => Mem.write_isSome hy) fun r hr y hy => ?_,
      fun c hc => (h.live c hc).of_maps (h.live c hc).region⟩
    refine Function.update_of_ne ?_ _ _
    rintro rfl
    exact hheaders r hr hy
  · cases hs

/-- **Each step keeps the invariant** when it does not make a block smaller. -/
theorem inv_step {a : Action} (h : Inv σ) (hguard : NeverShrinks o σ a)
    (hs : step o a σ = some σ') : Inv σ' := by
  cases a with
  | malloc size => exact inv_malloc h hs
  | free mem => exact inv_free h hs
  | realloc mem newSize => exact inv_realloc h hguard hs
  | store x b => exact inv_store h hs

theorem never_of_malloc (size : BitVec 64) (σ : System W) :
    Every (step o) (fun σ a _ => NeverShrinks o σ a) [.malloc size] σ :=
  every_cons.mpr fun _ _ => ⟨trivial, trivial⟩

/-- **`Realloc` after any run** that made no block smaller. The sizes in front of the blocks
are the lengths that were mapped; and `Realloc` of a block keeps its bytes within bounds
exactly when the new size is not below the old one and does not wrap with its header. -/
theorem realloc_preserves_iff {as : List Action} {m : Mem} {w : W}
    (hrun : runs (step o) as (start m w) = some σ)
    (hgrows : Every (step o) (fun σ a _ => NeverShrinks o σ a) as (start m w)) :
    Headed σ.space ∧ (∀ b ∈ σ.blocks, b.region ∈ σ.space.maps) ∧
      ∀ b ∈ σ.blocks, ∀ t, Allocates o σ.space t →
        (wp (realloc o b.ptr t) (ReallocOk σ.space b t) (fun _ _ => False) σ.space ↔
          Grows b.size t) := by
  have h : Inv σ := by
    refine runs_keeps ?_ as (inv_start m w) hgrows hrun
    exact fun hI hG hs => inv_step hI hG hs
  exact ⟨h.sound.headed, fun b hb => (h.live b hb).region,
    fun b hb t halloc => realloc_iff h.sound (h.live b hb) halloc⟩

end runs

/-! ## A system that maps one page after the other -/

def nextPages : Mmap Nat where
  place m length next :=
    if 0 < length ∧ next % pageLen = 0 ∧ ∀ i < span length, m (next + i) = none then
      (some next, next + span length)
    else (none, next)
  fresh := by
    intro m length p w h
    split at h
    · rename_i hfree
      obtain ⟨hpos, haligned, hunused⟩ := hfree
      obtain rfl := Option.some.inj h
      refine ⟨hpos, haligned, fun x hx => ?_⟩
      obtain ⟨i, rfl⟩ := Nat.exists_eq_add_of_le hx.1
      exact hunused i (Nat.lt_of_add_lt_add_left hx.2)
    · cases h

theorem nextPages_place {m : Mem} {length next : Nat} (hlength : 0 < length)
    (haligned : next % pageLen = 0) (hfree : ∀ x, next ≤ x → m x = none) :
    nextPages.place m length next = (some next, next + span length) :=
  if_pos ⟨hlength, haligned, fun _ _ => hfree _ (Nat.le_add_right _ _)⟩

-- its check of whole pages must not be run while a type is read
attribute [irreducible] nextPages

/-- One block of 16 bytes, in a process with nothing in memory. -/
theorem nextPages_malloc : ∃ σ,
    runs (step nextPages) [.malloc 16] (start (fun _ => none) pageLen) = some σ ∧
      Inv σ ∧ σ.blocks = [⟨pageLen + 8, 16⟩] ∧
      ∀ t : BitVec 64, t ≠ 0 → (t + 8).toNat ≠ 0 → Allocates nextPages σ.space t := by
  have hplace : nextPages.place (fun _ => none) 24 pageLen = (some pageLen, pageLen + span 24) :=
    nextPages_place (by decide) (by decide) fun _ _ => rfl
  have hmalloc : wp (malloc nextPages 16) _ (fun _ _ => False)
      (start (fun _ => none) pageLen).space :=
    malloc_some (by decide) (congrArg Prod.fst hplace)
  cases hrun : (malloc nextPages 16).run (start (fun _ => none) pageLen).space with
  | error e space => exact (wp_run_error hmalloc hrun).elim
  | ok p space =>
    obtain ⟨rfl, hg, hworld⟩ := wp_run_ok hmalloc hrun
    have hnext : space.world = pageLen + span 24 := hworld.trans (congrArg Prod.snd hplace)
    have hstep : step nextPages (.malloc 16) (start (fun _ => none) pageLen) =
        some ((start (fun _ => none) pageLen).keep space (pageLen + 8) 16) := by
      rw [step, hrun]
    refine ⟨_, runs_cons.mpr ⟨_, hstep, rfl⟩, inv_malloc (inv_start _ _) hstep, rfl, ?_⟩
    refine fun t ht hlength => ⟨ht, ?_⟩
    have hfree (x) (hx : space.world ≤ x) : space.mem x = none := by
      refine hg.unchanged fun hin => ?_
      have hlt : x < pageLen + span 24 := hin.2
      omega
    have haligned : space.world % pageLen = 0 := by
      rw [hnext]
      decide
    have hpages := congrArg Prod.fst
      (nextPages_place (Nat.pos_of_ne_zero hlength) haligned hfree)
    change (nextPages.place space.mem (t + 8).toNat space.world).1 ≠ none
    rw [hpages]
    exact Option.some_ne_none _

/-- Growing it from 16 to 32 bytes. -/
theorem realloc_preserves_iff_grow : ∃ σ,
    runs (step nextPages) [.malloc 16] (start (fun _ => none) pageLen) = some σ ∧
      wp (realloc nextPages (pageLen + 8) 32) (ReallocOk σ.space ⟨pageLen + 8, 16⟩ 32)
        (fun _ _ => False) σ.space := by
  obtain ⟨σ, hrun, -, hblocks, halloc⟩ := nextPages_malloc
  obtain ⟨-, -, hiff⟩ := realloc_preserves_iff hrun (never_of_malloc _ _)
  refine ⟨σ, hrun, ?_⟩
  refine (hiff ⟨pageLen + 8, 16⟩ ?_ 32 (halloc 32 (by decide) (by decide))).mpr (by decide)
  rw [hblocks]
  exact List.mem_singleton_self _

/-- From 16 to 8 bytes, 16 bytes are copied into the new block of 8. -/
theorem not_realloc_preserves : ¬∀ (as : List Action) (σ : System Nat),
    runs (step nextPages) as (start (fun _ => none) pageLen) = some σ →
    ∀ b ∈ σ.blocks, ∀ t, Allocates nextPages σ.space t →
      wp (realloc nextPages b.ptr t) (ReallocOk σ.space b t) (fun _ _ => False) σ.space := by
  intro hall
  obtain ⟨σ, hrun, hinv, hblocks, halloc⟩ := nextPages_malloc
  have hmem : (⟨pageLen + 8, 16⟩ : Block) ∈ σ.blocks := hblocks ▸ List.mem_singleton_self _
  have halloc := halloc 8 (by decide) (by decide)
  have hgrows := (realloc_iff hinv.sound (hinv.live _ hmem) halloc).mp
    (hall [.malloc 16] σ hrun _ hmem 8 halloc)
  exact absurd hgrows (by decide)

end Mman

end MiniRunner
