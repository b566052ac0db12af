import MiniRunner.Clib.Memory
import MiniRunner.Clib.Exec
import MiniRunner.Clib.Runs

/-!
# The arenas of the start-up program

`entry/mm/model.c`. An arena is a region from `Malloc` and an index into it. `bMalloc` takes
the first arena whose index is below its capacity, puts a header of 17 bytes at the index
and the block behind it, and moves the index on; when every arena is full it makes a new one.

The regions come from a `Malloc` that only promises to return memory nobody holds
(`Mallocs.fresh`), which `malloc_apart` says of the allocator over `mmap`. `made` keeps the
regions of all arenas, also of those that `memAllocs` no longer leads to.
-/

namespace MiniRunner

open Clib Clib.Exec

namespace Arenas

/-- `Malloc` on the regions that are handed out; `none` is NULL. -/
structure Mallocs (W : Type) where
  malloc : BitVec 64 → List Range → W → Option Nat × W
  fresh : ∀ {size : BitVec 64} {held : List Range} {w : W} {p : Nat},
    (malloc size held w).1 = some p → ∀ r ∈ held, Range.Apart ⟨p, size.toNat⟩ r

/-- `struct memory`, at the address `self`; `next` is the rest of the list it stands in. -/
structure Arena where
  self : Nat
  mem : Nat
  base : Nat
  capacity : BitVec 64
  index : BitVec 64
  deriving DecidableEq, Repr

/-- The three values in front of a block. -/
structure Header where
  base : Nat
  state : Bool
  size : BitVec 64
  max : BitVec 64
  deriving DecidableEq, Repr

/-- What `bMalloc` returned, with the size asked for. -/
structure Block where
  ptr : Nat
  size : BitVec 64
  deriving DecidableEq, Repr

structure Heap (W : Type) where
  memAllocs : List Arena
  regions : List Range
  made : List Range
  headers : List Header
  blocks : List Block
  world : W

def initialMemAllocationSize : BitVec 64 := 4096
/-- `sizeof(memory)`. -/
def sizeofMemory : BitVec 64 := 40
/-- `(sizeof(__uint64_t) * 2) + sizeof(_Bool)`. -/
def headerSize : Nat := 17

def Block.whole (b : Block) : Range := ⟨b.ptr - headerSize, b.size.toNat + headerSize⟩

/-- The loop of `bMalloc`: the header it writes and the arenas after it, when one has room. -/
def takeArena (size totalSize : BitVec 64) : List Arena → Option (Header × List Arena)
  | [] => none
  | a :: next =>
    if a.capacity ≤ a.index then
      match takeArena size totalSize next with
      | none => none
      | some (header, next) => some (header, a :: next)
    else
      some ({ base := a.mem + a.index.toNat, state := true, size := size,
              max := a.capacity + BitVec.ofNat 64 a.base },
        { a with index := a.index + totalSize } :: next)

section calls

variable {W : Type} (o : Mallocs W)

/-- `Malloc(size)`. -/
def malloc (size : BitVec 64) : Exec (Heap W) (Option Nat) := fun h =>
  match o.malloc size h.regions h.world with
  | (none, w) => .ok none { h with world := w }
  | (some p, w) => .ok (some p) { h with regions := ⟨p, size.toNat⟩ :: h.regions, world := w }

/-- `Free(mem)`. -/
def free (mem : Nat) : Exec (Heap W) Unit :=
  modify fun h => { h with regions := h.regions.filter fun r => decide (r.base ≠ mem) }

def initMm : Exec (Heap W) Unit := do
  match ← malloc o sizeofMemory with
  | none => throw .aborted
  | some tmp =>
    match ← malloc o initialMemAllocationSize with
    | none => do
      free tmp
      throw .aborted
    | some initialMemory =>
      modify fun h =>
        { h with
          memAllocs := [{ self := tmp, mem := initialMemory, base := initialMemory,
                          capacity := initialMemAllocationSize, index := 0 }],
          made := ⟨initialMemory, initialMemAllocationSize.toNat⟩ :: h.made }

/-- `bMalloc` where every arena is full. The header goes to the new region, the pointer it
returns is behind the `struct memory`, and the new arena takes the place of the first. -/
def newArena (totalSize : BitVec 64) : Exec (Heap W) (Option Nat) := do
  match (← get).memAllocs with
  | [] => throw .undefined
  | first :: before =>
    let newSize := first.capacity * 3 / 2
    match ← malloc o sizeofMemory with
    | none => return none
    | some newMemAlloc =>
      match ← malloc o newSize with
      | none => do
        free newMemAlloc
        return none
      | some newMemorySlot => do
        modify fun h =>
          { h with
            memAllocs := { self := newMemAlloc, mem := newMemorySlot, base := newMemorySlot,
                           capacity := newSize, index := newSize } :: before,
            made := ⟨newMemorySlot, newSize.toNat⟩ :: h.made,
            headers := { base := newMemorySlot, state := true, size := totalSize,
                         max := newSize + BitVec.ofNat 64 newMemorySlot } :: h.headers }
        return some (newMemAlloc + headerSize)

def bMalloc (size : BitVec 64) : Exec (Heap W) (Option Nat) := do
  if size = 0 then return none
  let totalSize := size + BitVec.ofNat 64 headerSize
  let h ← get
  match takeArena size totalSize h.memAllocs with
  | some (header, arenas) => do
    set { h with memAllocs := arenas, headers := header :: h.headers }
    return some (header.base + headerSize)
  | none => newArena o totalSize

def step (size : BitVec 64) (h : Heap W) : Option (Heap W) :=
  match (bMalloc o size).run h with
  | .ok (some p) h' => some { h' with blocks := ⟨p, size⟩ :: h'.blocks }
  | _ => none

end calls

/-- The process before `initMm`. -/
def start {W : Type} (w : W) : Heap W :=
  { memAllocs := [], regions := [], made := [], headers := [], blocks := [], world := w }

/-- The bytes that requests take, each with its header. -/
def needed : List (BitVec 64) → Nat
  | [] => 0
  | size :: sizes => size.toNat + headerSize + needed sizes

/-- Every block, with its header, is inside the region of one arena, and no two overlap. -/
structure BlocksOk {W : Type} (h : Heap W) : Prop where
  inside : ∀ b ∈ h.blocks, ∃ r ∈ h.made, b.whole.Within r
  apart : h.blocks.Pairwise fun b b' => b.whole.Apart b'.whole

/-! ## What a request does -/

section specs

variable {W : Type} {o : Mallocs W} {h h' : Heap W} {E : Halt → Heap W → Prop}

theorem malloc_spec (o : Mallocs W) (size : BitVec 64) (h : Heap W) :
    wp (malloc o size) (fun p h' => ∃ w,
      (p = none ∧ h' = { h with world := w }) ∨
      ∃ base, p = some base ∧
        h' = { h with regions := ⟨base, size.toNat⟩ :: h.regions, world := w } ∧
        ∀ r ∈ h.regions, Range.Apart ⟨base, size.toNat⟩ r) E h := by
  simp only [wp, EStateM.run, malloc]
  rcases hout : o.malloc size h.regions h.world with ⟨_ | base, w⟩
  · exact ⟨w, .inl ⟨rfl, rfl⟩⟩
  · exact ⟨w, .inr ⟨base, rfl, rfl, o.fresh (congrArg Prod.fst hout)⟩⟩

/-- The heap with a new arena in front, whose `struct memory` is at `addr`. -/
structure Renewed (h : Heap W) (addr : Nat) (h' : Heap W) : Prop where
  regions : ∃ slot size : Nat, h'.made = ⟨slot, size⟩ :: h.made ∧
    h'.regions = ⟨slot, size⟩ :: ⟨addr, sizeofMemory.toNat⟩ :: h.regions ∧
    ∀ r ∈ ⟨addr, sizeofMemory.toNat⟩ :: h.regions, Range.Apart ⟨slot, size⟩ r
  self_apart : ∀ r ∈ h.regions, Range.Apart ⟨addr, sizeofMemory.toNat⟩ r
  blocks : h'.blocks = h.blocks

theorem newArena_spec (totalSize : BitVec 64) :
    wp (newArena o totalSize)
      (fun p h' => p = none ∨ ∃ self, p = some (self + headerSize) ∧ Renewed h self h')
      (fun _ _ => True) h := by
  unfold newArena
  rw [wp_bind, wp_get]
  cases h.memAllocs with
  | nil => exact (wp_throw _).mpr trivial
  | cons first before =>
    rw [wp_bind]
    refine wp_mono (malloc_spec o sizeofMemory h) ?_ fun _ _ he => he
    rintro p h₁ ⟨w, ⟨rfl, rfl⟩ | ⟨self, rfl, rfl, hself⟩⟩
    · exact (wp_pure _).mpr (.inl rfl)
    · rw [wp_bind]
      refine wp_mono (malloc_spec o (first.capacity * 3 / 2) _) ?_ fun _ _ he => he
      rintro p h₂ ⟨w', ⟨rfl, rfl⟩ | ⟨slot, rfl, rfl, hslot⟩⟩
      · rw [wp_bind, free, wp_modify]
        exact (wp_pure _).mpr (.inl rfl)
      · rw [wp_bind, wp_modify]
        refine (wp_pure _).mpr (.inr ⟨self, rfl, ⟨slot, _, rfl, rfl, hslot⟩, hself, rfl⟩)

/-- What every request leaves of the heap: the regions are still held, and a new arena is in
memory that nobody held. -/
structure Extends (h h' : Heap W) : Prop where
  regions : ∀ r ∈ h.regions, r ∈ h'.regions
  made : ∀ s ∈ h'.made, s ∈ h.made ∨ ∀ r ∈ h.regions, Range.Apart s r
  blocks : h'.blocks = h.blocks

theorem Renewed.extends {self : Nat} (hn : Renewed h self h') : Extends h h' := by
  obtain ⟨slot, size, hmade, hregions, hslot⟩ := hn.regions
  refine ⟨fun r hr => ?_, fun s hs => ?_, hn.blocks⟩
  · rw [hregions]
    exact List.mem_cons_of_mem _ (List.mem_cons_of_mem _ hr)
  · rw [hmade] at hs
    rcases List.mem_cons.mp hs with rfl | hs
    · exact .inr fun r hr => hslot r (List.mem_cons_of_mem _ hr)
    · exact .inl hs

theorem bMalloc_extends (size : BitVec 64) :
    wp (bMalloc o size) (fun p h' => p = none ∨ Extends h h') (fun _ _ => True) h := by
  unfold bMalloc
  rw [wp_ite]
  refine ⟨fun _ => (wp_pure _).mpr (.inl rfl), fun _ => ?_⟩
  rw [wp_bind, wp_get]
  cases takeArena size (size + BitVec.ofNat 64 headerSize) h.memAllocs with
  | some out =>
    rw [wp_bind, wp_set]
    exact (wp_pure _).mpr (.inr ⟨fun _ hr => hr, fun _ hs => .inl hs, rfl⟩)
  | none =>
    refine wp_mono (newArena_spec _) ?_ fun _ _ _ => trivial
    rintro p h₁ (rfl | ⟨self, rfl, hn⟩)
    · exact .inl rfl
    · exact .inr hn.extends

theorem step_run {size : BitVec 64} (hs : step o size h = some h') :
    ∃ p h₁, (bMalloc o size).run h = .ok (some p) h₁ ∧
      h' = { h₁ with blocks := ⟨p, size⟩ :: h₁.blocks } := by
  rw [step] at hs
  split at hs
  · rename_i p h₁ hrun
    exact ⟨p, h₁, hrun, (Option.some.inj hs).symm⟩
  · cases hs

end specs

/-! ## Blocks outside of the arenas -/

section runs

variable {W : Type} {o : Mallocs W} {h h' : Heap W}

/-- A block that starts in the region `r` and is in no arena. -/
structure Spoiled (h : Heap W) (b : Block) (r : Range) : Prop where
  block : b ∈ h.blocks
  region : r ∈ h.regions
  starts : r.Has b.whole.base
  outside : ∀ s ∈ h.made, ¬b.whole.Within s

theorem Block.whole_has (b : Block) : b.whole.Has b.whole.base :=
  ⟨Nat.le_refl _, Nat.lt_add_of_pos_right (Nat.lt_of_lt_of_le (by decide) (Nat.le_add_left _ _))⟩

theorem not_within_of_apart {b : Block} {r s : Range} (hstarts : r.Has b.whole.base)
    (hapart : s.Apart r) : ¬b.whole.Within s := fun hin =>
  hapart.not_has (hin.has b.whole_has) hstarts

theorem spoiled_step {b : Block} {r : Range} (hb : Spoiled h b r) {size : BitVec 64}
    (hs : step o size h = some h') : Spoiled h' b r := by
  obtain ⟨p, h₁, hrun, rfl⟩ := step_run hs
  have hext := (wp_run_ok (bMalloc_extends size) hrun).resolve_left (Option.some_ne_none p)
  refine ⟨?_, hext.regions r hb.region, hb.starts, fun s hs => ?_⟩
  · rw [hext.blocks]
    exact List.mem_cons_of_mem _ hb.block
  · rcases hext.made s hs with hold | hnew
    · exact hb.outside s hold
    · exact not_within_of_apart hb.starts (hnew r hb.region)

theorem spoiled_runs {b : Block} {r : Range} (hb : Spoiled h b r) {sizes : List (BitVec 64)}
    (hrun : runs (step o) sizes h = some h') : Spoiled h' b r :=
  runs_inv (I := fun h => Spoiled h b r) (fun hb hs => spoiled_step hb hs) hb hrun

theorem Spoiled.not_ok {b : Block} {r : Range} (hb : Spoiled h b r) : ¬BlocksOk h := fun hok => by
  obtain ⟨s, hs, hin⟩ := hok.inside b hb.block
  exact hb.outside s hs hin

/-! ## Blocks in the first arena -/

/-- The heap of `initMm` with the first `used` bytes of the one arena handed out. -/
structure Laid (h : Heap W) (base used : Nat) : Prop where
  arena : ∃ a : Arena, h.memAllocs = [a] ∧ a.mem = base ∧
    a.capacity = initialMemAllocationSize ∧ a.index.toNat = used
  used_le : used ≤ 4096
  made : h.made = [⟨base, 4096⟩]
  region : ⟨base, 4096⟩ ∈ h.regions
  blocks : ∀ b ∈ h.blocks, b.whole.Within ⟨base, used⟩
  apart : h.blocks.Pairwise fun b b' => b.whole.Apart b'.whole

theorem Laid.ok {base used : Nat} (hl : Laid h base used) : BlocksOk h where
  inside := by
    intro b hb
    refine ⟨⟨base, 4096⟩, hl.made ▸ List.mem_singleton_self _, (hl.blocks b hb).trans ?_⟩
    exact ⟨Nat.le_refl _, Nat.add_le_add_left hl.used_le _⟩
  apart := hl.apart

theorem not_full_iff {a : Arena} {used : Nat} (hcapacity : a.capacity = initialMemAllocationSize)
    (hindex : a.index.toNat = used) : a.capacity ≤ a.index ↔ 4096 ≤ used := by
  rw [BitVec.le_def, hcapacity, hindex]
  exact Iff.rfl

/-- The heap with `size` more bytes handed out of its one arena. -/
structure Taken (h : Heap W) (base used : Nat) (h' : Heap W) : Prop where
  arena : ∃ a : Arena, h'.memAllocs = [a] ∧ a.mem = base ∧
    a.capacity = initialMemAllocationSize ∧ (used < 2 ^ 64 → a.index.toNat = used)
  made : h'.made = h.made
  regions : h'.regions = h.regions
  blocks : h'.blocks = h.blocks

/-- A request while the first arena has a byte left. -/
theorem bMalloc_room {base used : Nat} (hl : Laid h base used) (hroom : used < 4096)
    {size : BitVec 64} (hsize : size ≠ 0) :
    wp (bMalloc o size) (fun p h' => p = some (base + used + headerSize) ∧
      Taken h base (used + (size.toNat + headerSize)) h') (fun _ _ => False) h := by
  obtain ⟨a, hmem, rfl, hcapacity, rfl⟩ := hl.arena
  have hnot : ¬a.capacity ≤ a.index := fun hle => by
    have := (not_full_iff hcapacity rfl).mp hle
    omega
  unfold bMalloc
  rw [wp_ite]
  refine ⟨fun hzero => absurd hzero hsize, fun _ => ?_⟩
  rw [wp_bind, wp_get, hmem, takeArena, if_neg hnot]
  rw [wp_bind, wp_set, wp_pure]
  refine ⟨rfl, ⟨_, rfl, rfl, hcapacity, fun hlt => ?_⟩, rfl, rfl, rfl⟩
  rw [BitVec.toNat_add, BitVec.toNat_add]
  unfold headerSize at *
  simp only [BitVec.toNat_ofNat]
  omega

theorem bMalloc_full {base : Nat} (hl : Laid h base 4096) {size : BitVec 64} :
    wp (bMalloc o size)
      (fun p h' => p = none ∨ ∃ addr, p = some (addr + headerSize) ∧ Renewed h addr h')
      (fun _ _ => True) h := by
  obtain ⟨a, hmem, rfl, hcapacity, hindex⟩ := hl.arena
  have hfull : a.capacity ≤ a.index := (not_full_iff hcapacity hindex).mpr (Nat.le_refl _)
  unfold bMalloc
  rw [wp_ite]
  refine ⟨fun _ => (wp_pure _).mpr (.inl rfl), fun _ => ?_⟩
  rw [wp_bind, wp_get, hmem, takeArena, if_pos hfull, takeArena]
  exact newArena_spec _

/-- **A request that fits** goes behind the blocks that are there. -/
theorem laid_step {base used : Nat} (hl : Laid h base used) {size : BitVec 64}
    (hfits : used + (size.toNat + headerSize) ≤ 4096) (hs : step o size h = some h') :
    Laid h' base (used + (size.toNat + headerSize)) := by
  obtain ⟨p, h₁, hrun, rfl⟩ := step_run hs
  have hsize : size ≠ 0 := by
    rintro rfl
    cases hs
  have hroom : used < 4096 := by
    unfold headerSize at hfits
    omega
  obtain ⟨hp, ht⟩ := wp_run_ok (bMalloc_room hl hroom hsize) hrun
  obtain rfl := Option.some.inj hp
  obtain ⟨a, hmem, hbase, hcapacity, hindex⟩ := ht.arena
  have hwhole : Block.whole ⟨base + used + headerSize, size⟩ =
      ⟨base + used, size.toNat + headerSize⟩ := by
    rw [Block.whole, Nat.add_sub_cancel]
  have hlt : used + (size.toNat + headerSize) < 2 ^ 64 :=
    Nat.lt_of_le_of_lt hfits (by decide)
  refine
    { arena := ⟨a, hmem, hbase, hcapacity, hindex hlt⟩
      used_le := hfits
      made := ht.made.trans hl.made
      region := ht.regions ▸ hl.region
      blocks := ?_
      apart := ?_ }
  · rw [ht.blocks]
    rintro b (_ | ⟨_, hb⟩)
    · rw [hwhole]
      exact ⟨Nat.le_add_right _ _, Nat.le_of_eq (Nat.add_assoc _ _ _)⟩
    · exact (hl.blocks b hb).trans ⟨Nat.le_refl _, Nat.add_le_add_left (Nat.le_add_right _ _) _⟩
  · rw [ht.blocks]
    refine List.Pairwise.cons (fun b hb => ?_) hl.apart
    rw [hwhole]
    exact .inr (hl.blocks b hb).2

/-- **The first request that does not fit** is spoiled: its block starts in the first arena
and ends behind it, or it lies on the `struct memory` of a new arena. -/
theorem spoiled_of_laid {base used : Nat} (hl : Laid h base used) {size : BitVec 64}
    (hover : 4096 < used + (size.toNat + headerSize)) (hs : step o size h = some h') :
    ∃ b r, Spoiled h' b r := by
  obtain ⟨p, h₁, hrun, rfl⟩ := step_run hs
  have hsize : size ≠ 0 := by
    rintro rfl
    cases hs
  by_cases hroom : used < 4096
  · obtain ⟨hp, ht⟩ := wp_run_ok (bMalloc_room hl hroom hsize) hrun
    obtain rfl := Option.some.inj hp
    refine ⟨_, ⟨base, 4096⟩, List.mem_cons_self, ht.regions ▸ hl.region, ?_, ?_⟩
    · rw [Block.whole, Nat.add_sub_cancel]
      exact ⟨Nat.le_add_right _ _, Nat.add_lt_add_left hroom _⟩
    · rw [ht.made, hl.made]
      intro s hs hin
      obtain rfl := List.mem_singleton.mp hs
      have hend := hin.2
      rw [Block.whole, Nat.add_sub_cancel] at hend
      simp only [] at hend
      omega
  · obtain rfl : used = 4096 := by
      have := hl.used_le
      omega
    obtain ⟨addr, hp, hn⟩ :=
      (wp_run_ok (bMalloc_full hl) hrun).resolve_left (Option.some_ne_none p)
    obtain rfl := Option.some.inj hp
    obtain ⟨slot, length, hmade, hregions, hslot⟩ := hn.regions
    have hstarts : Range.Has ⟨addr, sizeofMemory.toNat⟩
        (Block.whole ⟨addr + headerSize, size⟩).base := by
      rw [Block.whole, Nat.add_sub_cancel]
      exact ⟨Nat.le_refl _, Nat.lt_add_of_pos_right (by decide : 0 < sizeofMemory.toNat)⟩
    refine ⟨_, ⟨addr, sizeofMemory.toNat⟩, List.mem_cons_self, ?_, hstarts, ?_⟩
    · rw [hregions]
      exact List.mem_cons_of_mem _ List.mem_cons_self
    · rw [hmade, hl.made]
      intro s hs
      rcases List.mem_pair.mp hs with rfl | rfl
      · exact not_within_of_apart hstarts (hslot _ List.mem_cons_self)
      · exact not_within_of_apart hstarts (hn.self_apart _ hl.region).symm

/-- **The blocks of a run** are in order as long as the first arena has room for them. -/
theorem laid_runs_iff {base : Nat} {sizes : List (BitVec 64)} : ∀ {h : Heap W} {used : Nat},
    Laid h base used → runs (step o) sizes h = some h' →
    (BlocksOk h' ↔ used + needed sizes ≤ 4096) := by
  induction sizes with
  | nil =>
    intro h used hl hrun
    obtain rfl := Option.some.inj hrun
    exact iff_of_true hl.ok hl.used_le
  | cons size sizes ih =>
    intro h used hl hrun
    obtain ⟨h₁, hs, hrest⟩ := runs_cons.mp hrun
    rw [needed, ← Nat.add_assoc]
    by_cases hfits : used + (size.toNat + headerSize) ≤ 4096
    · exact ih (laid_step hl hfits hs) hrest
    · obtain ⟨b, r, hb⟩ := spoiled_of_laid hl (Nat.lt_of_not_le hfits) hs
      refine iff_of_false (spoiled_runs hb hrest).not_ok fun hle => hfits ?_
      exact Nat.le_trans (Nat.le_add_right _ _) hle

/-- `initMm` makes one arena, of 4096 bytes, or stops the process. -/
theorem initMm_laid (w : W) :
    wp (initMm o) (fun _ h => ∃ base, Laid h base 0) (fun e _ => e = .aborted) (start w) := by
  unfold initMm
  rw [wp_bind]
  refine wp_mono (malloc_spec o sizeofMemory _) ?_ fun _ _ he => he
  rintro p h₁ ⟨w₁, ⟨rfl, rfl⟩ | ⟨tmp, rfl, rfl, htmp⟩⟩
  · exact (wp_throw _).mpr rfl
  · rw [wp_bind]
    refine wp_mono (malloc_spec o initialMemAllocationSize _) ?_ fun _ _ he => he
    rintro p h₂ ⟨w₂, ⟨rfl, rfl⟩ | ⟨base, rfl, rfl, hbase⟩⟩
    · rw [wp_bind, free, wp_modify]
      exact (wp_throw _).mpr rfl
    · refine (wp_modify _).mpr ⟨base, ⟨_, rfl, rfl, rfl, rfl⟩, Nat.zero_le _, rfl,
        List.mem_cons_self, ?_, List.Pairwise.nil⟩
      exact fun b hb => (List.not_mem_nil hb).elim

/-- **`bMalloc` after `initMm`**: the blocks of a run of requests that each returned a pointer
are in bounds and apart exactly when all of them, with their headers, fit into the first
arena. -/
theorem bMalloc_blocks_iff {w : W} {sizes : List (BitVec 64)}
    (hinit : (initMm o).run (start w) = .ok () h) (hrun : runs (step o) sizes h = some h') :
    BlocksOk h' ↔ needed sizes ≤ 4096 := by
  obtain ⟨base, hl⟩ := wp_run_ok (initMm_laid w) hinit
  rw [laid_runs_iff hl hrun, Nat.zero_add]

end runs

/-! ## A `Malloc` that goes upwards -/

/-- The first address above all that is held. -/
def top (held : List Range) : Nat := held.foldr (fun r n => max (r.base + r.size) n) 4096

theorem le_top {held : List Range} : ∀ r ∈ held, r.base + r.size ≤ top held := by
  induction held with
  | nil => exact fun r hr => (List.not_mem_nil hr).elim
  | cons r' held ih =>
    intro r hr
    rcases List.mem_cons.mp hr with rfl | hr
    · exact Nat.le_max_left _ _
    · exact Nat.le_trans (ih r hr) (Nat.le_max_right _ _)

def upwards : Mallocs Unit where
  malloc _ held w := (some (top held), w)
  fresh := by
    intro size held w p hp r hr
    obtain rfl := Option.some.inj hp
    exact .inr (le_top r hr)

/-- The heap it leads `initMm` to. -/
def firstArena : Heap Unit :=
  { memAllocs := [{ self := 4096, mem := 4136, base := 4136, capacity := 4096, index := 0 }],
    regions := [⟨4136, 4096⟩, ⟨4096, 40⟩], made := [⟨4136, 4096⟩], headers := [], blocks := [],
    world := () }

theorem initMm_upwards : (initMm upwards).run (start ()) = .ok () firstArena := rfl

/-- Two requests that fit. -/
theorem bMalloc_blocks_iff_two :
    ∃ h, runs (step upwards) [100, 3000] firstArena = some h ∧ BlocksOk h := by
  obtain ⟨h, hrun⟩ : ∃ h, runs (step upwards) [100, 3000] firstArena = some h := ⟨_, rfl⟩
  exact ⟨h, hrun, (bMalloc_blocks_iff initMm_upwards hrun).mpr (by decide)⟩

/-- With its header, a block of 4080 bytes ends one byte behind the first arena. -/
theorem not_bMalloc_blocks : ¬∀ (sizes : List (BitVec 64)) (h : Heap Unit),
    runs (step upwards) sizes firstArena = some h → BlocksOk h := by
  intro hall
  obtain ⟨base, hl⟩ := wp_run_ok (initMm_laid ()) initMm_upwards
  obtain ⟨h, hrun⟩ : ∃ h, runs (step upwards) [4080] firstArena = some h := ⟨_, rfl⟩
  exact absurd ((laid_runs_iff hl hrun).mp (hall [4080] h hrun)) (by decide)

end Arenas

end MiniRunner
