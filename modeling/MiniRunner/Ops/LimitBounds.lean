import MiniRunner.Clib.RecordReader
import MiniRunner.Ops.Bounds

/-!
# The bounds of the limits array

`initLimits` loads a file into the 4 slots of the constructor. `loadLimit` and `createLimit`
grow the array under the same capacity, but the first asks `realloc` for as many bytes as it
means slots. What lies in `n` bytes are the elements below `n / pointerSize`
(`lt_div_pointerSize_iff`), so the slots of the array count its bytes. Allocations succeed.
-/

namespace MiniRunner

open Clib Cells

namespace Bounds

theorem lt_div_pointerSize_iff {i n : Nat} :
    i < n / pointerSize ↔ pointerSize * i + pointerSize ≤ n := by
  simp only [pointerSize]
  omega

/-! ## The operations -/

/-- The fields of the limits file; none of them is rejected. -/
def limitReader : RecordReader LimitField Limit where
  delim
    | .findName => caret
    | .findMemLimit _ => hash
    | .findCpuLimit _ _ => newline
  field
    | .findName, name => some (.findMemLimit name, none)
    | .findMemLimit name, memLimitBuff => some (.findCpuLimit name (atoll128 memLimitBuff), none)
    | .findCpuLimit name memory, cpuLimitBuff =>
      some (.findName, some ⟨name, atol cpuLimitBuff, memory⟩)

section limits

variable (junk : Nat → Limit) (limits : Cells Limit)

def loadLimit (newLimit : Limit) : Except Halt (Int × Cells Limit) :=
  if limits.block.isNone then pure (-1, limits)
  else limits.enter loadLimitGrowth (limitClash · newLimit) newLimit junk

def initLimits (data : Bytes) : Except Halt (Cells Limit) :=
  (limitReader.scanner (fun limits newLimit => orAbort (loadLimit junk limits newLimit))
    fun _ => .aborted).parse .findName data limits

def createLimit (name : CStr) (cpuLimit : BitVec 64) (memLimit : BitVec 128) :
    Except Halt (Int × Cells Limit) := do
  if limits.block.isNone then pure (-1, limits)
  else
    match ← limits.find (·.name == name) with
    | some i =>
      let currentLimit ← limits.read i
      let limits ← limits.write i { currentLimit with cpu := cpuLimit, memory := memLimit }
      pure (0, limits)
    | none =>
      let limits ← (limits.reserve createLimitGrowth junk).put ⟨name, cpuLimit, memLimit⟩
      pure (0, limits)

def renameLimit (name newName : CStr) : Except Halt (Int × Cells Limit) := do
  if limits.block.isNone then pure (-1, limits)
  else
    match ← limits.find (·.name == name) with
    | some i =>
      let currentLimit ← limits.read i
      let limits ← limits.write i { currentLimit with name := newName }
      pure (0, limits)
    | none => pure (0, limits)

def removeLimit (name : CStr) : Except Halt (Int × Cells Limit) := do
  match ← limits.find (·.name == name) with
  | none => pure (0, limits)
  | some i =>
    let limits ← limits.removeAt i
    pure (0, if limits.count = 0 then limits.free else limits)

end limits

/-! ## Runs -/

inductive LimitOp where
  | create (name : CStr) (cpuLimit : BitVec 64) (memLimit : BitVec 128)
  | rename (name newName : CStr)
  | remove (name : CStr)

def startLimits (junk : Nat → Limit) : Cells Limit :=
  ⟨some ((List.range initialScaleOfResLimit).map junk), 0, initialScaleOfResLimit⟩

def limitRecords (data : Bytes) : List Limit := (limitReader.records .findName data).1

namespace LimitOp

def exec (junk : Nat → Limit) (limits : Cells Limit) : LimitOp → Except Halt (Int × Cells Limit)
  | create name cpuLimit memLimit => createLimit junk limits name cpuLimit memLimit
  | rename name newName => renameLimit limits name newName
  | remove name => removeLimit limits name

/-- One operation, with what the slots hold that it may add. -/
def step (a : LimitOp × (Nat → Limit)) (limits : Cells Limit) : Option (Cells Limit) :=
  match a.1.exec a.2 limits with
  | .ok r => some r.2
  | .error _ => none

/-- **Every element is within the allocated bytes.** -/
def InBounds (limits : Cells Limit) (a : LimitOp × (Nat → Limit)) : Prop :=
  Cells.Stays (a.1.exec a.2 limits)

end LimitOp

/-- **The whole run is within the allocated bytes**: the load, and whatever operations follow
it. -/
def LimitsInBounds (junk : Nat → Limit) (data : Bytes) (ops : List (LimitOp × (Nat → Limit))) :
    Prop :=
  Cells.Stays (initLimits junk (startLimits junk) data) ∧
    ∀ limits, initLimits junk (startLimits junk) data = .ok limits →
      Guarded LimitOp.step LimitOp.InBounds ops limits

/-- The array was freed, or is as large as its capacity says. -/
def LimitsTracked (limits : Cells Limit) : Prop :=
  limits.block = none ∧ limits.count = 0 ∨ limits.block ≠ none ∧ limits.Backed

/-! ## After the load -/

def Tracks (r : Except Halt (Int × Cells Limit)) : Prop := ∃ b, r = .ok b ∧ LimitsTracked b.2

theorem createLimitGrowth_safe : createLimitGrowth.Safe := by
  intro n
  simp [createLimitGrowth, initialScaleOfResLimit]

section ops

variable {junk : Nat → Limit} {limits limits' : Cells Limit}

theorem tracks_modify (h : limits.Backed) {i : Nat} (hslot : i < limits.slots)
    (f : Limit → Limit) : Tracks (do
      let l ← limits.read i
      let limits ← limits.write i (f l)
      pure (0, limits)) := by
  rw [read_eq hslot]
  simp only [bind, Except.bind, write_eq hslot]
  exact ⟨_, rfl, .inr ⟨nofun, h.set i _⟩⟩

theorem tracks_createLimit (h : LimitsTracked limits) (name : CStr) (cpuLimit : BitVec 64)
    (memLimit : BitVec 128) : Tracks (createLimit junk limits name cpuLimit memLimit) := by
  rw [createLimit]
  rcases h with ⟨hnone, hcount⟩ | ⟨hsome, h⟩
  · rw [if_pos (by rw [hnone]; rfl)]
    exact ⟨_, rfl, .inl ⟨hnone, hcount⟩⟩
  · rw [if_neg (by simpa using hsome)]
    rcases h.find (·.name == name) with hfind | ⟨i, hfind, -, hslot⟩
    · obtain ⟨hr, hlt⟩ := h.reserve createLimitGrowth_safe junk
      obtain ⟨t, ht, hbacked, hblock⟩ := hr.push hlt ⟨name, cpuLimit, memLimit⟩
      rw [hfind]
      simp only [bind, Except.bind, put_eq, ht]
      exact ⟨_, rfl, .inr ⟨hblock, hbacked⟩⟩
    · rw [hfind]
      exact tracks_modify h hslot fun l => { l with cpu := cpuLimit, memory := memLimit }

theorem tracks_renameLimit (h : LimitsTracked limits) (name newName : CStr) :
    Tracks (renameLimit limits name newName) := by
  rw [renameLimit]
  rcases h with ⟨hnone, hcount⟩ | ⟨hsome, h⟩
  · rw [if_pos (by rw [hnone]; rfl)]
    exact ⟨_, rfl, .inl ⟨hnone, hcount⟩⟩
  · rw [if_neg (by simpa using hsome)]
    rcases h.find (·.name == name) with hfind | ⟨i, hfind, -, hslot⟩
    · rw [hfind]
      exact ⟨_, rfl, .inr ⟨hsome, h⟩⟩
    · rw [hfind]
      exact tracks_modify h hslot fun l => { l with name := newName }

theorem tracks_removeLimit (h : LimitsTracked limits) (name : CStr) :
    Tracks (removeLimit limits name) := by
  rw [removeLimit]
  rcases h with ⟨hnone, hcount⟩ | ⟨hsome, h⟩
  · rw [find, hcount]
    exact ⟨_, rfl, .inl ⟨hnone, hcount⟩⟩
  · rcases h.find (·.name == name) with hfind | ⟨i, hfind, hi, -⟩
    · rw [hfind]
      exact ⟨_, rfl, .inr ⟨hsome, h⟩⟩
    · obtain ⟨t, ht, hbacked, hblock⟩ := h.removeAt hi
      rw [hfind]
      simp only [bind, Except.bind, ht]
      refine ⟨_, rfl, ?_⟩
      by_cases hzero : t.count = 0
      · exact .inl (by rw [if_pos hzero]; exact ⟨rfl, hzero⟩)
      · exact .inr (by rw [if_neg hzero]; exact ⟨hblock, hbacked⟩)

theorem LimitsTracked.exec (h : LimitsTracked limits) (junk : Nat → Limit) (op : LimitOp) :
    Tracks (op.exec junk limits) := by
  cases op with
  | create name cpuLimit memLimit => exact tracks_createLimit h name cpuLimit memLimit
  | rename name newName => exact tracks_renameLimit h name newName
  | remove name => exact tracks_removeLimit h name

theorem LimitsTracked.inBounds (h : LimitsTracked limits) {a : LimitOp × (Nat → Limit)} :
    LimitOp.InBounds limits a := by
  obtain ⟨b, hb, -⟩ := h.exec a.2 a.1
  rw [LimitOp.InBounds, hb]
  trivial

theorem LimitsTracked.step (h : LimitsTracked limits) {a : LimitOp × (Nat → Limit)}
    (hstep : LimitOp.step a limits = some limits') : LimitsTracked limits' := by
  obtain ⟨b, hb, hkept⟩ := h.exec a.2 a.1
  rw [LimitOp.step, hb] at hstep
  cases hstep
  exact hkept

end ops

/-! ## The load -/

section load

variable {junk : Nat → Limit} {limits : Cells Limit} {t : Table Limit}

/-- The array of a load, which never grows, and its table. -/
def Loading (limits : Cells Limit) (t : Table Limit) : Prop := limits.Shows t ∧ LimitBlock t

theorem Loading.block (h : Loading limits t) : limits.block ≠ none := by
  intro hnone
  have hslots := h.1.slots.trans h.2.2
  rw [Cells.slots, Cells.cells, hnone] at hslots
  cases hslots

theorem Loading.tracked (h : Loading limits t) : LimitsTracked limits := by
  obtain ⟨hshows, hcap, hslots⟩ := id h
  have hcells : limits.slots = 4 := hshows.slots.trans hslots
  refine .inr ⟨h.block, ?_, ?_⟩
  · rw [hshows.count, hshows.capacity, hcap, ← hslots]
    exact t.inBlock
  · rw [hshows.capacity, hcap, hcells]

theorem loadLimit_agrees (h : Loading limits t) (newLimit : Limit) :
    Cells.Agrees Loading (orAbort (loadLimit junk limits newLimit))
      (limitsFormat.load t newLimit) := by
  have hsome : limits.block.isNone = false := by
    obtain ⟨l, hl⟩ := Option.ne_none_iff_exists'.mp h.block
    rw [hl]
    rfl
  have hnull : t.isNull = false := by simp [Table.isNull, h.2.2]
  have hload : limitsFormat.load t newLimit =
      orAbort (t.insert loadLimitGrowth (limitClash · newLimit) newLimit) := by
    simp only [limitsFormat, MiniRunner.loadLimit, hnull, Bool.false_eq_true, if_false]
  have hins := (h.1.insert loadLimitGrowth (limitClash · newLimit) junk newLimit).orAbort
  rw [← hload] at hins
  rw [loadLimit, hsome, if_neg Bool.false_ne_true, enter_eq]
  cases hr : orAbort (limits.insert loadLimitGrowth (limitClash · newLimit) newLimit junk) <;>
    cases hu : limitsFormat.load t newLimit <;> rw [hr, hu] at hins
  · exact hins
  · exact hins.elim
  · exact hins.elim
  · exact ⟨hins, limits_loads.keeps hu h.2⟩

theorem loading_start (junk : Nat → Limit) : Loading (startLimits junk) initialLimits := by
  refine ⟨⟨?_, rfl, rfl, ?_⟩, limitBlock_initialLimits⟩
  · simp [startLimits, initialLimits, Table.alloc]
  · simp [startLimits, Cells.slots, initialLimits, Table.alloc]

theorem limitReader_accepts (q : LimitField) (s : CStr) : limitReader.field q s ≠ none := by
  cases q <;> exact nofun

/-- **The load** goes through the records of the file. -/
theorem initLimits_agrees (junk : Nat → Limit) (data : Bytes) :
    Cells.Agrees Loading (initLimits junk (startLimits junk) data)
      ((limitRecords data).foldlM limitsFormat.load initialLimits) := by
  rw [initLimits, RecordReader.parse_eq_foldlM limitReader_accepts]
  exact Cells.Agrees.foldlM (fun h => loadLimit_agrees h) (limitRecords data) (loading_start junk)

theorem initLimits_eq (data : Bytes) : MiniRunner.initLimits initialLimits data =
    (limitRecords data).foldlM limitsFormat.load initialLimits := by
  have hscanner : limitsScanner =
      limitReader.scanner (fun t l => orAbort (MiniRunner.loadLimit l t)) fun _ => .aborted := by
    rw [limitsScanner, RecordReader.scanner]
    congr 1
    funext q s t
    cases q <;> rfl
  rw [MiniRunner.initLimits, hscanner, RecordReader.parse_eq_foldlM limitReader_accepts]
  rfl

theorem foldlM_load_few {l : List Limit} (hd : DistinctLimits l) (hn : l.length ≤ limitLimit) :
    ∃ t, l.foldlM limitsFormat.load initialLimits = .ok t ∧ t.items = l ∧ LimitBlock t :=
  limits_loads.complete limitBlock_initialLimits hn hd

/-- The fifth record has no slot. -/
theorem foldlM_load_many {l : List Limit} (hd : DistinctLimits l) (hn : limitLimit < l.length) :
    l.foldlM limitsFormat.load initialLimits = .error .undefined := by
  have hsplit : l = l.take limitLimit ++ l.drop limitLimit := (List.take_append_drop _ _).symm
  have hlen : (l.take limitLimit).length = limitLimit := List.length_take_of_le hn.le
  obtain ⟨t, ht, hitems, hblock⟩ := foldlM_load_few (hd.sublist (List.take_sublist _ _)) hlen.le
  obtain ⟨x, rest, hdrop⟩ : ∃ x rest, l.drop limitLimit = x :: rest :=
    List.exists_cons_of_length_pos (by rw [List.length_drop]; omega)
  have hfresh : ∀ y ∈ t.items, ¬limitClash y x = true := by
    rw [hsplit, hdrop] at hd
    rw [hitems]
    exact fun y hy => (List.pairwise_append.mp hd).2.2 y hy x (by simp)
  have hfull : limitsFormat.load t x = .error .undefined := by
    have hnull : t.isNull = false := by simp [Table.isNull, hblock.2]
    have happend := hblock.append_full x (by rw [hitems, hlen])
    simp only [limitsFormat, MiniRunner.loadLimit, hnull, Bool.false_eq_true, if_false]
    rw [Table.insert_of_fresh (List.any_eq_false.mpr hfresh), happend]
    rfl
  rw [hsplit, hdrop, List.foldlM_append, ht]
  change List.foldlM limitsFormat.load t (x :: rest) = _
  rw [List.foldlM_cons, hfull]
  rfl

end load

/-- **The limits array stays in its allocation**, whatever follows the load of a file with
distinct names, if and only if the file has at most four records: `realloc` leaves one slot
for the fifth. -/
theorem limits_inBounds_iff (junk : Nat → Limit) (data : Bytes)
    (hd : DistinctLimits (limitRecords data)) (ops : List (LimitOp × (Nat → Limit))) :
    LimitsInBounds junk data ops ↔ (limitRecords data).length ≤ limitLimit := by
  have hagree := initLimits_agrees junk data
  constructor
  · rintro ⟨hstays, -⟩
    refine Nat.le_of_not_lt fun hn => ?_
    rw [foldlM_load_many hd hn] at hagree
    cases hr : initLimits junk (startLimits junk) data with
    | ok limits => rw [hr] at hagree; exact hagree
    | error e =>
      rw [hr] at hagree hstays
      cases hagree
      exact hstays
  · intro hn
    obtain ⟨t, ht, -⟩ := foldlM_load_few hd hn
    rw [ht] at hagree
    cases hr : initLimits junk (startLimits junk) data with
    | error e => rw [hr] at hagree; exact hagree.elim
    | ok limits =>
      rw [hr] at hagree
      refine ⟨by rw [hr]; trivial, fun limits' h' => ?_⟩
      rw [hr] at h'
      cases h'
      exact guarded_of_inv (fun h => LimitsTracked.inBounds h) (fun h hs => LimitsTracked.step h hs)
        ops (Loading.tracked hagree)

def blankLimit : Nat → Limit := fun _ => ⟨.empty, 0, 0⟩

/-- `a^1#1`, `b^1#1` and so on, one a line. -/
def limitLines (names : List UInt8) : Bytes :=
  names.flatMap fun name => [name, 94, 49, 35, 49, 10]

/-- Four records, and then a fifth that is created. -/
theorem limits_inBounds_four : LimitsInBounds blankLimit (limitLines [97, 98, 99, 100])
    [(.create (.ofBytes [101]) 1 1, blankLimit)] :=
  (limits_inBounds_iff blankLimit _ (by decide) _).mpr (by decide)

/-- Five records: the load writes the last one past the 8 bytes of the array. -/
theorem not_limits_inBounds : DistinctLimits (limitRecords (limitLines [97, 98, 99, 100, 101])) ∧
    ¬LimitsInBounds blankLimit (limitLines [97, 98, 99, 100, 101]) [] :=
  ⟨by decide, fun h => absurd h.1 (by decide)⟩

end Bounds

end MiniRunner
