import MiniRunner.Clib.RecordFormat
import MiniRunner.Exceptions

/-!
# The limits store

`init/limit_init.c`, `utils_ops/load_limit.c`, `res_man/utils/helper.h` and the
text half of `fini/save_limit.c`. A record is `name^memory#cpu\n`.

Three things do not match each other. `loadLimit` reallocates to a number of bytes
that is meant as a number of slots, so the fifth record of a file has no slot. The
writer compares the size of the text, a `size_t`, with `-1` at every record after the
first, so it aborts at the second. And the 128-bit memory value is printed in full
but read with `atoll`.
-/

namespace MiniRunner

open Clib

/-! ## Loading -/

/-- `newCapacity` slots are recorded, `newCapacity` bytes are allocated. -/
def loadLimitGrowth : Table.Growth := fun capacity _ =>
  (capacity + initialScaleOfResLimit, (capacity + initialScaleOfResLimit) / pointerSize)

def limitClash (y x : Limit) : Bool := y.name == x.name

def loadLimit (newLimit : Limit) (limits : Table Limit) : Except Halt (Int × Table Limit) :=
  if limits.isNull then .ok (-1, limits)
  else limits.insert loadLimitGrowth (limitClash · newLimit) newLimit

/-- The states of `initLimits`, with the fields collected so far. -/
inductive LimitField where
  | findName
  | findMemLimit (name : CStr)
  | findCpuLimit (name : CStr) (memory : BitVec 128)

def limitsScanner : Scanner LimitField (Table Limit) Halt where
  delim
    | .findName => caret
    | .findMemLimit _ => hash
    | .findCpuLimit _ _ => newline
  field
    | .findName, name, limits => .ok (.findMemLimit name, limits)
    | .findMemLimit name, memLimitBuff, limits =>
      .ok (.findCpuLimit name (atoll128 memLimitBuff), limits)
    | .findCpuLimit name memory, cpuLimitBuff, limits =>
      (orAbort (loadLimit ⟨name, atol cpuLimitBuff, memory⟩ limits)).map (.findName, ·)

def initLimits (limits : Table Limit) (data : Bytes) : Except Halt (Table Limit) :=
  limitsScanner.parse .findName data limits

/-! ## Saving -/

/-- The loop that fills `temp` with the digits of `num`, last digit first; it has
`fuel` bytes of the buffer left. -/
def digitLoop : Nat → Nat → Bytes → Bytes
  | 0, _, temp => temp
  | fuel + 1, num, temp =>
    if 0 < num then digitLoop fuel (num / 10) (temp ++ [digitByte (num % 10)]) else temp

/-- `uint128_to_chars`: the digits of `temp` in reverse, or `0`. -/
def uint128ToChars (num : BitVec 128) : Bytes :=
  if num = 0 then [48] else (digitLoop 64 num.toNat []).reverse

/-- `%s^%s#%li\n`. -/
def limitText (l : Limit) : Bytes :=
  l.name.bytes ++ caret :: (uint128ToChars l.memory ++ hash :: ((fmtLong l.cpu).bytes ++
    [newline]))

/-- One round of the loop of `saveLimits`, on `dataToWrite` and `dataSize`; before the
first record the text is NULL. -/
def appendLimit : Option (Bytes × Nat) → Limit → Except Halt (Option (Bytes × Nat))
  | none, currentLimit =>
    let tmp := limitText currentLimit
    -- `size <= 0`
    if tmp.length = 0 then .error .aborted else .ok (some (tmp, tmp.length))
  | some (dataToWrite, dataSize), currentLimit =>
    let currentData := dataToWrite ++ limitText currentLimit
    -- `size <= -1` compares two `size_t`, so it holds of every size
    if BitVec.ofNat 64 currentData.length ≤ -1#64 then .error .aborted
    else .ok (some (currentData, dataSize + currentData.length))

/-- `dataToWrite` and `dataSize` after the loop. -/
def limitsData (limits : List Limit) : Except Halt (Option (Bytes × Nat)) :=
  limits.foldlM appendLimit none

/-- `memcpy` out of the allocated text and its terminator. -/
def readBytes (text : Bytes) (n : Nat) : Except Halt Bytes :=
  if n ≤ text.length + 1 then .ok ((text ++ [0]).take n) else .error .undefined

/-! ## Numerals -/

theorem digitLoop_eq (fuel : Nat) :
    ∀ (num : Nat) (temp : Bytes), num < 10 ^ fuel →
      digitLoop fuel num temp = temp ++ (Nat.digits 10 num).map digitByte := by
  induction fuel with
  | zero =>
    intro num temp h
    have : num = 0 := by omega
    subst this
    simp [digitLoop]
  | succ fuel ih =>
    intro num temp h
    unfold digitLoop
    split
    · rename_i hpos
      have hdiv : num / 10 < 10 ^ fuel := by
        rw [pow_succ] at h
        omega
      rw [ih _ _ hdiv, List.append_assoc]
      conv_rhs => rw [Nat.digits_def' (by decide) hpos]
      rfl
    · have : num = 0 := by omega
      subst this
      simp

/-- **`uint128_to_chars` prints the canonical numeral.** -/
theorem uint128ToChars_eq (num : BitVec 128) : uint128ToChars num = fmtNat num.toNat := by
  have hlt : num.toNat < 10 ^ 64 := lt_trans num.isLt (by norm_num)
  have hz : num = 0 ↔ num.toNat = 0 := by rw [← BitVec.toNat_inj]; rfl
  unfold uint128ToChars fmtNat
  by_cases h : num = 0
  · rw [if_pos h, if_pos (hz.mp h)]
  · rw [if_neg h, if_neg (hz.not.mp h), digitLoop_eq 64 _ _ hlt, List.nil_append,
      List.map_reverse]

/-! ## The format -/

structure Limit.Ok (l : Limit) : Prop where
  name : caret ∉ l.name.bytes

/-- The limit a reader makes of the text of a limit: `atoll` saturates. -/
def Limit.readBack (l : Limit) : Limit :=
  { l with memory := atoll128 (fmtNatStr l.memory.toNat) }

theorem Limit.readBack_eq_iff (l : Limit) : l.readBack = l ↔ l.memory.toNat < 2 ^ 63 := by
  rw [← atoll128_fmtNatStr_eq_iff]
  constructor
  · intro h
    exact congrArg Limit.memory h
  · intro h
    simp only [readBack, h]

namespace LimitField

def Ok : LimitField → Prop
  | findName => True
  | findMemLimit name => caret ∉ name.bytes
  | findCpuLimit name _ => caret ∉ name.bytes

end LimitField

theorem limits_record {l : Limit} (hl : l.Ok) (t : Table Limit) (rest : Bytes) :
    limitsScanner.run ⟨.findName, [], t⟩ (limitText l ++ rest) =
      orAbort (loadLimit l.readBack t) >>= fun t' =>
        limitsScanner.run ⟨.findName, [], t'⟩ rest := by
  have hname := Scanner.run_field limitsScanner (q := .findName) hl.name
  have hmem := Scanner.run_field limitsScanner (q := .findMemLimit l.name)
    (show hash ∉ (fmtNatStr l.memory.toNat).bytes from notMem_fmtNat (by decide))
  have hcpu := Scanner.run_field limitsScanner (q := .findCpuLimit l.name l.readBack.memory)
    (show newline ∉ (fmtLong l.cpu).bytes from notMem_fmtInt (by decide) (by decide))
  have htext : limitText l ++ rest = l.name.bytes ++ caret ::
      ((fmtNatStr l.memory.toNat).bytes ++ hash :: ((fmtLong l.cpu).bytes ++ newline :: rest)) := by
    simp [limitText, uint128ToChars_eq, fmtNatStr]
  rw [htext]
  refine (hname t _).trans ((hmem t _).trans ((hcpu t rest).trans ?_))
  simp only [limitsScanner, atol_fmtLong]
  show ((orAbort (loadLimit l.readBack t)).map _ >>= _) = _
  cases orAbort (loadLimit l.readBack t) <;> rfl

def limitsFormat : RecordFormat LimitField Limit where
  scanner := limitsScanner
  start := .findName
  text := limitText
  load t l := orAbort (loadLimit l t)
  readBack := Limit.readBack
  Ok := Limit.Ok
  PhaseOk := LimitField.Ok
  start_ok := trivial
  record := limits_record
  field_loads {q s t q' t'} hdelim hq h := by
    cases q with
    | findName =>
      cases h
      exact ⟨hdelim, .inl rfl⟩
    | findMemLimit name =>
      cases h
      exact ⟨hq, .inl rfl⟩
    | findCpuLimit name memory =>
      cases hl : orAbort (loadLimit ⟨name, atol s, memory⟩ t) with
      | error e => simp only [limitsScanner, hl] at h; cases h
      | ok u =>
        simp only [limitsScanner, hl] at h
        cases h
        exact ⟨trivial, .inr ⟨⟨name, atol s, memory⟩, ⟨hq⟩, hl⟩⟩

/-! ## The block -/

def limitLimit : Nat := 4

/-- The block never grows while it is loaded. -/
def LimitBlock (t : Table Limit) : Prop := t.capacity = 4 ∧ t.slots = 4

theorem LimitBlock.append {t : Table Limit} (ht : LimitBlock t) (x : Limit)
    (h : t.items.length < limitLimit) :
    ∃ t', t.append loadLimitGrowth x = .ok t' ∧ LimitBlock t' := by
  obtain ⟨hc, hs⟩ := ht
  simp only [limitLimit] at h
  exact ⟨_, Table.append_of_room (by omega) (by omega), hc, hs⟩

/-- **The fifth record** is written past the 8 bytes that `realloc` leaves. -/
theorem LimitBlock.append_full {t : Table Limit} (ht : LimitBlock t) (x : Limit)
    (h : limitLimit ≤ t.items.length) : t.append loadLimitGrowth x = .error .undefined := by
  obtain ⟨hc, hs⟩ := ht
  simp only [limitLimit] at h
  have hr : t.reserve loadLimitGrowth = .error .undefined := by
    rw [Table.reserve, if_pos (by omega), Table.realloc, dif_neg]
    simp only [loadLimitGrowth, hc, initialScaleOfResLimit, pointerSize]
    omega
  rw [Table.append, hr]
  rfl

theorem limits_loads : Loads (limitClash · · = true) LimitBlock limitLimit limitsFormat.load := by
  have hins := Loads.of_insert (g := loadLimitGrowth) (c := limitClash) (R := LimitBlock)
    (N := limitLimit) (fun x ht h => ht.append x h) fun {t t' x} ht h => by
      by_cases hlt : t.items.length < limitLimit
      · obtain ⟨t'', h', ht''⟩ := ht.append x hlt
        rw [h] at h'
        cases h'
        exact ht''
      · rw [ht.append_full x (by omega)] at h
        cases h
  have hload : ∀ {t : Table Limit} {x : Limit} {t' : Table Limit},
      limitsFormat.load t x = .ok t' →
        orAbort (t.insert loadLimitGrowth (limitClash · x) x) = .ok t' := by
    intro t x t' h
    simp only [limitsFormat, loadLimit] at h
    split at h
    · cases h
    · exact h
  refine ⟨fun h => hins.appends (hload h), fun h => hins.refuses (hload h),
    fun {t x} ht hn hc => ?_, fun h ht => hins.keeps (hload h) ht⟩
  obtain ⟨t', h, ht'⟩ := hins.accepts ht hn hc
  have hnull : t.isNull = false := by simp [Table.isNull, ht.2]
  exact ⟨t', by simpa only [limitsFormat, loadLimit, hnull, Bool.false_eq_true, if_false] using h,
    ht'⟩

/-! ## The store -/

/-- The table the constructor allocates before it loads. -/
def initialLimits : Table Limit := .alloc initialScaleOfResLimit

theorem limitBlock_initialLimits : LimitBlock initialLimits := ⟨rfl, rfl⟩

abbrev DistinctLimits (l : List Limit) : Prop := Distinct (limitClash · · = true) l

theorem initLimits_sound {data : Bytes} {t : Table Limit}
    (h : initLimits initialLimits data = .ok t) :
    (∀ l ∈ t.items, l.Ok) ∧ DistinctLimits t.items ∧ LimitBlock t :=
  limitsFormat.parse_sound limits_loads limitBlock_initialLimits rfl h

theorem limitText_length_pos (l : Limit) : 1 < (limitText l).length := by
  simp [limitText]
  omega

theorem limitsData_singleton (l : Limit) :
    limitsData [l] = .ok (some (limitText l, (limitText l).length)) := by
  have hsize : (limitText l).length ≠ 0 := by
    have := limitText_length_pos l
    omega
  simp only [limitsData, List.foldlM_cons, List.foldlM_nil, appendLimit, if_neg hsize]
  rfl

theorem readBytes_length (text : Bytes) : readBytes text text.length = .ok text := by
  simp [readBytes]

/-- **At the second limit** the size check of the loop fails, whatever the size. -/
theorem limitsData_many {l : List Limit} (h : 2 ≤ l.length) :
    limitsData l = .error .aborted := by
  obtain ⟨x, y, l, rfl⟩ : ∃ x y l', l = x :: y :: l' := by
    match l, h with
    | x :: y :: l', _ => exact ⟨x, y, l', rfl⟩
  have hsize : (limitText x).length ≠ 0 := by
    have := limitText_length_pos x
    omega
  have hall : ∀ size : BitVec 64, size ≤ -1#64 := fun size =>
    BitVec.le_def.mpr (Nat.le_sub_one_of_lt size.isLt)
  simp only [limitsData, List.foldlM_cons, appendLimit, if_neg hsize, if_pos (hall _)]
  rfl

end MiniRunner
