import MiniRunner.Base

/-!
# Numbers on the command line

The conversions that `main` makes of its operands: `formatTime`, `convertToFloat`,
`convertToByte` and its wider siblings, `convertToSeconds` and `convertToBytes_JOB`. They
all read a `double` with `atof`, so the floating point arithmetic is a parameter: `Doubles D`
has the operations they use, and the laws for the one value the results below need, the 0
that `atof` returns for a text that no number begins.
-/

namespace MiniRunner.Argv

open Clib

/-- Neither a digit, nor a point, nor an infinity or a NaN begins the text. -/
def unsignedNumberless : Bytes → Bool
  | [] => true
  | x :: _ => !(isDigit x || x == 46 || x == 73 || x == 105 || x == 78 || x == 110)

/-- No number begins the text, after blanks and a sign. -/
def numberless (bs : Bytes) : Bool :=
  match bs.dropWhile isSpace with
  | [] => true
  | b :: r => unsignedNumberless (if b = 43 ∨ b = 45 then r else b :: r)

/-- The type `double` of the C library. -/
structure Doubles (D : Type) where
  zero : D
  atof : CStr → D
  /-- Whether `errno` is `ERANGE` after that. -/
  erange : CStr → Bool
  /-- `x == 0.0`. -/
  isZero : D → Bool
  /-- `x > n`. -/
  exceeds : D → Nat → Bool
  mul : D → Nat → D
  div : D → Nat → D
  /-- The conversion to `float`. -/
  toFloat : D → D
  roundf : D → D
  /-- The conversions to `int`, `__uint64_t` and `__uint128_t`. -/
  toInt : D → BitVec 32
  toUInt64 : D → BitVec 64
  toUInt128 : D → BitVec 128
  atof_numberless : ∀ s : CStr, numberless s.bytes = true → atof s = zero
  isZero_zero : isZero zero = true
  mul_zero : ∀ n, mul zero n = zero
  toInt_zero : toInt zero = 0
  toUInt64_zero : toUInt64 zero = 0
  toUInt128_zero : toUInt128 zero = 0

variable {D : Type} (fl : Doubles D)

/-- The part of an amount before its first unit, and that unit. -/
def splitUnit (units : List UInt8) (size : CStr) : Option (CStr × UInt8) :=
  match size.bytes.dropWhile (fun b => decide (b ∉ units)) with
  | [] => none
  | unit :: _ => some (.ofBytes (size.bytes.takeWhile fun b => decide (b ∉ units)), unit)

/-- `'k'`, `'m'`, `'g'` and `'t'` as powers of 1024. -/
def unitScale (unit : UInt8) : Nat :=
  if unit = 107 then 1024 else if unit = 109 then 1024 ^ 2 else if unit = 103 then 1024 ^ 3
  else 1024 ^ 4

def roundTo2 (num : D) : D :=
  let rounded := fl.div (fl.roundf (fl.mul (fl.toFloat num) 100)) 100
  if fl.isZero rounded then fl.zero else rounded

/-- `convertToFloat`; `none` sets the error flag. -/
def convertToFloat (cpuLimit : CStr) : Option D :=
  let cpuLimitInFloat := fl.atof cpuLimit
  if fl.isZero cpuLimitInFloat ∨ fl.erange cpuLimit then none
  else some (roundTo2 fl cpuLimitInFloat)

/-- `convertToByte`, the standard type. -/
def convertToByte (size : CStr) : BitVec 32 :=
  let memBytes := match splitUnit [107, 109, 103] size with
    | none => 0
    | some (memSize, unit) => fl.toInt (fl.mul (fl.atof memSize) (unitScale unit))
  if memBytes ≠ 0 then memBytes else atoi size

/-- `convertToByte_F_LRG`, the custom type. -/
def convertToByteLrg (size : CStr) : BitVec 64 :=
  let memBytes := match splitUnit [103] size with
    | none => 0
    | some (memSize, unit) => fl.toUInt64 (fl.atof memSize) * BitVec.ofNat 64 (unitScale unit)
  if memBytes ≠ 0 then memBytes else (atoi size).signExtend 64

/-- `convertToByte_F_EXTR`, the extreme type. -/
def convertToByteExtr (size : CStr) : BitVec 128 :=
  let memBytes := match splitUnit [116] size with
    | none => 0
    | some (memSize, unit) => fl.toUInt128 (fl.atof memSize) * BitVec.ofNat 128 (unitScale unit)
  if memBytes ≠ 0 then memBytes else (atoi size).signExtend 128

def convertToSeconds (cpuLimitBuff : CStr) : BitVec 64 :=
  fl.toUInt64 (fl.mul (fl.atof cpuLimitBuff) 100000)

/-- `convertToBytes_JOB`; here the whole text is the number. -/
def convertToBytesJob (memLimitBuff : CStr) : BitVec 128 :=
  let memLimit := fl.atof memLimitBuff
  if memLimitBuff.bytes = [] then 0
  else
    match splitUnit [107, 109, 103, 116] memLimitBuff with
    | none => fl.toUInt128 memLimit
    | some (_, unit) => fl.toUInt128 memLimit * BitVec.ofNat 128 (unitScale unit)

/-- One character of `formatTime`: the last unit of the text wins. -/
def formatTimeStep (timeBuff : CStr) (formatedTimeSeconds : BitVec 64) (b : UInt8) : BitVec 64 :=
  if b = 100 then fl.toUInt64 (fl.atof timeBuff) * 24 * 3600
  else if b = 104 then fl.toUInt64 (fl.atof timeBuff) * 3600
  else if b = 109 then fl.toUInt64 (fl.atof timeBuff) * 60
  else formatedTimeSeconds

def formatTime (timeBuff : CStr) : BitVec 64 :=
  let formatedTimeSeconds := timeBuff.bytes.foldl (formatTimeStep fl timeBuff) 0
  if formatedTimeSeconds ≠ 0 then formatedTimeSeconds else atol timeBuff

/-! ## Texts without a number -/

section numberless

variable {s : CStr} (h : numberless s.bytes = true)
include h

theorem convertToFloat_numberless : convertToFloat fl s = none := by
  rw [convertToFloat, fl.atof_numberless s h]
  simp [fl.isZero_zero]

theorem convertToSeconds_numberless : convertToSeconds fl s = 0 := by
  rw [convertToSeconds, fl.atof_numberless s h, fl.mul_zero, fl.toUInt64_zero]

theorem convertToBytesJob_numberless : convertToBytesJob fl s = 0 := by
  rw [convertToBytesJob, fl.atof_numberless s h, fl.toUInt128_zero]
  split
  · rfl
  split <;> simp

end numberless

def unitNumberless (units : List UInt8) (s : CStr) : Bool :=
  match splitUnit units s with
  | none => true
  | some (memSize, _) => numberless memSize.bytes

theorem convertToByte_numberless {s : CStr} (h : unitNumberless [107, 109, 103] s = true)
    (hatoi : atoi s = 0) : convertToByte fl s = 0 := by
  unfold convertToByte unitNumberless at *
  split at h
  · simp [*]
  · rename_i memSize unit hsplit
    simp [fl.atof_numberless memSize h, fl.mul_zero, fl.toInt_zero, hatoi]

theorem convertToByteLrg_numberless {s : CStr} (h : unitNumberless [103] s = true)
    (hatoi : atoi s = 0) : convertToByteLrg fl s = 0 := by
  unfold convertToByteLrg unitNumberless at *
  split at h
  · simp [*]
  · rename_i memSize unit hsplit
    simp [fl.atof_numberless memSize h, fl.toUInt64_zero, hatoi]

theorem convertToByteExtr_numberless {s : CStr} (h : unitNumberless [116] s = true)
    (hatoi : atoi s = 0) : convertToByteExtr fl s = 0 := by
  unfold convertToByteExtr unitNumberless at *
  split at h
  · simp [*]
  · rename_i memSize unit hsplit
    simp [fl.atof_numberless memSize h, fl.toUInt128_zero, hatoi]

/-! ## Whole numbers -/

theorem takeWhile_unsignedNumberless {l : Bytes} (h : unsignedNumberless l = true) :
    l.takeWhile isDigit = [] := by
  cases l with
  | nil => rfl
  | cons x l =>
    simp only [unsignedNumberless, Bool.not_eq_true', Bool.or_eq_false_iff] at h
    simp [h.1.1.1.1.1]

theorem strtol_numberless {bs : Bytes} (h : numberless bs = true) : strtol bs = 0 := by
  unfold numberless strtol at *
  cases hbs : bs.dropWhile isSpace with
  | nil => rfl
  | cons b r =>
    simp only [hbs] at h ⊢
    by_cases h45 : b = 45
    · rw [if_pos (.inr h45)] at h
      rw [if_pos h45, takeWhile_unsignedNumberless h]
      rfl
    by_cases h43 : b = 43
    · rw [if_pos (.inl h43)] at h
      rw [if_neg h45, if_pos h43, takeWhile_unsignedNumberless h]
      rfl
    · rw [if_neg (by tauto)] at h
      rw [if_neg h45, if_neg h43, takeWhile_unsignedNumberless h]
      rfl

/-- Doubles that read whole numbers, and nothing else, as the C library does. -/
def wholeNumbers : Doubles Nat where
  zero := 0
  atof s := (strtol s.bytes).toNat
  erange _ := false
  isZero n := n == 0
  exceeds n m := decide (m < n)
  mul := (· * ·)
  div := (· / ·)
  toFloat := id
  roundf := id
  toInt := BitVec.ofNat 32
  toUInt64 := BitVec.ofNat 64
  toUInt128 := BitVec.ofNat 128
  atof_numberless _ h := congrArg Int.toNat (strtol_numberless h)
  isZero_zero := rfl
  mul_zero n := Nat.zero_mul n
  toInt_zero := rfl
  toUInt64_zero := rfl
  toUInt128_zero := rfl

example : convertToByte wholeNumbers (.ofText "2k") = 2048 := by decide

end MiniRunner.Argv
