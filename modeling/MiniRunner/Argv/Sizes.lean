import Mathlib.Data.Nat.Prime.Basic
import MiniRunner.Argv.Formats

/-!
# Sizes with a unit

What the four conversions of a size make of a whole number and one of the documented units
`k`, `m`, `g` and `t`. Each looks for its own set of units; where the unit is not among
them, three of the four fall back to `atoi`, which reads the number and drops the unit.
`Doubles.Exact` has the facts about `double` that the results rest on: whole numbers below
`2 ^ 53` are read, scaled and converted without rounding.
-/

namespace MiniRunner.Argv

open Clib

/-! ## Exact doubles -/

/-- No byte of a longer number comes next: no digit, point, exponent or hexadecimal mark. -/
def endsNumber : Bytes → Bool
  | [] => true
  | b :: _ => !(isDigit b || b == 46 || b == 69 || b == 101 || b == 88 || b == 120)

theorem takeWhile_of_endsNumber {rest : Bytes} (h : endsNumber rest = true) :
    rest.takeWhile isDigit = [] := by
  cases rest with
  | nil => rfl
  | cons b rest =>
    simp only [endsNumber, Bool.not_eq_true', Bool.or_eq_false_iff] at h
    simp [h.1.1.1.1.1]

variable {D : Type} {fl : Doubles D}

/-- The whole numbers among the doubles. Below `2 ^ 53` they are exact, and so are their
products with a power of 2. -/
structure Doubles.Exact (fl : Doubles D) where
  whole : Nat → D
  atof_numeral : ∀ (s : CStr) (n : Numeral) (rest : Bytes), s.bytes = n.digits ++ rest →
    endsNumber rest = true → n.val < 2 ^ 53 → fl.atof s = whole n.val
  /-- A negative zero is a zero. -/
  atof_neg_zero : ∀ (s : CStr) (n : Numeral) (rest : Bytes), s.bytes = 45 :: (n.digits ++ rest) →
    endsNumber rest = true → n.val = 0 → fl.isZero (fl.atof s) = true
  toUInt64_isZero : ∀ x, fl.isZero x = true → fl.toUInt64 x = 0
  mul_whole : ∀ n k, n < 2 ^ 53 → k ≤ 40 → fl.mul (whole n) (2 ^ k) = whole (n * 2 ^ k)
  toInt_whole : ∀ n, n < 2 ^ 31 → fl.toInt (whole n) = .ofNat 32 n
  toUInt64_whole : ∀ n, n < 2 ^ 53 → fl.toUInt64 (whole n) = .ofNat 64 n
  toUInt128_whole : ∀ n, n < 2 ^ 53 → fl.toUInt128 (whole n) = .ofNat 128 n

/-- `wholeNumbers` is exact on every number. -/
def wholeNumbers_exact : wholeNumbers.Exact where
  whole := id
  atof_numeral s n rest hs hrest hn := by
    have hread := n.strtol_append (takeWhile_of_endsNumber hrest)
    rw [clamp64_eq (by omega) (by omega)] at hread
    show (strtol s.bytes).toNat = n.val
    rw [hs, hread]
    rfl
  atof_neg_zero s n rest hs hrest hn := by
    have hread := n.strtol_neg_append (takeWhile_of_endsNumber hrest)
    rw [hn] at hread
    show ((strtol s.bytes).toNat == 0) = true
    rw [hs, hread]
    rfl
  toUInt64_isZero x hx := by
    have hzero : x = 0 := by simpa [wholeNumbers] using hx
    rw [hzero]
    rfl
  mul_whole _ _ _ _ := rfl
  toInt_whole _ _ := rfl
  toUInt64_whole _ _ := rfl
  toUInt128_whole _ _ := rfl

/-! ## A number and its unit -/

inductive SizeUnit where
  | kilo | mega | giga | tera
  deriving DecidableEq, Repr

namespace SizeUnit

def letter : SizeUnit → UInt8
  | kilo => 107
  | mega => 109
  | giga => 103
  | tera => 116

/-- The unit as a power of 2; 1024 is the tenth. -/
def bits : SizeUnit → Nat
  | kilo => 10
  | mega => 20
  | giga => 30
  | tera => 40

def scale (u : SizeUnit) : Nat := 2 ^ u.bits

@[simp] theorem unitScale_letter (u : SizeUnit) : unitScale u.letter = u.scale := by
  cases u <;> rfl

theorem bits_le (u : SizeUnit) : u.bits ≤ 40 := by cases u <;> decide

theorem letter_injective : Function.Injective letter := by
  intro u u' h
  cases u <;> cases u' <;> first | rfl | exact absurd h (by decide)

theorem isDigit_letter (u : SizeUnit) : isDigit u.letter = false := by cases u <;> rfl

theorem endsNumber_letter (u : SizeUnit) : endsNumber [u.letter] = true := by cases u <;> decide

theorem two_dvd_scale (u : SizeUnit) : 2 ∣ u.scale := by cases u <;> decide

end SizeUnit

def sizeText (n : Numeral) (u : SizeUnit) : CStr := .ofBytes (n.digits ++ [u.letter])

theorem sizeText_bytes (n : Numeral) (u : SizeUnit) :
    (sizeText n u).bytes = n.digits ++ [u.letter] := by
  refine CStr.ofBytes_bytes_of_noNul fun h => ?_
  rcases List.mem_append.mp h with h | h
  · exact n.noNul h
  · cases u <;> exact absurd h (by decide)

/-- The text is split at its unit where that is one of those looked for. -/
theorem splitUnit_sizeText (letters : List UInt8) (units : List SizeUnit)
    (h : units.map SizeUnit.letter = letters) (n : Numeral) (u : SizeUnit) :
    splitUnit letters (sizeText n u) =
      if u ∈ units then some (.ofBytes n.digits, u.letter) else none := by
  have hdigits : ∀ b ∈ n.digits, decide (b ∉ letters) = true := by
    refine fun b hb => decide_eq_true fun hmem => ?_
    rw [← h] at hmem
    obtain ⟨u, -, rfl⟩ := List.mem_map.mp hmem
    exact absurd (n.isDigit_of_mem _ hb) (by simp [u.isDigit_letter])
  have hletter : u ∈ units ↔ u.letter ∈ letters := by
    rw [← h]
    exact (List.mem_map_of_injective SizeUnit.letter_injective).symm
  rw [splitUnit, sizeText_bytes, List.dropWhile_append_of_pos hdigits,
    List.takeWhile_append_of_pos hdigits]
  simp only [hletter]
  by_cases hu : u.letter ∈ letters
  · simp [hu]
  · simp [hu]

/-! ## The four conversions -/

/-- The readings of a size: the three types of `set-limit`, and `config job`. -/
inductive SizeType where
  | standard | custom | extreme | job
  deriving DecidableEq, Repr

namespace SizeType

def units : SizeType → List SizeUnit
  | standard => [.kilo, .mega, .giga]
  | custom => [.giga]
  | extreme => [.tera]
  | job => [.kilo, .mega, .giga, .tera]

/-- The sizes that fit what the conversion returns are below this one. -/
def bound : SizeType → Nat
  | standard => 2 ^ 31
  | custom => 2 ^ 64
  | extreme => 2 ^ 128
  | job => 2 ^ 128

def convert (fl : Doubles D) (size : CStr) : SizeType → Int
  | standard => (convertToByte fl size).toInt
  | custom => (convertToByteLrg fl size).toNat
  | extreme => (convertToByteExtr fl size).toNat
  | job => (convertToBytesJob fl size).toNat

end SizeType

theorem toNat_setWidth_signExtend {v w : Nat} (x : BitVec v) (h : v ≤ w) :
    (x.signExtend w).toNat % 2 ^ v = x.toNat := by
  have hself : (x.signExtend w).setWidth v = x := by
    refine BitVec.eq_of_getLsbD_eq fun i hi => ?_
    simp only [BitVec.getLsbD_setWidth, BitVec.getLsbD_signExtend, hi,
      Nat.lt_of_lt_of_le hi h, decide_true, Bool.true_and, if_true]
  rw [← BitVec.toNat_setWidth, hself]

theorem toNat_ofNat_mul {w a b : Nat} (h : a * b < 2 ^ w) :
    (BitVec.ofNat w a * BitVec.ofNat w b).toNat = a * b := by
  rw [← BitVec.ofNat_mul, BitVec.toNat_ofNat, Nat.mod_eq_of_lt h]

theorem toNat_ofNat_mul_or {w a b : Nat} (hpos : 0 < a * b) (h : a * b < 2 ^ w)
    (fallback : BitVec w) :
    (if BitVec.ofNat w a * BitVec.ofNat w b ≠ 0 then BitVec.ofNat w a * BitVec.ofNat w b
      else fallback).toNat = a * b := by
  have hne : BitVec.ofNat w a * BitVec.ofNat w b ≠ 0 := by
    rw [ne_eq, ← BitVec.toNat_inj, toNat_ofNat_mul h]
    exact Nat.pos_iff_ne_zero.mp hpos
  rw [if_pos hne, toNat_ofNat_mul h]

section conversions

variable {n : Numeral} {u : SizeUnit}

theorem atoi_sizeText (hlt : n.val < 2 ^ 53) : atoi (sizeText n u) = .ofNat 32 n.val := by
  rw [atoi, sizeText_bytes, n.strtol_append (takeWhile_of_endsNumber u.endsNumber_letter),
    clamp64_eq (by omega) (by omega), BitVec.ofInt_natCast]

/-- **A unit that is not looked for** is dropped: the number itself comes back, as an `int`. -/
theorem convertToByteLrg_other (hlt : n.val < 2 ^ 53) (hu : u ∉ SizeType.custom.units) :
    convertToByteLrg fl (sizeText n u) = (BitVec.ofNat 32 n.val).signExtend 64 := by
  rw [convertToByteLrg, splitUnit_sizeText [103] SizeType.custom.units rfl, if_neg hu,
    atoi_sizeText hlt]
  rfl

theorem convertToByteExtr_other (hlt : n.val < 2 ^ 53) (hu : u ∉ SizeType.extreme.units) :
    convertToByteExtr fl (sizeText n u) = (BitVec.ofNat 32 n.val).signExtend 128 := by
  rw [convertToByteExtr, splitUnit_sizeText [116] SizeType.extreme.units rfl, if_neg hu,
    atoi_sizeText hlt]
  rfl

variable (ex : fl.Exact)
include ex

theorem atof_digits (hlt : n.val < 2 ^ 53) : fl.atof (.ofBytes n.digits) = ex.whole n.val :=
  ex.atof_numeral _ n [] (by rw [CStr.ofBytes_bytes_of_noNul n.noNul, List.append_nil]) rfl hlt

theorem atof_sizeText (hlt : n.val < 2 ^ 53) : fl.atof (sizeText n u) = ex.whole n.val :=
  ex.atof_numeral _ n _ (sizeText_bytes n u) u.endsNumber_letter hlt

theorem convertToByte_sizeText (hlt : n.val < 2 ^ 53) (hu : u ∈ SizeType.standard.units) :
    convertToByte fl (sizeText n u) =
      if fl.toInt (ex.whole (n.val * u.scale)) ≠ 0 then fl.toInt (ex.whole (n.val * u.scale))
      else .ofNat 32 n.val := by
  have hproduct : fl.mul (fl.atof (.ofBytes n.digits)) (unitScale u.letter) =
      ex.whole (n.val * u.scale) := by
    rw [atof_digits ex hlt, SizeUnit.unitScale_letter]
    exact ex.mul_whole n.val u.bits hlt u.bits_le
  rw [convertToByte, splitUnit_sizeText [107, 109, 103] SizeType.standard.units rfl, if_pos hu,
    atoi_sizeText hlt, ← hproduct]

/-- **`standard`** is exact for a unit it looks for and a size that fits. -/
theorem convertToByte_exact (hpos : 1 ≤ n.val) (hlt : n.val < 2 ^ 53)
    (hu : u ∈ SizeType.standard.units) (hfit : n.val * u.scale < 2 ^ 31) :
    (convertToByte fl (sizeText n u)).toInt = (n.val * u.scale : Nat) := by
  have hscale : 0 < n.val * u.scale := Nat.mul_pos hpos (Nat.two_pow_pos _)
  have hval : (BitVec.ofNat 32 (n.val * u.scale)).toNat = n.val * u.scale := by
    rw [BitVec.toNat_ofNat, Nat.mod_eq_of_lt (by omega)]
  have hne : BitVec.ofNat 32 (n.val * u.scale) ≠ 0 := by
    rw [ne_eq, ← BitVec.toNat_inj, hval]
    exact Nat.pos_iff_ne_zero.mp hscale
  rw [convertToByte_sizeText ex hlt hu, ex.toInt_whole _ hfit, if_pos hne,
    BitVec.toInt_eq_toNat_of_lt (by rw [hval]; omega), hval]

/-- **`custom`** is exact for gigabytes that fit. -/
theorem convertToByteLrg_exact (hpos : 1 ≤ n.val) (hlt : n.val < 2 ^ 53)
    (hu : u ∈ SizeType.custom.units) (hfit : n.val * u.scale < 2 ^ 64) :
    (convertToByteLrg fl (sizeText n u)).toNat = n.val * u.scale := by
  rw [convertToByteLrg, splitUnit_sizeText [103] SizeType.custom.units rfl, if_pos hu]
  simp only [atof_digits ex hlt, ex.toUInt64_whole _ hlt, SizeUnit.unitScale_letter]
  exact toNat_ofNat_mul_or (Nat.mul_pos hpos (Nat.two_pow_pos _)) hfit _

/-- **`extreme`** is exact for terabytes. -/
theorem convertToByteExtr_exact (hpos : 1 ≤ n.val) (hlt : n.val < 2 ^ 53)
    (hu : u ∈ SizeType.extreme.units) (hfit : n.val * u.scale < 2 ^ 128) :
    (convertToByteExtr fl (sizeText n u)).toNat = n.val * u.scale := by
  rw [convertToByteExtr, splitUnit_sizeText [116] SizeType.extreme.units rfl, if_pos hu]
  simp only [atof_digits ex hlt, ex.toUInt128_whole _ hlt, SizeUnit.unitScale_letter]
  exact toNat_ofNat_mul_or (Nat.mul_pos hpos (Nat.two_pow_pos _)) hfit _

/-- **The job memory** is exact for every unit. -/
theorem convertToBytesJob_exact (hlt : n.val < 2 ^ 53) (hfit : n.val * u.scale < 2 ^ 128) :
    (convertToBytesJob fl (sizeText n u)).toNat = n.val * u.scale := by
  have hne : (sizeText n u).bytes ≠ [] := by
    rw [sizeText_bytes]
    exact List.append_ne_nil_of_right_ne_nil _ (List.cons_ne_nil _ _)
  have hu : u ∈ SizeType.job.units := by cases u <;> decide
  rw [convertToBytesJob, if_neg hne,
    splitUnit_sizeText [107, 109, 103, 116] SizeType.job.units rfl, if_pos hu]
  simp only [atof_sizeText ex hlt, ex.toUInt128_whole _ hlt, SizeUnit.unitScale_letter]
  exact toNat_ofNat_mul hfit

end conversions

/-! ## One meaning for every type -/

/-- The number without its unit is 0 or the size only where the `int` wraps around to 0. -/
theorem dropped_iff {w n scale : Nat} (hw : 32 ≤ w) (hscale : 2 ∣ scale) (hpos : 0 < scale) :
    (((BitVec.ofNat 32 n).signExtend w).toNat = 0 ∨
      ((BitVec.ofNat 32 n).signExtend w).toNat = n * scale) ↔ 2 ^ 32 ∣ n := by
  have hmod : ((BitVec.ofNat 32 n).signExtend w).toNat % 2 ^ 32 = n % 2 ^ 32 := by
    rw [toNat_setWidth_signExtend _ hw, BitVec.toNat_ofNat]
  constructor
  · rintro (h | h)
    · rw [h] at hmod
      exact Nat.dvd_of_mod_eq_zero hmod.symm
    · rw [h] at hmod
      -- the factor `scale - 1` is odd
      have hdvd : 2 ^ 32 ∣ n * (scale - 1) := by
        rw [Nat.mul_sub_one]
        exact (Nat.modEq_iff_dvd' (Nat.le_mul_of_pos_right n hpos)).mp hmod.symm
      have hodd : Nat.Coprime (2 ^ 32) (scale - 1) := by
        refine Nat.Coprime.pow_left 32 (Nat.coprime_two_left.mpr ?_)
        rw [Nat.odd_iff]
        omega
      exact hodd.dvd_of_dvd_mul_right hdvd
  · intro h
    have hzero : BitVec.ofNat 32 n = 0 := by
      rw [← BitVec.toNat_inj, BitVec.toNat_ofNat, Nat.mod_eq_zero_of_dvd h]
      rfl
    have hmsb : (0 : BitVec 32).msb = false := by decide
    rw [hzero, BitVec.signExtend_eq_setWidth_of_msb_false hmsb]
    exact .inl (by simp)

/-- **A size means the same under every type** exactly where the type looks for its unit,
or where the number is a multiple of `2 ^ 32` and the fallback makes 0 of it. -/
theorem SizeType.convert_exact_iff (ex : fl.Exact) (t : SizeType) (n : Numeral) (u : SizeUnit)
    (hpos : 1 ≤ n.val) (hlt : n.val < 2 ^ 53) (hfit : n.val * u.scale < t.bound) :
    (t.convert fl (sizeText n u) = 0 ∨ t.convert fl (sizeText n u) = (n.val * u.scale : Nat)) ↔
      u ∈ t.units ∨ 2 ^ 32 ∣ n.val := by
  have hscale : 0 < u.scale := Nat.two_pow_pos _
  -- where the unit is known the size is exact, elsewhere the number comes back without it
  by_cases hknown : u ∈ t.units
  · refine iff_of_true (.inr ?_) (.inl hknown)
    cases t with
    | standard => exact convertToByte_exact ex hpos hlt hknown hfit
    | custom => exact congrArg Nat.cast (convertToByteLrg_exact ex hpos hlt hknown hfit)
    | extreme => exact congrArg Nat.cast (convertToByteExtr_exact ex hpos hlt hknown hfit)
    | job => exact congrArg Nat.cast (convertToBytesJob_exact ex hlt hfit)
  · rw [or_iff_right hknown]
    cases t with
    | standard =>
      have hu : u = .tera := by cases u <;> simp_all [units]
      subst hu
      have hle : SizeUnit.tera.scale ≤ n.val * SizeUnit.tera.scale := Nat.le_mul_of_pos_left _ hpos
      exact absurd (lt_of_le_of_lt hle hfit) (by decide)
    | custom =>
      rw [convert, convertToByteLrg_other hlt hknown,
        ← dropped_iff (w := 64) (by decide) u.two_dvd_scale hscale]
      norm_cast
    | extreme =>
      rw [convert, convertToByteExtr_other hlt hknown,
        ← dropped_iff (w := 128) (by decide) u.two_dvd_scale hscale]
      norm_cast
    | job => exact absurd (by cases u <;> decide) hknown

/-- 512 megabytes of the type `custom`. -/
theorem convert_exact_custom :
    (SizeType.custom.convert wholeNumbers (sizeText (.ofNat 512) .mega) = 0 ∨
      SizeType.custom.convert wholeNumbers (sizeText (.ofNat 512) .mega) =
        ((Numeral.ofNat 512).val * SizeUnit.mega.scale : Nat)) ↔
      SizeUnit.mega ∈ SizeType.custom.units ∨ 2 ^ 32 ∣ (Numeral.ofNat 512).val :=
  SizeType.convert_exact_iff wholeNumbers_exact .custom (.ofNat 512) .mega (by decide) (by decide)
    (by decide)

/-- 512 megabytes of the type `custom` are 512 bytes. -/
theorem not_convert_exact :
    ¬∀ (D : Type) (fl : Doubles D), fl.Exact → ∀ (t : SizeType) (n : Numeral) (u : SizeUnit),
      1 ≤ n.val → n.val < 2 ^ 53 → n.val * u.scale < t.bound →
        t.convert fl (sizeText n u) = 0 ∨
          t.convert fl (sizeText n u) = (n.val * u.scale : Nat) := by
  intro h
  have hmega := h Nat wholeNumbers wholeNumbers_exact .custom (.ofNat 512) .mega (by decide)
    (by decide) (by decide)
  exact absurd hmega (by decide)

end MiniRunner.Argv
