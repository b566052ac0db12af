import MiniRunner.Argv.Sizes

/-!
# Intervals

What `formatTime` makes of a whole number with an optional sign and unit. `add-job` takes
the interval unless it is 0, and its test `<= 0` is made on an unsigned number: a negative
number is never 0 there, with a unit or without.
-/

namespace MiniRunner.Argv

open Clib

inductive TimeUnit where
  | day | hour | minute
  deriving DecidableEq, Repr

namespace TimeUnit

def letter : TimeUnit → UInt8
  | day => 100
  | hour => 104
  | minute => 109

def seconds : TimeUnit → Nat
  | day => 86400
  | hour => 3600
  | minute => 60

end TimeUnit

/-- The seconds of an optional unit; a number alone is in seconds. -/
def unitSeconds : Option TimeUnit → Nat
  | none => 1
  | some u => u.seconds

def unitText : Option TimeUnit → Bytes
  | none => []
  | some u => [u.letter]

/-- `-` where there is a sign. -/
def signText (minus : Bool) : Bytes := if minus then [45] else []

def intervalText (minus : Bool) (n : Numeral) (u : Option TimeUnit) : CStr :=
  .ofBytes (signText minus ++ (n.digits ++ unitText u))

/-- The number in the text of an interval. -/
def signed (minus : Bool) (n : Numeral) : Int := if minus then -n.val else n.val

/-- **What `add-job` needs of an interval**: the seconds of a positive number that fit, and
0 for every other number. -/
structure IntervalRead (minus : Bool) (n : Numeral) (u : Option TimeUnit)
    (timeInSeconds : BitVec 64) : Prop where
  positive : minus = false → 1 ≤ n.val → n.val * unitSeconds u < 2 ^ 63 →
    timeInSeconds.toNat = n.val * unitSeconds u
  rejected : minus = true ∨ n.val = 0 → timeInSeconds = 0

/-! ## The text -/

theorem endsNumber_unitText (u : Option TimeUnit) : endsNumber (unitText u) = true := by
  cases u with
  | none => rfl
  | some u => cases u <;> decide

theorem intervalText_bytes (minus : Bool) (n : Numeral) (u : Option TimeUnit) :
    (intervalText minus n u).bytes = signText minus ++ (n.digits ++ unitText u) := by
  refine CStr.ofBytes_bytes_of_noNul fun h => ?_
  rcases List.mem_append.mp h with h | h
  · cases minus <;> exact absurd h (by decide)
  rcases List.mem_append.mp h with h | h
  · exact n.noNul h
  · cases u with
    | none => exact absurd h (by decide)
    | some u => cases u <;> exact absurd h (by decide)

theorem atol_intervalText {minus : Bool} {n : Numeral} {u : Option TimeUnit}
    (hlt : n.val < 2 ^ 53) : atol (intervalText minus n u) = .ofInt 64 (signed minus n) := by
  have hrest := takeWhile_of_endsNumber (endsNumber_unitText u)
  rw [atol, intervalText_bytes]
  cases minus with
  | true =>
    have hread := n.strtol_neg_append hrest
    rw [clamp64_eq (by omega) (by omega)] at hread
    exact congrArg (BitVec.ofInt 64) hread
  | false =>
    have hread := n.strtol_append hrest
    rw [clamp64_eq (by omega) (by omega)] at hread
    exact congrArg (BitVec.ofInt 64) hread

/-! ## The loop -/

variable {D : Type} {fl : Doubles D}

theorem formatTimeStep_number {timeBuff : CStr} {b : UInt8} (h : b = 45 ∨ isDigit b = true)
    (formatedTimeSeconds : BitVec 64) :
    formatTimeStep fl timeBuff formatedTimeSeconds b = formatedTimeSeconds := by
  have hday : b ≠ 100 := by rintro rfl; exact absurd h (by decide)
  have hhour : b ≠ 104 := by rintro rfl; exact absurd h (by decide)
  have hminute : b ≠ 109 := by rintro rfl; exact absurd h (by decide)
  rw [formatTimeStep, if_neg hday, if_neg hhour, if_neg hminute]

theorem foldl_formatTimeStep_number {timeBuff : CStr} {bs : Bytes}
    (h : ∀ b ∈ bs, b = 45 ∨ isDigit b = true) (formatedTimeSeconds : BitVec 64) :
    bs.foldl (formatTimeStep fl timeBuff) formatedTimeSeconds = formatedTimeSeconds := by
  induction bs with
  | nil => rfl
  | cons b bs ih =>
    rw [List.foldl_cons, formatTimeStep_number (h b List.mem_cons_self)]
    exact ih fun x hx => h x (List.mem_cons_of_mem b hx)

theorem formatTimeStep_letter (timeBuff : CStr) (formatedTimeSeconds : BitVec 64)
    (u : TimeUnit) :
    formatTimeStep fl timeBuff formatedTimeSeconds u.letter =
      fl.toUInt64 (fl.atof timeBuff) * BitVec.ofNat 64 u.seconds := by
  cases u with
  | day => exact BitVec.mul_assoc _ _ _
  | hour => rfl
  | minute => rfl

def loopSeconds (fl : Doubles D) (timeBuff : CStr) : Option TimeUnit → BitVec 64
  | none => 0
  | some u => fl.toUInt64 (fl.atof timeBuff) * BitVec.ofNat 64 u.seconds

/-- **`formatTime`** takes the seconds of the unit, or the number where they are 0. -/
theorem formatTime_intervalText {minus : Bool} {n : Numeral} {u : Option TimeUnit}
    (hlt : n.val < 2 ^ 53) :
    formatTime fl (intervalText minus n u) =
      if loopSeconds fl (intervalText minus n u) u ≠ 0 then
        loopSeconds fl (intervalText minus n u) u
      else .ofInt 64 (signed minus n) := by
  have hnumber : ∀ b ∈ signText minus ++ n.digits, b = 45 ∨ isDigit b = true := by
    intro b hb
    rcases List.mem_append.mp hb with hb | hb
    · cases minus with
      | true => exact .inl (List.mem_singleton.mp hb)
      | false => cases hb
    · exact .inr (n.isDigit_of_mem b hb)
  have hloop : (intervalText minus n u).bytes.foldl (formatTimeStep fl (intervalText minus n u)) 0
      = loopSeconds fl (intervalText minus n u) u := by
    rw [intervalText_bytes, ← List.append_assoc, List.foldl_append,
      foldl_formatTimeStep_number hnumber]
    cases u with
    | none => rfl
    | some u => exact formatTimeStep_letter _ _ u
  rw [formatTime, hloop, atol_intervalText hlt]

/-! ## What comes back -/

/-- **A negative number is accepted**, whatever the conversion makes of it: where the seconds
of the unit are 0, `atol` gives the number below 2 ^ 64. -/
theorem formatTime_negative {n : Numeral} {u : Option TimeUnit} (hpos : 1 ≤ n.val)
    (hlt : n.val < 2 ^ 53) : formatTime fl (intervalText true n u) ≠ 0 := by
  rw [formatTime_intervalText hlt]
  split
  · assumption
  · intro h
    have hnat := congrArg BitVec.toNat h
    rw [BitVec.toNat_ofInt, signed, if_pos rfl] at hnat
    simp only [BitVec.ofNat_eq_ofNat, BitVec.toNat_ofNat] at hnat
    omega

section exact

variable (ex : fl.Exact) {n : Numeral} {u : Option TimeUnit}
include ex

theorem formatTime_positive (hpos : 1 ≤ n.val) (hlt : n.val < 2 ^ 53)
    (hfit : n.val * unitSeconds u < 2 ^ 63) :
    (formatTime fl (intervalText false n u)).toNat = n.val * unitSeconds u := by
  rw [formatTime_intervalText hlt]
  cases u with
  | none =>
    have hloop : loopSeconds fl (intervalText false n none) none = 0 := rfl
    rw [hloop, if_neg (not_not.mpr rfl), signed, if_neg (by decide), BitVec.ofInt_natCast,
      BitVec.toNat_ofNat, unitSeconds]
    omega
  | some u =>
    have hatof : fl.atof (intervalText false n (some u)) = ex.whole n.val :=
      ex.atof_numeral _ n _ (intervalText_bytes false n (some u))
        (endsNumber_unitText (some u)) hlt
    rw [loopSeconds, hatof, ex.toUInt64_whole _ hlt]
    exact toNat_ofNat_mul_or (Nat.mul_pos hpos (by cases u <;> decide))
      (lt_trans hfit (by decide)) _

/-- Zero is rejected with a sign or without. -/
theorem formatTime_zero {minus : Bool} (hzero : n.val = 0) :
    formatTime fl (intervalText minus n u) = 0 := by
  have hsigned : signed minus n = 0 := by
    cases minus <;> simp [signed, hzero]
  have hconverted : fl.toUInt64 (fl.atof (intervalText minus n u)) = 0 := by
    cases minus with
    | true =>
      exact ex.toUInt64_isZero _ (ex.atof_neg_zero _ n _ (intervalText_bytes true n u)
        (endsNumber_unitText u) hzero)
    | false =>
      rw [ex.atof_numeral _ n _ (intervalText_bytes false n u) (endsNumber_unitText u) (by omega),
        ex.toUInt64_whole _ (by omega), hzero]
      rfl
  have hloop : loopSeconds fl (intervalText minus n u) u = 0 := by
    cases u with
    | none => rfl
    | some u =>
      rw [loopSeconds, hconverted]
      exact BitVec.zero_mul
  rw [formatTime_intervalText (by omega), hloop, if_neg (not_not.mpr rfl), hsigned]
  rfl

end exact

/-- **Intervals are accepted exactly when positive** where the number has no sign or is 0. -/
theorem formatTime_read_iff (ex : fl.Exact) (minus : Bool) (n : Numeral) (u : Option TimeUnit)
    (hlt : n.val < 2 ^ 53) :
    IntervalRead minus n u (formatTime fl (intervalText minus n u)) ↔
      minus = false ∨ n.val = 0 := by
  constructor
  · intro h
    cases minus with
    | false => exact .inl rfl
    | true =>
      refine .inr (Nat.eq_zero_of_not_pos fun hpos => ?_)
      exact formatTime_negative hpos hlt (h.rejected (.inl rfl))
  · rintro (rfl | hzero)
    · refine ⟨fun _ hpos hfit => formatTime_positive ex hpos hlt hfit, fun h => ?_⟩
      exact formatTime_zero ex (h.resolve_left (by decide))
    · exact ⟨fun _ hpos => absurd hpos (by omega), fun _ => formatTime_zero ex hzero⟩

/-- Minus five days. -/
theorem formatTime_read_minus :
    IntervalRead true (.ofNat 5) (some .day)
        (formatTime wholeNumbers (intervalText true (.ofNat 5) (some .day))) ↔
      true = false ∨ (Numeral.ofNat 5).val = 0 :=
  formatTime_read_iff wholeNumbers_exact true (.ofNat 5) (some .day) (by decide)

/-- Minus five seconds are 2 ^ 64 - 5 of them. -/
theorem not_formatTime_read :
    ¬∀ (D : Type) (fl : Doubles D), fl.Exact → ∀ (minus : Bool) (n : Numeral)
      (u : Option TimeUnit), n.val < 2 ^ 53 →
        IntervalRead minus n u (formatTime fl (intervalText minus n u)) := by
  intro h
  have hminus := h Nat wholeNumbers wholeNumbers_exact true (.ofNat 5) none (by decide)
  exact absurd (hminus.rejected (.inl rfl)) (by decide)

end MiniRunner.Argv
