import Mathlib.Data.Nat.Digits.Lemmas
import MiniRunner.Clib.Str

/-!
# Decimal numerals: `printf` and `strtol`

`fmtNat` and `fmtInt` are the numerals `printf` prints. `strtol` skips blanks,
reads an optional sign and the longest run of digits, and saturates at the range
of a 64-bit `long`; `atol`, `atoll` and `atoi` are the documented casts of it to
64, 128 and 32 bits. `strtol_fmtInt` is the round trip, from which every integer
column of a text format gets its own (`atol_fmt`, `atoi_fmt`).
-/

namespace Clib

/-! ## Printing -/

def digitByte (d : Nat) : UInt8 := UInt8.ofNat (48 + d)

/-- The canonical decimal numeral of a natural number. -/
def fmtNat (n : Nat) : Bytes :=
  if n = 0 then [48] else (Nat.digits 10 n).reverse.map digitByte

def fmtInt (z : Int) : Bytes :=
  if z < 0 then 45 :: fmtNat z.natAbs else fmtNat z.natAbs

/-! ## Reading -/

/-- `isspace` in the C locale. -/
def isSpace (b : UInt8) : Bool := b == 32 || (9 ≤ b && b ≤ 13)

def isDigit (b : UInt8) : Bool := 48 ≤ b && b ≤ 57

def digitsVal (bs : Bytes) : Nat := bs.foldl (fun acc b => 10 * acc + (b.toNat - 48)) 0

/-- Saturation at the range of a 64-bit `long`. -/
def clamp64 (z : Int) : Int := max (-2 ^ 63) (min (2 ^ 63 - 1) z)

/-- `strtol` with base 10. -/
def strtol (bs : Bytes) : Int :=
  match bs.dropWhile isSpace with
  | [] => 0
  | b :: r =>
    if b = 45 then clamp64 (-(digitsVal (r.takeWhile isDigit) : Int))
    else if b = 43 then clamp64 (digitsVal (r.takeWhile isDigit))
    else clamp64 (digitsVal ((b :: r).takeWhile isDigit))

/-- `atol`: the `long` of a string. -/
def atol (s : CStr) : BitVec 64 := BitVec.ofInt 64 (strtol s.bytes)

/-- `atoll`, converted to a 128-bit integer. -/
def atoll128 (s : CStr) : BitVec 128 := BitVec.ofInt 128 (strtol s.bytes)

/-- `atoi`: the `long` of a string cut to 32 bits. -/
def atoi (s : CStr) : BitVec 32 := BitVec.ofInt 32 (strtol s.bytes)

/-! ## Digits -/

theorem digitByte_toNat {d : Nat} (h : d < 10) : (digitByte d).toNat = 48 + d := by
  simp only [digitByte, UInt8.toNat_ofNat']
  omega

theorem isDigit_digitByte {d : Nat} (h : d < 10) : isDigit (digitByte d) = true := by
  have := digitByte_toNat h
  simp only [isDigit, Bool.and_eq_true, decide_eq_true_eq, UInt8.le_iff_toNat_le]
  exact ⟨by rw [this]; simp, by rw [this]; simp; omega⟩

theorem isDigit_of_mem_fmtNat {n : Nat} {b : UInt8} (h : b ∈ fmtNat n) : isDigit b = true := by
  unfold fmtNat at h
  split at h
  · simp only [List.mem_singleton] at h
    subst h
    decide
  · simp only [List.mem_map, List.mem_reverse] at h
    obtain ⟨d, hd, rfl⟩ := h
    exact isDigit_digitByte (Nat.digits_lt_base (by decide) hd)

theorem fmtNat_ne_nil (n : Nat) : fmtNat n ≠ [] := by
  unfold fmtNat
  split
  · simp
  · rename_i h
    simpa using Nat.digits_ne_nil_iff_ne_zero.mpr h

theorem digitsVal_append (bs : Bytes) (b : UInt8) :
    digitsVal (bs ++ [b]) = 10 * digitsVal bs + (b.toNat - 48) := by
  simp [digitsVal]

theorem digitsVal_map_reverse {ds : List Nat} (h : ∀ d ∈ ds, d < 10) :
    digitsVal (ds.reverse.map digitByte) = Nat.ofDigits 10 ds := by
  induction ds with
  | nil => rfl
  | cons d ds ih =>
    have hd := digitByte_toNat (h d (by simp))
    have ih := ih fun x hx => h x (by simp [hx])
    simp only [List.reverse_cons, List.map_append, List.map_cons, List.map_nil,
      digitsVal_append, ih, hd, Nat.ofDigits_cons]
    omega

theorem digitsVal_fmtNat (n : Nat) : digitsVal (fmtNat n) = n := by
  unfold fmtNat
  split
  · rename_i h
    subst h
    decide
  · rw [digitsVal_map_reverse fun d hd => Nat.digits_lt_base (by decide) hd, Nat.ofDigits_digits]

theorem fmtNat_injective : Function.Injective fmtNat :=
  Function.LeftInverse.injective digitsVal_fmtNat

theorem fmtInt_eq_fmtNat {z : Int} {n : Nat} : fmtInt z = fmtNat n ↔ z = n := by
  unfold fmtInt
  split
  · rename_i hneg
    refine iff_of_false (fun h => ?_) (by omega)
    have hdigit : isDigit 45 = true := isDigit_of_mem_fmtNat (n := n) (by simp [← h])
    exact absurd hdigit (by decide)
  · rename_i hnonneg
    rw [fmtNat_injective.eq_iff]
    omega

theorem isSpace_eq_false_of_isDigit {b : UInt8} (h : isDigit b = true) : isSpace b = false := by
  simp only [isDigit, isSpace, Bool.and_eq_true, decide_eq_true_eq, UInt8.le_iff_toNat_le,
    Bool.or_eq_false_iff, beq_eq_false_iff_ne, Bool.and_eq_false_iff, decide_eq_false_iff_not,
    ← UInt8.toNat_inj, ne_eq] at h ⊢
  simp at h ⊢
  omega

/-! ## What is read of a longer text -/

theorem takeWhile_append_stop {p : UInt8 → Bool} {xs ys : Bytes} (h : ys.takeWhile p = []) :
    (xs ++ ys).takeWhile p = xs.takeWhile p := by
  induction xs with
  | nil => exact h
  | cons x xs ih =>
    cases hx : p x with
    | true =>
      rw [List.cons_append, List.takeWhile_cons_of_pos hx, List.takeWhile_cons_of_pos hx, ih]
    | false =>
      have hneg : ¬p x = true := by simp [hx]
      rw [List.cons_append, List.takeWhile_cons_of_neg hneg, List.takeWhile_cons_of_neg hneg]

/-- A number in a text ends with the word that it stands in. -/
theorem strtol_append_stop {xs ys : Bytes} (hxs : ∃ b ∈ xs, isSpace b = false)
    (h : ys.takeWhile isDigit = []) : strtol (xs ++ ys) = strtol xs := by
  have hne : xs.dropWhile isSpace ≠ [] := by
    obtain ⟨b, hb, hspace⟩ := hxs
    rw [ne_eq, List.dropWhile_eq_nil_iff]
    intro hall
    rw [hall b hb] at hspace
    cases hspace
  obtain ⟨c, r, hcr⟩ := List.exists_cons_of_ne_nil hne
  have happ : (xs ++ ys).dropWhile isSpace = c :: (r ++ ys) := by
    rw [List.dropWhile_append, hcr]
    rfl
  have htake : (c :: (r ++ ys)).takeWhile isDigit = (c :: r).takeWhile isDigit := by
    rw [← List.cons_append]
    exact takeWhile_append_stop h
  simp only [strtol, happ, hcr, takeWhile_append_stop h, htake]

/-! ## The round trip -/

/-- A decimal numeral without a sign, with or without leading zeros. -/
structure Numeral where
  digits : Bytes
  ne_nil : digits ≠ []
  isDigit_of_mem : ∀ b ∈ digits, isDigit b = true

namespace Numeral

def val (n : Numeral) : Nat := digitsVal n.digits

/-- The numeral that `printf` prints. -/
def ofNat (n : Nat) : Numeral := ⟨fmtNat n, fmtNat_ne_nil n, fun _ => isDigit_of_mem_fmtNat⟩

@[simp] theorem val_ofNat (n : Nat) : (ofNat n).val = n := digitsVal_fmtNat n

theorem noNul (n : Numeral) : (0 : UInt8) ∉ n.digits := fun h =>
  absurd (n.isDigit_of_mem 0 h) (by decide)

theorem takeWhile_append (n : Numeral) {rest : Bytes} (hrest : rest.takeWhile isDigit = []) :
    (n.digits ++ rest).takeWhile isDigit = n.digits := by
  rw [List.takeWhile_append_of_pos n.isDigit_of_mem, hrest, List.append_nil]

theorem strtol_append (n : Numeral) {rest : Bytes} (hrest : rest.takeWhile isDigit = []) :
    strtol (n.digits ++ rest) = clamp64 n.val := by
  have htake := n.takeWhile_append hrest
  obtain ⟨b, r, hbr⟩ := List.exists_cons_of_ne_nil n.ne_nil
  have hb : isDigit b = true := n.isDigit_of_mem b (by simp [hbr])
  have hsp : (n.digits ++ rest).dropWhile isSpace = b :: (r ++ rest) := by
    rw [hbr, List.cons_append,
      List.dropWhile_cons_of_neg (by simp [isSpace_eq_false_of_isDigit hb])]
  have h45 : b ≠ 45 := by rintro rfl; exact absurd hb (by decide)
  have h43 : b ≠ 43 := by rintro rfl; exact absurd hb (by decide)
  rw [hbr, List.cons_append, ← hbr] at htake
  simp only [strtol, hsp, h45, h43, if_false, htake, val]

theorem strtol_neg_append (n : Numeral) {rest : Bytes} (hrest : rest.takeWhile isDigit = []) :
    strtol (45 :: (n.digits ++ rest)) = clamp64 (-n.val) := by
  have hsp : (45 :: (n.digits ++ rest)).dropWhile isSpace = 45 :: (n.digits ++ rest) :=
    List.dropWhile_cons_of_neg (by decide)
  simp only [strtol, hsp, if_true, n.takeWhile_append hrest, val]

end Numeral

theorem strtol_fmtNat_append (n : Nat) {rest : Bytes} (hrest : rest.takeWhile isDigit = []) :
    strtol (fmtNat n ++ rest) = clamp64 n := by
  have hread := (Numeral.ofNat n).strtol_append hrest
  rwa [Numeral.val_ofNat] at hread

theorem strtol_fmtNat (n : Nat) : strtol (fmtNat n) = clamp64 n := by
  have hnil : ([] : Bytes).takeWhile isDigit = [] := rfl
  simpa using strtol_fmtNat_append n hnil

/-- **Reading a printed number back** gives the number, saturated at 64 bits. -/
theorem strtol_fmtInt (z : Int) : strtol (fmtInt z) = clamp64 z := by
  unfold fmtInt
  split
  · rename_i h
    have hread := (Numeral.ofNat z.natAbs).strtol_neg_append (List.takeWhile_nil (p := isDigit))
    have hz : -(z.natAbs : Int) = z := by omega
    rwa [List.append_nil, Numeral.val_ofNat, hz] at hread
  · rename_i h
    have hz : (z.natAbs : Int) = z := by omega
    rw [strtol_fmtNat, hz]

theorem clamp64_eq {z : Int} (h₁ : -2 ^ 63 ≤ z) (h₂ : z < 2 ^ 63) : clamp64 z = z := by
  unfold clamp64
  omega

theorem toInt_bounds {w : Nat} (hw : 0 < w) (h64 : w ≤ 64) (v : BitVec w) :
    -2 ^ 63 ≤ v.toInt ∧ v.toInt < 2 ^ 63 := by
  have hle : (2 : Int) ^ (w - 1) ≤ 2 ^ 63 := by
    exact_mod_cast Nat.pow_le_pow_right (by decide) (by omega : w - 1 ≤ 63)
  have h₁ := BitVec.le_toInt v
  have h₂ := BitVec.toInt_lt (x := v)
  omega

/-! ## Numerals in a text format -/

theorem mem_fmtInt {z : Int} {b : UInt8} (h : b ∈ fmtInt z) : b = 45 ∨ isDigit b = true := by
  unfold fmtInt at h
  split at h
  · rcases List.mem_cons.mp h with rfl | h
    · exact .inl rfl
    · exact .inr (isDigit_of_mem_fmtNat h)
  · exact .inr (isDigit_of_mem_fmtNat h)

theorem notMem_fmtInt {z : Int} {b : UInt8} (h45 : b ≠ 45) (hd : isDigit b = false) :
    b ∉ fmtInt z := by
  intro h
  rcases mem_fmtInt h with h | h
  · exact h45 h
  · simp [hd] at h

theorem notMem_fmtNat {n : Nat} {b : UInt8} (hd : isDigit b = false) : b ∉ fmtNat n := fun h => by
  simp [isDigit_of_mem_fmtNat h] at hd

theorem length_fmtNat_le_iff {n k : Nat} (hk : 0 < k) :
    (fmtNat n).length ≤ k ↔ n < 10 ^ k := by
  unfold fmtNat
  split
  · rename_i hn
    exact iff_of_true hk (by rw [hn]; positivity)
  · simpa using Nat.digits_length_le_iff (b := 10) (by decide) n

theorem length_fmtNat_le {n k : Nat} (hk : 0 < k) (h : n < 10 ^ k) : (fmtNat n).length ≤ k :=
  (length_fmtNat_le_iff hk).mpr h

/-- `%li` of a 64-bit value, whatever its signedness. -/
def fmtLong (v : BitVec 64) : CStr := ⟨fmtInt v.toInt, notMem_fmtInt (by decide) (by decide)⟩

/-- `%i` of a 32-bit value. -/
def fmtInt32 (v : BitVec 32) : CStr := ⟨fmtInt v.toInt, notMem_fmtInt (by decide) (by decide)⟩

/-- The numeral of a natural number as a string. -/
def fmtNatStr (n : Nat) : CStr := ⟨fmtNat n, notMem_fmtNat (by decide)⟩

theorem length_fmtInt_le {z : Int} {k : Nat} (hk : 0 < k) (h : z.natAbs < 10 ^ k) :
    (fmtInt z).length ≤ k + 1 := by
  have hdigits : (fmtNat z.natAbs).length ≤ k := length_fmtNat_le hk h
  unfold fmtInt
  split
  · simp only [List.length_cons]
    omega
  · omega

theorem fmtInt32_of_pos {v : BitVec 32} (h : 0 < v.toInt) :
    v.toNat < 2 ^ 31 ∧ (fmtInt32 v).bytes = fmtNat v.toNat := by
  have hlt := BitVec.toInt_lt (x := v)
  have hnat : v.toInt = v.toNat := by
    rw [BitVec.toInt_eq_toNat_cond]
    split
    · rfl
    · rename_i hneg
      rw [BitVec.toInt_eq_toNat_cond, if_neg hneg] at h
      have := v.isLt
      omega
  exact ⟨by omega, fmtInt_eq_fmtNat.mpr hnat⟩

theorem length_fmtInt32_le (v : BitVec 32) : (fmtInt32 v).len ≤ 11 := by
  have hle := BitVec.le_toInt v
  have hlt := BitVec.toInt_lt (x := v)
  exact length_fmtInt_le (k := 10) (by decide) (by omega)

theorem length_fmtLong_le (v : BitVec 64) : (fmtLong v).len ≤ 20 := by
  have hle := BitVec.le_toInt v
  have hlt := BitVec.toInt_lt (x := v)
  exact length_fmtInt_le (k := 19) (by decide) (by omega)

@[simp] theorem atol_fmtLong (v : BitVec 64) : atol (fmtLong v) = v := by
  obtain ⟨h₁, h₂⟩ := toInt_bounds (by decide) (by decide) v
  simp only [atol, fmtLong, strtol_fmtInt, clamp64_eq h₁ h₂, BitVec.ofInt_toInt]

@[simp] theorem atoi_fmtInt32 (v : BitVec 32) : atoi (fmtInt32 v) = v := by
  obtain ⟨h₁, h₂⟩ := toInt_bounds (by decide) (by decide) v
  simp only [atoi, fmtInt32, strtol_fmtInt, clamp64_eq h₁ h₂, BitVec.ofInt_toInt]

theorem toNat_atoll128_fmtNatStr (v : BitVec 128) :
    (atoll128 (fmtNatStr v.toNat)).toNat = min v.toNat (2 ^ 63 - 1) := by
  have hv := v.isLt
  have hclamp : clamp64 v.toNat = (min v.toNat (2 ^ 63 - 1) : Nat) := by
    unfold clamp64
    omega
  simp only [atoll128, fmtNatStr, strtol_fmtNat, hclamp, BitVec.ofInt_natCast, BitVec.toNat_ofNat]
  omega

theorem atoll128_fmtNatStr_eq_iff (v : BitVec 128) :
    atoll128 (fmtNatStr v.toNat) = v ↔ v.toNat < 2 ^ 63 := by
  rw [← BitVec.toNat_inj, toNat_atoll128_fmtNatStr]
  omega

end Clib
