import MiniRunner.Store.Limits

/-!
# The buffers of `uint128_to_chars`

`res_man/utils/helper.h`. The digits are stored in `temp`, last digit first, and copied
back to the static `buffer`; both have 65 bytes, and whatever they held before is still
behind the terminator. `uint128ToChars_eq` of the limits store says what the digits are,
`uint128ToChars_buffers` that the two loops over the buffers arrive at them.
-/

namespace MiniRunner

open Clib

namespace Numeral

/-- `char[65]`. -/
structure Buffer where
  bytes : Bytes
  length : bytes.length = 65

namespace Buffer

def store (i : Nat) (b : UInt8) (buff : Buffer) : Except Halt Buffer :=
  if i < 65 then .ok ⟨buff.bytes.set i b, by rw [List.length_set, buff.length]⟩
  else .error .undefined

def fetch (i : Nat) (buff : Buffer) : Except Halt UInt8 :=
  match buff.bytes[i]? with
  | some b => .ok b
  | none => .error .undefined

def text (buff : Buffer) : Bytes := (CStr.ofBytes buff.bytes).bytes

end Buffer

/-- `while (num > 0 && i < 64) temp[i++] = '0' + (num % 10), num /= 10`. -/
def fillTemp (num : BitVec 128) (i : Nat) (temp : Buffer) : Except Halt (Nat × Buffer) :=
  if h : 0 < num ∧ i < 64 then do
    let temp ← temp.store i (digitByte (num % 10).toNat)
    fillTemp (num / 10) (i + 1) temp
  else .ok (i, temp)
termination_by 64 - i
decreasing_by
  obtain ⟨-, hi⟩ := h
  omega

/-- `while (i > 0 && j < 64) buffer[j++] = temp[--i]`. -/
def copyBack (temp : Buffer) : Nat → Nat → Buffer → Except Halt (Nat × Buffer)
  | 0, j, buffer => .ok (j, buffer)
  | i + 1, j, buffer =>
    if j < 64 then do
      let b ← temp.fetch i
      let buffer ← buffer.store j b
      copyBack temp i (j + 1) buffer
    else .ok (j, buffer)

/-- `uint128_to_chars`, on what the buffers hold when it is called. -/
def uint128ToChars (buffer temp : Buffer) (num : BitVec 128) : Except Halt Buffer := do
  if num = 0 then
    let buffer ← buffer.store 0 48
    buffer.store 1 0
  else
    let (i, temp) ← fillTemp num 0 temp
    let (j, buffer) ← copyBack temp i 0 buffer
    buffer.store j 0

/-! ## The loops -/

theorem store_eq {i : Nat} (h : i < 65) (b : UInt8) (buff : Buffer) :
    ∃ buff', buff.store i b = .ok buff' ∧ buff'.bytes = buff.bytes.set i b :=
  ⟨_, if_pos h, rfl⟩

theorem fetch_eq {buff : Buffer} {i : Nat} {b : UInt8} (h : buff.bytes[i]? = some b) :
    buff.fetch i = .ok b := by
  rw [Buffer.fetch, h]

theorem take_set_succ {l : Bytes} {i : Nat} (h : i < l.length) (b : UInt8) :
    (l.set i b).take (i + 1) = l.take i ++ [b] := by
  rw [List.take_succ_eq_append_getElem (by rw [List.length_set]; exact h), List.getElem_set_self,
    List.take_set_of_le (Nat.le_refl i)]

/-- **Filling `temp`** puts the digits of `num` behind the ones that are there. -/
theorem fillTemp_eq {k : Nat} : ∀ {num : BitVec 128} {i : Nat} (temp : Buffer),
    num.toNat < 10 ^ k → i + k = 64 →
    ∃ i' temp', fillTemp num i temp = .ok (i', temp') ∧ i' ≤ 64 ∧
      temp'.bytes.take i' = temp.bytes.take i ++ (Nat.digits 10 num.toNat).map digitByte := by
  induction k with
  | zero =>
    intro num i temp hnum hi
    have hzero : num.toNat = 0 := by omega
    rw [fillTemp, dif_neg fun h => by omega, hzero]
    exact ⟨i, temp, rfl, by omega, (List.append_nil _).symm⟩
  | succ k ih =>
    intro num i temp hnum hi
    have hpositive : 0 < num ↔ 0 < num.toNat := by simp [BitVec.lt_def]
    rw [fillTemp]
    by_cases hpos : 0 < num.toNat
    · have hlt : i < 64 := by omega
      have hslot : i < temp.bytes.length := by
        rw [temp.length]
        omega
      obtain ⟨temp₁, hstore, hbytes⟩ :=
        store_eq (by omega : i < 65) (digitByte (num % 10).toNat) temp
      have hdiv : (num / 10).toNat = num.toNat / 10 := BitVec.toNat_udiv
      have hmod : (num % 10).toNat = num.toNat % 10 := BitVec.toNat_umod
      have hnext : (num / 10).toNat < 10 ^ k := by
        rw [hdiv]
        rw [pow_succ] at hnum
        omega
      obtain ⟨i', temp', hfill, hi', htake⟩ := ih temp₁ hnext (by omega : i + 1 + k = 64)
      refine ⟨i', temp', ?_, hi', ?_⟩
      · rw [dif_pos ⟨hpositive.mpr hpos, hlt⟩, hstore]
        exact hfill
      · rw [htake, hbytes, take_set_succ hslot, List.append_assoc,
          Nat.digits_def' (by decide) hpos, hdiv, hmod]
        rfl
    · have hzero : num.toNat = 0 := by omega
      rw [dif_neg fun h => hpos (hpositive.mp h.1), hzero]
      exact ⟨i, temp, rfl, by omega, (List.append_nil _).symm⟩

/-- **Copying back** puts the first `i` bytes of `temp` in reverse behind the `j` ones that
are there. -/
theorem copyBack_eq (temp : Buffer) {i : Nat} : ∀ {j : Nat} (buffer : Buffer), j + i ≤ 64 →
    ∃ buffer', copyBack temp i j buffer = .ok (j + i, buffer') ∧
      buffer'.bytes.take (j + i) = buffer.bytes.take j ++ (temp.bytes.take i).reverse := by
  induction i with
  | zero => exact fun buffer _ => ⟨buffer, rfl, (List.append_nil _).symm⟩
  | succ i ih =>
    intro j buffer hle
    have hi : i < temp.bytes.length := by
      rw [temp.length]
      omega
    have hj : j < buffer.bytes.length := by
      rw [buffer.length]
      omega
    have hfetch := fetch_eq (List.getElem?_eq_getElem hi)
    obtain ⟨buffer₁, hstore, hbytes⟩ := store_eq (by omega : j < 65) (temp.bytes.get ⟨i, hi⟩) buffer
    obtain ⟨buffer', hcopy, htake⟩ := ih buffer₁ (by omega : j + 1 + i ≤ 64)
    refine ⟨buffer', ?_, ?_⟩
    · rw [copyBack, if_pos (by omega), hfetch, show j + (i + 1) = j + 1 + i by omega, ← hcopy]
      show (buffer.store j (temp.bytes.get ⟨i, hi⟩) >>= fun b => copyBack temp i (j + 1) b) = _
      rw [hstore]
      rfl
    · rw [show j + (i + 1) = j + 1 + i by omega, htake, hbytes, take_set_succ hj,
        List.take_succ_eq_append_getElem hi, List.reverse_append, List.append_assoc]
      rfl

/-- The string of a buffer with a terminator behind its first `j` bytes. -/
theorem text_of_take {buff : Buffer} {digits : Bytes} {j : Nat} (hj : j < 65)
    (htake : buff.bytes.take j = digits) (hnul : (0 : UInt8) ∉ digits) :
    ∃ buff', buff.store j 0 = .ok buff' ∧ buff'.text = digits := by
  obtain ⟨buff', hstore, hbytes⟩ := store_eq hj 0 buff
  refine ⟨buff', hstore, ?_⟩
  have hlt : j < buff.bytes.length := by rwa [buff.length]
  have hsplit : buff'.bytes = digits ++ 0 :: buff'.bytes.drop (j + 1) := by
    have hfirst : buff'.bytes.take (j + 1) = digits ++ [0] := by
      rw [hbytes, take_set_succ hlt, htake]
    calc buff'.bytes = buff'.bytes.take (j + 1) ++ buff'.bytes.drop (j + 1) :=
          (List.take_append_drop _ _).symm
      _ = digits ++ 0 :: buff'.bytes.drop (j + 1) := by
          rw [hfirst, List.append_assoc]
          rfl
  have hstops : ((0 : UInt8) :: buff'.bytes.drop (j + 1)).takeWhile (· != 0) = [] := rfl
  rw [Buffer.text, hsplit]
  calc (CStr.ofBytes (digits ++ 0 :: buff'.bytes.drop (j + 1))).bytes
      = digits.takeWhile (· != 0) := takeWhile_append_stop hstops
    _ = digits := CStr.ofBytes_bytes_of_noNul hnul

/-! ## The numeral -/

theorem notMem_fmtNat (n : Nat) : (0 : UInt8) ∉ fmtNat n := fun h =>
  absurd (isDigit_of_mem_fmtNat h) (by decide)

/-- **The buffers hold the digits** that the limits store says, and no index leaves them. -/
theorem uint128ToChars_buffers (buffer temp : Buffer) (num : BitVec 128) :
    ∃ buffer', uint128ToChars buffer temp num = .ok buffer' ∧
      buffer'.text = MiniRunner.uint128ToChars num := by
  rw [uint128ToChars_eq, fmtNat]
  have hz : num = 0 ↔ num.toNat = 0 := by rw [← BitVec.toNat_inj]; rfl
  by_cases hzero : num = 0
  · obtain ⟨buffer₁, hstore, hbytes⟩ := store_eq (by decide : 0 < 65) 48 buffer
    have hpos : 0 < buffer.bytes.length := by
      rw [buffer.length]
      decide
    have hfirst : buffer₁.bytes.take 1 = [48] := by
      rw [hbytes, take_set_succ hpos]
      rfl
    obtain ⟨buffer', hend, htext⟩ := text_of_take (by decide : 1 < 65) hfirst (by decide)
    refine ⟨buffer', ?_, ?_⟩
    · rw [uint128ToChars, if_pos hzero, hstore]
      exact hend
    · rw [if_pos (hz.mp hzero), htext]
  · have hnum : num.toNat < 10 ^ 64 := Nat.lt_trans num.isLt (by norm_num)
    obtain ⟨i, temp', hfill, hi, htemp⟩ := fillTemp_eq temp hnum (Nat.zero_add 64)
    obtain ⟨buffer₁, hcopy, hbuffer⟩ := copyBack_eq temp' buffer (by omega : 0 + i ≤ 64)
    have hdigits : buffer₁.bytes.take (0 + i) = fmtNat num.toNat := by
      rw [hbuffer, htemp, fmtNat, if_neg (hz.not.mp hzero), List.map_reverse]
      rfl
    obtain ⟨buffer', hend, htext⟩ :=
      text_of_take (by omega : 0 + i < 65) hdigits (notMem_fmtNat num.toNat)
    refine ⟨buffer', ?_, ?_⟩
    · rw [uint128ToChars, if_neg hzero, hfill]
      show (copyBack temp' i 0 buffer >>= fun p => p.2.store p.1 0) = _
      rw [hcopy]
      exact hend
    · rw [htext, fmtNat]

/-- **The canonical numeral** of a number. -/
structure Canonical (n : Nat) (text : Bytes) : Prop where
  digits : ∀ b ∈ text, isDigit b = true
  value : digitsVal text = n
  nonempty : text ≠ []
  leading : text.head? = some 48 → text = [48]

theorem canonical_fmtNat (n : Nat) : Canonical n (fmtNat n) where
  digits _ hb := isDigit_of_mem_fmtNat hb
  value := digitsVal_fmtNat n
  nonempty := fmtNat_ne_nil n
  leading h := by
    rw [fmtNat] at h ⊢
    split at h
    · rename_i hzero
      rw [if_pos hzero]
    · rename_i hne
      have hdigits : Nat.digits 10 n ≠ [] := Nat.digits_ne_nil_iff_ne_zero.mpr hne
      have hlast : (Nat.digits 10 n).getLast hdigits < 10 :=
        Nat.digits_lt_base (by decide) (List.getLast_mem hdigits)
      rw [List.head?_map, List.head?_reverse, List.getLast?_eq_some_getLast hdigits] at h
      have hbyte := congrArg UInt8.toNat (Option.some.inj h)
      rw [digitByte_toNat hlast] at hbyte
      have hzero : (Nat.digits 10 n).getLast hdigits = 0 := Nat.add_left_cancel hbyte
      exact absurd hzero (Nat.getLast_digit_ne_zero 10 hne)

/-- **`uint128_to_chars` prints every number below 2^128** with no index out of range. -/
theorem uint128ToChars_canonical (buffer temp : Buffer) (num : BitVec 128) :
    ∃ buffer', uint128ToChars buffer temp num = .ok buffer' ∧
      Canonical num.toNat buffer'.text := by
  obtain ⟨buffer', hrun, htext⟩ := uint128ToChars_buffers buffer temp num
  rw [uint128ToChars_eq] at htext
  exact ⟨buffer', hrun, htext ▸ canonical_fmtNat num.toNat⟩

end Numeral

end MiniRunner
