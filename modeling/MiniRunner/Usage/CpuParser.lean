import MiniRunner.Usage.MemParser

/-!
# The parser of the process times

`res_man/usage/parser/cpu_parser.c`. `numOfCores` counts the blanks of `/proc/<pid>/stat` and
cuts a value at the 14th, the 15th and the 22nd of them; the cuts start at the bytes 14, 15
and 22 of the text, whatever the fields before are. From `/proc/uptime` it takes the seconds,
once for each blank. Allocations succeed, and the quotient in floating point is left out: the
model ends with the numbers that go into it. The callers read at most 511 and 49 bytes.

`cpuStep_space` is the step lemma of the first loop. A number that is cut out is the one that
stands at the first byte of the cut (`atoi_cut`).
-/

namespace MiniRunner

open Clib

namespace ProcParser

/-! ## The model -/

/-- The variables of `numOfCores`. -/
structure CpuVars where
  lastIndex : Nat
  utime : BitVec 32
  stime : BitVec 32
  startTime : BitVec 32
  nowInJiffies : BitVec 32
  foundVars : Nat

/-- One round of the loop over the fields. -/
def cpuStep (data : CStr) (i : Nat) (s : CpuVars) : Except Halt CpuVars :=
  if data.bytes[i]? = some space then do
    let s ←
      if s.lastIndex = 13 then do
        let value ← giveString data 14 i
        pure { s with foundVars := s.foundVars + 1, utime := atoi value }
      else if s.lastIndex = 14 then do
        let value ← giveString data 15 i
        pure { s with foundVars := s.foundVars + 1, stime := atoi value }
      else if s.lastIndex = 21 then do
        let value ← giveString data 22 i
        pure { s with foundVars := s.foundVars + 1, startTime := atoi value }
      else pure s
    pure { s with lastIndex := s.lastIndex + 1 }
  else pure s

/-- `v * 100` of two `int`. -/
def times100 (v : BitVec 32) : Except Halt (BitVec 32) :=
  if -2 ^ 31 ≤ v.toInt * 100 ∧ v.toInt * 100 < 2 ^ 31 then pure (v * 100) else throw .undefined

/-- One round of the loop over the uptime. -/
def uptimeStep (uptimeData : CStr) (i : Nat) (s : CpuVars) : Except Halt CpuVars :=
  if uptimeData.bytes[i]? = some space then do
    let value ← giveString uptimeData 0 i
    let jiffies ← times100 (atoi value)
    pure { s with foundVars := s.foundVars + 1, nowInJiffies := jiffies }
  else pure s

/-- `numOfCores`, up to the quotient. -/
def numOfCores (data uptimeData : CStr) : Except Halt CpuVars := do
  let s ← forFrom (cpuStep data) 0 (intSize data.len).toNat ⟨0, 0, 0, 0, 0, 0⟩
  if intSize uptimeData.len ≤ 0 then throw .aborted
  else forFrom (uptimeStep uptimeData) 0 (intSize uptimeData.len).toNat s

/-! ## The texts -/

structure Word where
  bytes : Bytes
  ne_nil : bytes ≠ []
  noBlank : ∀ b ∈ bytes, isSpace b = false
  noNul : (0 : UInt8) ∉ bytes

theorem Word.space_notMem (w : Word) : space ∉ w.bytes := fun h =>
  absurd (w.noBlank space h) (by decide)

/-- A stat text of at least 22 fields: each of them but the last has a blank behind it, and the
text may end with a newline. -/
structure StatText where
  before : List Word
  last : Word
  long : 21 ≤ before.length
  newlineAtEnd : Bool

/-- An uptime text: the whole seconds, and what follows their digits. -/
structure UptimeText where
  seconds : Numeral
  tail : Bytes
  ends : tail.takeWhile isDigit = []
  noNul : (0 : UInt8) ∉ tail

namespace StatText

def fields (t : StatText) : List Word := t.before ++ [t.last]

/-- What is behind the blank of the last field but one. -/
def ending (t : StatText) : Bytes := t.last.bytes ++ if t.newlineAtEnd then [newline] else []

/-- The bytes of the fields that have a blank behind them. -/
def parts (t : StatText) : List Bytes := t.before.map (·.bytes)

theorem space_notMem_parts (t : StatText) : ∀ part ∈ t.parts, space ∉ part := fun part h => by
  obtain ⟨w, -, rfl⟩ := List.mem_map.mp h
  exact w.space_notMem

theorem space_notMem_ending (t : StatText) : space ∉ t.ending := by
  rw [ending]
  split <;> simp [t.last.space_notMem, space, newline]

def bytes (t : StatText) : Bytes := t.parts.flatMap (· ++ [space]) ++ t.ending

theorem noNul (t : StatText) : (0 : UInt8) ∉ t.bytes := by
  rw [bytes, ending, parts, List.flatMap_map]
  split <;> simp +contextual [Word.noNul, t.last.noNul, space, newline]

def text (t : StatText) : CStr := ⟨t.bytes, t.noNul⟩

/-- The value of the field of a number, counted from 1. -/
def value (t : StatText) (n : Nat) : Int := (t.fields[n - 1]?).elim 0 fun w => strtol w.bytes

/-- The `int` that stands at a byte of the text. -/
def intAt (t : StatText) (k : Nat) : Int := (BitVec.ofInt 32 (strtol (t.bytes.drop k))).toInt

end StatText

namespace UptimeText

def text (u : UptimeText) : CStr :=
  ⟨u.seconds.digits ++ u.tail, by simp [u.seconds.noNul, u.noNul]⟩

end UptimeText

/-- The code reads the columns 14, 15 and 22 and the seconds. -/
def ReadsColumns (t : StatText) (u : UptimeText) : Prop :=
  Results (fun s => s.utime.toInt = t.value 14 ∧ s.stime.toInt = t.value 15 ∧
    s.startTime.toInt = t.value 22 ∧ s.nowInJiffies.toInt = 100 * (u.seconds.val : Int))
    (fun _ => False) (numOfCores t.text u.text)

/-- Where the code cuts, the text holds the numbers of the fields that are meant, and the
seconds have a blank behind them and a product that is an `int`. -/
structure ColumnsAgree (t : StatText) (u : UptimeText) : Prop where
  utime : t.intAt 14 = t.value 14
  stime : t.intAt 15 = t.value 15
  startTime : (if 22 < t.fields.length then t.intAt 22 else 0) = t.value 22
  uptime : u.seconds.val = 0 ∨ space ∈ u.tail ∧ u.seconds.val * 100 < 2 ^ 31

/-! ## The fields -/

section fields

variable {data : CStr} {o : Nat} {part rest : Bytes}

/-- **A number that is cut out** from a byte `k` on, up to a blank with a word before it. -/
theorem atoi_cut {k : Nat} (hk : k ≤ o) (h : data.bytes.drop o = part ++ space :: rest)
    (hword : ∃ b ∈ part, isSpace b = false) :
    ∃ value, giveString data k (o + part.length) = pure value ∧
      atoi value = BitVec.ofInt 32 (strtol (data.bytes.drop k)) := by
  have hlen := length_of_drop h (by simp)
  have hcut : (data.bytes.take (o + part.length)).drop k =
      (data.bytes.take o).drop k ++ part := by
    have hle : o ≤ (data.bytes.take (o + part.length)).length := by
      rw [List.length_take]
      omega
    rw [drop_eq_append hle hk, List.take_take, Nat.min_eq_left (Nat.le_add_right _ _),
      drop_take_of_drop h]
  have hall : data.bytes.drop k = ((data.bytes.take o).drop k ++ part) ++ space :: rest := by
    rw [drop_eq_append (by omega) hk, h, List.append_assoc]
  have hnul : (0 : UInt8) ∉ (data.bytes.take o).drop k ++ part := fun hmem => by
    refine data.noNul (List.mem_of_mem_drop (i := k) ?_)
    rw [hall]
    exact List.mem_append_left _ hmem
  obtain ⟨b, hb, hspace⟩ := hword
  refine ⟨_, if_pos ⟨by omega, by rw [CStr.len]; omega⟩, ?_⟩
  rw [hcut, atoi, CStr.ofBytes_bytes_of_noNul hnul, hall,
    strtol_append_stop ⟨b, List.mem_append_right _ hb, hspace⟩ rfl]

/-- The variables after `k` blanks. -/
def CpuVars.after (data : CStr) (k : Nat) : CpuVars where
  lastIndex := k
  utime := if 13 < k then .ofInt 32 (strtol (data.bytes.drop 14)) else 0
  stime := if 14 < k then .ofInt 32 (strtol (data.bytes.drop 15)) else 0
  startTime := if 21 < k then .ofInt 32 (strtol (data.bytes.drop 22)) else 0
  nowInJiffies := 0
  foundVars := (if 13 < k then 1 else 0) + (if 14 < k then 1 else 0) + if 21 < k then 1 else 0

/-- **A blank.** Before the field in front of it each field had a byte and a blank. -/
theorem cpuStep_space {k : Nat} (hk : 2 * k ≤ o) (h : data.bytes.drop o = part ++ space :: rest)
    (hword : ∃ b ∈ part, isSpace b = false) :
    cpuStep data (o + part.length) (.after data k) = pure (.after data (k + 1)) := by
  rw [cpuStep, if_pos (getElem?_behind h)]
  by_cases hutime : k = 13
  · subst hutime
    obtain ⟨value, hcut, hvalue⟩ := atoi_cut (k := 14) (by omega) h hword
    simp [CpuVars.after, hcut, hvalue]
  by_cases hstime : k = 14
  · subst hstime
    obtain ⟨value, hcut, hvalue⟩ := atoi_cut (k := 15) (by omega) h hword
    simp [CpuVars.after, hcut, hvalue]
  by_cases hstart : k = 21
  · subst hstart
    obtain ⟨value, hcut, hvalue⟩ := atoi_cut (k := 22) (by omega) h hword
    simp [CpuVars.after, hcut, hvalue]
  · have h13 : (13 < k + 1) = (13 < k) := propext (by omega)
    have h14 : (14 < k + 1) = (14 < k) := propext (by omega)
    have h21 : (21 < k + 1) = (21 < k) := propext (by omega)
    simp [CpuVars.after, hutime, hstime, hstart, h13, h14, h21]

/-- **The fields in turn.** -/
theorem overParts_cpuStep {parts : List Bytes} {k : Nat} (hk : 2 * k ≤ o)
    (hparts : ∀ part ∈ parts, ∃ b ∈ part, isSpace b = false)
    (h : data.bytes.drop o = parts.flatMap (· ++ [space]) ++ rest) :
    overParts (cpuStep data) o parts (.after data k) = pure (.after data (k + parts.length)) := by
  induction parts generalizing o k with
  | nil => rfl
  | cons part parts ih =>
    rw [List.flatMap_cons, List.append_assoc, List.append_assoc, List.singleton_append] at h
    have hword := hparts part List.mem_cons_self
    have hpos : 0 < part.length := by
      obtain ⟨b, hb, -⟩ := hword
      exact List.length_pos_of_mem hb
    rw [overParts, cpuStep_space hk h hword, pure_bind,
      ih (by omega) (fun p hp => hparts p (List.mem_cons_of_mem part hp)) (drop_next h),
      List.length_cons, Nat.add_right_comm k, Nat.add_assoc k]

end fields

/-- **The loop over the fields.** -/
theorem loop_fields (t : StatText) :
    forFrom (cpuStep t.text) 0 t.bytes.length ⟨0, 0, 0, 0, 0, 0⟩ =
      pure (.after t.text t.before.length) := by
  have hidle (i : Nat) (s : CpuVars) (hne : t.text.bytes[i]? ≠ some space) :
      cpuStep t.text i s = pure s := if_neg hne
  have hdrop : t.text.bytes.drop 0 = t.parts.flatMap (· ++ [space]) ++ t.ending := rfl
  have hparts : ∀ part ∈ t.parts, ∃ b ∈ part, isSpace b = false := fun part hpart => by
    obtain ⟨w, -, rfl⟩ := List.mem_map.mp hpart
    obtain ⟨b, hb⟩ := List.exists_mem_of_ne_nil _ w.ne_nil
    exact ⟨b, hb, w.noBlank b hb⟩
  have hbehind : t.text.bytes.drop (0 + (t.parts.flatMap (· ++ [space])).length) =
      t.ending ++ [] := by
    rw [Nat.zero_add, List.append_nil]
    exact List.drop_left
  have hloop := overParts_cpuStep (k := 0) (Nat.le_refl 0) hparts hdrop
  rw [Nat.zero_add t.parts.length, StatText.parts, List.length_map, ← StatText.parts] at hloop
  have hfirst : (⟨0, 0, 0, 0, 0, 0⟩ : CpuVars) = .after t.text 0 := rfl
  rw [StatText.bytes, List.length_append, forFrom_add,
    forFrom_parts (fun i s _ => hidle i s) t.space_notMem_parts hdrop, hfirst, hloop, pure_bind]
  refine forFrom_idle fun i hle hlt => hidle i _ fun heq => ?_
  obtain ⟨j, rfl⟩ := Nat.exists_eq_add_of_le hle
  rw [getElem?_of_drop hbehind (by omega)] at heq
  exact t.space_notMem_ending (List.mem_of_getElem? heq)

/-! ## The uptime -/

section uptime

variable (u : UptimeText)

theorem space_notMem_seconds : space ∉ u.seconds.digits := fun h =>
  absurd (u.seconds.isDigit_of_mem space h) (by decide)

theorem takeWhile_take_tail (n : Nat) : (u.tail.take n).takeWhile isDigit = [] := by
  have h := u.ends
  cases htail : u.tail with
  | nil => rw [List.take_nil, List.takeWhile_nil]
  | cons b tail =>
    cases n with
    | zero => rfl
    | succ n =>
      rw [htail, List.takeWhile_cons] at h
      rw [List.take_succ_cons, List.takeWhile_cons]
      split at h
      · cases h
      · rename_i hdigit
        exact if_neg hdigit

/-- At a blank, the digits of the seconds are before it. -/
theorem giveString_uptime {i : Nat} (hi : u.text.bytes[i]? = some space) :
    ∃ value, giveString u.text 0 i = pure value ∧
      atoi value = .ofInt 32 (clamp64 u.seconds.val) := by
  have hdigits : u.seconds.digits.length ≤ i := by
    by_contra hlt
    rw [UptimeText.text, List.getElem?_append_left (Nat.lt_of_not_le hlt)] at hi
    exact space_notMem_seconds u (List.mem_of_getElem? hi)
  have hlt : i < u.text.len := (List.getElem?_eq_some_iff.mp hi).1
  obtain ⟨k, rfl⟩ := Nat.exists_eq_add_of_le hdigits
  have htake : (u.text.bytes.take (u.seconds.digits.length + k)).drop 0 =
      u.seconds.digits ++ u.tail.take k := List.take_length_add_append k
  have hnul : (0 : UInt8) ∉ u.seconds.digits ++ u.tail.take k := by
    rw [← htake]
    exact fun h => u.text.noNul (List.mem_of_mem_take h)
  refine ⟨_, if_pos ⟨Nat.zero_le _, Nat.le_of_lt hlt⟩, ?_⟩
  rw [htake, atoi, CStr.ofBytes_bytes_of_noNul hnul,
    u.seconds.strtol_append (takeWhile_take_tail u k)]

theorem times100_seconds {n : Nat} (h : n < 2 ^ 31) :
    times100 (.ofInt 32 (clamp64 n)) =
      if n * 100 < 2 ^ 31 then pure (.ofInt 32 (100 * n)) else throw .undefined := by
  have hclamp : clamp64 n = n := clamp64_eq (by omega) (by omega)
  have hint : (BitVec.ofInt 32 (n : Int)).toInt = n := by
    rw [BitVec.toInt_ofInt]
    exact Int.bmod_eq_of_le (by omega) (by omega)
  have hmul : (BitVec.ofInt 32 (n : Int)) * 100 = .ofInt 32 (100 * n) := by
    rw [Int.mul_comm, BitVec.ofInt_mul]
    rfl
  rw [times100, hclamp, hint, hmul]
  refine if_congr ?_ rfl rfl
  omega

/-- The variables when the loop has seen a part of the text: those of the fields are as
before, and at a blank the product was taken. -/
structure AfterUptime (s₀ : CpuVars) (seen : Bytes) (s : CpuVars) : Prop where
  utime : s.utime = s₀.utime
  stime : s.stime = s₀.stime
  startTime : s.startTime = s₀.startTime
  now : s.nowInJiffies = if space ∈ seen then .ofInt 32 (100 * u.seconds.val) else 0

variable {u} {s₀ : CpuVars}

theorem mem_take_succ {i : Nat} {bytes : Bytes} :
    space ∈ bytes.take (i + 1) ↔ bytes[i]? = some space ∨ space ∈ bytes.take i := by
  rw [List.take_add_one, List.mem_append, Option.mem_toList]
  exact or_comm

theorem uptimeStep_ok (hsec : u.seconds.val < 2 ^ 31)
    (hfits : space ∈ u.text.bytes → u.seconds.val * 100 < 2 ^ 31)
    {i : Nat} {s : CpuVars} (h : AfterUptime u s₀ (u.text.bytes.take i) s) :
    ∃ s', uptimeStep u.text i s = .ok s' ∧ AfterUptime u s₀ (u.text.bytes.take (i + 1)) s' := by
  rw [uptimeStep]
  by_cases hbyte : u.text.bytes[i]? = some space
  · obtain ⟨value, hcut, hvalue⟩ := giveString_uptime u hbyte
    rw [if_pos hbyte, hcut, pure_bind, hvalue, times100_seconds hsec,
      if_pos (hfits (List.mem_of_getElem? hbyte)), pure_bind]
    exact ⟨_, rfl, h.utime, h.stime, h.startTime, (if_pos (mem_take_succ.mpr (.inl hbyte))).symm⟩
  · refine ⟨s, if_neg hbyte, h.utime, h.stime, h.startTime, h.now.trans (if_congr ?_ rfl rfl)⟩
    rw [mem_take_succ, or_iff_right hbyte]

/-- **The loop over the uptime**, when a product that is taken is an `int`. -/
theorem loop_uptime (hsec : u.seconds.val < 2 ^ 31)
    (hfits : space ∈ u.text.bytes → u.seconds.val * 100 < 2 ^ 31)
    (s₀ : CpuVars) (hs₀ : s₀.nowInJiffies = 0) :
    ∃ s, forFrom (uptimeStep u.text) 0 u.text.len s₀ = .ok s ∧
      AfterUptime u s₀ u.text.bytes s := by
  have hstart : AfterUptime u s₀ (u.text.bytes.take 0) s₀ := ⟨rfl, rfl, rfl, hs₀⟩
  obtain ⟨s, hloop, hafter⟩ := forFrom_ok (n := u.text.len)
    (I := fun i => AfterUptime u s₀ (u.text.bytes.take i))
    (fun _ _ h => uptimeStep_ok hsec hfits h) hstart
  rw [Nat.zero_add, CStr.len, List.take_length] at hafter
  exact ⟨s, hloop, hafter⟩

/-- Where the product is no `int`, the first blank ends the loop. -/
theorem loop_uptime_undefined (hsec : u.seconds.val < 2 ^ 31)
    (hfits : ¬u.seconds.val * 100 < 2 ^ 31) (hspace : space ∈ u.text.bytes) (s₀ : CpuVars) :
    Results (fun _ => False) (fun e => e = .undefined)
      (forFrom (uptimeStep u.text) 0 u.text.len s₀) := by
  have hresults : Results (fun _ => space ∉ u.text.bytes.take (0 + u.text.len))
      (fun e => e = .undefined) (forFrom (uptimeStep u.text) 0 u.text.len s₀) := by
    refine results_forFrom (I := fun i _ => space ∉ u.text.bytes.take i)
      (fun {i s} _ hi hI => ?_) List.not_mem_nil
    rw [uptimeStep]
    by_cases hbyte : u.text.bytes[i]? = some space
    · obtain ⟨value, hcut, hvalue⟩ := giveString_uptime u hbyte
      rw [if_pos hbyte, hcut, pure_bind, hvalue, times100_seconds hsec, if_neg hfits]
      rfl
    · rw [if_neg hbyte]
      exact fun hmem => (mem_take_succ.mp hmem).elim hbyte hI
  rw [Nat.zero_add, CStr.len, List.take_length] at hresults
  exact results_mono hresults (fun _ hnot => hnot hspace) fun _ he => he

end uptime

/-! ## The columns -/

section columns

variable {t : StatText} {u : UptimeText}

theorem fields_length (t : StatText) : t.fields.length = t.before.length + 1 := by
  rw [StatText.fields, List.length_append, List.length_singleton]

theorem after_fields (t : StatText) :
    (CpuVars.after t.text t.before.length).utime.toInt = t.intAt 14 ∧
      (CpuVars.after t.text t.before.length).stime.toInt = t.intAt 15 ∧
      (CpuVars.after t.text t.before.length).startTime.toInt =
        if 22 < t.fields.length then t.intAt 22 else 0 := by
  have hlong := t.long
  have h13 : 13 < t.before.length := by omega
  have h14 : 14 < t.before.length := by omega
  rw [CpuVars.after, if_pos h13, if_pos h14, apply_ite BitVec.toInt, fields_length]
  exact ⟨rfl, rfl, if_congr (by omega) rfl rfl⟩

theorem numOfCores_eq (ht : t.text.len < 2 ^ 31) (hu : u.text.len < 2 ^ 31) :
    numOfCores t.text u.text =
      forFrom (uptimeStep u.text) 0 u.text.len (.after t.text t.before.length) := by
  have hpos := List.length_pos_iff.mpr u.seconds.ne_nil
  have hlen : u.text.len = u.seconds.digits.length + u.tail.length := List.length_append
  have hdata : (t.text.len : Int).toNat = t.bytes.length := rfl
  rw [numOfCores, intSize_of_lt ht, intSize_of_lt hu, hdata, loop_fields, pure_bind,
    if_neg (by omega), Int.toNat_natCast]

/-- The seconds of the loop are those of the text. -/
theorem now_eq_iff (hfits : space ∈ u.text.bytes → u.seconds.val * 100 < 2 ^ 31) :
    (if space ∈ u.text.bytes then BitVec.ofInt 32 (100 * u.seconds.val) else 0).toInt =
        100 * (u.seconds.val : Int) ↔
      u.seconds.val = 0 ∨ space ∈ u.tail ∧ u.seconds.val * 100 < 2 ^ 31 := by
  have hmem : space ∈ u.text.bytes ↔ space ∈ u.tail :=
    List.mem_append.trans (or_iff_right (space_notMem_seconds u))
  rw [← hmem]
  by_cases hspace : space ∈ u.text.bytes
  · have hlt := hfits hspace
    rw [if_pos hspace, BitVec.toInt_ofInt, Int.bmod_eq_of_le (by omega) (by omega)]
    exact ⟨fun _ => .inr ⟨hspace, hlt⟩, fun _ => rfl⟩
  · have hzero : (0 : BitVec 32).toInt = 0 := rfl
    rw [if_neg hspace, hzero]
    constructor
    · intro h
      exact .inl (by omega)
    · rintro (hzero | ⟨h, -⟩)
      · rw [hzero]
        rfl
      · exact absurd h hspace

/-- What the code has read: the numbers at the three bytes, and the product at a blank. -/
structure Read (t : StatText) (u : UptimeText) (s : CpuVars) : Prop where
  utime : s.utime.toInt = t.intAt 14
  stime : s.stime.toInt = t.intAt 15
  startTime : s.startTime.toInt = if 22 < t.fields.length then t.intAt 22 else 0
  now : s.nowInJiffies = if space ∈ u.text.bytes then .ofInt 32 (100 * u.seconds.val) else 0
  fits : space ∈ u.text.bytes → u.seconds.val * 100 < 2 ^ 31

/-- **What `numOfCores` reads.** -/
theorem results_numOfCores (ht : t.text.len < 2 ^ 31) (hu : u.text.len < 2 ^ 31)
    (hsec : u.seconds.val < 2 ^ 31) :
    Results (Read t u) (fun _ => space ∈ u.text.bytes ∧ ¬u.seconds.val * 100 < 2 ^ 31)
      (numOfCores t.text u.text) := by
  rw [numOfCores_eq ht hu]
  by_cases hfits : space ∈ u.text.bytes → u.seconds.val * 100 < 2 ^ 31
  · obtain ⟨s, hloop, hafter⟩ :=
      loop_uptime hsec hfits (.after t.text t.before.length) rfl
    obtain ⟨hutime, hstime, hstart⟩ := after_fields t
    rw [hloop]
    rw [← hafter.utime] at hutime
    rw [← hafter.stime] at hstime
    rw [← hafter.startTime] at hstart
    exact ⟨hutime, hstime, hstart, hafter.now, hfits⟩
  · have hlarge := Classical.not_imp.mp hfits
    exact results_mono (loop_uptime_undefined hsec hlarge.2 hlarge.1 _) (fun _ h => h.elim)
      fun _ _ => hlarge

/-- **The columns are read** exactly when the text agrees with the cuts. -/
theorem readsColumns_iff (ht : t.text.len < 2 ^ 31) (hu : u.text.len < 2 ^ 31)
    (hsec : u.seconds.val < 2 ^ 31) : ReadsColumns t u ↔ ColumnsAgree t u := by
  have hresults := results_numOfCores ht hu hsec
  rw [ReadsColumns]
  cases hend : numOfCores t.text u.text with
  | ok s =>
    rw [hend] at hresults
    rw [Results, hresults.utime, hresults.stime, hresults.startTime, hresults.now,
      now_eq_iff hresults.fits]
    constructor
    · rintro ⟨hutime, hstime, hstart, huptime⟩
      exact ⟨hutime, hstime, hstart, huptime⟩
    · rintro ⟨hutime, hstime, hstart, huptime⟩
      exact ⟨hutime, hstime, hstart, huptime⟩
  | error e =>
    rw [hend] at hresults
    obtain ⟨-, hlarge⟩ := hresults
    refine iff_of_false id fun h => ?_
    rcases h.uptime with hzero | ⟨-, hlt⟩
    · rw [hzero] at hlarge
      omega
    · exact hlarge hlt

/-! ### A text of the kernel -/

def Word.ofDigit (d : Fin 10) : Word where
  bytes := [digitByte d]
  ne_nil := List.cons_ne_nil _ _
  noBlank b h := by
    rw [List.mem_singleton.mp h]
    exact isSpace_eq_false_of_isDigit (isDigit_digitByte d.isLt)
  noNul h := by
    have hdigit := isDigit_digitByte d.isLt
    rw [← List.mem_singleton.mp h] at hdigit
    exact absurd hdigit (by decide)

def Word.ofBytes (bytes : Bytes)
    (h : (!bytes.isEmpty && bytes.all fun b => !isSpace b && b != 0) = true) : Word where
  bytes := bytes
  ne_nil := by
    rintro rfl
    cases h
  noBlank b hb := by
    have hall := List.all_eq_true.mp (Bool.and_eq_true_iff.mp h).2 b hb
    simpa using (Bool.and_eq_true_iff.mp hall).1
  noNul hb := by
    have hall := List.all_eq_true.mp (Bool.and_eq_true_iff.mp h).2 0 hb
    exact absurd hall (by decide)

/-- `7 (sh) S 1 7 7 0 0 0 0 0 0 0 5 3 0 0 0 0 0 0 9 0`. -/
def statSh : StatText where
  before := .ofDigit 7 :: .ofBytes [40, 115, 104, 41] rfl :: .ofBytes [83] rfl ::
    ([1, 7, 7, 0, 0, 0, 0, 0, 0, 0, 5, 3, 0, 0, 0, 0, 0, 0, 9].map Word.ofDigit)
  last := .ofDigit 0
  long := by decide
  newlineAtEnd := true

/-- `4.5 8`. -/
def uptimeFour : UptimeText where
  seconds := ⟨[digitByte 4], List.cons_ne_nil _ _, fun b h => by
    rw [List.mem_singleton.mp h]
    exact isDigit_digitByte (by decide)⟩
  tail := [46, 53, space, 56]
  ends := by decide
  noNul := by decide

theorem readsColumns_iff_statSh :
    ReadsColumns statSh uptimeFour ↔ ColumnsAgree statSh uptimeFour :=
  readsColumns_iff (by decide) (by decide) (by decide)

/-- Its utime is 5, but at byte 14 there is a 0. -/
theorem not_readsColumns : ¬ReadsColumns statSh uptimeFour := by
  have hresults := results_numOfCores (t := statSh) (u := uptimeFour) (by decide) (by decide)
    (by decide)
  have hvalue : statSh.intAt 14 ≠ statSh.value 14 := by decide
  rw [ReadsColumns]
  cases hend : numOfCores statSh.text uptimeFour.text with
  | ok s =>
    rw [hend] at hresults
    exact fun h => hvalue (hresults.utime.symm.trans h.1)
  | error e => exact id

end columns

end ProcParser

end MiniRunner
