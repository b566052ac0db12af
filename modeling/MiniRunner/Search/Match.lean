import MiniRunner.Clib.Loop
import MiniRunner.Exceptions
import MiniRunner.Recovery.Backups

/-!
# The score of a name

`findScoreByRepition` and `findMatch` of `ops/show_services.c`. The first loop of `findMatch`
goes over as many characters of the query as the longer string has, and adds up how often each
is in the name; the second adds the positions at which both have the same character. The
lengths are `int`, the counters 8 and 16 bits wide. A read behind a terminator is undefined.

`findMatch_eq` is the score of any two strings, `findMatch_undefined` where there is none.
-/

namespace MiniRunner

open Clib

namespace Search

/-! ## The model -/

/-- A byte of a string or its terminator. -/
def charAt (s : CStr) (i : Nat) : Except Halt UInt8 :=
  match (s.bytes ++ [0])[i]? with
  | some x => pure x
  | none => throw .undefined

def findScoreByRepition (x : UInt8) (wholeStr : CStr) (len : BitVec 8) : Except Halt (BitVec 8) :=
  forFrom (fun i score => do
    let y ← charAt wholeStr i
    if x = y then pure (score + 1) else pure score) 0 len.toNat 0

def maxLength (name searchName : CStr) : Int :=
  if intSize searchName.len < intSize name.len then intSize name.len else intSize searchName.len

def minLength (name searchName : CStr) : Int :=
  if intSize searchName.len < intSize name.len then intSize searchName.len else intSize name.len

/-- `findMatch` of two strings. -/
def findMatch (name searchName : CStr) : Except Halt (BitVec 16) := do
  let score ← forFrom (fun i score => do
    let x ← charAt searchName i
    let s ← findScoreByRepition x name (.ofInt 8 (intSize name.len))
    pure (score + s.setWidth 16)) 0 (maxLength name searchName).toNat 0
  forFrom (fun i score => do
    let x ← charAt searchName i
    let y ← charAt name i
    if x = y then pure (score + 1) else pure score) 0 (minLength name searchName).toNat score

/-! ## The score -/

/-- How often a character is among those that `findScoreByRepition` goes over, in 8 bits. -/
def repetitions (name : CStr) (x : UInt8) : Nat :=
  (name.bytes.take (name.len % 2 ^ 8)).count x % 2 ^ 8

/-- The positions at which both have the same character. -/
def aligned (name searchName : CStr) : Nat :=
  ((searchName.bytes.zip name.bytes).take (minLength name searchName).toNat).countP fun p =>
    p.1 == p.2

/-- The score before it is cut to 16 bits. -/
def fullScore (name searchName : CStr) : Nat :=
  (((searchName.bytes ++ [0]).take (maxLength name searchName).toNat).map (repetitions name)).sum +
    aligned name searchName

section score

variable {name searchName : CStr}

theorem charAt_eq {s : CStr} {i : Nat} {x : UInt8} (h : (s.bytes ++ [0])[i]? = some x) :
    charAt s i = pure x := by
  rw [charAt, h]

theorem zero_add_word {w : Nat} (v : BitVec w) : 0 + v = v := BitVec.zero_add v

theorem foldl_add {α : Type} {w : Nat} (f : α → Nat) (l : List α) (v : BitVec w) :
    l.foldl (fun s x => s + .ofNat w (f x)) v = v + .ofNat w (l.map f).sum := by
  induction l generalizing v with
  | nil => simp
  | cons x l ih => rw [List.foldl_cons, ih, List.map_cons, List.sum_cons, BitVec.ofNat_add,
      BitVec.add_assoc]

theorem foldl_countP {α : Type} {w : Nat} (p : α → Bool) (l : List α) (v : BitVec w) :
    l.foldl (fun s x => if p x = true then s + 1 else s) v = v + .ofNat w (l.countP p) := by
  induction l generalizing v with
  | nil => simp
  | cons x l ih =>
    rw [List.foldl_cons, ih, List.countP_cons]
    split
    · rw [BitVec.add_assoc, Nat.add_comm, BitVec.ofNat_add]
      rfl
    · rfl

theorem toNat_length8 (n : Nat) : (BitVec.ofInt 8 (intSize n)).toNat = n % 2 ^ 8 := by
  rw [BitVec.toNat_ofInt, intSize, BitVec.toInt_eq_toNat_cond, BitVec.toNat_ofNat]
  split <;> omega

theorem findScoreByRepition_eq (name : CStr) (x : UInt8) :
    findScoreByRepition x name (.ofInt 8 (intSize name.len)) =
      pure (.ofNat 8 (repetitions name x)) := by
  have hle : name.len % 2 ^ 8 ≤ name.bytes.length := Nat.mod_le _ _
  have hfits : name.len % 2 ^ 8 ≤ (name.bytes ++ [0]).length := by
    rw [List.length_append]
    omega
  have hround (i : Nat) (y : UInt8) (hy : (name.bytes ++ [0])[i]? = some y) (score : BitVec 8) :
      (do
        let y ← charAt name i
        if x = y then pure (score + 1) else pure score : Except Halt (BitVec 8)) =
        pure (if (y == x) = true then score + 1 else score) := by
    rw [charAt_eq hy, pure_bind]
    by_cases hxy : x = y
    · rw [if_pos hxy, if_pos (beq_iff_eq.mpr hxy.symm)]
    · rw [if_neg hxy, if_neg fun h => hxy (beq_iff_eq.mp h).symm]
  have hwrap (k : Nat) : BitVec.ofNat 8 k = .ofNat 8 (k % 2 ^ 8) := BitVec.eq_of_toNat_eq (by simp)
  rw [findScoreByRepition, toNat_length8, forFrom_foldl hround hfits, foldl_countP,
    List.take_append_of_le_length hle, repetitions, List.count, zero_add_word, hwrap]

/-- The reads of both loops stay in the strings. -/
def Reaches (name searchName : CStr) : Prop :=
  (maxLength name searchName).toNat ≤ searchName.len + 1

theorem repetitions_round {i : Nat} {x : UInt8} (hx : (searchName.bytes ++ [0])[i]? = some x)
    (score : BitVec 16) :
    (do
      let x ← charAt searchName i
      let s ← findScoreByRepition x name (.ofInt 8 (intSize name.len))
      pure (score + s.setWidth 16) : Except Halt (BitVec 16)) =
      pure (score + .ofNat 16 (repetitions name x)) := by
  have hlt : repetitions name x < 2 ^ 8 := Nat.mod_lt _ (by decide)
  have hwiden : (BitVec.ofNat 8 (repetitions name x)).setWidth 16 =
      .ofNat 16 (repetitions name x) := by
    refine BitVec.eq_of_toNat_eq ?_
    rw [BitVec.toNat_setWidth, BitVec.toNat_ofNat, BitVec.toNat_ofNat, Nat.mod_eq_of_lt hlt]
  rw [charAt_eq hx, pure_bind, findScoreByRepition_eq, pure_bind, hwiden]

/-- One round of the second loop. -/
theorem aligned_round {i : Nat} {p : UInt8 × UInt8}
    (hp : (searchName.bytes.zip name.bytes)[i]? = some p) (score : BitVec 16) :
    (do
      let x ← charAt searchName i
      let y ← charAt name i
      if x = y then pure (score + 1) else pure score : Except Halt (BitVec 16)) =
      pure (if (p.1 == p.2) = true then score + 1 else score) := by
  obtain ⟨hx, hy⟩ := List.getElem?_zip_eq_some.mp hp
  have hread {s : CStr} {c : UInt8} (hc : s.bytes[i]? = some c) : charAt s i = pure c := by
    refine charAt_eq ?_
    rwa [List.getElem?_append_left (List.getElem?_eq_some_iff.mp hc).1]
  rw [hread hx, pure_bind, hread hy, pure_bind]
  by_cases hxy : p.1 = p.2
  · rw [if_pos hxy, if_pos (beq_iff_eq.mpr hxy)]
  · rw [if_neg hxy, if_neg fun h => hxy (beq_iff_eq.mp h)]

/-- **The score of two strings.** -/
theorem findMatch_eq (h : Reaches name searchName) :
    findMatch name searchName = pure (.ofNat 16 (fullScore name searchName)) := by
  have hfirst : (maxLength name searchName).toNat ≤ (searchName.bytes ++ [0]).length := by
    rw [List.length_append, List.length_singleton]
    exact h
  have hsecond : (minLength name searchName).toNat ≤ (searchName.bytes.zip name.bytes).length := by
    have hname := intSize_le name.len
    have hsearch := intSize_le searchName.len
    rw [List.length_zip, minLength]
    change _ ≤ min searchName.len name.len
    split <;> omega
  rw [findMatch, forFrom_foldl (fun _ _ => repetitions_round) hfirst, pure_bind,
    forFrom_foldl (fun _ _ => aligned_round) hsecond, foldl_countP, foldl_add, zero_add_word,
    fullScore, aligned, BitVec.ofNat_add]

theorem findMatch_undefined (h : ¬Reaches name searchName) :
    findMatch name searchName = throw .undefined := by
  obtain ⟨k, hk⟩ := Nat.exists_eq_add_of_lt (Nat.lt_of_not_le h)
  have hfirst : searchName.len + 1 ≤ (searchName.bytes ++ [0]).length := by
    rw [List.length_append, List.length_singleton]
    exact Nat.le_refl _
  have hbehind : (searchName.bytes ++ [0])[searchName.len + 1]? = none := by
    rw [List.getElem?_eq_none_iff, List.length_append, List.length_singleton]
    exact Nat.le_refl _
  rw [findMatch, hk, Nat.add_assoc, forFrom_add,
    forFrom_foldl (fun _ _ => repetitions_round) hfirst, pure_bind, Nat.zero_add, forFrom_succ,
    charAt, hbehind]
  rfl

end score

/-! ## A valid name -/

/-- The pairs of a character of the query and an equal one of the name. -/
def pairs (name searchName : CStr) : Nat :=
  ((searchName.bytes.take (maxLength name searchName).toNat).map fun x => name.bytes.count x).sum

def Shares (name searchName : CStr) : Prop := ∃ x ∈ name.bytes, x ∈ searchName.bytes

/-- The code reads only characters of the two strings, and finds the name by a character that
both have. -/
def Finds (name searchName : CStr) : Prop :=
  Results (fun score => 0 < score.toNat ↔ Shares name searchName) (fun _ => False)
    (findMatch name searchName)

/-- The name is at most one character longer than the query, and if they share one, the score
does not wrap to zero. -/
structure MatchOk (name searchName : CStr) : Prop where
  reach : name.len ≤ searchName.len + 1
  wrap : Shares name searchName → (pairs name searchName + aligned name searchName) % 2 ^ 16 ≠ 0

section valid

variable {name searchName : CStr}

theorem reaches_iff (hname : name.len < 2 ^ 31) :
    Reaches name searchName ↔ name.len ≤ searchName.len + 1 := by
  have hsearch := intSize_le searchName.len
  rw [Reaches, maxLength, intSize_of_lt hname]
  split <;> omega

theorem repetitions_of_short (hname : name.len < 2 ^ 8) (x : UInt8) :
    repetitions name x = name.bytes.count x := by
  have hcount : name.bytes.count x ≤ name.len := List.count_le_length
  rw [repetitions, Nat.mod_eq_of_lt hname, CStr.len, List.take_length, Nat.mod_eq_of_lt (by omega)]

theorem fullScore_of_short (hname : name.len < 2 ^ 8) :
    fullScore name searchName = pairs name searchName + aligned name searchName := by
  have hend (k : Nat) : ((List.take k [0]).map fun x => name.bytes.count x).sum = 0 := by
    have hzero : name.bytes.count 0 = 0 := List.count_eq_zero.mpr name.noNul
    cases k with
    | zero => rfl
    | succ k => simp [hzero]
  rw [fullScore, funext (repetitions_of_short hname), List.take_append, List.map_append,
    List.sum_append, hend, Nat.add_zero, pairs]

theorem score_eq_zero (h : ¬Shares name searchName) :
    pairs name searchName + aligned name searchName = 0 := by
  have hpairs : pairs name searchName = 0 := by
    rw [pairs, List.sum_eq_zero]
    intro k hk
    obtain ⟨x, hx, rfl⟩ := List.mem_map.mp hk
    exact List.count_eq_zero.mpr fun hmem => h ⟨x, hmem, List.mem_of_mem_take hx⟩
  have haligned : aligned name searchName = 0 := by
    rw [aligned, List.countP_eq_zero]
    intro p hp heq
    obtain ⟨hx, hy⟩ := List.of_mem_zip (List.mem_of_mem_take hp)
    rw [← beq_iff_eq.mp heq] at hy
    exact h ⟨p.1, hy, hx⟩
  rw [hpairs, haligned]

theorem finds_eq (hname : name.len < 2 ^ 8) :
    Finds name searchName ↔ name.len ≤ searchName.len + 1 ∧
      (0 < (pairs name searchName + aligned name searchName) % 2 ^ 16 ↔
        Shares name searchName) := by
  have hreach : Reaches name searchName ↔ _ := reaches_iff (Nat.lt_trans hname (by decide))
  rw [Finds]
  by_cases h : Reaches name searchName
  · rw [findMatch_eq h, fullScore_of_short hname]
    show (0 < (BitVec.ofNat 16 _).toNat ↔ _) ↔ _
    rw [BitVec.toNat_ofNat]
    exact (and_iff_right (hreach.mp h)).symm
  · rw [findMatch_undefined h]
    exact iff_of_false id fun hboth => h (hreach.mpr hboth.1)

/-- **Search finds a valid name** by the characters that it shares with the query exactly when
the reads stay in the strings and the score does not wrap. -/
theorem finds_iff (hvalid : isValidName name = 0) :
    Finds name searchName ↔ MatchOk name searchName := by
  have hlen := (checkService_eq_zero.mp hvalid).2.1
  rw [finds_eq (by omega)]
  constructor
  · rintro ⟨hreach, hscore⟩
    exact ⟨hreach, fun hshares => (hscore.mpr hshares).ne'⟩
  · intro h
    refine ⟨h.reach, fun hpos => ?_, fun hshares => Nat.pos_of_ne_zero (h.wrap hshares)⟩
    by_contra hno
    rw [score_eq_zero hno] at hpos
    exact absurd hpos (by decide)

theorem finds_iff_api : Finds (.ofText "api") (.ofText "pi") ↔
    MatchOk (.ofText "api") (.ofText "pi") := finds_iff (by decide)

/-- A letter `a` repeated. -/
def letters (n : Nat) : CStr where
  bytes := List.replicate n 97
  noNul h := absurd (List.eq_of_mem_replicate h) (by decide)

theorem len_letters (n : Nat) : (letters n).len = n := List.length_replicate

/-- The score of the name `a`: each letter of the query is one pair, the first is aligned. -/
theorem score_letters {n : Nat} (hpos : 0 < n) (hn : n < 2 ^ 31) :
    pairs (letters 1) (letters n) + aligned (letters 1) (letters n) = n + 1 := by
  have hmax : (maxLength (letters 1) (letters n)).toNat = n := by
    rw [maxLength, len_letters, len_letters, intSize_of_lt hn, intSize_of_lt (by decide)]
    split <;> omega
  have hmin : (minLength (letters 1) (letters n)).toNat = 1 := by
    rw [minLength, len_letters, len_letters, intSize_of_lt hn, intSize_of_lt (by decide)]
    split <;> omega
  have hpairs : pairs (letters 1) (letters n) = n := by
    rw [pairs, hmax]
    simp [letters]
  obtain ⟨k, rfl⟩ := Nat.exists_eq_succ_of_ne_zero hpos.ne'
  have haligned : aligned (letters 1) (letters (k + 1)) = 1 := by
    rw [aligned, hmin]
    simp [letters, List.replicate_succ]
  rw [hpairs, haligned]

/-- A name of three characters is read past the end of a query of one. The name `a` is not
found by a query of 65535 letters `a`. -/
theorem not_finds : ¬Finds (.ofText "api") (letters 1) ∧ ¬Finds (letters 1) (letters 65535) := by
  constructor
  · rw [finds_eq (by decide)]
    exact fun h => absurd h.1 (by decide)
  · rw [finds_eq (by decide), score_letters (by decide) (by decide)]
    have hshares : Shares (letters 1) (letters 65535) :=
      ⟨97, List.mem_replicate.mpr ⟨by decide, rfl⟩, List.mem_replicate.mpr ⟨by decide, rfl⟩⟩
    exact fun h => absurd (h.2.mpr hshares) (by decide)

end valid

end Search

end MiniRunner
