import Mathlib.Data.List.TakeWhile

/-!
# C strings and buffers

A buffer or a mapped file is a list of bytes (`Bytes`). A C string is what the
string functions see of a buffer: the bytes before the first NUL. `CStr` carries
the absence of NUL as a field, so `strcmp(a, b) == 0` is equality of `CStr`s and
`strlen` is the length of the list. `CStr.ofBytes` reads a buffer as a string.
-/

namespace Clib

abbrev Bytes := List UInt8

/-- The content of a NUL-terminated string, without its terminator. -/
structure CStr where
  bytes : Bytes
  noNul : (0 : UInt8) ∉ bytes
  deriving DecidableEq

namespace CStr

@[ext] theorem ext {s t : CStr} (h : s.bytes = t.bytes) : s = t := by
  cases s; cases t; cases h; rfl

def ofBytes (bs : Bytes) : CStr :=
  ⟨bs.takeWhile (· != 0), fun h => by simpa using List.mem_takeWhile_imp h⟩

/-- `strlen`. -/
def len (s : CStr) : Nat := s.bytes.length

def empty : CStr := ⟨[], by simp⟩

def append (s t : CStr) : CStr := ⟨s.bytes ++ t.bytes, by simp [s.noNul, t.noNul]⟩

instance : Inhabited CStr := ⟨empty⟩

@[simp] theorem append_bytes (s t : CStr) : (s.append t).bytes = s.bytes ++ t.bytes := rfl

theorem ofBytes_bytes_of_noNul {bs : Bytes} (h : (0 : UInt8) ∉ bs) : (ofBytes bs).bytes = bs := by
  refine List.takeWhile_eq_self_iff.mpr fun b hb => ?_
  have : b ≠ 0 := fun e => h (e ▸ hb)
  simpa using this

@[simp] theorem ofBytes_bytes (s : CStr) : ofBytes s.bytes = s :=
  ext (ofBytes_bytes_of_noNul s.noNul)

theorem ofBytes_nul (s : CStr) (rest : Bytes) : ofBytes (s.bytes ++ 0 :: rest) = s := by
  refine ext ?_
  have hno : ∀ b ∈ s.bytes, (b != 0) = true := fun b hb => by
    simpa using fun h : b = 0 => s.noNul (h ▸ hb)
  calc (ofBytes (s.bytes ++ 0 :: rest)).bytes
      = (s.bytes ++ 0 :: rest).takeWhile (· != 0) := rfl
    _ = s.bytes ++ (0 :: rest).takeWhile (· != 0) := List.takeWhile_append_of_pos hno
    _ = s.bytes := by simp

def ofText (s : String) : CStr := ofBytes (s.toList.map fun x => UInt8.ofNat x.toNat)

theorem mem_ofBytes {bs : Bytes} {b : UInt8} (h : b ∈ (ofBytes bs).bytes) : b ∈ bs :=
  (List.takeWhile_sublist _).subset h

theorem notMem_ofBytes {bs : Bytes} {b : UInt8} (h : b ∉ bs) : b ∉ (ofBytes bs).bytes :=
  fun hb => h (mem_ofBytes hb)

/-- The part before the first `b`. -/
def before (b : UInt8) (s : CStr) : CStr :=
  ⟨s.bytes.takeWhile (· != b), fun h => s.noNul ((List.takeWhile_sublist _).subset h)⟩

/-- The part after the first `b`, empty when there is none. -/
def after (b : UInt8) (s : CStr) : CStr :=
  ⟨(s.bytes.dropWhile (· != b)).tail, fun h =>
    s.noNul ((List.dropWhile_sublist _).subset (List.mem_of_mem_tail h))⟩

theorem notMem_before (b : UInt8) (s : CStr) : b ∉ (s.before b).bytes := fun h => by
  simpa using List.mem_takeWhile_imp h

theorem mem_of_mem_after {b c : UInt8} {s : CStr} (h : c ∈ (s.after b).bytes) : c ∈ s.bytes :=
  (List.dropWhile_sublist _).subset (List.mem_of_mem_tail h)

theorem before_after {b : UInt8} {s : CStr} (h : b ∈ s.bytes) :
    s.bytes = (s.before b).bytes ++ b :: (s.after b).bytes := by
  have hsplit := List.takeWhile_append_dropWhile (p := (· != b)) (l := s.bytes)
  have hne : s.bytes.dropWhile (· != b) ≠ [] := fun hnil => by
    have hall := List.dropWhile_eq_nil_iff.mp hnil b h
    simp at hall
  have hhead : (s.bytes.dropWhile (· != b)).head hne = b := by
    simpa using List.head_dropWhile_not (· != b) hne
  have htail : b :: (s.bytes.dropWhile (· != b)).tail = s.bytes.dropWhile (· != b) := by
    have hcons := List.cons_head_tail hne
    rwa [hhead] at hcons
  show s.bytes = s.bytes.takeWhile (· != b) ++ b :: (s.bytes.dropWhile (· != b)).tail
  rw [htail, hsplit]

end CStr

/-! ## Delimiter characters -/

/-- `'\n'`. -/
abbrev newline : UInt8 := 10
/-- `' '`. -/
abbrev space : UInt8 := 32
/-- `'#'`. -/
abbrev hash : UInt8 := 35
/-- `'$'`. -/
abbrev dollar : UInt8 := 36
/-- `'@'`. -/
abbrev atSign : UInt8 := 64
/-- `'^'`. -/
abbrev caret : UInt8 := 94
abbrev backquote : UInt8 := 96

end Clib
