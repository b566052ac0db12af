import MiniRunner.Base

/-!
# Validators

The checks `main` makes on operands before it hands them to an operation
(`exceptions/services`, `exceptions/jobs`, `exceptions/env`). The lemmas say which
delimiters a valid operand cannot contain.
-/

namespace MiniRunner

open Clib

/-! ## Services -/

/-- No blank, at most `max` characters, no `^`, no `#`. -/
def checkService (max : Nat) (s : CStr) : Int :=
  if space ∈ s.bytes then -1
  else if max < s.len then -1
  else if caret ∈ s.bytes then -1
  else if hash ∈ s.bytes then -1
  else 0

def isValidName (name : CStr) : Int := checkService 20 name

def isValidGithubRepo (name : CStr) : Int := checkService 100 name

theorem checkService_eq_zero {max : Nat} {s : CStr} :
    checkService max s = 0 ↔
      space ∉ s.bytes ∧ s.len ≤ max ∧ caret ∉ s.bytes ∧ hash ∉ s.bytes := by
  unfold checkService
  split
  · simp_all
  split
  · simp_all
  split
  · simp_all
  split <;> simp_all

/-! ## Jobs -/

/-- At most `max` characters, none of `^ # $ @`. -/
def checkJob (max : Nat) (s : CStr) : Bool :=
  if max < s.len then false
  else !(s.bytes.any fun c => c == caret || c == hash || c == dollar || c == atSign)

def isValidJobName (name : CStr) : Bool := checkJob 20 name

def isValidJobPath (path : CStr) : Bool := checkJob 100 path

theorem checkJob_eq_true {max : Nat} {s : CStr} :
    checkJob max s = true ↔
      s.len ≤ max ∧ caret ∉ s.bytes ∧ hash ∉ s.bytes ∧ dollar ∉ s.bytes ∧ atSign ∉ s.bytes := by
  unfold checkJob
  split
  · simp; omega
  · rename_i h
    simp only [Bool.not_eq_true', List.any_eq_false, Bool.or_eq_true, beq_iff_eq, not_or]
    constructor
    · intro h'
      exact ⟨by omega, fun hb => (h' _ hb).1.1.1 rfl, fun hb => (h' _ hb).1.1.2 rfl,
        fun hb => (h' _ hb).1.2 rfl, fun hb => (h' _ hb).2 rfl⟩
    · rintro ⟨-, h₁, h₂, h₃, h₄⟩ c hc
      exact ⟨⟨⟨fun e => h₁ (e ▸ hc), fun e => h₂ (e ▸ hc)⟩, fun e => h₃ (e ▸ hc)⟩,
        fun e => h₄ (e ▸ hc)⟩

/-! ## Environment variables -/

/-- No grave accent, no `^`. -/
def checkEnv (s : CStr) : Bool :=
  if backquote ∈ s.bytes then false else if caret ∈ s.bytes then false else true

def isValidEnvName (name : CStr) : Bool := checkEnv name

def isValidEnvKey (key : CStr) : Bool := checkEnv key

def isValidEnvValue (value : CStr) : Bool := checkEnv value

theorem checkEnv_eq_true {s : CStr} :
    checkEnv s = true ↔ backquote ∉ s.bytes ∧ caret ∉ s.bytes := by
  unfold checkEnv
  split
  · simp_all
  split <;> simp_all

end MiniRunner
