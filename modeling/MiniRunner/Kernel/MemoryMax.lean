import MiniRunner.Argv.Sizes
import MiniRunner.Kernel.Limits

/-!
# The number in `memory.max`

`set-limit -mem` with a size of the standard type. `convertToByte` converts the size to an
`int`, and `setMemoryLimit` prints that into `memory.max`. The help has the type for sizes
up to 4 GiB; an `int` holds half of them.
-/

namespace MiniRunner

open Clib Process Kernel

/-- What `memory.max` of a service was last told. -/
def memoryMax (serviceName : CStr) (p : Process Kernel) : Option Bytes :=
  p.world.lastWritten .memoryMax serviceName

/-- A service of that name has a process. -/
def Running (serviceName : CStr) (p : Process Kernel) : Prop :=
  ∃ s, p.services.items.find? (·.name == serviceName) = some s ∧ s.pid ≠ 0

/-- **A call tells `memory.max` the text** or nothing, whatever fails on the way; where the
service runs and the call succeeds it tells the text. -/
def TellsMemoryMax (base : Calls Kernel) (serviceName : CStr) (memBytes : Amount)
    (text : Bytes) : Prop :=
  ∀ p : Process Kernel, p.world.unified = true →
    Exec.wp (setMemoryLimit (Kernel.calls base) serviceName memBytes)
      (fun rc p' => memoryMax serviceName p' = some text ∨
        memoryMax serviceName p' = memoryMax serviceName p ∧ (rc = 0 → ¬Running serviceName p))
      (fun _ p' => memoryMax serviceName p' = some text ∨
        memoryMax serviceName p' = memoryMax serviceName p) p

/-! ## What is told -/

/-- The cgroup part of version 2. -/
theorem Kernel.limitMm_memoryMax {name : CStr} {pid : BitVec 32} {memBytes : Amount}
    {k : Kernel} (hunified : k.unified = true) :
    Exec.wp (limitMm name pid memBytes)
      (fun rc k' => k'.lastWritten .memoryMax name = some (amountText memBytes) ∨
        k'.lastWritten .memoryMax name = k.lastWritten .memoryMax name ∧ rc ≠ 0)
      (fun _ _ => False) k := by
  have hrest (k₁ : Kernel)
      (hk₁ : k₁.lastWritten .memoryMax name = k.lastWritten .memoryMax name) :
      Exec.wp (do
          if (← createProcess name pid) ≠ 0 then pure (-1) else memoryLimit name memBytes)
        (fun rc k' => k'.lastWritten .memoryMax name = some (amountText memBytes) ∨
          k'.lastWritten .memoryMax name = k.lastWritten .memoryMax name ∧ rc ≠ 0)
        (fun _ _ => False) k₁ := by
    rw [createProcess, writeProcs, wp_attempt_then]
    split
    · exact .inr ⟨hk₁, by decide⟩
    rw [memoryLimit, write, wp_attempt]
    split
    · exact .inr ⟨by rw [lastWritten_move, hk₁], by decide⟩
    · rename_i hmade
      have hsome := Bool.eq_true_of_not_eq_false (not_or.mp hmade).2
      exact .inl (by rw [lastWritten_putText hsome, if_pos rfl])
  rw [limitMm, Exec.wp_bind, Exec.wp_get, if_pos hunified, basicV2Setup, Exec.wp_bind,
    wp_ensureDirectory]
  split
  · exact hrest k rfl
  split
  · rw [if_pos (by decide), Exec.wp_pure]
    exact .inr ⟨rfl, by decide⟩
  · rename_i hnone _
    exact hrest _ (lastWritten_setCgroup_new (Option.not_isSome_iff_eq_none.mp hnone) _ _)

/-- **What a call tells `memory.max`** is the amount as its width prints it. -/
theorem setMemoryLimit_tells (base : Calls Kernel) (serviceName : CStr) (memBytes : Amount) :
    TellsMemoryMax base serviceName memBytes (amountText memBytes) := by
  intro p hunified
  rw [setMemoryLimit, limitService, Exec.wp_bind, wp_findService]
  cases hfind : p.services.items.find? (·.name == serviceName) with
  | none => exact (Exec.wp_throw _).mpr (.inr rfl)
  | some s =>
    have hcall := asCall_of_wp (@limitMm_memoryMax serviceName s.pid memBytes p.world hunified)
    simp only [Exec.wp_ite, Exec.wp_pure, Exec.wp_bind, wp_call, wp_onLimits]
    refine ⟨fun hpid => .inr ⟨trivial, ?_⟩, fun hpid => ⟨fun hrc => ?_, fun hrc => ?_⟩⟩
    · rintro - ⟨s', hfind', hpid'⟩
      rw [hfind] at hfind'
      cases hfind'
      exact hpid' hpid
    · exact hcall.imp id fun h => ⟨h.1, fun hzero => absurd hzero (by decide)⟩
    · have htold := hcall.resolve_right fun h => hrc h.2
      cases createLimit serviceName 0 memBytes.recorded p.limits with
      | error e => exact .inl htold
      | ok r => exact ⟨fun _ => .inl htold, fun _ => .inl htold⟩

/-! ## The standard type -/

open Argv

variable {D : Type} {fl : Doubles D}

/-- **The standard type is exact** below 2 GiB, and only there: the size survives the
conversion to an `int` and is what `memory.max` is told. -/
theorem standard_exact_iff (ex : fl.Exact) (n : Numeral) (u : SizeUnit) (hu : u ≠ .tera)
    (hpos : 1 ≤ n.val) (hmax : n.val * u.scale ≤ 2 ^ 32) :
    ((convertToByte fl (sizeText n u)).toInt = (n.val * u.scale : Nat) ∧
      ∀ base serviceName, TellsMemoryMax base serviceName
        (.standard (convertToByte fl (sizeText n u))) (fmtNat (n.val * u.scale))) ↔
      n.val * u.scale < 2 ^ 31 := by
  constructor
  · rintro ⟨hint, -⟩
    have hlt := BitVec.toInt_lt (x := convertToByte fl (sizeText n u))
    omega
  · intro hfit
    have hle : n.val ≤ n.val * u.scale := Nat.le_mul_of_pos_right _ (Nat.two_pow_pos _)
    have hknown : u ∈ SizeType.standard.units := by
      cases u with
      | tera => exact absurd rfl hu
      | kilo | mega | giga => decide
    have hint := convertToByte_exact ex hpos (by omega) hknown hfit
    refine ⟨hint, fun base serviceName => ?_⟩
    have htext : amountText (.standard (convertToByte fl (sizeText n u))) =
        fmtNat (n.val * u.scale) := fmtInt_eq_fmtNat.mpr hint
    rw [← htext]
    exact setMemoryLimit_tells base serviceName _

/-- 100 kilobytes. -/
theorem standard_exact_kilo :
    ((convertToByte wholeNumbers (sizeText (.ofNat 100) .kilo)).toInt =
        ((Numeral.ofNat 100).val * SizeUnit.kilo.scale : Nat) ∧
      ∀ base serviceName, TellsMemoryMax base serviceName
        (.standard (convertToByte wholeNumbers (sizeText (.ofNat 100) .kilo)))
        (fmtNat ((Numeral.ofNat 100).val * SizeUnit.kilo.scale))) ↔
      (Numeral.ofNat 100).val * SizeUnit.kilo.scale < 2 ^ 31 :=
  standard_exact_iff wholeNumbers_exact (.ofNat 100) .kilo (by decide) (by decide) (by decide)

/-- The 2 gigabytes of the usage text are a negative `int`. -/
theorem not_standard_exact :
    ¬∀ (D : Type) (fl : Doubles D), fl.Exact → ∀ (n : Numeral) (u : SizeUnit), u ≠ .tera →
      1 ≤ n.val → n.val * u.scale ≤ 2 ^ 32 →
        (convertToByte fl (sizeText n u)).toInt = (n.val * u.scale : Nat) ∧
          ∀ base serviceName, TellsMemoryMax base serviceName
            (.standard (convertToByte fl (sizeText n u))) (fmtNat (n.val * u.scale)) := by
  intro h
  have hgiga := h Nat wholeNumbers wholeNumbers_exact (.ofNat 2) .giga (by decide) (by decide)
    (by decide)
  exact absurd hgiga.1 (by decide)

end MiniRunner
