import MiniRunner.Recovery.Backups
import MiniRunner.Store.Limits
import MiniRunner.Clib.Runs

/-!
# The limits of the job runner

`job_res_man`: `configJobRes` writes a numeral to one or both of the files of the job
limits, `getLimit` reads both. The files should be two registers that a call sets one by
one (`JobRsLimit.configured`). Two things stand against that: a call without a flag falls
through to the branch that writes both files, and the memory limit is printed at 128 bits
but read with `atoll`. `KeepsToFlags` is the condition under which neither matters, in one
call (`storedLimit_configured_iff`) and all along a run of them (`ConfigCall.storedLimit_runs`).

The lines that `configJobRes` prints are left out, and the buffer they are formatted in
is taken to be there.
-/

namespace MiniRunner

open Clib

structure JobRsLimit where
  cpuLimit : BitVec 64
  memoryLimit : BitVec 128
  deriving DecidableEq

/-! ## Writing -/

/-- The common body of `limitCpuOnly` and `limitMemOnly`: open, back up, resize to the
text and write it. -/
def limitOnly (s : Store) (createBackup : Exec Files Int) (text : Bytes) : Exec Files Int := do
  modify (·.openCreate (.file s))
  if (← createBackup) ≠ 0 then pure (-1)
  else
    modify (·.rewrite (.file s) text)
    pure 0

/-- `limitCpuOnly`, which prints with `%li`. -/
def limitCpuOnly (cpuLimit : BitVec 64) : Exec Files Int :=
  limitOnly .jobCpuLimit Sized.createJobRsLimitBackup (fmtLong cpuLimit).bytes

/-- `limitMemOnly`, which prints with `uint128_to_chars`. -/
def limitMemOnly (memLimit : BitVec 128) : Exec Files Int :=
  limitOnly .jobMemLimit Sized.createJobRsMmLimitBackup (uint128ToChars memLimit)

def configJobRes (memLimit : BitVec 128) (cpuLimit : BitVec 64) (limitMemory limitCpu : Bool) :
    Exec Files Int := do
  if limitCpu ∧ ¬limitMemory then
    if (← limitCpuOnly cpuLimit) ≠ 0 then pure (-1) else pure 0
  else if ¬limitCpu ∧ limitMemory then
    if (← limitMemOnly memLimit) ≠ 0 then pure (-1) else pure 0
  -- both flags, and no flag
  else if (← limitCpuOnly cpuLimit) ≠ 0 then pure (-1)
  else if (← limitMemOnly memLimit) ≠ 0 then pure (-1)
  else pure 0

/-! ## Reading -/

/-- The string in the first `n` bytes of a store. -/
def readText (s : Store) (n : Nat) : Exec Files CStr := do
  modify (·.openCreate (.file s))
  let fs ← get
  pure (.ofBytes ((fs.content (.file s)).take n))

def getLimit : Exec Files JobRsLimit := do
  let memLimit ← readText .jobMemLimit 129
  let cpuLimit ← readText .jobCpuLimit 69
  pure ⟨atol cpuLimit, atoll128 memLimit⟩

/-! ## The two registers -/

def storedLimit (fs : Files) : JobRsLimit :=
  ⟨atol (.ofBytes ((fs.content (.file .jobCpuLimit)).take 69)),
    atoll128 (.ofBytes ((fs.content (.file .jobMemLimit)).take 129))⟩

/-- A call sets the limit whose flag is set and keeps the other. -/
def JobRsLimit.configured (old : JobRsLimit) (memLimit : BitVec 128) (cpuLimit : BitVec 64)
    (limitMemory limitCpu : Bool) : JobRsLimit :=
  ⟨if limitCpu then cpuLimit else old.cpuLimit, if limitMemory then memLimit else old.memoryLimit⟩

/-- A memory limit that is asked for is in the range of `atoll`; where nothing is asked
for, the two files already hold what the call writes, up to that range. -/
def KeepsToFlags (memLimit : BitVec 128) (cpuLimit : BitVec 64) (limitMemory limitCpu : Bool)
    (old : JobRsLimit) : Prop :=
  (limitMemory = true → memLimit.toNat < 2 ^ 63) ∧
    (limitMemory = false → limitCpu = false →
      old.cpuLimit = cpuLimit ∧ old.memoryLimit.toNat = min memLimit.toNat (2 ^ 63 - 1))

section spec

variable {fs fs' : Files}

@[simp] theorem wp_getLimit {Q : JobRsLimit → Files → Prop} {E : Halt → Files → Prop} :
    Exec.wp getLimit Q E fs ↔ Q (storedLimit fs)
      ((fs.openCreate (.file .jobMemLimit)).openCreate (.file .jobCpuLimit)) := by
  simp [getLimit, readText, storedLimit]

theorem getLimit_returns {l : JobRsLimit} (h : getLimit.run fs = .ok l fs') : l = storedLimit fs :=
  Exec.wp_run_ok (Q := fun a _ => a = storedLimit fs) (E := fun _ _ => True)
    (wp_getLimit.mpr rfl) h

/-- **A write** leaves the text in its file, and every file but the copy alone. -/
theorem limitOnly_spec {s : Store} {dest : Path} {text : Bytes} :
    Exec.wp (limitOnly s (Sized.backup (.file s) dest) text)
      (fun rc fs' => rc = 0 ∧ fs'.content (.file s) = text ∧
        ∀ p, p ≠ .file s → p ≠ dest → fs'.content p = fs.content p) (fun _ _ => True) fs := by
  have hrest (fs₁ : Files) (h : ∀ p, p ≠ .file s → p ≠ dest → fs₁.content p = fs.content p) :
      Exec.wp (do modify (·.rewrite (.file s) text); pure (0 : Int))
        (fun rc fs' => rc = 0 ∧ fs'.content (.file s) = text ∧
          ∀ p, p ≠ .file s → p ≠ dest → fs'.content p = fs.content p) (fun _ _ => True) fs₁ := by
    rw [Exec.wp_bind, Exec.wp_modify, Exec.wp_pure]
    simp only [FileStore.content_rewrite]
    exact ⟨trivial, if_pos trivial, fun p hs hdest => by rw [if_neg hs, h p hs hdest]⟩
  rw [limitOnly, Exec.wp_bind, Exec.wp_modify]
  refine Exec.wp_next ?_
  rw [Sized.wp_backup, Sized.wp_doBackup]
  split
  · exact ⟨rfl, hrest _ fun p _ _ => by simp⟩
  split
  · trivial
  · exact ⟨rfl, hrest _ fun p _ hdest => by simp [FileStore.content_rewrite, hdest]⟩

theorem limitCpuOnly_spec (c : BitVec 64) :
    Exec.wp (limitCpuOnly c) (fun rc fs' => rc = 0 ∧
      fs'.content (.file .jobCpuLimit) = (fmtLong c).bytes ∧
      fs'.content (.file .jobMemLimit) = fs.content (.file .jobMemLimit)) (fun _ _ => True) fs :=
  Exec.wp_mono limitOnly_spec (fun _ _ h => ⟨h.1, h.2.1, h.2.2 _ (by decide) (by decide)⟩)
    fun _ _ _ => trivial

theorem limitMemOnly_spec (m : BitVec 128) :
    Exec.wp (limitMemOnly m) (fun rc fs' => rc = 0 ∧
      fs'.content (.file .jobMemLimit) = uint128ToChars m ∧
      fs'.content (.file .jobCpuLimit) = fs.content (.file .jobCpuLimit)) (fun _ _ => True) fs :=
  Exec.wp_mono limitOnly_spec (fun _ _ h => ⟨h.1, h.2.1, h.2.2 _ (by decide) (by decide)⟩)
    fun _ _ _ => trivial

/-- **What a call leaves**: a file is rewritten where its flag is set or the other is not. -/
theorem configJobRes_spec (m : BitVec 128) (c : BitVec 64) (limitMemory limitCpu : Bool) :
    Exec.wp (configJobRes m c limitMemory limitCpu)
      (fun rc fs' => rc = 0 ∧
        fs'.content (.file .jobCpuLimit) =
          (if limitCpu ∨ ¬limitMemory then (fmtLong c).bytes else fs.content (.file .jobCpuLimit)) ∧
        fs'.content (.file .jobMemLimit) =
          (if limitMemory ∨ ¬limitCpu then uint128ToChars m else fs.content (.file .jobMemLimit)))
      (fun _ _ => True) fs := by
  have hnext {fs : Files} {x rest : Exec Files Int} {P : Files → Prop} {Q : Int → Files → Prop}
      (hx : Exec.wp x (fun rc fs' => rc = 0 ∧ P fs') (fun _ _ => True) fs)
      (hrest : ∀ fs', P fs' → Exec.wp rest Q (fun _ _ => True) fs') :
      Exec.wp (x >>= fun rc => if rc ≠ 0 then pure (-1) else rest) Q (fun _ _ => True) fs :=
    Exec.wp_next (Exec.wp_mono hx (fun _ fs' h => ⟨h.1, hrest fs' h.2⟩) fun _ _ _ => trivial)
  unfold configJobRes
  split
  · rename_i hcpu
    refine hnext (limitCpuOnly_spec c) fun fs' h => ?_
    simpa [hcpu] using h
  split
  · rename_i hmem
    refine hnext (limitMemOnly_spec m) fun fs' h => ?_
    simpa [hmem, and_comm] using h
  · rename_i hcpu hmem
    refine hnext (limitCpuOnly_spec c) fun fs₁ h₁ => ?_
    refine hnext (limitMemOnly_spec m) fun fs₂ h₂ => ?_
    rw [Exec.wp_pure, if_pos (by grind), if_pos (by grind)]
    exact ⟨rfl, h₂.2.trans h₁.1, h₂.1⟩

end spec

/-! ## The register law -/

/-- Either file gives back what was written to it, the memory limit up to `2 ^ 63`. -/
theorem storedLimit_of_configJobRes {m : BitVec 128} {c : BitVec 64} {limitMemory limitCpu : Bool}
    {fs fs' : Files} (h : (configJobRes m c limitMemory limitCpu).run fs = .ok 0 fs') :
    storedLimit fs' =
      ⟨if limitCpu ∨ ¬limitMemory then c else (storedLimit fs).cpuLimit,
        if limitMemory ∨ ¬limitCpu then atoll128 (fmtNatStr m.toNat)
        else (storedLimit fs).memoryLimit⟩ := by
  have hcpu : atol (.ofBytes ((fmtLong c).bytes.take 69)) = c := by
    rw [List.take_of_length_le (le_trans (length_fmtLong_le c) (by decide)), CStr.ofBytes_bytes,
      atol_fmtLong]
  have hmem : CStr.ofBytes ((uint128ToChars m).take 129) = fmtNatStr m.toNat := by
    have hlen : (fmtNat m.toNat).length ≤ 39 :=
      length_fmtNat_le (by decide) (lt_trans m.isLt (by norm_num))
    rw [uint128ToChars_eq, List.take_of_length_le (le_trans hlen (by decide))]
    exact CStr.ofBytes_bytes (fmtNatStr m.toNat)
  obtain ⟨-, hc, hm⟩ := Exec.wp_run_ok (configJobRes_spec m c limitMemory limitCpu) h
  rw [storedLimit, hc, hm]
  simp only [storedLimit]
  congr 1
  · split
    · exact hcpu
    · rfl
  · split
    · rw [hmem]
    · rfl

theorem storedLimit_configured_iff {m : BitVec 128} {c : BitVec 64} {limitMemory limitCpu : Bool}
    {fs fs' : Files} (h : (configJobRes m c limitMemory limitCpu).run fs = .ok 0 fs') :
    storedLimit fs' = (storedLimit fs).configured m c limitMemory limitCpu ↔
      KeepsToFlags m c limitMemory limitCpu (storedLimit fs) := by
  rw [storedLimit_of_configJobRes h]
  have hread : atoll128 (fmtNatStr m.toNat) = m ↔ m.toNat < 2 ^ 63 := atoll128_fmtNatStr_eq_iff m
  have hsame (x : BitVec 128) : atoll128 (fmtNatStr m.toNat) = x ↔
      x.toNat = min m.toNat (2 ^ 63 - 1) := by
    rw [← BitVec.toNat_inj, toNat_atoll128_fmtNatStr, eq_comm]
  cases limitMemory with
  | true => cases limitCpu <;> simp [JobRsLimit.configured, KeepsToFlags, hread]
  | false =>
    cases limitCpu with
    | true => simp [JobRsLimit.configured, KeepsToFlags]
    | false => simp [JobRsLimit.configured, KeepsToFlags, hsame, eq_comm]

/-- **The job limits behave like two registers** exactly where `KeepsToFlags` holds of the
call and of the stored limits. -/
theorem configJobRes_configured_iff {m : BitVec 128} {c : BitVec 64} {limitMemory limitCpu : Bool}
    {fs fs₁ fs' fs₂ : Files} {old new : JobRsLimit} (hold : getLimit.run fs = .ok old fs₁)
    (h : (configJobRes m c limitMemory limitCpu).run fs = .ok 0 fs')
    (hnew : getLimit.run fs' = .ok new fs₂) :
    new = old.configured m c limitMemory limitCpu ↔
      KeepsToFlags m c limitMemory limitCpu old := by
  rw [getLimit_returns hnew, getLimit_returns hold]
  exact storedLimit_configured_iff h

def halfCore : Files
  | ⟨.data, .jobCpuLimit, false⟩ => some (fmtLong 50000).bytes
  | ⟨.data, .jobMemLimit, false⟩ => some (uint128ToChars 1073741824)
  | _ => none

theorem configJobRes_configured_cpu :
    ∃ fs₁ fs' fs₂ old new, getLimit.run halfCore = .ok old fs₁ ∧
      (configJobRes 0 100000 false true).run halfCore = .ok 0 fs' ∧
      getLimit.run fs' = .ok new fs₂ ∧
      (new = old.configured 0 100000 false true ↔ KeepsToFlags 0 100000 false true old) :=
  ⟨_, _, _, _, _, rfl, rfl, rfl, configJobRes_configured_iff rfl rfl rfl⟩

/-- `config job` without an option writes 0 to both files. -/
theorem not_configJobRes_configured :
    ¬∀ (m : BitVec 128) (c : BitVec 64) (limitMemory limitCpu : Bool) (fs fs₁ fs' fs₂ : Files)
      (old new : JobRsLimit), getLimit.run fs = .ok old fs₁ →
        (configJobRes m c limitMemory limitCpu).run fs = .ok 0 fs' →
        getLimit.run fs' = .ok new fs₂ → new = old.configured m c limitMemory limitCpu := by
  intro h
  have hzero := h 0 0 false false halfCore _ _ _ _ _ rfl rfl rfl
  exact absurd hzero (by decide)

/-! ## Runs of calls -/

/-- The arguments of a call of `configJobRes`. -/
structure ConfigCall where
  memLimit : BitVec 128
  cpuLimit : BitVec 64
  limitMemory : Bool
  limitCpu : Bool
  deriving DecidableEq

namespace ConfigCall

def step (call : ConfigCall) (fs : Files) : Option Files :=
  match (configJobRes call.memLimit call.cpuLimit call.limitMemory call.limitCpu).run fs with
  | .ok rc fs' => if rc = 0 then some fs' else none
  | .error _ _ => none

def configure (old : JobRsLimit) (call : ConfigCall) : JobRsLimit :=
  old.configured call.memLimit call.cpuLimit call.limitMemory call.limitCpu

def Keeps (fs : Files) (call : ConfigCall) : Prop :=
  KeepsToFlags call.memLimit call.cpuLimit call.limitMemory call.limitCpu (storedLimit fs)

theorem step_eq {call : ConfigCall} {fs fs' : Files} (h : call.step fs = some fs') :
    (configJobRes call.memLimit call.cpuLimit call.limitMemory call.limitCpu).run fs =
      .ok 0 fs' := by
  unfold step at h
  split at h
  · rename_i rc fs₁ hrun
    split at h
    · rename_i hrc
      cases h
      rw [hrun, hrc]
    · cases h
  · cases h

/-- **A run of calls** that keep to their flags leaves what two registers would hold. -/
theorem storedLimit_runs (calls : List ConfigCall) {fs fs' : Files}
    (hkeeps : Every step (fun fs call _ => call.Keeps fs) calls fs)
    (hrun : runs step calls fs = some fs') :
    storedLimit fs' = calls.foldl configure (storedLimit fs) :=
  runs_foldl (fun hk hs => (storedLimit_configured_iff (step_eq hs)).mpr hk) calls hkeeps hrun

end ConfigCall

end MiniRunner
