import MiniRunner.Ops.JobLimits

/-!
# The limits a daemon runs under

`job_res_man/res_limit.c` and the start of `runJobsDaemon`. The daemon reads the job limits
once, sets for itself the ones that are not 0, and tries again until `setrlimit` takes them. The
stored cpu limit is a number of cores times 100000; here it counts seconds, and the hard limit
is three of them above the soft one, in 64 bits.

`daemon_limits` goes from the calls of `config job` to the limits of the next daemon: it runs
under exactly what the calls have asked for, or never gets to its first cycle, which is the case
for the three largest cpu limits.
-/

namespace MiniRunner.DaemonLimits

open Clib MiniRunner

/-! ## The model -/

/-- `struct rlimit`. -/
structure Rlimit where
  cur : BitVec 64
  max : BitVec 64
  deriving DecidableEq

/-- `RLIM_INFINITY` in both. -/
def Rlimit.infinity : Rlimit := ⟨BitVec.allOnes 64, BitVec.allOnes 64⟩

/-- `RLIMIT_CPU` and `RLIMIT_AS`. -/
inductive Resource where
  | cpu | addressSpace
  deriving DecidableEq

abbrev Rlimits := Resource → Rlimit

/-- What `setrlimit` accepts from a process that may not raise a hard limit. -/
def Rlimit.Allows (old new : Rlimit) : Prop := new.cur ≤ new.max ∧ new.max ≤ old.max

instance (old new : Rlimit) : Decidable (old.Allows new) := inferInstanceAs (Decidable (_ ∧ _))

def setrlimit (r : Resource) (l : Rlimit) : Exec Rlimits Int := do
  let limits ← get
  if (limits r).Allows l then
    set (Function.update limits r l)
    pure 0
  else pure (-1)

/-- The memory half of `setLimit`; a `rlim_t` has 64 bits. -/
def setMemory (memBytes : BitVec 128) : Exec Rlimits Int := do
  if (← setrlimit .addressSpace ⟨memBytes.setWidth 64, memBytes.setWidth 64⟩) ≠ 0 then pure (-1)
  else pure 0

def setLimit (memBytes : BitVec 128) (cpuLimit : BitVec 64) (setmemLimit setCpuLimit : Bool) :
    Exec Rlimits Int := do
  if setCpuLimit then
    if (← setrlimit .cpu ⟨cpuLimit, cpuLimit + 3#64⟩) ≠ 0 then pure (-1)
    else if setmemLimit = false then pure 0
    else setMemory memBytes
  else setMemory memBytes

/-- The first call of the daemon and those of its loop, up to a number of them. -/
def setLimitUntil (limit : JobRsLimit) : Nat → Exec Rlimits Unit
  | 0 => throw .blocked
  | attempts + 1 => do
    let rc ← setLimit limit.memoryLimit limit.cpuLimit (limit.memoryLimit ≠ 0#128)
      (limit.cpuLimit ≠ 0#64)
    if rc ≠ 0 then setLimitUntil limit attempts else pure ()

/-- `runJobsDaemon` from `getLimit` to its first cycle. -/
def limitDaemon (attempts : Nat) : Exec (Files × Rlimits) Unit := do
  let limit ← Exec.zoom Prod.fst (fun s fs => (fs, s.2)) getLimit
  if limit.cpuLimit ≠ 0#64 ∨ limit.memoryLimit ≠ 0#128 then
    Exec.zoom Prod.snd (fun s limits => (s.1, limits)) (setLimitUntil limit attempts)
  else pure ()

/-- A call of `configJobRes` by `main`, with the flags of `main`. -/
def configCall (call : BitVec 128 × BitVec 64) : ConfigCall :=
  ⟨call.1, call.2, call.1 ≠ 0#128, call.2 ≠ 0#64⟩

/-! ## What is set -/

def Settable (limit : JobRsLimit) : Prop := limit.cpuLimit.toNat + 3 < 2 ^ 64

instance (limit : JobRsLimit) : Decidable (Settable limit) := inferInstanceAs (Decidable (_ < _))

def limitsOf (limit : JobRsLimit) : Rlimits
  | .cpu => if limit.cpuLimit = 0#64 then .infinity else ⟨limit.cpuLimit, limit.cpuLimit + 3#64⟩
  | .addressSpace =>
    if limit.memoryLimit = 0#128 then .infinity
    else ⟨limit.memoryLimit.setWidth 64, limit.memoryLimit.setWidth 64⟩

section specs

variable {limit : JobRsLimit} {limits : Rlimits}

theorem wp_setrlimit {r : Resource} {l : Rlimit} {Q : Int → Rlimits → Prop}
    {E : Halt → Rlimits → Prop} : Exec.wp (setrlimit r l) Q E limits ↔
      if (limits r).Allows l then Q 0 (Function.update limits r l) else Q (-1) limits := by
  unfold setrlimit
  rw [Exec.wp_bind, Exec.wp_get]
  split
  · rw [Exec.wp_bind, Exec.wp_set, Exec.wp_pure]
  · rw [Exec.wp_pure]

theorem allows_infinity {l : Rlimit} : Rlimit.infinity.Allows l ↔ l.cur ≤ l.max := by
  have hle : l.max ≤ BitVec.allOnes 64 := by
    rw [BitVec.le_def, BitVec.toNat_allOnes]
    exact Nat.le_sub_one_of_lt l.max.isLt
  exact and_iff_left hle

theorem le_add_three_iff (c : BitVec 64) : c ≤ c + 3#64 ↔ c.toNat + 3 < 2 ^ 64 := by
  have hc := c.isLt
  rw [BitVec.le_def, BitVec.toNat_add, BitVec.toNat_ofNat]
  omega

theorem wp_setMemory {m : BitVec 128} {Q : Int → Rlimits → Prop} {E : Halt → Rlimits → Prop}
    (h : limits .addressSpace = .infinity) : Exec.wp (setMemory m) Q E limits ↔
      Q 0 (Function.update limits .addressSpace ⟨m.setWidth 64, m.setWidth 64⟩) := by
  have hallows : (limits .addressSpace).Allows ⟨m.setWidth 64, m.setWidth 64⟩ := by
    rw [h, allows_infinity]
    exact BitVec.le_refl _
  simp only [setMemory, Exec.wp_bind, wp_setrlimit, if_pos hallows, ne_eq, not_true_eq_false,
    if_false, Exec.wp_pure]

/-- **The first call** of a daemon that has a limit to set. -/
theorem wp_setLimit (hsome : limit.cpuLimit ≠ 0#64 ∨ limit.memoryLimit ≠ 0#128) :
    Exec.wp (setLimit limit.memoryLimit limit.cpuLimit (limit.memoryLimit ≠ 0#128)
        (limit.cpuLimit ≠ 0#64))
      (fun rc limits' => Settable limit ∧ rc = 0 ∧ limits' = limitsOf limit ∨
        ¬Settable limit ∧ rc = -1 ∧ limits' = fun _ => .infinity)
      (fun _ _ => False) (fun _ => .infinity) := by
  by_cases hcpu : limit.cpuLimit = 0#64
  · -- without a cpu limit there is one for the memory, which is always taken
    have hmemory : limit.memoryLimit ≠ 0#128 := hsome.resolve_left (not_not.mpr hcpu)
    have hsettable : Settable limit := by
      rw [Settable, hcpu]
      decide
    rw [setLimit, if_neg (by simp [hcpu]), wp_setMemory rfl]
    refine .inl ⟨hsettable, rfl, ?_⟩
    funext r
    cases r with
    | cpu => rw [Function.update_of_ne (by decide), limitsOf, if_pos hcpu]
    | addressSpace => rw [Function.update_self, limitsOf, if_neg hmemory]
  · have hallows : Rlimit.infinity.Allows ⟨limit.cpuLimit, limit.cpuLimit + 3#64⟩ ↔
        Settable limit := allows_infinity.trans (le_add_three_iff _)
    rw [setLimit, if_pos (by simp [hcpu]), Exec.wp_bind, wp_setrlimit]
    by_cases hsettable : Settable limit
    · rw [if_pos (hallows.mpr hsettable), if_neg (not_not.mpr rfl)]
      by_cases hmemory : limit.memoryLimit = 0#128
      · rw [if_pos (by simp [hmemory]), Exec.wp_pure]
        refine .inl ⟨hsettable, rfl, ?_⟩
        funext r
        cases r with
        | cpu => rw [Function.update_self, limitsOf, if_neg hcpu]
        | addressSpace => rw [Function.update_of_ne (by decide), limitsOf, if_pos hmemory]
      · rw [if_neg (by simp [hmemory]), wp_setMemory (Function.update_of_ne (by decide) ..)]
        refine .inl ⟨hsettable, rfl, ?_⟩
        funext r
        cases r with
        | cpu =>
          rw [Function.update_of_ne (by decide), Function.update_self, limitsOf, if_neg hcpu]
        | addressSpace => rw [Function.update_self, limitsOf, if_neg hmemory]
    · rw [if_neg (mt hallows.mp hsettable), if_pos (by decide), Exec.wp_pure]
      exact .inr ⟨hsettable, rfl, rfl⟩

/-- As many calls as one likes: what the first one is refused, all are. -/
theorem wp_setLimitUntil (hsome : limit.cpuLimit ≠ 0#64 ∨ limit.memoryLimit ≠ 0#128)
    (attempts : Nat) :
    Exec.wp (setLimitUntil limit attempts)
      (fun _ limits' => Settable limit ∧ limits' = limitsOf limit)
      (fun e _ => e = .blocked ∧ (attempts = 0 ∨ ¬Settable limit)) (fun _ => .infinity) := by
  induction attempts with
  | zero => exact (Exec.wp_throw _).mpr ⟨rfl, .inl rfl⟩
  | succ attempts ih =>
    rw [setLimitUntil, Exec.wp_bind]
    refine Exec.wp_mono (wp_setLimit hsome) ?_ fun _ _ hno => hno.elim
    rintro rc limits' (⟨hsettable, rfl, hlimits⟩ | ⟨hno, rfl, rfl⟩)
    · rw [if_neg (not_not.mpr rfl), Exec.wp_pure]
      exact ⟨hsettable, hlimits⟩
    · rw [if_pos (by decide)]
      exact Exec.wp_mono ih (fun _ _ h => h) fun _ _ he => ⟨he.1, .inr hno⟩

/-- **The start of a daemon** that comes from a process without limits: it sets the stored
limits, or tries for ever. -/
theorem wp_limitDaemon {attempts : Nat} (hattempts : attempts ≠ 0) (fs : Files) :
    Exec.wp (limitDaemon attempts)
      (fun _ s => Settable (storedLimit fs) ∧ s.2 = limitsOf (storedLimit fs))
      (fun e _ => e = .blocked ∧ ¬Settable (storedLimit fs)) (fs, fun _ => .infinity) := by
  rw [limitDaemon, Exec.wp_bind, Exec.wp_zoom, wp_getLimit]
  split
  · rename_i hsome
    rw [Exec.wp_zoom]
    exact Exec.wp_mono (wp_setLimitUntil hsome attempts) (fun _ _ h => h)
      fun _ _ he => ⟨he.1, he.2.resolve_left hattempts⟩
  · rename_i hnone
    obtain ⟨hcpu, hmemory⟩ := not_or.mp hnone
    rw [Exec.wp_pure, Settable, not_not.mp hcpu]
    refine ⟨by decide, ?_⟩
    funext r
    cases r with
    | cpu => rw [limitsOf, if_pos (not_not.mp hcpu)]
    | addressSpace => rw [limitsOf, if_pos (not_not.mp hmemory)]

end specs

/-! ## What was asked for -/

/-- The limits after a call: one that is not 0 is set, a memory limit up to `2 ^ 63`; without
either, both are taken away. -/
def asked (old : JobRsLimit) (call : BitVec 128 × BitVec 64) : JobRsLimit :=
  ⟨if call.2 = 0#64 ∧ call.1 ≠ 0#128 then old.cpuLimit else call.2,
    if call.1 = 0#128 ∧ call.2 ≠ 0#64 then old.memoryLimit
    else BitVec.ofNat 128 (min call.1.toNat (2 ^ 63 - 1))⟩

theorem atoll128_eq_ofNat (m : BitVec 128) :
    atoll128 (fmtNatStr m.toNat) = BitVec.ofNat 128 (min m.toNat (2 ^ 63 - 1)) := by
  refine BitVec.eq_of_toNat_eq ?_
  rw [toNat_atoll128_fmtNatStr, BitVec.toNat_ofNat]
  omega

theorem storedLimit_configCall {call : BitVec 128 × BitVec 64} {fs fs' : Files}
    (h : (configCall call).step fs = some fs') : storedLimit fs' = asked (storedLimit fs) call := by
  rw [storedLimit_of_configJobRes (ConfigCall.step_eq h), configCall, asked, atoll128_eq_ofNat]
  by_cases hcpu : call.2 = 0#64 <;> by_cases hmemory : call.1 = 0#128 <;> simp [hcpu, hmemory]

/-- **From the calls of `config job` to the limits of a daemon.** Whatever the files held, after
any calls that succeed a daemon gets to its first cycle if and only if the last cpu limit that
was asked for leaves room for three seconds more, and then it runs under exactly the limits that
were asked for. -/
theorem daemon_limits {calls : List (BitVec 128 × BitVec 64)} {fs fs' : Files}
    (hrun : runs (fun call => (configCall call).step) calls fs = some fs') {attempts : Nat}
    (hattempts : attempts ≠ 0) :
    Exec.wp (limitDaemon attempts)
      (fun _ s => Settable (calls.foldl asked (storedLimit fs)) ∧
        s.2 = limitsOf (calls.foldl asked (storedLimit fs)))
      (fun e _ => e = .blocked ∧ ¬Settable (calls.foldl asked (storedLimit fs)))
      (fs', fun _ => .infinity) := by
  have hstored : storedLimit fs' = calls.foldl asked (storedLimit fs) :=
    runs_foldl (G := fun _ _ _ => True) (fun _ hstep => storedLimit_configCall hstep) calls
      (every_true calls fs) hrun
  rw [← hstored]
  exact wp_limitDaemon hattempts fs'

/-- A call with the largest cpu limit, behind which no daemon gets to its first cycle. -/
theorem daemon_limits_largest : ∃ fs' : Files,
    runs (fun call => (configCall call).step) [(0#128, BitVec.allOnes 64)] halfCore = some fs' ∧
      ∀ attempts, attempts ≠ 0 → Exec.wp (limitDaemon attempts) (fun _ _ => False)
        (fun e _ => e = .blocked) (fs', fun _ => .infinity) := by
  have hno : ¬Settable (asked (storedLimit halfCore) (0#128, BitVec.allOnes 64)) := by decide
  obtain ⟨fs', hrun⟩ : ∃ fs' : Files, runs (fun call => (configCall call).step)
      [(0#128, BitVec.allOnes 64)] halfCore = some fs' := ⟨_, rfl⟩
  refine ⟨fs', hrun, fun attempts hattempts => ?_⟩
  exact Exec.wp_mono (daemon_limits hrun hattempts) (fun _ _ h => hno h.1) fun _ _ he => he.1

end MiniRunner.DaemonLimits
