import MiniRunner.Kernel.Cgroup
import MiniRunner.Ops.Launch
import MiniRunner.Clib.Runs

/-!
# The limits table and the control files

The functions of `res_man` write one or both control files of a service and then record
both fields of its entry, whatever they wrote. `Mirrors` says that the entry shows what the
files were last told. A run of them keeps it exactly where every call meets `Kept`: it
writes both files with an amount that is not negative, or it leaves alone a file that
already holds what is recorded for it.
-/

namespace MiniRunner

open Clib Process Kernel

namespace Kernel

/-! ## The control files of the two versions -/

def cpuFile (unified : Bool) : ControlFile := if unified then .cpuMax else .cpuCfsQuotaUs

def memFile (unified : Bool) : ControlFile := if unified then .memoryMax else .memoryLimitInBytes

/-- The text of a quota in its file; version 2 has the period beside it. -/
def cpuText (unified : Bool) (quota : BitVec 64) : Bytes :=
  quotaText quota ++ if unified then periodText else []

def lastWritten (f : ControlFile) (name : CStr) (k : Kernel) : Option Bytes :=
  (k.cgroups f.controller name).bind (·.written f)

/-! ## Writing them when nothing fails -/

/-- No call fails, the service has a directory under `dirs`, and the control files were
last told `w`. -/
structure Settled (name : CStr) (unified : Bool) (dirs : List Controller)
    (w : ControlFile → Option Bytes) (k : Kernel) : Prop where
  version : k.unified = unified
  noFaults : ∀ c, k.faults c = false
  made : ∀ c ∈ dirs, (k.cgroups c name).isSome = true
  told : ∀ f, k.lastWritten f name = w f

section settled

variable {name : CStr} {unified : Bool} {dirs : List Controller} {w : ControlFile → Option Bytes}
  {k : Kernel} {Q : Int → Kernel → Prop} {E : Halt → Kernel → Prop}

theorem cgroups_setCgroup (c c' : Controller) (n n' : CStr) (g : Option Cgroup) :
    (setCgroup c' n' g k).cgroups c n = if c = c' ∧ n = n' then g else k.cgroups c n := by
  unfold setCgroup
  by_cases hc : c = c'
  · subst hc
    by_cases hn : n = n'
    · simp [hn]
    · simp [hn]
  · simp [hc]

theorem lastWritten_eq (f : ControlFile) :
    k.lastWritten f name = ((k.cgroups f.controller name).map Cgroup.written).bind (· f) := by
  rw [lastWritten, Option.bind_map]
  rfl

theorem written_move (c c' : Controller) (n n' : CStr) (pid : BitVec 32) :
    ((move c' n' pid k).cgroups c n).map Cgroup.written =
      (k.cgroups c n).map Cgroup.written := by
  by_cases hc : c = c'
  · simp [move, hc, Function.comp_def]
  · simp [move, hc]

theorem lastWritten_move (f : ControlFile) (c : Controller) (n : CStr) (pid : BitVec 32) :
    (move c n pid k).lastWritten f name = k.lastWritten f name := by
  rw [lastWritten_eq, lastWritten_eq, written_move]

theorem lastWritten_setCgroup_new {c : Controller} {n : CStr} (h : k.cgroups c n = none)
    (f : ControlFile) (procs : List (BitVec 32)) :
    (setCgroup c n (some ⟨procs, fun _ => none⟩) k).lastWritten f name =
      k.lastWritten f name := by
  rw [lastWritten, lastWritten, cgroups_setCgroup]
  split
  · rename_i heq
    rw [heq.1, heq.2, h]
    rfl
  · rfl

/-- A text that is put into a file is what it was last told; the other files stay. -/
theorem lastWritten_putText {f : ControlFile} (h : (k.cgroups f.controller name).isSome = true)
    (f' : ControlFile) (bs : Bytes) :
    (putText f name bs k).lastWritten f' name =
      if f' = f then some bs else k.lastWritten f' name := by
  obtain ⟨g, hg⟩ := Option.isSome_iff_exists.mp h
  rw [lastWritten, lastWritten, putText, cgroups_setCgroup]
  by_cases heq : f' = f
  · rw [heq, if_pos ⟨rfl, rfl⟩, hg]
    simp
  · rw [if_neg heq]
    split
    · rename_i hsame
      rw [hsame.1, hg]
      simp [heq]
    · rfl

theorem Settled.ensureDirectory (h : Settled name unified dirs w k) (c : Controller)
    (hQ : ∀ k', Settled name unified (c :: dirs) w k' → Q 0 k') :
    Exec.wp (ensureDirectory c name) Q E k := by
  rw [wp_ensureDirectory]
  split
  · rename_i hsome
    exact hQ k { h with made := List.forall_mem_cons.mpr ⟨hsome, h.made⟩ }
  · rename_i hnone
    rw [if_neg (by simp [h.noFaults])]
    refine hQ _ ⟨h.version, h.noFaults, fun c' hc => ?_, fun f => ?_⟩
    · rw [cgroups_setCgroup]
      split
      · rfl
      · exact h.made c' ((List.mem_cons.mp hc).resolve_left fun heq => by simp_all)
    · rw [lastWritten_setCgroup_new (Option.not_isSome_iff_eq_none.mp hnone), h.told]

theorem Settled.ensureRoot (h : Settled name unified dirs w k) (c : Controller)
    (hQ : ∀ k', Settled name unified dirs w k' → Q 0 k') :
    Exec.wp (ensureRoot c) Q E k := by
  rw [wp_ensureRoot]
  split
  · exact hQ k h
  · rw [if_neg (by simp [h.noFaults])]
    exact hQ _ ⟨h.version, h.noFaults, h.made, h.told⟩

theorem Settled.writeProcs (h : Settled name unified dirs w k) {c : Controller} (hc : c ∈ dirs)
    (pid : BitVec 32) (hQ : ∀ k', Settled name unified dirs w k' → Q 0 k') :
    Exec.wp (writeProcs c name pid) Q E k := by
  rw [Kernel.writeProcs, wp_attempt, if_neg (by simp [h.noFaults, h.made c hc])]
  refine hQ _ ⟨h.version, h.noFaults, fun c' hc' => ?_, fun f => ?_⟩
  · rw [← isSome_procsOf, isSome_procsOf_move, isSome_procsOf]
    exact h.made c' hc'
  · rw [lastWritten_move, h.told]

theorem Settled.write (h : Settled name unified dirs w k) {f : ControlFile}
    (hf : f.controller ∈ dirs) (bs : Bytes)
    (hQ : ∀ k', Settled name unified dirs (Function.update w f (some bs)) k' → Q 0 k') :
    Exec.wp (write f name bs) Q E k := by
  rw [Kernel.write, wp_attempt, if_neg (by simp [h.noFaults, h.made _ hf])]
  have hmade := h.made _ hf
  obtain ⟨g, hg⟩ := Option.isSome_iff_exists.mp hmade
  refine hQ _ ⟨h.version, h.noFaults, fun c hc => ?_, fun f' => ?_⟩
  · rw [putText, cgroups_setCgroup]
    split
    · rw [hg]
      rfl
    · exact h.made c hc
  · rw [lastWritten_putText hmade, h.told]
    exact (Function.update_apply w f (some bs) f').symm

theorem Settled.basicV1Setup (h : Settled name unified dirs w k)
    (hQ : ∀ k', Settled name unified (.memory :: .cpu :: dirs) w k' → Q 0 k') :
    Exec.wp (basicV1Setup name) Q E k := by
  refine Exec.wp_next (h.ensureRoot .cpu fun k₁ h₁ => ⟨rfl, ?_⟩)
  refine Exec.wp_next (h₁.ensureRoot .memory fun k₂ h₂ => ⟨rfl, ?_⟩)
  exact Exec.wp_next (h₂.ensureDirectory .cpu fun k₃ h₃ => ⟨rfl, h₃.ensureDirectory .memory hQ⟩)

theorem Settled.limitMemoryV1 (h : Settled name unified dirs w k) (hc : .memory ∈ dirs)
    (pid : BitVec 32) (memBytes : Amount)
    (hQ : ∀ k', Settled name unified dirs
      (Function.update w .memoryLimitInBytes (some (amountText memBytes))) k' → Q 0 k') :
    Exec.wp (limitMemoryV1 name pid memBytes) Q E k := by
  exact Exec.wp_next (h.writeProcs hc pid fun k₁ h₁ =>
    ⟨rfl, h₁.write (f := .memoryLimitInBytes) hc _ hQ⟩)

/-- What the calls of `res_man` leave: the same system, and both files as told. -/
structure Limited (name : CStr) (unified : Bool) (cpu memory : Option Bytes) (k : Kernel) :
    Prop where
  version : k.unified = unified
  noFaults : ∀ c, k.faults c = false
  cpu : k.lastWritten (cpuFile unified) name = cpu
  memory : k.lastWritten (memFile unified) name = memory

theorem Settled.limited (h : Settled name unified dirs w k) :
    Limited name unified (w (cpuFile unified)) (w (memFile unified)) k :=
  ⟨h.version, h.noFaults, h.told _, h.told _⟩

end settled

section limited

variable {name : CStr} {unified : Bool} {cpu memory : Option Bytes} {k : Kernel}

theorem Limited.settled (h : Limited name unified cpu memory k) :
    Settled name unified [] (fun f => k.lastWritten f name) k :=
  ⟨h.version, h.noFaults, fun _ hc => absurd hc List.not_mem_nil, fun _ => rfl⟩

theorem Limited.limitCpuAndMemory (h : Limited name unified cpu memory k) (pid : BitVec 32)
    (cpuLimit : BitVec 64) (limitMemory : Bool) (memBytes : Amount) :
    Exec.wp (limitCpuAndMemory name pid cpuLimit limitMemory memBytes)
      (fun rc k' => rc = 0 ∧ Limited name unified (some (cpuText unified cpuLimit))
        (if limitMemory then some (amountText memBytes) else memory) k')
      (fun _ _ => False) k := by
  have hs := h.settled
  have hmem := h.memory
  simp only [Kernel.limitCpuAndMemory, Exec.wp_bind, Exec.wp_get, h.version]
  cases unified with
  | true =>
    refine Exec.wp_next (hs.ensureDirectory .unified fun k₁ h₁ => ⟨rfl, ?_⟩)
    refine Exec.wp_next (h₁.writeProcs (by simp) pid fun k₂ h₂ => ⟨rfl, ?_⟩)
    refine Exec.wp_next (h₂.write (f := .cpuMax) (by simp [ControlFile.controller]) _ fun k₃ h₃ =>
      ⟨rfl, ?_⟩)
    cases limitMemory with
    | false =>
      refine (Exec.wp_pure _).mpr ⟨rfl, ?_⟩
      simpa [cpuFile, memFile, cpuText, ← hmem] using h₃.limited
    | true =>
      refine h₃.write (f := .memoryMax) (by simp [ControlFile.controller]) _ fun k₄ h₄ =>
        ⟨rfl, ?_⟩
      simpa [cpuFile, memFile, cpuText] using h₄.limited
  | false =>
    refine Exec.wp_next (hs.basicV1Setup fun k₁ h₁ => ⟨rfl, ?_⟩)
    refine Exec.wp_next (h₁.writeProcs (by simp) pid fun k₂ h₂ => ⟨rfl, ?_⟩)
    refine Exec.wp_next (h₂.write (f := .cpuCfsQuotaUs) (by simp [ControlFile.controller]) _
      fun k₃ h₃ => ⟨rfl, ?_⟩)
    refine Exec.wp_next (h₃.write (f := .cpuCfsPeriodUs) (by simp [ControlFile.controller]) _
      fun k₄ h₄ => ⟨rfl, ?_⟩)
    cases limitMemory with
    | false =>
      refine (Exec.wp_pure _).mpr ⟨rfl, ?_⟩
      simpa [cpuFile, memFile, cpuText, ← hmem] using h₄.limited
    | true =>
      refine h₄.limitMemoryV1 (by simp) pid memBytes fun k₅ h₅ => ⟨rfl, ?_⟩
      simpa [cpuFile, memFile, cpuText] using h₅.limited

theorem Limited.limitMm (h : Limited name unified cpu memory k) (pid : BitVec 32)
    (memBytes : Amount) :
    Exec.wp (limitMm name pid memBytes)
      (fun rc k' => rc = 0 ∧ Limited name unified cpu (some (amountText memBytes)) k')
      (fun _ _ => False) k := by
  have hs := h.settled
  have hcpu := h.cpu
  simp only [Kernel.limitMm, Exec.wp_bind, Exec.wp_get, h.version]
  cases unified with
  | true =>
    refine Exec.wp_next (hs.ensureDirectory .unified fun k₁ h₁ => ⟨rfl, ?_⟩)
    refine Exec.wp_next (h₁.writeProcs (by simp) pid fun k₂ h₂ => ⟨rfl, ?_⟩)
    refine h₂.write (f := .memoryMax) (by simp [ControlFile.controller]) _ fun k₃ h₃ =>
      ⟨rfl, ?_⟩
    simpa [cpuFile, memFile, ← hcpu] using h₃.limited
  | false =>
    refine Exec.wp_next (hs.basicV1Setup fun k₁ h₁ => ⟨rfl, ?_⟩)
    refine Exec.wp_next (h₁.writeProcs (by simp) pid fun k₂ h₂ => ⟨rfl, ?_⟩)
    refine h₂.limitMemoryV1 (by simp) pid memBytes fun k₃ h₃ => ⟨rfl, ?_⟩
    simpa [cpuFile, memFile, ← hcpu] using h₃.limited

end limited

end Kernel

/-! ## Runs -/

/-- The six functions, by which of the two they are and the width of the amount. -/
inductive LimitOp where
  | setCpuResourceLimit (cpuSeconds : BitVec 64) (limitMemory : Bool) (memBytes : Amount)
  | setMemoryLimit (memBytes : Amount)
  deriving DecidableEq

def LimitOp.exec (base : Calls Kernel) (serviceName : CStr) : LimitOp → Exec (Process Kernel) Int
  | setCpuResourceLimit cpuSeconds limitMemory memBytes =>
    MiniRunner.setCpuResourceLimit (Kernel.calls base) serviceName cpuSeconds limitMemory memBytes
  | setMemoryLimit memBytes =>
    MiniRunner.setMemoryLimit (Kernel.calls base) serviceName memBytes

/-- One call on a service; a run ends where a call does not return. -/
def LimitOp.step (base : Calls Kernel) (serviceName : CStr) (op : LimitOp) (p : Process Kernel) :
    Option (Process Kernel) :=
  match (op.exec base serviceName).run p with
  | .ok _ p' => some p'
  | .error _ _ => none

/-- What is recorded for a service; a missing entry is the same as no limits. -/
def recordedLimit (serviceName : CStr) (p : Process Kernel) : BitVec 64 × BitVec 128 :=
  (limitOf serviceName p.limits.items).getD (0, 0)

/-- What a file was last told is the recorded number, or nothing was told and it is 0. -/
def Agrees (told : Option Bytes) (isZero : Prop) (text : Bytes) : Prop :=
  match told with
  | none => isZero
  | some bs => bs = text

instance Agrees.decidable (isZero : Prop) [Decidable isZero] (text : Bytes) :
    ∀ told : Option Bytes, Decidable (Agrees told isZero text)
  | none => inferInstanceAs (Decidable isZero)
  | some bs => inferInstanceAs (Decidable (bs = text))

/-- **The entry of a service mirrors its control files.** -/
structure Mirrors (serviceName : CStr) (p : Process Kernel) : Prop where
  cpu : Agrees (p.world.lastWritten (cpuFile p.world.unified) serviceName)
    ((recordedLimit serviceName p).1 = 0)
    (cpuText p.world.unified (recordedLimit serviceName p).1)
  memory : Agrees (p.world.lastWritten (memFile p.world.unified) serviceName)
    ((recordedLimit serviceName p).2 = 0) (fmtNat (recordedLimit serviceName p).2.toNat)

/-- A running service, a table that was read at the start and cgroup calls that succeed. -/
structure Limitable (serviceName : CStr) (p : Process Kernel) : Prop where
  running : ∃ s, p.services.items.find? (·.name == serviceName) = some s ∧ s.pid ≠ 0
  notNull : p.limits.isNull = false
  honest : p.limits.Honest
  noFaults : ∀ c, p.world.faults c = false

structure Unlimited (serviceName : CStr) (p : Process Kernel) : Prop where
  noEntry : limitOf serviceName p.limits.items = none
  noCpu : p.world.lastWritten (cpuFile p.world.unified) serviceName = none
  noMemory : p.world.lastWritten (memFile p.world.unified) serviceName = none

/-- An amount that prints as the number that is recorded: it has no sign. -/
def Amount.Unsigned : Amount → Prop
  | .standard bytes => bytes.msb = false
  | .custom bytes => bytes.msb = false
  | .extreme _ => True

/-- **When a call keeps the entry and the files together**: each amount that is written has
no sign, and each file that is left alone holds what is recorded for it. -/
def LimitOp.Kept (serviceName : CStr) (p : Process Kernel) : LimitOp → Prop
  | setCpuResourceLimit _ true memBytes => memBytes.Unsigned
  | setCpuResourceLimit _ false memBytes =>
    Agrees (p.world.lastWritten (memFile p.world.unified) serviceName) (memBytes.recorded = 0)
      (fmtNat memBytes.recorded.toNat)
  | setMemoryLimit memBytes =>
    memBytes.Unsigned ∧
      Agrees (p.world.lastWritten (cpuFile p.world.unified) serviceName) True
        (cpuText p.world.unified 0)

section runs

variable {serviceName : CStr} {p : Process Kernel}

theorem amountText_eq_iff (memBytes : Amount) :
    amountText memBytes = fmtNat memBytes.recorded.toNat ↔ memBytes.Unsigned := by
  cases memBytes with
  | standard bytes =>
    simp only [amountText, Amount.recorded, Amount.Unsigned, fmtInt_eq_fmtNat]
    cases hmsb : bytes.msb with
    | false =>
      rw [BitVec.toInt_eq_toNat_of_msb hmsb, BitVec.signExtend_eq_setWidth_of_msb_false hmsb,
        BitVec.toNat_setWidth_of_le (by decide)]
      exact iff_of_true rfl rfl
    | true =>
      have hneg := BitVec.toInt_neg_of_msb_true hmsb
      exact iff_of_false (by omega) (by decide)
  | custom bytes =>
    simp only [amountText, Amount.recorded, Amount.Unsigned, fmtInt_eq_fmtNat]
    cases hmsb : bytes.msb with
    | false =>
      rw [BitVec.toInt_eq_toNat_of_msb hmsb, BitVec.toNat_setWidth_of_le (by decide)]
      exact iff_of_true rfl rfl
    | true =>
      have hneg := BitVec.toInt_neg_of_msb_true hmsb
      exact iff_of_false (by omega) (by decide)
  | extreme bytes => simp [amountText, Amount.recorded, Amount.Unsigned, uint128ToChars_eq]

/-- What a call leaves when the files were told `cpuTold` and `memTold` and it then records
`cpu` and `memory`. -/
theorem limitService_limited {write : BitVec 32 → Kernel → Int × Kernel} {cpu : BitVec 64}
    {memory : BitVec 128} {missing : Exec (Process Kernel) Int} {cpuTold memTold : Option Bytes}
    (h : Limitable serviceName p)
    (hwrite : ∀ pid, (write pid p.world).1 = 0 ∧
      Limited serviceName p.world.unified cpuTold memTold (write pid p.world).2) :
    ∃ p', (limitService serviceName write cpu memory missing).run p = .ok 0 p' ∧
      Limitable serviceName p' ∧
      (Mirrors serviceName p' ↔ Agrees cpuTold (cpu = 0) (cpuText p.world.unified cpu) ∧
        Agrees memTold (memory = 0) (fmtNat memory.toNat)) := by
  obtain ⟨s, hfind, hpid⟩ := h.running
  obtain ⟨hrc, hlimited⟩ := hwrite s.pid
  obtain ⟨t, hitems, hnull, hhonest, hrun⟩ := limitService_running hfind hpid h.notNull h.honest
    hrc cpu memory missing
  refine ⟨_, hrun, ⟨⟨s, hfind, hpid⟩, hnull, hhonest, hlimited.noFaults⟩, ?_⟩
  have hrecorded : recordedLimit serviceName { p with
      world := (write s.pid p.world).2, limits := t } = (cpu, memory) := by
    rw [recordedLimit, hitems, limitOf_recordLimit, Option.getD_some]
  rw [← hlimited.cpu, ← hlimited.memory, ← hlimited.version]
  constructor
  · rintro ⟨hcpu, hmem⟩
    rw [hrecorded] at hcpu hmem
    exact ⟨hcpu, hmem⟩
  · rintro ⟨hcpu, hmem⟩
    exact ⟨by rw [hrecorded]; exact hcpu, by rw [hrecorded]; exact hmem⟩

/-- **One call.** It goes through, and mirrors the files where it meets `Kept`. -/
theorem LimitOp.exec_limitable (base : Calls Kernel) (op : LimitOp)
    (h : Limitable serviceName p) :
    ∃ p', (op.exec base serviceName).run p = .ok 0 p' ∧ Limitable serviceName p' ∧
      (Mirrors serviceName p' ↔ op.Kept serviceName p) := by
  have hlimited : Limited serviceName p.world.unified _ _ p.world := ⟨rfl, h.noFaults, rfl, rfl⟩
  cases op with
  | setCpuResourceLimit cpuSeconds limitMemory memBytes =>
    obtain ⟨p', hrun, hp', hiff⟩ := limitService_limited h fun pid =>
      asCall_of_wp (hlimited.limitCpuAndMemory pid cpuSeconds limitMemory memBytes)
    refine ⟨p', hrun, hp', hiff.trans ((and_iff_right rfl).trans ?_)⟩
    cases limitMemory with
    | false => exact Iff.rfl
    | true => exact amountText_eq_iff memBytes
  | setMemoryLimit memBytes =>
    obtain ⟨p', hrun, hp', hiff⟩ := limitService_limited h fun pid =>
      asCall_of_wp (hlimited.limitMm pid memBytes)
    refine ⟨p', hrun, hp', hiff.trans (and_comm.trans (and_congr (amountText_eq_iff memBytes) ?_))⟩
    rw [eq_self_iff_true]

theorem LimitOp.step_eq {base : Calls Kernel} {op : LimitOp} {rc : Int} {p' : Process Kernel}
    (h : (op.exec base serviceName).run p = .ok rc p') : op.step base serviceName p = some p' := by
  rw [step, h]

end runs

/-- **The limits table mirrors the control files** along a run of calls on a running service
exactly where every call of it meets `Kept`; the run goes through either way. -/
theorem limits_mirror_iff (base : Calls Kernel) (serviceName : CStr) (ops : List LimitOp)
    (p : Process Kernel) (h : Limitable serviceName p) :
    (∃ p', runs (LimitOp.step base serviceName) ops p = some p') ∧
      (Every (LimitOp.step base serviceName) (fun _ _ p' => Mirrors serviceName p') ops p ↔
        Every (LimitOp.step base serviceName) (fun p op _ => op.Kept serviceName p) ops p) := by
  constructor
  · obtain ⟨p', hruns, -⟩ := exists_runs (fun op hp => by
      obtain ⟨p', hrun, hp', -⟩ := LimitOp.exec_limitable base op hp
      exact ⟨p', LimitOp.step_eq hrun, hp'⟩) ops h
    exact ⟨p', hruns⟩
  · refine every_congr (fun {p op p'} hp hstep => ?_) ops h
    obtain ⟨p'', hrun, hp'', hiff⟩ := LimitOp.exec_limitable base op hp
    rw [LimitOp.step_eq hrun] at hstep
    cases hstep
    exact ⟨hp'', hiff⟩

/-- A running service `a` without a cgroup, and a limits table that is empty. -/
def oneRunning : Process Kernel where
  files := fun _ => none
  world :=
    { unified := true
      roots := fun _ => true
      cgroups := fun _ _ => none
      initial := fun _ => [109]
      folders := fun _ => none
      self := 9
      faults := fun _ => false }
  services := .ofList [⟨.ofBytes [114], .ofBytes [97], 5, true⟩]
  jobs := .blank 4 4
  envs := .blank 20 20
  limits := .blank 4 4
  reformatState := true
  reformatLimits := true

theorem oneRunning_limitable : Limitable (.ofBytes [97]) oneRunning where
  running := ⟨⟨.ofBytes [114], .ofBytes [97], 5, true⟩, by decide⟩
  notNull := rfl
  honest := ⟨by decide, by decide⟩
  noFaults := fun _ => rfl

theorem oneRunning_unlimited : Unlimited (.ofBytes [97]) oneRunning := ⟨rfl, rfl, rfl⟩

/-- Half a core with 4096 bytes, then two cores alone. -/
def cpuTwice : List LimitOp :=
  [.setCpuResourceLimit 50000 true (.standard 4096), .setCpuResourceLimit 200000 false
    (.standard 0)]

theorem limits_mirror_cpuTwice :
    (∃ p', runs (LimitOp.step ((Calls.allWell 1).within Kernel) (.ofBytes [97])) cpuTwice
      oneRunning = some p') ∧
    (Every (LimitOp.step ((Calls.allWell 1).within Kernel) (.ofBytes [97]))
      (fun _ _ p' => Mirrors (.ofBytes [97]) p') cpuTwice oneRunning ↔
    Every (LimitOp.step ((Calls.allWell 1).within Kernel) (.ofBytes [97]))
      (fun p op _ => op.Kept (.ofBytes [97]) p) cpuTwice oneRunning) :=
  limits_mirror_iff _ _ _ _ oneRunning_limitable

/-- One core, then 4096 bytes: the entry says that the cpu has no limit, the file says one
core. -/
theorem not_limits_mirror :
    ¬∀ (base : Calls Kernel) (serviceName : CStr) (ops : List LimitOp) (p : Process Kernel),
      Limitable serviceName p → Unlimited serviceName p →
        Every (LimitOp.step base serviceName) (fun _ _ p' => Mirrors serviceName p') ops p := by
  intro h
  have hall := h ((Calls.allWell 1).within Kernel) (.ofBytes [97])
    [.setCpuResourceLimit 100000 false (.standard 0), .setMemoryLimit (.standard 4096)]
    oneRunning oneRunning_limitable oneRunning_unlimited
  obtain ⟨-, hsecond⟩ := every_cons.mp hall _ rfl
  obtain ⟨hmirrors, -⟩ := every_cons.mp hsecond _ rfl
  exact absurd hmirrors.cpu (by decide)

end MiniRunner
