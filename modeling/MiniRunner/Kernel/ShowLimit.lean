import MiniRunner.Kernel.Limits

/-!
# Showing the limits

`show_limit.c` reads the control files back. On version 2 it shows what
`limitCpuAndMemory` wrote (`showLimit_unified`). On version 1 each of its three branches
opens a file that is not there: a `memory.max`, or the `cpu.cfs_period_u` that a short buffer
leaves of a path. It shows nothing, whatever was written (`showLimit_v1`).
-/

namespace MiniRunner

open Clib

namespace Kernel

/-! ## Reading a control file -/

/-- What `printRsLimit` is given: the memory, if it is not `N/A`, and the quota and the
period that the cpu limit is computed from, if it is not the constant 0. -/
structure Shown where
  memory : Option (BitVec 128)
  cpu : Option (BitVec 32 × BitVec 32)
  deriving DecidableEq

/-- `open` and one `read` of a control file in the directory of a service under `c`, which
has the files of its controller only. The kernel ends the text with a newline. -/
def readFile (c : Controller) (f : ControlFile) (serviceName : CStr) (size : Nat) (k : Kernel) :
    Option Bytes :=
  if f.controller = c then
    (k.cgroups c serviceName).map fun g => (k.text f g ++ [newline]).take size
  else none

def giveString (string : Bytes) (startIndex endingIndex : Nat) : CStr :=
  .ofBytes ((string.take endingIndex).drop startIndex)

/-- The loop over `cpu.max`: at each blank, the numbers before and behind it. A blank is
never the last byte, which is the newline. -/
def parseCpu (cpuBuff : Bytes) : BitVec 32 × BitVec 32 :=
  (List.range cpuBuff.length).foldl (fun limits i =>
    if cpuBuff[i]? = some space then
      (atoi (giveString cpuBuff 0 i), atoi (giveString cpuBuff (i + 1) (cpuBuff.length - 1)))
    else limits) (0, 1)

/-! ## Showing -/

/-- The version 2 half of `show`. -/
def showUnified (serviceName : CStr) (k : Kernel) : Int × Option Shown :=
  if (k.cgroups .unified serviceName).isNone then (0, none)
  else
    match readFile .unified .memoryMax serviceName 49 k,
      readFile .unified .cpuMax serviceName 99 k with
    | some buff, some cpuBuff =>
      if parseCpu cpuBuff = (0, 1) then (-1, none)
      else (0, some ⟨some (atoll128 (.ofBytes buff)), some (parseCpu cpuBuff)⟩)
    | _, _ => (-1, none)

/-- The memory limit of version 1, from the `memory.max` of the memory group. -/
def readMemoryV1 (serviceName : CStr) (k : Kernel) : Option (BitVec 128) :=
  (readFile .memory .memoryMax serviceName 50 k).map fun memBuff => atoll128 (.ofBytes memBuff)

def periodName : CStr := .ofText "cpu.cfs_period_us"

def quotaName : CStr := .ofText "cpu.cfs_quota_us"

/-- The file of a name in the cpu group, of the two that the program writes. -/
def namedFile (name : Bytes) : Option ControlFile :=
  if name = periodName.bytes then some .cpuCfsPeriodUs
  else if name = quotaName.bytes then some .cpuCfsQuotaUs
  else none

/-- The cpu limit of version 1. The path for the quota is the one of the period, in a buffer of
the length of the quota's. A shorter text leaves the end of a buffer unset, behind the newline
that `atoi` stops at. -/
def readCpuV1 (serviceName : CStr) (k : Kernel) : Option (BitVec 32 × BitVec 32) := do
  let cpuBuff ← readFile .cpu .cpuCfsPeriodUs serviceName 50 k
  let quota ← namedFile (periodName.bytes.take quotaName.len)
  let cpuQuotaBuff ← readFile .cpu quota serviceName 50 k
  pure (atoi (.ofBytes cpuBuff), atoi (.ofBytes cpuQuotaBuff))

/-- How `show` ends when its files could be read, and when one could not. -/
def shownOr (s : Option Shown) : Int × Option Shown :=
  if s.isSome then (0, s) else (-1, none)

/-- The version 1 half of `show`. `found` is 1 when the memory group is missing and 2 when
the cpu group is, and the branches read the group that it names. -/
def showV1 (serviceName : CStr) (k : Kernel) : Int × Option Shown :=
  let noMemory := (k.cgroups .memory serviceName).isNone
  let noCpu := (k.cgroups .cpu serviceName).isNone
  let notFound := noMemory.toNat + noCpu.toNat
  let found := if noCpu then 2 else noMemory.toNat
  if notFound > 1 ∧ found = 0 then (0, none)
  else if notFound = 1 ∧ found > 0 then
    if found = 1 then shownOr ((readMemoryV1 serviceName k).map fun m => ⟨some m, none⟩)
    else shownOr ((readCpuV1 serviceName k).map fun cpu => ⟨none, some cpu⟩)
  else
    shownOr do
      let m ← readMemoryV1 serviceName k
      let cpu ← readCpuV1 serviceName k
      pure ⟨some m, some cpu⟩

/-- `show`. -/
def showLimit (serviceName : CStr) (k : Kernel) : Int × Option Shown :=
  if k.unified then showUnified serviceName k else showV1 serviceName k

/-! ## Version 1 -/

section v1

variable {serviceName : CStr} {k : Kernel}

theorem readMemoryV1_eq_none : readMemoryV1 serviceName k = none := rfl

theorem readCpuV1_eq_none : readCpuV1 serviceName k = none := by
  have hcut : namedFile (periodName.bytes.take quotaName.len) = none := by decide
  unfold readCpuV1
  cases readFile .cpu .cpuCfsPeriodUs serviceName 50 k with
  | none => rfl
  | some cpuBuff => simp [hcut]

/-- **Nothing is shown on version 1**, whichever of the groups exist. -/
theorem showLimit_v1 (h : k.unified = false) : showLimit serviceName k = (-1, none) := by
  have hunified : ¬k.unified = true := by simp [h]
  rw [showLimit, if_neg hunified]
  unfold showV1
  cases hcpu : (k.cgroups .cpu serviceName).isNone <;>
    cases hmem : (k.cgroups .memory serviceName).isNone <;>
      simp [readCpuV1_eq_none, readMemoryV1_eq_none, shownOr]

end v1

/-! ## Version 2 -/

section unified

variable {serviceName : CStr} {k : Kernel}

theorem foldl_range_single {β : Type} {p : Nat → Prop} [DecidablePred p] {f : Nat → β}
    {b : β} {n i : Nat} (hi : i < n) (hp : ∀ j, p j ↔ j = i) :
    (List.range n).foldl (fun acc j => if p j then f j else acc) b = f i := by
  induction n with
  | zero => exact absurd hi (Nat.not_lt_zero i)
  | succ n ih =>
    rw [List.range_succ, List.foldl_append, List.foldl_cons, List.foldl_nil]
    by_cases hlast : n = i
    · rw [if_pos ((hp n).mpr hlast), hlast]
    · rw [if_neg (fun h => hlast ((hp n).mp h)), ih (by omega)]

theorem getElem?_eq_space_iff {front rest : Bytes} (hfront : space ∉ front)
    (hrest : space ∉ rest) (i : Nat) :
    (front ++ space :: rest)[i]? = some space ↔ i = front.length := by
  rcases Nat.lt_trichotomy i front.length with hlt | heq | hgt
  · rw [List.getElem?_append_left hlt]
    exact iff_of_false (fun h => hfront (List.mem_of_getElem? h)) hlt.ne
  · simp [heq]
  · rw [List.getElem?_append_right hgt.le]
    obtain ⟨d, hd⟩ := Nat.exists_eq_add_of_lt hgt
    rw [show i - front.length = d + 1 by omega, List.getElem?_cons_succ]
    exact iff_of_false (fun h => hrest (List.mem_of_getElem? h)) hgt.ne'

theorem parseCpu_eq {quota period : Bytes} (hquota : space ∉ quota) (hperiod : space ∉ period) :
    parseCpu (quota ++ space :: (period ++ [newline])) =
      (atoi (.ofBytes quota), atoi (.ofBytes period)) := by
  have hrest : space ∉ period ++ [newline] := by simpa using ⟨hperiod, by decide⟩
  have hone := getElem?_eq_space_iff hquota hrest
  rw [parseCpu, foldl_range_single (by simp) hone]
  simp only [giveString, List.drop_zero, List.take_left, Prod.mk.injEq, true_and]
  congr 2
  rw [List.length_append, List.length_cons, List.length_append, List.length_singleton,
    ← List.singleton_append, ← List.append_assoc, ← List.append_assoc,
    List.take_left' (by simp), List.drop_left' (by simp)]

theorem atoi_fmtNat {n : Nat} (h : n < 2 ^ 31) :
    atoi (.ofBytes (fmtNat n)) = BitVec.ofNat 32 n := by
  rw [atoi, CStr.ofBytes_bytes_of_noNul (notMem_fmtNat (by decide)), strtol_fmtNat,
    clamp64_eq (by omega) (by omega), BitVec.ofInt_natCast]

theorem atoll128_fmtNat_newline {n : Nat} (h : n < 2 ^ 63) :
    atoll128 (.ofBytes (fmtNat n ++ [newline])) = BitVec.ofNat 128 n := by
  have hnul : (0 : UInt8) ∉ fmtNat n ++ [newline] := by
    simpa using ⟨notMem_fmtNat (by decide), by decide⟩
  rw [atoll128, CStr.ofBytes_bytes_of_noNul hnul, strtol_fmtNat_append n (by decide),
    clamp64_eq (by omega) (by omega), BitVec.ofInt_natCast]

theorem readFile_told {f : ControlFile} {bs : Bytes} {size : Nat}
    (h : k.lastWritten f serviceName = some bs) (hlen : bs.length < size) :
    readFile f.controller f serviceName size k = some (bs ++ [newline]) := by
  obtain ⟨g, hg, hbs⟩ := Option.bind_eq_some_iff.mp h
  rw [readFile, if_pos rfl, hg, Option.map_some, text, hbs, Option.getD_some,
    List.take_of_length_le (by simpa using hlen)]

/-- **Version 2 shows what was written**: the quota beside its period, and the amount. -/
theorem showLimit_unified {q : BitVec 64} {memBytes : Amount}
    (h : Limited serviceName true (some (cpuText true q)) (some (amountText memBytes)) k)
    (hq : q.toNat < 2 ^ 31) (hm : memBytes.Unsigned)
    (hmax : memBytes.recorded.toNat < 2 ^ 63) :
    showLimit serviceName k =
      (0, some ⟨some memBytes.recorded, some (q.setWidth 32, 100000)⟩) := by
  have hmem : readFile .unified .memoryMax serviceName 49 k =
      some (fmtNat memBytes.recorded.toNat ++ [newline]) := by
    refine readFile_told (f := .memoryMax) (h.memory.trans ?_) ?_
    · rw [(amountText_eq_iff memBytes).mpr hm]
    · exact lt_of_le_of_lt (length_fmtNat_le (k := 19) (by decide) (by omega)) (by decide)
  have hcpu : readFile .unified .cpuMax serviceName 99 k = some (cpuText true q ++ [newline]) := by
    refine readFile_told (f := .cpuMax) h.cpu ?_
    have := length_fmtNat_le (n := q.toNat) (k := 10) (by decide) (by omega)
    simp [cpuText, quotaText, periodText]
    omega
  have hparse : parseCpu (cpuText true q ++ [newline]) = (q.setWidth 32, 100000) := by
    have htext : cpuText true q ++ [newline] =
        fmtNat q.toNat ++ space :: (fmtNat 100000 ++ [newline]) := by
      rw [show fmtNat 100000 = periodText.tail from rfl, cpuText, quotaText, List.append_assoc]
      rfl
    rw [htext, parseCpu_eq (notMem_fmtNat (by decide)) (notMem_fmtNat (by decide)),
      atoi_fmtNat hq, atoi_fmtNat (by decide), BitVec.ofNat_toNat]
    rfl
  have hdir : (k.cgroups .unified serviceName).isNone = false := by
    obtain ⟨g, hg, -⟩ := Option.bind_eq_some_iff.mp h.cpu
    rw [show k.cgroups .unified serviceName = some g from hg, Option.isNone_some]
  rw [showLimit, if_pos h.version, showUnified, hdir, hmem, hcpu]
  simp only [Bool.false_eq_true, if_false, hparse]
  have hperiod : (q.setWidth 32, (100000 : BitVec 32)) ≠ (0, 1) := fun heq => by
    simp at heq
  rw [if_neg hperiod, atoll128_fmtNat_newline hmax, BitVec.ofNat_toNat, BitVec.setWidth_eq]

end unified

/-! ## Calls keep the version -/

/-- A function that always returns and leaves the version of the cgroups as it is. -/
def KeepsVersion (x : Exec Kernel Int) : Prop :=
  ∀ k, Exec.wp x (fun _ k' => k'.unified = k.unified) (fun _ _ => False) k

namespace KeepsVersion

theorem attempt {c : KernelCall} {possible : Kernel → Bool} {f : Kernel → Kernel}
    (h : ∀ k, (f k).unified = k.unified) : KeepsVersion (attempt c possible f) := by
  intro k
  rw [wp_attempt]
  split
  · rfl
  · exact h k

theorem andThen {x rest : Exec Kernel Int} (hx : KeepsVersion x) (hrest : KeepsVersion rest) :
    KeepsVersion (x >>= fun rc => if rc ≠ 0 then pure (-1) else rest) := by
  intro k
  rw [Exec.wp_bind]
  refine Exec.wp_mono (hx k) (fun rc k₁ h₁ => ?_) fun _ _ => id
  split
  · exact (Exec.wp_pure _).mpr h₁
  · exact Exec.wp_mono (hrest k₁) (fun _ _ h₂ => h₂.trans h₁) fun _ _ => id

theorem ensureDirectory (c : Controller) (name : CStr) :
    KeepsVersion (ensureDirectory c name) := by
  intro k
  rw [wp_ensureDirectory]
  split
  · rfl
  · split <;> rfl

theorem ensureRoot (c : Controller) : KeepsVersion (ensureRoot c) := by
  intro k
  rw [wp_ensureRoot]
  split
  · rfl
  · split <;> rfl

theorem basicV1Setup (name : CStr) : KeepsVersion (basicV1Setup name) :=
  (ensureRoot .cpu).andThen ((ensureRoot .memory).andThen
    ((ensureDirectory .cpu name).andThen (ensureDirectory .memory name)))

theorem writeProcs (c : Controller) (name : CStr) (pid : BitVec 32) :
    KeepsVersion (writeProcs c name pid) := attempt fun _ => rfl

theorem write (f : ControlFile) (name : CStr) (bs : Bytes) : KeepsVersion (write f name bs) :=
  attempt fun _ => rfl

theorem limitMemoryV1 (name : CStr) (pid : BitVec 32) (memBytes : Amount) :
    KeepsVersion (limitMemoryV1 name pid memBytes) :=
  (writeProcs .memory name pid).andThen (write .memoryLimitInBytes name _)

theorem limitCpuAndMemory (name : CStr) (pid : BitVec 32) (cpuLimit : BitVec 64)
    (memBytes : Amount) : KeepsVersion (limitCpuAndMemory name pid cpuLimit true memBytes) := by
  intro k
  simp only [Kernel.limitCpuAndMemory, Exec.wp_bind, Exec.wp_get]
  split
  · exact (ensureDirectory .unified name).andThen ((writeProcs .unified name pid).andThen
      ((write .cpuMax name _).andThen (write .memoryMax name _))) k
  · exact (basicV1Setup name).andThen ((writeProcs .cpu name pid).andThen
      ((write .cpuCfsQuotaUs name _).andThen
        ((write .cpuCfsPeriodUs name _).andThen (limitMemoryV1 name pid memBytes)))) k

end KeepsVersion

/-! ## Writing, then showing -/

section shows

variable {serviceName : CStr} {k k' : Kernel}

/-- The cpu limit is computed from a quota and the period that was written with it. -/
def ShowsCpu (serviceName : CStr) (q : BitVec 64) (k : Kernel) : Prop :=
  ∃ memory, showLimit serviceName k = (0, some ⟨memory, some (q.setWidth 32, 100000)⟩)

def ShowsMemory (serviceName : CStr) (memBytes : Amount) (k : Kernel) : Prop :=
  ∃ cpu, showLimit serviceName k = (0, some ⟨some memBytes.recorded, cpu⟩)

/-- `show` reads back what was written, also when only one of the groups is left. -/
structure ShowsWritten (serviceName : CStr) (q : BitVec 64) (memBytes : Amount) (k : Kernel) :
    Prop where
  cpu : ShowsCpu serviceName q k
  memory : ShowsMemory serviceName memBytes k
  cpuOnly : ShowsCpu serviceName q (setCgroup .memory serviceName none k)
  memoryOnly : ShowsMemory serviceName memBytes (setCgroup .cpu serviceName none k)

theorem limitCpuAndMemory_shown (hv2 : k.unified = true) (hfaults : ∀ c, k.faults c = false)
    (pid : BitVec 32) {q : BitVec 64} {memBytes : Amount} (hq : q.toNat < 2 ^ 31)
    (hm : memBytes.Unsigned) (hmax : memBytes.recorded.toNat < 2 ^ 63) :
    Exec.wp (limitCpuAndMemory serviceName pid q true memBytes)
      (fun rc k' => rc = 0 ∧ ShowsCpu serviceName q k' ∧ ShowsMemory serviceName memBytes k')
      (fun _ _ => False) k := by
  have h : Limited serviceName true _ _ k := ⟨hv2, hfaults, rfl, rfl⟩
  refine Exec.wp_mono (h.limitCpuAndMemory pid q true memBytes) ?_ fun _ _ => id
  rintro rc k' ⟨hrc, hlimited⟩
  have hshown := showLimit_unified hlimited hq hm hmax
  exact ⟨hrc, ⟨_, hshown⟩, ⟨_, hshown⟩⟩

theorem not_showsCpu_v1 (hv1 : k.unified = false) (q : BitVec 64) :
    ¬ShowsCpu serviceName q k := by
  rintro ⟨memory, h⟩
  rw [showLimit_v1 hv1] at h
  cases h

theorem not_showsMemory_v1 (hv1 : k.unified = false) (memBytes : Amount) :
    ¬ShowsMemory serviceName memBytes k := by
  rintro ⟨cpu, h⟩
  rw [showLimit_v1 hv1] at h
  cases h

/-- **On version 1 no limit is shown**: whatever was written successfully, neither value
comes back, and neither does the value of the one group that is left. -/
theorem limitCpuAndMemory_not_shown (pid : BitVec 32) (q : BitVec 64) (memBytes : Amount)
    (hv1 : k.unified = false)
    (hrun : (limitCpuAndMemory serviceName pid q true memBytes).run k = .ok 0 k') :
    ¬ShowsCpu serviceName q k' ∧ ¬ShowsMemory serviceName memBytes k' ∧
      ¬ShowsCpu serviceName q (setCgroup .memory serviceName none k') ∧
      ¬ShowsMemory serviceName memBytes (setCgroup .cpu serviceName none k') := by
  have hv1' : k'.unified = false :=
    (Exec.wp_run_ok (KeepsVersion.limitCpuAndMemory serviceName pid q memBytes k) hrun).trans hv1
  have hv1'' (c : Controller) : (setCgroup c serviceName none k').unified = false := hv1'
  exact ⟨not_showsCpu_v1 hv1' q, not_showsMemory_v1 hv1' memBytes,
    not_showsCpu_v1 (hv1'' .memory) q, not_showsMemory_v1 (hv1'' .cpu) memBytes⟩

def blankV1 : Kernel where
  unified := false
  roots := fun _ => true
  cgroups := fun _ _ => none
  initial := fun _ => [109]
  folders := fun _ => none
  self := 9
  faults := fun _ => false

/-- What writing half a core and 4096 bytes leaves there. -/
def limitedV1 : Kernel :=
  (asCall (limitCpuAndMemory (.ofBytes [97]) 5 50000 true (.standard 4096)) blankV1).2

theorem run_blankV1 :
    (limitCpuAndMemory (.ofBytes [97]) 5 50000 true (.standard 4096)).run blankV1 =
      .ok 0 limitedV1 := rfl

theorem limitCpuAndMemory_not_shown_halfCore :
    (limitCpuAndMemory (.ofBytes [97]) 5 50000 true (.standard 4096)).run blankV1 =
        .ok 0 limitedV1 ∧
      ¬ShowsCpu (.ofBytes [97]) 50000 limitedV1 ∧
      ¬ShowsMemory (.ofBytes [97]) (.standard 4096) limitedV1 ∧
      ¬ShowsCpu (.ofBytes [97]) 50000 (setCgroup .memory (.ofBytes [97]) none limitedV1) ∧
      ¬ShowsMemory (.ofBytes [97]) (.standard 4096)
        (setCgroup .cpu (.ofBytes [97]) none limitedV1) :=
  ⟨run_blankV1, limitCpuAndMemory_not_shown 5 50000 (.standard 4096) rfl run_blankV1⟩

/-- Half a core and 4096 bytes, written without a failure, are not shown. -/
theorem not_showsWritten :
    ¬∀ (serviceName : CStr) (pid : BitVec 32) (q : BitVec 64) (memBytes : Amount)
      (k k' : Kernel), 0 < q.toNat → q.toNat < 2 ^ 31 → memBytes.Unsigned →
        0 < memBytes.recorded.toNat → memBytes.recorded.toNat < 2 ^ 63 → k.unified = false →
        (limitCpuAndMemory serviceName pid q true memBytes).run k = .ok 0 k' →
        ShowsWritten serviceName q memBytes k' := by
  intro h
  obtain ⟨memory, hshown⟩ := (h (.ofBytes [97]) 5 50000 (.standard 4096) blankV1 limitedV1
    (by decide) (by decide) rfl (by decide) (by decide) rfl run_blankV1).cpu
  rw [showLimit_v1 rfl] at hshown
  cases hshown

end shows

end Kernel

end MiniRunner
