import MiniRunner.Ops.Bounds

/-!
# The bounds of the env array

`loadEnv` and `addEnv` grow the array by a number of slots and record the number of bytes;
`removeEnv` frees the array with its last entry and leaves the capacity as it is. Until one
of the two happens the array is the one of the constructor, and the capacity is the number
of its slots. After either it is not.
-/

namespace MiniRunner

open Clib Cells

namespace Bounds

/-! ## The operations -/

section envs

variable (junk : Nat → Env) (envs : Cells Env)

def loadEnv (newEnv : Env) : Except Halt (Int × Cells Env) :=
  envs.enter envGrowth (envClash · newEnv) newEnv junk

def addEnv (name key value : CStr) : Except Halt (Int × Cells Env) := do
  match ← envs.find (isEnv name key) with
  | some _ => pure (0, envs)
  | none =>
    let envs ← (envs.reserve envGrowth junk).push ⟨name, key, value⟩
    pure (0, envs)

def updateEnv (name key value : CStr) : Except Halt (Int × Cells Env) := do
  match ← envs.find (isEnv name key) with
  | none => pure (-1, envs)
  | some i =>
    let current ← envs.read i
    let envs ← envs.write i { current with value := value }
    pure (0, envs)

def removeEnv (name key : CStr) : Except Halt (Int × Cells Env) := do
  match ← envs.find (isEnv name key) with
  | none => pure (-1, envs)
  | some i =>
    let envs ← envs.removeAt i
    pure (0, if envs.count = 0 then envs.free else envs)

end envs

/-! ## Runs -/

inductive EnvArrayOp where
  | load (newEnv : Env)
  | add (name key value : CStr)
  | update (name key value : CStr)
  | remove (name key : CStr)

def startEnvs (junk : Nat → Env) : Cells Env :=
  ⟨some ((List.range initialScaleOfEnv).map junk), 0, initialScaleOfEnv⟩

namespace EnvArrayOp

def exec (junk : Nat → Env) (envs : Cells Env) : EnvArrayOp → Except Halt (Int × Cells Env)
  | load newEnv => loadEnv junk envs newEnv
  | add name key value => addEnv junk envs name key value
  | update name key value => updateEnv envs name key value
  | remove name key => removeEnv envs name key

/-- One operation, with what the slots hold that it may add; a run ends where the process
does. -/
def step (a : EnvArrayOp × (Nat → Env)) (envs : Cells Env) : Option (Cells Env) :=
  match a.1.exec a.2 envs with
  | .ok r => some r.2
  | .error _ => none

/-- **Every index is below the number of allocated slots**, and so is the capacity that the
operation leaves, or equal to it. -/
def InBounds (envs : Cells Env) (a : EnvArrayOp × (Nat → Env)) : Prop :=
  Cells.Stays (a.1.exec a.2 envs) ∧ ∀ envs', step a envs = some envs' →
    envs'.capacity ≤ envs'.slots

def Fits (envs : Cells Env) : EnvArrayOp → Prop
  | load newEnv => (∃ e ∈ envs.entries, envClash e newEnv = true) ∨ envs.count < envs.capacity
  | add name key _ => (∃ e ∈ envs.entries, isEnv name key e = true) ∨ envs.count < envs.capacity
  | update _ _ _ => True
  | remove name key => envs.count ≠ 1 ∨ ∀ e ∈ envs.entries, isEnv name key e = false

end EnvArrayOp

/-- The array is still the one of the constructor. -/
structure EnvsTracked (envs : Cells Env) : Prop where
  le_capacity : envs.count ≤ envs.capacity
  capacity : envs.capacity = initialScaleOfEnv
  slots : envs.slots = initialScaleOfEnv

/-! ## What each operation does -/

/-- It returns and leaves the array where it is. -/
def Keeps (r : Except Halt (Int × Cells Env)) : Prop := ∃ b, r = .ok b ∧ EnvsTracked b.2

/-- It returns, and the capacity is more than was allocated. -/
def Overstates (r : Except Halt (Int × Cells Env)) : Prop :=
  ∃ b, r = .ok b ∧ b.2.slots < b.2.capacity

section ops

variable {junk : Nat → Env} {envs : Cells Env}

theorem EnvsTracked.le_slots (h : EnvsTracked envs) : envs.count ≤ envs.slots := by
  have hcap := h.le_capacity
  rw [h.capacity] at hcap
  rwa [h.slots]

theorem insert_of_fresh (h : EnvsTracked envs) {clash : Env → Bool} (x : Env)
    (hno : ∀ e ∈ envs.entries, clash e = false) :
    envs.insert envGrowth clash x junk =
      ((envs.reserve envGrowth junk).push x).map fun t => (0, t) := by
  rw [insert_eq, List.findIdx?_eq_none_iff.mpr hno, if_pos h.le_slots]

theorem keeps_insert (junk : Nat → Env) (h : EnvsTracked envs) {clash : Env → Bool} (x : Env)
    (hfits : (∃ e ∈ envs.entries, clash e = true) ∨ envs.count < envs.capacity) :
    Keeps (envs.insert envGrowth clash x junk) := by
  by_cases hclash : ∃ e ∈ envs.entries, clash e = true
  · obtain ⟨i, hi⟩ := Option.isSome_iff_exists.mp (List.findIdx?_isSome.trans
      (List.any_eq_true.mpr hclash))
    rw [insert_eq, hi]
    exact ⟨_, rfl, h⟩
  · have hlt := hfits.resolve_left hclash
    have hslot : envs.count < envs.slots := by rw [h.slots, ← h.capacity]; exact hlt
    rw [insert_of_fresh h x (by simpa using hclash), reserve_of_room hlt, push_eq hslot]
    exact ⟨_, rfl, hlt, h.capacity, List.length_set.trans h.slots⟩

/-- The growth records eight times the slots it allocates. -/
theorem overstates_insert (junk : Nat → Env) (h : EnvsTracked envs) {clash : Env → Bool} (x : Env)
    (hfits : ¬((∃ e ∈ envs.entries, clash e = true) ∨ envs.count < envs.capacity)) :
    Overstates (envs.insert envGrowth clash x junk) := by
  obtain ⟨hclash, hfull⟩ := not_or.mp hfits
  have hcount : envs.count = initialScaleOfEnv := by
    have := h.le_capacity
    have := h.capacity
    omega
  rw [insert_of_fresh h x (by simpa using hclash), reserve_of_full (Nat.le_of_not_lt hfull)]
  have hslots (k : Nat) : ({ envs.realloc junk (envGrowth envs.capacity envs.count).2 with
      capacity := k } : Cells Env).slots = envs.capacity + initialScaleOfEnv :=
    slots_realloc junk _
  have hroom : envs.count < envs.capacity + initialScaleOfEnv := by
    rw [hcount, h.capacity]
    decide
  rw [push_eq (by rwa [hslots])]
  refine ⟨_, rfl, ?_⟩
  change List.length (List.set _ _ _) < (envGrowth envs.capacity envs.count).1
  rw [List.length_set]
  refine (hslots 0).trans_lt ?_
  rw [hcount, h.capacity]
  decide

theorem addEnv_eq (name key value : CStr) : addEnv junk envs name key value =
    (envs.insert envGrowth (isEnv name key) ⟨name, key, value⟩ junk).map fun r => (0, r.2) := by
  rw [addEnv, Cells.insert]
  cases envs.find (isEnv name key) with
  | error e => rfl
  | ok o =>
    cases o with
    | some i => rfl
    | none =>
      simp only [bind, Except.bind]
      cases (envs.reserve envGrowth junk).push ⟨name, key, value⟩ <;> rfl

theorem keeps_updateEnv (h : EnvsTracked envs) (name key value : CStr) :
    Keeps (updateEnv envs name key value) := by
  rw [updateEnv]
  rcases find_cases (isEnv name key) envs with
    ⟨i, hfind, -, hslot, -⟩ | ⟨hfind, -⟩ | ⟨-, hlt, -⟩
  · rw [hfind]
    simp only [bind, Except.bind]
    rw [read_eq hslot]
    simp only
    rw [write_eq hslot]
    exact ⟨_, rfl, h.le_capacity, h.capacity, List.length_set.trans h.slots⟩
  · rw [hfind]
    exact ⟨_, rfl, h⟩
  · have := h.le_slots
    omega

/-- What `removeEnv` does when it finds the pair. -/
theorem removeEnv_of_found (h : EnvsTracked envs) {name key : CStr}
    (hfound : ∃ e ∈ envs.entries, isEnv name key e = true) :
    ∃ l : List Env, removeEnv envs name key = .ok (0, if envs.count - 1 = 0 then
        ⟨none, envs.count - 1, envs.capacity⟩ else ⟨some l, envs.count - 1, envs.capacity⟩) ∧
      l.length = envs.slots ∧ 0 < envs.count := by
  obtain ⟨i, hi⟩ := Option.isSome_iff_exists.mp (List.findIdx?_isSome.trans
    (List.any_eq_true.mpr hfound))
  obtain ⟨hlt, hslot, -⟩ := get_of_findIdx? hi
  have hle := h.le_slots
  have hlast : i + (envs.count - 1 - i) < envs.cells.length := by
    change _ < envs.slots
    omega
  refine ⟨_, ?_, length_shifted hlast, by omega⟩
  rw [removeEnv, find_eq, hi]
  simp only [bind, Except.bind, removeAt_eq hlt hle]
  rfl

theorem removeEnv_of_absent (h : EnvsTracked envs) {name key : CStr}
    (hno : ∀ e ∈ envs.entries, isEnv name key e = false) :
    removeEnv envs name key = .ok (-1, envs) := by
  rw [removeEnv, find_eq, List.findIdx?_eq_none_iff.mpr hno, if_pos h.le_slots]
  rfl

theorem keeps_removeEnv (h : EnvsTracked envs) {name key : CStr}
    (hfits : envs.count ≠ 1 ∨ ∀ e ∈ envs.entries, isEnv name key e = false) :
    Keeps (removeEnv envs name key) := by
  by_cases hno : ∀ e ∈ envs.entries, isEnv name key e = false
  · exact ⟨_, removeEnv_of_absent h hno, h⟩
  · obtain ⟨l, hrun, hlen, hpos⟩ :=
      removeEnv_of_found h (by simpa using hno)
    have hne := hfits.resolve_right hno
    rw [hrun, if_neg (by omega)]
    exact ⟨_, rfl, Nat.le_trans (Nat.sub_le _ _) h.le_capacity, h.capacity, hlen.trans h.slots⟩

theorem overstates_removeEnv (h : EnvsTracked envs) {name key : CStr}
    (hfits : ¬(envs.count ≠ 1 ∨ ∀ e ∈ envs.entries, isEnv name key e = false)) :
    Overstates (removeEnv envs name key) := by
  obtain ⟨hone, hno⟩ := not_or.mp hfits
  obtain ⟨l, hrun, -, -⟩ := removeEnv_of_found h (by simpa using hno)
  rw [hrun, if_pos (by omega)]
  refine ⟨_, rfl, ?_⟩
  change 0 < envs.capacity
  rw [h.capacity]
  decide

end ops

/-! ## Along a run -/

section run

variable {envs envs' : Cells Env} {a : EnvArrayOp × (Nat → Env)}

theorem keeps_exec (h : EnvsTracked envs) (hfits : a.1.Fits envs) :
    Keeps (a.1.exec a.2 envs) := by
  obtain ⟨op, junk⟩ := a
  cases op with
  | load newEnv =>
    rw [EnvArrayOp.exec, loadEnv, enter_eq]
    exact keeps_insert junk h newEnv hfits
  | add name key value =>
    obtain ⟨r, hr, hkept⟩ := keeps_insert junk h ⟨name, key, value⟩ hfits
    rw [EnvArrayOp.exec, addEnv_eq, hr]
    exact ⟨_, rfl, hkept⟩
  | update name key value => exact keeps_updateEnv h name key value
  | remove name key => exact keeps_removeEnv h hfits

theorem overstates_exec (h : EnvsTracked envs) (hfits : ¬a.1.Fits envs) :
    Overstates (a.1.exec a.2 envs) := by
  obtain ⟨op, junk⟩ := a
  cases op with
  | load newEnv =>
    rw [EnvArrayOp.exec, loadEnv, enter_eq]
    exact overstates_insert junk h newEnv hfits
  | add name key value =>
    obtain ⟨r, hr, hmore⟩ := overstates_insert junk h ⟨name, key, value⟩ hfits
    rw [EnvArrayOp.exec, addEnv_eq, hr]
    exact ⟨_, rfl, hmore⟩
  | update name key value => exact absurd trivial hfits
  | remove name key => exact overstates_removeEnv h hfits

theorem EnvArrayOp.inBounds_iff (h : EnvsTracked envs) : InBounds envs a ↔ a.1.Fits envs := by
  constructor
  · rintro ⟨-, hle⟩
    refine not_not.mp fun hfits => ?_
    obtain ⟨r, hr, hmore⟩ := overstates_exec h hfits
    have := hle r.2 (by rw [step, hr])
    omega
  · intro hfits
    obtain ⟨r, hr, hkept⟩ := keeps_exec h hfits
    refine ⟨by rw [hr]; trivial, fun envs' hstep => ?_⟩
    rw [step, hr] at hstep
    cases hstep
    rw [hkept.capacity, hkept.slots]

theorem EnvsTracked.step (h : EnvsTracked envs) (hfits : a.1.Fits envs)
    (hstep : EnvArrayOp.step a envs = some envs') : EnvsTracked envs' := by
  obtain ⟨r, hr, hkept⟩ := keeps_exec h hfits
  rw [EnvArrayOp.step, hr] at hstep
  cases hstep
  exact hkept

theorem envsTracked_start (junk : Nat → Env) : EnvsTracked (startEnvs junk) where
  le_capacity := Nat.zero_le _
  capacity := rfl
  slots := by simp [startEnvs, slots]

end run

/-- **The env array is as large as its capacity says**, and every access is in it, in any run
from the constructor on, if and only if no operation has to grow it and none takes the last
entry. -/
theorem envs_inBounds_iff (junk : Nat → Env) (ops : List (EnvArrayOp × (Nat → Env))) :
    Guarded EnvArrayOp.step EnvArrayOp.InBounds ops (startEnvs junk) ↔
      Guarded EnvArrayOp.step (fun envs a => a.1.Fits envs) ops (startEnvs junk) :=
  guarded_congr EnvArrayOp.inBounds_iff (fun h hfits hstep => h.step hfits hstep) ops
    (envsTracked_start junk)

def blankEnv : Nat → Env := fun _ => ⟨.empty, .empty, .empty⟩

/-- `mrn add-env a k v remove-env a k add-env a k v`: the second pair is written to NULL. -/
theorem not_envs_inBounds : ¬Guarded EnvArrayOp.step EnvArrayOp.InBounds
    [(.add (.ofBytes [97]) (.ofBytes [107]) (.ofBytes [118]), blankEnv),
      (.remove (.ofBytes [97]) (.ofBytes [107]), blankEnv),
      (.add (.ofBytes [97]) (.ofBytes [107]) (.ofBytes [118]), blankEnv)]
    (startEnvs blankEnv) := by
  rintro ⟨-, h⟩
  obtain ⟨-, h⟩ := h _ rfl
  exact (h _ rfl).1.1

/-! ## The same operations on tables -/

section agrees

variable {envs : Cells Env} {t : Table Env}

theorem loadEnv_agrees (h : envs.Shows t) (junk : Nat → Env) (newEnv : Env) :
    Agrees (fun a b => a.1 = b.1 ∧ a.2.Shows b.2) (loadEnv junk envs newEnv)
      (MiniRunner.loadEnv newEnv t) := by
  rw [loadEnv, enter_eq]
  exact h.insert envGrowth _ junk newEnv

theorem addEnv_agrees (h : envs.Shows t) (junk : Nat → Env) (name key value : CStr) :
    Agrees (fun a b => a.1 = b.1 ∧ a.2.Shows b.2) (addEnv junk envs name key value)
      (MiniRunner.addEnv name key value t) := by
  rw [addEnv, MiniRunner.addEnv]
  rcases lookup_cases h (isEnv name key) with ⟨hfind, hnone⟩ | ⟨i, x, hfind, -, hx⟩
  · rw [hfind, if_neg (by simpa using hnone)]
    have happend := h.append envGrowth junk ⟨name, key, value⟩
    simp only [bind, Except.bind]
    cases hu : (envs.reserve envGrowth junk).push ⟨name, key, value⟩ <;>
      cases hv : t.append envGrowth ⟨name, key, value⟩ <;> rw [hu, hv] at happend
    · exact happend
    · exact happend.elim
    · exact happend.elim
    · exact ⟨rfl, happend⟩
  · rw [hfind, if_pos (List.any_eq_true.mpr ⟨x, List.mem_of_find?_eq_some hx,
      List.find?_some (p := isEnv name key) hx⟩)]
    exact ⟨rfl, h⟩

theorem updateEnv_agrees (h : envs.Shows t) (name key value : CStr) :
    Agrees (fun a b => a.1 = b.1 ∧ a.2.Shows b.2) (updateEnv envs name key value)
      (.ok (MiniRunner.updateEnv name key value t)) := by
  rw [updateEnv, MiniRunner.updateEnv]
  rcases lookup_cases h (isEnv name key) with ⟨hfind, hnone⟩ | ⟨i, x, hfind, hi, hx⟩
  · rw [hfind, if_neg (by simpa using hnone)]
    exact ⟨rfl, h⟩
  · obtain ⟨current, hread, r, hwrite, hshows⟩ := h.update hi fun e => { e with value := value }
    rw [hfind, if_pos (List.any_eq_true.mpr ⟨x, List.mem_of_find?_eq_some hx,
      List.find?_some (p := isEnv name key) hx⟩)]
    simp only [bind, Except.bind, hread, hwrite]
    exact ⟨rfl, hshows⟩

theorem removeEnv_agrees (h : envs.Shows t) (name key : CStr) :
    Agrees (fun a b => a.1 = b.1 ∧ a.2.Shows b.2) (removeEnv envs name key)
      (.ok (MiniRunner.removeEnv name key t)) := by
  rw [removeEnv, MiniRunner.removeEnv]
  rcases lookup_cases h (isEnv name key) with ⟨hfind, hnone⟩ | ⟨i, x, hfind, hi, hx⟩
  · rw [hfind, Table.removeFirst_eq_none.mpr (by simpa using hnone)]
    exact ⟨rfl, h⟩
  · rw [hfind, Table.removeFirst_of_some hx]
    obtain ⟨r, hr, -, hshows⟩ := h.removeAt hi
    simp only [bind, Except.bind, hr]
    exact ⟨rfl, hshows.freeEmpty⟩

end agrees

end Bounds

end MiniRunner
