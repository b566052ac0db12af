import MiniRunner.Fini

/-!
# What survives saving and loading

For the limits and for the env entries, exactly which tables come back from a save
and a load as they were. A valid limit comes back when it is the only one and its
memory fits 63 bits. Valid entries come back when no value has a newline, which
`isValidEnvValue` lets through, and the array of the loader can hold them.
-/

namespace MiniRunner

open Clib

/-! ## Limits -/

/-- Saving the limits returns 0 and loading the file yields the same ones. -/
def LimitsReturn (limits : List Limit) : Prop :=
  ∀ (t : Table Limit) (fs : Files), t.items = limits →
    Exec.wp (saveLimits t)
      (fun rc fs' => rc = 0 ∧ ∃ t',
        initLimits initialLimits (fs'.content (.file .limits)) = .ok t' ∧ t'.items = limits)
      (fun _ _ => False) fs

theorem Limit.ok_of_isValidName {l : Limit} (h : isValidName l.name = 0) : l.Ok :=
  ⟨(checkService_eq_zero.mp h).2.2.1⟩

theorem LimitsReturn.length_le {limits : List Limit} (h : LimitsReturn limits) :
    limits.length ≤ 1 := by
  by_contra hlong
  exact (wp_saveLimits_many (show 2 ≤ limits.length by omega)).mp
    (h (.ofList limits) (fun _ => none) rfl)

theorem LimitsReturn.memory_lt {limits : List Limit} (hok : ∀ l ∈ limits, l.Ok)
    (h : LimitsReturn limits) : ∀ l ∈ limits, l.memory.toNat < 2 ^ 63 := by
  have hsaved := wp_saveLimits_le_one (t := .ofList limits) h.length_le (fun _ _ => True)
    fun _ => none
  by_contra hbig
  refine Exec.not_wp_false (Exec.wp_mono
    (Exec.wp_and (h (.ofList limits) (fun _ => none) rfl) hsaved) ?_ fun _ _ h => h.1)
  rintro rc fs' ⟨⟨_, t', hload, hitems⟩, _, hfile, _⟩
  rw [hfile] at hload
  have hback := limitsFormat.parse_text_items limits_loads rfl hok hload
  have hsame : limits.map Limit.readBack = limits.map id :=
    (hback.symm.trans hitems).trans (List.map_id limits).symm
  exact hbig fun l hl => l.readBack_eq_iff.mp (List.map_inj_left.mp hsame l hl)

/-- One limit at most, of less than 2^63 bytes, comes back. -/
theorem limitsReturn_of {limits : List Limit} (hok : ∀ l ∈ limits, l.Ok)
    (hlen : limits.length ≤ 1) (hmem : ∀ l ∈ limits, l.memory.toNat < 2 ^ 63) :
    LimitsReturn limits := by
  intro t fs ht
  refine Exec.wp_mono (wp_saveLimits_le_one (ht ▸ hlen) _ fs) ?_ fun _ _ h => h
  rintro rc fs' ⟨rfl, hfile, _⟩
  have hback : limits.map Limit.readBack = limits :=
    (List.map_inj_left.mpr fun l hl => l.readBack_eq_iff.mpr (hmem l hl)).trans (List.map_id _)
  have hd : DistinctLimits limits := by
    match limits, hlen with
    | [], _ => exact List.Pairwise.nil
    | [l], _ => exact List.pairwise_singleton _ l
  obtain ⟨t', hload, hitems, _⟩ := limitsFormat.parse_text limits_loads limitBlock_initialLimits
    rfl hok (hback.symm ▸ hd) (hlen.trans (by decide))
  exact ⟨rfl, t', by rw [hfile, ht]; exact hload, hitems.trans hback⟩

/-- **Which limits survive**: a valid table comes back exactly when it has one entry at
most and no memory value reaches 2^63. -/
theorem limitsReturn_iff {limits : List Limit} (hvalid : ∀ l ∈ limits, isValidName l.name = 0) :
    LimitsReturn limits ↔ limits.length ≤ 1 ∧ ∀ l ∈ limits, l.memory.toNat < 2 ^ 63 := by
  have hok : ∀ l ∈ limits, l.Ok := fun l hl => Limit.ok_of_isValidName (hvalid l hl)
  constructor
  · intro h
    exact ⟨h.length_le, h.memory_lt hok⟩
  · rintro ⟨hlen, hmem⟩
    exact limitsReturn_of hok hlen hmem

/-- Two limits, on services `a` and `b`. -/
def twoLimits : List Limit :=
  [⟨.ofBytes [97], 1, 1⟩, ⟨.ofBytes [98], 1, 1⟩]

theorem limitsReturn_iff_twoLimits :
    LimitsReturn twoLimits ↔ twoLimits.length ≤ 1 ∧ ∀ l ∈ twoLimits, l.memory.toNat < 2 ^ 63 :=
  limitsReturn_iff (by decide)

theorem not_limitsReturn_twoLimits :
    (∀ l ∈ twoLimits, isValidName l.name = 0) ∧ DistinctLimits twoLimits ∧
      ¬LimitsReturn twoLimits :=
  ⟨by decide, by decide, fun h => absurd h.length_le (by decide)⟩

/-! ## Environment variables -/

/-- Saving the entries and loading the file yields the same ones. -/
def EnvsReturn (envs : List Env) : Prop :=
  ∀ (t : Table Env) (fs : Files), t.items = envs →
    Exec.wp (saveEnvs t)
      (fun _ fs' => ∃ t', loadEnvs initialEnvs (fs'.content (.file .env)) = .ok t' ∧
        t'.items = envs)
      (fun _ _ => False) fs

def Env.Accepted (e : Env) : Prop :=
  isValidEnvName e.name = true ∧ isValidEnvKey e.key = true ∧ isValidEnvValue e.value = true

instance (e : Env) : Decidable e.Accepted := inferInstanceAs (Decidable (_ ∧ _ ∧ _))

theorem EnvsReturn.loads {envs : List Env} (h : EnvsReturn envs) :
    (∀ e ∈ envs, newline ∉ e.value.bytes) ∧ envs.length ≤ envLimit := by
  by_contra hno
  refine Exec.not_wp_false (Exec.wp_mono (h (.ofList envs) (fun _ => none) rfl) ?_ fun _ _ h => h)
  rintro rc fs' ⟨t', hload, rfl⟩
  obtain ⟨hok, _, hblock⟩ := loadEnvs_sound hload
  exact hno ⟨fun e he => (hok e he).value, hblock.length_le⟩

/-- **Which entries survive**: an accepted table comes back exactly when no value has a
newline and there are 40 entries at most. -/
theorem envsReturn_iff {envs : List Env} (hvalid : ∀ e ∈ envs, e.Accepted)
    (hd : DistinctEnvs envs) :
    EnvsReturn envs ↔ (∀ e ∈ envs, newline ∉ e.value.bytes) ∧ envs.length ≤ envLimit := by
  refine ⟨EnvsReturn.loads, ?_⟩
  rintro ⟨hvalue, hlen⟩ t fs ht
  have hok : ∀ e ∈ envs, e.Ok := by
    intro e he
    obtain ⟨hname, hkey, _⟩ := hvalid e he
    exact ⟨(checkEnv_eq_true.mp hname).1, (checkEnv_eq_true.mp hkey).2, hvalue e he⟩
  refine Exec.wp_mono (wp_saveEnvs t _ fs) ?_ fun _ _ h => h
  rintro rc fs' ⟨-, hfile, _⟩
  rw [hfile, ht]
  exact loadEnvs_envsText hok hd hlen

def newlineEnv : List Env := [⟨.ofBytes [97], .ofBytes [75], .ofBytes [10]⟩]

theorem envsReturn_iff_newlineEnv :
    EnvsReturn newlineEnv ↔
      (∀ e ∈ newlineEnv, newline ∉ e.value.bytes) ∧ newlineEnv.length ≤ envLimit :=
  envsReturn_iff (by decide) (by decide)

theorem not_envsReturn_newlineEnv :
    (∀ e ∈ newlineEnv, e.Accepted) ∧ DistinctEnvs newlineEnv ∧ ¬EnvsReturn newlineEnv :=
  ⟨by decide, by decide, fun h => absurd h.loads.1 (by decide)⟩

end MiniRunner
