import MiniRunner.Names.Isolation

/-!
# The block for `execve`

`execve` reads its environment up to the first NULL. `getArgs` writes that NULL one cell
behind the one after the strings, so the cell after the strings is never written, however
many strings there are; and with 19, 20, 39 or 40 of them, or more, it writes past the block.
-/

namespace MiniRunner

open Clib

/-! ## What the block has to be -/

/-- The strings of the service in order, then NULL, and no cell before it uninitialised. -/
structure ExecveBlock (name : CStr) (envs : List Env) (arg : EnvToArg) : Prop where
  strings : arg.args.take arg.nums = (envStrings name envs).map fun s => some (some s)
  terminator : arg.args[arg.nums]? = some (some none)
  initialised : ∀ i, i ≤ arg.nums → ∃ x, arg.args[i]? = some (some x)

/-- `getArgs` writes no cell past the block, and it is what `execve` expects. -/
def PassesEnvironment (name : CStr) (envs : List Env) : Prop :=
  ∃ arg, getArgs name envs = .ok arg ∧ ExecveBlock name envs arg

/-! ## What it is -/

section block

variable {name : CStr} {envs : List Env} {arg : EnvToArg}

/-- What `getArgs` returns: the strings, a cell that was not written, and NULL. -/
theorem getArgs_block (h : getArgs name envs = .ok arg) :
    arg.args.take arg.nums = ((envStrings name envs).map fun s => some (some s)) ∧
      arg.args[arg.nums]? = some none ∧ arg.args[arg.nums + 1]? = some (some none) := by
  refine ⟨getArgs_strings h, ?_⟩
  unfold getArgs at h
  cases ht : envs.foldlM (collectArg name) (.alloc initialScaleOfEnv) with
  | error e =>
    rw [ht] at h
    cases h
  | ok t =>
    simp only [ht, bind, Except.bind] at h
    split at h
    · rename_i hlt
      cases h
      have hlen : (t.items.map fun s => some (some s)).length = t.items.length := List.length_map _
      change (List.set _ _ _)[t.items.length]? = _ ∧ (List.set _ _ _)[t.items.length + 1]? = _
      constructor
      · rw [List.getElem?_set_ne (by omega), List.getElem?_append_right (by omega), hlen,
          Nat.sub_self, List.getElem?_replicate, if_pos (by omega)]
      · rw [List.getElem?_set_self (by simp; omega)]
    · cases h

end block

/-- **The environment is never what `execve` expects.** -/
theorem not_passesEnvironment (name : CStr) (envs : List Env) : ¬PassesEnvironment name envs := by
  rintro ⟨arg, harg, hblock⟩
  have hcell := hblock.terminator
  rw [(getArgs_block harg).2.1] at hcell
  cases hcell

/-- One variable `k=v` of the service `a`. -/
theorem not_passesEnvironment_one : ¬PassesEnvironment (.ofBytes [97])
    [⟨.ofBytes [97], .ofBytes [107], .ofBytes [118]⟩] := by
  rintro ⟨arg, harg, hblock⟩
  cases harg
  exact absurd hblock.terminator (by decide)

/-! ## Where it stays in the block -/

theorem ArgBlock.append_full {t : Table CStr} (ht : ArgBlock t) (x : CStr)
    (h : envLimit ≤ t.items.length) : t.append argsGrowth x = .error .undefined := by
  have hin := t.inBlock
  simp only [envLimit] at h
  obtain ⟨hc, hs⟩ | ⟨hc, hs, -⟩ := ht
  · omega
  · have hr : t.reserve argsGrowth = .ok t := if_neg (by omega)
    rw [Table.append, hr]
    exact dif_neg (by omega)

/-- With more than 40 strings the loop leaves the block. -/
theorem collectArg_overflow (name : CStr) (envs : List Env) :
    ∀ {t : Table CStr}, ArgBlock t → envLimit < t.items.length + envs.countP (·.name == name) →
      envs.foldlM (collectArg name) t = .error .undefined := by
  induction envs with
  | nil =>
    intro t ht hn
    have hin := t.inBlock
    simp only [List.countP_nil, envLimit] at hn
    obtain ⟨-, hs⟩ | ⟨-, hs, -⟩ := ht <;> omega
  | cons e envs ih =>
    intro t ht hn
    rw [List.foldlM_cons, collectArg]
    by_cases he : (e.name == name) = true
    · rw [List.countP_cons_of_pos (by exact he)] at hn
      rw [if_pos he]
      by_cases hroom : t.items.length < envLimit
      · obtain ⟨t₁, happend, ht₁⟩ := ht.append (parseEnvToString e) hroom
        have hlen : t₁.items.length = t.items.length + 1 := by
          rw [Table.append_items happend, List.length_append, List.length_singleton]
        rw [happend]
        exact ih ht₁ (by omega)
      · rw [ht.append_full _ (Nat.le_of_not_lt hroom)]
        rfl
    · rw [List.countP_cons_of_neg (by exact he)] at hn
      rw [if_neg he]
      exact ih ht hn

/-- **When `getArgs` stays in its block**: at most 38 strings, and not 19 or 20. -/
theorem getArgs_returns_iff (name : CStr) (envs : List Env) :
    (∃ arg, getArgs name envs = .ok arg) ↔ (envStrings name envs).length ≤ 38 ∧
      (envStrings name envs).length ≠ 19 ∧ (envStrings name envs).length ≠ 20 := by
  have hcount : (envStrings name envs).length = envs.countP (·.name == name) := by
    rw [envStrings, List.length_map, envsOf, List.countP_eq_length_filter]
  have hstart : ArgBlock (.alloc initialScaleOfEnv) := .inl ⟨rfl, rfl⟩
  have hzero (n : Nat) : (Table.alloc initialScaleOfEnv : Table CStr).items.length + n = n :=
    Nat.zero_add n
  rw [hcount]
  by_cases hn : envs.countP (·.name == name) ≤ envLimit
  · obtain ⟨t, hfold, ht, hlen⟩ := collectArg_fold name envs hstart (by rwa [hzero])
    rw [hzero] at hlen
    have hiff : (∃ arg, getArgs name envs = .ok arg) ↔ t.items.length + 1 < t.slots := by
      simp only [getArgs, hfold, bind, Except.bind]
      split
      · exact iff_of_true ⟨_, rfl⟩ ‹_›
      · refine iff_of_false ?_ ‹_›
        rintro ⟨arg, harg⟩
        cases harg
    rw [hiff, hlen]
    simp only [envLimit] at hn
    obtain ⟨-, hs⟩ | ⟨-, hs, hmore⟩ := ht
    · have hin := t.inBlock
      omega
    · omega
  · have hfold := collectArg_overflow name envs hstart (by rw [hzero]; omega)
    simp only [envLimit] at hn
    refine iff_of_false ?_ (by omega)
    rintro ⟨arg, harg⟩
    simp only [getArgs, hfold, bind, Except.bind] at harg
    cases harg

end MiniRunner
