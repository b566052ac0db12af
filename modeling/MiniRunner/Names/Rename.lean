import Mathlib.Data.List.Find
import MiniRunner.Names.Isolation
import MiniRunner.Names.Integrity

/-!
# What a rename carries along

A service's name is the key of its limit and of its env entries. `renameService` renames
the service and the first limit of the old name; `renameEnv` exists but nothing calls it,
so the env table stays as it is.

`MovesAll` is what a rename is for, `Carried` the tables on which `renameService` does it:
those where neither name has an env entry, and where the old name's limit is the one that
the new name will show.
-/

namespace MiniRunner

open Clib Process

variable {W : Type}

/-! ## What a rename is for -/

/-- Another name than the two of a rename. -/
def isOther (oldName newName name : CStr) : Bool := name != oldName && name != newName

/-- **Everything keyed by the old name is keyed by the new one**, and nothing else moved. -/
structure MovesAll (oldName newName : CStr) (p p' : Process W) : Prop where
  limit : limitOf newName p'.limits.items = limitOf oldName p.limits.items
  env : getArgs newName p'.envs.items = getArgs oldName p.envs.items
  noLimitLeft : ∀ l ∈ p'.limits.items, l.name ≠ oldName
  noEnvLeft : ∀ e ∈ p'.envs.items, e.name ≠ oldName
  otherServices : p'.services.items.filter (isOther oldName newName ·.name) =
    p.services.items.filter (isOther oldName newName ·.name)
  otherLimits : p'.limits.items.filter (isOther oldName newName ·.name) =
    p.limits.items.filter (isOther oldName newName ·.name)
  otherEnvs : p'.envs.items.filter (isOther oldName newName ·.name) =
    p.envs.items.filter (isOther oldName newName ·.name)

/-- The tables on which `renameService` does that: no env entry has either name, at most
one limit has the old name, and the first limit of either name shows its amounts. -/
structure Carried (oldName newName : CStr) (p : Process W) : Prop where
  noEnvs : ∀ e ∈ p.envs.items, e.name ≠ oldName ∧ e.name ≠ newName
  oneLimit : p.limits.items.countP (·.name == oldName) ≤ 1
  firstLimit : (p.limits.items.find? fun l => l.name == oldName || l.name == newName).map
    Limit.amounts = limitOf oldName p.limits.items

/-! ## The limits table -/

/-- The limits after `renameLimit`. -/
def limitsRenamed (oldName newName : CStr) (limits : List Limit) : List Limit :=
  Table.updateFirst (·.name == oldName) (fun l => { l with name := newName }) limits

/-- After a rename the new name shows the first limit that had either name. -/
theorem limitOf_limitsRenamed (oldName newName : CStr) (limits : List Limit) :
    limitOf newName (limitsRenamed oldName newName limits) =
      (limits.find? fun l => l.name == oldName || l.name == newName).map Limit.amounts := by
  induction limits with
  | nil => rfl
  | cons l limits ih =>
    unfold limitOf limitsRenamed at *
    cases hold : l.name == oldName with
    | true =>
      simp only [Table.updateFirst, hold, if_true, List.find?_cons, beq_self_eq_true,
        Bool.true_or, Option.map_some, Limit.amounts]
    | false =>
      simp only [Table.updateFirst, hold, Bool.false_eq_true, if_false, List.find?_cons,
        Bool.false_or]
      cases l.name == newName with
      | true => rfl
      | false => exact ih

theorem countP_limitsRenamed {oldName newName : CStr} (hne : newName ≠ oldName)
    (limits : List Limit) :
    (limitsRenamed oldName newName limits).countP (·.name == oldName) =
      limits.countP (·.name == oldName) - 1 := by
  induction limits with
  | nil => rfl
  | cons l limits ih =>
    unfold limitsRenamed at *
    have hnew : (newName == oldName) = false := by simpa using hne
    cases hold : l.name == oldName with
    | true => simp [Table.updateFirst, hold, hnew]
    | false => simp [Table.updateFirst, hold, ih]

theorem noLimitLeft_iff {oldName newName : CStr} (hne : newName ≠ oldName) (limits : List Limit) :
    (∀ l ∈ limitsRenamed oldName newName limits, l.name ≠ oldName) ↔
      limits.countP (·.name == oldName) ≤ 1 := by
  have hcount := countP_limitsRenamed hne limits
  have hzero := List.countP_eq_zero (p := fun l : Limit => l.name == oldName)
    (l := limitsRenamed oldName newName limits)
  simp only [beq_iff_eq] at hzero
  rw [← hzero, hcount]
  omega

/-! ## The env table -/

theorem getArgs_of_none {name : CStr} {envs : List Env} (h : ∀ e ∈ envs, e.name ≠ name) :
    getArgs name envs = getArgs name [] := by
  have hfold : ∀ t : Table CStr, envs.foldlM (collectArg name) t = .ok t := by
    induction envs with
    | nil => exact fun _ => rfl
    | cons e envs ih =>
      intro t
      have hstep : collectArg name t e = .ok t := if_neg (by simpa using h e (by simp))
      rw [List.foldlM_cons, hstep]
      exact ih (fun e' he => h e' (by simp [he])) t
  rw [getArgs, hfold]
  rfl

theorem getArgs_nil (name : CStr) : ∃ args, getArgs name [] = .ok args ∧ args.strings = [] :=
  ⟨_, rfl, rfl⟩

/-- Once no entry has the old name, both names collect the same only if the new one
collects nothing. -/
theorem getArgs_eq_iff {oldName newName : CStr} {envs : List Env}
    (hold : ∀ e ∈ envs, e.name ≠ oldName) :
    getArgs newName envs = getArgs oldName envs ↔ ∀ e ∈ envs, e.name ≠ newName := by
  rw [getArgs_of_none hold]
  constructor
  · intro heq e he hname
    obtain ⟨args, hargs, hstrings⟩ := getArgs_nil oldName
    rw [hargs] at heq
    have hnone := (getArgs_strings heq).symm.trans hstrings
    simp only [envStrings, envsOf, List.map_eq_nil_iff, List.filter_eq_nil_iff, beq_iff_eq] at hnone
    exact hnone e he hname
  · intro hnew
    rw [getArgs_of_none hnew]
    rfl

/-! ## The rename -/

/-- What a completed rename has moved. -/
theorem movesAll_iff {p : Process W} {oldName newName : CStr} (hne : newName ≠ oldName)
    {t : Table Service} {lim : Table Limit} (w : W)
    (ht : t.items = Table.updateFirst (·.name == oldName) (fun s => { s with name := newName })
      p.services.items)
    (hlim : lim.items = limitsRenamed oldName newName p.limits.items) :
    MovesAll oldName newName p { p with services := t, limits := lim, world := w } ↔
      Carried oldName newName p := by
  constructor
  · rintro ⟨hlimit, henv, hnoLimit, hnoEnv, -, -, -⟩
    simp only [hlim] at hlimit hnoLimit
    refine ⟨fun e he => ⟨hnoEnv e he, (getArgs_eq_iff hnoEnv).mp henv e he⟩,
      (noLimitLeft_iff hne _).mp hnoLimit, ?_⟩
    rw [← limitOf_limitsRenamed]
    exact hlimit
  · rintro ⟨hnoEnvs, hone, hfirst⟩
    have hold : ∀ e ∈ p.envs.items, e.name ≠ oldName := fun e he => (hnoEnvs e he).1
    refine ⟨?_, (getArgs_eq_iff hold).mpr fun e he => (hnoEnvs e he).2, ?_, hold, ?_, ?_, rfl⟩
    · simp only [hlim]
      rw [limitOf_limitsRenamed]
      exact hfirst
    · simp only [hlim]
      exact (noLimitLeft_iff hne _).mpr hone
    · simp only [ht]
      exact Table.filter_updateFirst_of_not (fun s hs => by simp [isOther, eq_of_beq hs]) _
    · simp only [hlim, limitsRenamed]
      exact Table.filter_updateFirst_of_not (fun l hl => by simp [isOther, eq_of_beq hl]) _

/-- **When a rename moves everything.** For all tables and every answer of the world, a
rename to a fresh name that ends by changing the service's name moves everything keyed by
the name exactly on the tables of `Carried`. -/
theorem renameService_movesAll_iff (sys : Calls W) (p : Process W) {oldName newName : CStr}
    (hfresh : newName ∉ p.services.items.map (·.name)) :
    Exec.wp (renameService sys oldName newName)
      (fun _ p' => p'.services.items ≠ p.services.items →
        (MovesAll oldName newName p p' ↔ Carried oldName newName p))
      (fun _ _ => False) p := by
  refine Exec.wp_mono (wp_renameService oldName newName) ?_ fun _ _ h => h
  rintro _ p' hren
  cases hren with
  | kept w => exact fun h => absurd rfl h
  | renamed t lim w hfound ht hlim =>
    intro _
    refine movesAll_iff ?_ w ht hlim
    rintro rfl
    obtain ⟨s, hs⟩ := Option.isSome_iff_exists.mp hfound
    exact hfresh (List.mem_map.mpr ⟨s, List.mem_of_find?_eq_some hs, by
      simpa using List.find?_some hs⟩)

/-- Where limits refer to services, only the env table can be left behind. -/
theorem carried_iff_of_linked {p : Process W} {oldName newName : CStr} (h : NamesLinked p)
    (hfresh : newName ∉ p.services.items.map (·.name)) :
    Carried oldName newName p ↔ ∀ e ∈ p.envs.items, e.name ≠ oldName ∧ e.name ≠ newName := by
  refine ⟨Carried.noEnvs, fun henvs => ⟨henvs, ?_, ?_⟩⟩
  · have hcount := List.nodup_iff_count_le_one.mp h.distinctRefs oldName
    rwa [List.count, List.countP_map] at hcount
  · have hnone : ∀ l ∈ p.limits.items, (l.name == newName) = false := by
      intro l hl
      rw [beq_eq_false_iff_ne]
      rintro rfl
      exact hfresh (h.noneDangles _ (List.mem_map_of_mem hl))
    have hfind : p.limits.items.find? (fun l => l.name == oldName || l.name == newName) =
        p.limits.items.find? (·.name == oldName) :=
      List.find?_congr fun l hl => by rw [hnone l hl, Bool.or_false]
    rw [hfind, limitOf]

/-- A service `a` with the env entry `K=v`. -/
def withEnv : Process Unit where
  files := fun _ => none
  world := ()
  services := .ofList [⟨.ofBytes [114], .ofBytes [97], 0, true⟩]
  jobs := .blank 4 4
  envs := .ofList [⟨.ofBytes [97], .ofBytes [75], .ofBytes [118]⟩]
  limits := .blank 4 4
  reformatState := true
  reformatLimits := false

theorem renameService_movesAll_withEnv :
    Exec.wp (renameService (.allWell 1) (.ofBytes [97]) (.ofBytes [98]))
      (fun _ p' => p'.services.items ≠ withEnv.services.items →
        (MovesAll (.ofBytes [97]) (.ofBytes [98]) withEnv p' ↔
          Carried (.ofBytes [97]) (.ofBytes [98]) withEnv))
      (fun _ _ => False) withEnv :=
  renameService_movesAll_iff (.allWell 1) withEnv (by decide)

/-- Renaming `a` to `b` when every call works: the entry `K=v` stays with `a`, and `b` is
started without it. -/
theorem not_renameService_movesAll :
    ¬∀ (sys : Calls Unit) (p : Process Unit) (oldName newName : CStr),
      newName ∉ p.services.items.map (·.name) →
        Exec.wp (renameService sys oldName newName)
          (fun _ p' => p'.services.items ≠ p.services.items → MovesAll oldName newName p p')
          (fun _ _ => False) p := by
  intro h
  have hclaim := h (.allWell 1) withEnv (.ofBytes [97]) (.ofBytes [98]) (by decide)
  have hfound : (withEnv.services.items.find? (·.name == .ofBytes [97])).isSome := by decide
  obtain ⟨_, p', hmoves, t, lim, rfl, ht, -⟩ :=
    Exec.exists_of_wp hclaim (wp_renameService_allWell hfound (by decide))
  have hall := hmoves (by simp only [ht]; decide)
  exact hall.noEnvLeft ⟨.ofBytes [97], .ofBytes [75], .ofBytes [118]⟩
    (List.mem_singleton.mpr rfl) rfl

end MiniRunner
