import MiniRunner.Clib.Runs
import MiniRunner.Ops.Tables

/-!
# Environments of different services

All services share one env table, which is searched from the front, compacted on a
removal and filtered when a service starts. Here the table is a list of entries, and
`addEnv`, `updateEnv` and `removeEnv` are changes of that list (`EnvOp.apply`); the
functions of `env_man` make exactly these changes whenever they return
(`EnvOp.exec_items`), however their block has grown. What a service is started with
is a view of the list that the operations on other services do not change.
-/

namespace MiniRunner

open Clib

/-! ## Operations on the list of entries -/

inductive EnvOp where
  | add (name key value : CStr)
  | update (name key value : CStr)
  | remove (name key : CStr)
  deriving DecidableEq

def EnvOp.serviceName : EnvOp → CStr
  | add name _ _ => name
  | update name _ _ => name
  | remove name _ => name

/-- What an operation does to the list of entries. -/
def EnvOp.apply (envs : List Env) : EnvOp → List Env
  | add name key value =>
    if envs.any (isEnv name key) then envs else envs ++ [⟨name, key, value⟩]
  | update name key value =>
    Table.updateFirst (isEnv name key) (fun e => { e with value := value }) envs
  | remove name key => Ledger.strike (isEnv name key) envs

/-- The function of `env_man` behind an operation. -/
def EnvOp.exec (envs : Table Env) : EnvOp → Except Halt (Table Env)
  | add name key value => (addEnv name key value envs).map (·.2)
  | update name key value => .ok (updateEnv name key value envs).2
  | remove name key => .ok (removeEnv name key envs).2

theorem addEnv_apply {name key value : CStr} {envs envs' : Table Env} {rc : Int}
    (h : addEnv name key value envs = .ok (rc, envs')) :
    envs'.items = EnvOp.apply envs.items (.add name key value) := by
  unfold addEnv at h
  simp only [EnvOp.apply]
  split at h
  · rename_i hany
    cases h
    rw [if_pos hany]
  · rename_i hany
    rw [if_neg hany]
    cases ha : envs.append envGrowth ⟨name, key, value⟩ with
    | error e => rw [ha] at h; cases h
    | ok t =>
      rw [ha] at h
      cases h
      exact Table.append_items ha

/-- **Whenever an operation returns, it has changed the list of entries as `apply` says.** -/
theorem EnvOp.exec_items {op : EnvOp} {envs envs' : Table Env} (h : op.exec envs = .ok envs') :
    envs'.items = EnvOp.apply envs.items op := by
  cases op with
  | add name key value =>
    simp only [exec] at h
    cases ha : addEnv name key value envs with
    | error e => rw [ha] at h; cases h
    | ok r =>
      rw [ha] at h
      cases h
      exact addEnv_apply ha
  | update name key value =>
    cases h
    exact updateEnv_items name key value envs
  | remove name key =>
    cases h
    exact removeEnv_items name key envs

theorem exec_foldlM_items (ops : List EnvOp) :
    ∀ {envs envs' : Table Env}, ops.foldlM EnvOp.exec envs = .ok envs' →
      envs'.items = ops.foldl EnvOp.apply envs.items := by
  induction ops with
  | nil =>
    intro envs envs' h
    cases h
    rfl
  | cons op ops ih =>
    intro envs envs' h
    rw [List.foldlM_cons] at h
    cases hop : op.exec envs with
    | error e => rw [hop] at h; cases h
    | ok t =>
      rw [hop] at h
      rw [List.foldl_cons, ih h, EnvOp.exec_items hop]

/-! ## What a service is started with -/

/-- The entries of a service, in the order of the table. -/
def envsOf (name : CStr) (envs : List Env) : List Env := envs.filter (·.name == name)

/-- Its `KEY=VALUE` strings. -/
def envStrings (name : CStr) (envs : List Env) : List CStr :=
  (envsOf name envs).map parseEnvToString

/-- The first `nums` cells of an argument block. -/
def EnvToArg.strings (args : EnvToArg) : List (Option (Option CStr)) := args.args.take args.nums

/-- The loop of `getArgs` appends the strings of the service's entries. -/
theorem collectArg_items (name : CStr) (envs : List Env) :
    ∀ {t t' : Table CStr}, envs.foldlM (collectArg name) t = .ok t' →
      t'.items = t.items ++ envStrings name envs := by
  induction envs with
  | nil =>
    intro t t' h
    cases h
    simp [envStrings, envsOf]
  | cons e envs ih =>
    intro t t' h
    rw [List.foldlM_cons, collectArg] at h
    by_cases he : (e.name == name) = true
    · rw [if_pos he] at h
      cases ha : t.append argsGrowth (parseEnvToString e) with
      | error err => rw [ha] at h; cases h
      | ok t₁ =>
        rw [ha] at h
        rw [ih h, Table.append_items ha]
        simp [envStrings, envsOf, he]
    · rw [if_neg he] at h
      rw [ih h]
      simp [envStrings, envsOf, he]

/-- **What `getArgs` collects** are the strings of the service's entries. -/
theorem getArgs_strings {name : CStr} {envs : List Env} {args : EnvToArg}
    (h : getArgs name envs = .ok args) :
    args.strings = (envStrings name envs).map fun s => some (some s) := by
  unfold getArgs at h
  cases ht : envs.foldlM (collectArg name) (.alloc initialScaleOfEnv) with
  | error e => rw [ht] at h; cases h
  | ok t =>
    have hitems : t.items = envStrings name envs := collectArg_items name envs ht
    simp only [ht, bind, Except.bind] at h
    split at h
    · cases h
      -- the final NULL stands behind these cells
      show (List.set _ _ _).take t.items.length = _
      rw [← hitems, List.take_set_of_le (Nat.le_succ _), List.take_left']
      exact List.length_map ..
    · cases h

/-! ## Isolation -/

theorem name_of_isEnv {name key : CStr} {e : Env} (h : isEnv name key e = true) :
    e.name = name := by
  simp only [isEnv, Bool.and_eq_true, beq_iff_eq] at h
  exact h.1

theorem any_envsOf (name key : CStr) (envs : List Env) :
    (envsOf name envs).any (isEnv name key) = envs.any (isEnv name key) := by
  rw [envsOf, List.any_filter]
  congr 1
  funext e
  cases he : isEnv name key e with
  | false => simp
  | true => simp [name_of_isEnv he]

/-- An operation on the service sees the service's entries only. -/
theorem envsOf_apply_same (s : CStr) (envs : List Env) (op : EnvOp)
    (hop : (op.serviceName == s) = true) :
    envsOf s (EnvOp.apply envs op) = EnvOp.apply (envsOf s envs) op := by
  cases op with
  | add name key value =>
    obtain rfl : name = s := eq_of_beq hop
    simp only [EnvOp.apply, any_envsOf]
    split
    · rfl
    · simp [envsOf]
  | update name key value =>
    obtain rfl : name = s := eq_of_beq hop
    exact Table.filter_updateFirst (fun e he => by simp [name_of_isEnv he]) envs
  | remove name key =>
    obtain rfl : name = s := eq_of_beq hop
    exact Ledger.filter_strike (fun e he => by simp [name_of_isEnv he]) envs

/-- An operation on another service is not seen. -/
theorem envsOf_apply_other (s : CStr) (envs : List Env) (op : EnvOp)
    (hop : (op.serviceName == s) = false) : envsOf s (EnvOp.apply envs op) = envsOf s envs := by
  cases op with
  | add name key value =>
    simp only [EnvOp.serviceName] at hop
    simp only [EnvOp.apply]
    split
    · rfl
    · simp [envsOf, hop]
  | update name key value =>
    simp only [EnvOp.serviceName] at hop
    exact Table.filter_updateFirst_of_not (fun e he => by simp [name_of_isEnv he, hop]) envs
  | remove name key =>
    simp only [EnvOp.serviceName] at hop
    exact Ledger.filter_strike_of_not (fun e he => by simp [name_of_isEnv he, hop]) envs

theorem envsOf_foldl (s : CStr) (ops : List EnvOp) (envs : List Env) :
    envsOf s (ops.foldl EnvOp.apply envs) =
      (ops.filter (·.serviceName == s)).foldl EnvOp.apply (envsOf s envs) :=
  view_foldl (envsOf_apply_same s) (envsOf_apply_other s) ops envs

/-- **Environment isolation.** Two runs whose operations on `s` are the same leave `s` the
same strings in the same order, from every table of entries (its pairs need not even be
distinct). So do the functions of `env_man` with `getArgs`, whatever blocks they run on,
whenever they return. -/
theorem envs_isolated (s : CStr) {ops ops' : List EnvOp}
    (h : ops.filter (·.serviceName == s) = ops'.filter (·.serviceName == s)) (envs : List Env) :
    envStrings s (ops.foldl EnvOp.apply envs) = envStrings s (ops'.foldl EnvOp.apply envs) ∧
      ∀ (t t' u u' : Table Env) (args args' : EnvToArg), t.items = envs → t'.items = envs →
        ops.foldlM EnvOp.exec t = .ok u → ops'.foldlM EnvOp.exec t' = .ok u' →
        getArgs s u.items = .ok args → getArgs s u'.items = .ok args' →
        args.strings = args'.strings := by
  have hlist : envStrings s (ops.foldl EnvOp.apply envs) =
      envStrings s (ops'.foldl EnvOp.apply envs) := by
    rw [envStrings, envStrings, envsOf_foldl, envsOf_foldl, h]
  refine ⟨hlist, ?_⟩
  rintro t t' u u' args args' ht ht' hu hu' hargs hargs'
  rw [getArgs_strings hargs, getArgs_strings hargs', exec_foldlM_items _ hu,
    exec_foldlM_items _ hu', ht, ht', hlist]

/-- Two services, and a run that also adds to, changes and removes from the other one. -/
theorem envs_isolated_twoServices :
    let a : CStr := .ofBytes [97]
    let b : CStr := .ofBytes [98]
    let k : CStr := .ofBytes [107]
    let v : CStr := .ofBytes [118]
    envStrings a ([EnvOp.add b k v, .add a k v, .update b k a, .update a k b, .remove b k].foldl
        EnvOp.apply []) = envStrings a ([EnvOp.add a k v, .update a k b].foldl EnvOp.apply []) :=
  (envs_isolated (.ofBytes [97]) (by decide) []).1

end MiniRunner
