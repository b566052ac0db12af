import MiniRunner.Clib.Keyed
import MiniRunner.Names.Isolation

/-!
# The env table as a finite map

What the env table is for: a map from a name and a key to a value. `addEnv`, `updateEnv` and
`removeEnv` on a list of entries are the operations of that map as long as no two entries
share both, and they keep it so. The functions of `env_man` do to their block what `call`
does to the list, whenever they return (`EnvOp.call_of_onTable`).
-/

namespace MiniRunner

open Clib

/-! ## The map -/

/-- A value for each name and key that is bound. -/
abbrev Bindings := CStr × CStr → Option CStr

namespace EnvOp

/-- The name and the key an operation is about. -/
def pair : EnvOp → CStr × CStr
  | add name key _ => (name, key)
  | update name key _ => (name, key)
  | remove name key => (name, key)

/-- The operation of the map, with its return code. -/
def onMap (m : Bindings) : EnvOp → Int × Bindings
  | add name key value =>
    if m (name, key) = none then (0, Function.update m (name, key) (some value)) else (0, m)
  | update name key value =>
    if m (name, key) = none then (-1, m) else (0, Function.update m (name, key) (some value))
  | remove name key =>
    if m (name, key) = none then (-1, m) else (0, Function.update m (name, key) none)

/-- Whether it changes nothing: an `add` of a bound pair, or else one that is not bound. -/
def Refused (m : Bindings) : EnvOp → Prop
  | add name key _ => m (name, key) ≠ none
  | update name key _ => m (name, key) = none
  | remove name key => m (name, key) = none

/-! ## The list of entries -/

/-- The operation on the list, with its return code. -/
def call (envs : List Env) : EnvOp → Int × List Env
  | add name key value =>
    if envs.any (isEnv name key) then (0, envs) else (0, envs ++ [⟨name, key, value⟩])
  | update name key value =>
    if envs.any (isEnv name key) then
      (0, Table.updateFirst (isEnv name key) (fun e => { e with value := value }) envs)
    else (-1, envs)
  | remove name key =>
    if envs.any (isEnv name key) then (0, envs.eraseP (isEnv name key)) else (-1, envs)

def step (op : EnvOp) (envs : List Env) : Option (List Env) := some (op.call envs).2

end EnvOp

/-- The value that `showEnv` prints. -/
def showEnv (name key : CStr) (envs : List Env) : Option CStr :=
  (envs.find? (isEnv name key)).map (·.value)

def bindings (envs : List Env) : Bindings := fun p => showEnv p.1 p.2 envs

def Env.pair (e : Env) : CStr × CStr := (e.name, e.key)

/-- No two entries share both name and key. -/
abbrev DistinctPairs (envs : List Env) : Prop := (envs.map Env.pair).Nodup

/-! ## One operation -/

section step

variable {envs : List Env} {name key value : CStr}

theorem isEnv_eq (name key : CStr) :
    isEnv name key = fun e => decide (e.pair = (name, key)) := by
  funext e
  simp only [isEnv, Env.pair, Prod.mk.injEq, Bool.decide_and]
  rfl

theorem bindings_eq (envs : List Env) : bindings envs = lookup Env.pair Env.value envs := by
  funext p
  rw [bindings, showEnv, isEnv_eq]
  rfl

theorem any_isEnv : envs.any (isEnv name key) = true ↔ bindings envs (name, key) ≠ none := by
  rw [bindings_eq, Ne, lookup_eq_none, isEnv_eq]
  simp

/-- What an operation of the list has to do. -/
structure EnvOp.Conforms (envs : List Env) (op : EnvOp) : Prop where
  rc : (op.call envs).1 = (op.onMap (bindings envs)).1
  shows : bindings (op.call envs).2 = (op.onMap (bindings envs)).2
  refused : op.Refused (bindings envs) → (op.call envs).2 = envs
  others : ∀ p, p ≠ op.pair → bindings (op.call envs).2 p = bindings envs p

theorem EnvOp.others_of_shows {op : EnvOp}
    (h : bindings (op.call envs).2 = (op.onMap (bindings envs)).2) (p : CStr × CStr)
    (hp : p ≠ op.pair) : bindings (op.call envs).2 p = bindings envs p := by
  rw [h]
  cases op <;> simp only [onMap] <;> split <;>
    first | rfl | exact Function.update_of_ne hp _ _

theorem any_of_unbound (h : bindings envs (name, key) = none) :
    envs.any (isEnv name key) = false :=
  Bool.not_eq_true _ ▸ mt any_isEnv.mp (not_not.mpr h)

theorem EnvOp.rc_eq (envs : List Env) (op : EnvOp) :
    (op.call envs).1 = (op.onMap (bindings envs)).1 := by
  by_cases h : bindings envs op.pair = none
  · cases op <;> simp only [pair] at h <;>
      simp only [call, onMap, any_of_unbound h, if_pos h, Bool.false_eq_true, if_false]
  · cases op <;> simp only [pair] at h <;>
      simp only [call, onMap, any_isEnv.mpr h, if_neg h, if_true]

theorem EnvOp.call_of_refused {op : EnvOp} (h : op.Refused (bindings envs)) :
    (op.call envs).2 = envs := by
  cases op with
  | add name key value => simp only [call, any_isEnv.mpr h, if_true]
  | update name key value => simp only [call, any_of_unbound h, Bool.false_eq_true, if_false]
  | remove name key => simp only [call, any_of_unbound h, Bool.false_eq_true, if_false]

theorem EnvOp.onMap_of_refused {m : Bindings} {op : EnvOp} (h : op.Refused m) :
    (op.onMap m).2 = m := by
  cases op with
  | add name key value => exact congrArg Prod.snd (if_neg h)
  | update name key value => exact congrArg Prod.snd (if_pos h)
  | remove name key => exact congrArg Prod.snd (if_pos h)

theorem shows_add (h : bindings envs (name, key) = none) :
    bindings ((EnvOp.add name key value).call envs).2 =
      Function.update (bindings envs) (name, key) (some value) := by
  simp only [EnvOp.call, any_of_unbound h, Bool.false_eq_true, if_false]
  rw [bindings_eq] at h ⊢
  rw [bindings_eq]
  exact lookup_append (x := (⟨name, key, value⟩ : Env)) h

theorem shows_update (h : bindings envs (name, key) ≠ none) :
    bindings ((EnvOp.update name key value).call envs).2 =
      Function.update (bindings envs) (name, key) (some value) := by
  simp only [EnvOp.call, any_isEnv.mpr h, if_true]
  rw [bindings_eq] at h ⊢
  rw [bindings_eq, isEnv_eq]
  exact lookup_updateFirst (fun _ => rfl) (fun _ => rfl) h

theorem shows_remove (hd : DistinctPairs envs) (h : bindings envs (name, key) ≠ none) :
    bindings ((EnvOp.remove name key).call envs).2 =
      Function.update (bindings envs) (name, key) none := by
  simp only [EnvOp.call, any_isEnv.mpr h, if_true]
  rw [bindings_eq, bindings_eq, isEnv_eq]
  exact lookup_eraseP hd

theorem EnvOp.shows_call (hd : DistinctPairs envs) (op : EnvOp) :
    bindings (op.call envs).2 = (op.onMap (bindings envs)).2 := by
  by_cases hrefused : op.Refused (bindings envs)
  · rw [call_of_refused hrefused, onMap_of_refused hrefused]
  · cases op with
    | add name key value =>
      have hnone : bindings envs (name, key) = none := not_not.mp hrefused
      rw [shows_add hnone, onMap, if_pos hnone]
    | update name key value =>
      have hbound : bindings envs (name, key) ≠ none := hrefused
      rw [shows_update hbound, onMap, if_neg hbound]
    | remove name key =>
      have hbound : bindings envs (name, key) ≠ none := hrefused
      rw [shows_remove hd hbound, onMap, if_neg hbound]

/-- **Each operation is the one of the map.** -/
theorem EnvOp.conforms (hd : DistinctPairs envs) (op : EnvOp) : op.Conforms envs where
  rc := rc_eq envs op
  shows := shows_call hd op
  refused := call_of_refused
  others := others_of_shows (shows_call hd op)

/-- The pairs stay distinct. -/
theorem EnvOp.distinct_call (hd : DistinctPairs envs) (op : EnvOp) :
    DistinctPairs (op.call envs).2 := by
  cases op with
  | add name key value =>
    simp only [call]
    split
    · exact hd
    · rename_i hany
      have hnone := not_not.mp (mt any_isEnv.mpr hany)
      rw [bindings_eq, lookup_eq_none] at hnone
      rw [DistinctPairs, List.map_append, List.nodup_append']
      exact ⟨hd, List.nodup_singleton _, by simpa [Env.pair] using hnone⟩
  | update name key value =>
    simp only [call]
    split
    · have hpair (e : Env) (_ : isEnv name key e = true) :
          ({ e with value := value } : Env).pair = e.pair := rfl
      exact (congrArg List.Nodup (Table.map_updateFirst hpair envs)).mpr hd
    · exact hd
  | remove name key =>
    simp only [call]
    split
    · exact hd.sublist (List.eraseP_sublist.map _)
    · exact hd

/-- The list without the return code. -/
theorem EnvOp.call_apply (envs : List Env) (op : EnvOp) :
    (op.call envs).2 = EnvOp.apply envs op := by
  cases op with
  | add name key value =>
    simp only [call, apply]
    split <;> rfl
  | update name key value =>
    simp only [call, apply]
    split
    · rfl
    · rename_i hany
      exact (Table.updateFirst_of_forall_not (by simpa using hany)).symm
  | remove name key =>
    simp only [call, apply]
    split
    · rfl
    · rename_i hany
      exact (List.eraseP_of_forall_not (by simpa using hany)).symm

/-! ### The functions on the table -/

variable {t t' : Table Env} {rc : Int}

/-- What `addEnv` does to the table, when it returns. -/
theorem call_of_addEnv (h : addEnv name key value t = .ok (rc, t')) :
    (EnvOp.add name key value).call t.items = (rc, t'.items) := by
  have hzero : ((EnvOp.add name key value).call t.items).1 = 0 := by
    simp only [EnvOp.call]
    split <;> rfl
  have hrc : rc = 0 := by
    rw [addEnv] at h
    split at h
    · cases h
      rfl
    · cases ht : t.append envGrowth ⟨name, key, value⟩ with
      | error e => rw [ht] at h; cases h
      | ok u =>
        rw [ht] at h
        cases h
        rfl
  exact Prod.ext (hzero.trans hrc.symm) ((EnvOp.call_apply _ _).trans (addEnv_apply h).symm)

theorem call_updateEnv (name key value : CStr) (t : Table Env) :
    (EnvOp.update name key value).call t.items =
      ((updateEnv name key value t).1, (updateEnv name key value t).2.items) := by
  simp only [EnvOp.call, updateEnv]
  split <;> rfl

theorem call_removeEnv (name key : CStr) (t : Table Env) :
    (EnvOp.remove name key).call t.items =
      ((removeEnv name key t).1, (removeEnv name key t).2.items) := by
  have hrc : ((EnvOp.remove name key).call t.items).1 = (removeEnv name key t).1 := by
    simp only [EnvOp.call, removeEnv]
    split
    · rename_i hany
      obtain ⟨x, hx⟩ := Option.isSome_iff_exists.mp
        (List.find?_isSome.mpr (List.any_eq_true.mp hany))
      rw [Table.removeFirst_of_some hx]
    · rename_i hany
      rw [Table.removeFirst_eq_none.mpr (by simpa using hany)]
  exact Prod.ext hrc ((EnvOp.call_apply _ _).trans (removeEnv_items name key t).symm)

/-- The function of `env_man`, with its return code. -/
def EnvOp.onTable (t : Table Env) : EnvOp → Except Halt (Int × Table Env)
  | add name key value => addEnv name key value t
  | update name key value => .ok (updateEnv name key value t)
  | remove name key => .ok (removeEnv name key t)

theorem EnvOp.call_of_onTable {op : EnvOp} (h : op.onTable t = .ok (rc, t')) :
    op.call t.items = (rc, t'.items) := by
  cases op with
  | add name key value => exact call_of_addEnv h
  | update name key value =>
    rw [call_updateEnv, Except.ok.inj h]
  | remove name key =>
    rw [call_removeEnv, Except.ok.inj h]

end step

/-! ## Any number of them -/

def callAll (envs : List Env) (ops : List EnvOp) : List Env :=
  ops.foldl (fun envs op => (op.call envs).2) envs

def onMapAll (m : Bindings) (ops : List EnvOp) : Bindings :=
  ops.foldl (fun m op => (op.onMap m).2) m

theorem callAll_keeps (ops : List EnvOp) {envs : List Env} (hd : DistinctPairs envs) :
    DistinctPairs (callAll envs ops) ∧
      bindings (callAll envs ops) = onMapAll (bindings envs) ops := by
  induction ops generalizing envs with
  | nil => exact ⟨hd, rfl⟩
  | cons op ops ih =>
    have hrest := ih (EnvOp.distinct_call hd op)
    rw [EnvOp.shows_call hd op] at hrest
    exact hrest

theorem callAll_of_run {t t' : Table Env} {ops : List EnvOp}
    (h : ops.foldlM EnvOp.exec t = .ok t') : t'.items = callAll t.items ops := by
  rw [exec_foldlM_items ops h, callAll]
  exact congrArg (fun f => ops.foldl f t.items) (funext₂ fun _ _ => (EnvOp.call_apply _ _).symm)

/-- **The env table is a finite map**: whatever is done to it, `showEnv` finds what the map
has, and each operation returns and changes what the one of the map does; and the functions of
`env_man`, on a block with these entries, do as much whenever they return. -/
theorem envs_finite_map {envs : List Env} (hd : DistinctPairs envs) (ops : List EnvOp) :
    DistinctPairs (callAll envs ops) ∧
      (∀ name key, showEnv name key (callAll envs ops) =
        onMapAll (bindings envs) ops (name, key)) ∧
      Every EnvOp.step (fun envs op _ => op.Conforms envs) ops envs ∧
      (∀ (op : EnvOp) (t t' : Table Env) (rc : Int), op.onTable t = .ok (rc, t') →
        op.call t.items = (rc, t'.items)) ∧
      ∀ t t' : Table Env, t.items = envs → ops.foldlM EnvOp.exec t = .ok t' →
        DistinctPairs t'.items ∧
          ∀ name key, showEnv name key t'.items = onMapAll (bindings envs) ops (name, key) := by
  obtain ⟨hdistinct, hshows⟩ := callAll_keeps ops hd
  refine ⟨hdistinct, fun name key => congrFun hshows (name, key), ?_,
    fun op t t' rc h => EnvOp.call_of_onTable h, ?_⟩
  · refine every_of_inv (G := fun _ _ _ => True) (I := DistinctPairs) ?_ ops hd
      (every_true ops envs)
    intro envs op envs' h _ hstep
    cases hstep
    exact ⟨EnvOp.distinct_call h op, EnvOp.conforms h op⟩
  · rintro t t' rfl hrun
    rw [callAll_of_run hrun]
    exact ⟨hdistinct, fun name key => congrFun hshows (name, key)⟩

/-- Two pairs of one name, of which one is rebound and the other removed. -/
theorem envs_finite_map_two : DistinctPairs (callAll
    [⟨.ofBytes [97], .ofBytes [107], .ofBytes [49]⟩, ⟨.ofBytes [97], .ofBytes [108], .ofBytes [50]⟩]
    [.update (.ofBytes [97]) (.ofBytes [107]) (.ofBytes [51]),
      .remove (.ofBytes [97]) (.ofBytes [108])]) :=
  (envs_finite_map (by decide) _).1

end MiniRunner
