import MiniRunner.Restart.Limits

/-!
# When `add-env` and `update-env` restart

The validators let a newline into a value, and the encoder writes it as it is. The
decoder ends the value there and takes the rest into the name of the entry that
follows. Behind the last entry the rest is dropped, which is where `add-env` puts it;
before another entry it gives that entry a name which may be taken.
-/

namespace MiniRunner

open Clib Process

variable {W : Type} {fs : Files}

/-! ## The entry that follows -/

/-- The entry behind the first one of a name and key. -/
def nextEnv (name key : CStr) : List Env → Option Env
  | [] => none
  | e :: envs => if isEnv name key e then envs.head? else nextEnv name key envs

theorem nextEnv_split {name key : CStr} {l : List Env} (hbound : l.any (isEnv name key) = true) :
    ∃ before e after, l = before ++ e :: after ∧ (∀ x ∈ before, isEnv name key x = false) ∧
      isEnv name key e = true ∧ nextEnv name key l = after.head? := by
  induction l with
  | nil => simp at hbound
  | cons x l ih =>
    by_cases hx : isEnv name key x = true
    · exact ⟨[], x, l, rfl, by simp, hx, by simp [nextEnv, hx]⟩
    · obtain ⟨before, e, after, rfl, hbefore, he, hnext⟩ := ih (by simpa [hx] using hbound)
      refine ⟨x :: before, e, after, rfl, ?_, he, by simp [nextEnv, hx, hnext]⟩
      simpa [hx] using hbefore

theorem nextEnv_eq_none {name key : CStr} {l : List Env}
    (hbound : ¬l.any (isEnv name key) = true) : nextEnv name key l = none := by
  induction l with
  | nil => rfl
  | cons x l ih =>
    simp only [List.any_cons, Bool.or_eq_true, not_or] at hbound
    rw [nextEnv, if_neg hbound.1, ih hbound.2]

/-! ## A value with a newline in it -/

theorem envClash_symm {y x : Env} (h : ¬envClash y x = true) : ¬envClash x y = true := by
  simp only [envClash, Bool.and_eq_true, beq_iff_eq, not_and] at *
  exact fun hkey hname => h hkey.symm hname.symm

theorem envClash_glued_self (next : Env) (value : CStr) :
    ¬envClash next (next.glued value) = true := by
  simp only [envClash, Env.glued, Bool.and_eq_true, beq_iff_eq, not_and]
  intro _ hname
  have hlen := congrArg (fun s : CStr => s.bytes.length) hname
  simp only [CStr.append_bytes, List.length_append, List.length_singleton] at hlen
  omega

/-- No entry has the key and the new name of the entry that follows. -/
def GluedFree (value : CStr) (next : Env) (envs : List Env) : Prop :=
  ∀ y ∈ envs, ¬envClash y (next.glued value) = true

instance (value : CStr) (next : Env) (envs : List Env) : Decidable (GluedFree value next envs) :=
  inferInstanceAs (Decidable (∀ y ∈ envs, _))

theorem distinct_update {before after : List Env} {e : Env} (e' : Env)
    (hd : DistinctEnvs (before ++ e :: after)) (hname : e'.name = e.name)
    (hkey : e'.key = e.key) : DistinctEnvs (before ++ e' :: after) := by
  refine Ledger.distinct_of_map_eq (k := fun x : Env => (x.key, x.name))
    (r := fun a b => (a.1 == b.1 && a.2 == b.2) = true) (fun _ _ => Iff.rfl) hd ?_
  simp [hname, hkey]

/-- The entries that are read back are apart exactly when the glued name is free. -/
theorem distinct_glued_iff {before after : List Env} {e next : Env} (e' : Env) (value : CStr)
    (hd : DistinctEnvs (before ++ e :: next :: after)) (hname : e'.name = e.name)
    (hkey : e'.key = e.key) :
    DistinctEnvs (before ++ e' :: next.glued value :: after) ↔
      GluedFree value next (before ++ e :: next :: after) := by
  have hclash : ∀ x, envClash e' x = envClash e x := fun x => by simp [envClash, hname, hkey]
  have hsub : (before ++ e :: after).Sublist (before ++ e :: next :: after) := by simp
  have hrest := distinct_update e' (List.Pairwise.sublist hsub hd) hname hkey
  have hmiddle : DistinctEnvs (before ++ e' :: next.glued value :: after) ↔
      (∀ y ∈ before ++ e' :: after, ¬envClash (next.glued value) y = true) ∧
        DistinctEnvs (before ++ e' :: after) := by
    rw [show before ++ e' :: next.glued value :: after =
      (before ++ [e']) ++ next.glued value :: after by simp,
      show before ++ e' :: after = (before ++ [e']) ++ after by simp]
    exact (List.pairwise_middle envClash_symm).trans List.pairwise_cons
  rw [hmiddle, and_iff_left hrest, GluedFree]
  constructor
  · intro h y hy
    simp only [List.mem_append, List.mem_cons] at hy
    rcases hy with hy | rfl | rfl | hy
    · exact envClash_symm (h y (by simp [hy]))
    · exact hclash (next.glued value) ▸ envClash_symm (h e' (by simp))
    · exact envClash_glued_self y value
    · exact envClash_symm (h y (by simp [hy]))
  · intro h y hy
    simp only [List.mem_append, List.mem_cons] at hy
    rcases hy with hy | rfl | hy
    · exact envClash_symm (h y (by simp [hy]))
    · exact envClash_symm (hclash (next.glued value) ▸ h e (by simp))
    · exact envClash_symm (h y (by simp [hy]))

theorem loadEnvs_ok_iff {l : List Env} (hok : ∀ e ∈ l, e.Ok) (hn : l.length ≤ envLimit) :
    (∃ t, loadEnvs initialEnvs (envsText l) = .ok t) ↔ DistinctEnvs l := by
  rw [envsText_eq]
  refine (envsFormat.parse_text_iff envs_loads envBlock_initialEnvs rfl hok hn).trans ?_
  simp [envsFormat]

/-- **What an update leaves loads** unless a newline in the value gives the entry that
follows a name that is taken. -/
theorem updated_loads_iff {name key value : CStr} {l : List Env} (hok : ∀ e ∈ l, e.Ok)
    (hd : DistinctEnvs l) (hn : l.length ≤ envLimit) (hvalue : backquote ∉ value.bytes) :
    (∃ t, loadEnvs initialEnvs (envsText (Table.updateFirst (isEnv name key)
      (fun e => { e with value := value }) l)) = .ok t) ↔
      ∀ next ∈ nextEnv name key l, newline ∈ value.bytes → GluedFree value next l := by
  by_cases hbound : l.any (isEnv name key) = true
  swap
  · rw [nextEnv_eq_none hbound, Table.updateFirst_of_forall_not (by simpa using hbound),
      loadEnvs_ok_iff hok hn]
    exact iff_of_true hd (by simp)
  obtain ⟨before, e, after, rfl, hbefore, he, hnext⟩ := nextEnv_split hbound
  obtain ⟨hokBefore, hokRest⟩ := List.forall_mem_append.mp hok
  obtain ⟨hokE, hokAfter⟩ := List.forall_mem_cons.mp hokRest
  rw [Table.updateFirst_append_cons hbefore he, hnext]
  -- the entry as it is read back, up to a newline in its value
  have hcut : (Env.cut { e with value := value }).Ok := Env.cut_ok hokE.name hokE.key
  by_cases hnewline : newline ∈ value.bytes
  swap
  · have hokNew : Env.Ok { e with value := value } := ⟨hokE.name, hokE.key, hnewline⟩
    have hokAll := List.forall_mem_append.mpr
      ⟨hokBefore, List.forall_mem_cons.mpr ⟨hokNew, hokAfter⟩⟩
    exact iff_of_true ((loadEnvs_ok_iff hokAll (by simpa using hn)).mpr
      (distinct_update _ hd rfl rfl)) fun next _ h => absurd h hnewline
  cases after with
  | nil =>
    refine iff_of_true ?_ (by simp)
    have hokLast := List.forall_mem_append.mpr ⟨hokBefore, List.forall_mem_singleton.mpr hcut⟩
    rw [loadEnvs_cut_last (e := { e with value := value }) hokBefore hokE.name hokE.key hvalue
      hnewline, loadEnvs_ok_iff hokLast (by simpa using hn)]
    exact distinct_update _ hd rfl rfl
  | cons next after =>
    obtain ⟨hokNext, hokAfter⟩ := List.forall_mem_cons.mp hokAfter
    have hokGlued := List.forall_mem_append.mpr ⟨hokBefore, List.forall_mem_cons.mpr
      ⟨hcut, List.forall_mem_cons.mpr ⟨Env.glued_ok hokNext hvalue, hokAfter⟩⟩⟩
    rw [envsText_glued (e := { e with value := value }) hnewline,
      loadEnvs_ok_iff hokGlued (by simpa using hn)]
    refine (distinct_glued_iff (Env.cut { e with value := value }) value hd rfl rfl).trans ?_
    simp [hnewline]

/-- What an addition leaves loads: the new entry is the last one. -/
theorem added_loads {l : List Env} {e : Env} (hok : ∀ x ∈ l, x.Ok) (hd : DistinctEnvs l)
    (hn : l.length < envLimit) (hfresh : ∀ x ∈ l, ¬envClash x e = true)
    (hname : backquote ∉ e.name.bytes) (hkey : caret ∉ e.key.bytes)
    (hvalue : backquote ∉ e.value.bytes) :
    ∃ t, loadEnvs initialEnvs (envsText (l ++ [e])) = .ok t := by
  have hlen : ∀ x : Env, (l ++ [x]).length ≤ envLimit := fun x => by simpa using hn
  have hokAll : ∀ x : Env, x.Ok → ∀ y ∈ l ++ [x], y.Ok := fun x hx =>
    List.forall_mem_append.mpr ⟨hok, List.forall_mem_singleton.mpr hx⟩
  have hdistinct : DistinctEnvs (l ++ [e]) :=
    Ledger.distinct_append_singleton.mpr ⟨hd, hfresh⟩
  by_cases hnewline : newline ∈ e.value.bytes
  · rw [loadEnvs_cut_last hok hname hkey hvalue hnewline,
      loadEnvs_ok_iff (hokAll _ (Env.cut_ok hname hkey)) (hlen _)]
    exact distinct_update _ hdistinct rfl rfl
  · exact (loadEnvs_ok_iff (hokAll e ⟨hname, hkey, hnewline⟩) (hlen e)).mpr hdistinct

/-! ## The commands -/

def Stored.Bound (st : Stored fs) (name key : CStr) : Prop :=
  st.envs.items.any (isEnv name key) = true

instance (st : Stored fs) (name key : CStr) : Decidable (st.Bound name key) :=
  inferInstanceAs (Decidable (_ = _))

/-- The validators take name, key and value. -/
def ValidEnv (name key value : CStr) : Prop :=
  isValidEnvName name = true ∧ isValidEnvKey key = true ∧ isValidEnvValue value = true

instance (name key value : CStr) : Decidable (ValidEnv name key value) :=
  inferInstanceAs (Decidable (_ ∧ _ ∧ _))

theorem ValidEnv.not_iff {name key value : CStr} :
    ¬ValidEnv name key value ↔
      isValidEnvName name = false ∨ isValidEnvKey key = false ∨ isValidEnvValue value = false := by
  simp only [ValidEnv, ← Bool.not_eq_true]
  tauto

theorem Loaded.closesWell_envs {w : W} {p : Process W} (hp : Loaded fs w p) (st : Stored fs)
    (hfit : ∀ s ∈ st.services.items, s.Fits) (t : Table Env) :
    ClosesWell { p with envs := t } ↔
      st.Waits ∨ ∃ t', loadEnvs initialEnvs (envsText t.items) = .ok t' := by
  have hready := hp.ready st hfit
  have hintact : Intact fs { p with envs := t } :=
    ⟨hready.files, hready.state, hready.services, hready.jobs, hready.limits⟩
  rw [closesWell_iff st hintact, Waits, hp.eq_jobs st]
  exact or_congr_right (and_iff_right hready.servicesReload)

section commands

variable (st : Stored fs) (hfit : ∀ s ∈ st.services.items, s.Fits)

include hfit

theorem updateEnv_restarts_iff (name key value : CStr) :
    Restarts fs (.updateEnv name key value) ↔ ¬ValidEnv name key value ∨ st.Waits ∨
      ∀ next ∈ nextEnv name key st.envs.items, newline ∈ value.bytes →
        GluedFree value next st.envs.items := by
  by_cases hvalid : ValidEnv name key value
  swap
  · exact iff_of_true (kept_restarts st hfit fun sys => if_pos (ValidEnv.not_iff.mp hvalid))
      (.inl hvalid)
  rw [or_iff_right (not_not.mpr hvalid)]
  have hrefused := mt ValidEnv.not_iff.mpr (not_not.mpr hvalid)
  refine restarts_iff_of st fun {W} sys {w p E} hp => ?_
  obtain ⟨hok, hd, hblock⟩ := loadEnvs_sound hp.envs
  simp only [Command.exec, if_neg hrefused, wp_failing, wp_onEnvs]
  rw [hp.closesWell_envs st hfit, updateEnv_items, hp.eq_envs st,
    updated_loads_iff (hp.eq_envs st ▸ hok) (hp.eq_envs st ▸ hd) (hp.eq_envs st ▸ hblock).length_le
      (checkEnv_eq_true.mp hvalid.2.2).1]

theorem addEnv_restarts_iff (name key value : CStr) :
    Restarts fs (.addEnv name key value) ↔ ¬ValidEnv name key value ∨ st.Bound name key ∨
      st.envs.items.length < envLimit := by
  by_cases hvalid : ValidEnv name key value
  swap
  · exact iff_of_true (kept_restarts st hfit fun sys => if_pos (ValidEnv.not_iff.mp hvalid))
      (.inl hvalid)
  rw [or_iff_right (not_not.mpr hvalid)]
  have hrefused := mt ValidEnv.not_iff.mpr (not_not.mpr hvalid)
  obtain ⟨hok, hd, hblock⟩ := loadEnvs_sound st.loadsEnvs
  by_cases hbound : st.Bound name key
  · refine iff_of_true (restarts_of st fun W sys w p hp => ?_) (.inl hbound)
    have hbound' : p.envs.items.any (isEnv name key) = true := hp.eq_envs st ▸ hbound
    simp only [Command.exec, if_neg hrefused, wp_failing, wp_onEnvs, addEnv, if_pos hbound']
    exact hp.closesWell st hfit p.world
  rw [or_iff_right hbound]
  by_cases hroom : st.envs.items.length < envLimit
  · refine iff_of_true (restarts_of st fun W sys w p hp => ?_) hroom
    have hbound' : ¬p.envs.items.any (isEnv name key) = true := hp.eq_envs st ▸ hbound
    obtain ⟨t, happend, hblock'⟩ := (hp.eq_envs st ▸ hblock : EnvBlock p.envs).append
      ⟨name, key, value⟩ (hp.eq_envs st ▸ hroom)
    simp only [Command.exec, if_neg hrefused, wp_failing, wp_onEnvs, addEnv, if_neg hbound',
      happend]
    refine (hp.closesWell_envs st hfit t).mpr (.inr ?_)
    rw [Table.append_items happend, hp.eq_envs st]
    refine added_loads hok hd hroom (fun x hx => ?_) (checkEnv_eq_true.mp hvalid.1).1
      (checkEnv_eq_true.mp hvalid.2.1).2 (checkEnv_eq_true.mp hvalid.2.2).1
    have hx' := fun h => hbound (List.any_eq_true.mpr ⟨x, hx, h⟩)
    simpa [isEnv, envClash, and_comm] using hx'
  · refine iff_of_false (fun h => ?_) hroom
    obtain ⟨p, hp, hbody⟩ := h.exec st .allFail ()
    have hbound' : ¬p.envs.items.any (isEnv name key) = true := hp.eq_envs st ▸ hbound
    have hfull := (hp.eq_envs st ▸ hblock : EnvBlock p.envs).append_full ⟨name, key, value⟩
      (hp.eq_envs st ▸ Nat.le_of_not_lt hroom)
    simp only [Command.exec, if_neg hrefused, wp_failing, wp_onEnvs, addEnv, if_neg hbound',
      hfull] at hbody
    exact hbody.1 rfl

end commands

end MiniRunner
