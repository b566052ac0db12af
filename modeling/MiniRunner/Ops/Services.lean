import MiniRunner.IoMan
import MiniRunner.Ops.Tables

/-!
# Operations on services

`ops/` and `utils_ops/add_project.c`: what `add`, `remove`, `stop` and `rename` do
to a process, with every call into the world taken from `Calls`. A lookup by name
is the loop that stops at the first match.

Each operation has one `wp_` lemma that says everything it can do, for every answer
of the world: the return code, the tables it leaves, and that nothing else of the
process moved.
-/

namespace MiniRunner

open Clib Process

variable {W : Type} (sys : Calls W)

/-- `/var/lib/`. -/
def serviceRoot : CStr := ⟨[47, 118, 97, 114, 47, 108, 105, 98, 47], by decide⟩

/-! ## Lookup -/

def findService (name : CStr) : Exec (Process W) (Option Service) := fun p =>
  .ok (p.services.items.find? (·.name == name)) p

def updateService (name : CStr) (f : Service → Service) : Exec (Process W) Unit := fun p =>
  .ok () { p with
    services := p.services.mapItems (Table.updateFirst (·.name == name) f)
      (Table.length_updateFirst _ _ _) }

/-! ## Adding -/

def markCloned (services : List Service) : List Service :=
  services.modify (services.length - 1) fun s => { s with cloned := true }

def addProject (githubRepo nickName : CStr) : Exec (Process W) Int := do
  let newService : Service := ⟨githubRepo, nickName, 0, false⟩
  let rc ← onServices (·.insert serviceGrowth (serviceClash · newService) newService)
  if rc ≠ 0 then pure (-1)
  else
    match ← call (sys.clone githubRepo nickName) with
    | .gaveUp => throw .aborted
    | .failed => pure (-1)
    | .done => do
      modify fun p => { p with services := p.services.mapItems markCloned (by simp [markCloned]) }
      pure 0

/-! ## Killing -/

/-- `killProcess` of `stop_service.c`. -/
def killProcess (pid : BitVec 32) : Exec (Process W) Int := do
  if (← call (sys.kill .probe pid)) ≠ 0 then pure 0
  else if (← call (sys.kill .sigkill pid)) ≠ 0 then pure (-1)
  else pure 0

/-- `killProcess` of `delete_service.c` and `killService` of `restart_service.c`. -/
def killService (pid : BitVec 32) : Exec (Process W) Int :=
  if pid = 0 then pure 0 else killProcess sys pid

/-! ## Removing -/

/-- The size of the buffer `command` of `deleteFromPcFolder`. -/
def folderCommandSize : Nat := 100

def deleteFromPcFolder (serviceName : CStr) : Exec (Process W) Int :=
  if folderCommandSize < (serviceRoot.append serviceName).len + 1 then throw .undefined
  else do
    if (← call (sys.folderExists serviceName)) = false then pure 0
    else if (← call (sys.deleteFolderRecursievly serviceName)) ≠ 0 then pure (-1)
    else pure 0

/-- The removal loop; a table that becomes empty is NULL with its first capacity. -/
def dropService (serviceName : CStr) (services : Table Service) :
    Except Halt (Unit × Table Service) :=
  match services.removeFirst (·.name == serviceName) with
  | none => .ok ((), services)
  | some (_, services) =>
    if services.items.isEmpty then
      .ok ((), .blank initialScaleSizeOfServices 0)
    else .ok ((), services)

def normalDeleteServices (serviceName : CStr) : Exec (Process W) Int := do
  let p ← get
  if p.services.isNull then pure (-1)
  else
    match ← findService serviceName with
    | none => pure (-1)
    | some s =>
      if (← deleteFromPcFolder sys s.name) ≠ 0 then pure (-1)
      else do
        onServices (dropService serviceName)
        let p ← get
        if p.services.items.isEmpty then
          let _ ← killService sys s.pid
          if (← onLimits fun t => .ok (removeLimit s.name t)) ≠ 0 then pure (-1) else pure 0
        else
          if (← onLimits fun t => .ok (removeLimit s.name t)) ≠ 0 then pure (-1)
          else
            let _ ← killService sys s.pid
            pure 0

/-! ## Stopping -/

def stopService (serviceName : CStr) : Exec (Process W) Int := do
  match ← findService serviceName with
  | none => pure (-1)
  | some s =>
    if s.pid = 0 then pure 0
    else if (← killProcess sys s.pid) ≠ 0 then pure (-1)
    else if (← call (sys.updateCgrp serviceName)) ≠ 0 then pure (-1)
    else
      updateService serviceName fun s => { s with pid := 0 }
      pure 0

/-! ## Renaming -/

def renameService (serviceName newName : CStr) : Exec (Process W) Unit := do
  let p ← get
  if p.services.isNull then pure ()
  else
    match ← findService serviceName with
    | none => pure ()
    | some s =>
      if (← call (sys.renameFolder serviceName newName)) ≠ 0 then pure ()
      else if (← call (sys.renameCgrp serviceName newName s.pid)) ≠ 0 then
        let _ ← call (sys.renameFolder newName serviceName)
        pure ()
      else if (← onLimits fun t => .ok (renameLimit serviceName newName t)) ≠ 0 then
        -- the cgroup is only put back when the folder could not be
        if (← call (sys.renameFolder newName serviceName)) ≠ 0 then
          let _ ← call (sys.renameCgrp newName serviceName s.pid)
          pure ()
        else pure ()
      else updateService serviceName fun s => { s with name := newName }

/-! ## What the calls answer -/

/-- The folder is gone: there was none, or it could be deleted. -/
def folderDeleted (serviceName : CStr) (w : W) : Bool :=
  let (there, w) := sys.folderExists serviceName w
  !there || (sys.deleteFolderRecursievly serviceName w).1 == 0

/-- The process is dead: there was none, or it could be killed. -/
def killAnswer (pid : BitVec 32) (w : W) : Bool × W :=
  let (probed, w) := sys.kill .probe pid w
  if probed ≠ 0 then (true, w)
  else
    let (killed, w) := sys.kill .sigkill pid w
    (killed == 0, w)

/-- The service is there, its process is dead and its cgroup was updated. -/
def stopAnswer (serviceName : CStr) (services : List Service) (w : W) : Bool × W :=
  match services.find? (·.name == serviceName) with
  | none => (false, w)
  | some s =>
    if s.pid = 0 then (true, w)
    else
      let (dead, w) := killAnswer sys s.pid w
      if dead = false then (false, w)
      else
        let (updated, w) := sys.updateCgrp serviceName w
        (updated == 0, w)

/-! ## What the operations do -/

section specs

variable {sys} {p : Process W}

@[simp] theorem wp_findService {name : CStr} {Q : Option Service → Process W → Prop}
    {E : Halt → Process W → Prop} :
    Exec.wp (findService name) Q E p ↔ Q (p.services.items.find? (·.name == name)) p :=
  Exec.wp_total

def withService (name : CStr) (f : Service → Service) (t : Table Service) : Table Service :=
  t.mapItems (Table.updateFirst (·.name == name) f) (Table.length_updateFirst _ _ _)

@[simp] theorem wp_updateService {name : CStr} {f : Service → Service}
    {Q : Unit → Process W → Prop} {E : Halt → Process W → Prop} :
    Exec.wp (updateService name f) Q E p ↔
      Q () { p with services := withService name f p.services } := Exec.wp_total

/-- The service `addProject` makes, before and after the clone. -/
def addedService (githubRepo nickName : CStr) (cloned : Bool) : Service :=
  ⟨githubRepo, nickName, 0, cloned⟩

theorem markCloned_append (l : List Service) (githubRepo nickName : CStr) :
    markCloned (l ++ [addedService githubRepo nickName false]) =
      l ++ [addedService githubRepo nickName true] := by
  rw [markCloned, List.length_append, List.length_singleton, Nat.add_sub_cancel,
    List.modify_eq_set_getElem?]
  simp [addedService]

/-- No service of the table has that repo or that name. -/
def Fresh (githubRepo nickName : CStr) (l : List Service) : Prop :=
  ∀ y ∈ l, serviceClash y (addedService githubRepo nickName true) = false

instance (githubRepo nickName : CStr) (l : List Service) :
    Decidable (Fresh githubRepo nickName l) :=
  inferInstanceAs (Decidable (∀ y ∈ _, _))

/-- **What `addProject` does to the services**: a fresh one is appended, cloned when
the clone is done; a failed clone leaves it there uncloned, a clash changes nothing. -/
inductive Added (githubRepo nickName : CStr) (l : List Service) :
    Cloned → Int → List Service → Prop
  | done : Fresh githubRepo nickName l →
      Added githubRepo nickName l .done 0 (l ++ [addedService githubRepo nickName true])
  | uncloned : Fresh githubRepo nickName l →
      Added githubRepo nickName l .failed (-1) (l ++ [addedService githubRepo nickName false])
  | clash (c : Cloned) : ¬Fresh githubRepo nickName l → Added githubRepo nickName l c (-1) l

/-- What `addProject` does on any table: it stops when the block cannot grow, and gives
up when the clone does. -/
theorem wp_addProject_cases (githubRepo nickName : CStr) :
    Exec.wp (addProject sys githubRepo nickName)
      (fun rc p' => ∃ t w l, p' = { p with services := t, world := w } ∧ t.items = l ∧
        Added githubRepo nickName p.services.items (sys.clone githubRepo nickName p.world).1 rc l)
      (fun e p' => (e = .aborted ∧ p'.files = p.files ∧ Fresh githubRepo nickName p.services.items ∧
          (sys.clone githubRepo nickName p.world).1 = .gaveUp) ∨
        p.services.append serviceGrowth (addedService githubRepo nickName false) = .error e) p := by
  simp only [addProject, Exec.wp_bind]
  by_cases hc : p.services.items.any
      (serviceClash · (addedService githubRepo nickName false)) = true
  · have hins : p.services.insert serviceGrowth (serviceClash · ⟨githubRepo, nickName, 0, false⟩)
        ⟨githubRepo, nickName, 0, false⟩ = .ok (-1, p.services) := Table.insert_of_clash hc
    simp only [wp_onServices, hins, ne_eq, reduceCtorEq, not_false_eq_true, if_true, Exec.wp_pure]
    refine ⟨p.services, p.world, _, rfl, rfl, .clash _ fun hfresh => ?_⟩
    obtain ⟨y, hy, hclash⟩ := List.any_eq_true.mp hc
    exact Bool.false_ne_true ((hfresh y hy).symm.trans hclash)
  · rw [Bool.not_eq_true] at hc
    have hfresh : Fresh githubRepo nickName p.services.items := by
      intro y hy
      exact Bool.not_eq_true _ ▸ List.any_eq_false.mp hc y hy
    have hins : p.services.insert serviceGrowth (serviceClash · ⟨githubRepo, nickName, 0, false⟩)
        ⟨githubRepo, nickName, 0, false⟩ = _ := Table.insert_of_fresh hc
    rw [wp_onServices, hins]
    cases ht : p.services.append serviceGrowth (addedService githubRepo nickName false) with
    | error e =>
      rw [show p.services.append serviceGrowth ⟨githubRepo, nickName, 0, false⟩ = _ from ht]
      exact .inr rfl
    | ok t =>
      have hitems := Table.append_items ht
      rw [show p.services.append serviceGrowth ⟨githubRepo, nickName, 0, false⟩ = _ from ht]
      simp only [Except.map, ne_eq, not_true_eq_false, if_false, Exec.wp_bind, wp_call]
      cases sys.clone githubRepo nickName p.world with
      | mk cloned w =>
        cases cloned with
        | gaveUp => exact (Exec.wp_throw _).mpr (.inl ⟨rfl, rfl, hfresh, rfl⟩)
        | failed =>
          simp only [Exec.wp_pure]
          exact ⟨t, w, _, rfl, hitems, .uncloned hfresh⟩
        | done =>
          simp only [Exec.wp_bind, Exec.wp_modify, Exec.wp_pure]
          refine ⟨t.mapItems markCloned (by simp [markCloned]), w, _, rfl, ?_, .done hfresh⟩
          simp only [Table.mapItems, hitems, markCloned_append]

theorem wp_addProject (githubRepo nickName : CStr) (hp : p.services.Honest) :
    Exec.wp (addProject sys githubRepo nickName)
      (fun rc p' => ∃ t w l, p' = { p with services := t, world := w } ∧ t.items = l ∧
        Added githubRepo nickName p.services.items (sys.clone githubRepo nickName p.world).1 rc l)
      (fun e p' => e = .aborted ∧ p'.files = p.files ∧ Fresh githubRepo nickName p.services.items ∧
        (sys.clone githubRepo nickName p.world).1 = .gaveUp) p := by
  refine Exec.wp_mono (wp_addProject_cases githubRepo nickName) (fun _ _ h => h) ?_
  rintro e p' (h | h)
  · exact h
  · obtain ⟨t, ht, -⟩ := hp.append serviceGrowth_safe (addedService githubRepo nickName false)
    cases ht.symm.trans h

theorem wp_killProcess {pid : BitVec 32} {Q : Int → Process W → Prop}
    {E : Halt → Process W → Prop} :
    Exec.wp (killProcess sys pid) Q E p ↔
      Q (if (killAnswer sys pid p.world).1 then 0 else -1)
        { p with world := (killAnswer sys pid p.world).2 } := by
  simp only [killProcess, killAnswer, Exec.wp_bind, wp_call]
  split
  · simp
  · by_cases hkilled : (sys.kill .sigkill pid (sys.kill .probe pid p.world).2).1 = 0 <;>
      simp [Exec.wp_bind, wp_call, hkilled]

theorem wp_killService {pid : BitVec 32} {Q : Int → Process W → Prop}
    {E : Halt → Process W → Prop} (h : ∀ rc w, Q rc { p with world := w }) :
    Exec.wp (killService sys pid) Q E p := by
  simp only [killService, Exec.wp_ite, Exec.wp_pure]
  exact ⟨fun _ => h 0 p.world, fun _ => wp_killProcess.mpr (h _ _)⟩

/-- The shell command for the folder of this service fits its buffer. -/
def FolderFits (name : CStr) : Prop := name.len ≤ 90

instance (name : CStr) : Decidable (FolderFits name) := inferInstanceAs (Decidable (_ ≤ _))

theorem len_serviceRoot_append (name : CStr) : (serviceRoot.append name).len = name.len + 9 := by
  simp [CStr.append, CStr.len, serviceRoot]

theorem wp_deleteFromPcFolder {name : CStr} {Q : Int → Process W → Prop}
    {E : Halt → Process W → Prop} (hfits : FolderFits name)
    (h : ∀ rc w, (rc = 0 ↔ folderDeleted sys name p.world = true) → Q rc { p with world := w }) :
    Exec.wp (deleteFromPcFolder sys name) Q E p := by
  unfold deleteFromPcFolder
  rw [if_neg (by simp only [len_serviceRoot_append, folderCommandSize, FolderFits] at *; omega)]
  simp only [Exec.wp_bind, wp_call, Exec.wp_ite, Exec.wp_pure]
  refine ⟨fun hno => h _ _ ?_, fun hthere => ⟨fun hfails => h _ _ ?_, fun hdone => h _ _ ?_⟩⟩
  · simp [folderDeleted, hno]
  · rw [Bool.not_eq_false] at hthere
    simp [folderDeleted, hthere, hfails]
  · simp [folderDeleted, not_not.mp hdone]

theorem wp_deleteFromPcFolder_undefined {name : CStr} {Q : Int → Process W → Prop}
    {E : Halt → Process W → Prop} (hfits : ¬FolderFits name) :
    Exec.wp (deleteFromPcFolder sys name) Q E p ↔ E .undefined p := by
  unfold deleteFromPcFolder
  rw [if_pos (by simp only [len_serviceRoot_append, folderCommandSize, FolderFits] at *; omega)]
  exact Exec.wp_throw _

theorem dropService_eq (name : CStr) (t : Table Service) :
    ∃ t', dropService name t = .ok ((), t') ∧
      t'.items = Ledger.strike (·.name == name) t.items := by
  unfold dropService
  split
  · rename_i h
    exact ⟨t, rfl, (List.eraseP_of_forall_not fun x hx => by
      simpa using Table.removeFirst_eq_none.mp h x hx).symm⟩
  · rename_i t' h
    have hitems := (Table.removeFirst_eq_some h).2
    split
    · rename_i hnil
      exact ⟨_, rfl, (List.isEmpty_iff.mp hnil).symm.trans hitems⟩
    · exact ⟨t', rfl, hitems⟩

variable (sys) in
/-- The service is there, and its folder is gone. -/
def Deletable (name : CStr) (p : Process W) : Prop :=
  (p.services.items.find? (·.name == name)).isSome ∧ folderDeleted sys name p.world = true

variable (sys) in
/-- **What `normalDeleteServices` does**: on 0 the service and its limit are gone, on
-1 nothing is. -/
inductive Deleted (name : CStr) (p : Process W) : Int → Process W → Prop
  | gone (t : Table Service) (lim : Table Limit) (w : W) :
      t.items = Ledger.strike (·.name == name) p.services.items →
      lim.items = Ledger.strike (·.name == name) p.limits.items → Deletable sys name p →
      Deleted name p 0 { p with services := t, limits := lim, world := w }
  | kept (w : W) : ¬Deletable sys name p → Deleted name p (-1) { p with world := w }

theorem wp_normalDeleteServices (name : CStr)
    (hfits : (p.services.items.find? (·.name == name)).isSome → FolderFits name) :
    Exec.wp (normalDeleteServices sys name) (Deleted sys name p) (fun _ _ => False) p := by
  simp only [normalDeleteServices, Exec.wp_bind, Exec.wp_get, Exec.wp_ite, Exec.wp_pure,
    wp_findService]
  refine ⟨fun hnull => .kept p.world fun h => ?_, fun _ => ?_⟩
  · obtain ⟨s, hfind⟩ := Option.isSome_iff_exists.mp h.1
    rw [Table.isNull_eq_false (List.ne_nil_of_mem (List.mem_of_find?_eq_some hfind))] at hnull
    cases hnull
  cases hfind : p.services.items.find? (·.name == name) with
  | none =>
    refine (Exec.wp_pure _).mpr (.kept p.world fun h => ?_)
    simp [Deletable, hfind] at h
  | some s =>
    have hname : s.name = name := by simpa using List.find?_some hfind
    simp only [Exec.wp_bind, hname]
    refine wp_deleteFromPcFolder (hfits (by simp [hfind])) fun rc w hrc => ?_
    have hdeletable : Deletable sys name p ↔ rc = 0 := by
      rw [Deletable, hfind, hrc]
      exact and_iff_right rfl
    obtain ⟨t, ht, hitems⟩ := dropService_eq name p.services
    have hlim := removeLimit_items name p.limits
    simp only [Exec.wp_ite, Exec.wp_pure, Exec.wp_bind, wp_onServices, ht, Exec.wp_get,
      wp_onLimits, removeLimit_rc, ne_eq, not_true_eq_false, false_implies, not_false_eq_true,
      true_implies, true_and]
    refine ⟨fun hno => .kept w (hdeletable.not.mpr hno), fun hdone => ?_⟩
    have hgone := hdeletable.mpr (not_not.mp hdone)
    exact ⟨fun _ => wp_killService fun _ w' => .gone t _ w' hitems hlim hgone,
      fun _ => wp_killService fun _ w' => .gone t _ w' hitems hlim hgone⟩

theorem wp_normalDeleteServices_undefined {name : CStr} {Q : Int → Process W → Prop}
    {E : Halt → Process W → Prop}
    (hfound : (p.services.items.find? (·.name == name)).isSome) (hfits : ¬FolderFits name) :
    Exec.wp (normalDeleteServices sys name) Q E p ↔ E .undefined p := by
  obtain ⟨s, hfind⟩ := Option.isSome_iff_exists.mp hfound
  have hname : s.name = name := by simpa using List.find?_some hfind
  have hnull : p.services.isNull = false :=
    Table.isNull_eq_false (List.ne_nil_of_mem (List.mem_of_find?_eq_some hfind))
  simp only [normalDeleteServices, Exec.wp_bind, Exec.wp_get, hnull, Bool.false_eq_true, if_false,
    wp_findService, hfind, hname, wp_deleteFromPcFolder_undefined hfits]

variable (sys) in
/-- **What `stopService` does**: on 0 the pid of the named service is 0. -/
inductive Stopped (name : CStr) (p : Process W) : Int → Process W → Prop
  | stopped (t : Table Service) (w : W) :
      t.items = Table.updateFirst (·.name == name) (fun s => { s with pid := 0 })
        p.services.items → stopAnswer sys name p.services.items p.world = (true, w) →
      Stopped name p 0 { p with services := t, world := w }
  | kept (w : W) : stopAnswer sys name p.services.items p.world = (false, w) →
      Stopped name p (-1) { p with world := w }

theorem wp_stopService (name : CStr) :
    Exec.wp (stopService sys name) (Stopped sys name p) (fun _ _ => False) p := by
  have hanswer : stopAnswer sys name p.services.items p.world =
      stopAnswer sys name p.services.items p.world := rfl
  simp only [stopService, Exec.wp_bind, wp_findService]
  conv_rhs at hanswer => rw [stopAnswer]
  cases hfind : p.services.items.find? (·.name == name) with
  | none =>
    rw [hfind] at hanswer
    exact (Exec.wp_pure _).mpr (.kept p.world hanswer)
  | some s =>
    simp only [hfind] at hanswer
    simp only [Exec.wp_ite, Exec.wp_pure, Exec.wp_bind, wp_killProcess, wp_call, wp_updateService]
    refine ⟨fun hpid => ?_, fun hpid => ⟨fun halive => ?_, fun hdead => ⟨fun hfails => ?_,
      fun hdone => ?_⟩⟩⟩
    · rw [if_pos hpid] at hanswer
      refine .stopped p.services p.world (Table.updateFirst_eq_self hfind ?_).symm hanswer
      rw [← hpid]
    all_goals rw [if_neg hpid] at hanswer
    · refine .kept _ (hanswer.trans (if_pos ?_))
      simpa using halive
    · have hkilled : (killAnswer sys s.pid p.world).1 = true := by simpa using hdead
      refine .kept _ (hanswer.trans ?_)
      simp [hkilled, hfails]
    · have hkilled : (killAnswer sys s.pid p.world).1 = true := by simpa using hdead
      refine .stopped _ _ rfl (hanswer.trans ?_)
      simp [hkilled, not_not.mp hdone]

/-- **What `renameService` does**: the service and its limit are renamed, or neither. -/
inductive Renamed (name newName : CStr) (p : Process W) : Process W → Prop
  | renamed (t : Table Service) (lim : Table Limit) (w : W) :
      (p.services.items.find? (·.name == name)).isSome →
      t.items = Table.updateFirst (·.name == name) (fun s => { s with name := newName })
        p.services.items →
      lim.items = Table.updateFirst (·.name == name) (fun l => { l with name := newName })
        p.limits.items →
      Renamed name newName p { p with services := t, limits := lim, world := w }
  | kept (w : W) : Renamed name newName p { p with world := w }

theorem wp_renameService (name newName : CStr) :
    Exec.wp (renameService sys name newName) (fun _ => Renamed name newName p)
      (fun _ _ => False) p := by
  simp only [renameService, Exec.wp_bind, Exec.wp_get, Exec.wp_ite, Exec.wp_pure, wp_findService]
  refine ⟨fun _ => .kept p.world, fun _ => ?_⟩
  cases hfind : p.services.items.find? (·.name == name) with
  | none => exact (Exec.wp_pure _).mpr (.kept p.world)
  | some s =>
    simp only [Exec.wp_bind, wp_call, Exec.wp_ite, Exec.wp_pure, wp_onLimits, wp_updateService]
    refine ⟨fun _ => .kept _, fun _ => ⟨fun _ => .kept _, fun _ => ?_⟩⟩
    -- without a limits table the rename is taken back
    by_cases hnull : p.limits.isNull = true
    · simp only [renameLimit, if_pos hnull]
      exact ⟨fun _ => ⟨fun _ => .kept _, fun _ => .kept _⟩, fun h => absurd (by decide) h⟩
    · simp only [renameLimit, if_neg hnull]
      exact ⟨fun h => absurd rfl h, fun _ => .renamed _ _ _ (by simp [hfind]) rfl rfl⟩

/-- When every call works, a service that is found is renamed. -/
theorem wp_renameService_allWell {p : Process Unit} {name newName : CStr} {k : BitVec 32}
    (hfound : (p.services.items.find? (·.name == name)).isSome)
    (hlimits : p.limits.isNull = false) :
    Exec.wp (renameService (.allWell k) name newName)
      (fun _ p' => ∃ t lim, p' = { p with services := t, limits := lim } ∧
        t.items = Table.updateFirst (·.name == name) (fun s => { s with name := newName })
          p.services.items ∧
        lim.items = Table.updateFirst (·.name == name) (fun l => { l with name := newName })
          p.limits.items) (fun _ _ => False) p := by
  obtain ⟨s, hfind⟩ := Option.isSome_iff_exists.mp hfound
  have hnull : p.services.isNull = false :=
    Table.isNull_eq_false (List.ne_nil_of_mem (List.mem_of_find?_eq_some hfind))
  simp only [renameService, Exec.wp_bind, Exec.wp_get, hnull, Bool.false_eq_true, if_false,
    wp_findService, hfind, wp_call, Calls.allWell, ne_eq, not_true_eq_false, wp_onLimits,
    renameLimit, hlimits, wp_updateService]
  exact ⟨_, _, rfl, rfl, rfl⟩

end specs

end MiniRunner
