import MiniRunner.Clib.Removal
import MiniRunner.Ops.EnvBounds
import MiniRunner.Ops.LimitBounds

/-!
# The four removal loops

`normalDeleteServices`, `removeJob`, `removeEnv` and `removeLimit` are one loop each, on
entries of which the blocks are known: the record and its strings. `removal_exact` says what
the four have in common, and the lemmas after it that they are the lookups and removals of
the arrays without blocks.
-/

namespace MiniRunner

open Clib Cells

namespace InPlace

/-! ## The loops -/

/-- What a removal returns, the array it leaves and the blocks it freed. -/
structure Outcome (α : Type) where
  rc : Int
  table : Cells α
  freed : List Nat

inductive ServiceString where
  | githubRepo
  | name

inductive JobString where
  | name
  | runnableFile

inductive EnvString where
  | name
  | key
  | value

inductive LimitString where
  | name

abbrev OwnedService := Owned ServiceString Service
abbrev OwnedJob := Owned JobString Job
abbrev OwnedEnv := Owned EnvString Env
abbrev OwnedLimit := Owned LimitString Limit

/-- The blocks of an entry, in the order of the `free` calls. -/
def freedService (s : OwnedService) : List Nat := [s.field .githubRepo, s.field .name, s.addr]

def freedJob (j : OwnedJob) : List Nat := [j.field .name, j.field .runnableFile, j.addr]

def freedEnv (e : OwnedEnv) : List Nat := [e.field .name, e.field .key, e.field .value, e.addr]

def freedLimit (l : OwnedLimit) : List Nat := [l.field .name, l.addr]

/-- `deleted` is whether the folder of the service could be removed. -/
def serviceLoop (serviceName : CStr) (deleted : Bool) : Removal OwnedService Nat where
  hit s := s.value.name == serviceName
  permitted _ := deleted
  rereads := true
  release := freedService
  emptied _ := initialScaleSizeOfServices

def jobLoop (jobName : CStr) : Removal OwnedJob Nat where
  hit j := j.value.name == jobName
  permitted _ := true
  rereads := true
  release := freedJob
  emptied capacity := capacity

def envLoop (name key : CStr) : Removal OwnedEnv Nat where
  hit e := isEnv name key e.value
  permitted _ := true
  rereads := false
  release := freedEnv
  emptied capacity := capacity

def limitLoop (name : CStr) : Removal OwnedLimit Nat where
  hit l := l.value.name == name
  permitted _ := true
  rereads := false
  release := freedLimit
  emptied capacity := capacity

/-- A return from the loop, or `missing` after it. -/
def leave {α : Type} (missing : Removal.Phase α → Int) (s : Removal.Pass α Nat) : Outcome α :=
  ⟨s.rc.getD (missing s.phase), s.table, s.freed⟩

/-- Without the limit and the process of the service, which are dealt with after the loop. -/
def normalDeleteServices (services : Cells OwnedService) (serviceName : CStr) (deleted : Bool) :
    Except Halt (Outcome OwnedService) :=
  if services.block.isNone then .ok ⟨-1, services, []⟩
  else ((serviceLoop serviceName deleted).run services).map (leave fun _ => -1)

/-- `-1` when the loop has not left its first state. -/
def removeJob (jobs : Cells OwnedJob) (jobName : CStr) : Except Halt (Outcome OwnedJob) :=
  if jobs.block.isNone ∧ jobs.count = 0 then .ok ⟨0, jobs, []⟩
  else ((jobLoop jobName).run jobs).map (leave fun
    | .find => -1
    | _ => 0)

def removeEnv (envs : Cells OwnedEnv) (name key : CStr) : Except Halt (Outcome OwnedEnv) :=
  ((envLoop name key).run envs).map (leave fun _ => -1)

def removeLimit (limits : Cells OwnedLimit) (name : CStr) : Except Halt (Outcome OwnedLimit) :=
  ((limitLoop name).run limits).map (leave fun _ => 0)

/-! ## Exactness -/

/-- **An exact removal** of the first entry that `hit` accepts. The second field is about
tables in which no block belongs to two entries. -/
structure RemovesFirst {α : Type} (hit : α → Bool) (blocks : α → List Nat) (t : Cells α)
    (r : Except Halt (Outcome α)) : Prop where
  found : ∀ x, t.entries.find? hit = some x → ∃ o, r = .ok o ∧
    o.table.entries = t.entries.eraseP hit ∧ o.table.count + 1 = t.count ∧ o.freed = blocks x
  freedOnce : (t.entries.flatMap blocks).Nodup → ∀ o, r = .ok o → o.freed.Nodup ∧
    ∀ y ∈ o.table.entries, List.Disjoint o.freed (blocks y)
  missing : t.entries.find? hit = none → ∃ rc, r = .ok ⟨rc, t, []⟩

section loops

variable {α : Type} {t : Cells α} {r : Removal α Nat}

/-- A permitted loop over entries that are in the block. -/
theorem removesFirst_run (h : t.count ≤ t.slots) (hperm : ∀ x, r.permitted x = true)
    (missing : Removal.Phase α → Int) :
    RemovesFirst r.hit r.release t ((r.run t).map (leave missing)) where
  found x hx := by
    obtain ⟨u, hu, hentries, hcount⟩ := Removal.run_of_found h hx (hperm x)
    rw [hu]
    exact ⟨_, rfl, hentries, hcount, rfl⟩
  freedOnce hnodup o ho := by
    cases hx : t.entries.find? r.hit with
    | none =>
      rw [Removal.run_of_absent h hx] at ho
      cases ho
      exact ⟨List.nodup_nil, fun _ _ => List.disjoint_nil_left _⟩
    | some x =>
      obtain ⟨u, hu, hentries, -⟩ := Removal.run_of_found h hx (hperm x)
      rw [hu] at ho
      cases ho
      have hsplit := (Removal.release_perm r.release hx).nodup_iff.mpr hnodup
      obtain ⟨hfreed, -, hdisjoint⟩ := List.nodup_append'.mp hsplit
      refine ⟨hfreed, fun y hy b hb hby => ?_⟩
      rw [show (leave missing ⟨.del, u, r.release x, some 0⟩).table = u from rfl, hentries] at hy
      exact hdisjoint hb (List.mem_flatMap.mpr ⟨y, hy, hby⟩)
  missing hx := by
    rw [Removal.run_of_absent h hx]
    exact ⟨_, rfl⟩

theorem removesFirst_of_empty {hit : α → Bool} {blocks : α → List Nat} (hcount : t.entries = [])
    (rc : Int) : RemovesFirst hit blocks t (.ok ⟨rc, t, []⟩) where
  found x hx := by
    rw [hcount] at hx
    cases hx
  freedOnce _ o ho := by
    cases ho
    exact ⟨List.nodup_nil, fun _ _ => List.disjoint_nil_left _⟩
  missing _ := ⟨rc, rfl⟩

theorem entries_of_isNone (h : t.block.isNone = true) : t.entries = [] := by
  rw [Option.isNone_iff_eq_none] at h
  simp [Cells.entries, Cells.cells, h]

end loops

/-- **In-place removal is exact**, for the services when their folder could be removed. -/
theorem removal_exact (services : Cells OwnedService) (jobs : Cells OwnedJob)
    (envs : Cells OwnedEnv) (limits : Cells OwnedLimit)
    (hservices : services.count ≤ services.slots) (hjobs : jobs.count ≤ jobs.slots)
    (henvs : envs.count ≤ envs.slots) (hlimits : limits.count ≤ limits.slots) (name key : CStr) :
    RemovesFirst (fun s => s.value.name == name) freedService services
        (normalDeleteServices services name true) ∧
      RemovesFirst (fun j => j.value.name == name) freedJob jobs (removeJob jobs name) ∧
      RemovesFirst (fun e => e.value.name == name && e.value.key == key) freedEnv envs
        (removeEnv envs name key) ∧
      RemovesFirst (fun l => l.value.name == name) freedLimit limits (removeLimit limits name) := by
  refine ⟨?_, ?_, ?_, ?_⟩
  · rw [normalDeleteServices]
    split
    · exact removesFirst_of_empty (entries_of_isNone ‹_›) _
    · exact removesFirst_run (r := serviceLoop name true) hservices (fun _ => rfl) _
  · rw [removeJob]
    split
    · exact removesFirst_of_empty (entries_of_isNone ‹_ ∧ _›.1) _
    · exact removesFirst_run (r := jobLoop name) hjobs (fun _ => rfl) _
  · exact removesFirst_run (r := envLoop name key) henvs (fun _ => rfl) _
  · exact removesFirst_run (r := limitLoop name) hlimits (fun _ => rfl) _

/-- The pairs `a k` and `a l`, without services, jobs or limits. -/
def twoEnvs : Cells OwnedEnv :=
  let text (c : UInt8) : CStr := .ofBytes [c]
  ⟨some [⟨1, fun | .name => 2 | .key => 3 | .value => 4, ⟨text 97, text 107, text 118⟩⟩,
    ⟨5, fun | .name => 6 | .key => 7 | .value => 8, ⟨text 97, text 108, text 118⟩⟩], 2, 20⟩

theorem removal_exact_twoEnvs :
    RemovesFirst (fun e => e.value.name == .ofBytes [97] && e.value.key == .ofBytes [108])
      freedEnv twoEnvs (removeEnv twoEnvs (.ofBytes [97]) (.ofBytes [108])) :=
  (removal_exact ⟨none, 0, 4⟩ ⟨none, 0, 4⟩ twoEnvs ⟨none, 0, 4⟩ (by decide) (by decide) (by decide)
    (by decide) (.ofBytes [97]) (.ofBytes [108])).2.2.1

/-! ## The arrays without blocks -/

section values

variable {α γ : Type} {t : Cells α} {r : Removal α Nat} {f : α → γ} {p : γ → Bool} {b : Bool}

theorem map_leave (hp : ∀ x, r.hit x = p (f x)) (hperm : ∀ x, r.permitted x = b) (rc : Int) :
    ((r.run t).map (leave fun _ => rc)).map (fun o => (o.rc, o.table.map f)) =
      (Removal.dropFirst p b r.emptied (t.map f)).map fun q => (q.1.getD rc, q.2) := by
  rw [← Removal.run_map hp hperm]
  cases r.run t <;> rfl

theorem table_leave (hp : ∀ x, r.hit x = p (f x)) (hperm : ∀ x, r.permitted x = b)
    (missing : Removal.Phase α → Int) :
    ((r.run t).map (leave missing)).map (fun o => o.table.map f) =
      (Removal.dropFirst p b r.emptied (t.map f)).map Prod.snd := by
  rw [← Removal.run_map hp hperm]
  cases r.run t <;> rfl

theorem normalDeleteServices_table (services : Cells OwnedService) (serviceName : CStr)
    (deleted : Bool) :
    (normalDeleteServices services serviceName deleted).map (fun o => o.table.map Owned.value) =
      Bounds.normalDeleteServices (services.map Owned.value) serviceName deleted := by
  have hdrop := table_leave (r := serviceLoop serviceName deleted) (t := services)
    (f := Owned.value) (p := (·.name == serviceName)) (fun _ => rfl) (fun _ => rfl) fun _ => -1
  rw [normalDeleteServices, Bounds.normalDeleteServices,
    show (services.map Owned.value).block.isNone = services.block.isNone from Option.isNone_map]
  split
  · rfl
  · rw [hdrop, Removal.dropFirst]
    rcases (services.map Owned.value).find _ with e | _ | i
    · rfl
    · rfl
    · cases deleted with
      | false => rfl
      | true =>
        simp only [bind, Except.bind, Bool.true_eq_false, if_false]
        rcases (services.map Owned.value).removeAt i with e | u
        · rfl
        · simp only
          split <;> rfl

theorem removeJob_table (jobs : Cells OwnedJob) (jobName : CStr) :
    (removeJob jobs jobName).map (fun o => o.table.map Owned.value) =
      Bounds.removeJob (jobs.map Owned.value) jobName := by
  have hdrop := table_leave (r := jobLoop jobName) (t := jobs) (f := Owned.value)
    (p := (·.name == jobName)) (b := true) (fun _ => rfl) (fun _ => rfl)
  rw [removeJob, Bounds.removeJob,
    show (jobs.map Owned.value).block.isNone = jobs.block.isNone from Option.isNone_map]
  change Except.map _ (if _ then _ else _) = if jobs.block.isNone ∧ jobs.count = 0 then _ else _
  split
  · rfl
  · rw [hdrop, Removal.dropFirst]
    rcases (jobs.map Owned.value).find _ with e | _ | i
    · rfl
    · rfl
    · simp only [bind, Except.bind, Bool.true_eq_false, if_false]
      rcases (jobs.map Owned.value).removeAt i with e | u
      · rfl
      · simp only
        split <;> rfl

theorem removeEnv_values (envs : Cells OwnedEnv) (name key : CStr) :
    (removeEnv envs name key).map (fun o => (o.rc, o.table.map Owned.value)) =
      Bounds.removeEnv (envs.map Owned.value) name key := by
  have hdrop := map_leave (r := envLoop name key) (t := envs) (f := Owned.value)
    (p := isEnv name key) (b := true) (fun _ => rfl) (fun _ => rfl) (-1)
  rw [removeEnv, Bounds.removeEnv, hdrop, Removal.dropFirst]
  rcases (envs.map Owned.value).find _ with e | _ | i
  · rfl
  · rfl
  · simp only [bind, Except.bind, Bool.true_eq_false, if_false]
    rcases (envs.map Owned.value).removeAt i with e | u <;> rfl

theorem removeLimit_values (limits : Cells OwnedLimit) (name : CStr) :
    (removeLimit limits name).map (fun o => (o.rc, o.table.map Owned.value)) =
      Bounds.removeLimit (limits.map Owned.value) name := by
  have hdrop := map_leave (r := limitLoop name) (t := limits) (f := Owned.value)
    (p := (·.name == name)) (b := true) (fun _ => rfl) (fun _ => rfl) 0
  rw [removeLimit, Bounds.removeLimit, hdrop, Removal.dropFirst]
  rcases (limits.map Owned.value).find _ with e | _ | i
  · rfl
  · rfl
  · simp only [bind, Except.bind, Bool.true_eq_false, if_false]
    rcases (limits.map Owned.value).removeAt i with e | u <;> rfl

end values

end InPlace

end MiniRunner
