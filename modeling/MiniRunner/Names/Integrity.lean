import MiniRunner.Clib.References
import MiniRunner.Clib.Runs
import MiniRunner.Ops.Launch

/-!
# Limits refer to services

A limit carries the name of its service. `NamesLinked` says that service names are
distinct, limit names are distinct and every limit names a service of the table. Each
operation that touches one of the two tables is, on the names, one of the operations of
`Linked`, or nothing.

The operations are those of one process, with every answer of the world. An operation
that does not return (the process gives up, or the standard leaves it undefined: a removed
name too long for its buffer, an append to a freed table) has no state after it.
-/

namespace MiniRunner

open Clib Process

variable {W : Type}

/-- Service names and limit names are distinct, and no limit dangles. -/
def NamesLinked (p : Process W) : Prop :=
  Linked (p.services.items.map (·.name)) (p.limits.items.map (·.name))

instance (p : Process W) : Decidable (NamesLinked p) := inferInstanceAs (Decidable (Linked _ _))

/-! ## Operations -/

inductive NameOp where
  | add (githubRepo nickName : CStr)
  | remove (serviceName : CStr)
  | setCpu (serviceName : CStr) (cpuSeconds : BitVec 64) (limitMemory : Bool) (memBytes : Amount)
  | setMem (serviceName : CStr) (memBytes : Amount)
  | rename (serviceName newName : CStr)
  deriving DecidableEq

def NameOp.exec (sys : Calls W) : NameOp → Exec (Process W) Unit
  | add githubRepo nickName => do let _ ← addProject sys githubRepo nickName
  | remove serviceName => do let _ ← normalDeleteServices sys serviceName
  | setCpu serviceName cpuSeconds limitMemory memBytes => do
    let _ ← setCpuResourceLimit sys serviceName cpuSeconds limitMemory memBytes
  | setMem serviceName memBytes => do let _ ← setMemoryLimit sys serviceName memBytes
  | rename serviceName newName => renameService sys serviceName newName

/-- A rename is to a name that no service uses. -/
def NameOp.Fresh (p : Process W) : NameOp → Prop
  | rename _ newName => newName ∉ p.services.items.map (·.name)
  | _ => True

instance NameOp.decidableFresh (p : Process W) : (op : NameOp) → Decidable (op.Fresh p)
  | .add _ _ | .remove _ | .setCpu _ _ _ _ | .setMem _ _ => .isTrue trivial
  | .rename _ _ => inferInstanceAs (Decidable (¬_))

/-- The state after an operation that returns. -/
def NameOp.step (sys : Calls W) (op : NameOp) (p : Process W) : Option (Process W) :=
  match (op.exec sys).run p with
  | .ok _ p' => some p'
  | .error _ _ => none

/-! ## What the operations do to the names -/

section steps

variable {sys : Calls W} {p : Process W}

theorem NamesLinked.added {githubRepo nickName : CStr} {c : Cloned} {rc : Int} {l : List Service}
    {refs : List CStr} (h : Linked (p.services.items.map (·.name)) refs)
    (hadd : Added githubRepo nickName p.services.items c rc l) :
    Linked (l.map (·.name)) refs := by
  have hnew : Fresh githubRepo nickName p.services.items →
      nickName ∉ p.services.items.map (·.name) := by
    intro hfresh hmem
    obtain ⟨s, hs, hname⟩ := List.mem_map.mp hmem
    have hclash := hfresh s hs
    simp [serviceClash, addedService, hname] at hclash
  cases hadd with
  | done hfresh => simpa [addedService] using h.enter (hnew hfresh)
  | uncloned hfresh => simpa [addedService] using h.enter (hnew hfresh)
  | clash => exact h

theorem NamesLinked.deleted {name : CStr} {rc : Int} {p' : Process W} (h : NamesLinked p)
    (hdel : Deleted sys name p rc p') : NamesLinked p' := by
  cases hdel with
  | gone t lim w ht hlim =>
    unfold NamesLinked at *
    rw [ht, hlim, map_strike, map_strike]
    exact h.strike name
  | kept w => exact h

theorem NamesLinked.renamed {name newName : CStr} {p' : Process W} (h : NamesLinked p)
    (hnew : newName ∉ p.services.items.map (·.name)) (hren : Renamed name newName p p') :
    NamesLinked p' := by
  cases hren with
  | renamed t lim w _ ht hlim =>
    unfold NamesLinked at *
    have hkeys := map_updateFirst_rename Service.name name
      (f := fun s => { s with name := newName }) (fun _ => rfl) h.distinctKeys
    have hrefs := map_updateFirst_rename Limit.name name (f := fun l => { l with name := newName })
      (fun _ => rfl) h.distinctRefs
    rw [ht, hlim, hkeys, hrefs]
    exact h.rename hnew
  | kept w => exact h

/-- Recording a limit for a service that is there. -/
theorem NamesLinked.recorded {name : CStr} {cpu : BitVec 64} {memory : BitVec 128}
    {t : Table Limit} (h : NamesLinked p)
    (hfound : p.services.items.any (·.name == name) = true)
    (ht : t.items = p.limits.items ∨ t.items = recordLimit name cpu memory p.limits.items) :
    Linked (p.services.items.map (·.name)) (t.items.map (·.name)) := by
  rcases ht with ht | ht
  · rw [ht]
    exact h
  · rw [ht, recordLimit]
    split
    · have hrefs : (Table.updateFirst (·.name == name)
          (fun l => { l with cpu := cpu, memory := memory }) p.limits.items).map Limit.name =
            p.limits.items.map Limit.name :=
        Table.map_updateFirst (f := fun l : Limit => { l with cpu := cpu, memory := memory })
          (fun _ _ => rfl) _
      rw [hrefs]
      exact h
    · rename_i hnone
      rw [List.map_append, List.map_singleton]
      refine h.refer ?_ ?_
      · obtain ⟨s, hs, hname⟩ := List.any_eq_true.mp hfound
        exact List.mem_map.mpr ⟨s, hs, eq_of_beq hname⟩
      · rintro hmem
        obtain ⟨l, hl, hname⟩ := List.mem_map.mp hmem
        exact hnone (List.any_eq_true.mpr ⟨l, hl, beq_iff_eq.mpr hname⟩)

theorem NamesLinked.wp_exec (h : NamesLinked p) (op : NameOp) (hfresh : op.Fresh p) :
    Exec.wp (op.exec sys) (fun _ p' => NamesLinked p') (fun _ _ => True) p := by
  cases op with
  | add githubRepo nickName =>
    simp only [NameOp.exec, Exec.wp_bind, Exec.wp_pure]
    refine Exec.wp_mono (wp_addProject_cases githubRepo nickName) ?_ fun _ _ _ => trivial
    rintro rc _ ⟨t, w, l, rfl, ht, hadd⟩
    rw [NamesLinked, ht]
    exact NamesLinked.added h hadd
  | remove serviceName =>
    simp only [NameOp.exec, Exec.wp_bind, Exec.wp_pure]
    by_cases hfits : (p.services.items.find? (·.name == serviceName)).isSome →
        FolderFits serviceName
    · exact Exec.wp_mono (wp_normalDeleteServices serviceName hfits) (fun _ _ => h.deleted)
        fun _ _ h => h.elim
    · obtain ⟨hfound, hlong⟩ := Classical.not_imp.mp hfits
      exact (wp_normalDeleteServices_undefined hfound hlong).mpr trivial
  | setCpu serviceName cpuSeconds limitMemory memBytes =>
    simp only [NameOp.exec, Exec.wp_bind, Exec.wp_pure]
    exact wp_limitService_cases _ _ _ _ ((Exec.wp_pure _).mpr h) (fun _ _ => trivial)
      (fun _ _ => h) fun _ _ _ hfound => h.recorded hfound
  | setMem serviceName memBytes =>
    simp only [NameOp.exec, Exec.wp_bind, Exec.wp_pure]
    exact wp_limitService_cases _ _ _ _ ((Exec.wp_throw _).mpr trivial) (fun _ _ => trivial)
      (fun _ _ => h) fun _ _ _ hfound => h.recorded hfound
  | rename serviceName newName =>
    exact Exec.wp_mono (wp_renameService serviceName newName) (fun _ _ => h.renamed hfresh)
      fun _ _ h => h.elim

theorem NamesLinked.step {op : NameOp} {p' : Process W} (h : NamesLinked p) (hfresh : op.Fresh p)
    (hstep : op.step sys p = some p') : NamesLinked p' := by
  unfold NameOp.step at hstep
  split at hstep
  · rename_i hrun
    cases hstep
    exact Exec.wp_run_ok (Q := fun _ p' => NamesLinked p') (h.wp_exec op hfresh) hrun
  · cases hstep

end steps

/-- **Limits never dangle.** Along every run of the operations, with every answer of the
world and every rename to a name that no service uses, service names stay distinct, limit
names stay distinct and every limit names a service. -/
theorem limits_never_dangle (sys : Calls W) (ops : List NameOp) {p : Process W}
    (h : NamesLinked p) (hfresh : Every (NameOp.step sys) (fun p op _ => op.Fresh p) ops p) :
    Every (NameOp.step sys) (fun _ _ p' => NamesLinked p') ops p :=
  every_of_inv (fun hI hG hs => ⟨hI.step hG hs, hI.step hG hs⟩) ops h hfresh

def oneLimited : Process Unit where
  files := fun _ => none
  world := ()
  services := .ofList [⟨.ofBytes [114], .ofBytes [97], 7, true⟩]
  jobs := .blank 4 4
  envs := .blank 20 20
  limits := .ofList [⟨.ofBytes [97], 100000, 0⟩]
  reformatState := true
  reformatLimits := false

theorem limits_never_dangle_renameThenRemove :
    Every (NameOp.step (.allWell 1)) (fun _ _ p' => NamesLinked p')
      [.rename (.ofBytes [97]) (.ofBytes [98]), .setMem (.ofBytes [98]) (.standard 5),
        .remove (.ofBytes [98])] oneLimited :=
  limits_never_dangle (.allWell 1) _ (by decide) (by decide)

end MiniRunner
