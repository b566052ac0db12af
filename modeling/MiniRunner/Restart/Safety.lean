import MiniRunner.Restart.Envs

/-!
# Restartability

`Command.Safe` is the condition on the stored data under which a command leaves data
files that load again whatever the world does, and `restarts_iff` says that it is
exact. It supposes that no record is longer than the buffer it is saved through: a
longer one is cut, and what is left of it runs into the record that follows.
-/

namespace MiniRunner

open Clib Process

variable {fs : Files}

namespace Command

/-- No record the process saves is cut, whatever pid it holds. -/
def RecordsFit (st : Stored fs) : Command → Prop
  | rename oldName newName => (∀ s ∈ st.services.items, s.Fits) ∧
    (isValidName newName = 0 → ∀ s ∈ st.services.items, s.name = oldName →
      Service.Fits { s with name := newName })
  | _ => ∀ s ∈ st.services.items, s.Fits

/-- **When a command restarts.** -/
def Safe (st : Stored fs) : Command → Prop
  | remove serviceName => st.Has serviceName → FolderFits serviceName
  | run name _ _ => name.bytes = [] ∨
    ¬RunFaults (statusText fs) st.services.items st.envs.items name
  | restart serviceName _ _ => ¬RestartFaults (statusText fs) st.services.items serviceName
  | rename oldName newName => isValidName newName ≠ 0 ∨ st.Waits ∨
    (st.Has oldName → st.Has newName → newName = oldName)
  | setLimit serviceName cpu _ mem => st.SetLimitSafe serviceName cpu mem
  | addEnv name key value => ¬ValidEnv name key value ∨ st.Bound name key ∨
    st.envs.items.length < envLimit
  | updateEnv name key value => ¬ValidEnv name key value ∨ st.Waits ∨
    ∀ next ∈ nextEnv name key st.envs.items, newline ∈ value.bytes →
      GluedFree value next st.envs.items
  | add _ _ | stop _ | addJob _ _ _ | removeJob _ | removeEnv _ _ => True

instance (st : Stored fs) : (cmd : Command) → Decidable (cmd.RecordsFit st)
  | rename _ _ => inferInstanceAs (Decidable ((∀ s ∈ _, _) ∧ (_ → ∀ s ∈ _, _ → _)))
  | add _ _ | remove _ | run _ _ _ | stop _ | restart _ _ _ | setLimit _ _ _ _ | addJob _ _ _
  | removeJob _ | addEnv _ _ _ | updateEnv _ _ _ | removeEnv _ _ =>
    inferInstanceAs (Decidable (∀ s ∈ _, _))

instance (st : Stored fs) : (cmd : Command) → Decidable (cmd.Safe st)
  | remove _ => inferInstanceAs (Decidable (_ → _))
  | run _ _ _ => inferInstanceAs (Decidable (_ ∨ ¬RunFaults _ _ _ _))
  | restart _ _ _ => inferInstanceAs (Decidable (¬RestartFaults _ _ _))
  | rename _ _ => inferInstanceAs (Decidable (_ ∨ _ ∨ (_ → _ → _)))
  | setLimit name cpu _ mem => inferInstanceAs (Decidable (st.SetLimitSafe name cpu mem))
  | addEnv _ _ _ => inferInstanceAs (Decidable (¬ValidEnv _ _ _ ∨ _ ∨ _))
  | updateEnv _ _ _ => inferInstanceAs (Decidable (¬ValidEnv _ _ _ ∨ _ ∨ ∀ next ∈ _, _ → _))
  | add _ _ | stop _ | addJob _ _ _ | removeJob _ | removeEnv _ _ =>
    inferInstanceAs (Decidable True)

end Command

/-- The projects file `a^r#0`, `b^s#0`. -/
def twoServices : Files := FileStore.put (fun _ => none) (.file .projects)
  [97, 94, 114, 35, 48, 10, 98, 94, 115, 35, 48, 10]

def twoStored : Stored twoServices where
  services := ⟨[⟨.ofBytes [114], .ofBytes [97], 0, true⟩,
    ⟨.ofBytes [115], .ofBytes [98], 0, true⟩], 4, 4, by decide⟩
  jobs := initialJobs
  envs := initialEnvs
  limits := initialLimits
  loadsServices := by rfl
  loadsJobs := by rfl
  loadsEnvs := by rfl
  loadsLimits := by rfl

/-- `rename a b`. -/
def renameToTaken : Command := .rename (.ofBytes [97]) (.ofBytes [98])

end MiniRunner
