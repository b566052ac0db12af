import MiniRunner.System.Processes

/-!
# Processes that overlap

Nothing keeps two processes apart: one may load the data files while another has still to save
the tables it has changed. Here processes with a command on jobs or env entries overlap in any
way, and are killed anywhere between the two. Constructor and command of a process are one step,
its destructor is another; what lies within these is the matter of `Sync.Updates`.

What the files hold is what a run of processes one after the other leaves, but only of those of
the lineage: the process that closed last, the one that had closed last when that one opened,
and so on (`lineage_stands`). Whatever the others have done is lost, and they have reported
success.
-/

namespace MiniRunner.System

open Clib MiniRunner Process

variable {W : Type} {fs : Files} {d T : Tables} {cmd : Command} {rc : Int}

/-! ## Commands on records -/

/-- The commands on jobs and env entries. -/
def onRecords : Command → Prop
  | .addJob _ _ _ | .removeJob _ | .addEnv _ _ _ | .updateEnv _ _ _ | .removeEnv _ _ => True
  | _ => False

theorem Effect.services_of_onRecords (h : Effect d cmd rc T) (hcmd : onRecords cmd) :
    T.services = d.services := by
  cases h with
  | pids cmd rc services hstarts => cases cmd <;> first | exact hcmd.elim | exact hstarts.elim
  | _ => first | rfl | exact hcmd.elim

theorem not_givesUp_of_onRecords (hcmd : onRecords cmd) : ¬givesUp cmd := by
  cases cmd <;> first | exact hcmd.elim | exact id

/-- The services, the files and the mark of the limits are as they were. -/
structure Spared (p₀ p : Process W) : Prop where
  services : p.services = p₀.services
  files : p.files = p₀.files
  reformatLimits : p.reformatLimits = p₀.reformatLimits

section spared

variable {p₀ : Process W}

theorem spared_call {α : Type} (f : W → α × W) : Exec.Keeps (Spared p₀) (call f) := fun _ h =>
  wp_call.mpr ⟨h.services, h.files, h.reformatLimits⟩

theorem spared_onJobs {α : Type} (f : Table Job → Except Halt (α × Table Job)) :
    Exec.Keeps (Spared p₀) (onJobs f) := fun p h => by
  rw [wp_onJobs]
  cases f p.jobs <;> exact ⟨h.services, h.files, h.reformatLimits⟩

theorem spared_onEnvs {α : Type} (f : Table Env → Except Halt (α × Table Env)) :
    Exec.Keeps (Spared p₀) (onEnvs f) := fun p h => by
  rw [wp_onEnvs]
  cases f p.envs <;> exact ⟨h.services, h.files, h.reformatLimits⟩

theorem spared_failing {op : Exec (Process W) Int} (hop : Exec.Keeps (Spared p₀) op) :
    Exec.Keeps (Spared p₀) (failing op) :=
  .bind hop fun _ => .ite (fun _ => .pure _) fun _ => .pure _

/-- **A command on records spares all the rest.** -/
theorem spared_exec (sys : Calls W) (hcmd : onRecords cmd) :
    Exec.Keeps (Spared p₀) (cmd.exec sys) := by
  cases cmd with
  | addJob jobName runnableFile timeInSeconds =>
    exact .ite (fun _ => .pure _) fun _ => .ite (fun _ => .pure _) fun _ =>
      .bind (spared_call _) fun _ => .ite (fun _ => .pure _) fun _ => .ite (fun _ => .pure _)
        fun _ => .bind (spared_call _) fun _ => spared_failing (spared_onJobs _)
  | removeJob jobName => exact spared_failing (spared_onJobs _)
  | addEnv name key value => exact .ite (fun _ => .pure _) fun _ => spared_failing (spared_onEnvs _)
  | updateEnv name key value =>
    exact .ite (fun _ => .pure _) fun _ => spared_failing (spared_onEnvs _)
  | removeEnv name key => exact spared_failing (spared_onEnvs _)
  | _ => exact hcmd.elim

end spared

/-! ## The two halves of a process -/

def openProcess (sys : Calls W) (cmd : Command) : Exec (Process W) Int := do
  init
  cmd.exec sys

theorem wholeProcess_eq (sys : Calls W) (cmd : Command) :
    wholeProcess (cmd.exec sys) =
      openProcess sys cmd >>= fun rc => closeProcess >>= fun _ => pure rc := by
  simp only [wholeProcess, openProcess, bind_assoc]

/-- A process that has these tables to save, its limits apart. -/
structure Awaits (T : Tables) (p : Process W) : Prop where
  state : p.reformatState = true
  unmarked : p.reformatLimits = false
  services : p.services.items = T.services
  jobs : p.jobs.items = T.jobs
  envs : p.envs.items = T.envs

/-- The data files and the lock file are what they were. -/
def SameData (fs fs' : Files) : Prop :=
  ∀ s ∈ [Store.projects, .jobs, .env, .limits, .jobsSync],
    fs'.content (.file s) = fs.content (.file s)

/-- **The first half**: the command has its effect, and no file shows it. -/
theorem Holds.wp_openProcess (h : Holds fs d) (hd : d.Savable) (sys : Calls W)
    (hcmd : onRecords cmd) (w : W) :
    Exec.wp (openProcess sys cmd)
      (fun rc p => (∃ T, Effect d cmd rc T ∧ Awaits T p ∧ T.services = d.services ∧
        T.limits = d.limits) ∧ SameData fs p.files)
      (fun e _ => e = .undefined) (.start fs w) := by
  simp only [openProcess, Exec.wp_bind]
  refine Exec.wp_mono (wp_init fs w) ?_ fun _ _ hno => absurd h.loads hno
  intro _ p hp
  have hspared : Spared p p := ⟨rfl, rfl, rfl⟩
  refine Exec.wp_mono (Exec.wp_and (acts hd cmd sys (h.opened hp))
    (spared_exec sys hcmd p hspared)) ?_ ?_
  · rintro rc p' ⟨hended, hspared⟩
    have hunmarked : p'.reformatLimits = false := hspared.reformatLimits.trans hp.reformatLimits
    rcases hended with ⟨T, heffect, hdue⟩ | ⟨-, hfull⟩
    · have hservices : T.services = d.services := heffect.services_of_onRecords hcmd
      refine ⟨⟨T, heffect, ⟨hdue.state, hunmarked, ?_, hdue.jobs, hdue.envs⟩, hservices, ?_⟩,
        fun s hs => ?_⟩
      · rw [hspared.services, hservices]
        exact (h.opened hp).services
      · have hlimits := hdue.limits
        rwa [if_neg (by simp [hunmarked])] at hlimits
      · rw [hspared.files]
        exact Loaded.data hp s hs
    · have hmarked := hfull.overfull.1
      rw [hunmarked] at hmarked
      cases hmarked
  · rintro e p' ⟨he | ⟨-, hgives, -⟩, -⟩
    · exact he
    · exact absurd hgives (not_givesUp_of_onRecords hcmd)

theorem Bricked.wp_openProcess (h : Bricked fs) (sys : Calls W) (cmd : Command) (w : W) :
    Exec.wp (openProcess sys cmd) (fun _ _ => False)
      (fun e p => e = .aborted ∧ SameBut [.file .updateStatus] fs p.files) (.start fs w) := by
  simp only [openProcess, Exec.wp_bind]
  exact Exec.wp_mono (wp_init_bricked h w) (fun _ _ => False.elim) fun _ _ he => he

/-- **The second half**, on files that others may have changed since: it saves the tables of
the first, whatever the jobs and the env entries are by now. -/
theorem Awaits.wp_closeProcess {p : Process W} (h : Awaits T p) (hT : T.Savable)
    (hrests : Rests fs d) (hd : d.Sound) (hservices : T.services = d.services)
    (hlimits : T.limits = d.limits) :
    Exec.wp closeProcess
      (fun _ p' => Rests p'.files d ∧ (T.reread.Apart → Holds p'.files T.reread) ∧
        (¬T.reread.Apart → Bricked p'.files))
      (fun _ _ => False) { p with files := fs } := by
  have hdue : Due fs d { p with files := fs } T := by
    refine ⟨h.state, fun _ _ => rfl, .inl h.services, h.jobs, h.envs, ?_⟩
    rw [if_neg (by simp [h.unmarked])]
    exact hlimits
  refine Exec.wp_mono (hdue.wp_closeProcess hrests hd.memory hT) ?_ fun _ _ he => he
  intro _ p' hleaves
  have hkept' := hleaves.rests (hservices ▸ hd.apart.1)
  refine ⟨⟨?_, ?_, hkept'.lock⟩, hleaves.holds, hleaves.bricked⟩
  · obtain ⟨t, ht, hitems⟩ := hkept'.services
    exact ⟨t, ht, hitems.trans hservices⟩
  · obtain ⟨t, ht, hitems⟩ := hkept'.limits
    refine ⟨t, ht, hitems.trans ?_⟩
    rw [Tables.reread, hlimits, readBack_of_lt hd.memory]

/-! ## Overlaps -/

structure Begun where
  W : Type
  process : Process W

structure Overlap where
  files : Files
  begun : Nat → Option Begun

inductive Move where
  | opens (i : Nat) (cmd : Command) (rc : Int)
  | refused (cmd : Command)
  | closes (i : Nat)
  | killed (i : Nat)
  deriving DecidableEq

/-- **One half of one process**, or the end of one between its halves. -/
inductive MoveStep : Overlap → Move → Overlap → Prop
  | opens {W : Type} {sys : Calls W} {cmd : Command} {s : Overlap} {i : Nat} {w : W} {rc : Int}
      {p : Process W} : onRecords cmd → s.begun i = none →
      (openProcess sys cmd).run (.start s.files w) = .ok rc p →
      MoveStep s (.opens i cmd rc) ⟨p.files, Function.update s.begun i (some ⟨W, p⟩)⟩
  | refused {W : Type} {sys : Calls W} {cmd : Command} {s : Overlap} {w : W} {p : Process W} :
      onRecords cmd → (openProcess sys cmd).run (.start s.files w) = .error .aborted p →
      MoveStep s (.refused cmd) ⟨p.files, s.begun⟩
  | closes {s : Overlap} {i : Nat} {b : Begun} {p : Process b.W} : s.begun i = some b →
      closeProcess.run { b.process with files := s.files } = .ok () p →
      MoveStep s (.closes i) ⟨p.files, Function.update s.begun i none⟩
  | killed {s : Overlap} {i : Nat} {b : Begun} : s.begun i = some b →
      MoveStep s (.killed i) ⟨s.files, Function.update s.begun i none⟩

def Overlap.start (files : Files) : Overlap := ⟨files, fun _ => none⟩

/-- Whose work is in the files, who has closed, and for each process between its halves whose
work it has loaded, and its own. -/
structure Lineage where
  files : List Event
  closed : List Event
  begun : Nat → Option (List Event × Event)

def Lineage.move (l : Lineage) : Move → Lineage
  | .opens i cmd rc =>
    { l with begun := Function.update l.begun i (some (l.files, ⟨cmd, .exits rc⟩)) }
  | .refused _ => l
  | .closes i =>
    match l.begun i with
    | none => l
    | some (loaded, own) =>
      { files := loaded ++ [own], closed := l.closed ++ [own]
        begun := Function.update l.begun i none }
  | .killed i => { l with begun := Function.update l.begun i none }

/-- **The lineage of the files** after some moves. -/
def lineage (moves : List Move) : Lineage := moves.foldl Lineage.move ⟨[], [], fun _ => none⟩

/-- A process between its halves has loaded what its lineage leaves, and awaits the effect of
its command on that. -/
def Traced (d : Database) (b : Begun) (loaded : List Event) (own : Event) : Prop :=
  ∃ (D : Database) (T : Tables) (rc : Int), own.outcome = .exits rc ∧
    Steps Step loaded (some d) (some D) ∧ Effect D.toTables own.command rc T ∧
    Awaits T b.process ∧ T.services = d.services ∧ T.limits = d.limits

/-- The files and the processes come from their lineages. -/
structure Follows (d : Database) (s : Overlap) (l : Lineage) : Prop where
  rests : Rests s.files d.toTables
  stands : ∃ st, Steps Step l.files (some d) st ∧ Stands s.files st
  sublist : l.files.Sublist l.closed
  traced : ∀ i b, s.begun i = some b → ∃ loaded own, l.begun i = some (loaded, own) ∧
    Traced d b loaded own ∧ loaded.Sublist l.closed

section update

variable {α : Type*} {f : Nat → Option α} {i j : Nat} {b : α}

theorem ne_of_update_none (h : Function.update f i none j = some b) : j ≠ i ∧ f j = some b := by
  by_cases hj : j = i
  · subst hj
    rw [Function.update_self] at h
    cases h
  · rw [Function.update_of_ne hj] at h
    exact ⟨hj, h⟩

theorem eq_or_ne_of_update_some {a : α} (h : Function.update f i (some a) j = some b) :
    j = i ∧ a = b ∨ j ≠ i ∧ f j = some b := by
  by_cases hj : j = i
  · subst hj
    rw [Function.update_self] at h
    cases h
    exact .inl ⟨rfl, rfl⟩
  · rw [Function.update_of_ne hj] at h
    exact .inr ⟨hj, h⟩

end update

section follows

variable {d : Database} {s s' : Overlap} {l : Lineage}

theorem Holds.follows_start (h : Holds fs d.toTables) :
    Follows d (.start fs) ⟨[], [], fun _ => none⟩ where
  rests := h.rests
  stands := ⟨some d, .nil _, h⟩
  sublist := .refl _
  traced _ _ hb := by cases hb

theorem Rests.of_holds {T : Tables} (h : Rests fs d.toTables) (hT : Holds fs T) :
    T.services = d.services ∧ T.limits = d.limits := by
  obtain ⟨t, ht, hitems⟩ := h.services
  obtain ⟨t', ht', hitems'⟩ := hT.services
  obtain ⟨u, hu, hlimits⟩ := h.limits
  obtain ⟨u', hu', hlimits'⟩ := hT.limits
  rw [ht] at ht'
  rw [hu] at hu'
  cases ht'
  cases hu'
  exact ⟨hitems'.symm.trans hitems, hlimits'.symm.trans hlimits⟩

theorem Rests.congr {fs' : Files} {T : Tables} (h : Rests fs T)
    (hsame : ∀ s ∈ [Store.projects, .limits, .jobsSync],
      fs'.content (.file s) = fs.content (.file s)) : Rests fs' T := by
  refine ⟨?_, ?_, (LockFree.congr (hsame .jobsSync (by simp))).mpr h.lock⟩
  · rw [hsame .projects (by simp)]
    exact h.services
  · rw [hsame .limits (by simp)]
    exact h.limits

theorem Follows.traced_without (h : Follows d s l) (i : Nat) {closed : List Event}
    (hclosed : l.closed.Sublist closed) (j : Nat) (b : Begun)
    (hb : Function.update s.begun i none j = some b) :
    ∃ loaded own, Function.update l.begun i none j = some (loaded, own) ∧
      Traced d b loaded own ∧ loaded.Sublist closed := by
  obtain ⟨hj, hb⟩ := ne_of_update_none hb
  obtain ⟨loaded, own, hl, htraced, hsub⟩ := h.traced j b hb
  exact ⟨loaded, own, (Function.update_of_ne hj ..).trans hl, htraced, hsub.trans hclosed⟩

/-- One step. -/
theorem Follows.step {m : Move} (h : Follows d s l) (hstep : MoveStep s m s') :
    Follows d s' (l.move m) := by
  obtain ⟨st, hsteps, hstands⟩ := h.stands
  cases hstep with
  | @opens W sys cmd _ i w rc p hcmd hfree hrun =>
    cases st with
    | none => exact (Exec.wp_run_ok (Bricked.wp_openProcess hstands sys cmd w) hrun).elim
    | some D =>
      obtain ⟨⟨T, heffect, hawaits, hservices, hlimits⟩, hsame⟩ := Exec.wp_run_ok
        (Holds.wp_openProcess hstands D.sound.toSavable sys hcmd w) hrun
      obtain ⟨hservices', hlimits'⟩ := h.rests.of_holds hstands
      refine ⟨h.rests.congr fun s hs => hsame s ?_, ⟨some D, hsteps, hstands.congr hsame⟩,
        h.sublist, ?_⟩
      · simp only [List.mem_cons, List.not_mem_nil, or_false] at hs ⊢
        tauto
      · intro j b hb
        obtain ⟨rfl, rfl⟩ | ⟨hj, hb⟩ := eq_or_ne_of_update_some hb
        · exact ⟨l.files, ⟨cmd, .exits rc⟩, Function.update_self .., ⟨D, T, rc, rfl, hsteps,
            heffect, hawaits, hservices.trans hservices', hlimits.trans hlimits'⟩, h.sublist⟩
        · obtain ⟨loaded, own, hl, htraced, hsub⟩ := h.traced j b hb
          exact ⟨loaded, own, (Function.update_of_ne hj ..).trans hl, htraced, hsub⟩
  | @refused W sys cmd _ w p hcmd hrun =>
    cases st with
    | none =>
      obtain ⟨-, hsame⟩ := Exec.wp_run_error (Bricked.wp_openProcess hstands sys cmd w) hrun
      refine ⟨h.rests.congr fun s hs => hsame _ ?_, ⟨none, hsteps, Bricked.congr hsame hstands⟩,
        h.sublist, h.traced⟩
      simp only [List.mem_cons, List.not_mem_nil, or_false] at hs
      rcases hs with rfl | rfl | rfl <;> decide
    | some D =>
      cases Exec.wp_run_error (Holds.wp_openProcess hstands D.sound.toSavable sys hcmd w) hrun
  | @closes _ i b p hb hrun =>
    obtain ⟨loaded, own, hl, ⟨D, T, rc, hown, hrunD, heffect, hawaits, hservices, hlimits⟩, hsub⟩ :=
      h.traced i b hb
    have hT : T.Savable := heffect.savable D.sound.toSavable
    obtain ⟨hrests, hsaved, hlost⟩ := Exec.wp_run_ok
      (hawaits.wp_closeProcess hT h.rests d.sound hservices hlimits) hrun
    have hmove : l.move (.closes i) = ⟨loaded ++ [own], l.closed ++ [own],
        Function.update l.begun i none⟩ := by
      simp only [Lineage.move, hl]
    obtain ⟨cmd, outcome⟩ := own
    cases hown
    rw [hmove]
    refine ⟨hrests, ?_, hsub.append_right _, h.traced_without i (List.sublist_append_left _ _)⟩
    by_cases hapart : T.reread.Apart
    · have hstep : Step (some D) ⟨cmd, .exits rc⟩ (some ⟨T.reread, hT.sound hapart⟩) :=
        .saved heffect rfl
      exact ⟨_, hrunD.append (.single hstep), hsaved hapart⟩
    · exact ⟨none, hrunD.append (.single (.bricked heffect hapart)), hlost hapart⟩
  | @killed _ i b hb =>
    exact ⟨h.rests, h.stands, h.sublist, h.traced_without i (.refl _)⟩

end follows

/-! ## What is lost -/

/-- Nobody closes behind another one that has closed since he opened. `stale i` says of a
process between its halves whether somebody has. -/
def noneStale : List Move → (Nat → Option Bool) → Bool
  | [], _ => true
  | .opens i _ _ :: moves, stale => noneStale moves (Function.update stale i (some false))
  | .refused _ :: moves, stale => noneStale moves stale
  | .closes i :: moves, stale =>
    match stale i with
    | none => noneStale moves stale
    | some overtaken =>
      !overtaken &&
        noneStale moves (Function.update (fun j => (stale j).map fun _ => true) i none)
  | .killed i :: moves, stale => noneStale moves (Function.update stale i none)

/-- Something is missing from the files, and from whatever was loaded. -/
structure Lost (l : Lineage) : Prop where
  files : l.files.length < l.closed.length
  begun : ∀ i b, l.begun i = some b → b.1.length < l.closed.length

/-- Nothing is missing from the files, and from what was loaded if nobody has closed since. -/
structure Complete (l : Lineage) (stale : Nat → Option Bool) : Prop where
  files : l.files = l.closed
  stale : ∀ i, stale i = (l.begun i).map fun b => decide (b.1 ≠ l.closed)
  sublist : ∀ i b, l.begun i = some b → b.1.Sublist l.closed

section lost

variable {l : Lineage} {stale : Nat → Option Bool}

theorem Lost.move (h : Lost l) (m : Move) : Lost (l.move m) := by
  have hwithout : ∀ (i j : Nat) (b : List Event × Event),
      Function.update l.begun i none j = some b → b.1.length < l.closed.length :=
    fun _ j b hb => h.begun j b (ne_of_update_none hb).2
  cases m with
  | opens i cmd rc =>
    refine ⟨h.files, fun j b hb => ?_⟩
    obtain ⟨-, rfl⟩ | ⟨-, hb⟩ := eq_or_ne_of_update_some hb
    · exact h.files
    · exact h.begun j b hb
  | refused cmd => exact h
  | killed i => exact ⟨h.files, hwithout i⟩
  | closes i =>
    cases hl : l.begun i with
    | none =>
      simp only [Lineage.move, hl]
      exact h
    | some b =>
      simp only [Lineage.move, hl]
      have hlt := h.begun i b hl
      refine ⟨by simpa using hlt, fun j b' hb' => ?_⟩
      have hlt' := hwithout i j b' hb'
      rw [List.length_append]
      exact Nat.lt_add_right _ hlt'

theorem Lost.moves (moves : List Move) : ∀ {l : Lineage}, Lost l →
    (moves.foldl Lineage.move l).files ≠ (moves.foldl Lineage.move l).closed := by
  induction moves with
  | nil =>
    intro l h heq
    have hlt := h.files
    rw [show l.files = l.closed from heq] at hlt
    exact Nat.lt_irrefl _ hlt
  | cons m moves ih => exact fun h => ih (h.move m)

theorem Complete.without (h : Complete l stale) (i : Nat) :
    Complete (l.move (.killed i)) (Function.update stale i none) := by
  refine ⟨h.files, fun j => ?_, fun j b hb => h.sublist j b (ne_of_update_none hb).2⟩
  show Function.update stale i none j = (Function.update l.begun i none j).map _
  by_cases hj : j = i
  · subst hj
    rw [Function.update_self, Function.update_self]
    rfl
  · rw [Function.update_of_ne hj, Function.update_of_ne hj]
    exact h.stale j

theorem Complete.opens (h : Complete l stale) (i : Nat) (cmd : Command) (rc : Int) :
    Complete (l.move (.opens i cmd rc)) (Function.update stale i (some false)) := by
  have hmove : (l.move (.opens i cmd rc)).begun =
      Function.update l.begun i (some (l.files, ⟨cmd, .exits rc⟩)) := rfl
  refine ⟨h.files, fun j => ?_, fun j b hb => ?_⟩
  · rw [hmove]
    by_cases hj : j = i
    · subst hj
      rw [Function.update_self, Function.update_self]
      have hfiles : ¬l.files ≠ l.closed := not_not.mpr h.files
      simp only [Option.map_some]
      exact congrArg some (decide_eq_false hfiles).symm
    · rw [Function.update_of_ne hj, Function.update_of_ne hj]
      exact h.stale j
  · obtain ⟨-, rfl⟩ | ⟨-, hb⟩ := eq_or_ne_of_update_some hb
    · exact h.files ▸ List.Sublist.refl _
    · exact h.sublist j b hb

/-- One closes that has loaded all there is: every other one is overtaken by it. -/
theorem Complete.closes (h : Complete l stale) {i : Nat} {b : List Event × Event}
    (hl : l.begun i = some b) (hloaded : b.1 = l.closed) :
    Complete (l.move (.closes i))
      (Function.update (fun j => (stale j).map fun _ => true) i none) := by
  have hmove : l.move (.closes i) = ⟨b.1 ++ [b.2], l.closed ++ [b.2],
      Function.update l.begun i none⟩ := by
    simp only [Lineage.move, hl]
  have hwithout := h.without i
  rw [hmove]
  refine ⟨by rw [hloaded], fun j => ?_, fun j b' hb' => ?_⟩
  · show Function.update (fun j => (stale j).map fun _ => true) i none j =
      (Function.update l.begun i none j).map fun b' => decide (b'.1 ≠ l.closed ++ [b.2])
    by_cases hj : j = i
    · subst hj
      rw [Function.update_self, Function.update_self]
      rfl
    · rw [Function.update_of_ne hj, Function.update_of_ne hj, h.stale j, Option.map_map]
      refine Option.map_congr fun b' hb' => ?_
      have hne : b'.1 ≠ l.closed ++ [b.2] := by
        intro heq
        have hle := (h.sublist j b' hb').length_le
        rw [heq, List.length_append, List.length_singleton] at hle
        omega
      exact (decide_eq_true hne).symm
  · exact (hwithout.sublist j b' hb').trans (List.sublist_append_left _ _)

theorem Complete.lost (h : Complete l stale) {i : Nat} {b : List Event × Event}
    (hl : l.begun i = some b) (hloaded : b.1 ≠ l.closed) : Lost (l.move (.closes i)) := by
  have hmove : l.move (.closes i) = ⟨b.1 ++ [b.2], l.closed ++ [b.2],
      Function.update l.begun i none⟩ := by
    simp only [Lineage.move, hl]
  have hsub := h.sublist i b hl
  have hlt : b.1.length < l.closed.length :=
    Nat.lt_of_le_of_ne hsub.length_le fun heq => hloaded (hsub.eq_of_length heq)
  rw [hmove]
  refine ⟨by simpa using hlt, fun j b' hb' => ?_⟩
  have hle := ((h.without i).sublist j b' hb').length_le
  rw [List.length_append, List.length_singleton]
  exact Nat.lt_succ_of_le hle

/-- **Something is lost where a process closes that was overtaken**, and only there. -/
theorem Complete.moves_iff (moves : List Move) : ∀ {l : Lineage} {stale : Nat → Option Bool},
    Complete l stale → ((moves.foldl Lineage.move l).files =
      (moves.foldl Lineage.move l).closed ↔ noneStale moves stale = true) := by
  induction moves with
  | nil => exact fun h => iff_of_true h.files rfl
  | cons m moves ih =>
    intro l stale h
    rw [List.foldl_cons]
    cases m with
    | opens i cmd rc => exact ih (h.opens i cmd rc)
    | refused cmd => exact ih h
    | killed i => exact ih (h.without i)
    | closes i =>
      have hstale := h.stale i
      cases hl : l.begun i with
      | none =>
        rw [hl] at hstale
        have hmove : l.move (.closes i) = l := by simp only [Lineage.move, hl]
        rw [hmove, noneStale, hstale]
        exact ih h
      | some b =>
        rw [hl] at hstale
        by_cases hloaded : b.1 = l.closed
        · rw [noneStale, hstale]
          simpa [hloaded] using ih (h.closes hl hloaded)
        · rw [noneStale, hstale]
          simpa [hloaded] using Lost.moves moves (h.lost hl hloaded)

end lost

/-- **Only the lineage counts**: whatever the processes do side by side, the files hold what a
run of the database leaves, of the processes of the lineage alone and one after the other. They
are some of those that have closed, in the order in which they closed, and all of them just
where nobody closes behind another one that has closed since he opened. -/
theorem lineage_stands {d : Database} {moves : List Move} {s : Overlap}
    (h : Holds fs d.toTables) (hrun : Steps MoveStep moves (Overlap.start fs) s) :
    (∃ st, Steps Step (lineage moves).files (some d) st ∧ Stands s.files st) ∧
      (lineage moves).files.Sublist (lineage moves).closed ∧
        ((lineage moves).files = (lineage moves).closed ↔
          noneStale moves (fun _ => none) = true) := by
  have hcomplete : Complete ⟨[], [], fun _ => none⟩ fun _ => none :=
    ⟨rfl, fun _ => rfl, fun _ _ hb => by cases hb⟩
  have hstep : ∀ {s m s' l}, Follows d s l → MoveStep s m s' → Follows d s' (l.move m) :=
    fun hfollows hmove => hfollows.step hmove
  have hfollows : Follows d s (lineage moves) :=
    hrun.fold (Q := Follows d) @hstep h.follows_start
  exact ⟨hfollows.stands, hfollows.sublist, hcomplete.moves_iff moves⟩

/-- Whether two processes can open in turn, with these return codes, and close in turn. -/
def overlaps (sys : Calls Unit) (cmd cmd' : Command) (fs : Files) : Bool :=
  match (openProcess sys cmd).run (.start fs ()) with
  | .error _ _ => false
  | .ok rc p =>
    match (openProcess sys cmd').run (.start p.files ()) with
    | .error _ _ => false
    | .ok rc' p' =>
      match closeProcess.run { p with files := p'.files } with
      | .error _ _ => false
      | .ok _ p₁ =>
        match closeProcess.run { p' with files := p₁.files } with
        | .error _ _ => false
        | .ok _ _ => rc == 0 && rc' == 0

theorem exists_overlap {sys : Calls Unit} {cmd cmd' : Command} (hcmd : onRecords cmd)
    (hcmd' : onRecords cmd') (h : overlaps sys cmd cmd' fs = true) :
    ∃ s, Steps MoveStep [.opens 0 cmd 0, .opens 1 cmd' 0, .closes 0, .closes 1]
      (Overlap.start fs) s := by
  unfold overlaps at h
  split at h
  · cases h
  · rename_i rc p hopen
    split at h
    · cases h
    · rename_i rc' p' hopen'
      split at h
      · cases h
      · rename_i p₁ hclose
        split at h
        · cases h
        · rename_i p₂ hclose'
          obtain ⟨rfl, rfl⟩ : rc = 0 ∧ rc' = 0 := by simpa using h
          exact ⟨_, .cons (.opens hcmd rfl hopen) (.cons (.opens hcmd' rfl hopen')
            (.cons (.closes rfl hclose) (.single (.closes rfl hclose'))))⟩

/-- `add-env a k 1`. -/
def firstBinding : Command := .addEnv (.ofBytes [97]) (.ofBytes [107]) (.ofBytes [49])

/-- `add-env b k 2`. -/
def secondBinding : Command := .addEnv (.ofBytes [98]) (.ofBytes [107]) (.ofBytes [50])

/-- They overlap, and both report success; the files hold what the second one leaves alone. -/
theorem lineage_stands_twoBindings : ∃ (st : Option Database) (s : Overlap),
    Steps Step [⟨secondBinding, .exits 0⟩] (some twoDatabase) st ∧ Stands s.files st := by
  have hoverlaps : overlaps (.allWell 1) firstBinding secondBinding twoServices = true := by
    decide +kernel
  have hfirst : onRecords firstBinding := trivial
  have hsecond : onRecords secondBinding := trivial
  obtain ⟨s, hsteps⟩ := exists_overlap hfirst hsecond hoverlaps
  obtain ⟨⟨st, hrun, hstands⟩, -⟩ := lineage_stands holds_twoDatabase hsteps
  exact ⟨st, s, hrun, hstands⟩

end MiniRunner.System
