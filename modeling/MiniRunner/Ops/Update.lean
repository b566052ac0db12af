import MiniRunner.Fini
import MiniRunner.Ops.Launch

/-!
# Updating a service

`ops/update_service.c`. `updateService` writes `updating` into the update status, has a child
pull the repository of the service, and writes `idle` behind that; `neglectUpdate` writes
`idle` alone. The status is what `updateAvialable` looks at before a service is started.

A pull that fails aborts the process with `updating` in the status. With `stop` the process
of the service gets SIGINT, and its pid stays in the table.
-/

namespace MiniRunner.Update

open Clib MiniRunner Process

variable {W : Type}

/-! ## The model -/

/-- The text `updating`. -/
def updatingText : Bytes := [117, 112, 100, 97, 116, 105, 110, 103]

/-- The steps of `writeUpdateAvialable` that return an error. -/
inductive StatusStep where
  | openFile | statFile | resizeFile | mapFile
  deriving DecidableEq, Repr

/-- `writeUpdateAvialable` in a process that gets no signal. -/
def writeUpdateAvialable (fails : Option StatusStep) (dataToWrite : Bytes) : Exec Files Int :=
  if fails = some .openFile then pure (-1)
  else do
    modify (·.openCreate (.file .updateStatus))
    if fails = some .statFile then pure (-1)
    else if dataToWrite = [] then pure (-1)
    else if (← doBackup (.file .updateStatus) (.fileCopy .updateStatus)) ≠ 0 then pure (-1)
    else if fails = some .resizeFile then pure (-1)
    else
      modify fun fs => fs.put (.file .updateStatus)
        (ftruncate dataToWrite.length (fs.content (.file .updateStatus)))
      if fails = some .mapFile then pure (-1)
      else
        modify fun fs => fs.put (.file .updateStatus)
          (copyInto (fs.content (.file .updateStatus)) dataToWrite)
        pure 0

/-- What `update_service` calls. -/
structure Puller (W : Type) where
  /-- `kill` with SIGINT. -/
  interrupt : BitVec 32 → W → Int × W
  pipe : W → Bool × W
  /-- Whether there is a child. -/
  fork : W → Bool × W
  chdir : CStr → W → Bool × W
  /-- `system("sudo git pull")`. -/
  gitPull : W → Int × W

/-- The texts `f` and `s`. -/
def failText : Bytes := [102]
def doneText : Bytes := [115]

section update

variable (sys : Puller W)

def child (name : CStr) : Exec (Process W) Bytes := do
  if (← call (sys.chdir (serviceRoot.append name))) = false then pure failText
  else if (← call sys.gitPull) ≠ 0 then pure failText
  else pure doneText

/-- The parent's `read` into `buff`, which has room for two bytes, and the comparison. -/
def hear (message : Bytes) : Exec (Process W) Int :=
  let buff := message.take 2
  if 2 ≤ buff.length then throw .undefined
  else if (CStr.ofBytes buff).bytes ≠ doneText then pure (-1)
  else pure 0

def pull (name : CStr) : Exec (Process W) Int := do
  if (← call sys.pipe) = false then pure (-1)
  else if (← call sys.fork) then
    let message ← child sys name
    hear message
  else hear []

/-- `update_service`. -/
def updateFoundService (foundService : Service) (stop : Bool) : Exec (Process W) Int := do
  if stop = true ∧ foundService.pid ≠ 0 then
    let _ ← call (sys.interrupt foundService.pid)
    pull sys foundService.name
  else pull sys foundService.name

/-- `updateService`; `fails` are the steps of its two writes that fail. Where it gets to its
end it exits with 0. -/
def updateService (fails : Option StatusStep × Option StatusStep) (serviceName : CStr)
    (stop : Bool) : Exec (Process W) Unit := do
  let p ← get
  if p.services.isNull then pure ()
  else
    match ← findService serviceName with
    | none => pure ()
    | some foundService =>
      if (← onFiles (writeUpdateAvialable fails.1 updatingText)) ≠ 0 then throw .aborted
      else if (← updateFoundService sys foundService stop) ≠ 0 then throw .aborted
      else if (← onFiles (writeUpdateAvialable fails.2 idleText)) ≠ 0 then throw .aborted
      else pure ()

end update

/-- A failure is reported and nothing else. -/
def neglectUpdate (fails : Option StatusStep) : Exec (Process W) Unit := do
  let _ ← onFiles (writeUpdateAvialable fails idleText)

/-! ## What they do -/

/-- What a write of the status leaves, by its return code. -/
structure Written (fs : Files) (text : Bytes) (rc : Int) (fs' : Files) : Prop where
  success : rc = 0 → fs'.content (.file .updateStatus) = text
  failure : rc ≠ 0 → fs'.content (.file .updateStatus) = fs.content (.file .updateStatus) ∨
    fs'.content (.file .updateStatus) = ftruncate text.length (fs.content (.file .updateStatus))
  others : SameBut [.file .updateStatus, .fileCopy .updateStatus] fs fs'

section specs

variable {sys : Puller W} {p : Process W}

theorem Written.failed {fs fs' : Files} {text : Bytes}
    (hstatus : fs'.content (.file .updateStatus) = fs.content (.file .updateStatus) ∨
      fs'.content (.file .updateStatus) =
        ftruncate text.length (fs.content (.file .updateStatus)))
    (hothers : SameBut [.file .updateStatus, .fileCopy .updateStatus] fs fs') :
    Written fs text (-1) fs' := ⟨fun h => absurd h (by decide), fun _ => hstatus, hothers⟩

theorem wp_writeUpdateAvialable (fails : Option StatusStep) {text : Bytes} (hne : text ≠ [])
    (fs : Files) :
    Exec.wp (writeUpdateAvialable fails text) (Written fs text) (fun _ _ => False) fs := by
  have hopened : SameBut [.file .updateStatus, .fileCopy .updateStatus] fs
      (fs.openCreate (.file .updateStatus)) := fun q _ => FileStore.content_openCreate ..
  obtain ⟨fs₁, hfs₁⟩ : ∃ fs₁, doBackupFiles (.file .updateStatus) (.fileCopy .updateStatus)
      (fs.openCreate (.file .updateStatus)) = fs₁ := ⟨_, rfl⟩
  have hbackup : ∀ q, q ≠ .fileCopy .updateStatus → fs₁.content q = fs.content q := fun q hq => by
    rw [← hfs₁, content_doBackupFiles, if_neg fun h => hq h.1, FileStore.content_openCreate]
  have hstatus : fs₁.content (.file .updateStatus) = fs.content (.file .updateStatus) :=
    hbackup _ (by decide)
  have hput : ∀ bs : Bytes, SameBut [.file .updateStatus, .fileCopy .updateStatus] fs
      (fs₁.put (.file .updateStatus) bs) := fun bs q hq => by
    simp only [List.mem_cons, List.not_mem_nil, or_false, not_or] at hq
    rw [FileStore.content_put_of_ne hq.1, hbackup q hq.2]
  have hcopied : copyInto (ftruncate text.length (fs₁.content (.file .updateStatus))) text = text :=
    copyInto_of_length_eq (length_ftruncate _ _)
  simp only [writeUpdateAvialable, Exec.wp_ite, Exec.wp_bind, Exec.wp_modify, Exec.wp_pure,
    wp_doBackup, hfs₁, FileStore.content_put, hcopied, ne_eq, not_true_eq_false, false_implies,
    not_false_eq_true, true_implies, true_and]
  refine ⟨fun _ => .failed (.inl rfl) (.refl _ fs), fun _ => ⟨fun _ => ?_, fun _ => ⟨?_, fun _ =>
    ⟨fun _ => ?_, fun _ => ⟨fun _ => ?_, fun _ => ?_⟩⟩⟩⟩⟩
  · exact .failed (.inl (FileStore.content_openCreate ..)) hopened
  · exact fun hnil => absurd hnil hne
  · refine .failed (.inl hstatus) fun q hq => hbackup q fun h => hq ?_
    simp [h]
  · exact .failed (.inr (by rw [FileStore.content_put, hstatus])) (hput _)
  · refine ⟨fun _ => FileStore.content_put .., fun h => absurd rfl h, fun q hq => ?_⟩
    rw [FileStore.content_put_of_ne fun h => hq (by simp [h]), hput _ q hq]

def pulls (sys : Puller W) (name : CStr) (w : W) : Bool :=
  let (piped, w) := sys.pipe w
  let (forked, w) := sys.fork w
  let (found, w) := sys.chdir (serviceRoot.append name) w
  piped && forked && found && (sys.gitPull w).1 == 0

theorem wp_hear (message : Bytes) (hlen : message.length ≤ 1) {Q : Int → Process W → Prop}
    {E : Halt → Process W → Prop} :
    Exec.wp (hear message) Q E p ↔
      Q (if (CStr.ofBytes message).bytes = doneText then 0 else -1) p := by
  have htake : message.take 2 = message := List.take_of_length_le (by omega)
  rw [hear, htake, if_neg (by omega)]
  by_cases hdone : (CStr.ofBytes message).bytes = doneText
  · rw [if_neg (not_not.mpr hdone), if_pos hdone, Exec.wp_pure]
  · rw [if_pos hdone, if_neg hdone, Exec.wp_pure]

/-- **What the parent hears of a pull**: 0 exactly where it goes through. -/
theorem wp_pull (name : CStr) :
    Exec.wp (pull sys name)
      (fun rc p' => (∃ w, p' = { p with world := w }) ∧ (rc = 0 ↔ pulls sys name p.world = true))
      (fun _ _ => False) p := by
  have hfail : (CStr.ofBytes failText).bytes ≠ doneText := by decide
  have hdone : (CStr.ofBytes doneText).bytes = doneText := by decide
  have hnil : (CStr.ofBytes []).bytes ≠ doneText := by decide
  simp only [pull, child, pulls, Exec.wp_bind, wp_call, Exec.wp_ite, Exec.wp_pure,
    wp_hear [] (Nat.zero_le 1), wp_hear failText le_rfl,
    wp_hear doneText le_rfl, if_neg hfail, if_neg hnil, if_pos hdone]
  cases (sys.pipe p.world).1 <;> cases (sys.fork (sys.pipe p.world).2).1 <;>
    cases (sys.chdir (serviceRoot.append name) (sys.fork (sys.pipe p.world).2).2).1 <;> simp

/-- An update changes nothing of the process but the world, whether it stops the service or
not: the pid stays in the table. -/
theorem wp_updateFoundService (foundService : Service) (stop : Bool) :
    Exec.wp (updateFoundService sys foundService stop)
      (fun _ p' => ∃ w, p' = { p with world := w }) (fun _ _ => False) p := by
  unfold updateFoundService
  split
  · simp only [Exec.wp_bind, wp_call]
    refine Exec.wp_mono (wp_pull foundService.name) ?_ fun _ _ h => h
    rintro rc p' ⟨⟨w, rfl⟩, -⟩
    exact ⟨w, rfl⟩
  · exact Exec.wp_mono (wp_pull foundService.name) (fun _ _ h => h.1) fun _ _ h => h

/-- What an update may change: the world, the update status and its backup. -/
def Aside (p p' : Process W) : Prop :=
  ∃ (w : W) (fs : Files), p' = { p with world := w, files := fs } ∧
    SameBut [.file .updateStatus, .fileCopy .updateStatus] p.files fs

theorem Aside.refl (p : Process W) : Aside p p := ⟨p.world, p.files, rfl, .refl _ _⟩

theorem Aside.trans {p₁ p₂ p₃ : Process W} (h : Aside p₁ p₂) (h' : Aside p₂ p₃) :
    Aside p₁ p₃ := by
  obtain ⟨w, fs, rfl, hsame⟩ := h
  obtain ⟨w', fs', rfl, hsame'⟩ := h'
  exact ⟨w', fs', rfl, hsame.trans hsame'⟩

theorem wp_writeStatus (fails : Option StatusStep) {text : Bytes} (hne : text ≠ []) :
    Exec.wp (onFiles (writeUpdateAvialable fails text))
      (fun rc p' => Aside p p' ∧ Written p.files text rc p'.files) (fun _ _ => False) p := by
  rw [wp_onFiles]
  exact Exec.wp_mono (wp_writeUpdateAvialable fails hne p.files)
    (fun _ fs h => ⟨⟨p.world, fs, rfl, h.others⟩, h⟩) fun _ _ h => h

/-- **What an update leaves alone**: every table, and every file but the status. -/
theorem wp_updateService (fails : Option StatusStep × Option StatusStep) (serviceName : CStr)
    (stop : Bool) :
    Exec.wp (updateService sys fails serviceName stop) (fun _ p' => Aside p p')
      (fun e p' => e = .aborted ∧ Aside p p') p := by
  simp only [updateService, Exec.wp_bind, Exec.wp_get, Exec.wp_ite, Exec.wp_pure, wp_findService]
  refine ⟨fun _ => .refl p, fun _ => ?_⟩
  cases p.services.items.find? (·.name == serviceName) with
  | none => exact (Exec.wp_pure _).mpr (.refl p)
  | some foundService =>
    simp only [Exec.wp_bind, Exec.wp_ite, Exec.wp_throw, Exec.wp_pure]
    refine Exec.wp_mono (wp_writeStatus fails.1 (by decide)) ?_ fun _ _ h => h.elim
    rintro rc p₁ ⟨h₁, -⟩
    refine ⟨fun _ => ⟨trivial, h₁⟩, fun _ => ?_⟩
    refine Exec.wp_mono (wp_updateFoundService foundService stop) ?_ fun _ _ h => h.elim
    rintro rc _ ⟨w, rfl⟩
    have h₂ : Aside p { p₁ with world := w } := h₁.trans ⟨w, p₁.files, rfl, .refl _ _⟩
    refine ⟨fun _ => ⟨trivial, h₂⟩, fun _ => ?_⟩
    refine Exec.wp_mono (wp_writeStatus fails.2 (by decide)) ?_ fun _ _ h => h.elim
    rintro rc p₃ ⟨h₃, -⟩
    exact ⟨fun _ => ⟨trivial, h₂.trans h₃⟩, fun _ => h₂.trans h₃⟩

theorem wp_neglectUpdate (fails : Option StatusStep) :
    Exec.wp (neglectUpdate fails) (fun _ p' => Aside p p') (fun _ _ => False) p := by
  simp only [neglectUpdate, Exec.wp_bind, Exec.wp_pure]
  exact Exec.wp_mono (wp_writeStatus fails (by decide)) (fun _ _ h => h.1) fun _ _ h => h

end specs

end MiniRunner.Update
