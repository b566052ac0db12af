import MiniRunner.System.Saving

/-!
# What the commands are due

Each command of `Command`, run in a process that has loaded a database, leaves that process
`Due` to save what the command's `Effect` says, whatever the world answers, or `Crowded` with
a second limit. It can stop before that in two ways only: in what the standard leaves
undefined, or by giving up on a child that does not answer, with the files as they were.
-/

namespace MiniRunner.System

open Clib MiniRunner Process

variable {W : Type} {fs : Files} {d : Tables} {w : W} {p : Process W}

/-! ## The loaded process -/

/-- A process whose constructor has loaded a database. -/
structure Opened (fs : Files) (d : Tables) (p : Process W) : Prop where
  loaded : ∃ w, Loaded fs w p
  services : p.services.items = d.services
  jobs : p.jobs.items = d.jobs
  envs : p.envs.items = d.envs
  limits : p.limits.items = d.limits

theorem Holds.opened (h : Holds fs d) (hp : Loaded fs w p) : Opened fs d p := by
  obtain ⟨services, hservices, hs⟩ := h.services
  obtain ⟨jobs, hjobs, hj⟩ := h.jobs
  obtain ⟨envs, henvs, he⟩ := h.envs
  obtain ⟨limits, hlimits, hl⟩ := h.limits
  refine ⟨⟨w, hp⟩, ?_, ?_, ?_, ?_⟩
  · rw [Except.ok.inj (hp.services.symm.trans hservices), hs]
  · rw [Except.ok.inj (hp.jobs.symm.trans hjobs), hj]
  · rw [Except.ok.inj (hp.envs.symm.trans henvs), he]
  · rw [Except.ok.inj (hp.limits.symm.trans hlimits), hl]

theorem Opened.stored (h : Opened fs d p) : ∀ s ∈ [Store.projects, .jobsSync, .limits],
    p.files.content (.file s) = fs.content (.file s) := by
  obtain ⟨w, hp⟩ := h.loaded
  intro s hs
  refine hp.files _ ?_
  simp only [List.mem_cons, List.not_mem_nil, or_false] at hs
  rcases hs with rfl | rfl | rfl <;> decide

theorem Opened.kept (h : Opened fs d p) (w' : W) (marked : Bool) :
    Due fs d { p with world := w', reformatLimits := marked } d := by
  obtain ⟨w, hp⟩ := h.loaded
  refine ⟨hp.reformatState, h.stored, .inl h.services, h.jobs, h.envs, ?_⟩
  split
  · exact h.limits
  · rfl

theorem Opened.due (h : Opened fs d p) : Due fs d p d := by
  obtain ⟨w, hp⟩ := h.loaded
  exact h.kept p.world p.reformatLimits

def Ended (fs : Files) (d : Tables) (cmd : Command) (rc : Int) (p' : Process W) : Prop :=
  ∃ T, Effect d cmd rc T ∧ Due fs d p' T

def Halts (cmd : Command) (p : Process W) (e : Halt) (p' : Process W) : Prop :=
  e = .undefined ∨ e = .aborted ∧ givesUp cmd ∧ ∀ q, p'.files.content q = p.files.content q

/-- **A command has its effect**, or records a second limit. -/
def Acts (fs : Files) (d : Tables) (cmd : Command) : Prop :=
  ∀ {W : Type} (sys : Calls W) {p : Process W}, Opened fs d p →
    Exec.wp (cmd.exec sys)
      (fun rc p' => Ended fs d cmd rc p' ∨ crowds d cmd ∧ Crowded fs d p' d) (Halts cmd p) p

theorem acts_of {cmd : Command} (h : ∀ {W : Type} (sys : Calls W) {p : Process W},
    Opened fs d p → Exec.wp (cmd.exec sys) (Ended fs d cmd) (Halts cmd p) p) : Acts fs d cmd :=
  fun sys _ hp => Exec.wp_mono (h sys hp) (fun _ _ => .inl) fun _ _ h => h

theorem Opened.failed (h : Opened fs d p) (cmd : Command) : Ended fs d cmd 1 p :=
  ⟨d, .failed cmd, h.due⟩

theorem wp_failing_iff {op : Exec (Process W) Int} {Q : Int → Process W → Prop}
    {E : Halt → Process W → Prop} :
    Exec.wp (failing op) Q E p ↔
      Exec.wp op (fun rc p' => (rc ≠ 0 → Q 1 p') ∧ (rc = 0 → Q 0 p')) E p := by
  simp only [failing, Exec.wp_bind, Exec.wp_ite, Exec.wp_pure, ne_eq, not_not]

/-! ## Services -/

theorem add_acts (githubLink nickName : CStr) :
    Acts fs d (.add githubLink nickName) := by
  refine acts_of fun {W} sys p h => ?_
  obtain ⟨w, hp⟩ := h.loaded
  obtain ⟨-, -, hhonest⟩ := loadServices_sound hp.services
  simp only [Command.exec, Exec.wp_ite, Exec.wp_pure]
  refine ⟨fun _ => h.failed _, fun hname => ⟨fun _ => h.failed _, fun hrepo => ?_⟩⟩
  refine wp_failing_iff.mpr (Exec.wp_mono (wp_addProject githubLink nickName hhonest) ?_ ?_)
  · rintro rc p' ⟨t, w', l, rfl, rfl, hadded⟩
    rw [h.services] at hadded
    generalize (sys.clone githubLink nickName p.world).1 = c at hadded
    have hdue : ∀ {T : List Service}, (t.items = T ∨ T = d.services ∧ ∃ githubRepo nickName,
        t.items = d.services ++ [addedService githubRepo nickName false]) →
        Due fs d { p with services := t, world := w' } { d with services := T } := fun hT =>
      ⟨hp.reformatState, h.stored, hT, h.jobs, h.envs, h.due.limits⟩
    constructor
    · intro hrc
      refine ⟨d, .failed _, ?_⟩
      generalize htable : t.items = l at hadded
      cases hadded with
      | done => exact absurd rfl hrc
      | uncloned => exact hdue (.inr ⟨rfl, _, _, htable⟩)
      | clash => exact hdue (.inl htable)
    · rintro rfl
      generalize htable : t.items = l at hadded
      cases hadded with
      | done hfresh =>
        exact ⟨_, .added _ _ (not_not.mp hname) (not_not.mp hrepo) hfresh, hdue (.inl htable)⟩
  · rintro e p' ⟨rfl, hfiles, -⟩
    exact .inr ⟨rfl, trivial, fun q => by rw [hfiles]⟩

theorem remove_acts (hd : d.Savable) (serviceName : CStr) : Acts fs d (.remove serviceName) := by
  refine acts_of fun {W} sys p h => ?_
  obtain ⟨w, hp⟩ := h.loaded
  simp only [Command.exec, Exec.wp_bind, wp_markLimits, Exec.wp_pure]
  refine Exec.wp_mono (wp_normalDeleteServices serviceName fun hfound => ?_) ?_
    fun _ _ h => h.elim
  · obtain ⟨s, hfind⟩ := Option.isSome_iff_exists.mp hfound
    have hname : s.name = serviceName := by simpa using List.find?_some hfind
    exact hname ▸ (hd.services s (h.services ▸ List.mem_of_find?_eq_some hfind)).folderFits
  · rintro rc p' (⟨t, lim, w', hitems, hlim⟩ | w')
    · refine ⟨_, .removed serviceName, hp.reformatState, h.stored, .inl ?_, h.jobs, h.envs, ?_⟩
      · rw [← h.services]
        exact hitems
      · simp only [if_true, ← h.limits]
        exact hlim
    · exact ⟨d, .notRemoved serviceName, h.kept w' true⟩

theorem rename_acts (oldName newName : CStr) : Acts fs d (.rename oldName newName) := by
  refine acts_of fun {W} sys p h => ?_
  obtain ⟨w, hp⟩ := h.loaded
  simp only [Command.exec, Exec.wp_ite, Exec.wp_bind, wp_markLimits, Exec.wp_pure]
  refine ⟨fun _ => h.failed _, fun hvalid => ?_⟩
  refine Exec.wp_mono (wp_renameService oldName newName) ?_ fun _ _ h => h.elim
  rintro _ p' (⟨t, lim, w', hfound, hitems, hlim⟩ | w')
  · have hhas : d.Has oldName := by
      rw [h.services] at hfound
      obtain ⟨s, hfind⟩ := Option.isSome_iff_exists.mp hfound
      exact ⟨s, List.mem_of_find?_eq_some hfind, by simpa using List.find?_some hfind⟩
    refine ⟨_, .renamed oldName newName (not_not.mp hvalid) hhas, hp.reformatState, h.stored,
      .inl ?_, h.jobs, h.envs, ?_⟩
    · rw [← h.services]
      exact hitems
    · simp only [if_true, ← h.limits]
      exact hlim
  · exact ⟨d, .notRenamed oldName newName, h.kept w' true⟩

/-! ## Starting and stopping -/

theorem wp_startThread_cases (sys : Calls W) (params : Param) :
    Exec.wp (startThread sys params) (fun _ p' => Started p p')
      (fun e p' => e = .undefined ∨ e = .aborted ∧ Started p p') p := by
  refine Exec.wp_mono (Exec.wp_and (started_startThread sys p params p (.refl p))
    (halts_startThread params)) (fun _ _ h => h.1) ?_
  rintro e p' ⟨h, rfl | ⟨rfl, -⟩⟩
  · exact .inr ⟨rfl, h⟩
  · exact .inl rfl

theorem wp_restartService_cases (sys : Calls W) (name : CStr) (bash : Option CStr)
    (attach : Bool) :
    Exec.wp (restartService sys name bash attach) (fun _ p' => Started p p')
      (fun e p' => e = .undefined ∨ e = .aborted ∧ Started p p') p := by
  simp only [restartService, Exec.wp_bind, wp_findSlot]
  cases p.services.items.findIdx? (·.name == name) with
  | none => exact (Exec.wp_pure _).mpr (.refl p)
  | some i =>
    simp only [Exec.wp_bind, Exec.wp_get]
    refine wp_killService fun rc w => ?_
    simp only [warmService, Exec.wp_ite, Exec.wp_pure, Exec.wp_bind, wp_updateAvialable]
    have hw := Started.world p w
    refine ⟨fun _ => hw, fun _ => ⟨fun _ => ⟨fun _ => hw, fun h => absurd (by decide) h⟩,
      fun _ => ?_⟩⟩
    split
    · exact .inl trivial
    · refine ⟨fun _ => ⟨fun _ => hw.trans (.sawStatus _), fun h => absurd (by decide) h⟩,
        fun _ => ?_⟩
      have hseen := hw.trans (.sawStatus _)
      refine Exec.wp_mono (wp_startThread_cases sys _) ?_ fun e p' h =>
        h.imp_right fun h => ⟨h.1, hseen.trans h.2⟩
      intro rc p' h
      refine ⟨fun _ => hseen.trans h, fun _ => ?_⟩
      simp only [Exec.wp_get, wp_call]
      have hcgroup := (hseen.trans h).trans
        (.world p' (sys.updateCgroup name ((p'.services.items[i]?.map (·.pid)).getD 0) p'.world).2)
      refine ⟨fun _ => wp_killService fun rc w' => ?_, fun _ => hcgroup⟩
      exact ⟨fun _ => hcgroup.trans (.world _ w'), fun _ => hcgroup.trans (.world _ w')⟩

theorem wp_stopAll_started (sys : Calls W) (names : List CStr) :
    ∀ {p : Process W}, Exec.wp (stopAll sys names) (fun _ p' => Started p p')
      (fun _ _ => False) p := by
  induction names with
  | nil => exact (Exec.wp_pure _).mpr (.refl _)
  | cons name names ih =>
    intro p
    simp only [stopAll, Exec.wp_bind]
    refine Exec.wp_mono (wp_stopService name) ?_ fun _ _ h => h
    intro rc p₁ hstopped
    have h₁ : Started p p₁ := by
      cases hstopped with
      | stopped t w hitems =>
        refine ⟨?_, fun _ => rfl, rfl, rfl, rfl, rfl, rfl⟩
        simp only [hitems]
        exact Table.map_updateFirst (f := fun s : Service => { s with pid := 0 })
          (fun _ _ => rfl) _
      | kept w => exact .world p w
    exact Exec.wp_mono ih (fun _ _ h => h₁.trans h) fun _ _ h => h

theorem Opened.started (h : Opened fs d p) {cmd : Command} (hcmd : startsOrStops cmd) (rc : Int)
    {p' : Process W} (hs : Started p p') : Ended fs d cmd rc p' := by
  obtain ⟨w, hp⟩ := h.loaded
  obtain ⟨hjobs, henvs, hlimits, hstate, hflag⟩ := hs.others
  have hmap := hs.services
  rw [h.services] at hmap
  refine ⟨_, .pids cmd rc p'.services.items hcmd hmap, hstate.trans hp.reformatState,
    fun s hmem => (hs.files _).trans (h.stored s hmem), .inl rfl, ?_, ?_, ?_⟩
  · rw [hjobs]
    exact h.jobs
  · rw [henvs]
    exact h.envs
  · rw [hflag, hp.reformatLimits]
    rfl

theorem run_acts (hd : d.Savable) (name : CStr) (bash : Option CStr) (attach : Bool) :
    Acts fs d (.run name bash attach) := by
  refine acts_of fun {W} sys p h => ?_
  obtain ⟨w, hp⟩ := h.loaded
  simp only [Command.exec, Exec.wp_ite, Exec.wp_bind, Exec.wp_pure]
  refine ⟨fun _ => h.failed _, fun hname => ?_⟩
  have hfit : p.envs.items.length ≤ envLimit := h.envs ▸ hd.envsFit
  by_cases hfault : RunFaults (p.files.content (.file .updateStatus)) p.services.items
      p.envs.items name
  · exact wp_runService_undefined hfit (loadServices_not_null hp.services) hname hfault
      fun _ => .inl rfl
  · refine Exec.wp_mono (wp_runService hfit hfault) ?_ ?_
    · have hcmd : startsOrStops (.run name bash attach) := trivial
      exact fun _ _ hs => h.started hcmd 0 hs
    · rintro e p' ⟨he, hs⟩
      exact .inr ⟨he, trivial, hs.files⟩

theorem stop_acts (names : List CStr) : Acts fs d (.stop names) := by
  refine acts_of fun {W} sys p h => ?_
  simp only [Command.exec, Exec.wp_bind, Exec.wp_pure]
  have hcmd : startsOrStops (.stop names) := trivial
  exact Exec.wp_mono (wp_stopAll_started sys names) (fun _ _ hs => h.started hcmd 0 hs)
    fun _ _ h => h.elim

theorem restart_acts (serviceName : CStr) (bash : Option CStr) (attach : Bool) :
    Acts fs d (.restart serviceName bash attach) := by
  refine acts_of fun {W} sys p h => ?_
  refine wp_failing_iff.mpr (Exec.wp_mono (wp_restartService_cases sys serviceName bash attach)
    ?_ ?_)
  · have hcmd : startsOrStops (.restart serviceName bash attach) := trivial
    exact fun _ _ hs => ⟨fun _ => h.started hcmd 1 hs, fun _ => h.started hcmd 0 hs⟩
  · exact fun e p' hs => hs.imp_right fun hs => ⟨hs.1, trivial, hs.2.files⟩

/-! ## Limits -/

/-- A branch of `set-limit`: it fails, it finds no running service, or it records the limit. -/
theorem Opened.wp_limitBranch (h : Opened fs d p) {name : CStr} {write : BitVec 32 → W → Int × W}
    {cpu : BitVec 64} {memory : BitVec 128} {missing failed set : Exec (Process W) Int}
    {a b : Bool}
    (hmissing : Exec.wp missing (fun rc p' => rc = -1 ∧ p' = p) (fun e _ => e = .undefined) p)
    (hfailed : Ends 1 a failed) (hset : Ends 0 b set) :
    Exec.wp (do if (← limitService name write cpu memory missing) ≠ 0 then failed else set)
      (fun rc p' => (∃ w' marked, p' = { p with world := w', reformatLimits := marked } ∧
          (rc = 1 ∨ rc = 0 ∧ ¬d.Running name)) ∨
        rc = 0 ∧ d.Running name ∧ ∃ w' t, t.items = recordLimit name cpu memory d.limits ∧
          p' = { p with world := w', limits := t, reformatLimits := b })
      (fun e _ => e = .undefined) p := by
  obtain ⟨w, hp⟩ := h.loaded
  have hflag := hp.reformatLimits
  obtain ⟨t, hitems, hiff⟩ := wp_limitService name write cpu memory missing
    (initLimits_sound hp.limits).2.2
  have hrc : (-1 : Int) ≠ 0 := by decide
  rw [Exec.wp_bind, hiff]
  cases hfind : p.services.items.find? (·.name == name) with
  | none =>
    refine Exec.wp_mono hmissing ?_ fun _ _ he => he
    rintro rc p' ⟨rfl, rfl⟩
    rw [if_pos hrc]
    exact (hfailed hflag).mpr (.inl ⟨_, _, rfl, .inl rfl⟩)
  | some s =>
    simp only
    split
    · rename_i hpid
      rw [if_neg (by decide)]
      refine (hset hflag).mpr (.inl ⟨_, _, rfl, .inr ⟨rfl, ?_⟩⟩)
      rintro ⟨s', hfind', hpid'⟩
      rw [← h.services, hfind] at hfind'
      cases hfind'
      exact hpid' hpid
    · rename_i hpid
      split
      · refine (hfailed ?_).mpr ?_
        · exact hflag
        · exact .inl ⟨_, _, rfl, .inl rfl⟩
      · rw [if_neg (by decide)]
        refine (hset ?_).mpr ?_
        · exact hflag
        refine .inr ⟨rfl, ⟨s, ?_, hpid⟩, _, t, ?_, rfl⟩
        · rw [← h.services]
          exact hfind
        · rw [← h.limits]
          exact hitems

/-- What such a branch leaves is due, if it can be saved. -/
theorem Opened.limited (h : Opened fs d p) {name : CStr} {cpu : Option (BitVec 64)}
    {declined : Bool} {mem : Option Amount} (hasked : Asked cpu declined mem) {rc : Int}
    {p' : Process W}
    (hleft : (∃ w' marked, p' = { p with world := w', reformatLimits := marked } ∧
        (rc = 1 ∨ rc = 0 ∧ ¬d.Running name)) ∨
      rc = 0 ∧ d.Running name ∧ ∃ w' t, t.items = (d.record (limitFor name cpu mem)).limits ∧
        p' = { p with world := w', limits := t, reformatLimits := marksLimits cpu mem }) :
    Ended fs d (.setLimit name cpu declined mem) rc p' ∨
      crowds d (.setLimit name cpu declined mem) ∧ Crowded fs d p' d := by
  obtain ⟨w, hp⟩ := h.loaded
  rcases hleft with ⟨w', marked, rfl, rfl | ⟨rfl, hstopped⟩⟩ | ⟨rfl, hrunning, w', t, hitems, rfl⟩
  · exact .inl ⟨d, .failed _, h.kept w' marked⟩
  · exact .inl ⟨d, .notLimited _ _ _ _ fun hrunning => absurd hrunning hstopped, h.kept w' marked⟩
  · cases hmarks : marksLimits cpu mem with
    | false =>
      refine .inl ⟨d, .notLimited _ _ _ _ fun _ hno => ?_, hp.reformatState, h.stored,
        .inl h.services, h.jobs, h.envs, rfl⟩
      rw [hmarks] at hno
      cases hno
    | true =>
      by_cases hone : (d.record (limitFor name cpu mem)).limits.length ≤ 1
      · exact .inl ⟨_, .limited _ _ _ _ hrunning hmarks hasked hone, hp.reformatState, h.stored,
          .inl h.services, h.jobs, h.envs, hitems⟩
      · have htwo : 2 ≤ (d.record (limitFor name cpu mem)).limits.length := by omega
        refine .inr ⟨⟨hrunning, hmarks, hasked, htwo⟩, ⟨rfl, ?_⟩, hp.reformatState, h.stored,
          .inl h.services, h.jobs, h.envs, rfl⟩
        simp only [hitems]
        exact htwo

theorem Opened.wp_setLimitBranch (h : Opened fs d p) {name : CStr} {cpu : Option (BitVec 64)}
    {declined : Bool} {mem : Option Amount} (hasked : Asked cpu declined mem)
    {write : BitVec 32 → W → Int × W} {missing failed set : Exec (Process W) Int} {a : Bool}
    (hmissing : Exec.wp missing (fun rc p' => rc = -1 ∧ p' = p) (fun e _ => e = .undefined) p)
    (hfailed : Ends 1 a failed) (hset : Ends 0 (marksLimits cpu mem) set) :
    Exec.wp (do
        if (← limitService name write (limitFor name cpu mem).cpu (limitFor name cpu mem).memory
          missing) ≠ 0 then failed else set)
      (fun rc p' => Ended fs d (.setLimit name cpu declined mem) rc p' ∨
        crowds d (.setLimit name cpu declined mem) ∧ Crowded fs d p' d)
      (Halts (.setLimit name cpu declined mem) p) p :=
  Exec.wp_mono (h.wp_limitBranch hmissing hfailed hset) (fun _ _ hleft => h.limited hasked hleft)
    fun _ _ he => .inl he

theorem setLimit_acts (name : CStr) (cpu : Option (BitVec 64)) (declined : Bool)
    (mem : Option Amount) : Acts fs d (.setLimit name cpu declined mem) := by
  intro W sys p h
  have hmissing : Exec.wp (pure (-1) : Exec (Process W) Int) (fun rc p' => rc = -1 ∧ p' = p)
      (fun e _ => e = .undefined) p := (Exec.wp_pure _).mpr ⟨rfl, rfl⟩
  have hnoReturn : Exec.wp (throw .undefined : Exec (Process W) Int)
      (fun rc p' => rc = -1 ∧ p' = p) (fun e _ => e = .undefined) p := (Exec.wp_throw _).mpr rfl
  have hasked : ∀ {cpu : BitVec 64} {amount : Amount}, ¬amount.isZero = true →
      Asked (some cpu) false (some amount) := by
    intro cpu amount hzero
    refine ⟨.inl rfl, ?_, fun _ => rfl⟩
    rintro _ ⟨⟩
    simpa using hzero
  match cpu, declined, mem with
  | none, declined, none =>
    exact (Exec.wp_pure _).mpr (.inl ⟨d, .notLimited _ _ _ _ fun _ _ => ⟨rfl, rfl⟩, h.due⟩)
  | some _, true, _ => exact (Exec.wp_pure _).mpr (.inl (h.failed _))
  | none, declined, some amount =>
    simp only [Command.exec, setLimitMem, Exec.wp_ite, Exec.wp_pure]
    refine ⟨fun _ => .inl (h.failed _), fun hzero => ?_⟩
    have hcpu : Asked (some 0) false (some amount) := hasked hzero
    have hmem : Asked none declined (some amount) :=
      ⟨.inr rfl, hcpu.accepted, fun hno => absurd hno Bool.false_ne_true⟩
    have hset : Ends 0 (marksLimits none (some amount))
        (do markLimits; pure 0 : Exec (Process W) Int) := ends_mark 0
    exact h.wp_setLimitBranch hmem hnoReturn (ends_pure 1) hset
  | some cpu, false, none =>
    have hnone : Accepted none := fun _ hno => absurd hno (Option.not_mem_none _)
    have hcpu : Asked (some cpu) false none := ⟨.inl rfl, hnone, fun _ => rfl⟩
    have hset : Ends 0 (marksLimits (some cpu) none)
        (do markLimits; pure 0 : Exec (Process W) Int) := ends_mark 0
    exact h.wp_setLimitBranch hcpu hmissing (ends_pure 1) hset
  | some cpu, false, some (.standard bytes) =>
    simp only [Command.exec, setLimitCpu, Bool.false_eq_true, if_false, Exec.wp_ite, Exec.wp_pure]
    refine ⟨fun _ => .inl (h.failed _), fun hzero => ?_⟩
    have hset : Ends 0 (marksLimits (some cpu) (some (.standard bytes)))
        (do markLimits; pure 0 : Exec (Process W) Int) := ends_mark 0
    exact h.wp_setLimitBranch (hasked hzero) hmissing (ends_pure 1) hset
  | some cpu, false, some (.custom bytes) =>
    simp only [Command.exec, setLimitCpu, Bool.false_eq_true, if_false, Exec.wp_ite, Exec.wp_pure]
    refine ⟨fun _ => .inl (h.failed _), fun hzero => ?_⟩
    have hset : Ends 0 (marksLimits (some cpu) (some (.custom bytes)))
        (pure 0 : Exec (Process W) Int) := ends_pure 0
    exact h.wp_setLimitBranch (hasked hzero) hmissing (ends_mark 1) hset
  | some cpu, false, some (.extreme bytes) =>
    simp only [Command.exec, setLimitCpu, Bool.false_eq_true, if_false, Exec.wp_ite, Exec.wp_pure]
    refine ⟨fun _ => .inl (h.failed _), fun hzero => ?_⟩
    have hset : Ends 0 (marksLimits (some cpu) (some (.extreme bytes)))
        (pure 0 : Exec (Process W) Int) := ends_pure 0
    exact h.wp_setLimitBranch (hasked hzero) hmissing (ends_mark 1) hset

/-! ## Jobs -/

theorem Opened.withJobs (h : Opened fs d p) (w' : W) {t : Table Job} {jobs : List Job}
    (ht : t.items = jobs) : Due fs d { p with world := w', jobs := t } { d with jobs := jobs } :=
  ⟨h.due.state, h.stored, .inl h.services, ht, h.envs, h.due.limits⟩

theorem addJob_acts (jobName runnableFile : CStr) (timeInSeconds : BitVec 64) :
    Acts fs d (.addJob jobName runnableFile timeInSeconds) := by
  refine acts_of fun {W} sys p h => ?_
  obtain ⟨w, hp⟩ := h.loaded
  obtain ⟨-, -, hhonest⟩ := loadJobs_sound (Table.honest_alloc _) rfl hp.jobs
  have hkept : ∀ w', Ended fs d (.addJob jobName runnableFile timeInSeconds) 1
      { p with world := w' } := fun w' => ⟨d, .failed _, h.kept w' p.reformatLimits⟩
  simp only [Command.exec, Exec.wp_ite, Exec.wp_bind, Exec.wp_pure, wp_call]
  refine ⟨fun _ => h.failed _, fun hname => ⟨fun _ => h.failed _, fun hpath =>
    ⟨fun _ => hkept _, fun _ => ⟨fun _ => hkept _, fun htime => wp_failing_iff.mpr ?_⟩⟩⟩⟩
  generalize (sys.time (sys.fileExists runnableFile p.world).2) = now
  by_cases hclash : ∃ y ∈ p.jobs.items,
      jobClash y (newJob jobName runnableFile timeInSeconds now.1) = true
  · rw [wp_onJobs, createJob_of_clash hclash]
    exact ⟨fun _ => hkept _, fun hrc => absurd hrc (by simp)⟩
  · obtain ⟨t, ht, hitems⟩ := createJob_of_fresh hhonest hclash
    rw [h.jobs] at hitems hclash
    rw [wp_onJobs, ht]
    refine ⟨fun hrc => absurd rfl hrc, fun _ => ⟨_, .jobAdded _ _ _ now.1 ?_ ?_,
      h.withJobs now.2 hitems⟩⟩
    · exact ⟨by simpa using hname, by simpa using hpath, htime⟩
    · exact fun y hy hc => hclash ⟨y, hy, hc⟩

theorem removeJob_acts (jobName : CStr) : Acts fs d (.removeJob jobName) := by
  refine acts_of fun {W} sys p h => ?_
  obtain ⟨w, hp⟩ := h.loaded
  have hblock : p.jobs.isNull = false :=
    jobsFormat.parse_not_null (jobs_loads 0) rfl rfl hp.jobs
  refine wp_failing_iff.mpr (wp_onJobs.mpr ?_)
  constructor
  · intro hrc
    rw [removeJob_eq_self hrc]
    exact h.failed _
  · intro hrc
    refine ⟨_, .jobRemoved jobName ?_, h.withJobs p.world ?_⟩
    · rw [MiniRunner.removeJob, hblock] at hrc
      by_contra hno
      have hnone : p.jobs.removeFirst (·.name == jobName) = none := by
        rw [Table.removeFirst_eq_none, h.jobs]
        intro j hj
        simpa using fun hname => hno ⟨j, hj, hname⟩
      simp [hnone] at hrc
    · rw [removeJob_items, h.jobs]

/-! ## Env entries -/

theorem Opened.withEnvs (h : Opened fs d p) {t : Table Env} {envs : List Env}
    (ht : t.items = envs) : Due fs d { p with envs := t } { d with envs := envs } :=
  ⟨h.due.state, h.stored, .inl h.services, h.jobs, ht, h.due.limits⟩

theorem addEnv_acts (name key value : CStr) : Acts fs d (.addEnv name key value) := by
  refine acts_of fun {W} sys p h => ?_
  obtain ⟨w, hp⟩ := h.loaded
  obtain ⟨-, -, hblock⟩ := loadEnvs_sound hp.envs
  simp only [Command.exec, Exec.wp_ite, Exec.wp_pure]
  refine ⟨fun _ => h.failed _, fun hvalid => wp_failing_iff.mpr (wp_onEnvs.mpr ?_)⟩
  rw [MiniRunner.addEnv]
  cases hbound : p.envs.items.any (isEnv name key) with
  | true =>
    rw [h.envs] at hbound
    exact ⟨fun hrc => absurd rfl hrc, fun _ => ⟨d, .envBound _ _ _ hbound, h.due⟩⟩
  | false =>
    simp only [Bool.false_eq_true, if_false]
    by_cases hroom : p.envs.items.length < envLimit
    · obtain ⟨t, ht, -⟩ := hblock.append ⟨name, key, value⟩ hroom
      rw [ht]
      rw [h.envs] at hbound hroom
      have hvalid' : ValidEnv name key value :=
        not_not.mp fun hno => hvalid (ValidEnv.not_iff.mp hno)
      refine ⟨fun hrc => absurd rfl hrc, fun _ => ⟨_, .envAdded _ _ _ hvalid' hbound hroom,
        h.withEnvs ?_⟩⟩
      rw [Table.append_items ht, h.envs]
    · rw [hblock.append_full _ (by omega)]
      exact .inl rfl

theorem updateEnv_acts (name key value : CStr) : Acts fs d (.updateEnv name key value) := by
  refine acts_of fun {W} sys p h => ?_
  simp only [Command.exec, Exec.wp_ite, Exec.wp_pure]
  refine ⟨fun _ => h.failed _, fun hvalid => wp_failing_iff.mpr (wp_onEnvs.mpr ?_)⟩
  have hvalid' : ValidEnv name key value :=
    not_not.mp fun hno => hvalid (ValidEnv.not_iff.mp hno)
  have hitems := updateEnv_items name key value p.envs
  rw [MiniRunner.updateEnv, h.envs] at hitems ⊢
  cases hbound : d.envs.any (isEnv name key) with
  | true =>
    rw [hbound, if_pos rfl] at hitems
    exact ⟨fun hrc => absurd rfl hrc, fun _ => ⟨_, .envUpdated _ _ _ hvalid' hbound,
      h.withEnvs hitems⟩⟩
  | false => exact ⟨fun _ => h.failed _, fun hrc => absurd hrc (by simp)⟩

theorem removeEnv_acts (name key : CStr) : Acts fs d (.removeEnv name key) := by
  refine acts_of fun {W} sys p h => ?_
  refine wp_failing_iff.mpr (wp_onEnvs.mpr ?_)
  have hitems := removeEnv_items name key p.envs
  rw [MiniRunner.removeEnv] at hitems ⊢
  cases hfound : p.envs.removeFirst (isEnv name key) with
  | none => exact ⟨fun _ => h.failed _, fun hrc => absurd hrc (by simp)⟩
  | some removed =>
    rw [hfound, h.envs] at hitems
    refine ⟨fun hrc => absurd rfl hrc, fun _ => ⟨_, .envRemoved _ _ ?_, h.withEnvs hitems⟩⟩
    obtain ⟨hfind, -⟩ := Table.removeFirst_eq_some hfound
    rw [← h.envs]
    exact List.any_eq_true.mpr ⟨removed.1, List.mem_of_find?_eq_some hfind,
      List.find?_some hfind⟩

/-! ## Any command -/

/-- **Every command acts on the database** as its effect says. -/
theorem acts (hd : d.Savable) : ∀ cmd : Command, Acts fs d cmd
  | .add githubLink nickName => add_acts githubLink nickName
  | .remove serviceName => remove_acts hd serviceName
  | .run name bash attach => run_acts hd name bash attach
  | .stop names => stop_acts names
  | .restart name bash attach => restart_acts name bash attach
  | .rename oldName newName => rename_acts oldName newName
  | .setLimit name cpu declined mem => setLimit_acts name cpu declined mem
  | .addJob jobName runnableFile timeInSeconds => addJob_acts jobName runnableFile timeInSeconds
  | .removeJob jobName => removeJob_acts jobName
  | .addEnv name key value => addEnv_acts name key value
  | .updateEnv name key value => updateEnv_acts name key value
  | .removeEnv name key => removeEnv_acts name key

end MiniRunner.System
