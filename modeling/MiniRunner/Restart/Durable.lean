import MiniRunner.Restart.Conditions

/-!
# Whether a limit that was set is stored

A `set-limit` that returns 0 has recorded an entry, and the destructor writes the limits
only if they were marked for saving. Of the branches of `main` the ones for a cpu quota with
an amount of a larger type mark them after a failure and not after a success, so the file
stays as it was. What is written goes through a reader that saturates at 64 bits.
-/

namespace MiniRunner

open Clib Process

variable {W : Type} {fs : Files}

/-- Whether a success of `set-limit` marks the limits for saving. -/
def marksLimits : Option (BitVec 64) → Option Amount → Bool
  | some _, some (.custom _) | some _, some (.extreme _) => false
  | _, _ => true

/-- The entry that `set-limit` records. -/
def limitFor (serviceName : CStr) (cpu : Option (BitVec 64)) (mem : Option Amount) : Limit :=
  ⟨serviceName, cpu.getD 0, mem.elim 0 Amount.recorded⟩

/-- The cgroup write of `set-limit`. -/
def cgroupWrite (sys : Calls W) (serviceName : CStr) (cpu : Option (BitVec 64))
    (mem : Option Amount) (pid : BitVec 32) : W → Int × W :=
  match cpu, mem with
  | none, none => fun w => (0, w)
  | none, some amount => sys.limitMm serviceName pid amount
  | some cpu, none => sys.limitCpuAndMemory serviceName pid cpu false (.standard 0)
  | some cpu, some amount => sys.limitCpuAndMemory serviceName pid cpu true amount

/-- An amount of memory, if there is one, that `main` accepts. -/
def Accepted (mem : Option Amount) : Prop := ∀ amount ∈ mem, amount.isZero = false

/-- The limits file holds this entry and no other. -/
def HoldsOnly (l : Limit) (fs : Files) : Prop :=
  ∃ t, initLimits initialLimits (fs.content (.file .limits)) = .ok t ∧ t.items = [l]

/-- **Durability of a limit**: in every world, a process that sets a limit and returns 0
leaves it as the only entry of the limits file. It may wait for the jobs lock for ever, and
stops in no other way. -/
def SetLimitDurable (fs : Files) (serviceName : CStr) (cpu : Option (BitVec 64))
    (mem : Option Amount) : Prop :=
  ∀ (W : Type) (sys : Calls W) (w : W),
    Exec.wp (wholeProcess ((Command.setLimit serviceName cpu false mem).exec sys))
      (fun rc p => rc = 0 → HoldsOnly (limitFor serviceName cpu mem) p.files)
      (fun e _ => e = .blocked) (Process.start fs w)

section marks

variable {p : Process W} {Q : Int → Process W → Prop} {E : Halt → Process W → Prop}

/-- An end of a branch of `main` that leaves the limits marked if `b`, as `b` says. -/
def Ends (rc : Int) (b : Bool) (x : Exec (Process W) Int) : Prop :=
  ∀ {Q : Int → Process W → Prop} {E : Halt → Process W → Prop} {p : Process W},
    p.reformatLimits = false → (Exec.wp x Q E p ↔ Q rc { p with reformatLimits := b })

theorem ends_pure (rc : Int) : Ends rc false (pure rc : Exec (Process W) Int) := by
  intro Q E p hp
  rw [Exec.wp_pure, ← hp]

theorem ends_mark (rc : Int) : Ends rc true (do markLimits; pure rc : Exec (Process W) Int) := by
  intro Q E p _
  rw [Exec.wp_bind, wp_markLimits, Exec.wp_pure]

/-- A limit set by a branch of `main`, for a running service. -/
theorem wp_limitService_ends {serviceName : CStr} {s : Service}
    {write : BitVec 32 → W → Int × W} {cpu : BitVec 64} {memory : BitVec 128}
    {missing failed set : Exec (Process W) Int} {marks : Bool} (hflag : p.reformatLimits = false)
    (ht : LimitBlock p.limits) (hfind : p.services.items.find? (·.name == serviceName) = some s)
    (hpid : s.pid ≠ 0) (hfailed : Ends 1 (!marks) failed) (hset : Ends 0 marks set) :
    ∃ t, t.items = recordLimit serviceName cpu memory p.limits.items ∧
      ∀ {Q : Int → Process W → Prop} {E : Halt → Process W → Prop},
        Exec.wp (do
          if (← limitService serviceName write cpu memory missing) ≠ 0 then failed else set) Q E p ↔
          if (write s.pid p.world).1 ≠ 0 then
            Q 1 { p with world := (write s.pid p.world).2, reformatLimits := !marks }
          else Q 0 { p with
            world := (write s.pid p.world).2, limits := t, reformatLimits := marks } := by
  obtain ⟨t, hitems, hiff⟩ := wp_limitService serviceName write cpu memory missing ht
  refine ⟨t, hitems, fun {Q E} => ?_⟩
  simp only [Exec.wp_bind, hiff, hfind, if_neg hpid]
  split
  · rw [if_pos (by decide)]
    exact hfailed hflag
  · rw [if_neg (by decide)]
    exact hset hflag

end marks

/-- **What `set-limit` does** for a running service: a cgroup that cannot be written fails
it, else the entry is recorded. -/
theorem wp_setLimit {p : Process W} {w : W} (sys : Calls W) {serviceName : CStr}
    {cpu : Option (BitVec 64)} {mem : Option Amount} {s : Service} (hp : Loaded fs w p)
    (hfind : p.services.items.find? (·.name == serviceName) = some s) (hpid : s.pid ≠ 0)
    (hasked : cpu.isSome ∨ mem.isSome) (haccepted : Accepted mem) :
    ∃ t, t.items = recordLimit serviceName (limitFor serviceName cpu mem).cpu
        (limitFor serviceName cpu mem).memory p.limits.items ∧
      ∀ {Q : Int → Process W → Prop} {E : Halt → Process W → Prop},
        Exec.wp ((Command.setLimit serviceName cpu false mem).exec sys) Q E p ↔
          if (cgroupWrite sys serviceName cpu mem s.pid p.world).1 ≠ 0 then
            Q 1 { p with
              world := (cgroupWrite sys serviceName cpu mem s.pid p.world).2
              reformatLimits := !marksLimits cpu mem }
          else
            Q 0 { p with
              world := (cgroupWrite sys serviceName cpu mem s.pid p.world).2
              limits := t
              reformatLimits := marksLimits cpu mem } := by
  have hblock := (initLimits_sound hp.limits).2.2
  match cpu, mem with
  | none, none => simp at hasked
  | none, some amount =>
    have hzero : amount.isZero ≠ true := by simp [haccepted amount rfl]
    simp only [Command.exec, setLimitMem, if_neg hzero]
    exact wp_limitService_ends hp.reformatLimits hblock hfind hpid (ends_pure 1) (ends_mark 0)
  | some cpu, none =>
    exact wp_limitService_ends hp.reformatLimits hblock hfind hpid (ends_pure 1) (ends_mark 0)
  | some cpu, some (.standard bytes) =>
    have hzero : (Amount.standard bytes).isZero ≠ true := by simp [haccepted _ rfl]
    simp only [Command.exec, setLimitCpu, if_neg hzero, Bool.false_eq_true, if_false]
    exact wp_limitService_ends hp.reformatLimits hblock hfind hpid (ends_pure 1) (ends_mark 0)
  | some cpu, some (.custom bytes) =>
    have hzero : (Amount.custom bytes).isZero ≠ true := by simp [haccepted _ rfl]
    simp only [Command.exec, setLimitCpu, if_neg hzero, Bool.false_eq_true, if_false]
    exact wp_limitService_ends hp.reformatLimits hblock hfind hpid (ends_mark 1) (ends_pure 0)
  | some cpu, some (.extreme bytes) =>
    have hzero : (Amount.extreme bytes).isZero ≠ true := by simp [haccepted _ rfl]
    simp only [Command.exec, setLimitCpu, if_neg hzero, Bool.false_eq_true, if_false]
    exact wp_limitService_ends hp.reformatLimits hblock hfind hpid (ends_mark 1) (ends_pure 0)

/-! ## What the destructor leaves -/

/-- With one limit at most the destructor returns, or waits for the jobs lock. -/
theorem wp_closeProcess_limits {p : Process W} (hstate : p.reformatState = true)
    (hlen : p.limits.items.length ≤ 1) :
    Exec.wp closeProcess
      (fun _ p' => p'.files.content (.file .limits) = (if p.reformatLimits then
          limitsFormat.textAll p.limits.items else p.files.content (.file .limits)) ∧
        ¬(p.jobs.items ≠ [] ∧ ¬LockFree p.files))
      (fun e _ => e = .blocked ∧ p.jobs.items ≠ [] ∧ ¬LockFree p.files) p := by
  have hover : ¬p.Overfull := fun h => by
    have := h.2
    omega
  refine Exec.wp_mono (wp_closeProcess p) ?_ ?_
  · rintro _ p' ⟨-, hclosed⟩
    refine ⟨?_, fun hwaits => hwaits.2 (hclosed.unlocked hstate hwaits.1)⟩
    rw [hclosed.limits, savedLimits]
    simp only [hover, not_false_eq_true, and_true]
  · rintro e p' (⟨he, -, hwaits⟩ | ⟨-, hmany, -⟩)
    · exact ⟨he, hwaits⟩
    · exact absurd hmany hover

/-- The text of one limit is read back as it is below 2^63 bytes. -/
theorem holdsOnly_iff_of_text {l : Limit} (hl : l.Ok) {fs : Files}
    (h : fs.content (.file .limits) = limitsFormat.textAll [l]) :
    HoldsOnly l fs ↔ l.memory.toNat < 2 ^ 63 := by
  have hok : ∀ x ∈ [l], limitsFormat.Ok x := fun x hx => by
    rw [List.mem_singleton.mp hx]
    exact hl
  obtain ⟨t, ht, hitems, -⟩ := limitsFormat.parse_text limits_loads limitBlock_initialLimits rfl
    hok (List.pairwise_singleton ..) (by simp [limitLimit])
  have hload : initLimits initialLimits (fs.content (.file .limits)) = .ok t := by
    rw [h]
    exact ht
  rw [← Limit.readBack_eq_iff]
  constructor
  · rintro ⟨t', ht', hitems'⟩
    cases hload.symm.trans ht'
    exact List.head_eq_of_cons_eq (hitems.symm.trans hitems')
  · exact fun hback => ⟨t, hload, hitems.trans (congrArg (fun x => [x]) hback)⟩

theorem Stored.holdsOnly_iff (st : Stored fs) {l : Limit} {fs' : Files}
    (h : fs'.content (.file .limits) = fs.content (.file .limits)) :
    HoldsOnly l fs' ↔ st.limits.items = [l] := by
  unfold HoldsOnly
  rw [h]
  constructor
  · rintro ⟨t, ht, hitems⟩
    cases st.loadsLimits.symm.trans ht
    exact hitems
  · exact fun hitems => ⟨st.limits, st.loadsLimits, hitems⟩

/-- **When a set limit is stored**: it is marked and small enough to be read back, or it
was stored before. -/
def Stored.Keeps (st : Stored fs) (serviceName : CStr) (cpu : Option (BitVec 64))
    (mem : Option Amount) : Prop :=
  if marksLimits cpu mem then (limitFor serviceName cpu mem).memory.toNat < 2 ^ 63
  else st.limits.items = [limitFor serviceName cpu mem]

instance (st : Stored fs) (serviceName : CStr) (cpu : Option (BitVec 64)) (mem : Option Amount) :
    Decidable (st.Keeps serviceName cpu mem) :=
  inferInstanceAs (Decidable (if marksLimits cpu mem then _ < _ else _ = _))

section durable

variable (st : Stored fs) {serviceName : CStr} {cpu : Option (BitVec 64)} {mem : Option Amount}

theorem recordLimit_alone (cpu : BitVec 64) (memory : BitVec 128) {l : List Limit}
    (hd : DistinctLimits l) (hname : ∀ x ∈ l, x.name = serviceName) :
    recordLimit serviceName cpu memory l = [⟨serviceName, cpu, memory⟩] := by
  match l with
  | [] => rfl
  | [x] => simp [recordLimit, Table.updateFirst, hname x (by simp)]
  | x :: y :: l =>
    have hclash := (List.pairwise_cons.mp hd).1 y (by simp)
    exact absurd (by simp [limitClash, hname x (by simp), hname y (by simp)]) hclash

theorem cgroupWrite_allWell (pid : BitVec 32) :
    (cgroupWrite (.allWell 0) serviceName cpu mem pid ()).1 = 0 := by
  cases cpu <;> cases mem <;> rfl

theorem Loaded.waits_iff {w : W} {p : Process W} (hp : Loaded fs w p) :
    st.Waits ↔ p.jobs.items ≠ [] ∧ ¬LockFree p.files := by
  rw [Stored.Waits, hp.eq_jobs st, LockFree.congr (hp.files (.file .jobsSync) (by decide))]

/-- The destructor after a success. -/
theorem wp_closeProcess_set {w : W} {p : Process W} {t : Table Limit} (hp : Loaded fs w p)
    (hname : (limitFor serviceName cpu mem).Ok) (ht : t.items = [limitFor serviceName cpu mem])
    (w' : W) :
    Exec.wp closeProcess
      (fun _ p' => (HoldsOnly (limitFor serviceName cpu mem) p'.files ↔
        st.Keeps serviceName cpu mem) ∧ ¬st.Waits)
      (fun e _ => e = .blocked ∧ st.Waits)
      { p with world := w', limits := t, reformatLimits := marksLimits cpu mem } := by
  refine Exec.wp_mono (wp_closeProcess_limits hp.reformatState (by simp [ht])) ?_ ?_
  · rintro _ p' ⟨htext, hwaits⟩
    refine ⟨?_, fun h => hwaits ((hp.waits_iff st).mp h)⟩
    unfold Stored.Keeps
    split
    · rename_i hmarks
      exact holdsOnly_iff_of_text hname (htext.trans ((if_pos hmarks).trans (by rw [ht])))
    · rename_i hmarks
      refine st.holdsOnly_iff (htext.trans ((if_neg hmarks).trans ?_))
      exact hp.files (.file .limits) (by decide)
  · rintro e p' ⟨he, hwaits⟩
    exact ⟨he, (hp.waits_iff st).mpr hwaits⟩

/-- **When a set limit is durable.** -/
theorem setLimit_durable_iff
    (hrunning : ∃ s, st.services.items.find? (·.name == serviceName) = some s ∧ s.pid ≠ 0)
    (hother : ∀ l ∈ st.limits.items, l.name = serviceName)
    (hasked : cpu.isSome ∨ mem.isSome) (haccepted : Accepted mem) :
    SetLimitDurable fs serviceName cpu mem ↔ st.Waits ∨ st.Keeps serviceName cpu mem := by
  obtain ⟨s, hfind, hpid⟩ := hrunning
  have hok : (limitFor serviceName cpu mem).Ok := by
    have hname : s.name = serviceName := by simpa using List.find?_some hfind
    exact ⟨hname ▸ ((loadServices_sound st.loadsServices).1 s
      (List.mem_of_find?_eq_some hfind)).name⟩
  obtain ⟨-, hdistinct, -⟩ := initLimits_sound st.loadsLimits
  have halone := recordLimit_alone (limitFor serviceName cpu mem).cpu
    (limitFor serviceName cpu mem).memory hdistinct hother
  constructor
  · intro hdurable
    refine or_iff_not_imp_left.mpr fun hwaits => ?_
    have hwhole := hdurable Unit (.allWell 0) ()
    simp only [wholeProcess, Exec.wp_bind, Exec.wp_pure] at hwhole
    have hinit : Exec.wp init (fun _ p => Loaded fs () p) (fun _ _ => False)
        (Process.start fs ()) :=
      Exec.wp_mono (wp_init fs ()) (fun _ _ hp => hp) fun _ _ hno => hno st.loads
    obtain ⟨_, p, hbody, hp⟩ := Exec.exists_of_wp hwhole hinit
    obtain ⟨t, ht, hiff⟩ := wp_setLimit (.allWell 0) hp (by rw [hp.eq_services st]; exact hfind)
      hpid hasked haccepted
    rw [hiff, cgroupWrite_allWell, if_neg (by simp)] at hbody
    rw [hp.eq_limits st, halone] at ht
    have hclose := Exec.wp_mono (wp_closeProcess_set st hp hok ht
      (cgroupWrite (.allWell 0) serviceName cpu mem s.pid p.world).2) (fun _ _ h => h)
      fun _ _ h => hwaits h.2
    obtain ⟨_, p', hholds, hkeeps, -⟩ := Exec.exists_of_wp hbody hclose
    exact hkeeps.mp (hholds rfl)
  · intro h W sys w
    simp only [wholeProcess, Exec.wp_bind, Exec.wp_pure]
    refine Exec.wp_mono (wp_init fs w) (fun _ p hp => ?_) fun _ _ hno => absurd st.loads hno
    obtain ⟨t, ht, hiff⟩ := wp_setLimit sys hp (by rw [hp.eq_services st]; exact hfind) hpid
      hasked haccepted
    rw [hp.eq_limits st, halone] at ht
    rw [hiff]
    split
    · -- the cgroup was not written, and 1 is returned
      have hlen : p.limits.items.length ≤ 1 := by
        have hlen := congrArg List.length halone
        rw [length_recordLimit, List.length_singleton] at hlen
        rw [hp.eq_limits st]
        split at hlen
        · exact hlen.le
        · omega
      refine Exec.wp_mono (wp_closeProcess_limits hp.reformatState hlen) ?_ fun _ _ h => h.1
      exact fun _ _ _ h1 => absurd h1 (by decide)
    · refine Exec.wp_mono (wp_closeProcess_set st hp hok ht _) ?_ fun _ _ h => h.1
      exact fun _ _ hclosed _ => hclosed.1.mpr (h.resolve_left hclosed.2)

end durable

/-- The projects file `a^r#5`. -/
def oneService : Files := FileStore.put (fun _ => none) (.file .projects) [97, 94, 114, 35, 53, 10]

def oneStored : Stored oneService where
  services := ⟨[⟨.ofBytes [114], .ofBytes [97], 5, true⟩], 4, 4, by decide⟩
  jobs := initialJobs
  envs := initialEnvs
  limits := initialLimits
  loadsServices := by rfl
  loadsJobs := by rfl
  loadsEnvs := by rfl
  loadsLimits := by rfl

theorem oneStored_running :
    ∃ s, oneStored.services.items.find? (·.name == .ofBytes [97]) = some s ∧ s.pid ≠ 0 :=
  ⟨⟨.ofBytes [114], .ofBytes [97], 5, true⟩, by decide⟩

theorem accepted_4096 : Accepted (some (.custom 4096)) := by
  intro amount h
  cases h
  rfl

theorem setLimit_durable_oneCore :
    SetLimitDurable oneService (.ofBytes [97]) (some 100000) (some (.custom 4096)) ↔
      oneStored.Waits ∨ oneStored.Keeps (.ofBytes [97]) (some 100000) (some (.custom 4096)) :=
  setLimit_durable_iff oneStored oneStored_running (by decide) (.inl rfl) accepted_4096

/-- One core and 4096 bytes of the custom type: 0 is returned, and the limits file is empty. -/
theorem not_setLimit_durable :
    ¬∀ (fs : Files) (st : Stored fs) (serviceName : CStr) (cpu : Option (BitVec 64))
      (mem : Option Amount),
      (∃ s, st.services.items.find? (·.name == serviceName) = some s ∧ s.pid ≠ 0) →
      (∀ l ∈ st.limits.items, l.name = serviceName) → (cpu.isSome ∨ mem.isSome) → Accepted mem →
        SetLimitDurable fs serviceName cpu mem := by
  intro h
  have hdurable := h oneService oneStored (.ofBytes [97]) (some 100000) (some (.custom 4096))
    oneStored_running (by decide) (.inl rfl) accepted_4096
  have hrun : Completes ((Command.setLimit (.ofBytes [97]) (some 100000) false
      (some (.custom 4096))).exec (.allWell 0)) oneService (filesAfter ((Command.setLimit
      (.ofBytes [97]) (some 100000) false (some (.custom 4096))).exec (.allWell 0)) oneService) :=
    completes_of_succeeds (by decide +kernel)
  have hempty : (filesAfter ((Command.setLimit (.ofBytes [97]) (some 100000) false
      (some (.custom 4096))).exec (.allWell 0)) oneService).content (.file .limits) = [] := by
    decide +kernel
  obtain ⟨w, p, hp, hfiles⟩ := hrun
  obtain ⟨t, ht, hitems⟩ := Exec.wp_run_ok (hdurable Unit (.allWell 0) w) hp rfl
  rw [hfiles, hempty] at ht
  cases ht
  cases hitems

end MiniRunner
