import MiniRunner.Clib.Runs
import MiniRunner.Daemon

/-!
# The schedule of the daemon

Runs of `runJobsDaemon`, cycle after cycle, with the jobs file that each of them finds: other
processes may have written it in between, and a pass of the daemon can be followed by any
other. A cycle is kept with the `waitedTime` at its start, the file, whether its load
succeeded and the jobs that it started.

`wp_cycle_done` is what one cycle does, whatever the file holds, and `inv_turnStep` the step
lemma of a run. That a job is started once per interval is then a fact of the multiples of the
interval.
-/

namespace MiniRunner

open Clib

namespace Schedule

variable {W : Type}

/-! ## The system -/

/-- Calls that keep the jobs they are asked to start. -/
def noting (sys : DaemonCalls W) : DaemonCalls (W × List Job) where
  startJob j w := ((sys.startJob j w.1).1, (sys.startJob j w.1).2, w.2 ++ [j])

structure Cycle where
  /-- `waitedTime` at its start. -/
  number : Nat
  /-- The jobs file that it found. -/
  file : Bytes
  /-- Its load returned 0. -/
  ran : Bool
  started : List Job

/-- What a cycle finds: the files, and how often its save has to be repeated. -/
structure Turn where
  files : Files
  attempts : Nat

structure Past (W : Type) where
  daemon : Daemon (W × List Job)
  history : List Cycle

def Turn.file (t : Turn) : Bytes := t.files.content (.file .jobs)

/-- The daemon as a turn finds it, with nothing noted yet. -/
def Past.awake (s : Past W) (t : Turn) : Daemon (W × List Job) :=
  { s.daemon with files := t.files, world := (s.daemon.world.1, []) }

def turnStep (sys : DaemonCalls W) (numberOfJobs : Nat) (t : Turn) (s : Past W) :
    Option (Past W) :=
  match (Daemon.cycle (noting sys) numberOfJobs t.attempts).run (s.awake t) with
  | .ok ran d =>
    some ⟨d, s.history ++ [⟨s.daemon.waitedTime.toNat, t.file, ran, d.world.2⟩]⟩
  | .error _ _ => none

def start (w : W) : Past W := ⟨⟨fun _ => none, (w, []), initialJobs, 0⟩, []⟩

/-! ## The schedule -/

/-- What a jobs file loads as, if it does. -/
def loaded (file : Bytes) : List Job :=
  match loadJobs initialJobs file with
  | .ok t => t.items
  | .error _ => []

def numbered (history : List Cycle) : List Cycle := history.filter (·.ran)

/-- A job, by what no cycle changes: its name, its file and its interval. -/
abbrev Identity := CStr × CStr × BitVec 64

/-- The job is in the jobs file of the numbered cycles from `a` to `b`. -/
def Present (history : List Cycle) (job : Identity) (a b : Nat) : Prop :=
  ∀ i, a ≤ i → i ≤ b → ∃ c, (numbered history)[i]? = some c ∧
    job ∈ (loaded c.file).map Daemon.identity

def starts (history : List Cycle) (job : Identity) (i : Nat) : Nat :=
  ((numbered history)[i]?).elim 0 fun c => (c.started.map Daemon.identity).count job

/-- **Once per interval**: in the cycles from `a` to `b` the job is started at the multiples of
its interval, so that consecutive starts are an interval apart and there is exactly one in as
many consecutive cycles. -/
structure OncePerInterval (history : List Cycle) (job : Identity) (a b : Nat) : Prop where
  multiples : ∀ i, a ≤ i → i ≤ b → starts history job i = if job.2.2.toNat ∣ i then 1 else 0
  apart : ∀ i j, a ≤ i → i < j → j ≤ b → starts history job i = 1 → starts history job j = 1 →
    (∀ m, i < m → m < j → starts history job m = 0) → j = i + job.2.2.toNat
  unique : ∀ i, a ≤ i → i + job.2.2.toNat ≤ b + 1 →
    ∃! j, i ≤ j ∧ j < i + job.2.2.toNat ∧ starts history job j = 1

structure OnSchedule (history : List Cycle) : Prop where
  /-- The numbered cycles are those whose file loads. -/
  ran : ∀ c ∈ history, c.ran = true ↔ ∃ t, loadJobs initialJobs c.file = .ok t
  /-- A number is the count of the numbered cycles before: a failed load does not advance it. -/
  number : ∀ l c r, history = l ++ c :: r → c.number = (numbered l).length
  /-- Nor does it start a job. -/
  failed : ∀ c ∈ history, c.ran = false → c.started = []
  /-- No file loads with an interval 0. -/
  interval : ∀ file, ∀ j ∈ loaded file, j.secondsInterval ≠ 0
  schedule : ∀ job a b, a ≤ b → Present history job a b → OncePerInterval history job a b

/-! ## A cycle -/

section cycle

variable {sys : DaemonCalls W} {d : Daemon W}

/-- How a cycle ends: with the due jobs run and the counter raised, or as it was. -/
structure Done (sys : DaemonCalls W) (d : Daemon W) (ran : Bool) (d' : Daemon W) : Prop where
  fresh : Daemon.Fresh d'
  success : ran = true → ∃ t, loadJobs d.jobs (d.files.content (.file .jobs)) = .ok t ∧
    d'.world = (Daemon.runJobs sys d.waitedTime t.items d.world).2 ∧
    d'.waitedTime = d.waitedTime + 1
  failure : ran = false → (∀ t, loadJobs d.jobs (d.files.content (.file .jobs)) ≠ .ok t) ∧
    d'.world = d.world ∧ d'.waitedTime = d.waitedTime

theorem wp_save (numberOfJobs attempts : Nat) {Q : Unit → Daemon W → Prop}
    (hQ : ∀ files, Q () { d with files := files }) :
    Exec.wp (Daemon.save numberOfJobs attempts) Q (fun _ _ => True) d := by
  induction attempts generalizing d with
  | zero => exact (Exec.wp_throw _).mpr trivial
  | succ attempts ih =>
    simp only [Daemon.save, Exec.wp_bind, Exec.wp_get, Daemon.wp_onFiles]
    refine Exec.wp_mono Exec.wp_true (fun rc files _ => ?_) fun _ _ _ => trivial
    by_cases hrc : rc = 0
    · rw [if_neg (not_not.mpr hrc)]
      exact (Exec.wp_pure _).mpr (hQ files)
    · rw [if_pos hrc]
      exact ih hQ

theorem fresh_renewed {files : Files} {w : W} {waitedTime : BitVec 64} :
    Daemon.Fresh ⟨files, w, .blank 0 initialScaleSizeOfJobs, waitedTime⟩ :=
  ⟨rfl, by simp [Table.Honest, initialScaleSizeOfJobs], rfl⟩

theorem wp_load {Q : Int → Daemon W → Prop} (hQ : ∀ rc jobs files,
      loadJobsDaemon d.jobs (d.files.content (.file .jobs)) = .ok (rc, jobs) →
        Q rc { d with jobs := jobs, files := files }) :
    Exec.wp Daemon.load Q (fun _ _ => True) d := by
  simp only [Daemon.load, Exec.wp_bind, Daemon.wp_onFiles, wp_isJobFree]
  split
  · exact (Exec.wp_throw _).mpr trivial
  · simp only [Exec.wp_bind, Daemon.wp_onFiles, Exec.wp_modify, Exec.wp_get,
      FileStore.content_openCreate]
    cases hload : loadJobsDaemon d.jobs (d.files.content (.file .jobs)) with
    | error e => exact (Exec.wp_ofExcept_error _).mpr trivial
    | ok r =>
      simp only [Exec.wp_ofExcept_ok, Exec.wp_set, Exec.wp_pure]
      exact hQ r.1 r.2 _ hload

/-- **What a cycle does**, if it ends. -/
theorem wp_cycle_done (numberOfJobs attempts : Nat) :
    Exec.wp (Daemon.cycle sys numberOfJobs attempts) (Done sys d) (fun _ _ => True) d := by
  rw [Daemon.cycle, Exec.wp_bind]
  refine wp_load fun rc jobs files hload => ?_
  by_cases hrc : rc = 0
  · subst hrc
    rw [if_neg (by decide), Exec.wp_bind, Daemon.runDue, Exec.wp_modify, Exec.wp_bind]
    refine wp_save numberOfJobs (attempts + 1) fun files' => ?_
    simp only [Exec.wp_bind, Exec.wp_modify, Daemon.renewJobs, Exec.wp_pure]
    exact ⟨fresh_renewed, fun _ => ⟨jobs, loadJobsDaemon_eq_ok.mp hload, rfl, rfl⟩,
      fun h => Bool.noConfusion h⟩
  · rw [if_pos hrc]
    simp only [Exec.wp_bind, Daemon.renewJobs, Exec.wp_modify, Exec.wp_pure]
    refine ⟨fresh_renewed, fun h => Bool.noConfusion h, fun _ => ⟨fun t ht => ?_, rfl, rfl⟩⟩
    rw [loadJobsDaemon_eq_ok.mpr ht] at hload
    cases hload
    exact hrc rfl

theorem runJob_noting (waitedTime : BitVec 64) (j : Job) (w : W × List Job) :
    (Daemon.runJob (noting sys) waitedTime j w).2.2 =
      w.2 ++ [j].filter (Daemon.isDue waitedTime) := by
  unfold Daemon.runJob
  cases hdue : Daemon.isDue waitedTime j with
  | true =>
    rw [if_pos rfl, List.filter_singleton, hdue]
    simp only [noting]
    cases (sys.startJob j w.1).1 <;> rfl
  | false =>
    rw [if_neg Bool.false_ne_true, List.filter_singleton, hdue]
    exact (List.append_nil _).symm

theorem runJobs_noting (waitedTime : BitVec 64) (js : List Job) (w : W × List Job) :
    (Daemon.runJobs (noting sys) waitedTime js w).2.2 =
      w.2 ++ js.filter (Daemon.isDue waitedTime) := by
  induction js generalizing w with
  | nil => exact (List.append_nil _).symm
  | cons j js ih =>
    have hrest := ih (Daemon.runJob (noting sys) waitedTime j w).2
    rw [runJob_noting, List.append_assoc, ← List.filter_append] at hrest
    exact hrest

end cycle

/-! ## A run -/

section run

variable {sys : DaemonCalls W} {numberOfJobs : Nat} {s s' : Past W}

/-- A cycle that is right: it ran if its file loads, and started the jobs that are due. -/
structure CycleOk (c : Cycle) : Prop where
  ran : c.ran = true ↔ ∃ t, loadJobs initialJobs c.file = .ok t
  started : c.started = (loaded c.file).filter (Daemon.isDue (.ofNat 64 c.number))

/-- The counter counts the cycles that ran. -/
structure Inv (s : Past W) : Prop where
  fresh : Daemon.Fresh s.daemon
  counter : s.daemon.waitedTime = .ofNat 64 (numbered s.history).length
  cycles : ∀ c ∈ s.history, CycleOk c
  number : ∀ l c r, s.history = l ++ c :: r →
    c.number = (BitVec.ofNat 64 (numbered l).length).toNat

theorem inv_start (w : W) : Inv (start w) where
  fresh := ⟨rfl, Table.honest_alloc _, rfl⟩
  counter := rfl
  cycles := nofun
  number l c r h := by
    cases l <;> cases h

theorem loadJobs_of_fresh {d : Daemon W} (h : Daemon.Fresh d) {file : Bytes} {t : Table Job}
    (hload : loadJobs d.jobs file = .ok t) :
    (∃ u, loadJobs initialJobs file = .ok u) ∧ loaded file = t.items := by
  have hsame : SameJobs d.jobs initialJobs := ⟨h.items.symm, h.honest, Table.honest_alloc _⟩
  obtain ⟨u, hu, hitems⟩ := hsame.loadJobs hload
  refine ⟨⟨u, hu⟩, ?_⟩
  rw [loaded, hu]
  exact hitems.items

theorem loadJobs_fails_of_fresh {d : Daemon W} (h : Daemon.Fresh d) {file : Bytes}
    (hload : ∀ t, loadJobs d.jobs file ≠ .ok t) :
    (∀ u, loadJobs initialJobs file ≠ .ok u) ∧ loaded file = [] := by
  have hsame : SameJobs initialJobs d.jobs := ⟨h.items, Table.honest_alloc _, h.honest⟩
  have hfails : ∀ u, loadJobs initialJobs file ≠ .ok u := fun u hu => by
    obtain ⟨t, ht, -⟩ := hsame.loadJobs hu
    exact hload t ht
  refine ⟨hfails, ?_⟩
  rw [loaded]
  cases hu : loadJobs initialJobs file with
  | ok u => exact absurd hu (hfails u)
  | error e => rfl

theorem numbered_concat (l : List Cycle) (c : Cycle) :
    numbered (l ++ [c]) = if c.ran then numbered l ++ [c] else numbered l := by
  rw [numbered, List.filter_append, List.filter_singleton]
  cases c.ran
  · exact List.append_nil _
  · rfl

def Past.cycle (s : Past W) (t : Turn) (ran : Bool) (d : Daemon (W × List Job)) : Cycle :=
  ⟨s.daemon.waitedTime.toNat, t.file, ran, d.world.2⟩

theorem cycleOk_of_done (hfresh : Daemon.Fresh s.daemon) {t : Turn} {ran : Bool}
    {d : Daemon (W × List Job)} (h : Done (noting sys) (s.awake t) ran d) :
    CycleOk (s.cycle t ran d) := by
  have hawake : Daemon.Fresh (s.awake t) := ⟨hfresh.items, hfresh.honest, hfresh.block⟩
  have hnumber : BitVec.ofNat 64 s.daemon.waitedTime.toNat = s.daemon.waitedTime :=
    BitVec.eq_of_toNat_eq (by simp)
  cases ran with
  | true =>
    obtain ⟨tbl, hload, hworld, -⟩ := h.success rfl
    obtain ⟨hloads, hloaded⟩ := loadJobs_of_fresh hawake hload
    refine ⟨iff_of_true rfl hloads, ?_⟩
    show d.world.2 = (loaded t.file).filter (Daemon.isDue (.ofNat 64 s.daemon.waitedTime.toNat))
    rw [hnumber, hworld, runJobs_noting]
    exact (List.nil_append _).trans (congrArg _ hloaded.symm)
  | false =>
    obtain ⟨hload, hworld, -⟩ := h.failure rfl
    obtain ⟨hfails, hloaded⟩ := loadJobs_fails_of_fresh hawake hload
    refine ⟨iff_of_false nofun fun hu => hu.elim hfails, ?_⟩
    show d.world.2 = (loaded t.file).filter _
    rw [hworld, show loaded t.file = [] from hloaded]
    rfl

/-- **One turn.** -/
theorem inv_turnStep {t : Turn} (h : Inv s) (hstep : turnStep sys numberOfJobs t s = some s') :
    Inv s' := by
  rw [turnStep] at hstep
  cases hrun : (Daemon.cycle (noting sys) numberOfJobs t.attempts).run (s.awake t) with
  | error e d =>
    rw [hrun] at hstep
    cases hstep
  | ok ran d =>
    rw [hrun] at hstep
    cases hstep
    have hdone := Exec.wp_run_ok (wp_cycle_done numberOfJobs t.attempts) hrun
    refine ⟨hdone.fresh, ?_, fun c hc => ?_, fun l c r heq => ?_⟩
    · show d.waitedTime = .ofNat 64 (numbered (s.history ++ [s.cycle t ran d])).length
      rw [numbered_concat]
      cases ran with
      | true =>
        obtain ⟨-, -, -, hcount⟩ := hdone.success rfl
        rw [hcount, show (s.awake t).waitedTime = s.daemon.waitedTime from rfl, h.counter,
          show (s.cycle t true d).ran = true from rfl, if_pos rfl, List.length_append,
          BitVec.ofNat_add]
        rfl
      | false =>
        obtain ⟨-, -, hcount⟩ := hdone.failure rfl
        exact hcount.trans h.counter
    · rcases List.mem_append.mp hc with hold | hnew
      · exact h.cycles c hold
      · rw [List.mem_singleton.mp hnew]
        exact cycleOk_of_done h.fresh hdone
    · rcases List.eq_nil_or_concat r with rfl | ⟨r, c₀, rfl⟩
      · obtain ⟨hl, hc⟩ := List.append_inj' heq rfl
        cases hc
        rw [← hl, ← h.counter]
      · have hr : s.history = l ++ c :: r := by
          rw [List.concat_eq_append, ← List.cons_append, ← List.append_assoc] at heq
          exact (List.append_inj' heq rfl).1
        exact h.number l c r hr

/-- **A run keeps the count.** -/
theorem inv_runs {turns : List Turn} {w : W}
    (hrun : runs (turnStep sys numberOfJobs) turns (start w) = some s) : Inv s :=
  runs_inv (fun h hstep => inv_turnStep h hstep) (inv_start w) hrun

end run

/-! ## The multiples of an interval -/

section multiples

variable {k : Nat} {f : Nat → Nat} {a b : Nat}

theorem next_multiple (hk : 0 < k) (hf : ∀ i, a ≤ i → i ≤ b → f i = if k ∣ i then 1 else 0)
    {i j : Nat} (ha : a ≤ i) (hlt : i < j) (hb : j ≤ b) (hi : f i = 1) (hj : f j = 1)
    (hbetween : ∀ m, i < m → m < j → f m = 0) : j = i + k := by
  have hstart {m : Nat} (hm : a ≤ m) (hmb : m ≤ b) (h : f m = 1) : k ∣ m := by
    by_contra hno
    rw [hf m hm hmb, if_neg hno] at h
    cases h
  have hki := hstart ha (by omega) hi
  have hkj := hstart (by omega) hb hj
  have hle : i + k ≤ j := by
    have hpos : 0 < j - i := by omega
    have := Nat.le_of_dvd hpos (Nat.dvd_sub hkj hki)
    omega
  by_contra hne
  have hzero := hbetween (i + k) (by omega) (by omega)
  rw [hf (i + k) (by omega) (by omega), if_pos (Nat.dvd_add hki (Nat.dvd_refl k))] at hzero
  cases hzero

theorem unique_multiple (hk : 0 < k) (hf : ∀ i, a ≤ i → i ≤ b → f i = if k ∣ i then 1 else 0)
    {i : Nat} (ha : a ≤ i) (hb : i + k ≤ b + 1) : ∃! j, i ≤ j ∧ j < i + k ∧ f j = 1 := by
  have hmod := Nat.mod_lt (i + k - 1) hk
  have hdiv := Nat.div_add_mod (i + k - 1) k
  refine ⟨k * ((i + k - 1) / k), ⟨by omega, by omega, ?_⟩, ?_⟩
  · rw [hf _ (by omega) (by omega), if_pos (Nat.dvd_mul_right _ _)]
  · rintro j ⟨hij, hjk, hj⟩
    have hdvd : k ∣ j := by
      by_contra hno
      rw [hf j (by omega) (by omega), if_neg hno] at hj
      cases hj
    obtain ⟨q, rfl⟩ := hdvd
    have hlow : q * k ≤ i + k - 1 := by
      rw [Nat.mul_comm]
      omega
    have hhigh : i + k - 1 < (q + 1) * k := by
      rw [Nat.succ_mul, Nat.mul_comm]
      omega
    rw [Nat.div_eq_of_lt_le hlow hhigh]

end multiples

/-! ## The starts of a job -/

section starts

variable {history : List Cycle}

/-- The cycle of a number, with what came before. -/
theorem numbered_split {h : List Cycle} {i : Nat} {c : Cycle} (hi : (numbered h)[i]? = some c) :
    ∃ l r, h = l ++ c :: r ∧ (numbered l).length = i := by
  induction h generalizing i with
  | nil => cases hi
  | cons c₀ h ih =>
    cases hran : c₀.ran with
    | true =>
      rw [numbered, List.filter_cons_of_pos hran] at hi
      cases i with
      | zero =>
        cases hi
        exact ⟨[], h, rfl, rfl⟩
      | succ i =>
        obtain ⟨l, r, rfl, hl⟩ := ih hi
        refine ⟨c₀ :: l, r, rfl, ?_⟩
        rw [numbered, List.filter_cons_of_pos hran, List.length_cons]
        exact congrArg (· + 1) hl
    | false =>
      rw [numbered, List.filter_cons_of_neg (by simp [hran])] at hi
      obtain ⟨l, r, rfl, hl⟩ := ih hi
      refine ⟨c₀ :: l, r, rfl, ?_⟩
      rw [numbered, List.filter_cons_of_neg (by simp [hran])]
      exact hl

theorem loaded_ok (file : Bytes) :
    (∀ j ∈ loaded file, j.Ok) ∧ DistinctJobs (loaded file) := by
  rw [loaded]
  cases hload : loadJobs initialJobs file with
  | error e => exact ⟨nofun, List.Pairwise.nil⟩
  | ok t =>
    obtain ⟨hok, hdistinct, -⟩ := loadJobs_sound (Table.honest_alloc _) rfl hload
    exact ⟨hok, hdistinct⟩

theorem nodup_identity {l : List Job} (h : DistinctJobs l) : (l.map Daemon.identity).Nodup := by
  refine List.pairwise_map.mpr (List.Pairwise.imp (fun {x y} hclash heq => hclash ?_) h)
  have hname : x.name = y.name := congrArg Prod.fst heq
  simp [jobClash, hname]

theorem isDue_iff {i : Nat} (hi : i < 2 ^ 64) (j : Job) :
    Daemon.isDue (.ofNat 64 i) j = true ↔ j.secondsInterval.toNat ∣ i := by
  rw [Daemon.isDue, beq_iff_eq, ← BitVec.toNat_inj, BitVec.toNat_umod, BitVec.toNat_ofNat,
    Nat.mod_eq_of_lt hi]
  exact (Nat.dvd_iff_mod_eq_zero).symm

/-- The starts of a job that is loaded. -/
theorem count_started {i : Nat} (hi : i < 2 ^ 64) {l : List Job} (h : DistinctJobs l)
    {job : Identity} (hjob : job ∈ l.map Daemon.identity) :
    ((l.filter (Daemon.isDue (.ofNat 64 i))).map Daemon.identity).count job =
      if job.2.2.toNat ∣ i then 1 else 0 := by
  obtain ⟨j, hj, rfl⟩ := List.mem_map.mp hjob
  have hnodup := nodup_identity h
  have hinterval : (Daemon.identity j).2.2 = j.secondsInterval := rfl
  have hsub : ((l.filter (Daemon.isDue (.ofNat 64 i))).map Daemon.identity).Sublist
      (l.map Daemon.identity) := List.filter_sublist.map _
  have hmem : Daemon.identity j ∈ (l.filter (Daemon.isDue (.ofNat 64 i))).map Daemon.identity ↔
      j.secondsInterval.toNat ∣ i := by
    rw [List.mem_map]
    constructor
    · rintro ⟨j', hj', hsame⟩
      obtain ⟨-, hdue⟩ := List.mem_filter.mp hj'
      rw [isDue_iff hi] at hdue
      rwa [← show j'.secondsInterval = j.secondsInterval from congrArg (·.2.2) hsame]
    · exact fun hdvd => ⟨j, List.mem_filter.mpr ⟨hj, (isDue_iff hi j).mpr hdvd⟩, rfl⟩
  rw [hinterval]
  by_cases hdvd : j.secondsInterval.toNat ∣ i
  · rw [if_pos hdvd]
    exact List.count_eq_one_of_mem (hnodup.sublist hsub) (hmem.mpr hdvd)
  · rw [if_neg hdvd]
    exact List.count_eq_zero.mpr (mt hmem.mp hdvd)

/-- **The starts at a numbered cycle** whose file has the job. -/
theorem starts_eq {s : Past W} (h : Inv s) (hwrap : (numbered s.history).length < 2 ^ 64)
    {job : Identity} {i : Nat} {c : Cycle} (hi : (numbered s.history)[i]? = some c)
    (hjob : job ∈ (loaded c.file).map Daemon.identity) :
    starts s.history job i = if job.2.2.toNat ∣ i then 1 else 0 := by
  have hlt : i < 2 ^ 64 := Nat.lt_trans (List.getElem?_eq_some_iff.mp hi).1 hwrap
  obtain ⟨l, r, hsplit, hlen⟩ := numbered_split hi
  have hnumber : c.number = i := by
    rw [h.number l c r hsplit, hlen, BitVec.toNat_ofNat, Nat.mod_eq_of_lt hlt]
  have hstarted := (h.cycles c (hsplit ▸ List.mem_append_right l List.mem_cons_self)).started
  rw [hnumber] at hstarted
  rw [starts, hi, Option.elim_some, hstarted]
  exact count_started hlt (loaded_ok c.file).2 hjob

theorem interval_pos {file : Bytes} {job : Identity}
    (h : job ∈ (loaded file).map Daemon.identity) : 0 < job.2.2.toNat := by
  obtain ⟨j, hj, rfl⟩ := List.mem_map.mp h
  refine Nat.pos_of_ne_zero fun hzero => ((loaded_ok file).1 j hj).secondsInterval ?_
  exact BitVec.eq_of_toNat_eq hzero

theorem oncePerInterval {s : Past W} (h : Inv s) (hwrap : (numbered s.history).length < 2 ^ 64)
    {job : Identity} {a b : Nat} (hab : a ≤ b) (hpresent : Present s.history job a b) :
    OncePerInterval s.history job a b := by
  have hmultiples : ∀ i, a ≤ i → i ≤ b →
      starts s.history job i = if job.2.2.toNat ∣ i then 1 else 0 := fun i ha hb => by
    obtain ⟨c, hc, hjob⟩ := hpresent i ha hb
    exact starts_eq h hwrap hc hjob
  obtain ⟨c, -, hjob⟩ := hpresent a (Nat.le_refl a) hab
  have hpos := interval_pos hjob
  refine ⟨hmultiples, fun i j ha hlt hb hi hj hbetween => ?_, fun i ha hb => ?_⟩
  · exact next_multiple hpos hmultiples ha hlt hb hi hj hbetween
  · exact unique_multiple hpos hmultiples ha hb

end starts

/-- **The daemon keeps the schedule** in every run in which the counter does not wrap. -/
theorem onSchedule_of_runs {sys : DaemonCalls W} {numberOfJobs : Nat} {turns : List Turn} {w : W}
    {s : Past W} (hrun : runs (turnStep sys numberOfJobs) turns (start w) = some s)
    (hwrap : (numbered s.history).length < 2 ^ 64) : OnSchedule s.history := by
  have hinv := inv_runs hrun
  refine ⟨fun c hc => (hinv.cycles c hc).ran, fun l c r hsplit => ?_, fun c hc hran => ?_,
    fun file j hj => ((loaded_ok file).1 j hj).secondsInterval,
    fun job a b hab hpresent => oncePerInterval hinv hwrap hab hpresent⟩
  · have hle : (numbered l).length ≤ (numbered s.history).length := by
      rw [hsplit, numbered, numbered, List.filter_append, List.length_append]
      exact Nat.le_add_right _ _
    rw [hinv.number l c r hsplit, BitVec.toNat_ofNat,
      Nat.mod_eq_of_lt (Nat.lt_of_le_of_lt hle hwrap)]
  · have hfails := (hinv.cycles c hc).ran.not.mp (by simp [hran])
    have hnone : loaded c.file = [] := by
      rw [loaded]
      cases hload : loadJobs initialJobs c.file with
      | ok t => exact absurd ⟨t, hload⟩ hfails
      | error e => rfl
    rw [(hinv.cycles c hc).started, hnone, List.filter_nil]

def jobsTurn (jobs : List Job) : Turn :=
  ⟨FileStore.put (fun _ => none) (.file .jobs) (jobsText jobs), 0⟩

/-- A job with a directory, due in every second cycle. -/
def dirJob : Job := ⟨.ofBytes [98], .ofBytes [47, 100, 47, 98], 0, 2, 0⟩

/-- The second turn finds a name twice, so its load fails; the last one finds a job removed. -/
def fourTurns : List Turn :=
  [jobsTurn [Daemon.oneJob, dirJob], jobsTurn [dirJob, dirJob],
    jobsTurn [Daemon.oneJob, dirJob], jobsTurn [dirJob]]

theorem history_fourTurns :
    (runs (turnStep Daemon.idleCalls 1) fourTurns (start ())).map
        (·.history.map fun c => (c.number, c.ran, c.started)) =
      some [(0, true, [Daemon.oneJob, dirJob]), (1, false, []), (1, true, []),
        (2, true, [dirJob])] := by
  decide +kernel

theorem onSchedule_of_runs_fourTurns : ∃ s : Past Unit,
    runs (turnStep Daemon.idleCalls 1) fourTurns (start ()) = some s ∧
      s.history.map (fun c => (c.number, c.ran, c.started)) =
        [(0, true, [Daemon.oneJob, dirJob]), (1, false, []), (1, true, []),
          (2, true, [dirJob])] ∧
      OnSchedule s.history := by
  obtain ⟨s, hrun, hhistory⟩ := Option.map_eq_some_iff.mp history_fourTurns
  have hle : (numbered s.history).length ≤ s.history.length := List.length_filter_le _ _
  have hlength : s.history.length = 4 := by simpa using congrArg List.length hhistory
  exact ⟨s, hrun, hhistory, onSchedule_of_runs hrun (by omega)⟩

end Schedule

end MiniRunner
