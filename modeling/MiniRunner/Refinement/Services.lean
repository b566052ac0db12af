import MiniRunner.Main

/-!
# The persisted services are an ordered table

A session is one process that works on the services: load the file, run `add`,
`remove` or `stop`, save. What the abstract table does is decided by the table, the
operands and the answers of the calls (`Op.spec`): an accepted `add` of a fresh name and
repo appends when the clone is done, a `remove` strikes when the folder is gone, a `stop`
clears a pid when the process is dead and the cgroup was updated. `Op.spec` also says what
each process has to report. The world answers as it likes throughout (`sys` and `w`).

In memory a failed clone leaves an uncloned entry at the end of the table;
`savedText_uncloned` is why the file never shows it.
-/

namespace MiniRunner.Services

open Clib MiniRunner Process

variable {W : Type}

inductive Op where
  | add (githubLink nickName : CStr)
  | remove (serviceName : CStr)
  | stop (names : List CStr)
  deriving DecidableEq

/-- How a process ends: the return codes of its calls, or a halt. -/
abbrev Outcome := Except Halt (List Int)

/-- Stop every service named, with the return codes. -/
def stopEach (sys : Calls W) : List CStr → Exec (Process W) (List Int)
  | [] => pure []
  | name :: names => do
    let rc ← stopService sys name
    let rcs ← stopEach sys names
    pure (rc :: rcs)

/-- The abstract stop: a name that can be stopped loses its pid. The world goes from one
name to the next. -/
def clearPids (sys : Calls W) : List CStr → W → List Service → List Int × List Service
  | [], _, l => ([], l)
  | name :: names, w, l =>
    match stopAnswer sys name l w with
    | (true, w) =>
      let rest := clearPids sys names w
        (Table.updateFirst (·.name == name) (fun s => { s with pid := 0 }) l)
      (0 :: rest.1, rest.2)
    | (false, w) =>
      let rest := clearPids sys names w l
      (-1 :: rest.1, rest.2)

namespace Op

/-- The branch of `main`, validators included, with the return code of each call. -/
def exec (sys : Calls W) : Op → Exec (Process W) (List Int)
  | add githubLink nickName =>
    if isValidName nickName ≠ 0 then pure [1]
    else if isValidGithubRepo githubLink ≠ 0 then pure [1]
    else do
      let rc ← addProject sys githubLink nickName
      pure [rc]
  | remove serviceName => do
    let rc ← normalDeleteServices sys serviceName
    pure [rc]
  | stop names => stopEach sys names

/-- **The abstract operation** on a table, and what it reports, in a world that answers its
calls from `w` on. -/
def spec (sys : Calls W) (w : W) (l : List Service) : Op → Outcome × List Service
  | add githubLink nickName =>
    if isValidName nickName ≠ 0 ∨ isValidGithubRepo githubLink ≠ 0 then (.ok [1], l)
    else if Fresh githubLink nickName l then
      match (sys.clone githubLink nickName w).1 with
      | .done => (.ok [0], l ++ [addedService githubLink nickName true])
      | .failed => (.ok [-1], l)
      | .gaveUp => (.error .aborted, l)
    else (.ok [-1], l)
  | remove serviceName =>
    if (l.find? (·.name == serviceName)).isSome ∧ folderDeleted sys serviceName w = true then
      (.ok [0], Ledger.strike (·.name == serviceName) l)
    else (.ok [-1], l)
  | stop names => (.ok (clearPids sys names w l).1, (clearPids sys names w l).2)

end Op

/-- One process: load, run the command, save at exit. -/
def session (sys : Calls W) (op : Op) : Exec (Process W) (List Int) := do
  let services ← Exec.ofExcept (loadServices initialServices (← readStore .projects))
  modify fun p => { p with services := services }
  let rcs ← op.exec sys
  let p ← get
  if (← onFiles (saveServices p.services)) ≠ 0 then throw .aborted else pure rcs

/-- A process of a run: its command, the world it was started in, and how it ended. -/
structure Session (W : Type) where
  op : Op
  world : W
  outcome : Outcome

/-- What a sequence of processes leaves: the processes, the files, the world. -/
structure Run (W : Type) where
  log : List (Session W)
  files : Files
  world : W

/-- A process of its own, with some table of limits; the next one finds its files. -/
def runSession (sys : Calls W) (r : Run W) (o : Op × Table Limit) : Run W :=
  match (session sys o.1).run { Process.start r.files r.world with limits := o.2 } with
  | .ok rcs p => ⟨r.log ++ [⟨o.1, r.world, .ok rcs⟩], p.files, p.world⟩
  | .error e p => ⟨r.log ++ [⟨o.1, r.world, .error e⟩], p.files, p.world⟩

def sessions (sys : Calls W) (ops : List (Op × Table Limit)) (fs : Files) (w : W) : Run W :=
  ops.foldl (runSession sys) ⟨[], fs, w⟩

/-- The abstract table after a log: the fold of the abstract operations. -/
def replay (sys : Calls W) (log : List (Session W)) : List Service :=
  log.foldl (fun l e => (e.op.spec sys e.world l).2) []

/-! ## The invariant -/

/-- An entry that `add` can have made, whatever its pid. -/
structure Entry (s : Service) : Prop where
  ok : s.Ok
  name : s.name.len ≤ 20
  githubRepo : s.githubRepo.len ≤ 100

/-- The projects file holds the table `l`. -/
structure Holds (fs : Files) (l : List Service) : Prop where
  file : fs.content (.file .projects) = servicesText l
  entry : ∀ s ∈ l, Entry s
  distinct : DistinctServices l

theorem Entry.fits {s : Service} (h : Entry s) : s.Fits := by
  have := h.name
  have := h.githubRepo
  simp only [Service.Fits, singleDataSize]
  omega

theorem Entry.folderFits {s : Service} (h : Entry s) : FolderFits s.name := by
  have := h.name
  simp only [FolderFits]
  omega

theorem filter_cloned {l : List Service} (h : ∀ s ∈ l, Entry s) : l.filter (·.cloned) = l :=
  List.filter_eq_self.mpr fun s hs => (h s hs).ok.cloned

theorem Holds.load {fs : Files} {l : List Service} (h : Holds fs l) :
    ∃ t, loadServices initialServices (fs.content (.file .projects)) = .ok t ∧ t.items = l ∧
      t.Honest := by
  obtain ⟨t, hload, hitems⟩ := loadServices_servicesText (fun s hs _ => (h.entry s hs).ok)
    (fun s hs _ => (h.entry s hs).fits) (by simpa [filter_cloned h.entry] using h.distinct)
  rw [filter_cloned h.entry] at hitems
  rw [h.file]
  exact ⟨t, hload, hitems, (loadServices_sound hload).2.2⟩

/-! ## Saving -/

theorem wp_save {t : Table Service} (hentry : ∀ s ∈ t.items, Entry s)
    (hd : DistinctServices t.items) (E : Halt → Files → Prop) (fs : Files) :
    Exec.wp (saveServices t) (fun rc fs' => rc = 0 ∧ Holds fs' t.items) E fs := by
  refine Exec.wp_mono (wp_saveServices t E fs) ?_ fun _ _ h => h
  rintro rc fs' ⟨rfl, hfile, _⟩
  refine ⟨rfl, ?_, hentry, hd⟩
  exact hfile.trans (savedProjects_of_cloned (fun s hs => (hentry s hs).ok.cloned) fs)

theorem savedText_uncloned (l : List Service) (githubRepo nickName : CStr) :
    servicesText (l ++ [addedService githubRepo nickName false]) = servicesText l := by
  simp [servicesText, addedService]

theorem wp_save_uncloned {t : Table Service} {l : List Service} {githubRepo nickName : CStr}
    (hitems : t.items = l ++ [addedService githubRepo nickName false]) (E : Halt → Files → Prop)
    {fs : Files} (h : Holds fs l) :
    Exec.wp (saveServices t) (fun rc fs' => rc = 0 ∧ Holds fs' l) E fs := by
  refine Exec.wp_mono (wp_saveServices t E fs) ?_ fun _ _ h => h
  rintro rc fs' ⟨rfl, hfile, _⟩
  refine ⟨rfl, ?_, h.entry, h.distinct⟩
  rw [hfile]
  split
  · exact h.file
  · rw [hitems, savedText_uncloned]

/-! ## What the operations keep -/

theorem clearPid_keeps {name : CStr} {l : List Service} (hentry : ∀ s ∈ l, Entry s)
    (hd : DistinctServices l) :
    (∀ s ∈ Table.updateFirst (·.name == name) (fun s => { s with pid := 0 }) l, Entry s) ∧
      DistinctServices (Table.updateFirst (·.name == name) (fun s => { s with pid := 0 }) l) := by
  constructor
  · refine Table.forall_updateFirst (fun s _ hs => ?_) hentry
    exact ⟨⟨hs.ok.name, hs.ok.githubRepo, hs.ok.cloned⟩, hs.name, hs.githubRepo⟩
  · refine Ledger.distinct_of_map_eq (k := fun s : Service => (s.githubRepo, s.name))
      (r := fun a b => (a.1 == b.1 || a.2 == b.2) = true) (fun _ _ => Iff.rfl) hd ?_
    exact Table.map_updateFirst (f := fun s : Service => { s with pid := 0 }) (fun _ _ => rfl) l

theorem distinct_added {githubRepo nickName : CStr} {l : List Service} (hd : DistinctServices l)
    (hfresh : Fresh githubRepo nickName l) :
    DistinctServices (l ++ [addedService githubRepo nickName true]) :=
  Ledger.distinct_append_singleton.mpr ⟨hd, fun y hy => by simp [hfresh y hy]⟩

theorem entry_added {githubLink nickName : CStr} (hname : isValidName nickName = 0)
    (hrepo : isValidGithubRepo githubLink = 0) : Entry (addedService githubLink nickName true) := by
  obtain ⟨_, hnlen, hncaret, _⟩ := checkService_eq_zero.mp hname
  obtain ⟨_, hrlen, _, hrhash⟩ := checkService_eq_zero.mp hrepo
  exact ⟨⟨hncaret, hrhash, rfl⟩, hnlen, hrlen⟩

/-! ## One session -/

/-- What running an operation leaves in memory, for a table loaded from the file:
the abstract table, perhaps with a half-added entry behind it. -/
def Leaves (sys : Calls W) (op : Op) (p : Process W) (rcs : List Int) (p' : Process W) : Prop :=
  (op.spec sys p.world p.services.items).1 = .ok rcs ∧ p'.files = p.files ∧
    (∀ s ∈ (op.spec sys p.world p.services.items).2, Entry s) ∧
    DistinctServices (op.spec sys p.world p.services.items).2 ∧
    (p'.services.items = (op.spec sys p.world p.services.items).2 ∨
      (op.spec sys p.world p.services.items).2 = p.services.items ∧ ∃ githubRepo nickName,
        p'.services.items = p.services.items ++ [addedService githubRepo nickName false])

/-- How running an operation stops early: as it has to, with the table as it was. -/
def Stops (sys : Calls W) (op : Op) (p : Process W) (e : Halt) (p' : Process W) : Prop :=
  op.spec sys p.world p.services.items = (.error e, p.services.items) ∧ p'.files = p.files

theorem wp_stopEach (sys : Calls W) (names : List CStr) :
    ∀ {p : Process W}, (∀ s ∈ p.services.items, Entry s) → DistinctServices p.services.items →
      Exec.wp (stopEach sys names)
        (fun rcs p' => p'.files = p.files ∧
          clearPids sys names p.world p.services.items = (rcs, p'.services.items) ∧
          (∀ s ∈ p'.services.items, Entry s) ∧ DistinctServices p'.services.items)
        (fun _ _ => False) p := by
  induction names with
  | nil =>
    intro p hentry hd
    exact (Exec.wp_pure _).mpr ⟨rfl, rfl, hentry, hd⟩
  | cons name names ih =>
    intro p hentry hd
    simp only [stopEach, Exec.wp_bind, Exec.wp_pure]
    refine Exec.wp_mono (wp_stopService name) ?_ fun _ _ h => h
    rintro rc p₁ (⟨t, w, hitems, hanswer⟩ | ⟨w, hanswer⟩)
    · obtain ⟨hentry₁, hd₁⟩ := @clearPid_keeps name p.services.items hentry hd
      rw [← hitems] at hentry₁ hd₁
      have hrest := ih (p := { p with services := t, world := w }) hentry₁ hd₁
      refine Exec.wp_mono hrest ?_ fun _ _ h => h
      rintro rcs p₂ ⟨hfiles, hpids, h⟩
      refine ⟨hfiles, ?_, h⟩
      rw [clearPids, hanswer]
      simp only [← hitems, hpids]
    · have hrest := ih (p := { p with world := w }) hentry hd
      refine Exec.wp_mono hrest ?_ fun _ _ h => h
      rintro rcs p₂ ⟨hfiles, hpids, h⟩
      refine ⟨hfiles, ?_, h⟩
      rw [clearPids, hanswer]
      simp only [hpids]

theorem wp_add (sys : Calls W) (githubLink nickName : CStr) {p : Process W}
    (hentry : ∀ s ∈ p.services.items, Entry s) (hd : DistinctServices p.services.items)
    (hhonest : p.services.Honest) :
    Exec.wp ((Op.add githubLink nickName).exec sys) (Leaves sys (.add githubLink nickName) p)
      (Stops sys (.add githubLink nickName) p) p := by
  -- refused by a validator: nothing is called
  have hrefused (h : isValidName nickName ≠ 0 ∨ isValidGithubRepo githubLink ≠ 0) :
      Leaves sys (.add githubLink nickName) p [1] p := by
    simp only [Leaves, Op.spec, if_pos h]
    exact ⟨trivial, trivial, hentry, hd, .inl trivial⟩
  simp only [Op.exec, Exec.wp_ite, Exec.wp_pure, Exec.wp_bind]
  refine ⟨fun hname => hrefused (.inl hname), fun hname =>
    ⟨fun hrepo => hrefused (.inr hrepo), fun hrepo => ?_⟩⟩
  have haccepted : ¬(isValidName nickName ≠ 0 ∨ isValidGithubRepo githubLink ≠ 0) :=
    not_or.mpr ⟨hname, hrepo⟩
  refine Exec.wp_mono (wp_addProject githubLink nickName hhonest) ?_ ?_
  · rintro rc p' ⟨t, w, l, rfl, hitems, hadded⟩
    have hx := entry_added (not_not.mp hname) (not_not.mp hrepo)
    generalize hclone : (sys.clone githubLink nickName p.world).1 = c at hadded
    cases hadded with
    | done hfresh =>
      simp only [Leaves, Op.spec, if_neg haccepted, if_pos hfresh, hclone]
      refine ⟨trivial, trivial, List.forall_mem_append.mpr
        ⟨hentry, List.forall_mem_singleton.mpr hx⟩, distinct_added hd hfresh, .inl hitems⟩
    | uncloned hfresh =>
      simp only [Leaves, Op.spec, if_neg haccepted, if_pos hfresh, hclone]
      exact ⟨trivial, trivial, hentry, hd, .inr ⟨trivial, _, _, hitems⟩⟩
    | clash _ hclash =>
      simp only [Leaves, Op.spec, if_neg haccepted, if_neg hclash]
      exact ⟨trivial, trivial, hentry, hd, .inl hitems⟩
  · rintro e p' ⟨rfl, hfiles, hfresh, hgaveUp⟩
    simp only [Stops, Op.spec, if_neg haccepted, if_pos hfresh, hgaveUp]
    exact ⟨trivial, hfiles⟩

theorem wp_remove (sys : Calls W) (serviceName : CStr) {p : Process W}
    (hentry : ∀ s ∈ p.services.items, Entry s) (hd : DistinctServices p.services.items) :
    Exec.wp ((Op.remove serviceName).exec sys) (Leaves sys (.remove serviceName) p)
      (fun _ _ => False) p := by
  simp only [Op.exec, Exec.wp_pure, Exec.wp_bind]
  refine Exec.wp_mono (wp_normalDeleteServices serviceName ?_) ?_ fun _ _ h => h
  · intro hfound
    obtain ⟨s, hfind⟩ := Option.isSome_iff_exists.mp hfound
    have hname : s.name = serviceName := by simpa using List.find?_some hfind
    exact hname ▸ (hentry s (List.mem_of_find?_eq_some hfind)).folderFits
  · rintro rc p' (⟨t, lim, w, hitems, _, hgone⟩ | ⟨w, hkept⟩)
    · have hspec : (Op.remove serviceName).spec sys p.world p.services.items =
          (.ok [0], Ledger.strike (·.name == serviceName) p.services.items) := if_pos hgone
      rw [Leaves, hspec]
      exact ⟨rfl, rfl, Ledger.forall_strike hentry, Ledger.distinct_strike hd, .inl hitems⟩
    · have hspec : (Op.remove serviceName).spec sys p.world p.services.items =
          (.ok [-1], p.services.items) := if_neg hkept
      rw [Leaves, hspec]
      exact ⟨rfl, rfl, hentry, hd, .inl rfl⟩

theorem wp_exec (sys : Calls W) (op : Op) {p : Process W} (hentry : ∀ s ∈ p.services.items, Entry s)
    (hd : DistinctServices p.services.items) (hhonest : p.services.Honest) :
    Exec.wp (op.exec sys) (Leaves sys op p) (Stops sys op p) p := by
  cases op with
  | add githubLink nickName => exact wp_add sys githubLink nickName hentry hd hhonest
  | remove serviceName =>
    exact Exec.wp_mono (wp_remove sys serviceName hentry hd) (fun _ _ h => h) fun _ _ h => h.elim
  | stop names =>
    refine Exec.wp_mono (wp_stopEach sys names hentry hd) ?_ fun _ _ h => h.elim
    rintro rcs p' ⟨hfiles, hpids, hentry', hd'⟩
    simp only [Leaves, Op.spec, hpids]
    exact ⟨trivial, hfiles, hentry', hd', .inl trivial⟩

/-- **One session** refines its operation, and reports what it has to. -/
theorem session_step (sys : Calls W) (op : Op) {p : Process W} {l : List Service}
    (h : Holds p.files l) :
    Exec.wp (session sys op)
      (fun rcs p' => (op.spec sys p.world l).1 = .ok rcs ∧ Holds p'.files (op.spec sys p.world l).2)
      (fun e p' => (op.spec sys p.world l).1 = .error e ∧ Holds p'.files (op.spec sys p.world l).2)
      p := by
  obtain ⟨t, hload, hitems, hhonest⟩ := h.load
  simp only [session, readStore, Exec.wp_bind, wp_onFiles, Exec.wp_modify, Exec.wp_get,
    Exec.wp_pure, FileStore.content_openCreate, hload, Exec.wp_ofExcept_ok]
  have hopen : Holds (p.files.openCreate (.file .projects)) l :=
    ⟨by simpa using h.file, h.entry, h.distinct⟩
  refine Exec.wp_mono (wp_exec sys op (hitems ▸ h.entry) (hitems ▸ h.distinct) hhonest) ?_ ?_
  · rintro rcs p' ⟨hreport, hfiles, hentry, hd, hleft⟩
    simp only [hitems] at hreport hentry hd hleft hfiles
    rw [← hfiles] at hopen
    rcases hleft with hall | ⟨hsame, githubRepo, nickName, hbehind⟩
    · refine Exec.wp_mono (wp_save (hall ▸ hentry) (hall ▸ hd) _ _) ?_ fun _ _ h => h
      rintro rc fs' ⟨rfl, hfs⟩
      simp only [ne_eq, not_true_eq_false, if_false, Exec.wp_pure]
      exact ⟨hreport, hall ▸ hfs⟩
    · refine Exec.wp_mono (wp_save_uncloned hbehind _ hopen) ?_ fun _ _ h => h
      rintro rc fs' ⟨rfl, hfs⟩
      simp only [ne_eq, not_true_eq_false, if_false, Exec.wp_pure]
      exact ⟨hreport, hsame.symm ▸ hfs⟩
  · rintro e p' ⟨hspec, hfiles⟩
    simp only [hitems] at hspec
    rw [hspec]
    exact ⟨rfl, hfiles ▸ hopen⟩

/-! ## Runs -/

/-- Every process of a log reported what its operation has to, on the table before it. -/
def Reported (sys : Calls W) (log : List (Session W)) : Prop :=
  ∀ before e after, log = before ++ e :: after →
    e.outcome = (e.op.spec sys e.world (replay sys before)).1

theorem Reported.append {sys : Calls W} {log : List (Session W)} (h : Reported sys log)
    {e : Session W} (he : e.outcome = (e.op.spec sys e.world (replay sys log)).1) :
    Reported sys (log ++ [e]) := by
  intro before e' after hsplit
  rcases List.eq_nil_or_concat after with rfl | ⟨after, last, rfl⟩
  · obtain ⟨rfl, heq⟩ := List.append_inj' hsplit rfl
    cases heq
    exact he
  · rw [List.concat_eq_append, ← List.cons_append, ← List.append_assoc] at hsplit
    exact h before e' after (List.append_inj' hsplit rfl).1

/-- The files of a run hold what its log says, and the log says what it has to. -/
structure Kept (sys : Calls W) (r : Run W) : Prop where
  holds : Holds r.files (replay sys r.log)
  reported : Reported sys r.log

theorem Kept.step (sys : Calls W) {r : Run W} (h : Kept sys r) (o : Op × Table Limit) :
    Kept sys (runSession sys r o) := by
  have hstep := session_step sys o.1 (p := { Process.start r.files r.world with limits := o.2 })
    h.holds
  have hreplay : ∀ out, replay sys (r.log ++ [⟨o.1, r.world, out⟩]) =
      (o.1.spec sys r.world (replay sys r.log)).2 := by
    intro out
    simp [replay]
  unfold runSession
  split
  · rename_i rcs p hrun
    obtain ⟨hreport, hholds⟩ := Exec.wp_run_ok hstep hrun
    refine ⟨?_, h.reported.append hreport.symm⟩
    rw [hreplay]
    exact hholds
  · rename_i e p hrun
    obtain ⟨hreport, hholds⟩ := Exec.wp_run_error hstep hrun
    refine ⟨?_, h.reported.append hreport.symm⟩
    rw [hreplay]
    exact hholds

/-- **The persisted services store refines the abstract table.** From an empty
projects file, after any sequence of processes and whatever the world answered, the
file loads as the fold of the abstract operations; its services are distinct, and every
process reported what its operation has to on the table before it. -/
theorem services_refine (sys : Calls W) (ops : List (Op × Table Limit)) (fs : Files) (w : W)
    (hempty : fs.content (.file .projects) = []) :
    (∃ t, loadServices initialServices ((sessions sys ops fs w).files.content (.file .projects)) =
        .ok t ∧
      t.items = replay sys (sessions sys ops fs w).log ∧ DistinctServices t.items) ∧
    ∀ before e after, (sessions sys ops fs w).log = before ++ e :: after →
      e.outcome = (e.op.spec sys e.world (replay sys before)).1 := by
  have hstart : Kept sys (⟨[], fs, w⟩ : Run W) :=
    ⟨⟨hempty, by simp [replay], Ledger.distinct_nil⟩, fun before e after h => by simp at h⟩
  have hkept : Kept sys (sessions sys ops fs w) :=
    List.foldlRecOn ops (runSession sys) hstart fun r h o _ => h.step sys o
  obtain ⟨t, hload, hitems, _⟩ := hkept.holds.load
  exact ⟨⟨t, hload, hitems, hitems ▸ hkept.holds.distinct⟩, hkept.reported⟩

/-- Add a service, try to remove another one, stop the first. -/
def firstService : List (Op × Table Limit) :=
  [(.add (.ofBytes [114]) (.ofBytes [97]), .alloc 4), (.remove (.ofBytes [98]), .alloc 4),
    (.stop [.ofBytes [97]], .alloc 4)]

theorem services_refine_firstService :
    let r := sessions (.allWell 1) firstService (fun _ => none) ()
    (∃ t, loadServices initialServices (r.files.content (.file .projects)) = .ok t ∧
      t.items = replay (.allWell 1) r.log ∧ DistinctServices t.items) ∧
    ∀ before e after, r.log = before ++ e :: after →
      e.outcome = (e.op.spec (.allWell 1) e.world (replay (.allWell 1) before)).1 :=
  services_refine (.allWell 1) firstService (fun _ => none) () rfl

end MiniRunner.Services
