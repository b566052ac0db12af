import MiniRunner.Restart.Commands

/-!
# Which conditions the other commands need

`rename` looks for no second service of the new name, `set-limit` on memory has no return
value for a missing service, `add-env` has no slot for a 41st entry, and `update-env`
writes a newline as it is, so that the rest of the value becomes part of the next entry's
name. `remove`, `run` and `restart` hit undefined behaviour of their own. Each section
proves for one command exactly when it restarts.
-/

namespace MiniRunner

open Clib Process

variable {W : Type} {fs : Files}

/-! ## What is loaded and what is saved -/

theorem Loaded.has_iff {w : W} {p : Process W} (hp : Loaded fs w p) (st : Stored fs)
    (name : CStr) : st.Has name ↔ (p.services.items.find? (·.name == name)).isSome := by
  rw [Stored.Has, hp.eq_services st, List.find?_isSome, List.any_eq_true]

theorem Stored.has_iff {st : Stored fs} {name : CStr} :
    st.Has name ↔ ∃ s ∈ st.services.items, s.name = name := by
  simp [Stored.Has]

theorem Stored.distinct (st : Stored fs) : DistinctServices st.services.items :=
  (loadServices_sound st.loadsServices).2.1

theorem wp_markLimits {p : Process W} {Q : Unit → Process W → Prop}
    {E : Halt → Process W → Prop} :
    Exec.wp markLimits Q E p ↔ Q () { p with reformatLimits := true } := Exec.wp_modify _

section commands

variable (st : Stored fs) (hfit : ∀ s ∈ st.services.items, s.Fits)

include hfit

theorem Loaded.closesWell_mark {w : W} {p : Process W} (hp : Loaded fs w p) (w' : W) :
    ClosesWell { p with world := w', reformatLimits := true } :=
  (((hp.ready st hfit).world w').mark true).closesWell st

/-! ## `remove` -/

theorem remove_restarts_iff (name : CStr) :
    Restarts fs (.remove name) ↔ (st.Has name → FolderFits name) := by
  constructor
  · intro h hfound
    by_contra hno
    obtain ⟨p, hp, hbody⟩ := h.exec st .allFail ()
    simp only [Command.exec, Exec.wp_bind, wp_markLimits, Exec.wp_pure] at hbody
    rw [wp_normalDeleteServices_undefined ((hp.has_iff st name).mp hfound) hno] at hbody
    exact hbody.1 rfl
  · intro hfits
    refine restarts_of st fun W sys w p hp => ?_
    have hready := hp.ready st hfit
    obtain ⟨hok, hd, -⟩ := loadServices_sound hp.services
    simp only [Command.exec, Exec.wp_bind, wp_markLimits, Exec.wp_pure]
    refine Exec.wp_mono (wp_normalDeleteServices name fun hfound =>
      hfits ((hp.has_iff st name).mpr hfound)) ?_ fun _ _ h => h.elim
    rintro rc p' (⟨t, lim, w', hitems, hlim⟩ | w')
    · have hready' : Ready fs { p with services := t, limits := lim, world := w' } := by
        refine ((hready.withServices t ?_ ?_).withLimits lim ?_).world w'
        · rw [hitems]
          exact Ledger.forall_strike hready.services
        · rw [hitems, filter_cloned_eq (Ledger.forall_strike hok)]
          exact Ledger.distinct_strike hd
        · rw [hlim]
          exact Ledger.forall_strike hready.limits
      exact (hready'.mark true).closesWell st
    · exact hp.closesWell_mark st hfit w'

/-! ## `run` and `restart` -/

theorem run_restarts_iff (name : CStr) (bash : Option CStr) (attach : Bool) :
    Restarts fs (.run name bash attach) ↔ name.bytes = [] ∨
      ¬RunFaults (statusText fs) st.services.items st.envs.items name := by
  have henvs : ∀ {W : Type} {w : W} {p : Process W}, Loaded fs w p →
      p.envs.items.length ≤ envLimit := fun hp => (loadEnvs_sound hp.envs).2.2.length_le
  constructor
  · intro h
    by_contra hno
    obtain ⟨hname, hfault⟩ := not_or.mp hno
    obtain ⟨p, hp, hbody⟩ := h.exec st .allFail ()
    rw [not_not, ← hp.eq_services st, ← hp.eq_envs st, ← hp.status] at hfault
    simp only [Command.exec, if_neg hname, Exec.wp_bind, Exec.wp_pure] at hbody
    have hundefined : Exec.wp (runService .allFail name bash attach) (fun _ _ => False)
        (fun e _ => e = .undefined) p :=
      wp_runService_undefined (henvs hp) (loadServices_not_null hp.services) hname hfault
        fun _ => rfl
    refine Exec.not_wp_false (Exec.wp_mono (Exec.wp_and hbody hundefined) ?_ ?_)
    · exact fun _ _ h => h.2
    · exact fun _ _ h => h.1.1 h.2
  · intro hsafe
    refine restarts_of st fun W sys w p hp => ?_
    have hready := hp.ready st hfit
    simp only [Command.exec, Exec.wp_ite, Exec.wp_bind, Exec.wp_pure]
    refine ⟨fun _ => hp.closesWell st hfit p.world, fun hname => ?_⟩
    have hfault := hsafe.resolve_left hname
    rw [← hp.eq_services st, ← hp.eq_envs st, ← hp.status] at hfault
    refine Exec.wp_mono (wp_runService (henvs hp) hfault) ?_ ?_
    · exact fun _ p' hstarted => (hready.started hstarted).closesWell st
    · rintro e p' ⟨he, hstarted⟩
      exact ⟨he, hp.loads st hstarted.files⟩

theorem restart_restarts_iff (name : CStr) (bash : Option CStr) (attach : Bool) :
    Restarts fs (.restart name bash attach) ↔
      ¬RestartFaults (statusText fs) st.services.items name := by
  constructor
  · intro h hfault
    obtain ⟨p, hp, hbody⟩ := h.exec st (.allWell 0) ()
    rw [← hp.eq_services st, ← hp.status] at hfault
    simp only [Command.exec, failing, Exec.wp_bind] at hbody
    have hundefined : Exec.wp (restartService (.allWell 0) name bash attach) (fun _ _ => False)
        (fun e _ => e = .undefined) p := wp_restartService_undefined hfault fun _ => rfl
    refine Exec.not_wp_false (Exec.wp_mono (Exec.wp_and hbody hundefined) ?_ ?_)
    · exact fun _ _ h => h.2
    · exact fun _ _ h => h.1.1 h.2
  · intro hfault
    refine restarts_of st fun W sys w p hp => ?_
    rw [← hp.eq_services st, ← hp.status] at hfault
    refine wp_failing.mpr (Exec.wp_mono (wp_restartService hfault) ?_ fun _ _ h => h.elim)
    exact fun _ p' hstarted => ((hp.ready st hfit).started hstarted).closesWell st

end commands

/-! ## `rename` -/

def renamed (name newName : CStr) (l : List Service) : List Service :=
  Table.updateFirst (·.name == name) (fun s => { s with name := newName }) l

theorem clash_false_iff {y x : Service} :
    ¬serviceClash y x = true ↔ y.githubRepo ≠ x.githubRepo ∧ y.name ≠ x.name := by
  simp [serviceClash]

theorem exists_renamed {name : CStr} (newName : CStr) {l : List Service}
    (hfound : ∃ s ∈ l, s.name = name) : ∃ s ∈ renamed name newName l, s.name = newName := by
  induction l with
  | nil => simp at hfound
  | cons x l ih =>
    by_cases hx : x.name = name
    · refine ⟨{ x with name := newName }, ?_, rfl⟩
      simp [renamed, Table.updateFirst, hx]
    · obtain ⟨s, hs, hname⟩ := ih (by simpa [hx] using hfound)
      exact ⟨s, by simpa [renamed, Table.updateFirst, hx] using .inr hs, hname⟩

/-- **A rename keeps the services apart** exactly when no other has the new name. -/
theorem distinct_renamed_iff {name newName : CStr} {l : List Service} (hd : DistinctServices l)
    (hfound : ∃ s ∈ l, s.name = name) :
    DistinctServices (renamed name newName l) ↔ ∀ s ∈ l, s.name = newName → newName = name := by
  induction l with
  | nil => simp at hfound
  | cons x l ih =>
    obtain ⟨hx, hl⟩ := List.pairwise_cons.mp hd
    by_cases hname : x.name = name
    · -- the head is renamed, and the rest has neither name nor repo of it
      have heq : renamed name newName (x :: l) = { x with name := newName } :: l := by
        simp [renamed, Table.updateFirst, hname]
      rw [heq]
      constructor
      · intro hd' s hs hnew
        rcases List.mem_cons.mp hs with rfl | hs
        · exact hnew.symm.trans hname
        · exact absurd hnew.symm (clash_false_iff.mp ((List.pairwise_cons.mp hd').1 s hs)).2
      · intro hfresh
        refine List.pairwise_cons.mpr ⟨fun y hy => ?_, hl⟩
        obtain ⟨hrepo, hne⟩ := clash_false_iff.mp (hx y hy)
        refine clash_false_iff.mpr ⟨hrepo, fun hnew => hne ?_⟩
        exact hname.trans ((hfresh y (by simp [hy]) hnew.symm).symm.trans hnew)
    · have hfound' : ∃ s ∈ l, s.name = name := by simpa [hname] using hfound
      have heq : renamed name newName (x :: l) = x :: renamed name newName l := by
        simp [renamed, Table.updateFirst, hname]
      rw [heq]
      constructor
      · intro hd' s hs hnew
        obtain ⟨hx', hl'⟩ := List.pairwise_cons.mp hd'
        rcases List.mem_cons.mp hs with rfl | hs
        · obtain ⟨y, hy, hyname⟩ := exists_renamed newName hfound'
          exact absurd (hnew.trans hyname.symm) (clash_false_iff.mp (hx' y hy)).2
        · exact (ih hl hfound').mp hl' s hs hnew
      · intro hfresh
        refine List.pairwise_cons.mpr ⟨?_, (ih hl hfound').mpr fun s hs => hfresh s (by simp [hs])⟩
        intro y hy
        refine clash_false_iff.mpr (Table.forall_updateFirst
          (P := fun y => x.githubRepo ≠ y.githubRepo ∧ x.name ≠ y.name) (fun z _ hz => ?_)
          (fun z hz => clash_false_iff.mp (hx z hz)) y hy)
        exact ⟨hz.1, fun hnew => hname (hnew.trans (hfresh x (by simp) hnew))⟩

section commands

variable (st : Stored fs) (hfit : ∀ s ∈ st.services.items, s.Fits)

include hfit

/-- What a rename leaves is well-formed apart from clashes: it closes well if the
services are still apart. -/
theorem Loaded.closesWell_renamed {w : W} {p : Process W} (hp : Loaded fs w p)
    {name newName : CStr} (hvalid : isValidName newName = 0) {t : Table Service}
    {lim : Table Limit} (w' : W) (hitems : t.items = renamed name newName p.services.items)
    (hlim : lim.items = Table.updateFirst (·.name == name) (fun l => { l with name := newName })
      p.limits.items)
    (hnew : ∀ s ∈ st.services.items, s.name = name → Service.Fits { s with name := newName }) :
    ClosesWell { p with services := t, limits := lim, world := w', reformatLimits := true } ↔
      st.Waits ∨ DistinctServices (renamed name newName st.services.items) := by
  obtain ⟨-, hlen, hcaret, -⟩ := checkService_eq_zero.mp hvalid
  have hready := hp.ready st hfit
  obtain ⟨hok, -, -⟩ := loadServices_sound hp.services
  -- a renamed service fits under every further rename of the same kind
  have hroom : ∀ s ∈ t.items, s.Ok ∧ s.Fits ∧
      (s.name = name → Service.Fits { s with name := newName }) := by
    rw [hitems]
    refine Table.forall_updateFirst (fun s hname hs => ?_) fun s hs => ?_
    · have hfits := hs.2.2 (by simpa using hname)
      exact ⟨⟨hcaret, hs.1.githubRepo, hs.1.cloned⟩, hfits, fun _ => hfits⟩
    · have hmem := hp.eq_services st ▸ hs
      exact ⟨hok s hs, hfit s hmem, hnew s hmem⟩
  have hintact : Intact fs
      { p with services := t, limits := lim, world := w', reformatLimits := true } := by
    refine ⟨hready.files, hready.state, fun s hs _ => ⟨(hroom s hs).1, (hroom s hs).2.1⟩,
      hready.jobs, ?_⟩
    rw [hlim]
    exact Table.forall_updateFirst (fun l _ _ => ⟨hcaret⟩) hready.limits
  rw [closesWell_iff st hintact, Waits, hp.eq_jobs st, ServicesReload,
    filter_cloned_eq fun s hs => (hroom s hs).1, hitems, hp.eq_services st]
  exact or_congr_right (and_iff_left hready.envsReload)

theorem rename_restarts_iff (oldName newName : CStr)
    (hnew : isValidName newName = 0 → ∀ s ∈ st.services.items, s.name = oldName →
      Service.Fits { s with name := newName }) :
    Restarts fs (.rename oldName newName) ↔ isValidName newName ≠ 0 ∨ st.Waits ∨
      (st.Has oldName → st.Has newName → newName = oldName) := by
  by_cases hvalid : isValidName newName = 0
  swap
  · refine iff_of_true (restarts_of st fun W sys w p hp => ?_) (.inl hvalid)
    simp only [Command.exec, if_pos hvalid, Exec.wp_pure]
    exact hp.closesWell st hfit p.world
  rw [or_iff_right (not_not.mpr hvalid)]
  constructor
  · intro h
    refine or_iff_not_imp_left.mpr fun hwaits hold htaken => ?_
    obtain ⟨p, hp, hbody⟩ := h.exec st (.allWell 0) ()
    have hblock : p.limits.isNull = false := by
      simp [Table.isNull, (initLimits_sound hp.limits).2.2.2]
    simp only [Command.exec, hvalid, ne_eq, not_true_eq_false, if_false, Exec.wp_bind,
      wp_markLimits, Exec.wp_pure] at hbody
    obtain ⟨_, _, hclose, t, lim, rfl, hitems, hlim⟩ := Exec.exists_of_wp hbody
      (wp_renameService_allWell ((hp.has_iff st oldName).mp hold) hblock)
    have hd := ((hp.closesWell_renamed st hfit hvalid p.world hitems hlim (hnew hvalid)).mp
      hclose).resolve_left hwaits
    obtain ⟨s, hs, hname⟩ := st.has_iff.mp htaken
    exact (distinct_renamed_iff st.distinct (st.has_iff.mp hold)).mp hd s hs hname
  · intro hsafe
    refine restarts_of st fun W sys w p hp => ?_
    simp only [Command.exec, hvalid, ne_eq, not_true_eq_false, if_false, Exec.wp_bind,
      wp_markLimits, Exec.wp_pure]
    refine Exec.wp_mono (wp_renameService oldName newName) ?_ fun _ _ h => h.elim
    rintro _ p' (⟨t, lim, w', hfound, hitems, hlim⟩ | w')
    · refine (hp.closesWell_renamed st hfit hvalid w' hitems hlim (hnew hvalid)).mpr ?_
      refine hsafe.imp_right fun hfresh => ?_
      have hold := (hp.has_iff st oldName).mpr hfound
      refine (distinct_renamed_iff st.distinct (st.has_iff.mp hold)).mpr fun s hs hname => ?_
      exact hfresh hold (st.has_iff.mpr ⟨s, hs, hname⟩)
    · exact hp.closesWell_mark st hfit w'

end commands

end MiniRunner
