import MiniRunner.Restart.Conditions

/-!
# When `set-limit` restarts

For the standard type of amount a success marks the limits for saving, for the two
larger types a failure does. Either way the process is left ready to close, unless the
function that sets the memory alone runs off its end.
-/

namespace MiniRunner

open Clib Process

variable {W : Type} {fs : Files}

/-- **When setting a limit restarts**: for a missing service not with an amount alone. -/
def Stored.SetLimitSafe (st : Stored fs) (name : CStr) :
    Option (BitVec 64) → Option Amount → Prop
  | none, some amount => amount.isZero = true ∨ st.Has name
  | none, none | some _, _ => True

instance (st : Stored fs) (name : CStr) : (cpu : Option (BitVec 64)) → (mem : Option Amount) →
    Decidable (st.SetLimitSafe name cpu mem)
  | none, some _ => inferInstanceAs (Decidable (_ ∨ _))
  | none, none | some _, _ => inferInstanceAs (Decidable True)

section commands

variable (st : Stored fs) (hfit : ∀ s ∈ st.services.items, s.Fits)

include hfit

theorem Loaded.ready_recordLimit {w : W} {p : Process W} (hp : Loaded fs w p) {s : Service}
    {name : CStr} (hfind : st.services.items.find? (·.name == name) = some s) {cpu : BitVec 64}
    {memory : BitVec 128} {t : Table Limit}
    (ht : t.items = recordLimit name cpu memory p.limits.items) (w' : W) :
    Ready fs { p with world := w', limits := t } := by
  have hready := hp.ready st hfit
  have hname : s.name = name := by simpa using List.find?_some hfind
  have hcaret : caret ∉ name.bytes := by
    have hmem : s ∈ p.services.items := hp.eq_services st ▸ List.mem_of_find?_eq_some hfind
    exact hname ▸ ((loadServices_sound hp.services).1 s hmem).name
  refine (hready.world w').withLimits t ?_
  rw [ht, recordLimit]
  split
  · exact Table.forall_updateFirst (fun l _ hl => ⟨hl.name⟩) hready.limits
  · intro l hl
    rcases List.mem_append.mp hl with hl | hl
    · exact hready.limits l hl
    · rw [List.mem_singleton.mp hl]
      exact ⟨hcaret⟩

/-- The six functions leave a process that is ready to close, if they end at all. -/
theorem Loaded.wp_limitService {w : W} {p : Process W} (hp : Loaded fs w p) (name : CStr)
    (write : BitVec 32 → W → Int × W) (cpu : BitVec 64) (memory : BitVec 128)
    {missing : Exec (Process W) Int} (hmissing : st.Has name ∨ missing = pure (-1)) :
    Exec.wp (limitService name write cpu memory missing) (fun _ p' => Ready fs p')
      (fun _ _ => False) p := by
  obtain ⟨t, ht, hiff⟩ := MiniRunner.wp_limitService name write cpu memory missing
    (initLimits_sound hp.limits).2.2
  have hready := hp.ready st hfit
  rw [hiff]
  cases hfind : p.services.items.find? (·.name == name) with
  | none =>
    have hno : ¬st.Has name := by simp [hp.has_iff st, hfind]
    rw [hmissing.resolve_left hno]
    exact (Exec.wp_pure _).mpr hready
  | some s =>
    rw [hp.eq_services st] at hfind
    simp only
    split_ifs
    · exact hready
    · exact hready.world _
    · exact hp.ready_recordLimit st hfit hfind ht _

theorem Loaded.wp_limited {w : W} {p : Process W} (hp : Loaded fs w p) {name : CStr}
    {write : BitVec 32 → W → Int × W} {cpu : BitVec 64} {memory : BitVec 128}
    {missing failed set : Exec (Process W) Int} (hmissing : st.Has name ∨ missing = pure (-1))
    (hfailed : ∀ {p' : Process W}, Ready fs p' →
      Exec.wp failed (fun _ p'' => Ready fs p'') (fun _ _ => False) p')
    (hset : ∀ {p' : Process W}, Ready fs p' →
      Exec.wp set (fun _ p'' => Ready fs p'') (fun _ _ => False) p') :
    Exec.wp (do if (← limitService name write cpu memory missing) ≠ 0 then failed else set)
      (fun _ p' => Ready fs p') (fun _ _ => False) p := by
  simp only [Exec.wp_bind, Exec.wp_ite]
  exact Exec.wp_mono (hp.wp_limitService st hfit name write cpu memory hmissing)
    (fun _ _ h => ⟨fun _ => hfailed h, fun _ => hset h⟩) fun _ _ h => h

omit hfit in
theorem Ready.wp_marking {p : Process W} (h : Ready fs p) (rc : Int) :
    Exec.wp (do markLimits; pure rc) (fun _ p' => Ready fs p') (fun _ _ => False) p := by
  rw [Exec.wp_bind, wp_markLimits, Exec.wp_pure]
  exact h.mark true

omit hfit in
theorem Ready.wp_returning {p : Process W} (h : Ready fs p) (rc : Int) :
    Exec.wp (pure rc) (fun _ p' => Ready fs p') (fun _ _ => False) p := (Exec.wp_pure _).mpr h

theorem Loaded.wp_setLimitCpu (sys : Calls W) {w : W} {p : Process W} (hp : Loaded fs w p)
    (name : CStr) (cpu : BitVec 64) (mem : Option Amount) :
    Exec.wp (setLimitCpu sys name cpu mem) (fun _ p' => Ready fs p') (fun _ _ => False) p := by
  have hready := hp.ready st hfit
  unfold setLimitCpu
  split
  · exact hp.wp_limited st hfit (.inr rfl) (·.wp_returning 1) (·.wp_marking 0)
  · split
    · exact hready.wp_returning 1
    · split
      · exact hp.wp_limited st hfit (.inr rfl) (·.wp_returning 1) (·.wp_marking 0)
      · exact hp.wp_limited st hfit (.inr rfl) (·.wp_marking 1) (·.wp_returning 0)

theorem Loaded.wp_setLimitMem (sys : Calls W) {w : W} {p : Process W} (hp : Loaded fs w p)
    {name : CStr} {amount : Amount} (hsafe : amount.isZero = true ∨ st.Has name) :
    Exec.wp (setLimitMem sys name amount) (fun _ p' => Ready fs p') (fun _ _ => False) p := by
  unfold setLimitMem
  split
  · exact (hp.ready st hfit).wp_returning 1
  · rename_i hzero
    exact hp.wp_limited st hfit (.inl (hsafe.resolve_left hzero)) (·.wp_returning 1)
      (·.wp_marking 0)

/-- **`set-limit`** restarts unless it is to set the memory of a service that is not there. -/
theorem setLimit_restarts_iff (name : CStr) (cpu : Option (BitVec 64)) (declined : Bool)
    (mem : Option Amount) :
    Restarts fs (.setLimit name cpu declined mem) ↔ st.SetLimitSafe name cpu mem := by
  have hrestarts : (∀ (W : Type) (sys : Calls W) (w : W) (p : Process W), Loaded fs w p →
      Exec.wp ((Command.setLimit name cpu declined mem).exec sys) (fun _ p' => Ready fs p')
        (fun _ _ => False) p) → Restarts fs (.setLimit name cpu declined mem) := fun h =>
    restarts_of st fun W sys w p hp =>
      Exec.wp_mono (h W sys w p hp) (fun _ _ hready => hready.closesWell st) fun _ _ h => h.elim
  match cpu, mem with
  | none, none =>
    exact iff_of_true (hrestarts fun W sys w p hp => (hp.ready st hfit).wp_returning 0) trivial
  | some cpu, mem =>
    refine iff_of_true (hrestarts fun W sys w p hp => ?_) trivial
    simp only [Command.exec, Exec.wp_ite]
    exact ⟨fun _ => (hp.ready st hfit).wp_returning 1,
      fun _ => hp.wp_setLimitCpu st hfit sys name cpu mem⟩
  | none, some amount =>
    refine ⟨fun h => ?_, fun hsafe => hrestarts fun W sys w p hp =>
      hp.wp_setLimitMem st hfit sys hsafe⟩
    by_contra hunsafe
    obtain ⟨hzero, hhas⟩ := not_or.mp hunsafe
    obtain ⟨p, hp, hbody⟩ := h.exec st .allFail ()
    have hfind : p.services.items.find? (·.name == name) = none := by
      simpa [hp.has_iff st] using hhas
    simp only [Command.exec, setLimitMem, if_neg hzero, setMemoryLimit, limitService, Exec.wp_bind,
      wp_findService, hfind, Exec.wp_throw] at hbody
    exact hbody.1 rfl

end commands

end MiniRunner
