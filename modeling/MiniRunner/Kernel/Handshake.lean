import MiniRunner.Clib.Decimal
import MiniRunner.Clib.Pipe
import MiniRunner.Clib.Runs

/-!
# The start handshake

`runthread` forks a child that runs the script of a service. The child writes its pid into
a pipe and closes it, and only then looks for the script and calls `exec`; the `0` that is
to report a failure goes to the closed descriptor. The parent reads once and records what
it read. The two move one system call at a time, in any order.

Only the order inside the child matters: the parent always hears what the child said first
(`Inv`), so the run ends in the same pid whatever the interleaving.
-/

namespace MiniRunner.Handshake

open Clib

/-! ## The child -/

inductive Outcome where
  | chdirFails | scriptMissing | execFails | execSucceeds
  deriving DecidableEq, Repr

structure Child where
  pid : BitVec 32
  positive : 0 < pid.toInt
  outcome : Outcome

/-- The text `0`. -/
def zeroText : Bytes := [48]

/-- `snprintf(response, 10, "%i", getpid())`: the buffer ends with a NUL, and the size is
that of the whole numeral. -/
def response (pid : BitVec 32) : Bytes × Nat :=
  ((fmtInt32 pid).bytes.take 9 ++ [0], (fmtInt32 pid).len)

inductive ChildPc where
  | closeRead | chdir | writeZero | writePid | closeWrite | findScript | exec | writeFailure
  | closeAndEnd | running | ended
  deriving DecidableEq, Repr

/-- Where the parent is, with the number that it has read. -/
inductive ParentPc where
  | closeWrite | read | store (newPid : BitVec 32) | closeRead | done | exited | undefined
  deriving DecidableEq, Repr

structure State where
  pipe : Pipe
  childPc : ChildPc
  /-- The child has its write end. -/
  canWrite : Bool
  parentPc : ParentPc
  /-- The pid field of the service. -/
  pid : BitVec 32
  deriving DecidableEq

/-- After `pipe` and `fork`. -/
def start (pid : BitVec 32) : State := ⟨.shared 2, .closeRead, true, .closeWrite, pid⟩

/-- Close the write end of the child, if it is open. -/
def State.closeChild (s : State) : State :=
  { s with pipe := if s.canWrite then s.pipe.closeWriter else s.pipe, canWrite := false }

/-- `write` and `CHECK_WRITE_PR` of the child: a failed write ends it. -/
def State.childWrites (bs : Bytes) (next : ChildPc) (s : State) : State :=
  match if s.canWrite then s.pipe.write bs else none with
  | none => { s.closeChild with childPc := .ended }
  | some pipe => { s with pipe := pipe, childPc := next }

/-- The child side of `runthread`. -/
def childStep (c : Child) (s : State) : Option State :=
  match s.childPc with
  | .closeRead => some { s with pipe := s.pipe.closeReader, childPc := .chdir }
  | .chdir =>
    some { s with childPc := if c.outcome = .chdirFails then .writeZero else .writePid }
  | .writeZero => some (s.childWrites zeroText .closeAndEnd)
  | .writePid =>
    some (s.childWrites ((response c.pid).1.take (response c.pid).2) .closeWrite)
  | .closeWrite => some { s.closeChild with childPc := .findScript }
  | .findScript =>
    some { s with childPc := if c.outcome = .scriptMissing then .writeFailure else .exec }
  | .exec =>
    some { s with childPc := if c.outcome = .execSucceeds then .running else .writeFailure }
  | .writeFailure => some (s.childWrites zeroText .closeAndEnd)
  | .closeAndEnd => some { s.closeChild with childPc := .ended }
  | .running | .ended => none

/-! ## The parent -/

/-- The size of `buff`. -/
def buffSize : Nat := 10

/-- What the parent makes of the bytes it read. A read that fills the buffer leaves no room
for the NUL. -/
def afterRead (buff : Bytes) : ParentPc :=
  if buff.length = 0 then .exited
  else if buff.length < buffSize then .store (atoi (.ofBytes buff))
  else .undefined

/-- The parent side of `runthread`. -/
def parentStep (s : State) : Option State :=
  match s.parentPc with
  | .closeWrite => some { s with pipe := s.pipe.closeWriter, parentPc := .read }
  | .read => (s.pipe.read buffSize).map fun (buff, pipe) =>
      { s with pipe := pipe, parentPc := afterRead buff }
  | .store newPid => some { s with pid := newPid, parentPc := .closeRead }
  | .closeRead => some { s with pipe := s.pipe.closeReader, parentPc := .done }
  | .done | .exited | .undefined => none

/-! ## Both -/

inductive Actor where
  | child | parent
  deriving DecidableEq, Repr

def step (c : Child) : Actor → State → Option State
  | .child, s => childStep c s
  | .parent, s => parentStep s

def ChildPc.rank : ChildPc → Nat
  | closeRead => 8
  | chdir => 7
  | writePid => 6
  | closeWrite => 5
  | findScript => 4
  | exec => 3
  | writeZero | writeFailure => 2
  | closeAndEnd => 1
  | running | ended => 0

def ParentPc.rank : ParentPc → Nat
  | closeWrite => 4
  | read => 3
  | store _ => 2
  | closeRead => 1
  | done | exited | undefined => 0

def State.rank (s : State) : Nat := s.childPc.rank + s.parentPc.rank

section steps

variable {c : Child} {s s' : State} {a : Actor}

@[simp] theorem childPc_closeChild : s.closeChild.childPc = s.childPc := rfl
@[simp] theorem parentPc_closeChild : s.closeChild.parentPc = s.parentPc := rfl
@[simp] theorem canWrite_closeChild : s.closeChild.canWrite = false := rfl
@[simp] theorem pid_closeChild : s.closeChild.pid = s.pid := rfl

@[simp] theorem parentPc_childWrites (bs : Bytes) (next : ChildPc) :
    (s.childWrites bs next).parentPc = s.parentPc := by
  unfold State.childWrites
  split <;> rfl

theorem childPc_childWrites (bs : Bytes) (next : ChildPc) :
    (s.childWrites bs next).childPc = next ∨ (s.childWrites bs next).childPc = .ended := by
  unfold State.childWrites
  split
  · exact .inr rfl
  · exact .inl rfl

theorem rank_childStep (h : childStep c s = some s') :
    s'.childPc.rank < s.childPc.rank ∧ s'.parentPc = s.parentPc := by
  have hwrites (bs : Bytes) (next : ChildPc) (hnext : next.rank < s.childPc.rank) :
      (s.childWrites bs next).childPc.rank < s.childPc.rank ∧
        (s.childWrites bs next).parentPc = s.parentPc := by
    refine ⟨?_, parentPc_childWrites bs next⟩
    rcases childPc_childWrites (s := s) bs next with hpc | hpc
    · rwa [hpc]
    · rw [hpc]
      exact Nat.zero_lt_of_lt hnext
  unfold childStep at h
  cases hpc : s.childPc <;> rw [hpc] at h hwrites <;> cases h
  case writeZero | writePid | writeFailure => exact hwrites _ _ (by decide)
  case chdir | findScript | exec =>
    refine ⟨?_, rfl⟩
    dsimp only
    split <;> decide
  case closeRead | closeWrite | closeAndEnd => exact ⟨Nat.lt_of_sub_eq_succ rfl, rfl⟩

theorem afterRead_cases (buff : Bytes) :
    afterRead buff = .exited ∨ (∃ newPid, afterRead buff = .store newPid) ∨
      afterRead buff = .undefined := by
  unfold afterRead
  split
  · exact .inl rfl
  · split
    · exact .inr (.inl ⟨_, rfl⟩)
    · exact .inr (.inr rfl)

theorem rank_afterRead (buff : Bytes) : (afterRead buff).rank ≤ 2 := by
  rcases afterRead_cases buff with h | ⟨newPid, h⟩ | h <;> rw [h]
  · exact Nat.zero_le 2
  · exact le_refl 2
  · exact Nat.zero_le 2

theorem rank_parentStep (h : parentStep s = some s') :
    s'.parentPc.rank < s.parentPc.rank ∧ s'.childPc = s.childPc := by
  unfold parentStep at h
  cases hpc : s.parentPc <;> rw [hpc] at h
  case read =>
    obtain ⟨⟨buff, pipe⟩, -, rfl⟩ := Option.map_eq_some_iff.mp h
    exact ⟨Nat.lt_succ_of_le (rank_afterRead buff), rfl⟩
  case closeWrite | store | closeRead =>
    cases h
    exact ⟨Nat.lt_of_sub_eq_succ rfl, rfl⟩
  case done | exited | undefined => cases h

theorem rank_step (h : step c a s = some s') : s'.rank < s.rank := by
  cases a with
  | child =>
    obtain ⟨hlt, heq⟩ := rank_childStep h
    rw [State.rank, State.rank, heq]
    omega
  | parent =>
    obtain ⟨hlt, heq⟩ := rank_parentStep h
    rw [State.rank, State.rank, heq]
    omega

end steps

theorem length_le_twelve {c : Child} {pid : BitVec 32} {as : List Actor} {s : State}
    (h : runs (step c) as (start pid) = some s) : as.length ≤ 12 :=
  length_le_of_measure rank_step as h

/-! ## What the child says -/

section said

variable (c : Child)

/-- The message of the child that reaches the pipe. -/
def said : Bytes :=
  if c.outcome = .chdirFails then zeroText
  else (response c.pid).1.take (response c.pid).2

theorem response_eq : ∃ n, n < 2 ^ 31 ∧ c.pid.toNat = n ∧ (fmtInt32 c.pid).bytes = fmtNat n := by
  have hlt := BitVec.toInt_lt (x := c.pid)
  have hpos := c.positive
  have hnat : c.pid.toInt = c.pid.toNat := by
    rw [BitVec.toInt_eq_toNat_cond]
    split
    · rfl
    · rename_i hneg
      rw [BitVec.toInt_eq_toNat_cond, if_neg hneg] at hpos
      have := c.pid.isLt
      omega
  exact ⟨c.pid.toNat, by omega, rfl, fmtInt_eq_fmtNat.mpr hnat⟩

theorem length_said : 0 < (said c).length ∧ (said c).length ≤ buffSize := by
  unfold said
  split
  · decide
  · obtain ⟨n, hn, -, htext⟩ := response_eq c
    have hlen := length_fmtNat_le (n := n) (k := 10) (by decide) (by omega)
    have hpos := List.length_pos_iff.mpr (fmtNat_ne_nil n)
    simp only [response, htext, CStr.len, List.length_take, List.length_append,
      List.length_singleton, buffSize]
    omega

/-- What the parent makes of it: 0 if `chdir` failed, else the pid, if the numeral and its
NUL fit the buffer. -/
theorem afterRead_said :
    afterRead (said c) =
      if c.outcome = .chdirFails then .store 0
      else if c.pid.toNat < 10 ^ 9 then .store c.pid
      else .undefined := by
  obtain ⟨hpos, hle⟩ := length_said c
  rw [afterRead, if_neg hpos.ne']
  by_cases hchdir : c.outcome = .chdirFails
  · simp only [said, if_pos hchdir]
    rfl
  rw [if_neg hchdir]
  obtain ⟨n, hn, rfl, htext⟩ := response_eq c
  have hiff := length_fmtNat_le_iff (n := c.pid.toNat) (k := 9) (by decide)
  by_cases hfits : c.pid.toNat < 10 ^ 9
  · have hlen := hiff.mpr hfits
    have hsaid : said c = (fmtInt32 c.pid).bytes := by
      rw [said, if_neg hchdir, response, htext]
      simp [CStr.len, htext, List.take_of_length_le hlen]
    rw [if_pos hfits, hsaid, if_pos (by rw [htext, buffSize]; omega), CStr.ofBytes_bytes,
      atoi_fmtInt32]
  · have hlen := mt hiff.mp hfits
    rw [if_neg hfits, if_neg]
    simp only [said, if_neg hchdir, response, htext, CStr.len, List.length_take,
      List.length_append, List.length_singleton, buffSize]
    omega

end said

/-! ## What the parent hears -/

def ChildPc.silent : ChildPc → Bool
  | closeRead | chdir | writeZero | writePid => true
  | _ => false

def ParentPc.waits : ParentPc → Bool
  | closeWrite | read => true
  | _ => false

/-- The read ends that the child holds, and the write ends that the parent holds. -/
def ChildPc.readEnds : ChildPc → Nat
  | closeRead => 1
  | _ => 0

def ParentPc.writeEnds : ParentPc → Nat
  | closeWrite => 1
  | _ => 0

/-- The parent has read `buff`, and if it has stored a number it is the one in `buff`. -/
def Heard (buff : Bytes) (s : State) : Prop :=
  s.parentPc = afterRead buff ∨
    afterRead buff = .store s.pid ∧ (s.parentPc = .closeRead ∨ s.parentPc = .done)

/-- **What holds along every run.** Until the child speaks the parent waits; then the first
message is in the pipe until the parent has read it, and nothing follows it. -/
structure Inv (c : Child) (s : State) : Prop where
  silent : s.childPc.silent = true →
    s.pipe.data = [] ∧ s.parentPc.waits = true ∧ s.canWrite = true
  spoken : s.childPc.silent = false →
    s.parentPc.waits = true ∧ s.pipe.data = said c ∨ Heard (said c) s
  path : (s.childPc = .writeZero → c.outcome = .chdirFails) ∧
    (s.childPc = .writePid → c.outcome ≠ .chdirFails)
  late : s.childPc = .findScript ∨ s.childPc = .exec ∨ s.childPc = .writeFailure →
    s.canWrite = false
  writers : s.pipe.writers = s.canWrite.toNat + s.parentPc.writeEnds
  readers : s.parentPc.waits = true → 1 + s.childPc.readEnds ≤ s.pipe.readers

theorem inv_start (c : Child) (pid : BitVec 32) : Inv c (start pid) where
  silent := fun _ => ⟨rfl, rfl, rfl⟩
  spoken := fun h => by cases h
  path := by simp [start]
  late := fun h => by simp [start] at h
  writers := rfl
  readers := fun _ => le_refl 2

theorem waits_afterRead (buff : Bytes) : (afterRead buff).waits = false := by
  rcases afterRead_cases buff with h | ⟨newPid, h⟩ | h <;> rw [h] <;> rfl

theorem writeEnds_of_waits {pc : ParentPc} (h : pc.waits = false) : pc.writeEnds = 0 := by
  cases pc <;> first | rfl | cases h

section inv

variable {c : Child} {s s' : State}

theorem not_heard_of_waits {buff : Bytes} (h : s.parentPc.waits = true) : ¬Heard buff s := by
  rintro (hread | ⟨-, hpc | hpc⟩)
  · rw [hread, waits_afterRead] at h
    cases h
  · rw [hpc] at h
    cases h
  · rw [hpc] at h
    cases h

theorem Inv.heard (h : Inv c s) (hwaits : s.parentPc.waits = false) :
    s.childPc.silent = false ∧ Heard (said c) s := by
  have hsilent : s.childPc.silent = false := by
    by_contra hs
    rw [(h.silent (by simpa using hs)).2.1] at hwaits
    cases hwaits
  refine ⟨hsilent, (h.spoken hsilent).resolve_left fun hw => ?_⟩
  rw [hw.1] at hwaits
  cases hwaits

/-- The first message of the child. -/
theorem Inv.speaks (h : Inv c s) (hs : s.childPc.silent = true) {next : ChildPc}
    (hnext : next = .closeAndEnd ∨ next = .closeWrite) :
    Inv c (s.childWrites (said c) next) := by
  obtain ⟨hdata, hwaits, hcan⟩ := h.silent hs
  have hreaders : 1 ≤ s.pipe.readers := le_trans (Nat.le_add_right 1 _) (h.readers hwaits)
  have hwritten : s.childWrites (said c) next =
      { s with pipe := { s.pipe with data := said c }, childPc := next } := by
    rw [State.childWrites, if_pos hcan, Pipe.write_of_readers hreaders, hdata]
    rfl
  rw [hwritten]
  refine ⟨fun hsilent => ?_, fun _ => .inl ⟨hwaits, rfl⟩, ?_, ?_, h.writers, fun _ => ?_⟩
  · rcases hnext with rfl | rfl <;> cases hsilent
  · rcases hnext with rfl | rfl <;> simp
  · rcases hnext with rfl | rfl <;> simp
  · rcases hnext with rfl | rfl <;> exact hreaders

/-- Whatever the child does later leaves the pipe without its write end. -/
theorem Inv.after (h : Inv c s) (hs : s.childPc.silent = false) {next : ChildPc}
    (hnext : next.silent = false) : Inv c { s.closeChild with childPc := next } := by
  have hclosed : s.closeChild.pipe.data = s.pipe.data ∧
      s.closeChild.pipe.readers = s.pipe.readers ∧
      s.closeChild.pipe.writers = s.parentPc.writeEnds := by
    have hwriters := h.writers
    unfold State.closeChild
    cases hcan : s.canWrite <;> simp [hcan] at hwriters ⊢ <;> omega
  refine ⟨fun hsilent => ?_, fun _ => ?_, ?_, fun _ => rfl, ?_, fun hwaits => ?_⟩
  · rw [show next.silent = true from hsilent] at hnext
    cases hnext
  · rw [hclosed.1]
    exact h.spoken hs
  · constructor <;> rintro rfl <;> cases hnext
  · simpa using hclosed.2.2
  · have hends : next.readEnds = 0 := by cases next <;> first | rfl | cases hnext
    rw [hclosed.2.1, hends]
    exact le_trans (Nat.le_add_right 1 _) (h.readers hwaits)

theorem Inv.goesOn (h : Inv c s) (hs : s.childPc.silent = false) (hcan : s.canWrite = false)
    {next : ChildPc} (hnext : next.silent = false) : Inv c { s with childPc := next } := by
  have hclosed : s.closeChild = s := by
    cases s
    subst hcan
    rfl
  have hafter := h.after hs hnext
  rwa [hclosed] at hafter

theorem Inv.stillSilent (h : Inv c s) (hs : s.childPc.silent = true) {pipe : Pipe}
    {next : ChildPc} (hdata : pipe.data = s.pipe.data) (hwriters : pipe.writers = s.pipe.writers)
    (hreaders : 1 ≤ pipe.readers)
    (hnext : next = .chdir ∨ next = .writeZero ∧ c.outcome = .chdirFails ∨
      next = .writePid ∧ c.outcome ≠ .chdirFails) :
    Inv c { s with pipe := pipe, childPc := next } where
  silent := fun _ => ⟨hdata.trans (h.silent hs).1, (h.silent hs).2⟩
  spoken := fun hspoken => by rcases hnext with rfl | ⟨rfl, -⟩ | ⟨rfl, -⟩ <;> cases hspoken
  path := by rcases hnext with rfl | ⟨rfl, hout⟩ | ⟨rfl, hout⟩ <;> simp_all
  late := fun hlate => by rcases hnext with rfl | ⟨rfl, -⟩ | ⟨rfl, -⟩ <;> simp at hlate
  writers := hwriters.trans h.writers
  readers := fun _ => by rcases hnext with rfl | ⟨rfl, -⟩ | ⟨rfl, -⟩ <;> exact hreaders

/-- **A step of the child.** -/
theorem Inv.childStep (h : Inv c s) (hstep : childStep c s = some s') : Inv c s' := by
  unfold Handshake.childStep at hstep
  cases hpc : s.childPc <;> rw [hpc] at hstep <;> cases hstep
  case closeRead =>
    have hs : s.childPc.silent = true := by rw [hpc]; rfl
    have hreaders := h.readers (h.silent hs).2.1
    rw [hpc] at hreaders
    exact h.stillSilent hs rfl rfl (Nat.le_sub_one_of_lt hreaders) (.inl rfl)
  case chdir =>
    have hs : s.childPc.silent = true := by rw [hpc]; rfl
    have hreaders := le_trans (Nat.le_add_right 1 _) (h.readers (h.silent hs).2.1)
    refine h.stillSilent hs rfl rfl hreaders (.inr ?_)
    by_cases hchdir : c.outcome = .chdirFails
    · exact .inl ⟨if_pos hchdir, hchdir⟩
    · exact .inr ⟨if_neg hchdir, hchdir⟩
  case writeZero =>
    have hsaid : said c = zeroText := if_pos (h.path.1 hpc)
    rw [← hsaid]
    exact h.speaks (by rw [hpc]; rfl) (.inl rfl)
  case writePid =>
    have hsaid : said c = _ := if_neg (h.path.2 hpc)
    rw [← hsaid]
    exact h.speaks (by rw [hpc]; rfl) (.inr rfl)
  case closeWrite | closeAndEnd => exact h.after (by rw [hpc]; rfl) rfl
  case findScript | exec =>
    exact h.goesOn (by rw [hpc]; rfl) (h.late (by simp [hpc])) (by split <;> rfl)
  case writeFailure =>
    -- the descriptor is closed, so the report is lost
    rw [State.childWrites, h.late (by simp [hpc])]
    exact h.after (by rw [hpc]; rfl) rfl

/-- The parent moves on, having heard the child. -/
theorem Inv.afterHearing (h : Inv c s) (hs : s.childPc.silent = false)
    (hends : s.parentPc.writeEnds = 0) {pipe : Pipe} {parentPc : ParentPc} {pid : BitVec 32}
    (hwriters : pipe.writers = s.pipe.writers) (hwaits : parentPc.waits = false)
    (hheard : Heard (said c) { s with pipe := pipe, parentPc := parentPc, pid := pid }) :
    Inv c { s with pipe := pipe, parentPc := parentPc, pid := pid } where
  silent := fun hs' => by
    rw [hs] at hs'
    cases hs'
  spoken := fun _ => .inr hheard
  path := h.path
  late := h.late
  writers := by rw [hwriters, h.writers, hends, writeEnds_of_waits hwaits]
  readers := fun hw => by
    rw [hwaits] at hw
    cases hw

/-- **A step of the parent.** -/
theorem Inv.parentStep (h : Inv c s) (hstep : parentStep s = some s') : Inv c s' := by
  unfold Handshake.parentStep at hstep
  cases hpc : s.parentPc <;> rw [hpc] at hstep
  case closeWrite =>
    cases hstep
    refine ⟨fun hs => ⟨(h.silent hs).1, rfl, (h.silent hs).2.2⟩, fun hs => .inl ⟨rfl, ?_⟩, h.path,
      h.late, ?_, fun _ => h.readers (by rw [hpc]; rfl)⟩
    · exact ((h.spoken hs).resolve_right (not_heard_of_waits (by rw [hpc]; rfl))).2
    · have hwriters := h.writers
      rw [hpc] at hwriters
      exact Nat.sub_eq_of_eq_add hwriters
  case read =>
    obtain ⟨⟨buff, pipe⟩, hread, rfl⟩ := Option.map_eq_some_iff.mp hstep
    have hwaits : s.parentPc.waits = true := by rw [hpc]; rfl
    cases hs : s.childPc.silent with
    | true =>
      -- the write end of the child is open and the pipe is empty
      obtain ⟨hdata, -, hcan⟩ := h.silent hs
      rw [Pipe.read_waits hdata (by rw [h.writers, hcan]; exact Nat.le_add_right 1 _)] at hread
      cases hread
    | false =>
      have hdata := ((h.spoken hs).resolve_right (not_heard_of_waits hwaits)).2
      obtain ⟨hpos, hle⟩ := length_said c
      rw [Pipe.read_message (by rw [hdata]; exact List.length_pos_iff.mp hpos)
        (by rw [hdata]; exact hle), hdata] at hread
      cases hread
      exact h.afterHearing hs (by rw [hpc]; rfl) rfl (waits_afterRead _) (.inl rfl)
  case store newPid =>
    cases hstep
    obtain ⟨hs, hheard⟩ := h.heard (by rw [hpc]; rfl)
    have hstored : afterRead (said c) = .store newPid := by
      rcases hheard with hread | ⟨-, hlater | hlater⟩
      · exact hread.symm.trans hpc
      · rw [hpc] at hlater
        cases hlater
      · rw [hpc] at hlater
        cases hlater
    exact h.afterHearing hs (by rw [hpc]; rfl) rfl rfl (.inr ⟨hstored, .inl rfl⟩)
  case closeRead =>
    cases hstep
    obtain ⟨hs, hheard⟩ := h.heard (by rw [hpc]; rfl)
    have hstored : afterRead (said c) = .store s.pid := by
      rcases hheard with hread | ⟨hstored, -⟩
      · rw [hpc] at hread
        rcases afterRead_cases (said c) with h | ⟨newPid, h⟩ | h <;> rw [h] at hread <;>
          cases hread
      · exact hstored
    exact h.afterHearing hs (by rw [hpc]; rfl) rfl rfl (.inr ⟨hstored, .inr rfl⟩)
  case done | exited | undefined => cases hstep

theorem Inv.step {a : Actor} (h : Inv c s) (hstep : step c a s = some s') : Inv c s' := by
  cases a with
  | child => exact h.childStep hstep
  | parent => exact h.parentStep hstep

/-- Somebody can move while the parent waits. -/
theorem Inv.not_stuck (h : Inv c s) (hwaits : s.parentPc.waits = true) :
    ¬Stuck (Handshake.step c) s := by
  intro hstuck
  have hchild : Handshake.childStep c s = none := hstuck .child
  have hparent : Handshake.parentStep s = none := hstuck .parent
  unfold Handshake.parentStep at hparent
  cases hpc : s.parentPc <;> rw [hpc] at hparent hwaits <;> cases hwaits
  case closeWrite => cases hparent
  case read =>
    cases hs : s.childPc.silent with
    | true =>
      unfold Handshake.childStep at hchild
      cases hcpc : s.childPc <;> rw [hcpc] at hchild hs
      case running | ended => cases hs
      all_goals cases hchild
    | false =>
      have hdata := ((h.spoken hs).resolve_right (not_heard_of_waits (by rw [hpc]; rfl))).2
      obtain ⟨hpos, hle⟩ := length_said c
      rw [Pipe.read_message (by rw [hdata]; exact List.length_pos_iff.mp hpos)
        (by rw [hdata]; exact hle)] at hparent
      cases hparent

/-- **How a handshake ends**: with what the parent makes of the first message. -/
theorem Inv.ends (h : Inv c s) (hstuck : Stuck (Handshake.step c) s) :
    s.parentPc = .done ∧ afterRead (said c) = .store s.pid ∨
      s.parentPc = afterRead (said c) ∧ ∀ newPid, afterRead (said c) ≠ .store newPid := by
  have hparent : Handshake.parentStep s = none := hstuck .parent
  have hwaits : s.parentPc.waits = false := by
    by_contra hw
    exact h.not_stuck (by simpa using hw) hstuck
  rcases (h.heard hwaits).2 with hread | ⟨hstored, hpc | hpc⟩
  · refine .inr ⟨hread, fun newPid hstore => ?_⟩
    rw [Handshake.parentStep, hread, hstore] at hparent
    cases hparent
  · rw [Handshake.parentStep, hpc] at hparent
    cases hparent
  · exact .inl ⟨hpc, hstored⟩

end inv

/-! ## Whether the handshake reports the truth -/

/-- The pid to record: that of the script, if it runs. -/
def Child.truth (c : Child) : BitVec 32 := if c.outcome = .execSucceeds then c.pid else 0

/-- Every run of the two to its end records the truth. -/
def Tells (c : Child) (pid : BitVec 32) : Prop :=
  ∀ as s, runs (step c) as (start pid) = some s → Stuck (step c) s →
    s.parentPc = .done ∧ s.pid = c.truth

theorem inv_of_runs {c : Child} {pid : BitVec 32} {as : List Actor} {s : State}
    (h : runs (step c) as (start pid) = some s) : Inv c s :=
  runs_inv Inv.step (inv_start c pid) h

/-- The interleaving does not matter. -/
theorem tells_iff_afterRead (c : Child) (pid : BitVec 32) :
    Tells c pid ↔ afterRead (said c) = .store c.truth := by
  constructor
  · intro h
    obtain ⟨as, s, hrun, hstuck⟩ := @exists_stuck _ _ (step c) _ rank_step (start pid)
    obtain ⟨hdone, hpid⟩ := h as s hrun hstuck
    rcases (inv_of_runs hrun).ends hstuck with ⟨-, hstored⟩ | ⟨hread, -⟩
    · rw [hstored, hpid]
    · rw [hdone] at hread
      rcases afterRead_cases (said c) with h | ⟨newPid, h⟩ | h <;> rw [h] at hread <;>
        cases hread
  · intro h as s hrun hstuck
    rcases (inv_of_runs hrun).ends hstuck with ⟨hdone, hstored⟩ | ⟨-, hnever⟩
    · exact ⟨hdone, (ParentPc.store.inj (h.symm.trans hstored)).symm⟩
    · exact absurd h (hnever _)

/-- **The handshake reports the truth** exactly where the child cannot change to the folder,
or the script runs under a pid of nine digits at most. -/
theorem tells_iff (c : Child) (pid : BitVec 32) :
    Tells c pid ↔ c.outcome = .chdirFails ∨
      c.outcome = .execSucceeds ∧ c.pid.toNat < 10 ^ 9 := by
  rw [tells_iff_afterRead, afterRead_said, Child.truth]
  have hpid : c.pid ≠ 0 := fun hzero => by
    have := c.positive
    rw [hzero] at this
    exact absurd this (by decide)
  by_cases hchdir : c.outcome = .chdirFails
  · simp [hchdir]
  rw [if_neg hchdir, or_iff_right hchdir]
  by_cases hfits : c.pid.toNat < 10 ^ 9
  · rw [if_pos hfits, and_iff_left hfits]
    by_cases hexec : c.outcome = .execSucceeds
    · simp [hexec]
    · simpa [hexec] using hpid
  · rw [if_neg hfits]
    exact iff_of_false (fun h => by cases h) fun h => hfits h.2

def noScript : Child := ⟨7, by decide, .scriptMissing⟩

/-- The child is dead and its pid is recorded: both move in turn, and the `0` that was to
report the missing script is written to a closed descriptor. -/
theorem not_tells : ¬∀ (c : Child) (pid : BitVec 32), Tells c pid := by
  intro h
  have hrun : runs (step noScript)
      [.parent, .child, .child, .child, .child, .child, .child, .parent, .parent, .parent]
      (start 0) = some ⟨⟨[], 0, 0⟩, .ended, false, .done, 7⟩ := by decide
  have hstuck : Stuck (step noScript) ⟨⟨[], 0, 0⟩, .ended, false, .done, 7⟩ := by
    rintro (_ | _) <;> rfl
  exact absurd (h noScript 0 _ _ hrun hstuck).2 (by decide)

end MiniRunner.Handshake
