import MiniRunner.Base
import MiniRunner.Clib.Loop
import MiniRunner.Clib.Pieces

/-!
# The tokenizer of scripts

`mrn_interpreter/parser/parse.c`. `getParse` cuts a command line at its blanks and stores the
words in `mrn_exec->commands`, with a NULL behind them. The array starts with 20 slots. When
`capacity` words are stored it is reallocated, but the new pointer is not stored and
`capacity` becomes the size in bytes; what `realloc` does is a parameter, other allocations
succeed. Each write is kept with its index and with the slots that `commands` has at that
moment, wherever it goes.

`getParse_eq` says that what is written depends on the words alone; what the array holds of it
in the end is `MrnExec.stored`.
-/

namespace MiniRunner

open Clib

namespace Interpreter

/-! ## The model -/

def initialScaleNumArgs : Nat := 20

/-- What `realloc` does with a block that is to grow. -/
inductive Realloc where
  | fails | moves | inPlace
  deriving DecidableEq

/-- A write to `commands`: a word, or the NULL at the end. -/
structure ArgWrite where
  index : Nat
  /-- The slots of the allocation that `commands` points to; a freed one has none. -/
  slots : Nat
  word : Option CStr

/-- `mrnExec`, with what its pointer `commands` points to: a number of slots, and whether
it is the block that was allocated last. -/
structure MrnExec where
  capacity : Nat
  numbers : Nat
  slots : Nat
  current : Bool
  writes : List ArgWrite

/-- A call of `giveString` on a string of `length` bytes. -/
structure Slice where
  length : Nat
  start : Nat
  stop : Nat

/-- `found`, and the block that the words go into. -/
structure Args where
  found : Nat
  exec : MrnExec

structure Parse where
  lastIndex : Nat
  args : Args
  slices : List Slice

def giveString (string : CStr) (startingIndex endingIndex : Nat) : CStr :=
  .ofBytes ((string.bytes.take endingIndex).drop startingIndex)

/-- `mrn_exec->commands[found++] = word`. -/
def Args.store (a : Args) (word : Option CStr) : Args where
  found := a.found + 1
  exec := { a.exec with writes := a.exec.writes ++ [⟨a.found, a.exec.slots, word⟩] }

def newCapacity (e : MrnExec) : Nat := pointerSize * (e.capacity + initialScaleNumArgs)

/-- The growth. A block that moves leaves `commands` pointing to freed memory. -/
def grow (realloc : Nat → Realloc) (e : MrnExec) : Option MrnExec :=
  match realloc (newCapacity e) with
  | .fails => none
  | .moves => some { e with capacity := newCapacity e, slots := 0, current := false }
  | .inPlace =>
    some { e with
      capacity := newCapacity e
      slots := if e.current then newCapacity e / pointerSize else 0 }

/-- Store a word, in a block that has room for it by its capacity. -/
def Args.add (realloc : Nat → Realloc) (a : Args) (word : CStr) : Except Args Args :=
  if a.exec.capacity ≤ a.found then
    match grow realloc a.exec with
    | none => .error a
    | some e => .ok ({ a with exec := e }.store (some word))
  else .ok (a.store (some word))

section parse

variable (realloc : Nat → Realloc) (command : CStr) (len : Nat)

/-- Cut the word that ends at `endingIndex` and store it. -/
def addWord (s : Parse) (endingIndex next : Nat) : Except Parse Parse :=
  let slices := s.slices ++ [⟨command.len, s.lastIndex, endingIndex⟩]
  match s.args.add realloc (giveString command s.lastIndex endingIndex) with
  | .error a => .error ⟨s.lastIndex, a, slices⟩
  | .ok a => .ok ⟨next, a, slices⟩

/-- One round of the loop: the words end at the blanks and at the last index. -/
def parseStep (i : Nat) (s : Parse) : Except Parse Parse :=
  if command.bytes[i]? = some space then addWord realloc command s i (i + 1)
  else if i = len - 1 then addWord realloc command s len (i + 1)
  else .ok s

def firstArgs : Args := ⟨0, ⟨initialScaleNumArgs, 0, initialScaleNumArgs, true, []⟩⟩

/-- The NULL at the end, and the count with it. -/
def Args.finish (a : Args) : Args where
  found := (a.store none).found
  exec := { (a.store none).exec with numbers := (a.store none).found }

/-- `getParse`; an error is the NULL it returns when a reallocation fails. -/
def getParse : Except Parse Parse :=
  match forFrom (parseStep realloc command len) 0 len ⟨0, firstArgs, []⟩ with
  | .error s => .error s
  | .ok s => .ok { s with args := s.args.finish }

end parse

/-! ## The words -/

def commandWords (command : CStr) : List CStr := (pieces space command.bytes).map CStr.ofBytes

def storeAll (realloc : Nat → Realloc) (command : CStr) : Except Args Args :=
  (commandWords command).foldlM (Args.add realloc) firstArgs

def Slice.InBounds (s : Slice) : Prop := s.start ≤ s.stop ∧ s.stop ≤ s.length

variable {realloc : Nat → Realloc} {command : CStr}

theorem giveString_bytes (command : CStr) (i j : Nat) :
    (giveString command i j).bytes = (command.bytes.take j).drop i :=
  CStr.ofBytes_bytes_of_noNul fun h =>
    command.noNul (List.mem_of_mem_take (List.mem_of_mem_drop h))

theorem map_bytes_commandWords (command : CStr) :
    (commandWords command).map (·.bytes) = pieces space command.bytes := by
  rw [commandWords, List.map_map]
  refine (List.map_congr_left fun p hp => ?_).trans (List.map_id _)
  refine CStr.ofBytes_bytes_of_noNul fun hnul => command.noNul ?_
  exact mem_of_mem_pieces hp hnul

theorem eq_of_map_bytes {l l' : List CStr} (h : l.map (·.bytes) = l'.map (·.bytes)) : l = l' :=
  List.map_injective_iff.mpr (fun _ _ => CStr.ext) h

theorem exists_commandWords {done : List CStr} {rest : List Bytes}
    (h : pieces space command.bytes = done.map (·.bytes) ++ rest) :
    ∃ more, commandWords command = done ++ more := by
  rw [← map_bytes_commandWords] at h
  obtain ⟨l, more, hwords, hl, -⟩ := List.map_eq_append_iff.mp h
  exact ⟨more, by rw [hwords, eq_of_map_bytes hl]⟩

/-- What the loop has done before index `i`. -/
structure Reached (realloc : Nat → Realloc) (command : CStr) (i : Nat) (s : Parse) : Prop where
  inBounds : ∀ c ∈ s.slices, c.InBounds
  atEnd : i = command.len → s.lastIndex = command.len
  cut : ∃ done : List CStr, Cut space command.bytes i s.lastIndex (done.map (·.bytes)) ∧
    done.foldlM (Args.add realloc) firstArgs = .ok s.args

structure Failed (realloc : Nat → Realloc) (command : CStr) (s : Parse) : Prop where
  inBounds : ∀ c ∈ s.slices, c.InBounds
  stored : storeAll realloc command = .error s.args

theorem inBounds_append {l : List Slice} {c : Slice} (hl : ∀ c ∈ l, c.InBounds)
    (hc : c.InBounds) : ∀ d ∈ l ++ [c], d.InBounds := by
  simpa [or_imp, forall_and] using ⟨hl, hc⟩

/-- A word is cut: it is the next one, and it is stored. -/
theorem results_addWord {i endingIndex : Nat} {s : Parse} (h : Reached realloc command i s)
    (hstop : i ≤ endingIndex) (hle : endingIndex ≤ command.len)
    (hcut : ∀ done, Cut space command.bytes i s.lastIndex done →
      Cut space command.bytes (i + 1) (i + 1)
        (done ++ [(command.bytes.take endingIndex).drop s.lastIndex])) :
    Results (Reached realloc command (i + 1)) (Failed realloc command)
      (addWord realloc command s endingIndex (i + 1)) := by
  obtain ⟨done, hdone, hfold⟩ := h.cut
  have hnext := hcut _ hdone
  have hlist : ∀ word : CStr, word = giveString command s.lastIndex endingIndex →
      done.map (·.bytes) ++ [(command.bytes.take endingIndex).drop s.lastIndex] =
        (done ++ [word]).map (·.bytes) := by
    rintro _ rfl
    rw [List.map_append, List.map_singleton, giveString_bytes]
  have hslices : ∀ c ∈ s.slices ++ [⟨command.len, s.lastIndex, endingIndex⟩],
      c.InBounds := inBounds_append h.inBounds ⟨Nat.le_trans hdone.last_le hstop, hle⟩
  rw [addWord]
  generalize hword : giveString command s.lastIndex endingIndex = word
  rw [hlist word hword.symm] at hnext
  cases hadd : s.args.add realloc word with
  | ok a =>
    refine ⟨hslices, fun _ => by assumption, done ++ [word], hnext, ?_⟩
    rw [List.foldlM_append, hfold]
    exact congrArg (· >>= pure) hadd
  | error a =>
    obtain ⟨more, hmore⟩ := exists_commandWords hnext.whole
    refine ⟨hslices, ?_⟩
    rw [storeAll, hmore, List.append_assoc, List.foldlM_append, hfold]
    show (s.args.add realloc word >>= fun a => more.foldlM (Args.add realloc) a) = .error a
    rw [hadd]
    rfl

theorem results_parseStep {i : Nat} {s : Parse} (hi : i < command.len)
    (h : Reached realloc command i s) :
    Results (Reached realloc command (i + 1)) (Failed realloc command)
      (parseStep realloc command command.len i s) := by
  rw [parseStep]
  split
  · rename_i hspace
    exact results_addWord h (Nat.le_refl i) (Nat.le_of_lt hi) fun done hdone => hdone.cut hspace
  · rename_i hspace
    split
    · rename_i hlast
      have hlen : i + 1 = command.len := by omega
      refine results_addWord h (Nat.le_of_lt hi) (Nat.le_refl _) fun done hdone => ?_
      have hcut := hdone.finish hlen hspace
      rwa [CStr.len, List.take_length]
    · rename_i hlast
      obtain ⟨done, hdone, hfold⟩ := h.cut
      refine ⟨h.inBounds, fun hend => by omega, done, hdone.skip hi hspace, hfold⟩

/-- **`getParse` writes the words**, one after another and a NULL behind them, or all up to
the one for which there was no memory; `giveString` stays in the string. -/
theorem getParse_eq (realloc : Nat → Realloc) (command : CStr) :
    Results (fun s => (∀ c ∈ s.slices, c.InBounds) ∧
        ∃ a, storeAll realloc command = .ok a ∧ s.args = a.finish)
      (Failed realloc command) (getParse realloc command command.len) := by
  have hstart : Reached realloc command 0 ⟨0, firstArgs, []⟩ :=
    ⟨by simp, id, [], .start, rfl⟩
  have hloop : Results (Reached realloc command (0 + command.len)) (Failed realloc command)
      (forFrom (parseStep realloc command command.len) 0 command.len ⟨0, firstArgs, []⟩) :=
    results_forFrom (fun _ hlt h => results_parseStep (by omega) h) hstart
  rw [getParse]
  cases hend : forFrom (parseStep realloc command command.len) 0 command.len ⟨0, firstArgs, []⟩ with
  | error s =>
    rw [hend] at hloop
    exact hloop
  | ok s =>
    rw [hend, Nat.zero_add] at hloop
    obtain ⟨done, hdone, hfold⟩ := hloop.cut
    rw [hloop.atEnd rfl] at hdone
    have hwords : done = commandWords command :=
      eq_of_map_bytes (hdone.pieces_eq.trans (map_bytes_commandWords command).symm)
    exact ⟨hloop.inBounds, s.args, by rw [storeAll, ← hwords, hfold], rfl⟩

/-! ## What is stored -/

theorem writes_of_grow {e e' : MrnExec} (h : grow realloc e = some e') :
    e'.writes = e.writes := by
  unfold grow at h
  split at h <;> cases h <;> rfl

theorem fails_of_grow {e : MrnExec} (h : grow realloc e = none) :
    realloc (newCapacity e) = .fails := by
  unfold grow at h
  split at h
  · assumption
  · cases h
  · cases h

theorem results_add (realloc : Nat → Realloc) (a : Args) (word : CStr) :
    Results (fun a' => a'.found = a.found + 1 ∧
        a'.exec.writes.map (·.word) = a.exec.writes.map (·.word) ++ [some word])
      (fun _ => ∃ size, realloc size = .fails) (a.add realloc word) := by
  rw [Args.add]
  split
  · cases hgrow : grow realloc a.exec with
    | none => exact ⟨newCapacity a.exec, fails_of_grow hgrow⟩
    | some e => exact ⟨rfl, by simp [Args.store, writes_of_grow hgrow]⟩
  · exact ⟨rfl, by simp [Args.store]⟩

theorem results_foldlM_add (realloc : Nat → Realloc) (words : List CStr) (a : Args) :
    Results (fun a' => a'.found = a.found + words.length ∧
        a'.exec.writes.map (·.word) = a.exec.writes.map (·.word) ++ words.map some)
      (fun _ => ∃ size, realloc size = .fails) (words.foldlM (Args.add realloc) a) := by
  induction words generalizing a with
  | nil => exact ⟨rfl, (List.append_nil _).symm⟩
  | cons word words ih =>
    rw [List.foldlM_cons]
    refine results_bind (results_mono (results_add realloc a word) ?_ fun _ he => he)
    rintro a' ⟨hfound, hwrites⟩
    have hrest := ih a'
    rw [hfound, hwrites, List.append_assoc] at hrest
    rwa [List.length_cons, Nat.add_comm words.length 1, ← Nat.add_assoc]

/-! ## The bounds of the array -/

/-- Every write is in the allocation, and `commands` is the block that was allocated last. -/
structure Allocated (e : MrnExec) : Prop where
  inBlock : ∀ w ∈ e.writes, w.index < w.slots
  current : e.current = true

/-- Where the writes of `n` words and the NULL stay in the allocation. -/
def Fits (realloc : Nat → Realloc) (n : Nat) : Prop :=
  n < initialScaleNumArgs ∨ initialScaleNumArgs < n ∧
    (realloc (newCapacity firstArgs.exec) = .fails ∨
      n < 2 * initialScaleNumArgs ∧ realloc (newCapacity firstArgs.exec) = .inPlace)

/-- How far the words have come: the first block, the block that has grown in place, or a
write outside. -/
inductive Room (realloc : Nat → Realloc) (a : Args) : Prop where
  | first (found : a.found ≤ 20) (capacity : a.exec.capacity = 20) (slots : a.exec.slots = 20)
      (allocated : Allocated a.exec)
  | grown (found : 20 < a.found ∧ a.found ≤ 40) (capacity : a.exec.capacity = 320)
      (slots : a.exec.slots = 40) (inPlace : realloc 320 = .inPlace)
      (allocated : Allocated a.exec)
  | lost (found : 20 < a.found) (outside : ¬Allocated a.exec)
      (cause : realloc 320 = .moves ∨ realloc 320 = .inPlace ∧ 40 < a.found)

theorem newCapacity_of {e : MrnExec} {n : Nat} (h : e.capacity = n) :
    newCapacity e = 8 * (n + 20) := by
  rw [newCapacity, h]
  rfl

theorem allocated_store {a : Args} {word : Option CStr} :
    Allocated (a.store word).exec ↔ Allocated a.exec ∧ a.found < a.exec.slots := by
  constructor
  · rintro ⟨hwrites, hcurrent⟩
    refine ⟨⟨fun w hw => hwrites w (List.mem_append_left _ hw), hcurrent⟩, ?_⟩
    exact hwrites ⟨a.found, a.exec.slots, word⟩ (List.mem_append_right _ List.mem_cons_self)
  · rintro ⟨⟨hwrites, hcurrent⟩, hlt⟩
    refine ⟨fun w hw => ?_, hcurrent⟩
    rcases List.mem_append.mp hw with hw | hw
    · exact hwrites w hw
    · rw [List.mem_singleton.mp hw]
      exact hlt

/-- Where `add` ends in a state that is still to be judged, or with a failed reallocation. -/
def Stops (realloc : Nat → Realloc) (n : Nat) (a : Args) : Prop :=
  20 ≤ a.found ∧ a.found < n ∧ (realloc 320 = .fails ∧ Allocated a.exec ∨
    ¬Allocated a.exec ∧ (realloc 320 = .moves ∨ realloc 320 = .inPlace ∧ 40 < a.found))

theorem allocated_of_grow {e e' : MrnExec} (h : grow realloc e = some e') (h' : Allocated e') :
    Allocated e := by
  obtain ⟨hwrites, hcurrent⟩ := h'
  rw [writes_of_grow h] at hwrites
  unfold grow at h
  split at h <;> cases h
  · cases hcurrent
  · exact ⟨hwrites, hcurrent⟩

theorem Room.add_lost {a : Args} (hfound : 20 < a.found) (houtside : ¬Allocated a.exec)
    (hcause : realloc 320 = .moves ∨ realloc 320 = .inPlace ∧ 40 < a.found) (word : CStr)
    {n : Nat} (hn : a.found < n) :
    Results (fun a' => Room realloc a' ∧ a'.found = a.found + 1) (Stops realloc n)
      (a.add realloc word) := by
  have hstore (e : MrnExec) (he : ¬Allocated e) :
      Room realloc ({ a with exec := e }.store (some word)) := by
    refine .lost (Nat.lt_succ_of_lt hfound) (fun h => he (allocated_store.mp h).1) ?_
    exact hcause.imp_right fun h => ⟨h.1, Nat.lt_succ_of_lt h.2⟩
  rw [Args.add]
  split
  · cases hgrow : grow realloc a.exec with
    | none => exact ⟨Nat.le_of_lt hfound, hn, .inr ⟨houtside, hcause⟩⟩
    | some e => exact ⟨hstore e (mt (allocated_of_grow hgrow) houtside), rfl⟩
  · exact ⟨hstore a.exec houtside, rfl⟩

/-- The 21st word, for which the first block has no room. -/
theorem Room.add_full {a : Args} (hfound : a.found = 20) (hcapacity : a.exec.capacity = 20)
    (h : Allocated a.exec) (word : CStr) {n : Nat} (hn : a.found < n) :
    Results (fun a' => Room realloc a' ∧ a'.found = a.found + 1) (Stops realloc n)
      (a.add realloc word) := by
  have hnew : newCapacity a.exec = 320 := newCapacity_of hcapacity
  rw [Args.add, if_pos (by omega), grow, hnew]
  cases hanswer : realloc 320 with
  | fails => exact ⟨by omega, hn, .inl ⟨hanswer, h⟩⟩
  | moves =>
    refine ⟨.lost (by simp only [Args.store]; omega) (fun h' => ?_) (.inl hanswer), rfl⟩
    exact Nat.not_lt_zero _ (allocated_store.mp h').2
  | inPlace =>
    refine ⟨.grown (by simp only [Args.store]; omega) rfl ?_ hanswer (allocated_store.mpr ?_), rfl⟩
    · simp only [Args.store, if_pos h.current, pointerSize]
    · refine ⟨⟨h.inBlock, h.current⟩, ?_⟩
      simp only [if_pos h.current, pointerSize]
      omega

/-- **A word more.** -/
theorem Room.add {a : Args} (h : Room realloc a) (word : CStr) {n : Nat} (hn : a.found < n) :
    Results (fun a' => Room realloc a' ∧ a'.found = a.found + 1) (Stops realloc n)
      (a.add realloc word) := by
  cases h with
  | first hfound hcapacity hslots halloc =>
    rcases Nat.lt_or_eq_of_le hfound with hlt | hfull
    · rw [Args.add, if_neg (by omega)]
      exact ⟨.first hlt hcapacity hslots (allocated_store.mpr ⟨halloc, by omega⟩), rfl⟩
    · exact Room.add_full hfull hcapacity halloc word hn
  | grown hfound hcapacity hslots hinPlace halloc =>
    rw [Args.add, if_neg (by omega)]
    rcases Nat.lt_or_eq_of_le hfound.2 with hlt | hfull
    · refine ⟨.grown ⟨Nat.lt_succ_of_lt hfound.1, hlt⟩ hcapacity hslots hinPlace ?_, rfl⟩
      exact allocated_store.mpr ⟨halloc, by omega⟩
    · refine ⟨.lost (Nat.lt_succ_of_lt hfound.1) (fun h => ?_) (.inr ⟨hinPlace, ?_⟩), rfl⟩
      · have := (allocated_store.mp h).2
        omega
      · simp only [Args.store]
        omega
  | lost hfound houtside hcause => exact Room.add_lost hfound houtside hcause word hn

theorem Room.foldlM (words : List CStr) {a : Args} (h : Room realloc a) {n : Nat}
    (hn : a.found + words.length = n) :
    Results (fun a' => Room realloc a' ∧ a'.found = n) (Stops realloc n)
      (words.foldlM (Args.add realloc) a) := by
  induction words generalizing a with
  | nil => exact ⟨h, hn⟩
  | cons word words ih =>
    rw [List.length_cons] at hn
    rw [List.foldlM_cons]
    refine results_bind (results_mono (h.add word (by omega)) ?_ fun _ he => he)
    rintro a' ⟨hroom, hfound⟩
    exact ih hroom (by rw [hfound]; omega)

theorem Room.start (realloc : Nat → Realloc) : Room realloc firstArgs :=
  .first (Nat.zero_le _) rfl rfl ⟨by simp [firstArgs], rfl⟩

/-- The NULL behind `n` words. -/
theorem Room.finish {a : Args} (h : Room realloc a) :
    Allocated a.finish.exec ↔ Fits realloc a.found := by
  have hfinish : Allocated a.finish.exec ↔ Allocated a.exec ∧ a.found < a.exec.slots :=
    Iff.trans ⟨fun h => ⟨h.inBlock, h.current⟩, fun h => ⟨h.inBlock, h.current⟩⟩
      (@allocated_store a none)
  have hnew : newCapacity firstArgs.exec = 320 := rfl
  rw [hfinish, Fits, hnew]
  simp only [initialScaleNumArgs]
  cases h with
  | first hfound hcapacity hslots halloc =>
    rw [hslots]
    constructor
    · exact fun h => .inl h.2
    · exact fun h => ⟨halloc, h.resolve_right fun h => by omega⟩
  | grown hfound hcapacity hslots hinPlace halloc =>
    rw [hslots, hinPlace]
    constructor
    · exact fun h => .inr ⟨hfound.1, .inr ⟨h.2, rfl⟩⟩
    · intro h
      rcases h with h | ⟨-, h | h⟩
      · omega
      · cases h
      · exact ⟨halloc, h.1⟩
  | lost hfound houtside hcause =>
    refine iff_of_false (fun h => houtside h.1) fun h => ?_
    rcases h with h | ⟨-, h⟩
    · omega
    · rcases hcause with hmoves | ⟨hinPlace, hlt⟩
      · simp [hmoves] at h
      · rw [hinPlace] at h
        rcases h with h | h
        · cases h
        · omega

theorem Stops.fits {n : Nat} {a : Args} (h : Stops realloc n a) :
    Allocated a.exec ↔ Fits realloc n := by
  obtain ⟨hfound, hn, hcause⟩ := h
  have hnew : newCapacity firstArgs.exec = 320 := rfl
  rw [Fits, hnew]
  simp only [initialScaleNumArgs]
  rcases hcause with ⟨hfails, halloc⟩ | ⟨houtside, hcause⟩
  · exact iff_of_true halloc (.inr ⟨by omega, .inl hfails⟩)
  · refine iff_of_false houtside fun h => ?_
    rcases hcause with hmoves | ⟨hinPlace, hlt⟩
    · simp [hmoves] at h
      omega
    · rw [hinPlace] at h
      rcases h with h | ⟨-, h | h⟩
      · omega
      · cases h
      · omega

/-! ## What getParse does -/

/-- What `commands` holds in the end: the writes that went into its slots. Once the block has
moved it points to freed memory, which holds nothing. -/
def MrnExec.stored (e : MrnExec) : List (Option CStr) :=
  if e.current then (e.writes.filter fun w => w.index < w.slots).map (·.word) else []

def MrnExec.words (e : MrnExec) : List CStr := e.stored.filterMap id

theorem Allocated.stored {e : MrnExec} (h : Allocated e) : e.stored = e.writes.map (·.word) := by
  rw [MrnExec.stored, if_pos h.current, List.filter_eq_self.mpr fun w hw => by
    simpa using h.inBlock w hw]

theorem allocated_of_length {e : MrnExec} (hpos : 0 < e.writes.length)
    (h : e.writes.length ≤ e.stored.length) : Allocated e := by
  unfold MrnExec.stored at h
  split at h
  · rename_i hcurrent
    rw [List.length_map] at h
    have hall := List.length_filter_eq_length_iff.mp
      (Nat.le_antisymm (List.length_filter_le ..) h)
    exact ⟨fun w hw => by simpa using hall w hw, hcurrent⟩
  · simp only [List.length_nil] at h
    omega

/-- `getParse` returned: the words were written, and a NULL. -/
structure Stored (realloc : Nat → Realloc) (command : CStr) (s : Parse) : Prop where
  inBounds : ∀ c ∈ s.slices, c.InBounds
  writes : s.args.exec.writes.map (·.word) = (commandWords command).map some ++ [none]
  numbers : s.args.exec.numbers = (commandWords command).length + 1
  allocated : Allocated s.args.exec ↔ Fits realloc (commandWords command).length

/-- `getParse` gave up: there was no memory for the 21st word or a later one. -/
structure GivenUp (realloc : Nat → Realloc) (command : CStr) (s : Parse) : Prop where
  inBounds : ∀ c ∈ s.slices, c.InBounds
  cause : ∃ size, realloc size = .fails
  full : initialScaleNumArgs < (commandWords command).length
  allocated : Allocated s.args.exec ↔ Fits realloc (commandWords command).length

theorem results_getParse (realloc : Nat → Realloc) (command : CStr) :
    Results (Stored realloc command) (GivenUp realloc command)
      (getParse realloc command command.len) := by
  have hparse := getParse_eq realloc command
  have hfold := results_foldlM_add realloc (commandWords command) firstArgs
  have hroom := Room.foldlM (commandWords command) (.start realloc) (Nat.zero_add _)
  rw [← storeAll] at hfold hroom
  cases hend : getParse realloc command command.len with
  | error s =>
    rw [hend] at hparse
    rw [hparse.stored] at hfold hroom
    exact ⟨hparse.inBounds, hfold, Nat.lt_of_le_of_lt hroom.1 hroom.2.1, hroom.fits⟩
  | ok s =>
    rw [hend] at hparse
    obtain ⟨hslices, a, ha, hargs⟩ := hparse
    rw [ha] at hfold hroom
    have hfits := hroom.1.finish
    rw [hroom.2] at hfits
    refine ⟨hslices, ?_, ?_, hargs ▸ hfits⟩
    · rw [hargs, Args.finish, Args.store, List.map_append, hfold.2]
      rfl
    · rw [hargs]
      exact congrArg (· + 1) hroom.2

theorem Stored.words {s : Parse} (h : Stored realloc command s)
    (hall : Allocated s.args.exec) : s.args.exec.words = commandWords command := by
  rw [MrnExec.words, hall.stored, h.writes]
  simp [List.filterMap_append, List.filterMap_map]

/-- The words that are stored before the NULL, put together again, are the command line. -/
structure LosesNothing (command : CStr) (e : MrnExec) : Prop where
  stored : e.stored = e.words.map some ++ [none]
  noSpace : ∀ word ∈ e.words, space ∉ word.bytes
  joined : command.bytes.getLast? ≠ some space →
    [space].intercalate (e.words.map (·.bytes)) = command.bytes
  terminated : command.bytes.getLast? = some space →
    e.words.flatMap (fun word => word.bytes ++ [space]) = command.bytes
  numbers : e.numbers = e.words.length + 1

/-- In the allocation, the words are stored, and they make the line up again. -/
theorem Stored.losesNothing {s : Parse} (h : Stored realloc command s)
    (hall : Allocated s.args.exec) : LosesNothing command s.args.exec := by
  have hwords := h.words hall
  have hbytes : (commandWords command).flatMap (fun word => word.bytes ++ [space]) =
      (pieces space command.bytes).flatMap (· ++ [space]) := by
    rw [← map_bytes_commandWords, List.flatMap_map]
  refine ⟨by rw [hwords, hall.stored, h.writes], ?_, ?_, ?_, by rw [hwords, h.numbers]⟩
  · rw [hwords]
    intro word hword
    have hpiece : word.bytes ∈ pieces space command.bytes := by
      rw [← map_bytes_commandWords]
      exact List.mem_map_of_mem hword
    exact notMem_of_mem_pieces hpiece
  · rw [hwords, map_bytes_commandWords]
    exact intercalate_pieces
  · rw [hwords, hbytes]
    exact flatMap_pieces

theorem Stored.allocated_of_losesNothing {s : Parse} (h : Stored realloc command s)
    (hnothing : LosesNothing command s.args.exec) : Allocated s.args.exec := by
  have hwritten : s.args.exec.writes.length = (commandWords command).length + 1 := by
    have hlength := congrArg List.length h.writes
    simpa using hlength
  have hstored : s.args.exec.stored.length = s.args.exec.words.length + 1 := by
    rw [hnothing.stored]
    simp
  have hnumbers := hnothing.numbers.symm.trans h.numbers
  exact allocated_of_length (by omega) (by omega)

/-- **When the tokenizer loses nothing**: there are at most 19 words, or the block grows in
place for at most 39; or it cannot grow, and the words are given up. -/
theorem getParse_losesNothing_iff (realloc : Nat → Realloc) (command : CStr) :
    Results (fun s => LosesNothing command s.args.exec) (fun s => Allocated s.args.exec)
        (getParse realloc command command.len) ↔
      Fits realloc (commandWords command).length := by
  have hresults := results_getParse realloc command
  cases hend : getParse realloc command command.len with
  | error s =>
    rw [hend] at hresults
    exact hresults.allocated
  | ok s =>
    rw [hend] at hresults
    refine Iff.trans ⟨?_, ?_⟩ hresults.allocated
    · exact hresults.allocated_of_losesNothing
    · exact hresults.losesNothing

def twentyOneWords : CStr := .ofBytes ([space].intercalate (List.replicate 21 [97]))

/-- The block that 21 words need is another one, and none of them is in the array. -/
theorem not_getParse_losesNothing :
    ¬∀ (realloc : Nat → Realloc) (command : CStr),
      Results (fun s => LosesNothing command s.args.exec) (fun s => Allocated s.args.exec)
        (getParse realloc command command.len) := by
  intro h
  have hlength : (commandWords twentyOneWords).length = 21 := by decide
  have hfits : ¬Fits (fun _ => .moves) (commandWords twentyOneWords).length := by
    simp [hlength, Fits, initialScaleNumArgs]
  have hresults := results_getParse (fun _ => .moves) twentyOneWords
  have hall := h (fun _ => .moves) twentyOneWords
  cases hend : getParse (fun _ => .moves) twentyOneWords twentyOneWords.len with
  | error s =>
    rw [hend] at hresults hall
    exact hfits (hresults.allocated.mp hall)
  | ok s =>
    rw [hend] at hresults hall
    exact hfits (hresults.allocated.mp (hresults.allocated_of_losesNothing hall))

/-- **Where the array is large enough**: there are at most 19 words, or the block grows in
place for at most 39, or it cannot grow and the words are given up. -/
theorem getParse_allocated_iff (realloc : Nat → Realloc) (command : CStr) :
    Results (fun s => Allocated s.args.exec) (fun s => Allocated s.args.exec)
        (getParse realloc command command.len) ↔
      Fits realloc (commandWords command).length := by
  have hresults := results_getParse realloc command
  cases hend : getParse realloc command command.len with
  | error s =>
    rw [hend] at hresults
    exact hresults.allocated
  | ok s =>
    rw [hend] at hresults
    exact hresults.allocated

def twentyWords : CStr := .ofBytes ([space].intercalate (List.replicate 20 [97]))

/-- The NULL behind 20 words is written outside, even if blocks grow in place. -/
theorem not_getParse_allocated :
    ¬Results (fun s => Allocated s.args.exec) (fun s => Allocated s.args.exec)
      (getParse (fun _ => .inPlace) twentyWords twentyWords.len) := by
  have hresults := results_getParse (fun _ => .inPlace) twentyWords
  have hlength : (commandWords twentyWords).length = 20 := by decide
  have hfits : ¬Fits (fun _ => .inPlace) (commandWords twentyWords).length := by
    simp [hlength, Fits, initialScaleNumArgs]
  cases hend : getParse (fun _ => .inPlace) twentyWords twentyWords.len with
  | error s =>
    rw [hend] at hresults
    exact hresults.allocated.not.mpr hfits
  | ok s =>
    rw [hend] at hresults
    exact hresults.allocated.not.mpr hfits

end Interpreter

end MiniRunner
