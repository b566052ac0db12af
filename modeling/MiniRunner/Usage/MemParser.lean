import MiniRunner.Clib.Decimal
import MiniRunner.Clib.Loop
import MiniRunner.Clib.Pieces
import MiniRunner.Recovery.Backups

/-!
# The parser of the process status

`res_man/usage/parser/mem_parser.c`. `memoryParse` goes over the text of `/proc/<pid>/status`
with a state machine: it looks for a name that ends with a colon, and behind a name that it
knows for a value that ends with the line. Allocations succeed. The length of the text is an
`int`; the caller reads at most 1023 bytes.

`scan_line` is the step lemma: a line changes the field that its key names, whatever colons
its value holds.
-/

namespace MiniRunner

open Clib

namespace ProcParser

/-! ## The model -/

/-- `giveString` of both parsers. -/
def giveString (string : CStr) (startIndex endingIndex : Nat) : Except Halt CStr :=
  if startIndex ≤ endingIndex ∧ endingIndex ≤ string.len then
    pure (.ofBytes ((string.bytes.take endingIndex).drop startIndex))
  else throw .undefined

/-- `enum Things`. -/
inductive Things where
  | stack | heap | ram | disk | threads | unwanted
  deriving DecidableEq

def isUseFull (name : CStr) : Things :=
  if name = .ofText "VmStk" then .stack
  else if name = .ofText "VmData" then .heap
  else if name = .ofText "VmSwap" then .disk
  else if name = .ofText "VmRSS" then .ram
  else if name = .ofText "Threads" then .threads
  else .unwanted

/-- A blank of `giveStart`. -/
def isBlank (b : UInt8) : Bool := b == 32 || b == 9

/-- `giveStart`: the first index from `index` on that is not blank. -/
def giveStart (data : CStr) (index : Nat) : Except Halt Nat :=
  if intSize data.len = 0 then throw .aborted
  else
    match ((sized data.bytes).drop index).findIdx? fun b => !isBlank b with
    | some k => pure (index + k)
    | none => pure index

structure Meminfo where
  disk : Option CStr
  heap : Option CStr
  stack : Option CStr
  vmrss : Option CStr
  numThreads : BitVec 32
  deriving DecidableEq

inductive Find where
  | name | value
  deriving DecidableEq

/-- The variables of `memoryParse`. -/
structure MemScan where
  state : Find
  memResult : Meminfo
  lastIndex : Nat
  currentThing : Things

def colon : UInt8 := 58

/-- The `else if` chain that stores a value. -/
def Meminfo.store (m : Meminfo) (value : CStr) : Things → Meminfo
  | .stack => { m with stack := some value }
  | .heap => { m with heap := some value }
  | .ram => { m with vmrss := some value }
  | .disk => { m with disk := some value }
  | .threads => { m with numThreads := atoi value }
  | .unwanted => m

def memStep (data : CStr) (i : Nat) (s : MemScan) : Except Halt MemScan :=
  match s.state with
  | .name =>
    if data.bytes[i]? = some colon then do
      let name ← giveString data s.lastIndex i
      if isUseFull name ≠ .unwanted then
        pure { s with currentThing := isUseFull name, lastIndex := i + 1, state := .value }
      else pure s
    else if data.bytes[i]? = some newline then pure { s with lastIndex := i + 1 }
    else pure s
  | .value =>
    if data.bytes[i]? = some newline then do
      let startingIndex ← giveStart data s.lastIndex
      let value ← giveString data startingIndex i
      pure { s with
        memResult := s.memResult.store value s.currentThing, lastIndex := i + 1, state := .name }
    else pure s

/-- `memResult` before the loop. -/
def noMeminfo : Meminfo := ⟨none, none, none, none, 0⟩

def memoryParse (data : CStr) : Except Halt Meminfo :=
  if intSize data.len = 0 then throw .aborted
  else do
    let s ← forFrom (memStep data) 0 (intSize data.len).toNat ⟨.name, noMeminfo, 0, .unwanted⟩
    pure s.memResult

/-! ## What a status text says -/

/-- A line `key:value`. -/
structure StatusLine where
  key : CStr
  value : CStr
  keyNoColon : colon ∉ key.bytes
  keyOneLine : newline ∉ key.bytes
  valueOneLine : newline ∉ value.bytes

namespace StatusLine

def bytes (l : StatusLine) : Bytes := l.key.bytes ++ colon :: (l.value.bytes ++ [newline])

theorem noNul (l : StatusLine) : (0 : UInt8) ∉ l.bytes := by
  simp [bytes, l.key.noNul, l.value.noNul, colon, newline]

/-- The value without the blanks and tabs that it starts with. -/
def content (l : StatusLine) : CStr := .ofBytes (l.value.bytes.dropWhile isBlank)

def thing (l : StatusLine) : Things := isUseFull l.key

end StatusLine

def statusText (lines : List StatusLine) : CStr :=
  ⟨lines.flatMap (·.bytes), fun h => by
    obtain ⟨l, -, hl⟩ := List.mem_flatMap.mp h
    exact l.noNul hl⟩

def lastContent (lines : List StatusLine) (name : String) : Option CStr :=
  ((lines.filter (·.key = .ofText name)).getLast?).map (·.content)

def meminfoOf (lines : List StatusLine) : Meminfo where
  disk := lastContent lines "VmSwap"
  heap := lastContent lines "VmData"
  stack := lastContent lines "VmStk"
  vmrss := lastContent lines "VmRSS"
  numThreads := (lastContent lines "Threads").elim 0 atoi

/-! ## A line -/

section line

variable {data : CStr} {rest : Bytes} {o : Nat}

theorem giveString_of_drop {part : Bytes} (h : data.bytes.drop o = part ++ rest)
    (hne : part ++ rest ≠ []) {k : Nat} (hk : k ≤ part.length) :
    giveString data (o + k) (o + part.length) = pure (.ofBytes (part.drop k)) := by
  have hlen := length_of_drop h hne
  have hrange : o + k ≤ o + part.length ∧ o + part.length ≤ data.len := by
    rw [CStr.len]
    omega
  rw [giveString, if_pos hrange, ← List.drop_drop, drop_take_of_drop h]

theorem ofBytes_of_drop {part : Bytes} (h : data.bytes.drop o = part ++ rest) :
    (CStr.ofBytes part).bytes = part := by
  refine CStr.ofBytes_bytes_of_noNul fun hnul => data.noNul (List.mem_of_mem_drop (i := o) ?_)
  rw [h]
  exact List.mem_append_left rest hnul

/-- `giveStart` stops at the latest at the newline. -/
theorem giveStart_of_drop {part : Bytes} (hsize : data.len < 2 ^ 31)
    (h : data.bytes.drop o = part ++ newline :: rest) :
    giveStart data o = pure (o + part.findIdx fun b => !isBlank b) := by
  have hlen := length_of_drop h (by simp)
  have hzero : intSize data.len ≠ 0 := by
    rw [intSize_of_lt hsize, CStr.len, hlen, List.length_cons]
    omega
  have hfind : (part ++ newline :: rest).findIdx? (fun b => !isBlank b) =
      some (part.findIdx fun b => !isBlank b) := by
    have hnewline : List.findIdx (fun b => !isBlank b) (newline :: rest) = 0 := rfl
    have hle : part.findIdx (fun b => !isBlank b) ≤ part.length := List.findIdx_le_length
    rw [List.findIdx?_eq_some_of_exists ⟨newline, by simp, rfl⟩, List.findIdx_append, hnewline]
    split <;> congr 1
    omega
  rw [giveStart, if_neg hzero, (sized_eq_self_iff _).mpr hsize, h, hfind]

theorem isUseFull_of_colon {name : CStr} (h : colon ∈ name.bytes) :
    isUseFull name = .unwanted := by
  have hne (text : String) (htext : colon ∉ (CStr.ofText text).bytes) : name ≠ .ofText text := by
    rintro rfl
    exact htext h
  rw [isUseFull, if_neg (hne _ (by decide)), if_neg (hne _ (by decide)), if_neg (hne _ (by decide)),
    if_neg (hne _ (by decide)), if_neg (hne _ (by decide))]

theorem scan_skip {part : Bytes} {s : MemScan} (h : data.bytes.drop o = part ++ rest)
    (hnewline : newline ∉ part) (hcolon : s.state = .name → colon ∉ part) :
    forFrom (memStep data) o part.length s = pure s := by
  refine forFrom_idle fun i hle hlt => ?_
  obtain ⟨k, rfl⟩ := Nat.exists_eq_add_of_le hle
  have hbyte := getElem?_of_drop h (k := k) (by omega)
  have hne (b : UInt8) (hb : b ∉ part) : data.bytes[o + k]? ≠ some b := fun heq =>
    hb (List.mem_of_getElem? (hbyte.symm.trans heq))
  rw [memStep]
  cases hstate : s.state with
  | name => simp only [if_neg (hne colon (hcolon hstate)), if_neg (hne newline hnewline)]
  | value => simp only [if_neg (hne newline hnewline)]

/-- Rounds over the value of a line whose name was not wanted: whatever colons it has, the
name that is cut out at each of them starts with the one before. -/
theorem scan_unwanted {key value : Bytes} {s : MemScan} (hs : s.state = .name)
    (hlast : s.lastIndex = o) (h : data.bytes.drop o = key ++ colon :: (value ++ rest))
    (hvalue : newline ∉ value) :
    forFrom (memStep data) (o + key.length + 1) value.length s = pure s := by
  refine forFrom_idle fun i hle hlt => ?_
  obtain ⟨k, rfl⟩ := Nat.exists_eq_add_of_le hle
  have hk : k < value.length := by omega
  have hnewline : data.bytes[o + key.length + 1 + k]? ≠ some newline := by
    rw [getElem?_of_drop (drop_next h) hk]
    exact fun heq => hvalue (List.mem_of_getElem? heq)
  have hname : data.bytes.drop o = (key ++ colon :: value.take k) ++ (value.drop k ++ rest) := by
    simp [h, ← List.append_assoc (value.take k)]
  have hcut := giveString_of_drop hname (by simp) (Nat.zero_le _)
  have hend : o + (key ++ colon :: value.take k).length = o + key.length + 1 + k := by
    simp [List.length_take, Nat.min_eq_left (Nat.le_of_lt hk)]
    omega
  rw [hend, Nat.add_zero, List.drop_zero] at hcut
  rw [memStep]
  have hthing : isUseFull (.ofBytes (key ++ colon :: value.take k)) = .unwanted :=
    isUseFull_of_colon (by simp [ofBytes_of_drop hname])
  simp only [hs, hlast, hcut, pure_bind, hthing, if_neg hnewline, ne_eq, not_true_eq_false,
    if_false, ite_self]

theorem scan_colon (key : CStr) {s : MemScan} (hs : s.state = .name) (hlast : s.lastIndex = o)
    (h : data.bytes.drop o = key.bytes ++ colon :: rest) :
    memStep data (o + key.bytes.length) s =
      pure (if isUseFull key ≠ .unwanted then
        { s with
          currentThing := isUseFull key, lastIndex := o + key.bytes.length + 1, state := .value }
      else s) := by
  have hname := giveString_of_drop h (by simp) (Nat.zero_le _)
  rw [Nat.add_zero, List.drop_zero, CStr.ofBytes_bytes] at hname
  rw [memStep]
  simp only [hs, hlast, if_pos (getElem?_behind h), hname, pure_bind]
  split <;> rfl

theorem scan_newline (hsize : data.len < 2 ^ 31) {value : Bytes} {s : MemScan}
    (hs : s.state = .value) (hlast : s.lastIndex = o)
    (h : data.bytes.drop o = value ++ newline :: rest) :
    memStep data (o + value.length) s =
      pure { s with
        memResult := s.memResult.store (.ofBytes (value.dropWhile isBlank)) s.currentThing
        lastIndex := o + value.length + 1
        state := .name } := by
  have hcut := giveString_of_drop h (by simp) (k := value.findIdx fun b => !isBlank b)
    List.findIdx_le_length
  rw [← List.dropWhile_eq_drop_findIdx_not] at hcut
  rw [memStep]
  simp only [hs, hlast, if_pos (getElem?_behind h), giveStart_of_drop hsize h, pure_bind, hcut]

/-- **A line** stores its value where its key says. -/
theorem scan_line (hsize : data.len < 2 ^ 31) (l : StatusLine) {s : MemScan}
    (hs : s.state = .name) (hlast : s.lastIndex = o) (h : data.bytes.drop o = l.bytes ++ rest) :
    ∃ thing, forFrom (memStep data) o l.bytes.length s =
      pure ⟨.name, s.memResult.store l.content l.thing, o + l.bytes.length, thing⟩ := by
  have hlength : l.bytes.length = l.key.bytes.length + (1 + (l.value.bytes.length + 1)) := by
    simp [StatusLine.bytes]
    omega
  have hkey : data.bytes.drop o =
      l.key.bytes ++ colon :: (l.value.bytes ++ newline :: rest) := by
    simp [h, StatusLine.bytes]
  have hvalue := drop_next hkey
  have hend : o + l.bytes.length = o + l.key.bytes.length + 1 + l.value.bytes.length + 1 := by
    omega
  rw [hend, hlength, forFrom_add, scan_skip hkey l.keyOneLine fun _ => l.keyNoColon, pure_bind,
    forFrom_add, forFrom_one, scan_colon l.key hs hlast hkey, pure_bind]
  by_cases hthing : isUseFull l.key = .unwanted
  · refine ⟨s.currentThing, ?_⟩
    rw [if_neg (not_not.mpr hthing), forFrom_add, scan_unwanted hs hlast hkey l.valueOneLine,
      pure_bind, forFrom_one, memStep]
    have hcolon : data.bytes[o + l.key.bytes.length + 1 + l.value.bytes.length]? ≠ some colon := by
      rw [getElem?_behind hvalue]
      decide
    simp only [hs, if_neg hcolon, if_pos (getElem?_behind hvalue), StatusLine.thing, hthing,
      Meminfo.store]
  · refine ⟨isUseFull l.key, ?_⟩
    have hskip := scan_skip hvalue l.valueOneLine (s := { s with
      currentThing := isUseFull l.key, lastIndex := o + l.key.bytes.length + 1, state := .value })
      (by intro hname; cases hname)
    rw [if_pos hthing, forFrom_add, hskip, pure_bind, forFrom_one]
    exact scan_newline hsize rfl rfl hvalue

/-- **The lines in turn.** -/
theorem scan_lines (hsize : data.len < 2 ^ 31) {lines : List StatusLine} {s : MemScan}
    (hs : s.state = .name) (hlast : s.lastIndex = o)
    (h : data.bytes.drop o = lines.flatMap (·.bytes) ++ rest) :
    ∃ last thing, forFrom (memStep data) o (lines.flatMap (·.bytes)).length s =
      pure ⟨.name, lines.foldl (fun m l => m.store l.content l.thing) s.memResult, last,
        thing⟩ := by
  induction lines generalizing o s with
  | nil =>
    obtain ⟨state, memResult, lastIndex, currentThing⟩ := s
    cases hs
    exact ⟨lastIndex, currentThing, rfl⟩
  | cons l lines ih =>
    rw [List.flatMap_cons, List.append_assoc] at h
    obtain ⟨thing, hline⟩ := scan_line hsize l hs hlast h
    have hrest : data.bytes.drop (o + l.bytes.length) = lines.flatMap (·.bytes) ++ rest := by
      rw [← List.drop_drop, h, List.drop_left]
    obtain ⟨last, thing, hlines⟩ := ih (s := ⟨.name, s.memResult.store l.content l.thing,
      o + l.bytes.length, thing⟩) rfl rfl hrest
    refine ⟨last, thing, ?_⟩
    rw [List.flatMap_cons, List.length_append, forFrom_add, hline, pure_bind, hlines,
      List.foldl_cons]

end line

/-! ## The last line of each name -/

theorem lastContent_concat (lines : List StatusLine) (l : StatusLine) (name : String) :
    lastContent (lines ++ [l]) name =
      if l.key = .ofText name then some l.content else lastContent lines name := by
  by_cases hkey : l.key = .ofText name
  · rw [lastContent, List.filter_append, List.filter_singleton]
    simp [hkey]
  · rw [lastContent, List.filter_append, List.filter_singleton]
    simp [hkey, lastContent]

theorem meminfoOf_concat (lines : List StatusLine) (l : StatusLine) :
    meminfoOf (lines ++ [l]) = (meminfoOf lines).store l.content l.thing := by
  simp only [meminfoOf, lastContent_concat, StatusLine.thing]
  by_cases hstack : l.key = .ofText "VmStk"
  · simp +decide [hstack, isUseFull, Meminfo.store]
  by_cases hheap : l.key = .ofText "VmData"
  · simp +decide [hheap, isUseFull, Meminfo.store]
  by_cases hdisk : l.key = .ofText "VmSwap"
  · simp +decide [hdisk, isUseFull, Meminfo.store]
  by_cases hram : l.key = .ofText "VmRSS"
  · simp +decide [hram, isUseFull, Meminfo.store]
  by_cases hthreads : l.key = .ofText "Threads"
  · simp +decide [hthreads, isUseFull, Meminfo.store]
  · simp only [isUseFull, hstack, hheap, hdisk, hram, hthreads, if_false, Meminfo.store]

theorem foldl_store (lines : List StatusLine) :
    lines.foldl (fun m l => m.store l.content l.thing) noMeminfo = meminfoOf lines := by
  induction lines using List.reverseRecOn with
  | nil => rfl
  | append_singleton lines l ih => rw [List.foldl_concat, ih, meminfoOf_concat]

/-- The lines that name something the parser looks for. -/
def wanted (lines : List StatusLine) : List StatusLine :=
  lines.filter (·.thing ≠ .unwanted)

theorem meminfoOf_wanted (lines : List StatusLine) :
    meminfoOf (wanted lines) = meminfoOf lines := by
  induction lines using List.reverseRecOn with
  | nil => rfl
  | append_singleton lines l ih =>
    rw [wanted, List.filter_append, List.filter_singleton, meminfoOf_concat, ← ih]
    by_cases hthing : l.thing = .unwanted
    · simp [hthing, Meminfo.store, wanted]
    · simp [hthing, meminfoOf_concat, wanted]

/-- **The parser extracts the right fields**: the last line of each name, whatever the other
lines are. -/
theorem memoryParse_statusText {lines : List StatusLine} (hne : lines ≠ [])
    (hsize : (statusText lines).len < 2 ^ 31) :
    memoryParse (statusText lines) = .ok (meminfoOf lines) ∧
      meminfoOf lines = meminfoOf (wanted lines) := by
  have hpos : (statusText lines).len ≠ 0 := by
    obtain ⟨l, lines, rfl⟩ := List.exists_cons_of_ne_nil hne
    simp [CStr.len, statusText, StatusLine.bytes]
  have hdrop : (statusText lines).bytes.drop 0 = lines.flatMap (·.bytes) ++ [] :=
    (List.append_nil _).symm
  obtain ⟨last, thing, hscan⟩ :=
    scan_lines hsize (s := ⟨.name, noMeminfo, 0, .unwanted⟩) rfl rfl hdrop
  have hlen : (intSize (statusText lines).len).toNat = (lines.flatMap (·.bytes)).length := by
    rw [intSize_of_lt hsize]
    rfl
  refine ⟨?_, (meminfoOf_wanted lines).symm⟩
  rw [memoryParse, if_neg (by rw [intSize_of_lt hsize]; omega), hlen, hscan, foldl_store]
  rfl

def twoLines : List StatusLine :=
  [⟨.ofText "VmRSS", .ofText "\t 4 kB", by decide, by decide, by decide⟩,
    ⟨.ofText "Threads", .ofText "\t3", by decide, by decide, by decide⟩]

/-- They are parsed. -/
theorem memoryParse_statusText_twoLines :
    memoryParse (statusText twoLines) = .ok (meminfoOf twoLines) ∧
      meminfoOf twoLines = meminfoOf (wanted twoLines) :=
  memoryParse_statusText (List.cons_ne_nil _ _) (by decide)

end ProcParser

end MiniRunner
