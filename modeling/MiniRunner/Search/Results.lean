import MiniRunner.Clib.Cells
import MiniRunner.Search.Match

/-!
# Search with and without sorting

`search` of `ops/show_services.c`. Without `--sort` a row is printed for each service whose
score is not zero. With it, the iterations collect the services in an array that grows by four
slots, `qsort` sorts it and the rows are printed from it. What the code leaves open is in
`Choices`: the order of the iterations, what `qsort` does with equal scores, and what a fresh
slot holds. Each index that is used in the array is kept with the capacity of that moment.

The gaps of a row come from `defineTab`, which returns a literal for a text that fills its
column, and `search` frees what it gets. `Listable` says that no row does that.
-/

namespace MiniRunner

open Clib

namespace Search

/-! ## A row -/

/-- What `defineTab` returns: a literal, or an allocated string of blanks. -/
inductive Tab where
  | literal
  | allocated (blanks : Nat)

/-- `defineTab`; `calloc` of a negative size gives NULL, and in a block of no bytes there is no
place for the terminator. -/
def defineTab (x y : Int) : Except Halt Tab :=
  if x = y then pure .literal
  else if 2 ^ 31 ≤ y - x + 1 then throw .undefined
  else if y - x + 1 < 0 then pure .literal
  else if y - x + 1 = 0 then throw .undefined
  else pure (.allocated (y - x).toNat)

namespace Tab

def blanks : Tab → Nat
  | literal => 0
  | allocated n => n

def free : Tab → Except Halt Unit
  | literal => throw .undefined
  | allocated _ => pure ()

end Tab

inductive Printed where
  | noServices
  | header (serviceNameSearch : CStr)
  | noMatch (serviceNameSearch : CStr)
  /-- A row, with the blanks behind its name and its repository. -/
  | row (current : Service) (firstGap secondGap : Nat)

def printRow (out : List Printed) (current : Service) : Except Halt (List Printed) := do
  let firstGap ← defineTab (intSize current.name.len) 25
  let secondGap ← defineTab (intSize current.githubRepo.len) 100
  let out := out ++ [.row current firstGap.blanks secondGap.blanks]
  firstGap.free
  secondGap.free
  pure out

/-! ## The array of results -/

structure Result where
  service : Service
  score : BitVec 16

/-- The comparator, `sort_results`. -/
def sortResults (result1 result2 : Result) : Int :=
  if result1.score.toNat < result2.score.toNat then 1
  else if result2.score.toNat < result1.score.toNat then -1
  else 0

def initialScaleCapacityOfResults : Nat := 4

/-- The array grows by as many slots as it starts with. -/
def resultsGrowth : Table.Growth := fun capacity _ =>
  (capacity + initialScaleCapacityOfResults, capacity + initialScaleCapacityOfResults)

structure Use where
  index : Nat
  capacity : Nat

/-- What the code leaves open in a search of `n` services. -/
structure Choices (n : Nat) where
  /-- The iterations of the parallel loop, one after another. -/
  order : List Nat
  perm : order.Perm (List.range n)
  qsort : List Result → List Result
  qsort_perm : ∀ results, (qsort results).Perm results
  qsort_ordered : ∀ results, (qsort results).Pairwise fun a b => sortResults a b ≤ 0
  /-- What a slot holds that was not written. -/
  junk : Nat → Result

structure Collected where
  foundMatch : Bool
  results : Cells Result
  uses : List Use

/-- `(*services)[i]`. -/
def serviceAt (services : List Service) (i : Nat) : Except Halt Service :=
  match services[i]? with
  | some s => pure s
  | none => throw .undefined

/-! ## The model -/

/-- What a search has printed, and the indexes that it used. -/
structure Listing where
  out : List Printed
  uses : List Use

variable (serviceNameSearch : CStr)

/-- The loop that prints at once, for a service. -/
def printIfFound (s : Bool × List Printed) (current : Service) :
    Except Halt (Bool × List Printed) := do
  let score ← findMatch current.name serviceNameSearch
  if 0 < score.toNat then do
    let out ← printRow s.2 current
    pure (true, out)
  else pure s

/-- An iteration of the parallel loop, for a service. -/
def collectIfFound (junk : Nat → Result) (s : Collected) (current : Service) :
    Except Halt Collected := do
  let score ← findMatch current.name serviceNameSearch
  if 0 < score.toNat then do
    let grown := s.results.reserve resultsGrowth junk
    let results ← grown.put ⟨current, score⟩
    pure ⟨true, results, s.uses ++ [⟨grown.count, grown.capacity⟩]⟩
  else pure s

/-- `malloc` of the array. -/
def newResults (junk : Nat → Result) : Cells Result where
  block := some ((List.range initialScaleCapacityOfResults).map junk)
  count := 0
  capacity := initialScaleCapacityOfResults

def sortEntries (qsort : List Result → List Result) (results : Cells Result) : Cells Result :=
  { results with block := some (qsort results.entries ++ results.cells.drop results.count) }

/-- One round of the loop that prints the results. -/
def resultStep (results : Cells Result) (i : Nat) (l : Listing) : Except Halt Listing := do
  let result ← results.read i
  let out ← printRow l.out result.service
  pure ⟨out, l.uses ++ [⟨i, results.capacity⟩]⟩

/-- One round of the loop that frees them. -/
def freeStep (results : Cells Result) (i : Nat) (l : Listing) : Except Halt Listing := do
  let _ ← results.read i
  pure { l with uses := l.uses ++ [⟨i, results.capacity⟩] }

/-- The branch of `search` that prints at once. -/
def searchUnsorted (services : List Service) : Except Halt Listing := do
  let s ← forFrom (fun i s => do
    let current ← serviceAt services i
    printIfFound serviceNameSearch s current) 0 services.length
    (false, [.header serviceNameSearch])
  if !s.1 then pure ⟨s.2 ++ [.noMatch serviceNameSearch], []⟩ else pure ⟨s.2, []⟩

def searchSorted (services : List Service) (choices : Choices services.length) :
    Except Halt Listing := do
  let s ← choices.order.foldlM (fun s i => do
    let current ← serviceAt services i
    collectIfFound serviceNameSearch choices.junk s current) ⟨false, newResults choices.junk, []⟩
  if !s.foundMatch then
    pure ⟨[.header serviceNameSearch, .noMatch serviceNameSearch], s.uses⟩
  else do
    let results := sortEntries choices.qsort s.results
    let l ← forFrom (resultStep results) 0 results.count ⟨[.header serviceNameSearch], s.uses⟩
    forFrom (freeStep results) 0 results.count l

def search (services : List Service) (choices : Choices services.length) (sort : Bool) :
    Except Halt Listing :=
  if services.length = 0 then pure ⟨[.noServices], []⟩
  else if !sort then searchUnsorted serviceNameSearch services
  else searchSorted serviceNameSearch services choices

/-! ## What the two searches have in common -/

def Printed.service? : Printed → Option Service
  | row current _ _ => some current
  | _ => none

def Listing.listed (l : Listing) : List Service := l.out.filterMap Printed.service?

def scoreOf (s : Service) : BitVec 16 := (findMatch s.name serviceNameSearch).toOption.getD 0

/-- A comparator that orders consistently. -/
structure ConsistentPreorder (cmp : Result → Result → Int) : Prop where
  refl : ∀ a, cmp a a = 0
  swap : ∀ a b, cmp b a = -cmp a b
  trans : ∀ a b c, cmp a b ≤ 0 → cmp b c ≤ 0 → cmp a c ≤ 0

/-- A sorted listing and one that is not: the same services, by their scores, and each index
below the capacity. -/
structure Agrees (plain sorted : Listing) : Prop where
  perm : sorted.listed.Perm plain.listed
  ordered : sorted.listed.Pairwise fun a b =>
    (scoreOf serviceNameSearch b).toNat ≤ (scoreOf serviceNameSearch a).toNat
  inBounds : ∀ use ∈ sorted.uses, use.index < use.capacity

/-- Both searches end, and agree, whatever the code leaves open. -/
def SearchAgrees (services : List Service) : Prop :=
  ConsistentPreorder sortResults ∧ ∀ choices : Choices services.length, ∃ plain sorted,
    search serviceNameSearch services choices false = .ok plain ∧
      search serviceNameSearch services choices true = .ok sorted ∧
      Agrees serviceNameSearch plain sorted

/-- `defineTab` allocates. -/
def TabOk (x y : Int) : Prop := x < y ∧ y - x + 1 < 2 ^ 31

def RowOk (s : Service) : Prop :=
  TabOk (intSize s.name.len) 25 ∧ TabOk (intSize s.githubRepo.len) 100

/-- Each name can be compared with the query, and each service that is found has a row. -/
structure Listable (services : List Service) : Prop where
  reaches : ∀ s ∈ services, Reaches s.name serviceNameSearch
  rows : ∀ s ∈ services, 0 < (scoreOf serviceNameSearch s).toNat → RowOk s

/-! ## Rows -/

theorem defineTab_eq {x y : Int} (h : TabOk x y) :
    defineTab x y = pure (.allocated (y - x).toNat) := by
  obtain ⟨hlt, hint⟩ := h
  rw [defineTab, if_neg (by omega), if_neg (by omega), if_neg (by omega), if_neg (by omega)]

theorem tabOk_of_free {x y : Int} {t : Tab} (h : defineTab x y = .ok t)
    (hfree : t.free = .ok ()) : TabOk x y := by
  rw [defineTab] at h
  split at h
  · cases h
    cases hfree
  split at h
  · cases h
  split at h
  · cases h
    cases hfree
  split at h
  · cases h
  · exact ⟨by omega, by omega⟩

def rowOf (s : Service) : Printed :=
  .row s (25 - intSize s.name.len).toNat (100 - intSize s.githubRepo.len).toNat

theorem printRow_eq {s : Service} (h : RowOk s) (out : List Printed) :
    printRow out s = pure (out ++ [rowOf s]) := by
  rw [printRow, defineTab_eq h.1, defineTab_eq h.2]
  rfl

theorem rowOk_of_printRow {s : Service} {out out' : List Printed}
    (h : printRow out s = .ok out') : RowOk s := by
  rw [printRow] at h
  cases hname : defineTab (intSize s.name.len) 25 with
  | error e => rw [hname] at h; cases h
  | ok firstGap =>
    rw [hname] at h
    cases hrepo : defineTab (intSize s.githubRepo.len) 100 with
    | error e => rw [hrepo] at h; cases h
    | ok secondGap =>
      rw [hrepo] at h
      cases firstGap with
      | literal => cases h
      | allocated n =>
        cases secondGap with
        | literal => cases h
        | allocated k => exact ⟨tabOk_of_free hname rfl, tabOk_of_free hrepo rfl⟩

/-! ## The services that are found -/

section found

variable {serviceNameSearch : CStr} {services : List Service}

def isFound (serviceNameSearch : CStr) (s : Service) : Bool :=
  0 < (scoreOf serviceNameSearch s).toNat

theorem findMatch_of_reaches {s : Service} (h : Reaches s.name serviceNameSearch) :
    findMatch s.name serviceNameSearch = pure (scoreOf serviceNameSearch s) := by
  rw [scoreOf, findMatch_eq h]
  rfl

theorem reaches_of_findMatch {s : Service} {v : BitVec 16}
    (h : findMatch s.name serviceNameSearch = .ok v) :
    Reaches s.name serviceNameSearch ∧ scoreOf serviceNameSearch s = v := by
  constructor
  · by_contra hno
    rw [findMatch_undefined hno] at h
    cases h
  · rw [scoreOf, h]
    rfl

theorem foldlM_serviceAt {σ : Type} (f : σ → Service → Except Halt σ) {order : List Nat}
    (horder : ∀ i ∈ order, i < services.length) (s : σ) :
    order.foldlM (fun s i => do
      let current ← serviceAt services i
      f s current) s = (order.filterMap (services[·]?)).foldlM f s := by
  induction order generalizing s with
  | nil => rfl
  | cons i order ih =>
    have hi : services[i]? = some (services.get ⟨i, horder i List.mem_cons_self⟩) :=
      List.getElem?_eq_getElem _
    rw [List.foldlM_cons, List.filterMap_cons_some hi, List.foldlM_cons, serviceAt, hi, pure_bind]
    exact bind_congr fun s' => ih (fun j hj => horder j (List.mem_cons_of_mem i hj)) s'

theorem filterMap_range (l : List Service) : (List.range l.length).filterMap (l[·]?) = l := by
  induction l with
  | nil => rfl
  | cons s l ih =>
    have hhead : (s :: l)[0]? = some s := rfl
    rw [List.length_cons, List.range_succ_eq_map, List.filterMap_cons_some hhead,
      List.filterMap_map]
    exact congrArg (s :: ·) ih

theorem perm_services (choices : Choices services.length) :
    (choices.order.filterMap (services[·]?)).Perm services := by
  have hrange := filterMap_range services
  have hperm := choices.perm.filterMap (services[·]?)
  rwa [hrange] at hperm

/-- **The loop that prints at once.** -/
theorem foldlM_printIfFound (hreaches : ∀ s ∈ services, Reaches s.name serviceNameSearch)
    (hrows : ∀ s ∈ services, 0 < (scoreOf serviceNameSearch s).toNat → RowOk s)
    (b : Bool) (out : List Printed) :
    services.foldlM (printIfFound serviceNameSearch) (b, out) =
      pure (b || services.any (isFound serviceNameSearch),
        out ++ (services.filter (isFound serviceNameSearch)).map rowOf) := by
  induction services generalizing b out with
  | nil => simp
  | cons s services ih =>
    have hs := findMatch_of_reaches (hreaches s List.mem_cons_self)
    have htail := ih (fun t ht => hreaches t (List.mem_cons_of_mem s ht))
      fun t ht => hrows t (List.mem_cons_of_mem s ht)
    rw [List.foldlM_cons, printIfFound, hs, pure_bind]
    by_cases hpos : 0 < (scoreOf serviceNameSearch s).toNat
    · have hfound : isFound serviceNameSearch s = true := decide_eq_true hpos
      rw [if_pos hpos, printRow_eq (hrows s List.mem_cons_self hpos), pure_bind, pure_bind, htail]
      simp [hfound]
    · have hfound : isFound serviceNameSearch s = false := decide_eq_false hpos
      rw [if_neg hpos, pure_bind, htail]
      simp [hfound]

/-- Where that loop ends, each service could be compared and printed. -/
theorem listable_of_foldlM {st st' : Bool × List Printed}
    (h : services.foldlM (printIfFound serviceNameSearch) st = .ok st') :
    Listable serviceNameSearch services := by
  induction services generalizing st with
  | nil => exact ⟨nofun, nofun⟩
  | cons s services ih =>
    rw [List.foldlM_cons] at h
    cases hround : printIfFound serviceNameSearch st s with
    | error e => rw [hround] at h; cases h
    | ok st₁ =>
      rw [hround] at h
      have htail := ih h
      rw [printIfFound] at hround
      cases hmatch : findMatch s.name serviceNameSearch with
      | error e => rw [hmatch] at hround; cases hround
      | ok v =>
        rw [hmatch] at hround
        obtain ⟨hreach, hscore⟩ := reaches_of_findMatch hmatch
        refine ⟨List.forall_mem_cons.mpr ⟨hreach, htail.reaches⟩,
          List.forall_mem_cons.mpr ⟨fun hpos => ?_, htail.rows⟩⟩
        rw [hscore] at hpos
        change (if 0 < v.toNat then _ else _) = _ at hround
        rw [if_pos hpos] at hround
        cases hrow : printRow st.2 s with
        | error e => rw [hrow] at hround; cases hround
        | ok out => exact rowOk_of_printRow hrow

/-! ## The array -/

def resultOf (serviceNameSearch : CStr) (s : Service) : Result := ⟨s, scoreOf serviceNameSearch s⟩

theorem resultsGrowth_safe : resultsGrowth.Safe := fun n =>
  ⟨Nat.lt_add_of_pos_right (by decide), Nat.le_refl _⟩

/-- The array holds the results so far, in a block as large as its capacity says, and each
index was below the capacity. -/
structure Holds (found : List Result) (s : Collected) : Prop where
  table : ∃ u : Table Result, s.results.Shows u ∧ u.Honest ∧ u.items = found
  foundMatch : s.foundMatch = !found.isEmpty
  inBounds : ∀ use ∈ s.uses, use.index < use.capacity

theorem inBounds_append {uses : List Use} {i capacity : Nat} (hi : i < capacity)
    (huses : ∀ use ∈ uses, use.index < use.capacity) :
    ∀ use ∈ uses ++ [⟨i, capacity⟩], use.index < use.capacity := by
  intro use huse
  rcases List.mem_append.mp huse with hold | hnew
  · exact huses use hold
  · rw [List.mem_singleton.mp hnew]
    exact hi

theorem holds_start (junk : Nat → Result) : Holds [] ⟨false, newResults junk, []⟩ where
  table := ⟨.alloc initialScaleCapacityOfResults,
    ⟨rfl, rfl, rfl, by simp [newResults, Cells.slots, Cells.cells, Table.alloc]⟩,
    Table.honest_alloc _, rfl⟩
  foundMatch := rfl
  inBounds := by simp

/-- **An iteration.** -/
theorem collectIfFound_ok {s : Service} (h : Reaches s.name serviceNameSearch)
    (junk : Nat → Result) {found : List Result} {c : Collected} (hc : Holds found c) :
    ∃ c', collectIfFound serviceNameSearch junk c s = .ok c' ∧
      Holds (found ++ ([s].filter (isFound serviceNameSearch)).map (resultOf serviceNameSearch))
        c' := by
  rw [collectIfFound, findMatch_of_reaches h, pure_bind]
  by_cases hpos : 0 < (scoreOf serviceNameSearch s).toNat
  · have hfound : isFound serviceNameSearch s = true := decide_eq_true hpos
    obtain ⟨u, hshows, hhonest, hitems⟩ := hc.table
    obtain ⟨u', happend, hitems', hhonest'⟩ :=
      hhonest.append resultsGrowth_safe (resultOf serviceNameSearch s)
    have hput := hshows.append resultsGrowth junk (resultOf serviceNameSearch s)
    rw [happend, ← Cells.put_eq] at hput
    have hcap : c.results.count ≤ c.results.capacity := by
      rw [hshows.count, hshows.capacity]
      exact hhonest.1
    have hlt : _ < (c.results.reserve resultsGrowth junk).capacity :=
      Cells.lt_capacity_reserve resultsGrowth_safe hcap
    rw [if_pos hpos]
    cases hwritten : (c.results.reserve resultsGrowth junk).put (resultOf serviceNameSearch s) with
    | error e =>
      rw [hwritten] at hput
      exact hput.elim
    | ok results =>
      rw [hwritten] at hput
      refine ⟨⟨true, results, c.uses ++ [⟨(c.results.reserve resultsGrowth junk).count,
        (c.results.reserve resultsGrowth junk).capacity⟩]⟩, ?_, ?_⟩
      · simp only [resultOf] at hwritten
        simp only [hwritten]
        rfl
      · refine ⟨⟨u', hput, hhonest', ?_⟩, ?_, ?_⟩
        · simp [hitems', hitems, hfound]
        · simp [hfound]
        · exact inBounds_append (by rwa [Cells.count_reserve]) hc.inBounds
  · have hfound : isFound serviceNameSearch s = false := decide_eq_false hpos
    rw [if_neg hpos]
    refine ⟨c, rfl, ?_⟩
    simpa [hfound] using hc

/-- **The iterations**, in any order. -/
theorem foldlM_collectIfFound {picked : List Service}
    (h : ∀ s ∈ picked, Reaches s.name serviceNameSearch) (junk : Nat → Result)
    {found : List Result} {c : Collected} (hc : Holds found c) :
    ∃ c', picked.foldlM (collectIfFound serviceNameSearch junk) c = .ok c' ∧
      Holds (found ++ (picked.filter (isFound serviceNameSearch)).map (resultOf serviceNameSearch))
        c' := by
  induction picked generalizing found c with
  | nil => exact ⟨c, rfl, by simpa using hc⟩
  | cons s picked ih =>
    obtain ⟨c₁, hs, hc₁⟩ := collectIfFound_ok (h s List.mem_cons_self) junk hc
    obtain ⟨c', hrest, hc'⟩ := ih (fun t ht => h t (List.mem_cons_of_mem s ht)) hc₁
    refine ⟨c', ?_, ?_⟩
    · rw [List.foldlM_cons, hs]
      exact hrest
    · rwa [List.append_assoc, ← List.map_append, ← List.filter_append] at hc'

/-! ## The rows of the array -/

/-- The loop that prints the results. -/
theorem forFrom_resultStep (results : Cells Result) {l : Listing}
    (hslots : results.count ≤ results.slots) (hcap : results.count ≤ results.capacity)
    (hrows : ∀ r ∈ results.entries, RowOk r.service)
    (huses : ∀ use ∈ l.uses, use.index < use.capacity) :
    ∃ l', forFrom (resultStep results) 0 results.count l = .ok l' ∧
      l'.out = l.out ++ results.entries.map (fun r => rowOf r.service) ∧
      ∀ use ∈ l'.uses, use.index < use.capacity := by
  have hstep {i : Nat} {l' : Listing} (hi : i < results.count)
      (hout : l'.out = l.out ++ (results.entries.take i).map (fun r => rowOf r.service))
      (huses' : ∀ use ∈ l'.uses, use.index < use.capacity) :
      ∃ l'', resultStep results i l' = .ok l'' ∧
        l''.out = l.out ++ (results.entries.take (i + 1)).map (fun r => rowOf r.service) ∧
        ∀ use ∈ l''.uses, use.index < use.capacity := by
    have hslot : i < results.slots := Nat.lt_of_lt_of_le hi hslots
    have hentry : results.entries[i]? = some (results.cells.get ⟨i, hslot⟩) := by
      rw [List.getElem?_take_of_lt hi]
      exact List.getElem?_eq_getElem hslot
    rw [resultStep, Cells.read_eq hslot]
    refine ⟨⟨l'.out ++ [rowOf (results.cells.get ⟨i, hslot⟩).service],
      l'.uses ++ [⟨i, results.capacity⟩]⟩, ?_, ?_, ?_⟩
    · have hrow := printRow_eq (hrows _ (List.mem_of_getElem? hentry)) l'.out
      simp only [bind, Except.bind, hrow]
      rfl
    · rw [hout, List.take_add_one, hentry]
      simp
    · exact inBounds_append (Nat.lt_of_lt_of_le hi hcap) huses'
  obtain ⟨l', hloop, hout, huses'⟩ := forFrom_ok (i := 0) (n := results.count) (s := l)
    (I := fun i l' => l'.out = l.out ++ (results.entries.take i).map (fun r => rowOf r.service) ∧
      ∀ use ∈ l'.uses, use.index < use.capacity)
    (fun _ hi h => hstep (Nat.zero_add results.count ▸ hi) h.1 h.2) ⟨by simp, huses⟩
  refine ⟨l', hloop, ?_, huses'⟩
  rwa [Nat.zero_add, List.take_of_length_le (List.length_take_le _ _)] at hout

theorem forFrom_freeStep (results : Cells Result) {l : Listing}
    (hslots : results.count ≤ results.slots) (hcap : results.count ≤ results.capacity)
    (huses : ∀ use ∈ l.uses, use.index < use.capacity) :
    ∃ l', forFrom (freeStep results) 0 results.count l = .ok l' ∧ l'.out = l.out ∧
      ∀ use ∈ l'.uses, use.index < use.capacity := by
  refine forFrom_ok
    (I := fun _ (l' : Listing) => l'.out = l.out ∧ ∀ use ∈ l'.uses, use.index < use.capacity)
    ?_ ⟨rfl, huses⟩
  rintro i l' - hi ⟨hout, huses'⟩
  rw [Nat.zero_add] at hi
  rw [freeStep, Cells.read_eq (Nat.lt_of_lt_of_le hi hslots)]
  exact ⟨_, rfl, hout, inBounds_append (Nat.lt_of_lt_of_le hi hcap) huses'⟩

/-! ## The two searches -/

theorem filterMap_rowOf (l : List Service) : (l.map rowOf).filterMap Printed.service? = l := by
  rw [List.filterMap_map]
  exact List.filterMap_some

theorem forFrom_printIfFound (st : Bool × List Printed) :
    forFrom (fun i s => do
      let current ← serviceAt services i
      printIfFound serviceNameSearch s current) 0 services.length st =
      services.foldlM (printIfFound serviceNameSearch) st := by
  have hround (i : Nat) (current : Service) (hi : services[i]? = some current)
      (s : Bool × List Printed) : (do
        let current ← serviceAt services i
        printIfFound serviceNameSearch s current) = printIfFound serviceNameSearch s current := by
    rw [serviceAt, hi, pure_bind]
  rw [forFrom_foldlM hround (Nat.le_refl _), List.take_length]

/-- **The search without sorting** lists what is found, in the order of the table. -/
theorem searchUnsorted_listed (h : Listable serviceNameSearch services) :
    ∃ plain, searchUnsorted serviceNameSearch services = .ok plain ∧
      plain.listed = services.filter (isFound serviceNameSearch) := by
  have hrows := filterMap_rowOf (services.filter (isFound serviceNameSearch))
  rw [searchUnsorted, forFrom_printIfFound, foldlM_printIfFound h.reaches h.rows, Bool.false_or,
    pure_bind]
  cases services.any (isFound serviceNameSearch) with
  | true => exact ⟨_, rfl, hrows⟩
  | false =>
    refine ⟨_, rfl, ?_⟩
    rw [Listing.listed, List.filterMap_append]
    exact (List.append_nil _).trans hrows

theorem listable_of_searchUnsorted {plain : Listing}
    (h : searchUnsorted serviceNameSearch services = .ok plain) :
    Listable serviceNameSearch services := by
  rw [searchUnsorted, forFrom_printIfFound] at h
  cases hloop : services.foldlM (printIfFound serviceNameSearch)
      (false, [Printed.header serviceNameSearch]) with
  | error e =>
    rw [hloop] at h
    cases h
  | ok st => exact listable_of_foldlM hloop

theorem sortEntries_entries {qsort : List Result → List Result} {results : Cells Result}
    (hperm : ∀ l, (qsort l).Perm l) (hslots : results.count ≤ results.slots) :
    (sortEntries qsort results).entries = qsort results.entries ∧
      (sortEntries qsort results).slots = results.slots := by
  have hlen : (qsort results.entries).length = results.count := by
    rw [(hperm _).length_eq]
    exact List.length_take_of_le hslots
  refine ⟨List.take_left' hlen, ?_⟩
  show (qsort results.entries ++ results.cells.drop results.count).length = results.slots
  rw [List.length_append, hlen, List.length_drop]
  exact Nat.add_sub_of_le hslots

/-- The rows of what was collected. -/
theorem printSorted {c : Collected} {found : List Result} (hc : Holds found c)
    (hrows : ∀ r ∈ found, RowOk r.service) {qsort : List Result → List Result}
    (hperm : ∀ l, (qsort l).Perm l) (out : List Printed) :
    ∃ l, (do
      let l ← forFrom (resultStep (sortEntries qsort c.results)) 0 c.results.count ⟨out, c.uses⟩
      forFrom (freeStep (sortEntries qsort c.results)) 0 c.results.count l) = .ok l ∧
      l.out = out ++ (qsort found).map (fun r => rowOf r.service) ∧
      ∀ use ∈ l.uses, use.index < use.capacity := by
  obtain ⟨u, hshows, hhonest, hitems⟩ := hc.table
  have hentries : c.results.entries = found := hshows.items.trans hitems
  have hcap : c.results.count ≤ c.results.capacity := by
    rw [hshows.count, hshows.capacity]
    exact hhonest.1
  have hslots := hshows.le_slots
  obtain ⟨hsorted, hsame⟩ := sortEntries_entries hperm hslots
  rw [hentries] at hsorted
  rw [← hsame] at hslots
  obtain ⟨l, hprint, hout, huses⟩ := forFrom_resultStep (sortEntries qsort c.results)
    (l := ⟨out, c.uses⟩) hslots hcap
    (fun r hr => hrows r ((hperm found).subset (hsorted ▸ hr))) hc.inBounds
  obtain ⟨l', hfree, hout', huses'⟩ := forFrom_freeStep (sortEntries qsort c.results)
    hslots hcap huses
  refine ⟨l', ?_, by rw [hout', hout, hsorted], huses'⟩
  have hcount : (sortEntries qsort c.results).count = c.results.count := rfl
  rw [hcount] at hprint hfree
  rw [hprint]
  exact hfree

/-- **The search with sorting** lists the same, as `qsort` orders it. -/
theorem searchSorted_listed (h : Listable serviceNameSearch services)
    (choices : Choices services.length) :
    ∃ sorted, ∃ results : List Result,
      searchSorted serviceNameSearch services choices = .ok sorted ∧
      results.Perm ((services.filter (isFound serviceNameSearch)).map
        (resultOf serviceNameSearch)) ∧
      results.Pairwise (fun a b => sortResults a b ≤ 0) ∧
      sorted.listed = results.map Result.service ∧
        ∀ use ∈ sorted.uses, use.index < use.capacity := by
  have hperm := perm_services choices
  have hreaches : ∀ s ∈ choices.order.filterMap (services[·]?), Reaches s.name serviceNameSearch :=
    fun s hs => h.reaches s (hperm.subset hs)
  obtain ⟨c, hloop, hc⟩ := foldlM_collectIfFound hreaches choices.junk (holds_start choices.junk)
  have horder : ∀ i ∈ choices.order, i < services.length := fun i hi =>
    List.mem_range.mp (choices.perm.subset hi)
  have hfound := (hperm.filter (isFound serviceNameSearch)).map (resultOf serviceNameSearch)
  rw [List.nil_append] at hc
  generalize ((choices.order.filterMap (services[·]?)).filter (isFound serviceNameSearch)).map
    (resultOf serviceNameSearch) = found at hc hfound
  rw [searchSorted, foldlM_serviceAt _ horder, hloop]
  cases found with
  | nil =>
    refine ⟨⟨[.header serviceNameSearch, .noMatch serviceNameSearch], c.uses⟩, [], ?_, hfound,
      List.Pairwise.nil, rfl, hc.inBounds⟩
    show (if (!c.foundMatch) = true then _ else _) = _
    rw [hc.foundMatch]
    rfl
  | cons r found =>
    have hrows : ∀ r' ∈ r :: found, RowOk r'.service := fun r' hr' => by
      obtain ⟨s, hs, rfl⟩ := List.mem_map.mp (hfound.subset hr')
      obtain ⟨hmem, hpos⟩ := List.mem_filter.mp hs
      exact h.rows s hmem (of_decide_eq_true hpos)
    obtain ⟨l, hprint, hout, huses⟩ :=
      printSorted hc hrows choices.qsort_perm [.header serviceNameSearch]
    refine ⟨l, choices.qsort (r :: found), ?_, (choices.qsort_perm _).trans hfound,
      choices.qsort_ordered _, ?_, huses⟩
    · show (if (!c.foundMatch) = true then _ else _) = _
      rw [hc.foundMatch]
      exact hprint
    · have hlisted := filterMap_rowOf ((choices.qsort (r :: found)).map Result.service)
      rw [List.map_map] at hlisted
      rw [Listing.listed, hout]
      exact hlisted

theorem consistentPreorder_sortResults : ConsistentPreorder sortResults where
  refl a := by simp [sortResults]
  swap a b := by
    simp only [sortResults]
    split <;> split <;> omega
  trans a b c := by
    simp only [sortResults]
    split <;> split <;> split <;> omega

theorem score_le_of_sortResults {a b : Result} (h : sortResults a b ≤ 0) :
    b.score.toNat ≤ a.score.toNat := by
  rw [sortResults] at h
  split at h <;> omega

theorem pairwise_mergeSort_sortResults (results : List Result) :
    (results.mergeSort fun a b => decide (sortResults a b ≤ 0)).Pairwise
      fun a b => sortResults a b ≤ 0 := by
  have hcmp := consistentPreorder_sortResults
  refine (List.pairwise_mergeSort ?_ ?_ results).imp fun hle => of_decide_eq_true hle
  · intro a b c hab hbc
    exact decide_eq_true (hcmp.trans a b c (of_decide_eq_true hab) (of_decide_eq_true hbc))
  · intro a b
    have hswap := hcmp.swap a b
    rw [Bool.or_eq_true, decide_eq_true_iff, decide_eq_true_iff]
    omega

/-- The iterations in order, a sort that merges, and slots of zeros. -/
def Choices.inOrder (n : Nat) : Choices n where
  order := List.range n
  perm := List.Perm.refl _
  qsort := fun results => results.mergeSort fun a b => decide (sortResults a b ≤ 0)
  qsort_perm := fun results => List.mergeSort_perm results _
  qsort_ordered := fun results => pairwise_mergeSort_sortResults results
  junk := fun _ => ⟨⟨.empty, .empty, 0, false⟩, 0⟩

/-- The two searches, where each service can be listed. -/
theorem search_eq (h : Listable serviceNameSearch services) (choices : Choices services.length) :
    ∃ plain sorted, search serviceNameSearch services choices false = .ok plain ∧
      search serviceNameSearch services choices true = .ok sorted ∧
      Agrees serviceNameSearch plain sorted := by
  by_cases hempty : services.length = 0
  · exact ⟨_, _, if_pos hempty, if_pos hempty, List.Perm.refl _, List.Pairwise.nil, nofun⟩
  obtain ⟨plain, hplain, hlisted⟩ := searchUnsorted_listed h
  obtain ⟨sorted, results, hsorted, hperm, hordered, hrows, huses⟩ := searchSorted_listed h choices
  refine ⟨plain, sorted, ?_, ?_, ?_, ?_, huses⟩
  · rw [search, if_neg hempty]
    exact hplain
  · rw [search, if_neg hempty]
    exact hsorted
  · have hservices := hperm.map Result.service
    rw [List.map_map] at hservices
    rw [hrows, hlisted]
    simpa [Function.comp_def, resultOf] using hservices
  · have hscore : ∀ r ∈ results, r.score = scoreOf serviceNameSearch r.service := fun r hr => by
      obtain ⟨s, -, rfl⟩ := List.mem_map.mp (hperm.subset hr)
      rfl
    rw [hrows, List.pairwise_map]
    refine hordered.imp_of_mem fun ha hb hle => ?_
    rw [← hscore _ ha, ← hscore _ hb]
    exact score_le_of_sortResults hle

theorem listable_of_search {choices : Choices services.length} {plain : Listing}
    (h : search serviceNameSearch services choices false = .ok plain) :
    Listable serviceNameSearch services := by
  by_cases hempty : services.length = 0
  · rw [List.length_eq_zero_iff.mp hempty]
    exact ⟨nofun, nofun⟩
  · rw [search, if_neg hempty] at h
    exact listable_of_searchUnsorted h

/-- **The sorted and the unsorted search agree** exactly when each service can be listed. -/
theorem searchAgrees_iff :
    SearchAgrees serviceNameSearch services ↔ Listable serviceNameSearch services := by
  constructor
  · rintro ⟨-, h⟩
    obtain ⟨plain, -, hplain, -⟩ := h (.inOrder services.length)
    exact listable_of_search hplain
  · exact fun h => ⟨consistentPreorder_sortResults, fun choices => search_eq h choices⟩

/-- A service whose repository fills its column; `isValidGithubRepo` accepts it. -/
def wideService : Service where
  githubRepo := letters 100
  name := letters 1
  pid := 0
  cloned := false

/-- Its row frees a literal. -/
theorem not_searchAgrees : isValidGithubRepo wideService.githubRepo = 0 ∧
    ¬SearchAgrees (letters 1) [wideService] := by
  refine ⟨by decide, ?_⟩
  rintro ⟨-, h⟩
  obtain ⟨plain, -, hplain, -⟩ := h (.inOrder 1)
  have hrow := (listable_of_search hplain).rows wideService List.mem_cons_self (by decide)
  exact absurd hrow.2.1 (by decide)

end found

end Search

end MiniRunner
