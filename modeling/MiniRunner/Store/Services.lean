import MiniRunner.Clib.RecordFormat
import MiniRunner.Exceptions

/-!
# The services store

`init/main_init.c`, `utils_ops/load_project.c` and the text half of
`ops/create_service.c`. A record is `name^repo#pid\n`. `loadServices` scans the
projects file, and `loadProject` appends a record or refuses a repeated repo or
name, on which the program gives up. `save_services` formats each cloned service
into a buffer of 318 bytes, so a longer record is cut; `serviceText` is the whole
record and `savedText` the cut one.
-/

namespace MiniRunner

open Clib

/-! ## Loading -/

/-- `realloc` to 4 more slots. -/
def serviceGrowth : Table.Growth := fun capacity _ =>
  (capacity + initialScaleSizeOfServices, capacity + initialScaleSizeOfServices)

/-- Two services may not share a repo or a name. -/
def serviceClash (y x : Service) : Bool := y.githubRepo == x.githubRepo || y.name == x.name

def loadProject (githubRepo nickName : CStr) (pid : BitVec 32) (services : Table Service) :
    Except Halt (Int × Table Service) :=
  let newService : Service := ⟨githubRepo, nickName, pid, true⟩
  services.insert serviceGrowth (serviceClash · newService) newService

/-- The states of `loadServices`, with the fields collected so far. -/
inductive ServiceField where
  | findName
  | findRepo (name : CStr)
  | findPid (name githubRepo : CStr)

def servicesScanner : Scanner ServiceField (Table Service) Halt where
  delim
    | .findName => caret
    | .findRepo _ => hash
    | .findPid _ _ => newline
  field
    | .findName, name, services => .ok (.findRepo name, services)
    | .findRepo name, githubRepo, services => .ok (.findPid name githubRepo, services)
    | .findPid name githubRepo, pidStr, services =>
      (orAbort (loadProject githubRepo name (atoi pidStr) services)).map (.findName, ·)

def loadServices (services : Table Service) (data : Bytes) : Except Halt (Table Service) :=
  servicesScanner.parse .findName data services

/-! ## Saving -/

/-- `%s^%s#%i\n`. -/
def serviceText (s : Service) : Bytes :=
  s.name.bytes ++ caret :: (s.githubRepo.bytes ++ hash :: ((fmtInt32 s.pid).bytes ++ [newline]))

/-- The size of `singleData`, with its terminator. -/
def singleDataSize : Nat := 318

/-- What `snprintf` leaves in `singleData`. -/
def singleData (s : Service) : Bytes := (serviceText s).take (singleDataSize - 1)

/-- `dataToBeWritten`: the records of the cloned services. -/
def servicesText (services : List Service) : Bytes :=
  (services.filter (·.cloned)).flatMap singleData

/-! ## The format -/

namespace Service

structure Ok (s : Service) : Prop where
  name : caret ∉ s.name.bytes
  githubRepo : hash ∉ s.githubRepo.bytes
  cloned : s.cloned = true

/-- The record fits `singleData` whatever its pid. -/
def Fits (s : Service) : Prop := s.name.len + s.githubRepo.len + 14 < singleDataSize

instance (s : Service) : Decidable s.Fits := inferInstanceAs (Decidable (_ < _))

end Service

namespace ServiceField

def Ok : ServiceField → Prop
  | findName => True
  | findRepo name => caret ∉ name.bytes
  | findPid name githubRepo => caret ∉ name.bytes ∧ hash ∉ githubRepo.bytes

end ServiceField

theorem services_record {s : Service} (hs : s.Ok) (t : Table Service) (rest : Bytes) :
    servicesScanner.run ⟨.findName, [], t⟩ (serviceText s ++ rest) =
      orAbort (t.insert serviceGrowth (serviceClash · s) s) >>= fun t' =>
        servicesScanner.run ⟨.findName, [], t'⟩ rest := by
  have hname := Scanner.run_field servicesScanner (q := .findName) hs.name
  have hrepo := Scanner.run_field servicesScanner (q := .findRepo s.name) hs.githubRepo
  have hpid := Scanner.run_field servicesScanner (q := .findPid s.name s.githubRepo)
    (show newline ∉ (fmtInt32 s.pid).bytes from notMem_fmtInt (by decide) (by decide))
  have htext : serviceText s ++ rest = s.name.bytes ++ caret :: (s.githubRepo.bytes ++
      hash :: ((fmtInt32 s.pid).bytes ++ newline :: rest)) := by
    simp [serviceText]
  have hload : loadProject s.githubRepo s.name (atoi (fmtInt32 s.pid)) t =
      t.insert serviceGrowth (serviceClash · s) s := by
    have : (⟨s.githubRepo, s.name, s.pid, true⟩ : Service) = s := by rw [← hs.cloned]
    simp only [loadProject, atoi_fmtInt32, this]
  rw [htext]
  refine (hname t _).trans ((hrepo t _).trans ((hpid t rest).trans ?_))
  simp only [servicesScanner, hload]
  cases orAbort (t.insert serviceGrowth (serviceClash · s) s) <;> rfl

/-- The services file as a record format. -/
def servicesFormat : RecordFormat ServiceField Service where
  scanner := servicesScanner
  start := .findName
  text := serviceText
  load t s := orAbort (t.insert serviceGrowth (serviceClash · s) s)
  readBack := id
  Ok := Service.Ok
  PhaseOk := ServiceField.Ok
  start_ok := trivial
  record := services_record
  field_loads {q s t q' t'} hdelim hq h := by
    cases q with
    | findName =>
      cases h
      exact ⟨hdelim, .inl rfl⟩
    | findRepo name =>
      cases h
      exact ⟨⟨hq, hdelim⟩, .inl rfl⟩
    | findPid name githubRepo =>
      cases hl : orAbort (loadProject githubRepo name (atoi s) t) with
      | error e => simp only [servicesScanner, hl] at h; cases h
      | ok u =>
        simp only [servicesScanner, hl] at h
        cases h
        exact ⟨trivial, .inr ⟨⟨githubRepo, name, atoi s, true⟩, ⟨hq.1, hq.2, rfl⟩, hl⟩⟩

theorem serviceGrowth_safe : serviceGrowth.Safe := by
  intro n
  simp [serviceGrowth, initialScaleSizeOfServices]

theorem services_loads (N : Nat) :
    Loads (serviceClash · · = true) Table.Honest N servicesFormat.load :=
  Loads.of_safe serviceGrowth_safe serviceClash N

/-! ## The store -/

/-- The table the constructor allocates before it loads. -/
def initialServices : Table Service := .alloc initialScaleSizeOfServices

/-- No two services share a repo or a name. -/
abbrev DistinctServices (l : List Service) : Prop := Distinct (serviceClash · · = true) l

theorem loadServices_sound {data : Bytes} {t : Table Service}
    (h : loadServices initialServices data = .ok t) :
    (∀ s ∈ t.items, s.Ok) ∧ DistinctServices t.items ∧ t.Honest :=
  servicesFormat.parse_sound (services_loads 0) (Table.honest_alloc _) rfl h

theorem loadServices_not_null {data : Bytes} {t : Table Service}
    (h : loadServices initialServices data = .ok t) : t.isNull = false := by
  by_cases ht : t.items = []
  · obtain ⟨rs, -, hfold⟩ := servicesFormat.parse_eq_fold h
    have hitems := ((services_loads 0).sound Ledger.distinct_nil hfold).1
    rw [ht] at hitems
    have hrs : rs = [] := hitems.symm
    subst hrs
    cases hfold
    rfl
  · exact Table.isNull_eq_false ht

theorem singleData_eq {s : Service} (h : s.Fits) : singleData s = serviceText s := by
  refine List.take_of_length_le ?_
  have := length_fmtInt32_le s.pid
  simp only [Service.Fits, CStr.len, singleDataSize] at *
  simp only [serviceText, List.length_append, List.length_cons, List.length_nil]
  omega

theorem servicesText_eq {l : List Service} (hfit : ∀ s ∈ l, s.cloned = true → s.Fits) :
    servicesText l = servicesFormat.textAll (l.filter (·.cloned)) := by
  simp only [servicesText, RecordFormat.textAll]
  refine List.flatMap_congr fun s hs => ?_
  obtain ⟨hmem, hc⟩ := List.mem_filter.mp hs
  exact singleData_eq (hfit s hmem hc)

/-- **Saving and loading services.** Cloned services whose records fit are read
back exactly when no two of them clash, and then they are all there, in order. -/
theorem loadServices_servicesText {l : List Service} (hok : ∀ s ∈ l, s.cloned = true → s.Ok)
    (hfit : ∀ s ∈ l, s.cloned = true → s.Fits) (hd : DistinctServices (l.filter (·.cloned))) :
    ∃ t, loadServices initialServices (servicesText l) = .ok t ∧
      t.items = l.filter (·.cloned) := by
  have hok' : ∀ s ∈ l.filter (·.cloned), s.Ok := fun s hs =>
    hok s (List.mem_filter.mp hs).1 (List.mem_filter.mp hs).2
  obtain ⟨t, h, hitems, _⟩ := servicesFormat.parse_text
    (services_loads (l.filter (·.cloned)).length) (Table.honest_alloc _) rfl hok'
    (by simpa [servicesFormat] using hd) le_rfl
  rw [servicesText_eq hfit]
  exact ⟨t, h, by simpa [servicesFormat] using hitems⟩

end MiniRunner
