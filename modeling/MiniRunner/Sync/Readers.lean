import MiniRunner.Sync.Writers

/-!
# A reader of the jobs file

`loadJobs` and `loadJobsDaemon` as steps beside the steps of a writer. The reader takes
the size of the file when it opens it, scans the mapping byte by byte, and `giveString`
copies bytes of a field a second time once its delimiter is found. The daemon polls the
lock before it opens the file and never looks at it again; the command line does not
poll at all.

`reads_whole` says when the bytes are those of one content of the file: the reader must
not open the file between a truncation and the last byte of the copy, and the writer
must not truncate it under a reader.
-/

namespace MiniRunner.Sync

open Clib MiniRunner

/-! ## One reader -/

/-- Where a reader is, with the bytes it has seen: those of the scan in their order,
and those `giveString` copied, with their places. -/
inductive ReaderPhase where
  | start
  | sawFree
  | reading (size : Nat) (scanned : Bytes) (copied : List (Nat × UInt8))
  | done (scanned : Bytes) (copied : List (Nat × UInt8))
  | faulted
  deriving DecidableEq, Repr

inductive ReaderAct where
  | poll
  | openJobs
  | scan
  | giveString (i : Nat)
  | finish
  deriving DecidableEq, Repr

/-- `data[i]` of a mapping of the file; past the end its last page reads as zeros. -/
def mappedByte (file : Bytes) (i : Nat) : Option UInt8 :=
  if onPage file i then some (file.getD i 0) else none

/-- Where a reader is when it opens the file; the daemon's one `polls` first. -/
def opensAt (polls : Bool) : ReaderPhase := if polls then .sawFree else .start

def readerStep (polls : Bool) : ReaderAct → ReaderPhase × Files → Option (ReaderPhase × Files)
  | .poll, (.start, fs) =>
    if polls then
      some (if readsFree (fs.content (.file .jobsSync)) then .sawFree else .start,
        fs.openCreate (.file .jobsSync))
    else none
  | .openJobs, (p, fs) =>
    if p = opensAt polls then
      let size := (fs.content (.file .jobs)).length
      some (if size = 0 then .done [] [] else .reading size [] [], fs.openCreate (.file .jobs))
    else none
  | .scan, (.reading size scanned copied, fs) =>
    if scanned.length < size then
      match mappedByte (fs.content (.file .jobs)) scanned.length with
      | none => some (.faulted, fs)
      | some b => some (.reading size (scanned ++ [b]) copied, fs)
    else none
  | .giveString i, (.reading size scanned copied, fs) =>
    if i < scanned.length then
      match mappedByte (fs.content (.file .jobs)) i with
      | none => some (.faulted, fs)
      | some b => some (.reading size scanned (copied ++ [(i, b)]), fs)
    else none
  | .finish, (.reading size scanned copied, fs) =>
    if scanned.length = size then some (.done scanned copied, fs) else none
  | _, _ => none

/-- What one step of a reader can do; no step changes the content of a file. -/
inductive ReaderStep (polls : Bool) (file : Bytes) : ReaderAct → ReaderPhase → ReaderPhase → Prop
  | poll (free : Bool) : ReaderStep polls file .poll .start (if free then .sawFree else .start)
  | openJobs : ReaderStep polls file .openJobs (opensAt polls)
      (if file.length = 0 then .done [] [] else .reading file.length [] [])
  | scan (size : Nat) (scanned : Bytes) (copied : List (Nat × UInt8)) (b : UInt8) :
      scanned.length < size → mappedByte file scanned.length = some b →
      ReaderStep polls file .scan (.reading size scanned copied)
        (.reading size (scanned ++ [b]) copied)
  | giveString (size : Nat) (scanned : Bytes) (copied : List (Nat × UInt8)) (i : Nat) (b : UInt8) :
      i < scanned.length → mappedByte file i = some b →
      ReaderStep polls file (.giveString i) (.reading size scanned copied)
        (.reading size scanned (copied ++ [(i, b)]))
  | fault (a : ReaderAct) (size : Nat) (scanned : Bytes) (copied : List (Nat × UInt8)) (i : Nat) :
      i < size ∨ i < scanned.length → mappedByte file i = none →
      ReaderStep polls file a (.reading size scanned copied) .faulted
  | finish (scanned : Bytes) (copied : List (Nat × UInt8)) :
      ReaderStep polls file .finish (.reading scanned.length scanned copied)
        (.done scanned copied)

theorem readerStep_cases {polls : Bool} {a : ReaderAct} {r r' : ReaderPhase} {fs fs' : Files}
    (h : readerStep polls a (r, fs) = some (r', fs')) :
    ReaderStep polls (fs.content (.file .jobs)) a r r' ∧ ∀ q, fs'.content q = fs.content q := by
  cases a with
  | openJobs =>
    simp only [readerStep] at h
    split at h
    · rename_i hr
      cases h
      subst hr
      exact ⟨.openJobs, fun _ => FileStore.content_openCreate ..⟩
    · cases h
  | poll =>
    cases r <;> simp only [readerStep, reduceCtorEq] at h
    split at h
    · cases h
      exact ⟨.poll _, fun _ => FileStore.content_openCreate ..⟩
    · cases h
  | scan =>
    cases r <;> simp only [readerStep, reduceCtorEq] at h
    rename_i size scanned copied
    split at h
    · rename_i hlt
      split at h
      · rename_i hb
        cases h
        exact ⟨.fault _ _ _ _ _ (.inl hlt) hb, fun _ => rfl⟩
      · rename_i b hb
        cases h
        exact ⟨.scan _ _ _ b hlt hb, fun _ => rfl⟩
    · cases h
  | giveString i =>
    cases r <;> simp only [readerStep, reduceCtorEq] at h
    rename_i size scanned copied
    split at h
    · rename_i hlt
      split at h
      · rename_i hb
        cases h
        exact ⟨.fault _ _ _ _ _ (.inr hlt) hb, fun _ => rfl⟩
      · rename_i b hb
        cases h
        exact ⟨.giveString _ _ _ i b hlt hb, fun _ => rfl⟩
    · cases h
  | finish =>
    cases r <;> simp only [readerStep, reduceCtorEq] at h
    rename_i size scanned copied
    split at h
    · rename_i hlen
      cases h
      subst hlen
      exact ⟨.finish scanned copied, fun _ => rfl⟩
    · cases h

/-! ## What a reader has seen -/

def ReaderPhase.InScan : ReaderPhase → Prop
  | .reading _ _ _ => True
  | _ => False

instance : (r : ReaderPhase) → Decidable r.InScan
  | .reading _ _ _ => .isTrue trivial
  | .start | .sawFree | .done _ _ | .faulted => .isFalse id

/-- **All the bytes the reader has seen are those of `file`.** -/
def ReaderPhase.Sees (file : Bytes) : ReaderPhase → Prop
  | .start | .sawFree => True
  | .reading size scanned copied =>
    size = file.length ∧ scanned = file.take scanned.length ∧ ∀ x ∈ copied, file[x.1]? = some x.2
  | .done scanned copied => scanned = file ∧ ∀ x ∈ copied, file[x.1]? = some x.2
  | .faulted => False

instance (file : Bytes) : (r : ReaderPhase) → Decidable (r.Sees file)
  | .start | .sawFree => .isTrue trivial
  | .reading _ _ _ => inferInstanceAs (Decidable (_ = _ ∧ _ = _ ∧ ∀ x ∈ _, _ = _))
  | .done _ _ => inferInstanceAs (Decidable (_ = _ ∧ ∀ x ∈ _, _ = _))
  | .faulted => .isFalse id

theorem mappedByte_of_lt {file : Bytes} {i : Nat} (h : i < file.length) :
    mappedByte file i = file[i]? := by
  simp [mappedByte, onPage_of_lt h, h]

/-- A reader in its scan goes on seeing a file that stays as it is. -/
theorem ReaderStep.sees {polls : Bool} {file : Bytes} {a : ReaderAct} {r r' : ReaderPhase}
    (h : ReaderStep polls file a r r') (hr : r.Sees file) : r'.Sees file := by
  cases h with
  | poll free => cases free <;> trivial
  | openJobs =>
    split
    · rename_i hlen
      exact ⟨(List.eq_nil_of_length_eq_zero hlen).symm, by simp⟩
    · exact ⟨rfl, rfl, by simp⟩
  | scan size scanned copied b hlt hb =>
    obtain ⟨rfl, hscan, hcopied⟩ := hr
    rw [mappedByte_of_lt hlt] at hb
    refine ⟨rfl, ?_, hcopied⟩
    rw [List.length_append, List.length_singleton, List.take_add_one, ← hscan, hb]
    rfl
  | giveString size scanned copied i b hlt hb =>
    obtain ⟨rfl, hscan, hcopied⟩ := hr
    have hi : i < file.length := by
      rw [hscan, List.length_take] at hlt
      omega
    rw [mappedByte_of_lt hi] at hb
    refine ⟨rfl, hscan, fun x hx => ?_⟩
    rcases List.mem_append.mp hx with hx | hx
    · exact hcopied x hx
    · rw [List.mem_singleton.mp hx, hb]
  | fault a size scanned copied i hi hb =>
    obtain ⟨rfl, hscan, -⟩ := hr
    have hlt : i < file.length := by
      rw [hscan, List.length_take] at hi
      omega
    rw [mappedByte_of_lt hlt, List.getElem?_eq_getElem hlt] at hb
    cases hb
  | finish scanned copied =>
    obtain ⟨hsize, hscan, hcopied⟩ := hr
    refine ⟨?_, hcopied⟩
    rw [hscan, hsize, List.take_length]

/-- From `k` scanned bytes on, the rest of the scan sees the rest of the file. -/
theorem scan_run (polls : Bool) (fs : Files) (n : Nat) :
    ∀ k, k + n = (fs.content (.file .jobs)).length →
      runs (readerStep polls) (List.replicate n .scan)
        (.reading (k + n) ((fs.content (.file .jobs)).take k) [], fs) =
          some (.reading (k + n) (fs.content (.file .jobs)) [], fs) := by
  induction n with
  | zero =>
    intro k hk
    rw [List.take_of_length_le (by omega)]
    rfl
  | succ n ih =>
    intro k hk
    have hlt : k < (fs.content (.file .jobs)).length := by omega
    have hlen : ((fs.content (.file .jobs)).take k).length = k := by
      rw [List.length_take]
      omega
    rw [List.replicate_succ, runs_cons]
    refine ⟨(.reading (k + (n + 1)) ((fs.content (.file .jobs)).take (k + 1)) [], fs), ?_, ?_⟩
    · simp only [readerStep, hlen, mappedByte_of_lt hlt, List.getElem?_eq_getElem hlt,
        List.take_add_one]
      rw [if_pos (by omega)]
      rfl
    · have := ih (k + 1) (by omega)
      rwa [Nat.add_right_comm, Nat.add_assoc] at this

/-- **A reader alone** decodes the content of the file. -/
theorem read_alone (fs : Files) (hjobs : fs.content (.file .jobs) ≠ []) :
    ∃ fs', runs (readerStep false)
      ([.openJobs] ++ List.replicate (fs.content (.file .jobs)).length .scan ++ [.finish])
      (.start, fs) = some (.done (fs.content (.file .jobs)) [], fs') := by
  let fs' := fs.openCreate (.file .jobs)
  have hsame : fs'.content (.file .jobs) = fs.content (.file .jobs) :=
    FileStore.content_openCreate ..
  have hscan := scan_run false fs' _ 0 (Nat.zero_add _)
  rw [hsame, Nat.zero_add, List.take_zero] at hscan
  refine ⟨fs', runs_append (runs_append ?_ hscan) ?_⟩
  · simp [runs, readerStep, opensAt, hjobs, fs']
  · simp [runs, readerStep]

/-! ## A writer and a reader -/

/-- The files, where the writer is and where the reader is. -/
structure Shared where
  files : Files
  writer : Phase
  reader : ReaderPhase

inductive SharedAct where
  | writer (a : WriterAct)
  | reader (a : ReaderAct)
  deriving DecidableEq, Repr

/-- A step of the writer of `data` or of the reader. -/
def sharedStep (polls : Bool) (data : Bytes) : SharedAct → Shared → Option Shared
  | .writer a, s =>
    (writerStep data a (s.writer, s.files)).map fun y => ⟨y.2, y.1, s.reader⟩
  | .reader a, s =>
    (readerStep polls a (s.reader, s.files)).map fun y => ⟨y.2, s.writer, y.1⟩

/-- The writer has not truncated the file yet, or it has copied every byte. -/
def Phase.Whole (data : Bytes) : Phase → Prop
  | .start | .done => True
  | .copying k => k = data.length
  | _ => False

instance (data : Bytes) : (p : Phase) → Decidable (p.Whole data)
  | .start | .done => .isTrue trivial
  | .copying k => inferInstanceAs (Decidable (k = data.length))
  | .polling | .sawFree | .faulted => .isFalse id

/-- The reader opens the file only while it is whole, and the writer truncates it
only while the reader is not in its scan. -/
def KeepsApart (data : Bytes) (s : Shared) (a : SharedAct) (_ : Shared) : Prop :=
  (a = .reader .openJobs → s.writer.Whole data) ∧ (a = .writer .truncate → ¬s.reader.InScan)

instance (data : Bytes) (s : Shared) (a : SharedAct) (s' : Shared) :
    Decidable (KeepsApart data s a s') :=
  inferInstanceAs (Decidable (_ ∧ _))

/-- The jobs file at each phase of the writer that replaces `old` by `data`. -/
def Phase.FileAt (old data : Bytes) : Phase → Bytes → Prop
  | .start, c => c = old
  | .polling, c | .sawFree, c => c.length = data.length
  | .copying k, c => c.length = data.length ∧ k ≤ data.length ∧ c.take k = data.take k
  | .done, c => c = data
  | .faulted, _ => False

variable {old data : Bytes}

/-- A writer that is alone with the file leaves it as its phase says. -/
theorem WriterStep.fileAt {a : WriterAct} {p p' : Phase} {fs fs' : Files}
    (h : WriterStep data a (p, fs) (p', fs')) (hp : p.FileAt old data (fs.content (.file .jobs))) :
    p'.FileAt old data (fs'.content (.file .jobs)) := by
  cases h with
  | truncate =>
    rw [FileStore.content_put]
    split
    · rename_i hdata
      simp [hdata, Phase.FileAt]
    · exact length_ftruncate ..
  | poll =>
    rw [FileStore.content_openCreate]
    split <;> exact hp
  | lock => exact ⟨hp, Nat.zero_le _, rfl⟩
  | copy _ k b hb hpage =>
    obtain ⟨hlen, -, htake⟩ := hp
    rw [FileStore.content_put]
    exact ⟨by rw [List.length_set, hlen], (List.getElem?_eq_some_iff.mp hb).1,
      take_set_succ hlen htake hb⟩
  | fault _ k hk hpage =>
    rw [onPage_of_lt (by rw [hp.1]; exact hk)] at hpage
    cases hpage
  | unlock =>
    obtain ⟨hlen, -, htake⟩ := hp
    rwa [List.take_length, ← hlen, List.take_length] at htake

theorem Phase.FileAt.whole {p : Phase} {c : Bytes} (h : p.FileAt old data c)
    (hp : p.Whole data) : c = old ∨ c = data := by
  cases p with
  | start => exact .inl h
  | done => exact .inr h
  | copying k =>
    obtain ⟨hlen, -, htake⟩ := h
    rw [hp, List.take_length, ← hlen, List.take_length] at htake
    exact .inr htake
  | _ => exact hp.elim

theorem WriterStep.whole {a : WriterAct} {p p' : Phase} {fs fs' : Files}
    (h : WriterStep data a (p, fs) (p', fs')) (hp : p.Whole data) (ha : a ≠ .truncate) :
    p'.Whole data ∧ fs'.content (.file .jobs) = fs.content (.file .jobs) := by
  cases h with
  | truncate => exact absurd rfl ha
  | poll => exact hp.elim
  | lock => exact hp.elim
  | copy _ k b hb hpage => exact absurd hp (List.getElem?_eq_some_iff.mp hb).1.ne
  | fault _ k hk hpage => exact absurd hp hk.ne
  | unlock => exact ⟨trivial, content_syncFiles false (.file .jobs) fs⟩

/-- What the guard keeps: the file is as the writer's phase says, and it stays whole
under a reader in its scan, which sees it. -/
structure Apart (old data : Bytes) (s : Shared) : Prop where
  file : s.writer.FileAt old data (s.files.content (.file .jobs))
  scan : s.reader.InScan →
    s.writer.Whole data ∧ s.reader.Sees (s.files.content (.file .jobs))
  seen : s.reader.Sees old ∨ s.reader.Sees data

/-- **A guarded step** keeps a reader to one content of the file. -/
theorem Apart.step {polls : Bool} {s s' : Shared} {a : SharedAct} (h : Apart old data s)
    (hguard : KeepsApart data s a s') (hs : sharedStep polls data a s = some s') :
    Apart old data s' := by
  cases a with
  | writer a =>
    obtain ⟨⟨p, fs⟩, hr, rfl⟩ := Option.map_eq_some_iff.mp hs
    have hstep := writerStep_cases hr
    refine ⟨hstep.fileAt h.file, fun hin => ?_, h.seen⟩
    obtain ⟨hwhole, hsees⟩ := h.scan hin
    obtain ⟨hwhole', hkept⟩ := hstep.whole hwhole fun ha => hguard.2 (by rw [ha]) hin
    exact ⟨hwhole', by rwa [hkept]⟩
  | reader a =>
    obtain ⟨⟨r, fs⟩, hr, rfl⟩ := Option.map_eq_some_iff.mp hs
    obtain ⟨hstep, hkept⟩ := readerStep_cases hr
    -- a reader that moves among whole contents sees the one that is there
    have hmoved (hwhole : s.writer.Whole data)
        (hsees : s.reader.Sees (s.files.content (.file .jobs))) :
        Apart old data ⟨fs, s.writer, r⟩ := by
      have hsees' := hstep.sees hsees
      refine ⟨by rw [hkept]; exact h.file, fun _ => ⟨hwhole, by rwa [hkept]⟩, ?_⟩
      rcases h.file.whole hwhole with hc | hc
      · exact .inl (hc ▸ hsees')
      · exact .inr (hc ▸ hsees')
    by_cases hin : s.reader.InScan
    · exact hmoved (h.scan hin).1 (h.scan hin).2
    · generalize hq : s.reader = q at hstep hmoved hin
      cases hstep with
      | poll free =>
        refine ⟨by rw [hkept]; exact h.file, ?_, ?_⟩
        · cases free <;> exact False.elim
        · cases free <;> exact .inl trivial
      | openJobs =>
        refine hmoved (hguard.1 rfl) ?_
        unfold opensAt
        split <;> trivial
      | _ => exact absurd trivial hin

/-- **A reader sees whole contents only**: in a run from a writer and a reader that
have not started, in which the file is opened only while it is whole and is not
truncated under a scan, the reader never faults and all the bytes it decodes are those
of the old content, or all those of the new one. -/
theorem reads_whole (polls : Bool) (data : Bytes) (s : Shared) (as : List SharedAct)
    (hwriter : s.writer = .start) (hreader : s.reader = .start)
    (hguard : Every (sharedStep polls data) (KeepsApart data) as s) :
    Every (sharedStep polls data)
      (fun _ _ s' => s'.reader.Sees (s.files.content (.file .jobs)) ∨ s'.reader.Sees data)
      as s := by
  have hinit : Apart (s.files.content (.file .jobs)) data s := by
    refine ⟨?_, fun hin => ?_, ?_⟩
    · rw [hwriter]
      rfl
    · rw [hreader] at hin
      exact hin.elim
    · rw [hreader]
      exact .inl trivial
  exact every_of_inv (fun h hg hs => ⟨h.step hg hs, (h.step hg hs).seen⟩) as hinit hguard

/-- A jobs file of one byte that becomes one of two bytes. -/
def grows : Shared :=
  ⟨fun q => if q = .file .jobs then some [1] else none, .start, .start⟩

/-- The daemon reads the file once it is written. -/
def readsAfter : List SharedAct :=
  (writeSteps [2, 3]).map .writer ++
    [.reader .poll, .reader .openJobs, .reader .scan, .reader .scan, .reader .finish]

theorem reads_whole_readsAfter :
    Every (sharedStep true [2, 3])
      (fun _ _ s' => s'.reader.Sees (grows.files.content (.file .jobs)) ∨ s'.reader.Sees [2, 3])
      readsAfter grows :=
  reads_whole true [2, 3] grows readsAfter rfl rfl (by decide +kernel)

/-- The lock reads free, and the daemon opens the file right after its truncation. -/
def readsEarly : List SharedAct :=
  [.writer .truncate, .reader .poll, .reader .openJobs, .reader .scan, .reader .scan,
    .reader .finish]

theorem not_reads_whole_readsEarly :
    (runs (sharedStep true [2, 3]) readsEarly grows).map (·.reader) = some (.done [1, 0] []) ∧
      ¬Every (sharedStep true [2, 3])
        (fun _ _ s' => s'.reader.Sees (grows.files.content (.file .jobs)) ∨ s'.reader.Sees [2, 3])
        readsEarly grows := by
  decide +kernel

end MiniRunner.Sync
