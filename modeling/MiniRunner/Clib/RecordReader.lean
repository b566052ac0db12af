import MiniRunner.Clib.FieldScan

/-!
# The records of an input

A `RecordReader` is a `Scanner` before it is known what its records are loaded into: each
field leads to the next phase, the last one of a record gives the record, and a field may be
rejected. `records` are those of an input up to its end or the field that is rejected, and
loading an input is loading them in turn (`parse_eq`), whatever they are loaded into.

`readInto` is a reader that stops with `-1` at the first field that is rejected or record that
is refused and keeps what it has loaded (`readInto_eq`).
-/

namespace Clib

structure RecordReader (Q α : Type) where
  delim : Q → UInt8
  /-- `none` rejects the field. -/
  field : Q → CStr → Option (Q × Option α)

namespace RecordReader

variable {Q α σ ε : Type} (R : RecordReader Q α)

/-- The scanner that loads each record. `reject` is its answer to a rejected field, with the
table at that point. -/
def scanner (load : σ → α → Except ε σ) (reject : σ → ε) : Scanner Q σ ε where
  delim := R.delim
  field q s t :=
    match R.field q s with
    | none => .error (reject t)
    | some (q', none) => .ok (q', t)
    | some (q', some x) => (load t x).map fun t' => (q', t')

/-- Load the records in turn, and reject the rest if `rejected` says so. -/
def loadAll (load : σ → α → Except ε σ) (reject : σ → ε) (l : List α) (rejected : Bool) (t : σ) :
    Except ε σ := do
  let t ← l.foldlM load t
  if rejected then .error (reject t) else .ok t

/-- The records that the scan goes on to read in phase `q` with `tok` collected, and whether
it ends at a field that is rejected. -/
def recordsFrom (q : Q) (tok : Bytes) : Bytes → List α × Bool
  | [] => ([], false)
  | b :: bs =>
    if b = R.delim q then
      match R.field q (CStr.ofBytes tok) with
      | none => ([], true)
      | some (q', none) => recordsFrom q' [] bs
      | some (q', some x) => (x :: (recordsFrom q' [] bs).1, (recordsFrom q' [] bs).2)
    else recordsFrom q (tok ++ [b]) bs

def records (q : Q) (data : Bytes) : List α × Bool := R.recordsFrom q [] data

variable {R} {load : σ → α → Except ε σ} {reject : σ → ε}

theorem run_eq (bs : Bytes) : ∀ (q : Q) (tok : Bytes) (t : σ),
    ((R.scanner load reject).run ⟨q, tok, t⟩ bs).map (·.table) =
      loadAll load reject (R.recordsFrom q tok bs).1 (R.recordsFrom q tok bs).2 t := by
  induction bs with
  | nil => exact fun _ _ _ => rfl
  | cons b bs ih =>
    intro q tok t
    rw [Scanner.run_cons, Scanner.step, recordsFrom]
    by_cases hb : b = R.delim q
    · simp only [scanner, hb, if_true]
      cases hfield : R.field q (CStr.ofBytes tok) with
      | none => rfl
      | some next =>
        obtain ⟨q', x⟩ := next
        cases x with
        | none => exact ih q' [] t
        | some x =>
          simp only [loadAll, List.foldlM_cons]
          cases load t x with
          | error e => rfl
          | ok t' => exact ih q' [] t'
    · simp only [scanner, hb, if_false]
      exact ih q (tok ++ [b]) t

/-- **Loading an input** is loading its records. -/
theorem parse_eq (q : Q) (data : Bytes) (t : σ) :
    (R.scanner load reject).parse q data t =
      loadAll load reject (R.records q data).1 (R.records q data).2 t :=
  run_eq data q [] t

theorem recordsFrom_accepted (h : ∀ q s, R.field q s ≠ none) (bs : Bytes) :
    ∀ (q : Q) (tok : Bytes), (R.recordsFrom q tok bs).2 = false := by
  induction bs with
  | nil => exact fun _ _ => rfl
  | cons b bs ih =>
    intro q tok
    rw [recordsFrom]
    split
    · split
      · rename_i hnone
        exact absurd hnone (h _ _)
      · exact ih _ _
      · exact ih _ _
    · exact ih _ _

theorem parse_eq_foldlM (h : ∀ q s, R.field q s ≠ none) (q : Q) (data : Bytes) (t : σ) :
    (R.scanner load reject).parse q data t = (R.records q data).1.foldlM load t := by
  rw [parse_eq, loadAll, records, recordsFrom_accepted h]
  exact bind_pure _

/-! ## A reader that keeps what it has -/

/-- A load with a return code, that ends with the table at that point when it is not 0. -/
def stopAt (load : α → σ → Except ε (Int × σ)) (t : σ) (x : α) : Except (ε ⊕ σ) σ :=
  match load x t with
  | .error e => .error (.inl e)
  | .ok (rc, t) => if rc ≠ 0 then .error (.inr t) else .ok t

/-- `-1` with the table at the point where a load is not 0 or a field is rejected. -/
def orStopped : Except (ε ⊕ σ) σ → Except ε (Int × σ)
  | .ok t => .ok (0, t)
  | .error (.inr t) => .ok (-1, t)
  | .error (.inl e) => .error e

def readInto (R : RecordReader Q α) (load : α → σ → Except ε (Int × σ)) (q : Q) (data : Bytes)
    (t : σ) : Except ε (Int × σ) :=
  orStopped ((R.scanner (stopAt load) .inr).parse q data t)

def loadUntil (load : α → σ → Except ε (Int × σ)) : List α → Bool → σ → Except ε (Int × σ)
  | [], rejected, t => .ok (if rejected then -1 else 0, t)
  | x :: l, rejected, t => do
    let (rc, t) ← load x t
    if rc ≠ 0 then pure (-1, t) else loadUntil load l rejected t

theorem readInto_eq (load : α → σ → Except ε (Int × σ)) (q : Q) (data : Bytes) (t : σ) :
    R.readInto load q data t = loadUntil load (R.records q data).1 (R.records q data).2 t := by
  rw [readInto, parse_eq]
  generalize R.records q data = r
  obtain ⟨l, rejected⟩ := r
  induction l generalizing t with
  | nil => cases rejected <;> rfl
  | cons x l ih =>
    rw [loadAll, List.foldlM_cons, loadUntil, stopAt]
    cases load x t with
    | error e => rfl
    | ok b =>
      obtain ⟨rc, t'⟩ := b
      simp only [bind, Except.bind]
      by_cases hrc : rc ≠ 0
      · simp only [if_pos hrc]
        rfl
      · simp only [if_neg hrc]
        exact ih t'

end RecordReader

end Clib
