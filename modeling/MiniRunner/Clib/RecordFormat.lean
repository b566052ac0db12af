import MiniRunner.Clib.FieldScan
import MiniRunner.Clib.Ledger

/-!
# Stores of records

A `RecordFormat` joins a scanner to the text of one record: the text of a
well-formed record loads what the record reads back as (`record`), and a field
the scanner accepts either stays inside a record or loads a well-formed one
(`field_loads`). So every accepted input amounts to a list of well-formed records
loaded one after another (`parse_eq_fold`), and with the `Loads` contract of the
table this gives both directions of a store: what a read yields (`parse_sound`),
and what writing well-formed records and reading them back yields (`parse_text`).
A format that loses nothing has `readBack := id`.
-/

namespace Clib

structure RecordFormat (Q α : Type) where
  scanner : Scanner Q (Table α) Halt
  start : Q
  text : α → Bytes
  load : Table α → α → Except Halt (Table α)
  /-- The record a reader makes of the text of a record. -/
  readBack : α → α
  /-- What the delimiters leave possible in a record. -/
  Ok : α → Prop
  /-- The same for the fields a phase has collected. -/
  PhaseOk : Q → Prop
  start_ok : PhaseOk start
  record : ∀ {r}, Ok r → ∀ t rest, scanner.run ⟨start, [], t⟩ (text r ++ rest) =
    load t (readBack r) >>= fun t' => scanner.run ⟨start, [], t'⟩ rest
  field_loads : ∀ {q s t q' t'}, scanner.delim q ∉ s.bytes → PhaseOk q →
    scanner.field q s t = .ok (q', t') →
    PhaseOk q' ∧ (t' = t ∨ ∃ r, Ok r ∧ load t r = .ok t')

namespace RecordFormat

variable {Q α : Type} (F : RecordFormat Q α)

def parse (bs : Bytes) (t : Table α) : Except Halt (Table α) := F.scanner.parse F.start bs t

def textAll (rs : List α) : Bytes := rs.flatMap F.text

theorem run_textAll {rs : List α} (h : ∀ r ∈ rs, F.Ok r) (t : Table α) (rest : Bytes) :
    F.scanner.run ⟨F.start, [], t⟩ (F.textAll rs ++ rest) =
      (rs.map F.readBack).foldlM F.load t >>= fun t' =>
        F.scanner.run ⟨F.start, [], t'⟩ rest := by
  rw [List.foldlM_map]
  exact F.scanner.run_records F.start F.text (fun t r => F.load t (F.readBack r))
    (fun r hr => F.record (h r hr)) t rest

theorem parse_textAll {rs : List α} (h : ∀ r ∈ rs, F.Ok r) (t : Table α) :
    F.parse (F.textAll rs) t = (rs.map F.readBack).foldlM F.load t := by
  rw [List.foldlM_map]
  exact F.scanner.parse_records F.start F.text (fun t r => F.load t (F.readBack r))
    (fun r hr => F.record (h r hr)) t

theorem parse_textAll_append {rs : List α} (h : ∀ r ∈ rs, F.Ok r) {rest : Bytes}
    (hrest : F.scanner.delim F.start ∉ rest) (t : Table α) :
    F.parse (F.textAll rs ++ rest) t = F.parse (F.textAll rs) t := by
  rw [F.parse_textAll h, parse, Scanner.parse, F.run_textAll h]
  cases (rs.map F.readBack).foldlM F.load t with
  | error e => rfl
  | ok t' =>
    show (F.scanner.run ⟨F.start, [], t'⟩ rest).map _ = _
    rw [F.scanner.run_token hrest]
    rfl

/-- **Every accepted input is a list of well-formed records**, loaded in turn. -/
theorem parse_eq_fold {bs : Bytes} {t t' : Table α} (h : F.parse bs t = .ok t') :
    ∃ rs : List α, (∀ r ∈ rs, F.Ok r) ∧ rs.foldlM F.load t = .ok t' := by
  have hkeep := F.scanner.parse_keeps
    (I := fun q u => F.PhaseOk q ∧ ∃ rs : List α, (∀ r ∈ rs, F.Ok r) ∧
      rs.foldlM F.load t = .ok u)
    ?_ ⟨F.start_ok, [], by simp, rfl⟩ h
  · obtain ⟨_, _, hrs⟩ := hkeep
    exact hrs
  · rintro q s u q' u' hdelim ⟨hq, rs, hrs, hfold⟩ hfield
    obtain ⟨hq', hload⟩ := F.field_loads hdelim hq hfield
    refine ⟨hq', ?_⟩
    rcases hload with rfl | ⟨r, hr, hload⟩
    · exact ⟨rs, hrs, hfold⟩
    · refine ⟨rs ++ [r], ?_, ?_⟩
      · intro x hx
        rcases List.mem_append.mp hx with hx | hx
        · exact hrs x hx
        · rw [List.mem_singleton.mp hx]
          exact hr
      · rw [List.foldlM_append, hfold]
        show ([r].foldlM F.load u) = _
        rw [List.foldlM_cons, hload]
        rfl

section loads

variable {F} {clash : α → α → Prop} {R : Table α → Prop} {N : Nat}

theorem parse_sound (L : Loads clash R N F.load) {bs : Bytes} {t t' : Table α} (hR : R t)
    (hempty : t.items = []) (h : F.parse bs t = .ok t') :
    (∀ r ∈ t'.items, F.Ok r) ∧ Distinct clash t'.items ∧ R t' := by
  obtain ⟨rs, hrs, hfold⟩ := F.parse_eq_fold h
  obtain ⟨hitems, hd⟩ := L.sound (by rw [hempty]; exact Ledger.distinct_nil) hfold
  rw [hempty, List.nil_append] at hitems
  exact ⟨hitems ▸ hrs, hd, L.foldlM_keeps hR hfold⟩

theorem parse_not_null (L : Loads clash R N F.load) {bs : Bytes} {t t' : Table α}
    (hempty : t.items = []) (hblock : t.isNull = false) (h : F.parse bs t = .ok t') :
    t'.isNull = false := by
  by_cases ht : t'.items = []
  · obtain ⟨rs, -, hfold⟩ := F.parse_eq_fold h
    obtain ⟨hitems, -⟩ := L.sound (by rw [hempty]; exact Ledger.distinct_nil) hfold
    rw [hempty, List.nil_append, ht] at hitems
    subst hitems
    cases hfold
    exact hblock
  · exact Table.isNull_eq_false ht

/-- **Writing and reading back**: records that read back distinct all arrive. -/
theorem parse_text (L : Loads clash R N F.load) {rs : List α} {t : Table α} (hR : R t)
    (hempty : t.items = []) (hok : ∀ r ∈ rs, F.Ok r) (hd : Distinct clash (rs.map F.readBack))
    (hN : rs.length ≤ N) :
    ∃ t', F.parse (F.textAll rs) t = .ok t' ∧ t'.items = rs.map F.readBack ∧ R t' := by
  have hN' : (t.items ++ rs.map F.readBack).length ≤ N := by simpa [hempty] using hN
  obtain ⟨t', h, hitems, hR'⟩ := L.complete hR hN' (by simpa [hempty] using hd)
  exact ⟨t', by rw [F.parse_textAll hok, h], by simpa [hempty] using hitems, hR'⟩

theorem parse_text_iff (L : Loads clash R N F.load) {rs : List α} {t : Table α} (hR : R t)
    (hempty : t.items = []) (hok : ∀ r ∈ rs, F.Ok r) (hN : rs.length ≤ N) :
    (∃ t', F.parse (F.textAll rs) t = .ok t') ↔ Distinct clash (rs.map F.readBack) := by
  rw [F.parse_textAll hok]
  exact L.ok_iff hR hempty (by simpa using hN)

theorem parse_text_items (L : Loads clash R N F.load) {rs : List α} {t t' : Table α}
    (hempty : t.items = []) (hok : ∀ r ∈ rs, F.Ok r) (h : F.parse (F.textAll rs) t = .ok t') :
    t'.items = rs.map F.readBack := by
  rw [F.parse_textAll hok] at h
  have hitems := (L.sound (by rw [hempty]; exact Ledger.distinct_nil) h).1
  rwa [hempty, List.nil_append] at hitems

end loads

end RecordFormat

end Clib
