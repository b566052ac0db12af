import MiniRunner.Clib.Str

/-!
# Delimited text formats

A `Scanner` reads a record format whose fields end in delimiter bytes: in phase
`q` it collects bytes up to `delim q`, then hands the collected field, read as a
C string, to `field`, which moves to the next phase and may load a record into a
table of type `σ` or reject the input. Bytes after the last delimiter are dropped.

The encoder's side is `run_field`: a field without its delimiter is handed over
whole. Folded over the records of a file it is `run_records`, the round trip of
a format from the round trip of one record. The decoder's side is `run_keeps`:
every field handed over is free of its delimiter, so what a load keeps of one
field holds of the whole table.
-/

namespace Clib

/-- A state machine over delimited fields. -/
structure Scanner (Q σ ε : Type) where
  delim : Q → UInt8
  field : Q → CStr → σ → Except ε (Q × σ)

/-- A phase, the bytes collected since the last delimiter, and the table so far. -/
structure Scan (Q σ : Type) where
  phase : Q
  token : Bytes
  table : σ

namespace Scanner

variable {Q σ ε : Type}

def step (S : Scanner Q σ ε) (c : Scan Q σ) (b : UInt8) : Except ε (Scan Q σ) :=
  if b = S.delim c.phase then
    (S.field c.phase (CStr.ofBytes c.token) c.table).map fun p => ⟨p.1, [], p.2⟩
  else .ok ⟨c.phase, c.token ++ [b], c.table⟩

def run (S : Scanner Q σ ε) (c : Scan Q σ) (bs : Bytes) : Except ε (Scan Q σ) :=
  bs.foldlM S.step c

/-- The table read from a whole input, starting in phase `q`. -/
def parse (S : Scanner Q σ ε) (q : Q) (bs : Bytes) (t : σ) : Except ε σ :=
  (S.run ⟨q, [], t⟩ bs).map (·.table)

@[simp] theorem run_nil (S : Scanner Q σ ε) (c : Scan Q σ) : S.run c [] = .ok c := rfl

theorem run_append (S : Scanner Q σ ε) (c : Scan Q σ) (bs cs : Bytes) :
    S.run c (bs ++ cs) = S.run c bs >>= fun c' => S.run c' cs := by
  simp [run, List.foldlM_append]

theorem run_cons (S : Scanner Q σ ε) (c : Scan Q σ) (b : UInt8) (bs : Bytes) :
    S.run c (b :: bs) = S.step c b >>= fun c' => S.run c' bs := by
  simp [run]

/-! ## Reading what was written -/

theorem run_token (S : Scanner Q σ ε) {q : Q} {bs : Bytes} (h : S.delim q ∉ bs) :
    ∀ (tok : Bytes) (t : σ), S.run ⟨q, tok, t⟩ bs = .ok ⟨q, tok ++ bs, t⟩ := by
  induction bs with
  | nil => intro tok t; simp
  | cons b bs ih =>
    intro tok t
    obtain ⟨hb, hbs⟩ := not_or.mp (List.mem_cons.not.mp h)
    have hstep : S.step ⟨q, tok, t⟩ b = .ok ⟨q, tok ++ [b], t⟩ := if_neg fun e => hb e.symm
    rw [run_cons, hstep]
    show S.run ⟨q, tok ++ [b], t⟩ bs = _
    rw [ih hbs, List.append_assoc]
    rfl

/-- **One field**: a string without its delimiter is handed over whole. -/
theorem run_field (S : Scanner Q σ ε) {q : Q} {s : CStr} (h : S.delim q ∉ s.bytes) (t : σ)
    (rest : Bytes) :
    S.run ⟨q, [], t⟩ (s.bytes ++ S.delim q :: rest) =
      S.field q s t >>= fun p => S.run ⟨p.1, [], p.2⟩ rest := by
  rw [run_append, run_token S h]
  show S.run ⟨q, s.bytes, t⟩ (S.delim q :: rest) = _
  rw [run_cons]
  simp only [step, if_true, CStr.ofBytes_bytes]
  cases S.field q s t <;> rfl

/-- **The records of a file**: if each record's text loads that record, the
concatenated texts load the records in order. -/
theorem run_records {α : Type} (S : Scanner Q σ ε) (q : Q) (enc : α → Bytes)
    (load : σ → α → Except ε σ) {rs : List α}
    (hrec : ∀ r ∈ rs, ∀ t rest, S.run ⟨q, [], t⟩ (enc r ++ rest) =
      load t r >>= fun t' => S.run ⟨q, [], t'⟩ rest) :
    ∀ (t : σ) (rest : Bytes), S.run ⟨q, [], t⟩ (rs.flatMap enc ++ rest) =
      rs.foldlM load t >>= fun t' => S.run ⟨q, [], t'⟩ rest := by
  induction rs with
  | nil => intro t rest; rfl
  | cons r rs ih =>
    intro t rest
    rw [List.flatMap_cons, List.append_assoc, hrec r (by simp)]
    simp only [List.foldlM_cons, bind_assoc]
    congr 1
    funext t'
    exact ih (fun r' hr' => hrec r' (by simp [hr'])) t' rest

theorem parse_records {α : Type} (S : Scanner Q σ ε) (q : Q) (enc : α → Bytes)
    (load : σ → α → Except ε σ) {rs : List α}
    (hrec : ∀ r ∈ rs, ∀ t rest, S.run ⟨q, [], t⟩ (enc r ++ rest) =
      load t r >>= fun t' => S.run ⟨q, [], t'⟩ rest) (t : σ) :
    S.parse q (rs.flatMap enc) t = rs.foldlM load t := by
  have h := run_records S q enc load hrec t []
  rw [List.append_nil] at h
  rw [parse, h]
  cases rs.foldlM load t <;> rfl

/-! ## What a reader can rely on -/

/-- **Fields are free of their delimiter.** A relation between phase and table
that each field keeps, given that the field has no delimiter in it, holds after
any input. -/
theorem run_keeps (S : Scanner Q σ ε) {I : Q → σ → Prop}
    (hfield : ∀ {q s t q' t'}, S.delim q ∉ s.bytes → I q t → S.field q s t = .ok (q', t') →
      I q' t') :
    ∀ (bs : Bytes) {c c' : Scan Q σ}, S.delim c.phase ∉ c.token → I c.phase c.table →
      S.run c bs = .ok c' → I c'.phase c'.table := by
  intro bs
  induction bs with
  | nil =>
    intro c c' _ hI h
    cases h
    exact hI
  | cons b bs ih =>
    intro c c' htok hI h
    rw [run_cons] at h
    unfold step at h
    split at h
    · cases hf : S.field c.phase (CStr.ofBytes c.token) c.table with
      | error e => rw [hf] at h; cases h
      | ok p =>
        rw [hf] at h
        exact ih (by simp) (hfield (CStr.notMem_ofBytes htok) hI hf) h
    · rename_i hb
      refine ih (c := ⟨c.phase, c.token ++ [b], c.table⟩) ?_ hI h
      simp only [List.mem_append, List.mem_singleton, not_or]
      exact ⟨htok, fun e => hb e.symm⟩

theorem parse_keeps (S : Scanner Q σ ε) {I : Q → σ → Prop} {q : Q} {bs : Bytes} {t t' : σ}
    (hfield : ∀ {q s t q' t'}, S.delim q ∉ s.bytes → I q t → S.field q s t = .ok (q', t') →
      I q' t')
    (hI : I q t) (h : S.parse q bs t = .ok t') : ∃ q', I q' t' := by
  unfold parse at h
  cases hr : S.run ⟨q, [], t⟩ bs with
  | error e => rw [hr] at h; cases h
  | ok c =>
    rw [hr] at h
    cases h
    exact ⟨c.phase, run_keeps S hfield bs (c := ⟨q, [], t⟩) (by simp) hI hr⟩

/-! ## What a scan fails with -/

/-- Where each field keeps `I` of the table and can only fail with a `P`, a whole input
can only fail with a `P`. -/
theorem run_fails (S : Scanner Q σ ε) {I : σ → Prop} {P : ε → Prop}
    (hkeep : ∀ {q s t q' t'}, I t → S.field q s t = .ok (q', t') → I t')
    (hfail : ∀ {q s t e}, I t → S.field q s t = .error e → P e) :
    ∀ (bs : Bytes) {c : Scan Q σ} {e : ε}, I c.table → S.run c bs = .error e → P e := by
  intro bs
  induction bs with
  | nil =>
    intro c e _ h
    cases h
  | cons b bs ih =>
    intro c e hI h
    rw [run_cons] at h
    unfold step at h
    split at h
    · cases hf : S.field c.phase (CStr.ofBytes c.token) c.table with
      | error e' =>
        rw [hf] at h
        cases h
        exact hfail hI hf
      | ok p =>
        rw [hf] at h
        exact ih (c := ⟨p.1, [], p.2⟩) (hkeep hI hf) h
    · exact ih (c := ⟨c.phase, c.token ++ [b], c.table⟩) hI h

theorem parse_fails (S : Scanner Q σ ε) {I : σ → Prop} {P : ε → Prop} {q : Q} {bs : Bytes}
    {t : σ} {e : ε} (hkeep : ∀ {q s t q' t'}, I t → S.field q s t = .ok (q', t') → I t')
    (hfail : ∀ {q s t e}, I t → S.field q s t = .error e → P e) (hI : I t)
    (h : S.parse q bs t = .error e) : P e := by
  unfold parse at h
  cases hr : S.run ⟨q, [], t⟩ bs with
  | ok c => rw [hr] at h; cases h
  | error e' =>
    rw [hr] at h
    cases h
    exact run_fails S hkeep hfail bs (c := ⟨q, [], t⟩) hI hr

/-! ## Two tables -/

/-- Tables that each field loads alike are loaded alike by a whole input. -/
theorem run_simulates (S : Scanner Q σ ε) {R : σ → σ → Prop}
    (hfield : ∀ {q s t u q' t'}, R t u → S.field q s t = .ok (q', t') →
      ∃ u', S.field q s u = .ok (q', u') ∧ R t' u') :
    ∀ (bs : Bytes) {q : Q} {tok : Bytes} {t u : σ} {c : Scan Q σ}, R t u →
      S.run ⟨q, tok, t⟩ bs = .ok c →
      ∃ u', S.run ⟨q, tok, u⟩ bs = .ok ⟨c.phase, c.token, u'⟩ ∧ R c.table u' := by
  intro bs
  induction bs with
  | nil =>
    intro q tok t u c hR h
    cases h
    exact ⟨u, rfl, hR⟩
  | cons b bs ih =>
    intro q tok t u c hR h
    simp only [run_cons, step] at h ⊢
    split at h
    · rename_i hb
      rw [if_pos hb]
      cases hf : S.field q (CStr.ofBytes tok) t with
      | error e => rw [hf] at h; cases h
      | ok p =>
        rw [hf] at h
        obtain ⟨u', hu', hR'⟩ := hfield hR hf
        rw [hu']
        exact ih hR' h
    · rename_i hb
      rw [if_neg hb]
      exact ih hR h

theorem parse_simulates (S : Scanner Q σ ε) {R : σ → σ → Prop}
    (hfield : ∀ {q s t u q' t'}, R t u → S.field q s t = .ok (q', t') →
      ∃ u', S.field q s u = .ok (q', u') ∧ R t' u')
    {q : Q} {bs : Bytes} {t u t' : σ} (hR : R t u) (h : S.parse q bs t = .ok t') :
    ∃ u', S.parse q bs u = .ok u' ∧ R t' u' := by
  unfold parse at h ⊢
  cases hr : S.run ⟨q, [], t⟩ bs with
  | error e => rw [hr] at h; cases h
  | ok c =>
    rw [hr] at h
    cases h
    obtain ⟨u', hu', hR'⟩ := run_simulates S hfield bs hR hr
    exact ⟨u', by rw [hu']; rfl, hR'⟩

/-! ## Changing the error -/

/-- The same scanner with its errors translated. -/
def mapError {ε' : Type} (f : ε → ε') (S : Scanner Q σ ε) : Scanner Q σ ε' where
  delim := S.delim
  field q s t := (S.field q s t).mapError f

theorem run_mapError {ε' : Type} (f : ε → ε') (S : Scanner Q σ ε) (bs : Bytes) :
    ∀ c, (S.mapError f).run c bs = (S.run c bs).mapError f := by
  induction bs with
  | nil => intro c; rfl
  | cons b bs ih =>
    intro c
    have hstep : (S.mapError f).step c b = (S.step c b).mapError f := by
      by_cases hb : b = S.delim c.phase
      · have hl : (S.mapError f).step c b = _ := if_pos hb
        have hr : S.step c b = _ := if_pos hb
        rw [hl, hr]
        simp only [mapError]
        cases S.field c.phase (CStr.ofBytes c.token) c.table <;> rfl
      · have hl : (S.mapError f).step c b = _ := if_neg hb
        have hr : S.step c b = _ := if_neg hb
        rw [hl, hr]
        rfl
    rw [run_cons, run_cons, hstep]
    cases S.step c b with
    | error e => rfl
    | ok c' => exact ih c'

theorem parse_mapError {ε' : Type} (f : ε → ε') (S : Scanner Q σ ε) (q : Q) (bs : Bytes) (t : σ) :
    (S.mapError f).parse q bs t = (S.parse q bs t).mapError f := by
  simp only [parse, run_mapError]
  cases S.run ⟨q, [], t⟩ bs <;> rfl

end Scanner

end Clib
