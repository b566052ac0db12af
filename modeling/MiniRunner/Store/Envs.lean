import MiniRunner.Clib.RecordFormat
import MiniRunner.Exceptions

/-!
# The environment store

`env_man/parse.c`, `env_man/load_env.c` and the text half of `fini/save_parse.c`.
A record is the name, a grave accent, the key, `^`, the value and a newline.

`loadEnv` grows its array by a number of slots but records the number of bytes as
the new capacity, so after the first growth the array holds 40 entries and the
capacity says 320: `EnvBlock` is what holds of the two, and one entry more than
40 is written out of bounds.
-/

namespace MiniRunner

open Clib

/-! ## Loading -/

/-- `newCapacity` is a number of bytes, and is recorded as the capacity. -/
def envGrowth : Table.Growth := fun capacity _ =>
  (pointerSize * (capacity + initialScaleOfEnv), capacity + initialScaleOfEnv)

/-- Two entries may not share both key and name. -/
def envClash (y x : Env) : Bool := y.key == x.key && y.name == x.name

def loadEnv (newEnv : Env) (envs : Table Env) : Except Halt (Int × Table Env) :=
  envs.insert envGrowth (envClash · newEnv) newEnv

/-- The states of `loadEnvs`, with the fields collected so far. -/
inductive EnvField where
  | findName
  | findKey (name : CStr)
  | findValue (name key : CStr)

def envsScanner : Scanner EnvField (Table Env) Halt where
  delim
    | .findName => backquote
    | .findKey _ => caret
    | .findValue _ _ => newline
  field
    | .findName, name, envs => .ok (.findKey name, envs)
    | .findKey name, key, envs => .ok (.findValue name key, envs)
    | .findValue name key, value, envs =>
      (orAbort (loadEnv ⟨name, key, value⟩ envs)).map (.findName, ·)

def loadEnvs (envs : Table Env) (data : Bytes) : Except Halt (Table Env) :=
  envsScanner.parse .findName data envs

/-! ## Saving -/

/-- Name, grave accent, key, `^`, value, newline. -/
def envText (e : Env) : Bytes :=
  e.name.bytes ++ backquote :: (e.key.bytes ++ caret :: (e.value.bytes ++ [newline]))

/-- `dataToWrite`, built by appending one record after another. -/
def envsText (envs : List Env) : Bytes := envs.foldl (fun text e => text ++ envText e) []

/-! ## The format -/

structure Env.Ok (e : Env) : Prop where
  name : backquote ∉ e.name.bytes
  key : caret ∉ e.key.bytes
  value : newline ∉ e.value.bytes

namespace EnvField

def Ok : EnvField → Prop
  | findName => True
  | findKey name => backquote ∉ name.bytes
  | findValue name key => backquote ∉ name.bytes ∧ caret ∉ key.bytes

end EnvField

theorem envs_record {e : Env} (he : e.Ok) (t : Table Env) (rest : Bytes) :
    envsScanner.run ⟨.findName, [], t⟩ (envText e ++ rest) =
      orAbort (loadEnv e t) >>= fun t' => envsScanner.run ⟨.findName, [], t'⟩ rest := by
  have hname := Scanner.run_field envsScanner (q := .findName) he.name
  have hkey := Scanner.run_field envsScanner (q := .findKey e.name) he.key
  have hvalue := Scanner.run_field envsScanner (q := .findValue e.name e.key) he.value
  have htext : envText e ++ rest = e.name.bytes ++ backquote :: (e.key.bytes ++ caret ::
      (e.value.bytes ++ newline :: rest)) := by
    simp [envText]
  rw [htext]
  refine (hname t _).trans ((hkey t _).trans ((hvalue t rest).trans ?_))
  simp only [envsScanner]
  cases orAbort (loadEnv e t) <;> rfl

def envsFormat : RecordFormat EnvField Env where
  scanner := envsScanner
  start := .findName
  text := envText
  load t e := orAbort (loadEnv e t)
  readBack := id
  Ok := Env.Ok
  PhaseOk := EnvField.Ok
  start_ok := trivial
  record := envs_record
  field_loads {q s t q' t'} hdelim hq h := by
    cases q with
    | findName =>
      cases h
      exact ⟨hdelim, .inl rfl⟩
    | findKey name =>
      cases h
      exact ⟨⟨hq, hdelim⟩, .inl rfl⟩
    | findValue name key =>
      cases hl : orAbort (loadEnv ⟨name, key, s⟩ t) with
      | error e => simp only [envsScanner, hl] at h; cases h
      | ok u =>
        simp only [envsScanner, hl] at h
        cases h
        exact ⟨trivial, .inr ⟨⟨name, key, s⟩, ⟨hq.1, hq.2, hdelim⟩, hl⟩⟩

/-! ## The block -/

def envLimit : Nat := 40

def EnvBlock (t : Table Env) : Prop :=
  (t.capacity = 20 ∧ t.slots = 20) ∨ (t.capacity = 320 ∧ t.slots = 40)

theorem EnvBlock.append {t : Table Env} (ht : EnvBlock t) (x : Env)
    (h : t.items.length < envLimit) : ∃ t', t.append envGrowth x = .ok t' ∧ EnvBlock t' := by
  have hin := t.inBlock
  simp only [envLimit] at h
  by_cases hfull : t.capacity ≤ t.items.length
  · have hcap : t.capacity = 20 := by
      rcases ht with ⟨hc, _⟩ | ⟨hc, _⟩ <;> omega
    refine ⟨_, Table.append_of_full hfull ?_, .inr ?_⟩
    · simp only [envGrowth, hcap, initialScaleOfEnv]
      omega
    · simp [envGrowth, hcap, initialScaleOfEnv, pointerSize]
  · refine ⟨_, Table.append_of_room (by omega) ?_, ht⟩
    rcases ht with ⟨hc, hs⟩ | ⟨hc, hs⟩ <;> omega

/-- **The 41st entry** has no slot. -/
theorem EnvBlock.append_full {t : Table Env} (ht : EnvBlock t) (x : Env)
    (h : envLimit ≤ t.items.length) : t.append envGrowth x = .error .undefined := by
  have hin := t.inBlock
  simp only [envLimit] at h
  obtain ⟨hc, hs⟩ : t.capacity = 320 ∧ t.slots = 40 := by
    rcases ht with ⟨hc, hs⟩ | h'
    · omega
    · exact h'
  have hr : t.reserve envGrowth = .ok t := if_neg (by omega)
  rw [Table.append, hr]
  exact dif_neg (by omega)

theorem EnvBlock.keeps {t t' : Table Env} {x : Env} (ht : EnvBlock t)
    (h : t.append envGrowth x = .ok t') : EnvBlock t' := by
  by_cases hlt : t.items.length < envLimit
  · obtain ⟨t'', h', ht''⟩ := ht.append x hlt
    rw [h] at h'
    cases h'
    exact ht''
  · rw [ht.append_full x (by omega)] at h
    cases h

theorem EnvBlock.length_le {t : Table Env} (ht : EnvBlock t) : t.items.length ≤ envLimit := by
  have := t.inBlock
  simp only [envLimit]
  rcases ht with ⟨_, hs⟩ | ⟨_, hs⟩ <;> omega

theorem envs_loads : Loads (envClash · · = true) EnvBlock envLimit envsFormat.load :=
  Loads.of_insert (fun x ht h => ht.append x h) fun ht h => ht.keeps h

/-! ## The store -/

/-- The table the constructor allocates before it loads. -/
def initialEnvs : Table Env := .alloc initialScaleOfEnv

theorem envBlock_initialEnvs : EnvBlock initialEnvs := .inl ⟨rfl, rfl⟩

abbrev DistinctEnvs (l : List Env) : Prop := Distinct (envClash · · = true) l

theorem envsText_eq (l : List Env) : envsText l = envsFormat.textAll l :=
  List.flatMap_eq_foldl.symm

theorem loadEnvs_sound {data : Bytes} {t : Table Env} (h : loadEnvs initialEnvs data = .ok t) :
    (∀ e ∈ t.items, e.Ok) ∧ DistinctEnvs t.items ∧ EnvBlock t :=
  envsFormat.parse_sound envs_loads envBlock_initialEnvs rfl h

/-- **Saving and loading env entries.** Distinct entries without stray delimiters
that fit the array are read back as they were. -/
theorem loadEnvs_envsText {l : List Env} (hok : ∀ e ∈ l, e.Ok) (hd : DistinctEnvs l)
    (hn : l.length ≤ envLimit) :
    ∃ t, loadEnvs initialEnvs (envsText l) = .ok t ∧ t.items = l := by
  obtain ⟨t, h, hitems, _⟩ := envsFormat.parse_text envs_loads envBlock_initialEnvs rfl hok
    (by simpa [envsFormat] using hd) hn
  rw [envsText_eq]
  exact ⟨t, h, by simpa [envsFormat] using hitems⟩

/-! ## A newline inside a value -/

/-- An entry as the decoder reads it, up to the first newline of its value. -/
def Env.cut (e : Env) : Env := { e with value := e.value.before newline }

/-- The entry that follows in the file: the rest of the value runs into its name. -/
def Env.glued (value : CStr) (next : Env) : Env :=
  { next with
    name := (value.after newline).append ((⟨[newline], by decide⟩ : CStr).append next.name) }

theorem envText_glued {e : Env} (h : newline ∈ e.value.bytes) (next : Env) :
    envText e ++ envText next = envText e.cut ++ envText (next.glued e.value) := by
  have hsplit := CStr.before_after h
  simp only [envText, Env.cut, Env.glued, CStr.append_bytes]
  conv_lhs => rw [hsplit]
  simp

theorem envText_cut {e : Env} (h : newline ∈ e.value.bytes) :
    envText e = envText e.cut ++ ((e.value.after newline).bytes ++ [newline]) := by
  have hsplit := CStr.before_after h
  simp only [envText, Env.cut]
  conv_lhs => rw [hsplit]
  simp

theorem Env.cut_ok {e : Env} (hname : backquote ∉ e.name.bytes) (hkey : caret ∉ e.key.bytes) :
    e.cut.Ok :=
  ⟨hname, hkey, CStr.notMem_before newline e.value⟩

theorem Env.glued_ok {next : Env} (hnext : next.Ok) {value : CStr}
    (hvalue : backquote ∉ value.bytes) : (next.glued value).Ok := by
  refine ⟨?_, hnext.key, hnext.value⟩
  simp only [Env.glued, CStr.append_bytes, List.mem_append, List.mem_singleton, not_or]
  exact ⟨fun h => hvalue (CStr.mem_of_mem_after h), by decide, hnext.name⟩

/-- Behind the last entry the rest of a value is dropped. -/
theorem loadEnvs_cut_last {l : List Env} {e : Env} (hl : ∀ x ∈ l, x.Ok)
    (hname : backquote ∉ e.name.bytes) (hkey : caret ∉ e.key.bytes)
    (hvalue : backquote ∉ e.value.bytes) (hnewline : newline ∈ e.value.bytes) :
    loadEnvs initialEnvs (envsText (l ++ [e])) =
      loadEnvs initialEnvs (envsText (l ++ [e.cut])) := by
  have hok : ∀ x ∈ l ++ [e.cut], envsFormat.Ok x := fun x hx => by
    rcases List.mem_append.mp hx with hx | hx
    · exact hl x hx
    · rw [List.mem_singleton.mp hx]
      exact Env.cut_ok hname hkey
  have htext : envsText (l ++ [e]) =
      envsFormat.textAll (l ++ [e.cut]) ++ ((e.value.after newline).bytes ++ [newline]) := by
    rw [envsText_eq, RecordFormat.textAll, RecordFormat.textAll, List.flatMap_append,
      List.flatMap_append, List.append_assoc]
    congr 1
    simp only [List.flatMap_singleton]
    exact envText_cut hnewline
  have hrest : envsFormat.scanner.delim envsFormat.start ∉
      (e.value.after newline).bytes ++ [newline] := by
    simp only [List.mem_append, List.mem_singleton, not_or]
    exact ⟨fun h => hvalue (CStr.mem_of_mem_after h), by decide⟩
  rw [htext, envsText_eq]
  exact envsFormat.parse_textAll_append hok hrest initialEnvs

theorem envsText_glued {before after : List Env} {e next : Env} (h : newline ∈ e.value.bytes) :
    envsText (before ++ e :: next :: after) =
      envsText (before ++ e.cut :: next.glued e.value :: after) := by
  simp only [envsText_eq, RecordFormat.textAll, List.flatMap_append, List.flatMap_cons]
  congr 1
  rw [← List.append_assoc, ← List.append_assoc]
  congr 1
  exact envText_glued h next

end MiniRunner
