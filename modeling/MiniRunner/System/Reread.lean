import MiniRunner.Fini

/-!
# What a table is read back as

The encoder of the env entries writes a newline in a value as it is, and the decoder ends
the value there and takes the rest into the name of the entry that follows, or drops it
behind the last one. `rereadEnvs` is that on whole tables, whichever values have newlines,
and `loadEnvs_rereadEnvs` says that the env file of a table loads as it: exactly when its
entries are apart, and then as they are.

The memory of a limit is read back saturated at 63 bits.
-/

namespace MiniRunner

open Clib

/-! ## Env entries -/

/-- An entry behind a value that ran into it, if one did. -/
def Env.behind (carry : Option CStr) (e : Env) : Env :=
  match carry with
  | none => e
  | some value => e.glued value

/-- The entries as they are read back; `carry` is a value that runs into the first of them. -/
def rereadFrom : Option CStr → List Env → List Env
  | _, [] => []
  | carry, e :: l =>
    if newline ∈ e.value.bytes then (e.behind carry).cut :: rereadFrom (some e.value) l
    else e.behind carry :: rereadFrom none l

def rereadEnvs (l : List Env) : List Env := rereadFrom none l

/-- An entry as it may be in memory: loaded, or with a newline in its value and accepted. -/
structure Env.Savable (e : Env) : Prop where
  name : backquote ∉ e.name.bytes
  key : caret ∉ e.key.bytes
  value : newline ∈ e.value.bytes → backquote ∉ e.value.bytes

theorem Env.Ok.savable {e : Env} (h : e.Ok) : e.Savable :=
  ⟨h.name, h.key, fun hnewline => absurd hnewline h.value⟩

@[simp] theorem length_rereadFrom (carry : Option CStr) (l : List Env) :
    (rereadFrom carry l).length = l.length := by
  induction l generalizing carry with
  | nil => rfl
  | cons e l ih =>
    rw [rereadFrom]
    split <;> simp [ih]

@[simp] theorem length_rereadEnvs (l : List Env) : (rereadEnvs l).length = l.length :=
  length_rereadFrom none l

/-- The part of the text that a value leaves behind it. -/
def carryText : Option CStr → Bytes
  | none => []
  | some value => (value.after newline).bytes ++ [newline]

/-- A value that may run into the next entry. -/
def CarryOk : Option CStr → Prop
  | none => True
  | some value => backquote ∉ value.bytes

theorem carryOk_none : CarryOk none := trivial

theorem backquote_notMem_carryText {carry : Option CStr} (h : CarryOk carry) :
    backquote ∉ carryText carry := by
  cases carry with
  | none => exact List.not_mem_nil
  | some value =>
    simp only [carryText, List.mem_append, List.mem_singleton, not_or]
    exact ⟨fun hmem => h (CStr.mem_of_mem_after hmem), by decide⟩

theorem behind_value (carry : Option CStr) (e : Env) : (e.behind carry).value = e.value := by
  cases carry <;> rfl

theorem behind_key (carry : Option CStr) (e : Env) : (e.behind carry).key = e.key := by
  cases carry <;> rfl

theorem backquote_notMem_behind {carry : Option CStr} (h : CarryOk carry) {e : Env}
    (he : backquote ∉ e.name.bytes) : backquote ∉ (e.behind carry).name.bytes := by
  cases carry with
  | none => exact he
  | some value =>
    simp only [Env.behind, Env.glued, CStr.append_bytes, List.mem_append, List.mem_singleton,
      not_or]
    exact ⟨fun hmem => h (CStr.mem_of_mem_after hmem), by decide, he⟩

theorem envText_behind (carry : Option CStr) (e : Env) :
    carryText carry ++ envText e = envText (e.behind carry) := by
  cases carry with
  | none => rfl
  | some value => simp [carryText, envText, Env.behind, Env.glued]

/-- What is read back can be read back again. -/
theorem ok_rereadFrom {l : List Env} (hl : ∀ e ∈ l, e.Savable) :
    ∀ {carry : Option CStr}, CarryOk carry → ∀ e ∈ rereadFrom carry l, e.Ok := by
  induction l with
  | nil => exact fun _ _ he => (List.not_mem_nil he).elim
  | cons x l ih =>
    intro carry hcarry
    obtain ⟨hx, hrest⟩ := List.forall_mem_cons.mp hl
    have hname := backquote_notMem_behind hcarry hx.name
    have hkey : caret ∉ (x.behind carry).key.bytes := by
      rw [behind_key]
      exact hx.key
    rw [rereadFrom]
    split
    · rename_i hnewline
      exact List.forall_mem_cons.mpr ⟨Env.cut_ok hname hkey, ih hrest (hx.value hnewline)⟩
    · rename_i hnewline
      refine List.forall_mem_cons.mpr ⟨⟨hname, hkey, ?_⟩, ih hrest trivial⟩
      rwa [behind_value]

/-- The text of a table is that of the entries read back, and a rest without a backquote. -/
theorem textAll_rereadFrom {l : List Env} (hl : ∀ e ∈ l, e.Savable) :
    ∀ {carry : Option CStr}, CarryOk carry → ∃ rest, backquote ∉ rest ∧
      carryText carry ++ envsFormat.textAll l =
        envsFormat.textAll (rereadFrom carry l) ++ rest := by
  induction l with
  | nil =>
    intro carry hcarry
    exact ⟨carryText carry, backquote_notMem_carryText hcarry, List.append_nil _⟩
  | cons e l ih =>
    intro carry hcarry
    obtain ⟨he, hrest⟩ := List.forall_mem_cons.mp hl
    have hcons : ∀ (x : Env) (m : List Env),
        envsFormat.textAll (x :: m) = envText x ++ envsFormat.textAll m := fun _ _ => rfl
    rw [hcons, ← List.append_assoc, envText_behind, rereadFrom]
    split
    · rename_i hnewline
      have hcarry : CarryOk (some e.value) := he.value hnewline
      obtain ⟨rest, hno, htext⟩ := ih hrest hcarry
      have hcut : envText (e.behind carry) =
          envText (e.behind carry).cut ++ carryText (some e.value) := by
        have hmem : newline ∈ (e.behind carry).value.bytes := by rwa [behind_value]
        rw [envText_cut hmem, behind_value]
        rfl
      refine ⟨rest, hno, ?_⟩
      rw [hcut, List.append_assoc, htext, hcons, List.append_assoc]
    · obtain ⟨rest, hno, htext⟩ := ih hrest carryOk_none
      refine ⟨rest, hno, ?_⟩
      rw [hcons, List.append_assoc, ← htext]
      rfl

theorem ok_rereadEnvs {l : List Env} (hl : ∀ e ∈ l, e.Savable) : ∀ e ∈ rereadEnvs l, e.Ok :=
  ok_rereadFrom hl carryOk_none

theorem loadEnvs_textAll {l : List Env} (hl : ∀ e ∈ l, e.Savable) :
    loadEnvs initialEnvs (envsText l) = loadEnvs initialEnvs (envsText (rereadEnvs l)) := by
  obtain ⟨rest, hno, htext⟩ := textAll_rereadFrom hl carryOk_none
  rw [envsText_eq, envsText_eq, show envsFormat.textAll l =
    envsFormat.textAll (rereadEnvs l) ++ rest from htext]
  exact envsFormat.parse_textAll_append (ok_rereadEnvs hl) hno initialEnvs

/-- **What any table of env entries is read back as**: `rereadEnvs` of it, or nothing if two
of those entries have the same name and key. -/
theorem loadEnvs_rereadEnvs {l : List Env} (hl : ∀ e ∈ l, e.Savable)
    (hlen : l.length ≤ envLimit) :
    ((∃ t, loadEnvs initialEnvs (envsText l) = .ok t) ↔ DistinctEnvs (rereadEnvs l)) ∧
      ∀ t, loadEnvs initialEnvs (envsText l) = .ok t → t.items = rereadEnvs l := by
  have hok : ∀ e ∈ rereadEnvs l, envsFormat.Ok e := ok_rereadEnvs hl
  have hlen' : (rereadEnvs l).length ≤ envLimit := by rwa [length_rereadEnvs]
  rw [loadEnvs_textAll hl, envsText_eq]
  constructor
  · refine (envsFormat.parse_text_iff envs_loads envBlock_initialEnvs rfl hok hlen').trans ?_
    simp [envsFormat]
  · intro t ht
    exact (envsFormat.parse_text_items envs_loads rfl hok ht).trans (List.map_id _)

theorem rereadEnvs_of_ok {l : List Env} (hl : ∀ e ∈ l, newline ∉ e.value.bytes) :
    rereadEnvs l = l := by
  induction l with
  | nil => rfl
  | cons e l ih =>
    obtain ⟨he, hrest⟩ := List.forall_mem_cons.mp hl
    rw [rereadEnvs, rereadFrom, if_neg he]
    exact congrArg (e :: ·) (ih hrest)

/-- **Saving and loading any env entries**: they come back as `rereadEnvs` of them, or not at
all when that has an entry twice, and what came back stays as it is from then on. -/
theorem envs_settle {l : List Env} (hl : ∀ e ∈ l, e.Savable) (hlen : l.length ≤ envLimit) :
    ((∃ t, loadEnvs initialEnvs (envsText l) = .ok t) ↔ DistinctEnvs (rereadEnvs l)) ∧
      ∀ t, loadEnvs initialEnvs (envsText l) = .ok t → t.items = rereadEnvs l ∧
        ∃ u, loadEnvs initialEnvs (envsText t.items) = .ok u ∧ u.items = t.items := by
  obtain ⟨hloads, hitems⟩ := loadEnvs_rereadEnvs hl hlen
  refine ⟨hloads, fun t ht => ⟨hitems t ht, ?_⟩⟩
  obtain ⟨hok, hapart, hblock⟩ := loadEnvs_sound ht
  exact loadEnvs_envsText hok hapart hblock.length_le

/-- A value with a newline, and the entry it runs into. -/
theorem envs_settle_glued :
    let l : List Env := [⟨.ofBytes [97], .ofBytes [107], .ofBytes [49, 10, 50]⟩,
      ⟨.ofBytes [98], .ofBytes [107], .ofBytes [51]⟩]
    ((∃ t, loadEnvs initialEnvs (envsText l) = .ok t) ↔ DistinctEnvs (rereadEnvs l)) ∧
      ∀ t, loadEnvs initialEnvs (envsText l) = .ok t → t.items = rereadEnvs l ∧
        ∃ u, loadEnvs initialEnvs (envsText t.items) = .ok u ∧ u.items = t.items := by
  refine envs_settle ?_ (by decide)
  simp only [List.forall_mem_cons, List.not_mem_nil, false_implies, implies_true, and_true]
  exact ⟨⟨by decide, by decide, fun _ => by decide⟩, ⟨by decide, by decide, fun _ => by decide⟩⟩

/-! ## Limits -/

theorem Limit.readBack_lt (l : Limit) : l.readBack.memory.toNat < 2 ^ 63 := by
  rw [Limit.readBack, toNat_atoll128_fmtNatStr]
  omega

theorem readBack_of_lt {l : List Limit} (h : ∀ x ∈ l, x.memory.toNat < 2 ^ 63) :
    l.map Limit.readBack = l :=
  (List.map_inj_left.mpr fun x hx => x.readBack_eq_iff.mpr (h x hx)).trans (List.map_id l)

end MiniRunner
