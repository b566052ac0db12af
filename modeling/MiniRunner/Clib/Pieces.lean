import Mathlib.Data.List.Basic
import MiniRunner.Clib.Loop

/-!
# Text cut at a separator

`pieces sep text` are the parts of a text that end at a separator or at the end of the text:
a separator at the end starts no further part. `Cut` is what a loop has done that goes over
the text byte by byte and cuts such a part at each separator, from the place behind the one
before: the parts so far, and the place where the next one starts. A loop whose rounds only do
something at a separator is a loop over the parts (`forFrom_parts`).
-/

namespace Clib

variable {α : Type} {text : List α}

theorem drop_eq_append {i last : Nat} (hi : i ≤ text.length) (hlast : last ≤ i) :
    text.drop last = (text.take i).drop last ++ text.drop i := by
  have hlen : (text.take i).length = i := by
    rw [List.length_take]
    omega
  conv_lhs => rw [← List.take_append_drop i text]
  rw [List.drop_append_of_le_length (by omega)]

theorem drop_take_succ {i last : Nat} (h : i < text.length) (hlast : last ≤ i) :
    (text.take (i + 1)).drop last = (text.take i).drop last ++ [text.get ⟨i, h⟩] := by
  have hlen : (text.take i).length = i := by
    rw [List.length_take]
    omega
  rw [List.take_succ_eq_append_getElem h, List.drop_append_of_le_length (by omega)]
  rfl

section behind

variable {o : Nat} {part rest : List α} {c : α}

theorem getElem?_of_drop (h : text.drop o = part ++ rest) {k : Nat} (hk : k < part.length) :
    text[o + k]? = part[k]? := by
  rw [← List.getElem?_drop, h, List.getElem?_append_left hk]

theorem getElem?_behind (h : text.drop o = part ++ c :: rest) :
    text[o + part.length]? = some c := by
  rw [← List.getElem?_drop, h, List.getElem?_append_right (Nat.le_refl _), Nat.sub_self]
  rfl

theorem length_of_drop (h : text.drop o = part ++ rest) (hne : part ++ rest ≠ []) :
    text.length = o + part.length + rest.length := by
  have hlen := congrArg List.length h
  have hpos := List.length_pos_iff.mpr hne
  rw [List.length_drop, List.length_append] at hlen
  rw [List.length_append] at hpos
  omega

theorem drop_next (h : text.drop o = part ++ c :: rest) :
    text.drop (o + part.length + 1) = rest := by
  rw [Nat.add_assoc, ← List.drop_drop, h, ← List.drop_drop, List.drop_left]
  rfl

theorem drop_take_of_drop (h : text.drop o = part ++ rest) :
    (text.take (o + part.length)).drop o = part := by
  rw [List.drop_take, h, Nat.add_sub_cancel_left, List.take_left' rfl]

end behind

/-! ## Loops over the parts -/

section loop

variable {m : Type → Type} [Monad m] {σ : Type} {sep : α}

/-- The rounds at the separators that end the parts, the first of which starts at `o`. -/
def overParts (body : Nat → σ → m σ) : Nat → List (List α) → σ → m σ
  | _, [], s => pure s
  | o, part :: parts, s => do
    let s ← body (o + part.length) s
    overParts body (o + part.length + 1) parts s

variable [LawfulMonad m] {body : Nat → σ → m σ} {o : Nat} {rest : List α}

theorem forFrom_part {part : List α} {n : Nat}
    (hidle : ∀ i s, i + 1 < text.length → text[i]? ≠ some sep → body i s = pure s)
    (hpart : sep ∉ part) (h : text.drop o = part ++ rest) (hn : n ≤ part.length)
    (hend : o + n < text.length) (s : σ) : forFrom body o n s = pure s := by
  refine forFrom_idle fun i hle hlt => ?_
  obtain ⟨k, rfl⟩ := Nat.exists_eq_add_of_le hle
  refine hidle (o + k) s (by omega) fun heq => ?_
  rw [getElem?_of_drop h (by omega)] at heq
  exact hpart (List.mem_of_getElem? heq)

/-- **The loop goes part by part.** -/
theorem forFrom_parts {parts : List (List α)}
    (hidle : ∀ i s, i + 1 < text.length → text[i]? ≠ some sep → body i s = pure s)
    (hparts : ∀ part ∈ parts, sep ∉ part)
    (h : text.drop o = parts.flatMap (· ++ [sep]) ++ rest) (s : σ) :
    forFrom body o (parts.flatMap (· ++ [sep])).length s = overParts body o parts s := by
  induction parts generalizing o s with
  | nil => rfl
  | cons part parts ih =>
    rw [List.flatMap_cons, List.append_assoc, List.append_assoc, List.singleton_append] at h
    have hlen := length_of_drop h (by simp)
    have hend : o + part.length < text.length := by
      rw [hlen, List.length_cons]
      omega
    rw [List.flatMap_cons, List.length_append, List.length_append, List.length_singleton,
      Nat.add_assoc, forFrom_add,
      forFrom_part hidle (hparts part List.mem_cons_self) h (Nat.le_refl _) hend, pure_bind,
      Nat.add_comm 1, forFrom_succ, overParts]
    exact bind_congr fun s' =>
      ih (fun p hp => hparts p (List.mem_cons_of_mem part hp)) (drop_next h) s'

end loop

/-! ## The parts -/

variable [DecidableEq α] {sep : α}

/-- The parts of a text that a separator, or the end of the text, ends. -/
def pieces (sep : α) : List α → List (List α)
  | [] => []
  | c :: text =>
    if c = sep then [] :: pieces sep text
    else
      match pieces sep text with
      | [] => [[c]]
      | p :: ps => (c :: p) :: ps

theorem pieces_eq_nil : pieces sep text = [] ↔ text = [] := by
  cases text with
  | nil => simp [pieces]
  | cons c text =>
    simp only [pieces, reduceCtorEq, iff_false]
    split
    · simp
    · split <;> simp

theorem pieces_cons_of_ne {c : α} (h : c ≠ sep) {p : List α} {ps : List (List α)}
    (htext : pieces sep text = p :: ps) : pieces sep (c :: text) = (c :: p) :: ps := by
  rw [pieces, if_neg h, htext]

theorem pieces_append {p rest : List α} (hp : sep ∉ p) :
    pieces sep (p ++ sep :: rest) = p :: pieces sep rest := by
  induction p with
  | nil => rw [List.nil_append, pieces, if_pos rfl]
  | cons c p ih =>
    obtain ⟨hc, hp⟩ := not_or.mp (List.mem_cons.not.mp hp)
    exact pieces_cons_of_ne (Ne.symm hc) (ih hp)

theorem pieces_of_notMem (hne : text ≠ []) (h : sep ∉ text) : pieces sep text = [text] := by
  induction text with
  | nil => exact absurd rfl hne
  | cons c text ih =>
    obtain ⟨hc, htext⟩ := not_or.mp (List.mem_cons.not.mp h)
    cases text with
    | nil =>
      rw [pieces, if_neg (Ne.symm hc)]
      rfl
    | cons d text => exact pieces_cons_of_ne (Ne.symm hc) (ih (List.cons_ne_nil d text) htext)

theorem mem_of_mem_pieces {p : List α} {c : α} (h : p ∈ pieces sep text) (hc : c ∈ p) :
    c ∈ text := by
  induction text generalizing p with
  | nil => cases h
  | cons d text ih =>
    rw [pieces] at h
    split at h
    · rcases List.mem_cons.mp h with rfl | h
      · cases hc
      · exact List.mem_cons_of_mem d (ih h hc)
    · split at h
      · rw [List.mem_singleton.mp h] at hc
        rw [List.mem_singleton.mp hc]
        exact List.mem_cons_self
      · rename_i q qs hq
        rcases List.mem_cons.mp h with rfl | h
        · rcases List.mem_cons.mp hc with rfl | hc
          · exact List.mem_cons_self
          · exact List.mem_cons_of_mem d (ih (hq ▸ List.mem_cons_self) hc)
        · exact List.mem_cons_of_mem d (ih (hq ▸ List.mem_cons_of_mem q h) hc)

/-- What is no separator is in some part. -/
theorem exists_mem_pieces (sep : α) {c : α} (h : c ∈ text) (hc : c ≠ sep) :
    ∃ p ∈ pieces sep text, c ∈ p := by
  induction text with
  | nil => cases h
  | cons d text ih =>
    rw [pieces]
    split
    · rename_i hd
      rcases List.mem_cons.mp h with rfl | h
      · exact absurd hd hc
      · obtain ⟨p, hp, hcp⟩ := ih h
        exact ⟨p, List.mem_cons_of_mem [] hp, hcp⟩
    · split
      · rename_i hnil
        rw [pieces_eq_nil.mp hnil] at h
        exact ⟨[d], List.mem_cons_self, h⟩
      · rename_i q qs hq
        rcases List.mem_cons.mp h with rfl | h
        · exact ⟨c :: q, List.mem_cons_self, List.mem_cons_self⟩
        · obtain ⟨p, hp, hcp⟩ := ih h
          rw [hq] at hp
          rcases List.mem_cons.mp hp with rfl | hp
          · exact ⟨d :: p, List.mem_cons_self, List.mem_cons_of_mem d hcp⟩
          · exact ⟨p, List.mem_cons_of_mem _ hp, hcp⟩

/-- The first part is the whole text, or a separator follows it. -/
theorem eq_of_head?_pieces {p : List α} (h : (pieces sep text).head? = some p) :
    text = p ∨ ∃ rest, text = p ++ sep :: rest := by
  induction text generalizing p with
  | nil => cases h
  | cons c text ih =>
    rw [pieces] at h
    split at h
    · rename_i hc
      cases h
      exact .inr ⟨text, by rw [hc]; rfl⟩
    · split at h
      · rename_i hnil
        cases h
        exact .inl (by rw [pieces_eq_nil.mp hnil])
      · rename_i q qs hq
        cases h
        rcases ih (p := q) (by rw [hq]; rfl) with rfl | ⟨rest, rfl⟩
        · exact .inl rfl
        · exact .inr ⟨rest, rfl⟩

theorem notMem_of_mem_pieces {p : List α} (h : p ∈ pieces sep text) : sep ∉ p := by
  induction text generalizing p with
  | nil => cases h
  | cons c text ih =>
    rw [pieces] at h
    split at h
    · rcases List.mem_cons.mp h with rfl | h
      · exact List.not_mem_nil
      · exact ih h
    · rename_i hc
      split at h
      · rw [List.mem_singleton.mp h]
        simpa using Ne.symm hc
      · rename_i q qs hq
        rcases List.mem_cons.mp h with rfl | h
        · simpa [Ne.symm hc] using ih (hq ▸ List.mem_cons_self)
        · exact ih (hq ▸ List.mem_cons_of_mem q h)

/-- **A terminated text** is its parts, each with a separator behind it. -/
theorem flatMap_pieces (h : text.getLast? = some sep) :
    (pieces sep text).flatMap (· ++ [sep]) = text := by
  induction text with
  | nil => cases h
  | cons c text ih =>
    cases text with
    | nil =>
      have hc : c = sep := by simpa using h
      rw [pieces, if_pos hc, hc]
      rfl
    | cons d text =>
      have hrest := ih (by rwa [List.getLast?_cons_cons] at h)
      rw [pieces]
      split
      · rename_i hc
        rw [List.flatMap_cons, hrest, hc]
        rfl
      · split
        · rename_i hnil
          cases pieces_eq_nil.mp hnil
        · rename_i p ps hps
          rw [hps, List.flatMap_cons] at hrest
          rw [List.flatMap_cons, ← hrest]
          rfl

/-- **A text without a separator at its end** is its parts with separators between them. -/
theorem intercalate_pieces (h : text.getLast? ≠ some sep) :
    [sep].intercalate (pieces sep text) = text := by
  induction text with
  | nil => rfl
  | cons c text ih =>
    cases text with
    | nil =>
      have hc : c ≠ sep := fun hc => h (by rw [hc]; rfl)
      rw [pieces, if_neg hc]
      exact List.intercalate_singleton
    | cons d text =>
      have hrest := ih (by rwa [List.getLast?_cons_cons] at h)
      have hne : pieces sep (d :: text) ≠ [] := pieces_eq_nil.not.mpr (List.cons_ne_nil d text)
      rw [pieces]
      split
      · rename_i hc
        rw [List.intercalate_cons_of_ne_nil hne, hrest, hc]
        rfl
      · split
        · rename_i hnil
          exact absurd hnil hne
        · rename_i p ps hps
          rw [hps] at hrest
          rw [List.intercalate_cons_cons_left, hrest]

theorem pieces_flatMap {ps : List (List α)} (h : ∀ p ∈ ps, sep ∉ p) :
    pieces sep (ps.flatMap (· ++ [sep])) = ps := by
  induction ps with
  | nil => rfl
  | cons p ps ih =>
    obtain ⟨hp, hps⟩ := List.forall_mem_cons.mp h
    rw [List.flatMap_cons, List.append_assoc, List.singleton_append, pieces_append hp, ih hps]

theorem pieces_intercalate {ps : List (List α)} (h : ∀ p ∈ ps, sep ∉ p)
    (hlast : ps.getLast? ≠ some []) : pieces sep ([sep].intercalate ps) = ps := by
  induction ps with
  | nil => rfl
  | cons p ps ih =>
    obtain ⟨hp, hps⟩ := List.forall_mem_cons.mp h
    cases ps with
    | nil =>
      rw [List.intercalate_singleton]
      exact pieces_of_notMem (fun hnil => hlast (by rw [hnil]; rfl)) hp
    | cons q ps =>
      rw [List.getLast?_cons_cons] at hlast
      rw [List.intercalate_cons_of_ne_nil (List.cons_ne_nil q ps), List.append_assoc,
        List.singleton_append, pieces_append hp, ih hps hlast]

/-- A text without a separator at its end has a last part that none ends. -/
theorem exists_last_part (hne : text ≠ []) (h : text.getLast? ≠ some sep) :
    ∃ (ps : List (List α)) (p : List α), text = ps.flatMap (· ++ [sep]) ++ p ∧ p ≠ [] ∧ sep ∉ p ∧
      ∀ q ∈ ps, sep ∉ q := by
  induction text with
  | nil => exact absurd rfl hne
  | cons c text ih =>
    cases text with
    | nil =>
      have hc : sep ≠ c := fun hc => h (by rw [hc]; rfl)
      exact ⟨[], [c], rfl, hne, by simpa using hc, by simp⟩
    | cons d text =>
      obtain ⟨ps, p, htext, hp, hsep, hps⟩ := ih (List.cons_ne_nil d text)
        (by rwa [List.getLast?_cons_cons] at h)
      rw [htext]
      by_cases hc : c = sep
      · exact ⟨[] :: ps, p, by rw [hc]; rfl, hp, hsep, by simpa using hps⟩
      · cases ps with
        | nil => exact ⟨[], c :: p, rfl, List.cons_ne_nil c p, by simp [Ne.symm hc, hsep], by simp⟩
        | cons q ps =>
          obtain ⟨hq, hps⟩ := List.forall_mem_cons.mp hps
          refine ⟨(c :: q) :: ps, p, rfl, hp, hsep, List.forall_mem_cons.mpr ⟨?_, hps⟩⟩
          simp [Ne.symm hc, hq]

/-! ## Cutting loops -/

/-- A loop over the text has reached index `i`: it cut `done`, and the next part starts at
`last`. -/
structure Cut (sep : α) (text : List α) (i last : Nat) (done : List (List α)) : Prop where
  last_le : last ≤ i
  le_length : i ≤ text.length
  whole : pieces sep text = done ++ pieces sep (text.drop last)
  open_part : sep ∉ (text.take i).drop last

namespace Cut

variable {i last : Nat} {done : List (List α)}

theorem start : Cut sep text 0 0 [] := ⟨Nat.le_refl 0, Nat.zero_le _, rfl, by simp⟩

theorem cut (h : Cut sep text i last done) (hi : text[i]? = some sep) :
    Cut sep text (i + 1) (i + 1) (done ++ [(text.take i).drop last]) := by
  obtain ⟨hlt, hget⟩ := List.getElem?_eq_some_iff.mp hi
  refine ⟨Nat.le_refl _, hlt, ?_, ?_⟩
  · have hdrop : text.drop i = sep :: text.drop (i + 1) := by
      rw [List.drop_eq_getElem_cons hlt, hget]
    rw [h.whole, drop_eq_append h.le_length h.last_le, hdrop, pieces_append h.open_part,
      List.append_assoc]
    rfl
  · rw [List.drop_eq_nil_of_le (by rw [List.length_take]; omega)]
    exact List.not_mem_nil

theorem skip (h : Cut sep text i last done) (hlt : i < text.length) (hi : text[i]? ≠ some sep) :
    Cut sep text (i + 1) last done := by
  refine ⟨Nat.le_succ_of_le h.last_le, hlt, h.whole, ?_⟩
  rw [drop_take_succ hlt h.last_le, List.mem_append, List.mem_singleton, not_or]
  refine ⟨h.open_part, fun heq => hi ?_⟩
  rw [List.getElem?_eq_getElem hlt, heq]
  rfl

theorem finish (h : Cut sep text i last done) (hi : i + 1 = text.length)
    (hlast : text[i]? ≠ some sep) :
    Cut sep text (i + 1) (i + 1) (done ++ [text.drop last]) := by
  have hopen := (h.skip (by omega) hlast).open_part
  rw [hi, List.take_length] at hopen
  refine ⟨Nat.le_refl _, by omega, ?_, ?_⟩
  · have hne : text.drop last ≠ [] := fun hnil => by
      have := List.drop_eq_nil_iff.mp hnil
      have := h.last_le
      omega
    rw [h.whole, pieces_of_notMem hne hopen, hi, List.drop_length, List.append_assoc]
    rfl
  · rw [hi, List.take_length, List.drop_length]
    exact List.not_mem_nil

theorem pieces_eq (h : Cut sep text i text.length done) : done = pieces sep text := by
  rw [h.whole, List.drop_length]
  exact (List.append_nil done).symm

end Cut

end Clib
