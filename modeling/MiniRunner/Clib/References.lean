import Mathlib.Data.List.Nodup
import MiniRunner.Clib.Ledger

/-!
# Keys and references to them

Two tables share a key: each entry of the second one refers to an entry of the first.
`Linked keys refs` says that the keys are distinct, the references are distinct, and no
reference dangles. It is kept by entering a fresh key, by striking a key together with
its reference, by renaming a key together with its reference to a fresh one, and by
recording a reference to a key that is there.

`map_strike` and `map_updateFirst_rename` turn the table operations into these.
-/

namespace Clib

/-- Distinct keys, distinct references, and every reference is to a key. -/
structure Linked {κ : Type} (keys refs : List κ) : Prop where
  distinctKeys : keys.Nodup
  distinctRefs : refs.Nodup
  noneDangles : ∀ k ∈ refs, k ∈ keys

instance {κ : Type} [DecidableEq κ] (keys refs : List κ) : Decidable (Linked keys refs) :=
  decidable_of_iff (keys.Nodup ∧ refs.Nodup ∧ ∀ k ∈ refs, k ∈ keys)
    ⟨fun h => ⟨h.1, h.2.1, h.2.2⟩, fun h => ⟨h.1, h.2, h.3⟩⟩

def renamed {κ : Type} [DecidableEq κ] (old new k : κ) : κ := if k = old then new else k

namespace Linked

variable {κ : Type} {keys refs : List κ} {k : κ}

theorem enter (h : Linked keys refs) (hk : k ∉ keys) : Linked (keys ++ [k]) refs := by
  refine ⟨?_, h.distinctRefs, fun x hx => List.mem_append_left _ (h.noneDangles x hx)⟩
  exact List.nodup_append.mpr ⟨h.distinctKeys, List.nodup_singleton k, by
    rintro x hx _ hy rfl
    exact hk (List.mem_singleton.mp hy ▸ hx)⟩

theorem refer (h : Linked keys refs) (hk : k ∈ keys) (href : k ∉ refs) :
    Linked keys (refs ++ [k]) := by
  refine ⟨h.distinctKeys, ?_, fun x hx => ?_⟩
  · exact List.nodup_append.mpr ⟨h.distinctRefs, List.nodup_singleton k, by
      rintro x hx _ hy rfl
      exact href (List.mem_singleton.mp hy ▸ hx)⟩
  · rcases List.mem_append.mp hx with hx | hx
    · exact h.noneDangles x hx
    · rw [List.mem_singleton.mp hx]
      exact hk

variable [DecidableEq κ]

theorem strike (h : Linked keys refs) (k : κ) : Linked (keys.erase k) (refs.erase k) := by
  refine ⟨h.distinctKeys.erase k, h.distinctRefs.erase k, fun x hx => ?_⟩
  obtain ⟨hne, hx⟩ := h.distinctRefs.mem_erase_iff.mp hx
  exact h.distinctKeys.mem_erase_iff.mpr ⟨hne, h.noneDangles x hx⟩

theorem rename (h : Linked keys refs) {old new : κ} (hnew : new ∉ keys) :
    Linked (keys.map (renamed old new)) (refs.map (renamed old new)) := by
  have hinj : ∀ x ∈ keys, ∀ y ∈ keys, renamed old new x = renamed old new y → x = y := by
    intro x hx y hy hxy
    unfold renamed at hxy
    split at hxy <;> split at hxy
    · rename_i hx' hy'
      rw [hx', hy']
    · exact absurd (hxy ▸ hy) hnew
    · exact absurd (hxy ▸ hx) hnew
    · exact hxy
  refine ⟨h.distinctKeys.map_on hinj, h.distinctRefs.map_on fun x hx y hy =>
    hinj x (h.noneDangles x hx) y (h.noneDangles y hy), fun k hk => ?_⟩
  obtain ⟨x, hx, rfl⟩ := List.mem_map.mp hk
  exact List.mem_map_of_mem (h.noneDangles x hx)

end Linked

/-! ## Tables -/

section tables

variable {α κ : Type} [DecidableEq κ]

theorem map_strike (key : α → κ) (k : κ) (l : List α) :
    (Ledger.strike (fun x => key x == k) l).map key = (l.map key).erase k := by
  rw [Ledger.strike, List.erase_eq_eraseP', List.eraseP_map]
  congr 2

/-- With distinct keys, the first entry of a key is the only one. -/
theorem map_updateFirst_rename (key : α → κ) (old : κ) {new : κ} {f : α → α}
    (hf : ∀ x, key (f x) = new) {l : List α} (h : (l.map key).Nodup) :
    (Table.updateFirst (fun x => key x == old) f l).map key =
      (l.map key).map (renamed old new) := by
  induction l with
  | nil => rfl
  | cons x l ih =>
    obtain ⟨hx, hl⟩ := List.nodup_cons.mp h
    by_cases hold : key x = old
    · have hrest : (l.map key).map (renamed old new) = l.map key := by
        refine (List.map_congr_left fun k hk => ?_).trans (List.map_id _)
        exact if_neg fun hko => hx (by rw [hold, ← hko]; exact hk)
      simp only [Table.updateFirst, hold, beq_self_eq_true, if_true, List.map_cons, hf, hrest,
        renamed]
    · simp only [Table.updateFirst, beq_iff_eq, hold, if_false, List.map_cons, renamed, ih hl]

end tables

end Clib
