import Mathlib.Logic.Function.Basic
import MiniRunner.Clib.Block

/-!
# Lists as finite maps

A list of entries with a key and a value each is a map: a key is bound to the value of the
first entry that has it. Appending an entry of an unbound key, changing the first entry of a
key and erasing it are the updates of that map; the last one only if no two entries share a
key.
-/

namespace Clib

variable {α κ ν : Type} [DecidableEq κ] (key : α → κ) (val : α → ν)

def lookup (l : List α) (k : κ) : Option ν := (l.find? fun x => decide (key x = k)).map val

variable {key val} {l : List α} {k : κ}

theorem lookup_cons (x : α) (l : List α) (k : κ) :
    lookup key val (x :: l) k = if key x = k then some (val x) else lookup key val l k := by
  by_cases hx : key x = k
  · simp [lookup, hx]
  · simp [lookup, hx]

theorem lookup_eq_none : lookup key val l k = none ↔ ∀ x ∈ l, key x ≠ k := by
  simp [lookup]

theorem lookup_append {x : α} (h : lookup key val l (key x) = none) :
    lookup key val (l ++ [x]) = Function.update (lookup key val l) (key x) (some (val x)) := by
  funext k'
  rw [Function.update_apply]
  by_cases hk : k' = key x
  · subst hk
    have hnone : (l.find? fun y => decide (key y = key x)) = none := by
      simpa [lookup] using h
    simp [lookup, List.find?_append, hnone]
  · have hx : decide (key x = k') = false := by simp [Ne.symm hk]
    simp [lookup, List.find?_append, hx, hk]

/-- A changed entry binds its key anew. -/
theorem lookup_updateFirst {f : α → α} {v : ν} (hkey : ∀ x, key (f x) = key x)
    (hval : ∀ x, val (f x) = v) (h : lookup key val l k ≠ none) :
    lookup key val (Table.updateFirst (fun x => decide (key x = k)) f l) =
      Function.update (lookup key val l) k (some v) := by
  induction l with
  | nil => exact absurd rfl h
  | cons x l ih =>
    funext k'
    rw [Table.updateFirst, Function.update_apply, lookup_cons x l k']
    by_cases hx : key x = k
    · rw [if_pos (by simpa using hx), lookup_cons, hkey, hval, hx]
      by_cases hk : k' = k
      · rw [if_pos hk.symm, if_pos hk]
      · rw [if_neg (Ne.symm hk), if_neg hk, if_neg (Ne.symm hk)]
    · have hl : lookup key val l k ≠ none := by
        rwa [lookup_cons, if_neg hx] at h
      rw [if_neg (by simpa using hx), lookup_cons, congrFun (ih hl) k', Function.update_apply]
      by_cases hk : k' = k
      · rw [if_pos hk, if_pos hk, if_neg (hk ▸ hx)]
      · rw [if_neg hk, if_neg hk]

/-- Without the only entry of it, a key is unbound. -/
theorem lookup_eraseP (hd : (l.map key).Nodup) :
    lookup key val (l.eraseP fun x => decide (key x = k)) =
      Function.update (lookup key val l) k none := by
  induction l with
  | nil =>
    funext k'
    rw [Function.update_apply]
    exact (ite_self none).symm
  | cons x l ih =>
    obtain ⟨hx, hl⟩ := List.nodup_cons.mp hd
    funext k'
    rw [Function.update_apply, lookup_cons x l k']
    by_cases hk : key x = k
    · rw [List.eraseP_cons_of_pos (by simpa using hk), hk]
      by_cases hk' : k' = k
      · rw [if_pos hk', hk', ← hk]
        exact lookup_eq_none.mpr fun y hy hkey => hx (hkey ▸ List.mem_map_of_mem hy)
      · rw [if_neg hk', if_neg (Ne.symm hk')]
    · rw [List.eraseP_cons_of_neg (by simpa using hk), lookup_cons, congrFun (ih hl) k',
        Function.update_apply]
      by_cases hk' : k' = k
      · rw [if_pos hk', if_pos hk', if_neg (hk' ▸ hk)]
      · rw [if_neg hk', if_neg hk']

end Clib
