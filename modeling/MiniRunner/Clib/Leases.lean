import Mathlib.Logic.Function.Basic
import MiniRunner.Clib.Ledger

/-!
# Tokens that entries hold

Each entry of a table holds a token, or `free` where it holds none, and `live` are the
tokens that are given out. `Held` says that both agree: a live token is held by exactly one
entry, and no entry holds a token that is not live.

A change of the first entry that satisfies `p` moves one token, so the two sides are
compared token by token (`held_updateFirst_iff`); the other rules are what it says for the
ways in which a token is given out, taken back or lost.
-/

namespace Clib

variable {α τ : Type} [DecidableEq τ] {token : α → τ} {free : τ} {live live' : τ → Bool}
  {p : α → Bool} {f : α → α} {l : List α} {x : α}

/-- **Every live token is held once**, and every token that is held is live. -/
structure Held (token : α → τ) (free : τ) (live : τ → Bool) (l : List α) : Prop where
  freeNotLive : live free = false
  once : ∀ t, live t = true → l.countP (fun x => token x == t) = 1
  live_of_mem : ∀ x ∈ l, token x ≠ free → live (token x) = true

namespace Held

theorem countP_updateFirst (h : l.find? p = some x) (q : α → Bool) :
    (Table.updateFirst p f l).countP q + (q x).toNat = l.countP q + (q (f x)).toNat := by
  induction l with
  | nil => cases h
  | cons y l ih =>
    rw [List.find?_cons] at h
    unfold Table.updateFirst
    split at h
    · rename_i hy
      cases h
      rw [if_pos hy, List.countP_cons, List.countP_cons]
      cases q x <;> cases q (f x) <;> simp
    · rename_i hy
      rw [if_neg (by simp [hy]), List.countP_cons, List.countP_cons]
      have := ih h
      omega

theorem countP_strike (h : l.find? p = some x) (q : α → Bool) :
    (Ledger.strike p l).countP q + (q x).toNat = l.countP q := by
  induction l with
  | nil => cases h
  | cons y l ih =>
    rw [List.find?_cons] at h
    unfold Ledger.strike at *
    split at h
    · rename_i hy
      cases h
      rw [List.eraseP_cons_of_pos hy, List.countP_cons]
      cases q x <;> simp
    · rename_i hy
      rw [List.eraseP_cons_of_neg (by simp [hy]), List.countP_cons, List.countP_cons]
      have := ih h
      omega

theorem count (h : Held token free live l) {t : τ} (ht : t ≠ free) :
    l.countP (fun x => token x == t) = (live t).toNat := by
  cases hlive : live t with
  | true => exact h.once t hlive
  | false =>
    refine List.countP_eq_zero.mpr fun x hx hxt => ?_
    have heq : token x = t := beq_iff_eq.mp hxt
    exact Bool.false_ne_true (hlive.symm.trans (heq ▸ h.live_of_mem x hx (heq ▸ ht)))

/-- It is enough to count each token. -/
theorem of_count (hfree : live free = false)
    (h : ∀ t, t ≠ free → l.countP (fun x => token x == t) = (live t).toNat) :
    Held token free live l where
  freeNotLive := hfree
  once t ht := by
    rw [h t, ht, Bool.toNat_true]
    rintro rfl
    exact Bool.false_ne_true (hfree.symm.trans ht)
  live_of_mem x hx hne := by
    have hpos : 0 < l.countP (fun y => token y == token x) :=
      List.countP_pos_iff.mpr ⟨x, hx, by simp⟩
    rw [h _ hne] at hpos
    cases hlive : live (token x) with
    | true => rfl
    | false => simp [hlive] at hpos

/-- **One entry changes**: both sides agree again where each token is given out as often as
it is taken. -/
theorem updateFirst_iff (h : Held token free live l) (hfind : l.find? p = some x)
    (hfree : live' free = false) :
    Held token free live' (Table.updateFirst p f l) ↔ ∀ t, t ≠ free →
      (live' t).toNat + (token x == t).toNat = (live t).toNat + (token (f x) == t).toNat := by
  constructor
  · intro h' t ht
    rw [← h.count ht, ← h'.count ht]
    exact countP_updateFirst hfind fun y => token y == t
  · refine fun hall => of_count hfree fun t ht => ?_
    have hcount := countP_updateFirst (f := f) hfind fun y => token y == t
    have hbalance := hall t ht
    rw [← h.count ht] at hbalance
    omega

theorem update_free {t : τ} {b : Bool} (h : Held token free live l) (ht : t ≠ free) :
    Function.update live t b free = false := by
  rw [Function.update_of_ne ht.symm, h.freeNotLive]

/-- **A fresh token is given out**, and may or may not be `alive` and `recorded` afterwards:
both or neither, and the entry that records it must hold no other. -/
theorem lend_iff {t : τ} {alive recorded : Bool} (h : Held token free live l)
    (hfind : l.find? p = some x) (hf : token (f x) = if recorded then t else free)
    (ht : t ≠ free) (hfresh : live t = false) :
    Held token free (Function.update live t alive) (Table.updateFirst p f l) ↔
      token x = free ∧ alive = recorded := by
  have hne : token x ≠ t := by
    rintro rfl
    have hlive := h.live_of_mem x (List.mem_of_find?_eq_some hfind) ht
    exact Bool.false_ne_true (hfresh.symm.trans hlive)
  have htfree : (free == t) = false := beq_eq_false_iff_ne.mpr ht.symm
  rw [h.updateFirst_iff hfind (h.update_free ht)]
  constructor
  · refine fun hall => ⟨Classical.byContradiction fun hx => ?_, ?_⟩
    · -- the old token leaves its entry and is still live
      have hold := hall (token x) hx
      have hnew : (token (f x) == token x) = false := by
        rw [hf, beq_eq_false_iff_ne]
        split
        · exact Ne.symm hne
        · exact Ne.symm hx
      simp [Function.update_of_ne hne, hnew] at hold
    · have hnew := hall t ht
      rw [Function.update_self, hfresh, hf, beq_eq_false_iff_ne.mpr hne] at hnew
      cases recorded <;> cases alive <;> simp [htfree] at hnew ⊢
  · rintro ⟨hx, rfl⟩ s hs
    rw [hx, hf, beq_eq_false_iff_ne.mpr (Ne.symm hs)]
    by_cases hst : s = t
    · rw [hst, Function.update_self, hfresh]
      cases alive <;> simp [htfree]
    · rw [Function.update_of_ne hst]
      cases alive <;> simp [Ne.symm hst, hs.symm]

theorem update_token_free (h : Held token free live l) (hx : token x = free) :
    Function.update live (token x) false = live := by
  rw [hx, ← h.freeNotLive, Function.update_eq_self]

theorem takeBack (h : Held token free live l) (hfind : l.find? p = some x)
    (hf : token (f x) = free) :
    Held token free (Function.update live (token x) false) (Table.updateFirst p f l) := by
  by_cases hx : token x = free
  · rw [h.update_token_free hx, h.updateFirst_iff hfind h.freeNotLive, hx, hf]
    exact fun _ _ => rfl
  · rw [h.updateFirst_iff hfind (h.update_free hx), hf]
    intro t ht
    rw [beq_eq_false_iff_ne.mpr ht.symm]
    by_cases hxt : t = token x
    · rw [hxt, Function.update_self, h.live_of_mem x (List.mem_of_find?_eq_some hfind) hx]
      simp
    · rw [Function.update_of_ne hxt, beq_eq_false_iff_ne.mpr (Ne.symm hxt)]

/-- What an entry holds is taken back, and the entry struck. -/
theorem strike (h : Held token free live l) (hfind : l.find? p = some x) :
    Held token free (Function.update live (token x) false) (Ledger.strike p l) := by
  have hcount (t : τ) := countP_strike hfind fun y => token y == t
  by_cases hx : token x = free
  · rw [h.update_token_free hx]
    refine of_count h.freeNotLive fun t ht => ?_
    rw [← h.count ht, ← hcount t, hx, beq_eq_false_iff_ne.mpr ht.symm]
    rfl
  · refine of_count (h.update_free hx) fun t ht => ?_
    have hheld := h.count ht
    rw [← hcount t] at hheld
    by_cases hxt : t = token x
    · rw [hxt, h.live_of_mem x (List.mem_of_find?_eq_some hfind) hx] at hheld
      rw [hxt, Function.update_self]
      simpa using hheld
    · rw [beq_eq_false_iff_ne.mpr (Ne.symm hxt)] at hheld
      rw [Function.update_of_ne hxt]
      exact hheld

theorem end_iff (h : Held token free live l) (hx : x ∈ l) :
    Held token free (Function.update live (token x) false) l ↔ token x = free := by
  refine ⟨fun h' => Classical.byContradiction fun hne => ?_, fun hfree => ?_⟩
  · have hlive := h'.live_of_mem x hx hne
    rw [Function.update_self] at hlive
    exact Bool.false_ne_true hlive
  · rwa [h.update_token_free hfree]

end Held

end Clib
