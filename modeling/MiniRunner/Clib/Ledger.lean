import Mathlib.Data.List.Pairwise
import MiniRunner.Clib.Block

/-!
# Ordered tables without clashes

What a keyed table is for, apart from how it is stored: a list of entries no two
of which clash. `enter` appends a fresh entry and changes nothing otherwise,
`strike` deletes the first entry that matches; both keep `Distinct`.

`Loads` is the contract of a loading function that appends one record to a
`Table` and refuses a clash. Folded over the records of a file it gives the two
halves a store needs: what was loaded is distinct and in order (`Loads.sound`),
and distinct records that fit are all loaded (`Loads.complete`).
-/

namespace Clib

variable {α : Type}

def Distinct (clash : α → α → Prop) (l : List α) : Prop := l.Pairwise fun x y => ¬ clash x y

instance (clash : α → α → Prop) [DecidableRel clash] (l : List α) :
    Decidable (Distinct clash l) :=
  inferInstanceAs (Decidable (l.Pairwise _))

namespace Ledger

variable {clash : α → α → Prop} {x : α} {l : List α}

/-- Append `x` when no entry clashes with it. -/
def enter (clash : α → α → Prop) [DecidableRel clash] (x : α) (l : List α) : List α :=
  if ∃ y ∈ l, clash y x then l else l ++ [x]

/-- Delete the first entry that satisfies `p`. -/
def strike (p : α → Bool) (l : List α) : List α := l.eraseP p

theorem distinct_nil : Distinct clash [] := List.Pairwise.nil

theorem distinct_append_singleton :
    Distinct clash (l ++ [x]) ↔ Distinct clash l ∧ ∀ y ∈ l, ¬ clash y x := by
  simp [Distinct, List.pairwise_append]

theorem distinct_enter [DecidableRel clash] (h : Distinct clash l) :
    Distinct clash (enter clash x l) := by
  unfold enter
  split
  · exact h
  · rename_i hno
    exact distinct_append_singleton.mpr ⟨h, fun y hy hc => hno ⟨y, hy, hc⟩⟩

theorem distinct_strike {p : α → Bool} (h : Distinct clash l) : Distinct clash (strike p l) :=
  h.sublist List.eraseP_sublist

theorem forall_enter [DecidableRel clash] {P : α → Prop} (h : ∀ y ∈ l, P y) (hx : P x) :
    ∀ y ∈ enter clash x l, P y := by
  intro y hy
  unfold enter at hy
  split at hy
  · exact h y hy
  · rcases List.mem_append.mp hy with hy | hy
    · exact h y hy
    · rw [List.mem_singleton.mp hy]
      exact hx

theorem forall_strike {p : α → Bool} {P : α → Prop} (h : ∀ y ∈ l, P y) :
    ∀ y ∈ strike p l, P y := fun y hy => h y (List.mem_of_mem_eraseP hy)

theorem mem_strike {p : α → Bool} {x : α} (hx : p x = false) (h : x ∈ l) : x ∈ strike p l :=
  (List.mem_eraseP_of_neg (by simp [hx])).mpr h

theorem map_strike {κ : Type} (key : α → κ) (p : κ → Bool) (l : List α) :
    (strike (fun x => p (key x)) l).map key = strike p (l.map key) :=
  List.eraseP_map.symm

/-- What is struck occurs once, so nothing of its kind is left. -/
theorem not_of_mem_strike {p : α → Bool} (hp : ∀ x y, p x = true → p y = true → clash x y)
    (h : Distinct clash l) : ∀ y ∈ strike p l, p y = false := by
  induction l with
  | nil => simp [strike]
  | cons x l ih =>
    obtain ⟨hx, hl⟩ := List.pairwise_cons.mp h
    unfold strike
    by_cases hpx : p x = true
    · rw [List.eraseP_cons_of_pos hpx]
      intro y hy
      by_contra hpy
      exact hx y hy (hp x y hpx (by simpa using hpy))
    · rw [List.eraseP_cons_of_neg hpx]
      intro y hy
      rcases List.mem_cons.mp hy with rfl | hy
      · simpa using hpx
      · exact ih hl y hy

theorem filter_strike {p q : α → Bool} (hq : ∀ x, p x = true → q x = true) (l : List α) :
    (strike p l).filter q = strike p (l.filter q) := by
  have hpq : (fun x => p x && q x) = p := by
    funext x
    cases hp : p x with
    | false => rfl
    | true => simp [hq x hp]
  simp only [strike, List.eraseP_filter, hpq]

theorem filter_strike_of_not {p q : α → Bool} (hq : ∀ x, p x = true → q x = false) (l : List α) :
    (strike p l).filter q = l.filter q := by
  induction l with
  | nil => rfl
  | cons x l ih =>
    unfold strike at *
    by_cases hp : p x = true
    · rw [List.eraseP_cons_of_pos hp, List.filter_cons_of_neg (by simp [hq x hp])]
    · rw [List.eraseP_cons_of_neg hp, List.filter_cons, List.filter_cons, ih]

theorem distinct_of_map_eq {β : Type} {k : α → β} {r : β → β → Prop}
    (hc : ∀ a b, clash a b ↔ r (k a) (k b)) {l' : List α} (h : Distinct clash l)
    (hmap : l'.map k = l.map k) : Distinct clash l' := by
  have hkey : ∀ {m : List α}, Distinct clash m ↔ (m.map k).Pairwise fun a b => ¬ r a b := by
    intro m
    simp [Distinct, List.pairwise_map, hc]
  rw [hkey] at h ⊢
  rwa [hmap]

end Ledger

/-! ## Loading -/

/-- The contract of a loader of one record: an append that refuses clashes, and
that works while the invariant `R` holds and fewer than `N` entries are there. -/
structure Loads (clash : α → α → Prop) (R : Table α → Prop) (N : Nat)
    (load : Table α → α → Except Halt (Table α)) : Prop where
  appends : ∀ {t x t'}, load t x = .ok t' → t'.items = t.items ++ [x]
  refuses : ∀ {t x t'}, load t x = .ok t' → ∀ y ∈ t.items, ¬ clash y x
  accepts : ∀ {t x}, R t → t.items.length < N → (∀ y ∈ t.items, ¬ clash y x) →
    ∃ t', load t x = .ok t' ∧ R t'
  keeps : ∀ {t x t'}, load t x = .ok t' → R t → R t'

namespace Loads

variable {clash : α → α → Prop} {R : Table α → Prop} {N : Nat}
  {load : Table α → α → Except Halt (Table α)}

/-- What a fold of loads leaves: the records appended in order, still distinct. -/
theorem sound (L : Loads clash R N load) {rs : List α} :
    ∀ {t t' : Table α}, Distinct clash t.items → rs.foldlM load t = .ok t' →
      t'.items = t.items ++ rs ∧ Distinct clash t'.items := by
  induction rs with
  | nil =>
    intro t t' hd h
    cases h
    exact ⟨by simp, hd⟩
  | cons r rs ih =>
    intro t t' hd h
    rw [List.foldlM_cons] at h
    cases hr : load t r with
    | error e => rw [hr] at h; cases h
    | ok t₁ =>
      rw [hr] at h
      have hitems := L.appends hr
      have hd₁ : Distinct clash t₁.items := by
        rw [hitems]
        exact Ledger.distinct_append_singleton.mpr ⟨hd, L.refuses hr⟩
      obtain ⟨h₁, h₂⟩ := ih hd₁ h
      exact ⟨by rw [h₁, hitems, List.append_assoc]; rfl, h₂⟩

theorem foldlM_keeps (L : Loads clash R N load) {rs : List α} :
    ∀ {t t' : Table α}, R t → rs.foldlM load t = .ok t' → R t' := by
  induction rs with
  | nil =>
    intro t t' hR h
    cases h
    exact hR
  | cons r rs ih =>
    intro t t' hR h
    rw [List.foldlM_cons] at h
    cases hr : load t r with
    | error e => rw [hr] at h; cases h
    | ok t₁ =>
      rw [hr] at h
      exact ih (L.keeps hr hR) h

/-- Distinct records that fit are all loaded. -/
theorem complete (L : Loads clash R N load) {rs : List α} :
    ∀ {t : Table α}, R t → (t.items ++ rs).length ≤ N → Distinct clash (t.items ++ rs) →
      ∃ t', rs.foldlM load t = .ok t' ∧ t'.items = t.items ++ rs ∧ R t' := by
  induction rs with
  | nil =>
    intro t hR _ _
    exact ⟨t, rfl, by simp, hR⟩
  | cons r rs ih =>
    intro t hR hN hd
    have hsplit : t.items ++ r :: rs = (t.items ++ [r]) ++ rs := by simp
    have hr : ∀ y ∈ t.items, ¬ clash y r := by
      have hpre : Distinct clash (t.items ++ [r]) := by
        rw [hsplit] at hd
        exact hd.sublist (List.sublist_append_left _ _)
      exact (Ledger.distinct_append_singleton.mp hpre).2
    obtain ⟨t₁, h₁, hR₁⟩ := L.accepts hR (by simp at hN; omega) hr
    have hitems := L.appends h₁
    rw [hsplit, ← hitems] at hN hd
    obtain ⟨t', h', hit', hR'⟩ := ih hR₁ hN hd
    refine ⟨t', ?_, by rw [hit', hitems, hsplit], hR'⟩
    rw [List.foldlM_cons, h₁]
    exact h'

theorem ok_iff (L : Loads clash R N load) {t : Table α} {rs : List α} (hR : R t)
    (hempty : t.items = []) (hN : rs.length ≤ N) :
    (∃ t', rs.foldlM load t = .ok t') ↔ Distinct clash rs := by
  constructor
  · rintro ⟨t', h⟩
    obtain ⟨hitems, hd⟩ := L.sound (by rw [hempty]; exact Ledger.distinct_nil) h
    rwa [hitems, hempty, List.nil_append] at hd
  · intro hd
    obtain ⟨t', h, _⟩ := L.complete hR (by simpa [hempty] using hN) (by simpa [hempty] using hd)
    exact ⟨t', h⟩

/-- `insert` followed by a check of its return code is a loader. -/
theorem of_insert {g : Table.Growth} {c : α → α → Bool} {R : Table α → Prop} {N : Nat}
    (hgrow : ∀ {t : Table α} (x : α), R t → t.items.length < N →
      ∃ t', t.append g x = .ok t' ∧ R t')
    (hkeep : ∀ {t t' : Table α} {x : α}, R t → t.append g x = .ok t' → R t') :
    Loads (fun y x => c y x = true) R N
      fun t x => orAbort (t.insert g (fun y => c y x) x) := by
  have hload : ∀ {t t' : Table α} {x : α}, orAbort (t.insert g (fun y => c y x) x) = .ok t' →
      t.items.any (fun y => c y x) = false ∧ t.append g x = .ok t' := by
    intro t t' x h
    cases hc : t.items.any (fun y => c y x) with
    | true =>
      rw [Table.insert_of_clash hc] at h
      cases h
    | false =>
      rw [Table.insert_of_fresh hc] at h
      cases ha : t.append g x with
      | error e => rw [ha] at h; cases h
      | ok t₁ =>
        rw [ha] at h
        cases h
        exact ⟨rfl, rfl⟩
  refine ⟨fun h => Table.append_items (hload h).2, fun h y hy hyx => ?_, fun hR hN hc => ?_,
    fun h hR => hkeep hR (hload h).2⟩
  · simpa [hyx] using (List.any_eq_false.mp (hload h).1) y hy
  · rename_i t x
    obtain ⟨t', ha, hR'⟩ := hgrow x hR hN
    refine ⟨t', ?_, hR'⟩
    rw [Table.insert_of_fresh (by simpa using hc), ha]
    rfl

theorem of_safe {g : Table.Growth} (hg : g.Safe) (c : α → α → Bool) (N : Nat) :
    Loads (fun y x => c y x = true) Table.Honest N
      fun t x => orAbort (t.insert g (fun y => c y x) x) := by
  refine of_insert (fun x ht _ => ?_) fun {t t' x} ht h => ?_
  · obtain ⟨t', h, _, h'⟩ := ht.append hg x
    exact ⟨t', h, h'⟩
  · obtain ⟨t'', h', _, hh⟩ := ht.append hg x
    rw [h] at h'
    cases h'
    exact hh

/-! ### Refused records -/

theorem insert_aborted {g : Table.Growth} {c : α → Bool} {x : α} {t : Table α} {e : Halt}
    (happend : ∃ t', t.append g x = .ok t') (h : orAbort (t.insert g c x) = .error e) :
    e = .aborted := by
  obtain ⟨t', ht'⟩ := happend
  cases hc : t.items.any c with
  | true =>
    rw [Table.insert_of_clash hc] at h
    cases h
    rfl
  | false =>
    rw [Table.insert_of_fresh hc, ht'] at h
    cases h

/-- So does a fold of loads of no more records than there is room for. -/
theorem foldlM_aborted (L : Loads clash R N load)
    (habort : ∀ {t x e}, R t → t.items.length < N → load t x = .error e → e = .aborted)
    {rs : List α} : ∀ {t : Table α} {e : Halt}, R t → t.items.length + rs.length ≤ N →
      rs.foldlM load t = .error e → e = .aborted := by
  induction rs with
  | nil =>
    intro t e _ _ h
    cases h
  | cons r rs ih =>
    intro t e hR hN h
    rw [List.length_cons] at hN
    rw [List.foldlM_cons] at h
    cases hr : load t r with
    | error e' =>
      rw [hr] at h
      cases h
      exact habort hR (by omega) hr
    | ok t' =>
      rw [hr] at h
      have hlen : t'.items.length = t.items.length + 1 := by
        rw [L.appends hr, List.length_append, List.length_singleton]
      exact ih (L.keeps hr hR) (by omega) h

end Loads

end Clib
