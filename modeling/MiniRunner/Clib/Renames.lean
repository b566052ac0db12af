import Mathlib.Data.List.Nodup
import Mathlib.Logic.Function.Basic

/-!
# Renames one after another

A directory maps names to what is stored under them. A rename moves what is under one name
to another; where something is stored under the other name already, or nothing under the
first, it fails and changes nothing. `renames` tries a list of moves in turn, whatever
becomes of each.

With distinct sources and distinct targets, all moves arrive exactly when each target is
free at its turn: nothing was under it at first, or it is the source of an earlier move
(`renames_iff`). Otherwise what is in the way stays or leaves, and nothing else comes in.
-/

namespace Clib

variable {K V : Type}

/-- A directory: names and what is stored under them. -/
abbrev Directory (K V : Type) := K → Option V

namespace Directory

/-- Each target is free at its turn; a source is free once its move has had its turn. -/
def InTurn (free : K → Prop) : List (K × K) → Prop
  | [] => True
  | (source, target) :: moves => free target ∧ InTurn (fun k => k = source ∨ free k) moves

theorem InTurn.congr {moves : List (K × K)} : ∀ {free free' : K → Prop},
    (∀ k ∈ moves.map Prod.snd, free k ↔ free' k) → (InTurn free moves ↔ InTurn free' moves) := by
  induction moves with
  | nil => exact fun _ => Iff.rfl
  | cons move moves ih =>
    intro free free' hfree
    refine and_congr (hfree _ (by simp)) (ih fun k hk => ?_)
    exact or_congr_right (hfree k (List.mem_cons_of_mem _ hk))

variable [DecidableEq K]

/-- Something is stored under the source, and nothing under the target. -/
def CanMove (d : Directory K V) (source target : K) : Prop :=
  (d source).isSome = true ∧ (d target).isNone = true

instance (d : Directory K V) (source target : K) : Decidable (d.CanMove source target) :=
  inferInstanceAs (Decidable (_ ∧ _))

/-- `rename`, as far as it goes. -/
def rename (d : Directory K V) (source target : K) : Directory K V :=
  if d.CanMove source target then
    Function.update (Function.update d target (d source)) source none
  else d

def renames (moves : List (K × K)) (d : Directory K V) : Directory K V :=
  moves.foldl (fun d move => d.rename move.1 move.2) d

instance InTurn.decidable : ∀ (moves : List (K × K)) (free : K → Prop) [DecidablePred free],
    Decidable (InTurn free moves)
  | [], _, _ => inferInstanceAs (Decidable True)
  | (source, target) :: moves, free, _ =>
    have := InTurn.decidable moves (fun k => k = source ∨ free k)
    inferInstanceAs (Decidable (free target ∧ InTurn (fun k => k = source ∨ free k) moves))

/-- No two names have the same thing stored under them. -/
def Injective (d : Directory K V) : Prop := ∀ x y v, d x = some v → d y = some v → x = y

/-! ## One rename -/

variable {d : Directory K V} {source target k : K}

theorem rename_of_not (h : ¬d.CanMove source target) : d.rename source target = d := if_neg h

theorem rename_of_ne (hs : k ≠ source) (ht : k ≠ target) : d.rename source target k = d k := by
  unfold rename
  split
  · rw [Function.update_of_ne hs, Function.update_of_ne ht]
  · rfl

theorem rename_target (h : d.CanMove source target) : d.rename source target target = d source := by
  have hne : target ≠ source := by
    rintro rfl
    simpa [Option.isNone_iff_eq_none.mp h.2] using h.1
  rw [rename, if_pos h, Function.update_of_ne hne, Function.update_self]

theorem rename_source (h : d.CanMove source target) : d.rename source target source = none := by
  rw [rename, if_pos h, Function.update_self]

theorem rename_of_ne_target (ht : k ≠ target) :
    d.rename source target k = d k ∨ d.rename source target k = none := by
  by_cases hs : k = source
  · by_cases h : d.CanMove source target
    · rw [hs, rename_source h]
      exact .inr rfl
    · exact .inl (congrFun (rename_of_not h) k)
  · exact .inl (rename_of_ne hs ht)

theorem Injective.rename (hd : d.Injective) : (d.rename source target).Injective := by
  by_cases h : d.CanMove source target
  · -- where a thing lies after the move, and where it lay
    have hback : ∀ x v, d.rename source target x = some v →
        (x = target ∧ d source = some v) ∨ (x ≠ source ∧ x ≠ target ∧ d x = some v) := by
      intro x v hx
      by_cases ht : x = target
      · rw [ht, rename_target h] at hx
        exact .inl ⟨ht, hx⟩
      · by_cases hs : x = source
        · rw [hs, rename_source h] at hx
          cases hx
        · exact .inr ⟨hs, ht, (rename_of_ne hs ht).symm.trans hx⟩
    intro x y v hx hy
    rcases hback x v hx with ⟨hxt, hx'⟩ | ⟨hxs, -, hx'⟩ <;>
      rcases hback y v hy with ⟨hyt, hy'⟩ | ⟨hys, -, hy'⟩
    · rw [hxt, hyt]
    · exact absurd (hd _ _ v hx' hy').symm hys
    · exact absurd (hd _ _ v hx' hy') hxs
    · exact hd x y v hx' hy'
  · rw [rename_of_not h]
    exact hd

/-! ## All of them -/

theorem renames_of_notMem {moves : List (K × K)} (hs : k ∉ moves.map Prod.fst)
    (ht : k ∉ moves.map Prod.snd) (d : Directory K V) : renames moves d k = d k := by
  induction moves generalizing d with
  | nil => rfl
  | cons move moves ih =>
    simp only [List.map_cons, List.mem_cons, not_or] at hs ht
    exact (ih hs.2 ht.2 _).trans (rename_of_ne hs.1 ht.1)

theorem renames_of_notMem_targets {moves : List (K × K)} (ht : k ∉ moves.map Prod.snd)
    (d : Directory K V) : renames moves d k = d k ∨ renames moves d k = none := by
  induction moves generalizing d with
  | nil => exact .inl rfl
  | cons move moves ih =>
    simp only [List.map_cons, List.mem_cons, not_or] at ht
    rcases ih ht.2 (d.rename move.1 move.2) with h | h
    · have hfirst : d.rename move.1 move.2 k = d k ∨ d.rename move.1 move.2 k = none :=
        rename_of_ne_target ht.1
      rcases hfirst with h' | h'
      · exact .inl (h.trans h')
      · exact .inr (h.trans h')
    · exact .inr h

/-- What lies under a target at its turn keeps out what was to come there. -/
theorem renames_of_taken {moves : List (K × K)} (hd : d.Injective) (hne : source ≠ target)
    (hsome : (d source).isSome = true) (ht : target ∉ moves.map Prod.snd)
    (htaken : d target ≠ none) : renames ((source, target) :: moves) d target ≠ d source := by
  obtain ⟨v, hv⟩ := Option.ne_none_iff_exists'.mp htaken
  obtain ⟨w, hw⟩ := Option.isSome_iff_exists.mp hsome
  have hstays : d.rename source target = d := rename_of_not fun h => by
    have := h.2
    rw [hv] at this
    cases this
  show renames moves (d.rename source target) target ≠ d source
  rw [hstays, hw]
  rcases renames_of_notMem_targets ht d with h | h
  · rw [h, hv]
    intro heq
    exact hne (hd source target w hw (hv.trans heq))
  · rw [h]
    intro heq
    cases heq

/-- **When all moves arrive.** -/
theorem renames_iff {moves : List (K × K)} : ∀ {d : Directory K V}, d.Injective →
    (moves.map Prod.fst).Nodup → (moves.map Prod.snd).Nodup →
    (∀ move ∈ moves, move.1 ≠ move.2 ∧ (d move.1).isSome = true) →
    ((∀ move ∈ moves, renames moves d move.2 = d move.1) ↔
      InTurn (fun k => d k = none) moves) := by
  induction moves with
  | nil => exact fun _ _ _ _ => iff_of_true (fun _ h => absurd h List.not_mem_nil) trivial
  | cons head moves ih =>
    obtain ⟨source, target⟩ := head
    intro d hd hsources htargets hmoves
    obtain ⟨hsource, hsources⟩ := List.nodup_cons.mp hsources
    obtain ⟨htarget, htargets⟩ := List.nodup_cons.mp htargets
    obtain ⟨hne, hsome⟩ := hmoves (source, target) List.mem_cons_self
    have hrest : ∀ move ∈ moves, move.1 ≠ move.2 ∧ (d move.1).isSome = true :=
      fun move hmem => hmoves move (List.mem_cons_of_mem _ hmem)
    by_cases hfree : d target = none
    swap
    · refine iff_of_false (fun h => ?_) fun h => hfree h.1
      exact renames_of_taken hd hne hsome htarget hfree (h (source, target) List.mem_cons_self)
    have hmove : d.CanMove source target := ⟨hsome, by rw [hfree]; rfl⟩
    -- the sources that are left are neither end of the first move
    have hkept : ∀ move ∈ moves, d.rename source target move.1 = d move.1 := by
      intro move hmem
      refine rename_of_ne (fun h => hsource (List.mem_map.mpr ⟨move, hmem, h⟩)) fun h => ?_
      have := (hrest move hmem).2
      rw [h, hfree] at this
      cases this
    have hfirst : renames moves (d.rename source target) target = d source := by
      refine (renames_of_notMem (fun h => ?_) htarget _).trans (rename_target hmove)
      obtain ⟨move, hmem, heq⟩ := List.mem_map.mp h
      have := (hrest move hmem).2
      rw [heq, hfree] at this
      cases this
    have hinjective : (d.rename source target).Injective := hd.rename
    have hlater := ih hinjective hsources htargets
      fun move hmem => by rw [hkept move hmem]; exact hrest move hmem
    -- what is free after the first move
    have hturn : InTurn (fun k => d.rename source target k = none) moves ↔
        InTurn (fun k => k = source ∨ d k = none) moves := by
      refine InTurn.congr fun k hk => ?_
      by_cases hks : k = source
      · rw [hks]
        exact iff_of_true (rename_source hmove) (.inl rfl)
      · have hkt : k ≠ target := by
          rintro rfl
          exact htarget hk
        rw [rename_of_ne hks hkt]
        exact (or_iff_right hks).symm
    rw [List.forall_mem_cons, InTurn, ← hturn, ← hlater]
    refine and_congr (iff_of_true hfirst hfree) (forall₂_congr fun move hmem => ?_)
    rw [hkept move hmem]
    rfl

end Directory

end Clib
