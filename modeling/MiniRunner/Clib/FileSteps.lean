import MiniRunner.Clib.FileStore

/-!
# Files written step by step

`ftruncate` and `memcpy` into a mapping are not atomic: a process can be killed, or a
signal handler can run, between the truncation and any of the bytes. A `FileStep` is one of
these steps; replacing a file is `rewriteSteps`, a truncation and a store for each byte, and
taken to its end it is `FileStore.rewrite`.

`patch k data old` is what the stores from the index `k` on make of a file with `old` in it,
which need not have the length of the data: a store past its end is lost.
-/

namespace Clib

variable {P : Type}

inductive FileStep (P : Type) where
  | create (p : P)
  | truncate (p : P) (n : Nat)
  /-- One byte of a copy into a mapping, which is lost past the end of the file. -/
  | store (p : P) (i : Nat) (b : UInt8)

namespace FileStep

/-- A step that changes nothing in the file `q`. -/
def Spares (q : P) : FileStep P → Prop
  | create _ => True
  | truncate p _ | store p _ _ => p ≠ q

section apply

variable [DecidableEq P]

def apply (fs : FileStore P) : FileStep P → FileStore P
  | create p => fs.openCreate p
  | truncate p n => fs.put p (ftruncate n (fs.content p))
  | store p i b => fs.put p ((fs.content p).set i b)

def applyAll (steps : List (FileStep P)) (fs : FileStore P) : FileStore P := steps.foldl apply fs

theorem applyAll_append (s t : List (FileStep P)) (fs : FileStore P) :
    applyAll (s ++ t) fs = applyAll t (applyAll s fs) := List.foldl_append

theorem content_apply_of_spares {s : FileStep P} {q : P} (h : s.Spares q) (fs : FileStore P) :
    (apply fs s).content q = fs.content q := by
  cases s with
  | create p => exact FileStore.content_openCreate fs p q
  | truncate p n => exact FileStore.content_put_of_ne (Ne.symm h) _
  | store p i b => exact FileStore.content_put_of_ne (Ne.symm h) _

theorem content_applyAll_of_spares {steps : List (FileStep P)} {q : P}
    (h : ∀ s ∈ steps, s.Spares q) (fs : FileStore P) :
    (applyAll steps fs).content q = fs.content q := by
  induction steps generalizing fs with
  | nil => rfl
  | cons s steps ih =>
    obtain ⟨hs, hsteps⟩ := List.forall_mem_cons.mp h
    exact (ih hsteps (apply fs s)).trans (content_apply_of_spares hs fs)

theorem content_applyAll_truncate (p : P) (n : Nat) (fs : FileStore P) :
    (applyAll [truncate p n] fs).content p = ftruncate n (fs.content p) :=
  FileStore.content_put fs p _

theorem applyAll_congr (steps : List (FileStep P)) {fs fs' : FileStore P}
    (h : ∀ q, fs.content q = fs'.content q) (q : P) :
    (applyAll steps fs).content q = (applyAll steps fs').content q := by
  induction steps generalizing fs fs' with
  | nil => exact h q
  | cons s steps ih =>
    refine ih fun r => ?_
    cases s with
    | create p => simp only [apply, FileStore.content_openCreate, h]
    | truncate p n => simp only [apply, FileStore.content_put_eq, h]
    | store p i b => simp only [apply, FileStore.content_put_eq, h]

end apply

/-- The stores of `data` from the index `i` on. -/
def stores (p : P) : Nat → Bytes → List (FileStep P)
  | _, [] => []
  | i, b :: data => store p i b :: stores p (i + 1) data

def rewriteSteps (p : P) (data : Bytes) : List (FileStep P) :=
  truncate p data.length :: stores p 0 data

theorem spares_of_mem_stores {p q : P} (hpq : p ≠ q) {s : FileStep P} {data : Bytes} :
    ∀ {i : Nat}, s ∈ stores p i data → s.Spares q := by
  induction data with
  | nil => exact fun h => by cases h
  | cons b data ih =>
    intro i h
    rcases List.mem_cons.mp h with rfl | h
    · exact hpq
    · exact ih h

theorem spares_of_mem_rewriteSteps {p q : P} (hpq : p ≠ q) {s : FileStep P} {data : Bytes}
    (h : s ∈ rewriteSteps p data) : s.Spares q := by
  rcases List.mem_cons.mp h with rfl | h
  · exact hpq
  · exact spares_of_mem_stores hpq h

theorem drop_stores (p : P) (k : Nat) :
    ∀ (i : Nat) (data : Bytes), (stores p i data).drop k = stores p (i + k) (data.drop k) := by
  induction k with
  | zero => exact fun _ _ => rfl
  | succ k ih =>
    intro i data
    cases data with
    | nil => rfl
    | cons b data =>
      rw [stores, List.drop_succ_cons, List.drop_succ_cons, ih, Nat.add_right_comm, Nat.add_assoc]

/-! ## What the stores make of a file -/

/-- The bytes of `data` put into `old` from the index `i` on. -/
def patch : Nat → Bytes → Bytes → Bytes
  | _, [], old => old
  | i, b :: data, old => patch (i + 1) data (old.set i b)

theorem content_stores [DecidableEq P] (p : P) (data : Bytes) :
    ∀ (i : Nat) (fs : FileStore P),
      (applyAll (stores p i data) fs).content p = patch i data (fs.content p) := by
  induction data with
  | nil => exact fun _ _ => rfl
  | cons b data ih =>
    intro i fs
    rw [stores, applyAll, List.foldl_cons, ← applyAll, ih, apply, FileStore.content_put, patch]

@[simp] theorem length_patch (data : Bytes) :
    ∀ (i : Nat) (old : Bytes), (patch i data old).length = old.length := by
  induction data with
  | nil => exact fun _ _ => rfl
  | cons b data ih =>
    intro i old
    rw [patch, ih, List.length_set]

/-- A byte of the file after the stores. -/
theorem getElem?_patch (data : Bytes) :
    ∀ (i : Nat) (old : Bytes) (j : Nat), j < old.length →
      (patch i data old)[j]? = if i ≤ j ∧ j < i + data.length then data[j - i]? else old[j]? := by
  induction data with
  | nil =>
    intro i old j hj
    rw [patch, if_neg (by simp)]
  | cons b data ih =>
    intro i old j hj
    rw [patch, ih _ _ _ (by simpa using hj), List.length_cons]
    by_cases hij : i = j
    · subst hij
      rw [if_neg (by omega), if_pos (by omega), List.getElem?_set_self hj, Nat.sub_self]
      rfl
    · rw [List.getElem?_set_ne hij]
      by_cases hin : i + 1 ≤ j ∧ j < i + 1 + data.length
      · rw [if_pos hin, if_pos (by omega), show j - i = (j - (i + 1)) + 1 by omega,
          List.getElem?_cons_succ]
      · rw [if_neg hin, if_neg (by omega)]

theorem getElem?_patch_of_le {data old : Bytes} {i j : Nat} (h : old.length ≤ j) :
    (patch i data old)[j]? = none := List.getElem?_eq_none (by rwa [length_patch])

theorem patch_of_length_eq {data old : Bytes} (h : old.length = data.length) :
    patch 0 data old = data := by
  refine List.ext_getElem? fun j => ?_
  by_cases hj : j < old.length
  · rw [getElem?_patch _ _ _ _ hj, if_pos (by omega), Nat.sub_zero]
  · rw [getElem?_patch_of_le (by omega), List.getElem?_eq_none (by omega)]

theorem getElem?_patch_drop {data old : Bytes} {k j : Nat} (hj : j < old.length) :
    (patch k (data.drop k) old)[j]? =
      if k ≤ j ∧ j < data.length then data[j]? else old[j]? := by
  rw [getElem?_patch _ _ _ _ hj, List.getElem?_drop, List.length_drop]
  by_cases hkj : k ≤ j ∧ j < data.length
  · rw [if_pos hkj, if_pos (by omega), show k + (j - k) = j by omega]
  · rw [if_neg hkj, if_neg (by omega)]

/-- **The rest of the data completes it** where the file has its length and its first bytes. -/
theorem patch_drop_eq_data_iff {data old : Bytes} {k : Nat} :
    patch k (data.drop k) old = data ↔ old.length = data.length ∧ old.take k = data.take k := by
  constructor
  · intro h
    have hlen : old.length = data.length := by rw [← length_patch (data.drop k) k old, h]
    refine ⟨hlen, List.ext_getElem? fun j => ?_⟩
    by_cases hj : j < k ∧ j < old.length
    · rw [List.getElem?_take_of_lt hj.1, List.getElem?_take_of_lt hj.1]
      have hbyte : (patch k (data.drop k) old)[j]? = data[j]? := by rw [h]
      rwa [getElem?_patch_drop hj.2, if_neg (by omega)] at hbyte
    · rw [List.getElem?_eq_none (by simp; omega), List.getElem?_eq_none (by simp; omega)]
  · rintro ⟨hlen, htake⟩
    refine List.ext_getElem? fun j => ?_
    by_cases hj : j < old.length
    · rw [getElem?_patch_drop hj]
      split
      · rfl
      · have hbyte : (old.take k)[j]? = (data.take k)[j]? := by rw [htake]
        rwa [List.getElem?_take_of_lt (by omega), List.getElem?_take_of_lt (by omega)] at hbyte
    · rw [getElem?_patch_of_le (by omega), List.getElem?_eq_none (by omega)]

/-- **The rest of the data changes nothing** where the file agrees with it as far as it
goes. -/
theorem patch_drop_eq_self_iff {data old : Bytes} {k : Nat} :
    patch k (data.drop k) old = old ↔
      ∀ j, k ≤ j → j < data.length → j < old.length → old[j]? = data[j]? := by
  constructor
  · intro h j hkj hdata hold
    have hbyte : (patch k (data.drop k) old)[j]? = old[j]? := by rw [h]
    rw [getElem?_patch_drop hold, if_pos ⟨hkj, hdata⟩] at hbyte
    exact hbyte.symm
  · intro h
    refine List.ext_getElem? fun j => ?_
    by_cases hj : j < old.length
    · rw [getElem?_patch_drop hj]
      split
      · rename_i hin
        exact (h j hin.1 hin.2 hj).symm
      · rfl
    · rw [getElem?_patch_of_le (by omega), List.getElem?_eq_none (by omega)]

/-- **Taken to its end**, a rewrite replaces the file. -/
theorem content_rewriteSteps [DecidableEq P] (p : P) (data : Bytes) (fs : FileStore P) (q : P) :
    (applyAll (rewriteSteps p data) fs).content q = if q = p then data else fs.content q := by
  split
  · rename_i hq
    rw [hq, rewriteSteps, applyAll, List.foldl_cons, ← applyAll, content_stores, apply,
      FileStore.content_put, patch_of_length_eq (length_ftruncate _ _)]
  · rename_i hq
    exact content_applyAll_of_spares (fun s hs => spares_of_mem_rewriteSteps (Ne.symm hq) hs) fs

theorem content_drop_rewriteSteps [DecidableEq P] (p : P) (data : Bytes) (k : Nat)
    (fs : FileStore P) :
    (applyAll ((rewriteSteps p data).drop (k + 1)) fs).content p =
      patch k (data.drop k) (fs.content p) := by
  rw [rewriteSteps, List.drop_succ_cons, drop_stores, content_stores, Nat.zero_add]

end FileStep

end Clib
