import Mathlib.Logic.Function.Basic
import MiniRunner.Clib.Str

/-!
# Files

A file store maps paths to contents; `none` is a path that does not exist.
`openCreate` is `open` with `O_CREAT`, `ftruncate` resizes with zeros, and
`copyInto` is `memcpy` into a shared mapping: it cannot move the end of the file,
so bytes past the mapped length are lost. `rewrite` is the way a program replaces
a file with these calls, and `content_rewrite` says it does.
-/

namespace Clib

abbrev FileStore (P : Type) := P → Option Bytes

/-- `ftruncate`: cut, or extend with zeros. -/
def ftruncate (n : Nat) (bs : Bytes) : Bytes := bs.take n ++ List.replicate (n - bs.length) 0

/-- `memcpy` of `data` into a mapping that shows `old`. -/
def copyInto (old data : Bytes) : Bytes := data.take old.length ++ old.drop data.length

@[simp] theorem length_ftruncate (n : Nat) (bs : Bytes) : (ftruncate n bs).length = n := by
  simp [ftruncate]
  omega

@[simp] theorem ftruncate_zero (bs : Bytes) : ftruncate 0 bs = [] := by simp [ftruncate]

theorem copyInto_of_length_eq {old data : Bytes} (h : old.length = data.length) :
    copyInto old data = data := by
  simp [copyInto, h, List.drop_eq_nil_of_le]

namespace FileStore

variable {P : Type} [DecidableEq P]

/-- What a read of the path sees; a missing file has nothing in it. -/
def content (fs : FileStore P) (p : P) : Bytes := (fs p).getD []

def put (fs : FileStore P) (p : P) (bs : Bytes) : FileStore P := Function.update fs p (some bs)

/-- `open` with `O_CREAT`: a missing file is created empty. -/
def openCreate (fs : FileStore P) (p : P) : FileStore P := fs.put p (fs.content p)

/-- Resize, map, copy: the file becomes `data`. -/
def rewrite (fs : FileStore P) (p : P) (data : Bytes) : FileStore P :=
  let fs := fs.put p (ftruncate data.length (fs.content p))
  fs.put p (copyInto (fs.content p) data)

@[simp] theorem content_put (fs : FileStore P) (p : P) (bs : Bytes) :
    (fs.put p bs).content p = bs := by
  simp [content, put]

theorem content_put_of_ne {fs : FileStore P} {p q : P} (h : q ≠ p) (bs : Bytes) :
    (fs.put p bs).content q = fs.content q := by
  simp [content, put, h]

theorem content_put_eq (fs : FileStore P) (p q : P) (bs : Bytes) :
    (fs.put p bs).content q = if q = p then bs else fs.content q := by
  split
  · rename_i h
    rw [h, content_put]
  · rename_i h
    exact content_put_of_ne h bs

@[simp] theorem content_openCreate (fs : FileStore P) (p q : P) :
    (fs.openCreate p).content q = fs.content q := by
  unfold openCreate
  rw [content_put_eq]
  split
  · rename_i h
    rw [h]
  · rfl

theorem rewrite_eq (fs : FileStore P) (p : P) (data : Bytes) :
    fs.rewrite p data = fs.put p data := by
  have h : copyInto (ftruncate data.length (fs.content p)) data = data :=
    copyInto_of_length_eq (by simp)
  simp only [rewrite, content_put, h]
  simp [put]

/-- **Replacing a file** leaves the new data in it and every other file alone. -/
theorem content_rewrite (fs : FileStore P) (p q : P) (data : Bytes) :
    (fs.rewrite p data).content q = if q = p then data else fs.content q := by
  rw [rewrite_eq, content_put_eq]

end FileStore

end Clib
