import MiniRunner.Clib.Str

/-!
# Pipes

The bytes in a pipe and the number of descriptors that are open on each end. A read waits
for a byte or for the last write end to be closed, and the latter gives nothing. A write
without a reader kills the writer.
-/

namespace Clib

structure Pipe where
  data : Bytes
  writers : Nat
  readers : Nat
  deriving DecidableEq, Repr

namespace Pipe

/-- A new pipe that `holders` processes hold both ends of. -/
def shared (holders : Nat) : Pipe := ⟨[], holders, holders⟩

/-- `write`; `none` is `SIGPIPE`. -/
def write (bs : Bytes) (p : Pipe) : Option Pipe :=
  if p.readers = 0 then none else some { p with data := p.data ++ bs }

/-- `read`; `none` is a read that waits. -/
def read (size : Nat) (p : Pipe) : Option (Bytes × Pipe) :=
  if p.data = [] ∧ p.writers ≠ 0 then none
  else some (p.data.take size, { p with data := p.data.drop size })

def closeWriter (p : Pipe) : Pipe := { p with writers := p.writers - 1 }

def closeReader (p : Pipe) : Pipe := { p with readers := p.readers - 1 }

variable {p : Pipe}

@[simp] theorem data_closeWriter : p.closeWriter.data = p.data := rfl
@[simp] theorem writers_closeWriter : p.closeWriter.writers = p.writers - 1 := rfl
@[simp] theorem readers_closeWriter : p.closeWriter.readers = p.readers := rfl
@[simp] theorem data_closeReader : p.closeReader.data = p.data := rfl
@[simp] theorem writers_closeReader : p.closeReader.writers = p.writers := rfl
@[simp] theorem readers_closeReader : p.closeReader.readers = p.readers - 1 := rfl

theorem write_of_readers (h : 0 < p.readers) (bs : Bytes) :
    p.write bs = some { p with data := p.data ++ bs } := if_neg h.ne'

theorem read_waits {size : Nat} (hdata : p.data = []) (hwriters : 0 < p.writers) :
    p.read size = none := if_pos ⟨hdata, hwriters.ne'⟩

/-- **A message is read as a whole** when the buffer holds it. -/
theorem read_message {size : Nat} (hdata : p.data ≠ []) (hsize : p.data.length ≤ size) :
    p.read size = some (p.data, { p with data := [] }) := by
  rw [read, if_neg fun h => hdata h.1, List.take_of_length_le hsize,
    List.drop_eq_nil_of_le hsize]

end Pipe

end Clib
