import Hassmic.Lib.Bytes

/-!
# Checked access

A program in C that reads a buffer reads wherever its index points.  Here an access that leaves the
buffer is a fault, so that a function that never faults is one that stays inside whatever it is
given.

## Main definitions

* `peek`, `slice` — a byte, and a piece of a buffer.
* `room` — what is written fits.

## Main results

* `peek_eq`, `slice_eq`, `room_eq` — accesses inside of the buffer.
-/

namespace Checked

/-- An access outside of a buffer. -/
inductive Fault
  | outside
  deriving DecidableEq

/-- A byte of a buffer. -/
def peek (b : Bytes) (i : ℕ) : Except Fault UInt8 :=
  match b[i]? with
  | some c => .ok c
  | none => .error .outside

/-- The `n` bytes of a buffer from `i` on. -/
def slice (b : Bytes) (i n : ℕ) : Except Fault Bytes :=
  if i + n ≤ b.length then .ok ((b.drop i).take n) else .error .outside

/-- What is written, `n` bytes, fits into `cap`. -/
def room (n cap : ℕ) : Except Fault Unit := if n ≤ cap then .ok () else .error .outside

variable {b : Bytes} {i n cap : ℕ}

theorem peek_eq (h : i < b.length) : peek b i = .ok b[i] := by
  unfold peek
  rw [List.getElem?_eq_getElem h]

theorem peek_append {a l : Bytes} {c : UInt8} : peek (a ++ c :: l) a.length = .ok c := by
  unfold peek
  rw [List.getElem?_append_right le_rfl, Nat.sub_self]
  rfl

theorem slice_eq (h : i + n ≤ b.length) : slice b i n = .ok ((b.drop i).take n) := if_pos h

theorem room_eq (h : n ≤ cap) : room n cap = .ok () := if_pos h

end Checked
