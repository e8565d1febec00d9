import Mathlib

/-!
# Byte strings

Byte strings are lists of bytes.  This module holds what every reader and writer
of bytes below shares: the names of the bytes that punctuate text, and the
inversion of a sequence of computations that may stop.
-/

/-- A byte string. -/
abbrev Bytes := List UInt8

namespace Byte

/-! ### The bytes that punctuate text -/

abbrev nul : UInt8 := 0x00
abbrev tab : UInt8 := 0x09
abbrev lf : UInt8 := 0x0a
abbrev cr : UInt8 := 0x0d
abbrev space : UInt8 := 0x20
abbrev quote : UInt8 := 0x22
abbrev plus : UInt8 := 0x2b
abbrev comma : UInt8 := 0x2c
abbrev minus : UInt8 := 0x2d
abbrev dot : UInt8 := 0x2e
abbrev slash : UInt8 := 0x2f
abbrev colon : UInt8 := 0x3a
abbrev lbracket : UInt8 := 0x5b
abbrev backslash : UInt8 := 0x5c
abbrev rbracket : UInt8 := 0x5d
abbrev lbrace : UInt8 := 0x7b
abbrev rbrace : UInt8 := 0x7d

/-- The bytes of a text. -/
abbrev text (s : String) : Bytes := s.toUTF8.toList

/-- A decimal digit. -/
def isDigit (c : UInt8) : Bool := 0x30 ≤ c && c ≤ 0x39

/-- `memcmp` finds `a` before `b`. -/
def before (a b : Bytes) : Bool := decide (a.map UInt8.toNat < b.map UInt8.toNat)

/-- What `memcmp` compares tells byte strings apart. -/
theorem map_toNat_injective : Function.Injective (List.map UInt8.toNat) :=
  List.map_injective_iff.mpr fun _ _ h => UInt8.toNat.inj h

end Byte

namespace Except

universe u v

variable {ε : Type u} {α β : Type v}

/-- A sequence succeeds exactly when both parts do. -/
theorem bind_eq_ok_iff {x : Except ε α} {f : α → Except ε β} {b : β} :
    (x >>= f) = .ok b ↔ ∃ a, x = .ok a ∧ f a = .ok b := by
  cases x with
  | error e => simp [bind, Except.bind]
  | ok a => simp [bind, Except.bind]

/-- A sequence stops with `e` when its first part does, or the second does after
the first succeeded. -/
theorem bind_eq_error_iff {x : Except ε α} {f : α → Except ε β} {e : ε} :
    (x >>= f) = .error e ↔ x = .error e ∨ ∃ a, x = .ok a ∧ f a = .error e := by
  cases x with
  | error e => simp [bind, Except.bind]
  | ok a => simp [bind, Except.bind]

@[simp] theorem ok_bind (a : α) (f : α → Except ε β) : (Except.ok a >>= f) = f a := rfl

@[simp] theorem error_bind (e : ε) (f : α → Except ε β) :
    ((Except.error e : Except ε α) >>= f) = .error e := rfl

end Except
