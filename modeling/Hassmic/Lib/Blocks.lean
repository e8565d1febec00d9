import Mathlib.Data.List.Basic
import Mathlib.Tactic

/-!
# Text in blocks

A function that takes one block of `B` elements after the other goes over a text of any length: what
is left behind the last whole block waits for more.  A text that comes in pieces leads to the same
as the whole of it.

## Main definitions

* `Blocks.absorb` — whole blocks taken from the front, and what is left.
* `Blocks.parse` — the whole blocks of a text.

## Main results

* `Blocks.absorb_append` — **a text in two pieces**.
* `Blocks.absorb_eq_foldl` — the blocks taken are those of the text.
-/

namespace Blocks

open List

variable {α σ : Type*} (B : ℕ) (f : σ → List α → σ)

/-- Whole blocks are taken from the front until less than one is left. -/
def absorb (s : σ) (l : List α) : σ × List α :=
  if _h : 0 < B ∧ B ≤ l.length then absorb (f s (l.take B)) (l.drop B) else (s, l)
termination_by l.length
decreasing_by
  rw [List.length_drop]
  omega

/-- The whole blocks of a text. -/
def parse (l : List α) : List (List α) :=
  (List.range (l.length / B)).map fun i => (l.drop (B * i)).take B

variable {B f} {s : σ} {l m : List α}

theorem absorb_short (h : l.length < B) : absorb B f s l = (s, l) := by
  rw [absorb, dif_neg (by omega)]

theorem absorb_block (hB : 0 < B) (h : B ≤ l.length) :
    absorb B f s l = absorb B f (f s (l.take B)) (l.drop B) := by
  rw [absorb, dif_pos ⟨hB, h⟩]

/-- What is left is less than a block. -/
theorem length_absorb (hB : 0 < B) : (absorb B f s l).2.length = l.length % B := by
  induction s, l using absorb.induct B f with
  | case1 s l h ih =>
    rw [absorb_block h.1 h.2, ih, length_drop, Nat.mod_eq_sub_mod h.2]
  | case2 s l h =>
    rw [absorb, dif_neg h, Nat.mod_eq_of_lt (by omega)]

/-- **A text in two pieces**: the second one is taken behind what the first one left. -/
theorem absorb_append (hB : 0 < B) :
    absorb B f s (l ++ m) = absorb B f (absorb B f s l).1 ((absorb B f s l).2 ++ m) := by
  induction s, l using absorb.induct B f with
  | case1 s l h ih =>
    have hlen : B ≤ (l ++ m).length := by
      rw [length_append]
      omega
    rw [absorb_block hB hlen, take_append_of_le_length h.2, drop_append_of_le_length h.2, ih,
      absorb_block (s := s) (l := l) hB h.2]
  | case2 s l h => rw [absorb_short (l := l) (by omega)]

theorem parse_short (h : l.length < B) : parse B l = [] := by
  rw [parse, Nat.div_eq_of_lt h, range_zero, map_nil]

theorem parse_block (hB : 0 < B) (h : B ≤ l.length) :
    parse B l = l.take B :: parse B (l.drop B) := by
  have hdiv : l.length / B = (l.drop B).length / B + 1 := by
    rw [length_drop, Nat.div_eq_sub_div hB h]
  unfold parse
  rw [hdiv, range_succ_eq_map, map_cons, map_map, Nat.mul_zero, drop_zero]
  congr 1
  refine map_congr_left fun i _ => ?_
  rw [Function.comp_apply, drop_drop, Nat.succ_eq_add_one, Nat.mul_succ, Nat.add_comm]

/-- **The blocks taken are those of the text.** -/
theorem absorb_eq_foldl (hB : 0 < B) : (absorb B f s l).1 = (parse B l).foldl f s := by
  induction s, l using absorb.induct B f with
  | case1 s l h ih => rw [absorb_block hB h.2, ih, parse_block hB h.2, foldl_cons]
  | case2 s l h => rw [absorb_short (by omega), parse_short (by omega), foldl_nil]

end Blocks
