import Mathlib.Algebra.BigOperators.Group.List.Lemmas
import Mathlib.Algebra.Order.Ring.Int
import Mathlib.Data.List.Forall2
import Mathlib.Tactic.Linarith
import Mathlib.Tactic.Ring

/-!
# Counted loops

Loops of the shape `for (i = start; i < stop; i += step)`, with the comparison the other way for a
step down, and loops nested in one another.  A loop whose step is not zero ends; how often it goes
round is the distance by the step, rounded up.

An element of an array of several dimensions lies at the sum of its indices, each times the product
of the dimensions after it.

## Main definitions

* `Loop`, `Loop.indices` — a loop, and the values its variable takes.
* `Loop.nest` — the values of the variables of nested loops.
* `Loop.offset` — where an element of an array of several dimensions lies.

## Main results

* `Loop.indices_eq` — the values a loop goes through.
* `Loop.nest_spec` — how many turns nested loops make, and which.
* `Loop.offset_lt` — indices inside the dimensions give a place inside the array.
-/

namespace Hassmic

open List

/-- A loop from `start` up or down to `stop`. -/
structure Loop where
  start : ℤ
  stop : ℤ
  step : ℤ
deriving Repr, DecidableEq

namespace Loop

/-! ### One loop -/

/-- The loop's condition. -/
def more (l : Loop) (i : ℤ) : Prop := if 0 < l.step then i < l.stop else l.stop < i

instance (l : Loop) (i : ℤ) : Decidable (l.more i) := by
  unfold more
  infer_instance

/-- The values from `i` on, in at most so many turns. -/
def visit (l : Loop) : ℕ → ℤ → Option (List ℤ)
  | 0, _ => none
  | fuel + 1, i => if l.more i then (l.visit fuel (i + l.step)).map (i :: ·) else some []

/-- The values of the loop's variable, or nothing when the loop never ends. -/
def indices (l : Loop) : Option (List ℤ) := l.visit ((l.stop - l.start).natAbs + 1) l.start

/-- How far it is from `i` to the end. -/
def gap (l : Loop) (i : ℤ) : ℤ := if 0 < l.step then l.stop - i else i - l.stop

/-- How many turns are left at `i`. -/
def turns (l : Loop) (i : ℤ) : ℕ := ((l.gap i + |l.step| - 1) / |l.step|).toNat

/-- How often the loop goes round. -/
def count (l : Loop) : ℕ := l.turns l.start

section

variable {l : Loop} {i : ℤ}

theorem more_iff : l.more i ↔ 0 < l.gap i := by
  unfold more gap
  split
  · omega
  · omega

theorem turns_eq_zero (hstep : l.step ≠ 0) (h : ¬ l.more i) : l.turns i = 0 := by
  rw [more_iff, not_lt] at h
  have hpos : 0 < |l.step| := abs_pos.mpr hstep
  unfold turns
  rw [Int.toNat_eq_zero, ← Int.lt_add_one_iff, zero_add]
  exact Int.ediv_lt_of_lt_mul hpos (by omega)

theorem gap_add (hstep : l.step ≠ 0) : l.gap (i + l.step) = l.gap i - |l.step| := by
  unfold gap
  rcases lt_or_gt_of_ne hstep with hneg | hpos
  · rw [if_neg hneg.le.not_gt, if_neg hneg.le.not_gt, abs_of_neg hneg]
    ring
  · rw [if_pos hpos, if_pos hpos, abs_of_pos hpos]
    ring

theorem turns_succ (hstep : l.step ≠ 0) (h : l.more i) : l.turns i = l.turns (i + l.step) + 1 := by
  rw [more_iff] at h
  have hpos : 0 < |l.step| := abs_pos.mpr hstep
  unfold turns
  rw [gap_add hstep]
  have hnext : l.gap i + |l.step| - 1 = (l.gap i - |l.step| + |l.step| - 1) + |l.step| := by ring
  rw [hnext, Int.add_ediv_of_dvd_right (dvd_refl _), Int.ediv_self hpos.ne']
  have hnonneg : 0 ≤ (l.gap i - |l.step| + |l.step| - 1) / |l.step| :=
    Int.ediv_nonneg (by omega) hpos.le
  omega

theorem turns_le (hstep : l.step ≠ 0) : l.turns i ≤ (l.gap i).toNat := by
  have hpos : 0 < |l.step| := abs_pos.mpr hstep
  unfold turns
  by_cases hgap : 0 < l.gap i
  · refine Int.toNat_le_toNat (Int.ediv_le_of_le_mul hpos ?_)
    nlinarith
  · refine le_of_eq_of_le ?_ (Nat.zero_le _)
    have hmore : ¬ l.more i := fun h => hgap (more_iff.mp h)
    exact turns_eq_zero hstep hmore

theorem visit_eq (hstep : l.step ≠ 0) {fuel : ℕ} (hfuel : l.turns i < fuel) :
    l.visit fuel i = some ((List.range (l.turns i)).map fun (k : ℕ) => i + k * l.step) := by
  induction fuel generalizing i with
  | zero => exact absurd hfuel (Nat.not_lt_zero _)
  | succ fuel ih =>
    rw [visit]
    by_cases h : l.more i
    · have hturns := turns_succ hstep h
      rw [if_pos h, ih (by omega), Option.map_some, hturns, range_succ_eq_map, map_cons,
        map_map]
      refine congrArg some (cons_eq_cons.mpr ⟨by simp, map_congr_left fun k _ => ?_⟩)
      rw [Function.comp_apply]
      push_cast
      ring
    · rw [if_neg h, turns_eq_zero hstep h]
      rfl

/-- **The values a loop goes through.** -/
theorem indices_eq (hstep : l.step ≠ 0) :
    l.indices = some ((List.range l.count).map fun (k : ℕ) => l.start + k * l.step) := by
  refine visit_eq hstep (Nat.lt_succ_of_le ((turns_le hstep).trans ?_))
  unfold gap
  split
  · omega
  · omega

end

/-! ### Loops in one another -/

/-- The values of the variables of nested loops, in their order. -/
def nest : List Loop → Option (List (List ℤ))
  | [] => some [[]]
  | l :: ls => do
      let is ← l.indices
      let blocks ← is.mapM fun i => (nest ls).map fun turns => turns.map (i :: ·)
      some blocks.flatten

/-- The loop's variable takes this value. -/
def Takes (l : Loop) (i : ℤ) : Prop := ∃ k < l.count, i = l.start + k * l.step

/-- The variable stays between the loop's start and its end. -/
theorem Takes.between {l : Loop} {i : ℤ} (h : l.Takes i) (hstep : l.step ≠ 0) :
    if 0 < l.step then l.start ≤ i ∧ i < l.stop else l.stop < i ∧ i ≤ l.start := by
  obtain ⟨k, hk, rfl⟩ := h
  have hpos : 0 < |l.step| := abs_pos.mpr hstep
  have hturns : (k : ℤ) + 1 ≤ (l.gap l.start + |l.step| - 1) / |l.step| := by
    unfold count turns at hk
    omega
  have hgap : ((k : ℤ) + 1) * |l.step| ≤ l.gap l.start + |l.step| - 1 := by
    rwa [Int.le_ediv_iff_mul_le hpos] at hturns
  have hk0 : (0 : ℤ) ≤ k := Nat.cast_nonneg k
  unfold gap at hgap
  split
  · next hup =>
    rw [if_pos hup, abs_of_pos hup] at hgap
    constructor
    · nlinarith
    · nlinarith
  · next hdown =>
    have hneg : l.step < 0 := lt_of_le_of_ne (not_lt.mp hdown) hstep
    rw [if_neg hdown, abs_of_neg hneg] at hgap
    constructor
    · nlinarith
    · nlinarith

/-- A loop that goes round at all takes its start. -/
theorem takes_start {l : Loop} (h : 0 < l.count) : l.Takes l.start := ⟨0, h, by simp⟩

theorem mapM_some {α β : Type*} (f : α → β) (l : List α) :
    l.mapM (fun a => some (f a)) = some (l.map f) := by
  induction l with
  | nil => rfl
  | cons a l ih =>
    rw [mapM_cons, ih]
    rfl

/-- **How many turns nested loops make, and which.** -/
theorem nest_spec {ls : List Loop} (h : ∀ l ∈ ls, l.step ≠ 0) :
    ∃ turns, nest ls = some turns ∧ turns.length = (ls.map count).prod ∧
      ∀ is, is ∈ turns ↔ List.Forall₂ Takes ls is := by
  induction ls with
  | nil =>
    refine ⟨[[]], rfl, rfl, fun is => ?_⟩
    rw [mem_singleton, forall₂_nil_left_iff]
  | cons l ls ih =>
    obtain ⟨turns, hturns, hlength, hmem⟩ := ih fun m hm => h m (mem_cons_of_mem _ hm)
    have hl := indices_eq (h l mem_cons_self)
    have hnest : nest (l :: ls) =
        some (((List.range l.count).map fun (k : ℕ) => l.start + k * l.step).map
        fun i => turns.map (i :: ·)).flatten := by
      rw [nest, hl, hturns]
      simp only [Option.map_some, Option.bind_eq_bind, Option.bind_some, mapM_some]
    refine ⟨_, hnest, ?_, fun is => ?_⟩
    · rw [map_cons, prod_cons, length_flatten, map_map, map_map]
      have hconst : ((List.length ∘ fun i => turns.map (i :: ·)) ∘ fun (k : ℕ) =>
          l.start + k * l.step) =
          fun _ => (ls.map count).prod := by
        funext k
        rw [Function.comp_apply, Function.comp_apply, length_map, hlength]
      rw [hconst, map_const', length_range, sum_replicate, nsmul_eq_mul, Nat.cast_id]
    · rw [mem_flatten, forall₂_cons_left_iff]
      constructor
      · rintro ⟨block, hblock, his⟩
        obtain ⟨i, hi, rfl⟩ := mem_map.mp hblock
        obtain ⟨js, hjs, rfl⟩ := mem_map.mp his
        obtain ⟨k, hk, rfl⟩ := mem_map.mp hi
        exact ⟨_, js, ⟨k, mem_range.mp hk, rfl⟩, (hmem js).mp hjs, rfl⟩
      · rintro ⟨i, js, ⟨k, hk, rfl⟩, hjs, rfl⟩
        exact ⟨_, mem_map_of_mem (mem_map_of_mem (mem_range.mpr hk)),
          mem_map_of_mem ((hmem js).mpr hjs)⟩

theorem forall₂_imp {α β : Type*} {R S : α → β → Prop} {l : List α} {m : List β}
    (h : ∀ a ∈ l, ∀ b, R a b → S a b) (hR : List.Forall₂ R l m) : List.Forall₂ S l m := by
  induction hR with
  | nil => exact .nil
  | cons hab _ ih =>
    exact .cons (h _ mem_cons_self _ hab) (ih fun a ha => h a (mem_cons_of_mem _ ha))

/-! ### Where an element lies -/

/-- How far two elements are apart that are next to each other in one dimension, the last dimension
closest. -/
def strides : List ℕ → List ℕ
  | [] => []
  | _ :: ds => ds.prod :: strides ds

/-- Where the element with these indices lies. -/
def offset (dims : List ℕ) (is : List ℤ) : ℤ :=
  (List.zipWith (fun (i : ℤ) (st : ℕ) => i * (st : ℤ)) is (strides dims)).sum

@[simp] theorem offset_cons (d : ℕ) (ds : List ℕ) (i : ℤ) (is : List ℤ) :
    offset (d :: ds) (i :: is) = i * ds.prod + offset ds is := by
  rw [offset, strides, zipWith_cons_cons, sum_cons]
  rfl

theorem offset_nonneg {dims : List ℕ} {is : List ℤ} (h : List.Forall₂ (fun _ i => 0 ≤ i) dims is) :
    0 ≤ offset dims is := by
  induction h with
  | nil => exact le_rfl
  | cons hi _ ih =>
    rw [offset_cons]
    exact add_nonneg (mul_nonneg hi (Nat.cast_nonneg _)) ih

/-- An index lies inside its dimension. -/
def Inside (d : ℕ) (i : ℤ) : Prop := 0 ≤ i ∧ i < d

/-- **Indices inside the dimensions give a place inside the array.** -/
theorem offset_lt {dims : List ℕ} {is : List ℤ} (h : List.Forall₂ Inside dims is) :
    0 ≤ offset dims is ∧ offset dims is < dims.prod := by
  induction h with
  | nil => exact ⟨le_rfl, Int.one_pos⟩
  | @cons d i ds is hi _ ih =>
    rw [offset_cons, prod_cons, Nat.cast_mul]
    obtain ⟨hlow, hhigh⟩ := hi
    constructor
    · exact add_nonneg (mul_nonneg hlow (Nat.cast_nonneg _)) ih.1
    · have hrow : (i + 1) * (ds.prod : ℤ) ≤ d * ds.prod :=
        mul_le_mul_of_nonneg_right (by omega) (Nat.cast_nonneg _)
      calc i * (ds.prod : ℤ) + offset ds is < i * ds.prod + ds.prod := by omega
        _ = (i + 1) * ds.prod := by ring
        _ ≤ d * ds.prod := hrow

end Loop

end Hassmic
