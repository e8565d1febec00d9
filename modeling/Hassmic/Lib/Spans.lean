import Mathlib.Data.List.Basic
import Mathlib.Order.Basic
import Mathlib.Data.Nat.Notation
import Mathlib.Order.Defs.LinearOrder
import Mathlib.Algebra.Order.Group.Nat

/-!
# Spans of a table

Each entry of a list has a span of a table, from its first place and so many places long.  The spans
are filled one after the other: an entry is begun where the table ends, and as long as it is the
last one begun it grows with the table.  Entries that are not begun have no place yet, and are zero.

## Main definitions

* `Spans` — every span lies inside the table, the spans that have a place are in order and apart,
  and every place of the table is in one.
* `Spans.Fresh`, `Spans.Opened` — from here on none is begun; this one ends where the table ends.

## Main results

* `Spans.concat`, `Spans.begins`, `Spans.grows` — a new entry, an entry begun, an entry that grows.
-/

/-- The spans of a table with `total` places. -/
structure Spans (l : List (ℕ × ℕ)) (total : ℕ) : Prop where
  inside : ∀ (i : ℕ) (p : ℕ × ℕ), l[i]? = some p → p.1 + p.2 ≤ total
  ordered : ∀ (i j : ℕ) (p q : ℕ × ℕ), l[i]? = some p → l[j]? = some q → i < j →
    q ≠ (0, 0) → p.1 + p.2 ≤ q.1
  cover : ∀ k < total, ∃ (i : ℕ) (p : ℕ × ℕ), l[i]? = some p ∧ p.1 ≤ k ∧ k < p.1 + p.2

namespace Spans

variable {l : List (ℕ × ℕ)} {total i : ℕ}

/-- From `i` on no entry is begun. -/
def Fresh (l : List (ℕ × ℕ)) (i : ℕ) : Prop :=
  ∀ (j : ℕ) (p : ℕ × ℕ), i ≤ j → l[j]? = some p → p = (0, 0)

/-- The entry `i` is the last one begun. -/
def Opened (l : List (ℕ × ℕ)) (i total : ℕ) : Prop :=
  Fresh l (i + 1) ∧ ∃ p, l[i]? = some p ∧ p.1 + p.2 = total

/-- Entries of a list that are changed as their images are. -/
theorem map_modify_image {α β : Type*} {g : α → β} {f : α → α} {f' : β → β}
    (hf : ∀ a, g (f a) = f' (g a)) (l : List α) (i : ℕ) :
    (l.modify i f).map g = (l.map g).modify i f' := by
  apply List.ext_getElem?
  intro j
  rw [List.getElem?_map]
  by_cases hij : i = j
  · subst hij
    rw [List.getElem?_modify_eq, List.getElem?_modify_eq, List.getElem?_map]
    cases l[i]? with
    | none => rfl
    | some a => exact congrArg some (hf a)
  · rw [List.getElem?_modify_ne _ _ hij, List.getElem?_modify_ne _ _ hij, List.getElem?_map]

theorem nil : Spans [] 0 := ⟨nofun, nofun, nofun⟩

theorem Fresh.mono (h : Fresh l i) {j : ℕ} (hij : i ≤ j) : Fresh l j :=
  fun k p hk => h k p (hij.trans hk)

theorem Opened.lt (h : Opened l i total) : i < l.length := by
  obtain ⟨-, p, hp, -⟩ := h
  exact (List.getElem?_eq_some_iff.mp hp).1

/-- A new entry, not begun. -/
theorem concat (h : Spans l total) : Spans (l ++ [(0, 0)]) total := by
  have hnew : ∀ {j : ℕ} {p : ℕ × ℕ}, (l ++ [(0, 0)])[j]? = some p →
      l[j]? = some p ∨ p = (0, 0) := by
    intro j p hp
    rw [List.getElem?_append] at hp
    split_ifs at hp with hj
    · exact .inl hp
    · exact .inr (List.mem_singleton.mp (List.mem_of_getElem? hp))
  refine ⟨?_, ?_, ?_⟩
  · intro j p hp
    rcases hnew hp with hold | rfl
    · exact h.inside j p hold
    · exact Nat.zero_le total
  · intro j k p q hp hq hjk hne
    rcases hnew hq with hold | rfl
    · have hk := (List.getElem?_eq_some_iff.mp hold).1
      rw [List.getElem?_append_left (hjk.trans hk)] at hp
      exact h.ordered j k p q hp hold hjk hne
    · exact absurd rfl hne
  · intro k hk
    obtain ⟨j, p, hp, hin⟩ := h.cover k hk
    exact ⟨j, p, List.getElem?_append_left (List.getElem?_eq_some_iff.mp hp).1 ▸ hp, hin⟩

theorem Fresh.concat (h : Fresh l i) : Fresh (l ++ [(0, 0)]) i := by
  intro j p hij hp
  rw [List.getElem?_append] at hp
  split_ifs at hp with hj
  · exact h j p hij hp
  · rw [List.mem_singleton.mp (List.mem_of_getElem? hp)]

/-- What an entry of a changed list was. -/
theorem get_modify {f : ℕ × ℕ → ℕ × ℕ} {j : ℕ} {p : ℕ × ℕ} (hp : (l.modify i f)[j]? = some p) :
    (i = j ∧ ∃ q, l[j]? = some q ∧ p = f q) ∨ (i ≠ j ∧ l[j]? = some p) := by
  by_cases hij : i = j
  · subst hij
    rw [List.getElem?_modify_eq] at hp
    obtain ⟨q, hq, rfl⟩ := Option.map_eq_some_iff.mp hp
    exact .inl ⟨rfl, q, hq, rfl⟩
  · rw [List.getElem?_modify_ne _ _ hij] at hp
    exact .inr ⟨hij, hp⟩

theorem Fresh.modify (h : Fresh l (i + 1)) (f : ℕ × ℕ → ℕ × ℕ) : Fresh (l.modify i f) (i + 1) := by
  intro j p hij hp
  rcases get_modify hp with ⟨rfl, -⟩ | ⟨-, hold⟩
  · omega
  · exact h j p hij hold

/-- **An entry is begun**, where the table ends. -/
theorem begins (h : Spans l total) (hfresh : Fresh l i) (hi : i < l.length) :
    Spans (l.modify i fun p => (total, p.2)) total ∧
    Opened (l.modify i fun p => (total, p.2)) i total := by
  have hzero : ∀ q, l[i]? = some q → q.2 = 0 := fun q hq => congrArg Prod.snd (hfresh i q le_rfl hq)
  refine ⟨⟨?_, ?_, ?_⟩, (hfresh.mono (Nat.le_succ i)).modify _, (total, l[i].2), ?_, ?_⟩
  · intro j p hp
    rcases get_modify hp with ⟨rfl, q, hq, rfl⟩ | ⟨-, hold⟩
    · exact (congrArg (total + ·) (hzero q hq)).le
    · exact h.inside j p hold
  · intro j k p q hp hq hjk hne
    rcases get_modify hq with ⟨rfl, q', hq', rfl⟩ | ⟨-, hold⟩
    · -- it starts where all the others end
      rcases get_modify hp with ⟨rfl, -⟩ | ⟨-, hold⟩
      · omega
      · exact h.inside j p hold
    · rcases get_modify hp with ⟨rfl, -⟩ | ⟨-, hold'⟩
      · exact absurd (hfresh k q hjk.le hold) hne
      · exact h.ordered j k p q hold' hold hjk hne
  · intro k hk
    obtain ⟨j, p, hp, hin⟩ := h.cover k hk
    have hij : i ≠ j := by
      rintro rfl
      have hp0 := hzero p hp
      omega
    exact ⟨j, p, (List.getElem?_modify_ne _ _ hij).trans hp, hin⟩
  · rw [List.getElem?_modify_eq, List.getElem?_eq_getElem hi]
    rfl
  · exact congrArg (total + ·) (hzero _ (List.getElem?_eq_getElem hi))

/-- **The entry that was begun last grows** with the table. -/
theorem grows (h : Spans l total) (hopened : Opened l i total) :
    Spans (l.modify i fun p => (p.1, p.2 + 1)) (total + 1) ∧
      Opened (l.modify i fun p => (p.1, p.2 + 1)) i (total + 1) := by
  obtain ⟨hfresh, p₀, hp₀, hend⟩ := hopened
  have hlast : (l.modify i fun p => (p.1, p.2 + 1))[i]? = some (p₀.1, p₀.2 + 1) := by
    rw [List.getElem?_modify_eq, hp₀]
    rfl
  refine ⟨⟨?_, ?_, ?_⟩, hfresh.modify _, (p₀.1, p₀.2 + 1), hlast, congrArg Nat.succ hend⟩
  · intro j p hp
    rcases get_modify hp with ⟨rfl, q, hq, rfl⟩ | ⟨-, hold⟩
    · rw [hp₀] at hq
      cases hq
      exact (congrArg Nat.succ hend).le
    · exact (h.inside j p hold).trans (Nat.le_succ total)
  · intro j k p q hp hq hjk hne
    rcases get_modify hq with ⟨rfl, q', hq', rfl⟩ | ⟨-, hold⟩
    · -- the entries before it end where it starts, or it was empty and starts at the table's end
      rw [hp₀] at hq'
      cases hq'
      rcases get_modify hp with ⟨rfl, -⟩ | ⟨-, hold⟩
      · omega
      · by_cases hempty : p₀ = (0, 0)
        · have hin := h.inside j p hold
          subst hempty
          dsimp only at hend ⊢
          omega
        · exact h.ordered j i p p₀ hold hp₀ hjk hempty
    · rcases get_modify hp with ⟨rfl, -⟩ | ⟨-, hold'⟩
      · exact absurd (hfresh k q hjk hold) hne
      · exact h.ordered j k p q hold' hold hjk hne
  · intro k hk
    rcases Nat.lt_succ_iff_lt_or_eq.mp hk with hlt | rfl
    · obtain ⟨j, p, hp, hin⟩ := h.cover k hlt
      by_cases hij : i = j
      · subst hij
        rw [hp₀] at hp
        cases hp
        exact ⟨i, _, hlast, hin.1, by dsimp only; omega⟩
      · exact ⟨j, p, (List.getElem?_modify_ne _ _ hij).trans hp, hin⟩
    · exact ⟨i, _, hlast, by dsimp only; omega, by dsimp only; omega⟩

end Spans
