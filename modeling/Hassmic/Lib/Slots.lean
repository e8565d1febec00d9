import Mathlib

/-!
# Tables of a fixed number of slots

A table of `n` slots is a function on `Fin n`.  Looking a key up gives the first
slot that holds it, and, where none does, the slot to reuse: the first of those
whose entry is the oldest.  A slot never used has age `0`, so it is reused before
any other.

## Main definitions

* `Slots.eldest` — the first slot of least age.
* `Slots.pick` — the slot of a key, or the one to reuse for it.

## Main results

* `Slots.pick_spec` — what the slot found is.
* `Slots.exists_free` — with fewer keys in use than slots, one slot is free.
* `Slots.sum_update` — what a table sums up to when one slot changes.
-/

namespace Slots

open List Function

variable {n : ℕ}

/-! The tables in use have a first slot. -/

scoped instance (priority := 2000) neZero_two : NeZero 2 := ⟨by decide⟩

scoped instance (priority := 2000) neZero_three : NeZero 3 := ⟨by decide⟩

scoped instance (priority := 2000) neZero_sixteen : NeZero 16 := ⟨by decide⟩

scoped instance (priority := 2000) neZero_sixtyFour : NeZero 64 := ⟨by decide⟩

/-- The first slot of least age. -/
def eldest [NeZero n] (age : Fin n → ℤ) : Fin n :=
  (List.finRange n).foldl (fun o i => if age i < age o then i else o) 0

/-- The first slot that is a hit, else the first of least age. -/
def pick [NeZero n] (hit : Fin n → Bool) (age : Fin n → ℤ) : Fin n :=
  ((List.finRange n).find? hit).getD (eldest age)

theorem foldl_le (age : Fin n → ℤ) (l : List (Fin n)) (o : Fin n) :
    age (l.foldl (fun o i => if age i < age o then i else o) o) ≤ age o ∧
    ∀ i ∈ l, age (l.foldl (fun o i => if age i < age o then i else o) o) ≤ age i := by
  induction l generalizing o with
  | nil => simp
  | cons j l ih =>
    obtain ⟨hhead, htail⟩ := ih (if age j < age o then j else o)
    rw [foldl_cons]
    have hle : age (if age j < age o then j else o) ≤ age o ∧
        age (if age j < age o then j else o) ≤ age j := by
      split <;> omega
    refine ⟨hhead.trans hle.1, fun i hi => ?_⟩
    rcases mem_cons.mp hi with rfl | hi
    · exact hhead.trans hle.2
    · exact htail i hi

theorem eldest_le [NeZero n] (age : Fin n → ℤ) (i : Fin n) : age (eldest age) ≤ age i :=
  (foldl_le age (List.finRange n) 0).2 i (mem_finRange i)

/-- The slot found is a hit where there is one, and else an oldest one. -/
theorem pick_spec [NeZero n] (hit : Fin n → Bool) (age : Fin n → ℤ) :
    hit (pick hit age) = true ∨
    (∀ i, hit i = false) ∧ ∀ i, age (pick hit age) ≤ age i := by
  unfold pick
  cases h : (List.finRange n).find? hit with
  | some i => exact .inl (find?_some h)
  | none =>
    refine .inr ⟨fun i => ?_, eldest_le age⟩
    have := find?_eq_none.mp h i (mem_finRange i)
    simpa using this

theorem pick_eq_of_unique [NeZero n] {hit : Fin n → Bool} {age : Fin n → ℤ} {i : Fin n}
    (hi : hit i = true) (huniq : ∀ j, hit j = true → j = i) : pick hit age = i := by
  rcases pick_spec hit age with h | ⟨h, -⟩
  · exact huniq _ h
  · exact absurd hi (by simp [h i])

/-- The first hit does not change with the ages. -/
theorem pick_of_hit [NeZero n] {hit : Fin n → Bool} {age : Fin n → ℤ}
    (h : hit (pick hit age) = true) (age' : Fin n → ℤ) : pick hit age' = pick hit age := by
  have hsome : ∃ i, (finRange n).find? hit = some i := by
    cases hfind : (finRange n).find? hit with
    | some i => exact ⟨i, rfl⟩
    | none => exact absurd h (by simpa using find?_eq_none.mp hfind _ (mem_finRange _))
  obtain ⟨i, hi⟩ := hsome
  unfold pick
  rw [hi, Option.getD_some, Option.getD_some]

/-- Keys of which there are fewer than slots cannot fill a table in which no two
slots hold the same key. -/
theorem exists_free {κ : Type*} [DecidableEq κ] {used : Fin n → Prop} (key : Fin n → κ)
    (I : Finset κ) (hkey : ∀ i, used i → key i ∈ I) (hcard : I.card < n)
    (hinj : ∀ i j, used i → used j → key i = key j → i = j) : ∃ i, ¬ used i := by
  by_contra hall
  push Not at hall
  have hle : (Finset.univ : Finset (Fin n)).card ≤ I.card := by
    apply Finset.card_le_card_of_injOn key
    · intro i _
      exact hkey i (hall i)
    · intro i _ j _ heq
      exact hinj i j (hall i) (hall j) heq
  rw [Finset.card_univ, Fintype.card_fin] at hle
  omega

/-- What a table sums up to when one slot changes. -/
theorem sum_update {ι α M : Type*} [Fintype ι] [DecidableEq ι] [AddCommMonoid M] (f : ι → α)
    (g : α → M) (i : ι) (a : α) :
    (∑ j, g (update f i a j)) + g (f i) = (∑ j, g (f j)) + g a := by
  rw [← Finset.add_sum_erase _ _ (Finset.mem_univ i),
    ← Finset.add_sum_erase Finset.univ (fun j => g (f j)) (Finset.mem_univ i), update_self]
  have hrest : ∑ j ∈ Finset.univ.erase i, g (update f i a j)
      = ∑ j ∈ Finset.univ.erase i, g (f j) :=
    Finset.sum_congr rfl fun j hj => by rw [update_of_ne (Finset.ne_of_mem_erase hj)]
  rw [hrest]
  abel

end Slots
