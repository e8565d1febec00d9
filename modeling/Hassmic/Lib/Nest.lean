import Mathlib

/-!
# Trees laid out in an array

A forest can be stored without pointers to children: its nodes stand in document
order, each followed by all that is below it, and each knows the position `next`
where what is below it ends.  A stretch `[a, b)` of positions holds whole trees
when the intervals `[i, next i)` nest inside it; the roots of these trees are
then found by following `next` from `a`.

## Main definitions

* `Nested next a b` — the positions of `[a, b)` hold whole trees.
* `roots next k a b` — the positions visited from `a` on by following `next`.

## Main results

* `Nested.append`, `Nested.wrap` — how such stretches are put together.
* `roots_spec` — the walk ends, and visits each root once.
-/

namespace Nest

/-- The positions of `[a, b)` hold whole trees. -/
structure Nested (next : ℕ → ℕ) (a b : ℕ) : Prop where
  lt : ∀ i, a ≤ i → i < b → i < next i
  le : ∀ i, a ≤ i → i < b → next i ≤ b
  nest : ∀ i j, a ≤ i → i < b → i < j → j < next i → next j ≤ next i

variable {next next' : ℕ → ℕ} {a b c : ℕ}

theorem Nested.nil : Nested next a a :=
  ⟨fun i _ _ => by omega, fun i _ _ => by omega, fun i j _ _ _ _ => by omega⟩

/-- Only the positions of the stretch matter. -/
theorem Nested.congr (h : Nested next a b) (heq : ∀ i, a ≤ i → i < b → next i = next' i) :
    Nested next' a b := by
  refine ⟨fun i hi hb => ?_, fun i hi hb => ?_, fun i j hi hb hij hj => ?_⟩
  · rw [← heq i hi hb]; exact h.lt i hi hb
  · rw [← heq i hi hb]; exact h.le i hi hb
  · rw [← heq i hi hb] at hj ⊢
    have := h.le i hi hb
    rw [← heq j (by omega) (by omega)]
    exact h.nest i j hi hb hij hj

theorem Nested.append (h₁ : Nested next a b) (h₂ : Nested next b c) (hbc : b ≤ c) :
    Nested next a c := by
  refine ⟨fun i hi hc => ?_, fun i hi hc => ?_, fun i j hi hc hij hj => ?_⟩
  · rcases Nat.lt_or_ge i b with h | h
    · exact h₁.lt i hi h
    · exact h₂.lt i h hc
  · rcases Nat.lt_or_ge i b with h | h
    · exact (h₁.le i hi h).trans hbc
    · exact h₂.le i h hc
  · rcases Nat.lt_or_ge i b with h | h
    · exact h₁.nest i j hi h hij hj
    · exact h₂.nest i j h hc hij hj

/-- A node above whole trees makes one tree of them. -/
theorem Nested.wrap (h : Nested next (a + 1) b) (ha : next a = b) (hab : a < b) :
    Nested next a b := by
  have hcase : ∀ i, a ≤ i → i = a ∨ a + 1 ≤ i := fun i hi => by omega
  refine ⟨fun i hi hb => ?_, fun i hi hb => ?_, fun i j hi hb hij hj => ?_⟩
  · rcases hcase i hi with rfl | h'
    · rw [ha]; exact hab
    · exact h.lt i h' hb
  · rcases hcase i hi with rfl | h'
    · rw [ha]
    · exact h.le i h' hb
  · rcases hcase i hi with rfl | h'
    · rw [ha] at hj ⊢
      exact h.le j (by omega) hj
    · exact h.nest i j h' hb hij hj

/-- A root of `[a, b)`: no node before it reaches beyond it. -/
def IsRoot (next : ℕ → ℕ) (a b i : ℕ) : Prop :=
  a ≤ i ∧ i < b ∧ ∀ m, a ≤ m → m < i → next m ≤ i

/-- The positions visited from `a` on by following `next` while below `b`; none if
`k` turns do not reach `b`. -/
def roots (next : ℕ → ℕ) : ℕ → ℕ → ℕ → Option (List ℕ)
  | 0, _, _ => none
  | k + 1, a, b => if a < b then (roots next k (next a) b).map (a :: ·) else some []

/-- The roots behind the first one. -/
theorem isRoot_next (h : Nested next a b) (hab : a < b) {i : ℕ} :
    IsRoot next a b i ↔ i = a ∨ IsRoot next (next a) b i := by
  have hlt := h.lt a le_rfl hab
  constructor
  · rintro ⟨hi, hb, hroot⟩
    rcases Nat.eq_or_lt_of_le hi with rfl | hai
    · exact Or.inl rfl
    · exact Or.inr ⟨hroot a le_rfl hai, hb, fun m hm => hroot m (by omega)⟩
  · rintro (rfl | ⟨hi, hb, hroot⟩)
    · exact ⟨le_rfl, hab, fun m hm hmi => by omega⟩
    · refine ⟨by omega, hb, fun m hm hmi => ?_⟩
      rcases Nat.lt_or_ge m (next a) with h' | h'
      · -- below the first root, so not beyond its end
        rcases Nat.eq_or_lt_of_le hm with rfl | ham
        · exact hi
        · exact (h.nest a m le_rfl hab ham h').trans hi
      · exact hroot m h' hmi

theorem Nested.drop_first (h : Nested next a b) (hab : a < b) : Nested next (next a) b := by
  have hlt := h.lt a le_rfl hab
  exact ⟨fun i hi => h.lt i (by omega), fun i hi => h.le i (by omega),
    fun i j hi => h.nest i j (by omega)⟩

/-- **The walk ends and visits each root once**, in order. -/
theorem roots_spec : ∀ (k a : ℕ), Nested next a b → b - a < k →
    ∃ L, roots next k a b = some L ∧ L.Pairwise (· < ·) ∧ ∀ i, i ∈ L ↔ IsRoot next a b i := by
  intro k
  induction k with
  | zero => intro a _ h; omega
  | succ k ih =>
    intro a h hk
    unfold roots
    by_cases hab : a < b
    · have hlt := h.lt a le_rfl hab
      obtain ⟨L, hL, hsort, hmem⟩ := ih (next a) (h.drop_first hab) (by omega)
      refine ⟨a :: L, by rw [if_pos hab, hL]; rfl, ?_, fun i => ?_⟩
      · rw [List.pairwise_cons]
        refine ⟨fun i hi => ?_, hsort⟩
        have := ((hmem i).mp hi).1
        omega
      · rw [List.mem_cons, hmem, isRoot_next h hab]
    · refine ⟨[], by rw [if_neg hab], List.Pairwise.nil, fun i => ?_⟩
      simp only [List.not_mem_nil, false_iff]
      rintro ⟨h₁, h₂, -⟩
      omega

end Nest
