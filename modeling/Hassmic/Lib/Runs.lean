import Mathlib

/-!
# Runs

A run of a step function `f` from a state is the fold of `f` over what happens.
These are the rules by which a property of single steps becomes one of runs: an
invariant, a relation between the first and the last state, and an account in which
the cost of a step is paid from a potential.

## Main definitions

* `Runs.Each` — every step of a run is taken as asked for.
* `Runs.total` — the sum of a cost over a run.

## Main results

* `Runs.invariant`, `Runs.related` — from steps to runs.
* `Runs.made` — what holds at the end of a run and not at its start was made by a step.
* `Runs.each_iff` — every step of a run, by what came before it.
* `Runs.total_add_le` — the cost of a run is paid from its potential.
* `Runs.settles` — what each step settles for good is settled at the end.
-/

namespace Runs

open List

variable {σ α : Type*} {f : σ → α → σ}

/-- Every step of a run is taken in a state in which `P` allows it. -/
def Each (f : σ → α → σ) (P : σ → α → Prop) : σ → List α → Prop
  | _, [] => True
  | s, a :: l => P s a ∧ Each f P (f s a) l

instance Each.decidable {P : σ → α → Prop} [∀ s a, Decidable (P s a)] :
    ∀ (s : σ) (l : List α), Decidable (Each f P s l)
  | _, [] => .isTrue trivial
  | s, a :: l => @instDecidableAnd _ _ _ (Each.decidable (f s a) l)

/-- The sum over a run of what its steps cost. -/
def total (f : σ → α → σ) (cost : σ → α → ℕ) : σ → List α → ℕ
  | _, [] => 0
  | s, a :: l => cost s a + total f cost (f s a) l

variable {P : σ → α → Prop}

theorem each_append (s : σ) (l m : List α) :
    Each f P s (l ++ m) ↔ Each f P s l ∧ Each f P (l.foldl f s) m := by
  induction l generalizing s with
  | nil => simp [Each]
  | cons a l ih => rw [cons_append, Each, Each, ih, and_assoc, foldl_cons]

/-- Every step of a run, by what came before it. -/
theorem each_iff {s : σ} {l : List α} :
    Each f P s l ↔ ∀ l₁ a l₂, l = l₁ ++ a :: l₂ → P (l₁.foldl f s) a := by
  induction l generalizing s with
  | nil => simp [Each]
  | cons b l ih =>
    rw [Each, ih]
    constructor
    · rintro ⟨hb, hl⟩ l₁ a l₂ heq
      cases l₁ with
      | nil =>
        obtain ⟨rfl, -⟩ := List.cons.inj heq
        exact hb
      | cons c l₁ =>
        obtain ⟨rfl, hrest⟩ := List.cons.inj heq
        exact hl l₁ a l₂ hrest
    · intro h
      exact ⟨h [] b l rfl, fun l₁ a l₂ heq => h (b :: l₁) a l₂ (by rw [heq, cons_append])⟩

/-- What holds at the end of a run and not at its start was made by one of its steps. -/
theorem made {Q : σ → Prop} {s : σ} (hs : ¬ Q s) {l : List α} (hl : Q (l.foldl f s)) :
    ∃ l₁ a l₂, l = l₁ ++ a :: l₂ ∧ ¬ Q (l₁.foldl f s) ∧ Q (f (l₁.foldl f s) a) := by
  induction l generalizing s with
  | nil => exact absurd hl hs
  | cons a l ih =>
    by_cases ha : Q (f s a)
    · exact ⟨[], a, l, rfl, hs, ha⟩
    · obtain ⟨l₁, b, l₂, rfl, hnot, hmade⟩ := ih ha hl
      exact ⟨a :: l₁, b, l₂, rfl, hnot, hmade⟩

/-- What every step keeps holds at the end of every run. -/
theorem invariant {I : σ → Prop} (hstep : ∀ s a, I s → P s a → I (f s a)) {s : σ} (hs : I s)
    {l : List α} (hl : Each f P s l) : I (l.foldl f s) := by
  induction l generalizing s with
  | nil => exact hs
  | cons a l ih => exact ih (hstep s a hs hl.1) hl.2

/-- What every step keeps, whatever happens. -/
theorem invariant_all {I : σ → Prop} (hstep : ∀ s a, I s → I (f s a)) {s : σ} (hs : I s)
    (l : List α) : I (l.foldl f s) := by
  induction l generalizing s with
  | nil => exact hs
  | cons a l ih => exact ih (hstep s a hs)

/-- What every step relates to the state before it, a run relates to its first state. -/
theorem related {I : σ → Prop} {R : σ → σ → Prop} (hrefl : ∀ s, R s s)
    (htrans : ∀ {s t u}, R s t → R t u → R s u)
    (hstep : ∀ s a, I s → P s a → I (f s a) ∧ R s (f s a)) {s : σ} (hs : I s) {l : List α}
    (hl : Each f P s l) : R s (l.foldl f s) := by
  induction l generalizing s with
  | nil => exact hrefl s
  | cons a l ih =>
    obtain ⟨hinv, hrel⟩ := hstep s a hs hl.1
    exact htrans hrel (ih hinv hl.2)

/-- **A run is paid from its potential**: if each step costs no more than the potential it
takes away and what it gains, so does a run. -/
theorem total_add_le {I : σ → Prop} {cost gain : σ → α → ℕ} (pot : σ → ℕ)
    (hinv : ∀ s a, I s → P s a → I (f s a))
    (hstep : ∀ s a, I s → P s a → cost s a + pot (f s a) ≤ pot s + gain s a) {s : σ} (hs : I s)
    {l : List α} (hl : Each f P s l) :
    total f cost s l + pot (l.foldl f s) ≤ pot s + total f gain s l := by
  induction l generalizing s with
  | nil => simp [total]
  | cons a l ih =>
    have hfirst := hstep s a hs hl.1
    have hrest := ih (hinv s a hs hl.1) hl.2
    rw [total, total, foldl_cons]
    omega

/-- **What each step settles for good is settled at the end.**  A step settles `Q` where `A`
holds; no step before takes `A` away, and none after it unsettles `Q`. -/
theorem settles {A Q : α → σ → Prop} {l : List α} (hset : ∀ a ∈ l, ∀ s, A a s → Q a (f s a)) :
    (l.Pairwise fun a b => (∀ s, A b s → A b (f s a)) ∧ ∀ s, Q a s → Q a (f s b)) →
      ∀ {s : σ}, (∀ a ∈ l, A a s) → ∀ a ∈ l, Q a (l.foldl f s) := by
  induction l with
  | nil => intro _ s _ a ha; cases ha
  | cons b l ih =>
    intro hpair s hs a ha
    obtain ⟨hb, hpair⟩ := pairwise_cons.mp hpair
    rw [foldl_cons]
    rcases mem_cons.mp ha with rfl | ha
    · have hkeep : ∀ (m : List α), (∀ c ∈ m, ∀ s, Q a s → Q a (f s c)) → ∀ s, Q a s →
          Q a (m.foldl f s) := by
        intro m
        induction m with
        | nil => intro _ s hq; exact hq
        | cons c m ihm =>
          intro hm s hq
          exact ihm (fun x hx => hm x (mem_cons_of_mem _ hx)) _ (hm c mem_cons_self s hq)
      exact hkeep l (fun c hc => (hb c hc).2) _ (hset a mem_cons_self s (hs a mem_cons_self))
    · refine ih (fun c hc => hset c (mem_cons_of_mem _ hc)) hpair (fun c hc => ?_) a ha
      exact (hb c hc).1 s (hs c (mem_cons_of_mem _ hc))

end Runs
