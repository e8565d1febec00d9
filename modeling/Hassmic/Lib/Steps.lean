import Hassmic.Lib.Bytes

/-!
# Steps that fill blocks of memory

A program of loops over arrays puts bytes into blocks of memory, one place after the other, each
worked out from what the memory holds by then.  The memory stops the program where it would read or
write outside a block, and the arithmetic of 32 bits where a result does not fit: a program that
comes to its end has done neither.

## Main definitions

* `Mem`, `Mem.byte`, `Mem.bytes`, `Mem.put` — blocks of memory, read and written inside their bounds
  only.
* `fit` — the result of an operation on integers of 32 bits.
* `Step`, `run` — bytes put at a place; one step after the other.
* `Yields` — a computation comes to a result of this kind.
* `Sized`, `Keeps` — the blocks have their sizes; and some of them what they held.
* `Same`, `Step.Reads`, `Step.Covers` — two memories alike; what a step depends on, and what it
  puts.

## Main results

* `Yields.range` — a loop, by what holds after so many turns.
* `run_keeps` — steps that stay inside the blocks and out of those to be kept come to their end.
* `mul_add_inside` — an index made of two that are inside their bounds.
* `run_same` — what two runs of steps have in common.
-/

namespace Steps

open List Function

/-! ### Results -/

/-- The computation is not stopped, and its result is one of these. -/
def Yields {α : Type*} (x : Option α) (P : α → Prop) : Prop := ∃ a, x = some a ∧ P a

section

variable {α β : Type} {P : α → Prop} {Q : β → Prop} {x : Option α}

theorem Yields.pure {a : α} (h : P a) : Yields (some a) P := ⟨a, rfl, h⟩

theorem Yields.imp {R : α → Prop} (h : Yields x P) (himp : ∀ a, P a → R a) : Yields x R := by
  obtain ⟨a, ha, hp⟩ := h
  exact ⟨a, ha, himp a hp⟩

theorem Yields.bind {f : α → Option β} (h : Yields x P) (hf : ∀ a, P a → Yields (f a) Q) :
    Yields (x >>= f) Q := by
  obtain ⟨a, rfl, hp⟩ := h
  exact hf a hp

/-- A loop, by what every turn keeps. -/
theorem Yields.foldlM {l : List β} {f : α → β → Option α}
    (hstep : ∀ b ∈ l, ∀ a, P a → Yields (f a b) P) {a : α} (ha : P a) :
    Yields (l.foldlM f a) P := by
  induction l generalizing a with
  | nil => exact Yields.pure ha
  | cons b l ih =>
    rw [foldlM_cons]
    refine (hstep b mem_cons_self a ha).bind fun c hc => ?_
    exact ih (fun d hd => hstep d (mem_cons_of_mem _ hd)) hc

/-- **A loop, by what holds after so many turns.** -/
theorem Yields.range {I : ℕ → α → Prop} {f : α → ℕ → Option α} {n : ℕ}
    (hstep : ∀ i < n, ∀ a, I i a → Yields (f a i) (I (i + 1))) {a : α} (ha : I 0 a) :
    Yields ((List.range n).foldlM f a) (I n) := by
  induction n with
  | zero => exact Yields.pure ha
  | succ n ih =>
    rw [range_succ, foldlM_append]
    refine (ih fun i hi => hstep i (by omega)).bind fun b hb => ?_
    rw [foldlM_cons]
    refine (hstep n (by omega) b hb).bind fun c hc => ?_
    exact Yields.pure hc

end

/-! ### Integers of 32 bits -/

/-- The result of an operation on integers of 32 bits, where it is one. -/
def fit (x : ℤ) : Option ℤ := if -2 ^ 31 ≤ x ∧ x < 2 ^ 31 then some x else none

theorem fit_yields {x : ℤ} (hlo : -2 ^ 31 ≤ x) (hhi : x < 2 ^ 31) : Yields (fit x) (· = x) :=
  ⟨x, if_pos ⟨hlo, hhi⟩, rfl⟩

/-- **An index made of two that are inside their bounds.** -/
theorem mul_add_inside {a m b n : ℤ} (ha : 0 ≤ a) (ham : a < m) (hb : 0 ≤ b) (hbn : b < n) :
    0 ≤ a * n + b ∧ a * n + b < m * n := by
  have hn : 0 ≤ n := (hb.trans_lt hbn).le
  refine ⟨add_nonneg (mul_nonneg ha hn) hb, ?_⟩
  calc a * n + b < a * n + n := by omega
    _ = (a + 1) * n := by ring
    _ ≤ m * n := mul_le_mul_of_nonneg_right (Int.add_one_le_iff.mpr ham) hn

/-- The same of natural numbers. -/
theorem mul_add_lt {a m b n : ℕ} (ham : a < m) (hbn : b < n) : a * n + b < m * n := by
  have h := (mul_add_inside (Int.natCast_nonneg a) (Int.ofNat_lt.mpr ham) (Int.natCast_nonneg b)
    (Int.ofNat_lt.mpr hbn)).2
  exact_mod_cast h

/-! ### Memory -/

/-- What is in each block of memory. -/
abbrev Mem := ℕ → Bytes

namespace Mem

variable (m : Mem) (b : ℕ)

/-- The byte at this place of a block. -/
def byte (i : ℤ) : Option UInt8 := if i < 0 then none else (m b)[i.toNat]?

/-- So many bytes of a block. -/
def bytes (i n : ℕ) : Option Bytes :=
  if i + n ≤ (m b).length then some (((m b).drop i).take n) else none

/-- Bytes put at a place of a block. -/
def put (i : ℕ) (v : Bytes) : Option Mem :=
  if i + v.length ≤ (m b).length then
    some (update m b ((m b).take i ++ v ++ (m b).drop (i + v.length)))
  else none

variable {m b}

theorem byte_yields {i : ℤ} (h0 : 0 ≤ i) (hi : i < (m b).length) :
    Yields (m.byte b i) fun _ => True := by
  have hlt : i.toNat < (m b).length := by omega
  refine ⟨(m b)[i.toNat], ?_, trivial⟩
  rw [byte, if_neg h0.not_gt, getElem?_eq_getElem hlt]

theorem bytes_yields {i n : ℕ} (h : i + n ≤ (m b).length) :
    Yields (m.bytes b i n) fun v => v.length = n := by
  refine ⟨_, if_pos h, ?_⟩
  show (((m b).drop i).take n).length = n
  rw [length_take, length_drop]
  omega

theorem put_yields {i : ℕ} {v : Bytes} (h : i + v.length ≤ (m b).length) :
    Yields (m.put b i v) fun m' => (∀ c, (m' c).length = (m c).length) ∧ ∀ c ≠ b, m' c = m c := by
  refine ⟨_, if_pos h, fun c => ?_, fun c hc => update_of_ne hc _ _⟩
  by_cases hc : c = b
  · subst hc
    rw [update_self, length_append, length_append, length_take, length_drop]
    omega
  · rw [update_of_ne hc]

end Mem

/-! ### Steps -/

/-- Bytes, worked out from the memory, for a place of a block. -/
structure Step where
  block : ℕ
  place : ℕ
  value : Mem → Option Bytes

/-- The bytes are put in their place. -/
def Step.run (m : Mem) (s : Step) : Option Mem := do
  let v ← s.value m
  m.put s.block s.place v

/-- One step after the other. -/
def run (m : Mem) (l : List Step) : Option Mem := l.foldlM Step.run m

/-- The blocks have these sizes. -/
def Sized (size : ℕ → ℕ) (m : Mem) : Prop := ∀ b, (m b).length = size b

/-- The blocks have these sizes, and those to be kept hold what they held. -/
structure Keeps (size : ℕ → ℕ) (kept : ℕ → Prop) (m₀ m : Mem) : Prop where
  sized : Sized size m
  same : ∀ b, kept b → m b = m₀ b

/-- A step comes to bytes that are put inside a block that is not to be kept. -/
structure Step.Inside (size : ℕ → ℕ) (kept : ℕ → Prop) (m₀ : Mem) (s : Step) : Prop where
  free : ¬ kept s.block
  value : ∀ m, Keeps size kept m₀ m → Yields (s.value m) fun v => s.place + v.length ≤ size s.block

variable {size : ℕ → ℕ} {kept : ℕ → Prop} {m₀ m : Mem}

theorem Step.Inside.run {s : Step} (h : s.Inside size kept m₀) (hm : Keeps size kept m₀ m) :
    Yields (s.run m) (Keeps size kept m₀) := by
  refine (h.value m hm).bind fun v hv => ?_
  rw [← hm.sized] at hv
  refine (Mem.put_yields hv).imp fun m' hput =>
    ⟨fun c => (hput.1 c).trans (hm.sized c), fun c hc => ?_⟩
  have hne : c ≠ s.block := fun heq => h.free (heq ▸ hc)
  exact (hput.2 c hne).trans (hm.same c hc)

/-- **Steps that stay inside the blocks, and out of those to be kept, come to their end.** -/
theorem run_keeps {l : List Step} (hl : ∀ s ∈ l, s.Inside size kept m₀)
    (hm : Keeps size kept m₀ m) :
    Yields (run m l) (Keeps size kept m₀) :=
  Yields.foldlM (fun s hs _ hm => (hl s hs).run hm) hm

/-! ### What steps leave alone -/

theorem Mem.put_frame {b i : ℕ} {v : Bytes} {m' : Mem} (h : m.put b i v = some m') :
    (∀ c, (m' c).length = (m c).length) ∧ ∀ c ≠ b, m' c = m c := by
  by_cases hle : i + v.length ≤ (m b).length
  · obtain ⟨m'', hput, hframe⟩ := Mem.put_yields hle
    obtain rfl := Option.some.inj (h.symm.trans hput)
    exact hframe
  · rw [Mem.put, if_neg hle] at h
    cases h

/-! ### Two runs side by side -/

/-- Two memories of blocks of these sizes that hold the same at these places. -/
structure Same (size : ℕ → ℕ) (A : ℕ → ℕ → Prop) (m m' : Mem) : Prop where
  sized : Sized size m
  sized' : Sized size m'
  byte : ∀ b i, A b i → (m b)[i]? = (m' b)[i]?

variable {A B : ℕ → ℕ → Prop} {m' : Mem}

theorem Same.length (h : Same size A m m') (b : ℕ) : (m b).length = (m' b).length :=
  (h.sized b).trans (h.sized' b).symm

theorem Same.mono (h : Same size A m m') (hB : ∀ b i, i < size b → B b i → A b i) :
    Same size B m m' := by
  refine ⟨h.sized, h.sized', fun b i hb => ?_⟩
  by_cases hi : i < size b
  · exact h.byte b i (hB b i hi hb)
  · rw [getElem?_eq_none (by rw [h.sized]; omega), getElem?_eq_none (by rw [h.sized']; omega)]

/-- A block that is the same at all its places. -/
theorem Same.block (h : Same size A m m') {b : ℕ} (hb : ∀ i < size b, A b i) : m b = m' b := by
  refine ext_getElem (h.length b) fun i hi hi' => ?_
  have hbyte := h.byte b i (hb i (h.sized b ▸ hi))
  rwa [getElem?_eq_getElem hi, getElem?_eq_getElem hi', Option.some_inj] at hbyte

theorem rel_imp {α β : Type} {R S : α → β → Prop} {x : Option α} {y : Option β}
    (h : Option.Rel R x y) (himp : ∀ a b, R a b → S a b) : Option.Rel S x y := by
  cases h with
  | some hab => exact Option.Rel.some (himp _ _ hab)
  | none => exact Option.Rel.none

theorem rel_bind {α β γ δ : Type} {R : α → β → Prop} {S : γ → δ → Prop}
    {x : Option α} {y : Option β} {f : α → Option γ} {g : β → Option δ} (h : Option.Rel R x y)
    (hf : ∀ a b, R a b → Option.Rel S (f a) (g b)) : Option.Rel S (x >>= f) (y >>= g) := by
  cases h with
  | some hab => exact hf _ _ hab
  | none => exact Option.Rel.none

theorem getElem?_put {l v : Bytes} {i j : ℕ} (h : i + v.length ≤ l.length) :
    (l.take i ++ v ++ l.drop (i + v.length))[j]? =
      if j < i then l[j]? else if j < i + v.length then v[j - i]? else l[j]? := by
  have hi : (l.take i).length = i := length_take_of_le (by omega)
  split
  · next hj =>
    rw [append_assoc, getElem?_append_left (by omega), getElem?_take_of_lt hj]
  · next hj =>
    split
    · next hj' =>
      rw [getElem?_append_left (by rw [length_append]; omega), getElem?_append_right (by omega), hi]
    · next hj' =>
      rw [getElem?_append_right (by rw [length_append]; omega), length_append, hi,
        getElem?_drop]
      congr 1
      omega

/-- Whatever the step comes to, it is put over this place. -/
def Step.Covers (s : Step) (b i : ℕ) : Prop :=
  s.block = b ∧ ∀ m v, s.value m = some v → s.place ≤ i ∧ i < s.place + v.length

/-- The step comes to the same in memories that hold the same at these places. -/
def Step.Reads (size : ℕ → ℕ) (A : ℕ → ℕ → Prop) (s : Step) : Prop :=
  ∀ m m', Same size A m m' → s.value m = s.value m'

theorem Step.run_same {s : Step} (hs : s.Reads size A) (h : Same size A m m') :
    Option.Rel (Same size fun b i => A b i ∨ s.Covers b i) (s.run m) (s.run m') := by
  unfold Step.run
  rw [← hs m m' h]
  cases hv : s.value m with
  | none => exact Option.Rel.none
  | some v =>
    show Option.Rel _ (m.put s.block s.place v) (m'.put s.block s.place v)
    have hlen := h.length s.block
    unfold Mem.put
    by_cases hle : s.place + v.length ≤ (m s.block).length
    · rw [if_pos hle, if_pos (hlen ▸ hle)]
      have hput := Mem.put_frame (m := m) (b := s.block) (if_pos hle)
      have hput' := Mem.put_frame (m := m') (b := s.block) (if_pos (hlen ▸ hle))
      refine Option.Rel.some ⟨fun b => (hput.1 b).trans (h.sized b), fun b =>
        (hput'.1 b).trans (h.sized' b), fun b i hb => ?_⟩
      · by_cases hblock : b = s.block
        · subst hblock
          rw [update_self, update_self, getElem?_put hle, getElem?_put (hlen ▸ hle)]
          have hkeep : ¬ (s.place ≤ i ∧ i < s.place + v.length) →
              (m s.block)[i]? = (m' s.block)[i]? :=
            fun hout => hb.elim (h.byte _ i) fun hcov => absurd (hcov.2 m v hv) hout
          split
          · exact hkeep (by omega)
          · split
            · rfl
            · exact hkeep (by omega)
        · rw [update_of_ne hblock, update_of_ne hblock]
          exact hb.elim (h.byte b i) fun hcov => absurd hcov.1.symm hblock
    · rw [if_neg hle, if_neg (hlen ▸ hle)]
      exact Option.Rel.none

/-- **Two runs of steps that read what is the same** stop both, or end with the same in all that
they read and all that they put. -/
theorem run_same {l : List Step} (hl : ∀ s ∈ l, s.Reads size A) (h : Same size A m m') :
    Option.Rel (Same size fun b i => A b i ∨ ∃ s ∈ l, s.Covers b i) (run m l) (run m' l) := by
  induction l generalizing m m' A with
  | nil =>
    refine Option.Rel.some (h.mono fun b i _ hb => ?_)
    simpa using hb
  | cons s l ih =>
    unfold run
    rw [foldlM_cons, foldlM_cons]
    refine rel_bind (Step.run_same (hl s mem_cons_self) h) fun m₁ m₁' h₁ => ?_
    have hreads : ∀ t ∈ l, t.Reads size fun b i => A b i ∨ s.Covers b i := fun t ht n n' hn =>
      hl t (mem_cons_of_mem _ ht) n n' (hn.mono fun b i _ hb => .inl hb)
    refine rel_imp (ih hreads h₁) fun n n' hn => hn.mono fun b i _ hb => ?_
    rcases hb with hb | ⟨t, ht, hcov⟩
    · exact .inl (.inl hb)
    · rcases mem_cons.mp ht with rfl | ht
      · exact .inl (.inr hcov)
      · exact .inr ⟨t, ht, hcov⟩

end Steps
