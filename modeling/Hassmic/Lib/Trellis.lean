import Mathlib

/-!
# Best routes through a trellis

A trellis has one copy of a graph's nodes for each of a row of frames.  A route enters it in the
first frame, follows an arc into the next one each time, and counts the weight of its entry, of its
arcs and of the nodes it is in.  A table that says for each frame and node how much the best route
ending there counts, and which node it came from, is filled frame by frame; that it has the best of
all routes is an induction over the frames, and the one route it gives is found by going back.
Weights may be minus infinity, so that a route may be there without counting.

## Main definitions

* `pick` — the loop that keeps the first of the largest.
* `Arc`, `Route` — the arcs, and the routes with what they count.
* `Table`, `trace` — a table filled frame by frame, and the way back through it.

## Main results

* `le_pick`, `pick_mem`, `pick_eq_none` — what the loop finds.
* `Table.le` — no route counts more than the table says.
* `Table.trace_route` — going back from a node that counts gives a route that counts as much.
-/

namespace Trellis

variable {σ α : Type*}

/-! ### The largest of a list -/

section

variable [LinearOrder α]

/-- One turn of the loop: only what is larger replaces what it has. -/
def keep (b : Option σ × WithBot α) (c : σ × WithBot α) : Option σ × WithBot α :=
  if b.2 < c.2 then (some c.1, c.2) else b

/-- The first of the largest; none where all are minus infinity. -/
def pick (l : List (σ × WithBot α)) : Option σ × WithBot α := l.foldl keep (none, ⊥)

theorem le_keep (b : Option σ × WithBot α) (c : σ × WithBot α) :
    b.2 ≤ (keep b c).2 ∧ c.2 ≤ (keep b c).2 := by
  unfold keep
  split
  case isTrue h => exact ⟨h.le, le_refl _⟩
  case isFalse h => exact ⟨le_refl _, not_lt.mp h⟩

theorem le_foldl_keep : ∀ (l : List (σ × WithBot α)) (b : Option σ × WithBot α),
    b.2 ≤ (l.foldl keep b).2 ∧ ∀ c ∈ l, c.2 ≤ (l.foldl keep b).2
  | [], _ => ⟨le_refl _, fun _ hc => nomatch hc⟩
  | d :: l, b => by
    obtain ⟨hb, hd⟩ := le_keep b d
    obtain ⟨hfirst, hrest⟩ := le_foldl_keep l (keep b d)
    refine ⟨hb.trans hfirst, fun c hc => ?_⟩
    cases hc with
    | head => exact hd.trans hfirst
    | tail _ hc => exact hrest c hc

/-- Nothing of the list is larger. -/
theorem le_pick {l : List (σ × WithBot α)} {c : σ × WithBot α} (hc : c ∈ l) : c.2 ≤ (pick l).2 :=
  (le_foldl_keep l (none, ⊥)).2 c hc

/-- What the loop has is one of those it saw, and counts; or it has none. -/
def Kept (l : List (σ × WithBot α)) (b : Option σ × WithBot α) : Prop :=
  (b.1 = none ∧ b.2 = ⊥) ∨ ∃ c ∈ l, b = (some c.1, c.2) ∧ c.2 ≠ ⊥

theorem kept_foldl (l : List (σ × WithBot α)) : ∀ (m : List (σ × WithBot α))
    (b : Option σ × WithBot α), (∀ c ∈ m, c ∈ l) → Kept l b → Kept l (m.foldl keep b)
  | [], _, _, hb => hb
  | d :: m, b, hm, hb => by
    refine kept_foldl l m (keep b d) (fun c hc => hm c (.tail _ hc)) ?_
    unfold keep
    split
    case isTrue h => exact .inr ⟨d, hm d (.head _), rfl, (bot_le.trans_lt h).ne'⟩
    case isFalse => exact hb

theorem kept_pick (l : List (σ × WithBot α)) : Kept l (pick l) :=
  kept_foldl l l _ (fun _ hc => hc) (.inl ⟨rfl, rfl⟩)

/-- What it finds is in the list, and counts. -/
theorem pick_mem {l : List (σ × WithBot α)} {s : σ} (h : (pick l).1 = some s) :
    (s, (pick l).2) ∈ l ∧ (pick l).2 ≠ ⊥ := by
  rcases kept_pick l with ⟨hnone, -⟩ | ⟨c, hc, heq, hne⟩
  · exact nomatch h.symm.trans hnone
  · rw [heq] at h ⊢
    obtain rfl : c.1 = s := Option.some.inj h
    exact ⟨hc, hne⟩

/-- It finds nothing exactly if nothing counts. -/
theorem pick_eq_none {l : List (σ × WithBot α)} : (pick l).1 = none ↔ (pick l).2 = ⊥ := by
  rcases kept_pick l with ⟨hnone, hbot⟩ | ⟨c, -, heq, hne⟩
  · exact ⟨fun _ => hbot, fun _ => hnone⟩
  · rw [heq]
    exact ⟨fun h => (nomatch h), fun h => absurd h hne⟩

end

/-! ### Routes -/

/-- An arc of the graph. -/
structure Arc (σ α : Type*) where
  src : σ
  dst : σ
  weight : WithBot α

section

variable [AddCommMonoid α] {entries : List (σ × WithBot α)} {arcs : List (Arc σ α)}
  {node : ℕ → σ → WithBot α}

/-- The routes of `t + 1` frames, the last node first, with what they count: the entry, each arc and
each node. -/
inductive Route (entries : List (σ × WithBot α)) (arcs : List (Arc σ α))
    (node : ℕ → σ → WithBot α) :
    ℕ → List σ → WithBot α → Prop
  | enter {s x} : (s, x) ∈ entries → Route entries arcs node 0 [s] (x + node 0 s)
  | step {t a p v} : Route entries arcs node t (a.src :: p) v → a ∈ arcs →
      Route entries arcs node (t + 1) (a.dst :: a.src :: p) (v + a.weight + node (t + 1) a.dst)

theorem Route.length {t : ℕ} {p : List σ} {v : WithBot α} (h : Route entries arcs node t p v) :
    p.length = t + 1 := by
  induction h with
  | enter => rfl
  | step _ _ ih => rw [List.length_cons, ih]

variable [LinearOrder α] {value : ℕ → σ → WithBot α} {back : ℕ → σ → Option σ} {T : ℕ}

/-- A table of what the best routes count and where they came from, filled frame by frame. -/
structure Table (entries : List (σ × WithBot α)) (arcs : List (Arc σ α)) (node : ℕ → σ → WithBot α)
    (value : ℕ → σ → WithBot α) (back : ℕ → σ → Option σ) (T : ℕ) : Prop where
  enter_le {s x} : (s, x) ∈ entries → x + node 0 s ≤ value 0 s
  entered {s} : value 0 s ≠ ⊥ → ∃ x, (s, x) ∈ entries ∧ value 0 s = x + node 0 s
  step_le {t a} : t + 1 < T → a ∈ arcs →
    value t a.src + a.weight + node (t + 1) a.dst ≤ value (t + 1) a.dst
  stepped {t d} : t + 1 < T → value (t + 1) d ≠ ⊥ →
    ∃ a ∈ arcs, a.dst = d ∧ back (t + 1) d = some a.src ∧
    value (t + 1) d = value t a.src + a.weight + node (t + 1) d

/-- Going back through the table, the last node first. -/
def trace (back : ℕ → σ → Option σ) : ℕ → σ → Option (List σ)
  | 0, s => some [s]
  | t + 1, s => (back (t + 1) s).bind fun r => (trace back t r).map (s :: ·)

/-- **No route counts more than the table says.** -/
theorem Table.le [IsOrderedAddMonoid α] (hT : Table entries arcs node value back T) {t : ℕ}
    {p : List σ} {v : WithBot α} (h : Route entries arcs node t p v) (ht : t < T) :
    ∀ s ∈ p.head?, v ≤ value t s := by
  induction h with
  | enter he =>
    intro s hs
    cases hs
    exact hT.enter_le he
  | @step t a p v _ ha ih =>
    intro s hs
    cases hs
    have hv : v ≤ value t a.src := ih (by omega) a.src rfl
    calc v + a.weight + node (t + 1) a.dst
        ≤ value t a.src + a.weight + node (t + 1) a.dst := by gcongr
      _ ≤ value (t + 1) a.dst := hT.step_le ht ha

/-- **Going back gives a route** that counts what the table says. -/
theorem Table.trace_route (hT : Table entries arcs node value back T) : ∀ {t : ℕ}
    {s : σ}, t < T → value t s ≠ ⊥ →
    ∃ p, trace back t s = some (s :: p) ∧ Route entries arcs node t (s :: p) (value t s)
  | 0, s, _, hs => by
    obtain ⟨x, hx, heq⟩ := hT.entered hs
    refine ⟨[], rfl, ?_⟩
    rw [heq]
    exact .enter hx
  | t + 1, s, ht, hs => by
    obtain ⟨a, ha, rfl, hback, heq⟩ := hT.stepped ht hs
    have hsrc : value t a.src ≠ ⊥ := by
      intro hbot
      rw [hbot, WithBot.bot_add, WithBot.bot_add] at heq
      exact hs heq
    obtain ⟨p, htrace, hroute⟩ := Table.trace_route hT (by omega) hsrc
    refine ⟨a.src :: p, ?_, ?_⟩
    · rw [trace, hback, Option.bind_some, htrace, Option.map_some]
    · rw [heq]
      exact .step hroute ha

end

end Trellis
