import Hassmic.Lib.Bytes
import Hassmic.Lib.Trellis

/-!
# A wake word's states

What a word's file says of its states: the model of each, the arcs that leave it, where a path may
enter, what ending in a state weighs, and which are the word's last.  The Viterbi needs the arcs by
the state they lead to, which are sorted once when the file is read: counted, the counts summed, and
each arc put into the next free place of its destination's.

Weights are exact numbers or minus infinity, whatever numbers the four bytes stand for; what comes
before the states (the features' settings, the shared file) is given as its results.

## Main definitions

* `Head`, `Wakealign` — what was read before, and the whole.
* `loadStates`, `byDestination`, `load` — reading the states, and sorting their arcs.
* `Sound` — what the reader checks.
* `Wakealign.arcs`, `Wakealign.predecessors` — the arcs by source and by destination.
* `Filled` — what the last loop of the sorting keeps.

## Main results

* `load_spec` — what a file that is taken says, and that each state's arcs by destination are those
  that lead to it.
* `predecessors_perm` — **the arcs by destination are the arcs by source**, each once.
-/

namespace Hassmic.Align

open Trellis List Function Option

/-- A weight of the file. -/
abbrev Weight := WithBot ℚ

/-- What the settings and the acoustic model gave. -/
structure Head where
  npdf : ℕ
  fshift : ℕ
  lctx : ℕ
  rctx : ℕ
  /-- `wakealign_load` refuses others. -/
  fshift_pos : 0 < fshift

/-- `struct wakealign`, the graph of it. -/
structure Wakealign extends Head where
  nstates : ℕ
  pdf : List ℕ
  aoff : List ℕ
  adest : List ℕ
  aw : List Weight
  poff : ℕ → ℕ
  psrc : ℕ → ℕ
  pw : ℕ → Weight
  estate : List ℕ
  ew : List Weight
  final : List Weight
  last : List ℕ
  ascale : ℚ
  sil : List Bool

/-! ### The file -/

/-- `ru`: an `int`. -/
def ru : Bytes → Option (ℤ × Bytes)
  | a :: b :: c :: d :: f =>
    some ((BitVec.ofNat 32 (a.toNat + 256 * b.toNat + 65536 * c.toNat + 16777216 * d.toNat)).toInt,
      f)
  | _ => none

/-- `rd` of the four bytes of a `float`. -/
def rd (f : Bytes) : Option (Bytes × Bytes) :=
  if 4 ≤ f.length then some (f.take 4, f.drop 4) else none

/-- An `int` from `low` on and below a bound. -/
def ruWithin (low bound : ℕ) (f : Bytes) : Option (ℕ × Bytes) :=
  (ru f).bind fun (v, f) => if low ≤ v ∧ v < bound then some (v.toNat, f) else none

section

variable (weight : Bytes → Weight)

/-- The arcs of one state. -/
def loadArcs : ℕ → Wakealign → Bytes → Option (Wakealign × Bytes)
  | 0, w, f => some (w, f)
  | na + 1, w, f => do
    let (d, f) ← ruWithin 0 w.nstates f
    let (x, f) ← rd f
    loadArcs na { w with adest := w.adest ++ [d], aw := w.aw ++ [weight x] } f

/-- The states: the model of each, and its arcs. -/
def loadStates : ℕ → Wakealign → Bytes → Option (Wakealign × Bytes)
  | 0, w, f => some (w, f)
  | k + 1, w, f => do
    let (p, f) ← ruWithin 0 w.npdf f
    let (na, f) ← ruWithin 0 4096 f
    let (w, f) ← loadArcs weight na { w with pdf := w.pdf ++ [p] } f
    loadStates k { w with aoff := w.aoff ++ [w.adest.length] } f

/-- The states a path may enter in. -/
def loadEntries : ℕ → Wakealign → Bytes → Option (Wakealign × Bytes)
  | 0, w, f => some (w, f)
  | k + 1, w, f => do
    let (s, f) ← ruWithin 0 w.nstates f
    let (x, f) ← rd f
    loadEntries k { w with estate := w.estate ++ [s], ew := w.ew ++ [weight x] } f

/-- What ending in each state weighs. -/
def loadFinal : ℕ → Wakealign → Bytes → Option (Wakealign × Bytes)
  | 0, w, f => some (w, f)
  | k + 1, w, f => do
    let (x, f) ← rd f
    loadFinal k { w with final := w.final ++ [weight x] } f

end

/-- The word's last states. -/
def loadLast : ℕ → Wakealign → Bytes → Option (Wakealign × Bytes)
  | 0, w, f => some (w, f)
  | k + 1, w, f => do
    let (s, f) ← ruWithin 0 w.nstates f
    loadLast k { w with last := w.last ++ [s] } f

/-! ### The arcs by destination -/

/-- `poff[adest[a] + 1]++`. -/
def countArc (poff : ℕ → ℕ) (d : ℕ) : ℕ → ℕ := update poff (d + 1) (poff (d + 1) + 1)

/-- `poff[s + 1] += poff[s]`. -/
def sumUp (poff : ℕ → ℕ) (s : ℕ) : ℕ → ℕ := update poff (s + 1) (poff (s + 1) + poff s)

/-- What the last loop writes. -/
structure Fill where
  fill : ℕ → ℕ
  psrc : ℕ → ℕ
  pw : ℕ → Weight

/-- One arc `a` of the state `s` is put into the next place of its destination's. -/
def put (w : Wakealign) (poff : ℕ → ℕ) (s : ℕ) (m : Fill) (a : ℕ) : Fill :=
  let d := w.adest.getD a 0
  let k := poff d + m.fill d
  { fill := update m.fill d (m.fill d + 1)
    psrc := update m.psrc k s
    pw   := update m.pw k (w.aw.getD a ⊥) }

/-- The places from `l` on and below `h`. -/
def places (l h : ℕ) : List ℕ := List.range' l (h - l)

/-- The arcs of a state. -/
def Wakealign.leaving (w : Wakealign) (s : ℕ) : List ℕ :=
  places (w.aoff.getD s 0) (w.aoff.getD (s + 1) 0)

/-- "The arcs by destination, for the Viterbi". -/
def byDestination (w : Wakealign) : Wakealign :=
  let na := w.aoff.getD w.nstates 0
  let counted := (List.range na).foldl (fun poff a => countArc poff (w.adest.getD a 0)) fun _ => 0
  let poff := (List.range w.nstates).foldl sumUp counted
  let m := (List.range w.nstates).foldl (fun m s => (w.leaving s).foldl (put w poff s) m)
    ⟨fun _ => 0, fun _ => 0, fun _ => ⊥⟩
  { w with poff := poff, psrc := m.psrc, pw := m.pw }

/-- The states of silence: those with the models of the first five, where the first entry is the
first state. -/
def silence (w : Wakealign) : Wakealign :=
  { w with
      sil := (List.range w.nstates).map fun s => decide (w.estate.getD 0 0 = 0 ∧ 5 < w.nstates) &&
      (List.range 5).any fun k => w.pdf.getD s 0 == w.pdf.getD k 0 }

/-- `wakealign_load`, from the states on. -/
def load (weight : Bytes → Weight) (number : Bytes → ℚ) (head : Head) (f : Bytes) :
    Option Wakealign := do
  let (nstates, f) ← ruWithin 1 4096 f
  let w : Wakealign :=
    { toHead := head, nstates := nstates, pdf := [], aoff := [0], adest := [], aw := [],
      poff := fun _ => 0
      psrc := fun _ => 0, pw := fun _ => ⊥, estate := [], ew := [], final := [], last :=
      [], ascale := 0, sil := [] }
  let (w, f) ← loadStates weight nstates w f
  let (nentry, f) ← ruWithin 1 (nstates + 1) f
  let (w, f) ← loadEntries weight nentry w f
  let (w, f) ← loadFinal weight nstates w f
  let (nlast, f) ← ruWithin 1 (nstates + 1) f
  let (w, f) ← loadLast nlast w f
  let (x, _) ← rd f
  some (silence (byDestination { w with ascale := number x }))

/-! ### What a file that is taken says -/

/-- Offsets that go up from one to another. -/
def Offsets (l : ℕ) (os : List ℕ) (h : ℕ) : Prop :=
  (l :: os).IsChain (· ≤ ·) ∧ (l :: os).getLast (List.cons_ne_nil _ _) = h

theorem Offsets.cons {l m h : ℕ} {os : List ℕ} (hlm : l ≤ m) (hos : Offsets m os h) :
    Offsets l (m :: os) h := by
  refine ⟨.cons_cons hlm hos.1, ?_⟩
  rw [getLast_cons (cons_ne_nil _ _)]
  exact hos.2

/-- The graph of a file that is taken. -/
structure Sound (w : Wakealign) : Prop where
  nstates_lt : w.nstates < 4096
  pdf_lt : ∀ p ∈ w.pdf, p < w.npdf
  pdf_length : w.pdf.length = w.nstates
  aoff_length : w.aoff.length = w.nstates + 1
  aoff_offsets : Offsets 0 w.aoff.tail w.adest.length
  aoff_head : w.aoff.head? = some 0
  adest_lt : ∀ d ∈ w.adest, d < w.nstates
  estate_lt : ∀ s ∈ w.estate, s < w.nstates
  estate_length : w.estate.length = w.ew.length

theorem ruWithin_lt {low bound : ℕ} {f f' : Bytes} {v : ℕ}
    (h : ruWithin low bound f = some (v, f')) : v < bound := by
  obtain ⟨⟨i, g⟩, -, hi⟩ := bind_eq_some_iff.mp h
  dsimp only at hi
  split at hi
  case isTrue hin =>
    obtain ⟨rfl, -⟩ := Prod.mk.inj (some.inj hi)
    omega
  case isFalse => exact nomatch hi

section

variable {weight : Bytes → Weight}

theorem loadArcs_spec : ∀ {na : ℕ} {w w' : Wakealign}
    {f f' : Bytes}, loadArcs weight na w f = some (w', f') →
    ∃ ds xs, w' = { w with adest := w.adest ++ ds, aw := w.aw ++ xs } ∧ ∀ d ∈ ds, d < w.nstates
  | 0, w, w', f, f', h => by
    obtain ⟨rfl, -⟩ := Prod.mk.inj (some.inj h)
    refine ⟨[], [], ?_, fun d hd => nomatch hd⟩
    rw [append_nil, append_nil]
  | na + 1, w, w', f, f', h => by
    rw [loadArcs] at h
    obtain ⟨⟨d, f₁⟩, hd, h⟩ := bind_eq_some_iff.mp h
    obtain ⟨⟨x, f₂⟩, -, h⟩ := bind_eq_some_iff.mp h
    obtain ⟨ds, xs, rfl, hds⟩ := loadArcs_spec h
    refine ⟨d :: ds, weight x :: xs, ?_, ?_⟩
    · dsimp only
      rw [append_assoc, append_assoc]
      rfl
    · intro e he
      cases he with
      | head => exact ruWithin_lt hd
      | tail _ he => exact hds e he

theorem loadStates_spec : ∀ {k : ℕ} {w w' : Wakealign}
    {f f' : Bytes}, loadStates weight k w f = some (w', f') →
    ∃ ps os ds xs, w' =
      { w with pdf := w.pdf ++ ps, aoff := w.aoff ++ os, adest := w.adest ++ ds,
               aw := w.aw ++ xs } ∧
      ps.length = k ∧ os.length = k ∧ (∀ p ∈ ps, p < w.npdf) ∧ (∀ d ∈ ds, d < w.nstates) ∧
      Offsets w.adest.length os (w.adest.length + ds.length)
  | 0, w, w', f, f', h => by
    obtain ⟨rfl, -⟩ := Prod.mk.inj (some.inj h)
    refine ⟨[], [], [], [], ?_, rfl, rfl, fun p hp => (nomatch hp), fun d hd => (nomatch hd),
      .singleton _, rfl⟩
    rw [append_nil, append_nil, append_nil, append_nil]
  | k + 1, w, w', f, f', h => by
    rw [loadStates] at h
    obtain ⟨⟨p, f₁⟩, hp, h⟩ := bind_eq_some_iff.mp h
    obtain ⟨⟨na, f₂⟩, -, h⟩ := bind_eq_some_iff.mp h
    obtain ⟨⟨w₁, f₃⟩, hw₁, h⟩ := bind_eq_some_iff.mp h
    obtain ⟨ds₁, xs₁, rfl, hds₁⟩ := loadArcs_spec hw₁
    obtain ⟨ps, os, ds, xs, rfl, hps, hos, hplt, hdlt, hoff⟩ := loadStates_spec h
    dsimp only at hplt hdlt hoff
    refine ⟨p :: ps, (w.adest ++ ds₁).length :: os, ds₁ ++ ds, xs₁ ++ xs, ?_, ?_, ?_, ?_, ?_, ?_⟩
    · dsimp only
      rw [append_assoc, append_assoc, append_assoc, append_assoc]
      rfl
    · rw [length_cons, hps]
    · rw [length_cons, hos]
    · intro q hq
      cases hq with
      | head => exact ruWithin_lt hp
      | tail _ hq => exact hplt q hq
    · intro d hd
      rcases mem_append.mp hd with hd | hd
      · exact hds₁ d hd
      · exact hdlt d hd
    · have hlen : w.adest.length + (ds₁ ++ ds).length = (w.adest ++ ds₁).length + ds.length := by
        rw [length_append, length_append]
        omega
      rw [hlen]
      exact hoff.cons (by rw [length_append]; exact Nat.le_add_right _ _)

theorem loadEntries_spec : ∀ {k : ℕ} {w w' : Wakealign}
    {f f' : Bytes}, loadEntries weight k w f = some (w', f') →
    ∃ ss xs, w' = { w with estate := w.estate ++ ss, ew := w.ew ++ xs } ∧ ss.length = xs.length ∧
    ∀ s ∈ ss, s < w.nstates
  | 0, w, w', f, f', h => by
    obtain ⟨rfl, -⟩ := Prod.mk.inj (some.inj h)
    refine ⟨[], [], ?_, rfl, fun d hd => nomatch hd⟩
    rw [append_nil, append_nil]
  | k + 1, w, w', f, f', h => by
    rw [loadEntries] at h
    obtain ⟨⟨s, f₁⟩, hs, h⟩ := bind_eq_some_iff.mp h
    obtain ⟨⟨x, f₂⟩, -, h⟩ := bind_eq_some_iff.mp h
    obtain ⟨ss, xs, rfl, hlen, hlt⟩ := loadEntries_spec h
    refine ⟨s :: ss, weight x :: xs, ?_, ?_, ?_⟩
    · dsimp only
      rw [append_assoc, append_assoc]
      rfl
    · rw [length_cons, length_cons, hlen]
    · intro e he
      cases he with
      | head => exact ruWithin_lt hs
      | tail _ he => exact hlt e he

theorem loadFinal_spec : ∀ {k : ℕ} {w w' : Wakealign}
    {f f' : Bytes}, loadFinal weight k w f = some (w', f') →
    ∃ xs, w' = { w with final := w.final ++ xs }
  | 0, w, w', f, f', h => by
    obtain ⟨rfl, -⟩ := Prod.mk.inj (some.inj h)
    exact ⟨[], by rw [append_nil]⟩
  | k + 1, w, w', f, f', h => by
    rw [loadFinal] at h
    obtain ⟨⟨x, f₁⟩, -, h⟩ := bind_eq_some_iff.mp h
    obtain ⟨xs, rfl⟩ := loadFinal_spec h
    refine ⟨weight x :: xs, ?_⟩
    dsimp only
    rw [append_assoc]
    rfl

end

theorem loadLast_spec : ∀ {k : ℕ} {w w' : Wakealign}
    {f f' : Bytes}, loadLast k w f = some (w', f') →
    ∃ ss, w' = { w with last := w.last ++ ss }
  | 0, w, w', f, f', h => by
    obtain ⟨rfl, -⟩ := Prod.mk.inj (some.inj h)
    exact ⟨[], by rw [append_nil]⟩
  | k + 1, w, w', f, f', h => by
    rw [loadLast] at h
    obtain ⟨⟨s, f₁⟩, -, h⟩ := bind_eq_some_iff.mp h
    obtain ⟨ss, rfl⟩ := loadLast_spec h
    refine ⟨s :: ss, ?_⟩
    dsimp only
    rw [append_assoc]
    rfl

/-- What a file that is taken says, before its arcs are sorted. -/
theorem load_eq {weight : Bytes → Weight} {number : Bytes → ℚ} {head : Head}
    {f : Bytes} {w : Wakealign} (h : load weight number head f = some w) :
    ∃ v, Sound v ∧ w = silence (byDestination v) := by
  unfold load at h
  obtain ⟨⟨nstates, f₁⟩, hn, h⟩ := bind_eq_some_iff.mp h
  obtain ⟨⟨w₁, f₂⟩, hw₁, h⟩ := bind_eq_some_iff.mp h
  obtain ⟨⟨nentry, f₃⟩, -, h⟩ := bind_eq_some_iff.mp h
  obtain ⟨⟨w₂, f₄⟩, hw₂, h⟩ := bind_eq_some_iff.mp h
  obtain ⟨⟨w₃, f₅⟩, hw₃, h⟩ := bind_eq_some_iff.mp h
  obtain ⟨⟨nlast, f₆⟩, -, h⟩ := bind_eq_some_iff.mp h
  obtain ⟨⟨w₄, f₇⟩, hw₄, h⟩ := bind_eq_some_iff.mp h
  obtain ⟨⟨x, f₈⟩, -, h⟩ := bind_eq_some_iff.mp h
  obtain ⟨ps, os, ds, xs, rfl, hps, hos, hplt, hdlt, hoff⟩ := loadStates_spec hw₁
  obtain ⟨ss, es, rfl, hlen, hslt⟩ := loadEntries_spec hw₂
  obtain ⟨fs, rfl⟩ := loadFinal_spec hw₃
  obtain ⟨ls, rfl⟩ := loadLast_spec hw₄
  refine ⟨_, ?_, (some.inj h).symm⟩
  exact {
    nstates_lt    := ruWithin_lt hn
    pdf_lt        := hplt
    pdf_length    := hps
    aoff_length   := congrArg (· + 1) hos
    aoff_offsets  := by
      dsimp only at hoff
      rw [length_nil, Nat.zero_add] at hoff
      exact hoff
    aoff_head     := rfl
    adest_lt      := hdlt
    estate_lt     := hslt
    estate_length := hlen }

/-! ### The arcs, by source and by destination -/

/-- The arc with a place in the file. -/
def Wakealign.arcAt (w : Wakealign) (s a : ℕ) : Arc ℕ ℚ := ⟨s, w.adest.getD a 0, w.aw.getD a ⊥⟩

/-- The arcs by source. -/
def Wakealign.arcs (w : Wakealign) : List (Arc ℕ ℚ) :=
  (List.range w.nstates).flatMap fun s => (w.leaving s).map (w.arcAt s)

/-- The arcs that lead to a state, as the Viterbi reads them. -/
def Wakealign.entering (w : Wakealign) (d : ℕ) : List (Arc ℕ ℚ) :=
  (places (w.poff d) (w.poff (d + 1))).map fun k => ⟨w.psrc k, d, w.pw k⟩

/-- The arcs by destination. -/
def Wakealign.predecessors (w : Wakealign) : List (Arc ℕ ℚ) :=
  (List.range w.nstates).flatMap w.entering

/-- Places in a row. -/
theorem flatMap_places {f : ℕ → ℕ} : ∀ {n : ℕ}, (∀ s < n, f s ≤ f (s + 1)) →
    (List.range n).flatMap (fun s => places (f s) (f (s + 1))) = places (f 0) (f n) ∧ f 0 ≤ f n
  | 0, _ => ⟨by rw [places, Nat.sub_self]; rfl, le_refl _⟩
  | n + 1, h => by
    obtain ⟨hrow, hle⟩ := flatMap_places (n := n) fun s hs => h s (by omega)
    have hlast := h n (by omega)
    refine ⟨?_, hle.trans hlast⟩
    rw [range_succ, flatMap_append, hrow, flatMap_cons, flatMap_nil, append_nil]
    unfold places
    have hmid : f n = f 0 + (f n - f 0) := by omega
    have hsum : f (n + 1) - f 0 = (f n - f 0) + (f (n + 1) - f n) := by omega
    rw [hsum, ← range'_append_1, ← hmid]

theorem Offsets.getD_le {l h : ℕ} {os : List ℕ} (ho : Offsets l os h) {s : ℕ} (hs : s < os.length) :
    (l :: os).getD s 0 ≤ (l :: os).getD (s + 1) 0 := by
  have hlen : s + 1 < (l :: os).length := by
    rw [length_cons]
    omega
  rw [getD_eq_getElem _ _ (by omega), getD_eq_getElem _ _ hlen]
  exact isChain_iff_getElem.mp ho.1 s hlen

theorem Offsets.getD_last {l h : ℕ} {os : List ℕ} (ho : Offsets l os h) :
    (l :: os).getD os.length 0 = h := by
  rw [← ho.2, getLast_eq_getElem, getD_eq_getElem _ _ (by rw [length_cons]; omega)]
  rfl

section

variable {w : Wakealign}

theorem Sound.aoff_eq (h : Sound w) :
    w.aoff = 0 :: w.aoff.tail ∧ w.aoff.tail.length = w.nstates := by
  refine ⟨eq_cons_of_mem_head? h.aoff_head, ?_⟩
  rw [length_tail, h.aoff_length, Nat.add_sub_cancel]

/-- All arcs of the file, by source, are the arcs in the file's order. -/
theorem Sound.leaving_flatMap (h : Sound w) :
    (List.range w.nstates).flatMap w.leaving = List.range (w.aoff.getD w.nstates 0) ∧
      w.aoff.getD w.nstates 0 = w.adest.length := by
  obtain ⟨haoff, hlen⟩ := h.aoff_eq
  have hmono : ∀ s < w.nstates, w.aoff.getD s 0 ≤ w.aoff.getD (s + 1) 0 := by
    intro s hs
    rw [haoff]
    exact h.aoff_offsets.getD_le (by omega)
  obtain ⟨hrow, -⟩ := flatMap_places hmono
  refine ⟨?_, ?_⟩
  · have hzero : w.aoff.getD 0 0 = 0 := by
      rw [haoff]
      rfl
    rw [hzero] at hrow
    refine hrow.trans ?_
    rw [places, Nat.sub_zero, range_eq_range']
  · rw [haoff, ← hlen]
    exact h.aoff_offsets.getD_last

theorem Sound.arcs_dst (h : Sound w) :
    w.arcs.map Arc.dst = (List.range (w.aoff.getD w.nstates 0)).map fun a => w.adest.getD a 0 := by
  rw [← h.leaving_flatMap.1, map_flatMap]
  unfold Wakealign.arcs
  rw [map_flatMap]
  simp only [List.map_map]
  rfl

theorem Sound.dst_lt (h : Sound w) {a : Arc ℕ ℚ} (ha : a ∈ w.arcs) : a.dst < w.nstates := by
  have hmem : a.dst ∈ w.arcs.map Arc.dst := mem_map_of_mem ha
  rw [h.arcs_dst] at hmem
  obtain ⟨k, hk, heq⟩ := mem_map.mp hmem
  rw [mem_range, h.leaving_flatMap.2] at hk
  rw [← heq, getD_eq_getElem _ _ hk]
  exact h.adest_lt _ (getElem_mem _)

theorem src_lt {a : Arc ℕ ℚ} (ha : a ∈ w.arcs) : a.src < w.nstates := by
  obtain ⟨s, hs, ha⟩ := mem_flatMap.mp ha
  obtain ⟨k, -, rfl⟩ := mem_map.mp ha
  exact mem_range.mp hs

end

/-! ### Sorting -/

theorem countArc_apply (p : ℕ → ℕ) (d i : ℕ) :
    countArc p d i = p i + if i = d + 1 then 1 else 0 := by
  unfold countArc
  rw [update_apply]
  split
  case isTrue h => rw [h]
  case isFalse => rfl

/-- How many arcs lead to each state. -/
theorem foldl_countArc : ∀ (ds : List ℕ) (p : ℕ → ℕ),
    ds.foldl countArc p 0 = p 0 ∧ ∀ d, ds.foldl countArc p (d + 1) = p (d + 1) + ds.count d
  | [], p => ⟨rfl, fun d => rfl⟩
  | e :: ds, p => by
    obtain ⟨hzero, hsucc⟩ := foldl_countArc ds (countArc p e)
    refine ⟨?_, fun d => ?_⟩
    · rw [foldl_cons, hzero, countArc_apply, if_neg (by omega), Nat.add_zero]
    · rw [foldl_cons, hsucc, countArc_apply, count_cons]
      by_cases h : d = e
      · rw [if_pos (by omega), if_pos (by rw [beq_iff_eq]; exact h.symm)]
        omega
      · rw [if_neg (by omega), if_neg (by rw [beq_iff_eq]; exact fun he => h he.symm)]
        omega

/-- The sums: each place adds its own count to the sum before it. -/
theorem foldl_sumUp (p : ℕ → ℕ) : ∀ (m : ℕ),
    (List.range m).foldl sumUp p 0 = p 0 ∧
    (∀ i < m, (List.range m).foldl sumUp p (i + 1) = (List.range m).foldl sumUp p i + p (i + 1)) ∧
    ∀ i, m < i → (List.range m).foldl sumUp p i = p i
  | 0 => ⟨rfl, fun _ hi => absurd hi (Nat.not_lt_zero _), fun _ _ => rfl⟩
  | m + 1 => by
    obtain ⟨hzero, hsum, hrest⟩ := foldl_sumUp p m
    have hupdate : ∀ i, (List.range (m + 1)).foldl sumUp p i =
        if i = m + 1 then (List.range m).foldl sumUp p (m + 1) + (List.range m).foldl sumUp p m
        else (List.range m).foldl sumUp p i := by
      intro i
      rw [range_succ, foldl_append]
      exact update_apply _ _ _ _
    refine ⟨?_, fun i hi => ?_, fun i hi => ?_⟩
    · rw [hupdate, if_neg (by omega), hzero]
    · rw [hupdate (i + 1), hupdate i, if_neg (by omega : i ≠ m + 1)]
      by_cases him : i = m
      · rw [if_pos (by omega), him, hrest (m + 1) (by omega), Nat.add_comm]
      · rw [if_neg (by omega), hsum i (by omega)]
    · rw [hupdate, if_neg (by omega), hrest i (by omega)]

/-- An arc is put into the next place of its destination's. -/
def putArc (poff : ℕ → ℕ) (m : Fill) (a : Arc ℕ ℚ) : Fill :=
  { fill := update m.fill a.dst (m.fill a.dst + 1)
    psrc := update m.psrc (poff a.dst + m.fill a.dst) a.src
    pw   := update m.pw (poff a.dst + m.fill a.dst) a.weight }

/-- The last loop goes through the arcs by source. -/
theorem foldl_put (w : Wakealign) (poff : ℕ → ℕ) (m : Fill) :
    (List.range w.nstates).foldl (fun m s => (w.leaving s).foldl (put w poff s) m) m =
      w.arcs.foldl (putArc poff) m := by
  unfold Wakealign.arcs
  rw [foldl_flatMap]
  simp only [foldl_map]
  rfl

/-- Offsets that leave each state as many places as it has arcs. -/
structure Room (n : ℕ) (poff : ℕ → ℕ) (arcs : List (Arc ℕ ℚ)) : Prop where
  dst_lt : ∀ a ∈ arcs, a.dst < n
  succ : ∀ d < n, poff (d + 1) = poff d + (arcs.filter fun a => a.dst = d).length

theorem Room.mono {n : ℕ} {poff : ℕ → ℕ} {arcs : List (Arc ℕ ℚ)} (h : Room n poff arcs)
    {d e : ℕ} (hde : d ≤ e) (he : e ≤ n) : poff d ≤ poff e := by
  induction e with
  | zero => rw [Nat.le_zero.mp hde]
  | succ e ih =>
    rcases Nat.lt_or_ge d (e + 1) with hlt | hge
    · have hstep := h.succ e (by omega)
      have hrest := ih (by omega) (by omega)
      omega
    · rw [Nat.le_antisymm hde hge]

/-- The arcs in a state's places, of which so many are filled. -/
def Fill.entered (m : Fill) (poff : ℕ → ℕ) (d : ℕ) : List (Arc ℕ ℚ) :=
  (List.range' (poff d) (m.fill d)).map fun k => ⟨m.psrc k, d, m.pw k⟩

/-- Each state's places have those of the arcs so far that lead to it. -/
def Filled (n : ℕ) (poff : ℕ → ℕ) (l : List (Arc ℕ ℚ)) (m : Fill) : Prop :=
  ∀ d < n, m.entered poff d = l.filter fun a => a.dst = d

theorem Filled.fill_eq {n : ℕ} {poff : ℕ → ℕ} {l : List (Arc ℕ ℚ)} {m : Fill}
    (h : Filled n poff l m) {d : ℕ} (hd : d < n) :
    m.fill d = (l.filter fun a => a.dst = d).length := by
  rw [← h d hd, Fill.entered, length_map, length_range']

/-- Arcs whose places are not written to stay. -/
theorem entered_congr {poff : ℕ → ℕ} {m m' : Fill} {d : ℕ} (hfill : m'.fill d = m.fill d)
    (h : ∀ k, poff d ≤ k → k < poff d + m.fill d → m'.psrc k = m.psrc k ∧ m'.pw k = m.pw k) :
    m'.entered poff d = m.entered poff d := by
  unfold Fill.entered
  rw [hfill]
  refine map_congr_left fun k hk => ?_
  obtain ⟨hle, hlt⟩ := mem_range'_1.mp hk
  rw [(h k hle hlt).1, (h k hle hlt).2]

theorem Filled.putArc {n : ℕ} {poff : ℕ → ℕ} {arcs l : List (Arc ℕ ℚ)}
    (hroom : Room n poff arcs) {m : Fill} (h : Filled n poff l m) {a : Arc ℕ ℚ}
    (hl : (l ++ [a]) <+: arcs) : Filled n poff (l ++ [a]) (putArc poff m a) := by
  have ha : a.dst < n := hroom.dst_lt a (hl.subset (mem_append_right _ (.head _)))
  -- There is room left in the places of the arc's destination.
  have hfree : m.fill a.dst < (arcs.filter fun b => b.dst = a.dst).length := by
    have hprefix := (hl.filter fun b => b.dst = a.dst).length_le
    rw [filter_append, length_append, ← h.fill_eq ha,
      filter_cons_of_pos (by exact decide_eq_true rfl)] at hprefix
    exact Nat.lt_of_succ_le hprefix
  intro d hd
  rw [filter_append]
  by_cases hda : a.dst = d
  · subst hda
    have hold : m.entered poff a.dst = (List.range' (poff a.dst) (m.fill a.dst)).map fun k =>
        (⟨(Align.putArc poff m a).psrc k, a.dst, (Align.putArc poff m a).pw k⟩ : Arc ℕ ℚ) := by
      refine map_congr_left fun k hk => ?_
      obtain ⟨-, hlt⟩ := mem_range'_1.mp hk
      have hne : k ≠ poff a.dst + m.fill a.dst := by omega
      unfold Align.putArc
      dsimp only
      rw [update_of_ne hne, update_of_ne hne]
    rw [← h a.dst hd, hold, filter_cons_of_pos (by exact decide_eq_true rfl), filter_nil]
    unfold Fill.entered
    have hfill : (Align.putArc poff m a).fill a.dst = m.fill a.dst + 1 := update_self _ _ _
    rw [hfill, range'_concat, map_append, Nat.one_mul]
    refine congrArg _ ?_
    unfold Align.putArc
    dsimp only
    rw [map_cons, map_nil, update_self, update_self]
  · rw [filter_cons_of_neg (by exact fun hp => hda (of_decide_eq_true hp)), filter_nil,
      append_nil, ← h d hd]
    refine entered_congr (update_of_ne (Ne.symm hda) _ _) fun k hle hlt => ?_
    -- The places of two states have nothing in common.
    have hne : k ≠ poff a.dst + m.fill a.dst := by
      have hfd := h.fill_eq hd
      have hd₁ := hroom.succ d hd
      have ha₁ := hroom.succ a.dst ha
      have hpre := ((prefix_append l [a]).trans hl).filter fun b => b.dst = d
      have hpre := hpre.length_le
      rcases Nat.lt_or_ge d a.dst with hlt' | hge
      · have hmono := hroom.mono (Nat.succ_le_of_lt hlt') ha.le
        rw [Nat.succ_eq_add_one] at hmono
        omega
      · have hmono := hroom.mono (Nat.succ_le_of_lt (lt_of_le_of_ne hge hda)) hd.le
        rw [Nat.succ_eq_add_one] at hmono
        omega
    exact ⟨update_of_ne hne _ _, update_of_ne hne _ _⟩

theorem filled_foldl {n : ℕ} {poff : ℕ → ℕ} {arcs : List (Arc ℕ ℚ)}
    (hroom : Room n poff arcs) {m : Fill} (hm : m.fill = fun _ => 0) :
    ∀ (l : List (Arc ℕ ℚ)), l <+: arcs → Filled n poff l (l.foldl (putArc poff) m) := by
  intro l
  induction l using List.reverseRecOn with
  | nil =>
    intro _ d _
    unfold Fill.entered
    rw [foldl_nil, hm]
    rfl
  | append_singleton l a ih =>
    intro hl
    rw [foldl_append]
    exact (ih ((prefix_append l [a]).trans hl)).putArc hroom hl

/-- The arcs taken destination by destination are all of them. -/
theorem flatMap_filter_perm (l : List (Arc ℕ ℚ)) : ∀ (n : ℕ),
    ((List.range n).flatMap fun d => l.filter fun a => a.dst = d).Perm (l.filter fun a => a.dst < n)
  | 0 => by
    rw [range_zero, flatMap_nil, filter_eq_nil_iff.mpr (fun a _ => by simp)]
  | n + 1 => by
    have hbelow : (l.filter fun a => a.dst < n) =
        (l.filter fun a => a.dst < n + 1).filter fun a => a.dst < n := by
      rw [List.filter_filter]
      refine filter_congr fun a _ => ?_
      by_cases h : a.dst < n <;> simp [h]
      omega
    have hlast : (l.filter fun a => a.dst = n) = (l.filter fun a => a.dst < n + 1).filter fun a =>
        !decide (a.dst < n) := by
      rw [List.filter_filter]
      refine filter_congr fun a _ => ?_
      by_cases h : a.dst = n
      · simp [h]
      · by_cases hlt : a.dst < n
        · simp [h, hlt]
        · have hge : ¬ a.dst < n + 1 := by omega
          simp [h, hge]
    rw [range_succ, flatMap_append, flatMap_cons, flatMap_nil, append_nil]
    refine ((flatMap_filter_perm l n).append_right _).trans ?_
    rw [hlast, hbelow]
    exact filter_append_perm _ _

/-- What sorting leaves alone, and that it leaves each state as many places as it has arcs. -/
theorem Sound.room {v : Wakealign} (h : Sound v) :
    Room v.nstates (byDestination v).poff v.arcs := by
  refine ⟨fun a ha => h.dst_lt ha, fun d hd => ?_⟩
  have hsum := (foldl_sumUp ((List.range (v.aoff.getD v.nstates 0)).foldl
    (fun poff a => countArc poff (v.adest.getD a 0)) fun _ => 0) v.nstates).2.1 d hd
  refine hsum.trans (congrArg _ ?_)
  rw [← foldl_map (f := fun a => v.adest.getD a 0) (g := countArc), ← h.arcs_dst,
    (foldl_countArc _ _).2 d, Nat.zero_add, count_eq_length_filter, List.filter_map, length_map]
  refine congrArg List.length (filter_congr fun a _ => ?_)
  exact beq_eq_decide _ _

/-- **The arcs by destination** are, for each state, the arcs by source that lead to it. -/
theorem Sound.entering_eq {v : Wakealign} (h : Sound v) {d : ℕ} (hd : d < v.nstates) :
    (byDestination v).entering d = v.arcs.filter fun a => a.dst = d := by
  have hfilled := filled_foldl h.room (m := ⟨fun _ => 0, fun _ => 0, fun _ => ⊥⟩)
    rfl v.arcs (prefix_refl _)
  rw [← hfilled d hd, Wakealign.entering, Fill.entered, places, h.room.succ d hd,
    Nat.add_sub_cancel_left, hfilled.fill_eq hd, ← foldl_put v (byDestination v).poff]
  rfl

/-- The graph of a file that is taken: its arcs by destination, its arcs by source and what they are
between. -/
theorem load_spec {weight : Bytes → Weight} {number : Bytes → ℚ} {head : Head}
    {f : Bytes} {w : Wakealign} (h : load weight number head f = some w) :
    Sound w ∧ ∀ d < w.nstates, w.entering d = w.arcs.filter fun a => a.dst = d := by
  obtain ⟨v, hv, rfl⟩ := load_eq h
  exact ⟨⟨hv.nstates_lt, hv.pdf_lt, hv.pdf_length, hv.aoff_length, hv.aoff_offsets,
    hv.aoff_head, hv.adest_lt, hv.estate_lt, hv.estate_length⟩, fun d hd => hv.entering_eq hd⟩

/-- **The arcs by destination are the arcs by source**, each once. -/
theorem predecessors_perm {w : Wakealign} (hsound : Sound w)
    (h : ∀ d < w.nstates, w.entering d = w.arcs.filter fun a => a.dst = d) :
    w.predecessors.Perm w.arcs := by
  have heq : w.predecessors = (List.range w.nstates).flatMap fun d =>
      w.arcs.filter fun a => a.dst = d :=
    flatMap_congr fun d hd => h d (mem_range.mp hd)
  rw [heq]
  refine (flatMap_filter_perm w.arcs w.nstates).trans (.of_eq ?_)
  exact filter_eq_self.mpr fun a ha => decide_eq_true (hsound.dst_lt ha)

end Hassmic.Align
