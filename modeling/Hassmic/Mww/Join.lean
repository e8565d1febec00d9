import Hassmic.Mww.Conv

/-!
# Tensors joined and parted

A concatenation puts tensors together along an axis, a split takes one apart.  Both go through the
larger tensor from its start to its end, row by row: a row has a stretch of every smaller one, of
which the `k`th row is the `k`th stretch.  The place in the larger tensor is counted on as the
stretches are copied; that it never leaves the tensor is that the sizes along the axis add up, as
the loader has made sure.

## Main definitions

* `QTensor.outer`, `QTensor.inner` — how many rows there are, and the bytes for each element of the
  axis.
* `stretches`, `laid` — the stretches in their order, and laid out one behind the other.
* `Prepared.joinSteps`, `concat`, `Prepared.partSteps`, `split` — the operators.

## Main results

* `laid_within` — stretches laid out stay inside what they fill.
* `join_inside`, `part_inside` — **nothing outside the tensors is touched**.
-/

namespace Hassmic.Mww

open Steps List

namespace QTensor

variable (t : QTensor) (ax : ℕ)

/-- `outer`: how many rows there are along an axis. -/
def outer : ℕ := (t.shape.dims.take ax).prod

/-- `inner`: how many bytes an element of the axis has. -/
def inner : ℕ := t.type.size * (t.shape.dims.drop (ax + 1)).prod

/-- How many bytes a stretch of the tensor has. -/
def stretch : ℕ := t.dim ax * t.inner ax

theorem bytes_eq {t : QTensor} {ax : ℕ} (h : ax < t.ndim) :
    t.bytes = t.outer ax * t.stretch ax := by
  have hlt : ax < t.shape.dims.length := h
  have hprod : t.shape.dims.prod = t.outer ax * (t.dim ax * (t.shape.dims.drop (ax + 1)).prod) := by
    rw [outer, dim, getD_eq_getElem _ _ hlt, ← prod_cons, ← drop_eq_getElem_cons hlt,
      prod_take_mul_prod_drop]
  unfold Tensor.bytes Shape.count stretch inner
  rw [hprod]
  ring

/-- Tensors with the same other dimensions have the same rows. -/
theorem outer_eq {s t : QTensor} {ax : ℕ} (hn : s.ndim = t.ndim) (hdims : sameBut ax s t = true) :
    s.outer ax = t.outer ax := by
  have hlen : s.shape.dims.length = t.shape.dims.length := hn
  have htake : s.shape.dims.take ax = t.shape.dims.take ax := by
    refine ext_getElem (by simp [hlen]) fun i h₁ h₂ => ?_
    rw [length_take] at h₁ h₂
    have hi := of_decide_eq_true (all_eq_true.mp hdims i (mem_range.mpr (by
      show i < t.shape.dims.length
      omega)))
    rw [getElem_take, getElem_take]
    have heq := hi.resolve_left (by omega)
    unfold dim at heq
    rw [getD_eq_getElem _ _ (by omega), getD_eq_getElem _ _ (by omega)] at heq
    exact heq
  rw [outer, outer, htake]

/-- Tensors with the same other dimensions have elements of the same size. -/
theorem inner_eq {s t : QTensor} {ax : ℕ} (htype : s.type = t.type) (hn : s.ndim = t.ndim)
    (hdims : sameBut ax s t = true) : s.inner ax = t.inner ax := by
  have hlen : s.shape.dims.length = t.shape.dims.length := hn
  have hdrop : s.shape.dims.drop (ax + 1) = t.shape.dims.drop (ax + 1) := by
    refine ext_getElem (by simp [hlen]) fun i h₁ h₂ => ?_
    rw [length_drop] at h₁ h₂
    have hi := of_decide_eq_true (all_eq_true.mp hdims (ax + 1 + i) (mem_range.mpr (by
      show ax + 1 + i < t.shape.dims.length
      omega)))
    rw [getElem_drop, getElem_drop]
    have heq := hi.resolve_left (by omega)
    unfold dim at heq
    rw [getD_eq_getElem _ _ (by omega), getD_eq_getElem _ _ (by omega)] at heq
    exact heq
  rw [inner, inner, htype, hdrop]

end QTensor

/-- A stretch of one of the smaller tensors: which row, and the tensor's memory. -/
structure Stretch where
  k : ℕ
  block : ℕ
  t : QTensor

/-- The stretches, row by row. -/
def stretches (outer : ℕ) (ts : List (ℕ × QTensor)) : List Stretch :=
  (List.range outer).flatMap fun k => ts.map fun (b, t) => ⟨k, b, t⟩

/-- Stretches laid out from a place on, one behind the other: what is done for each at its place. -/
def laid (n : Stretch → ℕ) (f : Stretch → ℕ → List Step) : ℕ → List Stretch → List Step
  | _, [] => []
  | pos, s :: l => f s pos ++ laid n f (pos + n s) l

namespace Prepared

variable (o : Prepared)

/-- A stretch of an input is put at a place of the output `y`. -/
def joinPart (y : QTensor) (ax : ℕ) (s : Stretch) (pos : ℕ) : List Step :=
  let n := s.t.dim ax * y.inner ax
  if y.type = .int8 ∧ (s.t.quant.scale ≠ y.quant.scale ∨ s.t.quant.zp ≠ y.quant.zp) then
    (List.range n).map fun j => {
      block := (o.output 0).toNat
      place := pos + j
      value := fun m => do return [rescale s.t.quant y.quant (← m.byte s.block (s.k * n + j))] }
  else [{ block := (o.output 0).toNat, place := pos,
          value := fun m => m.bytes s.block (s.k * n) n }]

/-- A concatenation of these tensors. -/
def joinSteps (y : QTensor) (xs : List (ℕ × QTensor)) : List Step :=
  let ax := o.axis.toNat
  laid (fun s => s.t.dim ax * y.inner ax) (o.joinPart y ax) 0 (stretches (y.outer ax) xs)

/-- A stretch of an output is taken from a place of the input `x`. -/
def splitPart (x : QTensor) (ax : ℕ) (s : Stretch) (pos : ℕ) : List Step :=
  let n := s.t.dim ax * x.inner ax
  [{ block := s.block, place := s.k * n, value := fun m => m.bytes (o.input 0).toNat pos n }]

/-- A split into these tensors. -/
def splitSteps (x : QTensor) (ys : List (ℕ × QTensor)) : List Step :=
  let ax := o.axis.toNat
  laid (fun s => s.t.dim ax * x.inner ax) (o.splitPart x ax) 0 (stretches (x.outer ax) ys)

end Prepared

namespace Net

variable (g : Net)

/-- Tensors with their memory. -/
def tensors (is : List ℤ) : Option (List (ℕ × QTensor)) :=
  is.mapM fun i => do return (i.toNat, ← g.tensor i)

/-- `concat`. -/
def concat (o : Prepared) (m : Mem) : Option Mem := do
  let y ← g.tensor (o.output 0)
  run m (o.joinSteps y (← g.tensors o.inputs))

/-- `split`. -/
def split (o : Prepared) (m : Mem) : Option Mem := do
  let x ← g.tensor (o.input 0)
  run m (o.splitSteps x (← g.tensors o.outputs))

end Net

/-! ### Stretches laid out -/

/-- **Stretches laid out stay inside what they fill**: each has its place, and ends where the next
begins. -/
theorem laid_within {n : Stretch → ℕ} {f : Stretch → ℕ → List Step} {l : List Stretch}
    {pos : ℕ} {s : Step} (hs : s ∈ laid n f pos l) :
    ∃ a ∈ l, ∃ k, s ∈ f a k ∧ k + n a ≤ pos + (l.map n).sum := by
  induction l generalizing pos with
  | nil => cases hs
  | cons a l ih =>
    rw [map_cons, sum_cons]
    rcases mem_append.mp hs with hs | hs
    · exact ⟨a, mem_cons_self, pos, hs, by omega⟩
    · obtain ⟨b, hb, k, hk, hle⟩ := ih hs
      exact ⟨b, mem_cons_of_mem _ hb, k, hk, by omega⟩

/-- What the stretches of all rows come to. -/
theorem sum_stretches (outer : ℕ) (ts : List (ℕ × QTensor)) (n : QTensor → ℕ) :
    ((stretches outer ts).map fun s => n s.t).sum = outer * (ts.map fun bt => n bt.2).sum := by
  unfold stretches
  induction outer with
  | zero => simp
  | succ k ih =>
    rw [range_succ, flatMap_append, map_append, sum_append, ih, Nat.succ_mul]
    simp [Function.comp_def]

theorem mem_stretches {outer : ℕ} {ts : List (ℕ × QTensor)} {s : Stretch}
    (h : s ∈ stretches outer ts) :
    s.k < outer ∧ (s.block, s.t) ∈ ts := by
  unfold stretches at h
  simp only [mem_flatMap, mem_map, mem_range] at h
  obtain ⟨k, hk, ⟨b, t⟩, hbt, rfl⟩ := h
  exact ⟨hk, hbt⟩

/-! ### Operators that are let through -/

/-- Tensors that an operator names, of the kind of a larger one: the same type and other
dimensions. -/
def Parts (g : Net) (is : List ℤ) (ax : ℕ) (t : QTensor) (ts : List QTensor) : Prop :=
  List.Forall₂ (fun i s => g.tensor i = some s ∧ s.type = t.type ∧ s.ndim = t.ndim ∧
    sameBut ax s t = true) is ts

/-- An operator that joins tensors to `t` or parts it: the sizes along the axis add up. -/
structure PartsReady (g : Net) (i : ℤ) (is : List ℤ) (axis : ℤ) (t : QTensor) (ts : List QTensor) :
    Prop where
  whole : g.tensor i = some t
  axis_lt : axis.toNat < t.ndim
  parts : Parts g is axis.toNat t ts
  sum : (ts.map fun s => s.dim axis.toNat).sum = t.dim axis.toNat

variable {g : Net} {o : Operator} {p : Prepared}

theorem parts_of_mapM {is : List ℤ} {ax : ℕ} {t : QTensor} {ts : List QTensor}
    {f : ℤ × ℕ → Except Bytes QTensor} (hf : ∀ i k s, f (i, k) = .ok s →
      g.operand i (some t.type) (some t.ndim) = some s ∧ sameBut ax s t = true)
    (h : is.zipIdx.mapM f = .ok ts) : Parts g is ax t ts := by
  have hall := mapM_ok h
  have hfst : is = is.zipIdx.map Prod.fst := (zipIdx_map_fst 0 is).symm
  rw [Parts, hfst, forall₂_map_left_iff]
  refine hall.imp fun ik s hs => ?_
  obtain ⟨hop, hsame⟩ := hf ik.1 ik.2 s hs
  obtain ⟨hs, htype, hdim⟩ := operand_some hop
  exact ⟨hs, htype _ rfl, hdim _ rfl, hsame⟩

/-- **A concatenation that is let through.** -/
theorem prepareConcat_ok (h : prepareConcat g o = .ok p) :
    ∃ y xs, PartsReady g (p.output 0) p.inputs p.axis y xs := by
  unfold prepareConcat at h
  simp only [Except.bind_eq_ok_iff, orFail_ok, refuse_ok] at h
  obtain ⟨-, -, y, hy, -, hax, xs, hxs, -, hsum, -, -, h⟩ := h
  obtain ⟨hyt, -, -⟩ := operand_some hy
  push Not at hax hsum
  injection h with h
  have hop : p.toOp = o.toOp := by rw [← h]
  have haxis : p.axis = if o.axis < 0 then o.axis + y.ndim else o.axis := by rw [← h]
  refine ⟨y, xs, ⟨?_, ?_, ?_, ?_⟩⟩
  · rw [hop]; exact hyt
  · rw [haxis]
    omega
  · rw [haxis, congrArg Op.inputs hop]
    refine parts_of_mapM (fun i k s hs => ?_) hxs
    simp only [Except.bind_eq_ok_iff, orFail_ok, refuse_ok] at hs
    obtain ⟨x, hx, -, hsame, hs⟩ := hs
    cases hs
    exact ⟨hx, by simpa using hsame⟩
  · rw [haxis]
    exact hsum.1

/-- **A split that is let through.** -/
theorem prepareSplit_ok (h : prepareSplit g o = .ok p) :
    ∃ x ys, PartsReady g (p.input 0) p.outputs p.axis x ys := by
  unfold prepareSplit at h
  simp only [Except.bind_eq_ok_iff, orFail_ok, refuse_ok] at h
  obtain ⟨-, -, x, hx, axis, haxis, -, -, -, hax, ys, hys, -, hsum, h⟩ := h
  obtain ⟨hxt, -, -⟩ := operand_some hx
  push Not at hax hsum
  injection h with h
  have hop : p.toOp = o.toOp := by rw [← h]
  have haxis : p.axis = if (axis.int32 0).toInt < 0 then (axis.int32 0).toInt + x.ndim
    else (axis.int32 0).toInt := by rw [← h]
  refine ⟨x, ys, ⟨?_, ?_, ?_, ?_⟩⟩
  · rw [hop]; exact hxt
  · rw [haxis]
    omega
  · rw [haxis, congrArg Op.outputs hop]
    refine parts_of_mapM (fun i k s hs => ?_) hys
    simp only [Except.bind_eq_ok_iff, orFail_ok, refuse_ok] at hs
    obtain ⟨y, hy, -, hsame, hs⟩ := hs
    cases hs
    exact ⟨hy, by simpa using hsame⟩
  · rw [haxis]
    exact hsum

/-! ### Inside the tensors -/

section

variable {i axis : ℤ} {is : List ℤ} {t : QTensor} {ts : List QTensor} {kept : ℕ → Prop} {m₀ m : Mem}

/-- The tensors with their memory are found. -/
theorem PartsReady.tensors (hr : PartsReady g i is axis t ts) :
    ∃ l, g.tensors is = some l ∧ l.map Prod.snd = ts ∧ ∀ bt ∈ l, ∃ j ∈ is, bt.1 = j.toNat ∧
      g.tensor j = some bt.2 ∧ bt.2.type = t.type ∧ bt.2.ndim = t.ndim ∧
      sameBut axis.toNat bt.2 t = true := by
  have hparts := hr.parts
  clear hr
  unfold Parts at hparts
  induction hparts with
  | nil => exact ⟨[], rfl, rfl, fun bt h => absurd h not_mem_nil⟩
  | @cons j s js ss hs _ ih =>
    obtain ⟨l, hl, hsnd, hall⟩ := ih
    refine ⟨(j.toNat, s) :: l, ?_, by rw [map_cons, hsnd], ?_⟩
    · unfold Net.tensors at hl ⊢
      rw [mapM_cons, hl, hs.1]
      rfl
    · intro bt hbt
      rcases mem_cons.mp hbt with rfl | hbt
      · exact ⟨j, mem_cons_self, rfl, hs.1, hs.2⟩
      · obtain ⟨k, hk, hrest⟩ := hall bt hbt
        exact ⟨k, mem_cons_of_mem _ hk, hrest⟩

/-- All stretches together fill the larger tensor. -/
theorem PartsReady.fills (hr : PartsReady g i is axis t ts) {l : List (ℕ × QTensor)}
    (hl : l.map Prod.snd = ts) :
    ((stretches (t.outer axis.toNat) l).map fun s =>
      s.t.dim axis.toNat * t.inner axis.toNat).sum = t.bytes := by
  rw [sum_stretches _ _ fun s => s.dim axis.toNat * t.inner axis.toNat, QTensor.bytes_eq hr.axis_lt,
    QTensor.stretch, ← hr.sum, ← hl, map_map, sum_map_mul_right]
  rfl

/-- A stretch of a smaller tensor lies inside it. -/
theorem stretch_le {s : Stretch} (hm : Sized g.size m) (hax : axis.toNat < t.ndim) {j : ℤ}
    (hb : s.block = j.toNat) (ht : g.tensor j = some s.t) (htype : s.t.type = t.type)
    (hn : s.t.ndim = t.ndim) (hsame : sameBut axis.toNat s.t t = true)
    (hk : s.k < t.outer axis.toNat) :
    s.k * (s.t.dim axis.toNat * t.inner axis.toNat) + s.t.dim axis.toNat * t.inner axis.toNat ≤
      (m s.block).length := by
  rw [hm, hb, Net.size_tensor ht, QTensor.bytes_eq (hn.symm ▸ hax), QTensor.stretch,
    QTensor.outer_eq hn hsame, QTensor.inner_eq htype hn hsame, ← Nat.succ_mul]
  exact Nat.mul_le_mul_right _ hk

/-- **A concatenation's steps stay inside the tensors.** -/
theorem join_inside {y : QTensor} {xs : List QTensor} {l : List (ℕ × QTensor)}
    (hr : PartsReady g (p.output 0) p.inputs p.axis y xs) (hl : g.tensors p.inputs = some l)
    (hfree : ¬ kept (p.output 0).toNat) : ∀ s ∈ p.joinSteps y l, s.Inside g.size kept m₀ := by
  obtain ⟨l', hl', hsnd, hall⟩ := hr.tensors
  obtain rfl := Option.some.inj (hl.symm.trans hl')
  intro s hs
  obtain ⟨a, ha, k, hsk, hend⟩ := laid_within hs
  rw [hr.fills hsnd, Nat.zero_add, ← Net.size_tensor hr.whole] at hend
  obtain ⟨hrow, hat⟩ := mem_stretches ha
  obtain ⟨j, -, hb, ht, htype, hn, hsame⟩ := hall _ hat
  unfold Prepared.joinPart at hsk
  dsimp only at hsk
  split at hsk
  · simp only [mem_map, mem_range] at hsk
    obtain ⟨c, hc, rfl⟩ := hsk
    refine ⟨hfree, fun m hm => ?_⟩
    have hle := stretch_le hm.sized hr.axis_lt hb ht htype hn hsame hrow
    have hbyte := Mem.byte_yields (m := m) (b := a.block)
      (i := ((a.k * (a.t.dim p.axis.toNat * y.inner p.axis.toNat) + c : ℕ) : ℤ))
      (by omega) (by omega)
    push_cast at hbyte
    refine hbyte.bind fun v _ => Yields.pure ?_
    change k + c + 1 ≤ g.size (p.output 0).toNat
    omega
  · obtain rfl := mem_singleton.mp hsk
    refine ⟨hfree, fun m hm => ?_⟩
    have hle := stretch_le hm.sized hr.axis_lt hb ht htype hn hsame hrow
    refine (Mem.bytes_yields hle).imp fun v hv => ?_
    rw [hv]
    exact hend

/-- **A split's steps stay inside the tensors.** -/
theorem part_inside {x : QTensor} {ys : List QTensor} {l : List (ℕ × QTensor)}
    (hr : PartsReady g (p.input 0) p.outputs p.axis x ys) (hl : g.tensors p.outputs = some l)
    (hfree : ∀ j ∈ p.outputs, ¬ kept j.toNat) :
    ∀ s ∈ p.splitSteps x l, s.Inside g.size kept m₀ := by
  obtain ⟨l', hl', hsnd, hall⟩ := hr.tensors
  obtain rfl := Option.some.inj (hl.symm.trans hl')
  intro s hs
  obtain ⟨a, ha, k, hsk, hend⟩ := laid_within hs
  rw [hr.fills hsnd, Nat.zero_add, ← Net.size_tensor hr.whole] at hend
  obtain ⟨hrow, hat⟩ := mem_stretches ha
  obtain ⟨j, hj, hb, ht, htype, hn, hsame⟩ := hall _ hat
  obtain rfl := mem_singleton.mp hsk
  have hblock : a.block = j.toNat := hb
  refine ⟨by rw [hblock]; exact hfree j hj, fun m hm => ?_⟩
  have hle := stretch_le hm.sized hr.axis_lt hb ht htype hn hsame hrow
  rw [hm.sized] at hle
  rw [← hm.sized] at hend
  refine (Mem.bytes_yields hend).imp fun v hv => ?_
  rw [hv]
  exact hle

end

end Hassmic.Mww
