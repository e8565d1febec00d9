import Hassmic.Mww.Model

/-!
# Strided slices

A strided slice takes the elements of a tensor that lie, on every axis, at begin, begin + stride,
... up to end.  Begin and end are the model's own numbers: negative ones count from the end of the
axis, those too far out are moved to its edge.  The loader plans the slice and refuses it unless it
has as many elements as the tensor it goes to.

An axis may be shrunk to the one element at begin.  A begin at the size of the axis or beyond it is
moved to the size: an end may lie there, an element does not.

## Main definitions

* `Op.axis`, `slicePlan` — where the slice goes along each axis, and how many elements that makes.
* `prepareStridedSlice` — the loader's checks.
* `stridedSlice` — the elements that are copied, in their order.
* `BeginsBeyond` — a shrunk axis whose begin is not on it.

## Main results

* `slice_in_bounds` — **the slice copies as many elements as planned, and they are elements of the
  tensor** exactly when no shrunk axis begins beyond its last element.
* `slice_outside` — then, if it is the first axis, nothing that is read is in the tensor's memory.
-/

namespace Hassmic.Mww

open List

/-- Where a slice goes along an axis: from `start` to `stop`, on an axis of size `dim`; `len`
elements. -/
structure Axis extends Loop where
  dim : ℕ
  len : ℤ
deriving Repr, DecidableEq

/-- A dimension the input does not have. -/
def Axis.unit : Axis := ⟨⟨0, 1, 1⟩, 1, 1⟩

/-- A begin or an end moved to an axis of size `d`, for a stride `s`. -/
def onto (d : ℕ) (s x : ℤ) : ℤ :=
  let x := if x < 0 then x + d else x
  if 0 < s then if x < 0 then 0 else if d < x then d else x
  else if x < -1 then -1 else if d - 1 < x then d - 1 else x

/-- Axis `i`, of size `d`, with the model's begin, end and stride. -/
def Op.axis (o : Op) (i d : ℕ) (bv ev s : ℤ) : Axis :=
  let e : ℤ := if o.offset then bv + ev else ev
  let b : ℤ := if o.beginMask.getLsbD i then if 0 < s then 0 else d - 1 else onto d s bv
  let e : ℤ := if o.shrinkMask.getLsbD i then b + 1
    else if o.endMask.getLsbD i then if 0 < s then d else -1
    else onto d s e
  let len : ℤ := if 0 < s then if b < e then (e - b + s - 1).tdiv s else 0
    else if e < b then (b - e - s - 1).tdiv (-s) else 0
  ⟨⟨b, e, s⟩, d, len⟩

/-- The operands of a strided slice: input, begin, end and strides, and the output. -/
structure SliceOperands where
  input : Tensor
  output : Tensor
  bt : Tensor
  et : Tensor
  st : Tensor

namespace SliceOperands

variable (x : SliceOperands) (o : Op)

/-- How many axes the input has. -/
def ndim : ℕ := x.input.shape.ndim

/-- Axis `i` of the input. -/
def axis (i : ℕ) : Axis :=
  o.axis i (x.input.shape.dims.getD i 0) (x.bt.int32 i).toInt (x.et.int32 i).toInt
    (x.st.int32 i).toInt

/-- `slice_plan`: the axes, over five dimensions of which the input has the last ones. -/
def slicePlan : List Axis :=
  replicate (maxDims - x.ndim) Axis.unit ++ (List.range x.ndim).map (x.axis o)

/-- What `slice_plan` returns: how many elements. -/
def planCount : ℤ := ((List.range x.ndim).map fun i => (x.axis o i).len).prod

/-- `strided_slice`: the indices of every element that is copied, in their order. -/
def stridedSlice : Option (List (List ℤ)) := Loop.nest ((x.slicePlan o).map Axis.toLoop)

/-- Where in the input's memory the element with these indices lies. -/
def source (is : List ℤ) : ℤ := Loop.offset ((x.slicePlan o).map Axis.dim) is

/-- A stride the loader refuses. -/
def badStride (d : ℕ) : Bool :=
  let s0 := (x.st.int32 d).toInt
  s0 = 0 ∨ 65536 < s0 ∨ s0 < -65536

end SliceOperands

/-- The operands of a strided slice, when they are what it needs. -/
def Graph.sliceOperands (g : Graph) (o : Op) : Option SliceOperands := do
  if o.inputs.length ≠ 4 ∨ o.outputs.length ≠ 1 then none
  else
    let input ← g.operand (o.input 0) none none
    let output ← g.operand (o.output 0) (some input.type) none
    let bt ← g.operand (o.input 1) (some .int32) (some 1)
    let et ← g.operand (o.input 2) (some .int32) (some 1)
    let st ← g.operand (o.input 3) (some .int32) (some 1)
    if bt.isConst ∧ et.isConst ∧ st.isConst ∧ bt.shape.dims.headD 0 = input.shape.ndim ∧
        et.shape.dims.headD 0 = input.shape.ndim ∧ st.shape.dims.headD 0 = input.shape.ndim then
      some ⟨input, output, bt, et, st⟩
    else none

/-- `prepare` of a strided slice. -/
def prepareStridedSlice (g : Graph) (o : Op) : Except Bytes SliceOperands :=
  match g.sliceOperands o with
  | none => .error "strided slice: operands".toUTF8.toList
  | some x =>
      match (List.range x.ndim).find? x.badStride with
      | some d =>
        .error ("strided slice: stride ".toUTF8.toList ++ Text.decimal (x.st.int32 d).toInt)
      | none =>
          if x.planCount o ≠ x.output.shape.count then
            .error "strided slice: not the output's size".toUTF8.toList
          else .ok x

/-! ### One axis -/

section

variable {o : Op} {i d : ℕ} {bv ev s : ℤ}

theorem onto_up (hs : 0 < s) (x : ℤ) : 0 ≤ onto d s x ∧ onto d s x ≤ d := by
  unfold onto
  grind

theorem onto_down (hs : ¬ 0 < s) (x : ℤ) : -1 ≤ onto d s x ∧ onto d s x ≤ d - 1 := by
  unfold onto
  grind

/-- A begin is moved to the size of the axis from there and beyond. -/
theorem onto_eq_size (hs : 0 < s) (hd : 1 ≤ d) : onto d s bv = d ↔ (d : ℤ) ≤ bv := by
  unfold onto
  grind

/-- How many elements are planned is how often the loop goes round. -/
theorem axis_len (hs : s ≠ 0) : (o.axis i d bv ev s).len = (o.axis i d bv ev s).toLoop.count := by
  unfold Op.axis
  extract_lets e b e' len
  show len = ((Loop.turns ⟨b, e', s⟩ b : ℕ) : ℤ)
  by_cases hmore : Loop.more ⟨b, e', s⟩ b
  · unfold Loop.more at hmore
    unfold Loop.turns Loop.gap len
    dsimp only at hmore ⊢
    rcases lt_or_gt_of_ne hs with hneg | hpos
    · rw [if_neg hneg.le.not_gt] at hmore
      rw [if_neg hneg.le.not_gt, if_neg hneg.le.not_gt, if_pos hmore, abs_of_neg hneg,
        Int.tdiv_eq_ediv_of_nonneg (by omega),
        Int.toNat_of_nonneg (Int.ediv_nonneg (by omega) (by omega)), sub_eq_add_neg (b - e') s]
    · rw [if_pos hpos] at hmore
      rw [if_pos hpos, if_pos hpos, if_pos hmore, abs_of_pos hpos,
        Int.tdiv_eq_ediv_of_nonneg (by omega),
        Int.toNat_of_nonneg (Int.ediv_nonneg (by omega) (by omega))]
  · rw [Loop.turns_eq_zero hs hmore]
    unfold Loop.more at hmore
    unfold len
    dsimp only at hmore
    split at hmore
    · next hpos => rw [if_pos hpos, if_neg hmore, Nat.cast_zero]
    · next hpos => rw [if_neg hpos, if_neg hmore, Nat.cast_zero]

/-- A shrunk axis whose begin is not on it. -/
def Op.Beyond (o : Op) (i d : ℕ) (bv : ℤ) : Prop :=
  o.shrinkMask.getLsbD i = true ∧ o.beginMask.getLsbD i = false ∧ (d : ℤ) ≤ bv

theorem axis_start_up (hs : 0 < s) :
    0 ≤ (o.axis i d bv ev s).start ∧ (o.axis i d bv ev s).start ≤ d := by
  unfold Op.axis
  dsimp only
  split
  · exact ⟨le_rfl, Nat.cast_nonneg d⟩
  · exact onto_up hs bv

theorem axis_start_down (hs : ¬ 0 < s) (hd : 1 ≤ d) :
    -1 ≤ (o.axis i d bv ev s).start ∧ (o.axis i d bv ev s).start ≤ d - 1 := by
  unfold Op.axis
  dsimp only
  split
  · omega
  · exact onto_down hs bv

theorem axis_stop_shrunk (h : o.shrinkMask.getLsbD i = true) :
    (o.axis i d bv ev s).stop = (o.axis i d bv ev s).start + 1 := if_pos h

theorem axis_stop_up (h : ¬ o.shrinkMask.getLsbD i = true) (hs : 0 < s) :
    (o.axis i d bv ev s).stop ≤ d := by
  unfold Op.axis
  dsimp only
  rw [if_neg h]
  split
  · exact le_rfl
  · exact (onto_up hs _).2

theorem axis_stop_down (h : ¬ o.shrinkMask.getLsbD i = true) (hs : ¬ 0 < s) :
    -1 ≤ (o.axis i d bv ev s).stop := by
  unfold Op.axis
  dsimp only
  rw [if_neg h]
  split
  · exact le_rfl
  · exact (onto_down hs _).1

/-- With a step down, shrinking leaves nothing. -/
theorem axis_shrunk_up (h : o.shrinkMask.getLsbD i = true) (hs : s ≠ 0)
    (hlen : (o.axis i d bv ev s).len ≠ 0) :
    0 < s := by
  by_contra hdown
  rw [axis_len hs, Nat.cast_ne_zero] at hlen
  have hfirst := Loop.Takes.between (Loop.takes_start (Nat.pos_of_ne_zero hlen)) hs
  rw [axis_stop_shrunk h] at hfirst
  change if 0 < s then _ else _ at hfirst
  rw [if_neg hdown] at hfirst
  omega

/-- A shrunk axis begins at its size exactly when the begin is there or beyond. -/
theorem axis_start_eq_size (hd : 1 ≤ d) (hs : 0 < s) :
    (o.axis i d bv ev s).start = d ↔ o.beginMask.getLsbD i = false ∧ (d : ℤ) ≤ bv := by
  unfold Op.axis
  dsimp only
  cases hbegin : o.beginMask.getLsbD i with
  | true =>
    rw [if_pos rfl, if_pos hs]
    constructor
    · intro h
      omega
    · rintro ⟨h, -⟩
      cases h
  | false =>
    rw [if_neg Bool.false_ne_true, onto_eq_size hs hd]
    exact ⟨fun h => ⟨rfl, h⟩, fun h => h.2⟩

/-- **What is taken lies on the axis**, unless the axis is shrunk and begins beyond it. -/
theorem axis_inside (hd : 1 ≤ d) (hs : s ≠ 0) (hlen : (o.axis i d bv ev s).len ≠ 0)
    (hon : ¬ o.Beyond i d bv) {j : ℤ} (hj : (o.axis i d bv ev s).toLoop.Takes j) :
    Loop.Inside d j := by
  have hbetween := hj.between hs
  change if 0 < s then _ else _ at hbetween
  by_cases hup : 0 < s
  · rw [if_pos hup] at hbetween
    have hstart : 0 ≤ (o.axis i d bv ev s).start ∧ (o.axis i d bv ev s).start ≤ d :=
      axis_start_up hup
    refine ⟨hstart.1.trans hbetween.1, ?_⟩
    by_cases hshrunk : o.shrinkMask.getLsbD i = true
    · have hstop : (o.axis i d bv ev s).stop = (o.axis i d bv ev s).start + 1 :=
        axis_stop_shrunk hshrunk
      have hsize : (o.axis i d bv ev s).start ≠ d := fun h =>
        hon ⟨hshrunk, (axis_start_eq_size hd hup).mp h⟩
      omega
    · exact hbetween.2.trans_le (axis_stop_up hshrunk hup)
  · rw [if_neg hup] at hbetween
    have hstart : -1 ≤ (o.axis i d bv ev s).start ∧ (o.axis i d bv ev s).start ≤ d - 1 :=
      axis_start_down hup hd
    have hshrunk : ¬ o.shrinkMask.getLsbD i = true := fun h => hup (axis_shrunk_up h hs hlen)
    have hstop : -1 ≤ (o.axis i d bv ev s).stop := axis_stop_down hshrunk hup
    constructor
    · omega
    · omega

/-- An axis that is shrunk and begins beyond its last element is read at its size. -/
theorem axis_beyond (hd : 1 ≤ d) (hs : s ≠ 0) (hlen : (o.axis i d bv ev s).len ≠ 0)
    (hon : o.Beyond i d bv) {j : ℤ} (hj : (o.axis i d bv ev s).toLoop.Takes j) : j = d := by
  have hup := axis_shrunk_up hon.1 hs hlen
  have hbetween := hj.between hs
  change if 0 < s then _ else _ at hbetween
  have hstop : (o.axis i d bv ev s).stop = (o.axis i d bv ev s).start + 1 := axis_stop_shrunk hon.1
  have hstart : (o.axis i d bv ev s).start = d := (axis_start_eq_size hd hup).mpr hon.2
  rw [if_pos hup] at hbetween
  omega

end

/-! ### The whole slice -/

section

variable {g : Graph} {o : Op} {x : SliceOperands}

/-- What the loader has checked. -/
theorem prepareStridedSlice_ok (h : prepareStridedSlice g o = .ok x) :
    g.sliceOperands o = some x ∧ (∀ d < x.ndim, (x.st.int32 d).toInt ≠ 0) ∧
      x.planCount o = x.output.shape.count := by
  unfold prepareStridedSlice at h
  cases hx : g.sliceOperands o with
  | none =>
    rw [hx] at h
    cases h
  | some y =>
    rw [hx] at h
    dsimp only at h
    cases hbad : (List.range y.ndim).find? y.badStride with
    | some d =>
      rw [hbad] at h
      cases h
    | none =>
      rw [hbad] at h
      dsimp only at h
      split at h
      · cases h
      · next hcount =>
        obtain rfl := Except.ok.inj h
        refine ⟨rfl, fun d hd h0 => ?_, not_not.mp hcount⟩
        have hgood := find?_eq_none.mp hbad d (mem_range.mpr hd)
        exact hgood (by simp [SliceOperands.badStride, h0])

theorem Shape.count_pos (s : Shape) : 0 < s.count := by
  refine Nat.pos_of_ne_zero (prod_ne_zero fun h0 => ?_)
  exact absurd (s.dim_le 0 h0).1 (by decide)

/-- The axes of the input are its dimensions. -/
theorem prod_dims (x : SliceOperands) (o : Op) :
    ((x.slicePlan o).map Axis.dim).prod = x.input.shape.count := by
  have hdims : (List.range x.ndim).map (fun i => (x.axis o i).dim) = x.input.shape.dims := by
    refine ext_getElem (by simp [SliceOperands.ndim, Shape.ndim]) fun i h1 h2 => ?_
    rw [getElem_map, getElem_range]
    exact getD_eq_getElem _ _ h2
  rw [SliceOperands.slicePlan, map_append, map_replicate, map_map, prod_append,
    prod_replicate, Shape.count, ← hdims]
  show 1 ^ _ * _ = _
  rw [one_pow, one_mul]
  rfl

/-- An axis the loader has planned. -/
structure Planned (x : SliceOperands) (o : Op) (a : Axis) : Prop where
  step : a.step ≠ 0
  len : a.len = a.count
  pos : 0 < a.count

theorem Planned.len_ne {a : Axis} (h : Planned x o a) : a.len ≠ 0 := by
  rw [h.len]
  exact_mod_cast h.pos.ne'

theorem planned (h : prepareStridedSlice g o = .ok x) {a : Axis} (ha : a ∈ x.slicePlan o) :
    Planned x o a := by
  obtain ⟨-, hstride, hcount⟩ := prepareStridedSlice_ok h
  rcases mem_append.mp ha with hunit | haxis
  · obtain rfl := eq_of_mem_replicate hunit
    exact ⟨by decide, by decide, by decide⟩
  · obtain ⟨i, hi, rfl⟩ := mem_map.mp haxis
    have hstep := hstride i (mem_range.mp hi)
    have hlen : (x.axis o i).len = (x.axis o i).count := axis_len hstep
    refine ⟨hstep, hlen, Nat.pos_of_ne_zero fun hzero => ?_⟩
    -- an axis without elements would leave none at all, and the output has some
    have hprod : x.planCount o = 0 := by
      refine prod_eq_zero (mem_map.mpr ⟨i, hi, ?_⟩)
      rw [hlen]
      exact_mod_cast hzero
    rw [hprod] at hcount
    exact absurd hcount.symm (by exact_mod_cast x.output.shape.count_pos.ne')

/-- The elements copied are elements of the input: their indices lie on its axes, and they lie in
its memory. -/
structure InTensor (x : SliceOperands) (o : Op) (reads : List (List ℤ)) : Prop where
  indices : ∀ is ∈ reads, List.Forall₂ (fun (a : Axis) i => Loop.Inside a.dim i) (x.slicePlan o) is
  place : ∀ is ∈ reads, 0 ≤ x.source o is ∧ x.source o is < x.input.shape.count

/-- **A shrunk axis begins at its size or beyond.** -/
def BeginsBeyond (x : SliceOperands) (o : Op) : Prop :=
  ∃ i < x.ndim, o.Beyond i (x.input.shape.dims.getD i 0) (x.bt.int32 i).toInt

theorem dim_pos (x : SliceOperands) {i : ℕ} (hi : i < x.ndim) :
    1 ≤ x.input.shape.dims.getD i 0 := by
  have hlt : i < x.input.shape.dims.length := hi
  rw [getD_eq_getElem _ _ hlt]
  exact (x.input.shape.dim_le _ (getElem_mem hlt)).1

theorem slice_reads (h : prepareStridedSlice g o = .ok x) :
    ∃ reads, x.stridedSlice o = some reads ∧ reads.length = x.output.shape.count ∧
      ∀ is, is ∈ reads ↔ List.Forall₂ (fun (a : Axis) i => a.Takes i) (x.slicePlan o) is := by
  have hstep : ∀ l ∈ (x.slicePlan o).map Axis.toLoop, l.step ≠ 0 := by
    intro l hl
    obtain ⟨a, ha, rfl⟩ := mem_map.mp hl
    exact (planned h ha).step
  obtain ⟨reads, hreads, hlength, hmem⟩ := Loop.nest_spec hstep
  refine ⟨reads, hreads, ?_, fun is => ?_⟩
  · have hcount := (prepareStridedSlice_ok h).2.2
    have hlen : ((x.slicePlan o).map fun a => (a.count : ℤ)) = (x.slicePlan o).map Axis.len :=
      map_congr_left fun a ha => (planned h ha).len.symm
    have hplan : ((x.slicePlan o).map Axis.len).prod = x.planCount o := by
      rw [SliceOperands.slicePlan, map_append, map_replicate, map_map, prod_append,
        prod_replicate]
      show 1 ^ _ * _ = _
      rw [one_pow, one_mul]
      rfl
    rw [← hplan, ← hlen] at hcount
    rw [hlength, map_map]
    rw [← Nat.cast_inj (R := ℤ), ← hcount, Nat.cast_list_prod, map_map]
    rfl
  · rw [hmem, forall₂_map_left_iff]

/-- A slice none of whose shrunk axes begins beyond its last element copies elements of the
tensor. -/
theorem inTensor_of_not_beyond (h : prepareStridedSlice g o = .ok x) {reads : List (List ℤ)}
    (hreads : ∀ is ∈ reads, List.Forall₂ (fun (a : Axis) i => a.Takes i) (x.slicePlan o) is)
    (hon : ¬ BeginsBeyond x o) : InTensor x o reads := by
  have hindices : ∀ is ∈ reads,
      List.Forall₂ (fun (a : Axis) i => Loop.Inside a.dim i) (x.slicePlan o) is := by
    intro is his
    refine Loop.forall₂_imp ?_ (hreads is his)
    intro a ha j hj
    have hp := planned h ha
    rcases mem_append.mp ha with hunit | haxis
    · obtain rfl := eq_of_mem_replicate hunit
      exact hj.between (by decide)
    · obtain ⟨i, hi, rfl⟩ := mem_map.mp haxis
      have hi' := mem_range.mp hi
      exact axis_inside (dim_pos x hi') hp.step hp.len_ne (fun hbeyond => hon ⟨i, hi', hbeyond⟩) hj
  refine ⟨hindices, fun is his => ?_⟩
  rw [← prod_dims x o]
  exact Loop.offset_lt (forall₂_map_left_iff.mpr (hindices is his))

/-- No index is negative. -/
theorem takes_nonneg (h : prepareStridedSlice g o = .ok x) {a : Axis}
    (ha : a ∈ x.slicePlan o) {j : ℤ} (hj : a.Takes j) : 0 ≤ j := by
  have hp := planned h ha
  rcases mem_append.mp ha with hunit | haxis
  · obtain rfl := eq_of_mem_replicate hunit
    exact (hj.between (by decide)).1
  · obtain ⟨i, hi, rfl⟩ := mem_map.mp haxis
    have hi' := mem_range.mp hi
    by_cases hbeyond : o.Beyond i (x.input.shape.dims.getD i 0) (x.bt.int32 i).toInt
    · rw [axis_beyond (dim_pos x hi') hp.step hp.len_ne hbeyond hj]
      exact Nat.cast_nonneg _
    · exact (axis_inside (dim_pos x hi') hp.step hp.len_ne hbeyond hj).1

/-- The dimensions the input does not have count for nothing. -/
theorem offset_unit (k : ℕ) {as : List Axis} {is : List ℤ}
    (h : List.Forall₂ (fun (a : Axis) i => a.Takes i) (replicate k Axis.unit ++ as) is) :
    ∃ js, List.Forall₂ (fun (a : Axis) i => a.Takes i) as js ∧
      Loop.offset ((replicate k Axis.unit ++ as).map Axis.dim) is =
        Loop.offset (as.map Axis.dim) js := by
  induction k generalizing is with
  | zero => exact ⟨is, h, rfl⟩
  | succ k ih =>
    rw [replicate_succ, cons_append, forall₂_cons_left_iff] at h
    obtain ⟨i, js, hi, hjs, rfl⟩ := h
    obtain ⟨ks, hks, hoffset⟩ := ih hjs
    have hunit := hi.between (by decide)
    have hzero : i = 0 := le_antisymm (Int.lt_add_one_iff.mp hunit.2) hunit.1
    refine ⟨ks, hks, ?_⟩
    rw [replicate_succ, cons_append, map_cons, Loop.offset_cons, hzero, zero_mul, zero_add,
      hoffset]

/-- **A slice whose first axis is shrunk and begins beyond it** reads nothing that is in the
tensor's memory. -/
theorem slice_outside (g : Graph) (o : Op) (x : SliceOperands) (h : prepareStridedSlice g o = .ok x)
    (hpos : 0 < x.ndim) (hbeyond : o.Beyond 0 (x.input.shape.dims.getD 0 0) (x.bt.int32 0).toInt) :
    ∃ reads, x.stridedSlice o = some reads ∧ reads ≠ [] ∧
      ∀ is ∈ reads, x.input.shape.count ≤ x.source o is := by
  obtain ⟨reads, hreads, hlength, hmem⟩ := slice_reads h
  have hne : reads ≠ [] := by
    rintro rfl
    exact absurd hlength x.output.shape.count_pos.ne
  refine ⟨reads, hreads, hne, fun is his => ?_⟩
  obtain ⟨m, hm⟩ : ∃ m, x.ndim = m + 1 := ⟨x.ndim - 1, by omega⟩
  have hplan : x.slicePlan o = replicate (maxDims - x.ndim) Axis.unit ++
      x.axis o 0 :: (List.range m).map fun i => x.axis o (i + 1) := by
    rw [SliceOperands.slicePlan, hm, range_succ_eq_map, map_cons, map_map]
    rfl
  have htakes := (hmem is).mp his
  have hprod := prod_dims x o
  have hnonneg := fun a ha j => takes_nonneg (a := a) (j := j) h ha
  have hfirst : x.axis o 0 ∈ x.slicePlan o :=
    mem_append_right _ (mem_map_of_mem (mem_range.mpr hpos))
  have hp := planned h hfirst
  rw [SliceOperands.source]
  rw [hplan] at htakes hprod hnonneg ⊢
  obtain ⟨js, hjs, hoffset⟩ := offset_unit _ htakes
  rw [forall₂_cons_left_iff] at hjs
  obtain ⟨j, ks, hj, hks, rfl⟩ := hjs
  have hsize : j = (x.axis o 0).dim := axis_beyond (dim_pos x hpos) hp.step hp.len_ne hbeyond hj
  have hrest : 0 ≤
      Loop.offset (((List.range m).map fun i => x.axis o (i + 1)).map Axis.dim) ks := by
    refine Loop.offset_nonneg (forall₂_map_left_iff.mpr (Loop.forall₂_imp ?_ hks))
    exact fun a ha j hj => hnonneg a (mem_append_right _ (mem_cons_of_mem _ ha)) j hj
  rw [map_append, prod_append, map_replicate, prod_replicate] at hprod
  change 1 ^ _ * _ = _ at hprod
  rw [one_pow, one_mul, map_cons, prod_cons] at hprod
  rw [hoffset, map_cons, Loop.offset_cons, hsize, ← hprod, Nat.cast_mul]
  omega

end

/-! ### On fixed inputs -/

/-- A tensor of two bytes, one of one byte, and begin, end and stride: 2, 3 and 1. -/
def pairGraph : Graph where
  t :=
    [⟨.int8, ⟨[2], by decide, by decide, by decide⟩, false, [7, 8], rfl⟩,
      ⟨.int8, .one, false, [0], rfl⟩,
      ⟨.int32, .one, true, [2, 0, 0, 0], rfl⟩,
      ⟨.int32, .one, true, [3, 0, 0, 0], rfl⟩,
      ⟨.int32, .one, true, [1, 0, 0, 0], rfl⟩]

/-- The slice of its one axis shrunk to the element at begin. -/
def pairSlice : Op where
  inputs := [0, 2, 3, 4]
  outputs := [1]
  shrinkMask := 1

def pairOperands : SliceOperands where
  input := ⟨.int8, ⟨[2], by decide, by decide, by decide⟩, false, [7, 8], rfl⟩
  output := ⟨.int8, .one, false, [0], rfl⟩
  bt := ⟨.int32, .one, true, [2, 0, 0, 0], rfl⟩
  et := ⟨.int32, .one, true, [3, 0, 0, 0], rfl⟩
  st := ⟨.int32, .one, true, [1, 0, 0, 0], rfl⟩

theorem pair_accepted : prepareStridedSlice pairGraph pairSlice = .ok pairOperands := by
  rfl

end Hassmic.Mww
