import Hassmic.Mww.Join

/-!
# Operators that are let through

The operators that have no arithmetic of their own: a table, a reshape, a strided slice, the number
of a variable.  With the layers and those that join and part tensors, this is what every operator
that the loader lets through does to the memory of its graph.

## Main definitions

* `Prepared.tableSteps`, `Prepared.reshapeSteps`, `Prepared.sliceSteps`, `Prepared.handleSteps`.
* `Net.runTensors` — an operator that works on tensors.
* `Ready` — what is known of an operator that is let through.

## Main results

* `prepare_ready` — the loader makes sure of it.
* `arithmetic_safe` — **layers, concatenations and splits come to their end**: no sum overflows, and
  no index is outside its tensor.
-/

namespace Hassmic.Mww

open Steps List Option

namespace Prepared

variable (o : Prepared)

/-- A `LOGISTIC` or a `QUANTIZE`: each byte is looked up. -/
def tableSteps (x : QTensor) : List Step :=
  (List.range x.count).map fun k => {
    block := (o.output 0).toNat
    place := k
    value := fun m => do
      let b ← m.byte (o.input 0).toNat k
      return [← o.lut[(int8Of b + 128).toNat]?] }

/-- A `RESHAPE`: the bytes are copied. -/
def reshapeSteps (y : QTensor) : List Step :=
  [{ block := (o.output 0).toNat, place := 0,
     value := fun m => m.bytes (o.input 0).toNat 0 y.bytes }]

/-- A `STRIDED_SLICE`: the elements with these indices are copied. -/
def sliceSteps (x : SliceOperands) (reads : List (List ℤ)) : List Step :=
  let es := x.input.type.size
  reads.zipIdx.map fun (is, k) => {
    block := (o.output 0).toNat
    place := k * es
    value := fun m =>
      let src := x.source o.toOp is
      if src < 0 then none else m.bytes (o.input 0).toNat (src.toNat * es) es }

/-- A `VAR_HANDLE`: the variable's number. -/
def handleSteps : List Step :=
  [{ block := (o.output 0).toNat, place := 0,
     value := fun _ => some (Wire.put32 (Int32.ofInt o.sub)).1 }]

end Prepared

/-- A tensor with these bytes in it. -/
def Tensor.holding (t : Tensor) (d : Bytes) : Option Tensor :=
  if h : d.length = t.shape.count * t.type.size then
    some { t with data := d, data_length := h } else none

namespace Net

variable (g : Net)

/-- The operands of a strided slice, with begin, end and strides as they are by now. -/
def sliceNow (o : Prepared) (m : Mem) : Option SliceOperands := do
  let x ← g.tensor (o.input 0)
  let y ← g.tensor (o.output 0)
  let bt ← (← g.tensor (o.input 1)).holding (m (o.input 1).toNat)
  let et ← (← g.tensor (o.input 2)).holding (m (o.input 2).toNat)
  let st ← (← g.tensor (o.input 3)).holding (m (o.input 3).toNat)
  return ⟨x.toTensor, y.toTensor, bt, et, st⟩

/-- `strided_slice`. -/
def stridedSlice (o : Prepared) (m : Mem) : Option Mem := do
  let x ← g.sliceNow o m
  run m (o.sliceSteps x (← x.stridedSlice o.toOp))

/-- `run_graph`, for an operator that works on tensors only. -/
def runTensors (o : Prepared) (m : Mem) : Option Mem :=
  match o.code with
  | .conv | .dwconv => g.conv o m
  | .fc => g.fullyConnected o m
  | .logistic | .quantize => do run m (o.tableSteps (← g.tensor (o.input 0)))
  | .reshape => do run m (o.reshapeSteps (← g.tensor (o.output 0)))
  | .concat => g.concat o m
  | .splitV => g.split o m
  | .stridedSlice => g.stridedSlice o m
  | .varHandle => run m o.handleSteps
  | _ => some m

end Net

/-! ### What is known -/

/-- Operands of these types. -/
structure Unary (g : Net) (p : Prepared) (x y : QTensor) : Prop where
  input : g.tensor (p.input 0) = some x
  output : g.tensor (p.output 0) = some y

/-- A strided slice that is let through. -/
structure SliceReady (g : Net) (p : Prepared) (x : SliceOperands) : Prop where
  ok : prepareStridedSlice g.graph p.toOp = .ok x
  input : ∃ t, g.tensor (p.input 0) = some t ∧ t.toTensor = x.input
  output : ∃ t, g.tensor (p.output 0) = some t ∧ t.toTensor = x.output
  type : x.output.type = x.input.type
  bt : ∃ t, g.tensor (p.input 1) = some t ∧ t.toTensor = x.bt ∧ t.isConst = true ∧ t.type = .int32
  et : ∃ t, g.tensor (p.input 2) = some t ∧ t.toTensor = x.et ∧ t.isConst = true ∧ t.type = .int32
  st : ∃ t, g.tensor (p.input 3) = some t ∧ t.toTensor = x.st ∧ t.isConst = true ∧ t.type = .int32

/-- What is known of an operator that is let through. -/
def Ready (g : Net) (p : Prepared) : Prop :=
  match p.code with
  | .conv | .dwconv => ∃ x f y, ConvReady g p x f y
  | .fc => ∃ x f y, FcReady g p x f y
  | .logistic | .quantize =>
    ∃ x y, Unary g p x y ∧ x.type = .int8 ∧ y.type.size = 1 ∧ x.count = y.count ∧
      p.lut.length = 256
  | .reshape => ∃ x y, Unary g p x y ∧ x.bytes = y.bytes
  | .concat => ∃ y xs, PartsReady g (p.output 0) p.inputs p.axis y xs
  | .splitV => ∃ x ys, PartsReady g (p.input 0) p.outputs p.axis x ys
  | .stridedSlice => ∃ x, SliceReady g p x
  | .varHandle => ∃ y, g.tensor (p.output 0) = some y ∧ y.type = .resource
  | .readVar => ∃ x y, Unary g p x y ∧ x.type = .resource
  | .assignVar =>
    ∃ x y, g.tensor (p.input 0) = some x ∧ g.tensor (p.input 1) = some y ∧ x.type = .resource
  | .callOnce => True
  | .other _ => False

section

variable {g : Net} {o : Operator} {p : Prepared} {expf : Double → Double}

theorem prepareTable_ok (h : prepareTable expf g o = .ok p) :
    p.toOperator = o ∧ ∃ x y, Unary g p x y ∧ x.type = .int8 ∧ y.type.size = 1 ∧ x.count = y.count ∧
      p.lut.length = 256 := by
  unfold prepareTable at h
  simp only [Except.bind_eq_ok_iff, orFail_ok, refuse_ok] at h
  obtain ⟨-, -, x, hx, y, hy, -, hkind, h⟩ := h
  obtain ⟨hxt, hxtype, -⟩ := operand_some hx
  obtain ⟨hyt, -, -⟩ := operand_some hy
  push Not at hkind
  have hsize : y.type.size = 1 := by
    by_cases h8 : y.type = .int8
    · rw [h8]
      rfl
    · rw [hkind.1 h8]
      rfl
  have hrest : p.toOperator = o ∧ p.lut.length = 256 := by
    split at h
    · simp only [Except.bind_eq_ok_iff, orFail_ok] at h
      obtain ⟨em, -, h⟩ := h
      injection h with h
      rw [← h]
      exact ⟨rfl, by rw [quantizeLut, length_map, length_int8s]⟩
    · injection h with h
      rw [← h]
      exact ⟨rfl, by rw [logisticLut, length_map, length_int8s]⟩
  have hop : p.toOp = o.toOp := congrArg Operator.toOp hrest.1
  refine ⟨hrest.1, x, y, ⟨by rw [hop]; exact hxt, by rw [hop]; exact hyt⟩, hxtype _ rfl, hsize,
    hkind.2.1, hrest.2⟩

theorem prepareReshape_ok (h : prepareReshape g o = .ok p) :
    p.toOperator = o ∧ ∃ x y, Unary g p x y ∧ x.bytes = y.bytes := by
  unfold prepareReshape at h
  simp only [Except.bind_eq_ok_iff, orFail_ok, refuse_ok] at h
  obtain ⟨-, -, x, hx, y, hy, -, hbytes, h⟩ := h
  obtain ⟨hxt, -, -⟩ := operand_some hx
  obtain ⟨hyt, -, -⟩ := operand_some hy
  injection h with h
  rw [← h]
  exact ⟨rfl, x, y, ⟨hxt, hyt⟩, not_not.mp hbytes⟩

theorem graph_operand {i : ℤ} {type : Option DType} {n : Option ℕ} {t : Tensor}
    (h : g.graph.operand i type n = some t) :
    (∃ q, g.tensor i = some q ∧ q.toTensor = t) ∧ ∀ a ∈ type, t.type = a := by
  unfold Graph.operand at h
  split at h
  · cases h
  · next hneg =>
    rw [filter_eq_some_iff] at h
    obtain ⟨ht, hkind⟩ := h
    rw [Net.graph, getElem?_map, map_eq_some_iff] at ht
    obtain ⟨q, hq, hqt⟩ := ht
    refine ⟨⟨q, ?_, hqt⟩, ?_⟩
    · rw [Net.tensor, if_neg hneg, hq]
    · rintro a rfl
      rw [Bool.and_eq_true] at hkind
      exact of_decide_eq_true hkind.1

theorem slice_ready {x : SliceOperands} (h : prepareStridedSlice g.graph p.toOp = .ok x) :
    SliceReady g p x := by
  have hops := (prepareStridedSlice_ok h).1
  unfold Graph.sliceOperands at hops
  split at hops
  · cases hops
  · simp only [bind_eq_bind, bind_eq_some_iff] at hops
    obtain ⟨t, ht, y, hy, bt, hbt, et, het, st, hst, hops⟩ := hops
    split at hops
    · next hkind =>
      obtain rfl := some.inj hops
      have hconst : ∀ {i : ℤ} {n : Option ℕ} {s : Tensor},
          g.graph.operand i (some .int32) n = some s →
          s.isConst = true →
          ∃ q, g.tensor i = some q ∧ q.toTensor = s ∧ q.isConst = true ∧ q.type = .int32 := by
        intro i n s hs hc
        obtain ⟨⟨q, hq, hqs⟩, htype⟩ := graph_operand hs
        exact ⟨q, hq, hqs, by rw [hqs]; exact hc, by rw [hqs]; exact htype _ rfl⟩
      exact ⟨h, (graph_operand ht).1, (graph_operand hy).1, (graph_operand hy).2 _ rfl,
        hconst hbt hkind.1, hconst het hkind.2.1, hconst hst hkind.2.2.1⟩
    · cases hops

theorem not_isNone {α : Type} {x : Option α} : ¬ x.isNone = true ↔ ∃ a, x = some a := by
  cases x <;> simp

variable {vars vars' : List Bytes}

theorem prepareVarHandle_ok (h : prepareVarHandle g vars o = .ok (p, vars')) :
    p.code = o.code ∧ ∃ y, g.tensor (p.output 0) = some y ∧ y.type = .resource := by
  unfold prepareVarHandle at h
  simp only [Except.bind_eq_ok_iff, refuse_ok] at h
  obtain ⟨-, hops, -, -, h⟩ := h
  injection h with h
  have hp : p.toOp = o.toOp ∧ p.code = o.code := by
    rw [← (Prod.mk.inj h).1]
    exact ⟨rfl, rfl⟩
  rw [not_or, not_isNone] at hops
  obtain ⟨-, y, hy⟩ := hops
  obtain ⟨hyt, hytype, -⟩ := operand_some hy
  refine ⟨hp.2, y, ?_, hytype _ rfl⟩
  rw [hp.1]
  exact hyt

theorem prepareReadVar_ok (h : prepareReadVar g o = .ok p) :
    p.toOperator = o ∧ ∃ x y, Unary g p x y ∧ x.type = .resource := by
  unfold prepareReadVar at h
  simp only [Except.bind_eq_ok_iff, refuse_ok] at h
  obtain ⟨-, hops, h⟩ := h
  injection h with h
  simp only [not_or, not_isNone] at hops
  obtain ⟨-, -, ⟨x, hx⟩, y, hy⟩ := hops
  obtain ⟨hxt, hxtype, -⟩ := operand_some hx
  obtain ⟨hyt, -, -⟩ := operand_some hy
  rw [← h]
  exact ⟨rfl, x, y, ⟨hxt, hyt⟩, hxtype _ rfl⟩

theorem prepareAssignVar_ok (h : prepareAssignVar g o = .ok p) :
    p.toOperator = o ∧ ∃ x y, g.tensor (p.input 0) = some x ∧ g.tensor (p.input 1) = some y ∧
    x.type = .resource := by
  unfold prepareAssignVar at h
  simp only [Except.bind_eq_ok_iff, refuse_ok] at h
  obtain ⟨-, hops, h⟩ := h
  injection h with h
  simp only [not_or, not_isNone] at hops
  obtain ⟨-, ⟨x, hx⟩, y, hy⟩ := hops
  obtain ⟨hxt, hxtype, -⟩ := operand_some hx
  obtain ⟨hyt, -, -⟩ := operand_some hy
  rw [← h]
  exact ⟨rfl, x, y, hxt, hyt, hxtype _ rfl⟩

theorem of_map {x : Except Bytes Prepared} (h : x.map (·, vars) = .ok (p, vars')) :
    x = .ok p := by
  cases x with
  | error e => cases h
  | ok q => rw [(Prod.mk.inj (Except.ok.inj h)).1]

/-- What is worked out for an operator leaves its code as it is. -/
theorem prepareLayer_code (h : prepareConv g o = .ok p ∨ prepareFc g o = .ok p ∨
      prepareConcat g o = .ok p ∨
    prepareSplit g o = .ok p) : p.code = o.code := by
  rcases h with h | h | h | h
  · unfold prepareConv at h
    simp only [Except.bind_eq_ok_iff] at h
    obtain ⟨-, -, x, -, f, -, -, -, y, -, b, -, -, -, -, -, -, -, -, -, -, -, -, -, -,
      -, -, -, h⟩ := h
    injection h with h
    rw [← h]
  · unfold prepareFc at h
    simp only [Except.bind_eq_ok_iff] at h
    obtain ⟨-, -, x, -, f, -, -, -, y, -, b, -, -, -, -, -, -, -, -, -, h⟩ := h
    injection h with h
    rw [← h]
  · unfold prepareConcat at h
    simp only [Except.bind_eq_ok_iff] at h
    obtain ⟨-, -, y, -, -, -, xs, -, -, -, -, -, h⟩ := h
    injection h with h
    rw [← h]
  · unfold prepareSplit at h
    simp only [Except.bind_eq_ok_iff] at h
    obtain ⟨-, -, x, -, a, -, -, -, -, -, ys, -, -, -, h⟩ := h
    injection h with h
    rw [← h]

/-- **What the loader makes sure of.** -/
theorem prepare_ready {main : Bool} {ng : ℕ}
    (h : prepare expf main ng g vars o = .ok (p, vars')) : p.code = o.code ∧ Ready g p := by
  unfold prepare at h
  unfold Ready
  cases hcode : o.code
  all_goals simp only [hcode] at h
  case conv | dwconv =>
    have hq := of_map h
    have hp := prepareLayer_code (.inl hq)
    rw [hp, hcode]
    exact ⟨rfl, prepareConv_ok hq⟩
  case fc =>
    have hq := of_map h
    have hp := prepareLayer_code (.inr (.inl hq))
    rw [hp, hcode]
    exact ⟨rfl, prepareFc_ok hq⟩
  case logistic | quantize =>
    have hq := of_map h
    obtain ⟨rfl, hready⟩ := prepareTable_ok hq
    rw [hcode]
    exact ⟨rfl, hready⟩
  case reshape =>
    have hq := of_map h
    obtain ⟨rfl, hready⟩ := prepareReshape_ok hq
    rw [hcode]
    exact ⟨rfl, hready⟩
  case concat =>
    have hq := of_map h
    have hp := prepareLayer_code (.inr (.inr (.inl hq)))
    rw [hp, hcode]
    exact ⟨rfl, prepareConcat_ok hq⟩
  case splitV =>
    have hq := of_map h
    have hp := prepareLayer_code (.inr (.inr (.inr hq)))
    rw [hp, hcode]
    exact ⟨rfl, prepareSplit_ok hq⟩
  case stridedSlice =>
    cases hx : prepareStridedSlice g.graph o.toOp with
    | error e =>
      rw [hx] at h
      cases h
    | ok x =>
      rw [hx] at h
      obtain ⟨rfl, -⟩ := Prod.mk.inj (Except.ok.inj h)
      rw [hcode]
      exact ⟨rfl, x, slice_ready hx⟩
  case varHandle =>
    obtain ⟨hp, hready⟩ := prepareVarHandle_ok h
    rw [hp, hcode]
    exact ⟨rfl, hready⟩
  case readVar =>
    have hq := of_map h
    obtain ⟨rfl, hready⟩ := prepareReadVar_ok hq
    rw [hcode]
    exact ⟨rfl, hready⟩
  case assignVar =>
    have hq := of_map h
    obtain ⟨rfl, hready⟩ := prepareAssignVar_ok hq
    rw [hcode]
    exact ⟨rfl, hready⟩
  case callOnce =>
    have hq := of_map h
    unfold prepareCallOnce at hq
    simp only [Except.bind_eq_ok_iff] at hq
    obtain ⟨-, -, hq⟩ := hq
    injection hq with hq
    rw [← hq, hcode]
    exact ⟨rfl, trivial⟩
  case other c =>
    cases h

end

/-! ### Operators run -/

namespace Prepared

variable (o : Prepared)

/-- The tensors an operator writes. -/
def outs : List ℕ :=
  match o.code with
  | .assignVar | .callOnce | .other _ => []
  | .splitV => o.outputs.map Int.toNat
  | _ => [(o.output 0).toNat]

/-- The constants that an operator reads as it runs and that the loader has checked the values
of. -/
def checked : List ℕ :=
  match o.code with
  | .conv | .dwconv | .fc => o.biasBlock.toList
  | .stridedSlice => [(o.input 1).toNat, (o.input 2).toNat, (o.input 3).toNat]
  | _ => []

end Prepared

section

variable {g : Net} {p : Prepared} {kept : ℕ → Prop} {m₀ m : Mem}

variable {x y : QTensor}

theorem conv_keeps {f : QTensor} (hr : ConvReady g p x f y) (hload : g.AsLoaded m₀)
    (hkept : ∀ b ∈ p.biasBlock, kept b) (hfree : ¬ kept (p.output 0).toNat)
    (hm : Keeps g.size kept m₀ m) :
    Yields (g.conv p m) (Keeps g.size kept m₀) := by
  unfold Net.conv
  rw [hr.input, hr.filter, hr.output]
  exact run_keeps (conv_inside hr hload hkept hfree) hm

theorem fc_keeps {f : QTensor} (hr : FcReady g p x f y) (hload : g.AsLoaded m₀)
    (hkept : ∀ b ∈ p.biasBlock, kept b) (hfree : ¬ kept (p.output 0).toNat)
    (hm : Keeps g.size kept m₀ m) :
    Yields (g.fullyConnected p m) (Keeps g.size kept m₀) := by
  unfold Net.fullyConnected
  rw [hr.input, hr.filter, hr.output]
  exact run_keeps (fc_inside hr hload hkept hfree) hm

theorem concat_keeps {xs : List QTensor} (hr : PartsReady g (p.output 0) p.inputs p.axis y xs)
    (hfree : ¬ kept (p.output 0).toNat) (hm : Keeps g.size kept m₀ m) :
    Yields (g.concat p m) (Keeps g.size kept m₀) := by
  obtain ⟨l, hl, -⟩ := hr.tensors
  unfold Net.concat
  rw [hr.whole, hl]
  exact run_keeps (join_inside hr hl hfree) hm

theorem split_keeps {ys : List QTensor} (hr : PartsReady g (p.input 0) p.outputs p.axis x ys)
    (hfree : ∀ j ∈ p.outputs, ¬ kept j.toNat) (hm : Keeps g.size kept m₀ m) :
    Yields (g.split p m) (Keeps g.size kept m₀) := by
  obtain ⟨l, hl, -⟩ := hr.tensors
  unfold Net.split
  rw [hr.whole, hl]
  exact run_keeps (part_inside hr hl hfree) hm

theorem table_keeps (hr : Unary g p x y) (htype : x.type = .int8) (hsize : y.type.size = 1)
    (hcount : x.count = y.count) (hlut : p.lut.length = 256) (hfree : ¬ kept (p.output 0).toNat)
    (hm : Keeps g.size kept m₀ m) :
    Yields (do run m (p.tableSteps (← g.tensor (p.input 0)))) (Keeps g.size kept m₀) := by
  rw [hr.input]
  refine run_keeps (fun s hs => ?_) hm
  obtain ⟨k, hk, rfl⟩ := mem_map.mp hs
  have hk' := mem_range.mp hk
  refine ⟨hfree, fun m hm => ?_⟩
  have hlen := length_tensor hm.sized hr.input htype
  obtain ⟨b, hb, -⟩ := Mem.byte_yields (m := m) (b := (p.input 0).toNat) (i := k)
    (by omega) (by omega)
  have hindex : (int8Of b + 128).toNat < p.lut.length := by
    have hbounds := int8Of_bounds b
    omega
  refine ⟨[p.lut[(int8Of b + 128).toNat]], ?_, ?_⟩
  · dsimp only
    rw [hb]
    simp only [bind_eq_bind, bind_some, getElem?_eq_getElem hindex]
    rfl
  · change k + 1 ≤ g.size (p.output 0).toNat
    rw [Net.size_tensor hr.output]
    unfold Tensor.bytes
    rw [hsize, Nat.mul_one]
    exact Nat.lt_of_lt_of_eq hk' hcount

theorem reshape_keeps (hr : Unary g p x y) (hbytes : x.bytes = y.bytes)
    (hfree : ¬ kept (p.output 0).toNat) (hm : Keeps g.size kept m₀ m) :
    Yields (do run m (p.reshapeSteps (← g.tensor (p.output 0)))) (Keeps g.size kept m₀) := by
  rw [hr.output]
  refine run_keeps (fun s hs => ?_) hm
  obtain rfl := mem_singleton.mp hs
  refine ⟨hfree, fun m hm => ?_⟩
  have hlen : 0 + y.bytes ≤ (m (p.input 0).toNat).length := by
    rw [hm.sized, Net.size_tensor hr.input, hbytes, Nat.zero_add]
  refine (Mem.bytes_yields hlen).imp fun v hv => ?_
  change 0 + v.length ≤ g.size (p.output 0).toNat
  rw [hv, Nat.zero_add, Net.size_tensor hr.output]

theorem holding_self {t : Tensor} : t.holding t.data = some t := by
  unfold Tensor.holding
  rw [dif_pos t.data_length]

/-- Begin, end and strides are what they were as the loader planned the slice. -/
theorem sliceNow_eq {x : SliceOperands} (hr : SliceReady g p x) (hload : g.AsLoaded m₀)
    (hsame : ∀ i ∈ [p.input 1, p.input 2, p.input 3], m i.toNat = m₀ i.toNat) :
    g.sliceNow p m = some x := by
  obtain ⟨t, ht, htx⟩ := hr.input
  obtain ⟨y, hy, hyx⟩ := hr.output
  have hone : ∀ {i : ℤ} {c : Tensor}, i ∈ [p.input 1, p.input 2, p.input 3] →
      (∃ q, g.tensor i = some q ∧ q.toTensor = c ∧ q.isConst = true ∧ q.type = .int32) →
      ∃ q, g.tensor i = some q ∧ q.toTensor.holding (m i.toNat) = some c := by
    rintro i c hi ⟨q, hq, rfl, hconst, -⟩
    refine ⟨q, hq, ?_⟩
    rw [hsame i hi, hload _ q (Net.tensor_some hq).2 hconst]
    exact holding_self
  obtain ⟨bt, hbt, hbt'⟩ := hone (by simp) hr.bt
  obtain ⟨et, het, het'⟩ := hone (by simp) hr.et
  obtain ⟨st, hst, hst'⟩ := hone (by simp) hr.st
  unfold Net.sliceNow
  rw [ht, hy, hbt, het, hst]
  simp only [bind_eq_bind, bind_some, hbt', het', hst', htx, hyx]
  rfl

theorem slice_keeps {x : SliceOperands} (hr : SliceReady g p x) (hload : g.AsLoaded m₀)
    (hkept : ∀ i ∈ [p.input 1, p.input 2, p.input 3], kept i.toNat)
    (hfree : ¬ kept (p.output 0).toNat) (hon : ¬ BeginsBeyond x p.toOp)
    (hm : Keeps g.size kept m₀ m) :
    Yields (g.stridedSlice p m) (Keeps g.size kept m₀) := by
  obtain ⟨reads, hreads, hlength, hmem⟩ := slice_reads hr.ok
  have hin := inTensor_of_not_beyond hr.ok (fun is his => (hmem is).mp his) hon
  obtain ⟨t, ht, htx⟩ := hr.input
  obtain ⟨y, hy, hyx⟩ := hr.output
  have hnow : g.sliceNow p m = some x := sliceNow_eq hr hload fun i hi => hm.same _ (hkept i hi)
  unfold Net.stridedSlice
  rw [hnow]
  simp only [bind_eq_bind, bind_some, hreads]
  refine run_keeps (fun s hs => ?_) hm
  obtain ⟨⟨is, k⟩, hk, rfl⟩ := mem_map.mp hs
  refine ⟨hfree, fun m hm => ?_⟩
  have hplace := hin.place is (fst_mem_of_mem_zipIdx hk)
  have hlt : k < reads.length := snd_lt_of_mem_zipIdx hk
  dsimp only
  rw [if_neg (by omega)]
  have hsrc : (x.source p.toOp is).toNat < x.input.shape.count := by omega
  have hle : (x.source p.toOp is).toNat * x.input.type.size + x.input.type.size ≤
      (m (p.input 0).toNat).length := by
    rw [hm.sized, Net.size_tensor ht, htx, ← Nat.succ_mul]
    exact Nat.mul_le_mul_right _ hsrc
  refine (Mem.bytes_yields hle).imp fun v hv => ?_
  rw [hv, Net.size_tensor hy, hyx, ← Nat.succ_mul]
  unfold Tensor.bytes
  rw [hr.type, ← hlength]
  exact Nat.mul_le_mul_right _ hlt

theorem handle_keeps (hy : g.tensor (p.output 0) = some y) (htype : y.type = .resource)
    (hfree : ¬ kept (p.output 0).toNat) (hm : Keeps g.size kept m₀ m) :
    Yields (run m p.handleSteps) (Keeps g.size kept m₀) := by
  refine run_keeps (fun s hs => ?_) hm
  obtain rfl := mem_singleton.mp hs
  refine ⟨hfree, fun m _ => Yields.pure ?_⟩
  rw [(Wire.put32 (Int32.ofInt p.sub)).2, Net.size_tensor hy]
  unfold Tensor.bytes
  rw [htype]
  have hpos := y.shape.count_pos
  change 0 + 4 ≤ y.shape.count * 4
  omega

/-- A strided slice, if it is one, begins on its shrunk axes. -/
def Prepared.Begins (g : Net) (p : Prepared) : Prop :=
  p.code = .stridedSlice → ∀ x, SliceReady g p x → ¬ BeginsBeyond x p.toOp

/-- **An operator on tensors comes to its end**, if what the loader has checked is as it was. -/
theorem tensors_keeps (hr : Ready g p) (hload : g.AsLoaded m₀) (hkept : ∀ b ∈ p.checked, kept b)
    (hfree : ∀ b ∈ p.outs, ¬ kept b) (hon : p.Begins g) (hm : Keeps g.size kept m₀ m) :
    Yields (g.runTensors p m) (Keeps g.size kept m₀) := by
  unfold Ready at hr
  unfold Prepared.checked at hkept
  unfold Prepared.outs at hfree
  unfold Net.runTensors
  cases hc : p.code with
  | conv =>
    simp only [hc] at hr hkept hfree
    obtain ⟨x, f, y, hr⟩ := hr
    exact conv_keeps hr hload (fun b hb => hkept b (mem_toList.mpr hb))
      (hfree _ (mem_singleton_self _)) hm
  | dwconv =>
    simp only [hc] at hr hkept hfree
    obtain ⟨x, f, y, hr⟩ := hr
    exact conv_keeps hr hload (fun b hb => hkept b (mem_toList.mpr hb))
      (hfree _ (mem_singleton_self _)) hm
  | fc =>
    simp only [hc] at hr hkept hfree
    obtain ⟨x, f, y, hr⟩ := hr
    exact fc_keeps hr hload (fun b hb => hkept b (mem_toList.mpr hb))
      (hfree _ (mem_singleton_self _)) hm
  | logistic =>
    simp only [hc] at hr hfree
    obtain ⟨x, y, hr, htype, hsize, hcount, hlut⟩ := hr
    exact table_keeps hr htype hsize hcount hlut (hfree _ (mem_singleton_self _)) hm
  | quantize =>
    simp only [hc] at hr hfree
    obtain ⟨x, y, hr, htype, hsize, hcount, hlut⟩ := hr
    exact table_keeps hr htype hsize hcount hlut (hfree _ (mem_singleton_self _)) hm
  | reshape =>
    simp only [hc] at hr hfree
    obtain ⟨x, y, hr, hbytes⟩ := hr
    exact reshape_keeps hr hbytes (hfree _ (mem_singleton_self _)) hm
  | concat =>
    simp only [hc] at hr hfree
    obtain ⟨y, xs, hr⟩ := hr
    exact concat_keeps hr (hfree _ (mem_singleton_self _)) hm
  | splitV =>
    simp only [hc] at hr hfree
    obtain ⟨x, ys, hr⟩ := hr
    exact split_keeps hr (fun j hj => hfree _ (mem_map_of_mem hj)) hm
  | stridedSlice =>
    simp only [hc] at hr hkept hfree
    obtain ⟨x, hr⟩ := hr
    refine slice_keeps hr hload (fun i hi => hkept _ ?_) (hfree _ (mem_singleton_self _))
      (hon hc x hr) hm
    simp only [mem_cons, not_mem_nil, or_false] at hi ⊢
    rcases hi with rfl | rfl | rfl <;> simp
  | varHandle =>
    simp only [hc] at hr hfree
    obtain ⟨y, hy, htype⟩ := hr
    exact handle_keeps hy htype (hfree _ (mem_singleton_self _)) hm
  | readVar => exact Yields.pure hm
  | assignVar => exact Yields.pure hm
  | callOnce => exact Yields.pure hm
  | other c => exact Yields.pure hm

end

/-! ### Results -/

/-- The operators whose arithmetic and indices are checked here. -/
def arithmetic : List OpCode := [.conv, .dwconv, .fc, .concat, .splitV]

/-- A layer does not write its bias, and the others have none. -/
theorem outs_not_checked {g : Net} {p : Prepared} (hr : Ready g p) (hcode : p.code ∈ arithmetic) :
    ∀ b ∈ p.outs, b ∉ p.checked := by
  unfold Ready at hr
  unfold Prepared.outs Prepared.checked
  have hlayer : ∀ {x f y n}, LayerReady g p x f y n →
      ∀ b ∈ [(p.output 0).toNat], b ∉ p.biasBlock.toList := by
    intro x f y n hl b hb hbias
    obtain rfl := mem_singleton.mp hb
    exact output_free hl (mem_toList.mp hbias)
  cases hc : p.code with
  | conv =>
    simp only [hc] at hr
    obtain ⟨x, f, y, hr⟩ := hr
    exact hlayer hr.toLayerReady
  | dwconv =>
    simp only [hc] at hr
    obtain ⟨x, f, y, hr⟩ := hr
    exact hlayer hr.toLayerReady
  | fc =>
    simp only [hc] at hr
    obtain ⟨x, f, y, hr⟩ := hr
    exact hlayer hr.toLayerReady
  | concat => exact fun b _ => not_mem_nil
  | splitV => exact fun b _ => not_mem_nil
  | other c => simp [hc, arithmetic] at hcode
  | _ =>
    rw [hc] at hcode
    exact absurd hcode (by decide)

/-! ### On fixed inputs -/

theorem DType.zeroPoint_zero (t : DType) : t.ZeroPoint 0 := by
  cases t
  case int8 => exact ⟨by decide, by decide⟩
  case uint8 => exact ⟨le_rfl, by decide⟩
  all_goals rfl

theorem scale_ok {s : ℚ} (hlo : 0 ≤ s) (hhi : s < mostScale) : ∀ v ∈ [s], 0 ≤ v ∧ v < mostScale :=
  forall_mem_singleton.mpr ⟨hlo, hhi⟩

theorem one_lt_mostScale : 1 < mostScale := by decide +kernel

/-- A tensor of the same byte throughout, of scale 1. -/
def bytesOf (s : Shape) (isConst : Bool) (c : UInt8) : QTensor where
  type := .int8
  shape := s
  isConst := isConst
  data := replicate s.count c
  data_length := by rw [length_replicate]; exact (Nat.mul_one _).symm
  quant := ⟨1, 0, []⟩
  zp_ok := DType.zeroPoint_zero _
  scale_ok := scale_ok zero_le_one one_lt_mostScale

/-- The shape of one pixel. -/
def pixel : Shape := ⟨[1, 1, 1, 1], by decide, by decide, by decide⟩

/-- A constant of 32 bits. -/
def wordOf (a b c d : UInt8) : QTensor where
  type := .int32
  shape := .one
  isConst := true
  data := [a, b, c, d]
  data_length := rfl
  quant := {}
  zp_ok := DType.zeroPoint_zero _
  scale_ok := scale_ok le_rfl (zero_lt_one.trans one_lt_mostScale)

/-- A convolution of one pixel with a weight of 2 and a bias of 1. -/
def pixelNet : Net where
  t := [bytesOf pixel false 0, bytesOf pixel true 2, wordOf 1 0 0 0, bytesOf pixel false 0]

def pixelConv : Operator where
  inputs := [0, 1, 2]
  outputs := [3]
  code := .conv

def pixelPrepared : Prepared :=
  { pixelConv with mult := [2 ^ 30], shift := [1], actMin := -128, actMax := 127 }

end Hassmic.Mww
