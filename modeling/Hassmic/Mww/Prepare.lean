import Hassmic.Mww.Quant
import Hassmic.Mww.Slice

/-!
# Operators made ready to run

Before a model runs at all the loader goes through its operators.  Each must have the operands it
needs, of the types and shapes it needs, and what does not change from run to run is worked out
once.  A model with anything else is refused.

## Main definitions

* `QTensor`, `Operator`, `Net` — a graph of tensors with their scales, and its operators.
* `Prepared` — an operator with what was worked out for it.
* `prepareConv`, `prepareFc`, `prepareTable`, `prepareReshape`, `prepareConcat`, `prepareSplit`,
  `prepareVarHandle` and `prepare` — the loader's checks of each.

## Main results

* `refuse_ok`, `orFail_ok` — what is known behind a check.
* `prepareConv_ok`, `prepareFc_ok`, `prepareConcat_ok`, `prepareSplit_ok` — what is known of an
  operator that is let through.
-/

namespace Hassmic.Mww

open Byte List Option

/-- The zero points that a type allows. -/
def DType.ZeroPoint : DType → ℤ → Prop
  | .int8, z => -128 ≤ z ∧ z ≤ 127
  | .uint8, z => 0 ≤ z ∧ z ≤ 255
  | _, z => z = 0

/-- A tensor with its scales, as `load_tensors` lets it through. -/
structure QTensor extends Tensor where
  quant : Quant := {}
  zp_ok : type.ZeroPoint quant.zp
  scale_ok : ∀ v ∈ quant.scale :: quant.scales, 0 ≤ v ∧ v < mostScale

namespace QTensor

variable (t : QTensor)

/-- `t->dims[d]`; a dimension it does not have is zero. -/
def dim (d : ℕ) : ℕ := t.shape.dims.getD d 0

/-- `t->ndim`. -/
def ndim : ℕ := t.shape.ndim

/-- `t->count`. -/
def count : ℕ := t.shape.count

end QTensor

/-- The operators that the models are built from. -/
inductive OpCode
  | concat | conv | dwconv | fc | logistic | reshape | stridedSlice | splitV | quantize
  | callOnce | varHandle | readVar | assignVar
  | other (code : ℤ)
  deriving DecidableEq

/-- Whether the input is padded. -/
inductive Padding
  | same | valid
  deriving DecidableEq

deriving instance DecidableEq for Op

/-- An operator with the options `load_ops` reads. -/
structure Operator extends Op where
  code : OpCode
  padding : Padding := .same
  strideW : ℤ := 1
  strideH : ℤ := 1
  dilW : ℤ := 1
  dilH : ℤ := 1
  act : Act := .none
  depthMult : ℤ := 1
  axis : ℤ := 0
  sub : ℤ := 0
  var : Bytes := []
  deriving DecidableEq

/-- An operator with what `prepare` works out for it. -/
structure Prepared extends Operator where
  mult : List ℤ := []
  shift : List ℤ := []
  actMin : ℤ := 0
  actMax : ℤ := 0
  padH : ℤ := 0
  padW : ℤ := 0
  lut : List UInt8 := []
  deriving DecidableEq

/-- A graph's tensors. -/
structure Net where
  t : List QTensor

namespace Net

variable (g : Net)

/-- The tensors without their scales. -/
def graph : Graph := ⟨g.t.map QTensor.toTensor⟩

/-- `g->t[i]`. -/
def tensor (i : ℤ) : Option QTensor := if i < 0 then none else g.t[i.toNat]?

/-- `operand`: tensor `i`, if it is of that type and rank, where it matters. -/
def operand (i : ℤ) (type : Option DType) (ndim : Option ℕ) : Option QTensor :=
  (g.tensor i).filter fun t => type.all (t.type = ·) && ndim.all (t.ndim = ·)

end Net

/-! ### Checks -/

/-- `FAIL` where this holds. -/
def refuse (c : Prop) [Decidable c] (err : Bytes) : Except Bytes Unit :=
  if c then .error err else .ok ()

/-- `FAIL` where there is none. -/
def orFail {α : Type} (x : Option α) (err : Bytes) : Except Bytes α := x.elim (.error err) .ok

theorem refuse_ok {c : Prop} [Decidable c] {err : Bytes} {u : Unit} :
    refuse c err = .ok u ↔ ¬ c := by
  unfold refuse
  split <;> simp_all

theorem orFail_ok {α : Type} {x : Option α} {err : Bytes} {a : α} :
    orFail x err = .ok a ↔ x = some a := by
  unfold orFail
  cases x <;> simp

/-! ### Convolutions and fully connected layers -/

/-- `MAX_DOT`: the most products that go into one sum. -/
abbrev maxDot : ℕ := 32768

/-- `MAX_BIAS`. -/
abbrev maxBias : ℤ := 2 ^ 30

/-- `bias_ok`: none of the values is so large that the sum could overflow. -/
def biasOk (b : Option QTensor) : Bool :=
  b.all fun b => (List.range b.count).all fun i => (b.int32 i).toInt ≤ maxBias ∧
    -maxBias ≤ (b.int32 i).toInt

/-- The third operand, where there is one: the bias, a constant. -/
def Operator.bias (o : Operator) (g : Net) (err : Bytes) : Except Bytes (Option QTensor) :=
  if 2 < o.inputs.length ∧ 0 ≤ o.input 2 then do
    let b ← orFail (g.operand (o.input 2) (some .int32) (some 1)) err
    refuse (b.isConst = false) err
    return some b
  else return none

/-- `em`: by how much the sums of a channel are larger than the output's integers. -/
def effective (x f y : QTensor) (c : ℕ) : Double :=
  .ofRat (Double.round (x.quant.scale * f.quant.channel c) / y.quant.scale)

/-- A number that is not infinite. -/
def finite : Double → Option ℚ
  | .fin x => some x
  | _ => none

/-- The multipliers and shifts of the channels. -/
def multipliers (x f y : QTensor) (n : ℕ) : List (ℤ × ℤ) :=
  (List.range n).map fun c => (finite (effective x f y c)).elim (0, 0) quantizeMultiplier

/-- `prepare` of a `CONV_2D` or a `DEPTHWISE_CONV_2D`. -/
def prepareConv (g : Net) (o : Operator) : Except Bytes Prepared := do
  let operands := text "convolution: operands"
  refuse (o.inputs.length < 2 ∨ o.outputs.length ≠ 1) operands
  let x ← orFail (g.operand (o.input 0) (some .int8) (some 4)) operands
  let f ← orFail (g.operand (o.input 1) (some .int8) (some 4)) operands
  refuse (f.isConst = false) operands
  let y ← orFail (g.operand (o.output 0) (some .int8) (some 4)) operands
  let bias ← o.bias g (text "convolution: bias")
  let oc := y.dim 3
  let ic := x.dim 3
  refuse (x.dim 0 ≠ y.dim 0) (text "convolution: batch")
  refuse (if o.code = .conv then f.dim 0 ≠ oc ∨ f.dim 3 ≠ ic
    else f.dim 0 ≠ 1 ∨ f.dim 3 ≠ oc ∨ o.depthMult < 1 ∨ ic * o.depthMult ≠ oc)
    (text "convolution: filter shape")
  refuse (bias.any fun b => b.dim 0 ≠ oc) (text "convolution: bias shape")
  refuse (f.quant.scales ≠ [] ∧ f.quant.scales.length ≠ oc)
    (text "convolution: " ++ Text.decimal f.quant.scales.length ++ text " filter scales")
  refuse (¬ x.quant.usable ∨ ¬ f.quant.usable ∨ ¬ y.quant.usable ∨ ¬ biasOk bias)
    (text "convolution: quantization")
  refuse (maxDot < f.dim 1 * f.dim 2 * if o.code = .conv then ic else 1)
    (text "convolution: kernel too large")
  refuse (o.strideW < 1 ∨ o.strideH < 1 ∨ o.dilW < 1 ∨ o.dilH < 1 ∨ 1024 < o.strideW ∨
    1024 < o.strideH ∨
    1024 < o.dilW ∨ 1024 < o.dilH) (text "convolution: stride")
  let eh := ((f.dim 1 : ℤ) - 1) * o.dilH + 1
  let ew := ((f.dim 2 : ℤ) - 1) * o.dilW + 1
  let th := ((y.dim 1 : ℤ) - 1) * o.strideH + eh - x.dim 1
  let tw := ((y.dim 2 : ℤ) - 1) * o.strideW + ew - x.dim 2
  refuse (∃ c ∈ List.range oc, finite (effective x f y c) = none) (text "convolution: scales")
  let m := multipliers x f y oc
  let range := o.act.range y.quant (-128) 127
  return {
    o with
    padH := if o.padding = .same ∧ 0 < th then th / 2 else 0
    padW := if o.padding = .same ∧ 0 < tw then tw / 2 else 0
    mult := m.map Prod.fst
    shift := m.map Prod.snd
    actMin := range.1
    actMax := range.2 }

/-- `prepare` of a `FULLY_CONNECTED`. -/
def prepareFc (g : Net) (o : Operator) : Except Bytes Prepared := do
  let operands := text "fully connected: operands"
  refuse (o.inputs.length < 2 ∨ o.outputs.length ≠ 1) operands
  let x ← orFail (g.operand (o.input 0) (some .int8) none) operands
  let f ← orFail (g.operand (o.input 1) (some .int8) (some 2)) operands
  refuse (f.isConst = false) operands
  let y ← orFail (g.operand (o.output 0) (some .int8) none) operands
  let bias ← o.bias g (text "fully connected: bias")
  let depth := f.dim 1
  let units := f.dim 0
  refuse (x.count % depth ≠ 0 ∨ y.count ≠ x.count / depth * units ∨ bias.any fun b =>
    b.dim 0 ≠ units)
    (text "fully connected: shapes")
  refuse (f.quant.scales ≠ [] ∧ f.quant.scales.length ≠ units) (text "fully connected: scales")
  refuse (¬ x.quant.usable ∨ ¬ f.quant.usable ∨ ¬ y.quant.usable ∨ ¬ biasOk bias ∨ maxDot < depth ∨
    f.quant.zp ≠ 0) (text "fully connected: quantization")
  refuse (∃ c ∈ List.range units, finite (effective x f y c) = none)
    (text "fully connected: scales")
  let m := multipliers x f y units
  let range := o.act.range y.quant (-128) 127
  return {
    o with
    mult := m.map Prod.fst
    shift := m.map Prod.snd
    actMin := range.1
    actMax := range.2 }

/-! ### Tables, copies, and operators that join or part tensors -/

/-- `prepare` of a `LOGISTIC` or a `QUANTIZE`, with the C library's exponential. -/
def prepareTable (expf : Double → Double) (g : Net) (o : Operator) : Except Bytes Prepared := do
  let operands := text (if o.code = .quantize then "quantize: operands" else "logistic: operands")
  refuse (o.inputs.length ≠ 1 ∨ o.outputs.length ≠ 1) operands
  let x ← orFail (g.operand (o.input 0) (some .int8) none) operands
  let y ← orFail (g.operand (o.output 0) none none) operands
  refuse ((y.type ≠ .int8 ∧ y.type ≠ .uint8) ∨ x.count ≠ y.count ∨ ¬ x.quant.usable ∨
    ¬ y.quant.usable ∨
    x.quant.scales ≠ [] ∨ y.quant.scales ≠ []) operands
  if o.code = .quantize then
    let em ← orFail (finite (.ofRat (x.quant.scale / y.quant.scale))) (text "quantize: scales")
    return { o with lut := quantizeLut em x.quant y.quant y.type }
  else return { o with lut := logisticLut expf x.quant y.quant y.type }

/-- `prepare` of a `RESHAPE`. -/
def prepareReshape (g : Net) (o : Operator) : Except Bytes Prepared := do
  let operands := text "reshape: operands"
  refuse (o.inputs.length < 1 ∨ o.outputs.length ≠ 1) operands
  let x ← orFail (g.operand (o.input 0) none none) operands
  let y ← orFail (g.operand (o.output 0) (some x.type) none) operands
  refuse (x.bytes ≠ y.bytes) operands
  return { o with }

/-- The other dimensions are the same. -/
def sameBut (ax : ℕ) (s t : QTensor) : Bool :=
  (List.range t.ndim).all fun d => d = ax ∨ s.dim d = t.dim d

/-- `prepare` of a `CONCATENATION`. -/
def prepareConcat (g : Net) (o : Operator) : Except Bytes Prepared := do
  refuse (o.inputs.length < 1 ∨ o.outputs.length ≠ 1) (text "concatenation: operands")
  let y ← orFail (g.operand (o.output 0) none none) (text "concatenation: operands")
  let ax := if o.axis < 0 then o.axis + y.ndim else o.axis
  refuse (ax < 0 ∨ (y.ndim : ℤ) ≤ ax) (text "concatenation: axis")
  let xs ← o.inputs.zipIdx.mapM fun (i, k) => do
    let x ← orFail (g.operand i (some y.type) (some y.ndim))
      (text "concatenation: input " ++ Text.decimal k)
    refuse (sameBut ax.toNat x y = false) (text "concatenation: shapes")
    return x
  refuse ((xs.map fun x => x.dim ax.toNat).sum ≠ y.dim ax.toNat ∨
    (y.type ≠ .int8 ∧ y.type ≠ .int32))
    (text "concatenation: shapes")
  refuse (y.type = .int8 ∧ ∃ x ∈ xs, (x.quant.scale ≠ y.quant.scale ∨ x.quant.zp ≠ y.quant.zp) ∧
    (¬ x.quant.usable ∨ ¬ y.quant.usable ∨ finite (.ofRat (x.quant.scale / y.quant.scale)) = none))
    (text "concatenation: scales")
  return { o with axis := ax }

/-- `prepare` of a `SPLIT_V`. -/
def prepareSplit (g : Net) (o : Operator) : Except Bytes Prepared := do
  let operands := text "split: operands"
  refuse (o.inputs.length ≠ 3 ∨ o.outputs.length < 1) operands
  let x ← orFail (g.operand (o.input 0) none none) operands
  let axis ← orFail (g.operand (o.input 2) (some .int32) none) operands
  refuse (axis.isConst = false ∨ axis.count ≠ 1) operands
  let a := (axis.int32 0).toInt
  let a := if a < 0 then a + x.ndim else a
  refuse (a < 0 ∨ (x.ndim : ℤ) ≤ a) (text "split: axis")
  let ys ← o.outputs.zipIdx.mapM fun (i, k) => do
    let y ← orFail (g.operand i (some x.type) (some x.ndim))
      (text "split: output " ++ Text.decimal k)
    refuse (sameBut a.toNat y x = false) (text "split: shapes")
    return y
  refuse ((ys.map fun y => y.dim a.toNat).sum ≠ x.dim a.toNat) (text "split: sizes")
  return { o with axis := a }

/-! ### Variables -/

/-- `MAX_VARS`. -/
abbrev maxVars : ℕ := 32

/-- `prepare` of a `VAR_HANDLE`: the variable's number, and the variables' names. -/
def prepareVarHandle (g : Net) (vars : List Bytes) (o : Operator) :
    Except Bytes (Prepared × List Bytes) := do
  refuse (o.outputs.length ≠ 1 ∨ (g.operand (o.output 0) (some .resource) none).isNone)
    (text "variable: operands")
  let i := vars.findIdx (· = o.var)
  refuse (i = vars.length ∧ vars.length = maxVars) (text "too many variables")
  return ({ o with sub := i }, if i = vars.length then vars ++ [o.var] else vars)

/-- `prepare` of a `READ_VARIABLE`. -/
def prepareReadVar (g : Net) (o : Operator) : Except Bytes Prepared := do
  refuse (o.inputs.length ≠ 1 ∨ o.outputs.length ≠ 1 ∨
    (g.operand (o.input 0) (some .resource) none).isNone ∨
    (g.operand (o.output 0) none none).isNone)
    (text "read variable: operands")
  return { o with }

/-- `prepare` of an `ASSIGN_VARIABLE`. -/
def prepareAssignVar (g : Net) (o : Operator) : Except Bytes Prepared := do
  refuse (o.inputs.length ≠ 2 ∨ (g.operand (o.input 0) (some .resource) none).isNone ∨
    (g.operand (o.input 1) none none).isNone) (text "assign variable: operands")
  return { o with }

/-- `prepare` of a `CALL_ONCE`: the first of two graphs runs the second. -/
def prepareCallOnce (main : Bool) (ng : ℕ) (o : Operator) : Except Bytes Prepared := do
  refuse (main = false ∨ o.sub ≠ 1 ∨ ng ≠ 2) (text "call once: subgraph " ++ Text.decimal o.sub)
  return { o with }

/-- `prepare`: an operator of the first graph or the second of `ng`, after those that named
`vars`. -/
def prepare (expf : Double → Double) (main : Bool) (ng : ℕ) (g : Net) (vars : List Bytes)
    (o : Operator) :
    Except Bytes (Prepared × List Bytes) :=
  match o.code with
  | .conv | .dwconv => (prepareConv g o).map (·, vars)
  | .fc => (prepareFc g o).map (·, vars)
  | .logistic | .quantize => (prepareTable expf g o).map (·, vars)
  | .reshape => (prepareReshape g o).map (·, vars)
  | .concat => (prepareConcat g o).map (·, vars)
  | .splitV => (prepareSplit g o).map (·, vars)
  | .stridedSlice => (prepareStridedSlice g.graph o.toOp).map fun _ => ({ o with }, vars)
  | .varHandle => prepareVarHandle g vars o
  | .readVar => (prepareReadVar g o).map (·, vars)
  | .assignVar => (prepareAssignVar g o).map (·, vars)
  | .callOnce => (prepareCallOnce main ng o).map (·, vars)
  | .other code =>
    .error (text "operator " ++ Text.decimal code ++ text " is not one microWakeWord models use")

/-! ### What is known of an operator that is let through -/

theorem mapM_ok {α β : Type} {f : α → Except Bytes β} {l : List α} {ys : List β}
    (h : l.mapM f = .ok ys) :
    List.Forall₂ (fun a y => f a = .ok y) l ys := by
  induction l generalizing ys with
  | nil =>
    cases h
    exact List.Forall₂.nil
  | cons a l ih =>
    rw [mapM_cons, Except.bind_eq_ok_iff] at h
    obtain ⟨y, hy, h⟩ := h
    rw [Except.bind_eq_ok_iff] at h
    obtain ⟨zs, hzs, h⟩ := h
    cases h
    exact List.Forall₂.cons hy (ih hzs)

variable {g : Net} {o : Operator} {p : Prepared}

theorem operand_some {i : ℤ} {type : Option DType} {n : Option ℕ} {t : QTensor}
    (h : g.operand i type n = some t) :
    g.tensor i = some t ∧ (∀ a ∈ type, t.type = a) ∧ ∀ k ∈ n, t.ndim = k := by
  rw [Net.operand, filter_eq_some_iff] at h
  obtain ⟨ht, hkind⟩ := h
  rw [Bool.and_eq_true, all_eq_true_iff_get, all_eq_true_iff_get] at hkind
  refine ⟨ht, ?_, ?_⟩
  · rintro a rfl
    exact of_decide_eq_true (hkind.1 rfl)
  · rintro k rfl
    exact of_decide_eq_true (hkind.2 rfl)

/-- The bias of an operator that is let through: a constant for every channel. -/
structure BiasReady (g : Net) (p : Prepared) (n : ℕ) (b : QTensor) : Prop where
  tensor : g.tensor (p.input 2) = some b
  type : b.type = .int32
  isConst : b.isConst = true
  ndim : b.ndim = 1
  dim : b.dim 0 = n
  ok : ∀ i < n, |(b.int32 i).toInt| ≤ maxBias

/-- A layer that is let through: its operands, the bias, and multipliers for every channel. -/
structure LayerReady (g : Net) (p : Prepared) (x f y : QTensor) (n : ℕ) : Prop where
  input : g.tensor (p.input 0) = some x
  filter : g.tensor (p.input 1) = some f
  output : g.tensor (p.output 0) = some y
  xtype : x.type = .int8
  ftype : f.type = .int8
  ytype : y.type = .int8
  bias : 2 < p.inputs.length ∧ 0 ≤ p.input 2 → ∃ b, BiasReady g p n b
  mult : p.mult.length = n
  shift : p.shift.length = n

/-- A convolution that is let through. -/
structure ConvReady (g : Net) (p : Prepared) (x f y : QTensor) :
    Prop extends LayerReady g p x f y (y.dim 3) where
  xdim : x.ndim = 4
  fdim : f.ndim = 4
  ydim : y.ndim = 4
  batch : x.dim 0 = y.dim 0
  full : p.code = .conv → f.dim 0 = y.dim 3 ∧ f.dim 3 = x.dim 3
  depth : p.code ≠ .conv → f.dim 0 = 1 ∧ f.dim 3 = y.dim 3 ∧ 1 ≤ p.depthMult ∧
    x.dim 3 * p.depthMult = y.dim 3
  dot : f.dim 1 * f.dim 2 * (if p.code = .conv then x.dim 3 else 1) ≤ maxDot
  strides : (1 ≤ p.strideH ∧ p.strideH ≤ 1024) ∧ (1 ≤ p.strideW ∧ p.strideW ≤ 1024) ∧
    (1 ≤ p.dilH ∧ p.dilH ≤ 1024) ∧ 1 ≤ p.dilW ∧ p.dilW ≤ 1024
  pads : (0 ≤ p.padH ∧ p.padH < 2 ^ 27) ∧ 0 ≤ p.padW ∧ p.padW < 2 ^ 27

/-- A fully connected layer that is let through. -/
structure FcReady (g : Net) (p : Prepared) (x f y : QTensor) :
    Prop extends LayerReady g p x f y (f.dim 0) where
  fdim : f.ndim = 2
  whole : x.count % f.dim 1 = 0
  out : y.count = x.count / f.dim 1 * f.dim 0
  dot : f.dim 1 ≤ maxDot
  zp : f.quant.zp = 0

theorem bias_ok {err : Bytes} {b : Option QTensor} {n : ℕ} (h : o.bias g err = .ok b)
    (hdim : ¬ (b.any fun b => decide (b.dim 0 ≠ n)) = true) (hok : biasOk b = true)
    (hp : p.toOp = o.toOp) (hthree : 2 < p.inputs.length ∧ 0 ≤ p.input 2) :
    ∃ b, BiasReady g p n b := by
  have hinputs : p.inputs = o.inputs := congrArg Op.inputs hp
  have hinput : p.input 2 = o.input 2 := congrArg (fun l : List ℤ => l.getD 2 0) hinputs
  rw [hinputs, hinput] at hthree
  rw [Operator.bias, if_pos hthree] at h
  simp only [Except.bind_eq_ok_iff, orFail_ok, refuse_ok] at h
  obtain ⟨t, ht, -, hconst, h⟩ := h
  cases h
  obtain ⟨htensor, htype, hndim⟩ := operand_some ht
  have hn : t.dim 0 = n := by simpa using hdim
  have hcount : t.count = n := by
    have hone := hndim 1 rfl
    rw [← hn, QTensor.dim, QTensor.count, Shape.count]
    rw [QTensor.ndim, Shape.ndim] at hone
    obtain ⟨d, hd⟩ := length_eq_one_iff.mp hone
    rw [hd]
    simp
  refine ⟨t, by rw [hinput]; exact htensor, htype _ rfl, by simpa using hconst, hndim 1 rfl,
    hn, fun i hi => ?_⟩
  unfold biasOk at hok
  rw [Option.all_some, List.all_eq_true] at hok
  have hval := of_decide_eq_true (hok i (mem_range.mpr (hcount.symm ▸ hi)))
  exact abs_le.mpr ⟨hval.2, hval.1⟩

theorem QTensor.dim_le (t : QTensor) (d : ℕ) : t.dim d ≤ 65536 := by
  by_cases hd : d < t.shape.dims.length
  · rw [QTensor.dim, getD_eq_getElem _ _ hd]
    exact (t.shape.dim_le _ (getElem_mem hd)).2
  · rw [QTensor.dim, getD_eq_default _ _ (Nat.le_of_not_lt hd)]
    exact Nat.zero_le _

/-- What a window with its strides comes to. -/
theorem window_le (d : ℕ) {k s : ℕ} {st dil : ℤ} (hk : k ≤ 65536) (hs : s ≤ 65536)
    (hst : 1 ≤ st ∧ st ≤ 1024) (hdil : 1 ≤ dil ∧ dil ≤ 1024) :
    ((s : ℤ) - 1) * st + (((k : ℤ) - 1) * dil + 1) - d < 2 ^ 28 := by
  have hone : ((s : ℤ) - 1) * st ≤ 65536 * 1024 := by
    rcases Nat.eq_zero_or_pos s with rfl | hpos
    · push_cast
      omega
    · exact mul_le_mul (by omega) hst.2 (by omega) (by norm_num)
  have htwo : ((k : ℤ) - 1) * dil ≤ 65536 * 1024 := by
    rcases Nat.eq_zero_or_pos k with rfl | hpos
    · push_cast
      omega
    · exact mul_le_mul (by omega) hdil.2 (by omega) (by norm_num)
  omega

theorem pad_bounds {c : Prop} [Decidable c] {t : ℤ} (ht : t < 2 ^ 28) :
    0 ≤ (if c ∧ 0 < t then t / 2 else 0) ∧ (if c ∧ 0 < t then t / 2 else 0) < 2 ^ 27 := by
  split
  · omega
  · norm_num

/-- **A convolution that is let through.** -/
theorem prepareConv_ok (h : prepareConv g o = .ok p) : ∃ x f y, ConvReady g p x f y := by
  unfold prepareConv at h
  simp only [Except.bind_eq_ok_iff, orFail_ok, refuse_ok] at h
  obtain ⟨-, -, x, hx, f, hf, -, hconst, y, hy, b, hb, -, hbatch, -, hshape, -, hdim, -, -, -,
    hquant, -, hdot, -, hst, -, -, h⟩ := h
  obtain ⟨hxt, hxtype, hxdim⟩ := operand_some hx
  obtain ⟨hft, hftype, hfdim⟩ := operand_some hf
  obtain ⟨hyt, hytype, hydim⟩ := operand_some hy
  push Not at hbatch hquant hst
  injection h with h
  have hbase : p.toOperator = o := by rw [← h]
  have hop : p.toOp = o.toOp := congrArg Operator.toOp hbase
  refine ⟨x, f, y,
    ⟨⟨?_, ?_, ?_, hxtype _ rfl, hftype _ rfl, hytype _ rfl, ?_, ?_, ?_⟩, hxdim _ rfl, hfdim _ rfl,
      hydim _ rfl, hbatch, ?_, ?_, ?_, ?_, ?_⟩⟩
  · rw [hop]; exact hxt
  · rw [hop]; exact hft
  · rw [hop]; exact hyt
  · exact bias_ok hb hdim hquant.2.2.2 hop
  · rw [← h]
    simp [multipliers]
  · rw [← h]
    simp [multipliers]
  · intro hcode
    rw [hbase] at hcode
    rw [if_pos hcode] at hshape
    push Not at hshape
    exact hshape
  · intro hcode
    rw [hbase] at hcode
    rw [if_neg hcode] at hshape
    push Not at hshape
    rw [hbase]
    exact hshape
  · rw [hbase]
    exact Nat.le_of_not_lt hdot
  · rw [hbase]
    omega
  · rw [← h]
    exact ⟨pad_bounds (window_le _ (f.dim_le 1) (y.dim_le 1) (by omega) (by omega)),
      pad_bounds (window_le _ (f.dim_le 2) (y.dim_le 2) (by omega) (by omega))⟩

/-- **A fully connected layer that is let through.** -/
theorem prepareFc_ok (h : prepareFc g o = .ok p) : ∃ x f y, FcReady g p x f y := by
  unfold prepareFc at h
  simp only [Except.bind_eq_ok_iff, orFail_ok, refuse_ok] at h
  obtain ⟨-, -, x, hx, f, hf, -, hconst, y, hy, b, hb, -, hshape, -, -, -, hquant, -, -, h⟩ := h
  obtain ⟨hxt, hxtype, hxdim⟩ := operand_some hx
  obtain ⟨hft, hftype, hfdim⟩ := operand_some hf
  obtain ⟨hyt, hytype, hydim⟩ := operand_some hy
  rw [not_or, not_or, not_not, not_not] at hshape
  push Not at hquant
  injection h with h
  have hbase : p.toOperator = o := by rw [← h]
  have hop : p.toOp = o.toOp := congrArg Operator.toOp hbase
  refine ⟨x, f, y,
    ⟨⟨?_, ?_, ?_, hxtype _ rfl, hftype _ rfl, hytype _ rfl, ?_, ?_, ?_⟩, hfdim _ rfl, hshape.1,
      hshape.2.1, hquant.2.2.2.2.1, hquant.2.2.2.2.2⟩⟩
  · rw [hop]; exact hxt
  · rw [hop]; exact hft
  · rw [hop]; exact hyt
  · exact bias_ok hb hshape.2.2 hquant.2.2.2.1 hop
  · rw [← h]
    simp [multipliers]
  · rw [← h]
    simp [multipliers]

end Hassmic.Mww
