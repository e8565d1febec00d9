import Hassmic.Lib.Loops
import Hassmic.Lib.Text
import Hassmic.Lib.Wire

/-!
# The tensors and operators of a wake-word model

A model file is a graph of tensors and operators.  It comes from the settings page, so nothing in it
is taken on trust: the loader checks every tensor as it reads it, and every operator against the
tensors it names.

## Main definitions

* `Shape`, `Tensor` — a tensor as `load_tensors` lets it through.
* `Op` — an operator with the options `load_ops` reads.
* `Graph.operand` — a tensor as an operator's operand.
-/

namespace Hassmic.Mww

/-- `MAX_DIMS`. -/
abbrev maxDims : ℕ := 5

/-- The most elements of a tensor. -/
abbrev maxCount : ℕ := 2 ^ 20

/-- The element types of a tensor, `T_FLOAT32` to `T_RESOURCE`. -/
inductive DType
  | float32 | int32 | uint8 | int64 | int8 | resource
  deriving DecidableEq

/-- `type_size`: an element's bytes. -/
def DType.size : DType → ℕ
  | .int32 => 4
  | .float32 => 4
  | .resource => 4
  | .int64 => 8
  | .int8 => 1
  | .uint8 => 1

/-- The dimensions of a tensor. -/
structure Shape where
  dims : List ℕ
  rank_le : dims.length ≤ maxDims
  dim_le : ∀ d ∈ dims, 1 ≤ d ∧ d ≤ 65536
  count_le : dims.prod ≤ maxCount

namespace Shape

/-- `t->ndim`. -/
def ndim (s : Shape) : ℕ := s.dims.length

/-- `t->count`: how many elements. -/
def count (s : Shape) : ℕ := s.dims.prod

/-- The shape of one element. -/
def one : Shape := ⟨[1], by decide, by decide, by decide⟩

end Shape

/-- A tensor with what is in it. -/
structure Tensor where
  type : DType
  shape : Shape
  isConst : Bool
  data : Bytes
  data_length : data.length = shape.count * type.size

namespace Tensor

variable (t : Tensor)

/-- `t->bytes`. -/
def bytes : ℕ := t.shape.count * t.type.size

/-- The `i`th of the integers of 32 bits in it. -/
def int32 (i : ℕ) : Int32 := (UInt32.ofNat (Wire.ofLe ((t.data.drop (4 * i)).take 4))).toInt32

end Tensor

/-- An operator: its operands, and the options of a strided slice. -/
structure Op where
  inputs : List ℤ
  outputs : List ℤ
  beginMask : BitVec 32 := 0
  endMask : BitVec 32 := 0
  shrinkMask : BitVec 32 := 0
  offset : Bool := false

namespace Op

/-- `o->in[k]`; what the file does not name is zero. -/
def input (o : Op) (k : ℕ) : ℤ := o.inputs.getD k 0

/-- `o->out[k]`. -/
def output (o : Op) (k : ℕ) : ℤ := o.outputs.getD k 0

end Op

/-- A graph's tensors. -/
structure Graph where
  t : List Tensor

/-- Tensor `i` as an operator's operand: in range, of that type and rank, where it matters. -/
def Graph.operand (g : Graph) (i : ℤ) (type : Option DType) (ndim : Option ℕ) : Option Tensor :=
  if i < 0 then none
  else g.t[i.toNat]?.filter fun t => type.all (t.type = ·) && ndim.all (t.shape.ndim = ·)

end Hassmic.Mww
