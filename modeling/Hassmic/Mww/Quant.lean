import Hassmic.Lib.Double
import Hassmic.Mww.Model

/-!
# Numbers in a wake-word model

The integers of a tensor stand for real numbers: what they are above the zero point, times a scale.
An operator that goes from one scale to another multiplies by an integer and shifts; what it
multiplies by is worked out as the model is loaded, in double precision.  The tables of `LOGISTIC`
and `QUANTIZE` hold what each of the 256 integers becomes.

A scale is a number of single precision that is not negative and below 1e20, as the loader makes
sure.

## Main definitions

* `Quant`, `Quant.usable` — a tensor's scales and zero point, and `qok`.
* `quantizeMultiplier`, `srdhm`, `rdbpot`, `mbqm` — the multiplication by an integer and a shift.
* `quant`, `Act.range` — a number as an integer, and the integers that an activation lets through.
* `logisticLut`, `quantizeLut` — the tables.
* `Single` — arithmetic of single precision.
-/

namespace Hassmic.Mww

/-- How the integers of a tensor stand for numbers: by a scale, or by one for every channel. -/
structure Quant where
  scale : ℚ := 0
  zp : ℤ := 0
  scales : List ℚ := []

/-- `1e-20f`. -/
def leastScale : ℚ := 12379400 / 2 ^ 90

/-- `1e20f`. -/
def mostScale : ℚ := 11368684 * 2 ^ 43

namespace Quant

variable (q : Quant)

/-- The scale of a channel. -/
def channel (c : ℕ) : ℚ := if q.scales = [] then q.scale else q.scales.getD c 0

/-- `qok`: every scale is one that arithmetic can use. -/
def usable : Bool :=
  (if q.scales = [] then [q.scale] else q.scales).all fun v => leastScale < v ∧ v < mostScale

end Quant

/-! ### A multiplier and a shift -/

/-- `quantize_multiplier`: `m` is `q` · 2^`shift`, with `q` of 31 binary digits. -/
def quantizeMultiplier (m : ℚ) : ℤ × ℤ :=
  if m = 0 then (0, 0)
  else
    let s := Int.log 2 |m| + 1
    let qf := Double.lround (m / 2 ^ s * 2 ^ 31)
    let (qf, s) := if qf = 2 ^ 31 then (qf / 2, s + 1) else (qf, s)
    let (qf, s) := if s < -31 then (0, 0) else (qf, s)
    if 30 < s then (2 ^ 31 - 1, 30) else (qf, s)

/-- `srdhm`: the higher half of twice the product, rounded. -/
def srdhm (a b : ℤ) : ℤ :=
  if a = b ∧ a = -2 ^ 31 then 2 ^ 31 - 1
  else
    let ab := a * b
    let nudge : ℤ := if 0 ≤ ab then 2 ^ 30 else 1 - 2 ^ 30
    (ab + nudge).tdiv (2 ^ 31)

/-- `rdbpot`: divided by 2^`e`, rounded. -/
def rdbpot (x : ℤ) (e : ℕ) : ℤ :=
  let mask : ℤ := 2 ^ e - 1
  let rem := x % 2 ^ e
  let thr := mask / 2 + if x < 0 then 1 else 0
  x / 2 ^ e + if thr < rem then 1 else 0

/-- `mbqm`: times `q` · 2^`shift`. -/
def mbqm (x q shift : ℤ) : ℤ :=
  let left := if 0 < shift then shift.toNat else 0
  let right := if 0 < shift then 0 else (-shift).toNat
  rdbpot (srdhm (Int.bmod (x * 2 ^ left) (2 ^ 32)) q) right

/-! ### Numbers as integers -/

/-- `quant`: a number as an integer of a tensor, between `lo` and `hi`. -/
def quant (x scale : ℚ) (zp lo hi : ℤ) : ℤ :=
  let q := Double.lround (Double.round (x / scale)) + zp
  if q < lo then lo else if hi < q then hi else q

/-- The activations, `ACT_NONE` to `ACT_RELU6`. -/
inductive Act
  | none | relu | reluN1To1 | relu6
  deriving DecidableEq

/-- `act_range`: the integers that an activation lets through. -/
def Act.range (act : Act) (q : Quant) (qmin qmax : ℤ) : ℤ × ℤ :=
  let z := quant 0 q.scale q.zp qmin qmax
  let six := quant 6 q.scale q.zp qmin qmax
  let m1 := quant (-1) q.scale q.zp qmin qmax
  let p1 := quant 1 q.scale q.zp qmin qmax
  match act with
  | .none => (qmin, qmax)
  | .relu => (if qmin < z then z else qmin, qmax)
  | .relu6 => (if qmin < z then z else qmin, if six < qmax then six else qmax)
  | .reluN1To1 => (if qmin < m1 then m1 else qmin, if p1 < qmax then p1 else qmax)

/-- An integer of 8 bits, signed or not, as a byte. -/
def byteOf (v : ℤ) : UInt8 := UInt8.ofNat (v % 256).toNat

/-- A byte as a signed integer, `(int8_t)`. -/
def int8Of (b : UInt8) : ℤ := b.toInt8.toInt

/-- The byte of `v` moved between two bounds. -/
def clampByte (v lo hi : ℤ) : UInt8 := byteOf (if v < lo then lo else if hi < v then hi else v)

/-! ### Single precision -/

namespace Single

/-- The place of the last binary digit that is held in single precision. -/
def place (x : ℚ) : ℤ := max (Int.log 2 |x| - 23) (-149)

/-- The number of single precision nearest to a rational. -/
def ofRat (x : ℚ) : Double :=
  let r : ℚ := Double.roundEven (x / 2 ^ place x) * 2 ^ place x
  if 2 ^ 128 ≤ |r| then .inf (decide (x < 0)) else .fin r

/-- The product. -/
def mul : Double → Double → Double
  | .fin x, .fin y => ofRat (x * y)
  | .inf s, .inf t => .inf (s != t)
  | .inf s, .fin y => if y = 0 then .nan else .inf (s != decide (y < 0))
  | .fin x, .inf t => if x = 0 then .nan else .inf (t != decide (x < 0))
  | .nan, _ => .nan
  | _, .nan => .nan

/-- The sum. -/
def add : Double → Double → Double
  | .fin x, .fin y => ofRat (x + y)
  | .inf s, .inf t => if s = t then .inf s else .nan
  | .inf s, .fin _ => .inf s
  | .fin _, .inf t => .inf t
  | .nan, _ => .nan
  | _, .nan => .nan

/-- One divided by it. -/
def inv : Double → Double
  | .fin x => if x = 0 then .inf false else ofRat x⁻¹
  | .inf _ => .fin 0
  | .nan => .nan

end Single

/-! ### Tables -/

/-- The integers of 8 bits, in their order. -/
def int8s : List ℤ := (List.range 256).map fun k : ℕ => (k : ℤ) - 128

theorem length_int8s : int8s.length = 256 := by
  rw [int8s, List.length_map, List.length_range]

/-- The bounds of an output's integers. -/
def bounds : DType → ℤ × ℤ
  | .int8 => (-128, 127)
  | _ => (0, 255)

/-- `prepare` of a `LOGISTIC`: what each integer becomes, with the C library's exponential. -/
def logisticLut (expf : Double → Double) (x y : Quant) (type : DType) : List UInt8 :=
  int8s.map fun v : ℤ =>
    match Single.mul (.fin x.scale) (.fin ((v - x.zp : ℤ) : ℚ)) with
    | .fin a =>
        match Single.inv (Single.add (.fin 1) (expf (.fin (-a)))) with
        | .fin p => byteOf (quant p y.scale y.zp (bounds type).1 (bounds type).2)
        | _ => 0
    | _ => 0

/-- `prepare` of a `QUANTIZE`: what each integer becomes. -/
def quantizeLut (em : ℚ) (x y : Quant) (type : DType) : List UInt8 :=
  int8s.map fun v : ℤ =>
    let (q, s) := quantizeMultiplier em
    clampByte (mbqm (v - x.zp) q s + y.zp) (bounds type).1 (bounds type).2

/-- `concat`: an integer of another scale; no number is converted to zero. -/
def rescale (x y : Quant) (b : UInt8) : UInt8 :=
  let s := Single.ofRat (x.scale / y.scale)
  let bias := Single.mul (.fin (-x.zp)) s
  match Single.add (Single.mul (.fin (int8Of b)) s) bias with
  | .fin v => clampByte (Double.lround v + y.zp) (-128) 127
  | .inf neg => if neg then byteOf (-128) else byteOf 127
  | .nan => 0

end Hassmic.Mww
