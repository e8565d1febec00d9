import Hassmic.Lib.Steps
import Hassmic.Mww.Prepare

/-!
# Convolutions and fully connected layers

Each value of the output is a sum of products, of a weight and what a value of the input is above
the zero point; a bias is added, and the sum brought to the output's scale.  The sum is held in 32
bits.  The loader bounds how many products go into it, and the bias: 32768 products of no more than
255 · 128 and a bias of no more than 2³⁰ are below 2³¹.

## Main definitions

* `int8At`, `int32At`, `mac` — reading a tensor's values; a product added to a sum.
* `Prepared.convSum`, `Prepared.convSteps`, `conv` — a convolution, of every channel or channel by
  channel.
* `Prepared.fcSum`, `Prepared.fcSteps`, `fullyConnected` — a fully connected layer.

## Main results

* `mac_yields` — a sum grows by no more than a product.
* `conv_inside`, `fc_inside` — **the sums fit, and nothing outside the tensors is touched**.
-/

namespace Hassmic.Mww

open Steps List

/-! ### Values -/

/-- A byte of a tensor as a signed integer. -/
def int8At (m : Mem) (b : ℕ) (i : ℤ) : Option ℤ := (m.byte b i).map int8Of

/-- An integer of 32 bits from its bytes. -/
def int32Of (v : Bytes) : ℤ := (UInt32.ofNat (Wire.ofLe v)).toInt32.toInt

/-- The `i`th of a tensor's integers of 32 bits. -/
def int32At (m : Mem) (b i : ℕ) : Option ℤ := (m.bytes b (4 * i) 4).map int32Of

/-- `acc += (x[i] + off) * (w[j] + woff)`. -/
def mac (m : Mem) (xb : ℕ) (i off : ℤ) (wb : ℕ) (j woff acc : ℤ) : Option ℤ := do
  let a ← fit ((← int8At m xb i) + off)
  let w ← fit ((← int8At m wb j) + woff)
  let p ← fit (a * w)
  fit (acc + p)

namespace Prepared

variable (o : Prepared) (x f y : QTensor)

/-- The memory of the bias, where there is one. -/
def biasBlock : Option ℕ :=
  if 2 < o.inputs.length ∧ 0 ≤ o.input 2 then some (o.input 2).toNat else none

/-- The sum of channel `c` with its bias, as a value of the output. -/
def requantize (m : Mem) (acc : ℤ) (c : ℕ) : Option Bytes := do
  let acc ← match o.biasBlock with
    | none => some acc
    | some b => do fit (acc + (← int32At m b c))
  let q ← o.mult[c]?
  let s ← o.shift[c]?
  return [clampByte (mbqm acc q s + y.quant.zp) o.actMin o.actMax]

/-- The products at one place of the window. -/
def convPixel (m : Mem) (n oc ky kx : ℕ) (iy ix acc : ℤ) : Option ℤ :=
  let ioff := -x.quant.zp
  let xb := (o.input 0).toNat
  let wb := (o.input 1).toNat
  let xp : ℤ := ((n * x.dim 1 + iy) * x.dim 2 + ix) * x.dim 3
  if o.code = .conv then
    let wp : ℤ := ((oc * f.dim 1 + ky) * f.dim 2 + kx) * x.dim 3
    (List.range (x.dim 3)).foldlM (fun acc (c : ℕ) => mac m xb (xp + c) ioff wb (wp + c) 0 acc) acc
  else mac m xb (xp + (oc : ℤ).tdiv o.depthMult) ioff wb ((ky * f.dim 2 + kx) * y.dim 3 + oc) 0 acc

/-- The products in one row of the window. -/
def convRow (m : Mem) (n oc ky : ℕ) (iy ix0 acc : ℤ) : Option ℤ :=
  (List.range (f.dim 2)).foldlM (fun acc (kx : ℕ) => do
    let ix ← fit (ix0 + (← fit (kx * o.dilW)))
    if ix < 0 ∨ x.dim 2 ≤ ix then return acc
    else o.convPixel x f y m n oc ky kx iy ix acc) acc

/-- The sum of a convolution. -/
def convSum (m : Mem) (n oy ox oc : ℕ) : Option ℤ := do
  let iy0 ← fit ((← fit (oy * o.strideH)) - o.padH)
  let ix0 ← fit ((← fit (ox * o.strideW)) - o.padW)
  (List.range (f.dim 1)).foldlM (fun acc (ky : ℕ) => do
    let iy ← fit (iy0 + (← fit (ky * o.dilH)))
    if iy < 0 ∨ x.dim 1 ≤ iy then return acc
    else o.convRow x f y m n oc ky iy ix0 acc) 0

/-- One value of a convolution. -/
def convStep (n oy ox oc : ℕ) : Step where
  block := (o.output 0).toNat
  place := ((n * y.dim 1 + oy) * y.dim 2 + ox) * y.dim 3 + oc
  value := fun m => do o.requantize y m (← o.convSum x f y m n oy ox oc) oc

/-- The values of a convolution, in their order. -/
def convSteps : List Step :=
  (List.range (x.dim 0)).flatMap fun n => (List.range (y.dim 1)).flatMap fun oy =>
    (List.range (y.dim 2)).flatMap fun ox => (List.range (y.dim 3)).map fun oc =>
      o.convStep x f y n oy ox oc

/-- The sum of a fully connected layer. -/
def fcSum (m : Mem) (b u : ℕ) : Option ℤ :=
  let depth := f.dim 1
  (List.range depth).foldlM (fun acc (d : ℕ) =>
    mac m (o.input 0).toNat (b * depth + d) (-x.quant.zp)
    (o.input 1).toNat (u * depth + d) (-f.quant.zp) acc) 0

/-- One value of a fully connected layer. -/
def fcStep (b u : ℕ) : Step where
  block := (o.output 0).toNat
  place := b * f.dim 0 + u
  value := fun m => do o.requantize y m (← o.fcSum x f m b u) u

/-- The values of a fully connected layer, in their order. -/
def fcSteps : List Step :=
  (List.range (x.count / f.dim 1)).flatMap fun b => (List.range (f.dim 0)).map fun u =>
    o.fcStep x f y b u

end Prepared

namespace Net

variable (g : Net)

/-- `conv`. -/
def conv (o : Prepared) (m : Mem) : Option Mem := do
  let x ← g.tensor (o.input 0)
  let f ← g.tensor (o.input 1)
  let y ← g.tensor (o.output 0)
  run m (o.convSteps x f y)

/-- `fully_connected`. -/
def fullyConnected (o : Prepared) (m : Mem) : Option Mem := do
  let x ← g.tensor (o.input 0)
  let f ← g.tensor (o.input 1)
  let y ← g.tensor (o.output 0)
  run m (o.fcSteps x f y)

/-- How many bytes a tensor's memory has. -/
def size (b : ℕ) : ℕ := (g.t[b]?).elim 0 fun t => t.bytes

/-- The memory as it was loaded. -/
def mem (b : ℕ) : Bytes := (g.t[b]?).elim [] fun t => t.data

variable {g}

theorem tensor_some {i : ℤ} {t : QTensor} (h : g.tensor i = some t) :
    0 ≤ i ∧ g.t[i.toNat]? = some t := by
  unfold Net.tensor at h
  split at h
  · cases h
  · exact ⟨by omega, h⟩

theorem size_tensor {i : ℤ} {t : QTensor} (h : g.tensor i = some t) : g.size i.toNat = t.bytes := by
  rw [size, (tensor_some h).2]
  rfl

/-- Tensors that differ are in different blocks. -/
theorem block_ne {i j : ℤ} {s t : QTensor} (hs : g.tensor i = some s) (ht : g.tensor j = some t)
    (hne : s ≠ t) : i.toNat ≠ j.toNat := by
  intro heq
  refine hne ?_
  rw [← Option.some_inj, ← (tensor_some hs).2, heq]
  exact (tensor_some ht).2

end Net

/-! ### Sums -/

/-- The most that a product adds to a sum. -/
abbrev most : ℤ := 255 * 128

theorem int8Of_bounds (b : UInt8) : -128 ≤ int8Of b ∧ int8Of b ≤ 127 :=
  ⟨b.toInt8.le_toInt, Int.lt_add_one_iff.mp b.toInt8.toInt_lt⟩

theorem int8At_yields {m : Mem} {b : ℕ} {i : ℤ} (h0 : 0 ≤ i) (hi : i < (m b).length) :
    Yields (int8At m b i) fun v => -128 ≤ v ∧ v ≤ 127 := by
  obtain ⟨c, hc, -⟩ := Mem.byte_yields h0 hi
  refine ⟨int8Of c, ?_, int8Of_bounds c⟩
  rw [int8At, hc]
  rfl

/-- **A sum of `k` products grows by no more than one**, and fits. -/
theorem mac_yields {m : Mem} {xb wb k : ℕ} {i j off acc : ℤ} (hi : 0 ≤ i ∧ i < (m xb).length)
    (hj : 0 ≤ j ∧ j < (m wb).length) (hoff : -127 ≤ off ∧ off ≤ 128) (hk : k < maxDot)
    (hacc : |acc| ≤ k * most) :
    Yields (mac m xb i off wb j 0 acc) fun a => |a| ≤ (k + 1 : ℕ) * most := by
  unfold mac
  refine (int8At_yields hi.1 hi.2).bind fun v hv => ?_
  refine (fit_yields (by omega) (by omega)).bind ?_
  rintro a rfl
  refine (int8At_yields hj.1 hj.2).bind fun w hw => ?_
  refine (fit_yields (by omega) (by omega)).bind ?_
  rintro w' rfl
  have hprod : |(v + off) * (w + 0)| ≤ most := by
    rw [abs_mul]
    exact mul_le_mul (abs_le.mpr ⟨by omega, by omega⟩)
      (abs_le.mpr ⟨by omega, by omega⟩) (abs_nonneg _)
      (by norm_num)
  have hbound := abs_le.mp (hprod.trans_eq (by norm_num : most = 32640))
  refine (fit_yields (by omega) (by omega)).bind ?_
  rintro p rfl
  have hsum : |acc + (v + off) * (w + 0)| ≤ (k + 1 : ℕ) * most := by
    calc |acc + (v + off) * (w + 0)| ≤ |acc| + |(v + off) * (w + 0)| := abs_add_le _ _
      _ ≤ k * most + most := add_le_add hacc hprod
      _ = (k + 1 : ℕ) * most := by push_cast; ring
  have hmost : ((k + 1 : ℕ) : ℤ) * most ≤ 32768 * 32640 :=
    mul_le_mul (Int.ofNat_le.mpr (Nat.succ_le_of_lt hk)) (by norm_num) (by norm_num) (by norm_num)
  have hfit := abs_le.mp (hsum.trans hmost)
  refine (fit_yields (by omega) (by omega)).imp ?_
  rintro s rfl
  exact hsum

theorem mono {acc : ℤ} {j k : ℕ} (h : |acc| ≤ j * most) (hjk : j ≤ k) : |acc| ≤ k * most :=
  h.trans (mul_le_mul_of_nonneg_right (Int.ofNat_le.mpr hjk) (by norm_num))

/-! ### Where the values lie -/

theorem count_four {t : QTensor} (h : t.ndim = 4) :
    t.count = t.dim 0 * t.dim 1 * t.dim 2 * t.dim 3 := by
  obtain ⟨a, b, c, d, hd⟩ : ∃ a b c d, t.shape.dims = [a, b, c, d] := by
    have hlen : t.shape.dims.length = 4 := h
    match hdims : t.shape.dims, hlen with
    | [a, b, c, d], _ => exact ⟨a, b, c, d, rfl⟩
  unfold QTensor.count Shape.count QTensor.dim
  rw [hd]
  simp [mul_assoc]

theorem count_two {t : QTensor} (h : t.ndim = 2) : t.count = t.dim 0 * t.dim 1 := by
  obtain ⟨a, b, hd⟩ : ∃ a b, t.shape.dims = [a, b] := by
    have hlen : t.shape.dims.length = 2 := h
    match hdims : t.shape.dims, hlen with
    | [a, b], _ => exact ⟨a, b, rfl⟩
  unfold QTensor.count Shape.count QTensor.dim
  rw [hd]
  simp

theorem bytes_int8 {t : QTensor} (h : t.type = .int8) : t.bytes = t.count := by
  unfold Tensor.bytes QTensor.count
  rw [h]
  exact Nat.mul_one _

/-- The zero point of a tensor of 8 bits, as it is added. -/
theorem off_bounds {t : QTensor} (h : t.type = .int8) : -127 ≤ -t.quant.zp ∧ -t.quant.zp ≤ 128 := by
  have hzp := t.zp_ok
  rw [h] at hzp
  obtain ⟨hlo, hhi⟩ := hzp
  omega

section

variable {g : Net} {o : Prepared} {x f y : QTensor} {m : Mem}

theorem length_tensor (hm : Sized g.size m) {i : ℤ} {t : QTensor} (h : g.tensor i = some t)
    (htype : t.type = .int8) : (m i.toNat).length = t.count := by
  rw [hm, Net.size_tensor h, bytes_int8 htype]

/-- How many products there are at one place of the window. -/
def ConvReady.per (_ : ConvReady g o x f y) : ℕ := if o.code = .conv then x.dim 3 else 1

theorem convPixel_yields (hr : ConvReady g o x f y) (hm : Sized g.size m)
    {n oc ky kx : ℕ} {iy ix acc : ℤ} (hn : n < x.dim 0) (hoc : oc < y.dim 3) (hky : ky < f.dim 1)
    (hkx : kx < f.dim 2) (hiy : 0 ≤ iy ∧ iy < x.dim 1) (hix : 0 ≤ ix ∧ ix < x.dim 2)
    (hacc : |acc| ≤ ((ky * f.dim 2 + kx) * hr.per : ℕ) * most) :
    Yields (o.convPixel x f y m n oc ky kx iy ix acc) fun a =>
      |a| ≤ ((ky * f.dim 2 + (kx + 1)) * hr.per : ℕ) * most := by
  have hxlen := length_tensor hm hr.input hr.xtype
  have hwlen := length_tensor hm hr.filter hr.ftype
  have hpixel :=
    mul_add_inside (mul_add_inside (Int.natCast_nonneg n) (Int.ofNat_lt.mpr hn) hiy.1 hiy.2).1
    (mul_add_inside (Int.natCast_nonneg n) (Int.ofNat_lt.mpr hn) hiy.1 hiy.2).2 hix.1 hix.2
  -- every channel of the pixel is inside the input
  have hx : ∀ c : ℤ, 0 ≤ c → c < x.dim 3 →
      0 ≤ ((n * x.dim 1 + iy) * x.dim 2 + ix) * x.dim 3 + c ∧
        ((n * x.dim 1 + iy) * x.dim 2 + ix) * x.dim 3 + c < (m (o.input 0).toNat).length := by
    intro c h0 hc
    rw [hxlen, count_four hr.xdim]
    push_cast
    exact mul_add_inside hpixel.1 hpixel.2 h0 hc
  have hplace : ky * f.dim 2 + kx < f.dim 1 * f.dim 2 := mul_add_lt hky hkx
  unfold Prepared.convPixel
  by_cases hcode : o.code = .conv
  · have hper : hr.per = x.dim 3 := if_pos hcode
    have hdot := hr.dot
    rw [if_pos hcode] at hdot
    obtain ⟨hf0, hf3⟩ := hr.full hcode
    rw [if_pos hcode, hper, ← add_assoc]
    rw [hper] at hacc
    refine (Yields.range (I := fun c (a : ℤ) =>
      |a| ≤ ((ky * f.dim 2 + kx) * x.dim 3 + c : ℕ) * most) ?_
      hacc).imp fun a ha => ?_
    · intro c hc a ha
      have hflat := mul_add_lt hplace hc
      refine mac_yields (hx c (Int.natCast_nonneg c) (Int.ofNat_lt.mpr hc)) ⟨by positivity, ?_⟩
        (off_bounds hr.xtype) (hflat.trans_le hdot) ha
      have hw := mul_add_lt (mul_add_lt (mul_add_lt (hf0.symm ▸ hoc) hky) hkx) (hf3.symm ▸ hc)
      rw [hwlen, count_four hr.fdim]
      rw [hf3] at hw ⊢
      exact_mod_cast hw
    · rw [Nat.add_mul, Nat.one_mul]
      exact ha
  · have hper : hr.per = 1 := if_neg hcode
    have hdot := hr.dot
    rw [if_neg hcode, mul_one] at hdot
    obtain ⟨hf0, hf3, hdm, hmul⟩ := hr.depth hcode
    rw [if_neg hcode, hper, mul_one]
    rw [hper, mul_one] at hacc
    -- channel by channel: the input channel that belongs to the output's
    have hchan : 0 ≤ (oc : ℤ).tdiv o.depthMult ∧ (oc : ℤ).tdiv o.depthMult < x.dim 3 := by
      rw [Int.tdiv_eq_ediv_of_nonneg (Int.natCast_nonneg oc)]
      refine ⟨Int.ediv_nonneg (Int.natCast_nonneg oc) (by omega),
        Int.ediv_lt_of_lt_mul (by omega) ?_⟩
      rw [hmul]
      exact Int.ofNat_lt.mpr hoc
    refine mac_yields (hx _ hchan.1 hchan.2) ⟨by positivity, ?_⟩ (off_bounds hr.xtype)
      (hplace.trans_le hdot) hacc
    have hw := mul_add_lt hplace (hf3.symm ▸ hoc)
    rw [hwlen, count_four hr.fdim, hf0, Nat.one_mul]
    rw [hf3] at hw ⊢
    exact_mod_cast hw

theorem convRow_yields (hr : ConvReady g o x f y) (hm : Sized g.size m) {n oc ky : ℕ}
    {iy ix0 acc : ℤ} (hn : n < x.dim 0) (hoc : oc < y.dim 3) (hky : ky < f.dim 1)
    (hiy : 0 ≤ iy ∧ iy < x.dim 1) (hix0 : |ix0| ≤ 2 ^ 28)
    (hacc : |acc| ≤ (ky * f.dim 2 * hr.per : ℕ) * most) :
    Yields (o.convRow x f y m n oc ky iy ix0 acc) fun a =>
      |a| ≤ ((ky + 1) * f.dim 2 * hr.per : ℕ) * most := by
  unfold Prepared.convRow
  rw [Nat.add_mul, Nat.one_mul]
  refine Yields.range (I := fun kx (a : ℤ) =>
    |a| ≤ ((ky * f.dim 2 + kx) * hr.per : ℕ) * most) ?_ hacc
  intro kx hkx a ha
  have hdil : (0 : ℤ) ≤ kx * o.dilW ∧ kx * o.dilW ≤ 65536 * 1024 := by
    have hle := f.dim_le 2
    have hs := hr.strides.2.2.2
    exact ⟨mul_nonneg (Int.natCast_nonneg kx) (by omega),
      mul_le_mul (by omega) hs.2 (by omega) (by norm_num)⟩
  have hbound := abs_le.mp hix0
  refine (fit_yields (by omega) (by omega)).bind ?_
  rintro d rfl
  refine (fit_yields (by omega) (by omega)).bind ?_
  rintro ix rfl
  split
  · exact Yields.pure (mono ha (Nat.mul_le_mul_right _ (by omega)))
  · next hin =>
    rw [not_or, not_lt, not_le] at hin
    exact convPixel_yields hr hm hn hoc hky hkx hiy hin ha

/-- A window begins no further out than this. -/
theorem start_bounds {k : ℕ} {st pad : ℤ} (hk : k ≤ 65536) (hst : 1 ≤ st ∧ st ≤ 1024)
    (hpad : 0 ≤ pad ∧ pad < 2 ^ 27) :
    (-2 ^ 31 ≤ (k : ℤ) * st ∧ (k : ℤ) * st < 2 ^ 31) ∧ |(k : ℤ) * st - pad| ≤ 2 ^ 28 := by
  have h0 : (0 : ℤ) ≤ k * st := mul_nonneg (Int.natCast_nonneg k) (by omega)
  have h1 : (k : ℤ) * st ≤ 65536 * 1024 := mul_le_mul (by omega) hst.2 (by omega) (by norm_num)
  exact ⟨⟨by omega, by omega⟩, abs_le.mpr ⟨by omega, by omega⟩⟩

/-- **A convolution's sum** is no larger than its products make it. -/
theorem convSum_yields (hr : ConvReady g o x f y) (hm : Sized g.size m) {n oy ox oc : ℕ}
    (hn : n < x.dim 0) (hoy : oy < y.dim 1) (hox : ox < y.dim 2) (hoc : oc < y.dim 3) :
    Yields (o.convSum x f y m n oy ox oc) fun a => |a| ≤ maxDot * most := by
  have hylo := y.dim_le 1
  have hxlo := y.dim_le 2
  obtain ⟨hyfit, hystart⟩ := start_bounds (k := oy) (by omega) hr.strides.1 hr.pads.1
  obtain ⟨hxfit, hxstart⟩ := start_bounds (k := ox) (by omega) hr.strides.2.1 hr.pads.2
  have hyabs := abs_le.mp hystart
  have hxabs := abs_le.mp hxstart
  unfold Prepared.convSum
  refine (fit_yields hyfit.1 hyfit.2).bind ?_
  rintro sy rfl
  refine (fit_yields (by omega) (by omega)).bind ?_
  rintro iy0 rfl
  refine (fit_yields hxfit.1 hxfit.2).bind ?_
  rintro sx rfl
  refine (fit_yields (by omega) (by omega)).bind ?_
  rintro ix0 rfl
  refine (Yields.range (I := fun ky (a : ℤ) => |a| ≤ (ky * f.dim 2 * hr.per : ℕ) * most) ?_ ?_).imp
    ?_
  · intro ky hky a ha
    have hdil : (0 : ℤ) ≤ ky * o.dilH ∧ ky * o.dilH ≤ 65536 * 1024 := by
      have hle := f.dim_le 1
      have hs := hr.strides.2.2.1
      exact ⟨mul_nonneg (Int.natCast_nonneg ky) (by omega),
        mul_le_mul (by omega) hs.2 (by omega) (by norm_num)⟩
    refine (fit_yields (by omega) (by omega)).bind ?_
    rintro d rfl
    refine (fit_yields (by omega) (by omega)).bind ?_
    rintro iy rfl
    split
    · exact Yields.pure (mono ha (Nat.mul_le_mul_right _ (Nat.mul_le_mul_right _ (by omega))))
    · next hin =>
      rw [not_or, not_lt, not_le] at hin
      exact convRow_yields hr hm hn hoc hky hin hxstart ha
  · simp
  · exact fun a ha => mono ha hr.dot

/-- **A fully connected layer's sum** is no larger than its products make it. -/
theorem fcSum_yields (hr : FcReady g o x f y) (hm : Sized g.size m) {b u : ℕ}
    (hb : b < x.count / f.dim 1) (hu : u < f.dim 0) :
    Yields (o.fcSum x f m b u) fun a => |a| ≤ maxDot * most := by
  have hxlen := length_tensor hm hr.input hr.xtype
  have hwlen := length_tensor hm hr.filter hr.ftype
  unfold Prepared.fcSum
  dsimp only
  rw [hr.zp, neg_zero]
  refine (Yields.range (I := fun d (a : ℤ) => |a| ≤ d * most) ?_ ?_).imp fun a ha => mono ha hr.dot
  · intro d hd a ha
    have hx := mul_add_lt hb hd
    rw [Nat.div_mul_cancel (Nat.dvd_of_mod_eq_zero hr.whole)] at hx
    have hw := mul_add_lt hu hd
    refine mac_yields ⟨by positivity, ?_⟩ ⟨by positivity, ?_⟩ (off_bounds hr.xtype)
      (hd.trans_le hr.dot) ha
    · rw [hxlen]
      exact_mod_cast hx
    · rw [hwlen, count_two hr.fdim]
      exact_mod_cast hw
  · simp

end

/-! ### Results -/

/-- What is in the constants' memory is what was loaded. -/
def Net.AsLoaded (g : Net) (m : Mem) : Prop :=
  ∀ b t, g.t[b]? = some t → t.isConst = true → m b = t.data

theorem Net.sized_mem (g : Net) : Sized g.size g.mem := by
  intro b
  unfold Net.mem Net.size
  cases g.t[b]? with
  | none => rfl
  | some t => exact t.data_length

theorem Net.asLoaded_mem (g : Net) : g.AsLoaded g.mem := by
  intro b t ht _
  rw [Net.mem, ht]
  rfl

section

variable {g : Net} {o : Prepared} {x f y : QTensor} {kept : ℕ → Prop} {m₀ m : Mem} {n : ℕ}

theorem biasBlock_some {b : ℕ} (h : o.biasBlock = some b) :
    (2 < o.inputs.length ∧ 0 ≤ o.input 2) ∧ b = (o.input 2).toNat := by
  unfold Prepared.biasBlock at h
  split at h
  · next hthree => exact ⟨hthree, (Option.some.inj h).symm⟩
  · cases h

/-- The output is not the bias: they are of different types. -/
theorem output_free (hr : LayerReady g o x f y n) : o.biasBlock ≠ some (o.output 0).toNat := by
  intro hkept
  obtain ⟨hthree, hblock⟩ := biasBlock_some hkept
  obtain ⟨b, hb⟩ := hr.bias hthree
  refine Net.block_ne hr.output hb.tensor ?_ hblock
  rintro rfl
  have htype := hr.ytype.symm.trans hb.type
  cases htype

theorem count_one {t : QTensor} (h : t.ndim = 1) : t.count = t.dim 0 := by
  obtain ⟨a, hd⟩ := length_eq_one_iff.mp h
  unfold QTensor.count Shape.count QTensor.dim
  rw [hd]
  simp

/-- The bias of a channel, as it was loaded. -/
theorem bias_yields (hr : LayerReady g o x f y n) (hload : g.AsLoaded m₀)
    (hm : Keeps g.size kept m₀ m) {b c : ℕ} (hb : o.biasBlock = some b)
    (hkept : kept b) (hc : c < n) :
    Yields (int32At m b c) fun v => |v| ≤ maxBias := by
  obtain ⟨hthree, rfl⟩ := biasBlock_some hb
  obtain ⟨t, ht⟩ := hr.bias hthree
  have hdata : m (o.input 2).toNat = t.data :=
    (hm.same _ hkept).trans (hload _ t (Net.tensor_some ht.tensor).2 ht.isConst)
  have hlen : 4 * c + 4 ≤ t.data.length := by
    have hcount := count_one ht.ndim
    rw [ht.dim] at hcount
    rw [t.data_length, ht.type]
    change _ ≤ t.count * 4
    omega
  refine ⟨(t.int32 c).toInt, ?_, ht.ok c hc⟩
  rw [int32At, Mem.bytes, hdata, if_pos hlen]
  rfl

/-- **The sum with its bias fits**, and is brought to one byte. -/
theorem requantize_yields (hr : LayerReady g o x f y n) (hload : g.AsLoaded m₀)
    (hkept : ∀ b ∈ o.biasBlock, kept b) (hm : Keeps g.size kept m₀ m) {acc : ℤ} {c : ℕ} (hc : c < n)
    (hacc : |acc| ≤ maxDot * most) :
    Yields (o.requantize y m acc c) fun v => v.length = 1 := by
  have hq : ∃ q, o.mult[c]? = some q := ⟨_, getElem?_eq_getElem (hr.mult.symm ▸ hc)⟩
  have hs : ∃ s, o.shift[c]? = some s := ⟨_, getElem?_eq_getElem (hr.shift.symm ▸ hc)⟩
  obtain ⟨q, hq⟩ := hq
  obtain ⟨s, hs⟩ := hs
  have hrest : ∀ a : ℤ, Yields (α := Bytes) (do
      let q ← o.mult[c]?
      let s ← o.shift[c]?
      return [clampByte (mbqm a q s + y.quant.zp) o.actMin o.actMax]) fun v => v.length = 1 := by
    intro a
    rw [hq, hs]
    exact Yields.pure rfl
  have hsum := abs_le.mp (hacc.trans_eq (by norm_num : (maxDot : ℤ) * most = 1069547520))
  unfold Prepared.requantize
  cases hb : o.biasBlock with
  | none => exact hrest acc
  | some b =>
    refine (bias_yields hr hload hm hb (hkept b hb) hc).bind fun v hv => ?_
    have hbias := abs_le.mp (hv.trans_eq (by norm_num : maxBias = 1073741824))
    exact (fit_yields (by omega) (by omega)).bind fun a _ => hrest a

/-- **A convolution's steps stay inside the tensors**, and its sums fit. -/
theorem conv_inside (hr : ConvReady g o x f y) (hload : g.AsLoaded m₀)
    (hkept : ∀ b ∈ o.biasBlock, kept b) (hfree : ¬ kept (o.output 0).toNat) :
    ∀ s ∈ o.convSteps x f y, s.Inside g.size kept m₀ := by
  intro s hs
  simp only [Prepared.convSteps, mem_flatMap, mem_map, mem_range] at hs
  obtain ⟨n, hn, oy, hoy, ox, hox, oc, hoc, rfl⟩ := hs
  refine ⟨hfree, fun m hm => ?_⟩
  refine (convSum_yields hr hm.sized hn hoy hox hoc).bind fun a ha => ?_
  refine (requantize_yields hr.toLayerReady hload hkept hm hoc ha).imp fun v hv => ?_
  have hplace := mul_add_lt (mul_add_lt (mul_add_lt (hr.batch ▸ hn) hoy) hox) hoc
  rw [hv]
  change _ ≤ g.size (o.output 0).toNat
  rw [Net.size_tensor hr.output, bytes_int8 hr.ytype, count_four hr.ydim]
  exact hplace

/-- **A fully connected layer's steps stay inside the tensors**, and its sums fit. -/
theorem fc_inside (hr : FcReady g o x f y) (hload : g.AsLoaded m₀)
    (hkept : ∀ b ∈ o.biasBlock, kept b) (hfree : ¬ kept (o.output 0).toNat) :
    ∀ s ∈ o.fcSteps x f y, s.Inside g.size kept m₀ := by
  intro s hs
  simp only [Prepared.fcSteps, mem_flatMap, mem_map, mem_range] at hs
  obtain ⟨b, hb, u, hu, rfl⟩ := hs
  refine ⟨hfree, fun m hm => ?_⟩
  refine (fcSum_yields hr hm.sized hb hu).bind fun a ha => ?_
  refine (requantize_yields hr.toLayerReady hload hkept hm hu ha).imp fun v hv => ?_
  have hplace := mul_add_lt hb hu
  rw [hv]
  change _ ≤ g.size (o.output 0).toNat
  rw [Net.size_tensor hr.output, bytes_int8 hr.ytype, hr.out]
  exact hplace

end

end Hassmic.Mww
