import Hassmic.Mww.Ready

/-!
# What operators read and write

An operator depends on nothing but the tensors it reads, and it leaves nothing as it was in the
tensors it writes: two memories that hold the same in what is read hold the same, after the
operator, in what is written as well.  Two operators do not take a tensor whole: the number of a
variable is in the first four bytes of its tensor.

## Main definitions

* `Prepared.reads`, `Prepared.writes` — the tensors, and how many of their bytes.
* `Places` — the places that such a list names.
* `Flows` — steps that depend on what is read, and fill what is written.

## Main results

* `tensors_same` — **memories that agree in what is read agree in what is written**.
* `tensors_steps` — an operator is its steps, as long as what the loader has checked is as it was.
-/

namespace Hassmic.Mww

open Steps List

/-- A tensor's memory, whole. -/
def Net.whole (g : Net) (i : ℤ) : ℕ × ℕ := (i.toNat, g.size i.toNat)

namespace Prepared

variable (g : Net) (o : Prepared)

/-- The tensors an operator reads, and how many of their bytes. -/
def reads : List (ℕ × ℕ) :=
  match o.code with
  | .conv | .dwconv | .fc =>
    g.whole (o.input 0) :: g.whole (o.input 1) :: o.biasBlock.toList.map fun b => (b, g.size b)
  | .logistic | .quantize | .reshape | .splitV => [g.whole (o.input 0)]
  | .concat => o.inputs.map g.whole
  | .stridedSlice =>
    [g.whole (o.input 0), g.whole (o.input 1), g.whole (o.input 2), g.whole (o.input 3)]
  | .readVar => [((o.input 0).toNat, 4)]
  | .assignVar => [((o.input 0).toNat, 4), g.whole (o.input 1)]
  | .varHandle | .callOnce | .other _ => []

/-- The tensors an operator writes, and how many of their bytes. -/
def writes : List (ℕ × ℕ) := o.outs.map fun b => (b, if o.code = .varHandle then 4 else g.size b)

end Prepared

/-- The places in so many bytes of these blocks. -/
def Places (l : List (ℕ × ℕ)) (b i : ℕ) : Prop := ∃ n, (b, n) ∈ l ∧ i < n

/-- Steps that write an operator's tensors and no others, depend on what it reads, and fill what it
writes. -/
structure Flows (g : Net) (o : Prepared) (l : List Step) : Prop where
  block : ∀ s ∈ l, s.block ∈ o.outs
  reads : ∀ s ∈ l, s.Reads g.size (Places (o.reads g))
  covers : ∀ b i, Places (o.writes g) b i → ∃ s ∈ l, s.Covers b i

theorem exists_mul_add {i a b : ℕ} (h : i < a * b) : ∃ q < a, ∃ r < b, q * b + r = i := by
  have hb : 0 < b := Nat.pos_of_ne_zero fun h0 => by
    rw [h0, Nat.mul_zero] at h
    exact absurd h (Nat.not_lt_zero i)
  refine ⟨i / b, Nat.div_lt_of_lt_mul (by rwa [Nat.mul_comm]), i % b, Nat.mod_lt _ hb, ?_⟩
  rw [Nat.mul_comm, Nat.div_add_mod]

section

variable {g : Net} {o : Prepared} {x f y : QTensor} {m m' : Mem} {A : ℕ → ℕ → Prop}

theorem whole_same {l : List (ℕ × ℕ)} (h : Same g.size (Places l) m m') {i : ℤ}
    (hi : g.whole i ∈ l) :
    m i.toNat = m' i.toNat :=
  h.block fun _ hk => ⟨g.size i.toNat, hi, hk⟩

theorem single_outs {l : List Step} {b n : ℕ} (houts : o.outs = [b]) (hcode : o.code ≠ .varHandle)
    (hsize : g.size b = n) (hl : ∀ i < n, ∃ s ∈ l, s.Covers b i) :
    ∀ c i, Places (o.writes g) c i → ∃ s ∈ l, s.Covers c i := by
  rintro c i ⟨k, hk, hi⟩
  rw [Prepared.writes, houts, map_singleton, mem_singleton, if_neg hcode] at hk
  obtain ⟨rfl, rfl⟩ := Prod.mk.inj hk
  exact hl i (hsize ▸ hi)

/-- What is no variable, no call and no split writes its one output. -/
theorem outs_one
    (h : o.code ∈
      ([.conv, .dwconv, .fc, .logistic, .quantize, .reshape, .concat, .stridedSlice] :
        List OpCode)) :
    o.outs = [(o.output 0).toNat] ∧ o.code ≠ .varHandle := by
  simp only [mem_cons, not_mem_nil, or_false] at h
  unfold Prepared.outs
  rcases h with h | h | h | h | h | h | h | h <;> rw [h] <;> exact ⟨rfl, by decide⟩

/-! ### Layers -/

theorem requantize_congr {y : QTensor} (hb : ∀ b ∈ o.biasBlock, m b = m' b) (acc : ℤ) (c : ℕ) :
    o.requantize y m acc c = o.requantize y m' acc c := by
  unfold Prepared.requantize
  cases hbias : o.biasBlock with
  | none => rfl
  | some b =>
    have hsame := hb b hbias
    simp only [int32At, Mem.bytes, hsame]

theorem convSum_congr (hx : m (o.input 0).toNat = m' (o.input 0).toNat)
    (hw : m (o.input 1).toNat = m' (o.input 1).toNat) (n oy ox oc : ℕ) :
    o.convSum x f y m n oy ox oc = o.convSum x f y m' n oy ox oc := by
  simp only [Prepared.convSum, Prepared.convRow, Prepared.convPixel, mac, int8At, Mem.byte, hx, hw]

theorem fcSum_congr (hx : m (o.input 0).toNat = m' (o.input 0).toNat)
    (hw : m (o.input 1).toNat = m' (o.input 1).toNat) (b u : ℕ) :
    o.fcSum x f m b u = o.fcSum x f m' b u := by
  simp only [Prepared.fcSum, mac, int8At, Mem.byte, hx, hw]

/-- One byte is put. -/
theorem requantize_length {acc : ℤ} {c : ℕ} {v : Bytes} (h : o.requantize y m acc c = some v) :
    v.length = 1 := by
  unfold Prepared.requantize at h
  cases hbias : o.biasBlock with
  | none =>
    simp only [hbias, Option.bind_eq_bind, Option.bind_eq_some_iff] at h
    obtain ⟨a, -, q, -, s, -, h⟩ := h
    cases h
    rfl
  | some b =>
    simp only [hbias, Option.bind_eq_bind, Option.bind_eq_some_iff] at h
    obtain ⟨w, -, a, -, q, -, s, -, h⟩ := h
    cases h
    rfl

theorem layer_covers {s : Step} {sum : Mem → Option ℤ} {c : ℕ}
    (hvalue : s.value = fun m => do o.requantize y m (← sum m) c) : s.Covers s.block s.place := by
  refine ⟨rfl, fun m v hv => ?_⟩
  rw [hvalue, Option.bind_eq_bind, Option.bind_eq_some_iff] at hv
  obtain ⟨a, -, hv⟩ := hv
  rw [requantize_length hv]
  omega

theorem layer_reads (hcode : o.code = .conv ∨ o.code = .dwconv ∨ o.code = .fc)
    (h : Same g.size (Places (o.reads g)) m m') :
    m (o.input 0).toNat = m' (o.input 0).toNat ∧ m (o.input 1).toNat = m' (o.input 1).toNat ∧
      ∀ b ∈ o.biasBlock, m b = m' b := by
  have hreads : o.reads g = g.whole (o.input 0) :: g.whole (o.input 1) ::
      o.biasBlock.toList.map fun b => (b, g.size b) := by
    unfold Prepared.reads
    rcases hcode with h | h | h <;> rw [h]
  refine ⟨whole_same h (by rw [hreads]; exact mem_cons_self),
    whole_same h (by rw [hreads]; exact mem_cons_of_mem _ mem_cons_self), fun b hb => ?_⟩
  refine h.block fun i hi => ⟨g.size b, ?_, hi⟩
  rw [hreads]
  exact mem_cons_of_mem _ (mem_cons_of_mem _
    (mem_map_of_mem (Option.mem_toList.mpr hb)))

theorem conv_flows (hr : ConvReady g o x f y) (hcode : o.code = .conv ∨ o.code = .dwconv) :
    Flows g o (o.convSteps x f y) := by
  obtain ⟨houts, hhandle⟩ := outs_one (o := o) (by rcases hcode with h | h <;> simp [h])
  refine ⟨fun s hs => ?_, fun s hs m m' hm =>
    ?_, single_outs houts hhandle (Net.size_tensor hr.output) ?_⟩
  · simp only [Prepared.convSteps, mem_flatMap, mem_map] at hs
    obtain ⟨n, -, oy, -, ox, -, oc, -, rfl⟩ := hs
    rw [houts]
    exact mem_singleton_self _
  · simp only [Prepared.convSteps, mem_flatMap, mem_map] at hs
    obtain ⟨n, -, oy, -, ox, -, oc, -, rfl⟩ := hs
    obtain ⟨hx, hw, hb⟩ := layer_reads (hcode.imp_right .inl) hm
    simp only [Prepared.convStep, convSum_congr hx hw, requantize_congr hb]
  · intro i hi
    rw [bytes_int8 hr.ytype, count_four hr.ydim] at hi
    obtain ⟨j, hj, oc, hoc, rfl⟩ := exists_mul_add hi
    obtain ⟨k, hk, ox, hox, rfl⟩ := exists_mul_add hj
    obtain ⟨n, hn, oy, hoy, rfl⟩ := exists_mul_add hk
    refine ⟨o.convStep x f y n oy ox oc, ?_, layer_covers rfl⟩
    simp only [Prepared.convSteps, mem_flatMap, mem_map, mem_range]
    exact ⟨n, hr.batch ▸ hn, oy, hoy, ox, hox, oc, hoc, rfl⟩

theorem fc_flows (hr : FcReady g o x f y) (hcode : o.code = .fc) : Flows g o (o.fcSteps x f y) := by
  obtain ⟨houts, hhandle⟩ := outs_one (o := o) (by simp [hcode])
  refine ⟨fun s hs => ?_, fun s hs m m' hm =>
    ?_, single_outs houts hhandle (Net.size_tensor hr.output) ?_⟩
  · simp only [Prepared.fcSteps, mem_flatMap, mem_map] at hs
    obtain ⟨b, -, u, -, rfl⟩ := hs
    rw [houts]
    exact mem_singleton_self _
  · simp only [Prepared.fcSteps, mem_flatMap, mem_map] at hs
    obtain ⟨b, -, u, -, rfl⟩ := hs
    obtain ⟨hx, hw, hb⟩ := layer_reads (.inr (.inr hcode)) hm
    simp only [Prepared.fcStep, fcSum_congr hx hw, requantize_congr hb]
  · intro i hi
    rw [bytes_int8 hr.ytype, hr.out] at hi
    obtain ⟨b, hb, u, hu, rfl⟩ := exists_mul_add hi
    refine ⟨o.fcStep x f y b u, ?_, layer_covers rfl⟩
    simp only [Prepared.fcSteps, mem_flatMap, mem_map, mem_range]
    exact ⟨b, hb, u, hu, rfl⟩

/-! ### Tables and copies -/

theorem bytes_length {b i n : ℕ} {v : Bytes} (h : m.bytes b i n = some v) : v.length = n := by
  unfold Mem.bytes at h
  split at h
  · cases h
    rw [length_take, length_drop]
    omega
  · cases h

/-- A copied stretch covers its places. -/
theorem bytes_covers {s : Step} {b i n : ℕ} (hvalue : s.value = fun m => m.bytes b i n) {k : ℕ}
    (hk : s.place ≤ k ∧ k < s.place + n) : s.Covers s.block k := by
  refine ⟨rfl, fun m v hv => ?_⟩
  rw [hvalue] at hv
  rw [bytes_length hv]
  exact hk

theorem table_flows (hr : Unary g o x y) (hsize : y.type.size = 1) (hcount : x.count = y.count)
    (hcode : o.code = .logistic ∨ o.code = .quantize) : Flows g o (o.tableSteps x) := by
  obtain ⟨houts, hhandle⟩ := outs_one (o := o) (by rcases hcode with h | h <;> simp [h])
  have hreads : o.reads g = [g.whole (o.input 0)] := by
    unfold Prepared.reads
    rcases hcode with h | h <;> rw [h]
  refine ⟨fun s hs => ?_, fun s hs m m' hm =>
    ?_, single_outs houts hhandle (Net.size_tensor hr.output) ?_⟩
  · obtain ⟨k, -, rfl⟩ := mem_map.mp hs
    rw [houts]
    exact mem_singleton_self _
  · obtain ⟨k, -, rfl⟩ := mem_map.mp hs
    have hx := whole_same hm (i := o.input 0) (by rw [hreads]; exact mem_singleton_self _)
    simp only [Mem.byte, hx]
  · intro i hi
    unfold Tensor.bytes at hi
    rw [hsize, Nat.mul_one] at hi
    refine ⟨_, mem_map_of_mem (mem_range.mpr (hcount.symm ▸ hi : i < x.count)), rfl,
      fun m v hv => ?_⟩
    simp only [Option.bind_eq_bind, Option.bind_eq_some_iff] at hv
    obtain ⟨b, -, c, -, hv⟩ := hv
    cases hv
    exact ⟨le_rfl, Nat.lt_succ_self i⟩

theorem reshape_flows (hr : Unary g o x y) (hcode : o.code = .reshape) :
    Flows g o (o.reshapeSteps y) := by
  obtain ⟨houts, hhandle⟩ := outs_one (o := o) (by simp [hcode])
  have hreads : o.reads g = [g.whole (o.input 0)] := by
    unfold Prepared.reads
    rw [hcode]
  refine ⟨fun s hs => ?_, fun s hs m m' hm =>
    ?_, single_outs houts hhandle (Net.size_tensor hr.output) ?_⟩
  · obtain rfl := mem_singleton.mp hs
    rw [houts]
    exact mem_singleton_self _
  · obtain rfl := mem_singleton.mp hs
    have hx := whole_same hm (i := o.input 0) (by rw [hreads]; exact mem_singleton_self _)
    simp only [Mem.bytes, hx]
  · intro i hi
    exact ⟨_, mem_singleton_self _,
      bytes_covers rfl ⟨Nat.zero_le i, by rw [Nat.zero_add]; exact hi⟩⟩

/-! ### Tensors joined and parted -/

/-- Every stretch has its place, and what is done for it there is done. -/
theorem laid_mem {n : Stretch → ℕ} {f : Stretch → ℕ → List Step} {l : List Stretch}
    {a : Stretch} (ha : a ∈ l) (pos : ℕ) : ∃ k, ∀ s ∈ f a k, s ∈ laid n f pos l := by
  induction l generalizing pos with
  | nil => cases ha
  | cons c l ih =>
    rcases mem_cons.mp ha with rfl | ha
    · exact ⟨pos, fun s hs => mem_append_left _ hs⟩
    · obtain ⟨k, hk⟩ := ih ha (pos + n c)
      exact ⟨k, fun s hs => mem_append_right _ (hk s hs)⟩

/-- Every place belongs to a stretch. -/
theorem laid_at {n : Stretch → ℕ} {f : Stretch → ℕ → List Step} {l : List Stretch}
    {pos i : ℕ} (hi : pos ≤ i) (hend : i < pos + (l.map n).sum) :
    ∃ a ∈ l, ∃ k, (∀ s ∈ f a k, s ∈ laid n f pos l) ∧ k ≤ i ∧ i < k + n a := by
  induction l generalizing pos with
  | nil =>
    rw [map_nil, sum_nil] at hend
    omega
  | cons a l ih =>
    rw [map_cons, sum_cons] at hend
    by_cases hfirst : i < pos + n a
    · exact ⟨a, mem_cons_self, pos, fun s hs => mem_append_left _ hs, hi, hfirst⟩
    · obtain ⟨b, hb, k, hk, hle, hlt⟩ := @ih (pos + n a) (by omega) (by omega)
      exact ⟨b, mem_cons_of_mem _ hb, k, fun s hs => mem_append_right _ (hk s hs), hle, hlt⟩

theorem tensors_fst {is : List ℤ} {l : List (ℕ × QTensor)} (h : g.tensors is = some l) :
    l.map Prod.fst = is.map Int.toNat := by
  induction is generalizing l with
  | nil =>
    cases h
    rfl
  | cons i is ih =>
    unfold Net.tensors at h ih
    rw [mapM_cons] at h
    simp only [Option.bind_eq_bind, Option.bind_eq_some_iff] at h
    obtain ⟨bt, ⟨t, -, hbt⟩, l', hl', h⟩ := h
    cases h
    cases hbt
    rw [map_cons, map_cons, ih hl']

theorem concat_flows {y : QTensor} {xs : List QTensor} {l : List (ℕ × QTensor)}
    (hr : PartsReady g (o.output 0) o.inputs o.axis y xs) (hl : g.tensors o.inputs = some l)
    (hcode : o.code = .concat) : Flows g o (o.joinSteps y l) := by
  obtain ⟨l', hl', hsnd, hall⟩ := hr.tensors
  obtain rfl := Option.some.inj (hl.symm.trans hl')
  obtain ⟨houts, hhandle⟩ := outs_one (o := o) (by simp [hcode])
  have hreads : o.reads g = o.inputs.map g.whole := by
    unfold Prepared.reads
    rw [hcode]
  refine ⟨fun s hs => ?_, fun s hs m m' hm =>
    ?_, single_outs houts hhandle (Net.size_tensor hr.whole) ?_⟩
  · obtain ⟨a, -, k, hsk, -⟩ := laid_within hs
    rw [houts, mem_singleton]
    unfold Prepared.joinPart at hsk
    dsimp only at hsk
    split at hsk
    · obtain ⟨j, -, rfl⟩ := mem_map.mp hsk
      rfl
    · obtain rfl := mem_singleton.mp hsk
      rfl
  · obtain ⟨a, ha, k, hsk, -⟩ := laid_within hs
    obtain ⟨j, hj, hb, -⟩ := hall _ (mem_stretches ha).2
    have hblock : m a.block = m' a.block := by
      rw [show a.block = j.toNat from hb]
      exact whole_same hm (by rw [hreads]; exact mem_map_of_mem hj)
    unfold Prepared.joinPart at hsk
    dsimp only at hsk
    split at hsk
    · obtain ⟨c, -, rfl⟩ := mem_map.mp hsk
      simp only [Mem.byte, hblock]
    · obtain rfl := mem_singleton.mp hsk
      simp only [Mem.bytes, hblock]
  · intro i hi
    rw [← hr.fills hsnd] at hi
    obtain ⟨a, ha, k, hk, hle, hlt⟩ := laid_at (f := o.joinPart y o.axis.toNat) (Nat.zero_le i)
      (by rw [Nat.zero_add]; exact hi)
    unfold Prepared.joinSteps
    dsimp only at hlt ⊢
    unfold Prepared.joinPart at hk
    dsimp only at hk
    split at hk
    · refine ⟨_, hk _ (mem_map_of_mem (mem_range.mpr (by omega : i - k < _))), rfl,
        fun m v hv => ?_⟩
      simp only [Option.bind_eq_bind, Option.bind_eq_some_iff] at hv
      obtain ⟨b, -, hv⟩ := hv
      cases hv
      dsimp only
      rw [length_singleton]
      omega
    · exact ⟨_, hk _ (mem_singleton_self _), bytes_covers rfl ⟨hle, hlt⟩⟩

theorem split_flows {x : QTensor} {ys : List QTensor} {l : List (ℕ × QTensor)}
    (hr : PartsReady g (o.input 0) o.outputs o.axis x ys) (hl : g.tensors o.outputs = some l)
    (hcode : o.code = .splitV) : Flows g o (o.splitSteps x l) := by
  obtain ⟨l', hl', hsnd, hall⟩ := hr.tensors
  obtain rfl := Option.some.inj (hl.symm.trans hl')
  have houts : o.outs = o.outputs.map Int.toNat := by
    unfold Prepared.outs
    rw [hcode]
  have hreads : o.reads g = [g.whole (o.input 0)] := by
    unfold Prepared.reads
    rw [hcode]
  have hhandle : o.code ≠ .varHandle := by
    rw [hcode]
    decide
  refine ⟨fun s hs => ?_, fun s hs m m' hm => ?_, ?_⟩
  · obtain ⟨a, ha, k, hsk, -⟩ := laid_within hs
    obtain ⟨j, hj, hb, -⟩ := hall _ (mem_stretches ha).2
    obtain rfl := mem_singleton.mp hsk
    rw [houts, show a.block = j.toNat from hb]
    exact mem_map_of_mem hj
  · obtain ⟨a, ha, k, hsk, -⟩ := laid_within hs
    obtain rfl := mem_singleton.mp hsk
    have hx := whole_same hm (i := o.input 0) (by rw [hreads]; exact mem_singleton_self _)
    simp only [Mem.bytes, hx]
  · rintro b i ⟨n, hn, hi⟩
    rw [Prepared.writes, houts, ← tensors_fst hl, map_map, mem_map] at hn
    obtain ⟨bt, hbt, hpair⟩ := hn
    obtain ⟨rfl, rfl⟩ := Prod.mk.inj hpair
    obtain ⟨j, -, hb, ht, htype, hdim, hsame⟩ := hall bt hbt
    rw [if_neg hhandle, hb, Net.size_tensor ht, QTensor.bytes_eq (hdim.symm ▸ hr.axis_lt),
      QTensor.stretch, QTensor.outer_eq hdim hsame, QTensor.inner_eq htype hdim hsame] at hi
    obtain ⟨k, hk, r, hrow, rfl⟩ := exists_mul_add hi
    have hstretch : (⟨k, bt.1, bt.2⟩ : Stretch) ∈ stretches (x.outer o.axis.toNat) l := by
      simp only [stretches, mem_flatMap, mem_map, mem_range]
      exact ⟨k, hk, bt, hbt, rfl⟩
    obtain ⟨pos, hpos⟩ := laid_mem (n := fun s => s.t.dim o.axis.toNat * x.inner o.axis.toNat)
      (f := o.splitPart x o.axis.toNat) hstretch 0
    exact ⟨_, hpos _ (mem_singleton_self _),
      bytes_covers rfl ⟨Nat.le_add_right _ _, Nat.add_lt_add_left hrow _⟩⟩

/-! ### Slices and variables -/

theorem slice_flows {x : SliceOperands} {reads : List (List ℤ)} (hr : SliceReady g o x)
    (hlength : reads.length = x.output.shape.count) (hcode : o.code = .stridedSlice) :
    Flows g o (o.sliceSteps x reads) := by
  obtain ⟨y, hy, hyx⟩ := hr.output
  obtain ⟨houts, hhandle⟩ := outs_one (o := o) (by simp [hcode])
  have hreads : o.reads g =
      [g.whole (o.input 0), g.whole (o.input 1), g.whole (o.input 2), g.whole (o.input 3)] := by
    unfold Prepared.reads
    rw [hcode]
  refine ⟨fun s hs => ?_, fun s hs m m' hm => ?_, single_outs houts hhandle (Net.size_tensor hy) ?_⟩
  · obtain ⟨c, -, rfl⟩ := mem_map.mp hs
    rw [houts]
    exact mem_singleton_self _
  · obtain ⟨c, -, rfl⟩ := mem_map.mp hs
    have hx := whole_same hm (i := o.input 0) (by rw [hreads]; exact mem_cons_self)
    simp only [Mem.bytes, hx]
  · intro i hi
    rw [hyx] at hi
    unfold Tensor.bytes at hi
    rw [hr.type, ← hlength] at hi
    obtain ⟨k, hk, r, hrow, rfl⟩ := exists_mul_add hi
    have hmem : (reads[k], k) ∈ reads.zipIdx := by
      rw [mem_zipIdx_iff_getElem?, getElem?_eq_getElem hk]
    refine ⟨_, mem_map_of_mem hmem, rfl, fun m v hv => ?_⟩
    dsimp only at hv ⊢
    split at hv
    · cases hv
    · rw [bytes_length hv]
      exact ⟨Nat.le_add_right _ _, by omega⟩

theorem handle_flows (hcode : o.code = .varHandle) : Flows g o o.handleSteps := by
  have houts : o.outs = [(o.output 0).toNat] := by
    unfold Prepared.outs
    rw [hcode]
  refine ⟨fun s hs => ?_, fun s hs m m' _ => ?_, ?_⟩
  · obtain rfl := mem_singleton.mp hs
    rw [houts]
    exact mem_singleton_self _
  · obtain rfl := mem_singleton.mp hs
    rfl
  · rintro b i ⟨n, hn, hi⟩
    rw [Prepared.writes, houts, map_singleton, mem_singleton, if_pos hcode] at hn
    obtain ⟨rfl, rfl⟩ := Prod.mk.inj hn
    refine ⟨_, mem_singleton_self _, rfl, fun m v hv => ?_⟩
    dsimp only at hv ⊢
    obtain rfl := Option.some.inj hv
    rw [(Wire.put32 (Int32.ofInt o.sub)).2]
    omega

/-! ### Two memories -/

/-- Steps from two memories that agree in what is read. -/
theorem Flows.same {l : List Step} (hf : Flows g o l) (hA : ∀ b i, Places (o.reads g) b i → A b i)
    (h : Same g.size A m m') :
    Option.Rel (Same g.size fun b i => A b i ∨ Places (o.writes g) b i) (run m l) (run m' l) := by
  have hreads : ∀ s ∈ l, s.Reads g.size A := fun s hs n n' hn =>
    hf.reads s hs n n' (hn.mono fun b i _ hb => hA b i hb)
  refine rel_imp (run_same hreads h) fun n n' hn => hn.mono fun b i _ hb => ?_
  exact hb.imp_right (hf.covers b i)

/-- The steps of an operator that is let through, from a memory in which what the loader has checked
is as it was. -/
theorem tensors_steps (hr : Ready g o) (hload : g.AsLoaded m)
    (hcode : o.code ∉ [.readVar, .assignVar, .callOnce]) :
    ∃ l, Flows g o l ∧ ∀ m', (∀ b ∈ o.checked, m' b = m b) → g.runTensors o m' = run m' l := by
  unfold Ready at hr
  unfold Net.runTensors
  cases hc : o.code with
  | conv =>
    simp only [hc] at hr
    obtain ⟨x, f, y, hr⟩ := hr
    refine ⟨_, conv_flows hr (.inl hc), fun m' _ => ?_⟩
    unfold Net.conv
    rw [hr.input, hr.filter, hr.output]
    rfl
  | dwconv =>
    simp only [hc] at hr
    obtain ⟨x, f, y, hr⟩ := hr
    refine ⟨_, conv_flows hr (.inr hc), fun m' _ => ?_⟩
    unfold Net.conv
    rw [hr.input, hr.filter, hr.output]
    rfl
  | fc =>
    simp only [hc] at hr
    obtain ⟨x, f, y, hr⟩ := hr
    refine ⟨_, fc_flows hr hc, fun m' _ => ?_⟩
    unfold Net.fullyConnected
    rw [hr.input, hr.filter, hr.output]
    rfl
  | logistic =>
    simp only [hc] at hr
    obtain ⟨x, y, hr, -, hsize, hcount, -⟩ := hr
    refine ⟨_, table_flows hr hsize hcount (.inl hc), fun m' _ => ?_⟩
    rw [hr.input]
    rfl
  | quantize =>
    simp only [hc] at hr
    obtain ⟨x, y, hr, -, hsize, hcount, -⟩ := hr
    refine ⟨_, table_flows hr hsize hcount (.inr hc), fun m' _ => ?_⟩
    rw [hr.input]
    rfl
  | reshape =>
    simp only [hc] at hr
    obtain ⟨x, y, hr, -⟩ := hr
    refine ⟨_, reshape_flows hr hc, fun m' _ => ?_⟩
    rw [hr.output]
    rfl
  | concat =>
    simp only [hc] at hr
    obtain ⟨y, xs, hr⟩ := hr
    obtain ⟨l, hl, -⟩ := hr.tensors
    refine ⟨_, concat_flows hr hl hc, fun m' _ => ?_⟩
    unfold Net.concat
    rw [hr.whole, hl]
    rfl
  | splitV =>
    simp only [hc] at hr
    obtain ⟨x, ys, hr⟩ := hr
    obtain ⟨l, hl, -⟩ := hr.tensors
    refine ⟨_, split_flows hr hl hc, fun m' _ => ?_⟩
    unfold Net.split
    rw [hr.whole, hl]
    rfl
  | stridedSlice =>
    simp only [hc] at hr
    obtain ⟨x, hr⟩ := hr
    obtain ⟨reads, hreads, hlength, -⟩ := slice_reads hr.ok
    refine ⟨_, slice_flows hr hlength hc, fun m' hsame => ?_⟩
    have hchecked : o.checked = [(o.input 1).toNat, (o.input 2).toNat, (o.input 3).toNat] := by
      unfold Prepared.checked
      rw [hc]
    -- its operands are constants, so they are as they were when it was checked
    have hnow : g.sliceNow o m' = some x := by
      refine sliceNow_eq hr hload fun i hi => hsame _ ?_
      rw [hchecked]
      simp only [mem_cons, not_mem_nil, or_false] at hi ⊢
      rcases hi with rfl | rfl | rfl <;> simp
    unfold Net.stridedSlice
    rw [hnow]
    simp only [Option.bind_eq_bind, Option.bind_some, hreads]
  | varHandle => exact ⟨_, handle_flows hc, fun m' _ => rfl⟩
  | readVar => exact absurd hcode (by rw [hc]; decide)
  | assignVar => exact absurd hcode (by rw [hc]; decide)
  | callOnce => exact absurd hcode (by rw [hc]; decide)
  | other c =>
    simp only [hc] at hr

/-- **Memories that agree in what an operator reads agree in what it writes.** -/
theorem tensors_same {m₀ : Mem} (hr : Ready g o) (hload : g.AsLoaded m₀)
    (hcode : o.code ∉ [.readVar, .assignVar, .callOnce])
    (hA : ∀ b i, Places (o.reads g) b i → A b i) (hm : ∀ b ∈ o.checked, m b = m₀ b)
    (hm' : ∀ b ∈ o.checked, m' b = m₀ b) (h : Same g.size A m m') :
    Option.Rel (Same g.size fun b i => A b i ∨ Places (o.writes g) b i) (g.runTensors o m)
      (g.runTensors o m') := by
  obtain ⟨l, hflow, hrun⟩ := tensors_steps hr hload hcode
  rw [hrun m hm, hrun m' hm']
  exact hflow.same hA h

end

end Hassmic.Mww
