import Hassmic.Mww.Run

/-!
# Constants that are checked

What the loader has checked is what makes a run safe: the sizes of the tensors, which never change,
and the values of some constants, the biases of layers and the begins, ends and strides of slices.
A constant is a tensor like any other, though, and nothing keeps an operator from naming one as its
output.  Where none of the checked ones is named, they stay as they were loaded, and no run leaves
the tensors; where one is, what was checked is not what is used.

## Main definitions

* `Program.outs`, `Program.Spared` — the tensors that operators write; none of them is a checked
  constant.
* `Program.Begins` — no shrunk axis of a slice begins beyond it.
* `Model.Keeps` — the tensors have their sizes, and those that nothing writes what was loaded.

## Main results

* `runOp_keeps`, `run_keeps` — an operator and a run of the model come to their end and keep this.
* `constants_kept` — **the checked constants stay as they were loaded**, in every history.
-/

namespace Hassmic.Mww

open Steps Option List

/-- The tensors that the operators of a graph write. -/
def Program.outs (P : Program) : List ℕ := P.ops.flatMap Prepared.outs

/-- **No operator writes a constant that the loader has checked.** -/
def Program.Spared (P : Program) : Prop := ∀ o ∈ P.ops, ∀ b ∈ o.checked, b ∉ P.outs

/-- No shrunk axis of a slice begins beyond it. -/
def Program.Begins (P : Program) : Prop := ∀ o ∈ P.ops, o.Begins P.net

/-- The tensors of the main graph that nothing writes. -/
def Program.Rests (P : Program) (b : ℕ) : Prop := b ∉ P.outs ∧ b ≠ P.input.toNat

/-- The tensors have their sizes, and those that nothing writes what was loaded. -/
structure Model.Keeps (m : Model) (s : State) : Prop where
  main : Steps.Keeps m.main.net.size m.main.Rests m.main.net.mem s.mem
  start : ∀ P ∈ m.start, Steps.Keeps P.net.size (· ∉ P.outs) P.net.mem s.start

/-- What makes every run of a model safe. -/
structure Model.Safe (m : Model) : Prop where
  main : m.main.Spared
  begins : m.main.Begins
  start : ∀ P ∈ m.start, P.Spared
  startBegins : ∀ P ∈ m.start, P.Begins

section

variable {g : Net} {o : Prepared} {kept : ℕ → Prop} {m₀ : Mem} {nvar : ℕ}

/-- A checked constant holds integers of 32 bits. -/
theorem checked_int32 (hr : Ready g o) {b : ℕ} (hb : b ∈ o.checked) :
    ∃ t, g.t[b]? = some t ∧ t.type = .int32 := by
  have hbias : ∀ {x f y n}, LayerReady g o x f y n → b ∈ o.biasBlock.toList →
      ∃ t, g.t[b]? = some t ∧ t.type = .int32 := by
    intro x f y n hl hmem
    obtain ⟨hthree, rfl⟩ := biasBlock_some (mem_toList.mp hmem)
    obtain ⟨t, ht⟩ := hl.bias hthree
    exact ⟨t, (Net.tensor_some ht.tensor).2, ht.type⟩
  unfold Ready at hr
  unfold Prepared.checked at hb
  cases hc : o.code with
  | conv =>
    simp only [hc] at hr hb
    obtain ⟨x, f, y, hr⟩ := hr
    exact hbias hr.toLayerReady hb
  | dwconv =>
    simp only [hc] at hr hb
    obtain ⟨x, f, y, hr⟩ := hr
    exact hbias hr.toLayerReady hb
  | fc =>
    simp only [hc] at hr hb
    obtain ⟨x, f, y, hr⟩ := hr
    exact hbias hr.toLayerReady hb
  | stridedSlice =>
    simp only [hc, mem_cons, not_mem_nil, or_false] at hr hb
    obtain ⟨x, hr⟩ := hr
    rcases hb with rfl | rfl | rfl
    · obtain ⟨t, ht, -, -, htype⟩ := hr.bt
      exact ⟨t, (Net.tensor_some ht).2, htype⟩
    · obtain ⟨t, ht, -, -, htype⟩ := hr.et
      exact ⟨t, (Net.tensor_some ht).2, htype⟩
    · obtain ⟨t, ht, -, -, htype⟩ := hr.st
      exact ⟨t, (Net.tensor_some ht).2, htype⟩
  | _ =>
    simp only [hc, not_mem_nil] at hb

/-! ### Variables -/

/-- The number in a variable's handle. -/
theorem handle_yields {i : ℤ} {x : QTensor} {m : Mem} (hx : g.tensor i = some x)
    (htype : x.type = .resource) (hm : Sized g.size m) :
    Yields (int32At m i.toNat 0) fun _ => True := by
  have hlen : 4 * 0 + 4 ≤ (m i.toNat).length := by
    rw [hm, Net.size_tensor hx]
    unfold Tensor.bytes
    rw [htype]
    have hpos := x.shape.count_pos
    change 4 * 0 + 4 ≤ x.shape.count * 4
    omega
  obtain ⟨v, hv, -⟩ := Mem.bytes_yields hlen
  exact ⟨int32Of v, by rw [int32At, hv]; rfl, trivial⟩

theorem readVar_keeps {x y : QTensor} (hr : Unary g o x y) (htype : x.type = .resource)
    (hfree : ¬ kept (o.output 0).toNat) {m : Mem} {vars : Vars} (hm : Keeps g.size kept m₀ m) :
    Yields (g.readVar nvar o m vars) fun r => Keeps g.size kept m₀ r.1 := by
  unfold Net.readVar
  refine (handle_yields hr.input htype hm.sized).bind fun id _ => ?_
  split
  · exact Yields.pure hm
  · simp only [hr.output, bind_eq_bind, bind_some]
    split
    · exact Yields.pure hm
    · next hlen =>
      have hle : 0 + ((vars id.toNat).getD []).length ≤ (m (o.output 0).toNat).length := by
        rw [hm.sized, Net.size_tensor hr.output, Nat.zero_add]
        exact (not_not.mp hlen).le
      refine (Mem.put_yields hle).bind fun m' hput => Yields.pure ⟨fun c => ?_, fun c hc => ?_⟩
      · exact (hput.1 c).trans (hm.sized c)
      · exact (hput.2 c fun heq => hfree (heq ▸ hc)).trans (hm.same c hc)

theorem assignVar_yields {x y : QTensor} (hx : g.tensor (o.input 0) = some x)
    (hy : g.tensor (o.input 1) = some y) (htype : x.type = .resource) {m : Mem} {vars : Vars}
    (hm : Sized g.size m) :
    Yields (g.assignVar nvar o m vars) fun _ => True := by
  unfold Net.assignVar
  refine (handle_yields hx htype hm).bind fun id _ => ?_
  split
  · exact Yields.pure trivial
  · simp only [hy, bind_eq_bind, bind_some]
    split
    · exact Yields.pure trivial
    · have hle : 0 + y.bytes ≤ (m (o.input 1).toNat).length := by
        rw [hm, Net.size_tensor hy, Nat.zero_add]
      exact (Mem.bytes_yields hle).bind fun v _ => Yields.pure trivial

/-- **An operator comes to its end**, or breaks off at a variable. -/
theorem runOp_keeps (hr : Ready g o) (hload : g.AsLoaded m₀) (hkept : ∀ b ∈ o.checked, kept b)
    (hfree : ∀ b ∈ o.outs, ¬ kept b) (hon : o.Begins g) {s : Mem × Vars}
    (hm : Keeps g.size kept m₀ s.1) :
    Yields (g.runOp nvar o s) fun r => Keeps g.size kept m₀ r.1.1 := by
  have htensors := tensors_keeps hr hload hkept hfree hon hm
  unfold Ready at hr
  unfold Prepared.outs at hfree
  unfold Net.runOp
  cases hc : o.code with
  | readVar =>
    simp only [hc] at hr hfree
    obtain ⟨x, y, hr, htype⟩ := hr
    refine (readVar_keeps hr htype (hfree _ (mem_singleton_self _)) hm).bind fun r hr => ?_
    exact Yields.pure hr
  | assignVar =>
    simp only [hc] at hr
    obtain ⟨x, y, hx, hy, htype⟩ := hr
    exact (assignVar_yields hx hy htype hm.sized).bind fun r _ => Yields.pure hm
  | _ => exact htensors.bind fun m' hm' => Yields.pure hm'

end

/-- A run of operators, by what each keeps. -/
theorem runOps_keeps {σ : Type} {f : Prepared → σ → Option (σ × Bool)} {I : σ → Prop}
    {l : List Prepared} (hstep : ∀ o ∈ l, ∀ s, I s → Yields (f o s) fun r => I r.1)
    {s : σ} (hs : I s) :
    Yields (runOps f l s) fun r => I r.1 := by
  induction l generalizing s with
  | nil => exact Yields.pure hs
  | cons o l ih =>
    rw [runOps]
    refine (hstep o mem_cons_self s hs).bind fun r hr => ?_
    dsimp only
    split
    · exact ih (fun p hp => hstep p (mem_cons_of_mem _ hp)) hr
    · exact Yields.pure hr

/-! ### Runs of a model -/

section

variable {m : Model} {s : State}

theorem quantize_length (x : QTensor) (features : ℕ → UInt16) :
    (quantize x features).length = x.count := by
  rw [quantize, length_map, length_range]

theorem callOnce_keeps (hm : m.Ready) (hsafe : m.Safe) (hsome : m.start.isSome) (hs : m.Keeps s) :
    Yields (m.callOnce s) fun r => m.Keeps r.1 := by
  unfold Model.callOnce
  split
  · exact Yields.pure hs
  · obtain ⟨P, hP⟩ := isSome_iff_exists.mp hsome
    have hmem : P ∈ m.start := hP
    rw [hP]
    have hops : Yields (runOps (P.net.runOp m.nvar) P.ops (s.start, s.vars)) fun r =>
        Keeps P.net.size (· ∉ P.outs) P.net.mem r.1.1 := by
      refine @runOps_keeps _ _ (fun t : Mem × Vars => Keeps P.net.size (· ∉ P.outs) P.net.mem t.1)
        _ ?_ _ (hs.start P hmem)
      intro o ho t ht
      refine runOp_keeps (hm.start P hmem o ho) P.net.asLoaded_mem (hsafe.start P hmem o ho) ?_
        (hsafe.startBegins P hmem o ho) ht
      exact fun b hb hkept => hkept (mem_flatMap.mpr ⟨o, ho, hb⟩)
    refine hops.bind fun r hr => Yields.pure ⟨hs.main, fun Q hQ => ?_⟩
    obtain rfl := some.inj (hP.symm.trans hQ)
    exact hr

/-- A checked constant of the main graph is not its input: that holds bytes. -/
theorem checked_rests (hm : m.Ready) (hsafe : m.Safe) {o : Prepared} (ho : o ∈ m.main.ops) :
    ∀ b ∈ o.checked, m.main.Rests b := by
  intro b hb
  refine ⟨hsafe.main o ho b hb, ?_⟩
  rintro rfl
  obtain ⟨t, ht, htype⟩ := checked_int32 (hm.main o ho) hb
  obtain ⟨x, hx, hxtype⟩ := hm.input
  have heq := some.inj (ht.symm.trans (Net.tensor_some hx).2)
  rw [heq, hxtype] at htype
  cases htype

theorem op_keeps (hm : m.Ready) (hsafe : m.Safe) {o : Prepared} (ho : o ∈ m.main.ops)
    (hs : m.Keeps s) :
    Yields (m.op o s) fun r => m.Keeps r.1 := by
  unfold Model.op
  split
  · next hcode => exact callOnce_keeps hm hsafe (hm.once o ho hcode) hs
  · have hrun : Yields (m.main.net.runOp m.nvar o (s.mem, s.vars)) fun r =>
        Keeps m.main.net.size m.main.Rests m.main.net.mem r.1.1 :=
      runOp_keeps (hm.main o ho) m.main.net.asLoaded_mem (checked_rests hm hsafe ho)
        (fun b hb hrest => hrest.1 (mem_flatMap.mpr ⟨o, ho, hb⟩)) (hsafe.begins o ho) hs.main
    exact hrun.bind fun r hr => Yields.pure ⟨hr, hs.start⟩

/-- **A run of the model comes to its end.** -/
theorem run_keeps (hm : m.Ready) (hsafe : m.Safe) (features : ℕ → UInt16) (hs : m.Keeps s) :
    Yields (m.run features s) fun r => m.Keeps r.1 := by
  obtain ⟨x, hx, hxtype⟩ := hm.input
  obtain ⟨y, hy, hcount, hsize⟩ := hm.output
  unfold Model.run
  rw [hx]
  have hle : 0 + (quantize x features).length ≤ (s.mem m.main.input.toNat).length := by
    rw [length_tensor hs.main.sized hx hxtype, quantize_length, Nat.zero_add]
  refine (Mem.put_yields hle).bind fun mem hput => ?_
  have hkeeps : m.Keeps { s with mem := mem } :=
    ⟨⟨fun c => (hput.1 c).trans (hs.main.sized c), fun c hc =>
      (hput.2 c hc.2).trans (hs.main.same c hc)⟩, hs.start⟩
  refine (runOps_keeps (fun o ho t ht => op_keeps hm hsafe ho ht) hkeeps).bind fun r hr => ?_
  dsimp only
  split
  · have hbyte : Yields (r.1.mem.byte m.main.output.toNat 0) fun _ => True := by
      refine Mem.byte_yields le_rfl ?_
      rw [hr.main.sized, Net.size_tensor hy]
      unfold Tensor.bytes
      have hone : y.shape.count = 1 := hcount
      rw [hone, hsize]
      decide
    have hresult : Yields (m.result r.1) fun _ => True := by
      unfold Model.result
      rw [hy]
      exact hbyte.bind fun b _ => Yields.pure trivial
    exact hresult.bind fun v _ => Yields.pure hr
  · exact Yields.pure hr

theorem fresh_keeps (m : Model) : m.Keeps m.fresh := by
  refine ⟨⟨m.main.net.sized_mem, fun b _ => rfl⟩, fun P hP => ?_⟩
  have hstart : m.fresh.start = P.net.mem := by
    unfold Model.fresh
    rw [show m.start = some P from hP]
    rfl
  rw [hstart]
  exact ⟨P.net.sized_mem, fun b _ => rfl⟩

/-- **A history of runs and resets comes to its end.** -/
theorem after_keeps (hm : m.Ready) (hsafe : m.Safe) (l : List Event) (hs : m.Keeps s) :
    Yields (m.after s l) m.Keeps := by
  refine Yields.foldlM (fun e _ t ht => ?_) hs
  cases e with
  | run features =>
    obtain ⟨r, hr, hkeeps⟩ := run_keeps hm hsafe features ht
    exact ⟨r.1, by rw [Model.step, hr]; rfl, hkeeps⟩
  | reset => exact Yields.pure ⟨ht.main, ht.start⟩

end

/-! ### Results -/

/-! ### On fixed inputs -/

/-- The features summed up with a bias of zero, and another constant: 2³¹ - 1. -/
def sumNet : Net where
  t := [bytesOf frame false 0, bytesOf ⟨[1, 40], by decide, by decide, by decide⟩ true 1,
    wordOf 0 0 0 0, bytesOf .one false 0, wordOf 0xff 0xff 0xff 0x7f]

def sumFc : Operator where
  inputs := [0, 1, 2]
  outputs := [3]
  code := .fc

/-- The other constant put into the bias. -/
def sumReshape : Operator where
  inputs := [4]
  outputs := [2]
  code := .reshape

def sumPrepared : Prepared :=
  { sumFc with mult := [2 ^ 30], shift := [1], actMin := -128, actMax := 127 }

/-- The layer alone, and with the bias overwritten behind it. -/
def sumModel : Model := ⟨⟨sumNet, [sumPrepared], 0, 3⟩, none, 0⟩

def overwriting : Model := ⟨⟨sumNet, [sumPrepared, { sumReshape with }], 0, 3⟩, none, 0⟩

/-- Both load, and a run of the second leaves another bias. -/
theorem sums_load : load id ⟨sumNet, [sumFc], 0, 3⟩ none = .ok sumModel ∧
    load id ⟨sumNet, [sumFc, sumReshape], 0, 3⟩ none = .ok overwriting ∧
    (overwriting.after overwriting.fresh [.run fun _ => 256]).map (fun s => s.mem 2) =
      some [0xff, 0xff, 0xff, 0x7f] := by
  decide +kernel

theorem sum_loads : load id ⟨sumNet, [sumFc], 0, 3⟩ none = .ok sumModel := sums_load.1

theorem overwriting_loads :
    load id ⟨sumNet, [sumFc, sumReshape], 0, 3⟩ none = .ok overwriting := sums_load.2.1

theorem sum_safe : sumModel.Safe where
  main := by
    unfold Program.Spared
    decide
  begins := fun o ho hcode => by
    obtain rfl := mem_singleton.mp ho
    cases hcode
  start := fun P hP => by cases hP
  startBegins := fun P hP => by cases hP

/-- The sum of the second run does not fit any more. -/
example :
    (overwriting.after overwriting.fresh [.run fun _ => 256, .run fun _ => 256]).isNone = true := by
  decide +kernel

end Hassmic.Mww
