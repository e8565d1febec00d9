import Hassmic.Mww.Ready

/-!
# A model run

A model is a graph, and perhaps a second one that gives the variables their first values.  A run
puts the features into the input, goes through the operators and takes the probability from the
output.  The variables keep the stream's past from one run to the next; a reset empties them.

The operators are run on a memory that stops them where they would leave a tensor: a run that comes
to its end, or breaks off at a variable of the wrong size, has not done so.

## Main definitions

* `Source`, `Program`, `Model`, `load` — a graph as it is read, one made ready, and a model.
* `State`, `Model.fresh`, `State.reset` — what a run leaves behind; a model just loaded;
  `mww_model_reset`.
* `runOps`, `Model.op`, `Model.run` — `run_graph` and `mww_model_run`.
* `Event`, `Model.after`, `Model.outputs` — histories of runs and resets.

## Main results

* `load_ready` — what is known of a model that loads.
-/

namespace Hassmic.Mww

open Byte Steps

/-! ### Models -/

/-- A graph as `load_tensors` and `load_ops` read it. -/
structure Source where
  net : Net
  ops : List Operator
  input : ℤ
  output : ℤ

/-- A graph with its operators made ready. -/
structure Program where
  net : Net
  ops : List Prepared
  input : ℤ
  output : ℤ

/-- `struct mww_model`: the main graph, the one for the start values of the variables, and how many
there are. -/
structure Model where
  main : Program
  start : Option Program
  nvar : ℕ

/-- The operators of a graph made ready in their order; each may name a variable. -/
def prepareAll (expf : Double → Double) (main : Bool) (ng : ℕ) (g : Net) :
    List Operator → List Bytes → Except Bytes (List Prepared × List Bytes)
  | [], vars => .ok ([], vars)
  | o :: l, vars => do
      let (p, vars) ← prepare expf main ng g vars o
      let (ps, vars) ← prepareAll expf main ng g l vars
      return (p :: ps, vars)

/-- The second graph, where there is one. -/
def prepareStart (expf : Double → Double) (vars : List Bytes) :
    Option Source → Except Bytes (Option Program × List Bytes)
  | none => .ok (none, vars)
  | some s => do
      let (ps, vars) ← prepareAll expf false 2 s.net s.ops vars
      return (some ⟨s.net, ps, s.input, s.output⟩, vars)

/-- `MWW_CHANNELS`. -/
abbrev channels : ℕ := 40

/-- `mww_model_load`, from graphs that have been read. -/
def load (expf : Double → Double) (main : Source) (start : Option Source) : Except Bytes Model := do
  let ng := if start.isSome then 2 else 1
  let (ops, vars) ← prepareAll expf true ng main.net main.ops []
  let (second, vars) ← prepareStart expf vars start
  let badIn := text "input: not 1 x n x 40 int8"
  let x ← orFail (main.net.operand main.input (some .int8) (some 3)) badIn
  refuse (x.dim 0 ≠ 1 ∨ x.dim 2 ≠ channels ∨ 16 < x.dim 1 ∨ ¬ x.quant.usable ∨
    x.quant.scales ≠ []) badIn
  let badOut := text "output: not one probability"
  let y ← orFail (main.net.operand main.output none none) badOut
  refuse (y.count ≠ 1 ∨ (y.type ≠ .uint8 ∧ y.type ≠ .int8) ∨ ¬ y.quant.usable ∨
    y.quant.scales ≠ []) badOut
  return ⟨⟨main.net, ops, main.input, main.output⟩, second, vars.length⟩

/-! ### Runs -/

/-- What is in the variables; an empty one has no memory yet. -/
abbrev Vars := ℕ → Option Bytes

/-- What a run leaves behind: the memory of both graphs, the variables, and whether they have been
started. -/
structure State where
  mem : Mem
  start : Mem
  vars : Vars
  initialized : Bool

/-- `mww_model_reset`. -/
def State.reset (s : State) : State := { s with vars := fun _ => none, initialized := false }

namespace Net

variable (g : Net) (nvar : ℕ) (o : Prepared)

/-- `OP_READ_VAR`: the tensors, and whether the run goes on. -/
def readVar (m : Mem) (vars : Vars) : Option (Mem × Bool) := do
  let id ← int32At m (o.input 0).toNat 0
  if id < 0 ∨ nvar ≤ id then return (m, false)
  else
    let y ← g.tensor (o.output 0)
    let d := (vars id.toNat).getD []
    if d.length ≠ y.bytes then return (m, false)
    else return (← m.put (o.output 0).toNat 0 d, true)

/-- `OP_ASSIGN_VAR`: the variables, and whether the run goes on. -/
def assignVar (m : Mem) (vars : Vars) : Option (Vars × Bool) := do
  let id ← int32At m (o.input 0).toNat 0
  if id < 0 ∨ nvar ≤ id then return (vars, false)
  else
    let v ← g.tensor (o.input 1)
    let bytes := (vars id.toNat).elim v.bytes List.length
    if bytes ≠ v.bytes then return (vars, false)
    else return (Function.update vars id.toNat (some (← m.bytes (o.input 1).toNat 0 v.bytes)), true)

/-- An operator other than a `CALL_ONCE`, which only the main graph has. -/
def runOp (s : Mem × Vars) : Option ((Mem × Vars) × Bool) :=
  match o.code with
  | .readVar => do
      let (m, ok) ← g.readVar nvar o s.1 s.2
      return ((m, s.2), ok)
  | .assignVar => do
      let (vars, ok) ← g.assignVar nvar o s.1 s.2
      return ((s.1, vars), ok)
  | _ => do return ((← g.runTensors o s.1, s.2), true)

end Net

/-- `run_graph`: the operators one after the other, as long as none breaks off. -/
def runOps {σ : Type} (f : Prepared → σ → Option (σ × Bool)) : List Prepared → σ → Option (σ × Bool)
  | [], s => some (s, true)
  | o :: l, s => do
      let (s, ok) ← f o s
      if ok then runOps f l s else return (s, false)

/-- Features as the values of the input. -/
def quantize (x : QTensor) (features : ℕ → UInt16) : Bytes :=
  (List.range x.count).map fun i =>
    clampByte
      (Double.roundEven
        (Double.round ((features i).toNat * (5 / 128) / x.quant.scale)) + x.quant.zp)
      (-128) 127

/-- The output's value in 256ths. -/
def probability (y : Quant) (v : ℤ) : ℤ :=
  match Single.mul (Single.mul (.fin ((v - y.zp : ℤ) : ℚ)) (.fin y.scale)) (.fin 256) with
  | .fin p => if p < 0 then 0 else if 255 < p then 255 else Double.lround p
  | .inf neg => if neg then 0 else 255
  | .nan => 0

namespace Model

variable (m : Model)

/-- `OP_CALL_ONCE`. -/
def callOnce (s : State) : Option (State × Bool) :=
  if s.initialized then some (s, true)
  else do
    let p ← m.start
    let ((start, vars), ok) ← runOps (p.net.runOp m.nvar) p.ops (s.start, s.vars)
    return ({ s with start := start, vars := vars, initialized := true }, ok)

/-- An operator of the main graph. -/
def op (o : Prepared) (s : State) : Option (State × Bool) :=
  if o.code = .callOnce then m.callOnce s
  else do
    let ((mem, vars), ok) ← m.main.net.runOp m.nvar o (s.mem, s.vars)
    return ({ s with mem := mem, vars := vars }, ok)

/-- What is in the output. -/
def result (s : State) : Option ℤ := do
  let y ← m.main.net.tensor m.main.output
  let b ← s.mem.byte m.main.output.toNat 0
  return probability y.quant (if y.type = .uint8 then b.toNat else int8Of b)

/-- `mww_model_run`: the probability, or -1 where the model broke. -/
def run (features : ℕ → UInt16) (s : State) : Option (State × ℤ) := do
  let x ← m.main.net.tensor m.main.input
  let mem ← s.mem.put m.main.input.toNat 0 (quantize x features)
  let (s, ok) ← runOps m.op m.main.ops { s with mem := mem }
  if ok then return (s, ← m.result s) else return (s, -1)

/-- A model just loaded. -/
def fresh : State where
  mem := m.main.net.mem
  start := m.start.elim (fun _ => []) fun p => p.net.mem
  vars := fun _ => none
  initialized := false

end Model

/-- What happens to a model. -/
inductive Event
  | run (features : ℕ → UInt16)
  | reset

namespace Model

variable (m : Model)

/-- One thing that happens. -/
def step (s : State) : Event → Option State
  | .run features => (m.run features s).map Prod.fst
  | .reset => some s.reset

/-- The state after a history. -/
def after (s : State) (l : List Event) : Option State := l.foldlM m.step s

/-- The results of runs on these features, one after the other. -/
def outputs : State → List (ℕ → UInt16) → Option (List ℤ)
  | _, [] => some []
  | s, f :: l => do
      let (s, v) ← m.run f s
      return v :: (← outputs s l)

end Model

/-! ### What is known of a model that loads -/

/-- The operators of a graph that have been let through. -/
def Program.Ready (P : Program) : Prop := ∀ o ∈ P.ops, Mww.Ready P.net o

/-- A model that has been let through. -/
structure Model.Ready (m : Model) : Prop where
  main : m.main.Ready
  start : ∀ P ∈ m.start, P.Ready
  once : ∀ o ∈ m.main.ops, o.code = .callOnce → m.start.isSome
  noOnce : ∀ P ∈ m.start, ∀ o ∈ P.ops, o.code ≠ .callOnce
  input : ∃ x, m.main.net.tensor m.main.input = some x ∧ x.type = .int8
  output : ∃ y, m.main.net.tensor m.main.output = some y ∧ y.count = 1 ∧ y.type.size = 1

section

variable {expf : Double → Double} {g : Net}

theorem prepareAll_mem {main : Bool} {ng : ℕ} {l : List Operator} {vars vars' : List Bytes}
    {ps : List Prepared} (h : prepareAll expf main ng g l vars = .ok (ps, vars'))
    {p : Prepared} (hp : p ∈ ps) :
    ∃ o vs vs', prepare expf main ng g vs o = .ok (p, vs') := by
  induction l generalizing vars ps with
  | nil =>
    obtain ⟨rfl, -⟩ := Prod.mk.inj (Except.ok.inj h)
    cases hp
  | cons o l ih =>
    rw [prepareAll] at h
    simp only [Except.bind_eq_ok_iff] at h
    obtain ⟨⟨q, vs⟩, hq, ⟨qs, vs'⟩, hqs, h⟩ := h
    obtain ⟨rfl, rfl⟩ := Prod.mk.inj (Except.ok.inj h)
    rcases List.mem_cons.mp hp with rfl | hp
    · exact ⟨o, vars, vs, hq⟩
    · exact ih hqs hp

theorem prepare_once {main : Bool} {ng : ℕ} {o : Operator} {p : Prepared} {vars vars' : List Bytes}
    (h : prepare expf main ng g vars o = .ok (p, vars')) (hcode : p.code = .callOnce) :
    main = true ∧ ng = 2 := by
  have hp := (prepare_ready h).1.symm.trans hcode
  unfold prepare at h
  simp only [hp] at h
  have hq := of_map h
  unfold prepareCallOnce at hq
  simp only [Except.bind_eq_ok_iff, refuse_ok] at hq
  obtain ⟨-, hcheck, -⟩ := hq
  push Not at hcheck
  exact ⟨by simpa using hcheck.1, hcheck.2.2⟩

/-- **What is known of a model that loads.** -/
theorem load_ready {src : Source} {start : Option Source} {m : Model}
    (h : load expf src start = .ok m) :
    m.Ready := by
  unfold load at h
  simp only [Except.bind_eq_ok_iff, orFail_ok, refuse_ok] at h
  obtain ⟨⟨ops, vars⟩, hops, ⟨second, vars'⟩, hsecond, x, hx, -, -, y, hy, -, hout, h⟩ := h
  obtain rfl := Except.ok.inj h
  obtain ⟨hxt, hxtype, -⟩ := operand_some hx
  obtain ⟨hyt, -, -⟩ := operand_some hy
  push Not at hout
  have hstart : ∀ P ∈ second, ∃ s, start = some s ∧ P.net = s.net ∧ ∀ p ∈ P.ops, ∃ o vs vs',
      prepare expf false 2 s.net vs o = .ok (p, vs') := by
    intro P hP
    cases start with
    | none =>
      obtain ⟨rfl, -⟩ := Prod.mk.inj (Except.ok.inj hsecond)
      cases hP
    | some s =>
      rw [prepareStart] at hsecond
      simp only [Except.bind_eq_ok_iff] at hsecond
      obtain ⟨⟨ps, vs⟩, hps, hsecond⟩ := hsecond
      obtain ⟨rfl, -⟩ := Prod.mk.inj (Except.ok.inj hsecond)
      cases hP
      exact ⟨s, rfl, rfl, fun p hp => prepareAll_mem hps hp⟩
  refine ⟨fun p hp => ?_, fun P hP p hp => ?_, fun p hp hcode => ?_, fun P hP p hp hcode => ?_,
    ⟨x, hxt, hxtype _ rfl⟩, y, hyt, hout.1, ?_⟩
  · obtain ⟨o, vs, vs', hprep⟩ := prepareAll_mem hops hp
    exact (prepare_ready hprep).2
  · obtain ⟨s, -, hnet, hall⟩ := hstart P hP
    obtain ⟨o, vs, vs', hprep⟩ := hall p hp
    rw [hnet]
    exact (prepare_ready hprep).2
  · obtain ⟨o, vs, vs', hprep⟩ := prepareAll_mem hops hp
    have hng := (prepare_once hprep hcode).2
    cases start with
    | none => cases hng
    | some s =>
      rw [prepareStart] at hsecond
      simp only [Except.bind_eq_ok_iff] at hsecond
      obtain ⟨⟨ps, vs⟩, -, hsecond⟩ := hsecond
      obtain ⟨rfl, -⟩ := Prod.mk.inj (Except.ok.inj hsecond)
      rfl
  · obtain ⟨s, -, -, hall⟩ := hstart P hP
    obtain ⟨o, vs, vs', hprep⟩ := hall p hp
    exact absurd (prepare_once hprep hcode).1 Bool.false_ne_true
  · by_cases hu : y.type = .uint8
    · rw [hu]
      rfl
    · rw [hout.2.1 hu]
      rfl

end

/-! ### On fixed inputs -/

deriving instance DecidableEq for Shape
deriving instance DecidableEq for Tensor
deriving instance DecidableEq for Quant
deriving instance DecidableEq for QTensor
deriving instance DecidableEq for Net
deriving instance DecidableEq for Program
deriving instance DecidableEq for Model

/-- The shape of one frame of features. -/
def frame : Shape := ⟨[1, 1, 40], by decide, by decide, by decide⟩

end Hassmic.Mww
