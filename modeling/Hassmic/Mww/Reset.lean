import Hassmic.Mww.Constants
import Hassmic.Mww.Flow

/-!
# A model reset

A reset empties the variables and leaves the tensors as the last run left them.  That is as good as
loading the model again if no operator reads a tensor before this run has written it: what a run
finds in the tensors is then either what it has put there itself or what was loaded and nothing
writes.

## Main definitions

* `Ordered` — no operator reads what is written only later.
* `Twins`, `Model.Twins` — two states that agree in the variables and in what has been written by
  now.

## Main results

* `runOp_twins`, `runOps_twins`, `run_twins` — an operator, a graph and a run keep states alike.
* `reset_fresh` — **a model that is reset gives what a model just loaded gives**.
-/

namespace Hassmic.Mww

open Steps List Option

/-- An operator reads only what nothing writes, or what has been written by now. -/
def Prepared.Finds (g : Net) (o : Prepared) (written : List ℕ) (done : List (ℕ × ℕ)) : Prop :=
  ∀ r ∈ o.reads g, r.1 ∉ written ∨ ∃ d ∈ done, d.1 = r.1 ∧ r.2 ≤ d.2

/-- **No operator reads what is written only later.** -/
def Ordered (g : Net) (written : List ℕ) : List (ℕ × ℕ) → List Prepared → Prop
  | _, [] => True
  | done, o :: l => o.Finds g written done ∧ Ordered g written (done ++ o.writes g) l

/-- The tensors that a run of the main graph writes. -/
def Program.written (P : Program) : List ℕ := P.input.toNat :: P.outs

/-- A model none of whose operators reads what is written only later. -/
structure Model.Ordered (m : Model) : Prop where
  main : Mww.Ordered m.main.net m.main.written [m.main.net.whole m.main.input] m.main.ops
  start : ∀ P ∈ m.start, Mww.Ordered P.net P.outs [] P.ops

/-- The places that nothing writes, or that have been written by now. -/
def Known (written : List ℕ) (done : List (ℕ × ℕ)) (b i : ℕ) : Prop := b ∉ written ∨ Places done b i

/-! ### Two states side by side -/

/-- Two states of a graph: the variables are the same, and so are the tensors at these places;
tensors that nothing writes are as they were loaded. -/
structure Twins (g : Net) (kept : ℕ → Prop) (A : ℕ → ℕ → Prop) (s s' : Mem × Vars) : Prop where
  same : Same g.size A s.1 s'.1
  vars : s.2 = s'.2
  keeps : Keeps g.size kept g.mem s.1
  keeps' : Keeps g.size kept g.mem s'.1

section

variable {g : Net} {kept : ℕ → Prop} {A B : ℕ → ℕ → Prop} {s s' : Mem × Vars}
  {o : Prepared} {nvar : ℕ}

theorem Twins.mono (h : Twins g kept A s s') (hB : ∀ b i, B b i → A b i) : Twins g kept B s s' :=
  ⟨h.same.mono fun b i _ => hB b i, h.vars, h.keeps, h.keeps'⟩

theorem rel_and {α β : Type} {R : α → β → Prop} {P : α → Prop} {Q : β → Prop}
    {x : Option α} {y : Option β} (h : Option.Rel R x y) (hx : Yields x P) (hy : Yields y Q) :
    Option.Rel (fun a b => R a b ∧ P a ∧ Q b) x y := by
  obtain ⟨a, rfl, ha⟩ := hx
  obtain ⟨b, rfl, hb⟩ := hy
  cases h with
  | some hab => exact Option.Rel.some ⟨hab, ha, hb⟩

theorem same_bytes {size : ℕ → ℕ} {m m' : Mem} (h : Same size A m m') {b i n : ℕ}
    (hA : ∀ k < n, A b (i + k)) : m.bytes b i n = m'.bytes b i n := by
  unfold Mem.bytes
  rw [h.length b]
  split
  · next hle =>
    rw [some_inj]
    refine ext_getElem? fun k => ?_
    by_cases hk : k < n
    · rw [getElem?_take_of_lt hk, getElem?_take_of_lt hk, getElem?_drop, getElem?_drop]
      exact h.byte b (i + k) (hA k hk)
    · have hlen : ∀ l : Bytes, (l.take n).length ≤ k := fun l => by
        rw [length_take]
        omega
      rw [getElem?_eq_none (hlen _), getElem?_eq_none (hlen _)]
  · rfl

/-- The number of a variable. -/
theorem same_handle {size : ℕ → ℕ} {m m' : Mem} (h : Same size A m m') {b : ℕ}
    (hA : ∀ k < 4, A b k) :
    int32At m b 0 = int32At m' b 0 := by
  unfold int32At
  rw [same_bytes h fun k hk => by rw [Nat.mul_zero, Nat.zero_add]; exact hA k hk]

theorem readVar_same {x y : QTensor} (hr : Unary g o x y) (hcode : o.code = .readVar)
    (hA : ∀ b i, Places (o.reads g) b i → A b i) (h : Same g.size A s.1 s'.1) (hvars : s.2 = s'.2) :
    Option.Rel (fun r r' => r.2 = r'.2 ∧ Same g.size A r.1 r'.1 ∧
      (r.2 = true → Same g.size (fun b i => A b i ∨ Places (o.writes g) b i) r.1 r'.1))
      (g.readVar nvar o s.1 s.2) (g.readVar nvar o s'.1 s'.2) := by
  have hreads : o.reads g = [((o.input 0).toNat, 4)] := by
    unfold Prepared.reads
    rw [hcode]
  have hwrites : o.writes g = [g.whole (o.output 0)] := by
    unfold Prepared.writes Prepared.outs
    rw [hcode]
    rfl
  unfold Net.readVar
  rw [← hvars, same_handle h fun k hk =>
    hA _ k (by rw [hreads]; exact ⟨4, mem_singleton_self _, hk⟩)]
  cases int32At s'.1 (o.input 0).toNat 0 with
  | none => exact Option.Rel.none
  | some id =>
    simp only [bind_eq_bind, bind_some, hr.output]
    split
    · exact Option.Rel.some ⟨rfl, h, fun hbool => absurd hbool Bool.false_ne_true⟩
    · split
      · exact Option.Rel.some ⟨rfl, h, fun hbool => absurd hbool Bool.false_ne_true⟩
      · next hlen =>
        -- the variable is put over the whole tensor
        obtain ⟨d, hd⟩ : ∃ d, (s.2 id.toNat).getD [] = d := ⟨_, rfl⟩
        rw [hd] at hlen ⊢
        have hstep := Step.run_same (s := ⟨(o.output 0).toNat, 0, fun _ => some d⟩)
          (fun _ _ _ => rfl) h
        refine rel_bind hstep fun n n' hn =>
          Option.Rel.some ⟨rfl, hn.mono fun b i _ hb => .inl hb, fun _ => ?_⟩
        refine hn.mono fun b i hi hb => hb.imp_right fun hplace => ?_
        obtain ⟨k, hk, -⟩ := hplace
        rw [hwrites, mem_singleton] at hk
        obtain ⟨rfl, rfl⟩ := Prod.mk.inj hk
        refine ⟨rfl, fun m v hv => ⟨Nat.zero_le i, ?_⟩⟩
        obtain rfl := some.inj hv
        rw [Nat.zero_add, not_not.mp hlen, ← Net.size_tensor hr.output]
        exact hi

theorem assignVar_same {y : QTensor} (hy : g.tensor (o.input 1) = some y)
    (hcode : o.code = .assignVar) (hA : ∀ b i, Places (o.reads g) b i → A b i)
    (h : Same g.size A s.1 s'.1) (hvars : s.2 = s'.2) :
    g.assignVar nvar o s.1 s.2 = g.assignVar nvar o s'.1 s'.2 := by
  have hreads : o.reads g = [((o.input 0).toNat, 4), g.whole (o.input 1)] := by
    unfold Prepared.reads
    rw [hcode]
  unfold Net.assignVar
  rw [← hvars, same_handle h fun k hk => hA _ k (by rw [hreads]; exact ⟨4, mem_cons_self, hk⟩)]
  have hvalue : s.1.bytes (o.input 1).toNat 0 y.bytes = s'.1.bytes (o.input 1).toNat 0 y.bytes := by
    refine same_bytes h fun k hk => hA _ _ ?_
    rw [hreads, Nat.zero_add]
    exact ⟨g.size (o.input 1).toNat, mem_cons_of_mem _ (mem_singleton_self _), by
      rw [Net.size_tensor hy]; exact hk⟩
  simp only [hy, bind_eq_bind, bind_some, hvalue]

/-- The state after an operator, where it does not break off. -/
theorem runOp_twins (hr : Ready g o) (hkept : ∀ b ∈ o.checked, kept b)
    (hfree : ∀ b ∈ o.outs, ¬ kept b) (hon : o.Begins g) (hcode : o.code ≠ .callOnce)
    (hA : ∀ b i, Places (o.reads g) b i → A b i) (h : Twins g kept A s s') :
    Option.Rel (fun r r' => r.2 = r'.2 ∧ Twins g kept A r.1 r'.1 ∧
      (r.2 = true → Twins g kept (fun b i => A b i ∨ Places (o.writes g) b i) r.1 r'.1))
      (g.runOp nvar o s) (g.runOp nvar o s') := by
  have hyields : Yields (g.runOp nvar o s) fun r => Keeps g.size kept g.mem r.1.1 :=
    runOp_keeps hr g.asLoaded_mem hkept hfree hon h.keeps
  have hyields' : Yields (g.runOp nvar o s') fun r => Keeps g.size kept g.mem r.1.1 :=
    runOp_keeps hr g.asLoaded_mem hkept hfree hon h.keeps'
  have hrel : Option.Rel (fun r r' => r.2 = r'.2 ∧ r.1.2 = r'.1.2 ∧ Same g.size A r.1.1 r'.1.1 ∧
      (r.2 = true → Same g.size (fun b i => A b i ∨ Places (o.writes g) b i) r.1.1 r'.1.1))
      (g.runOp nvar o s) (g.runOp nvar o s') := by
    have hready := hr
    unfold Ready at hr
    unfold Net.runOp
    cases hc : o.code with
    | readVar =>
      simp only [hc] at hr
      obtain ⟨x, y, hr, -⟩ := hr
      refine rel_bind (readVar_same hr hc hA h.same h.vars) fun r r' hrr => ?_
      exact Option.Rel.some ⟨hrr.1, h.vars, hrr.2⟩
    | assignVar =>
      simp only [hc] at hr
      obtain ⟨x, y, -, hy, -⟩ := hr
      have hwrites : ∀ b i, ¬ Places (o.writes g) b i := by
        rintro b i ⟨k, hk, -⟩
        unfold Prepared.writes Prepared.outs at hk
        simp only [hc, map_nil, not_mem_nil] at hk
      have heq : g.assignVar nvar o s.1 s.2 = g.assignVar nvar o s'.1 s'.2 :=
        assignVar_same hy hc hA h.same h.vars
      dsimp only
      rw [heq]
      cases g.assignVar nvar o s'.1 s'.2 with
      | none => exact Option.Rel.none
      | some r => exact Option.Rel.some ⟨rfl, rfl, h.same, fun _ => h.same.mono fun b i _ hb =>
          hb.resolve_right (hwrites b i)⟩
    | callOnce => exact absurd hc hcode
    | _ =>
      refine rel_bind (tensors_same hready g.asLoaded_mem (by rw [hc]; simp)
        hA (fun b hb => h.keeps.same b (hkept b hb))
        (fun b hb => h.keeps'.same b (hkept b hb)) h.same) fun n n' hn => ?_
      exact Option.Rel.some ⟨rfl, h.vars, hn.mono fun b i _ hb => .inl hb, fun _ => hn⟩
  refine rel_imp (rel_and hrel hyields hyields') fun r r' hrr => ?_
  obtain ⟨⟨hok, hvars, hsame, hmore⟩, hk, hk'⟩ := hrr
  exact ⟨hok, ⟨hsame, hvars, hk, hk'⟩, fun hbool => ⟨hmore hbool, hvars, hk, hk'⟩⟩

end

/-! ### Graphs -/

theorem places_append {l l' : List (ℕ × ℕ)} {b i : ℕ} :
    Places (l ++ l') b i ↔ Places l b i ∨ Places l' b i := by
  simp only [Places, mem_append, or_and_right, exists_or]

/-- What an operator finds is known. -/
theorem finds_known {g : Net} {o : Prepared} {written : List ℕ} {done : List (ℕ × ℕ)}
    (h : o.Finds g written done) (b i : ℕ) (hp : Places (o.reads g) b i) :
    Known written done b i := by
  obtain ⟨n, hn, hi⟩ := hp
  rcases h (b, n) hn with hrest | ⟨d, hd, hb, hle⟩
  · exact .inl hrest
  · exact .inr ⟨d.2, by rw [← (show d.1 = b from hb)]; exact hd, hi.trans_le hle⟩

/-- **A graph whose operators are in order** keeps two states alike, and what it writes is the same
in both. -/
theorem runOps_twins {σ : Type} {f : Prepared → σ → Option (σ × Bool)} {g : Net} {written : List ℕ}
    (R : (ℕ → ℕ → Prop) → σ → σ → Prop)
    (hmono : ∀ {A B : ℕ → ℕ → Prop} {s s'}, R A s s' → (∀ b i, B b i → A b i) → R B s s')
    {l : List Prepared} {done : List (ℕ × ℕ)}
    (hstep : ∀ o ∈ l, ∀ A s s', (∀ b i, Places (o.reads g) b i → A b i) → R A s s' →
      Option.Rel (fun r r' => r.2 = r'.2 ∧ R A r.1 r'.1 ∧
        (r.2 = true → R (fun b i => A b i ∨ Places (o.writes g) b i) r.1 r'.1)) (f o s) (f o s'))
    (hord : Ordered g written done l) {s s' : σ} (h : R (Known written done) s s') :
    Option.Rel (fun r r' => r.2 = r'.2 ∧ R (Known written done) r.1 r'.1 ∧
      (r.2 = true → R (Known written (done ++ l.flatMap fun o => o.writes g)) r.1 r'.1))
      (runOps f l s) (runOps f l s') := by
  induction l generalizing done s s' with
  | nil => exact Option.Rel.some ⟨rfl, h, fun _ => by rw [flatMap_nil, append_nil]; exact h⟩
  | cons o l ih =>
    rw [runOps, runOps]
    have hfirst := hstep o mem_cons_self _ s s' (finds_known hord.1) h
    refine rel_bind hfirst fun r r' hrr => ?_
    obtain ⟨hok, hsame, hmore⟩ := hrr
    dsimp only
    rw [← hok]
    split
    · next hbool =>
      have hnext : R (Known written (done ++ o.writes g)) r.1 r'.1 := by
        refine hmono (hmore hbool) fun b i hb => ?_
        rcases hb with hb | hb
        · exact .inl (.inl hb)
        · exact (places_append.mp hb).imp .inr id
      refine rel_imp (ih (fun p hp => hstep p (mem_cons_of_mem _ hp)) hord.2 hnext)
        fun q q' hqq => ?_
      refine ⟨hqq.1, hmono hqq.2.1 fun b i hb => hb.imp_right fun hp =>
        places_append.mpr (.inl hp), fun hq => ?_⟩
      rw [flatMap_cons, ← append_assoc]
      exact hqq.2.2 hq
    · next hbool =>
        exact Option.Rel.some ⟨rfl, hsame, fun hfalse => absurd hfalse Bool.false_ne_true⟩

/-! ### Runs of a model -/

/-- Two states of a model that agree in the variables, in these places of the main graph, and in
what nothing writes in the second. -/
structure Model.Twins (m : Model) (A : ℕ → ℕ → Prop) (s s' : State) : Prop where
  main : Mww.Twins m.main.net m.main.Rests A (s.mem, s.vars) (s'.mem, s'.vars)
  start : ∀ P ∈ m.start, Mww.Twins P.net (· ∉ P.outs) (Known P.outs []) (s.start, s.vars)
    (s'.start, s'.vars)
  initialized : s.initialized = s'.initialized

section

variable {m : Model} {A B : ℕ → ℕ → Prop} {s s' : State}

theorem Model.Twins.mono (h : m.Twins A s s') (hB : ∀ b i, B b i → A b i) : m.Twins B s s' :=
  ⟨h.main.mono hB, h.start, h.initialized⟩

theorem callOnce_twins (hm : m.Ready) (hsafe : m.Safe) (hord : m.Ordered) (h : m.Twins A s s') :
    Option.Rel (fun r r' => r.2 = r'.2 ∧ m.Twins A r.1 r'.1) (m.callOnce s) (m.callOnce s') := by
  unfold Model.callOnce
  rw [← h.initialized]
  split
  · exact Option.Rel.some ⟨rfl, h⟩
  · cases hP : m.start with
    | none => exact Option.Rel.none
    | some P =>
      have hmem : P ∈ m.start := hP
      have hrun := runOps_twins (f := P.net.runOp m.nvar) (g := P.net)
        (fun A s s' => Mww.Twins P.net (· ∉ P.outs) A s s') (fun h hB => h.mono hB)
        (fun o ho A s s' hA hs =>
          runOp_twins (hm.start P hmem o ho) (hsafe.start P hmem o ho)
            (fun b hb hkept => hkept (mem_flatMap.mpr ⟨o, ho, hb⟩)) (hsafe.startBegins P hmem o ho)
            (hm.noOnce P hmem o ho) hA hs) (hord.start P hmem) (h.start P hmem)
      simp only [bind_eq_bind, bind_some]
      refine rel_bind hrun fun r r' hrr => Option.Rel.some ⟨hrr.1, ?_, fun Q hQ => ?_, rfl⟩
      · exact ⟨h.main.same, hrr.2.1.vars, h.main.keeps, h.main.keeps'⟩
      · obtain rfl := some.inj (hP.symm.trans hQ)
        exact hrr.2.1

theorem op_twins (hm : m.Ready) (hsafe : m.Safe) (hord : m.Ordered) {o : Prepared}
    (ho : o ∈ m.main.ops) (hA : ∀ b i, Places (o.reads m.main.net) b i → A b i)
    (h : m.Twins A s s') :
    Option.Rel (fun r r' => r.2 = r'.2 ∧ m.Twins A r.1 r'.1 ∧
      (r.2 = true → m.Twins (fun b i => A b i ∨ Places (o.writes m.main.net) b i) r.1 r'.1))
      (m.op o s) (m.op o s') := by
  unfold Model.op
  by_cases hcode : o.code = .callOnce
  · rw [if_pos hcode, if_pos hcode]
    have hwrites : ∀ b i, ¬ Places (o.writes m.main.net) b i := by
      rintro b i ⟨k, hk, -⟩
      unfold Prepared.writes Prepared.outs at hk
      simp only [hcode, map_nil, not_mem_nil] at hk
    refine rel_imp (callOnce_twins hm hsafe hord h) fun r r' hrr => ⟨hrr.1, hrr.2, fun _ => ?_⟩
    exact hrr.2.mono fun b i hb => hb.resolve_right (hwrites b i)
  · rw [if_neg hcode, if_neg hcode]
    have hrun := @runOp_twins _ _ _ _ _ _ m.nvar (hm.main o ho) (checked_rests hm hsafe ho)
      (fun b hb hrest => hrest.1 (mem_flatMap.mpr ⟨o, ho, hb⟩)) (hsafe.begins o ho) hcode hA h.main
    have hstart : ∀ {vars vars' : Vars}, vars = vars' → ∀ P ∈ m.start,
        Mww.Twins P.net (· ∉ P.outs) (Known P.outs []) (s.start, vars) (s'.start, vars') :=
      fun hv P hP => ⟨(h.start P hP).same, hv, (h.start P hP).keeps, (h.start P hP).keeps'⟩
    refine rel_bind hrun fun r r' hrr =>
      Option.Rel.some ⟨hrr.1, ⟨hrr.2.1, hstart hrr.2.1.vars, h.initialized⟩, ?_⟩
    exact fun hbool => ⟨hrr.2.2 hbool, hstart hrr.2.1.vars, h.initialized⟩

/-- What is in the output once the operators have gone through. -/
theorem result_eq (hm : m.Ready) (h : m.Twins (Known m.main.written
      ([m.main.net.whole m.main.input] ++ m.main.ops.flatMap fun o => o.writes m.main.net)) s s') :
    m.result s = m.result s' := by
  obtain ⟨y, hy, hcount, hsize⟩ := hm.output
  have hbytes : m.main.net.size m.main.output.toNat = 1 := by
    rw [Net.size_tensor hy]
    unfold Tensor.bytes
    rw [show y.shape.count = 1 from hcount, hsize]
  have hknown : Known m.main.written ([m.main.net.whole m.main.input] ++
      m.main.ops.flatMap fun o => o.writes m.main.net) m.main.output.toNat 0 := by
    by_cases hw : m.main.output.toNat ∈ m.main.written
    · refine .inr (places_append.mpr ?_)
      rcases mem_cons.mp hw with heq | hout
      · refine .inl ⟨m.main.net.size m.main.input.toNat, ?_, ?_⟩
        · rw [heq]
          exact mem_singleton_self _
        · rw [← heq, hbytes]
          exact Nat.one_pos
      · obtain ⟨o, ho, hb⟩ := mem_flatMap.mp hout
        refine .inr ⟨_, mem_flatMap.mpr ⟨o, ho, mem_map_of_mem hb⟩, ?_⟩
        split
        · decide
        · rw [hbytes]
          exact Nat.one_pos
    · exact .inl hw
  have hbyte : s.mem.byte m.main.output.toNat 0 = s'.mem.byte m.main.output.toNat 0 := by
    unfold Mem.byte
    rw [if_neg (by decide), if_neg (by decide)]
    exact h.main.same.byte _ 0 hknown
  unfold Model.result
  rw [hbyte]

/-- **A run keeps two states alike, and gives the same result.** -/
theorem run_twins (hm : m.Ready) (hsafe : m.Safe) (hord : m.Ordered) (features : ℕ → UInt16)
    (h : m.Twins (Known m.main.written []) s s') :
    Option.Rel (fun r r' => r.2 = r'.2 ∧ m.Twins (Known m.main.written []) r.1 r'.1)
      (m.run features s)
      (m.run features s') := by
  obtain ⟨x, hx, hxtype⟩ := hm.input
  have hsize : (quantize x features).length = m.main.net.size m.main.input.toNat := by
    rw [quantize_length, Net.size_tensor hx, bytes_int8 hxtype]
  unfold Model.run
  simp only [hx, bind_eq_bind, bind_some]
  -- the features fill the input
  have hput := Step.run_same (s := ⟨m.main.input.toNat, 0, fun _ => some (quantize x features)⟩)
    (fun _ _ _ => rfl) h.main.same
  have hle : ∀ {n : Mem}, Sized m.main.net.size n →
      0 + (quantize x features).length ≤ (n m.main.input.toNat).length := by
    intro n hn
    rw [hn, hsize, Nat.zero_add]
  have hkeeps : ∀ {n : Mem}, Keeps m.main.net.size m.main.Rests m.main.net.mem n →
      Yields (n.put m.main.input.toNat 0 (quantize x features))
      (Keeps m.main.net.size m.main.Rests m.main.net.mem) :=
    fun hn => (Mem.put_yields (hle hn.sized)).imp fun n' hput =>
      ⟨fun c => (hput.1 c).trans (hn.sized c), fun c hc => (hput.2 c hc.2).trans (hn.same c hc)⟩
  refine rel_bind (rel_and hput (hkeeps h.main.keeps) (hkeeps h.main.keeps')) fun n n' hn => ?_
  obtain ⟨hsame, hk, hk'⟩ := hn
  have htwins : m.Twins (Known m.main.written [m.main.net.whole m.main.input]) { s with mem := n }
      { s' with mem := n' } := by
    refine ⟨⟨hsame.mono fun b i hi hb => ?_, h.main.vars, hk, hk'⟩, h.start, h.initialized⟩
    rcases hb with hb | ⟨k, hplace, -⟩
    · exact .inl (.inl hb)
    · obtain ⟨rfl, rfl⟩ := Prod.mk.inj (mem_singleton.mp hplace)
      refine .inr ⟨rfl, fun m v hv => ⟨Nat.zero_le i, ?_⟩⟩
      obtain rfl := some.inj hv
      rw [Nat.zero_add, hsize]
      exact hi
  have hops := runOps_twins (f := m.op) (g := m.main.net) (fun A s s' => m.Twins A s s')
    (fun h hB => h.mono hB)
    (fun o ho A s s' hA hs => op_twins hm hsafe hord ho hA hs) hord.main htwins
  refine rel_bind hops fun r r' hrr => ?_
  obtain ⟨hok, hend, hmore⟩ := hrr
  have hback : m.Twins (Known m.main.written []) r.1 r'.1 :=
      hend.mono fun b i hb => hb.imp_right fun hp => by
    obtain ⟨k, hk, -⟩ := hp
    cases hk
  rw [← hok]
  split
  · next hbool =>
    rw [result_eq hm (hmore hbool)]
    cases m.result r'.1 with
    | none => exact Option.Rel.none
    | some v => exact Option.Rel.some ⟨rfl, hback⟩
  · exact Option.Rel.some ⟨rfl, hback⟩

theorem outputs_eq (hm : m.Ready) (hsafe : m.Safe) (hord : m.Ordered) (l : List (ℕ → UInt16))
    (h : m.Twins (Known m.main.written []) s s') : m.outputs s l = m.outputs s' l := by
  induction l generalizing s s' with
  | nil => rfl
  | cons f l ih =>
    rw [Model.outputs, Model.outputs]
    have hrun := run_twins hm hsafe hord f h
    cases hr : m.run f s with
    | none =>
      rw [hr] at hrun
      cases hr' : m.run f s' with
      | none => rfl
      | some r' =>
        rw [hr'] at hrun
        cases hrun
    | some r =>
      rw [hr] at hrun
      cases hr' : m.run f s' with
      | none =>
        rw [hr'] at hrun
        cases hrun
      | some r' =>
        rw [hr'] at hrun
        cases hrun with
        | some hrr =>
          simp only [bind_eq_bind, bind_some, ih hrr.2, hrr.1]

/-- Runs come to their end. -/
theorem outputs_yields (hm : m.Ready) (hsafe : m.Safe) (l : List (ℕ → UInt16)) (hs : m.Keeps s) :
    Yields (m.outputs s l) fun _ => True := by
  induction l generalizing s with
  | nil => exact Yields.pure trivial
  | cons f l ih =>
    rw [Model.outputs]
    exact (run_keeps hm hsafe f hs).bind fun r hr => (ih hr).bind fun vs _ => Yields.pure trivial

/-- Two states of a model in which what nothing writes is as it was loaded. -/
theorem twins_of_keeps (hs : m.Keeps s) (hs' : m.Keeps s') (hvars : s.vars = s'.vars)
    (hinit : s.initialized = s'.initialized) : m.Twins (Known m.main.written []) s s' := by
  have hnone : ∀ b i, ¬ Places [] b i := by
    rintro b i ⟨k, hk, -⟩
    cases hk
  refine ⟨⟨⟨hs.main.sized, hs'.main.sized, fun b i hb => ?_⟩, hvars, hs.main, hs'.main⟩, fun P hP =>
    ⟨⟨(hs.start P hP).sized, (hs'.start P hP).sized, fun b i hb => ?_⟩, hvars, hs.start P hP,
      hs'.start P hP⟩,
    hinit⟩
  · have hrest := hb.resolve_right (hnone b i)
    rw [Program.written, mem_cons, not_or] at hrest
    show (s.mem b)[i]? = (s'.mem b)[i]?
    rw [hs.main.same b ⟨hrest.2, hrest.1⟩, hs'.main.same b ⟨hrest.2, hrest.1⟩]
  · have hrest := hb.resolve_right (hnone b i)
    show (s.start b)[i]? = (s'.start b)[i]?
    rw [(hs.start P hP).same b hrest, (hs'.start P hP).same b hrest]

end

/-! ### Results -/

/-! ### On fixed inputs -/

/-- A frame, its first value, the others, the output, and the axis of the split. -/
def lagNet : Net where
  t := [bytesOf frame false 0, bytesOf ⟨[1, 1, 1], by decide, by decide, by decide⟩ false 0,
    bytesOf ⟨[1, 1, 39], by decide, by decide, by decide⟩ false 0,
    bytesOf .one false 0, wordOf 2 0 0 0]

def lagSplit : Operator where
  inputs := [0, 4, 4]
  outputs := [1, 2]
  code := .splitV

def lagReshape : Operator where
  inputs := [1]
  outputs := [3]
  code := .reshape

/-- The first value goes to the output after it is taken from the frame, or before. -/
def leadModel : Model :=
  ⟨⟨lagNet, [{ lagSplit with axis := 2 }, { lagReshape with }], 0, 3⟩, none, 0⟩

def lagModel : Model :=
  ⟨⟨lagNet, [{ lagReshape with }, { lagSplit with axis := 2 }], 0, 3⟩, none, 0⟩

/-- Both load, and the second gives another value after a run and a reset than at first. -/
theorem lags_load : load id ⟨lagNet, [lagSplit, lagReshape], 0, 3⟩ none = .ok leadModel ∧
    load id ⟨lagNet, [lagReshape, lagSplit], 0, 3⟩ none = .ok lagModel ∧
    lagModel.outputs lagModel.fresh [fun _ => 256] = some [0] ∧
    (lagModel.after lagModel.fresh [.run fun _ => 256]).map
      (fun s => lagModel.outputs s.reset [fun _ => 256]) = some (some [255]) := by
  decide +kernel

theorem lead_loads : load id ⟨lagNet, [lagSplit, lagReshape], 0, 3⟩ none = .ok leadModel :=
  lags_load.1

theorem lag_loads : load id ⟨lagNet, [lagReshape, lagSplit], 0, 3⟩ none = .ok lagModel :=
  lags_load.2.1

theorem lead_safe : leadModel.Safe where
  main := by
    unfold Program.Spared
    decide
  begins := fun o ho hcode => by
    rcases mem_cons.mp ho with rfl | ho
    · cases hcode
    · obtain rfl := mem_singleton.mp ho
      cases hcode
  start := fun P hP => by cases hP
  startBegins := fun P hP => by cases hP

theorem lead_ordered : leadModel.Ordered where
  main := ⟨by unfold Prepared.Finds; decide, by unfold Prepared.Finds; decide, trivial⟩
  start := fun P hP => by cases hP

end Hassmic.Mww
