import Hassmic.Led.Queue

/-!
# What is left on when the queue has drained

The last call that sets or unsets a pattern decides whether it is on, as long as that call was
carried out.  An unset that a full queue gave up was not, nor was one whose `ledctrl` was killed
with nothing behind it, for that one is not run again.

## Main definitions

* `Call.last`, `State.lastOf` — what a call does to a pattern, and the last call that does anything.
* `Settled` — what holds of a pattern whose last call is an unset.

## Main results

* `settled_run` — it holds in every run.
* `ledq_order` — **order, what is given up, and what is off in the end**.
* `ledq_left_on` — runs that leave a pattern on, or give up an unset while there is something else.
-/

namespace Hassmic.Led

open List Option
open State (run)

/-! ### The last word on a pattern -/

/-- The last of these options that sets or unsets `p`. -/
def lastOp (p : Arg) (l : List Op) : Option Bool :=
  (l.reverse.find? (·.pattern == p)).map (·.on)

/-- What a call leaves of `p`. -/
def Call.last (c : Call) (p : Arg) : Option Bool := lastOp p (ops c.arg)

/-- The last call that sets or unsets `p`. -/
def State.lastOf (s : State) (p : Arg) : Option Call :=
  s.submitted.reverse.find? fun c => (c.last p).isSome

section

variable {L : Ledctrl} {p : Arg} {l m : List Op} {r : Ring} {b : List Call} {c x : Call}

theorem lastOp_append (p : Arg) (l m : List Op) :
    lastOp p (l ++ m) = (lastOp p m).or (lastOp p l) := by
  rw [lastOp, reverse_append, find?_append]
  cases h : m.reverse.find? (·.pattern == p) <;> simp [lastOp, h]

theorem lastOp_eq_none : lastOp p l = none ↔ ∀ o ∈ l, o.pattern ≠ p := by
  simp [lastOp, find?_eq_none]

/-- `ledctrl` leaves a pattern as the last of its options that names it. -/
theorem apply_eq (r : Ring) (l : List Op) : r.apply l p = (lastOp p l).getD (r p) := by
  induction l generalizing r with
  | nil => rfl
  | cons o l ih =>
    have hfirst : r.apply (o :: l) = Ring.apply (Function.update r o.pattern o.on) l := rfl
    rw [hfirst, ih, ← singleton_append, lastOp_append]
    cases hl : lastOp p l with
    | some v => rfl
    | none =>
      by_cases hp : o.pattern = p
      · simp [lastOp, hp]
      · simp [lastOp, hp, Function.update_of_ne (Ne.symm hp)]

/-- Options that do not name a pattern leave it as it is. -/
theorem apply_of_none (h : lastOp p l = none) : r.apply l p = r p := by rw [apply_eq, h, getD_none]

/-- A call that goes with others is a pattern set or unset. -/
theorem pattern_cases (hc : c.pattern = true) :
    ∃ no o q, c = ⟨no, [o, q]⟩ ∧ (o = optSet ∨ o = optUnset) := by
  obtain ⟨no, arg⟩ := c
  simp only [Call.pattern, Bool.and_eq_true, beq_iff_eq] at hc
  obtain ⟨o, q, rfl⟩ := length_eq_two.mp hc.1
  exact ⟨no, o, q, rfl, by simpa [Call.starts] using hc.2⟩

/-- An option of a call that is one of several, and what is behind it. -/
theorem ops_pattern (hc : c.pattern = true) (l : List Arg) :
    ops (c.arg ++ l) = ops c.arg ++ ops l := by
  obtain ⟨no, o, q, rfl, rfl | rfl⟩ := pattern_cases hc
  · simp [ops]
  · simp [ops, optSet, optUnset]

/-- The options of a batch are those of its calls, one call after the other. -/
theorem ops_argv (h : 1 < b.length → ∀ c ∈ b, c.pattern = true) :
    ops (argv b) = b.flatMap fun c => ops c.arg := by
  match b, h with
  | [], _ => rfl
  | [c], _ => simp [argv]
  | c :: d :: b, h =>
    have hall := h (by simp)
    clear h
    generalize c :: d :: b = l at hall
    induction l with
    | nil => rfl
    | cons e l ih =>
      have htail := ih fun x hx => hall x (mem_cons_of_mem e hx)
      rw [argv, flatMap_cons, ops_pattern (hall e mem_cons_self), flatMap_cons]
      rw [argv] at htail
      rw [htail]

theorem lastOp_flatMap_none (h : ∀ x ∈ b, x.last p = none) :
    lastOp p (b.flatMap fun c => ops c.arg) = none := by
  rw [lastOp_eq_none]
  intro o ho
  obtain ⟨x, hx, ho⟩ := mem_flatMap.mp ho
  exact lastOp_eq_none.mp (h x hx) o ho

/-- Whatever becomes of it, `ledctrl` does nothing but its options. -/
theorem Ledctrl.Documented.subset (hL : L.Documented) (a : List Arg) (o : Outcome) :
    L a o ⊆ ops a := by
  cases o with
  | finished =>
    rw [hL.finished]
    exact Subset.refl _
  | killed k => exact (hL.killed a k).subset
  | missing =>
    rw [hL.missing]
    exact nil_subset _

/-- A batch whose calls do not name a pattern leaves it as it is, whatever becomes of it. -/
theorem done_none (hL : L.Documented) (hb : 1 < b.length → ∀ c ∈ b, c.pattern = true)
    (h : ∀ x ∈ b, x.last p = none) (o : Outcome) : lastOp p (L (argv b) o) = none := by
  have hall := lastOp_flatMap_none h
  rw [← ops_argv hb, lastOp_eq_none] at hall
  exact lastOp_eq_none.mpr fun x hx => hall x (hL.subset _ o hx)

/-- A batch that is carried out leaves a pattern as its last call that names it. -/
theorem done_last {b₁ b₂ : List Call} {v : Bool} (hL : L.Documented)
    (hb : 1 < (b₁ ++ c :: b₂).length → ∀ x ∈ b₁ ++ c :: b₂, x.pattern = true)
    (hc : c.last p = some v) (h : ∀ x ∈ b₂, x.last p = none) :
    lastOp p (L (argv (b₁ ++ c :: b₂)) .finished) = some v := by
  rw [hL.finished, ops_argv hb, flatMap_append, flatMap_cons, lastOp_append,
    lastOp_append, lastOp_flatMap_none h]
  rw [Call.last] at hc
  rw [hc]
  rfl

/-- A call that is run again only unsets. -/
theorem ops_unset (hc : c.pattern = true) (hu : c.isUnset = true) :
    ∀ o ∈ ops c.arg, o.on = false := by
  obtain ⟨no, o, q, rfl, -⟩ := pattern_cases hc
  have hopt : o = optUnset := by simpa [Call.starts] using hu
  subst hopt
  simp [ops, optSet, optUnset]

/-- One of several calls that leaves a pattern off is an unset. -/
theorem isUnset_of_last (hc : c.pattern = true) (hp : c.last p = some false) :
    c.isUnset = true := by
  obtain ⟨no, o, q, rfl, rfl | rfl⟩ := pattern_cases hc
  · by_cases hq : q = p <;> simp [Call.last, lastOp, ops, hq] at hp
  · simp [Call.starts]

end

/-! ### Which call is the last -/

section

variable {s : State} {p : Arg} {c x : Call}

/-- Where the last call that names `p` is among those submitted. -/
theorem lastOf_eq_some (h : s.lastOf p = some c) :
    (c.last p).isSome = true ∧ ∃ a b, s.submitted = a ++ c :: b ∧ ∀ x ∈ b, x.last p = none := by
  obtain ⟨hc, b, a, heq, hb⟩ := find?_eq_some_iff_append.mp h
  refine ⟨hc, a.reverse, b.reverse, ?_, fun x hx => ?_⟩
  · have := congrArg List.reverse heq
    simpa using this
  · simpa using hb x (mem_reverse.mp hx)

/-- The numbers of the calls grow. -/
theorem pairwise_no (h : Kept s) : s.submitted.Pairwise (·.no < ·.no) := by
  have hrange := pairwise_lt_range (n := s.submitted.length)
  rw [← h.no, pairwise_map] at hrange
  exact hrange

/-- What was submitted behind the last call that names `p` does not name it. -/
theorem last_none_of_lt (h : Kept s) (hc : s.lastOf p = some c) (hx : x ∈ s.submitted)
    (hlt : c.no < x.no) : x.last p = none := by
  obtain ⟨-, a, b, heq, hb⟩ := lastOf_eq_some hc
  have hpair := pairwise_no h
  rw [heq] at hx hpair
  rw [pairwise_append] at hpair
  rcases mem_append.mp hx with ha | hx
  · have := hpair.2.2 x ha c mem_cons_self
    omega
  · rcases mem_cons.mp hx with rfl | hx
    · omega
    · exact hb x hx

theorem lastOf_ledqArgs (s : State) (args : List Arg) (p : Arg) :
    (s.ledqArgs args).lastOf p =
      if ((mkCall s.submitted.length args).last p).isSome then some (mkCall s.submitted.length args)
      else s.lastOf p := by
  rw [State.lastOf, State.ledqArgs]
  simp only [reverse_append, reverse_singleton, singleton_append, find?_cons]
  split <;> simp_all [State.lastOf]

end

/-! ### A pattern whose last call is an unset -/

/-- No call that waits or runs names `p`. -/
structure Untouched (p : Arg) (s : State) : Prop where
  q : ∀ x ∈ s.q, x.last p = none
  exec : ∀ b, s.worker = .exec b → ∀ x ∈ b, x.last p = none

/-- **A pattern whose last call is an unset**, if that call is not given up: the call waits, or is
being carried out, or the pattern is off and stays off. -/
def Settled (p : Arg) (s : State) : Prop :=
  ∀ c, s.lastOf p = some c → c.last p = some false → (∀ w, (c.no, w) ∉ s.lost) →
    c ∈ s.q ∨ c ∈ s.worker.calls ∨ s.ring p = false ∧ Untouched p s

section

variable {L : Ledctrl} {s : State} {p : Arg} {c x : Call}

theorem settled_ledqArgs (hs : Settled p s) (args : List Arg) : Settled p (s.ledqArgs args) := by
  intro c hlast hoff hkept
  have hall : ∀ x ∈ s.q ++ [mkCall s.submitted.length args],
      (∀ w, (x.no, w) ∉ (s.ledqArgs args).lost) →
      x ∈ (s.ledqArgs args).q := by
    intro x hx hnot
    rcases mem_enqueue hx with hin | hdrop
    · exact hin
    · refine absurd ?_ (hnot .dropped)
      simp [State.ledqArgs, hdrop]
  rw [lastOf_ledqArgs] at hlast
  split at hlast
  · obtain rfl := some.inj hlast
    exact .inl (hall _ (by simp) hkept)
  · rename_i hnone
    have hbefore : ∀ w, (c.no, w) ∉ s.lost := fun w hw => hkept w (mem_append_left _ hw)
    rcases hs c hlast hoff hbefore with hq | hw | ⟨hring, hun⟩
    · exact .inl (hall c (mem_append_left _ hq) hkept)
    · exact .inr (.inl hw)
    · refine .inr (.inr ⟨hring, fun x hx => ?_, hun.exec⟩)
      rcases mem_append.mp ((enqueue_sublist s.q _).subset hx) with hx | hx
      · exact hun.q x hx
      · rw [mem_singleton.mp hx]
        simpa using hnone

theorem settled_take (hs : Settled p s) : Settled p s.take := by
  rw [State.take]
  split
  · rename_i d q hw hq
    intro c hlast hoff hkept
    have hsplit : ∀ x, x ∈ s.q ↔ x ∈ (batch (d :: q)).1 ∨ x ∈ (batch (d :: q)).2 := by
      intro x
      rw [← mem_append, batch_append, hq]
    rcases hs c hlast hoff hkept with hc | hc | ⟨hring, hun⟩
    · rcases (hsplit c).mp hc with hc | hc
      · exact .inr (.inl hc)
      · exact .inl hc
    · rw [hw] at hc
      exact absurd hc not_mem_nil
    · refine .inr (.inr ⟨hring, fun x hx => hun.q x ((hsplit x).mpr (.inr hx)), ?_⟩)
      rintro b ⟨⟩ x hx
      exact hun.q x ((hsplit x).mpr (.inl hx))
  · exact hs

/-- What waits behind a call of the batch is later. -/
theorem later_of_mem {t : Turn} {ts : List Turn} (h : Kept s) (ht : s.turns = t :: ts)
    (hc : c ∈ t.calls) (hx : x ∈ s.q) : c.no < x.no ∧ x ∈ s.submitted := by
  have horder := h.order
  rw [ht, firsts] at horder
  have hpair := (pairwise_no h).sublist horder
  rw [pairwise_append] at hpair
  exact ⟨hpair.2.2 c (mem_append_right _ hc) x hx, horder.subset (mem_append_right _ hx)⟩

/-- The queue does not name a pattern whose last call is in the latest turn. -/
theorem untouched_of_mem {t : Turn} {ts : List Turn} (h : Kept s) (ht : s.turns = t :: ts)
    (hlast : s.lastOf p = some c) (hc : c ∈ t.calls) : ∀ x ∈ s.q, x.last p = none := by
  intro x hx
  obtain ⟨hlt, hsub⟩ := later_of_mem h ht hc hx
  exact last_none_of_lt h hlast hsub hlt

/-- The batch in which the last call of `p` is leaves `p` as that call does. -/
theorem batch_last {b : List Call} {ts : List Turn} {v : Bool} (hL : L.Documented) (h : Kept s)
    (ht : s.turns = ⟨b, []⟩ :: ts) (hlast : s.lastOf p = some c) (hv : c.last p = some v)
    (hc : c ∈ b) : lastOp p (L (argv b) .finished) = some v := by
  obtain ⟨b₁, b₂, rfl⟩ := append_of_mem hc
  have hfair := h.fair _ (by rw [ht]; exact mem_cons_self)
  have horder := h.order
  rw [ht, firsts_take, append_assoc] at horder
  have hsub := (sublist_append_of_sublist_left (List.Sublist.refl _)).trans
    ((sublist_append_right _ _).trans horder)
  refine done_last hL hfair.pattern hv fun x hx => ?_
  have hpair := (pairwise_no h).sublist hsub
  rw [pairwise_append, pairwise_cons] at hpair
  exact last_none_of_lt h hlast (hsub.subset (by simp [hx])) (hpair.2.1.1 x hx)

/-- What the end of a `ledctrl` has to keep. -/
theorem Settled.carry {s' : State} (hs : Settled p s) (hsub : s'.submitted = s.submitted)
    (hq : s'.q = s.q) (hlost : s.lost ⊆ s'.lost) (hexec : ∀ b, s'.worker ≠ .exec b)
    (hrun : ∀ c, s.lastOf p = some c → c.last p = some false → (∀ w, (c.no, w) ∉ s'.lost) →
      c ∈ s.worker.calls → c ∈ s'.worker.calls ∨ s'.ring p = false ∧ ∀ x ∈ s.q, x.last p = none)
    (hring : s.ring p = false → Untouched p s → s'.ring p = false) : Settled p s' := by
  intro c hlast hoff hkept
  rw [State.lastOf, hsub] at hlast
  have hno : ∀ b, s'.worker = .exec b → ∀ x ∈ b, x.last p = none := fun b hb => absurd hb (hexec b)
  rcases hs c hlast hoff fun w hw => hkept w (hlost hw) with hc | hc | ⟨hoffNow, hun⟩
  · exact .inl (hq ▸ hc)
  · rcases hrun c hlast hoff hkept hc with hc | ⟨hnow, hrest⟩
    · exact .inr (.inl hc)
    · exact .inr (.inr ⟨hnow, hq ▸ hrest, hno⟩)
  · exact .inr (.inr ⟨hring hoffNow hun, hq ▸ hun.q, hno⟩)

theorem calls_resume (l : List Call) : (State.resume l).calls = l := by cases l <;> rfl

theorem resume_ne_exec (l b : List Call) : State.resume l ≠ .exec b := by cases l <;> nofun

theorem settled_exec (hL : L.Documented) (hk : Kept s) (hs : Settled p s) {b : List Call}
    (hw : s.worker = .exec b) (o : Outcome) : Settled p (s.ended L o) := by
  have hat := hk.worker
  rw [hw] at hat
  obtain ⟨ts, hts⟩ := hat
  have hfair := hk.fair _ (by rw [hts]; exact mem_cons_self)
  have hcalls : s.worker.calls = b := by rw [hw]; rfl
  -- a batch that does not name the pattern leaves it off
  have hring : s.ring p = false → Untouched p s → s.ring.apply (L (argv b) o) p = false :=
    fun hoff hun => by rw [apply_of_none (done_none hL hfair.pattern (hun.exec b hw) o), hoff]
  rw [State.ended, hw]
  cases o with
  | finished =>
    refine hs.carry rfl rfl (Subset.refl _) (fun _ h => by cases h)
      (fun c hlast hoff _ hc => .inr ⟨?_, ?_⟩) hring
    · show s.ring.apply _ p = false
      rw [apply_eq, batch_last hL hk hts hlast hoff (hcalls ▸ hc), getD_some]
    · exact untouched_of_mem hk hts hlast (hcalls ▸ hc)
  | missing =>
    refine hs.carry rfl rfl (subset_append_left _ _) (fun _ h => by cases h)
      (fun c _ _ hkept hc => ?_) hring
    refine absurd (mem_append_right _ (mem_map.mpr ⟨c, hcalls ▸ hc, rfl⟩)) (hkept .missing)
  | killed k =>
    dsimp only
    split
    · rename_i hmany
      refine hs.carry rfl rfl (subset_append_left _ _) (fun l => resume_ne_exec _ l)
        (fun c _ hoff _ hc => .inl ?_) hring
      -- an unset of a batch that was killed is run again
      have hmem : c ∈ b := hcalls ▸ hc
      show c ∈ (State.resume _).calls
      rw [calls_resume]
      exact mem_filter.mpr ⟨hmem, isUnset_of_last (hfair.pattern hmany c hmem) hoff⟩
    · refine hs.carry rfl rfl (subset_append_left _ _) (fun _ h => by cases h)
        (fun c _ _ hkept hc => ?_) hring
      refine absurd (mem_append_right _ (mem_map.mpr ⟨c, hcalls ▸ hc, rfl⟩)) (hkept .killed)

theorem settled_again (hL : L.Documented) (hk : Kept s) (hs : Settled p s) {l : List Call}
    (hw : s.worker = .again l) (o : Outcome) : Settled p (s.ended L o) := by
  have hat := hk.worker
  rw [hw] at hat
  obtain ⟨t, ts, hts, hmany, hall⟩ := hat
  have hfair := hk.fair t (by rw [hts]; exact mem_cons_self)
  have hcalls : s.worker.calls = l := by rw [hw]; rfl
  have hmem : ∀ c ∈ l, c ∈ t.calls ∧ c.isUnset = true := by
    intro c hc
    have hin : c ∈ t.again ++ l := mem_append_right _ hc
    rw [hall] at hin
    exact mem_filter.mp hin
  rw [State.ended, hw]
  cases l with
  | nil =>
    refine hs.carry rfl rfl (Subset.refl _) (fun _ h => by cases h) (fun c _ _ _ hc => ?_)
      fun hoff _ => hoff
    rw [hcalls] at hc
    exact absurd hc not_mem_nil
  | cons d l =>
    obtain ⟨hd, hunset⟩ := hmem d mem_cons_self
    have hpat := hfair.pattern hmany d hd
    -- whatever becomes of it, a call that is run again sets nothing
    have hoffs : ∀ x ∈ L (argv [d]) o, x.on = false := by
      have hops : ∀ x ∈ ops (argv [d]), x.on = false := by
        simpa [argv] using ops_unset hpat hunset
      exact fun x hx => hops x (hL.subset _ o hx)
    have hstays : s.ring p = false → s.ring.apply (L (argv [d]) o) p = false := by
      intro hoff
      rw [apply_eq]
      cases hl : lastOp p (L (argv [d]) o) with
      | none => exact hoff
      | some v =>
        obtain ⟨x, hx, rfl⟩ := map_eq_some_iff.mp hl
        exact hoffs x (mem_reverse.mp (mem_of_find?_eq_some hx))
    refine hs.carry rfl rfl (subset_append_left _ _) (fun b => resume_ne_exec _ b)
      (fun c hlast hoff hkept hc => ?_) fun hoff _ => hstays hoff
    rw [hcalls] at hc
    have hin := (hmem c hc).1
    rcases mem_cons.mp hc with rfl | hc
    · cases o with
      | finished =>
        refine .inr ⟨?_, untouched_of_mem hk hts hlast hin⟩
        show s.ring.apply (L (argv [c]) .finished) p = false
        have hv : lastOp p (L (argv [c]) .finished) = some false := by
          rw [hL.finished]
          simpa [argv, Call.last] using hoff
        rw [apply_eq, hv, getD_some]
      | killed k => exact absurd (mem_append_right _ mem_cons_self) (hkept .again)
      | missing => exact absurd (mem_append_right _ mem_cons_self) (hkept .missing)
    · refine .inl ?_
      show c ∈ (State.resume l).calls
      rwa [calls_resume]

theorem settled_step (hL : L.Documented) (hk : Kept s) (hs : Settled p s) (e : Event) :
    Settled p (s.step L e) := by
  cases e with
  | ledqArgs args => exact settled_ledqArgs hs args
  | take => exact settled_take hs
  | ended o =>
    cases hw : s.worker with
    | idle =>
      rw [State.step, State.ended, hw]
      exact hs
    | exec b => exact settled_exec hL hk hs hw o
    | again l => exact settled_again hL hk hs hw o

/-- **A pattern whose last call is an unset that is not given up** waits for it or is off, in every
run. -/
theorem settled_run (hL : L.Documented) (es : List Event) (p : Arg) : Settled p (run L es) := by
  have hstart : Kept {} ∧ Settled p {} :=
    ⟨kept_run L [], fun c hc => absurd hc (by simp [State.lastOf])⟩
  refine (Runs.invariant_all (I := fun s => Kept s ∧ Settled p s) (fun s e h => ?_) hstart es).2
  exact ⟨kept_step L h.1 e, settled_step hL h.1 h.2 e⟩

/-- **What a full queue gives up** for a call `c`: its oldest set, and where there is none the
call. -/
structure Gives (s s' : State) (c : Call) : Prop where
  bound : s.q.length ≤ ledqMax
  room : s.q.length < ledqMax → s'.q = s.q ++ [c] ∧ s'.lost = s.lost
  oldest : ∀ a d b, s.q.length = ledqMax → s.q = a ++ d :: b → (∀ x ∈ a, x.isSet = false) →
    d.isSet = true → s'.q = a ++ b ++ [c] ∧ s'.lost = s.lost ++ [(d.no, .dropped)]
  none : s.q.length = ledqMax → (∀ x ∈ s.q, x.isSet = false) →
    s'.q = s.q ∧ s'.lost = s.lost ++ [(c.no, .dropped)]

theorem gives_ledqArgs (hk : Kept s) (args : List Arg) :
    Gives s (s.ledqArgs args) (mkCall s.submitted.length args) where
  bound := hk.room
  room h := by simp [State.ledqArgs, enqueue_room h]
  oldest a d b hfull heq ha hd := by
    have hgive := enqueue_full (c := mkCall s.submitted.length args) (heq ▸ hfull) ha hd
    simp [State.ledqArgs, heq, hgive]
  none hfull hq := by simp [State.ledqArgs, enqueue_none hfull hq]

/-- **Order, what is given up, and what is off in the end**: the calls are run in the order they
were submitted in, apart from unsets of a batch that are run again behind it; a full queue gives up
its oldest set, and without a set the new call; and once the queue has drained, a pattern whose last
call is an unset is off, unless that call was given up. -/
theorem ledq_order (hL : L.Documented) (es : List Event) :
    ((firsts (run L es).turns).Sublist (run L es).submitted ∧
      ∀ t ∈ (run L es).turns, t.Fair) ∧
    (∀ args, Gives (run L es) ((run L es).ledqArgs args)
      (mkCall (run L es).submitted.length args)) ∧
    ((run L es).Drained → ∀ p c, (run L es).lastOf p = some c → c.last p = some false →
      (∀ w, (c.no, w) ∉ (run L es).lost) → (run L es).ring p = false) := by
  have hk := kept_run L es
  refine ⟨⟨(sublist_append_left _ _).trans hk.order, hk.fair⟩, gives_ledqArgs hk,
    fun hdone p c hlast hoff hkept => ?_⟩
  rcases settled_run hL es p c hlast hoff hkept with hc | hc | ⟨hring, -⟩
  · rw [hdone.1] at hc
    exact absurd hc not_mem_nil
  · rw [hdone.2] at hc
    exact absurd hc not_mem_nil
  · exact hring

end

/-- Two patterns set and unset go in one `ledctrl` that hangs behind the sets, and their unsets are
run again. -/
theorem ledq_order_again :
    let s :=
      run .counted [.ledqArgs [optSet, [1]], .ledqArgs [optSet, [2]], .ledqArgs [optUnset, [1]],
        .ledqArgs [optUnset, [2]], .take, .ended (.killed 2), .ended .finished, .ended .finished]
    s.Drained ∧ s.lastOf [1] = some (mkCall 2 [optUnset, [1]]) ∧
    s.lost = [(0, .killed), (1, .killed)] ∧
      s.ring [1] = false := by
  intro s
  have hfacts : (s.q = [] ∧ s.worker = .idle) ∧ s.lastOf [1] = some (mkCall 2 [optUnset, [1]]) ∧
      s.lost = [(0, .killed), (1, .killed)] := by
    decide
  obtain ⟨hdone, hlast, hlost⟩ := hfacts
  refine ⟨hdone, hlast, hlost, (ledq_order documented_counted _).2.2 hdone [1] _ hlast
    (by decide) fun w hw => ?_⟩
  rw [show (run _ _).lost = _ from hlost] at hw
  simp [mkCall] at hw

/-- **What leaves a pattern on**: an unset alone in its `ledctrl` that is killed is not run again.
And a full queue of brightness calls gives up an unset. -/
theorem ledq_left_on :
    (∃ es p c, (run .counted es).Drained ∧ (run .counted es).lastOf p = some c ∧
      c.last p = some false ∧
      (c.no, Why.again) ∉ (run .counted es).lost ∧ (run .counted es).ring p = true) ∧
    ∃ es args, (run .counted es).q.length = ledqMax ∧
    (∀ x ∈ (run .counted es).q, x.isUnset = false) ∧
      (mkCall (run .counted es).submitted.length args).isUnset = true ∧
      ((run .counted es).ledqArgs args).q = (run .counted es).q := by
  -- a pattern is set, and its unset hangs
  have halone := (⟨by decide, by decide, by decide, by decide, by decide⟩ :
    let s :=
    run .counted [.ledqArgs [optSet, [1]], .take, .ended .finished, .ledqArgs [optUnset, [1]],
      .take, .ended (.killed 0)]
    (s.q = [] ∧ s.worker = .idle) ∧ s.lastOf [1] = some (mkCall 1 [optUnset, [1]]) ∧
      (mkCall 1 [optUnset, [1]]).last [1] = some false ∧ (1, Why.again) ∉ s.lost ∧
      s.ring [1] = true)
  refine ⟨⟨_, [1], mkCall 1 [optUnset, [1]], halone⟩,
    replicate ledqMax (.ledqArgs [optAuto, [1]]), [optUnset, [1]], ?_⟩
  decide +kernel

end Hassmic.Led
