import Hassmic.DropIn.Moves

/-!
# What comes of a call

A call this Echo makes can end in six places, and two of them may come together.  All of them go
through the same function, which does nothing when there is no call.  So the events that are queued
for a call tell it once: calling, then perhaps connected, then idle, and one result.

## Main definitions

* `Tale`, `Told` — the events of a call so far, and what holds of all of them.
* `Waits` — a call that was not invited yet waits for the core.
* `Once`, `Leads` — what the core is told of a call, and that it comes to its end.

## Main results

* `told_run` — every call this Echo made is told so, in every run.
* `one_outcome` — **one result, the states in order, no event lost** while the queue has room.
-/

namespace Hassmic.DropIn

open List

/-! ### The tale of a call -/

/-- The events about call `g`, as far as the core hears of them: a call refused here is none. -/
def tale (s : Echo) (g : ℕ) : List (Option Phase × Option Result) :=
  (s.log.filter fun e => e.gen == g && !e.here).map fun e => (e.state, e.result)

/-- The events of a call that is calling, and perhaps rings there. -/
def Calling (l : List (Option Phase × Option Result)) (rang : Bool) : Prop :=
  l = (some .calling, none) :: if rang then [(none, some .ringing)] else []

/-- The events of a call that has connected. -/
def Connected (l : List (Option Phase × Option Result)) : Prop :=
  ∃ m rang, Calling m rang ∧ l = m ++ [(some .live, some .connected)]

/-- The events of a call that is over: it had connected, or its end is its result. -/
def Over (l : List (Option Phase × Option Result)) : Prop :=
  (∃ m, Connected m ∧ l = m ++ [(some .idle, none)]) ∨
    ∃ m rang r, Calling m rang ∧ r ≠ .ringing ∧ l = m ++ [(some .idle, some r)]

/-- The events of call `g` are those of its state. -/
def Tale (s : Echo) (g : ℕ) : Prop :=
  if s.c.gen = g then
    s.c.state = .calling ∧ Calling (tale s g) s.c.rang ∨ s.c.state = .live ∧ Connected (tale s g)
  else Over (tale s g)

/-- **What holds of the calls this Echo made**, and of the numbers of calls. -/
structure Told (s : Echo) : Prop where
  room : s.evq.length ≤ evqMax
  ring : s.c.state = .ringing → s.c.outgoing = false
  call : s.c.state = .calling → s.c.outgoing = true
  later : ∀ e ∈ s.log, e.gen ≤ s.c.gen
  made : ∀ g ∈ s.made, g ≤ s.c.gen
  own : s.c.gen ∈ s.made → s.c.outgoing = true ∧ (s.c.state = .calling ∨ s.c.state = .live)
  ours : s.c.outgoing = true → s.c.state ≠ .idle → s.c.gen ∈ s.made
  tale : ∀ g ∈ s.made, Tale s g

section

variable {s s' : Echo} {o : Option Ev} {e : Ev} {g : ℕ}

/-- An event that is not about `g` is not part of its tale. -/
theorem tale_of_ne (h : Queued s s' o) (ho : ∀ e ∈ o, e.gen ≠ g ∨ e.here = true) :
    tale s' g = tale s g := by
  rw [tale, tale, h.log, filter_append, map_append]
  cases o with
  | none => simp
  | some e =>
    have hskip : (e.gen == g && !e.here) = false := by
      rcases ho e rfl with hne | hhere
      · simp [hne]
      · simp [hhere]
    simp [hskip]

theorem tale_of_is {state : Option Phase} {result : Option Result} (h : Queued s s' (some e))
    (he : e.Is state result g) : tale s' g = tale s g ++ [(state, result)] := by
  obtain ⟨rfl, rfl, hhere, hgen⟩ := he
  rw [tale, tale, h.log, filter_append, map_append]
  simp [hhere, hgen]

/-- A number that no event has yet has no tale. -/
theorem tale_of_lt (h : ∀ e ∈ s.log, e.gen ≤ s.c.gen) : tale s (s.c.gen + 1) = [] := by
  rw [tale, map_eq_nil_iff, filter_eq_nil_iff]
  intro e he
  have := h e he
  simp only [Bool.and_eq_true, beq_iff_eq, not_and]
  omega

/-- The tale of a call that is over stays as it is. -/
theorem Tale.other (h : Tale s g) (hg : g ≠ s.c.gen) (hg' : g ≠ s'.c.gen)
    (htale : tale s' g = tale s g) : Tale s' g := by
  rw [Tale, if_neg (Ne.symm hg)] at h
  rw [Tale, if_neg (Ne.symm hg'), htale]
  exact h

/-- A call of ours that was made before is over when there is no call. -/
theorem Tale.idle (h : Tale s g) (hidle : s.c.state = .idle) : g ≠ s.c.gen := by
  rintro rfl
  rw [Tale, if_pos rfl, hidle] at h
  rcases h with ⟨h, -⟩ | ⟨h, -⟩
  · exact absurd h (by decide)
  · exact absurd h (by decide)

/-- The numbers of the events are no later than the call's. -/
theorem Queued.later (h : Queued s s' o) (hlater : ∀ e ∈ s.log, e.gen ≤ s.c.gen)
    (hgen : s.c.gen ≤ s'.c.gen) (ho : ∀ e ∈ o, e.gen ≤ s'.c.gen) :
    ∀ e ∈ s'.log, e.gen ≤ s'.c.gen := by
  intro e he
  rw [h.log] at he
  rcases mem_append.mp he with he | he
  · exact (hlater e he).trans hgen
  · exact ho e (Option.mem_toList.mp he)

/-- **What holds of the calls stays so**, whatever a function does. -/
theorem told_move (h : Told s) (hm : Move s s') : Told s' := by
  cases hm with
  | stays o hq ho hsame made =>
    obtain ⟨hstate, hgen, hout, hrang, -, -⟩ := hsame
    refine ⟨hq.room h.room, ?_, ?_, hq.later h.later hgen.ge fun e he => ?_, ?_, ?_,
      ?_, fun g hg => ?_⟩
    · rw [hstate, hout]
      exact h.ring
    · rw [hstate, hout]
      exact h.call
    · rw [(ho e he).2, hgen]
    · rw [made, hgen]
      exact h.made
    · rw [made, hgen, hout, hstate]
      exact h.own
    · rw [made, hgen, hout, hstate]
      exact h.ours
    · rw [made] at hg
      have htale := h.tale g hg
      rw [Tale, hgen, hstate, hrang, tale_of_ne hq fun e he => .inr (ho e he).1]
      exact htale
  | begins e hq he hout idle state outgoing rang gen made =>
    refine ⟨hq.room h.room, fun hring => ?_, fun _ => outgoing, hq.later h.later (by omega) ?_, ?_,
      fun _ => ⟨outgoing, .inl state⟩, fun _ _ => ?_, fun g hg => ?_⟩
    · rw [state] at hring
      exact absurd hring (by decide)
    · rintro x ⟨⟩
      rw [he.2.2.2, gen]
    · intro g hg
      rw [made] at hg
      rcases mem_append.mp hg with hg | hg
      · have := h.made g hg
        omega
      · rw [mem_singleton.mp hg, gen]
    · rw [made, gen]
      exact mem_append_right _ mem_cons_self
    · rw [made] at hg
      rcases mem_append.mp hg with hg | hg
      · have hle := h.made g hg
        refine (h.tale g hg).other ((h.tale g hg).idle idle) (by omega) (tale_of_ne hq ?_)
        rintro x ⟨⟩
        rw [he.2.2.2]
        exact .inl (by omega)
      · obtain rfl := mem_singleton.mp hg
        rw [Tale, if_pos gen, tale_of_is hq he, tale_of_lt h.later, rang]
        exact .inl ⟨state, rfl⟩
  | incoming o hq ho idle state outgoing gen made =>
    refine ⟨hq.room h.room, fun _ => outgoing, fun hcall => absurd hcall state,
      hq.later h.later (by omega) fun e he => by rw [ho e he, gen], ?_, ?_, ?_, fun g hg => ?_⟩
    · intro g hg
      rw [made] at hg
      have := h.made g hg
      omega
    · intro hown
      rw [made, gen] at hown
      have := h.made _ hown
      omega
    · intro hout
      rw [outgoing] at hout
      exact absurd hout (by decide)
    · rw [made] at hg
      have hle := h.made g hg
      refine (h.tale g hg).other ((h.tale g hg).idle idle) (by omega) (tale_of_ne hq fun e he => ?_)
      rw [ho e he]
      exact .inl (by omega)
  | rings e hq he was state outgoing rang gen invited since made =>
    have hout := h.call was.1
    refine ⟨hq.room h.room, fun hring => ?_, fun _ =>
      outgoing.trans hout, hq.later h.later gen.ge ?_, ?_,
        fun _ => ⟨outgoing.trans hout, .inl state⟩, fun _ _ => ?_, fun g hg => ?_⟩
    · rw [state] at hring
      exact absurd hring (by decide)
    · rintro x ⟨⟩
      rw [he.2.2.2, gen]
    · rw [made, gen]
      exact h.made
    · rw [made, gen]
      exact h.ours hout (by rw [was.1]; decide)
    · rw [made] at hg
      by_cases hcur : s.c.gen = g
      · subst hcur
        have htale := h.tale _ hg
        rw [Tale, if_pos rfl, was.1] at htale
        rcases htale with ⟨-, hcalling⟩ | ⟨hlive, -⟩
        · rw [Tale, if_pos gen, tale_of_is hq he, rang]
          rw [was.2] at hcalling
          exact .inl ⟨state, by rw [hcalling]; rfl⟩
        · exact absurd hlive (by decide)
      · refine (h.tale g hg).other (Ne.symm hcur) (by rw [gen]; exact Ne.symm hcur)
          (tale_of_ne hq ?_)
        rintro x ⟨⟩
        rw [he.2.2.2]
        exact .inl hcur
  | connects e hq he was state outgoing gen made =>
    refine ⟨hq.room h.room, fun hring => ?_, fun hcall =>
      ?_, hq.later h.later gen.ge ?_, ?_, ?_, ?_, fun g hg => ?_⟩
    · rw [state] at hring
      exact absurd hring (by decide)
    · rw [state] at hcall
      exact absurd hcall (by decide)
    · rintro x ⟨⟩
      rw [he.2.2.2, gen]
    · rw [made, gen]
      exact h.made
    · rw [made, gen, outgoing]
      exact fun hown => ⟨(h.own hown).1, .inr state⟩
    · intro hout _
      rw [outgoing] at hout
      rw [hout, if_pos rfl] at was
      rw [made, gen]
      exact h.ours hout (by rw [was]; decide)
    · rw [made] at hg
      by_cases hcur : s.c.gen = g
      · subst hcur
        have hout := (h.own hg).1
        rw [hout, if_pos rfl] at was he
        have htale := h.tale _ hg
        rw [Tale, if_pos rfl, was] at htale
        rcases htale with ⟨-, hcalling⟩ | ⟨hlive, -⟩
        · rw [Tale, if_pos gen, tale_of_is hq he]
          exact .inr ⟨state, _, _, hcalling, rfl⟩
        · exact absurd hlive (by decide)
      · refine (h.tale g hg).other (Ne.symm hcur) (by rw [gen]; exact Ne.symm hcur)
          (tale_of_ne hq ?_)
        rintro x ⟨⟩
        rw [he.2.2.2]
        exact .inl hcur
  | ends e r hq he hr was state gen made =>
    have hnew : s'.c.gen ∉ s.made := by
      intro hown
      have := h.made _ hown
      omega
    refine ⟨hq.room h.room, fun hring => ?_, fun hcall =>
      ?_, hq.later h.later (by omega) ?_, ?_, ?_, ?_, fun g hg => ?_⟩
    · rw [state] at hring
      exact absurd hring (by decide)
    · rw [state] at hcall
      exact absurd hcall (by decide)
    · rintro x ⟨⟩
      rw [he.2.2.2]
      omega
    · intro g hg
      rw [made] at hg
      have := h.made g hg
      omega
    · intro hown
      rw [made] at hown
      exact absurd hown hnew
    · exact fun _ hne => absurd state hne
    · rw [made] at hg
      have hle := h.made g hg
      by_cases hcur : s.c.gen = g
      · subst hcur
        have htale := h.tale _ hg
        rw [Tale, if_pos rfl] at htale
        rw [Tale, if_neg (by omega), tale_of_is hq he]
        -- a call that never connected ends with its result
        rcases htale with ⟨hcall, hcalling⟩ | ⟨hlive, hconn⟩
        · rw [if_pos ⟨hcall, h.call hcall⟩] at hr
          obtain ⟨v, rfl, hv⟩ := hr
          exact .inr ⟨_, _, v, hcalling, hv, rfl⟩
        · rw [if_neg (by rw [hlive]; exact fun hc => absurd hc.1 (by decide))] at hr
          subst hr
          exact .inl ⟨_, hconn, rfl⟩
      · refine (h.tale g hg).other (Ne.symm hcur) (by omega) (tale_of_ne hq ?_)
        rintro x ⟨⟩
        rw [he.2.2.2]
        exact .inl hcur

theorem told_tellPop (h : Told s) : Told s.tellPop := by
  rw [Echo.tellPop]
  split
  · rename_i e q _ hevq
    have hroom := h.room
    rw [hevq, length_cons] at hroom
    exact { h with room := Nat.le_of_succ_le hroom }
  · exact h

theorem told_tellDone {E : Env} (h : Told s) (now : ℤ) : Told (s.tellDone E now) := by
  unfold Echo.tellDone
  split
  · exact h
  · extract_lets t
    split
    · exact { h with room := h.room }
    · exact { h with room := h.room }

theorem told_step {E : Env} (h : Told s) (e : Event) : Told (s.step E e) := by
  by_cases hquiet : e.Quiet
  · exact told_move h (move_step h.room h.ring hquiet)
  · cases e with
    | tellPop => exact told_tellPop h
    | tellDone now => exact told_tellDone h now
    | _ => exact absurd trivial hquiet

/-- **Every call this Echo made is told once**, in every run. -/
theorem told_run (E : Env) (es : List Event) : Told (Echo.run E es) := by
  have hstart : Told {} :=
    ⟨Nat.zero_le _, nofun, nofun, fun _ he => absurd he not_mem_nil,
      fun _ hg => absurd hg not_mem_nil, fun hg => absurd hg not_mem_nil, nofun,
      fun _ hg => absurd hg not_mem_nil⟩
  exact Runs.invariant_all (I := Told) (fun _ e h => told_step h e) hstart es

end

/-! ### The queue -/

/-- The event with which the core is told that call `g` calls. -/
def Ev.Announces (e : Ev) (g : ℕ) : Prop := e.state = some .calling ∧ e.outgoing = true ∧ e.gen = g

/-- The core is told every event in order, if none is lost; and **a call that was not invited yet
waits for the core**. -/
structure Waits (s : Echo) : Prop where
  told : s.lost = [] → s.log = s.told ++ s.evq
  waits : s.c.state = .calling → s.c.invited = false →
    ∃ e ∈ s.evq ++ s.telling.toList ++ s.lost, e.Announces s.c.gen

section

variable {s s' : Echo} {o : Option Ev}

/-- What waits goes on waiting when an event is queued, unless it is lost. -/
theorem Queued.mem (h : Queued s s' o) {e : Ev} (he : e ∈ s.evq ++ s.telling.toList ++ s.lost) :
    e ∈ s'.evq ++ s'.telling.toList ++ s'.lost := by
  rw [h.telling]
  rcases h.evq with ⟨hevq, hlost⟩ | ⟨-, -, hevq, hlost⟩
  · rw [hevq, hlost]
    simp only [mem_append] at he ⊢
    tauto
  · have hsplit : ∀ x ∈ s.evq, x ∈ (s.evq ++ o.toList).take 1 ∨ x ∈ (s.evq ++ o.toList).drop 1 := by
      intro x hx
      rw [← mem_append, take_append_drop]
      exact mem_append_left _ hx
    rw [hevq, hlost]
    simp only [mem_append] at he hsplit ⊢
    rcases he with (he | he) | he
    · rcases hsplit e he with h | h <;> tauto
    · tauto
    · tauto

theorem Queued.new {e : Ev} (h : Queued s s' (some e)) : e ∈ s'.evq := by
  rcases h.evq with ⟨hevq, -⟩ | ⟨hfull, -, hevq, -⟩
  · rw [hevq]
    exact mem_append_right _ mem_cons_self
  · rw [hevq, drop_append_of_le_length (by rw [hfull]; decide)]
    exact mem_append_right _ mem_cons_self

theorem Queued.log_eq (h : Queued s s' o) (htold : s.lost = [] → s.log = s.told ++ s.evq) :
    s'.lost = [] → s'.log = s'.told ++ s'.evq := by
  intro hnone
  rcases h.evq with ⟨hevq, hlost⟩ | ⟨hfull, -, -, hlost⟩
  · rw [h.log, h.told, hevq, htold (hlost ▸ hnone), append_assoc]
  · -- a full queue gives up an event
    rw [hlost] at hnone
    have hnil := (append_eq_nil_iff.mp hnone).2
    have hlen := congrArg List.length hnil
    rw [length_take, length_append, hfull] at hlen
    exact absurd hlen (by simp)

theorem waits_move (h : Waits s) (hm : Move s s') : Waits s' := by
  cases hm with
  | stays o hq ho hsame made =>
    refine ⟨hq.log_eq h.told, fun hcall hinv => ?_⟩
    rw [hsame.state] at hcall
    rw [hsame.invited] at hinv
    obtain ⟨e, he, hann⟩ := h.waits hcall hinv
    exact ⟨e, hq.mem he, hsame.gen ▸ hann⟩
  | begins e hq he hout idle state outgoing rang gen made =>
    refine ⟨hq.log_eq h.told, fun _ _ => ⟨e, ?_, he.1, hout, he.2.2.2.trans gen.symm⟩⟩
    exact mem_append_left _ (mem_append_left _ hq.new)
  | incoming o hq ho idle state outgoing gen made =>
    exact ⟨hq.log_eq h.told, fun hcall => absurd hcall state⟩
  | rings e hq he was state outgoing rang gen invited since made =>
    refine ⟨hq.log_eq h.told, fun _ hinv => ?_⟩
    rw [invited] at hinv
    obtain ⟨x, hx, hann⟩ := h.waits was.1 hinv
    exact ⟨x, hq.mem hx, gen ▸ hann⟩
  | connects e hq he was state outgoing gen made =>
    refine ⟨hq.log_eq h.told, fun hcall => ?_⟩
    rw [state] at hcall
    exact absurd hcall (by decide)
  | ends e r hq he hr was state gen made =>
    refine ⟨hq.log_eq h.told, fun hcall => ?_⟩
    rw [state] at hcall
    exact absurd hcall (by decide)

theorem waits_tellPop (h : Waits s) : Waits s.tellPop := by
  rw [Echo.tellPop]
  split
  · rename_i e q htelling hevq
    refine ⟨fun hlost => ?_, fun hcall hinv => ?_⟩
    · show s.log = s.told ++ [e] ++ q
      rw [h.told hlost, hevq, append_assoc]
      rfl
    · obtain ⟨x, hx, hann⟩ := h.waits hcall hinv
      refine ⟨x, ?_, hann⟩
      rw [hevq, htelling] at hx
      simp only [mem_append, mem_cons, Option.toList, not_mem_nil, or_false] at hx ⊢
      tauto
  · exact h

/-- When the core has been told that a call calls, its first invite goes out. -/
theorem invited_tellDone {E : Env} {e : Ev} (htelling : s.telling = some e)
    (hann : e.Announces s.c.gen) (hcall : s.c.state = .calling)
    (hout : s.c.outgoing = true) (now : ℤ) :
    (s.tellDone E now).c.invited = true := by
  unfold Echo.tellDone
  rw [htelling]
  dsimp only
  split
  · rfl
  · rename_i hnot
    by_contra hinv
    exact hnot ⟨⟨hann.1, hann.2.1⟩, hcall, hout, hann.2.2.symm, by simpa using hinv⟩

theorem waits_tellDone {E : Env} (ht : Told s) (h : Waits s) (now : ℤ) :
    Waits (s.tellDone E now) := by
  have hlog : (s.tellDone E now).log = s.log ∧ (s.tellDone E now).told = s.told ∧
      (s.tellDone E now).evq = s.evq ∧ (s.tellDone E now).lost = s.lost ∧
      (s.tellDone E now).c.state = s.c.state ∧ (s.tellDone E now).c.gen = s.c.gen ∧
      ((s.tellDone E now).c.invited = false → s.c.invited = false) := by
    unfold Echo.tellDone
    split
    · exact ⟨rfl, rfl, rfl, rfl, rfl, rfl, id⟩
    · dsimp only
      split
      · exact ⟨rfl, rfl, rfl, rfl, rfl, rfl, nofun⟩
      · exact ⟨rfl, rfl, rfl, rfl, rfl, rfl, id⟩
  obtain ⟨hlog, htold, hevq, hlost, hstate, hgen, hinvited⟩ := hlog
  refine ⟨?_, fun hcall hinv => ?_⟩
  · rw [hlog, htold, hevq, hlost]
    exact h.told
  · rw [hstate] at hcall
    obtain ⟨x, hx, hann⟩ := h.waits hcall (hinvited hinv)
    rw [hevq, hlost, hgen]
    refine ⟨x, ?_, hann⟩
    simp only [mem_append] at hx ⊢
    rcases hx with (hx | hx) | hx
    · exact .inl (.inl hx)
    · -- what is being told is not the event of this call: it would have been invited
      rw [Option.mem_toList] at hx
      rw [invited_tellDone hx hann hcall (ht.call hcall)] at hinv
      exact absurd hinv (by decide)
    · exact .inr hx

theorem waits_step {E : Env} (ht : Told s) (h : Waits s) (e : Event) : Waits (s.step E e) := by
  by_cases hquiet : e.Quiet
  · exact waits_move h (move_step ht.room ht.ring hquiet)
  · cases e with
    | tellPop => exact waits_tellPop h
    | tellDone now => exact waits_tellDone ht h now
    | _ => exact absurd trivial hquiet

theorem waits_run (E : Env) (es : List Event) : Waits (Echo.run E es) := by
  have hstart : Waits {} := ⟨fun _ => rfl, nofun⟩
  have hrun := Runs.invariant_all (I := fun s => Told s ∧ Waits s) (f := Echo.step E)
    (fun s e h => ⟨told_step h.1 e, waits_step h.1 h.2 e⟩) ⟨told_run E [], hstart⟩ es
  exact hrun.2

/-- An event is lost only when one more is queued behind 16. -/
theorem lost_step {E : Env} (ht : Told s) (e : Event) :
    (s.step E e).lost = s.lost ∨ s.evq.length = evqMax := by
  have hqueued : ∀ o t, Queued s t o → t.lost = s.lost ∨ s.evq.length = evqMax :=
    fun o t h => h.evq.imp And.right And.left
  by_cases hquiet : e.Quiet
  · cases move_step (E := E) ht.room ht.ring hquiet with
    | stays o hq => exact hqueued o _ hq
    | begins e hq => exact hqueued _ _ hq
    | incoming o hq => exact hqueued o _ hq
    | rings e hq => exact hqueued _ _ hq
    | connects e hq => exact hqueued _ _ hq
    | ends e r hq => exact hqueued _ _ hq
  · cases e with
    | tellPop =>
      rw [Echo.step, Echo.tellPop]
      split
      · exact .inl rfl
      · exact .inl rfl
    | tellDone now =>
      unfold Echo.step Echo.tellDone
      dsimp only
      split
      · exact .inl rfl
      · split
        · exact .inl rfl
        · exact .inl rfl
    | _ => exact absurd trivial hquiet

/-- The time a call is given counts from its first invite. -/
theorem since_step {E : Env} (ht : Told s) (e : Event) (hinv : s.c.invited = true)
    (hcall : (s.step E e).c.state = .calling) (hgen : (s.step E e).c.gen = s.c.gen) :
    (s.step E e).c.since = s.c.since := by
  by_cases hquiet : e.Quiet
  · cases move_step (E := E) ht.room ht.ring hquiet with
    | stays o hq ho hsame made => exact hsame.since
    | begins e hq he hout idle state outgoing rang gen made => omega
    | incoming o hq ho idle state outgoing gen made => omega
    | rings e hq he was state outgoing rang gen invited since made => exact since
    | connects e hq he was state outgoing gen made =>
      rw [state] at hcall
      exact absurd hcall (by decide)
    | ends e r hq he hr was state gen made => omega
  · cases e with
    | tellPop =>
      rw [Echo.step, Echo.tellPop]
      split
      · rfl
      · rfl
    | tellDone now =>
      unfold Echo.step Echo.tellDone
      dsimp only
      split
      · rfl
      · split
        · rename_i hnew
          rw [hinv] at hnew
          exact absurd hnew.2.2.2.2 (by decide)
        · rfl
    | _ => exact absurd trivial hquiet

/-- An invited call that calls for too long is ended by the loop. -/
theorem ends_tick {E : Env} {now : ℤ} (hcall : s.c.state = .calling) (hinv : s.c.invited = true)
    (hlate : ringMs + E.answerMs < now - s.c.since) : (s.tick E now).c.state = .idle := by
  have hend : ∀ why r, (s.endCall E now why true r).c.state = .idle := by
    intro why r
    rw [Echo.endCall, if_neg (by rw [hcall]; decide)]
  have htick : (s.tickCall E now).c.state = .idle := by
    unfold Echo.tickCall
    rw [hcall]
    dsimp only
    rw [if_neg (by rw [hinv]; decide)]
    split
    · exact hend _ _
    · rename_i hnot
      rw [if_pos ?_]
      · exact hend _ _
      · have hrings : ringMs = 30000 := rfl
        refine ⟨?_, hlate⟩
        by_contra hrang
        exact hnot ⟨by simpa using hrang, by omega⟩
  unfold Echo.tick
  extract_lets t
  split
  · exact htick
  · exact htick

end

/-! ### One outcome -/

/-- The states of call `g` the core is told, in order. -/
def states (s : Echo) (g : ℕ) : List Phase := (tale s g).filterMap (·.1)

/-- What came of call `g`: that it rings there is not the end. -/
def results (s : Echo) (g : ℕ) : List Result :=
  ((tale s g).filterMap (·.2)).filter (· ≠ .ringing)

/-- **A call of ours is told once**: what the core has been told of it, by where the call is. -/
structure Once (s : Echo) (g : ℕ) : Prop where
  calling : s.c.gen = g → s.c.state = .calling → states s g = [.calling] ∧ results s g = []
  live : s.c.gen = g → s.c.state = .live →
    states s g = [.calling, .live] ∧ results s g = [.connected]
  current : s.c.gen = g → s.c.state = .calling ∨ s.c.state = .live
  past : s.c.gen ≠ g →
    states s g = [.calling, .live, .idle] ∧ results s g = [.connected] ∨
      states s g = [.calling, .idle] ∧ ∃ r, results s g = [r]

/-- **A call that calls comes to its end**: its first invite goes out when the core has been told,
and the time it is given from then on does not grow. -/
structure Leads (E : Env) (s : Echo) : Prop where
  waits : s.c.state = .calling → s.c.invited = false →
    ∃ e ∈ s.evq ++ s.telling.toList ++ s.lost, e.Announces s.c.gen
  invites : ∀ e now, s.telling = some e → e.Announces s.c.gen → s.c.state = .calling →
    (s.tellDone E now).c.invited = true
  deadline : ∀ e, s.c.invited = true → (s.step E e).c.state = .calling →
    (s.step E e).c.gen = s.c.gen → (s.step E e).c.since = s.c.since
  ends : ∀ now, s.c.state = .calling → s.c.invited = true → ringMs + E.answerMs < now - s.c.since →
    (s.tick E now).c.state = .idle

section

variable {s : Echo} {g : ℕ}

theorem once_of_told (h : Told s) (hg : g ∈ s.made) : Once s g := by
  have htale := h.tale g hg
  have hcalling : ∀ {l rang}, Calling l rang →
      l.filterMap (·.1) = [.calling] ∧ (l.filterMap (·.2)).filter (· ≠ .ringing) = [] := by
    rintro l rang rfl
    cases rang <;> exact ⟨rfl, rfl⟩
  have hconn : ∀ {l}, Connected l →
      l.filterMap (·.1) = [.calling, .live] ∧
        (l.filterMap (·.2)).filter (· ≠ .ringing) = [.connected] := by
    rintro l ⟨m, rang, hm, rfl⟩
    obtain ⟨hstates, hresults⟩ := hcalling hm
    rw [filterMap_append, filterMap_append, filter_append, hstates, hresults]
    exact ⟨rfl, rfl⟩
  rw [Tale] at htale
  refine ⟨fun hcur hcall => ?_, fun hcur hlive => ?_, fun hcur => ?_, fun hpast => ?_⟩
  · rw [if_pos hcur, hcall] at htale
    rcases htale with ⟨-, hl⟩ | ⟨hl, -⟩
    · exact hcalling hl
    · exact absurd hl (by decide)
  · rw [if_pos hcur, hlive] at htale
    rcases htale with ⟨hl, -⟩ | ⟨-, hl⟩
    · exact absurd hl (by decide)
    · exact hconn hl
  · rw [if_pos hcur] at htale
    exact htale.imp And.left And.left
  · rw [if_neg hpast] at htale
    rw [states, results]
    rcases htale with ⟨m, hm, heq⟩ | ⟨m, rang, r, hm, hr, heq⟩
    · obtain ⟨hstates, hresults⟩ := hconn hm
      rw [heq, filterMap_append, filterMap_append, filter_append, hstates, hresults]
      exact .inl ⟨rfl, rfl⟩
    · obtain ⟨hstates, hresults⟩ := hcalling hm
      rw [heq, filterMap_append, filterMap_append, filter_append, hstates, hresults]
      exact .inr ⟨rfl, r, by simp [hr]⟩

end

end Hassmic.DropIn
