import Hassmic.DropIn.Call

/-!
# What a function does to a call

As far as the core hears of it a call begins, comes in, rings, connects and ends, and each of these
queues one event.  Every function of an Echo makes one of these moves, or none.

## Main definitions

* `Queued` — a function pushes an event, or none.
* `Move` — **everything a function may do** to the call as the core hears of it.

## Main results

* `move_step` — every function makes such a move.
-/

namespace Hassmic.DropIn

open Byte List

/-! ### Moves -/

/-- What the core was told stays, and at most one event is queued: the oldest makes room for it. -/
structure Queued (s s' : Echo) (o : Option Ev) : Prop where
  log : s'.log = s.log ++ o.toList
  told : s'.told = s.told
  telling : s'.telling = s.telling
  room : s.evq.length ≤ evqMax → s'.evq.length ≤ evqMax
  evq : s'.evq = s.evq ++ o.toList ∧ s'.lost = s.lost ∨
    s.evq.length = evqMax ∧ o.isSome ∧ s'.evq = (s.evq ++ o.toList).drop 1 ∧
      s'.lost = s.lost ++ (s.evq ++ o.toList).take 1

/-- The call is as it was, as far as the core is concerned. -/
structure Same (s s' : Echo) : Prop where
  state : s'.c.state = s.c.state
  gen : s'.c.gen = s.c.gen
  outgoing : s'.c.outgoing = s.c.outgoing
  rang : s'.c.rang = s.c.rang
  invited : s'.c.invited = s.c.invited
  since : s'.c.since = s.c.since

/-- What the core was told, and what waits to be told. -/
def Echo.queue (s : Echo) : List Ev × List Ev × Option Ev × List Ev × List Ev :=
  (s.log, s.told, s.telling, s.evq, s.lost)

/-- All that a move is about. -/
def Echo.shown (s : Echo) :
    (List Ev × List Ev × Option Ev × List Ev × List Ev) × List ℕ × Phase × ℕ ×
    Bool × Bool × Bool × ℤ :=
  (s.queue, s.made, s.c.state, s.c.gen, s.c.outgoing, s.c.rang, s.c.invited, s.c.since)

/-- The event of a call, in the state it has with the number it has. -/
def Ev.Is (e : Ev) (state : Option Phase) (result : Option Result) (gen : ℕ) : Prop :=
  e.state = state ∧ e.result = result ∧ e.here = false ∧ e.gen = gen

/-- **Everything a function may do** to the call as the core hears of it. -/
inductive Move (s s' : Echo) : Prop
  /-- Nothing; a call may have been refused here. -/
  | stays (o : Option Ev) (hq : Queued s s' o) (ho : ∀ e ∈ o, e.here = true ∧ e.gen = s.c.gen)
      (h : Same s s')
      (made : s'.made = s.made)
  /-- A call of ours begins. -/
  | begins (e : Ev) (hq : Queued s s' (some e)) (he : e.Is (some .calling) none (s.c.gen + 1))
      (hout : e.outgoing = true) (idle : s.c.state = .idle) (state : s'.c.state = .calling)
      (outgoing : s'.c.outgoing = true) (rang : s'.c.rang = false) (gen : s'.c.gen = s.c.gen + 1)
      (made : s'.made = s.made ++ [s.c.gen + 1])
  /-- A call comes in. -/
  | incoming (o : Option Ev) (hq : Queued s s' o) (ho : ∀ e ∈ o, e.gen = s.c.gen + 1)
      (idle : s.c.state = .idle) (state : s'.c.state ≠ .calling) (outgoing : s'.c.outgoing = false)
      (gen : s'.c.gen = s.c.gen + 1) (made : s'.made = s.made)
  /-- The Echo called rings. -/
  | rings (e : Ev) (hq : Queued s s' (some e)) (he : e.Is none (some .ringing) s.c.gen)
      (was : s.c.state = .calling ∧ s.c.rang = false) (state : s'.c.state = .calling)
      (outgoing : s'.c.outgoing = s.c.outgoing) (rang : s'.c.rang = true) (gen : s'.c.gen = s.c.gen)
      (invited : s'.c.invited = s.c.invited) (since : s'.c.since = s.c.since)
      (made : s'.made = s.made)
  /-- The call connects. -/
  | connects (e : Ev) (hq : Queued s s' (some e))
      (he : e.Is (some .live) (if s.c.outgoing then some .connected else none) s.c.gen)
      (was : if s.c.outgoing then s.c.state = .calling else s.c.state = .ringing)
      (state : s'.c.state = .live) (outgoing : s'.c.outgoing = s.c.outgoing)
      (gen : s'.c.gen = s.c.gen) (made : s'.made = s.made)
  /-- The call ends. -/
  | ends (e : Ev) (r : Option Result) (hq : Queued s s' (some e)) (he : e.Is (some .idle) r s.c.gen)
      (hr : if s.c.state = .calling ∧ s.c.outgoing then ∃ v, r = some v ∧ v ≠ .ringing
        else r = none)
      (was : s.c.state ≠ .idle) (state : s'.c.state = .idle) (gen : s'.c.gen = s.c.gen + 1)
      (made : s'.made = s.made)

section

variable {E : Env} {s s' : Echo}

theorem Queued.refl (s : Echo) : Queued s s none :=
  ⟨(append_nil _).symm, rfl, rfl, id, .inl ⟨(append_nil _).symm, rfl⟩⟩

/-- A function that leaves the call and the queue alone. -/
theorem Move.still (h : s'.shown = s.shown) : Move s s' := by
  simp only [Echo.shown, Echo.queue, Prod.mk.injEq] at h
  obtain ⟨⟨hlog, htold, htelling, hevq, hlost⟩, hmade, hstate, hgen, hout, hrang, hinv, hsince⟩ := h
  exact .stays none ⟨by simp [hlog], htold, htelling, by rw [hevq]; exact id,
    .inl ⟨by simp [hevq], hlost⟩⟩
    (by simp) ⟨hstate, hgen, hout, hrang, hinv, hsince⟩ hmade

theorem Move.refl (s : Echo) : Move s s := .still rfl

/-- `ev_push` queues its event, and the oldest makes room for it. -/
theorem queued_evPush (hroom : s.evq.length ≤ evqMax) (state : Option Phase) (node : Bytes)
    (outgoing : Bool) (result : Option Result) (here : Bool) :
    Queued s (s.evPush state node outgoing result here)
      (some ⟨state, node.take 63, outgoing, result, here, s.c.gen⟩) := by
  rw [Echo.evPush]
  split
  · rename_i hover
    rw [length_append, length_singleton] at hover
    refine ⟨rfl, rfl, rfl, fun _ => ?_, .inr ⟨by omega, rfl, rfl, rfl⟩⟩
    rw [length_drop, length_append, length_singleton]
    omega
  · rename_i hfits
    exact ⟨rfl, rfl, rfl, fun _ => not_lt.mp hfits, .inl ⟨rfl, rfl⟩⟩

/-- `ev_push` touches the queue alone. -/
@[simp] theorem evPush_c (state : Option Phase) (node : Bytes) (outgoing : Bool)
    (result : Option Result) (here : Bool) :
    (s.evPush state node outgoing result here).c = s.c := by
  rw [Echo.evPush]
  split <;> rfl

@[simp] theorem evPush_made (state : Option Phase) (node : Bytes) (outgoing : Bool)
    (result : Option Result) (here : Bool) :
    (s.evPush state node outgoing result here).made = s.made := by
  rw [Echo.evPush]
  split <;> rfl

/-- What is queued does not depend on what else changes. -/
theorem Queued.of_eq {t t' : Echo} {o : Option Ev} (h : Queued t t' o) (hs : t.queue = s.queue)
    (hs' : s'.queue = t'.queue) : Queued s s' o := by
  simp only [Echo.queue, Prod.mk.injEq] at hs hs'
  obtain ⟨hlog, htold, htelling, hevq, hlost⟩ := hs
  obtain ⟨hlog', htold', htelling', hevq', hlost'⟩ := hs'
  refine ⟨by rw [hlog', h.log, hlog], by rw [htold', h.told, htold],
    by rw [htelling', h.telling, htelling], ?_, ?_⟩
  · rw [hevq', ← hevq]
    exact h.room
  · rw [hevq', hlost', ← hevq, ← hlost]
    exact h.evq

/-- Nor does a move. -/
theorem Move.of_eq {t t' : Echo} (h : Move t t') (hs : t.shown = s.shown)
    (hs' : s'.shown = t'.shown) :
    Move s s' := by
  simp only [Echo.shown, Prod.mk.injEq] at hs hs'
  obtain ⟨hqueue, hmade, hstate, hgen, hout, hrang, hinv, hsince⟩ := hs
  obtain ⟨hqueue', hmade', hstate', hgen', hout', hrang', hinv', hsince'⟩ := hs'
  have hqueued : ∀ o, Queued t t' o → Queued s s' o := fun o hq => hq.of_eq hqueue hqueue'
  cases h with
  | stays o hq ho h made =>
    rw [hgen] at ho
    rw [hmade] at made
    have hsame : Same s s' := ⟨hstate'.trans (h.state.trans hstate), hgen'.trans (h.gen.trans hgen),
      hout'.trans (h.outgoing.trans hout), hrang'.trans (h.rang.trans hrang),
      hinv'.trans (h.invited.trans hinv), hsince'.trans (h.since.trans hsince)⟩
    exact .stays o (hqueued _ hq) ho hsame (hmade'.trans made)
  | begins e hq he hcall idle state outgoing rang gen made =>
    rw [hgen] at he gen made
    rw [hmade] at made
    exact .begins e (hqueued _ hq) he hcall (hstate ▸ idle) (hstate'.trans state)
      (hout'.trans outgoing)
      (hrang'.trans rang) (hgen'.trans gen) (hmade'.trans made)
  | incoming o hq ho idle state outgoing gen made =>
    rw [hgen] at ho gen
    rw [hmade] at made
    exact .incoming o (hqueued _ hq) ho (hstate ▸ idle) (hstate' ▸ state) (hout'.trans outgoing)
      (hgen'.trans gen) (hmade'.trans made)
  | rings e hq he was state outgoing rang gen invited since made =>
    rw [hgen] at he gen
    rw [hstate, hrang] at was
    rw [hmade] at made
    exact .rings e (hqueued _ hq) he was (hstate'.trans state) (hout'.trans (outgoing.trans hout))
      (hrang'.trans rang) (hgen'.trans gen) (hinv'.trans (invited.trans hinv))
      (hsince'.trans (since.trans hsince)) (hmade'.trans made)
  | connects e hq he was state outgoing gen made =>
    rw [hgen, hout] at he
    rw [hout, hstate] at was
    rw [hmade] at made
    exact .connects e (hqueued _ hq) he was (hstate'.trans state)
      (hout'.trans (outgoing.trans hout))
      (hgen'.trans (gen.trans hgen)) (hmade'.trans made)
  | ends e r hq he hr was state gen made =>
    rw [hgen] at he gen
    rw [hstate, hout] at hr
    rw [hmade] at made
    exact .ends e r (hqueued _ hq) he hr (hstate ▸ was) (hstate'.trans state) (hgen'.trans gen)
      (hmade'.trans made)

/-! ### What each function does -/

theorem move_endCall (hroom : s.evq.length ≤ evqMax) (now : ℤ) (why : Bytes) (tell : Bool)
    {r : Option Result} (hr : s.c.state = .calling → ∃ v, r = some v ∧ v ≠ .ringing) :
    Move s (s.endCall E now why tell r) := by
  rw [Echo.endCall]
  split
  · exact .refl s
  · rename_i hstate
    have hq := queued_evPush hroom (some .idle) [] s.c.outgoing
      (if s.c.state = .calling ∧ s.c.outgoing then r else none) false
    refine .ends _ _ (hq.of_eq rfl ?_) ⟨rfl, rfl, rfl, rfl⟩ ?_ hstate rfl ?_ ?_
    · cases tell <;> rfl
    · by_cases hcall : s.c.state = .calling ∧ s.c.outgoing = true
      · rw [if_pos hcall, if_pos hcall]
        exact hr hcall.1
      · rw [if_neg hcall, if_neg hcall]
    · cases tell <;> simp [Echo.arbTell]
    · cases tell <;> simp [Echo.arbTell]

/-- The call connects: for a caller it was calling, for a callee it rang. -/
theorem move_goLive (hroom : s.evq.length ≤ evqMax) (now : ℤ)
    (hwas : if s.c.outgoing then s.c.state = .calling else s.c.state = .ringing) :
    Move s (s.goLive now) := by
  have hq := queued_evPush hroom (some .live) s.c.node s.c.outgoing
    (if s.c.outgoing then some .connected else none) false
  exact .connects _ (hq.of_eq rfl rfl) ⟨rfl, rfl, rfl, rfl⟩ hwas rfl
    (by simp [Echo.goLive]) (by simp [Echo.goLive]) (by simp [Echo.goLive])

theorem move_answer (hroom : s.evq.length ≤ evqMax) (now : ℤ)
    (hwas : if s.c.outgoing then s.c.state = .calling else s.c.state = .ringing) :
    Move s (s.answer E now) :=
  (move_goLive (s := s.sendMsg E .accept []) hroom now hwas).of_eq rfl rfl

theorem move_dropinEnable (hroom : s.evq.length ≤ evqMax) (on : Bool) (now : ℤ) :
    Move s (s.dropinEnable E on now) := by
  rw [Echo.dropinEnable]
  split
  · exact .refl s
  · split
    · exact .still rfl
    · exact (move_endCall (s := { s with enabled := on }) hroom now _ true
        fun _ => ⟨_, rfl, by decide⟩).of_eq rfl rfl

theorem idle_of_callRefused {node : Bytes} {member : Option (Id × UInt32)} {muted : Bool}
    (h : s.callRefused E node member muted = none) : s.c.state = .idle := by
  by_contra hstate
  rw [Echo.callRefused] at h
  simp only [hstate, ne_eq, not_false_eq_true, if_true] at h
  repeat' split at h
  all_goals exact absurd h (by simp)

theorem move_dropinCall (hroom : s.evq.length ≤ evqMax) (node : Bytes)
    (member : Option (Id × UInt32)) (muted : Bool) (esk : Key) (id : Id) (now : ℤ) :
    Move s (s.dropinCall E node member muted esk id now) := by
  unfold Echo.dropinCall
  split
  · rename_i r heq
    refine .stays _ (queued_evPush hroom none node true (some r) true) (fun e he => ?_)
      ⟨by rw [evPush_c], by rw [evPush_c], by rw [evPush_c], by rw [evPush_c], by rw [evPush_c],
        by rw [evPush_c]⟩
      (by rw [evPush_made])
    obtain rfl := Option.mem_some_iff.mp he
    exact ⟨rfl, rfl⟩
  · rename_i heq
    split
    · exact .refl s
    · rename_i peer ip
      -- a number and a key of its own, before the event
      extract_lets t c u
      have hq := queued_evPush (s := u) hroom (some .calling) node true none false
      refine .begins _ (hq.of_eq rfl rfl) ⟨rfl, rfl, rfl, rfl⟩ rfl
        (idle_of_callRefused heq) ?_ ?_ ?_ ?_ ?_
      · rw [evPush_c]
      · rw [evPush_c]
        rfl
      · rw [evPush_c]
        rfl
      · rw [evPush_c]
        rfl
      · rw [evPush_made]
        rfl

theorem move_dropinHangup (hroom : s.evq.length ≤ evqMax) (why : Bytes) (now : ℤ) :
    Move s (s.dropinHangup E why now) := by
  rw [Echo.dropinHangup]
  split
  · rename_i hring
    refine (move_endCall (s := s.sendMsg E .refuse (text "declined")) hroom now why false
      fun hcall => ?_).of_eq rfl rfl
    have : s.c.state = .calling := hcall
    rw [hring] at this
    exact absurd this (by decide)
  · exact move_endCall hroom now why _ fun _ => ⟨_, rfl, by decide⟩

theorem refusal_ne_ringing (why : Bytes) : refusal why ≠ .ringing := by
  rw [refusal]
  repeat' split
  all_goals decide

/-- A call that is taken rings or connects: one event, and the call is not one of ours. -/
theorem queued_take (hroom : s.evq.length ≤ evqMax) (now : ℤ) :
    ∃ e, Queued s (s.take E now) (some e) ∧ e.gen = s.c.gen ∧ (s.take E now).c.state ≠ .calling ∧
      (s.take E now).c.outgoing = s.c.outgoing ∧ (s.take E now).c.gen = s.c.gen ∧
      (s.take E now).made = s.made := by
  rw [Echo.take]
  split
  · extract_lets c t
    have hq := queued_evPush (s := t) hroom (some .ringing) t.c.node false none false
    refine ⟨_, hq.of_eq rfl rfl, rfl, ?_, ?_, ?_, ?_⟩
    · show (t.evPush _ _ _ _ _).c.state ≠ _
      rw [evPush_c]
      exact (by decide : Phase.ringing ≠ Phase.calling)
    · show (t.evPush _ _ _ _ _).c.outgoing = _
      rw [evPush_c]
    · show (t.evPush _ _ _ _ _).c.gen = _
      rw [evPush_c]
    · show (t.evPush _ _ _ _ _).made = _
      rw [evPush_made]
  · have hq := queued_evPush (s := s.sendMsg E .accept []) hroom (some .live) s.c.node s.c.outgoing
      (if s.c.outgoing then some .connected else none) false
    refine ⟨_, hq.of_eq rfl rfl, rfl,
      (by decide : Phase.live ≠ Phase.calling), ?_, ?_, ?_⟩
    · show ((s.sendMsg E .accept []).evPush _ _ _ _ _).c.outgoing = _
      rw [evPush_c]
      rfl
    · show ((s.sendMsg E .accept []).evPush _ _ _ _ _).c.gen = _
      rw [evPush_c]
      rfl
    · show ((s.sendMsg E .accept []).evPush _ _ _ _ _).made = _
      rw [evPush_made]
      rfl

theorem move_invited (hroom : s.evq.length ≤ evqMax) (kd : Option Key) (esk : Key)
    (no : Option Bytes) (peer : Id) (node : Bytes) (ip : UInt32) (m : Msg) (now : ℤ) :
    Move s (s.invited E kd esk no peer node ip m now) := by
  unfold Echo.invited
  split
  · exact .refl s
  · split
    · exact .still rfl
    · rename_i hfree
      have hidle : s.c.state = .idle := by
        by_contra hstate
        exact hfree (.inr (.inr (.inl hstate)))
      extract_lets t c u
      split
      · exact .incoming none ((Queued.refl s).of_eq rfl rfl) (by simp)
          hidle (by simp) rfl rfl rfl
      · rename_i key _
        obtain ⟨e, hq, hgen, hstate, hout, hnow, hmade⟩ :=
          queued_take (E := E)
            (s := { u with c := { u.c with key := key, keyed := true } }) hroom now
        refine .incoming (some e) (hq.of_eq rfl rfl) (fun x hx => ?_)
          hidle hstate hout hnow hmade
        obtain rfl := Option.mem_some_iff.mp hx
        exact hgen

theorem move_message (hroom : s.evq.length ≤ evqMax) (kd : Option Key) (esk : Key)
    (no : Option Bytes) (peer : Id) (node : Bytes) (ip : UInt32) (m : Msg) (now : ℤ) :
    Move s (s.message E kd esk no peer node ip m now) := by
  unfold Echo.message
  split
  · -- an invite, perhaps for the call that runs
    split
    · extract_lets c t
      split
      · exact .still rfl
      · split
        · exact .still rfl
        · exact .still rfl
    · exact move_invited hroom kd esk no peer node ip m now
  · -- it rings there: told once
    split
    · rename_i hcall
      dsimp only
      split
      · rename_i hrang
        exact .stays none ((Queued.refl s).of_eq rfl rfl) (by simp)
          ⟨rfl, rfl, rfl, hrang.symm, rfl, rfl⟩ rfl
      · rename_i hrang
        have hq := queued_evPush hroom none s.c.node true (some .ringing) false
        refine .rings _ (hq.of_eq rfl rfl) ⟨rfl, rfl, rfl, rfl⟩
          ⟨hcall.2.2, by simpa using hrang⟩ ?_ ?_ rfl ?_ ?_ ?_ ?_
        · show (s.evPush _ _ _ _ _).c.state = _
          rw [evPush_c]
          exact hcall.2.2
        · show (s.evPush _ _ _ _ _).c.outgoing = _
          rw [evPush_c]
        · show (s.evPush _ _ _ _ _).c.gen = _
          rw [evPush_c]
        · show (s.evPush _ _ _ _ _).c.invited = _
          rw [evPush_c]
        · show (s.evPush _ _ _ _ _).c.since = _
          rw [evPush_c]
        · show (s.evPush _ _ _ _ _).made = _
          rw [evPush_made]
    · exact .refl s
  · -- an accept
    split
    · rename_i hcall
      extract_lets c t
      generalize (if m.port = 0 then none else t.deriveKey E kd m.epk) = key
      cases key with
      | none =>
        exact (move_endCall (s := t) hroom now _ true fun _ => ⟨_, rfl, by decide⟩).of_eq rfl rfl
      | some key =>
        exact (move_goLive (s := { t with c := { t.c with key := key, keyed := true } }) hroom now
          (by show if s.c.outgoing then _ else _; rw [if_pos hcall.2.1]; exact hcall.2.2)).of_eq rfl
          rfl
    · exact .refl s
  · split
    · exact move_endCall hroom now _ false fun _ => ⟨_, rfl, refusal_ne_ringing _⟩
    · exact .refl s
  · split
    · exact move_endCall hroom now _ false fun _ => ⟨_, rfl, by decide⟩
    · exact .refl s

theorem move_tickCall (hroom : s.evq.length ≤ evqMax) (now : ℤ) : Move s (s.tickCall E now) := by
  unfold Echo.tickCall
  cases hstate : s.c.state with
  | idle => exact .refl s
  | calling =>
    dsimp only
    split
    · exact .refl s
    · split
      · exact move_endCall hroom now _ true fun _ => ⟨_, rfl, by decide⟩
      · split
        · exact move_endCall hroom now _ true fun _ => ⟨_, rfl, by decide⟩
        · generalize (if s.c.rang = true then (1000 : ℤ) else inviteMs) = gap
          split
          · exact .still rfl
          · exact .refl s
  | ringing =>
    have hring : s.c.state = .calling → ∃ v, (none : Option Result) = some v ∧ v ≠ .ringing := by
      intro hcall
      rw [hstate] at hcall
      exact absurd hcall (by decide)
    dsimp only
    split
    · exact (move_endCall (s := s.sendMsg E .refuse (text "not answered")) hroom now _ false
        hring).of_eq rfl rfl
    · split
      · exact move_endCall hroom now _ false hring
      · exact .refl s
  | live =>
    dsimp only
    split
    · refine move_endCall hroom now _ true fun hcall => ?_
      rw [hstate] at hcall
      exact absurd hcall (by decide)
    · exact .refl s

theorem move_tick (hroom : s.evq.length ≤ evqMax) (now : ℤ) : Move s (s.tick E now) := by
  unfold Echo.tick
  extract_lets t
  have hmove : Move s t := move_tickCall hroom now
  split
  · exact hmove.of_eq rfl rfl
  · exact hmove

theorem move_onAudio (p : Bytes) (ip : UInt32) (port : UInt16) (now : ℤ) :
    Move s (s.onAudio E p ip port now) := by
  unfold Echo.onAudio
  generalize (if s.c.outgoing = true then (1 : UInt8) else 0) = dir
  split
  · exact .refl s
  · split
    · exact .refl s
    · split
      · exact .refl s
      · split
        · exact .refl s
        · exact .still rfl

theorem move_playoutFrame (now : ℤ) : Move s (s.playoutFrame now) := by
  unfold Echo.playoutFrame
  split
  · exact .refl s
  · split
    · exact .still rfl
    · extract_lets
      split
      · exact .still rfl
      · exact .still rfl

end

/-- A step that is not the loop's telling. -/
def Event.Quiet : Event → Prop
  | .tellPop | .tellDone _ => False
  | _ => True

/-- **Every function makes one of these moves.** -/
theorem move_step {E : Env} {s : Echo} (hroom : s.evq.length ≤ evqMax)
    (hring : s.c.state = .ringing → s.c.outgoing = false) {e : Event} (he : e.Quiet) :
    Move s (s.step E e) := by
  have hanswer : ∀ now, s.c.state = .ringing → Move s (s.answer E now) := by
    intro now hstate
    refine move_answer hroom now ?_
    rw [hring hstate]
    exact hstate
  cases e with
  | enable on now => exact move_dropinEnable hroom on now
  | ask on => exact .still rfl
  | call node member muted esk id now => exact move_dropinCall hroom node member muted esk id now
  | hangup why now => exact move_dropinHangup hroom why now
  | answer now =>
    rw [Echo.step, Echo.dropinAnswer]
    split
    · rename_i hstate
      exact hanswer now hstate
    · exact .refl s
  | button now =>
    rw [Echo.step, Echo.dropinButton]
    split
    · rename_i hstate
      exact hanswer now hstate
    · exact move_endCall hroom now _ true fun _ => ⟨_, rfl, by decide⟩
  | message kd esk no peer node ip p now =>
    rw [Echo.step, Echo.dropinMessage]
    split
    · exact .refl s
    · exact move_message hroom kd esk no peer node ip _ now
  | tellPop => exact he.elim
  | tellDone now => exact he.elim
  | tick now => exact move_tick hroom now
  | audio p ip port now => exact move_onAudio p ip port now
  | frame =>
    rw [Echo.step, Echo.sendFrame]
    split
    · exact .refl s
    · exact .still rfl
  | playoutOpen now =>
    rw [Echo.step, Echo.playoutOpen]
    split
    · split
      · exact .still rfl
      · exact .refl s
    · exact .refl s
  | playoutFrame now => exact move_playoutFrame now

end Hassmic.DropIn
