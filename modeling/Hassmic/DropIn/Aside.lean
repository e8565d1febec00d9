import Hassmic.DropIn.Call

/-!
# What everything beside the audio leaves as it is

The jitter buffer, the playout and the packets that were taken are changed by a packet of audio, by
the playout and by a call that connects.  Everything else carries them on, and what was sent stays
sent.

## Main definitions

* `Holds` — a call that is live was live before, under the same key, or has taken nothing yet.
* `Carries` — **what is carried on**.

## Main results

* `carries_step` — everything beside the audio does so.
-/

namespace Hassmic.DropIn

open List

/-- A call that is live was live before, under the same key, or has taken nothing yet. -/
def Holds (s s' : Echo) : Prop :=
  s'.c.state = .live → s'.taken = [] ∨ s.c.state = .live ∧ s'.c.id = s.c.id ∧ s'.c.key = s.c.key ∧
    s'.c.keyed = s.c.keyed ∧ s'.c.outgoing = s.c.outgoing ∧ s'.taken = s.taken ∧
    s'.jb.any = s.jb.any

/-- **What everything but audio and playout leaves as it is**: the playout thread's own, and the
jitter buffer unless a call connects; a call that is no longer live has a number that is used up,
and what was sent stays sent. -/
structure Carries (s s' : Echo) : Prop where
  playout : s'.playout = s.playout
  jb : s'.jb = s.jb ∨ ∀ i, (s'.jb.slots i).len = 0
  gen : s.c.gen ≤ s'.c.gen
  live : s'.c.gen = s.c.gen → s.c.state = .live → s'.c.state = .live
  sent : s.sent <+: s'.sent
  holds : Holds s s'

/-- What a packet of audio and the playout meet. -/
def Echo.heard (s : Echo) :
    Option Playout × Jitter × List Bytes × Phase × ℕ × Id × Key × Bool × Bool :=
  (s.playout, s.jb, s.taken, s.c.state, s.c.gen, s.c.id, s.c.key, s.c.keyed, s.c.outgoing)

section

variable {E : Env} {s s' s'' : Echo}

theorem Holds.trans (h : Holds s s') (h' : Holds s' s'') : Holds s s'' := by
  intro hlive
  rcases h' hlive with hnil | ⟨hmid, hid, hkey, hkeyed, hout, htaken, hany⟩
  · exact .inl hnil
  · rw [hid, hkey, hkeyed, hout, htaken, hany]
    exact h hmid

theorem Carries.trans (h : Carries s s') (h' : Carries s' s'') : Carries s s'' := by
  refine ⟨h'.playout.trans h.playout, ?_, h.gen.trans h'.gen,
    fun hgen hlive => ?_, h.sent.trans h'.sent, h.holds.trans h'.holds⟩
  · rcases h'.jb with hsame | hclear
    · rw [hsame]
      exact h.jb
    · exact .inr hclear
  · have hmid : s'.c.gen = s.c.gen := le_antisymm (hgen ▸ h'.gen) h.gen
    exact h'.live (hgen.trans hmid.symm) (h.live hmid hlive)

/-- What leaves the call that runs alone, and may send a message. -/
theorem Carries.same (h : s'.heard = s.heard) (hsent : s.sent <+: s'.sent) : Carries s s' := by
  simp only [Echo.heard, Prod.mk.injEq] at h
  obtain ⟨hplayout, hjb, htaken, hstate, hgen, hid, hkey, hkeyed, hout⟩ := h
  refine ⟨hplayout, .inl hjb, hgen.ge, fun _ hlive => hstate.trans hlive, hsent, ?_⟩
  intro hlive
  exact .inr ⟨hstate.symm.trans hlive, hid, hkey, hkeyed, hout, htaken, congrArg Jitter.any hjb⟩

theorem Carries.refl (s : Echo) : Carries s s := .same rfl prefix_rfl

/-- What takes a new number, or goes on under one that was not live. -/
theorem Carries.other (hplayout : s'.playout = s.playout) (hjb : s'.jb = s.jb)
    (hgen : s.c.gen < s'.c.gen ∨ s'.c.gen = s.c.gen ∧ s.c.state ≠ .live)
    (hstate : s'.c.state ≠ .live) (hsent : s.sent <+: s'.sent) : Carries s s' := by
  refine ⟨hplayout, .inl hjb, ?_, fun hsame hlive => ?_, hsent, fun hlive => absurd hlive hstate⟩
  · rcases hgen with hlt | ⟨heq, -⟩
    · exact hlt.le
    · exact heq.ge
  · rcases hgen with hlt | ⟨-, hnot⟩
    · exact absurd hsame hlt.ne'
    · exact absurd hlive hnot

/-! ### What each function does -/

theorem carries_evPush (state : Option Phase) (node : Bytes) (outgoing : Bool)
    (result : Option Result) (here : Bool) :
    Carries s (s.evPush state node outgoing result here) := by
  rw [Echo.evPush]
  split
  · exact .same rfl prefix_rfl
  · exact .same rfl prefix_rfl

theorem carries_sendMsg (kind : Kind) (reason : Bytes) : Carries s (s.sendMsg E kind reason) :=
  .same rfl (prefix_append _ _)

theorem carries_goLive (now : ℤ) : Carries s (s.goLive now) := by
  have hpush := carries_evPush (s := s) (some .live) s.c.node s.c.outgoing
    (if s.c.outgoing then some .connected else none) false
  exact ⟨hpush.playout, .inr fun _ => rfl, hpush.gen, fun _ _ => rfl, hpush.sent, fun _ => .inl rfl⟩

theorem carries_answer (now : ℤ) : Carries s (s.answer E now) :=
  (carries_sendMsg .accept []).trans (carries_goLive now)

theorem carries_endCall (now : ℤ) (why : Bytes) (tell : Bool) (r : Option Result) :
    Carries s (s.endCall E now why tell r) := by
  rw [Echo.endCall]
  split
  · exact .refl s
  · extract_lets t b u
    have ht : Carries s t := carries_evPush ..
    have hu : Carries s u := by
      cases tell with
      | false => exact ht
      | true => exact ht.trans (.same rfl (prefix_append _ _))
    exact hu.trans
      (.other rfl rfl (.inl (Nat.lt_succ_self _)) (by decide : Phase.idle ≠ .live) prefix_rfl)

theorem carries_take (hlive : s.c.state ≠ .live) (now : ℤ) : Carries s (s.take E now) := by
  rw [Echo.take]
  split
  · have hring : Carries s { s with c := { s.c with state := .ringing } } :=
      .other rfl rfl (.inr ⟨rfl, hlive⟩) (by decide : Phase.ringing ≠ .live) prefix_rfl
    exact (hring.trans (carries_evPush ..)).trans (carries_sendMsg ..)
  · exact carries_answer now

theorem carries_message (kd : Option Key) (esk : Key) (no : Option Bytes) (peer : Id) (node : Bytes)
    (ip : UInt32) (m : Msg) (now : ℤ) : Carries s (s.message E kd esk no peer node ip m now) := by
  unfold Echo.message
  split
  · split
    · extract_lets c t
      split
      · exact .same rfl (prefix_append _ _)
      · split
        · exact .same rfl (prefix_append _ _)
        · exact .same rfl prefix_rfl
    · unfold Echo.invited
      split
      · exact .refl s
      · split
        · exact .same rfl (prefix_append _ _)
        · rename_i hfree
          have hidle : s.c.state ≠ .live := by
            intro hlive
            refine hfree (.inr (.inr (.inl ?_)))
            rw [hlive]
            decide
          extract_lets t c u
          have hnew : u.c.state ≠ .live := hidle
          split
          · exact .other rfl rfl (.inl (Nat.lt_succ_self _)) (by decide : Phase.idle ≠ .live)
              (prefix_append _ _)
          · rename_i key _
            have hu : Carries s { u with c := { u.c with key := key, keyed := true } } :=
              .other rfl rfl (.inl (Nat.lt_succ_self _)) hnew prefix_rfl
            refine hu.trans (carries_take ?_ now)
            exact hnew
  · split
    · dsimp only
      split
      · exact .same rfl prefix_rfl
      · exact (carries_evPush ..).trans (.same rfl prefix_rfl)
    · exact .refl s
  · split
    · rename_i hcall
      extract_lets c t
      generalize (if m.port = 0 then none else t.deriveKey E kd m.epk) = key
      have ht : Carries s t := .same rfl prefix_rfl
      have hnot : s.c.state ≠ .live := by
        rw [hcall.2.2]
        decide
      cases key with
      | none => exact ht.trans (carries_endCall now _ true _)
      | some key =>
        have hu : Carries t { t with c := { t.c with key := key, keyed := true } } :=
          .other rfl rfl (.inr ⟨rfl, hnot⟩) hnot prefix_rfl
        exact (ht.trans hu).trans (carries_goLive now)
    · exact .refl s
  · split
    · exact carries_endCall now _ false _
    · exact .refl s
  · split
    · exact carries_endCall now _ false _
    · exact .refl s

theorem carries_tick (now : ℤ) : Carries s (s.tick E now) := by
  have hcall : Carries s (s.tickCall E now) := by
    unfold Echo.tickCall
    cases s.c.state with
    | idle => exact .refl s
    | calling =>
      dsimp only
      split
      · exact .refl s
      · split
        · exact carries_endCall now _ true _
        · split
          · exact carries_endCall now _ true _
          · generalize (if s.c.rang = true then (1000 : ℤ) else inviteMs) = gap
            split
            · exact .same rfl (prefix_append _ _)
            · exact .refl s
    | ringing =>
      dsimp only
      split
      · exact (carries_sendMsg ..).trans (carries_endCall now _ false _)
      · split
        · exact carries_endCall now _ false _
        · exact .refl s
    | live =>
      dsimp only
      split
      · exact carries_endCall now _ true _
      · exact .refl s
  unfold Echo.tick
  extract_lets t
  split
  · exact hcall.trans (.same rfl (prefix_append _ _))
  · exact hcall

/-- What is neither a packet of audio nor the playout. -/
def Event.Aside : Event → Prop
  | .audio .. => False
  | .playoutOpen _ => False
  | .playoutFrame _ => False
  | _ => True

/-- **Everything beside the audio** carries on what audio and playout meet. -/
theorem carries_step (e : Event) (he : e.Aside) : Carries s (s.step E e) := by
  cases e with
  | enable on now =>
    rw [Echo.step, Echo.dropinEnable]
    split
    · exact .refl s
    · split
      · exact .same rfl prefix_rfl
      · exact (Carries.same rfl prefix_rfl : Carries s { s with enabled := on }).trans
          (carries_endCall now _ true _)
  | ask on => exact .same rfl prefix_rfl
  | call node member muted esk id now =>
    rw [Echo.step]
    unfold Echo.dropinCall
    split
    · exact carries_evPush ..
    · split
      · exact .refl s
      · extract_lets t c u
        -- a new call has a number of its own
        have hu : Carries s u :=
          .other rfl rfl (.inl (Nat.lt_succ_self _)) (by decide : Phase.calling ≠ .live) prefix_rfl
        exact hu.trans (carries_evPush ..)
  | hangup why now =>
    rw [Echo.step, Echo.dropinHangup]
    split
    · exact (carries_sendMsg ..).trans (carries_endCall now _ false _)
    · exact carries_endCall now _ _ _
  | answer now =>
    rw [Echo.step, Echo.dropinAnswer]
    split
    · exact carries_answer now
    · exact .refl s
  | button now =>
    rw [Echo.step, Echo.dropinButton]
    split
    · exact carries_answer now
    · exact carries_endCall now _ true _
  | message kd esk no peer node ip p now =>
    rw [Echo.step, Echo.dropinMessage]
    split
    · exact .refl s
    · exact carries_message kd esk no peer node ip _ now
  | tellPop =>
    rw [Echo.step, Echo.tellPop]
    split
    · exact .same rfl prefix_rfl
    · exact .refl s
  | tellDone now =>
    rw [Echo.step]
    unfold Echo.tellDone
    split
    · exact .refl s
    · dsimp only
      split
      · exact .same rfl (prefix_append _ _)
      · exact .same rfl prefix_rfl
  | tick now => exact carries_tick now
  | audio p ip port now => exact he.elim
  | frame =>
    rw [Echo.step, Echo.sendFrame]
    split
    · exact .refl s
    · exact .same rfl prefix_rfl
  | playoutOpen now => exact he.elim
  | playoutFrame now => exact he.elim

end

end Hassmic.DropIn
