import Hassmic.Voice.Moves

/-!
# The microphone, the ring and the mute

With a local wake word the microphone streams only while the ring shows that the Echo
listens.  A trigger starts nothing while the mute is on, and the mute ends a run that
listens; but a follow-up is started behind a reply without a look at the mute, and a “stop”
calls off only the follow-up that was asked for before it.  What holds is that nothing leaves
while muted if no follow-up is due then, and that a stopped reply is the last if none is asked
for behind the stop.

## Main definitions

* `View.Lit` — streaming only while listening.
* `St.Heeds` — a step that leaves no follow-up to the mute.
* `St.Behind` — a step that may follow a stop.

## Main results

* `streaming_listening` — the microphone streams only while the ring is lit.
* `muted_silent` — nothing leaves while muted.
* `stop_ends` — no run follows a stopped reply.
-/

namespace Hassmic.Voice

/-! ### The ring is lit while the microphone streams -/

/-- Streaming only while listening, with a local wake word. -/
structure View.Lit (v : View) : Prop where
  localWake : v.localWake = true
  wakeWait : v.wakeWait = false
  wakeCut : v.wakeCut = false
  lit : v.streaming = true → v.state = .listening

variable {v : View} {may : Cause → Prop} {s : St}

theorem View.Lit.started (h : v.Lit) : v.started.Lit where
  localWake := h.localWake
  wakeWait := rfl
  wakeCut := h.wakeCut
  lit := fun _ => if_pos h.localWake

/-- Every move keeps the ring lit. -/
theorem View.Lit.move {w : View} (hmove : Move may v w) (h : v.Lit) :
    w.Lit := by
  have hremote : v.localWake ≠ false := by simp [h.localWake]
  cases hmove with
  | start => exact h.started
  | follow => exact View.Lit.started (v := { v with bargeIn := false }) ⟨h.1, h.2, h.3, h.4⟩
  | remote hno => exact absurd hno hremote
  | wait hno => exact absurd hno hremote
  | unwait => exact ⟨h.1, rfl, h.3, h.4⟩
  | cut hno => exact absurd hno hremote
  | uncut => exact ⟨h.1, h.2, rfl, h.4⟩
  | off => exact ⟨h.1, h.2, h.3, nofun⟩
  | phase p hp => exact ⟨h.1, h.2, h.3, hp h.localWake h.wakeWait⟩
  | barge => exact ⟨h.1, h.2, h.3, h.4⟩
  | ask => exact ⟨h.1, h.2, h.3, h.4⟩
  | calm => exact ⟨h.1, h.2, h.3, h.4⟩
  | link => exact ⟨h.1, h.2, h.3, h.4⟩
  | cancels => exact ⟨h.1, h.2, h.3, h.4⟩
  | tell => exact ⟨h.1, h.2, h.3, h.4⟩
  | mute => exact ⟨h.1, h.2, h.3, h.4⟩
  | leak => exact ⟨h.1, h.2, h.3, h.4⟩

theorem St.lit_step (s : St) (e : Ev) (h : s.view.Lit) : (s.step e).view.Lit :=
  (s.step_moves e).keeps (fun _ _ hmove => View.Lit.move hmove) h

theorem St.lit_init : (St.init true).view.Lit := ⟨rfl, rfl, rfl, nofun⟩

theorem St.lit_run (l : List Ev) : ((St.init true).run l).view.Lit :=
  Runs.invariant_all St.lit_step St.lit_init l

/-- **The microphone streams only while the Echo shows that it listens.** -/
theorem streaming_listening (l : List Ev) :
    ((St.init true).run l).streaming = true →
      ((St.init true).run l).state = .listening :=
  (St.lit_run l).lit

/-- The button is pressed once Home Assistant has taken the voice assistant. -/
def pressed : List Ev := [.link true, .subscribe true, .trigger true 0]

/-- A run that the button started streams. -/
theorem streaming_listening_pressed :
    ((St.init true).run pressed).streaming = true ∧
      ((St.init true).run pressed).state = .listening :=
  ⟨rfl, streaming_listening pressed rfl⟩

/-! ### A run ends and none follows -/

/-- Without a follow-up a run with a local wake word is just ended. -/
theorem View.finished_calm (h : v.Lit) (hcalm : v.bargeIn = false) :
    v.finished = { v with streaming := false, state := .idle } := by
  have hended : v.streamEnded = { v with streaming := false } := if_neg (by simp [h.wakeWait])
  unfold View.finished View.next
  rw [hended, if_neg (by simp [h.localWake, hcalm])]
  split
  · rfl
  · rw [← hcalm]

/-! ### Nothing leaves while muted -/

/-- Nothing leaves while the mute is on, and no follow-up is due; the latch is the one reported
last. -/
structure View.Quiet (v : View) : Prop where
  lit : v.Lit
  latch : v.latch = v.lastLatch
  silent : v.muted = true → v.streaming = false ∧ v.bargeIn = false
  kept : v.leaked = false

/-- Moves keep the quiet, unless they change the mute, if a follow-up is asked for only while it
is off. -/
theorem View.Quiet.move {b : Bool} (hmute : ¬ may .muted)
    (hask : may .asked → b = false) {w : View} (hmove : Move may v w)
    (h : v.Quiet ∧ v.muted = b) : w.Quiet ∧ w.muted = b := by
  obtain ⟨hq, hb⟩ := h
  have hlit : w.Lit := hq.lit.move hmove
  have hremote : v.localWake ≠ false := by simp [hq.lit.localWake]
  cases hmove with
  | start h hm =>
    have hnot : v.muted ≠ true := by simp [hm]
    exact ⟨⟨hlit, hq.latch, fun hno => absurd hno hnot, hq.kept⟩, hb⟩
  | follow h =>
    -- a follow-up is due only while the mute is off
    have hnot : v.muted ≠ true := by
      intro hm
      rcases h with hbarge | hno
      · rw [(hq.silent hm).2] at hbarge
        exact Bool.false_ne_true hbarge
      · exact hremote hno
    exact ⟨⟨hlit, hq.latch, fun hno => absurd hno hnot, hq.kept⟩, hb⟩
  | remote hno => exact absurd hno hremote
  | wait hno => exact absurd hno hremote
  | unwait => exact ⟨⟨hlit, hq.latch, hq.silent, hq.kept⟩, hb⟩
  | cut hno => exact absurd hno hremote
  | uncut => exact ⟨⟨hlit, hq.latch, hq.silent, hq.kept⟩, hb⟩
  | off => exact ⟨⟨hlit, hq.latch, fun hm => ⟨rfl, (hq.silent hm).2⟩, hq.kept⟩, hb⟩
  | phase p hp => exact ⟨⟨hlit, hq.latch, hq.silent, hq.kept⟩, hb⟩
  | barge h hm =>
    have hnot : v.muted ≠ true := by simp [hm]
    exact ⟨⟨hlit, hq.latch, fun hno => absurd hno hnot, hq.kept⟩, hb⟩
  | ask h =>
    have hnot : v.muted ≠ true := by simp [hb, hask h]
    exact ⟨⟨hlit, hq.latch, fun hno => absurd hno hnot, hq.kept⟩, hb⟩
  | calm => exact ⟨⟨hlit, hq.latch, fun hm => ⟨(hq.silent hm).1, rfl⟩, hq.kept⟩, hb⟩
  | link => exact ⟨⟨hlit, hq.latch, hq.silent, hq.kept⟩, hb⟩
  | cancels => exact ⟨⟨hlit, hq.latch, hq.silent, hq.kept⟩, hb⟩
  | tell => exact ⟨⟨hlit, hq.latch, hq.silent, hq.kept⟩, hb⟩
  | mute h => exact absurd h hmute
  | leak h hm =>
    rw [(hq.silent hm).1] at h
    exact absurd h Bool.false_ne_true

/-- A step that leaves no follow-up to the mute: the latch is reported before anything else
happens, none is due when the mute comes on, and none is asked for while it is. -/
structure St.Heeds (s : St) (e : Ev) : Prop where
  /-- What the buttons report is where the latch is, and nothing comes before the report. -/
  reported : (s.latch ≠ s.lastLatch → e = .muteLatch s.latch) ∧
    ∀ m, e = .muteLatch m → m = s.latch
  /-- No follow-up is due when the mute comes on. -/
  due : e = .softMute true ∨ e = .latch true → s.bargeIn = false
  /-- None is asked for while it is on. -/
  asked : s.coreMuted = true → s.asks e = false

/-- The quiet, also between the move of the latch and its report. -/
structure St.Hushed (s : St) : Prop where
  quiet : View.Quiet { s.view with latch := s.lastLatch }
  due : s.latch ≠ s.lastLatch → s.latch = true → s.bargeIn = false

theorem St.Hushed.of_quiet (h : s.view.Quiet) : s.Hushed := by
  have hlatch : s.latch = s.lastLatch := h.latch
  refine ⟨?_, fun hne => absurd hlatch hne⟩
  have hsame : ({ s.view with latch := s.lastLatch } : View) = s.view := by
    rw [← hlatch]
    rfl
  rw [hsame]
  exact h

theorem St.Hushed.view (h : s.Hushed) (hlatch : s.latch = s.lastLatch) : s.view.Quiet := by
  have hsame : ({ s.view with latch := s.lastLatch } : View) = s.view := by
    rw [← hlatch]
    rfl
  rw [← hsame]
  exact h.quiet

/-- The mute as it comes on ends the run that listens, the only one that streams. -/
theorem St.muteUpdate_quiet {was : Bool} (hlit : s.view.Lit)
    (hlatch : s.latch = s.lastLatch) (hkept : s.view.leaked = false)
    (hcalm : s.coreMuted = true → s.bargeIn = false)
    (hwas : s.coreMuted = true → was = true → s.streaming = false) :
    (s.muteUpdate was).view.Quiet := by
  unfold muteUpdate
  split
  case isTrue hsame =>
    refine ⟨hlit, hlatch, fun hm => ⟨hwas hm ?_, hcalm hm⟩, hkept⟩
    rw [← hsame]
    exact hm
  case isFalse =>
    split
    case isTrue hgo =>
      simp only [Bool.and_eq_true, decide_eq_true_eq] at hgo
      have hend := View.finished_calm hlit (hcalm hgo.1)
      rw [corePipelineFinish_view, hend]
      exact ⟨⟨hlit.1, hlit.2, hlit.3, nofun⟩, hlatch, fun hm => ⟨rfl, hcalm hm⟩, hkept⟩
    case isFalse hgo =>
      refine ⟨hlit, hlatch, fun hm => ⟨?_, hcalm hm⟩, hkept⟩
      -- what streams listens, and what listens is ended
      by_contra hstream
      have hlisten : s.state = .listening := hlit.lit (by simpa using hstream)
      exact hgo (by simp [hlisten, show s.coreMuted = true from hm])

theorem St.hushed_softMute {set : Bool} (hd : s.Heeds (.softMute set)) (hq : s.view.Quiet) :
    (s.coreSoftMute set).Hushed := by
  unfold coreSoftMute
  split
  case isTrue => exact .of_quiet hq
  case isFalse hne =>
    refine .of_quiet (St.muteUpdate_quiet ⟨hq.1.1, hq.1.2, hq.1.3, hq.1.4⟩ hq.latch hq.kept ?_ ?_)
    · intro hm
      cases set with
      | true => exact hd.due (.inl rfl)
      | false =>
        have hlatch : s.latch = true := by simpa [coreMuted] using hm
        exact (hq.silent (by simp [coreMuted, hlatch])).2
    · intro _ hwas
      exact (hq.silent hwas).1

theorem St.hushed_muteLatch {m : Bool} (hd : s.Heeds (.muteLatch m)) (hq : s.Hushed) :
    (s.muteLatch m).Hushed := by
  have hm : m = s.latch := hd.reported.2 m rfl
  have hbefore := hq.quiet
  refine .of_quiet (St.muteUpdate_quiet ?_ hm.symm hbefore.kept ?_ ?_)
  · exact ⟨hbefore.lit.1, hbefore.lit.2, hbefore.lit.3, hbefore.lit.4⟩
  · -- the mute that is on now was on before, or the latch just came on
    intro hmuted
    by_cases hlatch : s.latch = s.lastLatch
    · refine (hbefore.silent ?_).2
      rw [← hlatch]
      revert hmuted
      simp only [coreMuted, View.muted, St.view, hm]
      cases s.softMute <;> cases s.latch <;> simp
    · refine hq.due hlatch ?_
      revert hmuted
      simp only [coreMuted, hm]
      cases s.latch <;> simp
  · intro _ hwas
    refine (hbefore.silent ?_).1
    simpa [View.muted, St.view, or_comm] using hwas

/-- A step that heeds the mute keeps the quiet. -/
theorem St.hushed_step (s : St) (e : Ev) (hq : s.Hushed) (hd : s.Heeds e) : (s.step e).Hushed := by
  have hquiet : (∀ m, e ≠ .muteLatch m) → s.view.Quiet := by
    intro hne
    refine hq.view ?_
    by_contra hlatch
    exact hne _ (hd.reported.1 hlatch)
  have hmoves : ¬ s.may e .muted → (∀ m, e ≠ .muteLatch m) → (s.step e).Hushed := by
    intro hmute hne
    have hkeeps := (s.step_moves e).keeps
      (fun v w => View.Quiet.move (v := v) (w := w) (b := s.coreMuted) hmute ?_) ⟨hquiet hne, rfl⟩
    · exact .of_quiet hkeeps.1
    · intro hasked
      by_contra hm
      have hno := hd.asked (by simpa using hm)
      exact Bool.false_ne_true (hno.symm.trans hasked)
  cases e with
  | latch on =>
    refine ⟨hq.quiet, fun hne hon => hd.due (.inr ?_)⟩
    exact congrArg Ev.latch hon
  | muteLatch m => exact St.hushed_muteLatch hd hq
  | softMute set => exact St.hushed_softMute hd (hquiet fun _ h => by cases h)
  | _ => exact hmoves (by simp [may]) fun _ h => by cases h

/-- **Nothing of the microphone leaves while muted**, with a local wake word, if the latch is
reported before anything else happens and no follow-up is due when the mute comes on or asked
for while it is. -/
theorem muted_silent (l : List Ev) (hl : Runs.Each St.step St.Heeds (St.init true) l) :
    Out.mic true ∉ ((St.init true).run l).out := by
  have hinit : (St.init true).Hushed := .of_quiet ⟨St.lit_init, rfl, nofun, rfl⟩
  have hend := Runs.invariant St.hushed_step hinit hl
  simpa [St.view] using hend.quiet.kept

/-- The buttons report the latch. -/
def Ev.isReport : Ev → Bool
  | .muteLatch _ => true
  | _ => false

/-- Home Assistant's mute comes on while the request is spoken. -/
def hushed : List Ev :=
  pressed ++ [.capture true false, .softMute true, .capture true false, .softMute false]

/-- The mute ends the run that streams. -/
theorem muted_silent_hushed :
    Out.mic false ∈ ((St.init true).run hushed).out ∧
      Out.mic true ∉ ((St.init true).run hushed).out := by
  refine ⟨by decide, muted_silent hushed ?_⟩
  have hstill : ∀ (s : St) (e : Ev), s.latch = s.lastLatch → e.isReport = false →
      s.bargeIn = false → s.asks e = false → s.Heeds e := by
    intro s e hlatch hno hdue hasks
    refine ⟨⟨fun h => absurd hlatch h, ?_⟩, fun _ => hdue, fun _ => hasks⟩
    rintro m rfl
    exact absurd hno.symm Bool.false_ne_true
  exact ⟨hstill _ _ rfl rfl rfl rfl, hstill _ _ rfl rfl rfl rfl, hstill _ _ rfl rfl rfl rfl,
    hstill _ _ rfl rfl rfl rfl, hstill _ _ rfl rfl rfl rfl, hstill _ _ rfl rfl rfl rfl,
    hstill _ _ rfl rfl rfl rfl, trivial⟩

/-- A reply is fetched and begins to play. -/
def replies : List Ev :=
  [.media 0 .looks, .media 0 .looks, .media 0 (.fetched true), .media 0 (.wav 16000 1),
    .media 0 .begins]

/-- The reply is played out: its start, its end, and what follows. -/
def playsOut : List Ev :=
  [.media 0 .ends, .media 0 .finishes, .media 0 .pushes, .play, .play, .play, .play, .play]

/-- The mute comes on while a reply is spoken that is to be followed up. -/
def followedUp : List Ev :=
  pressed ++
    [.event { type := .runStart },
      .event { type := .intentEnd, continueConversation := true },
      .event { type := .ttsEnd, url := some [104] }] ++
    replies ++ [.softMute true] ++ playsOut ++ [.capture true false]

/-- A run that listens for the wake word at Home Assistant goes on behind the mute. -/
def remoteMuted : List Ev := [.link true, .subscribe true, .softMute true, .capture true false]

/-- Samples leave while muted: behind a reply that is followed up, and with the wake word at Home
Assistant. -/
theorem muted_leaks :
    ¬ ∀ (localWake : Bool) (l : List Ev),
      Out.mic true ∉ ((St.init localWake).run l).out := by
  intro h
  have hfollow : Out.mic true ∈ ((St.init true).run followedUp).out := by decide
  exact h true followedUp hfollow

/-- The same with the wake word at Home Assistant. -/
example : Out.mic true ∈ ((St.init false).run remoteMuted).out := by decide

/-! ### A stopped reply is the last -/

/-- No follow-up is due, and no run was started since. -/
structure View.Stopped (n : ℕ) (v : View) : Prop where
  lit : v.Lit
  calm : v.bargeIn = false
  starts : v.starts = n

/-- Only a trigger starts a run, or asking for a follow-up. -/
theorem View.Stopped.move {n : ℕ} (htrigger : ¬ may .triggered)
    (hask : ¬ may .asked) {w : View} (hmove : Move may v w) (h : v.Stopped n) : w.Stopped n := by
  have hlit : w.Lit := h.lit.move hmove
  have hremote : v.localWake ≠ false := by simp [h.lit.localWake]
  cases hmove with
  | start hno => exact absurd hno htrigger
  | follow hno =>
    rcases hno with hbarge | hno
    · rw [h.calm] at hbarge
      exact absurd hbarge Bool.false_ne_true
    · exact absurd hno hremote
  | remote hno => exact absurd hno hremote
  | wait hno => exact absurd hno hremote
  | unwait => exact ⟨hlit, h.calm, h.starts⟩
  | cut hno => exact absurd hno hremote
  | uncut => exact ⟨hlit, h.calm, h.starts⟩
  | off => exact ⟨hlit, h.calm, h.starts⟩
  | phase => exact ⟨hlit, h.calm, h.starts⟩
  | barge hno => exact absurd hno htrigger
  | ask hno => exact absurd hno hask
  | calm => exact ⟨hlit, rfl, h.starts⟩
  | link => exact ⟨hlit, h.calm, h.starts⟩
  | cancels => exact ⟨hlit, h.calm, h.starts⟩
  | tell => exact ⟨hlit, h.calm, h.starts⟩
  | mute => exact ⟨hlit, h.calm, h.starts⟩
  | leak => exact ⟨hlit, h.calm, h.starts⟩

/-- What may follow a stop: anything but the wake word, the button and asking for a follow-up. -/
structure St.Behind (s : St) (e : Ev) : Prop where
  untriggered : ∀ touch fromAt, e ≠ .trigger touch fromAt
  unasked : s.asks e = false

theorem St.stopped_step {n : ℕ} (s : St) (e : Ev) (h : s.view.Stopped n) (hb : s.Behind e) :
    (s.step e).view.Stopped n := by
  refine (s.step_moves e).keeps (fun _ _ hmove => View.Stopped.move ?_ ?_ hmove) h
  · rintro ⟨touch, fromAt, he⟩
    exact hb.untriggered touch fromAt he
  · intro hasked
    exact Bool.false_ne_true (hb.unasked.symm.trans hasked)

/-- A “stop” to what is spoken calls off what would follow. -/
theorem St.stopped_stopWord (hlit : s.view.Lit) (hspeaks : s.state = .speaking)
    (music : Bool) : (s.step (.stopWord music)).view.Stopped s.starts := by
  have hcut : (s.stopWord music).view = { s.view with bargeIn := false } := by
    simp only [stopWord]
    rw [if_pos (show s.coreAlarmStop.state = .speaking from hspeaks)]
    rfl
  have hlit' := s.lit_step (.stopWord music) hlit
  simp only [step] at hlit' ⊢
  rw [hcut] at hlit' ⊢
  exact ⟨hlit', rfl, rfl⟩

/-- Behind a stop the end of the playback leaves the Echo idle. -/
theorem St.idle_play {n : ℕ} (h : s.view.Stopped n) (hclosed : s.player = .closed) :
    (s.step .play).state = .idle := by
  have hplayed := played_view { s with player := .waits, flush := false }
  have hplay : (s.step .play).view = s.view.finished := by
    simp only [step, play, hclosed]
    rw [if_neg, corePipelineFinish_view, hplayed]
    · rfl
    · rw [show (played { s with player := .waits, flush := false }).wakeCut = false from
        (congrArg View.wakeCut hplayed).trans h.lit.wakeCut]
      exact Bool.false_ne_true
  rw [View.finished_calm h.lit h.calm] at hplay
  exact congrArg View.state hplay

/-- **A stop ends a reply for good**, if no follow-up is asked for behind it: no run is started,
and the end of the playback leaves the Echo idle. -/
theorem stop_ends (l m : List Ev) (music : Bool) {s t : St} (hs : s = (St.init true).run l)
    (hspeaks : s.state = .speaking) (ht : t = (s.step (.stopWord music)).run m)
    (hm : Runs.Each St.step St.Behind (s.step (.stopWord music)) m) :
    t.starts = s.starts ∧ (t.player = .closed → (t.step .play).state = .idle) := by
  have hlit : s.view.Lit := by
    rw [hs]
    exact St.lit_run l
  have hend : t.view.Stopped s.starts := by
    rw [ht]
    exact Runs.invariant St.stopped_step (St.stopped_stopWord hlit hspeaks music) hm
  exact ⟨hend.starts, St.idle_play hend⟩

/-- The wake word or the button. -/
def Ev.isTrigger : Ev → Bool
  | .trigger .. => true
  | _ => false

/-- A reply begins to play while it is still made. -/
def streamed : List Ev :=
  pressed ++
    [.event { type := .runStart, url := some [104] },
      .event { type := .intentProgress, startStreaming := true }] ++ replies

/-- The reply ends behind the stop, up to the end of the playback. -/
def endsBehind : List Ev :=
  [.event { type := .intentEnd }, .media 0 .ends, .media 0 .finishes, .media 0 .pushes, .play,
    .play, .play, .play]

/-- The stop of a streamed reply. -/
theorem stop_ends_streamed :
    ((St.init true).run streamed).state = .speaking ∧
      ((((St.init true).run streamed).step (.stopWord false)).run endsBehind).starts = 1 ∧
      (((((St.init true).run streamed).step (.stopWord false)).run endsBehind).step .play).state
        = .idle := by
  have huntouched : ∀ {e : Ev}, e.isTrigger = false →
      ∀ touch fromAt, e ≠ .trigger touch fromAt := by
    rintro e he touch fromAt rfl
    exact Bool.false_ne_true he.symm
  have hall := stop_ends streamed endsBehind false rfl (by decide) rfl
    ⟨⟨huntouched rfl, rfl⟩, ⟨huntouched rfl, rfl⟩, ⟨huntouched rfl, rfl⟩, ⟨huntouched rfl, rfl⟩,
      ⟨huntouched rfl, rfl⟩, ⟨huntouched rfl, rfl⟩, ⟨huntouched rfl, rfl⟩, ⟨huntouched rfl, rfl⟩,
      trivial⟩
  refine ⟨by decide, ?_, hall.2 (by decide)⟩
  rw [hall.1]
  decide

/-- Behind the stop the run asks for a follow-up, which the end of the playback starts. -/
def asksBehind : List Ev :=
  .event { type := .intentEnd, continueConversation := true } :: playsOut

/-- A run is started behind a stopped reply. -/
theorem stop_restarts :
    ¬ ∀ (l m : List Ev) (music : Bool),
      ((St.init true).run l).state = .speaking →
      (∀ e ∈ m, (∀ touch fromAt, e ≠ .trigger touch fromAt) ∧
        ∀ media pre conversation, e ≠ .announce media pre conversation) →
      ((((St.init true).run l).step (.stopWord music)).run m).starts =
        ((St.init true).run l).starts := by
  intro h
  have hsame := h streamed asksBehind false (by decide) (by
    intro e he
    simp only [asksBehind, playsOut, List.mem_cons, List.not_mem_nil, or_false] at he
    rcases he with rfl | rfl | rfl | rfl | rfl | rfl | rfl | rfl | rfl <;>
      exact ⟨fun _ _ h => Ev.noConfusion h, fun _ _ _ h => Ev.noConfusion h⟩)
  revert hsame
  decide

end Hassmic.Voice
