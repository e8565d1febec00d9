import Hassmic.Voice.Esphome

/-!
# What a step does to the core

Whether the microphone streams, what the ring shows and whether a run follows are changed by
many functions, on four threads, but in few ways: a run is started or ended, the microphone
goes off, the ring shows another state, a follow-up is asked for or called off.  Every step is
a path of such moves, each with what the source checks before it, so that an invariant is
shown once for each move.

## Main definitions

* `View` — the variables of the core that matter here.
* `Move` — the moves; `Cause` is what some of them need.
* `St.may` — which causes a step has.

## Main results

* `St.step_moves` — a step is a path of moves.
* `View.Moves.keeps` — a property that every move keeps is kept by a path.
-/

namespace Hassmic.Voice

/-! ### Views -/

/-- What is seen of the core. -/
structure View where
  localWake : Bool
  connected : Bool
  satelliteRunning : Bool
  state : Phase
  streaming : Bool
  softMute : Bool
  latch : Bool
  lastLatch : Bool
  bargeIn : Bool
  wakeWait : Bool
  wakeCut : Bool
  cancelled : Cancelled
  starts : ℕ
  /-- Samples were handed over while muted. -/
  leaked : Bool

namespace View

/-- `core_muted`. -/
def muted (v : View) : Bool := v.softMute || v.latch

/-- What `pipeline_start` does. -/
def started (v : View) : View :=
  { v with
    streaming := true
    wakeWait := false
    cancelled := if v.cancelled = .no then .no else .again
    starts := v.starts + 1
    state := if v.localWake then .listening else v.state }

/-- What follows the end of a run. -/
def next (v : View) : View :=
  if (v.connected && v.bargeIn || !v.localWake) && v.satelliteRunning && v.connected then
    started { v with bargeIn := false }
  else if v.connected then v
  else { v with bargeIn := false }

/-- What becomes of the stream: a run that only listened for the wake word is cancelled. -/
def streamEnded (v : View) : View :=
  if v.streaming && v.connected && v.wakeWait then { v with streaming := false, cancelled := .yes }
  else { v with streaming := false }

/-- What `core_pipeline_finish` does. -/
def finished (v : View) : View := next { v.streamEnded with state := .idle }

end View

/-- What some moves need. -/
inductive Cause
  /-- The wake word or the button is acted on. -/
  | triggered
  /-- A follow-up is asked for: `core_restart_after`. -/
  | asked
  /-- The mute changes. -/
  | muted
  /-- A run is told to have started or failed. -/
  | told

/-- A move, where `may` says which causes there are. -/
inductive Move (may : Cause → Prop) : View → View → Prop
  /-- A trigger starts a run, which it does not while muted. -/
  | start (v : View) (h : may .triggered) (hm : v.muted = false) : Move may v v.started
  /-- A follow-up, or the next run with the wake word at Home Assistant. -/
  | follow (v : View) (h : v.bargeIn = true ∨ v.localWake = false) :
      Move may v (View.started { v with bargeIn := false })
  /-- A run that listens for the wake word at Home Assistant. -/
  | remote (v : View) (h : v.localWake = false) : Move may v v.started
  | wait (v : View) (h : v.localWake = false) : Move may v { v with wakeWait := true }
  | unwait (v : View) : Move may v { v with wakeWait := false }
  | cut (v : View) (h : v.localWake = false) : Move may v { v with wakeCut := true }
  | uncut (v : View) : Move may v { v with wakeCut := false }
  | off (v : View) : Move may v { v with streaming := false }
  /-- The ring shows another state: with a local wake word only `LISTENING` while streaming. -/
  | phase (v : View) (p : Phase)
      (h : v.localWake = true → v.wakeWait = false → v.streaming = true → p = .listening) :
      Move may v { v with state := p }
  /-- The reply is cut for a request, which is not done while muted. -/
  | barge (v : View) (h : may .triggered) (hm : v.muted = false) :
      Move may v { v with bargeIn := true }
  | ask (v : View) (h : may .asked) : Move may v { v with bargeIn := true }
  | calm (v : View) : Move may v { v with bargeIn := false }
  | link (v : View) (up ready : Bool) :
      Move may v { v with connected := up, satelliteRunning := ready }
  | cancels (v : View) : Move may v { v with cancelled := .yes }
  | tell (v : View) (h : may .told) : Move may v { v with cancelled := .no }
  | mute (v : View) (h : may .muted) (soft latch last : Bool) :
      Move may v { v with softMute := soft, latch := latch, lastLatch := last }
  /-- Nothing looks at the mute where the samples are handed over. -/
  | leak (v : View) (h : v.streaming = true) (hm : v.muted = true) :
      Move may v { v with leaked := true }

/-- A path of moves. -/
def Moves (may : Cause → Prop) : View → View → Prop := Relation.ReflTransGen (Move may)

namespace Moves

variable {may : Cause → Prop} {v w x : View}

theorem refl (v : View) : Moves may v v := Relation.ReflTransGen.refl

theorem of_eq (h : w = v) : Moves may v w := by
  rw [h]
  exact refl v

theorem single (h : Move may v w) : Moves may v w := Relation.ReflTransGen.single h

theorem trans (h : Moves may v w) (h' : Moves may w x) : Moves may v x :=
  Relation.ReflTransGen.trans h h'

/-- **A property that every move keeps is kept by a path.** -/
theorem keeps {P : View → Prop} (hP : ∀ v w, Move may v w → P v → P w) (h : Moves may v w)
    (hv : P v) : P w := by
  induction h with
  | refl => exact hv
  | tail _ hmove ih => exact hP _ _ hmove ih

theorem next (v : View) : Moves may v v.next := by
  unfold View.next
  split
  case isTrue h =>
    simp only [Bool.and_eq_true, Bool.or_eq_true, Bool.not_eq_true'] at h
    exact single (.follow v (h.1.1.imp (fun hb => hb.2) id))
  case isFalse =>
    split
    · exact refl v
    · exact single (.calm v)

theorem streamEnded (v : View) : Moves may v v.streamEnded := by
  unfold View.streamEnded
  split
  · exact (single (.off v)).trans (single (.cancels _))
  · exact single (.off v)

theorem finished (v : View) : Moves may v v.finished := by
  have hoff : v.streamEnded.streaming ≠ true := by
    unfold View.streamEnded
    split <;> exact Bool.false_ne_true
  have hidle : Moves may v.streamEnded { v.streamEnded with state := .idle } :=
    single (.phase _ .idle (fun _ _ h => absurd h hoff))
  exact ((streamEnded v).trans hidle).trans (next _)

end Moves

namespace St

variable (s : St)

/-- The view of a state. -/
def view : View where
  localWake := s.localWake
  connected := s.connected
  satelliteRunning := s.satelliteRunning
  state := s.state
  streaming := s.streaming
  softMute := s.softMute
  latch := s.latch
  lastLatch := s.lastLatch
  bargeIn := s.bargeIn
  wakeWait := s.wakeWait
  wakeCut := s.wakeCut
  cancelled := s.cancelled
  starts := s.starts
  leaked := decide (Out.mic true ∈ s.out)

@[simp] theorem view_muted : s.view.muted = s.coreMuted := rfl

/-! ### The protocol is not seen -/

theorem emit_view {o : Out} (h : o ≠ .mic true) : (s.emit o).view = s.view := by
  have hmem : Out.mic true ∈ s.out ++ [o] ↔ Out.mic true ∈ s.out := by
    simp [Ne.symm h]
  simp only [view, emit, hmem]

@[simp] theorem sendMpState_view : s.sendMpState.view = s.view := s.emit_view nofun

@[simp] theorem start_view :
    s.start.view = { s.view with cancelled := if s.cancelled = .no then .no else .again } :=
  emit_view _ nofun

@[simp] theorem stop_view : s.stop.view = s.view := by
  have hend := s.emit_view (o := .endOfAudio) nofun
  have hrequest := (s.emit .endOfAudio).emit_view (o := .request false) nofun
  exact hrequest.trans hend

@[simp] theorem shut_view (j : ℕ) : (s.shut j).view = s.view := by
  unfold shut
  split
  · exact s.emit_view nofun
  · rfl

@[simp] theorem cancel_view : s.cancel.view = { s.view with cancelled := .yes } := by
  have hemit : St.view { s.emit (.request false) with cancelled := .yes } =
      { s.view with cancelled := .yes } :=
    congrArg (fun v : View => { v with cancelled := .yes })
      (s.emit_view (o := .request false) nofun)
  simp only [cancel]
  split
  case h_1 j _ _ =>
    have hshut := shut_view (abort { s.emit (.request false) with cancelled := .yes } j) j
    have hsend := sendMpState_view
      { (abort { s.emit (.request false) with cancelled := .yes } j).shut j with
        mediaCur := none
        mediaPlaying := false }
    exact hsend.trans (hshut.trans hemit)
  case h_2 => exact hemit

@[simp] theorem replyCut_view : s.replyCut.view = s.view := by
  unfold replyCut
  split
  · exact s.shut_view _
  · rfl

@[simp] theorem wakeTold_view (e : WakeEvent) : (s.wakeTold e).view = s.view := by
  unfold wakeTold
  split
  · exact s.emit_view nofun
  · rfl

@[simp] theorem played_view : s.played.view = s.view := by
  -- whether an announcement is answered, and whether the media player stops
  have hann : ∀ t : St, (if t.announcing then
      announceDone { t.emit (.announceFinished true) with announcing := false } else t).view
        = t.view := by
    intro t
    split
    · exact t.emit_view nofun
    · rfl
  have hmp : ∀ t : St, (if t.mediaPlaying then sendMpState { t with mediaPlaying := false }
      else t).view = t.view := by
    intro t
    split
    · exact sendMpState_view _
    · rfl
  exact (hmp _).trans (hann s)

/-! ### The core's own -/

@[simp] theorem coreSetState_view (p : Phase) :
    (s.coreSetState p).view = { s.view with state := p } := by
  unfold coreSetState
  split
  case isTrue h =>
    rw [h]
    rfl
  case isFalse => rfl

@[simp] theorem pipelineStart_view (fromAt : ℕ) :
    (s.pipelineStart fromAt).view = s.view.started := by
  have hstart := start_view { s with
    runOver := false
    wakeWait := false
    quietAbort := false
    replayFrom := fromAt
    runWake := fromAt ≠ 0
    starts := s.starts + 1 }
  simp only [pipelineStart]
  split
  case isTrue h =>
    have hlocal : s.view.localWake = true := h
    rw [View.started, if_pos hlocal, coreSetState_view, emit_view _ (o := .leadIn) nofun]
    exact congrArg (fun v : View => { v with streaming := true, state := .listening }) hstart
  case isFalse h =>
    have hlocal : ¬ s.view.localWake = true := h
    rw [View.started, if_neg hlocal]
    exact congrArg (fun v : View => { v with streaming := true }) hstart

theorem pipelineNext_view : s.pipelineNext.view = s.view.next := by
  by_cases hc : s.connected = true
  · simp only [pipelineNext, if_pos hc]
    by_cases hgo : ((s.bargeIn || !s.localWake) && s.satelliteRunning && s.connected) = true
    · have hgo' : ((s.view.connected && s.view.bargeIn || !s.view.localWake) &&
          s.view.satelliteRunning && s.view.connected) = true := by
        simpa [view, hc] using hgo
      rw [if_pos hgo, View.next, if_pos hgo', pipelineStart_view]
      rfl
    · have hgo' : ¬ ((s.view.connected && s.view.bargeIn || !s.view.localWake) &&
          s.view.satelliteRunning && s.view.connected) = true := by
        simpa [view, hc] using hgo
      rw [if_neg hgo, View.next, if_neg hgo', if_pos (show s.view.connected = true from hc)]
  · have hc' : s.connected = false := by simpa using hc
    simp only [pipelineNext, if_neg hc]
    rw [if_neg (by simp [hc']), View.next, if_neg (by simp [view, hc']),
      if_neg (show ¬ s.view.connected = true from hc)]
    rfl

theorem streamEnd_view : s.streamEnd.view = s.view.streamEnded := by
  simp only [streamEnd, View.streamEnded]
  by_cases hsent : (s.streaming && s.connected) = true
  · rw [if_pos hsent]
    by_cases hwait : s.wakeWait = true
    · rw [if_pos hwait, cancel_view]
      exact (if_pos (show ((s.streaming && s.connected) && s.wakeWait) = true by
        rw [hsent, hwait]; rfl)).symm
    · rw [if_neg hwait, stop_view]
      exact (if_neg (show ¬ ((s.streaming && s.connected) && s.wakeWait) = true by
        simp [hwait])).symm
  · rw [if_neg hsent]
    exact (if_neg (show ¬ ((s.streaming && s.connected) && s.wakeWait) = true by
      intro h
      exact hsent (Bool.and_eq_true_iff.mp h).1)).symm

@[simp] theorem corePipelineFinish_view : s.corePipelineFinish.view = s.view.finished := by
  rw [corePipelineFinish, pipelineNext_view, coreSetState_view, streamEnd_view]
  rfl

/-! ### Paths -/

section Paths

variable {may : Cause → Prop} {v : View} (h : Moves may v s.view)

include h

theorem finish_moves : Moves may v s.corePipelineFinish.view := by
  rw [corePipelineFinish_view]
  exact h.trans (.finished s.view)

theorem wakeListen_moves : Moves may v s.wakeListen.view := by
  unfold wakeListen
  split
  case isTrue => exact h
  case isFalse hgo =>
    have hremote : s.localWake = false := by
      simp only [Bool.or_eq_true, not_or, Bool.not_eq_true] at hgo
      exact hgo.1.1.1.1.1.1.1
    have hstarts : Moves may v (s.pipelineStart 0).view := by
      rw [pipelineStart_view]
      exact h.trans (.single (.remote s.view hremote))
    have hremote' : (s.pipelineStart 0).view.localWake = false := by
      rw [pipelineStart_view]
      exact hremote
    exact hstarts.trans (.single (.wait _ hremote'))

theorem coreWakeRunEnded_moves (failed : Bool) :
    Moves may v (s.coreWakeRunEnded failed).2.view := by
  unfold coreWakeRunEnded
  split
  · exact h
  · exact (h.trans (.single (.off s.view))).trans (.single (.unwait _))

theorem coreRunOver_moves : Moves may v s.coreRunOver.view := by
  unfold coreRunOver
  exact wakeListen_moves _ h

theorem coreRemoteWake_moves : Moves may v s.coreRemoteWake.view := by
  simp only [coreRemoteWake]
  split
  case isTrue => exact h
  case isFalse hgo =>
  have hremote : s.localWake = false := by
    simp only [Bool.or_eq_true, not_or, Bool.not_eq_true] at hgo
    exact hgo.1
  rw [coreSetState_view, wakeTold_view]
  have hcut : ∀ t : St, Moves may v t.view → Moves may v { t.view with state := .listening } :=
    fun t ht => ht.trans (.single (.phase t.view .listening (fun _ _ _ => rfl)))
  split
  · have hreply := replyCut_view { s with
      wakeCutMs := s.now
      wakeCut := true
      wakeWait := false
      bargeIn := false
      bargeFrom := 0
      flush := true }
    have hcalm := (h.trans (.single (.cut s.view hremote))).trans (.single (.unwait _))
    exact hcut _ ((hcalm.trans (.single (.calm _))).trans (.of_eq hreply))
  · exact hcut s h

theorem coreLink_moves (up ready : Bool) : Moves may v (s.coreLink up ready).view := by
  have hlink := h.trans (.single (.link s.view up (up && ready)))
  simp only [coreLink]
  split
  · exact finish_moves _ hlink
  split
  case isTrue hgo =>
    have hremote : s.localWake = false := by
      simp only [Bool.and_eq_true, Bool.not_eq_true'] at hgo
      exact hgo.1.2
    rw [pipelineStart_view]
    exact hlink.trans (.single (.remote _ hremote))
  case isFalse => exact hlink

theorem coreError_moves : Moves may v s.coreError.view := by
  unfold coreError
  split
  · exact h
  split
  · exact s.finish_moves h
  · exact h

theorem noSpeechTold_moves : Moves may v (if s.runWake then s.wakeTold .noSpeech else s).view := by
  split
  · rw [wakeTold_view]
    exact h
  · exact h

theorem coreNoSpeech_moves : Moves may v s.coreNoSpeech.view := by
  have hend : ∀ t : St, Moves may v t.view →
      Moves may v (if t.state ≠ .speaking then t.corePipelineFinish else t).view := by
    intro t ht
    split
    · exact t.finish_moves ht
    · exact ht
  simp only [coreNoSpeech]
  split
  · exact h
  · exact hend _ (s.noSpeechTold_moves h)

theorem quietCancel_moves : Moves may v s.quietCancel.view := by
  have hquiet : Moves may v (cancel { s with bargeIn := false, streaming := false }).view := by
    rw [cancel_view]
    exact ((h.trans (.single (.calm s.view))).trans (.single (.off _))).trans (.single (.cancels _))
  exact finish_moves _ hquiet

theorem muteUpdate_moves (was : Bool) : Moves may v (s.muteUpdate was).view := by
  unfold muteUpdate
  split
  · exact h
  split
  · exact s.finish_moves h
  · exact h

theorem coreSoftMute_moves (hmay : may .muted) (set : Bool) :
    Moves may v (s.coreSoftMute set).view := by
  unfold coreSoftMute
  split
  · exact h
  · refine muteUpdate_moves _ ?_ _
    exact h.trans (.single (.mute s.view hmay set s.latch s.lastLatch))

theorem muteLatch_moves (hmay : may .muted) (muted : Bool) :
    Moves may v (s.muteLatch muted).view := by
  unfold muteLatch
  refine muteUpdate_moves _ ?_ _
  exact h.trans (.single (.mute s.view hmay (s.softMute && muted) s.latch muted))

/-- A trigger starts a run only while not muted. -/
theorem pipelineStart_moves (hmay : may .triggered) (hm : s.coreMuted = false) (fromAt : ℕ) :
    Moves may v (s.pipelineStart fromAt).view := by
  rw [pipelineStart_view]
  exact h.trans (.single (.start s.view hmay hm))

theorem trigger_moves (hmay : may .triggered) (touch : Bool) (fromAt : ℕ) :
    Moves may v (s.trigger touch fromAt).view := by
  simp only [trigger]
  split
  · exact h
  split
  · -- a run that is under way is cancelled first
    have hquiet := s.quietCancel_moves h
    generalize s.quietCancel = t at hquiet
    split
    · exact hquiet
    split
    case isTrue hgo =>
      have hm : t.coreMuted = false := by
        simp only [Bool.and_eq_true, Bool.not_eq_true'] at hgo
        exact hgo.2
      exact pipelineStart_moves { t with wakeCutMs := t.now } hquiet hmay hm _
    case isFalse => exact hquiet
  split
  case isTrue => exact h
  case isFalse hgo =>
    have hm : s.coreMuted = false := by
      simp only [Bool.or_eq_true, not_or, Bool.not_eq_true] at hgo
      exact hgo.2
    split
    · exact h
    split
    · split
      · exact pipelineStart_moves { s with wakeCutMs := s.now } h hmay hm _
      · exact s.pipelineStart_moves h hmay hm _
    split
    · exact h.trans (.single (.calm s.view))
    split
    · exact h.trans (.single (.barge s.view hmay hm))
    · exact h

theorem stopWord_moves (music : Bool) : Moves may v (s.stopWord music).view := by
  simp only [stopWord]
  split
  · exact h.trans (.single (.calm s.view))
  split
  · split
    · exact quietCancel_moves _ h
    · exact finish_moves _ (h.trans (.single (.calm s.view)))
  · split <;> split <;> first | exact quietCancel_moves _ h | exact h

theorem onWake_moves : Moves may v s.onWake.view := by
  have htold := s.wakeTold_view .detected
  exact h.trans (.of_eq htold)

theorem runCancelled_moves : Moves may v s.runCancelled.view := by
  have hquiet : Moves may v (cancel { s with bargeIn := false, streaming := false }).view := by
    rw [cancel_view]
    exact ((h.trans (.single (.calm s.view))).trans (.single (.off _))).trans (.single (.cancels _))
  unfold runCancelled
  split
  · exact finish_moves _ hquiet
  · exact s.finish_moves h

theorem coreTranscript_moves (t : Said) : Moves may v (s.coreTranscript t).2.view := by
  simp only [coreTranscript]
  split
  · have htold := s.noSpeechTold_moves h
    generalize (if s.runWake then s.wakeTold .noSpeech else s) = u at htold
    split
    · exact u.quietCancel_moves htold
    · exact u.finish_moves htold
  split
  · exact s.runCancelled_moves h
  split
  · split
    · exact h
    · exact runCancelled_moves _ h
  split
  · exact h
  · split <;> exact runCancelled_moves _ h

theorem coreTtsBegin_moves (rate ch : ℕ) (media : Bool) :
    Moves may v (s.coreTtsBegin rate ch media).view := by
  simp only [coreTtsBegin]
  refine wakeListen_moves _ ?_
  split
  case isTrue hw =>
    refine (h.trans (.single (.phase s.view .speaking ?_))).trans (.of_eq (s.coreSetState_view _))
    exact fun _ hno _ => absurd hno (by simp [view, hw])
  case isFalse =>
    have hoff := h.trans (.single (.off s.view))
    refine (hoff.trans (.single (.phase _ .speaking ?_))).trans (.of_eq (coreSetState_view _ _))
    exact fun _ _ hno => absurd hno (by simp)

theorem heardEnd_moves : Moves may v s.heardEnd.view := by
  have hemit : Moves may v (s.emit .endOfAudio).coreMicOff.view := by
    have hend := s.emit_view (o := .endOfAudio) nofun
    exact (h.trans (.of_eq hend)).trans (.single (.off _))
  simp only [heardEnd]
  split
  · rw [coreSetState_view]
    refine hemit.trans (.single (.phase _ .thinking ?_))
    exact fun _ _ hno => absurd hno (by simp [coreMicOff, view])
  · exact hemit

/-- Samples are handed over while streaming, muted or not. -/
theorem mic_moves (hstream : s.streaming = true) :
    Moves may v (s.emit (.mic s.coreMuted)).view := by
  cases hm : s.coreMuted with
  | false => exact h.trans (.of_eq (s.emit_view (by simp)))
  | true =>
    refine (h.trans (.single (.leak s.view hstream hm))).trans (.of_eq ?_)
    simp [view, emit]

theorem capture_moves (tail done : Bool) : Moves may v (s.capture tail done).view := by
  simp only [capture]
  split
  case isTrue => exact h
  case isFalse hstream =>
    have hstream' : s.streaming = true := by simpa using hstream
    have hmic := s.mic_moves h hstream'
    split
    · exact h
    have hheard : ∀ t : St, Moves may v t.view →
        Moves may v (if done && t.streaming then t.heardEnd else t).view := by
      intro t ht
      split
      · exact t.heardEnd_moves ht
      · exact ht
    refine hheard _ ?_
    split
    · exact hmic
    split
    · exact hmic
    · exact h

theorem timeout_moves : Moves may v s.timeout.view := by
  unfold timeout
  split
  · exact s.finish_moves h
  · exact h

theorem play_moves : Moves may v s.play.view := by
  simp only [play]
  split
  · split <;> exact h
  · exact h
  · split
    · exact h
    split
    · exact h.trans (.of_eq (s.emit_view nofun))
    · exact h
  · exact h
  · have hplayed : Moves may v (played { s with player := .waits, flush := false }).view := by
      rw [played_view]
      exact h
    split
    · exact hplayed.trans (.single (.uncut _))
    · exact finish_moves _ hplayed

/-! ### Home Assistant and media -/

theorem mediaStart_moves (url₀ url₁ : Bytes) (announce startConversation isReply media : Bool) :
    Moves may v (s.mediaStart url₀ url₁ announce startConversation isReply media).view := by
  simp only [mediaStart]
  split
  · split
    · exact h.trans (.of_eq (s.emit_view nofun))
    · exact h
  · rw [sendMpState_view]
    split
    · exact finish_moves { s with mediaBusy := true } h
    · exact h

theorem mediaEnd_moves (j : ℕ) (job : Job)
    (hmay : (job.announce && job.startConversation && job.ok) = true → job.aborted = false →
      may .asked) : Moves may v (s.mediaEnd j job).view := by
  simp only [mediaEnd]
  split
  case isTrue =>
    split
    · exact h.trans (.single (.uncut s.view))
    · exact h
  case isFalse hab =>
    have hcur :
        Moves may v (if s.mediaCur = some j then { s with mediaCur := none } else s).view := by
      split <;> exact h
    generalize (if s.mediaCur = some j then { s with mediaCur := none } else s) = t at hcur
    have hask : Moves may v (if (job.announce && job.startConversation && job.ok) = true then
        t.coreRestartAfter else t).view := by
      split
      case isTrue hgo =>
        exact hcur.trans (.single (.ask t.view (hmay hgo (by simpa using hab))))
      case isFalse => exact hcur
    generalize (if (job.announce && job.startConversation && job.ok) = true then
      t.coreRestartAfter else t) = u at hask
    split
    · exact hask
    · -- nothing of it was played: the job ends here
      have hdone : Moves may v (if job.announce = true then
          announceDone { u.emit (.announceFinished false) with announcing := false }
          else u).view := by
        split
        · exact hask.trans (.of_eq (u.emit_view nofun))
        · exact hask
      generalize (if job.announce = true then
        announceDone { u.emit (.announceFinished false) with announcing := false }
        else u) = w at hdone
      refine finish_moves (sendMpState { w with mediaPlaying := false }) ?_
      rw [sendMpState_view]
      exact hdone

theorem mediaStep_moves (j : ℕ) (m : Media)
    (hmay : ∀ job, s.jobs j = some job → job.pc = .ended → m = .finishes →
      (job.announce && job.startConversation && job.ok) = true → job.aborted = false →
      may .asked) : Moves may v (s.mediaStep j m).view := by
  unfold mediaStep
  split
  case h_1 => exact h
  case h_2 job hjob =>
    split
    case h_1 => split <;> exact h
    case h_2 => split <;> exact h
    case h_3 => exact h
    case h_4 => exact h
    case h_5 => split <;> exact h
    case h_6 =>
      split
      · exact h
      · exact s.coreTtsBegin_moves h _ _ _
    case h_7 =>
      unfold coreTtsData
      split <;> exact h
    case h_8 => exact h
    case h_9 hpc => exact s.mediaEnd_moves h j job (hmay job hjob hpc rfl)
    case h_10 => exact h
    case h_11 => exact h

theorem onReply_moves : Moves may v s.onReply.view := by
  unfold onReply
  split
  · refine mediaStart_moves _ ?_ _ _ _ _ _ _
    exact h.trans (.single (.off s.view))
  · exact h

theorem requestOver_moves : Moves may v s.requestOver.view := by
  have hoff : Moves may v s.coreMicOff.view := h.trans (.single (.off s.view))
  simp only [requestOver]
  split
  · rw [coreSetState_view]
    refine hoff.trans (.single (.phase _ .thinking ?_))
    exact fun _ _ hno => absurd hno (by simp [coreMicOff, view])
  · exact hoff

theorem onError_moves (code : Code) : Moves may v (s.onError code).view := by
  have hended := s.coreWakeRunEnded_moves h (code ≠ .duplicateWakeUp)
  unfold onError
  split
  case h_1 t ht =>
    rw [ht] at hended
    have htold : Moves may v
        (if code = .duplicateWakeUp then t.emit (.wake .answeredElsewhere) else t).view := by
      split
      · exact hended.trans (.of_eq (t.emit_view nofun))
      · exact hended
    exact coreRunOver_moves _ (htold.trans (.single (.cancels _)))
  case h_2 t ht =>
    rw [ht] at hended
    cases code with
    | duplicateWakeUp =>
      refine finish_moves _ (hended.trans (.of_eq ?_))
      exact emit_view { t with ttsExpected := false } nofun
    | noTextRecognized => exact coreNoSpeech_moves { t with ttsExpected := false } hended
    | other => exact coreError_moves { t with ttsExpected := false } hended

theorem takeEvent_moves (e : VaEvent)
    (hmay : e.type = .intentEnd → e.continueConversation = true → may .asked)
    (htold : e.type = .runStart ∨ e.type = .error → may .told) :
    Moves may v (s.takeEvent e).view := by
  have hnew : Moves may v
      (if e.type = .runStart ∨ e.type = .error then { s with cancelled := .no } else s).view := by
    split
    case isTrue htype => exact h.trans (.single (.tell s.view (htold htype)))
    case isFalse => exact h
  unfold takeEvent
  generalize (if e.type = .runStart ∨ e.type = .error then { s with cancelled := .no } else s) = t
    at hnew
  cases htype : e.type with
  | wakeEnd => exact t.coreRemoteWake_moves hnew
  | sttStart =>
    refine (hnew.trans (.single (.phase t.view .listening (fun _ _ _ => rfl)))).trans (.of_eq ?_)
    exact t.coreSetState_view _
  | vadEnd => exact t.requestOver_moves hnew
  | sttEnd =>
    have hsaid := t.coreTranscript_moves hnew e.said
    simp only
    split
    case h_1 u hu =>
      rw [hu] at hsaid
      exact hsaid
    case h_2 u hu =>
      rw [hu] at hsaid
      exact u.requestOver_moves hsaid
  | intentEnd =>
    simp only
    split
    case isTrue hcont => exact hnew.trans (.single (.ask t.view (hmay htype hcont)))
    case isFalse => exact hnew
  | intentProgress =>
    simp only
    split
    · exact t.onReply_moves hnew
    · exact hnew
  | ttsEnd => exact t.onReply_moves hnew
  | runEnd =>
    simp only
    split
    · exact t.finish_moves hnew
    · exact coreRunOver_moves _ (t.coreWakeRunEnded_moves hnew true)
  | error => exact t.onError_moves hnew e.code
  | runStart => exact hnew
  | ttsStart => exact hnew
  | other => exact hnew

theorem onEvent_moves (e : VaEvent)
    (hmay : s.dropsEvent e.type = false → e.type = .intentEnd → e.continueConversation = true →
      may .asked)
    (htold : s.dropsEvent e.type = false → e.type = .runStart ∨ e.type = .error → may .told) :
    Moves may v (s.onEvent e).view := by
  have htake : ∀ t : St, Moves may v t.view → t.dropsEvent e.type = s.dropsEvent e.type →
      Moves may v (if t.dropsEvent e.type then t else t.takeEvent e).view := by
    intro t ht hdrops
    split
    case isTrue => exact ht
    case isFalse hno =>
      have hno' : s.dropsEvent e.type = false := by
        rw [← hdrops]
        simpa using hno
      exact t.takeEvent_moves ht e (hmay hno') (htold hno')
  simp only [onEvent]
  refine htake _ ?_ ?_
  · split <;> exact h
  · split <;> rfl

theorem onAnnounce_moves (media pre : Bytes) (startConversation : Bool) :
    Moves may v (s.onAnnounce media pre startConversation).view := by
  unfold onAnnounce
  split
  · exact h.trans (.of_eq (s.emit_view nofun))
  · exact s.mediaStart_moves h _ _ _ _ _ _

theorem onMpCommand_moves (hasCmd stop hasUrl : Bool) (url : Bytes) (announcement : Bool) :
    Moves may v (s.onMpCommand hasCmd stop hasUrl url announcement).view := by
  have hflush :
      Moves may v (if hasCmd && stop && s.mediaPlaying then s.coreTtsFlush else s).view := by
    split <;> exact h
  simp only [onMpCommand]
  generalize (if hasCmd && stop && s.mediaPlaying then s.coreTtsFlush else s) = t at hflush
  have halarm : Moves may v (if hasCmd && stop then t.coreAlarmStop else t).view := by
    split <;> exact hflush
  generalize (if hasCmd && stop then t.coreAlarmStop else t) = u at halarm
  have hmedia : Moves may v (if hasUrl && url ≠ [] then
      u.mediaStart [] url false false false !announcement else u).view := by
    split
    · exact u.mediaStart_moves halarm _ _ _ _ _ _
    · exact halarm
  generalize (if hasUrl && url ≠ [] then
    u.mediaStart [] url false false false !announcement else u) = w at hmedia
  split
  · rw [sendMpState_view]
    exact hmedia
  · exact hmedia

end Paths

/-! ### Steps -/

/-- Whether a step asks for a follow-up: an `INTENT_END` with `continue_conversation`, or the
end of an announcement that starts a conversation. -/
def asks : Ev → Bool
  | .event e => !s.dropsEvent e.type && e.type = .intentEnd && e.continueConversation
  | .media j .finishes =>
      (s.jobs j).any fun job =>
        job.pc = .ended && !job.aborted && job.announce && job.startConversation && job.ok
  | _ => false

/-- Whether a step is an event, not dropped, that tells of the start or failure of a run. -/
def tells : Ev → Bool
  | .event e => !s.dropsEvent e.type && (e.type = .runStart || e.type = .error)
  | _ => false

/-- What a step has cause for. -/
def may (e : Ev) : Cause → Prop
  | .triggered => ∃ touch fromAt, e = .trigger touch fromAt
  | .asked => s.asks e = true
  | .told => s.tells e = true
  | .muted => ∃ b, e = .latch b ∨ e = .muteLatch b ∨ e = .softMute b

/-- **A step is a path of moves.** -/
theorem step_moves (e : Ev) : Moves (s.may e) s.view (s.step e).view := by
  have h : Moves (s.may e) s.view s.view := .refl _
  cases e with
  | clock now time => exact h
  | latch on => exact .single (.mute s.view ⟨on, .inl rfl⟩ s.softMute on s.lastLatch)
  | muteLatch m => exact s.muteLatch_moves h ⟨m, .inr (.inl rfl)⟩ m
  | softMute set => exact s.coreSoftMute_moves h ⟨set, .inr (.inr rfl)⟩ set
  | heard => exact s.onWake_moves h
  | trigger touch fromAt => exact s.trigger_moves h ⟨touch, fromAt, rfl⟩ touch fromAt
  | stopWord music => exact s.stopWord_moves h music
  | link up => exact s.coreLink_moves h up false
  | subscribe sub =>
    refine coreLink_moves _ ?_ true sub
    split <;> exact h
  | vaLeft others => exact coreLink_moves { s with ttsExpected := false } h others false
  | refused => exact s.coreError_moves h
  | event e =>
    refine s.onEvent_moves h e ?_ ?_
    · intro hdrops htype hcont
      rw [htype] at hdrops
      simp [may, asks, hdrops, htype, hcont]
    · intro hdrops htype
      simp [may, tells, hdrops, htype]
  | announce media pre startConversation => exact s.onAnnounce_moves h _ _ _
  | mpCommand hasCmd stop hasUrl url announcement => exact s.onMpCommand_moves h _ _ _ _ _
  | ttsAudio pcm =>
    simp only [step, coreTtsData]
    split <;> exact h
  | capture tail done => exact s.capture_moves h tail done
  | timeout => exact s.timeout_moves h
  | play => exact s.play_moves h
  | media j m =>
    refine s.mediaStep_moves h j m ?_
    rintro job hjob hpc rfl hgo hab
    simp only [Bool.and_eq_true] at hgo
    simp [may, asks, hjob, hpc, hab, hgo]
  | alarm on => exact h
  | dropin status was => exact h
  | settings stopEnds timerStopAny dnd btAsked => exact h

end St

end Hassmic.Voice
