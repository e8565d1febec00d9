import Hassmic.Voice.Tape

/-!
# A step is a path of the media's moves

What each function does to the queue, the jobs and their flags, as a path of moves.  Most
functions of the core only change what the ring shows; the hard ones are those in which a run
is cancelled, since that may let go of the job that is held.

## Main definitions

* `St.tape` — the tape of a state.
* `St.cancels` — whether a step calls `cancel`; `St.takesReply` — whether it takes a reply.
* `St.needs` — what a step needs.

## Main results

* `St.step_rolls` — a step is a path of moves.
* `St.at_run` — the slot is at one place in every run.
-/

namespace Hassmic.Voice

/-! ### Paths -/

/-- A path of moves. -/
def Rolls (may : Need → Tape → Prop) : Tape → Tape → Prop := Relation.ReflTransGen (Roll may)

namespace Rolls

variable {may : Need → Tape → Prop} {t u w : Tape}

theorem refl (t : Tape) : Rolls may t t := Relation.ReflTransGen.refl

theorem of_eq (h : u = t) : Rolls may t u := by
  rw [h]
  exact refl t

theorem single (h : Roll may t u) : Rolls may t u := Relation.ReflTransGen.single h

theorem trans (h : Rolls may t u) (h' : Rolls may u w) : Rolls may t w :=
  Relation.ReflTransGen.trans h h'

/-- A property that every move keeps is kept by a path. -/
theorem keeps {P : Tape → Prop} (hP : ∀ t u, Roll may t u → P t → P u) (h : Rolls may t u)
    (ht : P t) : P u := by
  induction h with
  | refl => exact ht
  | tail _ hroll ih => exact hP _ _ hroll ih

end Rolls

/-- The ring shows something else than a reply, or as it was. -/
def Tape.Eases (t u : Tape) : Prop :=
  ∃ p b, (p = t.state ∨ p ≠ .speaking) ∧
    u = { t with state := p, ttsExpected := t.ttsExpected && b }

namespace Tape.Eases

variable {t u w : Tape}

theorem refl (t : Tape) : t.Eases t := ⟨t.state, true, .inl rfl, by simp⟩

theorem rolls {may : Need → Tape → Prop} (h : t.Eases u) : Rolls may t u := by
  obtain ⟨p, b, hp, rfl⟩ := h
  exact .single (.ease t p b hp)

end Tape.Eases

namespace St

variable (s : St)

/-- The tape of a state. -/
def tape : Tape where
  queue := s.queue
  player := s.player
  flush := s.flush
  wakeCut := s.wakeCut
  state := s.state
  ttsExpected := s.ttsExpected
  announcing := s.announcing
  mediaPlaying := s.mediaPlaying
  mediaBusy := s.mediaBusy
  mediaCur := s.mediaCur
  jobs := s.jobs
  njobs := s.njobs
  answers := s.out.countP Out.isAnswer

/-! ### The core is hardly seen -/

theorem emit_tape {o : Out} (h : o.isAnswer = false) : (s.emit o).tape = s.tape := by
  have hcount : (s.out ++ [o]).countP Out.isAnswer = s.out.countP Out.isAnswer := by
    simp [List.countP_append, h]
  simp only [tape, emit, hcount]

theorem answer_tape (b : Bool) : (s.emit (.announceFinished b)).tape =
    { s.tape with answers := s.tape.answers + 1 } := by
  have hcount : (s.out ++ [Out.announceFinished b]).countP Out.isAnswer =
      s.out.countP Out.isAnswer + 1 := by
    simp [List.countP_append, Out.isAnswer]
  simp only [tape, emit, hcount]

@[simp] theorem sendMpState_tape : s.sendMpState.tape = s.tape := s.emit_tape rfl

@[simp] theorem start_tape : s.start.tape = { s.tape with ttsExpected := false } :=
  emit_tape _ rfl

@[simp] theorem stop_tape : s.stop.tape = s.tape := by
  have hend := s.emit_tape (o := .endOfAudio) rfl
  have hrequest := (s.emit .endOfAudio).emit_tape (o := .request false) rfl
  exact hrequest.trans hend

@[simp] theorem shut_tape (j : ℕ) : (s.shut j).tape = s.tape := by
  unfold shut
  split
  · exact s.emit_tape rfl
  · rfl

@[simp] theorem replyCut_tape : s.replyCut.tape = s.tape := by
  unfold replyCut
  split
  · exact s.shut_tape _
  · rfl

@[simp] theorem wakeTold_tape (e : WakeEvent) : (s.wakeTold e).tape = s.tape := by
  unfold wakeTold
  split
  · exact s.emit_tape rfl
  · rfl

@[simp] theorem coreSetState_tape (p : Phase) :
    (s.coreSetState p).tape = { s.tape with state := p } := by
  unfold coreSetState
  split
  case isTrue h =>
    rw [h]
    rfl
  case isFalse => rfl

/-- `cancel` without a reply to let go of. -/
theorem cancel_tape (h : s.ttsExpected = true → s.mediaCur = none) : s.cancel.tape = s.tape := by
  have hemit := s.emit_tape (o := .request false) rfl
  simp only [cancel]
  split
  case h_1 j he hj =>
    have hnone := h he
    rw [show s.mediaCur = some j from hj] at hnone
    exact nomatch hnone
  case h_2 => exact hemit

/-- `cancel` lets go of a reply. -/
theorem cancel_letGo {j : ℕ} (he : s.ttsExpected = true) (hj : s.mediaCur = some j) :
    s.cancel.tape = { s.tape with
      jobs := Function.update s.jobs j ((s.jobs j).map fun job => { job with aborted := true })
      mediaCur := none
      mediaPlaying := false
      mediaBusy := false } := by
  have hshut := shut_tape (abort { s.emit (.request false) with cancelled := .yes } j) j
  have hsend := sendMpState_tape
    { (abort { s.emit (.request false) with cancelled := .yes } j).shut j with
      mediaCur := none
      mediaPlaying := false }
  have hemit := s.emit_tape (o := .request false) rfl
  have hcancel : s.cancel = { sendMpState
      { (abort { s.emit (.request false) with cancelled := .yes } j).shut j with
        mediaCur := none
        mediaPlaying := false } with mediaBusy := false } := by
    simp only [cancel]
    split
    case h_1 k _ hk =>
      obtain rfl : j = k := Option.some.inj (hj.symm.trans hk)
      rfl
    case h_2 hno => exact absurd hj (hno j he)
  rw [hcancel]
  have hgone := congrArg (fun t : Tape =>
    { t with mediaCur := none, mediaPlaying := false, mediaBusy := false }) hshut
  have hsent := congrArg (fun t : Tape => { t with mediaBusy := false }) hsend
  refine hsent.trans (hgone.trans ?_)
  have hgo (jobs : ℕ → Option Job) := congrArg (fun t : Tape =>
    { t with jobs := jobs, mediaCur := none, mediaPlaying := false, mediaBusy := false }) hemit
  exact hgo _

theorem pipelineStart_eases (fromAt : ℕ) : s.tape.Eases (s.pipelineStart fromAt).tape := by
  have hstart := start_tape { s with
    runOver := false
    wakeWait := false
    quietAbort := false
    replayFrom := fromAt
    runWake := fromAt ≠ 0
    starts := s.starts + 1 }
  simp only [pipelineStart]
  split
  · rw [coreSetState_tape, emit_tape _ (o := .leadIn) rfl]
    refine ⟨.listening, false, .inr nofun, ?_⟩
    rw [Bool.and_false]
    exact congrArg (fun t : Tape => { t with state := .listening }) hstart
  · refine ⟨s.state, false, .inl rfl, ?_⟩
    rw [Bool.and_false]
    exact hstart

theorem pipelineNext_eases : s.tape.Eases s.pipelineNext.tape := by
  have hbarge : (if s.connected then s else { s with bargeIn := false }).tape = s.tape := by
    split <;> rfl
  simp only [pipelineNext]
  generalize (if s.connected then s else { s with bargeIn := false }) = u at hbarge
  rw [← hbarge]
  split
  · exact pipelineStart_eases { u with bargeIn := false, bargeFrom := 0 } _
  · exact .refl _

theorem streamEnd_tape
    (h : (s.streaming && s.connected && s.wakeWait) = true → s.ttsExpected = true →
      s.mediaCur = none) : s.streamEnd.tape = s.tape := by
  simp only [streamEnd]
  split
  case isTrue hsent =>
    split
    case isTrue hwait =>
      refine cancel_tape _ (h ?_)
      simp only [Bool.and_eq_true] at hsent ⊢
      exact ⟨hsent, hwait⟩
    case isFalse => exact stop_tape _
  case isFalse => rfl

/-- The end of a run that lets go of nothing. -/
theorem finish_tape
    (h : (s.streaming && s.connected && s.wakeWait) = true → s.ttsExpected = true →
      s.mediaCur = none) :
    ∃ p b, p ≠ .speaking ∧ s.corePipelineFinish.tape =
      { s.tape with state := p, ttsExpected := s.ttsExpected && b } := by
  have hended := s.streamEnd_tape h
  have hidle : (s.streamEnd.coreSetState .idle).tape = { s.tape with state := .idle } := by
    rw [coreSetState_tape, hended]
  obtain ⟨p, b, hp, hnext⟩ := (s.streamEnd.coreSetState .idle).pipelineNext_eases
  rw [hidle] at hp hnext
  refine ⟨p, b, ?_, hnext⟩
  rcases hp with hp | hp
  · rw [hp]
    exact nofun
  · exact hp

/-- Behind `cancel` nothing is left to let go of. -/
theorem cancel_none (he : s.cancel.ttsExpected = true) : s.cancel.mediaCur = none := by
  by_cases hgo : s.ttsExpected = true ∧ s.mediaCur ≠ none
  · obtain ⟨j, hj⟩ := Option.ne_none_iff_exists'.mp hgo.2
    exact congrArg Tape.mediaCur (s.cancel_letGo hgo.1 hj)
  · have hnone : s.ttsExpected = true → s.mediaCur = none := by
      intro he'
      by_contra hne
      exact hgo ⟨he', hne⟩
    have hsame := s.cancel_tape hnone
    exact (congrArg Tape.mediaCur hsame).trans
      (hnone ((congrArg Tape.ttsExpected hsame).symm.trans he))

section Paths

variable {may : Need → Tape → Prop} {t : Tape} (h : Rolls may t s.tape)

include h

/-- A run is cancelled, which may let go of the job that is held, and ended. -/
theorem cancelled_rolls {u : St} (hu : u.tape = s.cancel.tape)
    (hmay : s.ttsExpected = true → s.mediaCur ≠ none → may .cancels s.tape) :
    Rolls may t u.corePipelineFinish.tape := by
  have hnone : u.ttsExpected = true → u.mediaCur = none := by
    intro he
    exact (congrArg Tape.mediaCur hu).trans
      (s.cancel_none ((congrArg Tape.ttsExpected hu).symm.trans he))
  obtain ⟨p, b, hp, hfinish⟩ := u.finish_tape (fun _ => hnone)
  have he : u.ttsExpected = s.cancel.ttsExpected := congrArg Tape.ttsExpected hu
  rw [hu, he] at hfinish
  by_cases hgo : s.ttsExpected = true ∧ s.mediaCur ≠ none
  · obtain ⟨j, hj⟩ := Option.ne_none_iff_exists'.mp hgo.2
    have hletGo := s.cancel_letGo hgo.1 hj
    have he' : s.cancel.ttsExpected = s.ttsExpected := congrArg Tape.ttsExpected hletGo
    rw [hletGo, he'] at hfinish
    exact h.trans ((Rolls.single (.letGo s.tape j p b (hmay hgo.1 hgo.2) hgo.1 hj hp)).trans
      (.of_eq hfinish))
  · have hsame := s.cancel_tape (fun he' => by
      by_contra hne
      exact hgo ⟨he', hne⟩)
    have he' : s.cancel.ttsExpected = s.ttsExpected := congrArg Tape.ttsExpected hsame
    rw [hsame, he'] at hfinish
    exact h.trans ((Rolls.single (.ease s.tape p b (.inr hp))).trans (.of_eq hfinish))

theorem finish_rolls
    (hmay : (s.streaming && s.connected && s.wakeWait) = true → s.ttsExpected = true →
      s.mediaCur ≠ none → may .cancels s.tape) : Rolls may t s.corePipelineFinish.tape := by
  by_cases hgo : (s.streaming && s.connected && s.wakeWait) = true ∧ s.ttsExpected = true ∧
      s.mediaCur ≠ none
  · obtain ⟨honly, he, hne⟩ := hgo
    obtain ⟨j, hj⟩ := Option.ne_none_iff_exists'.mp hne
    have hcancel := cancel_letGo { s with wakeFails := 0, streaming := false } he hj
    have hended : s.streamEnd = cancel { s with wakeFails := 0, streaming := false } := by
      simp only [streamEnd]
      simp only [Bool.and_eq_true] at honly
      rw [if_pos (by simp [honly]), if_pos honly.2]
    rw [corePipelineFinish, hended]
    generalize cancel { s with wakeFails := 0, streaming := false } = u at hcancel
    obtain ⟨p, b, hp, hnext⟩ := (u.coreSetState .idle).pipelineNext_eases
    have hidle := u.coreSetState_tape .idle
    rw [hcancel] at hidle
    rw [hidle] at hp hnext
    have hp' : p ≠ .speaking := by
      rcases hp with hp | hp
      · rw [hp]
        exact nofun
      · exact hp
    exact h.trans ((Rolls.single (.letGo s.tape j p b (hmay honly he hne) he hj hp')).trans
      (.of_eq hnext))
  · obtain ⟨p, b, hp, hfinish⟩ := s.finish_tape (fun honly he => by
      by_contra hne
      exact hgo ⟨honly, he, hne⟩)
    exact h.trans ((Rolls.single (.ease s.tape p b (.inr hp))).trans (.of_eq hfinish))

/-- The end of a run that has nothing to let go of. -/
theorem finish_rolls_none (hnone : s.ttsExpected = true → s.mediaCur = none) :
    Rolls may t s.corePipelineFinish.tape :=
  s.finish_rolls h (fun _ he hne => absurd (hnone he) hne)

end Paths

theorem wakeListen_eases : s.tape.Eases s.wakeListen.tape := by
  unfold wakeListen
  split
  · exact .refl _
  · exact s.pipelineStart_eases 0

@[simp] theorem coreWakeRunEnded_tape (failed : Bool) :
    (s.coreWakeRunEnded failed).2.tape = s.tape := by
  unfold coreWakeRunEnded
  split <;> rfl

theorem coreRunOver_eases : s.tape.Eases s.coreRunOver.tape :=
  wakeListen_eases { s with runOver := true }

theorem played_tape : s.played.tape = { s.tape with
    announcing := false
    answers := s.tape.answers + s.announcing.toNat
    mediaPlaying := false
    mediaBusy := false
    ttsExpected := false } := by
  have hann : (if s.announcing then
      announceDone { s.emit (.announceFinished true) with announcing := false } else s).tape =
        { s.tape with announcing := false, answers := s.tape.answers + s.announcing.toNat } := by
    cases ha : s.announcing with
    | true =>
      rw [if_pos rfl]
      exact congrArg (fun t : Tape => { t with announcing := false }) (s.answer_tape true)
    | false =>
      rw [if_neg Bool.false_ne_true, ← ha, show s.tape.answers + s.announcing.toNat =
        s.tape.answers by rw [ha]; rfl]
      rfl
  have hmp : ∀ u : St, (if u.mediaPlaying then sendMpState { u with mediaPlaying := false }
      else u).tape = { u.tape with mediaPlaying := false } := by
    intro u
    cases hp : u.mediaPlaying with
    | true =>
      rw [if_pos rfl]
      exact sendMpState_tape _
    | false =>
      rw [if_neg Bool.false_ne_true, ← hp]
      rfl
  have hend := congrArg (fun t : Tape =>
    { t with mediaPlaying := false, mediaBusy := false, ttsExpected := false }) hann
  exact (congrArg (fun t : Tape => { t with mediaBusy := false, ttsExpected := false })
    (hmp _)).trans hend

/-- The end of the audio was played. -/
theorem play_closed (hp : s.player = .closed) :
    ∃ p, (s.wakeCut = true → p = s.state) ∧ (s.wakeCut = false → p ≠ .speaking) ∧
      s.play.tape = { s.tape with
        player := .waits
        flush := false
        wakeCut := false
        state := p
        announcing := false
        answers := s.tape.answers + s.announcing.toNat
        mediaPlaying := false
        mediaBusy := false
        ttsExpected := false } := by
  have hplayed := played_tape { s with player := .waits, flush := false }
  simp only [play, hp]
  generalize played { s with player := .waits, flush := false } = u at hplayed
  have hwake : u.wakeCut = s.wakeCut := congrArg Tape.wakeCut hplayed
  have he : u.ttsExpected = false := congrArg Tape.ttsExpected hplayed
  cases hcut : s.wakeCut with
  | true =>
    rw [if_pos (hwake.trans hcut)]
    refine ⟨s.state, fun _ => rfl, nofun, ?_⟩
    exact congrArg (fun t : Tape => { t with wakeCut := false }) hplayed
  | false =>
    obtain ⟨p, b, hne, hfinish⟩ := u.finish_tape (fun _ hno =>
      absurd (he.symm.trans hno) Bool.false_ne_true)
    rw [if_neg (by rw [hwake, hcut]; exact Bool.false_ne_true)]
    refine ⟨p, nofun, fun _ => hne, ?_⟩
    rw [hfinish, he, Bool.false_and, hplayed, ← hcut]
    rfl

section Core

variable {may : Need → Tape → Prop} {t : Tape} (h : Rolls may t s.tape)

include h

theorem coreRemoteWake_rolls : Rolls may t s.coreRemoteWake.tape := by
  simp only [coreRemoteWake]
  split
  · exact h
  rw [coreSetState_tape, wakeTold_tape]
  split
  case isTrue hspeaks =>
    have hcut := replyCut_tape { s with
      wakeCutMs := s.now
      wakeCut := true
      wakeWait := false
      bargeIn := false
      bargeFrom := 0
      flush := true }
    have hlisten := congrArg (fun t : Tape => { t with state := .listening }) hcut
    exact h.trans ((Rolls.single (.wakeCut s.tape hspeaks)).trans (.of_eq hlisten))
  case isFalse =>
    refine h.trans (Tape.Eases.rolls ⟨.listening, true, .inr nofun, ?_⟩)
    rw [Bool.and_true]
    rfl

theorem coreLink_rolls (up ready : Bool)
    (hmay : (s.streaming && up && s.wakeWait) = true → s.ttsExpected = true →
      s.mediaCur ≠ none → may .cancels s.tape) : Rolls may t (s.coreLink up ready).tape := by
  simp only [coreLink]
  split
  · exact finish_rolls _ h hmay
  split
  · have hstart := pipelineStart_eases
      { s with connected := up, satelliteRunning := up && ready, linkPaused := false } 0
    exact h.trans hstart.rolls
  · exact h

theorem coreError_rolls
    (hmay : s.quietAbort = false → s.state ≠ .speaking →
      (s.streaming && s.connected && s.wakeWait) = true → s.ttsExpected = true →
      s.mediaCur ≠ none → may .cancels s.tape) : Rolls may t s.coreError.tape := by
  unfold coreError
  split
  case isTrue => exact h
  case isFalse hq =>
    split
    case isTrue hs => exact s.finish_rolls h (hmay (by simpa using hq) hs)
    case isFalse => exact h

theorem noSpeechTold_rolls : Rolls may t (if s.runWake then s.wakeTold .noSpeech else s).tape := by
  split
  · rw [wakeTold_tape]
    exact h
  · exact h

theorem coreNoSpeech_rolls (hnone : s.ttsExpected = true → s.mediaCur = none) :
    Rolls may t s.coreNoSpeech.tape := by
  have htold := s.noSpeechTold_rolls h
  have hnone' : (if s.runWake then s.wakeTold .noSpeech else s).ttsExpected = true →
      (if s.runWake then s.wakeTold .noSpeech else s).mediaCur = none := by
    split
    · have hsame := s.wakeTold_tape .noSpeech
      intro he
      exact (congrArg Tape.mediaCur hsame).trans
        (hnone ((congrArg Tape.ttsExpected hsame).symm.trans he))
    · exact hnone
  simp only [coreNoSpeech]
  generalize (if s.runWake then s.wakeTold .noSpeech else s) = u at htold hnone'
  split
  · exact h
  split
  · exact u.finish_rolls_none htold hnone'
  · exact htold

theorem quietCancel_rolls (hmay : s.ttsExpected = true → s.mediaCur ≠ none → may .cancels s.tape) :
    Rolls may t s.quietCancel.tape := by
  exact cancelled_rolls { s with bargeIn := false, streaming := false } h rfl hmay

theorem muteUpdate_rolls (was : Bool)
    (hmay : s.state = .listening → (s.streaming && s.connected && s.wakeWait) = true →
      s.ttsExpected = true → s.mediaCur ≠ none → may .cancels s.tape) :
    Rolls may t (s.muteUpdate was).tape := by
  unfold muteUpdate
  split
  · exact h
  split
  case isTrue hgo =>
    simp only [Bool.and_eq_true, decide_eq_true_eq] at hgo
    exact s.finish_rolls h (hmay hgo.2)
  case isFalse => exact h

theorem trigger_rolls (touch : Bool) (fromAt : ℕ)
    (hmay : (touch && s.alarmOn) = false →
      ((s.state = .thinking || touch && s.state = .listening) && s.connected) = true →
      s.ttsExpected = true → s.mediaCur ≠ none → may .cancels s.tape) :
    Rolls may t (s.trigger touch fromAt).tape := by
  simp only [trigger]
  split
  case isTrue => exact h
  case isFalse halarm =>
    split
    case isTrue hgo =>
      have hquiet := s.quietCancel_rolls h (hmay (by simpa using halarm) hgo)
      generalize s.quietCancel = u at hquiet
      split
      · exact hquiet
      split
      · exact hquiet.trans (pipelineStart_eases { u with wakeCutMs := u.now } _).rolls
      · exact hquiet
    case isFalse =>
      split
      · exact h
      split
      · exact h
      split
      · split
        · exact h.trans (pipelineStart_eases { s with wakeCutMs := s.now } _).rolls
        · exact h.trans (s.pipelineStart_eases _).rolls
      split
      case isTrue hspeaks =>
        simp only [Bool.and_eq_true, decide_eq_true_eq] at hspeaks
        exact h.trans (.single (.cut s.tape hspeaks.1.1))
      case isFalse =>
        split
        case isTrue hspeaks =>
          simp only [Bool.and_eq_true, decide_eq_true_eq] at hspeaks
          exact h.trans (.single (.cut s.tape hspeaks.1))
        case isFalse => exact h

theorem runCancelled_rolls
    (hmay : s.connected = true → s.ttsExpected = true → s.mediaCur ≠ none → may .cancels s.tape) :
    Rolls may t s.runCancelled.tape := by
  unfold runCancelled
  split
  case isTrue hconn =>
    exact cancelled_rolls { s with bargeIn := false, streaming := false } h rfl (hmay hconn)
  case isFalse hconn =>
    refine s.finish_rolls h ?_
    intro hsent
    simp only [Bool.and_eq_true] at hsent
    exact absurd hsent.1.2 hconn

theorem stopWord_rolls (music : Bool)
    (hmay : s.state = .listening → s.connected = true →
      s.now - s.wakeCutMs < 4000 ∨ s.stopEnds = true ∧ stopHeard { s with stopMs := s.now } = true →
      s.ttsExpected = true → s.mediaCur ≠ none → may .cancels s.tape) :
    Rolls may t (s.stopWord music).tape := by
  have hmusic : ∀ (quiet : Bool) (u : St), u.tape = s.tape →
      (quiet = true → s.ttsExpected = true → s.mediaCur ≠ none → may .cancels s.tape) →
      Rolls may t (if quiet then u.quietCancel else u).tape := by
    intro quiet u hsame hquiet
    have hu := h.trans (.of_eq hsame)
    split
    case isTrue hq =>
      refine u.quietCancel_rolls hu ?_
      intro he hne
      rw [hsame]
      refine hquiet hq ((congrArg Tape.ttsExpected hsame).symm.trans he) ?_
      exact fun hno => hne ((congrArg Tape.mediaCur hsame).trans hno)
    case isFalse => exact hu
  simp only [stopWord]
  split
  case isTrue hspeaks => exact h.trans (.single (.cut s.tape hspeaks))
  case isFalse =>
    split
    case isTrue hnow =>
      simp only [Bool.and_eq_true, decide_eq_true_eq] at hnow
      split
      case isTrue hconn => exact quietCancel_rolls _ h (hmay hnow.1 hconn (.inl hnow.2))
      case isFalse hconn =>
        refine finish_rolls _ h ?_
        intro hsent
        simp only [Bool.and_eq_true] at hsent
        exact absurd hsent.1.2 hconn
    case isFalse =>
      refine hmusic _ _ ?_ ?_
      · split <;> rfl
      · intro hq
        simp only [Bool.and_eq_true, decide_eq_true_eq] at hq
        exact hmay hq.1.1.1 hq.2 (.inr ⟨hq.1.1.2, hq.1.2⟩)

theorem coreTranscript_rolls (said : Said)
    (hmay : (s.coreTranscript said).1 = true → s.connected = true → s.ttsExpected = true →
      s.mediaCur ≠ none → may .cancels s.tape) : Rolls may t (s.coreTranscript said).2.tape := by
  -- a run that is over lets an answer go, if it was the run's
  have hcancelled : ∀ u : St, u.tape = s.tape → u.connected = s.connected →
      (s.coreTranscript said).1 = true → Rolls may t u.runCancelled.tape := by
    intro u hsame hconn hover
    refine u.runCancelled_rolls (h.trans (.of_eq hsame)) ?_
    intro hc he hne
    rw [hsame]
    refine hmay hover (hconn.symm.trans hc) ((congrArg Tape.ttsExpected hsame).symm.trans he) ?_
    exact fun hno => hne ((congrArg Tape.mediaCur hsame).trans hno)
  revert hmay hcancelled
  simp only [coreTranscript]
  split
  case isTrue =>
    intro hmay _
    have htold : (if s.runWake then s.wakeTold .noSpeech else s).tape = s.tape ∧
        (if s.runWake then s.wakeTold .noSpeech else s).connected = s.connected := by
      split
      · refine ⟨s.wakeTold_tape _, ?_⟩
        unfold wakeTold
        split <;> rfl
      · exact ⟨rfl, rfl⟩
    generalize (if s.runWake then s.wakeTold .noSpeech else s) = u at htold
    have hu := h.trans (.of_eq htold.1)
    split
    case isTrue hconn =>
      refine u.quietCancel_rolls hu ?_
      intro he hne
      rw [htold.1]
      refine hmay rfl (htold.2.symm.trans hconn)
        ((congrArg Tape.ttsExpected htold.1).symm.trans he) ?_
      exact fun hno => hne ((congrArg Tape.mediaCur htold.1).trans hno)
    case isFalse hconn =>
      refine u.finish_rolls hu ?_
      intro hsent
      simp only [Bool.and_eq_true] at hsent
      exact absurd hsent.1.2 hconn
  case isFalse =>
    split
    · intro _ hcancelled
      exact hcancelled s rfl rfl rfl
    split
    · split
      · intro _ _
        exact h
      · intro _ hcancelled
        exact hcancelled s.coreAlarmStop rfl rfl rfl
    split
    · intro _ _
      exact h
    · intro _ hcancelled
      split
      · exact hcancelled { s with musicStoppedMs := s.now } rfl rfl rfl
      · exact hcancelled s rfl rfl rfl

theorem heardEnd_rolls : Rolls may t s.heardEnd.tape := by
  have hend := s.emit_tape (o := .endOfAudio) rfl
  have hoff : Rolls may t (s.emit .endOfAudio).coreMicOff.tape := h.trans (.of_eq hend)
  simp only [heardEnd]
  split
  · rw [coreSetState_tape]
    refine hoff.trans (Tape.Eases.rolls ⟨.thinking, true, .inr nofun, ?_⟩)
    rw [Bool.and_true]
  · exact hoff

theorem capture_rolls (tail done : Bool) : Rolls may t (s.capture tail done).tape := by
  have hmic := h.trans (.of_eq (s.emit_tape (o := .mic s.coreMuted) rfl))
  have hheard : ∀ u : St, Rolls may t u.tape →
      Rolls may t (if done && u.streaming then u.heardEnd else u).tape := by
    intro u hu
    split
    · exact u.heardEnd_rolls hu
    · exact hu
  simp only [capture]
  split
  · exact h
  split
  · exact h
  refine hheard _ ?_
  split
  · exact hmic
  split
  · exact hmic
  · exact h

theorem requestOver_rolls : Rolls may t s.requestOver.tape := by
  have hoff : Rolls may t s.coreMicOff.tape := h
  simp only [requestOver]
  split
  · rw [coreSetState_tape]
    refine hoff.trans (Tape.Eases.rolls ⟨.thinking, true, .inr nofun, ?_⟩)
    rw [Bool.and_true]
  · exact hoff

theorem play_rolls : Rolls may t s.play.tape := by
  simp only [play]
  split
  case h_1 hp =>
    split
    case h_1 => exact h
    case h_2 it rest hq => exact h.trans (.single (.takes s.tape it rest hp hq))
  case h_2 hp => exact h.trans (.single (.closes s.tape hp))
  case h_3 pcm hp =>
    have hskip := h.trans (.single (.skips s.tape (.data pcm) hp nofun))
    split
    · exact hskip
    split
    · have hsound := s.emit_tape (o := .sound pcm) rfl
      exact hskip.trans (.of_eq (congrArg (fun t : Tape => { t with player := .waits }) hsound))
    · exact hskip
  case h_4 hp => exact h.trans (.single (.skips s.tape _ hp nofun))
  case h_5 hp =>
    obtain ⟨p, hcut, hend, hplay⟩ := s.play_closed hp
    simp only [play, hp] at hplay
    rw [hplay]
    exact h.trans (.single (.played s.tape p hp hcut hend))

end Core

/-! ### Home Assistant and media -/

/-- A job that is taken has the slot.  The run that listens is ended first. -/
theorem mediaStart_taken (hfree : s.mediaBusy = false) (hcur : s.mediaCur = none)
    (url₀ url₁ : Bytes) (announce startConversation isReply media : Bool) :
    ∃ p b, ∃ job : Job, (p = s.state ∨ p ≠ .speaking) ∧
      (job.aborted = false ∧ job.began = false ∧ job.pc = .top 0) ∧ job.announce = announce ∧
      (s.mediaStart url₀ url₁ announce startConversation isReply media).tape =
        { s.tape with
          state := p
          ttsExpected := s.ttsExpected && b
          jobs := Function.update s.jobs s.njobs (some job)
          njobs := s.njobs + 1
          mediaCur := some s.njobs
          announcing := announce
          mediaPlaying := true
          mediaBusy := true } := by
  have hended : ∃ p b, (p = s.state ∨ p ≠ .speaking) ∧
      (if !isReply && (s.state = .listening || s.state = .thinking) then
        corePipelineFinish { s with mediaBusy := true } else { s with mediaBusy := true }).tape =
      { s.tape with mediaBusy := true, state := p, ttsExpected := s.ttsExpected && b } := by
    split
    · obtain ⟨p, b, hp, hfinish⟩ :=
        finish_tape { s with mediaBusy := true } (fun _ _ => hcur)
      exact ⟨p, b, .inr hp, hfinish⟩
    · refine ⟨s.state, true, .inl rfl, ?_⟩
      rw [Bool.and_true]
      rfl
  obtain ⟨p, b, hp, hended⟩ := hended
  let job : Job :=
    { url := fun i => if i = 0 then url₀.take 1023 else url₁.take 1023
      announce := announce
      startConversation := startConversation
      media := media }
  refine ⟨p, b, job, hp, ⟨rfl, rfl, rfl⟩, rfl, ?_⟩
  simp only [mediaStart, if_neg (Bool.eq_false_iff.mp hfree)]
  rw [sendMpState_tape]
  generalize (if !isReply && (s.state = .listening || s.state = .thinking) then
    corePipelineFinish { s with mediaBusy := true } else { s with mediaBusy := true }) = u at hended
  have hjobs : u.jobs = s.jobs := congrArg Tape.jobs hended
  have hnjobs : u.njobs = s.njobs := congrArg Tape.njobs hended
  have hnew (jobs : ℕ → Option Job) := congrArg (fun t : Tape =>
    { t with
      jobs := jobs
      njobs := s.njobs + 1
      mediaCur := some s.njobs
      announcing := announce
      mediaPlaying := true }) hended
  rw [hjobs, hnjobs]
  exact hnew _

section Media

variable {may : Need → Tape → Prop} {t : Tape} (h : Rolls may t s.tape)

include h

theorem mediaStart_rolls (url₀ url₁ : Bytes) (announce startConversation isReply media : Bool)
    (hcur : s.mediaBusy = false → s.mediaCur = none)
    (hmay : ∀ u : Tape, u.mediaBusy = s.mediaBusy → u.announcing = s.announcing →
      may .announces u ∨ may .replies u ∨ announce = false ∧ may .plays u) :
    Rolls may t (s.mediaStart url₀ url₁ announce startConversation isReply media).tape := by
  by_cases hbusy : s.mediaBusy = true
  · simp only [mediaStart, if_pos hbusy]
    split
    case isTrue ha =>
      rw [answer_tape]
      refine h.trans (.single (.refuse s.tape ?_))
      rcases hmay s.tape rfl rfl with hann | hreply | ⟨hno, _⟩
      · exact .inl hann
      · exact .inr ⟨hreply, hbusy⟩
      · exact absurd (hno.symm.trans ha) Bool.false_ne_true
    case isFalse => exact h
  · have hfree : s.mediaBusy = false := by simpa using hbusy
    obtain ⟨p, b, job, hp, hjob, rfl, hstarted⟩ :=
      s.mediaStart_taken hfree (hcur hfree) url₀ url₁ announce startConversation isReply media
    have hstart : Rolls may { s.tape with state := p, ttsExpected := s.ttsExpected && b } _ :=
      .single (.start _ job hfree hjob (hmay _ rfl rfl))
    exact (h.trans (.single (.ease s.tape p b hp))).trans (hstart.trans (.of_eq hstarted))

theorem mediaEnd_rolls (j : ℕ) (job : Job) {x : Slot} (hx : s.tape.At x)
    (hj : s.jobs j = some job) (hpc : job.pc = .ended) :
    Rolls may t (s.mediaEnd j job).tape := by
  simp only [mediaEnd]
  split
  case isTrue ha =>
    have hdrop := h.trans (.single (.drops s.tape j job hj ha))
    split
    · exact hdrop.trans (.single (.uncut _))
    · exact hdrop
  case isFalse ha =>
    have ha' : job.aborted = false := by simpa using ha
    -- it was not cut, so it still holds the slot
    have hheld : s.mediaCur = some j :=
      (hx.cur j).mpr (hx.held_of_job hj ha' (by simp [hpc]))
    rw [if_pos hheld]
    have hask : (if (job.announce && job.startConversation && job.ok) = true then
        coreRestartAfter { s with mediaCur := none } else { s with mediaCur := none }).tape =
        { s.tape with mediaCur := none } := by
      split <;> rfl
    generalize (if (job.announce && job.startConversation && job.ok) = true then
      coreRestartAfter { s with mediaCur := none } else { s with mediaCur := none }) = u at hask
    have hjobs : u.jobs = s.jobs := congrArg Tape.jobs hask
    split
    case isTrue hb =>
      refine h.trans ((Rolls.single (.ends s.tape j job _ hj ha' hpc hb rfl)).trans (.of_eq ?_))
      have hpush (jobs : ℕ → Option Job) := congrArg (fun t : Tape => { t with jobs := jobs }) hask
      rw [if_pos (show s.tape.mediaCur = some j from hheld)]
      simp only [setJob, hjobs]
      exact hpush _
    case isFalse hb =>
      have hb' : job.began = false := by simpa using hb
      -- it never played: the answer is given here
      have hdone : (if job.announce = true then
          announceDone { u.emit (.announceFinished false) with announcing := false }
          else u).tape =
          { s.tape with
            mediaCur := none
            announcing := s.announcing && !job.announce
            answers := s.tape.answers + job.announce.toNat } := by
        cases job.announce with
        | true =>
          have hanswer := u.answer_tape false
          rw [hask] at hanswer
          rw [if_pos rfl, Bool.not_true, Bool.and_false]
          exact congrArg (fun t : Tape => { t with announcing := false }) hanswer
        | false =>
          rw [if_neg Bool.false_ne_true, Bool.not_false, Bool.and_true]
          exact hask
      generalize (if job.announce = true then
        announceDone { u.emit (.announceFinished false) with announcing := false }
        else u) = w at hdone
      have hsend := (sendMpState_tape { w with mediaPlaying := false }).trans
        (congrArg (fun t : Tape => { t with mediaPlaying := false }) hdone)
      obtain ⟨p, b, hp, hfinish⟩ := finish_tape (sendMpState { w with mediaPlaying := false })
        (fun _ _ => congrArg Tape.mediaCur hsend)
      have he : (sendMpState { w with mediaPlaying := false }).ttsExpected = s.ttsExpected :=
        congrArg Tape.ttsExpected hsend
      rw [hsend, he] at hfinish
      refine h.trans ((Rolls.single (.fails s.tape j job p b hj ha' hpc hb' hp)).trans (.of_eq ?_))
      rw [if_pos (show s.tape.mediaCur = some j from hheld)]
      have hjobs' :
          (sendMpState { w with mediaPlaying := false }).corePipelineFinish.jobs = s.jobs :=
        congrArg Tape.jobs hfinish
      have hend (jobs : ℕ → Option Job) := congrArg (fun t : Tape =>
        { t with jobs := jobs, mediaBusy := false }) hfinish
      simp only [dropJob, hjobs']
      exact hend _

theorem begins_rolls (j : ℕ) (job : Job) (i : Fin 2) (rate ch : ℕ) (hj : s.jobs j = some job)
    (hpc : job.pc = .begins i rate ch) (ha : job.aborted = false) (hmay : may .begins s.tape) :
    Rolls may t
      ((s.coreTtsBegin rate ch job.media).setJob j { job with pc := .playing i }).tape := by
  have hgoes : job.Goes { job with pc := .playing i } :=
    job.goes_pc job.fd (by simp [hpc]) (by simp [hpc]) nofun
  have hbegins : Rolls may s.tape _ := .single (.begins s.tape j job _ (.start job.media rate ch) hj
    hmay ha hgoes (.inr ⟨i, rfl⟩) nofun)
  have hoff : (if s.wakeWait then s else { s with streaming := false }).tape = s.tape := by
    split <;> rfl
  simp only [coreTtsBegin]
  generalize (if s.wakeWait then s else { s with streaming := false }) = u at hoff
  have hbase : ((u.coreSetState .speaking).qPush (.start job.media rate ch)).tape =
      { s.tape with state := .speaking, queue := s.queue ++ [.start job.media rate ch] } := by
    have hset := u.coreSetState_tape .speaking
    rw [hoff] at hset
    exact congrArg (fun t : Tape =>
      { t with queue := t.queue ++ [Item.start job.media rate ch] }) hset
  obtain ⟨p, b, hp, heases⟩ :=
    ((u.coreSetState .speaking).qPush (.start job.media rate ch)).wakeListen_eases
  rw [hbase] at hp heases
  generalize ((u.coreSetState .speaking).qPush (.start job.media rate ch)).wakeListen = w at heases
  refine (h.trans hbegins).trans ((Rolls.single (.ease _ p b ?_)).trans (.of_eq ?_))
  · exact hp
  have hjobs : w.jobs = s.jobs := congrArg Tape.jobs heases
  have hset (jobs : ℕ → Option Job) := congrArg (fun t : Tape => { t with jobs := jobs }) heases
  simp only [setJob, hjobs]
  exact hset _

theorem mediaStep_rolls (j : ℕ) (m : Media) {x : Slot} (hx : s.tape.At x)
    (hmay : m = .begins → may .begins s.tape) : Rolls may t (s.mediaStep j m).tape := by
  have hgoes : ∀ (job : Job) (fd : Bool) (pc : Pc), s.jobs j = some job → job.pc ≠ .pushing →
      (∀ i, job.pc ≠ .playing i) → pc ≠ .pushing →
      Rolls may t (s.setJob j { job with fd := fd, pc := pc }).tape :=
    fun job fd pc hj hpc hplay hpc' =>
      h.trans (.single (.goes s.tape j job _ hj (job.goes_pc fd hpc hplay hpc')))
  have hnext : ∀ i : Fin 2, nextPc i ≠ .pushing := by
    intro i
    unfold nextPc
    split <;> exact nofun
  unfold mediaStep
  split
  case h_1 => exact h
  case h_2 job hj =>
    split
    case h_1 i hpc =>
      split
      · exact hgoes job job.fd _ hj (by simp [hpc]) (by simp [hpc]) (hnext i)
      · exact hgoes job job.fd _ hj (by simp [hpc]) (by simp [hpc]) nofun
    case h_2 i ok hpc =>
      split
      · exact hgoes job true _ hj (by simp [hpc]) (by simp [hpc]) nofun
      · exact hgoes job job.fd _ hj (by simp [hpc]) (by simp [hpc]) (hnext i)
    case h_3 i hpc => exact hgoes job false _ hj (by simp [hpc]) (by simp [hpc]) (hnext i)
    case h_4 i rate ch hpc => exact hgoes job job.fd _ hj (by simp [hpc]) (by simp [hpc]) nofun
    case h_5 i rate ch hpc =>
      split
      · exact hgoes job false _ hj (by simp [hpc]) (by simp [hpc]) (hnext i)
      · exact hgoes job job.fd _ hj (by simp [hpc]) (by simp [hpc]) nofun
    case h_6 i rate ch hpc =>
      split
      case isTrue => exact hgoes job false _ hj (by simp [hpc]) (by simp [hpc]) (hnext i)
      case isFalse ha =>
        exact s.begins_rolls h j job i rate ch hj hpc (by simpa using ha) (hmay rfl)
    case h_7 i pcm hpc =>
      unfold coreTtsData
      split
      · exact h
      · exact h.trans (.single (.feeds s.tape (.data pcm) nofun))
    case h_8 i hpc =>
      exact h.trans (.single (.goes s.tape j job _ hj
        ⟨rfl, rfl, by simp [hpc], hnext i, fun _ => .inl rfl⟩))
    case h_9 hpc => exact s.mediaEnd_rolls h j job hx hj hpc
    case h_10 hpc => exact h.trans (.single (.pushes s.tape j job hj hpc))
    case h_11 => exact h

theorem onReply_rolls (hcur : s.mediaBusy = false → s.mediaCur = none)
    (hmay : s.ttsExpected = false → s.ttsUrl ≠ [] → ∀ u : Tape, u.mediaBusy = s.mediaBusy →
      u.announcing = s.announcing → may .replies u) :
    Rolls may t s.onReply.tape := by
  unfold onReply
  split
  case isTrue hgo =>
    simp only [Bool.and_eq_true, Bool.not_eq_true', decide_eq_true_eq] at hgo
    refine mediaStart_rolls (coreMicOff { s with ttsExpected := true }) ?_ _ _ _ _ _ _ hcur
      (fun u hbusy hann => .inr (.inl (hmay hgo.1 hgo.2 u hbusy hann)))
    exact h.trans (.single (.expect s.tape))
  case isFalse => exact h

theorem onError_rolls (code : Code) : Rolls may t (s.onError code).tape := by
  have hended := s.coreWakeRunEnded_tape (code ≠ .duplicateWakeUp)
  unfold onError
  split
  case h_1 u hu =>
    rw [hu] at hended
    have htold : (if code = .duplicateWakeUp then u.emit (.wake .answeredElsewhere) else u).tape =
        s.tape := by
      split
      · exact (u.emit_tape rfl).trans hended
      · exact hended
    generalize (if code = .duplicateWakeUp then u.emit (.wake .answeredElsewhere) else u) = w
      at htold
    exact (h.trans (.of_eq htold)).trans (coreRunOver_eases { w with cancelled := .yes }).rolls
  case h_2 u hu =>
    rw [hu] at hended
    have hunexpected : Rolls may t { s.tape with ttsExpected := false } := by
      refine h.trans (Tape.Eases.rolls ⟨s.state, false, .inl rfl, ?_⟩)
      rw [Bool.and_false]
      rfl
    have hoff : Rolls may t (St.tape { u with ttsExpected := false }) :=
      hunexpected.trans (.of_eq (congrArg (fun t : Tape => { t with ttsExpected := false }) hended))
    cases code with
    | duplicateWakeUp =>
      have htold := emit_tape { u with ttsExpected := false } (o := .wake .answeredElsewhere) rfl
      refine finish_rolls_none _ (hoff.trans (.of_eq htold)) ?_
      exact fun hno => absurd hno Bool.false_ne_true
    | noTextRecognized =>
      exact coreNoSpeech_rolls _ hoff (fun hno => absurd hno Bool.false_ne_true)
    | other =>
      exact coreError_rolls _ hoff (fun _ _ _ hno => absurd hno Bool.false_ne_true)

theorem takeEvent_rolls (e : VaEvent) (hcur : s.mediaBusy = false → s.mediaCur = none)
    (hcancels : e.type = .sttEnd → (s.coreTranscript e.said).1 = true → s.connected = true →
      s.ttsExpected = true → s.mediaCur ≠ none → may .cancels s.tape)
    (hreplies : e.type = .ttsEnd ∨ e.type = .intentProgress ∧ e.startStreaming = true →
      s.ttsExpected = false → s.ttsUrl ≠ [] → ∀ u : Tape, u.mediaBusy = s.mediaBusy →
      u.announcing = s.announcing → may .replies u) :
    Rolls may t (s.takeEvent e).tape := by
  unfold takeEvent
  cases htype : e.type with
  | wakeEnd => exact coreRemoteWake_rolls _ h
  | sttStart =>
    refine h.trans (Tape.Eases.rolls ⟨.listening, true, .inr nofun, ?_⟩)
    rw [Bool.and_true]
    exact s.coreSetState_tape .listening
  | vadEnd => exact requestOver_rolls _ h
  | sttEnd =>
    have hsaid := s.coreTranscript_rolls h e.said (hcancels htype)
    simp only [reduceCtorEq, or_self, if_false]
    split
    case h_1 u hu =>
      rw [hu] at hsaid
      exact hsaid
    case h_2 u hu =>
      rw [hu] at hsaid
      exact u.requestOver_rolls hsaid
  | intentEnd =>
    simp only [reduceCtorEq, or_self, if_false]
    split <;> exact h
  | intentProgress =>
    simp only [reduceCtorEq, or_self, if_false]
    split
    case isTrue hstream => exact s.onReply_rolls h hcur (hreplies (.inr ⟨htype, hstream⟩))
    case isFalse => exact h
  | ttsEnd => exact s.onReply_rolls h hcur (hreplies (.inl htype))
  | runEnd =>
    simp only [reduceCtorEq, or_self, if_false]
    split
    case isTrue hgo =>
      simp only [Bool.and_eq_true, Bool.not_eq_true', decide_eq_true_eq] at hgo
      refine s.finish_rolls_none h (fun he => ?_)
      exact absurd (hgo.1.symm.trans he) Bool.false_ne_true
    case isFalse =>
      have hended := s.coreWakeRunEnded_tape true
      exact (h.trans (.of_eq hended)).trans (coreRunOver_eases _).rolls
  | error => exact onError_rolls { s with cancelled := .no } h e.code
  | runStart => exact h
  | ttsStart => exact h
  | other => exact h

theorem onAnnounce_rolls (media pre : Bytes) (startConversation : Bool)
    (hcur : s.mediaBusy = false → s.mediaCur = none)
    (hmay : ∀ u : Tape, u.mediaBusy = s.mediaBusy → u.announcing = s.announcing →
      may .announces u) :
    Rolls may t (s.onAnnounce media pre startConversation).tape := by
  unfold onAnnounce
  split
  · rw [answer_tape]
    exact h.trans (.single (.refuse s.tape (.inl (hmay s.tape rfl rfl))))
  · exact s.mediaStart_rolls h _ _ _ _ _ _ hcur (fun u hbusy hann => .inl (hmay u hbusy hann))

theorem onMpCommand_rolls (hasCmd stop hasUrl : Bool) (url : Bytes) (announcement : Bool)
    (hcur : s.mediaBusy = false → s.mediaCur = none)
    (hmay : hasCmd = true → stop = true → may .halts s.tape)
    (hplays : ∀ u : Tape, u.mediaBusy = s.mediaBusy → u.announcing = s.announcing →
      may .plays u) :
    Rolls may t (s.onMpCommand hasCmd stop hasUrl url announcement).tape := by
  have hflush : Rolls may t (if hasCmd && stop && s.mediaPlaying then s.coreTtsFlush else s).tape ∧
      (if hasCmd && stop && s.mediaPlaying then s.coreTtsFlush else s).toDesk = s.toDesk := by
    split
    case isTrue hgo =>
      simp only [Bool.and_eq_true] at hgo
      exact ⟨h.trans (.single (.halt s.tape (hmay hgo.1.1 hgo.1.2) hgo.2)), rfl⟩
    case isFalse => exact ⟨h, rfl⟩
  simp only [onMpCommand]
  generalize (if hasCmd && stop && s.mediaPlaying then s.coreTtsFlush else s) = u at hflush
  have halarm : (if hasCmd && stop then u.coreAlarmStop else u).tape = u.tape ∧
      (if hasCmd && stop then u.coreAlarmStop else u).toDesk = u.toDesk := by
    split <;> exact ⟨rfl, rfl⟩
  generalize (if hasCmd && stop then u.coreAlarmStop else u) = w at halarm
  have hw := hflush.1.trans (.of_eq halarm.1)
  have hdesk := halarm.2.trans hflush.2
  have hmedia : Rolls may t (if hasUrl && url ≠ [] then
      w.mediaStart [] url false false false !announcement else w).tape := by
    split
    · refine w.mediaStart_rolls hw _ _ _ _ _ _ ?_ ?_
      · rw [hdesk]
        exact hcur
      · rw [hdesk]
        exact fun v hbusy hann => .inr (.inr ⟨rfl, hplays v hbusy hann⟩)
    · exact hw
  generalize (if hasUrl && url ≠ [] then
    w.mediaStart [] url false false false !announcement else w) = v at hmedia
  split
  · rw [sendMpState_tape]
    exact hmedia
  · exact hmedia

end Media

/-! ### Steps -/

/-- An event's URL is kept, also of one that is dropped. -/
def withUrl (e : VaEvent) : St :=
  match e.url with
  | some u => { s with ttsUrl := u.take 1023 }
  | none => s

/-- The run that only listens for the wake word is open. -/
def listensOnly : Bool := s.streaming && s.connected && s.wakeWait

/-- Whether a step calls `cancel`. -/
def cancels : Ev → Bool
  | .trigger touch _ =>
      !(touch && s.alarmOn) && (s.state = .thinking || touch && s.state = .listening) && s.connected
  | .stopWord _ =>
      s.state = .listening && s.connected &&
        (decide (s.now - s.wakeCutMs < 4000) || s.stopEnds && stopHeard { s with stopMs := s.now })
  | .event e =>
      !s.dropsEvent e.type && e.type = .sttEnd && ((s.withUrl e).coreTranscript e.said).1 &&
        s.connected
  | .muteLatch _ => s.state = .listening && s.listensOnly
  | .softMute _ => s.state = .listening && s.listensOnly
  | .link up => s.streaming && up && s.wakeWait
  | .refused => !s.quietAbort && s.state ≠ .speaking && s.listensOnly
  | .timeout => s.listensOnly
  | _ => false

/-- Whether a step takes a reply. -/
def takesReply : Ev → Bool
  | .event e =>
      !s.dropsEvent e.type &&
        (e.type = .ttsEnd || e.type = .intentProgress && e.startStreaming) &&
        !s.ttsExpected && (s.withUrl e).ttsUrl ≠ []
  | _ => false

/-- What a step needs, and where: the slot is as it was before the step. -/
def needs (e : Ev) (n : Need) (t : Tape) : Prop :=
  match n with
  | .cancels => s.cancels e = true ∧ t = s.tape
  | .halts => (∃ hasUrl url announcement, e = .mpCommand true true hasUrl url announcement) ∧
      t = s.tape
  | .begins => (∃ j, e = .media j .begins) ∧ t = s.tape
  | .announces => (∃ media pre conversation, e = .announce media pre conversation) ∧
      t.mediaBusy = s.mediaBusy ∧ t.announcing = s.announcing
  | .replies => s.takesReply e = true ∧ t.mediaBusy = s.mediaBusy ∧ t.announcing = s.announcing
  | .plays => (∃ hasCmd stop hasUrl url announcement,
      e = .mpCommand hasCmd stop hasUrl url announcement) ∧
      t.mediaBusy = s.mediaBusy ∧ t.announcing = s.announcing

theorem event_rolls (e : VaEvent) {x : Slot} (hx : s.tape.At x) :
    Rolls (s.needs (.event e)) s.tape (s.onEvent e).tape := by
  have hurl : (s.withUrl e).tape = s.tape ∧ (s.withUrl e).cancelled = s.cancelled ∧
      (s.withUrl e).connected = s.connected := by
    unfold withUrl
    split <;> exact ⟨rfl, rfl, rfl⟩
  have honEvent : s.onEvent e =
      if (s.withUrl e).dropsEvent e.type then s.withUrl e else (s.withUrl e).takeEvent e := rfl
  have hdrops : (s.withUrl e).dropsEvent e.type = s.dropsEvent e.type := by
    unfold dropsEvent
    rw [hurl.2.1]
  have he : (s.withUrl e).ttsExpected = s.ttsExpected := congrArg Tape.ttsExpected hurl.1
  rw [honEvent, hdrops]
  split
  case isTrue => exact .of_eq hurl.1
  case isFalse hno =>
    have hno' : s.dropsEvent e.type = false := by simpa using hno
    refine takeEvent_rolls _ (.of_eq hurl.1) e ?_ ?_ ?_
    · rw [show (s.withUrl e).mediaBusy = s.mediaBusy from congrArg Tape.mediaBusy hurl.1,
        show (s.withUrl e).mediaCur = s.mediaCur from congrArg Tape.mediaCur hurl.1]
      exact hx.cur_none
    · intro htype hover hconn _ _
      rw [hurl.2.2] at hconn
      rw [htype] at hno'
      refine ⟨?_, hurl.1⟩
      simp [cancels, hno', htype, hover, hconn]
    · intro htype hunexpected hne u hbusy hann
      rw [he] at hunexpected
      refine ⟨?_, hbusy.trans (congrArg Tape.mediaBusy hurl.1),
        hann.trans (congrArg Tape.announcing hurl.1)⟩
      rcases htype with htype | ⟨htype, hstream⟩
      · rw [htype] at hno'
        simp [takesReply, hno', htype, hunexpected, hne]
      · rw [htype] at hno'
        simp [takesReply, hno', htype, hstream, hunexpected, hne]

/-- **A step is a path of moves.** -/
theorem step_rolls (e : Ev) {x : Slot} (hx : s.tape.At x) :
    Rolls (s.needs e) s.tape (s.step e).tape := by
  have h : Rolls (s.needs e) s.tape s.tape := .refl _
  cases e with
  | clock now time => exact h
  | latch on => exact h
  | muteLatch m =>
    refine muteUpdate_rolls { s with lastLatch := m, softMute := s.softMute && m } h _ ?_
    intro hlisten honly _ _
    exact ⟨Bool.and_eq_true_iff.mpr ⟨decide_eq_true hlisten, honly⟩, rfl⟩
  | softMute set =>
    simp only [step, coreSoftMute]
    split
    · exact h
    · refine muteUpdate_rolls { s with softMute := set } h _ ?_
      intro hlisten honly _ _
      exact ⟨Bool.and_eq_true_iff.mpr ⟨decide_eq_true hlisten, honly⟩, rfl⟩
  | heard => exact h.trans (.of_eq (s.wakeTold_tape .detected))
  | trigger touch fromAt =>
    refine s.trigger_rolls h touch fromAt ?_
    intro halarm hgo _ _
    refine ⟨?_, rfl⟩
    simp only [cancels, halarm]
    simpa using hgo
  | stopWord music =>
    refine s.stopWord_rolls h music ?_
    intro hlisten hconn hwhy _ _
    refine ⟨?_, rfl⟩
    simp only [cancels, Bool.and_eq_true, Bool.or_eq_true, decide_eq_true_eq]
    exact ⟨⟨hlisten, hconn⟩, hwhy⟩
  | link up =>
    refine s.coreLink_rolls h up false ?_
    intro honly _ _
    exact ⟨honly, rfl⟩
  | subscribe sub =>
    cases sub with
    | true =>
      simp only [step, coreLink, if_true]
      split
      case isTrue hno => exact absurd hno (by simp)
      case isFalse =>
        split
        · exact h.trans (pipelineStart_eases
            { s with connected := true, satelliteRunning := true && true, linkPaused := false }
            0).rolls
        · exact h
    | false =>
      refine coreLink_rolls { s with ttsExpected := false } ?_ true false ?_
      · refine h.trans (Tape.Eases.rolls ⟨s.state, false, .inl rfl, ?_⟩)
        rw [Bool.and_false]
        rfl
      · exact fun _ hno => absurd hno Bool.false_ne_true
  | vaLeft others =>
    refine coreLink_rolls { s with ttsExpected := false } ?_ others false ?_
    · refine h.trans (Tape.Eases.rolls ⟨s.state, false, .inl rfl, ?_⟩)
      rw [Bool.and_false]
      rfl
    · exact fun _ hno => absurd hno Bool.false_ne_true
  | refused =>
    refine s.coreError_rolls h ?_
    intro hq hs honly _ _
    refine ⟨?_, rfl⟩
    simp only [cancels, hq, listensOnly, honly]
    simpa using hs
  | event e => exact s.event_rolls e hx
  | announce media pre startConversation =>
    exact s.onAnnounce_rolls h _ _ _ hx.cur_none
      (fun _ hbusy hann => ⟨⟨_, _, _, rfl⟩, hbusy, hann⟩)
  | mpCommand hasCmd stop hasUrl url announcement =>
    refine s.onMpCommand_rolls h _ _ _ _ _ hx.cur_none ?_
      (fun _ hbusy hann => ⟨⟨_, _, _, _, _, rfl⟩, hbusy, hann⟩)
    rintro rfl rfl
    exact ⟨⟨_, _, _, rfl⟩, rfl⟩
  | ttsAudio pcm =>
    simp only [step, coreTtsData]
    split
    · exact h
    · exact h.trans (.single (.feeds s.tape (.data pcm) nofun))
  | capture tail done => exact s.capture_rolls h tail done
  | timeout =>
    simp only [step, timeout]
    split
    · exact s.finish_rolls h (fun honly _ _ => ⟨honly, rfl⟩)
    · exact h
  | play => exact s.play_rolls h
  | media j m => exact s.mediaStep_rolls h j m hx (fun hm => ⟨⟨j, by rw [hm]⟩, rfl⟩)
  | alarm on => exact h
  | dropin status was => exact h
  | settings stopEnds timerStopAny dnd btAsked => exact h

/-! ### Runs -/

theorem at_init (b : Bool) : (St.init b).tape.At .free where
  busy := by simp [tape, init]
  cur := by simp [tape, init]
  job := by simp [tape, init]
  some := by simp
  stops := rfl
  fresh := fun _ _ => rfl

theorem at_step (s : St) (e : Ev) (h : ∃ x, s.tape.At x) : ∃ x, (s.step e).tape.At x := by
  obtain ⟨x, hx⟩ := h
  have hkeeps : ∀ t u, Roll (s.needs e) t u → (∃ x, t.At x) → ∃ x, u.At x := by
    rintro t u hroll ⟨y, hy⟩
    exact hy.roll hroll
  exact (s.step_rolls e hx).keeps hkeeps ⟨x, hx⟩

/-- **The slot is at one place in every run.** -/
theorem at_run (b : Bool) (l : List Ev) : ∃ x, ((St.init b).run l).tape.At x :=
  Runs.invariant_all at_step ⟨.free, at_init b⟩ l

end St

end Hassmic.Voice
