import Hassmic.Voice.Core

/-!
# The voice pipeline: Home Assistant and media

What Home Assistant's messages do, and the threads that fetch and play replies,
announcements and media: one at a time, unless a cancelled run let go of its own.

## Main definitions

* `St.mediaStart`, `St.mediaStep` — a media job is started, and its thread goes on.
* `VaEvent`, `St.onEvent` — events of a run.
* `St.onAnnounce`, `St.onMpCommand` — announcements and the media player.
* `Ev`, `St.step` — everything that happens.
-/

namespace Hassmic.Voice

open Function (update)

open scoped Slots

namespace St

variable (s : St)

/-! ### Media jobs -/

/-- `media_start`. -/
def mediaStart (url₀ url₁ : Bytes) (announce startConversation isReply media : Bool) : St :=
  if s.mediaBusy then (if announce then s.emit (.announceFinished false) else s)
  else
    let s := { s with mediaBusy := true }
    let s := if !isReply && (s.state = .listening || s.state = .thinking) then s.corePipelineFinish
      else s
    let job : Job :=
      { url := fun i => if i = 0 then url₀.take 1023 else url₁.take 1023
        announce := announce
        startConversation := startConversation
        media := media
        pc := .top 0 }
    sendMpState { s with
      jobs := update s.jobs s.njobs (some job)
      njobs := s.njobs + 1
      mediaCur := some s.njobs
      announcing := announce
      mediaPlaying := true }

/-- What a media thread meets. -/
inductive Media
  /-- It looks at its next URL. -/
  | looks
  /-- `http_get` returns, with a socket or not. -/
  | fetched (ok : Bool)
  /-- There is nothing to play in the answer. -/
  | unplayable
  /-- A WAV header, or the first frame of an MP3. -/
  | wav (rate ch : ℕ)
  | mp3 (rate ch : ℕ)
  /-- `tts_begin`. -/
  | begins
  /-- Samples. -/
  | feeds (pcm : Bytes)
  /-- The end of the answer, or of its reading. -/
  | ends
  /-- It is through with its URLs. -/
  | finishes
  /-- `core_tts_end`. -/
  | pushes
  deriving DecidableEq

/-- Behind URL number `i`. -/
def nextPc (i : Fin 2) : Pc := if i = 0 then .top 1 else .ended

/-- A job goes on. -/
def setJob (j : ℕ) (job : Job) : St := { s with jobs := update s.jobs j (some job) }

/-- A job's thread ends. -/
def dropJob (j : ℕ) : St := { s with jobs := update s.jobs j none }

/-- The end of `media_thread`, under the lock. -/
def mediaEnd (j : ℕ) (job : Job) : St :=
  if job.aborted then (if job.began then s.coreTtsAbandoned else s).dropJob j
  else
    let s := if s.mediaCur = some j then { s with mediaCur := none } else s
    let s := if job.announce && job.startConversation && job.ok then s.coreRestartAfter else s
    if job.began then s.setJob j { job with pc := .pushing }
    else
      let s := if job.announce then
          announceDone { s.emit (.announceFinished false) with announcing := false }
        else s
      let s := (sendMpState { s with mediaPlaying := false }).corePipelineFinish
      dropJob { s with mediaBusy := false } j

/-- One step of a media thread. -/
def mediaStep (j : ℕ) (m : Media) : St :=
  match s.jobs j with
  | none => s
  | some job =>
      match job.pc, m with
      | .top i, .looks =>
          if job.url i = [] || s.flush then s.setJob j { job with pc := nextPc i }
          else s.setJob j { job with pc := .fetching i }
      | .fetching i, .fetched ok =>
          if ok && !job.aborted then s.setJob j { job with fd := true, pc := .opened i }
          else s.setJob j { job with pc := nextPc i }
      | .opened i, .unplayable => s.setJob j { job with fd := false, pc := nextPc i }
      | .opened i, .wav rate ch => s.setJob j { job with pc := .begins i rate ch }
      | .opened i, .mp3 rate ch =>
          if s.flush then s.setJob j { job with fd := false, pc := nextPc i }
          else s.setJob j { job with pc := .begins i rate ch }
      | .begins i rate ch, .begins =>
          if job.aborted then s.setJob j { job with fd := false, pc := nextPc i }
          else (s.coreTtsBegin rate ch job.media).setJob j { job with pc := .playing i }
      | .playing _, .feeds pcm => s.coreTtsData pcm
      | .playing i, .ends =>
          s.setJob j { job with
            fd := false
            began := true
            ok := job.ok || i = 1
            pc := nextPc i }
      | .ended, .finishes => s.mediaEnd j job
      | .pushing, .pushes => s.coreTtsEnd.dropJob j
      | _, _ => s

end St

/-! ### Events of a run -/

/-- The types of voice events that are handled. -/
inductive EvType
  | error | runStart | runEnd | sttStart | sttEnd | intentEnd | ttsStart | ttsEnd | wakeEnd | vadEnd
  | intentProgress | other
  deriving DecidableEq

/-- The codes of errors that are told apart. -/
inductive Code
  | duplicateWakeUp | noTextRecognized | other
  deriving DecidableEq

/-- A voice event, as `on_event` reads it. -/
structure VaEvent where
  type : EvType
  url : Option Bytes := none
  continueConversation : Bool := false
  startStreaming : Bool := false
  said : St.Said := {}
  code : Code := .other

namespace St

variable (s : St)

/-- The reply is fetched, unless one is. -/
def onReply : St :=
  if !s.ttsExpected && s.ttsUrl ≠ [] then
    (coreMicOff { s with ttsExpected := true }).mediaStart [] s.ttsUrl true false true false
  else s

/-- The request is over. -/
def requestOver : St :=
  let s := s.coreMicOff
  if s.state = .listening then s.coreSetState .thinking else s

/-- An error. -/
def onError (code : Code) : St :=
  match s.coreWakeRunEnded (code ≠ .duplicateWakeUp) with
  | (true, s) =>
      let s := if code = .duplicateWakeUp then s.emit (.wake .answeredElsewhere) else s
      coreRunOver { s with cancelled := .yes }
  | (false, s) =>
      let s := { s with ttsExpected := false }
      match code with
      | .duplicateWakeUp => (s.emit (.wake .answeredElsewhere)).corePipelineFinish
      | .noTextRecognized => s.coreNoSpeech
      | .other => s.coreError

/-- An event that is not dropped. -/
def takeEvent (e : VaEvent) : St :=
  let s := if e.type = .runStart ∨ e.type = .error then { s with cancelled := .no } else s
  match e.type with
  | .wakeEnd => s.coreRemoteWake
  | .sttStart => s.coreSetState .listening
  | .vadEnd => s.requestOver
  | .sttEnd =>
      match s.coreTranscript e.said with
      | (true, s) => s
      | (false, s) => s.requestOver
  | .intentEnd => if e.continueConversation then s.coreRestartAfter else s
  | .intentProgress => if e.startStreaming then s.onReply else s
  | .ttsEnd => s.onReply
  | .runEnd =>
      if !s.ttsExpected && s.state ≠ .speaking then s.corePipelineFinish
      else (s.coreWakeRunEnded true).2.coreRunOver
  | .error => s.onError e.code
  | .runStart => s
  | .ttsStart => s
  | .other => s

/-- Whether an event is dropped as one of a cancelled run. -/
def dropsEvent (t : EvType) : Bool :=
  s.cancelled = .yes || s.cancelled = .again && t ≠ .runStart && t ≠ .error

/-- `on_event`. -/
def onEvent (e : VaEvent) : St :=
  let s := match e.url with
    | some u => { s with ttsUrl := u.take 1023 }
    | none => s
  if s.dropsEvent e.type then s else s.takeEvent e

/-! ### Announcements and the media player -/

/-- `on_announce`. -/
def onAnnounce (media pre : Bytes) (startConversation : Bool) : St :=
  if s.dnd && !s.btAsked then s.emit (.announceFinished false)
  else s.mediaStart pre media true startConversation false false

/-- `on_mp_command`, as far as it plays; `stop` is `MP_CMD_STOP`. -/
def onMpCommand (hasCmd stop hasUrl : Bool) (url : Bytes) (announcement : Bool) : St :=
  let s := if hasCmd && stop && s.mediaPlaying then s.coreTtsFlush else s
  let s := if hasCmd && stop then s.coreAlarmStop else s
  let s := if hasUrl && url ≠ [] then s.mediaStart [] url false false false !announcement else s
  if hasCmd && !hasUrl then s.sendMpState else s

end St

/-! ### Everything -/

/-- What happens to an Echo. -/
inductive Ev
  /-- Time passes. -/
  | clock (now time : ℤ)
  /-- The hardware latch of the microphones moves; the buttons report it. -/
  | latch (on : Bool)
  | muteLatch (muted : Bool)
  /-- Home Assistant's mute switch. -/
  | softMute (set : Bool)
  /-- A wake word is heard; it, or the button, is acted on. -/
  | heard
  | trigger (touch : Bool) (fromAt : ℕ)
  /-- A “stop” is heard. -/
  | stopWord (music : Bool)
  /-- The first connection comes, the last goes. -/
  | link (up : Bool)
  /-- Home Assistant takes or gives up the voice assistant. -/
  | subscribe (sub : Bool)
  /-- The connection of the voice assistant goes; `others` is whether one stays. -/
  | vaLeft (others : Bool)
  /-- A run is refused. -/
  | refused
  | event (e : VaEvent)
  | announce (media pre : Bytes) (startConversation : Bool)
  | mpCommand (hasCmd stop hasUrl : Bool) (url : Bytes) (announcement : Bool)
  /-- Audio of a reply over the connection. -/
  | ttsAudio (pcm : Bytes)
  /-- The capture thread. -/
  | capture (tail done : Bool)
  | timeout
  /-- The playback thread. -/
  | play
  /-- A media thread. -/
  | media (j : ℕ) (m : St.Media)
  /-- A timer rings or is stopped, a Drop In comes or goes, a setting is set. -/
  | alarm (on : Bool)
  | dropin (status was : Bool)
  | settings (stopEnds timerStopAny dnd btAsked : Bool)

/-- One step. -/
def St.step (s : St) : Ev → St
  | .clock now time => { s with now := now, time := time }
  | .latch on => { s with latch := on }
  | .muteLatch muted => s.muteLatch muted
  | .softMute set => s.coreSoftMute set
  | .heard => s.onWake
  | .trigger touch fromAt => s.trigger touch fromAt
  | .stopWord music => s.stopWord music
  | .link up => s.coreLink up false
  | .subscribe sub => coreLink (if sub then s else { s with ttsExpected := false }) true sub
  | .vaLeft others => coreLink { s with ttsExpected := false } others false
  | .refused => s.coreError
  | .event e => s.onEvent e
  | .announce media pre startConversation => s.onAnnounce media pre startConversation
  | .mpCommand hasCmd stop hasUrl url announcement =>
      s.onMpCommand hasCmd stop hasUrl url announcement
  | .ttsAudio pcm => s.coreTtsData pcm
  | .capture tail done => s.capture tail done
  | .timeout => s.timeout
  | .play => s.play
  | .media j m => s.mediaStep j m
  | .alarm on => { s with alarmOn := on }
  | .dropin status was => { s with dropin := status, dropinWas := was }
  | .settings stopEnds timerStopAny dnd btAsked =>
      { s with stopEnds := stopEnds, timerStopAny := timerStopAny, dnd := dnd, btAsked := btAsked }

/-- A run of steps. -/
abbrev St.run (s : St) (l : List Ev) : St := l.foldl St.step s

/-- An Echo as it starts. -/
def St.init (localWake : Bool) : St := { localWake := localWake }

end Hassmic.Voice
