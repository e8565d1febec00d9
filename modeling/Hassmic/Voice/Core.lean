import Hassmic.Lib.Runs
import Hassmic.Lib.Bytes
import Hassmic.Lib.Slots

/-!
# The voice pipeline: state and core

An Echo hears its wake word, sends the request to Home Assistant, and speaks the reply.
The state is shared by the threads under one lock: what a thread does while it holds the
lock is one step here, and so is each of the few things done without it.  This module has
the state, what the protocol sends, and the functions of the core.

## Main definitions

* `Phase` — what the ring shows.
* `Job`, `Pc` — a thread that fetches and plays media, and where it stands.
* `Core`, `Deck`, `Desk`, `St` — the state.
* `start`, `stop`, `cancel`, `played` — the protocol.
* `pipelineStart`, `corePipelineFinish`, `trigger`, `stopWord`, … — the core.
-/

namespace Hassmic.Voice

/-! ### State -/

/-- `enum state`. -/
inductive Phase
  | idle | listening | thinking | speaking
  deriving DecidableEq

/-- `cancelled`: the run was cancelled and its events are dropped, `again` once another was
asked for. -/
inductive Cancelled
  | no | yes | again
  deriving DecidableEq

/-- An item of the playback queue. -/
inductive Item
  | start (media : Bool) (rate ch : ℕ)
  | data (pcm : Bytes)
  | stop
  deriving DecidableEq

/-- Where a media thread stands, for its URL number `i`. -/
inductive Pc
  /-- At the head of the loop. -/
  | top (i : Fin 2)
  /-- In `http_get`. -/
  | fetching (i : Fin 2)
  /-- In `play_url`, nothing played yet. -/
  | opened (i : Fin 2)
  /-- About to call `tts_begin`. -/
  | begins (i : Fin 2) (rate ch : ℕ)
  /-- Feeding the queue. -/
  | playing (i : Fin 2)
  /-- Behind the loop. -/
  | ended
  /-- About to push the end of the audio. -/
  | pushing
  deriving DecidableEq

/-- `struct media_job`, and what its thread knows. -/
structure Job where
  url : Fin 2 → Bytes
  announce : Bool
  startConversation : Bool
  media : Bool
  /-- Its socket is open. -/
  fd : Bool := false
  aborted : Bool := false
  ok : Bool := false
  began : Bool := false
  pc : Pc := .top 0

/-- Where the playback thread stands. -/
inductive Player
  | waits
  /-- An item was taken from the queue. -/
  | has (it : Item)
  /-- The device is closed behind the end of the audio. -/
  | closed
  deriving DecidableEq

/-- `core_wake_events`. -/
inductive WakeEvent
  | detected | nearMiss | answeredElsewhere | noSpeech
  deriving DecidableEq

/-- What goes out. -/
inductive Out
  /-- `VA_REQUEST`, with whether it starts a run. -/
  | request (start : Bool)
  /-- Silence ahead of a request. -/
  | leadIn
  /-- Samples of the microphone, and whether they were handed over while muted. -/
  | mic (muted : Bool)
  /-- The end of the audio. -/
  | endOfAudio
  /-- `VA_ANNOUNCE_FINISHED`, with whether it was played. -/
  | announceFinished (success : Bool)
  /-- The state of the media player. -/
  | mpState (playing : Bool)
  /-- An event of the wake word. -/
  | wake (event : WakeEvent)
  /-- The socket of a media job was shut. -/
  | shut (job : ℕ)
  /-- Audio was played. -/
  | sound (pcm : Bytes)
  deriving DecidableEq

/-- The variables of the core. -/
structure Core where
  /-- `core_local_wake`. -/
  localWake : Bool
  /-- `mono_ms()`. -/
  now : ℤ := 0
  /-- `time(NULL)`. -/
  time : ℤ := 0
  connected : Bool := false
  satelliteRunning : Bool := false
  linkPaused : Bool := false
  state : Phase := .idle
  stateSince : ℤ := 0
  streaming : Bool := false
  softMute : Bool := false
  /-- `buttons_muted()`. -/
  latch : Bool := false
  /-- `last` of `mute_latch`. -/
  lastLatch : Bool := false
  bargeIn : Bool := false
  bargeFrom : ℕ := 0
  replayFrom : ℕ := 0
  runOver : Bool := false
  wakeWait : Bool := false
  wakeFails : ℕ := 0
  quietAbort : Bool := false
  runWake : Bool := false
  wakeCutMs : ℤ := 0
  lastWakeMs : ℤ := 0
  heardMs : ℤ := 0
  stopMs : ℤ := 0
  stopCut : Bool := false
  /-- Setting `stop_ends_listening`. -/
  stopEnds : Bool := false
  /-- Setting `timer_stop_any`. -/
  timerStopAny : Bool := false
  musicStoppedMs : ℤ := 0
  alarmOn : Bool := false
  /-- A Drop In is not idle, as `dropin_status` says it and as `core_dropin` was told. -/
  dropin : Bool := false
  dropinWas : Bool := false
  /-- How often `pipeline_start` was called. -/
  starts : ℕ := 0

/-- The playback queue and its thread. -/
structure Deck where
  queue : List Item := []
  player : Player := .waits
  /-- The device is open. -/
  playOpen : Bool := false
  /-- `flush_playback`. -/
  flush : Bool := false
  wakeCut : Bool := false

/-- The variables of the protocol, and the media threads. -/
structure Desk where
  cancelled : Cancelled := .no
  ttsExpected : Bool := false
  ttsUrl : Bytes := []
  announcing : Bool := false
  mediaPlaying : Bool := false
  mediaBusy : Bool := false
  mediaCur : Option ℕ := none
  /-- The media threads that run. -/
  jobs : ℕ → Option Job := fun _ => none
  /-- How many were started. -/
  njobs : ℕ := 0
  dnd : Bool := false
  /-- `bt_asked_ms`: an announcement of our own is asked for. -/
  btAsked : Bool := false

/-- The state. -/
structure St extends Core, Deck, Desk where
  out : List Out := []

namespace St

variable (s : St)

/-- Something goes out. -/
def emit (o : Out) : St := { s with out := s.out ++ [o] }

/-- `core_muted`. -/
def coreMuted : Bool := s.softMute || s.latch

/-- `core_set_state`. -/
def coreSetState (p : Phase) : St :=
  if p = s.state then s else { s with state := p, stateSince := s.time }

/-- `core_mic_off`. -/
def coreMicOff : St := { s with streaming := false }

/-- `q_push`. -/
def qPush (it : Item) : St := { s with queue := s.queue ++ [it] }

/-! ### The protocol -/

/-- `start`. -/
def start : St :=
  emit { s with
    ttsExpected := false
    ttsUrl := []
    cancelled := if s.cancelled = .no then .no else .again } (.request true)

/-- `stop`. -/
def stop : St := (s.emit .endOfAudio).emit (.request false)

/-- `send_mp_state`. -/
def sendMpState : St := s.emit (.mpState s.mediaPlaying)

/-- A job is marked as let go. -/
def abort (j : ℕ) : St :=
  { s with
    jobs := Function.update s.jobs j ((s.jobs j).map fun job => { job with aborted := true }) }

/-- The socket of a job is shut, if it is open. -/
def shut (j : ℕ) : St := if ((s.jobs j).any fun job => job.fd) then s.emit (.shut j) else s

/-- `cancel`. -/
def cancel : St :=
  let s := { s.emit (.request false) with cancelled := .yes }
  match s.ttsExpected, s.mediaCur with
  | true, some j =>
      let s := (s.abort j).shut j
      let s := sendMpState { s with mediaCur := none, mediaPlaying := false }
      { s with mediaBusy := false }
  | _, _ => s

/-- `reply_cut`. -/
def replyCut : St :=
  match s.mediaCur with
  | some j => s.shut j
  | none => s

/-- `announce_done`. -/
def announceDone : St := { s with btAsked := false }

/-- `played`. -/
def played : St :=
  let s := if s.announcing then
      announceDone { s.emit (.announceFinished true) with announcing := false }
    else s
  let s := if s.mediaPlaying then sendMpState { s with mediaPlaying := false } else s
  { s with mediaBusy := false, ttsExpected := false }

/-- `wake_told`. -/
def wakeTold (e : WakeEvent) : St := if s.connected && !s.coreMuted then s.emit (.wake e) else s

/-! ### Runs -/

/-- `pipeline_start`: `from` is where the wake word that starts it ended, 0 if none did. -/
def pipelineStart (fromAt : ℕ) : St :=
  let s := start { s with
    runOver := false
    wakeWait := false
    quietAbort := false
    replayFrom := fromAt
    runWake := fromAt ≠ 0
    starts := s.starts + 1 }
  let s := { s with streaming := true }
  if s.localWake then (s.emit .leadIn).coreSetState .listening else s

/-- The follow-up, or the next run of a wake word at Home Assistant. -/
def pipelineNext : St :=
  let s := if s.connected then s else { s with bargeIn := false }
  if (s.bargeIn || !s.localWake) && s.satelliteRunning && s.connected then
    pipelineStart { s with bargeIn := false, bargeFrom := 0 } (if s.bargeIn then s.bargeFrom else 0)
  else s

/-- The stream of a run ends. -/
def streamEnd : St :=
  let streamed := s.streaming
  let s := { s with wakeFails := 0, streaming := false }
  if streamed && s.connected then (if s.wakeWait then s.cancel else s.stop) else s

/-- `core_pipeline_finish`. -/
def corePipelineFinish : St := (s.streamEnd.coreSetState .idle).pipelineNext

/-- `wake_listen`. -/
def wakeListen : St :=
  if s.localWake || !s.runOver || s.state ≠ .speaking || s.streaming || s.flush ||
      3 ≤ s.wakeFails || !s.connected || !s.satelliteRunning then s
  else { s.pipelineStart 0 with wakeWait := true }

/-- `core_wake_run_ended`. -/
def coreWakeRunEnded (failed : Bool) : Bool × St :=
  if !s.wakeWait || s.state ≠ .speaking then (false, s)
  else
    (true, { s with
      streaming := false
      wakeWait := false
      wakeFails := if failed then s.wakeFails + 1 else s.wakeFails })

/-- `core_run_over`. -/
def coreRunOver : St := wakeListen { s with runOver := true }

/-- `core_remote_wake`. -/
def coreRemoteWake : St :=
  if s.localWake || !s.streaming then s
  else
    let s := if s.state = .speaking then
        replyCut { s with
          wakeCutMs := s.now
          wakeCut := true
          wakeWait := false
          bargeIn := false
          bargeFrom := 0
          flush := true }
      else s
    (wakeTold { s with runWake := true } .detected).coreSetState .listening

/-- `core_restart_after`. -/
def coreRestartAfter : St := { s with bargeIn := true, bargeFrom := 0 }

/-- `core_link`. -/
def coreLink (up ready : Bool) : St :=
  let was := s.satelliteRunning
  let s := { s with connected := up, satelliteRunning := up && ready, linkPaused := false }
  if !s.satelliteRunning then s.corePipelineFinish
  else if !was && !s.localWake && s.state = .idle then s.pipelineStart 0
  else s

/-- `core_error`. -/
def coreError : St :=
  if s.quietAbort then { s with quietAbort := false }
  else if s.state ≠ .speaking then s.corePipelineFinish
  else s

/-- `core_no_speech`. -/
def coreNoSpeech : St :=
  if s.quietAbort then { s with quietAbort := false }
  else
    let s := if s.runWake then s.wakeTold .noSpeech else s
    if s.state ≠ .speaking then s.corePipelineFinish else s

/-- `quiet_cancel`. -/
def quietCancel : St :=
  { (cancel { s with bargeIn := false, streaming := false }).corePipelineFinish with
    quietAbort := true }

/-! ### Mute -/

/-- `mute_update`. -/
def muteUpdate (was : Bool) : St :=
  if s.coreMuted = was then s
  else if s.coreMuted && s.state = .listening then s.corePipelineFinish
  else s

/-- `core_soft_mute`. -/
def coreSoftMute (set : Bool) : St :=
  if set = s.softMute then s else muteUpdate { s with softMute := set } s.coreMuted

/-- `mute_latch`: the buttons report the latch. -/
def muteLatch (muted : Bool) : St :=
  muteUpdate { s with lastLatch := muted, softMute := s.softMute && muted }
    (s.lastLatch || s.softMute)

/-! ### Wake word, button and stop -/

/-- `stop_heard`. -/
def stopHeard : Bool :=
  s.heardMs ≠ 0 && s.heardMs ≤ s.stopMs && decide (s.stopMs - s.heardMs < 4000)

/-- `stopped_now`. -/
def stoppedNow : Bool := s.stopHeard && (s.stopCut || s.stopEnds)

/-- `core_alarm_stop`. -/
def coreAlarmStop : St := { s with alarmOn := false }

/-- `trigger`: the wake word, or the button where `touch`. -/
def trigger (touch : Bool) (fromAt : ℕ) : St :=
  if touch && s.alarmOn then { s.coreAlarmStop with wakeCutMs := s.now }
  else if (s.state = .thinking || touch && s.state = .listening) && s.connected then
    let s := s.quietCancel
    if !touch && s.stoppedNow then s
    else if !touch && s.state = .idle && s.satelliteRunning && !s.coreMuted then
      pipelineStart { s with wakeCutMs := s.now } fromAt
    else s
  else if !s.connected || !s.satelliteRunning || s.coreMuted then s
  else if s.state = .idle && !touch && s.stoppedNow then s
  else if s.state = .idle then
    let s := if s.alarmOn || s.dropinWas then { s with wakeCutMs := s.now } else s
    s.pipelineStart (if touch then 0 else fromAt)
  else if s.state = .speaking && !touch && s.stoppedNow then
    { s with bargeIn := false, flush := true }
  else if s.state = .speaking && !s.flush then
    { s with wakeCutMs := s.now, bargeIn := true, bargeFrom := fromAt, flush := true }
  else s

/-- `stop_word`; `music` is whether music was playing and could be paused. -/
def stopWord (music : Bool) : St :=
  let ended := s.dropin || s.alarmOn
  let s : St := { s.coreAlarmStop with
    stopMs := s.now
    stopCut := ended || s.state = .speaking || s.state = .thinking }
  if s.state = .speaking then { s with bargeIn := false, flush := true }
  else if s.state = .listening && decide (s.now - s.wakeCutMs < 4000) then
    let s := { s with stopCut := true }
    if s.connected then s.quietCancel
    else { (corePipelineFinish { s with bargeIn := false }) with quietAbort := true }
  else
    let quiet := s.state = .listening && s.stopEnds && s.stopHeard && s.connected
    let s := if !ended && music then { s with musicStoppedMs := s.now } else s
    if quiet then s.quietCancel else s

/-- `on_wake`: a wake word was heard, before it is acted on. -/
def onWake : St := { s.wakeTold .detected with lastWakeMs := s.now, heardMs := s.now }

/-! ### The transcript -/

/-- What `core_transcript` finds in a text: the wake word alone, one of the words for stop, one
to hang up with, anything at all; and whether music can be paused. -/
structure Said where
  wakeAlone : Bool := false
  stop : Bool := false
  hangUp : Bool := false
  words : Bool := false
  music : Bool := false

/-- The run is cancelled where it can be, and ended. -/
def runCancelled : St :=
  corePipelineFinish (if s.connected then
    { (cancel { s with bargeIn := false, streaming := false }) with quietAbort := true } else s)

/-- `core_transcript`, and whether the run is over. -/
def coreTranscript (t : Said) : Bool × St :=
  if t.wakeAlone then
    let s := if s.runWake then s.wakeTold .noSpeech else s
    (true, if s.connected then s.quietCancel else s.corePipelineFinish)
  else if s.dropin && (t.stop || t.hangUp) then (true, s.runCancelled)
  else if s.alarmOn then
    if !t.stop && !(s.timerStopAny && t.words) then (false, s)
    else (true, s.coreAlarmStop.runCancelled)
  else
    let cut := t.stop && decide (s.now - s.wakeCutMs < 10000)
    let paused := t.stop && !cut && t.music
    let recent := s.musicStoppedMs ≠ 0 && decide (s.now - s.musicStoppedMs < 10000)
    if !t.stop || !(cut || t.music || recent) then (false, s)
    else (true, runCancelled (if paused then { s with musicStoppedMs := s.now } else s))

/-! ### Playing -/

/-- `core_tts_begin`. -/
def coreTtsBegin (rate ch : ℕ) (media : Bool) : St :=
  let s := if s.wakeWait then s else { s with streaming := false }
  ((s.coreSetState .speaking).qPush (.start media rate ch)).wakeListen

/-- `core_tts_data`. -/
def coreTtsData (pcm : Bytes) : St := if s.flush then s else s.qPush (.data pcm)

/-- `core_tts_end`. -/
def coreTtsEnd : St := s.qPush .stop

/-- `core_tts_abandoned`. -/
def coreTtsAbandoned : St := { s with wakeCut := false }

/-- `core_tts_flush`. -/
def coreTtsFlush : St := { s with flush := true }

/-! ### The capture thread -/

/-- `heard_end`. -/
def heardEnd : St :=
  let s := (s.emit .endOfAudio).coreMicOff
  if s.state = .listening then s.coreSetState .thinking else s

/-- A block of samples, as far as it is sent: `tail` is whether the end of the wake word is
known, `done` whether the request was heard to end. -/
def capture (tail done : Bool) : St :=
  if !s.streaming then s
  else if !s.connected then { s with replayFrom := 0 }
  else
    let s := if s.replayFrom = 0 then s.emit (.mic s.coreMuted)
      else if tail then { s.emit (.mic s.coreMuted) with replayFrom := 0 }
      else s
    if done && s.streaming then s.heardEnd else s

/-- `PIPELINE_TIMEOUT`. -/
abbrev pipelineTimeout : ℤ := 30

/-- The capture thread ends a run that takes too long. -/
def timeout : St :=
  if s.localWake && (s.state = .listening || s.state = .thinking) &&
      decide (pipelineTimeout < s.time - s.stateSince) then s.corePipelineFinish
  else s

/-! ### The playback thread -/

/-- The playback thread goes on. -/
def play : St :=
  match s.player with
  | .waits =>
      match s.queue with
      | [] => s
      | it :: rest => { s with queue := rest, player := .has it }
  | .has .stop => { s with player := .closed, playOpen := false }
  | .has (.data pcm) =>
      if s.flush then { s with player := .waits, playOpen := false }
      else if s.playOpen then { s.emit (.sound pcm) with player := .waits }
      else { s with player := .waits }
  | .has (.start ..) => { s with player := .waits, playOpen := !s.flush }
  | .closed =>
      let s := played { s with player := .waits, flush := false }
      if s.wakeCut then { s with wakeCut := false } else s.corePipelineFinish

end St

end Hassmic.Voice
