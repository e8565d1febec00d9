import Hassmic.Lib.Runs
import Hassmic.Sendspin.Text
import Hassmic.Volume.Core

/-!
# Sendspin sessions

Every Sendspin server on the network dials the Echo; one session is admitted, and it plays
while it holds the player role.  A session is a record that its own thread changes as
messages come in, and that the time thread, the buttons and the settings page look at and
write to from outside.  Each message, each end of a session and each call is one step; the
two calls that send a client/state on their own are taken apart at the gate they pass
first.

## Main definitions

* `Session`, `World` — a session, and all of them with what they share.
* `arbitrate`, `onActivate`, `onJson`, `onMessage`, `onFragment` — what a message does.
* `Ev`, `World.step` — what happens to the sessions.
* `Does`, `Handles` — what a message can do, case by case.

## Main results

* `World.message_cases` — every message does one of these.
-/

namespace Hassmic.Sendspin

open Byte Text Volume
open Function (update update_idem)

/-- `psk_cat`: which of our keys a handshake ended with. -/
inductive PskCat
  | sentinel
  | pairing
  | longterm
  deriving DecidableEq

/-- The reason of a client/goodbye. -/
inductive Reason
  | anotherServer
  | concurrentAttempt
  | pairingRequired
  | unauthorized
  | unpaired

/-- What a client/state says. -/
structure Told where
  available : Bool
  vol : Level
  muted : Bool
  delay : ℤ
  deriving DecidableEq

/-- What we send to a server. -/
inductive Out
  | hello (unpaired : Bool)
  | state (t : Told)
  | time
  | goodbye (r : Reason)
  | handshake
  | pairInit (index : ℕ)
  | pairFinalize (psk : Blob 32)
  | pairAbort

/-- A session past its handshake. -/
structure Session where
  serverId : Bytes
  /-- The server speaks spec 1.0. -/
  spec : Bool
  pskCat : PskCat
  newPsk : Blob 32 := .zero 32
  activated : Bool := false
  admitted : Bool := false
  rank : ℕ := 0
  playerActive : Bool := false
  stateSent : Bool := false
  availableSent : Bool := false
  pairing : Bool := false
  closing : Bool := false
  pairingIndex : ℕ := 0
  quiet : Bool := false
  stateOwed : Bool := false
  /-- A fragmented message being put together. -/
  frag : Option Bytes := none
  /-- Its thread took the message that had come in when it was told to close. -/
  late : Bool := false
  /-- Its time thread is past its gate. -/
  timing : Bool := false
  /-- What was sent, in order. -/
  out : List Out := []

abbrev queueMax : ℕ := 8388608
abbrev fragMax : ℕ := 1048576
abbrev maxRecords : ℕ := 8
abbrev nLive : ℕ := 16

/-- The sessions, and what they share. -/
structure World (ι : Type) where
  sessions : ι → Option Session
  admitted : Option ι
  /-- The sessions in the table that `sendspin_unpaired` goes through. -/
  live : List ι
  streamOn : Bool
  /-- Decoded audio, with the session it is of. -/
  queue : List (ι × ℤ × Bytes)
  lastPlaybackServer : Bytes
  unpairedOk : Bool
  records : List (Blob 32 × Bytes)
  vol : Level
  muted : Bool
  delay : ℤ
  /-- The clock filter is of use. -/
  synced : Bool
  /-- A change of the volume that is past the gate of `sendspin_volume_changed`. -/
  call : Option (ι × Level)

/-- Our keys. -/
structure Keys where
  sentinelPsk : Blob 32
  pairingPsk : Blob 32
  /-- `psk_id`. -/
  pskId : Blob 32 → Bytes

/-- A message as the session's thread gets it, with what comes from outside while it is
handled. -/
structure Got where
  /-- The bytes that were decrypted, the type first. -/
  plain : Bytes
  /-- The payload of a handshake message 1 that authenticates. -/
  msg1 : Option Bytes := none
  /-- What `ws_random` gives. -/
  rnd : Blob 32 := .zero 32
  /-- Whether the decoder opens. -/
  opens : Bool := false
  /-- What `decode_chunk` makes of the audio. -/
  pcm : Bytes := []
  /-- What variables hold that no lookup set. -/
  junk : ℤ := 0
  junkText : Bytes := []

/-! ### Sending -/

namespace Session

variable (s : Session)

/-- `send_json`: whether the message is held back. -/
def sendJson (o : Out) : Bool × Session :=
  if s.quiet then (true, s) else (false, { s with out := s.out ++ [o] })

/-- `send_json_forced`. -/
def sendJsonForced (o : Out) : Session := { s with out := s.out ++ [o] }

/-- `goodbye`. -/
def goodbye (r : Reason) : Session := { (s.sendJson (.goodbye r)).2 with closing := true }

end Session

variable {ι : Type} [DecidableEq ι]

namespace World

variable (w : World ι)

/-- The record of a session is written. -/
def set (i : ι) (s : Session) : World ι :=
  { w with sessions := update w.sessions i (some s) }

/-- `send_state_vol`. -/
def sendStateVol (s : Session) (vol : Level) : Session :=
  let available := !s.spec || w.synced
  let r := s.sendJson (.state { available, vol, muted := w.muted, delay := w.delay })
  { r.2 with stateOwed := r.1, stateSent := true, availableSent := available }

/-- `send_state`. -/
def sendState (s : Session) : Session := w.sendStateVol s w.vol

/-- `stream_set(0); q_flush()`. -/
def streamOff : World ι := { w with streamOn := false, queue := [] }

/-! ### The keys of a handshake -/

/-- What `psk_select` says of a key. -/
inductive Selected
  | key (cat : PskCat)
  | none
  | fails

/-- `psk_select`. -/
def pskSelect (K : Keys) (id : Bytes) (declared : Option Bytes) (serverId : Bytes) : Selected :=
  if declared.any fun d => d ≠ txt "lt" && d ≠ txt "pr" && d ≠ txt "sn" then .fails
  else if (declared.all fun d => d = txt "sn") && K.pskId K.sentinelPsk = id then .key .sentinel
  else if (declared.all fun d => d = txt "pr") && K.pskId K.pairingPsk = id then .key .pairing
  else if declared.any fun d => d ≠ txt "lt" then .none
  else
    match w.records.find? fun r => K.pskId r.1 = id && (r.2 = serverId || declared.isSome) with
    | none => .none
    | some r => if r.2 = serverId then .key .longterm else .fails

/-- `noise_respond`, for the payload of message 1; none if the handshake fails. -/
def noiseRespond (K : Keys) (s : Session) (payload : Bytes) (initial : Bool) : Option Session :=
  let payload := payload.takeWhile (· ≠ nul)
  let declared := jsStr 8 payload (txt "psk_category")
  if !initial && declared.isSome ≠ s.spec then none
  else
    let s := { s with spec := declared.isSome }
    match w.pskSelect K ((jsStr 64 payload (txt "psk_id")).getD []) declared s.serverId with
    | .fails => none
    | .none => if initial then some { s with pskCat := .sentinel, pairingIndex := 0 } else none
    | .key cat => some { s with pskCat := cat, pairingIndex := 0 }

/-- `rehandshake`; what fails closes the session. -/
def rehandshake (K : Keys) (s : Session) (j : Bytes) (g : Got) : Session :=
  if (jsStr 512 j (txt "data")).isNone then { s with closing := true }
  else
    let s := { s with activated := false, quiet := true }
    match g.msg1 with
    | none => { s with closing := true }
    | some payload =>
        match w.noiseRespond K s payload false with
        | none => { s with closing := true }
        | some s => s.sendJsonForced .handshake

/-! ### Admission -/

/-- Whether a session that was just activated may replace the admitted one. -/
def wins (i : ι) (s : Session) : Bool :=
  match w.admitted with
  | none => true
  | some k =>
      if k = i then true
      else
        match w.sessions k with
        | none => true
        | some cur =>
            if s.rank = 0 ∧ cur.rank = 0 then
              s.serverId == w.lastPlaybackServer && cur.serverId != w.lastPlaybackServer
            else decide (cur.rank ≤ s.rank)

/-- The admitted session goes, if it is another. -/
def displace (i : ι) : World ι :=
  match w.admitted with
  | none => { w.streamOff with synced := false }
  | some k =>
      if k = i then w
      else
        match w.sessions k with
        | none => { w.streamOff with synced := false }
        | some cur =>
            { (w.set k (Session.goodbye { cur with admitted := false } .anotherServer)).streamOff
              with synced := false }

/-- `arbitrate`. -/
def arbitrate (i : ι) (s : Session) : Bool × World ι :=
  if w.wins i s then
    (true, { (w.displace i).set i { s with admitted := true } with admitted := some i })
  else (false, w.set i (s.goodbye .concurrentAttempt))

/-! ### `server/activate` -/

/-- The roles a server/activate names, if it does. -/
def activeRoles (j : Bytes) : Option Bytes := jsSection 512 j (txt "active_roles")

/-- What it does to the roles of the admitted session; they stay when it names none. -/
def takeRoles (s : Session) (j : Bytes) : Session :=
  match activeRoles j with
  | none => s
  | some sec =>
      let on := occurs (txt "player@v1") sec
      { s with
        stateSent := s.stateSent && !(on && !s.playerActive)
        playerActive := on }

/-- A server/activate that asks to pair. -/
def takePairing (s : Session) (j : Bytes) (rnd : Blob 32) : Session :=
  let s := { s with pairingIndex := s.pairingIndex + 1 }
  let method := ((jsSection 512 j (txt "pairing")).bind fun sec =>
    jsStr 32 sec (txt "method")).getD []
  if method = txt "pairing_psk" ∧ s.pskCat = .pairing then
    let s := { s with newPsk := rnd, pairing := true }
    let s := if s.spec then (s.sendJson (.pairInit s.pairingIndex)).2 else s
    (s.sendJson (.pairFinalize rnd)).2
  else (s.sendJson .pairAbort).2

/-- What it leaves of the stream: nothing, if the player role goes. -/
def rolesTaken (s : Session) (j : Bytes) (playback : Bool) : World ι :=
  let w := if playback then { w with lastPlaybackServer := s.serverId } else w
  if s.playerActive && !(takeRoles s j).playerActive then w.streamOff else w

/-- What it leaves of the session.  After a re-handshake a client/state that was held back is
sent. -/
def activateRecord (s : Session) (j : Bytes) (pairing rekeyed : Bool) (rnd : Blob 32) : Session :=
  let t := takeRoles s j
  let t := if rekeyed && s.playerActive && t.playerActive && t.stateOwed then w.sendState t else t
  let t := { t with pairing := false }
  if pairing then takePairing t j rnd else t

/-- The rest of a server/activate, once its session is admitted. -/
def activateAdmitted (i : ι) (s : Session) (j : Bytes) (playback pairing rekeyed : Bool)
    (rnd : Blob 32) : World ι :=
  (w.rolesTaken s j playback).set i
    ((w.rolesTaken s j playback).activateRecord s j pairing rekeyed rnd)

/-- What a server/activate says of what the server does. -/
def activities (j word : Bytes) : Bool :=
  ((jsSection 512 j (txt "activities")).map (occurs word)).getD false

/-- The record of a session that got a server/activate. -/
def activated (s : Session) (j : Bytes) : Session :=
  { s with
    quiet := false
    rank :=
      if activities j (txt "playback") then 2 else if activities j (txt "pairing") then 1 else 0
    activated := true }

/-- Unpaired access is off, and the session is not paired and wants more than to pair. -/
def turnedAway (s : Session) (j : Bytes) : Bool :=
  !w.unpairedOk && decide (s.pskCat ≠ .longterm) &&
    (activities j (txt "playback") || ((activeRoles j).map (occurs (txt "@v"))).getD false)

/-- `server/activate`. -/
def onActivate (i : ι) (s : Session) (j : Bytes) (rnd : Blob 32) : World ι :=
  let t := activated s j
  if w.turnedAway t j then w.set i (t.goodbye .pairingRequired)
  else if t.spec && activities j (txt "pairing") && decide (t.pskCat = .longterm) then
    w.set i (t.goodbye .unauthorized)
  else
    let r := if !s.activated then w.arbitrate i t else (true, w.set i t)
    let t := if !s.activated then { t with admitted := true } else t
    if r.1 && t.admitted then
      r.2.activateAdmitted i t j (activities j (txt "playback")) (activities j (txt "pairing"))
        s.quiet rnd
    else r.2

/-! ### The other messages -/

/-- `sendspin_volume_changed`, as `core_set_volume` calls it. -/
def volumeChanged : World ι :=
  match w.admitted with
  | none => w
  | some k =>
      match w.sessions k with
      | none => w
      | some s =>
          if s.activated && s.playerActive && s.stateSent then w.set k (w.sendStateVol s w.vol)
          else w

/-- `(int)a`. -/
def toInt (a : ℤ) : ℤ := (Int32.ofInt a).toInt

/-- The key of the delay, and of the command that sets it. -/
def delayKey (s : Session) : Bytes :=
  if s.spec then txt "output_delay_ms" else txt "static_delay_ms"

def delayCommand (s : Session) : Bytes :=
  if s.spec then txt "set_output_delay" else txt "set_static_delay"

/-- What a server/command changes. -/
def obey (s : Session) (sec cmd : Bytes) : World ι :=
  if cmd = txt "volume" ∧ (jsI64 sec (txt "volume")).isSome then
    volumeChanged { w with vol := clamp100 (toInt ((jsI64 sec (txt "volume")).getD 0)) }
  else if cmd = txt "mute" ∧ (jsI64 sec (txt "mute")).isSome then
    { w with muted := (jsI64 sec (txt "mute")).getD 0 ≠ 0 }
  else if cmd = delayCommand s then
    match jsI64 sec (delayKey s) with
    | some a =>
        if s.spec || decide (0 ≤ a ∧ a ≤ 5000) then { w with delay := max 0 (min a 5000) } else w
    | none => w
  else w

/-- `server/command`.  While a change of the volume is under way it waits for `core_lock`. -/
def onCommand (i : ι) (s : Session) (j : Bytes) : World ι :=
  if !s.playerActive || w.call.isSome then w
  else
    match jsSection 512 j (txt "player") with
    | none => w
    | some sec =>
        match jsStr 64 sec (txt "command") with
        | none => w
        | some cmd =>
            let w := w.obey s sec cmd
            match w.sessions i with
            | none => w
            | some s => w.set i (w.sendState s)

/-- `stream/start`. -/
def onStreamStart (i : ι) (s : Session) (j : Bytes) (g : Got) : World ι :=
  if !s.playerActive then w
  else
    match jsSection 512 j (txt "player") with
    | none => w
    | some sec =>
        let codec := (jsStr 64 sec (txt "codec")).getD g.junkText
        if (jsI64 sec (txt "sample_rate")).getD g.junk ≠ 48000 ∨
            (jsI64 sec (txt "channels")).getD g.junk ≠ 2 ∨
            (codec ≠ txt "opus" ∧ (jsI64 sec (txt "bit_depth")).getD g.junk ≠ 16) ∨
            g.opens = false then w
        else
          { w.set i (s.sendJson .time).2 with
            streamOn := true
            queue := if w.streamOn then w.queue else [] }

/-- Whether a stream/clear or a stream/end is for the player. -/
def forPlayer (j : Bytes) : Bool :=
  ((jsSection 512 j (txt "roles")).map (occurs (txt "player"))).getD true

/-- `record_put`. -/
def recordPut (psk : Blob 32) (serverId : Bytes) : World ι :=
  { w with
    records := (psk, serverId) ::
      ((w.records.filter fun r => r.2 ≠ serverId).take (maxRecords - 1)) }

/-- `record_drop`. -/
def recordDrop (serverId : Bytes) : World ι :=
  { w with records := w.records.filter fun r => r.2 ≠ serverId }

/-- The types of messages that `on_json` knows.  What only moves the clock filter, the controller
or the screen is left out. -/
inductive MsgType
  | handshake
  | hello
  | activate
  | pairFinalize
  | pairAbort
  | unpair
  | command
  | streamStart
  | streamClear
  | streamEnd
  | other

/-- The type a message names. -/
def msgType (j : Bytes) : MsgType :=
  let type := (jsStr 48 j (txt "type")).getD []
  if type = txt "noise/handshake" then .handshake
  else if type = txt "server/hello" then .hello
  else if type = txt "server/activate" then .activate
  else if type = txt "server/pair-finalize" then .pairFinalize
  else if type = txt "pair/abort" then .pairAbort
  else if type = txt "server/unpair" then .unpair
  else if type = txt "server/command" then .command
  else if type = txt "stream/start" then .streamStart
  else if type = txt "stream/clear" then .streamClear
  else if type = txt "stream/end" then .streamEnd
  else .other

/-- `on_json`; what concerns the player belongs to the admitted session. -/
def onJson (K : Keys) (i : ι) (s : Session) (j : Bytes) (g : Got) : World ι :=
  match msgType j with
  | .handshake => w.set i (w.rehandshake K s j g)
  | .hello => w.set i (s.sendJsonForced (.hello w.unpairedOk))
  | .activate => w.onActivate i s j g.rnd
  | .pairFinalize =>
      if s.pairing then (w.recordPut s.newPsk s.serverId).set i { s with pairing := false } else w
  | .pairAbort => w.set i { s with pairing := false }
  | .unpair =>
      if s.pskCat = .longterm then (w.recordDrop s.serverId).set i (s.goodbye .unpaired) else w
  | .command => if s.admitted then w.onCommand i s j else w
  | .streamStart => if s.admitted then w.onStreamStart i s j g else w
  | .streamClear => if s.admitted && forPlayer j then { w with queue := [] } else w
  | .streamEnd => if s.admitted && forPlayer j then w.streamOff else w
  | .other => w

/-! ### Binary messages -/

/-- The bytes of the audio that is queued. -/
def queueBytes : ℕ := (w.queue.map fun c => c.2.2.length).sum

/-- `q_push`. -/
def qPush (i : ι) (ts : ℤ) (pcm : Bytes) : World ι :=
  let len := pcm.length - pcm.length % 4
  if len = 0 ∨ w.streamOn = false ∨ queueMax < w.queueBytes + len then w
  else { w with queue := w.queue ++ [(i, ts, pcm.take len)] }

/-- The server's time in an audio message. -/
def audioTime (m : Bytes) : ℤ :=
  (UInt64.ofNat (Wire.ofLe ((m.drop 1).take 8).reverse)).toInt64.toInt

/-- What stands before the audio of a message: its type, the time, and in 1.0 the send-ahead. -/
def audioHead (s : Session) : ℕ := if s.spec then 13 else 9

/-- `on_message`: whether the session goes on. -/
def onMessage (K : Keys) (i : ι) (s : Session) (m : Bytes) (g : Got) : Bool × World ι :=
  match m with
  | [] => (true, w)
  | 0 :: j => (true, w.onJson K i s (j.takeWhile (· ≠ nul)) g)
  | 4 :: _ =>
      if m.length < audioHead s then (!s.spec, w)
      else if m.length = audioHead s ∨ s.admitted = false ∨ s.playerActive = false then (true, w)
      else (true, if w.streamOn then w.qPush i (audioTime m) g.pcm else w)
  | _ => (true, w)

/-- Whether a fragment is the first one. -/
def fragFirst (s : Session) (p : Bytes) : Bool :=
  if s.spec then decide ((p.getD 1 0).toNat / 2 % 2 = 1) else s.frag.isNone && p.head? == some 2

/-- Whether it is the last one. -/
def fragLast (s : Session) (p : Bytes) : Bool :=
  if s.spec then decide ((p.getD 1 0).toNat % 2 = 1) else p.head? == some 3

/-- Where its data starts. -/
def fragOff (s : Session) : ℕ := if s.spec then 2 else 1

/-- What was put together before it. -/
def fragPart (s : Session) (p : Bytes) : Bytes := if fragFirst s p then [] else s.frag.getD []

/-- A broken sequence: flags there are none of, a first fragment while one is open or a later
one with none, a type that is a fragment's, or too much of it. -/
def fragBroken (s : Session) (p : Bytes) : Bool :=
  s.spec && (decide (p.length < 2) || decide (4 ≤ (p.getD 1 0).toNat)) ||
    fragFirst s p == s.frag.isSome ||
    fragFirst s p && (decide (p.length < fragOff s + 1) || p.getD (fragOff s) 0 == 1 ||
      !s.spec && (p.getD (fragOff s) 0 == 2 || p.getD (fragOff s) 0 == 3)) ||
    decide (fragMax < (fragPart s p).length + (p.length - fragOff s))

/-- `on_fragment`: whether the session goes on. -/
def onFragment (K : Keys) (i : ι) (s : Session) (p : Bytes) (g : Got) : Bool × World ι :=
  if fragBroken s p then (false, w)
  else if fragLast s p then
    (w.set i { s with frag := none }).onMessage K i { s with frag := none }
      (fragPart s p ++ p.drop (fragOff s)) g
  else (true, w.set i { s with frag := some (fragPart s p ++ p.drop (fragOff s)) })

/-- Whether a message is a fragment of one. -/
def isFragment (s : Session) (p : Bytes) : Bool :=
  if s.spec then p.head? == some 1 else p.head? == some 2 || p.head? == some 3

/-- What the thread of a session does with a message it decrypted. -/
def receive (K : Keys) (i : ι) (s : Session) (g : Got) : Bool × World ι :=
  if g.plain = [] then (false, w)
  else if isFragment s g.plain then w.onFragment K i s g.plain g
  else if s.frag.isSome then (false, w)
  else w.onMessage K i s g.plain g

/-- A message comes.  The loop looks at `closing` before it waits for one, so one more may come
after that was set; what is malformed ends the loop. -/
def message (K : Keys) (i : ι) (g : Got) : World ι :=
  match w.sessions i with
  | none => w
  | some s =>
      if s.closing && s.late then w
      else
        let s := if s.closing then { s with late := true } else s
        let r := (w.set i s).receive K i s g
        if r.1 then r.2
        else
          match r.2.sessions i with
          | none => r.2
          | some s => r.2.set i { s with closing := true, late := true }

/-! ### From outside -/

/-- A server dials, and its handshake is done. -/
def connect (K : Keys) (i : ι) (serverId payload : Bytes) : World ι :=
  match w.sessions i with
  | some _ => w
  | none =>
      match w.noiseRespond K { serverId := serverId, spec := false, pskCat := .sentinel } payload
          true with
      | none => w
      | some s =>
          { w.set i s with live := if w.live.length < nLive then i :: w.live else w.live }

/-- A session ends. -/
def ends (i : ι) : World ι :=
  let w := if w.admitted = some i then { w.streamOff with admitted := none } else w
  { w with sessions := update w.sessions i none, live := w.live.erase i }

/-- A session that read the old answer in our hello and does not ask again. -/
def waitsIdle (i : ι) (s : Session) : Bool :=
  decide (i ∈ w.live) && decide (s.pskCat ≠ .longterm) && !s.playerActive && !s.pairing &&
    !s.closing

/-- `sendspin_unpaired`. -/
def unpaired (set : Bool) : World ι :=
  let v := { w with
    unpairedOk := set
    sessions := fun k => (w.sessions k).map fun s =>
      if w.unpairedOk ≠ set ∧ w.waitsIdle k s then { s with closing := true } else s }
  if set then v
  else
    match v.admitted with
    | none => v
    | some k =>
        match v.sessions k with
        | none => v
        | some s =>
            if s.pskCat ≠ .longterm ∧ s.pairing = false ∧ s.closing = false then
              { (v.set k (Session.goodbye { s with admitted := false } .pairingRequired)).streamOff
                with admitted := none }
            else v

/-- The volume changes, and `sendspin_volume_changed` looks at the admitted session. -/
def volume (v : Level) : World ι :=
  if w.call.isSome then w
  else
    { w with
      vol := v
      call := w.admitted.bind fun k => (w.sessions k).bind fun s =>
        if s.activated && s.playerActive && s.stateSent then some (k, v) else none }

/-- It tells the server. -/
def volumeTold : World ι :=
  match w.call with
  | none => w
  | some (k, v) =>
      match w.sessions k with
      | none => { w with call := none }
      | some s => { w.set k (w.sendStateVol s v) with call := none }

/-- The time thread of a session is at the top of its loop. -/
def timeGate (i : ι) : World ι :=
  match w.sessions i with
  | none => w
  | some s =>
      if !s.closing && s.activated && s.admitted && !s.pairing then
        w.set i { s with timing := true }
      else w

/-- It sends what is due; `ok`: the clock filter was of use when it looked. -/
def timeTold (i : ι) (due ok : Bool) : World ι :=
  match w.sessions i with
  | none => w
  | some s =>
      if s.timing then
        let s := { (s.sendJson .time).2 with timing := false }
        w.set i (if s.playerActive && !s.stateSent && due then w.sendState s
          else if s.playerActive && !s.availableSent && ok then w.sendState s
          else s)
      else w

end World

/-- What happens to the sessions. -/
inductive Ev (ι : Type)
  | connect (i : ι) (serverId payload : Bytes)
  | message (i : ι) (g : Got)
  | ends (i : ι)
  /-- Unpaired access is switched on the settings page. -/
  | unpaired (set : Bool)
  /-- The volume changes, and the server is told. -/
  | volume (v : Level)
  | volumeTold
  /-- A round of the time thread of a session. -/
  | timeGate (i : ι)
  | timeTold (i : ι) (due ok : Bool)
  /-- The clock filter converges, or is lost. -/
  | clock (synced : Bool)
  /-- The player takes a chunk. -/
  | played

/-- One step. -/
def World.step (K : Keys) (w : World ι) : Ev ι → World ι
  | .connect i serverId payload => w.connect K i serverId payload
  | .message i g => w.message K i g
  | .ends i => w.ends i
  | .unpaired set => w.unpaired set
  | .volume v => w.volume v
  | .volumeTold => w.volumeTold
  | .timeGate i => w.timeGate i
  | .timeTold i due ok => w.timeTold i due ok
  | .clock synced => { w with synced := synced }
  | .played => { w with queue := w.queue.tail }

/-- Before any server dialled. -/
def World.start (ι : Type) (lastPlaybackServer : Bytes) (unpairedOk : Bool)
    (records : List (Blob 32 × Bytes)) (vol : Level) (delay : ℤ) : World ι where
  sessions _ := none
  admitted := none
  live := []
  streamOn := false
  queue := []
  lastPlaybackServer := lastPlaybackServer
  unpairedOk := unpairedOk
  records := records
  vol := vol
  muted := false
  delay := delay
  synced := false
  call := none

/-! ### What a message can do -/

namespace World

/-- What `on_json` can do. -/
inductive Does (K : Keys) (w : World ι) (i : ι) (s : Session) (j : Bytes) (g : Got) :
    World ι → Prop
  | nothing : Does K w i s j g w
  | rehandshake : Does K w i s j g (w.set i (w.rehandshake K s j g))
  | hello : Does K w i s j g (w.set i (s.sendJsonForced (.hello w.unpairedOk)))
  | activate : Does K w i s j g (w.onActivate i s j g.rnd)
  | paired : Does K w i s j g
      ((w.recordPut s.newPsk s.serverId).set i { s with pairing := false })
  | abort : Does K w i s j g (w.set i { s with pairing := false })
  | unpair : s.pskCat = .longterm →
      Does K w i s j g ((w.recordDrop s.serverId).set i (s.goodbye .unpaired))
  | command : s.admitted = true → Does K w i s j g (w.onCommand i s j)
  | streamStart : s.admitted = true → Does K w i s j g (w.onStreamStart i s j g)
  | clear : s.admitted = true → Does K w i s j g { w with queue := [] }
  | streamEnd : s.admitted = true → Does K w i s j g w.streamOff

theorem does_onJson (K : Keys) (w : World ι) (i : ι) (s : Session) (j : Bytes) (g : Got) :
    Does K w i s j g (w.onJson K i s j g) := by
  unfold onJson
  cases msgType j with
  | handshake => exact .rehandshake
  | hello => exact .hello
  | activate => exact .activate
  | pairFinalize =>
    simp only
    split
    · exact .paired
    · exact .nothing
  | pairAbort => exact .abort
  | unpair =>
    simp only
    split
    · next hcat => exact .unpair hcat
    · exact .nothing
  | command =>
    simp only
    split
    · next hadm => exact .command hadm
    · exact .nothing
  | streamStart =>
    simp only
    split
    · next hadm => exact .streamStart hadm
    · exact .nothing
  | streamClear =>
    simp only
    split
    · next hadm => exact .clear (Bool.and_eq_true_iff.mp hadm).1
    · exact .nothing
  | streamEnd =>
    simp only
    split
    · next hadm => exact .streamEnd (Bool.and_eq_true_iff.mp hadm).1
    · exact .nothing
  | other => exact .nothing

/-- What a whole message can do. -/
inductive Handles (K : Keys) (w : World ι) (i : ι) (s : Session) (g : Got) : World ι → Prop
  | nothing : Handles K w i s g w
  | json {j v} : Does K w i s j g v → Handles K w i s g v
  | audio {ts} : s.admitted = true → s.playerActive = true →
      Handles K w i s g (w.qPush i ts g.pcm)

theorem handles_onMessage (K : Keys) (w : World ι) (i : ι) (s : Session) (m : Bytes) (g : Got) :
    Handles K w i s g (w.onMessage K i s m g).2 := by
  unfold onMessage
  split
  · exact .nothing
  · exact .json (does_onJson K w i s _ g)
  · split
    · exact .nothing
    · split
      · exact .nothing
      · next hplays =>
        simp only [not_or, Bool.not_eq_false] at hplays
        split
        · exact .audio hplays.2.1 hplays.2.2
        · exact .nothing
  · exact .nothing

/-- A message finds the session as it was but for the fragments it is put together of. -/
theorem handles_receive (K : Keys) (w : World ι) (i : ι) (s : Session) (g : Got) :
    ∃ frag, Handles K (w.set i { s with frag := frag }) i { s with frag := frag } g
      ((w.set i s).receive K i s g).2 := by
  have hset : ∀ t, (w.set i s).set i t = w.set i t := by
    intro t
    unfold set
    simp only [update_idem]
  unfold receive
  split
  · exact ⟨s.frag, .nothing⟩
  · split
    · -- a fragment, and maybe the last one
      unfold onFragment
      split
      · exact ⟨s.frag, .nothing⟩
      · rw [hset, hset]
        split
        · exact ⟨none, handles_onMessage ..⟩
        · exact ⟨_, .nothing⟩
    · split
      · exact ⟨s.frag, .nothing⟩
      · exact ⟨s.frag, handles_onMessage ..⟩

/-- What a message does: nothing, or what it says, done to a session that may have been told to
close before; and the session may have to close for it. -/
theorem message_cases (K : Keys) (w : World ι) (i : ι) (g : Got) :
    w.message K i g = w ∨
    ∃ s late frag v, w.sessions i = some s ∧
      Handles K (w.set i { s with late := late, frag := frag }) i
        { s with late := late, frag := frag } g v ∧
      (w.message K i g = v ∨ ∃ t, v.sessions i = some t ∧
        w.message K i g = v.set i { t with closing := true, late := true }) := by
  unfold message
  cases hi : w.sessions i with
  | none => exact .inl rfl
  | some s =>
    simp only
    split
    · exact .inl rfl
    · right
      have hlate : ∃ late, (if s.closing then { s with late := true } else s)
          = { s with late := late } := by
        split
        · exact ⟨true, rfl⟩
        · exact ⟨s.late, rfl⟩
      obtain ⟨late, hlate⟩ := hlate
      rw [hlate]
      obtain ⟨frag, hv⟩ := handles_receive K w i { s with late := late } g
      refine ⟨s, late, frag, _, rfl, hv, ?_⟩
      split
      · exact .inl rfl
      · split
        · exact .inl rfl
        · next t ht => exact .inr ⟨t, ht, rfl⟩

end World

end Hassmic.Sendspin
