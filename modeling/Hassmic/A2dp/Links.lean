import Hassmic.Lib.Runs
import Hassmic.Lib.Wire

/-!
# Bluetooth links and their channels

The Echo is a loudspeaker for phones and plays to a loudspeaker itself.  Both ways go over links of
up to six channels each, which are asked for, configured in both directions and closed by signalling
commands; a device is free to send any of them at any time.  A channel that is configured both ways
is opened: it becomes the signalling channel of the audio, its media channel, or the remote control.

Before the link is encrypted only the channel of the service records may be had.  Others wait as
pending channels until the link is.

## Main definitions

* `Chan`, `Link`, `Av`, `Out`, `World` — the channels, the links, the stream from a phone, the
  stream to a speaker, and all of them.
* `World.chanOpened`, `World.chanClosed` — the hooks.
* `World.sigCmd`, `World.sigRx` — a signalling command, and a packet of them.
-/

namespace Hassmic.A2dp

open Wire (le)
open Function (update update_of_ne update_self)

/-! ### Bytes -/

/-- A byte of a packet. -/
def byteAt (p : Bytes) (i : ℕ) : UInt8 := p.getD i 0

/-- `u16`. -/
def u16 (p : Bytes) (i : ℕ) : ℕ := (byteAt p i).toNat + 256 * (byteAt p (i + 1)).toNat

/-- `put16`. -/
def put16 (v : ℕ) : Bytes := le 2 v

/-- An option, or a capability: type, length and what is there of its value. -/
structure Tlv where
  type : UInt8
  len : ℕ
  val : Bytes

/-- All of its value is there. -/
def Tlv.whole (t : Tlv) : Bool := t.val.length = t.len

/-- The options of a packet; only the last one may be cut off. -/
def tlvs : ℕ → Bytes → List Tlv
  | fuel + 1, a :: b :: rest => ⟨a, b.toNat, rest.take b.toNat⟩ :: tlvs fuel (rest.drop b.toNat)
  | _, _ => []

/-! ### Data -/

abbrev maxLinks : ℕ := 3
abbrev maxChans : ℕ := 6

/-- A link, by its place. -/
abbrev Slot := Fin maxLinks

/-- A channel of a link. -/
abbrev Place := Fin maxChans

abbrev psmSdp : ℕ := 0x0001
abbrev psmAvctp : ℕ := 0x0017
abbrev psmAvdtp : ℕ := 0x0019

/-- The name that we give a channel. -/
def lcid (i : Slot) (j : Place) : ℕ := 0x40 + j + 8 * i

theorem lcid_ne_zero (i : Slot) (j : Place) : lcid i j ≠ 0 := by
  unfold lcid
  omega

theorem lcid_inj {i : Slot} {j k : Place} (h : lcid i j = lcid i k) : j = k := by
  unfold lcid at h
  exact Fin.ext (by omega)

/-- `struct chan`; a free one is all zero. -/
structure Chan where
  used : Bool := false
  psm : ℕ := 0
  rcid : ℕ := 0
  rmtu : ℕ := 0
  cfgIn : Bool := false
  cfgOut : Bool := false
  pending : Bool := false
  pendId : ℕ := 0
  /-- The identifier of our connection request, awaiting the answer. -/
  outId : ℕ := 0
  deriving DecidableEq

/-- `struct link`; times are those of the clock, 0 is none.  `everEnc` is not in the code: the
controller reported the link encrypted at some time. -/
structure Link where
  used : Bool := false
  handle : ℕ := 0
  enc : Bool := false
  authSent : Bool := false
  dropping : Bool := false
  addr : ℕ := 0
  authAt : ℕ := 0
  pendUntil : ℕ := 0
  ch : Place → Chan := fun _ => {}
  nextId : ℕ := 0
  /-- Our name of the AVDTP signalling channel, 0 = none. -/
  avSig : ℕ := 0
  /-- When we open AVRCP ourselves if the device has not. -/
  avctpAt : ℕ := 0
  /-- Our name of the AVCTP channel, 0 = none. -/
  avctp : ℕ := 0
  everEnc : Bool := false

/-- `ST_IDLE`, `ST_CONFIGURED`, `ST_OPEN`, `ST_STREAMING`. -/
inductive AvState
  | idle
  | configured
  | opened
  | streaming
  deriving DecidableEq

/-- `av`: the stream that a phone plays to us. -/
structure Av where
  l : Option Slot := none
  state : AvState := .idle
  media : ℕ := 0
  rseid : ℕ := 0
  delay : Bool := false
  label : ℕ := 0
  sep : ℕ := 0
  cfg : Bytes := []

/-- `O_IDLE` to `O_SUSPEND`. -/
inductive Phase
  | idle
  | discover
  | caps
  | setconf
  | opens
  | acp
  | media
  | ready
  | start
  | streaming
  | suspend
  deriving DecidableEq

/-- Their order. -/
def Phase.num : Phase → ℕ
  | .idle => 0
  | .discover => 1
  | .caps => 2
  | .setconf => 3
  | .opens => 4
  | .acp => 5
  | .media => 6
  | .ready => 7
  | .start => 8
  | .streaming => 9
  | .suspend => 10

/-- The stream is there. -/
def Phase.isReady (p : Phase) : Bool := Phase.ready.num ≤ p.num

/-- `A_NO` to `A_ON`. -/
inductive Absvol
  | no
  | unknown
  | asked
  | pending
  | on
  deriving DecidableEq

/-- `out`: the stream that we play to a speaker. -/
structure Out where
  addr : ℕ := 0
  on : Bool := false
  l : Option Slot := none
  phase : Phase := .idle
  label : ℕ := 0
  /-- Our command that awaits its answer, 0 = none, and when it was sent. -/
  sig : ℕ := 0
  sentAt : ℕ := 0
  seps : List ℕ := []
  sepI : ℕ := 0
  rseid : ℕ := 0
  bpMin : ℕ := 0
  bitpool : ℕ := 0
  media : ℕ := 0
  mtu : ℕ := 0
  /-- The signalling channel that we opened, and when; when we configure. -/
  sigLcid : ℕ := 0
  sigAt : ℕ := 0
  intAt : ℕ := 0
  absvol : Absvol := .unknown
  sentV : ℕ := 0
  avolAt : ℕ := 0
  nextPage : ℕ := 0
  paging : Bool := false
  failures : ℕ := 0
  pairing : Bool := false

/-- What of AVRCP is kept for a link: the next label of ours, the label of the notification that the
device has registered for, and the volume that it knows. -/
structure Remote where
  avLabel : ℕ := 0
  volLabel : Option ℕ := none
  volPct : ℕ := 0

/-- The volumes: of the Echo, of the speaker, and those handed to the volume thread. -/
structure Volumes where
  echo : Option ℕ := none
  out : Option ℕ := none
  want : Option ℕ := none
  speaker : Option ℕ := none

/-- A codec of an endpoint: its type, its capabilities, and which configurations lie within them. -/
structure Codec where
  type : UInt8
  caps : Bytes
  check : Bytes → Bool

/-- What is called for a link. -/
inductive What
  | opened (psm : ℕ)
  | avdtp
  | avrcp
  | media
  deriving DecidableEq

/-- A call, and whether the link had been encrypted by then. -/
structure Call where
  slot : Slot
  what : What
  enc : Bool
  deriving DecidableEq

/-- A frame that was sent. -/
structure Frame where
  slot : Slot
  cid : ℕ
  pdu : Bytes
  deriving DecidableEq

/-- Whether a codec was opened or closed. -/
inductive CodecOp
  | opened (sep : ℕ)
  | closed (sep : ℕ)
  deriving DecidableEq

/-- A signalling command. -/
structure Cmd where
  code : ℕ
  id : ℕ
  d : Bytes

/-- What a configuration request comes to: the MTU, the result, and the options of the answer. -/
structure Config where
  rmtu : ℕ
  result : ℕ := 0
  options : Bytes := []

/-- Everything; what comes last is not in the code: the frames that were sent, what the codecs were
told and with which configuration the one in use was opened, the packets that went to the jitter
buffer, and the calls. -/
structure World where
  seps : List Codec
  links : Slot → Link := fun _ => {}
  av : Av := {}
  out : Out := {}
  streaming : Bool := false
  yielded : Bool := false
  avrcpLinks : ℤ := 0
  remote : Slot → Remote := fun _ => {}
  vol : Volumes := {}
  searching : Bool := false
  inquiring : Bool := false
  /-- The candidate of a search, and how strong it is. -/
  cand : Option (ℕ × ℤ) := none
  sent : List Frame := []
  codecs : List CodecOp := []
  openedWith : Bytes := []
  ring : List Bytes := []
  calls : List Call := []

/-! ### The stream to a speaker, by itself -/

namespace Out

variable (o : Out)

/-- `out_phase`. -/
def toPhase (p : Phase) : Out := { o with phase := p }

/-- `out_stream_reset`. -/
def streamReset : Out :=
  { o with absvol := .unknown, phase := .idle, media := 0, sig := 0, seps := [] }

/-- `out_fail`, without the link. -/
def fail (now : ℕ) : Out := { o.streamReset with nextPage := now + 30000 }

end Out

namespace World

variable (w : World)

/-! ### Links and frames -/

def setLink (i : Slot) (l : Link) : World := { w with links := update w.links i l }

def setChan (i : Slot) (j : Place) (c : Chan) : World :=
  w.setLink i { w.links i with ch := update (w.links i).ch j c }

@[simp] theorem links_setLink (i : Slot) (l : Link) : (w.setLink i l).links i = l := by
  simp only [setLink, update_self]

theorem links_setLink_of_ne {i k : Slot} (hk : k ≠ i) (l : Link) :
    (w.setLink i l).links k = w.links k := by
  simp only [setLink, update_of_ne hk]

@[simp] theorem ch_setChan (i : Slot) (j : Place) (c : Chan) :
    ((w.setChan i j c).links i).ch j = c := by
  simp only [setChan, links_setLink, update_self]

theorem ch_setChan_of_ne (i : Slot) {j k : Place} (hk : k ≠ j) (c : Chan) :
    ((w.setChan i j c).links i).ch k = (w.links i).ch k := by
  simp only [setChan, links_setLink, update_of_ne hk]

/-- `link_by`. -/
def linkBy (handle : ℕ) : Option Slot :=
  (List.finRange maxLinks).find? fun i => (w.links i).used && (w.links i).handle = handle

/-- `chan_by`. -/
def chanBy (i : Slot) (cid : ℕ) : Option Place :=
  (List.finRange maxChans).find? fun j => ((w.links i).ch j).used && lcid i j = cid

theorem of_chanBy {i : Slot} {cid : ℕ} {j : Place} (h : w.chanBy i cid = some j) :
    ((w.links i).ch j).used = true ∧ lcid i j = cid := by
  have hj := List.find?_some h
  simpa only [Bool.and_eq_true, decide_eq_true_eq] using hj

/-- `is_speaker`. -/
def isSpeaker (i : Slot) : Bool := w.out.addr ≠ 0 && (w.links i).addr = w.out.addr

/-- `l2_send`. -/
def l2Send (i : Slot) (cid : ℕ) (pdu : Bytes) : World :=
  if pdu.length ≤ 1024 then { w with sent := w.sent ++ [⟨i, cid, pdu⟩] } else w

/-- `sig_send`. -/
def sigSend (i : Slot) (code : UInt8) (id : ℕ) (d : Bytes) : World :=
  if d.length ≤ 60 then w.l2Send i 1 ([code, id.toUInt8] ++ put16 d.length ++ d) else w

/-- The next identifier of ours. -/
def bumpId (i : Slot) : World :=
  w.setLink i
    { w.links i with nextId := if 255 < (w.links i).nextId + 1 then 1 else (w.links i).nextId + 1 }

/-- `config_request`. -/
def configRequest (i : Slot) (j : Place) : World :=
  let w := w.bumpId i
  w.sigSend i 0x04 (w.links i).nextId
    (put16 ((w.links i).ch j).rcid ++ put16 0 ++ [0x01, 2] ++ put16 1024)

/-- `conn_response`. -/
def connResponse (i : Slot) (id lcid rcid result status : ℕ) : World :=
  w.sigSend i 0x03 id (put16 lcid ++ put16 rcid ++ put16 result ++ put16 status)

/-- A call is noted. -/
def called (i : Slot) (what : What) : World :=
  { w with calls := w.calls ++ [⟨i, what, (w.links i).everEnc⟩] }

/-! ### The hooks -/

/-- `set_streaming`. -/
def setStreaming (b : Bool) : World := { w with streaming := b }

/-- `av_reset`. -/
def avReset : World :=
  { w with
    streaming := false
    codecs := w.codecs ++ if w.av.l.isSome then [.closed w.av.sep] else []
    av := { w.av with l := none, state := .idle, media := 0, delay := false, sep := 0 } }

/-- `chan_opened`, the part of AVCTP. -/
def avctpOpened (i : Slot) (j : Place) : World :=
  if ((w.links i).ch j).psm = psmAvctp ∧ (w.links i).avctp = 0 then
    { w.setLink i { w.links i with avctp := lcid i j } with
      remote := update w.remote i { w.remote i with volLabel := none }
      avrcpLinks := w.avrcpLinks + 1 }
  else w

/-- `chan_opened`, the part of AVDTP. -/
def avdtpOpened (now : ℕ) (i : Slot) (j : Place) : World :=
  if ((w.links i).ch j).psm ≠ psmAvdtp then w
  else if (w.links i).avSig = 0 then
    -- it opened it: let it configure
    { w.setLink i { w.links i with
        avSig := lcid i j
        avctpAt := if (w.links i).avctp = 0 then now + 2000 else (w.links i).avctpAt } with
      out := if w.isSpeaker i then
          { w.out with intAt := now + if lcid i j = w.out.sigLcid then 0 else 1500 }
        else w.out }
  else if w.isSpeaker i then
    if w.out.l = some i ∧ w.out.phase = .media ∧ w.out.media = 0 then
      { w with out := { w.out with
          media := lcid i j
          mtu := min ((w.links i).ch j).rmtu 1024
          phase := .ready } }
    else w
  else if w.av.l = some i ∧ w.av.state = .opened ∧ w.av.media = 0 then
    { w with av := { w.av with media := lcid i j } }
  else w

/-- `chan_opened`. -/
def chanOpened (now : ℕ) (i : Slot) (j : Place) : World :=
  ((w.called i (.opened ((w.links i).ch j).psm)).avctpOpened i j).avdtpOpened now i j

/-- `chan_closed`, the part of AVCTP. -/
def avctpClosed (i : Slot) (j : Place) : World :=
  if lcid i j = (w.links i).avctp then
    { w.setLink i { w.links i with avctp := 0 } with
      avrcpLinks := w.avrcpLinks - 1
      out := if w.out.l = some i then { w.out with absvol := .unknown } else w.out }
  else w

/-- `chan_closed`, the part of AVDTP. -/
def avdtpClosed (now : ℕ) (i : Slot) (j : Place) : World :=
  if lcid i j = (w.links i).avSig then
    let w := w.setLink i { w.links i with avSig := 0 }
    let w := if w.av.l = some i then w.avReset else w
    if w.out.l = some i then
      { w with out := { w.out.streamReset with sigLcid := 0, intAt := 0 } } else w
  else if w.out.l = some i ∧ lcid i j = w.out.media then
    { w with out := { w.out.streamReset with intAt := now + 2000 } }
  else if w.av.l = some i ∧ lcid i j = w.av.media then
    if w.av.state = .opened ∨ w.av.state = .streaming then
      { w with av := { w.av with media := 0, state := .configured }, streaming := false }
    else { w with av := { w.av with media := 0 } }
  else w

/-- `chan_closed`. -/
def chanClosed (now : ℕ) (i : Slot) (j : Place) : World := (w.avctpClosed i j).avdtpClosed now i j

/-- `chan_free`. -/
def chanFree (now : ℕ) (i : Slot) (j : Place) : World :=
  let c := (w.links i).ch j
  (if c.cfgIn && c.cfgOut then w.chanClosed now i j else w).setChan i j {}

/-! ### Signalling -/

/-- The first free place of a link. -/
def freePlace (i : Slot) : Option Place :=
  (List.finRange maxChans).find? fun j => !((w.links i).ch j).used

theorem of_freePlace {i : Slot} {j : Place} (h : w.freePlace i = some j) :
    ((w.links i).ch j).used = false := by
  simpa only [Bool.not_eq_true'] using List.find?_some h

/-- `chan_open`: a channel of ours; with no room nothing happens. -/
def chanOpen (i : Slot) (psm : ℕ) : World :=
  match w.freePlace i with
  | none => w
  | some j =>
      let w := w.bumpId i
      let id := (w.links i).nextId
      (w.setChan i j { used := true, psm := psm, rmtu := 672, outId := id }).sigSend i 0x02 id
        (put16 psm ++ put16 (lcid i j))

/-- `pending_resolve`, one channel. -/
def pendingPlace (i : Slot) (ok : Bool) (j : Place) : World :=
  let c := (w.links i).ch j
  if !c.used || !c.pending then w
  else if ok then
    ((w.setChan i j { c with pending := false }).connResponse i c.pendId (lcid i j)
      c.rcid 0 0).configRequest i j
  else (w.connResponse i c.pendId 0 c.rcid 3 0).setChan i j {}

/-- `pending_resolve`. -/
def pendingResolve (i : Slot) (ok : Bool) : World :=
  let w := (List.finRange maxChans).foldl (fun w j => w.pendingPlace i ok j) w
  w.setLink i { w.links i with authAt := 0, pendUntil := 0, authSent := false }

/-- `conn_request`. -/
def connRequest (now : ℕ) (i : Slot) (id : ℕ) (d : Bytes) : World :=
  if d.length < 4 then w
  else
    let psm := u16 d 0
    let rcid := u16 d 2
    if psm ≠ psmSdp ∧ psm ≠ psmAvdtp ∧ psm ≠ psmAvctp then w.connResponse i id 0 rcid 2 0
    else
      match w.freePlace i with
      | none => w.connResponse i id 0 rcid 4 0
      | some j =>
          let c : Chan := { used := true, psm := psm, rcid := rcid, rmtu := 672 }
          if psm ≠ psmSdp ∧ (w.links i).enc = false then
            -- authenticated and encrypted first
            let w := w.setChan i j { c with pending := true, pendId := id }
            let w := if (w.links i).pendUntil = 0 then
                w.setLink i { w.links i with authAt := now + 1000, pendUntil := now + 15000 }
              else w
            w.connResponse i id (lcid i j) rcid 1 1
          else ((w.setChan i j c).connResponse i id (lcid i j) rcid 0 0).configRequest i j

/-- `config_req_rx`, the options. -/
def configOptions : List Tlv → Config → Config
  | [], k => k
  | t :: ts, k =>
      if !t.whole then k
      else
        let type := t.type &&& 0x7f
        if type = 0x01 ∧ 2 ≤ t.len then configOptions ts { k with rmtu := u16 t.val 0 }
        else if type = 0x04 ∧ 1 ≤ t.len ∧ byteAt t.val 0 ≠ 0 then
          -- not basic mode: offer basic
          { k with result := 1, options := [0x04, 9, 0, 0, 0, 0, 0, 0, 0, 0, 0] }
        else if type ≠ 0x02 ∧ type ≠ 0x03 ∧ type ≠ 0x05 ∧ t.type &&& 0x80 = 0 ∧
            6 + k.options.length + 2 + t.len ≤ 48 then
          configOptions ts
            { k with result := 3, options := k.options ++ [t.type, t.len.toUInt8] ++ t.val }
        else configOptions ts k

/-- `config_req_rx`. -/
def configReqRx (now : ℕ) (i : Slot) (id : ℕ) (d : Bytes) : World :=
  if d.length < 4 then w
  else
    match w.chanBy i (u16 d 0) with
    -- invalid CID
    | none => w.sigSend i 0x01 id ([0x02, 0x00] ++ put16 (u16 d 0) ++ put16 0)
    | some j =>
        let c := (w.links i).ch j
        let flags := u16 d 2
        let k := configOptions (tlvs d.length (d.drop 4)) { rmtu := c.rmtu }
        let w := (w.setChan i j { c with rmtu := k.rmtu }).sigSend i 0x05 id
          (put16 c.rcid ++ put16 (flags % 2) ++ put16 k.result ++ k.options)
        if k.result = 0 ∧ flags % 2 = 0 ∧ c.cfgIn = false then
          let w := w.setChan i j { c with rmtu := k.rmtu, cfgIn := true }
          if c.cfgOut then w.chanOpened now i j else w
        else w

/-- `sig_rx`, Configuration Response. -/
def configRsp (now : ℕ) (i : Slot) (d : Bytes) : World :=
  if d.length < 6 then w
  else
    match w.chanBy i (u16 d 0) with
    | none => w
    | some j =>
        let c := (w.links i).ch j
        if c.cfgOut then w
        else if u16 d 4 = 0 then
          let w := w.setChan i j { c with cfgOut := true }
          if c.cfgIn then w.chanOpened now i j else w
        else
          -- our MTU refused: take the default
          let w := w.bumpId i
          w.sigSend i 0x04 (w.links i).nextId (put16 c.rcid ++ put16 0)

/-- `sig_rx`, Connection Response; our name of the channel tells which one it is. -/
def connRsp (i : Slot) (id : ℕ) (d : Bytes) : World :=
  if d.length < 8 then w
  else
    match w.chanBy i (u16 d 2) with
    | none => w
    | some j =>
        let c := (w.links i).ch j
        if c.outId ≠ id then w
        -- pending: the final answer follows
        else if u16 d 4 = 1 then w
        else if u16 d 4 = 0 then
          (w.setChan i j { c with outId := 0, rcid := u16 d 0 }).configRequest i j
        else w.setChan i j {}

/-- `sig_rx`, Command Reject: of our connection request, maybe. -/
def cmdReject (i : Slot) (id : ℕ) : World :=
  w.setLink i { w.links i with
    ch := fun j =>
      if ((w.links i).ch j).used && ((w.links i).ch j).outId = id then {} else (w.links i).ch j }

/-- `sig_rx`, one command. -/
def sigCmd (now : ℕ) (i : Slot) (x : Cmd) : World :=
  match x.code with
  | 0x02 => w.connRequest now i x.id x.d
  | 0x04 => w.configReqRx now i x.id x.d
  | 0x05 => w.configRsp now i x.d
  | 0x06 =>
      if x.d.length < 4 then w
      else
        let w := w.sigSend i 0x07 x.id (x.d.take 4)
        match w.chanBy i (u16 x.d 0) with
        | none => w
        | some j => w.chanFree now i j
  | 0x08 => w.sigSend i 0x09 x.id (x.d.take 48)
  | 0x0a =>
      if x.d.length < 2 then w
      else if u16 x.d 0 = 2 then w.sigSend i 0x0b x.id (put16 2 ++ put16 0 ++ [0, 0, 0, 0])
      else w.sigSend i 0x0b x.id (put16 (u16 x.d 0) ++ put16 1)
  | 0x03 => w.connRsp i x.id x.d
  | 0x01 => w.cmdReject i x.id
  | 0x07 | 0x09 | 0x0b => w
  | _ => w.sigSend i 0x01 x.id [0, 0]

end World

/-- The commands of a packet. -/
def sigCmds : ℕ → Bytes → List Cmd
  | fuel + 1, a :: b :: c :: d :: rest =>
      let len := c.toNat + 256 * d.toNat
      if rest.length < len then []
      else ⟨a.toNat, b.toNat, rest.take len⟩ :: sigCmds fuel (rest.drop len)
  | _, _ => []

/-- `sig_rx`. -/
def World.sigRx (w : World) (now : ℕ) (i : Slot) (p : Bytes) : World :=
  (sigCmds p.length p).foldl (fun w x => w.sigCmd now i x) w

end Hassmic.A2dp
