import Hassmic.A2dp.Source

/-!
# Streams, remote control and what happens to them

The packets of a channel that is open go to the stream from a phone, to the stream to a speaker, to
the remote control or to the jitter buffer, by which channel of the link it is.  Beside packets
there are the events of the controller and the upkeep of the thread, whose parts come one by one: a
command to the controller may let events in between them.

## Main definitions

* `World.avRx` — the stream from a phone.
* `World.avrcpRx` — the remote control.
* `World.outRx` — the stream to a speaker.
* `Ev`, `World.step`, `World.run` — what happens, what it does, and runs.
-/

namespace Hassmic.A2dp

/-! ### The stream from a phone -/

/-- What a configuration comes to: an error or 0, the category at fault, the codec's part of it, and
whether delay reporting is asked for. -/
structure Conf where
  err : UInt8 := 0
  cat : UInt8 := 0
  cfg : Bytes
  got : Bool := false
  delay : Bool := false

/-- `av_config`. -/
def avConfig (codec : Codec) (reconf : Bool) : List Tlv → Conf → Conf
  | [], k => if !k.got && !reconf then { k with err := Err.unsupportedConf, cat := 7 } else k
  | t :: ts, k =>
      let k := { k with cat := t.type }
      if !t.whole then { k with err := Err.badServCategory }
      else if t.type = 1 ∧ !reconf then avConfig codec reconf ts k
      else if t.type = 8 ∧ !reconf then avConfig codec reconf ts { k with delay := true }
      else if t.type ≠ 7 then
        { k with err := if reconf then Err.invalidCapabilities else Err.badServCategory }
      else if t.len < 2 ∨ 16 < t.len - 2 ∨ byteAt t.val 0 / 16 ≠ 0 ∨ byteAt t.val 1 ≠ codec.type ∨
          !codec.check (t.val.drop 2) then
        { k with err := Err.unsupportedConf }
      else avConfig codec reconf ts { k with cfg := t.val.drop 2, got := true }

/-- `caps_of`. -/
def capsOf (c : Codec) (info : Bytes) (delay : Bool) : Bytes :=
  [1, 0, 7, (2 + info.length).toUInt8, 0x00, c.type] ++ info ++ if delay then [8, 0] else []

namespace World

variable (w : World)

/-- `sep_codec`. -/
def sepCodec (seid : ℕ) : Option Codec := if seid = 0 then none else w.seps[seid - 1]?

/-- `av_send`. -/
def avSend (i : Slot) (p : Bytes) : World :=
  match w.chanBy i (w.links i).avSig with
  | none => w
  | some j => w.l2Send i ((w.links i).ch j).rcid p

/-- `av_reply`. -/
def avReply (i : Slot) (label sig : ℕ) (accept : Bool) (d : Bytes) : World :=
  w.avSend i (Msg.bytes ⟨label, if accept then .accept else .reject, sig, d.take 46⟩)

/-- `delay_report`: 280 ms. -/
def delayReport (i : Slot) : World :=
  { w with av := { w.av with label := w.av.label + 1 } }.avSend i
    [((w.av.label + 1) % 16 * 16).toUInt8, Sig.delay.toUInt8, (w.av.rseid * 4).toUInt8, 0x0a, 0xf0]

/-- `av_rx`, Set Configuration; `ok` is what opening the codec comes to. -/
def avSetConf (ok : Bool) (i : Slot) (label seid : ℕ) (d : Bytes) : World :=
  match if d.length < 2 then none else w.sepCodec seid with
  | none => w.avReply i label Sig.setConf false [0, Err.badAcpSeid]
  | some codec =>
      if w.av.l.isSome then w.avReply i label Sig.setConf false [0, Err.sepInUse]
      else
        let k := avConfig codec false (tlvs d.length (d.drop 2)) { cfg := w.av.cfg }
        if k.err ≠ 0 then
          { w with av := { w.av with cfg := k.cfg } }.avReply i label Sig.setConf
            false [k.cat, k.err]
        else
          let av := { w.av with cfg := k.cfg, delay := k.delay }
          if !ok then
            { w with av := av }.avReply i label Sig.setConf false [7, Err.unsupportedConf]
          else
            let w := { w with
              codecs := w.codecs ++ [CodecOp.opened seid]
              openedWith := k.cfg
              av := { av with l := some i, sep := seid, state := .configured,
                              rseid := (byteAt d 1).toNat / 4 } }
            let w := w.avReply i label Sig.setConf true []
            if w.av.delay then w.delayReport i else w

/-- `av_rx`, Reconfigure, of the endpoint that the link has configured. -/
def avReconf (ok : Bool) (i : Slot) (label : ℕ) (codec : Codec) (d : Bytes) : World :=
  if w.av.state ≠ .opened then w.avReply i label Sig.reconf false [0, Err.badState]
  else
    let k := avConfig codec true (tlvs d.length (d.drop 1)) { cfg := w.av.cfg }
    if k.err ≠ 0 then
      { w with av := { w.av with cfg := k.cfg } }.avReply i label Sig.reconf false [k.cat, k.err]
    else if ok then
      { w with
        av := { w.av with cfg := k.cfg }
        codecs := w.codecs ++ [CodecOp.closed w.av.sep, CodecOp.opened w.av.sep]
        openedWith := k.cfg }.avReply i label Sig.reconf true []
    else
      ({ w with
        av := { w.av with cfg := k.cfg }
        codecs := w.codecs ++ [CodecOp.closed w.av.sep] }.avReply i label Sig.reconf false
          [7, Err.unsupportedConf]).avReset

/-- `av_rx`, Start and Suspend, of that endpoint. -/
def avStart (i : Slot) (label sig : ℕ) (d : Bytes) : World :=
  if sig = Sig.start then
    if w.av.state = .opened then
      ({ w with av := { w.av with state := .streaming }, yielded := false }.avReply i label sig true
        []).setStreaming true
    else if w.av.state = .streaming then w.avReply i label sig true []
    else w.avReply i label sig false [byteAt d 0, Err.badState]
  else
    if w.av.state = .streaming then
      ({ w with av := { w.av with state := .opened } }.avReply i label sig true
        []).setStreaming false
    else if w.av.state = .opened then w.avReply i label sig true []
    else w.avReply i label sig false [byteAt d 0, Err.badState]

/-- The endpoints, as Discover has them: taken by the stream, or by another source. -/
def sepList (mine : Bool) : Bytes :=
  (List.range w.seps.length).flatMap fun k =>
    [((k + 1) * 4 + if w.av.l.isSome && (!mine || w.av.sep = k + 1) then 2 else 0).toUInt8, 0x08]

/-- `av_rx`, a command. -/
def avCommand (ok : Bool) (i : Slot) (m : Msg) : World :=
  let mine := w.av.l = some i
  let seid := if m.d = [] then 0 else (byteAt m.d 0).toNat / 4
  -- the endpoint this link has configured
  let ours := mine ∧ seid = w.av.sep
  if m.sig = Sig.discover then w.avReply i m.label m.sig true (w.sepList mine)
  else if m.sig = Sig.getCap ∨ m.sig = Sig.getAllCap then
    match w.sepCodec seid with
    | none => w.avReply i m.label m.sig false [Err.badAcpSeid]
    | some codec => w.avReply i m.label m.sig true (capsOf codec codec.caps (m.sig = Sig.getAllCap))
  else if m.sig = Sig.setConf then w.avSetConf ok i m.label seid m.d
  else if m.sig = Sig.reconf then
    match if ours then w.sepCodec seid else none with
    | none => w.avReply i m.label m.sig false [Err.badAcpSeid]
    | some codec => w.avReconf ok i m.label codec m.d
  else if m.sig = Sig.getConf then
    match if ours then w.sepCodec seid else none with
    | none => w.avReply i m.label m.sig false [Err.badAcpSeid]
    | some codec => w.avReply i m.label m.sig true (capsOf codec w.av.cfg w.av.delay)
  else if m.sig = Sig.opens then
    if ¬ ours then w.avReply i m.label m.sig false [Err.badAcpSeid]
    else if w.av.state ≠ .configured then w.avReply i m.label m.sig false [Err.badState]
    -- the media channel comes next
    else { w with av := { w.av with state := .opened } }.avReply i m.label m.sig true []
  else if m.sig = Sig.start ∨ m.sig = Sig.suspend then
    if ¬ ours then w.avReply i m.label m.sig false [byteAt m.d 0, Err.badAcpSeid]
    else w.avStart i m.label m.sig m.d
  else if m.sig = Sig.close ∨ m.sig = Sig.abort then
    if m.sig = Sig.close ∧ ¬ ours then w.avReply i m.label m.sig false [Err.badAcpSeid]
    else
      let w := w.avReply i m.label m.sig true []
      -- the source closes the media channel itself
      if mine then w.avReset else w
  else if m.sig = Sig.delay ∨ m.sig = Sig.security then
    w.avReply i m.label m.sig false [Err.notSupported]
  else w.avSend i (Msg.bytes ⟨m.label, .generalReject, m.sig, []⟩)

/-- `av_rx`. -/
def avRx (ok : Bool) (i : Slot) (p : Bytes) : World :=
  match Msg.ofBytes p with
  | none => w
  -- answers to our delay reports
  | some m => if m.kind = .command then w.avCommand ok i m else w

/-- `media_rx`. -/
def mediaRx (p : Bytes) : World :=
  if w.streaming && !w.yielded then { w with ring := w.ring ++ [p] } else w

/-! ### Remote control -/

/-- `volume_now`. -/
def volumeNow : ℕ := w.vol.echo.getD 50

/-- `out_volume_now`. -/
def outVolumeNow : ℕ := w.vol.out.getD w.volumeNow

/-- A percentage on the scale of AVRCP, and back. -/
def toAbs (pct : ℕ) : ℕ := (pct * 127 + 50) / 100
def ofAbs (v : ℕ) : ℕ := (v * 100 + 63) / 127

/-- `avctp_send`. -/
def avctpSend (i : Slot) (label : ℕ) (response : Bool) (avc : Bytes) : World :=
  match w.chanBy i (w.links i).avctp with
  | none => w
  | some j =>
      if 45 < avc.length then w
      else w.l2Send i ((w.links i).ch j).rcid
        ([(label * 16 + if response then 2 else 0).toUInt8, 0x11, 0x0e] ++ avc)

/-- A frame of a vendor command. -/
def vendorFrame (code pdu : UInt8) (par : Bytes) : Bytes :=
  [code, 0x48, 0x00, 0x00, 0x19, 0x58, pdu, 0, (par.length / 256).toUInt8,
    par.length.toUInt8] ++ par

/-- `vendor_reply`. -/
def vendorReply (i : Slot) (label : ℕ) (code pdu : UInt8) (par : Bytes) : World :=
  w.avctpSend i label true (vendorFrame code pdu par)

def setRemote (i : Slot) (r : Remote) : World := { w with remote := Function.update w.remote i r }

/-- `out_vendor`. -/
def outVendor (ctype pdu : UInt8) (par : Bytes) : World :=
  match w.out.l with
  | none => w
  | some i =>
      if (w.links i).avctp = 0 ∨ 14 < par.length then w
      else
        (w.setRemote i { w.remote i with avLabel := (w.remote i).avLabel + 1 }).avctpSend i
          ((w.remote i).avLabel % 16) false (vendorFrame ctype pdu par)

/-- `out_register_volume`. -/
def outRegisterVolume : World := w.outVendor 0x03 0x31 [0x0d, 0, 0, 0, 0]

/-- `out_set_volume`. -/
def outSetVolume (pct : ℕ) : World :=
  { w with out := { w.out with sentV := toAbs pct } }.outVendor 0x00 0x50 [(toAbs pct).toUInt8]

/-- `out_avrcp_answer`; `speaker` is `btout_speaker_volume`. -/
def outAvrcpAnswer (now : ℕ) (speaker : Bool) (code pdu : UInt8) (par : Bytes) : World :=
  let v := (byteAt par 1).toNat % 128
  if pdu = 0x31 then
    if code = 0x0f ∧ 2 ≤ par.length ∧ byteAt par 0 = 0x0d ∧ w.out.absvol = .asked then
      { w with
        out := { w.out with absvol := .pending, avolAt := now + 3000 } }.outSetVolume w.outVolumeNow
    else if code = 0x0d ∧ 2 ≤ par.length ∧ byteAt par 0 = 0x0d then
      -- its own buttons
      let w := if w.out.absvol = .on ∧ v ≠ w.out.sentV then
          { w with
            out := { w.out with sentV := v }
            vol := if speaker then
              { w.vol with out := some (ofAbs v), speaker := some (ofAbs v) } else w.vol }
        else w
      w.outRegisterVolume
    else if code = 0x0a ∨ code = 0x08 then { w with out := { w.out with absvol := .no } }
    else w
  else if pdu = 0x50 ∧ w.out.absvol = .pending then
    let got := (byteAt par 0).toNat % 128
    -- a step of rounding either way
    if code = 0x09 ∧ 1 ≤ par.length ∧ got ≤ w.out.sentV + 2 ∧ w.out.sentV ≤ got + 2 then
      { w with out := { w.out with absvol := .on, sentV := got } }
    else { w with out := { w.out with absvol := .no } }
  else if pdu = 0x50 ∧ w.out.absvol = .on ∧ code ≠ 0x09 then
    { w with out := { w.out with absvol := .no } }
  else w

/-- `avrcp_rx`, a vendor command of the device. -/
def avrcpVendor (i : Slot) (label : ℕ) (a : Bytes) : World :=
  let pdu := byteAt a 6
  let n := (byteAt a 8).toNat * 256 + (byteAt a 9).toNat
  let par := if a.length < 10 + n then [] else (a.drop 10).take n
  if w.isSpeaker i ∧ (pdu = 0x31 ∨ pdu = 0x50 ∨ (pdu = 0x10 ∧ par ≠ [] ∧ byteAt par 0 = 3)) then
    -- the speaker we play to gets no absolute volume
    if pdu = 0x10 then w.vendorReply i label 0x0c pdu [3, 0]
      else w.vendorReply i label 0x0a pdu [0x01]
  else if pdu = 0x10 then
    if par ≠ [] ∧ byteAt par 0 = 2 then w.vendorReply i label 0x0c pdu [2, 1, 0x00, 0x19, 0x58]
    else if par ≠ [] ∧ byteAt par 0 = 3 then w.vendorReply i label 0x0c pdu [3, 1, 0x0d]
    else w.vendorReply i label 0x0a pdu [0x01]
  else if pdu = 0x31 then
    if par ≠ [] ∧ byteAt par 0 = 0x0d then
      (w.setRemote i { w.remote i with volLabel := some label, volPct := w.volumeNow }).vendorReply
        i label 0x0f
        pdu [0x0d, (toAbs w.volumeNow).toUInt8]
    else w.vendorReply i label 0x0a pdu [0x01]
  else if pdu = 0x50 then
    if par ≠ [] then
      let v := (byteAt par 0).toNat % 128
      -- no notification back for its own change
      ({ w.setRemote i { w.remote i with volPct := ofAbs v } with
          vol := { w.vol with echo := some (ofAbs v), want := some (ofAbs v) }
            }).vendorReply i label 0x09 pdu
        [v.toUInt8]
    else w.vendorReply i label 0x0a pdu [0x01]
  else w.vendorReply i label 0x0a pdu [0x00]

/-- `avrcp_rx`. -/
def avrcpRx (now : ℕ) (speaker : Bool) (i : Slot) (p : Bytes) : World :=
  let b := (byteAt p 0).toNat
  let label := b / 16
  if p.length < 6 ∨ b / 4 % 4 ≠ 0 then w
  else if b / 2 % 2 = 1 then
    -- an answer to a command of ours: the speaker's volume
    if w.isSpeaker i ∧ 13 ≤ p.length ∧ byteAt p 5 = 0x00 then
      w.outAvrcpAnswer now speaker (byteAt p 3) (byteAt p 9)
        ((p.drop 13).take ((byteAt p 11).toNat * 256 + (byteAt p 12).toNat))
    else w
  else if byteAt p 1 ≠ 0x11 ∨ byteAt p 2 ≠ 0x0e then
    match w.chanBy i (w.links i).avctp with
    | none => w
    | some j =>
      w.l2Send i ((w.links i).ch j).rcid [(label * 16 + 3).toUInt8, byteAt p 1, byteAt p 2]
  else
    let a := p.drop 3
    if byteAt a 2 = 0x30 ∨ byteAt a 2 = 0x31 then
      w.avctpSend i label true ([0x0c, 0xff, byteAt a 2, 0x07, 0x48] ++
        if byteAt a 2 = 0x30 then [0x00, 0x19, 0x58] else [0xff, 0xff, 0xff])
    else if byteAt a 2 ≠ 0x00 ∨ a.length < 10 ∨ byteAt a 3 ≠ 0 ∨ byteAt a 4 ≠ 0x19 ∨
      byteAt a 5 ≠ 0x58 then
      w.avctpSend i label true (0x08 :: (a.take 16).drop 1)
    else w.avrcpVendor i label a

/-! ### The stream to a speaker -/

/-- The signalling channel of the speaker's link is there. -/
def outUp : Bool :=
  match w.out.l with
  | none => false
  | some i => (w.chanBy i (w.links i).avSig).isSome

/-- Commands of ours go out. -/
def outSends (ms : List Msg) : World :=
  match w.out.l with
  | none => w
  | some i => ms.foldl (fun w m => w.avSend i m.bytes) w

/-- `out_disconnect`. -/
def outDisconnect : World :=
  match w.out.l with
  | none => w
  | some i => w.setLink i { w.links i with dropping := true }

/-- What the stream asks for is done. -/
def does (i : Slot) (r : Out × Deed) : World :=
  let w := { w with out := r.1 }
  let w := r.2.replies.foldl (fun w m => w.avSend i m.bytes) w
  let w := w.outSends r.2.cmds
  let w := if r.2.opens then w.chanOpen i psmAvdtp else w
  if r.2.fails then w.outDisconnect else w

/-- `out_rx`. -/
def outRx (now : ℕ) (i : Slot) (p : Bytes) : World :=
  match Msg.ofBytes p with
  | none => w
  | some m => w.does i (w.out.rx w.outUp (w.freePlace i).isSome now m)

/-! ### Packets -/

/-- `l2_rx`. -/
def l2Rx (now : ℕ) (ok speaker : Bool) (i : Slot) (cid : ℕ) (p : Bytes) : World :=
  if cid = 1 then w.sigRx now i p
  else
    match w.chanBy i cid with
    | none => w
    | some j =>
        let c := (w.links i).ch j
        if !c.cfgIn || !c.cfgOut then w
        -- the service records are only read
        else if c.psm = psmSdp then w
        else if cid = (w.links i).avSig then
          let w := w.called i .avdtp
          if w.isSpeaker i then w.outRx now i p else w.avRx ok i p
        else if cid = (w.links i).avctp then (w.called i .avrcp).avrcpRx now speaker i p
        else if w.av.l = some i ∧ cid = w.av.media then (w.called i .media).mediaRx p
        else w

/-! ### Links that come and go -/

/-- `out_link_up`. -/
def outLinkUp (now : ℕ) (i : Slot) (paged : Bool) : World :=
  { w.setLink i { w.links i with
      authAt := now + if paged then 0 else 1500
      pendUntil := now + 20000 } with
    out := { w.out with l := some i, failures := 0, sigLcid := 0, intAt := 0, phase := .idle } }

/-- `out_link_gone`. -/
def outLinkGone (now : ℕ) : World :=
  { w with out := { w.out.streamReset with
      l := none, sigLcid := 0, intAt := 0, nextPage := max w.out.nextPage (now + 5000) } }

/-- `link_gone`. -/
def linkGone (now : ℕ) (i : Slot) : World :=
  let w := (List.finRange maxChans).foldl
    (fun w j => if ((w.links i).ch j).used then w.chanFree now i j else w) w
  let w := if w.av.l = some i then w.avReset else w
  let w := if w.out.l = some i then w.outLinkGone now else w
  w.setLink i {}

/-- `a2dp_event`, Connection Complete without an error. -/
def connComplete (now : ℕ) (addr handle : ℕ) (enc : Bool) : World :=
  let paged := w.out.addr ≠ 0 && addr = w.out.addr && w.out.paging
  let w := if paged then { w with out := { w.out with paging := false } } else w
  match (List.finRange maxLinks).find? fun i => !(w.links i).used with
  | none => w
  | some i =>
      let w :=
        w.setLink i { used := true, handle := handle, addr := addr, enc := enc, everEnc := enc }
      if w.isSpeaker i then w.outLinkUp now i paged else w

/-- `a2dp_event`, Connection Complete of a page that failed. -/
def pageFailed (now : ℕ) : World :=
  if w.out.addr ≠ 0 ∧ w.out.paging then
    let f := w.out.failures + 1
    { w with out := { w.out with
        paging := false
        failures := f
        nextPage := now + if f < 6 then 10000 else 60000
        pairing := w.out.pairing && !decide (3 ≤ f) } }
  else w

/-- `out_inquiry_done`. -/
def inquiryDone (now : ℕ) : World :=
  let w := { w with inquiring := false }
  match if w.searching then w.cand else none with
  | none => w
  | some (a, _) =>
      let away := match w.out.l with
        | none => false
        | some i => (w.links i).addr ≠ a
      let w := if away then { w with out := w.out.streamReset }.outDisconnect else w
      { w with
        out := { w.out with addr := a, on := true, pairing := true, failures := 0, nextPage := now }
        searching := false }

/-- `out_found`: the strongest wins. -/
def found (a : ℕ) (rssi : ℤ) : World :=
  match w.cand with
  | some (b, r) => if b ≠ 0 ∧ rssi ≤ r ∧ a ≠ b then w else { w with cand := some (a, rssi) }
  | none => { w with cand := some (a, rssi) }

/-! ### Upkeep -/

/-- `avrcp_upkeep`, one link: the device has not opened AVRCP, so we do. -/
def avctpDue (now : ℕ) (i : Slot) : World :=
  let l := w.links i
  if !l.used || l.avctpAt = 0 || now < l.avctpAt then w
  else
    let w := w.setLink i { l with avctpAt := 0 }
    if l.avctp = 0 ∧ l.enc ∧ ¬ ∃ j, (l.ch j).used = true ∧ (l.ch j).psm = psmAvctp then
      w.chanOpen i psmAvctp else w

/-- `avrcp_upkeep`: the volume of the Echo for a device that waits for it. -/
def volumeDue (i : Slot) : World :=
  match (w.remote i).volLabel with
  | none => w
  | some label =>
      if !(w.links i).used || (w.links i).avctp = 0 || w.volumeNow = (w.remote i).volPct then w
      else
        (w.vendorReply i label 0x0d 0x31 [0x0d, (toAbs w.volumeNow).toUInt8]).setRemote i
          { w.remote i with volLabel := none, volPct := w.volumeNow }

/-- `a2dp_upkeep`, one link that waits for encryption. -/
def pendDue (now : ℕ) (i : Slot) : World :=
  let l := w.links i
  if !l.used || l.pendUntil = 0 then w
  else if l.pendUntil < now then w.pendingResolve i false
  else if l.authSent || now < l.authAt then w
  else w.setLink i { l with authSent := true }

/-- `out_upkeep`, the search that was asked for. -/
def searchReq (on : Bool) : World :=
  if on then if w.searching then w else { w with searching := true, cand := none }
  else { w with inquiring := false, searching := false }

/-- `out_upkeep`, the switch; `stay` is `out_stay`. -/
def switchReq (now : ℕ) (on stay : Bool) : World :=
  if on = w.out.on then w
  else
    let w := { w with out := { w.out with on := on, failures := 0, nextPage := now } }
    if !on && !(stay && w.out.l.isSome) then
      { w with out := w.out.streamReset }.outDisconnect else w

/-- `out_upkeep`, the speaker is paged. -/
def pages (now : ℕ) (ok : Bool) : World :=
  if w.out.on && w.out.addr ≠ 0 && w.out.l.isNone && !w.out.paging && !w.inquiring &&
    w.out.nextPage ≤ now then
    { w with
      out := if ok then { w.out with paging := true } else { w.out with nextPage := now + 10000 } }
  else w

/-- `out_volume_upkeep`. -/
def outVolumeUpkeep (now : ℕ) (speaker : Bool) : World :=
  match w.out.l with
  | none => w
  | some i =>
      if (w.links i).avctp = 0 ∨ !w.out.phase.isReady then w
      else if w.out.absvol = .unknown then
        { w with out := { w.out with absvol := .asked, avolAt := now + 3000 } }.outRegisterVolume
      else if (w.out.absvol = .asked ∨ w.out.absvol = .pending) ∧ w.out.avolAt < now then
        { w with out := { w.out with absvol := .no } }
      else if w.out.absvol = .on ∧ speaker ∧ toAbs w.outVolumeNow ≠ w.out.sentV then
        w.outSetVolume w.outVolumeNow
      else w

/-- `out_fail`. -/
def outFail (now : ℕ) : World := { w with out := w.out.fail now }.outDisconnect

/-- `out_upkeep`, the stream, up to the volume; the packets of the mixer are left out. -/
def outUpkeep (now : ℕ) (want stay speaker : Bool) : World :=
  match w.out.l with
  | none => w
  | some i =>
      let l := w.links i
      if l.dropping then w
      else if !w.out.on && !stay then w.outDisconnect
      -- a2dp_upkeep authenticates
      else if !l.enc then if l.pendUntil = 0 then w.outFail now else w
      else if l.avSig = 0 then
        if w.out.sigLcid = 0 then
          let j := w.freePlace i
          let w := w.chanOpen i psmAvdtp
          { w with out := { w.out with sigLcid := (j.map (lcid i)).getD 0, sigAt := now } }
        else if w.out.sigAt + 10000 < now then w.outFail now
        else w
      else
        let w := if w.out.intAt ≠ 0 ∧ w.out.intAt ≤ now ∧ w.out.phase = .idle then
            let r :=
              Out.cmd { w.out with intAt := 0, phase := .discover } w.outUp now Sig.discover []
            { w with out := r.1 }.outSends r.2
          else w
        if w.out.sig ≠ 0 ∧ w.out.sentAt + 5000 < now then w.outFail now
        else if w.out.phase = .media ∧ w.out.sentAt + 5000 < now then w.outFail now
        else
          let r := w.out.follows w.outUp now want
          ({ w with out := r.1 }.outSends r.2).outVolumeUpkeep now speaker

end World

/-! ### Runs -/

/-- What happens. -/
inductive Ev
  /-- A packet on a channel of a link; what opening a codec comes to, and whether the speaker's
  volume is the user's. -/
  | l2 (i : Slot) (cid : ℕ) (p : Bytes) (ok speaker : Bool)
  | connComplete (addr handle : ℕ) (enc : Bool)
  | pageFailed
  | disconnect (handle : ℕ)
  | authComplete (handle : ℕ) (ok : Bool)
  | encChange (handle : ℕ) (ok on : Bool)
  | found (a : ℕ) (rssi : ℤ)
  | inquiryDone
  | lost
  | avctpDue (i : Slot)
  | volumeDue (i : Slot)
  | pendDue (i : Slot)
  | search (on : Bool)
  | inquires
  | switch (on stay : Bool)
  | pages (ok : Bool)
  | outUpkeep (want stay speaker : Bool)
  | echoVolume (pct : ℕ)
  | speakerVolume (pct : ℕ)
  | yields (b : Bool)

namespace World

variable (w : World)

/-- `a2dp_event`, Authentication Complete. -/
def authComplete (handle : ℕ) (ok : Bool) : World :=
  match w.linkBy handle with
  | none => w
  | some i =>
      if !ok then w.pendingResolve i false
      else if (w.links i).enc then w.pendingResolve i true
      else w

/-- `a2dp_event`, Encryption Change. -/
def encChange (handle : ℕ) (ok on : Bool) : World :=
  match w.linkBy handle with
  | none => w
  | some i =>
      let enc := ok && on
      let w := w.setLink i { w.links i with enc := enc, everEnc := (w.links i).everEnc || enc }
      if !ok || enc then w.pendingResolve i enc else w

/-- `a2dp_lost`. -/
def lost (now : ℕ) : World :=
  let w :=
    (List.finRange maxLinks).foldl (fun w i => if (w.links i).used then w.linkGone now i else w) w
  { w with out := { w.out with paging := false }, inquiring := false }

/-- One step, at a time. -/
def step (e : ℕ × Ev) : World :=
  let now := e.1
  match e.2 with
  | .l2 i cid p ok speaker => if (w.links i).used then w.l2Rx now ok speaker i cid p else w
  | .connComplete addr handle enc => w.connComplete now addr handle enc
  | .pageFailed => w.pageFailed now
  | .disconnect handle =>
      match w.linkBy handle with
      | none => w
      | some i => w.linkGone now i
  | .authComplete handle ok => w.authComplete handle ok
  | .encChange handle ok on => w.encChange handle ok on
  | .found a rssi => w.found a rssi
  | .inquiryDone => w.inquiryDone now
  | .lost => w.lost now
  | .avctpDue i => w.avctpDue now i
  | .volumeDue i => w.volumeDue i
  | .pendDue i => w.pendDue now i
  | .search on => w.searchReq on
  | .inquires =>
    if w.searching && !w.inquiring && !w.out.paging then { w with inquiring := true } else w
  | .switch on stay => w.switchReq now on stay
  | .pages ok => w.pages now ok
  | .outUpkeep want stay speaker => w.outUpkeep now want stay speaker
  | .echoVolume pct => { w with vol := { w.vol with echo := some pct } }
  | .speakerVolume pct => { w with vol := { w.vol with out := some pct } }
  | .yields b => { w with yielded := b }

/-- At the start: the codecs that the device has, and the speaker that was kept. -/
def init (seps : List Codec) (addr : ℕ) (on : Bool) : World :=
  { seps := seps, out := { addr := addr, on := on } }

/-- A run. -/
def run (w : World) (l : List (ℕ × Ev)) : World := l.foldl step w

end World

/-! ### What only sends -/

/-- Nothing but the frames that were sent differs. -/
def Sends (w w' : World) : Prop := ∃ s, w' = { w with sent := s }

/-- Nothing that the streams go by differs: frames, volumes, and what of the speaker is about its
volume. -/
def Talks (w w' : World) : Prop :=
  ∃ s r v a b c, w' = { w with
    sent := s, remote := r, vol := v, out := { w.out with absvol := a, sentV := b, avolAt := c } }

section sends

variable {w w₁ w₂ : World}

theorem Sends.refl (w : World) : Sends w w := ⟨w.sent, rfl⟩

theorem Sends.trans (h : Sends w w₁) (h' : Sends w₁ w₂) : Sends w w₂ := by
  obtain ⟨s, rfl⟩ := h
  obtain ⟨s', rfl⟩ := h'
  exact ⟨s', rfl⟩

theorem Talks.refl (w : World) : Talks w w :=
  ⟨w.sent, w.remote, w.vol, w.out.absvol, w.out.sentV, w.out.avolAt, rfl⟩

theorem Sends.talks (h : Sends w w₁) : Talks w w₁ := by
  obtain ⟨s, rfl⟩ := h
  exact ⟨s, _, _, _, _, _, rfl⟩

theorem Talks.trans (h : Talks w w₁) (h' : Talks w₁ w₂) : Talks w w₂ := by
  obtain ⟨s, r, v, a, b, c, rfl⟩ := h
  obtain ⟨s', r', v', a', b', c', rfl⟩ := h'
  exact ⟨s', r', v', a', b', c', rfl⟩

theorem sends_l2Send (w : World) (i : Slot) (cid : ℕ) (p : Bytes) : Sends w (w.l2Send i cid p) := by
  unfold World.l2Send
  split
  · exact ⟨_, rfl⟩
  · exact .refl w

theorem sends_sigSend (w : World) (i : Slot) (code : UInt8) (id : ℕ) (d : Bytes) :
    Sends w (w.sigSend i code id d) := by
  unfold World.sigSend
  split
  · exact sends_l2Send w _ _ _
  · exact .refl w

theorem sends_avSend (w : World) (i : Slot) (p : Bytes) : Sends w (w.avSend i p) := by
  unfold World.avSend
  split
  · exact .refl w
  · exact sends_l2Send w _ _ _

theorem sends_avReply (w : World) (i : Slot) (label sig : ℕ) (accept : Bool) (d : Bytes) :
    Sends w (w.avReply i label sig accept d) :=
  sends_avSend w i _

theorem sends_avctpSend (w : World) (i : Slot) (label : ℕ) (response : Bool) (avc : Bytes) :
    Sends w (w.avctpSend i label response avc) := by
  unfold World.avctpSend
  split
  · exact .refl w
  · split
    · exact .refl w
    · exact sends_l2Send w _ _ _

theorem sends_vendorReply (w : World) (i : Slot) (label : ℕ) (code pdu : UInt8) (par : Bytes) :
    Sends w (w.vendorReply i label code pdu par) :=
  sends_avctpSend w i label true _

theorem sends_foldl (i : Slot) (ms : List Msg) (w : World) :
    Sends w (ms.foldl (fun w m => w.avSend i m.bytes) w) := by
  induction ms generalizing w with
  | nil => exact .refl w
  | cons m ms ih => exact (sends_avSend w i m.bytes).trans (ih _)

theorem sends_outSends (w : World) (ms : List Msg) : Sends w (w.outSends ms) := by
  unfold World.outSends
  split
  · exact .refl w
  · exact sends_foldl _ ms w

theorem talks_outVendor (w : World) (ctype pdu : UInt8) (par : Bytes) :
    Talks w (w.outVendor ctype pdu par) := by
  unfold World.outVendor
  split
  · exact .refl w
  · split
    · exact .refl w
    · refine Talks.trans ?_ (sends_avctpSend _ _ _ _ _).talks
      exact ⟨_, _, _, _, _, _, rfl⟩

theorem talks_outSetVolume (w : World) (pct : ℕ) : Talks w (w.outSetVolume pct) := by
  refine Talks.trans ?_ (talks_outVendor _ _ _ _)
  exact ⟨_, _, _, _, _, _, rfl⟩

theorem talks_outAvrcpAnswer (w : World) (now : ℕ) (speaker : Bool)
    (code pdu : UInt8) (par : Bytes) :
    Talks w (w.outAvrcpAnswer now speaker code pdu par) := by
  unfold World.outAvrcpAnswer
  dsimp only
  split
  · split
    · refine Talks.trans ?_ (talks_outSetVolume _ _)
      exact ⟨_, _, _, _, _, _, rfl⟩
    · split
      · refine Talks.trans ?_ (talks_outVendor _ _ _ _)
        split
        · exact ⟨_, _, _, _, _, _, rfl⟩
        · exact .refl w
      · split
        · exact ⟨_, _, _, _, _, _, rfl⟩
        · exact .refl w
  · split
    · split
      · exact ⟨_, _, _, _, _, _, rfl⟩
      · exact ⟨_, _, _, _, _, _, rfl⟩
    · split
      · exact ⟨_, _, _, _, _, _, rfl⟩
      · exact .refl w

theorem talks_avrcpVendor (w : World) (i : Slot) (label : ℕ) (a : Bytes) :
    Talks w (w.avrcpVendor i label a) := by
  have hreply : ∀ code pdu par, Talks w (w.vendorReply i label code pdu par) :=
    fun code pdu par => (sends_vendorReply w i label code pdu par).talks
  unfold World.avrcpVendor
  dsimp only
  generalize (if a.length < 10 + ((byteAt a 8).toNat * 256 + (byteAt a 9).toNat) then [] else
    (a.drop 10).take ((byteAt a 8).toNat * 256 + (byteAt a 9).toNat)) = par
  split
  · split <;> exact hreply _ _ _
  · split
    · split
      · exact hreply _ _ _
      · split <;> exact hreply _ _ _
    · split
      · split
        · refine Talks.trans ?_ (sends_vendorReply _ _ _ _ _ _).talks
          exact ⟨_, _, _, _, _, _, rfl⟩
        · exact hreply _ _ _
      · split
        · split
          · refine Talks.trans ?_ (sends_vendorReply _ _ _ _ _ _).talks
            exact ⟨_, _, _, _, _, _, rfl⟩
          · exact hreply _ _ _
        · exact hreply _ _ _

/-- The remote control changes volumes only. -/
theorem talks_avrcpRx (w : World) (now : ℕ) (speaker : Bool) (i : Slot) (p : Bytes) :
    Talks w (w.avrcpRx now speaker i p) := by
  unfold World.avrcpRx
  dsimp only
  split
  · exact .refl w
  · split
    · split
      · exact talks_outAvrcpAnswer w now speaker _ _ _
      · exact .refl w
    · split
      · split
        · exact .refl w
        · exact (sends_l2Send w _ _ _).talks
      · split
        · exact (sends_avctpSend w _ _ _ _).talks
        · split
          · exact (sends_avctpSend w _ _ _ _).talks
          · exact talks_avrcpVendor w i _ _

theorem talks_outVolumeUpkeep (w : World) (now : ℕ) (speaker : Bool) :
    Talks w (w.outVolumeUpkeep now speaker) := by
  unfold World.outVolumeUpkeep
  split
  · exact .refl w
  · split
    · exact .refl w
    · split
      · refine Talks.trans ?_ (talks_outVendor _ _ _ _)
        exact ⟨_, _, _, _, _, _, rfl⟩
      · split
        · exact ⟨_, _, _, _, _, _, rfl⟩
        · split
          · exact talks_outSetVolume w _
          · exact .refl w

/-- What the upkeep of the stream to a speaker is made of. -/
theorem outUpkeep_keeps {I : World → Prop}
    (hout : ∀ {w : World} {o : Out}, I w → w.out.Keeps o → I { w with out := o })
    (htalks : ∀ {w w' : World}, I w → Talks w w' → I w')
    (hgone : ∀ {w : World}, I w → I w.outDisconnect) (h : I w)
    (hopens : ∀ i, w.out.l = some i → (w.links i).enc = true → I (w.chanOpen i psmAvdtp)) (now : ℕ)
    (want stay speaker : Bool) : I (w.outUpkeep now want stay speaker) := by
  have hfail : ∀ {w : World}, I w → I (w.outFail now) :=
    fun hw => hgone (hout hw ⟨rfl, rfl, .inr rfl⟩)
  have hsends : ∀ {w : World} {o : Out} (ms : List Msg), I w → w.out.Keeps o →
      I (World.outSends { w with out := o } ms) :=
    fun ms hw ho => htalks (hout hw ho) (sends_outSends _ ms).talks
  unfold World.outUpkeep
  split
  · exact h
  case h_2 i hi =>
    extract_lets l j w₁ o₁ o r₁ w₂
    split
    · exact h
    · split
      · exact hgone h
      · split
        · split
          · exact hfail h
          · exact h
        case isFalse henc =>
          split
          · split
            · exact hout (hopens i hi (by simpa using henc)) ⟨rfl, rfl, .inl rfl⟩
            · split
              · exact hfail h
              · exact h
          · have h₂ : I w₂ := by
              simp only [w₂]
              split
              · refine hsends _ h (Out.Keeps.cmd ?_ _ _ _ _)
                exact ⟨rfl, rfl, .inl rfl⟩
              · exact h
            split
            · exact hfail h₂
            · split
              · exact hfail h₂
              · exact htalks (hsends _ h₂ (Out.keeps_follows _ _ _))
                  (talks_outVolumeUpkeep _ now speaker)

theorem talks_volumeDue (w : World) (i : Slot) : Talks w (w.volumeDue i) := by
  unfold World.volumeDue
  split
  · exact .refl w
  case h_2 label hlabel =>
    split
    · exact .refl w
    · have hsent :=
        (sends_vendorReply w i label 0x0d 0x31 [0x0d, (World.toAbs w.volumeNow).toUInt8]).talks
      refine hsent.trans ?_
      exact ⟨_, _, _, _, _, _, rfl⟩

end sends

/-! ### What a command does to the stream -/

/-- A Reconfigure that is taken, for the endpoint that the link has configured. -/
def World.Reconfigures (w : World) (i : Slot) (m : Msg) : Prop :=
  m.kind = .command ∧ m.sig = Sig.reconf ∧ w.av.l = some i ∧ w.av.state = .opened ∧
    m.d ≠ [] ∧ (byteAt m.d 0).toNat / 4 = w.av.sep ∧
    ∃ codec, w.sepCodec w.av.sep = some codec ∧
      (avConfig codec true (tlvs m.d.length (m.d.drop 1)) { cfg := w.av.cfg }).err = 0

/-- What a command of a phone can do. -/
inductive AvMove (w : World) (ok : Bool) (i : Slot) (m : Msg) : World → Prop
  | quiet (s : List Frame) (cfg : Bytes) (delay : Bool) :
      AvMove w ok i m { w with sent := s, av := { w.av with cfg := cfg, delay := delay } }
  | configures {s : List Frame} {cfg : Bytes} {delay : Bool} {label rseid seid : ℕ}
  (hfree : w.av.l = none)
      (hsep : (w.sepCodec seid).isSome = true) :
      AvMove w ok i m { w with
        sent := s
        codecs := w.codecs ++ [CodecOp.opened seid]
        openedWith := cfg
        av := { w.av with
          l := some i, sep := seid, state := .configured, rseid := rseid, cfg := cfg, delay := delay
          label := label } }
  | reconfigures {s : List Frame} {cfg : Bytes} (hl : w.av.l = some i)
  (hstate : w.av.state = .opened) :
      AvMove w ok i m { w with
        sent := s
        codecs := w.codecs ++ [CodecOp.closed w.av.sep, CodecOp.opened w.av.sep]
        openedWith := cfg
        av := { w.av with cfg := cfg } }
  | fails {s : List Frame} {cfg : Bytes} (hok : ok = false) (hr : w.Reconfigures i m) :
      AvMove w ok i m { w with
        sent := s
        codecs := w.codecs ++ [CodecOp.closed w.av.sep]
        av := { w.av with cfg := cfg } }.avReset
  | opens {s : List Frame} (hl : w.av.l = some i) (hstate : w.av.state = .configured) :
      AvMove w ok i m { w with sent := s, av := { w.av with state := .opened } }
  | starts {s : List Frame} (hl : w.av.l = some i) (hstate : w.av.state = .opened) :
      AvMove w ok i m { w with
        sent := s, yielded := false, streaming := true, av := { w.av with state := .streaming } }
  | suspends {s : List Frame} (hl : w.av.l = some i) (hstate : w.av.state = .streaming) :
      AvMove w ok i m { w with sent := s, streaming := false, av := { w.av with state := .opened } }
  | resets {s : List Frame} (hl : w.av.l = some i) : AvMove w ok i m { w with sent := s }.avReset

section moves

variable {w : World} {ok : Bool} {i : Slot} {m : Msg}

theorem Sends.quiet {w' : World} (h : Sends w w') : AvMove w ok i m w' := by
  obtain ⟨s, rfl⟩ := h
  exact .quiet s w.av.cfg w.av.delay

theorem moves_avSetConf (label seid : ℕ) (d : Bytes) :
    AvMove w ok i m (w.avSetConf ok i label seid d) := by
  unfold World.avSetConf
  split
  · exact (sends_avReply w _ _ _ _ _).quiet
  case h_2 codec hcodec =>
    split
    · exact (sends_avReply w _ _ _ _ _).quiet
    case isFalse hfree =>
      -- an endpoint that is not there has no codec
      have hsep : (w.sepCodec seid).isSome = true := by
        split at hcodec
        · exact nomatch hcodec
        · rw [hcodec]
          rfl
      have hnone : w.av.l = none := by simpa using hfree
      dsimp only
      split
      · obtain ⟨s, hs⟩ := sends_avReply { w with av := { w.av with
          cfg := (avConfig codec false (tlvs d.length (d.drop 2))
            { cfg := w.av.cfg }).cfg } } i label
          Sig.setConf false
            [(avConfig codec false (tlvs d.length (d.drop 2)) { cfg := w.av.cfg }).cat,
              (avConfig codec false (tlvs d.length (d.drop 2)) { cfg := w.av.cfg }).err]
        rw [hs]
        exact .quiet _ _ _
      · generalize avConfig codec false (tlvs d.length (d.drop 2)) { cfg := w.av.cfg } = k
        split
        · obtain ⟨s, hs⟩ :=
            sends_avReply { w with av := { w.av with cfg := k.cfg, delay := k.delay } } i label
            Sig.setConf false [7, Err.unsupportedConf]
          rw [hs]
          exact .quiet _ _ _
        · obtain ⟨s, hs⟩ := sends_avReply { w with
            codecs := w.codecs ++ [CodecOp.opened seid]
            openedWith := k.cfg
            av := { w.av with
              cfg := k.cfg, delay := k.delay, l := some i, sep := seid, state := .configured
              rseid := (byteAt d 1).toNat / 4 } } i label Sig.setConf true []
          rw [hs]
          split
          · unfold World.delayReport
            obtain ⟨s', hs'⟩ := sends_avSend { w with
              sent := s
              codecs := w.codecs ++ [CodecOp.opened seid]
              openedWith := k.cfg
              av := { w.av with
                cfg := k.cfg, delay := k.delay, l := some i, sep := seid, state := .configured
                rseid := (byteAt d 1).toNat / 4, label := w.av.label + 1 } } i
              [((w.av.label + 1) % 16 * 16).toUInt8, Sig.delay.toUInt8,
                ((byteAt d 1).toNat / 4 * 4).toUInt8, 0x0a, 0xf0]
            exact hs' ▸ .configures hnone hsep
          · exact .configures hnone hsep

theorem moves_avReconf (label : ℕ) {codec : Codec} (hm : m.kind = .command)
    (hsig : m.sig = Sig.reconf) (hl : w.av.l = some i) (hd : m.d ≠ [])
    (hseid : (byteAt m.d 0).toNat / 4 = w.av.sep) (hcodec : w.sepCodec w.av.sep = some codec) :
    AvMove w ok i m (w.avReconf ok i label codec m.d) := by
  unfold World.avReconf
  split
  · exact (sends_avReply w _ _ _ _ _).quiet
  case isFalse hstate =>
    have hopened : w.av.state = .opened := not_not.mp hstate
    dsimp only
    split
    · obtain ⟨s, hs⟩ := sends_avReply { w with av := { w.av with
        cfg := (avConfig codec true (tlvs m.d.length (m.d.drop 1))
          { cfg := w.av.cfg }).cfg } } i label
        Sig.reconf false
          [(avConfig codec true (tlvs m.d.length (m.d.drop 1)) { cfg := w.av.cfg }).cat,
            (avConfig codec true (tlvs m.d.length (m.d.drop 1)) { cfg := w.av.cfg }).err]
      rw [hs]
      exact .quiet _ _ _
    case isFalse herr =>
      have hr : w.Reconfigures i m :=
        ⟨hm, hsig, hl, hopened, hd, hseid, codec, hcodec, not_not.mp herr⟩
      generalize (avConfig codec true (tlvs m.d.length (m.d.drop 1)) { cfg := w.av.cfg }).cfg = cfg
      split
      · obtain ⟨s, hs⟩ := sends_avReply { w with
          av := { w.av with cfg := cfg }
          codecs := w.codecs ++ [CodecOp.closed w.av.sep, CodecOp.opened w.av.sep]
          openedWith := cfg } i label Sig.reconf true []
        rw [hs]
        exact .reconfigures hl hopened
      case isFalse hok =>
        obtain ⟨s, hs⟩ := sends_avReply { w with
          av := { w.av with cfg := cfg }
          codecs := w.codecs ++ [CodecOp.closed w.av.sep] } i label Sig.reconf false
            [7, Err.unsupportedConf]
        rw [hs]
        exact .fails (by simpa using hok) hr

theorem moves_avStart (hl : w.av.l = some i) (label sig : ℕ) (d : Bytes) :
    AvMove w ok i m (w.avStart i label sig d) := by
  unfold World.avStart
  split
  · split
    case isTrue hstate =>
      obtain ⟨s, hs⟩ := sends_avReply
        { w with av := { w.av with state := .streaming }, yielded := false } i label sig true []
      rw [hs]
      exact .starts hl hstate
    case isFalse =>
      split
      · exact (sends_avReply w _ _ _ _ _).quiet
      · exact (sends_avReply w _ _ _ _ _).quiet
  · split
    case isTrue hstate =>
      obtain ⟨s, hs⟩ := sends_avReply { w with av := { w.av with state := .opened } }
        i label sig true []
      rw [hs]
      exact .suspends hl hstate
    case isFalse =>
      split
      · exact (sends_avReply w _ _ _ _ _).quiet
      · exact (sends_avReply w _ _ _ _ _).quiet

/-- **What a command of a phone does to the stream.** -/
theorem moves_avCommand (hm : m.kind = .command) : AvMove w ok i m (w.avCommand ok i m) := by
  have hreply : ∀ label sig accept d, AvMove w ok i m (w.avReply i label sig accept d) :=
    fun label sig accept d => (sends_avReply w i label sig accept d).quiet
  unfold World.avCommand
  extract_lets mine seid ours av₁ w₁
  split
  · exact hreply _ _ _ _
  · split
    · split
      · exact hreply _ _ _ _
      · exact hreply _ _ _ _
    · split
      -- only a Set Configuration opens a codec
      · exact moves_avSetConf _ _ _
      · split
        case isTrue hsig =>
          split
          · exact hreply _ _ _ _
          case h_2 codec hcodec =>
            split at hcodec
            case isFalse => exact nomatch hcodec
            case isTrue hours =>
              obtain ⟨hl, hseid⟩ := hours
              rw [hseid] at hcodec
              change (if m.d = [] then 0 else (byteAt m.d 0).toNat / 4) = w.av.sep at hseid
              by_cases hd : m.d = []
              · -- no endpoint is 0
                rw [if_pos hd] at hseid
                rw [← hseid] at hcodec
                exact nomatch hcodec
              · rw [if_neg hd] at hseid
                exact moves_avReconf _ hm hsig hl hd hseid hcodec
        case isFalse =>
          split
          · split
            · exact hreply _ _ _ _
            · exact hreply _ _ _ _
          · split
            · split
              · exact hreply _ _ _ _
              case isFalse hours =>
                split
                · exact hreply _ _ _ _
                -- an Open of the endpoint that is configured
                case isFalse hstate =>
                  obtain ⟨s, hs⟩ := sends_avReply
                    { w with av := { w.av with state := .opened } } i m.label m.sig true []
                  rw [hs]
                  exact .opens (not_not.mp hours).1 (not_not.mp hstate)
            · split
              · split
                · exact hreply _ _ _ _
                case isFalse hours => exact moves_avStart (not_not.mp hours).1 _ _ _
              · split
                · split
                  · exact hreply _ _ _ _
                  -- an Abort is answered whatever is open
                  · have hsent : Sends w w₁ := sends_avReply w i m.label m.sig true []
                    obtain ⟨s, hs⟩ := hsent
                    rw [hs]
                    split
                    case isTrue hl => exact .resets hl
                    case isFalse => exact .quiet s w.av.cfg w.av.delay
                · split
                  · exact hreply _ _ _ _
                  · exact (sends_avSend w _ _).quiet

end moves

end Hassmic.A2dp
