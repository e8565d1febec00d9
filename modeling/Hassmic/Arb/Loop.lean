import Hassmic.Arb.Network

/-!
# The loop

One turn of the arbitration's thread, behind what it receives: copies still due,
the end of a round, the network's own pace, pairing, and what is handed to the
hooks outside the lock.

## Main definitions

* `Turn` — what a turn reads: the clock, random bytes and the answers of the hooks.
* `St.tick` — one turn.
-/

namespace Hassmic.Arb

open Wire
open scoped Slots

/-- What one turn of the loop reads. -/
structure Turn where
  now : Instant
  /-- The random number of the beacon's interval. -/
  rand : UInt32
  /-- The key and the id that `create` draws. -/
  newKey : Blob 32
  newId : St.NetId
  /-- The nonce drawn for the candidate in a slot. -/
  nonce : Fin nPeer → Blob 24
  /-- The nonce drawn for pairing. -/
  pairNonce : Blob 24
  /-- Whether the kiosk port can be opened. -/
  bound : Bool
  /-- Whether Home Assistant takes a request. -/
  requested : Bytes → Bool

namespace St

variable (C : Crypto) (e : Turn) (s : St)

/-! ### Copies -/

/-- `kiosk_send`. -/
def kioskSend : St := if s.ksock then s.log (.kioskSent (s.kpkt.take s.kpktN)) else s

/-- `kiosk_sync`: the port is open while rounds are settled the kiosk way. -/
def kioskSync (now : ℤ) : St :=
  let want := s.running && s.arbitrate && s.mode = .kiosk
  if !want then { s with ksock := false, kcopies := if s.ksock then 0 else s.kcopies }
  else if s.ksock ∨ ago s.kfailed now 10000 then s
  else if e.bound then { s with ksock := true, kfailed := 0 }
  else { s with kfailed := now }

/-- A copy of our kiosk claim. -/
def kioskCopy (now : ℤ) : St :=
  if s.kcopies ≠ 0 ∧ s.kcopyAt ≤ now then
    { s.kioskSend with kcopyAt := s.kcopyAt + kioskGapMs, kcopies := s.kcopies - 1 }
  else s

/-- `copy_at`. -/
def copyAt (i : Fin 2) : ℤ := (s.copies i).at_ + if (s.copies i).left = 2 then 30 else 80

/-- A copy of a claim. -/
def sendCopy (i : Fin 2) (now : ℤ) : St :=
  let c := s.copies i
  if c.left ≠ 0 ∧ s.copyAt i ≤ now then
    { s.log (.copied c.p) with copies := Function.update s.copies i { c with left := c.left - 1 } }
  else s

/-! ### The round and the state file -/

/-- The round no longer samples. -/
def endRound (now : ℤ) : St :=
  if s.round.open_ ∧ measureMs ≤ now - s.round.at_ then
    { s with round := { s.round with open_ := false } }.rivalsTake (s.round.at_ + measureMs)
  else s

/-- The round's samples are to be saved. -/
def takeDirty (now : ℤ) : St :=
  if !s.round.open_ ∧ s.round.dirty then
    let r := s.learned now
    let s := { s with round := { s.round with dirty := false }, unsaved := true }
    if s.wauto ∧ autoLearn ≤ r.2.1 ∧
        (s.wlogged + s.wlogged / 10 < r.1 ∨ r.1 < s.wlogged - s.wlogged / 10) then
      { s with wlogged := r.1 }
    else s
  else s

/-- The samples go to disk, not too often. -/
def saveRounds (now : ℤ) : St :=
  if s.unsaved ∧ !ago s.savedAt now s.saveMs then
    { s with unsaved := false, savedAt := now }.save
  else s

/-! ### The network's own pace -/

/-- An Echo of a network was heard. -/
def members (now : ℤ) : Bool :=
  (List.finRange nPeer).any fun i => (s.cands i).net != 0 && ago (s.cands i).seen now s.peerTtlMs

/-- With no network heard, start one. -/
def found (now : ℤ) : St :=
  if !s.inNet ∧ !s.members now ∧ s.discoverMs < now - s.started then
    s.create C e.newKey e.newId now
  else s

/-- Hand the key to those that may have it. -/
def pushAll (now : ℤ) : St :=
  (List.finRange nPeer).foldl
    (fun (t : St) i =>
      if ago (t.cands i).seen now t.peerTtlMs then t.push C i now (e.nonce i) else t) s

/-- How long after a beacon the next one is sent. -/
def beaconEvery (now : ℤ) : ℤ :=
  if s.inNet then s.beaconGap else if now - s.started < s.discoverMs then s.lookMs else s.lonerMs

/-- Our own beacons. -/
def beaconDue (now : ℤ) : St :=
  if ago s.beaconAt now (s.beaconEvery now) then s
  else
    { s with
      beaconAt := now
      beaconGap := s.beaconMinMs + e.rand.toNat % (s.beaconMaxMs - s.beaconMinMs)
        }.beacon C false now

/-- Our tag is scanned while another Echo may wait for it. -/
def scanTag (now : ℤ) : St :=
  let need := !s.inNet ||
    (List.finRange nPeer).any fun i => ago (s.cands i).seen now s.peerTtlMs
  if !need then { s with scans := 0 }
  else if ago s.scanAt now (if s.scans < scanN then s.scanMs else s.scanSlowMs) then s
  else { s with scanAt := now, scans := s.scans + 1, scanDue := true }

/-- The tag of the candidate in the slot `i` is asked for. -/
def pollOne (i : Fin nPeer) (now : ℤ) : St :=
  let c := s.cands i
  let give := s.inNet && (c.net = 0 || decide (s.netId < c.net))
  let get := c.net ≠ 0 && (!s.inNet || decide (c.net < s.netId))
  if !c.attested ∧ ago c.seen now s.peerTtlMs ∧ (give ∨ get) ∧ !ago c.polled now s.pollMs then
    (s.setCand i { c with polled := now }).pollTag c.pub
  else s

def pollAll (now : ℤ) : St :=
  (List.finRange nPeer).foldl (fun (t : St) i => t.pollOne i now) s

/-! ### Pairing -/

/-- The gesture's window is over. -/
def endPairing (now : ℤ) : St :=
  if s.pairUntil ≠ 0 ∧ s.pairUntil ≤ now then
    { s with
      pairUntil := 0
      pairEvent := if s.pairGave then s.pairEvent else some .ended }
  else s

/-- Our own pair request. -/
def askPair (now : ℤ) : St :=
  if ago s.pairSent now 1000 then s
  else
    { s with pairSent := now }.sendPkt
      (beaconHead tPair s.pk (if s.inNet then s.netId else 0) s.node)

/-- The request in the slot `i` counts: it came since a window before our press. -/
def asked (i : Fin nPeer) : Bool :=
  (s.preqs i).seen != 0 && decide (s.pairAt - s.pairMs ≤ (s.preqs i).seen)

/-- The requests of Echos in no network or in a younger one. -/
def askers : List (Fin nPeer) :=
  (List.finRange nPeer).filter fun i =>
    s.asked i && ((s.preqs i).net == 0 || decide (s.netId < (s.preqs i).net))

/-- An Echo of an older network is pairing. -/
def olderAsks : Bool :=
  (List.finRange nPeer).any fun i =>
    s.asked i && (s.preqs i).net != 0 && decide ((s.preqs i).net < s.netId)

/-- A member hands `K` to the one Echo that asked. -/
def handOver : St :=
  if s.olderAsks then s
  else
    match s.askers with
    | [] => s
    | [i] =>
        match s.sealKey C (s.preqs i).pub e.pairNonce with
        | none => s
        | some blob =>
            { s with
              givePkt := ⟨(s.preqs i).pub, s.netId, blob⟩
              giveLeft := 3, giveAt := 0, pairGave := true }
    | _ :: _ :: _ => { s with pairUntil := 0, pairEvent := some .ended }

/-- Pairing. -/
def pairing (now : ℤ) : St :=
  let s := s.endPairing now
  if s.pairUntil = 0 then s
  else
    let s := s.askPair now
    if s.inNet ∧ !s.pairGave ∧ s.pairSettleMs ≤ now - s.pairAt then s.handOver C e else s

/-- The sealed key is sent, three times. -/
def sendGive (now : ℤ) : St :=
  if s.giveLeft ≠ 0 ∧ !ago s.giveAt now 500 then
    let s := { s.sendPkt (giveBytes s.givePkt) with giveAt := now, giveLeft := s.giveLeft - 1 }
    if s.giveLeft = 0 then
      { s with givePkt := {}, pairUntil := 0, pairEvent := some .done }
    else s
  else s

/-! ### Outside the lock -/

/-- The members counted changed. -/
def reportPeers (now : ℤ) : St :=
  let np : ℤ := s.countPeers now
  if np ≠ s.reportedPeers then { s with reportedPeers := np, notify := true } else s

/-- Ask Home Assistant for a tag. -/
def askTag (now : ℤ) (entity : Bytes) : St :=
  let s := s.log (.request entity)
  if !e.requested entity then { s with haSince := 0 }
  else if s.haSince = 0 then { s with haSince := now }
  else s

/-- What was put by for the hooks is handed over. -/
def callHooks (now : ℤ) : St :=
  let t := { s with
    pushes := [], polls := [], scanDue := false, pairEvent := none, msgs := [], notify := false }
  let t := t.logAll (s.pushes.map .sendKey)
  let t := s.polls.foldl (fun (t : St) p => t.askTag e now p) t
  t.logAll ((if s.scanDue then [.scan s.selfTag] else []) ++ s.pairEvent.toList.map .paired ++
    s.msgs.map .message ++ if s.notify then [.changed] else [])

/-- Copies, the end of a round and its samples. -/
def tickOwn (now : ℤ) : St :=
  let s := s.kioskSync e now
  let s := s.kioskCopy now
  let s := (s.sendCopy 0 now).sendCopy 1 now
  let s := s.endRound now
  let s := s.takeDirty now
  s.saveRounds now

/-- Keys, beacons and tags. -/
def tickNet (now : ℤ) : St :=
  let s := s.pushAll C e now
  let s := s.beaconDue C e now
  let s := s.scanTag now
  s.pollAll now

/-- **One turn of the loop.** -/
def tick : St :=
  let now : ℤ := e.now.1
  let s := s.tickOwn e now
  let s := s.found C e now
  let s := s.tickNet C e now
  let s := s.pairing C e now
  let s := s.sendGive now
  let s := s.reportPeers now
  s.callHooks e now

end St

end Hassmic.Arb
