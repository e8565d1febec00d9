import Hassmic.Arb.Packet

/-!
# The network

Members and Echos outside the network, how a key is taken on, sealed and handed
over, and what an Echo does with a packet it receives.

## Main definitions

* `peer`, `fresh`, `cand` — the tables of other Echos.
* `beacon`, `adopt`, `create`, `takeKey`, `push` — the network.
* `onPacket` — a packet received.
-/

namespace Hassmic.Arb

open Wire Function
open scoped Slots

namespace St

variable (C : Crypto) (s : St)

/-! ### Peers and candidates -/

/-- The slot `peer` finds for an id. -/
def peerSlot (id : Blob 8) : Fin nPeer :=
  Slots.pick (fun i => (s.peers i).seen != 0 && (s.peers i).id == id) fun i => (s.peers i).seen

/-- The entry `i` is in use for `id`. -/
def holds (i : Fin nPeer) (id : Blob 8) : Bool := (s.peers i).seen != 0 && (s.peers i).id == id

/-- `peer`: the state with an entry for `id` in the slot `peerSlot`. -/
def peer (id : Blob 8) : St :=
  if s.holds (s.peerSlot id) id then s
  else { s with peers := update s.peers (s.peerSlot id) { id := id } }

/-- `fresh`: whether the counter of an authentic packet is new. -/
def fresh (id : Blob 8) (c : UInt64) (now : ℤ) : Bool × St :=
  let i := s.peerSlot id
  let t := s.peer id
  let p := t.peers i
  if c ≤ p.ctr then
    let t := if p.seen = 0 then { t with peers := update t.peers i {} } else t
    (false, t.log (.fresh id c false))
  else
    (true, { t with peers := update t.peers i { p with ctr := c, seen := now } }.log
      (.fresh id c true))

/-- The slot `cand` finds for a public key. -/
def candSlot (pub : Blob 32) : Fin nPeer :=
  Slots.pick (fun i => (s.cands i).seen != 0 && (s.cands i).pub == pub) fun i => (s.cands i).seen

/-- `cand`: the entry of a public key, all zero but for the key if it is new. -/
def cand (pub : Blob 32) : Cand :=
  let c := s.cands (s.candSlot pub)
  if c.seen ≠ 0 ∧ c.pub = pub then c else { pub := pub }

def setCand (i : Fin nPeer) (c : Cand) : St := { s with cands := update s.cands i c }

/-! ### Sending -/

/-- `send_pkt`. -/
def sendPkt (b : Bytes) : St := s.log (.sent b)

/-- `send_spread`: send now, and leave two copies to the loop. -/
def sendSpread (b : Bytes) (now : ℤ) : St :=
  let i : Fin 2 := if (s.copies 0).left = 0 then 0 else if (s.copies 1).left = 0 then 1
    else if (s.copies 1).at_ < (s.copies 0).at_ then 1 else 0
  { s.sendPkt b with copies := update s.copies i ⟨b, now, 2⟩ }

/-- The flags of a beacon. -/
def beaconFlags (answer : Bool) (now : ℤ) : UInt8 :=
  (if !s.arbitrate || s.mode = .kiosk then fQuiet else 0) |||
    (if s.arbitrate && s.mode = .kiosk then fKiosk else 0) |||
    (if !answer && decide (now < s.helloUntil) then fHello else 0)

/-- `beacon`. -/
def beacon (answer : Bool) (now : ℤ) : St :=
  if s.inNet then
    let t := s.nextCtr
    t.sendPkt (beaconBytes C t.macKey t.pk t.netId t.node t.ctr (s.beaconFlags answer now))
  else s.sendPkt (beaconHead tBeacon s.pk 0 s.node)

/-! ### Keys -/

/-- `adopt`. -/
def adopt (k : Blob 32) (id : UInt64) (now : ℤ) : St :=
  let t := derive C { s with netKey := k, netId := id, inNet := true }
  let t := { t with peers := fun _ => {}, claims := fun _ => {} }
  { (t.log .adopted).save with
    beaconAt := 0
    helloUntil := now + s.beaconMaxMs
    notify := true }

/-- What the loop of `create` ends with. -/
abbrev NetId := {id : UInt64 // id ≠ 0}

/-- `create`, with the random bytes it draws. -/
def create (k : Blob 32) (id : NetId) (now : ℤ) : St := s.adopt C k id.1 now

/-- What the key that wraps `K` is bound to. -/
def wrapLabel : Bytes :=
  ascii ['h', 'a', 's', 's', 'm', 'i', 'c', ' ', 'a', 'r', 'b', ' ', 'k', 'e', 'y'] ++ [0]

/-- `wrap_key`. -/
def wrapKey (their frm to_ : Blob 32) (net : UInt64) : Option (Blob 32) :=
  let shared := C.x25519 s.sk their
  if shared = .zero 32 then none
  else some (C.keyed32 shared (wrapLabel ++ frm.1 ++ to_.1 ++ (put64 net).1))

/-- `seal`: `K` for another Echo, with the nonce drawn. -/
def sealKey (to_ : Blob 32) (nonce : Blob 24) : Option (Blob blobLen) :=
  (s.wrapKey C to_ s.pk to_ s.netId).map fun key =>
    let r := C.aeadLock key nonce s.pk.1 s.netKey
    ((s.pk.append nonce).append r.1).append r.2

/-- The key in a sealed blob, if it opens with ours. -/
def openBlob (id : UInt64) (blob : Blob blobLen) : Option (Blob 32) :=
  let pub : Blob 32 := blob.slice 0 32 (by decide)
  if pub = s.pk then none
  else
    (s.wrapKey C pub pub s.pk id).bind fun wrap =>
      C.aeadUnlock wrap (blob.slice 32 24 (by decide)) pub.1 (blob.slice 56 16 (by decide))
        (blob.slice 72 32 (by decide))

/-- `take_key`: whether it was taken, and the state. -/
def takeKey (id : UInt64) (blob : Blob blobLen) (now : ℤ) : Bool × St :=
  if !s.running then (false, s)
  else if s.inNet ∧ s.netId ≤ id then (false, s)
  else
    match s.openBlob C id blob with
    | none => (false, s)
    | some k =>
        let t := s.adopt C k id now
        (true, if t.pairUntil ≠ 0 then { t with pairUntil := 0, pairEvent := some .done } else t)

/-- `push`: hand `K` to the Echo in the slot `i`. -/
def push (i : Fin nPeer) (now : ℤ) (nonce : Blob 24) : St :=
  let c := s.cands i
  if !s.inNet ∨ (c.net ≠ 0 ∧ c.net ≤ s.netId) then s
  else if c.attested then
    if ago c.gave now s.giveMs then s
    else
      match s.sealKey C c.pub nonce with
      | none => s
      | some blob =>
          let b := giveBytes ⟨c.pub, s.netId, blob⟩
          ((s.setCand i { c with gave := now }).sendPkt b).sendPkt b
  else if ago c.pushed now s.pushMs ∨ c.node.1 = [] ∨ s.haSince = 0 ∨
      now - max c.first s.haSince < s.attestWaitMs ∨ s.pushes.length = nPeer then s
  else
    match s.sealKey C c.pub nonce with
    | none => s
    | some blob =>
        { s.setCand i { c with pushed := now } with
          pushes := s.pushes ++
            [⟨c.node, Text.pad 16 (Text.numeral 16 s.netId.toNat), b64Encode false true blob.1⟩] }

/-- `tag_entity`. -/
def tagEntity (pub : Blob 32) : Bytes :=
  ascii ['t', 'a', 'g', '.', 'h', 'a', 's', 's', 'm', 'i', 'c', '_'] ++ Text.hex pub.1

/-- `poll_tag`. -/
def pollTag (pub : Blob 32) : St :=
  if s.polls.length < nPeer then { s with polls := s.polls ++ [tagEntity pub] } else s

/-! ### Packets received -/

/-- A member of this id is counted. -/
def known (id : Blob 8) (now : ℤ) : Bool :=
  (List.finRange nPeer).any fun i =>
    (s.peers i).id == id && ago (s.peers i).seen now s.peerTtlMs

/-- It is in our network now: nothing more to hand it. -/
def dropCand (pub : Blob 32) : St :=
  { s with cands := fun i =>
      if (s.cands i).seen ≠ 0 ∧ (s.cands i).pub = pub then { s.cands i with seen := 0 }
      else s.cands i }

/-- What a member's beacon tells of it. -/
def notePeer (id : Blob 8) (nd : Node) (ip : UInt32) (flags : UInt8) : St :=
  let t := s.peer id
  let i := s.peerSlot id
  { t with
    peers := update t.peers i
      { t.peers i with
        node := nd, ip := ip, quiet := flags &&& fQuiet ≠ 0, kiosk := flags &&& fKiosk ≠ 0 } }

theorem eight_le : 8 ≤ 32 := by decide

/-- A beacon of our network, whose tag is good. -/
def onMember (b : BeaconPkt) (c : UInt64) (flags : UInt8) (now : ℤ) (ip : UInt32) : St :=
  let id := b.pub.first 8 eight_le
  let isKnown := s.known id now
  let r := (s.dropCand b.pub).fresh id c now
  if r.1 then
    let t := r.2.notePeer id b.nd ip flags
    if !isKnown ∨ flags &&& fHello ≠ 0 then t.beacon C true now else t
  else r.2

/-- Someone new may wait for our tag: the fast rate again. -/
def speedUp (now : ℤ) : St :=
  if ago s.sped now s.scanSlowMs then s else { s with sped := now, scans := 0 }

/-- A beacon of an Echo outside our network. -/
def onOutsider (b : BeaconPkt) (now : ℤ) (ip : UInt32) (nonce : Blob 24) : St :=
  let i := s.candSlot b.pub
  let c := s.cand b.pub
  let s := if c.first = 0 then s.speedUp now else s
  let first := if c.first = 0 then now else c.first
  let s := s.setCand i { c with first := first, ip := ip, node := b.nd, net := b.net, seen := now }
  let s := if s.inNet ∧ b.net = 0 ∧ !ago s.answerAt now 1000 then
      { s with answerAt := now }.beacon C true now
    else s
  s.push C i now nonce

/-- `T_BEACON`. -/
def onBeacon (p l : Bytes) (now : ℤ) (ip : UInt32) (nonce : Blob 24) : St :=
  match readBeacon l with
  | none => s
  | some (b, l) =>
      if b.pub = s.pk then s
      else if s.inNet ∧ b.net = s.netId then
        match readMember l with
        | none => s
        | some (c, flags) => if tagOk C s.macKey p then s.onMember C b c flags now ip else s
      else s.onOutsider C b now ip nonce

/-- The slot a pair request is noted in. -/
def preqSlot (pub : Blob 32) : Fin nPeer :=
  Slots.pick (fun i => (s.preqs i).seen != 0 && (s.preqs i).pub == pub) fun i => (s.preqs i).seen

/-- `T_PAIR`. -/
def onPair (l : Bytes) (now : ℤ) : St :=
  match readBeacon l with
  | none => s
  | some (b, _) =>
      if b.pub = s.pk then s
      else { s with preqs := update s.preqs (s.preqSlot b.pub) ⟨b.pub, b.nd, b.net, now⟩ }

/-- The candidate from which a key is taken outside pairing. -/
def giver (g : GivePkt) : Option (Fin nPeer) :=
  (List.finRange nPeer).find? fun i =>
    (s.cands i).seen != 0 && (s.cands i).attested && (s.cands i).net == g.net &&
      (s.cands i).pub == g.blob.slice 0 32 (by decide)

/-- `T_GIVE`. -/
def onGive (l : Bytes) (now : ℤ) : St :=
  match readGive l with
  | none => s
  | some g =>
      if g.to_ ≠ s.pk then s
      else if s.pairUntil ≠ 0 ∧ now < s.pairUntil then (s.takeKey C g.net g.blob now).2
      else
        match s.giver g with
        | none => s
        | some _ => if !s.inNet ∨ g.net < s.netId then (s.takeKey C g.net g.blob now).2 else s

/-- `T_MSG`. -/
def onMsg (p l : Bytes) (now : ℤ) (ip : UInt32) : St :=
  match readMsg l with
  | none => s
  | some m =>
      if !s.inNet ∨ m.net ≠ s.netId ∨ m.to_ ≠ s.id ∨ m.from_ = s.id ∨ arbMsgMax < m.p.length ∨
          !tagOk C s.macKey p then s
      else
        let r := s.fresh m.from_ m.c now
        if !r.1 ∨ r.2.msgs.length = nMsg then r.2
        else
          let t := r.2.peer m.from_
          { t with msgs := t.msgs ++
              [⟨m.from_, m.p, (t.peers (r.2.peerSlot m.from_)).node, ip⟩] }

/-- A claim that is kept: into the ring, and into our round. -/
def keepClaim (k : Claim) : St :=
  let s := { s with
    claims := update s.claims (Fin.ofNat nClaim s.claimNext) k
    claimNext := s.claimNext + 1 }.log (.kept k)
  let d := k.at_ - s.round.at_
  if s.round.open_ ∧ k.kw = s.round.kw ∧ d ≤ measureMs then
    let t := s.heard k.id k.at_ k.score k.prio k.won
    if k.won then t else t.sample k.id d k.at_
  else s

/-- `T_CLAIM`. -/
def onClaim (p l : Bytes) (now : ℤ) : St :=
  match readClaim l with
  | none => s
  | some q =>
      if !s.inNet ∨ q.net ≠ s.netId ∨ q.id = s.id ∨ !tagOk C s.macKey p then s
      else
        let r := s.fresh q.id q.c now
        if r.1 then r.2.keepClaim ⟨q.id, q.kw, get32 q.s, q.prio, q.won ≠ 0, now⟩ else r.2

/-- `on_packet`. -/
def onPacket (p : Bytes) (now : ℤ) (ip : UInt32) (nonce : Blob 24) : St :=
  match readHead p with
  | none => s
  | some (t, l) =>
      if t = tBeacon then s.onBeacon C p l now ip nonce
      else if t = tPair then s.onPair l now
      else if t = tGive then s.onGive C l now
      else if t = tMsg then s.onMsg C p l now ip
      else if t = tClaim then s.onClaim C p l now
      else s

end St

end Hassmic.Arb
