import Hassmic.Arb.Loop

/-!
# The interface

What the rest of the program calls, what the loop does, and the start of a
process from the files of the state directory.  Each of them runs under the
arbitration's lock, so a run of an Echo is a sequence of these steps.

## Main definitions

* `St.arbClaim`, `St.arbDecide`, `St.arbKey`, `St.arbPair`, … — the calls.
* `start` — `arb_start`.
* `Ev`, `St.step`, `St.run` — the steps of an Echo and its runs.
-/

namespace Hassmic.Arb

open Wire Byte
open scoped Slots

namespace St

variable (C : Crypto) (s : St)

/-! ### Keys and pairing -/

/-- `arb_key`. -/
def arbKey (network key : Bytes) (now : ℤ) : St :=
  let r := Text.unsigned 16 network
  let d := b64Decode key (blobLen + 4)
  match r with
  | none => s
  | some (id, rest) =>
      if h : rest = [] ∧ id ≠ 0 ∧ d.1 = true ∧ d.2.length = blobLen then
        (s.takeKey C id ⟨d.2, h.2.2.2⟩ now).2
      else s

/-- The states of a tag that are no scan. -/
def noScan : List Bytes :=
  [[], ascii ['u', 'n', 'k', 'n', 'o', 'w', 'n'],
    ascii ['u', 'n', 'a', 'v', 'a', 'i', 'l', 'a', 'b', 'l', 'e']]

/-- Home Assistant's word on the candidate in the slot `i`. -/
def confirm (entity state : Bytes) (i : Fin nPeer) : St :=
  let c := s.cands i
  if c.seen = 0 ∨ c.attested ∨ tagEntity c.pub ≠ entity then s
  else if c.tag0 = [] then s.setCand i { c with tag0 := state.take 47 }
  else if c.tag0.take 47 ≠ state.take 47 then s.setCand i { c with attested := true, pushed := 0 }
  else s

/-- `arb_ha_state`. -/
def arbHaState (entity state : Bytes) : St :=
  if state ∈ noScan ∨ !s.running then s
  else (List.finRange nPeer).foldl (fun (t : St) i => t.confirm entity state i) s

/-- `arb_pair`. -/
def arbPair (now : ℤ) : St :=
  if !s.running then s
  else
    { s with
      pairAt := now, pairUntil := now + s.pairMs, pairSent := 0, pairGave := false
      pairEvent := some .started }

/-! ### Rounds -/

/-- `tolower`. -/
def toLower (c : UInt8) : UInt8 := if 0x41 ≤ c ∧ c ≤ 0x5a then c + 32 else c

/-- `claim_pkt` and its sending. -/
def claimPkt (score prio : Int32) (won : Bool) (now : ℤ) : St :=
  let t := s.nextCtr
  t.sendSpread (claimBytes C t.macKey t.netId t.id t.ctr t.round.kw score
    (UInt8.ofNat (prio.toInt % 256).toNat) (if won then 1 else 0)) now

/-- One character of a phrase: what was written so far, and whether a space is due. -/
def phraseStep (r : Bytes × Bool) (c : UInt8) : Bytes × Bool :=
  if Text.isSpace c then (r.1, !r.1.isEmpty)
  else
    let out := if r.2 ∧ r.1.length + 1 < 64 then r.1 ++ [space] else r.1
    (if out.length + 1 < 64 then out ++ [toLower c] else out, false)

/-- `kiosk_phrase`. -/
def kioskPhrase (l : Bytes) : Bytes := (l.foldl phraseStep ([], false)).1

/-- One character of a phrase as JSON. -/
def escStep (out : Bytes) (c : UInt8) : Bytes :=
  if 384 ≤ out.length + 7 then out
  else if c = quote ∨ c = backslash then out ++ [backslash, c]
  else if c < 0x20 then out ++ [backslash, 0x75] ++ Text.pad 4 (Text.numeral 16 c.toNat)
  else out ++ [c]

/-- `lround(v / 10.0)`: halves away from zero. -/
def tenths (v : ℤ) : ℤ := if v < 0 then -((-v + 5) / 10) else (v + 5) / 10

/-- The text of a kiosk claim. -/
def kioskText (ph : Bytes) (rand : UInt32) (e : ℤ) : Bytes :=
  [lbrace] ++ ascii ['"', 'k', 's', '"', ':', '"', 'w', 'a', 'k', 'e', '"', ',', '"', 'v', '"', ':',
    '1', ',', '"', 'i', 'd', '"', ':', '"'] ++ s.kid ++ ascii ['"', ',', '"', 'n', '"', ':'] ++
    Text.numeral 10 (rand &&& 0x3fffffff).toNat ++ ascii [',', '"', 'p', '"', ':', '"'] ++
    ph.foldl escStep [] ++ ascii ['"', ',', '"', 'e', '"', ':'] ++
    (if e < 0 then [minus] else []) ++ Text.numeral 10 (e.natAbs / 10) ++ [dot] ++
    Text.numeral 10 (e.natAbs % 10) ++ [rbrace]

/-- `kiosk_claim`: the time to decide, `0` if there is no round. -/
def kioskClaim (keyword : Bytes) (score : Int32) (now : ℤ) (rand : UInt32) : ℤ × St :=
  let ph := kioskPhrase keyword
  if !s.running ∨ !s.arbitrate ∨ !s.ksock ∨ ph = [] then (0, s)
  else
    let s := { s with kroundP := ph, kroundE := tenths score.toInt + s.koffset * 10 }
    let text := s.kioskText ph rand s.kroundE
    if 300 ≤ text.length then (0, { s with kpkt := text.take 299 })
    else
      (now + s.kwindow,
        { { s with kpkt := text, kpktN := text.length }.kioskSend with
          kcopies := 2, kcopyAt := now + kioskGapMs })

/-- `kiosk_decide`. -/
def kioskDecide : Bool :=
  !(List.finRange nClaim).any fun i =>
    let k := s.kclaims i
    k.at_ != 0 && decide (|k.at_ - s.round.at_| ≤ s.kwindow) && k.p == s.kroundP &&
      (decide (s.kroundE < k.e) || (k.e == s.kroundE && Byte.before k.id s.kid))

/-- A sample that came nearer to this detection than to the last one is withdrawn. -/
def withdraw (now : ℤ) (g : Got) : St :=
  if now - g.when_ < g.when_ - s.round.at_ ∧ s.ndelay - g.slot ≤ nDelay then
    let i := Fin.ofNat nDelay g.slot
    { s with
      delays := Function.update s.delays i { s.delays i with ms := -1 }
      round := { s.round with dirty := true } }
  else s

/-- The last round is over when a new one opens. -/
def closeRound (now : ℤ) : St :=
  if s.round.open_ then
    (s.round.got.foldl (fun (t : St) g => t.withdraw now g) s).rivalsTake ((s.round.at_ + now) / 2)
  else s

/-- The members counted when a round opens, and whether it waits for them: as many as
there is room for. -/
def wanted (now : ℤ) (score : Int32) : List Want :=
  (((List.finRange nPeer).filter fun i =>
    ago (s.peers i).seen now s.peerTtlMs && !(s.peers i).quiet).map fun i =>
      ⟨(s.peers i).id, s.rivalWaits (s.peers i).id score⟩).take (nPeer - s.round.want.length)

/-- A claim that came before ours. -/
def heardBefore (now : ℤ) (i : Fin nClaim) : St :=
  let k := s.claims i
  if counts k s.round.kw now then
    let t := s.heard k.id k.at_ k.score k.prio k.won
    if k.won then t else t.sample k.id 0 k.at_
  else s

/-- The claims that came before ours. -/
def heardAll (now : ℤ) : St :=
  (List.finRange nClaim).foldl (fun (t : St) i => t.heardBefore now i) s

/-- The round as it opens, whether or not Echos are asked. -/
def beginRound (kw : Blob 8) (now : ℤ) : St :=
  { s with round := { s.round with
      kw := kw, kiosk := decide (s.mode = Mode.kiosk), at_ := now
      open_ := false, decided := false, won := false, got := [] } }

/-- The round between the Echos. -/
def askRound (score prio : Int32) (now : ℤ) : St :=
  { s with round := { s.round with
      score := score, prio := prio, open_ := true, want := s.round.want ++ s.wanted now score } }

/-- When the round is decided. -/
def setDue (due : ℤ) : St := { s with round := { s.round with due := due } }

/-- How long the round waits. -/
def waitMs (score prio : Int32) (now : ℤ) : ℤ :=
  if (s.wanted now score).any (·.waits) then
    if s.wauto then ((s.askRound score prio now).learned now).1 else s.kwindow
  else 0

/-- A round between the Echos opens. -/
def openRound (score prio : Int32) (now : ℤ) : St :=
  (((s.askRound score prio now).heardAll now).claimPkt C score prio false now).setDue
    (now + s.waitMs score prio now)

/-- `arb_claim`: its result is the last of the history. -/
def arbClaim (keyword : Bytes) (score prio : Int32) (now : ℤ) (rand : UInt32) : St :=
  let s := (s.closeRound now).beginRound (C.blake2b8 ((keyword.take 64).map toLower)) now
  if s.round.kiosk then
    let r := s.kioskClaim keyword score now rand
    r.2.log (.claimed r.1)
  else if s.running ∧ s.arbitrate ∧ s.inNet ∧ s.countPeers now ≠ 0 then
    let s := s.openRound C score prio now
    s.log (.claimed s.round.due)
  else s.log (.claimed 0)

/-- The round is decided. -/
def setDecided (win : Bool) : St := { s with round := { s.round with decided := true, won := win } }

/-- `arb_decide`: its result is the last of the history. -/
def arbDecide (now : ℤ) : St :=
  if s.round.kiosk then s.log (.decided s.kioskDecide)
  else
    let win := !s.beaten
    let s := s.setDecided win
    let s := if win ∧ s.inNet then s.claimPkt C s.round.score s.round.prio true now else s
    s.log (.decided win)

/-! ### Settings and messages -/

/-- `arb_arbitrate`. -/
def arbArbitrate (set : Bool) : St :=
  if set = s.arbitrate then s
  else { { s with arbitrate := set, claims := fun _ => {}, beaconAt := 0 }.save with
    notify := true }

/-- `arb_mode`. -/
def arbMode (set : Mode) : St :=
  if set = s.mode then s
  else
    { s with
      mode := set, claims := fun _ => {}, kclaims := fun _ => {}, beaconAt := 0, notify := true }

/-- `arb_offset`. -/
def arbOffset (set : ℤ) : St := if -20 ≤ set ∧ set ≤ 20 then { s with koffset := set } else s

/-- `arb_window`. -/
def arbWindow (set : ℤ) : St := if 100 ≤ set ∧ set ≤ autoMaxMs then { s with kwindow := set } else s

/-- `arb_window_auto`. -/
def arbWindowAuto (set : Bool) : St :=
  if set = s.wauto then s else { s with wauto := set, wlogged := 0 }

/-- `arb_tell`. -/
def arbTell (to_ : Blob 8) (p : Bytes) : St :=
  if arbMsgMax < p.length ∨ !s.running ∨ !s.inNet then s
  else
    let t := s.nextCtr
    t.sendPkt (msgBytes C t.macKey t.netId t.id to_ t.ctr p)

end St

/-! ### Steps and runs -/

/-- What happens to an Echo. -/
inductive Ev
  | packet (p : Bytes) (now : Instant) (ip : UInt32) (nonce : Blob 24)
  | tick (e : Turn)
  | key (network key : Bytes) (now : Instant)
  | haState (entity state : Bytes)
  | pair (now : Instant)
  | claim (keyword : Bytes) (score prio : Int32) (now : Instant) (rand : UInt32)
  | decide (now : Instant)
  | arbitrate (set : Bool)
  | mode (set : Mode)
  | offset (set : ℤ)
  | window (set : ℤ)
  | windowAuto (set : Bool)
  | tell (to_ : Blob 8) (p : Bytes)

/-- One step of an Echo. -/
def St.step (C : Crypto) (s : St) : Ev → St
  | .packet p now ip nonce => s.onPacket C p now.1 ip nonce
  | .tick e => s.tick C e
  | .key network key now => s.arbKey C network key now.1
  | .haState entity state => s.arbHaState entity state
  | .pair now => s.arbPair now.1
  | .claim keyword score prio now rand => s.arbClaim C keyword score prio now.1 rand
  | .decide now => s.arbDecide C now.1
  | .arbitrate set => s.arbArbitrate set
  | .mode set => s.arbMode set
  | .offset set => s.arbOffset set
  | .window set => s.arbWindow set
  | .windowAuto set => s.arbWindowAuto set
  | .tell to_ p => s.arbTell C to_ p

/-- A run of an Echo. -/
def St.run (C : Crypto) (s : St) (l : List Ev) : St := l.foldl (St.step C) s

/-! ### The start of a process -/

/-- What a start reads: the files (none: not there), the environment, the clock and
random bytes. -/
structure Boot where
  arbitration : Option Bytes
  arbKey : Option Bytes
  pace : ℕ
  rivalsOn : Bool
  node : Node
  now : Instant
  rand : Blob 32

/-- The secret key in the file of the identity. -/
def readIdentity (text : Bytes) : Option (Blob 32) :=
  let t := (St.fgets 63 text).1.takeWhile fun c => c ≠ nul && c ≠ cr && c ≠ lf
  let d := b64Decode t 32
  if h : text ≠ [] ∧ d.1 = true ∧ d.2.length = 32 then some ⟨d.2, h.2.2⟩ else none

/-- `identity`: the secret key, and whether it is a new one to be written. -/
def identity (b : Boot) (renew : Bool) : Blob 32 × Bool :=
  match if renew then none else b.arbKey.bind readIdentity with
  | some sk => (sk, false)
  | none => (b.rand, true)

/-- The text of the file of the identity. -/
def identityText (sk : Blob 32) : Bytes := b64Encode false true sk.1 ++ [lf]

/-- What `arb_start` sets from its arguments and the environment. -/
def boot (b : Boot) : St :=
  let s : St :=
    { pace := b.pace
      rivalsOn := b.rivalsOn
      node := b.node
      rivals := fun _ => { n_le := Nat.zero_le _ } }
  { s with beaconGap := s.beaconMinMs }

/-- `load` at the start. -/
def loaded (C : Crypto) (b : Boot) : St :=
  match b.arbitration with
  | some text => (boot b).load C text
  | none => boot b

/-- **`arb_start`**, up to the loop's first turn. -/
def start (C : Crypto) (b : Boot) : St :=
  let s := loaded C b
  let r := identity b (!s.ctrKnown)
  let s := { s with sk := r.1, pk := C.publicKey r.1 }
  let s := if r.2 then s.log (.savedKey (identityText r.1)) else s
  let s := { s with
    kid := Text.hex s.id.1
    selfTag := (St.tagEntity s.pk).drop 4
    ctr := s.ctrSaved, ctrSaved := s.ctrSaved + ctrBlock }.save
  { s with started := b.now.1, helloUntil := b.now.1 + s.beaconMaxMs, running := true }

theorem unread_loaded (C : Crypto) (b : Boot) : (loaded C b).unread = (boot b).unread := by
  unfold loaded
  split
  · exact St.unread_load C _ _
  · rfl

theorem out_loaded (C : Crypto) (b : Boot) : (loaded C b).out = [] :=
  congrArg (·.2.2.2.2.2.2.2.2.2) (unread_loaded C b)

/-- What a start leaves in the history: a new identity, and the text of its state. -/
theorem start_out (C : Crypto) (b : Boot) : ∃ u : St, u.kept = (start C b).kept ∧
    (start C b).out = (if (identity b (!(loaded C b).ctrKnown)).2
      then [.savedKey (identityText (identity b (!(loaded C b).ctrKnown)).1)] else []) ++
      [.saved u.stateText] := by
  by_cases hnew : (identity b (!(loaded C b).ctrKnown)).2
  · have h : ∃ u : St, u.kept = (start C b).kept ∧ (start C b).out = ((loaded C b).out ++
        [.savedKey (identityText (identity b (!(loaded C b).ctrKnown)).1)]) ++
        [.saved u.stateText] := by
      unfold start
      simp only [hnew, if_true]
      exact ⟨_, rfl, rfl⟩
    rw [if_pos hnew]
    rwa [out_loaded] at h
  · have h : ∃ u : St, u.kept = (start C b).kept ∧
        (start C b).out = (loaded C b).out ++ [.saved u.stateText] := by
      unfold start
      simp only [hnew]
      exact ⟨_, rfl, rfl⟩
    rw [if_neg hnew]
    rwa [out_loaded] at h

/-- A start is in the network that its file names. -/
theorem start_network (C : Crypto) (b : Boot) : (start C b).inNet = (loaded C b).inNet ∧
    (start C b).netId = (loaded C b).netId ∧ (start C b).netKey = (loaded C b).netKey := by
  unfold start
  simp only
  split <;> exact ⟨rfl, rfl, rfl⟩

theorem start_peers (C : Crypto) (b : Boot) : (start C b).peers = fun _ => {} := by
  have hpeers : (loaded C b).peers = fun _ => {} := congrArg (·.2.2.2.1) (unread_loaded C b)
  unfold start
  simp only
  split
  · exact hpeers
  · exact hpeers

theorem start_round (C : Crypto) (b : Boot) : (start C b).round = {} := by
  have hround : (loaded C b).round = {} := congrArg (·.2.2.2.2.2.2.2.2.1) (unread_loaded C b)
  unfold start
  simp only
  split
  · exact hround
  · exact hround

/-! ### An Echo to try -/

/-- A start at the time `1`, from no files: all bytes of its key are `c`. -/
def Boot.plain (c : UInt8) : Boot where
  arbitration := none
  arbKey := none
  pace := 1000
  rivalsOn := true
  node := default
  now := ⟨1, by decide⟩
  rand := .fill 32 c

/-- A turn in which the network `7` would be started. -/
def Turn.plain (now : Instant) : Turn where
  now := now
  rand := 0
  newKey := .fill 32 9
  newId := ⟨7, by decide⟩
  nonce _ := .zero 24
  pairNonce := .zero 24
  bound := false
  requested _ := false

end Hassmic.Arb
