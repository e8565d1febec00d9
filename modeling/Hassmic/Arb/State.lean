import Hassmic.Lib.Wire
import Hassmic.Lib.Slots

/-!
# The state of an Echo

Everything the arbitration keeps under its lock, table by table.  Times are
milliseconds of the monotonic clock, which never reads `0`; a time of `0` says
"never".  What the source sends, writes or hands over is recorded in the order in
which it happens, together with what its functions answer where a property of
runs speaks of it: `Out` is the history of one Echo.

## Main definitions

* `Peer`, `Claim`, `Cand`, `Preq`, `Rival`, `Delay`, `Round` — the tables.
* `Crypto` — the primitives of the vendored library.
* `Out` — what happens, in order.
* `St` — the state.
-/

namespace Hassmic.Arb

/-! ### Sizes and times -/

abbrev nPeer : ℕ := 16
abbrev nClaim : ℕ := 16
abbrev nLen : ℕ := 64
abbrev nDelay : ℕ := 64
abbrev obsKeep : ℕ := 64
abbrev blobLen : ℕ := 32 + 24 + 16 + 32
abbrev arbMsgMax : ℕ := 160
abbrev nMsg : ℕ := 8
abbrev ctrBlock : UInt64 := 4096
abbrev scanN : ℕ := 12

abbrev autoStartMs : ℤ := 500
abbrev autoMinMs : ℤ := 150
abbrev autoMaxMs : ℤ := 1000
abbrev autoMarginMs : ℤ := 50
abbrev autoLearn : ℕ := 10
abbrev autoPeerMin : ℕ := 3
abbrev measureMs : ℤ := 1500
abbrev lookbackMs : ℤ := 1000
abbrev kioskGapMs : ℤ := 15

/-- A difference that says there was no claim. -/
abbrev dNone : Int32 := Int32.minValue
/-- A difference that says its priority beat ours. -/
abbrev dPrio : Int32 := Int32.maxValue
abbrev rivalDb : ℤ := 300

/-- A reading of the monotonic clock. -/
abbrev Instant := {t : ℤ // 0 < t}

/-- Less than `ms` ago; `0` is never. -/
def ago (t now ms : ℤ) : Bool := t != 0 && decide (now - t < ms)

/-- A node name, as `char node[NLEN]` holds it. -/
abbrev Node := {b : Bytes // b.length < nLen ∧ Byte.nul ∉ b}

instance : Inhabited Node := ⟨⟨[], by decide⟩⟩

/-! ### The tables -/

/-- A member of our network. -/
structure Peer where
  id : Blob 8 := .zero 8
  ctr : UInt64 := 0
  seen : ℤ := 0
  node : Node := default
  ip : UInt32 := 0
  quiet : Bool := false
  kiosk : Bool := false

/-- A claim heard. -/
structure Claim where
  id : Blob 8 := .zero 8
  kw : Blob 8 := .zero 8
  score : Int32 := 0
  prio : UInt8 := 0
  won : Bool := false
  at_ : ℤ := 0

/-- An Echo outside our network. -/
structure Cand where
  pub : Blob 32 := .zero 32
  node : Node := default
  net : UInt64 := 0
  attested : Bool := false
  tag0 : Bytes := []
  ip : UInt32 := 0
  seen : ℤ := 0
  first : ℤ := 0
  pushed : ℤ := 0
  gave : ℤ := 0
  polled : ℤ := 0

/-- A key for Home Assistant to hand over. -/
structure Push where
  node : Node
  net : Bytes
  key : Bytes

/-- A pair request heard. -/
structure Preq where
  pub : Blob 32 := .zero 32
  node : Node := default
  net : UInt64 := 0
  seen : ℤ := 0

/-- A member's claim against ours in one round. -/
structure Obs where
  own : Int32 := 0
  d : Int32 := 0

/-- The rounds kept of a member: a ring of which `next` were ever taken. -/
structure Rival where
  id : Blob 8 := .zero 8
  n : ℕ := 0
  next : ℕ := 0
  at_ : ℤ := 0
  o : Fin obsKeep → Obs := fun _ => {}
  n_le : n ≤ obsKeep := by decide

/-- A sample of how late a member's claim came; `-1` when withdrawn. -/
structure Delay where
  id : Blob 8 := .zero 8
  ms : Int32 := 0

/-- A member sampled in our round. -/
structure Got where
  id : Blob 8
  slot : ℕ
  when_ : ℤ

/-- A member counted when our round opened. -/
structure Want where
  id : Blob 8
  waits : Bool

/-- Who claimed in our round, and its best. -/
structure Heard where
  id : Blob 8
  at_ : ℤ
  s : Int32
  p : UInt8
  w : Bool

/-- Our round.  The arrays `got`, `want` and `heard` are the lists of their used
entries. -/
structure Round where
  kw : Blob 8 := .zero 8
  score : Int32 := 0
  prio : Int32 := 0
  kiosk : Bool := false
  open_ : Bool := false
  decided : Bool := false
  won : Bool := false
  dirty : Bool := false
  at_ : ℤ := 0
  due : ℤ := 0
  got : List Got := []
  want : List Want := []
  heard : List Heard := []

/-- A claim of a Kiosk Satellite. -/
structure KClaim where
  id : Bytes := []
  p : Bytes := []
  n : ℤ := 0
  at_ : ℤ := 0
  e : ℤ := 0

/-- A packet of which copies are due. -/
structure Copies where
  p : Bytes := []
  at_ : ℤ := 0
  left : ℕ := 0

/-- A message for `hooks->message`. -/
structure Msg where
  from_ : Blob 8
  p : Bytes
  node : Node
  ip : UInt32

/-- A sealed key, for an Echo. -/
structure GivePkt where
  to_ : Blob 32 := .zero 32
  net : UInt64 := 0
  blob : Blob blobLen := .zero blobLen

/-- How rounds are settled. -/
inductive Mode
  | hassmic
  | kiosk
  deriving DecidableEq

/-- What the pairing gesture tells, as `hooks->paired` numbers it. -/
inductive PairEvent
  | ended
  | started
  | done

/-! ### Primitives and history -/

/-- The primitives of the vendored library that the arbitration uses. -/
structure Crypto where
  /-- `crypto_blake2b` of 8 bytes. -/
  blake2b8 : Bytes → Blob 8
  /-- `crypto_blake2b_keyed` of 16 bytes. -/
  keyed16 : Blob 32 → Bytes → Blob 16
  /-- `crypto_blake2b_keyed` of 32 bytes. -/
  keyed32 : Blob 32 → Bytes → Blob 32
  /-- `crypto_x25519_public_key`. -/
  publicKey : Blob 32 → Blob 32
  /-- `crypto_x25519`: a secret key and another's public key. -/
  x25519 : Blob 32 → Blob 32 → Blob 32
  /-- `crypto_aead_lock`: key, nonce, additional data and 32 bytes of text. -/
  aeadLock : Blob 32 → Blob 24 → Bytes → Blob 32 → Blob 16 × Blob 32
  /-- `crypto_aead_unlock`: key, nonce, additional data, MAC and cipher text. -/
  aeadUnlock : Blob 32 → Blob 24 → Bytes → Blob 16 → Blob 32 → Option (Blob 32)

/-- Primitives that hide nothing, for runs on fixed inputs. -/
def Crypto.clear : Crypto where
  blake2b8 _ := .zero 8
  keyed16 _ _ := .zero 16
  keyed32 k _ := k
  publicKey k := k
  x25519 _ k := k
  aeadLock _ _ _ text := (.zero 16, text)
  aeadUnlock _ _ _ _ text := some text

/-- What happens at an Echo. -/
inductive Out
  /-- A packet went out. -/
  | sent (p : Bytes)
  /-- A packet that went out before was sent once more. -/
  | copied (p : Bytes)
  /-- The state file was to be replaced by this text. -/
  | saved (text : Bytes)
  /-- The file of the identity was to be replaced by this text. -/
  | savedKey (text : Bytes)
  /-- What `fresh` answered for an authentic packet. -/
  | fresh (id : Blob 8) (c : UInt64) (taken : Bool)
  /-- A claim was kept. -/
  | kept (k : Claim)
  /-- A key was taken on. -/
  | adopted
  /-- What `arb_claim` returned. -/
  | claimed (due : ℤ)
  /-- What `arb_decide` returned. -/
  | decided (win : Bool)
  | kioskSent (p : Bytes)
  | sendKey (q : Push)
  | request (entity : Bytes)
  | scan (tag : Bytes)
  | paired (e : PairEvent)
  | message (m : Msg)
  | changed

/-- The state of an Echo. -/
structure St where
  /-- `HASSMIC_ARB_SCALE`, per mille. -/
  pace : ℕ := 1000
  rivalsOn : Bool := true
  running : Bool := false
  arbitrate : Bool := true
  node : Node := default
  sk : Blob 32 := .zero 32
  pk : Blob 32 := .zero 32
  inNet : Bool := false
  netId : UInt64 := 0
  netKey : Blob 32 := .zero 32
  macKey : Blob 32 := .zero 32
  ctr : UInt64 := 0
  ctrSaved : UInt64 := 0
  ctrKnown : Bool := false
  started : ℤ := 0
  beaconAt : ℤ := 0
  answerAt : ℤ := 0
  beaconGap : ℤ := 0
  helloUntil : ℤ := 0
  reportedPeers : ℤ := -1
  notify : Bool := false
  peers : Fin nPeer → Peer := fun _ => {}
  claims : Fin nClaim → Claim := fun _ => {}
  claimNext : ℕ := 0
  cands : Fin nPeer → Cand := fun _ => {}
  pushes : List Push := []
  polls : List Bytes := []
  selfTag : Bytes := []
  scanAt : ℤ := 0
  sped : ℤ := 0
  scans : ℕ := 0
  scanDue : Bool := false
  haSince : ℤ := 0
  preqs : Fin nPeer → Preq := fun _ => {}
  pairAt : ℤ := 0
  pairUntil : ℤ := 0
  pairSent : ℤ := 0
  giveAt : ℤ := 0
  pairGave : Bool := false
  giveLeft : ℕ := 0
  pairEvent : Option PairEvent := none
  givePkt : GivePkt := {}
  round : Round := {}
  rivals : Fin nPeer → Rival := fun _ => {}
  delays : Fin nDelay → Delay := fun _ => {}
  ndelay : ℕ := 0
  wauto : Bool := true
  wlogged : ℤ := 0
  unsaved : Bool := false
  savedAt : ℤ := 0
  mode : Mode := .hassmic
  kwindow : ℤ := 400
  koffset : ℤ := 0
  ksock : Bool := false
  kfailed : ℤ := 0
  kid : Bytes := []
  kclaims : Fin nClaim → KClaim := fun _ => {}
  kroundP : Bytes := []
  kroundE : ℤ := 0
  kpkt : Bytes := []
  kpktN : ℕ := 0
  kcopies : ℕ := 0
  kcopyAt : ℤ := 0
  copies : Fin 2 → Copies := fun _ => {}
  msgs : List Msg := []
  /-- What happened, in order. -/
  out : List Out := []

namespace St

variable (s : St)

/-- The first eight bytes of our public key. -/
def id : Blob 8 := s.pk.first 8 (by omega)

/-- Note what happened. -/
def logAll (l : List Out) : St := { s with out := s.out ++ l }

/-- Note that something happened. -/
def log (o : Out) : St := s.logAll [o]

/-- The macro `PACE`. -/
def paced (ms : ℤ) : ℤ := ms * s.pace / 1000

def beaconMinMs : ℤ := s.paced 20000
def beaconMaxMs : ℤ := s.paced 40000
def lonerMs : ℤ := s.paced 10000
def lookMs : ℤ := s.paced 1200
def peerTtlMs : ℤ := s.paced 300000
def saveMs : ℤ := s.paced 60000
def discoverMs : ℤ := s.paced 5000
def pushMs : ℤ := s.paced 30000
def pollMs : ℤ := s.paced 3000
def scanMs : ℤ := s.paced 10000
def scanSlowMs : ℤ := s.paced 300000
def giveMs : ℤ := s.paced 5000
def attestWaitMs : ℤ := s.paced 30000
def pairMs : ℤ := s.paced 120000
def pairSettleMs : ℤ := s.paced 2000

end St

end Hassmic.Arb
