import Hassmic.Lib.Runs
import Hassmic.Lib.Text
import Hassmic.Lib.Wire

/-!
# Drop In: one Echo

A call between two Echos of a network.  The caller invites until it is answered, the callee connects
at once or rings; both derive the call's key from ephemeral keys.  Every state a call passes through
is queued for the core, which a loop tells them in order; the first invite goes out when the core
has been told that the Echo calls.  The audio of a call comes in packets under its key, and is
played from a jitter buffer.

Times are in milliseconds.  What `arb`, the random numbers and the clock give to a function is among
its arguments.

## Main definitions

* `Msg`, `Msg.bytes`, `Msg.parse` — the messages, written and read.
* `Echo` — the state behind the lock, and each of its functions under its name.
* `Echo.step`, `Echo.run` — what may happen to an Echo, in any order.

## Main results

* `Msg.parse_bytes` — a message is read as it was written.
-/

namespace Hassmic.DropIn

open Byte

/-- The id of a call, or of a member of the network. -/
abbrev Id := Blob 8

abbrev Key := Blob 32

/-- The functions of the cryptographic library: `crypto_x25519_public_key`, `crypto_x25519`,
`crypto_blake2b_keyed` and `crypto_aead_unlock`, the last with the part of the nonce that is not
zero, the additional data, and the frame with its tag. -/
structure Crypto where
  pub : Key → Key
  x25519 : Key → Key → Key
  keyed : Key → Bytes → Key
  unlock : Key → Bytes → Bytes → Bytes → Option Bytes

/-- Functions that hide nothing: keys are added, a frame is opened by leaving out its tag, and a
hash is a number in base 257. -/
def openCrypto : Crypto where
  pub k := k
  x25519 a b := ⟨List.zipWith (· ^^^ ·) a.1 b.1, by rw [List.length_zipWith, a.2, b.2]; rfl⟩
  keyed k m :=
    ⟨Wire.le 32 ((k.1 ++ m).foldl (fun a c => a * 257 + c.toNat + 1) 7), Wire.length_le ..⟩
  unlock _ _ _ body := some (body.take (body.length - 16))

/-- What does not change: who we are, and the two times that tests set. -/
structure Env where
  crypto : Crypto
  selfId : Id
  nodeName : Bytes
  myPort : UInt16
  answerMs : ℤ := 4000
  lostMs : ℤ := 5000

/-- `INVITE_MS`. -/
abbrev inviteMs : ℤ := 250

/-- `RING_MS`. -/
abbrev ringMs : ℤ := 30000

/-- `CALLER_MS`. -/
abbrev callerMs : ℤ := 5000

/-- `JB`, `MAXPKT`, `PREBUF` and `MAXBUF`. -/
abbrev jbSlots : ℕ := 32
abbrev maxPkt : ℕ := 400
abbrev preBuf : UInt32 := 4
abbrev maxBuf : ℤ := 12

/-- `EVQ`. -/
abbrev evqMax : ℕ := 16

/-- `DROPIN_IDLE` to `DROPIN_LIVE`. -/
inductive Phase
  | idle | calling | ringing | live
  deriving DecidableEq

/-- `DROPIN_R_CONNECTED` to `DROPIN_R_FAILED`. -/
inductive Result
  | connected | ringing | busy | dnd | muted | off | declined | notAnswered | noAnswer | notFound
  | busyHere | mutedHere | cancelled | failed
  deriving DecidableEq

/-! ### Messages -/

/-- `M_INVITE` to `M_BYE`. -/
inductive Kind
  | invite | accept | ringing | refuse | bye
  deriving DecidableEq

def Kind.code : Kind → UInt8
  | .invite => 1
  | .accept => 2
  | .ringing => 3
  | .refuse => 4
  | .bye => 5

def Kind.ofCode (n : UInt8) : Option Kind :=
  if n = 1 then some .invite else if n = 2 then some .accept else if n = 3 then some .ringing
  else if n = 4 then some .refuse else if n = 5 then some .bye else none

/-- A message: its kind, the call, the audio port, the ephemeral key and a reason. -/
structure Msg where
  kind : Kind
  id : Id
  port : UInt16
  epk : Key
  reason : Bytes := []
  deriving DecidableEq

/-- `msg`: at most 60 bytes of the reason. -/
def Msg.bytes (m : Msg) : Bytes :=
  m.kind.code :: (m.id.1 ++ (Wire.le 2 m.port.toNat ++ (m.epk.1 ++
    (UInt8.ofNat (m.reason.take 60).length :: m.reason.take 60))))

/-- A reason as it is read: as a string of at most 63 bytes, with blanks for what is below them. -/
def clean (l : Bytes) : Bytes :=
  ((l.takeWhile (· ≠ 0)).take 63).map fun b => if b < 0x20 then 0x20 else b

/-- How `dropin_message` reads a message. -/
def Msg.parse (p : Bytes) : Option Msg := do
  let (k, p) ← Wire.byte p
  let kind ← Kind.ofCode k
  let (id, p) ← Wire.take 8 p
  let (port, p) ← Wire.take 2 p
  let (epk, p) ← Wire.take 32 p
  let (n, p) ← Wire.byte p
  if p.length < n.toNat then none
  else some ⟨kind, id, UInt16.ofNat (Wire.ofLe port.1), epk, clean (p.take n.toNat)⟩

/-- **A message is read as it was written**, but for its reason. -/
theorem Msg.parse_bytes (m : Msg) :
    Msg.parse m.bytes = some { m with reason := clean (m.reason.take 60) } := by
  have hport : UInt16.ofNat (Wire.ofLe (Wire.le 2 m.port.toNat)) = m.port := by
    rw [Wire.ofLe_le, Nat.mod_eq_of_lt (lt_of_lt_of_eq m.port.toNat_lt (by norm_num)),
      UInt16.ofNat_toNat]
  have hlen : (UInt8.ofNat (m.reason.take 60).length).toNat = (m.reason.take 60).length := by
    rw [UInt8.toNat_ofNat', Nat.mod_eq_of_lt]
    exact lt_of_le_of_lt (List.length_take_le 60 _) (by norm_num)
  have hcode : Kind.ofCode m.kind.code = some m.kind := by cases m.kind <;> rfl
  have htake : Wire.take 2 (Wire.le 2 m.port.toNat ++ (m.epk.1 ++
      (UInt8.ofNat (m.reason.take 60).length :: m.reason.take 60))) = some (⟨Wire.le 2 m.port.toNat,
        Wire.length_le ..⟩,
        m.epk.1 ++ (UInt8.ofNat (m.reason.take 60).length :: m.reason.take 60)) :=
    Wire.take_append ⟨_, Wire.length_le ..⟩ _
  simp only [Msg.parse, Msg.bytes, Wire.byte, hcode, Wire.take_append, htake, Option.bind_eq_bind,
    Option.bind_some, hlen, lt_irrefl, if_false, hport, List.take_length]

/-! ### Packets -/

/-- `HMD1`. -/
def magic : Bytes := [0x48, 0x4d, 0x44, 0x31]

/-- A packet of audio: the call, the direction, the number of the frame, and the frame with its
tag. -/
structure Packet where
  id : Id
  dir : UInt8
  seq : UInt32
  body : Bytes

/-- How `on_audio` reads a packet. -/
def Packet.parse (p : Bytes) : Option Packet := do
  let (hmd, p) ← Wire.take 4 p
  let (id, p) ← Wire.take 8 p
  let (dir, p) ← Wire.byte p
  let (seq, p) ← Wire.take 4 p
  if hmd.1 ≠ magic ∨ p.length < 1 + 16 ∨ maxPkt + 16 < p.length then none
  else some ⟨id, dir, UInt32.ofNat (Wire.ofLe seq.1), p⟩

/-- The part of the nonce that is not zero. -/
def Packet.nonce (a : Packet) : Bytes := a.id.1 ++ (a.dir :: Wire.le 4 a.seq.toNat)

/-- The reasons of a refusal, and what comes of the call. -/
def refusal (why : Bytes) : Result :=
  if why = text "busy in another Drop In" then .busy
  else if why = text "do not disturb is on" then .dnd
  else if why = text "the microphones are off" then .muted
  else if why = text "Drop In is off there" then .off
  else if why = text "declined" then .declined
  else if why = text "not answered" then .notAnswered
  else .failed

/-! ### The state -/

/-- What the core is told: a state (none: a result alone) and what came of a call this Echo made. -/
structure Ev where
  state : Option Phase
  node : Bytes
  outgoing : Bool
  result : Option Result
  here : Bool
  gen : ℕ

/-- The call. -/
structure Call where
  state : Phase := .idle
  outgoing : Bool := false
  gen : ℕ := 0
  keyed : Bool := false
  rang : Bool := false
  invited : Bool := false
  id : Id := Blob.zero 8
  peer : Id := Blob.zero 8
  node : Bytes := []
  ip : UInt32 := 0
  port : UInt16 := 0
  esk : Key := Blob.zero 32
  epk : Key := Blob.zero 32
  key : Key := Blob.zero 32
  since : ℤ := 0
  sigAt : ℤ := 0
  rxAt : ℤ := 0
  txSeq : UInt32 := 0

/-- The goodbye that is sent again. -/
structure Bye where
  left : ℕ := 0
  sentAt : ℤ := 0
  dest : Id := Blob.zero 8
  m : Msg := ⟨.bye, Blob.zero 8, 0, Blob.zero 32, []⟩

/-- A slot of the jitter buffer: no frame waits in it if `len` is zero. -/
structure Slot where
  seq : UInt32 := 0
  len : ℕ := 0
  d : Bytes := []

/-- The jitter buffer: the newest frame in, and the first of the call. -/
structure Jitter where
  slots : Fin jbSlots → Slot := fun _ => {}
  hi : UInt32 := 0
  lo : UInt32 := 0
  any : Bool := false

/-- What the playout thread has of its own while a call runs. -/
structure Playout where
  gen : ℕ
  since : ℤ
  started : Bool := false
  next : UInt32 := 0

/-- The state behind the lock.  The fields from `log` on are kept for the statements only: the
events queued, told and lost, the calls this Echo made and those that ended, what it sent, and the
packets taken in this call. -/
structure Echo where
  enabled : Bool := true
  ask : Bool := false
  c : Call := {}
  bye : Bye := {}
  ended : List Id := List.replicate 4 (Blob.zero 8)
  jb : Jitter := {}
  playout : Option Playout := none
  evq : List Ev := []
  /-- The event `tell_core` is telling the core. -/
  telling : Option Ev := none
  log : List Ev := []
  told : List Ev := []
  lost : List Ev := []
  made : List ℕ := []
  past : List Id := []
  sent : List (Id × Msg) := []
  taken : List Bytes := []

/-- `a - b` as a signed number. -/
def ahead (a b : UInt32) : ℤ := (a - b).toInt32.toInt

/-- The slot of a frame. -/
def slotOf (seq : UInt32) : Fin jbSlots := ⟨seq.toNat % jbSlots, Nat.mod_lt _ (by decide)⟩

namespace Echo

variable (E : Env) (s : Echo)

/-! ### Events and messages -/

/-- `ev_push`. -/
def evPush (state : Option Phase) (node : Bytes) (outgoing : Bool) (result : Option Result)
    (here : Bool) : Echo :=
  let e : Ev := ⟨state, node.take 63, outgoing, result, here, s.c.gen⟩
  let q := s.evq ++ [e]
  if evqMax < q.length then
    { s with evq := q.drop 1, lost := s.lost ++ q.take 1, log := s.log ++ [e] }
  else { s with evq := q, log := s.log ++ [e] }

/-- `msg`. -/
def msg (kind : Kind) (reason : Bytes) : Msg := ⟨kind, s.c.id, E.myPort, s.c.epk, reason⟩

/-- `arb_tell`. -/
def arbTell (dest : Id) (m : Msg) : Echo := { s with sent := s.sent ++ [(dest, m)] }

/-- `send_msg`. -/
def sendMsg (kind : Kind) (reason : Bytes) : Echo := s.arbTell s.c.peer (s.msg E kind reason)

/-- `send_to`: with the call's id, and without our ephemeral key. -/
def sendTo (dest id : Id) (kind : Kind) (reason : Bytes) : Echo :=
  s.arbTell dest ⟨kind, id, E.myPort, Blob.zero 32, reason⟩

/-! ### Calls -/

/-- The key `derive` makes, `kd` being what `arb_derive` gives. -/
def deriveKey (kd : Option Key) (peerEpk : Key) : Option Key :=
  kd.bind fun kd =>
    let shared := E.crypto.x25519 s.c.esk peerEpk
    if shared = Blob.zero 32 then none
    else
      let caller := if s.c.outgoing then E.selfId else s.c.peer
      let callee := if s.c.outgoing then s.c.peer else E.selfId
      some (E.crypto.keyed kd (shared.1 ++ (s.c.id.1 ++ (caller.1 ++ callee.1))))

/-- `go_live`. -/
def goLive (now : ℤ) : Echo :=
  let s := s.evPush (some .live) s.c.node s.c.outgoing
    (if s.c.outgoing then some .connected else none) false
  { s with
    c := { s.c with state := .live, rxAt := now, txSeq := 0 }
    jb := { s.jb with slots := fun _ => {}, any := false }
    taken := [] }

/-- `end_call`. -/
def endCall (now : ℤ) (why : Bytes) (tell : Bool) (result : Option Result) : Echo :=
  if s.c.state = .idle then s
  else
    let s := s.evPush (some .idle) [] s.c.outgoing
      (if s.c.state = .calling ∧ s.c.outgoing then result else none) false
    let s := if tell then
        { s.arbTell s.c.peer (s.msg E .bye why) with
          bye := ⟨2, now, s.c.peer, s.msg E .bye why⟩ }
      else s
    { s with
      ended := (s.c.id :: s.ended).take 4
      past := s.c.id :: s.past
      c := { s.c with
        state := .idle
        gen := s.c.gen + 1
        keyed := false
        rang := false
        esk := Blob.zero 32
        key := Blob.zero 32 } }

/-- `fresh_call`, with the secret key `ws_random` gives. -/
def freshCall (peer : Id) (node : Bytes) (ip : UInt32) (outgoing : Bool) (esk : Key) (now : ℤ) :
    Echo :=
  { s with
    c := { s.c with
      id := Blob.zero 8
      outgoing := outgoing
      gen := s.c.gen + 1
      keyed := false
      rang := false
      invited := false
      peer := peer
      node := node.take 63
      ip := ip
      port := 0
      esk := esk
      epk := E.crypto.pub esk
      since := now
      sigAt := now } }

/-- `answer`. -/
def answer (now : ℤ) : Echo := (s.sendMsg E .accept []).goLive now

/-! ### The interface -/

/-- `dropin_enable`. -/
def dropinEnable (on : Bool) (now : ℤ) : Echo :=
  if on = s.enabled then s
  else
    let s := { s with enabled := on }
    if on then s else s.endCall E now (text "Drop In switched off") true (some .cancelled)

/-- `dropin_ask`. -/
def dropinAsk (on : Bool) : Echo := { s with ask := on }

/-- Why `dropin_call` refuses: `muted` is `core_dropin_refusal(0)`, `member` what `arb_member`
gives. -/
def callRefused (node : Bytes) (member : Option (Id × UInt32)) (muted : Bool) : Option Result :=
  if node = E.nodeName then some .failed
  else if member = none then some .notFound
  else if s.enabled = false then some .failed
  else if muted then some .mutedHere
  else if s.c.state ≠ .idle then some .busyHere
  else none

/-- `dropin_call`, with the id and the secret key `ws_random` gives. -/
def dropinCall (node : Bytes) (member : Option (Id × UInt32)) (muted : Bool) (esk : Key) (id : Id)
    (now : ℤ) : Echo :=
  match s.callRefused E node member muted with
  | some r => s.evPush none node true (some r) true
  | none =>
      match member with
      | none => s
      | some (peer, ip) =>
          let s := s.freshCall E peer node ip true esk now
          let s := { s with
            c := { s.c with id := id, state := .calling }
            made := s.made ++ [s.c.gen] }
          s.evPush (some .calling) node true none false

/-- `dropin_hangup`. -/
def dropinHangup (why : Bytes) (now : ℤ) : Echo :=
  if s.c.state = .ringing then
    (s.sendMsg E .refuse (text "declined")).endCall E now why false none
  else s.endCall E now why (s.c.state ≠ .calling ∨ s.c.invited) (some .cancelled)

/-- `dropin_answer`. -/
def dropinAnswer (now : ℤ) : Echo := if s.c.state = .ringing then s.answer E now else s

/-- `dropin_button`. -/
def dropinButton (now : ℤ) : Echo :=
  if s.c.state = .ringing then s.answer E now
  else s.endCall E now (text "action button") true (some .cancelled)

/-- `same`: the message is about the call that runs, and from the Echo we have it with. -/
def same (peer : Id) (m : Msg) : Prop := s.c.state ≠ .idle ∧ s.c.id = m.id ∧ s.c.peer = peer

instance (peer : Id) (m : Msg) : Decidable (s.same peer m) := instDecidableAnd

/-- A call that is taken rings, or connects. -/
def take (now : ℤ) : Echo :=
  if s.ask then
    let s := { s with c := { s.c with state := .ringing } }
    (s.evPush (some .ringing) s.c.node false none false).sendMsg E .ringing []
  else s.answer E now

/-- `M_INVITE` for a call that is new to us: `no` is `core_dropin_refusal(1)`. -/
def invited (kd : Option Key) (esk : Key) (no : Option Bytes) (peer : Id)
    (node : Bytes) (ip : UInt32) (m : Msg) (now : ℤ) : Echo :=
  if m.id ∈ s.ended then s
  else if s.enabled = false ∨ no ≠ none ∨ s.c.state ≠ .idle ∨ m.port = 0 ∨ node = [] then
    s.sendTo E peer m.id .refuse <|
      if s.enabled = false then text "Drop In is off there"
      else match no with
        | some no => no
        | none => if s.c.state ≠ .idle then text "busy in another Drop In" else text "no address"
  else
    let s := s.freshCall E peer node ip false esk now
    let s := { s with c := { s.c with id := m.id, port := m.port } }
    match s.deriveKey E kd m.epk with
    | none => { s.sendTo E peer m.id .refuse (text "no key") with c := { s.c with state := .idle } }
    | some key => { s with c := { s.c with key := key, keyed := true } }.take E now

/-- `dropin_message`, read. -/
def message (kd : Option Key) (esk : Key) (no : Option Bytes) (peer : Id)
    (node : Bytes) (ip : UInt32) (m : Msg) (now : ℤ) : Echo :=
  match m.kind with
  | .invite =>
      if s.same peer m ∧ s.c.outgoing = false then
        let s := { s with c := { s.c with sigAt := now } }
        if s.c.state = .live then s.sendMsg E .accept []
        else if s.c.state = .ringing then s.sendMsg E .ringing []
        else s
      else s.invited E kd esk no peer node ip m now
  | .ringing =>
      if s.same peer m ∧ s.c.outgoing ∧ s.c.state = .calling then
        let s := if s.c.rang then s else s.evPush none s.c.node true (some .ringing) false
        { s with c := { s.c with rang := true, sigAt := now, rxAt := now } }
      else s
  | .accept =>
      if s.same peer m ∧ s.c.outgoing ∧ s.c.state = .calling then
        let s := { s with c := { s.c with port := m.port, ip := ip } }
        match (if m.port = 0 then none else s.deriveKey E kd m.epk) with
        | none => s.endCall E now (text "no key") true (some .failed)
        | some key => { s with c := { s.c with key := key, keyed := true } }.goLive now
      else s
  | .refuse =>
      if s.same peer m ∧ s.c.outgoing ∧ s.c.state = .calling then
        s.endCall E now (text "refused: " ++ if m.reason = [] then text "no reason"
          else m.reason) false
          (some (refusal m.reason))
      else s
  | .bye =>
      if s.same peer m then
        s.endCall E now (s.c.node ++ text " hung up" ++
          if m.reason = [] then [] else text ": " ++ m.reason) false (some .failed)
      else s

/-- `dropin_message`. -/
def dropinMessage (kd : Option Key) (esk : Key) (no : Option Bytes) (peer : Id) (node : Bytes)
    (ip : UInt32) (p : Bytes) (now : ℤ) : Echo :=
  match Msg.parse p with
  | none => s
  | some m => s.message E kd esk no peer node ip m now

/-! ### The loop -/

/-- `tell_core` takes an event from the queue. -/
def tellPop : Echo :=
  match s.telling, s.evq with
  | none, e :: q => { s with evq := q, told := s.told ++ [e], telling := some e }
  | _, _ => s

/-- `tell_core` has told the core: a call of ours sends its first invite. -/
def tellDone (now : ℤ) : Echo :=
  match s.telling with
  | none => s
  | some e =>
      let s := { s with telling := none }
      if (e.state = some .calling ∧ e.outgoing) ∧ s.c.state = .calling ∧ s.c.outgoing ∧
          s.c.gen = e.gen ∧ s.c.invited = false then
        { s with c := { s.c with invited := true, since := now, sigAt := now } }.sendMsg E .invite
          []
      else s

/-- `tick`, for the call. -/
def tickCall (now : ℤ) : Echo :=
  match s.c.state with
  | .idle => s
  | .calling =>
      if s.c.invited = false then s
      else if s.c.rang = false ∧ E.answerMs < now - s.c.since then
        s.endCall E now (text "no answer") true (some .noAnswer)
      else if s.c.rang ∧ ringMs + E.answerMs < now - s.c.since then
        s.endCall E now (text "not answered") true (some .notAnswered)
      else if (if s.c.rang then 1000 else inviteMs) ≤ now - s.c.sigAt then
        { s with c := { s.c with sigAt := now } }.sendMsg E .invite []
      else s
  | .ringing =>
      if ringMs < now - s.c.since then
        (s.sendMsg E .refuse (text "not answered")).endCall E now (text "not answered") false none
      else if callerMs < now - s.c.sigAt then
        s.endCall E now (text "the caller gave up") false none
      else s
  | .live =>
      if E.lostMs < now - s.c.rxAt then
        s.endCall E now
          (text "lost: no audio for " ++ Text.decimal (E.lostMs.tdiv 1000) ++ text " s")
          true none
      else s

/-- `tick`. -/
def tick (now : ℤ) : Echo :=
  let s := s.tickCall E now
  if 0 < s.bye.left ∧ 100 ≤ now - s.bye.sentAt then
    { s.arbTell s.bye.dest s.bye.m with
      bye := { s.bye with sentAt := now, left := s.bye.left - 1 } }
  else s

/-! ### Audio -/

/-- `on_audio`: the packet `p` from an address. -/
def onAudio (p : Bytes) (ip : UInt32) (port : UInt16) (now : ℤ) : Echo :=
  match Packet.parse p with
  | none => s
  | some a =>
      if s.c.state ≠ .live ∨ s.c.keyed = false ∨ a.id ≠ s.c.id ∨
        a.dir ≠ (if s.c.outgoing then 1 else 0)
      then s
      else if s.jb.any ∧ ahead a.seq s.jb.hi < -jbSlots then s
      else match E.crypto.unlock s.c.key a.nonce (magic ++ a.nonce) a.body with
        | none => s
        | some d =>
            { s with
              jb :=
                { slots := Function.update s.jb.slots (slotOf a.seq) ⟨a.seq, a.body.length - 16, d⟩
                  hi := if s.jb.any = false ∨ 0 < ahead a.seq s.jb.hi then a.seq else s.jb.hi
                  lo := if s.jb.any = false ∨ ahead a.seq s.jb.lo < 0 then a.seq else s.jb.lo
                  any := true }
              c := { s.c with rxAt := now, ip := ip, port := port }
              taken := s.taken ++ [p] }

/-- The header `send_frame` puts before a frame: the direction is 0 from the caller. -/
def frameHeader (seq : UInt32) : Bytes :=
  magic ++ (s.c.id.1 ++ ((if s.c.outgoing then 0 else 1) :: Wire.le 4 seq.toNat))

/-- `send_frame`, as far as the call is concerned. -/
def sendFrame : Echo :=
  if s.c.state ≠ .live ∨ s.c.keyed = false ∨ s.c.port = 0 then s
  else { s with c := { s.c with txSeq := s.c.txSeq + 1 } }

/-- The playout thread finds a live call. -/
def playoutOpen (now : ℤ) : Echo :=
  match s.playout with
  | none => if s.c.state = .live then { s with playout := some ⟨s.c.gen, now, false, 0⟩ } else s
  | some _ => s

/-- Where the playout stands before it takes a frame: it starts with some frames held, and skips
ahead of too many. -/
def playoutAt (t : Playout) (now : ℤ) : Playout :=
  let t := if t.started = false ∧ s.jb.any ∧
      (preBuf - 1 ≤ s.jb.hi - s.jb.lo ∨ 300 < now - t.since) then
      { t with started := true, next := s.jb.lo }
    else t
  if t.started ∧ maxBuf < ahead s.jb.hi t.next then { t with next := s.jb.hi - (preBuf - 1) } else t

/-- The playout thread takes a frame from the jitter buffer, or finds that it is missing. -/
def playoutFrame (now : ℤ) : Echo :=
  match s.playout with
  | none => s
  | some t =>
      if s.c.state ≠ .live ∨ s.c.gen ≠ t.gen then { s with playout := none }
      else
        let t := s.playoutAt t now
        let slot := s.jb.slots (slotOf t.next)
        let after := s.jb.slots (slotOf (t.next + 1))
        let newer := 0 < ahead s.jb.hi t.next
        let found := slot.len ≠ 0 ∧ slot.seq = t.next ∨
          newer ∧ after.len ≠ 0 ∧ after.seq = t.next + 1
        if t.started ∧ (found ∨ newer) then
          { s with
            jb := { s.jb with
              slots := Function.update s.jb.slots (slotOf t.next) { slot with len := 0 } }
            playout := some { t with next := t.next + 1 } }
        else { s with playout := some t }

end Echo

/-! ### Runs -/

/-- What may happen to an Echo. -/
inductive Event
  | enable (on : Bool) (now : ℤ)
  | ask (on : Bool)
  | call (node : Bytes) (member : Option (Id × UInt32)) (muted : Bool) (esk : Key)
  (id : Id) (now : ℤ)
  | hangup (why : Bytes) (now : ℤ)
  | answer (now : ℤ)
  | button (now : ℤ)
  | message (kd : Option Key) (esk : Key) (no : Option Bytes) (peer : Id)
  (node : Bytes) (ip : UInt32)
      (p : Bytes) (now : ℤ)
  | tellPop
  | tellDone (now : ℤ)
  | tick (now : ℤ)
  | audio (p : Bytes) (ip : UInt32) (port : UInt16) (now : ℤ)
  | frame
  | playoutOpen (now : ℤ)
  | playoutFrame (now : ℤ)

/-- One step. -/
def Echo.step (E : Env) (s : Echo) : Event → Echo
  | .enable on now => s.dropinEnable E on now
  | .ask on => s.dropinAsk on
  | .call node member muted esk id now => s.dropinCall E node member muted esk id now
  | .hangup why now => s.dropinHangup E why now
  | .answer now => s.dropinAnswer E now
  | .button now => s.dropinButton E now
  | .message kd esk no peer node ip p now => s.dropinMessage E kd esk no peer node ip p now
  | .tellPop => s.tellPop
  | .tellDone now => s.tellDone E now
  | .tick now => s.tick E now
  | .audio p ip port now => s.onAudio E p ip port now
  | .frame => s.sendFrame
  | .playoutOpen now => s.playoutOpen now
  | .playoutFrame now => s.playoutFrame now

/-- A run from the start. -/
def Echo.run (E : Env) (es : List Event) : Echo := es.foldl (Echo.step E) {}

end Hassmic.DropIn
