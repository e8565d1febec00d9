import Hassmic.Lib.Runs
import Hassmic.Noise.Responder

/-!
# A session with an initiator of the specification

The responder meets an initiator that follows the specification.  The handshake
completes on both sides, and afterwards either side sends what it likes while the other
reads in order; what does not authenticate changes nothing.

## Main definitions

* `Session`, `kkSession`, `nnSession` — both handshakes, and what the sides end with.
* `Link`, `Move`, `Link.step` — the messages that follow.
* `Carries` — the invariant of the link.

## Main results

* `noise_agrees` — the responder agrees with the specification.
* `nonce_twice` — a nonce comes round after `2 ^ 64` messages.
-/

namespace Hassmic.Noise

open Handshake List Option

variable (N : Suite)

/-! ### The handshakes -/

/-- What both sides of a handshake end with, and the keys and nonces it encrypted under. -/
structure Session where
  /-- The payload the responder read. -/
  payload₁ : Bytes
  /-- The payload the initiator read. -/
  payload₂ : Bytes
  hashI : Key
  hashR : Key
  sendI : CipherState
  recvI : CipherState
  sendR : Cs
  recvR : Cs
  used : List (Key × UInt64)

/-- Both sides have the same hash and the same keys, swapped, and read what was sent. -/
structure Session.Agreed (S : Session) (p₁ p₂ : Bytes) : Prop where
  payload₁ : S.payload₁ = p₁
  payload₂ : S.payload₂ = p₂
  hash : S.hashI = S.hashR
  sendI : S.sendI = { k := some S.recvR.k, n := S.recvR.n }
  recvI : S.recvI = { k := some S.sendR.k, n := S.sendR.n }
  recvR : S.recvR.n = 0
  sendR : S.sendR.n = 0

/-- The key and nonce that the payload of the initiator's next message is encrypted under. -/
def payloadUse (i : HandshakeState) : List (Key × UInt64) :=
  ((i.messages.head?.bind (i.writeTokens N)).bind fun r =>
    r.2.sym.cs.k.map fun k => (k, r.2.sym.cs.n)).toList

/-- The end of both handshakes: `w` is what the responder wrote, its payload from the state `s`. -/
def finish (i : HandshakeState) (s : Hs) (w : Bytes × Hs × Cs × Cs) (used : List (Key × UInt64))
    (q₁ : Bytes) : Option Session := do
  let r ← i.readMessage N w.1
  let c := r.2.sym.split N
  some {
    payload₁ := q₁
    payload₂ := r.1
    hashI := r.2.sym.h
    hashR := w.2.1.hashOut
    sendI := c.1
    recvI := c.2
    sendR := w.2.2.1
    recvR := w.2.2.2
    used := used ++ [(s.k, s.n)] }

/-- `KKpsk2`, with the static keys, the ephemeral ones and the payloads of both sides. -/
def kkSession (prologue : Bytes) (sI sR eI eR psk : Key) (p₁ p₂ : Bytes) : Option Session := do
  let i := HandshakeState.initializeHandshake N kkpsk2 true prologue eI (some sI) (some (N.pub sR))
    [psk]
  let m ← i.writeMessage N p₁
  let r := kkReadMsg1 N (kkResponderInit N prologue sR (N.pub sR) (N.pub sI)) m.1
  let q₁ ← r.1
  finish N m.2 (kkMixMsg2 N r.2 eR psk) (kkWriteMsg2 N r.2 eR psk p₂) (payloadUse N i) q₁

/-- `NNpsk0`. -/
def nnSession (prologue : Bytes) (eI eR psk : Key) (p₁ p₂ : Bytes) : Option Session := do
  let i := HandshakeState.initializeHandshake N nnpsk0 true prologue eI none none [psk]
  let m ← i.writeMessage N p₁
  let r := nnReadMsg1 N (nnResponderInit N prologue) psk m.1
  let q₁ ← r.1
  finish N m.2 (nnMixMsg2 N r.2 eR) (nnWriteMsg2 N r.2 eR p₂) (payloadUse N i) q₁

variable {N}

/-- The initiator of `KKpsk2` after its first message. -/
def kkSent (N : Suite) (prologue : Bytes) (sI rs eI psk : Key) (t : SymmetricState) :
    HandshakeState :=
  { HandshakeState.initializeHandshake N kkpsk2 true prologue eI (some sI) (some rs) [psk] with
    e := some eI
    sym := t
    messages := [[.e, .ee, .se, .psk]] }

/-- What the initiator of `KKpsk2` has mixed in before its first payload. -/
def kkFirst (N : Suite) (prologue : Bytes) (sI rs eI : Key) : SymmetricState :=
  let t := (SymmetricState.initializeSymmetric N kkpsk2.name).mixHash N prologue
  let t := (t.mixHash N (N.pub sI).1).mixHash N rs.1
  let t := (t.mixHash N (N.pub eI).1).mixKey N (N.pub eI).1
  (t.mixKey N (N.dh eI rs).1).mixKey N (N.dh sI rs).1

theorem kk_writeMessage (prologue : Bytes) (sI rs eI psk : Key) (p₁ : Bytes) :
    (HandshakeState.initializeHandshake N kkpsk2 true prologue eI (some sI) (some rs)
      [psk]).writeMessage N p₁ =
    ((kkFirst N prologue sI rs eI).encryptAndHash N p₁).map fun c =>
      ((N.pub eI).1 ++ c.1, kkSent N prologue sI rs eI psk c.2) := by
  have h : (HandshakeState.initializeHandshake N kkpsk2 true prologue eI (some sI) (some rs)
      [psk]).writeMessage N p₁ = ((kkFirst N prologue sI rs eI).encryptAndHash N p₁).bind fun c =>
        some ((N.pub eI).1 ++ [] ++ c.1, kkSent N prologue sI rs eI psk c.2) := rfl
  rw [h, append_nil, map_eq_bind]
  rfl

/-- And after the second. -/
def kkDone (N : Suite) (prologue : Bytes) (sI rs eI psk re : Key) (t : SymmetricState) :
    HandshakeState :=
  { kkSent N prologue sI rs eI psk t with re := some re, psks := [], messages := [] }

theorem kk_readMessage (prologue : Bytes) (sI rs eI psk : Key) (t : SymmetricState) (k : Key)
    (c : Bytes) : (kkSent N prologue sI rs eI psk t).readMessage N (k.1 ++ c) =
    ((((((t.mixHash N k.1).mixKey N k.1).mixKey N (N.dh eI k).1).mixKey N
      (N.dh sI k).1).mixKeyAndHash N psk.1).decryptAndHash N c).map fun r =>
        (r.1, kkDone N prologue sI rs eI psk k r.2) := by
  unfold HandshakeState.readMessage
  simp only [kkSent, HandshakeState.readTokens_e, map_eq_bind]
  rfl

/-- The initiator of `NNpsk0` after its first message. -/
def nnSent (N : Suite) (prologue : Bytes) (eI psk : Key) (t : SymmetricState) : HandshakeState :=
  { HandshakeState.initializeHandshake N nnpsk0 true prologue eI none none [psk] with
    e := some eI
    sym := t
    psks := []
    messages := [[.e, .ee]] }

/-- What the initiator of `NNpsk0` has mixed in before its first payload. -/
def nnFirst (N : Suite) (prologue : Bytes) (eI psk : Key) : SymmetricState :=
  let t := (SymmetricState.initializeSymmetric N nnpsk0.name).mixHash N prologue
  let t := t.mixKeyAndHash N psk.1
  (t.mixHash N (N.pub eI).1).mixKey N (N.pub eI).1

theorem nn_writeMessage (prologue : Bytes) (eI psk : Key) (p₁ : Bytes) :
    (HandshakeState.initializeHandshake N nnpsk0 true prologue eI none none
      [psk]).writeMessage N p₁ =
    ((nnFirst N prologue eI psk).encryptAndHash N p₁).map fun c =>
      ((N.pub eI).1 ++ c.1, nnSent N prologue eI psk c.2) := by
  have h : (HandshakeState.initializeHandshake N nnpsk0 true prologue eI none none
      [psk]).writeMessage N p₁ = ((nnFirst N prologue eI psk).encryptAndHash N p₁).bind fun c =>
        some ((N.pub eI).1 ++ [] ++ c.1, nnSent N prologue eI psk c.2) := rfl
  rw [h, append_nil, map_eq_bind]
  rfl

/-- And after the second. -/
def nnDone (N : Suite) (prologue : Bytes) (eI psk re : Key) (t : SymmetricState) : HandshakeState :=
  { nnSent N prologue eI psk t with re := some re, messages := [] }

theorem nn_readMessage (prologue : Bytes) (eI psk : Key) (t : SymmetricState) (k : Key)
    (c : Bytes) : (nnSent N prologue eI psk t).readMessage N (k.1 ++ c) =
    ((((t.mixHash N k.1).mixKey N k.1).mixKey N (N.dh eI k).1).decryptAndHash N c).map fun r =>
        (r.1, nnDone N prologue eI psk k r.2) := by
  unfold HandshakeState.readMessage
  simp only [nnSent, HandshakeState.readTokens_e, map_eq_bind]
  rfl

/-- Where the initiator's state before its last payload agrees with the responder's, both
end the same. -/
theorem finish_agreed (hN : N.Opens) {i : HandshakeState} {s : Hs} {t : SymmetricState}
    {u : SymmetricState → HandshakeState} (hu : ∀ t, (u t).sym = t)
    (hread : ∀ c, i.readMessage N (s.ePub.1 ++ c) =
      (t.decryptAndHash N c).map fun r => (r.1, u r.2))
    (hs : Agrees s t) (hk : s.hasK = true) (hn : s.n = 0) (used : List (Key × UInt64))
    (p₁ p₂ : Bytes) : ∃ S, finish N i s (writePayload N s p₂) used p₁ = some S ∧
    S.Agreed p₁ p₂ := by
  obtain ⟨c, t', hw, hd, hhash, hsplit, hr, hs⟩ := hs.writePayload hN hk hn p₂
  have hmsg : i.readMessage N (writePayload N s p₂).1 = some (p₂, u t') := by
    rw [hw, hread, hd]
    rfl
  refine ⟨_, by simp only [finish, hmsg]; rfl, ⟨rfl, rfl, ?_, ?_, ?_, hr, hs⟩⟩
  · simp only [hu, hhash]
  · simp only [hu, hsplit, hr]
  · simp only [hu, hsplit, hs]

theorem initializeSymmetric_agrees {name : Bytes} (h : 32 < name.length) :
    Agrees { h := N.hash name, ck := N.hash name } (SymmetricState.initializeSymmetric N name) := by
  have hname : SymmetricState.initializeSymmetric N name =
      { ck := N.hash name, h := N.hash name } := by
    simp only [SymmetricState.initializeSymmetric]
    rw [dif_neg (by omega)]
  rw [hname]
  exact ⟨rfl, rfl, rfl⟩

theorem headKey_append (k : Key) (c : Bytes) (h : 32 ≤ (k.1 ++ c).length) :
    headKey (k.1 ++ c) h = k := by
  apply Subtype.ext
  exact take_left' k.2

theorem kkReadMsg1_append (s : Hs) (k : Key) {c : Bytes} (hc : 16 ≤ c.length) :
    kkReadMsg1 N s (k.1 ++ c) = readPayload N (kkMixMsg1 N s k) c := by
  have hlen : ¬ (k.1 ++ c).length < 32 + 16 := by rw [length_append, k.2]; omega
  have hdrop : (k.1 ++ c).drop 32 = c := drop_left' k.2
  unfold kkReadMsg1
  rw [dif_neg hlen, headKey_append, hdrop]

theorem nnReadMsg1_append (s : Hs) (psk k : Key) {c : Bytes} (hc : 16 ≤ c.length) :
    nnReadMsg1 N s psk (k.1 ++ c) = readPayload N (nnMixMsg1 N s psk k) c := by
  have hlen : ¬ (k.1 ++ c).length < 32 + 16 := by rw [length_append, k.2]; omega
  have hdrop : (k.1 ++ c).drop 32 = c := drop_left' k.2
  unfold nnReadMsg1
  rw [dif_neg hlen, headKey_append, hdrop]

/-- The pre-messages of `KKpsk2`. -/
theorem kkResponderInit_agrees (prologue : Bytes) (sPriv sPub rs : Key) :
    Agrees (kkResponderInit N prologue sPriv sPub rs)
      ((((SymmetricState.initializeSymmetric N kkpsk2.name).mixHash N prologue).mixHash N
        rs.1).mixHash N sPub.1) := by
  have hname : Agrees { h := N.hash protocol, ck := N.hash protocol }
      (SymmetricState.initializeSymmetric N kkpsk2.name) :=
    initializeSymmetric_agrees (by decide : 32 < protocol.length)
  have hkeys : Agrees { mixHash N { h := N.hash protocol, ck := N.hash protocol } prologue with
      sPriv := sPriv, sPub := sPub, rs := rs } _ :=
    (hname.mixHash (N := N) prologue).of_eq rfl rfl rfl rfl rfl
  exact (hkeys.mixHash (N := N) rs.1).mixHash sPub.1

/-- **`KKpsk2` completes**, for every key, prologue and payload. -/
theorem kk_completes (hdh : N.Commutes) (hN : N.Opens) (prologue : Bytes) (sI sR eI eR psk : Key)
    (p₁ p₂ : Bytes) : ∃ S, kkSession N prologue sI sR eI eR psk p₁ p₂ = some S ∧
    S.Agreed p₁ p₂ := by
  -- the first message: the initiator's secrets are the responder's
  have hfirst :
      Agrees (kkMixMsg1 N (kkResponderInit N prologue sR (N.pub sR) (N.pub sI)) (N.pub eI))
      (kkFirst N prologue sI (N.pub sR) eI) := by
    have h := (kkResponderInit_agrees (N := N) prologue sR (N.pub sR) (N.pub sI)).kkMixMsg1 (N := N)
      (N.pub eI)
    simp only [kkFirst, hdh eI sR, hdh sI sR]
    exact h
  obtain ⟨c, t, s, hc, hlen, hread, hs, hre, hrs, hset⟩ := hfirst.readPayload hN rfl rfl p₁
  -- the second message
  have hsecond := hs.kkMixMsg2 (N := N) hset eR psk
  have hre' : s.re = N.pub eI := hre
  have hrs' : s.rs = N.pub sI := hrs
  rw [hre', hrs', hdh eR eI, hdh eR sI] at hsecond
  have hpub : (kkMixMsg2 N s eR psk).ePub = N.pub eR := by
    simp [kkMixMsg2, keypair, mixKeyAndHash, mixKey, mixHash, show s.eSet = false from hset]
  obtain ⟨S, hS, hagreed⟩ := finish_agreed (i := kkSent N prologue sI (N.pub sR) eI psk t)
    (u := kkDone N prologue sI (N.pub sR) eI psk (N.pub eR)) hN (fun _ => rfl)
    (fun c => by rw [hpub]; exact kk_readMessage ..) hsecond rfl rfl
    (payloadUse N (HandshakeState.initializeHandshake N kkpsk2 true prologue eI (some sI)
      (some (N.pub sR)) [psk])) p₁ p₂
  refine ⟨S, ?_, hagreed⟩
  simp only [kkSession, kk_writeMessage, hc, map_some, bind_eq_bind, bind_some,
    kkReadMsg1_append _ _ hlen, hread]
  exact hS

/-- **`NNpsk0` completes**, for every key, prologue and payload. -/
theorem nn_completes (hdh : N.Commutes) (hN : N.Opens) (prologue : Bytes) (eI eR psk : Key)
    (p₁ p₂ : Bytes) : ∃ S, nnSession N prologue eI eR psk p₁ p₂ = some S ∧ S.Agreed p₁ p₂ := by
  have hname : Agrees { h := N.hash nnProtocol, ck := N.hash nnProtocol }
      (SymmetricState.initializeSymmetric N nnpsk0.name) :=
    initializeSymmetric_agrees (by decide : 32 < nnProtocol.length)
  have hinit : Agrees (nnResponderInit N prologue) _ := hname.mixHash prologue
  have hfirst : Agrees (nnMixMsg1 N (nnResponderInit N prologue) psk (N.pub eI))
      (nnFirst N prologue eI psk) := hinit.nnMixMsg1 psk (N.pub eI)
  obtain ⟨c, t, s, hc, hlen, hread, hs, hre, -, hset⟩ := hfirst.readPayload hN rfl rfl p₁
  have hsecond := hs.nnMixMsg2 (N := N) hset eR
  have hre' : s.re = N.pub eI := hre
  rw [hre', hdh eR eI] at hsecond
  have hpub : (nnMixMsg2 N s eR).ePub = N.pub eR := by
    simp [nnMixMsg2, keypair, mixKey, mixHash, show s.eSet = false from hset]
  obtain ⟨S, hS, hagreed⟩ := finish_agreed (i := nnSent N prologue eI psk t)
    (u := nnDone N prologue eI psk (N.pub eR)) hN (fun _ => rfl)
    (fun c => by rw [hpub]; exact nn_readMessage ..) hsecond rfl rfl
    (payloadUse N (HandshakeState.initializeHandshake N nnpsk0 true prologue eI none none
      [psk])) p₁ p₂
  refine ⟨S, ?_, hagreed⟩
  simp only [nnSession, nn_writeMessage, hc, map_some, bind_eq_bind, bind_some,
    nnReadMsg1_append _ _ _ hlen, hread]
  exact hS

/-! ### The messages that follow -/

/-- Both sides after the handshake, what is on its way between them, and what was sent and
read.  The initiator's cipher states are those of the specification. -/
structure Link where
  sendI : CipherState
  recvI : CipherState
  sendR : Cs
  recvR : Cs
  toI : List Bytes := []
  toR : List Bytes := []
  sentI : List Bytes := []
  sentR : List Bytes := []
  gotI : List Bytes := []
  gotR : List Bytes := []
  /-- Something that was sent was not read. -/
  failed : Bool := false
  /-- The keys and nonces of all encryptions. -/
  used : List (Key × UInt64)

/-- The link after a handshake. -/
def Session.link (S : Session) : Link where
  sendI := S.sendI
  recvI := S.recvI
  sendR := S.sendR
  recvR := S.recvR
  used := S.used

/-- What happens on the link: a side sends, a side reads what comes next, or something else
arrives. -/
inductive Move
  | sendsI (text : Bytes)
  | sendsR (text : Bytes)
  | readsI
  | readsR
  | strayI (c : Bytes)
  | strayR (c : Bytes)

/-- One step of the link. -/
def Link.step (N : Suite) (l : Link) : Move → Link
  | .sendsI text =>
      match l.sendI.encryptWithAd N [] text with
      | none => l
      | some r =>
          { l with
            sendI := r.2
            toR := l.toR ++ [r.1]
            sentI := l.sentI ++ [text]
            used := l.used ++ (l.sendI.k.map fun k => (k, l.sendI.n)).toList }
  | .sendsR text =>
      { l with
        sendR := (noiseEncrypt N l.sendR text).2
        toI := l.toI ++ [(noiseEncrypt N l.sendR text).1]
        sentR := l.sentR ++ [text]
        used := l.used ++ [(l.sendR.k, l.sendR.n)] }
  | .readsI =>
      match l.toI with
      | [] => l
      | c :: rest =>
          match l.recvI.decryptWithAd N [] c with
          | none => { l with toI := rest, failed := true }
          | some r => { l with toI := rest, recvI := r.2, gotI := l.gotI ++ [r.1] }
  | .readsR =>
      match l.toR with
      | [] => l
      | c :: rest =>
          match noiseDecrypt N l.recvR c with
          | (none, cs) => { l with toR := rest, recvR := cs, failed := true }
          | (some text, cs) => { l with toR := rest, recvR := cs, gotR := l.gotR ++ [text] }
  | .strayI c =>
      match l.recvI.decryptWithAd N [] c with
      | none => l
      | some r => { l with recvI := r.2, gotI := l.gotI ++ [r.1] }
  | .strayR c =>
      match noiseDecrypt N l.recvR c with
      | (none, cs) => { l with recvR := cs }
      | (some text, cs) => { l with recvR := cs, gotR := l.gotR ++ [text] }

/-- What else arrives does not authenticate, and the responder sends fewer messages than
there are nonces. -/
def Allowed (N : Suite) (l : Link) : Move → Prop
  | .strayI c => l.recvI.decryptWithAd N [] c = none
  | .strayR c => (noiseDecrypt N l.recvR c).1 = none
  | .sendsR _ => l.sentR.length < 2 ^ 64 - 1
  | _ => True

/-- A failed `noise_decrypt` leaves the cipher state as it is. -/
theorem noiseDecrypt_failed {c : Cs} {ct : Bytes} (h : (noiseDecrypt N c ct).1 = none) :
    (noiseDecrypt N c ct).2 = c := by
  revert h
  unfold noiseDecrypt
  cases aeadDecrypt N c.k c.n [] ct with
  | none => exact fun _ => rfl
  | some text => exact fun h => absurd h (by simp)

/-! ### In order -/

/-- Texts encrypted one after the other. -/
def sealed (N : Suite) (k : Key) : ℕ → List Bytes → List Bytes
  | _, [] => []
  | n, text :: l => N.encrypt k (UInt64.ofNat n) [] text :: sealed N k (n + 1) l

theorem sealed_concat (k : Key) (n : ℕ) (l : List Bytes) (text : Bytes) :
    sealed N k n (l ++ [text]) =
      sealed N k n l ++ [N.encrypt k (UInt64.ofNat (n + l.length)) [] text] := by
  induction l generalizing n with
  | nil => rfl
  | cons x l ih =>
    rw [cons_append, sealed, sealed, ih, cons_append, length_cons]
    congr 5
    omega

@[simp] theorem length_sealed (k : Key) (n : ℕ) (l : List Bytes) :
    (sealed N k n l).length = l.length := by
  induction l generalizing n with
  | nil => rfl
  | cons x l ih => rw [sealed, length_cons, length_cons, ih]

/-- One direction: what is on its way is what was sent and not read yet. -/
def Carries (N : Suite) (k : Key) (sent got flight : List Bytes) : Prop :=
  ∃ pending, sent = got ++ pending ∧ flight = sealed N k got.length pending

theorem Carries.sends {k : Key} {sent got flight : List Bytes} (h : Carries N k sent got flight)
    (text : Bytes) : Carries N k (sent ++ [text]) got
      (flight ++ [N.encrypt k (UInt64.ofNat sent.length) [] text]) := by
  obtain ⟨pending, rfl, rfl⟩ := h
  refine ⟨pending ++ [text], append_assoc .., ?_⟩
  rw [sealed_concat, length_append]

theorem Carries.reads {k : Key} {sent got rest : List Bytes} {c : Bytes}
    (h : Carries N k sent got (c :: rest)) : ∃ text,
      c = N.encrypt k (UInt64.ofNat got.length) [] text ∧ got.length < sent.length ∧
      Carries N k sent (got ++ [text]) rest := by
  obtain ⟨pending, rfl, hflight⟩ := h
  cases pending with
  | nil => exact absurd hflight (by simp [sealed])
  | cons text pending =>
    rw [sealed] at hflight
    obtain ⟨rfl, rfl⟩ := List.cons.inj hflight
    refine ⟨text, rfl, by simp, pending, by simp, ?_⟩
    rw [length_append, length_singleton]

/-- What was read is what was sent, but for what is still on its way. -/
def Delivered (sent got flight : List Bytes) : Prop :=
  got <+: sent ∧ sent.length = got.length + flight.length

theorem Carries.delivered {k : Key} {sent got flight : List Bytes}
    (h : Carries N k sent got flight) : Delivered sent got flight := by
  obtain ⟨pending, rfl, rfl⟩ := h
  exact ⟨prefix_append .., by simp⟩

/-- The keys of a session are different ones. -/
def Session.Distinct (S : Session) : Prop :=
  (S.used.map Prod.fst ++ [S.sendR.k, S.recvR.k]).Nodup

/-- The invariant of the link. -/
structure Sound (N : Suite) (S : Session) (l : Link) : Prop where
  sendI : l.sendI = { k := some S.recvR.k, n := UInt64.ofNat l.sentI.length }
  recvI : l.recvI = { k := some S.sendR.k, n := UInt64.ofNat l.gotI.length }
  sendR : l.sendR = ⟨S.sendR.k, UInt64.ofNat l.sentR.length⟩
  recvR : l.recvR = ⟨S.recvR.k, UInt64.ofNat l.gotR.length⟩
  toI : Carries N S.sendR.k l.sentR l.gotI l.toI
  toR : Carries N S.recvR.k l.sentI l.gotR l.toR
  boundI : l.sentI.length ≤ 2 ^ 64 - 1
  boundR : l.sentR.length ≤ 2 ^ 64 - 1
  failed : l.failed = false
  nodup : S.Distinct → l.used.Nodup
  used : ∀ p ∈ l.used, p ∈ S.used ∨ p.1 = S.sendR.k ∧ p.2.toNat < l.sentR.length ∨
    p.1 = S.recvR.k ∧ p.2.toNat < l.sentI.length

theorem sound_link (S : Session) {p₁ p₂ : Bytes} (hS : S.Agreed p₁ p₂) : Sound N S S.link where
  sendI := by rw [Session.link, hS.sendI, hS.recvR]; rfl
  recvI := by rw [Session.link, hS.recvI, hS.sendR]; rfl
  sendR := by
    show S.sendR = ⟨S.sendR.k, 0⟩
    rw [← hS.sendR]
  recvR := by
    show S.recvR = ⟨S.recvR.k, 0⟩
    rw [← hS.recvR]
  toI := ⟨[], rfl, rfl⟩
  toR := ⟨[], rfl, rfl⟩
  boundI := Nat.zero_le _
  boundR := Nat.zero_le _
  failed := rfl
  nodup := fun hkeys => (nodup_append.mp hkeys).1.of_map _
  used := fun _ hp => .inl hp

theorem toNat_ofNat_lt {n : ℕ} (h : n ≤ 2 ^ 64 - 1) : (UInt64.ofNat n).toNat = n :=
  UInt64.toNat_ofNat_of_lt' (by rw [UInt64.size]; omega)

/-- The last nonce is not reached. -/
theorem ofNat_ne_maxNonce {n : ℕ} (h : n < 2 ^ 64 - 1) : UInt64.ofNat n ≠ maxNonce := by
  intro heq
  have hnat : n = 2 ^ 64 - 1 := by
    rw [← toNat_ofNat_lt (by omega : n ≤ 2 ^ 64 - 1), heq]
    rfl
  omega

theorem ofNat_succ (n : ℕ) : UInt64.ofNat n + 1 = UInt64.ofNat (n + 1) := by
  apply UInt64.toNat_inj.mp
  simp [UInt64.toNat_add]

section Steps

variable {S : Session} {l : Link}

theorem Session.Distinct.sendR_notMem (h : S.Distinct) : S.sendR.k ∉ S.used.map Prod.fst :=
  fun hmem => (nodup_append.mp h).2.2 _ hmem _ (by simp) rfl

theorem Session.Distinct.recvR_notMem (h : S.Distinct) : S.recvR.k ∉ S.used.map Prod.fst :=
  fun hmem => (nodup_append.mp h).2.2 _ hmem _ (by simp) rfl

theorem Session.Distinct.ne (h : S.Distinct) : S.sendR.k ≠ S.recvR.k := by
  have := (nodup_append.mp h).2.1
  simpa using this

/-- The responder sends. -/
theorem Sound.sendsR (hl : Sound N S l) (text : Bytes)
    (hbound : l.sentR.length < 2 ^ 64 - 1) : Sound N S (l.step N (.sendsR text)) := by
  have hfresh : S.Distinct → (l.sendR.k, l.sendR.n) ∉ l.used := by
    rw [hl.sendR]
    intro hkeys hmem
    rcases hl.used _ hmem with h | ⟨-, hlt⟩ | ⟨hk, -⟩
    · exact hkeys.sendR_notMem (mem_map_of_mem h)
    · rw [toNat_ofNat_lt hl.boundR] at hlt
      exact absurd hlt (lt_irrefl _)
    · exact hkeys.ne hk
  refine { hl with sendR := ?_, toI := ?_, boundR := ?_, nodup := ?_, used := ?_ }
  · show (noiseEncrypt N l.sendR text).2 = ⟨_, UInt64.ofNat (l.sentR ++ [text]).length⟩
    rw [noiseEncrypt, hl.sendR, length_append, length_singleton, ← ofNat_succ]
  · show Carries N _ (l.sentR ++ [text]) _ (l.toI ++ [(noiseEncrypt N l.sendR text).1])
    rw [noiseEncrypt, aeadEncrypt_eq, hl.sendR]
    exact hl.toI.sends text
  · show (l.sentR ++ [text]).length ≤ _
    rw [length_append, length_singleton]
    omega
  · intro hkeys
    show (l.used ++ [_]).Nodup
    rw [nodup_append]
    refine ⟨hl.nodup hkeys, nodup_singleton _, ?_⟩
    intro p hp q hq heq
    rw [heq, mem_singleton.mp hq] at hp
    exact hfresh hkeys hp
  · intro p hp
    show p ∈ S.used ∨ p.1 = S.sendR.k ∧ p.2.toNat < (l.sentR ++ [text]).length ∨ _
    rw [length_append, length_singleton]
    rcases mem_append.mp hp with hp | hp
    · refine (hl.used p hp).imp id (Or.imp (fun h => ⟨h.1, by omega⟩) id)
    · refine .inr (.inl ?_)
      rw [mem_singleton.mp hp, hl.sendR]
      exact ⟨rfl, by rw [toNat_ofNat_lt hl.boundR]; omega⟩

/-- The initiator sends, as long as it has a nonce. -/
theorem Sound.sendsI (hl : Sound N S l) (text : Bytes) :
    Sound N S (l.step N (.sendsI text)) := by
  simp only [Link.step]
  cases henc : l.sendI.encryptWithAd N [] text with
  | none => exact hl
  | some r =>
    have hn : ¬ UInt64.ofNat l.sentI.length = maxNonce := by
      intro h
      rw [hl.sendI] at henc
      simp [CipherState.encryptWithAd, h] at henc
    have hbound : l.sentI.length < 2 ^ 64 - 1 := by
      refine lt_of_le_of_ne hl.boundI fun h => hn ?_
      rw [h]
      rfl
    have hr : r = (N.encrypt S.recvR.k (UInt64.ofNat l.sentI.length) [] text,
        { k := some S.recvR.k, n := UInt64.ofNat (l.sentI.length + 1) }) := by
      rw [hl.sendI] at henc
      simp only [CipherState.encryptWithAd, if_neg hn, Option.some.injEq] at henc
      rw [← henc, ofNat_succ]
    subst hr
    -- with keys of their own, no other message took this nonce
    have hfresh : S.Distinct → (S.recvR.k, UInt64.ofNat l.sentI.length) ∉ l.used := by
      intro hkeys hmem
      rcases hl.used _ hmem with h | ⟨hk, -⟩ | ⟨-, hlt⟩
      · exact hkeys.recvR_notMem (mem_map_of_mem h)
      · exact hkeys.ne hk.symm
      · rw [toNat_ofNat_lt hl.boundI] at hlt
        exact absurd hlt (lt_irrefl _)
    refine { hl with sendI := ?_, toR := ?_, boundI := ?_, nodup := ?_, used := ?_ }
    · show _ = (⟨_, UInt64.ofNat (l.sentI ++ [text]).length⟩ : CipherState)
      rw [length_append, length_singleton]
    · exact hl.toR.sends text
    · show (l.sentI ++ [text]).length ≤ _
      rw [length_append, length_singleton]
      omega
    · intro hkeys
      show (l.used ++ (l.sendI.k.map fun k => (k, l.sendI.n)).toList).Nodup
      rw [hl.sendI, map_some, toList_some, nodup_append]
      refine ⟨hl.nodup hkeys, nodup_singleton _, ?_⟩
      intro p hp q hq heq
      rw [heq, mem_singleton.mp hq] at hp
      exact hfresh hkeys hp
    · intro p hp
      show p ∈ S.used ∨ _ ∨ p.1 = S.recvR.k ∧ p.2.toNat < (l.sentI ++ [text]).length
      rw [length_append, length_singleton]
      rw [hl.sendI, map_some, toList_some] at hp
      rcases mem_append.mp hp with hp | hp
      · exact (hl.used p hp).imp id (Or.imp id (fun h => ⟨h.1, by omega⟩))
      · refine .inr (.inr ?_)
        rw [mem_singleton.mp hp]
        exact ⟨rfl, by rw [toNat_ofNat_lt hl.boundI]; omega⟩

/-- The initiator reads what comes next. -/
theorem Sound.readsI (hN : N.Opens) (hl : Sound N S l) : Sound N S (l.step N .readsI) := by
  simp only [Link.step]
  cases hto : l.toI with
  | nil => exact hl
  | cons c rest =>
    have hcarries := hl.toI
    rw [hto] at hcarries
    obtain ⟨text, rfl, hlt, hrest⟩ := hcarries.reads
    have hdec : l.recvI.decryptWithAd N []
        (N.encrypt S.sendR.k (UInt64.ofNat l.gotI.length) [] text)
        = some (text, { k := some S.sendR.k, n := UInt64.ofNat (l.gotI.length + 1) }) := by
      have hbound := hl.boundR
      rw [hl.recvI]
      simp only [CipherState.decryptWithAd]
      rw [if_neg (ofNat_ne_maxNonce (by omega)), N.decrypt_encrypt hN, map_some, ofNat_succ]
    simp only [hdec]
    refine { hl with recvI := ?_, toI := hrest }
    show _ = (⟨_, UInt64.ofNat (l.gotI ++ [text]).length⟩ : CipherState)
    rw [length_append, length_singleton]

/-- The responder reads what comes next. -/
theorem Sound.readsR (hN : N.Opens) (hl : Sound N S l) : Sound N S (l.step N .readsR) := by
  simp only [Link.step]
  cases hto : l.toR with
  | nil => exact hl
  | cons c rest =>
    have hcarries := hl.toR
    rw [hto] at hcarries
    obtain ⟨text, rfl, hlt, hrest⟩ := hcarries.reads
    have hdec : noiseDecrypt N l.recvR (N.encrypt S.recvR.k (UInt64.ofNat l.gotR.length) [] text)
        = (some text, ⟨S.recvR.k, UInt64.ofNat (l.gotR.length + 1)⟩) := by
      rw [hl.recvR, noiseDecrypt]
      simp only [aeadDecrypt_eq, N.decrypt_encrypt hN, ofNat_succ]
    simp only [hdec]
    refine { hl with recvR := ?_, toR := hrest }
    show _ = (⟨_, UInt64.ofNat (l.gotR ++ [text]).length⟩ : Cs)
    rw [length_append, length_singleton]

/-- A step of the link keeps the invariant. -/
theorem Sound.step (hN : N.Opens) (hl : Sound N S l) (m : Move)
    (hm : Allowed N l m) : Sound N S (l.step N m) := by
  cases m with
  | sendsI text => exact hl.sendsI text
  | sendsR text => exact hl.sendsR text hm
  | readsI => exact hl.readsI hN
  | readsR => exact hl.readsR hN
  | strayI c =>
    have hnone : l.recvI.decryptWithAd N [] c = none := hm
    simp only [Link.step]
    simp only [hnone]
    exact hl
  | strayR c =>
    have hnone : noiseDecrypt N l.recvR c = (none, l.recvR) :=
      Prod.ext hm (noiseDecrypt_failed hm)
    simp only [Link.step]
    simp only [hnone]
    exact hl

end Steps

/-- Whatever is sent after a handshake is read in order; and where the keys are different
ones, no nonce is used twice with a key. -/
def Session.Talks (N : Suite) (S : Session) : Prop :=
  ∀ l : List Move, Runs.Each (Link.step N) (Allowed N) S.link l →
    let e := l.foldl (Link.step N) S.link
    e.failed = false ∧ Delivered e.sentR e.gotI e.toI ∧ Delivered e.sentI e.gotR e.toR ∧
      (S.Distinct → e.used.Nodup)

theorem Session.Agreed.talks (hN : N.Opens) {S : Session} {p₁ p₂ : Bytes} (hS : S.Agreed p₁ p₂) :
    S.Talks N := by
  intro l hl
  have hsound := Runs.invariant (I := Sound N S) (fun _ m h hm => h.step hN m hm)
    (sound_link S hS) hl
  exact ⟨hsound.failed, hsound.toI.delivered, hsound.toR.delivered, hsound.nodup⟩

/-- **The responder agrees with the specification.**  For every key, prologue and payload both
handshakes complete with the same hash, the same keys, swapped, and the payloads read;
what follows is read in order as long as the responder has nonces, and no nonce is used
twice; a failed `noise_decrypt` changes nothing. -/
theorem noise_agrees (N : Suite) (hdh : N.Commutes) (hN : N.Opens) :
    (∀ (prologue : Bytes) (sI sR eI eR psk : Key) (p₁ p₂ : Bytes),
      ∃ S, kkSession N prologue sI sR eI eR psk p₁ p₂ = some S ∧ S.Agreed p₁ p₂ ∧ S.Talks N) ∧
    (∀ (prologue : Bytes) (eI eR psk : Key) (p₁ p₂ : Bytes),
      ∃ S, nnSession N prologue eI eR psk p₁ p₂ = some S ∧ S.Agreed p₁ p₂ ∧ S.Talks N) ∧
    ∀ (c : Cs) (ct : Bytes), (noiseDecrypt N c ct).1 = none → (noiseDecrypt N c ct).2 = c := by
  refine ⟨?_, ?_, fun c ct => noiseDecrypt_failed⟩
  · intro prologue sI sR eI eR psk p₁ p₂
    obtain ⟨S, hS, hagreed⟩ := kk_completes hdh hN prologue sI sR eI eR psk p₁ p₂
    exact ⟨S, hS, hagreed, hagreed.talks hN⟩
  · intro prologue eI eR psk p₁ p₂
    obtain ⟨S, hS, hagreed⟩ := nn_completes hdh hN prologue eI eR psk p₁ p₂
    exact ⟨S, hS, hagreed, hagreed.talks hN⟩

/-! ### On fixed inputs -/

/-- A number as 32 bytes. -/
def keyOf (n : ℕ) : Key := ⟨Wire.le 32 n, Wire.length_le ..⟩

/-- A suite that hides nothing: the tag is made of key and nonce, and the hash is a number
in base 257. -/
def openSuite : Suite where
  pub k := k
  dh a b := ⟨zipWith (· ^^^ ·) a.1 b.1, by rw [List.length_zipWith, a.2, b.2]; rfl⟩
  aeadWrite k n _ text :=
    (text, ⟨n.1 ++ k.1.take 4, by rw [length_append, n.2, length_take, k.2]; rfl⟩)
  aeadRead k n _ tag text := if tag.1 = n.1 ++ k.1.take 4 then some text else none
  hash b := keyOf (b.foldl (fun a c => a * 257 + c.toNat + 1) 7)

theorem openSuite_commutes : openSuite.Commutes := by
  intro a b
  apply Subtype.ext
  exact zipWith_comm_of_comm fun x y => UInt8.xor_comm x y

theorem openSuite_opens : openSuite.Opens := fun _ _ _ _ => if_pos rfl

theorem noise_agrees_openSuite :
    openSuite.Commutes ∧ openSuite.Opens ∧
    (((kkSession openSuite [1] (keyOf 7) (keyOf 8) (keyOf 2) (keyOf 3) (keyOf 4) [5] [6]).toList ++
      (nnSession openSuite [1] (keyOf 2) (keyOf 3) (keyOf 4) [5] [6]).toList).map fun S =>
        decide (S.used.map Prod.fst ++ [S.sendR.k, S.recvR.k]).Nodup) = [true, true] ∧
    (∃ S, kkSession openSuite [1] (keyOf 7) (keyOf 8) (keyOf 2) (keyOf 3) (keyOf 4)
      [5] [6] = some S ∧
      S.Agreed [5] [6] ∧ S.Talks openSuite) ∧
    ∃ S, nnSession openSuite [1] (keyOf 2) (keyOf 3) (keyOf 4) [5] [6] = some S ∧
      S.Agreed [5] [6] ∧ S.Talks openSuite := by
  obtain ⟨hkk, hnn, -⟩ := noise_agrees openSuite openSuite_commutes openSuite_opens
  exact ⟨openSuite_commutes, openSuite_opens, by decide +kernel,
    hkk [1] (keyOf 7) (keyOf 8) (keyOf 2) (keyOf 3)
    (keyOf 4) [5] [6], hnn [1] (keyOf 2) (keyOf 3) (keyOf 4) [5] [6]⟩

/-- What the responder encrypts under when it sends nothing but empty messages. -/
theorem used_sendsR (N : Suite) (l : Link) (m : ℕ) :
    ((replicate m (.sendsR [])).foldl (Link.step N) l).used =
      l.used ++ (List.range m).map fun i => (l.sendR.k, l.sendR.n + UInt64.ofNat i) := by
  induction m generalizing l with
  | zero => simp
  | succ m ih =>
    rw [replicate_succ, foldl_cons, ih, range_succ_eq_map, map_cons,
      List.map_map]
    show l.used ++ [(l.sendR.k, l.sendR.n)] ++ (List.range m).map _ = _
    rw [append_assoc, singleton_append]
    congr 2
    · simp
    · apply map_congr_left
      intro i _
      show (l.sendR.k, l.sendR.n + 1 + UInt64.ofNat i) =
        (l.sendR.k, l.sendR.n + UInt64.ofNat (i + 1))
      rw [← ofNat_succ, UInt64.add_assoc, UInt64.add_comm 1]

/-- After `2 ^ 64` messages of the responder the first nonce comes round. -/
theorem nonce_twice :
    ∃ S, nnSession openSuite [1] (keyOf 2) (keyOf 3) (keyOf 4) [5] [6] = some S ∧
      ¬ ((replicate (2 ^ 64 + 1) (.sendsR [])).foldl (Link.step openSuite) S.link).used.Nodup := by
  obtain ⟨S, hS, -⟩ := nn_completes openSuite_commutes openSuite_opens [1] (keyOf 2) (keyOf 3)
    (keyOf 4) [5] [6]
  refine ⟨S, hS, fun hnodup => ?_⟩
  rw [used_sendsR] at hnodup
  have hinj := inj_on_of_nodup_map (nodup_append.mp hnodup).2.1
  have h := hinj (mem_range.mpr (by omega : 0 < 2 ^ 64 + 1))
    (mem_range.mpr (by omega : 2 ^ 64 < 2 ^ 64 + 1)) (by
      congr 2)
  omega

end Hassmic.Noise
