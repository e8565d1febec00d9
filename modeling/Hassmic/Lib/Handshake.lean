import Hassmic.Lib.Wire

/-!
# Handshakes of the Noise framework

The objects of the Noise specification (revision 34): cipher states, symmetric states
and handshake states that process the tokens of a message pattern, for keys and hashes
of 32 bytes and a cipher with a tag of 16.  The primitives of the suite are parameters.

## Main definitions

* `Suite` — the primitives.
* `CipherState`, `SymmetricState`, `HandshakeState` — the objects, with their operations
  under the names of the specification.
* `Pattern`, `kkpsk2`, `nnpsk0` — patterns.
* `Suite.Commutes`, `Suite.Opens` — what a suite has to satisfy.
-/

namespace Handshake

open List

abbrev Key := Blob 32

/-- The primitives of a suite. -/
structure Suite where
  /-- The public key of a private one. -/
  pub : Key → Key
  /-- A private key and a public one. -/
  dh : Key → Key → Key
  /-- Key, nonce, associated data and plain text; cipher text and tag. -/
  aeadWrite : Key → Blob 12 → Bytes → Bytes → Bytes × Blob 16
  /-- Key, nonce, associated data, tag and cipher text. -/
  aeadRead : Key → Blob 12 → Bytes → Blob 16 → Bytes → Option Bytes
  hash : Bytes → Key

namespace Suite

variable (N : Suite)

/-- Both sides compute the same shared secret. -/
def Commutes : Prop := ∀ a b, N.dh a (N.pub b) = N.dh b (N.pub a)

/-- What was encrypted is decrypted. -/
def Opens : Prop :=
  ∀ k n ad text, N.aeadRead k n ad (N.aeadWrite k n ad text).2 (N.aeadWrite k n ad text).1
    = some text

/-- The nonce of the cipher: 32 bits of zeros and the number, least significant byte first. -/
def nonce (n : UInt64) : Blob 12 :=
  ⟨[0, 0, 0, 0] ++ Wire.le 8 n.toNat, by rw [List.length_append, Wire.length_le]; rfl⟩

/-- `ENCRYPT`: cipher text and tag. -/
def encrypt (k : Key) (n : UInt64) (ad text : Bytes) : Bytes :=
  (N.aeadWrite k (nonce n) ad text).1 ++ (N.aeadWrite k (nonce n) ad text).2.1

/-- `DECRYPT`. -/
def decrypt (k : Key) (n : UInt64) (ad c : Bytes) : Option Bytes :=
  if h : 16 ≤ c.length then
    N.aeadRead k (nonce n) ad ⟨c.drop (c.length - 16), by rw [List.length_drop]; omega⟩
      (c.take (c.length - 16))
  else none

theorem decrypt_encrypt (hN : N.Opens) (k : Key) (n : UInt64) (ad text : Bytes) :
    N.decrypt k n ad (N.encrypt k n ad text) = some text := by
  have htag := (N.aeadWrite k (nonce n) ad text).2.2
  have hlen : (N.encrypt k n ad text).length
      = (N.aeadWrite k (nonce n) ad text).1.length + 16 := by
    rw [encrypt, length_append, htag]
  have htext : (N.encrypt k n ad text).take ((N.encrypt k n ad text).length - 16)
      = (N.aeadWrite k (nonce n) ad text).1 := by
    rw [hlen, Nat.add_sub_cancel, encrypt, take_left]
  have htag' : (N.encrypt k n ad text).drop ((N.encrypt k n ad text).length - 16)
      = (N.aeadWrite k (nonce n) ad text).2.1 := by
    rw [hlen, Nat.add_sub_cancel, encrypt, drop_left]
  unfold decrypt
  rw [dif_pos (by omega)]
  simp only [htext, htag']
  exact hN k (nonce n) ad text

/-- `HMAC-HASH` of RFC 2104, for a hash with blocks of 64 bytes. -/
def hmac (key data : Bytes) : Key :=
  let key := if 64 < key.length then (N.hash key).1 else key
  let key := key ++ List.replicate (64 - key.length) 0
  N.hash (key.map (· ^^^ 0x5c) ++ (N.hash (key.map (· ^^^ 0x36) ++ data)).1)

/-- `HKDF`, with all three of its outputs. -/
def hkdf (ck : Key) (ikm : Bytes) : Key × Key × Key :=
  let temp := N.hmac ck.1 ikm
  let o₁ := N.hmac temp.1 [1]
  let o₂ := N.hmac temp.1 (o₁.1 ++ [2])
  (o₁, o₂, N.hmac temp.1 (o₂.1 ++ [3]))

end Suite

/-! ### Cipher states -/

/-- The last nonce, which is not used. -/
abbrev maxNonce : UInt64 := 0xffffffffffffffff

structure CipherState where
  k : Option Key := none
  n : UInt64 := 0

namespace CipherState

variable (N : Suite) (c : CipherState)

/-- `EncryptWithAd`; `none` is the error that the nonces are used up. -/
def encryptWithAd (ad text : Bytes) : Option (Bytes × CipherState) :=
  match c.k with
  | none => some (text, c)
  | some k =>
      if c.n = maxNonce then none else some (N.encrypt k c.n ad text, { c with n := c.n + 1 })

/-- `DecryptWithAd`. -/
def decryptWithAd (ad text : Bytes) : Option (Bytes × CipherState) :=
  match c.k with
  | none => some (text, c)
  | some k =>
      if c.n = maxNonce then none
      else (N.decrypt k c.n ad text).map fun t => (t, { c with n := c.n + 1 })

end CipherState

/-! ### Symmetric states -/

structure SymmetricState where
  ck : Key
  h : Key
  cs : CipherState := {}

namespace SymmetricState

variable (N : Suite) (t : SymmetricState)

/-- `InitializeSymmetric`. -/
def initializeSymmetric (name : Bytes) : SymmetricState :=
  let h : Key :=
    if hlen : name.length ≤ 32 then
      ⟨name ++ List.replicate (32 - name.length) 0, by simp; omega⟩
    else N.hash name
  { ck := h, h := h }

/-- `MixKey`. -/
def mixKey (ikm : Bytes) : SymmetricState :=
  { t with ck := (N.hkdf t.ck ikm).1, cs := { k := some (N.hkdf t.ck ikm).2.1 } }

/-- `MixHash`. -/
def mixHash (data : Bytes) : SymmetricState := { t with h := N.hash (t.h.1 ++ data) }

/-- `MixKeyAndHash`. -/
def mixKeyAndHash (ikm : Bytes) : SymmetricState :=
  { mixHash N { t with ck := (N.hkdf t.ck ikm).1 } (N.hkdf t.ck ikm).2.1.1 with
    cs := { k := some (N.hkdf t.ck ikm).2.2 } }

/-- `EncryptAndHash`. -/
def encryptAndHash (text : Bytes) : Option (Bytes × SymmetricState) :=
  (t.cs.encryptWithAd N t.h.1 text).map fun r => (r.1, mixHash N { t with cs := r.2 } r.1)

/-- `DecryptAndHash`. -/
def decryptAndHash (c : Bytes) : Option (Bytes × SymmetricState) :=
  (t.cs.decryptWithAd N t.h.1 c).map fun r => (r.1, mixHash N { t with cs := r.2 } c)

/-- `Split`: the initiator sends with the first. -/
def split : CipherState × CipherState :=
  ({ k := some (N.hkdf t.ck []).1 }, { k := some (N.hkdf t.ck []).2.1 })

end SymmetricState

/-! ### Patterns -/

inductive Token
  | e | s | ee | es | se | ss | psk
  deriving DecidableEq

/-- A pattern: the pre-messages of both sides, and the messages, the initiator's first. -/
structure Pattern where
  name : Bytes
  preInitiator : List Token := []
  preResponder : List Token := []
  messages : List (List Token)

/-- Whether a handshake of the pattern uses a pre-shared key. -/
def Pattern.isPsk (p : Pattern) : Bool := p.messages.any (·.contains .psk)

def bytesOf (l : List Char) : Bytes := l.map fun c => c.toNat.toUInt8

/-- What follows the pattern in the name of a protocol. -/
def suiteName : Bytes :=
  bytesOf ['_', '2', '5', '5', '1', '9', '_', 'C', 'h', 'a', 'C', 'h', 'a', 'P', 'o', 'l', 'y',
    '_', 'S', 'H', 'A', '2', '5', '6']

/-- `KKpsk2`. -/
def kkpsk2 : Pattern where
  name := bytesOf ['N', 'o', 'i', 's', 'e', '_', 'K', 'K', 'p', 's', 'k', '2'] ++ suiteName
  preInitiator := [.s]
  preResponder := [.s]
  messages := [[.e, .es, .ss], [.e, .ee, .se, .psk]]

/-- `NNpsk0`. -/
def nnpsk0 : Pattern where
  name := bytesOf ['N', 'o', 'i', 's', 'e', '_', 'N', 'N', 'p', 's', 'k', '0'] ++ suiteName
  messages := [[.psk, .e], [.e, .ee]]

/-! ### Handshake states -/

/-- The state of one side: `s` and `e` are its private keys, `rs` and `re` the other's
public ones, and `gen` the private key that `GENERATE_KEYPAIR` is to give. -/
structure HandshakeState where
  sym : SymmetricState
  gen : Key
  s : Option Key := none
  e : Option Key := none
  rs : Option Key := none
  re : Option Key := none
  initiator : Bool
  isPsk : Bool
  psks : List Key := []
  messages : List (List Token)

namespace HandshakeState

variable (N : Suite)

/-- A pre-message: the public keys are hashed. -/
def preMessage (keys : List Key) (t : SymmetricState) : SymmetricState :=
  keys.foldl (fun t k => t.mixHash N k.1) t

/-- The public key of a token of the own or the other's pre-message. -/
def preKey (own : Bool) (s : Option Key) (rs : Option Key) : Token → Option Key
  | .s => if own then s.map N.pub else rs
  | _ => none

/-- `Initialize`, for patterns with no ephemeral key before the first message. -/
def initializeHandshake (p : Pattern) (initiator : Bool) (prologue : Bytes) (gen : Key)
    (s rs : Option Key) (psks : List Key) : HandshakeState :=
  let t := (SymmetricState.initializeSymmetric N p.name).mixHash N prologue
  let t := preMessage N (p.preInitiator.filterMap (preKey N initiator s rs)) t
  let t := preMessage N (p.preResponder.filterMap (preKey N (!initiator) s rs)) t
  { sym := t, gen := gen, s := s, rs := rs, initiator := initiator, isPsk := p.isPsk,
    psks := psks, messages := p.messages }

variable (s : HandshakeState)

/-- The secret that a token mixes in. -/
def dhOf : Token → Option Key
  | .ee => do N.dh (← s.e) (← s.re)
  | .es => if s.initiator then do N.dh (← s.e) (← s.rs) else do N.dh (← s.s) (← s.re)
  | .se => if s.initiator then do N.dh (← s.s) (← s.re) else do N.dh (← s.e) (← s.rs)
  | .ss => do N.dh (← s.s) (← s.rs)
  | _ => none

/-- An ephemeral public key is hashed, and mixed in where there is a pre-shared key. -/
def mixEphemeral (k : Key) : SymmetricState :=
  if s.isPsk then (s.sym.mixHash N k.1).mixKey N k.1 else s.sym.mixHash N k.1

/-- A token that says nothing on the wire. -/
def mixToken (tok : Token) : Option HandshakeState :=
  match tok with
  | .psk =>
      match s.psks with
      | [] => none
      | k :: rest => some { s with sym := s.sym.mixKeyAndHash N k.1, psks := rest }
  | _ => (s.dhOf N tok).map fun k => { s with sym := s.sym.mixKey N k.1 }

/-- One token of a message that is written. -/
def writeToken (tok : Token) : Option (Bytes × HandshakeState) :=
  match tok with
  | .e => some ((N.pub s.gen).1, { s with e := some s.gen, sym := s.mixEphemeral N (N.pub s.gen) })
  | .s => do
      let k ← s.s
      let r ← s.sym.encryptAndHash N (N.pub k).1
      some (r.1, { s with sym := r.2 })
  | tok => (s.mixToken N tok).map fun s => ([], s)

/-- One token of a message that is read, and the rest of the message. -/
def readToken (tok : Token) (m : Bytes) : Option (Bytes × HandshakeState) :=
  match tok with
  | .e =>
      if h : 32 ≤ m.length then
        let k : Key := ⟨m.take 32, by simp [h]⟩
        some (m.drop 32, { s with re := some k, sym := s.mixEphemeral N k })
      else none
  | .s => do
      let n := if s.sym.cs.k.isSome then 48 else 32
      let r ← s.sym.decryptAndHash N (m.take n)
      if h : r.1.length = 32 then some (m.drop n, { s with rs := some ⟨r.1, h⟩, sym := r.2 })
      else none
  | tok => (s.mixToken N tok).map fun s => (m, s)

/-- The tokens of a message that is written. -/
def writeTokens (s : HandshakeState) : List Token → Option (Bytes × HandshakeState)
  | [] => some ([], s)
  | tok :: l => do
      let r ← s.writeToken N tok
      let r' ← writeTokens r.2 l
      some (r.1 ++ r'.1, r'.2)

/-- The tokens of a message that is read. -/
def readTokens (s : HandshakeState) : List Token → Bytes → Option (Bytes × HandshakeState)
  | [], m => some (m, s)
  | tok :: l, m => do
      let r ← s.readToken N tok m
      readTokens r.2 l r.1

/-- `WriteMessage`. -/
def writeMessage (payload : Bytes) : Option (Bytes × HandshakeState) :=
  match s.messages with
  | [] => none
  | toks :: rest => do
      let r ← s.writeTokens N toks
      let c ← r.2.sym.encryptAndHash N payload
      some (r.1 ++ c.1, { r.2 with sym := c.2, messages := rest })

/-- `ReadMessage`. -/
def readMessage (m : Bytes) : Option (Bytes × HandshakeState) :=
  match s.messages with
  | [] => none
  | toks :: rest => do
      let r ← s.readTokens N toks m
      let p ← r.2.sym.decryptAndHash N r.1
      some (p.1, { r.2 with sym := p.2, messages := rest })

/-- A public key at the front of a message is read. -/
theorem readTokens_e (k : Key) (c : Bytes) (l : List Token) : s.readTokens N (.e :: l) (k.1 ++ c) =
    readTokens N { s with re := some k, sym := s.mixEphemeral N k } l c := by
  have hlen : 32 ≤ (k.1 ++ c).length := by rw [length_append, k.2]; omega
  have htake : (k.1 ++ c).take 32 = k.1 := take_left' k.2
  have hdrop : (k.1 ++ c).drop 32 = c := drop_left' k.2
  rw [readTokens, readToken, dif_pos hlen]
  simp only [htake, hdrop]
  rfl

end HandshakeState

end Handshake
