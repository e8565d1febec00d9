import Hassmic.Lib.Handshake

/-!
# The responder of a Noise handshake

The two handshakes an Echo takes part in, always as the responder: `KKpsk2` with a
player's server and `NNpsk0` with Home Assistant.  The tokens are written out by hand;
against an initiator that follows the specification both sides arrive at the same hash
and at the same keys.

## Main definitions

* `Hs`, `Cs` — `struct noise_hs` and `struct noise_cs`.
* `kkResponderInit`, `kkReadMsg1`, `kkWriteMsg2`, `nnResponderInit`, `nnReadMsg1`,
  `nnWriteMsg2` — the handshakes.
* `noiseEncrypt`, `noiseDecrypt` — afterwards.
* `Agrees` — the responder's state is the symmetric state of the specification.

## Main results

* `kk_completes`, `nn_completes` — both handshakes complete.
-/

namespace Hassmic.Noise

open Handshake List

structure Hs where
  h : Key := .zero 32
  ck : Key := .zero 32
  k : Key := .zero 32
  hasK : Bool := false
  n : UInt64 := 0
  sPriv : Key := .zero 32
  sPub : Key := .zero 32
  rs : Key := .zero 32
  ePriv : Key := .zero 32
  ePub : Key := .zero 32
  re : Key := .zero 32
  eSet : Bool := false
  hashOut : Key := .zero 32

structure Cs where
  k : Key
  n : UInt64
  deriving DecidableEq

variable (N : Suite)

/-! ### Mixing -/

/-- `hmac_sha256`: of two pieces of data. -/
def hmacSha256 (key a b : Bytes) : Key :=
  let k : Bytes := if 64 < key.length then (N.hash key).1 ++ replicate 32 0
    else key ++ replicate (64 - key.length) 0
  N.hash (k.map (· ^^^ 0x5c) ++ (N.hash (k.map (· ^^^ 0x36) ++ a ++ b)).1)

/-- `hkdf`; the third output is used only where it is asked for. -/
def hkdf (ck : Key) (input : Bytes) : Key × Key × Key :=
  let temp := hmacSha256 N ck.1 input []
  let o₁ := hmacSha256 N temp.1 [1] []
  let o₂ := hmacSha256 N temp.1 o₁.1 [2]
  (o₁, o₂, hmacSha256 N temp.1 o₂.1 [3])

/-- `mix_hash`. -/
def mixHash (s : Hs) (data : Bytes) : Hs := { s with h := N.hash (s.h.1 ++ data) }

/-- `mix_key`. -/
def mixKey (s : Hs) (input : Bytes) : Hs :=
  { s with
    ck := (hkdf N s.ck input).1
    k := (hkdf N s.ck input).2.1
    hasK := true
    n := 0 }

/-- `mix_key_and_hash`. -/
def mixKeyAndHash (s : Hs) (input : Bytes) : Hs :=
  let o := hkdf N s.ck input
  let s := mixHash N { s with k := o.2.2, ck := o.1 } o.2.1.1
  { s with hasK := true, n := 0 }

/-- `nonce12`. -/
def nonce12 (n : UInt64) : Blob 12 :=
  ⟨replicate 4 0 ++ (List.range 8).map fun i => (n.toNat / 2 ^ (8 * i)).toUInt8, by simp⟩

/-- `aead_encrypt`: cipher text and tag. -/
def aeadEncrypt (k : Key) (n : UInt64) (ad text : Bytes) : Bytes :=
  let r := N.aeadWrite k (nonce12 n) ad text
  r.1 ++ r.2.1

/-- `aead_decrypt`. -/
def aeadDecrypt (k : Key) (n : UInt64) (ad c : Bytes) : Option Bytes :=
  if h : c.length < 16 then none
  else
    N.aeadRead k (nonce12 n) ad ⟨c.drop (c.length - 16), by rw [length_drop]; omega⟩
      (c.take (c.length - 16))

/-- `split`: the keys to send and to receive with. -/
def split (s : Hs) : Hs × Cs × Cs :=
  let o := hkdf N s.ck []
  ({ s with hashOut := s.h, ePriv := .zero 32, k := .zero 32, ck := .zero 32 },
    ⟨o.2.1, 0⟩, ⟨o.1, 0⟩)

/-! ### The handshakes -/

/-- `PROTOCOL`. -/
def protocol : Bytes :=
  bytesOf ['N', 'o', 'i', 's', 'e', '_', 'K', 'K', 'p', 's', 'k', '2', '_', '2', '5', '5', '1', '9',
    '_', 'C', 'h', 'a', 'C', 'h', 'a', 'P', 'o', 'l', 'y', '_', 'S', 'H', 'A', '2', '5', '6']

/-- `NN_PROTOCOL`. -/
def nnProtocol : Bytes :=
  bytesOf ['N', 'o', 'i', 's', 'e', '_', 'N', 'N', 'p', 's', 'k', '0', '_', '2', '5', '5', '1', '9',
    '_', 'C', 'h', 'a', 'C', 'h', 'a', 'P', 'o', 'l', 'y', '_', 'S', 'H', 'A', '2', '5', '6']

/-- `noise_kk_responder_init`. -/
def kkResponderInit (prologue : Bytes) (sPriv sPub initiatorPub : Key) : Hs :=
  let s : Hs := { h := N.hash protocol, ck := N.hash protocol }
  let s := mixHash N s prologue
  let s := { s with sPriv := sPriv, sPub := sPub, rs := initiatorPub }
  let s := mixHash N s s.rs.1
  mixHash N s s.sPub.1

theorem length_headKey {m : Bytes} (h : 32 ≤ m.length) : (m.take 32).length = 32 := by simp [h]

/-- The key a message of at least 32 bytes starts with. -/
def headKey (m : Bytes) (h : 32 ≤ m.length) : Key := ⟨m.take 32, length_headKey h⟩

/-- The payload of the first message, once its tokens are mixed in. -/
def readPayload (s : Hs) (m : Bytes) : Option Bytes × Hs :=
  match aeadDecrypt N s.k s.n s.h.1 m with
  | none => (none, { s with n := s.n + 1 })
  | some p => (some p, mixHash N { s with n := s.n + 1 } m)

/-- The tokens of the first message, with the key it starts with. -/
def kkMixMsg1 (s : Hs) (re : Key) : Hs :=
  let s := { s with re := re }
  let s := mixKey N (mixHash N s s.re.1) s.re.1
  let s := mixKey N s (N.dh s.sPriv s.re).1
  mixKey N s (N.dh s.sPriv s.rs).1

/-- `noise_kk_read_msg1`. -/
def kkReadMsg1 (s : Hs) (msg : Bytes) : Option Bytes × Hs :=
  if h : msg.length < 32 + 16 then (none, s)
  else readPayload N (kkMixMsg1 N s (headKey msg (by omega))) (msg.drop 32)

/-- `noise_keypair`, where no ephemeral key was set: `rnd` is what `ws_random` gives. -/
def keypair (s : Hs) (rnd : Key) : Hs :=
  if s.eSet then s else { s with ePriv := rnd, ePub := N.pub rnd }

/-- The payload of the second message and the end of the handshake. -/
def writePayload (s : Hs) (payload : Bytes) : Bytes × Hs × Cs × Cs :=
  let c := aeadEncrypt N s.k s.n s.h.1 payload
  (s.ePub.1 ++ c, split N (mixHash N { s with n := s.n + 1 } c))

/-- The tokens of the second message. -/
def kkMixMsg2 (s : Hs) (rnd psk : Key) : Hs :=
  let s := keypair N s rnd
  let s := mixKey N (mixHash N s s.ePub.1) s.ePub.1
  let s := mixKey N s (N.dh s.ePriv s.re).1
  let s := mixKey N s (N.dh s.ePriv s.rs).1
  mixKeyAndHash N s psk.1

/-- `noise_kk_write_msg2`: the message, the state, and the keys to send and to receive with. -/
def kkWriteMsg2 (s : Hs) (rnd psk : Key) (payload : Bytes) : Bytes × Hs × Cs × Cs :=
  writePayload N (kkMixMsg2 N s rnd psk) payload

/-- `noise_nn_responder_init`. -/
def nnResponderInit (prologue : Bytes) : Hs :=
  mixHash N { h := N.hash nnProtocol, ck := N.hash nnProtocol } prologue

/-- The tokens of the first message, with the key it starts with. -/
def nnMixMsg1 (s : Hs) (psk re : Key) : Hs :=
  let s := mixKeyAndHash N s psk.1
  let s := { s with re := re }
  mixKey N (mixHash N s s.re.1) s.re.1

/-- `noise_nn_read_msg1`. -/
def nnReadMsg1 (s : Hs) (psk : Key) (msg : Bytes) : Option Bytes × Hs :=
  if h : msg.length < 32 + 16 then (none, s)
  else readPayload N (nnMixMsg1 N s psk (headKey msg (by omega))) (msg.drop 32)

/-- The tokens of the second message. -/
def nnMixMsg2 (s : Hs) (rnd : Key) : Hs :=
  let s := keypair N s rnd
  let s := mixKey N (mixHash N s s.ePub.1) s.ePub.1
  mixKey N s (N.dh s.ePriv s.re).1

/-- `noise_nn_write_msg2`. -/
def nnWriteMsg2 (s : Hs) (rnd : Key) (payload : Bytes) : Bytes × Hs × Cs × Cs :=
  writePayload N (nnMixMsg2 N s rnd) payload

/-! ### Transport -/

/-- `noise_encrypt`. -/
def noiseEncrypt (c : Cs) (text : Bytes) : Bytes × Cs :=
  (aeadEncrypt N c.k c.n [] text, { c with n := c.n + 1 })

/-- `noise_decrypt`. -/
def noiseDecrypt (c : Cs) (ct : Bytes) : Option Bytes × Cs :=
  match aeadDecrypt N c.k c.n [] ct with
  | none => (none, c)
  | some text => (some text, { c with n := c.n + 1 })

/-! ### The same as the specification -/

variable {N}

theorem nonce12_eq (n : UInt64) : nonce12 n = Suite.nonce n := by
  apply Subtype.ext
  have hle : ∀ v, Wire.le 8 v = (List.range 8).map fun i => (v / 2 ^ (8 * i)).toUInt8 := by
    intro v
    have hmod : ∀ x : ℕ, (x % 256).toUInt8 = x.toUInt8 := by
      intro x
      apply UInt8.toNat_inj.mp
      simp
    simp [Wire.le, hmod, Nat.div_div_eq_div_mul, range_succ]
  show _ = [0, 0, 0, 0] ++ Wire.le 8 n.toNat
  rw [hle]
  rfl

theorem aeadEncrypt_eq (k : Key) (n : UInt64) (ad text : Bytes) :
    aeadEncrypt N k n ad text = N.encrypt k n ad text := by
  simp only [aeadEncrypt, nonce12_eq]
  rfl

theorem aeadDecrypt_eq (k : Key) (n : UInt64) (ad c : Bytes) :
    aeadDecrypt N k n ad c = N.decrypt k n ad c := by
  unfold aeadDecrypt Suite.decrypt
  by_cases h : c.length < 16
  · rw [dif_pos h, dif_neg (by omega)]
  · rw [dif_neg h, dif_pos (by omega), nonce12_eq]

theorem hmacSha256_eq (key a b : Bytes) : hmacSha256 N key a b = N.hmac key (a ++ b) := by
  have hkey : (if 64 < key.length then (N.hash key).1 ++ replicate 32 0
      else key ++ replicate (64 - key.length) 0)
      = (if 64 < key.length then (N.hash key).1 else key) ++
        replicate (64 - (if 64 < key.length then (N.hash key).1 else key).length) 0 := by
    split
    · rw [(N.hash key).2]
    · rfl
  simp only [hmacSha256, Suite.hmac, hkey, append_assoc]

theorem hkdf_eq (ck : Key) (input : Bytes) : hkdf N ck input = N.hkdf ck input := by
  simp only [hkdf, Suite.hkdf, hmacSha256_eq, append_nil]

/-- The state of the responder is a symmetric state of the specification. -/
structure Agrees (s : Hs) (t : SymmetricState) : Prop where
  h : s.h = t.h
  ck : s.ck = t.ck
  cs : t.cs = if s.hasK then { k := some s.k, n := s.n } else {}

namespace Agrees

variable {s : Hs} {t : SymmetricState}

theorem mixHash (hs : Agrees s t) (data : Bytes) :
    Agrees (Noise.mixHash N s data) (t.mixHash N data) where
  h := by simp only [Noise.mixHash, SymmetricState.mixHash, hs.h]
  ck := hs.ck
  cs := hs.cs

theorem mixKey (hs : Agrees s t) (input : Bytes) :
    Agrees (Noise.mixKey N s input) (t.mixKey N input) where
  h := hs.h
  ck := by simp only [Noise.mixKey, SymmetricState.mixKey, hkdf_eq, hs.ck]
  cs := by simp [Noise.mixKey, SymmetricState.mixKey, hkdf_eq, hs.ck]

theorem mixKeyAndHash (hs : Agrees s t) (input : Bytes) :
    Agrees (Noise.mixKeyAndHash N s input) (t.mixKeyAndHash N input) where
  h := by
    simp only [Noise.mixKeyAndHash, SymmetricState.mixKeyAndHash, Noise.mixHash,
      SymmetricState.mixHash, hkdf_eq, hs.h, hs.ck]
  ck := by
    simp only [Noise.mixKeyAndHash, SymmetricState.mixKeyAndHash, Noise.mixHash,
      SymmetricState.mixHash, hkdf_eq, hs.ck]
  cs := by
    simp [Noise.mixKeyAndHash, SymmetricState.mixKeyAndHash, Noise.mixHash,
      SymmetricState.mixHash, hkdf_eq, hs.ck]

/-- Keys that are kept beside change nothing. -/
theorem of_eq {s' : Hs} (hs : Agrees s t) (hh : s'.h = s.h) (hck : s'.ck = s.ck) (hk : s'.k = s.k)
    (hhas : s'.hasK = s.hasK) (hn : s'.n = s.n) : Agrees s' t where
  h := hh.trans hs.h
  ck := hck.trans hs.ck
  cs := by rw [hs.cs, hk, hhas, hn]

/-! ### Messages -/

theorem kkMixMsg1 (hs : Agrees s t) (re : Key) : Agrees (Noise.kkMixMsg1 N s re)
    ((((t.mixHash N re.1).mixKey N re.1).mixKey N (N.dh s.sPriv re).1).mixKey N
      (N.dh s.sPriv s.rs).1) := by
  have hre : Agrees { s with re := re } t := hs.of_eq rfl rfl rfl rfl rfl
  have hkey := (hre.mixHash (N := N) re.1).mixKey (N := N) re.1
  exact (hkey.mixKey (N.dh s.sPriv re).1).mixKey (N.dh s.sPriv s.rs).1

theorem kkMixMsg2 (hs : Agrees s t) (he : s.eSet = false) (rnd psk : Key) :
    Agrees (Noise.kkMixMsg2 N s rnd psk)
      (((((t.mixHash N (N.pub rnd).1).mixKey N (N.pub rnd).1).mixKey N (N.dh rnd s.re).1).mixKey N
        (N.dh rnd s.rs).1).mixKeyAndHash N psk.1) := by
  have hpair : keypair N s rnd = { s with ePriv := rnd, ePub := N.pub rnd } := by
    rw [keypair, he]
    rfl
  have hown : Agrees { s with ePriv := rnd, ePub := N.pub rnd } t := hs.of_eq rfl rfl rfl rfl rfl
  have hkey := (hown.mixHash (N := N) (N.pub rnd).1).mixKey (N := N) (N.pub rnd).1
  have hdh := (hkey.mixKey (N := N) (N.dh rnd s.re).1).mixKey (N := N) (N.dh rnd s.rs).1
  unfold Noise.kkMixMsg2
  rw [hpair]
  exact hdh.mixKeyAndHash psk.1

theorem nnMixMsg1 (hs : Agrees s t) (psk re : Key) : Agrees (Noise.nnMixMsg1 N s psk re)
    (((t.mixKeyAndHash N psk.1).mixHash N re.1).mixKey N re.1) := by
  have hpsk := hs.mixKeyAndHash (N := N) psk.1
  have hre : Agrees { Noise.mixKeyAndHash N s psk.1 with re := re } (t.mixKeyAndHash N psk.1) :=
    hpsk.of_eq rfl rfl rfl rfl rfl
  exact (hre.mixHash re.1).mixKey re.1

theorem nnMixMsg2 (hs : Agrees s t) (he : s.eSet = false) (rnd : Key) :
    Agrees (Noise.nnMixMsg2 N s rnd)
      (((t.mixHash N (N.pub rnd).1).mixKey N (N.pub rnd).1).mixKey N (N.dh rnd s.re).1) := by
  have hpair : keypair N s rnd = { s with ePriv := rnd, ePub := N.pub rnd } := by
    rw [keypair, he]
    rfl
  have hown : Agrees { s with ePriv := rnd, ePub := N.pub rnd } t := hs.of_eq rfl rfl rfl rfl rfl
  have hkey := (hown.mixHash (N := N) (N.pub rnd).1).mixKey (N := N) (N.pub rnd).1
  unfold Noise.nnMixMsg2
  rw [hpair]
  exact hkey.mixKey (N.dh rnd s.re).1

/-- What the initiator encrypts, the responder reads. -/
theorem readPayload (hN : N.Opens) (hs : Agrees s t) (hk : s.hasK = true) (hn : s.n = 0)
    (text : Bytes) : ∃ c t' s', t.encryptAndHash N text = some (c, t') ∧ 16 ≤ c.length ∧
      Noise.readPayload N s c = (some text, s') ∧ Agrees s' t' ∧
      s'.re = s.re ∧ s'.rs = s.rs ∧ s'.eSet = s.eSet := by
  have hcs : t.cs = { k := some s.k, n := s.n } := by rw [hs.cs, if_pos hk]
  refine ⟨N.encrypt s.k s.n s.h.1 text, { t.mixHash N (N.encrypt s.k s.n s.h.1 text) with
    cs := { k := some s.k, n := s.n + 1 } }, Noise.mixHash N { s with n := s.n + 1 }
      (N.encrypt s.k s.n s.h.1 text), ?_, ?_, ?_, ⟨?_, hs.ck, ?_⟩, rfl, rfl, rfl⟩
  · simp only [SymmetricState.encryptAndHash, CipherState.encryptWithAd, hcs, hn, hs.h]
    rfl
  · rw [Suite.encrypt, length_append, (N.aeadWrite _ _ _ _).2.2]
    omega
  · simp only [Noise.readPayload, aeadDecrypt_eq, N.decrypt_encrypt hN]
  · simp only [Noise.mixHash, SymmetricState.mixHash, hs.h]
  · simp only [Noise.mixHash, hk, if_true]

/-- What the responder encrypts, the initiator reads; and both are left with the same keys. -/
theorem writePayload (hN : N.Opens) (hs : Agrees s t) (hk : s.hasK = true) (hn : s.n = 0)
    (text : Bytes) : ∃ c t', Noise.writePayload N s text = (s.ePub.1 ++ c,
        (Noise.writePayload N s text).2) ∧ t.decryptAndHash N c = some (text, t') ∧
      (Noise.writePayload N s text).2.1.hashOut = t'.h ∧
      t'.split N = ({ k := some (Noise.writePayload N s text).2.2.2.k },
        { k := some (Noise.writePayload N s text).2.2.1.k }) ∧
      (Noise.writePayload N s text).2.2.2.n = 0 ∧ (Noise.writePayload N s text).2.2.1.n = 0 := by
  have hcs : t.cs = { k := some s.k, n := s.n } := by rw [hs.cs, if_pos hk]
  refine ⟨N.encrypt s.k s.n s.h.1 text, { t.mixHash N (N.encrypt s.k s.n s.h.1 text) with
    cs := { k := some s.k, n := s.n + 1 } }, ?_, ?_, ?_, ?_, rfl, rfl⟩
  · simp only [Noise.writePayload, aeadEncrypt_eq]
  · have hopen := N.decrypt_encrypt hN s.k s.n s.h.1 text
    rw [hn, hs.h] at hopen ⊢
    simp only [SymmetricState.decryptAndHash, CipherState.decryptWithAd, hcs, hn, hopen]
    rfl
  · simp only [Noise.writePayload, split, Noise.mixHash, SymmetricState.mixHash,
      aeadEncrypt_eq, hs.h]
  · simp only [Noise.writePayload, split, Noise.mixHash, SymmetricState.mixHash,
      SymmetricState.split, hkdf_eq, hs.ck]

end Agrees

end Hassmic.Noise
