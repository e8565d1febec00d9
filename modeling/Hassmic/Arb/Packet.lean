import Hassmic.Arb.StateFile

/-!
# Packets

How packets are put together and taken apart.  A packet of ours always fits its
buffer, so each one is the plain sequence of its fields, and reading it gives the
fields back.

## Main definitions

* `put`, `head`, `tag`, `tagOk` — the pieces of every packet.
* `beaconBytes`, `claimBytes`, `pairBytes`, `giveBytes`, `msgBytes` — the packets.
* `readBeacon`, `readClaim`, `readGive`, `readMsg` — their fields.

## Main results

* `readBeacon_beaconBytes`, `readClaim_claimBytes` — reading a packet back.
* `tagOk_tag` — what was tagged verifies under the same key.
-/

namespace Hassmic.Arb

open Wire Option

/-- The types of packets. -/
abbrev tBeacon : UInt8 := 1
abbrev tClaim : UInt8 := 4
abbrev tPair : UInt8 := 5
abbrev tGive : UInt8 := 6
abbrev tMsg : UInt8 := 7

/-- The flags of a beacon. -/
abbrev fQuiet : UInt8 := 1
abbrev fKiosk : UInt8 := 2
abbrev fHello : UInt8 := 4

/-- The magic `HMA1`. -/
def magic : Blob 4 := ⟨ascii ['H', 'M', 'A', '1'], rfl⟩

/-- `put`: what does not fit the buffer is left out. -/
def put (b d : Bytes) : Bytes := if b.length + d.length ≤ 256 then b ++ d else b

/-- `head`. -/
def head (type : UInt8) : Bytes := magic.1 ++ [type]

section Tag

variable (C : Crypto) (macKey : Blob 32)

/-- `tag`. -/
def tag (b : Bytes) : Bytes := put b (C.keyed16 macKey b).1

/-- `tag_ok`. -/
def tagOk (p : Bytes) : Bool :=
  decide (16 ≤ p.length) &&
    (C.keyed16 macKey (p.take (p.length - 16))).1 == p.drop (p.length - 16)

/-! ### The packets -/

/-- A beacon outside a network, and what a beacon of a member starts with. -/
def beaconHead (type : UInt8) (pk : Blob 32) (net : UInt64) (node : Node) : Bytes :=
  put (put (put (put (head type) pk.1) (put64 net).1) [node.1.length.toUInt8]) node.1

/-- A beacon of a member. -/
def beaconBytes (pk : Blob 32) (net : UInt64) (node : Node) (c : UInt64) (flags : UInt8) : Bytes :=
  let b := put (beaconHead tBeacon pk net node) (put64 c).1
  tag C macKey (if flags ≠ 0 then put b [flags] else b)

/-- A claim. -/
def claimBytes (net : UInt64) (id : Blob 8) (c : UInt64) (kw : Blob 8) (score : Int32)
    (prio won : UInt8) : Bytes :=
  tag C macKey (put (put (put (put (put (put (head tClaim) (put64 net).1) id.1) (put64 c).1) kw.1)
    (put32 score).1) [prio, won])

/-- A message. -/
def msgBytes (net : UInt64) (id to_ : Blob 8) (c : UInt64) (p : Bytes) : Bytes :=
  tag C macKey (put (put (put (put (put (put (head tMsg) (put64 net).1) id.1) to_.1) (put64 c).1)
    [p.length.toUInt8]) p)

/-- A sealed key, for an Echo. -/
def giveBytes (g : GivePkt) : Bytes :=
  put (put (put (head tGive) g.to_.1) (put64 g.net).1) g.blob.1

end Tag

/-! ### Reading -/

/-- `valid_node`. -/
def validNode (l : Bytes) : Bool :=
  !l.isEmpty && l.all fun c => (0x61 ≤ c && c ≤ 0x7a) || (0x30 ≤ c && c ≤ 0x39) || c == 0x2d

/-- A NUL ends a name: what stands before it. -/
def cNode (l : Bytes) (h : l.length < nLen) : Node :=
  ⟨l.takeWhile (· ≠ Byte.nul), by
    refine ⟨lt_of_le_of_lt (List.takeWhile_prefix _).length_le h, fun hmem => ?_⟩
    have := List.mem_takeWhile_imp hmem
    exact absurd this (by simp)⟩

/-- `get_node`. -/
def getNode (l : Bytes) : Option (Node × Bytes) := do
  let n ← byte l
  if h : n.1.toNat < nLen then
    let q ← take n.1.toNat n.2
    let nd := cNode q.1.1 (by rw [q.1.2]; exact h)
    if validNode nd.1 then some (nd, q.2) else none
  else none

/-- What a beacon and a pair request start with. -/
structure BeaconPkt where
  pub : Blob 32
  net : UInt64
  nd : Node

def readBeacon (l : Bytes) : Option (BeaconPkt × Bytes) := do
  let pub ← take 32 l
  let net ← get64 pub.2
  let nd ← getNode net.2
  some (⟨pub.1, net.1, nd.1⟩, nd.2)

/-- The counter and the flags of a member's beacon. -/
def readMember (l : Bytes) : Option (UInt64 × UInt8) := do
  let c ← get64 l
  match c.2 with
  | f :: l => if l.length = 16 then some (c.1, f) else if l.length = 15 then some (c.1, 0) else none
  | [] => none

/-- The fields of a claim. -/
structure ClaimPkt where
  net : UInt64
  id : Blob 8
  c : UInt64
  kw : Blob 8
  s : Blob 4
  prio : UInt8
  won : UInt8

def readClaim (l : Bytes) : Option ClaimPkt := do
  let net ← get64 l
  let id ← take 8 net.2
  let c ← get64 id.2
  let kw ← take 8 c.2
  let s ← take 4 kw.2
  let prio ← byte s.2
  let won ← byte prio.2
  if won.2.length = 16 then some ⟨net.1, id.1, c.1, kw.1, s.1, prio.1, won.1⟩ else none

/-- The fields of a sealed key. -/
def readGive (l : Bytes) : Option GivePkt := do
  let to_ ← take 32 l
  let net ← get64 to_.2
  let blob ← take blobLen net.2
  if blob.2 = [] then some ⟨to_.1, net.1, blob.1⟩ else none

/-- The fields of a message. -/
structure MsgPkt where
  net : UInt64
  from_ : Blob 8
  to_ : Blob 8
  c : UInt64
  p : Bytes

def readMsg (l : Bytes) : Option MsgPkt := do
  let net ← get64 l
  let from_ ← take 8 net.2
  let to_ ← take 8 from_.2
  let c ← get64 to_.2
  let n ← byte c.2
  let q ← take n.1.toNat n.2
  if q.2.length = 16 then some ⟨net.1, from_.1, to_.1, c.1, q.1.1⟩ else none

/-- The type of a packet with our magic, and what follows. -/
def readHead (p : Bytes) : Option (UInt8 × Bytes) := do
  let m ← take 4 p
  let t ← byte m.2
  if m.1 = magic then some t else none

/-! ### Reading back what was written -/

variable {b : Bytes} {type : UInt8}

theorem put_eq {d : Bytes} (h : b.length + d.length ≤ 256) : put b d = b ++ d := if_pos h

@[simp] theorem length_head (type : UInt8) : (head type).length = 5 := rfl

theorem readHead_head (type : UInt8) (l : Bytes) : readHead (head type ++ l) = some (type, l) := by
  unfold readHead head
  rw [List.append_assoc, take_append]
  simp [byte]

/-- The bytes of a packet of this type. -/
def Typed (type : UInt8) (b : Bytes) : Prop := head type <+: b

theorem typed_head (type : UInt8) : Typed type (head type) := List.prefix_rfl

theorem Typed.put (h : Typed type b) (d : Bytes) : Typed type (put b d) := by
  unfold Arb.put
  split
  · exact h.trans (List.prefix_append b d)
  · exact h

theorem Typed.readHead (h : Typed type b) :
    ∃ l, readHead b = some (type, l) := by
  obtain ⟨l, rfl⟩ := h
  exact ⟨l, readHead_head type l⟩

theorem Typed.inj {type' : UInt8} (h : Typed type b) (h' : Typed type' b) :
    type = type' := by
  obtain ⟨l, hl⟩ := h.readHead
  obtain ⟨l', hl'⟩ := h'.readHead
  rw [hl] at hl'
  exact (Prod.mk.inj (some.inj hl')).1

theorem typed_beaconHead (type : UInt8) (pk : Blob 32) (net : UInt64) (node : Node) :
    Typed type (beaconHead type pk net node) := ((((typed_head type).put _).put _).put _).put _

theorem typed_beaconBytes (C : Crypto) (macKey pk : Blob 32) (net : UInt64) (node : Node)
    (c : UInt64) (flags : UInt8) : Typed tBeacon (beaconBytes C macKey pk net node c flags) := by
  have h := (typed_beaconHead tBeacon pk net node).put (put64 c).1
  unfold beaconBytes
  simp only
  split
  · exact (h.put _).put _
  · exact h.put _

theorem typed_claimBytes (C : Crypto) (macKey : Blob 32) (net : UInt64) (id : Blob 8) (c : UInt64)
    (kw : Blob 8) (score : Int32) (prio won : UInt8) :
    Typed tClaim (claimBytes C macKey net id c kw score prio won) :=
  (((((((typed_head tClaim).put _).put _).put _).put _).put _).put _).put _

theorem typed_msgBytes (C : Crypto) (macKey : Blob 32) (net : UInt64) (id to_ : Blob 8) (c : UInt64)
    (p : Bytes) : Typed tMsg (msgBytes C macKey net id to_ c p) :=
  (((((((typed_head tMsg).put _).put _).put _).put _).put _).put _).put _

theorem typed_giveBytes (g : GivePkt) : Typed tGive (giveBytes g) :=
  (((typed_head tGive).put _).put _).put _

/-- A sealed key is read back. -/
theorem readGive_giveBytes (g : GivePkt) :
    ∃ l, readHead (giveBytes g) = some (tGive, l) ∧ readGive l = some g := by
  have hblob : g.blob.1.length = 104 := g.blob.2
  have heq : giveBytes g = head tGive ++ (g.to_.1 ++ ((put64 g.net).1 ++ g.blob.1)) := by
    unfold giveBytes
    simp only [put, length_head, g.to_.2, (put64 g.net).2, hblob, List.length_append, Nat.reduceAdd,
      Nat.reduceLeDiff, if_true, List.append_assoc]
  refine ⟨g.to_.1 ++ ((put64 g.net).1 ++ g.blob.1), by rw [heq, readHead_head], ?_⟩
  have htake : take blobLen g.blob.1 = some (g.blob, []) := by
    simpa using take_append g.blob []
  simp only [readGive, take_append, get64_append, htake, bind_eq_bind, bind_some,
    if_true]

theorem giveBytes_injective : Function.Injective giveBytes := by
  intro g g' h
  obtain ⟨l, hl, hg⟩ := readGive_giveBytes g
  obtain ⟨l', hl', hg'⟩ := readGive_giveBytes g'
  rw [h, hl'] at hl
  obtain rfl := (Prod.mk.inj (some.inj hl)).2
  exact some.inj (hg.symm.trans hg')

theorem tag_eq (C : Crypto) (macKey : Blob 32) (h : b.length + 16 ≤ 256) :
    tag C macKey b = b ++ (C.keyed16 macKey b).1 :=
  put_eq (by rw [(C.keyed16 macKey b).2]; exact h)

/-- What was tagged verifies under the same key. -/
theorem tagOk_tag (C : Crypto) (macKey : Blob 32) (h : b.length + 16 ≤ 256) :
    tagOk C macKey (tag C macKey b) = true := by
  have hlen : (b ++ (C.keyed16 macKey b).1).length - 16 = b.length := by
    rw [List.length_append, (C.keyed16 macKey b).2]
    omega
  rw [tag_eq C macKey h, tagOk, hlen, List.take_left, List.drop_left, List.length_append,
    (C.keyed16 macKey b).2]
  simp

theorem claimBytes_eq (C : Crypto) (macKey : Blob 32) (net : UInt64) (id : Blob 8) (c : UInt64)
    (kw : Blob 8) (score : Int32) (prio won : UInt8) :
    ∃ b : Bytes, b.length = 43 ∧ claimBytes C macKey net id c kw score prio won = tag C macKey b ∧
      b = head tClaim ++ ((put64 net).1 ++ (id.1 ++ ((put64 c).1 ++ (kw.1 ++ ((put32 score).1 ++
        [prio, won]))))) := by
  refine ⟨_, ?_, ?_, rfl⟩
  · simp only [List.length_append, length_head, (put64 net).2, id.2, (put64 c).2, kw.2,
      (put32 score).2, List.length_cons, List.length_nil]
  · unfold claimBytes
    congr 1
    simp only [put, length_head, (put64 net).2, id.2, (put64 c).2, kw.2, (put32 score).2,
      List.length_append, List.length_cons, List.length_nil, Nat.reduceAdd, Nat.reduceLeDiff,
      if_true, List.append_assoc]

/-- **A claim is read back.** -/
theorem readClaim_claimBytes (C : Crypto) (macKey : Blob 32) (net : UInt64) (id : Blob 8)
    (c : UInt64) (kw : Blob 8) (score : Int32) (prio won : UInt8) :
    tagOk C macKey (claimBytes C macKey net id c kw score prio won) = true ∧
    ∃ l, readHead (claimBytes C macKey net id c kw score prio won) = some (tClaim, l) ∧
      readClaim l = some ⟨net, id, c, kw, put32 score, prio, won⟩ := by
  obtain ⟨b, hlen, heq, hb⟩ := claimBytes_eq C macKey net id c kw score prio won
  have htag : ((C.keyed16 macKey b).1).length = 16 := (C.keyed16 macKey b).2
  rw [heq]
  refine ⟨tagOk_tag C macKey (by omega), (put64 net).1 ++ (id.1 ++ ((put64 c).1 ++ (kw.1 ++
    ((put32 score).1 ++ [prio, won])))) ++ (C.keyed16 macKey b).1, ?_, ?_⟩
  · rw [tag_eq C macKey (by omega)]
    nth_rewrite 1 [hb]
    rw [List.append_assoc, readHead_head]
  · simp only [List.append_assoc, readClaim, get64_append, take_append, bind_eq_bind,
      bind_some, List.cons_append, List.nil_append, byte, htag, if_true]

/-- What a beacon says of its sender. -/
def nodeField (node : Node) : Bytes := node.1.length.toUInt8 :: node.1

theorem beaconHead_eq (type : UInt8) (pk : Blob 32) (net : UInt64) (node : Node) :
    beaconHead type pk net node = head type ++ (pk.1 ++ ((put64 net).1 ++ nodeField node)) := by
  have hnode : node.1.length < 64 := node.2.1
  have h₁ : put (head type) pk.1 = head type ++ pk.1 := by
    apply put_eq
    rw [length_head, pk.2]
    omega
  have h₂ : put (head type ++ pk.1) (put64 net).1 = head type ++ pk.1 ++ (put64 net).1 := by
    apply put_eq
    rw [List.length_append, length_head, pk.2, (put64 net).2]
    omega
  have h₃ : put (head type ++ pk.1 ++ (put64 net).1) [node.1.length.toUInt8]
      = head type ++ pk.1 ++ (put64 net).1 ++ [node.1.length.toUInt8] := by
    apply put_eq
    simp [pk.2, (put64 net).2]
  unfold beaconHead
  rw [h₁, h₂, h₃, put_eq (by simp [pk.2, (put64 net).2]; omega)]
  simp [nodeField]

theorem length_beaconHead (type : UInt8) (pk : Blob 32) (net : UInt64) (node : Node) :
    (beaconHead type pk net node).length = 46 + node.1.length := by
  rw [beaconHead_eq]
  simp [pk.2, (put64 net).2, nodeField]
  omega

theorem take_append_of_length {n : ℕ} {l : Bytes} (h : l.length = n) (r : Bytes) :
    take n (l ++ r) = some (⟨l, h⟩, r) :=
  take_append ⟨l, h⟩ r

theorem cNode_node (node : Node) : cNode node.1 node.2.1 = node := by
  apply Subtype.ext
  show node.1.takeWhile (· ≠ Byte.nul) = node.1
  rw [List.takeWhile_eq_self_iff]
  intro c hc
  simpa using fun h : c = Byte.nul => node.2.2 (h ▸ hc)

theorem getNode_append (node : Node) (l : Bytes) :
    getNode (nodeField node ++ l) = if validNode node.1 then some (node, l) else none := by
  have hlen : node.1.length.toUInt8.toNat = node.1.length := by
    have : node.1.length < 64 := node.2.1
    simp [Nat.toUInt8]
    omega
  have hlt : node.1.length.toUInt8.toNat < nLen := by rw [hlen]; exact node.2.1
  have htake := take_append_of_length hlen.symm l
  unfold getNode nodeField
  rw [List.cons_append]
  simp only [byte, bind_eq_bind, bind_some, dif_pos hlt, htake]
  simp only [cNode_node]

theorem readBeacon_append (pk : Blob 32) (net : UInt64) (node : Node) (l : Bytes) :
    readBeacon (pk.1 ++ ((put64 net).1 ++ nodeField node) ++ l)
      = if validNode node.1 then some (⟨pk, net, node⟩, l) else none := by
  unfold readBeacon
  rw [List.append_assoc, List.append_assoc, take_append]
  simp only [bind_eq_bind, bind_some, get64_append, getNode_append]
  split <;> rfl

theorem readMember_append (c : UInt64) (flags : UInt8) {t : Bytes} (ht : t.length = 16) :
    readMember ((put64 c).1 ++ ((if flags ≠ 0 then [flags] else []) ++ t)) = some (c, flags) := by
  unfold readMember
  rw [get64_append]
  simp only [bind_eq_bind, bind_some]
  by_cases h : flags = 0
  · rw [if_neg (by simp [h]), h, List.nil_append]
    obtain ⟨a, t, rfl⟩ : ∃ a t', t = a :: t' :=
      List.exists_cons_of_ne_nil (by intro hnil; rw [hnil] at ht; exact absurd ht (by simp))
    rw [List.length_cons] at ht
    simp only
    rw [if_neg (by omega), if_pos (by omega)]
  · rw [if_pos h]
    simp [ht]

/-- The part of a member's beacon that its tag covers. -/
def beaconBody (pk : Blob 32) (net : UInt64) (node : Node) (c : UInt64) (flags : UInt8) : Bytes :=
  head tBeacon ++ (pk.1 ++ ((put64 net).1 ++ nodeField node) ++
    ((put64 c).1 ++ (if flags ≠ 0 then [flags] else [])))

theorem beaconBytes_eq (C : Crypto) (macKey : Blob 32) (pk : Blob 32) (net : UInt64) (node : Node)
    (c : UInt64) (flags : UInt8) :
    (beaconBody pk net node c flags).length + 16 ≤ 256 ∧
    beaconBytes C macKey pk net node c flags = tag C macKey (beaconBody pk net node c flags) := by
  have hnode : node.1.length < 64 := node.2.1
  have hlen := length_beaconHead tBeacon pk net node
  have hput : put (beaconHead tBeacon pk net node) (put64 c).1
      = beaconHead tBeacon pk net node ++ (put64 c).1 :=
    put_eq (by rw [hlen, (put64 c).2]; omega)
  have hbody : (if flags ≠ 0 then put (put (beaconHead tBeacon pk net node) (put64 c).1) [flags]
      else put (beaconHead tBeacon pk net node) (put64 c).1) = beaconBody pk net node c flags := by
    rw [hput]
    split
    · next h =>
      rw [put_eq (by simp [hlen, (put64 c).2]; omega), beaconHead_eq]
      simp [beaconBody, h]
    · next h =>
      rw [beaconHead_eq]
      simp [beaconBody, h]
  refine ⟨?_, ?_⟩
  · simp only [beaconBody, List.length_append, length_head, pk.2, (put64 net).2, (put64 c).2,
      nodeField, List.length_cons]
    split <;> simp <;> omega
  · unfold beaconBytes
    simp only
    rw [hbody]

/-- **A member's beacon is read back**, if its sender's name is one. -/
theorem readBeacon_beaconBytes (C : Crypto) (macKey : Blob 32) (pk : Blob 32) (net : UInt64)
    (node : Node) (c : UInt64) (flags : UInt8) :
    tagOk C macKey (beaconBytes C macKey pk net node c flags) = true ∧
    ∃ l r, readHead (beaconBytes C macKey pk net node c flags) = some (tBeacon, l) ∧
      readBeacon l = (if validNode node.1 then some (⟨pk, net, node⟩, r) else none) ∧
      readMember r = some (c, flags) := by
  obtain ⟨hlen, heq⟩ := beaconBytes_eq C macKey pk net node c flags
  set t := (C.keyed16 macKey (beaconBody pk net node c flags)) with ht
  rw [heq]
  refine ⟨tagOk_tag C macKey hlen,
    pk.1 ++ ((put64 net).1 ++ nodeField node) ++
      ((put64 c).1 ++ ((if flags ≠ 0 then [flags] else []) ++ t.1)),
    (put64 c).1 ++ ((if flags ≠ 0 then [flags] else []) ++ t.1), ?_, ?_, ?_⟩
  · rw [tag_eq C macKey hlen, ← ht, beaconBody, List.append_assoc, readHead_head]
    simp
  · exact readBeacon_append _ _ _ _
  · exact readMember_append _ _ t.2

end Hassmic.Arb
