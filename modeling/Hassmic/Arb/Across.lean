import Hassmic.Arb.Moves

/-!
# Packets from member to member

What one member builds, another with the same key takes apart: the packet is its fields one after
the other, nothing of it was left out, and what it tells is noted by whoever finds it fresh.

## Main definitions

* `Mates` — two members of one network.
* `Whole` — a packet is its fields and the tag over them.
* `Sent` — the packet that a step ends with.

## Main results

* `peers_fresh` — the entry of the sender of a fresh packet.
* `whole_beaconBytes`, `whole_claimBytes`, `whole_msgBytes` — nothing is left out of a packet.
* `onBeacon_mates`, `onClaim_mates`, `onMsg_mates` — **what is noted of each packet**.
* `packets_across` — **the packets of a member reach another as they were meant**.
-/

namespace Hassmic.Arb

open Wire Function

/-! ### A fresh packet -/

section Fresh

variable (s : St) (id : Blob 8) (c : UInt64) (now : Instant)

/-- **The entry of the sender of a fresh packet**, and the slot where it is found again. -/
theorem peers_fresh (h : (s.fresh id c now.1).1 = true) :
    let t := (s.fresh id c now.1).2
    (t.peers (s.peerSlot id)).id = id ∧ (t.peers (s.peerSlot id)).ctr = c ∧
      (t.peers (s.peerSlot id)).seen = now.1 ∧ t.peerSlot id = s.peerSlot id ∧ t.msgs = s.msgs := by
  intro t
  -- only the slot of the sender is written, whoever had it
  have hset : ∀ (q : Peer) (o : Out), t = { s with
      peers :=
        update s.peers (s.peerSlot id) { q with ctr := c, seen := now.1 } }.log o → q.id = id →
      (∀ j, t.holds j id = true → j = s.peerSlot id ∨ s.holds j id = true) ∧
        t.holds (s.peerSlot id) id = true ∧
        t.peers (s.peerSlot id) = { q with ctr := c, seen := now.1 } ∧
        t.msgs = s.msgs := by
    intro q o ht hq
    have hself : t.peers (s.peerSlot id) = { q with ctr := c, seen := now.1 } := by
      rw [ht]
      exact update_self _ _ _
    refine ⟨fun j hj => ?_, ?_, hself, by rw [ht]; rfl⟩
    · by_cases hji : j = s.peerSlot id
      · exact .inl hji
      · right
        have hsame : t.peers j = s.peers j := by
          rw [ht]
          exact update_of_ne hji _ _
        unfold St.holds at hj ⊢
        rwa [hsame] at hj
    · refine holds_iff.mpr ⟨?_, ?_⟩
      · unfold Used
        rw [hself]
        exact now.2.ne'
      · rw [hself]
        exact hq
  rcases hit_or_miss s id with hhit | hmiss
  · -- the sender has a slot, and it stays the first one that is found
    have ht : t = (s.fresh id c now.1).2 := rfl
    rw [fresh_hit hhit] at h ht
    split at h
    · cases h
    · next hnew =>
      rw [if_neg hnew] at ht
      obtain ⟨hheld, hown, hself, hmsgs⟩ :=
        hset (s.peers (s.peerSlot id)) _ ht (holds_iff.mp hhit).2
      have hsame : (fun j => t.holds j id) = fun j => s.holds j id := by
        funext j
        by_cases hji : j = s.peerSlot id
        · rw [hji, hown, hhit]
        · have hpeer : t.peers j = s.peers j := by
            rw [ht]
            exact update_of_ne hji _ _
          unfold St.holds
          rw [hpeer]
      have hslot : t.peerSlot id = s.peerSlot id := by
        show Slots.pick (fun j => t.holds j id) _ = _
        rw [hsame]
        exact Slots.pick_of_hit hhit _
      rw [hself]
      exact ⟨(holds_iff.mp hhit).2, rfl, rfl, hslot, hmsgs⟩
  · have ht : t = (s.fresh id c now.1).2 := rfl
    rw [fresh_miss hmiss] at h ht
    split at h
    · cases h
    · next hnew =>
      rw [if_neg hnew] at ht
      obtain ⟨hheld, hown, hself, hmsgs⟩ := hset { id := id } _ ht rfl
      have hslot : t.peerSlot id = s.peerSlot id := by
        refine Slots.pick_eq_of_unique hown fun j hj => ?_
        rcases hheld j hj with h | h
        · exact h
        · rw [hmiss j] at h
          cases h
      rw [hself]
      exact ⟨rfl, rfl, rfl, hslot, hmsgs⟩

/-- What a member's beacon tells of it. -/
theorem peers_notePeer (h : (s.fresh id c now.1).1 = true) (nd : Node) (ip : UInt32)
    (flags : UInt8) :
    (((s.fresh id c now.1).2.notePeer id nd ip flags).peers (s.peerSlot id)) =
      ⟨id, c, now.1, nd, ip, flags &&& fQuiet ≠ 0, flags &&& fKiosk ≠ 0⟩ := by
  obtain ⟨hid, hctr, hseen, hslot, -⟩ := peers_fresh s id c now h
  generalize (s.fresh id c now.1).2 = t at hid hctr hseen hslot
  have hheld : t.holds (t.peerSlot id) id = true := by
    rw [hslot]
    refine holds_iff.mpr ⟨?_, hid⟩
    unfold Used
    rw [hseen]
    exact now.2.ne'
  have hpeer : t.peer id = t := by
    rw [St.peer, if_pos hheld]
  unfold St.notePeer
  dsimp only
  rw [hpeer, hslot, update_self, hid, hctr, hseen]

end Fresh

/-! ### Two members -/

/-- **Two members of one network**, with the same key for their packets. -/
structure Mates (s u : St) : Prop where
  inNet : s.inNet = true
  inNet' : u.inNet = true
  netId : u.netId = s.netId
  macKey : u.macKey = s.macKey
  other : u.id ≠ s.id

/-- **A packet is its fields and the tag over them**: nothing was left out, and it fits the
buffer. -/
def Whole (C : Crypto) (macKey : Blob 32) (b : Bytes) (fields : List Bytes) : Prop :=
  b = fields.flatten ++ (C.keyed16 macKey fields.flatten).1 ∧ b.length ≤ 256

/-- The packet that a step ends with. -/
def Sent (t : St) (b : Bytes) : Prop := t.out.getLast? = some (.sent b)

theorem whole_tag (C : Crypto) (macKey : Blob 32) {b : Bytes} {fields : List Bytes}
    (hb : b = fields.flatten) (hlen : b.length + 16 ≤ 256) :
    Whole C macKey (tag C macKey b) fields := by
  unfold Whole
  rw [tag_eq C macKey hlen, ← hb]
  refine ⟨rfl, ?_⟩
  rw [List.length_append, (C.keyed16 macKey b).2]
  exact hlen

/-- Taking the next number leaves the identity alone. -/
theorem nextCtr_spec (s : St) :
    (s.nextCtr.macKey = s.macKey ∧ s.nextCtr.pk = s.pk ∧ s.nextCtr.netId = s.netId ∧
    s.nextCtr.id = s.id ∧ s.nextCtr.node = s.node) ∧ s.nextCtr.ctr = s.ctr + 1 ∧
    s.nextCtr.round = s.round := by
  unfold St.nextCtr
  dsimp only
  split
  · exact ⟨⟨rfl, rfl, rfl, rfl, rfl⟩, rfl, rfl⟩
  · exact ⟨⟨rfl, rfl, rfl, rfl, rfl⟩, rfl, rfl⟩

theorem sent_log (s : St) (b c : Bytes) (h : (s.log (.sent b)).out.getLast? = some (.sent c)) :
    c = b := by
  have hlast : (s.log (.sent b)).out.getLast? = some (.sent b) := List.getLast?_concat
  exact (Out.sent.inj (Option.some.inj (hlast.symm.trans h))).symm

section Sender

variable (C : Crypto) (s : St)

/-- What a member's beacon is. -/
theorem sent_beacon (hnet : s.inNet = true) (answer : Bool) (t₀ : ℤ) {b : Bytes}
    (h : Sent (s.beacon C answer t₀) b) :
    b = beaconBytes C s.macKey s.pk s.netId s.node (s.ctr + 1) (s.beaconFlags answer t₀) := by
  obtain ⟨⟨hmac, hpk, hid, -, hnode⟩, hctr, -⟩ := nextCtr_spec s
  unfold Sent St.beacon at h
  rw [if_pos hnet] at h
  have hb := sent_log _ _ _ h
  rw [hb, hmac, hpk, hid, hnode, hctr]

/-- What a claim is. -/
theorem sent_claimPkt (score prio : Int32) (won : Bool) (t₀ : ℤ) {b : Bytes}
    (h : Sent (s.claimPkt C score prio won t₀) b) :
    b = claimBytes C s.macKey s.netId s.id (s.ctr + 1) s.round.kw score
      (UInt8.ofNat (prio.toInt % 256).toNat) (if won then 1 else 0) := by
  obtain ⟨⟨hmac, -, hid, hown, -⟩, hctr, hround⟩ := nextCtr_spec s
  unfold Sent St.claimPkt at h
  have hb := sent_log _ _ _ h
  rw [hb, hmac, hid, hown, hctr, hround]

/-- What a message is. -/
theorem sent_arbTell (hrun : s.running = true) (hnet : s.inNet = true) (to_ : Blob 8) {p b : Bytes}
    (hp : p.length ≤ arbMsgMax) (h : Sent (s.arbTell C to_ p) b) :
    b = msgBytes C s.macKey s.netId s.id to_ (s.ctr + 1) p := by
  obtain ⟨⟨hmac, -, hid, hown, -⟩, hctr, -⟩ := nextCtr_spec s
  have hgoes : ¬ (arbMsgMax < p.length ∨ !s.running ∨ !s.inNet) := by
    rw [hrun, hnet]
    simp only [Bool.not_true, Bool.false_eq_true, or_false, not_lt]
    exact hp
  unfold Sent St.arbTell at h
  rw [if_neg hgoes] at h
  have hb := sent_log _ _ _ h
  rw [hb, hmac, hid, hown, hctr]

end Sender

/-! ### The fields of each packet -/

section Fields

variable (C : Crypto) (macKey pk : Blob 32) (net : UInt64) (id : Blob 8) (node : Node) (c : UInt64)

/-- A beacon of a member is whole. -/
theorem whole_beaconBytes (flags : UInt8) :
    Whole C macKey (beaconBytes C macKey pk net node c flags)
      [magic.1, [tBeacon], pk.1, (put64 net).1, [node.1.length.toUInt8], node.1, (put64 c).1,
        if flags ≠ 0 then [flags] else []] := by
  obtain ⟨hlen, heq⟩ := beaconBytes_eq C macKey pk net node c flags
  rw [heq]
  refine whole_tag C macKey ?_ hlen
  unfold beaconBody head nodeField
  simp only [List.flatten_cons, List.flatten_nil, List.append_nil, List.append_assoc,
    List.cons_append, List.nil_append]

/-- A beacon outside a network is whole. -/
theorem whole_beaconHead : beaconHead tBeacon pk net node =
      [magic.1, [tBeacon], pk.1, (put64 net).1, [node.1.length.toUInt8], node.1].flatten ∧
    (beaconHead tBeacon pk net node).length ≤ 256 := by
  have hnode : node.1.length < 64 := node.2.1
  rw [length_beaconHead, beaconHead_eq]
  refine ⟨?_, by omega⟩
  unfold head nodeField
  simp only [List.flatten_cons, List.flatten_nil, List.append_nil, List.append_assoc,
    List.cons_append, List.nil_append]

/-- A claim is whole. -/
theorem whole_claimBytes (kw : Blob 8) (score : Int32) (prio won : UInt8) :
    Whole C macKey (claimBytes C macKey net id c kw score prio won)
      [magic.1, [tClaim], (put64 net).1, id.1, (put64 c).1, kw.1, (put32 score).1,
        [prio, won]] := by
  obtain ⟨b, hlen, heq, hb⟩ := claimBytes_eq C macKey net id c kw score prio won
  rw [heq]
  refine whole_tag C macKey ?_ (by omega)
  rw [hb]
  unfold head
  simp only [List.flatten_cons, List.flatten_nil, List.append_nil, List.append_assoc]

/-- The part of a message that its tag covers. -/
def msgBody (net : UInt64) (id to_ : Blob 8) (c : UInt64) (p : Bytes) : Bytes :=
  head tMsg ++ ((put64 net).1 ++ (id.1 ++ (to_.1 ++ ((put64 c).1 ++ ([p.length.toUInt8] ++ p)))))

theorem msgBytes_eq (to_ : Blob 8) {p : Bytes} (hp : p.length ≤ arbMsgMax) :
    (msgBody net id to_ c p).length + 16 ≤ 256 ∧
      msgBytes C macKey net id to_ c p = tag C macKey (msgBody net id to_ c p) := by
  have hmax : p.length ≤ 160 := hp
  refine ⟨?_, ?_⟩
  · unfold msgBody
    simp only [List.length_append, length_head, (put64 net).2, id.2, to_.2, (put64 c).2,
      List.length_singleton]
    omega
  · have hfits : 38 + p.length ≤ 256 := by omega
    unfold msgBytes msgBody
    congr 1
    simp only [put, length_head, (put64 net).2, id.2, to_.2, (put64 c).2, List.length_append,
      List.length_singleton, Nat.reduceAdd, Nat.reduceLeDiff, if_true, List.append_assoc, hfits]

/-- A message is whole. -/
theorem whole_msgBytes (to_ : Blob 8) {p : Bytes} (hp : p.length ≤ arbMsgMax) :
    Whole C macKey (msgBytes C macKey net id to_ c p)
      [magic.1, [tMsg], (put64 net).1, id.1, to_.1, (put64 c).1, [p.length.toUInt8], p] := by
  obtain ⟨hlen, heq⟩ := msgBytes_eq C macKey net id c to_ hp
  rw [heq]
  refine whole_tag C macKey ?_ hlen
  unfold msgBody head
  simp only [List.flatten_cons, List.flatten_nil, List.append_nil, List.append_assoc]

/-- **A message is read back.** -/
theorem readMsg_msgBytes (to_ : Blob 8) {p : Bytes} (hp : p.length ≤ arbMsgMax) :
    tagOk C macKey (msgBytes C macKey net id to_ c p) = true ∧
      ∃ l, readHead (msgBytes C macKey net id to_ c p) = some (tMsg, l) ∧
        readMsg l = some ⟨net, id, to_, c, p⟩ := by
  obtain ⟨hlen, heq⟩ := msgBytes_eq C macKey net id c to_ hp
  have hmax : p.length ≤ 160 := hp
  have hn : p.length.toUInt8.toNat = p.length := by
    simp only [Nat.toUInt8, UInt8.toNat_ofNat']
    omega
  have htag : (C.keyed16 macKey (msgBody net id to_ c p)).1.length = 16 := (C.keyed16 macKey _).2
  rw [heq]
  refine ⟨tagOk_tag C macKey hlen, (put64 net).1 ++ (id.1 ++ (to_.1 ++ ((put64 c).1 ++
    ([p.length.toUInt8] ++ p)))) ++ (C.keyed16 macKey (msgBody net id to_ c p)).1, ?_, ?_⟩
  · rw [tag_eq C macKey hlen]
    nth_rewrite 1 [msgBody]
    rw [List.append_assoc, readHead_head]
  · have htake := take_append_of_length hn.symm (C.keyed16 macKey (msgBody net id to_ c p)).1
    simp only [List.append_assoc, readMsg, get64_append, take_append, Option.bind_eq_bind,
      Option.bind_some, List.cons_append, List.nil_append, byte, htake, htag, if_true]

end Fields

/-! ### What is noted of a packet -/

section Receiver

variable {C : Crypto} {s u : St}

theorem fresh_dropCand (u : St) (pub : Blob 32) (id : Blob 8) (c : UInt64) (now : ℤ) :
    ((u.dropCand pub).fresh id c now).1 = (u.fresh id c now).1 := by
  rcases hit_or_miss u id with hhit | hmiss
  · have hdrop : (u.dropCand pub).holds ((u.dropCand pub).peerSlot id) id = true := hhit
    have hsame : ((u.dropCand pub).peers ((u.dropCand pub).peerSlot id)).ctr =
      (u.peers (u.peerSlot id)).ctr := rfl
    rw [fresh_hit hhit, fresh_hit hdrop, hsame]
    split
    · rfl
    · rfl
  · have hdrop : ∀ j, (u.dropCand pub).holds j id = false := hmiss
    rw [fresh_miss hmiss, fresh_miss hdrop]
    split
    · rfl
    · rfl

/-- The flags of a beacon are read as they are meant. -/
theorem beaconFlags_spec (s : St) (answer : Bool) (t₀ : ℤ) :
    (s.beaconFlags answer t₀ &&& fQuiet ≠ 0 ↔ s.arbitrate = false ∨ s.mode = .kiosk) ∧
      (s.beaconFlags answer t₀ &&& fKiosk ≠ 0 ↔ s.arbitrate = true ∧ s.mode = .kiosk) ∧
      (s.beaconFlags answer t₀ &&& fHello ≠ 0 ↔ answer = false ∧ t₀ < s.helloUntil) := by
  have hbits : ∀ q k h : Bool,
      let f := (if q then fQuiet else 0) ||| (if k then fKiosk else 0) ||| (if h then fHello else 0)
      (f &&& fQuiet ≠ 0 ↔ q = true) ∧ (f &&& fKiosk ≠ 0 ↔ k = true) ∧
      (f &&& fHello ≠ 0 ↔ h = true) := by
    decide
  have h := hbits (!s.arbitrate || s.mode = .kiosk) (s.arbitrate && s.mode = .kiosk)
    (!answer && decide (t₀ < s.helloUntil))
  simp only [Bool.or_eq_true, Bool.not_eq_true', Bool.and_eq_true, decide_eq_true_eq] at h
  unfold St.beaconFlags
  simp only [Bool.or_eq_true, Bool.not_eq_true', Bool.and_eq_true, decide_eq_true_eq]
  exact h

/-- **A beacon**: its sender is entered with all that it says, and answered if it was not counted or
asks for it. -/
theorem onBeacon_mates (h : Mates s u) (hname : validNode s.node.1 = true)
    {c : UInt64} (flags : UInt8) (now : Instant) (ip : UInt32) (nonce : Blob 24)
    (hfresh : (u.fresh s.id c now.1).1 = true) :
    ∃ (t : St) (i : Fin nPeer),
      t.peers i = ⟨s.id, c, now.1, s.node, ip, flags &&& fQuiet ≠ 0, flags &&& fKiosk ≠ 0⟩ ∧
      u.onPacket C (beaconBytes C s.macKey s.pk s.netId s.node c flags) now.1 ip nonce =
        if !u.known s.id now.1 ∨ flags &&& fHello ≠ 0 then t.beacon C true now.1 else t := by
  obtain ⟨htag, l, r, hhead, hread, hmember⟩ :=
    readBeacon_beaconBytes C s.macKey s.pk s.netId s.node c flags
  rw [if_pos hname] at hread
  have hpk : s.pk ≠ u.pk := by
    intro heq
    refine h.other ?_
    show u.pk.first 8 _ = s.pk.first 8 _
    rw [heq]
  have hdrop : ((u.dropCand s.pk).fresh s.id c now.1).1 = true :=
    (fresh_dropCand u s.pk s.id c now.1).trans hfresh
  refine ⟨((u.dropCand s.pk).fresh s.id c now.1).2.notePeer s.id s.node ip flags,
    (u.dropCand s.pk).peerSlot s.id,
    peers_notePeer (u.dropCand s.pk) s.id c now hdrop s.node ip flags, ?_⟩
  unfold St.onPacket
  rw [hhead]
  dsimp only
  rw [if_pos rfl]
  unfold St.onBeacon
  rw [hread]
  dsimp only
  rw [if_neg hpk, if_pos ⟨h.inNet', h.netId.symm⟩, hmember]
  dsimp only
  rw [h.macKey, if_pos htag]
  unfold St.onMember
  dsimp only
  exact if_pos hdrop

/-- A claim that is kept is in the ring. -/
theorem claims_keepClaim (C : Crypto) (t : St) (k : Claim) :
    (t.keepClaim k).claims (Fin.ofNat nClaim t.claimNext) = k := by
  have hput : ({ t with
      claims := update t.claims (Fin.ofNat nClaim t.claimNext) k
      claimNext := t.claimNext + 1 }.log (.kept k)).claims (Fin.ofNat nClaim t.claimNext) = k :=
    update_self _ _ _
  unfold St.keepClaim
  dsimp only
  split
  · have hheard : Frame C (∅ : Set Kind) _ _ := St.frame_heard C ({ t with
      claims := update t.claims (Fin.ofNat nClaim t.claimNext) k
      claimNext := t.claimNext + 1 }.log (.kept k)) k.id k.at_ k.score k.prio k.won
    split
    · rw [hheard.claims]
      exact hput
    · have hsample : Frame C (∅ : Set Kind) _ _ := hheard.trans (St.frame_sample C _ k.id
        (k.at_ - t.round.at_) k.at_)
      exact (congrFun hsample.claims _).trans hput
  · exact hput

/-- **A claim**: all of it is kept. -/
theorem onClaim_mates (h : Mates s u) {c : UInt64} (kw : Blob 8) (score : Int32)
    (prio : UInt8) (won : Bool) (now : Instant) (ip : UInt32) (nonce : Blob 24)
    (hfresh : (u.fresh s.id c now.1).1 = true) :
    ∃ i, (u.onPacket C
      (claimBytes C s.macKey s.netId s.id c kw score prio (if won then 1 else 0)) now.1 ip
      nonce).claims i = ⟨s.id, kw, score, prio, won, now.1⟩ := by
  obtain ⟨htag, l, hhead, hread⟩ :=
    readClaim_claimBytes C s.macKey s.netId s.id c kw score prio (if won then 1 else 0)
  have hgood : ¬ (!u.inNet ∨ s.netId ≠ u.netId ∨ s.id = u.id ∨ !tagOk C u.macKey
      (claimBytes C s.macKey s.netId s.id c kw score prio (if won then 1 else 0))) := by
    rw [h.inNet', h.netId, h.macKey, htag]
    simp only [Bool.not_true, Bool.false_eq_true, ne_eq, not_true_eq_false, or_false, false_or]
    exact fun heq => h.other heq.symm
  have hwon : (decide ((if won then 1 else 0 : UInt8) ≠ 0)) = won := by
    cases won with
    | true => rfl
    | false => rfl
  unfold St.onPacket
  rw [hhead]
  dsimp only
  rw [if_neg (by decide), if_neg (by decide), if_neg (by decide), if_neg (by decide), if_pos rfl]
  unfold St.onClaim
  rw [hread]
  dsimp only
  rw [if_neg hgood, if_pos hfresh, get32_put32, hwon]
  exact ⟨_, claims_keepClaim C _ _⟩

/-- **A message**: all of it waits for its reader, if there is room. -/
theorem onMsg_mates (h : Mates s u) {c : UInt64} {p : Bytes}
    (hp : p.length ≤ arbMsgMax) (now : Instant) (ip : UInt32) (nonce : Blob 24)
    (hfresh : (u.fresh s.id c now.1).1 = true) (hroom : u.msgs.length < nMsg) :
    ∃ nd, (u.onPacket C (msgBytes C s.macKey s.netId s.id u.id c p) now.1 ip nonce).msgs =
      u.msgs ++ [⟨s.id, p, nd, ip⟩] := by
  obtain ⟨htag, l, hhead, hread⟩ := readMsg_msgBytes C s.macKey s.netId s.id c u.id hp
  have hgood : ¬ (!u.inNet ∨ s.netId ≠ u.netId ∨ u.id ≠ u.id ∨ s.id = u.id ∨ arbMsgMax < p.length ∨
      !tagOk C u.macKey (msgBytes C s.macKey s.netId s.id u.id c p)) := by
    rw [h.inNet', h.netId, h.macKey, htag]
    simp only [Bool.not_true, Bool.false_eq_true, ne_eq, not_true_eq_false, or_false,
      false_or, not_or, not_lt]
    exact ⟨fun heq => h.other heq.symm, hp⟩
  have hmsgs := (peers_fresh u s.id c now hfresh).2.2.2.2
  have hpeer : ∀ t : St, (t.peer s.id).msgs = t.msgs := by
    intro t
    unfold St.peer
    split
    · rfl
    · rfl
  have hopen : ¬ (!(u.fresh s.id c now.1).1 ∨ (u.fresh s.id c now.1).2.msgs.length = nMsg) := by
    rw [hfresh, hmsgs]
    simp only [Bool.not_true, Bool.false_eq_true, false_or]
    exact hroom.ne
  unfold St.onPacket
  rw [hhead]
  dsimp only
  rw [if_neg (by decide), if_neg (by decide), if_neg (by decide), if_pos rfl]
  unfold St.onMsg
  rw [hread]
  dsimp only
  rw [if_neg hgood, if_neg hopen]
  refine ⟨((u.fresh s.id c now.1).2.peer s.id).peers
    ((u.fresh s.id c now.1).2.peerSlot s.id) |>.node, ?_⟩
  show ((u.fresh s.id c now.1).2.peer s.id).msgs ++ _ = _
  rw [hpeer, hmsgs]

end Receiver

/-! ### Every packet -/

/-- **The packets of a member reach another as they were meant.**  Each is its fields one after the
other, with nothing left out, and another member that finds it fresh notes all of them: of a beacon
if its name is one that may be beaconed, and of a message if there is room for it. -/
theorem packets_across (C : Crypto) (s : St) :
    (∀ answer t₀ b, s.inNet = false → Sent (s.beacon C answer t₀) b → b.length ≤ 256 ∧
      b = [magic.1, [tBeacon], s.pk.1, (put64 0).1, [s.node.1.length.toUInt8], s.node.1].flatten) ∧
    (∀ answer t₀ b, s.inNet = true → Sent (s.beacon C answer t₀) b →
      Whole C s.macKey b [magic.1, [tBeacon], s.pk.1, (put64 s.netId).1,
        [s.node.1.length.toUInt8], s.node.1, (put64 (s.ctr + 1)).1,
        if s.beaconFlags answer t₀ ≠ 0 then [s.beaconFlags answer t₀] else []] ∧
      ∀ (u : St) (now : Instant) (ip : UInt32) (nonce : Blob 24), Mates s u →
      validNode s.node.1 = true →
        (u.fresh s.id (s.ctr + 1) now.1).1 = true → ∃ (t : St) (i : Fin nPeer),
          t.peers i = ⟨s.id, s.ctr + 1, now.1, s.node, ip,
            decide (s.arbitrate = false ∨ s.mode = .kiosk),
            decide (s.arbitrate = true ∧ s.mode = .kiosk)⟩ ∧
          u.onPacket C b now.1 ip nonce =
            if u.known s.id now.1 = false ∨ answer = false ∧ t₀ < s.helloUntil then
            t.beacon C true now.1
            else t) ∧
    (∀ score prio won t₀ b, Sent (s.claimPkt C score prio won t₀) b →
      Whole C s.macKey b [magic.1, [tClaim], (put64 s.netId).1, s.id.1,
        (put64 (s.ctr + 1)).1, s.round.kw.1, (put32 score).1,
        [UInt8.ofNat (prio.toInt % 256).toNat, if won then 1 else 0]] ∧
      ∀ (u : St) (now : Instant) (ip : UInt32) (nonce : Blob 24), Mates s u →
        (u.fresh s.id (s.ctr + 1) now.1).1 = true → ∃ i, (u.onPacket C b now.1 ip nonce).claims i =
          ⟨s.id, s.round.kw, score, UInt8.ofNat (prio.toInt % 256).toNat, won, now.1⟩) ∧
    ∀ (to_ : Blob 8) (p b : Bytes), s.running = true → s.inNet = true → p.length ≤ arbMsgMax →
      Sent (s.arbTell C to_ p) b →
      Whole C s.macKey b [magic.1, [tMsg], (put64 s.netId).1, s.id.1, to_.1, (put64 (s.ctr + 1)).1,
        [p.length.toUInt8], p] ∧
      ∀ (u : St) (now : Instant) (ip : UInt32) (nonce : Blob 24), Mates s u → u.id = to_ →
        (u.fresh s.id (s.ctr + 1) now.1).1 = true → u.msgs.length < nMsg →
          ∃ nd, (u.onPacket C b now.1 ip nonce).msgs = u.msgs ++ [⟨s.id, p, nd, ip⟩] := by
  refine ⟨fun answer t₀ b hnet hb => ?_, fun answer t₀ b hnet hb =>
    ?_, fun score prio won t₀ b hb => ?_, fun to_ p b hrun hnet hp hb => ?_⟩
  -- outside a network there is no tag
  · have hsent : b = beaconHead tBeacon s.pk 0 s.node := by
      unfold Sent St.beacon at hb
      rw [hnet, if_neg Bool.false_ne_true] at hb
      exact sent_log _ _ _ hb
    obtain ⟨hflat, hlen⟩ := whole_beaconHead s.pk 0 s.node
    rw [hsent]
    exact ⟨hlen, hflat⟩
  · obtain ⟨hquiet, hkiosk, hhello⟩ := beaconFlags_spec s answer t₀
    rw [sent_beacon C s hnet answer t₀ hb]
    refine ⟨whole_beaconBytes C _ _ _ _ _ _, fun u now ip nonce hmates hname hfresh => ?_⟩
    obtain ⟨t, i, hentry, hstep⟩ :=
      onBeacon_mates (C := C) hmates hname (s.beaconFlags answer t₀) now ip nonce hfresh
    refine ⟨t, i, ?_, ?_⟩
    · rw [hentry, decide_eq_decide.mpr hquiet, decide_eq_decide.mpr hkiosk]
    · rw [hstep]
      simp only [hhello, Bool.not_eq_true']
  · rw [sent_claimPkt C s score prio won t₀ hb]
    exact ⟨whole_claimBytes C _ _ _ _ _ _ _ _, fun u now ip nonce hmates hfresh =>
      onClaim_mates hmates _ _ _ _ now ip nonce hfresh⟩
  · rw [sent_arbTell C s hrun hnet to_ hp hb]
    refine ⟨whole_msgBytes C _ _ _ _ to_ hp, fun u now ip nonce hmates hto hfresh hroom => ?_⟩
    rw [← hto]
    exact onMsg_mates hmates hp now ip nonce hfresh hroom

/-! ### A name that may not be beaconed -/

/-- A member of the network `7` with this name. -/
def named (c : UInt8) (node : Node) : St :=
  { boot { Boot.plain c with node := node } with
    pk := .fill 32 c, inNet := true, netId := 7, running := true }

/-- The beacon that a member of this name sends. -/
def namedBeacon (node : Node) : Bytes :=
  beaconBytes .clear (named 1 node).macKey (.fill 32 1) 7 node 1 ((named 1 node).beaconFlags true 1)

theorem fill_first_ne :
    (Blob.fill 32 2).first 8 (by decide) ≠ (Blob.fill 32 1).first 8 (by decide) := by decide

theorem mates_named (node node' : Node) : Mates (named 1 node) (named 2 node') :=
  ⟨rfl, rfl, rfl, rfl, fill_first_ne⟩

/-- **A member whose name has a capital letter is not counted**: its beacon is whole, and nothing is
noted. -/
theorem packets_across_named : ∃ node node' :
    Node, ∃ b, Sent ((named 1 node).beacon .clear true 1) b ∧
    Mates (named 1 node) (named 2 node') ∧
    ((named 2 node').fresh (named 1 node).id 1 6000).1 = true ∧
      ∀ i, (((named 2 node').onPacket .clear b 6000 0 (.zero 24)).peers i).seen = 0 := by
  refine ⟨⟨[0x41], by decide⟩, ⟨[0x61], by decide⟩, namedBeacon ⟨[0x41], by decide⟩, rfl,
    mates_named _ _, by decide, by decide⟩

end Hassmic.Arb
