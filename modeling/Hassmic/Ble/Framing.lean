import Hassmic.Ble.Links
import Hassmic.Lib.Checked
import Hassmic.Lib.Packets

/-!
# Bluetooth packets

The controller sends a stream of HCI packets, which `pump` takes apart: handlers may wait for an
answer by calling it again.  The data packets among them carry pieces of L2CAP frames, each link's
put together by itself in `acl_rx`: a piece that begins a frame has its header, and a frame that is
longer than the buffer is dropped.

## Main definitions

* `next` — the front of the buffer in `pump`.
* `Reassembly`, `takeFragment`, `aclRx` — a link's frame so far, and a piece more.
* `Acl`, `Cut` — a data packet, and how a frame is cut into some.

## Main results

* `frames_next` — `pump` knows the packets.
* `aclRun_ok` — nothing outside of what was received is read.
* `takeFragments_cut` — the pieces of a frame give the frame, or nothing where it is too long.
* `aclRun_link` — so do those of each link among others.
* `framing` — **framing loses and invents nothing**.
-/

namespace Hassmic.Ble

open Checked Packets Wire List Function

/-! ### HCI packets -/

abbrev h4Acl : UInt8 := 0x02
abbrev h4Evt : UInt8 := 0x04

/-- `sizeof in`. -/
abbrev inSize : ℕ := 2048

/-- The two bytes from a place on, as a number. -/
def wordOf (b : Bytes) (i : ℕ) : ℕ := ofLe ((b.drop i).take 2)

/-- A packet of a length at the front. -/
def cutPacket (b : Bytes) (len : ℕ) : Split :=
  if inSize < len then .bad b else if b.length < len then .stop b
    else .packet (b.take len) (b.drop len)

/-- One turn of the loop in `pump`, what is no packet's start skipped. -/
def next (buf : Bytes) : Split :=
  let b := buf.dropWhile fun c => c ≠ h4Evt ∧ c ≠ h4Acl
  if b.length < 1 then .stop b
  else if b.head? = some h4Evt then if b.length < 3 then .stop b
    else cutPacket b (3 + (b.getD 2 0).toNat)
  else if b.length < 5 then .stop b else cutPacket b (5 + wordOf b 3)

/-- An event or a data packet as the controller sends it, its type byte first. -/
def IsPacket (p : Bytes) : Prop :=
  (p.head? = some h4Evt ∧ 3 ≤ p.length ∧ p.length = 3 + (p.getD 2 0).toNat) ∨
    (p.head? = some h4Acl ∧ 5 ≤ p.length ∧ p.length = 5 + wordOf p 3)

/-! ### L2CAP frames -/

/-- `sizeof c->rx`. -/
abbrev rxSize : ℕ := 585

/-- `u16`. -/
def word (b : Bytes) (i : ℕ) : Except Fault ℕ := (slice b i 2).map ofLe

/-- A connection, as far as putting frames together goes: `rx` up to `rxlen`. -/
structure Reassembly where
  /-- `state >= C_MTU`. -/
  linked : Bool
  handle : ℕ
  srv : Bool
  rx : Bytes
  rxwant : ℕ
  heard : Bool

abbrev cidAtt : ℕ := 4
abbrev cidSig : ℕ := 5
abbrev cidSmp : ℕ := 6

/-- Who a frame goes to. -/
inductive Handler
  | gatts
  | att
  | sig
  | smp
  /-- "Pairing Not Supported". -/
  | refusePairing

/-- Who a frame of a channel goes to. -/
def handlerOf (srv : Bool) (cid : ℕ) (pdu : Bytes) : Option Handler :=
  if srv then
    if cid = cidAtt then some .gatts
    else if cid = cidSig then some .sig
    else if cid = cidSmp ∧ pdu.head? = some 1 then some .refusePairing
    else none
  else if cid = cidAtt then some .att
  else if cid = cidSig then some .sig
  else if cid = cidSmp then some .smp
  else none

/-- What comes of a data packet. -/
inductive Out
  | nothing
  /-- It is of no link here. -/
  | a2dp
  | pdu (i : Slot) (cid : ℕ) (payload : Bytes) (handler : Option Handler)

/-- Whether a piece is taken, and what it goes on from. -/
def startFragment (c : Reassembly) (pb : ℕ) (data : Bytes) : Except Fault (Option Reassembly) :=
  if pb ≠ 1 then
    if data.length < 4 then .ok none
    else do
      let l ← word data 0
      .ok (some { c with rxwant := 4 + l, rx := [] })
  else if c.rxwant = 0 then .ok none
  else .ok (some c)

/-- A piece is put behind the others, and the frame handed on once it is whole. -/
def collect (c : Reassembly) (data : Bytes) : Except Fault (Reassembly × Option (ℕ × Bytes)) :=
  if rxSize < c.rx.length + data.length then .ok ({ c with rxwant := 0 }, none)
  else do
    room (c.rx.length + data.length) rxSize
    let c := { c with rx := c.rx ++ data }
    if c.rx.length < c.rxwant then .ok (c, none)
    else do
      let c := { c with rxwant := 0, heard := true }
      let cid ← word c.rx 2
      let l ← word c.rx 0
      let payload ← slice c.rx 4 l
      .ok (c, some (cid, payload))

/-- `acl_rx`, a piece of a frame. -/
def takeFragment (c : Reassembly) (pb : ℕ) (data : Bytes) :
    Except Fault (Reassembly × Option (ℕ × Bytes)) := do
  match ← startFragment c pb data with
  | none => .ok (c, none)
  | some c => collect c data

/-- `by_handle`. -/
def byHandle (s : Slot → Reassembly) (h : ℕ) : Option Slot :=
  (List.finRange (bleMaxConn + 1)).find? fun i => (s i).linked && (s i).handle = h

/-- `acl_rx`. -/
def aclRx (s : Slot → Reassembly) (p : Bytes) : Except Fault ((Slot → Reassembly) × Out) :=
  if p.length < 4 then .ok (s, .nothing)
  else do
    let h ← word p 0
    let flags ← peek p 1
    let len ← word p 2
    match byHandle s (h % 4096) with
    | none => .ok (s, .a2dp)
    | some i =>
      if p.length - 4 < len then .ok (s, .nothing)
      else do
        let data ← slice p 4 len
        let (c, pdu) ← takeFragment (s i) (flags.toNat / 16 % 4) data
        let out := match pdu with
          | none => .nothing
          | some (cid, payload) => .pdu i cid payload (handlerOf c.srv cid payload)
        .ok (update s i c, out)

/-- Data packets one after the other. -/
def aclRun : (Slot → Reassembly) → List Bytes → Except Fault ((Slot → Reassembly) × List Out)
  | s, [] => .ok (s, [])
  | s, p :: ps => do
    let (s, o) ← aclRx s p
    let (s, os) ← aclRun s ps
    .ok (s, o :: os)

/-- A data packet behind its type byte. -/
structure Acl where
  handle : ℕ
  flags : ℕ
  data : Bytes

/-- The bytes of a data packet. -/
def Acl.bytes (f : Acl) : Bytes := le 2 (f.handle + 4096 * f.flags) ++ le 2 f.data.length ++ f.data

/-- A data packet that there is. -/
structure Acl.Ok (f : Acl) : Prop where
  handle_lt : f.handle < 4096
  flags_lt : f.flags < 16
  length_lt : f.data.length < 65536

/-- The flag of a piece that does not begin a frame. -/
def Acl.pb (f : Acl) : ℕ := f.flags % 4

/-- How a frame is cut: the first piece begins it and has its header. -/
def Cut (frame : Bytes) : List Acl → Prop
  | [] => False
  | f :: fs =>
    f.pb ≠ 1 ∧ 4 ≤ f.data.length ∧ (∀ g ∈ fs, g.pb = 1) ∧
      f.data ++ (fs.map Acl.data).flatten = frame

/-! ### The packets of the stream -/

variable {l p data : Bytes} {n : ℕ} {c : Reassembly} {s : Slot → Reassembly} {f : Acl}
  {fs : List Acl} {i : Slot}

theorem drop_take_append {i : ℕ} (h : i + n ≤ p.length) :
    ((p ++ l).drop i).take n = (p.drop i).take n := by
  rw [drop_append_of_le_length (by omega), take_append_of_le_length (by rw [length_drop]; omega)]

theorem wordOf_append (l : Bytes) {i : ℕ} (h : i + 2 ≤ p.length) :
    wordOf (p ++ l) i = wordOf p i := by
  unfold wordOf
  rw [drop_take_append h]

theorem getD_append (l : Bytes) {i : ℕ} (h : i < p.length) : (p ++ l).getD i 0 = p.getD i 0 := by
  rw [getD_eq_getElem?_getD, getD_eq_getElem?_getD, getElem?_append_left h]

/-- The length that the header says, once it is there. -/
def sizeOfPacket (b : Bytes) : Option ℕ :=
  if b.head? = some h4Evt then if b.length < 3 then none else some (3 + (b.getD 2 0).toNat)
  else if b.length < 5 then none else some (5 + wordOf b 3)

/-- What begins like a packet is taken by the length in its header. -/
theorem next_eq {b : Bytes} {c : UInt8} (hc : c = h4Evt ∨ c = h4Acl) (hb : b.head? = some c) :
    next b = match sizeOfPacket b with
      | none => .stop b
      | some n => cutPacket b n := by
  obtain ⟨l, rfl⟩ : ∃ l, b = c :: l := ⟨b.tail, eq_cons_of_mem_head? hb⟩
  have hkeep : (c :: l).dropWhile (fun c => decide (c ≠ h4Evt ∧ c ≠ h4Acl)) = c :: l := by
    refine dropWhile_cons_of_neg ?_
    rw [decide_eq_true_eq]
    rintro ⟨hne₁, hne₂⟩
    rcases hc with rfl | rfl
    · exact hne₁ rfl
    · exact hne₂ rfl
  unfold next sizeOfPacket
  rw [hkeep]
  dsimp only
  rw [if_neg (by rw [length_cons]; omega)]
  split
  case isTrue => split <;> rfl
  case isFalse => split <;> rfl

/-- What a packet begins with says no other length. -/
theorem sizeOfPacket_prefix {q : Bytes} (h : q ++ l = p) (hne : q ≠ [])
    (hq : sizeOfPacket q = some n) :
    sizeOfPacket p = some n := by
  have hhead : p.head? = q.head? := by
    rw [← h]
    exact head?_append_of_ne_nil _ hne
  have hlen : p.length = q.length + l.length := by
    rw [← h, length_append]
  unfold sizeOfPacket at hq ⊢
  rw [hhead]
  split at hq
  case isTrue hevt =>
    rw [if_pos hevt]
    split at hq
    case isTrue => exact nomatch hq
    case isFalse hlong =>
      rw [if_neg (by omega), ← h, getD_append l (by omega)]
      exact hq
  case isFalse hevt =>
    rw [if_neg hevt]
    split at hq
    case isTrue => exact nomatch hq
    case isFalse hlong =>
      rw [if_neg (by omega), ← h, wordOf_append l (by omega)]
      exact hq

theorem IsPacket.size (h : IsPacket p) :
    sizeOfPacket p = some p.length ∧ ∃ c, (c = h4Evt ∨ c = h4Acl) ∧ p.head? = some c := by
  unfold sizeOfPacket
  rcases h with ⟨hhead, hlong, hlen⟩ | ⟨hhead, hlong, hlen⟩
  · rw [if_pos hhead, if_neg (by omega), ← hlen]
    exact ⟨rfl, h4Evt, .inl rfl, hhead⟩
  · have hevt : p.head? ≠ some h4Evt := by
      rw [hhead]
      decide
    rw [if_neg hevt, if_neg (by omega), ← hlen]
    exact ⟨rfl, h4Acl, .inr rfl, hhead⟩

/-- **`pump` knows the packets** that fit its buffer. -/
theorem frames_next (h : IsPacket p) (hfit : p.length ≤ inSize) : Frames next inSize p := by
  obtain ⟨hsize, c, hc, hhead⟩ := h.size
  have hne : p ≠ [] := by
    rintro rfl
    exact nomatch hhead
  refine ⟨fun l => ?_, fun q hq hqne => ?_, hne, hfit⟩
  · have happ : (p ++ l).head? = some c := by
      rw [head?_append_of_ne_nil _ hne]
      exact hhead
    rw [next_eq hc happ, sizeOfPacket_prefix rfl hne hsize]
    dsimp only
    unfold cutPacket
    rw [if_neg (by omega), if_neg (by rw [length_append]; omega), take_left, drop_left]
  · obtain ⟨l, hl⟩ := hq
    by_cases hnil : q = []
    · rw [hnil]
      rfl
    · have hqhead : q.head? = some c := by
        rw [← hhead, ← hl, head?_append_of_ne_nil _ hnil]
      rw [next_eq hc hqhead]
      cases hqsize : sizeOfPacket q with
      | none => rfl
      | some n =>
        have hn : n = p.length := by
          have hsame := sizeOfPacket_prefix hl hnil hqsize
          rw [hsize] at hsame
          exact (Option.some.inj hsame).symm
        have hlt : q.length < p.length := by
          rcases Nat.lt_or_ge q.length p.length with hlt | hge
          · exact hlt
          · have hpre : q <+: p := ⟨l, hl⟩
            exact absurd (hpre.eq_of_length (Nat.le_antisymm hpre.length_le hge)) hqne
        dsimp only
        unfold cutPacket
        rw [if_neg (by omega), if_pos (by omega)]

theorem next_nil : next [] = .stop [] := rfl

/-! ### A piece of a frame -/

theorem word_eq {b : Bytes} {i : ℕ} (h : i + 2 ≤ b.length) : word b i = .ok (wordOf b i) := by
  unfold word
  rw [slice_eq h]
  rfl

/-- A link that puts a frame together has its header. -/
def Reassembly.Sound (c : Reassembly) : Prop :=
  c.rxwant ≠ 0 → 4 ≤ c.rx.length ∧ c.rxwant = 4 + wordOf c.rx 0

/-- What putting a piece behind the others comes to. -/
def collected (c : Reassembly) (data : Bytes) : Reassembly × Option (ℕ × Bytes) :=
  let q := c.rx ++ data
  if rxSize < q.length then ({ c with rxwant := 0 }, none)
  else if q.length < c.rxwant then ({ c with rx := q }, none)
  else ({ c with rx := q, rxwant := 0, heard := true },
    some (wordOf q 2, (q.drop 4).take (wordOf q 0)))

theorem collect_eq (hlen : 4 ≤ (c.rx ++ data).length)
    (hwant : c.rxwant = 4 + wordOf (c.rx ++ data) 0) : collect c data = .ok (collected c data) := by
  have happ : c.rx.length + data.length = (c.rx ++ data).length := length_append.symm
  unfold collect collected
  dsimp only
  rw [happ]
  generalize hq : c.rx ++ data = q at hlen hwant
  split
  case isTrue => rfl
  case isFalse hroom =>
    rw [room_eq (by omega)]
    change (if q.length < c.rxwant then _ else _) = _
    split
    case isTrue => rfl
    case isFalse hwhole =>
      rw [word_eq (by omega : 2 + 2 ≤ q.length), word_eq (by omega : 0 + 2 ≤ q.length)]
      change (slice q 4 (wordOf q 0)).bind _ = _
      rw [slice_eq (by omega)]
      rfl

/-- What is put behind the others leaves a link that has its header. -/
theorem sound_collected (hlen : 4 ≤ (c.rx ++ data).length)
    (hwant : c.rxwant = 4 + wordOf (c.rx ++ data) 0) : (collected c data).1.Sound := by
  unfold collected
  dsimp only
  split
  case isTrue => exact fun h => absurd rfl h
  case isFalse =>
    split
    case isTrue => exact fun _ => ⟨hlen, hwant⟩
    case isFalse => exact fun h => absurd rfl h

/-- A piece that begins a frame. -/
theorem takeFragment_first (c : Reassembly) {pb : ℕ} (hpb : pb ≠ 1) (hlen : 4 ≤ data.length) :
    takeFragment c pb data =
      .ok (collected { c with rxwant := 4 + wordOf data 0, rx := [] } data) := by
  unfold takeFragment startFragment
  rw [if_pos hpb, if_neg (by omega), word_eq (by omega)]
  exact collect_eq hlen rfl

/-- A piece that goes on with a frame. -/
theorem takeFragment_next (hc : c.Sound) (hwant : c.rxwant ≠ 0) (data : Bytes) :
    takeFragment c 1 data = .ok (collected c data) := by
  obtain ⟨hlen, heq⟩ := hc hwant
  unfold takeFragment startFragment
  rw [if_neg (by omega), if_neg hwant]
  refine collect_eq (by rw [length_append]; omega) ?_
  rw [wordOf_append data (by omega)]
  exact heq

/-- A piece that goes on with nothing. -/
theorem takeFragment_idle (hwant : c.rxwant = 0) (data : Bytes) :
    takeFragment c 1 data = .ok (c, none) := by
  unfold takeFragment startFragment
  rw [if_neg (by omega), if_pos hwant]
  rfl

/-- A piece too short to begin a frame. -/
theorem takeFragment_short (c : Reassembly) {pb : ℕ} (hpb : pb ≠ 1) (hlen : data.length < 4) :
    takeFragment c pb data = .ok (c, none) := by
  unfold takeFragment startFragment
  rw [if_pos hpb, if_pos hlen]
  rfl

/-- It is the same link, whatever it has received. -/
structure Reassembly.Same (c c' : Reassembly) : Prop where
  linked : c'.linked = c.linked
  handle : c'.handle = c.handle
  srv : c'.srv = c.srv

theorem same_collected (c : Reassembly) (data : Bytes) : c.Same (collected c data).1 := by
  unfold collected
  dsimp only
  split
  case isTrue => exact ⟨rfl, rfl, rfl⟩
  case isFalse => split <;> exact ⟨rfl, rfl, rfl⟩

/-- **Any piece is taken** without reading outside of what was received. -/
theorem takeFragment_ok (hc : c.Sound) (pb : ℕ) (data : Bytes) :
    ∃ r, takeFragment c pb data = .ok r ∧ r.1.Sound ∧ c.Same r.1 := by
  by_cases hpb : pb = 1
  · subst hpb
    by_cases hwant : c.rxwant = 0
    · exact ⟨_, takeFragment_idle hwant data, hc, rfl, rfl, rfl⟩
    · obtain ⟨hlen, heq⟩ := hc hwant
      refine ⟨_, takeFragment_next hc hwant data, sound_collected ?_ ?_, same_collected _ _⟩
      · rw [length_append]
        omega
      · rw [wordOf_append data (by omega)]
        exact heq
  · rcases Nat.lt_or_ge data.length 4 with hlt | hge
    · exact ⟨_, takeFragment_short c hpb hlt, hc, rfl, rfl, rfl⟩
    · obtain ⟨hlinked, hhandle, hsrv⟩ :=
        same_collected { c with rxwant := 4 + wordOf data 0, rx := [] } data
      exact ⟨_, takeFragment_first c hpb hge, sound_collected hge rfl, hlinked, hhandle, hsrv⟩

/-! ### Data packets -/

/-- Every link is sound. -/
def AllSound (s : Slot → Reassembly) : Prop := ∀ i, (s i).Sound

/-- The links are the same, whatever they have received. -/
def SameLinks (s s' : Slot → Reassembly) : Prop := ∀ i, (s i).Same (s' i)

theorem SameLinks.byHandle {s' : Slot → Reassembly} (h : SameLinks s s') (n : ℕ) :
    byHandle s' n = byHandle s n := by
  unfold Ble.byHandle
  refine congrArg (fun f => List.find? f _) (funext fun i => ?_)
  rw [(h i).linked, (h i).handle]

/-- What came of a piece. -/
def outOf (i : Slot) (c : Reassembly) : Option (ℕ × Bytes) → Out
  | none => .nothing
  | some (cid, payload) => .pdu i cid payload (handlerOf c.srv cid payload)

/-- A data packet for a link, once its header is read. -/
theorem aclRx_eq (hs : AllSound s) (hlen : 4 ≤ p.length) :
    aclRx s p = match byHandle s (wordOf p 0 % 4096) with
      | none => .ok (s, .a2dp)
      | some i =>
        if p.length - 4 < wordOf p 2 then .ok (s, .nothing)
        else (takeFragment (s i) ((p.getD 1 0).toNat / 16 % 4)
            ((p.drop 4).take (wordOf p 2))).map fun r =>
          (update s i r.1, outOf i r.1 r.2) := by
  unfold aclRx
  rw [if_neg (by omega), word_eq (by omega), peek_eq (by omega),
    word_eq (by omega : 2 + 2 ≤ p.length)]
  change (match byHandle s (wordOf p 0 % 4096) with
    | none => _
    | some i => _) = _
  cases byHandle s (wordOf p 0 % 4096) with
  | none => rfl
  | some i =>
    dsimp only
    split
    case isTrue => rfl
    case isFalse hlong =>
      rw [slice_eq (by omega), getD_eq_getElem _ _ (by omega)]
      obtain ⟨r, hr, -⟩ :=
        takeFragment_ok (hs i) (p[1].toNat / 16 % 4) ((p.drop 4).take (wordOf p 2))
      change (takeFragment (s i) (p[1].toNat / 16 % 4) ((p.drop 4).take (wordOf p 2))).bind _ = _
      rw [hr]
      rcases r with ⟨c, _ | ⟨cid, payload⟩⟩ <;> rfl

/-- **Any data packet is taken** without reading outside of what was received. -/
theorem aclRx_ok (hs : AllSound s) (p : Bytes) :
    ∃ r, aclRx s p = .ok r ∧ AllSound r.1 ∧ SameLinks s r.1 := by
  rcases Nat.lt_or_ge p.length 4 with hlt | hge
  · exact ⟨(s, .nothing), if_pos hlt, hs, fun i => ⟨rfl, rfl, rfl⟩⟩
  · rw [aclRx_eq hs hge]
    cases byHandle s (wordOf p 0 % 4096) with
    | none => exact ⟨_, rfl, hs, fun i => ⟨rfl, rfl, rfl⟩⟩
    | some i =>
      dsimp only
      split
      case isTrue => exact ⟨_, rfl, hs, fun i => ⟨rfl, rfl, rfl⟩⟩
      case isFalse =>
        obtain ⟨r, hr, hsound, hsame⟩ :=
          takeFragment_ok (hs i) ((p.getD 1 0).toNat / 16 % 4) ((p.drop 4).take (wordOf p 2))
        rw [hr]
        refine ⟨_, rfl, fun j => ?_, fun j => ?_⟩
        · dsimp only
          by_cases hji : j = i
          · rw [hji, update_self]
            exact hsound
          · rw [update_of_ne hji]
            exact hs j
        · dsimp only
          by_cases hji : j = i
          · rw [hji, update_self]
            exact hsame
          · rw [update_of_ne hji]
            exact ⟨rfl, rfl, rfl⟩

/-- **Nothing outside of what was received is read**, whatever data packets come. -/
theorem aclRun_ok : ∀ {s : Slot → Reassembly}, AllSound s →
    ∀ (ps : List Bytes), ∃ r, aclRun s ps = .ok r ∧ AllSound r.1
  | s, hs, [] => ⟨(s, []), rfl, hs⟩
  | s, hs, p :: ps => by
    obtain ⟨⟨s₁, o⟩, hone, hs₁, -⟩ := aclRx_ok hs p
    obtain ⟨⟨s₂, os⟩, hrest, hs₂⟩ := aclRun_ok hs₁ ps
    refine ⟨(s₂, o :: os), ?_, hs₂⟩
    rw [aclRun, hone]
    change (aclRun s₁ ps).bind _ = _
    rw [hrest]
    rfl

/-! ### A link's frames -/

/-- The pieces of one link, and what it hands on. -/
def takeAll : Reassembly → List Acl → Except Fault (Reassembly × List (ℕ × Bytes))
  | c, [] => .ok (c, [])
  | c, f :: fs => do
    let (c, o) ← takeFragment c f.pb f.data
    let (c, os) ← takeAll c fs
    .ok (c, o.toList ++ os)

theorem takeAll_cons {c₁ c₂ : Reassembly} {o : Option (ℕ × Bytes)} {os : List (ℕ × Bytes)}
    (hone : takeFragment c f.pb f.data = .ok (c₁, o)) (hrest : takeAll c₁ fs = .ok (c₂, os)) :
    takeAll c (f :: fs) = .ok (c₂, o.toList ++ os) := by
  rw [takeAll, hone]
  change (takeAll c₁ fs).bind _ = _
  rw [hrest]
  rfl

theorem takeAll_append {gs : List Acl} : ∀ {fs : List Acl} {c c₁ c₂ : Reassembly}
    {os os' : List (ℕ × Bytes)}, takeAll c fs = .ok (c₁, os) → takeAll c₁ gs = .ok (c₂, os') →
    takeAll c (fs ++ gs) = .ok (c₂, os ++ os')
  | [], c, c₁, c₂, os, os', h, h' => by
    obtain ⟨rfl, rfl⟩ := Prod.mk.inj (Except.ok.inj h)
    exact h'
  | f :: fs, c, c₁, c₂, os, os', h, h' => by
    rw [takeAll] at h
    obtain ⟨⟨b, o⟩, hone, h⟩ := Except.bind_eq_ok_iff.mp h
    obtain ⟨⟨b', os₁⟩, hrest, h⟩ := Except.bind_eq_ok_iff.mp h
    obtain ⟨rfl, rfl⟩ := Prod.mk.inj (Except.ok.inj h)
    rw [cons_append, takeAll_cons hone (takeAll_append hrest h'), append_assoc]

/-- A frame of a channel. -/
structure Pdu where
  cid : ℕ
  payload : Bytes
  cid_lt : cid < 65536
  length_lt : payload.length < 65536

/-- Its bytes. -/
def Pdu.frame (p : Pdu) : Bytes := l2capFrame p.cid p.payload

/-- It fits into the buffer. -/
def Pdu.Fits (p : Pdu) : Prop := p.frame.length ≤ rxSize

instance (p : Pdu) : Decidable p.Fits := inferInstanceAs (Decidable (_ ≤ _))

theorem Pdu.frame_spec (p : Pdu) :
    p.frame.length = 4 + p.payload.length ∧ wordOf p.frame 0 = p.payload.length ∧
    wordOf p.frame 2 = p.cid ∧ p.frame.drop 4 = p.payload := by
  have hword : ∀ v < 65536, ofLe (le 2 v) = v := by
    intro v hv
    rw [ofLe_le]
    exact Nat.mod_eq_of_lt hv
  unfold Pdu.frame l2capFrame put16
  refine ⟨?_, ?_, ?_, ?_⟩
  · rw [length_append, length_append, length_le, length_le]
  · unfold wordOf
    rw [drop_zero, append_assoc, take_left' (length_le 2 _), hword _ p.length_lt]
  · unfold wordOf
    rw [append_assoc, drop_left' (length_le 2 _), take_left' (length_le 2 _), hword _ p.cid_lt]
  · rw [drop_left']
    rw [length_append, length_le, length_le]

/-- What a link is like that has so much of a frame: it waits for the rest, or has handed it on or
dropped it. -/
def Under (b q : Bytes) (c : Reassembly) : Prop :=
  if q.length ≤ rxSize ∧ q.length < b.length then c.rx = q ∧ c.rxwant = b.length else c.rxwant = 0

/-- What putting a piece behind the others of a frame comes to. -/
theorem collected_under {p : Pdu} (hl : (c.rx ++ data) ++ l = p.frame)
    (hlen : 4 ≤ (c.rx ++ data).length) (hwant : c.rxwant = p.frame.length) :
    Under p.frame (c.rx ++ data) (collected c data).1 ∧
      (collected c data).2 = if c.rx ++ data = p.frame ∧ p.Fits then
        some (p.cid, p.payload) else none := by
  unfold collected
  dsimp only
  generalize c.rx ++ data = q at hl hlen
  have htotal := congrArg List.length hl
  rw [length_append] at htotal
  by_cases hbig : rxSize < q.length
  · rw [if_pos hbig]
    unfold Under
    rw [if_neg (by omega), if_neg]
    · exact ⟨rfl, rfl⟩
    · rintro ⟨rfl, hfits⟩
      unfold Pdu.Fits at hfits
      omega
  · rw [if_neg hbig]
    by_cases hpart : q.length < c.rxwant
    · rw [if_pos hpart]
      unfold Under
      rw [if_pos (by omega), if_neg]
      · exact ⟨⟨rfl, hwant⟩, rfl⟩
      · rintro ⟨rfl, -⟩
        omega
    · rw [if_neg hpart]
      obtain rfl : l = [] := length_eq_zero_iff.mp (by omega)
      rw [append_nil] at hl
      subst hl
      obtain ⟨hlength, hsize, hcid, hpayload⟩ := p.frame_spec
      unfold Under
      rw [if_neg (by omega), if_pos ⟨rfl, not_lt.mp hbig⟩, hcid, hsize, hpayload, take_length]
      exact ⟨rfl, rfl⟩

/-- The header of a frame says how long it is, as soon as it is there. -/
theorem want_eq {p : Pdu} {q : Bytes} (hl : q ++ l = p.frame) (hlen : 4 ≤ q.length) :
    4 + wordOf q 0 = p.frame.length := by
  obtain ⟨hlength, hsize, -, -⟩ := p.frame_spec
  rw [← wordOf_append l (by omega), hl, hsize, hlength]

/-- The pieces that go on with a frame. -/
theorem takeAll_next {p : Pdu} : ∀ {fs : List Acl} {c : Reassembly}
    {q : Bytes}, (∀ g ∈ fs, g.pb = 1) →
    q ++ (fs.map Acl.data).flatten = p.frame → 4 ≤ q.length → c.Sound → Under p.frame q c →
    ∃ c', takeAll c fs = .ok (c', if q ≠ p.frame ∧ p.Fits then [(p.cid, p.payload)]
      else []) ∧ c'.Sound
  | [], c, q, _, hq, _, hc, hunder => by
    rw [map_nil, flatten_nil, append_nil] at hq
    rw [if_neg (fun h => h.1 hq)]
    exact ⟨c, rfl, hc⟩
  | f :: fs, c, q, hpb, hq, hlen, hc, hunder => by
    rw [map_cons, flatten_cons, ← append_assoc] at hq
    have hf : f.pb = 1 := hpb f (.head _)
    have hrest : ∀ g ∈ fs, g.pb = 1 := fun g hg => hpb g (.tail _ hg)
    have htotal := congrArg List.length hq
    rw [length_append, length_append] at htotal
    have hmore : 4 ≤ (q ++ f.data).length := by
      rw [length_append]
      omega
    by_cases hpart : q.length ≤ rxSize ∧ q.length < p.frame.length
    · -- The link still waits for some of it.
      unfold Under at hunder
      rw [if_pos hpart] at hunder
      obtain ⟨rfl, hwant⟩ := hunder
      have hne : c.rx ≠ p.frame := fun h => by
        rw [h] at hpart
        omega
      have hword : c.rxwant = 4 + wordOf (c.rx ++ f.data) 0 := by rw [want_eq hq hmore, hwant]
      obtain ⟨hunder', hout⟩ := collected_under hq hmore hwant
      obtain ⟨c', hc', hsound⟩ := takeAll_next hrest hq hmore (sound_collected hmore hword) hunder'
      refine ⟨c', ?_, hsound⟩
      have hone : takeFragment c f.pb f.data =
          .ok ((collected c f.data).1, (collected c f.data).2) := by
        rw [hf, takeFragment_next hc (by rw [hwant]; omega)]
      rw [takeAll_cons hone hc', hout]
      by_cases hfits : p.Fits
      · by_cases hall : c.rx ++ f.data = p.frame
        · rw [if_pos ⟨hall, hfits⟩, if_neg (fun h => h.1 hall), if_pos ⟨hne, hfits⟩]
          rfl
        · rw [if_neg (fun h => hall h.1), if_pos ⟨hall, hfits⟩, if_pos ⟨hne, hfits⟩]
          rfl
      · rw [if_neg (fun h => hfits h.2), if_neg (fun h => hfits h.2), if_neg (fun h => hfits h.2)]
        rfl
    · -- It has been handed on, or dropped: what comes is of no interest.
      unfold Under at hunder
      rw [if_neg hpart] at hunder
      have hunder' : Under p.frame (q ++ f.data) c := by
        unfold Under
        rw [if_neg (by rw [length_append]; omega)]
        exact hunder
      obtain ⟨c', hc', hsound⟩ := takeAll_next hrest hq hmore hc hunder'
      refine ⟨c', ?_, hsound⟩
      have hone : takeFragment c f.pb f.data = .ok (c, none) := by rw [hf, takeFragment_idle hunder]
      rw [takeAll_cons hone hc']
      have hfits : p.Fits → q.length = p.frame.length := fun h => by
        unfold Pdu.Fits at h
        omega
      by_cases hnone : q ≠ p.frame ∧ p.Fits
      · refine absurd ?_ hnone.1
        have hlen := hfits hnone.2
        have hpre : q <+: p.frame := ⟨_, (append_assoc _ _ _).symm.trans hq⟩
        exact hpre.eq_of_length hlen
      · rw [if_neg hnone, if_neg]
        · rfl
        · rintro ⟨hne, hfit⟩
          have hlen := hfits hfit
          have hpre : q <+: p.frame := ⟨_, (append_assoc _ _ _).symm.trans hq⟩
          have heq := hpre.eq_of_length hlen
          have hempty : f.data = [] := length_eq_zero_iff.mp (by omega)
          rw [hempty, append_nil] at hne
          exact hne heq

/-- **The pieces of a frame give the frame**, or nothing where it is too long, whatever there was
before. -/
theorem takeAll_cut {p : Pdu} (h : Cut p.frame fs) (c : Reassembly) :
    ∃ c', takeAll c fs = .ok (c', if p.Fits then [(p.cid, p.payload)] else []) ∧ c'.Sound := by
  cases fs with
  | nil => exact h.elim
  | cons f fs =>
    obtain ⟨hpb, hlen, hrest, hframe⟩ := h
    -- What there was is forgotten.
    obtain ⟨b, hb, hrx, hwant⟩ : ∃ b : Reassembly,
        b = { c with rxwant := 4 + wordOf f.data 0, rx := [] } ∧ b.rx ++ f.data = f.data ∧
        b.rxwant = 4 + wordOf f.data 0 := ⟨_, rfl, rfl, rfl⟩
    have hone : takeFragment c f.pb f.data =
        .ok ((collected b f.data).1, (collected b f.data).2) := by
      rw [hb]
      exact takeFragment_first c hpb hlen
    obtain ⟨hunder, hout⟩ :=
      @collected_under (fs.map Acl.data).flatten f.data b p (by rw [hrx]; exact hframe)
      (by rw [hrx]; exact hlen) (by rw [hwant]; exact want_eq hframe hlen)
    rw [hrx] at hunder hout
    have hsound₁ : (collected b f.data).1.Sound :=
      sound_collected (by rw [hrx]; exact hlen) (by rw [hrx]; exact hwant)
    obtain ⟨c', hc', hsound⟩ := takeAll_next hrest hframe hlen hsound₁ hunder
    refine ⟨c', ?_, hsound⟩
    rw [takeAll_cons hone hc', hout]
    by_cases hfits : p.Fits
    · by_cases hall : f.data = p.frame
      · rw [if_pos ⟨hall, hfits⟩, if_neg (fun h => h.1 hall), if_pos hfits]
        rfl
      · rw [if_neg (fun h => hall h.1), if_pos ⟨hall, hfits⟩, if_pos hfits]
        rfl
    · rw [if_neg (fun h => hfits h.2), if_neg (fun h => hfits h.2), if_neg hfits]
      rfl

/-- The frames of a link, one after the other. -/
theorem takeAll_cuts : ∀ {pdus : List Pdu}
    {cuts : List (List Acl)}, List.Forall₂ (fun p => Cut (Pdu.frame p)) pdus cuts →
    ∀ (c : Reassembly), ∃ c', takeAll c cuts.flatten =
      .ok (c', (pdus.filter fun p => p.Fits).map fun p => (p.cid, p.payload))
  | [], [], _, c => ⟨c, rfl⟩
  | p :: pdus, fs :: cuts, .cons hcut hcuts, c => by
    obtain ⟨c₁, hone, -⟩ := takeAll_cut hcut c
    obtain ⟨c₂, hrest⟩ := takeAll_cuts hcuts c₁
    refine ⟨c₂, ?_⟩
    rw [flatten_cons, takeAll_append hone hrest]
    by_cases hfits : p.Fits
    · rw [if_pos hfits, filter_cons_of_pos (by exact decide_eq_true hfits)]
      rfl
    · rw [if_neg hfits, filter_cons_of_neg (by exact fun h => hfits (of_decide_eq_true h))]
      rfl

/-! ### The frames of each link among others -/

/-- What was handed on for a link. -/
def Out.isFor (i : Slot) : Out → Bool
  | .pdu j _ _ _ => j = i
  | .nothing => false
  | .a2dp => false

theorem Acl.bytes_spec (hf : f.Ok) :
    f.bytes.length = 4 + f.data.length ∧ wordOf f.bytes 0 % 4096 = f.handle ∧
    (f.bytes.getD 1 0).toNat / 16 % 4 = f.pb ∧ wordOf f.bytes 2 = f.data.length ∧
    (f.bytes.drop 4).take (wordOf f.bytes 2) = f.data := by
  have hhandle := hf.handle_lt
  have hflags := hf.flags_lt
  have hlength := hf.length_lt
  have hlen : (le 2 (f.handle + 4096 * f.flags) ++ le 2 f.data.length).length = 4 := by
    rw [length_append, length_le, length_le]
  have hsize : wordOf f.bytes 2 = f.data.length := by
    unfold Acl.bytes wordOf
    rw [append_assoc, drop_left' (length_le 2 _), take_left' (length_le 2 _), ofLe_le]
    exact Nat.mod_eq_of_lt hlength
  refine ⟨?_, ?_, ?_, hsize, ?_⟩
  · unfold Acl.bytes
    rw [length_append, hlen]
  · unfold Acl.bytes wordOf
    rw [drop_zero, append_assoc, take_left' (length_le 2 _), ofLe_le]
    omega
  · change ((f.handle + 4096 * f.flags) / 256 % 256).toUInt8.toNat / 16 % 4 = f.flags % 4
    have hbyte : ((f.handle + 4096 * f.flags) / 256 % 256).toUInt8.toNat =
        (f.handle + 4096 * f.flags) / 256 % 256 := by
      rw [Nat.toUInt8, UInt8.toNat_ofNat', Nat.mod_mod_of_dvd _ (by decide)]
    rw [hbyte]
    omega
  · rw [hsize]
    unfold Acl.bytes
    rw [drop_left' hlen, take_length]

theorem byHandle_handle {h : ℕ} (hi : byHandle s h = some i) : (s i).handle = h := by
  have hfound := find?_some hi
  rw [Bool.and_eq_true, decide_eq_true_eq] at hfound
  exact hfound.2

/-- A data packet of a link that there is goes to it. -/
theorem aclRx_link (hs : AllSound s) (hf : f.Ok) (hi : byHandle s f.handle = some i)
    {r : Reassembly × Option (ℕ × Bytes)} (hr : takeFragment (s i) f.pb f.data = .ok r) :
    aclRx s f.bytes = .ok (update s i r.1, outOf i r.1 r.2) := by
  obtain ⟨hlen, hhandle, hpb, hsize, hdata⟩ := Acl.bytes_spec hf
  rw [aclRx_eq hs (by omega), hhandle, hi]
  dsimp only
  rw [if_neg (by omega), hpb, hdata, hr]
  rfl

/-- One that is of no link here changes nothing. -/
theorem aclRx_none (hs : AllSound s) (hf : f.Ok) (hi : byHandle s f.handle = none) :
    aclRx s f.bytes = .ok (s, .a2dp) := by
  obtain ⟨hlen, hhandle, -⟩ := Acl.bytes_spec hf
  rw [aclRx_eq hs (by omega), hhandle, hi]

theorem isFor_outOf (i j : Slot) (c : Reassembly) (o : Option (ℕ × Bytes)) :
    (outOf j c o).isFor i = (o.isSome && decide (j = i)) := by
  cases o with
  | none => rfl
  | some x => rfl

/-- **Each link's packets among others** come to what they would come to alone. -/
theorem aclRun_link {h : ℕ} : ∀ {fs : List Acl} {s : Slot → Reassembly}, AllSound s →
    (∀ f ∈ fs, f.Ok) →
    byHandle s h = some i → ∃ s' os us, aclRun s (fs.map Acl.bytes) = .ok (s', os) ∧
      takeAll (s i) (fs.filter fun f => f.handle = h) = .ok (s' i, us) ∧
      os.filter (Out.isFor i) = us.map fun x => .pdu i x.1 x.2 (handlerOf (s i).srv x.1 x.2)
  | [], s, _, _, _ => ⟨s, [], [], rfl, rfl, rfl⟩
  | f :: fs, s, hs, hok, hi => by
    have hf : f.Ok := hok f (.head _)
    have hrest : ∀ g ∈ fs, g.Ok := fun g hg => hok g (.tail _ hg)
    obtain ⟨⟨s₁, o⟩, hone, hs₁, hsame⟩ := aclRx_ok hs f.bytes
    have hi₁ : byHandle s₁ h = some i := (SameLinks.byHandle hsame h).trans hi
    obtain ⟨s₂, os, us, hrun, htake, hfor⟩ := aclRun_link hs₁ hrest hi₁
    have hall : aclRun s ((f :: fs).map Acl.bytes) = .ok (s₂, o :: os) := by
      rw [map_cons, aclRun, hone]
      change (aclRun s₁ (fs.map Acl.bytes)).bind _ = _
      rw [hrun]
      rfl
    rw [(hsame i).srv] at hfor
    cases hj : byHandle s f.handle with
    | none =>
      have hne : ¬ f.handle = h := by
        rintro rfl
        exact nomatch hj.symm.trans hi
      obtain ⟨rfl, rfl⟩ := Prod.mk.inj (Except.ok.inj (hone.symm.trans (aclRx_none hs hf hj)))
      refine ⟨s₂, _, us, hall, ?_, ?_⟩
      · rw [filter_cons_of_neg (by exact fun h => hne (of_decide_eq_true h))]
        exact htake
      · rw [filter_cons_of_neg (by exact Bool.false_ne_true)]
        exact hfor
    | some j =>
      obtain ⟨r, hr, -, hsamer⟩ := takeFragment_ok (hs j) f.pb f.data
      obtain ⟨rfl, rfl⟩ := Prod.mk.inj (Except.ok.inj (hone.symm.trans (aclRx_link hs hf hj hr)))
      dsimp only at htake
      -- a packet of another link leaves this one's buffer alone
      by_cases hh : f.handle = h
      · obtain rfl : j = i := Option.some.inj (hj.symm.trans (hh ▸ hi))
        rw [update_self] at htake
        refine ⟨s₂, _, r.2.toList ++ us, hall, ?_, ?_⟩
        · rw [filter_cons_of_pos (by exact decide_eq_true hh)]
          exact takeAll_cons hr htake
        · rw [map_append, ← hfor]
          have hsrv := hsamer.srv
          rcases r with ⟨c, _ | ⟨cid, payload⟩⟩
          · exact filter_cons_of_neg (by exact Bool.false_ne_true)
          · dsimp only at hsrv
            rw [filter_cons_of_pos (by exact decide_eq_true rfl)]
            change _ = [Out.pdu j cid payload (handlerOf (s j).srv cid payload)] ++ _
            rw [← hsrv]
            rfl
      · have hne : j ≠ i := by
          rintro rfl
          exact hh ((byHandle_handle hj).symm.trans (byHandle_handle hi))
        rw [update_of_ne hne.symm] at htake
        refine ⟨s₂, _, us, hall, ?_, ?_⟩
        · rw [filter_cons_of_neg (by exact fun h => hh (of_decide_eq_true h))]
          exact htake
        · rw [filter_cons_of_neg]
          · exact hfor
          · rw [isFor_outOf, decide_eq_false hne, Bool.and_false]
            exact Bool.false_ne_true

/-! ### What is sent -/

theorem flush_sent : ∀ (q : List Frag) (ok : List Bool)
    (w : Links), (Links.flush q ok w).sent = w.sent
  | [], _, _ => rfl
  | f :: q, ok, w => by
    rw [Links.flush]
    split
    case isTrue =>
      split
      case h_1 => exact flush_sent q ok w
      case h_2 i _ =>
        split
        case isTrue => exact flush_sent q ok.tail (w.wrote i f)
        case isFalse => exact flush_sent q ok.tail w
    case isFalse => rfl

theorem length_chunks_le : ∀ {k : ℕ} {l p : Bytes}, p ∈ chunks n k l → p.length ≤ l.length
  | 0, _, _, h => nomatch h
  | _ + 1, [], _, h => nomatch h
  | k + 1, b :: l, p, h => by
    rw [chunks] at h
    cases h with
    | head =>
      rw [length_take]
      exact Nat.min_le_right _ _
    | tail _ h =>
      refine (length_chunks_le h).trans ?_
      rw [length_drop]
      exact Nat.sub_le _ _

theorem length_chunks_le_len : ∀ {k : ℕ} {l p : Bytes}, p ∈ chunks n k l → p.length ≤ n
  | 0, _, _, h => nomatch h
  | _ + 1, [], _, h => nomatch h
  | k + 1, b :: l, p, h => by
    rw [chunks] at h
    cases h with
    | head =>
      rw [length_take]
      exact Nat.min_le_left _ _
    | tail _ h => exact length_chunks_le_len h

/-- A packet of `l2cap_send` is a data packet: one that begins a frame, or goes on with one. -/
theorem packet_eq {handle : ℕ} (hh : handle < 4096) (first : Bool) (piece : Bytes) :
    packet handle first piece = h4Acl :: (⟨handle, if first then 0 else 1, piece⟩ : Acl).bytes := by
  have hlow : UInt8.ofNat handle =
      (((handle + 4096 * if first then 0 else 1) % 256).toUInt8 : UInt8) := by
    refine UInt8.toNat_inj.mp ?_
    rw [UInt8.toNat_ofNat', Nat.toUInt8, UInt8.toNat_ofNat']
    cases first with
    | false =>
      simp
      omega
    | true => simp
  have hhigh : UInt8.ofNat (handle / 256 % 16 + if first then 0 else 16) =
      (((handle + 4096 * if first then 0 else 1) / 256 % 256).toUInt8 : UInt8) := by
    refine UInt8.toNat_inj.mp ?_
    rw [UInt8.toNat_ofNat', Nat.toUInt8, UInt8.toNat_ofNat']
    cases first with
    | false =>
      simp
      omega
    | true =>
      simp
      omega
  unfold packet Acl.bytes put16
  rw [hlow, hhigh]
  rfl

/-- **What is sent is a frame cut into data packets**, each of them one the controller takes. -/
theorem fragments_cut {handle : ℕ} (hh : handle < 4096) {len : ℕ} (hlen : 27 ≤ len)
    (i : Slot) (p : Pdu) (hmax : p.payload.length ≤ frameMax) :
    ∃ as : List Acl, (fragments handle len i p.frame).map Frag.bytes =
      as.map (fun a => h4Acl :: a.bytes) ∧
      (∀ a ∈ as, a.Ok ∧ a.handle = handle ∧ a.data.length ≤ len) ∧ Cut p.frame as := by
  have hframe := p.frame_spec.1
  have hshort : p.payload.length ≤ 533 := hmax
  have hflat := chunks_flatten (by omega : 0 < len) (le_refl p.frame.length)
  have hle : ∀ q ∈ chunks len p.frame.length p.frame, q.length ≤ p.frame.length :=
    fun q hq => length_chunks_le hq
  have hlen' : ∀ q ∈ chunks len p.frame.length p.frame, q.length ≤ len :=
    fun q hq => length_chunks_le_len hq
  unfold fragments
  obtain ⟨b, l, hbl⟩ : ∃ b l, p.frame = b :: l := exists_cons_of_length_pos (by omega)
  have hfirst : chunks len p.frame.length p.frame =
      p.frame.take len :: chunks len l.length (p.frame.drop len) := by
    rw [hbl]
    rfl
  rw [hfirst] at hflat hle hlen' ⊢
  refine ⟨⟨handle, 0, p.frame.take len⟩ :: (chunks len l.length (p.frame.drop len)).map fun q =>
    ⟨handle, 1, q⟩, ?_, ?_, ?_⟩
  · rw [map_cons, map_cons, map_map, map_map]
    refine congrArg₂ List.cons (packet_eq hh true _) (map_congr_left fun q _ => ?_)
    exact packet_eq hh false q
  · intro a ha
    cases ha with
    | head =>
      exact ⟨⟨hh, Nat.zero_lt_succ 15, (hle _ (.head _)).trans_lt (by omega)⟩, rfl,
        hlen' _ (.head _)⟩
    | tail _ ha =>
      obtain ⟨q, hq, rfl⟩ := mem_map.mp ha
      exact ⟨⟨hh, Nat.succ_lt_succ (Nat.zero_lt_succ 14), (hle q (.tail _ hq)).trans_lt (by omega)⟩,
        rfl, hlen' q (.tail _ hq)⟩
  · refine ⟨Nat.zero_ne_one, ?_, ?_, ?_⟩
    · rw [length_take]
      omega
    · intro g hg
      obtain ⟨q, -, rfl⟩ := mem_map.mp hg
      rfl
    · rw [map_map]
      change p.frame.take len ++ ((chunks len l.length (p.frame.drop len)).map id).flatten = _
      rw [map_id]
      exact hflat

/-! ### Framing -/

/-- What a link hands on of a frame. -/
def Pdu.out (c : Reassembly) (i : Slot) (p : Pdu) : Out :=
  .pdu i p.cid p.payload (handlerOf c.srv p.cid p.payload)

/-- The frames of a link, cut and among the packets of others. -/
theorem aclRun_cuts (hs : AllSound s) {h : ℕ} (hi : byHandle s h = some i)
    (hok : ∀ f ∈ fs, f.Ok) {pdus : List Pdu} {cuts : List (List Acl)}
    (hcuts : List.Forall₂ (fun p => Cut (Pdu.frame p)) pdus cuts)
    (hfs : (fs.filter fun f => f.handle = h) = cuts.flatten) :
    ∃ s' os, aclRun s (fs.map Acl.bytes) = .ok (s', os) ∧
      os.filter (Out.isFor i) = (pdus.filter fun p => p.Fits).map (Pdu.out (s i) i) := by
  obtain ⟨s', os, us, hrun, htake, hfor⟩ := aclRun_link hs hok hi
  obtain ⟨c, hc⟩ := takeAll_cuts hcuts (s i)
  rw [hfs, hc] at htake
  obtain ⟨-, rfl⟩ := Prod.mk.inj (Except.ok.inj htake)
  refine ⟨s', os, hrun, hfor.trans ?_⟩
  rw [map_map]
  rfl

/-- **Framing loses and invents nothing.**  However the packets of a stream are cut into reads, and
however handlers call `pump` again, they are handled once each in order, and a call fails only where
its read gives nothing.  No data packet makes `acl_rx` read outside of what was received, and for
each link, among the packets of others, it hands on each frame that fits its buffer once, the header
being in the frame's first piece, and drops the others.  What `l2cap_send` queues for a PDU it takes
is put together to that PDU. -/
theorem framing :
    (∀ (D : Type) (handle : Bytes → D → D) (d : D) (ps : List Bytes),
      (∀ p ∈ ps, IsPacket p ∧ p.length ≤ inSize) →
      ∀ cs : Calls, ∃ rest,
        Sent ps handle d (cs.run next inSize handle ⟨ps.flatten, [], [], d⟩) rest ∧
        Settled rest (cs.run next inSize handle ⟨ps.flatten, [], [], d⟩).buf ∧
        ((cs.run next inSize handle ⟨ps.flatten, [], [], d⟩).wire = [] →
          (cs.run next inSize handle ⟨ps.flatten, [], [], d⟩).log = ps) ∧
        ∀ c : Call,
        (c.run next inSize handle (cs.run next inSize handle ⟨ps.flatten, [], [], d⟩)).2 = false →
          c.Dry (cs.run next inSize handle ⟨ps.flatten, [], [], d⟩)) ∧
    (∀ s, AllSound s → ∀ ps, ∃ r, aclRun s ps = .ok r ∧ AllSound r.1) ∧
    (∀ s, AllSound s → ∀ h i, byHandle s h = some i →
      ∀ fs : List Acl, (∀ f ∈ fs, f.Ok) →
      ∀ pdus cuts, List.Forall₂ (fun p => Cut (Pdu.frame p)) pdus cuts →
      (fs.filter fun f => f.handle = h) = cuts.flatten →
      ∃ s' os, aclRun s (fs.map Acl.bytes) = .ok (s', os) ∧
        os.filter (Out.isFor i) = (pdus.filter fun p => p.Fits).map (Pdu.out (s i) i)) ∧
    ∀ (w : Links) (i : Slot) (p : Pdu) (ok : List Bool), (w.conns i).handle < 4096 → 27 ≤ w.aclLen →
      p.payload.length ≤ frameMax → ∃ (fs : List Frag) (as : List Acl),
        (w.l2capSend i p.cid p.payload ok).sent i = w.sent i ++ fs ∧
        fs.map Frag.bytes = as.map (fun a => h4Acl :: a.bytes) ∧
        (∀ a ∈ as, a.Ok ∧ a.handle = (w.conns i).handle ∧ a.data.length ≤ w.aclLen) ∧
        ∀ s, AllSound s → ∀ j, byHandle s (w.conns i).handle = some j → ∃ s' os,
          aclRun s (as.map Acl.bytes) = .ok (s', os) ∧
          os.filter (Out.isFor j) = [p.out (s j) j] := by
  refine ⟨fun D handle d ps hps cs => ?_, fun s hs ps =>
    aclRun_ok hs ps, fun s hs h i hi fs hok pdus cuts hcuts hfs =>
      ?_, fun w i p ok hh hlen hmax => ?_⟩
  -- the packets of the wire
  · have hframes : ∀ p ∈ ps, Frames next inSize p :=
      fun p hp => frames_next (hps p hp).1 (hps p hp).2
    have hstart : Sent ps handle d ⟨ps.flatten, [], [], d⟩ ps := ⟨rfl, rfl, rfl⟩
    obtain ⟨rest, hsent, hsettled⟩ :=
      Calls.settled hframes next_nil (Nat.zero_lt_succ 2047) cs hstart (.inl rfl)
    have hroom := hsettled.length_lt hframes (Nat.zero_lt_succ 2047) hsent
    refine ⟨rest, hsent, hsettled,
      fun hwire => (hsettled.all hframes hsent hwire).1, fun c hc => ?_⟩
    rcases Call.run_spec hframes next_nil (Nat.zero_lt_succ 2047)
      c hsent hroom with hthrough | ⟨-, hdry⟩
    · exact absurd (hthrough.ok.symm.trans hc) (by decide)
    · exact hdry
  · exact aclRun_cuts hs hi hok hcuts hfs
  -- the fragments we send are a cut of the frame
  · obtain ⟨as, hbytes, has, hcut⟩ := fragments_cut hh hlen i p hmax
    refine ⟨_, as, ?_, hbytes, has, fun s hs j hj => ?_⟩
    · unfold Links.l2capSend
      rw [if_neg (not_lt.mpr hmax), Links.aclFlush, flush_sent]
      exact update_self _ _ _
    · have hfilter : (as.filter fun a => a.handle = (w.conns i).handle) = [as].flatten := by
        rw [flatten_cons, flatten_nil, append_nil]
        exact filter_eq_self.mpr fun a ha => decide_eq_true (has a ha).2.1
      have hfits : p.Fits := by
        have hframe := p.frame_spec.1
        have hshort : p.payload.length ≤ 533 := hmax
        unfold Pdu.Fits
        change _ ≤ 585
        omega
      obtain ⟨s', os, hrun, hfor⟩ :=
        aclRun_cuts hs hj (fun a ha => (has a ha).1) (.cons hcut .nil) hfilter
      refine ⟨s', os, hrun, hfor.trans ?_⟩
      rw [filter_cons_of_pos (by exact decide_eq_true hfits)]
      rfl

/-- One link, which has received nothing. -/
def oneLink (i : Slot) : Reassembly := ⟨i = 0, 5, false, [], 0, false⟩

theorem oneLink_sound : AllSound oneLink := fun _ h => absurd rfl h

/-- A packet for it. -/
def greeting : Pdu := ⟨4, [1, 2, 3], by decide, by decide⟩

/-- Its two pieces. -/
def greetingPieces (n : ℕ) : List Acl :=
  [⟨5, 2, greeting.frame.take n⟩, ⟨5, 1, greeting.frame.drop n⟩]

theorem framing_two :
    ((∃ rest, ((Calls.next (.call (some 2) .quiet) (.next (.call (some 9) .quiet) .done)).run next
      inSize (fun _ n => n + 1)
        (⟨[[4, 1, 1, 7], [2, 5, 0, 0, 0]].flatten, [], [], 0⟩ : Port ℕ)).log ++ rest =
        [[4, 1, 1, 7], [2, 5, 0, 0, 0]])) ∧
    ∃ s' os, aclRun oneLink ((greetingPieces 5).map Acl.bytes) = .ok (s', os) ∧
      os.filter (Out.isFor 0) = [greeting.out (oneLink 0) 0] := by
  obtain ⟨hpump, -, hlinks, -⟩ := framing
  constructor
  · obtain ⟨rest, hsent, -⟩ := hpump ℕ (fun _ n => n + 1) 0 [[4, 1, 1, 7], [2, 5, 0, 0, 0]]
      (by unfold IsPacket; decide)
      (.next (.call (some 2) .quiet) (.next (.call (some 9) .quiet) .done))
    exact ⟨rest, hsent.log⟩
  · refine hlinks oneLink oneLink_sound 5 0 (by decide) (greetingPieces 5) ?_ [greeting]
      [greetingPieces 5] (.cons ?_ .nil) rfl
    · intro f hf
      rcases mem_cons.mp hf with rfl | hf
      · exact ⟨by decide, by decide, by decide⟩
      · rw [mem_singleton.mp hf]
        exact ⟨by decide, by decide, by decide⟩
    · exact ⟨by decide, by decide, by decide, by decide⟩

/-- A frame whose header does not fit its first piece is lost, and so is a PDU longer than
`l2cap_send` takes. -/
theorem framing_lost :
    (∃ r, aclRun oneLink ((greetingPieces 3).map Acl.bytes) = .ok r ∧
      r.2.filter (Out.isFor 0) = [] ∧ greeting.Fits) ∧
    ((Links.setup 27 1).l2capSend 0 4 (List.replicate 534 0) []).sent 0 =
      (Links.setup 27 1).sent 0 := by
  refine ⟨⟨_, rfl, by decide, by decide⟩, ?_⟩
  unfold Links.l2capSend
  rw [if_pos (by rw [length_replicate]; decide)]

end Hassmic.Ble
