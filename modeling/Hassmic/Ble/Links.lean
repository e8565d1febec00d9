import Hassmic.Lib.Runs
import Hassmic.Lib.Wire
import Hassmic.Lib.Slots

/-!
# Bluetooth links

The controller thread keeps a table of connections: three places for devices and one for a phone.
L2CAP frames are cut into packets the controller takes; packets of all links wait in one queue,
by HCI handle, until the controller has room.  What it has room for is counted in `credits`, and
what it was given on a link and has not reported complete in `unacked`.

One thread does all of this, so each request, each event and each timeout is a step.  The
controller itself is outside: what it holds is counted beside the model, and `Honest` says what is
taken for granted of it.

## Main definitions

* `Conn`, `Frag`, `Links` — a connection, a packet that waits, and all of them.
* `aclFlush`, `l2capSend`, `freeConn` — writing, sending, and the end of a connection.
* `Ev`, `Links.step` — what happens.
* `Honest` — what the controller does not do.
* `Tidy` — links have handles of their own, and every packet that waits is of a link.

## Main results

* `payload_fragments` — the packets of a frame make up the frame.
* `tidy_step` — each step keeps the table tidy.
-/

namespace Hassmic.Ble

open Wire List Function

abbrev bleMaxConn : ℕ := 3

/-- A place in the table; the last one is the phone's. -/
abbrev Slot := Fin (bleMaxConn + 1)

scoped instance (priority := 2000) neZero_slot : NeZero (bleMaxConn + 1) := ⟨by decide⟩

/-- `SRV`. -/
abbrev srv : Slot := Fin.last bleMaxConn

inductive CState
  | free
  | wait
  | connecting
  | mtu
  | up
  | closing
  deriving DecidableEq

/-- `state >= C_MTU`: there is a link. -/
def CState.linked : CState → Bool
  | .mtu | .up | .closing => true
  | .free | .wait | .connecting => false

/-- A connection, as far as links go; a free place is all zero. -/
structure Conn where
  state : CState := .free
  handle : ℕ := 0
  addr : ℕ := 0
  /-- Asked to go away while it came up, or timed out. -/
  cancel : Bool := false
  closeNow : Bool := false
  unacked : ℤ := 0

/-- A packet in the queue, with the place it is of. -/
structure Frag where
  handle : ℕ
  bytes : Bytes
  slot : Slot
  deriving DecidableEq

/-- The table, the queue and the credits.  What comes last is not in the code: what was queued and
written for the link of a place, and what the controller has. -/
structure Links where
  conns : Slot → Conn
  queue : List Frag
  credits : ℤ
  aclLen : ℕ
  aclNum : ℕ
  /-- The L2CAP frames of a link, and their packets. -/
  frames : Slot → List Bytes
  sent : Slot → List Frag
  written : Slot → List Frag
  /-- The links the controller has, and the packets it was given on each and has not reported. -/
  links : List ℕ
  held : ℕ → ℕ

namespace Links

variable (w : Links)

/-! ### The table -/

/-- `by_addr`. -/
def byAddr (a : ℕ) : Option Slot :=
  (List.finRange (bleMaxConn + 1)).find? fun i =>
    i ≠ srv && (w.conns i).state ≠ .free && (w.conns i).addr = a

/-- `by_handle`. -/
def byHandle (h : ℕ) : Option Slot :=
  (List.finRange (bleMaxConn + 1)).find? fun i =>
    (w.conns i).state.linked && (w.conns i).handle = h

/-- `in_state`. -/
def inState (s : CState) : Option Slot :=
  (List.finRange (bleMaxConn + 1)).find? fun i => i ≠ srv && (w.conns i).state = s

/-- A connection changes. -/
def set (i : Slot) (c : Conn) : Links := { w with conns := update w.conns i c }

/-! ### Packets -/

/-- A packet is written. -/
def wrote (i : Slot) (f : Frag) : Links :=
  { w.set i { w.conns i with unacked := (w.conns i).unacked + 1 } with
    credits := w.credits - 1
    written := update w.written i (w.written i ++ [f])
    held := update w.held f.handle (w.held f.handle + 1) }

/-- `acl_flush` over the queue: what is of no link is dropped, and so is what cannot be written.
`ok`: which writes go well. -/
def flush : List Frag → List Bool → Links → Links
  | [], _, w => { w with queue := [] }
  | f :: q, ok, w =>
      if 0 < w.credits then
        match w.byHandle f.handle with
        | none => flush q ok w
        | some i =>
            if ok.headD true then flush q ok.tail (w.wrote i f) else flush q ok.tail w
      else { w with queue := f :: q }

/-- `acl_flush`. -/
def aclFlush (ok : List Bool) : Links := flush w.queue ok w

end Links

/-- A list cut into pieces of a length. -/
def chunks (n : ℕ) : ℕ → Bytes → List Bytes
  | 0, _ => []
  | _ + 1, [] => []
  | k + 1, b :: l => (b :: l).take n :: chunks n k ((b :: l).drop n)

theorem chunks_flatten {n : ℕ} (hn : 0 < n) {k : ℕ} {l : Bytes} (hk : l.length ≤ k) :
    (chunks n k l).flatten = l := by
  induction k generalizing l with
  | zero =>
    obtain rfl := length_eq_zero_iff.mp (Nat.le_zero.mp hk)
    rfl
  | succ k ih =>
    cases l with
    | nil => rfl
    | cons b l =>
      have hdrop : ((b :: l).drop n).length ≤ k := by
        rw [length_drop]
        omega
      rw [chunks, flatten_cons, ih hdrop]
      exact take_append_drop n (b :: l)

/-- `put16`. -/
def put16 (v : ℕ) : Bytes := le 2 v

/-- The H4 packet of a piece of a frame. -/
def packet (handle : ℕ) (first : Bool) (piece : Bytes) : Bytes :=
  [2, UInt8.ofNat handle, UInt8.ofNat (handle / 256 % 16 + if first then 0 else 16)] ++
    put16 piece.length ++ piece

/-- The packets of a frame. -/
def fragments (handle len : ℕ) (i : Slot) (frame : Bytes) : List Frag :=
  match chunks len frame.length frame with
  | [] => []
  | piece :: pieces =>
      ⟨handle, packet handle true piece, i⟩ ::
        pieces.map fun piece => ⟨handle, packet handle false piece, i⟩

/-- The L2CAP frame of a PDU. -/
def l2capFrame (cid : ℕ) (pdu : Bytes) : Bytes := put16 pdu.length ++ put16 cid ++ pdu

/-- The piece of a frame in a packet. -/
def Frag.payload (f : Frag) : Bytes := f.bytes.drop 5

theorem packet_drop (handle : ℕ) (first : Bool) (piece : Bytes) :
    (packet handle first piece).drop 5 = piece := by
  unfold packet
  rw [append_assoc, drop_append, drop_append]
  have hlen : (put16 piece.length).length = 2 := length_le ..
  simp [hlen]

/-- **The packets of a frame make up the frame**, in their order. -/
theorem payload_fragments (handle : ℕ) {len : ℕ} (hlen : 0 < len) (i : Slot) (frame : Bytes) :
    ((fragments handle len i frame).map Frag.payload).flatten = frame := by
  have hpieces := chunks_flatten hlen (le_refl frame.length)
  unfold fragments
  cases hc : chunks len frame.length frame with
  | nil =>
    rw [hc] at hpieces
    exact hpieces
  | cons piece pieces =>
    rw [hc] at hpieces
    simp only [map_cons, map_map, flatten_cons, Frag.payload, packet_drop]
    rw [show (Frag.payload ∘ fun piece => (⟨handle, packet handle false piece, i⟩ : Frag)) = id from
      funext fun piece => packet_drop handle false piece, map_id]
    exact hpieces

theorem mem_fragments {handle len : ℕ} {i : Slot} {frame : Bytes} {f : Frag}
    (hf : f ∈ fragments handle len i frame) : f.slot = i ∧ f.handle = handle := by
  unfold fragments at hf
  split at hf
  · exact absurd hf (by simp)
  · rcases mem_cons.mp hf with rfl | hf
    · exact ⟨rfl, rfl⟩
    · obtain ⟨piece, -, rfl⟩ := mem_map.mp hf
      exact ⟨rfl, rfl⟩

/-- The longest PDU that `l2cap_send` takes. -/
abbrev frameMax : ℕ := 533

namespace Links

variable (w : Links)

/-- What a frame adds to the queue. -/
def queueFrame (i : Slot) (frame : Bytes) : Links :=
  let fs := fragments (w.conns i).handle w.aclLen i frame
  { w with
    queue := w.queue ++ fs
    frames := update w.frames i (w.frames i ++ [frame])
    sent := update w.sent i (w.sent i ++ fs) }

/-- `l2cap_send`. -/
def l2capSend (i : Slot) (cid : ℕ) (pdu : Bytes) (ok : List Bool) : Links :=
  if frameMax < pdu.length then w else (w.queueFrame i (l2capFrame cid pdu)).aclFlush ok

/-- `free_conn`: the packets that wait for its handle go, and its credits come back. -/
def freeConn (i : Slot) : Links :=
  { w.set i {} with
    queue := w.queue.filter fun f => f.handle ≠ (w.conns i).handle
    credits := w.credits + (w.conns i).unacked
    frames := update w.frames i []
    sent := update w.sent i []
    written := update w.written i [] }

/-- A link comes up for a place. -/
def linkUp (i : Slot) (c : Conn) (h : ℕ) : Links :=
  { w.set i { c with handle := h } with links := h :: w.links }

/-- A report of packets that are complete, one link after the other. -/
def complete (h k : ℕ) : Links :=
  let w := { w with
    credits := min (w.credits + k) w.aclNum
    held := update w.held h (w.held h - k) }
  match w.byHandle h with
  | none => w
  | some i => w.set i { w.conns i with unacked := max 0 ((w.conns i).unacked - k) }

/-- The controller as it is after `setup`. -/
def setup (len num : ℕ) : Links where
  conns _ := {}
  queue := []
  credits := if num = 0 then 1 else num
  aclLen := max len 27
  aclNum := if num = 0 then 1 else num
  frames _ := []
  sent _ := []
  written _ := []
  links := []
  held _ := 0

end Links

/-- What happens. -/
inductive Ev
  /-- `R_CONNECT`, `R_DISCONNECT`. -/
  | connect (addr : ℕ)
  | disconnect (addr : ℕ)
  /-- A connection is to be closed: its bond is removed, a request timed out, or the phone's link
  is dropped. -/
  | close (i : Slot)
  /-- `connect_next`, and the controller refuses. -/
  | connectNext
  | refused (i : Slot)
  /-- The attempt took too long. -/
  | giveUp (i : Slot)
  /-- LE Connection Complete: with a handle, or failed; or a phone has connected. -/
  | connected (h : ℕ)
  | failed
  | phone (h : ℕ)
  /-- The MTU is agreed on. -/
  | ready (i : Slot)
  /-- A frame is sent on a link. -/
  | send (i : Slot) (cid : ℕ) (pdu : Bytes) (ok : List Bool)
  /-- Number Of Completed Packets. -/
  | completed (reports : List (ℕ × ℕ)) (ok : List Bool)
  /-- Disconnection Complete. -/
  | disconnected (h : ℕ)
  /-- `upkeep`: a connection is closed, and one that was never confirmed is forgotten. -/
  | closing (i : Slot)
  | forget (i : Slot)
  /-- The controller is lost and opened again, with the buffers it has then. -/
  | lost (len num : ℕ)

/-- One step. -/
def Links.step (w : Links) : Ev → Links
  | .connect addr =>
      match w.byAddr addr, w.inState .free with
      | none, some i => w.set i { state := .wait, addr := addr }
      | _, _ => w
  | .disconnect addr =>
      match w.byAddr addr with
      | none => w
      | some i =>
          match (w.conns i).state with
          | .wait => w.freeConn i
          | .connecting => w.set i { w.conns i with cancel := true }
          | .mtu | .up => w.set i { w.conns i with closeNow := true }
          | .free | .closing => w
  | .close i =>
      if (w.conns i).state.linked then w.set i { w.conns i with closeNow := true } else w
  | .connectNext =>
      match w.inState .wait, w.inState .connecting with
      | some i, none => w.set i { w.conns i with state := .connecting }
      | _, _ => w
  | .refused i => if (w.conns i).state = .connecting then w.freeConn i else w
  | .giveUp i =>
      if (w.conns i).state = .connecting then w.set i { w.conns i with cancel := true } else w
  | .connected h =>
      match w.inState .connecting with
      | none => { w with links := h :: w.links }
      | some i => w.linkUp i
          { w.conns i with state := .mtu, closeNow := (w.conns i).closeNow || (w.conns i).cancel } h
  | .failed =>
      match w.inState .connecting with
      | none => w
      | some i => w.freeConn i
  | .phone h =>
      if (w.conns srv).state = .free then w.linkUp srv { state := .up } h
      else { w with links := h :: w.links }
  | .ready i =>
      if (w.conns i).state = .mtu then w.set i { w.conns i with state := .up } else w
  | .send i cid pdu ok => if (w.conns i).state.linked then w.l2capSend i cid pdu ok else w
  | .completed reports ok => (reports.foldl (fun w r => w.complete r.1 r.2) w).aclFlush ok
  | .disconnected h =>
      let v := { w with links := w.links.erase h, held := update w.held h 0 }
      match w.byHandle h with
      | none => v
      | some i => v.freeConn i
  | .closing i =>
      if (w.conns i).closeNow && (w.conns i).state.linked && (w.conns i).state ≠ .closing then
        w.set i { w.conns i with closeNow := false, state := .closing }
      else w
  | .forget i => if (w.conns i).state = .closing then w.freeConn i else w
  | .lost len num => .setup len num

/-- What the controller does not do: it hands out no handle of a link there is, and reports a packet
only of a link there is and once. -/
def Honest (w : Links) : Ev → Prop
  | .connected h | .phone h => h ∉ w.links ∧ h ≤ 0x0eff
  | .completed reports _ => Runs.Each (fun w r => Links.complete w r.1 r.2)
      (fun w r => r.1 ∈ w.links ∧ r.2 ≤ w.held r.1) w reports
  | .disconnected h => h ∈ w.links
  | _ => True

/-! ### A tidy table -/

/-- A place has a link. -/
def Links.linked (w : Links) (i : Slot) : Prop := (w.conns i).state.linked = true

instance (w : Links) (i : Slot) : Decidable (w.linked i) :=
  inferInstanceAs (Decidable ((w.conns i).state.linked = true))

/-- Links have handles of their own, which the controller knows; where there is no link, there is
neither a handle nor a packet. -/
structure Tidy (w : Links) : Prop where
  apart : ∀ {i j}, w.linked i → w.linked j → (w.conns i).handle = (w.conns j).handle → i = j
  known : ∀ {i}, w.linked i → (w.conns i).handle ∈ w.links
  blank : ∀ {i}, ¬ w.linked i → (w.conns i).handle = 0 ∧ (w.conns i).unacked = 0
  none : ∀ {i}, ¬ w.linked i → w.frames i = [] ∧ w.sent i = [] ∧ w.written i = []
  packets : ∀ f ∈ w.queue, w.linked f.slot ∧ f.handle = (w.conns f.slot).handle
  len : 0 < w.aclLen

variable {w : Links} {i : Slot}

theorem linked_of_byHandle {h : ℕ} (hi : w.byHandle h = some i) :
    w.linked i ∧ (w.conns i).handle = h := by
  have hfound := find?_some hi
  simp only [Bool.and_eq_true, decide_eq_true_eq] at hfound
  exact hfound

theorem Tidy.byHandle (ht : Tidy w) (hi : w.linked i) :
    w.byHandle (w.conns i).handle = some i := by
  cases hfound : w.byHandle (w.conns i).handle with
  | none =>
    have hnone := find?_eq_none.mp hfound i (mem_finRange i)
    exact absurd (show (w.conns i).state.linked = true from hi) (by simpa using hnone)
  | some j =>
    obtain ⟨hj, hh⟩ := linked_of_byHandle hfound
    rw [ht.apart hj hi hh]

theorem byHandle_none {h : ℕ} (hh : w.byHandle h = none) (hi : w.linked i) :
    (w.conns i).handle ≠ h := by
  intro heq
  have hnone := find?_eq_none.mp hh i (mem_finRange i)
  simp only [heq, show (w.conns i).state.linked = true from hi, decide_true, Bool.and_self,
    not_true_eq_false] at hnone

theorem state_of_inState {s : CState} (hi : w.inState s = some i) : (w.conns i).state = s := by
  have hfound := find?_some hi
  simp only [Bool.and_eq_true, decide_eq_true_eq] at hfound
  exact hfound.2

@[simp] theorem conns_set_self (c : Conn) : (w.set i c).conns i = c := update_self ..

theorem conns_set_ne {j : Slot} (hji : j ≠ i) (c : Conn) : (w.set i c).conns j = w.conns j :=
  update_of_ne hji ..

/-- The tables differ in one place. -/
theorem linked_set_ne {c : Conn} {j : Slot} (hji : j ≠ i) : (w.set i c).linked j ↔ w.linked j := by
  unfold Links.linked
  rw [conns_set_ne hji]

theorem linked_set_self {c : Conn} : (w.set i c).linked i ↔ c.state.linked = true := by
  unfold Links.linked
  rw [conns_set_self]

theorem not_linked {s : CState} (hi : (w.conns i).state = s) (hs : s.linked = false) :
    ¬ w.linked i := by
  unfold Links.linked
  rw [hi, hs]
  exact Bool.false_ne_true

/-- A connection that has ended has no link; the others have those they had. -/
theorem linked_freeConn {j : Slot} : (w.freeConn i).linked j ↔ j ≠ i ∧ w.linked j := by
  constructor
  · intro hj
    have hji : j ≠ i := by
      rintro rfl
      exact absurd (linked_set_self.mp hj) Bool.false_ne_true
    exact ⟨hji, (linked_set_ne hji).mp hj⟩
  · rintro ⟨hji, hj⟩
    exact (linked_set_ne hji).mpr hj

/-- A connection changes, but neither its link nor its handle. -/
theorem Tidy.set {c : Conn} (ht : Tidy w) (hl : c.state.linked = (w.conns i).state.linked)
    (hh : c.handle = (w.conns i).handle) (hu : ¬ w.linked i → c.unacked = 0) :
    Tidy (w.set i c) := by
  have hlinked : ∀ j, (w.set i c).linked j ↔ w.linked j := by
    intro j
    by_cases hij : j = i
    · subst hij
      rw [linked_set_self, hl]
      rfl
    · exact linked_set_ne hij
  have hhandle : ∀ j, ((w.set i c).conns j).handle = (w.conns j).handle := by
    intro j
    by_cases hij : j = i
    · subst hij
      rw [conns_set_self, hh]
    · rw [conns_set_ne hij]
  refine ⟨fun {j k} hj hk heq => ?_, fun {j} hj => ?_, fun {j} hj => ?_, fun {j} hj => ?_,
    fun f hf => ?_, ht.len⟩
  · rw [hhandle, hhandle] at heq
    exact ht.apart ((hlinked j).mp hj) ((hlinked k).mp hk) heq
  · rw [hhandle]
    exact ht.known ((hlinked j).mp hj)
  · rw [hlinked] at hj
    refine ⟨(hhandle j).trans (ht.blank hj).1, ?_⟩
    by_cases hij : j = i
    · subst hij
      rw [conns_set_self]
      exact hu hj
    · rw [conns_set_ne hij]
      exact (ht.blank hj).2
  · rw [hlinked] at hj
    exact ht.none hj
  · rw [hlinked, hhandle]
    exact ht.packets f hf

/-- Fewer packets wait. -/
theorem Tidy.fewer (ht : Tidy w) {q : List Frag} (hq : ∀ f ∈ q, f ∈ w.queue) :
    Tidy { w with queue := q } :=
  { ht with packets := fun f hf => ht.packets f (hq f hf) }

theorem Tidy.wrote (ht : Tidy w) (hi : w.linked i) (f : Frag) : Tidy (w.wrote i f) := by
  have hset : Tidy (w.set i { w.conns i with unacked := (w.conns i).unacked + 1 }) :=
    ht.set rfl rfl fun hnot => absurd hi hnot
  refine { hset with none := fun {j} hj => ?_ }
  obtain ⟨hframes, hsent, hwritten⟩ := hset.none hj
  refine ⟨hframes, hsent, ?_⟩
  have hji : j ≠ i := by
    rintro rfl
    exact hj (linked_set_self.mpr hi)
  show update w.written i (w.written i ++ [f]) j = []
  rw [update_of_ne hji]
  exact hwritten

/-- Whatever of the queue is written. -/
theorem tidy_flush {q : List Frag} {ok : List Bool} (ht : Tidy { w with queue := q }) :
    Tidy (Links.flush q ok w) := by
  induction q generalizing w ok with
  | nil => exact ht
  | cons f q ih =>
    have hrest : Tidy { w with queue := q } := ht.fewer fun g hg => mem_cons_of_mem _ hg
    rw [Links.flush]
    split
    · split
      · exact ih hrest
      · next j hj =>
        split
        · exact ih (hrest.wrote (linked_of_byHandle hj).1 f)
        · exact ih hrest
    · exact ht

theorem tidy_queueFrame (ht : Tidy w) (hi : w.linked i) (frame : Bytes) :
    Tidy (w.queueFrame i frame) := by
  refine ⟨ht.apart, ht.known, ht.blank, fun {j} hj => ?_, fun f hf => ?_, ht.len⟩
  · have hji : j ≠ i := by
      rintro rfl
      exact hj hi
    obtain ⟨hframes, hsent, hwritten⟩ := ht.none hj
    refine ⟨?_, ?_, hwritten⟩
    · show update w.frames i _ j = []
      rw [update_of_ne hji]
      exact hframes
    · show update w.sent i _ j = []
      rw [update_of_ne hji]
      exact hsent
  · rcases mem_append.mp hf with hold | hnew
    · exact ht.packets f hold
    · obtain ⟨hslot, hhandle⟩ := mem_fragments hnew
      rw [hslot, hhandle]
      exact ⟨hi, rfl⟩

/-- The packets of another link have another handle. -/
theorem tidy_freeConn (ht : Tidy w) (i : Slot) : Tidy (w.freeConn i) := by
  have hconn : ∀ {j}, j ≠ i → (w.freeConn i).conns j = w.conns j := fun hji =>
    update_of_ne hji ..
  have hself : (w.freeConn i).conns i = {} := update_self ..
  refine ⟨fun {j k} hj hk heq => ?_, fun {j} hj => ?_, fun {j} hj => ?_, fun {j} hj => ?_,
    fun f hf => ?_, ht.len⟩
  · obtain ⟨hji, hj⟩ := linked_freeConn.mp hj
    obtain ⟨hki, hk⟩ := linked_freeConn.mp hk
    rw [hconn hji, hconn hki] at heq
    exact ht.apart hj hk heq
  · obtain ⟨hji, hj⟩ := linked_freeConn.mp hj
    rw [hconn hji]
    exact ht.known hj
  · by_cases hji : j = i
    · subst hji
      rw [hself]
      exact ⟨rfl, rfl⟩
    · rw [hconn hji]
      exact ht.blank fun hlinked => hj ((linked_set_ne hji).mpr hlinked)
  · by_cases hji : j = i
    · subst hji
      exact ⟨update_self .., update_self .., update_self ..⟩
    · obtain ⟨hframes, hsent, hwritten⟩ :=
        ht.none fun hlinked => hj ((linked_set_ne hji).mpr hlinked)
      exact ⟨(update_of_ne hji ..).trans hframes,
        (update_of_ne hji ..).trans hsent, (update_of_ne hji ..).trans hwritten⟩
  · obtain ⟨hmem, hne⟩ := mem_filter.mp hf
    obtain ⟨hlinked, hhandle⟩ := ht.packets f hmem
    have hfi : f.slot ≠ i := by
      rintro rfl
      exact absurd hhandle (of_decide_eq_true hne)
    rw [hconn hfi]
    exact ⟨(linked_set_ne hfi).mpr hlinked, hhandle⟩

/-- A handle of no other link. -/
theorem tidy_linkUp (ht : Tidy w) (hi : ¬ w.linked i) {c : Conn} (hc : c.state.linked = true)
    {h : ℕ} (hfresh : h ∉ w.links) : Tidy (w.linkUp i c h) := by
  have hself : (w.linkUp i c h).conns i = { c with handle := h } := update_self ..
  have hconn : ∀ {j}, j ≠ i → (w.linkUp i c h).conns j = w.conns j := fun hji =>
    update_of_ne hji ..
  have hnot : ∀ {j}, ¬ (w.linkUp i c h).linked j → j ≠ i ∧ ¬ w.linked j := by
    intro j hj
    have hji : j ≠ i := by
      rintro rfl
      exact hj (linked_set_self.mpr hc)
    exact ⟨hji, fun hlinked => hj ((linked_set_ne hji).mpr hlinked)⟩
  -- the other links have handles that the controller knew before
  have hapart : ∀ {j}, j ≠ i → (w.linkUp i c h).linked j → (w.conns j).handle ≠ h := by
    rintro j hji hj rfl
    exact hfresh (ht.known ((linked_set_ne hji).mp hj))
  refine ⟨fun {j k} hj hk heq => ?_, fun {j} hj => ?_, fun {j} hj => ?_, fun {j} hj => ?_,
    fun f hf => ?_, ht.len⟩
  · by_cases hji : j = i
    · by_cases hki : k = i
      · rw [hji, hki]
      · rw [hji, hself, hconn hki] at heq
        exact absurd heq.symm (hapart hki hk)
    · by_cases hki : k = i
      · rw [hki, hself, hconn hji] at heq
        exact absurd heq (hapart hji hj)
      · rw [hconn hji, hconn hki] at heq
        exact ht.apart ((linked_set_ne hji).mp hj) ((linked_set_ne hki).mp hk) heq
  · by_cases hji : j = i
    · rw [hji, hself]
      exact mem_cons_self
    · rw [hconn hji]
      exact mem_cons_of_mem _ (ht.known ((linked_set_ne hji).mp hj))
  · obtain ⟨hji, hj⟩ := hnot hj
    rw [hconn hji]
    exact ht.blank hj
  · exact ht.none (hnot hj).2
  · obtain ⟨hlinked, hhandle⟩ := ht.packets f hf
    have hfi : f.slot ≠ i := by
      rintro rfl
      exact hi hlinked
    rw [hconn hfi]
    exact ⟨(linked_set_ne hfi).mpr hlinked, hhandle⟩

theorem tidy_complete (ht : Tidy w) (h k : ℕ) : Tidy (w.complete h k) := by
  unfold Links.complete
  simp only
  have hsame : Tidy { w with
      credits := min (w.credits + k) w.aclNum
      held := update w.held h (w.held h - k) } :=
    { ht with len := ht.len }
  split
  · exact hsame
  · next i hi => exact hsame.set rfl rfl fun hnot => absurd (linked_of_byHandle hi).1 hnot

/-- The controller ends a link; where it was ours, it is no more. -/
theorem tidy_disconnected (ht : Tidy w) (h : ℕ) : Tidy (w.step (.disconnected h)) := by
  have herase : ∀ {j}, w.linked j → (w.conns j).handle ≠ h → (w.conns j).handle ∈ w.links.erase h :=
    fun hj hne => (mem_erase_of_ne hne).mpr (ht.known hj)
  show Tidy (match w.byHandle h with
    | none => _
    | some i => _)
  cases hi : w.byHandle h with
  | none =>
    exact { ht with known := fun hj => herase hj (byHandle_none hi hj) }
  | some i =>
    obtain ⟨hlinked, hhandle⟩ := linked_of_byHandle hi
    have hfree := tidy_freeConn ht i
    refine { hfree with known := fun {j} hj => ?_ }
    obtain ⟨hji, hj'⟩ : j ≠ i ∧ w.linked j := linked_freeConn.mp hj
    show (update w.conns i {} j).handle ∈ w.links.erase h
    rw [update_of_ne hji]
    refine herase hj' fun heq => hji ?_
    exact ht.apart hj' hlinked (heq.trans hhandle.symm)

theorem tidy_setup (len num : ℕ) : Tidy (.setup len num) where
  apart := fun hj => absurd hj (by simp [Links.linked, Links.setup, CState.linked])
  known := fun hj => absurd hj (by simp [Links.linked, Links.setup, CState.linked])
  blank := fun _ => ⟨rfl, rfl⟩
  none := fun _ => ⟨rfl, rfl, rfl⟩
  packets := fun f hf => absurd hf (by simp [Links.setup])
  len := lt_of_lt_of_le (by norm_num) (le_max_right len 27)

/-! ### What a step does -/

/-- The connection that a step ends. -/
def Links.frees (w : Links) : Ev → Option Slot
  | .disconnect addr =>
      (w.byAddr addr).filter fun i => (w.conns i).state = .wait
  | .refused i => if (w.conns i).state = .connecting then some i else none
  | .failed => w.inState .connecting
  | .disconnected h => w.byHandle h
  | .forget i => if (w.conns i).state = .closing then some i else none
  | _ => none

/-- What a step does: a connection changes, but neither its link, its handle nor its packets; one
ends that has no link or whose link is to be forgotten; a link comes up, ours or another's; or
something happens to packets. -/
inductive Moves (w : Links) : Ev → Links → Prop
  | stays {e : Ev} : Moves w e w
  | changes {e : Ev} {i : Slot} {c : Conn} (hl : c.state.linked = (w.conns i).state.linked)
      (hh : c.handle = (w.conns i).handle) (hu : c.unacked = (w.conns i).unacked) :
      Moves w e (w.set i c)
  | ends {e : Ev} {i : Slot} (hfrees : w.frees e = some i)
      (hgone : ¬ w.linked i ∨ e = .forget i ∧ (w.conns i).state = .closing) :
      Moves w e (w.freeConn i)
  | comes {e : Ev} {i : Slot} {c : Conn} {h : ℕ} (he : e = .connected h ∨ e = .phone h)
  (hi : ¬ w.linked i)
      (hc : c.state.linked = true) (hu : c.unacked = 0) : Moves w e (w.linkUp i c h)
  | stranger {e : Ev} {h : ℕ} : Moves w e { w with links := h :: w.links }
  | sends {i : Slot} (cid : ℕ) (pdu : Bytes) (ok : List Bool) (hi : w.linked i) :
      Moves w (.send i cid pdu ok) (w.l2capSend i cid pdu ok)
  | told (reports : List (ℕ × ℕ)) (ok : List Bool) :
      Moves w (.completed reports ok)
      ((reports.foldl (fun w r => w.complete r.1 r.2) w).aclFlush ok)
  | down (h : ℕ) : Moves w (.disconnected h) (w.step (.disconnected h))
  | lost (len num : ℕ) : Moves w (.lost len num) (.setup len num)

theorem moves_step (ht : Tidy w) (e : Ev) : Moves w e (w.step e) := by
  cases e with
  | connect addr =>
    show Moves w _ (match w.byAddr addr, w.inState .free with
      | none, some i => _
      | _, _ => _)
    split
    · next i _ hi =>
      have hfree := state_of_inState hi
      -- a place without a link has no handle and nothing on the way
      have hblank := ht.blank (not_linked hfree rfl)
      exact .changes (by rw [hfree]; rfl) hblank.1.symm hblank.2.symm
    · exact .stays
  | disconnect addr =>
    show Moves w _ (match w.byAddr addr with
      | none => _
      | some i => _)
    split
    · exact .stays
    · next i hi =>
      split
      · next hwait =>
        refine .ends ?_ (.inl (not_linked hwait rfl))
        show (w.byAddr addr).filter _ = some i
        rw [hi, Option.filter_some, if_pos (by simpa using hwait)]
      · exact .changes rfl rfl rfl
      · exact .changes rfl rfl rfl
      · exact .changes rfl rfl rfl
      · exact .stays
      · exact .stays
  | close i =>
    show Moves w _ (if (w.conns i).state.linked then _ else _)
    split
    · exact .changes rfl rfl rfl
    · exact .stays
  | connectNext =>
    show Moves w _ (match w.inState .wait, w.inState .connecting with
      | some i, none => _
      | _, _ => _)
    split
    · next i hi _ => exact .changes (by rw [state_of_inState hi]; rfl) rfl rfl
    · exact .stays
  | refused i =>
    show Moves w _ (if (w.conns i).state = .connecting then _ else _)
    split
    · next hstate => exact .ends (if_pos hstate) (.inl (not_linked hstate rfl))
    · exact .stays
  | giveUp i =>
    show Moves w _ (if (w.conns i).state = .connecting then _ else _)
    split
    · exact .changes rfl rfl rfl
    · exact .stays
  | connected h =>
    show Moves w _ (match w.inState .connecting with
      | none => _
      | some i => _)
    split
    · exact .stranger
    · next i hi =>
      have hnot : ¬ w.linked i := not_linked (state_of_inState hi) rfl
      exact .comes (.inl rfl) hnot rfl (ht.blank hnot).2
  | failed =>
    show Moves w _ (match w.inState .connecting with
      | none => _
      | some i => _)
    split
    · exact .stays
    · next i hi => exact .ends hi (.inl (not_linked (state_of_inState hi) rfl))
  | phone h =>
    show Moves w _ (if (w.conns srv).state = .free then _ else _)
    split
    · next hfree => exact .comes (.inr rfl) (not_linked hfree rfl) rfl rfl
    · exact .stranger
  | ready i =>
    show Moves w _ (if (w.conns i).state = .mtu then _ else _)
    split
    · next hmtu => exact .changes (by rw [hmtu]; rfl) rfl rfl
    · exact .stays
  | send i cid pdu ok =>
    show Moves w _ (if (w.conns i).state.linked then _ else _)
    split
    · next hi => exact .sends cid pdu ok hi
    · exact .stays
  | completed reports ok => exact .told reports ok
  | disconnected h => exact .down h
  | closing i =>
    show Moves w _ (if _ then _ else _)
    split
    · next hclose =>
      simp only [Bool.and_eq_true] at hclose
      exact .changes hclose.1.2.symm rfl rfl
    · exact .stays
  | forget i =>
    show Moves w _ (if (w.conns i).state = .closing then _ else _)
    split
    · next hclosing => exact .ends (if_pos hclosing) (.inr ⟨rfl, hclosing⟩)
    · exact .stays
  | lost len num => exact .lost len num

/-- **Each step keeps the table tidy.** -/
theorem tidy_step (ht : Tidy w) {e : Ev} (hhonest : Honest w e) : Tidy (w.step e) := by
  have hmoves := moves_step ht e
  generalize w.step e = v at hmoves
  cases hmoves with
  | stays => exact ht
  | changes hl hh hu => exact ht.set hl hh fun hnot => hu.trans (ht.blank hnot).2
  | ends => exact tidy_freeConn ht _
  | comes he hi hc =>
    refine tidy_linkUp ht hi hc ?_
    rcases he with rfl | rfl
    · exact hhonest.1
    · exact hhonest.1
  | stranger =>
    exact { ht with known := fun hj => mem_cons_of_mem _ (ht.known hj) }
  | sends cid pdu ok hi =>
    unfold Links.l2capSend
    split
    · exact ht
    · exact tidy_flush (tidy_queueFrame ht hi _)
  | told reports ok =>
    have hreports : Tidy (reports.foldl (fun w r => w.complete r.1 r.2) w) :=
      Runs.invariant_all (I := Tidy) (fun v r hv => tidy_complete hv r.1 r.2) ht reports
    exact tidy_flush hreports
  | down h => exact tidy_disconnected ht h
  | lost len num => exact tidy_setup len num

end Hassmic.Ble
