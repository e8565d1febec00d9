import Hassmic.Lib.Text
import Hassmic.Lib.Pieces

/-!
# Packets of Improv

A phone that sets an Echo up writes commands to it: a command, a length, so many bytes of data, and
the sum of all of these.  The data are strings, each behind its length.  A packet may come in
pieces, which are put together until its length says that it is whole; then the worker gets it.
Results are packets of the same kind.

## Main definitions

* `packet`, `pack` — a packet, and the data that strings make.
* `onWrite`, `Ev`, `Link.run` — a piece that comes, and what happens on a link.
* `strings` — the strings of a packet.
* `setResult`, `scanAnswer` — a result, and the one of a scan.

## Main results

* `strings_packet` — which strings a packet is read as.
* `packets` — **packets survive cutting and packing**.
-/

namespace Hassmic.Improv

open Byte Text List Option

/-! ### Packets -/

/-- `E_NONE` to `E_UNKNOWN`. -/
inductive Err
  | none
  | invalidRpc
  | unknownRpc
  | unableToConnect
  | notAuthorized
  | badHostname
  | unknown

/-- `C_STATE` to `C_CAPS`. -/
inductive Chr
  | state
  | error
  | rpc
  | result
  | caps
  deriving DecidableEq

/-- `sum`. -/
def sum (p : Bytes) : UInt8 := (p.map UInt8.toNat).sum.toUInt8

/-- A command with its data. -/
def packet (c : UInt8) (d : Bytes) : Bytes :=
  [c, d.length.toUInt8] ++ d ++ [sum ([c, d.length.toUInt8] ++ d)]

/-- Strings as data, each behind its length. -/
def pack (l : List Bytes) : Bytes := l.flatMap fun a => a.length.toUInt8 :: a

/-! ### A packet that comes -/

/-- The command being put together, the one that the worker has yet to handle, and the error that is
shown; `handed` are the commands that the worker was given. -/
structure Link where
  rx : Bytes := []
  cmd : Option Bytes := none
  err : Err := .none
  handed : List Bytes := []

/-- `on_write`. -/
def onWrite (c : Chr) (d : Bytes) (s : Link) : Link :=
  if c ≠ .rpc then s
  else
    -- longer than any packet: what came before was garbage
    let rx := if 259 < s.rx.length + d.length then [] else s.rx
    let rx := if d.length ≤ 259 then rx ++ d else rx
    let len := (rx.getD 1 0).toNat + 3
    if 3 ≤ rx.length ∧ len ≤ rx.length then
      if len < rx.length ∨ rx.getD (len - 1) 0 ≠ sum (rx.take (len - 1)) then
        { s with rx := [], err := .invalidRpc }
      -- the one before is still being handled
      else if s.cmd.isSome then { s with rx := [], err := .unknown }
      else { s with rx := [], cmd := some (rx.take len), handed := s.handed ++ [rx.take len] }
    else { s with rx := rx }

/-- `on_connection`: what came over the link before is gone. -/
def onConnection (s : Link) : Link := { s with rx := [] }

/-- A write of the phone, or the worker is done with its command, and shows an error or none. -/
inductive Ev
  | write (c : Chr) (d : Bytes)
  | work (err : Err)

/-- The piece of a packet that comes with it. -/
def Ev.piece : Ev → Bytes
  | .write .rpc d => d
  | _ => []

def Link.step (s : Link) : Ev → Link
  | .write c d => onWrite c d s
  | .work err => { s with cmd := none, err := err }

def Link.run (s : Link) (evs : List Ev) : Link := evs.foldl Link.step s

/-- What was written of packets. -/
def written (evs : List Ev) : Bytes := evs.flatMap Ev.piece

/-! ### Strings -/

/-- At most `max` strings, if they are all there is. -/
def stringsLoop : ℕ → Bytes → Option (List Bytes)
  | _, [] => some []
  | 0, _ :: _ => none
  | max + 1, c :: l =>
      if l.length < c.toNat then none
      else (stringsLoop max (l.drop c.toNat)).map fun s => l.take c.toNat :: s

/-- `strings`. -/
def strings (p : Bytes) (max : ℕ) : Option (List Bytes) :=
  stringsLoop max ((p.take (p.length - 1)).drop 2)

/-- The strings that fit behind `n` bytes. -/
def resultLoop : ℕ → List Bytes → Bytes
  | _, [] => []
  | n, a :: l =>
      if 255 < a.length ∨ 2 + 255 < n + 1 + a.length then []
      else a.length.toUInt8 :: a ++ resultLoop (n + 1 + a.length) l

/-- `set_result`, what is put into the result. -/
def setResult (c : UInt8) (l : List Bytes) : Bytes :=
  let p := [c, (resultLoop 2 l).length.toUInt8] ++ resultLoop 2 l
  p ++ [sum p]

/-! ### A scan -/

/-- A network that was seen. -/
structure Net where
  ssid : Bytes
  signal : ℤ
  sec : Bytes

/-- The security that is answered, none if the network cannot be joined. -/
def Net.security (n : Net) : Option Bytes :=
  if n.sec = text "open" then some (text "NO") else if n.sec = text "psk" then
    some (text "WPA2") else none

/-- The signal, in `char[8]`. -/
def Net.rssi (n : Net) : Bytes := (decimal n.signal).take 7

/-- The networks that are answered: at most 32 of those that can be joined, as long as there is
room. -/
def scanLoop : ℕ → ℕ → List Net → List Bytes
  | _, _, [] => []
  | j, room, n :: nets =>
      if 32 ≤ j then []
      else
        match n.security with
        | none => scanLoop j room nets
        | some sec =>
            let need := 3 + n.ssid.length + n.rssi.length + sec.length
            if room < need then []
              else n.ssid :: n.rssi :: sec :: scanLoop (j + 1) (room - need) nets

abbrev cmdScan : UInt8 := 4

/-- `scan_answer`. -/
def scanAnswer (nets : List Net) : Bytes := setResult cmdScan (scanLoop 0 255 nets)

/-! ### Which strings a packet is read as -/

theorem length_pack (l : List Bytes) : (pack l).length = room l := by
  induction l with
  | nil => rfl
  | cons a l ih =>
    have hcons : pack (a :: l) = a.length.toUInt8 :: a ++ pack l := rfl
    rw [hcons, room_cons, length_append, length_cons, ih]

theorem toNat_length {n : ℕ} (h : n ≤ 255) : n.toUInt8.toNat = n := by
  have hmod : n.toUInt8.toNat = n % 256 := rfl
  rw [hmod]
  omega

theorem stringsLoop_iff (max : ℕ) (d : Bytes) (l : List Bytes) :
    stringsLoop max d = some l ↔ d = pack l ∧ (∀ a ∈ l, a.length ≤ 255) ∧ l.length ≤ max := by
  induction max generalizing d l with
  | zero =>
    cases d with
    | nil =>
      constructor
      · intro h
        obtain rfl := some.inj h
        exact ⟨rfl, nofun, le_rfl⟩
      · rintro ⟨-, -, hlen⟩
        obtain rfl := length_eq_zero_iff.mp (Nat.le_zero.mp hlen)
        rfl
    | cons c d =>
      constructor
      · exact fun h => nomatch h
      · rintro ⟨hd, -, hlen⟩
        obtain rfl := length_eq_zero_iff.mp (Nat.le_zero.mp hlen)
        exact nomatch hd
  | succ max ih =>
    cases d with
    | nil =>
      constructor
      · intro h
        obtain rfl := some.inj h
        exact ⟨rfl, nofun, Nat.zero_le _⟩
      · rintro ⟨hd, -, -⟩
        cases l with
        | nil => rfl
        | cons a l => exact nomatch hd
    | cons c d =>
      constructor
      · intro h
        -- the length byte cuts the first string off
        unfold stringsLoop at h
        split at h
        case isTrue => exact nomatch h
        case isFalse hlen =>
          obtain ⟨l', hl', rfl⟩ := map_eq_some_iff.mp h
          obtain ⟨hd, hshort, hmax⟩ := (ih _ _).mp hl'
          have htake : (d.take c.toNat).length = c.toNat := length_take_of_le (not_lt.mp hlen)
          refine ⟨?_, ?_, Nat.succ_le_succ hmax⟩
          · have hcons : pack (d.take c.toNat :: l') =
                (d.take c.toNat).length.toUInt8 :: d.take c.toNat ++ pack l' := rfl
            rw [hcons, htake, ← hd, cons_append, take_append_drop]
            congr 1
            exact UInt8.toNat.inj (toNat_length (Nat.le_of_lt_succ c.toNat_lt)).symm
          · intro a ha
            rcases mem_cons.mp ha with rfl | ha
            · rw [htake]
              exact Nat.le_of_lt_succ c.toNat_lt
            · exact hshort a ha
      · rintro ⟨hd, hshort, hmax⟩
        cases l with
        | nil => exact nomatch hd
        | cons a l =>
          have hcons : pack (a :: l) = a.length.toUInt8 :: (a ++ pack l) := rfl
          rw [hcons] at hd
          -- and it was put there by its length
          obtain ⟨rfl, rfl⟩ := List.cons.inj hd
          have ha := toNat_length (hshort a mem_cons_self)
          have hrest := (ih (pack l) l).mpr
            ⟨rfl, fun b hb => hshort b (mem_cons_of_mem a hb), Nat.le_of_succ_le_succ hmax⟩
          unfold stringsLoop
          rw [ha, if_neg (by rw [length_append]; omega), drop_left, take_left, hrest, map_some]

/-- The data of a packet. -/
theorem data_packet (c k s : UInt8) (d : Bytes) :
    ((([c, k] ++ d ++ [s]).take (([c, k] ++ d ++ [s]).length - 1)).drop 2) = d := by
  have hlen : ([c, k] ++ d ++ [s]).length - 1 = ([c, k] ++ d).length := by
    rw [length_append, length_singleton, Nat.add_sub_cancel]
  rw [hlen, take_left]
  rfl

/-- **Which strings a packet is read as**: those that were packed into it, if they are not too
many. -/
theorem strings_packet (c : UInt8) (d : Bytes) (max : ℕ) (l : List Bytes) :
    strings (packet c d) max = some l ↔
    d = pack l ∧ (∀ a ∈ l, a.length ≤ 255) ∧ l.length ≤ max := by
  unfold strings packet
  rw [data_packet, stringsLoop_iff]

/-! ### A packet that comes in pieces -/

theorem length_packet (c : UInt8) (d : Bytes) : (packet c d).length = d.length + 3 := by
  unfold packet
  rw [length_append, length_append, length_cons, length_singleton, length_singleton]
  omega

/-- What a piece is put behind, and cut off from. -/
theorem rx_eq {rx x : Bytes} (h : rx.length + x.length ≤ 259) :
    (if x.length ≤ 259 then (if 259 < rx.length + x.length then [] else rx) ++ x
      else if 259 < rx.length + x.length then [] else rx) = rx ++ x := by
  rw [if_pos (by omega), if_neg (by omega)]

section pieces

variable {c : UInt8} {d : Bytes} (hd : d.length ≤ 255)
include hd

/-- The length that stands in a packet, and in what there is of it. -/
theorem getD_packet {rx : Bytes} (h : rx <+: packet c d) (hlen : 2 ≤ rx.length) :
    (rx.getD 1 0).toNat + 3 = (packet c d).length := by
  have hget : rx.getD 1 0 = (packet c d).getD 1 0 := by
    obtain ⟨rest, hrest⟩ := h
    rw [← hrest, getD_append _ _ _ _ (by omega)]
  rw [hget, length_packet c d]
  exact congrArg (· + 3) (toNat_length hd)

/-- A whole packet is handed on, if the worker is done with the one before. -/
theorem onWrite_whole {s : Link} (hcmd : s.cmd = none) {x : Bytes} (h : s.rx ++ x = packet c d) :
    onWrite .rpc x s =
      { s with rx := [], cmd := some (packet c d), handed := s.handed ++ [packet c d] } := by
  have hlen := length_packet c d
  have hsum : s.rx.length + x.length = (packet c d).length := by rw [← h, length_append]
  have hfirst := getD_packet (c := c) hd (prefix_refl _) (by omega)
  have hbefore : (packet c d).take ((packet c d).length - 1) = [c, d.length.toUInt8] ++ d := by
    unfold packet
    rw [length_append, length_singleton, Nat.add_sub_cancel, take_left]
  have hlast : (packet c d).getD ((packet c d).length - 1) 0 =
      sum ([c, d.length.toUInt8] ++ d) := by
    unfold packet
    rw [length_append, length_singleton, Nat.add_sub_cancel, getD_append_right _ _ _ _ le_rfl,
      Nat.sub_self]
    rfl
  unfold onWrite
  dsimp only
  rw [if_neg (by decide), rx_eq (by omega), h, hfirst, if_pos ⟨by omega, le_rfl⟩, hbefore, hlast,
    if_neg (by simp), hcmd, take_length]
  rfl

/-- Before it is whole, it is put together. -/
theorem onWrite_part {s : Link} {x : Bytes} (h : s.rx ++ x <+: packet c d)
    (hne : s.rx ++ x ≠ packet c d) :
    onWrite .rpc x s = { s with rx := s.rx ++ x } := by
  have hlen := length_packet c d
  have hsum : s.rx.length + x.length < (packet c d).length := by
    rw [← length_append]
    exact lt_of_le_of_ne h.length_le fun heq => hne (h.eq_of_length heq)
  unfold onWrite
  dsimp only
  rw [if_neg (by decide), rx_eq (by omega), if_neg]
  rintro ⟨hthree, hall⟩
  rw [getD_packet hd h (by omega), length_append] at hall
  omega

end pieces

/-- Nothing of a packet has come, or some of it, or all of it was handed to the worker. -/
def Link.Ready (s : Link) (p got : Bytes) (t : Link) : Prop :=
  (got ≠ p ∧ t.rx = got ∧ t.cmd = none ∧ t.handed = s.handed) ∨
    (got = p ∧ t.rx = [] ∧ t.handed = s.handed ++ [p])

/-- What comes keeps it so. -/
theorem Link.Ready.step {c : UInt8} {d : Bytes} (hd : d.length ≤ 255) {s t : Link} {got : Bytes}
    (h : s.Ready (packet c d) got t) {e : Ev} (hpre : got ++ e.piece <+: packet c d) :
    s.Ready (packet c d) (got ++ e.piece) (t.step e) := by
  cases e with
  | work err =>
    have hgot : got ++ (Ev.work err).piece = got := append_nil got
    rw [hgot]
    rcases h with ⟨hne, hrx, -, hhanded⟩ | ⟨heq, hrx, hhanded⟩
    · exact .inl ⟨hne, hrx, rfl, hhanded⟩
    · exact .inr ⟨heq, hrx, hhanded⟩
  | write chr x =>
    by_cases hchr : chr = .rpc
    · subst hchr
      change s.Ready (packet c d) (got ++ x) (onWrite .rpc x t)
      change got ++ x <+: packet c d at hpre
      rcases h with ⟨hne, hrx, hcmd, hhanded⟩ | ⟨heq, hrx, hhanded⟩
      · subst hrx
        by_cases hwhole : t.rx ++ x = packet c d
        · rw [onWrite_whole hd hcmd hwhole]
          exact .inr ⟨hwhole, rfl, by rw [hhanded]⟩
        · rw [onWrite_part hd hpre hwhole]
          exact .inl ⟨hwhole, rfl, hcmd, hhanded⟩
      · -- nothing is left of the packet
        obtain rfl : x = [] := by
          rw [heq] at hpre
          have hlen := hpre.length_le
          rw [length_append] at hlen
          exact length_eq_zero_iff.mp (by omega)
        rw [append_nil]
        have hnone : onWrite .rpc [] t = t := by
          unfold onWrite
          dsimp only
          rw [hrx, if_neg (by decide), rx_eq (by decide), if_neg (by decide), append_nil, ← hrx]
        rw [hnone]
        exact .inr ⟨heq, hrx, hhanded⟩
    · have hother : onWrite chr x t = t := by
        unfold onWrite
        rw [if_pos hchr]
      have hpiece : (Ev.write chr x).piece = [] := by
        cases chr with
        | rpc => exact absurd rfl hchr
        | state => rfl
        | error => rfl
        | result => rfl
        | caps => rfl
      change s.Ready (packet c d) _ (onWrite chr x t)
      rw [hother, hpiece, append_nil]
      exact h

/-- **A packet that comes in pieces is handed to the worker once, when it is whole.** -/
theorem Link.Ready.run {c : UInt8} {d : Bytes} (hd : d.length ≤ 255) {s t : Link} {got : Bytes}
    (h : s.Ready (packet c d) got t) (evs : List Ev) (hpre : got ++ written evs <+: packet c d) :
    s.Ready (packet c d) (got ++ written evs) (t.run evs) := by
  induction evs generalizing t got with
  | nil =>
    rw [show written [] = [] from rfl, append_nil]
    exact h
  | cons e evs ih =>
    have hcons : written (e :: evs) = e.piece ++ written evs := rfl
    rw [hcons, ← append_assoc] at hpre ⊢
    have hfirst : got ++ e.piece <+: packet c d := (prefix_append _ _).trans hpre
    exact ih (h.step hd hfirst) hpre

/-! ### Results -/

/-- The strings of a result. -/
def resultStrings : ℕ → List Bytes → List Bytes
  | _, [] => []
  | n, a :: l =>
    if 255 < a.length ∨ 2 + 255 < n + 1 + a.length then []
      else a :: resultStrings (n + 1 + a.length) l

theorem resultLoop_eq (n : ℕ) (l : List Bytes) : resultLoop n l = pack (resultStrings n l) := by
  induction l generalizing n with
  | nil => rfl
  | cons a l ih =>
    unfold resultLoop resultStrings
    split
    · rfl
    · rw [ih]
      rfl

/-- They are the first ones, as long as there is room. -/
theorem resultStrings_spec {n : ℕ} (hlo : 2 ≤ n) (hn : n ≤ 257) (l : List Bytes) :
    resultStrings n l <+: l ∧ n + room (resultStrings n l) ≤ 257 ∧
      ∀ pre, pre <+: l → n + room pre ≤ 257 → pre <+: resultStrings n l := by
  induction l generalizing n with
  | nil => exact ⟨prefix_refl _, hn, fun pre hpre _ => hpre⟩
  | cons a l ih =>
    unfold resultStrings
    split
    case isTrue hfull =>
      refine ⟨List.nil_prefix, hn, fun pre hpre hroom => ?_⟩
      cases pre with
      | nil => exact prefix_refl _
      | cons b pre =>
        obtain ⟨rfl, -⟩ := cons_prefix_cons.mp hpre
        rw [room_cons] at hroom
        omega
    case isFalse hfits =>
      obtain ⟨hpre, hroom, hmost⟩ := @ih (n + 1 + a.length) (by omega) (by omega)
      refine ⟨cons_prefix_cons.mpr ⟨rfl, hpre⟩, ?_, fun pre hpre' hroom' => ?_⟩
      · rw [room_cons]
        omega
      · cases pre with
        | nil => exact nil_prefix
        | cons b pre =>
          obtain ⟨rfl, htail⟩ := cons_prefix_cons.mp hpre'
          rw [room_cons] at hroom'
          exact cons_prefix_cons.mpr ⟨rfl, hmost pre htail (by omega)⟩

/-- A string that there is room for has no more than 255 bytes. -/
theorem length_of_room {l : List Bytes} (h : room l ≤ 255) : ∀ a ∈ l, a.length ≤ 255 := by
  intro a ha
  have hle := length_le_room ha
  omega

/-- A result is a packet with its strings. -/
theorem setResult_eq (c : UInt8) (l : List Bytes) :
    setResult c l = packet c (pack (resultStrings 2 l)) := by
  unfold setResult packet
  rw [resultLoop_eq]

/-- **A result is read back**, as far as it fits. -/
theorem strings_setResult (c : UInt8) (l : List Bytes) {max : ℕ}
    (hmax : (resultStrings 2 l).length ≤ max) :
    strings (setResult c l) max = some (resultStrings 2 l) := by
  obtain ⟨-, hroom, -⟩ := resultStrings_spec le_rfl (by omega) l
  rw [setResult_eq, strings_packet]
  exact ⟨rfl, length_of_room (by omega), hmax⟩

/-! ### Scans -/

/-- What is answered of a network. -/
def Net.triple (n : Net) : List Bytes := [n.ssid, n.rssi, n.security.getD []]

/-- A scan is answered with whole triples, for which there is room. -/
theorem scanLoop_spec (j room' : ℕ) (nets : List Net) :
    ∃ taken, taken <+: (nets.filter fun n => n.security.isSome) ∧ taken.length ≤ 32 - j ∧
      scanLoop j room' nets = taken.flatMap Net.triple ∧ room (scanLoop j room' nets) ≤ room' := by
  induction nets generalizing j room' with
  | nil => exact ⟨[], nil_prefix, Nat.zero_le _, rfl, Nat.zero_le _⟩
  | cons n nets ih =>
    unfold scanLoop
    split
    case isTrue => exact ⟨[], nil_prefix, Nat.zero_le _, rfl, Nat.zero_le _⟩
    case isFalse hj =>
      split
      case h_1 hnone =>
        obtain ⟨taken, hpre, hlen, heq, hroom⟩ := ih j room'
        refine ⟨taken, ?_, hlen, heq, hroom⟩
        rw [filter_cons_of_neg (by rw [hnone]; decide)]
        exact hpre
      case h_2 sec hsec =>
        dsimp only
        split
        case isTrue => exact ⟨[], nil_prefix, Nat.zero_le _, rfl, Nat.zero_le _⟩
        case isFalse hfits =>
          obtain ⟨taken, hpre, hlen, heq, hroom⟩ :=
            ih (j + 1) (room' - (3 + n.ssid.length + n.rssi.length + sec.length))
          refine ⟨n :: taken, ?_, ?_, ?_, ?_⟩
          · rw [filter_cons_of_pos (by rw [hsec]; rfl)]
            exact cons_prefix_cons.mpr ⟨rfl, hpre⟩
          · rw [length_cons]
            omega
          · rw [heq, flatMap_cons]
            unfold Net.triple
            rw [hsec]
            rfl
          · rw [room_cons, room_cons, room_cons]
            omega

/-- If all strings fit, all are in the result. -/
theorem resultStrings_all {l : List Bytes} (h : room l ≤ 255) : resultStrings 2 l = l := by
  obtain ⟨hpre, -, hmost⟩ := resultStrings_spec le_rfl (by omega) l
  exact hpre.eq_of_length_le (hmost l (prefix_refl l) (by omega)).length_le

/-- **Packets survive cutting and packing.**  A packet that comes in pieces on a fresh link while
the worker has nothing else to handle is handed to it once, when it is whole, whatever else is
written and however the worker goes on.  A packet is read as the strings that were packed into it,
if they are no more than asked for, and as none if it is not filled by so many.  A result is within
its buffer, and read back as the most of its strings that fit.  The answer to a scan is whole
triples, of the first networks that can be joined. -/
theorem packets :
    (∀ (c : UInt8) (d : Bytes), d.length ≤ 255 → ∀ (s : Link) (evs : List Ev), s.cmd = none →
      written evs <+: packet c d →
        ((onConnection s).run evs).handed = s.handed ++ if written evs = packet c d then
        [packet c d] else []) ∧
    (∀ (c : UInt8) (d : Bytes) (max : ℕ) (l : List Bytes),
      strings (packet c d) max = some l ↔ d = pack l ∧ (∀ a ∈ l, a.length ≤ 255) ∧ l.length ≤ max) ∧
    (∀ (c : UInt8) (l : List Bytes), (setResult c l).length ≤ 259 ∧ ∃ pre, pre <+: l ∧
      room pre ≤ 255 ∧
      (∀ pre', pre' <+: l → room pre' ≤ 255 → pre' <+: pre) ∧
      ∀ max, pre.length ≤ max → strings (setResult c l) max = some pre) ∧
    ∀ nets : List Net, ∃ taken, taken <+: (nets.filter fun n => n.security.isSome) ∧
      ∀ max, 96 ≤ max → strings (scanAnswer nets) max = some (taken.flatMap Net.triple) := by
  refine ⟨fun c d hd s evs hcmd hpre => ?_, strings_packet, fun c l => ?_, fun nets => ?_⟩
  · have hne : [] ≠ packet c d := fun h => nomatch h
    have hstart : s.Ready (packet c d) [] (onConnection s) := .inl ⟨hne, rfl, hcmd, rfl⟩
    have hrun := hstart.run hd evs hpre
    rw [nil_append] at hrun
    rcases hrun with ⟨hpart, -, -, hhanded⟩ | ⟨hwhole, -, hhanded⟩
    · rw [hhanded, if_neg hpart, append_nil]
    · rw [hhanded, if_pos hwhole]
  · obtain ⟨hpre, hroom, hmost⟩ := resultStrings_spec le_rfl (by omega) l
    refine ⟨?_, resultStrings 2 l, hpre, by omega,
      fun pre' hpre' hroom' => hmost pre' hpre' (by omega), fun max hmax =>
      strings_setResult c l hmax⟩
    rw [setResult_eq, length_packet, length_pack]
    omega
  · obtain ⟨taken, hpre, hlen, heq, hroom⟩ := scanLoop_spec 0 255 nets
    refine ⟨taken, hpre, fun max hmax => ?_⟩
    have hall := resultStrings_all hroom
    unfold scanAnswer
    have hthree : (taken.flatMap Net.triple).length = 3 * taken.length := by
      clear hpre hlen heq
      induction taken with
      | nil => rfl
      | cons n taken ih =>
        rw [flatMap_cons, length_append, ih, length_cons]
        change 3 + 3 * taken.length = _
        omega
    rw [strings_setResult cmdScan _ (by rw [hall, heq, hthree]; omega), hall, heq]

/-- Two strings in three pieces; in between something else is written, and the worker shows an
error. -/
def threePieces : List Ev :=
  [.write .rpc [1, 5], .work .unknown, .write .rpc [1], .write .state [7],
    .write .rpc [97, 2, 98, 99, 47]]

theorem packets_cut :
    ((onConnection {}).run threePieces).handed = [packet 1 (pack [[97], [98, 99]])] ∧
      strings (packet 1 (pack [[97], [98, 99]])) 2 = some [[97], [98, 99]] := by
  have hwritten : written threePieces = packet 1 (pack [[97], [98, 99]]) := by decide
  refine ⟨?_, (packets.2.1 1 _ 2 _).mpr ⟨rfl, by decide, by decide⟩⟩
  have hhanded := packets.1 1 (pack [[97], [98, 99]]) (by decide) {} threePieces rfl
    (hwritten ▸ prefix_refl _)
  rw [if_pos hwritten] at hhanded
  exact hhanded

/-- **Nine strings are too many**, even if they fill the packet; and a packet is not handed to a
worker that has yet to handle the one before. -/
theorem packets_refused :
    strings (packet 1 (pack (List.replicate 9 []))) 8 = none ∧
      ((onConnection { cmd := some (packet 2 []) }).run [.write .rpc (packet 2 [])]).handed =
        [] := by
  decide

end Hassmic.Improv
