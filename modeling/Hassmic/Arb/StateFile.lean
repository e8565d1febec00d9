import Hassmic.Lib.Text
import Hassmic.Hash.Base64
import Hassmic.Arb.Rounds

/-!
# The state file

The text `state/arbitration` is written as, and how it is read back line by line.
The counter of the packets sent is reserved in blocks there.

## Main definitions

* `St.stateText` — what `save` writes.
* `St.load` — what `load` makes of a text.
* `St.nextCtr` — the next counter, reserved in the file before it is used.

## Main results

* `St.lines_stateText` — the lines read are the lines written.
* `St.load_stateText` — the counter and the network are restored.
-/

namespace Hassmic.Arb

open Byte Text List Option
open scoped Slots

/-- Characters as bytes. -/
def ascii (l : List Char) : Bytes := l.map fun c => c.toNat.toUInt8

/-- The words that start the lines of the file. -/
def wArbitrate : Bytes := ascii ['a', 'r', 'b', 'i', 't', 'r', 'a', 't', 'e']
def wJoin : Bytes := ascii ['j', 'o', 'i', 'n']
def wCtr : Bytes := ascii ['c', 't', 'r']
def wNet : Bytes := ascii ['n', 'e', 't']
def wDelay : Bytes := ascii ['d', 'e', 'l', 'a', 'y']
def wObs : Bytes := ascii ['o', 'b', 's']

/-- What the message key is derived with. -/
def macLabel : Bytes :=
  ascii ['h', 'a', 's', 's', 'm', 'i', 'c', ' ', 'a', 'r', 'b', 'i', 't', 'r', 'a', 't', 'i', 'o',
    'n', ' ', 'm', 'a', 'c']

namespace St

variable (C : Crypto) (s : St)

/-! ### Writing -/

/-- The rounds kept of a rival, the oldest first. -/
def oldest (v : Rival) : List Obs :=
  (List.range v.n).map fun k => v.o (Fin.ofNat obsKeep (v.next - v.n + k))

def arbitrateLine : Bytes := wArbitrate ++ [space] ++ decimal (if s.arbitrate then 1 else 0) ++ [lf]

def ctrLine : Bytes := wCtr ++ [space] ++ numeral 10 s.ctrSaved.toNat ++ [lf]

def netLine : Bytes :=
  wNet ++ [space] ++ pad 16 (numeral 16 s.netId.toNat) ++ [space] ++
    b64Encode false true s.netKey.1 ++ [lf]

def delayLine (d : Delay) : Bytes :=
  wDelay ++ [space] ++ hex d.id.1 ++ [space] ++ decimal d.ms.toInt ++ [lf]

/-- One round of a rival. -/
def obsText (o : Obs) : Bytes :=
  [space] ++ decimal o.own.toInt ++ [colon] ++ if o.d = dNone then [minus] else decimal o.d.toInt

def obsLine (v : Rival) : Bytes :=
  wObs ++ [space] ++ hex v.id.1 ++ (oldest v).flatMap obsText ++ [lf]

/-- The samples kept, the oldest first. -/
def keptDelays : List Delay :=
  ((List.range (min s.ndelay nDelay)).map fun k =>
    s.delays (Fin.ofNat nDelay (s.ndelay - nDelay + k))).filter fun d => decide (0 ≤ d.ms)

/-- The lines of the file. -/
def stateLines : List Bytes :=
  [s.arbitrateLine, s.ctrLine] ++ (if s.inNet then [s.netLine] else []) ++
    s.keptDelays.map delayLine ++
    (((List.finRange nPeer).map s.rivals).filter fun v => v.n != 0).map obsLine

/-- What `save` writes. -/
def stateText : Bytes := s.stateLines.flatten

/-- `save`. -/
def save : St := s.log (.saved s.stateText)

/-- `next_ctr`: the state afterwards, whose counter is the one to use. -/
def nextCtr : St :=
  let s := { s with ctr := s.ctr + 1 }
  if s.ctrSaved ≤ s.ctr then { s with ctrSaved := s.ctr + ctrBlock }.save else s

/-! ### Reading -/

/-- `fgets` into a line of `n` characters: the line and what is left. -/
def fgets : ℕ → Bytes → Bytes × Bytes
  | 0, l => ([], l)
  | _ + 1, [] => ([], [])
  | n + 1, c :: l => if c = lf then ([lf], l) else (c :: (fgets n l).1, (fgets n l).2)

/-- The characters a line of `load` holds. -/
def lineLen : ℕ := obsKeep * 24 + 40 - 1

/-- The lines `fgets` gives, at most `k`. -/
def linesLoop : ℕ → Bytes → List Bytes
  | 0, _ => []
  | _ + 1, [] => []
  | k + 1, c :: l => (fgets lineLen (c :: l)).1 :: linesLoop k (fgets lineLen (c :: l)).2

/-- The lines of a file. -/
def lines (l : Bytes) : List Bytes := linesLoop l.length l

/-- `%d` behind a word and white space. -/
def scanInt (w l : Bytes) : Option ℤ := do
  let l ← literal w l
  let r ← signed l
  some r.1

/-- `%16[0-9a-f]`. -/
def scanHex (l : Bytes) : Option (Bytes × Bytes) :=
  let h := (l.takeWhile fun c => value c < 16 && !(0x41 ≤ c && c ≤ 0x46)).take 16
  if h = [] then none else some (h, l.drop h.length)

/-- The bytes that pairs of hexadecimal digits make. -/
def unhex : Bytes → Bytes
  | a :: b :: l => (16 * value a + value b).toUInt8 :: unhex l
  | _ => []

/-- Eight bytes from sixteen digits. -/
def unhex8 (h : Bytes) : Option (Blob 8) :=
  if hl : (unhex h).length = 8 ∧ h.length = 16 then some ⟨unhex h, hl.1⟩ else none

/-- `ctr %llu`. -/
def scanCtr (l : Bytes) : Option UInt64 := do
  let l ← literal wCtr l
  let r ← unsigned 10 l
  some r.1

/-- `net %llx %63s`. -/
def scanNet (l : Bytes) : Option (UInt64 × Bytes) := do
  let l ← literal wNet l
  let r ← unsigned 16 l
  let w := ((r.2.dropWhile isSpace).takeWhile fun c => !isSpace c).take 63
  if w = [] then none else some (r.1, w)

/-- `delay %16[0-9a-f] %d`. -/
def scanDelay (l : Bytes) : Option Delay := do
  let l ← literal wDelay l
  let h ← scanHex (l.dropWhile isSpace)
  let id ← unhex8 h.1
  let r ← signed h.2
  if 0 ≤ r.1 ∧ r.1 ≤ measureMs then some ⟨id, Int32.ofInt r.1⟩ else none

/-- `obs %16[0-9a-f]`, and what follows. -/
def scanObs (l : Bytes) : Option (Blob 8 × Bytes) := do
  let l ← literal wObs l
  let h ← scanHex (l.dropWhile isSpace)
  let id ← unhex8 h.1
  some (id, h.2)

/-- One round of a rival, and what follows. -/
def scanRound (l : Bytes) : Option (Obs × Bytes) := do
  let r ← signed l
  let l ← literal [colon] r.2
  if r.1 < -100000 ∨ 100000 < r.1 then none
  else if l.head? = some minus ∧ (l.drop 1).head? ∈ [some space, some lf, none] then
    some (⟨Int32.ofInt r.1, dNone⟩, l.drop 1)
  else
    let d ← signed l
    if d.1 ≤ dNone.toInt ∨ dPrio.toInt < d.1 then none
    else some (⟨Int32.ofInt r.1, Int32.ofInt d.1⟩, d.2)

/-- The rounds of the rival `i`, at most `k`. -/
def loadRounds (i : Fin nPeer) : ℕ → St → Bytes → St
  | 0, s, _ => s
  | k + 1, s, l =>
      match scanRound l with
      | none => s
      | some r => loadRounds i k (s.observe i r.1.own r.1.d 1) r.2

/-- The message key. -/
def derive : St := { s with macKey := C.keyed32 s.netKey macLabel }

/-- The first bytes of an array written over. -/
def overwrite {n : ℕ} (b : Blob n) (l : Bytes) : Blob n :=
  ⟨l.take n ++ b.1.drop (l.take n).length, by
    rw [List.length_append, List.length_drop, b.2, List.length_take]; omega⟩

/-- A line `net`: the key's characters are decoded in place. -/
def loadNet (id : UInt64) (k64 : Bytes) : St :=
  let r := b64Decode k64 32
  let s := { s with netKey := overwrite s.netKey r.2 }
  if r.1 ∧ r.2.length = 32 then derive C { s with netId := id, inNet := true } else s

/-- A line `obs`. -/
def loadObs (id : Blob 8) (l : Bytes) : St :=
  let r := s.rival id
  let s := loadRounds r.1 l.length r.2 l
  if (s.rivals r.1).n = 0 then
    { s with rivals := Function.update s.rivals r.1 { n_le := Nat.zero_le _ } } else s

/-- What one line of the file says. -/
def loadText (l : Bytes) : St :=
  match (scanInt wArbitrate l).orElse fun _ => scanInt wJoin l with
  | some j => { s with arbitrate := j ≠ 0 }
  | none =>
  match scanCtr l with
  | some v => { s with ctrSaved := v, ctrKnown := true }
  | none =>
  match scanNet l with
  | some r => if r.1 ≠ 0 then loadNet C s r.1 r.2 else s
  | none =>
  match scanDelay l with
  | some d =>
      { s with
        delays := Function.update s.delays (Fin.ofNat nDelay s.ndelay) d
        ndelay := s.ndelay + 1 }
  | none =>
  match scanObs l with
  | some r => s.loadObs r.1 r.2
  | none => s

/-- One line of the file, up to a NUL. -/
def loadLine (line : Bytes) : St := s.loadText C (line.takeWhile (· ≠ nul))

/-- `load` of a file that has this text. -/
def load (text : Bytes) : St := (lines text).foldl (loadLine C) s

/-! ### Reading what was written -/

/-- A line as it is written: its characters and an end. -/
structure IsLine (x : Bytes) : Prop where
  eq : ∃ l, x = l ++ [lf] ∧ l.length < lineLen ∧ ∀ c ∈ l, c ≠ lf ∧ c ≠ nul

theorem fgets_line {l : Bytes} (hlf : ∀ c ∈ l, c ≠ lf) (rest : Bytes) : ∀ {n : ℕ}, l.length < n →
    fgets n (l ++ lf :: rest) = (l ++ [lf], rest) := by
  induction l with
  | nil =>
    intro n hn
    obtain ⟨n, rfl⟩ : ∃ m, n = m + 1 := ⟨n - 1, by simp at hn; omega⟩
    simp [fgets]
  | cons c l ih =>
    intro n hn
    rw [length_cons] at hn
    obtain ⟨n, rfl⟩ : ∃ m, n = m + 1 := ⟨n - 1, by omega⟩
    have hc : c ≠ lf := hlf c (by simp)
    rw [cons_append, fgets, if_neg hc, ih (fun d hd => hlf d (by simp [hd])) (by omega)]
    rfl

theorem linesLoop_flatten {L : List Bytes} (hL : ∀ x ∈ L, IsLine x) : ∀ {k : ℕ},
    L.flatten.length ≤ k → linesLoop k L.flatten = L := by
  induction L with
  | nil =>
    intro k _
    cases k <;> rfl
  | cons x L ih =>
    intro k hk
    obtain ⟨l, rfl, hlen, hchars⟩ := (hL x (by simp)).eq
    rw [flatten_cons, append_assoc, singleton_append] at hk ⊢
    obtain ⟨k, rfl⟩ : ∃ m, k = m + 1 := ⟨k - 1, by simp at hk; omega⟩
    have hget := fgets_line (fun c hc => (hchars c hc).1) L.flatten hlen
    have hcons : ∃ c l', l ++ lf :: L.flatten = c :: l' := by
      cases l with
      | nil => exact ⟨_, _, rfl⟩
      | cons c l => exact ⟨_, _, rfl⟩
    obtain ⟨c, l', hc⟩ := hcons
    rw [hc] at hget ⊢
    rw [linesLoop, hget]
    simp only [List.cons.injEq, true_and]
    apply ih fun y hy => hL y (by simp [hy])
    rw [length_append, length_cons] at hk
    omega

theorem lines_flatten {L : List Bytes} (hL : ∀ x ∈ L, IsLine x) : lines L.flatten = L :=
  linesLoop_flatten hL le_rfl

/-- A character that neither ends a line nor a string. -/
def Plain (c : UInt8) : Prop := c ≠ lf ∧ c ≠ nul

theorem plain_of_value : ∀ {c : UInt8}, value c < 16 → Plain c := by
  unfold Plain
  decide +kernel

theorem plain_numeral {b : ℕ} (hb : 1 < b) (hb' : b ≤ 16) (n : ℕ) : ∀ c ∈ numeral b n, Plain c :=
  fun c hc => plain_of_value (lt_of_lt_of_le (value_numeral hb hb' n c hc) hb')

theorem plain_pad {b : ℕ} (hb : 1 < b) (hb' : b ≤ 16) (k n : ℕ) :
    ∀ c ∈ pad k (numeral b n), Plain c :=
  fun c hc => plain_of_value (lt_of_lt_of_le (value_pad hb hb' k n c hc) hb')

theorem plain_decimal (v : ℤ) : ∀ c ∈ decimal v, Plain c := by
  intro c hc
  rcases mem_append.mp hc with h | h
  · split at h
    · rw [mem_singleton.mp h]
      exact ⟨by decide, by decide⟩
    · exact absurd h (by simp)
  · exact plain_numeral (by omega) (by omega) _ c h

theorem plain_hex (l : Bytes) : ∀ c ∈ hex l, Plain c := by
  intro c hc
  obtain ⟨b, -, hb⟩ := mem_flatMap.mp hc
  have hlt := b.toNat_lt
  rcases mem_cons.mp hb with rfl | hb
  · exact plain_of_value (by rw [value_digit _ (by omega)]; omega)
  · rw [mem_singleton.mp hb]
    exact plain_of_value (by rw [value_digit _ (by omega)]; omega)

theorem plain_b64Encode (l : Bytes) : ∀ c ∈ b64Encode false true l, Plain c := by
  refine forall_mem_b64Encode (q := Plain) ?_ ⟨by decide, by decide⟩ l
  unfold Plain
  decide

/-! The lengths of the lines. -/

theorem length_obsText_le (o : Obs) : (obsText o).length ≤ 24 := by
  have hown := length_decimal_le o.own
  have hd := length_decimal_le o.d
  unfold obsText
  split <;> simp <;> omega

theorem length_flatMap_obsText_le (L : List Obs) : (L.flatMap obsText).length ≤ 24 * L.length := by
  induction L with
  | nil => simp
  | cons o L ih =>
    have := length_obsText_le o
    rw [flatMap_cons, length_append, length_cons]
    omega

/-- A line made of a word and plain characters. -/
theorem isLine_of_plain {l : Bytes} (hlen : l.length < lineLen) (h : ∀ c ∈ l, Plain c) :
    IsLine (l ++ [lf]) :=
  ⟨l, rfl, hlen, h⟩

theorem plain_append {l l' : Bytes} (h : ∀ c ∈ l, Plain c) (h' : ∀ c ∈ l', Plain c) :
    ∀ c ∈ l ++ l', Plain c := by
  intro c hc
  rcases mem_append.mp hc with hc | hc
  · exact h c hc
  · exact h' c hc

theorem plain_space : ∀ c ∈ [space], Plain c := by
  intro c hc
  rw [mem_singleton.mp hc]
  exact ⟨by decide, by decide⟩

/-- The words and the space behind them. -/
theorem plain_word {w : Bytes} (hw : w ∈ [wArbitrate, wCtr, wNet, wDelay, wObs]) :
    (∀ c ∈ w ++ [space], Plain c) ∧ (w ++ [space]).length ≤ 10 := by
  unfold Plain
  revert w
  decide +kernel

theorem isLine_arbitrateLine : IsLine s.arbitrateLine := by
  obtain ⟨hplain, hlen⟩ := plain_word (w := wArbitrate) (by simp)
  have hnum : (decimal (if s.arbitrate then 1 else 0)).length = 1 := by
    split <;> decide
  apply isLine_of_plain
  · rw [length_append, hnum]
    exact lt_of_le_of_lt (Nat.add_le_add_right hlen 1) (by decide)
  · exact plain_append hplain (plain_decimal _)

theorem isLine_ctrLine : IsLine s.ctrLine := by
  obtain ⟨hplain, hlen⟩ := plain_word (w := wCtr) (by simp)
  have hnum : (numeral 10 s.ctrSaved.toNat).length ≤ 20 :=
    length_numeral_le (by omega) (by omega) (lt_trans s.ctrSaved.toNat_lt (by norm_num))
  apply isLine_of_plain
  · rw [length_append]
    exact lt_of_le_of_lt (Nat.add_le_add hlen hnum) (by decide)
  · exact plain_append hplain (plain_numeral (by omega) (by omega) _)

theorem length_netId : (pad 16 (numeral 16 s.netId.toNat)).length = 16 := by
  have hnum : (numeral 16 s.netId.toNat).length ≤ 16 :=
    length_numeral_le (by omega) (by omega) (lt_of_lt_of_eq s.netId.toNat_lt (by norm_num))
  rw [pad, length_append, length_replicate]
  omega

theorem isLine_netLine : IsLine s.netLine := by
  obtain ⟨hplain, hlen⟩ := plain_word (w := wNet) (by simp)
  have hid := s.length_netId
  have hkey := length_b64Encode false s.netKey.1
  rw [s.netKey.2] at hkey
  apply isLine_of_plain
  · simp only [length_append, length_singleton] at hlen ⊢
    have : lineLen = 1575 := rfl
    omega
  · exact plain_append (plain_append (plain_append hplain (plain_pad (by omega) (by omega) _ _))
      plain_space) (plain_b64Encode _)

theorem isLine_delayLine (d : Delay) : IsLine (delayLine d) := by
  obtain ⟨hplain, hlen⟩ := plain_word (w := wDelay) (by simp)
  have hms := length_decimal_le d.ms
  have hid : (hex d.id.1).length = 16 := by rw [length_hex, d.id.2]
  apply isLine_of_plain
  · simp only [length_append, length_singleton] at hlen ⊢
    have : lineLen = 1575 := rfl
    omega
  · exact plain_append (plain_append (plain_append hplain (plain_hex _)) plain_space)
      (plain_decimal _)

theorem plain_obsText (o : Obs) : ∀ c ∈ obsText o, Plain c := by
  have hcolon : ∀ c ∈ [colon], Plain c := by
    intro c hc
    rw [mem_singleton.mp hc]
    exact ⟨by decide, by decide⟩
  refine plain_append (plain_append (plain_append plain_space (plain_decimal _)) hcolon) ?_
  split
  · intro c hc
    rw [mem_singleton.mp hc]
    exact ⟨by decide, by decide⟩
  · exact plain_decimal _

theorem isLine_obsLine (v : Rival) : IsLine (obsLine v) := by
  obtain ⟨hplain, hlen⟩ := plain_word (w := wObs) (by simp)
  have hobs := length_flatMap_obsText_le (oldest v)
  have hn : v.n ≤ 64 := v.n_le
  have hid : (hex v.id.1).length = 16 := by rw [length_hex, v.id.2]
  have holdest : (oldest v).length = v.n := by simp [oldest]
  apply isLine_of_plain
  · simp only [length_append, length_singleton] at hlen ⊢
    have : lineLen = 1575 := rfl
    omega
  · refine plain_append (plain_append hplain (plain_hex _)) fun c hc => ?_
    obtain ⟨o, -, ho⟩ := mem_flatMap.mp hc
    exact plain_obsText o c ho

theorem isLine_stateLines : ∀ x ∈ s.stateLines, IsLine x := by
  intro x hx
  simp only [stateLines, mem_append, List.mem_map, mem_cons, not_mem_nil,
    or_false] at hx
  rcases hx with (((rfl | rfl) | hx) | ⟨d, -, rfl⟩) | ⟨v, -, rfl⟩
  · exact s.isLine_arbitrateLine
  · exact s.isLine_ctrLine
  · split at hx
    · rw [mem_singleton.mp hx]
      exact s.isLine_netLine
    · exact absurd hx (by simp)
  · exact isLine_delayLine d
  · exact isLine_obsLine v

/-- The lines read are the lines written. -/
theorem lines_stateText : lines s.stateText = s.stateLines := lines_flatten s.isLine_stateLines

/-! What each line does. -/

/-- What the file keeps besides samples and rivals. -/
structure Kept where
  arbitrate : Bool
  ctrSaved : UInt64
  ctrKnown : Bool
  inNet : Bool
  netId : UInt64
  netKey : Blob 32
  macKey : Blob 32

/-- That part of a state. -/
def kept : Kept := ⟨s.arbitrate, s.ctrSaved, s.ctrKnown, s.inNet, s.netId, s.netKey, s.macKey⟩

theorem takeWhile_plain {l : Bytes} (h : ∀ c ∈ l, Plain c) :
    (l ++ [lf]).takeWhile (· ≠ nul) = l ++ [lf] := by
  rw [takeWhile_eq_self_iff]
  intro c hc
  rcases mem_append.mp hc with hc | hc
  · simpa using (h c hc).2
  · rw [mem_singleton.mp hc]
    decide

theorem IsLine.takeWhile {x : Bytes} (h : IsLine x) : x.takeWhile (· ≠ nul) = x := by
  obtain ⟨l, rfl, -, hl⟩ := h.eq
  exact takeWhile_plain hl

theorem kept_observe (i : Fin nPeer) (own d : Int32) (at_ : ℤ) :
    (s.observe i own d at_).kept = s.kept := rfl

theorem kept_rival (id : Blob 8) : (s.rival id).2.kept = s.kept := by
  unfold rival
  split <;> rfl

theorem kept_loadRounds (i : Fin nPeer) (k : ℕ) (l : Bytes) :
    (loadRounds i k s l).kept = s.kept := by
  induction k generalizing s l with
  | zero => rfl
  | succ k ih =>
    rw [loadRounds]
    split
    · rfl
    · rw [ih, kept_observe]

theorem kept_loadObs (id : Blob 8) (l : Bytes) : (s.loadObs id l).kept = s.kept := by
  have h : (loadRounds (s.rival id).1 l.length (s.rival id).2 l).kept = s.kept := by
    rw [kept_loadRounds, kept_rival]
  unfold loadObs
  simp only
  split
  · exact h
  · exact h

/-- Lines of samples and of rivals leave the rest as it is. -/
theorem kept_loadLine {x l : Bytes} {c : UInt8} (hx : IsLine x) (hc : x = c :: l)
    (hhead : c = 0x64 ∨ c = 0x6f) : (loadLine C s x).kept = s.kept := by
  have ha : literal wArbitrate x = none := by
    rw [hc]
    exact literal_ne (by rcases hhead with rfl | rfl <;> decide) _ _
  have hj : literal wJoin x = none := by
    rw [hc]
    exact literal_ne (by rcases hhead with rfl | rfl <;> decide) _ _
  have hr : literal wCtr x = none := by
    rw [hc]
    exact literal_ne (by rcases hhead with rfl | rfl <;> decide) _ _
  have hn : literal wNet x = none := by
    rw [hc]
    exact literal_ne (by rcases hhead with rfl | rfl <;> decide) _ _
  rw [loadLine, hx.takeWhile, loadText]
  simp only [scanInt, scanCtr, scanNet, ha, hj, hr, hn, bind_eq_bind, bind_none,
    orElse_none]
  split
  · rfl
  · split
    · exact kept_loadObs s _ _
    · rfl

theorem kept_foldl {L : List Bytes} (hL : ∀ x ∈ L, ∀ t, (loadLine C t x).kept = t.kept) :
    (L.foldl (loadLine C) s).kept = s.kept := by
  induction L generalizing s with
  | nil => rfl
  | cons x L ih =>
    rw [foldl_cons, ih _ fun y hy => hL y (by simp [hy]), hL x (by simp)]

theorem loadLine_arbitrateLine (t : St) :
    loadLine C t s.arbitrateLine = { t with arbitrate := s.arbitrate } := by
  have hscan : scanInt wArbitrate s.arbitrateLine = some (if s.arbitrate then 1 else 0) := by
    unfold arbitrateLine
    cases s.arbitrate <;> decide
  rw [loadLine, s.isLine_arbitrateLine.takeWhile, loadText, hscan]
  cases s.arbitrate <;> rfl

theorem scanCtr_ctrLine : scanCtr s.ctrLine = some s.ctrSaved := by
  have hline : s.ctrLine = wCtr ++ (space :: (numeral 10 s.ctrSaved.toNat ++ [lf])) := by
    simp [ctrLine]
  have hscan : unsigned 10 (numeral 10 s.ctrSaved.toNat ++ [lf]) = some (s.ctrSaved, [lf]) := by
    apply unsigned_digits (by omega) (numeral_ne_nil _ _)
    · exact value_numeral (by omega) (by omega) _
    · exact ends_of_head (by omega) (by decide) _
    · exact fun h => absurd h (by omega)
    · exact ofDigits_numeral (by omega) (by omega) _
  rw [hline, scanCtr, literal_append]
  simp only [bind_eq_bind, bind_some]
  rw [unsigned_space, hscan]
  rfl

theorem loadLine_ctrLine (t : St) :
    loadLine C t s.ctrLine = { t with ctrSaved := s.ctrSaved, ctrKnown := true } := by
  have hhead : ∃ l, s.ctrLine = 0x63 :: l := ⟨_, rfl⟩
  obtain ⟨l, hl⟩ := hhead
  have ha : literal wArbitrate s.ctrLine = none := by
    rw [hl]
    exact literal_ne (by decide) _ _
  have hj : literal wJoin s.ctrLine = none := by
    rw [hl]
    exact literal_ne (by decide) _ _
  rw [loadLine, s.isLine_ctrLine.takeWhile, loadText, scanCtr_ctrLine]
  simp only [scanInt, ha, hj, bind_eq_bind, bind_none, orElse_none]

theorem scanNet_netLine :
    scanNet s.netLine = some (s.netId, b64Encode false true s.netKey.1) := by
  set k64 := b64Encode false true s.netKey.1 with hk64
  have hlen : k64.length = 44 := by rw [hk64, length_b64Encode, s.netKey.2]
  have hsp : ∀ c ∈ k64, isSpace c = false :=
    forall_mem_b64Encode (q := fun c => isSpace c = false) (by decide) (by decide) _
  have hline : s.netLine
      = wNet ++ (space :: (pad 16 (numeral 16 s.netId.toNat) ++ (space :: (k64 ++ [lf])))) := by
    simp [netLine, hk64]
  have hscan : unsigned 16 (pad 16 (numeral 16 s.netId.toNat) ++ (space :: (k64 ++ [lf])))
      = some (s.netId, space :: (k64 ++ [lf])) := by
    apply unsigned_digits le_rfl
    · intro hnil
      have := s.length_netId
      rw [hnil] at this
      exact absurd this (by simp)
    · exact value_pad (by omega) le_rfl _ _
    · exact ends_of_head le_rfl (by decide) _
    · intro _ hone
      have := s.length_netId
      rw [hone] at this
      exact absurd this (by simp)
    · exact ofDigits_pad (by omega) le_rfl _ _
  have hdrop : (space :: (k64 ++ [lf])).dropWhile isSpace = k64 ++ [lf] := by
    rw [dropWhile_cons, if_pos (by decide)]
    obtain ⟨c, l, hc⟩ : ∃ c l, k64 = c :: l :=
      exists_cons_of_ne_nil (by intro h; rw [h] at hlen; exact absurd hlen (by simp))
    rw [hc, cons_append, dropWhile_cons, if_neg (by simp [hsp c (by simp [hc])])]
  have htake : (k64 ++ [lf]).takeWhile (fun c => !isSpace c) = k64 := by
    rw [takeWhile_append_of_pos fun c hc => by simp [hsp c hc],
      takeWhile_cons, if_neg (by decide), append_nil]
  have hne : k64.take 63 = k64 := take_of_length_le (by omega)
  rw [hline, scanNet, literal_append]
  simp only [bind_eq_bind, bind_some, unsigned_space, hscan, hdrop, htake, hne]
  rw [if_neg (by intro h; rw [h] at hlen; exact absurd hlen (by simp))]

/-- The line of the network starts with no other word. -/
theorem literal_netLine :
    literal wArbitrate s.netLine = none ∧ literal wJoin s.netLine = none ∧
    literal wCtr s.netLine = none := by
  obtain ⟨l, hl⟩ : ∃ l, s.netLine = 0x6e :: l := ⟨_, rfl⟩
  rw [hl]
  exact ⟨literal_ne (by decide) _ _, literal_ne (by decide) _ _, literal_ne (by decide) _ _⟩

theorem loadLine_netLine (t : St) (hid : s.netId ≠ 0) : loadLine C t s.netLine
    = derive C { t with netKey := s.netKey, netId := s.netId, inNet := true } := by
  obtain ⟨ha, hj, hr⟩ := s.literal_netLine
  have hkey : b64Decode (b64Encode false true s.netKey.1) 32 = (true, s.netKey.1) :=
    b64Decode_b64Encode false true (by rw [s.netKey.2])
  have hover : overwrite t.netKey s.netKey.1 = s.netKey := by
    apply Subtype.ext
    have htake : s.netKey.1.take 32 = s.netKey.1 := take_of_length_le (by rw [s.netKey.2])
    rw [overwrite]
    simp only [htake, s.netKey.2]
    rw [drop_of_length_le (by rw [t.netKey.2]), append_nil]
  rw [loadLine, s.isLine_netLine.takeWhile, loadText, scanNet_netLine]
  simp only [scanInt, scanCtr, ha, hj, hr, bind_eq_bind, bind_none,
    orElse_none]
  rw [if_pos hid, loadNet, hkey]
  simp only [hover, s.netKey.2]
  simp

/-- **The counter and the network are restored**, whatever was there before, as
long as the network's id is not `0`. -/
theorem load_stateText (t : St) (hid : s.inNet → s.netId ≠ 0) :
    (load C t s.stateText).kept =
      { arbitrate := s.arbitrate, ctrSaved := s.ctrSaved, ctrKnown := true
        inNet := s.inNet || t.inNet
        netId := if s.inNet then s.netId else t.netId
        netKey := if s.inNet then s.netKey else t.netKey
        macKey := if s.inNet then C.keyed32 s.netKey macLabel else t.macKey } := by
  have hrest : ∀ x ∈ s.keptDelays.map delayLine ++
      (((List.finRange nPeer).map s.rivals).filter fun v => v.n != 0).map obsLine,
      ∀ t, (loadLine C t x).kept = t.kept := by
    intro x hx t
    rcases mem_append.mp hx with h | h
    · obtain ⟨d, -, rfl⟩ := mem_map.mp h
      exact kept_loadLine C t (isLine_delayLine d) rfl (.inl rfl)
    · obtain ⟨v, -, rfl⟩ := mem_map.mp h
      exact kept_loadLine C t (isLine_obsLine v) rfl (.inr rfl)
  rw [load, lines_stateText, stateLines, append_assoc, append_assoc, foldl_append,
    foldl_append, kept_foldl C _ hrest, foldl_cons, foldl_cons, foldl_nil,
    loadLine_arbitrateLine, loadLine_ctrLine]
  cases hin : s.inNet with
  | false => rfl
  | true =>
    rw [if_pos rfl, foldl_cons, foldl_nil, loadLine_netLine C s _ (hid hin)]
    rfl

/-! ### What a file does not speak of -/

/-- The network of a file has an id. -/
def Numbered : Prop := s.inNet = true → s.netId ≠ 0

theorem numbered_loadLine (line : Bytes) (h : s.Numbered) : (loadLine C s line).Numbered := by
  unfold loadLine loadText
  split
  · exact h
  split
  · exact h
  split
  · next r _ =>
    split
    · next hid =>
      unfold loadNet
      simp only
      split
      · exact fun _ => hid
      · exact h
    · exact h
  split
  · exact h
  split
  · next r _ =>
    have hkept := s.kept_loadObs r.1 r.2
    intro hin
    rw [show (s.loadObs r.1 r.2).netId = s.netId from congrArg Kept.netId hkept]
    exact h ((congrArg Kept.inNet hkept).symm.trans hin)
  · exact h

theorem numbered_load (text : Bytes) (h : s.Numbered) : (load C s text).Numbered := by
  unfold load
  generalize lines text = L
  induction L generalizing s with
  | nil => exact h
  | cons x L ih => exact ih _ (s.numbered_loadLine C x h)

/-- What `load` leaves alone. -/
def unread :=
  (s.pace, s.running, s.node, s.peers, s.claims, s.cands, s.preqs, s.giveLeft, s.round, s.out)

theorem unread_loadRounds (i : Fin nPeer) (k : ℕ) (l : Bytes) :
    (loadRounds i k s l).unread = s.unread := by
  induction k generalizing s l with
  | zero => rfl
  | succ k ih =>
    rw [loadRounds]
    split
    · rfl
    · rw [ih]
      rfl

theorem unread_loadObs (id : Blob 8) (l : Bytes) : (s.loadObs id l).unread = s.unread := by
  have hrival : (s.rival id).2.unread = s.unread := by
    unfold rival
    split <;> rfl
  have h := (unread_loadRounds (s.rival id).2 (s.rival id).1 l.length l).trans hrival
  unfold loadObs
  simp only
  split
  · exact h
  · exact h

theorem unread_loadLine (line : Bytes) : (loadLine C s line).unread = s.unread := by
  unfold loadLine loadText
  split
  · rfl
  split
  · rfl
  split
  · split
    · unfold loadNet
      simp only
      split
      · rfl
      · rfl
    · rfl
  split
  · rfl
  split
  · exact s.unread_loadObs _ _
  · rfl

theorem unread_load (text : Bytes) : (load C s text).unread = s.unread := by
  unfold load
  generalize lines text = L
  induction L generalizing s with
  | nil => rfl
  | cons x L ih => rw [foldl_cons, ih, unread_loadLine]

end St

end Hassmic.Arb
