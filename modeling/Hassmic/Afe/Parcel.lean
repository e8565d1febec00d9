import Hassmic.Lib.Text
import Hassmic.Lib.Wire

/-!
# The printed reply of a service

Android's tool prints the reply of a service as a dump of its words, with the same bytes as
characters behind them, and the words are read back from the text.  A line of a longer dump is told
by its offset, but a line that shows `Parcel(` among its characters is taken for the first one, and
its words are lost.

## Main definitions

* `svcReplyWords`, `afeCallReply` — the words that are read, and the bytes of an array among them.
* `Layout`, `printed` — how a reply is printed.

## Main results

* `row_read` — what is read of one line: its words, or fewer where it imitates the first line.
* `svcReplyWords_printed` — **when a reply is read back**.
-/

namespace Hassmic.Afe

open Byte Text List Option

variable {w l p r : Bytes} {q : UInt8}

abbrev apostrophe : UInt8 := 0x27
abbrev rparen : UInt8 := 0x29

/-! ### Reading -/

/-- A digit of a word. -/
def lowerHex (c : UInt8) : Bool := c ∈ text "0123456789abcdef"

/-- What a reply starts with. -/
def parcel : Bytes := text "Parcel("

/-- `%8x`: up to eight characters of a number behind white space, and the rest. -/
def scanHex (l : Bytes) : Option (UInt32 × Bytes) :=
  let l := l.dropWhile Text.isSpace
  (Text.integer 16 (l.take 8)).map fun r =>
    (if r.1 then -UInt32.ofNat r.2.1 else UInt32.ofNat r.2.1, r.2.2 ++ l.drop 8)

/-- `0x%8x: `: what is behind it, where all of it is there. -/
def scanOffset (s : Bytes) : Option Bytes :=
  (Text.literal (text "0x") s).bind fun s => (scanHex s).bind fun r =>
    (Text.literal [colon] r.2).map fun s => s.dropWhile Text.isSpace

/-- A word ends here. -/
def ended : Bytes → Bool
  | [] => true
  | c :: _ => c = space ∨ c = lf ∨ c = rparen

/-- What is behind a space, if there is one. -/
def afterSpace : Bytes → Bytes
  | [] => []
  | c :: s => if c = space then s else c :: s

/-- The words from `s` on, up to the room for them. -/
def wordsFrom : ℕ → Bytes → List UInt32
  | 0, _ => []
  | room + 1, s =>
      if (s.takeWhile lowerHex).length ≠ 8 ∨ ¬ ended (s.drop 8) then []
      else
        match scanHex s with
        | none => []
        | some (v, rest) =>
            if s.length - rest.length ≠ 8 then [] else v :: wordsFrom room (afterSpace (s.drop 8))

/-- `strchr(line, '\n')`. -/
def newline (line : Bytes) : Option ℕ := line.findIdx? (· == lf)

/-- The words of a dump. -/
theorem words_eq : parcel = [0x50, 0x61, 0x72, 0x63, 0x65, 0x6c, 0x28] ∧ text "0x" = [0x30, 0x78] ∧
    text "Result: Parcel(" = [0x52, 0x65, 0x73, 0x75, 0x6c, 0x74, 0x3a, 0x20] ++ parcel := by
  decide +kernel

theorem parcel_eq : parcel = [0x50, 0x61, 0x72, 0x63, 0x65, 0x6c, 0x28] := words_eq.1

theorem length_parcel : parcel.length = 7 := by rw [parcel_eq]; rfl

/-- Where the words of a line start: behind `Parcel(` on it, behind an offset, or behind both. -/
def wordsAt (line : Bytes) : Option Bytes :=
  let here := (strstr parcel line).filter fun p => (newline line).all (p < ·)
  let s := (match here with
    | some p => line.drop (p + parcel.length)
    | none => line).dropWhile (· == space)
  match scanOffset s with
  | some s => some s
  | none => if here.isSome then some s else none

/-- The words of a line. -/
def lineWords (room : ℕ) (line : Bytes) : List UInt32 :=
  match wordsAt line with
  | none => []
  | some s => wordsFrom room s

/-- The text behind a line. -/
def nextLine (line : Bytes) : Bytes :=
  match newline line with
  | none => []
  | some i => line.drop (i + 1)

theorem length_nextLine_lt {line : Bytes} (h : line ≠ []) :
    (nextLine line).length < line.length := by
  have hpos := length_pos_iff.mpr h
  unfold nextLine
  split
  · exact hpos
  · rw [length_drop]
    omega

/-- The loop over the lines, with the words so far. -/
def replyLoop (max : ℕ) (line : Bytes) (w : List UInt32) : List UInt32 :=
  if _h : line = [] then w else replyLoop max (nextLine line) (w ++ lineWords (max - w.length) line)
termination_by line.length
decreasing_by exact length_nextLine_lt _h

/-- `svc_reply_words`. -/
def svcReplyWords (text : Bytes) (max : ℕ) : List UInt32 := replyLoop max text []

/-- `afe_call_reply`, into a buffer of `cap` bytes. -/
def afeCallReply (text : Bytes) (cap : ℕ) : Option Bytes :=
  match svcReplyWords text 1100 with
  | exception :: status :: len :: w =>
      if exception ≠ 0 ∨ status ≠ 0 then none
      else if len = 0xffffffff then some []
      else if w.length * 4 < len.toNat then none
      else
        let n := min len.toNat ((cap + (2 ^ 32 - 1)) % 2 ^ 32)
        some ((List.range n).map fun i => (w.getD (i / 4) 0 >>> UInt32.ofNat (8 * (i % 4))).toUInt8)
  | _ => none

/-! ### Printing -/

/-- How a reply is printed: the words that go on one line, the spaces before an offset, the spaces
in place of further words and characters, on one line and on a line with an offset, and whether the
end has a line of its own. -/
structure Layout where
  single : ℕ
  indent : ℕ
  lineGap : ℕ → ℕ
  lineFill : ℕ → ℕ
  rowGap : ℕ → ℕ
  rowFill : ℕ → ℕ
  ownLine : Bool

/-- `%08x`. -/
def hex8 (n : ℕ) : Bytes := Text.pad 8 (Text.numeral 16 (n % 2 ^ 32))

/-- A byte as a character. -/
def ascii (c : UInt8) : UInt8 := if 0x20 ≤ c ∧ c < 0x7f then c else dot

/-- The bytes of words. -/
def wordBytes (ws : List UInt32) : Bytes := ws.flatMap fun v => Wire.le 4 v.toNat

/-- Words, each with a space behind it. -/
def wordsText (ws : List UInt32) : Bytes := ws.flatMap fun v => hex8 v.toNat ++ [space]

/-- Words and their characters in quotes. -/
def dumpLine (ws : List UInt32) (gap fill : ℕ) : Bytes :=
  wordsText ws ++ (replicate gap space ++
    apostrophe :: ((wordBytes ws).map ascii ++ (replicate fill space ++ [apostrophe])))

/-- The rows of a dump: four words each. -/
def rowsOf : List UInt32 → List (List UInt32)
  | a :: b :: c :: d :: e :: ws => [a, b, c, d] :: rowsOf (e :: ws)
  | ws => [ws]

/-- A row with its offset. -/
def rowText (L : Layout) (off : ℕ) (r : List UInt32) : Bytes :=
  replicate L.indent space ++ (text "0x" ++ (hex8 off ++ (colon :: space ::
    dumpLine r (L.rowGap r.length) (L.rowFill r.length))))

/-- The rows, each on a line of its own. -/
def rowsText (L : Layout) : ℕ → List (List UInt32) → Bytes
  | _, [] => []
  | off, r :: rs => lf :: (rowText L off r ++ rowsText L (off + 16) rs)

/-- What stands between the parentheses. -/
def dump (L : Layout) (ws : List UInt32) : Bytes :=
  if ws = [] then text "NULL"
  else if ws.length ≤ L.single then dumpLine ws (L.lineGap ws.length) (L.lineFill ws.length)
  else rowsText L 0 (rowsOf ws) ++ if L.ownLine then [lf] else []

/-- **A printed reply.** -/
def printed (L : Layout) (ws : List UInt32) : Bytes :=
  text "Result: Parcel(" ++ (dump L ws ++ [rparen, lf])

/-- The tool's own layout, with 16 bytes on one line.  The comment in the source says 32: `single`
would be 8. -/
def tool : Layout where
  single := 4
  indent := 2
  lineGap n := 4 - n
  lineFill _ := 0
  rowGap n := 9 * (4 - n)
  rowFill n := 16 - 4 * n
  ownLine := false

/-! ### Characters -/

theorem offset_eq : text "0x" = [0x30, 0x78] := words_eq.2.1

/-- Of the digits and some other characters. -/
theorem lowerHex_facts :
    (lowerHex apostrophe = false ∧ lowerHex space = false ∧ lowerHex lf = false) ∧
    ∀ {c : UInt8}, lowerHex c = true →
    Text.isSpace c = false ∧ c ≠ space ∧ c ≠ lf ∧ c ≠ 0x50 ∧ c ≠ 0x78 := by
  decide +kernel

theorem lowerHex_other : lowerHex apostrophe = false ∧ lowerHex space = false ∧
    lowerHex lf = false := lowerHex_facts.1

theorem of_lowerHex {c : UInt8} (h : lowerHex c = true) :
    Text.isSpace c = false ∧ c ≠ space ∧ c ≠ lf ∧ c ≠ 0x50 ∧ c ≠ 0x78 := lowerHex_facts.2 h

/-- There is no digit at the start. -/
theorem takeWhile_stop {c : UInt8} (hc : lowerHex c = false) (s : Bytes) :
    (c :: s).takeWhile lowerHex = [] :=
  takeWhile_cons_of_neg (by rw [hc]; decide)

/-! ### What a scan skips -/

/-- `s` is behind a part of `l` without an apostrophe. -/
def Skips (l s : Bytes) : Prop := ∃ u, l = u ++ s ∧ apostrophe ∉ u

theorem Skips.refl (l : Bytes) : Skips l l := ⟨[], rfl, not_mem_nil⟩

theorem Skips.trans {m : Bytes} (h : Skips l m) (h' : Skips m r) : Skips l r := by
  obtain ⟨u, rfl, hu⟩ := h
  obtain ⟨v, rfl, hv⟩ := h'
  refine ⟨u ++ v, (append_assoc u v r).symm, ?_⟩
  rw [mem_append, not_or]
  exact ⟨hu, hv⟩

/-- An apostrophe is not skipped. -/
theorem Skips.split (h : Skips (p ++ apostrophe :: r) l) :
    ∃ p', p' <:+ p ∧ l = p' ++ apostrophe :: r := by
  obtain ⟨u, hu, hmem⟩ := h
  rcases append_eq_append_iff.mp hu with ⟨t, rfl, ht⟩ | ⟨t, rfl, ht⟩
  · cases t with
    | nil => exact ⟨[], nil_suffix, ht.symm⟩
    | cons c t =>
      obtain ⟨rfl, -⟩ := List.cons.inj ht
      exact absurd (mem_append_right p mem_cons_self) hmem
  · exact ⟨t, suffix_append u t, ht⟩

theorem skips_dropWhile {f : UInt8 → Bool} (hf : f apostrophe = false) (l : Bytes) :
    Skips l (l.dropWhile f) := by
  refine ⟨l.takeWhile f, takeWhile_append_dropWhile.symm, fun hmem => ?_⟩
  have htrue := mem_takeWhile_imp hmem
  rw [hf] at htrue
  cases htrue

theorem skips_literal (hw : apostrophe ∉ w) (h : Text.literal w l = some r) : Skips l r := by
  unfold Text.literal at h
  split at h
  · next hpre =>
    obtain ⟨t, rfl⟩ := hpre
    rw [drop_left] at h
    exact ⟨w, by rw [some.inj h], hw⟩
  · cases h

/-- A number has no apostrophe. -/
theorem skips_integer {v : Bool × ℕ × Bytes} (h : Text.integer 16 l = some v) : Skips l v.2.2 := by
  have hsign : ∀ l : Bytes, Skips l (Text.sign l).2 := by
    intro l
    unfold Text.sign
    split
    · exact Skips.refl _
    · next c l =>
      split
      · next hc => exact ⟨[c], rfl, by rw [hc]; decide⟩
      · split
        · next hc => exact ⟨[c], rfl, by rw [hc]; decide⟩
        · exact Skips.refl _
  have hradix : ∀ l : Bytes, Skips l (Text.radix 16 l) := by
    intro l
    unfold Text.radix
    split
    · split
      · next c d l' hc =>
        refine ⟨[0x30, c], rfl, ?_⟩
        rcases hc.2.1 with rfl | rfl <;> decide
      · exact Skips.refl _
    · exact Skips.refl _
  unfold Text.integer at h
  dsimp only at h
  split at h
  · cases h
  · rw [← some.inj h]
    refine ((skips_dropWhile (f := Text.isSpace) (by decide) l).trans (hsign _)).trans
      ((hradix _).trans ?_)
    generalize Text.radix 16 (Text.sign (l.dropWhile Text.isSpace)).2 = l
    refine ⟨Text.digits 16 l, prefix_append_drop (List.takeWhile_prefix _), fun hmem => ?_⟩
    exact absurd (mem_takeWhile_imp hmem) (by decide)

theorem skips_scanHex {v : UInt32 × Bytes} (h : scanHex l = some v) : Skips l v.2 := by
  obtain ⟨x, hx, rfl⟩ := map_eq_some_iff.mp h
  obtain ⟨u, hu, hmem⟩ := skips_integer hx
  refine (skips_dropWhile (f := Text.isSpace) (by decide) l).trans ⟨u, ?_, hmem⟩
  dsimp only
  rw [← append_assoc, ← hu, take_append_drop]

theorem skips_scanOffset (h : scanOffset l = some r) : Skips l r := by
  obtain ⟨a, ha, h⟩ := bind_eq_some_iff.mp h
  obtain ⟨b, hb, h⟩ := bind_eq_some_iff.mp h
  obtain ⟨c, hc, rfl⟩ := map_eq_some_iff.mp h
  refine ((skips_literal (by rw [offset_eq]; decide) ha).trans (skips_scanHex hb)).trans ?_
  exact (skips_literal (by decide) hc).trans (skips_dropWhile (by decide) c)

/-! ### Words -/

theorem takeWhile_apostrophe (p r : Bytes) :
    (p ++ apostrophe :: r).takeWhile lowerHex = p.takeWhile lowerHex := by
  have hstop : (apostrophe :: r).takeWhile lowerHex = [] := takeWhile_stop lowerHex_other.1 r
  rw [takeWhile_append, hstop, append_nil]
  split
  · next h => exact ((List.takeWhile_prefix _).eq_of_length h).symm
  · rfl

theorem afterSpace_apostrophe (p r : Bytes) :
    afterSpace (p ++ apostrophe :: r) = afterSpace p ++ apostrophe :: r := by
  cases p with
  | nil => rfl
  | cons c p =>
    rw [cons_append, afterSpace, afterSpace]
    split <;> rfl

/-- The words before an apostrophe are no more than their digits. -/
theorem length_wordsFrom_le : ∀ (room : ℕ) (p : Bytes),
    8 * (wordsFrom room (p ++ apostrophe :: r)).length ≤ p.countP lowerHex := by
  intro room
  induction room with
  | zero =>
    intro p
    exact Nat.zero_le _
  | succ room ih =>
    intro p
    unfold wordsFrom
    split
    · exact Nat.zero_le _
    · next h8 =>
      rw [not_or, not_not, takeWhile_apostrophe] at h8
      obtain ⟨hlen, -⟩ := h8
      split
      · exact Nat.zero_le _
      · split
        · exact Nat.zero_le _
        · -- the eight digits are before the apostrophe
          have hsplit : p.takeWhile lowerHex ++ p.dropWhile lowerHex = p :=
            takeWhile_append_dropWhile
          have hdigits : (p.takeWhile lowerHex).countP lowerHex = 8 := by
            rw [← hlen, countP_eq_length]
            intro c hc
            exact mem_takeWhile_imp hc
          generalize p.takeWhile lowerHex = u at hlen hsplit hdigits
          generalize p.dropWhile lowerHex = p' at hsplit
          have hafter : (afterSpace p').countP lowerHex ≤ p'.countP lowerHex := by
            cases p' with
            | nil => exact Nat.le_refl _
            | cons c p' =>
              rw [afterSpace]
              split
              · exact (sublist_cons_self c p').countP_le
              · exact Nat.le_refl _
          have hrest := ih (afterSpace p')
          rw [← hsplit, append_assoc, drop_left' hlen, afterSpace_apostrophe, length_cons,
            countP_append]
          omega

/-- No more words than there is room for. -/
theorem length_wordsFrom_le_room : ∀ (room : ℕ) (s : Bytes), (wordsFrom room s).length ≤ room := by
  intro room
  induction room with
  | zero =>
    intro s
    exact Nat.le_refl 0
  | succ room ih =>
    intro s
    unfold wordsFrom
    split
    · exact Nat.zero_le _
    · split
      · exact Nat.zero_le _
      · split
        · exact Nat.zero_le _
        · exact Nat.succ_le_succ (ih _)

/-! ### Words are read back -/

theorem length_hex8 (n : ℕ) : (hex8 n).length = 8 := by
  have hle : (Text.numeral 16 (n % 2 ^ 32)).length ≤ 8 :=
    Text.length_numeral_le (by decide) (by decide) (Nat.mod_lt n (by decide))
  rw [hex8, Text.pad, length_append, length_replicate]
  omega

theorem lowerHex_digit : ∀ d < 16, lowerHex (Text.digit d) = true := by decide +kernel

theorem lowerHex_hex8 (n : ℕ) : ∀ c ∈ hex8 n, lowerHex c = true := by
  intro c hc
  rcases mem_append.mp hc with h | h
  · rw [(mem_replicate.mp h).2]
    exact lowerHex_digit 0 (by decide)
  · unfold Text.numeral at h
    split at h
    · rw [mem_singleton.mp h]
      exact lowerHex_digit 0 (by decide)
    · obtain ⟨d, hd, rfl⟩ := mem_map.mp h
      exact lowerHex_digit d (Nat.digits_lt_base (by decide) (mem_reverse.mp hd))

/-- A number that was printed. -/
theorem scanHex_hex8 (n : ℕ) (l : Bytes) : scanHex (hex8 n ++ l) = some (UInt32.ofNat n, l) := by
  have hlen := length_hex8 n
  have hstart : (hex8 n ++ l).dropWhile Text.isSpace = hex8 n ++ l := by
    obtain ⟨c, t, hc⟩ := exists_cons_of_length_pos (l := hex8 n) (by omega)
    have hdigit := lowerHex_hex8 n c (by rw [hc]; exact mem_cons_self)
    rw [hc, cons_append, dropWhile_cons_of_neg (by rw [(of_lowerHex hdigit).1]; decide)]
  have hread : Text.integer 16 (hex8 n) = some (false, n % 2 ^ 32, []) := by
    have hne : ∀ ds : Bytes, ds.length < 8 → hex8 n ≠ ds := by
      rintro ds hds rfl
      omega
    have hint : Text.integer 16 (hex8 n ++ []) = some (false, Text.ofDigits 16 (hex8 n), []) :=
      Text.integer_digits (by decide) (hne [] (by decide))
        (Text.value_pad (by decide) (by decide) 8 _)
        (fun c hc => nomatch hc) (fun _ h => absurd h (hne _ (by decide)))
    rw [append_nil] at hint
    rw [hint, hex8, Text.ofDigits_pad (by decide) (by decide)]
  have hvalue : UInt32.ofNat (n % 2 ^ 32) = UInt32.ofNat n := by
    apply UInt32.toNat.inj
    show n % 2 ^ 32 % 2 ^ 32 = n % 2 ^ 32
    exact Nat.mod_mod _ _
  unfold scanHex
  dsimp only
  rw [hstart, take_left' hlen, drop_left' hlen, hread, ← hvalue]
  rfl

theorem takeWhile_hex8 {s : Bytes} (n : ℕ) (hs : s.takeWhile lowerHex = []) :
    (hex8 n ++ s).takeWhile lowerHex = hex8 n := by
  rw [takeWhile_append_of_pos (lowerHex_hex8 n), hs, append_nil]

/-- A word with a space behind it. -/
theorem wordsFrom_word (room : ℕ) (v : UInt32) (s : Bytes) :
    wordsFrom (room + 1) (hex8 v.toNat ++ space :: s) = v :: wordsFrom room s := by
  have hlen := length_hex8 v.toNat
  have hstop := takeWhile_stop lowerHex_other.2.1 s
  rw [wordsFrom, takeWhile_hex8 _ hstop, drop_left' hlen,
    if_neg (by rw [hlen]; exact fun h => h.elim (· rfl) (· rfl)), scanHex_hex8]
  dsimp only
  rw [length_append, hlen, if_neg (by omega), UInt32.ofNat_toNat, afterSpace, if_pos rfl]

theorem wordsFrom_words (ws : List UInt32) (s : Bytes) : ∀ room : ℕ,
    wordsFrom room (wordsText ws ++ s) = ws.take room ++ wordsFrom (room - ws.length) s := by
  induction ws with
  | nil =>
    intro room
    rw [take_nil]
    rfl
  | cons v ws ih =>
    intro room
    cases room with
    | zero =>
      rw [Nat.zero_sub]
      rfl
    | succ room =>
      have htext : wordsText (v :: ws) ++ s = hex8 v.toNat ++ space :: (wordsText ws ++ s) := by
        unfold wordsText
        rw [flatMap_cons, append_assoc, append_assoc]
        rfl
      rw [htext, wordsFrom_word, ih, take_succ_cons, length_cons, Nat.add_sub_add_right]
      rfl

/-- Where there is no digit there is no word. -/
theorem wordsFrom_stop {s : Bytes} (hs : s.takeWhile lowerHex = []) (room : ℕ) :
    wordsFrom room s = [] := by
  cases room with
  | zero => rfl
  | succ room => rw [wordsFrom, hs, if_pos (.inl (by decide))]

/-- Behind the words there is nothing more to be read. -/
theorem wordsFrom_dumpLine (room : ℕ) (ws : List UInt32) (gap fill : ℕ) (s : Bytes) :
    wordsFrom room (dumpLine ws gap fill ++ s) = ws.take room := by
  have hstop : ∀ (k : ℕ) (t : Bytes),
      (replicate k space ++ apostrophe :: t).takeWhile lowerHex = [] := by
    intro k t
    cases k with
    | zero => exact takeWhile_stop lowerHex_other.1 t
    | succ k => exact takeWhile_stop lowerHex_other.2.1 _
  unfold dumpLine
  rw [append_assoc, append_assoc, cons_append, wordsFrom_words, wordsFrom_stop (hstop _ _),
    append_nil]

/-! ### A line of the text -/

section

variable {row : Bytes} (hrow : lf ∉ row) (rest : Bytes)
include hrow

theorem newline_line : newline (row ++ lf :: rest) = some row.length := by
  have hnone : row.findIdx? (· == lf) = none := by
    rw [findIdx?_eq_none_iff]
    intro c hc
    rw [beq_eq_false_iff_ne]
    rintro rfl
    exact hrow hc
  unfold newline
  rw [findIdx?_append, hnone, findIdx?_cons, if_pos (by decide)]
  exact congrArg some (Nat.zero_add _)

theorem nextLine_line : nextLine (row ++ lf :: rest) = rest := by
  unfold nextLine
  rw [newline_line hrow rest]
  dsimp only
  rw [← drop_drop, drop_left]
  rfl

/-- Only what stands on the line counts. -/
theorem wordsAt_line : wordsAt (row ++ lf :: rest) =
    match strstr parcel row with
    | some i =>
        let s := (row.drop (i + 7) ++ lf :: rest).dropWhile (· == space)
        some ((scanOffset s).getD s)
    | none => scanOffset ((row ++ lf :: rest).dropWhile (· == space)) := by
  have hhere : ((strstr parcel (row ++ lf :: rest)).filter fun p =>
      (newline (row ++ lf :: rest)).all (p < ·)) =
      strstr parcel row := by
    rw [newline_line hrow rest, strstr_append (by rw [parcel_eq]; decide)]
    cases hstr : strstr parcel row with
    | none =>
      rw [none_or]
      cases strstr parcel (lf :: rest) with
      | none => rfl
      | some j => exact if_neg (by simp)
    | some i =>
      have hle := strstr_le hstr
      have hlt : i < row.length :=
        lt_of_lt_of_le (Nat.lt_add_of_pos_right (by rw [length_parcel]; decide)) hle
      exact if_pos (by simpa using hlt)
  unfold wordsAt
  rw [hhere]
  cases hstr : strstr parcel row with
  | none =>
    dsimp only
    cases scanOffset ((row ++ lf :: rest).dropWhile (· == space)) <;> rfl
  | some i =>
    have hle := strstr_le hstr
    rw [length_parcel] at hle
    dsimp only
    rw [length_parcel, drop_append_of_le_length hle]
    cases scanOffset ((row.drop (i + 7) ++ lf :: rest).dropWhile (· == space)) <;> rfl

theorem replyLoop_line (max : ℕ) (w : List UInt32) : replyLoop max (row ++ lf :: rest) w =
    replyLoop max rest (w ++ lineWords (max - w.length) (row ++ lf :: rest)) := by
  rw [replyLoop, dif_neg (by simp), nextLine_line hrow rest]

end

/-! ### A row of a dump -/

/-- A row whose characters look like the start of a reply. -/
def Imitates (r : List UInt32) : Prop := parcel <:+: wordBytes r

instance (r : List UInt32) : Decidable (Imitates r) := inferInstanceAs (Decidable (_ <:+: _))

/-- The characters are the bytes, where these look like it. -/
theorem infix_ascii {l : Bytes} : parcel <:+: l.map ascii ↔ parcel <:+: l := by
  have hkept : parcel.map ascii = parcel := by rw [parcel_eq]; decide
  have hback : ∀ m : Bytes, m.map ascii = parcel → m = parcel := by
    intro m hm
    rw [← hm]
    refine (map_id m).symm.trans (map_congr_left fun c hc => ?_)
    have hne : ascii c ≠ dot := by
      intro hdot
      have hmem : dot ∈ parcel := by
        rw [← hm, ← hdot]
        exact mem_map_of_mem hc
      exact absurd hmem (by rw [parcel_eq]; decide)
    unfold ascii at hne ⊢
    split at hne
    · next hc => rw [if_pos hc]; rfl
    · exact absurd rfl hne
  constructor
  · rintro ⟨u, v, h⟩
    obtain ⟨u', v', rfl, hu, -⟩ := map_eq_append_iff.mp h.symm
    obtain ⟨u'', m, rfl, -, hm⟩ := map_eq_append_iff.mp hu
    rw [hback m hm]
    exact infix_append u'' parcel v'
  · intro h
    have hmap := h.map ascii
    rwa [hkept] at hmap

theorem length_wordBytes (ws : List UInt32) : (wordBytes ws).length = 4 * ws.length := by
  induction ws with
  | nil => rfl
  | cons v ws ih =>
    rw [wordBytes, flatMap_cons, length_append, ← wordBytes, ih, Wire.length_le, length_cons]
    omega

/-- Between other characters, the word is found where it is found among the quoted ones. -/
theorem strstr_quoted {pre chars tail : Bytes} (hpre : 0x50 ∉ pre) (htail : ∀ c ∈ tail, c ∉ parcel)
    (hne : tail ≠ []) :
    strstr parcel (pre ++ (chars ++ tail)) = (strstr parcel chars).map (· + pre.length) := by
  obtain ⟨q, t, rfl⟩ := exists_cons_of_ne_nil hne
  have hnone : strstr parcel (q :: t) = none := by
    rw [strstr_eq_none_iff]
    intro hin
    have hmem : (0x50 : UInt8) ∈ parcel := by rw [parcel_eq]; exact mem_cons_self
    exact htail _ (hin.subset hmem) hmem
  have happ := strstr_append (p := chars) (r := t) (htail q mem_cons_self)
  rw [hnone, map_none, or_none] at happ
  rw [← happ, parcel_eq]
  exact strstr_append_of_not_mem hpre

/-- No character of a line but the quoted ones starts the word or ends the line. -/
def Plain (l : Bytes) : Prop := ∀ c ∈ l, c ≠ 0x50 ∧ c ≠ lf

theorem Plain.append {a b : Bytes} (ha : Plain a) (hb : Plain b) : Plain (a ++ b) := by
  intro c hc
  exact (mem_append.mp hc).elim (ha c) (hb c)

theorem plain_spaces (k : ℕ) : Plain (replicate k space) := by
  intro c hc
  rw [eq_of_mem_replicate hc]
  decide

theorem plain_hex8 (n : ℕ) : Plain (hex8 n) := by
  intro c hc
  obtain ⟨-, -, hlf, hP, -⟩ := of_lowerHex (lowerHex_hex8 n c hc)
  exact ⟨hP, hlf⟩

theorem plain_wordsText (ws : List UInt32) : Plain (wordsText ws) := by
  intro c hc
  obtain ⟨v, -, hv⟩ := mem_flatMap.mp hc
  exact ((plain_hex8 v.toNat).append (plain_spaces 1)) c hv

theorem lf_not_mem_ascii (l : Bytes) : lf ∉ l.map ascii := by
  intro hmem
  obtain ⟨c, -, hc⟩ := mem_map.mp hmem
  unfold ascii at hc
  split at hc
  · next hshown =>
    rw [hc] at hshown
    exact absurd hshown.1 (by decide)
  · exact absurd hc (by decide)

theorem dropWhile_spaces (k : ℕ) (s : Bytes) :
    (replicate k space ++ s).dropWhile (· == space) = s.dropWhile (· == space) := by
  induction k with
  | zero => rfl
  | succ k ih =>
    rw [replicate_succ, cons_append, dropWhile_cons_of_pos (by decide), ih]

/-- Words start with digits. -/
theorem dumpLine_digits {ws : List UInt32} (hws : ws ≠ []) (gap fill : ℕ) : ∃ c d t,
    dumpLine ws gap fill = c :: d :: t ∧ lowerHex c = true ∧ lowerHex d = true := by
  obtain ⟨v, ws, rfl⟩ := exists_cons_of_ne_nil hws
  have hdigits := lowerHex_hex8 v.toNat
  have hlen := length_hex8 v.toNat
  unfold dumpLine wordsText
  rw [flatMap_cons]
  generalize hex8 v.toNat = h at hdigits hlen
  match h, hlen with
  | c :: d :: h, _ =>
    exact ⟨c, d, _, rfl, hdigits c mem_cons_self, hdigits d (mem_cons_of_mem c mem_cons_self)⟩

theorem dropWhile_dumpLine {f : UInt8 → Bool} (hf : ∀ c, lowerHex c = true → f c = false)
    {ws : List UInt32} (hws : ws ≠ []) (gap fill : ℕ) (s : Bytes) :
    (dumpLine ws gap fill ++ s).dropWhile f = dumpLine ws gap fill ++ s := by
  obtain ⟨c, d, t, hline, hc, -⟩ := dumpLine_digits hws gap fill
  rw [hline]
  exact dropWhile_cons_of_neg (by rw [hf c hc]; decide)

/-- The words behind an offset. -/
theorem scanOffset_row (off : ℕ) {r : List UInt32} (hr : r ≠ []) (gap fill : ℕ) (s : Bytes) :
    scanOffset (text "0x" ++ (hex8 off ++ (colon :: space :: (dumpLine r gap fill ++ s)))) =
      some (dumpLine r gap fill ++ s) := by
  have hcolon : Text.literal [colon] (colon :: space :: (dumpLine r gap fill ++ s)) =
      some (space :: (dumpLine r gap fill ++ s)) := Text.literal_append [colon] _
  unfold scanOffset
  rw [Text.literal_append, bind_some, scanHex_hex8, bind_some, hcolon, map_some,
    dropWhile_cons_of_pos (by decide), dropWhile_dumpLine (fun c hc => (of_lowerHex hc).1) hr]

/-- A row is its quoted characters between plain ones, and the word is found where it is found among
these. -/
theorem row_quoted (L : Layout) (off : ℕ) (r : List UInt32) {close : Bytes}
    (hclose : close = [] ∨ close = [rparen]) :
    lf ∉ rowText L off r ++ close ∧ ∃ pre : Bytes,
      rowText L off r ++ close = pre ++ ((wordBytes r).map ascii ++
        (replicate (L.rowFill r.length) space ++ apostrophe :: close)) ∧
      strstr parcel (rowText L off r ++ close) =
        (strstr parcel ((wordBytes r).map ascii)).map (· + pre.length) := by
  have htail : ∀ c ∈ replicate (L.rowFill r.length) space ++ apostrophe :: close,
      c ∉ parcel ∧ c ≠ lf := by
    have hquote : ∀ c ∈ apostrophe :: close, c ∉ parcel ∧ c ≠ lf := by
      rw [parcel_eq]
      rcases hclose with rfl | rfl <;> simp [apostrophe, rparen, lf]
    intro c hc
    rcases mem_append.mp hc with h | h
    · rw [eq_of_mem_replicate h, parcel_eq]
      decide
    · exact hquote c h
  obtain ⟨pre, hpre, hrow⟩ : ∃ pre : Bytes, Plain pre ∧
      rowText L off r ++ close = pre ++ ((wordBytes r).map ascii ++
      (replicate (L.rowFill r.length) space ++ apostrophe :: close)) := by
    refine ⟨replicate L.indent space ++
      (text "0x" ++ (hex8 off ++ ([colon, space] ++ (wordsText r ++
      (replicate (L.rowGap r.length) space ++ [apostrophe]))))), ?_, ?_⟩
    · refine (plain_spaces _).append (Plain.append ?_ ((plain_hex8 off).append (Plain.append ?_
        ((plain_wordsText r).append ((plain_spaces _).append ?_)))))
      all_goals
        unfold Plain
        simp [offset_eq, apostrophe, colon, space, lf]
    · unfold rowText dumpLine
      simp only [append_assoc, cons_append, nil_append]
  rw [hrow]
  refine ⟨?_, pre, rfl, strstr_quoted (fun h => (hpre _ h).1 rfl)
    (fun c hc => (htail c hc).1) (by simp)⟩
  rw [mem_append, mem_append, not_or, not_or]
  exact ⟨fun h => (hpre _ h).2 rfl, lf_not_mem_ascii _, fun h => (htail _ h).2 rfl⟩

section

variable (L : Layout) (off : ℕ) {r : List UInt32} {close : Bytes}
  (hclose : close = [] ∨ close = [rparen])
  (rest : Bytes) (room : ℕ)
include hclose

/-- The words of a row are read. -/
theorem lineWords_row (hr : r ≠ []) (hgood : ¬ Imitates r) :
    lineWords room (rowText L off r ++ close ++ lf :: rest) = r.take room := by
  obtain ⟨hline, pre, -, hstr⟩ := row_quoted L off r hclose
  have hnone : strstr parcel ((wordBytes r).map ascii) = none := by
    rw [strstr_eq_none_iff, infix_ascii]
    exact hgood
  have hstart : ∀ s : Bytes, (text "0x" ++ s).dropWhile (· == space) = text "0x" ++ s := by
    intro s
    rw [offset_eq]
    exact dropWhile_cons_of_neg (by decide)
  have hat : wordsAt (rowText L off r ++ close ++ lf :: rest) =
      some (dumpLine r (L.rowGap r.length) (L.rowFill r.length) ++ (close ++ lf :: rest)) := by
    rw [wordsAt_line hline _, hstr, hnone, map_none]
    dsimp only
    unfold rowText
    simp only [append_assoc, cons_append]
    rw [dropWhile_spaces, hstart]
    exact scanOffset_row off hr _ _ _
  unfold lineWords
  rw [hat]
  exact wordsFrom_dumpLine ..

/-- **Fewer words are read of a row that looks like the start of a reply**: what is behind the word
is too short. -/
theorem length_lineWords_lt (hbad : Imitates r) :
    (lineWords room (rowText L off r ++ close ++ lf :: rest)).length < r.length := by
  obtain ⟨hline, pre, hrow, hstr⟩ := row_quoted L off r hclose
  have hat := wordsAt_line hline rest
  have hshown : ((wordBytes r).map ascii).length = 4 * r.length := by
    rw [length_map, length_wordBytes]
  have hin : ¬ strstr parcel ((wordBytes r).map ascii) = none := by
    rw [strstr_eq_none_iff, infix_ascii, not_not]
    exact hbad
  obtain ⟨i, hfound⟩ := ne_none_iff_exists'.mp hin
  have hle := strstr_le hfound
  rw [length_parcel, hshown] at hle
  rw [hstr, hfound, map_some] at hat
  dsimp only at hat
  generalize (wordBytes r).map ascii = chars at hrow hshown
  -- what is behind the word, and the quote behind that
  have hbehind : (rowText L off r ++ close).drop (i + pre.length + 7) ++ lf :: rest =
      (chars.drop (i + 7) ++ replicate (L.rowFill r.length) space) ++ apostrophe ::
      (close ++ lf :: rest) := by
    rw [hrow, Nat.add_right_comm, Nat.add_comm, ← drop_drop, drop_left,
      drop_append_of_le_length (by omega)]
    simp only [append_assoc, cons_append]
  rw [hbehind] at hat
  have hspace := skips_dropWhile (f := (· == space)) (by decide)
    ((chars.drop (i + 7) ++ replicate (L.rowFill r.length) space) ++ apostrophe ::
      (close ++ lf :: rest))
  generalize dropWhile (· == space) _ = s at hat hspace
  have hscan : Skips s ((scanOffset s).getD s) := by
    cases hs : scanOffset s with
    | none => exact Skips.refl s
    | some s' => exact skips_scanOffset hs
  obtain ⟨p, hp, hbefore⟩ := (hspace.trans hscan).split
  have hcount := length_wordsFrom_le (r := close ++ lf :: rest) room p
  have hdigits : p.countP lowerHex ≤ 4 * r.length - (i + 7) := by
    have hall := hp.sublist.countP_le (p := lowerHex)
    have hspaces : (replicate (L.rowFill r.length) space).countP lowerHex = 0 := by
      rw [countP_eq_zero]
      intro c hc
      rw [eq_of_mem_replicate hc, lowerHex_other.2.1]
      decide
    have hchars := countP_le_length (p := lowerHex) (l := chars.drop (i + 7))
    rw [countP_append, hspaces] at hall
    rw [length_drop, hshown] at hchars
    omega
  unfold lineWords
  rw [hat, hbefore]
  dsimp only
  omega

/-- **What is read of a row**: its words, or fewer where it looks like the start of a reply. -/
theorem row_read (hr : r ≠ []) (max : ℕ) (w : List UInt32) : ∃ got,
    replyLoop max (rowText L off r ++ close ++ lf :: rest) w = replyLoop max rest (w ++ got) ∧
      (¬ Imitates r → got = r.take (max - w.length)) ∧ (Imitates r → got.length < r.length) :=
  ⟨_, replyLoop_line (row_quoted L off r hclose).1 rest max w, lineWords_row L off hclose rest _ hr,
    length_lineWords_lt L off hclose rest _⟩

end

/-! ### The whole reply -/

theorem replyLoop_nil (max : ℕ) (w : List UInt32) : replyLoop max [] w = w := by
  rw [replyLoop, dif_pos rfl]

/-- Neither the end alone nor an empty reply has words. -/
theorem reply_facts : wordsAt [rparen, lf] = none ∧ lf ∉ text "NULL" ++ [rparen] ∧
    scanOffset ((text "NULL" ++ [rparen] ++ [lf]).dropWhile (· == space)) = none ∧
    ((text "NULL" ++ [rparen] ++ [lf]).dropWhile (· == space)).takeWhile lowerHex = [] := by
  decide +kernel

/-- The end on a line of its own. -/
theorem replyLoop_end (max : ℕ) (w : List UInt32) : replyLoop max [rparen, lf] w = w := by
  have hnone := reply_facts.1
  have hline : replyLoop max ([rparen] ++ lf :: []) w = _ := replyLoop_line (by decide) [] max w
  unfold lineWords at hline
  rw [singleton_append, hnone, append_nil, replyLoop_nil] at hline
  exact hline

/-- The end behind the last row, or on a line of its own. -/
def ending (L : Layout) : Bytes := (if L.ownLine then [lf] else []) ++ [rparen, lf]

theorem ending_eq (L : Layout) : ∃ close rest, (close = [] ∨ close = [rparen]) ∧
    ending L = close ++ lf :: rest ∧
    ∀ max w, replyLoop max rest w = w := by
  unfold ending
  cases L.ownLine with
  | true => exact ⟨[], [rparen, lf], .inl rfl, rfl, replyLoop_end⟩
  | false => exact ⟨[rparen], [], .inr rfl, rfl, replyLoop_nil⟩

/-- **What is read of all rows**: their words, or fewer where one of them looks like the start of a
reply. -/
theorem rows_read (L : Layout) (max : ℕ) (rs : List (List UInt32)) : ∀ (r : List UInt32) (off : ℕ)
    (w : List UInt32), (∀ q ∈ r :: rs, q ≠ []) → ∃ got,
      replyLoop max (rowText L off r ++ rowsText L (off + 16) rs ++ ending L) w = w ++ got ∧
        ((∀ q ∈ r :: rs, ¬ Imitates q) → got = (r :: rs).flatten.take (max - w.length)) ∧
        ((∃ q ∈ r :: rs, Imitates q) → got.length < (r :: rs).flatten.length) := by
  induction rs with
  | nil =>
    intro r off w hne
    obtain ⟨close, rest, hclose, hend, hrest⟩ := ending_eq L
    obtain ⟨got, hread, hgood, hbad⟩ := row_read L off hclose rest (hne r mem_cons_self) max w
    rw [hrest] at hread
    refine ⟨got, ?_, fun h => ?_, fun h => ?_⟩
    · rw [rowsText, append_nil, hend, ← append_assoc]
      exact hread
    · rw [flatten_singleton]
      exact hgood (h r mem_cons_self)
    · obtain ⟨q, hq, himitates⟩ := h
      rw [mem_singleton.mp hq] at himitates
      rw [flatten_singleton]
      exact hbad himitates
  | cons r' rs ih =>
    intro r off w hne
    obtain ⟨got, hread, hgood, hbad⟩ := row_read L off (.inl rfl)
      (rowText L (off + 16) r' ++ rowsText L (off + 16 + 16) rs ++ ending L)
      (hne r mem_cons_self) max w
    obtain ⟨got', hread', hgood', hbad'⟩ :=
      ih r' (off + 16) (w ++ got) fun q hq => hne q (mem_cons_of_mem r hq)
    refine ⟨got ++ got', ?_, fun h => ?_, fun h => ?_⟩
    · rw [← append_assoc, ← hread', ← hread]
      congr 1
      rw [rowsText]
      simp only [append_assoc, cons_append, nil_append]
    · have hall : ∀ q ∈ r' :: rs, ¬ Imitates q := fun q hq => h q (mem_cons_of_mem r hq)
      rw [hgood (h r mem_cons_self)] at hgood' ⊢
      rw [hgood' hall, flatten_cons (L := r' :: rs), take_append, length_append, length_take]
      congr 2
      omega
    -- no row gives more than it has, so one that is cut is missed
    · have hle : got.length ≤ r.length := by
        by_cases hr : Imitates r
        · exact (hbad hr).le
        · rw [hgood hr]
          exact length_take_le' _ r
      have hle' : got'.length ≤ (r' :: rs).flatten.length := by
        by_cases hrs : ∃ q ∈ r' :: rs, Imitates q
        · exact (hbad' hrs).le
        · rw [hgood' fun q hq himitates => hrs ⟨q, hq, himitates⟩]
          exact length_take_le' _ _
      rw [flatten_cons (L := r' :: rs), length_append, length_append]
      obtain ⟨q, hq, himitates⟩ := h
      rcases mem_cons.mp hq with rfl | hq
      · have hlt := hbad himitates
        omega
      · have hlt := hbad' ⟨q, hq, himitates⟩
        omega

/-- Never more words than there is room for. -/
theorem length_replyLoop_le (max : ℕ) (line : Bytes) (w : List UInt32) (hw : w.length ≤ max) :
    (replyLoop max line w).length ≤ max := by
  induction line, w using replyLoop.induct max with
  | case1 w =>
    rw [replyLoop_nil]
    exact hw
  | case2 line w hne ih =>
    rw [replyLoop, dif_neg hne]
    apply ih
    have hroom : (lineWords (max - w.length) line).length ≤ max - w.length := by
      unfold lineWords
      split
      · exact Nat.zero_le _
      · exact length_wordsFrom_le_room _ _
    rw [length_append]
    omega

theorem rowsOf_spec (ws : List UInt32) (hws : ws ≠ []) :
    ∃ r rs, rowsOf ws = r :: rs ∧ (∀ q ∈ r :: rs, q ≠ []) ∧
    (r :: rs).flatten = ws := by
  induction ws using rowsOf.induct with
  | case1 a b c d e ws ih =>
    obtain ⟨r, rs, hrows, hne, hflat⟩ := ih (cons_ne_nil e ws)
    refine ⟨[a, b, c, d], r :: rs, by rw [rowsOf, hrows], ?_, by rw [flatten_cons, hflat]; rfl⟩
    intro q hq
    rcases mem_cons.mp hq with rfl | hq
    · exact cons_ne_nil a _
    · exact hne q hq
  | case2 ws hshort =>
    refine ⟨ws, [], ?_, ?_, flatten_singleton⟩
    · unfold rowsOf
      split
      · exact absurd rfl (hshort _ _ _ _ _ _)
      · rfl
    · intro q hq
      rw [mem_singleton.mp hq]
      exact hws

/-- The first line, with what stands behind the parenthesis. -/
theorem replyLoop_first (line : Bytes) (hline : lf ∉ line) (rest : Bytes) (max : ℕ) :
    replyLoop max (text "Result: Parcel(" ++ (line ++ lf :: rest)) [] =
      replyLoop max rest
        (wordsFrom max ((scanOffset ((line ++ lf :: rest).dropWhile (· == space))).getD
        ((line ++ lf :: rest).dropWhile (· == space)))) := by
  have hhead := words_eq.2.2
  have hlen : (text "Result: Parcel(").length = 15 := by
    rw [hhead, length_append, length_parcel]; rfl
  have hlf : lf ∉ text "Result: Parcel(" ++ line := by
    rw [mem_append, not_or, hhead, parcel_eq]
    exact ⟨by decide, hline⟩
  have hstr : strstr parcel (text "Result: Parcel(" ++ line) = some 8 := by
    have hzero : strstr parcel (parcel ++ line) = some 0 := by
      rw [parcel_eq]
      exact if_pos (prefix_append _ line)
    rw [hhead, append_assoc]
    rw [parcel_eq] at hzero ⊢
    rw [strstr_append_of_not_mem (by decide), hzero]
    rfl
  have hread := replyLoop_line hlf rest max []
  unfold lineWords at hread
  rw [wordsAt_line hlf rest, hstr] at hread
  dsimp only at hread
  rw [drop_left' hlen, nil_append, append_assoc] at hread
  exact hread

theorem scanOffset_eq_none {s : Bytes} (h : ¬ [0x30, 0x78] <+: s) : scanOffset s = none := by
  unfold scanOffset Text.literal
  rw [offset_eq, if_neg h]
  rfl

/-- A reply on one line. -/
theorem replyLoop_single {ws : List UInt32} (hws : ws ≠ []) (gap fill max : ℕ) :
    replyLoop max (text "Result: Parcel(" ++ (dumpLine ws gap fill ++ [rparen, lf]))
      [] = ws.take max := by
  have hlf : lf ∉ dumpLine ws gap fill ++ [rparen] := by
    unfold dumpLine
    simp only [mem_append, mem_cons, not_or]
    refine ⟨⟨fun h => (plain_wordsText ws _ h).2 rfl, fun h =>
      (plain_spaces gap _ h).2 rfl, by decide, lf_not_mem_ascii _,
        fun h => (plain_spaces fill _ h).2 rfl, by decide, not_mem_nil⟩, by decide,
      not_mem_nil⟩
  have hread := replyLoop_first _ hlf [] max
  have hnone : scanOffset (dumpLine ws gap fill ++ [rparen, lf]) = none := by
    apply scanOffset_eq_none
    -- the second digit of a word is no `x`
    obtain ⟨c, d, t, hline, -, hd⟩ := dumpLine_digits hws gap fill
    rw [hline]
    intro hpre
    obtain ⟨-, hpre⟩ := cons_prefix_cons.mp hpre
    exact (of_lowerHex hd).2.2.2.2 (cons_prefix_cons.mp hpre).1.symm
  rw [append_assoc, singleton_append, dropWhile_dumpLine (fun c hc => by
    rw [beq_eq_false_iff_ne]
    exact (of_lowerHex hc).2.1) hws, hnone, getD_none, wordsFrom_dumpLine, replyLoop_nil] at hread
  exact hread

/-- A longer reply: the words of its rows, or fewer. -/
theorem replyLoop_rows (L : Layout) {ws : List UInt32} (hws : ws ≠ []) (max : ℕ) : ∃ got,
    replyLoop max (text "Result: Parcel(" ++ (rowsText L 0 (rowsOf ws) ++ ending L)) [] = got ∧
      ((∀ r ∈ rowsOf ws, ¬ Imitates r) → got = ws.take max) ∧
      ((∃ r ∈ rowsOf ws, Imitates r) → got.length < ws.length) := by
  obtain ⟨r, rs, hrows, hne, hflat⟩ := rowsOf_spec ws hws
  obtain ⟨got, hread, hgood, hbad⟩ := rows_read L max rs r 0 [] hne
  have hfirst := replyLoop_first [] not_mem_nil (rowText L 0 r ++ rowsText L 16 rs ++ ending L) max
  have hnone : scanOffset (lf :: (rowText L 0 r ++ rowsText L 16 rs ++ ending L)) = none := by
    apply scanOffset_eq_none
    intro hpre
    exact absurd (cons_prefix_cons.mp hpre).1 (by decide)
  have hstop := takeWhile_stop lowerHex_other.2.2 (rowText L 0 r ++ rowsText L 16 rs ++ ending L)
  rw [nil_append, dropWhile_cons_of_neg (by decide), hnone, getD_none, wordsFrom_stop hstop,
    hread] at hfirst
  rw [hrows]
  rw [hflat, length_nil, Nat.sub_zero] at hgood
  rw [hflat] at hbad
  refine ⟨got, ?_, hgood, hbad⟩
  rw [rowsText, cons_append]
  exact hfirst

/-- An empty reply. -/
theorem replyLoop_null (max : ℕ) :
    replyLoop max (text "Result: Parcel(" ++ (text "NULL" ++ [rparen, lf])) [] = [] := by
  obtain ⟨-, hline, hnone, hhex⟩ := reply_facts
  have hread := replyLoop_first (text "NULL" ++ [rparen]) hline [] max
  rw [hnone, getD_none, wordsFrom_stop hhex, replyLoop_nil, append_assoc] at hread
  exact hread

/-- **When a printed reply is read back**: there is room for its words, and it is printed on one
line, or no row of four words looks like the start of a reply. -/
theorem svcReplyWords_printed (L : Layout) (ws : List UInt32) (max : ℕ) :
    svcReplyWords (printed L ws) max = ws ↔
    ws.length ≤ max ∧ (ws.length ≤ L.single ∨ ∀ r ∈ rowsOf ws, ¬ parcel <:+: wordBytes r) := by
  unfold svcReplyWords printed dump
  by_cases hnil : ws = []
  · rw [if_pos hnil, hnil, replyLoop_null]
    exact ⟨fun _ => ⟨Nat.zero_le max, .inl (Nat.zero_le _)⟩, fun _ => rfl⟩
  rw [if_neg hnil]
  by_cases hone : ws.length ≤ L.single
  · rw [if_pos hone, replyLoop_single hnil, take_eq_self_iff]
    exact ⟨fun h => ⟨h, .inl hone⟩, fun h => h.1⟩
  rw [if_neg hone, append_assoc]
  obtain ⟨got, hread, hgood, hbad⟩ := replyLoop_rows L hnil max
  have hle :=
    length_replyLoop_le max (text "Result: Parcel(" ++ (rowsText L 0 (rowsOf ws) ++ ending L))
      [] (Nat.zero_le _)
  rw [hread] at hle
  change replyLoop max (text "Result: Parcel(" ++ (rowsText L 0 (rowsOf ws) ++ ending L)) [] = ws ↔
    _
  rw [hread]
  constructor
  · rintro rfl
    refine ⟨hle, .inr fun r hr himitates => ?_⟩
    exact absurd (hbad ⟨r, hr, himitates⟩) (Nat.lt_irrefl _)
  · rintro ⟨hroom, hsingle | hall⟩
    · exact absurd hsingle hone
    · rw [hgood hall, take_of_length_le hroom]

/-- A reply that is not read back: an array of 17 bytes, in two rows. -/
theorem svcReplyWords_row_lost :
    svcReplyWords
      (printed tool [0, 0, 17, 0x2261227b, 0x6150223a, 0x6c656372, 0x22296228, 0x7d]) 1100 ≠
        [0, 0, 17, 0x2261227b, 0x6150223a, 0x6c656372, 0x22296228, 0x7d] ∧
      afeCallReply (printed tool [0, 0, 17, 0x2261227b, 0x6150223a, 0x6c656372, 0x22296228, 0x7d])
        512 = none := by
  decide +kernel

end Hassmic.Afe
