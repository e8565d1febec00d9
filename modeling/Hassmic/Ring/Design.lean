import Hassmic.Lib.Pieces
import Hassmic.Lib.Text

/-!
# A design of the light ring

A design is kept as text: its name, the number of its LEDs, where its loop starts, and a line for
each frame.  What the settings page sends is read and written anew, so that the file on disk, and
the one that root reads, is always in one form.

The pixels behind a design's last LED, which are zero, are left out, and memory does not run out.

## Main definitions

* `Design`, `Design.Valid` — `struct rd_design`, and what holds of one that was read.
* `rdParse`, `rdFormat` — `rd_parse` and `rd_format`.

## Main results

* `rdParse_valid` — what is read is valid.
* `rdParse_rdFormat` — **a valid design is read as it was written**.
* `rdParse_again` — so a design that was read is read again.
-/

namespace Hassmic.Ring

open Byte List Option
open Text (decimal value numeral)

/-- A colour: red, green and blue. -/
structure Pixel where
  r : UInt8
  g : UInt8
  b : UInt8
  deriving DecidableEq

/-- `struct rd_frame`: its time in ms, and a colour for each LED. -/
structure Frame where
  ms : ℕ
  px : List Pixel
  deriving DecidableEq

/-- `struct rd_design`; `loop` is `none` for one that plays once. -/
structure Design where
  name : Bytes := []
  leds : ℕ := 0
  loop : Option ℕ := some 0
  frames : List Frame := []
  deriving DecidableEq

/-! ### Reading -/

/-- `sscanf` of one `%d`, of what stands before a NUL. -/
def scanInt (v : Bytes) : Option ℤ := (Text.signed (v.takeWhile (· ≠ nul))).map Prod.fst

/-- A digit of a colour. -/
def hexv (c : UInt8) : Option ℕ := if value c < 16 then some (value c) else none

/-- Two digits. -/
def channel (hi lo : UInt8) : Option UInt8 :=
  (hexv hi).bind fun h => (hexv lo).map fun l => (h * 16 + l).toUInt8

/-- The colours of a frame, with a comma between them. -/
def pixels : ℕ → Bytes → Except Bytes (List Pixel)
  | n + 1, a :: b :: c :: d :: e :: f :: l =>
      match channel a b, channel c d, channel e f with
      | some r, some g, some b =>
          if n = 0 then .ok [⟨r, g, b⟩]
          else
            match l with
            | c :: l =>
                if c ≠ comma then .error (text "frame: colours separated by commas")
                else (pixels n l).map fun ps => ⟨r, g, b⟩ :: ps
            | [] => .ok [⟨r, g, b⟩]
      | _, _, _ => .error (text "frame: colours are RRGGBB")
  | _, _ => .ok []

/-- The digits of a frame's time, as far as they are read, and the rest. -/
def readMs : ℕ → Bytes → ℕ × Bytes
  | ms, [] => (ms, [])
  | ms, c :: l =>
    if isDigit c ∧ ms ≤ 60000 then readMs (ms * 10 + (c.toNat - 48)) l else (ms, c :: l)

/-- A line of a frame. -/
def frameLine (d : Design) (l : Bytes) : Except Bytes Design :=
  let t := readMs 0 l
  match t.2 with
  | [] => .error (text "frame: <1..60000 ms>:<colours>")
  | c :: l =>
      if c ≠ colon ∨ t.1 < 1 ∨ 60000 < t.1 then .error (text "frame: <1..60000 ms>:<colours>")
      else if d.leds = 0 then .error (text "leds before the frames")
      else if 1000 ≤ d.frames.length then .error (text "too many frames")
      else if l.length ≠ d.leds * 7 - 1 then .error (text "frame: one RRGGBB per LED")
      else (pixels d.leds l).map fun px => { d with frames := d.frames ++ [⟨t.1, px⟩] }

/-- What stands behind a word and a space, none if nothing does. -/
def field (w : String) (l : Bytes) : Option Bytes := (Text.literal (text w) l).filter (· ≠ [])

/-- A line that is neither empty nor a comment. -/
def fieldLine (d : Design) (l : Bytes) : Except Bytes Design :=
  if let some v := field "name " l then
    if 48 ≤ v.length then .error (text "name too long")
    else if ∃ x ∈ v, x < 0x20 ∨ x = 0x7f then .error (text "control character in the name")
    else .ok { d with name := v }
  else if let some v := field "leds " l then
    match (scanInt (v.take 7)).filter fun k => d.frames = [] ∧ 1 ≤ k ∧ k ≤ 24 with
    | some k => .ok { d with leds := k.toNat }
    | none => .error (text "bad leds")
  else if let some v := field "loop " l then
    if (v.take 11).takeWhile (· ≠ nul) = text "once" then .ok { d with loop := none }
    else
      match (scanInt (v.take 11)).filter fun k => 0 ≤ k ∧ k < 1000 with
      | some k => .ok { d with loop := some k.toNat }
      | none => .error (text "bad loop")
  else if l.head?.any isDigit then frameLine d l
  else .error (text "not a design's line")

/-- One line, without its end. -/
def designLine (d : Design) (l : Bytes) : Except Bytes Design :=
  let l := if l.getLast? = some cr then l.dropLast else l
  if l = [] ∨ l.head? = some 0x23 then .ok d else fieldLine d l

/-- The loop over the lines; an error names the line. -/
def designLines : ℕ → Design → List Bytes → Except Bytes Design
  | _, d, [] => .ok d
  | n, d, l :: ls =>
      match designLine d l with
      | .ok d => designLines (n + 1) d ls
      | .error why => .error (text "line " ++ decimal n ++ text ": " ++ why)

/-- What is checked behind the last line. -/
def finish (d : Design) : Except Bytes Design :=
  if d.frames = [] then .error (text "a design needs a frame")
  else if d.loop.any (d.frames.length ≤ ·) then .error (text "the loop starts after the last frame")
  else .ok { d with name := if d.name = [] then text "Design" else d.name }

/-- **`rd_parse`**, with the text of its error. -/
def rdParse (t : Bytes) : Except Bytes Design :=
  match designLines 1 {} (Text.pieces lf [] t) with
  | .ok d => finish d
  | .error e => .error e

/-! ### Writing -/

/-- A digit of `%X`. -/
def upperDigit (d : ℕ) : UInt8 := if d < 10 then (48 + d).toUInt8 else (55 + d).toUInt8

/-- `%02X`. -/
def hexByte (c : UInt8) : Bytes := [upperDigit (c.toNat / 16), upperDigit (c.toNat % 16)]

/-- `%02X%02X%02X`. -/
def Pixel.text (p : Pixel) : Bytes := hexByte p.r ++ hexByte p.g ++ hexByte p.b

/-- The colours of a frame. -/
def pixelsText : List Pixel → Bytes
  | [] => []
  | p :: ps => p.text ++ ps.flatMap fun q => comma :: q.text

/-- Where the loop starts, as it is written. -/
def loopText (l : Option ℕ) : Bytes := match l with | none => text "once" | some k => decimal k

/-- A frame, as it is written. -/
def frameText (f : Frame) : Bytes := decimal f.ms ++ colon :: pixelsText f.px

/-- The lines of a design. -/
def formatLines (d : Design) : List Bytes :=
  (text "name " ++ d.name) :: (text "leds " ++ decimal d.leds) ::
    (text "loop " ++ loopText d.loop) ::
    d.frames.map frameText

/-- **`rd_format`.** -/
def rdFormat (d : Design) : Bytes := (formatLines d).flatMap (· ++ [lf])

/-! ### What is read -/

/-- What holds of a design that was read. -/
structure Design.Valid (d : Design) : Prop where
  name_ne : d.name ≠ []
  name_lt : d.name.length < 48
  name : ∀ c ∈ d.name, 0x20 ≤ c ∧ c ≠ 0x7f
  leds : 1 ≤ d.leds ∧ d.leds ≤ 24
  frames_ne : d.frames ≠ []
  frames_le : d.frames.length ≤ 1000
  frame : ∀ f ∈ d.frames, (1 ≤ f.ms ∧ f.ms ≤ 60000) ∧ f.px.length = d.leds
  loop : ∀ k ∈ d.loop, k < d.frames.length

/-- What holds of one that is being read. -/
structure Design.Draft (d : Design) : Prop where
  name_lt : d.name.length < 48
  name : ∀ c ∈ d.name, 0x20 ≤ c ∧ c ≠ 0x7f
  leds_le : d.leds ≤ 24
  leds : d.frames ≠ [] → 1 ≤ d.leds
  frames_le : d.frames.length ≤ 1000
  frame : ∀ f ∈ d.frames, (1 ≤ f.ms ∧ f.ms ≤ 60000) ∧ f.px.length = d.leds

theorem draft_start : ({} : Design).Draft where
  name_lt := by norm_num
  name := fun _ hc => absurd hc not_mem_nil
  leds_le := by norm_num
  leds := fun hne => absurd rfl hne
  frames_le := by norm_num
  frame := fun _ hf => absurd hf not_mem_nil

theorem map_ok {α β : Type} {x : Except Bytes α} {f : α → β} {b : β} :
    x.map f = .ok b ↔ ∃ a, x = .ok a ∧ f a = b := by
  cases x with
  | error e => simp [Except.map]
  | ok a => simp [Except.map]

/-- A colour for each LED. -/
theorem pixels_length {n : ℕ} {l : Bytes} {ps : List Pixel} (hn : 1 ≤ n) (hl : l.length = n * 7 - 1)
    (h : pixels n l = .ok ps) : ps.length = n := by
  fun_induction pixels n l generalizing ps with
  | case1 a b c d e f l r hr g hg b' hb =>
    rw [← Except.ok.inj h]
    rfl
  | case2 => cases h
  | case3 n a b c d e f r hr g hg b' hb hne x l hx ih =>
    obtain ⟨qs, hqs, rfl⟩ := map_ok.mp h
    simp only [length_cons] at hl ⊢
    rw [ih (by omega) (by omega) hqs]
  | case4 n a b c d e f r hr g hg b' hb hne =>
    simp only [length_cons, length_nil] at hl
    omega
  | case5 => cases h
  | case6 n l hshort =>
    obtain ⟨m, rfl⟩ : ∃ m, n = m + 1 := ⟨n - 1, by omega⟩
    match l, hl with
    | a :: b :: c :: d :: e :: f :: l, _ => exact absurd rfl (hshort m a b c d e f l rfl)
    | [], hl | [_], hl | [_, _], hl | [_, _, _], hl | [_, _, _, _], hl | [_, _, _, _, _], hl =>
      simp only [length_cons, length_nil] at hl
      omega

theorem frameLine_draft {d d' : Design} {l : Bytes} (hd : d.Draft) (h : frameLine d l = .ok d') :
    d'.Draft := by
  unfold frameLine at h
  dsimp only at h
  split at h
  · cases h
  · split at h
    · cases h
    · next hms =>
      split at h
      · cases h
      · next hleds =>
        split at h
        · cases h
        · next hcount =>
          split at h
          · cases h
          · next hlen =>
            obtain ⟨px, hpx, rfl⟩ := map_ok.mp h
            have hpixels := pixels_length (by omega) (not_not.mp hlen) hpx
            refine { hd with leds := fun _ => by dsimp only; omega, frames_le := ?_,
                             frame := fun f hf => ?_ }
            · simp only [length_append, length_singleton]
              omega
            · rcases mem_append.mp hf with hf | hf
              · exact hd.frame f hf
              · rw [mem_singleton.mp hf]
                exact ⟨by dsimp only; omega, hpixels⟩

theorem fieldLine_draft {d d' : Design} {l : Bytes} (hd : d.Draft) (h : fieldLine d l = .ok d') :
    d'.Draft := by
  unfold fieldLine at h
  split at h
  · split at h
    · cases h
    · next hlen =>
      split at h
      · cases h
      · next hname =>
        rw [← Except.ok.inj h]
        refine { hd with name_lt := by dsimp only; omega, name := fun x hx => ?_ }
        have hx' : ¬ (x < 0x20 ∨ x = 0x7f) := fun hbad => hname ⟨x, hx, hbad⟩
        rw [not_or] at hx'
        exact ⟨UInt8.not_lt.mp hx'.1, hx'.2⟩
  · split at h
    · split at h
      · next k hk =>
        have hbounds := of_decide_eq_true (filter_eq_some_iff.mp hk).2
        rw [← Except.ok.inj h]
        refine { hd with leds_le := by dsimp only; omega, leds := fun hne => absurd hbounds.1 hne,
                         frame := ?_ }
        intro f hf
        rw [show d.frames = [] from hbounds.1] at hf
        cases hf
      · cases h
    · split at h
      · split at h
        · rw [← Except.ok.inj h]
          exact { hd with }
        · split at h
          · rw [← Except.ok.inj h]
            exact { hd with }
          · cases h
      · split at h
        · exact frameLine_draft hd h
        · cases h

/-- One line keeps what holds. -/
theorem designLine_draft {d d' : Design} {l : Bytes} (hd : d.Draft) (h : designLine d l = .ok d') :
    d'.Draft := by
  unfold designLine at h
  dsimp only at h
  generalize (if l.getLast? = some cr then l.dropLast else l) = l' at h
  split at h
  · rw [← Except.ok.inj h]
    exact hd
  · exact fieldLine_draft hd h

theorem designLines_draft {n : ℕ} {d d' : Design} {ls : List Bytes} (hd : d.Draft)
    (h : designLines n d ls = .ok d') : d'.Draft := by
  induction ls generalizing n d with
  | nil =>
    rw [← Except.ok.inj h]
    exact hd
  | cons l ls ih =>
    unfold designLines at h
    split at h
    · next e hline => exact ih (designLine_draft hd hline) h
    · cases h

/-- The words of the format, and the name of a design that has none. -/
theorem words : text "name " = [0x6e, 0x61, 0x6d, 0x65, 0x20] ∧
    text "leds " = [0x6c, 0x65, 0x64, 0x73, 0x20] ∧
    text "loop " = [0x6c, 0x6f, 0x6f, 0x70, 0x20] ∧ text "once" = [0x6f, 0x6e, 0x63, 0x65] ∧
    text "slot " = [0x73, 0x6c, 0x6f, 0x74, 0x20] ∧ text "slot" = [0x73, 0x6c, 0x6f, 0x74] ∧
    text "end" = [0x65, 0x6e, 0x64] ∧ text "end\n" = [0x65, 0x6e, 0x64, lf] ∧
    ((∀ w ∈ [text "name ", text "leds ", text "loop ", text "once", text "slot ",
      text "end", text "Design"], ∀ c ∈ w, 0x20 ≤ c ∧ c ≠ 0x7f) ∧ text "Design" ≠ [] ∧
      (text "Design").length < 48) := by
  decide +kernel

theorem words_shown : ∀ w ∈ [text "name ", text "leds ", text "loop ", text "once", text "slot ",
      text "end", text "Design"],
    ∀ c ∈ w, 0x20 ≤ c ∧ c ≠ 0x7f := words.2.2.2.2.2.2.2.2.1

/-- **What is read is valid.** -/
theorem rdParse_valid {t : Bytes} {d : Design} (h : rdParse t = .ok d) : d.Valid := by
  unfold rdParse at h
  split at h
  · next e hlines =>
    have hdraft := designLines_draft draft_start hlines
    unfold finish at h
    split at h
    · cases h
    · next hframes =>
      split at h
      · cases h
      · next hloop =>
        obtain ⟨-, -, -, -, -, -, -, -, hdesign⟩ := words
        obtain rfl := Except.ok.inj h
        refine
          { name_ne := ?_, name_lt := ?_, name := ?_, leds := ⟨hdraft.leds hframes, hdraft.leds_le⟩,
            frames_ne := hframes, frames_le := hdraft.frames_le, frame := hdraft.frame, loop := ?_ }
        · dsimp only
          split
          · exact hdesign.2.1
          · assumption
        · dsimp only
          split
          · exact hdesign.2.2
          · exact hdraft.name_lt
        · dsimp only
          split
          · exact hdesign.1 _ (by simp)
          · exact hdraft.name
        · intro k hk
          by_contra hle
          refine hloop ?_
          rw [Option.any_eq_true]
          exact ⟨k, hk, decide_eq_true (Nat.not_lt.mp hle)⟩
  · cases h

/-! ### What is written -/

/-- Two hexadecimal digits are read as they were written; the digits of a number have no NUL, no
line end and no other control character in them. -/
theorem digits_facts :
    (∀ c : UInt8, channel (upperDigit (c.toNat / 16)) (upperDigit (c.toNat % 16)) = some c) ∧
    ∀ {c : UInt8}, value c < 10 →
    0x20 ≤ c ∧ c ≠ nul ∧ c ≠ cr ∧ c ≠ lf ∧ c ≠ 0x23 ∧ isDigit c = true ∧
      c.toNat - 48 = value c := by
  decide +kernel

theorem channel_hexByte (c : UInt8) : channel (upperDigit (c.toNat / 16))
    (upperDigit (c.toNat % 16)) = some c :=
  digits_facts.1 c

theorem length_pixel (p : Pixel) : p.text.length = 6 := rfl

theorem length_pixelsText {ps : List Pixel} (hne : ps ≠ []) :
    (pixelsText ps).length = ps.length * 7 - 1 := by
  cases ps with
  | nil => exact absurd rfl hne
  | cons p ps =>
    have hrest : (ps.flatMap fun q => comma :: q.text).length = ps.length * 7 := by
      induction ps with
      | nil => rfl
      | cons q ps ih =>
        rw [flatMap_cons, length_append, length_cons, length_pixel, length_cons, ih]
        · omega
        · exact cons_ne_nil p ps
    unfold pixelsText
    rw [length_append, length_pixel, length_cons, hrest]
    omega

/-- **Colours are read as they were written.** -/
theorem pixels_pixelsText {ps : List Pixel} (hne : ps ≠ []) :
    pixels ps.length (pixelsText ps) = .ok ps := by
  cases ps with
  | nil => exact absurd rfl hne
  | cons p ps =>
    clear hne
    induction ps generalizing p with
    | nil =>
      show pixels 1 (hexByte p.r ++ hexByte p.g ++ hexByte p.b ++ []) = _
      simp only [hexByte, cons_append, nil_append, pixels, channel_hexByte]
      rfl
    | cons q ps ih =>
      have hq := ih q
      have htext : pixelsText (p :: q :: ps) = hexByte p.r ++ hexByte p.g ++ hexByte p.b ++ comma ::
          pixelsText (q :: ps) := by
        simp [pixelsText, Pixel.text]
      rw [htext, length_cons]
      simp only [hexByte, cons_append, nil_append, pixels, channel_hexByte]
      rw [if_neg (by simp), if_neg (by simp), hq]
      rfl

theorem digit_plain {c : UInt8} (hc : value c < 10) :
    c ≠ nul ∧ c ≠ cr ∧ c ≠ lf ∧ c ≠ 0x23 ∧ isDigit c = true ∧
    c.toNat - 48 = value c :=
  (digits_facts.2 hc).2

theorem decimal_natCast (n : ℕ) : decimal n = numeral 10 n := by
  unfold decimal
  rw [if_neg (by omega), nil_append, Int.natAbs_natCast]

theorem numeral_digits (n : ℕ) : ∀ c ∈ numeral 10 n, value c < 10 :=
  Text.value_numeral (by norm_num) (by norm_num) n

/-- **A number is scanned as it was written.** -/
theorem scanInt_decimal {n : ℕ} (hn : n ≤ 0x7fffffff) : scanInt (decimal n) = some (n : ℤ) := by
  have hwhole : (decimal n).takeWhile (· ≠ nul) = decimal n := by
    refine takeWhile_eq_self_iff.mpr fun c hc => decide_eq_true ?_
    rw [decimal_natCast] at hc
    exact (digit_plain (numeral_digits n c hc)).1
  have hends : Text.Ends 10 [] := fun c hc => by cases hc
  have hread := @Text.signed_decimal [] n (by omega) (by omega) hends
  rw [append_nil] at hread
  unfold scanInt
  rw [hwhole, hread]
  rfl

theorem le_foldl_digits (a : ℕ) (ds : Bytes) : a ≤ ds.foldl (fun v c => 10 * v + value c) a := by
  induction ds generalizing a with
  | nil => exact le_rfl
  | cons c ds ih =>
    have hrest := ih (10 * a + value c)
    rw [foldl_cons]
    omega

/-- The digits of a time are read, since it does not pass the bound before the last of them. -/
theorem readMs_digits {a : ℕ} {ds : Bytes} (hds : ∀ c ∈ ds, value c < 10)
    (hbound : ds.foldl (fun v c => 10 * v + value c) a ≤ 60000) (l : Bytes) :
    readMs a (ds ++ colon :: l) = (ds.foldl (fun v c => 10 * v + value c) a, colon :: l) := by
  induction ds generalizing a with
  | nil =>
    show readMs a (colon :: l) = _
    have hcolon : isDigit colon = false := by decide
    rw [readMs, if_neg (by rw [hcolon]; exact fun h => Bool.false_ne_true h.1)]
    rfl
  | cons c ds ih =>
    obtain ⟨-, -, -, -, hdigit, hvalue⟩ := digit_plain (hds c mem_cons_self)
    have ha := (le_foldl_digits a (c :: ds)).trans hbound
    have hnext : a * 10 + (c.toNat - 48) = 10 * a + value c := by omega
    rw [foldl_cons] at hbound ⊢
    rw [cons_append, readMs, if_pos ⟨hdigit, ha⟩, hnext,
      ih (fun d hd => hds d (mem_cons_of_mem c hd)) hbound]

/-- **A time is read as it was written.** -/
theorem readMs_decimal {ms : ℕ} (hms : ms ≤ 60000) (l : Bytes) :
    readMs 0 (decimal ms ++ colon :: l) = (ms, colon :: l) := by
  have hvalue : (numeral 10 ms).foldl (fun v c => 10 * v + value c) 0 = ms :=
    Text.ofDigits_numeral (by norm_num) (by norm_num) ms
  rw [decimal_natCast, readMs_digits (numeral_digits ms) (by rw [hvalue]; exact hms), hvalue]

/-! ### Each line -/

theorem field_append {w : String} {v : Bytes} (hv : v ≠ []) : field w (text w ++ v) = some v := by
  unfold field
  rw [Text.literal_append]
  exact filter_some_pos (decide_eq_true hv)

theorem field_none {w : String} {l : Bytes} (h : ¬ text w <+: l) : field w l = none := by
  unfold field Text.literal
  rw [if_neg h]
  rfl

/-- A line that ends with no carriage return and is no comment. -/
theorem designLine_field {d : Design} {l : Bytes} (hne : l ≠ []) (hhash : l.head? ≠ some 0x23)
    (hcr : l.getLast? ≠ some cr) : designLine d l = fieldLine d l := by
  unfold designLine
  dsimp only
  rw [if_neg hcr, if_neg (not_or.mpr ⟨hne, hhash⟩)]

theorem getLast?_append_digits {l ds : Bytes} (hne : ds ≠ []) (hds : ∀ c ∈ ds, c ≠ cr) :
    (l ++ ds).getLast? ≠ some cr := by
  rw [getLast?_append_of_ne_nil l hne]
  intro hlast
  exact hds cr (mem_of_getLast? hlast) rfl

theorem designLine_name {d : Design} {v : Bytes} (hne : v ≠ []) (hlen : v.length < 48)
    (hv : ∀ c ∈ v, 0x20 ≤ c ∧ c ≠ 0x7f) :
    designLine d (text "name " ++ v) = .ok { d with name := v } := by
  have hcr : (text "name " ++ v).getLast? ≠ some cr :=
    getLast?_append_digits hne fun c hc heq => absurd (heq ▸ (hv c hc).1) (by decide)
  have hclean : ¬ ∃ x ∈ v, x < 0x20 ∨ x = 0x7f := by
    rintro ⟨x, hx, hlt | heq⟩
    · exact absurd hlt (UInt8.not_lt.mpr (hv x hx).1)
    · exact (hv x hx).2 heq
  rw [designLine_field (by rw [words.1]; exact cons_ne_nil _ _) (by rw [words.1]; simp) hcr]
  unfold fieldLine
  rw [field_append hne]
  dsimp only
  rw [if_neg (by omega), if_neg hclean]

theorem decimal_ne_nil (n : ℕ) : decimal n ≠ [] := by
  rw [decimal_natCast]
  exact Text.numeral_ne_nil 10 n

theorem decimal_digits {n : ℕ} : ∀ c ∈ decimal n, value c < 10 := by
  rw [decimal_natCast]
  exact numeral_digits n

theorem length_decimal_le {n k : ℕ} (hk : 0 < k) (hn : n < 10 ^ k) : (decimal n).length ≤ k := by
  rw [decimal_natCast]
  exact Text.length_numeral_le (by norm_num) hk hn

/-- No other line starts as the one with the name does. -/
theorem field_name_none {c : UInt8} (hc : c ≠ 0x6e) (l : Bytes) :
    field "name " (c :: l) = none := by
  refine field_none ?_
  rw [words.1]
  exact fun h => hc (cons_prefix_cons.mp h).1.symm

theorem designLine_leds {d : Design} (hd : d.frames = []) {n : ℕ} (hlo : 1 ≤ n) (hhi : n ≤ 24) :
    designLine d (text "leds " ++ decimal n) = .ok { d with leds := n } := by
  have hcr : (text "leds " ++ decimal n).getLast? ≠ some cr :=
    getLast?_append_digits (decimal_ne_nil n) fun c hc => (digit_plain (decimal_digits c hc)).2.1
  have hname : field "name " (text "leds " ++ decimal n) = none := by
    rw [words.2.1]
    exact field_name_none (by decide) _
  have htake : (decimal n).take 7 = decimal n :=
    take_of_length_le ((@length_decimal_le n 2 (by norm_num) (by omega)).trans (by norm_num))
  have hfilter : (some (n : ℤ)).filter (fun k =>
      decide (d.frames = [] ∧ 1 ≤ k ∧ k ≤ 24)) = some (n : ℤ) :=
    filter_some_pos (decide_eq_true ⟨hd, by omega, by omega⟩)
  rw [designLine_field (by rw [words.2.1]; exact cons_ne_nil _ _) (by rw [words.2.1]; simp) hcr]
  unfold fieldLine
  rw [hname, field_append (decimal_ne_nil n)]
  dsimp only
  rw [htake, scanInt_decimal (by omega), hfilter]
  rfl

theorem designLine_loop {d : Design} {l : Option ℕ} (hl : ∀ k ∈ l, k < 1000) :
    designLine d (text "loop " ++ loopText l) = .ok { d with loop := l } := by
  have honce := words.2.2.2.1
  have hne : loopText l ≠ [] := by
    cases l with
    | none => exact fun h => by rw [loopText, honce] at h; cases h
    | some k => exact decimal_ne_nil k
  have hplain : ∀ c ∈ loopText l, c ≠ cr := by
    cases l with
    | none =>
      show ∀ c ∈ text "once", c ≠ cr
      rintro c hc rfl
      exact absurd (words_shown (text "once") (by simp) cr hc).1 (by decide)
    | some k => exact fun c hc => (digit_plain (decimal_digits c hc)).2.1
  have hcr : (text "loop " ++ loopText l).getLast? ≠ some cr := getLast?_append_digits hne hplain
  have hname : field "name " (text "loop " ++ loopText l) = none := by
    rw [words.2.2.1]
    exact field_name_none (by decide) _
  have hleds : field "leds " (text "loop " ++ loopText l) = none := by
    refine field_none ?_
    rw [words.2.1, words.2.2.1]
    exact fun h => absurd (cons_prefix_cons.mp (cons_prefix_cons.mp h).2).1 (by decide)
  rw [designLine_field (by rw [words.2.2.1]; exact cons_ne_nil _ _) (by rw [words.2.2.1]; simp) hcr]
  unfold fieldLine
  rw [hname, hleds, field_append hne]
  dsimp only
  cases l with
  | none =>
    have hread : ((loopText none).take 11).takeWhile (· ≠ nul) = text "once" := by
      rw [loopText, honce]
      decide
    rw [if_pos hread]
  | some k =>
    have hk := hl k rfl
    have htake : (decimal k).take 11 = decimal k :=
      take_of_length_le ((@length_decimal_le k 3 (by norm_num) (by omega)).trans (by norm_num))
    -- no digit is the `o` of `once`
    have hdigits : (decimal k).takeWhile (· ≠ nul) ≠ text "once" := by
      intro heq
      have hmem : (0x6f : UInt8) ∈ (decimal k).takeWhile (· ≠ nul) := by
        rw [heq, honce]
        decide
      exact absurd (decimal_digits _ (takeWhile_subset _ hmem)) (by decide)
    have hfilter : (some (k : ℤ)).filter (fun k => decide (0 ≤ k ∧ k < 1000)) = some (k : ℤ) :=
      filter_some_pos (decide_eq_true ⟨by omega, by omega⟩)
    have hsome : loopText (some k) = decimal k := rfl
    rw [hsome, htake, if_neg hdigits, scanInt_decimal (by omega), hfilter]
    rfl

/-- The last character of a frame is a digit. -/
theorem getLast?_pixelsText {ps : List Pixel} (hne : ps ≠ []) :
    ∃ c, (pixelsText ps).getLast? = some c ∧ c ≠ cr := by
  have hdigit : ∀ d < 16, upperDigit d ≠ cr := by decide
  have hpixel : ∀ p : Pixel, p.text.getLast? = some (upperDigit (p.b.toNat % 16)) := fun _ => rfl
  cases ps with
  | nil => exact absurd rfl hne
  | cons p ps =>
    clear hne
    induction ps generalizing p with
    | nil =>
      refine ⟨upperDigit (p.b.toNat % 16), ?_, hdigit _ (Nat.mod_lt _ (by norm_num))⟩
      show (p.text ++ []).getLast? = _
      rw [append_nil, hpixel]
    | cons q ps ih =>
      obtain ⟨c, hc, hne⟩ := ih q
      have htext : pixelsText (p :: q :: ps) = (p.text ++ [comma]) ++ pixelsText (q :: ps) := by
        simp [pixelsText]
      refine ⟨c, ?_, hne⟩
      rw [htext, getLast?_append_of_ne_nil, hc]
      intro hnil
      rw [hnil] at hc
      cases hc

theorem designLine_frame {d : Design} {f : Frame} (hms : 1 ≤ f.ms ∧ f.ms ≤ 60000)
    (hpx : f.px.length = d.leds) (hleds : 1 ≤ d.leds) (hcount : d.frames.length < 1000) :
    designLine d (frameText f) = .ok { d with frames := d.frames ++ [f] } := by
  have hpne : f.px ≠ [] := by
    intro hnil
    rw [hnil, length_nil] at hpx
    omega
  obtain ⟨c, ds, hcons⟩ : ∃ c ds, decimal f.ms = c :: ds :=
    exists_cons_of_ne_nil (decimal_ne_nil f.ms)
  have hc := decimal_digits c (hcons ▸ mem_cons_self)
  obtain ⟨-, -, -, hhash, hdigit, -⟩ := digit_plain hc
  have htext : frameText f = c :: (ds ++ colon :: pixelsText f.px) := by
    unfold frameText
    rw [hcons]
    rfl
  have hcr : (frameText f).getLast? ≠ some cr := by
    obtain ⟨e, he, hne⟩ := getLast?_pixelsText hpne
    have happ : frameText f = (decimal f.ms ++ [colon]) ++ pixelsText f.px := by simp [frameText]
    rw [happ, getLast?_append_of_ne_nil, he]
    · exact fun heq => hne (some.inj heq)
    · intro hnil
      rw [hnil] at he
      cases he
  -- a digit starts none of the other lines
  have hletters : c ≠ 0x6e ∧ c ≠ 0x6c := by
    refine ⟨?_, ?_⟩ <;> rintro rfl <;> exact absurd hc (by decide)
  have hleds' : field "leds " (frameText f) = none := by
    refine field_none ?_
    rw [words.2.1, htext]
    exact fun h => hletters.2 (cons_prefix_cons.mp h).1.symm
  have hloop : field "loop " (frameText f) = none := by
    refine field_none ?_
    rw [words.2.2.1, htext]
    exact fun h => hletters.2 (cons_prefix_cons.mp h).1.symm
  have hname : field "name " (frameText f) = none := by
    rw [htext]
    exact field_name_none hletters.1 _
  have hhead : (frameText f).head? = some c := by rw [htext]; rfl
  have hread : readMs 0 (frameText f) = (f.ms, colon :: pixelsText f.px) := readMs_decimal hms.2 _
  have hlen := length_pixelsText hpne
  have hpixels := pixels_pixelsText hpne
  rw [hpx] at hlen hpixels
  rw [designLine_field (by rw [htext]; exact cons_ne_nil _ _)
    (by rw [hhead]; simpa using hhash) hcr]
  unfold fieldLine
  rw [hname, hleds', hloop, hhead]
  dsimp only
  rw [if_pos (by simpa using hdigit)]
  unfold frameLine
  rw [hread]
  dsimp only
  rw [if_neg (by simp; omega), if_neg (by omega), if_neg (by omega), if_neg (by omega), hpixels]
  rfl

/-! ### The whole -/

theorem shown_digits {n : ℕ} : ∀ c ∈ decimal n, 0x20 ≤ c :=
  fun c hc => (digits_facts.2 (decimal_digits c hc)).1

theorem shown_pixel (p : Pixel) : ∀ c ∈ p.text, 0x20 ≤ c := by
  have hdigit : ∀ k < 16, 0x20 ≤ upperDigit k := by decide
  have hbyte : ∀ v : UInt8, ∀ c ∈ hexByte v, 0x20 ≤ c := by
    intro v c hc
    have hv := v.toNat_lt
    simp only [hexByte, mem_cons, not_mem_nil, or_false] at hc
    rcases hc with rfl | rfl
    · exact hdigit _ (by omega)
    · exact hdigit _ (by omega)
  intro c hc
  unfold Pixel.text at hc
  rcases mem_append.mp hc with hc | hc
  · rcases mem_append.mp hc with hc | hc
    · exact hbyte p.r c hc
    · exact hbyte p.g c hc
  · exact hbyte p.b c hc

theorem shown_pixelsText (ps : List Pixel) : ∀ c ∈ pixelsText ps, 0x20 ≤ c := by
  cases ps with
  | nil => exact fun c hc => absurd hc not_mem_nil
  | cons p ps =>
    intro c hc
    unfold pixelsText at hc
    rcases mem_append.mp hc with hc | hc
    · exact shown_pixel p c hc
    · obtain ⟨q, -, hq⟩ := mem_flatMap.mp hc
      rcases mem_cons.mp hq with rfl | hq
      · decide
      · exact shown_pixel q c hq

/-- **No line has a control character in it**, and so no line end. -/
theorem shown_formatLines {d : Design} (hname : ∀ c ∈ d.name, 0x20 ≤ c ∧ c ≠ 0x7f) :
    ∀ l ∈ formatLines d, ∀ c ∈ l, 0x20 ≤ c := by
  intro l hl
  rcases mem_cons.mp hl with rfl | hl
  · intro c hc
    rcases mem_append.mp hc with hc | hc
    · exact (words_shown _ (by simp) c hc).1
    · exact (hname c hc).1
  · rcases mem_cons.mp hl with rfl | hl
    · intro c hc
      rcases mem_append.mp hc with hc | hc
      · exact (words_shown (text "leds ") (by simp) c hc).1
      · exact shown_digits c hc
    · rcases mem_cons.mp hl with rfl | hl
      · intro c hc
        rcases mem_append.mp hc with hc | hc
        · exact (words_shown (text "loop ") (by simp) c hc).1
        · cases hloop : d.loop with
          | none =>
            rw [hloop] at hc
            exact (words_shown (text "once") (by simp) c hc).1
          | some k =>
            rw [hloop] at hc
            exact shown_digits c hc
      · obtain ⟨f, -, rfl⟩ := mem_map.mp hl
        intro c hc
        unfold frameText at hc
        rcases mem_append.mp hc with hc | hc
        · exact shown_digits c hc
        · rcases mem_cons.mp hc with rfl | hc
          · decide
          · exact shown_pixelsText f.px c hc

theorem noLf_of_shown {l : Bytes} (h : ∀ c ∈ l, 0x20 ≤ c) : lf ∉ l :=
  fun hmem => absurd (h lf hmem) (by decide)

/-- **The frames are read as they were written**, one after the other. -/
theorem designLines_frames (n : ℕ) {d : Design} {fs : List Frame} (hleds : 1 ≤ d.leds)
    (hfs : ∀ f ∈ fs, (1 ≤ f.ms ∧ f.ms ≤ 60000) ∧ f.px.length = d.leds)
    (hcount : d.frames.length + fs.length ≤ 1000) :
    designLines n d (fs.map frameText) = .ok { d with frames := d.frames ++ fs } := by
  induction fs generalizing n d with
  | nil =>
    rw [append_nil]
    rfl
  | cons f fs ih =>
    obtain ⟨hms, hpx⟩ := hfs f mem_cons_self
    rw [length_cons] at hcount
    have hline : designLine d (frameText f) = .ok { d with frames := d.frames ++ [f] } :=
      designLine_frame hms hpx hleds (by omega)
    have hrest := @ih (n + 1) { d with frames := d.frames ++ [f] } hleds
      (fun g hg => hfs g (mem_cons_of_mem f hg))
      (by simp only [length_append, length_singleton]; omega)
    rw [map_cons, designLines, hline]
    dsimp only
    rw [hrest]
    simp

/-- **A valid design is read as it was written.** -/
theorem rdParse_rdFormat {d : Design} (hd : d.Valid) : rdParse (rdFormat d) = .ok d := by
  have hlines := Text.pieces_lines (fun l hl => noLf_of_shown (shown_formatLines hd.name l hl)) []
  have hnil : Text.pieces lf [] [] = [] := rfl
  rw [append_nil, hnil, append_nil] at hlines
  have hloop : ∀ k ∈ d.loop, k < 1000 := fun k hk => (hd.loop k hk).trans_le hd.frames_le
  have hframes := @designLines_frames 4 { name := d.name, leds := d.leds, loop := d.loop }
    d.frames hd.leds.1 hd.frame
    (by rw [length_nil, Nat.zero_add]; exact hd.frames_le)
  have hread : designLines 1 {} (formatLines d) = .ok d := by
    unfold formatLines
    rw [designLines, designLine_name hd.name_ne hd.name_lt hd.name]
    dsimp only
    rw [designLines, designLine_leds rfl hd.leds.1 hd.leds.2]
    dsimp only
    rw [designLines, designLine_loop hloop]
    dsimp only
    rw [hframes]
    rfl
  unfold rdParse rdFormat
  rw [hlines, hread]
  dsimp only
  unfold finish
  rw [if_neg hd.frames_ne, if_neg, if_neg hd.name_ne]
  rw [Option.any_eq_true]
  rintro ⟨k, hk, hle⟩
  exact absurd (hd.loop k hk) (Nat.not_lt.mpr (of_decide_eq_true hle))

/-- **A design that was read is read again as it is written.** -/
theorem rdParse_again {t : Bytes} {d : Design} (h : rdParse t = .ok d) :
    rdParse (rdFormat d) = .ok d :=
  rdParse_rdFormat (rdParse_valid h)

end Hassmic.Ring
