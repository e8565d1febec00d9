import Hassmic.Json.Escape
import Hassmic.Lib.Pieces
import Hassmic.Mww.Prepare

/-!
# The manifest of a wake-word model

Each installed model has a manifest, in microWakeWord's format.  One that comes with a model is
read, its values are moved into their bounds, and it is written anew; a change made on the settings
page reads it, changes a few values and writes it again.  What reads it is no general JSON parser:
it looks for a few keys by name, wherever they stand.

An id, a model's size and the folder are left out, and so is the model itself.  A number of single
precision is a rational.

## Main definitions

* `Info` — `struct mww_info`: what a manifest says.
* `manifestParse` — `mww_manifest_parse`, by `jkey`, `getStr` and `getNum`.
* `manifest` — what `write_manifest` writes.
* `addInfo`, `editInfo` — what `mww_add` and `mww_edit` write a manifest of.

* `Stored` — such manifests.

## Main results

* `manifestParse_sound` — what was read is within its bounds and without control characters.
* `Stored.sound` — whatever is written is within its bounds.
-/

namespace Hassmic.Mww

open Byte List Option

/-- `struct mww_info`, as far as it stands in a manifest. -/
structure Info where
  name : Bytes := []
  author : Bytes := []
  website : Bytes := []
  langs : Bytes := []
  cutoff : ℚ := 0
  window : ℤ := 0
  deriving DecidableEq

/-! ### Numbers -/

/-- `(float)`, of a number far from overflow. -/
def toFloat (x : ℚ) : ℚ := Double.roundEven (x / 2 ^ Single.place x) * 2 ^ Single.place x

/-- `MWW_CUTOFF_MIN`. -/
def cutoffMin : ℚ := 1 / 2

/-- `MWW_CUTOFF_MAX`. -/
def cutoffMax : ℚ := toFloat (99 / 100)

/-- `(int)` of a number of double precision. -/
def truncate : Double → ℤ
  | .fin x => max (-2 ^ 31) (min (2 ^ 31 - 1) (if x < 0 then -⌊-x⌋ else ⌊x⌋))
  | .inf neg => if neg then -2 ^ 31 else 2 ^ 31 - 1
  | .nan => 0

/-- The hundredths that `%.2f` writes of a number that is not negative. -/
def hundredths (x : ℚ) : ℕ := (Double.roundEven (100 * x)).toNat

/-- So many hundredths, with two decimals. -/
def twoDecimals (k : ℕ) : Bytes :=
  Text.numeral 10 (k / 100) ++ dot :: Text.pad 2 (Text.numeral 10 (k % 100))

/-! ### Reading -/

/-- `skip_ws`. -/
def skipWs (l : Bytes) : Bytes := l.dropWhile Text.isSpace

/-- A character goes into the buffer of `cap` bytes unless it is a control character or the buffer
is full. -/
def put (cap : ℕ) (out : Bytes) (c : UInt8) : Bytes :=
  if 0x20 ≤ c ∧ out.length + 1 < cap then out ++ [c] else out

/-- The character behind a backslash, as it is kept. -/
def unescape (c : UInt8) : UInt8 := if c ∈ [0x6e, 0x74, 0x72, 0x62, 0x66] then space else c

/-- What is kept of the character of a `\u` escape: NUL, which is not put, outside ASCII and for
control characters. -/
def unicode (a b c d : UInt8) : UInt8 :=
  let v := Text.ofDigits 16 [a, b, c, d]
  if 0x20 ≤ v ∧ v < 0x7f then v.toUInt8 else nul

/-- `jstr`: a string behind its quote.  What is in the buffer, and what follows the closing quote,
none if there is no closing quote. -/
def jstr (cap : ℕ) : Bytes → Bytes → Bytes × Option Bytes
  | out, [] => (out, none)
  | out, c :: l =>
      if c = quote then (out, some l)
      else if c ≠ backslash then jstr cap (put cap out c) l
      else
        match l with
        | [] => (put cap out backslash, none)
        | c :: l =>
            if c ≠ 0x75 then jstr cap (put cap out (unescape c)) l
            else
              match l with
              | a :: b :: c :: d :: l =>
                  if ∀ x ∈ [a, b, c, d], Text.value x < 16 then
                    jstr cap (put cap out (unicode a b c d)) l
                  else (out, none)
              | _ => (out, none)

/-- What follows a key and its colon, none if the text does not start with them. -/
def labelAt (key l : Bytes) : Option Bytes :=
  (Text.literal (quote :: key ++ [quote]) l).bind fun v =>
    match skipWs v with
    | [] => none
    | c :: v => if c = colon then some (skipWs v) else none

/-- `jkey`: where the value of a key starts. -/
def jkey (key : Bytes) : Bytes → Option Bytes
  | [] => none
  | c :: l =>
      if (c :: l).length ≤ key.length + 2 then none
      else match labelAt key (c :: l) with
        | some v => some v
        | none => jkey key l

/-- `jget_str`: whether there is such a string, and what the buffer then holds. -/
def getStr (json key : Bytes) (cap : ℕ) : Bool × Bytes :=
  match jkey key json with
  | some (c :: v) =>
    if c = quote then ((jstr cap [] v).2.isSome, (jstr cap [] v).1) else (false, [])
  | _ => (false, [])

/-- The characters of a number: digits, and one of `.-+eE`; `strchr` finds the NUL too. -/
def numChar (c : UInt8) : Bool := isDigit c || c ∈ [dot, minus, plus, 0x65, 0x45, nul]

/-- The number that a buffer holds, none unless it holds nothing else. -/
def number (t : Bytes) : Option Double :=
  if t = [] then none
  else
    let s := t.takeWhile (· ≠ nul)
    match Double.strtod s with
    | some (d, []) => some d
    | some _ => none
    | none => if s = [] then some (.fin 0) else none

/-- `jget_num`. -/
def getNum (json key : Bytes) : Option Double :=
  (jkey key json).bind fun v => number ((v.take 31).takeWhile numChar)

/-- A language goes behind those that are in the buffer, if there is room. -/
def addLang (langs t : Bytes) : Bytes :=
  if t ≠ [] ∧ langs.length + t.length + 2 < 64 then
    langs ++ (if langs = [] then [] else [comma]) ++ t else langs

/-- The loop over `trained_languages`. -/
def langsLoop : ℕ → Bytes → Bytes → Bytes
  | n + 1, langs, c :: v =>
      if c = quote then
        match jstr 64 [] v with
        | (_, none) => langs
        | (t, some v) =>
            match skipWs v with
            | [] => addLang langs t
            | c :: v => langsLoop n (addLang langs t) (if c = comma then skipWs v else c :: v)
      else langs
  | _, langs, _ => langs

/-- `trained_languages`, with commas between them. -/
def trainedLanguages (json : Bytes) : Bytes :=
  match jkey (text "trained_languages") json with
  | some (c :: v) => if c = lbracket then langsLoop v.length [] (skipWs v) else []
  | _ => []

/-- A probability that is neither 0 nor 1. -/
def between : Double → Option ℚ
  | .fin x => if 0 < x ∧ x < 1 then some x else none
  | _ => none

/-- **`mww_manifest_parse`**, with the text of its error before that is cut to the caller's
buffer. -/
def manifestParse (json : Bytes) : Except Bytes Info := do
  refuse (8192 < json.length) (text "manifest too long")
  let type := getStr json (text "type") 64
  refuse (type.1 = true ∧ type.2 ≠ text "micro")
    (text "a \"" ++ type.2 ++ text "\" model, not microWakeWord's")
  let name := getStr json (text "wake_word") 64
  refuse (name.1 = false ∨ name.2 = []) (text "manifest without a wake_word")
  let d ← orFail ((getNum json (text "probability_cutoff")).bind between)
    (text "manifest without a probability_cutoff")
  let window := ((getNum json (text "sliding_window_size")).map truncate).getD 5
  refuse (window < 1 ∨ 20 < window) (text "sliding_window_size " ++ Text.decimal window)
  let step := ((getNum json (text "feature_step_size")).map truncate).getD 10
  refuse (step ≠ 10)
    (text "feature_step_size " ++ Text.decimal step ++
      text ": this Echo makes features every 10 ms")
  pure
    { name := name.2
      author := (getStr json (text "author") 64).2
      website := (getStr json (text "website") 160).2
      langs := trainedLanguages json
      cutoff := toFloat d
      window }

/-! ### Writing -/

/-- `jesc`: the text escaped, as far as it fits a buffer of `cap` bytes. -/
def jesc (cap : ℕ) : Bytes → Bytes → Bytes
  | out, [] => out
  | out, c :: s => if out.length + 7 < cap then jesc cap (out ++ Json.escChar c) s else out

/-- A language goes behind those that are written, if there is room. -/
def writeLang (langs piece : Bytes) : Bytes :=
  let esc := jesc 140 [] (piece.take 63)
  if langs.length + esc.length + 4 < 300 then
    langs ++ (if langs = [] then [] else [comma, space]) ++ quote :: esc ++ [quote]
  else langs

/-- The languages, as they are written. -/
def langsText (langs : Bytes) : Bytes := (Text.pieces comma [] langs).foldl writeLang []

/-- A text in quotes. -/
def quoted (t : Bytes) : Bytes := quote :: t ++ [quote]

/-- A key, its value and what is written behind them. -/
structure Row where
  key : Bytes
  value : Bytes
  after : Bytes

/-- A key with its colon, and the value. -/
def Row.text (r : Row) : Bytes := quoted r.key ++ colon :: space :: r.value ++ r.after

/-- The format of `write_manifest`, cut at its keys, for the texts that it takes a buffer for. -/
def rowsOf (i : Info) (name author website langs : Bytes) : List Row :=
  [⟨text "type", quoted (text "micro"), text ",\n  "⟩,
    ⟨text "wake_word", quoted name, text ",\n  "⟩,
    ⟨text "author", quoted author, text ",\n  "⟩,
    ⟨text "website", quoted website, text ",\n  "⟩,
    ⟨text "model", quoted (text "model.tflite"), text ",\n  "⟩,
    ⟨text "trained_languages", lbracket :: langs ++ [rbracket], text ",\n  "⟩,
    ⟨text "version", text "2", text ",\n  "⟩,
    ⟨text "micro", text "\x7b", text "\n    "⟩,
    ⟨text "probability_cutoff", twoDecimals (hundredths i.cutoff), text ",\n    "⟩,
    ⟨text "sliding_window_size", Text.decimal i.window, text ",\n    "⟩,
    ⟨text "feature_step_size", text "10", text "\n  \x7d\n\x7d\n"⟩]

def rows (i : Info) : List Row :=
  rowsOf i (jesc 200 [] i.name) (jesc 200 [] i.author) (jesc 400 [] i.website) (langsText i.langs)

/-- **What `write_manifest` writes.** -/
def manifest (i : Info) : Bytes := text "\x7b\n  " ++ (rows i).flatMap Row.text

/-! ### Adding and changing -/

/-- `islower` and `isdigit`, `_` and `-`. -/
def idChar (c : UInt8) : Bool := (0x61 ≤ c && c ≤ 0x7a) || isDigit c || c == 0x5f || c == minus

/-- `mww_good_id`. -/
def goodId (id : Bytes) : Bool :=
  id ≠ [] && id.length ≤
    40 && id.head?.all (fun c => idChar c && c != 0x5f && c != minus) && id.all idChar

/-- `toupper`. -/
def upper (c : UInt8) : UInt8 := if 0x61 ≤ c ∧ c ≤ 0x7a then c - 32 else c

/-- A name made of an id: spaces for `_` and `-`, and a capital where a word starts. -/
def titled (start : Bool) : Bytes → Bytes
  | [] => []
  | c :: l =>
      let c := if c = 0x5f ∨ c = minus then space else c
      (if start then upper c else c) :: titled (c = space) l

/-- **What `mww_add` writes a manifest of**: the one that came, its cutoff moved into the bounds, or
microWakeWord's defaults. -/
def addInfo (id json : Bytes) : Except Bytes Info :=
  if goodId id then
    (if json = [] then .ok { name := titled true id, cutoff := toFloat (97 / 100), window := 5 }
      else manifestParse json).map fun i =>
      { i with cutoff := min cutoffMax (max cutoffMin i.cutoff) }
  else .error (text "a model's id: lower case letters, digits, _ and -, at most 40")

/-- A text without the white space around it. -/
def trim (v : Bytes) : Bytes := (v.rdropWhile Text.isSpace).dropWhile Text.isSpace

/-- A cutoff that may be set: the bounds, and `1e-6` around them. -/
def mayCut : Double → Option ℚ
  | .fin c =>
      let tiny := Double.round (1 / 1000000)
      if Double.round (cutoffMin - tiny) ≤ c ∧ c ≤ Double.round (cutoffMax + tiny) then
        some c else none
  | _ => none

/-- One line of a change. -/
def editLine (i : Info) (l : Bytes) : Except Bytes Info :=
  let line := (l.take 199).takeWhile (· ≠ cr)
  let key := line.takeWhile (· ≠ 0x3d)
  if line.length = key.length then .ok i
  else
    let v := line.drop (key.length + 1)
    if key = text "name" then
      if trim v = [] ∨ 64 ≤ (trim v).length then .error (text "a name of 1 to 63 bytes")
      else .ok { i with name := trim v }
    else if key = text "cutoff" then
      match (Double.strtod v).bind fun d => if d.2 = [] then mayCut d.1 else none with
      | some c => .ok { i with cutoff := toFloat c }
      | none => .error (text "cutoff 0.50 to 0.99")
    else if key = text "window" then
      match (Text.signed v).filter fun w => w.2 = [] ∧ 1 ≤ w.1 ∧ w.1 ≤ 20 with
      | some w => .ok { i with window := w.1 }
      | none => .error (text "window 1 to 20")
    else .error (key ++ text ": nothing to change")

/-- **What `mww_edit` writes a manifest of**: the one that was read, changed line by line. -/
def editInfo (i : Info) (t : Bytes) : Except Bytes Info :=
  (Text.pieces lf [] (t.takeWhile (· ≠ nul))).foldlM editLine i

/-! ### What was read -/

/-- Text in a buffer of `cap` bytes, without control characters. -/
def Shown (cap : ℕ) (t : Bytes) : Prop := t.length < cap ∧ ∀ c ∈ t, 0x20 ≤ c

theorem shown_nil {cap : ℕ} (hcap : 0 < cap) : Shown cap [] :=
  ⟨hcap, fun _ hc => absurd hc not_mem_nil⟩

theorem shown_put {cap : ℕ} {out : Bytes} (h : Shown cap out) (c : UInt8) :
    Shown cap (put cap out c) := by
  unfold put
  split
  · next hc =>
    refine ⟨by rw [length_append, length_singleton]; exact hc.2, fun d hd => ?_⟩
    rcases mem_append.mp hd with hd | hd
    · exact h.2 d hd
    · rw [mem_singleton.mp hd]
      exact hc.1
  · exact h

/-- `jstr` puts one character after the other. -/
theorem shown_jstr {cap : ℕ} (out l : Bytes) (h : Shown cap out) :
    Shown cap (jstr cap out l).1 := by
  fun_induction jstr cap out l with
  | case1 => exact h
  | case2 => exact h
  | case3 _ _ _ _ _ ih => exact ih (shown_put h _)
  | case4 => exact shown_put h _
  | case5 _ _ _ _ _ _ _ ih => exact ih (shown_put h _)
  | case6 _ _ _ _ _ _ _ _ _ _ _ _ ih => exact ih (shown_put h _)
  | case7 => exact h
  | case8 => exact h

theorem shown_getStr (json key : Bytes) {cap : ℕ} (hcap : 0 < cap) :
    Shown cap (getStr json key cap).2 := by
  unfold getStr
  split
  · split
    · exact shown_jstr [] _ (shown_nil hcap)
    · exact shown_nil hcap
  · exact shown_nil hcap

/-- Languages in their buffer. -/
structure Langs (l : Bytes) : Prop where
  shown : Shown 63 l
  one : comma ∉ l → l.length ≤ 61

theorem langs_nil : Langs [] := ⟨shown_nil (by norm_num), fun _ => by norm_num⟩

/-- A language goes in only if there is room for it, a comma and two more. -/
theorem langs_addLang {l t : Bytes} (h : Langs l) (ht : ∀ c ∈ t, 0x20 ≤ c) :
    Langs (addLang l t) := by
  unfold addLang
  split
  · next hroom =>
    have hlen : l.length + t.length + 2 < 64 := hroom.2
    by_cases hl : l = []
    · subst hl
      rw [if_pos rfl, nil_append, nil_append]
      rw [length_nil] at hlen
      exact ⟨⟨by omega, ht⟩, fun _ => by omega⟩
    · rw [if_neg hl]
      refine ⟨⟨?_, fun c hc => ?_⟩, fun hone => ?_⟩
      · rw [length_append, length_append, length_singleton]
        omega
      · simp only [mem_append, mem_singleton] at hc
        rcases hc with (hc | rfl) | hc
        · exact h.shown.2 c hc
        · decide
        · exact ht c hc
      · exact absurd (mem_append_left t (mem_append_right l (mem_singleton_self comma))) hone
  · exact h

theorem langs_langsLoop (n : ℕ) (l v : Bytes) (h : Langs l) : Langs (langsLoop n l v) := by
  fun_induction langsLoop n l v with
  | case1 => exact h
  | case2 n l v t v' hv hws =>
    have ht := shown_jstr [] v (shown_nil (by norm_num : 0 < 64))
    rw [hv] at ht
    exact langs_addLang h ht.2
  | case3 n l v t v' hv c w hws ih =>
    have ht := shown_jstr [] v (shown_nil (by norm_num : 0 < 64))
    rw [hv] at ht
    exact ih (langs_addLang h ht.2)
  | case4 => exact h
  | case5 => exact h


/-- A number between 0 and 1 stays there in single precision. -/
theorem toFloat_mem {x : ℚ} (hlo : 0 ≤ x) (hhi : x ≤ 1) : 0 ≤ toFloat x ∧ toFloat x ≤ 1 := by
  unfold toFloat
  have hpos := Double.two_zpow_pos (Single.place x)
  have hround : 0 ≤ Double.roundEven (x / 2 ^ Single.place x) :=
    Double.le_roundEven (by push_cast; positivity)
  refine ⟨mul_nonneg (by exact_mod_cast hround) hpos.le, ?_⟩
  -- the place of the last digit is that of 1 or a lower one
  have hlog : Int.log 2 |x| ≤ 0 := by
    rw [abs_of_nonneg hlo]
    rcases hlo.eq_or_lt with rfl | hx
    · rw [Int.log_zero_right]
    · exact (Int.log_mono_right hx hhi).trans_eq (Int.log_one_right 2)
  have hplace : Single.place x ≤ 0 := by
    unfold Single.place
    omega
  obtain ⟨n, hn⟩ : ∃ n : ℕ, Single.place x = -n := ⟨(-Single.place x).toNat, by omega⟩
  rw [hn, zpow_neg, zpow_natCast] at hpos ⊢
  have hle : Double.roundEven (x / (2 ^ n)⁻¹) ≤ 2 ^ n := by
    refine Double.roundEven_le ?_
    rw [div_inv_eq_mul]
    push_cast
    exact mul_le_of_le_one_left (by positivity) hhi
  have hcast : (Double.roundEven (x / (2 ^ n)⁻¹) : ℚ) ≤ 2 ^ n := by exact_mod_cast hle
  calc (Double.roundEven (x / (2 ^ n)⁻¹) : ℚ) * (2 ^ n)⁻¹
      ≤ 2 ^ n * (2 ^ n)⁻¹ := mul_le_mul_of_nonneg_right hcast hpos.le
    _ = 1 := mul_inv_cancel₀ (by positivity)

/-- What holds of everything that is written. -/
structure Info.Sound (i : Info) : Prop where
  name_ne : i.name ≠ []
  name_le : i.name.length ≤ 63
  author : Shown 64 i.author
  website : Shown 160 i.website
  langs : Langs i.langs
  cutoff : 0 ≤ i.cutoff ∧ i.cutoff ≤ 1
  window : 1 ≤ i.window ∧ i.window ≤ 20

/-- **What was read is within its bounds**, and its name has no control character. -/
theorem manifestParse_sound {json : Bytes} {i : Info} (h : manifestParse json = .ok i) :
    i.Sound ∧ ∀ c ∈ i.name, 0x20 ≤ c := by
  unfold manifestParse at h
  simp only [Except.bind_eq_ok_iff, refuse_ok, orFail_ok, bind_eq_some_iff] at h
  obtain ⟨-, -, -, -, -, hname, d, ⟨x, -, hx⟩, -, hwindow, -, -, h⟩ := h
  obtain rfl := Except.ok.inj h
  have hbetween : 0 < d ∧ d < 1 := by
    unfold between at hx
    split at hx
    · split at hx
      · next hd => rwa [← some.inj hx]
      · cases hx
    · cases hx
  have hshown := shown_getStr json (text "wake_word") (by norm_num : 0 < 64)
  have hlangs : Langs (trainedLanguages json) := by
    unfold trainedLanguages
    split
    · split
      · exact langs_langsLoop _ _ _ langs_nil
      · exact langs_nil
    · exact langs_nil
  refine ⟨⟨?_, ?_, shown_getStr _ _ (by norm_num), shown_getStr _ _ (by norm_num), hlangs,
    ?_, ?_⟩, hshown.2⟩
  · intro hnil
    exact hname (Or.inr hnil)
  · exact Nat.le_of_lt_succ hshown.1
  · exact toFloat_mem hbetween.1.le hbetween.2.le
  · dsimp only
    omega

/-- Each piece of a text that went through a fold of changes. -/
theorem foldlM_sound {P : Info → Prop} (hstep : ∀ i l j, P i → editLine i l = .ok j → P j)
    (ls : List Bytes) {i j : Info} (hi : P i) (h : ls.foldlM editLine i = .ok j) : P j := by
  induction ls generalizing i with
  | nil => rwa [← Except.ok.inj h]
  | cons l ls ih =>
    rw [foldlM_cons, Except.bind_eq_ok_iff] at h
    obtain ⟨k, hk, h⟩ := h
    exact ih (hstep i l k hi hk) h

/-- What may be set is between 0 and 1. -/
theorem mayCut_mem {d : Double} {c : ℚ} (h : mayCut d = some c) : 0 ≤ c ∧ c ≤ 1 := by
  have hlo : 0 ≤ Double.round (cutoffMin - Double.round (1 / 1000000)) := by decide +kernel
  have hhi : Double.round (cutoffMax + Double.round (1 / 1000000)) ≤ 1 := by decide +kernel
  unfold mayCut at h
  dsimp only at h
  split at h
  · split at h
    · next hc =>
      rw [← some.inj h]
      exact ⟨hlo.trans hc.1, hc.2.trans hhi⟩
    · cases h
  · cases h

/-- One line of a change keeps the bounds. -/
theorem editLine_sound {i j : Info} (l : Bytes) (hi : i.Sound) (h : editLine i l = .ok j) :
    j.Sound := by
  unfold editLine at h
  dsimp only at h
  split at h
  · rwa [← Except.ok.inj h]
  · split at h
    · split at h
      · cases h
      · next hname =>
        rw [not_or] at hname
        obtain rfl := Except.ok.inj h
        exact { hi with name_ne := hname.1, name_le := by dsimp only; omega }
    · split at h
      · split at h
        · next c hc =>
          obtain rfl := Except.ok.inj h
          obtain ⟨d, -, hd⟩ := bind_eq_some_iff.mp hc
          split at hd
          · have hmem := mayCut_mem hd
            exact { hi with cutoff := toFloat_mem hmem.1 hmem.2 }
          · cases hd
        · cases h
      · split at h
        · split at h
          · next w hw =>
            obtain rfl := Except.ok.inj h
            have hbounds := of_decide_eq_true (filter_eq_some_iff.mp hw).2
            exact { hi with window := hbounds.2 }
          · cases h
        · cases h

/-- The cutoff moved into its bounds stays a probability. -/
theorem clamp_mem (c : ℚ) :
    0 ≤ min cutoffMax (max cutoffMin c) ∧ min cutoffMax (max cutoffMin c) ≤ 1 := by
  have hmax : 0 ≤ cutoffMax ∧ cutoffMax ≤ 1 := toFloat_mem (by norm_num) (by norm_num)
  have hmin : (0 : ℚ) ≤ cutoffMin := by
    unfold cutoffMin
    norm_num
  exact ⟨le_min hmax.1 (hmin.trans (le_max_left _ _)), (min_le_left _ _).trans hmax.2⟩

theorem length_titled (start : Bool) (l : Bytes) : (titled start l).length = l.length := by
  induction l generalizing start with
  | nil => rfl
  | cons c l ih =>
    unfold titled
    dsimp only
    rw [length_cons, length_cons, ih]

theorem map_ok {α β : Type} {x : Except Bytes α} {f : α → β} {b : β} :
    x.map f = .ok b ↔ ∃ a, x = .ok a ∧ f a = b := by
  cases x with
  | error e => simp [Except.map]
  | ok a => simp [Except.map]

/-- **What is added is within its bounds.** -/
theorem addInfo_sound {id json : Bytes} {i : Info} (h : addInfo id json = .ok i) : i.Sound := by
  unfold addInfo at h
  split at h
  swap
  · cases h
  next hgood =>
  obtain ⟨j, hj, rfl⟩ := map_ok.mp h
  suffices hsound : j.Sound from { hsound with cutoff := clamp_mem j.cutoff }
  split at hj
  · obtain rfl := Except.ok.inj hj
    unfold goodId at hgood
    simp only [Bool.and_eq_true, decide_eq_true_eq] at hgood
    obtain ⟨⟨⟨hne, hlen⟩, -⟩, -⟩ := hgood
    refine ⟨?_, ?_, shown_nil (by norm_num), shown_nil (by norm_num), langs_nil,
      toFloat_mem (by norm_num) (by norm_num), by norm_num⟩
    · intro hnil
      refine hne (length_eq_zero_iff.mp ?_)
      rw [← length_titled true id, show titled true id = [] from hnil, length_nil]
    · dsimp only
      rw [length_titled]
      omega
  · exact (manifestParse_sound hj).1

/-- What `mww_add` or `mww_edit` can have written. -/
inductive Stored : Info → Prop
  | add {id json : Bytes} {i : Info} : addInfo id json = .ok i → Stored i
  | edit {json t : Bytes} {j i : Info} : manifestParse json = .ok j →
  editInfo j t = .ok i → Stored i

/-- **Whatever is written is within its bounds.** -/
theorem Stored.sound {i : Info} (h : Stored i) : i.Sound := by
  cases h with
  | add h => exact addInfo_sound h
  | edit hj h => exact foldlM_sound (fun _ l _ => editLine_sound l) _ (manifestParse_sound hj).1 h

end Hassmic.Mww
