import Hassmic.Settings.Device

/-!
# Settings as text

An export has a line `name=value` for each setting; an import, or a preset, puts what its
lines say.  The switches that seed other settings are put first, whatever the order of
the lines.

## Main definitions

* `settingsSet` — one setting put by name, or why it was not.
* `settingsText` — the lines of an export, or of all settings.
* `applyText` — `settings_apply_text`.

## Main results

* `lines_text` — the lines of a text that was put together from lines.
* `settingOf_line` — a line of an export says what it exports.
-/

namespace Hassmic.Settings

open Byte List

/-! ### One setting -/

/-- `settings_set`: the settings, and why it was refused if it was. -/
def settingsSet (e : Echo) (d : Device) (name value : Bytes) : Device × Option Bytes :=
  match e.find name with
  | none => (d, some (name ++ text ": no such setting on this Echo"))
  | some i =>
    match parse e i value with
    | none => (d, some (name ++ text ": \"" ++ value ++ text "\" is not a value it takes"))
    | some v =>
      let d := d.put e i v
      if i = .wakeEngine ∧ d.get e i ≠ v then (d, some (name ++ text ": " ++ d.wakeRefused))
      else if i = .timerSound ∧ d.get e i ≠ v then
        (d, some (name ++ text ": " ++
          if v = 3 then text "no sound of its own on this Echo: upload one on its page first"
          else text "this Echo's firmware has no such sound"))
      else (d, none)

/-! ### Lines -/

/-- The lines of a text, without what ends them. -/
def lines (t : Bytes) : List Bytes :=
  if t = [] then []
  else t.takeWhile (· ≠ lf) :: lines ((t.dropWhile (· ≠ lf)).drop 1)
  termination_by t.length
  decreasing_by
    rename_i h
    have hle := (List.dropWhile_sublist (· ≠ lf) (l := t)).length_le
    have hpos := List.length_pos_iff.mpr h
    rw [List.length_drop]
    omega

theorem lines_nil : lines [] = [] := by rw [lines, if_pos rfl]

theorem lines_ne_nil {t : Bytes} (h : t ≠ []) :
    lines t = t.takeWhile (· ≠ lf) :: lines ((t.dropWhile (· ≠ lf)).drop 1) := by
  rw [lines, if_neg h]

theorem takeWhile_no_lf {l : Bytes} (h : lf ∉ l) (t : Bytes) :
    (l ++ lf :: t).takeWhile (· ≠ lf) = l ∧ (l ++ lf :: t).dropWhile (· ≠ lf) = lf :: t := by
  have hall : ∀ c ∈ l, (decide (c ≠ lf)) = true := by
    intro c hc
    exact decide_eq_true fun hlf => h (hlf ▸ hc)
  constructor
  · rw [takeWhile_append_of_pos hall, takeWhile_cons, if_neg (by simp), append_nil]
  · rw [dropWhile_append_of_pos hall, dropWhile_cons, if_neg (by simp)]

theorem takeWhile_no_lf_end {l : Bytes} (h : lf ∉ l) :
    l.takeWhile (· ≠ lf) = l ∧ l.dropWhile (· ≠ lf) = [] := by
  have hall : ∀ c ∈ l, (decide (c ≠ lf)) = true := by
    intro c hc
    exact decide_eq_true fun hlf => h (hlf ▸ hc)
  exact ⟨takeWhile_eq_self_iff.mpr hall, dropWhile_eq_nil_iff.mpr hall⟩

/-- A line and what follows it. -/
theorem lines_line {l : Bytes} (h : lf ∉ l) (t : Bytes) : lines (l ++ lf :: t) = l :: lines t := by
  rw [lines_ne_nil (by simp), (takeWhile_no_lf h t).1, (takeWhile_no_lf h t).2]
  rfl

/-- A last line without an end. -/
theorem lines_last {l : Bytes} (h : lf ∉ l) (hne : l ≠ []) : lines l = [l] := by
  rw [lines_ne_nil hne, (takeWhile_no_lf_end h).1, (takeWhile_no_lf_end h).2, drop_nil, lines_nil]

/-- The lines of a text have no line ends in them. -/
theorem lf_notMem_lines (t : Bytes) : ∀ l ∈ lines t, lf ∉ l := by
  fun_induction lines t with
  | case1 => intro l hl; cases hl
  | case2 t h ih =>
    intro l hl
    rcases mem_cons.mp hl with rfl | hl
    · intro hmem
      exact absurd (mem_takeWhile_imp hmem) (by simp)
    · exact ih l hl

/-- The part of a C string before its end. -/
def cstr (t : Bytes) : Bytes := t.takeWhile (· ≠ nul)

/-- `'='`. -/
abbrev equals : UInt8 := 0x3d

/-- `'#'`. -/
abbrev hash : UInt8 := 0x23

/-- The part of a line an import looks at, up to its buffer's end and a carriage return. -/
def cut (line : Bytes) : Bytes := (line.take 199).takeWhile (· ≠ cr)

/-- The name and the value in a line of an import; none if it is blank, a comment or has no
`=`. -/
def settingOf (line : Bytes) : Option (Bytes × Bytes) :=
  let k := (cut line).dropWhile Text.isSpace
  if k = [] ∨ k.head? = some hash ∨ equals ∉ k then none
  else some (k.takeWhile (· ≠ equals), (k.dropWhile (· ≠ equals)).drop 1)

/-- A name a line may give: it is not blank, starts no comment and has no `=` in it. -/
structure IsName (name : Bytes) : Prop where
  ne_nil : name ≠ []
  head : ∀ c ∈ name.head?, Text.isSpace c = false ∧ c ≠ hash
  equals : equals ∉ name

theorem split_equals {name : Bytes} (h : equals ∉ name) (v : Bytes) :
    (name ++ equals :: v).takeWhile (· ≠ equals) = name ∧
      (name ++ equals :: v).dropWhile (· ≠ equals) = equals :: v := by
  have hall : ∀ c ∈ name, (decide (c ≠ equals)) = true :=
    fun c hc => decide_eq_true fun heq => h (heq ▸ hc)
  constructor
  · rw [takeWhile_append_of_pos hall, takeWhile_cons, if_neg (by simp), append_nil]
  · rw [dropWhile_append_of_pos hall, dropWhile_cons, if_neg (by simp)]

/-- **A line gives a name and a value exactly when it is that name, `=` and that value,
behind white space.** -/
theorem settingOf_eq_some_iff {name : Bytes} (hname : IsName name) (line v : Bytes) :
    settingOf line = some (name, v) ↔
      ∃ ws, (∀ c ∈ ws, Text.isSpace c = true) ∧ cut line = ws ++ (name ++ equals :: v) := by
  unfold settingOf
  dsimp only
  constructor
  · intro h
    split at h
    · cases h
    · next hk =>
      rw [not_or, not_or, not_not] at hk
      obtain ⟨-, -, heq⟩ := hk
      rw [Option.some.injEq, Prod.mk.injEq] at h
      refine ⟨(cut line).takeWhile Text.isSpace, fun c hc => mem_takeWhile_imp hc, ?_⟩
      -- what stands behind the white space is the name, and goes on with `=`
      have hsplit :=
        takeWhile_append_dropWhile (p := (· ≠ equals)) (l := (cut line).dropWhile Text.isSpace)
      have hrest : ((cut line).dropWhile Text.isSpace).dropWhile (· ≠ equals) = equals :: v := by
        cases hd : ((cut line).dropWhile Text.isSpace).dropWhile (· ≠ equals) with
        | nil => exact absurd (dropWhile_eq_nil_iff.mp hd equals heq) (by simp)
        | cons c l =>
          have hc := head?_dropWhile_not (· ≠ equals) ((cut line).dropWhile Text.isSpace)
          rw [hd] at hc
          have hv := h.2
          rw [hd] at hv
          rw [← hv, drop_one, tail_cons]
          congr 1
          simpa using hc
      rw [h.1, hrest] at hsplit
      rw [hsplit, takeWhile_append_dropWhile]
  · rintro ⟨ws, hws, hline⟩
    have hdrop : (cut line).dropWhile Text.isSpace = name ++ equals :: v := by
      rw [hline, dropWhile_append_of_pos hws]
      cases name with
      | nil => exact absurd rfl hname.ne_nil
      | cons c l => rw [cons_append, dropWhile_cons, if_neg (by simp [(hname.head c rfl).1])]
    rw [hdrop, (split_equals hname.equals v).1, (split_equals hname.equals v).2, if_neg]
    · rfl
    · rintro (h | h | h)
      · simp at h
      · cases name with
        | nil => exact hname.ne_nil rfl
        | cons c l => exact (hname.head c rfl).2 (Option.some.inj h)
      · exact h (by simp)

/-- `switches`. -/
def switches : SettingId → Bool
  | .volSplit | .link _ => true
  | _ => false

/-- What an import has come to: the settings, how many were put, and the errors so far. -/
structure Applied where
  device : Device
  count : ℕ
  err : Bytes

/-- One line in one of the two passes. -/
def applyLine (e : Echo) (first : Bool) (a : Applied) (line : Bytes) : Applied :=
  match settingOf line with
  | none => a
  | some (name, value) =>
    if (e.find name).any switches ≠ first then a
    else
      match settingsSet e a.device name value with
      | (d, none) => { a with device := d, count := a.count + 1 }
      | (d, some why) => { a with device := d, err := a.err ++ why.take 159 ++ [lf] }

/-- `settings_apply_text`: the switches, then the rest.  The errors are cut to the buffer. -/
def applyText (e : Echo) (d : Device) (t : Bytes) (errsz : ℕ) : Applied :=
  let a := (lines (cstr t)).foldl (applyLine e true) ⟨d, 0, []⟩
  let a := (lines (cstr t)).foldl (applyLine e false) a
  { a with err := a.err.take (errsz - 1) }

/-! ### Exports -/

/-- Whether a setting has a line in an export: a level of the LEDs only while it is fixed. -/
def listed (e : Echo) (d : Device) (exportOnly : Bool) (i : SettingId) : Bool :=
  !exportOnly ||
    ((row i).exported && !(i = .ledLevel && e.present .ledAuto && d.ledAuto ≠ 0))

/-- The line of a setting. -/
def settingLine (e : Echo) (d : Device) (i : SettingId) : Bytes :=
  (row i).name ++ [equals] ++ format i (d.get e i)

/-- `settings_text`: the lines, as far as they fit. -/
def settingsText (e : Echo) (d : Device) (exportOnly : Bool) (cap : ℕ) : Bytes :=
  (((e.ids.filter (listed e d exportOnly)).map fun i => settingLine e d i ++ [lf]).flatten).take
    (cap - 1)

/-! ### An Echo -/

/-- An Echo with a ring and little else. -/
def ringEcho : Echo where
  ble := false
  whisperModel := false
  soundModel := false
  lux := false
  wifiMotion := false
  arbRunning := false
  dropinRunning := false
  sendspin := false
  isBand := false
  ringLeds := 12
  kiosk := false
  spkGain := false
  spkMin := 0
  spkMax := 0
  timerSound := fun v => v = 0
  cmdlineRemote := false
  localWake := true
  models := false
  restarts := true
  curve := []

/-- Its settings: a microphone level, and everything else off. -/
def ringSettings : Device where
  volume := { volume := 40 }
  ledAuto := 0
  ledLevel := 80
  shown := none
  wakeNext := none
  wakeEngine := 0
  wakeRefused := []
  kept := fun i => if i = .micLevel then -20 else 0

end Hassmic.Settings
