import Hassmic.Lib.Text
import Hassmic.Volume.Core

/-!
# The table of settings

An Echo's settings by name: one table for Home Assistant's entities, the settings page
and exports.  A setting is a switch, a number within bounds or a choice of names; not
every Echo has all of them.

## Main definitions

* `SettingId`, `row` — the settings, and the table.
* `Echo` — what differs between Echos and stays as it is while one runs.
* `parse`, `format` — a value from text, and as text.

## Main results

* `find_name` — a name is found as the setting it is the name of.
* `format_parse` — an exported value that is taken is the value that was exported.
-/

namespace Hassmic.Settings

open Byte List
open scoped Slots

/-! ### The table -/

/-- `enum id`.  The kinds of volume are the replies', the sounds', the timers' and the
calls'; the bands are bass, mid and treble. -/
inductive SettingId
  | wakeEngine | speechLang | wakeAdapt | micLevel | denoise | wakeSound | soundTouch
  | soundMicsOff | soundMicsOn | soundVolume | soundBtOn | soundBtOff | wakeSoundRemoval | mute
  | dnd | timerRing | timerSound | timerStopAny | stopEnds | wakeInReq | endReq | btAnnounce
  | btLang | ledAuto | ledLevel | ringRot | band | arb | arbMode | arbAuto | arbWindow
  | arbOffset | sound | whisper | wakeEvents | requestText | wifiMotion | wifiSens
  | lightSensor | btAudio | btSpeaker | btOutDelay | btOutAwake | btOutStay | dropin
  | dropinAnswer | updates | httpsVerify | kioskNet | kioskMic | kioskCam | ssUnpaired
  | eq (b : Fin 3) | spkGain | volume | volSplit | link (k : Fin 4) | level (k : Fin 4)
  | offset (k : Fin 4) | volEven
  deriving DecidableEq

/-- `enum stype`. -/
inductive SType
  | bool | int | choice
  deriving DecidableEq

/-- `struct setting`, as far as anything here reads it. -/
structure Row where
  name : Bytes
  type : SType
  min : ℤ
  max : ℤ
  /-- It goes into an export. -/
  exported : Bool

/-- `table`. -/
def row : SettingId → Row
  | .wakeEngine => ⟨text "wake_engine", .choice, 0, 0, true⟩
  | .speechLang => ⟨text "speech_language", .choice, 0, 0, true⟩
  | .wakeAdapt => ⟨text "wake_word_adaptation", .bool, 0, 1, true⟩
  | .micLevel => ⟨text "mic_level", .int, -35, -15, true⟩
  | .denoise => ⟨text "noise_reduction", .choice, 0, 0, true⟩
  | .wakeSound => ⟨text "wake_sound", .bool, 0, 1, true⟩
  | .soundTouch => ⟨text "sound_touch", .bool, 0, 1, true⟩
  | .soundMicsOff => ⟨text "sound_mics_off", .bool, 0, 1, true⟩
  | .soundMicsOn => ⟨text "sound_mics_on", .bool, 0, 1, true⟩
  | .soundVolume => ⟨text "sound_volume", .bool, 0, 1, true⟩
  | .soundBtOn => ⟨text "sound_bluetooth_on", .bool, 0, 1, true⟩
  | .soundBtOff => ⟨text "sound_bluetooth_off", .bool, 0, 1, true⟩
  | .wakeSoundRemoval => ⟨text "wake_sound_removal", .bool, 0, 1, true⟩
  | .mute => ⟨text "mute", .bool, 0, 1, false⟩
  | .dnd => ⟨text "do_not_disturb", .bool, 0, 1, false⟩
  | .timerRing => ⟨text "timer_ring", .int, 0, 600, true⟩
  | .timerSound => ⟨text "timer_sound", .choice, 0, 0, true⟩
  | .timerStopAny => ⟨text "timer_stop_any", .bool, 0, 1, true⟩
  | .stopEnds => ⟨text "stop_ends_listening", .bool, 0, 1, true⟩
  | .wakeInReq => ⟨text "wake_word_in_request", .bool, 0, 1, true⟩
  | .endReq => ⟨text "end_of_request", .choice, 0, 0, true⟩
  | .btAnnounce => ⟨text "bluetooth_announcements", .bool, 0, 1, true⟩
  | .btLang => ⟨text "bluetooth_announcement_language", .choice, 0, 0, true⟩
  | .ledAuto => ⟨text "led_auto_brightness", .bool, 0, 1, true⟩
  | .ledLevel => ⟨text "led_brightness", .int, 0, 100, true⟩
  | .ringRot => ⟨text "ring_rotation", .int, 0, 23, false⟩
  | .band => ⟨text "light_band", .int, 0, 40, true⟩
  | .arb => ⟨text "arbitration", .bool, 0, 1, true⟩
  | .arbMode => ⟨text "arbitration_mode", .choice, 0, 0, true⟩
  | .arbAuto => ⟨text "arbitration_window_auto", .bool, 0, 1, true⟩
  | .arbWindow => ⟨text "arbitration_window", .int, 100, 1000, true⟩
  | .arbOffset => ⟨text "arbitration_offset", .int, -20, 20, true⟩
  | .sound => ⟨text "sound_detection", .bool, 0, 1, true⟩
  | .whisper => ⟨text "whisper_detection", .bool, 0, 1, true⟩
  | .wakeEvents => ⟨text "wake_events", .bool, 0, 1, true⟩
  | .requestText => ⟨text "request_text", .bool, 0, 1, true⟩
  | .wifiMotion => ⟨text "wifi_motion", .bool, 0, 1, true⟩
  | .wifiSens => ⟨text "wifi_motion_sensitivity", .int, 1, 10, true⟩
  | .lightSensor => ⟨text "light_sensor", .bool, 0, 1, true⟩
  | .btAudio => ⟨text "bluetooth_audio", .bool, 0, 1, true⟩
  | .btSpeaker => ⟨text "bluetooth_speaker", .bool, 0, 1, true⟩
  | .btOutDelay => ⟨text "bluetooth_speaker_delay", .int, 0, 1000, false⟩
  | .btOutAwake => ⟨text "bluetooth_speaker_keep_awake", .bool, 0, 1, false⟩
  | .btOutStay => ⟨text "bluetooth_speaker_stay_connected", .bool, 0, 1, false⟩
  | .dropin => ⟨text "drop_in", .bool, 0, 1, true⟩
  | .dropinAnswer => ⟨text "drop_in_answer", .choice, 0, 0, true⟩
  | .updates => ⟨text "online_updates", .choice, 0, 0, true⟩
  | .httpsVerify => ⟨text "https_verify", .bool, 0, 1, true⟩
  | .kioskNet => ⟨text "kiosk_internet", .bool, 0, 1, false⟩
  | .kioskMic => ⟨text "kiosk_mic", .bool, 0, 1, false⟩
  | .kioskCam => ⟨text "kiosk_camera", .bool, 0, 1, false⟩
  | .ssUnpaired => ⟨text "sendspin_unpaired", .bool, 0, 1, true⟩
  | .eq 0 => ⟨text "equalizer_bass", .int, -6, 6, true⟩
  | .eq 1 => ⟨text "equalizer_mid", .int, -6, 6, true⟩
  | .eq 2 => ⟨text "equalizer_treble", .int, -6, 6, true⟩
  | .spkGain => ⟨text "speaker_gain", .int, 0, 12, false⟩
  | .volume => ⟨text "volume", .int, 0, 100, false⟩
  | .volSplit => ⟨text "separate_volumes", .bool, 0, 1, true⟩
  | .link 0 => ⟨text "assistant_volume_linked", .bool, 0, 1, true⟩
  | .level 0 => ⟨text "assistant_volume", .int, 0, 100, false⟩
  | .offset 0 => ⟨text "assistant_volume_offset", .int, -100, 100, true⟩
  | .link 1 => ⟨text "sounds_volume_linked", .bool, 0, 1, true⟩
  | .level 1 => ⟨text "sounds_volume", .int, 0, 100, false⟩
  | .offset 1 => ⟨text "sounds_volume_offset", .int, -100, 100, true⟩
  | .link 2 => ⟨text "timer_volume_linked", .bool, 0, 1, true⟩
  | .level 2 => ⟨text "timer_volume", .int, 0, 100, false⟩
  | .offset 2 => ⟨text "timer_volume_offset", .int, -100, 100, true⟩
  | .link 3 => ⟨text "call_volume_linked", .bool, 0, 1, true⟩
  | .level 3 => ⟨text "call_volume", .int, 0, 100, false⟩
  | .offset 3 => ⟨text "call_volume_offset", .int, -100, 100, true⟩
  | .volEven => ⟨text "even_volume", .bool, 0, 1, true⟩

/-- The settings in the order of the table. -/
def all : List SettingId :=
  [.wakeEngine, .speechLang, .wakeAdapt, .micLevel, .denoise, .wakeSound, .soundTouch,
    .soundMicsOff, .soundMicsOn, .soundVolume, .soundBtOn, .soundBtOff, .wakeSoundRemoval,
    .mute, .dnd, .timerRing, .timerSound, .timerStopAny, .stopEnds, .wakeInReq, .endReq,
    .btAnnounce, .btLang, .ledAuto, .ledLevel, .ringRot, .band, .arb, .arbMode, .arbAuto,
    .arbWindow, .arbOffset, .sound, .whisper, .wakeEvents, .requestText, .wifiMotion, .wifiSens,
    .lightSensor, .btAudio, .btSpeaker, .btOutDelay, .btOutAwake, .btOutStay, .dropin,
    .dropinAnswer, .updates, .httpsVerify, .kioskNet, .kioskMic, .kioskCam, .ssUnpaired, .eq 0,
    .eq 1, .eq 2, .spkGain, .volume, .volSplit, .link 0, .level 0, .offset 0, .link 1, .level 1,
    .offset 1, .link 2, .level 2, .offset 2, .link 3, .level 3, .offset 3, .volEven]

/-! ### What differs between Echos -/

/-- What an Echo has and how it was started, as far as its settings depend on it. -/
structure Echo where
  /-- `ble_present`, `core_whisper_model`, a sound model, `core_lux`, `wifimotion_present`. -/
  ble : Bool
  whisperModel : Bool
  soundModel : Bool
  lux : Bool
  wifiMotion : Bool
  /-- `arb_running`, `dropin_running`, `core_sendspin_port`. -/
  arbRunning : Bool
  dropinRunning : Bool
  sendspin : Bool
  /-- A light band instead of a ring (`ring_band_rows`), the LEDs of the ring, Kiosk Satellite. -/
  isBand : Bool
  ringLeds : ℕ
  kiosk : Bool
  /-- `spkgain_present`, `spkgain_min`, `spkgain_max`. -/
  spkGain : Bool
  spkMin : ℤ
  spkMax : ℤ
  /-- The timer sounds it has (`sound_present`). -/
  timerSound : ℤ → Bool
  /-- `wake_cmdline_remote`, `core_local_wake`, a microWakeWord model, whether `state/restart`
  can be written. -/
  cmdlineRemote : Bool
  localWake : Bool
  models : Bool
  restarts : Bool
  /-- The Echo's volume curve. -/
  curve : Volume.Curve

namespace Echo

variable (e : Echo)

/-- `present`. -/
def present : SettingId → Bool
  | .btAnnounce | .btLang | .btAudio | .btSpeaker | .btOutDelay | .btOutAwake | .btOutStay => e.ble
  | .whisper => e.whisperModel
  | .sound => e.soundModel
  | .lightSensor => e.lux
  | .ledAuto => !e.isBand && e.lux
  | .wifiMotion | .wifiSens => e.wifiMotion
  | .arb | .arbMode | .arbAuto | .arbWindow | .arbOffset => e.arbRunning
  | .dropin | .dropinAnswer => e.dropinRunning
  | .ssUnpaired => e.sendspin
  | .spkGain => e.spkGain
  | .band => e.isBand
  | .kioskNet | .kioskMic | .kioskCam => e.kiosk
  | .ringRot => !e.isBand
  | _ => true

/-- `ids`, as `index_table` fills it. -/
def ids : List SettingId := all.filter e.present

/-- `settings_find`. -/
def find (name : Bytes) : Option SettingId := e.ids.find? fun i => (row i).name = name

/-- `settings_min`. -/
def min (i : SettingId) : ℤ := if i = .spkGain then e.spkMin else (row i).min

/-- `settings_max`. -/
def max (i : SettingId) : ℤ :=
  if i = .spkGain then e.spkMax else if i = .ringRot then e.ringLeds - 1 else (row i).max

end Echo

/-! ### Values in text -/

/-- `update_channels`. -/
def updateChannels : List Bytes := [text "off", text "beta", text "release"]

/-- `settings_choices`. -/
def choices : SettingId → List Bytes
  | .denoise => [text "off", text "low", text "medium", text "high"]
  | .btLang =>
      [text "en", text "de", text "fr", text "es", text "it", text "pt", text "nl", text "sv",
        text "da", text "nb", text "fi", text "pl"]
  | .updates => updateChannels
  | .arbMode => [text "hassmic", text "kiosk"]
  | .wakeEngine => [text "amazon", text "microwakeword", text "homeassistant"]
  | .speechLang => [text "auto", text "de", text "en", text "fr", text "es", text "ja"]
  | .dropinAnswer => [text "auto", text "ask"]
  | .timerSound => [text "timer", text "alarm", text "beep", text "custom"]
  | .endReq => [text "off", text "relaxed", text "normal", text "aggressive"]
  | _ => []

/-- `denoise_names`. -/
def denoiseNames : List Bytes := [text "Off", text "Low", text "Medium", text "High"]

/-- The names in `bt_langs`. -/
def btLangNames : List Bytes :=
  [text "English", text "Deutsch", text "Français", text "Español", text "Italiano",
    text "Português", text "Nederlands", text "Svenska", text "Dansk", text "Norsk",
    text "Suomi", text "Polski"]

/-- `strcasecmp` finds no difference. -/
def sameText (a b : Bytes) : Bool := a.map Text.lower == b.map Text.lower

/-- The other names a choice goes by. -/
def otherName : SettingId → Bytes → Option ℕ
  | .denoise, v => denoiseNames.findIdx? (sameText v)
  | .btLang, v => btLangNames.findIdx? (v == ·)
  | _, _ => none

/-- `parse`. -/
def parse (e : Echo) (i : SettingId) (v : Bytes) : Option ℤ :=
  match (row i).type with
  | .bool =>
      if v = text "on" ∨ v = text "1" ∨ v = text "true" then some 1
      else if v = text "off" ∨ v = text "0" ∨ v = text "false" then some 0
      else none
  | .int =>
      match Text.signed v with
      | some (n, []) => if e.min i ≤ n ∧ n ≤ e.max i then some n else none
      | _ => none
  | .choice => (((choices i).findIdx? (sameText v)).or (otherName i v)).map Nat.cast

/-- `format` of a value. -/
def format (i : SettingId) (v : ℤ) : Bytes :=
  match (row i).type with
  | .bool => if v ≠ 0 then text "on" else text "off"
  | .choice => if 0 ≤ v then (choices i).getD v.toNat [] else []
  | .int => Text.decimal v

/-! ### The table's own facts -/

theorem mem_all (i : SettingId) : i ∈ all := by
  cases i
  case eq b => fin_cases b <;> decide
  case link k => fin_cases k <;> decide
  case level k => fin_cases k <;> decide
  case offset k => fin_cases k <;> decide
  all_goals decide

/-- The settings are different ones, and so are their names; what is exported as a number is in a
range, no two names of a choice are alike but for the case of their letters, and no name is
empty. -/
theorem table_facts : (all.Nodup ∧ (all.map fun i => (row i).name).Nodup) ∧
    (∀ i ∈ all, (row i).exported = true → (row i).type = .int →
      i ≠ .spkGain ∧ i ≠ .ringRot ∧ -1000 ≤ (row i).min ∧ (row i).max ≤ 1000) ∧
    (∀ i ∈ all, (choices i).Pairwise (fun a b => sameText a b = false) ∧ ∀ a ∈ choices i, a ≠ []) ∧
    ((∀ a ∈ denoiseNames, a ≠ []) ∧ ∀ a ∈ btLangNames, a ≠ []) ∧
    text "on" ≠ text "off" ∧ text "on" ≠ text "0" ∧ text "off" ≠ text "1" ∧
    text "off" ≠ text "true" := by
  decide +kernel

theorem nodup_all : all.Nodup := table_facts.1.1

theorem nodup_names : (all.map fun i => (row i).name).Nodup := table_facts.1.2

example : (row (.level 2)).name = text "timer_volume" := by decide +kernel

theorem name_inj {i j : SettingId} (h : (row i).name = (row j).name) : i = j :=
  inj_on_of_nodup_map nodup_names (mem_all i) (mem_all j) h

/-- **A name is found as the setting it is the name of, where the Echo has it.** -/
theorem find_name {e : Echo} {i : SettingId} (h : e.present i) : e.find (row i).name = some i := by
  unfold Echo.find
  have hmem : i ∈ e.ids := mem_filter.mpr ⟨mem_all i, h⟩
  cases hf : e.ids.find? fun j => (row j).name = (row i).name with
  | none =>
    have hnot := find?_eq_none.mp hf i hmem
    simp at hnot
  | some j =>
    have hj := find?_some hf
    rw [name_inj (of_decide_eq_true hj)]

theorem present_of_find {e : Echo} {i : SettingId} {name : Bytes} (h : e.find name = some i) :
    e.present i ∧ (row i).name = name := by
  unfold Echo.find at h
  refine ⟨(mem_filter.mp (mem_of_find?_eq_some h)).2, ?_⟩
  simpa using find?_some h

/-! ### A value in text is read back -/

theorem strings_differ : text "on" ≠ text "off" ∧ text "on" ≠ text "0" ∧ text "off" ≠ text "1" ∧
    text "off" ≠ text "true" := table_facts.2.2.2.2

theorem exported_int : ∀ i ∈ all, (row i).exported = true → (row i).type = .int →
    i ≠ .spkGain ∧ i ≠ .ringRot ∧ -1000 ≤ (row i).min ∧ (row i).max ≤ 1000 := table_facts.2.1

/-- No two names of a choice are alike but for the case of their letters. -/
theorem choices_apart : ∀ i ∈ all,
    (choices i).Pairwise (fun a b => sameText a b = false) ∧ ∀ a ∈ choices i, a ≠ [] :=
      table_facts.2.2.1

theorem other_names : (∀ a ∈ denoiseNames, a ≠ []) ∧ ∀ a ∈ btLangNames, a ≠ [] :=
  table_facts.2.2.2.1

theorem sameText_refl (a : Bytes) : sameText a a = true := beq_self_eq_true _

theorem sameText_comm (a b : Bytes) : sameText a b = sameText b a := by
  unfold sameText
  exact Bool.beq_comm

theorem sameText_nil {a : Bytes} (h : a ≠ []) : sameText [] a = false := by
  cases a with
  | nil => exact absurd rfl h
  | cons c l => rfl

/-- No name is empty. -/
theorem no_choice_nil (i : SettingId) :
    ((choices i).findIdx? (sameText [])).or (otherName i []) = none := by
  have hnames : (choices i).findIdx? (sameText []) = none :=
    findIdx?_eq_none_iff.mpr fun a ha => sameText_nil ((choices_apart i (mem_all i)).2 a ha)
  rw [hnames, Option.none_or]
  unfold otherName
  split
  · exact findIdx?_eq_none_iff.mpr fun a ha => sameText_nil (other_names.1 a ha)
  · refine findIdx?_eq_none_iff.mpr fun a ha => ?_
    exact beq_eq_false_iff_ne.mpr (other_names.2 a ha).symm
  · rfl

/-- A name of a list is found where it stands, if it is like no other. -/
theorem findIdx?_of_apart {l : List Bytes} (h : l.Pairwise fun a b => sameText a b = false) {k : ℕ}
    (hk : k < l.length) : l.findIdx? (sameText l[k]) = some k := by
  rw [findIdx?_eq_some_iff_getElem]
  refine ⟨hk, sameText_refl _, ?_⟩
  intro j hj
  have hapart := pairwise_iff_getElem.mp h j k (hj.trans hk) hk hj
  rw [sameText_comm, hapart]
  exact Bool.false_ne_true

/-- **An exported value that is taken is the value that was exported.** -/
theorem format_parse {e : Echo} {i : SettingId} (hi : (row i).exported = true) {v w : ℤ}
    (h : parse e i (format i v) = some w) : format i w = format i v := by
  unfold parse at h
  split at h
  · next htype =>
    have hformat : ∀ x, format i x = if x ≠ 0 then text "on" else text "off" := fun x => by
      simp only [format, htype]
    obtain ⟨hoff, hon, hone, htrue⟩ := strings_differ
    rw [hformat] at h
    rw [hformat, hformat]
    by_cases hv : v ≠ 0
    · rw [if_pos hv, if_pos (.inl rfl)] at h
      cases h
      rw [if_pos hv, if_pos (by decide)]
    · rw [if_neg hv, if_neg, if_pos (.inl rfl)] at h
      · cases h
        rw [if_neg hv, if_neg (by decide)]
      · rintro (h | h | h)
        · exact hoff h.symm
        · exact hone h
        · exact htrue h
  · next htype =>
    have hformat : ∀ x, format i x = Text.decimal x := fun x => by simp only [format, htype]
    rw [hformat, ← append_nil (Text.decimal v),
      Text.signed_decimal_nearest v (fun c hc => by cases hc)] at h
    dsimp only at h
    split at h
    · next hbounds =>
      cases h
      -- the bounds are far below 32 bits, so the number was not cut
      obtain ⟨hgain, hrot, hlo, hhi⟩ := exported_int i (mem_all i) hi htype
      unfold Echo.min Echo.max at hbounds
      rw [if_neg hgain, if_neg hgain, if_neg hrot] at hbounds
      congr 1
      omega
    · cases h
  · next htype =>
    have hformat : ∀ x, format i x = if 0 ≤ x then (choices i).getD x.toNat []
        else [] := fun x => by
      simp only [format, htype]
    rw [hformat] at h
    rw [hformat, hformat]
    by_cases hv : 0 ≤ v ∧ v.toNat < (choices i).length
    · obtain ⟨hv, hlt⟩ := hv
      rw [if_pos hv, getD_eq_getElem _ _ hlt, findIdx?_of_apart (choices_apart i (mem_all i)).1 hlt,
        Option.some_or, Option.map_some, Option.some.injEq] at h
      rw [← h, if_pos (Int.natCast_nonneg _), if_pos hv, Int.toNat_natCast]
    · have hnil : (if 0 ≤ v then (choices i).getD v.toNat [] else []) = [] := by
        split
        · next hpos =>
          exact getD_eq_default _ _ (not_lt.mp fun hlt => hv ⟨hpos, hlt⟩)
        · rfl
      rw [hnil, no_choice_nil] at h
      cases h

end Hassmic.Settings
