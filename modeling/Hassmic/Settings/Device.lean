import Hassmic.Settings.Table

/-!
# The settings where they are kept

Each setting is a variable of the module it belongs to, with that module's setter.  Most
setters only take a value over.  Some change more: separate volumes start the kinds'
levels at the volume, following the music moves a kind's offset or its level, a level of
the LEDs switches auto brightness off, and the wake word engine may be refused.

## Main definitions

* `Device` — the variables.
* `Device.get`, `Device.put` — `settings_get` and `put`.
* `seeds` — which settings putting one may change.

## Main results

* `get_put_of_not_seeds` — **putting a setting changes no setting but these.**
* `get_put_self` — a value that is taken is then the setting's.
-/

namespace Hassmic.Settings

open Byte Volume List Option Function

/-! ### The variables -/

/-- The settings of an Echo, by the modules that keep them. -/
structure Device where
  /-- The volumes, with `vol_split`, `vol_even` and `kinds`. -/
  volume : Volume.Proc
  /-- `led_auto` and `led_level`, and what the ring shows (`persist.ledbrightness.bootup`). -/
  ledAuto : ℤ
  ledLevel : ℤ
  shown : Option ℤ
  /-- `wake_next`, `wake_engine` and `wake_refused`. -/
  wakeNext : Option ℤ
  wakeEngine : ℤ
  wakeRefused : Bytes
  /-- The variables that hold one setting each. -/
  kept : SettingId → ℤ

/-- A switch as a number. -/
def ofBool (b : Bool) : ℤ := if b then 1 else 0

namespace Device

variable (e : Echo) (d : Device)

/-! ### Setters -/

/-- `core_wake_engine(-1)`. -/
def wakeEngineNow : ℤ := d.wakeNext.getD (if e.localWake then d.wakeEngine else 2)

/-- `core_wake_engine`: 0 is Amazon's, 1 microWakeWord, 2 Home Assistant's. -/
def setWakeEngine (set : ℤ) : Device :=
  if set < 0 ∨ set = d.wakeEngineNow e then d
  else if e.cmdlineRemote then
    { d with
      wakeRefused :=
        text "hassmic.conf starts the satellite with -w remote: take that out of ARGS first" }
  else if set = 1 ∧ e.models = false then
    { d with wakeRefused := text "no microWakeWord model on this Echo yet: add one first" }
  else if set = 2 ∨ e.localWake = false ∨ d.wakeNext.isSome then
    if e.restarts then { d with wakeNext := some set, wakeRefused := [] }
    else { d with wakeNext := none, wakeRefused := text "cannot ask for the restart" }
  else { d with wakeEngine := if set = 1 then 1 else 0, wakeRefused := [] }

/-- `core_led_brightness(-1)`. -/
def ledBrightness : ℤ := if d.ledAuto ≠ 0 then d.shown.getD d.ledLevel else d.ledLevel

/-- `core_led_auto`. -/
def setLedAuto (set : ℤ) : Device :=
  if 0 ≤ set ∧ set ≠ d.ledAuto then
    { d with ledLevel := if set = 0 then d.ledBrightness else d.ledLevel, ledAuto := set }
  else d

/-- `core_led_brightness`. -/
def setLedBrightness (set : ℤ) : Device :=
  if 0 ≤ set then { d with ledAuto := 0, ledLevel := Min.min set 100 } else d

end Device

/-- `clamp_offset`. -/
def clampOffset (v : ℤ) : ℤ := Max.max (-100) (Min.min v 100)

/-- A kind's volume replaced. -/
def setKind (c : Curve) (p : Proc) (k : Fin 4) (kind : Kind) : Proc :=
  (Proc.mixApply c { p with kinds := update p.kinds k kind }).1

/-- `core_kind_linked`. -/
def kindLinked (c : Curve) (p : Proc) (k : Fin 4) (set : Bool) : Proc :=
  if set = (p.kinds k).linked then p
  else
    let kind := p.kinds k
    -- never a Bluetooth speaker's
    let music : ℤ := if p.mode = .none then p.volume else p.echoOwnVolume
    if set then
      setKind c p k { kind with offset := clampOffset (kind.level - music), linked := true }
    else setKind c p k { kind with level := clamp100 (music + kind.offset), linked := false }

/-- `core_kind_volume`. -/
def kindVolume (c : Curve) (p : Proc) (k : Fin 4) (set : ℤ) : Proc :=
  if 0 ≤ set then setKind c p k { p.kinds k with level := clamp100 set } else p

/-- `core_set_kind_offset`. -/
def setKindOffset (c : Curve) (p : Proc) (k : Fin 4) (offset : ℤ) : Proc :=
  setKind c p k { p.kinds k with offset := clampOffset offset }

/-- `set != 0`. -/
def nonzero (v : ℤ) : ℤ := ofBool (decide (v ≠ 0))

/-- What a variable that holds one setting holds after its setter. -/
def keep (e : Echo) (i : SettingId) (old set : ℤ) : ℤ :=
  match i with
  -- `settings.c`'s own, taken as they are
  | .speechLang | .wakeAdapt | .micLevel | .btLang | .kioskNet | .kioskMic | .kioskCam | .btAudio
  | .btSpeaker | .whisper | .lightSensor | .wakeEvents | .requestText | .btOutStay => set
  -- taken unless negative
  | .wakeSound | .mute | .dnd | .timerRing | .btAnnounce | .sound | .arb =>
    if 0 ≤ set then set else old
  -- `set != 0` unless negative
  | .soundTouch | .soundMicsOff | .soundMicsOn | .soundVolume | .soundBtOn | .soundBtOff
  | .wakeSoundRemoval | .timerStopAny | .stopEnds | .wakeInReq | .wifiMotion | .httpsVerify
  | .ssUnpaired | .btOutAwake | .dropinAnswer => if 0 ≤ set then nonzero set else old
  | .arbAuto => if 0 ≤ set ∧ nonzero set ≠ nonzero old then nonzero set else old
  | .dropin => if 0 ≤ set ∧ set ≠ old then nonzero set else old
  -- taken within bounds
  | .denoise => if 0 ≤ set ∧ set ≠ old then Min.min set 3 else old
  | .endReq => if 0 ≤ set ∧ set < 4 then set else old
  | .arbMode => if set = 0 ∨ set = 1 then set else old
  | .arbWindow => if 100 ≤ set ∧ set ≤ 1000 then set else old
  | .arbOffset => if -20 ≤ set ∧ set ≤ 20 then set else old
  | .updates => if 0 ≤ set ∧ set ≤ 2 then set else old
  | .timerSound => if 0 ≤ set ∧ set ≤ 3 ∧ (set = 2 ∨ e.timerSound set) then set else old
  -- moved into bounds
  | .wifiSens => if 0 ≤ set then Max.max 1 (Min.min set 10) else old
  | .eq _ => Max.max (-6) (Min.min set 6)
  | .btOutDelay => if 0 ≤ set then Min.min set 2000 else old
  | .spkGain => if e.spkMax = 0 then old else Max.max e.spkMin (Min.min set e.spkMax)
  | .ringRot => if e.isBand then 0 else if 0 ≤ set then set % e.ringLeds else old
  | .band => if e.isBand then if 0 ≤ set then Min.min set 40 else old else -1
  -- the settings that are kept otherwise
  | .wakeEngine | .ledAuto | .ledLevel | .volume | .volSplit | .volEven
  | .link _ | .level _ | .offset _ => old

namespace Device

variable (e : Echo) (d : Device)

/-- `settings_get`. -/
def get : SettingId → ℤ
  | .wakeEngine => d.wakeEngineNow e
  | .ledAuto => d.ledAuto
  | .ledLevel => d.ledBrightness
  | .volume => d.volume.volume
  | .volSplit => ofBool d.volume.split
  | .volEven => ofBool d.volume.even
  | .link k => ofBool (d.volume.kinds k).linked
  | .level k => (d.volume.kinds k).level
  | .offset k => (d.volume.kinds k).offset
  | i => d.kept i

/-- `put`. -/
def put (i : SettingId) (v : ℤ) : Device :=
  match i with
  | .wakeEngine => d.setWakeEngine e v
  | .ledAuto => d.setLedAuto v
  | .ledLevel => d.setLedBrightness v
  | .volume => { d with volume := (d.volume.setVolume e.curve v).1 }
  | .volSplit =>
    if 0 ≤ v then { d with volume := (d.volume.separateVolumes e.curve (v ≠ 0)).1 } else d
  | .volEven => if 0 ≤ v then { d with volume := (d.volume.evenVolume e.curve (v ≠ 0)).1 } else d
  | .link k => if 0 ≤ v then { d with volume := kindLinked e.curve d.volume k (v ≠ 0) } else d
  | .level k => { d with volume := kindVolume e.curve d.volume k v }
  | .offset k => { d with volume := setKindOffset e.curve d.volume k v }
  | i => { d with kept := update d.kept i (keep e i (d.kept i) v) }

end Device

/-! ### What a setter changes -/

/-- Whether a variable holds this setting alone. -/
def isKept : SettingId → Bool
  | .wakeEngine | .ledAuto | .ledLevel | .volume | .volSplit | .volEven | .link _ | .level _
  | .offset _ => false
  | _ => true

/-- Whether putting the first setting may change the second. -/
def seeds (i j : SettingId) : Bool :=
  match i, j with
  | .volSplit, .level _ => true
  | .link k, .level k' => k = k'
  | .link k, .offset k' => k = k'
  | .ledAuto, .ledLevel => true
  | .ledLevel, .ledAuto => true
  | i, j => i = j

section Volumes

variable (c : Curve) (p : Proc) (k : Fin 4) (kind : Kind)

@[simp] theorem setKind_kinds : (setKind c p k kind).kinds = update p.kinds k kind := rfl

theorem switched_fields (keeps : Bool) :
    (p.switched c keeps).1.volume = p.volume ∧ (p.switched c keeps).1.split = p.split ∧
      (p.switched c keeps).1.even = p.even ∧ (p.switched c keeps).1.kinds = p.kinds := by
  cases keeps <;> exact ⟨rfl, rfl, rfl, rfl⟩

theorem setVolume_fields (v : ℤ) :
    (p.setVolume c v).1.volume = clamp100 v ∧ (p.setVolume c v).1.split = p.split ∧
      (p.setVolume c v).1.even = p.even ∧ (p.setVolume c v).1.kinds = p.kinds := by
  unfold Proc.setVolume
  dsimp only
  split <;> exact ⟨rfl, rfl, rfl, rfl⟩

theorem separateVolumes_fields (set : Bool) :
    (p.separateVolumes c set).1.volume = p.volume ∧ (p.separateVolumes c set).1.split = set ∧
      (p.separateVolumes c set).1.even = p.even ∧
      ∀ k, ((p.separateVolumes c set).1.kinds k).linked = (p.kinds k).linked ∧
        ((p.separateVolumes c set).1.kinds k).offset = (p.kinds k).offset := by
  unfold Proc.separateVolumes
  split
  · next h => exact ⟨rfl, h.symm, rfl, fun k => ⟨rfl, rfl⟩⟩
  · dsimp only
    cases set with
    | false =>
      refine ⟨(switched_fields c _ _).1, (switched_fields c _ _).2.1,
        (switched_fields c _ _).2.2.1, ?_⟩
      intro k
      exact ⟨by rw [(switched_fields c _ _).2.2.2]; rfl, by rw [(switched_fields c _ _).2.2.2]; rfl⟩
    | true =>
      refine ⟨(switched_fields c _ _).1, (switched_fields c _ _).2.1,
        (switched_fields c _ _).2.2.1, ?_⟩
      intro k
      exact ⟨by rw [(switched_fields c _ _).2.2.2]; rfl, by rw [(switched_fields c _ _).2.2.2]; rfl⟩

theorem evenVolume_fields (set : Bool) :
    (p.evenVolume c set).1.volume = p.volume ∧ (p.evenVolume c set).1.split = p.split ∧
      (p.evenVolume c set).1.even = set ∧ (p.evenVolume c set).1.kinds = p.kinds := by
  unfold Proc.evenVolume
  split
  · next h => exact ⟨rfl, rfl, h.symm, rfl⟩
  · exact switched_fields c { p with even := set } _

theorem kindLinked_fields (set : Bool) :
    (kindLinked c p k set).volume = p.volume ∧ (kindLinked c p k set).split = p.split ∧
      (kindLinked c p k set).even = p.even ∧ ((kindLinked c p k set).kinds k).linked = set ∧
      ∀ k' ≠ k, (kindLinked c p k set).kinds k' = p.kinds k' := by
  unfold kindLinked
  split
  · next h => exact ⟨rfl, rfl, rfl, h.symm, fun k' _ => rfl⟩
  · dsimp only
    split
    · next h =>
      refine ⟨rfl, rfl, rfl, by simp [h], fun k' hk => ?_⟩
      rw [setKind_kinds, update_of_ne hk]
    · next h =>
      refine ⟨rfl, rfl, rfl, by simpa using h, fun k' hk => ?_⟩
      rw [setKind_kinds, update_of_ne hk]

end Volumes

section Put

variable (e : Echo) (d : Device)

variable {i j : SettingId}

theorem get_kept (h : isKept i) : d.get e i = d.kept i := by
  cases i <;> first | rfl | cases h

theorem put_kept (h : isKept i) (v : ℤ) :
    d.put e i v = { d with kept := update d.kept i (keep e i (d.kept i) v) } := by
  cases i <;> first | rfl | cases h

theorem setWakeEngine_fields (set : ℤ) :
    (d.setWakeEngine e set).kept = d.kept ∧ (d.setWakeEngine e set).volume = d.volume ∧
      (d.setWakeEngine e set).ledAuto = d.ledAuto ∧ (d.setWakeEngine e set).ledLevel = d.ledLevel ∧
      (d.setWakeEngine e set).shown = d.shown := by
  unfold Device.setWakeEngine
  split_ifs <;> exact ⟨rfl, rfl, rfl, rfl, rfl⟩

theorem setLedAuto_fields (set : ℤ) :
    (d.setLedAuto set).kept = d.kept ∧ (d.setLedAuto set).volume = d.volume ∧
      (d.setLedAuto set).wakeNext = d.wakeNext ∧ (d.setLedAuto set).wakeEngine = d.wakeEngine := by
  unfold Device.setLedAuto
  split_ifs <;> exact ⟨rfl, rfl, rfl, rfl⟩

theorem setLedBrightness_fields (set : ℤ) :
    (d.setLedBrightness set).kept = d.kept ∧ (d.setLedBrightness set).volume = d.volume ∧
      (d.setLedBrightness set).wakeNext = d.wakeNext ∧
      (d.setLedBrightness set).wakeEngine = d.wakeEngine := by
  unfold Device.setLedBrightness
  split_ifs <;> exact ⟨rfl, rfl, rfl, rfl⟩

/-- What a setter leaves alone: the variables that hold one setting each, unless it is one
of them. -/
theorem kept_put (hij : j ≠ i) (v : ℤ) : (d.put e j v).kept i = d.kept i := by
  cases j with
  | wakeEngine => exact congrFun (setWakeEngine_fields e d v).1 i
  | ledAuto => exact congrFun (setLedAuto_fields d v).1 i
  | ledLevel => exact congrFun (setLedBrightness_fields d v).1 i
  | volume => rfl
  | volSplit => unfold Device.put; dsimp only; split <;> rfl
  | volEven => unfold Device.put; dsimp only; split <;> rfl
  | link k => unfold Device.put; dsimp only; split <;> rfl
  | level k => rfl
  | offset k => rfl
  | _ => exact update_of_ne hij.symm _ _

/-- The wake word engine is changed by its own setter only. -/
theorem wake_put (hj : j ≠ .wakeEngine) (v : ℤ) :
    (d.put e j v).wakeNext = d.wakeNext ∧ (d.put e j v).wakeEngine = d.wakeEngine := by
  cases j with
  | wakeEngine => exact absurd rfl hj
  | ledAuto => exact (setLedAuto_fields d v).2.2
  | ledLevel => exact (setLedBrightness_fields d v).2.2
  | volSplit => unfold Device.put; dsimp only; split <;> exact ⟨rfl, rfl⟩
  | volEven => unfold Device.put; dsimp only; split <;> exact ⟨rfl, rfl⟩
  | link k => unfold Device.put; dsimp only; split <;> exact ⟨rfl, rfl⟩
  | _ => exact ⟨rfl, rfl⟩

theorem wakeEngineNow_put (hj : j ≠ .wakeEngine) (v : ℤ) :
    (d.put e j v).wakeEngineNow e = d.wakeEngineNow e := by
  unfold Device.wakeEngineNow
  rw [(wake_put e d hj v).1, (wake_put e d hj v).2]

/-- Whether an engine is taken depends on the one there is and on nothing else. -/
theorem setWakeEngine_same {d d' : Device} (hnext : d.wakeNext = d'.wakeNext)
    (hengine : d.wakeEngine = d'.wakeEngine) (v : ℤ) :
    (d.setWakeEngine e v).wakeEngineNow e = (d'.setWakeEngine e v).wakeEngineNow e := by
  have hnow : d.wakeEngineNow e = d'.wakeEngineNow e := by
    unfold Device.wakeEngineNow
    rw [hnext, hengine]
  unfold Device.setWakeEngine
  rw [hnow, hnext]
  split_ifs <;> simp [Device.wakeEngineNow, hnext, hengine]

/-- The LEDs are changed by their own setters only. -/
theorem led_put (hauto : j ≠ .ledAuto) (hlevel : j ≠ .ledLevel) (v : ℤ) :
    (d.put e j v).ledAuto = d.ledAuto ∧ (d.put e j v).ledBrightness = d.ledBrightness := by
  have h : (d.put e j v).ledAuto = d.ledAuto ∧ (d.put e j v).ledLevel = d.ledLevel ∧
      (d.put e j v).shown = d.shown := by
    cases j with
    | wakeEngine => exact (setWakeEngine_fields e d v).2.2
    | ledAuto => exact absurd rfl hauto
    | ledLevel => exact absurd rfl hlevel
    | volSplit => unfold Device.put; dsimp only; split <;> exact ⟨rfl, rfl, rfl⟩
    | volEven => unfold Device.put; dsimp only; split <;> exact ⟨rfl, rfl, rfl⟩
    | link k => unfold Device.put; dsimp only; split <;> exact ⟨rfl, rfl, rfl⟩
    | _ => exact ⟨rfl, rfl, rfl⟩
  unfold Device.ledBrightness
  rw [h.1, h.2.1, h.2.2]
  exact ⟨rfl, rfl⟩

/-- What may change the volumes. -/
def isVolume : SettingId → Bool
  | .volume | .volSplit | .volEven | .link _ | .level _ | .offset _ => true
  | _ => false

theorem volume_put (hj : isVolume j = false) (v : ℤ) : (d.put e j v).volume = d.volume := by
  cases j with
  | wakeEngine => exact (setWakeEngine_fields e d v).2.1
  | ledAuto => exact (setLedAuto_fields d v).2.1
  | ledLevel => exact (setLedBrightness_fields d v).2.1
  | volume => cases hj
  | volSplit => cases hj
  | volEven => cases hj
  | link k => cases hj
  | level k => cases hj
  | offset k => cases hj
  | _ => rfl

/-- Among the volumes a setter changes its own and what it seeds. -/
theorem volume_get_put (hi : isVolume i) (hj : isVolume j) (h : seeds j i = false) (v : ℤ) :
    (d.put e j v).get e i = d.get e i := by
  cases j with
  | volume =>
    obtain ⟨-, hsplit, heven, hkinds⟩ := setVolume_fields e.curve d.volume v
    cases i with
    | volume => cases h
    | volSplit => exact congrArg ofBool hsplit
    | volEven => exact congrArg ofBool heven
    | link k => exact congrArg (fun f : Fin 4 → Kind => ofBool (f k).linked) hkinds
    | level k => exact congrArg (fun f : Fin 4 → Kind => ((f k).level : ℤ)) hkinds
    | offset k => exact congrArg (fun f : Fin 4 → Kind => (f k).offset) hkinds
    | _ => cases hi
  | volSplit =>
    unfold Device.put
    dsimp only
    split
    · obtain ⟨hvolume, -, heven, hkinds⟩ := separateVolumes_fields e.curve d.volume (v ≠ 0)
      cases i with
      | volume => exact congrArg (fun l : Level => (l : ℤ)) hvolume
      | volSplit => cases h
      | volEven => exact congrArg ofBool heven
      | link k => exact congrArg ofBool (hkinds k).1
      | level k => cases h
      | offset k => exact (hkinds k).2
      | _ => cases hi
    · rfl
  | volEven =>
    unfold Device.put
    dsimp only
    split
    · obtain ⟨hvolume, hsplit, -, hkinds⟩ := evenVolume_fields e.curve d.volume (v ≠ 0)
      cases i with
      | volume => exact congrArg (fun l : Level => (l : ℤ)) hvolume
      | volSplit => exact congrArg ofBool hsplit
      | volEven => cases h
      | link k => exact congrArg (fun f : Fin 4 → Kind => ofBool (f k).linked) hkinds
      | level k => exact congrArg (fun f : Fin 4 → Kind => ((f k).level : ℤ)) hkinds
      | offset k => exact congrArg (fun f : Fin 4 → Kind => (f k).offset) hkinds
      | _ => cases hi
    · rfl
  | link k =>
    unfold Device.put
    dsimp only
    split
    · obtain ⟨hvolume, hsplit, heven, -, hkinds⟩ := kindLinked_fields e.curve d.volume k (v ≠ 0)
      cases i with
      | volume => exact congrArg (fun l : Level => (l : ℤ)) hvolume
      | volSplit => exact congrArg ofBool hsplit
      | volEven => exact congrArg ofBool heven
      | link k' =>
        have hk : k' ≠ k := by rintro rfl; simp [seeds] at h
        exact congrArg (fun x : Kind => ofBool x.linked) (hkinds k' hk)
      | level k' =>
        have hk : k' ≠ k := by rintro rfl; simp [seeds] at h
        exact congrArg (fun x : Kind => (x.level : ℤ)) (hkinds k' hk)
      | offset k' =>
        have hk : k' ≠ k := by rintro rfl; simp [seeds] at h
        exact congrArg Kind.offset (hkinds k' hk)
      | _ => cases hi
    · rfl
  | level k =>
    unfold Device.put kindVolume
    dsimp only
    split
    · cases i with
      | volume => rfl
      | volSplit => rfl
      | volEven => rfl
      | link k' =>
        by_cases hk : k' = k
        · subst hk
          simp [Device.get]
        · simp [Device.get, hk]
      | level k' =>
        have hk : k' ≠ k := by rintro rfl; simp [seeds] at h
        simp [Device.get, hk]
      | offset k' =>
        by_cases hk : k' = k
        · subst hk
          simp [Device.get]
        · simp [Device.get, hk]
      | _ => cases hi
    · rfl
  | offset k =>
    unfold Device.put setKindOffset
    dsimp only
    cases i with
    | volume => rfl
    | volSplit => rfl
    | volEven => rfl
    | link k' =>
      by_cases hk : k' = k
      · subst hk
        simp [Device.get]
      · simp [Device.get, hk]
    | level k' =>
      by_cases hk : k' = k
      · subst hk
        simp [Device.get]
      · simp [Device.get, hk]
    | offset k' =>
      have hk : k' ≠ k := by rintro rfl; simp [seeds] at h
      simp [Device.get, hk]
    | _ => cases hi
  | _ => cases hj

theorem seeds_self (i : SettingId) : seeds i i = true := by
  cases i <;> simp [seeds]

/-- **Putting a setting changes no setting but those it seeds.** -/
theorem get_put_of_not_seeds (h : seeds j i = false) (v : ℤ) :
    (d.put e j v).get e i = d.get e i := by
  have hij : j ≠ i := by
    rintro rfl
    rw [seeds_self] at h
    cases h
  by_cases hi : isKept i
  · rw [get_kept e _ hi, get_kept e _ hi]
    exact kept_put e d hij v
  · by_cases hvol : isVolume i
    · by_cases hj : isVolume j
      · exact volume_get_put e d hvol hj h v
      · have hsame := volume_put e d (Bool.eq_false_iff.mpr hj) v
        cases i with
        | volume => exact congrArg (fun p : Proc => (p.volume : ℤ)) hsame
        | volSplit => exact congrArg (fun p : Proc => ofBool p.split) hsame
        | volEven => exact congrArg (fun p : Proc => ofBool p.even) hsame
        | link k => exact congrArg (fun p : Proc => ofBool (p.kinds k).linked) hsame
        | level k => exact congrArg (fun p : Proc => ((p.kinds k).level : ℤ)) hsame
        | offset k => exact congrArg (fun p : Proc => (p.kinds k).offset) hsame
        | _ => cases hvol
    · cases i with
      | wakeEngine => exact wakeEngineNow_put e d hij v
      | ledAuto =>
        refine (led_put e d hij ?_ v).1
        rintro rfl
        cases h
      | ledLevel =>
        refine (led_put e d ?_ hij v).2
        rintro rfl
        cases h
      | volume => exact absurd rfl hvol
      | volSplit => exact absurd rfl hvol
      | volEven => exact absurd rfl hvol
      | link k => exact absurd rfl hvol
      | level k => exact absurd rfl hvol
      | offset k => exact absurd rfl hvol
      | _ => exact absurd rfl hi

end Put

/-! ### A value that is taken -/

/-- A value `parse` may give. -/
def InRange (e : Echo) (i : SettingId) (v : ℤ) : Prop :=
  match (row i).type with
  | .bool => v = 0 ∨ v = 1
  | .int => e.min i ≤ v ∧ v ≤ e.max i
  | .choice => 0 ≤ v ∧ v < (choices i).length

instance (e : Echo) (i : SettingId) (v : ℤ) : Decidable (InRange e i v) :=
  match h : (row i).type with
  | .bool => decidable_of_iff (v = 0 ∨ v = 1) (by simp [InRange, h])
  | .int => decidable_of_iff (e.min i ≤ v ∧ v ≤ e.max i) (by simp [InRange, h])
  | .choice => decidable_of_iff (0 ≤ v ∧ v < (choices i).length) (by simp [InRange, h])

theorem length_choices : (choices .denoise).length = denoiseNames.length ∧
    (choices .btLang).length = btLangNames.length := ⟨rfl, rfl⟩

variable {e : Echo} {i : SettingId} {v : ℤ}

theorem parse_inRange {t : Bytes} (h : parse e i t = some v) : InRange e i v := by
  unfold parse at h
  split at h
  · next htype =>
    unfold InRange
    rw [htype]
    split at h
    · cases h
      exact .inr rfl
    · split at h
      · cases h
        exact .inl rfl
      · cases h
  · next htype =>
    unfold InRange
    rw [htype]
    split at h
    · split at h
      · next hbounds =>
        cases h
        exact hbounds
      · cases h
    · cases h
  · next htype =>
    unfold InRange
    rw [htype]
    rw [map_eq_some_iff] at h
    obtain ⟨k, hk, rfl⟩ := h
    refine ⟨Int.natCast_nonneg _, ?_⟩
    rw [Nat.cast_lt]
    rcases or_eq_some_iff.mp hk with hk | ⟨-, hk⟩
    · exact (findIdx?_eq_some_iff_findIdx_eq.mp hk).1
    · unfold otherName at hk
      split at hk
      · rw [length_choices.1]
        exact (findIdx?_eq_some_iff_findIdx_eq.mp hk).1
      · rw [length_choices.2]
        exact (findIdx?_eq_some_iff_findIdx_eq.mp hk).1
      · cases hk

theorem InRange.bool (h : InRange e i v) (ht : (row i).type = .bool) :
    v = 0 ∨ v = 1 := by
  unfold InRange at h
  rwa [ht] at h

theorem InRange.int (h : InRange e i v) (ht : (row i).type = .int)
    (hi : (row i).exported = true) : (row i).min ≤ v ∧ v ≤ (row i).max := by
  obtain ⟨hgain, hrot, -⟩ := exported_int i (mem_all i) hi ht
  unfold InRange at h
  rw [ht] at h
  unfold Echo.min Echo.max at h
  dsimp only at h
  rwa [if_neg hgain, if_neg hgain, if_neg hrot] at h

theorem InRange.choice (h : InRange e i v) (ht : (row i).type = .choice) :
    0 ≤ v ∧ v < (choices i).length := by
  unfold InRange at h
  rwa [ht] at h

/-- **A value in range is read back**, a choice and a number as they were. -/
theorem parse_format (hi : (row i).exported = true) (hv : InRange e i v) :
    parse e i (format i v) = some v := by
  cases htype : (row i).type with
  | bool =>
    obtain ⟨hoff, hon, hone, htrue⟩ := strings_differ
    rcases hv.bool htype with rfl | rfl
    · have hformat : format i 0 = text "off" := by simp [format, htype]
      rw [hformat]
      unfold parse
      rw [htype]
      dsimp only
      rw [if_neg, if_pos (.inl rfl)]
      rintro (h | h | h)
      · exact hoff h.symm
      · exact hone h
      · exact htrue h
    · have hformat : format i 1 = text "on" := by simp [format, htype]
      rw [hformat]
      unfold parse
      rw [htype]
      dsimp only
      rw [if_pos (.inl rfl)]
  | int =>
    have hbounds := hv.int htype hi
    obtain ⟨hgain, hrot, hlo, hhi⟩ := exported_int i (mem_all i) hi htype
    have hformat : format i v = Text.decimal v := by simp only [format, htype]
    rw [hformat]
    unfold parse
    rw [htype]
    dsimp only
    rw [← append_nil (Text.decimal v),
      Text.signed_decimal (by omega) (by omega) (fun c hc => by cases hc)]
    dsimp only
    unfold Echo.min Echo.max
    rw [if_neg hgain, if_neg hgain, if_neg hrot, if_pos hbounds]
  | choice =>
    obtain ⟨hlo, hhi⟩ := hv.choice htype
    have hlt : v.toNat < (choices i).length := by omega
    have hformat : format i v = (choices i)[v.toNat] := by
      simp only [format, htype]
      rw [if_pos hlo, getD_eq_getElem _ _ hlt]
    rw [hformat]
    unfold parse
    rw [htype]
    dsimp only
    rw [findIdx?_of_apart (choices_apart i (mem_all i)).1 hlt, some_or, map_some,
      Int.toNat_of_nonneg hlo]

theorem format_bool (ht : (row i).type = .bool) {w : ℤ} (h : v ≠ 0 ↔ w ≠ 0) :
    format i v = format i w := by
  unfold format
  rw [ht]
  dsimp only
  simp only [h]

theorem nonzero_ne_zero (v : ℤ) : nonzero v ≠ 0 ↔ v ≠ 0 := by
  unfold nonzero ofBool
  by_cases h : v = 0 <;> simp [h]

/-- An exported setting that a variable holds alone takes a value it may have. -/
theorem format_keep (hi : (row i).exported = true) (hp : e.present i)
    (hv : InRange e i v) (hk : isKept i) (ht : i ≠ .timerSound) (old : ℤ) :
    format i (keep e i old v) = format i v := by
  cases i with
  | speechLang | wakeAdapt | micLevel | btLang | btAudio | btSpeaker | whisper | lightSensor
  | wakeEvents | requestText => rfl
  | wakeSound | btAnnounce | sound | arb =>
    have hpos : 0 ≤ v := by rcases hv.bool rfl with h | h <;> omega
    exact congrArg _ (if_pos hpos)
  | timerRing =>
    have hpos : 0 ≤ v := (hv.int rfl hi).1
    exact congrArg _ (if_pos hpos)
  | soundTouch | soundMicsOff | soundMicsOn | soundVolume | soundBtOn | soundBtOff |
    wakeSoundRemoval
  | timerStopAny | stopEnds | wakeInReq | wifiMotion | httpsVerify | ssUnpaired =>
    have hpos : 0 ≤ v := by rcases hv.bool rfl with h | h <;> omega
    refine (congrArg _ (if_pos hpos)).trans (format_bool rfl (nonzero_ne_zero v))
  | dropinAnswer =>
    obtain ⟨hlo, hhi⟩ := hv.choice rfl
    have hlen : (choices .dropinAnswer).length = 2 := rfl
    have hcases : v = 0 ∨ v = 1 := by omega
    rcases hcases with rfl | rfl <;> rfl
  | arbAuto =>
    refine format_bool rfl ?_
    unfold keep
    dsimp only
    split
    · exact nonzero_ne_zero v
    · next hsame =>
      -- the variable is as good as the value
      have hpos : 0 ≤ v := by rcases hv.bool rfl with h | h <;> omega
      have heq : nonzero v = nonzero old := by
        by_contra hne
        exact hsame ⟨hpos, hne⟩
      rw [← nonzero_ne_zero old, ← heq, nonzero_ne_zero]
  | dropin =>
    refine format_bool rfl ?_
    unfold keep
    dsimp only
    split
    · exact nonzero_ne_zero v
    · next hsame =>
      have hpos : 0 ≤ v := by rcases hv.bool rfl with h | h <;> omega
      have heq : v = old := by
        by_contra hne
        exact hsame ⟨hpos, hne⟩
      rw [heq]
  | denoise =>
    obtain ⟨hlo, hhi⟩ := hv.choice rfl
    have hlen : (choices .denoise).length = 4 := rfl
    refine congrArg _ (?_ : (if 0 ≤ v ∧ v ≠ old then Min.min v 3 else old) = v)
    split <;> omega
  | endReq =>
    obtain ⟨hlo, hhi⟩ := hv.choice rfl
    exact congrArg _ (if_pos ⟨hlo, hhi⟩)
  | arbMode =>
    obtain ⟨hlo, hhi⟩ := hv.choice rfl
    have hlen : (choices .arbMode).length = 2 := rfl
    exact congrArg _ (if_pos (by omega))
  | arbWindow => exact congrArg _ (if_pos (hv.int rfl hi))
  | arbOffset => exact congrArg _ (if_pos (hv.int rfl hi))
  | updates =>
    obtain ⟨hlo, hhi⟩ := hv.choice rfl
    have hlen : (choices .updates).length = 3 := rfl
    exact congrArg _ (if_pos (by omega))
  | timerSound => exact absurd rfl ht
  | wifiSens =>
    obtain ⟨hlo, hhi⟩ : (1 : ℤ) ≤ v ∧ v ≤ 10 := hv.int rfl hi
    refine congrArg _ (?_ : (if 0 ≤ v then Max.max 1 (Min.min v 10) else old) = v)
    rw [if_pos (by omega)]
    omega
  | eq b =>
    have hb : (-6 : ℤ) ≤ v ∧ v ≤ 6 := by
      fin_cases b
      · exact hv.int rfl hi
      · exact hv.int rfl hi
      · exact hv.int rfl hi
    refine congrArg _ (?_ : Max.max (-6) (Min.min v 6) = v)
    omega
  | band =>
    obtain ⟨hlo, hhi⟩ : (0 : ℤ) ≤ v ∧ v ≤ 40 := hv.int rfl hi
    have hband : e.isBand = true := hp
    refine congrArg _ (?_ : (if e.isBand then if 0 ≤ v then Min.min v 40 else old else -1) = v)
    rw [if_pos hband, if_pos hlo]
    omega
  | mute | dnd | kioskNet | kioskMic | kioskCam | btOutDelay | btOutAwake | btOutStay |
      spkGain | ringRot =>
    cases hi
  | wakeEngine | ledAuto | ledLevel | volume | volSplit | volEven => cases hk
  | link k => cases hk
  | level k => cases hk
  | offset k => cases hk

/-- **An exported setting takes a value it may have**, unless it is one of the two that
may be refused. -/
theorem format_get_put (d : Device) (hi : (row i).exported = true)
    (hp : e.present i) (hv : InRange e i v) (hwake : i ≠ .wakeEngine) (htimer : i ≠ .timerSound) :
    format i ((d.put e i v).get e i) = format i v := by
  by_cases hk : isKept i
  · rw [get_kept e _ hk, put_kept e d hk]
    dsimp only
    rw [update_self]
    exact format_keep hi hp hv hk htimer _
  · cases i with
    | wakeEngine => exact absurd rfl hwake
    | ledAuto =>
      refine congrArg _ (?_ : (d.setLedAuto v).ledAuto = v)
      -- a negative value would leave the setting alone
      have hpos : 0 ≤ v := by rcases hv.bool rfl with h | h <;> omega
      unfold Device.setLedAuto
      split
      · rfl
      · next hsame =>
        by_contra hne
        exact hsame ⟨hpos, fun h => hne h.symm⟩
    | ledLevel =>
      obtain ⟨hlo, hhi⟩ : (0 : ℤ) ≤ v ∧ v ≤ 100 := hv.int rfl hi
      refine congrArg _ (?_ : (d.setLedBrightness v).ledBrightness = v)
      unfold Device.setLedBrightness Device.ledBrightness
      rw [if_pos hlo, if_neg (by simp)]
      exact min_eq_left hhi
    | volume => cases hi
    | volSplit =>
      have hpos : 0 ≤ v := by rcases hv.bool rfl with h | h <;> omega
      refine format_bool rfl ?_
      unfold Device.put Device.get
      dsimp only
      rw [if_pos hpos]
      dsimp only
      rw [(separateVolumes_fields _ _ _).2.1]
      exact nonzero_ne_zero v
    | volEven =>
      have hpos : 0 ≤ v := by rcases hv.bool rfl with h | h <;> omega
      refine format_bool rfl ?_
      unfold Device.put Device.get
      dsimp only
      rw [if_pos hpos]
      dsimp only
      rw [(evenVolume_fields _ _ _).2.2.1]
      exact nonzero_ne_zero v
    | link k =>
      have htype : (row (.link k)).type = .bool := by fin_cases k <;> rfl
      have hpos : 0 ≤ v := by rcases hv.bool htype with h | h <;> omega
      refine format_bool htype ?_
      unfold Device.put Device.get
      dsimp only
      rw [if_pos hpos]
      dsimp only
      rw [(kindLinked_fields _ _ _ _).2.2.2.1]
      exact nonzero_ne_zero v
    | level k =>
      fin_cases k <;> cases hi
    | offset k =>
      obtain ⟨hlo, hhi⟩ : (-100 : ℤ) ≤ v ∧ v ≤ 100 := by
        fin_cases k
        · exact hv.int rfl hi
        · exact hv.int rfl hi
        · exact hv.int rfl hi
        · exact hv.int rfl hi
      congr 1
      unfold Device.put Device.get setKindOffset clampOffset
      simp only [setKind_kinds, update_self]
      omega
    | _ => exact absurd rfl hk

end Hassmic.Settings
