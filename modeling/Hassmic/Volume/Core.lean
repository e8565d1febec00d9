import Mathlib
import Hassmic.Lib.Slots

/-!
# The volume and where it is kept

An Echo's volume is kept in one of three places.  With its own curve the mixer's `MainVolume` is
the volume.  With separate volumes or even steps the mixer is at the loudest kind, or at a point of
the curve, and the volume is in the file `volume.music`, written once a second.  While a Bluetooth
speaker plays, the volume is the speaker's, and the Echo's own is set aside in the file
`volume.speaker`.

An operation is what a thread does under the lock, or one write without it; besides the new state
of the process it gives its effects on the files and the mixer, in order.  A process may die
between any two of them.

## Main definitions

* `Disk`, `Eff` — the files and the mixer, and what is done to them.
* `Proc`, `Proc.op` — the state of the process, and its operations.
* `Disk.read`, `Disk.start` — `core_volume` at the start of a process.
* `World.step` — one step, with the death of a process among them.
-/

namespace Hassmic.Volume

/-- A volume, 0 to 100. -/
abbrev Level := Fin 101

instance neZero_level : NeZero 101 := ⟨by decide⟩

instance neZero_kinds : NeZero 4 := ⟨by decide⟩

/-- `clamp100`. -/
def clamp100 (v : ℤ) : Level := ⟨(max 0 (min v 100)).toNat, by omega⟩

/-! ### Files and the mixer -/

/-- A file that is written in place: `fopen` empties it first. -/
inductive File
  | absent
  | garbage
  | holds (v : Level)
  deriving DecidableEq

/-- What outlives a process.  The last two are kept for the statements only: whether `MainVolume`
was last set with the volumes together, the steps the curve's own and no speaker on, and what it
was moved to since from outside. -/
structure Disk where
  /-- `volume.speaker`. -/
  own : File := .absent
  /-- `volume.music`. -/
  music : Option Level := none
  /-- `MainVolume`. -/
  main : Level
  /-- The settings in `state/config`. -/
  cfgSplit : Bool := false
  cfgEven : Bool := true
  plain : Bool := true
  wish : Option Level := none

/-- What an operation does to the files and the mixer. -/
inductive Eff
  /-- `fopen(own_volume_path(), "w")`, and what is then written. -/
  | emptyOwn
  | writeOwn (v : Level)
  | unlinkOwn
  | writeMusic (v : Level)
  | unlinkMusic
  /-- `volume.music` written at the start of a process. -/
  | keepMusic (v : Level)
  /-- `mix_apply`: `MainVolume` is written unless it is as last written. -/
  | mix (v : Level) (writes plain : Bool)
  /-- `MainVolume` as moved from outside is taken over. -/
  | adopt (v : Level)
  | config (split even : Bool)

namespace Disk

variable (d : Disk)

def apply : Eff → Disk
  | .emptyOwn => { d with own := .garbage }
  | .writeOwn v => { d with own := .holds v }
  | .unlinkOwn => { d with own := .absent }
  | .writeMusic v => { d with music := some v }
  | .unlinkMusic => { d with music := none }
  | .keepMusic v => { d with music := some v, plain := false }
  | .mix v writes plain =>
      { d with
        main := if writes then v else d.main
        wish := if writes then none else d.wish
        plain := plain }
  | .adopt v => { d with wish := if d.main = v then none else d.wish }
  | .config split even => { d with cfgSplit := split, cfgEven := even }

/-- Effects one after the other. -/
def applyAll (l : List Eff) : Disk := l.foldl apply d

/-- `split` of `core_volume`: whether `volume.music` counts. -/
def counts : Bool := d.cfgSplit || d.cfgEven

/-- The volume `core_volume` reads at the start of a process. -/
def read : Level :=
  match d.own with
  | .holds v => v
  | _ => if d.counts then d.music.getD d.main else d.main

end Disk

/-! ### The process -/

/-- `SPEAKER_NONE`, `SPEAKER_MIXER`, `SPEAKER_ABSOLUTE`. -/
inductive Mode
  | none | mixer | absolute
  deriving DecidableEq

/-- A kind's own volume, whether it follows the music's, and by how much it differs from it. -/
structure Kind where
  level : Level := 40
  linked : Bool := false
  offset : ℤ := 0

/-- Where `volume_sync` stands: behind its first lock, or behind the reading of `MainVolume`. -/
inductive Sync
  | idle
  | looked (cur want : Level)
  | read (cur want main : Level)
  deriving DecidableEq

/-- The state of a process. -/
structure Proc where
  volume : Level
  /-- `vol_split`, `vol_even`: as at the start of a process, up to `settings_load`. -/
  split : Bool := false
  even : Bool := true
  kinds : Fin 4 → Kind := fun k => { linked := k = 3 }
  /-- `dropin_live`. -/
  call : Bool := false
  mainWritten : Option Level := none
  mode : Mode := .none
  echoOwnVolume : Level := 0
  musicDirty : Bool := false
  /-- What `music_volume_write` is about to write; whether it has still to check the modes. -/
  writing : Option Level := none
  checking : Bool := false
  sync : Sync := .idle

/-- The points of the curve, with tenths of a decibel. -/
abbrev Curve := List (Level × ℤ)

/-- `board_vol_at(want_db(v))` with even steps: the first point that is loud enough, where `0` asks
for nothing and each other step is a 99th of 50 decibels. -/
def boardVolAt (c : Curve) (v : Level) : Level :=
  match c.dropLast.find? fun p => v = 0 || decide (-500 * (100 - (v : ℤ)) ≤ 99 * p.2) with
  | some p => p.1
  | none => (c.getLast?.map Prod.fst).getD 100

/-- The Echo Dot 2's. -/
def boardVolDot2 : Curve :=
  [(0, -600), (5, -473), (10, -406), (20, -357), (30, -305), (40, -265), (50, -224), (60, -195),
    (70, -184), (80, -140), (90, -100), (100, 0)]

/-- What a process does. -/
inductive Op
  /-- `core_set_volume`, `core_speaker_volume`. -/
  | setVolume (v : ℤ)
  | speakerVolume (pct : ℤ)
  /-- `core_speaker`. -/
  | speaker (mode : Mode) (pct : ℤ)
  | separateVolumes (set : Bool)
  | evenVolume (set : Bool)
  /-- A kind's own volume, or how it follows the music's, is set; a call comes or goes. -/
  | kind (k : Fin 4) (kind : Kind)
  | call (on : Bool)
  /-- `music_volume_write`: its first lock, the write, its second lock. -/
  | writeLooks
  | writes
  | writeChecks
  /-- `volume_sync`: its first lock, the reading, its second lock. -/
  | syncLooks
  | syncReads
  | syncSets
  /-- `settings_save`. -/
  | save

namespace Proc

variable (c : Curve) (p : Proc)

/-- `stream_owns_volume`. -/
def streamOwnsVolume : Bool := !p.split && !p.even

/-- `kind_volume`. -/
def kindVolume (k : Fin 4) : Level :=
  if (p.kinds k).linked then clamp100 (p.volume + (p.kinds k).offset) else (p.kinds k).level

/-- `loudest`: a call's volume counts only while there is one. -/
def loudest : Level :=
  if p.split then
    (List.finRange 4).foldl (fun v k =>
      if (k ≠ 3 || p.call) && decide (v < p.kindVolume k) then p.kindVolume k else v) p.volume
  else p.volume

/-- `mix_target`. -/
def mixTarget : Level :=
  if p.mode = .absolute then 100
  else if p.even then boardVolAt c p.loudest else p.loudest

/-- `mix_apply`, as far as `MainVolume` goes. -/
def mixApply : Proc × List Eff :=
  ({ p with mainWritten := some (p.mixTarget c) },
    [.mix (p.mixTarget c) (p.mainWritten ≠ some (p.mixTarget c))
      (p.streamOwnsVolume && p.mode = .none)])

/-- `music_volume_keep`. -/
def musicVolumeKeep : Proc × List Eff :=
  ({ p with musicDirty := !p.streamOwnsVolume }, if p.streamOwnsVolume then [.unlinkMusic] else [])

/-- `core_set_volume`. -/
def setVolume (v : ℤ) : Proc × List Eff :=
  let p := { p with volume := clamp100 v }
  let p := if !p.streamOwnsVolume && p.mode = .none then p.musicVolumeKeep.1 else p
  p.mixApply c

/-- `core_speaker_volume`. -/
def speakerVolume (pct : ℤ) : Proc × List Eff :=
  p.setVolume c (if p.split then p.volume + pct - p.loudest else pct)

/-- The end of a switch: `music_volume_keep` where it is called, then `mix_apply`. -/
def switched (keeps : Bool) : Proc × List Eff :=
  let (p, keep) := if keeps then p.musicVolumeKeep else (p, [])
  let (p, mix) := p.mixApply c
  (p, keep ++ mix)

/-- `core_separate_volumes`. -/
def separateVolumes (set : Bool) : Proc × List Eff :=
  if set = p.split then (p, [])
  else
    let base := if p.mode = .none then p.volume else p.echoOwnVolume
    let p := if set then { p with kinds := fun k => { p.kinds k with level := base } } else p
    let p := { p with split := set }
    p.switched c (!set || p.mode = .none)

/-- `core_even_volume`. -/
def evenVolume (set : Bool) : Proc × List Eff :=
  if set = p.even then (p, [])
  else
    let p := { p with even := set }
    p.switched c (p.streamOwnsVolume || p.mode = .none)

/-- `core_speaker`. -/
def speaker (mode : Mode) (pct : ℤ) : Proc × List Eff :=
  if mode = p.mode then (p, [])
  else
    let (p, aside) := if p.mode = .none then
        ({ p with echoOwnVolume := p.volume }, [.emptyOwn, .writeOwn p.volume])
      else (p, [])
    let p := match mode with
      | .none =>
          let p := { p with volume := p.echoOwnVolume }
          if !p.streamOwnsVolume then p.musicVolumeKeep.1 else p
      | .absolute => { p with volume := clamp100 pct }
      | .mixer => p
    let (p, mix) := mixApply c { p with mode := mode }
    (p, aside ++ mix ++ (if mode = .none then [.unlinkOwn] else []))

/-- `music_volume_write` up to its first unlock. -/
def writeLooks : Proc :=
  if p.writing.isSome || p.checking then p
  else
    let v := if p.mode = .none then p.volume else p.echoOwnVolume
    { p with musicDirty := false, writing := if p.musicDirty then some v else none }

/-- Its write. -/
def writes : Proc × List Eff :=
  match p.writing with
  | none => (p, [])
  | some v => ({ p with writing := none, checking := true }, [.writeMusic v])

/-- Its second lock. -/
def writeChecks : Proc × List Eff :=
  if p.checking then
    ({ p with checking := false }, if p.streamOwnsVolume then [.unlinkMusic] else [])
  else (p, [])

/-- `volume_sync` behind its second lock. -/
def syncSets : Proc × List Eff :=
  match p.sync with
  | .read cur want main =>
      let p := { p with sync := .idle }
      if p.mode ≠ .absolute ∧ p.volume = cur ∧ p.mixTarget c = want then
        if main ≠ want ∧ p.streamOwnsVolume = true then
          let (p, mix) := mixApply c { p with volume := main, mainWritten := some main }
          (p, .adopt main :: mix)
        else if main ≠ want then mixApply c { p with mainWritten := none }
        else p.mixApply c
      else (p, [])
  | _ => (p, [])

/-- An operation, with the files and the mixer as it finds them. -/
def op (d : Disk) : Op → Proc × List Eff
  | .setVolume v => p.setVolume c v
  | .speakerVolume pct => p.speakerVolume c pct
  | .speaker mode pct => p.speaker c mode pct
  | .separateVolumes set => p.separateVolumes c set
  | .evenVolume set => p.evenVolume c set
  | .kind k kind => mixApply c { p with kinds := Function.update p.kinds k kind }
  | .call on => mixApply c { p with call := on }
  | .writeLooks => (p.writeLooks, [])
  | .writes => p.writes
  | .writeChecks => p.writeChecks
  | .syncLooks =>
    (if p.sync = .idle then { p with sync := .looked p.volume (p.mixTarget c) } else p, [])
  | .syncReads =>
      match p.sync with
      | .looked cur want => ({ p with sync := .read cur want d.main }, [])
      | _ => (p, [])
  | .syncSets => p.syncSets c
  | .save => (p, [.config p.split p.even])

end Proc

/-- The start of a process, with its first `core_volume`, which comes before anything sets a
volume. -/
def Disk.start (c : Curve) (d : Disk) : Proc × List Eff :=
  let kept : List Eff := match d.own with
    | .holds _ => []
    | _ => if d.counts && d.music = none then [.keepMusic d.main] else []
  let (p, mix) := Proc.mixApply c { volume := d.read }
  (p, (if d.counts then [] else [.unlinkMusic]) ++ kept ++ [.unlinkOwn] ++ mix)

/-! ### Runs -/

/-- What happens.  A process dies with the first `k` effects of an operation done, or of its
start. -/
inductive Ev
  | start
  | op (o : Op)
  | dies (o : Op) (k : ℕ)
  | outside (v : Level)

/-- Whether an operation sets the volume. -/
def Op.sets : Op → Bool
  | .setVolume _ => true
  | .speakerVolume _ => true
  | .syncSets => true
  | _ => false

/-- The files and the mixer, and the process that runs, if one does.  The Echo's own volume, the
ones before, and whether the last process died with a change not yet written are kept for the
statements only. -/
structure World where
  disk : Disk
  proc : Option Proc := none
  own : Level
  past : List Level := []
  pending : Bool := false

/-- The Echo's own volume after an operation: while a speaker is on, it is not set. -/
def ownAfter (own : Level) (o : Op) (p : Proc) : Level :=
  if o.sets && p.mode = .none then p.volume else own

namespace World

variable (c : Curve) (w : World)

/-- One step. -/
def step : Ev → World
  | .start =>
      match w.proc with
      | some _ => w
      | none =>
          { disk := w.disk.applyAll (w.disk.start c).2
            proc := some (w.disk.start c).1
            own := w.disk.read
            past := w.own :: w.past }
  | .op o =>
      match w.proc with
      | none => w
      | some p =>
          { w with
            disk := w.disk.applyAll (p.op c w.disk o).2
            proc := some (p.op c w.disk o).1
            own := ownAfter w.own o (p.op c w.disk o).1
            past := w.own :: w.past }
  | .dies o k =>
      match w.proc with
      | none =>
          if k = 0 then w
          else
            { disk := w.disk.applyAll ((w.disk.start c).2.take k)
              own := w.disk.read
              past := w.own :: w.past }
      | some p =>
          let p' := if k = 0 then p else (p.op c w.disk o).1
          { disk := w.disk.applyAll ((p.op c w.disk o).2.take k)
            own := if k = 0 then w.own else ownAfter w.own o p'
            past := w.own :: w.past
            pending := p'.musicDirty || p'.writing.isSome }
  | .outside v => { w with disk := { w.disk with main := v, wish := some v } }

/-- A run. -/
def run (l : List Ev) : World := l.foldl (step c) w

/-- An Echo before its first process. -/
def init (main : Level) (split even : Bool) : World where
  disk := { main := main, cfgSplit := split, cfgEven := even }
  own := main

end World

end Hassmic.Volume
