import Mathlib

/-!
# The touchscreen

The panel reports up to ten fingers, each in a slot, and the one that came first is the touch.  What
is known of the others is kept by slot: which are new in the report under way, and which came down
well after the one followed and stayed where they landed, so that each is a touch of its own once
that one lifts.  After a lift the next finger is followed only once none is down, unless it is one
of these.  A touch that wakes the screen is only that.

## Main definitions

* `Touch`, `Panel` — what is kept, and what does not change.
* `touchResync`, `report`, `touchEvent`, `touchGone`, `touchOpen` — the events.
* `Input`, `touchStep` — what happens.
-/

namespace Hassmic.Ui

open Function (update)

/-- A slot of the panel. -/
abbrev Place := Fin 10

/-- `SLOP`. -/
abbrev slop : ℤ := 14

/-- `LATER_MS`. -/
abbrev laterMs : ℤ := 100

/-- What does not change: the rows of the grip, and `touch_map`, raw to the display. -/
structure Panel where
  map : ℤ → ℤ → ℤ × ℤ
  grip : ℤ

/-- `struct touch`; `fd`: the node is open. -/
structure Touch where
  fd : Bool
  screenOn : Bool
  slot : Option Place
  id : Place → ℤ
  x : Place → ℤ
  y : Place → ℤ
  x0 : Place → ℤ
  y0 : Place → ℤ
  t0 : Place → ℤ
  pt0 : ℤ
  dropped : Bool
  p : Option Place
  lift : Bool
  waking : Bool
  rest : Bool
  lx : ℤ
  ly : ℤ
  born : Place → Bool
  later : Place → Bool

/-- What the scene is told of a touch. -/
inductive Gesture
  | down
  | move
  | up

/-- What is called. -/
inductive Shown
  | touch (g : Gesture) (x y : ℤ) (time : ℤ)
  | screen (on : Bool) (time : ℤ)
  | wake

/-- What the device answers when it is asked for its slots; what it does not answer stays. -/
structure Device where
  slot : Option ℤ
  id : Option (Place → ℤ)
  x : Option (Place → ℤ)
  y : Option (Place → ℤ)

/-- A slot, or none of ours. -/
def toPlace (v : ℤ) : Option Place := if h : 0 ≤ v ∧ v < 10 then some ⟨v.toNat, by omega⟩ else none

/-- `touch_reset`. -/
def touchReset (t : Touch) : Touch :=
  { t with
    id      := fun _ => -1
    p       := none
    dropped := false
    lift    := false
    waking  := false
    rest    := false
    born    := fun _ => false
    later   := fun _ => false }

/-- `touch_resync`. -/
def touchResync (d : Device) (t : Touch) : Touch :=
  let id := d.id.getD t.id
  let x := d.x.getD t.x
  let y := d.y.getD t.y
  let t' := { t with
    slot  := match d.slot with
      | some v => toPlace v
      | none => t.slot
    id    := id
    x     := x
    y     := y
    born  := fun k => t.born k || decide (0 ≤ id k ∧ id k ≠ t.id k)
    later := fun k => t.later k && decide (0 ≤ id k) }
  match t.p with
  | none => t'
  | some p =>
    if id p = t.id p then t'
    else { t' with lift := true, lx := if id p < 0 then x p else t.x p,
                   ly := if id p < 0 then y p else t.y p }

section

variable (pn : Panel)

/-- `stayed`: a finger where it landed, give or take a tap's slop. -/
def stayed (t : Touch) (k : Place) : Bool :=
  let a := pn.map (t.x k) (t.y k)
  let b := pn.map (t.x0 k) (t.y0 k)
  decide (|a.1 - b.1| ≤ slop ∧ |a.2 - b.2| ≤ slop)

/-- `scene_touch`, the layer's rows start under the grip. -/
def shown (g : Gesture) (x y time : ℤ) : Shown :=
  .touch g (pn.map x y).1 ((pn.map x y).2 - pn.grip) time

/-! ### A report -/

/-- Where and when the new fingers landed; those that moved are no touch of their own any more. -/
def land (time : ℤ) (t : Touch) : Touch :=
  let t := { t with
    x0 := fun k => if t.born k then t.x k else t.x0 k
    y0 := fun k => if t.born k then t.y k else t.y0 k
    t0 := fun k => if t.born k then time else t.t0 k }
  { t with later := fun k => t.later k && stayed pn t k }

/-- The finger followed lifted. -/
def liftFollowed (time : ℤ) (t : Touch) : Touch × List Shown :=
  if t.p.isSome ∧ t.lift then
    ({ t with
        p      := none
        lift   := false
        waking := false
        rest   := true
        later  := fun k => if t.waking then false else t.later k },
      if t.waking then [] else [shown pn .up t.lx t.ly time])
  else ({ t with lift := false }, [])

/-- A finger that may be followed next. -/
def mayFollow (t : Touch) (k : Place) : Bool :=
  decide (0 ≤ t.id k) && (!t.rest || t.born k || (t.later k && stayed pn t k))

/-- The finger followed from here on; whether it is another one. -/
def follow (time : ℤ) (t : Touch) : Touch × Bool :=
  let t := { t with rest := t.rest && (List.finRange 10).any fun k => decide (0 ≤ t.id k) }
  let found := if t.p.isSome then none else (List.finRange 10).find? (mayFollow pn t)
  let p := t.p.or found
  let pt0 := match found with
    | some k => t.t0 k
    | none => t.pt0
  ({ t with
      p     := p
      pt0   := pt0
      later := fun k => (t.later k || (decide (p.isSome ∧ laterMs ≤ time - pt0) && t.born k)) &&
        decide (p ≠ some k)
      born  := fun _ => false },
    found.isSome)

/-- What the scene is told of the finger followed; `interactive`: the screen on, asked now. -/
def tell (time : ℤ) (interactive : Option Bool) (fresh : Bool) (t : Touch) : Touch × List Shown :=
  match t.p with
  | none => (t, [])
  | some p =>
    if fresh then
      let on := interactive.getD t.screenOn
      let looked := if on = t.screenOn then [] else [Shown.screen on time]
      if on then ({ t with screenOn := on }, looked ++ [shown pn .down (t.x p) (t.y p) time])
      else ({ t with screenOn := true, waking := true }, looked ++ [.wake, .screen true time])
    else (t, if t.waking then [] else [shown pn .move (t.x p) (t.y p) time])

/-- A report. -/
def report (time : ℤ) (interactive : Option Bool) (t : Touch) : Touch × List Shown :=
  let lifted := liftFollowed pn time (land pn time t)
  let followed := follow pn time lifted.1
  let told := tell pn time interactive followed.2 followed.1
  (told.1, lifted.2 ++ told.2)

/-! ### The events -/

/-- An event of the node, with the clock and what is answered where it is asked. -/
inductive TouchEv
  | slot (v : ℤ)
  | trackingId (v : ℤ)
  | positionX (v : ℤ)
  | positionY (v : ℤ)
  | synDropped
  | synReport (stamp now : ℤ) (interactive : Option Bool) (device : Device)
  | other

/-- When it happened, not when it came to be read. -/
def eventTime (stamp now : ℤ) : ℤ := if now < stamp ∨ stamp < now - 1000 then now else stamp

/-- The state a report is about: after a buffer that ran over, what the device has now. -/
def atReport (d : Device) (t : Touch) : Touch :=
  if t.dropped then touchResync d { t with dropped := false } else t

/-- `ABS_MT_TRACKING_ID`: another finger in the slot, or none. -/
def trackingId (k : Place) (v : ℤ) (t : Touch) : Touch :=
  let t' := { t with
    id    := update t.id k v
    born  := update t.born k (t.born k || decide (0 ≤ v ∧ v ≠ t.id k))
    later := update t.later k (t.later k && decide (0 ≤ v)) }
  if t.p = some k ∧ v ≠ t.id k then { t' with lift := true, lx := t.x k, ly := t.y k } else t'

/-- `touch_read`, one event. -/
def touchEvent (t : Touch) : TouchEv → Touch × List Shown
  | .synDropped => ({ t with dropped := true }, [])
  | .synReport stamp now interactive d => report pn (eventTime stamp now) interactive (atReport d t)
  | .slot v => (if t.dropped then t else { t with slot := toPlace v }, [])
  | .trackingId v =>
    (if t.dropped then t else match t.slot with
      | none => t
      | some k => trackingId k v t, [])
  | .positionX v =>
    (if t.dropped then t else match t.slot with
      | none => t
      | some k => { t with x := update t.x k v }, [])
  | .positionY v =>
    (if t.dropped then t else match t.slot with
      | none => t
      | some k => { t with y := update t.y k v }, [])
  | .other => (t, [])

/-- `touch_gone`. -/
def touchGone (now : ℤ) (t : Touch) : Touch × List Shown :=
  ({ t with fd := false, p := none }, match t.p with
    | none => []
    | some p => if t.waking then [] else [shown pn .up (t.x p) (t.y p) now])

end

/-- `touch_open`: no node, or one and what it answers.  A finger down already is no touch of
ours. -/
def touchOpen (found : Option Device) (t : Touch) : Touch :=
  match found with
  | none => { touchReset t with fd := false }
  | some d =>
    let t := touchResync d (touchReset { t with fd := true, slot := toPlace (d.slot.getD 0) })
    { t with born := fun _ => false,
             rest := t.rest || (List.finRange 10).any fun k => decide (0 ≤ t.id k) }

/-- What happens: an event is read, the node goes away, one is looked for, the platform says whether
the screen is on. -/
inductive Input
  | read (e : TouchEv)
  | gone (now : ℤ)
  | look (found : Option Device)
  | screen (on : Bool)

/-- What the screen's thread makes of it: it reads a node that is open, and looks for one where none
is. -/
def touchStep (pn : Panel) (t : Touch) : Input → Touch × List Shown
  | .read e => if t.fd then touchEvent pn t e else (t, [])
  | .gone now => if t.fd then touchGone pn now t else (t, [])
  | .look found => if t.fd then (t, []) else (touchOpen found t, [])
  | .screen on => ({ t with screenOn := on }, [])

/-- The start: no node has been looked for. -/
def touchStart : Touch where
  fd := false
  screenOn := true
  slot := none
  id _ := -1
  x _ := 0
  y _ := 0
  x0 _ := 0
  y0 _ := 0
  t0 _ := 0
  pt0 := 0
  dropped := false
  p := none
  lift := false
  waking := false
  rest := false
  lx := 0
  ly := 0
  born _ := false
  later _ := false

/-- After a run. -/
def touchAfter (pn : Panel) (l : List Input) : Touch :=
  l.foldl (fun t i => (touchStep pn t i).1) touchStart

/-- What a run shows, from a state on. -/
def touchShown (pn : Panel) : Touch → List Input → List Shown
  | _, [] => []
  | t, i :: l => (touchStep pn t i).2 ++ touchShown pn (touchStep pn t i).1 l

end Hassmic.Ui
