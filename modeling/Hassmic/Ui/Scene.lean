import Mathlib

/-!
# Display lists and what of them is drawn

A frame of the screen is a list of items, drawn one over the other, each inside its box.  The next
frame is compared with it, item by item of the same id, and only what lies in one rectangle around
all that differs is drawn anew, over the picture of the last frame.

How an item is drawn is left open: it changes no more than the pixels of its box inside its clip,
each as a function of the item and of what is there already.

## Main definitions

* `Rect`, `Item`, `place` — boxes, items, and an item that is added to a frame.
* `sceneDraw` — a list that is drawn inside a rectangle.
* `diff` — the rectangle around what differs.
-/

namespace Hassmic.Ui

/-! ### Boxes -/

abbrev Point := ℤ × ℤ

/-- A rectangle, without its right and its lower edge. -/
structure Rect where
  x0 : ℤ
  y0 : ℤ
  x1 : ℤ
  y1 : ℤ
  deriving DecidableEq

namespace Rect

/-- `rect_empty`. -/
def empty (r : Rect) : Bool := r.x1 ≤ r.x0 || r.y1 ≤ r.y0

def none : Rect := ⟨0, 0, 0, 0⟩

/-- `rect_and`. -/
def and (a b : Rect) : Rect :=
  let r : Rect := ⟨max a.x0 b.x0, max a.y0 b.y0, min a.x1 b.x1, min a.y1 b.y1⟩
  if r.empty then none else r

/-- `rect_or`, the box around both. -/
def or (a b : Rect) : Rect :=
  if a.empty then b
  else if b.empty then a
  else ⟨min a.x0 b.x0, min a.y0 b.y0, max a.x1 b.x1, max a.y1 b.y1⟩

/-- The pixels of a rectangle. -/
def Has (r : Rect) (p : Point) : Prop := r.x0 ≤ p.1 ∧ p.1 < r.x1 ∧ r.y0 ≤ p.2 ∧ p.2 < r.y1

instance (r : Rect) (p : Point) : Decidable (r.Has p) := inferInstanceAs (Decidable (_ ∧ _ ∧ _ ∧ _))

end Rect

/-! ### Items -/

abbrev maxItems : ℕ := 2400
abbrev maxId : ℕ := 8192

/-- An item; `look` is all of it that says how it looks: its kind, its numbers, its colours and its
picture. -/
structure Item (α : Type) where
  id : ℕ
  look : α
  box : Rect
  clip : Rect
  deriving DecidableEq

variable {α : Type}

/-- `emit` and `place`: an item is added, its box as far as the clip lets it show, unless nothing of
it shows. -/
def place (clip : Rect) (id : ℕ) (look : α) (box : Rect) (l : List (Item α)) : List (Item α) :=
  if maxItems ≤ l.length ∨ maxId ≤ id then l
  else
    let it : Item α := { id := id, look := look, box := box.and clip, clip := clip }
    if it.box.empty then l else l ++ [it]

/-! ### Drawing -/

section draw

variable {C : Type} (draw : Item α → Point → C → C)

/-- One item, inside a rectangle. -/
def drawItem (frame : Rect) (pic : Point → C) (it : Item α) : Point → C :=
  let clip := frame.and it.clip
  if (it.box.and clip).empty then pic else fun p => if (it.box.and clip).Has p then
    draw it p (pic p) else pic p

/-- `scene_draw`. -/
def sceneDraw (frame : Rect) (l : List (Item α)) (pic : Point → C) : Point → C :=
  l.foldl (drawItem draw frame) pic

end draw

/-! ### What differs -/

section diff

variable [DecidableEq α]

/-- `idx`: the last place of each id, and the item there. -/
def index (l : List (Item α)) : ℕ → Option (ℕ × Item α) :=
  l.zipIdx.foldl (fun idx x => Function.update idx x.1.id (some (x.2, x.1))) fun _ => none

/-- The rectangle so far, and the places of the last frame that were compared. -/
structure Diff where
  d : Rect := Rect.none
  seen : ℕ → Bool := fun _ => false

/-- An item of the new frame. -/
def diffItem (old : List (Item α)) (s : Diff) (b : Item α) : Diff :=
  match index old b.id with
  | none => { s with d := s.d.or b.box }
  | some (j, a) =>
      -- an id drawn twice in a frame: its second goes by box
      if s.seen j then { s with d := s.d.or b.box }
      else
        { d := if a = b then s.d else (s.d.or a.box).or b.box
          seen := Function.update s.seen j true }

/-- `diff`. -/
def diff (old new : List (Item α)) : Rect :=
  let s := new.foldl (diffItem old) {}
  old.zipIdx.foldl (fun d x => if s.seen x.2 then d else d.or x.1.box) s.d

/-- `scene_prepare`, the rectangle that is drawn anew. -/
def redrawn (full : Bool) (screen : Rect) (old new : List (Item α)) : Rect :=
  (if full then screen else diff old new).and screen

end diff

end Hassmic.Ui
