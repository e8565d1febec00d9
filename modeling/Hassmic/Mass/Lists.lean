import Hassmic.Lib.Runs

/-!
# The lists the screen asks for

The screen asks Music Assistant for a list with a line `ml`, and is told of it with a line `L`, a
line for each item and an end line `E`.  A record of the request stands in a table from before it is
sent until its answer, and says what the answer is for.  The answer may come in pieces; the record
may also go because the table is full, because the session ended, or because it could not be sent.

Who takes the record writes the end line, which holds in all but a few moments: a request that could
not be sent is given an end even where the session's end gave it one meanwhile; a piece is told of
without the lock, and the table may be full then; and an empty first piece has the line `L` come
twice.

## Main definitions

* `Rec`, `Query` — the record of a request, and the request itself.
* `Lists`, `Lists.step` — the table and the two threads that use it, and what happens.
* `Shape` — what a screen is told of one request.
* `Lists.Sound` — every request is told of so, and has its end once nobody owes it one.
-/

namespace Hassmic.Mass

open List Function

/-! ### Requests -/

/-- The lists of the library. -/
inductive Library
  | artists | albums | playlists | tracks | radios | podcasts | audiobooks
  deriving DecidableEq

/-- The lists of an item. -/
inductive Inside
  | albumTracks | artistAlbums | artistTracks | playlistTracks | podcastEpisodes
  deriving DecidableEq

/-- The schema from which on they come in pages. -/
def Inside.pagedFrom : Inside → ℤ
  | .albumTracks => 89
  | .artistAlbums => 92
  | .artistTracks => 92
  | .playlistTracks => 93
  | .podcastEpisodes => 93

/-- What is asked for; the lists of an item with whether one was named. -/
inductive What
  | library (l : Library)
  | recent
  | queue
  | search
  | inside (i : Inside) (item : Bool)
  | unknown
  deriving DecidableEq

/-- A line `ml`: the screen's number for it, the list and where in it. -/
structure Query where
  req : ℤ
  what : What
  off : ℤ
  deriving DecidableEq

/-- A list's page, as the screen scrolls. -/
def page : ℕ := 60

/-- A record of a request: `K_LIST`, or any other kind.  The number of the request among all is kept
for the statements only. -/
structure Rec where
  id : ℕ
  list : Bool := true
  req : ℤ := 0
  offset : ℤ := 0
  paged : Bool := false
  sent : ℕ := 0
  what : What := .unknown
  tag : ℕ := 0

/-! ### What the screen is told -/

/-- What a line says of a list, its numbers left out. -/
inductive Said (α : Type*)
  | head
  | item (x : α)
  | fin (err : Option String)
  deriving DecidableEq

/-- A line, with the number of the request it is about. -/
inductive UiLine (α : Type*)
  | head (tag : ℕ) (req off total : ℤ)
  | item (tag : ℕ) (req : ℤ) (x : α) (current : Bool)
  | fin (tag : ℕ) (req : ℤ) (err : Option String)

namespace UiLine

variable {α : Type*}

/-- What a line says of a request, if it is about it. -/
def about (r : ℕ) : UiLine α → Option (Said α)
  | .head tag _ _ _ => if tag = r then some .head else none
  | .item tag _ x _ => if tag = r then some (.item x) else none
  | .fin tag _ err => if tag = r then some (.fin err) else none

end UiLine

/-- What the screen is told of a request, in order. -/
def told {α : Type*} (r : ℕ) (l : List (UiLine α)) : List (Said α) := l.filterMap (UiLine.about r)

/-- **What a screen may be told of one request**, where `came` are the items of its answer so far:
nothing yet; the line `L` and the first of the items; the line `L`, all of the items and the end; or
an end in error, before or behind some of the items. -/
inductive Shape {α : Type*} (came : List α) : List (Said α) → Prop
  | silent : Shape came []
  | started {l : List α} (h : l <+: came) : Shape came (.head :: l.map .item)
  | whole : Shape came (.head :: (came.map .item ++ [.fin none]))
  | refused (e : String) : Shape came [.fin (some e)]
  | broken {l : List α} (h : l <+: came) (e : String) :
      Shape came (.head :: (l.map .item ++ [.fin (some e)]))

/-! ### The two threads -/

/-- Where the thread of the screen's requests stands. -/
inductive Ui
  | idle
  /-- In `list_ask`, with whether the session was up. -/
  | asks (q : Query) (tag : ℕ) (up : Bool)
  /-- In `send_how`, behind its first lock; and with a message that could not be sent. -/
  | sends (q : Query) (tag id : ℕ)
  | failed (q : Query) (tag id : ℕ)
  deriving DecidableEq

/-- The number of the request the thread is at. -/
def Ui.tag : Ui → Option ℕ
  | .idle => none
  | .asks _ tag _ => some tag
  | .sends _ tag _ => some tag
  | .failed _ tag _ => some tag

/-- Where the session's thread stands: without a connection; connected; logged in; behind
`ws_shut`. -/
inductive Ses
  | down | connected | up | shut
  deriving DecidableEq

/-- The result of an answer: the list, and what a search found by kind. -/
structure Answer (α : Type*) where
  items : List α
  found : Fin 7 → List α

/-- The items of an answer to a request. -/
def Answer.all {α : Type*} (a : Answer α) (what : What) : List α :=
  if what = .search then (List.ofFn a.found).flatten else a.items

/-- The table, the threads and what was told.  The lines that `on_list` still has to write stand in
`tell`.  Kept for the statements only: the number of requests, those of an earlier screen, and the
items that came for each. -/
structure Lists (α : Type*) where
  next : ℕ := 0
  pend : Fin 64 → Option Rec := fun _ => none
  ui : Ui := .idle
  ses : Ses := .down
  tell : List (UiLine α) := []
  out : List (UiLine α) := []
  asked : ℕ := 0
  base : ℕ := 0
  came : ℕ → List α := fun _ => []

/-- What happens. -/
inductive Act (α : Type*)
  /-- A line `ml`; its `list_ask`, with what it reads of the schema and the queue; what it sends,
  and whether it went out; and its end line. -/
  | ml (q : Query)
  | asks (schema : ℤ) (hasQueue : Bool)
  | sends (ok : Bool)
  | gives
  /-- Another command is registered, by any thread, and dropped where it could not be sent. -/
  | other
  | otherGone (id : ℕ)
  /-- A connection, its login or its end, and the session's end. -/
  | opens
  | refused
  | welcome
  | shuts
  | ends
  /-- A piece or the whole of an answer, or an error, with the place in the queue; and the lines
  written for it. -/
  | piece (id : ℕ) (a : Answer α) (cur : ℤ)
  | result (id : ℕ) (a : Except String (Answer α)) (cur : ℤ)
  | tells
  /-- A new screen. -/
  | replay

namespace Lists

variable {α : Type*} (s : Lists α)

/-! ### The table -/

/-- `pend_of`. -/
def pendOf (id : ℕ) : Option (Fin 64) :=
  (List.finRange 64).find? fun k => (s.pend k).any fun p => p.id = id

/-- The slot `send_how` takes: a free one, else the one the number names. -/
def slot (id : ℕ) : Fin 64 :=
  ((List.finRange 64).find? fun k => (s.pend k).isNone).getD ⟨id % 64, Nat.mod_lt _ (by decide)⟩

/-- The end line of a list's record. -/
def endOf (e : String) (p : Rec) : List (UiLine α) :=
  if p.list then [.fin p.tag p.req (some e)] else []

/-- `send_how` under its lock: the record, with an end line for one that goes for it. -/
def register (how : Rec) : Lists α :=
  let id := s.next + 1
  let k := s.slot id
  { s with
    next := id
    out := s.out ++ ((s.pend k).map (endOf "no answer")).getD []
    pend := update s.pend k (some { how with id := id }) }

/-- A slot is free again. -/
def free (k : Fin 64) : Lists α := { s with pend := update s.pend k none }

/-- The record of a message, with its slot. -/
def recordOf (id : ℕ) : Option (Fin 64 × Rec) :=
  (s.pendOf id).bind fun k => (s.pend k).map (Prod.mk k)

/-! ### The screen's requests -/

/-- Whether a list comes in pages. -/
def paged (schema : ℤ) : What → Bool
  | .library _ => true
  | .queue => true
  | .inside i _ => i.pagedFrom ≤ schema
  | _ => false

/-- What `mass_ui` and `list_ask` answer at once. -/
def atOnce (q : Query) (tag : ℕ) (up hasQueue : Bool) (schema : ℤ) : Option (List (UiLine α)) :=
  if q.off < 0 ∨ 1000000 < q.off then some [.fin tag q.req (some "no such place in it")]
  else if up = false then some [.fin tag q.req (some "not connected")]
  else
    match q.what with
    | .queue =>
        if hasQueue then none else some [.head tag q.req 0 0, .fin tag q.req none]
    | .inside _ item =>
        if item = false then some [.fin tag q.req (some "not a Music Assistant item")]
        else if q.off ≠ 0 ∧ paged schema q.what = false then
          some [.head tag q.req q.off q.off, .fin tag q.req none]
        else none
    | .unknown => some [.fin tag q.req (some "no such list")]
    | _ => none

/-- `up`, which stays until the session's end. -/
def isUp : Bool := s.ses = .up || s.ses = .shut

/-- `mass_ui`, with a line `ml`. -/
def massUi (q : Query) : Lists α :=
  { s with asked := s.asked + 1, ui := .asks q s.asked s.isUp }

/-- The record of a request. -/
def recOf (q : Query) (tag : ℕ) (schema : ℤ) : Rec where
  id := 0
  req := q.req
  offset := q.off
  paged := paged schema q.what
  what := q.what
  tag := tag

/-- `list_ask`. -/
def listAsk (q : Query) (tag : ℕ) (up : Bool) (schema : ℤ) (hasQueue : Bool) : Lists α :=
  match atOnce q tag up hasQueue schema with
  | some l => { s with out := s.out ++ l, ui := .idle }
  | none =>
      { s.register (recOf q tag schema) with ui := .sends q tag (s.next + 1) }

/-- Whether the connection is open: `wsopen`. -/
def isOpen : Bool := s.ses = .connected || s.ses = .up

/-- What follows a message that could not be sent: the record goes, and an end line comes. -/
def notSent (q : Query) (tag id : ℕ) : Lists α :=
  let s' := match s.recordOf id with
    | some (k, _) => s.free k
    | none => s
  { s' with out := s'.out ++ [.fin tag q.req (some "not connected")], ui := .idle }

/-! ### Music Assistant's answers -/

/-- The items of `on_list`, one line each. -/
def items (p : Rec) (cur : ℤ) : ℤ → List α → List (UiLine α)
  | _, [] => []
  | at', x :: l => .item p.tag p.req x (at' = cur) :: items p cur (at' + 1) l

/-- `on_list`. -/
def onList (p : Rec) (a : Answer α) (cur : ℤ) (last : Bool) : List (UiLine α) :=
  if p.what = .search then
    let l := a.all .search
    .head p.tag p.req 0 l.length :: (items p (-1) 0 l ++ [.fin p.tag p.req none])
  else
    let len := a.items.length
    (if p.sent = 0 then
      [.head p.tag p.req p.offset
        (if last = false ∨ (p.paged = true ∧ page ≤ len) then -1 else p.offset + len)]
    else []) ++
    items p (if p.what = .queue then cur else -1) (p.offset + p.sent) a.items ++
    (if last then [.fin p.tag p.req none] else [])

/-- What came for a request. -/
def comes (p : Rec) (l : List α) : ℕ → List α :=
  if p.list then update s.came p.tag (s.came p.tag ++ l) else s.came

/-- `on_partial`. -/
def onPartial (id : ℕ) (a : Answer α) (cur : ℤ) : Lists α :=
  match s.recordOf id with
  | none => s
  | some (k, p) =>
      let s := { s with came := s.comes p (a.all p.what) }
      if p.list = false ∨ p.what = .search then s
      else
        { s with
          pend := update s.pend k (some { p with sent := p.sent + a.items.length })
          tell := onList p a cur false }

/-- `on_result`. -/
def onResult (id : ℕ) (a : Except String (Answer α)) (cur : ℤ) : Lists α :=
  match s.recordOf id with
  | none => s
  | some (k, p) =>
      if p.list then
        match a with
        | .error e => { s.free k with tell := [.fin p.tag p.req (some e)] }
        | .ok a =>
            { s.free k with came := s.comes p (a.all p.what), tell := onList p a cur true }
      else s.free k

/-- The end lines of a session's end. -/
def lost : List (UiLine α) :=
  (List.finRange 64).flatMap fun k => ((s.pend k).map (endOf "connection lost")).getD []

/-! ### Steps -/

/-- The thread of the screen's requests. -/
def stepUi : Act α → Lists α
  | .ml q => if s.ui = .idle then s.massUi q else s
  | .asks schema hasQueue =>
      match s.ui with
      | .asks q tag up => s.listAsk q tag up schema hasQueue
      | _ => s
  | .sends ok =>
      match s.ui with
      | .sends q tag id => { s with ui := if ok ∧ s.isOpen then .idle else .failed q tag id }
      | _ => s
  | .gives =>
      match s.ui with
      | .failed q tag id => s.notSent q tag id
      | _ => s
  | _ => s

/-- The session's thread, which writes the lines of an answer before it hears another. -/
def stepSes : Act α → Lists α
  | .opens => if s.ses = .down then { s with ses := .connected } else s
  | .refused => if s.ses = .connected then { s with ses := .down } else s
  | .welcome => if s.ses = .connected then { s with ses := .up } else s
  | .shuts => if s.ses = .up ∧ s.tell = [] then { s with ses := .shut } else s
  | .ends =>
      if s.ses = .shut then
        { s with out := s.out ++ s.lost, pend := fun _ => none, ses := .down } else s
  | .piece id a cur => if s.ses = .up ∧ s.tell = [] then s.onPartial id a cur else s
  | .result id a cur => if s.ses = .up ∧ s.tell = [] then s.onResult id a cur else s
  | .tells =>
      match s.tell with
      | [] => s
      | x :: l => { s with out := s.out ++ [x], tell := l }
  | _ => s

/-- One step. -/
def step : Act α → Lists α
  | .other => s.register { id := 0, list := false }
  | .otherGone id =>
      match s.recordOf id with
      | some (k, p) => if p.list then s else s.free k
      | none => s
  | .replay =>
      { s with
        pend := fun k => (s.pend k).filter fun p => !p.list
        base := s.asked }
  | .ml q => s.stepUi (.ml q)
  | .asks schema hasQueue => s.stepUi (.asks schema hasQueue)
  | .sends ok => s.stepUi (.sends ok)
  | .gives => s.stepUi .gives
  | e => s.stepSes e

/-- A run. -/
def run (l : List (Act α)) : Lists α := l.foldl step {}

/-! ### What the screen is owed -/

/-- Somebody has a request in hand: its record is in the table, the thread of the screen's requests
is at it, or lines of it are still to be written. -/
def Awaits (r : ℕ) : Prop :=
  (∃ k, ∃ p ∈ s.pend k, p.list = true ∧ p.tag = r) ∨ s.ui.tag = some r ∨ told r s.tell ≠ []

/-- Every request of the screen that runs is told of as it should be, and has its end once nobody
has it in hand. -/
def Sound : Prop :=
  ∀ r, s.base ≤ r → r < s.asked →
    Shape (s.came r) (told r s.out) ∧ (¬ s.Awaits r → ∃ e, .fin e ∈ told r s.out)

/-- The record that has to go for the next one, if one has, is of no list that is being told of. -/
def Quiet : Prop := ∀ p ∈ s.pend (s.slot (s.next + 1)), p.list = true → told p.tag s.tell = []

/-- What has to be so for the end lines and the lines `L` to come once: a record that goes for
another one is of no list that is being told of; what could not be sent still has its record, and
nothing of it is being told; and no piece is one of a search, nor an empty one before all others. -/
def Spared : Act α → Prop
  | .asks schema hasQueue =>
      ∀ q tag up, s.ui = .asks q tag up →
        (atOnce q tag up hasQueue schema : Option (List (UiLine α))) = none → s.Quiet
  | .other => s.Quiet
  | .gives =>
      ∀ q tag id, s.ui = .failed q tag id → s.base ≤ tag →
        (s.recordOf id).isSome = true ∧ told tag s.tell = []
  | .piece id a _ =>
      ∀ x ∈ s.recordOf id, x.2.list = true → x.2.what ≠ .search ∧ (x.2.sent = 0 → a.items ≠ [])
  | _ => True

end Lists

/-! ### What lines say -/

section told

variable {α : Type*}

@[simp] theorem told_append (r : ℕ) (l m : List (UiLine α)) :
    told r (l ++ m) = told r l ++ told r m :=
  filterMap_append

@[simp] theorem told_nil (r : ℕ) : told r ([] : List (UiLine α)) = [] := rfl

theorem told_cons (r : ℕ) (x : UiLine α) (l : List (UiLine α)) :
    told r (x :: l) = told r [x] ++ told r l := told_append r [x] l

@[simp] theorem told_head (r tag : ℕ) (req off total : ℤ) :
    told r [(.head tag req off total : UiLine α)] = if tag = r then [.head] else [] := by
  simp only [told, filterMap_cons, UiLine.about, filterMap_nil]
  split <;> simp_all

@[simp] theorem told_fin (r tag : ℕ) (req : ℤ) (err : Option String) :
    told r [(.fin tag req err : UiLine α)] = if tag = r then [.fin err] else [] := by
  simp only [told, filterMap_cons, UiLine.about, filterMap_nil]
  split <;> simp_all

theorem told_endOf (r : ℕ) (e : String) (p : Rec) :
    told r (Lists.endOf e p : List (UiLine α)) = if p.list = true ∧ p.tag = r then
      [.fin (some e)] else [] := by
  unfold Lists.endOf
  split
  case isTrue h => simp [h]
  case isFalse h => simp [h]

theorem told_items (r : ℕ) (p : Rec) (cur at' : ℤ) (l : List α) :
    told r (Lists.items p cur at' l) = if p.tag = r then l.map .item else [] := by
  induction l generalizing at' with
  | nil => simp [Lists.items]
  | cons x l ih =>
    rw [Lists.items, told_cons, ih]
    have hitem : told r [(.item p.tag p.req x (at' = cur) : UiLine α)] =
        if p.tag = r then [.item x] else [] := by
      simp only [told, filterMap_cons, UiLine.about, filterMap_nil]
      split <;> simp_all
    rw [hitem]
    split <;> rfl

theorem told_onList_of_ne {r : ℕ} {p : Rec} (hr : p.tag ≠ r) (a : Answer α)
    (cur : ℤ) (last : Bool) :
    told r (Lists.onList p a cur last) = [] := by
  unfold Lists.onList
  split
  · rw [told_cons, told_append, told_items]
    simp [hr]
  · rw [told_append, told_append, told_items]
    cases last <;> split <;> simp [hr]

/-- What is told of an answer to a request that is no search. -/
theorem told_onList {p : Rec} (hp : p.what ≠ .search) (a : Answer α) (cur : ℤ) (last : Bool) :
    told p.tag (Lists.onList p a cur last) =
      (if p.sent = 0 then [.head] else []) ++ a.items.map .item ++
        (if last then [.fin none] else []) := by
  rw [Lists.onList, if_neg hp, told_append, told_append, told_items]
  cases last <;> split <;> simp

/-- What is told of the answer to a search. -/
theorem told_onList_search {p : Rec} (hp : p.what = .search) (a : Answer α)
    (cur : ℤ) (last : Bool) :
    told p.tag (Lists.onList p a cur last) =
      .head :: ((a.all .search).map .item ++ [.fin none]) := by
  rw [Lists.onList, if_pos hp, told_cons, told_append, told_items]
  simp

end told

end Hassmic.Mass
