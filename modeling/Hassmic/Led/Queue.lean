import Hassmic.Lib.Bytes
import Hassmic.Lib.Runs

/-!
# The queue of the light ring's calls

The calls of `ledctrl` go one at a time, in the order asked, in a thread of their own.  Patterns set
and unset that are queued one behind the other go in one `ledctrl`.  One that still runs at the time
limit is killed; a batch takes the calls after the one that hung with it, so its unsets are run
again, each alone.  A full queue gives up its oldest set, and without a set the new call.

## Main definitions

* `Call`, `ledqArgs` — a call, and how it is queued.
* `Ledctrl.Documented` — what the queue may expect of `ledctrl`, whose code is not here.
* `State.step` — the caller's and the thread's steps, by what becomes of the `ledctrl` that runs.
* `Kept` — what holds between the calls submitted, run and queued.

## Main results

* `enqueue_full`, `enqueue_none` — what a full queue gives up.
* `kept_run` — **the calls run keep the order they were submitted in**, apart from the unsets run
  again, each behind its batch.
-/

namespace Hassmic.Led

open List

/-- An argument, as the queue keeps it. -/
abbrev Arg := Bytes

/-- `LEDQ_MAX`. -/
abbrev ledqMax : ℕ := 64

/-- `LEDQ_ARGS`. -/
abbrev ledqArgsMax : ℕ := 4

/-- `LEDQ_BATCH`. -/
abbrev ledqBatch : ℕ := 32

/-- `-s`. -/
def optSet : Arg := [0x2d, 0x73]

/-- `-u`. -/
def optUnset : Arg := [0x2d, 0x75]

/-- `-a`. -/
def optAuto : Arg := [0x2d, 0x61]

/-- `-b`. -/
def optBright : Arg := [0x2d, 0x62]

/-- `struct call`.  The number, by which the statements tell calls apart, counts the submissions. -/
structure Call where
  no : ℕ
  arg : List Arg
  deriving DecidableEq

/-- `strcmp(c->arg[0], opt) == 0`. -/
def Call.starts (c : Call) (opt : Arg) : Bool := c.arg.head? == some opt

/-- A call that gives way in a full queue. -/
abbrev Call.isSet (c : Call) : Bool := c.starts optSet

/-- A call that is run again. -/
abbrev Call.isUnset (c : Call) : Bool := c.starts optUnset

/-- `pattern`. -/
def Call.pattern (c : Call) : Bool := c.arg.length == 2 && (c.isSet || c.isUnset)

/-- The call `ledq_args` makes of its arguments: the fields have room for 47 bytes. -/
def mkCall (no : ℕ) (args : List Arg) : Call := ⟨no, (args.take ledqArgsMax).map (·.take 47)⟩

/-! ### What `ledctrl` does -/

/-- A pattern set or unset. -/
structure Op where
  on : Bool
  pattern : Arg

/-- The options of one `ledctrl`, in order, as far as they set or unset a pattern. -/
def ops : List Arg → List Op
  | o :: p :: l =>
      if o = optSet then ⟨true, p⟩ :: ops l
      else if o = optUnset then ⟨false, p⟩ :: ops l
      else if o = optAuto ∨ o = optBright then ops l
      else ops (p :: l)
  | _ => []

/-- The options of a `ledctrl` that is given these calls. -/
def argv (b : List Call) : List Arg := b.flatMap (·.arg)

/-- The patterns that are on. -/
abbrev Ring := Arg → Bool

def Ring.apply (r : Ring) (l : List Op) : Ring :=
  l.foldl (fun r o => Function.update r o.pattern o.on) r

/-- What becomes of a `ledctrl`. -/
inductive Outcome
  | finished
  /-- It still ran at the time limit; the number tells how far it was. -/
  | killed (k : ℕ)
  /-- There was no pipe or no process for it. -/
  | missing

/-- `ledctrl`: what it did of its arguments, by what became of it. -/
abbrev Ledctrl := List Arg → Outcome → List Op

/-- **`ledctrl` as `ledq.h` describes it**: it takes repeated `-s` and `-u` and does each in order,
so one that is killed has done a first part of them. -/
structure Ledctrl.Documented (L : Ledctrl) : Prop where
  finished : ∀ a, L a .finished = ops a
  killed : ∀ a k, L a (.killed k) <+: ops a
  missing : ∀ a, L a .missing = []

/-- A `ledctrl` that did as many options as the number says. -/
def Ledctrl.counted : Ledctrl
  | a, .finished => ops a
  | a, .killed k => (ops a).take k
  | _, .missing => []

theorem documented_counted : Ledctrl.counted.Documented :=
  ⟨fun _ => rfl, fun a k => take_prefix k (ops a), fun _ => rfl⟩

/-! ### The queue -/

/-- The queue behind `ledq_args`, and the call it gave up. -/
def enqueue (q : List Call) (c : Call) : List Call × Option Call :=
  if q.length = ledqMax then
    let i := q.findIdx (·.isSet)
    if i = q.length then (q, some c) else (q.eraseIdx i ++ [c], q[i]?)
  else (q ++ [c], none)

/-- What the thread takes from the queue, and what it leaves. -/
def batch : List Call → List Call × List Call
  | [] => ([], [])
  | c :: q =>
      let rest := if c.pattern then (q.takeWhile (·.pattern)).take (ledqBatch - 1) else []
      (c :: rest, q.drop rest.length)

/-- Where the thread is: waiting, in the `ledctrl` of a batch, or with these unsets to run again. -/
inductive Worker
  | idle
  | exec (b : List Call)
  | again (l : List Call)
  deriving DecidableEq

/-- Why it is not sure that a call was done. -/
inductive Why
  /-- The queue was full. -/
  | dropped
  /-- The `ledctrl` it was given to was killed, and it is not run again. -/
  | killed
  /-- There was no `ledctrl`. -/
  | missing
  /-- It was run again, and that was killed, too. -/
  | again
  deriving DecidableEq

/-- A batch, and the calls of it that were run again. -/
structure Turn where
  calls : List Call
  again : List Call := []

/-- The queue, the thread and the ring.  The rest is kept for the statements only: the calls
submitted, the turns of the thread, latest first, and the calls that were given up. -/
structure State where
  q : List Call := []
  worker : Worker := .idle
  ring : Ring := fun _ => false
  submitted : List Call := []
  turns : List Turn := []
  lost : List (ℕ × Why) := []

/-- A call, or a step of the thread. -/
inductive Event
  | ledqArgs (args : List Arg)
  | take
  | ended (o : Outcome)

namespace State

/-- `ledq_args`. -/
def ledqArgs (s : State) (args : List Arg) : State :=
  let c := mkCall s.submitted.length args
  let e := enqueue s.q c
  { s with
    q := e.1
    submitted := s.submitted ++ [c]
    lost := s.lost ++ (e.2.map fun d => (d.no, Why.dropped)).toList }

/-- The thread takes a batch. -/
def take (s : State) : State :=
  match s.worker, s.q with
  | .idle, c :: q =>
      let t := batch (c :: q)
      { s with q := t.2, worker := .exec t.1, turns := ⟨t.1, []⟩ :: s.turns }
  | _, _ => s

/-- Where the thread is with these unsets to run again. -/
def resume : List Call → Worker
  | [] => .idle
  | c :: l => .again (c :: l)

/-- The `ledctrl` that runs has ended. -/
def ended (L : Ledctrl) (s : State) (o : Outcome) : State :=
  match s.worker with
  | .idle => s
  | .exec b =>
      let s := { s with ring := s.ring.apply (L (argv b) o) }
      match o with
      | .finished => { s with worker := .idle }
      | .missing => { s with worker := .idle, lost := s.lost ++ b.map fun c => (c.no, .missing) }
      | .killed _ =>
          -- `nc > 1`: a call that hung alone is not run again
          if 1 < b.length then
            { s with
              worker := resume (b.filter (·.isUnset))
              lost := s.lost ++ (b.filter (!·.isUnset)).map fun c => (c.no, .killed) }
          else { s with worker := .idle, lost := s.lost ++ b.map fun c => (c.no, .killed) }
  | .again [] => { s with worker := .idle }
  | .again (c :: l) =>
      let turns := match s.turns with
        | [] => []
        | t :: ts => { t with again := t.again ++ [c] } :: ts
      { s with
        ring := s.ring.apply (L (argv [c]) o)
        worker := resume l
        turns := turns
        lost := s.lost ++ match o with
          | .finished => []
          | .missing => [(c.no, .missing)]
          | .killed _ => [(c.no, .again)] }

/-- One step. -/
def step (L : Ledctrl) (s : State) : Event → State
  | .ledqArgs args => s.ledqArgs args
  | .take => s.take
  | .ended o => s.ended L o

/-- A run from the start. -/
def run (L : Ledctrl) (es : List Event) : State := es.foldl (step L) {}

/-- Nothing is queued, and nothing runs: what `ledq_wait` waits for. -/
def Drained (s : State) : Prop := s.q = [] ∧ s.worker = .idle

end State

/-! ### The queue -/

section

variable {q : List Call} {c d : Call}

/-- In a queue with room a call goes behind the others. -/
theorem enqueue_room (h : q.length < ledqMax) : enqueue q c = (q ++ [c], none) := by
  rw [enqueue, if_neg h.ne]

/-- A full queue gives up its oldest set. -/
theorem enqueue_full {a b : List Call} (h : (a ++ d :: b).length = ledqMax)
    (ha : ∀ x ∈ a, x.isSet = false) (hd : d.isSet = true) :
    enqueue (a ++ d :: b) c = (a ++ b ++ [c], some d) := by
  have hfirst : (a ++ d :: b).findIdx (·.isSet) = a.length := by
    rw [findIdx_append, findIdx_eq_length_of_false ha, findIdx_cons, hd]
    simp
  have herase : (a ++ d :: b).eraseIdx a.length = a ++ b := by
    rw [eraseIdx_append_of_length_le le_rfl, Nat.sub_self, eraseIdx_cons_zero]
  rw [enqueue, if_pos h, hfirst]
  dsimp only
  rw [if_neg (by simp), herase]
  simp

/-- A full queue without a set gives up the new call. -/
theorem enqueue_none (h : q.length = ledqMax) (hq : ∀ x ∈ q, x.isSet = false) :
    enqueue q c = (q, some c) := by
  rw [enqueue, if_pos h]
  dsimp only
  rw [if_pos (findIdx_eq_length_of_false hq)]

/-- **Everything `enqueue` may do**: no call is dropped, the oldest set is, or the new call is. -/
theorem enqueue_cases (q : List Call) (c : Call) :
    q.length ≠ ledqMax ∧ enqueue q c = (q ++ [c], none) ∨ enqueue q c = (q, some c) ∨
      ∃ a d b, q = a ++ d :: b ∧ enqueue q c = (a ++ b ++ [c], some d) := by
  by_cases hfull : q.length = ledqMax
  · by_cases hset : ∀ x ∈ q, x.isSet = false
    · exact .inr (.inl (enqueue_none hfull hset))
    · push Not at hset
      -- the oldest set is where `findIdx` stops
      obtain ⟨d, hd⟩ : ∃ d, q.find? (·.isSet) = some d := by
        rw [← Option.isSome_iff_exists, find?_isSome]
        simpa using hset
      obtain ⟨hgive, a, b, rfl, ha⟩ := find?_eq_some_iff_append.mp hd
      exact .inr (.inr ⟨a, d, b, rfl, enqueue_full hfull (by simpa using ha) hgive⟩)
  · exact .inl ⟨hfull, by rw [enqueue, if_neg hfull]⟩

/-- What is queued keeps its order. -/
theorem enqueue_sublist (q : List Call) (c : Call) : (enqueue q c).1.Sublist (q ++ [c]) := by
  rcases enqueue_cases q c with ⟨-, h⟩ | h | ⟨a, d, b, rfl, h⟩
  · rw [h]
  · rw [h]
    exact sublist_append_left q [c]
  · rw [h]
    exact ((sublist_cons_self d b).append_left a).append_right [c]

/-- A queue has no more calls than it has room for. -/
theorem length_enqueue (hq : q.length ≤ ledqMax) : (enqueue q c).1.length ≤ ledqMax := by
  rcases enqueue_cases q c with ⟨hroom, h⟩ | h | ⟨a, d, b, rfl, h⟩
  · rw [h, length_append, length_singleton]
    exact lt_of_le_of_ne hq hroom
  · rwa [h]
  · rw [h]
    simpa using hq

/-- What was queued, or is new, is queued or given up. -/
theorem mem_enqueue (hd : d ∈ q ++ [c]) : d ∈ (enqueue q c).1 ∨ (enqueue q c).2 = some d := by
  rcases enqueue_cases q c with ⟨-, h⟩ | h | ⟨a, e, b, rfl, h⟩
  · exact .inl (by rwa [h])
  · rw [h]
    rcases mem_append.mp hd with hq | hc
    · exact .inl hq
    · exact .inr (by rw [mem_singleton.mp hc])
  · rw [h]
    simp only [mem_append, mem_cons, not_mem_nil, or_false] at hd ⊢
    rcases hd with (ha | rfl | hb) | hc
    · exact .inl (.inl (.inl ha))
    · exact .inr rfl
    · exact .inl (.inl (.inr hb))
    · exact .inl (.inr hc)

/-- A batch is the first part of the queue. -/
theorem batch_append (q : List Call) : (batch q).1 ++ (batch q).2 = q := by
  cases q with
  | nil => rfl
  | cons c q =>
    have hpre : ((q.takeWhile (·.pattern)).take (ledqBatch - 1)) <+: q :=
      (List.take_prefix _ _).trans (List.takeWhile_prefix _)
    simp only [batch, cons_append]
    split
    · exact congrArg (c :: ·) (prefix_iff_eq_append.mp hpre)
    · rfl

/-- More calls than one go together only as patterns set and unset. -/
theorem batch_pattern (h : 1 < (batch q).1.length) (hc : c ∈ (batch q).1) : c.pattern = true := by
  cases q with
  | nil => simp [batch] at hc
  | cons d q =>
    simp only [batch] at h hc
    split at h
    · rename_i hd
      rw [if_pos hd] at hc
      rcases mem_cons.mp hc with rfl | hc
      · exact hd
      · exact (mem_takeWhile_imp (mem_of_mem_take hc))
    · simp at h

end

/-! ### The order of the calls -/

/-- The calls of these turns, each as often as it was taken from the queue: once. -/
def firsts : List Turn → List Call
  | [] => []
  | t :: ts => firsts ts ++ t.calls

/-- What the thread still has to do. -/
def Worker.calls : Worker → List Call
  | .idle => []
  | .exec b => b
  | .again l => l

/-- The latest turn is the one the thread is at. -/
def Worker.At : Worker → List Turn → Prop
  | .idle, _ => True
  | .exec b, ts => ∃ l, ts = ⟨b, []⟩ :: l
  | .again r, ts =>
      ∃ t l, ts = t :: l ∧ 1 < t.calls.length ∧ t.again ++ r = t.calls.filter (·.isUnset)

/-- A turn runs again only unsets of its own, in order, and only where it had more calls than
one. -/
structure Turn.Fair (t : Turn) : Prop where
  again : t.again <+: t.calls.filter (·.isUnset)
  many : t.again ≠ [] → 1 < t.calls.length
  pattern : 1 < t.calls.length → ∀ c ∈ t.calls, c.pattern = true

/-- **What holds between the calls submitted, run and queued.** -/
structure Kept (s : State) : Prop where
  no : s.submitted.map (·.no) = List.range s.submitted.length
  order : (firsts s.turns ++ s.q).Sublist s.submitted
  room : s.q.length ≤ ledqMax
  fair : ∀ t ∈ s.turns, t.Fair
  worker : s.worker.At s.turns

section

variable {s : State}

theorem firsts_take (b : List Call) (ts : List Turn) :
    firsts (⟨b, []⟩ :: ts) = firsts ts ++ b := rfl

theorem at_resume {t : Turn} {ts : List Turn} {l : List Call} (hmany : 1 < t.calls.length)
    (h : t.again ++ l = t.calls.filter (·.isUnset)) : (State.resume l).At (t :: ts) := by
  cases l with
  | nil => trivial
  | cons c l => exact ⟨t, ts, rfl, hmany, h⟩

theorem kept_ledqArgs (h : Kept s) (args : List Arg) : Kept (s.ledqArgs args) where
  no := by
    simp only [State.ledqArgs, map_append, h.no, length_append, length_singleton,
      range_succ]
    rfl
  order := by
    have hq := (enqueue_sublist s.q (mkCall s.submitted.length args)).append_left (firsts s.turns)
    have hnew := h.order.append_right [mkCall s.submitted.length args]
    rw [append_assoc] at hnew
    exact hq.trans hnew
  room := length_enqueue h.room
  fair := h.fair
  worker := h.worker

theorem kept_take (h : Kept s) : Kept s.take := by
  rw [State.take]
  split
  · rename_i c q hw hq
    refine ⟨h.no, ?_, ?_, fun t ht => ?_, ⟨s.turns, rfl⟩⟩
    · -- the batch moves from the queue to the turns
      have horder := h.order
      rw [hq] at horder
      rwa [firsts_take, append_assoc, batch_append]
    · have hroom := h.room
      rw [hq, ← batch_append (c :: q), length_append] at hroom
      exact (Nat.le_add_left _ _).trans hroom
    · rcases mem_cons.mp ht with rfl | ht
      · exact ⟨List.nil_prefix, fun hne => absurd rfl hne,
          fun hmany c hc => batch_pattern hmany hc⟩
      · exact h.fair t ht
  · exact h

theorem kept_ended (L : Ledctrl) (h : Kept s) (o : Outcome) : Kept (s.ended L o) := by
  have hw := h.worker
  rw [State.ended]
  split
  · exact h
  · rename_i b heq
    rw [heq] at hw
    obtain ⟨ts, hts⟩ := hw
    cases o with
    | finished => exact ⟨h.no, h.order, h.room, h.fair, trivial⟩
    | missing => exact ⟨h.no, h.order, h.room, h.fair, trivial⟩
    | killed k =>
      dsimp only
      split
      · rename_i hmany
        refine ⟨h.no, h.order, h.room, h.fair, ?_⟩
        show (State.resume _).At s.turns
        rw [hts]
        exact at_resume hmany rfl
      · exact ⟨h.no, h.order, h.room, h.fair, trivial⟩
  · exact ⟨h.no, h.order, h.room, h.fair, trivial⟩
  · rename_i c l heq
    rw [heq] at hw
    obtain ⟨t, ts, hts, hmany, hall⟩ := hw
    -- one more of the turn's unsets is run again
    have hmore : (t.again ++ [c]) ++ l = t.calls.filter (·.isUnset) := by
      rw [append_assoc, singleton_append, hall]
    rw [hts]
    refine ⟨h.no, ?_, h.room, fun u hu => ?_, at_resume hmany hmore⟩
    · have horder := h.order
      rwa [hts] at horder
    · rcases mem_cons.mp hu with rfl | hu
      · have ht := h.fair t (by rw [hts]; exact mem_cons_self)
        exact ⟨⟨l, hmore⟩, fun _ => hmany, ht.pattern⟩
      · exact h.fair u (by rw [hts]; exact mem_cons_of_mem t hu)

theorem kept_step (L : Ledctrl) (h : Kept s) (e : Event) : Kept (s.step L e) := by
  cases e with
  | ledqArgs args => exact kept_ledqArgs h args
  | take => exact kept_take h
  | ended o => exact kept_ended L h o

/-- **The calls run keep the order they were submitted in**, apart from unsets run again, each
behind its batch. -/
theorem kept_run (L : Ledctrl) (es : List Event) : Kept (State.run L es) := by
  have hstart : Kept {} :=
    ⟨rfl, List.Sublist.refl [], Nat.zero_le _, fun t ht => absurd ht not_mem_nil, trivial⟩
  exact Runs.invariant_all (I := Kept) (fun _ e h => kept_step L h e) hstart es

end

end Hassmic.Led
