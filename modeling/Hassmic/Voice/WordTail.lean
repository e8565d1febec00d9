import Mathlib.Algebra.Order.Ring.Int
import Mathlib.Data.List.Basic
import Mathlib.Tactic

/-!
# Where the replay after a wake word starts

The frames behind the wake word come in one by one, and each time the cut is worked out from all of
them again: in a pause of 100 ms, or, where there is none among the first 50 frames, at a dip early
on.  The caller acts on the first answer, so a later one must not be another.

The level of a frame is a number of any kind, and nothing is assumed of its order or its arithmetic;
`mean` is the level of up to three frames in a row.

## Main definitions

* `smooth` — the mean around a frame, where the frame behind it is there or none is to come.
* `Search`, `Search.turn` — what is known of the word and its pauses, and what one more frame adds.
* `firstVersion`, `wordtailCut` — the cut.

## Main results

* `search_append` — a pause that is found is found again, whatever follows.
* `wordtail_stable` — **the cut is the same with more frames, is below 50, and is there by frame
  50**.
-/

namespace Hassmic.WordTail

open List Option

/-- `WORDTAIL_FRAMES`, `WORDTAIL_EARLY` and `PAUSE`. -/
def framesMax : ℕ := 50
def early : ℕ := 15
def pause : ℕ := 10

/-- What decided. -/
inductive Why
  | pause | earlyDip | nothing
  deriving DecidableEq

section

variable {α : Type*}

/-- The frames around the frame `i`. -/
def around (db : List α) (i : ℕ) : List α := (db.drop (i - 1)).take (if i = 0 then 2 else 3)

theorem around_append {db ext : List α} {i : ℕ} (h : i + 1 < db.length) :
    around (db ++ ext) i = around db i := by
  unfold around
  rw [drop_append_of_le_length (by omega), take_append_of_le_length]
  rw [length_drop]
  split <;> omega

/-- `smooth`: none when the frame behind has not come yet, and more will. -/
def smooth (mean : List α → α) (db : List α) (i : ℕ) : Option α :=
  if db.length ≤ i + 1 ∧ db.length < framesMax then none else some (mean (around db i))

/-- Before the last frame a mean is the same with more frames. -/
theorem smooth_append {mean : List α → α} {db ext : List α} {i : ℕ} {s : α}
    (hlen : db.length < framesMax) (h : smooth mean db i = some s) :
    i + 1 < db.length ∧ smooth mean (db ++ ext) i = some s := by
  unfold smooth at h ⊢
  split at h
  · cases h
  · next hlast =>
    have hi : i + 1 < db.length := by omega
    refine ⟨hi, ?_⟩
    rw [around_append hi, if_neg (by rw [length_append]; omega)]
    exact h

/-- What is known: the loudest of the word; the quiet frames that are under way, the lowest of them
and the first that is low enough; and of the first such quiet frames where they start and the
lowest. -/
structure Search (α : Type*) where
  top : α
  run : Option ℕ := none
  runLow : α
  runAt : ℕ := 0
  overAt : Option ℕ := none
  runs : ℕ := 0
  firstStart : Option ℕ := none
  firstLow : α
  firstAt : Option ℕ := none

/-- All the frames that are remembered are among the first 50. -/
structure Search.Inside (f : Search α) : Prop where
  runAt : f.runAt < framesMax
  overAt : ∀ a ∈ f.overAt, a < framesMax
  firstAt : ∀ a ∈ f.firstAt, a < framesMax

section

variable [NatCast α] [Add α] [Sub α] [LT α] [DecidableLT α] (keyword : α)

/-- `first_version`, from the frame `i` on, with the lowest so far. -/
def firstVersion : ℕ → α → ℕ → List α → ℕ
  | _, _, lowAt, [] => lowAt
  | i, low, lowAt, v :: l =>
      if v < keyword - ((12 : ℕ) : α) then i
      else if low + ((3 : ℕ) : α) < v then lowAt
      else if v < low then firstVersion (i + 1) v i l
      else firstVersion (i + 1) low lowAt l

/-- The lowest of the first quiet frames, where these start early on. -/
def dip (f : Search α) : ℕ := if f.firstStart.getD 0 < early then f.firstAt.getD 0 else 0

/-- Without a pause: the lowest of a dip early on, and never later than the first version. -/
def fallback (db : List α) (f : Search α) : ℕ × Why :=
  let old := firstVersion keyword 0 ((1000000000 : ℕ) : α) 0 (db.take 12)
  let cut := if old < dip f then old else dip f
  (cut, if cut ≠ 0 then .earlyDip else .nothing)

theorem fallback_lt {keyword : α} {db : List α} {f : Search α} (h : f.Inside) :
    (fallback keyword db f).1 < framesMax := by
  have hdip : dip f < framesMax := by
    unfold dip
    split
    · cases hfirst : f.firstAt with
      | none => exact Nat.succ_pos _
      | some a => exact h.firstAt a hfirst
    · exact Nat.succ_pos _
  unfold fallback
  dsimp only
  split
  · next hless => exact hless.trans hdip
  · exact hdip

end

variable [NatCast α] [Sub α] [LT α] [LE α] [DecidableLT α] [DecidableLE α]
  (mean : List α → α) (keyword : α) (pauseOk : Bool)

namespace Search

variable (f : Search α) (i : ℕ) (s : α)

/-- The word, or the next one. -/
def loud : Search α := { f with top := if f.top < s then s else f.top, run := none }

/-- The first quiet frame of some. -/
def start : Search α :=
  if f.run = none then
    { f with run := some i, runLow := s, runAt := i, overAt := none, runs := f.runs + 1,
             firstStart := if f.runs = 0 then some i else f.firstStart }
  else f

/-- The lowest of the quiet frames. -/
def lowest : Search α := if s < f.runLow then { f with runLow := s, runAt := i } else f

/-- The lowest of the first quiet frames. -/
def firstLowest : Search α :=
  if f.runs = 1 ∧ (f.firstAt = none ∨ s < f.firstLow) then
    { f with firstLow := s, firstAt := some i } else f

/-- The first that is low enough. -/
def lowEnough : Search α :=
  if f.overAt = none ∧ s ≤ f.top - ((12 : ℕ) : α) then { f with overAt := some i } else f

/-- A quiet frame. -/
def quiet : Search α := ((((f.start i s).lowest i s).firstLowest i s).lowEnough i s)

/-- One turn of the loop: the frames go on, or there is a pause. -/
def turn : Search α ⊕ ℕ :=
  if f.top - ((9 : ℕ) : α) < s then .inl (f.loud s)
  else
    let f := f.quiet i s
    if pauseOk ∧ pause ≤ i - f.run.getD 0 + 1 then .inr (f.overAt.getD f.runAt) else .inl f

end Search

/-- How the loop ends. -/
inductive Found (α : Type*)
  | wait
  | cut (c : ℕ)
  | noPause (f : Search α)

/-- The loop, from the frame `i` on. -/
def search (db : List α) : ℕ → ℕ → Search α → Found α
  | 0, _, f => .noPause f
  | todo + 1, i, f =>
      match smooth mean db i with
      | none => .wait
      | some s =>
          match f.turn pauseOk i s with
          | .inl f => search db todo (i + 1) f
          | .inr c => .cut c

/-! ### More frames -/

variable {mean keyword pauseOk} {db ext : List α} {i : ℕ} {f : Search α}

/-- **A pause that is found is found again**, whatever follows. -/
theorem search_append (hlen : db.length < framesMax) (more : ℕ) : ∀ {todo i : ℕ} {f : Search α},
    search mean pauseOk db todo i f = .cut c → search mean pauseOk (db ++ ext)
      (todo + more) i f = .cut c := by
  intro todo
  induction todo with
  | zero =>
    intro i f h
    cases h
  | succ todo ih =>
    intro i f h
    rw [Nat.add_right_comm]
    unfold search at h ⊢
    cases hs : smooth mean db i with
    | none =>
      rw [hs] at h
      cases h
    | some s =>
      have hsame : smooth mean (db ++ ext) i = some s := (smooth_append hlen hs).2
      rw [hs] at h
      rw [hsame]
      dsimp only at h ⊢
      cases hturn : f.turn pauseOk i s with
      | inl f' =>
        rw [hturn] at h
        exact ih h
      | inr c' =>
        rw [hturn] at h
        exact h

/-! ### The frames of a search -/

namespace Search

variable {s : α}

theorem Inside.quiet (h : f.Inside) (hi : i < framesMax) : (f.quiet i s).Inside := by
  have hsome : ∀ a ∈ some i, a < framesMax := by
    intro a ha
    rw [mem_some_iff] at ha
    omega
  have hstart : (f.start i s).Inside := by
    unfold start
    split
    · exact ⟨hi, fun a ha => absurd ha (not_mem_none a), h.firstAt⟩
    · exact h
  have hlowest : ((f.start i s).lowest i s).Inside := by
    unfold lowest
    split
    · exact ⟨hi, hstart.overAt, hstart.firstAt⟩
    · exact hstart
  have hfirst : (((f.start i s).lowest i s).firstLowest i s).Inside := by
    unfold firstLowest
    split
    · exact ⟨hlowest.runAt, hlowest.overAt, hsome⟩
    · exact hlowest
  unfold Search.quiet lowEnough
  split
  · exact ⟨hfirst.runAt, hsome, hfirst.firstAt⟩
  · exact hfirst

/-- A turn remembers its own frame at most, and cuts at one that is remembered. -/
theorem Inside.turn (h : f.Inside) (hi : i < framesMax) :
    (∀ f', f.turn pauseOk i s = .inl f' → f'.Inside) ∧ ∀ c, f.turn pauseOk i s = .inr c →
    c < framesMax := by
  have hquiet := h.quiet (s := s) hi
  unfold Search.turn
  split
  · refine ⟨fun f' hf => ?_, fun c hc => (nomatch hc)⟩
    cases hf
    exact ⟨h.runAt, h.overAt, h.firstAt⟩
  · dsimp only
    split
    · refine ⟨fun f' hf => (nomatch hf), fun c hc => ?_⟩
      cases hc
      cases hover : (f.quiet i s).overAt with
      | none => exact hquiet.runAt
      | some a => exact hquiet.overAt a hover
    · refine ⟨fun f' hf => ?_, fun c hc => (nomatch hc)⟩
      cases hf
      exact hquiet

end Search

/-- The whole loop does so. -/
theorem search_inside : ∀ {todo i : ℕ} {f : Search α}, f.Inside → i + todo ≤ framesMax →
    (∀ f', search mean pauseOk db todo i f = .noPause f' → f'.Inside) ∧
      ∀ c, search mean pauseOk db todo i f = .cut c → c < framesMax := by
  intro todo
  induction todo with
  | zero =>
    intro i f h _
    refine ⟨fun f' hf => ?_, fun c hc => (nomatch hc)⟩
    cases hf
    exact h
  | succ todo ih =>
    intro i f h hi
    unfold search
    cases smooth mean db i with
    | none => exact ⟨fun f' hf => (nomatch hf), fun c hc => (nomatch hc)⟩
    | some s =>
      have hturns : (∀ f', f.turn pauseOk i s = .inl f' → f'.Inside) ∧
          ∀ c, f.turn pauseOk i s = .inr c → c < framesMax := h.turn (by omega)
      dsimp only
      cases hturn : f.turn pauseOk i s with
      | inl f' => exact ih (hturns.1 f' hturn) (by omega)
      | inr c' =>
        refine ⟨fun f' hf => (nomatch hf), fun c hc => ?_⟩
        cases hc
        exact hturns.2 c' hturn

/-- With all 50 frames there is nothing to wait for. -/
theorem search_ne_wait (hlen : framesMax ≤ db.length) : ∀ {todo i : ℕ} {f : Search α},
    search mean pauseOk db todo i f ≠ .wait := by
  intro todo
  induction todo with
  | zero =>
    intro i f h
    cases h
  | succ todo ih =>
    intro i f
    unfold search smooth
    rw [if_neg (by omega)]
    dsimp only
    cases f.turn pauseOk i (mean (around db i)) with
    | inl f' => exact ih
    | inr c' =>
      intro h
      cases h

/-! ### The cut -/

variable [Add α] (mean keyword pauseOk)

/-- The search of `wordtail_cut`, from its start. -/
def found (db : List α) : Found α :=
  search mean pauseOk db db.length 0
    { top := keyword, runLow := ((0 : ℕ) : α), firstLow := ((0 : ℕ) : α) }

/-- `wordtail_cut`: none while more frames are needed. -/
def wordtailCut (db : List α) : Option (ℕ × Why) :=
  let db := db.take framesMax
  match found mean keyword pauseOk db with
  | .wait => none
  | .cut c => some (c, .pause)
  | .noPause f => if db.length < framesMax then none else some (fallback keyword db f)

variable {mean keyword pauseOk}

/-- A cut from fewer than 50 frames is a pause. -/
theorem found_of_cut {r : ℕ × Why} (hlen : db.length < framesMax)
    (h : wordtailCut mean keyword pauseOk db = some r) :
    found mean keyword pauseOk db = .cut r.1 ∧ r.2 = .pause := by
  unfold wordtailCut at h
  rw [take_of_length_le hlen.le] at h
  dsimp only at h
  cases hfound : found mean keyword pauseOk db with
  | wait =>
    rw [hfound] at h
    cases h
  | cut c =>
    rw [hfound] at h
    cases h
    exact ⟨rfl, rfl⟩
  | noPause f =>
    rw [hfound] at h
    dsimp only at h
    rw [if_pos hlen] at h
    cases h

theorem wordtailCut_append {r : ℕ × Why} (h : wordtailCut mean keyword pauseOk db = some r) :
    wordtailCut mean keyword pauseOk (db ++ ext) = some r := by
  by_cases hlen : db.length < framesMax
  · obtain ⟨hcut, hwhy⟩ := found_of_cut hlen h
    have htake : (db ++ ext).take framesMax = db ++ ext.take (framesMax - db.length) := by
      rw [take_append, take_of_length_le hlen.le]
    have hmore : found mean keyword pauseOk
        (db ++ ext.take (framesMax - db.length)) = .cut r.1 := by
      unfold found
      rw [length_append]
      exact search_append hlen _ hcut
    unfold wordtailCut
    rw [htake]
    dsimp only
    rw [hmore]
    dsimp only
    rw [← hwhy]
  · have htake : (db ++ ext).take framesMax = db.take framesMax :=
      take_append_of_le_length (by omega)
    unfold wordtailCut at h ⊢
    rw [htake]
    exact h

theorem wordtailCut_lt {r : ℕ × Why} (h : wordtailCut mean keyword pauseOk db = some r) :
    r.1 < framesMax := by
  unfold wordtailCut at h
  dsimp only at h
  have hstart :
      ({ top := keyword, runLow := ((0 : ℕ) : α), firstLow := ((0 : ℕ) : α) } : Search α).Inside :=
    ⟨Nat.succ_pos _, fun a ha => absurd ha (not_mem_none a), fun a ha => absurd ha (not_mem_none a)⟩
  have hinside : (∀ f, found mean keyword pauseOk (db.take framesMax) = .noPause f → f.Inside) ∧
      ∀ c, found mean keyword pauseOk (db.take framesMax) = .cut c → c < framesMax :=
    search_inside hstart (by rw [length_take]; omega)
  cases hfound : found mean keyword pauseOk (db.take framesMax) with
  | wait =>
    rw [hfound] at h
    cases h
  | cut c =>
    rw [hfound] at h
    cases h
    exact hinside.2 c hfound
  | noPause f =>
    rw [hfound] at h
    dsimp only at h
    split at h
    · cases h
    · cases h
      exact fallback_lt (hinside.1 f hfound)

theorem wordtailCut_isSome (hlen : framesMax ≤ db.length) :
    ∃ r, wordtailCut mean keyword pauseOk db = some r := by
  have htake : (db.take framesMax).length = framesMax := length_take_of_le hlen
  unfold wordtailCut
  dsimp only
  cases hfound : found mean keyword pauseOk (db.take framesMax) with
  | wait => exact absurd hfound (search_ne_wait htake.ge)
  | cut c => exact ⟨_, rfl⟩
  | noPause f =>
    dsimp only
    rw [if_neg (by omega)]
    exact ⟨_, rfl⟩

end

/-- **The cut is stable**: with more frames it is the same, it is below 50, and by frame 50 there is
one. -/
theorem wordtail_stable {α : Type*} [NatCast α] [Add α] [Sub α] [LT α] [LE α]
    [DecidableLT α] [DecidableLE α] (mean : List α → α) (keyword : α) (pauseOk : Bool) :
    (∀ (db ext : List α) (r : ℕ × Why), wordtailCut mean keyword pauseOk db = some r →
      wordtailCut mean keyword pauseOk (db ++ ext) = some r) ∧
    (∀ (db : List α) (r : ℕ × Why), wordtailCut mean keyword pauseOk db = some r → r.1 < 50) ∧
    ∀ db : List α, 50 ≤ db.length → ∃ r, wordtailCut mean keyword pauseOk db = some r :=
  ⟨fun _ _ _ h => wordtailCut_append h, fun _ _ h => wordtailCut_lt h, fun _ h =>
    wordtailCut_isSome h⟩

/-- Frames 10 dB below the keyword: a pause with the eleventh, that stays where it is. -/
theorem wordtail_stable_quiet :
    wordtailCut (α := ℤ) (fun l => l.sum / l.length)
      (-10) true (List.replicate 11 (-20) ++ [-5, -5]) =
      some (0, .pause) :=
  (wordtail_stable (α := ℤ) (fun l => l.sum / l.length) (-10) true).1 (List.replicate 11 (-20))
    [-5, -5] (0, .pause)
    (by decide)

end Hassmic.WordTail
