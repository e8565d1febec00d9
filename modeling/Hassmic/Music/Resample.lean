import Hassmic.Mww.Quant

/-!
# Music at another rate

Frames come in chunks and go out at a rate that is a little different, each by a cubic through four
of those that came.  The last two or three of a chunk wait for the next one, with the place between
them that the next frame out has; the places are exact here.

## Main definitions

* `rsRun` — one chunk, where no access leaves the frames or the room for those that wait.
* `rsRuns` — one chunk after the other.
* `rowLoop` — the frames out of one row of frames.

## Main results

* `rowLoop_append` — a longer row gives the same frames first.
* `rowLoop_drop` — frames that are no longer needed can be left out.
* `rsRun_append` — two chunks are as good as one.
* `resampler_sound` — **no access leaves its array, the frames out fit, and do not depend on the
  chunks**.
-/

namespace Hassmic.Music

open List Option

/-- Two samples of 16 bits. -/
structure Frame where
  left : Int16
  right : Int16
  deriving Inhabited

/-- `struct resampler`: the frames that wait, and the place of the next frame out among them. -/
structure Resampler where
  hist : List Frame
  pos : ℚ

/-- `rs_reset`. -/
def rsReset : Resampler := ⟨[], 0⟩

/-- `RS_OUT_MAX`. -/
def rsOutMax (frames : ℕ) : ℕ := frames + frames / 48 + 4

/-- `rs_lag`. -/
def rsLag (r : Resampler) : ℚ := if r.hist = [] then 0 else r.pos - r.hist.length

/-! ### One chunk -/

/-- `.98` and `1.02` in double precision. -/
def stepLo : ℚ := 8827055269646172 / 2 ^ 53
def stepHi : ℚ := 4593671619917906 / 2 ^ 52

/-- The frames in for one out. -/
structure Step where
  val : ℚ
  lo_le : stepLo ≤ val
  le_hi : val ≤ stepHi

/-- A step that is held. -/
def heldStep (step : ℚ) : Step where
  val := if step < stepLo then stepLo else if stepHi < step then stepHi else step
  lo_le := by
    have hle : stepLo ≤ stepHi := by unfold stepLo stepHi; norm_num
    split_ifs with hlo hhi
    · exact le_rfl
    · exact hle
    · exact not_lt.mp hlo
  le_hi := by
    have hle : stepLo ≤ stepHi := by unfold stepLo stepHi; norm_num
    split_ifs with hlo hhi
    · exact hle
    · exact le_rfl
    · exact not_lt.mp hhi

/-- A place as an integer, towards zero. -/
def long (pos : ℚ) : ℤ := if 0 ≤ pos then ⌊pos⌋ else ⌈pos⌉

/-- `AT`: none outside of both arrays. -/
def tapAt (hist chunk : List Frame) (i : ℤ) : Option Frame :=
  if i < 0 then none else if i < hist.length then hist[i.toNat]?
    else chunk[(i - hist.length).toNat]?

/-- Single precision. -/
def single (x : ℚ) : ℚ := Double.roundEven (x / 2 ^ Mww.Single.place x) * 2 ^ Mww.Single.place x

section

variable (fl : ℚ → ℚ)

/-- A sample of the cubic through four, at the part `f` of the way from the second to the third;
every operation is rounded by `fl`. -/
def cubic (f : ℚ) (s0 s1 s2 s3 : Int16) : Int16 :=
  let x0 : ℚ := s0.toInt
  let x1 : ℚ := s1.toInt
  let x2 : ℚ := s2.toInt
  let x3 : ℚ := s3.toInt
  let a := fl (fl (fl (3 * fl (x1 - x2)) + x3) - x0)
  let b := fl (fl (fl (fl (fl (2 * x0) - fl (5 * x1)) + fl (4 * x2)) - x3) + fl (f * a))
  let c := fl (fl (x2 - x0) + fl (f * b))
  let y := fl (x1 + fl (fl (1 / 2 * f) * c))
  if 32767 < y then 32767 else if y < -32768 then -32768 else Int16.ofInt (Double.roundEven y)

/-- A frame of the cubic. -/
def blend (f : ℚ) (x0 x1 x2 x3 : Frame) : Frame :=
  ⟨cubic fl f x0.left x1.left x2.left x3.left, cubic fl f x0.right x1.right x2.right x3.right⟩

/-- The frame out at a place. -/
def frameOut (hist chunk : List Frame) (pos : ℚ) : Option Frame := do
  let k := long pos
  let x0 ← tapAt hist chunk (k - 1)
  let x1 ← tapAt hist chunk k
  let x2 ← tapAt hist chunk (k + 1)
  let x3 ← tapAt hist chunk (k + 2)
  some (blend fl (fl (pos - k)) x0 x1 x2 x3)

/-- What is left of a row from a place on, in half frames; a step is more than one of these. -/
def halves (n : ℤ) (pos : ℚ) : ℕ := ⌊2 * (n - pos)⌋.toNat

theorem halves_lt {n : ℤ} {pos : ℚ} {step : Step} (h : long pos + 2 < n) :
    halves n (pos + step.val) < halves n pos := by
  have hlo := step.lo_le
  have hhalf : (1 / 2 : ℚ) ≤ stepLo := by unfold stepLo; norm_num
  have hpos : pos < n - 1 := by
    unfold long at h
    split at h
    · have hfloor := Int.lt_floor_add_one pos
      have hn : (⌊pos⌋ : ℚ) + 3 ≤ n := by exact_mod_cast (show ⌊pos⌋ + 3 ≤ n by omega)
      linarith
    · next hneg =>
      have hceil := Int.le_ceil pos
      have hn : (⌈pos⌉ : ℚ) + 3 ≤ n := by exact_mod_cast (show ⌈pos⌉ + 3 ≤ n by omega)
      linarith
  unfold halves
  have hone : 1 ≤ ⌊2 * (n - pos)⌋ := Int.le_floor.mpr (by push_cast; linarith)
  have hless : ⌊2 * (n - (pos + step.val))⌋ ≤ ⌊2 * (n - pos)⌋ - 1 := by
    rw [← Int.floor_sub_one]
    exact Int.floor_le_floor (by linarith)
  omega

/-- The loop of `rs_run`: the place it stops at, and the frames out. -/
def rsLoop (hist chunk : List Frame) (step : Step) (pos : ℚ) : Option (ℚ × List Frame) :=
  if _h : long pos + 2 < (hist.length + chunk.length : ℕ) then
    (frameOut fl hist chunk pos).bind fun y =>
      (rsLoop hist chunk step (pos + step.val)).map fun r => (r.1, y :: r.2)
  else some (pos, [])
termination_by halves (hist.length + chunk.length : ℕ) pos
decreasing_by exact halves_lt _h

/-- The frames that are kept for the next chunk, from the one before the place on: there is room for
three. -/
def kept (hist chunk : List Frame) (pos : ℚ) : Option (List Frame) :=
  let k := long pos
  let keep : ℤ := (hist.length + chunk.length : ℕ) - (k - 1)
  if keep < 0 ∨ 3 < keep then none else (List.range keep.toNat).mapM fun i : ℕ =>
    tapAt hist chunk (k - 1 + i)

/-- The first frame of all is its own neighbour. -/
def started (r : Resampler) (chunk : List Frame) : Resampler :=
  if r.hist = [] then ⟨chunk.take 1, 1⟩ else r

/-- `rs_run`. -/
def rsRun (r : Resampler) (chunk : List Frame) (step : ℚ) : Option (Resampler × List Frame) :=
  if chunk = [] then some (r, [])
  else
    let s := started r chunk
    (rsLoop fl s.hist chunk (heldStep step) s.pos).bind fun p =>
      (kept s.hist chunk p.1).map fun hist => (⟨hist, p.1 - (long p.1 - 1)⟩, p.2)

/-- One chunk after the other, each with a step of its own. -/
def rsRuns (r : Resampler) : List (List Frame × ℚ) → Option (Resampler × List (List Frame))
  | [] => some (r, [])
  | c :: cs => (rsRun fl r c.1 c.2).bind fun a => (rsRuns a.1 cs).map fun b => (b.1, a.2 :: b.2)

/-! ### One row of frames -/

/-- A frame of a row. -/
def rowAt (row : List Frame) (i : ℤ) : Frame := row.getD i.toNat default

/-- The loop over a row: the place it stops at, and the frames out. -/
def rowLoop (row : List Frame) (step : Step) (pos : ℚ) : ℚ × List Frame :=
  if _h : long pos + 2 < row.length then
    let k := long pos
    let r := rowLoop row step (pos + step.val)
    (r.1, blend fl (fl (pos - k)) (rowAt row (k - 1)) (rowAt row k) (rowAt row (k + 1))
      (rowAt row (k + 2)) :: r.2)
  else (pos, [])
termination_by halves row.length pos
decreasing_by exact halves_lt _h

/-- The frames out of a row, and the frames and the place that are kept. -/
def rowRun (row : List Frame) (step : Step) (pos : ℚ) : Resampler × List Frame :=
  let p := rowLoop fl row step pos
  (⟨row.drop (long p.1 - 1).toNat, p.1 - (long p.1 - 1)⟩, p.2)

variable {hist chunk : List Frame} (row ext : List Frame) (step : Step) {pos : ℚ}

theorem long_eq (h : 0 ≤ pos) : long pos = ⌊pos⌋ := if_pos h

theorem one_le_long (h : 1 ≤ pos) : 1 ≤ long pos := by
  rw [long_eq (by linarith)]
  exact Int.le_floor.mpr (by exact_mod_cast h)

theorem one_le_next (h : 1 ≤ pos) : 1 ≤ pos + step.val := by
  have hlo := step.lo_le
  have hpos : (0 : ℚ) ≤ stepLo := by unfold stepLo; norm_num
  linarith

/-- A frame is in one of the two arrays, or in neither. -/
theorem tapAt_eq {i : ℤ} (hi : 0 ≤ i) (hlt : i < (hist ++ chunk).length) :
    tapAt hist chunk i = some (rowAt (hist ++ chunk) i) := by
  have hnat : i.toNat < (hist ++ chunk).length := by omega
  have hsome : (hist ++ chunk)[i.toNat]? = some (rowAt (hist ++ chunk) i) := by
    rw [rowAt, getD_eq_getElem _ _ hnat]
    exact getElem?_eq_getElem hnat
  unfold tapAt
  rw [if_neg (by omega), ← hsome]
  split
  · rw [getElem?_append_left (by omega)]
  · rw [getElem?_append_right (by omega)]
    congr 1
    omega

/-- From the place 1 on no access leaves the arrays. -/
theorem rsLoop_eq (h : 1 ≤ pos) :
    rsLoop fl hist chunk step pos = some (rowLoop fl (hist ++ chunk) step pos) := by
  fun_induction rowLoop fl (hist ++ chunk) step pos with
  | case1 pos hgo k r ih =>
    have hk := one_le_long h
    have hend : long pos + 2 < ((hist ++ chunk).length : ℤ) := hgo
    have hgo' : long pos + 2 < (hist.length + chunk.length : ℕ) := by rwa [length_append] at hgo
    have hout : frameOut fl hist chunk pos =
        some (blend fl (fl (pos - k)) (rowAt (hist ++ chunk) (k - 1))
        (rowAt (hist ++ chunk) k) (rowAt (hist ++ chunk) (k + 1))
        (rowAt (hist ++ chunk) (k + 2))) := by
      unfold frameOut
      dsimp only
      rw [tapAt_eq (by omega) (by omega), tapAt_eq (by omega) (by omega),
        tapAt_eq (by omega) (by omega), tapAt_eq (by omega) (by omega)]
      rfl
    rw [rsLoop, dif_pos hgo', hout, bind_some, ih (one_le_next step h), map_some]
  | case2 pos hgo =>
    rw [rsLoop, dif_neg]
    rw [length_append] at hgo
    exact hgo

/-- **A longer row gives the same frames first**, and goes on from the place where the shorter one
stops. -/
theorem rowLoop_append (h : 1 ≤ pos) : rowLoop fl (row ++ ext) step pos =
    ((rowLoop fl (row ++ ext) step (rowLoop fl row step pos).1).1,
      (rowLoop fl row step pos).2 ++
        (rowLoop fl (row ++ ext) step (rowLoop fl row step pos).1).2) := by
  fun_induction rowLoop fl row step pos with
  | case1 pos hgo k r ih =>
    have hk := one_le_long h
    have hsame : ∀ i : ℤ, 0 ≤ i → i < row.length → rowAt (row ++ ext) i = rowAt row i := by
      intro i hi hlt
      exact getD_append _ _ _ _ (by omega)
    have hgo' : long pos + 2 < ((row ++ ext).length : ℤ) := by
      rw [length_append]
      push_cast
      omega
    rw [rowLoop, dif_pos hgo']
    dsimp only
    rw [ih (one_le_next step h), hsame _ (by omega) (by omega), hsame _ (by omega) (by omega),
      hsame _ (by omega) (by omega), hsame _ (by omega) (by omega)]
    rfl
  | case2 pos hgo => rfl

theorem long_sub {d : ℕ} (h : (d : ℚ) + 1 ≤ pos) : long (pos - d) = long pos - d := by
  have hd : (0 : ℚ) ≤ d := Nat.cast_nonneg d
  rw [long_eq (by linarith), long_eq (by linarith), Int.floor_sub_natCast]

/-- **Frames that are no longer needed can be left out.** -/
theorem rowLoop_drop {d : ℕ} (h : (d : ℚ) + 1 ≤ pos) : rowLoop fl (row.drop d) step (pos - d) =
    ((rowLoop fl row step pos).1 - d, (rowLoop fl row step pos).2) := by
  have hd : (0 : ℚ) ≤ d := Nat.cast_nonneg d
  have hat : ∀ i : ℤ, d ≤ i → rowAt (row.drop d) (i - d) = rowAt row i := by
    intro i hi
    unfold rowAt
    rw [getD_eq_getElem?_getD, getD_eq_getElem?_getD, getElem?_drop]
    congr 2
    omega
  fun_induction rowLoop fl row step pos with
  | case1 pos hgo k r ih =>
    have hlong := long_sub h
    have hk : (d : ℤ) + 1 ≤ long pos := by
      rw [long_eq (by linarith)]
      exact Int.le_floor.mpr (by exact_mod_cast h)
    have hgo' : long (pos - d) + 2 < ((row.drop d).length : ℤ) := by
      rw [hlong, length_drop]
      omega
    have hstep := step.lo_le
    have hlo : (0 : ℚ) ≤ stepLo := by unfold stepLo; norm_num
    have hnext : pos - d + step.val = pos + step.val - d := by ring
    have hpart : pos - d - (long pos - d : ℤ) = pos - k := by
      push_cast
      ring
    rw [rowLoop, dif_pos hgo']
    dsimp only
    rw [hnext, ih (by linarith), hlong, hpart, show long pos - d - 1 = k - 1 - d by ring,
      show long pos - d + 1 = k + 1 - d by ring, show long pos - d + 2 = k + 2 - d by ring,
      show long pos - d = k - d from rfl, hat _ (by omega), hat _ (by omega), hat _ (by omega),
      hat _ (by omega)]
  | case2 pos hgo =>
    have hlong := long_sub h
    have hk : (d : ℤ) + 1 ≤ long pos := by
      rw [long_eq (by linarith)]
      exact Int.le_floor.mpr (by exact_mod_cast h)
    rw [rowLoop, dif_neg (by rw [hlong, length_drop]; omega)]

theorem le_rowLoop (pos : ℚ) : pos ≤ (rowLoop fl row step pos).1 := by
  fun_induction rowLoop fl row step pos with
  | case1 pos hgo k r ih =>
    have hlo := step.lo_le
    have hpos : (0 : ℚ) ≤ stepLo := by unfold stepLo; norm_num
    exact le_trans (by linarith) ih
  | case2 pos hgo => exact le_rfl

/-- Where the loop stops, and how many frames it made. -/
theorem rowLoop_stop (h : 1 ≤ pos) (hrow : pos < row.length) :
    1 ≤ (rowLoop fl row step pos).1 ∧ (rowLoop fl row step pos).1 < row.length ∧
      (row.length : ℤ) ≤ long (rowLoop fl row step pos).1 + 2 ∧
      pos + (rowLoop fl row step pos).2.length * step.val = (rowLoop fl row step pos).1 ∧
      ((rowLoop fl row step pos).2 ≠ [] →
        (rowLoop fl row step pos).1 < row.length - 2 + step.val) := by
  fun_induction rowLoop fl row step pos with
  | case1 pos hgo k r ih =>
    have hfloor := Int.lt_floor_add_one pos
    have hbefore : pos < row.length - 2 := by
      rw [long_eq (by linarith)] at hgo
      have hn : (⌊pos⌋ : ℚ) + 3 ≤ row.length := by
        exact_mod_cast (show ⌊pos⌋ + 3 ≤ (row.length : ℤ) by omega)
      linarith
    have hhi := step.le_hi
    have hlimit : stepHi < 2 := by unfold stepHi; norm_num
    obtain ⟨hone, hlt, hend, hcount, hlast⟩ := ih (one_le_next step h) (by linarith)
    refine ⟨hone, hlt, hend, ?_, fun _ => ?_⟩
    · rw [← hcount, length_cons]
      push_cast
      ring
    · by_cases hnil : r.2 = []
      · have hsame := hcount
        change pos + step.val + (r.2.length : ℚ) * step.val = r.1 at hsame
        rw [hnil, length_nil] at hsame
        push_cast at hsame
        show r.1 < _
        linarith
      · exact hlast hnil
  | case2 pos hgo =>
    refine ⟨h, hrow, not_lt.mp hgo, ?_, fun hne => absurd rfl hne⟩
    rw [length_nil]
    push_cast
    ring

/-! ### What is kept -/

/-- The place and the frames between two chunks. -/
structure Placed (r : Resampler) : Prop where
  one_le : 1 ≤ r.pos
  lt_two : r.pos < 2
  two_le : 2 ≤ r.hist.length
  le_three : r.hist.length ≤ 3

theorem mapM_eq_some {α β : Type*} {f : α → Option β} {g : α → β} {l : List α}
    (h : ∀ a ∈ l, f a = some (g a)) :
    l.mapM f = some (l.map g) := by
  induction l with
  | nil => rfl
  | cons a l ih =>
    rw [mapM_cons, h a mem_cons_self, ih fun b hb => h b (mem_cons_of_mem a hb)]
    rfl

/-- There is room for what is kept. -/
theorem kept_eq (h : 1 ≤ pos) (hrow : pos < (hist ++ chunk).length)
    (hend : ((hist ++ chunk).length : ℤ) ≤ long pos + 2) :
    kept hist chunk pos = some ((hist ++ chunk).drop (long pos - 1).toNat) := by
  have hk := one_le_long h
  have hlt : long pos < (hist ++ chunk).length := by
    rw [long_eq (by linarith)]
    exact_mod_cast (Int.floor_le pos).trans_lt hrow
  have hlen : (hist ++ chunk).length = hist.length + chunk.length := length_append
  unfold kept
  dsimp only
  rw [← hlen, if_neg (by omega), mapM_eq_some fun i hi => tapAt_eq (by omega) (by
    have := mem_range.mp hi
    omega)]
  refine congrArg some (ext_getElem ?_ fun i hi hi' => ?_)
  · rw [length_map, length_range, length_drop]
    omega
  · rw [getElem_map, getElem_range, getElem_drop, rowAt, getD_eq_getElem _ _ (by
      rw [length_map, length_range] at hi
      omega)]
    congr 1
    omega

/-- What is kept between two chunks. -/
theorem rowRun_placed (h : 1 ≤ pos) (hrow : pos < row.length) :
    Placed (rowRun fl row step pos).1 := by
  obtain ⟨hone, hlt, hend, -, -⟩ := rowLoop_stop fl row step h hrow
  have hk := one_le_long hone
  have hfloor := Int.floor_le (rowLoop fl row step pos).1
  have hnext := Int.lt_floor_add_one (rowLoop fl row step pos).1
  have hlong : long (rowLoop fl row step pos).1 < row.length := by
    rw [long_eq (by linarith)]
    exact_mod_cast hfloor.trans_lt hlt
  rw [← long_eq (by linarith)] at hfloor hnext
  unfold rowRun
  refine ⟨?_, ?_, ?_, ?_⟩ <;> dsimp only
  · linarith
  · linarith
  · rw [length_drop]
    omega
  · rw [length_drop]
    omega

/-- **A row that goes on** can be taken from what is kept of its first part. -/
theorem rowRun_append (h : 1 ≤ pos) (hrow : pos < row.length) : rowRun fl (row ++ ext) step pos =
    ((rowRun fl ((rowRun fl row step pos).1.hist ++ ext) step (rowRun fl row step pos).1.pos).1,
      (rowRun fl row step pos).2 ++
        (rowRun fl ((rowRun fl row step pos).1.hist ++ ext) step
          (rowRun fl row step pos).1.pos).2) := by
  obtain ⟨hone, hlt, -, -, -⟩ := rowLoop_stop fl row step h hrow
  have happend := rowLoop_append fl row ext step h
  have hk := one_le_long hone
  have hfloor := Int.floor_le (rowLoop fl row step pos).1
  rw [← long_eq (by linarith)] at hfloor
  unfold rowRun
  dsimp only
  generalize (rowLoop fl row step pos).1 = p at *
  generalize (rowLoop fl row step pos).2 = out at *
  have hlong : long p < row.length := by exact_mod_cast hfloor.trans_lt hlt
  -- the frames that are left out, and the place without them
  obtain ⟨d, hd⟩ : ∃ d : ℕ, long p = d + 1 := ⟨(long p - 1).toNat, by omega⟩
  have hdrop : (long p - 1).toNat = d := by omega
  have hplace : p - ((long p : ℚ) - 1) = p - d := by
    rw [hd]
    push_cast
    ring
  have hrest : row.drop d ++ ext = (row ++ ext).drop d := (drop_append_of_le_length (by omega)).symm
  have hle : (d : ℚ) + 1 ≤ p := by
    rw [hd] at hfloor
    exact_mod_cast hfloor
  rw [hdrop, hplace, hrest, rowLoop_drop fl _ step hle, happend]
  have hnext := le_rowLoop fl (row ++ ext) step p
  generalize rowLoop fl (row ++ ext) step p = q at hnext
  have hk' := one_le_long (hone.trans hnext)
  have hle' : (d : ℤ) + 1 ≤ long q.1 := by
    rw [long_eq (by linarith)]
    exact Int.le_floor.mpr (by exact_mod_cast hle.trans hnext)
  dsimp only
  rw [long_sub (hle.trans hnext), drop_drop,
    show d + (long q.1 - d - 1).toNat = (long q.1 - 1).toNat by omega]
  push_cast
  rw [show q.1 - d - ((long q.1 : ℚ) - d - 1) = q.1 - ((long q.1 : ℚ) - 1) by ring]

/-! ### One chunk is part of a row -/

variable {r : Resampler}

/-- A resampler between two chunks: without any frames, or placed. -/
def Ready (r : Resampler) : Prop := r.hist = [] ∨ Placed r

theorem started_placed (hr : Placed r) : started r chunk = r := by
  have htwo := hr.two_le
  unfold started
  rw [if_neg]
  intro hnil
  rw [hnil] at htwo
  exact absurd htwo (by decide)

/-- The row of a chunk starts before its end. -/
theorem started_row (hr : Ready r) (hchunk : chunk ≠ []) : 1 ≤ (started r chunk).pos ∧
    (started r chunk).pos < ((started r chunk).hist ++ chunk).length ∧
      ((started r chunk).hist ++ chunk).length ≤ chunk.length + 3 := by
  have hpos := length_pos_iff.mpr hchunk
  rcases hr with hnil | hplaced
  · have hone : started r chunk = ⟨chunk.take 1, 1⟩ := if_pos hnil
    rw [hone, length_append, length_take]
    refine ⟨le_rfl, ?_, by omega⟩
    show (1 : ℚ) < _
    exact_mod_cast (show 1 < min 1 chunk.length + chunk.length by omega)
  · have htwo := hplaced.two_le
    have hthree := hplaced.le_three
    rw [started_placed hplaced, length_append]
    refine ⟨hplaced.one_le, hplaced.lt_two.trans_le ?_, by omega⟩
    exact_mod_cast htwo.trans (Nat.le_add_right _ _)

/-- **A chunk is taken as the rest of a row**, and no access leaves its array. -/
theorem rsRun_eq (hr : Ready r) (hchunk : chunk ≠ []) (step : ℚ) : rsRun fl r chunk step =
    some (rowRun fl ((started r chunk).hist ++ chunk) (heldStep step) (started r chunk).pos) := by
  obtain ⟨hone, hrow, -⟩ := started_row hr hchunk
  obtain ⟨hone', hlt, hend, -, -⟩ := rowLoop_stop fl _ (heldStep step) hone hrow
  unfold rsRun
  rw [if_neg hchunk]
  dsimp only
  rw [rsLoop_eq fl (heldStep step) hone, bind_some, kept_eq hone' hlt hend]
  rfl

/-- The frames out fit. -/
theorem length_rowRun_le {n : ℕ} (h : 1 ≤ pos) (hrow : pos < row.length)
    (hlen : row.length ≤ n + 3) :
    (rowRun fl row step pos).2.length ≤ rsOutMax n := by
  obtain ⟨-, -, -, hcount, hlast⟩ := rowLoop_stop fl row step h hrow
  change (rowLoop fl row step pos).2.length ≤ _
  generalize (rowLoop fl row step pos).2 = out at *
  by_contra hmore
  have hne : out ≠ [] := by
    rintro rfl
    exact hmore (Nat.zero_le _)
  have hmade := hlast hne
  rw [← hcount] at hmade
  have hlo := step.lo_le
  have hlimit : (48 : ℚ) / 49 ≤ stepLo := by unfold stepLo; norm_num
  have hrow' : (row.length : ℚ) ≤ n + 3 := by exact_mod_cast hlen
  have hn : (0 : ℚ) ≤ n := Nat.cast_nonneg n
  -- there would be more steps than the row has room for
  have hmany : (n : ℚ) * (49 / 48) + 3 ≤ out.length - 1 := by
    have hnat : 49 * n + 192 ≤ 48 * out.length := by
      unfold rsOutMax at hmore
      omega
    have hcast : (49 * n + 192 : ℚ) ≤ 48 * out.length := by exact_mod_cast hnat
    linarith
  have hsteps : ((n : ℚ) * (49 / 48) + 3) * step.val ≤ (out.length - 1) * step.val :=
    mul_le_mul_of_nonneg_right hmany (by linarith)
  have hroom : ((n : ℚ) * (49 / 48) + 3) * (48 / 49) ≤ ((n : ℚ) * (49 / 48) + 3) * step.val :=
    mul_le_mul_of_nonneg_left (by linarith) (by linarith)
  linarith

/-- The first frames of a longer chunk. -/
theorem started_append (hchunk : chunk ≠ []) : started r (chunk ++ ext) = started r chunk := by
  have hpos := length_pos_iff.mpr hchunk
  unfold started
  rw [take_append_of_le_length (by omega)]

/-- What one chunk leaves. -/
theorem rsRun_ready (hr : Ready r) (chunk : List Frame) (step : ℚ) :
    ∃ r' out, rsRun fl r chunk step = some (r', out) ∧
    Ready r' ∧ (Placed r ∨ chunk ≠ [] → Placed r') ∧ out.length ≤ rsOutMax chunk.length := by
  by_cases hchunk : chunk = []
  · rw [hchunk]
    refine ⟨r, [], if_pos rfl, hr, fun h => ?_, Nat.zero_le _⟩
    exact h.resolve_right fun hne => hne rfl
  · obtain ⟨hone, hrow, hlen⟩ := started_row hr hchunk
    have hplaced := rowRun_placed fl _ (heldStep step) hone hrow
    refine ⟨_, _, rsRun_eq fl hr hchunk step, .inr hplaced, fun _ => hplaced, ?_⟩
    exact length_rowRun_le fl _ _ hone hrow hlen

/-- **Two chunks at the same step are as good as one.** -/
theorem rsRun_append (hr : Ready r) (a b : List Frame) (step : ℚ) :
    ((rsRun fl r a step).bind fun x => (rsRun fl x.1 b step).map fun y => (y.1, x.2 ++ y.2)) =
      rsRun fl r (a ++ b) step := by
  have hempty : ∀ r, rsRun fl r [] step = some (r, []) := fun r => if_pos rfl
  by_cases ha : a = []
  · rw [ha, hempty, bind_some, nil_append]
    cases rsRun fl r b step <;> rfl
  obtain ⟨hone, hrow, -⟩ := started_row hr ha
  by_cases hb : b = []
  · simp only [hb, rsRun_eq fl hr ha, bind_some, hempty, map_some, append_nil]
  have hplaced := rowRun_placed fl _ (heldStep step) hone hrow
  rw [rsRun_eq fl hr ha, bind_some, rsRun_eq fl (.inr hplaced) hb, started_placed hplaced, map_some,
    rsRun_eq fl hr (append_ne_nil_of_left_ne_nil ha b), started_append _ ha, ← append_assoc,
    rowRun_append fl _ _ _ hone hrow]

/-! ### Chunk after chunk -/

/-- What a run leaves, and the frames out of each of its chunks. -/
theorem rsRuns_ready (cs : List (List Frame × ℚ)) : ∀ {r : Resampler}, Ready r → ∃ r' outs,
    rsRuns fl r cs = some (r', outs) ∧ (Placed r ∨ (∃ c ∈ cs, c.1 ≠ []) → Placed r') ∧
      List.Forall₂ (fun c out => out.length ≤ rsOutMax c.1.length) cs outs := by
  induction cs with
  | nil =>
    intro r hr
    refine ⟨r, [], rfl, fun h => h.resolve_right ?_, .nil⟩
    rintro ⟨c, hc, -⟩
    exact absurd hc not_mem_nil
  | cons c cs ih =>
    intro r hr
    obtain ⟨r₁, out, hrun, hready, hplaced, hlen⟩ := rsRun_ready fl hr c.1 c.2
    obtain ⟨r', outs, hruns, hplaced', hlens⟩ := ih hready
    refine ⟨r', out :: outs, by rw [rsRuns, hrun, bind_some, hruns]; rfl,
      fun h => ?_, .cons hlen hlens⟩
    rcases h with h | ⟨b, hb, hne⟩
    · exact hplaced' (.inl (hplaced (.inl h)))
    · rcases mem_cons.mp hb with rfl | hb
      · exact hplaced' (.inl (hplaced (.inr hne)))
      · exact hplaced' (.inr ⟨b, hb, hne⟩)

/-- **Chunks at the same step are as good as one.** -/
theorem rsRuns_flatten (step : ℚ) (chunks : List (List Frame)) : ∀ {r : Resampler}, Ready r →
    (rsRuns fl r (chunks.map fun c => (c, step))).map (fun x => (x.1, x.2.flatten)) =
      rsRun fl r chunks.flatten step := by
  induction chunks with
  | nil =>
    intro r _
    exact (if_pos rfl).symm
  | cons c chunks ih =>
    intro r hr
    obtain ⟨r₁, out, hrun, hready, -⟩ := rsRun_ready fl hr c step
    have happend := rsRun_append fl hr c chunks.flatten step
    rw [flatten_cons, ← happend, hrun, bind_some, ← ih hready, map_cons, rsRuns, hrun,
      Option.bind_some, Option.map_map, Option.map_map]
    rfl

end

/-- **The resampler.**  Whatever chunks come after a reset, and at whatever steps, no access leaves
its array, the frames out of each fit, and after a frame the next place is between the first two
that wait; at one step the frames out are those of all chunks as one. -/
theorem resampler_sound (fl : ℚ → ℚ) :
    (∀ cs : List (List Frame × ℚ), ∃ r outs, rsRuns fl rsReset cs = some (r, outs) ∧
      ((∃ c ∈ cs, c.1 ≠ []) → 1 ≤ r.pos ∧ r.pos < 2 ∧ (r.hist.length = 2 ∨ r.hist.length = 3)) ∧
      List.Forall₂ (fun c out => out.length ≤ rsOutMax c.1.length) cs outs) ∧
    ∀ (step : ℚ) (chunks : List (List Frame)),
      (rsRuns fl rsReset (chunks.map fun c => (c, step))).map (fun x => (x.1, x.2.flatten)) =
        rsRun fl rsReset chunks.flatten step := by
  have hreset : Ready rsReset := .inl rfl
  refine ⟨fun cs => ?_, fun step chunks => rsRuns_flatten fl step chunks hreset⟩
  obtain ⟨r, outs, hruns, hplaced, hlens⟩ := rsRuns_ready fl cs hreset
  refine ⟨r, outs, hruns, fun h => ?_, hlens⟩
  have hr := hplaced (.inr h)
  have htwo := hr.two_le
  have hthree := hr.le_three
  exact ⟨hr.one_le, hr.lt_two, by omega⟩

/-- Three frames in two chunks, with nothing between them. -/
theorem resampler_sound_three :
    (∃ r outs, rsRuns single rsReset [([⟨1, -1⟩], 1), ([], 51 / 50), ([⟨2, -2⟩, ⟨3, -3⟩], 1)] =
      some (r, outs) ∧
      1 ≤ r.pos ∧ r.pos < 2 ∧ (r.hist.length = 2 ∨ r.hist.length = 3)) ∧
    (rsRuns single rsReset ([[⟨1, -1⟩], [], [⟨2, -2⟩, ⟨3, -3⟩]].map fun c => (c, 1))).map
      (fun x => (x.1, x.2.flatten)) =
      rsRun single rsReset [⟨1, -1⟩, ⟨2, -2⟩, ⟨3, -3⟩] 1 := by
  obtain ⟨r, outs, hruns, hplaced, -⟩ :=
    (resampler_sound single).1 [([⟨1, -1⟩], 1), ([], 51 / 50), ([⟨2, -2⟩, ⟨3, -3⟩], 1)]
  exact ⟨⟨r, outs, hruns, hplaced ⟨_, mem_cons_self, cons_ne_nil _ _⟩⟩,
    (resampler_sound single).2 1 [[⟨1, -1⟩], [], [⟨2, -2⟩, ⟨3, -3⟩]]⟩

end Hassmic.Music
