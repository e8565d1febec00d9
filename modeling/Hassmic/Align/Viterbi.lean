import Hassmic.Align.Graph

/-!
# Aligning a wake word

The best path through the word's states, one state a frame, and where it says the word ends: after
the last frame in one of its last states, or in the pause behind it, which the path's silence shows
or the level of the window.  How well a frame fits a model is computed when it is first asked for in
a frame and kept for the rest of it; where a state came from is kept in 16 bits.

## Main definitions

* `scoreOf` — a score that is computed once a frame.
* `enter`, `reach`, `frame`, `frames` — the Viterbi.
* `traceback`, `viterbi` — the way back.
* `pauseAfter`, `endOf` — where the word ends.
* `Path` — a path and what it counts.

## Main results

* `table_frames` — what the frames leave behind is the table of the best routes.
* `viterbi_best` — **the path found counts the most of all**, and none is found exactly if none
  counts.
* `endOf_spec` — **the end lies behind the word**, and when there is none.
-/

namespace Hassmic.Align

open Trellis List Function Option

/-- `(short)`. -/
def short (i : ℤ) : ℤ := (BitVec.ofInt 16 i).toInt

/-- `-INFINITY` before the first entry, no state where none has been. -/
structure Frames where
  cur : ℕ → Weight
  nxt : ℕ → Weight
  back : ℕ → ℤ

/-- What the loop over a frame's states writes; a score is `none` while it is `NAN`. -/
structure Column where
  ll : ℕ → Option ℚ
  nxt : ℕ → Weight
  back : ℕ → ℤ

section

variable (w : Wakealign) (score : ℕ → ℕ → ℚ)

/-- `if (isnan(ll[p])) ll[p] = gmm_loglike(...)`, and the score. -/
def scoreOf (t p : ℕ) (ll : ℕ → Option ℚ) : ℚ × (ℕ → Option ℚ) :=
  match ll p with
  | some x => (x, ll)
  | none => (score t p, update ll p (some (score t p)))

/-- The entries, with what each weighs. -/
def Wakealign.entries : List (ℕ × Weight) := w.estate.zip w.ew

/-- One of the entries, in the first frame. -/
def enter (m : (ℕ → Option ℚ) × (ℕ → Weight)) (e : ℕ × Weight) : (ℕ → Option ℚ) × (ℕ → Weight) :=
  let (x, ll) := scoreOf score 0 (w.pdf.getD e.1 0) m.1
  let v := e.2 + ((w.ascale * x : ℚ) : Weight)
  (ll, if m.2 e.1 < v then update m.2 e.1 v else m.2)

/-- The best of a state's predecessors: the loop from `poff[d]` up to `poff[d + 1]`. -/
def bestInto (cur : ℕ → Weight) (d : ℕ) : Option ℕ × Weight :=
  pick ((places (w.poff d) (w.poff (d + 1))).map fun k => (w.psrc k, cur (w.psrc k) + w.pw k))

/-- One state of a frame. -/
def reach (t : ℕ) (cur : ℕ → Weight) (m : Column) (d : ℕ) : Column :=
  match (bestInto w cur d).1 with
  | none =>
    { m with nxt := update m.nxt d ⊥, back := update m.back (t * w.nstates + d) (short (-1)) }
  | some arg =>
    let (x, ll) := scoreOf score t (w.pdf.getD d 0) m.ll
    { ll := ll
      nxt  := update m.nxt d ((bestInto w cur d).2 + ((w.ascale * x : ℚ) : Weight))
      back := update m.back (t * w.nstates + d) (short arg) }

/-- One frame: its states, then `cur` and `nxt` change places. -/
def frame (t : ℕ) (m : Frames) : Frames :=
  let c := (List.range w.nstates).foldl (reach w score t m.cur) ⟨fun _ => none, m.nxt, m.back⟩
  ⟨c.nxt, m.cur, c.back⟩

/-- After the frame `t`. -/
def frames : ℕ → Frames
  | 0 => ⟨(w.entries.foldl (enter w score) (fun _ => none, fun _ => ⊥)).2, fun _ => ⊥, fun _ => 0⟩
  | t + 1 => frame w score (t + 1) (frames t)

/-- "Back through the path", from the frame `t` on. -/
def traceback (back : ℕ → ℤ) : ℕ → ℕ → List ℕ → Option (List ℕ)
  | 0, s, path => some ((short s).toNat :: path)
  | t + 1, s, path =>
    let r := back ((t + 1) * w.nstates + s)
    if r < 0 then none else traceback back t r.toNat ((short s).toNat :: path)

/-- What a path that ends in a state weighs more. -/
def Wakealign.finalOf (s : ℕ) : Weight := w.final.getD s ⊥

/-- The Viterbi over `T` frames, and the path. -/
def viterbi (T : ℕ) : Option (List ℕ) :=
  let m := frames w score (T - 1)
  (pick ((List.range w.nstates).map fun d => (d, m.cur d + w.finalOf d))).1.bind fun s =>
    traceback w m.back (T - 1) s []

/-- The last of the frames below `t` in one of the word's last states. -/
def lastIn (path : List ℕ) : ℕ → Option ℕ
  | 0 => none
  | t + 1 => if path.getD t 0 ∈ w.last then some t else lastIn path t

end

/-! ### The pause behind the word -/

/-- The mean square of a frame. -/
def meanSquare (pcm : List ℤ) (fshift f : ℕ) : ℚ :=
  ((((pcm.drop (f * fshift)).take fshift).map fun v => v * v).sum : ℤ) / fshift

/-- The floor: between the two levels a tenth of the way up. -/
def floorDb (db : List ℚ) : ℚ :=
  let sorted := db.mergeSort fun a b => decide (a ≤ b)
  let pos : ℚ := ((db.length : ℚ) - 1) / 10
  let i := (db.length - 1) / 10
  sorted.getD i 0 + (pos - i) *
    (sorted.getD (if i + 1 < db.length then i + 1 else i) 0 - sorted.getD i 0)

/-- `while (u < nf && quiet) u++`. -/
def quietEnd (quiet : ℕ → Bool) (nf u : ℕ) : ℕ :=
  u + ((List.range' u (nf - u)).takeWhile quiet).length

theorem lt_quietEnd {quiet : ℕ → Bool} {nf t : ℕ} (ht : t < nf) (hq : quiet t = true) :
    t < quietEnd quiet nf t := by
  have hrange : List.range' t (nf - t) = t :: List.range' (t + 1) (nf - t - 1) := by
    rw [← Nat.sub_one_add_one (Nat.sub_ne_zero_of_lt ht), range'_succ, Nat.add_sub_cancel]
  rw [quietEnd, hrange, takeWhile_cons_of_pos hq, length_cons]
  omega

/-- The frame the replay starts in, where a pause starts soon enough. -/
def pauseFrom (quiet : ℕ → Bool) (nf k t : ℕ) : Option ℕ :=
  if h : t < nf ∧ t < k + 20 then
    if hq : quiet t = true then
      let u := quietEnd quiet nf t
      have : nf - u < nf - t := by
        have hlt := lt_quietEnd h.1 hq
        omega
      if 8 ≤ u - t then some (t + min ((u - t) / 2) 30) else pauseFrom quiet nf k u
    else pauseFrom quiet nf k (t + 1)
  else none
termination_by nf - t

/-- `pause_after`. -/
def pauseAfter (log10 : ℚ → ℚ) (pcm : List ℤ) (start fshift : ℕ) : ℕ :=
  let nf := pcm.length / fshift
  let k := (start + fshift - 1) / fshift
  if nf < 10 ∨ nf ≤ k then start
  else
    let db := (List.range nf).map fun f => 10 * log10 (meanSquare pcm fshift f + 1)
    let floor := floorDb db
    match pauseFrom (fun t => decide (db.getD t 0 < floor + 6)) nf k k with
    | some r => r * fshift
    | none => start

/-- `wakealign_end_adapt`; no end is `-1`. -/
def endOf (w : Wakealign) (log10 : ℚ → ℚ) (score : ℕ → ℕ → ℚ) (pcm : List ℤ) : Option ℕ :=
  let n := pcm.length
  let T := (n + w.fshift / 2) / w.fshift
  if T < w.lctx + 1 + w.rctx + 2 then none
  else
    (viterbi w score T).bind fun path =>
      (lastIn w path T).map fun tw =>
        let t := tw + 1 + ((path.drop (tw + 1)).takeWhile fun s => w.sil.getD s false).length
        let result := if 5 ≤ t - tw - 1 then (tw + 1 + (t - tw - 1) / 2) * w.fshift
          else pauseAfter log10 pcm ((tw + 1) * w.fshift) w.fshift
        if n < result then n else result

/-! ### The frames -/

/-- What being in a state in a frame weighs. -/
def Wakealign.node (w : Wakealign) (score : ℕ → ℕ → ℚ) (t s : ℕ) : Weight :=
  ((w.ascale * score t (w.pdf.getD s 0) : ℚ) : Weight)

section

variable {w : Wakealign} {score : ℕ → ℕ → ℚ}

/-- The scores that are there are those of the frame. -/
def Known (score : ℕ → ℕ → ℚ) (t : ℕ) (ll : ℕ → Option ℚ) : Prop := ∀ p, ∀ x ∈ ll p, x = score t p

theorem known_none (t : ℕ) : Known score t fun _ => none := fun _ _ hx => nomatch hx

variable {t T : ℕ} {p : List ℕ}

theorem scoreOf_spec {ll : ℕ → Option ℚ} (h : Known score t ll) (p : ℕ) :
    (scoreOf score t p ll).1 = score t p ∧ Known score t (scoreOf score t p ll).2 := by
  unfold scoreOf
  cases hp : ll p with
  | some x => exact ⟨h p x hp, h⟩
  | none =>
    refine ⟨rfl, fun q x hx => ?_⟩
    dsimp only at hx
    rw [update_apply] at hx
    split at hx
    case isTrue heq =>
      rw [heq]
      exact (some.inj hx).symm
    case isFalse => exact h q x hx

/-- What the entries seen so far make of the first frame. -/
def Entered (w : Wakealign) (score : ℕ → ℕ → ℚ) (l : List (ℕ × Weight)) (cur : ℕ → Weight) : Prop :=
  (∀ e ∈ l, e.2 + w.node score 0 e.1 ≤ cur e.1) ∧
    ∀ s, cur s ≠ ⊥ → ∃ x, (s, x) ∈ l ∧ cur s = x + w.node score 0 s

/-- One entry more. -/
theorem Entered.enter {l : List (ℕ × Weight)} {m : (ℕ → Option ℚ) × (ℕ → Weight)}
    (h : Entered w score l m.2) (hll : Known score 0 m.1) (e : ℕ × Weight) :
    Entered w score (l ++ [e]) (enter w score m e).2 ∧ Known score 0 (enter w score m e).1 := by
  obtain ⟨hscore, hknown⟩ := scoreOf_spec hll (w.pdf.getD e.1 0)
  refine ⟨?_, hknown⟩
  unfold Align.enter
  dsimp only
  rw [hscore]
  change Entered w score (l ++ [e]) (if m.2 e.1 < e.2 + w.node score 0 e.1 then
    update m.2 e.1 (e.2 + w.node score 0 e.1) else m.2)
  split
  case isTrue hlt =>
    constructor
    · intro f hf
      by_cases hfe : f.1 = e.1
      · rw [hfe, update_self]
        rcases mem_append.mp hf with hf | hf
        · have hle := h.1 f hf
          rw [hfe] at hle
          exact hle.trans hlt.le
        · rw [mem_singleton.mp hf]
      · rw [update_of_ne hfe]
        rcases mem_append.mp hf with hf | hf
        · exact h.1 f hf
        · exact absurd (congrArg Prod.fst (mem_singleton.mp hf)) hfe
    · intro s hs
      by_cases hse : s = e.1
      · subst hse
        exact ⟨e.2, mem_append_right _ (.head _), update_self _ _ _⟩
      · rw [update_of_ne hse] at hs ⊢
        obtain ⟨x, hx, heq⟩ := h.2 s hs
        exact ⟨x, mem_append_left _ hx, heq⟩
  case isFalse hlt =>
    constructor
    · intro f hf
      rcases mem_append.mp hf with hf | hf
      · exact h.1 f hf
      · rw [mem_singleton.mp hf]
        exact not_lt.mp hlt
    · intro s hs
      obtain ⟨x, hx, heq⟩ := h.2 s hs
      exact ⟨x, mem_append_left _ hx, heq⟩

theorem entered_foldl : ∀ (l m : List (ℕ × Weight))
    (c : (ℕ → Option ℚ) × (ℕ → Weight)), Entered w score l c.2 →
    Known score 0 c.1 → Entered w score (l ++ m) (m.foldl (enter w score) c).2
  | l, [], c, h, _ => by
    rw [append_nil]
    exact h
  | l, e :: m, c, h, hll => by
    obtain ⟨hentered, hknown⟩ := h.enter hll e
    have hrest := entered_foldl (l ++ [e]) m _ hentered hknown
    rw [append_assoc] at hrest
    exact hrest

/-- The first frame. -/
theorem entered_first (w : Wakealign) (score : ℕ → ℕ → ℚ) :
    Entered w score w.entries (frames w score 0).cur :=
  entered_foldl [] w.entries _ ⟨fun _ he => (nomatch he), fun _ hs => absurd rfl hs⟩ (known_none 0)

/-- The loop over a state's arcs looks at those that lead to it. -/
theorem bestInto_eq (cur : ℕ → Weight) (d : ℕ) :
    bestInto w cur d = pick ((w.entering d).map fun a => (a.src, cur a.src + a.weight)) := by
  unfold bestInto Wakealign.entering
  rw [List.map_map]
  rfl

theorem short_eq {i : ℤ} (hlow : -32768 ≤ i) (hhigh : i < 32768) : short i = i := by
  unfold short
  rw [BitVec.toInt_ofInt]
  exact Int.bmod_eq_of_le (by omega) (by omega)

theorem short_lt (i : ℤ) : short i < 32768 := BitVec.toInt_lt

/-- What the loop over the first `n` states of the frame `t` has written. -/
structure Reached (w : Wakealign) (score : ℕ → ℕ → ℚ) (t : ℕ) (m : Frames) (n : ℕ) (c : Column) :
    Prop where
  known : Known score t c.ll
  nxt : ∀ d < n, c.nxt d = (bestInto w m.cur d).2 + w.node score t d
  nxt_rest : ∀ d, n ≤ d → c.nxt d = m.nxt d
  back : ∀ d < n, c.back (t * w.nstates + d) =
    short ((bestInto w m.cur d).1.elim (-1) fun s => (s : ℤ))
  back_rest : ∀ i, (∀ d < n, i ≠ t * w.nstates + d) → c.back i = m.back i

/-- One state more, whatever is found for it. -/
theorem Reached.succ {n : ℕ} {m : Frames} {c c' : Column} (h : Reached w score t m n c)
    (hknown : Known score t c'.ll)
    (hnxt : c'.nxt = update c.nxt n ((bestInto w m.cur n).2 + w.node score t n))
    (hback : c'.back = update c.back (t * w.nstates + n)
      (short ((bestInto w m.cur n).1.elim (-1) fun s => (s : ℤ)))) :
    Reached w score t m (n + 1) c' := by
  refine ⟨hknown, fun d hd => ?_, fun d hd => ?_, fun d hd => ?_, fun i hi => ?_⟩
  · rw [hnxt, update_apply]
    split
    case isTrue heq => rw [heq]
    case isFalse => exact h.nxt d (by omega)
  · rw [hnxt, update_of_ne (by omega)]
    exact h.nxt_rest d (by omega)
  · rw [hback, update_apply]
    split
    case isTrue heq => rw [show d = n by omega]
    case isFalse => exact h.back d (by omega)
  · rw [hback, update_of_ne (hi n (Nat.lt_succ_self n))]
    exact h.back_rest i fun d hd => hi d (by omega)

theorem Reached.reach {n : ℕ} {m : Frames} {c : Column} (h : Reached w score t m n c) :
    Reached w score t m (n + 1) (reach w score t m.cur c n) := by
  unfold Align.reach
  cases hfound : (bestInto w m.cur n).1 with
  | none =>
    -- Nothing leads here: minus infinity, and whatever the frame's score is.
    have hbot : (bestInto w m.cur n).2 = ⊥ := pick_eq_none.mp hfound
    refine h.succ h.known ?_ ?_
    · rw [hbot, WithBot.bot_add]
    · rw [hfound]
      rfl
  | some arg =>
    obtain ⟨hscore, hknown⟩ := scoreOf_spec h.known (w.pdf.getD n 0)
    refine h.succ hknown ?_ ?_
    · dsimp only
      rw [hscore]
      rfl
    · rw [hfound]
      rfl

theorem reached_foldl (t : ℕ) (m : Frames) : ∀ (n : ℕ),
    Reached w score t m n
      ((List.range n).foldl (reach w score t m.cur) ⟨fun _ => none, m.nxt, m.back⟩)
  | 0 =>
    ⟨known_none t, fun _ hd => absurd hd (Nat.not_lt_zero _), fun _ _ => rfl, fun _ hd =>
      absurd hd (Nat.not_lt_zero _), fun _ _ => rfl⟩
  | n + 1 => by
    rw [range_succ, foldl_append]
    exact (reached_foldl t m n).reach

/-- What one frame does. -/
theorem frame_spec (w : Wakealign) (score : ℕ → ℕ → ℚ) (t : ℕ) (m : Frames) :
    (frame w score t m).nxt = m.cur ∧ Reached w score t m w.nstates
      ⟨((List.range w.nstates).foldl (reach w score t m.cur) ⟨fun _ => none, m.nxt, m.back⟩).ll,
        (frame w score t m).cur, (frame w score t m).back⟩ :=
  ⟨rfl, reached_foldl t m w.nstates⟩

/-- Where a state came from, as the array has it. -/
def cameFrom (w : Wakealign) (back : ℕ → ℤ) (t d : ℕ) : Option ℕ :=
  if back (t * w.nstates + d) < 0 then none else some (back (t * w.nstates + d)).toNat

theorem frames_cur (w : Wakealign) (score : ℕ → ℕ → ℚ) (t : ℕ) {d : ℕ} (hd : d < w.nstates) :
    (frames w score (t + 1)).cur d = (bestInto w (frames w score t).cur d).2 +
      w.node score (t + 1) d :=
  (frame_spec w score (t + 1) (frames w score t)).2.nxt d hd

/-- There is nothing behind the last state. -/
theorem frames_outside (hsound : Sound w) : ∀ (t : ℕ) {d : ℕ}, w.nstates ≤ d →
    (frames w score t).cur d = ⊥ ∧ (frames w score t).nxt d = ⊥
  | 0, d, hd => by
    refine ⟨by_contra fun hne => ?_, rfl⟩
    obtain ⟨x, hx, -⟩ := (entered_first w score).2 d hne
    have hlt := hsound.estate_lt d (of_mem_zip hx).1
    omega
  | t + 1, d, hd => by
    obtain ⟨hnxt, hreached⟩ := frame_spec w score (t + 1) (frames w score t)
    obtain ⟨hcur, hrest⟩ := frames_outside hsound t hd
    refine ⟨?_, ?_⟩
    · exact (hreached.nxt_rest d hd).trans hrest
    · exact (congrFun hnxt d).trans hcur

/-- The rows of the array stay as they are written. -/
theorem frames_back (w : Wakealign) (score : ℕ → ℕ → ℚ) {d : ℕ} (hd : d < w.nstates) :
    ∀ {u : ℕ}, t < u →
    (frames w score u).back ((t + 1) * w.nstates + d) =
      short ((bestInto w (frames w score t).cur d).1.elim (-1) fun s => (s : ℤ))
  | 0, htu => absurd htu (Nat.not_lt_zero _)
  | u + 1, htu => by
    obtain ⟨-, hreached⟩ := frame_spec w score (u + 1) (frames w score u)
    rcases Nat.lt_or_ge t u with hlt | hge
    · -- An earlier row: its places are below those of the frame `u + 1`.
      refine (hreached.back_rest _ fun e he => ?_).trans (frames_back w score hd hlt)
      have hrows : (t + 1 + 1) * w.nstates ≤ (u + 1) * w.nstates :=
        Nat.mul_le_mul_right _ (by omega)
      have hrow : (t + 1 + 1) * w.nstates = (t + 1) * w.nstates + w.nstates := Nat.succ_mul _ _
      omega
    · obtain rfl : t = u := by omega
      exact hreached.back d hd

theorem frames_back_lt (w : Wakealign) (score : ℕ → ℕ → ℚ) :
    ∀ (t i : ℕ), (frames w score t).back i < 32768
  | 0, _ => Int.ofNat_lt.mpr (Nat.zero_lt_succ _)
  | t + 1, i => by
    obtain ⟨-, hreached⟩ := frame_spec w score (t + 1) (frames w score t)
    by_cases hi : ∃ d < w.nstates, i = (t + 1) * w.nstates + d
    · obtain ⟨d, hd, rfl⟩ := hi
      exact (hreached.back d hd).trans_lt (short_lt _)
    · have hrest := hreached.back_rest i fun d hd heq => hi ⟨d, hd, heq⟩
      exact hrest.trans_lt (frames_back_lt w score t i)

/-- **What the frames leave behind is the table** of the best routes. -/
theorem table_frames (hsound : Sound w)
    (hentering : ∀ d < w.nstates, w.entering d = w.arcs.filter fun a => a.dst = d)
    (score : ℕ → ℕ → ℚ) (T : ℕ) : Table w.entries w.arcs (w.node score)
    (fun t s => (frames w score t).cur s)
      (cameFrom w (frames w score (T - 1)).back) T where
  enter_le he := (entered_first w score).1 _ he
  entered hs := (entered_first w score).2 _ hs
  step_le {t a} _ ha := by
    have hdst := hsound.dst_lt ha
    have hmem : a ∈ w.entering a.dst := by
      rw [hentering _ hdst, mem_filter]
      exact ⟨ha, decide_eq_true rfl⟩
    rw [frames_cur w score t hdst, bestInto_eq]
    gcongr
    exact le_pick
      (mem_map_of_mem hmem (f := fun a => (a.src, (frames w score t).cur a.src + a.weight)))
  stepped {t d} ht hne := by
    have hd : d < w.nstates := by
      by_contra hge
      exact hne (frames_outside hsound (t + 1) (not_lt.mp hge)).1
    rw [frames_cur w score t hd] at hne ⊢
    have hbest : (bestInto w (frames w score t).cur d).2 ≠ ⊥ := by
      intro hbot
      rw [hbot, WithBot.bot_add] at hne
      exact hne rfl
    cases hfound : (bestInto w (frames w score t).cur d).1 with
    | none => exact absurd (pick_eq_none.mp hfound) hbest
    | some s =>
      have hback := frames_back w score hd (t := t) (u := T - 1) (by omega)
      rw [hfound] at hback
      rw [bestInto_eq] at hfound ⊢
      obtain ⟨a, ha, heq⟩ := mem_map.mp (pick_mem hfound).1
      rw [hentering d hd, mem_filter] at ha
      obtain ⟨hs, hvalue⟩ := Prod.mk.inj heq
      have hsrc := src_lt ha.1
      have hlt := hsound.nstates_lt
      refine ⟨a, ha.1, of_decide_eq_true ha.2, ?_, ?_⟩
      · have hshort : short (s : ℤ) = s := short_eq (by omega) (by omega)
        unfold cameFrom
        rw [hback, elim_some, hshort, if_neg (by omega), Int.toNat_natCast, hs]
      · rw [← hvalue]

/-! ### The path -/

/-- A path of `T` frames, from an entry on along the arcs, and what it counts: the entry's weight,
the arcs', the scaled score of each frame in the model of its state, and what ending in its last
state weighs. -/
def Path (w : Wakealign) (score : ℕ → ℕ → ℚ) (T : ℕ) (p : List ℕ) (total : Weight) : Prop :=
  ∃ t s q v, T = t + 1 ∧ Route w.entries w.arcs (w.node score) t (s :: q) v ∧ p = (s :: q).reverse ∧
    total = v + w.finalOf s

/-- Going back through the array is going back through the table. -/
theorem traceback_eq {back : ℕ → ℤ} (hback : ∀ i, back i < 32768) : ∀ (t : ℕ) {s : ℕ}
    (path : List ℕ), s < 32768 →
    traceback w back t s path = (trace (cameFrom w back) t s).map fun p => p.reverse ++ path
  | 0, s, path, hs => by
    rw [traceback, short_eq (by omega) (by omega), Int.toNat_natCast]
    rfl
  | t + 1, s, path, hs => by
    rw [traceback, trace, short_eq (by omega) (by omega), Int.toNat_natCast]
    unfold cameFrom
    have hlt := hback ((t + 1) * w.nstates + s)
    split
    case isTrue => rfl
    case isFalse hge =>
      rw [traceback_eq hback t (s :: path) (by omega), Option.bind_some, Option.map_map]
      refine congrFun (congrArg Option.map (funext fun p => ?_)) _
      rw [comp_apply, reverse_cons, append_assoc]
      rfl

/-- **The path found counts the most of all**, and none is found exactly if none counts. -/
theorem viterbi_best (hsound : Sound w)
    (hentering : ∀ d < w.nstates, w.entering d = w.arcs.filter fun a => a.dst = d)
    (score : ℕ → ℕ → ℚ) (hT : 0 < T) :
    match viterbi w score T with
    | none => ∀ p v, Path w score T p v → v = ⊥
    | some p => ∃ v, Path w score T p v ∧ v ≠ ⊥ ∧ ∀ q u, Path w score T q u → u ≤ v := by
  have htable := table_frames hsound hentering score T
  obtain ⟨t, rfl⟩ : ∃ t, T = t + 1 := ⟨T - 1, by omega⟩
  generalize hbest : pick ((List.range w.nstates).map fun d =>
    (d, (frames w score t).cur d + w.finalOf d)) = best
  have hle : ∀ q u, Path w score (t + 1) q u → u ≤ best.2 := by
    rintro q u ⟨t', s, r, v, heq, hroute, -, rfl⟩
    obtain rfl : t = t' := by omega
    have hv : v ≤ (frames w score t).cur s := htable.le hroute (Nat.lt_succ_self t) s rfl
    -- no route ends outside the states
    by_cases hs : s < w.nstates
    · have hmem : (s, (frames w score t).cur s + w.finalOf s) ∈
          (List.range w.nstates).map fun d => (d, (frames w score t).cur d + w.finalOf d) :=
        mem_map_of_mem (mem_range.mpr hs)
      have hpick := le_pick hmem
      rw [hbest] at hpick
      calc v + w.finalOf s ≤ (frames w score t).cur s + w.finalOf s := by gcongr
        _ ≤ best.2 := hpick
    · rw [(frames_outside hsound t (not_lt.mp hs)).1, le_bot_iff] at hv
      rw [hv, WithBot.bot_add]
      exact bot_le
  unfold viterbi
  rw [Nat.add_sub_cancel] at htable ⊢
  dsimp only
  rw [hbest]
  cases hfound : best.1 with
  | none =>
    rw [← hbest] at hfound
    intro p v hp
    have hv := hle p v hp
    rw [← hbest, pick_eq_none.mp hfound, le_bot_iff] at hv
    exact hv
  | some s =>
    rw [← hbest] at hfound
    obtain ⟨hmem, hne⟩ := pick_mem hfound
    rw [hbest] at hmem hne
    obtain ⟨d, hd, heq⟩ := mem_map.mp hmem
    obtain ⟨rfl, hvalue⟩ := Prod.mk.inj heq
    have hcur : (frames w score t).cur d ≠ ⊥ := by
      intro hbot
      rw [hbot, WithBot.bot_add] at hvalue
      exact hne hvalue.symm
    obtain ⟨q, htrace, hroute⟩ := htable.trace_route (Nat.lt_succ_self t) hcur
    have hdlt := mem_range.mp hd
    have hnstates := hsound.nstates_lt
    rw [bind_some, traceback_eq (frames_back_lt w score t) t [] (by omega), htrace, map_some]
    refine ⟨best.2, ⟨t, d, q, _, rfl, hroute, ?_, hvalue.symm⟩, hne, hle⟩
    exact append_nil _

/-- The path found is one, and counts. -/
theorem path_of_viterbi (hsound : Sound w)
    (hentering : ∀ d < w.nstates, w.entering d = w.arcs.filter fun a => a.dst = d) (hT : 0 < T)
    (h : viterbi w score T = some p) : ∃ v, Path w score T p v ∧ v ≠ ⊥ := by
  have hbest := viterbi_best hsound hentering score hT
  rw [h] at hbest
  obtain ⟨v, hv, hne, -⟩ := hbest
  exact ⟨v, hv, hne⟩

/-- A path has a state for each frame. -/
theorem Path.length {v : Weight} (h : Path w score T p v) : p.length = T := by
  obtain ⟨t, s, q, u, rfl, hroute, rfl, -⟩ := h
  rw [length_reverse, hroute.length]

/-! ### Where the word ends -/

/-- The last frame of a path in one of the word's last states. -/
def LastFrame (w : Wakealign) (p : List ℕ) (t : ℕ) : Prop :=
  (∃ s ∈ p[t]?, s ∈ w.last) ∧ ∀ u, t < u → ∀ s ∈ p[u]?, s ∉ w.last

theorem lastIn_none : ∀ {T : ℕ}, lastIn w p T = none → ∀ t < T, p.getD t 0 ∉ w.last
  | 0, _, t, ht => absurd ht (Nat.not_lt_zero t)
  | T + 1, h, t, ht => by
    rw [lastIn] at h
    split at h
    case isTrue => exact nomatch h
    case isFalse hlast =>
      rcases Nat.lt_succ_iff_lt_or_eq.mp ht with hlt | rfl
      · exact lastIn_none h t hlt
      · exact hlast

theorem lastIn_some : ∀ {T : ℕ}, lastIn w p T = some t →
    t < T ∧ p.getD t 0 ∈ w.last ∧ ∀ u, t < u → u < T → p.getD u 0 ∉ w.last
  | T + 1, h => by
    rw [lastIn] at h
    split at h
    case isTrue hlast =>
      obtain rfl : T = t := some.inj h
      exact ⟨Nat.lt_succ_self T, hlast, fun u hu hlt => by omega⟩
    case isFalse hlast =>
      obtain ⟨hlt, hmem, hrest⟩ := lastIn_some h
      refine ⟨by omega, hmem, fun u htu hu => ?_⟩
      rcases Nat.lt_succ_iff_lt_or_eq.mp hu with hu | rfl
      · exact hrest u htu hu
      · exact hlast

/-- A path that is in none of the last states has no end. -/
theorem lastIn_eq_none (hlen : p.length = T) : lastIn w p T = none ↔ ∀ s ∈ p, s ∉ w.last := by
  constructor
  · intro h s hs
    obtain ⟨t, ht, rfl⟩ := mem_iff_getElem.mp hs
    have hnone := lastIn_none h t (hlen ▸ ht)
    rw [getD_eq_getElem _ _ ht] at hnone
    exact hnone
  · intro h
    cases hfound : lastIn w p T with
    | none => rfl
    | some t =>
      obtain ⟨hlt, hmem, -⟩ := lastIn_some hfound
      rw [getD_eq_getElem _ _ (hlen ▸ hlt)] at hmem
      exact absurd hmem (h _ (getElem_mem _))

theorem lastFrame_of_lastIn (hlen : p.length = T) (h : lastIn w p T = some t) :
    LastFrame w p t := by
  obtain ⟨hlt, hmem, hrest⟩ := lastIn_some h
  refine ⟨⟨p.getD t 0, ?_, hmem⟩, fun u htu s hs => ?_⟩
  · rw [getD_eq_getElem _ _ (hlen ▸ hlt)]
    exact getElem?_eq_getElem _
  · obtain ⟨hu, rfl⟩ := List.getElem?_eq_some_iff.mp hs
    have hnot := hrest u htu (hlen ▸ hu)
    rw [getD_eq_getElem _ _ hu] at hnot
    exact hnot

theorem quietEnd_le {quiet : ℕ → Bool} {nf u : ℕ} (hu : u ≤ nf) : quietEnd quiet nf u ≤ nf := by
  have hlen := (takeWhile_sublist (l := List.range' u (nf - u)) quiet).length_le
  rw [length_range'] at hlen
  unfold quietEnd
  omega

/-- The replay starts no sooner than the word's end and no later than the window's last frame. -/
theorem pauseFrom_bounds {quiet : ℕ → Bool} {nf k r : ℕ} (h : pauseFrom quiet nf k t = some r) :
    t ≤ r ∧ r ≤ nf := by
  induction t using pauseFrom.induct quiet nf k with
  | case1 t hin hq u hlt hlong =>
    rw [pauseFrom, dif_pos hin, dif_pos hq] at h
    dsimp only at h
    rw [if_pos hlong] at h
    have hend := @quietEnd_le quiet nf t hin.1.le
    have hr := some.inj h
    dsimp only [u] at hlong
    omega
  | case2 t hin hq u hlt hshort ih =>
    rw [pauseFrom, dif_pos hin, dif_pos hq] at h
    dsimp only at h
    rw [if_neg hshort] at h
    have hrest := ih h
    have hend := lt_quietEnd hin.1 hq
    dsimp only [u] at hrest
    omega
  | case3 t hin hq ih =>
    rw [pauseFrom, dif_pos hin, dif_neg hq] at h
    have hrest := ih h
    omega
  | case4 t hout =>
    rw [pauseFrom, dif_neg hout] at h
    exact nomatch h

theorem pauseAfter_bounds (log10 : ℚ → ℚ) (pcm : List ℤ) (stop : ℕ) {fshift : ℕ}
    (hfshift : 0 < fshift) :
    pauseAfter log10 pcm stop fshift = stop ∨
      stop ≤ pauseAfter log10 pcm stop fshift ∧ pauseAfter log10 pcm stop fshift ≤ pcm.length := by
  unfold pauseAfter
  dsimp only
  split
  case isTrue => exact .inl rfl
  case isFalse =>
    split
    case h_1 r hr =>
      obtain ⟨hle, hlast⟩ := pauseFrom_bounds hr
      refine .inr ⟨?_, ?_⟩
      · -- Rounded up to a whole frame.
        have hmod := Nat.div_add_mod (stop + fshift - 1) fshift
        have hlt := Nat.mod_lt (stop + fshift - 1) hfshift
        have hmul : (stop + fshift - 1) / fshift * fshift ≤ r * fshift := Nat.mul_le_mul_right _ hle
        rw [Nat.mul_comm] at hmod
        omega
      · exact (Nat.mul_le_mul_right _ hlast).trans (Nat.div_mul_le_self _ _)
    case h_2 => exact .inl rfl

end

/-- The frames of a window. -/
def framesOf (w : Wakealign) (pcm : List ℤ) : ℕ := (pcm.length + w.fshift / 2) / w.fshift

/-- **The end lies behind the word**: from the end of the last frame in one of the word's last
states on, or from the window's where that frame reaches beyond it, up to the window's.  There is
none where the window is too short, no path counts, or the path is in none of the last states. -/
theorem endOf_spec {w : Wakealign} (hsound : Sound w)
    (hentering : ∀ d < w.nstates, w.entering d = w.arcs.filter fun a => a.dst = d) (log10 : ℚ → ℚ)
    (score : ℕ → ℕ → ℚ) (pcm : List ℤ) :
    (endOf w log10 score pcm = none ↔ framesOf w pcm < w.lctx + 1 + w.rctx + 2 ∨
      (∀ p v, Path w score (framesOf w pcm) p v → v = ⊥) ∨
      ∃ p, viterbi w score (framesOf w pcm) = some p ∧ ∀ s ∈ p, s ∉ w.last) ∧
    ∀ e, endOf w log10 score pcm = some e →
    ∃ p t, viterbi w score (framesOf w pcm) = some p ∧ LastFrame w p t ∧
      min pcm.length ((t + 1) * w.fshift) ≤ e ∧ e ≤ pcm.length := by
  unfold endOf
  change ((if framesOf w pcm < w.lctx + 1 + w.rctx + 2 then none else _) = none ↔ _) ∧
    ∀ e, (if framesOf w pcm < w.lctx + 1 + w.rctx + 2 then none else _) = some e → _
  by_cases hshort : framesOf w pcm < w.lctx + 1 + w.rctx + 2
  · rw [if_pos hshort]
    exact ⟨⟨fun _ => .inl hshort, fun _ => rfl⟩, fun e he => (nomatch he)⟩
  rw [if_neg hshort]
  change ((viterbi w score (framesOf w pcm)).bind _ = none ↔ _) ∧
    ∀ e, (viterbi w score (framesOf w pcm)).bind _ = some e → _
  have hbest := viterbi_best hsound hentering score (T := framesOf w pcm) (by omega)
  cases hpath : viterbi w score (framesOf w pcm) with
  | none =>
    rw [hpath] at hbest
    exact ⟨⟨fun _ => .inr (.inl hbest), fun _ => rfl⟩, fun e he => (nomatch he)⟩
  | some p =>
    rw [hpath] at hbest
    obtain ⟨v, hp, hne, -⟩ := hbest
    have hlen := hp.length
    rw [bind_some]
    constructor
    · change Option.map _ (lastIn w p (framesOf w pcm)) = none ↔ _
      rw [map_eq_none_iff, lastIn_eq_none hlen]
      constructor
      · exact fun h => .inr (.inr ⟨p, rfl, h⟩)
      · rintro (h | h | ⟨q, hq, h⟩)
        · exact absurd h hshort
        · exact absurd (h p v hp) hne
        · rw [some.inj hq]
          exact h
    · intro e he
      change Option.map _ (lastIn w p (framesOf w pcm)) = some e at he
      obtain ⟨t, ht, rfl⟩ := map_eq_some_iff.mp he
      refine ⟨p, t, rfl, lastFrame_of_lastIn hlen ht, ?_⟩
      dsimp only
      generalize t + 1 + ((p.drop (t + 1)).takeWhile fun s => w.sil.getD s false).length = u
      have hbounds := pauseAfter_bounds log10 pcm ((t + 1) * w.fshift) w.fshift_pos
      have hle : (t + 1) * w.fshift ≤ (t + 1 + (u - t - 1) / 2) * w.fshift :=
        Nat.mul_le_mul_right _ (Nat.le_add_right _ _)
      split <;> split <;> omega

/-- **The aligner finds a best path**, for every file that is taken: its arcs by destination are its
arcs by source, the path it traces back counts the most, and the end it gives lies behind the
word. -/
theorem aligns {weight : Bytes → Weight} {number : Bytes → ℚ} {head : Head}
    {f : Bytes} {w : Wakealign} (h : load weight number head f = some w) :
    w.predecessors.Perm w.arcs ∧
    (∀ (score : ℕ → ℕ → ℚ) (T : ℕ), 0 < T →
      match viterbi w score T with
      | none => ∀ p v, Path w score T p v → v = ⊥
      | some p => ∃ v, Path w score T p v ∧ v ≠ ⊥ ∧ ∀ q u, Path w score T q u → u ≤ v) ∧
    ∀ (log10 : ℚ → ℚ) (score : ℕ → ℕ → ℚ) (pcm : List ℤ),
      (endOf w log10 score pcm = none ↔ framesOf w pcm < w.lctx + 1 + w.rctx + 2 ∨
        (∀ p v, Path w score (framesOf w pcm) p v → v = ⊥) ∨
        ∃ p, viterbi w score (framesOf w pcm) = some p ∧ ∀ s ∈ p, s ∉ w.last) ∧
      ∀ e, endOf w log10 score pcm = some e →
      ∃ p t, viterbi w score (framesOf w pcm) = some p ∧ LastFrame w p t ∧
        min pcm.length ((t + 1) * w.fshift) ≤ e ∧ e ≤ pcm.length := by
  obtain ⟨hsound, hentering⟩ := load_spec h
  refine ⟨predecessors_perm hsound hentering, fun score T hT => ?_, fun log10 score pcm => ?_⟩
  · exact viterbi_best hsound hentering score hT
  · exact endOf_spec hsound hentering log10 score pcm

/-- Two states that lead to themselves, and the first to the second: a word enters in the first, and
the second is its last. -/
def twoStates : Bytes :=
  [2, 0, 0, 0, 0, 0, 0, 0, 2, 0, 0, 0, 1, 0, 0, 0, 0, 0, 0, 0, 0, 0, 0, 0, 0, 0, 0, 0,
    1, 0, 0, 0, 1, 0, 0, 0, 1, 0, 0, 0, 0, 0, 0, 0, 1, 0, 0, 0, 0, 0, 0, 0, 0, 0, 0, 0,
    0, 0, 0, 0, 0, 0, 0, 0, 1, 0, 0, 0, 1, 0, 0, 0, 0, 0, 128, 63]

/-- Frames of two samples, none spliced. -/
def twoHead : Head := ⟨2, 2, 0, 0, by decide⟩

/-- What the file says. -/
def two : Wakealign := (load (fun _ => 0) (fun _ => 1) twoHead twoStates).get (by decide +kernel)

theorem two_load : load (fun _ => 0) (fun _ => 1) twoHead twoStates = some two := (some_get _).symm

theorem aligns_two : load (fun _ => 0) (fun _ => 1) twoHead twoStates = some two ∧
    two.predecessors.Perm two.arcs ∧
    (∃ v, Path two (fun _ p => p) 3 [0, 1, 1] v ∧ v ≠ ⊥ ∧
      ∀ q u, Path two (fun _ p => p) 3 q u → u ≤ v) ∧
    ∀ e, endOf two id (fun _ p => p) [0, 0, 0, 0, 0] = some e → ∃ p t, LastFrame two p t ∧
      min 5 ((t + 1) * two.fshift) ≤ e ∧ e ≤ 5 := by
  obtain ⟨hperm, hbest, hend⟩ := aligns two_load
  have hfound : ∀ (score : ℕ → ℕ → ℚ) (T : ℕ) (p : List ℕ), 0 < T → viterbi two score T = some p →
      ∃ v, Path two score T p v ∧ v ≠ ⊥ ∧ ∀ q u, Path two score T q u → u ≤ v := by
    intro score T p hT hp
    have h := hbest score T hT
    rw [hp] at h
    exact h
  refine ⟨two_load, hperm, hfound _ 3 _ (by decide) (by decide +kernel), fun e he => ?_⟩
  obtain ⟨p, t, -, hlast, hle⟩ := (hend id (fun _ p => p) [0, 0, 0, 0, 0]).2 e he
  exact ⟨p, t, hlast, hle⟩

/-- A path that counts need not give an end, and an end may lie before that of the word's last
frame: here, where the first state fits best, and where the last frame reaches beyond the window. -/
theorem aligns_beside : load (fun _ => 0) (fun _ => 1) twoHead twoStates = some two ∧
    (endOf two id (fun _ p => -p) [0, 0, 0, 0, 0, 0] = none ∧
      two.lctx + 1 + two.rctx + 2 ≤ framesOf two [0, 0, 0, 0, 0, 0] ∧
      ∃ p v, Path two (fun _ p => -p) (framesOf two [0, 0, 0, 0, 0, 0]) p v ∧ v ≠ ⊥) ∧
    endOf two id (fun _ p => p) [0, 0, 0, 0, 0] = some 5 ∧
      viterbi two (fun _ p => p) (framesOf two [0, 0, 0, 0, 0]) = some [0, 1, 1] ∧
      LastFrame two [0, 1, 1] 2 ∧
      5 < (2 + 1) * two.fshift := by
  obtain ⟨hsound, hentering⟩ := load_spec two_load
  have hlast : lastIn two [0, 1, 1] 3 = some 2 := by decide +kernel
  have hpath : viterbi two (fun _ p => -p) (framesOf two [0, 0, 0, 0, 0, 0]) =
    some [0, 0, 0] := by decide +kernel
  have hcounts := path_of_viterbi hsound hentering (by decide +kernel) hpath
  exact ⟨two_load, ⟨by decide +kernel, by decide +kernel, [0, 0, 0],
    hcounts⟩, by decide +kernel, by decide +kernel,
    lastFrame_of_lastIn rfl hlast, by decide +kernel⟩

end Hassmic.Align
