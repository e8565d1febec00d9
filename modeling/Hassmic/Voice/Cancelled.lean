import Hassmic.Voice.Listening

/-!
# What is left of a cancelled run

Home Assistant may still report a run that was cancelled.  One flag keeps that from the next
run: it drops everything until another run is asked for, and from then on everything but the
start or the failure of a run, which clears it.  The flag cannot tell whose start that is.
What holds is that an event of the cancelled run changes nothing as long as nothing of the
next run came before it, nor its own start or failure once the next was asked for.

## Main definitions

* `Arrival` — an event of either run, or anything else.
* `St.Cancels` — the places where `cancel` ends a run.
* `Passed` — what may come before an event of the cancelled run.

## Main results

* `cancelled_dropped` — an event of a cancelled run changes nothing.
-/

namespace Hassmic.Voice

open List

/-! ### Two runs -/

/-- An event of the cancelled run or of the next, or anything else that happens. -/
inductive Arrival
  | first (e : VaEvent)
  | second (e : VaEvent)
  | other (e : Ev)

/-- Something arrives. -/
def St.arrive (s : St) : Arrival → St
  | .first e => s.step (.event e)
  | .second e => s.step (.event e)
  | .other e => s.step e

/-- A run is ended by `cancel`. -/
inductive St.Cancels : St → St → Prop
  | quiet (s : St) : St.Cancels s s.quietCancel
  | said (s : St) (h : s.connected = true) : St.Cancels s s.runCancelled
  | waited (s : St) (h : (s.streaming && s.connected && s.wakeWait) = true) :
      St.Cancels s s.corePipelineFinish

/-- What may come before an event of the cancelled run, which left the Echo at `c` runs: nothing
of the next run, and its own start or failure only before the next was asked for. -/
def Passed (c : ℕ) (s : St) : Arrival → Prop
  | .first e => e.type = .runStart ∨ e.type = .error → s.starts = c
  | .second _ => False
  | .other e => ∀ v, e ≠ .event v

/-! ### The flag -/

/-- A run was cancelled at `c` runs, and the flag is up; it knows whether another was asked for. -/
structure View.Cut (c : ℕ) (v : View) : Prop where
  up : v.cancelled ≠ .no
  asked : v.cancelled = .again → c < v.starts
  le : c ≤ v.starts

theorem View.Cut.started {c : ℕ} {v : View} (h : v.Cut c) : v.started.Cut c := by
  have hagain : v.started.cancelled = .again := if_neg h.up
  have hlt : c < v.starts + 1 := Nat.lt_succ_of_le h.le
  refine ⟨?_, fun _ => hlt, hlt.le⟩
  rw [hagain]
  exact nofun

/-- Only an event that tells of a run takes the flag down. -/
theorem View.Cut.move {may : Cause → Prop} {c : ℕ} (htold : ¬ may .told) {v w : View}
    (hmove : Move may v w) (h : v.Cut c) : w.Cut c := by
  cases hmove with
  | start => exact h.started
  | follow => exact View.Cut.started (v := { v with bargeIn := false }) ⟨h.1, h.2, h.3⟩
  | remote => exact h.started
  | cancels => exact ⟨nofun, nofun, h.le⟩
  | tell hno => exact absurd hno htold
  | _ => exact ⟨h.1, h.2, h.3⟩

/-- Where `cancel` ends a run, the flag is up, also if the next run is asked for at once. -/
theorem St.Cancels.cut {s s' : St} (h : s.Cancels s') : s'.view.Cut s.starts := by
  have hyes : ∀ v : View, v.starts = s.starts → View.Cut s.starts { v with cancelled := .yes } :=
    fun v hv => ⟨nofun, nofun, hv.ge⟩
  have hkeeps : ∀ v w : View, Moves (fun _ => False) v w → v.Cut s.starts → w.Cut s.starts :=
    fun v w hmoves => hmoves.keeps (fun _ _ => View.Cut.move id)
  have hfinish : ∀ t : St, t.view.Cut s.starts → t.corePipelineFinish.view.Cut s.starts :=
    fun t ht => hkeeps _ _ (t.finish_moves (.refl _)) ht
  have hcancel : (cancel { s with bargeIn := false, streaming := false }).view.Cut s.starts := by
    rw [cancel_view]
    exact hyes _ rfl
  cases h with
  | quiet => exact hfinish (cancel { s with bargeIn := false, streaming := false }) hcancel
  | said hconn =>
    unfold runCancelled
    rw [if_pos hconn]
    exact hfinish
      { cancel { s with bargeIn := false, streaming := false } with quietAbort := true } hcancel
  | waited hwait =>
    have hended : s.view.streamEnded = { s.view with streaming := false, cancelled := .yes } :=
      if_pos hwait
    rw [corePipelineFinish_view, View.finished, hended]
    exact hkeeps _ _ (.next _) ⟨nofun, nofun, le_rfl⟩

/-! ### Events of the cancelled run -/

/-- The flag drops an event of the cancelled run. -/
theorem St.drops_of_cut {c : ℕ} {s : St} {e : VaEvent} (h : s.view.Cut c)
    (he : e.type = .runStart ∨ e.type = .error → s.starts = c) : s.dropsEvent e.type = true := by
  unfold dropsEvent
  have hup : s.cancelled ≠ .no := h.up
  cases hc : s.cancelled with
  | no => exact absurd hc hup
  | yes => rfl
  | again =>
    have hlt : c < s.starts := h.asked hc
    have hstart : e.type ≠ .runStart := fun ht => by
      have := he (.inl ht)
      omega
    have herror : e.type ≠ .error := fun ht => by
      have := he (.inr ht)
      omega
    simp [hstart, herror]

/-- What is dropped leaves at most its URL. -/
theorem St.onEvent_drops {s : St} {e : VaEvent} (h : s.dropsEvent e.type = true) :
    s.onEvent e = { s with ttsUrl := (s.onEvent e).ttsUrl } := by
  have hdrop : ∀ t : St, t.cancelled = s.cancelled →
      (if t.dropsEvent e.type then t else t.takeEvent e) = t := by
    intro t ht
    have htrue : t.dropsEvent e.type = true := by
      unfold dropsEvent at h ⊢
      rw [ht]
      exact h
    rw [if_pos htrue]
  simp only [onEvent]
  cases e.url with
  | none => rw [hdrop s rfl]
  | some u => rw [hdrop { s with ttsUrl := u.take 1023 } rfl]

theorem St.cut_arrive {c : ℕ} (s : St) (a : Arrival) (h : s.view.Cut c) (ha : Passed c s a) :
    (s.arrive a).view.Cut c := by
  cases a with
  | first e =>
    have hdrops := s.onEvent_drops (St.drops_of_cut h ha)
    simp only [arrive, step]
    rw [hdrops]
    exact ⟨h.1, h.2, h.3⟩
  | second e => exact absurd ha id
  | other e =>
    have htold : ¬ s.may e .told := by
      intro htold
      cases e with
      | event v => exact ha v rfl
      | _ => exact Bool.false_ne_true htold
    exact (s.step_moves e).keeps (fun _ _ => View.Cut.move htold) h

/-- **An event of a cancelled run changes nothing** but the flag and the URL of the next reply,
if nothing of the next run came before it, nor its own start or failure once the next was asked
for. -/
theorem cancelled_dropped {s s' : St} (hcancel : s.Cancels s') (pre : List Arrival) (e : VaEvent)
    (hpre : Runs.Each St.arrive (Passed s.starts) s' pre) (herror : e.type ≠ .error) :
    (pre.foldl St.arrive s').arrive (.first e) =
      { pre.foldl St.arrive s' with
        cancelled := ((pre.foldl St.arrive s').arrive (.first e)).cancelled
        ttsUrl := ((pre.foldl St.arrive s').arrive (.first e)).ttsUrl } := by
  have hcut := Runs.invariant St.cut_arrive hcancel.cut hpre
  generalize pre.foldl St.arrive s' = t at hcut
  by_cases hdrops : t.dropsEvent e.type = true
  · have hsame := t.onEvent_drops hdrops
    simp only [St.arrive, St.step]
    rw [hsame]
  · -- taken for the start of the next run, it clears the flag and does no more
    have hstart : e.type = .runStart := by
      by_contra hne
      refine hdrops (St.drops_of_cut hcut ?_)
      rintro (hs | he)
      · exact absurd hs hne
      · exact absurd he herror
    have htake : ∀ u : St, u.dropsEvent e.type = false →
        (if u.dropsEvent e.type then u else u.takeEvent e) = { u with cancelled := .no } := by
      intro u hu
      rw [if_neg (by simp [hu])]
      simp [St.takeEvent, hstart]
    simp only [St.arrive, St.step, St.onEvent]
    cases e.url with
    | none => rw [htake t (by simpa using hdrops)]
    | some u => rw [htake { t with ttsUrl := u.take 1023 } (by simpa [St.dropsEvent] using hdrops)]

/-- The button cancels a run and asks for another; events of the first are on their way. -/
def askedAgain : List Arrival := [.other (.trigger true 0), .first { type := .sttStart }]

theorem askedAgain_passed (c : ℕ) (s : St) : Runs.Each St.arrive (Passed c) s askedAgain :=
  ⟨fun _ h => Ev.noConfusion h, fun h => absurd h (by simp), trivial⟩

/-- The end of the first run leaves the second, which streams, as it is. -/
theorem cancelled_dropped_askedAgain :
    (askedAgain.foldl St.arrive ((St.init true).run pressed).quietCancel).streaming = true ∧
      ((askedAgain.foldl St.arrive ((St.init true).run pressed).quietCancel).arrive
        (.first { type := .runEnd })).toCore =
        (askedAgain.foldl St.arrive ((St.init true).run pressed).quietCancel).toCore := by
  have hsame := cancelled_dropped (.quiet ((St.init true).run pressed)) askedAgain
    { type := .runEnd } (askedAgain_passed _ _) nofun
  exact ⟨by decide, congrArg St.toCore hsame⟩

/-- The orders that are possible: each run's start is its first event, and nothing of the first
run comes behind what follows the start of the second. -/
structure Ordered (l : List Arrival) : Prop where
  apart : ∀ v, Arrival.other (.event v) ∉ l
  first : l.Pairwise fun a b => ∀ e e', a = .first e → b = .first e' → e'.type ≠ .runStart
  second : l.Pairwise fun a b => ∀ e e', a = .second e → b = .second e' → e'.type ≠ .runStart
  between : l.Pairwise fun a b => ∀ e e', a = .second e → b = .first e' → e.type = .runStart

/-- The run is cancelled before its start is told, and another asked for. -/
def startedLate : List Arrival := [.other (.trigger true 0), .first { type := .runStart }]

theorem startedLate_ordered : Ordered (startedLate ++ [.first { type := .runEnd }]) where
  apart := by simp [startedLate]
  first := by
    simp only [startedLate, cons_append, nil_append, pairwise_cons, mem_cons,
      not_mem_nil, or_false]
    refine ⟨?_, ?_, fun _ h => absurd h id, .nil⟩
    · intro b _ e e' hfirst
      exact Arrival.noConfusion hfirst
    · intro b hb e e' _ he
      rw [hb, Arrival.first.injEq] at he
      rw [← he]
      exact EvType.noConfusion
  second := by simp [startedLate]
  between := by simp [startedLate]

/-- The start of the first run is taken for that of the second, and its end ends the second. -/
theorem cancelled_ends_next :
    ¬ ∀ (k : List Ev) (s' : St) (l : List Arrival), ((St.init true).run k).Cancels s' → Ordered l →
      ∀ pre e post, l = pre ++ .first e :: post → e.type ≠ .error →
        ((pre.foldl St.arrive s').arrive (.first e)).toCore = (pre.foldl St.arrive s').toCore := by
  intro h
  have hsame := h pressed _ _ (.quiet _) startedLate_ordered startedLate { type := .runEnd } [] rfl
    nofun
  have hends : ((startedLate.foldl St.arrive ((St.init true).run pressed).quietCancel).arrive
      (.first { type := .runEnd })).streaming = false := by decide
  have hstreams : (startedLate.foldl St.arrive ((St.init true).run pressed).quietCancel).streaming
      = true := by decide
  exact Bool.false_ne_true (hends.symm.trans ((congrArg Core.streaming hsame).trans hstreams))

end Hassmic.Voice
