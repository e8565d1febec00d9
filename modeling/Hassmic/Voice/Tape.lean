import Hassmic.Voice.Esphome

/-!
# What a step does to the media

A reply, an announcement or a piece of media has the one slot: its job is held while the media
thread fetches and plays it, then it pushes the end of the audio, which is played out last.
The flags that say so are set by the media threads, the playback thread and whatever comes
from Home Assistant, but in few ways: these are the moves, each with what the source checks
before it.

## Main definitions

* `Tape` — the queue, the jobs and the flags.
* `Roll` — the moves; `Need` is what some of them need.
* `Slot`, `Tape.At` — whose turn it is, and what the flags say about it.

## Main results

* `Tape.At.roll` — the slot is free, held, pushing or stopping, whatever happens.
-/

namespace Hassmic.Voice

open Function List Option

/-! ### The tape -/

/-- What is seen of the media. -/
structure Tape where
  queue : List Item
  player : Player
  flush : Bool
  wakeCut : Bool
  state : Phase
  ttsExpected : Bool
  announcing : Bool
  mediaPlaying : Bool
  mediaBusy : Bool
  mediaCur : Option ℕ
  jobs : ℕ → Option Job
  njobs : ℕ
  /-- How often `VA_ANNOUNCE_FINISHED` was sent. -/
  answers : ℕ

/-- Its audio began to play. -/
def Job.Begun (job : Job) : Prop := job.began = true ∨ ∃ i, job.pc = .playing i

/-- A job that goes on. -/
structure Job.Goes (job job' : Job) : Prop where
  aborted : job'.aborted = job.aborted
  announce : job'.announce = job.announce
  before : job.pc ≠ .pushing
  after : job'.pc ≠ .pushing
  begun : job.Begun → job'.Begun

/-- A job that does not play goes on to another place. -/
theorem Job.goes_pc (job : Job) (fd : Bool) {pc : Pc} (hpc : job.pc ≠ .pushing)
    (hplay : ∀ i, job.pc ≠ .playing i) (hpc' : pc ≠ .pushing) :
    job.Goes { job with fd := fd, pc := pc } where
  aborted := rfl
  announce := rfl
  before := hpc
  after := hpc'
  begun := by
    rintro (hb | ⟨i, hi⟩)
    · exact .inl hb
    · exact absurd hi (hplay i)

/-- `VA_ANNOUNCE_FINISHED`. -/
def Out.isAnswer : Out → Bool
  | .announceFinished _ => true
  | _ => false

/-- What some moves need. -/
inductive Need
  /-- `cancel` is called. -/
  | cancels
  /-- The media player is told to stop. -/
  | halts
  /-- `tts_begin` is called. -/
  | begins
  /-- An announcement is asked for. -/
  | announces
  /-- A reply is taken. -/
  | replies
  /-- Media is played. -/
  | plays

/-- A move, where `may` says what is met, and at which tape. -/
inductive Roll (may : Need → Tape → Prop) : Tape → Tape → Prop
  /-- The ring shows something else than a reply, or a run is started. -/
  | ease (t : Tape) (p : Phase) (b : Bool) (hp : p = t.state ∨ p ≠ .speaking) :
      Roll may t { t with state := p, ttsExpected := t.ttsExpected && b }
  | expect (t : Tape) : Roll may t { t with ttsExpected := true }
  /-- `cancel` lets go of the job that is held, and the run ends. -/
  | letGo (t : Tape) (j : ℕ) (p : Phase) (b : Bool) (h : may .cancels t)
      (he : t.ttsExpected = true) (hj : t.mediaCur = some j) (hp : p ≠ .speaking) :
      Roll may t { t with
        jobs := Function.update t.jobs j ((t.jobs j).map fun job => { job with aborted := true })
        mediaCur := none
        mediaPlaying := false
        mediaBusy := false
        state := p
        ttsExpected := t.ttsExpected && b }
  /-- What is spoken is cut. -/
  | cut (t : Tape) (h : t.state = .speaking) : Roll may t { t with flush := true }
  | wakeCut (t : Tape) (h : t.state = .speaking) :
      Roll may t { t with flush := true, wakeCut := true, state := .listening }
  | halt (t : Tape) (h : may .halts t) (hp : t.mediaPlaying = true) :
      Roll may t { t with flush := true }
  | uncut (t : Tape) : Roll may t { t with wakeCut := false }
  /-- What is asked for is refused. -/
  | refuse (t : Tape) (h : may .announces t ∨ may .replies t ∧ t.mediaBusy = true) :
      Roll may t { t with answers := t.answers + 1 }
  /-- A job is started. -/
  | start (t : Tape) (job : Job) (h : t.mediaBusy = false)
      (hjob : job.aborted = false ∧ job.began = false ∧ job.pc = .top 0)
      (ha : may .announces t ∨ may .replies t ∨ job.announce = false ∧ may .plays t) :
      Roll may t { t with
        jobs := Function.update t.jobs t.njobs (some job)
        njobs := t.njobs + 1
        mediaCur := some t.njobs
        announcing := job.announce
        mediaPlaying := true
        mediaBusy := true }
  | goes (t : Tape) (j : ℕ) (job job' : Job) (h : t.jobs j = some job) (hgoes : job.Goes job') :
      Roll may t { t with jobs := Function.update t.jobs j (some job') }
  /-- Its audio begins. -/
  | begins (t : Tape) (j : ℕ) (job job' : Job) (it : Item) (h : t.jobs j = some job)
      (hmay : may .begins t) (ha : job.aborted = false) (hgoes : job.Goes job') (hb : job'.Begun)
      (hit : it ≠ .stop) :
      Roll may t { t with
        jobs := Function.update t.jobs j (some job')
        queue := t.queue ++ [it]
        state := .speaking }
  | feeds (t : Tape) (it : Item) (hit : it ≠ .stop) : Roll may t { t with queue := t.queue ++ [it] }
  /-- It is through, and something was played. -/
  | ends (t : Tape) (j : ℕ) (job job' : Job) (h : t.jobs j = some job) (ha : job.aborted = false)
      (hpc : job.pc = .ended) (hb : job.began = true)
      (hjob' : job' = { job with pc := .pushing }) :
      Roll may t { t with
        jobs := Function.update t.jobs j (some job')
        mediaCur := if t.mediaCur = some j then none else t.mediaCur }
  /-- It is through, and nothing was. -/
  | fails (t : Tape) (j : ℕ) (job : Job) (p : Phase) (b : Bool) (h : t.jobs j = some job)
      (ha : job.aborted = false) (hpc : job.pc = .ended) (hb : job.began = false)
      (hp : p ≠ .speaking) :
      Roll may t { t with
        jobs := Function.update t.jobs j none
        mediaCur := if t.mediaCur = some j then none else t.mediaCur
        announcing := t.announcing && !job.announce
        answers := t.answers + job.announce.toNat
        mediaPlaying := false
        mediaBusy := false
        state := p
        ttsExpected := t.ttsExpected && b }
  /-- It was let go. -/
  | drops (t : Tape) (j : ℕ) (job : Job) (h : t.jobs j = some job) (ha : job.aborted = true) :
      Roll may t { t with jobs := Function.update t.jobs j none }
  | pushes (t : Tape) (j : ℕ) (job : Job) (h : t.jobs j = some job) (hpc : job.pc = .pushing) :
      Roll may t { t with
        jobs := Function.update t.jobs j none
        queue := t.queue ++ [.stop] }
  | takes (t : Tape) (it : Item) (rest : List Item) (h : t.player = .waits)
      (hq : t.queue = it :: rest) : Roll may t { t with queue := rest, player := .has it }
  | skips (t : Tape) (it : Item) (h : t.player = .has it) (hit : it ≠ .stop) :
      Roll may t { t with player := .waits }
  | closes (t : Tape) (h : t.player = .has .stop) : Roll may t { t with player := .closed }
  /-- The end of the audio was played. -/
  | played (t : Tape) (p : Phase) (h : t.player = .closed) (hcut : t.wakeCut = true → p = t.state)
      (hend : t.wakeCut = false → p ≠ .speaking) :
      Roll may t { t with
        player := .waits
        flush := false
        wakeCut := false
        state := p
        announcing := false
        answers := t.answers + t.announcing.toNat
        mediaPlaying := false
        mediaBusy := false
        ttsExpected := false }

/-! ### The slot -/

/-- Whose turn it is. -/
inductive Slot
  /-- Nothing is under way. -/
  | free
  /-- A job is held. -/
  | held (j : ℕ)
  /-- It is about to push the end of its audio. -/
  | pushing (j : ℕ)
  /-- The end is queued or being played. -/
  | stopping
  deriving DecidableEq

/-- How often the end of the audio is on its way. -/
def Tape.stops (t : Tape) : ℕ :=
  t.queue.count .stop + (if t.player = .has .stop ∨ t.player = .closed then 1 else 0)

/-- The slot is at `x`, and the flags say so. -/
structure Tape.At (t : Tape) (x : Slot) : Prop where
  busy : t.mediaBusy = true ↔ x ≠ .free
  cur : ∀ j, t.mediaCur = some j ↔ x = .held j
  /-- Every job that was not let go has the slot. -/
  job : ∀ j job, t.jobs j = some job →
    job.aborted = true ∧ job.pc ≠ .pushing ∨
      x = .held j ∧ job.aborted = false ∧ job.pc ≠ .pushing ∨
      x = .pushing j ∧ job.aborted = false ∧ job.pc = .pushing ∧ job.began = true
  /-- And the slot has its job. -/
  some : ∀ j, x = .held j ∨ x = .pushing j → ∃ job, t.jobs j = .some job ∧ job.aborted = false
  stops : t.stops = if x = .stopping then 1 else 0
  fresh : ∀ j, t.njobs ≤ j → t.jobs j = none

namespace Tape.At

variable {t : Tape} {x : Slot}

theorem cur_none (h : t.At x) (hfree : t.mediaBusy = false) : t.mediaCur = none := by
  by_contra hne
  obtain ⟨j, hj⟩ := ne_none_iff_exists'.mp hne
  have hheld : x = .held j := (h.cur j).mp hj
  have hbusy := h.busy.mpr (by rw [hheld]; exact nofun)
  exact Bool.false_ne_true (hfree.symm.trans hbusy)

variable {j : ℕ} {job : Job} {t' : Tape}

/-- A job that was not let go is the one of the slot. -/
theorem held_of_job (h : t.At x) (hj : t.jobs j = .some job)
    (ha : job.aborted = false) (hpc : job.pc ≠ .pushing) : x = .held j := by
  rcases h.job j job hj with ⟨hno, _⟩ | ⟨hx, _⟩ | ⟨_, _, hno, _⟩
  · exact absurd (ha.symm.trans hno) Bool.false_ne_true
  · exact hx
  · exact absurd hno hpc

theorem pushing_of_job (h : t.At x) (hj : t.jobs j = .some job)
    (hpc : job.pc = .pushing) : x = .pushing j := by
  rcases h.job j job hj with ⟨_, hno⟩ | ⟨_, _, hno⟩ | ⟨hx, _⟩
  · exact absurd hpc hno
  · exact absurd hpc hno
  · exact hx

/-- The others were let go. -/
theorem gone (h : t.At x) (hj : t.jobs j = .some job)
    (hx : x ≠ .held j ∧ x ≠ .pushing j) : job.aborted = true ∧ job.pc ≠ .pushing := by
  rcases h.job j job hj with hgone | ⟨hno, _⟩ | ⟨hno, _⟩
  · exact hgone
  · exact absurd hno hx.1
  · exact absurd hno hx.2

/-- A job that runs was started. -/
theorem fresh_update (h : t.At x) (hj : t.jobs j = .some job)
    (o : Option Job) : ∀ k, t.njobs ≤ k → Function.update t.jobs j o k = none := by
  intro k hk
  have hne : k ≠ j := by
    rintro rfl
    rw [h.fresh k hk] at hj
    exact nomatch hj
  rw [update_of_ne hne]
  exact h.fresh k hk

/-- What the slot says does not depend on the rest. -/
theorem congr (h : t.At x)
    (ht : (t'.mediaBusy, t'.mediaCur, t'.jobs, t'.njobs) =
      (t.mediaBusy, t.mediaCur, t.jobs, t.njobs))
    (hstops : t'.stops = t.stops) : t'.At x := by
  simp only [Prod.mk.injEq] at ht
  obtain ⟨hbusy, hcur, hjobs, hnjobs⟩ := ht
  constructor
  · rw [hbusy]; exact h.busy
  · rw [hcur]; exact h.cur
  · rw [hjobs]; exact h.job
  · rw [hjobs]; exact h.some
  · rw [hstops]; exact h.stops
  · rw [hjobs, hnjobs]; exact h.fresh

/-- A job goes on, at the same place of its life. -/
theorem update (h : t.At x) {job' : Job} (hj : t.jobs j = .some job)
    (hgoes : job.Goes job') :
    Tape.At { t with jobs := Function.update t.jobs j (.some job') } x where
  busy := h.busy
  cur := h.cur
  job := by
    intro k job₁ hk
    by_cases hkj : k = j
    · subst hkj
      simp only [update_self, Option.some.injEq] at hk
      subst hk
      rw [hgoes.aborted]
      rcases h.job k job hj with ⟨ha, _⟩ | ⟨hx, ha, _⟩ | ⟨_, _, hno, _⟩
      · exact .inl ⟨ha, hgoes.after⟩
      · exact .inr (.inl ⟨hx, ha, hgoes.after⟩)
      · exact absurd hno hgoes.before
    · simp only [update_of_ne hkj] at hk
      exact h.job k job₁ hk
  some := by
    intro k hx
    obtain ⟨job₁, hk, ha⟩ := h.some k hx
    by_cases hkj : k = j
    · subst hkj
      obtain rfl : job = job₁ := some.inj (hj.symm.trans hk)
      exact ⟨job', update_self .., hgoes.aborted.trans ha⟩
    · simp only [update_of_ne hkj]
      exact ⟨job₁, hk, ha⟩
  stops := h.stops
  fresh := h.fresh_update hj _

/-- A job's thread ends, which leaves only jobs that were let go. -/
theorem erase (h : t.At x) (hj : t.jobs j = .some job)
    (hx : x = .held j ∨ x = .pushing j) {k : ℕ} {job₁ : Job}
    (hk : Function.update t.jobs j none k = .some job₁) :
    job₁.aborted = true ∧ job₁.pc ≠ .pushing := by
  have hkj : k ≠ j := by
    rintro rfl
    rw [update_self] at hk
    exact nomatch hk
  rw [update_of_ne hkj] at hk
  refine h.gone hk ?_
  rcases hx with rfl | rfl
  · exact ⟨fun he => hkj (Slot.held.inj he).symm, nofun⟩
  · exact ⟨nofun, fun he => hkj (Slot.pushing.inj he).symm⟩

/-- The job that is held is let go: the slot is free. -/
theorem letGo (h : t.At x) (hj : t.mediaCur = .some j) :
    Tape.At { t with
      jobs := Function.update t.jobs j ((t.jobs j).map fun job => { job with aborted := true })
      mediaCur := none
      mediaPlaying := false
      mediaBusy := false } .free := by
  obtain rfl : x = .held j := (h.cur j).mp hj
  obtain ⟨job, hjob, _⟩ := h.some j (.inl rfl)
  refine ⟨by simp, by simp, ?_, by simp, h.stops, h.fresh_update hjob _⟩
  intro k job₁ hk
  left
  by_cases hkj : k = j
  · subst hkj
    simp only [update_self, hjob, map_some, Option.some.injEq] at hk
    subst hk
    rcases h.job k job hjob with ⟨_, hpc⟩ | ⟨_, _, hpc⟩ | ⟨hno, _⟩
    · exact ⟨rfl, hpc⟩
    · exact ⟨rfl, hpc⟩
    · exact nomatch hno
  · simp only [update_of_ne hkj] at hk
    exact h.gone hk ⟨fun he => hkj (Slot.held.inj he).symm, nofun⟩

/-- A job is started in the free slot. -/
theorem start (h : t.At x) (hfree : t.mediaBusy = false)
    (hjob : job.aborted = false ∧ job.began = false ∧ job.pc = .top 0) :
    Tape.At { t with
      jobs := Function.update t.jobs t.njobs (.some job)
      njobs := t.njobs + 1
      mediaCur := .some t.njobs
      announcing := job.announce
      mediaPlaying := true
      mediaBusy := true } (.held t.njobs) := by
  obtain rfl : x = .free := by
    by_contra hne
    exact Bool.false_ne_true (hfree.symm.trans (h.busy.mpr hne))
  refine ⟨by simp, by simp, ?_, ?_, h.stops, ?_⟩
  · intro k job₁ hk
    by_cases hkj : k = t.njobs
    · subst hkj
      simp only [update_self, Option.some.injEq] at hk
      subst hk
      exact .inr (.inl ⟨rfl, hjob.1, by simp [hjob.2.2]⟩)
    · simp only [update_of_ne hkj] at hk
      exact .inl (h.gone hk ⟨nofun, nofun⟩)
  · rintro k (hk | hk)
    · rw [Slot.held.injEq] at hk
      subst hk
      exact ⟨job, update_self .., hjob.1⟩
    · exact nomatch hk
  · intro k hk
    have hk' : t.njobs + 1 ≤ k := hk
    have hne : k ≠ t.njobs := by omega
    simp only [update_of_ne hne]
    exact h.fresh k (by omega)

/-- The job that is held is through, and pushes the end of its audio next. -/
theorem ends (h : t.At x) (hj : t.jobs j = .some job)
    (ha : job.aborted = false) (hpc : job.pc ≠ .pushing) (hb : job.began = true) :
    Tape.At { t with
      jobs := Function.update t.jobs j (.some { job with pc := .pushing })
      mediaCur := if t.mediaCur = .some j then none else t.mediaCur } (.pushing j) := by
  obtain rfl : x = .held j := h.held_of_job hj ha hpc
  have hcur : t.mediaCur = .some j := (h.cur j).mpr rfl
  refine ⟨?_, by simp [hcur], ?_, ?_, h.stops, h.fresh_update hj _⟩
  · have hbusy := h.busy.mpr nofun
    simp [hbusy]
  · intro k job₁ hk
    by_cases hkj : k = j
    · subst hkj
      simp only [update_self, Option.some.injEq] at hk
      subst hk
      exact .inr (.inr ⟨rfl, ha, rfl, hb⟩)
    · simp only [update_of_ne hkj] at hk
      exact .inl (h.gone hk ⟨fun he => hkj (Slot.held.inj he).symm, nofun⟩)
  · rintro k (hk | hk)
    · exact nomatch hk
    · rw [Slot.pushing.injEq] at hk
      subst hk
      exact ⟨_, update_self .., ha⟩

/-- The job that is held is through and nothing was played: the slot is free. -/
theorem fails (h : t.At x) (hj : t.jobs j = .some job)
    (ha : job.aborted = false) (hpc : job.pc ≠ .pushing)
    (hjobs : t'.jobs = Function.update t.jobs j none)
    (hcur : t'.mediaCur = if t.mediaCur = .some j then none else t.mediaCur)
    (hbusy : t'.mediaBusy = false) (hnjobs : t'.njobs = t.njobs) (hstops : t'.stops = t.stops) :
    t'.At .free := by
  obtain rfl : x = .held j := h.held_of_job hj ha hpc
  have hcur' : t'.mediaCur = none := by
    rw [hcur, if_pos ((h.cur j).mpr rfl)]
  refine ⟨by simp [hbusy], by simp [hcur'], ?_, by simp, hstops.trans h.stops, ?_⟩
  · intro k job₁ hk
    rw [hjobs] at hk
    exact .inl (h.erase hj (.inl rfl) hk)
  · rw [hjobs, hnjobs]
    exact h.fresh_update hj _

/-- A job that was let go ends. -/
theorem drops (h : t.At x) (hj : t.jobs j = .some job)
    (ha : job.aborted = true) : Tape.At { t with jobs := Function.update t.jobs j none } x where
  busy := h.busy
  cur := h.cur
  job := by
    intro k job₁ hk
    by_cases hkj : k = j
    · subst hkj
      simp at hk
    · simp only [update_of_ne hkj] at hk
      exact h.job k job₁ hk
  some := by
    intro k hx
    obtain ⟨job₁, hk, ha₁⟩ := h.some k hx
    have hkj : k ≠ j := by
      rintro rfl
      obtain rfl : job = job₁ := some.inj (hj.symm.trans hk)
      exact Bool.false_ne_true (ha₁.symm.trans ha)
    simp only [update_of_ne hkj]
    exact ⟨job₁, hk, ha₁⟩
  stops := h.stops
  fresh := h.fresh_update hj _

/-- The end of the audio is pushed. -/
theorem pushes (h : t.At x) (hj : t.jobs j = .some job)
    (hpc : job.pc = .pushing) :
    Tape.At { t with
      jobs := Function.update t.jobs j none
      queue := t.queue ++ [.stop] } .stopping := by
  obtain rfl : x = .pushing j := h.pushing_of_job hj hpc
  have hstops : t.stops = 0 := h.stops
  refine ⟨?_, ?_, ?_, by simp, ?_, h.fresh_update hj _⟩
  · have hbusy := h.busy.mpr nofun
    simp [hbusy]
  · intro k
    have hcur := h.cur k
    simpa using hcur
  · intro k job₁ hk
    exact .inl (h.erase hj (.inr rfl) hk)
  · simp only [Tape.stops, count_append] at hstops ⊢
    simp only [count_singleton_self, if_true]
    omega

theorem stops_append (t : Tape) {it : Item} (hit : it ≠ .stop) :
    Tape.stops { t with queue := t.queue ++ [it] } = t.stops := by
  have hcount : (t.queue ++ [it]).count .stop = t.queue.count .stop := by
    rw [count_append, count_singleton, if_neg (by simpa using hit)]
    rfl
  simp only [Tape.stops, hcount]

/-- An item goes from the queue to the player. -/
theorem stops_takes {it : Item} {rest : List Item} (hp : t.player = .waits)
    (hq : t.queue = it :: rest) :
    Tape.stops { t with queue := rest, player := .has it } = t.stops := by
  simp only [Tape.stops, hp, hq, count_cons]
  by_cases hit : it = .stop
  · simp [hit]
  · simp [hit]

theorem stops_skips {it : Item} (hp : t.player = .has it) (hit : it ≠ .stop) :
    Tape.stops { t with player := .waits } = t.stops := by
  simp [Tape.stops, hp, hit]

theorem stops_closes (hp : t.player = .has .stop) :
    Tape.stops { t with player := .closed } = t.stops := by
  simp [Tape.stops, hp]

/-- The end of the audio was played: the slot is free. -/
theorem played (h : t.At x) (hp : t.player = .closed) (hjobs : t'.jobs = t.jobs)
    (hcur : t'.mediaCur = t.mediaCur) (hbusy : t'.mediaBusy = false)
    (hnjobs : t'.njobs = t.njobs) (hqueue : t'.queue = t.queue) (hplayer : t'.player = .waits) :
    t'.At .free := by
  have hstops := h.stops
  obtain rfl : x = .stopping := by
    by_contra hne
    rw [if_neg hne] at hstops
    simp [Tape.stops, hp] at hstops
  refine ⟨by simp [hbusy], ?_, ?_, by simp, ?_, ?_⟩
  · intro j
    have hj := h.cur j
    rw [hcur]
    simpa using hj
  · intro j job hj
    rw [hjobs] at hj
    exact .inl (h.gone hj ⟨nofun, nofun⟩)
  · simp only [Tape.stops, hp, hqueue, hplayer] at hstops ⊢
    simp at hstops ⊢
    omega
  · rw [hjobs, hnjobs]
    exact h.fresh

/-- **The slot is at one place, whatever happens.** -/
theorem roll {may : Need → Tape → Prop} (hroll : Roll may t t') (h : t.At x) :
    ∃ y, t'.At y := by
  cases hroll with
  | ease => exact ⟨x, h.congr rfl rfl⟩
  | expect => exact ⟨x, h.congr rfl rfl⟩
  | letGo j p b _ _ hj => exact ⟨.free, (h.letGo hj).congr rfl rfl⟩
  | cut => exact ⟨x, h.congr rfl rfl⟩
  | wakeCut => exact ⟨x, h.congr rfl rfl⟩
  | halt => exact ⟨x, h.congr rfl rfl⟩
  | uncut => exact ⟨x, h.congr rfl rfl⟩
  | refuse => exact ⟨x, h.congr rfl rfl⟩
  | start job hfree hjob => exact ⟨_, h.start hfree hjob⟩
  | goes j job job' hj hgoes => exact ⟨x, h.update hj hgoes⟩
  | begins j job job' it hj _ _ hgoes _ hit =>
    exact ⟨x, (h.update hj hgoes).congr rfl (stops_append _ hit)⟩
  | feeds it hit => exact ⟨x, h.congr rfl (stops_append t hit)⟩
  | ends j job job' hj ha hpc hb hjob' =>
    subst hjob'
    exact ⟨_, h.ends hj ha (by simp [hpc]) hb⟩
  | fails j job p b hj ha hpc =>
    exact ⟨.free, h.fails hj ha (by simp [hpc]) rfl rfl rfl rfl rfl⟩
  | drops j job hj ha => exact ⟨x, h.drops hj ha⟩
  | pushes j job hj hpc => exact ⟨.stopping, h.pushes hj hpc⟩
  | takes it rest hp hq => exact ⟨x, h.congr rfl (stops_takes hp hq)⟩
  | skips it hp hit => exact ⟨x, h.congr rfl (stops_skips hp hit)⟩
  | closes hp => exact ⟨x, h.congr rfl (stops_closes hp)⟩
  | played p hp => exact ⟨.free, h.played hp rfl rfl rfl rfl rfl rfl⟩

end Tape.At

end Hassmic.Voice
