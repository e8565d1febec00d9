import Hassmic.Voice.Rolls

/-!
# A flush and what clears it

What is spoken is cut by a flag, which only the end of the audio clears.  So while the flag is
set an end has to be on its way, or a job whose audio began and which was not let go.  The
source keeps this wherever it cuts what is spoken, but not everywhere: the media player may be
told to stop while its job is still fetched, a reply may be let go while it is cut, and a
message may begin to play behind the cut of its chime.

## Main definitions

* `St.Clears` — something is left to clear the flag.
* `St.Spares` — a step that does none of the above.

## Main results

* `flush_clears` — the flag is never left set with nothing to clear it.
-/

namespace Hassmic.Voice

open Option Function

/-! ### The invariant -/

/-- An end of the audio is on its way from where the slot is. -/
def Tape.Due (t : Tape) : Slot → Prop
  | .free => False
  | .held j => ∃ job, t.jobs j = some job ∧ job.Begun
  | .pushing _ => True
  | .stopping => True

/-- The flag is cleared, and so will be what is cut next. -/
structure Tape.Clear (t : Tape) (x : Slot) : Prop where
  slot : t.At x
  flush : t.flush = true → t.Due x
  speaks : t.state = .speaking → t.Due x
  cut : t.wakeCut = true → t.state ≠ .speaking
  playing : t.mediaPlaying = true → x ≠ .free

/-- What the moves of a step must not meet. -/
structure Tape.Spared (may : Need → Tape → Prop) : Prop where
  halts : ∀ t, may .halts t → t.mediaPlaying = true → ∀ j job, t.mediaCur = some j →
    t.jobs j = some job → job.Begun
  cancels : ∀ t, may .cancels t → t.flush = true → t.ttsExpected = true → ∀ j job,
    t.mediaCur = some j → t.jobs j = some job → ¬ job.Begun
  begins : ∀ t, may .begins t → t.wakeCut = false

namespace Tape.Clear

variable {t : Tape} {x : Slot}

/-- A job that goes on is as far as it was. -/
theorem due_update (h : t.At x) {j : ℕ} {job job' : Job} (hj : t.jobs j = some job)
    (hbegun : job.Begun → job'.Begun) (hdue : t.Due x) :
    Tape.Due { t with jobs := update t.jobs j (some job') } x := by
  cases x with
  | free => exact hdue
  | held k =>
    obtain ⟨job₁, hk, hb⟩ := hdue
    by_cases hkj : k = j
    · subst hkj
      obtain rfl : job = job₁ := some.inj (hj.symm.trans hk)
      exact ⟨job', update_self .., hbegun hb⟩
    · refine ⟨job₁, ?_, hb⟩
      simp only [update_of_ne hkj]
      exact hk
  | pushing k => trivial
  | stopping => trivial

/-- The end of a job that was let go takes nothing away. -/
theorem due_drops (h : t.At x) {j : ℕ} {job : Job} (hj : t.jobs j = some job)
    (ha : job.aborted = true) (hdue : t.Due x) :
    Tape.Due { t with jobs := update t.jobs j none } x := by
  cases x with
  | free => exact hdue
  | held k =>
    obtain ⟨job₁, hk, hb⟩ := hdue
    obtain ⟨job₂, hk₂, ha₂⟩ := h.some k (.inl rfl)
    have hkj : k ≠ j := by
      rintro rfl
      obtain rfl : job = job₂ := some.inj (hj.symm.trans hk₂)
      exact Bool.false_ne_true (ha₂.symm.trans ha)
    refine ⟨job₁, ?_, hb⟩
    simp only [update_of_ne hkj]
    exact hk
  | pushing k => trivial
  | stopping => trivial

/-- Every move keeps an end on its way. -/
theorem roll {may : Need → Tape → Prop} (hs : Tape.Spared may) {t' : Tape}
    (hroll : Roll may t t') (h : t.Clear x) : ∃ y, t'.Clear y := by
  cases hroll with
  | ease p b hp =>
    have hkeep : p = .speaking → t.state = .speaking := by
      rintro rfl
      exact hp.elim Eq.symm (fun hne => absurd rfl hne)
    refine ⟨x, h.slot.congr rfl rfl, h.flush, fun hsp => h.speaks (hkeep hsp), ?_,
      h.playing⟩
    exact fun hcut hsp => h.cut hcut (hkeep hsp)
  | expect =>
    exact ⟨x, h.slot.congr rfl rfl, h.flush, h.speaks, h.cut, h.playing⟩
  | letGo j p b hmay he hj hp =>
    refine ⟨.free, (h.slot.letGo hj).congr rfl rfl, ?_, fun hsp => hp hsp,
      fun _ => hp, nofun⟩
    -- what is cut and let go would be the defect
    intro hflush
    have hx : x = .held j := (h.slot.cur j).mp hj
    have hdue := h.flush hflush
    rw [hx] at hdue
    obtain ⟨job, hjob, hb⟩ := hdue
    exact hs.cancels t hmay hflush he j job hj hjob hb
  | cut hsp =>
    exact ⟨x, h.slot.congr rfl rfl, fun _ => h.speaks hsp, h.speaks, h.cut, h.playing⟩
  | wakeCut hsp =>
    exact ⟨x, h.slot.congr rfl rfl, fun _ => h.speaks hsp, nofun, nofun, h.playing⟩
  | halt hmay hp =>
    refine ⟨x, h.slot.congr rfl rfl, fun _ => ?_, h.speaks, h.cut, h.playing⟩
    cases x with
    | free => exact h.playing hp rfl
    | held j =>
      obtain ⟨job, hj, _⟩ := h.slot.some j (.inl rfl)
      exact ⟨job, hj, hs.halts t hmay hp j job ((h.slot.cur j).mpr rfl) hj⟩
    | pushing j => trivial
    | stopping => trivial
  | uncut =>
    exact ⟨x, h.slot.congr rfl rfl, h.flush, h.speaks, nofun, h.playing⟩
  | refuse =>
    exact ⟨x, h.slot.congr rfl rfl, h.flush, h.speaks, h.cut, h.playing⟩
  | start job hfree hjob =>
    -- nothing was due in the free slot, so nothing is cut and nothing is spoken
    have hx : x = .free := by
      by_contra hne
      exact Bool.false_ne_true (hfree.symm.trans (h.slot.busy.mpr hne))
    subst hx
    refine ⟨_, h.slot.start hfree hjob, fun hflush => (h.flush hflush).elim,
      fun hsp => (h.speaks hsp).elim, h.cut, fun _ => nofun⟩
  | goes j job job' hj hgoes =>
    exact ⟨x, h.slot.update hj hgoes,
      fun hflush => due_update h.slot hj hgoes.begun (h.flush hflush),
      fun hsp => due_update h.slot hj hgoes.begun (h.speaks hsp), h.cut, h.playing⟩
  | begins j job job' it hj hmay ha hgoes hb hit =>
    have hx : x = .held j := h.slot.held_of_job hj ha hgoes.before
    subst hx
    have hdue : Tape.Due { t with
        jobs := update t.jobs j (some job')
        queue := t.queue ++ [it]
        state := .speaking } (.held j) := ⟨job', update_self .., hb⟩
    refine ⟨.held j, (h.slot.update hj hgoes).congr rfl (Tape.At.stops_append _ hit),
      fun _ => hdue, fun _ => hdue, ?_, h.playing⟩
    intro hcut
    exact absurd ((hs.begins t hmay).symm.trans hcut) Bool.false_ne_true
  | feeds it hit =>
    refine ⟨x, h.slot.congr rfl (Tape.At.stops_append t hit), ?_, ?_, h.cut, h.playing⟩
    · intro hflush
      cases x <;> exact h.flush hflush
    · intro hsp
      cases x <;> exact h.speaks hsp
  | ends j job job' hj ha hpc hb hjob' =>
    subst hjob'
    exact ⟨_, h.slot.ends hj ha (by simp [hpc]) hb, fun _ => trivial, fun _ => trivial, h.cut,
      fun _ => nofun⟩
  | fails j job p b hj ha hpc hb hp =>
    have hx : x = .held j := h.slot.held_of_job hj ha (by simp [hpc])
    refine ⟨.free, h.slot.fails hj ha (by simp [hpc]) rfl rfl rfl rfl rfl, ?_, fun hsp => hp hsp,
      fun _ => hp, nofun⟩
    -- nothing of it was played, so nothing was cut
    intro hflush
    have hdue := h.flush hflush
    rw [hx] at hdue
    obtain ⟨job₁, hj₁, hbegun⟩ := hdue
    obtain rfl : job = job₁ := some.inj (hj.symm.trans hj₁)
    rcases hbegun with hno | ⟨i, hi⟩
    · exact Bool.false_ne_true (hb.symm.trans hno)
    · rw [hpc] at hi
      exact Pc.noConfusion hi
  | drops j job hj ha =>
    exact ⟨x, h.slot.drops hj ha, fun hflush => due_drops h.slot hj ha (h.flush hflush),
      fun hsp => due_drops h.slot hj ha (h.speaks hsp), h.cut, h.playing⟩
  | pushes j job hj hpc =>
    exact ⟨.stopping, h.slot.pushes hj hpc, fun _ => trivial, fun _ => trivial, h.cut,
      fun _ => nofun⟩
  | takes it rest hp hq =>
    refine ⟨x, h.slot.congr rfl (Tape.At.stops_takes hp hq), ?_, ?_, h.cut, h.playing⟩
    · intro hflush
      cases x <;> exact h.flush hflush
    · intro hsp
      cases x <;> exact h.speaks hsp
  | skips it hp hit =>
    refine ⟨x, h.slot.congr rfl (Tape.At.stops_skips hp hit), ?_, ?_, h.cut, h.playing⟩
    · intro hflush
      cases x <;> exact h.flush hflush
    · intro hsp
      cases x <;> exact h.speaks hsp
  | closes hp =>
    refine ⟨x, h.slot.congr rfl (Tape.At.stops_closes hp), ?_, ?_, h.cut, h.playing⟩
    · intro hflush
      cases x <;> exact h.flush hflush
    · intro hsp
      cases x <;> exact h.speaks hsp
  | played p hp hcut hend =>
    refine ⟨.free, h.slot.played hp rfl rfl rfl rfl rfl rfl, nofun, ?_, nofun, nofun⟩
    intro hsp
    cases hw : t.wakeCut with
    | true => exact h.cut hw ((hcut hw).symm.trans hsp)
    | false => exact hend hw hsp

end Tape.Clear

/-! ### Runs -/

/-- Something is left to clear the flag: an end of the audio is queued or being played, or a job
whose audio began and that was not let go will push one. -/
def St.Clears (s : St) : Prop :=
  .stop ∈ s.queue ∨ s.player = .has .stop ∨ s.player = .closed ∨
    ∃ j job, s.jobs j = some job ∧ job.aborted = false ∧ job.Begun

/-- A step that cuts nothing of which no end is to come, and takes none away from what is cut. -/
structure St.Spares (s : St) (e : Ev) : Prop where
  /-- The media player is told to stop once its audio began. -/
  halts : ∀ hasUrl url announcement, e = .mpCommand true true hasUrl url announcement →
    s.mediaPlaying = true → ∀ j job, s.mediaCur = some j → s.jobs j = some job → job.Begun
  /-- A run is not cancelled while its reply is cut. -/
  cancels : s.cancels e = true → s.flush = true → s.ttsExpected = true → ∀ j job,
    s.mediaCur = some j → s.jobs j = some job → ¬ job.Begun
  /-- Nothing begins to play behind what is cut for the wake word at Home Assistant. -/
  begins : ∀ j, e = .media j .begins → s.wakeCut = false

theorem St.Spares.spared {s : St} {e : Ev} (h : s.Spares e) : Tape.Spared (s.needs e) where
  halts := by
    rintro t ⟨⟨hasUrl, url, announcement, he⟩, rfl⟩
    exact h.halts hasUrl url announcement he
  cancels := by
    rintro t ⟨he, rfl⟩
    exact h.cancels he
  begins := by
    rintro t ⟨⟨j, he⟩, rfl⟩
    exact h.begins j he

theorem St.clear_step (s : St) (e : Ev) (h : ∃ x, s.tape.Clear x) (hs : s.Spares e) :
    ∃ x, (s.step e).tape.Clear x := by
  obtain ⟨x, hx⟩ := h
  have hkeeps : ∀ t u, Roll (s.needs e) t u → (∃ x, t.Clear x) → ∃ x, u.Clear x := by
    rintro t u hroll ⟨y, hy⟩
    exact hy.roll hs.spared hroll
  exact (s.step_rolls e hx.slot).keeps hkeeps ⟨x, hx⟩

theorem St.clear_init (b : Bool) : (St.init b).tape.Clear .free where
  slot := St.at_init b
  flush := nofun
  speaks := nofun
  cut := nofun
  playing := nofun

/-- Where an end is due, something clears the flag. -/
theorem St.clears_of_due {s : St} {x : Slot} (hx : s.tape.At x) (hdue : s.tape.Due x) :
    s.Clears := by
  cases x with
  | free => exact hdue.elim
  | held j =>
    obtain ⟨job, hj, hb⟩ := hdue
    obtain ⟨job₁, hj₁, ha⟩ := hx.some j (.inl rfl)
    obtain rfl : job = job₁ := some.inj (hj.symm.trans hj₁)
    exact .inr (.inr (.inr ⟨j, job, hj, ha, hb⟩))
  | pushing j =>
    obtain ⟨job, hj, ha⟩ := hx.some j (.inr rfl)
    rcases hx.job j job hj with ⟨hno, _⟩ | ⟨hno, _⟩ | ⟨_, _, _, hb⟩
    · exact absurd (ha.symm.trans hno) Bool.false_ne_true
    · exact Slot.noConfusion hno
    · exact .inr (.inr (.inr ⟨j, job, hj, ha, .inl hb⟩))
  | stopping =>
    have hstops : s.tape.stops = 1 := hx.stops
    unfold Tape.stops at hstops
    split at hstops
    case isTrue hp => exact .inr (hp.imp id .inl)
    case isFalse =>
      refine .inl (List.count_pos_iff.mp ?_)
      have hcount : s.queue.count .stop + 0 = 1 := hstops
      omega

/-- **A flush never outlives what it cuts**, in a run whose steps neither cut what has no end to
come nor take one away from what is cut: while the flag is set something is left to clear it,
and the end of the audio does. -/
theorem flush_clears (b : Bool) (l : List Ev) (hl : Runs.Each St.step St.Spares (St.init b) l) :
    (((St.init b).run l).flush = true → ((St.init b).run l).Clears) ∧
      (((St.init b).run l).player = .closed → (((St.init b).run l).step .play).flush = false) := by
  obtain ⟨x, hx⟩ := Runs.invariant St.clear_step ⟨.free, St.clear_init b⟩ hl
  refine ⟨fun hflush => St.clears_of_due hx.slot (hx.flush hflush), fun hclosed => ?_⟩
  obtain ⟨p, _, _, hplay⟩ := ((St.init b).run l).play_closed hclosed
  exact congrArg Tape.flush hplay

/-- Media is asked for, fetched, and begins to play. -/
def playsMedia : List Ev :=
  [.mpCommand false false true [104] false, .media 0 .looks, .media 0 .looks,
    .media 0 (.fetched true), .media 0 (.wav 16000 1), .media 0 .begins]

/-- The media player is told to stop. -/
def mpStop : Ev := .mpCommand true true false [] false

/-- It is told so while it plays. -/
theorem flush_clears_playsMedia :
    ((St.init true).run (playsMedia ++ [mpStop])).flush = true ∧
      ((St.init true).run (playsMedia ++ [mpStop])).Clears := by
  have hquiet : ∀ (s : St) (e : Ev), s.wakeCut = false → s.cancels e = false →
      (∀ hasUrl url announcement, e ≠ .mpCommand true true hasUrl url announcement) →
      s.Spares e := by
    intro s e hcut hcancels hstop
    refine ⟨fun _ _ _ he => absurd he (hstop _ _ _), fun hno => ?_, fun _ _ => hcut⟩
    exact absurd (hcancels.symm.trans hno) Bool.false_ne_true
  have hmedia : ∀ (s : St) (j : ℕ) (m : St.Media), s.wakeCut = false → s.Spares (.media j m) :=
    fun s j m hcut => hquiet s _ hcut rfl (fun _ _ _ he => Ev.noConfusion he)
  have hflush : ((St.init true).run (playsMedia ++ [mpStop])).flush = true := by decide
  refine ⟨hflush, (flush_clears true (playsMedia ++ [mpStop]) ?_).1 hflush⟩
  refine ⟨hquiet _ _ rfl rfl ?_, hmedia _ _ _ rfl, hmedia _ _ _ rfl, hmedia _ _ _ rfl,
    hmedia _ _ _ rfl, hmedia _ _ _ rfl, ⟨?_, nofun, fun _ he => Ev.noConfusion he⟩, trivial⟩
  · intro _ _ _ he
    simp at he
  · intro _ _ _ _ _ j job hj hjob
    obtain rfl : 0 = j := some.inj hj
    obtain rfl := some.inj hjob
    exact .inr ⟨1, rfl⟩

/-- It is told so before anything is fetched: nothing is, and the job ends. -/
def stopsEarly : List Ev :=
  [.mpCommand false false true [104] false, mpStop, .media 0 .looks, .media 0 .looks,
    .media 0 .finishes]

/-- The flag is left set with nothing to clear it. -/
theorem flush_stays :
    ¬ ∀ (b : Bool) (l : List Ev), ((St.init b).run l).flush = true →
    ((St.init b).run l).Clears := by
  intro h
  have hclears := h true stopsEarly (by decide)
  have hqueue : ((St.init true).run stopsEarly).queue = [] := by decide
  have hplayer : ((St.init true).run stopsEarly).player = .waits := by decide
  rcases hclears with hq | hp | hp | ⟨j, job, hj, _⟩
  · rw [hqueue] at hq
    exact nomatch hq
  · rw [hplayer] at hp
    exact nomatch hp
  · rw [hplayer] at hp
    exact nomatch hp
  · obtain ⟨x, hx⟩ := St.at_run true stopsEarly
    have hnjobs : ((St.init true).run stopsEarly).njobs = 1 := by decide
    have hfirst : (((St.init true).run stopsEarly).jobs 0).isNone = true := by decide
    have hlt : j < 1 := by
      by_contra hle
      have hnone : ((St.init true).run stopsEarly).jobs j = none :=
        hx.fresh j (hnjobs.trans_le (not_lt.mp hle))
      exact nomatch hnone.symm.trans hj
    obtain rfl : j = 0 := by omega
    rw [hj] at hfirst
    exact nomatch hfirst

end Hassmic.Voice
