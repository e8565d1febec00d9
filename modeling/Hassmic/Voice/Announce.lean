import Hassmic.Voice.Rolls

/-!
# Announcements and their answers

Home Assistant waits for an answer to each announcement: at once where it is refused, else
when it failed or was played out.  A reply has the slot and the flag of an announcement, and
answers like one.  So a reply that is refused answers for the announcement that still plays,
and a cancelled run lets go of whatever is held, and leaves the flag.  Without these every
announcement is answered once, when its turn is over.

## Main definitions

* `St.UnderWay` — a job is under way that was not let go.
* `St.Refuses` — an announcement is refused.
* `St.Fair` — a step that neither refuses a reply while an announcement plays nor lets go of one.

## Main results

* `announcements_answered` — an announcement is answered once.
-/

namespace Hassmic.Voice

open List Function

/-! ### The flag of an announcement -/

/-- The flag is that of the job that has the slot. -/
structure Tape.Told (t : Tape) (x : Slot) : Prop where
  slot : t.At x
  job : ∀ j job, x = .held j → t.jobs j = some job → job.announce = t.announcing
  under : t.announcing = true → x ≠ .free

/-- No move lets go of an announcement. -/
def Tape.Kept (may : Need → Tape → Prop) : Prop :=
  ∀ t, may .cancels t → t.ttsExpected = true → t.mediaCur ≠ none → t.announcing = false

namespace Tape.Told

variable {t : Tape} {x : Slot}

/-- A move that leaves the slot and the flag alone. -/
theorem congr {t' : Tape} (h : t.Told x) (hslot : t'.At x) (hjobs : t'.jobs = t.jobs)
    (hann : t'.announcing = t.announcing) : t'.Told x where
  slot := hslot
  job := by rw [hjobs, hann]; exact h.job
  under := by rw [hann]; exact h.under

/-- The slot is free, and so is the flag. -/
theorem free (hslot : t.At .free) (hann : t.announcing = false) : t.Told .free where
  slot := hslot
  job := nofun
  under := fun hno => absurd (hann.symm.trans hno) Bool.false_ne_true

theorem update {t' : Tape} (h : t.Told x) (hslot : t'.At x) {j : ℕ} {job job' : Job}
    (hj : t.jobs j = some job) (hjob' : job'.announce = job.announce)
    (hjobs : t'.jobs = Function.update t.jobs j (some job'))
    (hann : t'.announcing = t.announcing) : t'.Told x where
  slot := hslot
  job := by
    intro k job₁ hx hk
    rw [hjobs] at hk
    rw [hann]
    by_cases hkj : k = j
    · subst hkj
      rw [update_self] at hk
      rw [← Option.some.inj hk, hjob']
      exact h.job k job hx hj
    · rw [update_of_ne hkj] at hk
      exact h.job k job₁ hx hk
  under := by rw [hann]; exact h.under

/-- Every move keeps the flag with its job. -/
theorem roll {may : Need → Tape → Prop} (hkept : Tape.Kept may) {t' : Tape}
    (hroll : Roll may t t') (h : t.Told x) : ∃ y, t'.Told y := by
  cases hroll with
  | ease => exact ⟨x, h.congr (h.slot.congr rfl rfl) rfl rfl⟩
  | expect => exact ⟨x, h.congr (h.slot.congr rfl rfl) rfl rfl⟩
  | letGo j p b hmay he hj hp =>
    have hann := hkept t hmay he (by rw [hj]; exact nofun)
    exact ⟨.free, free ((h.slot.letGo hj).congr rfl rfl) hann⟩
  | cut => exact ⟨x, h.congr (h.slot.congr rfl rfl) rfl rfl⟩
  | wakeCut => exact ⟨x, h.congr (h.slot.congr rfl rfl) rfl rfl⟩
  | halt => exact ⟨x, h.congr (h.slot.congr rfl rfl) rfl rfl⟩
  | uncut => exact ⟨x, h.congr (h.slot.congr rfl rfl) rfl rfl⟩
  | refuse => exact ⟨x, h.congr (h.slot.congr rfl rfl) rfl rfl⟩
  | start job hfree hjob =>
    refine ⟨_, h.slot.start hfree hjob, ?_, fun _ hx => Slot.noConfusion hx⟩
    intro j job₁ hx hj
    obtain rfl := Slot.held.inj hx
    simp only [update_self] at hj
    rw [← Option.some.inj hj]
  | goes j job job' hj hgoes =>
    exact ⟨x, h.update (h.slot.update hj hgoes) hj hgoes.announce rfl rfl⟩
  | begins j job job' it hj hmay ha hgoes hb hit =>
    refine ⟨x, h.update ?_ hj hgoes.announce rfl rfl⟩
    exact (h.slot.update hj hgoes).congr rfl (Tape.At.stops_append _ hit)
  | feeds it hit =>
    refine ⟨x, h.congr ?_ rfl rfl⟩
    exact h.slot.congr rfl (Tape.At.stops_append t hit)
  | ends j job job' hj ha hpc hb hjob' =>
    subst hjob'
    exact ⟨_, h.slot.ends hj ha (by simp [hpc]) hb, fun _ _ hx => Slot.noConfusion hx,
      fun _ hx => Slot.noConfusion hx⟩
  | fails j job p b hj ha hpc =>
    have hx : x = .held j := h.slot.held_of_job hj ha (by simp [hpc])
    have hann : (t.announcing && !job.announce) = false := by
      rw [h.job j job hx hj, Bool.and_not_self]
    exact ⟨.free, free (h.slot.fails hj ha (by simp [hpc]) rfl rfl rfl rfl rfl) hann⟩
  | drops j job hj ha =>
    refine ⟨x, h.slot.drops hj ha, ?_, h.under⟩
    intro k job₁ hx hk
    by_cases hkj : k = j
    · subst hkj
      simp at hk
    · simp only [update_of_ne hkj] at hk
      exact h.job k job₁ hx hk
  | pushes j job hj hpc =>
    exact ⟨.stopping, h.slot.pushes hj hpc, fun _ _ hx => Slot.noConfusion hx,
      fun _ hx => Slot.noConfusion hx⟩
  | takes it rest hp hq =>
    refine ⟨x, h.congr ?_ rfl rfl⟩
    exact h.slot.congr rfl (Tape.At.stops_takes hp hq)
  | skips it hp hit =>
    refine ⟨x, h.congr ?_ rfl rfl⟩
    exact h.slot.congr rfl (Tape.At.stops_skips hp hit)
  | closes hp =>
    refine ⟨x, h.congr ?_ rfl rfl⟩
    exact h.slot.congr rfl (Tape.At.stops_closes hp)
  | played p hp => exact ⟨.free, free (h.slot.played hp rfl rfl rfl rfl rfl rfl) rfl⟩

end Tape.Told

/-! ### One answer -/

/-- An announcement that was under way at `a` answers is answered when its turn is over. -/
def Tape.Once (a : ℕ) (t : Tape) : Prop :=
  t.mediaBusy = true ∧ t.announcing = true ∧ t.answers = a ∨
    t.mediaBusy = false ∧ t.announcing = false ∧ t.answers = a + 1

/-- What has the slot has not been answered. -/
theorem Tape.Once.waits {a : ℕ} {t : Tape} {x : Slot} (h : t.Once a) (hslot : t.At x)
    (hx : x ≠ .free) : t.announcing = true ∧ t.answers = a := by
  rcases h with ⟨_, hann, hans⟩ | ⟨hno, _⟩
  · exact ⟨hann, hans⟩
  · exact absurd (hno.symm.trans (hslot.busy.mpr hx)) Bool.false_ne_true

/-- Every move of a step that asks for nothing keeps an announcement from a second answer. -/
theorem Tape.Once.roll {may : Need → Tape → Prop} {a : ℕ} {t t' : Tape} {x : Slot}
    (hkept : Tape.Kept may) (hask : ∀ t, ¬ may .announces t ∧ ¬ may .replies t)
    (hplay : ∀ t, may .plays t → t.mediaBusy = true) (htold : t.Told x)
    (hroll : Roll may t t') (h : t.Once a) : t'.Once a := by
  cases hroll with
  | letGo j p b hmay he hj hp =>
    have hno := hkept t hmay he (by rw [hj]; exact nofun)
    have hx : x ≠ .free := by
      rw [(htold.slot.cur j).mp hj]
      exact fun he => Slot.noConfusion he
    exact absurd (hno.symm.trans (h.waits htold.slot hx).1) Bool.false_ne_true
  | refuse hno =>
    rcases hno with hno | ⟨hno, _⟩
    · exact absurd hno (hask t).1
    · exact absurd hno (hask t).2
  | start job hfree hjob ha =>
    rcases ha with hno | hno | ⟨_, hmay⟩
    · exact absurd hno (hask t).1
    · exact absurd hno (hask t).2
    · exact absurd (hfree.symm.trans (hplay t hmay)) Bool.false_ne_true
  | fails j job p b hj ha hpc =>
    have hx : x = .held j := htold.slot.held_of_job hj ha (by simp [hpc])
    have hwaits := h.waits htold.slot (by rw [hx]; exact fun he => Slot.noConfusion he)
    have hjob : job.announce = true := (htold.job j job hx hj).trans hwaits.1
    refine .inr ⟨rfl, ?_, ?_⟩
    · simp [hjob]
    · simp [hjob, hwaits.2]
  | played p hp =>
    have hx : x ≠ .free := by
      intro hfree
      have hstops := htold.slot.stops
      rw [hfree] at hstops
      simp [Tape.stops, hp] at hstops
    have hwaits := h.waits htold.slot hx
    refine .inr ⟨rfl, rfl, ?_⟩
    simp [hwaits.1, hwaits.2]
  | _ => exact h

/-- None is announced, at `a` answers. -/
def Tape.Silent (a : ℕ) (t : Tape) : Prop := t.announcing = false ∧ t.answers = a

/-- Every move of a step that asks for nothing keeps silent. -/
theorem Tape.Silent.roll {may : Need → Tape → Prop} {a : ℕ} {t t' : Tape} {x : Slot}
    (hask : ∀ t, ¬ may .announces t ∧ ¬ may .replies t) (htold : t.Told x)
    (hroll : Roll may t t') (h : t.Silent a) : t'.Silent a := by
  obtain ⟨hann, hans⟩ := h
  cases hroll with
  | refuse hno =>
    rcases hno with hno | ⟨hno, _⟩
    · exact absurd hno (hask t).1
    · exact absurd hno (hask t).2
  | start job hfree hjob ha =>
    rcases ha with hno | hno | ⟨ha, _⟩
    · exact absurd hno (hask t).1
    · exact absurd hno (hask t).2
    · exact ⟨ha, hans⟩
  | fails j job p b hj ha hpc =>
    have hx : x = .held j := htold.slot.held_of_job hj ha (by simp [hpc])
    have hjob : job.announce = false := (htold.job j job hx hj).trans hann
    exact ⟨by simp [hann], by simp [hjob, hans]⟩
  | played p hp => exact ⟨rfl, by simp [hann, hans]⟩
  | _ => exact ⟨hann, hans⟩

/-! ### Steps -/

/-- Whether Home Assistant asks for an announcement. -/
def Ev.isAnnounce : Ev → Bool
  | .announce _ _ _ => true
  | _ => false

theorem Ev.eq_announce {e : Ev} (h : e.isAnnounce = true) :
    ∃ media pre conversation, e = .announce media pre conversation := by
  cases e with
  | announce media pre conversation => exact ⟨media, pre, conversation, rfl⟩
  | _ => exact absurd h Bool.false_ne_true

namespace St

variable (s : St)

/-- How often `VA_ANNOUNCE_FINISHED` was sent. -/
def answers : ℕ := s.out.countP Out.isAnswer

/-- A job is under way: its thread runs and it was not let go, or the end of its audio is queued
or being played. -/
def UnderWay : Prop :=
  (∃ j job, s.jobs j = some job ∧ job.aborted = false) ∨ .stop ∈ s.queue ∨
    s.player = .has .stop ∨ s.player = .closed

/-- An announcement is refused. -/
def Refuses : Prop := (s.dnd && !s.btAsked) = true ∨ s.mediaBusy = true

/-- A step that neither refuses a reply nor lets go of a job while an announcement is under way. -/
structure Fair (e : Ev) : Prop where
  replies : s.takesReply e = true → s.mediaBusy = true → s.announcing = false
  cancels : s.cancels e = true → s.ttsExpected = true → s.mediaCur ≠ none → s.announcing = false

/-- A step in which the turn of an announcement is not over. -/
def Held (e : Ev) : Prop := s.Fair e ∧ (s.step e).mediaBusy = true

/-- The slot is taken while a job is under way. -/
theorem underWay_iff {x : Slot} (h : s.tape.At x) : s.mediaBusy = true ↔ s.UnderWay := by
  rw [show s.mediaBusy = true ↔ x ≠ .free from h.busy]
  constructor
  · intro hx
    cases x with
    | free => exact absurd rfl hx
    | held j =>
      obtain ⟨job, hj, ha⟩ := h.some j (.inl rfl)
      exact .inl ⟨j, job, hj, ha⟩
    | pushing j =>
      obtain ⟨job, hj, ha⟩ := h.some j (.inr rfl)
      exact .inl ⟨j, job, hj, ha⟩
    | stopping =>
      have hstops : s.tape.stops = 1 := h.stops
      unfold Tape.stops at hstops
      split at hstops
      case isTrue hp => exact .inr (.inr hp)
      case isFalse =>
        refine .inr (.inl (count_pos_iff.mp ?_))
        have hcount : s.queue.count .stop + 0 = 1 := hstops
        omega
  · rintro (⟨j, job, hj, ha⟩ | hend) rfl
    · rcases h.job j job hj with ⟨hno, _⟩ | ⟨hno, _⟩ | ⟨hno, _⟩
      · exact Bool.false_ne_true (ha.symm.trans hno)
      · exact Slot.noConfusion hno
      · exact Slot.noConfusion hno
    · have hstops : s.queue.count .stop +
          (if s.player = .has .stop ∨ s.player = .closed then 1 else 0) = 0 := h.stops
      rcases hend with hq | hp
      · have hpos := count_pos_iff.mpr hq
        omega
      · rw [if_pos hp] at hstops
        omega

variable {s} {e : Ev}

theorem Fair.kept (h : s.Fair e) : Tape.Kept (s.needs e) := by
  rintro t ⟨he, rfl⟩
  exact h.cancels he

theorem told_step (s : St) (e : Ev) (h : ∃ x, s.tape.Told x) (hf : s.Fair e) :
    ∃ x, (s.step e).tape.Told x := by
  obtain ⟨x, hx⟩ := h
  have hkeeps : ∀ t u, Roll (s.needs e) t u → (∃ x, t.Told x) → ∃ x, u.Told x := by
    rintro t u hroll ⟨y, hy⟩
    exact hy.roll hf.kept hroll
  exact (s.step_rolls e hx.slot).keeps hkeeps ⟨x, hx⟩

theorem needs_none (hreply : s.takesReply e = false) (hne : e.isAnnounce = false) (t : Tape) :
    ¬ s.needs e .announces t ∧ ¬ s.needs e .replies t := by
  constructor
  · rintro ⟨⟨media, pre, conversation, rfl⟩, _⟩
    exact absurd hne.symm Bool.false_ne_true
  · rintro ⟨hno, _⟩
    exact absurd (hreply.symm.trans hno) Bool.false_ne_true

theorem told_init (b : Bool) : (St.init b).tape.Told .free := .free (St.at_init b) rfl

/-- A step other than an announcement answers the one that is under way when its turn is over. -/
theorem once_step (h : ∃ x, s.tape.Told x) (hf : s.Fair e)
    (hne : e.isAnnounce = false) (hbusy : s.mediaBusy = true) (hann : s.announcing = true) :
    (s.step e).tape.Once s.answers := by
  obtain ⟨x, hx⟩ := h
  have hreply : s.takesReply e = false := by
    by_contra hno
    have hquiet := hf.replies (by simpa using hno) hbusy
    exact Bool.false_ne_true (hquiet.symm.trans hann)
  have hask := needs_none hreply hne
  have hplay : ∀ t, s.needs e .plays t → t.mediaBusy = true := fun t ht => ht.2.1.trans hbusy
  have hkeeps : ∀ t u, Roll (s.needs e) t u → (∃ x, t.Told x) ∧ t.Once s.answers →
      (∃ x, u.Told x) ∧ u.Once s.answers := by
    rintro t u hroll ⟨⟨y, hy⟩, honce⟩
    exact ⟨hy.roll hf.kept hroll, honce.roll hf.kept hask hplay hy hroll⟩
  exact ((s.step_rolls e hx.slot).keeps hkeeps ⟨⟨x, hx⟩, .inl ⟨hbusy, hann, rfl⟩⟩).2

/-- An announcement that is refused is answered at once. -/
theorem announce_refused (h : s.Refuses) (media pre : Bytes) (conversation : Bool) :
    s.step (.announce media pre conversation) = s.emit (.announceFinished false) := by
  simp only [step, onAnnounce, mediaStart]
  by_cases hdnd : (s.dnd && !s.btAsked) = true
  · rw [if_pos hdnd]
  · rw [if_neg hdnd, if_pos (h.resolve_left hdnd), if_pos trivial]

/-- One that is taken has the slot, and is not answered yet. -/
theorem announce_taken {x : Slot} (hx : s.tape.At x) (h : ¬ s.Refuses) (media pre : Bytes)
    (conversation : Bool) :
    (s.step (.announce media pre conversation)).mediaBusy = true ∧
      (s.step (.announce media pre conversation)).announcing = true ∧
      (s.step (.announce media pre conversation)).answers = s.answers := by
  have hdnd : ¬ (s.dnd && !s.btAsked) = true := fun hno => h (.inl hno)
  have hfree : s.mediaBusy = false := by
    simpa using fun hno => h (.inr hno)
  obtain ⟨p, b, job, _, _, _, hstarted⟩ :=
    s.mediaStart_taken hfree (hx.cur_none hfree) pre media true conversation false false
  have hstep : s.step (.announce media pre conversation) =
      s.mediaStart pre media true conversation false false := if_neg hdnd
  rw [hstep]
  exact ⟨congrArg Tape.mediaBusy hstarted, congrArg Tape.announcing hstarted,
    congrArg Tape.answers hstarted⟩

/-- While none is announced, only one that is asked for is answered. -/
theorem silent_step (h : ∃ x, s.tape.Told x) (hf : s.Fair e) (hreply : s.takesReply e = false)
    (hne : e.isAnnounce = false) (hann : s.announcing = false) :
    (s.step e).announcing = false ∧ (s.step e).answers = s.answers := by
  obtain ⟨x, hx⟩ := h
  have hask := needs_none hreply hne
  have hkeeps : ∀ t u, Roll (s.needs e) t u → (∃ x, t.Told x) ∧ t.Silent s.answers →
      (∃ x, u.Told x) ∧ u.Silent s.answers := by
    rintro t u hroll ⟨⟨y, hy⟩, hsilent⟩
    exact ⟨hy.roll hf.kept hroll, hsilent.roll hask hy hroll⟩
  exact ((s.step_rolls e hx.slot).keeps hkeeps ⟨⟨x, hx⟩, hann, rfl⟩).2

/-- While an announcement is under way, each further one is refused and answered, and nothing
else is. -/
theorem held_step (h : ∃ x, s.tape.Told x) (hheld : s.Held e) (hbusy : s.mediaBusy = true)
    (hann : s.announcing = true) :
    (s.step e).announcing = true ∧ (s.step e).answers = s.answers + e.isAnnounce.toNat := by
  cases he : e.isAnnounce with
  | true =>
    obtain ⟨media, pre, conversation, rfl⟩ := Ev.eq_announce he
    rw [announce_refused (.inr hbusy)]
    exact ⟨hann, congrArg Tape.answers (s.answer_tape false)⟩
  | false =>
    rcases once_step h hheld.1 he hbusy hann with ⟨_, hann', hans⟩ | ⟨hno, _⟩
    · exact ⟨hann', hans⟩
    · exact absurd (hno.symm.trans hheld.2) Bool.false_ne_true

/-- The same along a run. -/
theorem held_run (h : ∃ x, s.tape.Told x) {m : List Ev} (hm : Runs.Each St.step Held s m)
    (hbusy : s.mediaBusy = true) (hann : s.announcing = true) :
    (∃ x, (s.run m).tape.Told x) ∧ (s.run m).mediaBusy = true ∧ (s.run m).announcing = true ∧
      (s.run m).answers = s.answers + m.countP Ev.isAnnounce := by
  induction m generalizing s with
  | nil => exact ⟨h, hbusy, hann, rfl⟩
  | cons e m ih =>
    obtain ⟨hann', hans⟩ := held_step h hm.1 hbusy hann
    obtain ⟨htold, hbusy', hann'', hrun⟩ :=
      ih (told_step s e h hm.1.1) hm.2 hm.1.2 hann'
    refine ⟨htold, hbusy', hann'', hrun.trans ?_⟩
    rw [hans, countP_cons]
    cases e.isAnnounce with
    | true =>
      simp only [Bool.toNat_true, if_true]
      omega
    | false => simp

/-- Its turn ends with one answer. -/
theorem held_ends (h : ∃ x, s.tape.Told x) (hf : s.Fair e) (hbusy : s.mediaBusy = true)
    (hann : s.announcing = true) (hfree : (s.step e).mediaBusy = false) :
    (s.step e).announcing = false ∧ (s.step e).answers = s.answers + 1 := by
  cases he : e.isAnnounce with
  | true =>
    obtain ⟨media, pre, conversation, rfl⟩ := Ev.eq_announce he
    rw [announce_refused (.inr hbusy)] at hfree
    exact absurd (hfree.symm.trans hbusy) Bool.false_ne_true
  | false =>
    rcases once_step h hf he hbusy hann with ⟨hno, _⟩ | ⟨_, hann', hans⟩
    · exact absurd (hfree.symm.trans hno) Bool.false_ne_true
    · exact ⟨hann', hans⟩

end St

/-- **An announcement is answered once**, in a run whose steps neither refuse a reply nor let go
of a job while one is under way: at once where it is refused, else when its turn is over, and
never before.  The slot is taken while a job is under way, and the flag is set only then. -/
theorem announcements_answered (b : Bool) (l : List Ev)
    (hl : Runs.Each St.step St.Fair (St.init b) l) :
    (((St.init b).run l).mediaBusy = true ↔ ((St.init b).run l).UnderWay) ∧
    (((St.init b).run l).announcing = true → ((St.init b).run l).UnderWay) ∧
    (((St.init b).run l).announcing = false → ∀ e, ((St.init b).run l).Fair e →
      ((St.init b).run l).takesReply e = false → e.isAnnounce = false →
      ((St.init b).run (l ++ [e])).answers = ((St.init b).run l).answers) ∧
    ∀ media pre conversation,
      (((St.init b).run l).Refuses →
        (St.init b).run (l ++ [.announce media pre conversation]) =
          ((St.init b).run l).emit (.announceFinished false)) ∧
      (¬ ((St.init b).run l).Refuses → ∀ m,
        Runs.Each St.step St.Held
          ((St.init b).run (l ++ [.announce media pre conversation])) m →
        ((St.init b).run (l ++ .announce media pre conversation :: m)).answers =
          ((St.init b).run l).answers + m.countP Ev.isAnnounce ∧
        ∀ e, ((St.init b).run (l ++ .announce media pre conversation :: m)).Fair e →
          ((St.init b).run (l ++ .announce media pre conversation :: (m ++ [e]))).mediaBusy =
          false →
          ((St.init b).run (l ++ .announce media pre conversation :: (m ++ [e]))).answers =
            ((St.init b).run l).answers + m.countP Ev.isAnnounce + 1) := by
  have htold : ∃ x, ((St.init b).run l).tape.Told x :=
    Runs.invariant St.told_step ⟨.free, St.told_init b⟩ hl
  simp only [St.run, foldl_append, foldl_cons, foldl_nil]
  generalize hs : l.foldl St.step (St.init b) = s
  rw [St.run, hs] at htold
  obtain ⟨x, hx⟩ := htold
  have hunder := s.underWay_iff hx.slot
  refine ⟨hunder, fun hann => hunder.mp (hx.slot.busy.mpr (hx.under hann)), ?_, ?_⟩
  · intro hann e hf hreply hne
    exact (St.silent_step ⟨x, hx⟩ hf hreply hne hann).2
  intro media pre conversation
  refine ⟨fun href => St.announce_refused href media pre conversation, fun href m hm => ?_⟩
  obtain ⟨hbusy, hann, hans⟩ := St.announce_taken hx.slot href media pre conversation
  have hfair : s.Fair (.announce media pre conversation) := ⟨nofun, nofun⟩
  obtain ⟨htold, hbusy', hann', hrun⟩ :=
    St.held_run (St.told_step s _ ⟨x, hx⟩ hfair) hm hbusy hann
  rw [hans] at hrun
  refine ⟨hrun, fun e hf hfree => ?_⟩
  have hends := (St.held_ends htold hf hbusy' hann' hfree).2
  rw [hrun] at hends
  exact hends

/-- An announcement is fetched and played. -/
def playsAnnouncement : List Ev :=
  [.media 0 .looks, .media 0 .looks, .media 0 (.fetched true), .media 0 (.wav 16000 1),
    .media 0 .begins, .media 0 (.feeds [1, 0]), .media 0 .ends, .media 0 .finishes,
    .media 0 .pushes, .play, .play, .play, .play, .play, .play]

/-- It is answered when it was played out, though another one was refused meanwhile. -/
theorem announcements_answered_played :
    ((St.init true).run ([] ++ .announce [104] [] false ::
      ((.announce [105] [] false :: playsAnnouncement) ++ [.play]))).answers = 2 := by
  have hfair : ∀ (s : St) (e : Ev), s.takesReply e = false → s.cancels e = false → s.Fair e := by
    intro s e hreply hcancels
    refine ⟨fun hno => ?_, fun hno => ?_⟩
    · exact absurd (hreply.symm.trans hno) Bool.false_ne_true
    · exact absurd (hcancels.symm.trans hno) Bool.false_ne_true
  have hheld : ∀ (s : St) (e : Ev), s.takesReply e = false → s.cancels e = false →
      (s.step e).mediaBusy = true → s.Held e :=
    fun s e hreply hcancels hbusy => ⟨hfair s e hreply hcancels, hbusy⟩
  have hrefuses : ¬ ((St.init true).run []).Refuses := by
    rintro (hno | hno) <;> exact Bool.false_ne_true hno
  have hplays := ((announcements_answered true [] trivial).2.2.2 [104] [] false).2 hrefuses
    (.announce [105] [] false :: playsAnnouncement) ?_
  · exact hplays.2 .play (hfair _ _ rfl rfl) (by decide)
  · repeat' first | exact trivial | refine ⟨hheld _ _ rfl rfl (by decide), ?_⟩

/-- A run is under way when an announcement comes, which ends it. -/
def asksAway : List Ev :=
  [.link true, .subscribe true, .trigger true 0, .event { type := .runStart }]

/-- The reply of that run comes late: it is refused, and the announcement is answered though it
still plays. -/
theorem reply_answers :
    ¬ ∀ (b : Bool) (l : List Ev) (media pre : Bytes) (conversation : Bool) (m : List Ev),
      ¬ ((St.init b).run l).Refuses →
      Runs.Each St.step (fun s e => (s.step e).mediaBusy = true)
        ((St.init b).run (l ++ [.announce media pre conversation])) m →
      ((St.init b).run (l ++ .announce media pre conversation :: m)).answers =
        ((St.init b).run l).answers + m.countP Ev.isAnnounce := by
  intro h
  have hrefuses : ¬ ((St.init true).run asksAway).Refuses := by
    rintro (hno | hno) <;> exact absurd hno (by decide)
  have hno := h true asksAway [104] [] false [.event { type := .ttsEnd, url := some [105] }]
    hrefuses ⟨by decide, trivial⟩
  exact absurd hno (by decide)

end Hassmic.Voice
