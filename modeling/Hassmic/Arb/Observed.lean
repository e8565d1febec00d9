import Hassmic.Arb.Book
import Hassmic.Arb.Window

/-!
# One observation for each member and round

The rounds of a run are kept in an account beside the Echo: who was present when a round began, and
the Echo when it was over.  The table of rivals is what the start had, with one observation of each
of these members for each round, and what an observation says is read off the claims heard.

## Main definitions

* `Finished`, `Account` — the rounds of a run.
* `Judged` — what an observation says.
* `Account.Kept` — the members asked are those who were present.

## Main results

* `judged_given` — the observation of a member says what its claims were.
* `observed_once` — **each round gives each member present one observation**.
* `observed_both` — a round in which both answered is kept as a close call.
-/

namespace Hassmic.Arb

open List

/-! ### What an observation says -/

/-- A difference of two scores, kept off the marks. -/
def offMarks (x : ℤ) : ℤ := max (dNone.toInt + 1) (min (dPrio.toInt - 1) x)

/-- **No difference of two scores is one of the marks.** -/
theorem offMarks_between (x : ℤ) : dNone.toInt < offMarks x ∧ offMarks x < dPrio.toInt := by
  have hnone : dNone.toInt = -2147483648 := by decide
  have hprio : dPrio.toInt = 2147483647 := by decide
  unfold offMarks
  omega

/-- **What an observation says**: none of the member's claims counted, its priority beat ours, or
how much better it heard the wake word; nothing less than as good when both answered. -/
structure Judged (r : Round) (cutoff : ℤ) (g : Given) : Prop where
  unheard : (∀ h ∈ r.heard, h.id = g.id → cutoff < h.at_) → g.d = dNone
  claimed : ∀ h ∈ r.heard, h.id = g.id → h.at_ ≤ cutoff →
    if r.prio.toInt < h.p.toNat then g.d = dPrio
    else
      dNone.toInt < g.d.toInt ∧ g.d.toInt < dPrio.toInt ∧
        g.d.toInt = if r.won ∧ h.w ∧ h.s < r.score then 0 else offMarks (h.s.toInt - r.score.toInt)

namespace St

variable (s : St)

/-- What one member's claims make of the round. -/
def judge (h : Heard) : Int32 :=
  let x := h.s.toInt - s.round.score.toInt
  let d := if s.round.prio.toInt < h.p.toNat then dPrio
    else if dPrio.toInt ≤ x then dPrio - 1
    else if x ≤ dNone.toInt then dNone + 1 else Int32.ofInt x
  if s.round.won ∧ h.w ∧ d < 0 then 0 else d

theorem difference_eq (id : Blob 8) (cutoff : ℤ) : s.difference id cutoff =
    s.round.heard.foldl (fun d h => if h.id = id ∧ h.at_ ≤ cutoff then s.judge h else d) dNone :=
      rfl

/-- Whatever the scores are, their difference is kept off the marks. -/
theorem toInt_judge (h : Heard) (hprio : ¬ s.round.prio.toInt < h.p.toNat) :
    (s.judge h).toInt = if s.round.won ∧ h.w ∧ h.s < s.round.score then 0
      else offMarks (h.s.toInt - s.round.score.toInt) := by
  have hnone : dNone.toInt = -2147483648 := by decide
  have hmark : dPrio.toInt = 2147483647 := by decide
  obtain ⟨d, hd, hint⟩ : ∃ d : Int32,
      d = (if dPrio.toInt ≤ h.s.toInt - s.round.score.toInt then dPrio - 1
      else if h.s.toInt - s.round.score.toInt ≤ dNone.toInt then dNone + 1
      else Int32.ofInt (h.s.toInt - s.round.score.toInt)) ∧
      d.toInt = offMarks (h.s.toInt - s.round.score.toInt) := by
    refine ⟨_, rfl, ?_⟩
    unfold offMarks
    split
    · have hlast : (dPrio - 1).toInt = 2147483646 := by decide
      omega
    · split
      · have hfirst : (dNone + 1).toInt = -2147483647 := by decide
        omega
      · rw [Int32.toInt_ofInt_of_le (by omega) (by omega)]
        omega
  have hneg : d < 0 ↔ h.s < s.round.score := by
    rw [Int32.lt_iff_toInt_lt, Int32.lt_iff_toInt_lt, hint]
    have hzero : (0 : Int32).toInt = 0 := rfl
    unfold offMarks
    omega
  unfold judge
  dsimp only
  rw [if_neg hprio, ← hd]
  by_cases hboth : s.round.won = true ∧ h.w = true ∧ h.s < s.round.score
  · rw [if_pos hboth, if_pos ⟨hboth.1, hboth.2.1, hneg.mpr hboth.2.2⟩]
    rfl
  · rw [if_neg hboth, if_neg fun hd => hboth ⟨hd.1, hd.2.1, hneg.mp hd.2.2⟩]
    exact hint

theorem judge_of_prio (h : Heard) (hprio : s.round.prio.toInt < h.p.toNat) : s.judge h = dPrio := by
  unfold judge
  dsimp only
  rw [if_pos hprio, if_neg fun hd => absurd hd.2.2 (by decide)]

/-- What no claim counts for stays as it was. -/
theorem foldl_judge_of_none {l : List Heard} {P : Heard → Prop} [DecidablePred P]
    (h : ∀ x ∈ l, ¬ P x) (d : Int32) : l.foldl (fun d x => if P x then s.judge x else d) d = d := by
  induction l generalizing d with
  | nil => rfl
  | cons x l ih =>
    rw [foldl_cons, if_neg (h x mem_cons_self)]
    exact ih (fun y hy => h y (mem_cons_of_mem x hy)) d

/-- The one claim that counts decides. -/
theorem foldl_judge_of_unique {l : List Heard} {P : Heard → Prop} [DecidablePred P] {h : Heard}
    (hmem : h ∈ l) (hP : P h) (huniq : ∀ x ∈ l, P x → x = h) (d : Int32) :
    l.foldl (fun d x => if P x then s.judge x else d) d = s.judge h := by
  induction l generalizing d with
  | nil => cases hmem
  | cons x l ih =>
    rw [foldl_cons]
    have hrest : ∀ y ∈ l, P y → y = h := fun y hy => huniq y (mem_cons_of_mem x hy)
    by_cases hlater : h ∈ l
    · exact ih hlater hrest _
    · have hx : x = h := by
        rcases mem_cons.mp hmem with rfl | hmem
        · rfl
        · exact absurd hmem hlater
      rw [hx, if_pos hP]
      refine s.foldl_judge_of_none (fun y hy hPy => hlater ?_) _
      rw [← hrest y hy hPy]
      exact hy

/-- **The observation of a member says what its claims were.** -/
theorem judged_given (honce : Once s) {cutoff : ℤ} {g : Given} (hg : g ∈ s.given cutoff) :
    Judged s.round cutoff g := by
  obtain ⟨w, -, rfl⟩ := mem_map.mp hg
  refine ⟨fun hnone => ?_, fun h hmem hid hat => ?_⟩
  · rw [difference_eq]
    refine s.foldl_judge_of_none (fun x hx hP => ?_) _
    exact absurd hP.2 (not_le.mpr (hnone x hx hP.1))
  · have huniq : ∀ x ∈ s.round.heard, x.id = w.id ∧ x.at_ ≤ cutoff → x = h := fun x hx hP =>
      inj_on_of_nodup_map honce hx hmem (hP.1.trans hid.symm)
    have hd : s.difference w.id cutoff = s.judge h :=
      s.foldl_judge_of_unique (P := fun x => x.id = w.id ∧ x.at_ ≤ cutoff) hmem ⟨hid, hat⟩ huniq _
    dsimp only
    rw [hd]
    split
    · next hprio => exact s.judge_of_prio h hprio
    · next hprio =>
      have hjudge := s.toInt_judge h hprio
      have hbetween := offMarks_between (h.s.toInt - s.round.score.toInt)
      refine ⟨?_, ?_, hjudge⟩
      · rw [hjudge]
        split
        · decide
        · exact hbetween.1
      · rw [hjudge]
        split
        · decide
        · exact hbetween.2

/-! ### Who is present -/

/-- A member is present once. -/
theorem nodup_present (h : Distinct s) (now : ℤ) : (s.present now).Nodup := by
  refine List.Nodup.map_on ?_ ((nodup_finRange nPeer).filter _)
  have hused : ∀ i ∈ (List.finRange nPeer).filter fun i =>
      ago (s.peers i).seen now s.peerTtlMs && !(s.peers i).quiet, Used s i := by
    intro i hi hseen
    have hcount := (mem_filter.mp hi).2
    rw [hseen] at hcount
    exact absurd hcount (by simp [ago])
  exact fun i hi j hj hid => h i j (hused i hi) (hused j hj) hid

/-- There is room for all that are present. -/
theorem take_present (now : ℤ) : (s.present now).take nPeer = s.present now := by
  refine take_of_length_le ?_
  unfold present
  rw [length_map]
  exact (length_filter_le _ _).trans_eq (length_finRange)

end St

/-! ### The account -/

/-- A round that is over: who was present when it began, the Echo when it ended, and up to which
time claims counted for it. -/
structure Finished where
  present : List (Blob 8)
  echo : St
  cutoff : ℤ

/-- What the round gave. -/
def Finished.given (r : Finished) : List Given := r.echo.given r.cutoff

/-- An Echo, who was present at its last wake word, and the rounds that are over. -/
structure Account where
  echo : St
  present : List (Blob 8)
  rounds : List Finished

namespace Account

variable (C : Crypto) (a : Account)

def step (ev : Ev) : Account where
  echo := a.echo.step C ev
  present := (ev.wake.map a.echo.present).getD a.present
  rounds := a.rounds ++ (a.echo.closing ev).toList.map fun cutoff => ⟨a.present, a.echo, cutoff⟩

def run (l : List Ev) : Account := l.foldl (step C) a

theorem echo_run (l : List Ev) : (a.run C l).echo = a.echo.run C l := by
  induction l generalizing a with
  | nil => rfl
  | cons ev l ih => exact ih (a.step C ev)

/-- **The members asked are those who were present**, and the table holds what the rounds gave. -/
structure Kept (r : Fin nPeer → Rival) : Prop where
  asked : a.echo.round.open_ → a.echo.round.want.map (·.id) = a.present ∧ a.present.Nodup
  idle : a.echo.round.open_ = false → a.echo.round.want = []
  once : Once a.echo
  distinct : Distinct a.echo
  table : a.echo.rivals = (a.rounds.flatMap (·.given)).foldl Given.enter r
  fair : ∀ f ∈ a.rounds, f.given.map (·.id) = f.present ∧ f.present.Nodup ∧ Once f.echo

variable {C a}

/-- The members of the round, behind what may end it. -/
theorem Kept.after {r : Fin nPeer → Rival} (h : a.Kept r) (ev : Ev) :
    (a.echo.after (a.echo.closing ev)).rivals =
      ((a.step C ev).rounds.flatMap (·.given)).foldl Given.enter r ∧
    ∀ f ∈ (a.step C ev).rounds, f.given.map (·.id) = f.present ∧ f.present.Nodup ∧ Once f.echo := by
  have hrounds : (a.step C ev).rounds =
      a.rounds ++ (a.echo.closing ev).toList.map fun cutoff => ⟨a.present, a.echo, cutoff⟩ := rfl
  rw [hrounds]
  cases hclosing : a.echo.closing ev with
  | none =>
    rw [Option.toList_none, map_nil, append_nil]
    exact ⟨h.table, h.fair⟩
  | some cutoff =>
    have hopen : a.echo.round.open_ = true := a.echo.open_of_closing hclosing
    obtain ⟨hids, hnodup⟩ := h.asked hopen
    rw [Option.toList_some, map_singleton]
    constructor
    · rw [flatMap_append, foldl_append, ← h.table]
      exact congrArg (fun l => List.foldl Given.enter a.echo.rivals l) (append_nil _).symm
    · intro f hf
      rcases mem_append.mp hf with hf | hf
      · exact h.fair f hf
      · rw [mem_singleton.mp hf]
        refine ⟨?_, hnodup, h.once⟩
        show (a.echo.given cutoff).map (·.id) = a.present
        unfold St.given
        rw [map_map]
        exact hids

/-- **A step keeps the account.** -/
theorem Kept.kept_step {r : Fin nPeer → Rival} (h : a.Kept r) (ev : Ev) : (a.step C ev).Kept r := by
  obtain ⟨htable, hfair⟩ := h.after (C := C) ev
  obtain ⟨hledger, -, honce, -⟩ := a.echo.step_ledger C ev
  have hdistinct : Distinct (a.echo.step C ev) :=
    distinct_reaches (a.echo.step_reaches C ev) h.distinct
  have hpast : (a.echo.after (a.echo.closing ev)).open_ = false →
      (a.echo.after (a.echo.closing ev)).want = [] := by
    cases a.echo.closing ev with
    | some cutoff => exact fun _ => rfl
    | none => exact h.idle
  rcases hledger with ⟨hwake, hledger⟩ | ⟨keyword, score, prio, now, rand, rfl, hledger⟩
  · -- no wake word opens a round
    have hopen : (a.step C ev).echo.round.open_ = (a.echo.after (a.echo.closing ev)).open_ :=
      congrArg St.Ledger.open_ hledger
    have hwant : (a.step C ev).echo.round.want = (a.echo.after (a.echo.closing ev)).want :=
      congrArg St.Ledger.want hledger
    refine ⟨fun hs => ?_, fun hs => ?_, honce h.once, hdistinct, ?_, hfair⟩
    · have hpresent : (a.step C ev).present = a.present := by
        show (ev.wake.map a.echo.present).getD a.present = a.present
        rw [hwake]
        rfl
      rw [hopen] at hs
      rw [hwant, hpresent]
      -- a round that is over is not open
      cases hclosing : a.echo.closing ev with
      | some cutoff =>
        rw [hclosing] at hs
        cases hs
      | none =>
        rw [hclosing] at hs
        exact h.asked hs
    · rw [hwant]
      exact hpast (hopen.symm.trans hs)
    · exact (congrArg St.Ledger.rivals hledger).trans htable
  · have hempty :
        (a.echo.after (a.echo.closing (.claim keyword score prio now rand))).want = [] := by
      cases hopen : a.echo.round.open_ with
      | true =>
        have hclosing : a.echo.closing (.claim keyword score prio now rand) =
            some ((a.echo.round.at_ + now.1) / 2) := if_pos hopen
        rw [hclosing]
        rfl
      | false =>
        have hclosing : a.echo.closing (.claim keyword score prio now rand) = none :=
          if_neg (by rw [hopen]; exact Bool.false_ne_true)
        rw [hclosing]
        exact h.idle hopen
    rcases hledger with hledger | ⟨w, hids, hledger⟩
    · have hopen : (a.step C (.claim keyword score prio now rand)).echo.round.open_ = false :=
        congrArg St.Ledger.open_ hledger
      have hwant : (a.step C (.claim keyword score prio now rand)).echo.round.want = [] :=
        (congrArg St.Ledger.want hledger).trans hempty
      refine ⟨fun hs => ?_, fun _ => hwant, honce h.once, hdistinct, ?_, hfair⟩
      · rw [hopen] at hs
        cases hs
      · exact (congrArg St.Ledger.rivals hledger).trans htable
    · have hopen : (a.step C (.claim keyword score prio now rand)).echo.round.open_ = true :=
        congrArg St.Ledger.open_ hledger
      have hwant : (a.step C (.claim keyword score prio now rand)).echo.round.want = w := by
        have hboth := congrArg St.Ledger.want hledger
        rw [hempty, nil_append] at hboth
        exact hboth
      refine ⟨fun _ => ⟨?_, a.echo.nodup_present h.distinct now.1⟩,
        fun hs => ?_, honce h.once, hdistinct, ?_, hfair⟩
      · rw [hwant, hids, hempty, length_nil, Nat.sub_zero]
        exact a.echo.take_present now.1
      · rw [hopen] at hs
        cases hs
      · exact (congrArg St.Ledger.rivals hledger).trans htable

/-- A round goes on until it is over. -/
theorem goes_on {ev : Ev} (hclosing : a.echo.closing ev = none)
    (hopen : a.echo.round.open_ = true) :
    (a.step C ev).echo.round.open_ = true ∧ (a.step C ev).echo.rivals = a.echo.rivals := by
  obtain ⟨hledger, -⟩ := a.echo.step_ledger C ev
  rcases hledger with ⟨-, hledger⟩ | ⟨keyword, score, prio, now, rand, rfl, -⟩
  · rw [hclosing] at hledger
    exact ⟨(congrArg St.Ledger.open_ hledger).trans hopen, congrArg St.Ledger.rivals hledger⟩
  · have hend : a.echo.closing (.claim keyword score prio now rand) =
        some ((a.echo.round.at_ + now.1) / 2) := if_pos hopen
    rw [hend] at hclosing
    cases hclosing

end Account

/-- The account of an Echo that has begun no round. -/
def Account.opened (s : St) : Account := ⟨s, [], []⟩

theorem kept_opened (C : Crypto) (b : Boot) :
    (Account.opened (start C b)).Kept (start C b).rivals := by
  have hround := start_round C b
  refine ⟨fun hs => ?_, fun _ => ?_, ?_, distinct_run C b [], rfl,
    fun f hf => absurd hf not_mem_nil⟩
  · have hopen : (start C b).round.open_ = true := hs
    rw [hround] at hopen
    cases hopen
  · exact congrArg Round.want hround
  · have honce : Once (start C b) := by
      unfold Once
      rw [hround]
      exact nodup_nil
    exact honce

/-- **Each round gives each member that was present one observation**, and nobody else one: its own
score and the member's claim against it, and that is all the table of rivals holds. -/
theorem observed_once (C : Crypto) (b : Boot) (l : List Ev) :
    let a := (Account.opened (start C b)).run C l
    a.echo = (start C b).run C l ∧
      a.echo.rivals = (a.rounds.flatMap (·.given)).foldl Given.enter (start C b).rivals ∧
      (∀ f ∈ a.rounds, f.given.map (·.id) = f.present ∧ f.present.Nodup ∧
        ∀ g ∈ f.given, Judged f.echo.round f.cutoff g) ∧
      ∀ ev, a.echo.round.open_ = true → a.echo.closing ev = none →
        (a.echo.step C ev).round.open_ = true ∧ (a.echo.step C ev).rivals = a.echo.rivals := by
  intro a
  have hkept : a.Kept (start C b).rivals :=
    Runs.invariant_all (f := Account.step C) (I := fun a => a.Kept (start C b).rivals)
      (fun a ev h => h.kept_step ev) (kept_opened C b) l
  refine ⟨Account.echo_run C _ l, hkept.table, fun f hf => ?_, fun ev hopen hclosing => ?_⟩
  · obtain ⟨hids, hnodup, honce⟩ := hkept.fair f hf
    exact ⟨hids, hnodup, fun g hg => f.echo.judged_given honce hg⟩
  · exact Account.goes_on hclosing hopen

/-! ### Both answered -/

/-- A claim of the member all of whose id is `2`, with the score `4`. -/
def claimFour (c : UInt64) (won : UInt8) : Bytes :=
  claimBytes .clear (.fill 32 9) 7 (.fill 8 2) c (.zero 8) 4 0 won

/-- A member is heard, a round opens with the score `10`, is decided, and the member answers too. -/
def bothRun : List Ev :=
  [.tick (.plain ⟨6000, pos_6000⟩),
    .packet (claimFour 3 0) ⟨6001, pos_6001⟩ 0 (.zero 24),
    .claim [0x61] 10 0 ⟨20000, pos_20000⟩ 0,
    .decide ⟨20100, by decide⟩,
    .packet (claimFour 4 1) ⟨20200, by decide⟩ 0 (.zero 24),
    .tick (.plain ⟨22000, by decide⟩)]

/-- **A round in which both answered is kept as a close call**: the member heard it `6` worse, and
the observation is neither a mark nor that difference. -/
theorem observed_both :
    ∃ f ∈ ((Account.opened (start .clear { Boot.plain 1 with rivalsOn := false })).run .clear
      bothRun).rounds, ∃ g ∈ f.given, ∃ h ∈ f.echo.round.heard, h.id = g.id ∧ h.at_ ≤ f.cutoff ∧
        h.s.toInt - f.echo.round.score.toInt = -6 ∧ g.d ≠ dNone ∧ g.d ≠ dPrio ∧ g.d.toInt = 0 := by
  decide +kernel

end Hassmic.Arb
