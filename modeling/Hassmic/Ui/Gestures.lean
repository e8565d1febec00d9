import Hassmic.Lib.Runs
import Hassmic.Ui.Touch

/-!
# Whole gestures of one finger

What the scene is told is one gesture after the other, each of one finger: it comes down, moves, and
lifts.  Nothing of a touch that wakes the screen is told.  A finger that landed with the one
followed, or soon after it, is part of its gesture and no touch of its own for as long as it stays
down: provided that the slot it landed in was not still marked as one whose finger is next.  That
mark goes when a finger is seen to lift, and stays when another takes its place at once, or lifts in
the report it landed in.

## Main definitions

* `gesture`, `isOpen` — what may follow what, and whether a gesture is under way.
* `Follows` — the finger of a gesture.
* `Aside` — a finger that is no touch of its own.
* `Lands`, `Beside`, `Soon` — a finger lands with the one followed, or soon after it.
* `Marked` — its slot is marked as one whose finger is next.

## Main results

* `tells_step`, `follows_step` — every step goes on with the gestures, and a gesture with its
  finger.
* `wakes_step` — nothing is told of a touch that woke the screen.
* `aside_step` — a finger that is no touch of its own stays one.
* `gestures` — **touches come out as whole gestures of one finger**.
-/

namespace Hassmic.Ui

open List Option
open Function (update update_of_ne update_self)

variable {pn : Panel}

/-! ### Gestures -/

/-- The touches among what is shown. -/
def touches (l : List Shown) : List Gesture :=
  l.filterMap fun s => match s with
    | .touch g _ _ _ => some g
    | .screen _ _ => none
    | .wake => none

/-- What may be told, with a gesture under way or not. -/
def gesture : Bool → Gesture → Option Bool
  | false, .down => some true
  | true, .move => some true
  | true, .up => some false
  | false, .move => none
  | false, .up => none
  | true, .down => none

/-- One after the other. -/
def gestureAll : Bool → List Gesture → Option Bool
  | b, [] => some b
  | b, g :: l => (gesture b g).bind fun b => gestureAll b l

theorem gestureAll_append {b c : Bool} : ∀ {l : List Gesture}, gestureAll b l = some c → ∀ m :
    List Gesture, gestureAll b (l ++ m) = gestureAll c m := by
  intro l
  induction l generalizing b with
  | nil =>
    intro h m
    obtain rfl : b = c := some.inj h
    rfl
  | cons g l ih =>
    intro h m
    obtain ⟨b', hb, hl⟩ := bind_eq_some_iff.mp h
    change (gesture b g).bind (fun b => gestureAll b (l ++ m)) = _
    rw [hb, bind_some]
    exact ih hl m

theorem touches_append (l m : List Shown) : touches (l ++ m) = touches l ++ touches m :=
  filterMap_append

/-- A gesture is under way. -/
def isOpen (t : Touch) : Bool := t.p.isSome && !t.waking

/-- What holds between two events: without a node there is no touch, and no touch wakes the screen
unless there is one. -/
structure Between (t : Touch) : Prop where
  gone : t.fd = false → t.p = none
  waking : t.fd = true → t.p = none → t.waking = false

theorem between_start : Between touchStart := ⟨fun _ => rfl, fun _ _ => rfl⟩

/-- What a step comes to: it goes on with the gestures, and what holds between two events holds
after it. -/
structure Tells (t : Touch) (r : Touch × List Shown) : Prop where
  gesture : gestureAll (isOpen t) (touches r.2) = some (isOpen r.1)
  between : Between r.1

variable {t t' : Touch} {k : Place} {v : ℤ}

/-! ### A report -/

/-- Once the finger followed has lifted, or not. -/
structure Lifted (t : Touch) (r : Touch × List Shown) : Prop where
  fd : r.1.fd = t.fd
  gesture : gestureAll (isOpen t) (touches r.2) = some (isOpen r.1)
  stays : t.lift = false → r.1.p = t.p ∧ r.1.waking = t.waking ∧ r.2 = []
  goes : t.p.isSome → t.lift = true →
    r.1.p = none ∧ r.1.waking = false ∧ (t.waking = true → r.2 = [])
  none : t.p = none → r.1.p = none ∧ r.1.waking = t.waking

theorem lifted_liftFollowed (pn : Panel) (time : ℤ) (t : Touch) :
    Lifted t (liftFollowed pn time t) := by
  unfold liftFollowed
  by_cases h : t.p.isSome ∧ t.lift
  · rw [if_pos h]
    obtain ⟨p, hp⟩ := isSome_iff_exists.mp h.1
    refine ⟨rfl, ?_, fun hlift => ?_, fun _ _ => ⟨rfl, rfl, fun hw => if_pos hw⟩, fun hnone => ?_⟩
    · unfold isOpen
      rw [hp]
      cases hw : t.waking <;> rfl
    · exact absurd (h.2.symm.trans hlift) (by decide)
    · exact nomatch hp.symm.trans hnone
  · rw [if_neg h]
    exact ⟨rfl, rfl, fun _ => ⟨rfl, rfl, rfl⟩, fun hsome hlift => absurd ⟨hsome, hlift⟩ h,
      fun hnone => ⟨hnone, rfl⟩⟩

/-- A finger that is followed from now on is one more; one that was followed stays. -/
theorem follow_spec (pn : Panel) (time : ℤ) (t : Touch) :
    (follow pn time t).1.fd = t.fd ∧ (follow pn time t).1.waking = t.waking ∧
    (t.p.isSome → (follow pn time t).1.p = t.p ∧ (follow pn time t).2 = false) ∧
    (t.p = none → (follow pn time t).2 = (follow pn time t).1.p.isSome) := by
  refine ⟨rfl, rfl, fun hsome => ?_, fun hnone => ?_⟩
  · unfold follow
    dsimp only
    rw [if_pos hsome]
    obtain ⟨p, hp⟩ := isSome_iff_exists.mp hsome
    rw [hp]
    exact ⟨rfl, rfl⟩
  · unfold follow
    dsimp only
    rw [hnone, none_or]

theorem tell_spec (pn : Panel) (time : ℤ) (interactive : Option Bool) (fresh : Bool) (t : Touch) :
    (tell pn time interactive fresh t).1.fd = t.fd ∧ (tell pn time interactive fresh t).1.p = t.p ∧
    (fresh = false → (tell pn time interactive fresh t).1.waking = t.waking) ∧
    (t.p = none → tell pn time interactive fresh t = (t, [])) := by
  unfold tell
  cases hp : t.p with
  | none => exact ⟨rfl, hp, fun _ => rfl, fun _ => rfl⟩
  | some p =>
    cases fresh with
    | false => exact ⟨rfl, hp, fun _ => rfl, fun h => (nomatch h)⟩
    | true =>
      dsimp only
      rw [if_pos rfl]
      split
      case isTrue => exact ⟨rfl, rfl, fun h => (nomatch h), fun h => (nomatch h)⟩
      case isFalse => exact ⟨rfl, rfl, fun h => (nomatch h), fun h => (nomatch h)⟩

/-- What is told goes on with the gestures: a finger that is followed from now on begins one, or
wakes the screen. -/
theorem gesture_tell (pn : Panel) (time : ℤ) (interactive : Option Bool) {fresh : Bool}
    (hfresh : fresh = true → t.waking = false) :
    gestureAll (isOpen t && !fresh) (touches (tell pn time interactive fresh t).2) =
      some (isOpen (tell pn time interactive fresh t).1) := by
  unfold tell isOpen
  cases hp : t.p with
  | none =>
    dsimp only
    rw [hp]
    rfl
  | some p =>
    cases fresh with
    | false =>
      dsimp only
      rw [if_neg (by decide), hp]
      cases t.waking <;> rfl
    | true =>
      dsimp only
      rw [if_pos rfl, Bool.not_true, Bool.and_false]
      have hlooked : touches (if interactive.getD t.screenOn = t.screenOn then [] else
          [Shown.screen (interactive.getD t.screenOn) time]) = [] := by
        split <;> rfl
      split
      case isTrue =>
        rw [touches_append, hlooked, hfresh rfl]
        rfl
      case isFalse =>
        rw [touches_append, hlooked]
        rfl

/-- **A report goes on with the gestures.** -/
theorem tells_report (pn : Panel) (time : ℤ) (interactive : Option Bool) (h : Between t)
    (hfd : t.fd = true) :
    Tells t (report pn time interactive t) := by
  have hlifted := lifted_liftFollowed pn time (land pn time t)
  unfold report
  dsimp only
  generalize hu : liftFollowed pn time (land pn time t) = u at hlifted
  obtain ⟨hffd, hfwaking, hfsome, hfnone⟩ := follow_spec pn time u.1
  generalize hv : follow pn time u.1 = v at hffd hfwaking hfsome hfnone
  obtain ⟨htfd, htp, htwaking, htnone⟩ := tell_spec pn time interactive v.2 v.1
  -- the finger that is followed is told of once
  have hopen : isOpen u.1 = (isOpen v.1 && !v.2) := by
    unfold isOpen
    rw [hfwaking]
    cases hp : u.1.p with
    | none =>
      rw [hfnone hp]
      cases v.1.p.isSome <;> simp
    | some k =>
      obtain ⟨hvp, hfresh⟩ := hfsome (by rw [hp]; rfl)
      rw [hvp, hfresh, hp]
      simp
  -- a touch that only wakes ends with its finger
  have hquiet : u.1.p = none → u.1.waking = false := by
    intro hnone
    by_cases hsome : t.p.isSome ∧ t.lift = true
    · exact (hlifted.goes hsome.1 hsome.2).2.1
    · cases hp : t.p with
      | none => exact (hlifted.none hp).2.trans (h.waking hfd hp)
      | some k =>
        have hlift : t.lift = false := by
          rw [hp] at hsome
          simpa using hsome
        exact nomatch hnone.symm.trans ((hlifted.stays hlift).1.trans hp)
  have hfresh : v.2 = true → v.1.waking = false := by
    intro hv2
    rw [hfwaking]
    cases hp : u.1.p with
    | none => exact hquiet hp
    | some k => exact absurd ((hfsome (by rw [hp]; rfl)).2.symm.trans hv2) (by decide)
  constructor
  · have hgesture : gestureAll (isOpen t) (touches u.2) = some (isOpen u.1) := hlifted.gesture
    rw [touches_append, gestureAll_append hgesture, hopen]
    exact gesture_tell pn time interactive hfresh
  · constructor
    · intro hgone
      rw [htfd, hffd, hlifted.fd] at hgone
      exact absurd (hfd.symm.trans hgone) (by decide)
    · intro _ hnone
      rw [htp] at hnone
      have hup : u.1.p = none := by
        cases hp : u.1.p with
        | none => rfl
        | some k => exact nomatch hnone.symm.trans ((hfsome (by rw [hp]; rfl)).1.trans hp)
      rw [htnone hnone]
      exact hfwaking.trans (hquiet hup)

/-! ### A step -/

/-- What is not a report leaves the finger followed alone, and marks only slots in which the finger
changes. -/
structure Quiet (t t' : Touch) : Prop where
  fd : t'.fd = t.fd
  p : t'.p = t.p
  waking : t'.waking = t.waking
  rest : t'.rest = t.rest
  born : ∀ k, t'.id k = t.id k → t'.born k = t.born k
  later : ∀ k, 0 ≤ t'.id k → t'.later k = t.later k
  lift : ∀ k, t.p = some k → t'.lift = false → t.lift = false ∧ t'.id k = t.id k

/-- What is read of the fingers, but for where they are. -/
def fingers (t : Touch) := (t.fd, t.p, t.waking, t.rest, t.born, t.later, t.lift, t.id)

theorem quiet_same (h : fingers t' = fingers t) : Quiet t t' := by
  simp only [fingers, Prod.mk.injEq] at h
  obtain ⟨hfd, hp, hwaking, hrest, hborn, hlater, hlift, hid⟩ := h
  refine ⟨hfd, hp, hwaking, hrest, fun k _ => congrFun hborn k, fun k _ =>
    congrFun hlater k, fun k _ h => ⟨?_, ?_⟩⟩
  · exact hlift.symm.trans h
  · exact congrFun hid k

theorem quiet_refl (t : Touch) : Quiet t t := quiet_same rfl

theorem quiet_trackingId (k : Place) (v : ℤ) (t : Touch) : Quiet t (trackingId k v t) := by
  have hborn : ∀ j, update t.id k v j = t.id j →
      update t.born k (t.born k || decide (0 ≤ v ∧ v ≠ t.id k)) j = t.born j := by
    intro j hj
    by_cases hjk : j = k
    · subst hjk
      rw [update_self] at hj
      rw [update_self, hj, decide_eq_false (fun h => h.2 rfl), Bool.or_false]
    · rw [update_of_ne hjk]
  have hlater : ∀ j, 0 ≤ update t.id k v j →
      update t.later k (t.later k && decide (0 ≤ v)) j = t.later j := by
    intro j hj
    by_cases hjk : j = k
    · subst hjk
      rw [update_self] at hj
      rw [update_self, decide_eq_true hj, Bool.and_true]
    · rw [update_of_ne hjk]
  unfold trackingId
  dsimp only
  split
  case isTrue => exact ⟨rfl, rfl, rfl, rfl, hborn, hlater, fun _ _ h => (nomatch h)⟩
  case isFalse hnot =>
    refine ⟨rfl, rfl, rfl, rfl, hborn, hlater, fun j hp hlift => ⟨hlift, ?_⟩⟩
    -- The finger followed is still in its slot, or the slot is another.
    dsimp only
    by_cases hjk : j = k
    · subst hjk
      rw [update_self]
      by_contra hne
      exact hnot ⟨hp, hne⟩
    · rw [update_of_ne hjk]

theorem quiet_touchResync (d : Device) (t : Touch) : Quiet t (touchResync d t) := by
  have hborn : ∀ k, d.id.getD t.id k = t.id k →
      (t.born k || decide (0 ≤ d.id.getD t.id k ∧ d.id.getD t.id k ≠ t.id k)) = t.born k := by
    intro k hk
    rw [decide_eq_false (fun h => h.2 hk), Bool.or_false]
  have hlater : ∀ k, 0 ≤ d.id.getD t.id k →
      (t.later k && decide (0 ≤ d.id.getD t.id k)) = t.later k := by
    intro k hk
    rw [decide_eq_true hk, Bool.and_true]
  unfold touchResync
  dsimp only
  split
  case h_1 hp => exact ⟨rfl, rfl, rfl, rfl, hborn, hlater, fun k h => (nomatch hp.symm.trans h)⟩
  case h_2 p hp =>
    split
    case isTrue hsame =>
      refine ⟨rfl, rfl, rfl, rfl, hborn, hlater, fun k h hlift => ⟨hlift, ?_⟩⟩
      obtain rfl : p = k := some.inj (hp.symm.trans h)
      exact hsame
    case isFalse => exact ⟨rfl, rfl, rfl, rfl, hborn, hlater, fun _ _ h => (nomatch h)⟩

theorem quiet_atReport (d : Device) (t : Touch) : Quiet t (atReport d t) := by
  unfold atReport
  split
  case isTrue =>
    obtain ⟨hfd, hp, hwaking, hrest, hborn, hlater, hlift⟩ :=
      quiet_touchResync d { t with dropped := false }
    exact ⟨hfd, hp, hwaking, hrest, hborn, hlater, hlift⟩
  case isFalse => exact quiet_refl t

/-- An event that is no report tells nothing. -/
theorem quiet_touchEvent (pn : Panel) (t : Touch) {e : TouchEv}
    (he : ∀ stamp now interactive d, e ≠ .synReport stamp now interactive d) :
    Quiet t (touchEvent pn t e).1 ∧ (touchEvent pn t e).2 = [] := by
  cases e with
  | synReport stamp now interactive d => exact absurd rfl (he stamp now interactive d)
  | synDropped => exact ⟨quiet_same rfl, rfl⟩
  | other => exact ⟨quiet_refl t, rfl⟩
  | slot v =>
    refine ⟨?_, rfl⟩
    change Quiet t (if t.dropped then t else { t with slot := toPlace v })
    split
    case isTrue => exact quiet_refl t
    case isFalse => exact quiet_same rfl
  | trackingId v =>
    refine ⟨?_, rfl⟩
    change Quiet t (if t.dropped then t else _)
    split
    case isTrue => exact quiet_refl t
    case isFalse =>
      cases t.slot with
      | none => exact quiet_refl t
      | some k => exact quiet_trackingId k v t
  | positionX v =>
    refine ⟨?_, rfl⟩
    change Quiet t (if t.dropped then t else _)
    split
    case isTrue => exact quiet_refl t
    case isFalse =>
      cases t.slot with
      | none => exact quiet_refl t
      | some k => exact quiet_same rfl
  | positionY v =>
    refine ⟨?_, rfl⟩
    change Quiet t (if t.dropped then t else _)
    split
    case isTrue => exact quiet_refl t
    case isFalse =>
      cases t.slot with
      | none => exact quiet_refl t
      | some k => exact quiet_same rfl

theorem Quiet.isOpen (h : Quiet t t') : isOpen t' = isOpen t := by
  unfold Ui.isOpen
  rw [h.p, h.waking]

theorem Quiet.between (h : Quiet t t') (ht : Between t) : Between t' := by
  constructor
  · rw [h.fd, h.p]
    exact ht.gone
  · rw [h.fd, h.p, h.waking]
    exact ht.waking

theorem touchOpen_spec (found : Option Device) (t : Touch) : (touchOpen found t).p = none ∧
    (touchOpen found t).waking = false := by
  cases found with
  | none => exact ⟨rfl, rfl⟩
  | some d => exact ⟨rfl, rfl⟩

/-- What a step is: a report of a node that is open, something that is told nothing of, or the node
goes or is opened. -/
inductive Stepped (pn : Panel) (t : Touch) (i : Input) : Prop
  | report {stamp now : ℤ} {interactive : Option Bool} {d : Device}
      (hi : i = .read (.synReport stamp now interactive d)) (hfd : t.fd = true)
      (heq : touchStep pn t i = Ui.report pn (eventTime stamp now) interactive (atReport d t))
  | quiet (hquiet : Quiet t (touchStep pn t i).1) (hnone : (touchStep pn t i).2 = [])
  | gone {now : ℤ} (hfd : t.fd = true) (heq : touchStep pn t i = touchGone pn now t)
  | look {found : Option Device} (hfd : t.fd = false)
  (heq : touchStep pn t i = (touchOpen found t, []))

theorem stepped (pn : Panel) (t : Touch) (i : Input) : Stepped pn t i := by
  -- Without a node, or with one that is not looked for, nothing happens.
  have hstays : touchStep pn t i = (t, []) → Stepped pn t i := by
    intro heq
    refine .quiet ?_ (congrArg Prod.snd heq)
    rw [heq]
    exact quiet_refl t
  cases i with
  | screen on => exact .quiet (quiet_same rfl) rfl
  | read e =>
    by_cases hfd : t.fd = true
    · have heq : touchStep pn t (.read e) = touchEvent pn t e := if_pos hfd
      by_cases he : ∃ stamp now interactive d, e = .synReport stamp now interactive d
      · obtain ⟨stamp, now, interactive, d, rfl⟩ := he
        exact .report rfl hfd heq
      · obtain ⟨hquiet, hnone⟩ := quiet_touchEvent pn t (e := e) fun stamp now interactive d h =>
          he ⟨stamp, now, interactive, d, h⟩
        rw [← heq] at hquiet hnone
        exact .quiet hquiet hnone
    · exact hstays (if_neg hfd)
  | gone now =>
    by_cases hfd : t.fd = true
    · exact .gone hfd (if_pos hfd)
    · exact hstays (if_neg hfd)
  | look found =>
    by_cases hfd : t.fd = true
    · exact hstays (if_pos hfd)
    · exact .look (Bool.eq_false_iff.mpr hfd) (if_neg hfd)

/-- **Every step goes on with the gestures.** -/
theorem tells_step (pn : Panel) (h : Between t) (i : Input) : Tells t (touchStep pn t i) := by
  cases stepped pn t i with
  | @report stamp now interactive d hi hfd heq =>
    have hquiet := quiet_atReport d t
    have htells := tells_report pn (eventTime stamp now) interactive (hquiet.between h)
      (hquiet.fd.trans hfd)
    rw [heq]
    refine ⟨?_, htells.between⟩
    rw [← hquiet.isOpen]
    exact htells.gesture
  | quiet hquiet hnone =>
    refine ⟨?_, hquiet.between h⟩
    rw [hnone, hquiet.isOpen]
    rfl
  | gone hfd heq =>
    rw [heq]
    refine ⟨?_, fun _ => rfl, fun hopen => (nomatch hopen)⟩
    unfold touchGone isOpen
    cases hp : t.p with
    | none => rfl
    | some p => cases hw : t.waking <;> rfl
  | @look found hfd heq =>
    obtain ⟨hp, hwaking⟩ := touchOpen_spec found t
    rw [heq]
    refine ⟨?_, fun _ => hp, fun _ _ => hwaking⟩
    unfold isOpen
    rw [hp, h.gone hfd]
    rfl

/-- A run goes on with the gestures. -/
theorem gesture_run (pn : Panel) : ∀ (l : List Input) {t : Touch}, Between t →
    gestureAll (isOpen t) (touches (touchShown pn t l)) =
      some (isOpen (l.foldl (fun t i => (touchStep pn t i).1) t))
  | [], _, _ => rfl
  | i :: l, t, h => by
    have hstep := tells_step pn h i
    rw [touchShown, touches_append, gestureAll_append hstep.gesture]
    exact gesture_run pn l hstep.between

theorem between_after (pn : Panel) (l : List Input) : Between (touchAfter pn l) :=
  @Runs.invariant_all _ _ (fun t i => (touchStep pn t i).1) Between
    (fun _ i h => (tells_step pn h i).between) _ between_start l

/-- A gesture: down, so many moves, up. -/
def whole (n : ℕ) : List Gesture := .down :: replicate n .move ++ [.up]

/-- What the grammar takes from a gesture under way on: moves, then the end of it or of the list. -/
theorem gestureAll_open : ∀ {l : List Gesture} {b : Bool}, gestureAll true l = some b →
    ∃ n, (l = replicate n .move ∧ b = true) ∨
      ∃ m, l = replicate n .move ++ .up :: m ∧ gestureAll false m = some b
  | [], b, h => by
    obtain rfl : true = b := some.inj h
    exact ⟨0, .inl ⟨rfl, rfl⟩⟩
  | .down :: l, b, h => nomatch h
  | .up :: l, b, h => ⟨0, .inr ⟨l, rfl, h⟩⟩
  | .move :: l, b, h => by
    obtain ⟨n, hl | ⟨m, rfl, hm⟩⟩ := gestureAll_open (l := l) h
    · exact ⟨n + 1, .inl ⟨by rw [hl.1, replicate_succ], hl.2⟩⟩
    · exact ⟨n + 1, .inr ⟨m, by rw [replicate_succ, cons_append], hm⟩⟩

/-- **Whole gestures**, and the one that is under way. -/
theorem gestureAll_wholes {b : Bool} : ∀ (k : ℕ) {l : List Gesture}, l.length ≤ k →
    gestureAll false l = some b →
    ∃ ns : List ℕ, (l = ns.flatMap whole ∧ b = false) ∨
      ∃ n, l = ns.flatMap whole ++ .down :: replicate n .move ∧ b = true
  | _, [], _, h => by
    obtain rfl : false = b := some.inj h
    exact ⟨[], .inl ⟨rfl, rfl⟩⟩
  | _, .move :: _, _, h => nomatch h
  | _, .up :: _, _, h => nomatch h
  | k + 1, .down :: l, hk, h => by
    obtain ⟨n, ⟨hl, hb⟩ | ⟨m, rfl, hm⟩⟩ := gestureAll_open (l := l) h
    · exact ⟨[], .inr ⟨n, by rw [hl]; rfl, hb⟩⟩
    · have hlen : m.length ≤ k := by
        rw [length_cons, length_append, length_cons] at hk
        omega
      have hhead : Gesture.down :: (replicate n .move ++ .up :: m) = whole n ++ m := by
        unfold whole
        rw [cons_append, cons_append, append_assoc]
        rfl
      obtain ⟨ns, ⟨hns, hb⟩ | ⟨j, hns, hb⟩⟩ := gestureAll_wholes k hlen hm
      · exact ⟨n :: ns, .inl ⟨by rw [hhead, hns]; rfl, hb⟩⟩
      · refine ⟨n :: ns, .inr ⟨j, ?_, hb⟩⟩
        rw [hhead, hns, ← append_assoc]
        rfl

/-! ### One finger -/

/-- What is told changes only whether the screen is on. -/
theorem tell_keeps (pn : Panel) (time : ℤ) (interactive : Option Bool) (fresh : Bool) (t : Touch) :
    ∃ on w, (tell pn time interactive fresh t).1 = { t with screenOn := on, waking := w } ∧
      (fresh = false → w = t.waking) := by
  have hsame : ∃ on w, t = { t with screenOn := on, waking := w } ∧
      (fresh = false → w = t.waking) :=
    ⟨t.screenOn, t.waking, rfl, fun _ => rfl⟩
  unfold tell
  dsimp only
  split
  case h_1 => exact hsame
  case h_2 =>
    split
    case isTrue hfresh =>
      split
      case isTrue => exact ⟨interactive.getD t.screenOn, t.waking, rfl, fun _ => rfl⟩
      case isFalse => exact ⟨true, true, rfl, fun h => absurd (hfresh.symm.trans h) (by decide)⟩
    case isFalse => exact hsame

/-- What a report leaves of the slots. -/
theorem report_slots (pn : Panel) (time : ℤ) (interactive : Option Bool) (t : Touch) :
    (report pn time interactive t).1.id = t.id ∧ (report pn time interactive t).1.fd = t.fd ∧
    ∀ k, (report pn time interactive t).1.born k = false := by
  obtain ⟨on, w, heq, -⟩ :=
    tell_keeps pn time interactive (follow pn time (liftFollowed pn time (land pn time t)).1).2
    (follow pn time (liftFollowed pn time (land pn time t)).1).1
  have hlift : (liftFollowed pn time (land pn time t)).1.id = t.id ∧
      (liftFollowed pn time (land pn time t)).1.fd = t.fd := by
    unfold liftFollowed
    split <;> exact ⟨rfl, rfl⟩
  unfold report
  dsimp only
  rw [heq]
  exact ⟨hlift.1, hlift.2, fun _ => rfl⟩

/-- The finger that a gesture follows, in its slot: another there, or none, and it has lifted. -/
structure Follows (k : Place) (v : ℤ) (t : Touch) : Prop where
  p : t.p = some k
  waking : t.waking = false
  id : t.lift = false → t.id k = v

theorem Quiet.follows (h : Quiet t t') (ht : Follows k v t) : Follows k v t' := by
  refine ⟨h.p.trans ht.p, h.waking.trans ht.waking, fun hlift => ?_⟩
  obtain ⟨hlift', hid⟩ := h.lift k ht.p hlift
  exact hid.trans (ht.id hlift')

/-- A report that does not end the gesture goes on with its finger. -/
theorem follows_report (pn : Panel) (time : ℤ) (interactive : Option Bool)
    (ht : Follows k v t) (hup : .up ∉ touches (report pn time interactive t).2) :
    Follows k v (report pn time interactive t).1 := by
  have hsome : t.p.isSome := by
    rw [ht.p]
    rfl
  have hlift : t.lift = false := by
    by_contra hlift
    apply hup
    have htold : (liftFollowed pn time (land pn time t)).2 = [shown pn .up t.lx t.ly time] := by
      have hboth : (land pn time t).p.isSome ∧ (land pn time t).lift :=
        ⟨hsome, Bool.of_not_eq_false hlift⟩
      have hw : (land pn time t).waking = false := ht.waking
      unfold liftFollowed
      rw [if_pos hboth]
      dsimp only
      rw [if_neg (by rw [hw]; decide)]
      rfl
    have hsplit : (report pn time interactive t).2 =
      (liftFollowed pn time (land pn time t)).2 ++ _ := rfl
    rw [hsplit, touches_append, htold]
    exact mem_cons_self
  have hlifted := lifted_liftFollowed pn time (land pn time t)
  have hid := (report_slots pn time interactive t).1
  obtain ⟨hup', hwaking, -⟩ : (liftFollowed pn time (land pn time t)).1.p = t.p ∧
    (liftFollowed pn time (land pn time t)).1.waking = t.waking ∧ _ := hlifted.stays hlift
  obtain ⟨-, hfwaking, hfsome, -⟩ := follow_spec pn time (liftFollowed pn time (land pn time t)).1
  obtain ⟨hfp, hfresh⟩ := hfsome (by rw [hup']; exact hsome)
  obtain ⟨-, htp, htwaking, -⟩ :=
    tell_spec pn time interactive (follow pn time (liftFollowed pn time (land pn time t)).1).2
    (follow pn time (liftFollowed pn time (land pn time t)).1).1
  refine ⟨?_, ?_, fun _ => ?_⟩
  · exact htp.trans (hfp.trans (hup'.trans ht.p))
  · exact (htwaking hfresh).trans (hfwaking.trans (hwaking.trans ht.waking))
  · exact (congrFun hid k).trans (ht.id hlift)

/-- **A gesture goes on with its finger.** -/
theorem follows_step (pn : Panel) (h : Between t) (ht : Follows k v t) (i : Input)
    (hup : .up ∉ touches (touchStep pn t i).2) : Follows k v (touchStep pn t i).1 := by
  cases stepped pn t i with
  | @report stamp now interactive d hi hfd heq =>
    rw [heq] at hup ⊢
    exact follows_report pn (eventTime stamp now) interactive ((quiet_atReport d t).follows ht) hup
  | quiet hquiet hnone => exact hquiet.follows ht
  | gone hfd heq =>
    -- The node goes away: the gesture ends.
    exfalso
    apply hup
    rw [heq]
    unfold touchGone
    dsimp only
    rw [ht.p]
    dsimp only
    rw [if_neg (by rw [ht.waking]; decide)]
    exact mem_cons_self
  | look hfd heq => exact nomatch (h.gone hfd).symm.trans ht.p

theorem follows_run (pn : Panel) : ∀ (l : List Input) {t : Touch}, Between t → Follows k v t →
    .up ∉ touches (touchShown pn t l) → Follows k v (l.foldl (fun t i => (touchStep pn t i).1) t)
  | [], _, _, ht, _ => ht
  | i :: l, t, h, ht, hup => by
    rw [touchShown, touches_append, mem_append] at hup
    have hstep := follows_step pn h ht i fun hfirst => hup (.inl hfirst)
    exact follows_run pn l (tells_step pn h i).between hstep fun hrest => hup (.inr hrest)

/-! ### A touch that wakes the screen -/

/-- A finger followed from now on begins a gesture, or wakes the screen. -/
theorem touches_tell (pn : Panel) (time : ℤ) (interactive : Option Bool) (t : Touch) :
    touches (tell pn time interactive true t).2 = [] ∨
      (touches (tell pn time interactive true t).2 = [.down] ∧
        (tell pn time interactive true t).1.waking = t.waking) := by
  unfold tell
  have hlooked : touches (if interactive.getD t.screenOn = t.screenOn then [] else
      [Shown.screen (interactive.getD t.screenOn) time]) = [] := by
    split <;> rfl
  cases hp : t.p with
  | none => exact .inl rfl
  | some p =>
    dsimp only
    rw [if_pos rfl]
    split
    case isTrue =>
      refine .inr ⟨?_, rfl⟩
      rw [touches_append, hlooked]
      rfl
    case isFalse =>
      refine .inl ?_
      rw [touches_append, hlooked]
      rfl

/-- What a report tells of a touch that wakes the screen: the one followed after it, or before. -/
theorem report_waking (pn : Panel) (time : ℤ) (interactive : Option Bool) (h : Between t)
    (hfd : t.fd = true) :
    ((report pn time interactive t).1.waking = true →
      touches (report pn time interactive t).2 = [] ∨
      touches (report pn time interactive t).2 = [.up] ∧ t.waking = false) ∧
    (t.p.isSome → t.waking = true → touches (report pn time interactive t).2 = [] ∨
      touches (report pn time interactive t).2 = [.down] ∧ t.lift = true) := by
  have hlifted := lifted_liftFollowed pn time (land pn time t)
  unfold report
  dsimp only
  generalize hu : liftFollowed pn time (land pn time t) = u at hlifted
  obtain ⟨-, hfwaking, hfsome, hfnone⟩ := follow_spec pn time u.1
  generalize hv : follow pn time u.1 = v at hfwaking hfsome hfnone
  obtain ⟨-, htp, htwaking, htnone⟩ := tell_spec pn time interactive v.2 v.1
  have hsame : t.lift = false → u.1.p = t.p ∧ u.1.waking = t.waking ∧ u.2 = [] := hlifted.stays
  have hgoes : t.p.isSome → t.lift = true →
    u.1.p = none ∧ u.1.waking = false ∧ (t.waking = true → u.2 = []) := hlifted.goes
  have hnone : t.p = none → u.1.p = none ∧ u.1.waking = t.waking := hlifted.none
  have hgesture : gestureAll (isOpen t) (touches u.2) = some (isOpen u.1) := hlifted.gesture
  rw [touches_append]
  -- What lifting tells: the end of a gesture, if one was under way and the finger lifted.
  have hup : touches u.2 = [] ∨ touches u.2 = [.up] ∧ t.waking = false := by
    cases hw : t.waking with
    | true =>
      rcases hlift : t.lift with _ | _
      · exact .inl (by rw [(hsame hlift).2.2]; rfl)
      · cases hp : t.p with
        | none =>
          rw [← hu]
          unfold liftFollowed
          rw [if_neg]
          · exact .inl rfl
          · intro hboth
            have hsome : t.p.isSome = true := hboth.1
            rw [hp] at hsome
            exact nomatch hsome
        | some p => exact .inl (by rw [(hgoes (by rw [hp]; rfl) hlift).2.2 hw]; rfl)
    | false =>
      rw [← hu]
      unfold liftFollowed
      split
      case isTrue =>
        refine .inr ⟨?_, rfl⟩
        have hww : (land pn time t).waking = false := hw
        dsimp only
        rw [hww]
        rfl
      case isFalse => exact .inl rfl
  constructor
  · intro hwakes
    have htell : touches (tell pn time interactive v.2 v.1).2 = [] := by
      cases hfresh : v.2 with
      | false =>
        rw [hfresh] at hwakes htwaking
        have hvw := (htwaking rfl).symm.trans hwakes
        unfold tell
        cases hp : v.1.p with
        | none => rfl
        | some p =>
          dsimp only
          rw [if_neg (by decide), if_pos hvw]
          rfl
      | true =>
        rw [hfresh] at hwakes
        rcases touches_tell pn time interactive v.1 with htell | ⟨-, hwaking⟩
        · exact htell
        · -- A gesture began, so the touch did not wake the screen.
          exfalso
          have huw : u.1.waking = true := hfwaking.symm.trans (hwaking.symm.trans hwakes)
          have hup : u.1.p = none := by
            cases hp : u.1.p with
            | none => rfl
            | some k => exact absurd ((hfsome (by rw [hp]; rfl)).2.symm.trans hfresh) (by decide)
          cases hp : t.p with
          | none =>
            exact absurd ((h.waking hfd hp).symm.trans ((hnone hp).2.symm.trans huw)) (by decide)
          | some k =>
            have hsome : t.p.isSome := by rw [hp]; rfl
            cases hlift : t.lift with
            | false => exact nomatch hup.symm.trans ((hsame hlift).1.trans hp)
            | true => exact absurd ((hgoes hsome hlift).2.1.symm.trans huw) (by decide)
    rw [htell, append_nil]
    exact hup
  · intro hsome hw
    have hnothing : touches u.2 = [] := by
      rcases hup with hup | ⟨-, hnot⟩
      · exact hup
      · exact absurd (hw.symm.trans hnot) (by decide)
    rw [hnothing, nil_append]
    cases hlift : t.lift with
    | false =>
      obtain ⟨hp, hwaking, -⟩ := hsame hlift
      obtain ⟨hvp, hfresh⟩ := hfsome (by rw [hp]; exact hsome)
      refine .inl ?_
      rw [hfresh]
      unfold tell
      cases hvp' : v.1.p with
      | none => rfl
      | some p =>
        dsimp only
        rw [if_neg (by decide), if_pos (hfwaking.trans (hwaking.trans hw))]
        rfl
    | true =>
      obtain ⟨hp, -, -⟩ := hgoes hsome hlift
      cases hfresh : v.2 with
      | true =>
        rcases touches_tell pn time interactive v.1 with htell | ⟨htell, -⟩
        · exact .inl htell
        · exact .inr ⟨htell, rfl⟩
      | false =>
        have hvp : v.1.p = none := by
          have hvsome := (hfnone hp).symm.trans hfresh
          cases hq : v.1.p with
          | none => rfl
          | some q =>
            rw [hq] at hvsome
            exact nomatch hvsome
        rw [hfresh] at htnone
        rw [htnone hvp]
        exact .inl rfl

/-! ### Fingers that are no touch of their own -/

/-- The finger in a slot is no touch of its own: it is not followed, nor will it be while it stays
down, for some finger is or has been since the last time that none was down, and it is not marked as
one that is next, unless the touch followed woke the screen and takes the mark with it. -/
structure Aside (k : Place) (t : Touch) : Prop where
  down : 0 ≤ t.id k
  other : t.p ≠ some k
  born : t.born k = false
  rest : t.fd = true → t.p.isSome ∨ t.rest = true
  later : t.fd = true → t.later k = true → t.waking = true ∧ t.p.isSome

theorem Quiet.aside (h : Quiet t t') (ht : Aside k t) (hid : t'.id k = t.id k) : Aside k t' := by
  have hdown : 0 ≤ t'.id k := hid ▸ ht.down
  refine ⟨hdown, ?_, ?_, ?_, ?_⟩
  · rw [h.p]
    exact ht.other
  · rw [h.born k hid]
    exact ht.born
  · rw [h.fd, h.p, h.rest]
    exact ht.rest
  · rw [h.fd, h.p, h.waking, h.later k hdown]
    exact ht.later

/-- **A finger that is no touch of its own stays one** over a report. -/
theorem aside_report (pn : Panel) (time : ℤ) (interactive : Option Bool) (ht : Aside k t)
    (hfd : t.fd = true) : Aside k (report pn time interactive t).1 := by
  -- Once the finger followed has lifted, or not.
  have hlifted : Aside k (liftFollowed pn time (land pn time t)).1 ∧
      (liftFollowed pn time (land pn time t)).1.fd = true := by
    have hmark : (land pn time t).later k = true → t.later k = true := by
      intro h
      change (t.later k && _) = true at h
      exact (Bool.and_eq_true_iff.mp h).1
    unfold liftFollowed
    split
    case isTrue hboth =>
      refine ⟨⟨ht.down, fun h => (nomatch h), ht.born, fun _ => .inr rfl, fun _ hlater => ?_⟩, hfd⟩
      dsimp only at hlater
      split at hlater
      case isTrue => exact nomatch hlater
      case isFalse hw => exact absurd (ht.later hfd (hmark hlater)).1 hw
    case isFalse =>
      exact ⟨⟨ht.down, ht.other, ht.born, fun _ => ht.rest hfd, fun _ hlater =>
        ht.later hfd (hmark hlater)⟩, hfd⟩
  unfold report
  dsimp only
  generalize (liftFollowed pn time (land pn time t)) = u at hlifted
  obtain ⟨hu, hufd⟩ := hlifted
  -- The next finger followed is not this one.
  have hrest := hu.rest hufd
  have hany : ((finRange 10).any fun j => decide (0 ≤ u.1.id j)) = true :=
    any_eq_true.mpr ⟨k, mem_finRange k, decide_eq_true hu.down⟩
  have hfollow : (follow pn time u.1).1.p ≠ some k ∧
      ((follow pn time u.1).1.p.isSome ∨ (follow pn time u.1).1.rest = true) ∧
      ((follow pn time u.1).1.later k = true → u.1.later k = true) ∧
      (u.1.p.isSome → (follow pn time u.1).1.p = u.1.p ∧ (follow pn time u.1).2 = false) := by
    unfold follow
    dsimp only
    rw [hany, Bool.and_true]
    refine ⟨?_, ?_, ?_, ?_⟩
    · cases hp : u.1.p with
      | some j =>
        rw [some_or]
        intro h
        exact hu.other (hp.trans h)
      | none =>
        rw [none_or]
        intro hfound
        rw [isSome_none, if_neg (by decide)] at hfound
        have hmay := find?_some hfound
        have hresting : u.1.rest = true := by
          rcases hrest with hsome | hresting
          · rw [hp] at hsome
            exact nomatch hsome
          · exact hresting
        have hlater : u.1.later k = false := by
          rw [Bool.eq_false_iff]
          intro h
          have hsome := (hu.later hufd h).2
          rw [hp] at hsome
          exact nomatch hsome
        unfold mayFollow at hmay
        dsimp only at hmay
        rw [hresting, hu.born, hlater] at hmay
        simp at hmay
    · rcases hrest with hsome | hresting
      · refine .inl ?_
        obtain ⟨j, hj⟩ := isSome_iff_exists.mp hsome
        rw [hj]
        rfl
      · exact .inr hresting
    · intro h
      rw [hu.born, Bool.and_false, Bool.or_false] at h
      exact (Bool.and_eq_true_iff.mp h).1
    · intro hsome
      rw [if_pos hsome]
      obtain ⟨j, hj⟩ := isSome_iff_exists.mp hsome
      rw [hj]
      exact ⟨rfl, rfl⟩
  obtain ⟨hother, hresting, hmark, hstays⟩ := hfollow
  obtain ⟨on, w, heq, hw⟩ :=
    tell_keeps pn time interactive (follow pn time u.1).2 (follow pn time u.1).1
  rw [heq]
  refine ⟨hu.down, hother, rfl, fun _ => hresting, fun _ hlater => ?_⟩
  obtain ⟨hwaking, hsome⟩ := hu.later hufd (hmark hlater)
  obtain ⟨hp, hfresh⟩ := hstays hsome
  refine ⟨(hw hfresh).trans hwaking, ?_⟩
  dsimp only
  rw [hp]
  exact hsome

/-- **A finger that is no touch of its own stays one**, as long as it stays down. -/
theorem aside_step (pn : Panel) (ht : Aside k t) (i : Input)
    (hid : (touchStep pn t i).1.id k = t.id k) : Aside k (touchStep pn t i).1 := by
  cases stepped pn t i with
  | @report stamp now interactive d hi hfd heq =>
    rw [heq] at hid ⊢
    have hquiet := quiet_atReport d t
    have hslots := (report_slots pn (eventTime stamp now) interactive (atReport d t)).1
    have hsame : (atReport d t).id k = t.id k := (congrFun hslots k).symm.trans hid
    exact aside_report pn (eventTime stamp now) interactive (hquiet.aside ht hsame)
      (hquiet.fd.trans hfd)
  | quiet hquiet hnone => exact hquiet.aside ht hid
  | gone hfd heq =>
    rw [heq]
    exact ⟨ht.down, fun h => (nomatch h), ht.born, fun h => (nomatch h), fun h => (nomatch h)⟩
  | @look found hfd heq =>
    rw [heq] at hid ⊢
    cases found with
    | none =>
      change (-1 : ℤ) = t.id k at hid
      have hdown := ht.down
      omega
    | some d =>
      -- The finger is down when the node is opened: the next is followed once none is.
      have hdown : 0 ≤ (touchOpen (some d) t).id k := hid ▸ ht.down
      have hany : ∀ u : Touch, 0 ≤ u.id k →
          (u.rest || (finRange 10).any fun j => decide (0 ≤ u.id j)) = true := by
        intro u hu
        rw [Bool.or_eq_true]
        exact .inr (any_eq_true.mpr ⟨k, mem_finRange k, decide_eq_true hu⟩)
      refine ⟨hdown, fun h => (nomatch h), rfl, fun _ => .inr ?_, fun _ hlater => ?_⟩
      · exact hany
          (touchResync d (touchReset { t with fd := true, slot := toPlace (d.slot.getD 0) })) hdown
      · change (false && decide (0 ≤ d.id.getD (fun _ => -1) k)) = true at hlater
        exact nomatch hlater

theorem aside_run (pn : Panel) : ∀ (l : List Input) {t : Touch}, Aside k t →
    (∀ m, m <+: l → (m.foldl (fun t i => (touchStep pn t i).1) t).id k = t.id k) →
    Aside k (l.foldl (fun t i => (touchStep pn t i).1) t)
  | [], _, h, _ => h
  | i :: l, t, h, hid => by
    have hfirst : (touchStep pn t i).1.id k = t.id k := hid [i] ⟨l, rfl⟩
    refine aside_run pn l (aside_step pn h i hfirst) fun m hm => ?_
    exact (hid (i :: m) (cons_prefix_cons.mpr ⟨rfl, hm⟩)).trans hfirst.symm

/-! ### Fingers that land with the one followed, or soon after it -/

/-- A report that is read: its time, and what the device answers. -/
def theReport : Input → Option (ℤ × Device)
  | .read (.synReport stamp now _ d) => some (eventTime stamp now, d)
  | _ => none

/-- A finger lands in a slot: at a report it is new there, and down. -/
def Lands (t : Touch) (i : Input) (k : Place) : Prop :=
  ∃ r ∈ theReport i, t.fd = true ∧ (atReport r.2 t).born k = true ∧ 0 ≤ (atReport r.2 t).id k

/-- Another finger is the one followed. -/
def Beside (pn : Panel) (t : Touch) (i : Input) (k : Place) : Prop :=
  ∃ p ∈ (touchStep pn t i).1.p, p ≠ k

/-- The one followed landed less than `LATER_MS` ago. -/
def Soon (pn : Panel) (t : Touch) (i : Input) : Prop :=
  ∃ r ∈ theReport i, r.1 - (touchStep pn t i).1.pt0 < laterMs

/-- The slot's `later` is set at the report: it is marked as one whose finger is next. -/
def Marked (t : Touch) (i : Input) (k : Place) : Prop :=
  ∃ r ∈ theReport i, (atReport r.2 t).later k = true

instance (t : Touch) (i : Input) (k : Place) : Decidable (Lands t i k) :=
  inferInstanceAs (Decidable (∃ r ∈ theReport i, _ ∧ _ ∧ _))

instance (pn : Panel) (t : Touch) (i : Input) (k : Place) : Decidable (Beside pn t i k) :=
  inferInstanceAs (Decidable (∃ p ∈ (touchStep pn t i).1.p, p ≠ k))

instance (pn : Panel) (t : Touch) (i : Input) : Decidable (Soon pn t i) :=
  inferInstanceAs (Decidable (∃ r ∈ theReport i, r.1 - _ < laterMs))

instance (t : Touch) (i : Input) (k : Place) : Decidable (Marked t i k) :=
  inferInstanceAs (Decidable (∃ r ∈ theReport i, (atReport r.2 t).later k = true))

/-- What a report is a step of. -/
theorem theReport_eq {i : Input} {r : ℤ × Device} (h : r ∈ theReport i) :
    ∃ stamp now interactive, i = .read (.synReport stamp now interactive r.2) ∧
    r.1 = eventTime stamp now := by
  match i with
  | .read (.synReport stamp now interactive d) =>
    obtain rfl : (eventTime stamp now, d) = r := some.inj h
    exact ⟨stamp, now, interactive, rfl, rfl⟩

/-- A slot that was not marked is marked only for a finger that lands well after the one
followed. -/
theorem report_later (pn : Panel) (time : ℤ) (interactive : Option Bool)
    (hsoon : time - (report pn time interactive t).1.pt0 < laterMs)
    (hlater : (report pn time interactive t).1.later k = true) : t.later k = true := by
  have hlift : (liftFollowed pn time (land pn time t)).1.later k = true → t.later k = true := by
    have hland : (land pn time t).later k = true → t.later k = true := by
      intro h
      change (t.later k && _) = true at h
      exact (Bool.and_eq_true_iff.mp h).1
    unfold liftFollowed
    split
    case isTrue =>
      intro h
      dsimp only at h
      split at h
      case isTrue => exact nomatch h
      case isFalse => exact hland h
    case isFalse => exact hland
  unfold report at hsoon hlater
  dsimp only at hsoon hlater
  generalize (liftFollowed pn time (land pn time t)) = u at hlift hsoon hlater
  obtain ⟨on, w, heq, -⟩ :=
    tell_keeps pn time interactive (follow pn time u.1).2 (follow pn time u.1).1
  rw [heq] at hsoon hlater
  apply hlift
  change ((u.1.later k ||
    (decide (((follow pn time u.1).1.p).isSome ∧ laterMs ≤ time - (follow pn time u.1).1.pt0) &&
    u.1.born k)) && decide ((follow pn time u.1).1.p ≠ some k)) = true at hlater
  change time - (follow pn time u.1).1.pt0 < laterMs at hsoon
  rw [decide_eq_false (fun h => absurd h.2 (Int.not_le.mpr hsoon)), Bool.false_and,
    Bool.or_false] at hlater
  exact (Bool.and_eq_true_iff.mp hlater).1

/-- **A finger that lands beside the one followed, or soon after it, is no touch of its own**,
unless its slot was still marked. -/
theorem aside_landed {i : Input} (hlands : Lands t i k) (hbeside : Beside pn t i k)
    (hsoon : Soon pn t i) (hmark : ¬ Marked t i k ∨ (touchStep pn t i).1.waking = true) :
    Aside k (touchStep pn t i).1 := by
  obtain ⟨p, hp, hne⟩ := hbeside
  obtain ⟨r, hr, hfd, -, hdown⟩ := hlands
  obtain ⟨stamp, now, interactive, rfl, htime⟩ := theReport_eq hr
  have heq : touchStep pn t (.read (.synReport stamp now interactive r.2)) =
      report pn (eventTime stamp now) interactive (atReport r.2 t) := if_pos hfd
  obtain ⟨r', hr', hsoon⟩ := hsoon
  obtain rfl : r = r' := some.inj (hr.symm.trans hr')
  rw [htime] at hsoon
  rw [heq] at hp hsoon hmark ⊢
  obtain ⟨hid, -, hborn⟩ := report_slots pn (eventTime stamp now) interactive (atReport r.2 t)
  have hp : (report pn (eventTime stamp now) interactive (atReport r.2 t)).1.p = some p := hp
  have hsome : (report pn (eventTime stamp now) interactive (atReport r.2 t)).1.p.isSome := by
    rw [hp]
    rfl
  refine ⟨?_, ?_, hborn k, fun _ => .inl hsome, fun _ hlater => ⟨?_, hsome⟩⟩
  · rw [hid]
    exact hdown
  · rw [hp]
    intro h
    exact hne (some.inj h)
  · rcases hmark with hmark | hwaking
    · exact absurd ⟨r, hr, report_later pn _ interactive hsoon hlater⟩ hmark
    · exact hwaking

/-! ### Every run -/

/-- A touch that woke the screen is under way. -/
def Wakes (t : Touch) : Prop := t.p.isSome = true ∧ t.waking = true

/-- The finger followed is gone at the report. -/
def Lifts (t : Touch) (i : Input) : Prop := ∃ r ∈ theReport i, (atReport r.2 t).lift = true

/-- **Nothing is told of a touch that woke the screen**: in the report in which it begins or ends,
only of the one before it or after it. -/
theorem wakes_step (pn : Panel) (h : Between t) (i : Input) :
    (Wakes (touchStep pn t i).1 → touches (touchStep pn t i).2 = [] ∨
      touches (touchStep pn t i).2 = [.up] ∧ ¬ Wakes t) ∧
    (Wakes t → touches (touchStep pn t i).2 = [] ∨
      touches (touchStep pn t i).2 = [.down] ∧ Lifts t i ∧ ¬ Wakes (touchStep pn t i).1) := by
  have hnothing : touches (touchStep pn t i).2 = [] →
      (Wakes (touchStep pn t i).1 → touches (touchStep pn t i).2 = [] ∨
        touches (touchStep pn t i).2 = [.up] ∧ ¬ Wakes t) ∧
      (Wakes t → touches (touchStep pn t i).2 = [] ∨
        touches (touchStep pn t i).2 = [.down] ∧ Lifts t i ∧ ¬ Wakes (touchStep pn t i).1) :=
    fun hnone => ⟨fun _ => .inl hnone, fun _ => .inl hnone⟩
  cases stepped pn t i with
  | @report stamp now interactive d hi hfd heq =>
    have hquiet := quiet_atReport d t
    obtain ⟨hafter, hbefore⟩ :=
      report_waking pn (eventTime stamp now) interactive (hquiet.between h)
      (hquiet.fd.trans hfd)
    rw [heq]
    constructor
    · intro hwakes
      rcases hafter hwakes.2 with hnone | ⟨hup, hnot⟩
      · exact .inl hnone
      · exact .inr ⟨hup, fun hw =>
          absurd ((hquiet.waking.symm.trans hnot).symm.trans hw.2) (by decide)⟩
    · intro hwakes
      have hsome : (atReport d t).p.isSome := by
        rw [hquiet.p]
        exact hwakes.1
      -- what was held back is told where the finger goes, and it wakes no more
      rcases hbefore hsome (hquiet.waking.trans hwakes.2) with hnone | ⟨hdown, hlift⟩
      · exact .inl hnone
      · refine .inr ⟨hdown, ⟨_, by rw [hi]; rfl, hlift⟩, fun hw => ?_⟩
        rcases hafter hw.2 with hnone | ⟨hup, -⟩
        · exact nomatch hdown.symm.trans hnone
        · exact nomatch hdown.symm.trans hup
  | quiet hquiet hnone =>
    apply hnothing
    rw [hnone]
    rfl
  | gone hfd heq =>
    rw [heq]
    refine ⟨fun hafter => absurd hafter.1 Bool.false_ne_true, fun hbefore => .inl ?_⟩
    obtain ⟨hsome, hw⟩ := hbefore
    unfold touchGone
    dsimp only
    split
    case h_1 => rfl
    case h_2 =>
      rw [if_pos hw]
      rfl
  | look hfd heq =>
    apply hnothing
    rw [heq]
    rfl

/-- The finger in a slot stays down over the events. -/
def StaysDown (pn : Panel) (t : Touch) (k : Place) (l : List Input) : Prop :=
  ∀ m, m <+: l → (m.foldl (fun t i => (touchStep pn t i).1) t).id k = t.id k

/-- **Touches come out as whole gestures of one finger**, nothing is told of a touch that woke the
screen, and a finger that lands with the one followed, or less than `LATER_MS` after it, is never
followed as long as it stays down: for as long as it is in the slot, if the slot was not marked when
it landed, or the touch followed woke the screen. -/
theorem gestures (pn : Panel) (l : List Input) :
    (∃ ns : List ℕ,
      (touches (touchShown pn touchStart l) = ns.flatMap whole ∧ isOpen (touchAfter pn l) = false) ∨
      ∃ n, touches (touchShown pn touchStart l) = ns.flatMap whole ++ .down :: replicate n .move ∧
        isOpen (touchAfter pn l) = true) ∧
    (∀ l₁ l₂ k v, l = l₁ ++ l₂ → Follows k v (touchAfter pn l₁) →
      .up ∉ touches (touchShown pn (touchAfter pn l₁) l₂) → Follows k v (touchAfter pn l)) ∧
    ∀ l₁ i l₂, l = l₁ ++ i :: l₂ →
      (Wakes (touchStep pn (touchAfter pn l₁) i).1 →
        touches (touchStep pn (touchAfter pn l₁) i).2 = [] ∨
        touches (touchStep pn (touchAfter pn l₁) i).2 = [.up] ∧ ¬ Wakes (touchAfter pn l₁)) ∧
      (Wakes (touchAfter pn l₁) → touches (touchStep pn (touchAfter pn l₁) i).2 = [] ∨
        touches (touchStep pn (touchAfter pn l₁) i).2 = [.down] ∧ Lifts (touchAfter pn l₁) i ∧
          ¬ Wakes (touchStep pn (touchAfter pn l₁) i).1) ∧
      ∀ k, Lands (touchAfter pn l₁) i k → Beside pn (touchAfter pn l₁) i k →
      Soon pn (touchAfter pn l₁) i →
        StaysDown pn (touchStep pn (touchAfter pn l₁) i).1 k l₂ →
        ¬ Marked (touchAfter pn l₁) i k ∨ (touchStep pn (touchAfter pn l₁) i).1.waking = true →
        (touchAfter pn l).p ≠ some k := by
  refine ⟨gestureAll_wholes _ le_rfl (gesture_run pn l between_start),
    fun l₁ l₂ k v hl hfollows hup => ?_, fun l₁ i l₂ hl => ?_⟩
  · have hend : touchAfter pn l =
        l₂.foldl (fun t i => (touchStep pn t i).1) (touchAfter pn l₁) := by
      unfold touchAfter
      rw [hl, foldl_append]
    rw [hend]
    exact follows_run pn l₂ (between_after pn l₁) hfollows hup
  obtain ⟨hafter, hbefore⟩ := wakes_step pn (between_after pn l₁) i
  refine ⟨hafter, hbefore, fun k hlands hbeside hsoon hstays hmark => ?_⟩
  have haside := aside_run pn l₂ (aside_landed hlands hbeside hsoon hmark) hstays
  have hend : touchAfter pn l =
      l₂.foldl (fun t i => (touchStep pn t i).1) (touchStep pn (touchAfter pn l₁) i).1 := by
    unfold touchAfter
    rw [hl, foldl_append, foldl_cons]
  rw [hend]
  exact haside.other

/-- A panel as large as the display. -/
def flat : Panel := ⟨fun x y => (x, y), 0⟩

/-- A report, read as it comes; what the device would answer, asked for its slots. -/
def reportAt (time : ℤ) (id : Option (Place → ℤ)) : Input :=
  .read (.synReport time time none ⟨some 0, id, none, none⟩)

/-- Slots 0 and 1 have these fingers, the others none. -/
def twoDown (a b : ℤ) : Place → ℤ := fun k => if k = 0 then a else if k = 1 then b else -1

/-- Two fingers land together, and the one followed lifts: the other is no touch of its own. -/
theorem gestures_two :
    (touchAfter flat ([.look (some ⟨some 0, none, none, none⟩), .read (.trackingId 1),
      .read (.slot 1), .read (.trackingId 2)] ++
      reportAt 0 none :: [.read (.slot 0), .read (.trackingId (-1)),
        reportAt 50 none])).p ≠ some 1 := by
  have hlands : Lands (touchAfter flat [.look (some ⟨some 0, none, none, none⟩),
      .read (.trackingId 1), .read (.slot 1),
      .read (.trackingId 2)]) (reportAt 0 none) 1 := by decide
  refine ((gestures flat _).2.2 _ _ _ rfl).2.2 1 hlands (by decide) (by decide) ?_
    (.inl (by decide))
  intro m hm
  rw [← mem_inits] at hm
  revert m
  decide

/-- A finger lands 150 ms after the one followed, and is marked.  Then a buffer runs over, during
which both lift and two others land, together, in their slots: the mark is still there.  The one
followed lifts, and the other one is a touch of its own. -/
theorem gestures_stale :
    ¬ ∀ (pn : Panel) (l₁ : List Input) (i : Input) (l₂ : List Input)
      (k : Place), Lands (touchAfter pn l₁) i k →
      Beside pn (touchAfter pn l₁) i k → Soon pn (touchAfter pn l₁) i →
      StaysDown pn (touchStep pn (touchAfter pn l₁) i).1 k l₂ →
      (touchAfter pn (l₁ ++ i :: l₂)).p ≠ some k := by
  intro h
  have hlands : Lands (touchAfter flat [.look (some ⟨some 0, none, none, none⟩),
      .read (.trackingId 1), reportAt 0 none, .read (.slot 1), .read (.trackingId 2),
      reportAt 150 none, .read .synDropped])
      (reportAt 300 (some (twoDown 3 4))) 1 := by decide
  refine h flat _ _ [.read (.slot 0), .read (.trackingId (-1)), reportAt 320 none] 1 hlands
    (by decide) (by decide) ?_ (by decide)
  intro m hm
  rw [← mem_inits] at hm
  revert m
  decide

end Hassmic.Ui
