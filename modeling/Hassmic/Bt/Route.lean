import Hassmic.Lib.Runs
import Hassmic.Volume.Core

/-!
# The route to a Bluetooth speaker

The mixer's output is moved to a speaker and back by a thread of its own, which changes one thing at
a time: the route, or whose volume is in force.  With a speaker that takes absolute volume the mixer
plays at full scale, so the Echo's own volume has to be back before the output is.  The thread holds
the lock while it looks at what is wanted, and releases it for every call it then makes; the other
threads change what is wanted in between.

On the way the thread takes by itself this holds.  Where the audio server lost the route, the thread
only takes note that the output is back on the Echo, and leaves the speaker's volume in force: until
the route is made again, or for good where no speaker is left.

## Main definitions

* `Route`, `Route.step` — the thread between any two of its steps, and what happens.
* `Ordered` — the output went back only behind `core_speaker(SPEAKER_NONE)`.
* `Route.Sound` — what the volume in force has to be.

## Main results

* `loudspeaker_spared` — **no run plays the Echo's loudspeaker at the speaker's scale**, as long as
  no route is found lost while a speaker's volume is in force.
* `loudspeaker_loud` — a run with a lost route that does.
-/

namespace Hassmic.Bt

open Volume (Mode Curve Proc Disk Op)

/-- A device's address. -/
abbrev Addr := ℕ

/-- Where the route thread stands, between two of its locks. -/
inductive Pc
  /-- About to take the lock, at the head of the loop. -/
  | look
  /-- In `pthread_cond_timedwait`. -/
  | wait
  /-- About to ask `audio_a2dp_lost`, for the `i`-th time again. -/
  | ask (a : Addr) (why i : ℕ)
  /-- With its answer. -/
  | asked (a : Addr) (lost : ℤ)
  /-- The stores to `abs_live` around `core_speaker`, and `mode_now` behind them. -/
  | quiet (mode : Mode) (pct : ℤ)
  | speaker (mode : Mode) (pct : ℤ)
  | live (mode : Mode)
  | note (mode : Mode)
  /-- About to call `audio_a2dp_route`, and with its result. -/
  | move (on : Bool) (a : Addr) (name : String)
  | moved (on : Bool) (a : Addr) (r : ℤ)
  deriving DecidableEq

/-- What the thread calls. -/
inductive Call
  | speaker (mode : Mode) (pct : ℤ)
  | route (on : Bool) (a : Addr)

/-- The mode of the last `core_speaker`, `SPEAKER_NONE` before the first. -/
def lastMode : List Call → Mode
  | [] => .none
  | .speaker mode _ :: _ => mode
  | .route _ _ :: l => lastMode l

/-- The output was moved back to the Echo only where `core_speaker(SPEAKER_NONE)` was called since
any other mode.  The last call stands first. -/
def Ordered : List Call → Prop
  | [] => True
  | .route false _ :: l => lastMode l = .none ∧ Ordered l
  | _ :: l => Ordered l

/-- The state of `btout.c`, as far as the route and the volume go.  The calls are kept for the
statements only. -/
structure Route where
  pc : Pc := .look
  failed : Bool := false
  ready : Bool := false
  readyName : String := ""
  wantRoute : Bool := false
  wantAddr : Addr := 0
  routedNow : Bool := false
  routedAddr : Addr := 0
  routeOn : Bool := true
  /-- 1: time to check the route; 2: the HAL let go of its control socket. -/
  recheck : ℕ := 0
  wantAbs : Bool := false
  absPct : ℤ := 0
  modeNow : Mode := .none
  routed : Bool := false
  absLive : Bool := false
  core : Proc
  disk : Disk
  calls : List Call := []

/-- What happens: a step of the thread, with what the call it stands before returns; the end of a
wait; and the other threads. -/
inductive Ev
  | runs (r : ℤ)
  | wakes (timedout : Bool)
  /-- `btout_ready`, `btout_gone`, `btout_route`, `btout_absvol`. -/
  | ready (a : Addr) (name : String)
  | gone
  | route (on : Bool)
  | absvol (on : Bool) (pct : ℤ)
  /-- The HAL's control socket closed. -/
  | hal
  /-- Whatever else is done with the volume. -/
  | core (o : Op)

namespace Route

variable (c : Curve) (s : Route)

/-! ### The thread -/

/-- `off` of `route_thread`. -/
def off : Bool := s.routedNow && (!s.wantRoute || s.wantAddr != s.routedAddr)

/-- `mode` of `route_thread`. -/
def mode : Mode :=
  if s.routedNow && !s.off then if s.wantAbs then .absolute else .mixer else .none

/-- Whether the thread leaves its wait. -/
def due : Bool :=
  s.off || (!s.routedNow && s.wantRoute && !s.failed) ||
    (s.routedNow && !s.off && s.mode != s.modeNow) || (s.routedNow && s.recheck != 0)

/-- What it turns to. -/
def turn : Route :=
  if s.routedNow && !s.off && s.recheck != 0 then
    { s with recheck := 0, pc := .ask s.routedAddr s.recheck 0 }
  else if s.routedNow && s.mode != s.modeNow then { s with pc := .quiet s.mode s.absPct }
  else
    { s with
      pc := .move (!s.routedNow) (if s.routedNow then s.routedAddr else s.wantAddr) s.readyName }

/-- `route_thread` from its lock to the next unlock. -/
def look : Route := if s.due then s.turn else { s with pc := .wait }

/-- The end of a wait. -/
def wakes (timedout : Bool) : Route :=
  look
    (if timedout then
      if s.failed then { s with failed := false }
      else if s.routedNow then { s with recheck := 1 } else s
    else s)

/-- The answer of `audio_a2dp_lost`: asked up to 20 times again where the HAL is gone. -/
def answered (a : Addr) (why i : ℕ) (lost : ℤ) : Route :=
  if why = 2 ∧ lost < 0 ∧ i < 20 then { s with pc := .ask a why (i + 1) }
  else { s with pc := .asked a lost }

/-- The lock behind it. -/
def found (a : Addr) (lost : ℤ) : Route :=
  if 0 < lost ∧ s.routedNow = true ∧ s.routedAddr = a then
    { s with routedNow := false, routed := false, pc := .look }
  else { s with pc := .look }

/-- `core_speaker`. -/
def coreSpeaker (mode : Mode) (pct : ℤ) : Route :=
  { s with
    core := (s.core.speaker c mode pct).1
    disk := s.disk.applyAll (s.core.speaker c mode pct).2
    calls := .speaker mode pct :: s.calls }

/-- The lock behind `audio_a2dp_route`. -/
def settle (on : Bool) (a : Addr) (r : ℤ) : Route :=
  if r = 0 ∨ on = false then
    { s with
      routedNow := on, routedAddr := a, routed := on, recheck := 0, failed := false, pc := .look }
  else { s with failed := true, pc := .look }

/-- The next step of the thread. -/
def runs (r : ℤ) : Route :=
  match s.pc with
  | .look => s.look
  | .wait => s
  | .ask a why i => s.answered a why i r
  | .asked a lost => s.found a lost
  | .quiet mode pct => { s with absLive := false, pc := .speaker mode pct }
  | .speaker mode pct => { s.coreSpeaker c mode pct with pc := .live mode }
  | .live mode => { s with absLive := mode = .absolute, pc := .note mode }
  | .note mode => { s with modeNow := mode, pc := .look }
  | .move on a _ => { s with calls := .route on a :: s.calls, pc := .moved on a r }
  | .moved on a r => s.settle on a r

/-! ### The other threads -/

/-- `btout_ready`. -/
def btoutReady (a : Addr) (name : String) : Route :=
  { s with ready := true, readyName := name, wantRoute := s.routeOn, wantAddr := a }

/-- `btout_gone`. -/
def btoutGone : Route := { s with ready := false, wantRoute := false, wantAbs := false }

/-- `btout_route`. -/
def btoutRoute (on : Bool) : Route := { s with routeOn := on, wantRoute := s.ready && on }

/-- `btout_absvol`. -/
def btoutAbsvol (on : Bool) (pct : ℤ) : Route := { s with wantAbs := on, absPct := pct }

/-- `hal_thread`, where the control socket closes. -/
def halGone : Route := if s.routedNow then { s with recheck := 2 } else s

/-- The other operations on the volume: `core_speaker` is called by the route thread alone. -/
def coreOp : Op → Route
  | .speaker _ _ => s
  | o =>
      { s with
        core := (s.core.op c s.disk o).1
        disk := s.disk.applyAll (s.core.op c s.disk o).2 }

/-- One step. -/
def step : Ev → Route
  | .runs r => s.runs c r
  | .wakes timedout => if s.pc = .wait then s.wakes timedout else s
  | .ready a name => s.btoutReady a name
  | .gone => s.btoutGone
  | .route on => s.btoutRoute on
  | .absvol on pct => s.btoutAbsvol on pct
  | .hal => s.halGone
  | .core o => s.coreOp c o

/-- A run. -/
def run (l : List Ev) : Route := l.foldl (step c) s

/-- The start of a process. -/
def init (d : Disk) : Route where
  core := (d.start c).1
  disk := d.applyAll (d.start c).2

/-- What the volume in force has to be: `core_speaker`'s when the output goes back, when the thread
waits with the output on the Echo, and where `btout_speaker_volume` holds. -/
structure Sound : Prop where
  mode : s.core.mode = lastMode s.calls
  back : Ordered s.calls
  waits : s.pc = .wait → s.routed = false → lastMode s.calls = .none
  volume : s.absLive = true → s.routed = true ∧ lastMode s.calls = .absolute

/-- Whether the thread is about to take note of a lost route. -/
def lost : Bool :=
  match s.pc with
  | .asked _ lost => 0 < lost
  | _ => false

/-- No route is found lost while a speaker's volume is in force. -/
def Spared : Ev → Prop
  | .runs _ => s.lost = true → lastMode s.calls = .none
  | _ => True

/-! ### What holds at each place of the thread -/

/-- The last `core_speaker` and `mode_now`, by where the thread stands. -/
def Place : Prop :=
  match s.pc with
  | .quiet _ _ => s.routedNow = true ∧ lastMode s.calls = s.modeNow
  | .speaker _ _ => s.routedNow = true ∧ lastMode s.calls = s.modeNow ∧ s.absLive = false
  | .live mode => s.routedNow = true ∧ lastMode s.calls = mode ∧ s.absLive = false
  | .note mode => s.routedNow = true ∧ lastMode s.calls = mode
  | .move on _ _ =>
    (!s.routedNow) = on ∧ lastMode s.calls = s.modeNow ∧ (on = false → s.modeNow = .none)
  | .moved on _ _ =>
    (!s.routedNow) = on ∧ lastMode s.calls = s.modeNow ∧ (on = false → s.modeNow = .none)
  | _ => lastMode s.calls = s.modeNow

/-- What holds in every run. -/
structure Held : Prop where
  mode : s.core.mode = lastMode s.calls
  back : Ordered s.calls
  place : s.Place
  routed : s.routed = s.routedNow
  live : s.absLive = true → lastMode s.calls = .absolute

/-- What holds where no route was found lost: off the speaker, no speaker's volume is in force. -/
def Echo : Prop := s.routedNow = false → s.modeNow = .none

variable {c s}

/-! ### `core_speaker` and the other operations on the volume -/

/-- `core_speaker` ends in the mode it was asked for. -/
theorem speaker_mode (p : Proc) (mode : Mode) (pct : ℤ) : (p.speaker c mode pct).1.mode = mode := by
  unfold Proc.speaker
  split
  case isTrue h => exact h.symm
  case isFalse => rfl

theorem setVolume_mode (p : Proc) (v : ℤ) : (p.setVolume c v).1.mode = p.mode := by
  simp only [Proc.setVolume, Proc.mixApply, Proc.musicVolumeKeep]
  split <;> rfl

theorem switched_mode (p : Proc) (keeps : Bool) : (p.switched c keeps).1.mode = p.mode := by
  cases keeps <;> rfl

/-- Nothing else changes the mode. -/
theorem op_mode (p : Proc) (d : Disk) (o : Op) (ho : ∀ mode pct, o ≠ .speaker mode pct) :
    (p.op c d o).1.mode = p.mode := by
  cases o with
  | speaker mode pct => exact absurd rfl (ho mode pct)
  | setVolume v => exact setVolume_mode p v
  | speakerVolume pct => exact setVolume_mode p _
  | separateVolumes set =>
    simp only [Proc.op, Proc.separateVolumes]
    split
    · rfl
    · rw [switched_mode]
      split <;> rfl
  | evenVolume set =>
    simp only [Proc.op, Proc.evenVolume]
    split
    · rfl
    · rw [switched_mode]
  | kind k kind => rfl
  | call on => rfl
  | writeLooks =>
    simp only [Proc.op, Proc.writeLooks]
    split <;> rfl
  | writes =>
    simp only [Proc.op, Proc.writes]
    split <;> rfl
  | writeChecks =>
    simp only [Proc.op, Proc.writeChecks]
    split <;> rfl
  | syncLooks =>
    simp only [Proc.op]
    split <;> rfl
  | syncReads =>
    simp only [Proc.op]
    split <;> rfl
  | syncSets =>
    simp only [Proc.op, Proc.syncSets, Proc.mixApply]
    split
    · split
      · split
        · rfl
        · split <;> rfl
      · rfl
    · rfl
  | save => rfl

/-! ### The thread, step by step -/

/-- The thread at the head of its loop, with the lock. -/
theorem Held.look (h : s.Held) (hp : lastMode s.calls = s.modeNow) : s.look.Held := by
  unfold Route.look
  split
  case isFalse => exact { h with place := hp }
  case isTrue hdue =>
    unfold turn
    split
    case isTrue => exact { h with place := hp }
    case isFalse hask =>
      split
      case isTrue hmode =>
        have hrouted : s.routedNow = true := (Bool.and_eq_true_iff.mp hmode).1
        exact { h with place := ⟨hrouted, hp⟩ }
      case isFalse hmode =>
        refine { h with place := ⟨rfl, hp, ?_⟩ }
        -- the output goes back only where it is not wanted and no mode is left to set
        intro hon
        have hrouted : s.routedNow = true := by simpa using hon
        have hsame : s.mode = s.modeNow := by simpa [hrouted] using hmode
        have hoff : s.off = true := by
          by_contra hno
          simp only [Bool.not_eq_true] at hno
          simp [hrouted, hno] at hask
          simp [due, hrouted, hno, hsame, hask] at hdue
        rw [← hsame]
        simp [Route.mode, hoff]

/-- The thread gives nothing away by waiting. -/
theorem Held.wakes (h : s.Held) (hpc : s.pc = .wait) (timedout : Bool) :
    (s.wakes timedout).Held := by
  have hp : lastMode s.calls = s.modeNow := by simpa [Place, hpc] using h.place
  unfold Route.wakes
  split
  · split
    · refine Held.look { h with place := ?_ } hp
      simpa [Place, hpc] using hp
    · split
      · refine Held.look { h with place := ?_ } hp
        simpa [Place, hpc] using hp
      · exact h.look hp
  · exact h.look hp

/-- A step of the thread. -/
theorem Held.runs (h : s.Held) (r : ℤ) : (s.runs c r).Held := by
  have hplace := h.place
  unfold Place at hplace
  unfold Route.runs
  split
  case h_1 hpc =>
    rw [hpc] at hplace
    exact h.look hplace
  case h_2 => exact h
  case h_3 a why i hpc =>
    rw [hpc] at hplace
    unfold answered
    split <;> exact { h with place := hplace }
  case h_4 a lost hpc =>
    rw [hpc] at hplace
    unfold found
    split
    · exact { h with place := hplace, routed := rfl }
    · exact { h with place := hplace }
  case h_5 mode pct hpc =>
    rw [hpc] at hplace
    exact { h with place := ⟨hplace.1, hplace.2, rfl⟩, live := nofun }
  case h_6 mode pct hpc =>
    rw [hpc] at hplace
    refine ⟨speaker_mode s.core mode pct, h.back, ⟨hplace.1, rfl, hplace.2.2⟩, h.routed, ?_⟩
    intro hlive
    exact nomatch hplace.2.2.symm.trans hlive
  case h_7 mode hpc =>
    rw [hpc] at hplace
    refine { h with place := ⟨hplace.1, hplace.2.1⟩, live := ?_ }
    intro hlive
    rw [hplace.2.1]
    exact of_decide_eq_true hlive
  case h_8 mode hpc =>
    rw [hpc] at hplace
    exact { h with place := hplace.2 }
  case h_9 on a name hpc =>
    rw [hpc] at hplace
    obtain ⟨hon, hlast, hnone⟩ := hplace
    refine { h with back := ?_, place := ⟨hon, hlast, hnone⟩ }
    cases on with
    | true => exact h.back
    | false => exact ⟨hlast.trans (hnone rfl), h.back⟩
  case h_10 on a r hpc =>
    rw [hpc] at hplace
    unfold settle
    split
    · exact { h with place := hplace.2.1, routed := rfl }
    · exact { h with place := hplace.2.1 }

/-- What the other threads leave alone. -/
theorem Held.frame (h : s.Held) {t : Route} (hcore : t.core.mode = s.core.mode)
    (hcalls : t.calls = s.calls) (hpc : t.pc = s.pc) (hnow : t.routedNow = s.routedNow)
    (hmode : t.modeNow = s.modeNow) (hrouted : t.routed = s.routed)
    (hlive : t.absLive = s.absLive) :
    t.Held := by
  refine ⟨?_, ?_, ?_, ?_, ?_⟩
  · rw [hcore, hcalls, h.mode]
  · rw [hcalls]
    exact h.back
  · have hplace := h.place
    unfold Place at hplace ⊢
    rw [hpc, hcalls, hnow, hmode, hlive]
    exact hplace
  · rw [hrouted, hnow, h.routed]
  · rw [hlive, hcalls]
    exact h.live

/-- The other operations on the volume. -/
theorem Held.coreOp (h : s.Held) (o : Op) : (s.coreOp c o).Held := by
  cases o with
  | speaker mode pct => exact h
  | _ => exact h.frame (op_mode _ _ _ nofun) rfl rfl rfl rfl rfl rfl

theorem Held.step (h : s.Held) (e : Ev) : (s.step c e).Held := by
  cases e with
  | runs r => exact h.runs r
  | wakes timedout =>
    change (if s.pc = .wait then s.wakes timedout else s).Held
    split
    case isTrue hpc => exact h.wakes hpc timedout
    case isFalse => exact h
  | ready a name => exact h.frame rfl rfl rfl rfl rfl rfl rfl
  | gone => exact h.frame rfl rfl rfl rfl rfl rfl rfl
  | route on => exact h.frame rfl rfl rfl rfl rfl rfl rfl
  | absvol on pct => exact h.frame rfl rfl rfl rfl rfl rfl rfl
  | hal =>
    change s.halGone.Held
    unfold halGone
    split
    · exact h.frame rfl rfl rfl rfl rfl rfl rfl
    · exact h
  | core o => exact h.coreOp o

theorem held_init (d : Disk) : (init c d).Held where
  mode := rfl
  back := trivial
  place := rfl
  routed := rfl
  live := nofun

/-- **The output goes back to the Echo only behind `core_speaker(SPEAKER_NONE)`**, also where routes
were lost. -/
theorem ordered_run (d : Disk) (l : List Ev) : Ordered ((init c d).run c l).calls :=
  (Runs.invariant_all (fun _ e h => h.step e) (held_init d) l).back

/-! ### Off the speaker -/

/-- Looking at what is wanted changes neither the route nor the mode. -/
theorem Echo.look (h : s.Echo) : s.look.Echo := by
  unfold Route.look turn
  split
  · split
    · exact h
    · split <;> exact h
  · exact h

theorem Echo.wakes (h : s.Echo) (timedout : Bool) : (s.wakes timedout).Echo := by
  unfold Route.wakes
  split
  · split
    · exact Echo.look h
    · split <;> exact Echo.look h
  · exact Echo.look h

/-- A step of the thread. -/
theorem Echo.runs (h : s.Echo) (hs : s.Held) {r : ℤ} (hspared : s.Spared (.runs r)) :
    (s.runs c r).Echo := by
  have hplace := hs.place
  unfold Place at hplace
  unfold Route.runs
  split
  case h_1 => exact h.look
  case h_2 => exact h
  case h_3 a why i hpc =>
    unfold answered
    split <;> exact h
  case h_4 a lost hpc =>
    rw [hpc] at hplace
    unfold found
    split
    case isTrue hlost =>
      -- the one place where the output is off the speaker without the thread's doing
      intro _
      have hnote : s.lost = true := by
        rw [Route.lost, hpc]
        exact decide_eq_true hlost.1
      exact hplace.symm.trans (hspared hnote)
    case isFalse => exact h
  case h_5 => exact h
  case h_6 => exact h
  case h_7 => exact h
  case h_8 mode hpc =>
    rw [hpc] at hplace
    intro hoff
    exact nomatch hplace.1.symm.trans hoff
  case h_9 => exact h
  case h_10 on a r hpc =>
    rw [hpc] at hplace
    unfold settle
    split
    · intro hoff
      exact hplace.2.2 hoff
    · exact h

theorem Echo.step (h : s.Echo) (hs : s.Held) {e : Ev} (hspared : s.Spared e) :
    (s.step c e).Echo := by
  cases e with
  | runs r => exact h.runs hs hspared
  | wakes timedout =>
    change (if s.pc = .wait then s.wakes timedout else s).Echo
    split
    · exact h.wakes timedout
    · exact h
  | ready a name => exact h
  | gone => exact h
  | route on => exact h
  | absvol on pct => exact h
  | hal =>
    change s.halGone.Echo
    unfold halGone
    split <;> exact h
  | core o => cases o <;> exact h

/-- At each place of the thread, a mode in force that `mode_now` does not know of is one on the
speaker. -/
theorem Held.lastMode_eq_none (h : s.Held) (hecho : s.Echo) (hoff : s.routedNow = false) :
    lastMode s.calls = .none := by
  have hplace := h.place
  unfold Place at hplace
  rw [← hecho hoff]
  split at hplace
  case h_1 => exact hplace.2
  case h_2 => exact hplace.2.1
  case h_3 => exact nomatch hplace.1.symm.trans hoff
  case h_4 => exact nomatch hplace.1.symm.trans hoff
  case h_5 => exact hplace.2.1
  case h_6 => exact hplace.2.1
  case h_7 => exact hplace

theorem Held.sound (h : s.Held) (hecho : s.Echo) : s.Sound where
  mode := h.mode
  back := h.back
  waits := by
    intro _ hoff
    exact h.lastMode_eq_none hecho (h.routed.symm.trans hoff)
  volume := by
    intro hlive
    refine ⟨?_, h.live hlive⟩
    by_contra hoff
    rw [Bool.not_eq_true, h.routed] at hoff
    exact nomatch (h.lastMode_eq_none hecho hoff).symm.trans (h.live hlive)

end Route

open Route

/-- **The Echo's loudspeaker is not played at the speaker's scale**, in every run in which no route
is found lost while a speaker's volume is in force. -/
theorem loudspeaker_spared (c : Curve) (d : Disk) (l : List Ev)
    (h : Runs.Each (step c) Spared (init c d) l) : ((init c d).run c l).Sound := by
  have hrun : ((init c d).run c l).Held ∧ ((init c d).run c l).Echo :=
    Runs.invariant (I := fun s => s.Held ∧ s.Echo)
      (fun s e hs hspared => ⟨hs.1.step e, hs.2.step hs.1 hspared⟩) ⟨held_init d, fun _ => rfl⟩ h
  exact hrun.1.sound hrun.2

/-- A speaker that takes absolute volume comes, and the output moves to it. -/
def toSpeaker : List Ev :=
  [.ready 7 "BT HIFI", .absvol true 30, .runs 0, .runs 0, .runs 0, .runs 0, .runs 0,
    .runs 0, .runs 0, .runs 0, .runs 0]

/-- It goes again, and the output comes back. -/
def fromSpeaker : List Ev :=
  [.gone, .wakes false, .runs 0, .runs 0, .runs 0, .runs 0, .runs 0, .runs 0, .runs 0, .runs 0]

/-- An Echo Dot 2 at volume 40. -/
def dot : Route := init Volume.boardVolDot2 { main := 40 }

/-- The condition holds of a run to a speaker and back. -/
theorem loudspeaker_spared_back :
    Runs.Each (step Volume.boardVolDot2) Spared dot (toSpeaker ++ fromSpeaker) ∧
      (dot.run Volume.boardVolDot2 (toSpeaker ++ fromSpeaker)).Sound := by
  have h : Runs.Each (step Volume.boardVolDot2) Spared dot (toSpeaker ++ fromSpeaker) := by
    simp only [toSpeaker, fromSpeaker, List.cons_append, List.nil_append, Runs.Each, Spared]
    decide +kernel
  exact ⟨h, loudspeaker_spared _ _ _ h⟩

/-- The audio server restarts and loses the route; the speaker goes before the route is made
again. -/
def lostRoute : List Ev := toSpeaker ++ [.hal, .wakes false, .runs 1, .gone, .runs 0, .runs 0]

/-- **An Echo that plays at full scale itself**: the thread waits, the output is on the Echo, and
the speaker's volume is still in force, with the mixer at 100. -/
theorem loudspeaker_loud :
    ((dot.run Volume.boardVolDot2 lostRoute).pc = .wait ∧
      (dot.run Volume.boardVolDot2 lostRoute).routed = false ∧
      (dot.run Volume.boardVolDot2 lostRoute).core.mode = .absolute ∧
      (dot.run Volume.boardVolDot2 lostRoute).disk.main = 100 ∧
      (dot.run Volume.boardVolDot2 lostRoute).absLive = true) ∧
      ¬ (dot.run Volume.boardVolDot2 lostRoute).Sound := by
  have hloud : (dot.run Volume.boardVolDot2 lostRoute).pc = .wait ∧
      (dot.run Volume.boardVolDot2 lostRoute).routed = false ∧
      (dot.run Volume.boardVolDot2 lostRoute).core.mode = .absolute ∧
      (dot.run Volume.boardVolDot2 lostRoute).disk.main = 100 ∧
      (dot.run Volume.boardVolDot2 lostRoute).absLive = true := by
    decide +kernel
  refine ⟨hloud, fun h => ?_⟩
  obtain ⟨hwait, hoff, hmode, -⟩ := hloud
  have hnone := h.waits hwait hoff
  rw [← h.mode, hmode] at hnone
  exact nomatch hnone

end Hassmic.Bt
