import Hassmic.Sendspin.Session

/-!
# One admitted server

At most one session has its admitted flag set, the one that is pointed to; the stream is on
and audio is queued only while that one holds the player role.  All of this is kept by each
step, since only `arbitrate` sets the flag and whatever takes the flag, the pointer or the
role away ends the stream.

## Main definitions

* `One` — the invariant.

## Main results

* `one_step` — each step keeps it.
* `admitted_one` — one admitted server, and only it plays.
-/

namespace Hassmic.Sendspin

open Byte Text Volume Function Option List

/-! ### What is sent -/

namespace Session

theorem sendJson_eq (s : Session) (o : Out) :
    (s.sendJson o).2 = { s with out := if s.quiet then s.out else s.out ++ [o] } := by
  unfold sendJson
  split
  · rfl
  · rfl

theorem sendJson_held (s : Session) (o : Out) : (s.sendJson o).1 = s.quiet := by
  unfold sendJson
  cases s.quiet <;> rfl

theorem goodbye_eq (s : Session) (r : Reason) :
    s.goodbye r = { s with
      out := if s.quiet then s.out else s.out ++ [.goodbye r]
      closing := true } := by
  unfold goodbye
  rw [sendJson_eq]

end Session

variable {ι : Type} [DecidableEq ι]

namespace World

omit [DecidableEq ι] in
theorem sendStateVol_eq (w : World ι) (s : Session) (vol : Level) :
    w.sendStateVol s vol = { s with
      out := if s.quiet then s.out else s.out ++
        [.state { available := !s.spec || w.synced, vol, muted := w.muted, delay := w.delay }]
      stateOwed := s.quiet
      stateSent := true
      availableSent := !s.spec || w.synced } := by
  unfold sendStateVol
  simp only [Session.sendJson_eq, Session.sendJson_held]

@[simp] theorem sessions_set_self (w : World ι) (i : ι) (s : Session) :
    (w.set i s).sessions i = some s := update_self ..

theorem sessions_set_ne (w : World ι) {i k : ι} (h : k ≠ i) (s : Session) :
    (w.set i s).sessions k = w.sessions k := update_of_ne h ..

@[simp] theorem admitted_set (w : World ι) (i : ι) (s : Session) :
    (w.set i s).admitted = w.admitted := rfl

@[simp] theorem streamOn_set (w : World ι) (i : ι) (s : Session) :
    (w.set i s).streamOn = w.streamOn := rfl

@[simp] theorem queue_set (w : World ι) (i : ι) (s : Session) : (w.set i s).queue = w.queue := rfl

end World

open World (takeRoles sessions_set_self sessions_set_ne activated takePairing sendStateVol_eq)

/-! ### The invariant -/

/-- At most one session has its flag set, and it is the one that is pointed to. -/
structure Pointed (w : World ι) : Prop where
  flag : ∀ {i s}, w.sessions i = some s → s.admitted = true → w.admitted = some i
  points : ∀ {i}, w.admitted = some i → ∃ s, w.sessions i = some s ∧ s.admitted = true

/-- And the stream and the audio are its own, while it has the player role. -/
structure One (w : World ι) : Prop extends Pointed w where
  stream : w.streamOn = true →
    ∃ i s, w.admitted = some i ∧ w.sessions i = some s ∧ s.playerActive = true
  queue : ∀ c ∈ w.queue, ∃ s,
    w.admitted = some c.1 ∧ w.sessions c.1 = some s ∧ s.playerActive = true

variable {w : World ι} {i : ι} {s : Session}

omit [DecidableEq ι] in
/-- What else there is does not matter, and less of the stream and the audio is fine. -/
theorem One.congr {w' : World ι} (h : One w) (hs : w'.sessions = w.sessions)
    (ha : w'.admitted = w.admitted) (hstream : w'.streamOn = true → w.streamOn = true)
    (hq : ∀ c ∈ w'.queue, c ∈ w.queue) : One w' where
  flag := by
    rw [hs, ha]
    exact h.flag
  points := by
    rw [hs, ha]
    exact h.points
  stream := by
    rw [hs, ha]
    exact fun hon => h.stream (hstream hon)
  queue := by
    rw [hs, ha]
    exact fun c hc => h.queue c (hq c hc)

omit [DecidableEq ι] in
theorem One.same {w' : World ι} (h : One w)
    (hw : (w'.sessions, w'.admitted, w'.streamOn, w'.queue) =
      (w.sessions, w.admitted, w.streamOn, w.queue)) :
    One w' := by
  simp only [Prod.mk.injEq] at hw
  obtain ⟨hs, ha, hstream, hq⟩ := hw
  exact h.congr hs ha (fun hon => hstream ▸ hon) fun c hc => hq ▸ hc

omit [DecidableEq ι] in
theorem One.streamOff (h : One w) : One w.streamOff :=
  h.congr rfl rfl (fun hon => absurd hon (by simp [World.streamOff]))
    fun c hc => absurd hc (by simp [World.streamOff])

variable {t : Session} {K : Keys} {g : Got}

/-- A session changes, but not its flag. -/
theorem Pointed.set (h : Pointed w) (hi : w.sessions i = some s)
    (hadm : t.admitted = s.admitted) : Pointed (w.set i t) where
  flag := by
    intro k u hk hu
    by_cases hki : k = i
    · subst hki
      rw [sessions_set_self] at hk
      obtain rfl := some.inj hk
      exact h.flag hi (hadm ▸ hu)
    · rw [sessions_set_ne w hki] at hk
      exact h.flag hk hu
  points := by
    intro k hk
    obtain ⟨u, hu, hflag⟩ := h.points hk
    by_cases hki : k = i
    · subst hki
      obtain rfl := some.inj (hi.symm.trans hu)
      exact ⟨t, sessions_set_self .., hadm.trans hflag⟩
    · exact ⟨u, by rw [sessions_set_ne w hki]; exact hu, hflag⟩

/-- A session that plays is found where it was, and still plays. -/
theorem plays_set (hi : w.sessions i = some s)
    (hrole : s.playerActive = true → t.playerActive = true) {k : ι}
    (hk : ∃ u, w.sessions k = some u ∧ u.playerActive = true) :
    ∃ u, (w.set i t).sessions k = some u ∧ u.playerActive = true := by
  obtain ⟨u, hu, hplays⟩ := hk
  by_cases hki : k = i
  · subst hki
    obtain rfl := some.inj (hi.symm.trans hu)
    exact ⟨t, sessions_set_self .., hrole hplays⟩
  · exact ⟨u, by rw [sessions_set_ne w hki]; exact hu, hplays⟩

/-- A session changes, but neither its flag, nor does it lose the role. -/
theorem One.set (h : One w) (hi : w.sessions i = some s)
    (hadm : t.admitted = s.admitted) (hrole : s.playerActive = true → t.playerActive = true) :
    One (w.set i t) where
  toPointed := h.toPointed.set hi hadm
  stream := by
    intro hon
    obtain ⟨k, u, hk, hplays⟩ := h.stream hon
    obtain ⟨u', hplays'⟩ := plays_set hi hrole ⟨u, hplays⟩
    exact ⟨k, u', hk, hplays'⟩
  queue := by
    intro c hc
    obtain ⟨u, hk, hplays⟩ := h.queue c hc
    obtain ⟨u', hplays'⟩ := plays_set hi hrole ⟨u, hplays⟩
    exact ⟨u', hk, hplays'⟩

/-- A session changes while there is no stream and no audio, but not its flag. -/
theorem One.set_silent (h : One w) (hi : w.sessions i = some s)
    (hadm : t.admitted = s.admitted) (hoff : w.streamOn = false) (hq : w.queue = []) :
    One (w.set i t) where
  toPointed := h.toPointed.set hi hadm
  stream := fun hon => absurd hon (by rw [World.streamOn_set, hoff]; simp)
  queue := fun c hc => absurd hc (by rw [World.queue_set, hq]; simp)

/-- The flag and the pointer move to a session while there is no stream and no audio. -/
theorem one_admit (ht : t.admitted = true) (hoff : w.streamOn = false)
    (hq : w.queue = []) (hnone : ∀ {k u}, k ≠ i → w.sessions k = some u → u.admitted = false) :
    One { w.set i t with admitted := some i } where
  flag := by
    intro k u hk hu
    by_cases hki : k = i
    · rw [hki]
    · replace hk : (w.set i t).sessions k = some u := hk
      rw [sessions_set_ne w hki] at hk
      rw [hnone hki hk] at hu
      exact absurd hu (by simp)
  points := by
    intro k hk
    obtain rfl : i = k := some.inj hk
    exact ⟨t, sessions_set_self .., ht⟩
  stream := fun hon => absurd hon (by show ¬ w.streamOn = true; rw [hoff]; simp)
  queue := by
    intro c hc
    replace hc : c ∈ w.queue := hc
    rw [hq] at hc
    exact absurd hc (by simp)

/-! ### Admission -/

/-- A session wins: it is admitted, and the admitted one has gone. -/
def World.elect (w : World ι) (i : ι) (t : Session) : World ι :=
  { (w.displace i).set i { t with admitted := true } with admitted := some i }

/-- The other flag is cleared, and the stream ends. -/
theorem one_elect (h : One w) (hi : w.sessions i = some s)
    (hrole : t.playerActive = s.playerActive) :
    One (w.elect i t) := by
  unfold World.elect World.displace
  cases hcur : w.admitted with
  | none =>
    refine one_admit (w := { w.streamOff with synced := false }) rfl rfl rfl fun hki hk => ?_
    by_contra hflag
    rw [h.flag hk (by simpa using hflag)] at hcur
    exact absurd hcur (by simp)
  | some k =>
    simp only
    obtain ⟨cur, hk, hflag⟩ := h.points hcur
    by_cases hki : k = i
    · -- it was admitted before
      subst hki
      rw [if_pos rfl]
      obtain rfl := some.inj (hi.symm.trans hk)
      have hset := h.set (t := { t with admitted := true }) hi hflag.symm fun hplays =>
        hrole.trans hplays
      exact hset.congr rfl hcur.symm id fun _ hc => hc
    · rw [if_neg hki, hk]
      simp only
      refine one_admit (w := { (w.set k (Session.goodbye { cur with admitted := false }
        .anotherServer)).streamOff with synced := false }) rfl rfl rfl fun {m u} hmi hm => ?_
      replace hm : (w.set k (Session.goodbye { cur with admitted := false }
        .anotherServer)).sessions m = some u := hm
      by_cases hmk : m = k
      · subst hmk
        rw [sessions_set_self, Session.goodbye_eq] at hm
        obtain rfl := some.inj hm
        rfl
      · rw [sessions_set_ne w hmk] at hm
        by_contra hflag'
        have hm' := h.flag hm (by simpa using hflag')
        exact hmk (some.inj (hm'.symm.trans hcur))

/-! ### `server/activate` -/

/-- What stays of a session that sent nothing but messages and asked to pair. -/
theorem takePairing_same (t : Session) (j : Bytes) (rnd : Blob 32) :
    (takePairing t j rnd).admitted = t.admitted ∧
    (takePairing t j rnd).playerActive = t.playerActive ∧
    (takePairing t j rnd).rank = t.rank ∧
    (takePairing t j rnd).serverId = t.serverId := by
  unfold takePairing
  simp only
  split
  · -- both messages, or the second alone
    split
    · simp only [Session.sendJson_eq, and_self]
    · simp only [Session.sendJson_eq, and_self]
  · simp only [Session.sendJson_eq, and_self]

theorem takeRoles_same (s : Session) (j : Bytes) :
    (takeRoles s j).admitted = s.admitted ∧ (takeRoles s j).rank = s.rank ∧
    (takeRoles s j).serverId = s.serverId := by
  unfold takeRoles
  split
  · exact ⟨rfl, rfl, rfl⟩
  · exact ⟨rfl, rfl, rfl⟩

omit [DecidableEq ι] in
theorem activateRecord_same (w : World ι) (s : Session) (j : Bytes) (pairing rekeyed : Bool)
    (rnd : Blob 32) :
    (w.activateRecord s j pairing rekeyed rnd).admitted = s.admitted ∧
    (w.activateRecord s j pairing rekeyed rnd).playerActive
      = (takeRoles s j).playerActive ∧
    (w.activateRecord s j pairing rekeyed rnd).rank = s.rank ∧
    (w.activateRecord s j pairing rekeyed rnd).serverId = s.serverId := by
  obtain ⟨hadm, hrank, hid⟩ := takeRoles_same s j
  unfold World.activateRecord
  simp only
  generalize hu : (if rekeyed && s.playerActive && (takeRoles s j).playerActive &&
    (takeRoles s j).stateOwed then w.sendState (takeRoles s j)
    else takeRoles s j) = u
  have hsame : u.admitted = s.admitted ∧ u.playerActive = (takeRoles s j).playerActive ∧
      u.rank = s.rank ∧ u.serverId = s.serverId := by
    rw [← hu]
    split
    · rw [World.sendState, sendStateVol_eq]
      exact ⟨hadm, rfl, hrank, hid⟩
    · exact ⟨hadm, rfl, hrank, hid⟩
  split
  · obtain ⟨h₁, h₂, h₃, h₄⟩ := takePairing_same { u with pairing := false } j rnd
    exact ⟨h₁.trans hsame.1, h₂.trans hsame.2.1, h₃.trans hsame.2.2.1, h₄.trans hsame.2.2.2⟩
  · exact hsame

/-- The volume, the mute and the delay. -/
def World.levels (w : World ι) : Level × Bool × ℤ := (w.vol, w.muted, w.delay)

omit [DecidableEq ι] in
theorem rolesTaken_same (w : World ι) (s : Session) (j : Bytes) (playback : Bool) :
    (w.rolesTaken s j playback).sessions = w.sessions ∧
    (w.rolesTaken s j playback).admitted = w.admitted ∧
    ((w.rolesTaken s j playback).queue = w.queue ∨ (w.rolesTaken s j playback).queue = []) ∧
    (w.rolesTaken s j playback).levels = w.levels ∧ (w.rolesTaken s j playback).call = w.call := by
  unfold World.rolesTaken
  simp only
  split
  · cases playback <;> exact ⟨rfl, rfl, .inr rfl, rfl, rfl⟩
  · cases playback <;> exact ⟨rfl, rfl, .inl rfl, rfl, rfl⟩

theorem displace_same (w : World ι) (i : ι) :
    ((w.displace i).queue = w.queue ∨ (w.displace i).queue = []) ∧
    (w.displace i).levels = w.levels ∧ (w.displace i).call = w.call := by
  unfold World.displace
  split
  · exact ⟨.inr rfl, rfl, rfl⟩
  · split
    · exact ⟨.inl rfl, rfl, rfl⟩
    · split <;> exact ⟨.inr rfl, rfl, rfl⟩

theorem one_activateAdmitted (h : One w) (hi : w.sessions i = some s) (j : Bytes)
    (playback pairing rekeyed : Bool) (rnd : Blob 32) :
    One (w.activateAdmitted i s j playback pairing rekeyed rnd) := by
  obtain ⟨hadm, hrole, -, -⟩ :=
    activateRecord_same (w.rolesTaken s j playback) s j pairing rekeyed rnd
  have hplayback : One (if playback then { w with lastPlaybackServer := s.serverId } else w) := by
    split
    · exact h.same rfl
    · exact h
  have hi' : (w.rolesTaken s j playback).sessions i = some s := by
    rw [(rolesTaken_same w s j playback).1]
    exact hi
  unfold World.activateAdmitted
  by_cases hdrop : (s.playerActive && !(takeRoles s j).playerActive) = true
  · -- the role goes, and the stream with it
    have hoff : w.rolesTaken s j playback
        = (if playback then { w with lastPlaybackServer := s.serverId } else w).streamOff :=
      if_pos hdrop
    refine One.set_silent ?_ hi' hadm ?_ ?_
    · rw [hoff]
      exact hplayback.streamOff
    · rw [hoff]
      rfl
    · rw [hoff]
      rfl
  · have hon : w.rolesTaken s j playback
        = if playback then { w with lastPlaybackServer := s.serverId } else w := if_neg hdrop
    refine One.set ?_ hi' hadm fun hplays => ?_
    · rw [hon]
      exact hplayback
    · rw [hrole]
      simpa [hplays] using hdrop

/-- What a server/activate does: its session is sent away; or it was activated before, and is
admitted or not; or it wins. -/
inductive Activates (w : World ι) (i : ι) (s : Session) (j : Bytes) (rnd : Blob 32) : World ι → Prop
  | away (r : Reason) : Activates w i s j rnd (w.set i ((activated s j).goodbye r))
  | again : s.admitted = false → Activates w i s j rnd (w.set i (activated s j))
  | renewed {playback pairing} : w.turnedAway (activated s j) j = false → s.admitted = true →
      Activates w i s j rnd
        ((w.set i (activated s j)).activateAdmitted i (activated s j)
          j playback pairing s.quiet rnd)
  | won {playback pairing} : w.turnedAway (activated s j) j = false →
  w.wins i (activated s j) = true →
      Activates w i s j rnd ((w.elect i (activated s j)).activateAdmitted i
        { activated s j with admitted := true } j playback pairing s.quiet rnd)

theorem activates (w : World ι) (i : ι) (s : Session) (j : Bytes) (rnd : Blob 32) :
    Activates w i s j rnd (w.onActivate i s j rnd) := by
  unfold World.onActivate
  simp only
  split
  · exact .away _
  · next haway =>
    replace haway := Bool.eq_false_iff.mpr haway
    split
    · exact .away _
    · by_cases hfirst : s.activated = true
      · simp only [hfirst, Bool.not_true, Bool.false_eq_true, if_false, Bool.true_and]
        split
        · next hadm => exact .renewed haway hadm
        · next hadm => exact .again (Bool.eq_false_iff.mpr hadm)
      · simp only [hfirst, Bool.not_false, if_true, Bool.and_true]
        unfold World.arbitrate
        split
        · next hwins => exact .won haway hwins
        · exact .away _

variable {v : World ι} {j : Bytes} {rnd : Blob 32}

theorem one_activates (h : One w) (hi : w.sessions i = some s) (hv : Activates w i s j rnd v) :
    One v := by
  cases hv with
  | away r =>
    rw [Session.goodbye_eq]
    exact h.set hi rfl id
  | again => exact h.set hi rfl id
  | renewed =>
    exact one_activateAdmitted (h.set (t := activated s j) hi rfl id) (sessions_set_self ..) ..
  | won =>
    exact one_activateAdmitted (one_elect (t := activated s j) h hi rfl) (sessions_set_self ..) ..

/-! ### Other messages -/

omit [DecidableEq ι] in
theorem noiseRespond_same {w : World ι} {s : Session} {payload : Bytes}
    {initial : Bool} (h : w.noiseRespond K s payload initial = some t) :
    ∃ spec cat, t = { s with spec := spec, pskCat := cat, pairingIndex := 0 } := by
  unfold World.noiseRespond at h
  simp only at h
  split at h
  · exact absurd h (by simp)
  · split at h
    · exact absurd h (by simp)
    · split at h
      · exact ⟨_, _, (some.inj h).symm⟩
      · exact absurd h (by simp)
    · exact ⟨_, _, (some.inj h).symm⟩

omit [DecidableEq ι] in
/-- What a re-handshake changes: it fails and closes the session, or only the keys are new. -/
theorem rehandshake_cases (K : Keys) (w : World ι) (s : Session) (j : Bytes) (g : Got) :
    (∃ activated quiet, w.rehandshake K s j g
      = { s with activated := activated, quiet := quiet, closing := true }) ∨
    ∃ spec cat, w.rehandshake K s j g = { s with
      activated := false, quiet := true, spec := spec, pskCat := cat, pairingIndex := 0,
      out := s.out ++ [.handshake] } := by
  unfold World.rehandshake
  split
  · exact .inl ⟨s.activated, s.quiet, rfl⟩
  · simp only
    split
    · exact .inl ⟨_, _, rfl⟩
    · split
      · exact .inl ⟨_, _, rfl⟩
      · next t ht =>
        obtain ⟨spec, cat, rfl⟩ := noiseRespond_same ht
        exact .inr ⟨spec, cat, rfl⟩

omit [DecidableEq ι] in
theorem rehandshake_same (K : Keys) (w : World ι) (s : Session) (j : Bytes) (g : Got) :
    (w.rehandshake K s j g).admitted = s.admitted ∧
    (w.rehandshake K s j g).playerActive = s.playerActive ∧
    (w.rehandshake K s j g).rank = s.rank ∧ (w.rehandshake K s j g).serverId = s.serverId := by
  rcases rehandshake_cases K w s j g with ⟨activated, quiet, h⟩ | ⟨spec, cat, h⟩
  · rw [h]
    exact ⟨rfl, rfl, rfl, rfl⟩
  · rw [h]
    exact ⟨rfl, rfl, rfl, rfl⟩

/-- The server is told of the volume. -/
theorem volumeChanged_cases (w : World ι) :
    w.volumeChanged = w ∨ ∃ k s, w.admitted = some k ∧ w.sessions k = some s ∧
      (s.activated && s.playerActive && s.stateSent) = true ∧
      w.volumeChanged = w.set k (w.sendStateVol s w.vol) := by
  unfold World.volumeChanged
  cases hadm : w.admitted with
  | none => exact .inl rfl
  | some k =>
    simp only
    cases hk : w.sessions k with
    | none => exact .inl rfl
    | some s =>
      simp only
      split
      · next hgate => exact .inr ⟨k, s, rfl, hk, hgate, rfl⟩
      · exact .inl rfl

/-- What a server/command changes: the volume, of which the server is told, or the mute, or the
delay. -/
theorem obey_cases (w : World ι) (s : Session) (sec cmd : Bytes) :
    (∃ vol, w.obey s sec cmd = World.volumeChanged { w with vol := vol }) ∨
    ∃ muted delay, w.obey s sec cmd = { w with muted := muted, delay := delay } := by
  unfold World.obey
  split
  · exact .inl ⟨_, rfl⟩
  · right
    split
    · exact ⟨_, w.delay, rfl⟩
    · split
      · split
        · split
          · exact ⟨w.muted, _, rfl⟩
          · exact ⟨w.muted, w.delay, rfl⟩
        · exact ⟨w.muted, w.delay, rfl⟩
      · exact ⟨w.muted, w.delay, rfl⟩

theorem one_volumeChanged (h : One w) : One w.volumeChanged := by
  rcases volumeChanged_cases w with heq | ⟨k, s, -, hk, -, heq⟩
  · rw [heq]
    exact h
  · rw [heq, sendStateVol_eq]
    exact h.set hk rfl id

theorem one_obey (h : One w) (s : Session) (sec cmd : Bytes) : One (w.obey s sec cmd) := by
  rcases obey_cases w s sec cmd with ⟨vol, heq⟩ | ⟨muted, delay, heq⟩
  · rw [heq]
    exact one_volumeChanged (h.same rfl)
  · rw [heq]
    exact h.same rfl

/-- What a server/command does: nothing, or it changes something and the server is told. -/
theorem onCommand_cases (w : World ι) (i : ι) (s : Session) (j : Bytes) :
    w.onCommand i s j = w ∨ s.playerActive = true ∧ w.call = none ∧ ∃ sec cmd,
      (w.onCommand i s j = w.obey s sec cmd ∧ (w.obey s sec cmd).sessions i = none ∨
      ∃ t, (w.obey s sec cmd).sessions i = some t ∧
        w.onCommand i s j = (w.obey s sec cmd).set i ((w.obey s sec cmd).sendState t)) := by
  unfold World.onCommand
  split
  · exact .inl rfl
  · next hgate =>
    simp only [Bool.or_eq_true, Bool.not_eq_true', not_or, Bool.not_eq_false,
      Bool.not_eq_true, isSome_eq_false_iff, isNone_iff_eq_none] at hgate
    split
    · exact .inl rfl
    · next sec _ =>
      split
      · exact .inl rfl
      · next cmd _ =>
        simp only
        split
        · next hnone => exact .inr ⟨hgate.1, hgate.2, sec, cmd, .inl ⟨rfl, hnone⟩⟩
        · next t ht => exact .inr ⟨hgate.1, hgate.2, sec, cmd, .inr ⟨t, ht, rfl⟩⟩

theorem one_onCommand (h : One w) (s : Session) (j : Bytes) : One (w.onCommand i s j) := by
  rcases onCommand_cases w i s j with heq | ⟨-, -, sec, cmd, ⟨heq, -⟩ | ⟨t, ht, heq⟩⟩
  · rw [heq]
    exact h
  · rw [heq]
    exact one_obey h s sec cmd
  · rw [heq, World.sendState, sendStateVol_eq]
    exact (one_obey h s sec cmd).set ht rfl id

/-- What a stream/start does: nothing, or the stream is on. -/
theorem onStreamStart_cases (w : World ι) (i : ι) (s : Session) (j : Bytes) (g : Got) :
    w.onStreamStart i s j g = w ∨ s.playerActive = true ∧
      w.onStreamStart i s j g = { w.set i (s.sendJson .time).2 with
        streamOn := true
        queue := if w.streamOn then w.queue else [] } := by
  unfold World.onStreamStart
  split
  · exact .inl rfl
  · next hplays =>
    split
    · exact .inl rfl
    · simp only
      split
      · exact .inl rfl
      · exact .inr ⟨by simpa using hplays, rfl⟩

/-- Only the admitted session with the player role starts the stream. -/
theorem one_onStreamStart (h : One w) (hi : w.sessions i = some s) (hadm : s.admitted = true)
    (j : Bytes) (g : Got) : One (w.onStreamStart i s j g) := by
  rcases onStreamStart_cases w i s j g with heq | ⟨hplays, heq⟩
  · rw [heq]
    exact h
  · have hset : One (w.set i (s.sendJson .time).2) := by
      rw [Session.sendJson_eq]
      exact h.set hi rfl id
    rw [heq]
    refine ⟨⟨hset.flag, hset.points⟩, fun _ => ?_, fun c hc => ?_⟩
    · refine ⟨i, (s.sendJson .time).2, h.flag hi hadm, sessions_set_self .., ?_⟩
      rw [Session.sendJson_eq]
      exact hplays
    · replace hc : c ∈ if w.streamOn then w.queue else [] := hc
      split at hc
      · exact hset.queue c hc
      · exact absurd hc (by simp)

theorem one_does (h : One w) (hi : w.sessions i = some s) (hdoes : World.Does K w i s j g v) :
    One v := by
  cases hdoes with
  | nothing => exact h
  | rehandshake =>
    obtain ⟨hadm, hrole, -, -⟩ := rehandshake_same K w s j g
    exact h.set hi hadm fun hplays => hrole.trans hplays
  | hello => exact h.set hi rfl id
  | activate => exact one_activates h hi (activates ..)
  | paired =>
    have hput : One (w.recordPut s.newPsk s.serverId) := h.same rfl
    exact hput.set hi rfl id
  | abort => exact h.set hi rfl id
  | unpair =>
    have hdrop : One (w.recordDrop s.serverId) := h.same rfl
    rw [Session.goodbye_eq]
    exact hdrop.set hi rfl id
  | command => exact one_onCommand h s j
  | streamStart hadm => exact one_onStreamStart h hi hadm j g
  | clear => exact h.congr rfl rfl id fun c hc => absurd hc (by simp)
  | streamEnd => exact h.streamOff

omit [DecidableEq ι] in
/-- Audio is queued while the stream is on. -/
theorem qPush_cases (w : World ι) (i : ι) (ts : ℤ) (pcm : Bytes) :
    w.qPush i ts pcm = w ∨
      ∃ c, c.1 = i ∧ w.qPush i ts pcm = { w with queue := w.queue ++ [c] } := by
  unfold World.qPush
  simp only
  split
  · exact .inl rfl
  · exact .inr ⟨_, rfl, rfl⟩

theorem one_handles (h : One w) (hi : w.sessions i = some s)
    (hhandles : World.Handles K w i s g v) : One v := by
  cases hhandles with
  | nothing => exact h
  | json hdoes => exact one_does h hi hdoes
  | @audio ts hadm hplays =>
    rcases qPush_cases w i ts g.pcm with heq | ⟨c, hc, heq⟩
    · rw [heq]
      exact h
    · rw [heq]
      refine ⟨⟨h.flag, h.points⟩, h.stream, fun c' hc' => ?_⟩
      rcases mem_append.mp hc' with hold | hnew
      · exact h.queue c' hold
      · rw [mem_singleton.mp hnew, hc]
        exact ⟨s, h.flag hi hadm, hi, hplays⟩

theorem one_message (h : One w) (K : Keys) (i : ι) (g : Got) : One (w.message K i g) := by
  rcases World.message_cases K w i g with heq | ⟨s, late, frag, v, hi, hv, heq⟩
  · rw [heq]
    exact h
  · have hset : One (w.set i { s with late := late, frag := frag }) := h.set hi rfl id
    have hone := one_handles hset (sessions_set_self ..) hv
    rcases heq with heq | ⟨t, ht, heq⟩
    · rw [heq]
      exact hone
    · rw [heq]
      exact hone.set ht rfl id

/-! ### From outside -/

/-- A session that is not admitted comes. -/
theorem one_connect (h : One w) (K : Keys) (i : ι) (serverId payload : Bytes) :
    One (w.connect K i serverId payload) := by
  unfold World.connect
  cases hi : w.sessions i with
  | some s => exact h
  | none =>
    simp only
    split
    · exact h
    · next t ht =>
      obtain ⟨spec, cat, rfl⟩ := noiseRespond_same ht
      have hother : ∀ {k u}, w.sessions k = some u → k ≠ i := by
        rintro k u hk rfl
        rw [hi] at hk
        exact absurd hk (by simp)
      refine ⟨⟨?_, ?_⟩, ?_, ?_⟩
      · intro k u hk hu
        by_cases hki : k = i
        · subst hki
          replace hk := (sessions_set_self ..).symm.trans hk
          obtain rfl := some.inj hk
          exact absurd hu (by simp)
        · exact h.flag ((sessions_set_ne w hki _).symm.trans hk) hu
      · intro k hk
        obtain ⟨u, hu, hflag⟩ := h.points hk
        exact ⟨u, (sessions_set_ne w (hother hu) _).trans hu, hflag⟩
      · intro hon
        obtain ⟨k, u, hk, hu, hplays⟩ := h.stream hon
        exact ⟨k, u, hk, (sessions_set_ne w (hother hu) _).trans hu, hplays⟩
      · intro c hc
        obtain ⟨u, hk, hu, hplays⟩ := h.queue c hc
        exact ⟨u, hk, (sessions_set_ne w (hother hu) _).trans hu, hplays⟩

/-- A session goes, and with the admitted one all it played. -/
theorem one_ends (h : One w) (i : ι) : One (w.ends i) := by
  unfold World.ends
  simp only
  by_cases hadm : w.admitted = some i
  · rw [if_pos hadm]
    refine ⟨⟨?_, ?_⟩, ?_, ?_⟩
    · intro k u hk hu
      replace hk : update w.sessions i none k = some u := hk
      by_cases hki : k = i
      · subst hki
        rw [update_self] at hk
        exact absurd hk (by simp)
      · rw [update_of_ne hki] at hk
        exact absurd (some.inj ((h.flag hk hu).symm.trans hadm)) hki
    · exact fun hk => absurd hk (by simp)
    · exact fun hon => absurd hon (by simp [World.streamOff])
    · exact fun c hc => absurd hc (by simp [World.streamOff])
  · rw [if_neg hadm]
    have hstay : ∀ {k}, w.admitted = some k →
        update w.sessions i none k = w.sessions k := by
      intro k hk
      exact update_of_ne (by rintro rfl; exact hadm hk) ..
    refine ⟨⟨?_, ?_⟩, ?_, ?_⟩
    · intro k u hk hu
      replace hk : update w.sessions i none k = some u := hk
      by_cases hki : k = i
      · subst hki
        rw [update_self] at hk
        exact absurd hk (by simp)
      · rw [update_of_ne hki] at hk
        exact h.flag hk hu
    · intro k hk
      obtain ⟨u, hu, hflag⟩ := h.points hk
      exact ⟨u, (hstay hk).trans hu, hflag⟩
    · intro hon
      obtain ⟨k, u, hk, hu, hplays⟩ := h.stream hon
      exact ⟨k, u, hk, (hstay hk).trans hu, hplays⟩
    · intro c hc
      obtain ⟨u, hk, hu, hplays⟩ := h.queue c hc
      exact ⟨u, hk, (hstay hk).trans hu, hplays⟩

omit [DecidableEq ι] in
/-- Every session changes, but no flag, and none loses the role. -/
theorem One.map {f : ι → Session → Session} (h : One w)
    (hadm : ∀ k s, (f k s).admitted = s.admitted)
    (hrole : ∀ k s, (f k s).playerActive = s.playerActive) :
    One { w with sessions := fun k => (w.sessions k).map (f k) } where
  flag := by
    intro k u hk hu
    obtain ⟨s, hs, rfl⟩ := map_eq_some_iff.mp hk
    exact h.flag hs ((hadm k s).symm.trans hu)
  points := by
    intro k hk
    obtain ⟨s, hs, hflag⟩ := h.points hk
    exact ⟨f k s, map_eq_some_iff.mpr ⟨s, hs, rfl⟩, (hadm k s).trans hflag⟩
  stream := by
    intro hon
    obtain ⟨k, s, hk, hs, hplays⟩ := h.stream hon
    exact ⟨k, f k s, hk, map_eq_some_iff.mpr ⟨s, hs, rfl⟩, (hrole k s).trans hplays⟩
  queue := by
    intro c hc
    obtain ⟨s, hk, hs, hplays⟩ := h.queue c hc
    exact ⟨f c.1 s, hk, map_eq_some_iff.mpr ⟨s, hs, rfl⟩, (hrole _ s).trans hplays⟩

/-- The admitted session is sent away, and all it played goes. -/
theorem one_dismiss (h : One w) {k : ι} (hk : w.admitted = some k)
    (ht : t.admitted = false) : One { (w.set k t).streamOff with admitted := none } where
  flag := by
    intro m u hm hu
    replace hm : (w.set k t).sessions m = some u := hm
    by_cases hmk : m = k
    · subst hmk
      rw [sessions_set_self] at hm
      obtain rfl := some.inj hm
      rw [ht] at hu
      exact absurd hu (by simp)
    · rw [sessions_set_ne w hmk] at hm
      exact absurd (some.inj ((h.flag hm hu).symm.trans hk)) hmk
  points := fun hm => absurd hm (by simp)
  stream := fun hon => absurd hon (by simp [World.streamOff])
  queue := fun c hc => absurd hc (by simp [World.streamOff])

/-- The sessions while unpaired access is switched: some are told to close. -/
def World.idled (w : World ι) (set : Bool) : World ι :=
  { w with
    unpairedOk := set
    sessions := fun k => (w.sessions k).map fun s =>
      if w.unpairedOk ≠ set ∧ w.waitsIdle k s then { s with closing := true } else s }

/-- What the switch of unpaired access does after that: nothing, or the admitted session that is
not paired is sent away. -/
theorem unpaired_cases (w : World ι) (set : Bool) :
    w.unpaired set = w.idled set ∨ ∃ k s, set = false ∧ w.admitted = some k ∧
      (w.idled set).sessions k = some s ∧ s.pskCat ≠ .longterm ∧
      w.unpaired set = { ((w.idled set).set k (Session.goodbye { s with admitted := false }
        .pairingRequired)).streamOff with admitted := none } := by
  unfold World.unpaired
  simp only
  cases set with
  | true => exact .inl rfl
  | false =>
    rw [if_neg (by simp)]
    split
    · exact .inl rfl
    · next k hk =>
      split
      · exact .inl rfl
      · next s hs =>
        split
        · next hcond => exact .inr ⟨k, s, rfl, hk, hs, hcond.1, rfl⟩
        · exact .inl rfl

theorem one_unpaired (h : One w) (set : Bool) : One (w.unpaired set) := by
  have hidled : One (w.idled set) := by
    have hmap := h.map (f := fun k s =>
      if w.unpairedOk ≠ set ∧ w.waitsIdle k s then { s with closing := true } else s)
      (fun k s => by split <;> rfl) (fun k s => by split <;> rfl)
    exact hmap.same rfl
  rcases unpaired_cases w set with heq | ⟨k, s, -, hk, -, -, heq⟩
  · rw [heq]
    exact hidled
  · rw [heq]
    exact one_dismiss hidled hk (by rw [Session.goodbye_eq])

/-- What `sendspin_volume_changed` does once it is past its gate. -/
theorem volumeTold_cases (w : World ι) :
    (∀ k v, w.call = some (k, v) → w.sessions k = none) ∧
      w.volumeTold = { w with call := none } ∨
    ∃ k v s, w.call = some (k, v) ∧ w.sessions k = some s ∧
      w.volumeTold = { w.set k (w.sendStateVol s v) with call := none } := by
  unfold World.volumeTold
  split
  · next hcall => exact .inl ⟨fun k v hk => absurd (hcall.symm.trans hk) (by simp), by rw [← hcall]⟩
  · next k v hcall =>
    split
    · next hk =>
      refine .inl ⟨fun m u hm => ?_, rfl⟩
      obtain ⟨rfl, -⟩ := Prod.mk.inj (some.inj (hcall.symm.trans hm))
      exact hk
    · next s hs => exact .inr ⟨k, v, s, hcall, hs, rfl⟩

theorem one_volumeTold (h : One w) : One w.volumeTold := by
  rcases volumeTold_cases w with ⟨-, heq⟩ | ⟨k, v, s, -, hk, heq⟩
  · rw [heq]
    exact h.same rfl
  · have hset : One (w.set k (w.sendStateVol s v)) := by
      rw [sendStateVol_eq]
      exact h.set hk rfl id
    rw [heq]
    exact hset.same rfl

theorem one_timeGate (h : One w) (i : ι) : One (w.timeGate i) := by
  unfold World.timeGate
  split
  · exact h
  · next s hs =>
    split
    · exact h.set hs rfl id
    · exact h

/-- What a round of the time thread does: it sends the time, and maybe the state. -/
theorem timeTold_cases (w : World ι) (i : ι) (due ok : Bool) :
    w.timeTold i due ok = w ∨ ∃ s, w.sessions i = some s ∧
      (w.timeTold i due ok = w.set i { (s.sendJson .time).2 with timing := false } ∨
      s.playerActive = true ∧ w.timeTold i due ok
        = w.set i (w.sendState { (s.sendJson .time).2 with timing := false })) := by
  unfold World.timeTold
  cases hi : w.sessions i with
  | none => exact .inl rfl
  | some s =>
    simp only
    by_cases htiming : s.timing = true
    · rw [if_pos htiming]
      right
      refine ⟨s, rfl, ?_⟩
      simp only [Session.sendJson_eq]
      split
      · next hdue =>
        simp only [Bool.and_eq_true] at hdue
        exact .inr ⟨hdue.1.1, rfl⟩
      · split
        · next hok =>
          simp only [Bool.and_eq_true] at hok
          exact .inr ⟨hok.1.1, rfl⟩
        · exact .inl rfl
    · rw [if_neg htiming]
      exact .inl rfl

theorem one_timeTold (h : One w) (i : ι) (due ok : Bool) : One (w.timeTold i due ok) := by
  rcases timeTold_cases w i due ok with heq | ⟨s, hi, heq | ⟨-, heq⟩⟩
  · rw [heq]
    exact h
  · rw [heq, Session.sendJson_eq]
    exact h.set hi rfl id
  · rw [heq, World.sendState, sendStateVol_eq, Session.sendJson_eq]
    exact h.set hi rfl id

/-! ### The invariant is kept -/

/-- **Each step keeps it.** -/
theorem one_step (K : Keys) (h : One w) (e : Ev ι) : One (w.step K e) := by
  cases e with
  | connect i serverId payload => exact one_connect h K i serverId payload
  | message i g => exact one_message h K i g
  | ends i => exact one_ends h i
  | unpaired set => exact one_unpaired h set
  | volume v =>
    show One (w.volume v)
    unfold World.volume
    split
    · exact h
    · exact h.same rfl
  | volumeTold => exact one_volumeTold h
  | timeGate i => exact one_timeGate h i
  | timeTold i due ok => exact one_timeTold h i due ok
  | clock synced => exact h.same rfl
  | played => exact h.congr rfl rfl id fun c hc => mem_of_mem_tail hc

/-- An event that is neither a message nor the end of a session, nor switches unpaired access, nor
takes audio. -/
def Ev.Aside : Ev ι → Prop
  | .message _ _ | .ends _ | .unpaired _ | .played => False
  | _ => True

/-- It leaves the pointer and the audio alone. -/
theorem step_aside (K : Keys) (w : World ι) (e : Ev ι) (he : e.Aside) :
    (w.step K e).admitted = w.admitted ∧ (w.step K e).queue = w.queue := by
  cases e with
  | connect i serverId payload =>
    unfold World.step World.connect
    dsimp only
    repeat' split
    all_goals exact ⟨rfl, rfl⟩
  | volume v =>
    unfold World.step World.volume
    dsimp only
    split <;> exact ⟨rfl, rfl⟩
  | volumeTold =>
    rw [World.step]
    rcases volumeTold_cases w with ⟨-, heq⟩ | ⟨k, v, s, -, -, heq⟩ <;> rw [heq] <;> exact ⟨rfl, rfl⟩
  | timeGate i =>
    unfold World.step World.timeGate
    dsimp only
    repeat' split
    all_goals exact ⟨rfl, rfl⟩
  | timeTold i due ok =>
    rw [World.step]
    rcases timeTold_cases w i due ok with heq | ⟨s, -, heq | ⟨-, heq⟩⟩ <;> rw [heq]
      <;> exact ⟨rfl, rfl⟩
  | clock synced => exact ⟨rfl, rfl⟩
  | message | ends | unpaired | played => exact he.elim

/-! ### Who is admitted -/

/-- A session is pointed to that was not: it has won, and has the rank it won with. -/
def Won (w : World ι) (i : ι) (v : World ι) : Prop :=
  ∃ t u, w.wins i t = true ∧ v.admitted = some i ∧ v.sessions i = some u ∧
    u.rank = t.rank ∧ u.serverId = t.serverId

theorem admitted_activateAdmitted (w : World ι) (i : ι) (s : Session) (j : Bytes)
    (playback pairing rekeyed : Bool) (rnd : Blob 32) :
    (w.activateAdmitted i s j playback pairing rekeyed rnd).admitted = w.admitted ∧
    ∃ u, (w.activateAdmitted i s j playback pairing rekeyed rnd).sessions i = some u ∧
      u.rank = s.rank ∧ u.serverId = s.serverId := by
  obtain ⟨-, -, hrank, hid⟩ :=
    activateRecord_same (w.rolesTaken s j playback) s j pairing rekeyed rnd
  exact ⟨(rolesTaken_same w s j playback).2.1, _, sessions_set_self .., hrank, hid⟩

theorem admitted_activates (hv : Activates w i s j rnd v) :
    v.admitted = w.admitted ∨ Won w i v := by
  cases hv with
  | away | again => exact .inl rfl
  | renewed => exact .inl (admitted_activateAdmitted ..).1
  | won haway hwins =>
    obtain ⟨hsame, u, hu, hrank, hid⟩ := admitted_activateAdmitted (w.elect i (activated s j)) i
      { activated s j with admitted := true } j _ _ s.quiet rnd
    exact .inr ⟨activated s j, u, hwins, hsame, hu, hrank, hid⟩

theorem admitted_obey (w : World ι) (s : Session) (sec cmd : Bytes) :
    (w.obey s sec cmd).admitted = w.admitted ∧ (w.obey s sec cmd).queue = w.queue := by
  rcases obey_cases w s sec cmd with ⟨vol, heq⟩ | ⟨muted, delay, heq⟩
  · rw [heq]
    rcases volumeChanged_cases { w with vol := vol } with heq' | ⟨k, t, -, -, -, heq'⟩
    · rw [heq']
      exact ⟨rfl, rfl⟩
    · rw [heq']
      exact ⟨rfl, rfl⟩
  · rw [heq]
    exact ⟨rfl, rfl⟩

theorem admitted_onCommand (w : World ι) (i : ι) (s : Session) (j : Bytes) :
    (w.onCommand i s j).admitted = w.admitted ∧ (w.onCommand i s j).queue = w.queue := by
  rcases onCommand_cases w i s j with heq | ⟨-, -, sec, cmd, ⟨heq, -⟩ | ⟨t, -, heq⟩⟩
  · rw [heq]
    exact ⟨rfl, rfl⟩
  · rw [heq]
    exact admitted_obey w s sec cmd
  · rw [heq]
    exact admitted_obey w s sec cmd

theorem admitted_does (hdoes : World.Does K w i s j g v) : v.admitted = w.admitted ∨ Won w i v := by
  cases hdoes with
  | activate => exact admitted_activates (activates ..)
  | command => exact .inl (admitted_onCommand w i s j).1
  | streamStart =>
    left
    rcases onStreamStart_cases w i s j g with heq | ⟨-, heq⟩
    · rw [heq]
    · rw [heq]
      rfl
  | nothing | rehandshake | hello | paired | abort | unpair | clear | streamEnd => exact .inl rfl

theorem admitted_handles (hhandles : World.Handles K w i s g v) :
    v.admitted = w.admitted ∨ Won w i v := by
  cases hhandles with
  | nothing => exact .inl rfl
  | json hdoes => exact admitted_does hdoes
  | @audio ts =>
    left
    rcases qPush_cases w i ts g.pcm with heq | ⟨c, -, heq⟩
    · rw [heq]
    · rw [heq]

/-- Who wins does not depend on the record of the session itself. -/
theorem wins_set (w : World ι) (i : ι) (s t : Session) : (w.set i s).wins i t = w.wins i t := by
  unfold World.wins
  rw [World.admitted_set]
  cases w.admitted with
  | none => rfl
  | some k =>
    simp only
    by_cases hki : k = i
    · rw [if_pos hki, if_pos hki]
    · rw [if_neg hki, if_neg hki, sessions_set_ne w hki]
      rfl

/-- A message leaves the pointer alone, or its session has won. -/
theorem admitted_message (w : World ι) (K : Keys) (i : ι) (g : Got) :
    (w.message K i g).admitted = w.admitted ∨ Won w i (w.message K i g) := by
  rcases World.message_cases K w i g with heq | ⟨s, late, frag, v, hi, hv, heq⟩
  · rw [heq]
    exact .inl rfl
  · have hcases : v.admitted = w.admitted ∨ Won w i v := by
      rcases admitted_handles hv with hsame | ⟨t, u, hwins, hrest⟩
      · exact .inl hsame
      · rw [wins_set] at hwins
        exact .inr ⟨t, u, hwins, hrest⟩
    rcases heq with heq | ⟨t, ht, heq⟩
    · rw [heq]
      exact hcases
    · rw [heq]
      rcases hcases with hsame | ⟨t', u, hwins, hadm, hu, hrank, hid⟩
      · exact .inl hsame
      · obtain rfl := some.inj (ht.symm.trans hu)
        exact .inr ⟨t', _, hwins, hadm, sessions_set_self .., hrank, hid⟩

/-- Only a message moves the pointer to a session, and only after that has won. -/
theorem admitted_step (K : Keys) (w : World ι) (e : Ev ι) :
    (w.step K e).admitted = w.admitted ∨ (w.step K e).admitted = none ∨
    ∃ i g, e = .message i g ∧ Won w i (w.step K e) := by
  by_cases he : e.Aside
  · exact .inl (step_aside K w e he).1
  · cases e with
    | message i g =>
      rcases admitted_message w K i g with hsame | hwon
      · exact .inl hsame
      · exact .inr (.inr ⟨i, g, rfl, hwon⟩)
    | ends i =>
      show (w.ends i).admitted = w.admitted ∨ (w.ends i).admitted = none ∨ _
      unfold World.ends
      by_cases hadm : w.admitted = some i
      · exact .inr (.inl (by rw [if_pos hadm]))
      · exact .inl (by rw [if_neg hadm])
    | unpaired set =>
      rcases unpaired_cases w set with heq | ⟨k, s, -, -, -, -, heq⟩
      · exact .inl (by rw [World.step, heq]; rfl)
      · exact .inr (.inl (by rw [World.step, heq]))
    | played => exact .inl rfl
    | _ => exact absurd trivial he

/-- What it takes to win against an admitted session. -/
theorem wins_other {k : ι} {cur : Session} (hk : w.admitted = some k) (hki : k ≠ i)
    (hcur : w.sessions k = some cur) (hwins : w.wins i t = true) :
    cur.rank ≤ t.rank ∧ (cur.rank = 0 → t.rank = 0 →
      t.serverId = w.lastPlaybackServer ∧ cur.serverId ≠ w.lastPlaybackServer) := by
  unfold World.wins at hwins
  rw [hk] at hwins
  simp only [if_neg hki, hcur] at hwins
  split at hwins
  · next hidle =>
    obtain ⟨ht, hc⟩ := hidle
    simp only [Bool.and_eq_true, beq_iff_eq, bne_iff_ne] at hwins
    exact ⟨by rw [hc]; exact Nat.zero_le _, fun _ _ => hwins⟩
  · next hbusy =>
    refine ⟨of_decide_eq_true hwins, fun hc ht => absurd ⟨ht, hc⟩ hbusy⟩

/-! ### What is queued -/

/-- What a server/activate leaves alone: the audio, unless all of it goes, the volume, the mute, the
delay, and a change of the volume that is under way. -/
theorem activates_same (hv : Activates w i s j rnd v) :
    (v.queue = w.queue ∨ v.queue = []) ∧ v.levels = w.levels ∧ v.call = w.call := by
  cases hv with
  | away | again => exact ⟨.inl rfl, rfl, rfl⟩
  | @renewed playback =>
    exact (rolesTaken_same (w.set i (activated s j)) (activated s j) j playback).2.2
  | @won playback =>
    obtain ⟨hqueue, hlevels, hcall⟩ := displace_same w i
    obtain ⟨-, -, hqueue', hlevels', hcall'⟩ := rolesTaken_same (w.elect i (activated s j))
      { activated s j with admitted := true } j playback
    exact ⟨hqueue'.elim (fun h => hqueue.imp h.trans h.trans) .inr, hlevels'.trans hlevels,
      hcall'.trans hcall⟩

theorem queue_does (hdoes : World.Does K w i s j g v) : v.queue = w.queue ∨ v.queue = [] := by
  cases hdoes with
  | activate => exact (activates_same (activates ..)).1
  | command => exact .inl (admitted_onCommand w i s j).2
  | streamStart =>
    rcases onStreamStart_cases w i s j g with heq | ⟨-, heq⟩
    · exact .inl (by rw [heq])
    · rw [heq]
      show (if w.streamOn then w.queue else []) = _ ∨ (if w.streamOn then w.queue else []) = []
      split
      · exact .inl rfl
      · exact .inr rfl
  | clear | streamEnd => exact .inr rfl
  | nothing | rehandshake | hello | paired | abort | unpair => exact .inl rfl

/-- The queue after a step: some of it has gone, or a chunk has come in a message of the session
that is admitted and has the player role. -/
def Queued (w : World ι) (e : Ev ι) (v : World ι) : Prop :=
  v.queue <:+ w.queue ∨ ∃ c g s, e = .message c.1 g ∧ w.admitted = some c.1 ∧
    w.sessions c.1 = some s ∧ s.playerActive = true ∧ v.queue = w.queue ++ [c]

omit [DecidableEq ι] in
theorem Queued.of_kept {e : Ev ι} (h : v.queue = w.queue ∨ v.queue = []) :
    Queued w e v := by
  left
  rcases h with h | h
  · rw [h]
  · rw [h]
    exact nil_suffix

theorem queued_message (h : One w) (K : Keys) (i : ι) (g : Got) :
    Queued w (.message i g) (w.message K i g) := by
  rcases World.message_cases K w i g with heq | ⟨s, late, frag, v, hi, hv, heq⟩
  · exact .of_kept (.inl (by rw [heq]))
  · have hqueue : (w.message K i g).queue = v.queue := by
      rcases heq with heq | ⟨t, -, heq⟩
      · rw [heq]
      · rw [heq]
        rfl
    cases hv with
    | nothing => exact .of_kept (.inl hqueue)
    | json hdoes =>
      have hkept := queue_does hdoes
      exact .of_kept (by rw [hqueue]; exact hkept)
    | @audio ts hadm hplays =>
      rcases qPush_cases (w.set i { s with late := late, frag := frag }) i ts g.pcm
        with hpush | ⟨c, hc, hpush⟩
      · exact .of_kept (.inl (by rw [hqueue, hpush]; rfl))
      · refine .inr ⟨c, g, s, by rw [hc], ?_, by rw [hc]; exact hi, hplays, ?_⟩
        · rw [hc]
          exact h.flag hi hadm
        · rw [hqueue, hpush]
          rfl

theorem queued_step (h : One w) (K : Keys) (e : Ev ι) : Queued w e (w.step K e) := by
  by_cases he : e.Aside
  · exact .of_kept (.inl (step_aside K w e he).2)
  · cases e with
    | message i g => exact queued_message h K i g
    | ends i =>
      apply Queued.of_kept
      show (w.ends i).queue = w.queue ∨ (w.ends i).queue = []
      unfold World.ends
      by_cases hadm : w.admitted = some i
      · exact .inr (by rw [if_pos hadm]; rfl)
      · exact .inl (by rw [if_neg hadm])
    | unpaired set =>
      apply Queued.of_kept
      rcases unpaired_cases w set with heq | ⟨k, s, -, -, -, -, heq⟩
      · exact .inl (by rw [World.step, heq]; rfl)
      · exact .inr (by rw [World.step, heq]; rfl)
    | played => exact .inl (tail_suffix w.queue)
    | _ => exact absurd trivial he

/-! ### Whole runs -/

omit [DecidableEq ι] in
theorem one_start (lastPlaybackServer : Bytes) (unpairedOk : Bool)
    (records : List (Blob 32 × Bytes)) (vol : Level) (delay : ℤ) :
    One (World.start ι lastPlaybackServer unpairedOk records vol delay) where
  flag := fun hk => absurd hk (by simp [World.start])
  points := fun hk => absurd hk (by simp [World.start])
  stream := fun hon => absurd hon (by simp [World.start])
  queue := fun c hc => absurd hc (by simp [World.start])

/-- The sessions after a run. -/
def World.after (K : Keys) (w : World ι) (l : List (Ev ι)) : World ι := l.foldl (World.step K) w

/-- **One admitted server, and only it plays.**  After every run, whatever connects, is received,
ends or is switched: the sessions that have the flag are those that are pointed to; a stream and
queued audio are those of the admitted session while it has the player role; audio is queued only
by one of its messages; and it is displaced only by a session of at least its rank, or by the
server that last played here where both are idle. -/
theorem admitted_one (K : Keys) (lastPlaybackServer : Bytes) (unpairedOk : Bool)
    (records : List (Blob 32 × Bytes)) (vol : Level) (delay : ℤ) (l : List (Ev ι)) (w : World ι)
    (hw : w = (World.start ι lastPlaybackServer unpairedOk records vol delay).after K l) :
    (∀ i s, w.sessions i = some s → s.admitted = true → w.admitted = some i) ∧
    (∀ i, w.admitted = some i → ∃ s, w.sessions i = some s ∧ s.admitted = true) ∧
    (w.streamOn = true → ∃ i s, w.admitted = some i ∧ w.sessions i = some s ∧
      s.admitted = true ∧ s.playerActive = true) ∧
    (∀ c ∈ w.queue, ∃ s, w.admitted = some c.1 ∧ w.sessions c.1 = some s ∧
      s.playerActive = true) ∧
    ∀ e, Queued w e (w.step K e) ∧
      ∀ i k, w.admitted = some i → (w.step K e).admitted = some k → k ≠ i →
        ∃ cur s, w.sessions i = some cur ∧ (w.step K e).sessions k = some s ∧
          cur.rank ≤ s.rank ∧ (cur.rank = 0 → s.rank = 0 →
            s.serverId = w.lastPlaybackServer ∧ cur.serverId ≠ w.lastPlaybackServer) := by
  have hone : One w := by
    rw [hw]
    exact Runs.invariant_all (I := One) (fun _ e h => one_step K h e) (one_start ..) l
  refine ⟨fun _ _ => hone.flag, fun _ => hone.points, fun hon => ?_, hone.queue, fun e =>
    ⟨queued_step hone K e, fun i k hi hk hki => ?_⟩⟩
  · obtain ⟨i, s, hi, hs, hplays⟩ := hone.stream hon
    obtain ⟨s', hs', hflag⟩ := hone.points hi
    obtain rfl := some.inj (hs.symm.trans hs')
    exact ⟨i, s, hi, hs, hflag, hplays⟩
  · obtain ⟨cur, hcur, -⟩ := hone.points hi
    rcases admitted_step K w e with hsame | hnone | ⟨m, g, -, t, u, hwins, hm, hu, hrank, hid⟩
    · exact absurd (some.inj (hk.symm.trans (hsame.trans hi))) hki
    · rw [hnone] at hk
      exact absurd hk (by simp)
    · obtain rfl : k = m := some.inj (hk.symm.trans hm)
      have hwon := wins_other hi (Ne.symm hki) hcur hwins
      rw [← hrank, ← hid] at hwon
      exact ⟨cur, u, hcur, hu, hwon⟩

/-- A message of JSON, and one of audio. -/
def Got.json (s : String) : Got := { plain := 0 :: txt s, opens := true }

def Got.audio (pcm : Bytes) : Got := { plain := 4 :: (List.replicate 8 0 ++ pcm), pcm := pcm }

/-- A server/activate of a server that plays. -/
def Got.activatePlayer : Got := .json <|
  "\x7b\"type\":\"server/activate\",\"payload\":\x7b\"activities\":[\"playback\"]," ++
  "\"active_roles\":[\"player@v1\"]\x7d\x7d"

/-- A stream/start. -/
def Got.streamStart : Got := .json <|
  "\x7b\"type\":\"stream/start\",\"payload\":\x7b\"player\":\x7b\"codec\":\"pcm\"," ++
  "\"sample_rate\":48000,\"channels\":2,\"bit_depth\":16\x7d\x7d\x7d"

/-- Keys to try a run with, none of which a server names that names no key. -/
def someKeys : Keys where
  sentinelPsk := .zero 32
  pairingPsk := .fill 32 1
  pskId := fun psk => psk.1

/-- A server plays, and another one dials. -/
def twoServers : List (Ev ℕ) :=
  [.connect 0 (txt "a") (txt "\x7b\x7d"), .message 0 .activatePlayer, .message 0 .streamStart,
    .message 0 (.audio [1, 2, 3, 4]), .connect 1 (txt "b") (txt "\x7b\x7d")]

/-- The first one is admitted and its audio is queued; then the other one wins. -/
theorem admitted_one_twoServers :
    let w := (World.start ℕ [] true [] 50 0).after someKeys twoServers
    let e := Ev.message 1 .activatePlayer
    w.admitted = some 0 ∧ w.streamOn = true ∧ w.queue = [(0, 0, [1, 2, 3, 4])] ∧
    (w.step someKeys e).admitted = some 1 ∧ (w.step someKeys e).queue = [] ∧
    ∃ cur s, w.sessions 0 = some cur ∧ (w.step someKeys e).sessions 1 = some s ∧
      cur.rank ≤ s.rank := by
  intro w e
  obtain ⟨hadm, hon, hqueue, hnext, hempty⟩ : w.admitted = some 0 ∧ w.streamOn = true ∧
      w.queue = [(0, 0, [1, 2, 3, 4])] ∧ (w.step someKeys e).admitted = some 1 ∧
      (w.step someKeys e).queue = [] := by decide +kernel
  refine ⟨hadm, hon, hqueue, hnext, hempty, ?_⟩
  obtain ⟨-, -, -, -, hstep⟩ := admitted_one someKeys [] true [] 50 0 twoServers w rfl
  obtain ⟨cur, s, hcur, hs, hrank, -⟩ := (hstep e).2 0 1 hadm hnext (by decide)
  exact ⟨cur, s, hcur, hs, hrank⟩

end Hassmic.Sendspin
