import Hassmic.Sendspin.Admitted

/-!
# Servers that are not paired

While unpaired access is off, a session that no long-term key came with may pair and no
more.  A server/activate that names a role is turned away, and the text in which the role
is looked for later is the one that was searched for it; so the player role is out of
reach, and with it the audio and the commands.

## Main definitions

* `NotPaired` — unpaired access is off, and no handshake of the session had a long-term key.
* `NoRole` — the session does not have the player role.

## Main results

* `noRole_step` — it does not get it.
* `unpaired_silent` — an unpaired server does not play while unpaired access is off.
-/

namespace Hassmic.Sendspin

open Byte Text Volume Function

variable {ι : Type} [DecidableEq ι]

/-- Unpaired access is off, and the session's handshake ended with the Sentinel or the pairing
key. -/
def NotPaired (i : ι) (w : World ι) : Prop :=
  w.unpairedOk = false ∧ ∀ s ∈ w.sessions i, s.pskCat ≠ .longterm

/-- The session does not have the player role. -/
def NoRole (i : ι) (w : World ι) : Prop :=
  ∀ s, w.sessions i = some s → s.playerActive = false

variable {w : World ι} {i k : ι} {s t : Session}

/-! ### What leaves the role alone -/

/-- A session is written that does not have the role if it is this one. -/
theorem NoRole.write (h : NoRole i w) (ht : k = i → t.playerActive = false) :
    NoRole i (w.set k t) := by
  intro u hu
  by_cases hik : i = k
  · subst hik
    rw [World.sessions_set_self] at hu
    obtain rfl := Option.some.inj hu
    exact ht rfl
  · rw [World.sessions_set_ne w hik] at hu
    exact h u hu

/-- A session is written with the role it had. -/
theorem NoRole.set (h : NoRole i w) (hk : w.sessions k = some s)
    (hrole : t.playerActive = s.playerActive) : NoRole i (w.set k t) := by
  apply h.write
  rintro rfl
  exact hrole.trans (h s hk)

omit [DecidableEq ι] in
theorem NoRole.congr {v : World ι} (h : NoRole i w) (hs : v.sessions = w.sessions) :
    NoRole i v := by
  intro s hi
  rw [hs] at hi
  exact h s hi

/-! ### `server/activate` -/

omit [DecidableEq ι] in
/-- Where a session was not turned away, no role was named. -/
theorem takeRoles_off {j : Bytes} (hoff : w.unpairedOk = false) (hcat : t.pskCat ≠ .longterm)
    (haway : w.turnedAway t j = false) (hrole : s.playerActive = false) :
    (World.takeRoles s j).playerActive = false := by
  unfold World.turnedAway at haway
  simp only [hoff, hcat, Bool.not_false, ne_eq, not_false_eq_true, decide_true, Bool.true_and,
    Bool.or_eq_false_iff] at haway
  unfold World.takeRoles
  cases hroles : World.activeRoles j with
  | none => exact hrole
  | some sec =>
    simp only
    -- the word that was searched for is a part of the role's name
    rw [hroles] at haway
    have hword : txt "@v" <:+: txt "player@v1" := ⟨txt "player", txt "1", by decide⟩
    cases hon : occurs (txt "player@v1") sec with
    | false => rfl
    | true =>
      have hv : occurs (txt "@v") sec = true := occurs_of_infix hword hon
      exact absurd (hv.symm.trans haway.2) (by simp)

/-- A session that is displaced keeps its roles. -/
theorem noRole_displace (h : NoRole i w) (k : ι) : NoRole i (w.displace k) := by
  unfold World.displace
  split
  · exact h.congr rfl
  · split
    · exact h
    · split
      · exact h.congr rfl
      · next m _ _ _ cur hcur =>
        have hset : NoRole i (w.set m
            (Session.goodbye { cur with admitted := false } .anotherServer)) := by
          apply h.set hcur
          rw [Session.goodbye_eq]
        exact hset.congr rfl

theorem noRole_elect (h : NoRole i w) (hk : w.sessions k = some s)
    (hrole : t.playerActive = s.playerActive) :
    NoRole i (w.elect k t) := by
  have hset : NoRole i ((w.displace k).set k { t with admitted := true }) := by
    apply (noRole_displace h k).write
    rintro rfl
    exact hrole.trans (h s hk)
  exact hset.congr rfl

theorem noRole_activateAdmitted (h : NoRole i w) {j : Bytes}
    (hoff : k = i → (World.takeRoles s j).playerActive = false) (playback pairing rekeyed : Bool)
    (rnd : Blob 32) : NoRole i (w.activateAdmitted k s j playback pairing rekeyed rnd) := by
  have hsame : NoRole i (w.rolesTaken s j playback) := h.congr (rolesTaken_same ..).1
  unfold World.activateAdmitted
  apply hsame.write
  intro hki
  rw [(activateRecord_same ..).2.1]
  exact hoff hki

theorem noRole_activates {j : Bytes} {rnd : Blob 32} {v : World ι} (h : NoRole i w)
    (hk : w.sessions k = some s) (hnot : k = i → w.unpairedOk = false ∧ s.pskCat ≠ .longterm)
    (hv : Activates w k s j rnd v) : NoRole i v := by
  have hoff : ∀ t : Session, w.turnedAway (World.activated s j) j = false →
      t.playerActive = s.playerActive → k = i → (World.takeRoles t j).playerActive = false := by
    rintro t haway ht rfl
    obtain ⟨hok, hcat⟩ := hnot rfl
    exact takeRoles_off (t := World.activated s j) hok hcat haway (ht.trans (h s hk))
  have hset : NoRole i (w.set k (World.activated s j)) := h.set hk rfl
  cases hv with
  | away r =>
    apply h.set hk
    rw [Session.goodbye_eq]
    rfl
  | again => exact hset
  | renewed haway =>
    exact noRole_activateAdmitted hset (hoff (World.activated s j) haway rfl) _ _ _ _
  | won haway =>
    exact noRole_activateAdmitted (noRole_elect (t := World.activated s j) h hk rfl)
      (hoff { World.activated s j with admitted := true } haway rfl) _ _ _ _

/-! ### Other messages -/

theorem noRole_volumeChanged (h : NoRole i w) : NoRole i w.volumeChanged := by
  rcases volumeChanged_cases w with heq | ⟨m, t, -, hm, -, heq⟩
  · rw [heq]
    exact h
  · rw [heq, World.sendStateVol_eq]
    exact h.set hm rfl

theorem noRole_obey (h : NoRole i w) (s : Session) (sec cmd : Bytes) :
    NoRole i (w.obey s sec cmd) := by
  rcases obey_cases w s sec cmd with ⟨vol, heq⟩ | ⟨muted, delay, heq⟩
  · rw [heq]
    exact noRole_volumeChanged (h.congr rfl)
  · rw [heq]
    exact h.congr rfl

theorem noRole_onCommand (h : NoRole i w) (s : Session) (j : Bytes) :
    NoRole i (w.onCommand k s j) := by
  rcases onCommand_cases w k s j with heq | ⟨-, -, sec, cmd, ⟨heq, -⟩ | ⟨t, ht, heq⟩⟩
  · rw [heq]
    exact h
  · rw [heq]
    exact noRole_obey h s sec cmd
  · rw [heq, World.sendState, World.sendStateVol_eq]
    exact (noRole_obey h s sec cmd).set ht rfl

theorem noRole_onStreamStart (h : NoRole i w) (hk : w.sessions k = some s) (j : Bytes) (g : Got) :
    NoRole i (w.onStreamStart k s j g) := by
  rcases onStreamStart_cases w k s j g with heq | ⟨-, heq⟩
  · rw [heq]
    exact h
  · have hset : NoRole i (w.set k (s.sendJson .time).2) := by
      apply h.set hk
      rw [Session.sendJson_eq]
    rw [heq]
    exact hset.congr rfl

theorem noRole_does {K : Keys} {j : Bytes} {g : Got} {v : World ι} (h : NoRole i w)
    (hk : w.sessions k = some s) (hnot : k = i → w.unpairedOk = false ∧ s.pskCat ≠ .longterm)
    (hdoes : World.Does K w k s j g v) : NoRole i v := by
  cases hdoes with
  | nothing => exact h
  | rehandshake => exact h.set hk (rehandshake_same K w s j g).2.1
  | hello => exact h.set hk rfl
  | activate => exact noRole_activates h hk hnot (activates ..)
  | paired =>
    have hput : NoRole i (w.recordPut s.newPsk s.serverId) := h.congr rfl
    exact hput.set hk rfl
  | abort => exact h.set hk rfl
  | unpair =>
    have hdrop : NoRole i (w.recordDrop s.serverId) := h.congr rfl
    apply hdrop.set hk
    rw [Session.goodbye_eq]
  | command => exact noRole_onCommand h s j
  | streamStart => exact noRole_onStreamStart h hk j g
  | clear => exact h.congr rfl
  | streamEnd => exact h.congr rfl

theorem noRole_handles {K : Keys} {g : Got} {v : World ι} (h : NoRole i w)
    (hk : w.sessions k = some s) (hnot : k = i → w.unpairedOk = false ∧ s.pskCat ≠ .longterm)
    (hhandles : World.Handles K w k s g v) : NoRole i v := by
  cases hhandles with
  | nothing => exact h
  | json hdoes => exact noRole_does h hk hnot hdoes
  | @audio ts =>
    rcases qPush_cases w k ts g.pcm with heq | ⟨c, -, heq⟩
    · rw [heq]
      exact h
    · rw [heq]
      exact h.congr rfl

/-- A message of any session leaves it without the role. -/
theorem noRole_message (h : NoRole i w) (hnot : NotPaired i w) (K : Keys) (k : ι) (g : Got) :
    NoRole i (w.message K k g) := by
  rcases World.message_cases K w k g with heq | ⟨s, late, frag, v, hk, hv, heq⟩
  · rw [heq]
    exact h
  · have hset : NoRole i (w.set k { s with late := late, frag := frag }) := h.set hk rfl
    have hv' := noRole_handles hset (World.sessions_set_self ..)
      (fun hki => ⟨hnot.1, hnot.2 s (by rw [← hki]; exact hk)⟩) hv
    rcases heq with heq | ⟨t, ht, heq⟩
    · rw [heq]
      exact hv'
    · rw [heq]
      exact hv'.set ht rfl

/-! ### Each step -/

theorem noRole_unpaired (h : NoRole i w) (set : Bool) : NoRole i (w.unpaired set) := by
  have hidled : NoRole i (w.idled set) := by
    intro u hu
    obtain ⟨s, hs, rfl⟩ := Option.map_eq_some_iff.mp hu
    split
    · exact h s hs
    · exact h s hs
  rcases unpaired_cases w set with heq | ⟨k, s, -, -, hk, -, heq⟩
  · rw [heq]
    exact hidled
  · have hset : NoRole i ((w.idled set).set k
        (Session.goodbye { s with admitted := false } .pairingRequired)) := by
      apply hidled.set hk
      rw [Session.goodbye_eq]
    rw [heq]
    exact hset.congr rfl

theorem noRole_connect (h : NoRole i w) (K : Keys) (k : ι) (serverId payload : Bytes) :
    NoRole i (w.connect K k serverId payload) := by
  unfold World.connect
  split
  · exact h
  · split
    · exact h
    · next t ht =>
      obtain ⟨spec, cat, rfl⟩ := noiseRespond_same ht
      have hset := h.write (k := k) (t := { serverId := serverId, spec := spec, pskCat := cat })
        fun _ => rfl
      exact hset.congr rfl

theorem noRole_ends (h : NoRole i w) (k : ι) : NoRole i (w.ends k) := by
  have hgone : ∀ u, update w.sessions k none i = some u → u.playerActive = false := by
    intro u hu
    by_cases hik : i = k
    · subst hik
      rw [update_self] at hu
      exact absurd hu (by simp)
    · rw [update_of_ne hik] at hu
      exact h u hu
  unfold World.ends
  by_cases hadm : w.admitted = some k
  · rw [if_pos hadm]
    exact hgone
  · rw [if_neg hadm]
    exact hgone

/-- **Whatever happens, the session does not get the player role.** -/
theorem noRole_step (K : Keys) (h : NoRole i w) (hnot : NotPaired i w) (e : Ev ι) :
    NoRole i (w.step K e) := by
  cases e with
  | connect k serverId payload => exact noRole_connect h K k serverId payload
  | message k g => exact noRole_message h hnot K k g
  | ends k => exact noRole_ends h k
  | unpaired set => exact noRole_unpaired h set
  | volume v =>
    show NoRole i (w.volume v)
    unfold World.volume
    split
    · exact h
    · exact h.congr rfl
  | volumeTold =>
    show NoRole i w.volumeTold
    rcases volumeTold_cases w with ⟨-, heq⟩ | ⟨k, v, s, -, hk, heq⟩
    · rw [heq]
      exact h.congr rfl
    · have hset : NoRole i (w.set k (w.sendStateVol s v)) := by
        apply h.set hk
        rw [World.sendStateVol_eq]
      rw [heq]
      exact hset.congr rfl
  | timeGate k =>
    show NoRole i (w.timeGate k)
    unfold World.timeGate
    split
    · exact h
    · next s hs =>
      split
      · exact h.set hs rfl
      · exact h
  | timeTold k due ok =>
    show NoRole i (w.timeTold k due ok)
    rcases timeTold_cases w k due ok with heq | ⟨s, hk, heq | ⟨-, heq⟩⟩
    · rw [heq]
      exact h
    · rw [heq]
      apply h.set hk
      rw [Session.sendJson_eq]
    · rw [heq, World.sendState, World.sendStateVol_eq]
      apply h.set hk
      rw [Session.sendJson_eq]
  | clock synced => exact h.congr rfl
  | played => exact h.congr rfl

/-! ### What it cannot change -/

/-- Only a server/command of a player changes them. -/
theorem levels_handles {K : Keys} {g : Got} {v : World ι} (hrole : s.playerActive = false)
    (hhandles : World.Handles K w i s g v) : v.levels = w.levels := by
  cases hhandles with
  | nothing => rfl
  | json hdoes =>
    cases hdoes with
    | activate => exact (activates_same (activates ..)).2.1
    | command =>
      rcases onCommand_cases w i s _ with heq | ⟨hplays, -⟩
      · rw [heq]
      · rw [hrole] at hplays
        exact absurd hplays (by simp)
    | streamStart =>
      rcases onStreamStart_cases w i s _ g with heq | ⟨-, heq⟩
      · rw [heq]
      · rw [heq]
        rfl
    | nothing | rehandshake | hello | paired | abort | unpair | clear | streamEnd => rfl
  | @audio ts hadm hplays =>
    rw [hrole] at hplays
    exact absurd hplays (by simp)

theorem levels_message (h : NoRole i w) (K : Keys) (g : Got) :
    (w.message K i g).levels = w.levels := by
  rcases World.message_cases K w i g with heq | ⟨s, late, frag, v, hi, hv, heq⟩
  · rw [heq]
  · have hsame : v.levels = (w.set i { s with late := late, frag := frag }).levels :=
      levels_handles (s := { s with late := late, frag := frag }) (h s hi) hv
    rcases heq with heq | ⟨t, -, heq⟩
    · rw [heq]
      exact hsame
    · rw [heq]
      exact hsame

/-! ### Whole lives -/

/-- **An unpaired server does not play while unpaired access is off.**  From any state that can
be reached in which the session is not there yet, and along every run in which unpaired access
is off and no handshake of the session ends with a long-term key: it does not have the player
role, nothing queued is of it, and no message of it changes the volume, the mute or the delay. -/
theorem unpaired_silent (K : Keys) (lastPlaybackServer : Bytes) (unpairedOk : Bool)
    (records : List (Blob 32 × Bytes)) (vol : Level) (delay : ℤ) (before l : List (Ev ι))
    (w₀ w : World ι) (i : ι)
    (hw₀ : w₀ = (World.start ι lastPlaybackServer unpairedOk records vol delay).after K before)
    (hnone : w₀.sessions i = none)
    (hl : Runs.Each (World.step K) (fun v _ => NotPaired i v) w₀ l) (hw : w = w₀.after K l) :
    (∀ s, w.sessions i = some s → s.playerActive = false) ∧
    (∀ c ∈ w.queue, c.1 ≠ i) ∧
    ∀ g, (w.step K (.message i g)).levels = w.levels := by
  have hone : One w := by
    rw [hw, hw₀]
    have hbefore := Runs.invariant_all (I := One) (fun _ e h => one_step K h e)
      (one_start (ι := ι) lastPlaybackServer unpairedOk records vol delay) before
    exact Runs.invariant_all (I := One) (fun _ e h => one_step K h e) hbefore l
  have hrole : NoRole i w := by
    rw [hw]
    apply Runs.invariant (fun v e h hnot => noRole_step K h hnot e) _ hl
    intro s hs
    rw [hnone] at hs
    exact absurd hs (by simp)
  refine ⟨hrole, fun c hc hci => ?_, fun g => levels_message hrole K g⟩
  -- the audio that is queued is of a session with the role
  obtain ⟨s, -, hs, hplays⟩ := hone.queue c hc
  rw [hci] at hs
  rw [hrole s hs] at hplays
  exact absurd hplays (by simp)

/-- A server/command. -/
def Got.setVolume : Got := .json <|
  "\x7b\"type\":\"server/command\",\"payload\":\x7b\"player\":" ++
  "\x7b\"command\":\"volume\",\"volume\":100\x7d\x7d\x7d"

/-- A server/activate that names no activity and no role. -/
def Got.activateIdle : Got := .json "\x7b\"type\":\"server/activate\",\"payload\":\x7b\x7d\x7d"

/-- A server that is not paired gets itself admitted, and then asks for the role and starts to
play all the same. -/
def pushyServer : List (Ev ℕ) :=
  [.connect 0 (txt "a") (txt "\x7b\x7d"), .message 0 .activateIdle, .message 0 .streamStart,
    .message 0 .setVolume, .message 0 .activatePlayer]

/-- It is told to close, and its last message changes nothing either. -/
theorem unpaired_silent_pushyServer :
    let w := (World.start ℕ [] false [] 50 0).after someKeys pushyServer
    w.admitted = some 0 ∧ w.streamOn = false ∧
    (∀ s, w.sessions 0 = some s → s.playerActive = false) ∧ (∀ c ∈ w.queue, c.1 ≠ 0) ∧
    (w.step someKeys (.message 0 .setVolume)).levels = w.levels := by
  intro w
  have hl : Runs.Each (World.step someKeys) (fun v _ => NotPaired 0 v)
      (World.start ℕ [] false [] 50 0) pushyServer := by
    simp only [pushyServer, Runs.Each, NotPaired]
    decide +kernel
  obtain ⟨hrole, hqueue, hsame⟩ :=
    unpaired_silent someKeys [] false [] 50 0 [] pushyServer _ w 0 rfl rfl hl rfl
  exact ⟨by decide +kernel, by decide +kernel, hrole, hqueue, hsame .setVolume⟩

end Hassmic.Sendspin
