import Hassmic.Sendspin.Unpaired

/-!
# The client/state that is owed

While a re-handshake goes on nothing may be sent.  A client/state that meets the quiet period
is held back and noted, and the server/activate that ends it sends one.  A change of the volume
is first asked whether the session is activated, though, and that the re-handshake takes away as
well: what is turned back there is not noted, and the server does not learn of it.

## Main definitions

* `lastTold` — the last client/state of a session.
* `Good` — what a session with the player role was told, or will be.
* `Noted` — a change of the volume does not come while a re-handshake goes on, unless a
  client/state is owed already.

## Main results

* `good_step` — each step keeps it.
* `told_noted` — where every change is noted, the last client/state is true.
-/

namespace Hassmic.Sendspin

open Byte Text Volume Option List Function

variable {ι : Type} [DecidableEq ι]

/-! ### The last client/state -/

/-- What a client/state says of the volume, the mute and the delay. -/
def Told.levels (t : Told) : Level × Bool × ℤ := (t.vol, t.muted, t.delay)

/-- What a message says of them. -/
def Out.told : Out → Option Told
  | .state t => some t
  | _ => none

/-- The last client/state. -/
def lastTold (out : List Out) : Option Told := (out.filterMap Out.told).getLast?

theorem lastTold_state (out : List Out) (t : Told) : lastTold (out ++ [.state t]) = some t := by
  unfold lastTold
  rw [filterMap_append]
  simp [Out.told]

theorem lastTold_other (out : List Out) {o : Out} (ho : o.told = none) :
    lastTold (out ++ [o]) = lastTold out := by
  unfold lastTold
  rw [filterMap_append]
  simp [ho]

/-- A message that is no client/state, sent or held back. -/
theorem lastTold_sent (s : Session) {o : Out} (ho : o.told = none) :
    lastTold (if s.quiet then s.out else s.out ++ [o]) = lastTold s.out := by
  split
  · rfl
  · exact lastTold_other s.out ho

/-! ### What a session was told -/

/-- A session with the player role that is not closing is admitted; once its first client/state
was sent, one is owed and the quiet period goes on, or the last one is true, or another is on its
way. -/
structure Good (levels : Level × Bool × ℤ) (call : Option (ι × Level)) (i : ι) (s : Session) :
    Prop where
  admitted : s.playerActive = true → s.closing = false → s.admitted = true
  told : s.playerActive = true → s.stateSent = true → s.closing = false →
    s.stateOwed = true ∧ s.quiet = true ∨
    s.stateOwed = false ∧
      ((lastTold s.out).map Told.levels = some levels ∨ call = some (i, levels.1))

/-- A session as it is after a step that sends no client/state. -/
structure Keeps (s t : Session) : Prop where
  role : t.playerActive = s.playerActive
  sent : t.stateSent = s.stateSent
  owed : t.stateOwed = s.stateOwed
  closing : t.closing = false → s.closing = false
  admitted : t.closing = false → t.admitted = s.admitted
  quiet : t.closing = false → s.quiet = true → t.quiet = true
  last : lastTold t.out = lastTold s.out

variable {w : World ι} {i k : ι} {s t : Session} {levels : Level × Bool × ℤ}
  {call : Option (ι × Level)}

omit [DecidableEq ι] in
theorem Good.keeps (h : Good levels call i s) (hkeeps : Keeps s t) : Good levels call i t where
  admitted := by
    intro hrole hclosing
    rw [hkeeps.admitted hclosing]
    exact h.admitted (hkeeps.role ▸ hrole) (hkeeps.closing hclosing)
  told := by
    intro hrole hsent hclosing
    rw [hkeeps.last, hkeeps.owed]
    rcases h.told (hkeeps.role ▸ hrole) (hkeeps.sent ▸ hsent) (hkeeps.closing hclosing)
      with ⟨howed, hquiet⟩ | htold
    · exact .inl ⟨howed, hkeeps.quiet hclosing hquiet⟩
    · exact .inr htold

omit [DecidableEq ι] in
/-- A session that closes is told nothing more. -/
theorem Good.of_closing (h : t.closing = true) : Good levels call i t where
  admitted := fun _ hclosing => absurd (h.symm.trans hclosing) (by simp)
  told := fun _ _ hclosing => absurd (h.symm.trans hclosing) (by simp)

omit [DecidableEq ι] in
/-- A session without the role is told nothing. -/
theorem Good.of_idle (h : t.playerActive = true → t.closing = true) : Good levels call i t where
  admitted := fun hrole hclosing => absurd ((h hrole).symm.trans hclosing) (by simp)
  told := fun hrole _ hclosing => absurd ((h hrole).symm.trans hclosing) (by simp)

omit [DecidableEq ι] in
/-- A client/state is sent, or noted. -/
theorem good_sendStateVol (w : World ι) (s : Session)
    (hadm : s.playerActive = true → s.closing = false → s.admitted = true)
    (call : Option (ι × Level)) (i : ι) : Good w.levels call i (w.sendStateVol s w.vol) := by
  rw [World.sendStateVol_eq]
  refine ⟨hadm, fun _ _ _ => ?_⟩
  cases hquiet : s.quiet with
  | true => exact .inl ⟨rfl, rfl⟩
  | false =>
    refine .inr ⟨rfl, .inl ?_⟩
    simp only [Bool.false_eq_true, if_false]
    rw [lastTold_state]
    rfl

/-- All sessions are. -/
def Current (w : World ι) : Prop :=
  ∀ i s, w.sessions i = some s → Good w.levels w.call i s

omit [DecidableEq ι] in
theorem Current.congr {v : World ι} (h : Current w) (hs : v.sessions = w.sessions)
    (hl : v.levels = w.levels) (hc : v.call = w.call) : Current v := by
  intro i s hi
  rw [hl, hc]
  rw [hs] at hi
  exact h i s hi

theorem Current.set (h : Current w) (ht : Good w.levels w.call i t) : Current (w.set i t) := by
  intro k u hk
  by_cases hki : k = i
  · subst hki
    rw [World.sessions_set_self] at hk
    obtain rfl := some.inj hk
    exact ht
  · rw [World.sessions_set_ne w hki] at hk
    exact h k u hk

/-- A session changes, and is sent no client/state. -/
theorem Current.keeps (h : Current w) (hi : w.sessions i = some s) (hkeeps : Keeps s t) :
    Current (w.set i t) := h.set ((h i s hi).keeps hkeeps)

theorem keeps_sendJson (s : Session) {o : Out} (ho : o.told = none) :
    Keeps s (s.sendJson o).2 := by
  rw [Session.sendJson_eq]
  exact ⟨rfl, rfl, rfl, id, fun _ => rfl, fun _ => id, lastTold_sent s ho⟩

theorem goodbye_closing (s : Session) (r : Reason) : (s.goodbye r).closing = true := by
  rw [Session.goodbye_eq]

/-! ### `server/activate` -/

/-- Pairing sends no client/state. -/
theorem keeps_takePairing (t : Session) (j : Bytes) (rnd : Blob 32) :
    Keeps t (World.takePairing t j rnd) := by
  unfold World.takePairing
  simp only
  split
  · split
    · have hfirst := keeps_sendJson
        { t with pairingIndex := t.pairingIndex + 1, newPsk := rnd, pairing := true }
        (o := .pairInit (t.pairingIndex + 1)) rfl
      have hsecond := keeps_sendJson (Session.sendJson
        { t with pairingIndex := t.pairingIndex + 1, newPsk := rnd, pairing := true }
        (.pairInit (t.pairingIndex + 1))).2 (o := .pairFinalize rnd) rfl
      exact ⟨hsecond.role.trans hfirst.role, hsecond.sent.trans hfirst.sent,
        hsecond.owed.trans hfirst.owed, fun h => hfirst.closing (hsecond.closing h),
        fun h => (hsecond.admitted h).trans (hfirst.admitted (hsecond.closing h)),
        fun h hq => hsecond.quiet h (hfirst.quiet (hsecond.closing h) hq),
        hsecond.last.trans hfirst.last⟩
    · have hsent := keeps_sendJson
        { t with pairingIndex := t.pairingIndex + 1, newPsk := rnd, pairing := true }
        (o := .pairFinalize rnd) rfl
      exact { hsent with role := hsent.role }
  · have hsent := keeps_sendJson { t with pairingIndex := t.pairingIndex + 1 } (o := .pairAbort) rfl
    exact { hsent with role := hsent.role }

/-- A session that a server/activate has come to, before its roles are looked at. -/
structure Renewed (s t : Session) : Prop where
  quiet : t.quiet = false
  role : t.playerActive = s.playerActive
  sent : t.stateSent = s.stateSent
  owed : t.stateOwed = s.stateOwed
  closing : t.closing = s.closing
  out : t.out = s.out

theorem renewed_activated (s : Session) (j : Bytes) : Renewed s (World.activated s j) :=
  ⟨rfl, rfl, rfl, rfl, rfl, rfl⟩

theorem Renewed.flagged (h : Renewed s t) : Renewed s { t with admitted := true } :=
  { h with quiet := h.quiet }

omit [DecidableEq ι] in
/-- After the quiet period: what was held back is sent, if the role stayed; a role that is new
starts with a client/state of its own. -/
theorem good_activateRecord (h : Good w.levels call i s) (hadm : t.admitted = true) (j : Bytes)
    (pairing : Bool) (rnd : Blob 32) (ht : Renewed s t) :
    Good w.levels call i (w.activateRecord t j pairing s.quiet rnd) := by
  -- the record before it is asked to pair
  have hroles : Good w.levels call i
      (if s.quiet && t.playerActive && (World.takeRoles t j).playerActive &&
        (World.takeRoles t j).stateOwed then w.sendState (World.takeRoles t j)
      else World.takeRoles t j) := by
    have hadm' : (World.takeRoles t j).admitted = true := (takeRoles_same t j).1.trans hadm
    split
    · exact good_sendStateVol w _ (fun _ _ => hadm') call i
    · next hnot =>
      refine ⟨fun _ _ => hadm', ?_⟩
      -- the role was there before, or the first client/state is still to come
      have hstayed : (World.takeRoles t j).playerActive = true →
          (World.takeRoles t j).stateSent = true →
          t.playerActive = true ∧ t.stateSent = true := by
        unfold World.takeRoles
        split
        · exact fun hrole hst => ⟨hrole, hst⟩
        · simp only [Bool.and_eq_true, Bool.not_eq_true']
          rintro hon ⟨hst, hkept⟩
          refine ⟨?_, hst⟩
          by_contra hold
          simp [hon, hold] at hkept
      have hsame : (World.takeRoles t j).stateOwed = t.stateOwed ∧
          (World.takeRoles t j).closing = t.closing ∧ (World.takeRoles t j).out = t.out := by
        unfold World.takeRoles
        split
        · exact ⟨rfl, rfl, rfl⟩
        · exact ⟨rfl, rfl, rfl⟩
      intro hrole hst hcl
      obtain ⟨hold, hold'⟩ := hstayed hrole hst
      rw [hsame.2.1, ht.closing] at hcl
      rw [hsame.1, hsame.2.2, ht.owed, ht.out]
      rcases h.told (ht.role ▸ hold) (ht.sent ▸ hold') hcl with ⟨how, hq⟩ | htold
      · -- that one was sent just now
        rw [hsame.1, ht.owed, how, hq, hold, hrole] at hnot
        exact absurd rfl hnot
      · exact .inr htold
  unfold World.activateRecord
  simp only
  generalize (if s.quiet && t.playerActive && (World.takeRoles t j).playerActive &&
    (World.takeRoles t j).stateOwed then w.sendState (World.takeRoles t j)
    else World.takeRoles t j) = u at hroles
  have hunpaired : Good w.levels call i { u with pairing := false } :=
    ⟨hroles.admitted, hroles.told⟩
  split
  · exact hunpaired.keeps (keeps_takePairing ..)
  · exact hunpaired

/-- All sessions but one. -/
def Rest (i : ι) (w : World ι) : Prop :=
  ∀ k s, k ≠ i → w.sessions k = some s → Good w.levels w.call k s

omit [DecidableEq ι] in
theorem Current.rest (h : Current w) (i : ι) : Rest i w := fun k s _ hk => h k s hk

omit [DecidableEq ι] in
theorem Rest.congr {v : World ι} (h : Rest i w) (hs : v.sessions = w.sessions)
    (hl : v.levels = w.levels) (hc : v.call = w.call) : Rest i v := by
  intro k s hki hk
  rw [hl, hc]
  rw [hs] at hk
  exact h k s hki hk

theorem Rest.write (h : Rest i w) (t : Session) : Rest i (w.set i t) := by
  intro k u hki hk
  rw [World.sessions_set_ne w hki] at hk
  exact h k u hki hk

theorem Rest.set (h : Rest i w) (ht : Good w.levels w.call i t) : Current (w.set i t) := by
  intro k u hk
  by_cases hki : k = i
  · subst hki
    rw [World.sessions_set_self] at hk
    obtain rfl := some.inj hk
    exact ht
  · rw [World.sessions_set_ne w hki] at hk
    exact h k u hki hk

theorem rest_displace (h : Current w) (i : ι) : Rest i (w.displace i) := by
  unfold World.displace
  split
  · exact (h.rest i).congr rfl rfl rfl
  · split
    · exact h.rest i
    · split
      · exact (h.rest i).congr rfl rfl rfl
      · next k _ _ _ cur _ =>
        -- the one that goes closes
        have hset : Current (w.set k
            (Session.goodbye { cur with admitted := false } .anotherServer)) :=
          h.set (.of_closing (goodbye_closing ..))
        exact (hset.rest i).congr rfl rfl rfl

theorem current_activateAdmitted (h : Rest i w) (hs : Good w.levels w.call i s)
    (hadm : t.admitted = true) (j : Bytes) (ht : Renewed s t) (playback pairing : Bool)
    (rnd : Blob 32) : Current (w.activateAdmitted i t j playback pairing s.quiet rnd) := by
  obtain ⟨hsessions, -, -, hlevels, hcall⟩ := rolesTaken_same w t j playback
  have hrest : Rest i (w.rolesTaken t j playback) := h.congr hsessions hlevels hcall
  unfold World.activateAdmitted
  apply hrest.set
  apply good_activateRecord _ hadm j pairing rnd ht
  rw [hlevels, hcall]
  exact hs

theorem current_activates {j : Bytes} {rnd : Blob 32} {v : World ι} (h : Current w)
    (hi : w.sessions i = some s) (hv : Activates w i s j rnd v) : Current v := by
  have hs := h i s hi
  cases hv with
  | away r => exact h.set (.of_closing (goodbye_closing ..))
  | again hadm =>
    -- without the flag it has no role, or closes
    refine h.set (.of_idle fun hrole => ?_)
    by_contra hclosing
    exact absurd (hadm.symm.trans (hs.admitted hrole (Bool.eq_false_iff.mpr hclosing)))
      Bool.false_ne_true
  | renewed _ hadm =>
    exact current_activateAdmitted (t := World.activated s j) ((h.rest i).write _) hs hadm j
      (renewed_activated s j) _ _ rnd
  | won =>
    obtain ⟨-, hlevels, hcall⟩ := displace_same w i
    have hwon : Rest i (w.elect i (World.activated s j)) :=
      ((rest_displace h i).write { World.activated s j with admitted := true }).congr rfl rfl rfl
    have hs' : Good (w.displace i).levels (w.displace i).call i s := by
      rw [hlevels, hcall]
      exact hs
    exact current_activateAdmitted hwon hs' rfl j (renewed_activated s j).flagged _ _ rnd

/-! ### Commands -/

/-- No other session has the role, but to close. -/
def Alone (i : ι) (w : World ι) : Prop :=
  ∀ k s, k ≠ i → w.sessions k = some s → s.playerActive = true → s.closing = true

omit [DecidableEq ι] in
/-- Beside the admitted session there is none. -/
theorem alone_of_admitted (hone : One w) (h : Current w) (hi : w.sessions i = some s)
    (hadm : s.admitted = true) : Alone i w := by
  intro k u hki hk hrole
  by_contra hclosing
  have hflag := (h k u hk).admitted hrole (by simpa using hclosing)
  exact hki (some.inj ((hone.flag hk hflag).symm.trans (hone.flag hi hadm)))

theorem Alone.set (h : Alone i w) (t : Session) : Alone i (w.set i t) := by
  intro k u hki hk
  rw [World.sessions_set_ne w hki] at hk
  exact h k u hki hk

omit [DecidableEq ι] in
theorem Alone.rest (h : Alone i w) : Rest i w := fun k s hki hk => .of_idle (h k s hki hk)

/-- What a server/command changes leaves the other sessions alone. -/
theorem alone_obey (h : Alone i w) (hadm : w.admitted = some i) (s : Session) (sec cmd : Bytes) :
    Alone i (w.obey s sec cmd) := by
  rcases obey_cases w s sec cmd with ⟨vol, heq⟩ | ⟨muted, delay, heq⟩
  · rw [heq]
    rcases volumeChanged_cases { w with vol := vol } with heq' | ⟨k, t, hk, -, -, heq'⟩
    · rw [heq']
      exact h
    · rw [heq']
      obtain rfl : i = k := some.inj (hadm.symm.trans hk)
      exact Alone.set (w := { w with vol := vol }) h _
  · rw [heq]
    exact h

/-- The flag and the closing of the session a server/command came from stay as they were. -/
theorem obey_self (hadm : w.admitted = some i) (hi : w.sessions i = some s) (s' : Session)
    (sec cmd : Bytes) {t : Session} (ht : (w.obey s' sec cmd).sessions i = some t) :
    t.playerActive = s.playerActive ∧ t.closing = s.closing ∧ t.admitted = s.admitted := by
  rcases obey_cases w s' sec cmd with ⟨vol, heq⟩ | ⟨muted, delay, heq⟩
  · rw [heq] at ht
    rcases volumeChanged_cases { w with vol := vol } with heq' | ⟨k, u, hk, hu, -, heq'⟩
    · rw [heq'] at ht
      obtain rfl := some.inj (hi.symm.trans ht)
      exact ⟨rfl, rfl, rfl⟩
    · obtain rfl : i = k := some.inj (hadm.symm.trans hk)
      obtain rfl := some.inj (hi.symm.trans hu)
      rw [heq', World.sessions_set_self, World.sendStateVol_eq] at ht
      obtain rfl := some.inj ht
      exact ⟨rfl, rfl, rfl⟩
  · rw [heq] at ht
    obtain rfl := some.inj (hi.symm.trans ht)
    exact ⟨rfl, rfl, rfl⟩

/-- A server/command ends with a client/state. -/
theorem current_onCommand (hone : One w) (h : Current w) (hi : w.sessions i = some s)
    (hadm : s.admitted = true) (j : Bytes) : Current (w.onCommand i s j) := by
  have hpoint := hone.flag hi hadm
  rcases onCommand_cases w i s j with heq | ⟨-, -, sec, cmd, ⟨heq, hnone⟩ | ⟨t, ht, heq⟩⟩
  · rw [heq]
    exact h
  · rw [heq]
    have halone := alone_obey (alone_of_admitted hone h hi hadm) hpoint s sec cmd
    intro k u hk
    refine halone.rest k u ?_ hk
    rintro rfl
    rw [hnone] at hk
    exact absurd hk (by simp)
  · have halone := alone_obey (alone_of_admitted hone h hi hadm) hpoint s sec cmd
    obtain ⟨hrole, hclosing, hflag⟩ := obey_self hpoint hi s sec cmd ht
    rw [heq]
    refine halone.rest.set (good_sendStateVol _ t (fun _ _ => ?_) _ i)
    rw [hflag]
    exact hadm

/-! ### Each step -/

theorem current_does {K : Keys} {j : Bytes} {g : Got} {v : World ι} (hone : One w)
    (h : Current w) (hi : w.sessions i = some s) (hdoes : World.Does K w i s j g v) :
    Current v := by
  cases hdoes with
  | nothing => exact h
  | rehandshake =>
    rcases rehandshake_cases K w s j g with ⟨activated, quiet, heq⟩ | ⟨spec, cat, heq⟩
    · rw [heq]
      exact h.set (.of_closing rfl)
    · rw [heq]
      exact h.keeps hi ⟨rfl, rfl, rfl, id, fun _ => rfl, fun _ _ => rfl,
        lastTold_other s.out rfl⟩
  | hello =>
    exact h.keeps hi ⟨rfl, rfl, rfl, id, fun _ => rfl, fun _ => id, lastTold_other s.out rfl⟩
  | activate => exact current_activates h hi (activates ..)
  | paired =>
    have hput : Current (w.recordPut s.newPsk s.serverId) := h.congr rfl rfl rfl
    exact hput.keeps hi ⟨rfl, rfl, rfl, id, fun _ => rfl, fun _ => id, rfl⟩
  | abort => exact h.keeps hi ⟨rfl, rfl, rfl, id, fun _ => rfl, fun _ => id, rfl⟩
  | unpair =>
    have hdrop : Current (w.recordDrop s.serverId) := h.congr rfl rfl rfl
    exact hdrop.set (.of_closing (goodbye_closing ..))
  | command hadm => exact current_onCommand hone h hi hadm j
  | streamStart =>
    rcases onStreamStart_cases w i s j g with heq | ⟨-, heq⟩
    · rw [heq]
      exact h
    · rw [heq]
      exact (h.keeps hi (keeps_sendJson s (o := .time) rfl)).congr rfl rfl rfl
  | clear => exact h.congr rfl rfl rfl
  | streamEnd => exact h.congr rfl rfl rfl

theorem current_handles {K : Keys} {g : Got} {v : World ι} (hone : One w) (h : Current w)
    (hi : w.sessions i = some s) (hhandles : World.Handles K w i s g v) : Current v := by
  cases hhandles with
  | nothing => exact h
  | json hdoes => exact current_does hone h hi hdoes
  | @audio ts =>
    rcases qPush_cases w i ts g.pcm with heq | ⟨c, -, heq⟩
    · rw [heq]
      exact h
    · rw [heq]
      exact h.congr rfl rfl rfl

theorem current_message (hone : One w) (h : Current w) (K : Keys) (i : ι) (g : Got) :
    Current (w.message K i g) := by
  rcases World.message_cases K w i g with heq | ⟨s, late, frag, v, hi, hv, heq⟩
  · rw [heq]
    exact h
  · have hset : Current (w.set i { s with late := late, frag := frag }) :=
      h.keeps hi ⟨rfl, rfl, rfl, id, fun _ => rfl, fun _ => id, rfl⟩
    have hone' : One (w.set i { s with late := late, frag := frag }) := hone.set hi rfl id
    have hv' := current_handles hone' hset (World.sessions_set_self ..) hv
    rcases heq with heq | ⟨t, ht, heq⟩
    · rw [heq]
      exact hv'
    · rw [heq]
      exact hv'.set (.of_closing rfl)

/-! ### A change of the volume under way -/

/-- What a change of the volume tells is the volume. -/
def Calls (w : World ι) : Prop := ∀ p, w.call = some p → p.2 = w.vol

/-- A message does not touch it, and finds the volume locked. -/
theorem call_handles {K : Keys} {g : Got} {v : World ι} (hhandles : World.Handles K w i s g v) :
    v.call = w.call ∧ (w.call ≠ none → v.levels = w.levels) := by
  cases hhandles with
  | nothing => exact ⟨rfl, fun _ => rfl⟩
  | json hdoes =>
    cases hdoes with
    | activate =>
      obtain ⟨-, hlevels, hcall⟩ := activates_same (activates w i s _ g.rnd)
      exact ⟨hcall, fun _ => hlevels⟩
    | command =>
      rcases onCommand_cases w i s _ with heq | ⟨-, hnone, sec, cmd, hobeyed⟩
      · rw [heq]
        exact ⟨rfl, fun _ => rfl⟩
      · have hobey : (w.obey s sec cmd).call = w.call := by
          rcases obey_cases w s sec cmd with ⟨vol, heq⟩ | ⟨muted, delay, heq⟩
          · rw [heq]
            rcases volumeChanged_cases { w with vol := vol } with heq' | ⟨k, t, -, -, -, heq'⟩
            · rw [heq']
            · rw [heq']
              rfl
          · rw [heq]
        refine ⟨?_, fun hcall => absurd hnone hcall⟩
        rcases hobeyed with ⟨heq, -⟩ | ⟨t, -, heq⟩
        · rw [heq]
          exact hobey
        · rw [heq]
          exact hobey
    | streamStart =>
      rcases onStreamStart_cases w i s _ g with heq | ⟨-, heq⟩
      · rw [heq]
        exact ⟨rfl, fun _ => rfl⟩
      · rw [heq]
        exact ⟨rfl, fun _ => rfl⟩
    | nothing | rehandshake | hello | paired | abort | unpair | clear | streamEnd =>
      exact ⟨rfl, fun _ => rfl⟩
  | @audio ts =>
    rcases qPush_cases w i ts g.pcm with heq | ⟨c, -, heq⟩
    · rw [heq]
      exact ⟨rfl, fun _ => rfl⟩
    · rw [heq]
      exact ⟨rfl, fun _ => rfl⟩

theorem calls_message (h : Calls w) (K : Keys) (i : ι) (g : Got) : Calls (w.message K i g) := by
  rcases World.message_cases K w i g with heq | ⟨s, late, frag, v, -, hv, heq⟩
  · rw [heq]
    exact h
  · have hv' : Calls v := by
      obtain ⟨hcall, hlevels⟩ := call_handles hv
      intro p hp
      have hp' : w.call = some p := hcall.symm.trans hp
      have hvol : v.levels = w.levels := hlevels (by
        show w.call ≠ none
        rw [hp']
        simp)
      have hsame : v.vol = w.vol := congrArg Prod.fst hvol
      rw [hsame]
      exact h p hp'
    rcases heq with heq | ⟨t, -, heq⟩
    · rw [heq]
      exact hv'
    · rw [heq]
      exact hv'

/-! ### From outside -/

/-- A change of the volume comes while the session is activated, or where a client/state is owed
already, or it is none. -/
def Noted (w : World ι) : Ev ι → Prop
  | .volume v => ∀ i ∈ w.admitted, ∀ s ∈ w.sessions i,
      s.playerActive = true → s.stateSent = true → s.activated = false →
      s.stateOwed = true ∨ v = w.vol
  | _ => True

omit [DecidableEq ι] in
/-- The change is on its way to the server, or noted, or it is none. -/
theorem current_volume (hone : One w) (h : Current w) (v : Level) (hnoted : Noted w (.volume v)) :
    Current (w.volume v) := by
  unfold World.volume
  by_cases hcall : w.call.isSome = true
  · rw [if_pos hcall]
    exact h
  · rw [if_neg hcall]
    have hnone : w.call = none := by simpa using hcall
    intro k u hk
    replace hk : w.sessions k = some u := hk
    have hu := h k u hk
    refine ⟨hu.admitted, fun hrole hsent hclosing => ?_⟩
    have hadm : w.admitted = some k := hone.flag hk (hu.admitted hrole hclosing)
    rcases hu.told hrole hsent hclosing with howed | ⟨hnot, htold⟩
    · exact .inl howed
    · refine .inr ⟨hnot, ?_⟩
      cases hact : u.activated with
      | true =>
        right
        simp only [hadm, hk, bind_some, hact, hrole, hsent]
        rfl
      | false =>
        left
        rcases hnoted k hadm u hk hrole hsent hact with howed | hsame
        · rw [howed] at hnot
          exact absurd hnot (by simp)
        · rcases htold with htold | hcall'
          · rw [htold, hsame]
            rfl
          · rw [hnone] at hcall'
            exact absurd hcall' (by simp)

theorem current_volumeTold (h : Current w) (hcalls : Calls w) : Current w.volumeTold := by
  rcases volumeTold_cases w with ⟨hgone, heq⟩ | ⟨k, v, s, hcall, hk, heq⟩
  · -- there was no call, or its session has gone
    rw [heq]
    intro i u hi
    replace hi : w.sessions i = some u := hi
    have hu := h i u hi
    refine ⟨hu.admitted, fun hrole hsent hclosing => ?_⟩
    rcases hu.told hrole hsent hclosing with howed | ⟨hnot, htold | hcall⟩
    · exact .inl howed
    · exact .inr ⟨hnot, .inl htold⟩
    · rw [hgone i _ hcall] at hi
      exact absurd hi (by simp)
  · rw [heq]
    obtain rfl : v = w.vol := hcalls _ hcall
    intro i u hi
    by_cases hik : i = k
    · subst hik
      replace hi := (World.sessions_set_self ..).symm.trans hi
      obtain rfl := some.inj hi
      exact good_sendStateVol w s (h i s hk).admitted none i
    · replace hi : w.sessions i = some u := (World.sessions_set_ne w hik _).symm.trans hi
      have hu := h i u hi
      refine ⟨hu.admitted, fun hrole hsent hclosing => ?_⟩
      rcases hu.told hrole hsent hclosing with howed | ⟨hnot, htold | hcall'⟩
      · exact .inl howed
      · exact .inr ⟨hnot, .inl htold⟩
      · exact absurd (congrArg Prod.fst (some.inj (hcall.symm.trans hcall'))) (Ne.symm hik)

theorem current_unpaired (h : Current w) (set : Bool) : Current (w.unpaired set) := by
  have hidled : Current (w.idled set) := by
    intro k u hk
    obtain ⟨s, hs, rfl⟩ := map_eq_some_iff.mp hk
    split
    · exact .of_closing rfl
    · exact h k s hs
  rcases unpaired_cases w set with heq | ⟨k, s, -, -, -, -, heq⟩
  · rw [heq]
    exact hidled
  · have hset : Current ((w.idled set).set k
        (Session.goodbye { s with admitted := false } .pairingRequired)) :=
      hidled.set (.of_closing (goodbye_closing ..))
    rw [heq]
    exact hset.congr rfl rfl rfl

theorem current_connect (h : Current w) (K : Keys) (i : ι) (serverId payload : Bytes) :
    Current (w.connect K i serverId payload) := by
  unfold World.connect
  split
  · exact h
  · split
    · exact h
    · next t ht =>
      obtain ⟨spec, cat, rfl⟩ := noiseRespond_same ht
      have hset := h.set (i := i) (t := { serverId := serverId, spec := spec, pskCat := cat })
        (.of_idle fun hrole => absurd hrole (by simp))
      exact hset.congr rfl rfl rfl

theorem current_ends (h : Current w) (k : ι) : Current (w.ends k) := by
  have hgone : ∀ i s, update w.sessions k none i = some s →
      Good w.levels w.call i s := by
    intro i s hi
    by_cases hik : i = k
    · subst hik
      rw [update_self] at hi
      exact absurd hi (by simp)
    · rw [update_of_ne hik] at hi
      exact h i s hi
  unfold World.ends
  by_cases hadm : w.admitted = some k
  · rw [if_pos hadm]
    exact hgone
  · rw [if_neg hadm]
    exact hgone

/-- A round of the time thread. -/
theorem current_timeTold (h : Current w) (i : ι) (due ok : Bool) :
    Current (w.timeTold i due ok) := by
  rcases timeTold_cases w i due ok with heq | ⟨s, hi, heq | ⟨-, heq⟩⟩
  · rw [heq]
    exact h
  · have hkeeps := keeps_sendJson s (o := .time) rfl
    rw [heq]
    exact h.keeps hi { hkeeps with role := hkeeps.role }
  · rw [heq]
    refine h.set (good_sendStateVol w _ ?_ _ i)
    rw [Session.sendJson_eq]
    exact (h i s hi).admitted

/-! ### Whole runs -/

/-- **Each step keeps it**, where a change of the volume is noted. -/
theorem good_step (K : Keys) (hone : One w) (h : Current w) (hcalls : Calls w) (e : Ev ι)
    (hnoted : Noted w e) : Current (w.step K e) ∧ Calls (w.step K e) := by
  cases e with
  | connect i serverId payload =>
    refine ⟨current_connect h K i serverId payload, ?_⟩
    show Calls (w.connect K i serverId payload)
    unfold World.connect
    split
    · exact hcalls
    · split
      · exact hcalls
      · exact hcalls
  | message i g => exact ⟨current_message hone h K i g, calls_message hcalls K i g⟩
  | ends i =>
    refine ⟨current_ends h i, ?_⟩
    show Calls (w.ends i)
    unfold World.ends
    by_cases hadm : w.admitted = some i
    · rw [if_pos hadm]
      exact hcalls
    · rw [if_neg hadm]
      exact hcalls
  | unpaired set =>
    refine ⟨current_unpaired h set, ?_⟩
    show Calls (w.unpaired set)
    -- the call that waits is not touched, whichever it is
    rcases unpaired_cases w set with heq | ⟨k, s, -, -, -, -, heq⟩
    · rw [heq]
      exact hcalls
    · rw [heq]
      exact hcalls
  | volume v =>
    refine ⟨current_volume hone h v hnoted, ?_⟩
    show Calls (w.volume v)
    unfold World.volume
    split
    · exact hcalls
    · -- the volume it tells is the one just set
      intro p hp
      obtain ⟨k, -, hk⟩ := bind_eq_some_iff.mp hp
      obtain ⟨s, -, hs⟩ := bind_eq_some_iff.mp hk
      split at hs
      · rw [← some.inj hs]
      · exact absurd hs (by simp)
  | volumeTold =>
    refine ⟨current_volumeTold h hcalls, ?_⟩
    show Calls w.volumeTold
    rcases volumeTold_cases w with ⟨-, heq⟩ | ⟨k, v, s, -, -, heq⟩
    · rw [heq]
      exact fun p hp => absurd hp (by simp)
    · rw [heq]
      exact fun p hp => absurd hp (by simp)
  | timeGate i =>
    show Current (w.timeGate i) ∧ Calls (w.timeGate i)
    unfold World.timeGate
    split
    · exact ⟨h, hcalls⟩
    · next s hs =>
      split
      · exact ⟨h.keeps hs ⟨rfl, rfl, rfl, id, fun _ => rfl, fun _ => id, rfl⟩, hcalls⟩
      · exact ⟨h, hcalls⟩
  | timeTold i due ok =>
    refine ⟨current_timeTold h i due ok, ?_⟩
    show Calls (w.timeTold i due ok)
    rcases timeTold_cases w i due ok with heq | ⟨s, -, heq | ⟨-, heq⟩⟩
    · rw [heq]
      exact hcalls
    · rw [heq]
      exact hcalls
    · rw [heq]
      exact hcalls
  | clock synced => exact ⟨h.congr rfl rfl rfl, hcalls⟩
  | played => exact ⟨h.congr rfl rfl rfl, hcalls⟩

/-- The Sentinel key and its id; the ids of other keys do not occur below. -/
def sentinelKeys : Keys where
  sentinelPsk := ⟨[27, 94, 36, 219, 193, 174, 217, 95, 194, 165, 163, 56, 169, 12, 5, 223, 68, 189,
    16, 245, 236, 31, 76, 214, 108, 191, 134, 39, 39, 103, 185, 211], rfl⟩
  pairingPsk := .zero 32
  pskId := fun psk =>
    if psk.1.head? = some 27 then txt "GFsV9tLaSQm9HcFWpKsgYQOr7wFTvNUtkmFwuVz3zoo"
    else psk.1

/-- A server asks for new keys, and stays with the Sentinel. -/
def Got.handshake : Got :=
  { Got.json "\x7b\"type\":\"noise/handshake\",\"payload\":\x7b\"data\":\"AAAA\"\x7d\x7d" with
    msg1 := some (txt "\x7b\"psk_id\":\"GFsV9tLaSQm9HcFWpKsgYQOr7wFTvNUtkmFwuVz3zoo\"\x7d") }

/-- A server plays and is told of the volume; then it asks for new keys. -/
def rekeyed : List (Ev ℕ) :=
  [.connect 0 (txt "a") (txt "\x7b\x7d"), .message 0 .activatePlayer, .timeGate 0,
    .timeTold 0 true true, .message 0 .handshake]

/-- A button is pressed between the handshake and the server/activate, or after it. -/
def pressed : List (Ev ℕ) := [.volume 60, .volumeTold, .message 0 .activatePlayer]

def pressedLater : List (Ev ℕ) := [.message 0 .activatePlayer, .volume 60, .volumeTold]

/-- What is looked at of a session in what follows. -/
def Session.shown (s : Session) : Bool × Bool × Bool × Bool × Option Told :=
  (s.playerActive, s.stateSent, s.quiet, s.closing, lastTold s.out)

end Hassmic.Sendspin
