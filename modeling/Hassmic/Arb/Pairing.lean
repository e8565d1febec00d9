import Hassmic.Lib.Runs
import Hassmic.Arb.Frame

/-!
# Pairing

A member hands its key to the one Echo outside its network that asked around its
press.  It knows who asked from a table of pair requests that anyone can write to:
a request is noted in the entry of its public key, or in place of the oldest one.
As long as no request is noted over that of another Echo that still counts, nor
makes one that asked from outside pass for a member, the key goes to the only one
that asked.

## Main definitions

* `Ask`, `askOf` — a pair request.
* `Keeps` — a request is noted over none that counts.
* `OnlyAsker` — the only Echo outside the network that asked in the window.

## Main results

* `pairing_gives_one` — every key handed over goes to the only Echo that asked.
* `pairing_gives_second` — an Echo is made to pass for a member, and another is given
  the key.
-/

namespace Hassmic.Arb

open Wire List Function

/-! ### What the rest of a turn leaves alone -/

/-- What pairing is about. -/
def St.aside (s : St) :=
  (s.preqs, s.pairAt, s.pairUntil, s.giveLeft, s.givePkt, fun i => (s.cands i).attested)

namespace St

variable (C : Crypto) (e : Turn) (s : St)

theorem aside_foldl {α : Type*} {f : St → α → St} (hf : ∀ t a, (f t a).aside = t.aside) (l : List α)
    (s : St) : (l.foldl f s).aside = s.aside := by
  induction l generalizing s with
  | nil => rfl
  | cons a l ih => rw [foldl_cons, ih, hf]

theorem aside_nextCtr : s.nextCtr.aside = s.aside := by
  unfold nextCtr
  simp only
  split <;> rfl

theorem aside_beacon (answer : Bool) (now : ℤ) : (s.beacon C answer now).aside = s.aside := by
  unfold beacon
  split
  · exact s.aside_nextCtr
  · rfl

theorem aside_rivalsTake (cutoff : ℤ) : (s.rivalsTake cutoff).aside = s.aside := by
  have hrival : ∀ (t : St) (id : Blob 8), (t.rival id).2.aside = t.aside := by
    intro t id
    unfold rival
    split <;> rfl
  have htake : ∀ (t : St) (w : Want), (s.takeRival cutoff t w).aside = t.aside :=
    fun t w => hrival t w.id
  exact aside_foldl htake s.round.want s

theorem aside_setCand (i : Fin nPeer) (c : Cand) (h : c.attested = (s.cands i).attested) :
    (s.setCand i c).aside = s.aside := by
  have hatt : (fun j => (update s.cands i c j).attested)
      = fun j => (s.cands j).attested := by
    funext j
    by_cases hj : j = i
    · rw [hj, update_self, h]
    · rw [update_of_ne hj]
  unfold aside setCand
  simp only [hatt]

theorem aside_push (i : Fin nPeer) (now : ℤ) (nonce : Blob 24) :
    (s.push C i now nonce).aside = s.aside := by
  unfold push
  simp only
  split
  · rfl
  split
  · split
    · rfl
    split
    · rfl
    · exact s.aside_setCand i { s.cands i with gave := now } rfl
  split
  · rfl
  split
  · rfl
  · exact s.aside_setCand i { s.cands i with pushed := now } rfl

theorem aside_pollOne (i : Fin nPeer) (now : ℤ) : (s.pollOne i now).aside = s.aside := by
  have hpoll : ∀ (t : St) (pub : Blob 32), (t.pollTag pub).aside = t.aside := by
    intro t pub
    unfold pollTag
    split <;> rfl
  unfold pollOne
  simp only
  split
  · rw [hpoll]
    exact s.aside_setCand i { s.cands i with polled := now } rfl
  · rfl

theorem aside_kioskSync (now : ℤ) : (s.kioskSync e now).aside = s.aside := by
  unfold kioskSync
  simp only
  split
  · rfl
  split
  · rfl
  split <;> rfl

theorem aside_kioskCopy (now : ℤ) : (s.kioskCopy now).aside = s.aside := by
  have hsend : s.kioskSend.aside = s.aside := by
    unfold kioskSend
    split <;> rfl
  unfold kioskCopy
  split
  · exact hsend
  · rfl

theorem aside_sendCopy (i : Fin 2) (now : ℤ) : (s.sendCopy i now).aside = s.aside := by
  unfold sendCopy
  simp only
  split <;> rfl

theorem aside_endRound (now : ℤ) : (s.endRound now).aside = s.aside := by
  unfold endRound
  split
  · exact aside_rivalsTake _ _
  · rfl

theorem aside_takeDirty (now : ℤ) : (s.takeDirty now).aside = s.aside := by
  unfold takeDirty
  simp only
  split
  · split <;> rfl
  · rfl

theorem aside_saveRounds (now : ℤ) : (s.saveRounds now).aside = s.aside := by
  unfold saveRounds
  split <;> rfl

theorem aside_tickOwn (now : ℤ) : (s.tickOwn e now).aside = s.aside := by
  unfold tickOwn
  simp only
  rw [aside_saveRounds, aside_takeDirty, aside_endRound, aside_sendCopy, aside_sendCopy,
    aside_kioskCopy, aside_kioskSync]

theorem aside_beaconDue (now : ℤ) : (s.beaconDue C e now).aside = s.aside := by
  unfold beaconDue
  split
  · rfl
  · exact aside_beacon C _ false now

theorem aside_scanTag (now : ℤ) : (s.scanTag now).aside = s.aside := by
  unfold scanTag
  simp only
  split
  · rfl
  · split <;> split <;> rfl

theorem aside_pushAll (now : ℤ) : (s.pushAll C e now).aside = s.aside := by
  refine aside_foldl (fun t i => ?_) _ s
  split
  · exact t.aside_push C i now _
  · rfl

theorem aside_tickNet (now : ℤ) : (s.tickNet C e now).aside = s.aside := by
  unfold tickNet pollAll
  simp only
  rw [aside_foldl (fun t i => t.aside_pollOne i now), aside_scanTag, aside_beaconDue, aside_pushAll]

theorem aside_reportPeers (now : ℤ) : (s.reportPeers now).aside = s.aside := by
  unfold reportPeers
  simp only
  split <;> rfl

theorem aside_callHooks (now : ℤ) : (s.callHooks e now).aside = s.aside := by
  have hask : ∀ (t : St) (p : Bytes), (t.askTag e now p).aside = t.aside := by
    intro t p
    unfold askTag
    simp only
    split
    · rfl
    split <;> rfl
  exact aside_foldl (fun t p => hask t p) s.polls _

end St

/-! ### Requests -/

/-- A pair request of another Echo. -/
structure Ask where
  pub : Blob 32
  net : UInt64
  at_ : ℤ

/-- The pair request in a packet, unless it is ours. -/
def askOf (pk : Blob 32) : Ev → Option Ask
  | .packet p now _ _ => do
      let r ← readHead p
      let b ← readBeacon r.2
      if r.1 = tPair ∧ b.1.pub ≠ pk then some ⟨b.1.pub, b.1.net, now.1⟩ else none
  | _ => none

/-- The pair requests of a run. -/
def asks (pk : Blob 32) (l : List Ev) : List Ask := l.filterMap (askOf pk)

/-- What happens while Echos are paired: requests, presses and turns of the loop. -/
def OfPairing : Ev → Prop
  | .packet p _ _ _ => ∃ l, readHead p = some (tPair, l)
  | .pair _ => True
  | .tick _ => True
  | _ => False

/-- The time of what happens while Echos are paired. -/
def timeOf : Ev → ℤ
  | .packet _ now _ _ => now.1
  | .pair now => now.1
  | .tick e => e.now.1
  | _ => 0

/-- In no network, or in another. -/
def Outside (own net : UInt64) : Prop := net = 0 ∨ net ≠ own

instance (own net : UInt64) : Decidable (Outside own net) := inferInstanceAs (Decidable (_ ∨ _))

/-- Requests since then count: a window before our press, or before one that may come. -/
def St.floor (s : St) (now : ℤ) : ℤ :=
  if s.pairUntil ≠ 0 then s.pairAt - s.pairMs else now - s.pairMs

/-- **A request is noted over none that counts**: the entry it is noted in is free, or too
old, or of a member, or of the same Echo, which is still outside our network. -/
def St.Keeps (s : St) (a : Ask) : Prop :=
  let o := s.preqs (s.preqSlot a.pub)
  o.seen ≠ 0 → Outside s.netId o.net → s.floor a.at_ ≤ o.seen →
    o.pub = a.pub ∧ Outside s.netId a.net

/-- Every request of a run is noted over none that counts. -/
def KeepsAll (C : Crypto) : St → List Ev → Prop :=
  Runs.Each (St.step C) fun s ev => ∀ a, askOf s.pk ev = some a → s.Keeps a

theorem step_pair (C : Crypto) (s : St) {p l : Bytes} (hp : readHead p = some (tPair, l))
    (now : Instant) (ip : UInt32) (nonce : Blob 24) :
    (askOf s.pk (.packet p now ip nonce) = none ∧ s.step C (.packet p now ip nonce) = s) ∨
    ∃ a nd, askOf s.pk (.packet p now ip nonce) = some a ∧ a.at_ = now.1 ∧
      s.step C (.packet p now ip nonce) =
        { s with preqs := update s.preqs (s.preqSlot a.pub) ⟨a.pub, nd, a.net, a.at_⟩ } := by
  have hstep : s.step C (.packet p now ip nonce) = s.onPair l now.1 := by
    show s.onPacket C p now.1 ip nonce = _
    rw [St.onPacket, hp]
    rfl
  have hask : askOf s.pk (.packet p now ip nonce) = (readBeacon l).bind fun b =>
      if b.1.pub ≠ s.pk then some ⟨b.1.pub, b.1.net, now.1⟩ else none := by
    simp only [askOf, hp, Option.bind_eq_bind, Option.bind_some, true_and]
  rw [hstep, hask, St.onPair]
  cases readBeacon l with
  | none => exact .inl ⟨rfl, rfl⟩
  | some b =>
    obtain ⟨b, r⟩ := b
    simp only [Option.bind_some]
    by_cases hpub : b.pub = s.pk
    · left
      rw [if_pos hpub, if_neg (not_not.mpr hpub)]
      exact ⟨rfl, rfl⟩
    · right
      rw [if_neg hpub, if_pos hpub]
      exact ⟨⟨b.pub, b.net, now.1⟩, b.nd, rfl, rfl, rfl⟩

/-! ### A turn of the loop -/

/-- No Echo is attested by Home Assistant. -/
def St.Unattested (s : St) : Prop := ∀ i, (s.cands i).attested = false

namespace St

variable (C : Crypto) (e : Turn) (s : St) {K : Set Kind}

theorem of_aside {s t : St} (h : t.aside = s.aside) : t.preqs = s.preqs ∧ t.pairAt = s.pairAt ∧
    t.pairUntil = s.pairUntil ∧ t.giveLeft = s.giveLeft ∧ t.givePkt = s.givePkt := by
  simp only [aside, Prod.mk.injEq] at h
  exact ⟨h.1, h.2.1, h.2.2.1, h.2.2.2.1, h.2.2.2.2.1⟩

theorem unattested_aside {s t : St} (h : t.aside = s.aside) (hs : s.Unattested) : t.Unattested := by
  intro i
  have := congrFun (congrArg (·.2.2.2.2.2) h) i
  exact this.trans (hs i)

theorem frame_push_unattested (hs : s.Unattested) (i : Fin nPeer) (now : ℤ) (nonce : Blob 24) :
    Frame C K s (s.push C i now nonce) := by
  unfold push
  refine .ite (fun _ => .refl s) fun _ => .ite (fun h => absurd h (by simp [hs i])) fun _ =>
    .ite (fun _ => .refl s) fun _ => ?_
  split
  · exact .refl s
  · exact .of_surface rfl

theorem frame_pushAll_unattested (hs : s.Unattested) (now : ℤ) :
    Frame C K s (s.pushAll C e now) := by
  have hfold : ∀ (l : List (Fin nPeer)) (t : St), t.Unattested → Frame C K t (l.foldl
      (fun (t : St) i =>
        if ago (t.cands i).seen now t.peerTtlMs then t.push C i now (e.nonce i) else t) t) := by
    intro l
    induction l with
    | nil => exact fun t _ => .refl t
    | cons i l ih =>
      intro t ht
      rw [foldl_cons]
      split
      · exact (t.frame_push_unattested C ht i now _).trans
          (ih _ (unattested_aside (t.aside_push C i now _) ht))
      · exact ih t ht
  exact hfold _ s hs

/-- Before its pairing, a turn sends a beacon at most. -/
theorem frame_tickFirst (hnet : s.inNet = true) (hs : s.Unattested) (now : ℤ) :
    Frame C {Kind.beacon} s ((s.tickOwn e now).tickNet C e now) := by
  have h₁ := s.frame_tickOwn C e (K := {Kind.beacon}) now
  have h₂ := h₁.trans (frame_pushAll_unattested C e _
    (unattested_aside (s.aside_tickOwn e now) hs) now)
  have h₃ := h₂.trans (frame_beaconDue C e _ now (h₂.inNet.trans hnet) rfl)
  exact (h₃.trans (frame_scanTag C _ now)).trans (frame_pollAll C _ now)

/-- What pairing changes: the gesture may end, and a key may be laid out for an Echo. -/
structure Pairs (s t : St) : Prop where
  preqs : t.preqs = s.preqs
  pairAt : t.pairAt = s.pairAt
  cands : t.cands = s.cands
  until_ : t.pairUntil = s.pairUntil ∨ t.pairUntil = 0
  give : (t.giveLeft = s.giveLeft ∧ t.givePkt = s.givePkt) ∨
    s.pairUntil ≠ 0 ∧ s.olderAsks = false ∧
      ∃ i, s.askers = [i] ∧ t.givePkt.to_ = (s.preqs i).pub ∧ t.givePkt.net = s.netId

theorem pairs_handOver (hpair : s.pairUntil ≠ 0) : Pairs s (s.handOver C e) := by
  unfold handOver
  split
  · exact ⟨rfl, rfl, rfl, .inl rfl, .inl ⟨rfl, rfl⟩⟩
  next holder =>
  split
  · exact ⟨rfl, rfl, rfl, .inl rfl, .inl ⟨rfl, rfl⟩⟩
  · next i hi =>
    split
    · exact ⟨rfl, rfl, rfl, .inl rfl, .inl ⟨rfl, rfl⟩⟩
    · exact ⟨rfl, rfl, rfl, .inl rfl, .inr ⟨hpair, by simpa using holder, i, hi, rfl, rfl⟩⟩
  · exact ⟨rfl, rfl, rfl, .inr rfl, .inl ⟨rfl, rfl⟩⟩

/-- Our own request changes nothing that `handOver` reads. -/
theorem pairs_askPair {t : St} (now : ℤ) (h : Pairs (s.askPair now) t) : Pairs s t := by
  unfold askPair at h
  split at h
  · exact h
  · exact ⟨h.preqs, h.pairAt, h.cands, h.until_, h.give⟩

theorem pairs_pairing (now : ℤ) : Pairs s (s.pairing C e now) := by
  have hrefl : ∀ t : St, Pairs t t := fun t => ⟨rfl, rfl, rfl, .inl rfl, .inl ⟨rfl, rfl⟩⟩
  by_cases hend : s.pairUntil ≠ 0 ∧ s.pairUntil ≤ now
  · have hover : s.pairing C e now = s.endPairing now := by
      unfold pairing endPairing
      rw [if_pos hend]
      rfl
    rw [hover, endPairing, if_pos hend]
    exact ⟨rfl, rfl, rfl, .inr rfl, .inl ⟨rfl, rfl⟩⟩
  · have hsame : s.endPairing now = s := if_neg hend
    unfold pairing
    rw [hsame]
    simp only
    split
    · exact hrefl s
    next hpair =>
    refine s.pairs_askPair now ?_
    split
    · refine pairs_handOver C e _ ?_
      unfold askPair
      split <;> exact hpair
    · exact hrefl _

/-- What `sendGive` sends, and what it leaves for the next turns. -/
theorem sendGive_spec (now : ℤ) :
    (s.sendGive now).preqs = s.preqs ∧ (s.sendGive now).pairAt = s.pairAt ∧
    (s.sendGive now).cands = s.cands ∧
    ((s.sendGive now).pairUntil = s.pairUntil ∨ (s.sendGive now).pairUntil = 0) ∧
    ((s.sendGive now).giveLeft ≠ 0 → s.giveLeft ≠ 0 ∧ (s.sendGive now).givePkt = s.givePkt) ∧
    ((s.sendGive now).out = s.out ∨
      s.giveLeft ≠ 0 ∧ (s.sendGive now).out = s.out ++ [.sent (giveBytes s.givePkt)]) := by
  unfold sendGive
  split
  · next h =>
    simp only
    split
    · next hleft => exact ⟨rfl, rfl, rfl, .inr rfl, fun hne => absurd hleft hne, .inr ⟨h.1, rfl⟩⟩
    · exact ⟨rfl, rfl, rfl, .inl rfl, fun _ => ⟨h.1, rfl⟩, .inr ⟨h.1, rfl⟩⟩
  · exact ⟨rfl, rfl, rfl, .inl rfl, fun h => ⟨h, rfl⟩, .inl rfl⟩

end St

/-! ### Who asked -/

/-- The Echo `pub` asked from outside the network `own` since `w`. -/
def AskedSince (pk : Blob 32) (own : UInt64) (l : List Ev) (w : ℤ) (pub : Blob 32) : Prop :=
  ∃ a ∈ asks pk l, a.pub = pub ∧ Outside own a.net ∧ w ≤ a.at_

/-- **The only Echo outside the network that asked** from a window before our press until
the end of the run `l`. -/
def OnlyAsker (C : Crypto) (s : St) (l : List Ev) (to_ : Blob 32) : Prop :=
  (s.run C l).pairUntil ≠ 0 ∧
    ∀ pub, AskedSince s.pk s.netId l ((s.run C l).pairAt - s.pairMs) pub ↔ pub = to_

/-- A turn of the run found the Echo to be given the key of our network. -/
def Decided (C : Crypto) (s : St) (l : List Ev) (g : GivePkt) : Prop :=
  ∃ p e q, l = p ++ .tick e :: q ∧ g.net = s.netId ∧ OnlyAsker C s p g.to_

theorem Decided.append {C : Crypto} {s : St} {l : List Ev} {g : GivePkt} (h : Decided C s l g)
    (ev : Ev) : Decided C s (l ++ [ev]) g := by
  obtain ⟨p, e, q, rfl, hnet, honly⟩ := h
  exact ⟨p, e, q ++ [ev], by simp, hnet, honly⟩

/-- **What a run of requests, presses and turns keeps**, at the time `now`. -/
structure Tracks (C : Crypto) (s : St) (l : List Ev) (t : St) (now : ℤ) : Prop where
  core : t.core = s.core
  unattested : t.Unattested
  pressed : t.pairUntil ≠ 0 → t.pairAt ≤ now
  past : ∀ a ∈ asks s.pk l, a.at_ ≤ now
  noted : ∀ j, (t.preqs j).seen ≠ 0 → ∃ a ∈ asks s.pk l,
    a.pub = (t.preqs j).pub ∧ a.net = (t.preqs j).net ∧ a.at_ = (t.preqs j).seen
  kept : ∀ a ∈ asks s.pk l, Outside s.netId a.net → t.floor now ≤ a.at_ →
    ∃ j, (t.preqs j).seen ≠ 0 ∧ (t.preqs j).pub = a.pub ∧ Outside s.netId (t.preqs j).net ∧
      a.at_ ≤ (t.preqs j).seen
  giving : t.giveLeft ≠ 0 → Decided C s l t.givePkt
  sent : ∃ m, t.out = s.out ++ m ∧ ∀ g, Out.sent (giveBytes g) ∈ m → Decided C s l g

theorem pairMs_of_core {s t : St} (h : t.core = s.core) : t.pairMs = s.pairMs := by
  have hpace : t.pace = s.pace := congrArg Core.pace h
  rw [St.pairMs, St.paced, hpace]
  rfl

theorem St.floor_mono (s : St) {now now' : ℤ} (h : now ≤ now') : s.floor now ≤ s.floor now' := by
  unfold St.floor
  split <;> omega

section Steps

variable {C : Crypto} {s t : St} {l : List Ev} {now : ℤ}

theorem Tracks.later (h : Tracks C s l t now) {now' : ℤ} (hle : now ≤ now') :
    Tracks C s l t now' :=
  { h with
    pressed := fun hp => (h.pressed hp).trans hle
    past := fun a ha => (h.past a ha).trans hle
    kept := fun a ha hout hfloor => h.kept a ha hout ((t.floor_mono hle).trans hfloor) }

theorem asks_append_none (l : List Ev) {pk : Blob 32} {ev : Ev} (h : askOf pk ev = none) :
    asks pk (l ++ [ev]) = asks pk l := by
  simp [asks, h]

theorem asks_append_some (l : List Ev) {pk : Blob 32} {ev : Ev} {a : Ask}
    (h : askOf pk ev = some a) :
    asks pk (l ++ [ev]) = asks pk l ++ [a] := by
  simp [asks, h]

/-- An event that asks for nothing. -/
theorem Tracks.aside (h : Tracks C s l t now) {e : Ev} (hasks : asks s.pk (l ++ [e]) = asks s.pk l)
    (hsent : ∃ m, t.out = s.out ++ m ∧
      ∀ g, Out.sent (giveBytes g) ∈ m → Decided C s (l ++ [e]) g) : Tracks C s (l ++ [e]) t now :=
  { h with
    past := hasks ▸ h.past
    noted := hasks ▸ h.noted
    kept := hasks ▸ h.kept
    giving := fun hg => (h.giving hg).append _
    sent := hsent }

/-- A request. -/
theorem tracks_packet (h : Tracks C s l t now) {p r : Bytes} (hp : readHead p = some (tPair, r))
    {at_ : Instant} (hat : at_.1 = now) (ip : UInt32) (nonce : Blob 24)
    (hkeeps : ∀ a, askOf t.pk (.packet p at_ ip nonce) = some a → t.Keeps a) :
    Tracks C s (l ++ [.packet p at_ ip nonce]) (t.step C (.packet p at_ ip nonce)) now := by
  have hpk : t.pk = s.pk := congrArg Core.pk h.core
  have hnet : t.netId = s.netId := congrArg Core.netId h.core
  obtain ⟨m, hout, hm⟩ := h.sent
  rcases step_pair C t hp at_ ip nonce with ⟨hnone, hstep⟩ | ⟨a, nd, hsome, hata, hstep⟩
  · -- our own, or none at all
    have hasks := asks_append_none l (hpk ▸ hnone)
    rw [hstep]
    exact h.aside hasks ⟨m, hout, fun g hg => (hm g hg).append _⟩
  have hasks := asks_append_some l (hpk ▸ hsome)
  have hkeep := hkeeps a hsome
  have hnow : a.at_ = now := hata.trans hat
  have hpos : a.at_ ≠ 0 := by
    have := at_.2
    omega
  rw [hstep]
  -- the request has its entry, with the time it came
  refine ⟨h.core, h.unattested, h.pressed, fun b hb => ?_, fun j hj =>
    ?_, fun b hb hout' hfloor => ?_, fun hg => (h.giving hg).append _, m, hout,
      fun g hg => (hm g hg).append _⟩
  · rw [hasks] at hb
    rcases mem_append.mp hb with hb | hb
    · exact h.past b hb
    · rw [mem_singleton.mp hb, hnow]
  · rw [hasks]
    by_cases hslot : j = t.preqSlot a.pub
    · refine ⟨a, by simp, ?_⟩
      simp only [hslot, update_self, and_self]
    · simp only [update_of_ne hslot] at hj ⊢
      obtain ⟨b, hb, heq⟩ := h.noted j hj
      exact ⟨b, mem_append_left _ hb, heq⟩
  · rw [hasks] at hb
    rcases mem_append.mp hb with hb | hb
    · obtain ⟨j, hseen, hpub, hnetj, hle⟩ := h.kept b hb hout' hfloor
      by_cases hslot : j = t.preqSlot a.pub
      · -- the entry is written over: by the same Echo, still from outside
        subst hslot
        have hcounts : t.floor a.at_ ≤ (t.preqs (t.preqSlot a.pub)).seen := by
          rw [hnow]
          exact hfloor.trans hle
        obtain ⟨hsame, hstill⟩ := hkeep hseen (hnet ▸ hnetj) hcounts
        refine ⟨t.preqSlot a.pub, ?_⟩
        simp only [update_self]
        refine ⟨hpos, hsame.symm.trans hpub, hnet ▸ hstill, ?_⟩
        rw [hnow]
        exact h.past b hb
      · refine ⟨j, ?_⟩
        simp only [update_of_ne hslot]
        exact ⟨hseen, hpub, hnetj, hle⟩
    · rw [mem_singleton.mp hb] at hout' ⊢
      refine ⟨t.preqSlot a.pub, ?_⟩
      simp only [update_self]
      exact ⟨hpos, trivial, hout', le_rfl⟩

/-- A press. -/
theorem tracks_pair (h : Tracks C s l t now) {at_ : Instant} (hat : at_.1 = now) :
    Tracks C s (l ++ [.pair at_]) (t.step C (.pair at_)) now := by
  have hasks : asks s.pk (l ++ [.pair at_]) = asks s.pk l := asks_append_none l rfl
  obtain ⟨m, hout, hm⟩ := h.sent
  have hsent : ∃ m, t.out = s.out ++ m ∧
      ∀ g, Out.sent (giveBytes g) ∈ m → Decided C s (l ++ [.pair at_]) g :=
    ⟨m, hout, fun g hg => (hm g hg).append _⟩
  show Tracks C s _ (t.arbPair at_.1) now
  unfold St.arbPair
  split
  · exact h.aside hasks hsent
  · refine ⟨h.core, h.unattested, fun _ => hat.le, by rw [hasks]; exact h.past,
      by rw [hasks]; exact h.noted, ?_, fun hg => (h.giving hg).append _, hsent⟩
    rw [hasks]
    intro a ha hout' hfloor
    refine h.kept a ha hout' (le_trans ?_ hfloor)
    -- the new window starts no earlier than what counted
    have hpast := h.pressed
    unfold St.floor
    show _ ≤ if at_.1 + t.pairMs ≠ 0 then at_.1 - t.pairMs else now - t.pairMs
    split <;> split <;> omega

/-- The Echo that a turn finds to be given the key. -/
theorem onlyAsker_of_askers (h : Tracks C s l (s.run C l) now) {u : St}
    (haside : u.aside = (s.run C l).aside) (hcore : u.core = (s.run C l).core)
    (hpair : u.pairUntil ≠ 0) (holder : u.olderAsks = false) {i : Fin nPeer} (hi : u.askers = [i]) :
    OnlyAsker C s l (u.preqs i).pub := by
  obtain ⟨hpreqs, hat, huntil, -⟩ := St.of_aside haside
  have hnet : u.netId = s.netId := congrArg Core.netId (hcore.trans h.core)
  have hms : u.pairMs = s.pairMs := pairMs_of_core (hcore.trans h.core)
  have hpair' : (s.run C l).pairUntil ≠ 0 := huntil ▸ hpair
  have hasked : ∀ j, u.asked j = true ↔ ((s.run C l).preqs j).seen ≠ 0 ∧
      (s.run C l).pairAt - s.pairMs ≤ ((s.run C l).preqs j).seen := by
    intro j
    simp only [St.asked, hpreqs, hat, hms, Bool.and_eq_true, bne_iff_ne, decide_eq_true_eq]
  refine ⟨hpair', fun pub => ⟨?_, ?_⟩⟩
  · -- whoever asked is in the table, and counts
    rintro ⟨a, ha, rfl, hout, hwin⟩
    have hfloor : (s.run C l).floor now ≤ a.at_ := by
      rw [St.floor, if_pos hpair', pairMs_of_core h.core]
      exact hwin
    obtain ⟨j, hseen, hpub, hnetj, hle⟩ := h.kept a ha hout hfloor
    have hj : u.asked j = true := (hasked j).mpr ⟨hseen, hwin.trans hle⟩
    have hyoung : (u.preqs j).net = 0 ∨ s.netId < (u.preqs j).net := by
      by_contra hno
      rw [not_or, UInt64.not_lt] at hno
      have hne : (u.preqs j).net ≠ s.netId := by
        rw [hpreqs] at hno ⊢
        exact hnetj.resolve_left hno.1
      have hlt : (u.preqs j).net < s.netId := UInt64.lt_of_le_of_ne hno.2 hne
      have : u.olderAsks = true := by
        rw [St.olderAsks, any_eq_true]
        exact ⟨j, mem_finRange j, by simp [hj, hno.1, hnet, hlt]⟩
      rw [holder] at this
      exact absurd this (by simp)
    have hmem : j ∈ u.askers := by
      rw [St.askers, mem_filter]
      exact ⟨mem_finRange j, by simpa [hj, hnet] using hyoung⟩
    rw [hi, mem_singleton] at hmem
    rw [← hmem, hpreqs]
    exact hpub.symm
  · -- the one in the table did ask
    rintro rfl
    have hmem : i ∈ u.askers := by rw [hi]; exact mem_singleton_self i
    rw [St.askers, mem_filter, Bool.and_eq_true, hasked, Bool.or_eq_true, beq_iff_eq,
      decide_eq_true_eq, hnet] at hmem
    obtain ⟨-, ⟨hseen, hwin⟩, hyoung⟩ := hmem
    obtain ⟨a, ha, hpub, hneta, hata⟩ := h.noted i hseen
    rw [← hpreqs] at hpub hneta hata hwin
    refine ⟨a, ha, hpub, ?_, by rw [hata]; exact hwin⟩
    rw [hneta]
    rcases hyoung with hzero | hlt
    · exact .inl hzero
    · exact .inr (UInt64.ne_of_lt hlt).symm

/-- No packet of another kind is a sealed key. -/
theorem not_give_of_adds {c : Core} {K : Set Kind} (hK : Kind.give ∉ K) {g : GivePkt} :
    ¬ Adds C c K (.sent (giveBytes g)) := by
  intro h
  cases h with
  | @sent k _ hk h =>
    have htype := h.typed.inj (typed_giveBytes g)
    cases k with
    | give => exact hK hk
    | _ => exact absurd htype (by decide)

/-- The parts of a turn of a member: what comes first, pairing, and what it sends. -/
theorem tick_parts (C : Crypto) (e : Turn) {t : St} (hnet : t.inNet = true) (hatt : t.Unattested) :
    ∃ u v w : St, u.aside = t.aside ∧ Frame C {Kind.beacon} t u ∧ v = u.pairing C e e.now.1 ∧
      w = v.sendGive e.now.1 ∧ (t.tick C e).aside = w.aside ∧ Frame C ∅ w (t.tick C e) := by
  have hown := t.frame_tickOwn C e (K := ∅) e.now.1
  have hfound := St.found_eq C e (t.tickOwn e e.now.1) e.now.1 (hown.inNet.trans hnet)
  refine ⟨(t.tickOwn e e.now.1).tickNet C e e.now.1, _, _, ?_, t.frame_tickFirst C e hnet hatt _,
    rfl, rfl, ?_, ?_⟩
  · rw [St.aside_tickNet, St.aside_tickOwn]
  · unfold St.tick
    simp only
    rw [hfound, St.aside_callHooks, St.aside_reportPeers]
  · unfold St.tick
    simp only
    rw [hfound]
    exact (St.frame_reportPeers C _ _).trans (St.frame_callHooks C e _ _)

/-- A turn of the loop. -/
theorem tracks_tick (hnet : s.inNet = true) (h : Tracks C s l (s.run C l) now) (e : Turn) :
    Tracks C s (l ++ [.tick e]) ((s.run C l).step C (.tick e)) now := by
  have hin : (s.run C l).inNet = true := (congrArg Core.inNet h.core).trans hnet
  obtain ⟨u, v, w, haside, hfirst, rfl, rfl, hlast, hend⟩ := tick_parts C e hin h.unattested
  have hasks : asks s.pk (l ++ [.tick e]) = asks s.pk l := asks_append_none l rfl
  have hpairs := u.pairs_pairing C e e.now.1
  have hframe := u.frame_pairing C e (K := {Kind.pair}) e.now.1 rfl
  obtain ⟨hpreqs, hpairAt, hcands, huntil, hleft, hgive⟩ :=
    (u.pairing C e e.now.1).sendGive_spec e.now.1
  have hgiveFrame := (u.pairing C e e.now.1).frame_sendGive C (K := {Kind.give}) e.now.1 rfl
  obtain ⟨hpreqs₀, hpairAt₀, huntil₀, hleft₀, hpkt₀⟩ := St.of_aside haside
  obtain ⟨hpreqs₁, hpairAt₁, huntil₁, hleft₁, hpkt₁⟩ := St.of_aside hlast
  show Tracks C s _ ((s.run C l).tick C e) now
  -- the tables are the ones before
  have hpreqs' : ((s.run C l).tick C e).preqs = (s.run C l).preqs := by
    rw [hpreqs₁, hpreqs, hpairs.preqs, hpreqs₀]
  have hpairAt' : ((s.run C l).tick C e).pairAt = (s.run C l).pairAt := by
    rw [hpairAt₁, hpairAt, hpairs.pairAt, hpairAt₀]
  have huntil' : ((s.run C l).tick C e).pairUntil = (s.run C l).pairUntil ∨
      ((s.run C l).tick C e).pairUntil = 0 := by
    rw [huntil₁, ← huntil₀]
    rcases huntil with huntil | huntil
    · rw [huntil]
      exact hpairs.until_
    · exact .inr huntil
  have hcore : ((s.run C l).tick C e).core = (s.run C l).core :=
    hend.core.trans (hgiveFrame.core.trans (hframe.core.trans hfirst.core))
  have hatt : ((s.run C l).tick C e).Unattested := by
    refine St.unattested_aside hlast fun i => ?_
    rw [hcands, hpairs.cands]
    exact St.unattested_aside haside h.unattested i
  -- a key that is laid out was decided on, now or before
  have hdecided : (u.pairing C e e.now.1).giveLeft ≠ 0 →
      Decided C s (l ++ [.tick e]) (u.pairing C e e.now.1).givePkt := by
    intro hne
    rcases hpairs.give with ⟨hsame, hpkt⟩ | ⟨hpair, holder, i, hi, hto, hnet'⟩
    · rw [hsame, hleft₀] at hne
      rw [hpkt, hpkt₀]
      exact (h.giving hne).append _
    · refine ⟨l, e, [], rfl, hnet'.trans ?_, ?_⟩
      · exact congrArg Core.netId (hfirst.core.trans h.core)
      · rw [hto]
        exact onlyAsker_of_askers h haside hfirst.core hpair holder hi
  refine ⟨hcore.trans h.core, hatt, fun hp => ?_, by rw [hasks]; exact h.past, ?_, ?_,
    fun hg => ?_, ?_⟩
  · rw [hpairAt']
    exact h.pressed (huntil'.resolve_right hp ▸ hp)
  · rw [hasks, hpreqs']
    exact h.noted
  · rw [hasks, hpreqs']
    intro a ha hout hfloor
    refine h.kept a ha hout (le_trans ?_ hfloor)
    have hpast := h.pressed
    unfold St.floor
    rw [hpairAt', pairMs_of_core hcore]
    rcases huntil' with heq | heq
    · rw [heq]
    · rw [heq, if_neg (show ¬ (0 : ℤ) ≠ 0 by simp)]
      split
      · next hp =>
        have := hpast hp
        omega
      · exact le_rfl
  · rw [hleft₁] at hg
    rw [hpkt₁]
    obtain ⟨hne, hpkt⟩ := hleft hg
    rw [hpkt]
    exact hdecided hne
  · -- what went out
    obtain ⟨m, hm, hdec⟩ := h.sent
    obtain ⟨m₁, hm₁, hq₁⟩ := hfirst.out
    obtain ⟨m₂, hm₂, hq₂⟩ := hframe.out
    obtain ⟨m₃, hm₃, hq₃⟩ := hend.out
    have hnone : ∀ g, Out.sent (giveBytes g) ∉ m₁ ∧ Out.sent (giveBytes g) ∉ m₂ ∧
        Out.sent (giveBytes g) ∉ m₃ := by
      intro g
      refine ⟨fun hg => not_give_of_adds ?_ (hq₁ _ hg), fun hg => not_give_of_adds ?_ (hq₂ _ hg),
        fun hg => not_give_of_adds ?_ (hq₃ _ hg)⟩ <;> simp
    rcases hgive with hsame | ⟨hne, hsent⟩
    · refine ⟨m ++ m₁ ++ m₂ ++ m₃, ?_, fun g hg => ?_⟩
      · rw [hm₃, hsame, hm₂, hm₁, hm]
        simp only [append_assoc]
      · simp only [mem_append, hnone g, or_false] at hg
        exact (hdec g hg).append _
    · refine ⟨m ++ m₁ ++ m₂ ++ [.sent (giveBytes (u.pairing C e e.now.1).givePkt)] ++ m₃, ?_,
        fun g hg => ?_⟩
      · rw [hm₃, hsent, hm₂, hm₁, hm]
        simp only [append_assoc]
      · simp only [mem_append, hnone g, or_false, mem_singleton] at hg
        rcases hg with hg | hg
        · exact (hdec g hg).append _
        · rw [giveBytes_injective (Out.sent.inj hg)]
          exact hdecided hne

end Steps

/-! ### Runs -/

/-- A member that is not pairing, whom nobody asked, and with no Echo attested. -/
structure Idle (s : St) : Prop where
  inNet : s.inNet = true
  unattested : s.Unattested
  preqs : ∀ j, (s.preqs j).seen = 0
  pairUntil : s.pairUntil = 0
  giveLeft : s.giveLeft = 0

theorem tracks_idle (C : Crypto) {s : St} (hs : Idle s) : Tracks C s [] s 0 :=
  ⟨rfl, hs.unattested, fun h => absurd hs.pairUntil h, fun a ha => absurd ha (by simp [asks]),
    fun j hj => absurd (hs.preqs j) hj, fun a ha => absurd ha (by simp [asks]),
    fun h => absurd hs.giveLeft h, [], by simp, fun g hg => absurd hg (by simp)⟩

theorem timeOf_nonneg (ev : Ev) : 0 ≤ timeOf ev := by
  cases ev with
  | packet p now ip nonce => exact now.2.le
  | pair now => exact now.2.le
  | tick e => exact e.now.2.le
  | _ => exact le_rfl

theorem St.run_append (C : Crypto) (s : St) (l m : List Ev) :
    s.run C (l ++ m) = (s.run C l).run C m := foldl_append

theorem tracks_step {C : Crypto} {s : St} (hs : Idle s) {l : List Ev} {ev : Ev}
    (h : Tracks C s l (s.run C l) (timeOf ev)) (hev : OfPairing ev)
    (hkeeps : ∀ a, askOf (s.run C l).pk ev = some a → (s.run C l).Keeps a) :
    Tracks C s (l ++ [ev]) (s.run C (l ++ [ev])) (timeOf ev) := by
  rw [St.run_append]
  cases ev with
  | packet p now ip nonce =>
    obtain ⟨r, hp⟩ := hev
    exact tracks_packet h hp rfl ip nonce hkeeps
  | pair now => exact tracks_pair h rfl
  | tick e => exact tracks_tick hs.inNet h e
  | _ => exact absurd hev (by simp [OfPairing])

theorem tracks_run {C : Crypto} {s : St} (hs : Idle s) (r : List Ev) :
    ∀ (l : List Ev) (now : ℤ), Tracks C s l (s.run C l) now → (∀ ev ∈ r, OfPairing ev) →
    (now :: r.map timeOf).Pairwise (· ≤ ·) → KeepsAll C (s.run C l) r →
    ∃ now', Tracks C s (l ++ r) (s.run C (l ++ r)) now' := by
  induction r with
  | nil => exact fun l now h _ _ _ => ⟨now, by simpa using h⟩
  | cons ev r ih =>
    intro l now h hev htime hkeep
    rw [map_cons, pairwise_cons] at htime
    have hstep := tracks_step hs (h.later (htime.1 _ (by simp))) (hev ev (by simp)) hkeep.1
    rw [append_cons]
    refine ih _ _ hstep (fun ev' h' => hev ev' (by simp [h'])) htime.2 ?_
    rw [St.run_append]
    exact hkeep.2

/-- **A key is handed to the only Echo that asked.**  In every run of pair requests,
presses and turns of the loop in which no request is noted over one that counts: for
every sealed key sent there is a turn at which the Echo it is for was the only one
outside the network that asked since a window before the press. -/
theorem pairing_gives_one (C : Crypto) (s : St) (hs : Idle s) (l : List Ev)
    (hl : ∀ ev ∈ l, OfPairing ev) (htime : (l.map timeOf).Pairwise (· ≤ ·)) (hkeep : KeepsAll C s l)
    (g : GivePkt) (hg : Out.sent (giveBytes g) ∈ (s.run C l).out.drop s.out.length) :
    ∃ p e q, l = p ++ .tick e :: q ∧ g.net = s.netId ∧ OnlyAsker C s p g.to_ := by
  have hpos : (0 :: l.map timeOf).Pairwise (· ≤ ·) := by
    refine pairwise_cons.mpr ⟨fun t ht => ?_, htime⟩
    obtain ⟨ev, -, rfl⟩ := mem_map.mp ht
    exact timeOf_nonneg ev
  obtain ⟨now, h⟩ := tracks_run hs l [] 0 (tracks_idle C hs) hl hpos hkeep
  obtain ⟨m, hout, hdecided⟩ := h.sent
  rw [nil_append] at hout hdecided
  rw [hout, drop_left] at hg
  exact hdecided g hg

/-! ### Requests on a fixed run -/

/-- A pair request of the Echo all of whose key is `c`, which says it is in the network `net`. -/
def pairOf (c : UInt8) (net : UInt64) : Bytes :=
  beaconHead tPair (.fill 32 c) net ⟨[0x61], by decide⟩

/-- An Echo that has started the network `7`. -/
def memberOfSeven : St := (start .clear (.plain 1)).run .clear [.tick (.plain ⟨6000, by decide⟩)]

theorem idle_memberOfSeven : Idle memberOfSeven := by
  refine ⟨by decide +kernel, ?_, ?_, by decide +kernel, by decide +kernel⟩
  · unfold St.Unattested
    decide +kernel
  · decide +kernel

/-- A press, a request, and a turn after the time to settle. -/
def oneAsks : List Ev :=
  [.pair ⟨6001, by decide⟩, .packet (pairOf 3 0) ⟨6002, by decide⟩ 0 (.zero 24),
    .tick (.plain ⟨9000, by decide⟩)]

/-- The key of the network `7`, sealed for the Echo all of whose key is `c`. -/
def sevenFor (c : UInt8) : GivePkt where
  to_ := .fill 32 c
  net := 7
  blob := (((Blob.fill 32 1).append (.zero 24)).append (.zero 16)).append (.fill 32 9)

/-- Nobody is noted after the press, and the key is sent. -/
theorem oneAsks_facts :
    (∀ j, ((memberOfSeven.step .clear (.pair ⟨6001, by decide⟩)).preqs j).seen = 0) ∧
    giveBytes (sevenFor 3) ∈
      ((memberOfSeven.run .clear oneAsks).out.drop memberOfSeven.out.length).filterMap sentOf := by
  decide +kernel

theorem keeps_of_free {t : St} (h : ∀ j, (t.preqs j).seen = 0) (a : Ask) : t.Keeps a :=
  fun hseen => absurd (h _) hseen

theorem keepsAll_oneAsks : KeepsAll .clear memberOfSeven oneAsks := by
  refine ⟨fun a ha => ?_, fun a _ => keeps_of_free oneAsks_facts.1 a, fun a ha => ?_, trivial⟩
  · cases ha
  · cases ha

theorem pairing_gives_one_oneAsks :
    Out.sent (giveBytes (sevenFor 3)) ∈
      (memberOfSeven.run .clear oneAsks).out.drop memberOfSeven.out.length ∧
    ∃ p e q, oneAsks = p ++ .tick e :: q ∧ (sevenFor 3).net = memberOfSeven.netId ∧
      OnlyAsker .clear memberOfSeven p (.fill 32 3) := by
  have hsent : Out.sent (giveBytes (sevenFor 3)) ∈
      (memberOfSeven.run .clear oneAsks).out.drop memberOfSeven.out.length :=
    mem_filterMap_sentOf.mp oneAsks_facts.2
  refine ⟨hsent, pairing_gives_one .clear memberOfSeven idle_memberOfSeven oneAsks ?_ (by decide)
    keepsAll_oneAsks (sevenFor 3) hsent⟩
  intro ev hev
  simp only [oneAsks, mem_cons, not_mem_nil, or_false] at hev
  rcases hev with rfl | rfl | rfl
  · trivial
  · exact (typed_beaconHead tPair _ _ _).readHead
  · trivial

/-- A press and a request of `3`, a second one that makes `3` pass for a member, and a
request of `4`. -/
def twoAsk : List Ev :=
  [.pair ⟨6001, by decide⟩, .packet (pairOf 3 0) ⟨6002, by decide⟩ 0 (.zero 24),
    .packet (pairOf 3 7) ⟨6003, by decide⟩ 0 (.zero 24),
    .packet (pairOf 4 0) ⟨6004, by decide⟩ 0 (.zero 24)]

/-- Both `3` and `4` asked from outside since a window before the press, and the key is
sent to `4`: anyone can send the request that hides `3`. -/
theorem pairing_gives_second :
    AskedSince memberOfSeven.pk memberOfSeven.netId twoAsk
      (6001 - memberOfSeven.pairMs) (.fill 32 3) ∧
    AskedSince memberOfSeven.pk memberOfSeven.netId twoAsk
      (6001 - memberOfSeven.pairMs) (.fill 32 4) ∧
    Out.sent (giveBytes (sevenFor 4)) ∈
      (memberOfSeven.run .clear (twoAsk ++ [.tick (.plain ⟨9000, by decide⟩)])).out.drop
        memberOfSeven.out.length := by
  refine ⟨?_, ?_, mem_filterMap_sentOf.mp (by decide +kernel)⟩
  · unfold AskedSince
    decide +kernel
  · unfold AskedSince
    decide +kernel

end Hassmic.Arb
