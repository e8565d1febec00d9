import Hassmic.DropIn.Audio
import Hassmic.DropIn.Moves

/-!
# The order of the jitter buffer

A frame waits in the slot of its number modulo 32, and the playout goes from number to number: on by
one for a frame that is played or lost for good, further ahead when too many wait.  Numbers are
compared as serial numbers, by the sign of their difference in 32 bits.

A late frame is taken as long as it is no more than 32 behind the newest.  One that is exactly 32
behind has the slot of the newest frame: the newest frame is lost for it, although it was never
played.

## Main definitions

* `Echo.plays`, `Echo.accepts` — the number the playout comes to, and the frame a packet brings.
* `Account` — an Echo with what it played and accepted so far.
* `Overwrites` — a late frame takes the slot of a newer one that is still to be played.
* `AtEdge` — it is exactly as many frames behind the newest as there are slots.

## Main results

* `kept_run` — what holds of the jitter buffer and the playout in every run.
* `overwrites_iff` — **a newer frame is lost exactly to a late one at the edge**.
* `jitter_order` — **numbers go up, no frame is played more often than it came, and none is lost for
  an older one** in exactly the runs without such a packet.
-/

namespace Hassmic.DropIn

open List Option Function

/-! ### Serial numbers -/

/-- A difference of serial numbers, as a number. -/
theorem ahead_eq (a b : UInt32) : ahead a b = Int.bmod ((a.toNat : ℤ) - b.toNat) (2 ^ 32) := by
  unfold ahead
  rw [show (a - b).toInt32.toInt = (a - b).toBitVec.toInt from rfl, UInt32.toBitVec_sub,
    BitVec.toInt_sub, BitVec.toInt_eq_toNat_bmod, BitVec.toInt_eq_toNat_bmod]
  exact Int.bmod_sub_bmod.trans Int.sub_bmod_bmod

theorem ahead_add_one (a : UInt32) : ahead (a + 1) a = 1 := by
  rw [ahead_eq, UInt32.toNat_add, Int.bmod_def]
  have h := UInt32.toNat_lt a
  have h1 : (1 : UInt32).toNat = 1 := rfl
  rw [h1]
  omega

theorem ahead_newest (hi : UInt32) : 0 < ahead hi (hi - (preBuf - 1)) := by
  rw [ahead_eq, Int.bmod_def, UInt32.toNat_sub]
  have h := UInt32.toNat_lt hi
  have h3 : (preBuf - 1 : UInt32).toNat = 3 := rfl
  rw [h3]
  omega

/-- The number after `a` that the playout skips to is ahead of `a`. -/
theorem ahead_skip {hi a : UInt32} (h : maxBuf < ahead hi (a + 1)) :
    0 < ahead (hi - (preBuf - 1)) a := by
  rw [ahead_eq, Int.bmod_def] at h ⊢
  rw [UInt32.toNat_add] at h
  rw [UInt32.toNat_sub]
  have ha := UInt32.toNat_lt a
  have hh := UInt32.toNat_lt hi
  have h1 : (1 : UInt32).toNat = 1 := rfl
  have h3 : (preBuf - 1 : UInt32).toNat = 3 := rfl
  have h12 : (maxBuf : ℤ) = 12 := rfl
  rw [h1, h12] at h
  rw [h3]
  omega

/-! ### What is played and accepted -/

/-- The number the playout comes to, with the frame when it is taken from its own slot: without one,
the frame is made from the next one or concealed. -/
def Echo.plays (s : Echo) (now : ℤ) : Option (UInt32 × Option Bytes) :=
  match s.playout with
  | none => none
  | some t =>
      if s.c.state ≠ .live ∨ s.c.gen ≠ t.gen then none
      else
        let t := s.playoutAt t now
        let slot := s.jb.slots (slotOf t.next)
        let after := s.jb.slots (slotOf (t.next + 1))
        let newer := 0 < ahead s.jb.hi t.next
        let own := slot.len ≠ 0 ∧ slot.seq = t.next
        if t.started ∧ ((own ∨ newer ∧ after.len ≠ 0 ∧ after.seq = t.next + 1) ∨ newer) then
          some (t.next, if own then some slot.d else none)
        else none

/-- The number and the frame of a packet that is taken. -/
def Echo.accepts (E : Env) (s : Echo) (p : Bytes) : Option (UInt32 × Bytes) :=
  match Packet.parse p with
  | none => none
  | some a =>
      if s.c.state ≠ .live ∨ s.c.keyed = false ∨ a.id ≠ s.c.id ∨
        a.dir ≠ (if s.c.outgoing then 1 else 0)
      then none
      else if s.jb.any ∧ ahead a.seq s.jb.hi < -jbSlots then none
      else (E.crypto.unlock s.c.key a.nonce (magic ++ a.nonce) a.body).map fun d => (a.seq, d)

/-- A frame that waits in its slot. -/
def Echo.waits (s : Echo) (n : UInt32) (d : Bytes) : Prop :=
  (s.jb.slots (slotOf n)).len ≠ 0 ∧ (s.jb.slots (slotOf n)).seq = n ∧ (s.jb.slots (slotOf n)).d = d

instance (s : Echo) (n : UInt32) (d : Bytes) : Decidable (s.waits n d) :=
  inferInstanceAs (Decidable (_ ∧ _))

/-- A packet that is read has a frame. -/
theorem Packet.parse_body {p : Bytes} {a : Packet} (h : Packet.parse p = some a) :
    a.body.length - 16 ≠ 0 := by
  unfold Packet.parse at h
  simp only [bind_eq_bind, bind_eq_some_iff] at h
  obtain ⟨hmd, -, id, -, dir, -, seq, -, h⟩ := h
  split at h
  · cases h
  · next hsize =>
    obtain rfl := some.inj h
    dsimp only
    omega

/-- **What a packet of audio does**: nothing, or its frame takes the slot of its number. -/
theorem onAudio_cases (E : Env) (s : Echo) (p : Bytes) (ip : UInt32) (port : UInt16) (now : ℤ) :
    s.accepts E p = none ∧ s.onAudio E p ip port now = s ∨
      ∃ n d len, s.accepts E p = some (n, d) ∧ len ≠ 0 ∧
      (s.onAudio E p ip port now).playout = s.playout ∧
        (s.onAudio E p ip port now).c.gen = s.c.gen ∧
        (s.onAudio E p ip port now).c.state = s.c.state ∧
        (s.onAudio E p ip port now).jb.any = true ∧
        (s.onAudio E p ip port now).jb.slots = update s.jb.slots (slotOf n) ⟨n, len, d⟩ := by
  unfold Echo.onAudio Echo.accepts
  cases hparse : Packet.parse p with
  | none => exact .inl ⟨rfl, rfl⟩
  | some a =>
    dsimp only
    by_cases hskip : s.c.state ≠ .live ∨ s.c.keyed = false ∨ a.id ≠ s.c.id ∨
        a.dir ≠ (if s.c.outgoing then 1 else 0)
    · rw [if_pos hskip, if_pos hskip]
      exact .inl ⟨rfl, rfl⟩
    · rw [if_neg hskip, if_neg hskip]
      by_cases hold : s.jb.any ∧ ahead a.seq s.jb.hi < -jbSlots
      · rw [if_pos hold, if_pos hold]
        exact .inl ⟨rfl, rfl⟩
      · rw [if_neg hold, if_neg hold]
        cases hopen : E.crypto.unlock s.c.key a.nonce (magic ++ a.nonce) a.body with
        | none => exact .inl ⟨rfl, rfl⟩
        | some d =>
          exact .inr ⟨a.seq, d, a.body.length - 16, rfl, Packet.parse_body hparse, rfl,
            rfl, rfl, rfl, rfl⟩

@[simp] theorem playoutAt_gen (s : Echo) (t : Playout) (now : ℤ) :
    (s.playoutAt t now).gen = t.gen := by
  unfold Echo.playoutAt
  extract_lets t'
  have ht' : t'.gen = t.gen := by
    unfold t'
    split <;> rfl
  split
  · exact ht'
  · exact ht'

/-- Once started, the playout stays where it is or skips ahead. -/
theorem playoutAt_started {s : Echo} {t : Playout} (h : t.started = true) (now : ℤ) :
    s.playoutAt t now =
      if maxBuf < ahead s.jb.hi t.next then { t with next := s.jb.hi - (preBuf - 1) } else t := by
  unfold Echo.playoutAt
  simp only [h, Bool.true_eq_false, false_and, if_false, true_and]

theorem playout_none {s : Echo} (h : s.playout = none) : s = { s with playout := none } := by
  cases s
  cases h
  rfl

/-- **What the playout does** in a step: the thread leaves the call, it waits for a frame, or it
comes to a number ahead of the one before, whose slot is empty from then on. -/
inductive PlayoutMove (s s' : Echo) (o : Option (UInt32 × Option Bytes)) : Prop
  | leaves (hs : s' = { s with playout := none }) (ho : o = none)
      (hgone : ∀ t, s.playout = some t → s.c.state = .live → s.c.gen ≠ t.gen)
  | waits (t t' : Playout) (ht : s.playout = some t) (hlive : s.c.state = .live)
  (hgen : s.c.gen = t.gen)
      (hs : s' = { s with playout := some t' }) (ho : o = none) (hgen' : t'.gen = t.gen)
      (hstay : t.started = true → t' = t)
  | plays (t t' : Playout) (n : UInt32) (f : Option Bytes) (ht : s.playout = some t)
      (hlive : s.c.state = .live) (hgen : s.c.gen = t.gen)
      (hs : s' = { s with
        jb := { s.jb with
          slots := update s.jb.slots (slotOf n) { s.jb.slots (slotOf n) with len := 0 } }
        playout := some t' })
      (ho : o = some (n, f)) (hgen' : t'.gen = t.gen) (hstarted : t'.started = true)
      (hnext : t'.next = n + 1) (hahead : t.started = true → ∀ x, t.next = x + 1 → 0 < ahead n x)
      (hown : ∀ d, f = some d → s.waits n d)

theorem playoutFrame_move (s : Echo) (now : ℤ) : PlayoutMove s (s.playoutFrame now)
    (s.plays now) := by
  unfold Echo.playoutFrame Echo.plays
  cases hplayout : s.playout with
  | none =>
    refine .leaves (playout_none hplayout) rfl (fun t ht => ?_)
    rw [hplayout] at ht
    cases ht
  | some t =>
    dsimp only
    by_cases hgone : s.c.state ≠ .live ∨ s.c.gen ≠ t.gen
    · rw [if_pos hgone, if_pos hgone]
      refine .leaves rfl rfl (fun t' ht' hlive hgen => ?_)
      rw [hplayout] at ht'
      cases ht'
      rcases hgone with h | h
      · exact h hlive
      · exact h hgen
    · rw [if_neg hgone, if_neg hgone]
      push Not at hgone
      obtain ⟨hlive, hgen⟩ := hgone
      split
      · next hplays =>
        refine .plays t _ (s.playoutAt t now).next _ hplayout hlive hgen rfl rfl
          (playoutAt_gen s t now)
          hplays.1 rfl ?_ ?_
        · intro hstarted x hx
          rw [playoutAt_started hstarted]
          split
          · next hskip =>
            rw [hx] at hskip
            exact ahead_skip hskip
          · rw [hx, ahead_add_one]
            exact one_pos
        · intro d hd
          split at hd
          · next hown => exact ⟨hown.1, hown.2, some.inj hd⟩
          · cases hd
      · next hnot =>
        refine .waits t _ hplayout hlive hgen rfl rfl (playoutAt_gen s t now) fun hstarted => ?_
        rw [playoutAt_started hstarted]
        refine if_neg fun hskip => hnot ?_
        rw [playoutAt_started hstarted, if_pos hskip]
        exact ⟨hstarted, .inr (ahead_newest s.jb.hi)⟩

/-- An Echo, what it played, each with the call's number, and the frames it accepted. -/
structure Account where
  echo : Echo := {}
  played : List (ℕ × UInt32 × Option Bytes) := []
  accepted : List (UInt32 × Bytes) := []

/-- What a step plays. -/
def Echo.playedBy (s : Echo) : Event → List (ℕ × UInt32 × Option Bytes)
  | .playoutFrame now => ((s.plays now).map fun x => (s.c.gen, x)).toList
  | _ => []

/-- What a step accepts. -/
def Echo.acceptedBy (E : Env) (s : Echo) : Event → List (UInt32 × Bytes)
  | .audio p _ _ _ => (s.accepts E p).toList
  | _ => []

/-- Only the playout plays, and only a packet of audio brings a frame. -/
theorem Event.Aside.accounts {e : Event} (he : e.Aside) (E : Env) (s : Echo) :
    s.playedBy e = [] ∧ s.acceptedBy E e = [] := by
  cases e with
  | audio => exact he.elim
  | playoutFrame => exact he.elim
  | _ => exact ⟨rfl, rfl⟩

def Account.step (E : Env) (a : Account) (e : Event) : Account where
  echo := a.echo.step E e
  played := a.played ++ a.echo.playedBy e
  accepted := a.accepted ++ a.echo.acceptedBy E e

/-- An Echo's run from the start, with its account. -/
def Account.run (E : Env) (es : List Event) : Account := es.foldl (Account.step E) {}

theorem Account.run_echo (E : Env) (es : List Event) : (Account.run E es).echo = Echo.run E es := by
  have h : ∀ (es : List Event) (a : Account),
      (es.foldl (Account.step E) a).echo = es.foldl (Echo.step E) a.echo := by
    intro es
    induction es with
    | nil => exact fun _ => rfl
    | cons e es ih => exact fun a => ih (a.step E e)
  exact h es {}

/-- The numbers played in one call, in their order. -/
def Account.numbers (a : Account) (g : ℕ) : List UInt32 :=
  (a.played.filter fun x => x.1 = g).map fun x => x.2.1

/-- How often the frame `d` with number `n` was played from its slot. -/
def Account.plays (a : Account) (n : UInt32) (d : Bytes) : ℕ :=
  (a.played.map (·.2)).count (n, some d)

/-- **What holds of the jitter buffer and the playout in every run.** -/
structure Kept (a : Account) : Prop where
  /-- Within a call, every number is ahead of the one before it. -/
  chain : ∀ g, (a.numbers g).IsChain fun x y => 0 < ahead y x
  /-- A frame that was played or waits was accepted for it. -/
  count : ∀ n d, a.plays n d + (if a.echo.waits n d then 1 else 0) ≤ a.accepted.count (n, d)
  /-- What was played was played in a call up to now. -/
  old : ∀ x ∈ a.played, x.1 ≤ a.echo.c.gen
  /-- What was played in this call was played by the thread that plays, up to where it is. -/
  last : ∀ x ∈ (a.numbers a.echo.c.gen).getLast?, a.echo.c.state = .live ∧
    ∃ t, a.echo.playout = some t ∧ t.gen = a.echo.c.gen ∧ t.started = true ∧ t.next = x + 1
  /-- The thread that plays plays a call up to now. -/
  gen : ∀ t, a.echo.playout = some t → t.gen ≤ a.echo.c.gen ∧
    (t.gen = a.echo.c.gen → a.echo.c.state = .live)
  /-- A frame waits in the slot of its number. -/
  slots : ∀ i, (a.echo.jb.slots i).len ≠ 0 → slotOf (a.echo.jb.slots i).seq = i
  /-- Before the first frame there is none. -/
  any : a.echo.jb.any = false → ∀ i, (a.echo.jb.slots i).len = 0

section

variable {E : Env} {a : Account}

/-- Nothing but audio and playout touches what the invariant is about, except that it forgets it. -/
theorem Kept.aside (h : Kept a) {s' : Echo} (hc : Carries a.echo s') :
    Kept { a with echo := s' } where
  chain := h.chain
  count n d := by
    refine le_trans (Nat.add_le_add_left ?_ _) (h.count n d)
    rcases hc.jb with hjb | hclear
    · have hiff : Echo.waits s' n d ↔ a.echo.waits n d := by
        unfold Echo.waits
        rw [hjb]
      exact (if_congr hiff rfl rfl).le
    · rw [if_neg fun hw : Echo.waits s' n d => hw.1 (hclear _)]
      exact Nat.zero_le _
  old x hx := (h.old x hx).trans hc.gen
  last x hx := by
    dsimp only at hx ⊢
    -- a number is used up when the call under it is over, so this is the call that ran before
    have hgen : s'.c.gen = a.echo.c.gen := by
      obtain ⟨y, hy, -⟩ := mem_map.mp (mem_of_mem_getLast? hx)
      rw [mem_filter, decide_eq_true_eq] at hy
      exact le_antisymm (hy.2 ▸ h.old y hy.1) hc.gen
    rw [hgen] at hx ⊢
    obtain ⟨hlive, t, ht, hrest⟩ := h.last x hx
    exact ⟨hc.live hgen hlive, t, hc.playout.trans ht, hrest⟩
  gen t ht := by
    have hold := h.gen t (hc.playout.symm.trans ht)
    refine ⟨hold.1.trans hc.gen, fun hgen => ?_⟩
    have hsame : s'.c.gen = a.echo.c.gen := le_antisymm (hgen ▸ hold.1) hc.gen
    exact hc.live hsame (hold.2 (hgen.trans hsame))
  slots i hi := by
    dsimp only at hi ⊢
    rcases hc.jb with hjb | hclear
    · rw [hjb] at hi ⊢
      exact h.slots i hi
    · exact absurd (hclear i) hi
  any hany i := by
    dsimp only at hany ⊢
    rcases hc.jb with hjb | hclear
    · rw [hjb] at hany ⊢
      exact h.any hany i
    · exact hclear i

/-- A frame that is accepted waits, in the place of what waited there. -/
theorem waits_update {s s' : Echo} {n : UInt32} {d : Bytes} {len : ℕ}
    (hslots : s'.jb.slots = update s.jb.slots (slotOf n) ⟨n, len, d⟩) (m : UInt32) (e : Bytes) :
    (if s'.waits m e then 1 else 0) ≤ (if s.waits m e then 1 else 0) + [(n, d)].count (m, e) := by
  by_cases hsame : slotOf m = slotOf n
  · by_cases heq : (n, d) = (m, e)
    · rw [heq, count_singleton_self]
      split <;> omega
    · have hnot : ¬ s'.waits m e := by
        unfold Echo.waits
        rw [hslots, hsame, update_self]
        rintro ⟨-, rfl, rfl⟩
        exact heq rfl
      rw [if_neg hnot]
      exact Nat.zero_le _
  · have hiff : s'.waits m e ↔ s.waits m e := by
      unfold Echo.waits
      rw [hslots, update_of_ne hsame]
    rw [if_congr hiff rfl rfl]
    exact Nat.le_add_right _ _

theorem Kept.audio (h : Kept a) (p : Bytes) (ip : UInt32) (port : UInt16) (now : ℤ) :
    Kept (a.step E (.audio p ip port now)) := by
  rcases onAudio_cases E a.echo p ip port now with ⟨hnone, hs⟩ |
    ⟨n, d, len, hsome, -, hplayout, hgen, hstate, hany, hslots⟩
  · have heq : a.step E (.audio p ip port now) = a := by
      show (⟨a.echo.onAudio E p ip port now, a.played ++ [],
        a.accepted ++ (a.echo.accepts E p).toList⟩ :
        Account) = a
      rw [hs, hnone, toList_none, append_nil, append_nil]
    rw [heq]
    exact h
  · have hplayed : (a.step E (.audio p ip port now)).played = a.played := append_nil _
    have haccepted : (a.step E (.audio p ip port now)).accepted = a.accepted ++ [(n, d)] := by
      show a.accepted ++ (a.echo.accepts E p).toList = _
      rw [hsome]
      rfl
    constructor
    · intro g
      unfold Account.numbers
      rw [hplayed]
      exact h.chain g
    · intro m e
      have hwaits := waits_update hslots m e
      have hcount := h.count m e
      rw [haccepted, count_append]
      unfold Account.plays at hcount ⊢
      rw [hplayed]
      show _ + (if (a.echo.onAudio E p ip port now).waits m e then 1 else 0) ≤ _
      omega
    · intro x hx
      rw [hplayed] at hx
      exact (h.old x hx).trans hgen.ge
    · intro x hx
      have hx' : x ∈ (a.numbers a.echo.c.gen).getLast? := by
        unfold Account.numbers at hx ⊢
        rw [hplayed] at hx
        rw [← hgen]
        exact hx
      obtain ⟨hlive, t, ht, htgen, hrest⟩ := h.last x hx'
      exact ⟨hstate.trans hlive, t, hplayout.trans ht, htgen.trans hgen.symm, hrest⟩
    · intro t ht
      obtain ⟨hle, hlive⟩ := h.gen t (hplayout.symm.trans ht)
      exact ⟨hle.trans hgen.ge, fun ht' => hstate.trans (hlive (ht'.trans hgen))⟩
    · intro i hi
      change ((a.echo.onAudio E p ip port now).jb.slots i).len ≠ 0 at hi
      show slotOf ((a.echo.onAudio E p ip port now).jb.slots i).seq = i
      rw [hslots] at hi ⊢
      by_cases hin : i = slotOf n
      · rw [hin, update_self]
      · rw [update_of_ne hin] at hi ⊢
        exact h.slots i hi
    · intro hnone
      exact absurd (hany.symm.trans hnone) (by decide)

/-- The playout thread finds a call: nothing was played in it yet. -/
theorem Kept.playoutOpen (h : Kept a) (now : ℤ) : Kept (a.step E (.playoutOpen now)) := by
  have hplayed : (a.step E (.playoutOpen now)).played = a.played := append_nil _
  have haccepted : (a.step E (.playoutOpen now)).accepted = a.accepted := append_nil _
  have hstep : ∀ s', a.echo.playoutOpen now = s' → Kept { a with echo := s' } →
      Kept (a.step E (.playoutOpen now)) := by
    rintro s' rfl hk
    have heq : a.step E (.playoutOpen now) = { a with echo := a.echo.playoutOpen now } := by
      show (⟨a.echo.playoutOpen now, a.played ++ [], a.accepted ++ []⟩ : Account) = _
      rw [append_nil, append_nil]
    rw [heq]
    exact hk
  refine hstep _ rfl ?_
  unfold Echo.playoutOpen
  cases hnone : a.echo.playout with
  | some t => exact h
  | none =>
    dsimp only
    split
    · next hlive =>
      refine { h with last := fun x hx => ?_, gen := fun t ht => ?_ }
      · obtain ⟨-, t, ht, -⟩ := h.last x hx
        rw [hnone] at ht
        cases ht
      · cases ht
        exact ⟨le_rfl, fun _ => hlive⟩
    · exact h

theorem numbers_append (a : Account) (s : Echo) (g n : ℕ) (m : UInt32) (f : Option Bytes)
    (acc : List (UInt32 × Bytes)) :
    (⟨s, a.played ++ [(n, m, f)], acc⟩ : Account).numbers g =
      a.numbers g ++ if n = g then [m] else [] := by
  unfold Account.numbers
  rw [filter_append, map_append]
  by_cases h : n = g
  · simp [h]
  · simp [h]

theorem Kept.playoutFrame (h : Kept a) (now : ℤ) : Kept (a.step E (.playoutFrame now)) := by
  -- what it plays is added to what was played
  have hstep : ∀ o s', a.echo.plays now = o → a.echo.playoutFrame now = s' →
      Kept ⟨s', a.played ++ (o.map fun x => (a.echo.c.gen, x)).toList, a.accepted⟩ →
      Kept (a.step E (.playoutFrame now)) := by
    rintro o s' rfl rfl hk
    have heq : a.step E (.playoutFrame now) = ⟨a.echo.playoutFrame now,
        a.played ++ ((a.echo.plays now).map fun x => (a.echo.c.gen, x)).toList, a.accepted⟩ := by
      show (⟨a.echo.playoutFrame now, _, a.accepted ++ []⟩ : Account) = _
      rw [append_nil]
      rfl
    rw [heq]
    exact hk
  cases playoutFrame_move a.echo now with
  | leaves hs ho hgone =>
    refine hstep _ _ ho hs ?_
    rw [map_none, toList_none, append_nil]
    refine { h with last := fun x hx => ?_, gen := by rintro _ ⟨⟩ }
    obtain ⟨hlive, t, ht, hgen, -⟩ := h.last x hx
    exact absurd hgen.symm (hgone t ht hlive)
  | waits t t' ht hlive hgen hs ho hgen' hstay =>
    refine hstep _ _ ho hs ?_
    rw [map_none, toList_none, append_nil]
    refine { h with last := fun x hx => ?_, gen := fun u hu => ?_ }
    · obtain ⟨-, u, hu, hugen, hstarted, hnext⟩ := h.last x hx
      obtain rfl : t = u := some.inj (ht.symm.trans hu)
      rw [hstay hstarted]
      exact ⟨hlive, t, rfl, hugen, hstarted, hnext⟩
    · obtain rfl : t' = u := some.inj hu
      exact ⟨(hgen'.trans hgen.symm).le, fun _ => hlive⟩
  | plays t t' n f ht hlive hgen hs ho hgen' hstarted hnext hahead hown =>
    refine hstep _ _ ho hs ?_
    rw [map_some, toList_some]
    refine ⟨fun g => ?_, fun m e => ?_, fun x hx => ?_, fun x hx => ?_, fun u hu =>
      ?_, fun i hi => ?_, fun hnone i => ?_⟩
    · rw [numbers_append]
      by_cases hg : a.echo.c.gen = g
      · rw [if_pos hg, isChain_append]
        refine ⟨h.chain g, isChain_singleton n, fun x hx y hy => ?_⟩
        subst hg
        obtain ⟨-, u, hu, -, hus, hunext⟩ := h.last x hx
        obtain rfl : t = u := some.inj (ht.symm.trans hu)
        obtain rfl : n = y := some.inj hy
        exact hahead hus x hunext
      · rw [if_neg hg, append_nil]
        exact h.chain g
    · have hcount := h.count m e
      unfold Account.plays at hcount ⊢
      dsimp only
      rw [map_append, count_append, map_singleton]
      by_cases hown' : (n, f) = (m, some e)
      · -- its own slot is empty now
        obtain ⟨rfl, rfl⟩ := Prod.mk.inj hown'
        rw [count_singleton_self, if_neg (fun hw => hw.1 (by
          show (update a.echo.jb.slots (slotOf n) _ (slotOf n)).len = 0
          rw [update_self]))]
        rw [if_pos (hown e rfl)] at hcount
        exact hcount
      · rw [count_singleton, if_neg (by simpa using hown'), Nat.add_zero]
        refine le_trans (Nat.add_le_add_left ?_ _) hcount
        -- another frame is where it was, unless it had the slot
        by_cases hsame : slotOf m = slotOf n
        · rw [if_neg (fun hw => hw.1 (by
            show (update a.echo.jb.slots (slotOf n) _ (slotOf m)).len = 0
            rw [hsame, update_self]))]
          exact Nat.zero_le _
        · refine (if_congr ?_ rfl rfl).le
          unfold Echo.waits
          dsimp only
          rw [update_of_ne hsame]
    · rcases mem_append.mp hx with hx | hx
      · exact h.old x hx
      · rw [mem_singleton.mp hx]
    · rw [numbers_append, if_pos rfl, getLast?_append] at hx
      obtain rfl : n = x := by simpa using hx
      exact ⟨hlive, t', rfl, hgen'.trans hgen.symm, hstarted, hnext⟩
    · obtain rfl : t' = u := some.inj hu
      exact ⟨(hgen'.trans hgen.symm).le, fun _ => hlive⟩
    · dsimp only at hi ⊢
      by_cases hin : i = slotOf n
      · rw [hin, update_self] at hi
        exact absurd rfl hi
      · rw [update_of_ne hin] at hi ⊢
        exact h.slots i hi
    · dsimp only at hnone ⊢
      by_cases hin : i = slotOf n
      · rw [hin, update_self]
      · rw [update_of_ne hin]
        exact h.any hnone i

theorem Kept.step (h : Kept a) (e : Event) : Kept (a.step E e) := by
  have haside : e.Aside → Kept (a.step E e) := by
    intro he
    have heq : a.step E e = { a with echo := a.echo.step E e } := by
      rw [Account.step, (he.accounts E a.echo).1, (he.accounts E a.echo).2, append_nil,
        append_nil]
    rw [heq]
    exact h.aside (carries_step e he)
  cases e with
  | audio p ip port now => exact h.audio p ip port now
  | playoutOpen now => exact h.playoutOpen now
  | playoutFrame now => exact h.playoutFrame now
  | _ => exact haside trivial

/-- What holds of the jitter buffer and the playout in every run. -/
theorem kept_run (E : Env) (es : List Event) : Kept (Account.run E es) := by
  refine Runs.invariant_all (I := Kept) (fun _ e h => h.step e) ?_ es
  refine ⟨fun g => isChain_nil, fun n d => ?_, fun x hx => ?_, fun x hx => ?_, fun t ht => ?_,
    fun i hi => absurd rfl hi, fun _ _ => rfl⟩
  · rw [if_neg (fun hw => hw.1 rfl)]
    exact Nat.zero_le _
  · exact absurd hx not_mem_nil
  · exact absurd hx (by simp [Account.numbers])
  · cases ht

end

/-! ### A newer frame lost for a late one -/

/-- The playout has not come to number `m` yet. -/
def Echo.ToCome (s : Echo) (m : UInt32) : Prop :=
  ∀ t, s.playout = some t → t.gen = s.c.gen → t.started = true → 0 ≤ ahead m t.next

/-- **A late frame takes the slot of a newer one** that is still to be played. -/
structure Overwrites (E : Env) (s : Echo) (p : Bytes) : Prop where
  accepted : ∃ n d, s.accepts E p = some (n, d) ∧ ahead n s.jb.hi < 0 ∧
    (s.jb.slots (slotOf n)).len ≠ 0 ∧ 0 < ahead (s.jb.slots (slotOf n)).seq n ∧
    0 ≤ ahead s.jb.hi (s.jb.slots (slotOf n)).seq ∧
    s.ToCome (s.jb.slots (slotOf n)).seq

/-- A frame is exactly as many numbers behind the newest as there are slots, and the newest is still
to be played. -/
structure AtEdge (E : Env) (s : Echo) (p : Bytes) : Prop where
  accepted : ∃ n d, s.accepts E p = some (n, d) ∧ ahead n s.jb.hi = -jbSlots
  waits : (s.jb.slots (slotOf s.jb.hi)).len ≠ 0 ∧ (s.jb.slots (slotOf s.jb.hi)).seq = s.jb.hi
  toCome : s.ToCome s.jb.hi

/-- A frame that is taken is not far too old, unless it is the first. -/
theorem accepts_recent {E : Env} {s : Echo} {p : Bytes} {n : UInt32} {d : Bytes}
    (h : s.accepts E p = some (n, d)) (hany : s.jb.any = true) : -jbSlots ≤ ahead n s.jb.hi := by
  unfold Echo.accepts at h
  cases hparse : Packet.parse p with
  | none =>
    rw [hparse] at h
    cases h
  | some a =>
    rw [hparse] at h
    dsimp only at h
    by_cases hskip : s.c.state ≠ .live ∨ s.c.keyed = false ∨ a.id ≠ s.c.id ∨
        a.dir ≠ (if s.c.outgoing then 1 else 0)
    · rw [if_pos hskip] at h
      cases h
    · rw [if_neg hskip] at h
      by_cases hold : s.jb.any ∧ ahead a.seq s.jb.hi < -jbSlots
      · rw [if_pos hold] at h
        cases h
      · rw [if_neg hold] at h
        obtain ⟨e, -, he⟩ := map_eq_some_iff.mp h
        obtain ⟨rfl, -⟩ := Prod.mk.inj he
        exact not_lt.mp fun hlow => hold ⟨hany, hlow⟩

/-- In the window the slots repeat only at its two ends. -/
theorem edge_of_newer {n m hi : UInt32} (hslot : slotOf m = slotOf n) (hlow : -jbSlots ≤ ahead n hi)
    (hlate : ahead n hi < 0) (hnewer : 0 < ahead m n) (hhi : 0 ≤ ahead hi m) :
    m = hi ∧ ahead n hi = -jbSlots := by
  have hmod : m.toNat % 32 = n.toNat % 32 := congrArg Fin.val hslot
  have hslots : jbSlots = 32 := rfl
  have h1 := UInt32.toNat_lt n
  have h2 := UInt32.toNat_lt m
  have h3 := UInt32.toNat_lt hi
  rw [← UInt32.toNat_inj]
  rw [hslots] at hlow ⊢
  rw [ahead_eq, Int.bmod_def] at hlow hlate hnewer hhi ⊢
  -- `m` is between `n` and the newest, so at most 32 ahead of `n`, and a multiple of 32
  constructor
  · omega
  · omega

theorem newer_of_edge {n hi : UInt32} (hedge : ahead n hi = -jbSlots) :
    slotOf n = slotOf hi ∧ 0 < ahead hi n := by
  have hslots : jbSlots = 32 := rfl
  have h1 := UInt32.toNat_lt n
  have h3 := UInt32.toNat_lt hi
  rw [ahead_eq, Int.bmod_def, hslots] at hedge
  constructor
  · refine Fin.ext ?_
    show n.toNat % jbSlots = hi.toNat % jbSlots
    rw [hslots]
    omega
  · rw [ahead_eq, Int.bmod_def]
    omega

/-- **A newer frame is lost exactly to a late one at the edge.** -/
theorem overwrites_iff {E : Env} {a : Account} (h : Kept a) (p : Bytes) :
    Overwrites E a.echo p ↔ AtEdge E a.echo p := by
  constructor
  · rintro ⟨n, d, hn, hlate, hlen, hnewer, hhi, hcome⟩
    have hany : a.echo.jb.any = true := by
      by_contra hnone
      exact hlen (h.any (by simpa using hnone) _)
    obtain ⟨heq, hedge⟩ :=
      edge_of_newer (h.slots _ hlen) (accepts_recent hn hany) hlate hnewer hhi
    refine ⟨⟨n, d, hn, hedge⟩, ?_, heq ▸ hcome⟩
    rw [← (newer_of_edge hedge).1]
    exact ⟨hlen, heq⟩
  · rintro ⟨⟨n, d, hn, hedge⟩, ⟨hlen, hseq⟩, hcome⟩
    obtain ⟨hslot, hnewer⟩ := newer_of_edge hedge
    refine ⟨n, d, hn, ?_, ?_⟩
    · rw [hedge]
      decide
    · rw [hslot, hseq]
      exact ⟨hlen, hnewer, (ahead_self _).ge, hcome⟩

/-- **The order of a run**: within every call the numbers go up, no frame is played more often than
it came, and none that is still to be played is lost for an older one. -/
structure InOrder (E : Env) (es : List Event) : Prop where
  ahead : ∀ g, ((Account.run E es).numbers g).IsChain fun x y => 0 < ahead y x
  once : ∀ n d, (Account.run E es).plays n d ≤ (Account.run E es).accepted.count (n, d)
  kept : ∀ before p ip port now after, es = before ++ .audio p ip port now :: after →
    ¬ Overwrites E (Echo.run E before) p

/-- **A run is in order exactly when no frame at the edge comes** while the newest is still to be
played. -/
theorem jitter_order (E : Env) (es : List Event) :
    InOrder E es ↔ ∀ before p ip port now after, es = before ++ .audio p ip port now :: after →
      ¬ AtEdge E (Echo.run E before) p := by
  have hiff : ∀ before p, Overwrites E (Echo.run E before) p ↔ AtEdge E (Echo.run E before) p := by
    intro before p
    rw [← Account.run_echo]
    exact overwrites_iff (kept_run E before) p
  constructor
  · intro h before p ip port now after hes hedge
    exact h.kept before p ip port now after hes ((hiff before p).mpr hedge)
  · intro h
    have hkept := kept_run E es
    refine ⟨hkept.chain, fun n d => (Nat.le_add_right _ _).trans (hkept.count n d), ?_⟩
    intro before p ip port now after hes hover
    exact h before p ip port now after hes ((hiff before p).mp hover)

/-! ### On fixed inputs -/

/-- A packet of the call with id 5, 5, ..., from its caller, with the frame of number `n`. -/
def numberedPacket (n : ℕ) : Bytes :=
  magic ++ (Blob.fill 8 5).1 ++ [0] ++ Wire.le 4 n ++ List.replicate 17 3

/-- A call comes in and connects; the frame 32 behind the first one comes after it. -/
def lateCall : List Event :=
  [.message (some (Blob.fill 32 9)) (Blob.fill 32 1) none (Blob.fill 8 2) [2] 10
    (Msg.bytes ⟨.invite, Blob.fill 8 5, 7, Blob.fill 32 2, []⟩) 0,
    .audio (numberedPacket 32) 10 7 20]

/-- **The frame 32 behind the newest takes its slot.** -/
theorem jitter_order_lateCall : ¬ ∀ E es, InOrder E es := by
  intro h
  have hkept := (h openEnv (lateCall ++ [.audio (numberedPacket 0) 10 7 40])).kept lateCall
    (numberedPacket 0) 10 7 40 [] rfl
  refine hkept ⟨0, [3], ?_⟩
  have hplayout : (Echo.run openEnv lateCall).playout = none := by
    have hnone : (Echo.run openEnv lateCall).playout.isNone = true := by decide
    exact isNone_iff_eq_none.mp hnone
  refine ⟨by decide, by decide, by decide, by decide, by decide,
    fun t ht => ?_⟩
  rw [hplayout] at ht
  cases ht

end Hassmic.DropIn
