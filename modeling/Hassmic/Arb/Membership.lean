import Hassmic.Lib.Runs
import Hassmic.Arb.Moves

/-!
# The network an Echo is in

An Echo joins a network by a key that another hands over, by Home Assistant's word,
by starting one, or from its state file.  Two networks that meet settle on the
lower id: once in a network, an Echo leaves it for a lower one only, and a start
finds the network of the last save.  The id `0` is no network, but a sealed key for
it is taken like any other.

## Main definitions

* `Act`, `St.live` — the life of an Echo: steps and restarts.
* `Lower` — the same network, or a lower one.
* `Clean` — no step of a life takes a key for the network `0`.

## Main results

* `network_settles` — the network's id is not `0` and never rises, as long as no key
  for the network `0` is taken.
* `network_zero` — such a key is taken.
-/

namespace Hassmic.Arb

open Wire List Option

/-! ### Lives -/

/-- The text of a save. -/
def savedText : Out → Option Bytes
  | .saved text => some text
  | _ => none

/-- The state file: the last text saved. -/
def St.file (s : St) : Option Bytes := (s.out.filterMap savedText).getLast?

/-- What happens to an Echo: a step, or its program is started again. -/
inductive Act
  | step (ev : Ev)
  | restart (b : Boot)

/-- A restart reads the file that the program before it left. -/
def St.act (C : Crypto) (s : St) : Act → St
  | .step ev => s.step C ev
  | .restart b => start C { b with arbitration := s.file }

/-- The life of an Echo. -/
def St.live (C : Crypto) (s : St) (l : List Act) : St := l.foldl (St.act C) s

/-- No step takes a key for the network `0`. -/
def Clean (C : Crypto) : St → List Act → Prop :=
  Runs.Each (St.act C) fun s a => ∀ ev, a = .step ev → ¬ s.TakesZero C ev

/-! ### The invariant -/

/-- The network of an Echo. -/
def St.network (s : St) : Bool × UInt64 × Blob 32 := (s.inNet, s.netId, s.netKey)

/-- The network of `s` or a lower one. -/
def Lower (s t : St) : Prop :=
  s.inNet = true →
    t.inNet = true ∧ (t.netId < s.netId ∨ t.netId = s.netId ∧ t.netKey = s.netKey)

variable {s t : St}

theorem Lower.of_network (h : t.network = s.network) : Lower s t := by
  simp only [St.network, Prod.mk.injEq] at h
  exact fun hin => ⟨h.1.trans hin, .inr h.2⟩

theorem Lower.trans {u : St} (h₁ : Lower s t) (h₂ : Lower t u) : Lower s u := by
  intro hin
  obtain ⟨hin₁, hlow₁⟩ := h₁ hin
  obtain ⟨hin₂, hlow₂⟩ := h₂ hin₁
  refine ⟨hin₂, ?_⟩
  rcases hlow₁ with hlt₁ | ⟨hid₁, hkey₁⟩
  · left
    rcases hlow₂ with hlt₂ | ⟨hid₂, -⟩
    · exact UInt64.lt_trans hlt₂ hlt₁
    · rwa [hid₂]
  · rcases hlow₂ with hlt₂ | ⟨hid₂, hkey₂⟩
    · left
      rwa [← hid₁]
    · exact .inr ⟨hid₂.trans hid₁, hkey₂.trans hkey₁⟩

/-- The network has an id, and the file has the network. -/
structure Settled (s : St) : Prop where
  nonzero : s.inNet = true → s.netId ≠ 0
  filed : ∃ u : St, s.file = some u.stateText ∧ u.network = s.network

/-! ### Moves -/

theorem file_append {l : List Out} (h : t.out = s.out ++ l) :
    t.file = ((l.filterMap savedText).getLast?).or s.file := by
  rw [St.file, h, filterMap_append, getLast?_append, ← St.file]

theorem network_of_core (h : t.core = s.core) : t.network = s.network := by
  have hin : t.inNet = s.inNet := congrArg Core.inNet h
  have hid : t.netId = s.netId := congrArg Core.netId h
  have hkey : t.netKey = s.netKey := congrArg Core.netKey h
  rw [St.network, hin, hid, hkey, St.network]

theorem Settled.of_network (h : Settled s) (hnet : t.network = s.network)
    (hfile : t.file = s.file ∨ ∃ u : St, t.file = some u.stateText ∧ u.network = s.network) :
    Settled t := by
  have hparts := hnet
  simp only [St.network, Prod.mk.injEq] at hparts
  refine ⟨fun hin => ?_, ?_⟩
  · rw [hparts.2.1]
    exact h.nonzero (hparts.1.symm.trans hin)
  · rcases hfile with hfile | ⟨u, hfile, hu⟩
    · obtain ⟨u, hu, hnetu⟩ := h.filed
      exact ⟨u, hfile.trans hu, hnetu.trans hnet.symm⟩
    · exact ⟨u, hfile, hu.trans hnet.symm⟩

/-- What a move that is no key leaves in the file. -/
theorem file_still {C : Crypto} (h : Still C s t) :
    t.file = s.file ∨ ∃ u : St, t.file = some u.stateText ∧ u.network = s.network := by
  obtain ⟨l, hout, hplain⟩ := h.out
  rw [file_append hout]
  cases hlast : (l.filterMap savedText).getLast? with
  | none => exact .inl rfl
  | some text =>
    right
    obtain ⟨o, ho, hsaved⟩ := mem_filterMap.mp (mem_of_getLast? hlast)
    have hadds := hplain o ho
    cases o with
    | saved text' =>
      obtain rfl : text' = text := by simpa [savedText] using hsaved
      cases hadds with
      | adds hadds =>
        cases hadds with
        | saved u hu => exact ⟨u, rfl, network_of_core hu⟩
    | _ => simp [savedText] at hsaved

/-- **One move**: the network stays, or it is a lower one. -/
theorem settled_moves {C : Crypto} {Z : Prop} (hZ : ¬ Z) (h : Moves C Z s t)
    (hs : Settled s) : Settled t ∧ Lower s t := by
  cases h with
  | still h =>
    have hnet := network_of_core h.core
    exact ⟨hs.of_network hnet (file_still h), .of_network hnet⟩
  | fresh id c now =>
    obtain ⟨hcore, hout⟩ := fresh_frame s id c now.1
    have hnet := network_of_core hcore
    exact ⟨hs.of_network hnet (.inl (file_append hout)), .of_network hnet⟩
  | adopt k id now hlow hzero =>
    have hne : id ≠ 0 := hzero.resolve_right hZ
    refine ⟨⟨fun _ => hne, ?_⟩, fun hin => ⟨rfl, .inl (hlow hin)⟩⟩
    -- the key is saved before anything else
    have hfile : ∃ u : St, (s.adopt C k id now).out = (s.out ++ [.adopted]) ++
        [.saved u.stateText] ∧
        u.network = (s.adopt C k id now).network := ⟨_, rfl, rfl⟩
    obtain ⟨u, hout, hu⟩ := hfile
    refine ⟨u, ?_, hu⟩
    rw [St.file, hout, filterMap_append, getLast?_append]
    rfl

theorem settled_reaches {C : Crypto} {Z : Prop} (hZ : ¬ Z) (h : Reaches C Z s t)
    (hs : Settled s) : Settled t ∧ Lower s t := by
  induction h with
  | refl => exact ⟨hs, .of_network rfl⟩
  | tail _ hstep ih =>
    obtain ⟨hmid, hlow⟩ := ih
    obtain ⟨hend, hlow'⟩ := settled_moves hZ hstep hmid
    exact ⟨hend, hlow.trans hlow'⟩

/-! ### Starts -/

theorem numbered_loaded (C : Crypto) (b : Boot) : (loaded C b).Numbered := by
  have hboot : (boot b).Numbered := fun hin => absurd hin (by simp [boot])
  unfold loaded
  split
  · exact St.numbered_load C _ _ hboot
  · exact hboot

theorem settled_start (C : Crypto) (b : Boot) : Settled (start C b) := by
  obtain ⟨hin, hid, -⟩ := start_network C b
  refine ⟨fun h => ?_, ?_⟩
  · rw [hid]
    exact numbered_loaded C b (hin.symm.trans h)
  · obtain ⟨u, hkept, hout⟩ := start_out C b
    refine ⟨u, ?_, ?_⟩
    · rw [St.file, hout, filterMap_append, getLast?_append]
      rfl
    · rw [St.network, show u.inNet = _ from congrArg St.Kept.inNet hkept,
        show u.netId = _ from congrArg St.Kept.netId hkept,
        show u.netKey = _ from congrArg St.Kept.netKey hkept]
      rfl

/-- A restart finds the network that was left. -/
theorem lower_restart (C : Crypto) (hs : Settled s) (b : Boot) :
    Lower s (s.act C (.restart b)) := by
  intro hin
  obtain ⟨u, hfile, hu⟩ := hs.filed
  simp only [St.network, Prod.mk.injEq] at hu
  obtain ⟨huin, huid, hukey⟩ := hu
  have hload : loaded C { b with arbitration := s.file } = (boot b).load C u.stateText := by
    rw [hfile]
    rfl
  have hkept := St.load_stateText C u (boot b) fun h => by
    rw [huid]
    exact hs.nonzero (huin.symm.trans h)
  rw [huin, hin] at hkept
  obtain ⟨hstart, hid, hkey⟩ := start_network C { b with arbitration := s.file }
  rw [hload] at hstart hid hkey
  refine ⟨hstart.trans (congrArg St.Kept.inNet hkept), .inr ⟨hid.trans ?_, hkey.trans ?_⟩⟩
  · exact (congrArg St.Kept.netId hkept).trans huid
  · exact (congrArg St.Kept.netKey hkept).trans hukey

/-! ### Lives that take no key for the network `0` -/

theorem settled_act (C : Crypto) (hs : Settled s) {a : Act}
    (ha : ∀ ev, a = .step ev → ¬ s.TakesZero C ev) :
    Settled (s.act C a) ∧ Lower s (s.act C a) := by
  cases a with
  | step ev => exact settled_reaches (ha ev rfl) (s.step_reaches C ev) hs
  | restart b => exact ⟨settled_start C _, lower_restart C hs b⟩

/-- A key for the network `0` that is taken leaves the Echo in that network. -/
theorem network_takesZero (C : Crypto) {ev : Ev} (h : s.TakesZero C ev) :
    (s.step C ev).inNet = true ∧ (s.step C ev).netId = 0 := by
  obtain ⟨p, now, ip, nonce, l, g, rfl, hp, hg, hzero, ⟨hto, hinv⟩, hrun, hnet, hopen⟩ := h
  obtain ⟨k, hk⟩ := ne_none_iff_exists'.mp hopen
  have htake : (s.takeKey C g.net g.blob now.1).2.inNet = true ∧
      (s.takeKey C g.net g.blob now.1).2.netId = 0 := by
    have hlow : ¬ (s.inNet = true ∧ s.netId ≤ 0) := by
      rintro ⟨hin, hle⟩
      exact hnet hin (UInt64.le_zero_iff.mp hle)
    rw [hzero, St.takeKey, if_neg (by simp [hrun]), if_neg hlow, hk]
    simp only
    split <;> exact ⟨rfl, rfl⟩
  have hgive : s.step C (.packet p now ip nonce) = s.onGive C l now.1 := by
    show s.onPacket C p now.1 ip nonce = _
    rw [St.onPacket, hp]
    rfl
  rw [hgive, St.onGive, hg]
  simp only
  rw [if_neg (by simpa using hto)]
  split
  · exact htake
  next hpair =>
  obtain ⟨hsome, hlower⟩ := hinv.resolve_left hpair
  obtain ⟨i, hi⟩ := isSome_iff_exists.mp hsome
  simp only [hi]
  rw [if_pos (by simpa using hlower)]
  exact htake

/-- **Networks settle.**  In every life from whatever a first start finds, with any
packets, keys, pairings and restarts none of which takes a key for the network `0`:
in a network its id is not `0`, and an Echo in a network stays in it or goes to a
lower one.  A step that takes such a key ends in the network `0`. -/
theorem network_settles (C : Crypto) (b : Boot) (l m : List Act)
    (h : Clean C (start C b) (l ++ m)) :
    (((start C b).live C l).inNet = true → ((start C b).live C l).netId ≠ 0) ∧
      Lower ((start C b).live C l) ((start C b).live C (l ++ m)) ∧
      ∀ ev, ((start C b).live C l).TakesZero C ev →
        (((start C b).live C l).step C ev).inNet = true ∧
          (((start C b).live C l).step C ev).netId = 0 := by
  obtain ⟨hl, hm⟩ := (Runs.each_append _ l m).mp h
  have hs : Settled ((start C b).live C l) :=
    Runs.invariant (I := Settled) (fun s a hs ha => (settled_act C hs ha).1) (settled_start C b) hl
  have hlow : Lower ((start C b).live C l) (((start C b).live C l).live C m) :=
    Runs.related (I := Settled) (fun s => .of_network rfl) .trans
      (fun s a hs ha => settled_act C hs ha) hs hm
  rw [show (start C b).live C (l ++ m) = ((start C b).live C l).live C m from foldl_append]
  exact ⟨hs.nonzero, hlow, fun ev => network_takesZero C⟩

/-- The key all of whose bytes are `9`, for an Echo all of whose key is `to_`, sealed for
the network `net` by the Echo all of whose key is `2`. -/
def sealedNine (to_ : UInt8) (net : UInt64) : Bytes :=
  giveBytes ⟨.fill 32 to_, net,
    (((Blob.fill 32 2).append (.zero 24)).append (.zero 16)).append (.fill 32 9)⟩

theorem not_takesZero_of_net (C : Crypto) (s : St) (p : Bytes) (now : Instant) (ip : UInt32)
    (nonce : Blob 24) (h : (readHead p).bind (fun r => (readGive r.2).map (·.net)) ≠ some 0) :
    ¬ s.TakesZero C (.packet p now ip nonce) := by
  rintro ⟨p', now', ip', nonce', l, g, heq, hp, hg, hzero, -⟩
  obtain ⟨rfl, -⟩ := Ev.packet.inj heq
  apply h
  rw [hp, bind_some, hg, map_some, hzero]

/-- An Echo starts the network `7`, is given the key of the network `3` while it pairs,
and is started again. -/
def mergeLife : List Act :=
  [.step (.tick (.plain ⟨6000, pos_6000⟩)), .step (.pair ⟨6001, pos_6001⟩)] ++
    [.step (.packet (sealedNine 1 3) ⟨6002, pos_6002⟩ 0 (.zero 24)), .restart (.plain 1)]

theorem clean_mergeLife : Clean .clear (start .clear (.plain 1)) mergeLife := by
  refine ⟨fun ev hev => ?_, fun ev hev => ?_, fun ev hev => ?_, fun ev hev => ?_, trivial⟩
  · obtain rfl := Act.step.inj hev
    rintro ⟨_, _, _, _, _, _, heq, -⟩
    cases heq
  · obtain rfl := Act.step.inj hev
    rintro ⟨_, _, _, _, _, _, heq, -⟩
    cases heq
  · obtain rfl := Act.step.inj hev
    exact not_takesZero_of_net _ _ _ _ _ _ (by decide)
  · cases hev

theorem network_settles_mergeLife :
    ((start .clear (.plain 1)).live .clear mergeLife).netId = 3 ∧
      Lower ((start .clear (.plain 1)).live .clear (mergeLife.take 2))
        ((start .clear (.plain 1)).live .clear mergeLife) :=
  ⟨by decide +kernel,
    (network_settles .clear (.plain 1) (mergeLife.take 2) (mergeLife.drop 2) clean_mergeLife).2.1⟩

/-- While an Echo that is in no network pairs, anyone gives it the key of the network `0`. -/
theorem network_zero :
    ((start .clear (.plain 1)).live .clear [.step (.pair ⟨2, by decide⟩),
      .step (.packet (sealedNine 1 0) ⟨3, by decide⟩ 0 (.zero 24))]).inNet = true ∧
    ((start .clear (.plain 1)).live .clear [.step (.pair ⟨2, by decide⟩),
      .step (.packet (sealedNine 1 0) ⟨3, by decide⟩ 0 (.zero 24))]).netId = 0 := by
  decide

end Hassmic.Arb
