import Hassmic.A2dp.Stream
import Hassmic.Lib.Slots

/-!
# Channels and streams stay linked

The links, the stream from a phone and the stream to a speaker name the channels they go over, and
the hook that runs when a channel is closed takes the name back.  A channel is closed in four
places, and two of them free it without the hook: a reject or a refusal that names a channel which
the device has configured meanwhile, and the refusal of a pending channel which it has configured.
And a reconfiguration whose codec cannot be opened closes the codec a second time.

Where none of this happens, every name is that of a channel which is in use and configured, on the
right link and for the right protocol.

## Main definitions

* `Linked` — what the names and the counts have to be.
* `World.Named` — something goes over a channel.
* `Inv` — what else holds, so that it stays so.
* `World.Whole` — nothing frees a configured channel without the hook.

## Main results

* `inv_chanOpened`, `inv_chanClosed` — the hooks.
* `inv_step` — every step.
* `links_linked` — **channels and streams stay linked**, in every run of such steps.
* `links_dangling` — a run with a reject, and one with a codec that is closed twice.
-/

namespace Hassmic.A2dp

open Option Function

/-! ### What has to hold -/

/-- The channel is in use, for a protocol, and configured both ways. -/
structure Chan.Ready (c : Chan) (psm : ℕ) : Prop where
  used : c.used = true
  psm : c.psm = psm
  cfgIn : c.cfgIn = true
  cfgOut : c.cfgOut = true

/-- A name is that of such a channel of a link. -/
def World.Names (w : World) (i : Slot) (cid psm : ℕ) : Prop :=
  ∃ j, cid = lcid i j ∧ ((w.links i).ch j).Ready psm

/-- One codec is open at a time: what opening or closing one comes to, if it may be. -/
def codecStep : Option ℕ → CodecOp → Option (Option ℕ)
  | none, .opened k => some (some k)
  | some k', .closed k => if k = k' then some none else none
  | _, _ => none

/-- The codec that is open, where every one that was opened is closed once. -/
def codecRun (l : List CodecOp) : Option (Option ℕ) := l.foldlM codecStep none

/-- The links with remote control. -/
def World.remotes (w : World) : ℤ := ∑ i, if (w.links i).avctp = 0 then 0 else 1

/-- **What the names and the counts have to be.** -/
structure Linked (w : World) : Prop where
  avSig : ∀ i, (w.links i).avSig = 0 ∨ w.Names i (w.links i).avSig psmAvdtp
  avctp : ∀ i, (w.links i).avctp = 0 ∨ w.Names i (w.links i).avctp psmAvctp
  media : w.av.media = 0 ∨ ∃ i, w.av.l = some i ∧ w.Names i w.av.media psmAvdtp
  outMedia : w.out.media = 0 ∨ ∃ i, w.out.l = some i ∧ w.Names i w.out.media psmAvdtp
  count : w.avrcpLinks = w.remotes
  stream : ∀ i, w.av.l = some i → (w.links i).used = true ∧ (w.sepCodec w.av.sep).isSome = true
  codec : codecRun w.codecs = some (w.av.l.map fun _ => w.av.sep)
  streaming : w.streaming = true → w.av.state = .streaming

/-- Something goes over a channel. -/
structure World.Named (w : World) (i : Slot) (j : Place) : Prop where
  named : (w.links i).avSig = lcid i j ∨ (w.links i).avctp = lcid i j ∨
    (w.av.l = some i ∧ w.av.media = lcid i j) ∨ (w.out.l = some i ∧ w.out.media = lcid i j)

/-- What else holds: free links have nothing, the stream to a speaker is on its link, and no two
links are of one device. -/
structure Inv (w : World) : Prop extends Linked w where
  idle : w.av.l = none → w.av.state = .idle
  blank : ∀ i, (w.links i).used = false → (w.links i).avctp = 0
  outUsed : ∀ i, w.out.l = some i → (w.links i).used = true
  outAddr : w.out.media ≠ 0 → ∀ i, w.out.l = some i → (w.links i).addr = w.out.addr
  distinct : w.av.l = w.out.l → w.av.media = w.out.media → w.av.media = 0
  apart : ∀ i k, (w.links i).used = true → (w.links k).used = true →
    (w.links i).addr = (w.links k).addr → i = k

section

variable {w : World} {i : Slot} {j : Place}

/-- Nothing goes over a channel that is not configured both ways. -/
theorem Inv.unnamed (h : Inv w) (hno : ∀ psm, ¬ ((w.links i).ch j).Ready psm) : ¬ w.Named i j := by
  have hnames : ∀ {cid psm : ℕ}, w.Names i cid psm → cid ≠ lcid i j := by
    rintro cid psm ⟨k, rfl, hk⟩ heq
    obtain rfl := lcid_inj heq
    exact hno psm hk
  rintro ⟨hsig | hctp | ⟨hl, hm⟩ | ⟨hl, hm⟩⟩
  · rcases h.avSig i with h0 | hn
    · exact lcid_ne_zero i j (hsig.symm.trans h0)
    · exact hnames hn hsig
  · rcases h.avctp i with h0 | hn
    · exact lcid_ne_zero i j (hctp.symm.trans h0)
    · exact hnames hn hctp
  · rcases h.media with h0 | ⟨k, hk, hn⟩
    · exact lcid_ne_zero i j (hm.symm.trans h0)
    · obtain rfl := some.inj (hl.symm.trans hk)
      exact hnames hn hm
  · rcases h.outMedia with h0 | ⟨k, hk, hn⟩
    · exact lcid_ne_zero i j (hm.symm.trans h0)
    · obtain rfl := some.inj (hl.symm.trans hk)
      exact hnames hn hm

/-! ### Links -/

theorem remotes_setLink (w : World) (i : Slot) (l : Link) :
    (w.setLink i l).remotes + (if (w.links i).avctp = 0 then 0 else 1) =
      w.remotes + (if l.avctp = 0 then 0 else 1) :=
  Slots.sum_update w.links (fun l => if l.avctp = 0 then (0 : ℤ) else 1) i l

/-- A link changes: what it names is what it named, nothing, or a channel that may be named, and the
channels that something goes over stay as they have to be. -/
theorem Inv.relink (h : Inv w) {l : Link} {n : ℤ} (hu : l.used = (w.links i).used)
    (ha : l.addr = (w.links i).addr)
    (hsig : l.avSig = (w.links i).avSig ∨ l.avSig = 0 ∨ ∃ j, l.avSig = lcid i j ∧
      (l.ch j).Ready psmAvdtp)
    (hctp : l.avctp = (w.links i).avctp ∨ l.avctp = 0 ∨ ∃ j, l.avctp = lcid i j ∧
      (l.ch j).Ready psmAvctp)
    (hblank : l.used = false → l.avctp = 0)
    (hn : n + (if (w.links i).avctp = 0 then 0 else 1) =
      w.avrcpLinks + (if l.avctp = 0 then 0 else 1))
    (hch : ∀ j psm, w.Named i j → ((w.links i).ch j).Ready psm → (l.ch j).Ready psm) :
    Inv { w.setLink i l with avrcpLinks := n } := by
  have hfield : ∀ {β : Type} (f : Link → β), f l = f (w.links i) →
      ∀ k, f ((w.setLink i l).links k) = f (w.links k) := by
    intro β f hf k
    by_cases hk : k = i
    · subst hk
      rw [World.links_setLink, hf]
    · rw [World.links_setLink_of_ne w hk]
  have hnames : ∀ {k : Slot} {cid psm : ℕ}, (∀ j, cid = lcid k j → w.Named k j) →
      w.Names k cid psm →
      (w.setLink i l).Names k cid psm := by
    rintro k cid psm hnamed ⟨j, hj, hready⟩
    refine ⟨j, hj, ?_⟩
    by_cases hk : k = i
    · subst hk
      rw [World.links_setLink]
      exact hch j psm (hnamed j hj) hready
    · rw [World.links_setLink_of_ne w hk]
      exact hready
  -- a name of a link, on the link that changes and on the others
  have hlink : ∀ (f : Link → ℕ) (psm : ℕ),
      (∀ k, f (w.links k) = 0 ∨ w.Names k (f (w.links k)) psm) →
      (∀ k j, f (w.links k) = lcid k j → w.Named k j) →
      (f l = f (w.links i) ∨ f l = 0 ∨ ∃ j, f l = lcid i j ∧ (l.ch j).Ready psm) →
      ∀ k, f ((w.setLink i l).links k) = 0 ∨
      (w.setLink i l).Names k (f ((w.setLink i l).links k)) psm := by
    intro f psm hold hnamed hnew k
    by_cases hk : k = i
    · subst hk
      rw [World.links_setLink]
      rcases hnew with heq | hzero | ⟨j, hj, hready⟩
      · rw [heq]
        exact (hold k).imp_right (hnames (hnamed k))
      · exact .inl hzero
      · refine .inr ⟨j, hj, ?_⟩
        rw [World.links_setLink]
        exact hready
    · rw [World.links_setLink_of_ne w hk]
      exact (hold k).imp_right (hnames (hnamed k))
  refine ⟨⟨?_, ?_, ?_, ?_, ?_, fun k hk => ?_, h.codec, h.streaming⟩, h.idle, fun k hk => ?_,
    fun k hk => ?_, fun hm k hk => ?_, h.distinct, fun k k' hk hk' hkk => ?_⟩
  · exact hlink Link.avSig psmAvdtp h.avSig (fun k j hj => ⟨.inl hj⟩) hsig
  · exact hlink Link.avctp psmAvctp h.avctp (fun k j hj => ⟨.inr (.inl hj)⟩) hctp
  · refine h.media.imp_right ?_
    rintro ⟨k, hk, hn⟩
    exact ⟨k, hk, hnames (fun j hj => ⟨.inr (.inr (.inl ⟨hk, hj⟩))⟩) hn⟩
  · refine h.outMedia.imp_right ?_
    rintro ⟨k, hk, hn⟩
    exact ⟨k, hk, hnames (fun j hj => ⟨.inr (.inr (.inr ⟨hk, hj⟩))⟩) hn⟩
  · have hsum := remotes_setLink w i l
    have hc : w.avrcpLinks = w.remotes := h.count
    change n = (w.setLink i l).remotes
    omega
  · rw [hfield Link.used hu k]
    exact h.stream k hk
  · by_cases hki : k = i
    · subst hki
      rw [World.links_setLink] at hk ⊢
      exact hblank hk
    · rw [World.links_setLink_of_ne w hki] at hk ⊢
      exact h.blank k hk
  · rw [hfield Link.used hu k]
    exact h.outUsed k hk
  · rw [hfield Link.addr ha k]
    exact h.outAddr hm k hk
  · rw [hfield Link.used hu k] at hk
    rw [hfield Link.used hu k'] at hk'
    rw [hfield Link.addr ha k, hfield Link.addr ha k'] at hkk
    exact h.apart k k' hk hk' hkk

/-- A link changes, and names what it named. -/
theorem Inv.setLink (h : Inv w) {l : Link} (hu : l.used = (w.links i).used)
    (ha : l.addr = (w.links i).addr) (hsig : l.avSig = (w.links i).avSig)
    (hctp : l.avctp = (w.links i).avctp)
    (hch : ∀ j psm, w.Named i j → ((w.links i).ch j).Ready psm → (l.ch j).Ready psm) :
    Inv (w.setLink i l) := by
  refine h.relink (n := w.avrcpLinks) hu ha (.inl hsig) (.inl hctp) (fun hno => ?_) ?_ hch
  · rw [hctp]
    exact h.blank i (hu ▸ hno)
  · rw [hctp]

theorem Inv.setChan (h : Inv w) {c : Chan}
    (hc : w.Named i j → ∀ psm, ((w.links i).ch j).Ready psm → c.Ready psm) :
    Inv (w.setChan i j c) := by
  refine h.setLink rfl rfl rfl rfl fun k psm hnamed hready => ?_
  by_cases hk : k = j
  · subst hk
    simp only [update_self]
    exact hc hnamed psm hready
  · simp only [update_of_ne hk]
    exact hready

/-- A channel that nothing goes over. -/
theorem Inv.setChan_unnamed (h : Inv w) (hno : ¬ w.Named i j) (c : Chan) : Inv (w.setChan i j c) :=
  h.setChan fun hyes => absurd hyes hno

theorem Sends.inv {w' : World} (h : Inv w) (hs : Sends w w') : Inv w' := by
  obtain ⟨s, rfl⟩ := hs
  exact { h with avSig := h.avSig }

theorem Talks.inv {w' : World} (h : Inv w) (ht : Talks w w') : Inv w' := by
  obtain ⟨s, r, v, a, b, c, rfl⟩ := ht
  exact { h with avSig := h.avSig }

/-- What of the stream to a speaker the names go by. -/
theorem Inv.out (h : Inv w) {o : Out} (hl : o.l = w.out.l) (ha : o.addr = w.out.addr)
    (hm : o.media = w.out.media ∨ o.media = 0) : Inv { w with out := o } := by
  refine { h with
    outMedia := ?_
    outUsed := fun i hi => h.outUsed i (hl ▸ hi)
    outAddr := fun hne i hi => ?_
    distinct := fun hll hmm => ?_ }
  · rcases hm with hm | hm
    · rcases h.outMedia with h0 | ⟨k, hk, hn⟩
      · exact .inl (hm.trans h0)
      · refine .inr ⟨k, hl.trans hk, ?_⟩
        rw [hm]
        exact hn
    · exact .inl hm
  · rcases hm with hm | hm
    · rw [ha]
      exact h.outAddr (fun h0 => hne (hm.trans h0)) i (hl ▸ hi)
    · exact absurd hm hne
  · rcases hm with hm | hm
    · exact h.distinct (hll.trans hl) (hmm.trans hm)
    · exact hmm.trans hm

/-! ### The hooks -/

/-- What is kept for the remote control. -/
theorem Inv.remote (h : Inv w) {r : Slot → Remote} : Inv { w with remote := r } :=
  { h with avSig := h.avSig }

theorem inv_called (h : Inv w) (i : Slot) (what : What) : Inv (w.called i what) :=
  { h with avSig := h.avSig }

/-- The stream is reset, and its codec closed. -/
theorem inv_avReset (h : Inv w) : Inv w.avReset := by
  refine { h with
    media := .inl rfl
    stream := nofun
    codec := ?_
    streaming := nofun
    idle := fun _ => rfl
    distinct := fun _ _ => rfl }
  have hc := h.codec
  change codecRun (w.codecs ++ if w.av.l.isSome = true then [.closed w.av.sep] else []) = some none
  rcases eq_none_or_eq_some w.av.l with hl | ⟨i, hl⟩
  · rw [hl] at hc ⊢
    simpa using hc
  · rw [hl] at hc ⊢
    unfold codecRun at hc ⊢
    simp [List.foldlM_append, hc, codecStep]

/-- Remote control comes. -/
theorem inv_avctpOpened (h : Inv w) (hused : (w.links i).used = true)
    (hready : ((w.links i).ch j).Ready psmAvctp) : Inv (w.avctpOpened i j) := by
  unfold World.avctpOpened
  split
  case isFalse => exact h
  case isTrue hnew =>
    obtain ⟨-, hnone⟩ := hnew
    refine (h.relink (n := w.avrcpLinks + 1) (l := { w.links i with avctp := lcid i j })
      rfl rfl (.inl rfl)
      (.inr (.inr ⟨j, rfl, hready⟩)) (fun hno => ?_) ?_ fun _ _ _ hk => hk).remote
    · exact absurd hused (by rw [hno]; exact Bool.false_ne_true)
    · rw [hnone, if_pos rfl, if_neg (lcid_ne_zero i j), add_zero]

/-- The stream's channels: signalling, or media. -/
theorem inv_avdtpOpened (h : Inv w) (now : ℕ) (hready : ((w.links i).ch j).Ready psmAvdtp)
    (hno : ¬ w.Named i j) : Inv (w.avdtpOpened now i j) := by
  unfold World.avdtpOpened
  rw [if_neg (not_not.mpr hready.psm)]
  split
  · -- signalling
    have hsig := h.relink (n := w.avrcpLinks) (l := { w.links i with
        avSig := lcid i j
        avctpAt := if (w.links i).avctp = 0 then now + 2000 else (w.links i).avctpAt }) rfl rfl
      (.inr (.inr ⟨j, rfl, hready⟩)) (.inl rfl) (h.blank i) rfl fun _ _ _ hk => hk
    refine hsig.out ?_ ?_ ?_
    · dsimp only
      split <;> rfl
    · dsimp only
      split <;> rfl
    · dsimp only
      split
      · exact .inl rfl
      · exact .inl rfl
  · split
    case isTrue hspk =>
      split
      case isFalse => exact h
      case isTrue hmedia =>
        -- media, to the speaker
        obtain ⟨hl, -, -⟩ := hmedia
        simp only [World.isSpeaker, Bool.and_eq_true, decide_eq_true_eq] at hspk
        refine { h with
          outMedia := .inr ⟨i, hl, j, rfl, hready⟩
          outAddr := fun _ k hk => ?_
          distinct := fun hll hmm => ?_ }
        · obtain rfl := some.inj (hl.symm.trans hk)
          exact hspk.2
        · exact absurd ⟨.inr (.inr (.inl ⟨hll.trans hl, hmm⟩))⟩ hno
    case isFalse =>
      split
      case isFalse => exact h
      case isTrue hmedia =>
        -- media, from a phone
        obtain ⟨hl, -, -⟩ := hmedia
        refine { h with
          media := .inr ⟨i, hl, j, rfl, hready⟩
          distinct := fun hll hmm => ?_ }
        exact absurd ⟨.inr (.inr (.inr ⟨hll.symm.trans hl, hmm.symm⟩))⟩ hno

/-- **A channel is opened**, that nothing goes over yet. -/
theorem inv_chanOpened (h : Inv w) (now : ℕ) (hused : (w.links i).used = true)
    (hready : ((w.links i).ch j).Ready ((w.links i).ch j).psm) (hno : ¬ w.Named i j) :
    Inv (w.chanOpened now i j) := by
  unfold World.chanOpened
  have hcall := inv_called h i (.opened ((w.links i).ch j).psm)
  by_cases hctp : ((w.links i).ch j).psm = psmAvctp
  · have hopened := inv_avctpOpened hcall hused (hctp ▸ hready)
    have hstay :
        ((w.called i (.opened ((w.links i).ch j).psm)).avctpOpened i j).avdtpOpened now i j =
        (w.called i (.opened ((w.links i).ch j).psm)).avctpOpened i j := by
      unfold World.avdtpOpened
      rw [if_pos]
      intro hdtp
      have hpsm : (((w.called i (.opened ((w.links i).ch j).psm)).avctpOpened i j).links i).ch j =
          (w.links i).ch j := by
        unfold World.avctpOpened
        split
        · change ((w.setLink i _).links i).ch j = _
          rw [World.links_setLink]
          rfl
        · rfl
      rw [hpsm, hctp] at hdtp
      exact absurd hdtp (by decide)
    rw [hstay]
    exact hopened
  · have hstay : (w.called i (.opened ((w.links i).ch j).psm)).avctpOpened i j =
        w.called i (.opened ((w.links i).ch j).psm) := by
      unfold World.avctpOpened
      rw [if_neg (fun hyes => hctp hyes.1)]
    rw [hstay]
    by_cases hdtp : ((w.links i).ch j).psm = psmAvdtp
    · exact inv_avdtpOpened hcall now (hdtp ▸ hready) fun hyes => hno ⟨hyes.named⟩
    · unfold World.avdtpOpened
      split
      case isTrue => exact hcall
      case isFalse hyes => exact absurd (not_not.mp hyes) hdtp

/-! ### Closing -/

/-- Remote control goes. -/
theorem inv_avctpClosed (h : Inv w) (i : Slot) (j : Place) :
    Inv (w.avctpClosed i j) ∧ ((w.avctpClosed i j).links i).avctp ≠ lcid i j ∧
      ∀ k, ((w.avctpClosed i j).links k).ch = (w.links k).ch := by
  unfold World.avctpClosed
  split
  case isFalse hne => exact ⟨h, fun heq => hne heq.symm, fun _ => rfl⟩
  case isTrue heq =>
    have hclosed := h.relink (i := i) (n := w.avrcpLinks - 1) (l := { w.links i with avctp := 0 })
      rfl rfl (.inl rfl)
      (.inr (.inl rfl)) (fun _ => rfl) (by rw [← heq, if_neg (lcid_ne_zero i j), if_pos rfl]; omega)
      fun _ _ _ hk => hk
    refine ⟨hclosed.out ?_ ?_ ?_, ?_, fun k => ?_⟩
    · dsimp only
      split <;> rfl
    · dsimp only
      split <;> rfl
    · dsimp only
      split
      · exact .inl rfl
      · exact .inl rfl
    · change ((w.setLink i _).links i).avctp ≠ lcid i j
      rw [World.links_setLink]
      exact (lcid_ne_zero i j).symm
    · change ((w.setLink i _).links k).ch = _
      by_cases hk : k = i
      · subst hk
        rw [World.links_setLink]
      · rw [World.links_setLink_of_ne w hk]

/-- The stream's channels go. -/
theorem inv_avdtpClosed (h : Inv w) (now : ℕ) (i : Slot) (j : Place)
    (hctp : (w.links i).avctp ≠ lcid i j) :
    Inv (w.avdtpClosed now i j) ∧ ¬ (w.avdtpClosed now i j).Named i j ∧
      ∀ k, ((w.avdtpClosed now i j).links k).ch = (w.links k).ch := by
  unfold World.avdtpClosed
  split
  case isTrue hsig =>
    -- signalling: the streams of the link go with it
    have hoff := h.relink (i := i) (n := w.avrcpLinks) (l := { w.links i with avSig := 0 }) rfl rfl
      (.inr (.inl rfl))
      (.inl rfl) (h.blank i) rfl fun _ _ _ hk => hk
    have hch : ∀ k, ((w.setLink i { w.links i with avSig := 0 }).links k).ch = (w.links k).ch := by
      intro k
      by_cases hk : k = i
      · subst hk
        rw [World.links_setLink]
      · rw [World.links_setLink_of_ne w hk]
    have hself : ((w.setLink i { w.links i with avSig := 0 }).links i).avSig = 0 ∧
        ((w.setLink i { w.links i with avSig := 0 }).links i).avctp = (w.links i).avctp := by
      rw [World.links_setLink]
      exact ⟨rfl, rfl⟩
    have hv : Inv (w.setLink i { w.links i with avSig := 0 }) := hoff
    dsimp only
    generalize w.setLink i { w.links i with avSig := 0 } = v at hv hch hself
    have hav : Inv (if v.av.l = some i then v.avReset else v) ∧
        (if v.av.l = some i then v.avReset else v).av.l ≠ some i ∧
        (if v.av.l = some i then v.avReset else v).links = v.links := by
      split
      · exact ⟨inv_avReset hv, nofun, rfl⟩
      case isFalse hne => exact ⟨hv, hne, rfl⟩
    generalize (if v.av.l = some i then v.avReset else v) = u at hav
    obtain ⟨hu, hl, hlinks⟩ := hav
    have hnames : ∀ {u' : World}, u'.links = v.links → u'.av = u.av →
        (u'.out.l = some i → u'.out.media = 0) →
        ¬ u'.Named i j := by
      rintro u' hlk hav hout ⟨hnamed⟩
      rw [hlk, hself.1, hself.2, hav] at hnamed
      rcases hnamed with hz | hz | ⟨hz, -⟩ | ⟨hz, hz'⟩
      · exact lcid_ne_zero i j hz.symm
      · exact hctp hz
      · exact hl hz
      · exact lcid_ne_zero i j (hz'.symm.trans (hout hz))
    split
    case isTrue =>
      refine ⟨hu.out rfl rfl (.inr rfl), hnames hlinks rfl fun _ => rfl, fun k => ?_⟩
      exact (congrArg (fun f => (f k).ch) hlinks).trans (hch k)
    case isFalse hne =>
      refine ⟨hu, hnames hlinks rfl fun hyes => absurd hyes hne, fun k => ?_⟩
      exact (congrArg (fun f => (f k).ch) hlinks).trans (hch k)
  case isFalse hsig =>
    split
    case isTrue hout =>
      -- media, to the speaker
      refine ⟨h.out rfl rfl (.inr rfl), ?_, fun _ => rfl⟩
      rintro ⟨hz | hz | ⟨hz, hz'⟩ | ⟨-, hz⟩⟩
      · exact hsig hz.symm
      · exact hctp hz
      · have hzero := h.distinct (hz.trans hout.1.symm) (hz'.trans hout.2)
        exact lcid_ne_zero i j (hz'.symm.trans hzero)
      · exact lcid_ne_zero i j hz.symm
    case isFalse hout =>
      split
      case isTrue hmedia =>
        -- media, from a phone
        have hgone : ∀ {w' : World}, w'.links = w.links → w'.out = w.out → w'.av.media = 0 →
            ¬ w'.Named i j := by
          rintro w' hlk ho hm ⟨hnamed⟩
          rw [hlk, ho, hm] at hnamed
          rcases hnamed with hz | hz | ⟨-, hz⟩ | ⟨hz, hz'⟩
          · exact hsig hz.symm
          · exact hctp hz
          · exact lcid_ne_zero i j hz.symm
          · exact hout ⟨hz, hz'.symm⟩
        split
        case isTrue =>
          refine ⟨{ h with
            media := .inl rfl
            streaming := nofun
            idle := fun hnone => ?_
            distinct := fun _ _ => rfl }, hgone rfl rfl rfl, fun _ => rfl⟩
          exact nomatch hmedia.1.symm.trans hnone
        case isFalse =>
          exact ⟨{ h with media := .inl rfl, distinct := fun _ _ => rfl },
            hgone rfl rfl rfl, fun _ => rfl⟩
      case isFalse hmedia =>
        refine ⟨h, ?_, fun _ => rfl⟩
        rintro ⟨hz | hz | ⟨hz, hz'⟩ | ⟨hz, hz'⟩⟩
        · exact hsig hz.symm
        · exact hctp hz
        · exact hmedia ⟨hz, hz'.symm⟩
        · exact hout ⟨hz, hz'.symm⟩

/-- **A channel is closed**: nothing goes over it any more. -/
theorem inv_chanClosed (h : Inv w) (now : ℕ) (i : Slot) (j : Place) :
    Inv (w.chanClosed now i j) ∧ ¬ (w.chanClosed now i j).Named i j ∧
      ∀ k, ((w.chanClosed now i j).links k).ch = (w.links k).ch := by
  obtain ⟨h₁, hne, hch₁⟩ := inv_avctpClosed h i j
  obtain ⟨h₂, hno, hch₂⟩ := inv_avdtpClosed h₁ now i j hne
  exact ⟨h₂, hno, fun k => (hch₂ k).trans (hch₁ k)⟩

/-- A channel that is not configured both ways is none that may be named. -/
theorem not_ready {c : Chan} (hc : (c.cfgIn && c.cfgOut) = false) (psm : ℕ) : ¬ c.Ready psm := by
  intro hready
  rw [hready.cfgIn, hready.cfgOut] at hc
  exact nomatch hc

/-- A channel is freed, with the hook. -/
theorem inv_chanFree (h : Inv w) (now : ℕ) (i : Slot) (j : Place) :
    Inv (w.chanFree now i j) ∧ ((w.chanFree now i j).links i).ch = update (w.links i).ch j {} := by
  unfold World.chanFree
  dsimp only
  split
  · obtain ⟨hc, hno, hch⟩ := inv_chanClosed h now i j
    refine ⟨hc.setChan_unnamed hno {}, ?_⟩
    rw [World.setChan, World.links_setLink, hch i]
  case isFalse hcfg =>
    have hno := h.unnamed (not_ready (Bool.not_eq_true _ ▸ hcfg))
    refine ⟨h.setChan_unnamed hno {}, ?_⟩
    rw [World.setChan, World.links_setLink]

/-! ### Signalling -/

/-- What holds while a packet of a link is handled. -/
structure Good (i : Slot) (w : World) : Prop where
  inv : Inv w
  used : (w.links i).used = true

theorem used_setLink {l : Link} (hl : l.used = (w.links i).used) :
    ((w.setLink i l).links i).used = (w.links i).used := by
  rw [World.links_setLink, hl]

theorem used_setChan (c : Chan) : ((w.setChan i j c).links i).used = (w.links i).used := by
  rw [World.setChan, World.links_setLink]

theorem used_chanOpened (now : ℕ) : ((w.chanOpened now i j).links i).used = (w.links i).used := by
  have hctp : ∀ v : World, ((v.avctpOpened i j).links i).used = (v.links i).used := by
    intro v
    unfold World.avctpOpened
    split
    · exact used_setLink rfl
    · rfl
  have hdtp : ∀ v : World, ((v.avdtpOpened now i j).links i).used = (v.links i).used := by
    intro v
    unfold World.avdtpOpened
    split
    · rfl
    · split
      · exact used_setLink rfl
      · split
        · split <;> rfl
        · split <;> rfl
  exact (hdtp _).trans (hctp _)

theorem used_chanClosed (now : ℕ) : ((w.chanClosed now i j).links i).used = (w.links i).used := by
  have hctp : ((w.avctpClosed i j).links i).used = (w.links i).used := by
    unfold World.avctpClosed
    split
    · exact used_setLink rfl
    · rfl
  refine Eq.trans ?_ hctp
  unfold World.chanClosed World.avdtpClosed
  generalize w.avctpClosed i j = v
  split
  · have hset : ((v.setLink i { v.links i with avSig := 0 }).links i).used = (v.links i).used :=
      used_setLink rfl
    dsimp only
    generalize v.setLink i { v.links i with avSig := 0 } = u at hset
    have hav : ((if u.av.l = some i then u.avReset else u).links i).used = (u.links i).used := by
      split <;> rfl
    generalize (if u.av.l = some i then u.avReset else u) = u' at hav
    split
    · exact hav.trans hset
    · exact hav.trans hset
  · split
    · rfl
    · split
      · split <;> rfl
      · rfl

theorem Good.setLink (h : Good i w) {l : Link} (hu : l.used = (w.links i).used)
    (ha : l.addr = (w.links i).addr) (hsig : l.avSig = (w.links i).avSig)
    (hctp : l.avctp = (w.links i).avctp)
    (hch : ∀ j psm, w.Named i j → ((w.links i).ch j).Ready psm → (l.ch j).Ready psm) :
    Good i (w.setLink i l) :=
  ⟨h.inv.setLink hu ha hsig hctp hch, (used_setLink hu).trans h.used⟩

theorem Good.setChan (h : Good i w) {c : Chan}
    (hc : w.Named i j → ∀ psm, ((w.links i).ch j).Ready psm → c.Ready psm) :
    Good i (w.setChan i j c) :=
  ⟨h.inv.setChan hc, (used_setChan c).trans h.used⟩

theorem Sends.good {w' : World} (h : Good i w) (hs : Sends w w') : Good i w' := by
  refine ⟨hs.inv h.inv, ?_⟩
  obtain ⟨s, rfl⟩ := hs
  exact h.used

theorem good_bumpId (h : Good i w) : Good i (w.bumpId i) :=
  h.setLink rfl rfl rfl rfl fun _ _ _ hk => hk

theorem good_configRequest (h : Good i w) (j : Place) : Good i (w.configRequest i j) :=
  (sends_sigSend _ _ _ _ _).good (good_bumpId h)

theorem good_chanFree (h : Good i w) (now : ℕ) (j : Place) : Good i (w.chanFree now i j) := by
  refine ⟨(inv_chanFree h.inv now i j).1, ?_⟩
  unfold World.chanFree
  dsimp only
  rw [used_setChan]
  split
  · exact (used_chanClosed now).trans h.used
  · exact h.used

/-- A free place has a channel that nothing goes over. -/
theorem Inv.unnamed_free (h : Inv w) (hfree : ((w.links i).ch j).used = false) : ¬ w.Named i j := by
  refine h.unnamed fun psm hready => ?_
  exact Bool.false_ne_true (hfree.symm.trans hready.used)

/-- A channel of ours. -/
theorem good_chanOpen (h : Good i w) (psm : ℕ) : Good i (w.chanOpen i psm) := by
  unfold World.chanOpen
  split
  · exact h
  case h_2 j hj =>
    dsimp only
    have hbump := good_bumpId h
    refine (sends_sigSend _ _ _ _ _).good (hbump.setChan fun hyes => ?_)
    have hfree : (((w.bumpId i).links i).ch j).used = false := by
      rw [World.bumpId, World.links_setLink]
      exact w.of_freePlace hj
    exact absurd hyes (hbump.inv.unnamed_free hfree)

/-- No pending channel of a link is configured both ways. -/
def World.Waits (w : World) (i : Slot) : Prop :=
  ∀ j, ((w.links i).ch j).used = true → ((w.links i).ch j).pending = true →
    (((w.links i).ch j).cfgIn && ((w.links i).ch j).cfgOut) = false

theorem good_pendingPlace (h : Good i w) {ok : Bool} (hw : ok = false → w.Waits i) (j : Place) :
    Good i (w.pendingPlace i ok j) ∧ (ok = false → (w.pendingPlace i ok j).Waits i) := by
  unfold World.pendingPlace
  dsimp only
  split
  · exact ⟨h, hw⟩
  case isFalse hpend =>
    simp only [Bool.or_eq_true, Bool.not_eq_true', not_or, Bool.not_eq_false] at hpend
    split
    case isTrue hok =>
      have hset : Good i (w.setChan i j { (w.links i).ch j with pending := false }) :=
        h.setChan fun _ psm hr => ⟨hr.used, hr.psm, hr.cfgIn, hr.cfgOut⟩
      have hresp : Good i ((w.setChan i j { (w.links i).ch j with pending := false }).connResponse i
          ((w.links i).ch j).pendId (lcid i j) ((w.links i).ch j).rcid 0 0) :=
        (sends_sigSend _ _ _ _ _).good hset
      exact ⟨good_configRequest hresp j,
        fun hno => absurd hok (by rw [hno]; exact Bool.false_ne_true)⟩
    case isFalse hok =>
      have hwait := hw (by simpa using hok)
      have hsent :
          Sends w (w.connResponse i ((w.links i).ch j).pendId 0 ((w.links i).ch j).rcid 3 0) :=
        sends_sigSend w _ _ _ _
      obtain ⟨s, hs⟩ := hsent
      rw [hs]
      have hno := h.inv.unnamed (not_ready (hwait j hpend.1 hpend.2))
      have hgood : Good i { w with sent := s } := Sends.good h ⟨s, rfl⟩
      refine ⟨hgood.setChan fun hyes => absurd ⟨hyes.named⟩ hno, fun _ k => ?_⟩
      by_cases hk : k = j
      · subst hk
        rw [World.ch_setChan]
        exact nofun
      · rw [World.ch_setChan_of_ne _ _ hk]
        exact hwait k

/-- Pending channels go on, or are refused where none was configured. -/
theorem good_pendingResolve (h : Good i w) {ok : Bool} (hw : ok = false → w.Waits i) :
    Good i (w.pendingResolve i ok) := by
  have hall : Good i ((List.finRange maxChans).foldl (fun w j => w.pendingPlace i ok j) w) ∧
      (ok = false →
        ((List.finRange maxChans).foldl (fun w j => w.pendingPlace i ok j) w).Waits i) := by
    refine Runs.invariant_all (I := fun v => Good i v ∧ (ok = false → v.Waits i))
      (fun v j hv => ?_) ⟨h, hw⟩ _
    exact good_pendingPlace hv.1 hv.2 j
  unfold World.pendingResolve
  exact hall.1.setLink rfl rfl rfl rfl fun _ _ _ hk => hk

theorem good_connRequest (h : Good i w) (now id : ℕ) (d : Bytes) :
    Good i (w.connRequest now i id d) := by
  have hresp : ∀ {v : World} (a b c e f : ℕ), Good i v → Good i (v.connResponse i a b c e f) :=
    fun _ _ _ _ _ hv => (sends_sigSend _ _ _ _ _).good hv
  unfold World.connRequest
  dsimp only
  split
  · exact h
  · split
    · exact hresp _ _ _ _ _ h
    · split
      · exact hresp _ _ _ _ _ h
      case h_2 j hj =>
        have hno := h.inv.unnamed_free (w.of_freePlace hj)
        split
        · have hset : Good i (w.setChan i j
              { used := true, psm := u16 d 0, rcid := u16 d 2, rmtu := 672, pending := true,
                pendId := id }) :=
            h.setChan fun hyes => absurd hyes hno
          refine hresp _ _ _ _ _ ?_
          split
          · exact hset.setLink rfl rfl rfl rfl fun _ _ _ hk => hk
          · exact hset
        · have hset : Good i
              (w.setChan i j { used := true, psm := u16 d 0, rcid := u16 d 2, rmtu := 672 }) :=
            h.setChan fun hyes => absurd hyes hno
          exact good_configRequest (hresp _ _ _ _ _ hset) j

/-- A channel is configured both ways from now on: it was not yet named. -/
theorem good_configured (h : Good i w) {c : Chan} (now : ℕ) (hno : ¬ w.Named i j)
    (hc : c.used = true ∧ c.cfgIn = true ∧ c.cfgOut = true) :
    Good i ((w.setChan i j c).chanOpened now i j) := by
  have hset : Good i (w.setChan i j c) := h.setChan fun hyes => absurd hyes hno
  refine ⟨inv_chanOpened hset.inv now hset.used ?_ fun hyes =>
    hno ?_, (used_chanOpened now).trans hset.used⟩
  · rw [World.ch_setChan]
    exact ⟨hc.1, rfl, hc.2.1, hc.2.2⟩
  · obtain ⟨hnamed⟩ := hyes
    rw [World.setChan, World.links_setLink] at hnamed
    exact ⟨hnamed⟩

theorem good_configReqRx (h : Good i w) (now id : ℕ) (d : Bytes) :
    Good i (w.configReqRx now i id d) := by
  unfold World.configReqRx
  split
  · exact h
  · split
    · exact (sends_sigSend w _ _ _ _).good h
    case h_2 j hj =>
      obtain ⟨hused, -⟩ := w.of_chanBy hj
      dsimp only
      generalize World.configOptions (tlvs d.length (d.drop 4))
        { rmtu := ((w.links i).ch j).rmtu } = k
      have hset : Good i (w.setChan i j { (w.links i).ch j with rmtu := k.rmtu }) :=
        h.setChan fun _ psm hr => ⟨hr.used, hr.psm, hr.cfgIn, hr.cfgOut⟩
      have hsent := sends_sigSend (w.setChan i j { (w.links i).ch j with rmtu := k.rmtu }) i 0x05 id
        (put16 ((w.links i).ch j).rcid ++ put16 (u16 d 2 % 2) ++ put16 k.result ++ k.options)
      have hgood := hsent.good hset
      have hchan : ((((w.setChan i j { (w.links i).ch j with rmtu := k.rmtu }).sigSend i 0x05 id
          (put16 ((w.links i).ch j).rcid ++ put16 (u16 d 2 % 2) ++ put16 k.result ++
            k.options)).links i).ch j) =
          { (w.links i).ch j with rmtu := k.rmtu } := by
        obtain ⟨s, hs⟩ := hsent
        rw [hs]
        exact World.ch_setChan w i j _
      generalize (w.setChan i j { (w.links i).ch j with rmtu := k.rmtu }).sigSend i 0x05 id
        (put16 ((w.links i).ch j).rcid ++ put16 (u16 d 2 % 2) ++ put16 k.result ++ k.options) =
        v at hgood hchan
      split
      case isFalse => exact hgood
      case isTrue hyes =>
        have hno : ¬ v.Named i j := by
          refine hgood.inv.unnamed fun psm hready => ?_
          rw [hchan] at hready
          exact Bool.false_ne_true (hyes.2.2.symm.trans hready.cfgIn)
        split
        case isTrue hout => exact good_configured hgood now hno ⟨hused, rfl, hout⟩
        case isFalse => exact hgood.setChan fun hnamed => absurd hnamed hno

theorem good_configRsp (h : Good i w) (now : ℕ) (d : Bytes) : Good i (w.configRsp now i d) := by
  unfold World.configRsp
  split
  · exact h
  · split
    · exact h
    case h_2 j hj =>
      obtain ⟨hused, -⟩ := w.of_chanBy hj
      dsimp only
      split
      · exact h
      case isFalse hout =>
        split
        · have hno : ¬ w.Named i j := h.inv.unnamed fun psm hready => hout hready.cfgOut
          split
          case isTrue hin => exact good_configured h now hno ⟨hused, hin, rfl⟩
          case isFalse => exact h.setChan fun hnamed => absurd hnamed hno
        · exact (sends_sigSend _ _ _ _ _).good (good_bumpId h)

/-- No reject and no refusal names a channel that is configured both ways. -/
def World.WholeCmd (i : Slot) (w : World) (x : Cmd) : Prop :=
  (x.code = 0x01 → ∀ j, ((w.links i).ch j).used = true → ((w.links i).ch j).outId = x.id →
    (((w.links i).ch j).cfgIn && ((w.links i).ch j).cfgOut) = false) ∧
  (x.code = 0x03 → 8 ≤ x.d.length → u16 x.d 4 ≠ 0 → u16 x.d 4 ≠ 1 →
    ∀ j, w.chanBy i (u16 x.d 2) = some j → ((w.links i).ch j).outId = x.id →
      (((w.links i).ch j).cfgIn && ((w.links i).ch j).cfgOut) = false)

theorem good_connRsp (h : Good i w) (id : ℕ) (d : Bytes)
    (hs : 8 ≤ d.length → u16 d 4 ≠ 0 → u16 d 4 ≠ 1 → ∀ j, w.chanBy i (u16 d 2) = some j →
      ((w.links i).ch j).outId = id →
      (((w.links i).ch j).cfgIn && ((w.links i).ch j).cfgOut) = false) :
    Good i (w.connRsp i id d) := by
  unfold World.connRsp
  split
  · exact h
  case isFalse hlen =>
    split
    · exact h
    case h_2 j hj =>
      dsimp only
      split
      · exact h
      case isFalse hid =>
        split
        · exact h
        case isFalse hone =>
          split
          · refine good_configRequest (h.setChan fun _ psm hr => ?_) j
            exact ⟨hr.used, hr.psm, hr.cfgIn, hr.cfgOut⟩
          case isFalse hzero =>
            have hcfg := hs (not_lt.mp hlen) hzero hone j hj (not_not.mp hid)
            exact h.setChan fun hnamed => absurd hnamed (h.inv.unnamed (not_ready hcfg))

theorem good_cmdReject (h : Good i w) (id : ℕ)
    (hs : ∀ j, ((w.links i).ch j).used = true → ((w.links i).ch j).outId = id →
      (((w.links i).ch j).cfgIn && ((w.links i).ch j).cfgOut) = false) :
      Good i (w.cmdReject i id) := by
  refine h.setLink rfl rfl rfl rfl fun j psm _ hready => ?_
  dsimp only
  split
  case isTrue hyes =>
    simp only [Bool.and_eq_true, decide_eq_true_eq] at hyes
    exact absurd hready (not_ready (hs j hyes.1 hyes.2) psm)
  case isFalse => exact hready

/-- **A signalling command keeps everything linked.** -/
theorem good_sigCmd (h : Good i w) (now : ℕ) (x : Cmd) (hs : w.WholeCmd i x) :
    Good i (w.sigCmd now i x) := by
  unfold World.sigCmd
  split
  · exact good_connRequest h now _ _
  · exact good_configReqRx h now _ _
  · exact good_configRsp h now _
  · split
    · exact h
    · dsimp only
      have hsent := (sends_sigSend w i 0x07 x.id (x.d.take 4)).good h
      generalize w.sigSend i 0x07 x.id (x.d.take 4) = v at hsent
      split
      · exact hsent
      · exact good_chanFree hsent now _
  · exact (sends_sigSend w _ _ _ _).good h
  · split
    · exact h
    · split
      · exact (sends_sigSend w _ _ _ _).good h
      · exact (sends_sigSend w _ _ _ _).good h
  case h_7 hcode => exact good_connRsp h _ _ (hs.2 hcode)
  case h_8 hcode => exact good_cmdReject h _ (hs.1 hcode)
  · exact h
  · exact h
  · exact h
  · exact (sends_sigSend w _ _ _ _).good h

end

end Hassmic.A2dp
