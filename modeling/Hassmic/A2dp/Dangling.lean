import Hassmic.A2dp.Linked

/-!
# Runs in which everything stays linked

What is left after the hooks and the signalling: the commands of the streams, links that come and
go, and the upkeep.  A link that is gone has had all its channels freed with the hook, so nothing
names it any more.

## Main definitions

* `World.Whole` — nothing frees a configured channel without the hook, no codec fails to be opened
  again, and no second link of a device comes up.

## Main results

* `inv_step` — every step keeps everything linked.
* `links_linked` — **channels and streams stay linked**, in every run of such steps.
* `links_dangling` — a run with a reject, and one with a codec that is closed twice.
-/

namespace Hassmic.A2dp

open List
open Function (update_of_ne update_self)
open scoped Slots

section

variable {w : World} {i : Slot} {j : Place}

/-! ### Packets -/

/-- A command of a phone, unless a codec fails to be opened again. -/
theorem good_avMove (h : Good i w) {ok : Bool} {m : Msg} {w' : World} (hm : AvMove w ok i m w')
    (hs : ok = true ∨ ¬ w.Reconfigures i m) : Good i w' := by
  have hin := h.inv
  cases hm with
  | quiet s cfg delay =>
    exact ⟨{ hin with avSig := hin.avSig }, h.used⟩
  | configures hfree hsep =>
    have hmedia : w.av.media = 0 := by
      rcases hin.media with hm | ⟨k, hk, -⟩
      · exact hm
      · cases hfree.symm.trans hk
    have hquiet : w.streaming ≠ true := by
      intro hyes
      cases (hin.idle hfree).symm.trans (hin.streaming hyes)
    refine ⟨{ hin with
      media := .inl hmedia
      stream := fun k hk => ?_
      codec := ?_
      streaming := fun hyes => absurd hyes hquiet
      idle := by rintro ⟨⟩
      distinct := fun _ _ => hmedia }, h.used⟩
    · obtain rfl := Option.some.inj hk
      exact ⟨h.used, hsep⟩
    · have hc := hin.codec
      rw [hfree] at hc
      unfold codecRun at hc ⊢
      simp [foldlM_append, hc, codecStep]
  | reconfigures hl hstate =>
    refine ⟨{ hin with codec := ?_ }, h.used⟩
    have hc := hin.codec
    rw [hl] at hc ⊢
    unfold codecRun at hc ⊢
    simp [foldlM_append, hc, codecStep]
  | fails hok hr =>
    rcases hs with hyes | hno
    · exact absurd hyes (by rw [hok]; exact Bool.false_ne_true)
    · exact absurd hr hno
  | opens hl hstate =>
    refine ⟨{ hin with streaming := fun hyes => ?_, idle := fun hnone => ?_ }, h.used⟩
    · cases hstate.symm.trans (hin.streaming hyes)
    · cases hl.symm.trans hnone
  | starts hl hstate =>
    refine ⟨{ hin with streaming := fun _ => rfl, idle := fun hnone => ?_ }, h.used⟩
    cases hl.symm.trans hnone
  | suspends hl hstate =>
    refine ⟨{ hin with
      streaming := by rintro ⟨⟩
      idle := fun hnone => ?_ }, h.used⟩
    cases hl.symm.trans hnone
  | resets hl =>
    rename_i s
    exact ⟨inv_avReset (Sends.inv hin ⟨s, rfl⟩), h.used⟩

theorem Inv.keeps (h : Inv w) {o : Out} (ho : w.out.Keeps o) : Inv { w with out := o } :=
  h.out ho.l ho.addr ho.media

theorem inv_outDisconnect (h : Inv w) : Inv w.outDisconnect := by
  unfold World.outDisconnect
  split
  · exact h
  · exact h.setLink rfl rfl rfl rfl fun _ _ _ hk => hk

/-- What the stream to a speaker asks for. -/
theorem inv_does (h : Good i w) {r : Out × Deed} (hr : w.out.Keeps r.1) : Inv (w.does i r) := by
  unfold World.does
  dsimp only
  have hsent : Sends { w with out := r.1 } (World.outSends
      (r.2.replies.foldl (fun w m => w.avSend i m.bytes) { w with out := r.1 }) r.2.cmds) :=
    (sends_foldl i r.2.replies _).trans (sends_outSends _ _)
  have hgood := hsent.good (i := i) ⟨h.inv.keeps hr, h.used⟩
  generalize World.outSends
    (r.2.replies.foldl (fun w m => w.avSend i m.bytes) { w with out := r.1 }) r.2.cmds = v
    at hgood
  have hopen : Inv (if r.2.opens = true then v.chanOpen i psmAvdtp else v) := by
    split
    · exact (good_chanOpen hgood psmAvdtp).inv
    · exact hgood.inv
  split
  · exact inv_outDisconnect hopen
  · exact hopen

/-- Packets of which no command frees a configured channel, and none fails to open a codec again. -/
def World.WholePacket (w : World) (now : ℕ) (ok : Bool) (i : Slot) (cid : ℕ) (p : Bytes) : Prop :=
  (cid = 1 →
    Runs.Each (fun w x => World.sigCmd w now i x) (World.WholeCmd i) w (sigCmds p.length p)) ∧
  (ok = true ∨ ∀ m, Msg.ofBytes p = some m → ¬ w.Reconfigures i m)

/-- **A packet keeps everything linked.** -/
theorem inv_l2Rx (h : Good i w) (now : ℕ) (ok speaker : Bool) (cid : ℕ) (p : Bytes)
    (hs : w.WholePacket now ok i cid p) : Inv (w.l2Rx now ok speaker i cid p) := by
  unfold World.l2Rx
  split
  case isTrue hsig =>
    have hcmds : Good i (w.sigRx now i p) :=
      Runs.invariant (I := Good i) (fun v x hv hx => good_sigCmd hv now x hx) h (hs.1 hsig)
    exact hcmds.inv
  case isFalse =>
    split
    · exact h.inv
    case h_2 j hj =>
      dsimp only
      split
      · exact h.inv
      · split
        · exact h.inv
        · have hcall : ∀ what, Good i (w.called i what) :=
            fun what => ⟨inv_called h.inv i what, h.used⟩
          split
          · split
            · unfold World.outRx
              split
              · exact (hcall _).inv
              · exact inv_does (hcall _) (Out.keeps_rx _ _ _ _)
            · unfold World.avRx
              split
              · exact (hcall _).inv
              case h_2 m hm =>
                split
                case isTrue hk =>
                  exact (good_avMove (hcall _) (moves_avCommand hk)
                    (hs.2.imp_right fun hno => hno m hm)).inv
                case isFalse => exact (hcall _).inv
          · split
            · exact (talks_avrcpRx _ now speaker i p).inv (hcall _).inv
            · split
              · have hin := (hcall .media).inv
                unfold World.mediaRx
                split
                · exact { hin with avSig := hin.avSig }
                · exact hin
              · exact h.inv

/-! ### Links that come and go -/

/-- All channels of a link are freed, with the hook. -/
theorem good_frees (h : Good i w) (now : ℕ) (l : List Place) :
    Good i (l.foldl (fun w j => if ((w.links i).ch j).used then w.chanFree now i j else w) w) ∧
      ∀ j ∈ l,
        (((l.foldl (fun w j => if ((w.links i).ch j).used then w.chanFree now i j
          else w) w).links i).ch
        j).used = false := by
  -- a place that is free stays so
  have hstay : ∀ (l : List Place) {v : World} {k : Place}, ((v.links i).ch k).used =
      false → Good i v →
      (((l.foldl (fun w j => if ((w.links i).ch j).used then w.chanFree now i j else w)
        v).links i).ch k).used =
        false := by
    intro l
    induction l with
    | nil => exact fun hk _ => hk
    | cons j l ih =>
      intro v k hk hv
      rw [foldl_cons]
      split
      · refine ih ?_ (good_chanFree hv now j)
        rw [(inv_chanFree hv.inv now i j).2]
        by_cases hkj : k = j
        · rw [hkj, update_self]
        · rw [update_of_ne hkj]
          exact hk
      · exact ih hk hv
  induction l generalizing w with
  | nil => exact ⟨h, nofun⟩
  | cons j l ih =>
    rw [foldl_cons]
    split
    case isTrue hused =>
      have hfree := good_chanFree h now j
      obtain ⟨hgood, hl⟩ := ih hfree
      refine ⟨hgood, fun k hk => ?_⟩
      rcases mem_cons.mp hk with rfl | hk
      · refine hstay l ?_ hfree
        rw [(inv_chanFree h.inv now i k).2, update_self]
      · exact hl k hk
    case isFalse hused =>
      obtain ⟨hgood, hl⟩ := ih h
      refine ⟨hgood, fun k hk => ?_⟩
      rcases mem_cons.mp hk with rfl | hk
      · exact hstay l (by simpa using hused) h
      · exact hl k hk

/-- A link that no stream is on is replaced by one that names nothing: a free one, or that of a
device that has no other. -/
theorem inv_replace (h : Inv w) {l : Link} (hav : w.av.l ≠ some i) (hout : w.out.l ≠ some i)
    (hold : (w.links i).avctp = 0) (hsig : l.avSig = 0) (hctp : l.avctp = 0)
    (hnew : l.used = true → ∀ k, (w.links k).used = true → k ≠ i → (w.links k).addr ≠ l.addr) :
    Inv (w.setLink i l) := by
  have hother : ∀ {k : Slot}, k ≠ i → (w.setLink i l).links k = w.links k :=
    fun hk => World.links_setLink_of_ne w hk l
  have hself : (w.setLink i l).links i = l := World.links_setLink w i l
  -- nothing went over the old one, so no name is lost
  have hnames : ∀ {k : Slot} {cid psm : ℕ}, k ≠ i → w.Names k cid psm →
      (w.setLink i l).Names k cid psm := by
    rintro k cid psm hk ⟨j, hj, hready⟩
    refine ⟨j, hj, ?_⟩
    rw [hother hk]
    exact hready
  refine ⟨⟨fun k => ?_, fun k => ?_, ?_, ?_, ?_, fun k hk => ?_, h.codec, h.streaming⟩,
    h.idle, fun k hk => ?_, fun k hk => ?_, fun hm k hk => ?_, h.distinct,
    fun k k' hk hk' heq => ?_⟩
  · by_cases hk : k = i
    · rw [hk, hself]
      exact .inl hsig
    · rw [hother hk]
      exact (h.avSig k).imp_right (hnames hk)
  · by_cases hk : k = i
    · rw [hk, hself]
      exact .inl hctp
    · rw [hother hk]
      exact (h.avctp k).imp_right (hnames hk)
  · refine h.media.imp_right ?_
    rintro ⟨k, hk, hn⟩
    exact ⟨k, hk, hnames (fun hki => hav (hki ▸ hk)) hn⟩
  · refine h.outMedia.imp_right ?_
    rintro ⟨k, hk, hn⟩
    exact ⟨k, hk, hnames (fun hki => hout (hki ▸ hk)) hn⟩
  · have hsum := remotes_setLink w i l
    rw [hctp, hold] at hsum
    have hc : w.avrcpLinks = w.remotes := h.count
    change w.avrcpLinks = (w.setLink i l).remotes
    omega
  · have hki : k ≠ i := fun hki => hav (hki ▸ hk)
    rw [hother hki]
    exact h.stream k hk
  · by_cases hki : k = i
    · rw [hki, hself]
      exact hctp
    · rw [hother hki] at hk ⊢
      exact h.blank k hk
  · have hki : k ≠ i := fun hki => hout (hki ▸ hk)
    rw [hother hki]
    exact h.outUsed k hk
  · have hki : k ≠ i := fun hki => hout (hki ▸ hk)
    rw [hother hki]
    exact h.outAddr hm k hk
  · -- the new one is of another device than the others
    by_cases hki : k = i
    · by_cases hki' : k' = i
      · rw [hki, hki']
      · rw [hki, hself, hother hki'] at heq
        rw [hki, hself] at hk
        rw [hother hki'] at hk'
        exact absurd heq.symm (hnew hk k' hk' hki')
    · by_cases hki' : k' = i
      · rw [hki', hself, hother hki] at heq
        rw [hki', hself] at hk'
        rw [hother hki] at hk
        exact absurd heq (hnew hk' k hk hki)
      · rw [hother hki] at hk heq
        rw [hother hki'] at hk' heq
        exact h.apart k k' hk hk' heq

/-- A link is cleared that nothing goes over any more. -/
theorem inv_clear (h : Inv w) (hfree : ∀ j, ((w.links i).ch j).used = false) (hav : w.av.l ≠ some i)
    (hout : w.out.l ≠ some i) : Inv (w.setLink i {}) := by
  refine inv_replace h hav hout ?_ rfl rfl nofun
  rcases h.avctp i with h0 | ⟨j, -, hready⟩
  · exact h0
  · exact absurd hready.used (by rw [hfree j]; exact Bool.false_ne_true)

theorem inv_linkGone (h : Good i w) (now : ℕ) : Inv (w.linkGone now i) := by
  obtain ⟨hgood, hfree⟩ := good_frees h now (finRange maxChans)
  unfold World.linkGone
  dsimp only
  generalize (finRange maxChans).foldl
    (fun w j => if ((w.links i).ch j).used then w.chanFree now i j else w) w = v at hgood hfree
  have hav : Inv (if v.av.l = some i then v.avReset else v) ∧
      (if v.av.l = some i then v.avReset else v).av.l ≠ some i ∧
      (if v.av.l = some i then v.avReset else v).links = v.links := by
    split
    · exact ⟨inv_avReset hgood.inv, nofun, rfl⟩
    case isFalse hne => exact ⟨hgood.inv, hne, rfl⟩
  generalize (if v.av.l = some i then v.avReset else v) = u at hav
  obtain ⟨hu, hl, hlinks⟩ := hav
  have hnone : ∀ j, ((u.links i).ch j).used = false := by
    intro j
    rw [hlinks]
    exact hfree j (mem_finRange j)
  split
  case isTrue hout =>
    refine inv_clear ?_ hnone hl nofun
    -- the speaker has no link, so no channel either
    exact { hu with
      outMedia := .inl rfl
      outUsed := nofun
      outAddr := fun hne => absurd rfl hne
      distinct := fun _ hm => hm }
  case isFalse hout => exact inv_clear hu hnone hl hout

theorem inv_lost (h : Inv w) (now : ℕ) : Inv (w.lost now) := by
  have hlinks : Inv ((finRange maxLinks).foldl
      (fun w i => if (w.links i).used then w.linkGone now i else w) w) := by
    refine Runs.invariant_all (I := Inv) (fun v i hv => ?_) h _
    split
    case isTrue hused => exact inv_linkGone ⟨hv, hused⟩ now
    case isFalse => exact hv
  unfold World.lost
  have hout := hlinks.out (o := { (((finRange maxLinks).foldl
    (fun w i => if (w.links i).used then w.linkGone now i else w) w).out) with paging :=
    false }) rfl rfl (.inl rfl)
  exact { hout with avSig := hout.avSig }

theorem linkBy_used {handle : ℕ} (h : w.linkBy handle = some i) : (w.links i).used = true := by
  have hi := find?_some h
  simp only [Bool.and_eq_true] at hi
  exact hi.1

/-- A link comes up at a free place, of a device that has none. -/
theorem inv_newLink (h : Inv w) {l : Link} (hfree : (w.links i).used = false) (hsig : l.avSig = 0)
    (hctp : l.avctp = 0) (hnew : ∀ k, (w.links k).used = true → (w.links k).addr ≠ l.addr) :
    Inv (w.setLink i l) := by
  refine inv_replace h (fun hl => ?_) (fun hl => ?_) (h.blank i hfree)
    hsig hctp fun _ k hk _ => hnew k hk
  · exact Bool.false_ne_true (hfree.symm.trans (h.stream i hl).1)
  · exact Bool.false_ne_true (hfree.symm.trans (h.outUsed i hl))

theorem inv_connComplete (h : Inv w) (now addr handle : ℕ) (enc : Bool)
    (hnew : ∀ k, (w.links k).used = true → (w.links k).addr ≠ addr) :
    Inv (w.connComplete now addr handle enc) := by
  unfold World.connComplete
  extract_lets paged o v
  have hv : Inv v ∧ v.links = w.links := by
    simp only [v]
    split
    · exact ⟨h.out rfl rfl (.inl rfl), rfl⟩
    · exact ⟨h, rfl⟩
  obtain ⟨hv, hlinks⟩ := hv
  rw [← hlinks] at hnew
  split
  · exact hv
  case h_2 i hi =>
    extract_lets u
    have hfree : (v.links i).used = false := by
      simpa only [Bool.not_eq_true'] using find?_some hi
    have hset : Inv u := inv_newLink hv hfree rfl rfl hnew
    have hself : u.links i =
        { used := true, handle := handle, addr := addr, enc := enc, everEnc := enc } :=
      World.links_setLink v i _
    split
    case isFalse => exact hset
    case isTrue hspk =>
      -- the speaker had no link, so no media channel either
      have hmedia : u.out.media = 0 := by
        by_contra hne
        rcases hv.outMedia with h0 | ⟨k, hk, -⟩
        · exact hne h0
        · simp only [World.isSpeaker, Bool.and_eq_true, decide_eq_true_eq] at hspk
          rw [hself] at hspk
          exact hnew k (hv.outUsed k hk) ((hv.outAddr hne k hk).trans hspk.2.symm)
      unfold World.outLinkUp
      have hup : Inv (u.setLink i { u.links i with
          authAt := now + if paged = true then 0 else 1500, pendUntil := now + 20000 }) :=
        hset.setLink rfl rfl rfl rfl fun _ _ _ hk => hk
      refine { hup with
        outMedia := .inl hmedia
        outUsed := fun k hk => ?_
        outAddr := fun hne => absurd hmedia hne
        distinct := fun _ hm => hm.trans hmedia }
      obtain rfl := Option.some.inj hk
      change ((World.setLink _ _ _).links i).used = true
      rw [World.links_setLink, hself]

theorem inv_encChange (h : Inv w) (handle : ℕ) (ok on : Bool)
    (hw : ok = false → ∀ i, w.linkBy handle = some i → w.Waits i) :
    Inv (w.encChange handle ok on) := by
  unfold World.encChange
  split
  · exact h
  case h_2 i hi =>
    have hset : Good i (w.setLink i { w.links i with
        enc := ok && on, everEnc := (w.links i).everEnc || (ok && on) }) :=
      Good.setLink ⟨h, linkBy_used hi⟩ rfl rfl rfl rfl fun _ _ _ hk => hk
    dsimp only
    split
    case isFalse => exact hset.inv
    case isTrue hdo =>
      refine (good_pendingResolve hset fun hno => ?_).inv
      -- refused only where encrypting failed
      have hbad : ok = false := by
        rw [hno, Bool.or_false, Bool.not_eq_true'] at hdo
        exact hdo
      intro j
      rw [World.links_setLink]
      exact hw hbad i hi j

theorem inv_authComplete (h : Inv w) (handle : ℕ) (ok : Bool)
    (hw : ok = false → ∀ i, w.linkBy handle = some i → w.Waits i) :
    Inv (w.authComplete handle ok) := by
  unfold World.authComplete
  split
  · exact h
  case h_2 i hi =>
    have hgood : Good i w := ⟨h, linkBy_used hi⟩
    split
    case isTrue hbad => exact (good_pendingResolve hgood fun _ => hw (by simpa using hbad) i hi).inv
    case isFalse =>
      split
      · have hres : Good i (w.pendingResolve i true) :=
          good_pendingResolve hgood fun hno => (Bool.false_ne_true hno.symm).elim
        exact hres.inv
      · exact h

theorem inv_inquiryDone (h : Inv w) (now : ℕ) : Inv (w.inquiryDone now) := by
  unfold World.inquiryDone
  extract_lets w₁
  have h₁ : Inv w₁ :=
    { h with avSig := h.avSig }
  split
  · exact h₁
  case h_2 a rssi ha =>
    extract_lets away w₂
    -- whichever speaker comes next, a media channel is of its link
    have h₂ : Inv w₂ ∧ (w₂.out.media ≠ 0 → ∀ i, w₂.out.l = some i → (w₂.links i).addr = a) := by
      change Inv (if away = true then
        World.outDisconnect { w₁ with out := w₁.out.streamReset } else w₁) ∧
        ((if away = true then World.outDisconnect { w₁ with out := w₁.out.streamReset }
          else w₁).out.media ≠ 0 →
          ∀ i, (if away = true then World.outDisconnect { w₁ with out := w₁.out.streamReset }
            else w₁).out.l =
            some i →
          ((if away = true then World.outDisconnect { w₁ with out := w₁.out.streamReset }
            else w₁).links i).addr =
            a)
      split
      · refine ⟨inv_outDisconnect (h₁.keeps ⟨rfl, rfl, .inr rfl⟩), fun hne => absurd ?_ hne⟩
        unfold World.outDisconnect
        split <;> rfl
      case isFalse hstay =>
        refine ⟨h₁, fun _ i hi => ?_⟩
        by_contra hne
        apply hstay
        simp only [away]
        rw [hi]
        exact decide_eq_true hne
    obtain ⟨h₂, haddr⟩ := h₂
    exact ⟨⟨h₂.avSig, h₂.avctp, h₂.media, h₂.outMedia, h₂.count, h₂.stream, h₂.codec,
      h₂.streaming⟩, h₂.idle, h₂.blank, h₂.outUsed, haddr, h₂.distinct, h₂.apart⟩

/-! ### Upkeep -/

theorem inv_avctpDue (h : Inv w) (now : ℕ) (i : Slot) : Inv (w.avctpDue now i) := by
  unfold World.avctpDue
  dsimp only
  split
  · exact h
  case isFalse hdue =>
    have hused : (w.links i).used = true := by
      by_contra hno
      simp [hno] at hdue
    have hset : Good i (w.setLink i { w.links i with avctpAt := 0 }) :=
      Good.setLink ⟨h, hused⟩ rfl rfl rfl rfl fun _ _ _ hk => hk
    split
    · exact (good_chanOpen hset psmAvctp).inv
    · exact hset.inv

theorem inv_pendDue (h : Inv w) (now : ℕ) (i : Slot)
    (hw : (w.links i).pendUntil < now → w.Waits i) :
    Inv (w.pendDue now i) := by
  unfold World.pendDue
  dsimp only
  split
  · exact h
  case isFalse hdue =>
    have hused : (w.links i).used = true := by
      by_contra hno
      simp [hno] at hdue
    split
    case isTrue hlate => exact (good_pendingResolve ⟨h, hused⟩ fun _ => hw hlate).inv
    case isFalse =>
      split
      · exact h
      · exact h.setLink rfl rfl rfl rfl fun _ _ _ hk => hk

theorem inv_switchReq (h : Inv w) (now : ℕ) (on stay : Bool) : Inv (w.switchReq now on stay) := by
  unfold World.switchReq
  split
  · exact h
  · dsimp only
    split
    · exact inv_outDisconnect (h.keeps ⟨rfl, rfl, .inr rfl⟩)
    · exact h.keeps ⟨rfl, rfl, .inl rfl⟩

theorem inv_outUpkeep (h : Inv w) (now : ℕ) (want stay speaker : Bool) :
    Inv (w.outUpkeep now want stay speaker) :=
  outUpkeep_keeps (fun hw ho => hw.keeps ho) (fun hw ht => ht.inv hw) inv_outDisconnect h
    (fun i hi _ => (good_chanOpen ⟨h, h.outUsed i hi⟩ psmAvdtp).inv) now want stay speaker

end

/-! ### Runs -/

/-- **What keeps everything linked**: no reject, no refusal and no failed authentication frees a
channel that is configured both ways, no codec fails to be opened again, and no second link of a
device comes up. -/
def World.Whole (w : World) (e : ℕ × Ev) : Prop :=
  match e.2 with
  | .l2 i cid p ok _ => w.WholePacket e.1 ok i cid p
  | .connComplete addr _ _ => ∀ k, (w.links k).used = true → (w.links k).addr ≠ addr
  | .authComplete handle ok => ok = false → ∀ i, w.linkBy handle = some i → w.Waits i
  | .encChange handle ok _ => ok = false → ∀ i, w.linkBy handle = some i → w.Waits i
  | .pendDue i => (w.links i).pendUntil < e.1 → w.Waits i
  | _ => True

/-- **Every step keeps everything linked.** -/
theorem inv_step {w : World} (h : Inv w) (e : ℕ × Ev) (hs : w.Whole e) : Inv (w.step e) := by
  have hsame : ∀ {w' : World}, (w'.links, w'.av, w'.out, w'.avrcpLinks, w'.codecs,
      w'.streaming, w'.seps) =
      (w.links, w.av, w.out, w.avrcpLinks, w.codecs, w.streaming, w.seps) → Inv w' := by
    rintro ⟨⟩ ⟨⟩
    exact { h with avSig := h.avSig }
  obtain ⟨now, e⟩ := e
  cases e with
  | l2 i cid p ok speaker =>
    simp only [World.step]
    split
    case isTrue hused => exact inv_l2Rx ⟨h, hused⟩ now ok speaker cid p hs
    case isFalse => exact h
  | connComplete addr handle enc => exact inv_connComplete h now addr handle enc hs
  | pageFailed =>
    simp only [World.step, World.pageFailed]
    split
    · exact h.keeps ⟨rfl, rfl, .inl rfl⟩
    · exact h
  | disconnect handle =>
    simp only [World.step]
    split
    · exact h
    case h_2 i hi => exact inv_linkGone ⟨h, linkBy_used hi⟩ now
  | authComplete handle ok => exact inv_authComplete h handle ok hs
  | encChange handle ok on => exact inv_encChange h handle ok on hs
  | found a rssi =>
    simp only [World.step, World.found]
    split
    · split
      · exact h
      · exact hsame rfl
    · exact hsame rfl
  | inquiryDone => exact inv_inquiryDone h now
  | lost => exact inv_lost h now
  | avctpDue i => exact inv_avctpDue h now i
  | volumeDue i => exact (talks_volumeDue w i).inv h
  | pendDue i => exact inv_pendDue h now i hs
  | search on =>
    simp only [World.step, World.searchReq]
    split
    · split
      · exact h
      · exact hsame rfl
    · exact hsame rfl
  | inquires =>
    simp only [World.step]
    split
    · exact hsame rfl
    · exact h
  | switch on stay => exact inv_switchReq h now on stay
  | pages ok =>
    simp only [World.step, World.pages]
    split
    · refine h.keeps ?_
      split
      · exact ⟨rfl, rfl, .inl rfl⟩
      · exact ⟨rfl, rfl, .inl rfl⟩
    · exact h
  | outUpkeep want stay speaker => exact inv_outUpkeep h now want stay speaker
  | echoVolume pct => exact hsame rfl
  | speakerVolume pct => exact hsame rfl
  | yields b => exact hsame rfl

theorem inv_init (seps : List Codec) (addr : ℕ) (on : Bool) : Inv (World.init seps addr on) := by
  refine ⟨⟨fun _ => .inl rfl, fun _ => .inl rfl, .inl rfl, .inl rfl, ?_, nofun, rfl, nofun⟩,
    fun _ => rfl, fun _ _ => rfl, nofun, fun hne => absurd rfl hne, fun _ _ => rfl, nofun⟩
  simp [World.init, World.remotes]

/-- **Channels and streams stay linked**, in every run in which nothing frees a configured channel
without the hook, no codec fails to be opened again, and no device has two links. -/
theorem links_linked (seps : List Codec) (addr : ℕ) (on : Bool) (l : List (ℕ × Ev))
    (h : Runs.Each World.step World.Whole (World.init seps addr on) l) :
    Linked ((World.init seps addr on).run l) := by
  have hinv : Inv ((World.init seps addr on).run l) :=
    Runs.invariant (I := Inv) (fun w e hw he => inv_step hw e he) (inv_init seps addr on) h
  exact hinv.toLinked

/-- A codec. -/
def anyCodec : Codec := ⟨0, [0x21, 0x15, 2, 53], fun _ => true⟩

/-- A device connects, encrypts, and opens the signalling channel. -/
def signals : List (ℕ × Ev) :=
  [(0, .connComplete 7 1 true), (1, .l2 0 1 [0x02, 1, 4, 0, 0x19, 0, 0x50, 0] true false),
    (2, .l2 0 1 [0x04, 2, 4, 0, 0x40, 0, 0, 0] true false),
    (3, .l2 0 1 [0x05, 1, 6, 0, 0x40, 0, 0, 0, 0, 0] true false)]

/-- It configures the stream, and opens it. -/
def configures : List (ℕ × Ev) :=
  [(4, .l2 0 0x40 [0x10, 3, 4, 4, 1, 0, 7, 6, 0, 0, 0x21, 0x15, 2, 53] true false),
    (5, .l2 0 0x40 [0x20, 6, 4] true false)]

/-- The condition holds of a device that does as it should. -/
theorem links_linked_stream :
    Runs.Each World.step World.Whole (World.init [anyCodec] 0 false) (signals ++ configures) ∧
      (((World.init [anyCodec] 0 false).run (signals ++ configures)).av.l = some 0 ∧
        ((World.init [anyCodec] 0 false).run (signals ++ configures)).codecs = [.opened 1]) ∧
      Linked ((World.init [anyCodec] 0 false).run (signals ++ configures)) := by
  have h : Runs.Each World.step World.Whole (World.init [anyCodec] 0 false)
      (signals ++ configures) := by
    refine ⟨nofun, ⟨fun _ => ⟨⟨nofun, nofun⟩, trivial⟩, .inl rfl⟩,
      ⟨fun _ => ⟨⟨nofun, nofun⟩, trivial⟩, .inl rfl⟩,
      ⟨fun _ => ⟨⟨nofun, nofun⟩, trivial⟩, .inl rfl⟩, ⟨nofun, .inl rfl⟩, ⟨nofun, .inl rfl⟩, trivial⟩
  exact ⟨h, by decide, links_linked [anyCodec] 0 false _ h⟩

/-- It rejects a command that was never sent. -/
def rejects : List (ℕ × Ev) := [(4, .l2 0 1 [0x01, 0, 2, 0, 0, 0] true false)]

/-- It configures the stream again, and the codec cannot be opened. -/
def reconfigures : List (ℕ × Ev) :=
  [(6, .l2 0 0x40 [0x30, 5, 4, 7, 6, 0, 0, 0x21, 0x15, 2, 53] false false)]

/-- **A name that is left of a channel that is gone, and a codec that is closed twice.** -/
theorem links_dangling :
    ((((World.init [anyCodec] 0 false).run (signals ++ rejects)).links 0).avSig = 0x40 ∧
      (((World.init [anyCodec] 0 false).run (signals ++ rejects)).links 0).ch 0 = {} ∧
      ¬ Linked ((World.init [anyCodec] 0 false).run (signals ++ rejects))) ∧
    (((World.init [anyCodec] 0 false).run (signals ++ configures ++ reconfigures)).codecs =
        [.opened 1, .closed 1, .closed 1] ∧
      ¬ Linked ((World.init [anyCodec] 0 false).run (signals ++ configures ++ reconfigures))) := by
  have hfacts : (((World.init [anyCodec] 0 false).run (signals ++ rejects)).links 0).avSig = 0x40 ∧
      (((World.init [anyCodec] 0 false).run (signals ++ rejects)).links 0).ch 0 = {} ∧
      ((World.init [anyCodec] 0 false).run (signals ++ configures ++ reconfigures)).codecs =
        [.opened 1, .closed 1, .closed 1] := by
    decide
  obtain ⟨hsig, hch, hcodecs⟩ := hfacts
  refine ⟨⟨hsig, hch, fun hlinked => ?_⟩, hcodecs, fun hlinked => ?_⟩
  · rcases hlinked.avSig 0 with h0 | ⟨j, hj, hready⟩
    · exact absurd (hsig.symm.trans h0) (by decide)
    · -- the name is that of the first place, which is free
      have hfirst : (0x40 : ℕ) = lcid 0 j := hsig.symm.trans hj
      obtain rfl : j = 0 := lcid_inj hfirst.symm
      rw [hch] at hready
      exact nomatch hready.used
  · have hcodec := hlinked.codec
    rw [hcodecs] at hcodec
    exact nomatch hcodec

end Hassmic.A2dp
