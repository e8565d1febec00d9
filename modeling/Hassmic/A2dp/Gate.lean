import Hassmic.A2dp.Stream

/-!
# Nothing counts before the link is encrypted

A channel of AVDTP or AVCTP that is asked for before the link is encrypted waits as a pending one.
The device may configure it meanwhile all the same: its configuration request is answered, and its
response to a request that was never made counts as well.  So a pending channel is opened by the two
together.

Where no response comes for a pending channel, a link that was never encrypted has no channel open
but those of the service records.

## Main definitions

* `Link.Shut` — what holds of a link that was never encrypted.
* `Gate` — it holds of all of them, and no call was made for one.
* `World.Spared` — no response configures a pending channel.

## Main results

* `steady_sigCmd` — a signalling command keeps it.
* `gate_step` — so does every step.
* `nothing_counts` — **nothing of a device counts before its link is encrypted**, in every run
  without such a response.
* `pending_opened` — a run with one.
-/

namespace Hassmic.A2dp

open Function (update update_of_ne update_self)

/-- **What holds of a link that was never encrypted**: the channels that are there wait, and we
never asked for their configuration. -/
structure Link.Shut (l : Link) : Prop where
  enc : l.enc = false
  avSig : l.avSig = 0
  avctp : l.avctp = 0
  wait : ∀ j, (l.ch j).used = true → (l.ch j).psm ≠ psmSdp →
    (l.ch j).pending = true ∧ (l.ch j).cfgOut = false

/-- It holds of all of them, none has the stream, and nothing was called for one but for the service
records. -/
structure Gate (w : World) : Prop where
  free : ∀ i, (w.links i).used = false → (w.links i).everEnc = false
  shut : ∀ i, (w.links i).everEnc = false → (w.links i).Shut ∧ w.av.l ≠ some i
  calls : ∀ x ∈ w.calls, x.what ≠ .opened psmSdp → x.enc = true

/-- The stream, the jitter buffer and the volume are as they were. -/
structure Kept (w w' : World) : Prop where
  av : w'.av = w.av
  streaming : w'.streaming = w.streaming
  ring : w'.ring = w.ring
  vol : w'.vol = w.vol

/-- What a signalling command on a link does: it is as much encrypted as it was, and where it was
never, nothing that counts is changed. -/
structure Steady (i : Slot) (w w' : World) : Prop where
  gate : Gate w'
  ever : (w'.links i).everEnc = (w.links i).everEnc
  kept : (w.links i).everEnc = false → Kept w w'

section

variable {w w₁ w₂ : World} {i : Slot} {j : Place}

theorem Kept.refl (w : World) : Kept w w := ⟨rfl, rfl, rfl, rfl⟩

theorem Kept.trans (h : Kept w w₁) (h' : Kept w₁ w₂) : Kept w w₂ :=
  ⟨h'.av.trans h.av, h'.streaming.trans h.streaming, h'.ring.trans h.ring, h'.vol.trans h.vol⟩

theorem Steady.refl (h : Gate w) (i : Slot) : Steady i w w := ⟨h, rfl, fun _ => .refl w⟩

theorem Steady.trans (h : Steady i w w₁) (h' : Steady i w₁ w₂) : Steady i w w₂ :=
  ⟨h'.gate, h'.ever.trans h.ever, fun hev => (h.kept hev).trans (h'.kept (h.ever.trans hev))⟩

/-! ### Links -/

theorem gate_setLink (h : Gate w) {l : Link} (hfree : l.used = false → l.everEnc = false)
    (hl : l.everEnc = false → l.Shut ∧ w.av.l ≠ some i) : Gate (w.setLink i l) := by
  refine ⟨fun k hk => ?_, fun k hk => ?_, h.calls⟩
  · by_cases hki : k = i
    · subst hki
      rw [World.links_setLink] at hk ⊢
      exact hfree hk
    · rw [World.links_setLink_of_ne w hki] at hk ⊢
      exact h.free k hk
  by_cases hki : k = i
  · subst hki
    rw [World.links_setLink] at hk ⊢
    exact hl hk
  · rw [World.links_setLink_of_ne w hki] at hk ⊢
    exact h.shut k hk

theorem steady_setLink (h : Gate w) {l : Link} (huse : l.used = (w.links i).used)
    (hev : l.everEnc = (w.links i).everEnc)
    (hl : (w.links i).everEnc = false → (w.links i).Shut → l.Shut) :
    Steady i w (w.setLink i l) := by
  refine ⟨gate_setLink h (fun hk => ?_) fun hk => ?_, ?_, fun _ => ⟨rfl, rfl, rfl, rfl⟩⟩
  · exact hev.trans (h.free i (huse ▸ hk))
  · have hold := h.shut i (hev ▸ hk)
    exact ⟨hl (hev ▸ hk) hold.1, hold.2⟩
  · rw [World.links_setLink, hev]

/-- Whatever else a link that was encrypted looks like. -/
theorem gate_setLink_ever (h : Gate w) {l : Link} (huse : l.used = (w.links i).used)
    (hev : l.everEnc = (w.links i).everEnc) (hyes : (w.links i).everEnc = true) :
    Gate (w.setLink i l) := by
  refine (steady_setLink h huse hev fun hno => ?_).gate
  exact absurd hyes (by rw [hno]; exact Bool.false_ne_true)

theorem steady_setChan (h : Gate w) {c : Chan}
    (hc : (w.links i).everEnc = false → c.used = true → c.psm ≠ psmSdp →
      c.pending = true ∧ c.cfgOut = false) : Steady i w (w.setChan i j c) := by
  refine steady_setLink h rfl rfl fun hev hs => ⟨hs.enc, hs.avSig, hs.avctp, fun k => ?_⟩
  by_cases hk : k = j
  · subst hk
    simp only [update_self]
    exact hc hev
  · simp only [update_of_ne hk]
    exact hs.wait k

theorem Sends.steady (h : Gate w) (hs : Sends w w₁) (i : Slot) : Steady i w w₁ := by
  obtain ⟨s, rfl⟩ := hs
  exact ⟨⟨h.free, h.shut, h.calls⟩, rfl, fun _ => ⟨rfl, rfl, rfl, rfl⟩⟩

theorem Sends.gate (h : Gate w) (hs : Sends w w₁) : Gate w₁ := (hs.steady h 0).gate

theorem Talks.gate (h : Gate w) (ht : Talks w w₁) : Gate w₁ := by
  obtain ⟨s, r, v, a, b, c, rfl⟩ := ht
  exact ⟨h.free, h.shut, h.calls⟩

theorem steady_bumpId (h : Gate w) (i : Slot) : Steady i w (w.bumpId i) :=
  steady_setLink h rfl rfl fun _ hs => ⟨hs.enc, hs.avSig, hs.avctp, hs.wait⟩

theorem steady_configRequest (h : Gate w) (i : Slot) (j : Place) :
    Steady i w (w.configRequest i j) := by
  have hbump := steady_bumpId h i
  exact hbump.trans ((sends_sigSend _ _ _ _ _).steady hbump.gate i)

theorem sends_connResponse (w : World) (i : Slot) (id l r result status : ℕ) :
    Sends w (w.connResponse i id l r result status) :=
  sends_sigSend w i _ _ _

/-! ### The hooks -/

/-- A call is made for a link that was encrypted. -/
theorem gate_called (h : Gate w) (hev : (w.links i).everEnc = true) (what : What) :
    Gate (w.called i what) := by
  refine ⟨h.free, h.shut, fun x hx hne => ?_⟩
  rcases List.mem_append.mp hx with hold | hnew
  · exact h.calls x hold hne
  · rw [List.mem_singleton.mp hnew]
    exact hev

/-- A channel is opened: of the service records, or on a link that was encrypted. -/
theorem steady_chanOpened (h : Gate w) (now : ℕ)
    (hj : (w.links i).everEnc = true ∨ ((w.links i).ch j).psm = psmSdp) :
    Steady i w (w.chanOpened now i j) := by
  unfold World.chanOpened
  rcases hj with hev | hsdp
  · -- whatever the link looks like, it was encrypted
    have hcall := gate_called h hev (.opened ((w.links i).ch j).psm)
    have havctp : Gate ((w.called i (.opened ((w.links i).ch j).psm)).avctpOpened i j) ∧
        (((w.called i (.opened ((w.links i).ch j).psm)).avctpOpened i j).links i).everEnc =
        true := by
      unfold World.avctpOpened
      split
      · have hg := gate_setLink_ever hcall (l := { w.links i with avctp := lcid i j }) rfl rfl hev
        refine ⟨⟨hg.free, hg.shut, hg.calls⟩, ?_⟩
        change (update w.links i _ i).everEnc = true
        rw [update_self]
        exact hev
      · exact ⟨hcall, hev⟩
    obtain ⟨hg, hev'⟩ := havctp
    generalize (w.called i (.opened ((w.links i).ch j).psm)).avctpOpened i j = w' at hg hev'
    refine ⟨?_, ?_, fun hno => absurd hev (by rw [hno]; exact Bool.false_ne_true)⟩
    · unfold World.avdtpOpened
      split
      · exact hg
      · split
        · have hl := gate_setLink_ever hg (l := { w'.links i with
            avSig := lcid i j
            avctpAt := if (w'.links i).avctp = 0 then now + 2000
              else (w'.links i).avctpAt }) rfl rfl hev'
          exact ⟨hl.free, hl.shut, hl.calls⟩
        · split
          · split
            · exact ⟨hg.free, hg.shut, hg.calls⟩
            · exact hg
          · split
            · exact ⟨hg.free, hg.shut, hg.calls⟩
            · exact hg
    · rw [hev]
      unfold World.avdtpOpened
      split
      · exact hev'
      · split
        · change (update w'.links i _ i).everEnc = true
          rw [update_self]
          exact hev'
        · split
          · split <;> exact hev'
          · split <;> exact hev'
  · -- the service records: neither part does anything
    have hav : (w.called i (.opened ((w.links i).ch j).psm)).avctpOpened i j =
        w.called i (.opened ((w.links i).ch j).psm) := by
      unfold World.avctpOpened
      rw [if_neg]
      rintro ⟨hpsm, -⟩
      exact absurd (hsdp.symm.trans hpsm) (by decide)
    have hdt : (w.called i (.opened ((w.links i).ch j).psm)).avdtpOpened now i j =
        w.called i (.opened ((w.links i).ch j).psm) := by
      unfold World.avdtpOpened
      rw [if_pos]
      intro hpsm
      exact absurd (hsdp.symm.trans hpsm) (by decide)
    rw [hav, hdt]
    refine ⟨⟨h.free, h.shut, fun x hx hne => ?_⟩, rfl, fun _ => ⟨rfl, rfl, rfl, rfl⟩⟩
    rcases List.mem_append.mp hx with hold | hnew
    · exact h.calls x hold hne
    · rw [List.mem_singleton.mp hnew, hsdp] at hne
      exact absurd rfl hne

theorem gate_avReset (h : Gate w) : Gate w.avReset :=
  ⟨h.free, fun i hi => ⟨(h.shut i hi).1, nofun⟩, h.calls⟩

/-- A channel is closed. -/
theorem steady_chanClosed (h : Gate w) (now : ℕ) (i : Slot) (j : Place) :
    Steady i w (w.chanClosed now i j) := by
  unfold World.chanClosed
  rcases Bool.eq_false_or_eq_true (w.links i).everEnc with hev | hev
  · -- encrypted at some time: the link may look like anything
    have havctp : Gate (w.avctpClosed i j) ∧ ((w.avctpClosed i j).links i).everEnc = true := by
      unfold World.avctpClosed
      split
      · have hg := gate_setLink_ever h (l := { w.links i with avctp := 0 }) rfl rfl hev
        refine ⟨⟨hg.free, hg.shut, hg.calls⟩, ?_⟩
        change (update w.links i _ i).everEnc = true
        rw [update_self]
        exact hev
      · exact ⟨h, hev⟩
    obtain ⟨hg, hev'⟩ := havctp
    generalize w.avctpClosed i j = w' at hg hev'
    have hdt : Gate (w'.avdtpClosed now i j) ∧
        ((w'.avdtpClosed now i j).links i).everEnc = true := by
      unfold World.avdtpClosed
      split
      · dsimp only
        have hl := gate_setLink_ever hg (l := { w'.links i with avSig := 0 }) rfl rfl hev'
        have hel : ((w'.setLink i { w'.links i with avSig := 0 }).links i).everEnc = true := by
          rw [World.links_setLink]
          exact hev'
        generalize w'.setLink i { w'.links i with avSig := 0 } = v at hl hel ⊢
        have hr : Gate (if v.av.l = some i then v.avReset else v) ∧
            ((if v.av.l = some i then v.avReset else v).links i).everEnc = true := by
          split
          · exact ⟨gate_avReset hl, hel⟩
          · exact ⟨hl, hel⟩
        generalize (if v.av.l = some i then v.avReset else v) = u at hr ⊢
        split
        · exact ⟨⟨hr.1.free, hr.1.shut, hr.1.calls⟩, hr.2⟩
        · exact hr
      · split
        · exact ⟨⟨hg.free, hg.shut, hg.calls⟩, hev'⟩
        · split
          · split
            · exact ⟨⟨hg.free, hg.shut, hg.calls⟩, hev'⟩
            · exact ⟨⟨hg.free, hg.shut, hg.calls⟩, hev'⟩
          · exact ⟨hg, hev'⟩
    refine ⟨hdt.1, hdt.2.trans hev.symm, fun hno => ?_⟩
    exact absurd hev (by rw [hno]; exact Bool.false_ne_true)
  · -- never: it is none of the channels that anything goes by
    obtain ⟨hs, hav⟩ := h.shut i hev
    have hctp : w.avctpClosed i j = w := by
      unfold World.avctpClosed
      rw [if_neg]
      rw [hs.avctp]
      exact lcid_ne_zero i j
    rw [hctp]
    unfold World.avdtpClosed
    rw [if_neg (by rw [hs.avSig]; exact lcid_ne_zero i j)]
    split
    · exact ⟨⟨h.free, h.shut, h.calls⟩, rfl, fun _ => ⟨rfl, rfl, rfl, rfl⟩⟩
    · rw [if_neg (fun hno => hav hno.1)]
      exact .refl h i

theorem steady_chanFree (h : Gate w) (now : ℕ) (i : Slot) (j : Place) :
    Steady i w (w.chanFree now i j) := by
  unfold World.chanFree
  dsimp only
  split
  · have hc := steady_chanClosed h now i j
    exact hc.trans (steady_setChan hc.gate fun _ => nofun)
  · exact steady_setChan h fun _ => nofun

/-! ### Signalling -/

/-- A link that is encrypted was. -/
theorem Gate.ever (h : Gate w) (henc : (w.links i).enc = true) : (w.links i).everEnc = true := by
  by_contra hno
  rw [Bool.not_eq_true] at hno
  exact absurd ((h.shut i hno).1.enc.symm.trans henc) Bool.false_ne_true

/-- A channel of ours, on a link that was encrypted. -/
theorem gate_chanOpen (h : Gate w) (hev : (w.links i).everEnc = true) (psm : ℕ) :
    Gate (w.chanOpen i psm) := by
  unfold World.chanOpen
  split
  · exact h
  · dsimp only
    have hbump := steady_bumpId h i
    refine Sends.gate ?_ (sends_sigSend _ _ _ _ _)
    refine (steady_setChan hbump.gate fun hno => ?_).gate
    exact absurd (hbump.ever.trans hev) (by rw [hno]; exact Bool.false_ne_true)

theorem steady_pendingPlace (h : Gate w) {ok : Bool} (hok : ok = true → (w.links i).everEnc = true)
    (j : Place) : Steady i w (w.pendingPlace i ok j) := by
  unfold World.pendingPlace
  dsimp only
  split
  · exact .refl h i
  · split
    case isTrue hyes =>
      have hset : Steady i w (w.setChan i j { (w.links i).ch j with pending := false }) :=
        steady_setChan h fun hno => absurd (hok hyes) (by rw [hno]; exact Bool.false_ne_true)
      have hresp := (sends_connResponse _ i ((w.links i).ch j).pendId (lcid i j)
        ((w.links i).ch j).rcid 0 0).steady hset.gate i
      exact (hset.trans hresp).trans (steady_configRequest hresp.gate i j)
    case isFalse =>
      have hresp :=
        (sends_connResponse w i ((w.links i).ch j).pendId 0 ((w.links i).ch j).rcid 3 0).steady h i
      exact hresp.trans (steady_setChan hresp.gate fun _ => nofun)

/-- Pending channels go on only on a link that was encrypted. -/
theorem steady_pendingResolve (h : Gate w) {ok : Bool}
    (hok : ok = true → (w.links i).everEnc = true) :
    Steady i w (w.pendingResolve i ok) := by
  have hall : ∀ (l : List Place) {w' : World}, Steady i w w' →
      Steady i w (l.foldl (fun w j => w.pendingPlace i ok j) w') := by
    intro l
    induction l with
    | nil => exact fun hw' => hw'
    | cons j l ih =>
      intro w' hw'
      exact ih (hw'.trans (steady_pendingPlace hw'.gate (fun hyes => hw'.ever.trans (hok hyes)) j))
  have hplaces := hall (List.finRange maxChans) (.refl h i)
  unfold World.pendingResolve
  dsimp only
  refine hplaces.trans (steady_setLink hplaces.gate rfl rfl fun _ hs => ?_)
  exact ⟨hs.enc, hs.avSig, hs.avctp, hs.wait⟩

theorem steady_connRequest (h : Gate w) (now : ℕ) (i : Slot) (id : ℕ) (d : Bytes) :
    Steady i w (w.connRequest now i id d) := by
  unfold World.connRequest
  dsimp only
  split
  · exact .refl h i
  · split
    · exact (sends_connResponse w _ _ _ _ _ _).steady h i
    · split
      · exact (sends_connResponse w _ _ _ _ _ _).steady h i
      case h_2 j hj =>
        split
        case isTrue hwait =>
          -- it waits
          have hset : Steady i w (w.setChan i j
              { used := true, psm := u16 d 0, rcid := u16 d 2, rmtu := 672, pending := true,
                pendId := id }) :=
            steady_setChan h fun _ _ _ => ⟨rfl, rfl⟩
          generalize w.setChan i j
            { used := true, psm := u16 d 0, rcid := u16 d 2, rmtu := 672, pending := true,
              pendId := id } = v
            at hset
          have hmid : Steady i w (if (v.links i).pendUntil = 0 then
              v.setLink i { v.links i with authAt := now + 1000, pendUntil := now + 15000 }
                  else v) := by
            split
            · exact hset.trans
                (steady_setLink hset.gate rfl rfl fun _ hs => ⟨hs.enc, hs.avSig, hs.avctp, hs.wait⟩)
            · exact hset
          exact hmid.trans ((sends_connResponse _ _ _ _ _ _ _).steady hmid.gate i)
        case isFalse hnow =>
          -- the service records, or an encrypted link
          have hset : Steady i w (w.setChan i j
              { used := true, psm := u16 d 0, rcid := u16 d 2, rmtu := 672 }) := by
            refine steady_setChan h fun hno _ hpsm => ?_
            exact absurd ⟨hpsm, (h.shut i hno).1.enc⟩ hnow
          have hresp := (sends_connResponse _ i id (lcid i j) (u16 d 2) 0 0).steady hset.gate i
          exact (hset.trans hresp).trans (steady_configRequest hresp.gate i j)

theorem steady_configReqRx (h : Gate w) (now : ℕ) (i : Slot) (id : ℕ) (d : Bytes) :
    Steady i w (w.configReqRx now i id d) := by
  unfold World.configReqRx
  split
  · exact .refl h i
  · split
    · exact (sends_sigSend w _ _ _ _).steady h i
    case h_2 j hj =>
      obtain ⟨hused, -⟩ := w.of_chanBy hj
      dsimp only
      generalize World.configOptions (tlvs d.length (d.drop 4))
        { rmtu := ((w.links i).ch j).rmtu } = k
      have hwait : (w.links i).everEnc = false → ((w.links i).ch j).psm ≠ psmSdp →
          ((w.links i).ch j).pending = true ∧ ((w.links i).ch j).cfgOut = false :=
        fun hno => (h.shut i hno).1.wait j hused
      have hset : Steady i w (w.setChan i j { (w.links i).ch j with rmtu := k.rmtu }) :=
        steady_setChan h fun hno _ => hwait hno
      have hsent :=
        (sends_sigSend (w.setChan i j { (w.links i).ch j with rmtu := k.rmtu }) i 0x05 id
        (put16 ((w.links i).ch j).rcid ++ put16 (u16 d 2 % 2) ++ put16 k.result ++
          k.options)).steady hset.gate i
      have hboth := hset.trans hsent
      generalize (w.setChan i j { (w.links i).ch j with rmtu := k.rmtu }).sigSend i 0x05 id
        (put16 ((w.links i).ch j).rcid ++ put16 (u16 d 2 % 2) ++ put16 k.result ++
          k.options) = v at hboth
      split
      · have hin :
            Steady i w (v.setChan i j { (w.links i).ch j with rmtu := k.rmtu, cfgIn := true }) :=
          hboth.trans (steady_setChan hboth.gate fun hno _ => hwait (hboth.ever ▸ hno))
        split
        case isTrue hout =>
          -- configured both ways: not one that waits
          refine hin.trans (steady_chanOpened hin.gate now ?_)
          rw [hin.ever, World.ch_setChan]
          by_contra hno
          rw [not_or, Bool.not_eq_true] at hno
          exact absurd ((hwait hno.1 hno.2).2.symm.trans hout) Bool.false_ne_true
        case isFalse => exact hin
      · exact hboth

/-- No response configures a pending channel. -/
def World.SparedCmd (i : Slot) (w : World) (x : Cmd) : Prop :=
  x.code = 0x05 → 6 ≤ x.d.length → u16 x.d 4 = 0 →
    ∀ j, w.chanBy i (u16 x.d 0) = some j → ((w.links i).ch j).pending = false

theorem steady_configRsp (h : Gate w) (now : ℕ) (i : Slot) (d : Bytes)
    (hs : 6 ≤ d.length → u16 d 4 = 0 → ∀ j, w.chanBy i (u16 d 0) = some j →
      ((w.links i).ch j).pending = false) : Steady i w (w.configRsp now i d) := by
  unfold World.configRsp
  split
  · exact .refl h i
  case isFalse hlen =>
    split
    · exact .refl h i
    case h_2 j hj =>
      obtain ⟨hused, -⟩ := w.of_chanBy hj
      dsimp only
      split
      · exact .refl h i
      · split
        case isTrue hres =>
          -- the channel does not wait: of the service records, or on a link that was encrypted
          have hfree := hs (not_lt.mp hlen) hres j hj
          have hopen : (w.links i).everEnc = true ∨ ((w.links i).ch j).psm = psmSdp := by
            by_contra hno
            rw [not_or, Bool.not_eq_true] at hno
            have hwait := ((h.shut i hno.1).1.wait j hused hno.2).1
            exact absurd (hfree.symm.trans hwait) Bool.false_ne_true
          have hset : Steady i w (w.setChan i j { (w.links i).ch j with cfgOut := true }) := by
            refine steady_setChan h fun hno _ hpsm => ?_
            rcases hopen with hev | hsdp
            · exact absurd hev (by rw [hno]; exact Bool.false_ne_true)
            · exact absurd hsdp hpsm
          split
          · refine hset.trans (steady_chanOpened hset.gate now ?_)
            rw [hset.ever, World.ch_setChan]
            exact hopen
          · exact hset
        case isFalse =>
          have hbump := steady_bumpId h i
          exact hbump.trans ((sends_sigSend _ _ _ _ _).steady hbump.gate i)

theorem steady_connRsp (h : Gate w) (i : Slot) (id : ℕ) (d : Bytes) :
    Steady i w (w.connRsp i id d) := by
  unfold World.connRsp
  split
  · exact .refl h i
  · split
    · exact .refl h i
    case h_2 j hj =>
      obtain ⟨hused, -⟩ := w.of_chanBy hj
      dsimp only
      split
      · exact .refl h i
      · split
        · exact .refl h i
        · split
          · have hset : Steady i w
                (w.setChan i j { (w.links i).ch j with outId := 0, rcid := u16 d 0 }) :=
              steady_setChan h fun hno _ => (h.shut i hno).1.wait j hused
            exact hset.trans (steady_configRequest hset.gate i j)
          · exact steady_setChan h fun _ => nofun

theorem steady_cmdReject (h : Gate w) (i : Slot) (id : ℕ) : Steady i w (w.cmdReject i id) := by
  refine steady_setLink h rfl rfl fun _ hs => ⟨hs.enc, hs.avSig, hs.avctp, fun j => ?_⟩
  dsimp only
  split
  · exact nofun
  · exact hs.wait j

/-- **A signalling command keeps the gate**, and changes nothing that counts on a link that was
never encrypted. -/
theorem steady_sigCmd (h : Gate w) (now : ℕ) (i : Slot) (x : Cmd) (hs : w.SparedCmd i x) :
    Steady i w (w.sigCmd now i x) := by
  unfold World.sigCmd
  split
  · exact steady_connRequest h now i _ _
  · exact steady_configReqRx h now i _ _
  case h_3 hcode => exact steady_configRsp h now i _ (hs hcode)
  · split
    · exact .refl h i
    · dsimp only
      have hsent := (sends_sigSend w i 0x07 x.id (x.d.take 4)).steady h i
      generalize w.sigSend i 0x07 x.id (x.d.take 4) = v at hsent
      split
      · exact hsent
      · exact hsent.trans (steady_chanFree hsent.gate now i _)
  · exact (sends_sigSend w _ _ _ _).steady h i
  · split
    · exact .refl h i
    · split
      · exact (sends_sigSend w _ _ _ _).steady h i
      · exact (sends_sigSend w _ _ _ _).steady h i
  · exact steady_connRsp h i _ _
  · exact steady_cmdReject h i _
  · exact .refl h i
  · exact .refl h i
  · exact .refl h i
  · exact (sends_sigSend w _ _ _ _).steady h i

/-- So does a packet of them. -/
theorem steady_sigCmds (h : Gate w) (now : ℕ) (i : Slot) {l : List Cmd}
    (hs : Runs.Each (fun w x => World.sigCmd w now i x) (World.SparedCmd i) w l) :
    Steady i w (l.foldl (fun w x => w.sigCmd now i x) w) := by
  induction l generalizing w with
  | nil => exact .refl h i
  | cons x l ih =>
    have hx := steady_sigCmd h now i x hs.1
    exact hx.trans (ih hx.gate hs.2)

/-! ### Packets -/

/-- The stream may go to a link that was encrypted. -/
theorem gate_avMove (h : Gate w) (hev : (w.links i).everEnc = true) {ok : Bool}
    {m : Msg} {w' : World} (hm : AvMove w ok i m w') : Gate w' := by
  cases hm with
  | quiet s cfg delay => exact ⟨h.free, h.shut, h.calls⟩
  | configures hfree hsep =>
    refine ⟨h.free, fun k hk => ⟨(h.shut k hk).1, fun hk' => ?_⟩, h.calls⟩
    obtain rfl := Option.some.inj hk'
    exact absurd hev (by rw [hk]; exact Bool.false_ne_true)
  | reconfigures hl hstate => exact ⟨h.free, h.shut, h.calls⟩
  | fails hok hr => exact ⟨h.free, fun k hk => ⟨(h.shut k hk).1, nofun⟩, h.calls⟩
  | opens hl hstate => exact ⟨h.free, h.shut, h.calls⟩
  | starts hl hstate => exact ⟨h.free, h.shut, h.calls⟩
  | suspends hl hstate => exact ⟨h.free, h.shut, h.calls⟩
  | resets hl => exact ⟨h.free, fun k hk => ⟨(h.shut k hk).1, nofun⟩, h.calls⟩

theorem gate_outDisconnect (h : Gate w) : Gate w.outDisconnect := by
  unfold World.outDisconnect
  split
  · exact h
  case h_2 i hi =>
    have hset : Steady i w (w.setLink i { w.links i with dropping := true }) :=
      steady_setLink h rfl rfl fun _ hs => ⟨hs.enc, hs.avSig, hs.avctp, hs.wait⟩
    exact hset.gate

theorem gate_out (h : Gate w) (o : Out) : Gate { w with out := o } := ⟨h.free, h.shut, h.calls⟩

theorem gate_does (h : Gate w) (hev : (w.links i).everEnc = true) (r : Out × Deed) :
    Gate (w.does i r) := by
  unfold World.does
  dsimp only
  -- the frames that are sent leave the links alone
  have hsent : Sends { w with out := r.1 } (World.outSends
      (r.2.replies.foldl (fun w m => w.avSend i m.bytes) { w with out := r.1 }) r.2.cmds) :=
    (sends_foldl i r.2.replies _).trans (sends_outSends _ _)
  obtain ⟨s, hs⟩ := hsent
  rw [hs]
  have hg : Gate { { w with out := r.1 } with sent := s } := ⟨h.free, h.shut, h.calls⟩
  have hopen : Gate (if r.2.opens = true then
      World.chanOpen { { w with out := r.1 } with sent := s } i psmAvdtp
      else { { w with out := r.1 } with sent := s }) := by
    split
    · exact gate_chanOpen hg hev psmAvdtp
    · exact hg
  split
  · exact gate_outDisconnect hopen
  · exact hopen

/-- **A packet keeps the gate**, and changes nothing that counts where the link was never
encrypted. -/
theorem gate_l2Rx (h : Gate w) (now : ℕ) (ok speaker : Bool) (i : Slot) (cid : ℕ) (p : Bytes)
    (hs : cid = 1 → Runs.Each (fun w x => World.sigCmd w now i x) (World.SparedCmd i) w
      (sigCmds p.length p)) :
    Gate (w.l2Rx now ok speaker i cid p) ∧
      ((w.links i).everEnc = false → Kept w (w.l2Rx now ok speaker i cid p)) := by
  unfold World.l2Rx
  split
  case isTrue hsig =>
    have hcmds := steady_sigCmds h now i (hs hsig)
    exact ⟨hcmds.gate, hcmds.kept⟩
  case isFalse hcid =>
    split
    · exact ⟨h, fun _ => .refl w⟩
    case h_2 j hj =>
      obtain ⟨hused, hlcid⟩ := w.of_chanBy hj
      dsimp only
      split
      · exact ⟨h, fun _ => .refl w⟩
      case isFalse hcfg =>
        split
        · exact ⟨h, fun _ => .refl w⟩
        case isFalse hpsm =>
          -- a channel that is configured both ways: the link was encrypted
          have hev : (w.links i).everEnc = true := by
            by_contra hno
            rw [Bool.not_eq_true] at hno
            have hwait := ((h.shut i hno).1.wait j hused hpsm).2
            simp [hwait] at hcfg
          refine ⟨?_, fun hno => absurd hev (by rw [hno]; exact Bool.false_ne_true)⟩
          split
          · have hcall := gate_called h hev .avdtp
            split
            · unfold World.outRx
              split
              · exact hcall
              · exact gate_does hcall hev _
            · unfold World.avRx
              split
              · exact hcall
              · split
                case isTrue hm => exact gate_avMove hcall hev (moves_avCommand hm)
                case isFalse => exact hcall
          · split
            · exact (talks_avrcpRx _ now speaker i p).gate (gate_called h hev .avrcp)
            · split
              · have hcall := gate_called h hev .media
                unfold World.mediaRx
                split
                · exact ⟨hcall.free, hcall.shut, hcall.calls⟩
                · exact hcall
              · exact h

/-! ### Links that come and go -/

theorem gate_free (i : Slot) (h : Gate w) (hav : w.av.l ≠ some i) : Gate (w.setLink i {}) :=
  gate_setLink h (fun _ => rfl) fun _ => ⟨⟨rfl, rfl, rfl, nofun⟩, hav⟩

theorem gate_linkGone (h : Gate w) (now : ℕ) (i : Slot) : Gate (w.linkGone now i) := by
  have hchans : Gate ((List.finRange maxChans).foldl
      (fun w j => if ((w.links i).ch j).used then w.chanFree now i j else w) w) := by
    refine Runs.invariant_all (I := Gate) (fun w' j hw' => ?_) h _
    split
    · exact (steady_chanFree hw' now i j).gate
    · exact hw'
  unfold World.linkGone
  dsimp only
  generalize (List.finRange maxChans).foldl
    (fun w j => if ((w.links i).ch j).used then w.chanFree now i j else w) w = v at hchans
  have hav : Gate (if v.av.l = some i then v.avReset else v) ∧
      (if v.av.l = some i then v.avReset else v).av.l ≠ some i := by
    split
    · exact ⟨gate_avReset hchans, nofun⟩
    case isFalse hne => exact ⟨hchans, hne⟩
  generalize (if v.av.l = some i then v.avReset else v) = u at hav
  split
  · exact gate_free i (gate_out hav.1 _) hav.2
  · exact gate_free i hav.1 hav.2

theorem gate_lost (h : Gate w) (now : ℕ) : Gate (w.lost now) := by
  have hlinks : Gate ((List.finRange maxLinks).foldl
      (fun w i => if (w.links i).used then w.linkGone now i else w) w) := by
    refine Runs.invariant_all (I := Gate) (fun w' i hw' => ?_) h _
    split
    · exact gate_linkGone hw' now i
    · exact hw'
  exact ⟨hlinks.free, hlinks.shut, hlinks.calls⟩

theorem linked_of_linkBy {handle : ℕ} (h : w.linkBy handle = some i) : (w.links i).used = true := by
  have hi := List.find?_some h
  simp only [Bool.and_eq_true] at hi
  exact hi.1

theorem gate_connComplete (h : Gate w) (now addr handle : ℕ) (enc : Bool) :
    Gate (w.connComplete now addr handle enc) := by
  unfold World.connComplete
  extract_lets paged o v
  have hv : Gate v := by
    simp only [v]
    split
    · exact ⟨h.free, h.shut, h.calls⟩
    · exact h
  split
  · exact hv
  case h_2 i hi =>
    extract_lets u
    have hnone : v.av.l ≠ some i := by
      refine (hv.shut i (hv.free i ?_)).2
      simpa only [Bool.not_eq_true'] using List.find?_some hi
    have hset : Gate u := by
      refine gate_setLink hv nofun fun hno => ⟨⟨?_, rfl, rfl, nofun⟩, hnone⟩
      exact hno
    split
    · unfold World.outLinkUp
      have hup : Steady i u (u.setLink i { u.links i with
          authAt := now + if paged = true then 0 else 1500, pendUntil := now + 20000 }) :=
        steady_setLink hset rfl rfl fun _ hs => ⟨hs.enc, hs.avSig, hs.avctp, hs.wait⟩
      exact ⟨hup.gate.free, hup.gate.shut, hup.gate.calls⟩
    · exact hset

theorem gate_encChange (h : Gate w) (handle : ℕ) (ok on : Bool) :
    Gate (w.encChange handle ok on) := by
  unfold World.encChange
  split
  · exact h
  case h_2 i hi =>
    dsimp only
    generalize henc : (ok && on) = enc
    have hset : Gate (w.setLink i { w.links i with
        enc := enc, everEnc := (w.links i).everEnc || enc }) := by
      refine gate_setLink h (fun hno => ?_) fun hno => ?_
      · exact absurd (linked_of_linkBy hi) (by rw [hno]; exact Bool.false_ne_true)
      obtain ⟨hever, hoff⟩ := Bool.or_eq_false_iff.mp hno
      obtain ⟨hs, hav⟩ := h.shut i hever
      exact ⟨⟨hoff, hs.avSig, hs.avctp, hs.wait⟩, hav⟩
    split
    · refine (steady_pendingResolve hset fun hyes => ?_).gate
      rw [World.links_setLink]
      exact Bool.or_eq_true_iff.mpr (.inr hyes)
    · exact hset

/-- Pending channels are refused. -/
theorem gate_refused (h : Gate w) (i : Slot) : Gate (w.pendingResolve i false) := by
  have hst : Steady i w (w.pendingResolve i false) := steady_pendingResolve h nofun
  exact hst.gate

theorem gate_authComplete (h : Gate w) (handle : ℕ) (ok : Bool) :
    Gate (w.authComplete handle ok) := by
  unfold World.authComplete
  split
  · exact h
  · split
    · exact gate_refused h _
    · split
      case isTrue henc => exact (steady_pendingResolve h fun _ => h.ever henc).gate
      case isFalse => exact h

theorem gate_inquiryDone (h : Gate w) (now : ℕ) : Gate (w.inquiryDone now) := by
  unfold World.inquiryDone
  extract_lets w₁
  have h₁ : Gate w₁ := ⟨h.free, h.shut, h.calls⟩
  split
  · exact h₁
  · extract_lets away w₂
    have h₂ : Gate w₂ := by
      change Gate (if away = true then
        World.outDisconnect { w₁ with out := w₁.out.streamReset } else w₁)
      split
      · exact gate_outDisconnect (gate_out h₁ w₁.out.streamReset)
      · exact h₁
    exact ⟨h₂.free, h₂.shut, h₂.calls⟩

theorem gate_avctpDue (h : Gate w) (now : ℕ) (i : Slot) : Gate (w.avctpDue now i) := by
  unfold World.avctpDue
  dsimp only
  split
  · exact h
  · have hset : Steady i w (w.setLink i { w.links i with avctpAt := 0 }) :=
      steady_setLink h rfl rfl fun _ hs => ⟨hs.enc, hs.avSig, hs.avctp, hs.wait⟩
    split
    case isTrue hdo => exact gate_chanOpen hset.gate (hset.ever.trans (h.ever hdo.2.1)) psmAvctp
    case isFalse => exact hset.gate

theorem gate_pendDue (h : Gate w) (now : ℕ) (i : Slot) : Gate (w.pendDue now i) := by
  unfold World.pendDue
  dsimp only
  split
  · exact h
  · split
    · exact gate_refused h _
    · split
      · exact h
      · have hset : Steady i w (w.setLink i { w.links i with authSent := true }) :=
          steady_setLink h rfl rfl fun _ hs => ⟨hs.enc, hs.avSig, hs.avctp, hs.wait⟩
        exact hset.gate

theorem gate_switchReq (h : Gate w) (now : ℕ) (on stay : Bool) :
    Gate (w.switchReq now on stay) := by
  unfold World.switchReq
  split
  · exact h
  · dsimp only
    split
    · exact gate_outDisconnect ⟨h.free, h.shut, h.calls⟩
    · exact ⟨h.free, h.shut, h.calls⟩

/-- We open channels on an encrypted link only. -/
theorem gate_outUpkeep (h : Gate w) (now : ℕ) (want stay speaker : Bool) :
    Gate (w.outUpkeep now want stay speaker) :=
  outUpkeep_keeps (fun hw _ => gate_out hw _) (fun hw ht => ht.gate hw) gate_outDisconnect h
    (fun _ _ henc => gate_chanOpen h (h.ever henc) psmAvdtp) now want stay speaker

end

/-! ### Runs -/

/-- No packet has a response that configures a pending channel. -/
def World.Spared (w : World) (e : ℕ × Ev) : Prop :=
  match e.2 with
  | .l2 i cid p _ _ =>
      cid = 1 →
        Runs.Each (fun w x => World.sigCmd w e.1 i x) (World.SparedCmd i) w (sigCmds p.length p)
  | _ => True

/-- **Every step keeps the gate.** -/
theorem gate_step {w : World} (h : Gate w) (e : ℕ × Ev) (hs : w.Spared e) : Gate (w.step e) := by
  obtain ⟨now, e⟩ := e
  cases e with
  | l2 i cid p ok speaker =>
    simp only [World.step]
    split
    · exact (gate_l2Rx h now ok speaker i cid p hs).1
    · exact h
  | connComplete addr handle enc => exact gate_connComplete h now addr handle enc
  | pageFailed =>
    simp only [World.step, World.pageFailed]
    split
    · exact gate_out h _
    · exact h
  | disconnect handle =>
    simp only [World.step]
    split
    · exact h
    · exact gate_linkGone h now _
  | authComplete handle ok => exact gate_authComplete h handle ok
  | encChange handle ok on => exact gate_encChange h handle ok on
  | found a rssi =>
    simp only [World.step, World.found]
    split
    · split
      · exact h
      · exact ⟨h.free, h.shut, h.calls⟩
    · exact ⟨h.free, h.shut, h.calls⟩
  | inquiryDone => exact gate_inquiryDone h now
  | lost => exact gate_lost h now
  | avctpDue i => exact gate_avctpDue h now i
  | volumeDue i => exact (talks_volumeDue w i).gate h
  | pendDue i => exact gate_pendDue h now i
  | search on =>
    simp only [World.step, World.searchReq]
    split
    · split
      · exact h
      · exact ⟨h.free, h.shut, h.calls⟩
    · exact ⟨h.free, h.shut, h.calls⟩
  | inquires =>
    simp only [World.step]
    split
    · exact ⟨h.free, h.shut, h.calls⟩
    · exact h
  | switch on stay => exact gate_switchReq h now on stay
  | pages ok =>
    simp only [World.step, World.pages]
    split
    · exact gate_out h _
    · exact h
  | outUpkeep want stay speaker => exact gate_outUpkeep h now want stay speaker
  -- no link is touched
  | echoVolume pct => exact ⟨h.free, h.shut, h.calls⟩
  | speakerVolume pct => exact ⟨h.free, h.shut, h.calls⟩
  | yields b => exact ⟨h.free, h.shut, h.calls⟩

theorem gate_init (seps : List Codec) (addr : ℕ) (on : Bool) : Gate (World.init seps addr on) :=
  ⟨fun _ _ => rfl, fun _ _ => ⟨⟨rfl, rfl, rfl, nofun⟩, nofun⟩, nofun⟩

/-- **Nothing of a device counts before its link is encrypted**, in every run in which no response
configures a pending channel: no channel of AVDTP or AVCTP is opened on a link that was never
encrypted, none of their commands and no media packet is looked at, and no packet of such a link
changes the stream, the jitter buffer or the volume. -/
theorem nothing_counts (seps : List Codec) (addr : ℕ) (on : Bool) (l : List (ℕ × Ev))
    (h : Runs.Each World.step World.Spared (World.init seps addr on) l) :
    (∀ x ∈ ((World.init seps addr on).run l).calls, x.what ≠ .opened psmSdp → x.enc = true) ∧
      ∀ l₁ now i cid p ok speaker l₂, l = l₁ ++ (now, .l2 i cid p ok speaker) :: l₂ →
        (((World.init seps addr on).run l₁).links i).everEnc = false →
        Kept ((World.init seps addr on).run l₁)
          (((World.init seps addr on).run l₁).step (now, .l2 i cid p ok speaker)) := by
  have hgate : ∀ {l : List (ℕ × Ev)},
      Runs.Each World.step World.Spared (World.init seps addr on) l →
      Gate ((World.init seps addr on).run l) := by
    intro l hl
    exact Runs.invariant (I := Gate) (fun w e hw he => gate_step hw e he)
      (gate_init seps addr on) hl
  refine ⟨(hgate h).calls, fun l₁ now i cid p ok speaker l₂ hl hever => ?_⟩
  subst hl
  obtain ⟨hbefore, hthis⟩ := (Runs.each_append _ _ _).mp h
  simp only [World.step]
  split
  · exact (gate_l2Rx (hgate hbefore) now ok speaker i cid p hthis.1).2 hever
  · exact .refl _

/-- A device connects, and asks for AVDTP before it encrypts. -/
def asksEarly : List (ℕ × Ev) :=
  [(0, .connComplete 7 1 false), (1, .l2 0 1 [0x02, 1, 4, 0, 0x19, 0, 0x50, 0] true false)]

/-- It encrypts, and configures the channel. -/
def encryptsFirst : List (ℕ × Ev) :=
  [(2, .encChange 1 true true), (3, .l2 0 1 [0x04, 2, 4, 0, 0x40, 0, 0, 0] true false),
    (4, .l2 0 1 [0x05, 1, 6, 0, 0x40, 0, 0, 0, 0, 0] true false)]

/-- The condition holds where the device encrypts, and the channel is opened. -/
theorem nothing_counts_encrypted :
    Runs.Each World.step World.Spared (World.init [] 0 false) (asksEarly ++ encryptsFirst) ∧
      ((World.init [] 0 false).run (asksEarly ++ encryptsFirst)).calls =
        [⟨0, .opened psmAvdtp, true⟩] ∧
      ∀ x ∈ ((World.init [] 0 false).run (asksEarly ++ encryptsFirst)).calls,
        x.what ≠ .opened psmSdp → x.enc = true := by
  have h : Runs.Each World.step World.Spared (World.init [] 0 false)
      (asksEarly ++ encryptsFirst) := by
    refine ⟨trivial, fun _ => ⟨nofun, trivial⟩, trivial, fun _ => ⟨nofun, trivial⟩,
      fun _ => ⟨?_, trivial⟩, trivial⟩
    intro _ _ _ j hj
    obtain rfl : j = 0 := by
      revert hj
      revert j
      decide
    decide
  exact ⟨h, by decide, (nothing_counts [] 0 false _ h).1⟩

/-- It configures the channel at once: a request, and a response to none of ours. -/
def configuresEarly : List (ℕ × Ev) :=
  [(2, .l2 0 1 [0x04, 2, 4, 0, 0x40, 0, 0, 0, 0x05, 1, 6, 0, 0x40, 0, 0, 0, 0, 0] true false)]

/-- **A channel that is opened on a link that was never encrypted.** -/
theorem pending_opened :
    ((World.init [] 0 false).run (asksEarly ++ configuresEarly)).calls =
      [⟨0, .opened psmAvdtp, false⟩] ∧
      (((World.init [] 0 false).run (asksEarly ++ configuresEarly)).links 0).avSig = 0x40 ∧
      (((World.init [] 0 false).run (asksEarly ++ configuresEarly)).links 0).everEnc = false ∧
      ¬ ∀ x ∈ ((World.init [] 0 false).run (asksEarly ++ configuresEarly)).calls,
        x.what ≠ .opened psmSdp → x.enc = true := by
  have hcalls : ((World.init [] 0 false).run (asksEarly ++ configuresEarly)).calls =
      [⟨0, .opened psmAvdtp, false⟩] := by
    decide
  refine ⟨hcalls, by decide, by decide, fun hno => ?_⟩
  have hfirst := hno ⟨0, .opened psmAvdtp, false⟩ (by rw [hcalls]; exact List.mem_singleton_self _)
  exact absurd (hfirst (by decide)) Bool.false_ne_true

end Hassmic.A2dp
