import Hassmic.A2dp.Dangling

/-!
# Configurations that are refused

A phone configures the stream with a list of elements, and may configure it again while it is open.
The list is checked and taken over element by element, so an element that is refused may come behind
one that was taken already.

## Main definitions

* `Codec.takes`, `Codec.accepts` — an element of the codec, and any element that is accepted.
* `World.reported` — what Get Configuration reports.
* `World.Rejected`, `World.Accepted` — how a command was answered.
* `World.Faithful` — a refused configuration changes nothing, and an accepted one is in use.
* `World.Keeps` — nothing was taken over before the refusal that differs from what was there.

## Main results

* `avConfig_spec` — what a list of elements comes to.
* `faithful_iff` — **a refused configuration changes nothing**, exactly if nothing was taken over
  before.
-/

namespace Hassmic.A2dp

open List

/-! ### A list of elements -/

/-- An element with a configuration within the capabilities of the codec. -/
def Codec.takes (codec : Codec) (t : Tlv) : Bool :=
  t.whole && t.type = 7 && 2 ≤ t.len && t.len - 2 ≤ 16 && byteAt t.val 0 / 16 = 0 &&
    byteAt t.val 1 = codec.type && codec.check (t.val.drop 2)

/-- An element that is accepted. -/
def Codec.accepts (codec : Codec) (reconf : Bool) (t : Tlv) : Bool :=
  t.whole && (!reconf && (t.type = 1 || t.type = 8)) || codec.takes t

/-- The configuration behind an element. -/
def Tlv.config (cfg : Bytes) (t : Tlv) : Bytes := if t.type = 7 then t.val.drop 2 else cfg

/-- What an accepted element leaves. -/
def Conf.with (k : Conf) (t : Tlv) : Conf :=
  { k with
    cat := t.type
    cfg := t.config k.cfg
    got := k.got || t.type = 7
    delay := k.delay || t.type = 8 }

section config

variable {codec : Codec} {reconf : Bool}

/-- One element: it is taken over, or the list is refused. -/
theorem avConfig_cons (t : Tlv) (ts : List Tlv) (k : Conf) :
    if codec.accepts reconf t then
      avConfig codec reconf (t :: ts) k = avConfig codec reconf ts (k.with t)
    else ∃ e, e ≠ 0 ∧ avConfig codec reconf (t :: ts) k = { k with cat := t.type, err := e } := by
  have hrefused : ∀ {e : UInt8}, e ≠ 0 →
      avConfig codec reconf (t :: ts) k = { k with cat := t.type, err := e } →
      ∃ e, e ≠ 0 ∧ avConfig codec reconf (t :: ts) k = { k with cat := t.type, err := e } :=
      fun he h => ⟨_, he, h⟩
  unfold Codec.accepts Codec.takes
  by_cases hwhole : t.whole = true
  · rw [hwhole, Bool.true_and, Bool.true_and]
    by_cases hmedia : t.type = 1 ∧ (!reconf) = true
    · rw [if_pos (by rw [hmedia.2, hmedia.1]; rfl)]
      rw [avConfig]
      dsimp only
      rw [if_neg (by rw [hwhole]; decide), if_pos hmedia]
      congr 1
      unfold Conf.with Tlv.config
      rw [hmedia.1]
      simp
    · by_cases hdelay : t.type = 8 ∧ (!reconf) = true
      · rw [if_pos (by rw [hdelay.2, hdelay.1]; rfl)]
        rw [avConfig]
        dsimp only
        rw [if_neg (by rw [hwhole]; decide), if_neg hmedia, if_pos hdelay]
        congr 1
        unfold Conf.with Tlv.config
        rw [hdelay.1]
        simp
      · have hno : (!reconf && (decide (t.type = 1) || decide (t.type = 8))) = false := by
          rw [Bool.eq_false_iff]
          intro h
          rw [Bool.and_eq_true, Bool.or_eq_true, decide_eq_true_eq, decide_eq_true_eq] at h
          rcases h.2 with h1 | h8
          · exact hmedia ⟨h1, h.1⟩
          · exact hdelay ⟨h8, h.1⟩
        rw [hno, Bool.false_or]
        by_cases htype : t.type = 7
        -- the codec is taken as `Codec.takes` says, or refused with an error
        · by_cases hbad : t.len < 2 ∨ 16 < t.len - 2 ∨ byteAt t.val 0 / 16 ≠ 0 ∨
              byteAt t.val 1 ≠ codec.type ∨
              (!codec.check (t.val.drop 2)) = true
          · rw [if_neg]
            · refine hrefused (e := Err.unsupportedConf) (by decide) ?_
              rw [avConfig]
              dsimp only
              rw [if_neg (by rw [hwhole]; decide), if_neg hmedia, if_neg hdelay,
                if_neg (not_not.mpr htype), if_pos hbad]
            · simp only [Bool.and_eq_true, decide_eq_true_eq]
              rintro ⟨⟨⟨⟨⟨-, hlen⟩, hmax⟩, hzero⟩, hcodec⟩, hcheck⟩
              rw [hcheck] at hbad
              rcases hbad with h | h | h | h | h
              · omega
              · omega
              · exact h hzero
              · exact h hcodec
              · exact nomatch h
          · rw [if_pos]
            · rw [avConfig]
              dsimp only
              rw [if_neg (by rw [hwhole]; decide), if_neg hmedia, if_neg hdelay,
                if_neg (not_not.mpr htype), if_neg hbad]
              congr 1
              unfold Conf.with Tlv.config
              rw [htype]
              simp
            · simp only [not_or, not_lt, not_not] at hbad
              obtain ⟨hlen, hmax, hzero, hcodec, hcheck⟩ := hbad
              simp only [Bool.and_eq_true, decide_eq_true_eq]
              refine ⟨⟨⟨⟨⟨htype, hlen⟩, hmax⟩, hzero⟩, hcodec⟩, ?_⟩
              cases hc : codec.check (t.val.drop 2) with
              | true => rfl
              | false => rw [hc] at hcheck; exact absurd rfl hcheck
        · rw [if_neg (by simp [htype])]
          refine hrefused (e := if reconf then Err.invalidCapabilities
            else Err.badServCategory) ?_ ?_
          · split
            · decide
            · decide
          · rw [avConfig]
            dsimp only
            rw [if_neg (by rw [hwhole]; decide), if_neg hmedia, if_neg hdelay, if_pos htype]
  · have hfalse : t.whole = false := Bool.eq_false_iff.mpr hwhole
    rw [hfalse, if_neg (by simp)]
    refine hrefused (e := Err.badServCategory) (by decide) ?_
    rw [avConfig]
    dsimp only
    rw [if_pos (by rw [hfalse]; decide)]

/-- **What a list of elements comes to.**  It is accepted if each of its elements is, and the codec
is among them where it must be; what was taken over are the elements before the first that is not
accepted. -/
theorem avConfig_spec (ts : List Tlv) (k : Conf) (hk : k.err = 0) :
    ((avConfig codec reconf ts k).err = 0 ↔
      ts.all (codec.accepts reconf) = true ∧
      (reconf = true ∨ k.got = true ∨ ∃ t ∈ ts, t.type = 7)) ∧
    (avConfig codec reconf ts k).cfg =
      (ts.takeWhile (codec.accepts reconf)).foldl Tlv.config k.cfg ∧
    (avConfig codec reconf ts k).delay =
      (k.delay || (ts.takeWhile (codec.accepts reconf)).any fun t => t.type = 8) := by
  induction ts generalizing k with
  | nil =>
    unfold avConfig
    split
    case isTrue h =>
      rw [Bool.and_eq_true, Bool.not_eq_true', Bool.not_eq_true'] at h
      refine ⟨⟨fun h0 => absurd (show Err.unsupportedConf = 0 from h0) (by decide), ?_⟩, rfl,
        (Bool.or_false _).symm⟩
      rintro ⟨-, hrec | hgot | ⟨t, ht, -⟩⟩
      · rw [h.2] at hrec
        exact nomatch hrec
      · rw [h.1] at hgot
        exact nomatch hgot
      · exact absurd ht not_mem_nil
    case isFalse h =>
      refine ⟨⟨fun _ => ⟨rfl, ?_⟩, fun _ => hk⟩, rfl, (Bool.or_false _).symm⟩
      rw [Bool.and_eq_true, Bool.not_eq_true', Bool.not_eq_true', not_and_or, Bool.not_eq_false,
        Bool.not_eq_false] at h
      rcases h with hgot | hrec
      · exact .inr (.inl hgot)
      · exact .inl hrec
  | cons t ts ih =>
    have hcons := @avConfig_cons codec reconf t ts k
    split at hcons
    case isTrue hacc =>
      obtain ⟨herr, hcfg, hdelay⟩ := ih (k.with t) hk
      rw [hcons, takeWhile_cons_of_pos hacc, foldl_cons, any_cons, all_cons, hacc, Bool.true_and]
      refine ⟨herr.trans (and_congr_right fun _ => or_congr_right ?_), hcfg, ?_⟩
      · have hwith : (k.with t).got = true ↔ k.got = true ∨ t.type = 7 := by
          unfold Conf.with
          rw [Bool.or_eq_true, decide_eq_true_eq]
        rw [hwith, exists_mem_cons_iff, or_assoc]
      · rw [hdelay]
        unfold Conf.with
        rw [Bool.or_assoc]
    case isFalse hrefused =>
      obtain ⟨e, he, heq⟩ := hcons
      rw [heq, takeWhile_cons_of_neg hrefused]
      refine ⟨⟨fun h0 => absurd h0 he, ?_⟩, rfl, (Bool.or_false _).symm⟩
      rintro ⟨hall, -⟩
      rw [all_cons, Bool.and_eq_true] at hall
      exact absurd hall.1 hrefused

end config

/-! ### A command and its answer -/

/-- The endpoint that a command names. -/
def Msg.seid (m : Msg) : ℕ := if m.d = [] then 0 else (byteAt m.d 0).toNat / 4

namespace World

variable (w : World)

/-- What Get Configuration reports on a link, if it is accepted. -/
def reported (i : Slot) : Option Bytes :=
  if w.av.l = some i then (w.sepCodec w.av.sep).map fun codec =>
    capsOf codec w.av.cfg w.av.delay else none

/-- The first thing that was sent is the answer to a command. -/
def Answered (accept : Bool) (i : Slot) (m : Msg) (w' : World) : Prop :=
  ∃ j, w.chanBy i (w.links i).avSig = some j ∧ ∃ d more, w'.sent = w.sent ++
    ⟨i, ((w.links i).ch j).rcid,
      Msg.bytes ⟨m.label, if accept then .accept else .reject, m.sig, d⟩⟩ :: more

/-- What a refused configuration must leave alone. -/
structure Unchanged (w' : World) : Prop where
  stream : w'.av.l = w.av.l
  sep : w'.av.sep = w.av.sep
  state : w'.av.state = w.av.state
  delay : w'.av.delay = w.av.delay
  reported : ∀ i, w'.reported i = w.reported i

/-- The codec in use was opened with the configuration that is reported. -/
structure InUse (i : Slot) : Prop where
  stream : w.av.l = some i
  codec : w.codecs.getLast? = some (.opened w.av.sep)
  config : w.openedWith = w.av.cfg

/-- **A refused configuration changes nothing**, unless a codec fails to open again, and after an
accepted one the codec in use was opened with what is reported. -/
def Faithful (ok : Bool) (i : Slot) (p : Bytes) : Prop :=
  ∀ m, Msg.ofBytes p = some m → m.kind = .command → m.sig = Sig.setConf ∨ m.sig = Sig.reconf →
    (w.Answered false i m (w.avRx ok i p) → ¬ (ok = false ∧ w.Reconfigures i m) →
      w.Unchanged (w.avRx ok i p)) ∧
    (w.Answered true i m (w.avRx ok i p) → (w.avRx ok i p).InUse i)

/-- A Set Configuration whose codec cannot be opened asks for delay reporting as it was. -/
def KeepsDelay (ok : Bool) (m : Msg) : Prop :=
  ∀ codec, w.sepCodec m.seid = some codec → m.sig = Sig.setConf → 2 ≤ m.d.length →
    w.av.l = none → ok = false →
    let ts := tlvs m.d.length (m.d.drop 2)
    ts.all (codec.accepts false) = true → (∃ t ∈ ts, t.type = 7) →
    (ts.any fun t => t.type = 8) = w.av.delay

/-- The elements of a Reconfigure before one that is not accepted say what was configured
already. -/
def KeepsConfig (i : Slot) (m : Msg) : Prop :=
  ∀ codec, w.sepCodec m.seid = some codec → m.sig = Sig.reconf → w.av.l = some i →
    m.seid = w.av.sep →
    w.av.state = .opened →
    let ts := tlvs m.d.length (m.d.drop 1)
    ts.all codec.takes = false → (ts.takeWhile codec.takes).foldl Tlv.config w.av.cfg = w.av.cfg

/-- Nothing is taken over that is not undone. -/
def Keeps (ok : Bool) (i : Slot) (p : Bytes) : Prop :=
  (w.chanBy i (w.links i).avSig).isSome = true →
    ∀ m, Msg.ofBytes p = some m → m.kind = .command → w.KeepsDelay ok m ∧ w.KeepsConfig i m

end World

section answers

variable {w : World} {ok : Bool} {i : Slot} {j : Place} {m : Msg} {codec : Codec}

theorem avCommand_setConf (hsig : m.sig = Sig.setConf) :
    w.avCommand ok i m = w.avSetConf ok i m.label m.seid m.d := by
  unfold World.avCommand
  extract_lets mine seid ours
  rw [hsig, if_neg (by decide), if_neg (by decide), if_pos rfl]
  rfl

theorem avCommand_reconf (hsig : m.sig = Sig.reconf) :
    w.avCommand ok i m =
      match if w.av.l = some i ∧ m.seid = w.av.sep then w.sepCodec m.seid else none with
      | none => w.avReply i m.label Sig.reconf false [Err.badAcpSeid]
      | some codec => w.avReconf ok i m.label codec m.d := by
  unfold World.avCommand
  extract_lets mine seid ours
  rw [hsig, if_neg (by decide), if_neg (by decide), if_neg (by decide), if_pos rfl]
  rfl

/-- An answer is sent if there is a channel for it. -/
theorem avReply_eq (hj : w.chanBy i (w.links i).avSig = some j) (label sig : ℕ)
    (accept : Bool) (d : Bytes) :
    w.avReply i label sig accept d = { w with
      sent := w.sent ++ [⟨i, ((w.links i).ch j).rcid,
        Msg.bytes ⟨label, if accept then .accept else .reject, sig, d.take 46⟩⟩] } := by
  unfold World.avReply World.avSend
  rw [hj]
  dsimp only
  unfold World.l2Send
  rw [if_pos]
  have hlen : (d.take 46).length ≤ 46 := length_take_le 46 d
  unfold Msg.bytes
  simp only [length_append, length_cons, length_nil]
  omega

/-- The bytes of an accept are not those of a reject. -/
theorem Msg.bytes_accept_ne (label sig : ℕ) (d d' : Bytes) :
    Msg.bytes ⟨label, .accept, sig, d⟩ ≠ Msg.bytes ⟨label, .reject, sig, d'⟩ := by
  intro h
  have hfirst : (label * 16 + 2).toUInt8 = (label * 16 + 3).toUInt8 := (List.cons.inj h).1
  have hnat : (label * 16 + 2) % 256 = (label * 16 + 3) % 256 := by
    have := congrArg UInt8.toNat hfirst
    simpa using this
  omega

/-- No answer is both. -/
theorem World.Answered.not {w' : World} (h : w.Answered true i m w') :
    ¬ w.Answered false i m w' := by
  rintro ⟨j', hj', d', more', h'⟩
  obtain ⟨j, hj, d, more, h⟩ := h
  obtain rfl : j = j' := Option.some.inj (hj.symm.trans hj')
  have hcons := append_cancel_left (h.symm.trans h')
  have hframe := (List.cons.inj hcons).1
  exact Msg.bytes_accept_ne _ _ _ _ (congrArg Frame.pdu hframe)

/-- The configuration that is reported says what it is. -/
theorem capsOf_inj {c : Codec} {a b : Bytes} {delay : Bool}
    (h : capsOf c a delay = capsOf c b delay) : a = b := by
  unfold capsOf at h
  have hinfo := append_cancel_right h
  simp only [cons_append, nil_append, List.cons.injEq, true_and] at hinfo
  exact hinfo.2

theorem Codec.accepts_true (codec : Codec) : codec.accepts true = codec.takes := by
  funext t
  unfold Codec.accepts
  rw [Bool.not_true, Bool.false_and, Bool.and_false, Bool.false_or]

/-- A refusal must change nothing. -/
theorem settles_refused {w' : World} {P : Prop} (h : w.Answered false i m w') :
    ((w.Answered false i m w' → P → w.Unchanged w') ∧ (w.Answered true i m w' → w'.InUse i)) ↔
      (P → w.Unchanged w') :=
  ⟨fun hboth => hboth.1 h, fun hu => ⟨fun _ => hu, fun hacc => absurd h hacc.not⟩⟩

/-- What was accepted must be in use. -/
theorem settles_accepted {w' : World} {P : Prop} (h : w.Answered true i m w') :
    ((w.Answered false i m w' → P → w.Unchanged w') ∧ (w.Answered true i m w' → w'.InUse i)) ↔
    w'.InUse i :=
  ⟨fun hboth => hboth.2 h, fun hu => ⟨fun hrej => absurd hrej h.not, fun _ => hu⟩⟩

/-- What has sent nothing yet answers. -/
theorem answered_avReply {v : World} (hj : w.chanBy i (w.links i).avSig = some j)
    (hlinks : v.links = w.links) (hsent : v.sent = w.sent) (accept : Bool) (d : Bytes) :
    w.Answered accept i m (v.avReply i m.label m.sig accept d) := by
  have hv : v.chanBy i (v.links i).avSig = some j := by
    unfold World.chanBy
    rw [hlinks]
    exact hj
  refine ⟨j, hj, d.take 46, [], ?_⟩
  rw [avReply_eq hv, hsent, hlinks]

/-- An answer alone changes nothing. -/
theorem unchanged_avReply (label sig : ℕ) (accept : Bool) (d : Bytes) :
    w.Unchanged (w.avReply i label sig accept d) := by
  obtain ⟨s, hs⟩ := sends_avReply w i label sig accept d
  rw [hs]
  exact ⟨rfl, rfl, rfl, rfl, fun _ => rfl⟩

/-- A report of the delay is sent behind what was sent already. -/
theorem delayReport_eq (w : World) (i : Slot) :
    ∃ more, w.delayReport i = { w with
      sent := w.sent ++ more
      av := { w.av with label := w.av.label + 1 } } := by
  unfold World.delayReport World.avSend
  split
  · exact ⟨[], by rw [append_nil]⟩
  · unfold World.l2Send
    rw [if_pos (by simp)]
    exact ⟨_, rfl⟩

/-- A configuration that is accepted is in use, whether the delay is reported or not. -/
theorem accepted_inUse {v : World} (hj : w.chanBy i (w.links i).avSig = some j)
    (hlinks : v.links = w.links) (hsent : v.sent = w.sent) (hl : v.av.l = some i)
    (hcodec : v.codecs.getLast? = some (.opened v.av.sep)) (hconfig : v.openedWith = v.av.cfg) :
    w.Answered true i m (if (v.avReply i m.label m.sig true []).av.delay then
        (v.avReply i m.label m.sig true []).delayReport i else v.avReply i m.label m.sig true []) ∧
      (if (v.avReply i m.label m.sig true []).av.delay then
        (v.avReply i m.label m.sig true []).delayReport i
            else v.avReply i m.label m.sig true []).InUse i := by
  have hanswer := answered_avReply (m := m) hj hlinks hsent true []
  have huse : (v.avReply i m.label m.sig true []).InUse i := by
    obtain ⟨s, hs⟩ := sends_avReply v i m.label m.sig true []
    rw [hs]
    exact ⟨hl, hcodec, hconfig⟩
  split
  · obtain ⟨more, hs⟩ := delayReport_eq (v.avReply i m.label m.sig true []) i
    obtain ⟨k, hk, d, rest, hsent'⟩ := hanswer
    rw [hs]
    refine ⟨⟨k, hk, d, rest ++ more, ?_⟩, huse.stream, huse.codec, huse.config⟩
    dsimp only
    rw [hsent', append_assoc, cons_append]
  · exact ⟨hanswer, huse⟩

/-- While there is no stream, nothing is reported. -/
theorem reported_none (hfree : w.av.l = none) (k : Slot) : w.reported k = none := by
  unfold World.reported
  rw [hfree, if_neg nofun]

/-- **Set Configuration.** -/
theorem setConf_iff {P : Prop} (hP : P) (hj : w.chanBy i (w.links i).avSig = some j)
    (hsig : m.sig = Sig.setConf) :
    ((w.Answered false i m (w.avSetConf ok i m.label m.seid m.d) → P →
        w.Unchanged (w.avSetConf ok i m.label m.seid m.d)) ∧
      (w.Answered true i m (w.avSetConf ok i m.label m.seid m.d) →
        (w.avSetConf ok i m.label m.seid m.d).InUse i)) ↔ w.KeepsDelay ok m := by
  unfold World.avSetConf World.KeepsDelay
  rw [← hsig]
  split
  case h_1 hnone =>
    refine (settles_refused (answered_avReply hj (by rfl) (by rfl) _ _)).trans ?_
    refine iff_of_true (fun _ => unchanged_avReply _ _ _ _) fun codec hcodec _ hlen => ?_
    rw [if_neg (by omega), hcodec] at hnone
    exact nomatch hnone
  case h_2 codec hsome =>
    have hlen : 2 ≤ m.d.length := by
      by_contra hshort
      rw [if_pos (by omega)] at hsome
      exact nomatch hsome
    rw [if_neg (by omega)] at hsome
    split
    case isTrue htaken =>
      refine (settles_refused (answered_avReply hj (by rfl) (by rfl) _ _)).trans ?_
      refine iff_of_true (fun _ => unchanged_avReply _ _ _ _) fun _ _ _ _ hfree => ?_
      rw [hfree] at htaken
      exact nomatch htaken
    case isFalse htaken =>
      have hfree : w.av.l = none := by simpa using htaken
      obtain ⟨herr, -, hdelay⟩ := @avConfig_spec codec false
        (tlvs m.d.length (m.d.drop 2)) { cfg := w.av.cfg } rfl
      dsimp only
      split
      case isTrue hrefused =>
        refine (settles_refused (answered_avReply hj (by rfl) (by rfl) _ _)).trans ?_
        refine iff_of_true (fun _ => ?_) fun codec' hcodec' _ _ _ _ hall hmust => ?_
        · obtain ⟨s, hs⟩ := sends_avReply { w with av := { w.av with
            cfg := (avConfig codec false (tlvs m.d.length (m.d.drop 2))
              { cfg := w.av.cfg }).cfg } } i m.label
            m.sig false
              [(avConfig codec false (tlvs m.d.length (m.d.drop 2)) { cfg := w.av.cfg }).cat,
                (avConfig codec false (tlvs m.d.length (m.d.drop 2)) { cfg := w.av.cfg }).err]
          rw [hs]
          exact ⟨rfl, rfl, rfl, rfl,
            fun k => (reported_none (by exact hfree) k).trans (reported_none hfree k).symm⟩
        · obtain rfl := Option.some.inj (hsome.symm.trans hcodec')
          exact absurd (herr.mpr ⟨hall, .inr (.inr hmust)⟩) hrefused
      case isFalse haccepted =>
        have hgood := herr.mp (not_not.mp haccepted)
        -- an accepted list names a codec
        have hmust : ∃ t ∈ tlvs m.d.length (m.d.drop 2), t.type = 7 := by
          rcases hgood.2 with h | h | h
          · exact nomatch h
          · exact nomatch h
          · exact h
        rw [takeWhile_eq_self_iff.mpr (all_eq_true.mp hgood.1), Bool.false_or] at hdelay
        generalize avConfig codec false (tlvs m.d.length (m.d.drop 2))
          { cfg := w.av.cfg } = k at hdelay
        cases ok with
        -- the codec did not open: only the delay may have changed
        | false =>
          rw [if_pos Bool.not_false]
          refine (settles_refused (answered_avReply hj (by rfl) (by rfl) _ _)).trans ?_
          obtain ⟨s, hs⟩ :=
            sends_avReply { w with av := { w.av with cfg := k.cfg, delay := k.delay } } i m.label
            m.sig false [7, Err.unsupportedConf]
          rw [hs]
          constructor
          · intro hu codec' hcodec' _ _ _ _ _ _
            exact hdelay.symm.trans (hu hP).delay
          · intro hkeeps _
            have hsame := hkeeps codec hsome rfl hlen hfree rfl hgood.1 hmust
            exact ⟨rfl, rfl, rfl, hdelay.trans hsame,
              fun k => (reported_none (by exact hfree) k).trans (reported_none hfree k).symm⟩
        | true =>
          rw [if_neg (by decide)]
          obtain ⟨hanswer, huse⟩ := accepted_inUse (v := { w with
            codecs := w.codecs ++ [CodecOp.opened m.seid]
            openedWith := k.cfg
            av := { w.av with
              cfg := k.cfg, delay := k.delay, l := some i, sep := m.seid, state := .configured
              rseid := (byteAt m.d 1).toNat / 4 } }) (m := m) hj rfl rfl rfl getLast?_concat rfl
          exact (settles_accepted hanswer).trans (iff_of_true huse fun _ _ _ _ _ hok => nomatch hok)

/-- **Reconfigure**, of the endpoint that the link has configured. -/
theorem reconf_iff (hj : w.chanBy i (w.links i).avSig = some j) (hm : m.kind = .command)
    (hsig : m.sig = Sig.reconf) (hl : w.av.l = some i) (hsep : m.seid = w.av.sep)
    (hcodec : w.sepCodec m.seid = some codec) :
    ((w.Answered false i m (w.avReconf ok i m.label codec m.d) →
      ¬ (ok = false ∧ w.Reconfigures i m) →
        w.Unchanged (w.avReconf ok i m.label codec m.d)) ∧
      (w.Answered true i m (w.avReconf ok i m.label codec m.d) →
        (w.avReconf ok i m.label codec m.d).InUse i)) ↔ w.KeepsConfig i m := by
  unfold World.KeepsConfig
  unfold World.avReconf
  rw [← hsig]
  split
  case isTrue hstate =>
    refine (settles_refused (answered_avReply hj (by rfl) (by rfl) _ _)).trans ?_
    exact iff_of_true (fun _ => unchanged_avReply _ _ _ _) fun _ _ _ _ _ hopened =>
      absurd hopened hstate
  case isFalse hstate =>
    have hopened : w.av.state = .opened := not_not.mp hstate
    obtain ⟨herr, hcfg, -⟩ := @avConfig_spec codec true
      (tlvs m.d.length (m.d.drop 1)) { cfg := w.av.cfg } rfl
    rw [codec.accepts_true] at herr hcfg
    dsimp only
    split
    case isTrue hrefused =>
      have hbad : (tlvs m.d.length (m.d.drop 1)).all codec.takes = false := by
        rw [Bool.eq_false_iff]
        exact fun hall => hrefused (herr.mpr ⟨hall, .inl rfl⟩)
      have hagain : ¬ (ok = false ∧ w.Reconfigures i m) := by
        rintro ⟨-, -, -, -, -, -, -, codec', hcodec', herr'⟩
        rw [← hsep] at hcodec'
        obtain rfl := Option.some.inj (hcodec.symm.trans hcodec')
        exact hrefused herr'
      refine (settles_refused (answered_avReply hj (by rfl) (by rfl) _ _)).trans ?_
      rw [hcfg]
      obtain ⟨s, hs⟩ := sends_avReply { w with av := { w.av with
        cfg := ((tlvs m.d.length (m.d.drop 1)).takeWhile codec.takes).foldl Tlv.config
          w.av.cfg } } i m.label
        m.sig false [(avConfig codec true (tlvs m.d.length (m.d.drop 1)) { cfg := w.av.cfg }).cat,
          (avConfig codec true (tlvs m.d.length (m.d.drop 1)) { cfg := w.av.cfg }).err]
      rw [hs]
      constructor
      · intro hu codec' hcodec' _ _ _ _ _
        obtain rfl := Option.some.inj (hcodec.symm.trans hcodec')
        -- what is reported says what is configured
        have hreported := (hu hagain).reported i
        unfold World.reported at hreported
        rw [if_pos (by exact hl), if_pos hl] at hreported
        change (w.sepCodec w.av.sep).map _ = _ at hreported
        rw [← hsep, hcodec] at hreported
        exact capsOf_inj (Option.some.inj hreported)
      · intro hkeeps _
        have hsame := hkeeps codec hcodec rfl hl hsep hopened hbad
        rw [hsame]
        exact ⟨rfl, rfl, rfl, rfl, fun _ => rfl⟩
    case isFalse haccepted =>
      have hgood := herr.mp (not_not.mp haccepted)
      have hkeeps : ∀ codec', w.sepCodec m.seid = some codec' →
          (tlvs m.d.length (m.d.drop 1)).all codec'.takes ≠ false := by
        intro codec' hcodec'
        obtain rfl := Option.some.inj (hcodec.symm.trans hcodec')
        rw [hgood.1]
        decide
      generalize (avConfig codec true (tlvs m.d.length (m.d.drop 1)) { cfg := w.av.cfg }).cfg = cfg
      cases ok with
      | true =>
        rw [if_pos rfl]
        refine (settles_accepted (answered_avReply hj (by rfl) (by rfl) _ _)).trans ?_
        obtain ⟨s, hs⟩ := sends_avReply { w with
          av := { w.av with cfg := cfg }
          codecs := w.codecs ++ [CodecOp.closed w.av.sep, CodecOp.opened w.av.sep]
          openedWith := cfg } i m.label m.sig true []
        rw [hs]
        refine iff_of_true ⟨hl, ?_, rfl⟩ fun codec' hcodec' _ _ _ _ hbad =>
          absurd hbad (hkeeps codec' hcodec')
        change (w.codecs ++ [CodecOp.closed w.av.sep, CodecOp.opened w.av.sep]).getLast? = _
        simp
      | false =>
        rw [if_neg (by decide)]
        have hr : w.Reconfigures i m := by
          -- no endpoint is 0
          have hd : m.d ≠ [] := by
            intro hd
            unfold Msg.seid at hcodec
            rw [if_pos hd] at hcodec
            exact nomatch hcodec
          refine ⟨hm, hsig, hl, hopened, hd, ?_, codec, hsep ▸ hcodec, not_not.mp haccepted⟩
          unfold Msg.seid at hsep
          rwa [if_neg hd] at hsep
        have hanswer : w.Answered false i m ({ w with
            av := { w.av with cfg := cfg }
            codecs := w.codecs ++ [CodecOp.closed w.av.sep] }.avReply i m.label m.sig false
              [7, Err.unsupportedConf]).avReset := by
          -- closing the stream sends nothing
          exact answered_avReply (v := { w with
            av := { w.av with cfg := cfg }
            codecs := w.codecs ++ [CodecOp.closed w.av.sep] }) hj rfl rfl false
              [7, Err.unsupportedConf]
        refine (settles_refused hanswer).trans ?_
        exact iff_of_true (fun hno => absurd ⟨rfl, hr⟩ hno)
          fun codec' hcodec' _ _ _ _ hbad => absurd hbad (hkeeps codec' hcodec')

end answers

/-- **A refused configuration changes nothing**, exactly if nothing was taken over before it was
refused, and no codec that cannot be opened asks for delay reporting; after an accepted one the
codec in use was opened with the configuration that is reported. -/
theorem faithful_iff (w : World) (ok : Bool) (i : Slot) (p : Bytes) :
    w.Faithful ok i p ↔ w.Keeps ok i p := by
  unfold World.Faithful World.Keeps
  cases hj : w.chanBy i (w.links i).avSig with
  | none =>
    refine iff_of_true (fun m _ _ _ => ⟨?_, ?_⟩) fun h => nomatch h
    · rintro ⟨j, hj', -⟩
      exact nomatch hj.symm.trans hj'
    · rintro ⟨j, hj', -⟩
      exact nomatch hj.symm.trans hj'
  | some j =>
    rw [Option.isSome_some, forall_prop_of_true rfl]
    refine forall_congr' fun m => forall_congr' fun hp => forall_congr' fun hm => ?_
    have hrx : w.avRx ok i p = w.avCommand ok i m := by
      unfold World.avRx
      rw [hp]
      exact if_pos hm
    rw [hrx]
    by_cases hset : m.sig = Sig.setConf
    · have hagain : ¬ (ok = false ∧ w.Reconfigures i m) :=
        fun h => absurd (hset.symm.trans h.2.2.1) (by decide)
      rw [forall_prop_of_true (.inl hset), avCommand_setConf hset, setConf_iff hagain hj hset]
      exact (and_iff_left fun _ _ hre => absurd (hset.symm.trans hre) (by decide)).symm
    · have hdelay : w.KeepsDelay ok m := fun _ _ h => absurd h hset
      by_cases hre : m.sig = Sig.reconf
      · rw [forall_prop_of_true (.inr hre), and_iff_right hdelay, avCommand_reconf hre]
        split
        case h_1 hnone =>
          rw [← hre]
          refine (settles_refused (answered_avReply hj (by rfl) (by rfl) _ _)).trans ?_
          refine iff_of_true (fun _ => unchanged_avReply _ _ _ _) fun codec hcodec _ hl hsep => ?_
          rw [if_pos ⟨hl, hsep⟩, hcodec] at hnone
          exact nomatch hnone
        case h_2 codec hsome =>
          split at hsome
          case isFalse => exact nomatch hsome
          case isTrue hours => exact reconf_iff hj hm hre hours.1 hours.2 hsome
      · refine iff_of_true (fun h => ?_) ⟨hdelay, fun _ _ h => absurd h hre⟩
        rcases h with h | h
        · exact absurd h hset
        · exact absurd h hre

/-- A device that has configured the stream, and opened it. -/
def openedStream : World := (World.init [anyCodec] 0 false).run (signals ++ configures)

/-- It configures it again, with an element that is taken over and one that is refused. -/
def midway : Bytes := [0x30, 5, 4, 7, 6, 0, 0, 0x21, 0x15, 2, 35, 8, 0]

/-- **The refused configuration is reported**, and the codec goes on with the other one. -/
theorem refused_midway :
    (openedStream.avRx true 0 midway).sent = openedStream.sent ++ [⟨0, 0x50, [0x33, 5, 8, 0x1e]⟩] ∧
      openedStream.reported 0 = some [1, 0, 7, 6, 0, 0, 0x21, 0x15, 2, 53] ∧
      (openedStream.avRx true 0 midway).reported 0 = some [1, 0, 7, 6, 0, 0, 0x21, 0x15, 2, 35] ∧
      (openedStream.avRx true 0 midway).openedWith = [0x21, 0x15, 2, 53] ∧
      ¬ openedStream.Faithful true 0 midway := by
  have hfacts : openedStream.chanBy 0 (openedStream.links 0).avSig = some 0 ∧
      ((openedStream.links 0).ch 0).rcid = 0x50 ∧
      (openedStream.avRx true 0 midway).sent = openedStream.sent ++
      [⟨0, 0x50, [0x33, 5, 8, 0x1e]⟩] ∧
      openedStream.reported 0 = some [1, 0, 7, 6, 0, 0, 0x21, 0x15, 2, 53] ∧
      (openedStream.avRx true 0 midway).reported 0 = some [1, 0, 7, 6, 0, 0, 0x21, 0x15, 2, 35] ∧
      (openedStream.avRx true 0 midway).openedWith = [0x21, 0x15, 2, 53] := by
    decide
  obtain ⟨hj, hcid, hsent, hbefore, hafter, hopened⟩ := hfacts
  refine ⟨hsent, hbefore, hafter, hopened, fun h => ?_⟩
  have hunchanged := (h ⟨3, .command, Sig.reconf, midway.drop 2⟩ rfl rfl (.inr rfl)).1
    ⟨0, hj, [8, 0x1e], [], by rw [hsent, hcid]; rfl⟩ (fun hno => nomatch hno.1)
  have hsame := hunchanged.reported 0
  rw [hbefore, hafter] at hsame
  exact absurd hsame (by decide)

end Hassmic.A2dp
