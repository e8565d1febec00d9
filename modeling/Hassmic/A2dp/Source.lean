import Hassmic.A2dp.Links

/-!
# Playing to a speaker

On the signalling channel of the speaker we configure its endpoint ourselves, one command at a time:
discover, capabilities, configuration, open, and start and suspend as the mixer wants it.  The
speaker may send commands of its own meanwhile; one that configures our endpoint first is followed
instead.

## Main definitions

* `Msg` — a message of AVDTP.
* `Out.answer`, `Out.command`, `Out.rx` — answers to our commands, commands of the speaker, and
  both.
* `Deed` — what they ask of the link.
-/

namespace Hassmic.A2dp

namespace Sig

abbrev discover : ℕ := 1
abbrev getCap : ℕ := 2
abbrev setConf : ℕ := 3
abbrev getConf : ℕ := 4
abbrev reconf : ℕ := 5
abbrev opens : ℕ := 6
abbrev start : ℕ := 7
abbrev close : ℕ := 8
abbrev suspend : ℕ := 9
abbrev abort : ℕ := 10
abbrev security : ℕ := 11
abbrev getAllCap : ℕ := 12
abbrev delay : ℕ := 13

end Sig

namespace Err

abbrev badAcpSeid : UInt8 := 0x12
abbrev sepInUse : UInt8 := 0x13
abbrev badServCategory : UInt8 := 0x17
abbrev notSupported : UInt8 := 0x19
abbrev invalidCapabilities : UInt8 := 0x1e
abbrev unsupportedConf : UInt8 := 0x29
abbrev badState : UInt8 := 0x31

end Err

/-- A command, a general reject, an accept or a reject. -/
inductive MsgKind
  | command
  | generalReject
  | accept
  | reject
  deriving DecidableEq

/-- A message of AVDTP. -/
structure Msg where
  label : ℕ
  kind : MsgKind
  sig : ℕ
  d : Bytes := []

namespace Msg

/-- Its two low bits. -/
def code : MsgKind → ℕ
  | .command => 0
  | .generalReject => 1
  | .accept => 2
  | .reject => 3

def bytes (m : Msg) : Bytes := [(m.label * 16 + code m.kind).toUInt8, m.sig.toUInt8] ++ m.d

/-- A packet that is one; fragments are not. -/
def ofBytes (p : Bytes) : Option Msg :=
  let b := (byteAt p 0).toNat
  if p.length < 2 ∨ b / 4 % 4 ≠ 0 then none
  else
    some
      { label := b / 16
        kind := match b % 4 with
          | 0 => .command
          | 1 => .generalReject
          | 2 => .accept
          | _ => .reject
        sig := (byteAt p 1).toNat % 64
        d := p.drop 2 }

end Msg

/-- Our source endpoint. -/
abbrev outSeid : ℕ := 0x30
abbrev outBitpool : ℕ := 53

/-- What is asked of the link: answers on the channel that the message came on, commands of ours,
the media channel, and whether the stream failed. -/
structure Deed where
  replies : List Msg := []
  cmds : List Msg := []
  opens : Bool := false
  fails : Bool := false

/-- `sbc_fits`. -/
def sbcFits (s : Bytes) : Bool :=
  byteAt s 0 &&& 0x20 ≠ 0 && byteAt s 0 &&& 0x01 ≠ 0 && byteAt s 1 &&& 0x10 ≠ 0 &&
    byteAt s 1 &&& 0x04 ≠ 0 && byteAt s 1 &&& 0x01 ≠ 0 && byteAt s 2 ≤ byteAt s 3 && byteAt s 2 ≤ 53

/-- A capability that is SBC as we encode it. -/
def isSbc (t : Tlv) : Bool :=
  t.type = 7 && 6 ≤ t.len && byteAt t.val 0 / 16 = 0 && byteAt t.val 1 = 0 && sbcFits (t.val.drop 2)

/-- The endpoints of an answer that are audio sinks not in use, at most eight. -/
def freeSinks : ℕ → Bytes → List ℕ
  | 0, _ => []
  | k + 1, a :: b :: rest =>
      if a &&& 2 = 0 ∧ b / 16 = 0 ∧ b &&& 8 ≠ 0 then a.toNat / 4 :: freeSinks k rest
      else freeSinks (k + 1) rest
  | _ + 1, _ => []

namespace Out

variable (o : Out)

/-- `out_cmd`, with or without the signalling channel. -/
def cmd (up : Bool) (now : ℕ) (sig : ℕ) (d : Bytes) : Out × List Msg :=
  if up ∧ d.length ≤ 22 then
    let label := (o.label + 1) % 16
    ({ o with label := label, sig := sig, sentAt := now }, [⟨label, .command, sig, d⟩])
  else (o, [])

/-- `out_seid_cmd`. -/
def seidCmd (up : Bool) (now : ℕ) (sig : ℕ) : Out × List Msg :=
  o.cmd up now sig [(o.rseid * 4).toUInt8]

/-- With the commands that are sent. -/
def does (r : Out × List Msg) : Out × Deed := (r.1, { cmds := r.2 })

/-- `out_fail`. -/
def fails (now : ℕ) : Out × Deed := (o.fail now, { fails := true })

/-- `out_answer`: the answer to our command. -/
def answer (up room : Bool) (now : ℕ) (ok : Bool) (d : Bytes) : Out × Deed :=
  match o.phase with
  | .discover =>
      if !ok then o.fails now
      else
        match freeSinks 8 d with
        | [] => fails { o with seps := [] } now
        | s :: seps =>
            does (seidCmd { o with seps := s :: seps, sepI := 0, rseid := s, phase := .caps }
              up now Sig.getCap)
  | .caps =>
      match if ok then ((tlvs d.length d).takeWhile Tlv.whole).find? isSbc else none with
      | some t =>
          let bpMin := max 2 (byteAt t.val 4).toNat
          let bitpool := min (byteAt t.val 5).toNat outBitpool
          does (cmd { o with bpMin := bpMin, bitpool := bitpool, phase := .setconf }
            up now Sig.setConf
            [(o.rseid * 4).toUInt8, (outSeid * 4).toUInt8, 1, 0, 7, 6, 0x00, 0x00, 0x21, 0x15,
              bpMin.toUInt8, bitpool.toUInt8])
      | none =>
          if o.sepI + 1 < o.seps.length then
            does (seidCmd { o with sepI := o.sepI + 1, rseid := o.seps.getD (o.sepI + 1) 0 }
              up now Sig.getCap)
          else fails { o with sepI := o.sepI + 1 } now
  | .setconf => if !ok then o.fails now else does (seidCmd (o.toPhase .opens) up now Sig.opens)
  | .opens =>
      if !ok then o.fails now
      else if room then ({ o with phase := .media, sentAt := now }, { opens := true })
      else fails { o with phase := .media, sentAt := now } now
  | .start => (o.toPhase (if ok then .streaming else .ready), {})
  | .suspend => (o.toPhase (if ok then .ready else .streaming), {})
  | _ => (o, {})

/-- `out_command`, the capabilities of a configuration: the category and the error, or the
bitpool. -/
def confBitpool : List Tlv → ℕ → Except (UInt8 × UInt8) ℕ
  | [], bp => if bp = 0 then .error (7, Err.unsupportedConf) else .ok bp
  | t :: ts, bp =>
      if !t.whole then .error (t.type, Err.badServCategory)
      else if t.type = 1 ∨ t.type = 8 then confBitpool ts bp
      else if t.type ≠ 7 then .error (t.type, Err.badServCategory)
      else if t.len < 6 ∨ byteAt t.val 0 / 16 ≠ 0 ∨ byteAt t.val 1 ≠ 0 ∨ byteAt t.val 2 ≠ 0x21 ∨
          byteAt t.val 3 ≠ 0x15 ∨ byteAt t.val 4 < 2 ∨ byteAt t.val 5 < byteAt t.val 4 ∨
          53 < byteAt t.val 4 then
        .error (7, Err.unsupportedConf)
      else confBitpool ts (min (byteAt t.val 5).toNat outBitpool)

/-- `out_caps`. -/
def capsBytes : Bytes := [1, 0, 7, 6, 0x00, 0x00, 0x21, 0x15, 2, 53]

/-- `out_command`: a command of the speaker, and the answer to it. -/
def command (now : ℕ) (m : Msg) : Out × Msg :=
  let seid := if m.d = [] then 0 else (byteAt m.d 0).toNat / 4
  let mine := seid = outSeid
  let accept (d : Bytes) : Msg := ⟨m.label, .accept, m.sig, d⟩
  let reject (d : Bytes) : Msg := ⟨m.label, .reject, m.sig, d⟩
  if m.sig = Sig.discover then
    (o, accept [(outSeid * 4 + if Phase.setconf.num ≤ o.phase.num then 2 else 0).toUInt8, 0x00])
  else if m.sig = Sig.getCap ∨ m.sig = Sig.getAllCap then
    (o, if mine then accept capsBytes else reject [Err.badAcpSeid])
  else if m.sig = Sig.setConf then
    if m.d.length < 2 ∨ ¬ mine then (o, reject [0, Err.badAcpSeid])
    else if Phase.setconf.num ≤ o.phase.num then (o, reject [0, Err.sepInUse])
    else
      match confBitpool (tlvs m.d.length (m.d.drop 2)) 0 with
      | .error (cat, e) => (o, reject [cat, e])
      | .ok bp =>
          ({ o with rseid := (byteAt m.d 1).toNat / 4, bitpool := bp, sig := 0, intAt := 0,
                    phase := .acp },
            accept [])
  else if m.sig = Sig.opens then
    if ¬ mine ∨ o.phase ≠ .acp then (o, reject [if mine then Err.badState else Err.badAcpSeid])
    -- it opens the media channel
    else ({ o with phase := .media, sentAt := now }, accept [])
  else if m.sig = Sig.start ∨ m.sig = Sig.suspend then
    if ¬ mine ∨ !o.phase.isReady then
      (o, reject [(seid * 4).toUInt8, if mine then Err.badState else Err.badAcpSeid])
    else if m.sig = Sig.start then (o.toPhase .streaming, accept [])
    else (if o.phase = .streaming ∨ o.phase = .suspend then o.toPhase .ready else o, accept [])
  else if m.sig = Sig.close ∨ m.sig = Sig.abort then
    -- configure again unless it does
    ({ o.streamReset with intAt := now + 2000 }, accept [])
  else if m.sig = Sig.delay then (o, accept [])
  else if m.sig = Sig.getConf ∨ m.sig = Sig.reconf ∨ m.sig = Sig.security then
    (o, reject [Err.notSupported])
  else (o, ⟨m.label, .generalReject, m.sig, []⟩)

/-- `out_rx`. -/
def rx (up room : Bool) (now : ℕ) (m : Msg) : Out × Deed :=
  if m.kind = .command then ((o.command now m).1, { replies := [(o.command now m).2] })
  -- not what we wait for
  else if o.sig = 0 ∨ m.label ≠ o.label ∨ m.sig ≠ o.sig then (o, {})
  else answer { o with sig := 0 } up room now (m.kind = .accept) m.d

/-- `out_upkeep`, the part that starts and suspends the stream. -/
def follows (up : Bool) (now : ℕ) (want : Bool) : Out × List Msg :=
  if o.sig = 0 ∧ o.phase = .ready ∧ want then (o.toPhase .start).seidCmd up now Sig.start
  else if o.sig = 0 ∧ o.phase = .streaming ∧ !want then
    (o.toPhase .suspend).seidCmd up now Sig.suspend
  else (o, [])

/-! ### What none of it changes -/

/-- The link and the speaker stay, and the media channel is the same or none. -/
structure Keeps (o o' : Out) : Prop where
  l : o'.l = o.l
  addr : o'.addr = o.addr
  media : o'.media = o.media ∨ o'.media = 0

variable {o}

theorem Keeps.refl (o : Out) : Keeps o o := ⟨rfl, rfl, .inl rfl⟩

theorem Keeps.trans {o₁ o₂ : Out} (h : Keeps o o₁) (h' : Keeps o₁ o₂) : Keeps o o₂ := by
  refine ⟨h'.l.trans h.l, h'.addr.trans h.addr, ?_⟩
  rcases h'.media with hm | hm
  · rw [hm]
    exact h.media
  · exact .inr hm

theorem Keeps.fails {o₁ : Out} (h : Keeps o o₁) (now : ℕ) : Keeps o (o₁.fails now).1 :=
  h.trans ⟨rfl, rfl, .inr rfl⟩

theorem Keeps.cmd {o₁ : Out} (h : Keeps o o₁) (up : Bool) (now sig : ℕ) (d : Bytes) :
    Keeps o (o₁.cmd up now sig d).1 := by
  refine h.trans ?_
  unfold Out.cmd
  split
  · exact ⟨rfl, rfl, .inl rfl⟩
  · exact .refl o₁

theorem Keeps.seidCmd {o₁ : Out} (h : Keeps o o₁) (up : Bool) (now sig : ℕ) :
    Keeps o (o₁.seidCmd up now sig).1 :=
  h.cmd up now sig _

theorem keeps_answer (up room : Bool) (now : ℕ) (ok : Bool) (d : Bytes) :
    Keeps o (o.answer up room now ok d).1 := by
  unfold answer
  split
  · split
    · exact (Keeps.refl o).fails now
    · split
      · refine Keeps.fails ?_ now
        exact ⟨rfl, rfl, .inl rfl⟩
      · refine Keeps.seidCmd ?_ up now _
        exact ⟨rfl, rfl, .inl rfl⟩
  · split
    · refine Keeps.cmd ?_ up now _ _
      exact ⟨rfl, rfl, .inl rfl⟩
    · split
      · refine Keeps.seidCmd ?_ up now _
        exact ⟨rfl, rfl, .inl rfl⟩
      · refine Keeps.fails ?_ now
        exact ⟨rfl, rfl, .inl rfl⟩
  · split
    · exact (Keeps.refl o).fails now
    · refine Keeps.seidCmd ?_ up now _
      exact ⟨rfl, rfl, .inl rfl⟩
  · split
    · exact (Keeps.refl o).fails now
    · split
      · exact ⟨rfl, rfl, .inl rfl⟩
      · refine Keeps.fails ?_ now
        exact ⟨rfl, rfl, .inl rfl⟩
  · exact ⟨rfl, rfl, .inl rfl⟩
  · exact ⟨rfl, rfl, .inl rfl⟩
  · exact .refl o

theorem keeps_command (now : ℕ) (m : Msg) : Keeps o (o.command now m).1 := by
  unfold command
  extract_lets seid mine accept reject
  split
  · exact .refl o
  · split
    · exact .refl o
    · split
      · split
        · exact .refl o
        · split
          · exact .refl o
          · split
            · exact .refl o
            · exact ⟨rfl, rfl, .inl rfl⟩
      · split
        · split
          · exact .refl o
          · exact ⟨rfl, rfl, .inl rfl⟩
        · split
          · split
            · exact .refl o
            · split
              · exact ⟨rfl, rfl, .inl rfl⟩
              · dsimp only
                split
                · exact ⟨rfl, rfl, .inl rfl⟩
                · exact .refl o
          · split
            · exact ⟨rfl, rfl, .inr rfl⟩
            · split
              · exact .refl o
              · split
                · exact .refl o
                · exact .refl o

/-- Neither answers nor commands of the speaker change which link it is on. -/
theorem keeps_rx (up room : Bool) (now : ℕ) (m : Msg) : Keeps o (o.rx up room now m).1 := by
  unfold rx
  split
  · exact keeps_command now m
  · split
    · exact .refl o
    · have hsig : Keeps o { o with sig := 0 } := ⟨rfl, rfl, .inl rfl⟩
      exact hsig.trans (keeps_answer up room now _ _)

theorem keeps_follows (up : Bool) (now : ℕ) (want : Bool) : Keeps o (o.follows up now want).1 := by
  unfold follows
  split
  · refine Keeps.seidCmd ?_ up now _
    exact ⟨rfl, rfl, .inl rfl⟩
  · split
    · refine Keeps.seidCmd ?_ up now _
      exact ⟨rfl, rfl, .inl rfl⟩
    · exact .refl o

end Out

end Hassmic.A2dp
