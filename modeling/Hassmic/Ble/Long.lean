import Hassmic.Ble.Gatt
import Hassmic.Lib.Runs

/-!
# Long reads and writes

A value that does not fit in one PDU is read and written piece by piece.  How long a piece is, is
worked out twice from the MTU of the moment: when it is asked for or sent, and when the answer has
come.  A device that refused our MTU exchange may still begin its own at any moment, and the MTU
changes between the two.

A connection with one such request at work talks to a device here that follows the protocol: it
takes what we send in order and answers each request once, and speaks for itself at any moment,
notifications and its own MTU exchange among others.

## Main definitions

* `Device`, `Talk`, `Talk.step` — a device, what is on the way between the two, and what happens.
* `Follows` — the device follows the protocol.
* `Steady` — its MTU exchange does not change the piece that is on the way.
* `Laid` — the prepared writes of the parts of a value, each at its own offset.
* `Exact` — what was delivered and reported is the value.

## Main results

* `long_exact` — **a value is delivered and reported exactly**, in every run in which no MTU
  exchange changes the piece that is on the way.
* `long_split` — with such an exchange, bytes are never sent and never read.
-/

namespace Hassmic.Ble
namespace Gatt

open Wire List

/-! ### The device -/

namespace Att

abbrev invalidOffset : UInt8 := 0x07

end Att

open Att

/-- A device: the longest PDU that it takes, and the value of the attribute that is read. -/
structure Device where
  rx : ℕ
  value : Bytes

namespace Device

variable (D : Device)

/-- An error response to a request. -/
def refusal (p : Bytes) (err : UInt8) : Bytes := [error, byteAt p 0, byteAt p 1, byteAt p 2, err]

/-- The answer to a request, under the MTU of the device. -/
def answer (mtu : ℕ) (p : Bytes) : Bytes :=
  if byteAt p 0 = readReq then readRsp :: D.value.take (mtu - 1)
  else if byteAt p 0 = readBlobReq then
    if D.value.length < u16 p 3 then refusal p invalidOffset
    else readBlobRsp :: (D.value.drop (u16 p 3)).take (mtu - 1)
  else if byteAt p 0 = prepWriteReq then prepWriteRsp :: p.drop 1
  else [byteAt p 0 + 1]

/-- The request of its own MTU exchange. -/
def mtuPdu : Bytes := mtuReq :: put16 D.rx

/-- What a device says for itself: notifications, its MTU exchange, other requests, commands. -/
def Own (p : Bytes) : Prop :=
  byteAt p 0 = notify ∨ byteAt p 0 = indicate ∨ p = D.mtuPdu ∨
    byteAt p 0 % 2 = 0 ∧ byteAt p 0 ≠ confirm ∧ byteAt p 0 ≠ mtuReq

/-- The MTU of the device behind what it takes: our answer to its exchange sets it. -/
def after (mtu : ℕ) (l : List Bytes) : ℕ :=
  l.foldl (fun m p => if byteAt p 0 = mtuRsp then min D.rx (u16 p 1) else m) mtu

end Device

/-- A connection and the device: the device's MTU, whether it began its own exchange, and what is on
the way in each direction. -/
structure Talk where
  c : Conn
  mtu : ℕ
  asked : Bool
  toDevice : List Bytes
  toUs : List Bytes

/-- What happens: another request is made, the device takes the next PDU (and refuses it), it speaks
for itself, and we take its next PDU. -/
inductive TalkEv
  | queue (o : Op)
  | takes (refuses : Option UInt8)
  | speaks (p : Bytes)
  | hears

namespace Talk

variable (D : Device) (w : Talk)

/-- The connection changes, and what it sends is on the way. -/
def send (c : Conn) : Talk :=
  { w with c := c, toDevice := w.toDevice ++ c.sent.drop w.c.sent.length }

/-- The device takes a PDU. -/
def deviceTakes (refuses : Option UInt8) (p : Bytes) : Talk :=
  if byteAt p 0 ∈ requests then
    { w with toUs := w.toUs ++ [match refuses with
      | none => D.answer w.mtu p
      | some err => Device.refusal p err] }
  else { w with mtu := D.after w.mtu [p] }

/-- One step. -/
def step : TalkEv → Talk
  | .queue o => w.send (w.c.opQueue o)
  | .takes refuses =>
      match w.toDevice with
      | [] => w
      | p :: rest => { w with toDevice := rest }.deviceTakes D refuses p
  | .speaks p => { w with toUs := w.toUs ++ [p], asked := w.asked || byteAt p 0 = mtuReq }
  | .hears =>
      match w.toUs with
      | [] => w
      | p :: rest => { w with toUs := rest }.send ((w.c.answered p).attRx p)

end Talk

variable (D : Device) (w : Talk) (o : Op)

/-- The device follows the protocol: what it calls not long fits in one PDU, and it begins its MTU
exchange once. -/
def Follows : TalkEv → Prop
  | .takes (some err) => err = notLong → D.value.length ≤ w.mtu - 1
  | .speaks p => D.Own p ∧ (byteAt p 0 = mtuReq → w.asked = false)
  | _ => True

/-- The MTU that its exchange sets makes no difference to the piece that is on the way: a piece that
is being written stays as long as it was, and what is read goes on under the same MTU or ends with
this piece. -/
def Steady : TalkEv → Prop
  | .hears => w.toUs.head? = some D.mtuPdu →
      (w.c.air = [prepWriteReq] →
        min (o.req.data.length - w.c.off) (Conn.agreed D.rx - 5) =
          min (o.req.data.length - w.c.off) (w.c.mtu - 5)) ∧
      (w.c.air = [readReq] ∨ w.c.air = [readBlobReq] →
        Conn.agreed D.rx = w.c.mtu ∨ D.value.length ≤ w.c.val.length + (w.c.mtu - 1))
  | _ => True

instance (p : Bytes) : Decidable (D.Own p) := by
  unfold Device.Own
  infer_instance

instance (e : TalkEv) : Decidable (Follows D w e) := by
  unfold Follows
  split <;> infer_instance

instance (e : TalkEv) : Decidable (Steady D w o e) := by
  unfold Steady
  split <;> infer_instance

/-- A request is next in the queue of a connection that is up, and no other is on the air.  The
device has the MTU that we have, once it has taken what is on the way. -/
structure Begins : Prop where
  starts : w.c.starts = true
  cur : w.c.cur = none
  ops : w.c.ops.head? = some o
  air : w.c.air = []
  mtu : 23 ≤ w.c.mtu ∧ w.c.mtu ≤ attMtu
  rx : 23 ≤ D.rx ∧ D.rx < 2 ^ 16
  quiet : ∀ p ∈ w.toDevice, byteAt p 0 ∉ requests
  own : ∀ p ∈ w.toUs, D.Own p
  agreed : D.after w.mtu w.toDevice = w.c.mtu

/-! ### What is delivered -/

/-- A prepared write of a part of a value. -/
def prepPdu (handle off : ℕ) (part : Bytes) : Bytes :=
  prepWriteReq :: (put16 handle ++ put16 off ++ part)

/-- The request that has them written. -/
def execPdu : Bytes := [execWriteReq, 1]

/-- A write in one piece. -/
def writePdu (handle : ℕ) (data : Bytes) : Bytes := writeReq :: (put16 handle ++ data)

/-- **Prepared writes of the parts of a value**, from an offset on: each byte once, at its own
offset. -/
inductive Laid (handle : ℕ) : ℕ → Bytes → List Bytes → Prop
  | done (off : ℕ) : Laid handle off [] []
  | part {off : ℕ} {a rest : Bytes} {l : List Bytes} (h : Laid handle (off + a.length) rest l) :
      Laid handle off (a ++ rest) (prepPdu handle off a :: l)

/-- The writes among what was sent. -/
def writes (l : List Bytes) : List Bytes :=
  l.filter fun p => byteAt p 0 ∈ [writeReq, prepWriteReq, execWriteReq]

/-- The value was written whole: in one piece, or part by part and then executed. -/
def Written (l : List Bytes) : Prop :=
  (∃ rest, writes l = writePdu o.req.handle o.req.data :: rest) ∨
    ∃ ps rest, writes l = ps ++ execPdu :: rest ∧ Laid o.req.handle 0 o.req.data ps

/-- **What was delivered and reported is the value.**  Before an execute request each byte was sent
once at its own offset; a write that is reported was delivered so; a value that is reported is the
device's. -/
def Exact (sent : List Bytes) (said : List Said) (c : Conn) : Prop :=
  (∀ ps rest, writes (c.sent.drop sent.length) = ps ++ execPdu :: rest →
    Laid o.req.handle 0 o.req.data ps) ∧
  ∀ x more, c.said = said ++ x :: more → x.req = o.req ∧
    match x.reply with
    | .read _ h val => h = o.req.handle ∧ val = D.value
    | .written _ h => h = o.req.handle ∧ Written o (c.sent.drop sent.length)
    | .error .. => True
    | .services .. => False

/-! ### Prepared writes -/

section laid

variable {handle off : ℕ} {data : Bytes} {l : List Bytes}

/-- One more part, behind the others. -/
theorem Laid.concat (h : Laid handle off data l) (a : Bytes) :
    Laid handle off (data ++ a) (l ++ [prepPdu handle (off + data.length) a]) := by
  induction h with
  | done off =>
    have hone : Laid handle off (a ++ []) [prepPdu handle off a] :=
      Laid.part (Laid.done (off + a.length))
    rw [append_nil] at hone
    exact hone
  | @part off b rest l _ ih =>
    rw [append_assoc, cons_append, length_append, ← Nat.add_assoc]
    exact Laid.part ih

theorem Laid.not_exec (h : Laid handle off data l) : execPdu ∉ l := by
  induction h with
  | done => exact not_mem_nil
  | part _ ih =>
    rw [mem_cons, not_or]
    refine ⟨?_, ih⟩
    intro heq
    have hhead : some execWriteReq = some prepWriteReq := congrArg List.head? heq
    exact absurd hhead (by decide)

end laid

/-- A list has one place where an element first stands. -/
theorem split_unique {α : Type*} {x : α} {a a' b b' : List α} (ha : x ∉ a) (hb : x ∉ b)
    (h : a ++ x :: b = a' ++ x :: b') : a' = a := by
  induction a generalizing a' with
  | nil =>
    cases a' with
    | nil => rfl
    | cons y a' =>
      obtain ⟨-, htail⟩ := List.cons.inj h
      rw [htail] at hb
      exact absurd (mem_append_right a' mem_cons_self) hb
  | cons y a ih =>
    cases a' with
    | nil =>
      obtain ⟨rfl, -⟩ := List.cons.inj h
      exact absurd mem_cons_self ha
    | cons z a' =>
      obtain ⟨rfl, htail⟩ := List.cons.inj h
      rw [ih (fun hin => ha (mem_cons_of_mem _ hin)) htail]

/-! ### What the device says for itself -/

section own

variable {D} {c : Conn} {p : Bytes}

theorem writes_append (l m : List Bytes) : writes (l ++ m) = writes l ++ writes m :=
  filter_append l m

theorem writes_nil_of (l : List Bytes) (h : ∀ p ∈ l, byteAt p 0 ∉ requests) : writes l = [] := by
  apply filter_eq_nil_iff.mpr
  intro p hp hin
  apply h p hp
  simp only [mem_cons, not_mem_nil, or_false, decide_eq_true_eq] at hin
  rcases hin with heq | heq | heq
  · rw [heq]
    decide
  · rw [heq]
    decide
  · rw [heq]
    decide

/-- It answers no request. -/
theorem Device.Own.not_answer (h : D.Own p) {b : UInt8} (hb : b ∈ requests) :
    answers p b = false := by
  have hhead : ∀ {x : UInt8}, x ≠ 0 → p.head? = some x → byteAt p 0 = x := by
    intro x _ hx
    cases p with
    | nil => exact nomatch hx
    | cons y l => exact Option.some.inj hx
  have hodd : ∀ x ∈ error :: requests.map (· + 1), x ≠ 0 ∧ x % 2 ≠ 0 ∧ x ≠ notify ∧
      x ≠ indicate := by
    decide +kernel
  have hno : ∀ x ∈ error :: requests.map (· + 1), p.head? ≠ some x := by
    intro x hx heq
    obtain ⟨hzero, hx2, hnotify, hind⟩ := hodd x hx
    have hbyte := hhead hzero heq
    rcases h with h | h | h | h
    · exact hnotify (hbyte.symm.trans h)
    · exact hind (hbyte.symm.trans h)
    · have hmtu : byteAt D.mtuPdu 0 = mtuReq := rfl
      rw [h, hmtu] at hbyte
      rw [← hbyte] at hx2
      exact hx2 (by decide)
    · rw [hbyte] at h
      exact hx2 h.1
  unfold answers
  have h₁ := hno (b + 1) (mem_cons_of_mem _ (mem_map_of_mem hb))
  have h₂ := hno error mem_cons_self
  rw [decide_eq_false h₁, decide_eq_false h₂]
  rfl

theorem answered_own (h : D.Own p) (hair : ∀ b ∈ c.air, b ∈ requests) : c.answered p = c := by
  unfold Conn.answered
  rw [eraseP_of_forall_not]
  intro b hb hans
  rw [h.not_answer (hair b hb)] at hans
  exact nomatch hans

/-- What is sent for it: no request, and our MTU for its exchange only. -/
structure Polite (D : Device) (p : Bytes) (new : List Bytes) : Prop where
  quiet : ∀ q ∈ new, byteAt q 0 ∉ requests
  mtu : p ≠ D.mtuPdu → ∀ q ∈ new, byteAt q 0 ≠ mtuRsp
  exchange : p = D.mtuPdu → new = [mtuRsp :: put16 attMtu]

theorem attSend_quiet (c : Conn) {b : UInt8} (hb : b ∉ requests) (rest : Bytes) :
    c.attSend b rest = { c with sent := c.sent ++ [b :: rest] } := by
  unfold Conn.attSend
  rw [if_neg hb, append_nil]

theorem u16_put16 {v : ℕ} (hv : v < 2 ^ 16) (rest : Bytes) : u16 (put16 v ++ rest) 0 = v := by
  have hlo : byteAt (put16 v ++ rest) 0 = (v % 256).toUInt8 := rfl
  have hhi : byteAt (put16 v ++ rest) 1 = (v / 256 % 256).toUInt8 := rfl
  unfold u16
  rw [hlo, hhi]
  simp only [Nat.toUInt8, UInt8.toNat_ofNat']
  omega

/-- Nothing is sent for it but this, which is no request. -/
theorem polite_one {q : Bytes} (hp : p ≠ D.mtuPdu) (hq : byteAt q 0 ∉ requests)
    (hmtu : byteAt q 0 ≠ mtuRsp) :
    Polite D p [q] := by
  refine ⟨?_, ?_, fun heq => absurd heq hp⟩
  · intro x hx
    rw [mem_singleton.mp hx]
    exact hq
  · intro _ x hx
    rw [mem_singleton.mp hx]
    exact hmtu

/-- **A PDU of its own changes the MTU at most**, and is answered. -/
theorem attRx_own (h : D.Own p) (hrx : D.rx < 2 ^ 16) (hair : ∀ b ∈ c.air, b ∈ requests) :
    ∃ new mtu peer, (c.answered p).attRx p =
      { c with sent := c.sent ++ new, mtu := mtu, peerMtu := peer } ∧
      Polite D p new ∧ mtu = if p = D.mtuPdu then Conn.agreed D.rx else c.mtu := by
  rw [answered_own h hair]
  -- nothing is sent back
  have hnone : ∀ {q : Bytes}, q ≠ D.mtuPdu → ∃ new mtu peer,
      c = { c with sent := c.sent ++ new, mtu := mtu, peerMtu := peer } ∧ Polite D q new ∧
        mtu = if q = D.mtuPdu then Conn.agreed D.rx else c.mtu := by
    intro q hq
    refine ⟨[], c.mtu, c.peerMtu, ?_,
      ⟨nofun, fun _ => nofun, fun heq => absurd heq hq⟩, (if_neg hq).symm⟩
    rw [append_nil]
  cases p with
  | nil => exact hnone nofun
  | cons b rest =>
    have hb : byteAt (b :: rest) 0 = b := rfl
    by_cases hmtu : b :: rest = D.mtuPdu
    · -- its MTU exchange
      obtain ⟨rfl, rfl⟩ := List.cons.inj hmtu
      have hrest : u16 (put16 D.rx) 0 = D.rx := by
        have hread := u16_put16 hrx []
        rwa [append_nil] at hread
      refine ⟨[mtuRsp :: put16 attMtu], Conn.agreed D.rx, true, ?_,
        ⟨?_, fun hne => absurd rfl hne, fun _ => rfl⟩, (if_pos rfl).symm⟩
      · unfold Conn.attRx
        dsimp only
        rw [if_neg (by decide), if_neg (by decide), if_pos rfl, if_pos (by exact le_refl 2), hrest,
          attSend_quiet _ (by decide)]
      · intro q hq
        rw [mem_singleton.mp hq]
        decide
    · have hsend : ∀ {x : UInt8} (l : Bytes), x ∉ requests → x ≠ mtuRsp → ∃ new mtu peer,
          c.attSend x l = { c with sent := c.sent ++ new, mtu := mtu, peerMtu := peer } ∧
            Polite D (b :: rest) new ∧ mtu = if b :: rest = D.mtuPdu then Conn.agreed D.rx
            else c.mtu := by
        intro x l hx hne
        exact ⟨[x :: l], c.mtu, c.peerMtu, attSend_quiet c hx l, polite_one hmtu hx hne,
          (if_neg hmtu).symm⟩
      unfold Device.Own at h
      rw [hb] at h
      unfold Conn.attRx
      dsimp only
      by_cases hnotify : b = notify
      · rw [if_pos hnotify]
        exact hnone hmtu
      · rw [if_neg hnotify]
        by_cases hind : b = indicate
        · rw [if_pos hind]
          exact hsend [] (by decide) (by decide)
        · rw [if_neg hind]
          -- a request of the device, which is refused, or a command
          have heven : b % 2 = 0 ∧ b ≠ confirm ∧ b ≠ mtuReq := by
            rcases h with h | h | h | h
            · exact absurd h hnotify
            · exact absurd h hind
            · exact absurd h hmtu
            · exact h
          rw [if_neg heven.2.2, if_pos ⟨heven.1, heven.2.1⟩]
          by_cases hcommand : b &&& 0x40 ≠ 0
          · rw [if_pos hcommand]
            exact hnone hmtu
          · rw [if_neg hcommand]
            exact hsend (x := error) _ (by decide) (by decide)

end own

/-! ### What is on the way -/

section channel

variable {D} {w : Talk} {q p : Bytes} {cut : ℕ}

/-- An answer to a request that the device took under some MTU. -/
def Answers (D : Device) (cut : ℕ) (q a : Bytes) : Prop :=
  a = D.answer cut q ∨ ∃ err, a = Device.refusal q err ∧ (err = notLong → D.value.length ≤ cut - 1)

/-- **The request `q` is the only one on the way**, and the device takes it under the MTU `cut`; or
its answer is. -/
inductive OnAir (D : Device) (w : Talk) (q : Bytes) (cut : ℕ) : Prop
  | request (pre post : List Bytes) (hout : w.toDevice = pre ++ q :: post)
      (hquiet : ∀ x ∈ pre ++ post, byteAt x 0 ∉ requests) (hcut : D.after w.mtu pre = cut)
      (hown : ∀ x ∈ w.toUs, D.Own x)
  | answer (pre post : List Bytes) (a : Bytes) (hin : w.toUs = pre ++ a :: post)
      (hown : ∀ x ∈ pre ++ post, D.Own x) (hanswers : Answers D cut q a)
      (hquiet : ∀ x ∈ w.toDevice, byteAt x 0 ∉ requests)

theorem after_cons (mtu : ℕ) (x : Bytes) (l : List Bytes) :
    D.after mtu (x :: l) = D.after (D.after mtu [x]) l := rfl

theorem after_append (mtu : ℕ) (l m : List Bytes) :
    D.after mtu (l ++ m) = D.after (D.after mtu l) m :=
  foldl_append

theorem after_quiet (mtu : ℕ) {l : List Bytes} (h : ∀ x ∈ l, byteAt x 0 ≠ mtuRsp) :
    D.after mtu l = mtu := by
  induction l with
  | nil => rfl
  | cons x l ih =>
    rw [after_cons]
    have hx : D.after mtu [x] = mtu := if_neg (h x mem_cons_self)
    rw [hx]
    exact ih fun y hy => h y (mem_cons_of_mem x hy)

/-- The device takes a PDU. -/
theorem OnAir.takes (h : OnAir D w q cut) (hq : byteAt q 0 ∈ requests) (refuses : Option UInt8)
    (hfollows : Follows D w (.takes refuses)) : OnAir D (w.step D (.takes refuses)) q cut := by
  unfold Talk.step
  cases h with
  | request pre post hout hquiet hcut hown =>
    cases pre with
    | nil =>
      -- it takes the request
      rw [nil_append] at hout
      rw [hout]
      dsimp only
      unfold Talk.deviceTakes
      rw [if_pos hq]
      refine .answer w.toUs [] _ rfl ?_ ?_ ?_
      · rw [append_nil]
        exact hown
      · have hmtu : w.mtu = cut := hcut
        rw [hmtu]
        cases refuses with
        | none => exact .inl rfl
        | some err =>
          refine .inr ⟨err, rfl, ?_⟩
          rw [← hmtu]
          exact hfollows
      · exact hquiet
    | cons x pre =>
      rw [cons_append] at hout
      rw [hout]
      dsimp only
      have hx : byteAt x 0 ∉ requests := hquiet x mem_cons_self
      unfold Talk.deviceTakes
      rw [if_neg hx]
      refine .request pre post rfl ?_ hcut hown
      intro y hy
      exact hquiet y (mem_cons_of_mem x hy)
  | answer pre post a hin hown hanswers hquiet =>
    cases hout : w.toDevice with
    | nil => exact .answer pre post a hin hown hanswers hquiet
    | cons x rest =>
      have hx : byteAt x 0 ∉ requests := hquiet x (hout ▸ mem_cons_self)
      dsimp only
      unfold Talk.deviceTakes
      rw [if_neg hx]
      refine .answer pre post a hin hown hanswers ?_
      intro y hy
      exact hquiet y (hout ▸ mem_cons_of_mem x hy)

/-- It speaks for itself. -/
theorem OnAir.speaks (h : OnAir D w q cut) (hp : D.Own p) :
    OnAir D (w.step D (.speaks p)) q cut := by
  unfold Talk.step
  cases h with
  | request pre post hout hquiet hcut hown =>
    refine .request pre post hout hquiet hcut ?_
    intro x hx
    rcases mem_append.mp hx with hold | hnew
    · exact hown x hold
    · rw [mem_singleton.mp hnew]
      exact hp
  | answer pre post a hin hown hanswers hquiet =>
    refine .answer pre (post ++ [p]) a ?_ ?_ hanswers hquiet
    · dsimp only
      rw [hin, append_assoc, cons_append]
    · intro x hx
      rw [← append_assoc] at hx
      rcases mem_append.mp hx with hold | hnew
      · exact hown x hold
      · rw [mem_singleton.mp hnew]
        exact hp

/-- We send nothing that is a request. -/
theorem OnAir.sends (h : OnAir D w q cut) {c : Conn} {new : List Bytes}
    (hnew : ∀ x ∈ new, byteAt x 0 ∉ requests) :
    OnAir D { w with c := c, toDevice := w.toDevice ++ new } q cut := by
  cases h with
  | request pre post hout hquiet hcut hown =>
    refine .request pre (post ++ new) ?_ ?_ hcut hown
    · dsimp only
      rw [hout, append_assoc, cons_append]
    · intro x hx
      rw [← append_assoc] at hx
      rcases mem_append.mp hx with hold | hlast
      · exact hquiet x hold
      · exact hnew x hlast
  | answer pre post a hin hown hanswers hquiet =>
    refine .answer pre post a hin hown hanswers ?_
    intro x hx
    rcases mem_append.mp hx with hold | hlast
    · exact hquiet x hold
    · exact hnew x hlast

/-- **We take a PDU**: one of the device's own, or the answer, and then nothing else is on the
way. -/
theorem OnAir.hears (h : OnAir D w q cut) {rest : List Bytes} (hin : w.toUs = p :: rest) :
    D.Own p ∧ OnAir D { w with toUs := rest } q cut ∨
      Answers D cut q p ∧ (∀ x ∈ rest, D.Own x) ∧ ∀ x ∈ w.toDevice, byteAt x 0 ∉ requests := by
  cases h with
  | request pre post hout hquiet hcut hown =>
    left
    refine ⟨hown p (hin ▸ mem_cons_self), .request pre post hout hquiet hcut ?_⟩
    intro x hx
    exact hown x (hin ▸ mem_cons_of_mem p hx)
  | answer pre post a hin' hown hanswers hquiet =>
    rw [hin] at hin'
    cases pre with
    | nil =>
      obtain ⟨rfl, rfl⟩ := List.cons.inj hin'
      exact .inr ⟨hanswers, hown, hquiet⟩
    | cons y pre =>
      obtain ⟨rfl, rfl⟩ := List.cons.inj hin'
      left
      refine ⟨hown p mem_cons_self, .answer pre post a rfl ?_ hanswers hquiet⟩
      intro x hx
      exact hown x (mem_cons_of_mem p hx)

end channel

/-! ### A request at work -/

/-- The request `q` of the operation that is at work is on the way, and the device has our MTU once
it has taken what is. -/
structure Busy (q : Bytes) (cut : ℕ) : Prop where
  up : w.c.state = .up
  cur : w.c.cur = some o
  air : w.c.air = [byteAt q 0]
  request : byteAt q 0 ∈ requests
  onAir : OnAir D w q cut
  agreed : D.after w.mtu w.toDevice = w.c.mtu
  mtu : 23 ≤ w.c.mtu

/-- Nothing of the operation has changed, and no request was sent. -/
structure Same (c c' : Conn) : Prop where
  val : c'.val = c.val
  off : c'.off = c.off
  said : c'.said = c.said
  sent : ∃ new, c'.sent = c.sent ++ new ∧ ∀ x ∈ new, byteAt x 0 ∉ requests

section busy

variable {D} {w} {o} {q : Bytes} {cut : ℕ}

theorem same_refl (c : Conn) : Same c c := ⟨rfl, rfl, rfl, [], (append_nil _).symm, nofun⟩

theorem agreed_ge (m : ℕ) : 23 ≤ Conn.agreed m := by
  unfold Conn.agreed attMtu
  split_ifs <;> omega

/-- Our answer to the device's exchange sets the MTU that we have. -/
theorem after_exchange (hrx : 23 ≤ D.rx) (mtu : ℕ) :
    D.after mtu [mtuRsp :: put16 attMtu] = Conn.agreed D.rx := by
  have hafter : D.after mtu [mtuRsp :: put16 attMtu] = min D.rx 517 := by
    unfold Device.after
    rw [foldl_cons, foldl_nil, if_pos (by decide)]
    exact congrArg _ (by decide)
  rw [hafter]
  unfold Conn.agreed attMtu
  split_ifs <;> omega

/-- The first byte of an answer. -/
theorem Answers.head {p : Bytes} (h : Answers D cut q p) (hq : byteAt q 0 ∈ requests) :
    p ≠ [] ∧ byteAt p 0 ∈ error :: requests.map (· + 1) ∧ answers p (byteAt q 0) = true := by
  have hrefusal : ∀ err, Device.refusal q err ≠ [] ∧
      byteAt (Device.refusal q err) 0 ∈ error :: requests.map (· + 1) ∧
      answers (Device.refusal q err) (byteAt q 0) = true := by
    intro err
    refine ⟨nofun, mem_cons_self, ?_⟩
    unfold answers Device.refusal
    simp
  have hnext : ∀ {b : UInt8} {l : Bytes}, b = byteAt q 0 + 1 → b :: l ≠ [] ∧
      byteAt (b :: l) 0 ∈ error :: requests.map (· + 1) ∧ answers (b :: l) (byteAt q 0) = true := by
    rintro b l rfl
    refine ⟨nofun, mem_cons_of_mem _ (mem_map_of_mem hq), ?_⟩
    unfold answers
    simp
  rcases h with rfl | ⟨err, rfl, -⟩
  · unfold Device.answer
    split_ifs with hread hblob hoff hprep
    · exact hnext (hread ▸ rfl)
    · exact hrefusal _
    · exact hnext (hblob ▸ rfl)
    · exact hnext (hprep ▸ rfl)
    · exact hnext rfl
  · exact hrefusal err

/-- An answer goes to the operation, and nothing is on the air then. -/
theorem Busy.attRx_answer (h : Busy D w o q cut) {p : Bytes} (hp : Answers D cut q p) :
    (w.c.answered p).attRx p = Conn.answerRx { w.c with air := [] } p := by
  obtain ⟨hne, hhead, hans⟩ := hp.head h.request
  have hair : w.c.answered p = { w.c with air := [] } := by
    unfold Conn.answered
    rw [h.air, eraseP_cons_of_pos hans]
  rw [hair]
  have hodd : ∀ x ∈ error :: requests.map (· + 1),
      x % 2 ≠ 0 ∧ x ≠ notify ∧ x ≠ indicate ∧ x ≠ mtuReq := by
    decide +kernel
  obtain ⟨hx2, hnotify, hind, hmtu⟩ := hodd _ hhead
  cases p with
  | nil => exact absurd rfl hne
  | cons b rest =>
    have hb : byteAt (b :: rest) 0 = b := rfl
    rw [hb] at hx2 hnotify hind hmtu
    have hstate : ∀ {r : Prop}, ¬ (w.c.state = .mtu ∧ r) := by
      intro r hr
      rw [h.up] at hr
      exact nomatch hr.1
    unfold Conn.attRx
    dsimp only
    rw [if_neg hnotify, if_neg hind, if_neg hmtu,
      if_neg (fun heven => hx2 heven.1), if_neg hstate, if_neg hstate]

/-- **A step keeps the request on the way**, and changes our MTU only for the device's exchange; or
it is the answer that comes. -/
theorem Busy.step (h : Busy D w o q cut) (hrx : 23 ≤ D.rx ∧ D.rx < 2 ^ 16) {e : TalkEv}
    (hf : Follows D w e) :
    (Busy D (w.step D e) o q cut ∧ Same w.c (w.step D e).c ∧
      ((w.step D e).c.mtu = w.c.mtu ∨
        e = .hears ∧ w.toUs.head? = some D.mtuPdu ∧ (w.step D e).c.mtu = Conn.agreed D.rx)) ∨
    ∃ p rest, e = .hears ∧ Answers D cut q p ∧ (∀ x ∈ rest, D.Own x) ∧
      (∀ x ∈ w.toDevice, byteAt x 0 ∉ requests) ∧
      w.step D e = { w with toUs := rest }.send (Conn.answerRx { w.c with air := [] } p) := by
  cases e with
  | queue o' =>
    left
    -- something is at work, so it only waits
    have hc : w.c.opQueue o' = { w.c with ops := w.c.ops ++ [o'] } := by
      unfold Conn.opQueue Conn.startOp
      rw [if_pos (by rw [h.cur]; rfl)]
    have hstep : w.step D (.queue o') = { w with c := { w.c with ops := w.c.ops ++ [o'] } } := by
      change w.send (w.c.opQueue o') = _
      unfold Talk.send
      rw [hc, drop_length, append_nil]
    rw [hstep]
    have hon : OnAir D { w with
        c := { w.c with ops := w.c.ops ++ [o'] }, toDevice := w.toDevice ++ [] } q cut :=
      h.onAir.sends nofun
    rw [append_nil] at hon
    exact ⟨⟨h.up, h.cur, h.air, h.request, hon, h.agreed, h.mtu⟩,
      ⟨rfl, rfl, rfl, (same_refl w.c).sent⟩, .inl rfl⟩
  | takes refuses =>
    left
    have hon := h.onAir.takes h.request refuses hf
    have hc : (w.step D (.takes refuses)).c = w.c ∧
        D.after (w.step D (.takes refuses)).mtu (w.step D (.takes refuses)).toDevice =
          D.after w.mtu w.toDevice := by
      unfold Talk.step
      cases hout : w.toDevice with
      | nil => exact ⟨rfl, congrArg _ hout⟩
      | cons x rest =>
        dsimp only
        unfold Talk.deviceTakes
        split
        case isTrue hx =>
          refine ⟨rfl, ?_⟩
          have hone : D.after w.mtu [x] = w.mtu := by
            refine if_neg ?_
            intro heq
            rw [heq] at hx
            exact absurd hx (by decide)
          rw [after_cons, hone]
        · exact ⟨rfl, (after_cons _ _ _).symm⟩
    obtain ⟨hconn, hafter⟩ := hc
    refine ⟨⟨?_, ?_, ?_, h.request, hon, ?_, ?_⟩, ?_, .inl (by rw [hconn])⟩
    · rw [hconn]
      exact h.up
    · rw [hconn]
      exact h.cur
    · rw [hconn]
      exact h.air
    · rw [hafter, hconn]
      exact h.agreed
    · rw [hconn]
      exact h.mtu
    · rw [hconn]
      exact same_refl w.c
  | speaks p =>
    left
    exact ⟨⟨h.up, h.cur, h.air, h.request, h.onAir.speaks hf.1, h.agreed, h.mtu⟩,
      same_refl w.c, .inl rfl⟩
  | hears =>
    unfold Talk.step
    cases hin : w.toUs with
    | nil =>
      left
      exact ⟨h, same_refl w.c, .inl rfl⟩
    | cons p rest =>
      dsimp only
      -- one of its own PDUs is seen to at once; the answer is the caller's
      rcases h.onAir.hears hin with ⟨hown, hon⟩ | ⟨hans, hrest, hquiet⟩
      · left
        have hair : ∀ b ∈ w.c.air, b ∈ requests := by
          intro b hb
          rw [h.air] at hb
          rw [mem_singleton.mp hb]
          exact h.request
        obtain ⟨new, mtu, peer, heq, hpolite, hmtu⟩ := attRx_own hown hrx.2 hair
        have hsend : { w with toUs := rest }.send ((w.c.answered p).attRx p) =
            { { w with toUs := rest } with
              c := { w.c with sent := w.c.sent ++ new, mtu := mtu, peerMtu := peer }
              toDevice := w.toDevice ++ new } := by
          unfold Talk.send
          rw [heq, drop_left]
        rw [hsend]
        refine ⟨⟨h.up, h.cur, h.air, h.request, hon.sends hpolite.quiet, ?_, ?_⟩,
          ⟨rfl, rfl, rfl, new, rfl, hpolite.quiet⟩, ?_⟩
        · change D.after w.mtu (w.toDevice ++ new) = mtu
          rw [after_append, h.agreed, hmtu]
          split
          case isTrue hx =>
            rw [hpolite.exchange hx]
            exact after_exchange hrx.1 _
          case isFalse hx => exact after_quiet _ (hpolite.mtu hx)
        · change 23 ≤ mtu
          rw [hmtu]
          split
          · exact agreed_ge _
          · exact h.mtu
        · change mtu = w.c.mtu ∨ _
          by_cases hx : p = D.mtuPdu
          · right
            exact ⟨rfl, congrArg some hx, hmtu.trans (if_pos hx)⟩
          · exact .inl (hmtu.trans (if_neg hx))
      · right
        refine ⟨p, rest, rfl, hans, hrest, hquiet, ?_⟩
        rw [h.attRx_answer hans]

end busy

/-! ### The end of an operation -/

section ends

variable {D} {o} {c : Conn} {sent : List Bytes} {said : List Said}

/-- The queue goes on: no execute request is sent, and nothing that was said is taken back. -/
theorem startOps_more (ops : List Op) (c : Conn) : ∃ new more, execPdu ∉ new ∧
    (Conn.startOps ops c).sent = c.sent ++ new ∧ (Conn.startOps ops c).said = c.said ++ more := by
  have hnone : ∀ c : Conn, ∃ new more, execPdu ∉ new ∧ c.sent = c.sent ++ new ∧
      c.said = c.said ++ more :=
    fun c => ⟨[], [], not_mem_nil, (append_nil _).symm, (append_nil _).symm⟩
  have hone : ∀ {b : UInt8} {l : Bytes}, b ≠ execWriteReq → execPdu ∉ [b :: l] := by
    intro b l hb hin
    exact hb (List.cons.inj (mem_singleton.mp hin)).1.symm
  induction ops generalizing c with
  | nil => exact hnone c
  | cons o ops ih =>
    unfold Conn.startOps
    split
    case isFalse => exact hnone c
    case isTrue =>
      have hsend : ∀ (c₁ : Conn) {b : UInt8} (l : Bytes), b ≠ execWriteReq → c₁.sent = c.sent →
          c₁.said = c.said →
          ∃ new more, execPdu ∉ new ∧ (c₁.attSend b l).sent = c.sent ++ new ∧
            (c₁.attSend b l).said = c.said ++ more := by
        intro c₁ b l hb hsent hsaid
        refine ⟨[b :: l], [], hone hb, ?_, ?_⟩
        · exact congrArg (· ++ [b :: l]) hsent
        · exact hsaid.trans (append_nil _).symm
      dsimp only
      split
      · unfold Conn.sendRead
        split
        · exact hsend _ _ (by decide) rfl rfl
        · exact hsend _ _ (by decide) rfl rfl
      -- a write with no answer is done at once, and the next starts
      · split
        · obtain ⟨new, more, hnew, hsent, hsaid⟩ := ih { Conn.attSend { c with
              ops := ops, cur := some o, val := [], off := 0 } writeCmd
                (put16 o.req.handle ++ o.req.data.take (c.mtu - 3)) with cur := none }
          refine ⟨[writeCmd :: (put16 o.req.handle ++ o.req.data.take (c.mtu - 3))] ++ new,
            more, ?_, ?_, hsaid⟩
          · rw [mem_append, not_or]
            exact ⟨hone (by decide), hnew⟩
          · rw [hsent, ← append_assoc]
            rfl
        · split
          · exact hsend _ _ (by decide) rfl rfl
          · exact hsend _ _ (by decide) rfl rfl
      · split
        · rename_i db _
          obtain ⟨new, more, hnew, hsent, hsaid⟩ := ih { Conn.say { c with
              ops := ops, cur := some o, val := [], off :=
                0 } o (.services c.addr db) with cur := none }
          refine ⟨new, [⟨o.req, .services c.addr db⟩] ++ more, hnew, hsent, ?_⟩
          rw [hsaid, ← append_assoc]
          rfl
        · exact hsend _ _ (by decide) rfl rfl

theorem mem_writes {l : List Bytes} (h : execPdu ∈ writes l) : execPdu ∈ l := (mem_filter.mp h).1

/-- What was written whole stays so. -/
theorem Written.append {l : List Bytes} (h : Written o l) (new : List Bytes) :
    Written o (l ++ new) := by
  unfold Written
  rw [writes_append]
  rcases h with ⟨rest, heq⟩ | ⟨ps, rest, heq, hlaid⟩
  · left
    exact ⟨rest ++ writes new, by rw [heq, cons_append]⟩
  · right
    exact ⟨ps, rest ++ writes new, by rw [heq, append_assoc, cons_append], hlaid⟩

/-- What is before every execute request makes up the value. -/
def Executed (o : Op) (l : List Bytes) : Prop :=
  ∀ ps rest, writes l = ps ++ execPdu :: rest → Laid o.req.handle 0 o.req.data ps

theorem Executed.append {l : List Bytes} (h : Executed o l) {new : List Bytes}
    (hnew : execPdu ∉ new) :
    Executed o (l ++ new) := by
  intro ps rest heq
  rw [writes_append] at heq
  rcases append_eq_append_iff.mp heq with ⟨m, hps, hrest⟩ | ⟨m, hl, hrest⟩
  · -- the execute request would be among what came later
    refine absurd (mem_writes (l := new) ?_) hnew
    rw [hrest]
    exact mem_append_right m mem_cons_self
  · cases m with
    | nil =>
      refine absurd (mem_writes (l := new) ?_) hnew
      have hall : execPdu :: rest = writes new := hrest
      rw [← hall]
      exact mem_cons_self
    | cons x m =>
      obtain ⟨rfl, -⟩ := List.cons.inj hrest
      exact h ps m hl

/-- What an answer to an operation must be. -/
def Fair (D : Device) (o : Op) (l : List Bytes) : Reply → Prop
  | .read _ h val => h = o.req.handle ∧ val = D.value
  | .written _ h => h = o.req.handle ∧ Written o l
  | .error .. => True
  | .services .. => False

/-- **An operation ends** with an answer, and the next one is started. -/
theorem exact_ends {l : List Bytes} (hsent : c.sent = sent ++ l) (hsaid : c.said = said)
    (hexec : Executed o l) {r : Reply} (hr : Fair D o l r) :
    Exact D o sent said (c.say o r).opDone := by
  have hdone : (c.say o r).opDone = Conn.startOps c.ops { c.say o r with cur := none } := by
    unfold Conn.opDone Conn.startOp
    exact if_neg Bool.false_ne_true
  obtain ⟨new, more, hnew, hsent', hsaid'⟩ := startOps_more c.ops { c.say o r with cur := none }
  have hlist : ((c.say o r).opDone).sent.drop sent.length = l ++ new := by
    rw [hdone, hsent']
    change (c.sent ++ new).drop sent.length = _
    rw [hsent, append_assoc, drop_left]
  refine ⟨?_, ?_⟩
  · rw [hlist]
    exact hexec.append hnew
  · intro x rest hx
    rw [hdone, hsaid'] at hx
    change (c.said ++ [⟨o.req, r⟩]) ++ more = _ at hx
    rw [hsaid, append_assoc] at hx
    obtain ⟨rfl, -⟩ := List.cons.inj (append_cancel_left hx)
    rw [hlist]
    refine ⟨rfl, ?_⟩
    cases r with
    | services => exact hr
    | read => exact hr
    | written => exact ⟨hr.1, hr.2.append new⟩
    | error => trivial

/-- Something was said then. -/
theorem said_ends (hsaid : c.said = said) (r : Reply) : ((c.say o r).opDone).said ≠ said := by
  have hdone : (c.say o r).opDone = Conn.startOps c.ops { c.say o r with cur := none } := by
    unfold Conn.opDone Conn.startOp
    exact if_neg Bool.false_ne_true
  obtain ⟨new, more, -, -, hsaid'⟩ := startOps_more c.ops { c.say o r with cur := none }
  intro heq
  rw [hdone, hsaid'] at heq
  have hlen := congrArg List.length heq
  change ((c.said ++ [(⟨o.req, r⟩ : Said)]) ++ more).length = _ at hlen
  rw [hsaid, length_append, length_append, length_singleton] at hlen
  omega

/-- Nothing was said yet. -/
theorem exact_working {l : List Bytes} (hsent : c.sent = sent ++ l) (hsaid : c.said = said)
    (hexec : Executed o l) : Exact D o sent said c := by
  refine ⟨?_, ?_⟩
  · rw [hsent, drop_left]
    exact hexec
  · intro x more hx
    rw [hsaid] at hx
    have hlen := congrArg List.length hx
    rw [length_append, length_cons] at hlen
    omega

end ends

/-! ### Reading -/

/-- The request for the next part of the value. -/
def readPdu (handle : ℕ) (val : Bytes) : Bytes :=
  if val = [] then readReq :: put16 handle else readBlobReq :: (put16 handle ++ put16 val.length)

/-- **A read at work.**  What was read is the front of the value.  The device cuts the next part as
we expect it, or it is the last one; and a part that is not the first comes behind a full one. -/
structure Reads (D : Device) (w : Talk) (o : Op) (sent : List Bytes) (said : List Said) (cut : ℕ) :
    Prop extends
    Busy D w o (readPdu o.req.handle w.c.val) cut where
  front : w.c.val = D.value.take w.c.val.length
  whole : cut = w.c.mtu ∨ D.value.length ≤ w.c.val.length + (cut - 1)
  full : w.c.val ≠ [] → cut - 1 ≤ w.c.val.length
  said : w.c.said = said
  sent : ∃ l, w.c.sent = sent ++ l ∧ execPdu ∉ l

section reads

variable {D} {w} {o} {sent : List Bytes} {said : List Said} {q : Bytes} {cut : ℕ}

theorem executed_of_not_mem {l : List Bytes} (h : execPdu ∉ l) : Executed o l := by
  intro ps rest heq
  refine absurd (mem_writes (l := l) ?_) h
  rw [heq]
  exact mem_append_right ps mem_cons_self

theorem not_exec_of_quiet {l : List Bytes} (h : ∀ x ∈ l, byteAt x 0 ∉ requests) : execPdu ∉ l :=
  fun hin => h execPdu hin (by decide)

/-- The answer to a request for the next part. -/
theorem answer_readPdu (cut : ℕ) {val : Bytes} (hle : val.length ≤ D.value.length)
    (hval : D.value.length ≤ 512) (handle : ℕ) :
    ∃ b, (b = readRsp ∨ b = readBlobRsp) ∧
      D.answer cut (readPdu handle val) = b :: (D.value.drop val.length).take (cut - 1) := by
  unfold readPdu Device.answer
  by_cases hnil : val = []
  · subst hnil
    exact ⟨readRsp, .inl rfl, rfl⟩
  · rw [if_neg hnil]
    have hlen : u16 (readBlobReq :: (put16 handle ++ put16 val.length)) 3 = val.length := by
      have hread := u16_put16 (v := val.length) (by omega) []
      rw [append_nil] at hread
      exact hread
    have hb : byteAt (readBlobReq :: (put16 handle ++ put16 val.length)) 0 = readBlobReq := rfl
    refine ⟨readBlobRsp, .inr rfl, ?_⟩
    rw [hb, if_neg (by decide), if_pos rfl, hlen, if_neg (by omega)]

/-- The front of the value with the next part behind it. -/
theorem front_append {val : Bytes} (hfront : val = D.value.take val.length) (n : ℕ) :
    val ++ (D.value.drop val.length).take n = D.value.take (val.length + n) := by
  rw [take_add]
  exact congrArg (· ++ _) hfront

theorem Reads.le (h : Reads D w o sent said cut) : w.c.val.length ≤ D.value.length := by
  have hlen := congrArg List.length h.front
  rw [length_take] at hlen
  omega

/-- A step that is not the answer. -/
theorem Reads.stays (h : Reads D w o sent said cut) {e : TalkEv}
    (hbusy : Busy D (w.step D e) o (readPdu o.req.handle w.c.val) cut)
    (hsame : Same w.c (w.step D e).c) (hmtu : (w.step D e).c.mtu = w.c.mtu ∨
      e = .hears ∧ w.toUs.head? = some D.mtuPdu ∧ (w.step D e).c.mtu = Conn.agreed D.rx)
    (hsteady : Steady D w o e) : Reads D (w.step D e) o sent said cut := by
  obtain ⟨new, hnew, hquiet⟩ := hsame.sent
  obtain ⟨l, hl, hexec⟩ := h.sent
  have hval := hsame.val
  refine ⟨?_, ?_, ?_, ?_, hsame.said.trans h.said, l ++ new, ?_, ?_⟩
  · rw [hval]
    exact hbusy
  · rw [hval]
    exact h.front
  · rw [hval]
    rcases hmtu with hmtu | ⟨rfl, hhead, hmtu⟩
    · rw [hmtu]
      exact h.whole
    · rcases h.whole with hcut | hlast
      · -- the exchange leaves the MTU, or this is the last part
        have hair : w.c.air = [readReq] ∨ w.c.air = [readBlobReq] := by
          rw [h.air]
          unfold readPdu
          split
          · exact .inl rfl
          · exact .inr rfl
        rcases (hsteady hhead).2 hair with hkeeps | hlast
        · exact .inl (hcut.trans (hkeeps.symm.trans hmtu.symm))
        · rw [hcut]
          exact .inr hlast
      · exact .inr hlast
  · rw [hval]
    exact h.full
  · rw [hnew, hl, append_assoc]
  · rw [mem_append, not_or]
    exact ⟨hexec, not_exec_of_quiet hquiet⟩

theorem readPdu_request (handle : ℕ) (val : Bytes) : byteAt (readPdu handle val) 0 ∈ requests := by
  unfold readPdu
  split
  · exact (by decide : readReq ∈ requests)
  · exact (by decide : readBlobReq ∈ requests)

/-- A request is sent: it is the only one on the way, and the device takes it under our MTU. -/
theorem busy_sends (hup : w.c.state = .up) (hcur : w.c.cur = some o) (hmtu : 23 ≤ w.c.mtu)
    (hagreed : D.after w.mtu w.toDevice = w.c.mtu) {c : Conn}
    (hc : c.state = w.c.state ∧ c.cur = w.c.cur ∧ c.mtu = w.c.mtu) (hair : c.air = [byteAt q 0])
    (hq : byteAt q 0 ∈ requests) {toUs : List Bytes} (hown : ∀ x ∈ toUs, D.Own x)
    (hquiet : ∀ x ∈ w.toDevice, byteAt x 0 ∉ requests) :
    Busy D { w with c := c, toDevice := w.toDevice ++ [q], toUs := toUs } o q w.c.mtu := by
  obtain ⟨hstate, hcur', hmtu'⟩ := hc
  refine ⟨hstate.trans hup, hcur'.trans hcur, hair, hq, ?_, ?_, hmtu'.ge.trans' hmtu⟩
  · refine .request w.toDevice [] rfl ?_ hagreed hown
    rw [append_nil]
    exact hquiet
  · change D.after w.mtu (w.toDevice ++ [q]) = c.mtu
    rw [after_append, hagreed, hmtu']
    apply after_quiet
    intro x hx heq
    rw [mem_singleton.mp hx] at heq
    rw [heq] at hq
    exact absurd hq (by decide)

theorem sendRead_eq (c : Conn) (o : Op) : c.sendRead o = { c with
    sent := c.sent ++ [readPdu o.req.handle c.val]
    air := c.air ++ [byteAt (readPdu o.req.handle c.val) 0] } := by
  unfold Conn.sendRead readPdu
  split
  · rfl
  · rfl

/-- **The answer to a read**: the next part is asked for, or the value is reported. -/
theorem Reads.answered (h : Reads D w o sent said cut) (hk : o.kind = .read)
    (hvalue : D.value.length ≤ 512) {p : Bytes} {rest : List Bytes}
    (hp : Answers D cut (readPdu o.req.handle w.c.val) p) (hrest : ∀ x ∈ rest, D.Own x)
    (hquiet : ∀ x ∈ w.toDevice, byteAt x 0 ∉ requests) :
    let w' := { w with toUs := rest }.send (Conn.answerRx { w.c with air := [] } p)
    (∃ cut', Reads D w' o sent said cut') ∨ w'.c.said ≠ said ∧ Exact D o sent said w'.c := by
  intro w'
  obtain ⟨l, hl, hexec⟩ := h.sent
  have hexecuted : Executed o l := executed_of_not_mem hexec
  have hle := h.le
  have hmtu := h.mtu
  rcases hp with rfl | ⟨err, rfl, herr⟩
  · obtain ⟨b, hb, hanswer⟩ := answer_readPdu cut hle hvalue o.req.handle
    generalize hpart : (D.value.drop w.c.val.length).take (cut - 1) = part at hanswer
    have hplen : part.length = min (cut - 1) (D.value.length - w.c.val.length) := by
      rw [← hpart, length_take, length_drop]
    generalize hval' : w.c.val ++ part = val'
    have hfront : val' = D.value.take (w.c.val.length + (cut - 1)) := by
      rw [← hval', ← hpart]
      exact front_append h.front _
    have hlen' : val'.length = w.c.val.length + part.length := by rw [← hval', length_append]
    -- what is done with a part: more is asked for after a full one
    have hrx : Conn.answerRx { w.c with air := [] } (b :: part) =
        if part.length + 1 = w.c.mtu ∧ val'.length < 512 then
          Conn.sendRead { w.c with air := [], val := val' } o
        else (Conn.say { w.c with air := [], val := val' }
          o (.read w.c.addr o.req.handle val')).opDone := by
      have hfits : part.take (512 - w.c.val.length) = part := take_of_length_le (by omega)
      have hbyte : byteAt (b :: part) 0 = b := rfl
      have herror : b ≠ error := by
        rcases hb with rfl | rfl
        · decide
        · decide
      have hours : ¬ (b ≠ readRsp ∧ b ≠ readBlobRsp) := by
        rcases hb with rfl | rfl
        · exact fun hno => hno.1 rfl
        · exact fun hno => hno.2 rfl
      unfold Conn.answerRx
      dsimp only
      rw [h.cur]
      dsimp only
      rw [hk]
      dsimp only
      rw [hbyte, if_neg herror]
      unfold Conn.readRx
      rw [hbyte, if_neg hours]
      dsimp only
      rw [drop_one, tail_cons, hfits, hval']
      rfl
    have hw' : w' = { w with toUs := rest }.send
        (Conn.answerRx { w.c with air := [] } (b :: part)) := by
      rw [← hanswer]
    rw [hw', hrx]
    by_cases hmore : part.length + 1 = w.c.mtu ∧ val'.length < 512
    · -- a full part: more is asked for
      left
      rw [if_pos hmore, sendRead_eq]
      refine ⟨w.c.mtu, ?_⟩
      have hsend : { w with toUs := rest }.send { w.c with
            val := val'
            sent := w.c.sent ++ [readPdu o.req.handle val']
            air := [] ++ [byteAt (readPdu o.req.handle val') 0] } =
          { w with
            c := { w.c with
              val := val'
              sent := w.c.sent ++ [readPdu o.req.handle val']
              air := [byteAt (readPdu o.req.handle val') 0] }
            toDevice := w.toDevice ++ [readPdu o.req.handle val']
            toUs := rest } := by
        unfold Talk.send
        dsimp only
        rw [drop_left]
        rfl
      rw [hsend]
      have hbusy := busy_sends (q := readPdu o.req.handle val') (c := { w.c with
          val := val'
          sent := w.c.sent ++ [readPdu o.req.handle val']
          air := [byteAt (readPdu o.req.handle val') 0] }) h.up h.cur h.mtu h.agreed
            ⟨rfl, rfl, rfl⟩ rfl
        (readPdu_request _ _) hrest hquiet
      refine ⟨hbusy, ?_, .inl rfl, ?_, h.said, l ++ [readPdu o.req.handle val'], ?_, ?_⟩
      · dsimp only
        rw [hlen', hfront, take_eq_take_iff]
        omega
      · intro _
        dsimp only
        omega
      · dsimp only
        rw [hl, append_assoc]
      · rw [mem_append, not_or]
        refine ⟨hexec, ?_⟩
        intro hin
        have heq := mem_singleton.mp hin
        unfold readPdu at heq
        split at heq
        · exact absurd (List.cons.inj heq).1 (by decide)
        · exact absurd (List.cons.inj heq).1 (by decide)
    · -- the last part
      right
      rw [if_neg hmore]
      -- a part that is not full is the rest of the value
      have hall : val' = D.value := by
        have hlast : D.value.length ≤ w.c.val.length + (cut - 1) := by
          rcases h.whole with hcut | hlast
          · rw [not_and_or] at hmore
            rcases hmore with hpart' | hfull
            · omega
            · omega
          · exact hlast
        rw [hfront]
        exact take_of_length_le hlast
      exact ⟨said_ends (c := { w.c with air := [], val := val' }) h.said _,
        exact_ends (c := { w.c with air := [], val := val' })
        (r := .read w.c.addr o.req.handle val') hl h.said
          hexecuted ⟨rfl, hall⟩⟩
  · -- an error, of which one ends the value
    right
    have hrx : Conn.answerRx { w.c with air := [] }
        (Device.refusal (readPdu o.req.handle w.c.val) err) =
        Conn.errorRx { w.c with air := [] } o
        (Device.refusal (readPdu o.req.handle w.c.val) err) := by
      unfold Conn.answerRx
      dsimp only
      rw [h.cur]
      dsimp only
      rw [hk]
      exact if_pos rfl
    have hcode : errorOf (Device.refusal (readPdu o.req.handle w.c.val) err) = err.toNat := rfl
    have hconn : w'.c = Conn.errorRx { w.c with air := [] }
        o (Device.refusal (readPdu o.req.handle w.c.val) err) :=
      hrx
    rw [hconn]
    unfold Conn.errorRx
    split
    case isTrue hlong =>
      have hall : w.c.val = D.value := by
        have hnot : err = notLong := UInt8.toNat_inj.mp (hcode.symm.trans hlong.2.2)
        have hfull := h.full hlong.2.1
        have hcut := herr hnot
        rw [h.front]
        exact take_of_length_le (by omega)
      exact ⟨said_ends (c := { w.c with air := [] }) h.said _,
        exact_ends (c := { w.c with air := [] }) (r := .read w.c.addr o.req.handle w.c.val)
        hl h.said hexecuted
          ⟨rfl, hall⟩⟩
    case isFalse =>
      exact ⟨said_ends (c := { w.c with air := [] }) h.said _,
        exact_ends (c := { w.c with air := [] }) (r := .error w.c.addr o.req.handle _)
        hl h.said hexecuted trivial⟩

end reads

/-! ### Writing -/

/-- The part of the value that is sent next. -/
def nextPart (o : Op) (c : Conn) : Bytes :=
  (o.req.data.drop c.off).take (min (o.req.data.length - c.off) (c.mtu - 5))

/-- **A write at work**: in one piece, part by part, or all of it sent and to be executed. -/
inductive Stage (o : Op) (c : Conn) (l : List Bytes) : Bytes → Prop
  | whole (hl : writes l = [writePdu o.req.handle o.req.data]) :
      Stage o c l (writePdu o.req.handle o.req.data)
  | parts (ps : List Bytes) (hlaid : Laid o.req.handle 0 (o.req.data.take c.off) ps)
      (hoff : c.off < o.req.data.length)
      (hl : writes l = ps ++ [prepPdu o.req.handle c.off (nextPart o c)]) :
      Stage o c l (prepPdu o.req.handle c.off (nextPart o c))
  | exec (ps : List Bytes) (hlaid : Laid o.req.handle 0 o.req.data ps)
  (hl : writes l = ps ++ [execPdu]) :
      Stage o c l execPdu

/-- The write, with its request on the way. -/
structure Stores (D : Device) (w : Talk) (o : Op) (sent : List Bytes) (said : List Said)
    (q : Bytes) (cut : ℕ) :
    Prop extends Busy D w o q cut where
  said : w.c.said = said
  stage : ∃ l, w.c.sent = sent ++ l ∧ Stage o w.c l q

section stores

variable {D} {w} {o} {sent : List Bytes} {said : List Said} {q : Bytes} {cut : ℕ} {c : Conn}
  {l : List Bytes}

/-- Whatever stage it is at, an execute request comes behind the whole value. -/
theorem Stage.executed (h : Stage o c l q) : Executed o l := by
  intro ps rest heq
  cases h with
  | whole hl =>
    have hin : execPdu ∈ writes l := heq ▸ mem_append_right ps mem_cons_self
    rw [hl] at hin
    exact absurd (List.cons.inj (mem_singleton.mp hin)).1 (by decide)
  | parts ps' hlaid hoff hl =>
    have hin : execPdu ∈ writes l := heq ▸ mem_append_right ps mem_cons_self
    rw [hl] at hin
    rcases mem_append.mp hin with hold | hlast
    · exact absurd hold hlaid.not_exec
    · exact absurd (List.cons.inj (mem_singleton.mp hlast)).1 (by decide)
  | exec ps' hlaid hl =>
    have hps : ps = ps' := split_unique hlaid.not_exec not_mem_nil (hl.symm.trans heq)
    rw [hps]
    exact hlaid

/-- A step that is not the answer. -/
theorem Stores.stays (h : Stores D w o sent said q cut) {e : TalkEv}
    (hbusy : Busy D (w.step D e) o q cut) (hsame : Same w.c (w.step D e).c)
    (hmtu : (w.step D e).c.mtu = w.c.mtu ∨
      e = .hears ∧ w.toUs.head? = some D.mtuPdu ∧ (w.step D e).c.mtu = Conn.agreed D.rx)
    (hsteady : Steady D w o e) : Stores D (w.step D e) o sent said q cut := by
  obtain ⟨new, hnew, hquiet⟩ := hsame.sent
  obtain ⟨l, hl, hstage⟩ := h.stage
  have hwrites : writes (l ++ new) = writes l := by
    rw [writes_append, writes_nil_of new hquiet, append_nil]
  refine ⟨hbusy, hsame.said.trans h.said, l ++ new, ?_, ?_⟩
  · rw [hnew, hl, append_assoc]
  · have hair := h.air
    cases hstage with
    | whole hl' => exact .whole (hwrites.trans hl')
    | parts ps hlaid hoff hl' =>
      -- the part that is on the way is still the one that will be counted
      have hpart : nextPart o (w.step D e).c = nextPart o w.c := by
        unfold nextPart
        rw [hsame.off]
        rcases hmtu with hmtu | ⟨rfl, hhead, hmtu⟩
        · rw [hmtu]
        · rw [hmtu, (hsteady hhead).1 hair]
      rw [← hsame.off, ← hpart] at hl' ⊢
      rw [← hsame.off] at hlaid hoff
      exact .parts ps hlaid hoff (hwrites.trans hl')
    | exec ps hlaid hl' => exact .exec ps hlaid (hwrites.trans hl')

/-- The first answer byte of what is not a read. -/
theorem answerRx_write (hcur : c.cur = some o) (hk : o.kind = .write) {p : Bytes}
    (hp : byteAt p 0 ≠ error) :
    c.answerRx p = c.writeRx o p := by
  unfold Conn.answerRx
  rw [hcur]
  dsimp only
  rw [hk]
  exact if_neg hp

/-- **The answer to a write**: the next part is sent, the whole is executed, or the write is
reported. -/
theorem Stores.answered (h : Stores D w o sent said q cut) (hk : o.kind = .write) {p : Bytes}
    {rest : List Bytes} (hp : Answers D cut q p) (hrest : ∀ x ∈ rest, D.Own x)
    (hquiet : ∀ x ∈ w.toDevice, byteAt x 0 ∉ requests) :
    let w' := { w with toUs := rest }.send (Conn.answerRx { w.c with air := [] } p)
    (∃ q' cut', Stores D w' o sent said q' cut') ∨ w'.c.said ≠ said ∧ Exact D o sent said w'.c := by
  intro w'
  obtain ⟨l, hl, hstage⟩ := h.stage
  have hexecuted := hstage.executed
  have hcur : ({ w.c with air := [] } : Conn).cur = some o := h.cur
  have hends : ∀ {r : Reply}, w'.c = (Conn.say { w.c with air := [] } o r).opDone → Fair D o l r →
      w'.c.said ≠ said ∧ Exact D o sent said w'.c := by
    intro r hc hfair
    rw [hc]
    exact ⟨said_ends (c := { w.c with air := [] }) h.said r,
      exact_ends (c := { w.c with air := [] }) hl h.said hexecuted hfair⟩
  have hsends : ∀ (q' : Bytes) (off : ℕ), byteAt q' 0 ∈ requests →
      Conn.answerRx { w.c with air := [] } p =
        { w.c with off := off, sent := w.c.sent ++ [q'], air := [byteAt q' 0] } →
      Stage o { w.c with off := off, sent := w.c.sent ++ [q'], air := [byteAt q' 0] }
      (l ++ [q']) q' →
      ∃ q' cut', Stores D w' o sent said q' cut' := by
    intro q' off hq' hrx hstage'
    have hw' : w' = { w with
        c := { w.c with off := off, sent := w.c.sent ++ [q'], air := [byteAt q' 0] }
        toDevice := w.toDevice ++ [q']
        toUs := rest } := by
      change Talk.send _ _ = _
      unfold Talk.send
      rw [hrx]
      dsimp only
      rw [drop_left]
    have hbusy :=
      busy_sends (q := q')
        (c := { w.c with off := off, sent := w.c.sent ++ [q'], air := [byteAt q' 0] })
      h.up h.cur h.mtu h.agreed ⟨rfl, rfl, rfl⟩ rfl hq' hrest hquiet
    rw [hw']
    refine ⟨q', w.c.mtu, hbusy, h.said, l ++ [q'], ?_, hstage'⟩
    dsimp only
    rw [hl, append_assoc]
  rcases hp with rfl | ⟨err, rfl, -⟩
  · cases hstage with
    | whole hl' =>
      right
      have hrx : Conn.answerRx { w.c with air := [] }
          (D.answer cut (writePdu o.req.handle o.req.data)) =
          (Conn.say { w.c with air := [] } o (.written w.c.addr o.req.handle)).opDone := by
        have hanswer : D.answer cut (writePdu o.req.handle o.req.data) = [writeRsp] := rfl
        rw [hanswer, answerRx_write hcur hk (by decide)]
        rfl
      refine hends (r := .written w.c.addr o.req.handle) hrx ⟨rfl, .inl ⟨[], hl'⟩⟩
    | exec ps hlaid hl' =>
      right
      have hrx : Conn.answerRx { w.c with air := [] } (D.answer cut execPdu) =
          (Conn.say { w.c with air := [] } o (.written w.c.addr o.req.handle)).opDone := by
        have hanswer : D.answer cut execPdu = [execWriteRsp] := rfl
        rw [hanswer, answerRx_write hcur hk (by decide)]
        rfl
      refine hends (r := .written w.c.addr o.req.handle) hrx ⟨rfl, .inr ⟨ps, [], hl', hlaid⟩⟩
    | parts ps hlaid hoff hl' =>
      left
      generalize hpart : nextPart o w.c = part at *
      have hplen : part.length = min (o.req.data.length - w.c.off) (w.c.mtu - 5) := by
        rw [← hpart]
        unfold nextPart
        rw [length_take, length_drop]
        omega
      have hoff' : w.c.off + min (o.req.data.length - w.c.off) (w.c.mtu - 5) =
          w.c.off + part.length := by
        rw [hplen]
      -- the parts that were sent make up the front of the value
      have hlaid' : Laid o.req.handle 0 (o.req.data.take (w.c.off + part.length))
          (ps ++ [prepPdu o.req.handle w.c.off part]) := by
        have hconcat := hlaid.concat part
        have hlen : (o.req.data.take w.c.off).length = w.c.off := by
          rw [length_take]
          omega
        have hfront : o.req.data.take w.c.off ++ part =
            o.req.data.take (w.c.off + part.length) := by
          rw [take_add, ← hpart]
          refine congrArg _ ?_
          unfold nextPart
          rw [length_take, length_drop, take_eq_take_iff]
          omega
        rw [hlen, hfront, Nat.zero_add] at hconcat
        exact hconcat
      have hrx : Conn.answerRx { w.c with air := [] }
          (D.answer cut (prepPdu o.req.handle w.c.off part)) =
          if w.c.off + part.length < o.req.data.length then
            Conn.sendPrep { w.c with air := [], off := w.c.off + part.length } o
          else Conn.attSend { w.c with air := [], off := w.c.off + part.length }
          execWriteReq [1] := by
        have hanswer : D.answer cut (prepPdu o.req.handle w.c.off part) =
            prepWriteRsp :: (put16 o.req.handle ++ put16 w.c.off ++ part) := rfl
        have hfirst : byteAt (prepWriteRsp :: (put16 o.req.handle ++ put16 w.c.off ++ part)) 0 =
            prepWriteRsp := rfl
        rw [hanswer, answerRx_write hcur hk (hfirst.symm ▸ (by decide : prepWriteRsp ≠ error))]
        unfold Conn.writeRx
        rw [if_pos hfirst]
        dsimp only
        rw [hoff']
      by_cases hmore : w.c.off + part.length < o.req.data.length
      · rw [if_pos hmore] at hrx
        have htake : (o.req.data.drop (w.c.off + part.length)).take (w.c.mtu - 5) =
            nextPart o { w.c with off := w.c.off + part.length } := by
          unfold nextPart
          dsimp only
          rw [take_eq_take_iff, length_drop]
          omega
        refine hsends (prepPdu o.req.handle (w.c.off + part.length)
            (nextPart o { w.c with off := w.c.off + part.length })) (w.c.off + part.length)
          (by decide : prepWriteReq ∈ requests) ?_ ?_
        · rw [hrx, ← htake]
          rfl
        · refine .parts (ps ++ [prepPdu o.req.handle w.c.off part]) hlaid' hmore ?_
          rw [writes_append, hl']
          rfl
      · rw [if_neg hmore] at hrx
        refine hsends execPdu (w.c.off + part.length) (by decide) ?_ ?_
        · rw [hrx]
          rfl
        · refine .exec (ps ++ [prepPdu o.req.handle w.c.off part]) ?_ ?_
          · rw [take_of_length_le (by omega)] at hlaid'
            exact hlaid'
          · rw [writes_append, hl']
            rfl
  · right
    have hrx : Conn.answerRx { w.c with air := [] } (Device.refusal q err) =
        (Conn.say { w.c with air := [] } o (.error w.c.addr o.req.handle
          (errorOf (Device.refusal q err)))).opDone := by
      have hfirst : byteAt (Device.refusal q err) 0 = error := rfl
      unfold Conn.answerRx
      rw [hcur]
      dsimp only
      rw [hk]
      dsimp only
      rw [if_pos hfirst]
      unfold Conn.errorRx
      rw [if_neg (by rw [hk]; exact fun hno => nomatch hno.1)]
      rfl
    exact hends (r := .error w.c.addr o.req.handle (errorOf (Device.refusal q err))) hrx trivial

end stores

/-! ### A whole read or write -/

section whole

variable {D} {w} {o}

/-- What is sent first, and with which state of the connection. -/
theorem Begins.sends (h : Begins D w o) {ops : List Op} {q : Bytes} (hq : byteAt q 0 ∈ requests)
    (hstart : w.c.startOp = { w.c with
      ops := ops
      cur := some o
      val := []
      off := 0
      sent := w.c.sent ++ [q]
      air := [byteAt q 0] }) :
    w.send w.c.startOp = { w with c := w.c.startOp, toDevice := w.toDevice ++ [q] } ∧
      Busy D (w.send w.c.startOp) o q w.c.mtu := by
  have hsend : w.send w.c.startOp = { w with c := w.c.startOp, toDevice := w.toDevice ++ [q] } := by
    unfold Talk.send
    rw [hstart]
    dsimp only
    rw [drop_left]
  have hup : w.c.state = .up := by
    have hstarts := h.starts
    unfold Conn.starts at hstarts
    simp only [Bool.and_eq_true, decide_eq_true_eq] at hstarts
    exact hstarts.1.1
  refine ⟨hsend, ?_⟩
  rw [hsend]
  refine busy_sends (w := { w with c := { w.c with cur := some o } }) hup rfl h.mtu.1 h.agreed ?_ ?_
    hq h.own h.quiet
  · rw [hstart]
    exact ⟨rfl, rfl, rfl⟩
  · rw [hstart]

/-- The first of the queue is started. -/
theorem Begins.startOp (h : Begins D w o) : ∃ ops, w.c.ops = o :: ops ∧
    w.c.startOp = Conn.startOps (o :: ops) w.c := by
  have hops := h.ops
  cases hlist : w.c.ops with
  | nil =>
    rw [hlist] at hops
    exact nomatch hops
  | cons o' ops =>
    rw [hlist] at hops
    obtain rfl := Option.some.inj hops
    refine ⟨ops, rfl, ?_⟩
    unfold Conn.startOp
    rw [h.cur, hlist]
    rfl

/-- A read begins. -/
theorem Begins.reads (h : Begins D w o) (hk : o.kind = .read) :
    Reads D (w.send w.c.startOp) o w.c.sent w.c.said w.c.mtu := by
  obtain ⟨ops, -, hops⟩ := h.startOp
  have hstart : w.c.startOp = { w.c with
      ops := ops
      cur := some o
      val := []
      off := 0
      sent := w.c.sent ++ [readPdu o.req.handle []]
      air := [byteAt (readPdu o.req.handle []) 0] } := by
    rw [hops]
    unfold Conn.startOps
    rw [if_pos h.starts]
    dsimp only
    rw [hk]
    dsimp only
    rw [sendRead_eq, h.air]
    rfl
  obtain ⟨hsend, hbusy⟩ := h.sends (readPdu_request _ _) hstart
  rw [hsend] at hbusy ⊢
  rw [hstart] at hbusy ⊢
  refine ⟨hbusy, rfl, .inl rfl, fun hne => absurd rfl hne, rfl, [readPdu o.req.handle []], rfl, ?_⟩
  intro hin
  exact absurd (List.cons.inj (mem_singleton.mp hin)).1 (by decide)

/-- A write begins. -/
theorem Begins.stores (h : Begins D w o) (hk : o.kind = .write)
    (hresponse : o.req.response = true) :
    ∃ q, Stores D (w.send w.c.startOp) o w.c.sent w.c.said q w.c.mtu := by
  obtain ⟨ops, -, hops⟩ := h.startOp
  have hfirst : w.c.startOp =
      if o.req.data.length ≤ w.c.mtu - 3 then
        Conn.attSend { w.c with ops := ops, cur := some o, val := [], off := 0 } writeReq
          (put16 o.req.handle ++ o.req.data)
      else Conn.sendPrep { w.c with ops := ops, cur := some o, val := [], off := 0 } o := by
    rw [hops]
    unfold Conn.startOps
    rw [if_pos h.starts]
    dsimp only
    rw [hk, hresponse]
    rfl
  -- in one request, or the first part of it
  by_cases hshort : o.req.data.length ≤ w.c.mtu - 3
  · have hstart : w.c.startOp = { w.c with
        ops := ops
        cur := some o
        val := []
        off := 0
        sent := w.c.sent ++ [writePdu o.req.handle o.req.data]
        air := [byteAt (writePdu o.req.handle o.req.data) 0] } := by
      rw [hfirst, if_pos hshort]
      unfold Conn.attSend
      dsimp only
      rw [h.air]
      rfl
    obtain ⟨hsend, hbusy⟩ := h.sends (by exact (by decide : writeReq ∈ requests)) hstart
    rw [hsend] at hbusy ⊢
    rw [hstart] at hbusy ⊢
    exact ⟨_, hbusy, rfl, [writePdu o.req.handle o.req.data], rfl, .whole rfl⟩
  · have hpart : (o.req.data.drop 0).take (w.c.mtu - 5) = nextPart o { w.c with off := 0 } := by
      unfold nextPart
      dsimp only
      rw [take_eq_take_iff, length_drop]
      omega
    have hstart : w.c.startOp = { w.c with
        ops := ops
        cur := some o
        val := []
        off := 0
        sent := w.c.sent ++ [prepPdu o.req.handle 0 (nextPart o { w.c with off := 0 })]
        air := [byteAt (prepPdu o.req.handle 0 (nextPart o { w.c with off := 0 })) 0] } := by
      rw [hfirst, if_neg hshort, ← hpart]
      unfold Conn.sendPrep Conn.attSend
      dsimp only
      rw [h.air]
      rfl
    obtain ⟨hsend, hbusy⟩ := h.sends (by exact (by decide : prepWriteReq ∈ requests)) hstart
    rw [hsend] at hbusy ⊢
    rw [hstart] at hbusy ⊢
    refine ⟨_, hbusy, rfl, [prepPdu o.req.handle 0 (nextPart o { w.c with off := 0 })], rfl,
      .parts [] (.done 0) ?_ rfl⟩
    dsimp only
    omega

end whole

/-- **Where an operation is**: a part of it is on the way, or it was reported. -/
inductive Along (D : Device) (o : Op) (sent : List Bytes) (said : List Said) (w : Talk) : Prop
  | reading (cut : ℕ) (hk : o.kind = .read) (h : Reads D w o sent said cut)
  | writing (q : Bytes) (cut : ℕ) (hk : o.kind = .write) (h : Stores D w o sent said q cut)
  | reported (hsaid : w.c.said ≠ said) (h : Exact D o sent said w.c)

section whole

variable {D} {w} {o} {sent : List Bytes} {said : List Said}

/-- **One step.** -/
theorem Along.step (h : Along D o sent said w) (hvalue : D.value.length ≤ 512)
    (hrx : 23 ≤ D.rx ∧ D.rx < 2 ^ 16) {e : TalkEv} (hsaid : w.c.said = said)
    (hfollows : Follows D w e) (hsteady : Steady D w o e) :
    Along D o sent said (w.step D e) := by
  cases h with
  | reading cut hk h =>
    rcases h.toBusy.step hrx hfollows with ⟨hbusy, hsame, hmtu⟩ |
      ⟨p, rest, -, hans, hrest, hquiet, hstep⟩
    · exact .reading cut hk (h.stays hbusy hsame hmtu hsteady)
    · rw [hstep]
      rcases h.answered hk hvalue hans hrest hquiet with ⟨cut', h'⟩ | ⟨hnew, hexact⟩
      · exact .reading cut' hk h'
      · exact .reported hnew hexact
  | writing q cut hk h =>
    rcases h.toBusy.step hrx hfollows with ⟨hbusy, hsame, hmtu⟩ |
      ⟨p, rest, -, hans, hrest, hquiet, hstep⟩
    · exact .writing q cut hk (h.stays hbusy hsame hmtu hsteady)
    · rw [hstep]
      rcases h.answered hk hans hrest hquiet with ⟨q', cut', h'⟩ | ⟨hnew, hexact⟩
      · exact .writing q' cut' hk h'
      · exact .reported hnew hexact
  | reported hnew => exact absurd hsaid hnew

/-- Until it is reported, a request of it is on the air. -/
theorem Along.exact (h : Along D o sent said w) : Exact D o sent said w.c ∧
    (w.c.said = said → w.c.cur = some o ∧ w.c.air.length = 1) := by
  cases h with
  | reading cut hk h =>
    obtain ⟨l, hl, hexec⟩ := h.sent
    exact ⟨exact_working hl h.said (executed_of_not_mem hexec),
      fun _ => ⟨h.cur, congrArg List.length h.air⟩⟩
  | writing q cut hk h =>
    obtain ⟨l, hl, hstage⟩ := h.stage
    exact ⟨exact_working hl h.said hstage.executed, fun _ => ⟨h.cur, congrArg List.length h.air⟩⟩
  | reported hnew h => exact ⟨h, fun heq => absurd heq hnew⟩

end whole

/-- **A value is delivered and reported exactly.**  A read, or a write with response, begins on a
connection that is up.  In every run until it is reported in which no MTU exchange of the device
changes the piece that is on the way, what was sent before an execute request and what is reported
is the value; and as long as nothing is reported, a request of it is on the air. -/
theorem long_exact {D : Device} {w : Talk} {o : Op} (hbegins : Begins D w o)
    (hk : o.kind = .read ∨ o.kind = .write ∧ o.req.response = true) (hvalue : D.value.length ≤ 512)
    {l : List TalkEv}
    (hrun : Runs.Each (Talk.step D) (fun v e => v.c.said = w.c.said ∧
      Follows D v e ∧ Steady D v o e)
      (w.send w.c.startOp) l) :
    let v := l.foldl (Talk.step D) (w.send w.c.startOp)
    Exact D o w.c.sent w.c.said v.c ∧
    (v.c.said = w.c.said → v.c.cur = some o ∧ v.c.air.length = 1) := by
  intro v
  have hfirst : Along D o w.c.sent w.c.said (w.send w.c.startOp) := by
    rcases hk with hread | ⟨hwrite, hresponse⟩
    · exact .reading w.c.mtu hread (hbegins.reads hread)
    · obtain ⟨q, hstores⟩ := hbegins.stores hwrite hresponse
      exact .writing q w.c.mtu hwrite hstores
  refine Along.exact (Runs.invariant ?_ hfirst hrun)
  rintro v e h ⟨hsaid, hfollows, hsteady⟩
  exact h.step hvalue hbegins.rx hsaid hfollows hsteady

/-- A write of 25 bytes under the smallest MTU, to a device that makes its exchange meanwhile and
stays at that MTU. -/
theorem long_exact_written :
    let D : Device := ⟨23, []⟩
    let o : Op := ⟨⟨1, 7, .write 3 ((List.range 25).map Nat.toUInt8) true⟩, .write, rfl⟩
    let w : Talk := ⟨{ state := .up, addr := 7, mtu := 23, ops := [o] }, 23, false, [], []⟩
    let l : List TalkEv :=
      [.speaks D.mtuPdu, .hears, .takes none, .hears, .takes none, .takes none, .hears,
        .takes none, .hears]
    let v := l.foldl (Talk.step D) (w.send w.c.startOp)
    v.c.said = [⟨o.req, .written 7 3⟩] ∧ Exact D o [] [] v.c := by
  intro D o w l v
  refine ⟨by decide,
    (long_exact (D := D) (w := w) (o := o) (l := l) ?_ (.inr ⟨rfl, rfl⟩) (by decide) ?_).1⟩
  · exact ⟨rfl, rfl, rfl, rfl, by decide, by decide, nofun, nofun, rfl⟩
  · decide

/-- The parts have the bytes of the value. -/
theorem Laid.length {handle off : ℕ} {data : Bytes} {l : List Bytes} (h : Laid handle off data l) :
    (l.map fun p => p.length - 5).sum = data.length := by
  induction h with
  | done => rfl
  | @part off a rest l _ ih =>
    have hpart : (prepPdu handle off a).length = a.length + 5 := rfl
    rw [map_cons, sum_cons, ih, hpart, length_append, Nat.add_sub_cancel]

/-- **An exchange between a piece and its answer**: the first 18 of 40 bytes are sent and then
executed, since 180 would have fitted; and the first 22 of 100 bytes are reported as the whole,
since they are no full part any more. -/
theorem long_split :
    let D : Device := ⟨185, (List.range 100).map Nat.toUInt8⟩
    let o : Op := ⟨⟨1, 7, .write 3 ((List.range 40).map Nat.toUInt8) true⟩, .write, rfl⟩
    let r : Op := ⟨⟨1, 7, .read 3⟩, .read, rfl⟩
    let w (o : Op) : Talk := ⟨{ state := .up, addr := 7, mtu := 23, ops := [o] }, 23, false, [], []⟩
    let l : List TalkEv := [.speaks D.mtuPdu, .takes none, .hears, .hears]
    let v (o : Op) := l.foldl (Talk.step D) ((w o).send (w o).c.startOp)
    (∀ x ∈ [o, r], Begins D (w x) x ∧
      Runs.Each (Talk.step D) (fun v e => v.c.said = [] ∧ Follows D v e)
        ((w x).send (w x).c.startOp) l ∧
      ¬ Exact D x [] [] (v x).c) ∧
    (v o).c.sent = [prepPdu 3 0 (o.req.data.take 18), mtuRsp :: put16 attMtu, execPdu] ∧
    (v r).c.said = [⟨r.req, .read 7 3 (D.value.take 22)⟩] := by
  intro D o r w l v
  have hsent : (v o).c.sent = [prepPdu 3 0 (o.req.data.take 18),
      mtuRsp :: put16 attMtu, execPdu] := by
    decide
  have hsaid : (v r).c.said = [⟨r.req, .read 7 3 (D.value.take 22)⟩] := by decide
  have hbegins : ∀ x : Op, Begins D (w x) x := by
    intro x
    exact ⟨rfl, rfl, rfl, rfl, (by decide : 23 ≤ 23 ∧ 23 ≤ attMtu),
      (by decide : 23 ≤ 185 ∧ 185 < 2 ^ 16), nofun, nofun, rfl⟩
  refine ⟨?_, hsent, hsaid⟩
  intro x hx
  rcases mem_cons.mp hx with rfl | hx
  · refine ⟨hbegins o, by decide, ?_⟩
    intro hexact
    have hlaid := hexact.1 [prepPdu 3 0 (o.req.data.take 18)] [] (by rw [hsent]; decide)
    exact absurd hlaid.length (by decide)
  · obtain rfl := mem_singleton.mp hx
    refine ⟨hbegins r, by decide, ?_⟩
    intro hexact
    have hvalue := (hexact.2 ⟨r.req, .read 7 3 (D.value.take 22)⟩ [] hsaid).2.2
    exact absurd hvalue (by decide)

end Gatt
end Hassmic.Ble
