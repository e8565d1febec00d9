import Hassmic.Ble.Gatt

/-!
# What a connection keeps

A connection has at most one ATT request on the air, as long as what it takes for an answer answers
that request.  Each answer it gives fits the request it is given to.

## Main definitions

* `Good` — what holds of a connection between any two steps.
* `Served` — a request at work of which nothing is on the air.

## Main results

* `good_startOps` — starting requests.
* `good_attRx` — a PDU that answers what is on the air, or is not taken for an answer.
-/

namespace Hassmic.Ble
namespace Gatt

open Wire List

/-- The requests on the air that a kind of operation makes. -/
def OpKind.asks : OpKind → UInt8 → Bool
  | .discover, b => b = Att.readGroupReq || b = Att.readTypeReq || b = Att.findInfoReq
  | .read, b => b = Att.readReq || b = Att.readBlobReq
  | .write, b => b = Att.writeReq || b = Att.prepWriteReq || b = Att.execWriteReq

variable {b : UInt8} {rest : Bytes}

theorem OpKind.mem_requests {k : OpKind} (h : k.asks b = true) : b ∈ Att.requests := by
  cases k <;>
  · simp only [OpKind.asks, Bool.or_eq_true, decide_eq_true_eq] at h
    rcases h with (rfl | rfl) | rfl <;> decide

/-- What holds of a connection between any two steps. -/
structure Good (c : Conn) : Prop where
  own : ∀ o ∈ c.cur.toList ++ c.ops, o.req.addr = c.addr
  fits : ∀ s ∈ c.said, s.Fits
  requests : ∀ b ∈ c.air, b ∈ Att.requests
  one : c.air.length ≤ 1
  busy : ∀ {o}, c.cur = some o → c.state.linked = true ∧ c.state ≠ .mtu ∧ o.req.expects = true ∧
    ∃ b, c.air = [b] ∧ o.kind.asks b = true
  clear : c.cur = none → c.state = .up → c.closeNow = false → c.air = []
  unlinked : c.state.linked = false →
    c.air = [] ∧ c.ops = [] ∧ c.encPending = false ∧ c.mtuRetry = false
  fresh : c.state = .mtu → c.ops = [] ∧ (∀ b ∈ c.air, b = Att.mtuReq) ∧
    (c.mtuRetry = true → c.air = [])
  started : c.cur = none → c.starts = true → c.ops = []

/-- Nothing is at work, and the queue may be looked at. -/
structure Idle (c : Conn) : Prop where
  cur : c.cur = none
  own : ∀ o ∈ c.ops, o.req.addr = c.addr
  fits : ∀ s ∈ c.said, s.Fits
  requests : ∀ b ∈ c.air, b ∈ Att.requests
  one : c.air.length ≤ 1
  linked : c.state.linked = true
  agreed : c.state ≠ .mtu
  clear : c.state = .up → c.closeNow = false → c.air = []

/-- A request is at work, and nothing of it is on the air. -/
structure Served (o : Op) (c : Conn) : Prop where
  cur : c.cur = some o
  own : ∀ o ∈ c.cur.toList ++ c.ops, o.req.addr = c.addr
  fits : ∀ s ∈ c.said, s.Fits
  air : c.air = []
  linked : c.state.linked = true
  agreed : c.state ≠ .mtu
  expects : o.req.expects = true

variable {c : Conn} {o : Op} {p : Bytes} {r : Req}

/-! ### The next request of the same operation -/

theorem air_attSend (hb : b ∈ Att.requests) (rest : Bytes) :
    (c.attSend b rest).air = c.air ++ [b] := by
  show c.air ++ (if b ∈ Att.requests then [b] else []) = _
  rw [if_pos hb]

theorem air_attSend_reply (hb : b ∉ Att.requests) (rest : Bytes) :
    (c.attSend b rest).air = c.air := by
  show c.air ++ (if b ∈ Att.requests then [b] else []) = _
  rw [if_neg hb, append_nil]

theorem Served.send (h : Served o c) (hb : o.kind.asks b = true) (rest : Bytes) :
    Good (c.attSend b rest) := by
  have hair : (c.attSend b rest).air = [b] := by
    rw [air_attSend (OpKind.mem_requests hb), h.air, nil_append]
  have hcur : ∀ {o'}, (c.attSend b rest).cur = some o' → o' = o := by
    intro o' ho'
    exact (Option.some.inj (h.cur.symm.trans ho')).symm
  refine ⟨h.own, h.fits, ?_, ?_, fun {o'} ho' => ?_, fun hnone => ?_, fun hstate => ?_,
    fun hstate => absurd hstate h.agreed, fun hnone => ?_⟩
  · rw [hair]
    intro b' hb'
    rw [mem_singleton.mp hb']
    exact OpKind.mem_requests hb
  · rw [hair]
    exact le_refl 1
  · rw [hcur ho']
    exact ⟨h.linked, h.agreed, h.expects, b, hair, hb⟩
  · exact absurd (h.cur.symm.trans hnone) (by simp)
  · exact absurd (h.linked.symm.trans hstate) (by simp)
  · exact absurd (h.cur.symm.trans hnone) (by simp)

theorem Served.sendRead (h : Served o c) (hk : o.kind = .read) : Good (c.sendRead o) := by
  unfold Conn.sendRead
  split
  · exact h.send (by rw [hk]; rfl) _
  · exact h.send (by rw [hk]; rfl) _

theorem Served.sendPrep (h : Served o c) (hk : o.kind = .write) : Good (c.sendPrep o) :=
  h.send (by rw [hk]; rfl) _

/-! ### The queue -/

/-- The next of the queue is at work, and nothing is on the air. -/
theorem Idle.served {ops : List Op} (h : Idle c) (hops : c.ops = o :: ops) (hs : c.starts = true)
    (he : o.req.expects = true) :
    Served o { c with ops := ops, cur := some o, val := [], off := 0 } := by
  simp only [Conn.starts, Bool.and_eq_true, decide_eq_true_eq, Bool.not_eq_true'] at hs
  refine ⟨rfl, ?_, h.fits, h.clear hs.1.1 hs.1.2, h.linked, h.agreed, he⟩
  intro o' ho'
  refine h.own o' ?_
  rw [hops]
  simpa using ho'

/-- What an operation was asked for. -/
theorem Op.ask_cases (o : Op) :
    (o.kind = .discover ∧ o.req.ask = .services) ∨
    (o.kind = .read ∧ o.req.ask = .read o.req.handle) ∨
    (o.kind = .write ∧ o.req.ask = .write o.req.handle o.req.data o.req.response) := by
  have hop := o.isOp
  unfold Req.handle Req.data Req.response
  cases hask : o.req.ask with
  | services =>
    rw [hask] at hop
    exact .inl ⟨(Option.some.inj hop).symm, rfl⟩
  | read h =>
    rw [hask] at hop
    exact .inr (.inl ⟨(Option.some.inj hop).symm, rfl⟩)
  | write h d b =>
    rw [hask] at hop
    exact .inr (.inr ⟨(Option.some.inj hop).symm, rfl⟩)
  | connect | disconnect | pair | unpair =>
    rw [hask] at hop
    exact absurd hop (by simp [Ask.op])

theorem Op.ask_services (hk : o.kind = .discover) : o.req.ask = .services := by
  rcases o.ask_cases with ⟨_, hask⟩ | ⟨hk', _⟩ | ⟨hk', _⟩
  · exact hask
  · exact absurd (hk.symm.trans hk') (by simp)
  · exact absurd (hk.symm.trans hk') (by simp)

theorem Op.ask_read (hk : o.kind = .read) : o.req.ask = .read o.req.handle := by
  rcases o.ask_cases with ⟨hk', _⟩ | ⟨_, hask⟩ | ⟨hk', _⟩
  · exact absurd (hk.symm.trans hk') (by simp)
  · exact hask
  · exact absurd (hk.symm.trans hk') (by simp)

theorem Op.ask_write (hk : o.kind = .write) :
    o.req.ask = .write o.req.handle o.req.data o.req.response := by
  rcases o.ask_cases with ⟨hk', _⟩ | ⟨hk', _⟩ | ⟨_, hask⟩
  · exact absurd (hk.symm.trans hk') (by simp)
  · exact absurd (hk.symm.trans hk') (by simp)
  · exact hask

/-- An operation expects an answer unless it is a write without response. -/
theorem Op.expects_eq (o : Op) :
    o.req.expects = if o.kind = .write then o.req.response else true := by
  unfold Req.expects
  rcases o.ask_cases with ⟨hk, hask⟩ | ⟨hk, hask⟩ | ⟨hk, hask⟩ <;> rw [hk, hask] <;> rfl

/-- Nothing is at work, and nothing can be started or nothing waits. -/
theorem Idle.good (h : Idle c) (hops : c.starts = true → c.ops = []) : Good c :=
  { h with
    own := fun o ho => h.own o (by rwa [h.cur] at ho)
    busy := fun ho => absurd (h.cur.symm.trans ho) (by simp)
    clear := fun _ => h.clear
    unlinked := fun hl => absurd (h.linked.symm.trans hl) (by simp)
    fresh := fun hm => absurd hm h.agreed
    started := fun _ => hops }

/-- **Starting requests.** -/
theorem good_startOps {ops : List Op} (hops : c.ops = ops) (h : Idle c) :
    Good (Conn.startOps ops c) := by
  induction ops generalizing c with
  | nil => exact h.good fun _ => hops
  | cons o ops ih =>
    rw [Conn.startOps]
    split
    · next hs =>
      have hmine : o.req.addr = c.addr := h.own o (by rw [hops]; exact mem_cons_self)
      have hrest : ∀ o' ∈ ops, o'.req.addr = c.addr := fun o' ho' =>
        h.own o' (by rw [hops]; exact mem_cons_of_mem _ ho')
      dsimp only
      split
      · next hk => exact (h.served hops hs (by rw [o.expects_eq, hk]; rfl)).sendRead hk
      · next hk =>
        split
        · -- a command: nothing is on the air, and the loop goes on
          have hair :=
            air_attSend_reply (c := { c with ops := ops, cur := some o, val := [], off := 0 })
            (b := Att.writeCmd) (by decide)
          refine ih rfl ⟨rfl, hrest, h.fits, ?_, ?_, h.linked, h.agreed, ?_⟩
          · rw [hair]
            exact h.requests
          · rw [hair]
            exact h.one
          · rw [hair]
            exact h.clear
        · next hresponse =>
          have hserved := h.served hops hs (by
            rw [o.expects_eq, if_pos hk]
            simpa using hresponse)
          split
          · exact hserved.send (by rw [hk]; rfl) _
          · exact hserved.sendPrep hk
      · next hk =>
        split
        · next db hdb =>
          refine ih rfl ⟨rfl, hrest, ?_, h.requests, h.one, h.linked, h.agreed, h.clear⟩
          intro s hs'
          rcases mem_append.mp hs' with hold | hnew
          · exact h.fits s hold
          · rw [mem_singleton.mp hnew]
            exact ⟨Op.ask_services hk, hmine.symm⟩
        · have hserved := h.served hops hs (by rw [o.expects_eq, hk]; rfl)
          refine Served.send (o := o) ?_ (by rw [hk]; rfl) _
          exact { hserved with cur := rfl }
    · next hs => exact h.good fun hs' => absurd hs' hs

theorem startOp_busy (hcur : c.cur = some o) : c.startOp = c := by
  unfold Conn.startOp
  rw [hcur]
  rfl

theorem startOp_empty (hops : c.ops = []) : c.startOp = c := by
  unfold Conn.startOp
  rw [hops]
  exact ite_self c

theorem good_startOp (h : Idle c) : Good c.startOp := by
  unfold Conn.startOp
  rw [h.cur]
  exact good_startOps rfl h

/-! ### An answer -/

/-- A connection but for the progress of its operation. -/
def Conn.about (c : Conn) := (c.cur, c.ops, c.addr, c.said, c.air, c.state)

/-- What changes is progress of the operation only. -/
theorem Served.of_eq {c' : Conn} (h : Served o c) (hc : c'.about = c.about) : Served o c' := by
  simp only [Conn.about, Prod.mk.injEq] at hc
  obtain ⟨hcur, hops, haddr, hsaid, hair, hstate⟩ := hc
  refine ⟨hcur.trans h.cur, ?_, ?_, hair.trans h.air, ?_, ?_, h.expects⟩
  · rw [hcur, hops, haddr]
    exact h.own
  · rw [hsaid]
    exact h.fits
  · rw [hstate]
    exact h.linked
  · rw [hstate]
    exact h.agreed

/-- The answer is given, and the next request is started. -/
theorem Served.done (h : Served o c) {x : Reply} (hx : Said.Fits ⟨o.req, x⟩) :
    Good (c.say o x).opDone := by
  refine good_startOp ⟨rfl, ?_, ?_, ?_, ?_, h.linked, h.agreed, fun _ _ => h.air⟩
  · intro o' ho'
    exact h.own o' (mem_append_right _ ho')
  · intro s hs
    rcases mem_append.mp hs with hold | hnew
    · exact h.fits s hold
    · rw [mem_singleton.mp hnew]
      exact hx
  · intro b hb
    exact absurd (h.air ▸ hb : b ∈ ([] : List UInt8)) (by simp)
  · show c.air.length ≤ 1
    rw [h.air]
    exact Nat.zero_le 1

/-- The operation is for the address of the connection. -/
theorem Served.addr (h : Served o c) : c.addr = o.req.addr := by
  refine (h.own o ?_).symm
  rw [h.cur]
  exact mem_append_left _ (by simp)

theorem Served.fail (h : Served o c) {handle : ℕ} (hh : handle = o.req.handle) (err : ℕ) :
    Good (c.opFail o handle err) :=
  h.done ⟨h.addr, hh⟩

/-! ### Discovery -/

/-- A discovery names no handle. -/
theorem Op.handle_zero (hk : o.kind = .discover) : 0 = o.req.handle := by
  unfold Req.handle
  rw [Op.ask_services hk]

theorem served_enterChr (h : Served o c) : Served o c.enterChr := by
  unfold Conn.enterChr
  dsimp only
  split
  · exact h.of_eq rfl
  · exact h

theorem served_enterSvc (h : Served o c) : Served o c.enterSvc := by
  unfold Conn.enterSvc
  dsimp only
  split
  · exact h.of_eq rfl
  · exact h

theorem good_discChrs (h : Served o c) (hk : o.kind = .discover) (k : ℕ) :
    Good (Conn.discChrs o k c) := by
  induction k generalizing c with
  | zero => exact h.done ⟨Op.ask_services hk, h.addr⟩
  | succ k ih =>
    have henter := served_enterChr h
    rw [Conn.discChrs]
    split
    · exact ih (henter.of_eq rfl)
    · exact henter.send (by rw [hk]; rfl) _

theorem good_discSvcs (h : Served o c) (hk : o.kind = .discover) (k : ℕ) :
    Good (Conn.discSvcs o k c) := by
  induction k generalizing c with
  | zero =>
    rw [Conn.discSvcs]
    refine good_discChrs ?_ hk _
    exact h.of_eq rfl
  | succ k ih =>
    have henter := served_enterSvc h
    rw [Conn.discSvcs]
    split
    · exact ih (henter.of_eq rfl)
    · exact henter.send (by rw [hk]; rfl) _

theorem good_discNext (h : Served o c) (hk : o.kind = .discover) : Good (c.discNext o) := by
  unfold Conn.discNext
  split
  · exact h.send (by rw [hk]; rfl) _
  · exact good_discSvcs h hk _
  · exact good_discChrs h hk _

theorem good_discRx (h : Served o c) (hk : o.kind = .discover) (p : Bytes) :
    Good (c.discRx o p) := by
  have hnext : ∀ {c' : Conn}, Served o c' → Good (c'.discNext o) := fun h' => good_discNext h' hk
  have hfail : ∀ err, Good (c.opFail o 0 err) := fun err => h.fail (Op.handle_zero hk) err
  unfold Conn.discRx
  split
  · split
    · exact hfail _
    · split
      · exact hnext (h.of_eq rfl)
      · exact hnext (h.of_eq rfl)
  · split
    · dsimp only
      split
      · exact hnext (h.of_eq rfl)
      · exact hnext (h.of_eq rfl)
    · split
      · dsimp only
        split
        · exact hnext (h.of_eq rfl)
        · exact hnext (h.of_eq rfl)
      · split
        · dsimp only
          split
          · exact hnext (h.of_eq rfl)
          · exact hnext (h.of_eq rfl)
        · exact hfail _

/-! ### Reads and writes -/

theorem good_errorRx (h : Served o c) (p : Bytes) : Good (c.errorRx o p) := by
  unfold Conn.errorRx
  split
  · next hread =>
    exact h.done (x := .read _ _ _) ⟨Op.ask_read hread.1, h.addr⟩
  · exact h.fail rfl _

theorem good_readRx (h : Served o c) (hk : o.kind = .read)
    (hp : byteAt p 0 = Att.readRsp ∨ byteAt p 0 = Att.readBlobRsp) : Good (c.readRx o p) := by
  unfold Conn.readRx
  rw [if_neg (by tauto)]
  dsimp only
  have hserved : Served o { c with val := c.val ++ (p.drop 1).take (Conn.maxVal - c.val.length) } :=
    h.of_eq rfl
  split
  · exact hserved.sendRead hk
  · exact hserved.done (x := .read _ _ _) ⟨Op.ask_read hk, h.addr⟩

theorem good_writeRx (h : Served o c) (hk : o.kind = .write)
    (hp : byteAt p 0 = Att.prepWriteRsp ∨ byteAt p 0 = Att.writeRsp ∨
      byteAt p 0 = Att.execWriteRsp) : Good (c.writeRx o p) := by
  unfold Conn.writeRx
  split
  · dsimp only
    have hserved : Served o
        { c with off := c.off + min (o.req.data.length - c.off) (c.mtu - 5) } :=
      h.of_eq rfl
    split
    · exact hserved.sendPrep hk
    · exact hserved.send (by rw [hk]; rfl) _
  · rw [if_neg (by tauto)]
    exact h.done (x := .written _ _) ⟨⟨_, _, Op.ask_write hk⟩, h.addr⟩

theorem good_answerRx (h : Served o c) (hp : o.kind.takes (byteAt p 0) = true) :
    Good (c.answerRx p) := by
  unfold Conn.answerRx
  simp only [h.cur]
  cases hk : o.kind with
  | discover => exact good_discRx h hk p
  | read =>
    rw [hk] at hp
    show Good (if byteAt p 0 = Att.error then _ else _)
    split
    · exact good_errorRx h p
    · next herr =>
      refine good_readRx h hk ?_
      simpa [OpKind.takes, herr] using hp
  | write =>
    rw [hk] at hp
    show Good (if byteAt p 0 = Att.error then _ else _)
    split
    · exact good_errorRx h p
    · next herr =>
      refine good_writeRx h hk ?_
      simpa [OpKind.takes, herr, or_assoc] using hp

/-! ### PDUs of the device -/

/-- What changes does not matter. -/
theorem Good.of_eq {c' : Conn} (h : Good c) (hcur : c'.cur = c.cur) (hops : c'.ops = c.ops)
    (haddr : c'.addr = c.addr) (hsaid : c'.said = c.said) (hair : c'.air = c.air)
    (hstate : c'.state = c.state) (hclose : c'.closeNow = c.closeNow)
    (henc : c'.encPending = c.encPending) (hretry : c'.mtuRetry = c.mtuRetry) : Good c' := by
  have hstarts : c'.starts = c.starts := by
    unfold Conn.starts
    rw [hstate, hclose, henc]
  refine ⟨?_, ?_, ?_, ?_, ?_, ?_, ?_, ?_, ?_⟩
  · rw [hcur, hops, haddr]
    exact h.own
  · rw [hsaid]
    exact h.fits
  · rw [hair]
    exact h.requests
  · rw [hair]
    exact h.one
  · rw [hcur, hstate, hair]
    exact h.busy
  · rw [hcur, hstate, hclose, hair]
    exact h.clear
  · rw [hstate, hair, hops, henc, hretry]
    exact h.unlinked
  · rw [hstate, hops, hair, hretry]
    exact h.fresh
  · rw [hcur, hstarts, hops]
    exact h.started

/-- Something that is no request is sent. -/
theorem Good.reply (h : Good c) (hb : b ∉ Att.requests) (rest : Bytes) :
    Good (c.attSend b rest) :=
  h.of_eq rfl rfl rfl rfl (air_attSend_reply hb rest) rfl rfl rfl rfl

theorem answered_eq (hno : ∀ b ∈ c.air, Att.answers p b = false) : c.answered p = c := by
  unfold Conn.answered
  rw [eraseP_of_forall_not fun b hb => by simp [hno b hb]]

/-- A late answer. -/
theorem good_answered (h : Good c) (hcur : c.cur = none) : Good (c.answered p) := by
  have hsub : ∀ b ∈ (c.answered p).air, b ∈ c.air := fun b hb => mem_of_mem_eraseP hb
  have hnil : c.air = [] → (c.answered p).air = [] := fun hair => by
    show c.air.eraseP _ = []
    rw [hair]
    rfl
  refine ⟨h.own, h.fits, fun b hb => h.requests b (hsub b hb), ?_,
    fun ho => absurd (hcur.symm.trans ho) (by simp), fun hc hs hn => hnil (h.clear hc hs hn),
    fun hl => ?_, fun hm => ?_, h.started⟩
  · exact le_trans length_eraseP_le h.one
  · obtain ⟨hair, hrest⟩ := h.unlinked hl
    exact ⟨hnil hair, hrest⟩
  · obtain ⟨hops, hair, hretry⟩ := h.fresh hm
    exact ⟨hops, fun b hb => hair b (hsub b hb), fun hr => hnil (hretry hr)⟩

/-- All that is on the air is answered. -/
theorem air_answered (h : Good c) (hall : ∀ b ∈ c.air, Att.answers p b = true) :
    (c.answered p).air = [] := by
  show c.air.eraseP _ = []
  have hone := h.one
  cases hair : c.air with
  | nil => rfl
  | cons b rest =>
    rw [hair, length_cons] at hone
    obtain rfl : rest = [] := length_eq_zero_iff.mp (by omega)
    rw [eraseP_cons_of_pos (hall b (by rw [hair]; exact mem_cons_self))]

/-- The request at work is answered. -/
theorem served_answered (h : Good c) (hcur : c.cur = some o)
    (hall : ∀ b ∈ c.air, Att.answers p b = true) : Served o (c.answered p) := by
  obtain ⟨hlinked, hagreed, hexpects, -⟩ := h.busy hcur
  exact ⟨hcur, h.own, h.fits, air_answered h hall, hlinked, hagreed, hexpects⟩

theorem answers_false {b' : UInt8} (hb : b ≠ b' + 1) (herr : b ≠ Att.error) :
    Att.answers (b :: rest) b' = false := by
  simp [Att.answers, hb, herr]

/-- Notifications, indications and requests of the device answer nothing. -/
theorem not_answers {b' : UInt8} (hb : b = Att.notify ∨ b = Att.indicate ∨ b % 2 = 0)
    (rest : Bytes) (hb' : b' ∈ Att.requests) : Att.answers (b :: rest) b' = false := by
  have hne : b ≠ b' + 1 ∧ b ≠ Att.error := by
    simp only [Att.requests, mem_cons, not_mem_nil, or_false] at hb'
    constructor
    · rintro rfl
      rcases hb' with rfl | rfl | rfl | rfl | rfl | rfl | rfl | rfl | rfl <;> revert hb <;> decide
    · rintro rfl
      revert hb
      decide
  exact answers_false hne.1 hne.2

/-- What is not taken for an answer answers nothing that is on the air. -/
theorem answered_of_not_takes (h : Good c) (hcur : c.cur = some o)
    (hb : b ≠ Att.notify ∧ b ≠ Att.indicate ∧ (b % 2 ≠ 0 ∨ b = Att.confirm))
    (hp : c.takes (b :: rest) = false) :
    c.answered (b :: rest) = c ∧ (c.answerRx (b :: rest)) = c := by
  obtain ⟨-, -, -, b', hair, hasks⟩ := h.busy hcur
  have hours : (b :: rest ≠ [] && b ≠ Att.notify && b ≠ Att.indicate &&
      (b % 2 ≠ 0 || b = Att.confirm) : Bool) = true := by
    simp [hb.1, hb.2.1]
    tauto
  simp only [Conn.takes, hcur, byteAt, getD_cons_zero, hours, Bool.true_and] at hp
  unfold Conn.answerRx
  simp only [hcur]
  cases hk : o.kind with
  | discover =>
    rw [hk] at hp
    exact absurd hp (by simp [OpKind.takes])
  | read =>
    rw [hk] at hp hasks
    simp only [OpKind.takes, Bool.or_eq_false_iff, decide_eq_false_iff_not] at hp
    obtain ⟨⟨herr, hread⟩, hblob⟩ := hp
    refine ⟨answered_eq fun b'' hb'' => ?_, ?_⟩
    · rw [hair, mem_singleton] at hb''
      subst hb''
      simp only [OpKind.asks, Bool.or_eq_true, decide_eq_true_eq] at hasks
      rcases hasks with rfl | rfl
      · exact answers_false hread herr
      · exact answers_false hblob herr
    · show (if b = Att.error then _ else c.readRx o (b :: rest)) = c
      rw [if_neg herr]
      exact if_pos ⟨hread, hblob⟩
  | write =>
    rw [hk] at hp hasks
    simp only [OpKind.takes, Bool.or_eq_false_iff, decide_eq_false_iff_not] at hp
    obtain ⟨⟨⟨herr, hprep⟩, hwrite⟩, hexec⟩ := hp
    refine ⟨answered_eq fun b'' hb'' => ?_, ?_⟩
    · rw [hair, mem_singleton] at hb''
      subst hb''
      simp only [OpKind.asks, Bool.or_eq_true, decide_eq_true_eq] at hasks
      rcases hasks with (rfl | rfl) | rfl
      · exact answers_false hwrite herr
      · exact answers_false hprep herr
      · exact answers_false hexec herr
    · show (if b = Att.error then _ else c.writeRx o (b :: rest)) = c
      rw [if_neg herr]
      show (if b = Att.prepWriteRsp then _ else _) = c
      rw [if_neg hprep]
      exact if_pos ⟨hwrite, hexec⟩

/-- The MTU exchange is answered. -/
theorem air_answered_mtu (h : Good c) (hm : c.state = .mtu)
    (hp : b = Att.mtuRsp ∨ Conn.mtuError (b :: rest) = true) :
    (c.answered (b :: rest)).air = [] := by
  refine air_answered h fun b' hb' => ?_
  rw [(h.fresh hm).2.1 b' hb']
  rcases hp with rfl | hp
  · rfl
  · simp only [Conn.mtuError, Bool.and_eq_true, decide_eq_true_eq, byteAt, getD_cons_zero] at hp
    obtain ⟨⟨rfl, hlen⟩, hnamed⟩ := hp
    cases rest with
    | nil => exact absurd hlen (by simp)
    | cons b'' rest =>
      simp only [getD_cons_succ, getD_cons_zero, decide_eq_true_eq] at hnamed
      rw [hnamed]
      rfl

theorem Good.cur_none (h : Good c) (hm : c.state = .mtu) : c.cur = none := by
  cases hcur : c.cur with
  | none => rfl
  | some o => exact absurd hm (h.busy hcur).2.1

/-- **A PDU of the device** that answers what is on the air, or is not taken for an answer. -/
theorem good_attRx (h : Good c)
    (hp : c.takes p = true → ∀ b ∈ c.air, Att.answers p b = true) :
    Good ((c.answered p).attRx p) := by
  cases p with
  | nil =>
    rw [answered_eq fun b _ => rfl]
    exact h
  | cons b rest =>
    -- what is no answer leaves the air as it is
    have hquiet : b = Att.notify ∨ b = Att.indicate ∨ b % 2 = 0 → c.answered (b :: rest) = c :=
      fun hb => answered_eq fun b' hb' => not_answers hb rest (h.requests b' hb')
    show Good (if b = Att.notify then _ else _)
    split
    · next hb =>
      rw [hquiet (.inl hb)]
      exact h
    split
    · next hb =>
      rw [hquiet (.inr (.inl hb))]
      exact h.reply (by decide) _
    split
    · next hb =>
      rw [hquiet (.inr (.inr (by rw [hb]; rfl)))]
      dsimp only
      split
      · refine Good.reply ?_ (by decide) _
        exact h.of_eq rfl rfl rfl rfl rfl rfl rfl rfl rfl
      · exact h.reply (by decide) _
    split
    · next hb =>
      rw [hquiet (.inr (.inr hb.1))]
      split
      · exact h
      · exact h.reply (by decide) _
    split
    · next hm =>
      obtain ⟨hmtu, herror, -⟩ := hm
      have hair := air_answered_mtu h hmtu (.inr herror)
      have hgood := good_answered (p := b :: rest) h (h.cur_none hmtu)
      refine { hgood with unlinked := fun hl => ?_, fresh := fun _ => ?_ }
      · exact absurd hl
          (by rw [show (c.answered (b :: rest)).state = .mtu from hmtu]; simp [CState.linked])
      · exact ⟨(h.fresh hmtu).1, (hgood.fresh hmtu).2.1, fun _ => hair⟩
    split
    · next hm =>
      obtain ⟨hmtu, hanswer⟩ := hm
      have hair := air_answered_mtu h hmtu hanswer
      refine good_startOp ⟨h.cur_none hmtu, fun o ho => ?_, h.fits, fun b' hb' => ?_, ?_, rfl, ?_,
        fun _ _ => hair⟩
      · exact h.own o (mem_append_right _ ho)
      · exact absurd (hair ▸ hb' : b' ∈ ([] : List UInt8)) (by simp)
      · show (c.answered (b :: rest)).air.length ≤ 1
        rw [hair]
        exact Nat.zero_le 1
      · simp
    · next hnotify hindicate hreq heven _ _ =>
      cases hcur : c.cur with
      | none =>
        have hrx : (c.answered (b :: rest)).answerRx (b :: rest) = c.answered (b :: rest) := by
          unfold Conn.answerRx
          rw [show (c.answered (b :: rest)).cur = none from hcur]
        rw [hrx]
        exact good_answered h hcur
      | some o =>
        have hours : b ≠ Att.notify ∧ b ≠ Att.indicate ∧ (b % 2 ≠ 0 ∨ b = Att.confirm) :=
          ⟨hnotify, hindicate, by tauto⟩
        cases htakes : c.takes (b :: rest) with
        | false =>
          obtain ⟨hsame, hrx⟩ := answered_of_not_takes h hcur hours htakes
          rw [hsame, hrx]
          exact h
        | true =>
          have hserved := served_answered h hcur (hp htakes)
          simp only [Conn.takes, hcur, Bool.and_eq_true] at htakes
          exact good_answerRx hserved htakes.2

/-- The MTU exchange is given up when it is not on the air. -/
theorem good_mtuTimeout (h : Good c) (hm : c.state = .mtu) (hair : c.air = []) :
    Good c.mtuTimeout := by
  have hsame : c.answered [Att.error, Att.mtuReq, 0, 0, 0] = c :=
    answered_eq fun b hb => absurd (hair ▸ hb : b ∈ ([] : List UInt8)) (by simp)
  have hrx := good_attRx (p := [Att.error, Att.mtuReq, 0, 0, 0]) h fun htakes => by
    simp [Conn.takes, h.cur_none hm] at htakes
  rw [hsame] at hrx
  exact hrx

/-! ### What else happens to a connection -/

/-- There is no link, and nothing to do. -/
theorem good_blank (hfits : ∀ s ∈ c.said, s.Fits) (hcur : c.cur = none) (hops : c.ops = [])
    (hair : c.air = []) (hstate : c.state.linked = false) (henc : c.encPending = false)
    (hretry : c.mtuRetry = false) : Good c := by
  have hnot : ∀ {s : CState}, s.linked = true → c.state ≠ s := by
    rintro s hs rfl
    exact absurd (hstate.symm.trans hs) (by simp)
  refine ⟨?_, hfits, ?_, ?_, fun ho => absurd (hcur.symm.trans ho) (by simp), fun _ _ _ => hair,
    fun _ => ⟨hair, hops, henc, hretry⟩, fun hm => absurd hm (hnot rfl), fun _ _ => hops⟩
  · rw [hcur, hops]
    simp
  · rw [hair]
    simp
  · rw [hair]
    exact Nat.zero_le 1

theorem Good.cur_unlinked (h : Good c) (hl : c.state.linked = false) : c.cur = none := by
  cases hcur : c.cur with
  | none => rfl
  | some o => exact absurd ((h.busy hcur).1.symm.trans hl) (by simp)

theorem good_freeConn (h : Good c) : Good c.freeConn := good_blank h.fits rfl rfl rfl rfl rfl rfl

/-- A connection without a link goes on to another state without one. -/
theorem Good.unlink {c' : Conn} (h : Good c) (hl : c.state.linked = false) (hcur : c'.cur = c.cur)
    (hops : c'.ops = c.ops) (hsaid : c'.said = c.said) (hair : c'.air = c.air)
    (hstate : c'.state.linked = false) (henc : c'.encPending = c.encPending)
    (hretry : c'.mtuRetry = c.mtuRetry) : Good c' := by
  obtain ⟨hair', hops', henc', hretry'⟩ := h.unlinked hl
  refine good_blank ?_ (hcur.trans (h.cur_unlinked hl)) (hops.trans hops') (hair.trans hair') hstate
    (henc.trans henc') (hretry.trans hretry')
  rw [hsaid]
  exact h.fits

theorem good_connected (h : Good c) (hs : c.state = .connecting) (bonded : Bool) :
    Good (c.connected bonded) := by
  have hl : c.state.linked = false := by rw [hs]; rfl
  have hcur := h.cur_unlinked hl
  obtain ⟨hair, hops, -, hretry⟩ := h.unlinked hl
  unfold Conn.connected
  dsimp only
  split
  · refine ⟨h.own, h.fits, h.requests, h.one, fun ho => absurd (hcur.symm.trans ho) (by simp),
      fun _ _ _ => hair, fun hl' => ?_, fun _ => ⟨hops, ?_, fun _ => hair⟩, fun _ _ => hops⟩
    · exact absurd hl' (by simp [CState.linked])
    · rw [hair]
      simp
  · have hsent : ∀ rest, (Conn.attSend { c with
        state := .mtu, mtu := attMtu, encPending := c.encPending || bonded } Att.mtuReq rest).air
        = [Att.mtuReq] := by
      intro rest
      rw [air_attSend (by decide)]
      show c.air ++ _ = _
      rw [hair, nil_append]
    refine ⟨h.own, h.fits, ?_, ?_, fun ho => absurd (hcur.symm.trans ho) (by simp), fun _ hup => ?_,
      fun hl' => ?_, fun _ => ⟨hops, ?_, fun hr => ?_⟩, fun _ _ => hops⟩
    · rw [hsent]
      intro b hb
      rw [mem_singleton.mp hb]
      decide
    · rw [hsent]
      exact le_refl 1
    · exact absurd hup (by simp [Conn.attSend])
    · exact absurd hl' (by simp [Conn.attSend, CState.linked])
    · rw [hsent]
      simp
    · exact absurd (hretry.symm.trans hr) (by simp)

/-- Nothing is at work on a link whose MTU is agreed on. -/
theorem Good.idle (h : Good c) (hcur : c.cur = none) (hl : c.state.linked = true)
    (hm : c.state ≠ .mtu) : Idle c :=
  ⟨hcur, fun o ho => h.own o (mem_append_right _ ho), h.fits, h.requests, h.one, hl, hm,
    h.clear hcur⟩

theorem good_encrypted (h : Good c) (hl : c.state.linked = true) : Good c.encrypted := by
  unfold Conn.encrypted
  dsimp only
  split
  · next hretry =>
    obtain ⟨hretry, hm⟩ := hretry
    obtain ⟨hops, hair, hnone⟩ := h.fresh hm
    have hcur := h.cur_none hm
    -- asked for again, and nothing else to start
    have hsent : ∀ rest, (Conn.attSend { c with encPending := false, mtuRetry := false }
        Att.mtuReq rest).air = [Att.mtuReq] := by
      intro rest
      rw [air_attSend (by decide)]
      show c.air ++ _ = _
      rw [hnone hretry, nil_append]
    rw [startOp_empty
      (c := Conn.attSend { c with encPending := false, mtuRetry := false } _ _) hops]
    refine ⟨h.own, h.fits, ?_, ?_, fun ho => absurd (hcur.symm.trans ho) (by simp), fun _ hup => ?_,
      fun hl' => absurd (hl.symm.trans hl') (by simp), fun _ => ⟨hops, ?_, fun hr => ?_⟩,
      fun _ _ => hops⟩
    · rw [hsent]
      intro b hb
      rw [mem_singleton.mp hb]
      decide
    · rw [hsent]
      exact le_refl 1
    · exact absurd (hm.symm.trans hup) (by simp)
    · rw [hsent]
      simp
    · exact absurd hr (by simp [Conn.attSend])
  · rcases Option.eq_none_or_eq_some c.cur with hcur | ⟨o, hcur⟩
    · by_cases hm : c.state = .mtu
      · obtain ⟨hops, -⟩ := h.fresh hm
        rw [startOp_empty (c := { c with encPending := false }) hops]
        exact { h with
          unlinked := fun hl' => absurd (hl.symm.trans hl') (by simp)
          started := fun _ _ => hops }
      · have hidle := h.idle hcur hl hm
        exact good_startOp { hidle with linked := hl }
    · rw [startOp_busy (c := { c with encPending := false }) hcur]
      exact { h with
        unlinked := fun hl' => absurd (hl.symm.trans hl') (by simp)
        started := fun hnone => absurd (hcur.symm.trans hnone) (by simp) }

/-- The link is to be closed: nothing more is started. -/
theorem good_closeNow (h : Good c) (hl : c.state.linked = true) :
    Good { c with closeNow := true } :=
  { h with
    clear := fun _ _ hn => absurd hn (by simp)
    unlinked := fun hl' => absurd (hl.symm.trans hl') (by simp)
    started := fun _ hs => absurd hs (by simp [Conn.starts]) }

theorem good_closing (h : Good c) : Good { c with closeNow := false, state := .closing } :=
  ⟨h.own, h.fits, h.requests, h.one,
    fun ho => ⟨rfl, by simp, (h.busy ho).2.2⟩, fun _ hup => absurd hup (by simp),
    fun hl => absurd hl (by simp [CState.linked]), fun hm => absurd hm (by simp),
    fun _ hs => absurd hs (by simp [Conn.starts])⟩

theorem good_encrypting (h : Good c) (hl : c.state.linked = true) :
    Good { c with encPending := true } :=
  { h with
    unlinked := fun hl' => absurd (hl.symm.trans hl') (by simp)
    started := fun _ hs => absurd hs (by simp [Conn.starts]) }

theorem good_attTimeout (h : Good c) : Good c.attTimeout := by
  unfold Conn.attTimeout
  split
  · exact h
  · next o hcur =>
    obtain ⟨hl, hm, -⟩ := h.busy hcur
    have haddr : c.addr = o.req.addr := by
      refine (h.own o ?_).symm
      rw [hcur]
      exact mem_append_left _ (by simp)
    unfold Conn.opFail Conn.opDone
    refine good_startOp ⟨rfl, fun o' ho' => h.own o' (mem_append_right _ ho'), fun s hs => ?_,
      h.requests, h.one, hl, hm, fun _ hn => absurd hn (by simp [Conn.say])⟩
    rcases mem_append.mp hs with hold | hnew
    · exact h.fits s hold
    · rw [mem_singleton.mp hnew]
      exact ⟨haddr, rfl⟩

theorem good_opQueue (h : Good c) (hup : c.state = .up) (ho : o.req.addr = c.addr) :
    Good (c.opQueue o) := by
  have hl : c.state.linked = true := by rw [hup]; rfl
  have hm : c.state ≠ .mtu := by rw [hup]; simp
  have hown : ∀ o' ∈ c.cur.toList ++ (c.ops ++ [o]), o'.req.addr = c.addr := by
    intro o' ho'
    rw [← append_assoc] at ho'
    rcases mem_append.mp ho' with hold | hnew
    · exact h.own o' hold
    · rw [mem_singleton.mp hnew]
      exact ho
  unfold Conn.opQueue
  rcases Option.eq_none_or_eq_some c.cur with hcur | ⟨o', hcur⟩
  · have hidle := h.idle hcur hl hm
    exact good_startOp { hidle with
      own := fun o' ho' => hown o' (mem_append_right _ ho') }
  · rw [startOp_busy (c := { c with ops := c.ops ++ [o] }) hcur]
    exact { h with
      own := hown
      unlinked := fun hl' => absurd (hl.symm.trans hl') (by simp)
      fresh := fun hm' => absurd hm' hm
      started := fun hnone => absurd (hcur.symm.trans hnone) (by simp) }

end Gatt
end Hassmic.Ble
