import Hassmic.Ble.Served

/-!
# Each request of a connection is answered or still there

The handler is told once of each request that an answer is due to, and until then the request waits
in the queue or is at work.  This holds of whatever the device sends; only the end of the connection
takes requests away.

## Main definitions

* `load` — the answers to a request, and the places where it waits.
* `Calm` — no request has failed.

## Main results

* `load_startOps`, `load_attRx` — what is started and what comes keep the load.
* `takes_of_failed` — only what is taken for an answer makes a request fail.
-/

namespace Hassmic.Ble
namespace Gatt

open List

variable {c : Conn} {o : Op} {p : Bytes} {r : Req}

/-! ### Each request is answered or still there -/

/-- The answers to a request, and the places where it waits. -/
def Conn.load (c : Conn) (r : Req) : ℕ := (c.said.map Said.req).count r + c.pending.count r

/-- What is said to whom, and what waits. -/
def Conn.spoken (c : Conn) := (c.said, c.cur, c.ops)

theorem load_congr {c' : Conn} (h : c'.spoken = c.spoken) : c'.load r = c.load r := by
  obtain ⟨hsaid, hcur, hops⟩ : c'.said = c.said ∧ c'.cur = c.cur ∧ c'.ops = c.ops := by
    simpa [Conn.spoken] using h
  unfold Conn.load Conn.pending
  rw [hsaid, hcur, hops]

/-- An answer is given to the request at work, which is then done. -/
theorem load_say (hcur : c.cur = some o) (x : Reply) :
    Conn.load { c.say o x with cur := none } r = c.load r := by
  unfold Conn.load Conn.pending
  show ((c.said ++ [(⟨o.req, x⟩ : Said)]).map Said.req).count r + (c.ops.map Op.req).count r = _
  rw [hcur, map_append, count_append]
  show _ + List.count r [o.req] + _ = _ + List.count r (o.req :: c.ops.map Op.req)
  rw [count_cons, count_cons, count_nil]
  omega

theorem load_startOps {ops : List Op} (hr : r.expects = true) (hcur : c.cur = none)
    (hops : c.ops = ops) : (Conn.startOps ops c).load r = c.load r := by
  induction ops generalizing c with
  | nil => rfl
  | cons o ops ih =>
    rw [Conn.startOps]
    split
    · -- taken from the queue: it was the first of it
      have htaken : Conn.load { c with ops := ops, cur := some o, val := [], off := 0 } r
          = c.load r := by
        unfold Conn.load Conn.pending
        rw [hcur, hops]
        rfl
      dsimp only
      split
      · unfold Conn.sendRead
        split
        · exact (load_congr rfl).trans htaken
        · exact (load_congr rfl).trans htaken
      · next hk =>
        split
        · next hresponse =>
          rw [ih rfl rfl]
          unfold Conn.load Conn.pending
          rw [hcur, hops]
          show (c.said.map Said.req).count r + (ops.map Op.req).count r
            = (c.said.map Said.req).count r + ((o :: ops).map Op.req).count r
          have hne : o.req ≠ r := by
            rintro rfl
            rw [o.expects_eq, if_pos hk] at hr
            simp [hr] at hresponse
          rw [map_cons, count_cons_of_ne hne]
        · split
          · exact (load_congr rfl).trans htaken
          · exact (load_congr rfl).trans htaken
      · split
        · rw [ih rfl rfl]
          exact (load_say rfl _).trans htaken
        · exact (load_congr rfl).trans htaken
    · rfl

theorem load_startOp (hr : r.expects = true) : c.startOp.load r = c.load r := by
  unfold Conn.startOp
  split
  · rfl
  · next hcur => exact load_startOps hr (by simpa using hcur) rfl

theorem load_opDone (hr : r.expects = true) (hcur : c.cur = some o) (x : Reply) :
    (c.say o x).opDone.load r = c.load r := by
  unfold Conn.opDone
  rw [load_startOp hr]
  exact load_say hcur x

theorem load_opFail (hr : r.expects = true) (hcur : c.cur = some o) (handle err : ℕ) :
    (c.opFail o handle err).load r = c.load r :=
  load_opDone hr hcur _

/-! ### Discovery keeps it -/

theorem enterChr_same : c.enterChr.spoken = c.spoken := by
  unfold Conn.enterChr
  dsimp only
  split
  · rfl
  · rfl

theorem enterSvc_same : c.enterSvc.spoken = c.spoken := by
  unfold Conn.enterSvc
  dsimp only
  split
  · rfl
  · rfl

theorem load_discChrs (hr : r.expects = true) (hcur : c.cur = some o) (k : ℕ) :
    (Conn.discChrs o k c).load r = c.load r := by
  induction k generalizing c with
  | zero => exact load_opDone hr hcur _
  | succ k ih =>
    have hcur' : c.enterChr.cur = c.cur := congrArg (·.2.1) enterChr_same
    have henter : c.enterChr.load r = c.load r := load_congr enterChr_same
    rw [Conn.discChrs]
    split
    · refine (ih ?_).trans ((load_congr rfl).trans henter)
      exact hcur'.trans hcur
    · exact (load_congr rfl).trans henter

theorem load_discSvcs (hr : r.expects = true) (hcur : c.cur = some o) (k : ℕ) :
    (Conn.discSvcs o k c).load r = c.load r := by
  induction k generalizing c with
  | zero =>
    rw [Conn.discSvcs]
    refine (load_discChrs hr ?_ _).trans (load_congr rfl)
    exact hcur
  | succ k ih =>
    have hcur' : c.enterSvc.cur = c.cur := congrArg (·.2.1) enterSvc_same
    have henter : c.enterSvc.load r = c.load r := load_congr enterSvc_same
    rw [Conn.discSvcs]
    split
    · refine (ih ?_).trans ((load_congr rfl).trans henter)
      exact hcur'.trans hcur
    · exact (load_congr rfl).trans henter

theorem load_discNext (hr : r.expects = true) (hcur : c.cur = some o) :
    (c.discNext o).load r = c.load r := by
  unfold Conn.discNext
  split
  · exact load_congr rfl
  · exact load_discSvcs hr hcur _
  · exact load_discChrs hr hcur _

theorem load_discRx (hr : r.expects = true) (hcur : c.cur = some o) (p : Bytes) :
    (c.discRx o p).load r = c.load r := by
  have hnext : ∀ {c' : Conn}, c'.spoken = c.spoken →
      (c'.discNext o).load r = c.load r := by
    intro c' h
    have hcur' : c'.cur = c.cur := congrArg (·.2.1) h
    exact (load_discNext hr (hcur'.trans hcur)).trans (load_congr h)
  have hfail : ∀ err, (c.opFail o 0 err).load r = c.load r := fun err => load_opFail hr hcur 0 err
  unfold Conn.discRx
  split
  · split
    · exact hfail _
    · split
      · exact hnext rfl
      · exact hnext rfl
  · split
    · dsimp only
      split
      · exact hnext rfl
      · exact hnext rfl
    · split
      · dsimp only
        split
        · exact hnext rfl
        · exact hnext rfl
      · split
        · dsimp only
          split
          · exact hnext rfl
          · exact hnext rfl
        · exact hfail _

/-! ### PDUs of the device keep it -/

theorem load_errorRx (hr : r.expects = true) (hcur : c.cur = some o) (p : Bytes) :
    (c.errorRx o p).load r = c.load r := by
  unfold Conn.errorRx
  split
  · exact load_opDone hr hcur _
  · exact load_opFail hr hcur _ _

theorem load_sendRead : (c.sendRead o).load r = c.load r := by
  unfold Conn.sendRead
  split
  · exact load_congr rfl
  · exact load_congr rfl

theorem load_readRx (hr : r.expects = true) (hcur : c.cur = some o) (p : Bytes) :
    (c.readRx o p).load r = c.load r := by
  unfold Conn.readRx
  split
  · rfl
  · dsimp only
    split
    · exact load_sendRead.trans (load_congr rfl)
    · refine (load_opDone hr ?_ _).trans (load_congr rfl)
      exact hcur

theorem load_writeRx (hr : r.expects = true) (hcur : c.cur = some o) (p : Bytes) :
    (c.writeRx o p).load r = c.load r := by
  unfold Conn.writeRx
  split
  · dsimp only
    split
    · exact load_congr rfl
    · exact load_congr rfl
  · split
    · rfl
    · exact load_opDone hr hcur _

theorem load_answerRx (hr : r.expects = true) (p : Bytes) : (c.answerRx p).load r = c.load r := by
  unfold Conn.answerRx
  split
  · rfl
  · next o hcur =>
    split
    · exact load_discRx hr hcur p
    · split
      · exact load_errorRx hr hcur p
      · exact load_readRx hr hcur p
    · split
      · exact load_errorRx hr hcur p
      · exact load_writeRx hr hcur p

/-- **A PDU of the device** takes no request away that is not answered. -/
theorem load_attRx (hr : r.expects = true) (p : Bytes) : (c.attRx p).load r = c.load r := by
  cases p with
  | nil => rfl
  | cons b rest =>
    show Conn.load (if b = Att.notify then _ else _) r = _
    split
    · rfl
    split
    · exact load_congr rfl
    split
    · dsimp only
      split
      · exact load_congr rfl
      · exact load_congr rfl
    split
    · split
      · rfl
      · exact load_congr rfl
    split
    · exact load_congr rfl
    split
    · exact (load_startOp hr).trans (load_congr rfl)
    · exact load_answerRx hr _

theorem load_encrypted (hr : r.expects = true) : c.encrypted.load r = c.load r := by
  unfold Conn.encrypted
  dsimp only
  rw [load_startOp hr]
  split
  · exact load_congr rfl
  · exact load_congr rfl

theorem load_attTimeout (hr : r.expects = true) : c.attTimeout.load r = c.load r := by
  unfold Conn.attTimeout
  split
  · rfl
  · next o hcur =>
    refine (load_opFail hr ?_ _ _).trans (load_congr rfl)
    exact hcur

theorem load_connected (bonded : Bool) : (c.connected bonded).load r = c.load r := by
  unfold Conn.connected
  dsimp only
  split
  · exact load_congr rfl
  · exact load_congr rfl

/-- A request joins the queue. -/
theorem load_opQueue (hr : r.expects = true) :
    (c.opQueue o).load r = c.load r + List.count r [o.req] := by
  unfold Conn.opQueue
  rw [load_startOp hr]
  unfold Conn.load Conn.pending
  show _ + ((c.cur.toList ++ (c.ops ++ [o])).map Op.req).count r = _
  rw [← append_assoc, map_append, count_append, ← add_assoc]
  rfl

/-- A connection ends: the requests that are there are gone. -/
theorem load_freeConn (hgone : ∀ q ∈ c.pending, q.expects = false) (hr : r.expects = true) :
    c.freeConn.load r = c.load r := by
  have hnot : r ∉ c.pending := fun hmem => absurd ((hgone r hmem).symm.trans hr) (by simp)
  unfold Conn.load
  rw [count_eq_zero_of_not_mem hnot]
  rfl

/-! ### Who makes a request fail -/

/-- What is new and reports an error is none. -/
def Calm (c c' : Conn) : Prop := ∀ s ∈ c'.said, s.failed = true → s ∈ c.said

theorem calm_startOps {ops : List Op} : Calm c (Conn.startOps ops c) := by
  induction ops generalizing c with
  | nil => exact fun s hs _ => hs
  | cons o ops ih =>
    rw [Conn.startOps]
    split
    · dsimp only
      split
      · unfold Conn.sendRead
        split
        · exact fun s hs _ => hs
        · exact fun s hs _ => hs
      · split
        · intro s hs hf
          have hold := ih s hs hf
          exact hold
        · split
          · exact fun s hs _ => hs
          · exact fun s hs _ => hs
      · split
        · intro s hs hf
          rcases mem_append.mp (ih s hs hf) with hold | hnew
          · exact hold
          · rw [mem_singleton.mp hnew] at hf
            exact absurd hf (by simp [Said.failed])
        · exact fun s hs _ => hs
    · exact fun s hs _ => hs

theorem calm_startOp : Calm c c.startOp := by
  unfold Conn.startOp
  split
  · exact fun s hs _ => hs
  · exact calm_startOps

/-- **Only what is taken for an answer makes a request fail.** -/
theorem takes_of_failed {s : Said} (hs : s ∈ (c.attRx p).said) (hf : s.failed = true) :
    s ∈ c.said ∨ c.takes p = true := by
  cases p with
  | nil => exact .inl hs
  | cons b rest =>
    by_cases hb : b = Att.notify ∨ b = Att.indicate ∨ b = Att.mtuReq ∨ b % 2 = 0 ∧ b ≠ Att.confirm
    · -- no answer at all
      left
      unfold Conn.attRx at hs
      dsimp only at hs
      split at hs
      · exact hs
      split at hs
      · exact hs
      split at hs
      · split at hs
        · exact hs
        · exact hs
      split at hs
      · split at hs
        · exact hs
        · exact hs
      · tauto
    · push Not at hb
      obtain ⟨hnotify, hindicate, hreq, heven⟩ := hb
      unfold Conn.attRx at hs
      dsimp only at hs
      rw [if_neg hnotify, if_neg hindicate, if_neg hreq, if_neg (by tauto)] at hs
      split at hs
      · exact .inl hs
      split at hs
      · have hold := calm_startOp s hs hf
        exact .inl hold
      · unfold Conn.answerRx at hs
        split at hs
        · exact .inl hs
        · next o hcur =>
          -- it is an answer, so what is at work decides
          have htakes : c.takes (b :: rest) = o.kind.takes b := by
            have hours : (b :: rest ≠ [] && b ≠ Att.notify && b ≠ Att.indicate &&
                (b % 2 ≠ 0 || b = Att.confirm) : Bool) = true := by
              simp [hnotify, hindicate]
              tauto
            simp only [Conn.takes, hcur, byteAt, getD_cons_zero, hours, Bool.true_and]
          rw [htakes]
          split at hs
          · next hk =>
            rw [hk]
            exact .inr rfl
          · next hk =>
            split at hs
            · next herr =>
              rw [hk]
              exact .inr (by simp [OpKind.takes, show b = Att.error from herr])
            · unfold Conn.readRx at hs
              split at hs
              · exact .inl hs
              · next hread =>
                rw [hk]
                right
                simp only [OpKind.takes, Bool.or_eq_true, decide_eq_true_eq]
                have hb : byteAt (b :: rest) 0 = b := rfl
                rw [hb] at hread
                tauto
          · next hk =>
            split at hs
            · next herr =>
              rw [hk]
              exact .inr (by simp [OpKind.takes, show b = Att.error from herr])
            · unfold Conn.writeRx at hs
              have hb : byteAt (b :: rest) 0 = b := rfl
              rw [hb] at hs
              rw [hk]
              split at hs
              · next hprep => exact .inr (by simp [OpKind.takes, hprep])
              split at hs
              · exact .inl hs
              · next hwrite =>
                right
                simp only [OpKind.takes, Bool.or_eq_true, decide_eq_true_eq]
                tauto

end Gatt
end Hassmic.Ble
