import Hassmic.Ble.Answered
import Hassmic.Lib.Slots

/-!
# The requests of the Bluetooth proxy

Requests of the API threads wait in one queue.  The controller thread takes them all and handles one
after the other; between any two of its steps the device, the controller and the clocks do what they
do.  A request for a device that is not connected fails at once; the others join the queue of the
connection, which answers them.

What takes a request away unanswered is the end of its connection, and a controller that stops
answering while a batch is handled: `Spared` says that none is lost so, that what is taken for an
answer is one, and that the MTU exchange is not given up while it is on the air.

## Main definitions

* `Proxy`, `Ev`, `Proxy.step` — the connections and the queues, and what happens.
* `Spared` — the steps in which requests are not lost and answers are not mistaken.
* `Kept` — what holds between any two steps.

## Main results

* `kept_step` — each such step keeps it.
* `requests_answered` — every run of them: one request on the air, and each request answered once.
* `requests_lost` — a request that is lost, an error for another request, and two on the air.
-/

namespace Hassmic.Ble
namespace Gatt

open List Function
open scoped Slots

abbrev Place := Fin bleMaxConn

/-- The longest value that is written. -/
abbrev maxWrite : ℕ := 512

/-- `ble_write` cuts what is too long. -/
def Ask.cut : Ask → Ask
  | .write h d b => .write h (d.take maxWrite) b
  | a => a

/-- The connections, the requests that wait and those of the batch that is handled.  `asked`: all
that were ever made, which is not in the code. -/
structure Proxy where
  conns : Place → Conn
  queue : List Req
  batch : List Req
  /-- What was said of devices that are not connected. -/
  refused : List Said
  asked : List Req

/-- What happens. -/
inductive Ev
  /-- A thread makes a request; the controller thread takes all that are there, and handles the
  next.  `stops`: the controller does not answer the command that is sent. -/
  | ask (addr : ℕ) (a : Ask)
  | take
  | handle (stops : Bool)
  /-- `connect_next`, LE Connection Complete, and an attempt that takes too long. -/
  | connectNext (refused : Bool)
  | connected (bonded : Bool)
  | failed
  | giveUp (i : Place)
  /-- Disconnection Complete. -/
  | disconnected (i : Place)
  /-- The link is to be encrypted, and it is or is not. -/
  | encrypting (i : Place)
  | encrypted (i : Place)
  /-- A PDU of the device. -/
  | att (i : Place) (p : Bytes)
  /-- `upkeep`. -/
  | mtuTimeout (i : Place)
  | attTimeout (i : Place)
  | closing (i : Place)
  | forget (i : Place)
  /-- The controller is lost. -/
  | lost

namespace Proxy

variable (w : Proxy)

/-- `by_addr`. -/
def byAddr (a : ℕ) : Option Place :=
  (List.finRange bleMaxConn).find? fun i => (w.conns i).state ≠ .free && (w.conns i).addr = a

/-- `in_state`. -/
def inState (s : CState) : Option Place :=
  (List.finRange bleMaxConn).find? fun i => (w.conns i).state = s

/-- A connection changes. -/
def set (i : Place) (c : Conn) : Proxy := { w with conns := update w.conns i c }

/-- `drop_all`. -/
def dropAll : Proxy := { w with conns := fun i => (w.conns i).freeConn }

/-- The request is for a device that is not connected. -/
def refuse (r : Req) : Proxy :=
  { w with refused := w.refused ++ [⟨r, .error r.addr r.handle gattFailed⟩] }

/-- A request for a connection that is up joins its queue. -/
def submit (r : Req) (k : OpKind) (hk : r.ask.op = some k) : Proxy :=
  match w.byAddr r.addr with
  | none => w.refuse r
  | some i =>
      if (w.conns i).state = .up then w.set i ((w.conns i).opQueue ⟨r, k, hk⟩) else w.refuse r

/-- `handle_request`; pairing is not modelled, and encryption comes as an event. -/
def handleRequest (r : Req) : Proxy :=
  match hk : r.ask.op with
  | some k => w.submit r k hk
  | none =>
      match r.ask, w.byAddr r.addr with
      | .connect, none =>
          match w.inState .free with
          | none => w
          | some i => w.set i { w.conns i with state := .wait, addr := r.addr }
      | .disconnect, some i =>
          match (w.conns i).state with
          | .wait => w.set i (w.conns i).freeConn
          | .connecting => w.set i { w.conns i with cancel := true }
          | .mtu | .up => w.set i { w.conns i with closeNow := true }
          | .free | .closing => w
      | .unpair, some i =>
          if (w.conns i).state.linked then w.set i { w.conns i with closeNow := true } else w
      | _, _ => w

/-- The request makes the thread call an attempt off, for which it waits for the controller. -/
def cancels (r : Req) : Bool :=
  match r.ask, w.byAddr r.addr with
  | .disconnect, some i => (w.conns i).state = .connecting && !(w.conns i).cancel
  | _, _ => false

/-- One step. -/
def step : Ev → Proxy
  | .ask addr a =>
      let r : Req := ⟨w.asked.length, addr, a.cut⟩
      { w with queue := w.queue ++ [r], asked := w.asked ++ [r] }
  | .take => if w.batch = [] then { w with batch := w.queue, queue := [] } else w
  | .handle stops =>
      match w.batch with
      | [] => w
      | r :: rest =>
          -- the controller stopped answering: the rest of the batch is thrown away
          if stops && w.cancels r then { w with batch := [] }.dropAll
          else { w with batch := rest }.handleRequest r
  | .connectNext refused =>
      match w.inState .wait, w.inState .connecting with
      | some i, none =>
          if refused then w.set i (w.conns i).freeConn
          else w.set i { w.conns i with state := .connecting }
      | _, _ => w
  | .connected bonded =>
      match w.inState .connecting with
      | none => w
      | some i => w.set i ((w.conns i).connected bonded)
  | .failed =>
      match w.inState .connecting with
      | none => w
      | some i => w.set i (w.conns i).freeConn
  | .giveUp i =>
      if (w.conns i).state = .connecting then w.set i { w.conns i with cancel := true } else w
  | .disconnected i => if (w.conns i).state.linked then w.set i (w.conns i).freeConn else w
  | .encrypting i =>
      if (w.conns i).state.linked then w.set i { w.conns i with encPending := true } else w
  | .encrypted i => if (w.conns i).state.linked then w.set i (w.conns i).encrypted else w
  | .att i p =>
      if (w.conns i).state.linked then w.set i (((w.conns i).answered p).attRx p) else w
  | .mtuTimeout i => if (w.conns i).state = .mtu then w.set i (w.conns i).mtuTimeout else w
  | .attTimeout i => if (w.conns i).state = .up then w.set i (w.conns i).attTimeout else w
  | .closing i =>
      if (w.conns i).closeNow && (w.conns i).state.linked && (w.conns i).state ≠ .closing then
        w.set i { w.conns i with closeNow := false, state := .closing }
      else w
  | .forget i => if (w.conns i).state = .closing then w.set i (w.conns i).freeConn else w
  | .lost => w.dropAll

/-- Nothing is connected, and nothing was asked for. -/
def start : Proxy where
  conns _ := {}
  queue := []
  batch := []
  refused := []
  asked := []

/-- After a run. -/
def after (l : List Ev) : Proxy := l.foldl step w

/-- The answers that a request has had. -/
def answers (r : Req) : ℕ :=
  (w.refused.map Said.req).count r + ∑ i, ((w.conns i).said.map Said.req).count r

/-- The places where a request waits. -/
def waiting (r : Req) : ℕ :=
  w.queue.count r + w.batch.count r + ∑ i, (w.conns i).pending.count r

/-- No request of a connection expects an answer. -/
def quiet (i : Place) : Prop := ∀ q ∈ (w.conns i).pending, q.expects = false

end Proxy

/-- No request that expects an answer is lost with its connection or its batch, what is taken for an
answer answers what is on the air, and the MTU exchange is not given up while it is on the air. -/
def Spared (w : Proxy) : Ev → Prop
  | .att i p => (w.conns i).takes p = true → ∀ b ∈ (w.conns i).air, Att.answers p b = true
  | .mtuTimeout i => (w.conns i).state = .mtu → (w.conns i).air = []
  | .disconnected i => (w.conns i).state.linked = true → w.quiet i
  | .forget i => (w.conns i).state = .closing → w.quiet i
  | .lost => ∀ i, w.quiet i
  | .handle true => ∀ r rest, w.batch = r :: rest → w.cancels r = true →
      (∀ q ∈ rest, q.expects = false) ∧ ∀ i, w.quiet i
  | _ => True

/-! ### What holds between any two steps -/

/-- The connections are good, every answer fits, and each request that expects an answer has had it
or waits. -/
structure Kept (w : Proxy) : Prop where
  good : ∀ i, Good (w.conns i)
  fits : ∀ s ∈ w.refused, s.Fits
  count : ∀ {r : Req}, r.expects = true → w.answers r + w.waiting r = w.asked.count r
  ids : ∀ r ∈ w.asked, r.id < w.asked.length
  nodup : w.asked.Nodup

variable {w : Proxy} {i : Place} {c : Conn} {r : Req}

/-- The account of a request, by connection. -/
theorem account_eq : w.answers r + w.waiting r =
    (w.refused.map Said.req).count r + (w.queue.count r + w.batch.count r) +
      ∑ i, (w.conns i).load r := by
  unfold Proxy.answers Proxy.waiting Conn.load
  rw [Finset.sum_add_distrib]
  omega

theorem sum_load_set : (∑ j, ((w.set i c).conns j).load r) + (w.conns i).load r
    = (∑ j, (w.conns j).load r) + c.load r :=
  Slots.sum_update w.conns (fun c => c.load r) i c

theorem good_set (hk : ∀ j, Good (w.conns j)) (hc : Good c) (j : Place) :
    Good ((w.set i c).conns j) := by
  by_cases hji : j = i
  · subst hji
    show Good (update w.conns j c j)
    rw [update_self]
    exact hc
  · show Good (update w.conns i c j)
    rw [update_of_ne hji]
    exact hk j

/-- A connection changes, and keeps its requests. -/
theorem Kept.set (hk : Kept w) (hc : Good c)
    (hload : ∀ {r : Req}, r.expects = true → c.load r = (w.conns i).load r) :
    Kept (w.set i c) := by
  refine ⟨good_set hk.good hc, hk.fits, fun {r} hr => ?_, hk.ids, hk.nodup⟩
  have hsum := sum_load_set (w := w) (i := i) (c := c) (r := r)
  have hcount := hk.count hr
  rw [account_eq] at hcount ⊢
  rw [hload hr] at hsum
  show _ + (w.queue.count r + w.batch.count r) + _ = w.asked.count r
  have hsame : ((w.set i c).refused.map Said.req).count r = (w.refused.map Said.req).count r := rfl
  omega

/-- A connection ends of which no request expects an answer. -/
theorem Kept.free (hk : Kept w) (hquiet : w.quiet i) : Kept (w.set i (w.conns i).freeConn) :=
  hk.set (good_freeConn (hk.good i)) fun hr => load_freeConn hquiet hr

/-- A connection without a link has no requests. -/
theorem Kept.quiet_unlinked (hk : Kept w) (hl : (w.conns i).state.linked = false) : w.quiet i := by
  have hcur := (hk.good i).cur_unlinked hl
  obtain ⟨-, hops, -⟩ := (hk.good i).unlinked hl
  intro q hq
  unfold Conn.pending at hq
  rw [hcur, hops] at hq
  exact absurd hq (by simp)

theorem Kept.dropAll (hk : Kept w) (hquiet : ∀ i, w.quiet i) : Kept w.dropAll := by
  refine ⟨fun i => good_freeConn (hk.good i), hk.fits, fun {r} hr => ?_, hk.ids, hk.nodup⟩
  have hcount := hk.count hr
  rw [account_eq] at hcount ⊢
  have hsum : ∑ i, (w.dropAll.conns i).load r = ∑ i, (w.conns i).load r :=
    Finset.sum_congr rfl fun i _ => load_freeConn (hquiet i) hr
  rw [hsum]
  exact hcount

/-- The requests that wait are others, but just as many of those that expect an answer. -/
theorem Kept.queues (hk : Kept w) {queue batch : List Req}
    (hcount : ∀ {r : Req}, r.expects = true →
      queue.count r + batch.count r = w.queue.count r + w.batch.count r) :
    Kept { w with queue := queue, batch := batch } := by
  refine ⟨hk.good, hk.fits, fun {r} hr => ?_, hk.ids, hk.nodup⟩
  have hold := hk.count hr
  rw [account_eq] at hold ⊢
  have hsame := hcount hr
  show (w.refused.map Said.req).count r + (queue.count r + batch.count r)
    + ∑ i, (w.conns i).load r = w.asked.count r
  omega

/-! ### Handling a request -/

/-- What the thread has taken is answered at once, joins the queue of a connection, or expects no
answer. -/
structure Held (w : Proxy) (r : Req) : Prop where
  good : ∀ i, Good (w.conns i)
  fits : ∀ s ∈ w.refused, s.Fits
  count : ∀ {q : Req}, q.expects = true →
    w.answers q + w.waiting q + List.count q [r] = w.asked.count q
  ids : ∀ r ∈ w.asked, r.id < w.asked.length
  nodup : w.asked.Nodup

theorem Held.refuse (hk : Held w r) : Kept (w.refuse r) := by
  refine ⟨hk.good, fun s hs => ?_, fun {q} hq => ?_, hk.ids, hk.nodup⟩
  · rcases mem_append.mp hs with hold | hnew
    · exact hk.fits s hold
    · rw [mem_singleton.mp hnew]
      exact ⟨rfl, rfl⟩
  · have hcount := hk.count hq
    rw [account_eq] at hcount ⊢
    show ((w.refused ++ [(⟨r, _⟩ : Said)]).map Said.req).count q +
      (w.queue.count q + w.batch.count q)
      + ∑ i, (w.conns i).load q = w.asked.count q
    rw [map_append, count_append]
    show _ + List.count q [r] + _ + _ = _
    omega

theorem state_of_inState {s : CState} (hi : w.inState s = some i) : (w.conns i).state = s := by
  have hfound := find?_some hi
  simpa using hfound

theorem addr_of_byAddr {a : ℕ} (hi : w.byAddr a = some i) : (w.conns i).addr = a := by
  have hfound := find?_some hi
  simp only [Bool.and_eq_true, decide_eq_true_eq] at hfound
  exact hfound.2

theorem Held.submit (hk : Held w r) (k : OpKind) (hop : r.ask.op = some k) :
    Kept (w.submit r k hop) := by
  unfold Proxy.submit
  split
  · exact hk.refuse
  · next i hi =>
    split
    · next hup =>
      refine ⟨good_set hk.good (good_opQueue (hk.good i) hup (addr_of_byAddr hi).symm), hk.fits,
        fun {q} hq => ?_, hk.ids, hk.nodup⟩
      have hcount := hk.count hq
      have hload := load_opQueue (c := w.conns i) (o := ⟨r, k, hop⟩) hq
      have hsum := sum_load_set (w := w) (i := i) (c := (w.conns i).opQueue ⟨r, k, hop⟩) (r := q)
      rw [hload] at hsum
      rw [account_eq] at hcount ⊢
      show (w.refused.map Said.req).count q + (w.queue.count q + w.batch.count q) +
        _ = w.asked.count q
      have hreq : List.count q [(⟨r, k, hop⟩ : Op).req] = List.count q [r] := rfl
      omega
    · exact hk.refuse

/-- What is no operation expects no answer. -/
theorem expects_of_op_none (hop : r.ask.op = none) : r.expects = false := by
  unfold Req.expects
  cases hask : r.ask with
  | services | read h | write h d b =>
    rw [hask] at hop
    exact absurd hop (by simp [Ask.op])
  | connect | disconnect | pair | unpair => rfl

theorem Held.kept (hk : Held w r) (hr : r.expects = false) : Kept w := by
  refine ⟨hk.good, hk.fits, fun {q} hq => ?_, hk.ids, hk.nodup⟩
  have hcount := hk.count hq
  have hne : r ≠ q := by
    rintro rfl
    exact absurd (hr.symm.trans hq) (by simp)
  rw [count_cons_of_ne hne, count_nil] at hcount
  exact hcount

/-- **A request is handled.** -/
theorem Held.handleRequest (hk : Held w r) : Kept (w.handleRequest r) := by
  unfold Proxy.handleRequest
  split
  · next k hop => exact hk.submit k hop
  · next hop =>
    have hkept := hk.kept (expects_of_op_none hop)
    split
    · split
      · exact hkept
      · next i hi =>
        have hfree : (w.conns i).state.linked = false := by rw [state_of_inState hi]; rfl
        exact hkept.set ((hkept.good i).unlink hfree rfl rfl rfl rfl rfl rfl rfl)
          fun _ => load_congr rfl
    · next i _ _ =>
      split
      · next hwait => exact hkept.free (hkept.quiet_unlinked (by rw [hwait]; rfl))
      · exact hkept.set ((hkept.good i).of_eq rfl rfl rfl rfl rfl rfl rfl rfl rfl)
          fun _ => load_congr rfl
      · next hmtu =>
        exact hkept.set (good_closeNow (hkept.good i) (by rw [hmtu]; rfl))
          fun _ => load_congr rfl
      · next hup =>
        exact hkept.set (good_closeNow (hkept.good i) (by rw [hup]; rfl))
          fun _ => load_congr rfl
      · exact hkept
      · exact hkept
    · next i _ _ =>
      split
      · next hl =>
        exact hkept.set (good_closeNow (hkept.good i) hl) fun _ => load_congr rfl
      · exact hkept
    · exact hkept

/-! ### Each step -/

/-- A new request has a number of its own. -/
theorem kept_ask (hk : Kept w) (addr : ℕ) (a : Ask) : Kept (w.step (.ask addr a)) := by
  have hfresh : (⟨w.asked.length, addr, a.cut⟩ : Req) ∉ w.asked := fun hmem =>
    absurd (hk.ids _ hmem) (lt_irrefl _)
  refine ⟨hk.good, hk.fits, fun {q} hq => ?_, fun q hq => ?_, ?_⟩
  · have hcount := hk.count hq
    rw [account_eq] at hcount ⊢
    show _ + ((w.queue ++ [_]).count q + w.batch.count q) + _ = (w.asked ++ [_]).count q
    rw [count_append, count_append, ← hcount]
    show _ + (_ + _ + _) + ∑ i, (w.conns i).load q = _
    have hsame : ((w.step (.ask addr a)).refused.map Said.req).count q
        = (w.refused.map Said.req).count q := rfl
    omega
  · show q.id < (w.asked ++ [_]).length
    rw [length_append, length_singleton]
    rcases mem_append.mp hq with hold | hnew
    · exact lt_trans (hk.ids q hold) (Nat.lt_succ_self _)
    · rw [mem_singleton.mp hnew]
      exact Nat.lt_succ_self _
  · show (w.asked ++ [_]).Nodup
    rw [nodup_append]
    refine ⟨hk.nodup, nodup_singleton _, ?_⟩
    rintro x hx y hy rfl
    rw [mem_singleton] at hy
    exact hfresh (hy ▸ hx)

/-- The next of the batch. -/
theorem kept_handle (hk : Kept w) {stops : Bool} (hspared : Spared w (.handle stops)) :
    Kept (w.step (.handle stops)) := by
  show Kept (match w.batch with
    | [] => _
    | r :: rest => _)
  split
  · exact hk
  · next r rest hbatch =>
    split
    · next hstops =>
      simp only [Bool.and_eq_true] at hstops
      obtain ⟨rfl, hcancels⟩ := hstops
      obtain ⟨hrest, hquiet⟩ := hspared r rest hbatch hcancels
      refine Kept.dropAll ?_ hquiet
      -- neither the request itself nor the rest of the batch expects an answer
      have hr : r.expects = false := by
        unfold Proxy.cancels at hcancels
        split at hcancels
        · next hask _ =>
          unfold Req.expects
          rw [hask]
        · exact absurd hcancels (by simp)
      refine hk.queues fun {q} hq => ?_
      have hnot : q ∉ r :: rest := by
        intro hmem
        rcases mem_cons.mp hmem with rfl | hmem
        · exact absurd (hr.symm.trans hq) (by simp)
        · exact absurd ((hrest q hmem).symm.trans hq) (by simp)
      rw [hbatch, count_eq_zero_of_not_mem hnot, count_nil]
    · refine Held.handleRequest ⟨hk.good, hk.fits, fun {q} hq => ?_, hk.ids, hk.nodup⟩
      have hcount := hk.count hq
      rw [account_eq, hbatch, count_cons] at hcount
      rw [account_eq, count_cons, count_nil]
      show (w.refused.map Said.req).count q + (w.queue.count q + rest.count q)
        + ∑ i, (w.conns i).load q + _ = w.asked.count q
      omega

/-- **Each step keeps it**, where no request is lost and no answer is mistaken. -/
theorem kept_step (hk : Kept w) {e : Ev} (hspared : Spared w e) : Kept (w.step e) := by
  cases e with
  | ask addr a => exact kept_ask hk addr a
  | take =>
    show Kept (if w.batch = [] then _ else _)
    split
    · next hbatch =>
      refine hk.queues fun {q} hq => ?_
      rw [hbatch, count_nil]
      omega
    · exact hk
  | handle stops => exact kept_handle hk hspared
  | connectNext refused =>
    show Kept (match w.inState .wait, w.inState .connecting with
      | some i, none => _
      | _, _ => _)
    split
    · next i hi _ =>
      have hwait : (w.conns i).state.linked = false := by rw [state_of_inState hi]; rfl
      split
      · exact hk.free (hk.quiet_unlinked hwait)
      · exact hk.set ((hk.good i).unlink hwait rfl rfl rfl rfl rfl rfl rfl)
          fun _ => load_congr rfl
    · exact hk
  | connected bonded =>
    show Kept (match w.inState .connecting with
      | none => _
      | some i => _)
    split
    · exact hk
    · next i hi =>
      exact hk.set (good_connected (hk.good i) (state_of_inState hi) bonded)
        fun _ => load_connected bonded
  | failed =>
    show Kept (match w.inState .connecting with
      | none => _
      | some i => _)
    split
    · exact hk
    · next i hi => exact hk.free (hk.quiet_unlinked (by rw [state_of_inState hi]; rfl))
  | giveUp i =>
    show Kept (if (w.conns i).state = .connecting then _ else _)
    split
    · exact hk.set ((hk.good i).of_eq rfl rfl rfl rfl rfl rfl rfl rfl rfl)
        fun _ => load_congr rfl
    · exact hk
  | disconnected i =>
    show Kept (if (w.conns i).state.linked then _ else _)
    split
    · next hl => exact hk.free (hspared hl)
    · exact hk
  | encrypting i =>
    show Kept (if (w.conns i).state.linked then _ else _)
    split
    · next hl => exact hk.set (good_encrypting (hk.good i) hl) fun _ => load_congr rfl
    · exact hk
  | encrypted i =>
    show Kept (if (w.conns i).state.linked then _ else _)
    split
    · next hl => exact hk.set (good_encrypted (hk.good i) hl) fun hr => load_encrypted hr
    · exact hk
  | att i p =>
    show Kept (if (w.conns i).state.linked then _ else _)
    split
    · refine hk.set (good_attRx (hk.good i) hspared) fun hr => ?_
      exact (load_attRx hr p).trans (load_congr rfl)
    · exact hk
  | mtuTimeout i =>
    show Kept (if (w.conns i).state = .mtu then _ else _)
    split
    · next hm =>
      exact hk.set (good_mtuTimeout (hk.good i) hm (hspared hm)) fun hr => load_attRx hr _
    · exact hk
  | attTimeout i =>
    show Kept (if (w.conns i).state = .up then _ else _)
    split
    · exact hk.set (good_attTimeout (hk.good i)) fun hr => load_attTimeout hr
    · exact hk
  | closing i =>
    show Kept (if _ then _ else _)
    split
    · exact hk.set (good_closing (hk.good i)) fun _ => load_congr rfl
    · exact hk
  | forget i =>
    show Kept (if (w.conns i).state = .closing then _ else _)
    split
    · next hclosing => exact hk.free (hspared hclosing)
    · exact hk
  | lost => exact hk.dropAll hspared

theorem kept_start : Kept .start where
  good := fun _ => good_blank (fun s hs => absurd hs (by simp [Proxy.start]))
    rfl rfl rfl rfl rfl rfl
  fits := fun s hs => absurd hs (by simp [Proxy.start])
  count := fun _ => by simp [Proxy.answers, Proxy.waiting, Proxy.start, Conn.pending]
  ids := fun r hr => absurd hr (by simp [Proxy.start])
  nodup := nodup_nil

/-! ### Whole runs -/

/-- The request at work is answered at the latest when its time is over. -/
theorem answers_attTimeout {o : Op} (hcur : (w.conns i).cur = some o)
    (hup : (w.conns i).state = .up) : 1 ≤ (w.step (.attTimeout i)).answers o.req := by
  have hstep : w.step (.attTimeout i) = w.set i (w.conns i).attTimeout := if_pos hup
  -- the link is to be closed, so nothing is started behind it
  have hsaid : (w.conns i).attTimeout.said
      = (w.conns i).said ++ [⟨o.req, .error (w.conns i).addr o.req.handle gattFailed⟩] := by
    unfold Conn.attTimeout
    rw [hcur]
    show (Conn.startOps (w.conns i).ops _).said = _
    cases hops : (w.conns i).ops with
    | nil => rfl
    | cons o' ops =>
      rw [Conn.startOps, if_neg (by simp [Conn.starts, Conn.say])]
      rfl
  have hone : 1 ≤ ((w.conns i).attTimeout.said.map Said.req).count o.req := by
    rw [hsaid, map_append, count_append]
    simp
  have hsum : (((w.set i (w.conns i).attTimeout).conns i).said.map Said.req).count o.req
      ≤ ∑ j, (((w.set i (w.conns i).attTimeout).conns j).said.map Said.req).count o.req :=
    Finset.single_le_sum
      (f := fun j => (((w.set i (w.conns i).attTimeout).conns j).said.map Said.req).count o.req)
      (fun j _ => Nat.zero_le _) (Finset.mem_univ i)
  have hself : (w.set i (w.conns i).attTimeout).conns i = (w.conns i).attTimeout :=
    update_self ..
  rw [hself] at hsum
  rw [hstep]
  unfold Proxy.answers
  omega

/-- An error response that answers what is on the air names it. -/
theorem named_of_answers {p : Bytes} {b : UInt8} (hb : b ∈ Att.requests)
    (hp : p.head? = some Att.error) (ha : Att.answers p b = true) : p[1]? = some b := by
  have hne : Att.error ≠ b + 1 := by
    rintro heq
    revert hb
    rw [show b = 0 by simpa using heq.symm]
    decide
  unfold Att.answers at ha
  rw [hp] at ha
  simpa [hne] using ha

/-- **Every request is answered once, by its own answer.**  After every run in which no request that
expects an answer is lost with its connection or its batch, what is taken for an answer answers what
is on the air, and the MTU exchange is not given up while it is on the air: at most one request of a
connection is on the air; each request that expects an answer has had it or waits, and never both
nor twice; an answer is of the request's kind, for its address and handle; an error response makes a
request fail only if it names the request on the air; no request waits while nothing is at work on a
link that is up and may be used; and the request at work is answered at the latest when its time is
over. -/
theorem requests_answered (l : List Ev) (w : Proxy) (hl : Runs.Each Proxy.step Spared .start l)
    (hw : w = Proxy.start.after l) :
    (∀ i, (w.conns i).air.length ≤ 1) ∧
    (∀ r ∈ w.asked, r.expects = true → w.answers r + w.waiting r = 1) ∧
    (∀ s, s ∈ w.refused ∨ (∃ i, s ∈ (w.conns i).said) → s.Fits) ∧
    (∀ i p, Spared w (.att i p) → p.head? = some Att.error →
      ∀ s ∈ ((w.step (.att i p)).conns i).said, s.failed = true → s ∉ (w.conns i).said →
        ∃ b, (w.conns i).air = [b] ∧ p[1]? = some b) ∧
    (∀ i, (w.conns i).cur = none → (w.conns i).starts = true → (w.conns i).ops = []) ∧
    ∀ i o, (w.conns i).cur = some o → (w.conns i).state = .up →
      1 ≤ (w.step (.attTimeout i)).answers o.req := by
  have hk : Kept w := by
    rw [hw]
    exact Runs.invariant (I := Kept) (fun v e hv he => kept_step hv he) kept_start hl
  refine ⟨fun i => (hk.good i).one, fun r hr hexpects => ?_, ?_, ?_, fun i => (hk.good i).started,
    fun i o hcur hup => answers_attTimeout hcur hup⟩
  · rw [hk.count hexpects]
    exact count_eq_one_of_mem hk.nodup hr
  · rintro s (hs | ⟨i, hs⟩)
    · exact hk.fits s hs
    · exact (hk.good i).fits s hs
  · intro i p hspared herror s hs hf hnew
    have hl : (w.conns i).state.linked = true := by
      by_contra hno
      have hsame : w.step (.att i p) = w := if_neg hno
      rw [hsame] at hs
      exact hnew hs
    have hstep : (w.step (.att i p)).conns i = ((w.conns i).answered p).attRx p := by
      show (if (w.conns i).state.linked then _ else w : Proxy).conns i = _
      rw [if_pos hl]
      exact update_self ..
    rw [hstep] at hs
    -- it is new, so the PDU was taken for an answer to the request at work
    have htakes : (w.conns i).takes p = true := by
      rcases takes_of_failed hs hf with hold | htakes
      · exact absurd hold hnew
      · exact htakes
    cases hcur : (w.conns i).cur with
    | none => simp [Conn.takes, hcur] at htakes
    | some o =>
      obtain ⟨-, -, -, b, hair, hasks⟩ := (hk.good i).busy hcur
      have hanswers := hspared htakes b (by rw [hair]; exact mem_singleton_self b)
      exact ⟨b, hair, named_of_answers (OpKind.mem_requests hasks) herror hanswers⟩

/-- A device is connected, and a value of it is read. -/
def reading : List Ev :=
  [.ask 1 .connect, .take, .handle false, .connectNext false, .connected false,
    .att 0 [Att.mtuRsp, 23, 0], .ask 1 (.read 3), .take, .handle false]

/-- The request for the value. -/
def readOne : Req := ⟨1, 1, .read 3⟩

/-- The link ends, and the request is neither answered nor does it wait; an error response for
another request makes it fail; and an answer to another request ends a discovery, behind which the
next request is sent while the one of the discovery is still on the air. -/
theorem requests_lost :
    let w := Proxy.start.after reading
    let gone := w.step (.disconnected 0)
    let failed := w.step (.att 0 [Att.error, Att.writeReq, 3, 0, 1])
    let crossed := Proxy.start.after (reading.take 6 ++
      [.ask 1 .services, .ask 1 (.read 3), .take, .handle false, .handle false,
        .att 0 [Att.writeRsp]])
    readOne ∈ gone.asked ∧ readOne.expects = true ∧
    gone.answers readOne + gone.waiting readOne = 0 ∧
    (w.conns 0).air = [Att.readReq] ∧ (failed.conns 0).said = [⟨readOne, .error 1 3 1⟩] ∧
    (crossed.conns 0).air = [Att.readGroupReq, Att.readReq] := by
  intro w gone failed crossed
  decide

/-- The answer comes. -/
theorem requests_answered_reading :
    let w := Proxy.start.after (reading ++ [.att 0 [Att.readRsp, 7]])
    (w.conns 0).said = [⟨readOne, .read 1 3 [7]⟩] ∧ w.answers readOne + w.waiting readOne = 1 := by
  intro w
  have hl : Runs.Each Proxy.step Spared .start (reading ++ [.att 0 [Att.readRsp, 7]]) := by
    simp only [reading, cons_append, nil_append, Runs.Each, Spared]
    decide +kernel
  obtain ⟨-, hcount, -⟩ := requests_answered _ w hl rfl
  exact ⟨by decide, hcount readOne (by decide) rfl⟩

end Gatt
end Hassmic.Ble
