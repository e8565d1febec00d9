import Hassmic.Ble.Proxy

/-!
# Discovering what a device has

A discovery asks for the services of a device, then for the characteristics of each service, then
for the descriptors of each characteristic, always up to the end of the range and again behind the
last handle that came.  What is found goes into the database of the connection at once, and a
database that is there counts as known: the next request for the services is answered with it.

A discovery that ends in an error leaves its database behind.  What is reported next is what was
found up to then, and nothing is asked for again.

## Main definitions

* `Exch`, `Covered` — an exchange of a discovery, and a range that was asked for to its end.
* `Complete` — a database of which every range was.
* `Link`, `Link.step` — one connection with the exchanges of its discovery, and what happens.

## Main results

* `conns_step` — every step of the proxy is steps of its connections.
-/

namespace Hassmic.Ble

open Function
namespace Gatt

/-! ### Ranges -/

/-- An exchange of a discovery: what was asked for (0 services, 1 characteristics of the service
`idx`, 2 descriptors of the characteristic `idx`), from where and up to where, and the answer. -/
structure Exch where
  phase : ℕ
  idx : ℕ
  lo : ℕ
  hi : ℕ
  answer : Bytes
  deriving DecidableEq

namespace Exch

variable (x : Exch)

/-- The request. -/
def pdu : Bytes :=
  match x.phase with
  | 0 => Att.readGroupReq :: (put16 x.lo ++ put16 x.hi ++ put16 0x2800)
  | 1 => Att.readTypeReq :: (put16 x.lo ++ put16 x.hi ++ put16 0x2803)
  | _ => Att.findInfoReq :: (put16 x.lo ++ put16 x.hi)

/-- The last handle of the answer. -/
def last : ℕ :=
  match x.phase with
  | 0 => lastOf (entries (byteAt x.answer 1).toNat x.answer) 2
  | 1 => lastOf (entries (byteAt x.answer 1).toNat x.answer) 0
  | _ => lastOf (entries (dscLen x.answer) x.answer) 0

/-- Nothing more is there: the device says so, or names nothing that was asked for. -/
def ends : Prop := byteAt x.answer 0 = Att.error ∨ x.last < x.lo

end Exch

/-- **A range that was asked for to its end**: nothing of it is left, or an answer said that nothing
is, or an answer came up to some handle and the range behind that one was. -/
inductive Covered (log : List Exch) (phase idx hi : ℕ) : ℕ → Prop
  | past {lo : ℕ} (h : hi < lo) : Covered log phase idx hi lo
  | none {lo : ℕ} {p : Bytes} (hx : ⟨phase, idx, lo, hi, p⟩ ∈ log)
      (h : Exch.ends ⟨phase, idx, lo, hi, p⟩) : Covered log phase idx hi lo
  | more {lo : ℕ} {p : Bytes} (hx : ⟨phase, idx, lo, hi, p⟩ ∈ log)
      (h : Covered log phase idx hi (Exch.last ⟨phase, idx, lo, hi, p⟩ + 1)) :
      Covered log phase idx hi lo

namespace Db

variable (d : Db)

/-- The first handle of a range. -/
def lo : ℕ → ℕ → ℕ
  | 0, _ => 1
  | 1, i => (d.svc[i]?.map Svc.start).getD 0
  | _, i => (d.chr[i]?.map Chr.handle).getD 0 + 1

/-- Its last one. -/
def hi : ℕ → ℕ → ℕ
  | 0, _ => 0xffff
  | 1, i => Conn.svcEnd { db := some d } i
  | _, i => Conn.chrEnd { db := some d } i

end Db

/-- **A database that was completely discovered.** -/
structure Complete (log : List Exch) (d : Db) : Prop where
  services : Covered log 0 0 (d.hi 0 0) (d.lo 0 0)
  characteristics : ∀ i < d.svc.length, Covered log 1 i (d.hi 1 i) (d.lo 1 i)
  descriptors : ∀ i < d.chr.length, Covered log 2 i (d.hi 2 i) (d.lo 2 i)

/-! ### One connection -/

namespace Conn

variable (c : Conn)

/-- The exchange that an answer ends. -/
def exch (p : Bytes) : Exch := ⟨c.phase, c.idx, c.next, c.database.hi c.phase c.idx, p⟩

/-- A PDU is taken for an answer to a request of the discovery. -/
def heard (p : Bytes) : Bool :=
  c.takes p && c.state ≠ .mtu && c.cur.any fun o => o.kind = .discover

/-- The discovery goes on with it. -/
def accepts (p : Bytes) : Bool :=
  if byteAt p 0 = Att.error then 5 ≤ p.length && byteAt p 4 = Att.notFound
  else
    c.phase = 0 && byteAt p 0 = Att.readGroupRsp && 2 ≤ p.length && 6 ≤ byteAt p 1 ||
    c.phase = 1 && byteAt p 0 = Att.readTypeRsp && 2 ≤ p.length && 7 ≤ byteAt p 1 ||
    c.phase = 2 && byteAt p 0 = Att.findInfoRsp && 2 ≤ p.length

end Conn

/-- What is reported, with the exchanges of the discovery and what was sent on the link up to
then. -/
structure Report where
  db : Db
  log : List Exch
  sent : List Bytes

/-- A connection, and what is kept for the statements only: the exchanges of the discovery since the
last one that ended in an error, whether one did by an answer of the device, and what was
reported. -/
structure Link where
  conn : Conn := {}
  log : List Exch := []
  broken : Bool := false
  reports : List Report := []

/-- What happens to a connection. -/
inductive LinkEv
  | begins (addr : ℕ)
  | connecting
  | cancel
  | connected (bonded : Bool)
  | queue (o : Op)
  | att (p : Bytes)
  | mtuTimeout
  | attTimeout
  | encrypting
  | encrypted
  | close
  | closing
  | free

/-- What it does. -/
def Conn.moves (c : Conn) : LinkEv → Conn
  | .begins addr => if c.state = .free then { c with state := .wait, addr := addr } else c
  | .connecting => if c.state = .wait then { c with state := .connecting } else c
  | .cancel => if c.state = .connecting then { c with cancel := true } else c
  | .connected bonded => if c.state = .connecting then c.connected bonded else c
  | .queue o => if c.state = .up then c.opQueue o else c
  | .att p => if c.state.linked then (c.answered p).attRx p else c
  | .mtuTimeout => if c.state = .mtu then c.mtuTimeout else c
  | .attTimeout => if c.state = .up then c.attTimeout else c
  | .encrypting => if c.state.linked then { c with encPending := true } else c
  | .encrypted => if c.state.linked then c.encrypted else c
  | .close => if c.state.linked then { c with closeNow := true } else c
  | .closing =>
      if c.closeNow && c.state.linked && c.state ≠ .closing then
        { c with closeNow := false, state := .closing }
      else c
  | .free => c.freeConn

namespace Link

variable (s : Link)

/-- The exchanges since the last discovery that ended in an error. -/
def logAfter : LinkEv → List Exch
  | .att p =>
      if s.conn.state.linked && s.conn.heard p then
        if s.conn.accepts p then s.log ++ [s.conn.exch p] else []
      else s.log
  | .attTimeout =>
      if s.conn.state = .up ∧ (s.conn.cur.any fun o => o.kind = .discover) then [] else s.log
  | .free => []
  | _ => s.log

/-- Whether a discovery was failed by an answer. -/
def brokenAfter : LinkEv → Bool
  | .att p => s.broken || (s.conn.state.linked && s.conn.heard p && !s.conn.accepts p)
  | .free => false
  | _ => s.broken

/-- The databases that an answer reports. -/
def reported (x : Said) : Option Db :=
  match x.reply with
  | .services _ d => some d
  | _ => none

/-- One step. -/
def step (e : LinkEv) : Link where
  conn := s.conn.moves e
  log := s.logAfter e
  broken := s.brokenAfter e
  reports := s.reports ++
    (((s.conn.moves e).said.drop s.conn.said.length).filterMap reported).map
      fun d => ⟨d, s.logAfter e, (s.conn.moves e).sent⟩

/-- A run. -/
def run (l : List LinkEv) : Link := l.foldl step {}

/-- Every database that was reported was completely discovered, by requests that were sent. -/
def Sound : Prop := ∀ r ∈ s.reports, Complete r.log r.db ∧ ∀ x ∈ r.log, x.pdu ∈ r.sent

/-- The services are not asked for behind a discovery that an answer failed, nor do they wait when
one does. -/
def Spared : LinkEv → Prop
  | .att p =>
      s.conn.state.linked = true → s.conn.heard p = true → s.conn.accepts p = false →
        ∀ o ∈ s.conn.ops, o.kind ≠ .discover
  | .queue o => s.broken = true → o.kind ≠ .discover
  | _ => True

end Link

/-! ### The connections of the proxy -/

section proxy

variable {w : Proxy} {i j : Place} {e : Ev}

/-- A place changes as a connection does, or not at all. -/
theorem conns_set {e : LinkEv} {c : Conn} (hc : c = (w.conns i).moves e) (j : Place) :
    ∃ l : List LinkEv, (w.set i c).conns j = l.foldl Conn.moves (w.conns j) := by
  by_cases hj : j = i
  · subst hj
    refine ⟨[e], ?_⟩
    change update w.conns j c j = (w.conns j).moves e
    rw [update_self, hc]
  · refine ⟨[], ?_⟩
    change update w.conns i c j = w.conns j
    rw [update_of_ne hj]

/-- A step that a connection takes where the condition holds. -/
theorem conns_if {p : Prop} [Decidable p] {e : LinkEv} {c : Conn}
    (hc : p → c = (w.conns i).moves e) (j : Place) :
    ∃ l : List LinkEv, (if p then w.set i c else w).conns j = l.foldl Conn.moves (w.conns j) := by
  split
  case isTrue hp => exact conns_set (hc hp) j
  case isFalse => exact ⟨[], rfl⟩

/-- Handling a request, by connection. -/
theorem conns_handleRequest (r : Req) (j : Place) :
    ∃ l : List LinkEv, (w.handleRequest r).conns j = l.foldl Conn.moves (w.conns j) := by
  have hstay : ∃ l : List LinkEv, w.conns j = l.foldl Conn.moves (w.conns j) := ⟨[], rfl⟩
  unfold Proxy.handleRequest
  split
  case h_1 k hk =>
    unfold Proxy.submit
    split
    · exact hstay
    · split
      case isTrue hup => exact conns_set (e := .queue ⟨r, k, hk⟩) (by rw [Conn.moves, if_pos hup]) j
      case isFalse => exact hstay
  case h_2 =>
    split
    · split
      · exact hstay
      case h_2 i hi =>
        have hfree := state_of_inState hi
        exact conns_set (e := .begins r.addr) (by rw [Conn.moves, if_pos hfree]) j
    case h_2 i hask hi =>
      split
      case h_1 hs => exact conns_set (e := .free) rfl j
      case h_2 hs => exact conns_set (e := .cancel) (by rw [Conn.moves, if_pos hs]) j
      case h_3 hs =>
        have hl : (w.conns i).state.linked = true := by rw [hs]; rfl
        exact conns_set (e := .close) (by rw [Conn.moves, if_pos hl]) j
      case h_4 hs =>
        have hl : (w.conns i).state.linked = true := by rw [hs]; rfl
        exact conns_set (e := .close) (by rw [Conn.moves, if_pos hl]) j
      case h_5 => exact hstay
      case h_6 => exact hstay
    · split
      case isTrue hl => exact conns_set (e := .close) (by rw [Conn.moves, if_pos hl]) j
      case isFalse => exact hstay
    · exact hstay

/-- **Every step of the proxy is steps of its connections.** -/
theorem conns_step (e : Ev) (j : Place) :
    ∃ l : List LinkEv, (w.step e).conns j = l.foldl Conn.moves (w.conns j) := by
  have hstay : ∃ l : List LinkEv, w.conns j = l.foldl Conn.moves (w.conns j) := ⟨[], rfl⟩
  have hfree : ∃ l : List LinkEv, (w.conns j).freeConn =
    l.foldl Conn.moves (w.conns j) := ⟨[.free], rfl⟩
  cases e with
  | ask addr a => exact hstay
  | take =>
    simp only [Proxy.step]
    split <;> exact hstay
  | handle stops =>
    simp only [Proxy.step]
    split
    · exact hstay
    · split
      · exact hfree
      · exact conns_handleRequest _ j
  | connectNext refused =>
    simp only [Proxy.step]
    split
    case h_1 i hi hno =>
      split
      · exact conns_set (e := .free) rfl j
      · have hs := state_of_inState hi
        exact conns_set (e := .connecting) (by rw [Conn.moves, if_pos hs]) j
    case h_2 => exact hstay
  | connected bonded =>
    simp only [Proxy.step]
    split
    · exact hstay
    case h_2 i hi =>
      have hs := state_of_inState hi
      exact conns_set (e := .connected bonded) (by rw [Conn.moves, if_pos hs]) j
  | failed =>
    simp only [Proxy.step]
    split
    · exact hstay
    · exact conns_set (e := .free) rfl j
  | giveUp i => exact conns_if (e := .cancel) (fun hp => by rw [Conn.moves, if_pos hp]) j
  | disconnected i => exact conns_if (e := .free) (fun _ => rfl) j
  | encrypting i => exact conns_if (e := .encrypting) (fun hp => by rw [Conn.moves, if_pos hp]) j
  | encrypted i => exact conns_if (e := .encrypted) (fun hp => by rw [Conn.moves, if_pos hp]) j
  | att i p => exact conns_if (e := .att p) (fun hp => by rw [Conn.moves, if_pos hp]) j
  | mtuTimeout i => exact conns_if (e := .mtuTimeout) (fun hp => by rw [Conn.moves, if_pos hp]) j
  | attTimeout i => exact conns_if (e := .attTimeout) (fun hp => by rw [Conn.moves, if_pos hp]) j
  | closing i => exact conns_if (e := .closing) (fun hp => by rw [Conn.moves, if_pos hp]) j
  | forget i => exact conns_if (e := .free) (fun _ => rfl) j
  | lost => exact hfree

end proxy

end Gatt
end Hassmic.Ble
