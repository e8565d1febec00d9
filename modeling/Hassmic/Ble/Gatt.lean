import Hassmic.Ble.Links

/-!
# The GATT client of a connection

Home Assistant asks for the services of a device, reads and writes.  Each connection has a queue of
such requests and at most one of them at work, `cur`, which takes one ATT request or many: a
discovery, a long read, a long write.  This module is what one connection does: which PDUs it sends,
what it makes of those it gets, and which answers it gives to the handler.

Requests carry a number, so that they can be told apart; what was sent, what is on the air and what
was said to the handler are kept beside the model.

## Main definitions

* `Req`, `Op`, `Reply` — a request, its place in a queue, and an answer.
* `Conn` — a connection, as far as GATT goes.
* `startOp`, `opDone`, `opFail` — the queue.
* `discNext`, `discRx` — discovery.
* `attRx` — a PDU of the device.
-/

namespace Hassmic.Ble
namespace Gatt

open Wire

/-! ### ATT -/

/-- `ATT_MTU`: what we offer. -/
abbrev attMtu : ℕ := 517

namespace Att

abbrev error : UInt8 := 0x01
abbrev mtuReq : UInt8 := 0x02
abbrev mtuRsp : UInt8 := 0x03
abbrev findInfoReq : UInt8 := 0x04
abbrev findInfoRsp : UInt8 := 0x05
abbrev findTypeReq : UInt8 := 0x06
abbrev readTypeReq : UInt8 := 0x08
abbrev readTypeRsp : UInt8 := 0x09
abbrev readReq : UInt8 := 0x0a
abbrev readRsp : UInt8 := 0x0b
abbrev readBlobReq : UInt8 := 0x0c
abbrev readBlobRsp : UInt8 := 0x0d
abbrev readGroupReq : UInt8 := 0x10
abbrev readGroupRsp : UInt8 := 0x11
abbrev writeReq : UInt8 := 0x12
abbrev writeRsp : UInt8 := 0x13
abbrev prepWriteReq : UInt8 := 0x16
abbrev prepWriteRsp : UInt8 := 0x17
abbrev execWriteReq : UInt8 := 0x18
abbrev execWriteRsp : UInt8 := 0x19
abbrev notify : UInt8 := 0x1b
abbrev indicate : UInt8 := 0x1d
abbrev confirm : UInt8 := 0x1e
abbrev writeCmd : UInt8 := 0x52

abbrev notSupported : UInt8 := 0x06
abbrev notFound : UInt8 := 0x0a
abbrev notLong : UInt8 := 0x0b

/-- The requests that we send. -/
def requests : List UInt8 :=
  [mtuReq, findInfoReq, readTypeReq, readReq, readBlobReq, readGroupReq, writeReq, prepWriteReq,
    execWriteReq]

/-- A PDU answers a request: it is the response to it, or an error that names it. -/
def answers (p : Bytes) (b : UInt8) : Bool :=
  p.head? = some (b + 1) || (p.head? = some error && p[1]? = some b)

end Att

/-- `GATT_E_FAILED`. -/
abbrev gattFailed : ℕ := 0x85

/-- A byte of a PDU. -/
def byteAt (p : Bytes) (i : ℕ) : UInt8 := p.getD i 0

/-- `u16`. -/
def u16 (p : Bytes) (i : ℕ) : ℕ := (byteAt p i).toNat + 256 * (byteAt p (i + 1)).toNat

/-- The code in an error response. -/
def errorOf (p : Bytes) : ℕ := if 5 ≤ p.length then (byteAt p 4).toNat else gattFailed

/-! ### Requests and answers -/

/-- What is asked of the controller thread. -/
inductive Ask
  | connect
  | disconnect
  | services
  | read (handle : ℕ)
  | write (handle : ℕ) (data : Bytes) (response : Bool)
  | pair
  | unpair
  deriving DecidableEq

/-- `K_DISCOVER`, `K_READ`, `K_WRITE`. -/
inductive OpKind
  | discover
  | read
  | write
  deriving DecidableEq

/-- The answers that are looked at while an operation is at work. -/
def OpKind.takes : OpKind → UInt8 → Bool
  | .discover, _ => true
  | .read, b => b = Att.error || b = Att.readRsp || b = Att.readBlobRsp
  | .write, b => b = Att.error || b = Att.prepWriteRsp || b = Att.writeRsp || b = Att.execWriteRsp

def Ask.op : Ask → Option OpKind
  | .services => some .discover
  | .read _ => some .read
  | .write .. => some .write
  | .connect | .disconnect | .pair | .unpair => none

/-- A request, and which one it is. -/
structure Req where
  id : ℕ
  addr : ℕ
  ask : Ask
  deriving DecidableEq

namespace Req

/-- Requests that name no handle have 0. -/
def handle (r : Req) : ℕ :=
  match r.ask with
  | .read h | .write h _ _ => h
  | _ => 0

def data (r : Req) : Bytes :=
  match r.ask with
  | .write _ d _ => d
  | _ => []

def response (r : Req) : Bool :=
  match r.ask with
  | .write _ _ b => b
  | _ => false

/-- An answer through the handler is due. -/
def expects (r : Req) : Bool :=
  match r.ask with
  | .services | .read _ => true
  | .write _ _ b => b
  | _ => false

end Req

/-- A request in the queue of a connection. -/
structure Op where
  req : Req
  kind : OpKind
  isOp : req.ask.op = some kind

/-- What devices have; UUIDs as two halves. -/
structure Svc where
  uuid : UInt64 × UInt64
  start : ℕ
  last : ℕ
  first : ℕ := 0
  n : ℕ := 0
  deriving DecidableEq

structure Chr where
  uuid : UInt64 × UInt64
  decl : ℕ
  handle : ℕ
  props : UInt8
  svc : ℕ
  first : ℕ := 0
  n : ℕ := 0
  deriving DecidableEq

structure Dsc where
  uuid : UInt64 × UInt64
  handle : ℕ
  deriving DecidableEq

/-- `struct ble_db`. -/
structure Db where
  svc : List Svc := []
  chr : List Chr := []
  dsc : List Dsc := []
  deriving DecidableEq

abbrev maxSvc : ℕ := 48
abbrev maxChr : ℕ := 192
abbrev maxDsc : ℕ := 256

/-- What the handler is told. -/
inductive Reply
  | services (addr : ℕ) (db : Db)
  | read (addr handle : ℕ) (val : Bytes)
  | written (addr handle : ℕ)
  | error (addr handle err : ℕ)
  deriving DecidableEq

/-- An answer, and what it is the answer to. -/
structure Said where
  req : Req
  reply : Reply
  deriving DecidableEq

/-- The answer is of the request's kind, for its address and its handle. -/
def Said.Fits (s : Said) : Prop :=
  match s.reply with
  | .services a _ => s.req.ask = .services ∧ a = s.req.addr
  | .read a h _ => s.req.ask = .read h ∧ a = s.req.addr
  | .written a h => (∃ d b, s.req.ask = .write h d b) ∧ a = s.req.addr
  | .error a h _ => a = s.req.addr ∧ h = s.req.handle

/-- It reports an error. -/
def Said.failed (s : Said) : Bool :=
  match s.reply with
  | .error .. => true
  | _ => false

/-! ### A connection -/

/-- A connection; a free place is all zero.  What comes last is not in the code: what was sent on
the link, the requests that are on the air, and what was said to the handler of this place. -/
structure Conn where
  state : CState := .free
  addr : ℕ := 0
  /-- Asked to go away while it came up, or timed out. -/
  cancel : Bool := false
  closeNow : Bool := false
  mtu : ℕ := 0
  /-- Being encrypted: GATT waits. -/
  encPending : Bool := false
  /-- The MTU is to be asked for again once encrypted; the device asked for it itself. -/
  mtuRetry : Bool := false
  peerMtu : Bool := false
  ops : List Op := []
  cur : Option Op := none
  /-- Progress of a long read and of a long write. -/
  val : Bytes := []
  off : ℕ := 0
  /-- Discovery: 0 services, 1 characteristics of service `idx`, 2 descriptors of characteristic
  `idx`. -/
  phase : ℕ := 0
  idx : ℕ := 0
  next : ℕ := 0
  db : Option Db := none
  sent : List Bytes := []
  air : List UInt8 := []
  said : List Said := []

namespace Conn

variable (c : Conn)

/-- `att_send`; a request is on the air from then on. -/
def attSend (op : UInt8) (rest : Bytes) : Conn :=
  { c with
    sent := c.sent ++ [op :: rest]
    air := c.air ++ if op ∈ Att.requests then [op] else [] }

/-- A PDU has come: the request that it answers is off the air. -/
def answered (p : Bytes) : Conn :=
  { c with air := c.air.eraseP (Att.answers p) }

/-- The handler is told. -/
def say (o : Op) (r : Reply) : Conn := { c with said := c.said ++ [⟨o.req, r⟩] }

/-- `free_conn`. -/
def freeConn : Conn := { said := c.said }

/-! ### The queue -/

/-- `send_read`. -/
def sendRead (o : Op) : Conn :=
  if c.val = [] then c.attSend Att.readReq (put16 o.req.handle)
  else c.attSend Att.readBlobReq (put16 o.req.handle ++ put16 c.val.length)

/-- `send_prep`. -/
def sendPrep (o : Op) : Conn :=
  c.attSend Att.prepWriteReq
    (put16 o.req.handle ++ put16 c.off ++ (o.req.data.drop c.off).take (c.mtu - 5))

/-- Requests may be started. -/
def starts : Bool := c.state = .up && !c.closeNow && !c.encPending

/-- The loop of `start_op`, over the queue, while nothing is at work. -/
def startOps : List Op → Conn → Conn
  | [], c => c
  | o :: ops, c =>
      if c.starts then
        let c := { c with ops := ops, cur := some o, val := [], off := 0 }
        match o.kind with
        | .read => c.sendRead o
        | .write =>
            -- no answer: done once queued
            if !o.req.response then
              startOps ops { c.attSend Att.writeCmd
                (put16 o.req.handle ++ o.req.data.take (c.mtu - 3)) with cur := none }
            else if o.req.data.length ≤ c.mtu - 3 then
              c.attSend Att.writeReq (put16 o.req.handle ++ o.req.data)
            else c.sendPrep o
        | .discover =>
            match c.db with
            -- known already
            | some db => startOps ops { c.say o (.services c.addr db) with cur := none }
            | none =>
                { c with db := some {}, phase := 0, idx := 0, next := 1 }.attSend Att.readGroupReq
                  (put16 1 ++ put16 0xffff ++ put16 0x2800)
      else c

/-- `start_op`. -/
def startOp : Conn := if c.cur.isSome then c else startOps c.ops c

/-- `op_done`. -/
def opDone : Conn := startOp { c with cur := none }

/-- `op_fail`. -/
def opFail (o : Op) (handle err : ℕ) : Conn := (c.say o (.error c.addr handle err)).opDone

/-! ### Discovery -/

/-- What is known so far. -/
def database : Db := c.db.getD {}

/-- The last handle of a service. -/
def svcEnd (i : ℕ) : ℕ := (c.database.svc[i]?.map Svc.last).getD 0

/-- `chr_end`; the handles are unsigned. -/
def chrEnd (i : ℕ) : ℕ :=
  let d := c.database
  match d.chr[i]? with
  | none => 0
  | some ch =>
      match d.chr[i + 1]? with
      | some ch' =>
          if ch'.svc = ch.svc then (ch'.decl + 2 ^ 32 - 1) % 2 ^ 32
          else c.svcEnd ch.svc
      | none => c.svcEnd ch.svc

/-- A characteristic is begun: its descriptors come behind those that are there. -/
def enterChr : Conn :=
  let d := c.database
  if c.next = 0 then
    { c with
      next := (d.chr[c.idx]?.map Chr.handle).getD 0 + 1
      db := some { d with chr := d.chr.modify c.idx fun ch => { ch with first := d.dsc.length } } }
  else c

/-- A service is begun. -/
def enterSvc : Conn :=
  let d := c.database
  if c.next = 0 then
    { c with
      next := (d.svc[c.idx]?.map Svc.start).getD 0
      db := some { d with svc := d.svc.modify c.idx fun s => { s with first := d.chr.length } } }
  else c

/-- `disc_next`, descriptors: the characteristics that are left. -/
def discChrs (o : Op) : ℕ → Conn → Conn
  | 0, c => (c.say o (.services c.addr c.database)).opDone
  | k + 1, c =>
      let c := c.enterChr
      if c.chrEnd c.idx < c.next then discChrs o k { c with idx := c.idx + 1, next := 0 }
      else c.attSend Att.findInfoReq (put16 c.next ++ put16 (c.chrEnd c.idx))

/-- `disc_next`, characteristics: the services that are left. -/
def discSvcs (o : Op) : ℕ → Conn → Conn
  | 0, c => discChrs o c.database.chr.length { c with phase := 2, idx := 0, next := 0 }
  | k + 1, c =>
      let c := c.enterSvc
      if c.svcEnd c.idx < c.next then discSvcs o k { c with idx := c.idx + 1, next := 0 }
      else c.attSend Att.readTypeReq (put16 c.next ++ put16 (c.svcEnd c.idx) ++ put16 0x2803)

/-- `disc_next`. -/
def discNext (o : Op) : Conn :=
  match c.phase with
  | 0 => c.attSend Att.readGroupReq (put16 c.next ++ put16 0xffff ++ put16 0x2800)
  | 1 => discSvcs o (c.database.svc.length - c.idx) c
  | _ => discChrs o (c.database.chr.length - c.idx) c

end Conn

/-- `uuid_from`. -/
def uuidFrom (p : Bytes) : UInt64 × UInt64 :=
  if p.length = 2 then (UInt64.ofNat (u16 p 0 * 2 ^ 32 + 0x1000), 0x800000805f9b34fb)
  else if p.length = 16 then (UInt64.ofNat (ofLe (p.drop 8)), UInt64.ofNat (ofLe (p.take 8)))
  else (0, 0)

/-- The entries of a list in a PDU, each of a length. -/
def entries (el : ℕ) (p : Bytes) : List Bytes :=
  (chunks el p.length (p.drop 2)).filter fun e => e.length = el

/-- The length of a descriptor, with a short UUID or a long one. -/
def dscLen (p : Bytes) : ℕ := if byteAt p 1 = 1 then 4 else 18

/-- The handle that the last entry has at an offset, 0 if there is none. -/
def lastOf (es : List Bytes) (i : ℕ) : ℕ := (es.getLast?.map fun e => u16 e i).getD 0

namespace Db

variable (d : Db)

def addSvc (e : Bytes) : Db :=
  if d.svc.length = maxSvc then d
  else { d with
    svc := d.svc ++ [{ uuid := uuidFrom (e.drop 4), start := u16 e 0, last := u16 e 2 }] }

def addChr (idx : ℕ) (e : Bytes) : Db :=
  if d.chr.length = maxChr then d
  else { d with
    chr := d.chr ++ [{ uuid := uuidFrom (e.drop 5), decl := u16 e 0, handle := u16 e 3,
                       props := byteAt e 2, svc := idx }]
    svc := d.svc.modify idx fun s => { s with n := s.n + 1 } }

def addDsc (idx : ℕ) (e : Bytes) : Db :=
  if d.dsc.length = maxDsc then d
  else { d with
    dsc := d.dsc ++ [{ uuid := uuidFrom (e.drop 2), handle := u16 e 0 }]
    chr := d.chr.modify idx fun ch => { ch with n := ch.n + 1 } }

end Db

namespace Conn

variable (c : Conn)

/-- `disc_rx`. -/
def discRx (o : Op) (p : Bytes) : Conn :=
  if byteAt p 0 = Att.error then
    if p.length < 5 ∨ byteAt p 4 ≠ Att.notFound then
      c.opFail o 0 (errorOf p)
    else if c.phase = 0 then discNext { c with phase := 1, idx := 0, next := 0 } o
    else discNext { c with idx := c.idx + 1, next := 0 } o
  else if c.phase = 0 ∧ byteAt p 0 = Att.readGroupRsp ∧ 2 ≤ p.length ∧ 6 ≤ byteAt p 1 then
    let es := entries (byteAt p 1).toNat p
    let last := lastOf es 2
    let c := { c with db := some (es.foldl Db.addSvc c.database) }
    if 0xffff ≤ last ∨ last < c.next then discNext { c with phase := 1, idx := 0, next := 0 } o
    else discNext { c with next := last + 1 } o
  else if c.phase = 1 ∧ byteAt p 0 = Att.readTypeRsp ∧ 2 ≤ p.length ∧ 7 ≤ byteAt p 1 then
    let es := entries (byteAt p 1).toNat p
    let last := lastOf es 0
    let c := { c with db := some (es.foldl (fun d e => d.addChr c.idx e) c.database) }
    -- nothing usable: next service
    if last < c.next then discNext { c with idx := c.idx + 1, next := 0 } o
    else discNext { c with next := last + 1 } o
  else if c.phase = 2 ∧ byteAt p 0 = Att.findInfoRsp ∧ 2 ≤ p.length then
    let es := entries (dscLen p) p
    let last := lastOf es 0
    let c := { c with db := some (es.foldl (fun d e => d.addDsc c.idx e) c.database) }
    if last < c.next then discNext { c with idx := c.idx + 1, next := 0 } o
    else discNext { c with next := last + 1 } o
  else c.opFail o 0 gattFailed

/-! ### PDUs of the device -/

/-- The MTU that is agreed on. -/
def agreed (m : ℕ) : ℕ := if m < 23 then 23 else if m < attMtu then m else attMtu

/-- The longest value that is read. -/
abbrev maxVal : ℕ := 512

/-- `att_rx`, the part of a read. -/
def readRx (o : Op) (p : Bytes) : Conn :=
  if byteAt p 0 ≠ Att.readRsp ∧ byteAt p 0 ≠ Att.readBlobRsp then c
  else
    let val := c.val ++ (p.drop 1).take (maxVal - c.val.length)
    let c := { c with val := val }
    -- a full PDU: maybe more
    if p.length = c.mtu ∧ c.val.length < maxVal then c.sendRead o
    else (c.say o (.read c.addr o.req.handle c.val)).opDone

/-- `att_rx`, the part of a write. -/
def writeRx (o : Op) (p : Bytes) : Conn :=
  if byteAt p 0 = Att.prepWriteRsp then
    let c := { c with off := c.off + min (o.req.data.length - c.off) (c.mtu - 5) }
    if c.off < o.req.data.length then c.sendPrep o else c.attSend Att.execWriteReq [1]
  else if byteAt p 0 ≠ Att.writeRsp ∧ byteAt p 0 ≠ Att.execWriteRsp then c
  else (c.say o (.written c.addr o.req.handle)).opDone

/-- `att_rx`, an error. -/
def errorRx (o : Op) (p : Bytes) : Conn :=
  if o.kind = .read ∧ c.val ≠ [] ∧ errorOf p = Att.notLong.toNat then
    (c.say o (.read c.addr o.req.handle c.val)).opDone
  else c.opFail o o.req.handle (errorOf p)

/-- `att_rx`, what answers a request of ours. -/
def answerRx (p : Bytes) : Conn :=
  match c.cur with
  -- late answer to something given up
  | none => c
  | some o =>
      match o.kind with
      | .discover => c.discRx o p
      | .read => if byteAt p 0 = Att.error then c.errorRx o p else c.readRx o p
      | .write => if byteAt p 0 = Att.error then c.errorRx o p else c.writeRx o p

/-- An error that names the MTU exchange. -/
def mtuError (p : Bytes) : Bool := byteAt p 0 = Att.error && 2 ≤ p.length && byteAt p 1 = Att.mtuReq

/-- `att_rx`. -/
def attRx (p : Bytes) : Conn :=
  match p with
  | [] => c
  | b :: rest =>
      if b = Att.notify then c
      else if b = Att.indicate then c.attSend Att.confirm []
      else if b = Att.mtuReq then
        let c := if 2 ≤ rest.length then
          { c with mtu := agreed (u16 rest 0), peerMtu := true } else c
        c.attSend Att.mtuRsp (put16 attMtu)
      else if b % 2 = 0 ∧ b ≠ Att.confirm then
        -- any other request to our empty server; commands get no answer
        if b &&& 0x40 ≠ 0 then c
        else c.attSend Att.error
          ([b] ++ put16 (if 2 ≤ rest.length then u16 rest 0 else 0) ++
            [if b = Att.findInfoReq ∨ b = Att.readTypeReq ∨ b = Att.readGroupReq ∨
                b = Att.findTypeReq then Att.notFound else Att.notSupported])
      else if c.state = .mtu ∧ mtuError p ∧ c.encPending then
        -- a bonded device may answer only once encrypted
        { c with mtuRetry := true }
      else if c.state = .mtu ∧ (b = Att.mtuRsp ∨ mtuError p) then
        let mtu := if b = Att.mtuRsp ∧ 2 ≤ rest.length then agreed (u16 rest 0)
          else if c.peerMtu then c.mtu else 23
        startOp { c with mtu := mtu, state := .up }
      else c.answerRx p

/-- The MTU exchange is given up: as if the device had refused. -/
def mtuTimeout : Conn := c.attRx [Att.error, Att.mtuReq, 0, 0, 0]

/-- `encrypted`. -/
def encrypted : Conn :=
  let c := { c with encPending := false }
  let c := if c.mtuRetry ∧ c.state = .mtu then
      { c with mtuRetry := false }.attSend Att.mtuReq (put16 attMtu)
    else c
  c.startOp

/-- A request was not answered in time. -/
def attTimeout : Conn :=
  match c.cur with
  | none => c
  | some o => { c with closeNow := true }.opFail o o.req.handle gattFailed

/-- `conn_complete`: the link is up, and the MTU is asked for. -/
def connected (bonded : Bool) : Conn :=
  let c := { c with state := .mtu, mtu := attMtu }
  if c.cancel then { c with closeNow := true }
  else { c with encPending := c.encPending || bonded }.attSend Att.mtuReq (put16 attMtu)

/-- `op_queue`. -/
def opQueue (o : Op) : Conn := startOp { c with ops := c.ops ++ [o] }

/-- The requests that wait or are at work. -/
def pending : List Req := (c.cur.toList ++ c.ops).map Op.req

/-- A PDU is taken for an answer to the request that is at work. -/
def takes (p : Bytes) : Bool :=
  match c.cur with
  | none => false
  | some o =>
      let b := byteAt p 0
      let ours := p ≠ [] && b ≠ Att.notify && b ≠ Att.indicate && (b % 2 ≠ 0 || b = Att.confirm)
      ours && o.kind.takes b

end Conn

end Gatt
end Hassmic.Ble
