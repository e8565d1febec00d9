import Hassmic.Hash.Base64
import Hassmic.Lib.Runs

/-!
# The API server: connections and the encryption key

Home Assistant talks to an Echo over up to four connections, each with a thread of its own.
What a connection may do hangs on three things: whether the device has an encryption key,
whether the connection is encrypted, and whether it was set up with that key.  The threads
share the table of connections under one lock: what a thread does while it holds the lock is
one step, and so is each of the few things done without it.

The device behind the API (the settings, the voice assistant, the radio) is a parameter: it
may do anything with its own state, read the table, and ask for messages to be sent.

## Main definitions

* `Client`, `Table` — the connections, and what decides what they may do.
* `Send`, `Table.targets` — what the device sends, and to whom.
* `Device` — the device behind the API.
* `Srv.handle`, `Srv.keySet` — a message, and the key.
* `Srv.step` — one step of the threads.
-/

namespace Hassmic.Api

open Function (update)

/-! ### Fields of a message -/

/-- The bytes of a varint, as far as they go, and what follows. -/
def pbVarint : Bytes → ℕ × Bytes
  | [] => (0, [])
  | c :: l =>
      if c < 0x80 then (c.toNat, l)
      else ((c.toNat % 128 + 128 * (pbVarint l).1) % 2 ^ 64, (pbVarint l).2)

/-- `struct pbf`. -/
structure Pbf where
  field : ℕ
  v : ℕ := 0
  data : Option Bytes := none

/-- `pb_next`: the next field, and what follows it. -/
def pbNext (l : Bytes) : Option (Pbf × Bytes) :=
  if l = [] then none
  else
    let (k, l) := pbVarint l
    let field := k / 8 % 2 ^ 32
    match k % 8 with
    | 0 => some ({ field := field, v := (pbVarint l).1 }, (pbVarint l).2)
    | 1 => if l.length < 8 then none else some ({ field := field }, l.drop 8)
    | 2 =>
        let (n, l) := pbVarint l
        if l.length < n then none else some ({ field := field, data := some (l.take n) }, l.drop n)
    | 5 =>
        match l with
        | a :: b :: c :: d :: l =>
            let v := a.toNat + b.toNat * 2 ^ 8 + c.toNat * 2 ^ 16 + d.toNat * 2 ^ 24
            some ({ field := field, v := v }, l)
        | _ => none
    | _ => none

/-- The fields up to the first that cannot be read.  Each takes a byte at least, so there are
no more than bytes. -/
def pbLoop : ℕ → Bytes → List Pbf
  | 0, _ => []
  | n + 1, l =>
      match pbNext l with
      | none => []
      | some (f, l) => f :: pbLoop n l

/-- The fields of a message, `while (pb_next(&p, end, &f))`. -/
def pbFields (l : Bytes) : List Pbf := pbLoop l.length l

/-- What is held by the fields of number `n` that hold bytes. -/
def pbData (n : ℕ) (l : Bytes) : List Bytes :=
  (pbFields l).filterMap fun f => if f.field = n then f.data else none

/-! ### Connections -/

/-- An entry of `clients`; `fd` is there while the connection is open. -/
structure Client where
  fd : Option ℕ := none
  states : Bool := false
  enc : Bool := false
  keyed : Bool := false
  ble : Bool := false
  bleFree : Bool := false
  bleUser : Bool := false
  actions : Bool := false
  haStates : Bool := false

/-- What is shared under the lock: the connections, the voice assistant's, and the key. -/
structure Table where
  clients : Fin 4 → Client := fun _ => {}
  vaFd : Option ℕ := none
  haveKey : Bool := false
  apiKey : Bytes := List.replicate 32 0

/-- What is sent, by how it is addressed. -/
inductive Send
  /-- `send_msg`: an answer to a request. -/
  | reply (type : ℕ) (b : Bytes)
  /-- `send_va`: traffic of the voice assistant, its audio too. -/
  | va (type : ℕ) (b : Bytes)
  /-- `send_state`: the state of an entity. -/
  | state (type : ℕ) (b : Bytes)
  /-- To those that proxy Bluetooth: advertisements, connections, free slots. -/
  | ble (type : ℕ) (b : Bytes)
  | bleConn (type : ℕ) (b : Bytes)
  | bleSlots (type : ℕ) (b : Bytes)
  /-- Actions, events and requests for states, to Home Assistant. -/
  | action (type : ℕ) (b : Bytes)
  | event (type : ℕ) (b : Bytes)
  | request (type : ℕ) (b : Bytes)

/-- What goes out over a connection: a frame of the handshake, or a message. -/
inductive Sent
  | frame (data : Bytes)
  | msg (m : Send)

/-- `DISCONNECT_RESP`, `SET_KEY_RESP`. -/
abbrev disconnectResp : ℕ := 6
abbrev setKeyResp : ℕ := 125

/-- Whether something of the device is shown: the state of an entity, traffic of the voice
assistant, or an answer other than that to a farewell. -/
def Sent.shows : Sent → Bool
  | .msg (.state _ _) => true
  | .msg (.va _ _) => true
  | .msg (.reply type _) => type ≠ disconnectResp
  | _ => false

namespace Table

variable (t : Table)

/-- The open connections of which `p` holds. -/
def fds (p : Client → Bool) : List ℕ :=
  (List.finRange 4).filterMap fun i => if p (t.clients i) then (t.clients i).fd else none

/-- To whom a message is sent. -/
def targets (asker : Option ℕ) : Send → List ℕ
  | .reply _ _ => asker.toList
  | .va _ _ => t.vaFd.toList
  | .state _ _ => t.fds fun c => c.states
  | .ble _ _ => t.fds fun c => c.ble
  | .bleConn _ _ => t.fds fun c => c.ble || c.bleFree || c.bleUser
  | .bleSlots _ _ => t.fds fun c => c.bleFree
  | .action _ _ => t.fds fun c => c.actions
  | .event _ _ => t.fds fun c => c.actions && c.keyed
  | .request _ _ => t.fds fun c => c.haStates && c.keyed

/-- `client_of`. -/
def clientOf (fd : ℕ) : Option (Fin 4) :=
  (List.finRange 4).find? fun i => (t.clients i).fd = some fd

/-- A change to one entry. -/
def setClient (i : Fin 4) (c : Client) : Table :=
  { t with clients := update t.clients i c }

/-- A change to the entry of a connection. -/
def setOf (fd : ℕ) (f : Client → Client) : Table :=
  match t.clientOf fd with
  | none => t
  | some i => t.setClient i (f (t.clients i))

end Table

/-- The types of messages that touch the table. -/
inductive MsgType
  | disconnectReq | subscribeStates | subscribeHaActions | subscribeHaStates | subscribeVa
  | vaAudio | bleSubscribe | bleUnsubscribe | bleConnFreeReq | bleReq | setKeyReq | other
  deriving DecidableEq

/-- The type of a number. -/
def MsgType.of (type : ℕ) : MsgType :=
  match type with
  | 5 => .disconnectReq
  | 20 => .subscribeStates
  | 34 => .subscribeHaActions
  | 38 => .subscribeHaStates
  | 66 => .bleSubscribe
  | 68 | 70 | 73 | 75 | 76 | 77 | 78 => .bleReq
  | 80 => .bleConnFreeReq
  | 87 => .bleUnsubscribe
  | 89 => .subscribeVa
  | 106 => .vaAudio
  | 124 => .setKeyReq
  | _ => .other

/-- The device behind the API, with a state `D` and happenings `E` of its own.  What it is
given of the table it may only read. -/
structure Device (D E : Type) where
  /-- The server's hello. -/
  hello : Bytes
  /-- Whether `noise_nn_read_msg1` takes a message under a key. -/
  readMsg1 : Bytes → Bytes → Bool
  blePresent : D → Bool
  /-- The handler of a message of a connection. -/
  on : D → Table → ℕ → ℕ → Bytes → D × List Send
  /-- `core_tts_data`. -/
  ttsData : D → Bytes → D
  /-- `core_link`. -/
  link : D → Table → Bool → Bool → D × List Send
  /-- `ble_update`, and what follows where nobody is left to use the radio. -/
  left : D → Table → D × List Send
  /-- Everything else: buttons, timers, media, settings. -/
  happens : D → Table → E → D × List Send

/-- Where the thread of a connection stands. -/
inductive At
  /-- It waits for the first byte; it has seen whether there is a key. -/
  | first (keyed : Bool)
  /-- In `noise_handshake`, up to its first lock. -/
  | hello
  /-- Up to its second lock. -/
  | agrees (keyed : Bool)
  | serving
  /-- At `done`. -/
  | done
  deriving DecidableEq

/-- The thread of a connection. -/
structure Thread where
  slot : Fin 4
  pc : At

/-- The state of the server. -/
structure Srv (D : Type) where
  table : Table := {}
  /-- The threads, by their sockets. -/
  threads : ℕ → Option Thread := fun _ => none
  /-- `loaded` of `serve`. -/
  loaded : Bool := false
  /-- The file of the key. -/
  keyFile : Option Bytes := none
  dev : D
  /-- What went out, and over which connection. -/
  out : List (ℕ × Sent) := []

/-- `b64_decode` of a key. -/
def keyOf (k : Bytes) : Option Bytes :=
  if (b64Decode k 32).1 ∧ (b64Decode k 32).2.length = 32 then some (b64Decode k 32).2 else none

namespace Srv

variable {D E : Type} (dv : Device D E) (s : Srv D)

/-- The thread of a connection goes on. -/
def goes (fd : ℕ) (pc : At) : Srv D :=
  { s with threads :=
      update s.threads fd ((s.threads fd).map fun th => { th with pc := pc }) }

/-- A frame of the handshake. -/
def writeFrame (fd : ℕ) (data : Bytes) : Srv D := { s with out := s.out ++ [(fd, .frame data)] }

/-- The messages the device sends, over the connections they are for. -/
def sends (asker : Option ℕ) (l : List Send) : Srv D :=
  { s with out := s.out ++
      l.flatMap fun m => (s.table.targets asker m).map fun fd => (fd, .msg m) }

/-- The device goes on, and sends. -/
def calls (asker : Option ℕ) (r : D × List Send) : Srv D := sends { s with dev := r.1 } asker r.2

/-- `key_load`. -/
def keyLoad : Srv D :=
  let line := (s.keyFile.getD []).take 127 |>.takeWhile fun c => c ≠ 0 && c ≠ Byte.lf && c ≠ Byte.cr
  match keyOf line with
  | some key => { s with table := { s.table with haveKey := true, apiKey := key } }
  | none => { s with table := { s.table with haveKey := false } }

/-- `key_set`, with whether the file could be written or removed. -/
def keySet (k : Bytes) (saved : Bool) : Srv D × Bool :=
  if k = [] then
    if saved then
      ({ s with
        table := { s.table with haveKey := false, apiKey := List.replicate 32 0 }
        keyFile := none }, true)
    else (s, false)
  else if 64 ≤ k.length then (s, false)
  else
    match keyOf k with
    | none => (s, false)
    | some key =>
        if saved then
          ({ s with
            table := { s.table with haveKey := true, apiKey := key }
            keyFile := some (k ++ [Byte.lf]) }, true)
        else (s, false)

/-- Whether a connection may change the key. -/
def maySetKey (fd : ℕ) : Bool :=
  match s.table.clientOf fd with
  | none => false
  | some i => if s.table.haveKey then (s.table.clients i).keyed else (s.table.clients i).enc

/-- The key a message asks for; none clears it. -/
def keyAsked (p : Bytes) : Bytes := ((pbData 1 p).getLast?).getD []

/-- `SET_KEY_REQ`. -/
def onSetKey (fd : ℕ) (p : Bytes) (saved : Bool) : Srv D :=
  let (s, ok) := if s.maySetKey fd then s.keySet (keyAsked p) saved else (s, false)
  let s := if ok && s.table.haveKey then
      { s with table := s.table.setOf fd fun c => { c with keyed := true } }
    else s
  s.sends (some fd) [.reply setKeyResp (if ok then [0x08, 0x01] else [])]

/-- `SUBSCRIBE_VA`: the first comes first. -/
def onSubscribeVa (fd type : ℕ) (p : Bytes) : Srv D :=
  let sub := (((pbFields p).filter fun f => f.field = 1).getLast?).elim false fun f => f.v ≠ 0
  if sub && s.table.vaFd.any fun va => va ≠ fd then s
  else if !sub && s.table.vaFd ≠ some fd then s
  else
    let s := { s with table := { s.table with vaFd := if sub then some fd else none } }
    s.calls (some fd) (dv.on s.dev s.table fd type p)

/-- A message that only the device looks at. -/
def onOther (fd type : ℕ) (p : Bytes) : Srv D :=
  s.calls (some fd) (dv.on s.dev s.table fd type p)

/-- A message that changes the entry of its connection, before the device looks at it. -/
def onClient (fd type : ℕ) (p : Bytes) (f : Client → Client) : Srv D :=
  onOther dv { s with table := s.table.setOf fd f } fd type p

/-- The `switch` of `handle`, but for the farewell.  A thread that serves has its entry, so
`client_of` finds it. -/
def dispatch (fd type : ℕ) (p : Bytes) (saved : Bool) : Srv D :=
  match MsgType.of type with
  | .subscribeStates => s.onClient dv fd type p fun c => { c with states := true }
  | .subscribeHaActions =>
      { s with table := s.table.setOf fd fun c => { c with actions := true } }
  | .subscribeHaStates =>
      { s with table := s.table.setOf fd fun c => { c with haStates := true } }
  | .subscribeVa => s.onSubscribeVa dv fd type p
  | .bleSubscribe =>
      if dv.blePresent s.dev then s.onClient dv fd type p fun c => { c with ble := true } else s
  | .bleUnsubscribe =>
      if dv.blePresent s.dev then s.onClient dv fd type p fun c => { c with ble := false } else s
  | .bleConnFreeReq =>
      if dv.blePresent s.dev then s.onClient dv fd type p fun c => { c with bleFree := true }
      else s
  | .bleReq =>
      if dv.blePresent s.dev then s.onClient dv fd type p fun c => { c with bleUser := true }
      else s
  | .setKeyReq => s.onSetKey fd p saved
  | _ => s.onOther dv fd type p

/-- Whether the gate is shut for a connection: there is a key, and it was not set up with it. -/
def gated (fd : ℕ) : Bool :=
  s.table.haveKey && (s.table.clientOf fd).any fun i => !(s.table.clients i).keyed

/-- `handle`: what a message does, and whether the connection is kept. -/
def handle (fd type : ℕ) (p : Bytes) (saved : Bool) : Srv D × Bool :=
  if MsgType.of type = .vaAudio then
    ({ s with dev := (pbData 1 p).foldl dv.ttsData s.dev }, true)
  else if s.gated fd && MsgType.of type ≠ .disconnectReq then (s, false)
  else if MsgType.of type = .disconnectReq then
    (s.sends (some fd) [.reply disconnectResp []], false)
  else (s.dispatch dv fd type p saved, true)

/-- A connection comes: it takes the first free entry, if there is one. -/
def accept (fd : ℕ) : Srv D :=
  let s := if s.loaded then s else { s.keyLoad with loaded := true }
  match (List.finRange 4).find? fun i => (s.table.clients i).fd = none with
  | none => s
  | some i =>
      let alone := s.table.fds (fun _ => true) = []
      let s := { s with
        table := s.table.setClient i { fd := some fd }
        threads := update s.threads fd (some ⟨i, .first s.table.haveKey⟩) }
      if alone then s.calls none (dv.link s.dev s.table true false) else s

/-- The first byte of a connection. -/
def firstByte (fd : ℕ) (keyed : Bool) (b : UInt8) : Srv D :=
  if b = 1 then s.goes fd .hello
  else if keyed then (s.writeFrame fd []).goes fd .done
  else if b = 0 then s.goes fd .serving
  else s.goes fd .done

/-- `noise_handshake` up to its second lock, with the client's first message.  The key is looked
at here. -/
def handshake (fd : ℕ) (msg : Bytes) : Srv D :=
  match msg with
  | 0 :: m =>
      let keyed := s.table.haveKey
      let psk := if keyed then s.table.apiKey else List.replicate 32 0
      let s := s.writeFrame fd dv.hello
      if m.length > 32 + 16 + 64 || !dv.readMsg1 psk m then
        (s.writeFrame fd (1 :: "Handshake MAC failure".toUTF8.toList)).goes fd .done
      else s.goes fd (.agrees keyed)
  | _ => s.goes fd .done

/-- The second lock of `noise_handshake`, with the second message. -/
def agree (fd : ℕ) (slot : Fin 4) (keyed : Bool) (out : Bytes) : Srv D :=
  let s := { s with
    table := s.table.setClient slot { s.table.clients slot with enc := true, keyed := keyed } }
  (s.writeFrame fd (0 :: out)).goes fd .serving

/-- The end of `serve`. -/
def close (fd : ℕ) (slot : Fin 4) : Srv D :=
  let s := { s with
    table := s.table.setClient slot {}
    threads := update s.threads fd none }
  let s := s.calls none (dv.left s.dev s.table)
  let others := s.table.fds (fun _ => true) ≠ []
  if s.table.vaFd = some fd then
    let s := { s with table := { s.table with vaFd := none } }
    s.calls none (dv.link s.dev s.table others false)
  else if !others then s.calls none (dv.link s.dev s.table false false)
  else s

end Srv

/-- What happens. -/
inductive Ev (E : Type)
  | accept (fd : ℕ)
  /-- What is read from a connection. -/
  | byte (fd : ℕ) (b : UInt8)
  | handshake (fd : ℕ) (msg : Bytes)
  | message (fd type : ℕ) (p : Bytes) (saved : Bool)
  /-- The second message of the handshake is written. -/
  | agree (fd : ℕ) (out : Bytes)
  /-- Nothing more, or nothing that makes sense, is read from it. -/
  | gone (fd : ℕ)
  | close (fd : ℕ)
  /-- Something else. -/
  | device (e : E)

/-- One step; what does not fit where the thread stands changes nothing. -/
def Srv.step {D E : Type} (dv : Device D E) (s : Srv D) : Ev E → Srv D
  | .accept fd => if (s.threads fd).isSome then s else s.accept dv fd
  | .byte fd b =>
      match s.threads fd with
      | some ⟨_, .first keyed⟩ => s.firstByte fd keyed b
      | _ => s
  | .handshake fd msg =>
      match s.threads fd with
      | some ⟨_, .hello⟩ => s.handshake dv fd msg
      | _ => s
  | .agree fd out =>
      match s.threads fd with
      | some ⟨slot, .agrees keyed⟩ => s.agree fd slot keyed out
      | _ => s
  | .message fd type p saved =>
      match s.threads fd with
      | some ⟨_, .serving⟩ =>
          match s.handle dv fd type p saved with
          | (s, true) => s
          | (s, false) => s.goes fd .done
      | _ => s
  | .gone fd => s.goes fd .done
  | .close fd =>
      match s.threads fd with
      | some ⟨slot, .done⟩ => s.close dv fd slot
      | _ => s
  | .device e => s.calls none (dv.happens s.dev s.table e)

/-- A run of the server. -/
def Srv.run {D E : Type} (dv : Device D E) (s : Srv D) (l : List (Ev E)) : Srv D :=
  l.foldl (Srv.step dv) s

end Hassmic.Api
