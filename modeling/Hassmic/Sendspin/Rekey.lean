import Hassmic.Lib.Runs
import Hassmic.Noise.Responder

/-!
# New keys in the middle of traffic

Several threads send on one session: its own, which receives, and the time thread, the buttons
and the screen.  They share `tx` and the quiet flag under `send_lock`.  Here every thread is
taken apart at each statement between the lock and the unlock, and any thread may go on at any
time.

A server that counts the messages and takes the new key right after handshake message 2 reads
all of them: the lock keeps the order of the nonces the order of the wire, and the swap of the
keys is in the same hold of the lock as the message it comes after.  The quiet flag is set under
the lock as well, so no message is past its gate at that moment; but the flag is not set the
moment handshake message 1 comes in.

## Main definitions

* `Pc`, `Line`, `Line.step` — the threads, what they share, and a step of one of them.
* `reads` — a server that counts.
* `hushed` — whether a re-handshake has asked for quiet and no server/activate has come.

## Main results

* `keeps_step` — what the lock keeps.
* `rekey_decodable` — **every run**: the server reads all, each key and nonce is used once, and
  in the quiet period only what is forced goes out.
* `rekey_slips` — a message between handshake message 1 and the quiet flag.
-/

namespace Hassmic.Sendspin
namespace Rekey

open Noise Handshake List
open Function (update update_of_ne update_self)

/-- A message to send: forced past the quiet period or not, and with the key for what comes after
it. -/
structure Msg where
  forced : Bool
  rekey : Option Key := none
  deriving DecidableEq

/-- What a thread has yet to do. -/
inductive Job
  /-- `set_quiet`. -/
  | hush (on : Bool)
  /-- `vsend_json`. -/
  | send (m : Msg)
  deriving DecidableEq

/-- Where a thread is, with what comes after. -/
inductive Pc
  /-- Before it takes the lock, or with nothing to do. -/
  | out (jobs : List Job)
  /-- It has the lock, and sets the flag. -/
  | hushing (on : Bool) (jobs : List Job)
  /-- It has the lock, and is at the gate. -/
  | sending (m : Msg) (jobs : List Job)
  /-- It has encrypted the message, and is before `ws_send`. -/
  | putting (m : Msg) (c : Cs) (jobs : List Job)
  /-- It is before the swap of the keys. -/
  | swapping (m : Msg) (jobs : List Job)
  /-- It is before the unlock. -/
  | leaving (jobs : List Job)
  deriving DecidableEq

/-- What is noted of a session. -/
inductive Entry
  /-- Handshake message 1 came in. -/
  | message1
  /-- The quiet flag was set. -/
  | quiet
  /-- A message was handed to `ws_send`, with the key and the nonce it is encrypted under. -/
  | sent (c : Cs) (m : Msg)
  /-- A server/activate came in. -/
  | activate
  deriving DecidableEq

/-- What the threads of a session share.  The receive thread is `none`. -/
structure Line (ι : Type) where
  tx : Cs
  quiet : Bool
  lock : Option (Option ι)
  pc : Option ι → Pc
  log : List Entry

/-- What the receive thread is given. -/
inductive Received
  /-- Handshake message 1, with the key that comes of it if the handshake goes on. -/
  | handshake (k : Option Key)
  /-- `server/hello`. -/
  | hello
  /-- `server/activate`, to which it answers with some messages. -/
  | activate (n : ℕ)
  /-- Another message, to which it answers with some. -/
  | other (n : ℕ)

/-- What happens. -/
inductive Ev (ι : Type)
  /-- The receive thread takes a message. -/
  | receive (r : Received)
  /-- Another thread calls `send_json`. -/
  | call (i : ι)
  /-- A thread goes on. -/
  | run (t : Option ι)

variable {ι : Type} [DecidableEq ι]

/-- Messages that are not forced. -/
def plain (n : ℕ) : List Job := List.replicate n (.send { forced := false })

/-- What the receive thread does with a message. -/
def Received.jobs (quiet : Bool) : Received → List Job
  | .handshake none => [.hush true]
  | .handshake (some k) => [.hush true, .send { forced := true, rekey := some k }]
  | .hello => [.send { forced := true }]
  | .activate n => (if quiet then [.hush false] else []) ++ plain n
  | .other n => plain n

/-- What is noted when it comes in. -/
def Received.entries : Received → List Entry
  | .handshake _ => [.message1]
  | .activate _ => [.activate]
  | _ => []

/-- `tx` after a message. -/
def next (c : Cs) : Cs := { c with n := c.n + 1 }

/-- `tx` after the swap. -/
def swapped (m : Msg) (c : Cs) : Cs :=
  match m.rekey with
  | some k => ⟨k, 0⟩
  | none => c

/-- The lock is taken for a job. -/
def Job.start (jobs : List Job) : Job → Pc
  | .hush on => .hushing on jobs
  | .send m => .sending m jobs

namespace Line

variable (w : Line ι)

/-- A thread is somewhere else. -/
def move (t : Option ι) (p : Pc) : Line ι := { w with pc := update w.pc t p }

/-- A thread goes on. -/
def run (t : Option ι) : Line ι :=
  match w.pc t with
  | .out [] => w
  | .out (job :: jobs) =>
      if w.lock = none then { w.move t (job.start jobs) with lock := some t } else w
  | .hushing on jobs =>
      { w.move t (.leaving jobs) with
        quiet := on
        log := if on then w.log ++ [.quiet] else w.log }
  | .sending m jobs =>
      if w.quiet && !m.forced then w.move t (.leaving jobs)
      else { w.move t (.putting m w.tx jobs) with tx := next w.tx }
  | .putting m c jobs => { w.move t (.swapping m jobs) with log := w.log ++ [.sent c m] }
  | .swapping m jobs => { w.move t (.leaving jobs) with tx := swapped m w.tx }
  | .leaving jobs => { w.move t (.out jobs) with lock := none }

/-- One step. -/
def step : Ev ι → Line ι
  | .receive r =>
      if w.pc none = .out [] then
        { w.move none (.out (r.jobs w.quiet)) with log := w.log ++ r.entries }
      else w
  | .call i =>
      if w.pc (some i) = .out [] then w.move (some i) (.out [.send { forced := false }]) else w
  | .run t => w.run t

/-- After the first handshake. -/
def start (ι : Type) (k : Key) : Line ι where
  tx := ⟨k, 0⟩
  quiet := false
  lock := none
  pc _ := .out []
  log := []

/-- The session after a run. -/
def after (l : List (Ev ι)) : Line ι := l.foldl step w

end Line

/-! ### A server that counts -/

/-- What was sent, in order. -/
def Entry.wire : Entry → Option (Cs × Msg)
  | .sent c m => some (c, m)
  | _ => none

/-- The messages of a log. -/
def wire (log : List Entry) : List (Cs × Msg) := log.filterMap Entry.wire

/-- What a server reads messages under after these, if it could read them all: it counts them,
and takes the new key after the message that brings it. -/
def reads (c : Cs) : List (Cs × Msg) → Option Cs
  | [] => some c
  | (d, m) :: l => if d = c then reads (swapped m (next c)) l else none

theorem reads_append (c : Cs) (l l' : List (Cs × Msg)) :
    reads c (l ++ l') = (reads c l).bind fun d => reads d l' := by
  induction l generalizing c with
  | nil => rfl
  | cons p l ih =>
    obtain ⟨d, m⟩ := p
    rw [cons_append, reads, reads]
    split
    · exact ih _
    · rfl

theorem wire_append (log log' : List Entry) : wire (log ++ log') = wire log ++ wire log' := by
  unfold wire
  rw [filterMap_append]

/-- The keys that came in messages. -/
def rekeys (l : List (Cs × Msg)) : List Key := l.filterMap fun p => p.2.rekey

theorem rekeys_cons (c : Cs) (m : Msg) (l : List (Cs × Msg)) :
    rekeys ((c, m) :: l) = m.rekey.toList ++ rekeys l := by
  unfold rekeys
  cases hm : m.rekey with
  | none =>
    rw [filterMap_cons_none (by exact hm)]
    rfl
  | some k =>
    rw [filterMap_cons_some (by exact hm)]
    rfl

variable {c : Cs} {l : List (Cs × Msg)} {jobs : List Job} {m : Msg} {p : Pc}

/-- A message is under the key there was, or under one that came before it. -/
theorem key_of_reads {d : Cs} (h : reads c l = some d) {p : Cs × Msg}
    (hp : p ∈ l) : p.1.k = c.k ∨ p.1.k ∈ rekeys l := by
  induction l generalizing c with
  | nil => exact absurd hp (by simp)
  | cons q l ih =>
    obtain ⟨e, m⟩ := q
    rw [reads] at h
    split at h
    · next hec =>
      rw [rekeys_cons, mem_append]
      rcases mem_cons.mp hp with hfirst | hlater
      · left
        rw [hfirst]
        exact congrArg Cs.k hec
      · rcases ih h hlater with hkey | hkey
        · -- the key of the message before, or the one it brought
          unfold swapped at hkey
          cases hm : m.rekey with
          | none =>
            rw [hm] at hkey
            exact .inl hkey
          | some k =>
            rw [hm] at hkey
            exact .inr (.inl (by simp [hkey]))
        · exact .inr (.inr hkey)
    · exact absurd h (by simp)

/-- The messages under a key. -/
def under (k : Key) (l : List (Cs × Msg)) : ℕ := l.countP fun p => p.1.k = k

/-- Those under the key there was have the nonces that follow, as long as that key does not come
back. -/
theorem nonce_of_reads {d : Cs} (h : reads c l = some d)
    (hkey : c.k ∉ rekeys l) {p : Cs × Msg} (hp : p ∈ l) (hpk : p.1.k = c.k) :
    ∃ i < under c.k l, p.1.n = c.n + UInt64.ofNat i := by
  induction l generalizing c with
  | nil => exact absurd hp (by simp)
  | cons q l ih =>
    obtain ⟨e, m⟩ := q
    rw [reads] at h
    split at h
    · next hec =>
      rw [rekeys_cons, mem_append, not_or] at hkey
      have hcount : under c.k ((e, m) :: l) = under c.k l + 1 := by
        unfold under
        rw [countP_cons_of_pos (by simp [hec])]
      rcases mem_cons.mp hp with hfirst | hlater
      · refine ⟨0, by omega, ?_⟩
        rw [hfirst]
        simp [hec]
      · cases hm : m.rekey with
        | none =>
          have hnext : swapped m (next c) = next c := by
            unfold swapped
            rw [hm]
          rw [hnext] at h
          obtain ⟨i, hi, hn⟩ := ih h hkey.2 hlater hpk
          refine ⟨i + 1, by rw [hcount]; exact Nat.succ_lt_succ hi, ?_⟩
          rw [hn]
          show c.n + 1 + UInt64.ofNat i = c.n + UInt64.ofNat (i + 1)
          rw [UInt64.ofNat_add, UInt64.add_assoc, UInt64.add_comm 1]
          rfl
        | some k =>
          -- from here on it is under other keys
          have hnew : swapped m (next c) = ⟨k, 0⟩ := by
            unfold swapped
            rw [hm]
          rw [hnew] at h
          rw [hm] at hkey
          rcases key_of_reads h hlater with hk | hk
          · exact absurd (hpk.symm.trans hk) (by simpa using hkey.1)
          · exact absurd (hpk ▸ hk) hkey.2
    · exact absurd h (by simp)

/-- A counter of 64 bits does not come round in fewer steps. -/
theorem ne_add_succ (n : UInt64) {i : ℕ} (hi : i + 1 < 2 ^ 64) : n ≠ n + 1 + UInt64.ofNat i := by
  intro h
  have hzero : (1 : UInt64) + UInt64.ofNat i = 0 := by
    rw [UInt64.add_assoc] at h
    simpa using h
  have hnat := congrArg UInt64.toNat hzero
  rw [UInt64.toNat_add, UInt64.toNat_ofNat', Nat.mod_eq_of_lt (a := i) (by omega)] at hnat
  simp only [UInt64.toNat_one, UInt64.toNat_zero] at hnat
  omega

/-- **Each key and nonce once**, where no key comes twice and none is used more often than there
are nonces. -/
theorem nodup_of_reads {d : Cs} (h : reads c l = some d)
    (hkeys : (c.k :: rekeys l).Nodup) (hlen : ∀ k, under k l ≤ 2 ^ 64) :
    (l.map Prod.fst).Nodup := by
  induction l generalizing c with
  | nil => exact nodup_nil
  | cons q l ih =>
    obtain ⟨e, m⟩ := q
    have hread := h
    rw [reads] at h
    split at h
    · next hec =>
      subst hec
      have htail : ∀ k, under k l ≤ 2 ^ 64 := fun k =>
        le_trans (List.Sublist.countP_le (sublist_cons_self ..)) (hlen k)
      have hcount : under e.k ((e, m) :: l) = under e.k l + 1 := by
        unfold under
        rw [countP_cons_of_pos (by simp)]
      rw [rekeys_cons] at hkeys
      rw [map_cons, nodup_cons]
      cases hm : m.rekey with
      | none =>
        have hnext : swapped m (next e) = next e := by
          unfold swapped
          rw [hm]
        rw [hnext] at h
        rw [hm, Option.toList_none, nil_append] at hkeys
        refine ⟨fun hagain => ?_, ih h hkeys htail⟩
        -- its nonce would have to come round
        obtain ⟨p, hp, hpe⟩ := mem_map.mp hagain
        obtain ⟨i, hi, hn⟩ := nonce_of_reads h (nodup_cons.mp hkeys).1 hp
          (by rw [hpe]; rfl)
        rw [hpe] at hn
        have hwrap := hlen e.k
        rw [hcount] at hwrap
        exact ne_add_succ e.n (show i + 1 < 2 ^ 64 by
          have hi' : i < under e.k l := hi
          omega) hn
      | some k =>
        have hnew : swapped m (next e) = ⟨k, 0⟩ := by
          unfold swapped
          rw [hm]
        rw [hnew] at h
        rw [hm, Option.toList_some, singleton_append] at hkeys
        obtain ⟨hold, hkeys⟩ := nodup_cons.mp hkeys
        refine ⟨fun hagain => ?_, ih h hkeys htail⟩
        obtain ⟨p, hp, hpe⟩ := mem_map.mp hagain
        rcases key_of_reads h hp with hk | hk
        · rw [hpe] at hk
          replace hk : e.k = k := hk
          rw [hk] at hold
          exact hold mem_cons_self
        · rw [hpe] at hk
          exact hold (mem_cons_of_mem _ hk)
    · exact absurd h (by simp)

/-! ### What the lock keeps -/

/-- A thread has the lock. -/
def Pc.holds : Pc → Bool
  | .out _ => false
  | _ => true

/-- What a thread will do, the job it is at with it as long as that has done nothing. -/
def Pc.ahead : Pc → List Job
  | .out jobs => jobs
  | .hushing on jobs => .hush on :: jobs
  | .sending m jobs => .send m :: jobs
  | .putting _ _ jobs | .swapping _ jobs | .leaving jobs => jobs

/-- What the next message is to be read under: `tx`, but for a message that is under way. -/
def Pc.expects (tx : Cs) : Pc → Cs
  | .putting _ c _ => c
  | .swapping m _ => swapped m tx
  | _ => tx

def Line.expects (w : Line ι) : Cs :=
  match w.lock with
  | none => w.tx
  | some t => (w.pc t).expects w.tx

/-- Whether the quiet flag was set and no server/activate has come since. -/
def hushed (log : List Entry) : Bool :=
  log.foldl (fun b e =>
    match e with
    | .quiet => true
    | .activate => false
    | _ => b) false

theorem hushed_append (log : List Entry) (e : Entry) :
    hushed (log ++ [e]) =
      match e with
      | .quiet => true
      | .activate => false
      | _ => hushed log := by
  unfold hushed
  rw [foldl_append]
  rfl

/-- In the quiet period only what is forced was sent. -/
def QuietKept (log : List Entry) : Prop :=
  ∀ (a b : List Entry) (c : Cs) (m : Msg),
    log = a ++ Entry.sent c m :: b → hushed a = true → m.forced = true

theorem QuietKept.append {log : List Entry} (h : QuietKept log) {e : Entry}
    (he : ∀ c m, e = .sent c m → hushed log = true → m.forced = true) :
    QuietKept (log ++ [e]) := by
  intro a b c m heq hq
  rcases eq_nil_or_concat b with rfl | ⟨b', e', rfl⟩
  · obtain ⟨rfl, hlast⟩ := append_inj' heq rfl
    exact he c m (List.cons.inj hlast).1 hq
  · rw [concat_eq_append, ← cons_append, ← append_assoc] at heq
    exact h a b' c m (append_inj' heq rfl).1 hq

/-- What the threads keep. -/
structure Keeps (k : Key) (w : Line ι) : Prop where
  /-- One thread has the lock. -/
  mutex : ∀ t, (w.pc t).holds = true ↔ w.lock = some t
  /-- The server reads all there is. -/
  read : reads ⟨k, 0⟩ (wire w.log) = some w.expects
  /-- A message under way took its nonce from `tx`, and passed the gate. -/
  putting : ∀ {t m c jobs}, w.pc t = .putting m c jobs →
    w.tx = next c ∧ (w.quiet = true → m.forced = true)
  /-- The flag is set in the quiet period. -/
  hush : hushed w.log = true → w.quiet = true
  /-- The receive thread clears it only after a server/activate. -/
  clears : .hush false ∈ (w.pc none).ahead →
    hushed w.log = false ∧ .hush true ∉ (w.pc none).ahead
  /-- No other thread touches it. -/
  others : ∀ i on, .hush on ∉ (w.pc (some i)).ahead
  kept : QuietKept w.log

variable {k : Key} {w : Line ι} {t : Option ι}

omit [DecidableEq ι] in
/-- While a thread has the lock, no other thread sends. -/
theorem Keeps.alone (h : Keeps k w) (ht : w.lock = some t) {s : Option ι} (hst : s ≠ t) :
    w.pc s ≠ .putting m c jobs := by
  intro hs
  have hlock : w.lock = some s := (h.mutex s).mp (by rw [hs]; rfl)
  exact hst (Option.some.inj (hlock.symm.trans ht))

/-- A thread that has the lock goes on, and not to send. -/
theorem Keeps.putting_move (h : Keeps k w) (ht : w.lock = some t)
    (hp : ∀ m c jobs, p ≠ .putting m c jobs) {s : Option ι} :
    update w.pc t p s ≠ .putting m c jobs := by
  intro hs
  by_cases hst : s = t
  · subst hst
    rw [update_self] at hs
    exact hp m c jobs hs
  · rw [update_of_ne hst] at hs
    exact h.alone ht hst hs

omit [DecidableEq ι] in
theorem expects_eq (ht : w.lock = some t) : w.expects = (w.pc t).expects w.tx := by
  unfold Line.expects
  rw [ht]

/-- After a thread that has the lock went on, what counts is where it is. -/
theorem read_move {v : Line ι} (ht : v.lock = some t)
    (hp : v.pc = update w.pc t p)
    (hread : reads ⟨k, 0⟩ (wire v.log) = some (p.expects v.tx)) :
    reads ⟨k, 0⟩ (wire v.log) = some v.expects := by
  rw [expects_eq ht, hp, update_self]
  exact hread

/-- A thread that has the lock goes on and keeps it. -/
theorem Keeps.mutex_move (h : Keeps k w) (ht : w.lock = some t) (hp : p.holds = true)
    (s : Option ι) : (update w.pc t p s).holds = true ↔ w.lock = some s := by
  by_cases hst : s = t
  · subst hst
    rw [update_self, hp, ht]
    simp
  · rw [update_of_ne hst]
    exact h.mutex s

/-- What a thread has ahead does not grow. -/
theorem Keeps.others_move (h : Keeps k w) (hp : ∀ j ∈ p.ahead, j ∈ (w.pc t).ahead)
    (i : ι) (on : Bool) : .hush on ∉ (update w.pc t p (some i)).ahead := by
  by_cases hit : some i = t
  · subst hit
    rw [update_self]
    exact fun hmem => h.others i on (hp _ hmem)
  · rw [update_of_ne hit]
    exact h.others i on

theorem Keeps.clears_move (h : Keeps k w) (hp : ∀ j ∈ p.ahead, j ∈ (w.pc t).ahead) :
    .hush false ∈ (update w.pc t p none).ahead →
    hushed w.log = false ∧ .hush true ∉ (update w.pc t p none).ahead := by
  by_cases hit : none = t
  · subst hit
    rw [update_self]
    intro hmem
    obtain ⟨hlog, hnot⟩ := h.clears (hp _ hmem)
    exact ⟨hlog, fun htrue => hnot (hp _ htrue)⟩
  · rw [update_of_ne hit]
    exact h.clears

/-! ### Each step -/

/-- The lock is taken. -/
theorem keeps_lock (h : Keeps k w) {job : Job} (ht : w.pc t = .out (job :: jobs))
    (hfree : w.lock = none) : Keeps k { w.move t (job.start jobs) with lock := some t } := by
  have hout : ∀ s, (w.pc s).holds = false := by
    intro s
    by_contra hs
    rw [(h.mutex s).mp (by simpa using hs)] at hfree
    exact absurd hfree (by simp)
  have hstart : (job.start jobs).ahead = (w.pc t).ahead := by
    rw [ht]
    cases job with
    | hush on => rfl
    | send m => rfl
  have hsub : ∀ j ∈ (job.start jobs).ahead, j ∈ (w.pc t).ahead := by
    intro j hj
    rw [← hstart]
    exact hj
  refine ⟨fun s => ?_, ?_, fun {s m c jobs'} hs => ?_, h.hush, h.clears_move hsub,
    h.others_move hsub, h.kept⟩
  · show (update w.pc t (job.start jobs) s).holds = true ↔ some t = some s
    by_cases hst : s = t
    · subst hst
      rw [update_self]
      cases job with
      | hush on => simp [Job.start, Pc.holds]
      | send m => simp [Job.start, Pc.holds]
    · rw [update_of_ne hst, hout s]
      simp [Ne.symm hst]
  · have hexp : Line.expects { w.move t (job.start jobs) with lock := some t } = w.expects := by
      show (update w.pc t (job.start jobs) t).expects w.tx = w.expects
      unfold Line.expects
      rw [update_self, hfree]
      cases job with
      | hush on => rfl
      | send m => rfl
    rw [hexp]
    exact h.read
  · -- nobody was sending, and this thread is not yet
    replace hs : update w.pc t (job.start jobs) s = .putting m c jobs' := hs
    by_cases hst : s = t
    · subst hst
      rw [update_self] at hs
      cases job with
      | hush on => exact absurd hs (by simp [Job.start])
      | send m => exact absurd hs (by simp [Job.start])
    · rw [update_of_ne hst] at hs
      have hholds := hout s
      rw [hs] at hholds
      exact absurd hholds (by simp [Pc.holds])

/-- The flag is written. -/
theorem keeps_hush (h : Keeps k w) {on : Bool} (ht : w.pc t = .hushing on jobs) :
    Keeps k { w.move t (.leaving jobs) with
      quiet := on
      log := if on then w.log ++ [.quiet] else w.log } := by
  have hlock : w.lock = some t := (h.mutex t).mp (by rw [ht]; rfl)
  have hsub : ∀ j ∈ (Pc.leaving jobs).ahead, j ∈ (w.pc t).ahead := by
    intro j hj
    rw [ht]
    exact mem_cons_of_mem _ hj
  have hahead : Job.hush on ∈ (w.pc t).ahead := by
    rw [ht]
    exact mem_cons_self
  -- only the receive thread does this
  obtain rfl : t = none := by
    cases t with
    | none => rfl
    | some i => exact absurd hahead (h.others i on)
  have hwire : wire (if on then w.log ++ [.quiet] else w.log) = wire w.log := by
    split
    · rw [wire_append]
      exact append_nil _
    · rfl
  refine ⟨h.mutex_move hlock rfl, ?_, fun {s m c jobs'} hs => ?_, fun hq => ?_, fun hmem => ?_,
    h.others_move hsub, ?_⟩
  · refine read_move (w := w) hlock rfl ?_
    show reads ⟨k, 0⟩ (wire (if on then w.log ++ [.quiet] else w.log)) = some w.tx
    rw [hwire, h.read, expects_eq hlock, ht]
    rfl
  · exact absurd hs (h.putting_move hlock fun _ _ _ => Pc.noConfusion)
  · show on = true
    cases on with
    | true => rfl
    | false =>
      have hlog : hushed w.log = true := hq
      rw [(h.clears hahead).1] at hlog
      exact absurd hlog (by simp)
  · obtain ⟨hlog, hnot⟩ := h.clears_move hsub hmem
    refine ⟨?_, hnot⟩
    cases on with
    | false => exact hlog
    | true =>
      -- it does not set and clear the flag in one go
      replace hmem : Job.hush false ∈ (update w.pc none (.leaving jobs) none).ahead := hmem
      rw [update_self] at hmem
      exact absurd hahead (h.clears (hsub _ hmem)).2
  · show QuietKept (if on then w.log ++ [.quiet] else w.log)
    split
    · exact h.kept.append fun c m he => absurd he (by simp)
    · exact h.kept

/-- A thread that has the lock goes on, and what is to be read next stays the same. -/
theorem Keeps.goes (h : Keeps k w) (ht : (w.pc t).holds = true) {c : Cs} (hp : p.holds = true)
    (hahead : ∀ j ∈ p.ahead, j ∈ (w.pc t).ahead) (hexp : p.expects c = (w.pc t).expects w.tx)
    (hput : ∀ {m d jobs}, p = .putting m d jobs → c = next d ∧ (w.quiet = true → m.forced = true)) :
    Keeps k { w.move t p with tx := c } := by
  have hlock : w.lock = some t := (h.mutex t).mp ht
  refine ⟨h.mutex_move hlock hp, ?_, fun {s m d jobs} hs => ?_, h.hush, h.clears_move hahead,
    h.others_move hahead, h.kept⟩
  · refine read_move (w := w) hlock rfl ?_
    show reads ⟨k, 0⟩ (wire w.log) = some (p.expects c)
    rw [h.read, expects_eq hlock, hexp]
  · replace hs : update w.pc t p s = .putting m d jobs := hs
    by_cases hst : s = t
    · subst hst
      rw [update_self] at hs
      exact hput hs
    · rw [update_of_ne hst] at hs
      exact absurd hs (h.alone hlock hst)

/-- A message at the gate is held back. -/
theorem keeps_held (h : Keeps k w) (ht : w.pc t = .sending m jobs) :
    Keeps k (w.move t (.leaving jobs)) := by
  refine h.goes (by rw [ht]; rfl) rfl (fun j hj => ?_) (by rw [ht]; rfl) Pc.noConfusion
  rw [ht]
  exact mem_cons_of_mem _ hj

/-- A message passes the gate and takes its nonce. -/
theorem keeps_encrypt (h : Keeps k w) (ht : w.pc t = .sending m jobs)
    (hgate : w.quiet = true → m.forced = true) :
    Keeps k { w.move t (.putting m w.tx jobs) with tx := next w.tx } := by
  refine h.goes (by rw [ht]; rfl) rfl (fun j hj => ?_) (by rw [ht]; rfl) fun hp => ?_
  · rw [ht]
    exact mem_cons_of_mem _ hj
  · obtain ⟨rfl, rfl, -⟩ := Pc.putting.inj hp
    exact ⟨rfl, hgate⟩

/-- It goes out. -/
theorem keeps_put (h : Keeps k w)
    (ht : w.pc t = .putting m c jobs) :
    Keeps k { w.move t (.swapping m jobs) with log := w.log ++ [.sent c m] } := by
  have hlock : w.lock = some t := (h.mutex t).mp (by rw [ht]; rfl)
  obtain ⟨htx, hforced⟩ := h.putting ht
  have hsub : ∀ j ∈ (Pc.swapping m jobs).ahead, j ∈ (w.pc t).ahead := by
    intro j hj
    rw [ht]
    exact hj
  have hhushed : hushed (w.log ++ [.sent c m]) = hushed w.log := hushed_append ..
  refine ⟨h.mutex_move hlock rfl, ?_, fun {s m' c' jobs'} hs => ?_, fun hq => ?_, fun hmem => ?_,
    h.others_move hsub, ?_⟩
  · -- it is the one the server waits for
    have hread := h.read
    rw [expects_eq hlock, ht] at hread
    refine read_move (w := w) hlock rfl ?_
    show reads ⟨k, 0⟩ (wire (w.log ++ [.sent c m])) = some (swapped m w.tx)
    rw [wire_append, reads_append, hread, htx]
    show reads c [(c, m)] = _
    rw [reads, if_pos rfl]
    rfl
  · exact absurd hs (h.putting_move hlock fun _ _ _ => Pc.noConfusion)
  · exact h.hush (hhushed ▸ hq)
  · obtain ⟨hlog, hnot⟩ := h.clears_move hsub hmem
    exact ⟨hhushed.trans hlog, hnot⟩
  · refine h.kept.append fun c' m' he hq => ?_
    obtain ⟨rfl, rfl⟩ := Entry.sent.inj he
    exact hforced (h.hush hq)

/-- The keys are swapped. -/
theorem keeps_swap (h : Keeps k w) (ht : w.pc t = .swapping m jobs) :
    Keeps k { w.move t (.leaving jobs) with tx := swapped m w.tx } := by
  refine h.goes (by rw [ht]; rfl) rfl (fun j hj => ?_) (by rw [ht]; rfl) Pc.noConfusion
  rw [ht]
  exact hj

/-- The lock is given back. -/
theorem keeps_unlock (h : Keeps k w) (ht : w.pc t = .leaving jobs) :
    Keeps k { w.move t (.out jobs) with lock := none } := by
  have hlock : w.lock = some t := (h.mutex t).mp (by rw [ht]; rfl)
  have hsub : ∀ j ∈ (Pc.out jobs).ahead, j ∈ (w.pc t).ahead := by
    intro j hj
    rw [ht]
    exact hj
  refine ⟨fun s => ?_, ?_, fun {s m c jobs'} hs => ?_, h.hush, h.clears_move hsub,
    h.others_move hsub, h.kept⟩
  · show (update w.pc t (.out jobs) s).holds = true ↔ none = some s
    by_cases hst : s = t
    · subst hst
      rw [update_self]
      simp [Pc.holds]
    · rw [update_of_ne hst, h.mutex s, hlock]
      simp [Ne.symm hst]
  · show reads ⟨k, 0⟩ (wire w.log) = some w.tx
    rw [h.read, expects_eq hlock, ht]
    rfl
  · exact absurd hs (h.putting_move hlock fun _ _ _ => Pc.noConfusion)

theorem keeps_run (h : Keeps k w) (t : Option ι) : Keeps k (w.run t) := by
  unfold Line.run
  cases ht : w.pc t with
  | out jobs =>
    cases jobs with
    | nil => exact h
    | cons job jobs =>
      simp only
      split
      · next hfree => exact keeps_lock h ht hfree
      · exact h
  | hushing on jobs => exact keeps_hush h ht
  | sending m jobs =>
    simp only
    split
    · exact keeps_held h ht
    · next hgate =>
      refine keeps_encrypt h ht fun hq => ?_
      simpa [hq] using hgate
  | putting m c jobs => exact keeps_put h ht
  | swapping m jobs => exact keeps_swap h ht
  | leaving jobs => exact keeps_unlock h ht

/-- A thread that has nothing to do is given something. -/
theorem keeps_idle (h : Keeps k w) (ht : w.pc t = .out []) {entries : List Entry}
    (hwire : wire entries = []) (hkept : QuietKept (w.log ++ entries))
    (hq : hushed (w.log ++ entries) = true → hushed w.log = true)
    (hclears : t = none → .hush false ∈ jobs →
      hushed (w.log ++ entries) = false ∧ .hush true ∉ jobs)
    (hothers : ∀ i, t = some i → ∀ on, .hush on ∉ jobs)
    (hsame : t ≠ none → entries = []) :
    Keeps k { w.move t (.out jobs) with log := w.log ++ entries } := by
  -- a session outside the lock does not hold it
  have hnot : w.lock ≠ some t := by
    intro hlock
    have hholds := (h.mutex t).mpr hlock
    rw [ht] at hholds
    exact absurd hholds (by simp [Pc.holds])
  refine ⟨fun s => ?_, ?_, fun {s m c jobs'} hs => ?_, fun hlog => h.hush (hq hlog), fun hmem => ?_,
    fun i on => ?_, hkept⟩
  · show (update w.pc t (.out jobs) s).holds = true ↔ w.lock = some s
    by_cases hst : s = t
    · subst hst
      rw [update_self]
      simp [Pc.holds, hnot]
    · rw [update_of_ne hst]
      exact h.mutex s
  -- what is expected is the holder's, and that is another
  · have hexp : Line.expects { w.move t (.out jobs) with log := w.log ++ entries } = w.expects := by
      unfold Line.expects
      show (match w.lock with
        | none => w.tx
        | some s => (update w.pc t (.out jobs) s).expects w.tx) = _
      cases hlock : w.lock with
      | none => rfl
      | some s =>
        simp only
        rw [update_of_ne (by rintro rfl; exact hnot hlock)]
    rw [hexp]
    show reads ⟨k, 0⟩ (wire (w.log ++ entries)) = _
    rw [wire_append, hwire, append_nil]
    exact h.read
  · replace hs : update w.pc t (.out jobs) s = .putting m c jobs' := hs
    by_cases hst : s = t
    · subst hst
      rw [update_self] at hs
      exact absurd hs (by simp)
    · rw [update_of_ne hst] at hs
      exact h.putting hs
  · replace hmem : Job.hush false ∈ (update w.pc t (.out jobs) none).ahead := hmem
    show hushed (w.log ++ entries) = false ∧
      Job.hush true ∉ (update w.pc t (.out jobs) none).ahead
    by_cases hst : none = t
    · subst hst
      rw [update_self] at hmem ⊢
      exact hclears rfl hmem
    · rw [update_of_ne hst] at hmem ⊢
      rw [hsame (Ne.symm hst), append_nil]
      exact h.clears hmem
  · show Job.hush on ∉ (update w.pc t (.out jobs) (some i)).ahead
    by_cases hst : some i = t
    · subst hst
      rw [update_self]
      exact hothers i rfl on
    · rw [update_of_ne hst]
      exact h.others i on

theorem hush_not_mem_plain (n : ℕ) (on : Bool) : Job.hush on ∉ plain n := by
  intro hmem
  exact absurd (eq_of_mem_replicate hmem) (by simp)

/-- The receive thread takes a message. -/
theorem keeps_receive (h : Keeps k w) (hidle : w.pc none = .out []) (r : Received) :
    Keeps k { w.move none (.out (r.jobs w.quiet)) with log := w.log ++ r.entries } := by
  cases r with
  | handshake key =>
    have hsame : hushed (w.log ++ [.message1]) = hushed w.log := hushed_append ..
    refine keeps_idle h hidle rfl (h.kept.append fun c m he => absurd he (by simp))
      (fun hq => hsame ▸ hq) (fun _ hmem => ?_) (fun i hi => absurd hi (by simp))
      fun hne => absurd rfl hne
    cases key with
    | none => exact absurd hmem (by simp [Received.jobs])
    | some key => exact absurd hmem (by simp [Received.jobs])
  | hello =>
    refine keeps_idle h hidle rfl ?_ (fun hq => ?_) (fun _ hmem => ?_)
      (fun i hi => absurd hi (by simp)) fun hne => absurd rfl hne
    · exact (append_nil w.log).symm ▸ h.kept
    · exact (append_nil w.log) ▸ hq
    · exact absurd hmem (by simp [Received.jobs])
  | activate n =>
    have hover : hushed (w.log ++ [.activate]) = false := hushed_append ..
    refine keeps_idle h hidle rfl (h.kept.append fun c m he => absurd he (by simp))
      (fun hq => absurd (hover.symm.trans hq) (by simp)) (fun _ _ => ⟨hover, fun hmem => ?_⟩)
      (fun i hi => absurd hi (by simp)) fun hne => absurd rfl hne
    rcases mem_append.mp hmem with hfirst | hrest
    · split at hfirst
      · exact absurd hfirst (by simp)
      · exact absurd hfirst (by simp)
    · exact hush_not_mem_plain n true hrest
  | other n =>
    refine keeps_idle h hidle rfl ?_ (fun hq => ?_) (fun _ hmem => ?_)
      (fun i hi => absurd hi (by simp)) fun hne => absurd rfl hne
    · exact (append_nil w.log).symm ▸ h.kept
    · exact (append_nil w.log) ▸ hq
    · exact absurd hmem (hush_not_mem_plain n false)

/-- **Each step keeps it.** -/
theorem keeps_step (h : Keeps k w) (e : Ev ι) : Keeps k (w.step e) := by
  cases e with
  | receive r =>
    show Keeps k (if w.pc none = .out [] then _ else w)
    split
    · next hidle => exact keeps_receive h hidle r
    · exact h
  | call i =>
    show Keeps k (if w.pc (some i) = .out [] then _ else w)
    split
    · next hidle =>
      have hcall : Keeps k { w.move (some i) (.out [.send { forced := false }]) with
          log := w.log ++ [] } :=
        keeps_idle h hidle rfl (by rw [append_nil]; exact h.kept)
          (by rw [append_nil]; exact id) (fun hnone => absurd hnone (by simp))
          (fun _ _ on => by simp) (fun _ => rfl)
      rw [append_nil] at hcall
      exact hcall
    · exact h
  | run t => exact keeps_run h t

/-! ### Whole runs -/

omit [DecidableEq ι] in
theorem keeps_start (k : Key) : Keeps k (Line.start ι k) where
  mutex := fun t => by simp [Line.start, Pc.holds]
  read := rfl
  putting := fun ht => absurd ht (by simp [Line.start])
  hush := fun hq => absurd hq (by simp [Line.start, hushed])
  clears := fun hmem => absurd hmem (by simp [Line.start, Pc.ahead])
  others := fun i on => by simp [Line.start, Pc.ahead]
  kept := fun a b c m heq => absurd heq (by simp [Line.start])

/-- A quiet period lasts to the next server/activate. -/
theorem hushed_of_quiet {a b : List Entry} (hb : .activate ∉ b) :
    hushed (a ++ .quiet :: b) = true := by
  induction b using List.reverseRecOn with
  | nil => exact hushed_append ..
  | append_singleton b e ih =>
    rw [mem_append, not_or] at hb
    rw [← cons_append, ← append_assoc, hushed_append]
    cases e with
    | quiet => rfl
    | activate => exact absurd mem_cons_self hb.2
    | message1 => exact ih hb.1
    | sent c m => exact ih hb.1

/-- **The stream stays readable.**  However the threads of a session take turns, and whatever
re-handshakes there are: a server that counts the messages from 0 and changes to the new key right
after handshake message 2 reads all that was sent, so the order of the nonces is the order of the
wire; where no key comes twice and none is used for more than 2⁶⁴ messages, each key and nonce is
used once; and from the moment the quiet flag is set to the next server/activate only messages
that are forced were sent. -/
theorem rekey_decodable (k : Key) (l : List (Ev ι)) (log : List Entry)
    (hlog : log = ((Line.start ι k).after l).log) :
    (∃ c, reads ⟨k, 0⟩ (wire log) = some c) ∧
    ((k :: rekeys (wire log)).Nodup → (∀ k', under k' (wire log) ≤ 2 ^ 64) →
      ((wire log).map Prod.fst).Nodup) ∧
    ∀ (a b d : List Entry) (c : Cs) (m : Msg),
      log = a ++ Entry.quiet :: b ++ Entry.sent c m :: d → .activate ∉ b → m.forced = true := by
  have h : Keeps k ((Line.start ι k).after l) :=
    Runs.invariant_all (I := Keeps k) (fun _ e hw => keeps_step hw e) (keeps_start k) l
  rw [hlog]
  refine ⟨⟨_, h.read⟩, fun hkeys hlen => nodup_of_reads h.read hkeys hlen, ?_⟩
  intro a b d c m heq hb
  exact h.kept _ _ _ _ heq (hushed_of_quiet hb)

/-- The receive thread re-handshakes while the time thread is about to send. -/
def slips (k : Key) : List (Ev ℕ) :=
  let mine : Ev ℕ := .run none
  let other : Ev ℕ := .run (some 0)
  [.call 0, .receive (.handshake (some k)), other, other, other, other, other, .call 0,
    mine, mine, mine, mine, mine, mine, mine, mine, mine, other, other, other,
    .receive (.activate 1), mine, mine, mine, mine, mine, mine, mine, mine]

/-- What is sent then: the time thread's message slips in before the quiet flag; its next one is
held back, and what comes after the server/activate is under the new key. -/
theorem rekey_decodable_slips :
    let log := ((Line.start ℕ (.zero 32)).after (slips (.fill 32 1))).log
    (wire log).map Prod.fst = [⟨.zero 32, 0⟩, ⟨.zero 32, 1⟩, ⟨.fill 32 1, 0⟩] ∧
    (∃ c, reads ⟨.zero 32, 0⟩ (wire log) = some c) ∧ ((wire log).map Prod.fst).Nodup := by
  intro log
  obtain ⟨hread, hnodup, -⟩ := rekey_decodable (.zero 32) (slips (.fill 32 1)) log rfl
  have hlen : (wire log).length = 3 := by decide
  refine ⟨by decide, hread, hnodup (by decide) fun k' => ?_⟩
  calc under k' (wire log) ≤ (wire log).length := countP_le_length
    _ = 3 := hlen
    _ ≤ 2 ^ 64 := by norm_num

/-- Handshake message 1 has come in, and a message that is not forced goes out before the next
server/activate. -/
theorem rekey_slips :
    ∃ (a b d : List Entry) (c : Cs) (m : Msg),
      ((Line.start ℕ (.zero 32)).after (slips (.fill 32 1))).log
        = a ++ Entry.message1 :: b ++ Entry.sent c m :: d ∧ .activate ∉ b ∧ m.forced = false :=
  ⟨[], [], [.quiet, .sent ⟨.zero 32, 1⟩ { forced := true, rekey := some (.fill 32 1) }, .activate,
    .sent ⟨.fill 32 1, 0⟩ { forced := false }], ⟨.zero 32, 0⟩, { forced := false },
    by decide⟩

end Rekey
end Hassmic.Sendspin
