import Hassmic.Lib.Bytes

/-!
# Packets out of a stream

A reader keeps what it has read in a buffer, takes whole packets off its front and hands each to a
handler.  A handler may call the reader again before it is done: that one reads more and takes
further packets, and the outer one goes on with what is left.  How deep and how often that happens
is a tree, one node a call; whatever the tree, and however the stream is cut by the reads, the
packets are handled once each, in order.

## Main definitions

* `Split` — what the front of a buffer is.
* `Port` — the stream, the buffer, the packets handled so far.
* `Call`, `Handlers`, `Calls` — the shape of a run.
* `Call.run` — a call of the reader.
* `Frames` — the packets a splitter knows.

## Main results

* `Call.run_spec` — what was handled and what is left are the packets sent, and a call leaves no
  whole packet behind.
* `Calls.settled`, `Settled.all` — so do calls one after the other, and once all is read all has
  been handled.
-/

namespace Packets

open List

/-- The front of a buffer: no whole packet yet, one that is too long, or a packet. -/
inductive Split
  | stop (rest : Bytes)
  | bad (rest : Bytes)
  | packet (p rest : Bytes)

variable {D : Type*}

/-- What has not been read yet, the buffer, the packets handled in the order in which that began,
and what handling them does to the rest of the program. -/
structure Port (D : Type*) where
  wire : Bytes
  buf : Bytes
  log : List Bytes
  dev : D

mutual

/-- A call of the reader: nothing is there, or so many bytes at most are read; then what the
handlers do. -/
inductive Call
  | call (read : Option ℕ) (hs : Handlers)

/-- The handlers of the packets a call takes: from some packet on none of them calls the reader. -/
inductive Handlers
  | quiet
  | handler (cs : Calls) (hs : Handlers)

/-- The calls a handler makes. -/
inductive Calls
  | done
  | next (c : Call) (cs : Calls)

end

section

variable (split : Bytes → Split) (cap : ℕ) (handle : Bytes → D → D)

/-- A packet is taken off the buffer before its handler runs. -/
def Port.take (m : Port D) (p rest : Bytes) : Port D :=
  { m with buf := rest, log := m.log ++ [p], dev := handle p m.dev }

/-- Packets whose handlers do not call the reader. -/
def drain : ℕ → Port D → Port D × Bool
  | 0, m => (m, true)
  | k + 1, m =>
    match split m.buf with
    | .stop rest => ({ m with buf := rest }, true)
    | .bad rest => ({ m with buf := rest }, false)
    | .packet p rest => drain k (m.take handle p rest)

mutual

/-- A call of the reader; false where it fails. -/
def Call.run : Call → Port D → Port D × Bool
  | .call none hs, m => hs.run m
  | .call (some n) hs, m =>
    let r := min n (min (cap - m.buf.length) m.wire.length)
    if r = 0 then (m, false)
      else hs.run { m with buf := m.buf ++ m.wire.take r, wire := m.wire.drop r }

/-- The loop over the packets. -/
def Handlers.run : Handlers → Port D → Port D × Bool
  | .quiet, m => drain split handle (m.buf.length + 1) m
  | .handler cs hs, m =>
    match split m.buf with
    | .stop rest => ({ m with buf := rest }, true)
    | .bad rest => ({ m with buf := rest }, false)
    | .packet p rest => hs.run (cs.run (m.take handle p rest))

/-- The calls of a handler, which goes on whether they fail or not. -/
def Calls.run : Calls → Port D → Port D
  | .done, m => m
  | .next c cs, m => cs.run (c.run m).1

end

end

/-! ### Packets that are known -/

/-- The splitter knows these packets: it finds each at the front of what begins with it, and no
other before all of it is there. -/
structure Frames (split : Bytes → Split) (cap : ℕ) (p : Bytes) : Prop where
  whole : ∀ l, split (p ++ l) = .packet p l
  part : ∀ q, q <+: p → q ≠ p → split q = .stop q
  ne_nil : p ≠ []
  length_le : p.length ≤ cap

/-- The packets `ps` were sent: some were handled, the others are in the buffer and on the wire. -/
structure Sent (ps : List Bytes) (handle : Bytes → D → D) (d : D) (m : Port D) (rest : List Bytes) :
    Prop where
  log : m.log ++ rest = ps
  bytes : m.buf ++ m.wire = rest.flatten
  dev : m.dev = m.log.foldl (fun d p => handle p d) d

/-- No whole packet is in the buffer. -/
def Settled (rest : List Bytes) (buf : Bytes) : Prop :=
  buf = [] ∨ ∃ p ps, rest = p :: ps ∧ buf <+: p ∧ buf ≠ p

section

variable {split : Bytes → Split} {cap : ℕ} {handle : Bytes → D → D} {ps : List Bytes} {d : D}

/-- The first packet that is left is at the front of the buffer, or part of it is all there is. -/
theorem front {rest : List Bytes} {buf wire : Bytes} (h : buf ++ wire = rest.flatten)
    (hne : buf ≠ []) :
    ∃ p ps, rest = p :: ps ∧
    ((buf <+: p ∧ buf ≠ p) ∨ ∃ l, buf = p ++ l ∧ l ++ wire = ps.flatten) := by
  cases rest with
  | nil =>
    rw [flatten_nil] at h
    exact absurd (append_eq_nil_iff.mp h).1 hne
  | cons p ps =>
    refine ⟨p, ps, rfl, ?_⟩
    rw [flatten_cons] at h
    rcases append_eq_append_iff.mp h with ⟨l, rfl, hl⟩ | ⟨l, rfl, hl⟩
    · cases l with
      | nil => exact .inr ⟨[], by rw [append_nil, append_nil], hl⟩
      | cons c l =>
        refine .inl ⟨prefix_append _ _, fun heq => ?_⟩
        have hlen := congrArg List.length heq
        rw [length_append, length_cons] at hlen
        omega
    · exact .inr ⟨l, rfl, hl.symm⟩

/-- What one turn of the loop finds: nothing whole, and it stops, or the next packet, and takes
it. -/
theorem turn (hps : ∀ p ∈ ps, Frames split cap p) {m : Port D} {rest : List Bytes}
    (h : Sent ps handle d m rest) (hnil : split [] = .stop []) :
    (split m.buf = .stop m.buf ∧ Settled rest m.buf) ∨
      ∃ p l rest', split m.buf = .packet p l ∧ m.buf = p ++ l ∧
      Sent ps handle d (m.take handle p l) rest' ∧ p ≠ [] := by
  by_cases hne : m.buf = []
  · rw [hne]
    exact .inl ⟨hnil, .inl rfl⟩
  · obtain ⟨p, rest', rfl, hfront⟩ := front h.bytes hne
    have hp := hps p (h.log ▸ mem_append_right _ (.head _))
    rcases hfront with ⟨hpart₀, hpart⟩ | ⟨l, hbuf, hl⟩
    · exact .inl ⟨hp.part _ hpart₀ hpart, .inr ⟨p, rest', rfl, hpart₀, hpart⟩⟩
    · refine .inr ⟨p, l, rest', by rw [hbuf, hp.whole], hbuf, ⟨?_, hl, ?_⟩, hp.ne_nil⟩
      · unfold Port.take
        dsimp only
        rw [append_assoc]
        exact h.log
      · unfold Port.take
        dsimp only
        rw [foldl_append, ← h.dev]
        rfl

/-- What is left when no whole packet is fits, with room for more. -/
theorem Settled.length_lt (hps : ∀ p ∈ ps, Frames split cap p) (hcap : 0 < cap) {m : Port D}
    {rest : List Bytes} (h : Sent ps handle d m rest) (hs : Settled rest m.buf) :
    m.buf.length < cap := by
  rcases hs with hnil | ⟨p, rest', rfl, hpart₀, hne⟩
  · rw [hnil]
    exact hcap
  · have hp := hps p (h.log ▸ mem_append_right _ (.head _))
    have hlt : m.buf.length < p.length :=
      lt_of_le_of_ne hpart₀.length_le fun heq => hne (hpart₀.eq_of_length heq)
    exact hlt.trans_le hp.length_le

/-- A loop has gone through what there was. -/
structure Through (ps : List Bytes) (handle : Bytes → D → D) (d : D) (r : Port D × Bool) :
    Prop where
  ok : r.2 = true
  sent : ∃ rest, Sent ps handle d r.1 rest ∧ Settled rest r.1.buf

theorem drain_spec (hps : ∀ p ∈ ps, Frames split cap p) (hnil : split [] = .stop []) :
    ∀ {k : ℕ} {m : Port D}
    {rest : List Bytes}, m.buf.length < k → Sent ps handle d m rest →
    Through ps handle d (drain split handle k m)
  | k + 1, m, rest, hk, h => by
    rw [drain]
    rcases turn hps h hnil with ⟨hstop, hsettled⟩ | ⟨p, l, rest', hpacket, hbuf, htaken, hne⟩
    · rw [hstop]
      exact ⟨rfl, rest, h, hsettled⟩
    · rw [hpacket]
      refine drain_spec hps hnil (?_ : l.length < k) htaken
      have hlen := congrArg List.length hbuf
      have hpos := length_pos_iff.mpr hne
      rw [length_append] at hlen
      omega

/-- A call fails only where the read gives nothing. -/
def Call.Dry : Call → Port D → Prop
  | .call none _, _ => False
  | .call (some n) _, m => n = 0 ∨ m.wire = []

/-- What a call comes to: it has gone through what there was, or the read gave nothing and nothing
has changed. -/
def Call.Done (ps : List Bytes) (handle : Bytes → D → D) (d : D) (c : Call) (m : Port D)
    (r : Port D × Bool) : Prop :=
  Through ps handle d r ∨ (r = (m, false) ∧ c.Dry m)

mutual

/-- **A call of the reader**, whatever its handlers do: the packets are handled once each, in
order. -/
theorem Call.run_spec (hps : ∀ p ∈ ps, Frames split cap p) (hnil : split [] = .stop [])
    (hcap : 0 < cap) :
    ∀ (c : Call) {m : Port D} {rest : List Bytes}, Sent ps handle d m rest → m.buf.length < cap →
      c.Done ps handle d m (c.run split cap handle m)
  | .call none hs, m, rest, h, hroom => by
    rw [Call.run]
    exact .inl (Handlers.run_spec hps hnil hcap hs h hroom.le)
  | .call (some n) hs, m, rest, h, hroom => by
    rw [Call.run]
    split
    case isTrue hdry =>
      refine .inr ⟨rfl, ?_⟩
      have hwire : n = 0 ∨ m.wire.length = 0 := by omega
      rcases hwire with hn | hwire
      · exact .inl hn
      · exact .inr (length_eq_zero_iff.mp hwire)
    case isFalse =>
      refine .inl (Handlers.run_spec hps hnil hcap hs ⟨h.log, ?_, h.dev⟩ ?_)
      · dsimp only
        rw [append_assoc, take_append_drop]
        exact h.bytes
      · dsimp only
        rw [length_append, length_take]
        omega

theorem Handlers.run_spec (hps : ∀ p ∈ ps, Frames split cap p) (hnil : split [] = .stop [])
    (hcap : 0 < cap) :
    ∀ (hs : Handlers) {m : Port D} {rest : List Bytes}, Sent ps handle d m rest →
      m.buf.length ≤ cap → Through ps handle d (hs.run split cap handle m)
  | .quiet, m, rest, h, _ => by
    rw [Handlers.run]
    exact drain_spec hps hnil (Nat.lt_succ_self _) h
  | .handler cs hs, m, rest, h, hroom => by
    rw [Handlers.run]
    rcases turn hps h hnil with ⟨hstop, hsettled⟩ | ⟨p, l, rest', hpacket, hbuf, htaken, hne⟩
    · rw [hstop]
      exact ⟨rfl, rest, h, hsettled⟩
    · rw [hpacket]
      -- There is room again, for the packet is gone from the buffer.
      have hlen := congrArg List.length hbuf
      have hpos := length_pos_iff.mpr hne
      rw [length_append] at hlen
      have hless : l.length < cap := by omega
      obtain ⟨⟨rest₂, hsent⟩, hroom₂⟩ := Calls.run_spec hps hnil hcap cs htaken hless
      exact Handlers.run_spec hps hnil hcap hs hsent hroom₂.le

theorem Calls.run_spec (hps : ∀ p ∈ ps, Frames split cap p) (hnil : split [] = .stop [])
    (hcap : 0 < cap) :
    ∀ (cs : Calls) {m : Port D} {rest : List Bytes}, Sent ps handle d m rest → m.buf.length < cap →
      (∃ rest', Sent ps handle d (cs.run split cap handle m) rest') ∧
      (cs.run split cap handle m).buf.length < cap
  | .done, m, rest, h, hroom => ⟨⟨rest, h⟩, hroom⟩
  | .next c cs, m, rest, h, hroom => by
    rw [Calls.run]
    rcases Call.run_spec hps hnil hcap c h hroom with hthrough | ⟨heq, -⟩
    · obtain ⟨rest', hsent, hsettled⟩ := hthrough.sent
      exact Calls.run_spec hps hnil hcap cs hsent (hsettled.length_lt hps hcap hsent)
    · rw [heq]
      exact Calls.run_spec hps hnil hcap cs h hroom

end

/-- Calls one after the other leave no whole packet behind. -/
theorem Calls.settled (hps : ∀ p ∈ ps, Frames split cap p) (hnil : split [] = .stop [])
    (hcap : 0 < cap) :
    ∀ (cs : Calls) {m : Port D} {rest : List Bytes}, Sent ps handle d m rest → Settled rest m.buf →
      ∃ rest', Sent ps handle d (cs.run split cap handle m) rest' ∧
      Settled rest' (cs.run split cap handle m).buf
  | .done, _, rest, h, hs => ⟨rest, h, hs⟩
  | .next c cs, m, rest, h, hs => by
    rw [Calls.run]
    rcases Call.run_spec hps hnil hcap c h (hs.length_lt hps hcap h) with hthrough | ⟨heq, -⟩
    · obtain ⟨rest', hsent, hsettled⟩ := hthrough.sent
      exact Calls.settled hps hnil hcap cs hsent hsettled
    · rw [heq]
      exact Calls.settled hps hnil hcap cs h hs

/-- Once everything is read every packet has been handled. -/
theorem Settled.all (hps : ∀ p ∈ ps, Frames split cap p) {m : Port D} {rest : List Bytes}
    (h : Sent ps handle d m rest) (hs : Settled rest m.buf) (hwire : m.wire = []) :
    m.log = ps ∧ m.buf = [] := by
  have hbytes := h.bytes
  rw [hwire, append_nil] at hbytes
  cases rest with
  | nil =>
    have hlog := h.log
    rw [append_nil] at hlog
    exact ⟨hlog, hbytes⟩
  | cons p rest =>
    have hp := hps p (h.log ▸ mem_append_right _ (.head _))
    have hpos := length_pos_iff.mpr hp.ne_nil
    have hlen := congrArg List.length hbytes
    rw [flatten_cons, length_append] at hlen
    rcases hs with hnil | ⟨q, qs, heq, hpart₀, hne⟩
    · rw [hnil, length_nil] at hlen
      omega
    · obtain ⟨rfl, rfl⟩ := List.cons.inj heq
      have hlt : m.buf.length < p.length :=
        lt_of_le_of_ne hpart₀.length_le fun heq => hne (hpart₀.eq_of_length heq)
      omega

end

end Packets
