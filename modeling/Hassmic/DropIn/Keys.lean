import Hassmic.DropIn.Aside

/-!
# Both sides of a call have one key

Echos of a network send each other messages, which may be lost, come late, twice and in any order.
A call's id is drawn by its caller, whose key for it goes into every invite; the callee takes a call
once, and every accept of it carries the key it drew for that.  A late copy of an invite for a call
that is over does not start it again, as long as the table of ended calls holds it.

So where a caller and a callee are live with each other under one id, each has derived the call's
key from the other's.

## Main definitions

* `Keyed` — what an Echo's keys and messages have to do with each other.
* `World`, `World.step`, `Allowed` — a network, and what may happen in it.

## Main results

* `keyed_step` — an Echo keeps it, whatever happens to it.
* `message_other` — a message of a third Echo, or about another call, changes nothing.
* `keys_agree` — **a caller and a callee that are live have the same key**, and opposite directions.
-/

namespace Hassmic.DropIn

open Byte List
open Function (update update_of_ne update_self)

/-- The shared secret is the same from both sides. -/
def Crypto.Commutes (C : Crypto) : Prop := ∀ a b, C.x25519 a (C.pub b) = C.x25519 b (C.pub a)

/-- The key of a call, from the network's key, the shared secret, the id and the two Echos. -/
def callKey (C : Crypto) (K shared : Key) (id caller callee : Id) : Key :=
  C.keyed K (shared.1 ++ (id.1 ++ (caller.1 ++ callee.1)))

/-! ### One Echo -/

/-- **What an Echo's keys and messages have to do with each other**: `N` are the messages there are
for it, by whom they are from, and `D` are the ids it has drawn for calls of its own. -/
structure Keyed (E : Env) (K : Key) (N : Id → Msg → Prop) (D : List Id) (s : Echo) : Prop where
  /-- What is sent again is a goodbye. -/
  bye : s.bye.m.kind = .bye
  /-- The last calls that ended are in the table. -/
  ended : s.ended = (s.past ++ replicate 4 (Blob.zero 8)).take 4
  calls : s.c.state = .calling → s.c.outgoing = true
  rings : s.c.state = .ringing → s.c.outgoing = false
  epk : s.c.state ≠ .idle → s.c.epk = E.crypto.pub s.c.esk
  drawn : s.c.state ≠ .idle → s.c.outgoing = true → s.c.id ∈ D
  /-- A caller that is live has derived its key from an accept. -/
  caller : s.c.state = .live → s.c.outgoing = true → ∃ m, N s.c.peer m ∧ m.kind = .accept ∧
    m.id = s.c.id ∧
    s.c.key = callKey E.crypto K (E.crypto.x25519 s.c.esk m.epk) s.c.id E.selfId s.c.peer
  /-- A callee has derived its key from an invite, and the call was new. -/
  callee : s.c.state ≠ .idle → s.c.outgoing = false → s.c.id ∉ s.past ∧
    ∃ m, N s.c.peer m ∧ m.kind = .invite ∧ m.id = s.c.id ∧
      s.c.key = callKey E.crypto K (E.crypto.x25519 s.c.esk m.epk) s.c.id s.c.peer E.selfId
  /-- An accept is about the call that is live, or one that is over. -/
  accepts : ∀ x ∈ s.sent, x.2.kind = .accept →
    (s.c.state = .live ∧ s.c.outgoing = false ∧ s.c.id = x.2.id ∧
      s.c.epk = x.2.epk) ∨ x.2.id ∈ s.past
  /-- An invite is about a call of ours, and carries its key. -/
  invites : ∀ x ∈ s.sent, x.2.kind = .invite → x.2.id ∈ D ∧
    (s.c.state ≠ .idle → s.c.outgoing = true → s.c.id = x.2.id → s.c.epk = x.2.epk)

/-- What of an Echo its keys and messages are about. -/
structure SameKeys (s s' : Echo) : Prop where
  bye : s.bye.m.kind = .bye → s'.bye.m.kind = .bye
  ended : s'.ended = s.ended
  past : s'.past = s.past
  state : s'.c.state = s.c.state
  outgoing : s'.c.outgoing = s.c.outgoing
  id : s'.c.id = s.c.id
  peer : s'.c.peer = s.c.peer
  esk : s'.c.esk = s.c.esk
  epk : s'.c.epk = s.c.epk
  key : s'.c.key = s.c.key

/-- All that keys and messages are about, but for what is sent. -/
def Echo.keys (s : Echo) : Kind × List Id × List Id × Phase × Bool × Id × Id × Key × Key × Key :=
  (s.bye.m.kind, s.ended, s.past, s.c.state, s.c.outgoing, s.c.id, s.c.peer, s.c.esk,
    s.c.epk, s.c.key)

section

variable {E : Env} {K : Key} {N : Id → Msg → Prop} {D : List Id} {s s' : Echo}

theorem SameKeys.of_eq (h : s'.keys = s.keys) : SameKeys s s' := by
  simp only [Echo.keys, Prod.mk.injEq] at h
  obtain ⟨hbye, hkept⟩ := h
  obtain ⟨hended, hpast, hstate, hout, hid, hpeer, hesk, hepk, hkey⟩ := hkept
  exact ⟨hbye.trans, hended, hpast, hstate, hout, hid, hpeer, hesk, hepk, hkey⟩

/-- Messages may be sent as long as accepts are about the call that is live, and invites about a
call of ours. -/
theorem Keyed.same (h : Keyed E K N D s) (hs : SameKeys s s')
    (hsent : ∀ x ∈ s'.sent, x ∈ s.sent ∨
      (x.2.kind = .accept → s.c.state = .live ∧ s.c.outgoing = false ∧ s.c.id = x.2.id ∧
        s.c.epk = x.2.epk) ∧
      (x.2.kind = .invite → s.c.state ≠ .idle ∧ s.c.outgoing = true ∧ s.c.id = x.2.id ∧
        s.c.epk = x.2.epk)) : Keyed E K N D s' := by
  obtain ⟨hbye, hended, hpast, hstate, hout, hid, hpeer, hesk, hepk, hkey⟩ := hs
  refine ⟨?_, ?_, ?_, ?_, ?_, ?_, ?_, ?_, fun x hx hk => ?_, fun x hx hk => ?_⟩
  · exact hbye h.bye
  · rw [hended, hpast]
    exact h.ended
  · rw [hstate, hout]
    exact h.calls
  · rw [hstate, hout]
    exact h.rings
  · rw [hstate, hepk, hesk]
    exact h.epk
  · rw [hstate, hout, hid]
    exact h.drawn
  · rw [hstate, hout, hid, hpeer, hesk, hkey]
    exact h.caller
  · rw [hstate, hout, hid, hpeer, hesk, hkey, hpast]
    exact h.callee
  · rw [hstate, hout, hid, hepk, hpast]
    rcases hsent x hx with hold | ⟨hacc, -⟩
    · exact h.accepts x hold hk
    · exact .inl (hacc hk)
  · rw [hstate, hout, hid, hepk]
    rcases hsent x hx with hold | ⟨-, hinv⟩
    · exact h.invites x hold hk
    · obtain ⟨hne, ho, hi, he⟩ := hinv hk
      exact ⟨hi ▸ h.drawn hne ho, fun _ _ _ => he⟩

/-- Nothing is sent. -/
theorem Keyed.still (h : Keyed E K N D s) (hs : SameKeys s s') (hsent : s'.sent = s.sent) :
    Keyed E K N D s' :=
  h.same hs fun _ hx => .inl (hsent ▸ hx)

/-- A message that is neither an accept nor an invite may be sent. -/
theorem Keyed.tells (h : Keyed E K N D s) (hs : SameKeys s s') {dest : Id} {m : Msg}
    (hsent : s'.sent = s.sent ++ [(dest, m)]) (hacc : m.kind ≠ .accept) (hinv : m.kind ≠ .invite) :
    Keyed E K N D s' := by
  refine h.same hs fun x hx => ?_
  rw [hsent] at hx
  rcases mem_append.mp hx with hx | hx
  · exact .inl hx
  · obtain rfl := mem_singleton.mp hx
    exact .inr ⟨fun hk => absurd hk hacc, fun hk => absurd hk hinv⟩

theorem sameKeys_evPush (state : Option Phase) (node : Bytes) (outgoing : Bool)
    (result : Option Result) (here : Bool) :
    SameKeys s (s.evPush state node outgoing result here) ∧
      (s.evPush state node outgoing result here).sent = s.sent := by
  rw [Echo.evPush]
  split
  · exact ⟨.of_eq rfl, rfl⟩
  · exact ⟨.of_eq rfl, rfl⟩

theorem keyed_evPush (h : Keyed E K N D s) (state : Option Phase) (node : Bytes) (outgoing : Bool)
    (result : Option Result) (here : Bool) :
    Keyed E K N D (s.evPush state node outgoing result here) :=
  h.still (sameKeys_evPush ..).1 (sameKeys_evPush ..).2

/-- **A call that ends** goes into the table, and its accepts are about a call that is over. -/
theorem keyed_endCall (h : Keyed E K N D s) (now : ℤ) (why : Bytes) (tell : Bool)
    (r : Option Result) :
    Keyed E K N D (s.endCall E now why tell r) := by
  rw [Echo.endCall]
  split
  · exact h
  · extract_lets t b u
    have ht : Keyed E K N D t := keyed_evPush h ..
    have hu : Keyed E K N D u := by
      cases tell with
      | false => exact ht
      | true =>
        exact ht.tells ⟨fun _ => rfl, rfl, rfl, rfl, rfl, rfl, rfl, rfl, rfl, rfl⟩ rfl
          (by rintro ⟨⟩) (by rintro ⟨⟩)
    refine ⟨hu.bye, ?_, by rintro ⟨⟩, by rintro ⟨⟩, absurd rfl,
      absurd rfl, by rintro ⟨⟩, absurd rfl, fun x hx hk => .inr ?_, fun x hx hk => ?_⟩
    · show (u.c.id :: u.ended).take 4 = (u.c.id :: u.past ++ replicate 4 (Blob.zero 8)).take 4
      rw [hu.ended]
      simp [take_take]
    · rcases hu.accepts x hx hk with ⟨-, -, hid, -⟩ | hpast
      · exact hid ▸ mem_cons_self
      · exact mem_cons_of_mem _ hpast
    · exact ⟨(hu.invites x hx hk).1, absurd rfl⟩

/-- What an Echo has before it answers a call that came in, or takes one. -/
structure Taking (E : Env) (K : Key) (N : Id → Msg → Prop) (s : Echo) : Prop where
  state : s.c.state ≠ .live
  outgoing : s.c.outgoing = false
  epk : s.c.epk = E.crypto.pub s.c.esk
  new : s.c.id ∉ s.past
  key : ∃ m, N s.c.peer m ∧ m.kind = .invite ∧ m.id = s.c.id ∧
    s.c.key = callKey E.crypto K (E.crypto.x25519 s.c.esk m.epk) s.c.id s.c.peer E.selfId

/-- A call that is answered: its accept carries the key of the call. -/
theorem keyed_answer (h : Keyed E K N D s) (ht : Taking E K N s) (now : ℤ) :
    Keyed E K N D (s.answer E now) := by
  have hs := sameKeys_evPush (s := s.sendMsg E .accept []) (some .live) s.c.node s.c.outgoing
    (if s.c.outgoing then some .connected else none) false
  have hbye : (s.answer E now).bye.m.kind = .bye := hs.1.bye h.bye
  have hended : (s.answer E now).ended = s.ended := hs.1.ended
  have hpast : (s.answer E now).past = s.past := hs.1.past
  have hlive : (s.answer E now).c.state = .live := rfl
  have hout : (s.answer E now).c.outgoing = s.c.outgoing := hs.1.outgoing
  have hid : (s.answer E now).c.id = s.c.id := hs.1.id
  have hpeer : (s.answer E now).c.peer = s.c.peer := hs.1.peer
  have hesk : (s.answer E now).c.esk = s.c.esk := hs.1.esk
  have hepk : (s.answer E now).c.epk = s.c.epk := hs.1.epk
  have hkey : (s.answer E now).c.key = s.c.key := hs.1.key
  have hsent : (s.answer E now).sent = s.sent ++ [(s.c.peer, s.msg E .accept [])] := hs.2
  have hnot : (s.answer E now).c.outgoing = true → False := by
    rw [hout, ht.outgoing]
    exact fun h => absurd h (by decide)
  refine ⟨hbye, ?_, nofun, nofun,
    fun _ => ?_, fun _ ho => (hnot ho).elim, fun _ ho => (hnot ho).elim, fun _ _ =>
    ?_, fun x hx hk => ?_, fun x hx hk => ?_⟩
  · rw [hended, hpast]
    exact h.ended
  · rw [hepk, hesk]
    exact ht.epk
  · rw [hid, hpast, hpeer, hkey, hesk]
    exact ⟨ht.new, ht.key⟩
  · rw [hlive, hout, hid, hepk, hpast]
    rw [hsent] at hx
    rcases mem_append.mp hx with hx | hx
    · rcases h.accepts x hx hk with ⟨hlive, -⟩ | hover
      · exact absurd hlive ht.state
      · exact .inr hover
    · obtain rfl := mem_singleton.mp hx
      exact .inl ⟨rfl, ht.outgoing, rfl, rfl⟩
  · rw [hsent] at hx
    rcases mem_append.mp hx with hx | hx
    · exact ⟨(h.invites x hx hk).1, fun _ ho => (hnot ho).elim⟩
    · obtain rfl := mem_singleton.mp hx
      exact nomatch hk

/-- A call that is taken rings or connects. -/
theorem keyed_take (h : Keyed E K N D s) (ht : Taking E K N s) (now : ℤ) :
    Keyed E K N D (s.take E now) := by
  rw [Echo.take]
  split
  · have hring : Keyed E K N D { s with c := { s.c with state := .ringing } } := by
      refine ⟨h.bye, h.ended, by rintro ⟨⟩, fun _ => ht.outgoing, fun _ => ht.epk, fun _ ho =>
        ?_, by rintro ⟨⟩, fun _ _ => ⟨ht.new, ht.key⟩, fun x hx hk => ?_, fun x hx hk => ?_⟩
      · exact absurd (ho.symm.trans ht.outgoing) (by decide)
      · rcases h.accepts x hx hk with ⟨hlive, -⟩ | hover
        · exact absurd hlive ht.state
        · exact .inr hover
      · exact ⟨(h.invites x hx hk).1, fun _ ho => absurd (ho.symm.trans ht.outgoing) (by decide)⟩
    exact (keyed_evPush hring ..).tells (.of_eq rfl) rfl (by rintro ⟨⟩) (by rintro ⟨⟩)
  · exact keyed_answer h ht now

/-- A new call, before anything is known of it. -/
theorem keyed_fresh (h : Keyed E K N D s) (hidle : s.c.state = .idle) {c : Call}
    (hc : c.state = .idle) : Keyed E K N D { s with c := c } := by
  refine ⟨h.bye, h.ended, fun hl => ?_, fun hl => ?_, fun hne => absurd hc hne,
    fun hne => absurd hc hne, fun hl => ?_, fun hne => absurd hc hne, fun x hx hk => ?_,
    fun x hx hk => ?_⟩
  · exact absurd (hc.symm.trans hl) (by decide)
  · exact absurd (hc.symm.trans hl) (by decide)
  · exact absurd (hc.symm.trans hl) (by decide)
  · rcases h.accepts x hx hk with ⟨hlive, -⟩ | hover
    · exact absurd (hidle.symm.trans hlive) (by decide)
    · exact .inr hover
  · exact ⟨(h.invites x hx hk).1, fun hne => absurd hc hne⟩

/-- More messages, and more ids that were drawn. -/
theorem Keyed.mono (h : Keyed E K N D s) {N' : Id → Msg → Prop} {D' : List Id}
    (hN : ∀ peer m, N peer m → N' peer m) (hD : D ⊆ D') : Keyed E K N' D' s where
  bye := h.bye
  ended := h.ended
  calls := h.calls
  rings := h.rings
  epk := h.epk
  drawn hne ho := hD (h.drawn hne ho)
  caller hl ho := by
    obtain ⟨m, hm, hrest⟩ := h.caller hl ho
    exact ⟨m, hN _ m hm, hrest⟩
  callee hne ho := by
    obtain ⟨hnew, m, hm, hrest⟩ := h.callee hne ho
    exact ⟨hnew, m, hN _ m hm, hrest⟩
  accepts := h.accepts
  invites x hx hk := ⟨hD (h.invites x hx hk).1, (h.invites x hx hk).2⟩

/-- As long as no more calls have ended than the table holds, they are all in it. -/
theorem Keyed.mem_ended (h : Keyed E K N D s) (hroom : s.past.length ≤ 4) {id : Id}
    (hid : id ∈ s.past) : id ∈ s.ended := by
  rw [h.ended, take_append]
  exact mem_append_left _ (by rwa [take_of_length_le hroom])

/-- **A caller that connects** has derived its key from the accept. -/
theorem keyed_connect (h : Keyed E K N D s) (hcall : s.c.state = .calling)
    (hkey : ∃ m, N s.c.peer m ∧ m.kind = .accept ∧ m.id = s.c.id ∧
      s.c.key = callKey E.crypto K (E.crypto.x25519 s.c.esk m.epk)
        s.c.id E.selfId s.c.peer) (now : ℤ) :
    Keyed E K N D (s.goLive now) := by
  have hs := sameKeys_evPush (s := s) (some .live) s.c.node s.c.outgoing
    (if s.c.outgoing then some .connected else none) false
  have hne : s.c.state ≠ .idle := by rw [hcall]; decide
  have hout := h.calls hcall
  have hlive : (s.goLive now).c.state = .live := rfl
  have ho : (s.goLive now).c.outgoing = s.c.outgoing := hs.1.outgoing
  have hid : (s.goLive now).c.id = s.c.id := hs.1.id
  have hpeer : (s.goLive now).c.peer = s.c.peer := hs.1.peer
  have hesk : (s.goLive now).c.esk = s.c.esk := hs.1.esk
  have hepk : (s.goLive now).c.epk = s.c.epk := hs.1.epk
  have hkeys : (s.goLive now).c.key = s.c.key := hs.1.key
  have hpast : (s.goLive now).past = s.past := hs.1.past
  have hended : (s.goLive now).ended = s.ended := hs.1.ended
  have hsent : (s.goLive now).sent = s.sent := hs.2
  refine ⟨hs.1.bye h.bye, ?_, nofun, nofun, fun _ => ?_, fun _ _ => ?_, fun _ _ =>
    ?_, fun _ hnot => ?_, fun x hx hk => ?_, fun x hx hk => ?_⟩
  · rw [hended, hpast]
    exact h.ended
  · rw [hepk, hesk]
    exact h.epk hne
  · rw [hid]
    exact h.drawn hne hout
  · rw [hid, hpeer, hesk, hkeys]
    exact hkey
  · rw [ho, hout] at hnot
    exact absurd hnot (by decide)
  · rw [hsent] at hx
    rw [hpast]
    rcases h.accepts x hx hk with ⟨hl, -⟩ | hover
    · exact absurd (hcall.symm.trans hl) (by decide)
    · exact .inr hover
  · rw [hsent] at hx
    rw [hid, hepk]
    obtain ⟨hd, hsame⟩ := h.invites x hx hk
    exact ⟨hd, fun _ _ hi => hsame hne hout hi⟩

/-- What `derive` makes, where it makes anything. -/
theorem deriveKey_eq_some {key epk : Key} (h : s.deriveKey E (some K) epk = some key) :
    key = callKey E.crypto K (E.crypto.x25519 s.c.esk epk) s.c.id
      (if s.c.outgoing then E.selfId else s.c.peer)
        (if s.c.outgoing then s.c.peer else E.selfId) := by
  simp only [Echo.deriveKey, Option.bind_some] at h
  split at h
  · exact nomatch h
  · exact (Option.some.inj h).symm

theorem keyed_invited (h : Keyed E K N D s) (hroom : s.past.length ≤ 4) (esk : Key)
    (no : Option Bytes) (peer : Id) (node : Bytes) (ip : UInt32) {m : Msg} (hk : m.kind = .invite)
    (hm : N peer m) (now : ℤ) :
    Keyed E K N D (s.invited E (some K) esk no peer node ip m now) := by
  unfold Echo.invited
  split
  · exact h
  · rename_i hnew
    split
    · exact h.tells (.of_eq rfl) rfl nofun nofun
    · rename_i hfree
      have hidle : s.c.state = .idle := by
        by_contra hstate
        exact hfree (.inr (.inr (.inl hstate)))
      extract_lets t c u
      have hu : Keyed E K N D u := keyed_fresh h hidle hidle
      split
      · have htold : Keyed E K N D (u.sendTo E peer m.id .refuse (text "no key")) :=
          hu.tells (.of_eq rfl) rfl nofun nofun
        exact keyed_fresh htold hidle rfl
      · rename_i key hkey
        have hv : Keyed E K N D { u with c := { u.c with key := key, keyed := true } } :=
          keyed_fresh hu hidle hidle
        refine keyed_take hv ⟨?_, rfl, rfl, ?_, m, hm, hk, rfl, ?_⟩ now
        · show s.c.state ≠ .live
          rw [hidle]
          decide
        · exact fun hpast => hnew (h.mem_ended hroom hpast)
        · exact deriveKey_eq_some hkey

theorem keyed_message (h : Keyed E K N D s) (hroom : s.past.length ≤ 4) (esk : Key)
    (no : Option Bytes) (peer : Id) (node : Bytes) (ip : UInt32) {m : Msg}
    (hm : N peer m) (now : ℤ) :
    Keyed E K N D (s.message E (some K) esk no peer node ip m now) := by
  unfold Echo.message
  split
  · rename_i hk
    split
    · rename_i hsame
      extract_lets c t
      split
      · -- the accept again, as it was
        rename_i hlive
        refine h.same (.of_eq rfl) fun x hx => ?_
        rcases mem_append.mp hx with hx | hx
        · exact .inl hx
        · obtain rfl := mem_singleton.mp hx
          exact .inr ⟨fun _ => ⟨hlive, hsame.2, rfl, rfl⟩, nofun⟩
      · split
        · exact h.tells (.of_eq rfl) rfl nofun nofun
        · exact h.still (.of_eq rfl) rfl
    · exact keyed_invited h hroom esk no peer node ip hk hm now
  · split
    · dsimp only
      split
      · exact h.still (.of_eq rfl) rfl
      · have hpush := keyed_evPush h none s.c.node true (some .ringing) false
        exact hpush.still (.of_eq rfl) rfl
    · exact h
  · rename_i hk
    split
    · rename_i hsame
      obtain ⟨⟨-, hid, hpeer⟩, hout, hcall⟩ := hsame
      extract_lets c t
      have ht : Keyed E K N D t := h.still (.of_eq rfl) rfl
      generalize hgen : (if m.port = 0 then none else t.deriveKey E (some K) m.epk) = key
      cases key with
      | none => exact keyed_endCall ht now _ true _
      | some key =>
        split at hgen
        · exact nomatch hgen
        · have hkey := deriveKey_eq_some hgen
          have hto : t.c.outgoing = true := hout
          rw [hto, if_pos rfl, if_pos rfl] at hkey
          refine keyed_connect
            (s := { t with c := { t.c with key := key, keyed := true } }) ?_ hcall
            ⟨m, hpeer ▸ hm, hk, hid.symm, hkey⟩ now
          -- the key does not count before the call is live
          refine ⟨h.bye, h.ended, h.calls, h.rings, h.epk, h.drawn, fun hl => ?_, fun _ ho => ?_,
            h.accepts, h.invites⟩
          · exact absurd (hcall.symm.trans hl) (by decide)
          · exact absurd (hout.symm.trans ho) (by decide)
    · exact h
  · split
    · exact keyed_endCall h now _ false _
    · exact h
  · split
    · exact keyed_endCall h now _ false _
    · exact h

/-- An invite goes out again, or for the first time: it carries the call's key. -/
theorem keyed_invite (h : Keyed E K N D s) (hcall : s.c.state = .calling) (hs : SameKeys s s')
    (hsent : s'.sent = s.sent ++ [(s.c.peer, s.msg E .invite [])]) : Keyed E K N D s' := by
  refine h.same hs fun x hx => ?_
  rw [hsent] at hx
  rcases mem_append.mp hx with hx | hx
  · exact .inl hx
  · obtain rfl := mem_singleton.mp hx
    exact .inr ⟨nofun, fun _ => ⟨by rw [hcall]; decide, h.calls hcall, rfl, rfl⟩⟩

theorem keyed_tickCall (h : Keyed E K N D s) (now : ℤ) : Keyed E K N D (s.tickCall E now) := by
  unfold Echo.tickCall
  cases hstate : s.c.state with
  | idle => exact h
  | calling =>
    dsimp only
    split
    · exact h
    · split
      · exact keyed_endCall h now _ true _
      · split
        · exact keyed_endCall h now _ true _
        · generalize (if s.c.rang = true then (1000 : ℤ) else inviteMs) = gap
          split
          · exact keyed_invite h hstate (.of_eq rfl) rfl
          · exact h
  | ringing =>
    dsimp only
    split
    · have htold : Keyed E K N D (s.sendMsg E .refuse (text "not answered")) :=
        h.tells (.of_eq rfl) rfl nofun nofun
      exact keyed_endCall htold now _ false _
    · split
      · exact keyed_endCall h now _ false _
      · exact h
  | live =>
    dsimp only
    split
    · exact keyed_endCall h now _ true _
    · exact h

theorem keyed_tick (h : Keyed E K N D s) (now : ℤ) : Keyed E K N D (s.tick E now) := by
  have hcall := keyed_tickCall h now
  unfold Echo.tick
  extract_lets t
  split
  · refine hcall.tells (.of_eq rfl) rfl ?_ ?_
    · rw [hcall.bye]
      decide
    · rw [hcall.bye]
      decide
  · exact hcall

theorem keyed_tellDone (h : Keyed E K N D s) (now : ℤ) : Keyed E K N D (s.tellDone E now) := by
  unfold Echo.tellDone
  split
  · exact h
  · dsimp only
    split
    · rename_i hcall
      exact keyed_invite h hcall.2.1 (.of_eq rfl) rfl
    · exact h.still (.of_eq rfl) rfl

/-- A call of ours has an id that was not drawn before. -/
theorem keyed_dropinCall (h : Keyed E K N D s) (node : Bytes) (member : Option (Id × UInt32))
    (muted : Bool) (esk : Key) {id : Id} (hid : id ∉ D) (now : ℤ) :
    Keyed E K N (D ++ [id]) (s.dropinCall E node member muted esk id now) := by
  have hmono : Keyed E K N (D ++ [id]) s := h.mono (fun _ _ hm => hm) (subset_append_left _ _)
  unfold Echo.dropinCall
  split
  · exact keyed_evPush hmono ..
  · rename_i hfree
    split
    · exact hmono
    · have hidle : s.c.state = .idle := by
        by_contra hstate
        rw [Echo.callRefused] at hfree
        simp only [hstate, ne_eq, not_false_eq_true, if_true] at hfree
        repeat' split at hfree
        all_goals exact absurd hfree (by simp)
      extract_lets t c u
      have hu : Keyed E K N (D ++ [id]) u := by
        refine ⟨hmono.bye, hmono.ended, fun _ => rfl, nofun,
          fun _ => rfl, fun _ _ => ?_, nofun, nofun, fun x hx hk => ?_, fun x hx hk => ?_⟩
        · exact mem_append_right _ mem_cons_self
        · rcases h.accepts x hx hk with ⟨hl, -⟩ | hover
          · exact absurd (hidle.symm.trans hl) (by decide)
          · exact .inr hover
        · obtain ⟨hd, -⟩ := h.invites x hx hk
          refine ⟨mem_append_left _ hd, fun _ _ hi => absurd hd ?_⟩
          have hsame : id = x.2.id := hi
          rwa [← hsame]
      exact keyed_evPush hu ..

/-- A ringing call has all it takes to be answered. -/
theorem Keyed.taking (h : Keyed E K N D s) (hring : s.c.state = .ringing) : Taking E K N s := by
  have hne : s.c.state ≠ .idle := by rw [hring]; decide
  obtain ⟨hnew, hkey⟩ := h.callee hne (h.rings hring)
  exact ⟨by rw [hring]; decide, h.rings hring, h.epk hne, hnew, hkey⟩

end

/-- The ids drawn in a step. -/
def Event.drawn : Event → List Id
  | .call _ _ _ _ id _ => [id]
  | _ => []

/-- What may happen to an Echo of a network: the key is the network's, its messages are among those
there are, and the ids it draws are new. -/
def Event.Honest (K : Key) (N : Id → Msg → Prop) (D : List Id) : Event → Prop
  | .message kd _ _ peer _ _ p _ => kd = some K ∧ ∀ m, Msg.parse p = some m → N peer m
  | .call _ _ _ _ id _ => id ∉ D
  | _ => True

section

variable {E : Env} {K : Key} {N : Id → Msg → Prop} {D : List Id} {s : Echo}

/-- **An Echo keeps what its keys and messages have to do with each other**, whatever happens to
it. -/
theorem keyed_step (h : Keyed E K N D s) (hroom : s.past.length ≤ 4) {e : Event}
    (he : e.Honest K N D) :
    Keyed E K N (D ++ e.drawn) (s.step E e) := by
  have hnil : ∀ {t : Echo}, Keyed E K N D t → Keyed E K N (D ++ []) t := by
    intro t ht
    rwa [append_nil]
  cases e with
  | enable on now =>
    refine hnil ?_
    rw [Echo.step, Echo.dropinEnable]
    split
    · exact h
    · have hset : Keyed E K N D { s with enabled := on } :=
        h.still (.of_eq rfl) rfl
      split
      · exact hset
      · exact keyed_endCall hset now _ true _
  | ask on => exact hnil (h.still (.of_eq rfl) rfl)
  | call node member muted esk id now => exact keyed_dropinCall h node member muted esk he now
  | hangup why now =>
    refine hnil ?_
    rw [Echo.step, Echo.dropinHangup]
    split
    · have htold : Keyed E K N D (s.sendMsg E .refuse (text "declined")) :=
        h.tells (.of_eq rfl) rfl (by rintro ⟨⟩) (by rintro ⟨⟩)
      exact keyed_endCall htold now _ false _
    · exact keyed_endCall h now _ _ _
  | answer now =>
    refine hnil ?_
    rw [Echo.step, Echo.dropinAnswer]
    split
    · rename_i hring
      exact keyed_answer h (h.taking hring) now
    · exact h
  | button now =>
    refine hnil ?_
    rw [Echo.step, Echo.dropinButton]
    split
    · rename_i hring
      exact keyed_answer h (h.taking hring) now
    · exact keyed_endCall h now _ true _
  | message kd esk no peer node ip p now =>
    refine hnil ?_
    obtain ⟨rfl, hm⟩ := he
    rw [Echo.step, Echo.dropinMessage]
    split
    · exact h
    · rename_i m hparse
      exact keyed_message h hroom esk no peer node ip (hm m hparse) now
  | tellPop =>
    refine hnil ?_
    rw [Echo.step, Echo.tellPop]
    split
    · exact h.still (.of_eq rfl) rfl
    · exact h
  | tellDone now => exact hnil (keyed_tellDone h now)
  | tick now => exact hnil (keyed_tick h now)
  | audio p ip port now =>
    refine hnil ?_
    unfold Echo.step Echo.onAudio
    generalize (if s.c.outgoing = true then (1 : UInt8) else 0) = dir
    dsimp only
    split
    · exact h
    · split
      · exact h
      · split
        · exact h
        · split
          · exact h
          · exact h.still (.of_eq rfl) rfl
  | frame =>
    refine hnil ?_
    rw [Echo.step, Echo.sendFrame]
    split
    · exact h
    · exact h.still (.of_eq rfl) rfl
  | playoutOpen now =>
    refine hnil ?_
    rw [Echo.step, Echo.playoutOpen]
    split
    · split
      · exact h.still (.of_eq rfl) rfl
      · exact h
    · exact h
  | playoutFrame now =>
    refine hnil ?_
    unfold Echo.step Echo.playoutFrame
    dsimp only
    split
    · exact h
    · split
      · exact h.still (.of_eq rfl) rfl
      · split
        · exact h.still (.of_eq rfl) rfl
        · exact h.still (.of_eq rfl) rfl

/-- **A message of a third Echo, or about another call, changes nothing** of a call that runs: at
most it is refused. -/
theorem message_other {kd : Option Key} {esk : Key} {no : Option Bytes} {peer : Id} {node : Bytes}
    {ip : UInt32} {p : Bytes} {now : ℤ} (hruns : s.c.state ≠ .idle)
    (hother : ∀ m, Msg.parse p = some m → peer ≠ s.c.peer ∨ m.id ≠ s.c.id) :
    ∃ l, s.dropinMessage E kd esk no peer node ip p now = { s with sent := s.sent ++ l } ∧
      ∀ x ∈ l, x.1 = peer ∧ x.2.kind = .refuse := by
  have hnone : ∃ l, s = { s with sent := s.sent ++ l } ∧ ∀ x ∈ l, x.1 = peer ∧ x.2.kind = .refuse :=
    ⟨[], by rw [append_nil], fun x hx => absurd hx not_mem_nil⟩
  rw [Echo.dropinMessage]
  split
  · exact hnone
  · rename_i m hparse
    have hnot : ¬ s.same peer m := by
      rintro ⟨-, hid, hpeer⟩
      rcases hother m hparse with h | h
      · exact h hpeer.symm
      · exact h hid.symm
    unfold Echo.message
    split
    · rw [if_neg fun h => hnot h.1]
      unfold Echo.invited
      split
      · exact hnone
      · rw [if_pos (.inr (.inr (.inl hruns)))]
        refine ⟨[(peer, _)], rfl, fun x hx => ?_⟩
        rw [mem_singleton.mp hx]
        exact ⟨rfl, rfl⟩
    · rw [if_neg fun h => hnot h.1]
      exact hnone
    · rw [if_neg fun h => hnot h.1]
      exact hnone
    · rw [if_neg fun h => hnot h.1]
      exact hnone
    · rw [if_neg hnot]
      exact hnone

/-- What an Echo has sent stays sent. -/
theorem sent_step (e : Event) : s.sent <+: (s.step E e).sent := by
  by_cases he : e.Aside
  · exact (carries_step e he).sent
  · cases e with
    | audio p ip port now =>
      unfold Echo.step Echo.onAudio
      generalize (if s.c.outgoing = true then (1 : UInt8) else 0) = dir
      dsimp only
      repeat' split
      all_goals exact prefix_rfl
    | playoutOpen now =>
      rw [Echo.step, Echo.playoutOpen]
      repeat' split
      all_goals exact prefix_rfl
    | playoutFrame now =>
      unfold Echo.step Echo.playoutFrame
      dsimp only
      repeat' split
      all_goals exact prefix_rfl
    | _ => exact absurd trivial he

end

/-! ### A network -/

/-- The Echos of a network, and the ids each has drawn. -/
structure World (ι : Type*) where
  echo : ι → Echo := fun _ => {}
  drawn : ι → List Id := fun _ => []

section

variable {ι : Type*} [DecidableEq ι] (E : ι → Env) (K : Key)

/-- Something happens to an Echo. -/
def World.step (w : World ι) (a : ι × Event) : World ι where
  echo := update w.echo a.1 ((w.echo a.1).step (E a.1) a.2)
  drawn := update w.drawn a.1 (w.drawn a.1 ++ a.2.drawn)

/-- The messages there are for an Echo: all that were ever sent to it, as they are read. -/
def World.inbox (w : World ι) (i : ι) (peer : Id) (m : Msg) : Prop :=
  ∃ j m₀, (E j).selfId = peer ∧ ((E i).selfId, m₀) ∈ (w.echo j).sent ∧
    m = { m₀ with reason := clean (m₀.reason.take 60) }

/-- **What may happen in a network.**  A message that comes was sent by the member it is from to the
member it comes to: it may be lost, come late, come twice, and overtake others.  A call's id is new
to its caller, and no more calls have ended than the table of ended calls holds. -/
def Allowed (w : World ι) (a : ι × Event) : Prop :=
  (w.echo a.1).past.length ≤ 4 ∧
    match a.2 with
    | .message kd _ _ peer _ _ p _ => kd = some K ∧ ∃ j m, (E j).selfId = peer ∧
        ((E a.1).selfId, m) ∈ (w.echo j).sent ∧ p = m.bytes
    | .call _ _ _ _ id _ => id ∉ w.drawn a.1
    | _ => True

/-- A caller that is live in a call with a callee. -/
structure LiveWith (w : World ι) (i j : ι) (outgoing : Bool) : Prop where
  state : (w.echo i).c.state = .live
  outgoing : (w.echo i).c.outgoing = outgoing
  peer : (w.echo i).c.peer = (E j).selfId

variable {E K} {w : World ι}

omit [DecidableEq ι] in
theorem honest_of_allowed {a : ι × Event} (h : Allowed E K w a) :
    a.2.Honest K (w.inbox E a.1) (w.drawn a.1) := by
  obtain ⟨i, e⟩ := a
  have he := h.2
  cases e with
  | message kd esk no peer node ip p now =>
    obtain ⟨hkd, j, m, hpeer, hm, rfl⟩ := he
    refine ⟨hkd, fun m' hparse => ⟨j, m, hpeer, hm, ?_⟩⟩
    rw [Msg.parse_bytes] at hparse
    exact (Option.some.inj hparse).symm
  | call node member muted esk id now => exact he
  | _ => trivial

/-- All Echos keep what their keys and messages have to do with each other. -/
theorem keyed_world (h : ∀ i, Keyed (E i) K (w.inbox E i) (w.drawn i) (w.echo i)) {a : ι × Event}
    (ha : Allowed E K w a) (i : ι) :
    Keyed (E i) K ((w.step E a).inbox E i) ((w.step E a).drawn i) ((w.step E a).echo i) := by
  have hsent : ∀ j, (w.echo j).sent ⊆ ((w.step E a).echo j).sent := by
    intro j
    by_cases hj : j = a.1
    · subst hj
      have hecho : (w.step E a).echo a.1 = (w.echo a.1).step (E a.1) a.2 := update_self ..
      rw [hecho]
      exact (sent_step a.2).subset
    · have hecho : (w.step E a).echo j = w.echo j := update_of_ne hj ..
      rw [hecho]
      exact Subset.refl _
  have hinbox : ∀ peer m, w.inbox E i peer m → (w.step E a).inbox E i peer m := by
    rintro peer m ⟨j, m₀, hpeer, hm, heq⟩
    exact ⟨j, m₀, hpeer, hsent j hm, heq⟩
  by_cases hi : i = a.1
  · subst hi
    have hstep := keyed_step (h a.1) ha.1 (honest_of_allowed ha)
    have hecho : (w.step E a).echo a.1 = (w.echo a.1).step (E a.1) a.2 := update_self ..
    have hdrawn : (w.step E a).drawn a.1 = w.drawn a.1 ++ a.2.drawn := update_self ..
    rw [hecho, hdrawn]
    exact hstep.mono hinbox (Subset.refl _)
  · have hecho : (w.step E a).echo i = w.echo i := update_of_ne hi ..
    have hdrawn : (w.step E a).drawn i = w.drawn i := update_of_ne hi ..
    rw [hecho, hdrawn]
    exact (h i).mono hinbox (Subset.refl _)

omit [DecidableEq ι] in
theorem keyed_start (i : ι) :
    Keyed (E i) K (({} : World ι).inbox E i) (({} : World ι).drawn i) (({} : World ι).echo i) :=
  ⟨rfl, rfl, nofun, nofun, fun h => absurd rfl h, fun h => absurd rfl h, nofun,
    fun h => absurd rfl h, fun _ hx => absurd hx not_mem_nil, fun _ hx => absurd hx not_mem_nil⟩

/-- **Both sides of a call have one key**, and opposite directions: for whatever becomes of the
messages between Echos of a network.  And no message of a third Echo, or about another call, changes
a call that runs. -/
theorem keys_agree {C : Crypto} (hC : ∀ i, (E i).crypto = C) (hdh : C.Commutes)
    (hself : Function.Injective fun i => (E i).selfId) {l : List (ι × Event)}
    (hl : Runs.Each (World.step E) (Allowed E K) {} l) :
    let w := l.foldl (World.step E) {}
    (∀ i j, LiveWith E w i j true → LiveWith E w j i false → (w.echo i).c.id = (w.echo j).c.id →
      (w.echo i).c.key = (w.echo j).c.key ∧
      ∀ seq, ∃ r, (w.echo i).frameHeader seq = magic ++ ((w.echo i).c.id.1 ++ (0 :: r)) ∧
        (w.echo j).frameHeader seq = magic ++ ((w.echo i).c.id.1 ++ (1 :: r))) ∧
    ∀ i kd esk no peer node ip p now, (w.echo i).c.state ≠ .idle →
      (∀ m, Msg.parse p = some m → peer ≠ (w.echo i).c.peer ∨ m.id ≠ (w.echo i).c.id) →
      ∃ sent, (w.echo i).dropinMessage (E i) kd esk no peer node ip p now =
        { w.echo i with sent := (w.echo i).sent ++ sent } ∧
        ∀ x ∈ sent, x.1 = peer ∧ x.2.kind = .refuse := by
  intro w
  have hkeyed : ∀ i, Keyed (E i) K (w.inbox E i) (w.drawn i) (w.echo i) :=
    Runs.invariant (I := fun w => ∀ i, Keyed (E i) K (w.inbox E i) (w.drawn i) (w.echo i))
      (fun w a h ha => keyed_world h ha) keyed_start hl
  refine ⟨fun i j hi hj hid => ⟨?_, fun seq => ?_⟩,
    fun i kd esk no peer node ip p now => message_other⟩
  · have hki := hkeyed i
    have hkj := hkeyed j
    have hnei : (w.echo i).c.state ≠ .idle := by rw [hi.state]; decide
    have hnej : (w.echo j).c.state ≠ .idle := by rw [hj.state]; decide
    -- the caller's accept is from the callee, and about the call that is live there
    obtain ⟨a, ⟨j', a₀, hj', ha₀, rfl⟩, hak, haid, hkeyi⟩ := hki.caller hi.state hi.outgoing
    obtain rfl : j' = j := hself (hj'.trans hi.peer)
    obtain ⟨hnew, b, ⟨i', b₀, hi', hb₀, rfl⟩, hbk, hbid, hkeyj⟩ := hkj.callee hnej hj.outgoing
    obtain rfl : i' = i := hself (hi'.trans hj.peer)
    have haepk : (w.echo j').c.epk = a₀.epk := by
      rcases hkj.accepts _ ha₀ hak with ⟨-, -, -, hepk⟩ | hpast
      · exact hepk
      · exact absurd (haid.trans hid ▸ hpast) hnew
    -- the callee's invite is from the caller, and carries the key of the call
    have hbepk : (w.echo i').c.epk = b₀.epk :=
      (hki.invites _ hb₀ hbk).2 hnei hi.outgoing (hid.trans hbid.symm)
    rw [hkeyi, hkeyj, hi.peer, hj.peer, hC, hC, hid]
    dsimp only
    rw [← haepk, ← hbepk, hkj.epk hnej, hki.epk hnei, hC, hC, hdh]
  · refine ⟨Wire.le 4 seq.toNat, ?_, ?_⟩
    · rw [Echo.frameHeader, hi.outgoing]
      rfl
    · rw [Echo.frameHeader, hj.outgoing, hid]
      rfl

end

/-! ### On fixed inputs -/

theorem openCrypto_commutes : openCrypto.Commutes := by
  intro a b
  apply Subtype.ext
  exact zipWith_comm_of_comm fun x y => UInt8.xor_comm x y

/-- Two Echos. -/
def twoEnv (i : Bool) : Env where
  crypto := openCrypto
  selfId := Blob.fill 8 (if i then 2 else 1)
  nodeName := [if i then 2 else 1]
  myPort := 7

/-- The first Echo calls the second. -/
def twoCall : List (Bool × Event) :=
  [(false, .call [2] (some (Blob.fill 8 2, 10)) false (Blob.fill 32 3) (Blob.fill 8 5) 0),
    (false, .tellPop), (false, .tellDone 1),
    (true, .message (some (Blob.fill 32 9)) (Blob.fill 32 4) none (Blob.fill 8 1) [1] 11
      (Msg.bytes ⟨.invite, Blob.fill 8 5, 7, Blob.fill 32 3, []⟩) 2),
    (false, .message (some (Blob.fill 32 9)) (Blob.fill 32 6) none (Blob.fill 8 2) [2] 10
      (Msg.bytes ⟨.accept, Blob.fill 8 5, 7, Blob.fill 32 4, []⟩) 3)]

theorem keys_agree_twoCall :
    let w := twoCall.foldl (World.step twoEnv) {}
    LiveWith twoEnv w false true true ∧ LiveWith twoEnv w true false false ∧
      (w.echo false).c.key = (w.echo true).c.key := by
  intro w
  have hcaller : LiveWith twoEnv w false true true :=
    ⟨by decide, by decide, by decide⟩
  have hcallee : LiveWith twoEnv w true false false :=
    ⟨by decide, by decide, by decide⟩
  have hself : Function.Injective fun i => (twoEnv i).selfId := by decide
  -- the invite and the accept are among the messages sent
  have hl : Runs.Each (World.step twoEnv) (Allowed twoEnv (Blob.fill 32 9)) {} twoCall := by
    refine ⟨⟨by decide, ?_⟩, ⟨by decide, trivial⟩, ⟨by decide, trivial⟩,
      ⟨by decide, rfl, false, ⟨.invite, Blob.fill 8 5, 7, Blob.fill 32 3, []⟩, rfl, ?_, rfl⟩,
      ⟨by decide, rfl, true, ⟨.accept, Blob.fill 8 5, 7, Blob.fill 32 4, []⟩, rfl, ?_, rfl⟩,
      trivial⟩
    · exact not_mem_nil
    · decide
    · decide
  have hagree := (keys_agree (C := openCrypto) (fun _ => rfl) openCrypto_commutes hself hl).1
  exact ⟨hcaller, hcallee, (hagree false true hcaller hcallee (by decide)).1⟩

end Hassmic.DropIn
