import Hassmic.DropIn.Aside

/-!
# A packet of audio that comes again

A packet of a call is opened under the call's key, so nobody else makes one.  But the number of its
frame is only held against the newest one: a packet that was taken is taken again as long as it is
no more than 32 frames behind.  Then the call goes on with the address it came from this time, lives
on as of now, and the frame waits in the jitter buffer once more.

## Main definitions

* `Took` — the packets taken in the call that runs are under its key.
* `Unchanged` — what a packet that comes again must leave as it is.
* `Harmless` — the packets that do.

## Main results

* `took_run` — what was taken in a call can be opened for as long as it runs.
* `replay_iff` — **exactly when a packet that comes again has no effect**.
* `replay_moves` — a packet that comes again from elsewhere takes the call with it.
-/

namespace Hassmic.DropIn

open Function

/-! ### What was taken in the call that runs -/

/-- A packet can be opened in the call that runs. -/
structure Opens (E : Env) (s : Echo) (p : Bytes) (a : Packet) (d : Bytes) : Prop where
  parse : Packet.parse p = some a
  id : a.id = s.c.id
  dir : a.dir = if s.c.outgoing then 1 else 0
  unlock : E.crypto.unlock s.c.key a.nonce (magic ++ a.nonce) a.body = some d

/-- **The packets taken in the call that runs** are under its key. -/
def Took (E : Env) (s : Echo) : Prop :=
  s.c.state = .live → ∀ p ∈ s.taken, (∃ a d, Opens E s p a d) ∧ s.c.keyed = true ∧ s.jb.any = true

section

variable {E : Env} {s s' : Echo}

theorem Took.holds (h : Took E s) (hh : Holds s s') : Took E s' := by
  intro hlive p hp
  rcases hh hlive with hnil | ⟨hwas, hid, hkey, hkeyed, hout, htaken, hany⟩
  · rw [hnil] at hp
    exact absurd hp List.not_mem_nil
  · rw [htaken] at hp
    obtain ⟨⟨a, d, hopen⟩, hk, ha⟩ := h hwas p hp
    refine ⟨⟨a, d, hopen.parse, hid ▸ hopen.id, hout ▸ hopen.dir, hkey ▸ hopen.unlock⟩, ?_, ?_⟩
    · rw [hkeyed, hk]
    · rw [hany, ha]

/-- The playout leaves the call and the packets taken alone. -/
theorem holds_playout (e : Event) (now : ℤ) (he : e = .playoutOpen now ∨ e = .playoutFrame now) :
    Holds s (s.step E e) := by
  have hsame : ∀ t : Echo, t.c = s.c → t.taken = s.taken → t.jb.any = s.jb.any → Holds s t := by
    intro t hc htaken hany hlive
    rw [hc] at hlive
    exact .inr ⟨hlive, by rw [hc], by rw [hc], by rw [hc], by rw [hc], htaken, hany⟩
  rcases he with rfl | rfl
  · rw [Echo.step, Echo.playoutOpen]
    split
    · split
      · exact hsame _ rfl rfl rfl
      · exact hsame _ rfl rfl rfl
    · exact hsame _ rfl rfl rfl
  · rw [Echo.step]
    unfold Echo.playoutFrame
    split
    · exact hsame _ rfl rfl rfl
    · split
      · exact hsame _ rfl rfl rfl
      · extract_lets
        split
        · exact hsame _ rfl rfl rfl
        · exact hsame _ rfl rfl rfl

/-- A packet that is taken joins those taken; any other leaves the call as it is. -/
theorem took_onAudio (h : Took E s) (p : Bytes) (ip : UInt32) (port : UInt16) (now : ℤ) :
    Took E (s.onAudio E p ip port now) := by
  unfold Echo.onAudio
  split
  · exact h
  · rename_i a hparse
    by_cases hskip : s.c.state ≠ .live ∨ s.c.keyed = false ∨ a.id ≠ s.c.id ∨
        a.dir ≠ (if s.c.outgoing then 1 else 0)
    · rw [if_pos hskip]
      exact h
    · rw [if_neg hskip]
      push Not at hskip
      obtain ⟨hlive, hkeyed, hid, hdir⟩ := hskip
      split
      · exact h
      · split
        · exact h
        · rename_i d hopen
          intro _ q hq
          refine ⟨?_, by simpa using hkeyed, rfl⟩
          rcases List.mem_append.mp hq with hq | hq
          · obtain ⟨⟨b, e, hb⟩, -⟩ := h hlive q hq
            exact ⟨b, e, hb.parse, hb.id, hb.dir, hb.unlock⟩
          · rw [List.mem_singleton.mp hq]
            exact ⟨a, d, hparse, hid, hdir, hopen⟩

theorem took_step (h : Took E s) (e : Event) : Took E (s.step E e) := by
  by_cases he : e.Aside
  · exact h.holds (carries_step e he).holds
  · cases e with
    | audio p ip port now => exact took_onAudio h p ip port now
    | playoutOpen now => exact h.holds (holds_playout _ now (.inl rfl))
    | playoutFrame now => exact h.holds (holds_playout _ now (.inr rfl))
    | _ => exact absurd trivial he

/-- What was taken in a call can be opened for as long as it runs. -/
theorem took_run (E : Env) (es : List Event) : Took E (Echo.run E es) :=
  Runs.invariant_all (I := Took E) (fun _ e h => took_step h e)
    (fun hlive => absurd hlive (by decide))
    es

end

/-! ### A packet that comes again -/

/-- **What a packet that comes again must leave as it is**: where the other Echo is, when it was
last heard, and the jitter buffer. -/
structure Unchanged (s s' : Echo) : Prop where
  ip : s'.c.ip = s.c.ip
  port : s'.c.port = s.c.port
  rxAt : s'.c.rxAt = s.c.rxAt
  jb : s'.jb = s.jb

/-- Its frame still waits in its slot; its number is not beyond the newest, nor before the first. -/
def Waiting (s : Echo) (a : Packet) (d : Bytes) : Prop :=
  s.jb.slots (slotOf a.seq) = ⟨a.seq, a.body.length - 16, d⟩ ∧ ahead a.seq s.jb.hi ≤ 0 ∧
    0 ≤ ahead a.seq s.jb.lo

/-- **The packets that have no effect when they come again**: those far too old, and those that come
from where the other Echo is, in the very millisecond in which it was last heard, while the frame
still waits. -/
def Harmless (E : Env) (s : Echo) (p : Bytes) (ip : UInt32) (port : UInt16) (now : ℤ) : Prop :=
  ∃ a d, Opens E s p a d ∧ (ahead a.seq s.jb.hi < -jbSlots ∨
    ip = s.c.ip ∧ port = s.c.port ∧ now = s.c.rxAt ∧ Waiting s a d)

section

variable {E : Env} {s : Echo} {p : Bytes} {a : Packet} {d : Bytes}

/-- What a packet that can be opened does to the call. -/
theorem onAudio_opens (ho : Opens E s p a d) (hlive : s.c.state = .live) (hkeyed : s.c.keyed = true)
    (hany : s.jb.any = true) (ip : UInt32) (port : UInt16) (now : ℤ) :
    s.onAudio E p ip port now =
      if ahead a.seq s.jb.hi < -jbSlots then s
      else
        { s with
          jb :=
            { slots := update s.jb.slots (slotOf a.seq) ⟨a.seq, a.body.length - 16, d⟩
              hi := if 0 < ahead a.seq s.jb.hi then a.seq else s.jb.hi
              lo := if ahead a.seq s.jb.lo < 0 then a.seq else s.jb.lo
              any := true }
          c := { s.c with rxAt := now, ip := ip, port := port }
          taken := s.taken ++ [p] } := by
  unfold Echo.onAudio
  rw [ho.parse]
  dsimp only
  rw [if_neg (by simp [hlive, hkeyed, ho.id, ho.dir]), ho.unlock]
  simp only [hany, true_and, Bool.true_eq_false, false_or]

theorem ahead_self (x : UInt32) : ahead x x = 0 := by simp [ahead]

/-- **Exactly when a packet that comes again has no effect.** -/
theorem replay_iff (E : Env) (es : List Event) (p : Bytes) (hlive : (Echo.run E es).c.state = .live)
    (hp : p ∈ (Echo.run E es).taken) (ip : UInt32) (port : UInt16) (now : ℤ) :
    Unchanged (Echo.run E es) ((Echo.run E es).onAudio E p ip port now) ↔
      Harmless E (Echo.run E es) p ip port now := by
  obtain ⟨⟨a, d, ho⟩, hkeyed, hany⟩ := took_run E es hlive p hp
  generalize Echo.run E es = s at *
  rw [onAudio_opens ho hlive hkeyed hany]
  have hsame : ∀ b e, Opens E s p b e → b = a ∧ e = d := by
    intro b e hb
    obtain rfl : b = a := Option.some.inj (hb.parse.symm.trans ho.parse)
    exact ⟨rfl, Option.some.inj (hb.unlock.symm.trans ho.unlock)⟩
  constructor
  · intro hun
    refine ⟨a, d, ho, ?_⟩
    by_cases hold : ahead a.seq s.jb.hi < -jbSlots
    · exact .inl hold
    · rw [if_neg hold] at hun
      have hjb := hun.jb
      have hslot := congrArg (fun j => j.slots (slotOf a.seq)) hjb
      have hhi := congrArg Jitter.hi hjb
      have hlo := congrArg Jitter.lo hjb
      dsimp only at hslot hhi hlo
      rw [update_self] at hslot
      refine .inr ⟨hun.ip, hun.port, hun.rxAt, hslot.symm, ?_, ?_⟩
      · by_contra hnew
        rw [if_pos (not_le.mp hnew)] at hhi
        rw [← hhi, ahead_self] at hnew
        exact hnew le_rfl
      · by_contra hnew
        rw [if_pos (not_le.mp hnew)] at hlo
        rw [← hlo, ahead_self] at hnew
        exact hnew le_rfl
  · rintro ⟨b, e, hb, hcase⟩
    obtain ⟨rfl, rfl⟩ := hsame b e hb
    by_cases hold : ahead b.seq s.jb.hi < -jbSlots
    · rw [if_pos hold]
      exact ⟨rfl, rfl, rfl, rfl⟩
    · rw [if_neg hold]
      obtain ⟨rfl, rfl, rfl, hslot, hhi, hlo⟩ := hcase.resolve_left hold
      refine ⟨rfl, rfl, rfl, ?_⟩
      dsimp only
      rw [if_neg (not_lt.mpr hhi), if_neg (not_lt.mpr hlo), ← hslot, update_eq_self, ← hany]

end

/-! ### On fixed inputs -/

/-- An Echo with id 1, 1, .... -/
def openEnv : Env where
  crypto := openCrypto
  selfId := Blob.fill 8 1
  nodeName := [1]
  myPort := 7

/-- A packet of the call with id 5, 5, ..., from its caller. -/
def onePacket : Bytes :=
  magic ++ (Blob.fill 8 5).1 ++ [0] ++ Wire.le 4 0 ++ List.replicate 17 3

/-- A call comes in and connects, and a packet of audio is taken. -/
def oneCall : List Event :=
  [.message (some (Blob.fill 32 9)) (Blob.fill 32 1) none (Blob.fill 8 2) [2] 10
    (Msg.bytes ⟨.invite, Blob.fill 8 5, 7, Blob.fill 32 2, []⟩) 0,
    .audio onePacket 10 7 20]

theorem replay_iff_oneCall :
    (Echo.run openEnv oneCall).c.state = .live ∧ onePacket ∈ (Echo.run openEnv oneCall).taken ∧
      (Unchanged (Echo.run openEnv oneCall)
        ((Echo.run openEnv oneCall).onAudio openEnv onePacket 11 7 30) ↔
        Harmless openEnv (Echo.run openEnv oneCall) onePacket 11 7 30) := by
  have hlive : (Echo.run openEnv oneCall).c.state = .live := by decide
  have htaken : onePacket ∈ (Echo.run openEnv oneCall).taken := by decide
  exact ⟨hlive, htaken, replay_iff openEnv oneCall onePacket hlive htaken 11 7 30⟩

/-- **A packet that comes again from elsewhere takes the call with it.** -/
theorem replay_moves :
    ¬ ∀ E es p, (Echo.run E es).c.state = .live → p ∈ (Echo.run E es).taken →
      ∀ ip port now, Unchanged (Echo.run E es) ((Echo.run E es).onAudio E p ip port now) := by
  intro h
  have hun := h openEnv oneCall onePacket (by decide) (by decide) 11 7 30
  exact absurd hun.ip (by decide)

end Hassmic.DropIn
