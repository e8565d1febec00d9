import Hassmic.Api.Server
import Hassmic.Voice.Esphome

/-!
# The gate of the encryption key

Once a key is set only connections set up with it count.  A connection that was there before is
closed at its next message, before anything looks at the message.  Two things get past this:
audio for the speaker is handled ahead of the gate, and whoever subscribed before the key was set
stays subscribed.  Without these, nothing a connection without the key sends does anything but
end it, and nothing of the device is shown to it.

## Main definitions

* `Srv.Unkeyed` — a connection is open and was not set up with the key.
* `Table.Deaf` — a connection is subscribed to nothing of the device.
* `Srv.Gated` — a step that neither plays audio of such a connection nor sets a key while it is
  subscribed.

## Main results

* `Srv.handshaken_run` — only a connection that completed the handshake counts as set up with the
  key.
* `key_gates` — in a run of such steps the gate holds.
-/

namespace Hassmic.Api

open Option
open Function (update update_eq_self update_of_ne update_self)

/-! ### Who is subscribed -/

/-- A connection is subscribed neither to entity states nor to the voice assistant. -/
structure Table.Deaf (t : Table) (c : ℕ) : Prop where
  states : ∀ i, (t.clients i).fd = some c → (t.clients i).states = false
  va : t.vaFd ≠ some c

namespace Table

variable {t t' : Table} {c : ℕ}

theorem mem_fds {p : Client → Bool} :
    c ∈ t.fds p ↔ ∃ i, p (t.clients i) = true ∧ (t.clients i).fd = some c := by
  simp only [fds, List.mem_filterMap, List.mem_finRange, true_and]
  constructor
  · rintro ⟨i, hi⟩
    split at hi
    case isTrue hp => exact ⟨i, hp, hi⟩
    case isFalse => exact nomatch hi
  · rintro ⟨i, hp, hi⟩
    exact ⟨i, by rw [if_pos hp, hi]⟩

/-- Nothing of the device is sent to a connection that is not subscribed and did not ask. -/
theorem Deaf.targets (h : t.Deaf c) {asker : Option ℕ} (hask : asker ≠ some c) {m : Send}
    (hm : c ∈ t.targets asker m) : (Sent.msg m).shows = false := by
  cases m with
  | reply type b => exact absurd (mem_toList.mp hm) hask
  | va type b => exact absurd (mem_toList.mp hm) h.va
  | state type b =>
    obtain ⟨i, hstates, hi⟩ := mem_fds.mp hm
    exact absurd ((h.states i hi).symm.trans hstates) Bool.false_ne_true
  | _ => rfl

/-- A change that leaves the entry of a connection alone. -/
theorem Deaf.congr (h : t.Deaf c)
    (hclients : ∀ i, (t'.clients i).fd = some c → t'.clients i = t.clients i)
    (hva : t'.vaFd = some c → t.vaFd = some c) : t'.Deaf c where
  states := by
    intro i hi
    have hsame := hclients i hi
    rw [hsame] at hi ⊢
    exact h.states i hi
  va := fun hno => h.va (hva hno)

end Table

/-- A thread that does not serve yet. -/
def At.early : At → Bool
  | .serving => false
  | .done => false
  | _ => true

namespace Srv

variable {D E : Type}

/-- A connection is open and was not set up with the key. -/
def Unkeyed (s : Srv D) (c : ℕ) : Prop :=
  ∃ i, (s.table.clients i).fd = some c ∧ (s.table.clients i).keyed = false

/-- Whether a key is set by a step. -/
def setsKey (s : Srv D) : Ev E → Bool
  | .message fd type p saved =>
      MsgType.of type = .setKeyReq && s.maySetKey fd && saved && keyAsked p ≠ [] &&
        decide ((keyAsked p).length < 64) && (keyOf (keyAsked p)).isSome
  | _ => false

/-- A step that neither plays audio of a connection without the key, nor sets a key while the
connection is subscribed. -/
structure Gated (c : ℕ) (s : Srv D) (e : Ev E) : Prop where
  quiet : ∀ type p saved, e = .message c type p saved → s.table.haveKey = true → s.Unkeyed c →
    MsgType.of type = .vaAudio → pbData 1 p = []
  late : s.setsKey e = true → s.table.haveKey = false → s.Unkeyed c →
    (∀ type p saved, e ≠ .message c type p saved) → s.table.Deaf c

/-! ### Entries and threads -/

/-- Each thread has an entry, and each entry a thread; who is not served yet is not
subscribed. -/
structure Wf (s : Srv D) : Prop where
  slot : ∀ fd th, s.threads fd = some th → (s.table.clients th.slot).fd = some fd
  thread : ∀ i fd, (s.table.clients i).fd = some fd → ∃ pc, s.threads fd = some ⟨i, pc⟩
  va : ∀ fd, s.table.vaFd = some fd → ∃ th, s.threads fd = some th
  early : ∀ fd th, s.threads fd = some th → th.pc.early = true → s.table.Deaf fd
  fresh : s.loaded = false → ∀ i, (s.table.clients i).fd = none

namespace Wf

variable {s s' : Srv D} {fd : ℕ}

theorem eq_slot (h : s.Wf) {i j : Fin 4} (hi : (s.table.clients i).fd = some fd)
    (hj : (s.table.clients j).fd = some fd) : i = j := by
  obtain ⟨pc, hpc⟩ := h.thread i fd hi
  obtain ⟨pc', hpc'⟩ := h.thread j fd hj
  exact congrArg Thread.slot (some.inj (hpc.symm.trans hpc'))

theorem clientOf_eq (h : s.Wf) {i : Fin 4} (hi : (s.table.clients i).fd = some fd) :
    s.table.clientOf fd = some i := by
  cases hc : s.table.clientOf fd with
  | none =>
    have hno := List.find?_eq_none.mp hc i (List.mem_finRange i)
    exact absurd hi (by simpa using hno)
  | some j =>
    have hj := List.find?_some hc
    rw [h.eq_slot hi (by simpa using hj)]

/-- A step that opens and closes nothing. -/
theorem congr (h : s.Wf)
    (hslot : ∀ fd, (s'.threads fd).map Thread.slot = (s.threads fd).map Thread.slot)
    (hfd : ∀ i, (s'.table.clients i).fd = (s.table.clients i).fd)
    (hva : ∀ fd, s'.table.vaFd = some fd → s.table.vaFd = some fd ∨ ∃ th, s.threads fd = some th)
    (hearly : ∀ fd th, s'.threads fd = some th → th.pc.early = true → s'.table.Deaf fd)
    (hloaded : s'.loaded = s.loaded) : s'.Wf where
  slot := by
    intro fd th hth
    have hmap := hslot fd
    rw [hth] at hmap
    obtain ⟨th', hth', heq⟩ := map_eq_some_iff.mp hmap.symm
    rw [hfd, ← heq]
    exact h.slot fd th' hth'
  thread := by
    intro i fd hi
    rw [hfd] at hi
    obtain ⟨pc, hpc⟩ := h.thread i fd hi
    have hmap := hslot fd
    rw [hpc] at hmap
    obtain ⟨⟨j, pc'⟩, hth', rfl⟩ := map_eq_some_iff.mp hmap
    exact ⟨pc', hth'⟩
  va := by
    intro fd hfd'
    have hsome : ∃ th, s.threads fd = some th := (hva fd hfd').elim (h.va fd) id
    obtain ⟨th, hth⟩ := hsome
    have hmap := hslot fd
    rw [hth] at hmap
    obtain ⟨th', hth', _⟩ := map_eq_some_iff.mp hmap
    exact ⟨th', hth'⟩
  early := hearly
  fresh := by
    intro hno i
    rw [hfd]
    exact h.fresh (hloaded.symm.trans hno) i

end Wf

section Turns

variable (s : Srv D)

theorem goes_slot (fd : ℕ) (pc : At) (fd' : ℕ) :
    ((s.goes fd pc).threads fd').map Thread.slot = (s.threads fd').map Thread.slot := by
  unfold goes
  by_cases h : fd' = fd
  · subst h
    simp only [update_self, map_map]
    rfl
  · simp only [update_of_ne h]

theorem goes_early {s : Srv D} (h : s.Wf) {fd : ℕ} {pc : At}
    (hpc : pc.early = true → s.table.Deaf fd) :
    ∀ fd' th, (s.goes fd pc).threads fd' = some th → th.pc.early = true → s.table.Deaf fd' := by
  intro fd' th hth hearly
  unfold goes at hth
  by_cases hfd : fd' = fd
  · subst hfd
    simp only [update_self] at hth
    obtain ⟨th', _, rfl⟩ := map_eq_some_iff.mp hth
    exact hpc hearly
  · simp only [update_of_ne hfd] at hth
    exact h.early fd' th hth hearly

end Turns

/-- What a message does to the table, where the gate lets it through: only the entry of its own
connection changes, and what is sent goes by the table as it then is. -/
structure Turns (s s' : Srv D) (fd : ℕ) (i : Fin 4) (keys : Bool) : Prop where
  threads : s'.threads = s.threads
  loaded : s'.loaded = s.loaded
  client : ∃ c, c.fd = (s.table.clients i).fd ∧
    ((s.table.clients i).keyed = true → c.keyed = true) ∧
    s'.table.clients = update s.table.clients i c ∧
    (s'.table.haveKey = true → s.table.haveKey = true ∨ keys = true ∧ c.keyed = true)
  va : s'.table.vaFd = s.table.vaFd ∨ s'.table.vaFd = some fd ∨ s'.table.vaFd = none
  out : ∃ l : List Send, s'.out = s.out ++
    l.flatMap fun m => (s'.table.targets (some fd) m).map fun fd => (fd, .msg m)

section Dispatch

variable (dv : Device D E) {s : Srv D} {fd : ℕ} {i : Fin 4} {keys : Bool}

theorem Turns.refl (s : Srv D) (fd : ℕ) (i : Fin 4) (keys : Bool) : s.Turns s fd i keys where
  threads := rfl
  loaded := rfl
  client := ⟨s.table.clients i, rfl, id, (update_eq_self i _).symm, .inl⟩
  va := .inl rfl
  out := ⟨[], by simp⟩

/-- The device is called last. -/
theorem Turns.calls {s' : Srv D} (h : s.Turns s' fd i keys) (hout : s'.out = s.out)
    (r : D × List Send) : s.Turns (s'.calls (some fd) r) fd i keys where
  threads := h.threads
  loaded := h.loaded
  client := h.client
  va := h.va
  out := ⟨r.2, by simp [Srv.calls, sends, hout]⟩

/-- A change to the entry of the connection. -/
theorem turns_setOf (hc : s.table.clientOf fd = some i) {f : Client → Client}
    (hfd : (f (s.table.clients i)).fd = (s.table.clients i).fd)
    (hkeyed : (s.table.clients i).keyed = true → (f (s.table.clients i)).keyed = true) :
    s.Turns { s with table := s.table.setOf fd f } fd i keys where
  threads := rfl
  loaded := rfl
  client := by
    refine ⟨f (s.table.clients i), hfd, hkeyed, ?_, ?_⟩
    · simp only [Table.setOf, hc, Table.setClient]
    · simp only [Table.setOf, hc, Table.setClient]
      exact .inl
  va := .inl (by simp only [Table.setOf, hc, Table.setClient])
  out := ⟨[], by simp⟩

theorem turns_subscribeVa (type : ℕ) (p : Bytes) :
    s.Turns (s.onSubscribeVa dv fd type p) fd i keys := by
  simp only [onSubscribeVa]
  generalize (((pbFields p).filter fun f => f.field = 1).getLast?).elim false
    (fun f => decide (f.v ≠ 0)) = sub
  split
  · exact .refl s fd i keys
  split
  · exact .refl s fd i keys
  have hva : s.Turns { s with table := { s.table with vaFd := if sub then some fd else none } }
      fd i keys := by
    refine ⟨rfl, rfl, ⟨s.table.clients i, rfl, id, (update_eq_self i _).symm, .inl⟩,
      .inr ?_, [], by simp⟩
    cases sub with
    | true => exact .inl rfl
    | false => exact .inr rfl
  exact hva.calls rfl _

/-- `key_set`: what it leaves alone, and when a key is set. -/
theorem keySet_spec (s : Srv D) (k : Bytes) (saved : Bool) :
    (s.keySet k saved).1.threads = s.threads ∧ (s.keySet k saved).1.loaded = s.loaded ∧
    (s.keySet k saved).1.out = s.out ∧ (s.keySet k saved).1.table.clients = s.table.clients ∧
    (s.keySet k saved).1.table.vaFd = s.table.vaFd ∧
    ((s.keySet k saved).1.table.haveKey = true → s.table.haveKey = true ∨
      (s.keySet k saved).2 = true ∧ saved = true ∧ k ≠ [] ∧ k.length < 64 ∧
        (keyOf k).isSome = true) := by
  unfold keySet
  split
  case isTrue =>
    split
    · exact ⟨rfl, rfl, rfl, rfl, rfl, fun h => absurd h Bool.false_ne_true⟩
    · exact ⟨rfl, rfl, rfl, rfl, rfl, .inl⟩
  case isFalse hne =>
    split
    · exact ⟨rfl, rfl, rfl, rfl, rfl, .inl⟩
    case isFalse hlen =>
      split
      case h_1 => exact ⟨rfl, rfl, rfl, rfl, rfl, .inl⟩
      case h_2 key hkey =>
        split
        case isTrue hsaved =>
          exact ⟨rfl, rfl, rfl, rfl, rfl, fun _ =>
            .inr ⟨rfl, hsaved, hne, not_le.mp hlen, by rw [hkey]; rfl⟩⟩
        case isFalse => exact ⟨rfl, rfl, rfl, rfl, rfl, .inl⟩

theorem turns_setKey (hc : s.table.clientOf fd = some i) (type : ℕ) (p : Bytes) (saved : Bool)
    (htype : MsgType.of type = .setKeyReq) :
    s.Turns (s.onSetKey fd p saved) fd i (s.setsKey (E := E) (.message fd type p saved)) := by
  simp only [onSetKey]
  by_cases hmay : s.maySetKey fd = true
  · rw [if_pos hmay]
    obtain ⟨hthreads, hloaded, hout, hclients, hva, hkey⟩ := s.keySet_spec (keyAsked p) saved
    generalize hr : s.keySet (keyAsked p) saved = r at hthreads hloaded hout hclients hva hkey
    obtain ⟨u, ok⟩ := r
    simp only at hthreads hloaded hout hclients hva hkey ⊢
    have hu : u.table.clientOf fd = some i := by
      simp only [Table.clientOf, hclients]
      exact hc
    by_cases hok : (ok && u.table.haveKey) = true
    · rw [if_pos hok]
      refine ⟨hthreads, hloaded,
        ⟨{ s.table.clients i with keyed := true }, rfl, fun _ => rfl, ?_, ?_⟩, .inl ?_,
        [.reply setKeyResp (if ok then [0x08, 0x01] else [])], ?_⟩
      · simp only [sends, Table.setOf, hu, Table.setClient, hclients]
      · intro _
        rcases hkey (by simpa using (Bool.and_eq_true_iff.mp hok).2) with h |
          ⟨_, hsaved, hne, hlen, hsome⟩
        · exact .inl h
        · refine .inr ⟨?_, rfl⟩
          simp [setsKey, htype, hmay, hsaved, hne, hlen, hsome]
      · simp only [sends, Table.setOf, hu, Table.setClient, hva]
      · simp only [sends, hout]
    · rw [if_neg hok]
      refine ⟨hthreads, hloaded, ⟨s.table.clients i, rfl, id, ?_, ?_⟩, .inl hva,
        [.reply setKeyResp (if ok then [0x08, 0x01] else [])], ?_⟩
      · rw [update_eq_self]
        exact hclients
      · intro hhave
        rcases hkey hhave with h | ⟨hok', _⟩
        · exact .inl h
        · exact absurd (Bool.and_eq_true_iff.mpr ⟨hok', hhave⟩) hok
      · simp only [sends, hout]
  · rw [if_neg hmay]
    simp only [Bool.false_and, Bool.false_eq_true, if_false]
    exact ⟨rfl, rfl, ⟨s.table.clients i, rfl, id, (update_eq_self i _).symm, .inl⟩,
      .inl rfl, _, rfl⟩

/-- What gets through the gate changes only the entry of its own connection. -/
theorem turns_dispatch (hc : s.table.clientOf fd = some i) (type : ℕ) (p : Bytes) (saved : Bool) :
    s.Turns (s.dispatch dv fd type p saved) fd i
      (s.setsKey (E := E) (.message fd type p saved)) := by
  have hclient : ∀ f : Client → Client, (∀ c, (f c).fd = c.fd ∧ (f c).keyed = c.keyed) →
      s.Turns (s.onClient dv fd type p f) fd i
        (s.setsKey (E := E) (.message fd type p saved)) := by
    intro f hf
    have hset : s.Turns { s with table := s.table.setOf fd f } fd i
        (s.setsKey (E := E) (.message fd type p saved)) :=
      turns_setOf hc (hf (s.table.clients i)).1 (fun hk => (hf (s.table.clients i)).2.trans hk)
    exact hset.calls rfl _
  unfold dispatch
  split
  case h_1 => exact hclient _ fun c => ⟨rfl, rfl⟩
  case h_2 => exact turns_setOf hc rfl id
  case h_3 => exact turns_setOf hc rfl id
  case h_4 => exact turns_subscribeVa dv type p
  case h_5 =>
    split
    · exact hclient _ fun c => ⟨rfl, rfl⟩
    · exact .refl s fd i _
  case h_6 =>
    split
    · exact hclient _ fun c => ⟨rfl, rfl⟩
    · exact .refl s fd i _
  case h_7 =>
    split
    · exact hclient _ fun c => ⟨rfl, rfl⟩
    · exact .refl s fd i _
  case h_8 =>
    split
    · exact hclient _ fun c => ⟨rfl, rfl⟩
    · exact .refl s fd i _
  case h_9 htype => exact turns_setKey hc type p saved htype
  case h_10 => exact (Turns.refl s fd i _).calls rfl _

end Dispatch

/-! ### The gate holds -/

/-- The gate holds for a connection: with a key set, without it the connection is not
subscribed. -/
structure Closed (c : ℕ) (s : Srv D) : Prop where
  wf : s.Wf
  deaf : s.table.haveKey = true → s.Unkeyed c → s.table.Deaf c

namespace Closed

variable {c : ℕ} {s s' : Srv D}

variable {fd : ℕ} {pc : At} {i : Fin 4}

/-- A thread goes on, and the table stays as it is. -/
theorem goes (h : s.Closed c) (hpc : pc.early = true → s.table.Deaf fd) :
    (s.goes fd pc).Closed c where
  wf := h.wf.congr (s.goes_slot fd pc) (fun _ => rfl) (fun _ => .inl) (goes_early h.wf hpc) rfl
  deaf := h.deaf

/-- What the device does, and what is sent, is not seen. -/
theorem same (h : s.Closed c) (htable : s'.table = s.table) (hthreads : s'.threads = s.threads)
    (hloaded : s'.loaded = s.loaded) : s'.Closed c where
  wf := by
    refine h.wf.congr (fun fd => by rw [hthreads]) (fun i => by rw [htable])
      (fun fd hfd => .inl (by rwa [htable] at hfd)) ?_ hloaded
    rw [hthreads, htable]
    exact h.wf.early
  deaf := by
    unfold Unkeyed
    rw [htable]
    exact h.deaf

/-- A message that gets through. -/
theorem turns {keys : Bool} (h : s.Closed c)
    (hth : s.threads fd = some ⟨i, .serving⟩) (hturns : s.Turns s' fd i keys)
    (hgate : s.table.haveKey = true → (s.table.clients i).keyed = true)
    (hlate : fd ≠ c → keys = true → s.table.haveKey = false → s.Unkeyed c → s.table.Deaf c) :
    s'.Closed c := by
  have hi : (s.table.clients i).fd = some fd := h.wf.slot fd _ hth
  obtain ⟨c', hfd, hkeyed, hclients, hkey⟩ := hturns.client
  have hfds : ∀ j, (s'.table.clients j).fd = (s.table.clients j).fd := by
    intro j
    rw [hclients]
    by_cases hj : j = i
    · rw [hj, update_self, hfd]
    · rw [update_of_ne hj]
  -- no other connection is touched
  have hothers : ∀ fd', fd ≠ fd' → (∀ k, (s'.table.clients k).fd = some fd' →
      s'.table.clients k = s.table.clients k) ∧
      (s'.table.vaFd = some fd' → s.table.vaFd = some fd') := by
    intro fd' hne
    constructor
    · intro k hk
      have hki : k ≠ i := by
        rintro rfl
        exact hne (some.inj (hi.symm.trans ((hfds k).symm.trans hk)))
      rw [hclients, update_of_ne hki]
    · intro hva
      rcases hturns.va with hsame | hmine | hnone
      · exact hsame.symm.trans hva
      · exact absurd (some.inj (hmine.symm.trans hva)) hne
      · exact nomatch hnone.symm.trans hva
  refine ⟨h.wf.congr (fun fd => by rw [hturns.threads]) hfds ?_ ?_ hturns.loaded, ?_⟩
  · intro fd' hva
    by_cases hne : fd = fd'
    · exact .inr ⟨_, hne ▸ hth⟩
    · exact .inl ((hothers fd' hne).2 hva)
  · intro fd' th hth' hearly
    rw [hturns.threads] at hth'
    have hne : fd ≠ fd' := by
      rintro rfl
      rw [← some.inj (hth.symm.trans hth')] at hearly
      exact absurd hearly Bool.false_ne_true
    exact (h.wf.early fd' th hth' hearly).congr (hothers fd' hne).1 (hothers fd' hne).2
  · rintro hhave ⟨j, hj, hjkeyed⟩
    by_cases hfc : fd = c
    · -- its own message: with a key it has it, and the one that sets the key gets it
      subst hfc
      obtain rfl : j = i := h.wf.eq_slot ((hfds j).symm.trans hj) hi
      rw [hclients, update_self] at hjkeyed
      rcases hkey hhave with hold | ⟨_, hnew⟩
      · exact absurd (hjkeyed.symm.trans (hkeyed (hgate hold))) Bool.false_ne_true
      · exact absurd (hjkeyed.symm.trans hnew) Bool.false_ne_true
    · obtain ⟨hji, hva⟩ := hothers c hfc
      have hopen : s.Unkeyed c := by
        refine ⟨j, ?_, ?_⟩
        · rw [← hji j hj]
          exact hj
        · rw [← hji j hj]
          exact hjkeyed
      have hdeaf : s.table.Deaf c := by
        cases hk : s.table.haveKey with
        | true => exact h.deaf hk hopen
        | false =>
          rcases hkey hhave with hold | ⟨hkeys, _⟩
          · exact absurd (hk.symm.trans hold) Bool.false_ne_true
          · exact hlate hfc hkeys hk hopen
      exact hdeaf.congr hji hva

/-- The key is read before the first connection. -/
theorem loads (h : s.Closed c) :
    (if s.loaded then s else { s.keyLoad with loaded := true }).Closed c := by
  split
  case isTrue => exact h
  case isFalse hno =>
    have hfresh := h.wf.fresh (by simpa using hno)
    have hclients : s.keyLoad.table.clients = s.table.clients := by
      simp only [keyLoad]
      split <;> rfl
    have hva : s.keyLoad.table.vaFd = s.table.vaFd := by
      simp only [keyLoad]
      split <;> rfl
    have hthreads : s.keyLoad.threads = s.threads := by
      simp only [keyLoad]
      split <;> rfl
    refine ⟨⟨?_, ?_, ?_, ?_, fun hno' => absurd hno'.symm Bool.false_ne_true⟩, ?_⟩
    · simp only [hclients, hthreads]
      exact h.wf.slot
    · simp only [hclients, hthreads]
      exact h.wf.thread
    · simp only [hva, hthreads]
      exact h.wf.va
    · simp only [hthreads]
      intro fd th hth hearly
      exact (h.wf.early fd th hth hearly).congr (fun i _ => by rw [hclients])
        (fun hno' => hva.symm.trans hno')
    · rintro _ ⟨i, hi, _⟩
      simp only [hclients] at hi
      exact nomatch (hfresh i).symm.trans hi

/-- A connection takes a free entry. -/
theorem opens (h : s.Closed c) (hloaded : s.loaded = true)
    (hnew : s.threads fd = none) (hfree : (s.table.clients i).fd = none)
    (htable : s'.table = s.table.setClient i { fd := some fd })
    (hthreads : s'.threads = update s.threads fd (some ⟨i, pc⟩))
    (hloaded' : s'.loaded = s.loaded) : s'.Closed c := by
  have hclients : s'.table.clients = update s.table.clients i { fd := some fd } := by
    rw [htable]
    rfl
  have hva : s'.table.vaFd = s.table.vaFd := by
    rw [htable]
    rfl
  -- the place and the descriptor are nobody else's
  have hother : ∀ j fd', (s.table.clients j).fd = some fd' → j ≠ i ∧ fd' ≠ fd := by
    intro j fd' hj
    refine ⟨?_, ?_⟩
    · rintro rfl
      exact nomatch hfree.symm.trans hj
    · rintro rfl
      obtain ⟨_, hth⟩ := h.wf.thread j fd' hj
      exact nomatch hnew.symm.trans hth
  -- a new connection is subscribed to nothing
  have hmine : s'.table.Deaf fd := by
    refine ⟨fun k hk => ?_, fun hno => ?_⟩
    · rw [hclients] at hk ⊢
      by_cases hki : k = i
      · rw [hki, update_self]
      · rw [update_of_ne hki] at hk
        exact absurd rfl (hother k fd hk).2
    · obtain ⟨th, hth⟩ := h.wf.va fd (hva.symm.trans hno)
      exact nomatch hnew.symm.trans hth
  have hsame : ∀ fd', fd ≠ fd' → ∀ k, (s'.table.clients k).fd = some fd' →
      s'.table.clients k = s.table.clients k := by
    intro fd' hne k hk
    have hki : k ≠ i := by
      rintro rfl
      rw [hclients, update_self] at hk
      exact hne (some.inj hk)
    rw [hclients, update_of_ne hki]
  refine ⟨⟨?_, ?_, ?_, ?_, ?_⟩, ?_⟩
  · intro fd' th hth
    rw [hthreads] at hth
    by_cases hfd : fd' = fd
    · subst hfd
      rw [update_self] at hth
      rw [← some.inj hth, hclients, update_self]
    · rw [update_of_ne hfd] at hth
      have hslot := h.wf.slot fd' th hth
      rw [hclients, update_of_ne (hother th.slot fd' hslot).1]
      exact hslot
  · intro j fd' hj
    rw [hclients] at hj
    rw [hthreads]
    by_cases hji : j = i
    · subst hji
      rw [update_self] at hj
      obtain rfl := some.inj hj
      exact ⟨pc, update_self ..⟩
    · rw [update_of_ne hji] at hj
      rw [update_of_ne (hother j fd' hj).2]
      exact h.wf.thread j fd' hj
  · intro fd' hfd'
    rw [hva] at hfd'
    rw [hthreads]
    obtain ⟨th, hth⟩ := h.wf.va fd' hfd'
    by_cases hfd : fd' = fd
    · exact ⟨_, by rw [hfd, update_self]⟩
    · exact ⟨th, by rw [update_of_ne hfd, hth]⟩
  · intro fd' th hth hearly
    by_cases hfd : fd = fd'
    · exact hfd ▸ hmine
    · rw [hthreads, update_of_ne (Ne.symm hfd)] at hth
      exact (h.wf.early fd' th hth hearly).congr (hsame fd' hfd) (fun hno => hva.symm.trans hno)
  · intro hno
    exact absurd (hno.symm.trans (hloaded'.trans hloaded)) Bool.false_ne_true
  · rintro hhave ⟨j, hj, hkeyed⟩
    by_cases hfc : fd = c
    · exact hfc ▸ hmine
    · have hjs := hsame c hfc j hj
      rw [hjs] at hj hkeyed
      have hhave' : s.table.haveKey = true := by
        rw [htable] at hhave
        exact hhave
      exact (h.deaf hhave' ⟨j, hj, hkeyed⟩).congr (hsame c hfc) (fun hno => hva.symm.trans hno)

/-- A connection gives its entry back. -/
theorem closes (h : s.Closed c) (hth : s.threads fd = some ⟨i, pc⟩)
    (hclients : s'.table.clients = update s.table.clients i {})
    (hhave : s'.table.haveKey = s.table.haveKey)
    (hva : ∀ fd', s'.table.vaFd = some fd' → s.table.vaFd = some fd' ∧ fd' ≠ fd)
    (hthreads : s'.threads = update s.threads fd none)
    (hloaded : s'.loaded = s.loaded) : s'.Closed c := by
  have hi := h.wf.slot fd _ hth
  -- the place is blank, and the others are as they were
  have hkept : ∀ j fd', (s'.table.clients j).fd = some fd' →
      j ≠ i ∧ fd' ≠ fd ∧ s'.table.clients j = s.table.clients j := by
    intro j fd' hj
    have hji : j ≠ i := by
      rintro rfl
      rw [hclients, update_self] at hj
      exact nomatch hj
    have hsame : s'.table.clients j = s.table.clients j := by
      rw [hclients, update_of_ne hji]
    refine ⟨hji, ?_, hsame⟩
    rintro rfl
    rw [hsame] at hj
    exact hji (h.wf.eq_slot hj hi)
  refine ⟨⟨?_, ?_, ?_, ?_, ?_⟩, ?_⟩
  · intro fd' th hth'
    have hfd : fd' ≠ fd := by
      rintro rfl
      rw [hthreads, update_self] at hth'
      exact nomatch hth'
    rw [hthreads, update_of_ne hfd] at hth'
    have hslot := h.wf.slot fd' th hth'
    have hne : th.slot ≠ i := by
      intro heq
      rw [heq] at hslot
      exact hfd (some.inj (hslot.symm.trans hi))
    rw [hclients, update_of_ne hne]
    exact hslot
  · intro j fd' hj
    obtain ⟨_, hfd, hsame⟩ := hkept j fd' hj
    rw [hsame] at hj
    rw [hthreads, update_of_ne hfd]
    exact h.wf.thread j fd' hj
  · intro fd' hfd'
    obtain ⟨hold, hfd⟩ := hva fd' hfd'
    rw [hthreads, update_of_ne hfd]
    exact h.wf.va fd' hold
  · intro fd' th hth' hearly
    have hfd : fd' ≠ fd := by
      rintro rfl
      rw [hthreads, update_self] at hth'
      exact nomatch hth'
    rw [hthreads, update_of_ne hfd] at hth'
    exact (h.wf.early fd' th hth' hearly).congr (fun k hk => (hkept k fd' hk).2.2)
      (fun hno => (hva fd' hno).1)
  · intro hno j
    rw [hclients]
    by_cases hji : j = i
    · rw [hji, update_self]
    · rw [update_of_ne hji]
      exact h.wf.fresh (hloaded.symm.trans hno) j
  · rintro hk ⟨j, hj, hkeyed⟩
    have hsame := (hkept j c hj).2.2
    rw [hsame] at hj hkeyed
    exact (h.deaf (hhave.symm.trans hk) ⟨j, hj, hkeyed⟩).congr
      (fun k hk => (hkept k c hk).2.2) (fun hno => (hva c hno).1)

/-- The handshake is through. -/
theorem agrees (h : s.Closed c)
    (hth : s.threads fd = some ⟨i, pc⟩) (hpc : pc.early = true) (keyed : Bool) :
    Closed c { s with table :=
      s.table.setClient i { s.table.clients i with enc := true, keyed := keyed } } := by
  have hi := h.wf.slot fd _ hth
  have hclient : ∀ j, ((s.table.setClient i
      { s.table.clients i with enc := true, keyed := keyed }).clients j).fd =
        (s.table.clients j).fd ∧ ((s.table.setClient i
      { s.table.clients i with enc := true, keyed := keyed }).clients j).states =
        (s.table.clients j).states := by
    intro j
    simp only [Table.setClient]
    by_cases hj : j = i
    · rw [hj, update_self]
      exact ⟨rfl, rfl⟩
    · rw [update_of_ne hj]
      exact ⟨rfl, rfl⟩
  have hdeaf : ∀ fd', s.table.Deaf fd' → (s.table.setClient i
      { s.table.clients i with enc := true, keyed := keyed }).Deaf fd' := by
    intro fd' hd
    refine ⟨fun j hj => ?_, hd.va⟩
    rw [(hclient j).1] at hj
    rw [(hclient j).2]
    exact hd.states j hj
  refine ⟨h.wf.congr (fun _ => rfl) (fun j => (hclient j).1) (fun _ => .inl)
    (fun fd' th hth' hearly => hdeaf fd' (h.wf.early fd' th hth' hearly)) rfl, ?_⟩
  rintro hk ⟨j, hj, hkeyed⟩
  by_cases hfc : fd = c
  · subst hfc
    exact hdeaf fd (h.wf.early fd _ hth hpc)
  · have hji : j ≠ i := by
      rintro rfl
      rw [(hclient j).1] at hj
      exact hfc (some.inj (hi.symm.trans hj))
    simp only [Table.setClient, update_of_ne hji] at hj hkeyed
    exact hdeaf c (h.deaf hk ⟨j, hj, hkeyed⟩)

end Closed

section Step

variable (dv : Device D E) {c : ℕ} {s : Srv D}

variable {fd : ℕ}

theorem closed_accept (h : s.Closed c) (hnew : s.threads fd = none) :
    (s.accept dv fd).Closed c := by
  have hloads := h.loads
  have hthreads : (if s.loaded then s
      else { s.keyLoad with loaded := true }).threads fd = none := by
    split
    · exact hnew
    · simp only [keyLoad]
      split <;> exact hnew
  have hloaded : (if s.loaded then s else { s.keyLoad with loaded := true }).loaded = true := by
    split
    · assumption
    · rfl
  simp only [accept]
  generalize (if s.loaded then s else { s.keyLoad with loaded := true }) = u at *
  split
  case h_1 => exact hloads
  case h_2 i hfind =>
    have hfree : (u.table.clients i).fd = none := by simpa using List.find?_some hfind
    have hopens : Closed c { u with
        table := u.table.setClient i { fd := some fd }
        threads := update u.threads fd (some ⟨i, .first u.table.haveKey⟩) } :=
      hloads.opens hloaded hthreads hfree rfl rfl rfl
    split
    · exact hopens.same rfl rfl rfl
    · exact hopens

theorem closed_close (h : s.Closed c) {i : Fin 4} (hth : s.threads fd = some ⟨i, .done⟩) :
    (s.close dv fd i).Closed c := by
  simp only [close]
  split
  case isTrue hva => exact h.closes hth rfl rfl (fun fd' hno => nomatch hno) rfl rfl
  case isFalse hva =>
    have hcloses : Closed c { s with
        table := s.table.setClient i {}
        threads := update s.threads fd none } := by
      refine h.closes hth rfl rfl (fun fd' hfd' => ⟨hfd', ?_⟩) rfl rfl
      rintro rfl
      exact hva hfd'
    split
    · exact hcloses.same rfl rfl rfl
    · exact hcloses.same rfl rfl rfl

/-- The gate is shut for a connection without the key. -/
theorem gated_iff (h : s.Wf) {i : Fin 4} (hi : (s.table.clients i).fd = some fd) :
    s.gated fd = true ↔ s.table.haveKey = true ∧ (s.table.clients i).keyed = false := by
  simp [gated, h.clientOf_eq hi]

theorem closed_message (h : s.Closed c) {type : ℕ} {p : Bytes} {saved : Bool}
    (hg : s.Gated c (.message (E := E) fd type p saved)) :
    (s.step dv (.message fd type p saved)).Closed c := by
  have hdone : ∀ u : Srv D, u.Closed c → (u.goes fd .done).Closed c :=
    fun u hu => hu.goes fun hno => absurd hno Bool.false_ne_true
  simp only [step]
  split
  case h_2 => exact h
  case h_1 i hth =>
    have hi := h.wf.slot fd _ hth
    simp only [handle]
    by_cases haudio : MsgType.of type = .vaAudio
    · rw [if_pos haudio]
      exact h.same rfl rfl rfl
    rw [if_neg haudio]
    by_cases hgated : (s.gated fd && decide (MsgType.of type ≠ .disconnectReq)) = true
    · rw [if_pos hgated]
      exact hdone s h
    rw [if_neg hgated]
    by_cases hbye : MsgType.of type = .disconnectReq
    · rw [if_pos hbye]
      exact hdone _ (h.same rfl rfl rfl)
    rw [if_neg hbye]
    refine h.turns hth (turns_dispatch dv (h.wf.clientOf_eq hi) type p saved) ?_ ?_
    · intro hhave
      by_contra hno
      refine hgated ?_
      have hshut : s.gated fd = true := (gated_iff h.wf hi).mpr ⟨hhave, by simpa using hno⟩
      simp [hshut, hbye]
    · intro hne hkeys hnone hopen
      refine hg.late hkeys hnone hopen ?_
      rintro type' p' saved' heq
      injection heq with hfd
      exact hne hfd

/-- A step keeps the gate shut. -/
theorem closed_step (s : Srv D) (e : Ev E) (h : s.Closed c) (hg : s.Gated c e) :
    (s.step dv e).Closed c := by
  have hdone : ∀ (u : Srv D) (fd : ℕ), u.Closed c → (u.goes fd .done).Closed c :=
    fun u fd hu => hu.goes fun hno => absurd hno Bool.false_ne_true
  have hserves : ∀ (u : Srv D) (fd : ℕ), u.Closed c → (u.goes fd .serving).Closed c :=
    fun u fd hu => hu.goes fun hno => absurd hno Bool.false_ne_true
  cases e with
  | accept fd =>
    simp only [step]
    split
    case isTrue => exact h
    case isFalse hnew => exact closed_accept dv h (by simpa using hnew)
  | byte fd b =>
    simp only [step]
    split
    case h_2 => exact h
    case h_1 i keyed hth =>
      -- it is not served yet, so nothing was asked for
      have hdeaf := h.wf.early fd _ hth rfl
      simp only [firstByte]
      split
      · exact h.goes fun _ => hdeaf
      split
      · exact hdone _ fd (h.same rfl rfl rfl)
      split
      · exact hserves s fd h
      · exact hdone s fd h
  | handshake fd msg =>
    simp only [step]
    split
    case h_2 => exact h
    case h_1 i hth =>
      have hdeaf := h.wf.early fd _ hth rfl
      have hsame : ∀ data, (s.writeFrame fd data).Closed c := fun data => h.same rfl rfl rfl
      simp only [handshake]
      split
      case h_2 => exact hdone s fd h
      case h_1 m =>
        generalize (if s.table.haveKey then s.table.apiKey else List.replicate 32 0) = psk
        split
        · exact hdone _ fd (h.same rfl rfl rfl)
        · exact (hsame dv.hello).goes fun _ => hdeaf
  | message fd type p saved => exact closed_message dv h hg
  | agree fd out =>
    simp only [step]
    split
    case h_2 => exact h
    case h_1 i keyed hth =>
      have hagrees := h.agrees hth rfl keyed
      exact hserves _ fd (hagrees.same rfl rfl rfl)
  | gone fd => exact hdone s fd h
  | close fd =>
    simp only [step]
    split
    case h_2 => exact h
    case h_1 i hth => exact closed_close dv h hth
  | device e => exact h.same rfl rfl rfl

end Step

/-! ### What is shown -/

/-- What goes out in a step shows nothing of the device to a connection. -/
def Quiet (c : ℕ) (s s' : Srv D) : Prop :=
  ∃ new, s'.out = s.out ++ new ∧ ∀ x ∈ new, x.1 = c → x.2.shows = false

namespace Quiet

variable {c : ℕ} {s u w : Srv D}

theorem of_eq (h : u.out = s.out) : Quiet c s u := ⟨[], by simp [h], nofun⟩

theorem trans (h : Quiet c s u) (h' : Quiet c u w) : Quiet c s w := by
  obtain ⟨new, hout, hnew⟩ := h
  obtain ⟨new', hout', hnew'⟩ := h'
  refine ⟨new ++ new', by rw [hout', hout, List.append_assoc], ?_⟩
  intro x hx
  rcases List.mem_append.mp hx with hx | hx
  · exact hnew x hx
  · exact hnew' x hx

theorem frame (s : Srv D) (fd : ℕ) (data : Bytes) : Quiet c s (s.writeFrame fd data) := by
  refine ⟨[(fd, .frame data)], rfl, ?_⟩
  intro x hx _
  rw [List.mem_singleton.mp hx]
  rfl

/-- What goes by a table in which the connection is not subscribed, and is no answer to it. -/
theorem targets {t : Table} {asker : Option ℕ} (hd : t.Deaf c) (hask : asker ≠ some c)
    {l : List Send}
    (hout : u.out = s.out ++ l.flatMap fun m => (t.targets asker m).map fun fd => (fd, .msg m)) :
    Quiet c s u := by
  refine ⟨_, hout, ?_⟩
  intro x hx hc
  obtain ⟨m, _, hm⟩ := List.mem_flatMap.mp hx
  obtain ⟨fd, hfd, rfl⟩ := List.mem_map.mp hm
  obtain rfl : fd = c := hc
  exact hd.targets hask hfd

theorem calls (hd : u.table.Deaf c) (hout : u.out = s.out) (r : D × List Send) :
    Quiet c s (u.calls none r) := by
  have hask : (none : Option ℕ) ≠ some c := nofun
  exact targets hd hask (l := r.2) (by rw [← hout]; rfl)

/-- The answer to a farewell. -/
theorem farewell (s : Srv D) (fd : ℕ) :
    Quiet c s (s.sends (some fd) [.reply disconnectResp []]) := by
  refine ⟨[(fd, .msg (.reply disconnectResp []))], rfl, ?_⟩
  intro x hx _
  rw [List.mem_singleton.mp hx]
  rfl

end Quiet

section Shown

variable (dv : Device D E) {c : ℕ} {s : Srv D}

theorem quiet_accept (hwf : s.Wf) (hd : s.table.Deaf c) (hopen : s.Unkeyed c) {fd : ℕ}
    (hnew : s.threads fd = none) : Quiet c s (s.accept dv fd) := by
  have hne : c ≠ fd := by
    rintro rfl
    obtain ⟨i, hi, _⟩ := hopen
    obtain ⟨pc, hpc⟩ := hwf.thread i c hi
    exact nomatch hnew.symm.trans hpc
  have hloads : (if s.loaded then s else { s.keyLoad with loaded := true }).out = s.out ∧
      (if s.loaded then s else { s.keyLoad with loaded := true }).table.Deaf c := by
    split
    · exact ⟨rfl, hd⟩
    · simp only [keyLoad]
      split
      · exact ⟨rfl, hd.states, hd.va⟩
      · exact ⟨rfl, hd.states, hd.va⟩
  simp only [accept]
  generalize (if s.loaded then s else { s.keyLoad with loaded := true }) = u at hloads
  obtain ⟨hout, hud⟩ := hloads
  split
  case h_1 => exact .of_eq hout
  case h_2 i hfind =>
    have hdeaf : (u.table.setClient i { fd := some fd }).Deaf c := by
      refine hud.congr (fun k hk => ?_) id
      simp only [Table.setClient] at hk ⊢
      by_cases hki : k = i
      · rw [hki, update_self] at hk
        exact absurd (some.inj hk).symm hne
      · rw [update_of_ne hki]
    have hlink (r : D × List Send) := Quiet.calls (u := { u with
      table := u.table.setClient i { fd := some fd }
      threads := update u.threads fd (some ⟨i, .first u.table.haveKey⟩) }) hdeaf hout r
    split
    · exact hlink _
    · exact .of_eq hout

theorem quiet_close (hd : s.table.Deaf c) {fd : ℕ} {i : Fin 4} : Quiet c s (s.close dv fd i) := by
  have hdeaf : (s.table.setClient i {}).Deaf c := by
    refine hd.congr (fun k hk => ?_) id
    simp only [Table.setClient] at hk ⊢
    by_cases hki : k = i
    · rw [hki, update_self] at hk
      exact nomatch hk
    · rw [update_of_ne hki]
  have hleft : ∀ r : D × List Send, Quiet c s (Srv.calls { s with
      table := s.table.setClient i {}
      threads := update s.threads fd none } none r) :=
    fun r => .calls hdeaf rfl r
  simp only [close]
  split
  case isTrue =>
    refine (hleft _).trans (.calls ⟨hdeaf.states, ?_⟩ rfl _)
    exact fun hno => nomatch hno
  case isFalse =>
    split
    · exact (hleft _).trans (.calls hdeaf rfl _)
    · exact hleft _

/-- What gets through of another connection. -/
theorem quiet_turns {s' : Srv D} {fd : ℕ} {i : Fin 4} {keys : Bool}
    (hd : s.table.Deaf c) (hi : (s.table.clients i).fd = some fd) (hne : fd ≠ c)
    (hturns : s.Turns s' fd i keys) : Quiet c s s' := by
  obtain ⟨c', hfd, _, hclients, _⟩ := hturns.client
  obtain ⟨l, hout⟩ := hturns.out
  refine .targets (hd.congr ?_ ?_) (fun hno => hne (some.inj hno)) hout
  · intro k hk
    rw [hclients] at hk ⊢
    by_cases hki : k = i
    · rw [hki, update_self, hfd] at hk
      exact absurd (some.inj (hi.symm.trans hk)) hne
    · rw [update_of_ne hki]
  · intro hva
    rcases hturns.va with hsame | hmine | hnone
    · exact hsame.symm.trans hva
    · exact absurd (some.inj (hmine.symm.trans hva)) hne
    · exact nomatch hnone.symm.trans hva

/-- A message of a connection without the key does nothing but end it. -/
theorem message_gated (h : s.Closed c) (hhave : s.table.haveKey = true) (hopen : s.Unkeyed c)
    {type : ℕ} {p : Bytes} {saved : Bool} (hg : s.Gated c (.message (E := E) c type p saved)) :
    s.step dv (.message c type p saved) = s ∨
    s.step dv (.message c type p saved) = s.goes c .done ∨
    s.step dv (.message c type p saved) =
      (s.sends (some c) [.reply disconnectResp []]).goes c .done := by
  obtain ⟨i, hi, hkeyed⟩ := hopen
  have hshut : s.gated c = true := (gated_iff h.wf hi).mpr ⟨hhave, hkeyed⟩
  simp only [step]
  split
  case h_2 => exact .inl rfl
  case h_1 =>
    simp only [handle]
    by_cases haudio : MsgType.of type = .vaAudio
    · have hnone := hg.quiet type p saved rfl hhave ⟨i, hi, hkeyed⟩ haudio
      rw [if_pos haudio, hnone]
      exact .inl rfl
    rw [if_neg haudio]
    by_cases hbye : MsgType.of type = .disconnectReq
    · simp only [hbye, ne_eq, not_true_eq_false, decide_false, Bool.and_false, Bool.false_eq_true,
        if_false, if_true]
      exact .inr (.inr trivial)
    · simp only [hbye, hshut, ne_eq, not_false_eq_true, decide_true, Bool.and_true, if_true]
      exact .inr (.inl trivial)

/-- A step shows nothing of the device to a connection without the key. -/
theorem quiet_step (h : s.Closed c) (hhave : s.table.haveKey = true) (hopen : s.Unkeyed c)
    {e : Ev E} (hg : s.Gated c e) : Quiet c s (s.step dv e) := by
  have hd := h.deaf hhave hopen
  cases e with
  | accept fd =>
    simp only [step]
    split
    case isTrue => exact .of_eq rfl
    case isFalse hnew => exact quiet_accept dv h.wf hd hopen (by simpa using hnew)
  | byte fd b =>
    simp only [step]
    split
    case h_2 => exact .of_eq rfl
    case h_1 =>
      simp only [firstByte]
      split
      · exact .of_eq rfl
      split
      · exact (Quiet.frame s fd []).trans (.of_eq rfl)
      split
      · exact .of_eq rfl
      · exact .of_eq rfl
  | handshake fd msg =>
    simp only [step]
    split
    case h_2 => exact .of_eq rfl
    case h_1 =>
      simp only [handshake]
      split
      case h_2 => exact .of_eq rfl
      case h_1 =>
        generalize (if s.table.haveKey then s.table.apiKey else List.replicate 32 0) = psk
        split
        · exact ((Quiet.frame s fd _).trans (Quiet.frame _ fd _)).trans (.of_eq rfl)
        · exact (Quiet.frame s fd _).trans (.of_eq rfl)
  | message fd type p saved =>
    by_cases hfc : fd = c
    · subst hfc
      -- of the connection itself: it is told off, or nothing is done
      rcases message_gated dv h hhave hopen hg with heq | heq | heq
      · rw [heq]
        exact .of_eq rfl
      · rw [heq]
        exact .of_eq rfl
      · rw [heq]
        exact (Quiet.farewell s fd).trans (.of_eq rfl)
    · simp only [step]
      split
      case h_2 => exact .of_eq rfl
      case h_1 i hth =>
        -- of another connection, which is not `c`'s place
        have hi := h.wf.slot fd _ hth
        simp only [handle]
        by_cases haudio : MsgType.of type = .vaAudio
        · rw [if_pos haudio]
          exact .of_eq rfl
        rw [if_neg haudio]
        by_cases hgated : (s.gated fd && decide (MsgType.of type ≠ .disconnectReq)) = true
        · rw [if_pos hgated]
          exact .of_eq rfl
        rw [if_neg hgated]
        by_cases hbye : MsgType.of type = .disconnectReq
        · rw [if_pos hbye]
          exact (Quiet.farewell s fd).trans (.of_eq rfl)
        rw [if_neg hbye]
        exact quiet_turns hd hi hfc (turns_dispatch dv (h.wf.clientOf_eq hi) type p saved)
  | agree fd out =>
    simp only [step]
    split
    case h_2 => exact .of_eq rfl
    case h_1 => exact (Quiet.frame _ fd _).trans (.of_eq rfl)
  | gone fd => exact .of_eq rfl
  | close fd =>
    simp only [step]
    split
    case h_2 => exact .of_eq rfl
    case h_1 => exact quiet_close dv hd
  | device e => exact .calls hd rfl _

end Shown

/-! ### Behind a handshake -/

section Handshaken

variable {t : Table} (dv : Device D E) {s : Srv D} {fd : ℕ}

/-- A connection counts as set up with the key only once it is encrypted. -/
def Handshaken (t : Table) : Prop := ∀ i, (t.clients i).keyed = true → (t.clients i).enc = true

theorem Handshaken.setClient (h : Handshaken t) {i : Fin 4} {c : Client}
    (hc : c.keyed = true → c.enc = true) :
    Handshaken (t.setClient i c) := by
  intro j
  simp only [Table.setClient]
  by_cases hj : j = i
  · rw [hj, update_self]
    exact hc
  · rw [update_of_ne hj]
    exact h j

theorem Handshaken.setOf (h : Handshaken t) {f : Client → Client}
    (hf : ∀ i, t.clientOf fd = some i →
    (f (t.clients i)).keyed = true → (f (t.clients i)).enc = true) : Handshaken (t.setOf fd f) := by
  unfold Table.setOf
  split
  case h_1 => exact h
  case h_2 i hi => exact h.setClient (hf i hi)

/-- Only a connection behind a handshake sets the key. -/
theorem handshaken_setKey (h : Handshaken s.table) (p : Bytes) (saved : Bool) :
    Handshaken (s.onSetKey fd p saved).table := by
  simp only [onSetKey]
  by_cases hmay : s.maySetKey fd = true
  · rw [if_pos hmay]
    have hclients := (s.keySet_spec (keyAsked p) saved).2.2.2.1
    generalize s.keySet (keyAsked p) saved = r at hclients ⊢
    have hr : Handshaken r.1.table := by
      unfold Handshaken
      rw [hclients]
      exact h
    split
    case isFalse => exact hr
    case isTrue =>
      refine hr.setOf fun i hi _ => ?_
      simp only [Table.clientOf, hclients] at hi
      simp only [maySetKey, Table.clientOf, hi] at hmay
      rw [hclients]
      split at hmay
      · exact h i hmay
      · exact hmay
  · rw [if_neg hmay]
    exact h

theorem handshaken_dispatch (h : Handshaken s.table) (type : ℕ) (p : Bytes) (saved : Bool) :
    Handshaken (s.dispatch dv fd type p saved).table := by
  have hset : ∀ f : Client → Client, (∀ c, (f c).keyed = c.keyed ∧ (f c).enc = c.enc) →
      Handshaken (s.table.setOf fd f) := by
    intro f hf
    refine h.setOf fun i _ hkeyed => ?_
    rw [(hf _).1] at hkeyed
    rw [(hf _).2]
    exact h i hkeyed
  unfold dispatch
  split
  case h_4 =>
    simp only [onSubscribeVa]
    split
    · exact h
    split
    · exact h
    · exact h
  case h_9 => exact handshaken_setKey h p saved
  case h_10 => exact h
  case h_1 | h_2 | h_3 => exact hset _ fun _ => ⟨rfl, rfl⟩
  case h_5 | h_6 | h_7 | h_8 =>
    split
    · exact hset _ fun _ => ⟨rfl, rfl⟩
    · exact h

theorem handshaken_step (e : Ev E) (h : Handshaken s.table) : Handshaken (s.step dv e).table := by
  cases e with
  | accept fd =>
    have hloads : Handshaken (if s.loaded then s else { s.keyLoad with loaded := true }).table := by
      split
      case isTrue => exact h
      case isFalse =>
        simp only [keyLoad]
        split <;> exact h
    simp only [step, accept]
    generalize (if s.loaded then s else { s.keyLoad with loaded := true }) = u at hloads ⊢
    split
    case isTrue => exact h
    split
    case h_1 => exact hloads
    case h_2 i hi =>
      -- a new connection has no key yet
      have hnew := hloads.setClient (i := i) (c := { fd := some fd }) fun hno =>
        absurd hno Bool.false_ne_true
      split
      · exact hnew
      · exact hnew
  | byte fd b =>
    simp only [step, firstByte]
    split
    · repeat' split
      all_goals exact h
    · exact h
  | handshake fd msg =>
    simp only [step, handshake]
    split
    · repeat' split
      all_goals exact h
    · exact h
  | message fd type p saved =>
    have hhandle : Handshaken (s.handle dv fd type p saved).1.table := by
      unfold handle
      split
      · exact h
      split
      · exact h
      split
      · exact h
      · exact handshaken_dispatch dv h type p saved
    simp only [step]
    split
    case h_2 => exact h
    case h_1 =>
      generalize s.handle dv fd type p saved = r at hhandle ⊢
      obtain ⟨u, keeps⟩ := r
      cases keeps with
      | true => exact hhandle
      | false => exact hhandle
  | agree fd out =>
    simp only [step]
    split
    · exact h.setClient fun _ => rfl
    · exact h
  | gone fd => exact h
  | close fd =>
    simp only [step, close]
    split
    case h_2 => exact h
    case h_1 i hi =>
      have hfree := h.setClient (i := i) (c := {}) fun hno => absurd hno Bool.false_ne_true
      repeat' split
      all_goals exact hfree
  | device e => exact h

end Handshaken

/-- The server before its first connection, with the file of a key or without. -/
def init (d : D) (file : Option Bytes) : Srv D := { dev := d, keyFile := file }

theorem closed_init (c : ℕ) (d : D) (file : Option Bytes) : (init d file).Closed c :=
  ⟨⟨nofun, nofun, nofun, nofun, fun _ _ => rfl⟩, fun hno => absurd hno Bool.false_ne_true⟩

/-- **Only a connection that completed the handshake counts as set up with the key**, in every
run. -/
theorem handshaken_run (dv : Device D E) (d : D) (file : Option Bytes) (l : List (Ev E)) :
    Handshaken ((init d file).run dv l).table :=
  Runs.invariant_all (I := fun s : Srv D => Handshaken s.table)
    (fun _ e h => handshaken_step dv e h)
    (fun _ hno => by cases hno) l

end Srv

/-- **The key gates the API**: in a run whose steps neither play audio of a connection without
the key nor set a key while it is subscribed, once there is a key no message of that connection
does anything but end it, and nothing of the device is shown to it. -/
theorem key_gates {D E : Type} (dv : Device D E) (d : D) (file : Option Bytes) (c : ℕ)
    (l : List (Ev E)) (hl : Runs.Each (Srv.step dv) (Srv.Gated c) (Srv.init d file) l)
    (hhave : ((Srv.init d file).run dv l).table.haveKey = true)
    (hopen : ((Srv.init d file).run dv l).Unkeyed c) :
    (∀ e, ((Srv.init d file).run dv l).Gated c e →
      Srv.Quiet c ((Srv.init d file).run dv l) (((Srv.init d file).run dv l).step dv e)) ∧
    ∀ type p saved, ((Srv.init d file).run dv l).Gated c (.message (E := E) c type p saved) →
      ((Srv.init d file).run dv l).step dv (.message c type p saved) =
        (Srv.init d file).run dv l ∨
      ((Srv.init d file).run dv l).step dv (.message c type p saved) =
        ((Srv.init d file).run dv l).goes c .done ∨
      ((Srv.init d file).run dv l).step dv (.message c type p saved) =
        (((Srv.init d file).run dv l).sends (some c) [.reply disconnectResp []]).goes c .done := by
  have hclosed : ((Srv.init d file).run dv l).Closed c :=
    Runs.invariant (Srv.closed_step dv) (Srv.closed_init c d file) hl
  constructor
  · intro e hg
    exact Srv.quiet_step dv hclosed hhave hopen hg
  · intro type p saved hg
    exact Srv.message_gated dv hclosed hhave hopen hg

/-- The voice assistant as the device, as far as it plays what it is sent; the client's first
message is under no key. -/
def voice : Device Voice.St Voice.Ev where
  hello := 1 :: "echo\x00020000000001\x00".toUTF8.toList
  readMsg1 psk _ := psk = List.replicate 32 0
  blePresent _ := false
  on d _ _ _ _ := (d, [])
  ttsData d pcm := d.coreTtsData pcm
  link d _ up ready := (d.coreLink up ready, [])
  left d _ := (d, [])
  happens d _ e := (d.step e, [])

/-- A connection without encryption comes, and then one that sets a key. -/
def keyComes : List (Ev Voice.Ev) :=
  [.accept 5, .byte 5 0, .accept 6, .byte 6 1, .handshake 6 [0], .agree 6 [],
    .message 6 124 ([0x0a, 44] ++ List.replicate 43 0x41 ++ [0x3d]) true]

/-- The first connection's ping closes it. -/
theorem key_gates_ping :
    ((Srv.init (Voice.St.init true) none).run voice keyComes).step voice (.message 5 7 [] false) =
      ((Srv.init (Voice.St.init true) none).run voice keyComes).goes 5 .done := by
  have hother : ∀ (s : Srv Voice.St) (e : Ev Voice.Ev),
      (∀ type p saved, e ≠ .message 5 type p saved) → (s.setsKey e = true → s.table.Deaf 5) →
      s.Gated 5 e :=
    fun s e hne hd => ⟨fun type p saved he => absurd he (hne type p saved), fun hk _ _ _ => hd hk⟩
  have hquiet : ∀ (s : Srv Voice.St) (e : Ev Voice.Ev),
      (∀ type p saved, e ≠ .message 5 type p saved) → s.setsKey e = false → s.Gated 5 e :=
    fun s e hne hd => hother s e hne fun hk => absurd (hd.symm.trans hk) Bool.false_ne_true
  have hgates := key_gates voice (Voice.St.init true) none 5 keyComes
    ⟨hquiet _ _ nofun rfl, hquiet _ _ nofun rfl, hquiet _ _ nofun rfl, hquiet _ _ nofun rfl,
      hquiet _ _ nofun rfl, hquiet _ _ nofun rfl,
      hother _ _ (fun _ _ _ he => by injection he with hfd; exact absurd hfd (by decide))
        (fun _ => ⟨by decide, by decide⟩), trivial⟩
    (by decide) ⟨0, by decide⟩
  have hping : Srv.Gated 5 ((Srv.init (Voice.St.init true) none).run voice keyComes)
      (.message (E := Voice.Ev) 5 7 [] false) := by
    refine ⟨fun type p saved he _ _ hno => ?_, fun hno => absurd hno (by decide)⟩
    injection he with _ htype
    rw [← htype] at hno
    exact absurd hno (by decide)
  rcases hgates.2 7 [] false hping with heq | heq | heq
  · have hpc := congrArg (fun s : Srv Voice.St => (s.threads 5).map Thread.pc) heq
    exact absurd hpc (by decide)
  · exact heq
  · have hout := congrArg (fun s : Srv Voice.St => s.out.length) heq
    exact absurd hout (by decide)

/-- Audio of the first connection is played all the same. -/
theorem audio_passes :
    ¬ ∀ (c : ℕ) (l : List (Ev Voice.Ev)) (type : ℕ) (p : Bytes) (saved : Bool),
      ((Srv.init (Voice.St.init true) none).run voice l).table.haveKey = true →
      ((Srv.init (Voice.St.init true) none).run voice l).Unkeyed c →
      (((Srv.init (Voice.St.init true) none).run voice l).step voice
        (.message c type p saved)).dev =
        ((Srv.init (Voice.St.init true) none).run voice l).dev := by
  intro h
  have hsame := h 5 keyComes 106 [0x0a, 2, 1, 0] false (by decide) ⟨0, by decide⟩
  have hqueue := congrArg (fun d : Voice.St => d.queue) hsame
  exact absurd hqueue (by decide)

end Hassmic.Api
