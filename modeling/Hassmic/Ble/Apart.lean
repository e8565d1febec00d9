import Hassmic.Ble.Links

/-!
# The end of one connection and the packets of the others

`free_conn` takes the packets out of the queue that wait for the handle of its connection.  A
connection that waits or is being set up has no handle yet, and its handle reads 0; but 0 is a
handle the controller may have given to another link.

## Main definitions

* `pending` — the packets that wait for a link.
* `Whole` — all that was queued for a link was written or waits, in order.
* `Spares` — no connection without a link ends while packets wait for handle 0, and writes go well.

## Main results

* `freeConn_exact_iff` — when the end of a connection takes its own packets and no others.
* `links_apart` — every run in which that is so: the links are kept apart.
* `packets_lost` — a run in which it is not.
-/

namespace Hassmic.Ble

open List Function

variable {w : Links} {i : Slot}

/-- The packets that wait for the link of a place. -/
def Links.pending (w : Links) (i : Slot) : List Frag := w.queue.filter fun f => f.slot = i

/-! ### Exactly its own -/

/-- A packet has the handle of a link if and only if it is of that link. -/
theorem handle_eq_iff (ht : Tidy w) {f : Frag} (hf : f ∈ w.queue) (hi : w.linked i) :
    f.handle = (w.conns i).handle ↔ f.slot = i := by
  obtain ⟨hlinked, hhandle⟩ := ht.packets f hf
  constructor
  · intro heq
    exact ht.apart hlinked hi (hhandle.symm.trans heq)
  · rintro rfl
    exact hhandle

/-- **The end of a connection takes its own packets and no others** if and only if it has a link, or
none waits for handle 0. -/
theorem freeConn_exact_iff (ht : Tidy w) (i : Slot) :
    (w.freeConn i).queue = w.queue.filter (fun f => f.slot ≠ i) ↔
      w.linked i ∨ ∀ f ∈ w.queue, f.handle ≠ 0 := by
  show w.queue.filter (fun f => f.handle ≠ (w.conns i).handle) = _ ↔ _
  constructor
  · intro heq
    by_cases hi : w.linked i
    · exact .inl hi
    · right
      intro f hf
      -- it is of another link, so it had to stay
      have hslot : f.slot ≠ i := by
        rintro rfl
        exact hi (ht.packets f hf).1
      have hstays : f ∈ w.queue.filter (fun f => f.slot ≠ i) := by
        rw [mem_filter]
        exact ⟨hf, by simpa using hslot⟩
      rw [← heq, mem_filter, (ht.blank hi).1] at hstays
      simpa using hstays.2
  · intro hspared
    apply filter_congr
    intro f hf
    obtain ⟨hlinked, -⟩ := ht.packets f hf
    by_cases hi : w.linked i
    · simp only [ne_eq, handle_eq_iff ht hf hi]
    · have hzero := hspared.resolve_left hi
      have hslot : f.slot ≠ i := by
        rintro rfl
        exact hi hlinked
      simp [(ht.blank hi).1, hzero f hf, hslot]

/-! ### Nothing is lost -/

/-- What was queued for a link was written or waits, in order, and makes up its frames. -/
def Whole (w : Links) : Prop :=
  ∀ i, w.linked i → w.written i ++ w.pending i = w.sent i ∧
    ((w.sent i).map Frag.payload).flatten = (w.frames i).flatten

/-- The tables have the same links, and the same was queued and written. -/
theorem Whole.congr {v : Links} (h : Whole w) (hl : ∀ j, v.linked j → w.linked j)
    (hq : v.queue = w.queue) (hw : v.written = w.written) (hs : v.sent = w.sent)
    (hf : v.frames = w.frames) : Whole v := by
  intro j hj
  unfold Links.pending
  rw [hq, hw, hs, hf]
  exact h j (hl j hj)

theorem Whole.set {c : Conn} (h : Whole w) (hc : c.state.linked = (w.conns i).state.linked) :
    Whole (w.set i c) := by
  refine h.congr (fun j hj => ?_) rfl rfl rfl rfl
  by_cases hji : j = i
  · subst hji
    rw [linked_set_self, hc] at hj
    exact hj
  · exact (linked_set_ne hji).mp hj

/-- What is written of the queue is written in order. -/
theorem whole_flush {q : List Frag} {ok : List Bool} (hok : ∀ b ∈ ok, b = true)
    (ht : Tidy { w with queue := q }) (h : Whole { w with queue := q }) :
    Whole (Links.flush q ok w) := by
  induction q generalizing w ok with
  | nil => exact h
  | cons f q ih =>
    rw [Links.flush]
    split
    · obtain ⟨hlinked, hhandle⟩ := ht.packets f mem_cons_self
      have hfound : w.byHandle f.handle = some f.slot := by
        rw [hhandle]
        exact ht.byHandle hlinked
      have hgood : ok.headD true = true := by
        cases ok with
        | nil => rfl
        | cons b ok => exact hok b mem_cons_self
      have hrest : Tidy { w with queue := q } := ht.fewer fun g hg => mem_cons_of_mem _ hg
      rw [hfound]
      simp only [hgood, if_true]
      refine ih (fun b hb => hok b (mem_of_mem_tail hb)) (hrest.wrote hlinked f) ?_
      -- the head of the queue is now the last that was written
      intro j hj
      have hj' : w.linked j := by
        by_cases hjf : j = f.slot
        · rw [hjf]
          exact hlinked
        · exact (linked_set_ne hjf).mp hj
      obtain ⟨hsent, hframes⟩ := h j hj'
      refine ⟨?_, hframes⟩
      show update w.written f.slot (w.written f.slot ++ [f]) j ++
        q.filter (fun g => g.slot = j) = w.sent j
      rw [← hsent]
      show _ = w.written j ++ (f :: q).filter (fun g => g.slot = j)
      by_cases hjf : j = f.slot
      · subst hjf
        rw [update_self, filter_cons_of_pos (by simp)]
        simp
      · rw [update_of_ne hjf, filter_cons_of_neg (by simpa using Ne.symm hjf)]
    · exact h

/-- Where the controller has room for all that waits, nothing waits any more; what was queued for a
link is the same. -/
theorem flush_room {q : List Frag} (ok : List Bool) (hroom : (q.length : ℤ) ≤ w.credits) :
    (Links.flush q ok w).queue = [] ∧ (Links.flush q ok w).sent = w.sent ∧
      ∀ j, (Links.flush q ok w).linked j ↔ w.linked j := by
  induction q generalizing w ok with
  | nil => exact ⟨rfl, rfl, fun _ => Iff.rfl⟩
  | cons f q ih =>
    rw [length_cons, Nat.cast_succ] at hroom
    have hpos : 0 < w.credits := by omega
    rw [Links.flush, if_pos hpos]
    split
    · exact ih ok (by omega)
    · next i hi =>
      split
      · have hless : (q.length : ℤ) ≤ (w.wrote i f).credits := by
          show (q.length : ℤ) ≤ w.credits - 1
          omega
        obtain ⟨hqueue, hsent, hlinked⟩ := ih ok.tail hless
        refine ⟨hqueue, hsent, fun j => (hlinked j).trans ?_⟩
        by_cases hji : j = i
        · subst hji
          exact linked_set_self
        · exact linked_set_ne hji
      · exact ih ok.tail (by omega)

/-- A frame joins the queue. -/
theorem whole_queueFrame (ht : Tidy w) (h : Whole w) (hi : w.linked i) (frame : Bytes) :
    Whole (w.queueFrame i frame) := by
  intro j hj
  obtain ⟨hsent, hframes⟩ := h j hj
  show w.written j ++ (w.queue ++ fragments (w.conns i).handle w.aclLen i frame).filter
      (fun f => f.slot = j) = update w.sent i _ j ∧
    ((update w.sent i _ j).map Frag.payload).flatten
      = (update w.frames i _ j).flatten
  rw [filter_append, ← append_assoc]
  by_cases hji : j = i
  · subst hji
    rw [update_self, update_self]
    refine ⟨?_, ?_⟩
    · rw [← hsent]
      congr 1
      exact filter_eq_self.mpr fun f hf => by simp [(mem_fragments hf).1]
    · rw [map_append, flatten_append, hframes, payload_fragments _ ht.len,
        flatten_append]
      simp
  · rw [update_of_ne hji, update_of_ne hji]
    refine ⟨?_, hframes⟩
    have hnone : (fragments (w.conns i).handle w.aclLen i frame).filter
        (fun f => f.slot = j) = [] :=
      filter_eq_nil_iff.mpr fun f hf => by simp [(mem_fragments hf).1, Ne.symm hji]
    rw [hnone, append_nil]
    exact hsent

/-- A connection ends that takes no packets but its own. -/
theorem whole_freeConn (ht : Tidy w) (h : Whole w)
    (hspared : w.linked i ∨ ∀ f ∈ w.queue, f.handle ≠ 0) : Whole (w.freeConn i) := by
  intro j hj
  obtain ⟨hji, hlinked⟩ := linked_freeConn.mp hj
  obtain ⟨hsent, hframes⟩ := h j hlinked
  have hpending : (w.freeConn i).pending j = w.pending j := by
    unfold Links.pending
    rw [(freeConn_exact_iff ht i).mpr hspared, filter_filter]
    apply filter_congr
    intro f _
    by_cases hfj : f.slot = j
    · simp [hfj, hji]
    · simp [hfj]
  show update w.written i [] j ++ (w.freeConn i).pending j = update w.sent i [] j ∧
    ((update w.sent i [] j).map Frag.payload).flatten
      = (update w.frames i [] j).flatten
  rw [update_of_ne hji, update_of_ne hji, update_of_ne hji, hpending]
  exact ⟨hsent, hframes⟩

/-- A link comes up with nothing to send. -/
theorem whole_linkUp (ht : Tidy w) (h : Whole w) (hi : ¬ w.linked i) (c : Conn) (k : ℕ) :
    Whole (w.linkUp i c k) := by
  intro j hj
  by_cases hji : j = i
  · subst hji
    obtain ⟨hframes, hsent, hwritten⟩ := ht.none hi
    have hnone : w.pending j = [] :=
      filter_eq_nil_iff.mpr fun f hf => by
        simp only [decide_eq_true_eq]
        rintro rfl
        exact hi (ht.packets f hf).1
    show w.written j ++ w.pending j = w.sent j ∧ _
    rw [hnone, hwritten, hsent]
    refine ⟨rfl, ?_⟩
    show ((w.sent j).map Frag.payload).flatten = (w.frames j).flatten
    rw [hsent, hframes]
    rfl
  · exact h j ((linked_set_ne hji).mp hj)

theorem whole_complete (h : Whole w) (k n : ℕ) : Whole (w.complete k n) := by
  unfold Links.complete
  simp only
  have hsame : Whole { w with
      credits := min (w.credits + n) w.aclNum
      held := update w.held k (w.held k - n) } := h.congr (fun _ hj => hj) rfl rfl rfl rfl
  split
  · exact hsame
  · exact hsame.set rfl

/-! ### Each step -/

/-- Which of its writes go well. -/
def Ev.writes : Ev → List Bool
  | .send _ _ _ ok | .completed _ ok => ok
  | _ => []

/-- A connection that ends has a link, or no packet waits for handle 0; and writes go well. -/
def Spares (w : Links) (e : Ev) : Prop :=
  (∀ i ∈ w.frees e, w.linked i ∨ ∀ f ∈ w.queue, f.handle ≠ 0) ∧ ∀ b ∈ e.writes, b = true

/-- A link ends that the controller has ended. -/
theorem whole_disconnected (ht : Tidy w) (h : Whole w) (k : ℕ) :
    Whole (w.step (.disconnected k)) := by
  simp only [Links.step]
  cases hi : w.byHandle k with
  | none => exact h.congr (fun _ hj => hj) rfl rfl rfl rfl
  | some i =>
    have hfree := whole_freeConn ht h (.inl (linked_of_byHandle hi).1)
    exact hfree.congr (fun _ hj => hj) rfl rfl rfl rfl

/-- **Each step keeps the links whole.** -/
theorem whole_step (ht : Tidy w) (h : Whole w) {e : Ev} (hspares : Spares w e) :
    Whole (w.step e) := by
  have hmoves := moves_step ht e
  generalize w.step e = v at hmoves
  cases hmoves with
  | stays => exact h
  | changes hl => exact h.set hl
  | ends hfrees => exact whole_freeConn ht h (hspares.1 _ hfrees)
  | comes _ hi => exact whole_linkUp ht h hi _ _
  | stranger => exact h.congr (fun _ hj => hj) rfl rfl rfl rfl
  | sends cid pdu ok hi =>
    unfold Links.l2capSend
    split
    · exact h
    · exact whole_flush hspares.2 (tidy_queueFrame ht hi _) (whole_queueFrame ht h hi _)
  | told reports ok =>
    have hreports : Tidy (reports.foldl (fun w r => w.complete r.1 r.2) w) ∧
        Whole (reports.foldl (fun w r => w.complete r.1 r.2) w) :=
      Runs.invariant_all (I := fun v => Tidy v ∧ Whole v)
        (fun v r hv => ⟨tidy_complete hv.1 r.1 r.2, whole_complete hv.2 r.1 r.2⟩) ⟨ht, h⟩ reports
    exact whole_flush hspares.2 hreports.1 hreports.2
  | down k => exact whole_disconnected ht h k
  | lost len num =>
    exact fun j hj => absurd hj (by simp [Links.linked, Links.setup, CState.linked])

/-! ### Whole runs -/

/-- The links after a run. -/
def Links.after (w : Links) (l : List Ev) : Links := l.foldl Links.step w

/-- **The links are kept apart.**  After every run in which the controller is honest, no connection
without a link ends while packets wait for handle 0, and writes go well: the end of a connection
takes its own packets and no others if and only if it has a link or none waits for handle 0; it
changes nothing of another connection; and all that was queued for a link that is up was written or
waits, in order, makes up its frames, and is written once the controller has room. -/
theorem links_apart (len num : ℕ) (l : List Ev) (w : Links)
    (hl : Runs.Each Links.step (fun v e => Honest v e ∧ Spares v e) (.setup len num) l)
    (hw : w = (Links.setup len num).after l) :
    (∀ i, (w.freeConn i).queue = w.queue.filter (fun f => f.slot ≠ i) ↔
      w.linked i ∨ ∀ f ∈ w.queue, f.handle ≠ 0) ∧
    (∀ i j, j ≠ i → (w.freeConn i).conns j = w.conns j) ∧
    ∀ i, w.linked i → w.written i ++ w.pending i = w.sent i ∧
      ((w.sent i).map Frag.payload).flatten = (w.frames i).flatten ∧
      (w.queue.length ≤ w.credits → (w.aclFlush []).written i = w.sent i) := by
  have hinv : Tidy w ∧ Whole w := by
    rw [hw]
    refine Runs.invariant (I := fun v => Tidy v ∧ Whole v) ?_ ⟨tidy_setup len num, ?_⟩ hl
    · rintro v e ⟨ht, h⟩ ⟨hhonest, hspares⟩
      exact ⟨tidy_step ht hhonest, whole_step ht h hspares⟩
    · exact fun j hj => absurd hj (by simp [Links.linked, Links.setup, CState.linked])
  obtain ⟨ht, hwhole⟩ := hinv
  refine ⟨freeConn_exact_iff ht, fun i j hji => conns_set_ne hji _, fun i hi => ?_⟩
  refine ⟨(hwhole i hi).1, (hwhole i hi).2, fun hroom => ?_⟩
  obtain ⟨hqueue, hsent, hlinked⟩ := flush_room (w := w) [] hroom
  obtain ⟨hall, -⟩ := whole_flush (by simp) ht hwhole i ((hlinked i).mpr hi)
  rw [hsent, Links.pending, hqueue, filter_nil, append_nil] at hall
  exact hall

/-- A link with a handle is up, and the controller has room for one packet. -/
def busyLink (h : ℕ) : List Ev :=
  [.connect 1, .connectNext, .connected h, .ready 0, .send 0 4 [2, 5, 2] [],
    .send 0 4 [10, 3, 0] [], .connect 2]

/-- With handle 0 its second packet is lost when an attempt to connect to another device is called
off: it is neither written nor does it wait any more, and the link is up. -/
theorem packets_lost :
    let w := (Links.setup 27 1).after (busyLink 0)
    let v := w.step (.disconnect 2)
    w.linked 0 ∧ (w.pending 0).length = 1 ∧ (w.conns 1).state = .wait ∧ v = w.freeConn 1 ∧
    v.linked 0 ∧ v.written 0 ++ v.pending 0 ≠ v.sent 0 := by
  intro w v
  obtain ⟨hfound, hwait, hrest⟩ : w.byAddr 2 = some 1 ∧ (w.conns 1).state = .wait ∧
      w.linked 0 ∧ (w.pending 0).length = 1 ∧ v.linked 0 ∧
      v.written 0 ++ v.pending 0 ≠ v.sent 0 := by
    decide
  obtain ⟨hlinked, hpending, hstays, hlost⟩ := hrest
  have hfreed : v = w.freeConn 1 := by
    show Links.step w (.disconnect 2) = _
    simp only [Links.step, hfound, hwait]
  exact ⟨hlinked, hpending, hwait, hfreed, hstays, hlost⟩

/-- With handle 1 it waits on. -/
theorem links_apart_busyLink :
    let w := (Links.setup 27 1).after (busyLink 1 ++ [.disconnect 2])
    w.linked 0 ∧ (w.pending 0).length = 1 ∧ w.written 0 ++ w.pending 0 = w.sent 0 := by
  intro w
  have hl : Runs.Each Links.step (fun v e => Honest v e ∧ Spares v e) (.setup 27 1)
      (busyLink 1 ++ [.disconnect 2]) := by
    simp only [busyLink, cons_append, nil_append, Runs.Each, Honest, Spares]
    refine ⟨⟨?_, ?_⟩, ⟨?_, ?_⟩, ⟨?_, ?_⟩, ⟨?_, ?_⟩, ⟨?_, ?_⟩, ⟨?_, ?_⟩, ⟨?_, ?_⟩, ⟨?_, ?_⟩, trivial⟩
      <;> decide
  have hup : w.linked 0 := by decide
  obtain ⟨-, -, hwhole⟩ := links_apart 27 1 _ w hl rfl
  exact ⟨hup, by decide, (hwhole 0 hup).1⟩

end Hassmic.Ble
