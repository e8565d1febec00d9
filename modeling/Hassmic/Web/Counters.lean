import Hassmic.Web.Clients

/-!
# A signed request counts once

From the approval of a browser on, as long as it stays approved, each of its counters
is taken at most once while the daemon runs, and one of a request that changes something
at most once over all its runs: what was taken is at the floor or in the window, and
what changed something is no higher than the counter in the file.

## Main definitions

* `Spent` — a counter that no longer counts.
* `counters`, `changes` — the counters of a browser that were taken.
* `Window`, `Kept` — the invariant.

## Main results

* `signed_once` — a signed request counts once.
-/

namespace Hassmic.Web

open Arb List Function Option

/-! ### The window -/

/-- A counter at the floor or in the window. -/
def Spent (c : Client) (n : UInt64) : Prop :=
  n ≤ c.floor ∨ ∃ i : Fin ctrWindow, i.1 < c.nseen ∧ c.seen i = n

theorem ctrFresh_iff (c : Client) (n : UInt64) : ctrFresh c n = true ↔ ¬ Spent c n := by
  have hseen : ((List.finRange ctrWindow).any fun i => decide (i.1 < c.nseen) && c.seen i == n)
      = true ↔ ∃ i : Fin ctrWindow, i.1 < c.nseen ∧ c.seen i = n := by
    simp [List.any_eq_true]
  rw [Spent, ← hseen, ctrFresh, Bool.and_eq_true, decide_eq_true_eq, Bool.not_eq_true',
    Bool.eq_false_iff, not_or, UInt64.not_le]

theorem spent_ctrTake_self (c : Client) (n : UInt64) : Spent (ctrTake c n) n := by
  unfold ctrTake
  split
  · next h => exact .inr ⟨⟨c.nseen, h⟩, Nat.lt_succ_self _, update_self ..⟩
  · next h =>
    refine .inr ⟨lowest c, ?_, update_self ..⟩
    have := (lowest c).2
    show (lowest c).1 < c.nseen
    omega

variable {c k : Client} {l : List Client} {pub pub' : Blob 32} {d : Daemon}
  {log : List (Option (Blob 32 × UInt64 × Bool))} {n : UInt64}

/-- What was spent stays so: what leaves the window is at the floor then. -/
theorem Spent.ctrTake {m : UInt64} (h : Spent c m) (n : UInt64) :
    Spent (ctrTake c n) m := by
  unfold Web.ctrTake
  split
  · next hroom =>
    rcases h with h | ⟨i, hi, heq⟩
    · exact .inl h
    · refine .inr ⟨i, Nat.lt_succ_of_lt hi, ?_⟩
      rw [← heq]
      exact update_of_ne (fun h => by rw [h] at hi; exact absurd hi (lt_irrefl _)) ..
  · next hroom =>
    have hfloor : c.floor ≤ (if c.floor < c.seen (lowest c) then c.seen (lowest c) else c.floor) ∧
        c.seen (lowest c) ≤
          (if c.floor < c.seen (lowest c) then c.seen (lowest c) else c.floor) := by
      simp only [UInt64.le_iff_toNat_le, UInt64.lt_iff_toNat_lt]
      split <;> omega
    rcases h with h | ⟨i, hi, heq⟩
    · exact .inl (UInt64.le_trans h hfloor.1)
    · by_cases hlow : i = lowest c
      · refine .inl ?_
        rw [← heq, hlow]
        exact hfloor.2
      · exact .inr ⟨i, hi, by rw [← heq]; exact update_of_ne hlow ..⟩

/-- The window holds what it held, and the counter taken. -/
theorem seen_ctrTake (c : Client) (n : UInt64) {i : Fin ctrWindow}
    (hi : i.1 < (ctrTake c n).nseen) :
    (ctrTake c n).seen i = n ∨ i.1 < c.nseen ∧ (ctrTake c n).seen i = c.seen i := by
  revert hi
  unfold ctrTake
  split
  · next hroom =>
    intro hi
    by_cases h : i = ⟨c.nseen, hroom⟩
    · exact .inl (by rw [h]; exact update_self ..)
    · have hne : i.1 ≠ c.nseen := fun hh => h (Fin.ext hh)
      have hlt : i.1 < c.nseen + 1 := hi
      exact .inr ⟨by omega, update_of_ne h ..⟩
  · next hroom =>
    intro hi
    by_cases h : i = lowest c
    · exact .inl (by rw [h]; exact update_self ..)
    · exact .inr ⟨hi, update_of_ne h ..⟩

theorem ctr_ctrTake (c : Client) (n : UInt64) :
    c.ctr ≤ (ctrTake c n).ctr ∧ n ≤ (ctrTake c n).ctr := by
  have h : (ctrTake c n).ctr = if c.ctr < n then n else c.ctr := by
    unfold ctrTake
    split <;> rfl
  rw [h]
  simp only [UInt64.le_iff_toNat_le, UInt64.lt_iff_toNat_lt]
  split <;> omega

@[simp] theorem pub_ctrTake (c : Client) (n : UInt64) : (ctrTake c n).pub = c.pub := by
  unfold ctrTake
  split <;> rfl

/-! ### The entries of a browser -/

/-- The entries of a browser. -/
def entries (pub : Blob 32) (l : List Client) : List Client := l.filter fun c => c.pub == pub

theorem clientOf_eq (l : List Client) (pub : Blob 32) : clientOf l pub = (entries pub l).head? :=
  (head?_filter ..).symm

theorem clientOf_pub (h : clientOf l pub = some c) :
    c.pub = pub := by
  exact beq_iff_eq.mp (find?_some (p := fun c : Client => c.pub == pub) h)

theorem length_setClient (l : List Client) (pub : Blob 32) (k : Client) :
    (setClient l pub k).length = l.length := by
  induction l with
  | nil => rfl
  | cons c l ih =>
    rw [setClient]
    split
    · rfl
    · rw [length_cons, length_cons, ih]

theorem entries_setClient_ne (hne : pub' ≠ pub)
    (hk : k.pub = pub') (l : List Client) : entries pub (setClient l pub' k) = entries pub l := by
  induction l with
  | nil => rfl
  | cons c l ih =>
    rw [setClient]
    split
    · next hc =>
      have hk' : ¬ (k.pub == pub) = true := fun h => hne (hk.symm.trans (beq_iff_eq.mp h))
      have hc' : ¬ (c.pub == pub) = true := fun h => hne (hc.symm.trans (beq_iff_eq.mp h))
      rw [entries, entries, filter_cons, if_neg hk', filter_cons, if_neg hc']
    · rw [entries, entries, filter_cons, filter_cons]
      simp only [entries] at ih
      rw [ih]

theorem entries_setClient_self {k' : Client} (hk : k'.pub = pub) (hl : entries pub l = [k]) :
    entries pub (setClient l pub k') = [k'] := by
  induction l with
  | nil => exact absurd hl (by simp [entries])
  | cons c l ih =>
    rw [setClient]
    rw [entries, filter_cons] at hl
    split
    · next hc =>
      rw [if_pos (by simp [hc])] at hl
      have hrest : l.filter (fun c => c.pub == pub) = [] := (List.cons.inj hl).2
      rw [entries, filter_cons, if_pos (by simp [hk]), hrest]
    · next hc =>
      rw [if_neg fun h => hc (beq_iff_eq.mp h)] at hl
      rw [entries, filter_cons, if_neg fun h => hc (beq_iff_eq.mp h)]
      exact ih hl

theorem entries_reloaded (pub : Blob 32) (l : List Client) :
    entries pub (l.map reloaded) = (entries pub l).map reloaded := by
  rw [entries, List.filter_map]
  rfl

/-! ### What was taken -/

/-- The counter of an entry of the log that is of the browser. -/
def counterOf (pub : Blob 32) : Option (Blob 32 × UInt64 × Bool) → Option UInt64
  | some (p, n, _) => if p = pub then some n else none
  | none => none

/-- The counter of an entry of the log that is of the browser and changed something. -/
def changeOf (pub : Blob 32) : Option (Blob 32 × UInt64 × Bool) → Option UInt64
  | some (p, n, persist) => if p = pub ∧ persist then some n else none
  | none => none

/-- The counters of a browser that were taken. -/
def counters (pub : Blob 32) (log : List (Option (Blob 32 × UInt64 × Bool))) : List UInt64 :=
  log.filterMap (counterOf pub)

/-- Those of them whose request changed something. -/
def changes (pub : Blob 32) (log : List (Option (Blob 32 × UInt64 × Bool))) : List UInt64 :=
  log.filterMap (changeOf pub)

/-- Within each run of the daemon no counter was taken twice. -/
def OncePerRun (pub : Blob 32) (log : List (Option (Blob 32 × UInt64 × Bool))) : Prop :=
  ∀ b, b <:+: log → none ∉ b → (counters pub b).Nodup

/-- What the daemon knows of a browser and its counters, with `log` what was taken since it
was approved. -/
structure Window (pub : Blob 32) (log : List (Option (Blob 32 × UInt64 × Bool))) (d : Daemon)
    (k : Client) : Prop where
  room : d.clients.length ≤ maxClients
  only : entries pub d.clients = [k]
  top : ∀ n ∈ changes pub log, n ≤ k.ctr
  spent : ∀ n ∈ changes pub log, Spent k n
  spentRun : ∀ b, b <:+ log → none ∉ b → ∀ n ∈ counters pub b, Spent k n
  seen : ∀ i : Fin ctrWindow, i.1 < k.nseen → k.seen i ∈ counters pub log
  once : (changes pub log).Nodup
  oncePerRun : OncePerRun pub log

/-- What the file knows of it. -/
def Filed (pub : Blob 32) (log : List (Option (Blob 32 × UInt64 × Bool))) (file : Option Bytes) :
    Prop :=
  ∃ cs f, file = some (clientsText cs) ∧ cs.length ≤ maxClients ∧ entries pub cs = [f] ∧
    ∀ n ∈ changes pub log, n ≤ f.ctr

/-- The browser has been approved since the log was `base`. -/
def Kept (pub : Blob 32) (base : List (Option (Blob 32 × UInt64 × Bool))) (d : Daemon) : Prop :=
  ∃ log k, d.log = base ++ log ∧ Window pub log d k ∧ Filed pub log d.file

theorem Window.congr {d' : Daemon} (h : Window pub log d k) (hroom : d'.clients.length ≤ maxClients)
    (honly : entries pub d'.clients = entries pub d.clients) : Window pub log d' k :=
  { h with room := hroom, only := honly.trans h.only }

/-- The file that is written knows what the daemon knows. -/
theorem Window.filed (h : Window pub log d k) :
    Filed pub log (some (clientsText d.clients)) :=
  ⟨d.clients, k, rfl, h.room, h.only, h.top⟩

theorem counters_concat (pub : Blob 32) (log : List (Option (Blob 32 × UInt64 × Bool)))
    (e : Option (Blob 32 × UInt64 × Bool)) :
    counters pub (log ++ [e]) = counters pub log ++ (counterOf pub e).toList := by
  rw [counters, filterMap_append, filterMap_cons, filterMap_nil]
  cases counterOf pub e <;> rfl

theorem changes_concat (pub : Blob 32) (log : List (Option (Blob 32 × UInt64 × Bool)))
    (e : Option (Blob 32 × UInt64 × Bool)) :
    changes pub (log ++ [e]) = changes pub log ++ (changeOf pub e).toList := by
  rw [changes, filterMap_append, filterMap_cons, filterMap_nil]
  cases changeOf pub e <;> rfl

/-- A suffix without a start of a longer log: of the log before, and what came. -/
theorem suffix_concat {α : Type*} {b log : List (Option α)} {e : Option α} (h : b <:+ log ++ [e]) :
    b = [] ∨ ∃ t, t <:+ log ∧ b = t ++ [e] := by
  rcases suffix_concat_iff.mp h with h | ⟨t, h, ht⟩
  · exact .inl h
  · exact .inr ⟨t, ht, h⟩

/-- An entry that is not of the browser leaves all as it is. -/
theorem Window.other (h : Window pub log d k) {e : Option (Blob 32 × UInt64 × Bool)}
    (he : counterOf pub e = none) (hc : changeOf pub e = none) : Window pub (log ++ [e]) d k := by
  have hcounters : ∀ l, counters pub (l ++ [e]) = counters pub l := by
    intro l
    rw [counters_concat, he, toList_none, append_nil]
  have hchanges : changes pub (log ++ [e]) = changes pub log := by
    rw [changes_concat, hc, toList_none, append_nil]
  refine ⟨h.room, h.only, ?_, ?_, ?_, ?_, ?_, ?_⟩
  · rw [hchanges]
    exact h.top
  · rw [hchanges]
    exact h.spent
  · intro b hb hnone n hn
    rcases suffix_concat hb with rfl | ⟨t, ht, rfl⟩
    · exact absurd hn (by simp [counters])
    · rw [hcounters] at hn
      exact h.spentRun t ht (fun hh => hnone (mem_append_left _ hh)) n hn
  · rw [hcounters]
    exact h.seen
  · rw [hchanges]
    exact h.once
  · intro b hb hnone
    rcases infix_concat_iff.mp hb with hb | hb
    · rcases suffix_concat hb with rfl | ⟨t, ht, rfl⟩
      · exact nodup_nil
      · rw [hcounters]
        exact h.oncePerRun t ht.isInfix fun hh => hnone (mem_append_left _ hh)
    · exact h.oncePerRun b hb hnone

/-- A counter of the browser is taken. -/
theorem Window.take {d' : Daemon} (h : Window pub log d k) (hn : ¬ Spent k n)
    (persist : Bool) (hd : d'.clients = setClient d.clients pub (ctrTake k n)) (hk : k.pub = pub) :
    Window pub (log ++ [some (pub, n, persist)]) d' (ctrTake k n) := by
  -- the counter is logged, and what it changed at most
  have hcounters : ∀ l, counters pub (l ++ [some (pub, n, persist)]) = counters pub l ++ [n] := by
    intro l
    rw [counters_concat, counterOf, if_pos rfl]
    rfl
  have hchanges : ∀ m, m ∈ changes pub (log ++ [some (pub, n, persist)]) →
      m ∈ changes pub log ∨ m = n := by
    intro m hm
    rw [changes_concat, mem_append] at hm
    refine hm.imp id fun hm => ?_
    simp only [changeOf, true_and] at hm
    split at hm
    · exact mem_singleton.mp hm
    · exact absurd hm (by simp)
  refine ⟨?_, ?_, ?_, ?_, ?_, ?_, ?_, ?_⟩
  · rw [hd, length_setClient]
    exact h.room
  · rw [hd]
    exact entries_setClient_self (by rw [pub_ctrTake, hk]) h.only
  · intro m hm
    rcases hchanges m hm with hm | rfl
    · exact UInt64.le_trans (h.top m hm) (ctr_ctrTake k n).1
    · exact (ctr_ctrTake k m).2
  · intro m hm
    rcases hchanges m hm with hm | rfl
    · exact (h.spent m hm).ctrTake n
    · exact spent_ctrTake_self k m
  · intro b hb hnone m hm
    rcases suffix_concat hb with rfl | ⟨t, ht, rfl⟩
    · exact absurd hm (by simp [counters])
    · rw [hcounters, mem_append, mem_singleton] at hm
      rcases hm with hm | rfl
      · exact (h.spentRun t ht (fun hh => hnone (mem_append_left _ hh)) m hm).ctrTake n
      · exact spent_ctrTake_self k m
  · intro i hi
    rw [hcounters, mem_append, mem_singleton]
    -- a place of the window is the new counter's or what it was
    rcases seen_ctrTake k n hi with heq | ⟨hi, heq⟩
    · exact .inr heq
    · rw [heq]
      exact .inl (h.seen i hi)
  · rw [changes_concat]
    simp only [changeOf, true_and]
    split
    · rw [toList_some, nodup_append]
      refine ⟨h.once, nodup_singleton n, ?_⟩
      intro m hm m' hm' heq
      rw [heq, mem_singleton.mp hm'] at hm
      exact hn (h.spent n hm)
    · simpa using h.once
  · intro b hb hnone
    rcases infix_concat_iff.mp hb with hb | hb
    · rcases suffix_concat hb with rfl | ⟨t, ht, rfl⟩
      · exact nodup_nil
      · have hnone' : none ∉ t := fun hh => hnone (mem_append_left _ hh)
        rw [hcounters, nodup_append]
        refine ⟨h.oncePerRun t ht.isInfix hnone', nodup_singleton n, ?_⟩
        intro m hm m' hm' heq
        rw [heq, mem_singleton.mp hm'] at hm
        exact hn (h.spentRun t ht hnone' n hm)
    · exact h.oncePerRun b hb hnone

/-! ### Steps -/

/-- What `signed_ok` takes is a fresh counter of an approved browser. -/
theorem takes_spec {C : Crypto} {r : Req}
    (h : d.takes C r = some (c, n)) : clientOf d.clients c.pub = some c ∧ ¬ Spent c n := by
  simp only [Daemon.takes, bind_eq_bind, bind_eq_some_iff] at h
  obtain ⟨m, -, pub, -, mac, -, h⟩ := h
  split at h
  · exact absurd h (by simp)
  · obtain ⟨c', hc, h⟩ := bind_eq_some_iff.mp h
    split at h
    · exact absurd h (by simp)
    · next hfresh =>
      obtain ⟨key, -, h⟩ := bind_eq_some_iff.mp h
      split at h
      · simp only [Option.some.injEq, Prod.mk.injEq] at h
        obtain ⟨rfl, rfl⟩ := h
        rw [clientOf_pub hc]
        refine ⟨hc, (ctrFresh_iff c' m.1).mp ?_⟩
        simpa using hfresh
      · exact absurd h (by simp)

/-- The browser and the counter of a request are those it names. -/
theorem takes_names {C : Crypto} {r : Req} (h : d.takes C r = some (c, n)) :
    Text.unsigned 10 r.ctr = some (n, []) ∧ unhex 32 r.pub = some c.pub := by
  simp only [Daemon.takes, bind_eq_bind, bind_eq_some_iff] at h
  obtain ⟨m, hctr, pub, hpub, mac, -, h⟩ := h
  split at h
  · exact absurd h (by simp)
  · next hend =>
    obtain ⟨c', hc, h⟩ := bind_eq_some_iff.mp h
    split at h
    · exact absurd h (by simp)
    · obtain ⟨key, -, h⟩ := bind_eq_some_iff.mp h
      split at h
      · simp only [Option.some.injEq, Prod.mk.injEq] at h
        obtain ⟨rfl, rfl⟩ := h
        have hend : m.2 = [] := not_not.mp hend
        rw [hctr, hpub, clientOf_pub hc, ← hend]
        exact ⟨rfl, rfl⟩
      · exact absurd h (by simp)

/-- A request counts if its counter is taken. -/
theorem signedOk_iff {C : Crypto} (r : Req) (persist : Bool) :
    (d.signedOk C r persist).1 = true ↔ (d.takes C r).isSome := by
  unfold Daemon.signedOk
  cases d.takes C r with
  | none => simp
  | some cn => simp

/-- What is left of the browsers has the browser's entry as it was, if it has one. -/
theorem entries_sublist {l' : List Client} (h : l'.Sublist l)
    (hl : entries pub l = [k]) (hstay : (clientOf l' pub).isSome) : entries pub l' = [k] := by
  have hsub : (entries pub l').Sublist [k] := hl ▸ h.filter _
  rcases sublist_singleton.mp hsub with hnil | hk
  · rw [clientOf_eq, hnil] at hstay
    exact absurd hstay (by simp)
  · exact hk

variable {C : Crypto} {pub : Blob 32} {base : List (Option (Blob 32 × UInt64 × Bool))} {d : Daemon}

/-- A browser has one entry, and that is the one found. -/
theorem Window.clientOf_eq_some (h : Window pub log d k) : clientOf d.clients pub = some k := by
  rw [clientOf_eq, h.only]
  rfl

theorem Window.pub_eq (h : Window pub log d k) : k.pub = pub :=
  clientOf_pub h.clientOf_eq_some

theorem kept_signedOk (h : Kept pub base d) (r : Req) (persist : Bool) :
    Kept pub base (d.signedOk C r persist).2 := by
  obtain ⟨log, k, hlog, hwin, hfile⟩ := h
  unfold Daemon.signedOk
  cases htakes : d.takes C r with
  | none => exact ⟨log, k, hlog, hwin, hfile⟩
  | some cn =>
    obtain ⟨c, n⟩ := cn
    obtain ⟨hc, hspent⟩ := takes_spec htakes
    have hlog' : d.log ++ [some (c.pub, n, persist)] =
        base ++ (log ++ [some (c.pub, n, persist)]) := by
      rw [hlog, append_assoc]
    by_cases hpub : c.pub = pub
    · -- the browser's own
      rw [hpub] at hc hlog'
      obtain rfl : k = c := some.inj (hwin.clientOf_eq_some.symm.trans hc)
      simp only [hpub]
      cases persist with
      | true =>
        have hwin' : Window pub (log ++ [some (pub, n, true)])
            { d with clients := setClient d.clients pub (ctrTake k n) } (ctrTake k n) :=
          hwin.take hspent true rfl hpub
        exact ⟨_, _, hlog', hwin'.congr hwin'.room rfl, hwin'.filed⟩
      | false =>
        refine ⟨_, _, hlog', hwin.take hspent false rfl hpub, ?_⟩
        obtain ⟨cs, f, hcs, hlen, hf, hle⟩ := hfile
        refine ⟨cs, f, hcs, hlen, hf, ?_⟩
        simpa [changes_concat, changeOf] using hle
    · -- another's
      have hother : counterOf pub (some (c.pub, n, persist)) = none := if_neg hpub
      have hother' : changeOf pub (some (c.pub, n, persist)) = none := if_neg fun h => hpub h.1
      have hwin' : Window pub (log ++ [some (c.pub, n, persist)])
          { d with clients := setClient d.clients c.pub (ctrTake c n) } k :=
        (hwin.congr (by rw [length_setClient]; exact hwin.room)
          (entries_setClient_ne hpub (pub_ctrTake c n) _)).other hother hother'
      cases persist with
      | true => exact ⟨_, k, hlog', hwin'.congr hwin'.room rfl, hwin'.filed⟩
      | false =>
        refine ⟨_, k, hlog', hwin'.congr hwin'.room rfl, ?_⟩
        obtain ⟨cs, f, hcs, hlen, hf, hle⟩ := hfile
        refine ⟨cs, f, hcs, hlen, hf, ?_⟩
        rwa [changes_concat, hother', toList_none, append_nil]

theorem kept_saveClients (hlog : d.log = base ++ log) (h : Window pub log d k) :
    Kept pub base d.saveClients :=
  ⟨log, k, hlog, h.congr h.room rfl, h.filed⟩

/-- There is room once the oldest went. -/
theorem length_drop_oldest (h : l.length ≤ maxClients) :
    (if l.length = maxClients then l.drop 1 else l).length + 1 ≤ maxClients := by
  have hmax : maxClients = 32 := rfl
  split
  · rw [length_drop]
    omega
  · next hne => exact lt_of_le_of_ne h hne

theorem kept_addClient (h : Kept pub base d) {label : Label}
    (hstay : (clientOf (d.addClient pub' label).clients pub).isSome) :
    Kept pub base (d.addClient pub' label) := by
  obtain ⟨log, k, hlog, hwin, hfile⟩ := h
  revert hstay
  unfold Daemon.addClient
  cases hc : clientOf d.clients pub' with
  | some c =>
    intro _
    by_cases hpub : pub' = pub
    · -- only its label changes
      subst hpub
      obtain rfl : k = c := some.inj (hwin.clientOf_eq_some.symm.trans hc)
      refine kept_saveClients (k := { k with label := label }) (d := { d with
        clients := setClient d.clients pub' { k with label := label } }) hlog ?_
      refine ⟨?_, ?_, hwin.top, hwin.spent, hwin.spentRun, hwin.seen, hwin.once, hwin.oncePerRun⟩
      · rw [length_setClient]
        exact hwin.room
      · have hk : k.pub = pub' := hwin.pub_eq
        exact entries_setClient_self (by exact hk) hwin.only
    · refine kept_saveClients hlog (hwin.congr ?_ ?_)
      · rw [length_setClient]
        exact hwin.room
      · have hk : c.pub = pub' := clientOf_pub hc
        exact entries_setClient_ne hpub (by exact hk) _
  -- a new entry drops the oldest, not this one: it stays
  | none =>
    intro hstay
    have hpub : pub' ≠ pub := by
      rintro rfl
      rw [hwin.clientOf_eq_some] at hc
      exact absurd hc (by simp)
    have hnew : ∀ l : List Client, entries pub (l ++ [{ pub := pub', label := label }])
        = entries pub l := by
      intro l
      rw [entries, filter_append, filter_cons,
        if_neg fun h => hpub (beq_iff_eq.mp h), filter_nil, append_nil]
      rfl
    have hsub : (if d.clients.length = maxClients then d.clients.drop 1 else d.clients).Sublist
        d.clients := by
      split
      · exact drop_sublist ..
      · exact List.Sublist.refl _
    have hstay' : (clientOf (if d.clients.length = maxClients then d.clients.drop 1
        else d.clients) pub).isSome := by
      rw [clientOf_eq, ← hnew, ← clientOf_eq]
      exact hstay
    refine kept_saveClients hlog (hwin.congr ?_ ?_)
    · show ((if d.clients.length = maxClients then d.clients.drop 1 else d.clients) ++ [_]).length ≤
        _
      rw [length_append, length_singleton]
      exact length_drop_oldest hwin.room
    · exact (hnew _).trans ((entries_sublist hsub hwin.only hstay').trans hwin.only.symm)

theorem kept_revoke (h : Kept pub base d)
    (hstay : (clientOf (d.revoke pub').clients pub).isSome) : Kept pub base (d.revoke pub') := by
  revert hstay
  unfold Daemon.revoke
  split
  · intro hstay
    obtain ⟨log, k, hlog, hwin, -⟩ := h
    have hsub := eraseP_sublist (p := fun c : Client => c.pub == pub') (l := d.clients)
    refine kept_saveClients hlog (hwin.congr (hsub.length_le.trans hwin.room) ?_)
    exact (entries_sublist hsub hwin.only hstay).trans hwin.only.symm
  · exact fun _ => h

/-- At a start the counter in the file is the floor. -/
theorem kept_restart (hlog : d.log = base ++ log) (hwin : Window pub log d k)
    (hfile : Filed pub log d.file) :
    Kept pub base d.restart := by
  obtain ⟨cs, f, hcs, hlen, hf, hle⟩ := hfile
  have hclients : d.restart.clients = cs.map reloaded := by
    unfold Daemon.restart
    simp only [hcs]
    exact loadClients_clientsText cs hlen
  have honly : entries pub d.restart.clients = [reloaded f] := by
    rw [hclients, entries_reloaded, hf]
    rfl
  have hchanges : changes pub (log ++ [none]) = changes pub log := by
    rw [changes_concat]
    simp [changeOf]
  have hempty : ∀ b, b <:+ log ++ [none] → none ∉ b → b = [] := by
    intro b hb hnone
    rcases suffix_concat hb with hb | ⟨t, -, rfl⟩
    · exact hb
    · exact absurd (by simp) hnone
  refine ⟨log ++ [none], reloaded f, ?_, ⟨?_, honly, ?_, ?_, ?_, ?_, ?_, ?_⟩, cs, f,
    hcs, hlen, hf, ?_⟩
  · show d.log ++ [none] = _
    rw [hlog, append_assoc]
  · rw [hclients, length_map]
    exact hlen
  · rw [hchanges]
    exact hle
  · rw [hchanges]
    exact fun n hn => .inl (hle n hn)
  · intro b hb hnone n hn
    rw [hempty b hb hnone] at hn
    exact absurd hn (by simp [counters])
  · intro i hi
    exact absurd hi (Nat.not_lt_zero _)
  · rw [hchanges]
    exact hwin.once
  · intro b hb hnone
    rcases infix_concat_iff.mp hb with hb | hb
    · rw [hempty b hb hnone]
      exact nodup_nil
    · exact hwin.oncePerRun b hb hnone
  · rw [hchanges]
    exact hle

theorem log_signedOk (r : Req) (persist : Bool) : d.log <+: (d.signedOk C r persist).2.log := by
  unfold Daemon.signedOk
  split
  · exact prefix_rfl
  · cases persist with
    | true => exact prefix_append ..
    | false => exact prefix_append ..

/-- A step keeps the invariant as long as the browser stays approved. -/
theorem kept_step (h : Kept pub base d) {ev : Ev}
    (hstay : (clientOf (d.step C ev).clients pub).isSome) : Kept pub base (d.step C ev) := by
  cases ev with
  | request r persist => exact kept_signedOk h r persist
  | approve pub' label => exact kept_addClient h hstay
  | revoke pub' => exact kept_revoke h hstay
  | restart =>
    obtain ⟨log, k, hlog, hwin, hfile⟩ := h
    exact kept_restart hlog hwin hfile
  | dies r persist saved =>
    have hsigned := kept_signedOk (C := C) h r persist
    obtain ⟨log, k, hlog, hwin, hfile⟩ := h
    refine kept_restart (d := { d with
      file := if saved then (d.signedOk C r persist).2.file else d.file }) hlog
      (hwin.congr hwin.room rfl) ?_
    cases saved with
    | false => exact hfile
    | true =>
      obtain ⟨log', k', hlog', -, cs, f, hcs, hlen, hf, hle⟩ := hsigned
      refine ⟨cs, f, hcs, hlen, hf, fun n hn => hle n ?_⟩
      have hpre : log <+: log' := by
        have := log_signedOk (C := C) (d := d) r persist
        rw [hlog, hlog'] at this
        exact (prefix_append_right_inj base).mp this
      exact (hpre.sublist.filterMap _).subset hn

/-- The browser is approved: nothing was taken of it yet. -/
theorem kept_approve (hroom : d.clients.length ≤ maxClients) (hnew : clientOf d.clients pub = none)
    (label : Label) : Kept pub d.log (d.addClient pub label) := by
  have hentries : entries pub d.clients = [] := by
    rw [clientOf_eq] at hnew
    exact head?_eq_none_iff.mp hnew
  unfold Daemon.addClient
  rw [hnew]
  have hlog : d.log = d.log ++ [] := (append_nil _).symm
  refine kept_saveClients (k := { pub := pub, label := label }) hlog
    ⟨?_, ?_, ?_, ?_, ?_, ?_, ?_, ?_⟩
  · show ((if d.clients.length = maxClients then d.clients.drop 1 else d.clients) ++ [_]).length ≤ _
    rw [length_append, length_singleton]
    exact length_drop_oldest hroom
  · have hrest : entries pub (if d.clients.length = maxClients then d.clients.drop 1
        else d.clients) = [] := by
      split
      · exact sublist_nil.mp (hentries ▸ (drop_sublist 1 d.clients).filter _)
      · exact hentries
    show entries pub (_ ++ [_]) = _
    rw [entries, filter_append]
    rw [entries] at hrest
    rw [hrest]
    simp
  · exact fun n hn => absurd hn (by simp [changes])
  · exact fun n hn => absurd hn (by simp [changes])
  · intro b hb _ n hn
    rw [suffix_nil.mp hb] at hn
    exact absurd hn (by simp [counters])
  · exact fun i hi => absurd hi (Nat.not_lt_zero _)
  · exact nodup_nil
  · intro b hb _
    rw [infix_nil.mp hb]
    exact nodup_nil

/-! ### Runs -/

/-- The browser is approved in the state that follows. -/
def Stays (C : Crypto) (pub : Blob 32) (d : Daemon) (ev : Ev) : Prop :=
  (clientOf (d.step C ev).clients pub).isSome

/-- A request with a fresh counter that is signed right is taken. -/
theorem signedOk_of_fresh {r : Req} {mac : Blob 16} {key : Blob 32}
    (persist : Bool) (hctr : Text.unsigned 10 r.ctr = some (n, []))
    (hpub : unhex 32 r.pub = some pub) (hmac : unhex 16 r.mac = some mac)
    (hk : clientOf d.clients pub = some k) (hkey : d.sessionKey C pub = some key)
    (hsigned : C.keyed16 key (Daemon.signedText r) = mac) (hfresh : ctrFresh k n = true) :
    (d.signedOk C r persist).1 = true := by
  have htakes : d.takes C r = some (k, n) := by
    simp [Daemon.takes, hctr, hpub, hmac, hk, hkey, hsigned, hfresh]
  unfold Daemon.signedOk
  rw [htakes]

/-- **A signed request counts once**: from the approval of a browser on, and as long as it
stays approved, each of its counters is taken at most once in a run of the daemon, and one
of a request that changes something at most once over all runs; and a request that is
signed right is taken if its counter is above the floor and was never taken. -/
theorem signed_once (C : Crypto) (d : Daemon) (pub : Blob 32) (label : Label)
    (hroom : d.clients.length ≤ maxClients) (hnew : clientOf d.clients pub = none) (l : List Ev)
    (hstays : Runs.Each (Daemon.step C) (Stays C pub) (d.addClient pub label) l) :
    ∃ log k,
      (l.foldl (Daemon.step C) (d.addClient pub label)).log = d.log ++ log ∧
      clientOf (l.foldl (Daemon.step C) (d.addClient pub label)).clients pub = some k ∧
      OncePerRun pub log ∧ (changes pub log).Nodup ∧
      ∀ (r : Req) (n : UInt64) (mac : Blob 16) (key : Blob 32) (persist : Bool),
        Text.unsigned 10 r.ctr = some (n, []) → unhex 32 r.pub = some pub →
        unhex 16 r.mac = some mac →
        (l.foldl (Daemon.step C) (d.addClient pub label)).sessionKey C pub = some key →
        C.keyed16 key (Daemon.signedText r) = mac → k.floor < n → n ∉ counters pub log →
        ((l.foldl (Daemon.step C) (d.addClient pub label)).signedOk C r persist).1 = true := by
  obtain ⟨log, k, hlog, hwin, -⟩ := Runs.invariant (I := Kept pub d.log)
    (fun _ _ hkept hstay => kept_step hkept hstay) (kept_approve hroom hnew label) hstays
  refine ⟨log, k, hlog, hwin.clientOf_eq_some, hwin.oncePerRun, hwin.once, ?_⟩
  intro r n mac key persist hctr hpub hmac hkey hsigned hfloor hnever
  refine signedOk_of_fresh persist hctr hpub hmac hwin.clientOf_eq_some hkey hsigned ?_
  rw [ctrFresh_iff]
  rintro (hle | ⟨i, hi, heq⟩)
  · exact absurd hfloor (UInt64.not_lt.mpr hle)
  · exact hnever (heq ▸ hwin.seen i hi)

/-- A browser's key, for a run on fixed inputs. -/
def pagePub : Blob 32 := Blob.fill 32 5

/-- A request of it with a counter of one digit. -/
def pageReq (ctr : UInt8) : Req where
  method := Arb.ascii ['P', 'O', 'S', 'T']
  path := Arb.ascii ['/', 'a', 'p', 'i']
  pub := Text.hex pagePub.1
  ctr := [0x30 + ctr]
  mac := Text.hex (Blob.zero 16).1
  body := []

/-- The second request overtakes the first, and after a start all that changed something
is sent again. -/
def pageRun : List Ev :=
  [.request (pageReq 2) true, .request (pageReq 1) false, .request (pageReq 2) true, .restart,
    .request (pageReq 2) true, .request (pageReq 3) true]

/-- The daemon before any browser is approved. -/
def pageDaemon : Daemon where
  sk := Blob.fill 32 1
  pk := Blob.fill 32 1
  clients := []
  file := none

theorem signed_once_pageRun :
    (pageRun.foldl (Daemon.step Crypto.clear) (pageDaemon.addClient pagePub (cLabel []))).log
      = [some (pagePub, 2, true), some (pagePub, 1, false), none, some (pagePub, 3, true)] ∧
    ∃ log k,
      (pageRun.foldl (Daemon.step Crypto.clear) (pageDaemon.addClient pagePub (cLabel []))).log
        = pageDaemon.log ++ log ∧
      clientOf (pageRun.foldl (Daemon.step Crypto.clear)
        (pageDaemon.addClient pagePub (cLabel []))).clients pagePub = some k ∧
      OncePerRun pagePub log ∧ (changes pagePub log).Nodup := by
  have hstays : Runs.Each (Daemon.step Crypto.clear) (Stays Crypto.clear pagePub)
      (pageDaemon.addClient pagePub (cLabel [])) pageRun := by
    refine ⟨?_, ?_, ?_, ?_, ?_, ?_, trivial⟩ <;> (unfold Stays; decide)
  obtain ⟨log, k, hlog, hk, hrun, honce, -⟩ := signed_once Crypto.clear pageDaemon pagePub
    (cLabel []) (by decide) rfl pageRun hstays
  exact ⟨by decide, log, k, hlog, hk, hrun, honce⟩

end Hassmic.Web
