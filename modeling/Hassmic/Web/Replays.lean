import Hassmic.Web.Counters

/-!
# What was recorded

The counters of a browser are kept with its entry among the approved ones, and the key
its requests are signed with comes from the two long-term keys alone.  So a request that
was recorded stays dead as long as the entry is there and a start finds its counter: a
browser that was revoked or went as the oldest and is approved again starts at zero, and
all it ever signed counts once more.

## Main definitions

* `Written`, `Safe` — a start finds the counters, and no browser comes back.
* `Dead` — what was taken of a browser counts no more.

## Main results

* `recorded_dead` — in a run of safe steps a request that counted never counts again.
* `recorded_again` — a request that counted, the browser revoked and approved again.
-/

namespace Hassmic.Web

open Arb List Option
open Crypto (clear)

/-- A daemon that was never asked for anything. -/
def Daemon.first (sk pk : Blob 32) : Daemon where
  sk := sk
  pk := pk
  clients := []
  file := none

/-- What a line of the file says of a browser's counters. -/
def mark (c : Client) : Blob 32 × UInt64 := (c.pub, c.ctr)

/-- A start would find each browser with the counter it has now. -/
def Written (d : Daemon) : Prop :=
  (loadClients (d.file.getD [])).map mark = d.clients.map mark

/-- A browser that is not approved is approved only if none of its requests ever counted, and
the daemon starts only when the counters are in the file. -/
def Safe (C : Crypto) (d : Daemon) : Ev → Prop
  | .approve pub _ => (clientOf d.clients pub).isSome ∨ counters pub d.log = []
  | .restart => Written d
  | .dies r persist saved => Written d ∨ saved = true ∧ persist = true ∧ (d.takes C r).isSome
  | _ => True

/-! ### The table -/

theorem entries_marks (pub : Blob 32) (l : List Client) :
    (entries pub l).map mark = (l.map mark).filter fun m => m.1 == pub := by
  rw [entries, List.filter_map]
  rfl

/-- What is left of the browsers has the browser's entry as it was, or none. -/
theorem entries_of_sublist {pub : Blob 32} {l l' : List Client} {k : Client} (h : l'.Sublist l)
    (hl : entries pub l = [k]) : entries pub l' = [] ∨ entries pub l' = [k] := by
  have hsub : (entries pub l').Sublist [k] := hl ▸ h.filter _
  exact sublist_singleton.mp hsub

/-- What a start finds has its counter for a floor. -/
theorem floor_loadClients {text : Bytes} {c : Client} (h : c ∈ loadClients text) :
    c.floor = c.ctr := by
  have hline : ∀ {line : Bytes} {c : Client}, readClient line = some c → c.floor = c.ctr := by
    intro line c hc
    rw [readClient_eq] at hc
    obtain ⟨r, -, hc⟩ := bind_eq_some_iff.mp hc
    obtain ⟨pub, -, hc⟩ := bind_eq_some_iff.mp hc
    rw [← some.inj hc]
  have hall : ∀ (lines : List Bytes) (l : List Client), (∀ c ∈ l, c.floor = c.ctr) →
      ∀ c ∈ lines.foldl loadLine l, c.floor = c.ctr := by
    intro lines
    induction lines with
    | nil => exact fun l hl => hl
    | cons line lines ih =>
      intro l hl
      apply ih
      intro c hc
      unfold loadLine at hc
      split at hc
      · rcases mem_append.mp hc with hc | hc
        · exact hl c hc
        · exact hline (mem_toList.mp hc)
      · exact hl c hc
  exact hall _ [] (fun c hc => absurd hc (by simp)) c h

theorem clients_restart (d : Daemon) : d.restart.clients = loadClients (d.file.getD []) := by
  unfold Daemon.restart
  cases d.file with
  | none => rfl
  | some text => rfl

/-- What was just written is what a start finds. -/
theorem written_saveClients {d : Daemon} (hroom : d.clients.length ≤ maxClients) :
    Written d.saveClients := by
  show (loadClients (clientsText d.clients)).map mark = d.clients.map mark
  rw [loadClients_clientsText _ hroom, List.map_map]
  rfl

/-! ### The invariant -/

/-- What was taken of a browser was taken once, and if the browser is approved it counts no
more. -/
structure Dead (pub : Blob 32) (d : Daemon) : Prop where
  room : d.clients.length ≤ maxClients
  once : (counters pub d.log).Nodup
  only : entries pub d.clients = [] ∨ ∃ k, entries pub d.clients = [k] ∧
    ∀ n ∈ counters pub d.log, n ≤ k.ctr ∧ Spent k n

theorem dead_first (pub sk pk : Blob 32) : Dead pub (Daemon.first sk pk) where
  room := by
    show ([] : List Client).length ≤ maxClients
    exact Nat.zero_le _
  once := nodup_nil
  only := .inl rfl

variable {C : Crypto} {pub : Blob 32} {d : Daemon}

/-- What matters is the log and the table. -/
theorem Dead.congr {d' : Daemon} (h : Dead pub d) (hclients : d'.clients = d.clients)
    (hlog : d'.log = d.log) : Dead pub d' where
  room := by
    rw [hclients]
    exact h.room
  once := by
    rw [hlog]
    exact h.once
  only := by
    rw [hclients, hlog]
    exact h.only

/-- Entries leave the table. -/
theorem Dead.sublist {d' : Daemon} (h : Dead pub d) (hsub : d'.clients.Sublist d.clients)
    (hlog : d'.log = d.log) : Dead pub d' where
  room := hsub.length_le.trans h.room
  once := by
    rw [hlog]
    exact h.once
  only := by
    rw [hlog]
    rcases h.only with hnil | ⟨k, hk, hspent⟩
    · exact .inl (sublist_nil.mp (hnil ▸ hsub.filter _))
    · exact (entries_of_sublist hsub hk).imp id fun hk' => ⟨k, hk', hspent⟩

/-- A request is taken, of the browser or of another. -/
theorem dead_signedOk (h : Dead pub d) (r : Req) (persist : Bool) :
    Dead pub (d.signedOk C r persist).2 := by
  unfold Daemon.signedOk
  cases htakes : d.takes C r with
  | none => exact h
  | some cn =>
    obtain ⟨c, n⟩ := cn
    obtain ⟨hc, hfresh⟩ := takes_spec htakes
    have htaken : Dead pub { d with
        clients := setClient d.clients c.pub (ctrTake c n)
        log := d.log ++ [some (c.pub, n, persist)] } := by
      by_cases hpub : c.pub = pub
      · -- it has one entry, the one that was found
        subst hpub
        have hcounters : counters c.pub (d.log ++ [some (c.pub, n, persist)])
            = counters c.pub d.log ++ [n] := by
          rw [counters_concat, counterOf, if_pos rfl]
          rfl
        rw [clientOf_eq] at hc
        rcases h.only with hnil | ⟨k, hk, hspent⟩
        · rw [hnil] at hc
          exact absurd hc (by simp)
        · rw [hk, head?_cons] at hc
          obtain rfl : k = c := some.inj hc
          refine ⟨?_, ?_, .inr ⟨ctrTake k n, ?_, ?_⟩⟩
          · rw [length_setClient]
            exact h.room
          · rw [hcounters, nodup_append]
            refine ⟨h.once, nodup_singleton n, ?_⟩
            intro m hm m' hm' heq
            rw [heq, mem_singleton.mp hm'] at hm
            exact hfresh (hspent n hm).2
          · exact entries_setClient_self (pub_ctrTake k n) hk
          · intro m hm
            rw [hcounters, mem_append, mem_singleton] at hm
            rcases hm with hm | rfl
            · exact ⟨UInt64.le_trans (hspent m hm).1 (ctr_ctrTake k n).1,
                (hspent m hm).2.ctrTake n⟩
            · exact ⟨(ctr_ctrTake k m).2, spent_ctrTake_self k m⟩
      -- another key: its own entry and counters stay
      · have hcounters : counters pub (d.log ++ [some (c.pub, n, persist)])
            = counters pub d.log := by
          rw [counters_concat, counterOf, if_neg hpub, toList_none, append_nil]
        refine ⟨?_, ?_, ?_⟩
        · rw [length_setClient]
          exact h.room
        · rw [hcounters]
          exact h.once
        · rw [hcounters, entries_setClient_ne hpub (pub_ctrTake c n)]
          exact h.only
    cases persist with
    | false => exact htaken
    | true => exact htaken.congr rfl rfl

/-- A browser is approved: one that was, or one of which nothing was ever taken. -/
theorem dead_addClient (h : Dead pub d) {pub' : Blob 32} (label : Label)
    (hsafe : (clientOf d.clients pub').isSome ∨ counters pub' d.log = []) :
    Dead pub (d.addClient pub' label) := by
  unfold Daemon.addClient
  cases hc : clientOf d.clients pub' with
  | some c =>
    -- only its label changes
    have hpub' : c.pub = pub' := clientOf_pub hc
    refine ⟨?_, h.once, ?_⟩
    · show (setClient d.clients pub' { c with label := label }).length ≤ maxClients
      rw [length_setClient]
      exact h.room
    · show entries pub (setClient d.clients pub' { c with label := label }) = [] ∨ _
      by_cases hpub : pub' = pub
      · subst hpub hpub'
        rw [clientOf_eq] at hc
        rcases h.only with hnil | ⟨k, hk, hspent⟩
        · rw [hnil] at hc
          exact absurd hc (by simp)
        · rw [hk, head?_cons] at hc
          obtain rfl : k = c := some.inj hc
          have hset : entries k.pub (setClient d.clients k.pub { k with label := label })
              = [{ k with label := label }] := by
            apply entries_setClient_self ?_ hk
            rfl
          exact .inr ⟨{ k with label := label }, hset, hspent⟩
      · show entries pub (setClient d.clients pub' { c with label := label }) = [] ∨
          ∃ k, entries pub (setClient d.clients pub' { c with label := label }) = [k] ∧ _
        rw [entries_setClient_ne (k := { c with label := label }) hpub hpub']
        exact h.only
  | none =>
    have hnone : entries pub' d.clients = [] := by
      rw [clientOf_eq] at hc
      exact head?_eq_none_iff.mp hc
    have hsub : (if d.clients.length = maxClients then d.clients.drop 1 else d.clients).Sublist
        d.clients := by
      split
      · exact drop_sublist ..
      · exact List.Sublist.refl _
    have hold : Dead pub { d with
        clients := if d.clients.length = maxClients then d.clients.drop 1 else d.clients } :=
      h.sublist hsub rfl
    refine ⟨?_, h.once, ?_⟩
    · show ((if d.clients.length = maxClients then d.clients.drop 1 else d.clients) ++ [_]).length ≤
        _
      rw [length_append, length_singleton]
      exact length_drop_oldest h.room
    · show entries pub ((if d.clients.length = maxClients then d.clients.drop 1
        else d.clients) ++ [{ pub := pub', label := label }]) = [] ∨
        ∃ k, entries pub ((if d.clients.length = maxClients then d.clients.drop 1
        else d.clients) ++ [{ pub := pub', label := label }]) = [k] ∧ _
      by_cases hpub : pub' = pub
      · subst hpub
        have hnever : counters pub' d.log = [] := by
          rcases hsafe with hsome | hnever
          · rw [hc] at hsome
            exact absurd hsome (by simp)
          · exact hnever
        have hrest : entries pub' (if d.clients.length = maxClients then d.clients.drop 1
            else d.clients) = [] := sublist_nil.mp (hnone ▸ hsub.filter _)
        refine .inr ⟨{ pub := pub', label := label }, ?_, ?_⟩
        · rw [entries] at hrest
          rw [entries, filter_append, hrest]
          simp
        · show ∀ n ∈ counters pub' d.log, _
          rw [hnever]
          exact fun n hn => absurd hn (by simp)
      · have hnew : ∀ l : List Client, entries pub (l ++ [{ pub := pub', label := label }])
            = entries pub l := by
          intro l
          rw [entries, filter_append, filter_cons,
            if_neg fun hh => hpub (beq_iff_eq.mp hh), filter_nil, append_nil]
          rfl
        rw [hnew]
        exact hold.only

theorem dead_revoke (h : Dead pub d) (pub' : Blob 32) : Dead pub (d.revoke pub') := by
  unfold Daemon.revoke
  split
  · exact h.sublist eraseP_sublist rfl
  · exact h

/-- A start with each browser's counter, or a higher one, in the file. -/
theorem dead_restart {file : Option Bytes} {l : List Client} (h : Dead pub d)
    (hload : (loadClients (file.getD [])).map mark = l.map mark)
    (hroom : l.length ≤ maxClients)
    (hmore : entries pub d.clients = [] → entries pub l = [])
    (hup : ∀ k, entries pub d.clients = [k] → ∃ f, entries pub l = [f] ∧ k.ctr ≤ f.ctr) :
    Dead pub (Daemon.restart { d with file := file }) := by
  have hclients : (Daemon.restart { d with file := file }).clients
      = loadClients (file.getD []) := clients_restart _
  have hcounters : counters pub (Daemon.restart { d with file := file }).log
      = counters pub d.log := by
    show counters pub (d.log ++ [none]) = _
    rw [counters_concat]
    simp [counterOf]
  have hentries : (entries pub (loadClients (file.getD []))).map mark
      = (entries pub l).map mark := by
    rw [entries_marks, hload, entries_marks]
  refine ⟨?_, ?_, ?_⟩
  · rw [hclients, ← length_map mark, hload, length_map]
    exact hroom
  · rw [hcounters]
    exact h.once
  · rw [hclients, hcounters]
    rcases h.only with hnil | ⟨k, hk, hspent⟩
    · rw [hmore hnil] at hentries
      exact .inl (map_eq_nil_iff.mp hentries)
    · obtain ⟨f, hf, hle⟩ := hup k hk
      rw [hf] at hentries
      obtain ⟨f', hf', hmark⟩ := map_eq_singleton_iff.mp hentries
      have hctr : f'.ctr = f.ctr := congrArg Prod.snd hmark
      have hmem : f' ∈ loadClients (file.getD []) := by
        have : f' ∈ entries pub (loadClients (file.getD [])) := by
          rw [hf']
          exact mem_singleton_self f'
        exact mem_of_mem_filter this
      refine .inr ⟨f', hf', fun n hn => ?_⟩
      have hn' : n ≤ f'.ctr := by
        rw [hctr]
        exact UInt64.le_trans (hspent n hn).1 hle
      refine ⟨hn', .inl ?_⟩
      rw [floor_loadClients hmem]
      exact hn'

theorem dead_written (h : Dead pub d) (hw : Written d) : Dead pub d.restart := by
  show Dead pub (Daemon.restart { d with file := d.file })
  exact dead_restart h hw h.room id fun k hk => ⟨k, hk, UInt64.le_refl _⟩

/-- The daemon dies once a request's counter is in the file. -/
theorem dead_dies (h : Dead pub d) {r : Req} (htakes : (d.takes C r).isSome) :
    Dead pub (Daemon.restart { d with file := (d.signedOk C r true).2.file }) := by
  have hroom := (dead_signedOk (C := C) h r true).room
  obtain ⟨⟨c, n⟩, htakes⟩ := isSome_iff_exists.mp htakes
  obtain ⟨hc, -⟩ := takes_spec htakes
  have hsigned : (d.signedOk C r true).2 = Daemon.saveClients { d with
      clients := setClient d.clients c.pub (ctrTake c n)
      log := d.log ++ [some (c.pub, n, true)] } := by
    unfold Daemon.signedOk
    rw [htakes]
    rfl
  rw [hsigned] at hroom ⊢
  refine dead_restart h (written_saveClients hroom) hroom ?_ ?_
  · intro hnil
    show entries pub (setClient d.clients c.pub (ctrTake c n)) = []
    have hpub : c.pub ≠ pub := by
      rintro rfl
      rw [clientOf_eq, hnil] at hc
      exact absurd hc (by simp)
    rw [entries_setClient_ne hpub (pub_ctrTake c n)]
    exact hnil
  · intro k hk
    show ∃ f, entries pub (setClient d.clients c.pub (ctrTake c n)) = [f] ∧ k.ctr ≤ f.ctr
    by_cases hpub : c.pub = pub
    · subst hpub
      rw [clientOf_eq, hk, head?_cons] at hc
      obtain rfl : k = c := some.inj hc
      exact ⟨ctrTake k n, entries_setClient_self (pub_ctrTake k n) hk, (ctr_ctrTake k n).1⟩
    · rw [entries_setClient_ne hpub (pub_ctrTake c n)]
      exact ⟨k, hk, UInt64.le_refl _⟩

/-- A safe step keeps the dead dead. -/
theorem dead_step (h : Dead pub d) {ev : Ev} (hsafe : Safe C d ev) : Dead pub (d.step C ev) := by
  cases ev with
  | request r persist => exact dead_signedOk h r persist
  | approve pub' label => exact dead_addClient h label hsafe
  | revoke pub' => exact dead_revoke h pub'
  | restart => exact dead_written h hsafe
  | dies r persist saved =>
    have hsame : Written d → Dead pub (Daemon.restart { d with file := d.file }) :=
      fun hw => dead_written h hw
    cases saved with
    | false => exact hsafe.elim hsame fun hh => absurd hh.1 (by simp)
    | true =>
      show Dead pub (Daemon.restart { d with file := (d.signedOk C r persist).2.file })
      cases persist with
      | true =>
        cases htakes : d.takes C r with
        | some cn => exact dead_dies h (by rw [htakes]; rfl)
        | none =>
          -- nothing was written
          have hfile : (d.signedOk C r true).2 = d := by
            unfold Daemon.signedOk
            rw [htakes]
          rw [hfile]
          exact hsafe.elim hsame fun hh => absurd hh.2.2 (by rw [htakes]; simp)
      | false =>
        have hfile : (d.signedOk C r false).2.file = d.file := by
          unfold Daemon.signedOk
          cases d.takes C r <;> rfl
        rw [hfile]
        exact hsafe.elim hsame fun hh => absurd hh.2.1 (by simp)

/-! ### Runs -/

/-- What is in the log stays there. -/
theorem log_step (C : Crypto) (d : Daemon) (ev : Ev) : d.log <+: (d.step C ev).log := by
  cases ev with
  | request r persist => exact log_signedOk r persist
  | approve pub label =>
    show d.log <+: (d.addClient pub label).log
    unfold Daemon.addClient
    split <;> exact prefix_rfl
  | revoke pub =>
    show d.log <+: (d.revoke pub).log
    unfold Daemon.revoke
    split <;> exact prefix_rfl
  | restart => exact prefix_append ..
  | dies r persist saved => exact prefix_append ..

/-- **What was recorded stays dead**: in every run of safe steps from the first start on, a
request that counted once is refused for ever after. -/
theorem recorded_dead (C : Crypto) (sk pk : Blob 32) (l₁ l₂ : List Ev) (r : Req)
    (persist persist' : Bool)
    (hsafe : Runs.Each (Daemon.step C) (Safe C) (.first sk pk) (l₁ ++ .request r persist :: l₂))
    (hcounted : ((l₁.foldl (Daemon.step C) (.first sk pk)).signedOk C r persist).1 = true) :
    (((l₁ ++ .request r persist :: l₂).foldl (Daemon.step C) (.first sk pk)).signedOk C r
      persist').1 = false := by
  obtain ⟨⟨c, n⟩, htakes⟩ := isSome_iff_exists.mp ((signedOk_iff r persist).mp hcounted)
  obtain ⟨hctr, hpub⟩ := takes_names htakes
  -- its counter is in the log from then on
  have hlogged : n ∈ counters c.pub
      ((l₁ ++ .request r persist :: l₂).foldl (Daemon.step C) (.first sk pk)).log := by
    have hin : n ∈ counters c.pub
        ((l₁.foldl (Daemon.step C) (.first sk pk)).signedOk C r persist).2.log := by
      unfold Daemon.signedOk
      rw [htakes]
      have hlog : n ∈ counters c.pub ((l₁.foldl (Daemon.step C) (.first sk pk)).log ++
          [some (c.pub, n, persist)]) := by
        rw [counters_concat, counterOf, if_pos rfl]
        exact mem_append_right _ (mem_singleton_self n)
      cases persist with
      | true => exact hlog
      | false => exact hlog
    have hmono := Runs.invariant_all (I := fun d : Daemon =>
      ((l₁.foldl (Daemon.step C) (.first sk pk)).signedOk C r persist).2.log <+: d.log)
      (fun d ev h => h.trans (log_step C d ev)) prefix_rfl l₂
    rw [foldl_append, foldl_cons]
    exact (hmono.sublist.filterMap _).subset hin
  have hdead : Dead c.pub ((l₁ ++ .request r persist :: l₂).foldl (Daemon.step C) (.first sk pk)) :=
    Runs.invariant (I := Dead c.pub) (fun _ _ h hs => dead_step h hs) (dead_first c.pub sk pk) hsafe
  rw [← Bool.not_eq_true, signedOk_iff]
  intro hagain
  obtain ⟨⟨c', n'⟩, hagain⟩ := isSome_iff_exists.mp hagain
  obtain ⟨hctr', hpub'⟩ := takes_names hagain
  obtain ⟨hc', hfresh⟩ := takes_spec hagain
  have hn : n' = n := congrArg Prod.fst (some.inj (hctr'.symm.trans hctr))
  have hc : c'.pub = c.pub := some.inj (hpub'.symm.trans hpub)
  rw [hc, clientOf_eq] at hc'
  rcases hdead.only with hnil | ⟨k, hk, hspent⟩
  · rw [hnil] at hc'
    exact absurd hc' (by simp)
  · rw [hk, head?_cons] at hc'
    obtain rfl : k = c' := some.inj hc'
    rw [hn] at hfresh
    exact hfresh (hspent n hlogged).2

/-- A daemon for runs on fixed inputs. -/
def firstPage : Daemon := .first (Blob.fill 32 1) (Blob.fill 32 1)

/-- After a request of the browser the daemon starts again, and the browser is revoked. -/
def recordedRun : List Ev :=
  [.restart, .request (pageReq 2) true, .restart, .revoke pagePub]

theorem recorded_dead_recordedRun :
    ((firstPage.step clear (.approve pagePub (cLabel []))).signedOk clear
      (pageReq 1) true).1 = true ∧
    (((Ev.approve pagePub (cLabel []) :: .request (pageReq 1) true :: recordedRun).foldl
      (Daemon.step clear) firstPage).signedOk clear (pageReq 1) false).1 = false := by
  have hcounted : ((firstPage.step clear (.approve pagePub (cLabel []))).signedOk
      clear (pageReq 1) true).1 = true := by
    decide
  have hfirst : Written ((firstPage.step clear (.approve pagePub (cLabel []))).step
      clear (.request (pageReq 1) true)) := by
    unfold Written
    decide
  have hsecond : Written ((((firstPage.step clear (.approve pagePub (cLabel []))).step
      clear (.request (pageReq 1) true)).step clear .restart).step
      clear (.request (pageReq 2) true)) := by
    unfold Written
    decide
  exact ⟨hcounted, recorded_dead clear _ _ [.approve pagePub (cLabel [])] recordedRun _ _ _
    ⟨.inr rfl, trivial, hfirst, trivial, hsecond, trivial, trivial⟩ hcounted⟩

/-- A browser that revokes its own login with a signed request and is approved once more. -/
def comesBack : List Ev :=
  [.request (pageReq 2) true, .revoke pagePub, .approve pagePub (cLabel [])]

/-- **A request that counted counts again** once its browser was revoked and came back. -/
theorem recorded_again :
    ((firstPage.step clear (.approve pagePub (cLabel []))).signedOk clear
      (pageReq 1) true).1 = true ∧
    (((Ev.approve pagePub (cLabel []) :: .request (pageReq 1) true :: comesBack).foldl
      (Daemon.step clear) firstPage).signedOk clear (pageReq 1) true).1 = true := by
  decide

end Hassmic.Web
