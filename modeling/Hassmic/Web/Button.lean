import Hassmic.Web.Login
import Hassmic.Web.Replays

/-!
# Who is let in

Over every run of requests, presses and ticks a key becomes approved only by a press while
its login waits, or by a voucher for a nonce that was handed out for it and not used since;
and adb is opened only by a press while the request of a browser that was approved when it
asked waits.

A second browser that asks while a login waits refuses both, but only the record of the
first one knows of it: the next time the second one asks nothing waits, and its own login
does.

## Main definitions

* `Held` — neither of two keys starts to wait before the given time.

## Main results

* `approved_only` — who is let in, and what opens adb.
* `two_refused` — when two browsers that ask at once are both refused.
-/

namespace Hassmic.Web

open Arb Byte Text List
open Crypto (clear)

variable {C : Crypto} {loginMs : ℤ} {s : Page}

namespace Page

/-- The nonce of a slot counts for the key. -/
theorem live_iff (s : Page) (pub : Blob 32) (nonce : Blob 16) (i : Fin 8) :
    s.live pub nonce i = true ↔ (s.nonces i).givenAt ≠ 0 ∧
      s.now - (s.nonces i).givenAt ≤ nonceMs ∧ (s.nonces i).pub = pub ∧
      (s.nonces i).nonce = nonce := by
  unfold live
  simp only [Bool.not_eq_true', Bool.or_eq_false_iff, beq_eq_false_iff_ne, decide_eq_false_iff_not,
    bne_eq_false_iff_eq, gt_iff_lt, not_lt, and_assoc, ne_eq]

/-- A nonce that counts after a step and did not before was handed out in it. -/
theorem step_live {ev : PageEv} {pub : Blob 32} {nonce : Blob 16}
    (hnot : ¬ ∃ i, s.live pub nonce i = true)
    (h : ∃ i, (s.step C loginMs ev).live pub nonce i = true) :
    ∃ body, ev = .nonce body nonce ∧ nonceBody body = some pub := by
  obtain ⟨i, hi⟩ := h
  rw [live_iff] at hi
  obtain ⟨hgiven, htime, hpub, hnonce⟩ := hi
  rcases (stepped C loginMs s ev).nonces i with hsame | hused | ⟨body, p, rnd, hev, hbody, hnew⟩
  · -- it would have counted before, when the clock showed no more
    rw [hsame] at hgiven htime hpub hnonce
    have hclock := (stepped C loginMs s ev).now_le
    exact absurd ⟨i, (live_iff s pub nonce i).mpr ⟨hgiven, by omega, hpub, hnonce⟩⟩ hnot
  · exact absurd hused hgiven
  · rw [hnew] at hpub hnonce
    simp only at hpub hnonce
    subst hpub hnonce
    exact ⟨body, hev, hbody⟩

/-- A slot that holds a nonce after a step and did not before got it in the step. -/
theorem step_given {ev : PageEv} {n : Nonce} (hgiven : n.givenAt ≠ 0)
    (hnot : ¬ ∃ i, s.nonces i = n) (h : ∃ i, (s.step C loginMs ev).nonces i = n) :
    ∃ body, ev = .nonce body n.nonce ∧ nonceBody body = some n.pub ∧ s.now = n.givenAt := by
  obtain ⟨i, hi⟩ := h
  rcases (stepped C loginMs s ev).nonces i with hsame | hused | ⟨body, p, rnd, hev, hbody, hnew⟩
  · exact absurd ⟨i, hsame.symm.trans hi⟩ hnot
  · rw [hi] at hused
    exact absurd hused hgiven
  · obtain rfl := hnew.symm.trans hi
    exact ⟨body, hev, hbody, rfl⟩

/-- The voucher and the nonce of a login through another Echo. -/
theorem vouches_spec {v : Vouched} (h : s.vouches C v = true) :
    (∃ i, s.live v.pub v.nonce i = true) ∧ s.voucher C s.d.pk v.pub v.nonce v.via
      = some v.voucher := by
  unfold vouches at h
  rw [Bool.and_eq_true, any_eq_true, beq_iff_eq] at h
  obtain ⟨⟨i, -, hi⟩, hv⟩ := h
  exact ⟨⟨i, hi⟩, hv⟩

theorem vouchLogin_approved (v : Vouched) :
    (s.vouchLogin C v).1 = .approved ↔ s.vouches C v = true := by
  unfold vouchLogin
  cases s.vouches C v with
  | true => simp
  | false => simp

/-- No nonce that fitted is left. -/
theorem not_live_vouchLogin (C : Crypto) (s : Page) (v : Vouched) :
    ¬ ∃ i, (s.vouchLogin C v).2.live v.pub v.nonce i = true := by
  rintro ⟨i, hi⟩
  rw [live_iff] at hi
  have hslot : (s.vouchLogin C v).2.nonces i
      = if s.live v.pub v.nonce i then { s.nonces i with givenAt := 0 } else s.nonces i := by
    rcases vouchLogin_cases C s v with ⟨-, h⟩ | ⟨-, h⟩
    all_goals rw [h]
  have hnow : (s.vouchLogin C v).2.now = s.now := by
    rcases vouchLogin_cases C s v with ⟨-, h⟩ | ⟨-, h⟩
    all_goals rw [h]
  rw [hslot, hnow] at hi
  by_cases hlive : s.live v.pub v.nonce i = true
  · rw [if_pos hlive] at hi
    exact hi.1 rfl
  · rw [if_neg hlive] at hi
    exact hlive ((live_iff s v.pub v.nonce i).mpr hi)

end Page

/-! ### Runs -/

/-- Nothing waits and no nonce was handed out, as at a start. -/
structure Page.Started (s : Page) : Prop where
  login : s.login.state = .none
  nonces : ∀ i, (s.nonces i).givenAt = 0

theorem Page.started_start (d : Daemon) (now : ℤ) (netKey : Option (Blob 32)) :
    (Page.start d now netKey).Started := ⟨rfl, fun _ => rfl⟩

variable {l : List PageEv} {pub : Blob 32}

/-- What waits came to wait in one of the steps. -/
theorem waits_from (hs : s.Started)
    (h : (s.after C loginMs l).login.state = .waits) :
    ∃ l₁ ev l₂, l = l₁ ++ ev :: l₂ ∧
      (s.after C loginMs l₁).login ≠ (s.after C loginMs l).login ∧
      ((s.after C loginMs l₁).step C loginMs ev).login = (s.after C loginMs l).login := by
  have hstart : ¬ s.login = (s.after C loginMs l).login := by
    intro heq
    rw [← heq, hs.login] at h
    exact Stage.noConfusion h
  exact Runs.made (Q := fun t : Page => t.login = (s.after C loginMs l).login) hstart rfl

/-- A login that waits was asked for by its key, at the time of the record. -/
theorem login_asked (hs : s.Started)
    (hstate : (s.after C loginMs l).login.state = .waits)
    (hkind : (s.after C loginMs l).login.kind = .login) :
    ∃ l₁ body label l₂, l = l₁ ++ .login body :: l₂ ∧
      loginBody body = some ((s.after C loginMs l).login.pub, label) ∧
      (s.after C loginMs l₁).now = (s.after C loginMs l).login.askedAt := by
  obtain ⟨l₁, ev, l₂, hl, hbefore, hmade⟩ := waits_from hs hstate
  rcases (Page.stepped ..).waits (by rw [hmade]; exact hstate) with hsame |
    ⟨body, pub, label, rfl, hbody, -, hnew⟩ | ⟨r, pub, -, -, -, -, hnew⟩
  · exact absurd (hsame.symm.trans hmade) hbefore
  · rw [hmade] at hnew
    refine ⟨l₁, body, label, l₂, hl, ?_, ?_⟩
    · rw [hnew]
      exact hbody
    · rw [hnew]
  · rw [hmade] at hnew
    rw [hnew] at hkind
    exact Kind.noConfusion hkind

/-- A request for adb that waits is of a browser that was approved when it asked. -/
theorem adb_asked (hs : s.Started)
    (hstate : (s.after C loginMs l).login.state = .waits)
    (hkind : (s.after C loginMs l).login.kind = .adb) :
    ∃ l₁ r l₂, l = l₁ ++ .adb r :: l₂ ∧ r.body.take 2 = ascii ['o', 'n'] ∧
      unhex 32 r.pub = some (s.after C loginMs l).login.pub ∧
      ((s.after C loginMs l₁).d.signedOk C r true).1 = true ∧
      (s.after C loginMs l₁).approved (s.after C loginMs l).login.pub ∧
      (s.after C loginMs l₁).now = (s.after C loginMs l).login.askedAt := by
  obtain ⟨l₁, ev, l₂, hl, hbefore, hmade⟩ := waits_from hs hstate
  rcases (Page.stepped ..).waits (by rw [hmade]; exact hstate) with hsame |
    ⟨body, pub, label, -, -, -, hnew⟩ | ⟨r, pub, rfl, hok, hpub, hon, hnew⟩
  · exact absurd (hsame.symm.trans hmade) hbefore
  · rw [hmade] at hnew
    rw [hnew] at hkind
    exact Kind.noConfusion hkind
  · rw [hmade] at hnew
    -- `signed_ok` found the browser among the approved ones
    obtain ⟨⟨c, n⟩, htakes⟩ := Option.isSome_iff_exists.mp ((signedOk_iff r true).mp hok)
    obtain ⟨hc, -⟩ := takes_spec htakes
    obtain ⟨-, hcpub⟩ := takes_names htakes
    obtain rfl : c.pub = pub := Option.some.inj (hcpub.symm.trans hpub)
    refine ⟨l₁, r, l₂, hl, hon, ?_, hok, ?_, ?_⟩
    · rw [hnew]
      exact hpub
    · rw [hnew]
      unfold Page.approved
      rw [hc]
      rfl
    · rw [hnew]

/-- A nonce that counts was handed out for its key, and not too long ago. -/
theorem nonce_given (hs : s.Started) {nonce : Blob 16}
    {i : Fin 8} (h : (s.after C loginMs l).live pub nonce i = true) :
    ∃ l₁ body l₂, l = l₁ ++ .nonce body nonce :: l₂ ∧ nonceBody body = some pub ∧
      (s.after C loginMs l).now - (s.after C loginMs l₁).now ≤ nonceMs := by
  obtain ⟨hgiven, htime, hpub, hnonce⟩ := (Page.live_iff _ pub nonce i).mp h
  have hstart : ¬ ∃ j, s.nonces j = (s.after C loginMs l).nonces i := by
    rintro ⟨j, hj⟩
    rw [← hj] at hgiven
    exact hgiven (hs.nonces j)
  obtain ⟨l₁, ev, l₂, hl, hbefore, hmade⟩ := Runs.made (f := Page.step C loginMs)
    (Q := fun t : Page => ∃ j, t.nonces j = (s.after C loginMs l).nonces i) hstart
    (l := l) ⟨i, rfl⟩
  obtain ⟨body, rfl, hbody, hnow⟩ := Page.step_given hgiven hbefore hmade
  rw [hpub] at hbody
  rw [hnonce] at hl
  refine ⟨l₁, body, l₂, hl, hbody, ?_⟩
  show _ - (l₁.foldl (Page.step C loginMs) s).now ≤ nonceMs
  rw [hnow]
  exact htime

/-- **Who is let in**: a key becomes approved by a press while its login waits, or by a voucher
for a nonce handed out for it, and that once; adb is opened by a press while the request of a
browser waits that was approved when it asked. -/
theorem approved_only (C : Crypto) (loginMs : ℤ) (s : Page) (hs : s.Started) (l : List PageEv)
    (ev : PageEv) :
    (∀ pub, ¬ (s.after C loginMs l).approved pub →
      ((s.after C loginMs l).step C loginMs ev).approved pub →
      (ev = .press ∧ (s.after C loginMs l).Waits loginMs .login pub ∧
        ∃ l₁ body label l₂, l = l₁ ++ .login body :: l₂ ∧ loginBody body = some (pub, label) ∧
          (s.after C loginMs l).now - (s.after C loginMs l₁).now ≤ loginMs) ∨
      (∃ body v, ev = .vouch body ∧ vouchBody body = some v ∧ v.pub = pub ∧
        (∃ l₁ body' l₂, l = l₁ ++ .nonce body' v.nonce :: l₂ ∧ nonceBody body' = some pub ∧
          (s.after C loginMs l).now - (s.after C loginMs l₁).now ≤ nonceMs) ∧
        (s.after C loginMs l).voucher C (s.after C loginMs l).d.pk pub v.nonce v.via
          = some v.voucher)) ∧
    (∀ body v, ev = .vouch body → vouchBody body = some v →
      ((s.after C loginMs l).vouchLogin C v).1 = .approved →
      ∀ l₁ body' v' l₂, l = l₁ ++ .vouch body' :: l₂ → vouchBody body' = some v' →
        ((s.after C loginMs l₁).vouchLogin C v').1 = .approved →
        v'.pub = v.pub → v'.nonce = v.nonce →
        ∃ m₁ body'' m₂, l₂ = m₁ ++ .nonce body'' v.nonce :: m₂ ∧ nonceBody body'' = some v.pub) ∧
    (((s.after C loginMs l).step C loginMs ev).adb = (s.after C loginMs l).adb ++ [true] →
      ev = .press ∧ ∃ pub, (s.after C loginMs l).Waits loginMs .adb pub ∧
        ∃ l₁ r l₂, l = l₁ ++ .adb r :: l₂ ∧ r.body.take 2 = ascii ['o', 'n'] ∧
          unhex 32 r.pub = some pub ∧ ((s.after C loginMs l₁).d.signedOk C r true).1 = true ∧
          (s.after C loginMs l₁).approved pub ∧
          (s.after C loginMs l).now - (s.after C loginMs l₁).now ≤ loginMs) := by
  refine ⟨?_, ?_, ?_⟩
  · intro pub hnot happroved
    rcases (Page.stepped ..).approved _ hnot happroved with ⟨rfl, hwaits⟩ |
      ⟨body, v, rfl, hbody, rfl, hv⟩
    · left
      obtain ⟨hstate, hkind, hpub, htime⟩ := hwaits
      obtain ⟨l₁, body, label, l₂, hl, hbody, hnow⟩ := login_asked hs hstate hkind
      rw [hpub] at hbody
      exact ⟨rfl, ⟨hstate, hkind, hpub, htime⟩, l₁, body, label, l₂, hl, hbody,
        by rw [hnow]; exact htime⟩
    · right
      obtain ⟨⟨i, hi⟩, hvoucher⟩ := Page.vouches_spec hv
      exact ⟨body, v, rfl, hbody, rfl, nonce_given hs hi, hvoucher⟩
  · intro body v _ _ hv l₁ body' v' l₂ hl hbody' _ hpub hnonce
    obtain ⟨hlive, -⟩ := Page.vouches_spec ((Page.vouchLogin_approved v).mp hv)
    have hused := Page.not_live_vouchLogin C (s.after C loginMs l₁) v'
    have hstep : (s.after C loginMs l₁).step C loginMs (.vouch body')
        = ((s.after C loginMs l₁).vouchLogin C v').2 := by
      simp only [Page.step, hbody']
    rw [hpub, hnonce, ← hstep] at hused
    rw [hl, Page.after, foldl_append, foldl_cons] at hlive
    -- between the two it came to count again
    obtain ⟨m₁, ev', m₂, hm, hbefore, hmade⟩ := Runs.made (Q := fun t : Page =>
      ∃ i, t.live v.pub v.nonce i = true) hused hlive
    obtain ⟨body'', rfl, hbody''⟩ := Page.step_live hbefore hmade
    exact ⟨m₁, body'', m₂, hm, hbody''⟩
  · intro hadb
    obtain ⟨hev, hwaits⟩ := (Page.stepped ..).adb hadb
    obtain ⟨l₁, r, l₂, hl, hon, hpub, hok, happroved, hnow⟩ := adb_asked hs hwaits.1 hwaits.2.1
    exact ⟨hev, _, hwaits, l₁, r, l₂, hl, hon, hpub, hok, happroved,
      by rw [hnow]; exact hwaits.2.2.2⟩

/-- A page for runs on fixed inputs: it just started, and no browser is approved. -/
def doorPage : Page := .start (.first (Blob.fill 32 1) (Blob.fill 32 1)) 5 none

/-- A browser asks for its login. -/
def doorAsk : PageEv := .login (hex pagePub.1)

theorem approved_only_doorAsk :
    ¬ (doorPage.after clear 60000 [doorAsk, .tick 60000]).approved pagePub ∧
    ((doorPage.after clear 60000 [doorAsk, .tick 60000]).step clear 60000
      .press).approved pagePub ∧
    (doorPage.after clear 60000 [doorAsk, .tick 60000]).Waits 60000 .login pagePub := by
  have hbefore : ¬ (doorPage.after clear 60000 [doorAsk, .tick 60000]).approved pagePub := by
    decide
  have hafter : ((doorPage.after clear 60000 [doorAsk, .tick 60000]).step clear 60000
      .press).approved pagePub := by
    decide
  have honly := approved_only clear 60000 doorPage (Page.started_start _ _ _)
    [doorAsk, .tick 60000] .press
  refine ⟨hbefore, hafter, ?_⟩
  rcases honly.1 pagePub hbefore hafter with ⟨-, hwaits, -⟩ | ⟨body, v, hev, -⟩
  · exact hwaits
  · exact PageEv.noConfusion hev

/-- A browser that is approved asks for adb, and its login is revoked before the press. -/
def adbRun : List PageEv :=
  [doorAsk, .press, .adb { pageReq 1 with body := ascii ['o', 'n'] },
    .revoke { pageReq 2 with body := hex pagePub.1 }]

/-- **adb is opened for a browser that is approved no more**: its request waits on. -/
theorem adb_revoked :
    ((doorPage.after clear 60000 adbRun).step clear 60000 .press).adb
      = (doorPage.after clear 60000 adbRun).adb ++ [true] ∧
    ¬ (doorPage.after clear 60000 adbRun).approved
      (doorPage.after clear 60000 adbRun).login.pub := by
  decide

/-! ### Two at once -/

/-- Up to the given time neither of two keys starts to wait. -/
def Held (loginMs deadline : ℤ) (first second : Blob 32) (s : Page) (ev : PageEv) : Prop :=
  s.now ≤ deadline → ∀ body pub label, ev = .login body → loginBody body = some (pub, label) →
    pub = first ∨ pub = second → ¬ s.Starts loginMs pub

/-- The time is over, or neither of two keys waits. -/
def Neither (deadline : ℤ) (first second : Blob 32) (s : Page) : Prop :=
  deadline < s.now ∨ ¬ (s.login.state = .waits ∧ s.login.kind = .login ∧
    (s.login.pub = first ∨ s.login.pub = second))

theorem neither_step {deadline : ℤ} {first second : Blob 32} {ev : PageEv}
    (h : Neither deadline first second s) (hheld : Held loginMs deadline first second s ev) :
    Neither deadline first second (s.step C loginMs ev) := by
  have hclock := (Page.stepped C loginMs s ev).now_le
  rcases h with hover | hnot
  · exact .inl (by omega)
  · by_cases hover : deadline < (s.step C loginMs ev).now
    · exact .inl hover
    · right
      rintro ⟨hstate, hkind, hpub⟩
      rcases (Page.stepped ..).waits hstate with hsame |
        ⟨body, pub, label, hev, hbody, hstarts, hnew⟩ |
        ⟨r, pub, -, -, -, -, hnew⟩
      · rw [hsame] at hstate hkind hpub
        exact hnot ⟨hstate, hkind, hpub⟩
      · rw [hnew] at hpub
        exact hheld (by omega) body pub label hev hbody hpub hstarts
      · rw [hnew] at hkind
        exact Kind.noConfusion hkind

/-- A press approves a key that waits, and no other. -/
theorem approved_press (hnot : ¬ s.approved pub) :
    (s.webApprove loginMs).approved pub ↔ s.Waits loginMs .login pub := by
  constructor
  · intro h
    have h' : (s.step clear loginMs .press).approved pub := h
    rcases (Page.stepped ..).approved _ hnot h' with ⟨-, hwaits⟩ | ⟨body, v, hev, -⟩
    · exact hwaits
    · exact PageEv.noConfusion hev
  · rintro ⟨hstate, hkind, rfl, htime⟩
    rcases Page.webApprove_cases loginMs s with hpress | ⟨hwaits, -⟩ | ⟨-, hpress⟩
    · -- it would have gone on
      exfalso
      rw [Page.webApprove, Page.loginExpire_eq htime] at hpress
      simp only at hpress
      rw [if_neg fun h => Kind.noConfusion (hkind.symm.trans h.2), if_pos hstate] at hpress
      have := congrArg (fun t : Page => t.login.state) hpress
      rw [hstate] at this
      exact Stage.noConfusion this
    · exact Kind.noConfusion (hkind.symm.trans hwaits.2.1)
    · rw [hpress, Page.approved_def]
      exact mem_addClient_self ..

/-- The second browser that asks finds the first one waiting, and neither waits then. -/
theorem refused_ask {first second : Blob 32} {body : Bytes} {label : Label}
    (hfirst : s.Waits loginMs .login first) (hbody : loginBody body = some (second, label))
    (hne : second ≠ first) (hnot : ¬ s.approved second) :
    (s.step C loginMs (.login body)).login.state = .refused := by
  obtain ⟨hstate, hkind, hpub, htime⟩ := hfirst
  simp only [Page.step, hbody]
  unfold Page.loginAsk
  simp only [Page.loginExpire_eq htime]
  rw [if_neg hnot, if_neg fun h => hne (h.2.2.symm.trans hpub), if_pos hstate]

/-- A browser that starts to wait is approved by a press right after. -/
theorem press_after_ask (hms : 0 < loginMs) {body : Bytes} {label : Label}
    (hbody : loginBody body = some (pub, label)) (hstarts : s.Starts loginMs pub) :
    (s.step C loginMs (.login body)).now = s.now ∧
    ¬ (s.step C loginMs (.login body)).approved pub ∧
    ((s.step C loginMs (.login body)).webApprove loginMs).approved pub := by
  have hstep : s.step C loginMs (.login body) = (s.loginAsk loginMs pub label).2 := by
    simp only [Page.step, hbody]
  rcases Page.loginAsk_cases loginMs s pub label with ⟨hnever, -⟩ | ⟨-, hask⟩
  · exact absurd hstarts hnever
  · rw [hask] at hstep
    rw [hstep]
    have hnot : ¬ Page.approved { s.loginExpire loginMs with
        login := { pub := pub, label := label, askedAt := s.now, state := .waits,
                   kind := .login } } pub := by
      unfold Page.approved
      rw [Page.d_loginExpire]
      exact hstarts.1
    refine ⟨Page.now_loginExpire .., hnot, (approved_press hnot).mpr ⟨rfl, rfl, rfl, ?_⟩⟩
    simp only [Page.now_loginExpire, sub_self]
    exact hms.le

/-- From a state in which nothing waits a press approves neither of two keys up to a time,
exactly if neither starts to wait before. -/
theorem neither_iff (hms : 0 < loginMs) (hs : s.login.state ≠ .waits) (deadline : ℤ)
    (first second : Blob 32) (l : List PageEv) :
    (∀ m, m <+: l → (s.after C loginMs m).now ≤ deadline → ∀ pub, pub = first ∨ pub = second →
      ¬ (s.after C loginMs m).approved pub →
      ¬ ((s.after C loginMs m).webApprove loginMs).approved pub) ↔
    Runs.Each (Page.step C loginMs) (Held loginMs deadline first second) s l := by
  rw [Runs.each_iff]
  constructor
  · rintro h m ev m' rfl htime body pub label rfl hbody hpub hstarts
    obtain ⟨hnow, hnot, happroved⟩ := press_after_ask (C := C) hms hbody hstarts
    have hstep : s.after C loginMs (m ++ [.login body])
        = (s.after C loginMs m).step C loginMs (.login body) := by
      rw [Page.after, foldl_append]
      rfl
    have hpress := h (m ++ [.login body]) ⟨m', by simp⟩
    rw [hstep] at hpress
    exact hpress (hnow.trans_le htime) pub hpub hnot happroved
  · rintro h m ⟨m', rfl⟩ htime pub hpub hnotyet happroved
    have heach : Runs.Each (Page.step C loginMs) (Held loginMs deadline first second) s m := by
      rw [Runs.each_iff]
      exact fun l₁ ev l₂ heq => h l₁ ev (l₂ ++ m') (by rw [heq]; simp)
    have hneither : Neither deadline first second (s.after C loginMs m) :=
      Runs.invariant (fun t ev ht hheld => neither_step ht hheld) (.inr fun hh => hs hh.1) heach
    obtain ⟨hstate, hkind, hlogin, -⟩ := (approved_press hnotyet).mp happroved
    rcases hneither with hover | hneither
    · omega
    · exact hneither ⟨hstate, hkind, hlogin ▸ hpub⟩

/-- **When two browsers that ask at once are both refused**: up to the time at which the first
one's login would have run out a press approves neither, exactly if until then neither of them
asks while nothing waits and the last login was not its own. -/
theorem two_refused (C : Crypto) (loginMs : ℤ) (hms : 0 < loginMs) (s : Page)
    (first second : Blob 32) (body : Bytes) (label : Label)
    (hfirst : s.Waits loginMs .login first) (hbody : loginBody body = some (second, label))
    (hne : second ≠ first) (hnot : ¬ s.approved second) (l : List PageEv) :
    (∀ m, m <+: l →
      ((s.step C loginMs (.login body)).after C loginMs m).now ≤ s.login.askedAt + loginMs →
      ∀ pub, pub = first ∨ pub = second →
        ¬ ((s.step C loginMs (.login body)).after C loginMs m).approved pub →
        ¬ (((s.step C loginMs (.login body)).after C loginMs m).webApprove loginMs).approved pub) ↔
    Runs.Each (Page.step C loginMs) (Held loginMs (s.login.askedAt + loginMs) first second)
      (s.step C loginMs (.login body)) l := by
  have hrefused := refused_ask (C := C) hfirst hbody hne hnot
  have hnothing : (s.step C loginMs (.login body)).login.state ≠ .waits := by
    rw [hrefused]
    exact Stage.noConfusion
  exact neither_iff hms hnothing _ first second l

/-- Another browser's key. -/
def otherPub : Blob 32 := Blob.fill 32 6

/-- The other browser asks for its login. -/
def otherAsk : PageEv := .login (hex otherPub.1)

/-- The first browser asks again, and the other one only when the time is over. -/
theorem two_refused_once :
    (doorPage.after clear 60000 [doorAsk]).Waits 60000 .login pagePub ∧
    ∀ m, m <+: [doorAsk, .tick 60001, otherAsk] →
      ((doorPage.after clear 60000 [doorAsk, otherAsk]).after clear 60000 m).now
        ≤ 5 + 60000 →
      ∀ pub, pub = pagePub ∨ pub = otherPub →
        ¬ ((doorPage.after clear 60000 [doorAsk, otherAsk]).after clear 60000
          m).approved pub →
        ¬ (((doorPage.after clear 60000 [doorAsk, otherAsk]).after clear 60000
          m).webApprove 60000).approved pub := by
  have hfirst : (doorPage.after clear 60000 [doorAsk]).Waits 60000 .login pagePub := by
    unfold Page.Waits
    decide
  refine ⟨hfirst, ?_⟩
  have hbody : loginBody (hex otherPub.1) = some (otherPub, pageLabel []) := by
    decide
  refine (two_refused clear 60000 (by omega) (doorPage.after clear 60000 [doorAsk])
    pagePub otherPub (hex otherPub.1) (pageLabel []) hfirst hbody (by decide)
    (by decide) [doorAsk, .tick 60001, otherAsk]).mpr ?_
  refine ⟨?_, ?_, ?_, trivial⟩
  · -- the record is the first one's own
    intro _ body pub label hev hread _ hstarts
    obtain rfl : body = hex pagePub.1 := (PageEv.login.inj hev).symm
    have hpage : loginBody (hex pagePub.1) = some (pagePub, pageLabel []) := by
      decide
    obtain rfl : pub = pagePub := congrArg Prod.fst (Option.some.inj (hread.symm.trans hpage))
    exact hstarts.2.2 (by decide)
  · intro _ body pub label hev
    exact PageEv.noConfusion hev
  · intro htime
    exact absurd htime (by decide)

/-- **The second browser asks again and is approved**: all within the first one's time. -/
theorem two_not_refused :
    (doorPage.after clear 60000 [doorAsk]).Waits 60000 .login pagePub ∧
    ¬ (doorPage.after clear 60000 [doorAsk]).approved otherPub ∧
    loginBody (hex otherPub.1) = some (otherPub, pageLabel []) ∧
    (doorPage.after clear 60000 [doorAsk, otherAsk, otherAsk]).now
      = (doorPage.after clear 60000 [doorAsk]).login.askedAt ∧
    ((doorPage.after clear 60000 [doorAsk, otherAsk, otherAsk]).webApprove 60000).approved
      otherPub := by
  unfold Page.Waits
  decide

end Hassmic.Web
