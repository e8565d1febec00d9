import Hassmic.Web.Counters

/-!
# Logins of the settings page

A browser that is not approved asks with its key, and one record holds what waits for the
button: a login, or adb for an approved browser.  A browser that is approved on another
Echo of the network brings a voucher instead, for a nonce this Echo handed out for its
key.

## Main definitions

* `Login`, `loginExpire`, `loginAsk`, `adbAsk`, `webApprove` — what waits for the button.
* `Nonce`, `voucher`, `vouchNonce`, `vouchLogin` — logins through another Echo.
* `Page`, `PageEv`, `Page.step` — the page, and what happens to it.

## Main results

* `Page.stepped` — which step makes a login wait, hands out a nonce, opens adb or approves a key.
-/

namespace Hassmic.Web

open Arb Byte Text List
open Function (update update_of_ne update_self)

/-- What waits for the button: `W_LOGIN` or `W_ADB`. -/
inductive Kind
  | login
  | adb
  deriving DecidableEq

/-- `login.state`. -/
inductive Stage
  | none
  | waits
  | approved
  | refused
  deriving DecidableEq

/-- The record of what waits for the button, and of what became of it. -/
structure Login where
  pub : Blob 32
  label : Label
  askedAt : ℤ
  state : Stage
  kind : Kind

/-- A nonce handed out for a key; none if its time is 0. -/
structure Nonce where
  pub : Blob 32
  nonce : Blob 16
  givenAt : ℤ

/-- What the page answers. -/
inductive Answer
  | approved
  | waiting
  | refused
  | busy
  | closed

abbrev nonceMs : ℤ := 120000

/-- The settings page. -/
structure Page where
  d : Daemon
  login : Login
  nonces : Fin 8 → Nonce
  nonceNext : UInt32
  now : ℤ
  /-- The key of the arbitration network, while that runs and we are in one. -/
  netKey : Option (Blob 32)
  /-- What `adbwifi_ask` was asked for, in order. -/
  adb : List Bool

/-- A page that just started: nothing waits, and no nonce was handed out. -/
def Page.start (d : Daemon) (now : ℤ) (netKey : Option (Blob 32)) : Page where
  d := d
  login := { pub := .zero 32, label := cLabel [], askedAt := 0, state := .none, kind := .login }
  nonces _ := { pub := .zero 32, nonce := .zero 16, givenAt := 0 }
  nonceNext := 0
  now := now
  netKey := netKey
  adb := []

/-- The keys of the approved browsers. -/
def Page.approved (s : Page) (pub : Blob 32) : Prop := (clientOf s.d.clients pub).isSome

instance (s : Page) (pub : Blob 32) : Decidable (s.approved pub) :=
  inferInstanceAs (Decidable ((clientOf s.d.clients pub).isSome = true))

/-! ### The texts of requests -/

/-- `%<w>s`: a word of at most `w` characters, and what follows. -/
def word (w : ℕ) (l : Bytes) : Option (Bytes × Bytes) :=
  let l := l.dropWhile isSpace
  let x := (l.takeWhile fun c => !isSpace c).take w
  if x = [] then none else some (x, l.drop x.length)

/-- What follows a word: 63 characters of it, with blanks for control characters. -/
def pageLabel (l : Bytes) : Label :=
  cLabel ((l.dropWhile isSpace).map fun c => if c < 0x20 then space else c)

/-- The body of `/api/login`: `<browser key> <label>`. -/
def loginBody (body : Bytes) : Option (Blob 32 × Label) := do
  let h ← word 79 (body.takeWhile (· ≠ nul))
  let pub ← unhex 32 h.1
  some (pub, pageLabel h.2)

/-- The body of `/api/vouch/nonce`: `<browser key>`. -/
def nonceBody (body : Bytes) : Option (Blob 32) := do
  let h ← word 79 (body.takeWhile (· ≠ nul))
  unhex 32 h.1

/-- What a login through another Echo says. -/
structure Vouched where
  pub : Blob 32
  nonce : Blob 16
  voucher : Blob 16
  via : Bytes
  label : Label

/-- The body of `/api/vouch/login`: `<browser key> <nonce> <voucher> <via> <label>`. -/
def vouchBody (body : Bytes) : Option Vouched := do
  let a ← word 79 (body.takeWhile (· ≠ nul))
  let b ← word 79 a.2
  let c ← word 79 b.2
  let d ← word 199 c.2
  let pub ← unhex 32 a.1
  let nonce ← unhex 16 b.1
  let voucher ← unhex 16 c.1
  if 100 ≤ d.1.length / 2 then none
  else
    let via ← unhex (d.1.length / 2) d.1
    -- the name ends at the first NUL of what was decoded
    some { pub, nonce, voucher, via := via.1.takeWhile (· ≠ nul), label := pageLabel d.2 }

/-- The label of a browser that came through another Echo: `%.30s via %.28s`. -/
def viaLabel (label via : Bytes) : Label :=
  cLabel (label.take 30 ++ ascii [' ', 'v', 'i', 'a', ' '] ++ via.take 28)

/-- The key `/api/revoke` names, up to a blank or the end of the line. -/
def revokeBody (body : Bytes) : Option (Blob 32) :=
  unhex 32 (body.takeWhile fun c => c ≠ nul && c ≠ space && c ≠ cr && c ≠ lf)

/-! ### The button -/

namespace Page

variable (C : Crypto) (loginMs : ℤ) (s : Page)

/-- `login_expire`. -/
def loginExpire : Page :=
  if s.login.state = .waits ∧ s.now - s.login.askedAt > loginMs then
    { s with login := { s.login with state := .refused } }
  else s

/-- `web_approve`. -/
def webApprove : Page :=
  let s := s.loginExpire loginMs
  if s.login.state = .waits ∧ s.login.kind = .adb then
    { s with login := { s.login with state := .approved }, adb := s.adb ++ [true] }
  else if s.login.state = .waits then
    { s with
      d := s.d.addClient s.login.pub s.login.label
      login := { s.login with state := .approved } }
  else s

/-- `adb_ask`, for an approved browser. -/
def adbAsk (pub : Blob 32) (on : Bool) : Answer × Page :=
  if !on then (.closed, { s with adb := s.adb ++ [false] })
  else
    let s := s.loginExpire loginMs
    if s.login.state = .waits ∧ s.login.kind = .adb ∧ s.login.pub = pub then (.waiting, s)
    else if s.login.state = .waits then (.busy, s)
    else
      (.waiting, { s with
        login := { pub := pub, label := cLabel (ascii ['a', 'd', 'b']), askedAt := s.now,
                   state := .waits, kind := .adb } })

/-- `login_ask`. -/
def loginAsk (pub : Blob 32) (label : Label) : Answer × Page :=
  let s := s.loginExpire loginMs
  if s.approved pub then (.approved, s)
  else if s.login.state ≠ .none ∧ s.login.kind = .login ∧ s.login.pub = pub then
    (if s.login.state = .waits then .waiting
      else if s.login.state = .approved then .approved else .refused, s)
  else if s.login.state = .waits then
    -- two at once: neither
    (.refused, { s with login := { s.login with state := .refused } })
  else
    (.waiting, { s with
      login := { pub := pub, label := label, askedAt := s.now, state := .waits, kind := .login } })

/-! ### Through another Echo -/

/-- `arb_web_key`. -/
def arbWebKey : Option (Blob 32) :=
  s.netKey.map fun k => C.keyed32 k (ascii ['h', 'a', 's', 's', 'm', 'i', 'c', ' ', 'w', 'e', 'b',
    ' ', 'v', 'o', 'u', 'c', 'h', 'e', 'r', ' ', '1'])

/-- `voucher`, for a browser at a target. -/
def voucher (target browser : Blob 32) (nonce : Blob 16) (via : Bytes) : Option (Blob 16) :=
  (s.arbWebKey C).map fun k => C.keyed16 k (ascii ['h', 'a', 's', 's', 'm', 'i', 'c', ' ', 'v', 'o',
    'u', 'c', 'h', 'e', 'r', ' ', '1'] ++ target.1 ++ browser.1 ++ nonce.1 ++ via)

/-- `/api/vouch/nonce`, with what `ws_random` gave. -/
def vouchNonce (pub : Blob 32) (rnd : Blob 16) : Page :=
  { s with
    nonces := update s.nonces ⟨s.nonceNext.toNat % 8, Nat.mod_lt _ (by decide)⟩
      { pub := pub, nonce := rnd, givenAt := s.now }
    nonceNext := s.nonceNext + 1 }

/-- A slot whose nonce counts for the key. -/
def live (pub : Blob 32) (nonce : Blob 16) (i : Fin 8) : Bool :=
  !((s.nonces i).givenAt == 0 || decide (s.now - (s.nonces i).givenAt > nonceMs) ||
    (s.nonces i).pub != pub || (s.nonces i).nonce != nonce)

/-- Whether `/api/vouch/login` approves: the nonce is live, and the voucher is right. -/
def vouches (v : Vouched) : Bool :=
  (List.finRange 8).any (s.live v.pub v.nonce) &&
    s.voucher C s.d.pk v.pub v.nonce v.via == some v.voucher

/-- `/api/vouch/login`: the nonce is used up, whether the voucher is right or not. -/
def vouchLogin (v : Vouched) : Answer × Page :=
  let used := { s with
    nonces := fun i =>
      if s.live v.pub v.nonce i then { s.nonces i with givenAt := 0 } else s.nonces i }
  if s.vouches C v then
    (.approved, { used with d := used.d.addClient v.pub (viaLabel v.label.1 v.via) })
  else (.refused, used)

/-! ### Signed requests -/

/-- A signed request that changes nothing but its browser's counters. -/
def signed (r : Req) (persist : Bool) : Bool × Page :=
  ((s.d.signedOk C r persist).1, { s with d := (s.d.signedOk C r persist).2 })

/-- `/api/adb`. -/
def adbApi (r : Req) : Page :=
  match (s.signed C r true).1, unhex 32 r.pub with
  | true, some pub =>
      ((s.signed C r true).2.adbAsk loginMs pub (r.body.take 2 == ascii ['o', 'n'])).2
  | _, _ => (s.signed C r true).2

/-- `/api/revoke`. -/
def revokeApi (r : Req) : Page :=
  match (s.signed C r true).1, revokeBody r.body with
  | true, some who => { (s.signed C r true).2 with d := (s.signed C r true).2.d.revoke who }
  | _, _ => (s.signed C r true).2

end Page

/-- What happens to the page. -/
inductive PageEv
  /-- `/api/login`, the first time or again. -/
  | login (body : Bytes)
  /-- The action button. -/
  | press
  | adb (r : Req)
  | nonce (body : Bytes) (rnd : Blob 16)
  | vouch (body : Bytes)
  | revoke (r : Req)
  /-- Any other signed request. -/
  | signed (r : Req) (persist : Bool)
  /-- The Echo joins a network or leaves one. -/
  | network (netKey : Option (Blob 32))
  | tick (ms : ℕ)
  /-- The thread that looks for a login that ran out. -/
  | expiry

/-- One step of the page. -/
def Page.step (C : Crypto) (loginMs : ℤ) (s : Page) : PageEv → Page
  | .login body =>
      match loginBody body with
      | some (pub, label) => (s.loginAsk loginMs pub label).2
      | none => s
  | .press => s.webApprove loginMs
  | .adb r => s.adbApi C loginMs r
  | .nonce body rnd =>
      match nonceBody body with
      | some pub => s.vouchNonce pub rnd
      | none => s
  | .vouch body =>
      match vouchBody body with
      | some v => (s.vouchLogin C v).2
      | none => s
  | .revoke r => s.revokeApi C r
  | .signed r persist => (s.signed C r persist).2
  | .network netKey => { s with netKey := netKey }
  | .tick ms => { s with now := s.now + ms }
  | .expiry => s.loginExpire loginMs

/-- The page after all this happened. -/
def Page.after (C : Crypto) (loginMs : ℤ) (s : Page) (l : List PageEv) : Page :=
  l.foldl (Page.step C loginMs) s

/-! ### Keys -/

theorem approved_iff (l : List Client) (pub : Blob 32) :
    (clientOf l pub).isSome ↔ pub ∈ l.map Client.pub := by
  simp [clientOf, find?_isSome, Subtype.ext_iff]

theorem pubs_setClient {pub : Blob 32} {k : Client} (hk : k.pub = pub) (l : List Client) :
    (setClient l pub k).map Client.pub = l.map Client.pub := by
  induction l with
  | nil => rfl
  | cons c l ih =>
    rw [setClient]
    split
    · next hc => rw [map_cons, map_cons, hk, hc]
    · rw [map_cons, map_cons, ih]

/-- A new label is no new key. -/
theorem pubs_relabel {pub : Blob 32} {k : Client} (hk : k.pub = pub) (label : Label)
    (l : List Client) :
    (setClient l pub { k with label := label }).map Client.pub = l.map Client.pub := by
  apply pubs_setClient
  exact hk

theorem pubs_signedOk (C : Crypto) (d : Daemon) (r : Req) (persist : Bool) :
    (d.signedOk C r persist).2.clients.map Client.pub = d.clients.map Client.pub := by
  unfold Daemon.signedOk
  cases htakes : d.takes C r with
  | none => rfl
  | some cn =>
    have hset := pubs_setClient (pub_ctrTake cn.1 cn.2) d.clients
    cases persist with
    | true => exact hset
    | false => exact hset

/-- The key is approved then. -/
theorem mem_addClient_self (d : Daemon) (pub : Blob 32) (label : Label) :
    pub ∈ (d.addClient pub label).clients.map Client.pub := by
  unfold Daemon.addClient
  cases hc : clientOf d.clients pub with
  | some k =>
    have hk : k.pub = pub := clientOf_pub hc
    show pub ∈ (setClient d.clients pub { k with label := label }).map Client.pub
    rw [pubs_relabel hk, ← approved_iff, hc]
    rfl
  | none =>
    show pub ∈ (_ ++ [_]).map Client.pub
    simp

/-- And no other that was not. -/
theorem mem_addClient {d : Daemon} {pub pub' : Blob 32} {label : Label}
    (h : pub' ∈ (d.addClient pub label).clients.map Client.pub) :
    pub' = pub ∨ pub' ∈ d.clients.map Client.pub := by
  unfold Daemon.addClient at h
  cases hc : clientOf d.clients pub with
  | some k =>
    have hk : k.pub = pub := clientOf_pub hc
    rw [hc] at h
    replace h : pub' ∈ (setClient d.clients pub { k with label := label }).map Client.pub := h
    rw [pubs_relabel hk] at h
    exact .inr h
  | none =>
    rw [hc] at h
    replace h : pub' ∈ ((if d.clients.length = maxClients then d.clients.drop 1 else d.clients) ++
      [({ pub := pub, label := label } : Client)]).map Client.pub := h
    rw [map_append, mem_append] at h
    rcases h with h | h
    · right
      split at h
      · exact ((drop_sublist 1 d.clients).map _).subset h
      · exact h
    · exact .inl (mem_singleton.mp h)

theorem mem_revoke {d : Daemon} {pub pub' : Blob 32}
    (h : pub' ∈ (d.revoke pub).clients.map Client.pub) : pub' ∈ d.clients.map Client.pub := by
  unfold Daemon.revoke at h
  split at h
  · exact (eraseP_sublist.map _).subset h
  · exact h

namespace Page

variable {C : Crypto} {loginMs : ℤ} {s : Page}

theorem approved_def (s : Page) (pub : Blob 32) :
    s.approved pub ↔ pub ∈ s.d.clients.map Client.pub := approved_iff _ _

/-! ### What one function does -/

@[simp] theorem d_loginExpire (loginMs : ℤ) (s : Page) : (s.loginExpire loginMs).d = s.d := by
  unfold loginExpire
  split <;> rfl

@[simp] theorem now_loginExpire (loginMs : ℤ) (s : Page) :
    (s.loginExpire loginMs).now = s.now := by
  unfold loginExpire
  split <;> rfl

@[simp] theorem nonces_loginExpire (loginMs : ℤ) (s : Page) :
    (s.loginExpire loginMs).nonces = s.nonces := by
  unfold loginExpire
  split <;> rfl

@[simp] theorem adb_loginExpire (loginMs : ℤ) (s : Page) :
    (s.loginExpire loginMs).adb = s.adb := by
  unfold loginExpire
  split <;> rfl

/-- What waits after that waited before, and its time is not over. -/
theorem waits_loginExpire (h : (s.loginExpire loginMs).login.state = .waits) :
    s.loginExpire loginMs = s ∧ s.login.state = .waits ∧ s.now - s.login.askedAt ≤ loginMs := by
  unfold loginExpire at h ⊢
  split at h
  · exact absurd h (by simp)
  · next hnot =>
    rw [if_neg hnot]
    refine ⟨rfl, h, ?_⟩
    by_contra hlate
    exact hnot ⟨h, by omega⟩

/-- What waits, and not too long, waits on. -/
theorem loginExpire_eq (h : s.now - s.login.askedAt ≤ loginMs) : s.loginExpire loginMs = s := by
  unfold loginExpire
  rw [if_neg fun hh => by omega]

/-- The login that waits for the button, if its time is not over. -/
def Waits (loginMs : ℤ) (s : Page) (kind : Kind) (pub : Blob 32) : Prop :=
  s.login.state = .waits ∧ s.login.kind = kind ∧ s.login.pub = pub ∧
    s.now - s.login.askedAt ≤ loginMs

/-- What a press does: nothing, or it opens adb, or it approves the browser that waits. -/
theorem webApprove_cases (loginMs : ℤ) (s : Page) :
    s.webApprove loginMs = s.loginExpire loginMs ∨
    (s.Waits loginMs .adb s.login.pub ∧ s.webApprove loginMs =
      { s with login := { s.login with state := .approved }, adb := s.adb ++ [true] }) ∨
    (s.Waits loginMs .login s.login.pub ∧ s.webApprove loginMs =
      { s with
        d := s.d.addClient s.login.pub s.login.label
        login := { s.login with state := .approved } }) := by
  by_cases hwaits : (s.loginExpire loginMs).login.state = .waits
  · obtain ⟨heq, hstate, htime⟩ := waits_loginExpire hwaits
    right
    unfold webApprove
    rw [heq]
    cases hkind : s.login.kind with
    | adb => exact .inl ⟨⟨hstate, hkind, rfl, htime⟩, if_pos ⟨hstate, hkind⟩⟩
    | login =>
      refine .inr ⟨⟨hstate, hkind, rfl, htime⟩, ?_⟩
      simp only
      rw [if_neg fun h => Kind.noConfusion (hkind.symm.trans h.2), if_pos hstate]
  · left
    unfold webApprove
    simp only
    rw [if_neg fun h => hwaits h.1, if_neg hwaits]

/-- A login of the key would start to wait: it is not approved, nothing waits, and the last
login was not its own. -/
def Starts (loginMs : ℤ) (s : Page) (pub : Blob 32) : Prop :=
  ¬ s.approved pub ∧ (s.loginExpire loginMs).login.state ≠ .waits ∧
    ¬ (s.login.state ≠ .none ∧ s.login.kind = .login ∧ s.login.pub = pub)

/-- What a browser that asks finds. -/
theorem loginAsk_cases (loginMs : ℤ) (s : Page) (pub : Blob 32) (label : Label) :
    (¬ s.Starts loginMs pub ∧ ((s.loginAsk loginMs pub label).2 = s.loginExpire loginMs ∨
      (s.loginAsk loginMs pub label).2 = { s.loginExpire loginMs with
        login := { (s.loginExpire loginMs).login with state := .refused } })) ∨
    (s.Starts loginMs pub ∧ (s.loginAsk loginMs pub label).2 = { s.loginExpire loginMs with
      login :=
        { pub := pub, label := label, askedAt := s.now, state := .waits, kind := .login } }) := by
  have happroved : (s.loginExpire loginMs).approved pub ↔ s.approved pub := by
    unfold approved
    rw [d_loginExpire]
  have hown : ((s.loginExpire loginMs).login.state ≠ .none ∧
      (s.loginExpire loginMs).login.kind = .login ∧ (s.loginExpire loginMs).login.pub = pub) ↔
      (s.login.state ≠ .none ∧ s.login.kind = .login ∧ s.login.pub = pub) := by
    unfold loginExpire
    split
    · next h => simp [h.1]
    · rfl
  unfold loginAsk
  simp only
  by_cases h₁ : (s.loginExpire loginMs).approved pub
  · rw [if_pos h₁]
    exact .inl ⟨fun h => h.1 (happroved.mp h₁), .inl rfl⟩
  · rw [if_neg h₁]
    by_cases h₂ : (s.loginExpire loginMs).login.state ≠ .none ∧
        (s.loginExpire loginMs).login.kind = .login ∧ (s.loginExpire loginMs).login.pub = pub
    · rw [if_pos h₂]
      exact .inl ⟨fun h => h.2.2 (hown.mp h₂), .inl rfl⟩
    · rw [if_neg h₂]
      by_cases h₃ : (s.loginExpire loginMs).login.state = .waits
      · rw [if_pos h₃]
        exact .inl ⟨fun h => h.2.1 h₃, .inr rfl⟩
      · rw [if_neg h₃, now_loginExpire]
        exact .inr ⟨⟨fun h => h₁ (happroved.mpr h), h₃, fun h => h₂ (hown.mpr h)⟩, rfl⟩

/-- What an approved browser that asks for adb finds. -/
theorem adbAsk_cases (loginMs : ℤ) (s : Page) (pub : Blob 32) (on : Bool) :
    (s.adbAsk loginMs pub on).2 = { s with adb := s.adb ++ [false] } ∨
    (s.adbAsk loginMs pub on).2 = s.loginExpire loginMs ∨
    (on = true ∧ (s.adbAsk loginMs pub on).2 = { s.loginExpire loginMs with
      login := { pub := pub, label := cLabel (ascii ['a', 'd', 'b']), askedAt := s.now,
                 state := .waits, kind := .adb } }) := by
  unfold adbAsk
  cases on with
  | false => exact .inl rfl
  | true =>
    right
    simp only [Bool.not_true, Bool.false_eq_true, if_false]
    split
    · exact .inl rfl
    · split
      · exact .inl rfl
      · rw [now_loginExpire]
        exact .inr ⟨trivial, rfl⟩

/-- A request for adb is refused, or it is of an approved browser. -/
theorem adbApi_cases (C : Crypto) (loginMs : ℤ) (s : Page) (r : Req) :
    s.adbApi C loginMs r = (s.signed C r true).2 ∨
    ∃ pub, (s.d.signedOk C r true).1 = true ∧ unhex 32 r.pub = some pub ∧
      s.adbApi C loginMs r =
        ((s.signed C r true).2.adbAsk loginMs pub (r.body.take 2 == ascii ['o', 'n'])).2 := by
  unfold adbApi
  split
  · next pub hok hpub => exact .inr ⟨pub, hok, hpub, rfl⟩
  · exact .inl rfl

/-- A login is revoked, or nothing but counters changes. -/
theorem revokeApi_cases (C : Crypto) (s : Page) (r : Req) :
    s.revokeApi C r = (s.signed C r true).2 ∨
    ∃ who, s.revokeApi C r =
      { (s.signed C r true).2 with d := (s.signed C r true).2.d.revoke who } := by
  unfold revokeApi
  split
  · next who _ _ => exact .inr ⟨who, rfl⟩
  · exact .inl rfl

/-- A login through another Echo uses up the nonces that fit, and may approve its key. -/
theorem vouchLogin_cases (C : Crypto) (s : Page) (v : Vouched) :
    (s.vouches C v = true ∧ (s.vouchLogin C v).2 =
      { s with
        d := s.d.addClient v.pub (viaLabel v.label.1 v.via)
        nonces := fun i =>
          if s.live v.pub v.nonce i then { s.nonces i with givenAt := 0 } else s.nonces i }) ∨
    (s.vouches C v = false ∧ (s.vouchLogin C v).2 =
      { s with
        nonces := fun i =>
          if s.live v.pub v.nonce i then { s.nonces i with givenAt := 0 } else s.nonces i }) := by
  unfold vouchLogin
  cases hv : s.vouches C v with
  | true => exact .inl ⟨rfl, rfl⟩
  | false => exact .inr ⟨rfl, rfl⟩

/-! ### What one step does -/

/-- What is left of a page when nothing begins to wait, nobody is let in and no nonce is handed
out. -/
structure Still (s t : Page) : Prop where
  now_le : s.now ≤ t.now
  waits : t.login.state = .waits → t.login = s.login
  nonces : t.nonces = s.nonces
  adb : t.adb = s.adb ∨ t.adb = s.adb ++ [false]
  approved : ∀ pub, t.approved pub → s.approved pub

theorem Still.refl (s : Page) : Still s s := ⟨le_rfl, fun _ => rfl, rfl, .inl rfl, fun _ h => h⟩

/-- A login that ran out waits no more. -/
theorem Still.expires {t : Page} (h : Still s t) : Still s (t.loginExpire loginMs) := by
  refine ⟨h.now_le.trans_eq (now_loginExpire ..).symm, ?_,
    (nonces_loginExpire ..).trans h.nonces, ?_, ?_⟩
  · intro hwaits
    obtain ⟨heq, hstate, -⟩ := waits_loginExpire hwaits
    rw [heq]
    exact h.waits hstate
  · rw [adb_loginExpire]
    exact h.adb
  · unfold Page.approved
    rw [d_loginExpire]
    exact h.approved

/-- A signed request changes no key. -/
theorem Still.signs (C : Crypto) (s : Page) (r : Req) (persist : Bool) :
    Still s (s.signed C r persist).2 := by
  refine ⟨le_rfl, fun _ => rfl, rfl, .inl rfl, ?_⟩
  intro pub hin
  rw [approved_def] at hin ⊢
  rw [← pubs_signedOk C s.d r persist]
  exact hin

/-- What one step does to each part of the page. -/
structure Stepped (C : Crypto) (loginMs : ℤ) (s : Page) (ev : PageEv) (t : Page) : Prop where
  /-- The clock never goes back. -/
  now_le : s.now ≤ t.now
  /-- What waits after a step waited before, or a browser asked for it in this step. -/
  waits : t.login.state = .waits → t.login = s.login ∨
    (∃ body pub label, ev = .login body ∧ loginBody body = some (pub, label) ∧
      s.Starts loginMs pub ∧
      t.login = { pub := pub, label := label, askedAt := s.now, state := .waits, kind := .login }) ∨
    (∃ r pub, ev = .adb r ∧ (s.d.signedOk C r true).1 = true ∧ unhex 32 r.pub = some pub ∧
      r.body.take 2 = ascii ['o', 'n'] ∧
      t.login = { pub := pub, label := cLabel (ascii ['a', 'd', 'b']), askedAt := s.now,
                  state := .waits, kind := .adb })
  /-- A slot of the nonces stays as it is, is used up, or gets a nonce for a key. -/
  nonces : ∀ i, t.nonces i = s.nonces i ∨ (t.nonces i).givenAt = 0 ∨
    ∃ body pub rnd, ev = .nonce body rnd ∧ nonceBody body = some pub ∧
      t.nonces i = { pub := pub, nonce := rnd, givenAt := s.now }
  /-- Only a press opens adb. -/
  adb : t.adb = s.adb ++ [true] → ev = .press ∧ s.Waits loginMs .adb s.login.pub
  /-- A key becomes approved by a press while its login waits, or by a voucher. -/
  approved : ∀ pub, ¬ s.approved pub → t.approved pub →
    ev = .press ∧ s.Waits loginMs .login pub ∨
    ∃ body v, ev = .vouch body ∧ vouchBody body = some v ∧ v.pub = pub ∧ s.vouches C v = true

theorem Still.stepped {ev : PageEv} {t : Page} (h : Still s t) : Stepped C loginMs s ev t where
  now_le := h.now_le
  waits hwaits := .inl (h.waits hwaits)
  nonces i := .inl (congrFun h.nonces i)
  adb hopen := by
    rcases h.adb with hadb | hadb
    · rw [hadb] at hopen
      simp at hopen
    · rw [hadb] at hopen
      simp at hopen
  approved pub hnot hin := absurd (h.approved pub hin) hnot

/-- **One step**, whatever happens to the page. -/
theorem stepped (C : Crypto) (loginMs : ℤ) (s : Page) (ev : PageEv) :
    Stepped C loginMs s ev (s.step C loginMs ev) := by
  have hstill : Stepped C loginMs s ev s := (Still.refl s).stepped
  have hexpires : Still s (s.loginExpire loginMs) := (Still.refl s).expires
  cases ev with
  | login body =>
    simp only [step]
    cases hbody : loginBody body with
    | none => exact hstill
    | some pl =>
      obtain ⟨pub, label⟩ := pl
      dsimp only
      rcases loginAsk_cases loginMs s pub label with ⟨-, h | h⟩ | ⟨hstarts, h⟩
      · rw [h]
        exact hexpires.stepped
      · rw [h]
        exact { hexpires.stepped with waits := fun hwaits => absurd hwaits (by simp) }
      · rw [h]
        exact { hexpires.stepped with
          waits := fun _ => .inr (.inl ⟨body, pub, label, rfl, hbody, hstarts, rfl⟩) }
  | press =>
    simp only [step]
    rcases webApprove_cases loginMs s with h | ⟨hwaits, h⟩ | ⟨hwaits, h⟩
    · rw [h]
      exact hexpires.stepped
    · rw [h]
      exact { hstill with
        waits := fun hno => absurd hno (by simp)
        adb := fun _ => ⟨rfl, hwaits⟩ }
    · rw [h]
      refine { hstill with waits := fun hno => absurd hno (by simp), approved := ?_ }
      intro pub hnot hin
      rw [approved_def] at hnot hin
      rcases mem_addClient hin with hpub | hin
      · rw [hpub]
        exact .inl ⟨rfl, hwaits⟩
      · exact absurd hin hnot
  | adb r =>
    simp only [step]
    have hsigns := Still.signs C s r true
    rcases adbApi_cases C loginMs s r with h | ⟨pub, hok, hpub, h⟩
    · rw [h]
      exact hsigns.stepped
    · rw [h]
      rcases adbAsk_cases loginMs (s.signed C r true).2 pub (r.body.take 2 == ascii ['o', 'n'])
        with h | h | ⟨hon, h⟩
      · rw [h]
        exact Still.stepped ⟨hsigns.now_le, hsigns.waits, hsigns.nonces, .inr rfl, hsigns.approved⟩
      · rw [h]
        exact hsigns.expires.stepped
      · rw [h]
        exact { hsigns.expires.stepped with
          waits := fun _ => .inr (.inr ⟨r, pub, rfl, hok, hpub, beq_iff_eq.mp hon, rfl⟩) }
  | nonce body rnd =>
    simp only [step]
    cases hbody : nonceBody body with
    | none => exact hstill
    | some pub =>
      refine { hstill with nonces := ?_ }
      intro i
      by_cases hi : i = ⟨s.nonceNext.toNat % 8, Nat.mod_lt _ (by decide)⟩
      · subst hi
        exact .inr (.inr ⟨body, pub, rnd, rfl, hbody, update_self ..⟩)
      · exact .inl (update_of_ne hi ..)
  | vouch body =>
    simp only [step]
    cases hbody : vouchBody body with
    | none => exact hstill
    | some v =>
      -- the nonces that fit are used up either way
      have hused : ∀ i, (if s.live v.pub v.nonce i then { s.nonces i with givenAt := 0 }
          else s.nonces i) =
          s.nonces i ∨ (if s.live v.pub v.nonce i then { s.nonces i with givenAt := 0 }
            else s.nonces i : Nonce).givenAt = 0 := by
        intro i
        split
        · exact .inr rfl
        · exact .inl rfl
      dsimp only
      rcases vouchLogin_cases C s v with ⟨hok, h⟩ | ⟨-, h⟩
      · rw [h]
        refine { hstill with nonces := fun i => (hused i).imp_right .inl, approved := ?_ }
        intro pub hnot hin
        rw [approved_def] at hnot hin
        rcases mem_addClient hin with hpub | hin
        · exact .inr ⟨body, v, rfl, hbody, hpub.symm, hok⟩
        · exact absurd hin hnot
      · rw [h]
        exact { hstill with nonces := fun i => (hused i).imp_right .inl }
  | revoke r =>
    simp only [step]
    have hsigns := Still.signs C s r true
    rcases revokeApi_cases C s r with h | ⟨who, h⟩
    · rw [h]
      exact hsigns.stepped
    · rw [h]
      refine Still.stepped ⟨hsigns.now_le, hsigns.waits, hsigns.nonces, hsigns.adb, ?_⟩
      intro pub hin
      exact hsigns.approved pub ((approved_def ..).mpr (mem_revoke ((approved_def ..).mp hin)))
  | signed r persist => exact (Still.signs C s r persist).stepped
  | network netKey => exact { hstill with }
  | tick ms => exact { hstill with now_le := by show s.now ≤ s.now + ms; omega }
  | expiry => exact hexpires.stepped

end Page

end Hassmic.Web
