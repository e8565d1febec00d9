import Hassmic.Arb.StateFile
import Hassmic.Lib.Runs
import Hassmic.Sendspin.Text

/-!
# The Music Assistant token and its address

The page gives the address of a Music Assistant server and a token for it; without a token, the
address may also be that of a host that played here.  Three threads read them: the session logs in
with the token, the image thread sends it along with a request for a picture, and the page sets both
anew.  Each reads under the lock, but host and token of a picture are read at a later moment than
the session's, and `gen`, which counts the changes, tells whether they still belong together.

`gen` has 32 bits.  A session that outlives `2 ^ 32` changes takes a new token for its own.

## Main definitions

* `target` — the host and the port of an address.
* `Conf`, `Conf.step` — address, token and the threads that use them, and what happens.
* `Conf.Sound` — every token sent goes to an address it was saved with.

## Main results

* `load_save` — what was saved is loaded again.
* `token_sound` — **a token goes only to the address it was given with**, in every run in which no
  session outlives `2 ^ 32` changes; and a change that fails leaves everything as it was.
* `token_astray` — with `2 ^ 32` changes behind its back, a session sends a new token to the old
  host.
-/

namespace Hassmic.Mass

open Byte List
open Sendspin (txt)

/-! ### Addresses -/

/-- A string of fewer than `n` characters, none of which ends a line or a string. -/
def Line (n : ℕ) := { l : Bytes // l.length < n ∧ ∀ c ∈ l, c ≠ lf ∧ c ≠ cr ∧ c ≠ nul }

/-- What stands behind the first `://`, none without one. -/
def behindScheme : Bytes → Option Bytes
  | [] => none
  | c :: l => if txt "://" <+: c :: l then some (l.drop 2) else behindScheme l

/-- `atoi`. -/
def atoi (l : Bytes) : ℤ := ((Text.signed l).map Prod.fst).getD 0

/-- The port behind a host. -/
def portOf : Bytes → ℤ
  | 0x3a :: l => atoi l
  | _ => 8095

/-- Addresses that ask for TLS. -/
def secure (u : Bytes) : Bool := txt "https://" <+: u || txt "wss://" <+: u

/-- The host and the port of an address; a host of 200 characters or more is cut. -/
def hostPort (u : Bytes) : Option (Bytes × ℤ) :=
  if u = [] ∨ secure u then none
  else
    match (behindScheme u).getD u with
    | 0x5b :: l =>
        if rbracket ∈ l then
          some ((l.takeWhile (· ≠ rbracket)).take 199, portOf ((l.dropWhile (· ≠ rbracket)).drop 1))
        else none
    | s =>
        let h := (s.takeWhile fun c => c ≠ colon ∧ c ≠ slash).take 199
        let p := portOf (s.dropWhile fun c => c ≠ colon ∧ c ≠ slash)
        if h ≠ [] ∧ 0 < p then some (h, p) else none

/-! ### The file -/

/-- `save`. -/
def saveText (url token : Bytes) : Bytes :=
  (txt "url=" ++ url ++ [lf]) ++ (txt "token=" ++ token ++ [lf])

/-- One line of `load`: address and token as they are then. -/
def loadLine (c : Bytes × Bytes) (line : Bytes) : Bytes × Bytes :=
  let line := line.takeWhile fun c => c ≠ cr ∧ c ≠ lf
  if txt "url=" <+: line then ((line.drop 4).take 255, c.2)
  else if txt "token=" <+: line then (c.1, (line.drop 6).take 2047)
  else c

/-- `load`, over at most `k` lines. -/
def loadLoop : ℕ → Bytes × Bytes → Bytes → Bytes × Bytes
  | 0, c, _ => c
  | _ + 1, c, [] => c
  | k + 1, c, a :: l =>
      loadLoop k (loadLine c (Arb.St.fgets 2199 (a :: l)).1) (Arb.St.fgets 2199 (a :: l)).2

/-- `load`. -/
def load (c : Bytes × Bytes) (text : Bytes) : Bytes × Bytes := loadLoop text.length c text

/-! ### The threads -/

/-- Where the session's thread stands. -/
inductive Main
  /-- Before `mass_start`. -/
  | off
  /-- At the head of `thread_main`. -/
  | top
  /-- In `wait_change`, for ever or for a time. -/
  | waits (seen : UInt32) (timed : Bool)
  /-- Before the lock of `session`. -/
  | enters (seen : UInt32)
  /-- Before `ws_connect`; with the server's info to come; with the login's answer to come. -/
  | connects (seen : UInt32) (h : Bytes) (p : ℤ) (tok : Bytes)
  | info (seen : UInt32) (h : Bytes) (p : ℤ) (tok : Bytes)
  | login (seen : UInt32)
  /-- Logged in, before its lock; in its loop; behind it, before its lock. -/
  | welcome (seen : UInt32)
  | up (seen : UInt32)
  | over (seen : UInt32)
  deriving DecidableEq

/-- A message or a request, with the token it carries. -/
structure Sent where
  host : Bytes
  port : ℤ
  token : Bytes

/-- The state of `mass.c`, as far as address and token go.  The last three are kept for the
statements only: address and token at each save, what was sent, and the changes since the session's
thread last looked at `gen`. -/
structure Conf where
  url : Bytes := []
  token : Bytes := []
  peer : Bytes := []
  gen : UInt32 := 0
  stopped : Bool := false
  host : Bytes := []
  port : ℤ := 0
  isUp : Bool := false
  upGen : UInt32 := 0
  main : Main := .off
  /-- The image thread between its lock and its request. -/
  image : Option Sent := none
  /-- The file `mass`. -/
  file : Option Bytes := none
  saved : List (Bytes × Bytes) := []
  sent : List Sent := []
  changes : ℕ := 0

/-- What happens.  What a call of the session's thread brings is an argument: whether the connection
came about, the server's schema, the answer to the login, a message or the end. -/
inductive Ev
  /-- `mass_start` and the end of the process. -/
  | start
  | dies
  | set (u : Line 256) (t : Option (Line 2048)) (saves : Bool)
  | peer (ip : Bytes)
  | stop
  /-- A step of the session's thread that waits for nothing but the lock. -/
  | runs
  | timeout
  | connected (ok : Bool)
  | info (schema : Option ℤ)
  | answer (good : Option Bool)
  | receives (more : Bool)
  /-- The image thread takes a request, for a picture it knows or not; and sends it. -/
  | image (known : Bool)
  | fetch (ok : Bool)

namespace Conf

variable (s : Conf)

/-- `target`. -/
def target : Option (Bytes × ℤ) :=
  hostPort (if s.stopped then [] else if s.url ≠ [] then s.url
    else if s.token ≠ [] then [] else s.peer)

/-- A new `gen`. -/
def changed : Conf := { s with gen := s.gen + 1, changes := s.changes + 1 }

/-- Whether the page forgets the token, or gives one. -/
def forgets (t : Option (Line 2048)) : Bool := t.map Subtype.val = some (txt "-")

def gives (t : Option (Line 2048)) : Bool := t.any fun t => t.1 ≠ []

/-- Whether there is a token afterwards, and which. -/
def keeps (t : Option (Line 2048)) : Bool := !forgets t && (gives t || s.token ≠ [])

def newToken (t : Option (Line 2048)) : Bytes :=
  if forgets t then []
  else
    match t with
    | some t => if t.1 ≠ [] then t.1 else s.token
    | none => s.token

/-- What `mass_set` refuses: a token and no address, a token kept for another address, TLS. -/
def refuses (u : Line 256) (t : Option (Line 2048)) : Option ℤ :=
  if s.keeps t ∧ u.1 = [] then some (-2)
  else if s.keeps t ∧ gives t = false ∧ u.1 ≠ s.url then some (-3)
  else if secure u.1 then some (-4)
  else none

/-- `mass_set`, with its result. -/
def massSet (u : Line 256) (t : Option (Line 2048)) (saves : Bool) : Conf × ℤ :=
  match s.refuses u t with
  | some e => (s, e)
  | none =>
      let s' := { s with url := u.1, token := s.newToken t }
      if saves then
        (changed
          { s' with
            file := some (saveText s'.url s'.token)
            saved := (s'.url, s'.token) :: s'.saved }, 0)
      else ({ s' with url := s.url, token := s.token }, -1)

/-- `mass_peer`. -/
def massPeer (ip : Bytes) : Conf :=
  if ip ≠ [] ∧ ip ≠ s.peer then
    let s' := { s with peer := ip.take 63 }
    if s.url = [] then s'.changed else s'
  else s

/-- `mass_stop`. -/
def massStop : Conf := { s with stopped := true }.changed

/-- Address and token behind `load`. -/
def loaded : Bytes × Bytes :=
  match s.file with
  | some text => load (s.url, s.token) text
  | none => (s.url, s.token)

/-- `mass_start`. -/
def massStart : Conf :=
  if s.main = .off then { s with url := s.loaded.1, token := s.loaded.2, main := .top } else s

/-- The head of `thread_main`. -/
def threadMain : Conf :=
  { s with changes := 0, main := if s.target.isSome then .enters s.gen else .waits s.gen false }

/-- The lock of `session`. -/
def session (seen : UInt32) : Conf :=
  match s.target with
  | none => { s with main := .waits seen true }
  | some (h, p) => { s with host := h, port := p, main := .connects seen h p s.token }

/-- The server's info: from schema 28 on a login with the token. -/
def onInfo (seen : UInt32) (h : Bytes) (p : ℤ) (tok : Bytes) : Option ℤ → Conf
  | none => { s with main := .waits seen true }
  | some schema =>
      if schema < 28 then { s with main := .welcome seen }
      else if tok = [] then { s with main := .waits seen false }
      else { s with sent := ⟨h, p, tok⟩ :: s.sent, main := .login seen }

/-- A step of the session's thread that waits for nothing but the lock. -/
def runs : Conf :=
  match s.main with
  | .top => s.threadMain
  | .waits seen _ => if s.gen ≠ seen then { s with main := .top } else s
  | .enters seen => s.session seen
  | .welcome seen => { s with isUp := true, upGen := seen, main := .up seen }
  | .over seen => { s with isUp := false, main := .waits seen true }
  | _ => s

/-- What the session's thread waited for. -/
def hears : Ev → Conf
  | .timeout =>
      match s.main with
      | .waits _ true => { s with main := .top }
      | _ => s
  | .connected ok =>
      match s.main with
      | .connects seen h p tok =>
          if ok then { s with main := .info seen h p tok } else { s with main := .waits seen true }
      | _ => s
  | .info schema =>
      match s.main with
      | .info seen h p tok => s.onInfo seen h p tok schema
      | _ => s
  | .answer good =>
      match s.main with
      | .login seen =>
          if good = some true then { s with main := .welcome seen }
          else { s with main := .waits seen true }
      | _ => s
  | .receives more =>
      match s.main with
      | .up seen => if more ∧ s.gen = seen then s else { s with main := .over seen }
      | _ => s
  | _ => s

/-- The lock of `image_thread`. -/
def imageThread (known : Bool) : Conf :=
  if s.image.isSome then s
  else if s.isUp ∧ s.upGen = s.gen ∧ known then { s with image := some ⟨s.host, s.port, s.token⟩ }
  else s

/-- Its request. -/
def fetch (ok : Bool) : Conf :=
  match s.image with
  | none => s
  | some m => { s with image := none, sent := if ok then m :: s.sent else s.sent }

/-- One step. -/
def step : Ev → Conf
  | .start => s.massStart
  | .dies => { file := s.file, saved := s.saved, sent := s.sent }
  | .set u t saves => (s.massSet u t saves).1
  | .peer ip => s.massPeer ip
  | .stop => s.massStop
  | .runs => s.runs
  | .image known => s.imageThread known
  | .fetch ok => s.fetch ok
  | e => s.hears e

/-- A run, from an Echo that never had a token. -/
def run (l : List Ev) : Conf := l.foldl step {}

/-- A message goes to an address its token was saved with, if it carries one. -/
def Goes (m : Sent) : Prop :=
  m.token ≠ [] → ∃ u, (u, m.token) ∈ s.saved ∧ hostPort u = some (m.host, m.port)

/-- Every token that was sent went to an address it was saved with. -/
def Sound : Prop := ∀ m ∈ s.sent, s.Goes m

/-- No session outlives `2 ^ 32` changes. -/
def Brief : Ev → Prop
  | .image _ => s.isUp = true → s.changes < 2 ^ 32
  | _ => True

end Conf

/-! ### What was saved is loaded again -/

theorem loadLoop_line {l : Bytes} (hlf : ∀ c ∈ l, c ≠ lf) (hlen : l.length < 2199) (rest : Bytes)
    (k : ℕ) (c : Bytes × Bytes) :
    loadLoop (k + 1) c (l ++ lf :: rest) = loadLoop k (loadLine c (l ++ [lf])) rest := by
  have hget := Arb.St.fgets_line hlf rest hlen
  cases l with
  | nil =>
    rw [nil_append] at hget ⊢
    rw [loadLoop, hget]
  | cons a l =>
    rw [cons_append] at hget ⊢
    rw [loadLoop, hget]

/-- A line is read up to its end. -/
theorem takeWhile_line {l : Bytes} (h : ∀ c ∈ l, c ≠ lf ∧ c ≠ cr ∧ c ≠ nul) :
    (l ++ [lf]).takeWhile (fun c => c ≠ cr ∧ c ≠ lf) = l := by
  rw [takeWhile_append_of_pos fun c hc => decide_eq_true ⟨(h c hc).2.1, (h c hc).1⟩]
  simp

theorem plain_append {l m : Bytes} (hl : ∀ c ∈ l, c ≠ lf ∧ c ≠ cr ∧ c ≠ nul)
    (hm : ∀ c ∈ m, c ≠ lf ∧ c ≠ cr ∧ c ≠ nul) : ∀ c ∈ l ++ m, c ≠ lf ∧ c ≠ cr ∧ c ≠ nul := by
  intro c hc
  rcases mem_append.mp hc with h | h
  · exact hl c h
  · exact hm c h

theorem plain_words :
    (∀ c ∈ txt "url=", c ≠ lf ∧ c ≠ cr ∧ c ≠ nul) ∧ ∀ c ∈ txt "token=", c ≠ lf ∧
    c ≠ cr ∧ c ≠ nul := by
  decide +kernel

theorem loadLine_url (u : Line 256) (c : Bytes × Bytes) :
    loadLine c (txt "url=" ++ u.1 ++ [lf]) = (u.1, c.2) := by
  have hplain := plain_append plain_words.1 u.2.2
  rw [loadLine, takeWhile_line hplain, if_pos (prefix_append _ _)]
  have hdrop : (txt "url=" ++ u.1).drop 4 = u.1 := drop_left' rfl
  rw [hdrop, take_of_length_le (Nat.le_of_lt_succ u.2.1)]

theorem loadLine_token (t : Line 2048) (c : Bytes × Bytes) :
    loadLine c (txt "token=" ++ t.1 ++ [lf]) = (c.1, t.1) := by
  have hplain := plain_append plain_words.2 t.2.2
  have hurl : ¬ txt "url=" <+: txt "token=" ++ t.1 := by
    rintro ⟨l, hl⟩
    have hhead := congrArg List.head? hl
    simp [Sendspin.txt, Arb.ascii] at hhead
  rw [loadLine, takeWhile_line hplain, if_neg hurl, if_pos (prefix_append _ _)]
  have hdrop : (txt "token=" ++ t.1).drop 6 = t.1 := drop_left' rfl
  rw [hdrop, take_of_length_le (Nat.le_of_lt_succ t.2.1)]

/-- **What was saved is loaded again**, whatever was there before. -/
theorem load_save (u : Line 256) (t : Line 2048) (c : Bytes × Bytes) :
    load c (saveText u.1 t.1) = (u.1, t.1) := by
  have hurl : ∀ a ∈ txt "url=" ++ u.1, a ≠ lf := fun a ha =>
    (plain_append plain_words.1 u.2.2 a ha).1
  have htoken : ∀ a ∈ txt "token=" ++ t.1, a ≠ lf := fun a ha =>
    (plain_append plain_words.2 t.2.2 a ha).1
  have hulen := u.2.1
  have htlen := t.2.1
  have hlen : (saveText u.1 t.1).length = u.1.length + t.1.length + 10 + 1 + 1 := by
    simp [saveText, Sendspin.txt, Arb.ascii]
    omega
  rw [load, hlen, saveText, append_assoc (txt "url=" ++ u.1), singleton_append,
    loadLoop_line hurl (by simp [Sendspin.txt, Arb.ascii]; omega), loadLine_url,
    loadLoop_line htoken (by simp [Sendspin.txt, Arb.ascii]; omega), loadLine_token]
  cases u.1.length + t.1.length + 10 <;> rfl

/-! ### Host and token belong together -/

namespace Conf

variable {s : Conf}

/-- The generation a session runs for, and the token as long as nothing changed since. -/
def Bound (s : Conf) (seen : UInt32) : Prop :=
  s.gen = seen + UInt32.ofNat s.changes ∧ (s.changes = 0 → s.Goes ⟨s.host, s.port, s.token⟩)

/-- What holds by where the session's thread stands. -/
def Place (s : Conf) : Prop :=
  match s.main with
  | .enters seen => s.gen = seen + UInt32.ofNat s.changes ∧ s.isUp = false
  | .connects seen h p tok => s.Bound seen ∧ s.Goes ⟨h, p, tok⟩ ∧ s.isUp = false
  | .info seen h p tok => s.Bound seen ∧ s.Goes ⟨h, p, tok⟩ ∧ s.isUp = false
  | .login seen => s.Bound seen ∧ s.isUp = false
  | .welcome seen => s.Bound seen ∧ s.isUp = false
  | .up seen => s.Bound seen ∧ s.upGen = seen
  | .over seen => s.Bound seen ∧ s.upGen = seen
  | _ => s.isUp = false

/-- What holds in every state. -/
structure Held (s : Conf) : Prop where
  url : ∃ u : Line 256, u.1 = s.url
  token : ∃ t : Line 2048, t.1 = s.token
  pair : s.token ≠ [] → (s.url, s.token) ∈ s.saved
  file : ∀ text ∈ s.file, ∃ (u : Line 256) (t : Line 2048),
    text = saveText u.1 t.1 ∧ (t.1 ≠ [] → (u.1, t.1) ∈ s.saved)
  sent : s.Sound
  image : ∀ m ∈ s.image, s.Goes m
  place : s.Place

/-- Where a message may go, it may go after another save. -/
theorem Goes.mono {t : Conf} {m : Sent} (h : s.Goes m) (hsub : s.saved ⊆ t.saved) : t.Goes m := by
  intro hm
  obtain ⟨u, hu, hp⟩ := h hm
  exact ⟨u, hsub hu, hp⟩

/-- A target belongs to the token. -/
theorem goes_target (hpair : s.token ≠ [] → (s.url, s.token) ∈ s.saved) {h : Bytes} {p : ℤ}
    (ht : s.target = some (h, p)) : s.Goes ⟨h, p, s.token⟩ := by
  intro htok
  refine ⟨s.url, hpair htok, ?_⟩
  have hempty : hostPort [] = none := by simp [hostPort]
  unfold target at ht
  -- only the page's own address is a target where there is a token
  split at ht
  · exact nomatch hempty.symm.trans ht
  · split at ht
    · exact ht
    · exact nomatch hempty.symm.trans ht

/-- The address, the token, and what is made of them. -/
def kept (s : Conf) := (s.url, s.token, s.saved, s.file, s.sent, s.image)

/-- Changes that leave address, token and the threads alone. -/
theorem Held.frame (h : s.Held) {t : Conf} (ht : t.kept = s.kept) (hplace : t.Place) : t.Held := by
  simp only [kept, Prod.mk.injEq] at ht
  obtain ⟨hurl, htoken, hsaved, hfile, hsent, himage⟩ := ht
  refine ⟨hurl ▸ h.url, htoken ▸ h.token, ?_, ?_, fun m hm => ?_, fun m hm => ?_, hplace⟩
  · rw [hurl, htoken, hsaved]
    exact h.pair
  · rw [hfile, hsaved]
    exact h.file
  · rw [hsent] at hm
    exact (h.sent m hm).mono (by rw [hsaved]; exact Subset.refl _)
  · rw [himage] at hm
    exact (h.image m hm).mono (by rw [hsaved]; exact Subset.refl _)

/-- One more change. -/
theorem ofNat_succ (g : UInt32) (n : ℕ) : g + UInt32.ofNat n + 1 = g + UInt32.ofNat (n + 1) := by
  rw [UInt32.ofNat_add, UInt32.add_assoc]
  rfl

/-- A change leaves no token for the session's host. -/
theorem Bound.changed {t : Conf} {seen : UInt32} (h : s.Bound seen) (hgen : t.gen = s.gen + 1)
    (hch : t.changes = s.changes + 1) : t.Bound seen := by
  refine ⟨?_, ?_⟩
  · rw [hgen, hch, h.1, ofNat_succ]
  · intro hzero
    omega

/-- The threads stand where they stood after a change. -/
theorem Place.changed {t : Conf} (h : s.Place) (hgen : t.gen = s.gen + 1)
    (hch : t.changes = s.changes + 1) (hmain : t.main = s.main) (hup : t.isUp = s.isUp)
    (hupGen : t.upGen = s.upGen) (hsub : s.saved ⊆ t.saved) : t.Place := by
  unfold Place at h ⊢
  rw [hmain, hup, hupGen]
  split
  case h_1 seen hm =>
    rw [hm] at h
    exact ⟨by rw [hgen, hch, h.1, ofNat_succ], h.2⟩
  case h_2 seen host p tok hm =>
    rw [hm] at h
    exact ⟨h.1.changed hgen hch, h.2.1.mono hsub, h.2.2⟩
  case h_3 seen host p tok hm =>
    rw [hm] at h
    exact ⟨h.1.changed hgen hch, h.2.1.mono hsub, h.2.2⟩
  case h_4 seen hm =>
    rw [hm] at h
    exact ⟨h.1.changed hgen hch, h.2⟩
  case h_5 seen hm =>
    rw [hm] at h
    exact ⟨h.1.changed hgen hch, h.2⟩
  case h_6 seen hm =>
    rw [hm] at h
    exact ⟨h.1.changed hgen hch, h.2⟩
  case h_7 seen hm =>
    rw [hm] at h
    exact ⟨h.1.changed hgen hch, h.2⟩
  case h_8 h₁ h₂ h₃ h₄ h₅ h₆ h₇ => simpa [h₁, h₂, h₃, h₄, h₅, h₆, h₇] using h

/-! ### One step -/

theorem newToken_line (h : ∃ t : Line 2048, t.1 = s.token) (t : Option (Line 2048)) :
    ∃ t' : Line 2048, t'.1 = s.newToken t := by
  unfold newToken
  split
  · exact ⟨⟨[], by simp⟩, rfl⟩
  · split
    · split
      · exact ⟨_, rfl⟩
      · exact h
    · exact h

theorem refuses_ne_zero {u : Line 256} {t : Option (Line 2048)} {e : ℤ}
    (h : s.refuses u t = some e) :
    e ≠ 0 := by
  unfold refuses at h
  rintro rfl
  split at h
  · simp at h
  · split at h
    · simp at h
    · split at h <;> simp at h

/-- `mass_set` as a whole: it fails and changes nothing, or saves address and token together. -/
theorem massSet_cases (s : Conf) (u : Line 256) (t : Option (Line 2048)) (saves : Bool) :
    ((s.massSet u t saves).1 = s ∧ (s.massSet u t saves).2 ≠ 0) ∨
      s.massSet u t saves =
        (changed
          { s with
            url := u.1
            token := s.newToken t
            file := some (saveText u.1 (s.newToken t))
            saved := (u.1, s.newToken t) :: s.saved }, 0) := by
  unfold massSet
  split
  case h_1 e he => exact .inl ⟨rfl, refuses_ne_zero he⟩
  case h_2 =>
    cases saves with
    | false => exact .inl ⟨rfl, by simp⟩
    | true => exact .inr rfl

theorem Held.massSet (h : s.Held) (u : Line 256) (t : Option (Line 2048)) (saves : Bool) :
    (s.massSet u t saves).1.Held := by
  rcases massSet_cases s u t saves with ⟨heq, -⟩ | heq
  · rw [heq]
    exact h
  · rw [heq]
    obtain ⟨t', ht'⟩ := newToken_line h.token t
    have hsub : s.saved ⊆ (u.1, s.newToken t) :: s.saved := subset_cons_self _ _
    refine ⟨⟨u, rfl⟩, ⟨t', ht'⟩, fun _ => mem_cons_self, ?_, ?_, ?_, ?_⟩
    · intro text htext
      obtain rfl := Option.mem_some.mp htext
      exact ⟨u, t', by rw [ht'], fun _ => by rw [ht']; exact mem_cons_self⟩
    · exact fun m hm => (h.sent m hm).mono hsub
    · exact fun m hm => (h.image m hm).mono hsub
    · exact h.place.changed rfl rfl rfl rfl rfl hsub

theorem Held.massPeer (h : s.Held) (ip : Bytes) : (s.massPeer ip).Held := by
  unfold Conf.massPeer
  split
  · dsimp only
    split
    · exact h.frame rfl (h.place.changed rfl rfl rfl rfl rfl (Subset.refl _))
    · exact h.frame rfl h.place
  · exact h

theorem Held.massStop (h : s.Held) : s.massStop.Held :=
  h.frame rfl (h.place.changed rfl rfl rfl rfl rfl (Subset.refl _))

/-- A process starts with what was saved last. -/
theorem Held.massStart (h : s.Held) : s.massStart.Held := by
  unfold Conf.massStart
  split
  case isFalse => exact h
  case isTrue hoff =>
    have hdown : s.isUp = false := by simpa [Place, hoff] using h.place
    rcases Option.eq_none_or_eq_some s.file with hfile | ⟨text, hfile⟩
    · have hload : s.loaded = (s.url, s.token) := by rw [loaded, hfile]
      refine h.frame ?_ hdown
      rw [hload]
      rfl
    · obtain ⟨u, t, rfl, hsaved⟩ := h.file text hfile
      have hload : s.loaded = (u.1, t.1) := by
        rw [loaded, hfile]
        exact load_save u t _
      rw [hload]
      exact ⟨⟨u, rfl⟩, ⟨t, rfl⟩, hsaved, h.file, h.sent, h.image, hdown⟩

/-- The session takes host and token under one lock. -/
theorem Held.session (h : s.Held) {seen : UInt32} (hm : s.main = .enters seen) :
    (s.session seen).Held := by
  have hplace := h.place
  unfold Place at hplace
  rw [hm] at hplace
  unfold Conf.session
  split
  case h_1 => exact h.frame rfl hplace.2
  case h_2 host p ht =>
    have hgoes : s.Goes ⟨host, p, s.token⟩ := goes_target h.pair ht
    exact h.frame rfl ⟨⟨hplace.1, fun _ => hgoes⟩, hgoes, hplace.2⟩

theorem Held.runs (h : s.Held) : s.runs.Held := by
  have hplace := h.place
  unfold Place at hplace
  unfold Conf.runs
  split
  case h_1 hm =>
    rw [hm] at hplace
    refine h.frame rfl ?_
    unfold Place threadMain
    cases s.target with
    | none => exact hplace
    | some q => exact ⟨by simp, hplace⟩
  case h_2 seen timed hm =>
    rw [hm] at hplace
    split
    · exact h.frame rfl hplace
    · exact h
  case h_3 seen hm => exact h.session hm
  case h_4 seen hm =>
    rw [hm] at hplace
    exact h.frame rfl ⟨hplace.1, rfl⟩
  case h_5 seen hm => exact h.frame rfl rfl
  case h_6 => exact h

/-- The login sends the token to the host that was taken with it. -/
theorem Held.onInfo (h : s.Held) {seen : UInt32} {host : Bytes} {p : ℤ} {tok : Bytes}
    (hplace : s.Bound seen ∧ s.Goes ⟨host, p, tok⟩ ∧ s.isUp = false) (schema : Option ℤ) :
    (s.onInfo seen host p tok schema).Held := by
  unfold Conf.onInfo
  split
  · exact h.frame rfl hplace.2.2
  · split
    · exact h.frame rfl ⟨hplace.1, hplace.2.2⟩
    · split
      · exact h.frame rfl hplace.2.2
      · refine { h with sent := ?_, place := ⟨hplace.1, hplace.2.2⟩ }
        intro m hm
        rcases mem_cons.mp hm with rfl | hm
        · exact hplace.2.1
        · exact h.sent m hm

theorem Held.hears (h : s.Held) (e : Ev) : (s.hears e).Held := by
  have hplace := h.place
  unfold Place at hplace
  cases e with
  | timeout =>
    simp only [Conf.hears]
    split
    case h_1 seen hm =>
      rw [hm] at hplace
      exact h.frame rfl hplace
    case h_2 => exact h
  | connected ok =>
    simp only [Conf.hears]
    split
    case h_1 seen host p tok hm =>
      rw [hm] at hplace
      split
      · exact h.frame rfl hplace
      · exact h.frame rfl hplace.2.2
    case h_2 => exact h
  | info schema =>
    simp only [Conf.hears]
    split
    case h_1 seen host p tok hm =>
      rw [hm] at hplace
      exact h.onInfo hplace schema
    case h_2 => exact h
  | answer good =>
    simp only [Conf.hears]
    split
    case h_1 seen hm =>
      rw [hm] at hplace
      split
      · exact h.frame rfl hplace
      · exact h.frame rfl hplace.2
    case h_2 => exact h
  | receives more =>
    simp only [Conf.hears]
    split
    case h_1 seen hm =>
      rw [hm] at hplace
      split
      · exact h
      · exact h.frame rfl hplace
    case h_2 => exact h
  | _ => exact h

/-- A session that is up has the token of its own host, as long as it did not see `2 ^ 32`
changes. -/
theorem Held.goes_up (h : s.Held) (hup : s.isUp = true) (hgen : s.upGen = s.gen)
    (hbrief : s.changes < 2 ^ 32) : s.Goes ⟨s.host, s.port, s.token⟩ := by
  have hbound : s.Bound s.upGen := by
    have hplace := h.place
    unfold Place at hplace
    split at hplace
    case h_6 => exact hplace.2 ▸ hplace.1
    case h_7 => exact hplace.2 ▸ hplace.1
    all_goals simp [hup] at hplace
  refine hbound.2 ?_
  have hzero : UInt32.ofNat s.changes = 0 := by
    have heq := hbound.1
    rw [← hgen] at heq
    exact (UInt32.add_eq_left).mp heq.symm
  have hnat := congrArg UInt32.toNat hzero
  rw [UInt32.toNat_ofNat_of_lt' hbrief] at hnat
  exact hnat

theorem Held.imageThread (h : s.Held) {known : Bool} (hbrief : s.Brief (.image known)) :
    (s.imageThread known).Held := by
  unfold Conf.imageThread
  split
  · exact h
  · split
    case isTrue hok =>
      refine { h with image := ?_ }
      intro m hm
      obtain rfl := Option.mem_some.mp hm
      exact h.goes_up hok.1 hok.2.1 (hbrief hok.1)
    case isFalse => exact h

theorem Held.fetch (h : s.Held) (ok : Bool) : (s.fetch ok).Held := by
  unfold Conf.fetch
  split
  case h_1 => exact h
  case h_2 m hm =>
    refine { h with sent := ?_, image := nofun }
    intro n hn
    dsimp only at hn
    split at hn
    · rcases mem_cons.mp hn with rfl | hn
      · exact h.image n hm
      · exact h.sent n hn
    · exact h.sent n hn

theorem Held.step (h : s.Held) {e : Ev} (hbrief : s.Brief e) : (s.step e).Held := by
  cases e with
  | start => exact h.massStart
  | dies =>
    exact ⟨⟨⟨[], by simp⟩, rfl⟩, ⟨⟨[], by simp⟩, rfl⟩, by simp [Conf.step], h.file,
      h.sent, nofun, rfl⟩
  | set u t saves => exact h.massSet u t saves
  | peer ip => exact h.massPeer ip
  | stop => exact h.massStop
  | runs => exact h.runs
  | timeout => exact h.hears (.timeout)
  | connected ok => exact h.hears (.connected ok)
  | info schema => exact h.hears (.info schema)
  | answer good => exact h.hears (.answer good)
  | receives more => exact h.hears (.receives more)
  | image known => exact h.imageThread hbrief
  | fetch ok => exact h.fetch ok

theorem held_init : ({} : Conf).Held :=
  ⟨⟨⟨[], by simp⟩, rfl⟩, ⟨⟨[], by simp⟩, rfl⟩, by simp, nofun, nofun, nofun, rfl⟩

end Conf

open Conf

/-- **A token goes only to the address it was given with**, in every run in which no session that is
up sees `2 ^ 32` changes before a picture is asked for; and **a `mass_set` that fails leaves
everything as it was**. -/
theorem token_sound :
    (∀ l : List Ev, Runs.Each step Brief {} l → (run l).Sound) ∧
      ∀ (s : Conf) (u : Line 256) (t : Option (Line 2048)) (saves : Bool),
        (s.massSet u t saves).2 ≠ 0 → (s.massSet u t saves).1 = s := by
  refine ⟨fun l hl => ?_, fun s u t saves hrc => ?_⟩
  · exact (Runs.invariant (I := Held) (fun _ _ h hbrief => h.step hbrief) held_init hl).sent
  · rcases massSet_cases s u t saves with ⟨heq, -⟩ | heq
    · exact heq
    · rw [heq] at hrc
      exact absurd rfl hrc

/-! ### A session that outlives its generation -/

/-- Two servers, with a token each. -/
def firstUrl : Line 256 := ⟨txt "10.0.0.1", by decide +kernel⟩
def secondUrl : Line 256 := ⟨txt "10.0.0.2", by decide +kernel⟩
def firstToken : Line 2048 := ⟨txt "T1", by decide +kernel⟩
def secondToken : Line 2048 := ⟨txt "T2", by decide +kernel⟩

/-- A session with the first. -/
def firstSession : List Ev :=
  [.start, .set firstUrl (some firstToken) true, .runs, .runs, .connected true, .info (some 28),
    .answer (some true), .runs]

/-- The condition holds of a session and a picture. -/
theorem token_sound_picture :
    Runs.Each step Brief {} (firstSession ++ [.image true, .fetch true]) ∧
      (run (firstSession ++ [.image true, .fetch true])).Sound := by
  have h : Runs.Each step Brief {} (firstSession ++ [.image true, .fetch true]) := by
    simp only [firstSession, cons_append, nil_append, Runs.Each, Brief]
    decide
  exact ⟨h, token_sound.1 _ h⟩

/-- The page goes over to the second. -/
def change : Ev := .set secondUrl (some secondToken) true

theorem step_change (s : Conf) :
    s.step change =
      changed
        { s with
          url := secondUrl.1
          token := secondToken.1
          file := some (saveText secondUrl.1 secondToken.1)
          saved := (secondUrl.1, secondToken.1) :: s.saved } := by
  have hfacts : secondUrl.1 ≠ [] ∧ secondToken.1 ≠ [] ∧ gives (some secondToken) = true ∧
      forgets (some secondToken) = false ∧ secure secondUrl.1 = false := by decide
  obtain ⟨hurl, htoken, hgives, hforgets, hsecure⟩ := hfacts
  have hrefuses : s.refuses secondUrl (some secondToken) = none := by
    simp [refuses, hurl, hgives, hsecure]
  have hnew : s.newToken (some secondToken) = secondToken.1 := by
    simp [newToken, hforgets, htoken]
  simp [step, change, massSet, hrefuses, hnew]

/-- What a number of such changes leaves alone, and what it sets. -/
structure Behind (s t : Conf) (n : ℕ) : Prop where
  gen : t.gen = s.gen + UInt32.ofNat n
  isUp : t.isUp = s.isUp
  upGen : t.upGen = s.upGen
  host : t.host = s.host
  port : t.port = s.port
  image : t.image = s.image
  sent : t.sent = s.sent
  token : 0 < n → t.token = secondToken.1
  saved : ∀ x ∈ t.saved, x ∈ s.saved ∨ x = (secondUrl.1, secondToken.1)

theorem behind_replicate (s : Conf) (n : ℕ) :
    Behind s ((replicate n change).foldl step s) n := by
  induction n with
  | zero => exact ⟨by simp, rfl, rfl, rfl, rfl, rfl, rfl, nofun, fun x hx => .inl hx⟩
  | succ n ih =>
    rw [replicate_succ', foldl_append, foldl_cons, foldl_nil, step_change]
    refine { ih with gen := ?_, token := fun _ => rfl, saved := ?_ }
    · exact (congrArg (· + 1) ih.gen).trans (ofNat_succ s.gen n)
    · intro x hx
      rcases mem_cons.mp hx with rfl | hx
      · exact .inr rfl
      · exact ih.saved x hx

/-- A picture that is asked for while the generations agree goes out with the token. -/
theorem fetch_image {s : Conf} (hup : s.isUp = true) (hgen : s.upGen = s.gen)
    (himage : s.image = none) :
    (s.step (.image true)).step (.fetch true) =
      { s with sent := ⟨s.host, s.port, s.token⟩ :: s.sent } := by
  simp [step, imageThread, fetch, hup, hgen, himage]

/-- The first session, as a picture finds it. -/
theorem firstSession_up :
    (run firstSession).isUp = true ∧ (run firstSession).upGen = (run firstSession).gen ∧
      (run firstSession).image = none ∧
      hostPort secondUrl.1 ≠ some ((run firstSession).host, (run firstSession).port) ∧
      (run firstSession).saved = [(firstUrl.1, firstToken.1)] ∧
      secondToken.1 ≠ [] ∧ secondToken.1 ≠ firstToken.1 := by decide

/-- The second server's token goes to the first, once the generation has come round again. -/
theorem astray_of_round {n : ℕ} (hpos : 0 < n) (hround : UInt32.ofNat n = 0) :
    ¬ (run (firstSession ++ (replicate n change ++ [.image true, .fetch true]))).Sound := by
  obtain ⟨hup, hgen, himage, hhost, hsaved, hne, hdiff⟩ := firstSession_up
  have hbehind := behind_replicate (run firstSession) n
  have hrun : run (firstSession ++ (replicate n change ++ [.image true, .fetch true])) =
      (((replicate n change).foldl step (run firstSession)).step (.image true)).step
        (.fetch true) := by
    rw [run, foldl_append, foldl_append]
    rfl
  rw [hrun]
  generalize (replicate n change).foldl step (run firstSession) = t at hbehind
  have hsame : t.upGen = t.gen := by
    rw [hbehind.upGen, hbehind.gen, hgen, hround, UInt32.add_zero]
  rw [fetch_image (hbehind.isUp.trans hup) hsame (hbehind.image.trans himage)]
  intro hsound
  have htoken := hbehind.token hpos
  obtain ⟨u, hu, hp⟩ := hsound _ mem_cons_self (by rw [htoken]; exact hne)
  simp only [hbehind.host, hbehind.port, htoken] at hp hu
  rcases hbehind.saved _ hu with hold | hnew
  · rw [hsaved, mem_singleton] at hold
    exact hdiff (Prod.ext_iff.mp hold).2
  · have hurl : u = secondUrl.1 := (Prod.ext_iff.mp hnew).1
    exact hhost (hurl ▸ hp)

/-- **A token sent to another host**: with `2 ^ 32` changes since it looked, the session's
generation has come round again. -/
theorem token_astray :
    ¬ (run (firstSession ++ (replicate (2 ^ 32) change ++ [.image true, .fetch true]))).Sound :=
  astray_of_round (by norm_num) (by decide)

end Hassmic.Mass
