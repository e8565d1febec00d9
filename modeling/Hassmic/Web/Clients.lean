import Hassmic.Lib.Runs
import Hassmic.Arb.StateFile

/-!
# Browsers of the settings page

A browser that was approved signs its requests, and each with a counter of its own.
They may overtake each other on the way, so the Echo keeps the last counters it took
and a floor below which none counts; only the highest is written to disk, with every
request that changes something.

## Main definitions

* `Client`, `ctrFresh`, `ctrTake` — the counters of a browser.
* `signedOk` — whether a request counts.
* `saveClients`, `loadClients` — the file of the approved browsers.
* `Daemon`, `Ev`, `Daemon.step` — the daemon, and what happens to it.

## Main results

* `loadClients_clientsText` — a start finds each browser with its highest counter.
-/

namespace Hassmic.Web

open Arb Byte Text List Option
open scoped Slots

abbrev maxClients : ℕ := 32
abbrev ctrWindow : ℕ := 64

/-- What a browser is called, as `char label[64]` holds it. -/
abbrev Label := {b : Bytes // b.length < 64 ∧ nul ∉ b}

/-- An approved browser. -/
structure Client where
  pub : Blob 32
  ctr : UInt64 := 0
  floor : UInt64 := 0
  seen : Fin ctrWindow → UInt64 := fun _ => 0
  nseen : ℕ := 0
  label : Label
  nseen_le : nseen ≤ ctrWindow := by decide

/-- `ctr_fresh`: above the floor and not among the last ones taken. -/
def ctrFresh (c : Client) (ctr : UInt64) : Bool :=
  decide (c.floor < ctr) &&
    !(finRange ctrWindow).any fun i => decide (i.1 < c.nseen) && c.seen i == ctr

/-- The first of the lowest counters in a full window. -/
def lowest (c : Client) : Fin ctrWindow := Slots.eldest fun i => ((c.seen i).toNat : ℤ)

/-- `ctr_take`: the lowest of a full window goes, and the floor rises to it. -/
def ctrTake (c : Client) (ctr : UInt64) : Client :=
  let c :=
    if h : c.nseen < ctrWindow then
      { c with
        seen := Function.update c.seen ⟨c.nseen, h⟩ ctr
        nseen := c.nseen + 1
        nseen_le := h }
    else
      { c with
        floor := if c.floor < c.seen (lowest c) then c.seen (lowest c) else c.floor
        seen := Function.update c.seen (lowest c) ctr }
  { c with ctr := if c.ctr < ctr then ctr else c.ctr }

/-! ### The file -/

/-- The line of a browser. -/
def clientLine (c : Client) : Bytes :=
  hex c.pub.1 ++ [space] ++ numeral 10 c.ctr.toNat ++ [space] ++ c.label.1 ++ [lf]

/-- What `save_clients` writes. -/
def clientsText (l : List Client) : Bytes := l.flatMap clientLine

/-- `unhex`: exactly the digits of `n` bytes. -/
def unhex (n : ℕ) (s : Bytes) : Option (Blob n) :=
  if h : s.length = 2 * n ∧ s.all (fun c => decide (value c < 16)) ∧ (St.unhex s).length = n then
    some ⟨St.unhex s, h.2.2⟩
  else none

/-- `%79s %llu %n`: a word, a number and what follows. -/
def scanClient (l : Bytes) : Option (Bytes × UInt64 × Bytes) :=
  let l := l.dropWhile isSpace
  let w := (l.takeWhile fun c => !isSpace c).take 79
  if w = [] then none
  else (unsigned 10 (l.drop w.length)).map fun r => (w, r.1, r.2.dropWhile isSpace)

/-- The first 63 characters of a text, up to a NUL. -/
def cLabel (l : Bytes) : Label :=
  ⟨(l.takeWhile (· ≠ nul)).take 63, by
    refine ⟨by rw [length_take]; omega, fun h => ?_⟩
    exact absurd (mem_takeWhile_imp (mem_of_mem_take h)) (by simp)⟩

/-- The characters of a line that `load_clients` reads. -/
def inLine (x : UInt8) : Bool := x ≠ nul && x ≠ cr && x ≠ lf

/-- What a line of the file says, if it is of a browser. -/
def readClient (line : Bytes) : Option Client := do
  let r ← scanClient (line.takeWhile inLine)
  let pub ← unhex 32 r.1
  some { pub := pub, ctr := r.2.1, floor := r.2.1, label := cLabel r.2.2 }

/-- The lines `fgets` gives into `char line[200]`, at most `k`. -/
def linesLoop : ℕ → Bytes → List Bytes
  | 0, _ => []
  | _ + 1, [] => []
  | k + 1, c :: l => (St.fgets 199 (c :: l)).1 :: linesLoop k (St.fgets 199 (c :: l)).2

/-- One line of the file, while there is room. -/
def loadLine (l : List Client) (line : Bytes) : List Client :=
  if l.length < maxClients then l ++ (readClient line).toList else l

/-- `load_clients`. -/
def loadClients (text : Bytes) : List Client := (linesLoop text.length text).foldl loadLine []

/-! ### Reading what was written -/

/-- The browser as a start finds it: its highest counter is the floor. -/
def reloaded (c : Client) : Client where
  pub := c.pub
  ctr := c.ctr
  floor := c.ctr
  label := cLabel ((c.label.1.takeWhile inLine).dropWhile isSpace)

theorem unhex_hex (l : Bytes) : St.unhex (hex l) = l := by
  induction l with
  | nil => rfl
  | cons c l ih =>
    have hc : c.toNat < 256 := c.toNat_lt
    have hbyte :
        (16 * value (digit (c.toNat / 16)) + value (digit (c.toNat % 16))).toUInt8 = c := by
      rw [value_digit _ (by omega), value_digit _ (by omega), Nat.div_add_mod]
      simp
    show (16 * value (digit (c.toNat / 16)) + value (digit (c.toNat % 16))).toUInt8 ::
      St.unhex (hex l) = c :: l
    rw [hbyte, ih]

theorem value_hex (l : Bytes) : ∀ c ∈ hex l, value c < 16 := by
  intro c hc
  obtain ⟨b, -, hb⟩ := mem_flatMap.mp hc
  have hlt : b.toNat < 256 := b.toNat_lt
  simp only [mem_cons, not_mem_nil, or_false] at hb
  rcases hb with rfl | rfl
  · rw [value_digit _ (by omega)]
    omega
  · rw [value_digit _ (by omega)]
    omega

theorem unhex_hex_blob {n : ℕ} (b : Blob n) : unhex n (hex b.1) = some b := by
  have hlen : (hex b.1).length = 2 * n := by rw [length_hex, b.2]
  have hval : (hex b.1).all (fun c => decide (value c < 16)) = true := by
    rw [List.all_eq_true]
    exact fun c hc => by simpa using value_hex b.1 c hc
  have hback : (St.unhex (hex b.1)).length = n := by rw [unhex_hex, b.2]
  rw [unhex, dif_pos ⟨hlen, hval, hback⟩]
  exact congrArg some (Subtype.ext (unhex_hex b.1))

/-- No hexadecimal digit ends a line or a word. -/
theorem digit_plain : ∀ {c : UInt8}, value c < 16 →
    inLine c = true ∧ c ≠ lf ∧ isSpace c = false := by
  decide +kernel

theorem readClient_eq (line : Bytes) : readClient line =
    (scanClient (line.takeWhile inLine)).bind fun r => (unhex 32 r.1).bind fun pub =>
      some { pub := pub, ctr := r.2.1, floor := r.2.1, label := cLabel r.2.2 } := rfl

/-- A key and a counter are scanned, and what follows them. -/
theorem scanClient_line (pub : Blob 32) (ctr : UInt64) (a : Bytes) :
    scanClient (hex pub.1 ++ (space :: (numeral 10 ctr.toNat ++ space :: a)))
      = some (hex pub.1, ctr, a.dropWhile isSpace) := by
  have hlen : (hex pub.1).length = 64 := by rw [length_hex, pub.2]
  obtain ⟨x, h', hhex⟩ : ∃ x h', hex pub.1 = x :: h' :=
    exists_cons_of_ne_nil (by intro h; rw [h] at hlen; simp at hlen)
  have hx : isSpace x = false := (digit_plain (value_hex pub.1 x (by rw [hhex]; simp))).2.2
  have hdrop : (hex pub.1 ++ (space :: (numeral 10 ctr.toNat ++ space :: a))).dropWhile isSpace
      = hex pub.1 ++ (space :: (numeral 10 ctr.toNat ++ space :: a)) := by
    rw [hhex, cons_append, dropWhile_cons, if_neg (by simp [hx])]
  have hword : ((hex pub.1 ++ (space :: (numeral 10 ctr.toNat ++ space :: a))).takeWhile
      fun c => !isSpace c).take 79 = hex pub.1 := by
    rw [takeWhile_append_of_pos fun y hy => by
        simp [(digit_plain (value_hex pub.1 y hy)).2.2],
      takeWhile_cons, if_neg (by decide), append_nil, take_of_length_le (by omega)]
  have hnum : unsigned 10 (numeral 10 ctr.toNat ++ space :: a) = some (ctr, space :: a) := by
    apply unsigned_digits (by omega) (numeral_ne_nil _ _)
    · exact value_numeral (by omega) (by omega) _
    · exact ends_of_head (by omega) (by decide) _
    · exact fun h => absurd h (by omega)
    · exact ofDigits_numeral (by omega) (by omega) _
  unfold scanClient
  simp only
  rw [hdrop, hword, if_neg (by rw [hhex]; simp), drop_left, unsigned_space, hnum,
    map_some, dropWhile_cons, if_pos (by decide)]

/-- The first line that is read of what was written for a browser. -/
theorem readClient_line (c : Client) {a r : Bytes} (hlabel : c.label.1 = a ++ r)
    (hr : ∀ x ∈ r.head?, x = lf) :
    readClient (hex c.pub.1 ++ (space :: (numeral 10 c.ctr.toNat ++ space :: (a ++ [lf]))))
      = some (reloaded c) := by
  have hnum : ∀ x ∈ numeral 10 c.ctr.toNat, value x < 10 := value_numeral (by omega) (by omega) _
  have hlf : ∀ l : Bytes, (a ++ lf :: l).takeWhile inLine = a.takeWhile inLine := by
    intro l
    rw [takeWhile_append]
    split
    · next h =>
      rw [takeWhile_cons, if_neg (by decide), append_nil]
      exact ((List.takeWhile_prefix _).eq_of_length h).symm
    · rfl
  have hcut : (hex c.pub.1 ++ (space :: (numeral 10 c.ctr.toNat ++ space :: (a ++ [lf])))).takeWhile
      inLine =
      hex c.pub.1 ++ (space :: (numeral 10 c.ctr.toNat ++ space :: a.takeWhile inLine)) := by
    rw [takeWhile_append_of_pos fun y hy => (digit_plain (value_hex c.pub.1 y hy)).1,
      takeWhile_cons, if_pos (by decide),
      takeWhile_append_of_pos fun y hy => (digit_plain (lt_trans (hnum y hy) (by omega))).1,
      takeWhile_cons, if_pos (by decide), hlf]
  have hsame : c.label.1.takeWhile inLine = a.takeWhile inLine := by
    rw [hlabel]
    cases r with
    | nil => rw [append_nil]
    | cons x r =>
      rw [hr x (by simp)]
      exact hlf r
  rw [readClient_eq, hcut, scanClient_line, bind_some, unhex_hex_blob, bind_some,
    ← hsame]
  rfl

/-- A line too short for a key says nothing. -/
theorem readClient_short {line : Bytes} (h : (line.takeWhile inLine).length < 64) :
    readClient line = none := by
  rw [readClient_eq]
  cases hscan : scanClient (line.takeWhile inLine) with
  | none => rfl
  | some r =>
    have hlen : r.1.length < 64 := by
      unfold scanClient at hscan
      simp only at hscan
      split at hscan
      · exact absurd hscan (by simp)
      · obtain ⟨n, -, rfl⟩ := map_eq_some_iff.mp hscan
        have hword := (List.takeWhile_prefix (fun c => !isSpace c)
          (l := (line.takeWhile inLine).dropWhile isSpace)).length_le
        have hspace := (dropWhile_suffix isSpace (l := line.takeWhile inLine)).length_le
        rw [length_take]
        omega
    rw [bind_some, unhex, dif_neg fun hh => by omega]
    rfl

/-- A line is read, and the rest follows. -/
theorem linesLoop_line {l : Bytes} (hl : lf ∉ l) (hlen : l.length < 199) (rest : Bytes) {k : ℕ}
    (hk : (l ++ lf :: rest).length ≤ k) :
    ∃ k', rest.length ≤ k' ∧ linesLoop k (l ++ lf :: rest) = (l ++ [lf]) :: linesLoop k' rest := by
  have hget := St.fgets_line (fun c hc h => hl (h ▸ hc)) rest hlen
  rw [length_append, length_cons] at hk
  obtain ⟨k, rfl⟩ : ∃ m, k = m + 1 := ⟨k - 1, by omega⟩
  obtain ⟨c, l', hc⟩ : ∃ c l', l ++ lf :: rest = c :: l' := by
    cases l with
    | nil => exact ⟨_, _, rfl⟩
    | cons c l => exact ⟨_, _, rfl⟩
  rw [hc] at hget ⊢
  exact ⟨k, by omega, by rw [linesLoop, hget]⟩

/-- What is left of a label behind an end of line says nothing. -/
theorem loadLine_rest (b : Bytes) : ∀ {k : ℕ} (rest : Bytes) (l : List Client), b.length < 64 →
    (b ++ lf :: rest).length ≤ k → ∃ k', rest.length ≤ k' ∧
      (linesLoop k (b ++ lf :: rest)).foldl loadLine l = (linesLoop k' rest).foldl loadLine l := by
  induction hn : b.length using Nat.strong_induction_on generalizing b with
  | _ n ih =>
    subst hn
    intro k rest l hb hk
    have hshort : ∀ a : Bytes, a.length < 64 → lf ∉ a → loadLine l (a ++ [lf]) = l := by
      intro a ha hlf
      have hcut : ((a ++ [lf]).takeWhile inLine).length < 64 := by
        rw [takeWhile_append]
        split
        · rw [takeWhile_cons, if_neg (by decide), append_nil]
          exact ha
        · exact lt_of_le_of_lt (List.takeWhile_prefix _).length_le ha
      rw [loadLine, readClient_short hcut]
      simp
    by_cases hlf : lf ∈ b
    · -- up to the first end of line, and what is left of that
      obtain ⟨a, b', rfl, ha⟩ := eq_append_cons_of_mem hlf
      rw [length_append, length_cons] at hb ih
      rw [append_assoc, cons_append] at hk ⊢
      obtain ⟨k', hk', heq⟩ := linesLoop_line ha (by omega) (b' ++ lf :: rest) hk
      obtain ⟨k'', hk'', heq'⟩ := ih b'.length (by omega) b' rfl rest l (by omega) hk'
      refine ⟨k'', hk'', ?_⟩
      rw [heq, foldl_cons, hshort a (by omega) ha, heq']
    · obtain ⟨k', hk', heq⟩ := linesLoop_line hlf (by omega) rest hk
      exact ⟨k', hk', by rw [heq, foldl_cons, hshort b hb hlf]⟩

/-- A browser that was written is read. -/
theorem loadLine_client (c : Client) {k : ℕ} (rest : Bytes) (l : List Client)
    (hl : l.length < maxClients) (hk : (clientLine c ++ rest).length ≤ k) :
    ∃ k', rest.length ≤ k' ∧ (linesLoop k (clientLine c ++ rest)).foldl loadLine l
      = (linesLoop k' rest).foldl loadLine (l ++ [reloaded c]) := by
  have hctr : (numeral 10 c.ctr.toNat).length ≤ 20 :=
    length_numeral_le (by omega) (by omega) (lt_trans c.ctr.toNat_lt (by norm_num))
  have hnum : ∀ x ∈ numeral 10 c.ctr.toNat, value x < 10 := value_numeral (by omega) (by omega) _
  have hhex : (hex c.pub.1).length = 64 := by rw [length_hex, c.pub.2]
  have hlabel := c.label.2.1
  -- the first line that is read, for whatever part of the label stands on it
  have hfirst : ∀ a r : Bytes, c.label.1 = a ++ r → lf ∉ a → (∀ x ∈ r.head?, x = lf) →
      ∀ (rest : Bytes) {k : ℕ}, (hex c.pub.1 ++ (space :: (numeral 10 c.ctr.toNat ++
        space :: a)) ++ lf :: rest).length ≤ k → ∃ k', rest.length ≤ k' ∧
      (linesLoop k (hex c.pub.1 ++ (space :: (numeral 10 c.ctr.toNat ++ space :: a)) ++
        lf :: rest)).foldl loadLine l = (linesLoop k' rest).foldl loadLine (l ++ [reloaded c]) := by
    intro a r har ha hr rest k hk
    have hlen : a.length ≤ c.label.1.length := by rw [har, length_append]; omega
    have hlf : lf ∉ hex c.pub.1 ++ (space :: (numeral 10 c.ctr.toNat ++ space :: a)) := by
      intro h
      simp only [mem_append, mem_cons] at h
      rcases h with h | h | h | h | h
      · exact (digit_plain (value_hex _ _ h)).2.1 rfl
      · exact absurd h (by decide)
      · exact (digit_plain (lt_trans (hnum _ h) (by omega))).2.1 rfl
      · exact absurd h (by decide)
      · exact ha h
    obtain ⟨k', hk', heq⟩ := linesLoop_line hlf (by
      simp only [length_append, length_cons]; omega) rest hk
    refine ⟨k', hk', ?_⟩
    have hread :
        readClient (hex c.pub.1 ++ (space :: (numeral 10 c.ctr.toNat ++ space :: a)) ++ [lf])
        = some (reloaded c) := by
      rw [← readClient_line c har hr]
      simp
    rw [heq, foldl_cons, loadLine, if_pos hl, hread]
    rfl
  have hline : clientLine c = hex c.pub.1 ++ (space :: (numeral 10 c.ctr.toNat ++ space ::
      (c.label.1 ++ [lf]))) := by
    simp [clientLine]
  rw [hline] at hk ⊢
  by_cases hlf : lf ∈ c.label.1
  · -- a label of more than one line: the others say nothing
    obtain ⟨a, b, hab, ha⟩ := eq_append_cons_of_mem hlf
    have hlen : a.length + (b.length + 1) < 64 := by
      rw [hab, length_append, length_cons] at hlabel
      exact hlabel
    have hsplit : hex c.pub.1 ++
        (space :: (numeral 10 c.ctr.toNat ++ space :: (c.label.1 ++ [lf]))) ++
        rest = hex c.pub.1 ++ (space :: (numeral 10 c.ctr.toNat ++ space :: a)) ++ lf ::
          (b ++ lf :: rest) := by
      rw [hab]
      simp
    rw [hsplit] at hk ⊢
    obtain ⟨k', hk', heq⟩ := hfirst a (lf :: b) hab ha (by simp) (b ++ lf :: rest) hk
    obtain ⟨k'', hk'', heq'⟩ := loadLine_rest b rest (l ++ [reloaded c]) (by omega) hk'
    exact ⟨k'', hk'', heq.trans heq'⟩
  · have hsplit : hex c.pub.1 ++
        (space :: (numeral 10 c.ctr.toNat ++ space :: (c.label.1 ++ [lf]))) ++
        rest = hex c.pub.1 ++ (space :: (numeral 10 c.ctr.toNat ++ space :: c.label.1)) ++ lf ::
          rest := by
      simp
    rw [hsplit] at hk ⊢
    exact hfirst c.label.1 [] (by simp) hlf (by simp) rest hk

/-- **A start finds each browser with its highest counter.** -/
theorem loadClients_clientsText (l : List Client) (hl : l.length ≤ maxClients) :
    loadClients (clientsText l) = l.map reloaded := by
  have h : ∀ (l acc : List Client) (k : ℕ), acc.length + l.length ≤ maxClients →
      (clientsText l).length ≤ k →
      (linesLoop k (clientsText l)).foldl loadLine acc = acc ++ l.map reloaded := by
    intro l
    induction l with
    | nil =>
      intro acc k _ _
      cases k <;> simp [clientsText, linesLoop]
    | cons c l ih =>
      intro acc k hlen hk
      rw [length_cons] at hlen
      have htext : clientsText (c :: l) = clientLine c ++ clientsText l := flatMap_cons
      rw [htext] at hk ⊢
      obtain ⟨k', hk', heq⟩ := loadLine_client c (clientsText l) acc (by omega) hk
      rw [heq, ih _ _ (by rw [length_append, length_singleton]; omega) hk']
      simp
  rw [loadClients, h l [] _ (by simpa using hl) le_rfl]
  rfl

example : loadClients (text "00 7 kitchen") = [] := by decide +kernel

/-! ### Requests -/

/-- A request, as far as it is signed. -/
structure Req where
  method : Bytes
  path : Bytes
  pub : Bytes
  ctr : Bytes
  mac : Bytes
  body : Bytes

/-- The daemon: its key, the approved browsers, the file, and what happened. -/
structure Daemon where
  sk : Blob 32
  pk : Blob 32
  clients : List Client
  file : Option Bytes
  /-- Counters that `signed_ok` took, and starts. -/
  log : List (Option (Blob 32 × UInt64 × Bool)) := []

/-- The label of the session key. -/
def webLabel : Bytes := ascii ['h', 'a', 's', 's', 'm', 'i', 'c', ' ', 'w', 'e', 'b', ' ', '1']

/-- `client_of`. -/
def clientOf (l : List Client) (pub : Blob 32) : Option Client := l.find? fun c => c.pub == pub

/-- The entry of a browser is replaced. -/
def setClient (l : List Client) (pub : Blob 32) (k : Client) : List Client :=
  match l with
  | [] => []
  | c :: l => if c.pub = pub then k :: l else c :: setClient l pub k

namespace Daemon

variable (C : Crypto) (d : Daemon)

/-- `session_key`. -/
def sessionKey (pub : Blob 32) : Option (Blob 32) :=
  let shared := C.x25519 d.sk pub
  if shared = .zero 32 then none else some (C.keyed32 shared (webLabel ++ d.pk.1 ++ pub.1))

/-- What a request is signed over. -/
def signedText (r : Req) : Bytes :=
  r.method ++ [lf] ++ r.path ++ [lf] ++ r.ctr ++ [lf] ++ r.body

/-- The browser and the counter of a request that `signed_ok` takes. -/
def takes (r : Req) : Option (Client × UInt64) := do
  let n ← unsigned 10 r.ctr
  let pub ← unhex 32 r.pub
  let mac ← unhex 16 r.mac
  if n.2 ≠ [] then none
  else
    let c ← clientOf d.clients pub
    if !ctrFresh c n.1 then none
    else
      let k ← d.sessionKey C pub
      if C.keyed16 k (signedText r) = mac then some (c, n.1) else none

/-- `save_clients`, which succeeds. -/
def saveClients : Daemon := { d with file := some (clientsText d.clients) }

/-- `signed_ok`. -/
def signedOk (r : Req) (persist : Bool) : Bool × Daemon :=
  match d.takes C r with
  | none => (false, d)
  | some (c, n) =>
      let d := { d with
        clients := setClient d.clients c.pub (ctrTake c n)
        log := d.log ++ [some (c.pub, n, persist)] }
      (true, if persist then d.saveClients else d)

/-- `add_client`: the oldest goes if there is no room. -/
def addClient (pub : Blob 32) (label : Label) : Daemon :=
  match clientOf d.clients pub with
  | some k =>
      saveClients { d with clients := setClient d.clients pub { k with label := label } }
  | none =>
      let l := if d.clients.length = maxClients then d.clients.drop 1 else d.clients
      saveClients { d with clients := l ++ [{ pub := pub, label := label }] }

/-- A browser's login is revoked. -/
def revoke (pub : Blob 32) : Daemon :=
  if (clientOf d.clients pub).isSome then
    saveClients { d with clients := d.clients.eraseP fun c => c.pub == pub }
  else d

/-- The daemon starts again. -/
def restart : Daemon :=
  { d with
    clients := match d.file with
      | some text => loadClients text
      | none => []
    log := d.log ++ [none] }

end Daemon

/-- What happens to the daemon.  It may die in `signed_ok`, before or after the file is
written. -/
inductive Ev
  | request (r : Req) (persist : Bool)
  | approve (pub : Blob 32) (label : Label)
  | revoke (pub : Blob 32)
  | restart
  | dies (r : Req) (persist saved : Bool)

/-- One step of the daemon. -/
def Daemon.step (C : Crypto) (d : Daemon) : Ev → Daemon
  | .request r persist => (d.signedOk C r persist).2
  | .approve pub label => d.addClient pub label
  | .revoke pub => d.revoke pub
  | .restart => d.restart
  | .dies r persist saved =>
      Daemon.restart { d with file := if saved then (d.signedOk C r persist).2.file else d.file }

end Hassmic.Web
