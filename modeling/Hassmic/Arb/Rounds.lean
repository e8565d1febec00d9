import Hassmic.Arb.State

/-!
# Rounds

What an Echo keeps of its own round and of the claims it heard: the samples the
window is learned from, the rivals worth waiting for, and whether a claim beats
ours.

## Main definitions

* `sample`, `samplesOf`, `learned` — the window.
* `rival`, `observe`, `rivalWaits`, `rivalsTake` — the rivals.
* `heard`, `waited`, `beaten` — our round.
-/

namespace Hassmic.Arb

open Function

namespace St

variable (s : St)

/-! ### The window -/

/-- A member's first claim in our round, `ms` after ours, come at `at_`. -/
def sample (id : Blob 8) (ms at_ : ℤ) : St :=
  if s.round.got.any (·.id == id) ∨ s.round.got.length = nPeer then s
  else
    { s with
      round := { s.round with
        got := s.round.got ++ [⟨id, s.ndelay, at_⟩]
        dirty := true }
      delays :=
        update s.delays (Fin.ofNat nDelay s.ndelay) ⟨id, if ms < 0 then 0 else Int32.ofInt ms⟩
      ndelay := s.ndelay + 1 }

/-- The 95th percentile, by nearest rank. -/
def p95 (v : List ℤ) : ℤ := (v.mergeSort (· ≤ ·)).getD ((v.length * 95 + 99) / 100 - 1) 0

/-- A member's samples. -/
def samplesOf (p : Peer) : List ℤ :=
  ((List.finRange nDelay).filter fun j =>
    decide (j.1 < s.ndelay) && decide (0 ≤ (s.delays j).ms) && (s.delays j).id == p.id).map
      fun j => (s.delays j).ms.toInt

/-! ### Rivals -/

/-- `rival(id, 0)`. -/
def rivalFind (id : Blob 8) : Option (Fin nPeer) :=
  (List.finRange nPeer).find? fun i => (s.rivals i).n != 0 && (s.rivals i).id == id

/-- The entry `rival` reuses: the last free one before an older one is met. -/
def rivalReuse : Fin nPeer :=
  (List.finRange nPeer).foldl
    (fun o i => if (s.rivals i).n = 0 ∨ (s.rivals i).at_ < (s.rivals o).at_ then i else o) 0

/-- `rival(id, 1)`: the entry of a member, and the state with one made for it. -/
def rival (id : Blob 8) : Fin nPeer × St :=
  match s.rivalFind id with
  | some i => (i, s)
  | none => (s.rivalReuse, { s with rivals := update s.rivals s.rivalReuse { id := id } })

/-- Keep a round of the rival `i`. -/
def observe (i : Fin nPeer) (own d : Int32) (at_ : ℤ) : St :=
  let v := s.rivals i
  { s with
    rivals := update s.rivals i
      { v with
        o := update v.o (Fin.ofNat obsKeep v.next) ⟨own, d⟩
        next := v.next + 1
        at_ := at_
        n := if v.n < obsKeep then v.n + 1 else v.n
        n_le := by have := v.n_le; split <;> omega } }

/-- A claim that beat ours or came close. -/
def closeCall (d : Int32) : Bool := d != dNone && decide (-rivalDb < d.toInt)

/-- One kept round in the estimate: close calls, all rounds, and the weight of its age. -/
def weigh (score : Int32) (r : Float × Float × Float) (o : Obs) : Float × Float × Float :=
  let w := r.2.2 * Float.exp (-(Float.ofInt o.own.toInt - Float.ofInt score.toInt).abs / 400)
  let age := r.2.2 * 0.99
  if closeCall o.d then (r.1 + w * 3.0, r.2.1 + w * 3.0, age) else (r.1, r.2.1 + w, age)

/-- The rounds kept of a rival, the newest first. -/
def newest (v : Rival) : List Obs :=
  (List.range v.n).map fun k => v.o (Fin.ofNat obsKeep (v.next - 1 - k))

/-- Whether a round with our score waits for this member. -/
def rivalWaits (id : Blob 8) (score : Int32) : Bool :=
  if !s.rivalsOn then true
  else
    let kept := match s.rivalFind id with
      | some i => newest (s.rivals i)
      | none => []
    let r := kept.foldl (weigh score) (0.5, 2.0, 1.0)
    decide (0.15 < r.1 / r.2.1)

/-- A claim in our round. -/
def heard (id : Blob 8) (at_ : ℤ) (score : Int32) (prio : UInt8) (won : Bool) : St :=
  let h := s.round.heard
  if h.any (·.id == id) then
    { s with round := { s.round with
        heard := h.map fun x =>
          if x.id = id then
            { x with
              s := if x.s < score then score else x.s
              p := if x.p < prio then prio else x.p
              w := x.w || won }
          else x } }
  else if h.length < nPeer then
    { s with round := { s.round with heard := h ++ [⟨id, at_, score, prio, won⟩] } }
  else s

/-- The difference a member's claims make, `d` if none of them counts. -/
def difference (id : Blob 8) (cutoff : ℤ) : Int32 :=
  s.round.heard.foldl
    (fun d h =>
      if h.id = id ∧ h.at_ ≤ cutoff then
        let x := h.s.toInt - s.round.score.toInt
        let d := if s.round.prio.toInt < h.p.toNat then dPrio
          else if dPrio.toInt ≤ x then dPrio - 1
          else if x ≤ dNone.toInt then dNone + 1 else Int32.ofInt x
        if s.round.won ∧ h.w ∧ d < 0 then 0 else d
      else d) dNone

/-- A member's claim of the round of `s`, kept in `t`. -/
def takeRival (cutoff : ℤ) (t : St) (w : Want) : St :=
  (t.rival w.id).2.observe (t.rival w.id).1 s.round.score (s.difference w.id cutoff) cutoff

/-- The round is over: each member's claim against ours. -/
def rivalsTake (cutoff : ℤ) : St :=
  { s.round.want.foldl (s.takeRival cutoff) s with
    round := { s.round with
      dirty := s.round.dirty || !s.round.want.isEmpty
      want := []
      heard := [] } }

/-- A member this round waits for. -/
def waited (p : Peer) (now : ℤ) : Bool :=
  if !ago p.seen now s.peerTtlMs || p.quiet then false
  else
    match s.round.want.find? (·.id == p.id) with
    | some w => w.waits
    | none => true

/-- The samples of the members waited for, and the widest of their own windows. -/
def gather (now : ℤ) : List ℤ × ℤ :=
  (List.finRange nPeer).foldl
    (fun r i =>
      let p := s.peers i
      if s.waited p now then
        let mine := s.samplesOf p
        (r.1 ++ mine,
          if autoPeerMin ≤ mine.length then max r.2 (p95 mine + autoMarginMs) else r.2)
      else r) ([], 0)

/-- The learned window, the number of samples, and their percentile. -/
def learned (now : ℤ) : ℤ × ℕ × ℤ :=
  let r := s.gather now
  let q := if r.1 = [] then -1 else p95 r.1
  let w := if r.1.length < autoLearn then max r.2 autoStartMs else max r.2 (q + autoMarginMs)
  (if w < autoMinMs then autoMinMs else if autoMaxMs < w then autoMaxMs else w, r.1.length, q)

/-! ### The outcome -/

/-- Members we settle wake words with. -/
def countPeers (now : ℤ) : ℕ :=
  ((List.finRange nPeer).filter fun i =>
    ago (s.peers i).seen now s.peerTtlMs && !(s.peers i).quiet).length

/-- The claim `k` counts in a round for `kw` that opened at `at_`. -/
def counts (k : Claim) (kw : Blob 8) (at_ : ℤ) : Bool :=
  k.at_ != 0 && decide (at_ - lookbackMs ≤ k.at_) && k.kw == kw

/-- The claim `k` is better than ours. -/
def better (k : Claim) : Bool :=
  k.won || decide (s.round.prio.toInt < k.prio.toNat) ||
    ((k.prio.toNat : ℤ) == s.round.prio.toInt && (decide (s.round.score.toInt < k.score.toInt) ||
      (k.score == s.round.score && Byte.before s.id.1 k.id.1)))

/-- A claim of this round that beats ours. -/
def beaten : Bool :=
  (List.finRange nClaim).any fun i =>
    counts (s.claims i) s.round.kw s.round.at_ && s.better (s.claims i)

end St

end Hassmic.Arb
