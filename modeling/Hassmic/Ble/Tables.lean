import Hassmic.Ble.Walk
import Hassmic.Lib.Spans

/-!
# The tables of a discovery

Whatever a device answers, the tables of a database keep to their sizes, each service has a span of
the characteristics and each characteristic one of the descriptors, and the requests of a discovery
come to an end: each asks further on than the one before, by phase, by service or characteristic,
and by handle.

## Main definitions

* `Db.WellFormed` — the tables, and the spans in them.
* `Db.Ready`, `Db.Within` — a database as a discovery has it between two ranges, and inside one.
* `Conn.asks`, `reached` — the requests that were sent, and how many there can be up to a place.
* `Conn.Orderly` — what every step of a connection preserves.

## Main results

* `discovery_wellFormed` — **the databases that are reported are well formed**, and the requests of
  a discovery come to an end, whatever the device answers.
-/

namespace Hassmic.Ble
namespace Gatt

open List Option

open Spans (Fresh Opened)

/-! ### Databases -/

namespace Db

variable {d : Db} {i : ℕ}

/-- The spans of the services in the characteristics. -/
def svcSpans (d : Db) : List (ℕ × ℕ) := d.svc.map fun s => (s.first, s.n)

/-- The spans of the characteristics in the descriptors. -/
def chrSpans (d : Db) : List (ℕ × ℕ) := d.chr.map fun ch => (ch.first, ch.n)

/-- **A well-formed database.**  The tables keep to their sizes, handles have 16 bits, the
characteristics are spans of the services, each in the one it names, and the descriptors are spans
of the characteristics. -/
structure WellFormed (d : Db) : Prop where
  svcs : d.svc.length ≤ maxSvc
  chrs : d.chr.length ≤ maxChr
  dscs : d.dsc.length ≤ maxDsc
  starts : ∀ a ∈ d.svc.map Svc.start, a < 2 ^ 16
  handles : ∀ a ∈ d.chr.map Chr.handle, a < 2 ^ 16
  chrSpans : Spans d.svcSpans d.chr.length
  owner : ∀ (k : ℕ) (ch : Chr), d.chr[k]? = some ch →
    ∃ p : ℕ × ℕ, d.svcSpans[ch.svc]? = some p ∧ p.1 ≤ k ∧ k < p.1 + p.2
  dscSpans : Spans d.chrSpans d.dsc.length

/-- Nothing is begun from the range `i` of a phase on. -/
def Ready (d : Db) : ℕ → ℕ → Prop
  | 0, _ => d.chr = [] ∧ d.dsc = [] ∧ Fresh d.svcSpans 0
  | 1, i => d.dsc = [] ∧ Fresh d.chrSpans 0 ∧ Fresh d.svcSpans i ∧ i ≤ d.svc.length
  | _, i => Fresh d.chrSpans i ∧ i ≤ d.chr.length

/-- The range `i` of a phase is begun, and nothing behind it. -/
def Within (d : Db) : ℕ → ℕ → Prop
  | 0, _ => d.chr = [] ∧ d.dsc = [] ∧ Fresh d.svcSpans 0
  | 1, i => d.dsc = [] ∧ Fresh d.chrSpans 0 ∧ Opened d.svcSpans i d.chr.length
  | _, i => Opened d.chrSpans i d.dsc.length

theorem wellFormed_empty : WellFormed {} :=
  ⟨Nat.zero_le _, Nat.zero_le _, Nat.zero_le _, nofun, nofun, Spans.nil, nofun, Spans.nil⟩

theorem opened_lt_svc {t : ℕ} (h : Opened d.svcSpans i t) : i < d.svc.length := by
  have hlt := h.lt
  rwa [svcSpans, length_map] at hlt

theorem opened_lt_chr {t : ℕ} (h : Opened d.chrSpans i t) : i < d.chr.length := by
  have hlt := h.lt
  rwa [chrSpans, length_map] at hlt

theorem within_empty : Within {} 0 0 := by
  refine ⟨rfl, rfl, ?_⟩
  intro j p _ hp
  exact nomatch hp

/-! ### From one range to the next -/

theorem Within.toSvcs (h : d.Within 0 i) : d.Ready 1 0 := by
  obtain ⟨hchr, hdsc, hfresh⟩ := h
  refine ⟨hdsc, ?_, hfresh, Nat.zero_le _⟩
  intro j p _ hp
  rw [chrSpans, hchr] at hp
  exact nomatch hp

theorem Within.nextSvc (h : d.Within 1 i) : d.Ready 1 (i + 1) := by
  obtain ⟨hdsc, hchr, hopened⟩ := h
  exact ⟨hdsc, hchr, hopened.1, opened_lt_svc hopened⟩

theorem Ready.toChrs (h : d.Ready 1 i) : d.Ready 2 0 := ⟨h.2.1, Nat.zero_le _⟩

theorem Within.nextChr (h : d.Within 2 i) : d.Ready 2 (i + 1) := ⟨h.1, opened_lt_chr h⟩

/-- A service is begun. -/
def beginSvc (d : Db) (i : ℕ) : Db :=
  { d with svc := d.svc.modify i fun s => { s with first := d.chr.length } }

/-- A characteristic is begun. -/
def beginChr (d : Db) (i : ℕ) : Db :=
  { d with chr := d.chr.modify i fun ch => { ch with first := d.dsc.length } }

theorem svcSpans_beginSvc (d : Db) (i : ℕ) :
    (d.beginSvc i).svcSpans = d.svcSpans.modify i fun p => (d.chr.length, p.2) := by
  unfold svcSpans beginSvc
  apply Spans.map_modify_image
  exact fun _ => rfl

theorem chrSpans_beginChr (d : Db) (i : ℕ) :
    (d.beginChr i).chrSpans = d.chrSpans.modify i fun p => (d.dsc.length, p.2) := by
  unfold chrSpans beginChr
  apply Spans.map_modify_image
  exact fun _ => rfl

theorem begins_svc (hw : d.WellFormed) (h : d.Ready 1 i) (hi : i < d.svc.length) :
    (d.beginSvc i).WellFormed ∧ (d.beginSvc i).Within 1 i := by
  obtain ⟨hdsc, hchr, hfresh, -⟩ := h
  obtain ⟨hspans, hopened⟩ := hw.chrSpans.begins hfresh (by rwa [svcSpans, length_map])
  rw [← svcSpans_beginSvc] at hspans hopened
  refine ⟨⟨?_, hw.chrs, hw.dscs, ?_, hw.handles, hspans, ?_, hw.dscSpans⟩, hdsc, hchr, hopened⟩
  · exact (length_modify _ _ _).le.trans hw.svcs
  · have hstart : (d.beginSvc i).svc.map Svc.start = d.svc.map Svc.start := by
      apply modify_map
      exact fun _ => rfl
    rw [hstart]
    exact hw.starts
  · intro k ch hk
    obtain ⟨p, hp, hin⟩ := hw.owner k ch hk
    -- a service that is not begun has none
    have hne : i ≠ ch.svc := by
      rintro rfl
      have hzero := congrArg Prod.snd (hfresh _ p le_rfl hp)
      dsimp only at hzero
      omega
    refine ⟨p, ?_, hin⟩
    rw [svcSpans_beginSvc, getElem?_modify_ne _ _ hne]
    exact hp

/-- Characteristics that stay in their services stay in the services' spans. -/
theorem WellFormed.owner_of_svc (hw : d.WellFormed) {l : List Chr}
    (hl : l.map Chr.svc = d.chr.map Chr.svc) (k : ℕ) (ch : Chr) (hk : l[k]? = some ch) :
    ∃ p : ℕ × ℕ, d.svcSpans[ch.svc]? = some p ∧ p.1 ≤ k ∧ k < p.1 + p.2 := by
  have hget := congrArg (·[k]?) hl
  simp only [getElem?_map, hk, map_some] at hget
  obtain ⟨ch', hch', heq⟩ := map_eq_some_iff.mp hget.symm
  rw [← heq]
  exact hw.owner k ch' hch'

theorem begins_chr (hw : d.WellFormed) (h : d.Ready 2 i) (hi : i < d.chr.length) :
    (d.beginChr i).WellFormed ∧ (d.beginChr i).Within 2 i := by
  obtain ⟨hfresh, -⟩ := h
  obtain ⟨hspans, hopened⟩ := hw.dscSpans.begins hfresh (by rwa [chrSpans, length_map])
  rw [← chrSpans_beginChr] at hspans hopened
  have hlen : (d.beginChr i).chr.length = d.chr.length := length_modify _ _ _
  refine ⟨⟨hw.svcs, hlen.le.trans hw.chrs, hw.dscs, hw.starts, ?_, ?_, ?_, hspans⟩, hopened⟩
  · have hhandle : (d.beginChr i).chr.map Chr.handle = d.chr.map Chr.handle := by
      apply modify_map
      exact fun _ => rfl
    rw [hhandle]
    exact hw.handles
  · rw [hlen]
    exact hw.chrSpans
  · exact hw.owner_of_svc (by
      apply modify_map
      exact fun _ => rfl)

/-! ### What is found -/

theorem handle_lt (p : Bytes) (i : ℕ) : u16 p i < 2 ^ 16 := by
  have hlo := (byteAt p i).toNat_lt
  have hhi := (byteAt p (i + 1)).toNat_lt
  unfold u16
  omega

theorem lastOf_lt (es : List Bytes) (i : ℕ) : lastOf es i < 2 ^ 16 := by
  unfold lastOf
  cases es.getLast? with
  | none => exact Nat.two_pow_pos 16
  | some e => exact handle_lt e i

/-- A service is found. -/
theorem found_svc (hw : d.WellFormed) (h : d.Within 0 i) (e : Bytes) :
    (d.addSvc e).WellFormed ∧ (d.addSvc e).Within 0 i := by
  obtain ⟨hchr, hdsc, hfresh⟩ := h
  unfold addSvc
  split_ifs with hfull
  · exact ⟨hw, hchr, hdsc, hfresh⟩
  · have hspans := hw.chrSpans.concat
    have hsvcs := hw.svcs
    have hnew :
        (d.svc ++ [({ uuid := uuidFrom (e.drop 4), start := u16 e 0, last := u16 e 2 } : Svc)]).map
        (fun s => (s.first, s.n)) = d.svcSpans ++ [(0, 0)] := map_append
    refine ⟨⟨?_, hw.chrs, hw.dscs, ?_, hw.handles, ?_, ?_, hw.dscSpans⟩, hchr, hdsc, ?_⟩
    · rw [length_append, length_singleton]
      omega
    · intro a ha
      rw [map_append] at ha
      rcases mem_append.mp ha with hold | hlast
      · exact hw.starts a hold
      · rw [mem_singleton.mp hlast]
        exact handle_lt e 0
    · unfold svcSpans
      rw [hnew]
      exact hspans
    · intro k ch hk
      rw [hchr] at hk
      exact nomatch hk
    · unfold svcSpans
      rw [hnew]
      exact hfresh.concat

/-- A characteristic of the service is found. -/
theorem found_chr (hw : d.WellFormed) (h : d.Within 1 i) (e : Bytes) :
    (d.addChr i e).WellFormed ∧ (d.addChr i e).Within 1 i := by
  obtain ⟨hdsc, hchr, hopened⟩ := h
  unfold addChr
  split_ifs with hfull
  · exact ⟨hw, hdsc, hchr, hopened⟩
  · have hchrs := hw.chrs
    obtain ⟨hspans, hgrown⟩ := hw.chrSpans.grows hopened
    -- the service has one characteristic more, which has no descriptor yet
    have hnew : (d.svc.modify i fun s => { s with n := s.n + 1 }).map (fun s => (s.first, s.n)) =
        d.svcSpans.modify i fun p => (p.1, p.2 + 1) := by
      apply Spans.map_modify_image
      exact fun _ => rfl
    have hchr' : ∀ c : Chr, (c.first, c.n) = (0, 0) →
        (d.chr ++ [c]).map (fun ch => (ch.first, ch.n)) = d.chrSpans ++ [(0, 0)] := by
      intro c hc
      rw [map_append, map_singleton, hc]
      rfl
    have hlen : ∀ c : Chr, (d.chr ++ [c]).length = d.chr.length + 1 := fun _ => length_append
    refine ⟨⟨?_, ?_, hw.dscs, ?_, ?_, ?_, ?_, ?_⟩, hdsc, ?_, ?_⟩
    · exact (length_modify _ _ _).le.trans hw.svcs
    · rw [hlen]
      omega
    · have hstart : (d.svc.modify i fun s => { s with n := s.n + 1 }).map Svc.start =
          d.svc.map Svc.start := by
        apply modify_map
        exact fun _ => rfl
      change ∀ a ∈ List.map _ (List.modify _ _ _), _
      rw [hstart]
      exact hw.starts
    · intro a ha
      rw [map_append] at ha
      rcases mem_append.mp ha with hold | hlast
      · exact hw.handles a hold
      · rw [mem_singleton.mp hlast]
        exact handle_lt e 3
    · unfold svcSpans
      rw [hnew, hlen]
      exact hspans
    · intro k ch hk
      unfold svcSpans
      rw [hnew]
      rw [getElem?_append] at hk
      split_ifs at hk with hin
      · -- the spans of the others are as they were, and the service's has grown
        obtain ⟨p, hp, hlo, hhi⟩ := hw.owner k ch hk
        by_cases hi : i = ch.svc
        · subst hi
          refine ⟨(p.1, p.2 + 1), ?_, hlo, Nat.lt_succ_of_lt hhi⟩
          rw [getElem?_modify_eq, hp]
          rfl
        · exact ⟨p, (getElem?_modify_ne _ _ hi).trans hp, hlo, hhi⟩
      · obtain ⟨p, hp, hend⟩ := hopened.2
        have hch := mem_singleton.mp (mem_of_getElem? hk)
        have hk' : k - d.chr.length = 0 := by
          have hlt := (List.getElem?_eq_some_iff.mp hk).1
          rw [length_singleton] at hlt
          omega
        subst hch
        refine ⟨(p.1, p.2 + 1), ?_, ?_, ?_⟩
        · rw [getElem?_modify_eq, hp]
          rfl
        · dsimp only
          omega
        · dsimp only
          omega
    · unfold chrSpans
      rw [hchr' _ rfl]
      exact hw.dscSpans.concat
    · unfold chrSpans
      rw [hchr' _ rfl]
      exact hchr.concat
    · unfold svcSpans
      rw [hnew, hlen]
      exact hgrown

/-- A descriptor of the characteristic is found. -/
theorem found_dsc (hw : d.WellFormed) (h : d.Within 2 i) (e : Bytes) :
    (d.addDsc i e).WellFormed ∧ (d.addDsc i e).Within 2 i := by
  unfold addDsc
  split_ifs with hfull
  · exact ⟨hw, h⟩
  · have hdscs := hw.dscs
    obtain ⟨hspans, hgrown⟩ := hw.dscSpans.grows h
    have hnew : (d.chr.modify i fun ch => { ch with n := ch.n + 1 }).map
        (fun ch => (ch.first, ch.n)) =
        d.chrSpans.modify i fun p => (p.1, p.2 + 1) := by
      apply Spans.map_modify_image
      exact fun _ => rfl
    have hlen : (d.dsc ++ [({ uuid := uuidFrom (e.drop 2), handle := u16 e 0 } : Dsc)]).length =
        d.dsc.length + 1 := length_append
    refine ⟨⟨hw.svcs, ?_, ?_, hw.starts, ?_, ?_, ?_, ?_⟩, ?_⟩
    · exact (length_modify _ _ _).le.trans hw.chrs
    · rw [hlen]
      omega
    · have hhandle : (d.chr.modify i fun ch => { ch with n := ch.n + 1 }).map Chr.handle =
          d.chr.map Chr.handle := by
        apply modify_map
        exact fun _ => rfl
      change ∀ a ∈ List.map _ (List.modify _ _ _), _
      rw [hhandle]
      exact hw.handles
    · change Spans _ (List.modify _ _ _).length
      rw [length_modify]
      exact hw.chrSpans
    · exact hw.owner_of_svc (by
        apply modify_map
        exact fun _ => rfl)
    · unfold chrSpans
      rw [hnew, hlen]
      exact hspans
    · change Opened _ _ _
      unfold chrSpans
      rw [hnew, hlen]
      exact hgrown

end Db

/-! ### A discovery at work -/

/-- The requests that one range can take, and one more. -/
abbrev width : ℕ := 2 ^ 16 + 1

/-- How many requests there can be before those of a range. -/
def reached : ℕ → ℕ → ℕ
  | 0, _ => 0
  | 1, i => width * (1 + i)
  | _, i => width * (1 + maxSvc + i)

/-- How many there can be at all. -/
abbrev maxAsks : ℕ := width * (1 + maxSvc + maxChr)

/-- The requests of a discovery. -/
def asking : List UInt8 := [Att.readGroupReq, Att.readTypeReq, Att.findInfoReq]

namespace Conn

variable {c c' : Conn} {o : Op}

/-- How many of them were sent. -/
def asks (c : Conn) : ℕ := (c.sent.filter fun p => byteAt p 0 ∈ asking).length

/-- A discovery is in a range, and has sent its requests up to the one at `next`, and `n` more. -/
structure At (c : Conn) (n : ℕ) : Prop where
  le : c.phase ≤ 2
  db : c.db.isSome = true
  next : c.next ≤ 2 ^ 16
  within : c.database.Within c.phase c.idx
  asked : c.asks ≤ reached c.phase c.idx + c.next + n

/-- It is between two ranges. -/
structure Between (c : Conn) : Prop where
  le : c.phase ≤ 2
  pos : c.phase ≠ 0
  db : c.db.isSome = true
  next : c.next = 0
  ready : c.database.Ready c.phase c.idx
  asked : c.asks ≤ reached c.phase c.idx

/-- The databases are well formed, the one at hand and those that were reported, and the requests of
discoveries are not too many. -/
structure Clean (c : Conn) : Prop where
  held : ∀ d, c.db = some d → d.WellFormed
  told : ∀ x ∈ c.said, ∀ d, Link.reported x = some d → d.WellFormed
  asked : c.asks ≤ maxAsks
  blank : c.db = none → c.asks = 0

/-- **What every step of a connection preserves.** -/
structure Orderly (c : Conn) : Prop extends Clean c where
  work : ∀ o, c.cur = some o → o.kind = .discover → c.At 1

theorem asks_attSend (c : Conn) (b : UInt8) (rest : Bytes) :
    (c.attSend b rest).asks = c.asks + if b ∈ asking then 1 else 0 := by
  unfold asks attSend
  dsimp only
  have hhead : byteAt (b :: rest) 0 = b := rfl
  rw [filter_append, length_append, filter_cons, filter_nil, hhead]
  by_cases hb : b ∈ asking
  · rw [if_pos hb, if_pos (decide_eq_true hb)]
    rfl
  · rw [if_neg hb, if_neg (by simpa using hb)]
    rfl

theorem asks_other {b : UInt8} (hb : b ∉ asking) (rest : Bytes) :
    (c.attSend b rest).asks = c.asks := by
  rw [asks_attSend, if_neg hb, Nat.add_zero]

theorem asks_more {b : UInt8} (hb : b ∈ asking) (rest : Bytes) :
    (c.attSend b rest).asks = c.asks + 1 := by
  rw [asks_attSend, if_pos hb]

/-- The range that a discovery is in is one of those there can be. -/
theorem reached_lt {d : Db} (hw : d.WellFormed) {phase idx : ℕ} (hle : phase ≤ 2)
    (h : d.Within phase idx) : reached phase idx + width ≤ maxAsks := by
  have hsvcs : d.svc.length ≤ 48 := hw.svcs
  have hchrs : d.chr.length ≤ 192 := hw.chrs
  obtain rfl | rfl | rfl : phase = 0 ∨ phase = 1 ∨ phase = 2 := by omega
  · change 0 + (2 ^ 16 + 1) ≤ (2 ^ 16 + 1) * (1 + 48 + 192)
    omega
  · have hlt := Db.opened_lt_svc h.2.2
    change (2 ^ 16 + 1) * (1 + idx) + (2 ^ 16 + 1) ≤ (2 ^ 16 + 1) * (1 + 48 + 192)
    omega
  · have hlt := Db.opened_lt_chr h
    change (2 ^ 16 + 1) * (1 + 48 + idx) + (2 ^ 16 + 1) ≤ (2 ^ 16 + 1) * (1 + 48 + 192)
    omega

theorem At.bound (h : c.At 1) (hw : c.database.WellFormed) : c.asks ≤ maxAsks := by
  have hlt := reached_lt hw h.le h.within
  have hasked := h.asked
  have hnext := h.next
  unfold width at hlt
  omega

theorem Clean.database (h : c.Clean) : c.database.WellFormed := by
  rcases eq_none_or_eq_some c.db with hdb | ⟨d, hdb⟩
  · unfold Conn.database
    rw [hdb]
    exact Db.wellFormed_empty
  · rw [database_eq hdb]
    exact h.held d hdb

/-- Only what is looked at counts. -/
theorem Clean.of_eq (h : c.Clean) (hdb : c'.db = c.db) (hsaid : c'.said = c.said)
    (hasks : c'.asks = c.asks) :
    c'.Clean where
  held := by
    rw [hdb]
    exact h.held
  told := by
    rw [hsaid]
    exact h.told
  asked := hasks.le.trans h.asked
  blank := by
    rw [hdb, hasks]
    exact h.blank

theorem Orderly.of_eq (h : c.Orderly) (hdb : c'.db = c.db) (hsaid : c'.said = c.said)
    (hasks : c'.asks = c.asks) (hcur : c'.cur = c.cur)
    (hat : c'.phase = c.phase ∧ c'.idx = c.idx ∧ c'.next = c.next) : c'.Orderly where
  toClean := h.toClean.of_eq hdb hsaid hasks
  work := by
    intro o ho hk
    rw [hcur] at ho
    have hw := h.work o ho hk
    obtain ⟨hphase, hidx, hnext⟩ := hat
    refine ⟨hphase ▸ hw.le, hdb ▸ hw.db, hnext ▸ hw.next, ?_, ?_⟩
    · unfold Conn.database
      rw [hdb, hphase, hidx]
      exact hw.within
    · rw [hasks, hphase, hidx, hnext]
      exact hw.asked

/-- What of a connection counts. -/
def counted (c : Conn) := (c.db, c.said, c.asks, c.cur, c.phase, c.idx, c.next)

theorem Orderly.same (h : c.Orderly) (hc : c'.counted = c.counted) : c'.Orderly := by
  simp only [counted, Prod.mk.injEq] at hc
  exact h.of_eq hc.1 hc.2.1 hc.2.2.1 hc.2.2.2.1 hc.2.2.2.2

theorem Orderly.ite {p : Prop} [Decidable p] (h : c.Orderly) (h' : c'.Orderly) :
    (if p then c' else c).Orderly := by
  split
  · exact h'
  · exact h

theorem Orderly.attSend (h : c.Orderly) {b : UInt8} (hb : b ∉ asking) (rest : Bytes) :
    (c.attSend b rest).Orderly :=
  h.of_eq rfl rfl (asks_other hb rest) rfl ⟨rfl, rfl, rfl⟩

/-- An answer is given, and a database that is reported is well formed. -/
theorem Clean.say (h : c.Clean) (o : Op) (r : Reply)
    (hr : ∀ d, Link.reported ⟨o.req, r⟩ = some d → d.WellFormed) : (c.say o r).Clean where
  held := h.held
  told := by
    intro x hx d hd
    rcases mem_append.mp hx with hold | hnew
    · exact h.told x hold d hd
    · rw [mem_singleton.mp hnew] at hd
      exact hr d hd
  asked := h.asked
  blank := h.blank

/-! ### The queue -/

/-- The queue is looked at, with nothing at work. -/
theorem orderly_startOps {ops : List Op} (h : c.Clean) (hcur : c.cur = none) :
    (startOps ops c).Orderly := by
  have hidle : ∀ {c₁ : Conn}, c₁.cur = none → c₁.Clean → c₁.Orderly := by
    intro c₁ hnone hclean
    refine ⟨hclean, ?_⟩
    intro o ho
    rw [hnone] at ho
    cases ho
  induction ops generalizing c with
  | nil => exact hidle hcur h
  | cons o ops ih =>
    unfold startOps
    split
    case isFalse => exact hidle hcur h
    case isTrue =>
      have hsend : ∀ (b : UInt8) (rest : Bytes), b ∉ asking → o.kind ≠ .discover →
          (attSend { c with ops := ops, cur := some o, val := [], off := 0 } b rest).Orderly := by
        intro b rest hb hk
        refine ⟨h.of_eq rfl rfl (asks_other hb rest), ?_⟩
        intro o' ho' hk'
        cases ho'
        exact absurd hk' hk
      dsimp only
      split
      case h_1 hk =>
        unfold sendRead
        split
        · exact hsend _ _ (by decide) (by rw [hk]; decide)
        · exact hsend _ _ (by decide) (by rw [hk]; decide)
      case h_2 hk =>
        split
        · refine ih ?_ rfl
          exact h.of_eq rfl rfl (asks_other (b := Att.writeCmd) (by decide) _)
        · split
          · exact hsend _ _ (by decide) (by rw [hk]; decide)
          · exact hsend _ _ (by decide) (by rw [hk]; decide)
      case h_3 hk =>
        split
        case h_1 db hdb =>
          -- known already
          refine ih ?_ rfl
          have hsaid := h.say o (.services c.addr db) (by
            intro d hd
            cases hd
            exact h.held db hdb)
          exact hsaid.of_eq rfl rfl rfl
        case h_2 hdb =>
          -- from the start
          have hone : (attSend { c with
              ops := ops, cur := some o, val := [], off := 0
              db := some {}, phase := 0, idx := 0, next := 1 } Att.readGroupReq
              (put16 1 ++ put16 0xffff ++ put16 0x2800)).asks = 1 := by
            rw [asks_more (by decide)]
            exact congrArg Nat.succ (h.blank hdb)
          refine ⟨⟨?_, h.told, ?_, fun hnone => by cases hnone⟩, ?_⟩
          · intro d hd
            cases hd
            exact Db.wellFormed_empty
          · rw [hone]
            decide
          · intro _ _ _
            refine ⟨Nat.zero_le 2, rfl, (by decide : 1 ≤ 2 ^ 16), Db.within_empty, ?_⟩
            rw [hone]
            exact (by decide : 1 ≤ 0 + 1 + 1)

theorem Orderly.startOp (h : c.Orderly) : c.startOp.Orderly := by
  unfold Conn.startOp
  split
  · exact h
  case isFalse hcur => exact orderly_startOps h.toClean (not_isSome_iff_eq_none.mp hcur)

theorem Clean.opDone (h : c.Clean) : c.opDone.Orderly := by
  unfold Conn.opDone Conn.startOp
  rw [if_neg (by exact Bool.false_ne_true)]
  exact orderly_startOps (h.of_eq rfl rfl rfl) rfl

theorem Clean.opFail (h : c.Clean) (o : Op) (handle err : ℕ) : (c.opFail o handle err).Orderly :=
  (h.say o (.error c.addr handle err) nofun).opDone

/-! ### The next request of a discovery -/

/-- The request for the range that a discovery is in. -/
theorem orderly_asks (h : c.Clean) (hat : c.At 0) {b : UInt8} (hb : b ∈ asking) (rest : Bytes) :
    (c.attSend b rest).Orderly := by
  have hat' : (c.attSend b rest).At 1 := by
    refine ⟨hat.le, hat.db, hat.next, hat.within, ?_⟩
    rw [asks_more hb]
    exact Nat.succ_le_succ hat.asked
  refine ⟨⟨h.held, h.told, hat'.bound h.database, ?_⟩, fun _ _ _ => hat'⟩
  intro hnone
  have hdb := hat.db
  rw [show c.db = none from hnone] at hdb
  exact nomatch hdb

theorem enterSvc_eq (c : Conn) (hnext : c.next = 0) :
    c.enterSvc = { c with
      next := (c.database.svc[c.idx]?.map Svc.start).getD 0
      db := some (c.database.beginSvc c.idx) } := by
  unfold enterSvc
  dsimp only
  rw [if_pos hnext]
  rfl

/-- A service is begun, or gone on with. -/
theorem at_enterSvc (h : c.Clean) (hphase : c.phase = 1) (hidx : c.idx < c.database.svc.length)
    (hgoes : c.At 0 ∧ c.next ≠ 0 ∨ c.Between) :
    c.enterSvc.Clean ∧ c.enterSvc.At 0 ∧ c.enterSvc.phase = 1 ∧ c.enterSvc.idx = c.idx ∧
      c.enterSvc.cur = c.cur ∧ c.enterSvc.database.svc.length = c.database.svc.length := by
  rcases hgoes with ⟨hat, hnext⟩ | hbetween
  · have hsame : c.enterSvc = c := by
      unfold enterSvc
      dsimp only
      rw [if_neg hnext]
    rw [hsame]
    exact ⟨h, hat, hphase, rfl, rfl, rfl⟩
  · have hready := hbetween.ready
    rw [hphase] at hready
    obtain ⟨hwell, hwithin⟩ := Db.begins_svc h.database hready hidx
    rw [enterSvc_eq c hbetween.next]
    have hstart : (c.database.svc[c.idx]?.map Svc.start).getD 0 ≤ 2 ^ 16 := by
      rw [getElem?_eq_getElem hidx]
      exact (h.database.starts _ (mem_map_of_mem (getElem_mem hidx))).le
    refine ⟨⟨?_, h.told, h.asked, nofun⟩, ⟨hbetween.le, rfl, hstart, ?_, ?_⟩, hphase, rfl, rfl, ?_⟩
    · intro d hd
      cases hd
      exact hwell
    · dsimp only
      rw [hphase]
      exact hwithin
    · exact hbetween.asked.trans (Nat.le_add_right _ _)
    · exact length_modify _ _ _

/-- A characteristic is begun, or gone on with. -/
theorem at_enterChr (h : c.Clean) (hphase : c.phase = 2) (hidx : c.idx < c.database.chr.length)
    (hgoes : c.At 0 ∧ c.next ≠ 0 ∨ c.Between) :
    c.enterChr.Clean ∧ c.enterChr.At 0 ∧ c.enterChr.phase = 2 ∧ c.enterChr.idx = c.idx ∧
      c.enterChr.cur = c.cur ∧ c.enterChr.database.chr.length = c.database.chr.length := by
  rcases hgoes with ⟨hat, hnext⟩ | hbetween
  · have hsame : c.enterChr = c := by
      unfold enterChr
      dsimp only
      rw [if_neg hnext]
    rw [hsame]
    exact ⟨h, hat, hphase, rfl, rfl, rfl⟩
  · have hready := hbetween.ready
    rw [hphase] at hready
    obtain ⟨hwell, hwithin⟩ := Db.begins_chr h.database hready hidx
    have hentered : c.enterChr = { c with
        next := (c.database.chr[c.idx]?.map Chr.handle).getD 0 + 1
        db := some (c.database.beginChr c.idx) } := by
      unfold enterChr
      dsimp only
      rw [if_pos hbetween.next]
      rfl
    rw [hentered]
    have hhandle : (c.database.chr[c.idx]?.map Chr.handle).getD 0 + 1 ≤ 2 ^ 16 := by
      rw [getElem?_eq_getElem hidx]
      exact h.database.handles _ (mem_map_of_mem (getElem_mem hidx))
    refine ⟨⟨?_, h.told, h.asked, nofun⟩, ⟨hbetween.le, rfl, hhandle, ?_, ?_⟩, hphase, rfl, rfl, ?_⟩
    · intro d hd
      cases hd
      exact hwell
    · dsimp only
      rw [hphase]
      exact hwithin
    · exact hbetween.asked.trans (Nat.le_add_right _ _)
    · exact length_modify _ _ _

/-- A range that is done leads to the next one, with room for its requests. -/
theorem At.passed {n : ℕ} (h : c.At n) (hn : n ≤ 1) : c.asks ≤ reached c.phase c.idx + width := by
  have hasked := h.asked
  have hnext := h.next
  unfold width
  omega

theorem reached_succ {phase : ℕ} (hle : phase ≤ 2) (hpos : phase ≠ 0) (idx : ℕ) :
    reached phase idx + width = reached phase (idx + 1) := by
  obtain rfl | rfl : phase = 1 ∨ phase = 2 := by omega
  · exact (Nat.mul_succ width (1 + idx)).symm
  · exact (Nat.mul_succ width (1 + maxSvc + idx)).symm

/-- On to the next service or characteristic. -/
theorem At.nextRange {n : ℕ} (h : c.At n) (hn : n ≤ 1) (hpos : c.phase ≠ 0) :
    Between { c with idx := c.idx + 1, next := 0 } := by
  refine ⟨h.le, hpos, h.db, rfl, ?_, ?_⟩
  · have hwithin := h.within
    have hle := h.le
    change c.database.Ready c.phase (c.idx + 1)
    obtain hphase | hphase : c.phase = 1 ∨ c.phase = 2 := by omega
    · rw [hphase] at hwithin ⊢
      exact hwithin.nextSvc
    · rw [hphase] at hwithin ⊢
      exact hwithin.nextChr
  · exact (h.passed hn).trans (reached_succ h.le hpos c.idx).le

/-- Descriptors: the characteristics that are left. -/
theorem orderly_discChrs {k : ℕ} (h : c.Clean) (hphase : c.phase = 2)
    (hgoes : c.At 0 ∧ c.next ≠ 0 ∨ c.Between) (hlen : c.database.chr.length - c.idx = k) :
    (discChrs o k c).Orderly := by
  induction k generalizing c with
  | zero =>
    refine Clean.opDone (h.say o _ ?_)
    intro d hd
    cases hd
    exact h.database
  | succ k ih =>
    obtain ⟨hclean, hat, hphase₁, hidx₁, -, hlen₁⟩ := at_enterChr h hphase (by omega) hgoes
    unfold discChrs
    dsimp only
    generalize c.enterChr = c₁ at *
    split
    · refine ih (hclean.of_eq rfl rfl rfl) hphase₁ (.inr ?_) ?_
      · exact hat.nextRange (Nat.zero_le 1) (by omega)
      · change c₁.database.chr.length - (c₁.idx + 1) = k
        omega
    · exact orderly_asks hclean hat (by decide) _

/-- Characteristics: the services that are left. -/
theorem orderly_discSvcs {k : ℕ} (h : c.Clean) (hphase : c.phase = 1)
    (hgoes : c.At 0 ∧ c.next ≠ 0 ∨ c.Between) (hlen : c.database.svc.length - c.idx = k) :
    (discSvcs o k c).Orderly := by
  induction k generalizing c with
  | zero =>
    unfold discSvcs
    refine orderly_discChrs (c := { c with phase := 2, idx := 0, next := 0 }) ?_ rfl (.inr ?_) rfl
    · exact h.of_eq rfl rfl rfl
    · rcases hgoes with ⟨hat, -⟩ | hbetween
      · -- a service that is begun is one of the table
        have hwithin := hat.within
        rw [hphase] at hwithin
        have hlt := Db.opened_lt_svc hwithin.2.2
        omega
      · have hready := hbetween.ready
        have hasked := hbetween.asked
        have hsvcs : c.database.svc.length ≤ 48 := h.database.svcs
        rw [hphase] at hready hasked
        refine ⟨le_rfl, two_ne_zero, hbetween.db, rfl, hready.toChrs, hasked.trans ?_⟩
        have hle := hready.2.2.2
        change (2 ^ 16 + 1) * (1 + c.idx) ≤ (2 ^ 16 + 1) * (1 + 48 + 0)
        omega
  | succ k ih =>
    obtain ⟨hclean, hat, hphase₁, hidx₁, -, hlen₁⟩ := at_enterSvc h hphase (by omega) hgoes
    unfold discSvcs
    dsimp only
    generalize c.enterSvc = c₁ at *
    split
    · refine ih (hclean.of_eq rfl rfl rfl) hphase₁ (.inr ?_) ?_
      · exact hat.nextRange (Nat.zero_le 1) (by omega)
      · change c₁.database.svc.length - (c₁.idx + 1) = k
        omega
    · exact orderly_asks hclean hat (by decide) _

/-- `disc_next`, whatever is next. -/
theorem orderly_discNext (h : c.Clean) (hgoes : c.At 0 ∧ c.next ≠ 0 ∨ c.Between) :
    (c.discNext o).Orderly := by
  have hle : c.phase ≤ 2 := by
    rcases hgoes with ⟨hat, -⟩ | hbetween
    · exact hat.le
    · exact hbetween.le
  unfold discNext
  obtain hphase | hphase | hphase : c.phase = 0 ∨ c.phase = 1 ∨ c.phase = 2 := by omega
  · rw [hphase]
    rcases hgoes with ⟨hat, -⟩ | hbetween
    · exact orderly_asks h hat (by decide) _
    · exact absurd hphase hbetween.pos
  · rw [hphase]
    exact orderly_discSvcs h hphase hgoes rfl
  · rw [hphase]
    exact orderly_discChrs h hphase hgoes rfl

/-! ### Answers -/

/-- Whatever each entry keeps, all of them keep. -/
theorem foldl_found {phase idx : ℕ} {f : Db → Bytes → Db}
    (hf : ∀ d e, d.WellFormed → d.Within phase idx → (f d e).WellFormed ∧ (f d e).Within phase idx)
    (es : List Bytes) {d : Db} (hw : d.WellFormed) (h : d.Within phase idx) :
    (es.foldl f d).WellFormed ∧ (es.foldl f d).Within phase idx := by
  induction es generalizing d with
  | nil => exact ⟨hw, h⟩
  | cons e es ih =>
    obtain ⟨hw', h'⟩ := hf d e hw h
    exact ih hw' h'

/-- The services are all there: on to the first one. -/
theorem At.toSvcs (h : c.At 1) (hphase : c.phase = 0) :
    Between { c with phase := 1, idx := 0, next := 0 } := by
  have hwithin := h.within
  have hasked := h.passed le_rfl
  rw [hphase] at hwithin hasked
  refine ⟨Nat.le_succ 1, one_ne_zero, h.db, rfl, hwithin.toSvcs, hasked.trans ?_⟩
  change 0 + (2 ^ 16 + 1) ≤ (2 ^ 16 + 1) * (1 + 0)
  omega

/-- A range is done. -/
theorem orderly_done (h : c.Clean) (hat : c.At 1) :
    (if c.phase = 0 then discNext { c with phase := 1, idx := 0, next := 0 } o
      else discNext { c with idx := c.idx + 1, next := 0 } o).Orderly := by
  split
  case isTrue hphase => exact orderly_discNext (h.of_eq rfl rfl rfl) (.inr (hat.toSvcs hphase))
  case isFalse hphase =>
    exact orderly_discNext (h.of_eq rfl rfl rfl) (.inr (hat.nextRange le_rfl hphase))

/-- A list came, and went into the database: the range is done, or the rest is asked for. -/
theorem orderly_found (h : c.Clean) (hat : c.At 1) {d' : Db} (hwell : d'.WellFormed)
    (hwithin : d'.Within c.phase c.idx) {last : ℕ} (hlast : last < 2 ^ 16) {q : Prop} [Decidable q]
    (hq : ¬ q → c.next ≤ last) :
    (if q then
      if c.phase = 0 then discNext { c with db := some d', phase := 1, idx := 0, next := 0 } o
      else discNext { c with db := some d', idx := c.idx + 1, next := 0 } o
    else discNext { c with db := some d', next := last + 1 } o).Orderly := by
  have hclean : Clean { c with db := some d' } := by
    refine ⟨?_, h.told, h.asked, nofun⟩
    intro d hd
    cases hd
    exact hwell
  have hat' : At { c with db := some d' } 1 := ⟨hat.le, rfl, hat.next, hwithin, hat.asked⟩
  split
  · exact orderly_done hclean hat'
  case isFalse hmore =>
    refine orderly_discNext (hclean.of_eq rfl rfl rfl)
      (.inl ⟨⟨hat.le, rfl, hlast, hwithin, ?_⟩, ?_⟩)
    · -- it asks further on
      have hnext := hq hmore
      have hasked := hat.asked
      change c.asks ≤ reached c.phase c.idx + (last + 1) + 0
      omega
    · exact Nat.succ_ne_zero last

theorem orderly_discRx (h : c.Clean) (hat : c.At 1) (p : Bytes) : (c.discRx o p).Orderly := by
  unfold discRx
  split
  · -- an error, of which one ends the range
    split
    · exact h.opFail o _ _
    · exact orderly_done h hat
  · split
    case isTrue hsvcs =>
      obtain ⟨hwell, hin⟩ := foldl_found (fun d e hw hd => by
        rw [hsvcs.1] at hd ⊢
        exact Db.found_svc hw hd e) (entries (byteAt p 1).toNat p) h.database hat.within
      have hfound :=
        orderly_found (o := o) h hat hwell hin (Db.lastOf_lt (entries (byteAt p 1).toNat p) 2)
        (q := 0xffff ≤ lastOf (entries (byteAt p 1).toNat p) 2 ∨
          lastOf (entries (byteAt p 1).toNat p) 2 < c.next) (by omega)
      rw [if_pos hsvcs.1] at hfound
      exact hfound
    · split
      case isTrue hchrs =>
        have hne : c.phase ≠ 0 := by omega
        obtain ⟨hwell, hin⟩ := foldl_found (fun d e hw hd => by
          rw [hchrs.1] at hd ⊢
          exact Db.found_chr hw hd e) (entries (byteAt p 1).toNat p) h.database hat.within
        have hfound :=
          orderly_found (o := o) h hat hwell hin (Db.lastOf_lt (entries (byteAt p 1).toNat p) 0)
          (q := lastOf (entries (byteAt p 1).toNat p) 0 < c.next) (by omega)
        rw [if_neg hne] at hfound
        exact hfound
      · split
        case isTrue hdscs =>
          have hne : c.phase ≠ 0 := by omega
          obtain ⟨hwell, hin⟩ := foldl_found (fun d e hw hd => by
            rw [hdscs.1] at hd ⊢
            exact Db.found_dsc hw hd e) (entries (dscLen p) p) h.database hat.within
          have hfound :=
            orderly_found (o := o) h hat hwell hin (Db.lastOf_lt (entries (dscLen p) p) 0)
            (q := lastOf (entries (dscLen p) p) 0 < c.next) (by omega)
          rw [if_neg hne] at hfound
          exact hfound
        · exact h.opFail o _ _

theorem Orderly.sendRead (h : c.Orderly) (o : Op) : (c.sendRead o).Orderly := by
  unfold Conn.sendRead
  split
  · exact h.attSend (by decide) _
  · exact h.attSend (by decide) _

theorem orderly_readRx (h : c.Orderly) (p : Bytes) : (c.readRx o p).Orderly := by
  unfold readRx
  split
  · exact h
  · dsimp only
    generalize c.val ++ (p.drop 1).take (maxVal - c.val.length) = val
    have hval : Orderly { c with val := val } := h.same rfl
    split
    · exact hval.sendRead o
    · exact (hval.toClean.say o (.read c.addr o.req.handle val) nofun).opDone

theorem orderly_writeRx (h : c.Orderly) (p : Bytes) : (c.writeRx o p).Orderly := by
  unfold writeRx
  split
  · dsimp only
    generalize c.off + min (o.req.data.length - c.off) (c.mtu - 5) = off
    have hoff : Orderly { c with off := off } := h.same rfl
    split
    · exact hoff.attSend (by decide) _
    · exact hoff.attSend (by decide) _
  · split
    · exact h
    · exact (h.toClean.say o (.written c.addr o.req.handle) nofun).opDone

theorem orderly_errorRx (h : c.Orderly) (p : Bytes) : (c.errorRx o p).Orderly := by
  unfold errorRx
  split
  · exact (h.toClean.say o (.read c.addr o.req.handle c.val) nofun).opDone
  · exact h.toClean.opFail o _ _

theorem orderly_answerRx (h : c.Orderly) (p : Bytes) : (c.answerRx p).Orderly := by
  unfold answerRx
  split
  · exact h
  case h_2 o hcur =>
    split
    case h_1 hk => exact orderly_discRx h.toClean (h.work o hcur hk) p
    case h_2 =>
      split
      · exact orderly_errorRx h p
      · exact orderly_readRx h p
    case h_3 =>
      split
      · exact orderly_errorRx h p
      · exact orderly_writeRx h p

/-- **Any PDU of the device.** -/
theorem orderly_attRx (h : c.Orderly) (p : Bytes) : (c.attRx p).Orderly := by
  unfold attRx
  split
  · exact h
  · split
    · exact h
    · split
      · exact h.attSend (by decide) _
      · split
        · -- its own MTU exchange
          dsimp only
          split
          · refine Orderly.attSend ?_ (by decide) _
            exact h.same rfl
          · exact h.attSend (by decide) _
        · split
          · split
            · exact h
            · exact h.attSend (by decide) _
          · split
            · exact h.same rfl
            · split
              · refine Orderly.startOp ?_
                exact h.same rfl
              · exact orderly_answerRx h _

theorem orderly_attTimeout (h : c.Orderly) : c.attTimeout.Orderly := by
  unfold attTimeout
  split
  · exact h
  case h_2 o _ =>
    have hclose : Clean { c with closeNow := true } := h.toClean.of_eq rfl rfl rfl
    exact hclose.opFail o _ _

theorem orderly_encrypted (h : c.Orderly) : c.encrypted.Orderly := by
  unfold encrypted
  refine Orderly.startOp ?_
  dsimp only
  split
  · refine Orderly.attSend ?_ (by decide) _
    exact h.same rfl
  · exact h.same rfl

theorem orderly_connected (h : c.Orderly) (bonded : Bool) : (c.connected bonded).Orderly := by
  unfold connected
  dsimp only
  split
  · exact h.same rfl
  · refine Orderly.attSend ?_ (by decide) _
    exact h.same rfl

/-- **Each step of a connection.** -/
theorem orderly_moves (h : c.Orderly) (e : LinkEv) : (c.moves e).Orderly := by
  cases e with
  | begins | connecting | cancel | encrypting | close | closing => exact h.ite (h.same rfl)
  | connected bonded => exact h.ite (orderly_connected h bonded)
  | queue o => exact h.ite (Orderly.startOp (h.same rfl))
  | att p => exact h.ite (orderly_attRx (c := c.answered p) (h.same rfl) p)
  | mtuTimeout => exact h.ite (orderly_attRx h _)
  | attTimeout => exact h.ite (orderly_attTimeout h)
  | encrypted => exact h.ite (orderly_encrypted h)
  | free =>
    -- the place is as new, but for what was said
    refine ⟨⟨nofun, h.told, Nat.zero_le _, fun _ => rfl⟩, nofun⟩

/-- A connection that was never used. -/
theorem orderly_free : Orderly {} := ⟨⟨nofun, nofun, Nat.zero_le _, fun _ => rfl⟩, nofun⟩

end Conn

/-! ### The proxy -/

/-- Every connection of the proxy, in every run. -/
theorem orderly_after (l : List Ev) (i : Place) : ((Proxy.start.after l).conns i).Orderly := by
  have hstep : ∀ (w : Proxy) (e : Ev), (∀ i, (w.conns i).Orderly) →
      ∀ i, ((w.step e).conns i).Orderly := by
    intro w e hw j
    obtain ⟨m, hm⟩ := conns_step (w := w) e j
    rw [hm]
    exact Runs.invariant_all (I := Conn.Orderly) (fun _ e hc => Conn.orderly_moves hc e) (hw j) m
  exact Runs.invariant_all (I := fun w : Proxy => ∀ i, (w.conns i).Orderly)
    (fun w e hw => hstep w e hw) (fun _ => Conn.orderly_free) l i

/-- **The databases that are reported are well formed**, whatever the devices answer, and the
requests for them come to an end.  On every connection the discovery that is at work is inside the
tables, and the database at hand is well formed as well. -/
theorem discovery_wellFormed (l : List Ev) (i : Place) :
    let c := (Proxy.start.after l).conns i
    (∀ x ∈ c.said, ∀ d, Link.reported x = some d → d.WellFormed) ∧ c.asks ≤ maxAsks ∧
      (∀ d, c.db = some d → d.WellFormed) ∧
      ∀ o, c.cur = some o → o.kind = .discover → c.phase ≤ 2 ∧ c.database.Within c.phase c.idx := by
  intro c
  have h : c.Orderly := orderly_after l i
  refine ⟨h.told, h.asked, h.held, ?_⟩
  intro o ho hk
  have hat := h.work o ho hk
  exact ⟨hat.le, hat.within⟩

end Gatt
end Hassmic.Ble
