import Hassmic.Ble.Discovery

/-!
# A discovery covers every range

While a discovery is at work, the ranges before the one it is at are covered, and what is missing of
that one is the part behind the handle it asks from.  So each answer leaves less of it, and the
database is complete when no range is left.

## Main definitions

* `Rest` — what is missing of a range is the part from a handle on.
* `Behind` — the ranges before one are covered.
* `Inv` — what holds of a connection, for the exchanges of its discovery.

## Main results

* `Inv.moves` — each step of a connection keeps it.
* `reports_complete` — **only completely discovered databases are reported**, in every run in which
  the services are not asked for behind a discovery that failed.
* `reports_partial` — a run in which they are.
-/

namespace Hassmic.Ble
namespace Gatt

open List Option

/-! ### Ranges -/

section covered

variable {log log' : List Exch} {phase idx hi lo next : ℕ}

theorem Covered.mono (h : Covered log phase idx hi lo) (hsub : log ⊆ log') :
    Covered log' phase idx hi lo := by
  induction h with
  | past h => exact .past h
  | none hx h => exact .none (hsub hx) h
  | more hx _ ih => exact .more (hsub hx) ih

/-- What is missing of a range is the part from a handle on. -/
def Rest (log : List Exch) (phase idx hi lo next : ℕ) : Prop :=
  ∀ log', log ⊆ log' → Covered log' phase idx hi next → Covered log' phase idx hi lo

theorem Rest.refl (log : List Exch) (phase idx hi lo : ℕ) : Rest log phase idx hi lo lo :=
  fun _ _ h => h

/-- An answer ends a range. -/
theorem Rest.ends (h : Rest log phase idx hi lo next) {p : Bytes}
    (hends : Exch.ends ⟨phase, idx, next, hi, p⟩) :
    Covered (log ++ [⟨phase, idx, next, hi, p⟩]) phase idx hi lo :=
  h _ (subset_append_left _ _) (.none (by simp) hends)

/-- An answer leaves less of it. -/
theorem Rest.more (h : Rest log phase idx hi lo next) (p : Bytes) :
    Rest (log ++ [⟨phase, idx, next, hi, p⟩]) phase idx hi lo
      (Exch.last ⟨phase, idx, next, hi, p⟩ + 1) := by
  intro log' hsub hrest
  have hold : log ⊆ log' := List.Subset.trans (subset_append_left _ _) hsub
  exact h log' hold (.more (hsub (by simp)) hrest)

/-- Nothing is left of it. -/
theorem Rest.past (h : Rest log phase idx hi lo next) (hpast : hi < next) :
    Covered log phase idx hi lo :=
  h log (Subset.refl log) (.past hpast)

end covered

/-! ### Databases -/

/-- What a range goes by. -/
def Svc.range (s : Svc) : ℕ × ℕ := (s.start, s.last)

def Chr.range (c : Chr) : ℕ × ℕ × ℕ := (c.decl, c.handle, c.svc)

theorem modify_map {α β : Type*} (g : α → β) (f : α → α) (hf : ∀ a, g (f a) = g a) (l : List α)
    (i : ℕ) : (l.modify i f).map g = l.map g := by
  apply ext_getElem?
  intro j
  rw [getElem?_map, getElem?_map, getElem?_modify]
  cases l[j]? with
  | none => rfl
  | some a =>
    simp only [map_some]
    split
    · simp [hf]
    · rfl

namespace Db

variable {d d' : Db}

theorem lo_svc (h : d'.svc.map Svc.range = d.svc.map Svc.range) (i : ℕ) : d'.lo 1 i = d.lo 1 i := by
  have hget := congrArg (fun l => (l[i]?).map Prod.fst) h
  simp only [getElem?_map, Option.map_map] at hget
  change (d'.svc[i]?.map Svc.start).getD 0 = (d.svc[i]?.map Svc.start).getD 0
  exact congrArg (·.getD 0) hget

theorem hi_svc (h : d'.svc.map Svc.range = d.svc.map Svc.range) (i : ℕ) : d'.hi 1 i = d.hi 1 i := by
  have hget := congrArg (fun l => (l[i]?).map Prod.snd) h
  simp only [getElem?_map, Option.map_map] at hget
  change (d'.svc[i]?.map Svc.last).getD 0 = (d.svc[i]?.map Svc.last).getD 0
  exact congrArg (·.getD 0) hget

theorem length_svc (h : d'.svc.map Svc.range = d.svc.map Svc.range) :
    d'.svc.length = d.svc.length := by
  simpa using congrArg List.length h

theorem lo_chr (h : d'.chr.map Chr.range = d.chr.map Chr.range) (i : ℕ) : d'.lo 2 i = d.lo 2 i := by
  have hget := congrArg (fun l => (l[i]?).map fun r => r.2.1) h
  simp only [getElem?_map, Option.map_map] at hget
  change (d'.chr[i]?.map Chr.handle).getD 0 + 1 = (d.chr[i]?.map Chr.handle).getD 0 + 1
  exact congrArg (·.getD 0 + 1) hget

theorem length_chr (h : d'.chr.map Chr.range = d.chr.map Chr.range) :
    d'.chr.length = d.chr.length := by
  simpa using congrArg List.length h

theorem hi_chr (hs : d'.svc.map Svc.range = d.svc.map Svc.range)
    (h : d'.chr.map Chr.range = d.chr.map Chr.range) (i : ℕ) : d'.hi 2 i = d.hi 2 i := by
  have hsvc : ∀ k, Conn.svcEnd { db := some d' } k = Conn.svcEnd { db := some d } k := hi_svc hs
  have hget : ∀ k : ℕ, (d'.chr[k]?).map Chr.range = (d.chr[k]?).map Chr.range := by
    intro k
    have hk := congrArg (fun l => l[k]?) h
    simpa only [getElem?_map] using hk
  change Conn.chrEnd { db := some d' } i = Conn.chrEnd { db := some d } i
  unfold Conn.chrEnd
  have hi := hget i
  have hi' := hget (i + 1)
  dsimp only [Conn.database, getD_some]
  cases h1 : d'.chr[i]? with
  | none =>
    cases h2 : d.chr[i]? with
    | none => rfl
    | some b =>
      rw [h1, h2] at hi
      cases hi
  | some a =>
    cases h2 : d.chr[i]? with
    | none =>
      rw [h1, h2] at hi
      cases hi
    | some b =>
      rw [h1, h2] at hi
      have hab : a.range = b.range := some.inj hi
      have hsvcab : a.svc = b.svc := congrArg (fun r => r.2.2) hab
      cases h3 : d'.chr[i + 1]? with
      | none =>
        cases h4 : d.chr[i + 1]? with
        | none =>
          dsimp only
          rw [hsvcab, hsvc]
        | some b' =>
          rw [h3, h4] at hi'
          cases hi'
      | some a' =>
        cases h4 : d.chr[i + 1]? with
        | none =>
          rw [h3, h4] at hi'
          cases hi'
        | some b' =>
          rw [h3, h4] at hi'
          have hab' : a'.range = b'.range := some.inj hi'
          have hsvcab' : a'.svc = b'.svc := congrArg (fun r => r.2.2) hab'
          have hdecl : a'.decl = b'.decl := congrArg (fun r => r.1) hab'
          dsimp only
          rw [hsvcab, hsvcab', hdecl, hsvc]

end Db

/-- The ranges before one are covered. -/
def Behind (log : List Exch) (d : Db) : ℕ → ℕ → Prop
  | 0, _ => True
  | 1, idx =>
      Covered log 0 0 (d.hi 0 0) (d.lo 0 0) ∧
        ∀ i < idx, i < d.svc.length → Covered log 1 i (d.hi 1 i) (d.lo 1 i)
  | _, idx =>
      Covered log 0 0 (d.hi 0 0) (d.lo 0 0) ∧
        (∀ i < d.svc.length, Covered log 1 i (d.hi 1 i) (d.lo 1 i)) ∧
        ∀ i < idx, i < d.chr.length → Covered log 2 i (d.hi 2 i) (d.lo 2 i)

section behind

variable {log log' : List Exch} {d d' : Db} {phase idx : ℕ}

theorem Behind.mono (h : Behind log d phase idx) (hsub : log ⊆ log') : Behind log' d phase idx := by
  match phase, h with
  | 0, _ => trivial
  | 1, h => exact ⟨h.1.mono hsub, fun i hi hl => (h.2 i hi hl).mono hsub⟩
  | _ + 2, h =>
    exact ⟨h.1.mono hsub, fun i hl => (h.2.1 i hl).mono hsub, fun i hi hl =>
      (h.2.2 i hi hl).mono hsub⟩

/-- The ranges are those of the services, and in the last phase those of the characteristics. -/
theorem Behind.congr (h : Behind log d phase idx) (hle : phase ≤ 2)
    (hsvc : phase ≠ 0 → d'.svc.map Svc.range = d.svc.map Svc.range)
    (hchr : phase = 2 → d'.chr.map Chr.range = d.chr.map Chr.range) : Behind log d' phase idx := by
  obtain rfl | rfl | rfl : phase = 0 ∨ phase = 1 ∨ phase = 2 := by omega
  · trivial
  · have hs := hsvc (by decide)
    refine ⟨h.1, fun i hi hl => ?_⟩
    rw [Db.hi_svc hs, Db.lo_svc hs]
    exact h.2 i hi (Db.length_svc hs ▸ hl)
  · have hs := hsvc (by decide)
    have hc := hchr rfl
    refine ⟨h.1, fun i hl => ?_, fun i hi hl => ?_⟩
    · rw [Db.hi_svc hs, Db.lo_svc hs]
      exact h.2.1 i (Db.length_svc hs ▸ hl)
    · rw [Db.hi_chr hs hc, Db.lo_chr hc]
      exact h.2.2 i hi (Db.length_chr hc ▸ hl)

/-- All of the last phase. -/
theorem Behind.complete (h : Behind log d 2 idx) (hidx : d.chr.length ≤ idx) : Complete log d :=
  ⟨h.1, h.2.1, fun i hi => h.2.2 i (hi.trans_le hidx) hi⟩

/-- One range more of its phase. -/
theorem Behind.next (h : Behind log d phase idx) (hle : phase ≤ 2) (hpos : phase ≠ 0)
    (hcov : Covered log phase idx (d.hi phase idx) (d.lo phase idx)) :
    Behind log d phase (idx + 1) := by
  obtain rfl | rfl : phase = 1 ∨ phase = 2 := by omega
  · refine ⟨h.1, fun i hi hl => ?_⟩
    rcases Nat.lt_succ_iff_lt_or_eq.mp hi with hlt | rfl
    · exact h.2 i hlt hl
    · exact hcov
  · refine ⟨h.1, h.2.1, fun i hi hl => ?_⟩
    rcases Nat.lt_succ_iff_lt_or_eq.mp hi with hlt | rfl
    · exact h.2.2 i hlt hl
    · exact hcov

/-- All of the services: on to the characteristics. -/
theorem Behind.toChrs (h : Behind log d 1 idx) (hidx : d.svc.length ≤ idx) : Behind log d 2 0 :=
  ⟨h.1, fun i hl => h.2 i (hl.trans_le hidx) hl, fun i hi => absurd hi (Nat.not_lt_zero i)⟩

/-- The ranges that the discovery is at are those of the services and of the characteristics. -/
theorem range_congr (hle : phase ≤ 2)
    (hsvc : phase ≠ 0 → d'.svc.map Svc.range = d.svc.map Svc.range)
    (hchr : phase = 2 → d'.chr.map Chr.range = d.chr.map Chr.range) (i : ℕ) :
    d'.hi phase i = d.hi phase i ∧ d'.lo phase i = d.lo phase i := by
  obtain rfl | rfl | rfl : phase = 0 ∨ phase = 1 ∨ phase = 2 := by omega
  · exact ⟨rfl, rfl⟩
  · have hs := hsvc (by decide)
    exact ⟨Db.hi_svc hs i, Db.lo_svc hs i⟩
  · have hs := hsvc (by decide)
    have hc := hchr rfl
    exact ⟨Db.hi_chr hs hc i, Db.lo_chr hc i⟩

/-- The services: on to their characteristics. -/
theorem Behind.toSvcs (hcov : Covered log 0 0 (d.hi 0 0) (d.lo 0 0)) : Behind log d 1 0 :=
  ⟨hcov, fun i hi => absurd hi (Nat.not_lt_zero i)⟩

end behind

/-! ### What holds of a connection -/

/-- The discovery of a connection: what is behind it, and what is missing of the range it is at. -/
structure Walk (log : List Exch) (c : Conn) (begun : Prop) : Prop where
  le : c.phase ≤ 2
  zero : c.phase = 0 → c.idx = 0
  db : c.db.isSome = true
  behind : Behind log c.database c.phase c.idx
  rest : begun →
    Rest log c.phase c.idx (c.database.hi c.phase c.idx) (c.database.lo c.phase c.idx) c.next

/-- What holds of a connection whatever is at work, for the exchanges `log` of its discovery and the
answers behind the first `n`. -/
structure Base (log : List Exch) (broken : Bool) (n : ℕ) (c : Conn) : Prop where
  told : ∀ x ∈ c.said.drop n, ∀ d, Link.reported x = some d → Complete log d
  len : n ≤ c.said.length
  wait : broken = true → ∀ o ∈ c.cur.toList ++ c.ops, o.kind ≠ .discover
  blank : c.db = none → log = []
  early : c.state ≠ .up → c.state ≠ .closing → c.db = none ∧ c.cur = none
  sent : ∀ x ∈ log, x.pdu ∈ c.sent

/-- The connection takes requests. -/
def Conn.usable (c : Conn) : Prop := c.state = .up ∧ c.closeNow = false

/-- What holds between any two steps: a discovery that is at work has sent the request it waits for,
and a database is complete where none is. -/
structure Inv (log : List Exch) (broken : Bool) (n : ℕ) (c : Conn) :
    Prop extends Base log broken n c where
  work : ∀ o, c.cur = some o → o.kind = .discover →
    Walk log c True ∧ ∀ p, (c.exch p).pdu ∈ c.sent
  idle : (∀ o, c.cur = some o → o.kind ≠ .discover) → c.usable → broken = false →
    ∀ d, c.db = some d → Complete log d

section inv

variable {log : List Exch} {broken : Bool} {n : ℕ} {c c' : Conn} {o : Op}

theorem Base.of_eq (h : Base log broken n c) (hsaid : c'.said = c.said)
    (hops : ∀ o ∈ c'.cur.toList ++ c'.ops, o ∈ c.cur.toList ++ c.ops)
    (hdb : c'.db = none → c.db = none)
    (hearly : c'.state ≠ .up → c'.state ≠ .closing → c'.db = none ∧ c'.cur = none)
    (hsent : c.sent ⊆ c'.sent) : Base log broken n c' where
  told := by rw [hsaid]; exact h.told
  len := by rw [hsaid]; exact h.len
  wait := fun hb o ho => h.wait hb o (hops o ho)
  blank := fun hd => h.blank (hdb hd)
  early := hearly
  sent := fun x hx => hsent (h.sent x hx)

/-- An answer is given, and a database that is reported is complete. -/
theorem Base.say (h : Base log broken n c) (o : Op) (r : Reply)
    (hr : ∀ d, Link.reported ⟨o.req, r⟩ = some d → Complete log d) :
    Base log broken n (c.say o r) where
  told := by
    intro x hx d hd
    change x ∈ (c.said ++ [(⟨o.req, r⟩ : Said)]).drop n at hx
    rw [drop_append_of_le_length h.len] at hx
    rcases mem_append.mp hx with hold | hnew
    · exact h.told x hold d hd
    · rw [mem_singleton.mp hnew] at hd
      exact hr d hd
  len := by
    change n ≤ (c.said ++ [(⟨o.req, r⟩ : Said)]).length
    rw [length_append]
    exact h.len.trans (Nat.le_add_right _ _)
  wait := h.wait
  blank := h.blank
  early := h.early
  sent := h.sent

/-- The queue is looked at, with nothing at work. -/
theorem inv_startOps {ops : List Op} (hops : c.ops = ops) (h : Base log broken n c)
    (hcur : c.cur = none)
    (hidle : c.usable → broken = false → ∀ d, c.db = some d → Complete log d) :
    Inv log broken n (Conn.startOps ops c) := by
  induction ops generalizing c with
  | nil =>
    refine ⟨h, fun o ho => ?_, fun _ => hidle⟩
    cases hcur.symm.trans ho
  | cons o ops ih =>
    unfold Conn.startOps
    split
    case isFalse => exact ⟨h, (fun o ho => by cases hcur.symm.trans ho), fun _ => hidle⟩
    case isTrue hs =>
      have husable : c.usable := by
        simp only [Conn.starts, Bool.and_eq_true, decide_eq_true_eq, Bool.not_eq_true'] at hs
        exact ⟨hs.1.1, hs.1.2⟩
      have htake : ∀ o' ∈ o :: ops, o' ∈ c.cur.toList ++ c.ops := by
        intro o' ho'
        rw [hcur, hops]
        simpa using ho'
      have hup : c.state = .up := husable.1
      -- the request is at work, and nothing of it was sent yet
      have hbase : Base log broken n { c with ops := ops, cur := some o, val := [], off := 0 } :=
        h.of_eq rfl (fun o' ho' => htake o' (by simpa using ho')) id
          (fun hne => absurd hup hne) (Subset.refl _)
      have hsend : ∀ (b : UInt8) (rest : Bytes), o.kind ≠ .discover →
          Inv log broken n
            (Conn.attSend { c with ops := ops, cur := some o, val := [], off := 0 } b rest) := by
        intro b rest hk
        refine ⟨hbase.of_eq rfl (fun _ ho' => ho') id (fun hne => absurd hup hne)
          (subset_append_left _ _), fun o' ho' hk' => ?_, fun _ hu hb d hd => hidle hu hb d hd⟩
        obtain rfl := some.inj ho'
        exact absurd hk' hk
      have hrest : ∀ {c₁ : Conn}, c₁.ops = ops → c₁.cur = none → Base log broken n c₁ →
          c₁.db = c.db → Inv log broken n (Conn.startOps ops c₁) := by
        intro c₁ h₁ h₂ h₃ h₄
        exact ih h₁ h₃ h₂ fun _ hb d hd => hidle husable hb d (h₄ ▸ hd)
      dsimp only
      split
      case h_1 hk =>
        unfold Conn.sendRead
        split
        · exact hsend _ _ (by rw [hk]; decide)
        · exact hsend _ _ (by rw [hk]; decide)
      case h_2 hk =>
        split
        · refine hrest rfl rfl ?_ rfl
          refine hbase.of_eq rfl (fun o' ho' => ?_) id (fun hne => absurd hup hne)
            (subset_append_left _ _)
          exact mem_append_right _ ho'
        · split
          · exact hsend _ _ (by rw [hk]; decide)
          · exact hsend _ _ (by rw [hk]; decide)
      case h_3 hk =>
        have hwhole : broken = false := by
          by_contra hb
          exact h.wait (by simpa using hb) o (htake o mem_cons_self) hk
        split
        case h_1 db hdb =>
          -- known already
          have hcomplete : Complete log db := hidle husable hwhole db hdb
          refine hrest rfl rfl ?_ rfl
          have hsaid := hbase.say o (.services c.addr db) fun d hd => by
            obtain rfl := some.inj hd
            exact hcomplete
          refine hsaid.of_eq rfl (fun o' ho' => ?_) id (fun hne => absurd hup hne) (Subset.refl _)
          exact mem_append_right _ ho'
        case h_2 hdb =>
          -- from the start
          have hlog : log = [] := h.blank hdb
          subst hlog
          refine ⟨hbase.of_eq rfl (fun _ ho' => ho') (fun _ => hdb) (fun hne => absurd hup hne)
            (subset_append_left _ _),
            fun o' _ _ => ⟨⟨Nat.zero_le 2, fun _ => rfl, rfl, trivial, ?_⟩, ?_⟩,
            fun hno => absurd hk (hno o rfl)⟩
          · exact fun _ => Rest.refl _ _ _ _ _
          · intro p
            exact mem_append_right _ (mem_singleton.mpr rfl)

theorem inv_startOp (h : Base log broken n c) (hcur : c.cur = none)
    (hidle : c.usable → broken = false → ∀ d, c.db = some d → Complete log d) :
    Inv log broken n c.startOp := by
  unfold Conn.startOp
  rw [hcur]
  exact inv_startOps rfl h hcur hidle

theorem inv_opDone (h : Base log broken n c)
    (hidle : c.usable → broken = false → ∀ d, c.db = some d → Complete log d) :
    Inv log broken n c.opDone := by
  refine inv_startOp ?_ rfl hidle
  exact h.of_eq rfl (fun o ho => mem_append_right _ ho) id
    (fun h₁ h₂ => ⟨(h.early h₁ h₂).1, rfl⟩) (Subset.refl _)

theorem inv_opFail (h : Base log broken n c) (o : Op) (handle err : ℕ)
    (hidle : c.usable → broken = false → ∀ d, c.db = some d → Complete log d) :
    Inv log broken n (c.opFail o handle err) :=
  inv_opDone (h.say o _ nofun) hidle

/-! ### The next request of a discovery -/

theorem database_eq {d : Db} (h : c.db = some d) : c.database = d := by
  rw [Conn.database, h, getD_some]

/-- The discovery asks for the range that it is at. -/
theorem inv_asks (h : Base log broken n c) (hcur : c.cur = some o) (hk : o.kind = .discover)
    (hw : Walk log c True) {b : UInt8} {rest : Bytes} (hpdu : ∀ p, (c.exch p).pdu = b :: rest) :
    Inv log broken n (c.attSend b rest) := by
  refine ⟨h.of_eq rfl (fun _ ho => ho) id h.early (subset_append_left _ _), fun o' _ _ => ⟨?_, ?_⟩,
    fun hno => absurd hk (hno o hcur)⟩
  · exact ⟨hw.le, hw.zero, hw.db, hw.behind, hw.rest⟩
  · intro p
    exact mem_append_right _ (mem_singleton.mpr (hpdu p))

/-- The discovery stays where it is, with what is left of its range, if anything is said of it. -/
theorem Walk.imp {begun begun' : Prop} (h : Walk log c begun) (himp : begun' → begun) :
    Walk log c begun' :=
  ⟨h.le, h.zero, h.db, h.behind, fun hb => h.rest (himp hb)⟩

/-- A range is begun. -/
theorem Walk.enter {begun : Prop} (h : Walk log c begun) {d' : Db}
    (hsvc : c.phase ≠ 0 → d'.svc.map Svc.range = c.database.svc.map Svc.range)
    (hchr : c.phase = 2 → d'.chr.map Chr.range = c.database.chr.map Chr.range) {next : ℕ}
    (hnext : c.database.lo c.phase c.idx = next) :
    Walk log { c with db := some d', next := next } True where
  le := h.le
  zero := h.zero
  db := rfl
  behind := h.behind.congr h.le hsvc hchr
  rest := fun _ => by
    show Rest log c.phase c.idx _ (d'.lo c.phase c.idx) next
    rw [(range_congr h.le hsvc hchr c.idx).2, hnext]
    exact Rest.refl _ _ _ _ _

/-- The range that it is at is covered: on to the next one of its phase. -/
theorem Walk.next {begun : Prop} (h : Walk log c begun) (hpos : c.phase ≠ 0)
    (hcov : Covered log c.phase c.idx (c.database.hi c.phase c.idx) (c.database.lo c.phase c.idx)) :
    Walk log { c with idx := c.idx + 1, next := 0 } (0 ≠ 0) :=
  ⟨h.le, fun hz => absurd hz hpos, h.db, h.behind.next h.le hpos hcov, absurd rfl⟩

/-- What the database holds changes, the discovery stays where it is. -/
theorem Base.toDb (h : Base log broken n c) (hdb : c.db.isSome = true) (d : Db) :
    Base log broken n { c with db := some d } := by
  refine h.of_eq rfl (fun _ ho => ho) nofun (fun h₁ h₂ => ?_) (Subset.refl _)
  exact absurd (h.early h₁ h₂).1 (isSome_iff_ne_none.mp hdb)

/-- The discovery goes elsewhere. -/
theorem Base.go (h : Base log broken n c) (phase idx next : ℕ) :
    Base log broken n { c with phase := phase, idx := idx, next := next } :=
  h.of_eq rfl (fun _ ho => ho) id h.early (Subset.refl _)

theorem walk_enterChr (hphase : c.phase = 2) (hw : Walk log c (c.next ≠ 0)) :
    Walk log c.enterChr True ∧ c.enterChr.database.chr.length = c.database.chr.length ∧
      c.enterChr.idx = c.idx ∧ c.enterChr.phase = 2 := by
  unfold Conn.enterChr
  dsimp only
  split
  case isFalse hnext => exact ⟨hw.imp fun _ => hnext, rfl, rfl, hphase⟩
  case isTrue =>
    refine ⟨hw.enter ?_ ?_ ?_, by simp [Conn.database], rfl, hphase⟩
    · exact fun _ => rfl
    · intro _
      apply modify_map
      exact fun _ => rfl
    · rw [hphase]
      rfl

theorem base_enterChr (h : Base log broken n c) (hdb : c.db.isSome = true) :
    Base log broken n c.enterChr := by
  unfold Conn.enterChr
  dsimp only
  split
  · exact (h.toDb hdb _).go c.phase c.idx _
  · exact h

/-- Descriptors: the characteristics that are left. -/
theorem inv_discChrs (h : Base log broken n c) (hcur : c.cur = some o) (hk : o.kind = .discover)
    (hphase : c.phase = 2) (hw : Walk log c (c.next ≠ 0)) {k : ℕ}
    (hlen : c.database.chr.length - c.idx = k) : Inv log broken n (Conn.discChrs o k c) := by
  induction k generalizing c with
  | zero =>
    have hcomplete : Complete log c.database := by
      have hbehind := hw.behind
      rw [hphase] at hbehind
      exact hbehind.complete (by omega)
    refine inv_opDone (h.say o _ fun d hd => ?_) fun _ _ d hd => ?_
    · obtain rfl := some.inj hd
      exact hcomplete
    · rw [← database_eq hd]
      exact hcomplete
  | succ k ih =>
    obtain ⟨hw₁, hlen₁, hidx₁, hphase₁⟩ := walk_enterChr hphase hw
    have hbase := base_enterChr h hw.db
    have hcur₁ : c.enterChr.cur = some o := by
      unfold Conn.enterChr
      dsimp only
      split <;> exact hcur
    unfold Conn.discChrs
    dsimp only
    generalize c.enterChr = c₁ at *
    split
    case isTrue hpast =>
      have hcov := (hw₁.rest trivial).past (by rw [hphase₁]; exact hpast)
      refine ih (hbase.go c₁.phase (c₁.idx + 1) 0) hcur₁ hphase₁
        (hw₁.next (by rw [hphase₁]; exact two_ne_zero) hcov) ?_
      change c₁.database.chr.length - (c₁.idx + 1) = k
      omega
    case isFalse =>
      refine inv_asks hbase hcur₁ hk hw₁ fun p => ?_
      simp only [Conn.exch, Exch.pdu, hphase₁]
      rfl

theorem walk_enterSvc (hphase : c.phase = 1) (hw : Walk log c (c.next ≠ 0)) :
    Walk log c.enterSvc True ∧ c.enterSvc.database.svc.length = c.database.svc.length ∧
      c.enterSvc.idx = c.idx ∧ c.enterSvc.phase = 1 := by
  unfold Conn.enterSvc
  dsimp only
  split
  case isFalse hnext => exact ⟨hw.imp fun _ => hnext, rfl, rfl, hphase⟩
  case isTrue =>
    refine ⟨hw.enter ?_ ?_ ?_, by simp [Conn.database], rfl, hphase⟩
    · intro _
      apply modify_map
      exact fun _ => rfl
    · exact fun htwo => nomatch hphase.symm.trans htwo
    · rw [hphase]
      rfl

theorem base_enterSvc (h : Base log broken n c) (hdb : c.db.isSome = true) :
    Base log broken n c.enterSvc := by
  unfold Conn.enterSvc
  dsimp only
  split
  · exact (h.toDb hdb _).go c.phase c.idx _
  · exact h

/-- Characteristics: the services that are left. -/
theorem inv_discSvcs (h : Base log broken n c) (hcur : c.cur = some o) (hk : o.kind = .discover)
    (hphase : c.phase = 1) (hw : Walk log c (c.next ≠ 0)) {k : ℕ}
    (hlen : c.database.svc.length - c.idx = k) : Inv log broken n (Conn.discSvcs o k c) := by
  induction k generalizing c with
  | zero =>
    have hbehind := hw.behind
    rw [hphase] at hbehind
    unfold Conn.discSvcs
    refine inv_discChrs (c := { c with phase := 2, idx := 0, next := 0 }) ?_ hcur hk rfl ?_ rfl
    · exact h.of_eq rfl (fun _ ho => ho) id h.early (Subset.refl _)
    · exact ⟨le_rfl, fun hz => absurd hz two_ne_zero, hw.db, hbehind.toChrs (by omega),
        fun hne => absurd rfl hne⟩
  | succ k ih =>
    obtain ⟨hw₁, hlen₁, hidx₁, hphase₁⟩ := walk_enterSvc hphase hw
    have hbase := base_enterSvc h hw.db
    have hcur₁ : c.enterSvc.cur = some o := by
      unfold Conn.enterSvc
      dsimp only
      split <;> exact hcur
    unfold Conn.discSvcs
    dsimp only
    generalize c.enterSvc = c₁ at *
    split
    case isTrue hpast =>
      have hcov := (hw₁.rest trivial).past (by rw [hphase₁]; exact hpast)
      refine ih (hbase.go c₁.phase (c₁.idx + 1) 0) hcur₁ hphase₁
        (hw₁.next (by rw [hphase₁]; exact one_ne_zero) hcov) ?_
      change c₁.database.svc.length - (c₁.idx + 1) = k
      omega
    case isFalse =>
      refine inv_asks hbase hcur₁ hk hw₁ fun p => ?_
      simp only [Conn.exch, Exch.pdu, hphase₁]
      rfl

/-- `disc_next`, whatever is next. -/
theorem inv_discNext (h : Base log broken n c) (hcur : c.cur = some o) (hk : o.kind = .discover)
    (hw : Walk log c (c.next ≠ 0)) (hzero : c.phase = 0 → c.next ≠ 0) :
    Inv log broken n (c.discNext o) := by
  have hle := hw.le
  unfold Conn.discNext
  obtain hphase | hphase | hphase : c.phase = 0 ∨ c.phase = 1 ∨ c.phase = 2 := by omega
  · rw [hphase]
    refine inv_asks h hcur hk (hw.imp fun _ => hzero hphase) fun p => ?_
    simp only [Conn.exch, Exch.pdu, hphase]
    rfl
  · rw [hphase]
    exact inv_discSvcs h hcur hk hphase hw rfl
  · rw [hphase]
    exact inv_discChrs h hcur hk hphase hw rfl

/-! ### Answers to a discovery -/

theorem Complete.mono {log' : List Exch} {d : Db} (h : Complete log d) (hsub : log ⊆ log') :
    Complete log' d :=
  ⟨h.services.mono hsub, fun i hi => (h.characteristics i hi).mono hsub,
    fun i hi => (h.descriptors i hi).mono hsub⟩

/-- An exchange more. -/
theorem Base.exch (h : Base log broken n c) (hdb : c.db.isSome = true) {p : Bytes}
    (hpdu : (c.exch p).pdu ∈ c.sent) : Base (log ++ [c.exch p]) broken n c where
  told := fun x hx d hd => (h.told x hx d hd).mono (subset_append_left _ _)
  len := h.len
  wait := h.wait
  blank := fun hnone => absurd hnone (isSome_iff_ne_none.mp hdb)
  early := h.early
  sent := by
    intro x hx
    rcases mem_append.mp hx with hold | hnew
    · exact h.sent x hold
    · rw [mem_singleton.mp hnew]
      exact hpdu

theorem svc_addChr (d : Db) (i : ℕ) (e : Bytes) :
    (d.addChr i e).svc.map Svc.range = d.svc.map Svc.range := by
  unfold Db.addChr
  split
  · rfl
  · apply modify_map
    exact fun _ => rfl

theorem svc_addDsc (d : Db) (i : ℕ) (e : Bytes) : (d.addDsc i e).svc = d.svc := by
  unfold Db.addDsc
  split <;> rfl

theorem chr_addDsc (d : Db) (i : ℕ) (e : Bytes) :
    (d.addDsc i e).chr.map Chr.range = d.chr.map Chr.range := by
  unfold Db.addDsc
  split
  · rfl
  · apply modify_map
    exact fun _ => rfl

/-- Whatever each entry keeps, all of them keep. -/
theorem foldl_keeps {β : Type*} (g : Db → β) (f : Db → Bytes → Db) (hf : ∀ d e, g (f d e) = g d)
    (es : List Bytes) (d : Db) : g (es.foldl f d) = g d := by
  induction es generalizing d with
  | nil => rfl
  | cons e es ih => rw [foldl_cons, ih, hf]

/-- The range that the discovery is at is covered: on to the next one. -/
theorem inv_covered (h : Base log broken n c) (hcur : c.cur = some o) (hk : o.kind = .discover)
    (hw : Walk log c False)
    (hcov : Covered log c.phase c.idx (c.database.hi c.phase c.idx) (c.database.lo c.phase c.idx)) :
    Inv log broken n
      (if c.phase = 0 then Conn.discNext { c with phase := 1, idx := 0, next := 0 } o
        else Conn.discNext { c with idx := c.idx + 1, next := 0 } o) := by
  split
  case isTrue hphase =>
    rw [hphase, hw.zero hphase] at hcov
    exact inv_discNext (h.go 1 0 0) hcur hk ⟨Nat.le_succ 1, nofun, hw.db, .toSvcs hcov,
      absurd rfl⟩ nofun
  case isFalse hphase =>
    exact inv_discNext (h.go c.phase (c.idx + 1) 0) hcur hk (hw.next hphase hcov) fun hz =>
      absurd hz hphase

/-- Something of it is left: the rest is asked for. -/
theorem inv_goesOn (h : Base log broken n c) (hcur : c.cur = some o) (hk : o.kind = .discover)
    (hw : Walk log c False) {last : ℕ}
    (hrest : Rest log c.phase c.idx (c.database.hi c.phase c.idx) (c.database.lo c.phase c.idx)
      (last + 1)) : Inv log broken n (Conn.discNext { c with next := last + 1 } o) :=
  inv_discNext (h.go c.phase c.idx (last + 1)) hcur hk
    ⟨hw.le, hw.zero, hw.db, hw.behind, fun _ => hrest⟩
    fun _ => Nat.succ_ne_zero last

/-- A list came, and went into the database: the range is covered by it, or the rest is asked
for. -/
theorem inv_found (h : Inv log broken n c) (hcur : c.cur = some o) (hk : o.kind = .discover)
    (p : Bytes) (d' : Db) (hsvc : c.phase ≠ 0 → d'.svc.map Svc.range = c.database.svc.map Svc.range)
    (hchr : c.phase = 2 → d'.chr.map Chr.range = c.database.chr.map Chr.range) {q : Prop}
    [Decidable q]
    (hdone : q → (c.exch p).last < c.next ∨ c.database.hi c.phase c.idx < (c.exch p).last + 1) :
    Inv (log ++ [c.exch p]) broken n
      (if q then
        if c.phase = 0 then
          Conn.discNext { c with db := some d', phase := 1, idx := 0, next := 0 } o
        else Conn.discNext { c with db := some d', idx := c.idx + 1, next := 0 } o
      else Conn.discNext { c with db := some d', next := (c.exch p).last + 1 } o) := by
  obtain ⟨hw, hpdu⟩ := h.work o hcur hk
  have hbase := (h.toBase.exch hw.db (hpdu p)).toDb hw.db d'
  have hw' : Walk (log ++ [c.exch p]) { c with db := some d' } False :=
    ⟨hw.le, hw.zero, rfl, (hw.behind.mono (subset_append_left log [c.exch p])).congr hw.le hsvc
      hchr, False.elim⟩
  obtain ⟨hhi, hlo⟩ := range_congr hw.le hsvc hchr c.idx
  have hrest : Rest (log ++ [c.exch p]) c.phase c.idx (c.database.hi c.phase c.idx)
      (c.database.lo c.phase c.idx) ((c.exch p).last + 1) := (hw.rest trivial).more p
  split
  case isTrue hd =>
    have hcov : Covered (log ++ [c.exch p]) c.phase c.idx (c.database.hi c.phase c.idx)
        (c.database.lo c.phase c.idx) := by
      rcases hdone hd with hlt | hpast
      · exact (hw.rest trivial).ends (.inr hlt)
      · exact hrest.past hpast
    rw [← hhi, ← hlo] at hcov
    exact inv_covered hbase hcur hk hw' hcov
  case isFalse =>
    rw [← hhi, ← hlo] at hrest
    exact inv_goesOn hbase hcur hk hw' hrest

/-- An answer that the discovery goes on with. -/
theorem inv_discRx (h : Inv log broken n c) (hcur : c.cur = some o) (hk : o.kind = .discover)
    {p : Bytes} (hacc : c.accepts p = true) :
    Inv (log ++ [c.exch p]) broken n (c.discRx o p) := by
  obtain ⟨hw, hpdu⟩ := h.work o hcur hk
  unfold Conn.accepts at hacc
  unfold Conn.discRx
  split at hacc
  case isTrue herr =>
    -- nothing more is there
    have hbase := h.toBase.exch hw.db (hpdu p)
    have hw' : Walk (log ++ [c.exch p]) c False :=
      ⟨hw.le, hw.zero, hw.db, hw.behind.mono (subset_append_left log [c.exch p]), False.elim⟩
    simp only [Bool.and_eq_true, decide_eq_true_eq] at hacc
    rw [if_pos herr, if_neg (by simp [hacc.2]; omega)]
    exact inv_covered hbase hcur hk hw' ((hw.rest trivial).ends (.inl herr))
  case isFalse herr =>
    rw [if_neg herr]
    simp only [Bool.or_eq_true, Bool.and_eq_true, decide_eq_true_eq] at hacc
    rcases hacc with (hacc | hacc) | hacc
    · -- services: their ranges are not yet asked for
      obtain ⟨⟨⟨hphase, hop⟩, hlen⟩, hel⟩ := hacc
      have hlast : (c.exch p).last = lastOf (entries (byteAt p 1).toNat p) 2 := by
        simp only [Exch.last, Conn.exch, hphase]
      have hfound := inv_found h hcur hk p
        ((entries (byteAt p 1).toNat p).foldl Db.addSvc c.database)
        (q := 0xffff ≤ lastOf (entries (byteAt p 1).toNat p) 2 ∨
          lastOf (entries (byteAt p 1).toNat p) 2 < c.next)
        (fun hne => absurd hphase hne) (fun htwo => nomatch hphase.symm.trans htwo) (by
          rw [hlast, hphase]
          rintro (hfull | hlt)
          · exact .inr (Nat.lt_succ_of_le hfull)
          · exact .inl hlt)
      rw [if_pos ⟨hphase, hop, hlen, hel⟩]
      rw [if_pos hphase, hlast] at hfound
      exact hfound
    · -- characteristics: the services stay
      obtain ⟨⟨⟨hphase, hop⟩, hlen⟩, hel⟩ := hacc
      have hlast : (c.exch p).last = lastOf (entries (byteAt p 1).toNat p) 0 := by
        simp only [Exch.last, Conn.exch, hphase]
      have hne : c.phase ≠ 0 := by rw [hphase]; exact Nat.one_ne_zero
      have hfound := inv_found h hcur hk p
        ((entries (byteAt p 1).toNat p).foldl (fun d e => d.addChr c.idx e) c.database)
        (q := lastOf (entries (byteAt p 1).toNat p) 0 < c.next)
        (fun _ => foldl_keeps (fun d => d.svc.map Svc.range)
          _ (fun d e => svc_addChr d c.idx e) _ _)
        (fun htwo => nomatch hphase.symm.trans htwo) (fun hlt => .inl (hlast ▸ hlt))
      rw [if_neg (fun hz => hne hz.1), if_pos ⟨hphase, hop, hlen, hel⟩]
      rw [if_neg hne, hlast] at hfound
      exact hfound
    · -- descriptors: the services and the characteristics stay
      obtain ⟨⟨hphase, hop⟩, hlen⟩ := hacc
      have hlast : (c.exch p).last = lastOf (entries (dscLen p) p) 0 := by
        simp only [Exch.last, Conn.exch, hphase]
      have hne : c.phase ≠ 0 := by rw [hphase]; exact Nat.succ_ne_zero 1
      have hne' : c.phase ≠ 1 := by rw [hphase]; decide
      have hfound := inv_found h hcur hk p
        ((entries (dscLen p) p).foldl (fun d e => d.addDsc c.idx e) c.database)
        (q := lastOf (entries (dscLen p) p) 0 < c.next)
        (fun _ => foldl_keeps (fun d => d.svc.map Svc.range) _
          (fun d e => congrArg (List.map Svc.range) (svc_addDsc d c.idx e)) _ _)
        (fun _ => foldl_keeps (fun d => d.chr.map Chr.range)
          _ (fun d e => chr_addDsc d c.idx e) _ _)
        (fun hlt => .inl (hlast ▸ hlt))
      rw [if_neg (fun hz => hne hz.1), if_neg (fun hz => hne' hz.1), if_pos ⟨hphase, hop, hlen⟩]
      rw [if_neg hne, hlast] at hfound
      exact hfound

/-- An answer that fails it: what was found stays, and counts for nothing. -/
theorem inv_fails (h : Inv log broken n c) (hn : n = c.said.length) (hcur : c.cur = some o)
    (hk : o.kind = .discover) {p : Bytes} (hacc : c.accepts p = false)
    (hops : ∀ o ∈ c.ops, o.kind ≠ .discover) : Inv [] true n (c.discRx o p) := by
  obtain ⟨hw, -⟩ := h.work o hcur hk
  have hfail : ∀ err : ℕ, Inv [] true n (c.opFail o 0 err) := by
    intro err
    have hbase : Base [] true n { c.say o (.error c.addr 0 err) with cur := none } := by
      have hsaid := h.toBase.say o (.error c.addr 0 err) nofun
      refine ⟨fun x hx d hd => ?_, hsaid.len, fun _ o' ho' => hops o' ho', fun _ => rfl,
        fun h₁ h₂ => ⟨(h.early h₁ h₂).1, rfl⟩, nofun⟩
      -- the only answer that is new is the error
      have hx' : x ∈ (c.said ++ [(⟨o.req, .error c.addr 0 err⟩ : Said)]).drop n := hx
      rw [hn, drop_left, mem_singleton] at hx'
      rw [hx'] at hd
      exact nomatch hd
    exact inv_startOp hbase rfl fun _ => nofun
  unfold Conn.accepts at hacc
  unfold Conn.discRx
  split at hacc
  case isTrue herr =>
    rw [if_pos herr, if_pos]
    · exact hfail _
    · by_contra hno
      simp only [not_or, not_lt, not_not] at hno
      simp [hno.1, hno.2] at hacc
  case isFalse herr =>
    simp only [Bool.or_eq_false_iff, Bool.and_eq_false_iff, decide_eq_false_iff_not] at hacc
    rw [if_neg herr, if_neg, if_neg, if_neg]
    · exact hfail _
    · tauto
    · tauto
    · tauto

/-! ### Each step -/

/-- What a walk goes by. -/
def Conn.walked (c : Conn) := (c.said, c.cur, c.ops, c.db, c.phase, c.idx, c.next)

/-- What the discovery goes by stays. -/
theorem Inv.of_eq (h : Inv log broken n c) (heq : c'.walked = c.walked)
    (huse : c'.usable → c.usable)
    (hearly : c'.state ≠ .up → c'.state ≠ .closing → c'.db = none ∧ c'.cur = none)
    (hsent : c.sent ⊆ c'.sent) : Inv log broken n c' := by
  simp only [Conn.walked, Prod.mk.injEq] at heq
  obtain ⟨hsaid, hcur, hops, hdb, hphase, hidx, hnext⟩ := heq
  have hdata : c'.database = c.database := by rw [Conn.database, Conn.database, hdb]
  refine ⟨?_, fun o ho hk => ?_, fun hno hu hb d hd => ?_⟩
  · refine h.toBase.of_eq hsaid (fun o ho => ?_) (fun hd => hdb ▸ hd) hearly hsent
    rw [hcur, hops] at ho
    exact ho
  · obtain ⟨hw, hpdu⟩ := h.work o (hcur ▸ ho) hk
    refine ⟨⟨hphase ▸ hw.le, ?_, hdb ▸ hw.db, ?_, ?_⟩, fun p => ?_⟩
    · rw [hphase, hidx]
      exact hw.zero
    · rw [hphase, hidx, hdata]
      exact hw.behind
    · rw [hphase, hidx, hnext, hdata]
      exact hw.rest
    · have hexch : c'.exch p = c.exch p := by
        rw [Conn.exch, Conn.exch, hphase, hidx, hnext, hdata]
      rw [hexch]
      exact hsent (hpdu p)
  · exact h.idle (fun o ho => hno o (hcur ▸ ho)) (huse hu) hb d (hdb ▸ hd)

/-- Something else is sent. -/
theorem Inv.attSend (h : Inv log broken n c) (b : UInt8) (rest : Bytes) :
    Inv log broken n (c.attSend b rest) :=
  h.of_eq rfl id h.early (subset_append_left _ _)

/-- The queue is looked at, whatever is at work. -/
theorem Inv.startOp (h : Inv log broken n c) : Inv log broken n c.startOp := by
  rcases eq_none_or_eq_some c.cur with hcur | ⟨o, hcur⟩
  · refine inv_startOp h.toBase hcur (h.idle fun o ho => ?_)
    exact nomatch hcur.symm.trans ho
  · unfold Conn.startOp
    rw [hcur]
    exact h

/-- Something else than a discovery is at work. -/
theorem Inv.other (h : Inv log broken n c) (hcur : c.cur = some o) (hk : o.kind ≠ .discover) :
    c.usable → broken = false → ∀ d, c.db = some d → Complete log d := by
  refine h.idle fun o' ho' => ?_
  rw [← some.inj (hcur.symm.trans ho')]
  exact hk

theorem inv_sendRead (h : Inv log broken n c) (o : Op) : Inv log broken n (c.sendRead o) := by
  unfold Conn.sendRead
  split
  · exact h.attSend _ _
  · exact h.attSend _ _

theorem inv_readRx (h : Inv log broken n c) (hcur : c.cur = some o) (hk : o.kind ≠ .discover)
    (p : Bytes) : Inv log broken n (c.readRx o p) := by
  unfold Conn.readRx
  split
  · exact h
  · dsimp only
    generalize c.val ++ (p.drop 1).take (Conn.maxVal - c.val.length) = val
    have hval : Inv log broken n { c with val := val } :=
      h.of_eq rfl id h.early (Subset.refl _)
    split
    · exact inv_sendRead hval o
    · exact inv_opDone (hval.toBase.say o _ nofun) (h.other hcur hk)

theorem inv_writeRx (h : Inv log broken n c) (hcur : c.cur = some o) (hk : o.kind ≠ .discover)
    (p : Bytes) : Inv log broken n (c.writeRx o p) := by
  unfold Conn.writeRx
  split
  · dsimp only
    generalize c.off + min (o.req.data.length - c.off) (c.mtu - 5) = off
    have hoff : Inv log broken n { c with off := off } :=
      h.of_eq rfl id h.early (Subset.refl _)
    split
    · exact hoff.attSend _ _
    · exact hoff.attSend _ _
  · split
    · exact h
    · exact inv_opDone (h.toBase.say o _ nofun) (h.other hcur hk)

theorem inv_errorRx (h : Inv log broken n c) (hcur : c.cur = some o) (hk : o.kind ≠ .discover)
    (p : Bytes) : Inv log broken n (c.errorRx o p) := by
  unfold Conn.errorRx
  split
  · exact inv_opDone (h.toBase.say o _ nofun) (h.other hcur hk)
  · exact inv_opFail h.toBase o _ _ (h.other hcur hk)

/-- A PDU that is taken for an answer to a discovery goes to it. -/
theorem attRx_heard (hcur : c.cur = some o) (hk : o.kind = .discover) {p : Bytes}
    (hp : c.heard p = true) : c.attRx p = c.discRx o p := by
  simp only [Conn.heard, Conn.takes, hcur, hk, OpKind.takes, Bool.and_true, Bool.and_eq_true,
    decide_eq_true_eq, ne_eq, Bool.or_eq_true, any_some] at hp
  obtain ⟨⟨⟨⟨⟨hne, hnotify⟩, hind⟩, hodd⟩, hmtu⟩, -⟩ := hp
  cases p with
  | nil => exact absurd rfl hne
  | cons b rest =>
    have hb : byteAt (b :: rest) 0 = b := rfl
    rw [hb] at hnotify hind hodd
    have hreq : b ≠ Att.mtuReq := by
      rintro rfl
      revert hodd
      decide
    unfold Conn.attRx
    dsimp only
    rw [if_neg hnotify, if_neg hind, if_neg hreq, if_neg (by tauto), if_neg (by tauto),
      if_neg (by tauto)]
    unfold Conn.answerRx
    rw [hcur]
    dsimp only
    rw [hk]

/-- What is not taken for one leaves it alone. -/
theorem inv_unheard (h : Inv log broken n c) {p : Bytes} (hp : c.heard p = false) :
    Inv log broken n (c.attRx p) := by
  unfold Conn.attRx
  split
  · exact h
  case h_2 b rest =>
    split
    · exact h
    case isFalse hnotify =>
      split
      · exact h.attSend _ _
      case isFalse hind =>
        split
        · dsimp only
          split
          · refine Inv.attSend ?_ _ _
            exact h.of_eq rfl id h.early (Subset.refl _)
          · exact h.attSend _ _
        · split
          · split
            · exact h
            · exact h.attSend _ _
          case isFalse hodd =>
            split
            · exact h.of_eq rfl id h.early (Subset.refl _)
            · split
              case isTrue hmtu =>
                -- nothing was found before the link was up
                obtain ⟨hdb, hcur⟩ := h.early (by rw [hmtu.1]; decide) (by rw [hmtu.1]; decide)
                dsimp only
                refine inv_startOp ?_ hcur fun _ _ d hd => ?_
                · exact h.toBase.of_eq rfl (fun _ ho => ho) id (fun hne => absurd rfl hne)
                    (Subset.refl _)
                · cases hdb.symm.trans hd
              case isFalse =>
                unfold Conn.answerRx
                split
                · exact h
                case h_2 o hcur =>
                  split
                  case h_1 hk =>
                    -- it would have been heard
                    exfalso
                    have hmtu : c.state ≠ .mtu := by
                      intro hs
                      have hnone := (h.early (by rw [hs]; decide) (by rw [hs]; decide)).2
                      cases hnone.symm.trans hcur
                    have hb : byteAt (b :: rest) 0 = b := rfl
                    simp only [Conn.heard, Conn.takes, hcur, hk, OpKind.takes, hb, any_some,
                      Bool.and_true] at hp
                    simp [hnotify, hind, hmtu] at hp
                    exact hodd hp
                  case h_2 hk =>
                    have hother : o.kind ≠ .discover := by rw [hk]; decide
                    split
                    · exact inv_errorRx h hcur hother _
                    · exact inv_readRx h hcur hother _
                  case h_3 hk =>
                    have hother : o.kind ≠ .discover := by rw [hk]; decide
                    split
                    · exact inv_errorRx h hcur hother _
                    · exact inv_writeRx h hcur hother _

/-- A request comes, and what it asks for is allowed. -/
theorem inv_opQueue (h : Inv log broken n c) (o : Op) (ho : broken = true → o.kind ≠ .discover) :
    Inv log broken n (c.opQueue o) := by
  refine Inv.startOp (c := { c with ops := c.ops ++ [o] }) ⟨?_, fun o' ho' hk => ?_, h.idle⟩
  · refine { h with wait := fun hb o' ho' => ?_ }
    rw [← append_assoc] at ho'
    rcases mem_append.mp ho' with hold | hnew
    · exact h.wait hb o' hold
    · rw [mem_singleton.mp hnew]
      exact ho hb
  · obtain ⟨hw, hpdu⟩ := h.work o' ho' hk
    exact ⟨⟨hw.le, hw.zero, hw.db, hw.behind, hw.rest⟩, hpdu⟩

/-- Only what comes from now on is looked at. -/
theorem Inv.rebase (h : Inv log broken n c) : Inv log broken c.said.length c := by
  refine { h with told := fun x hx => ?_, len := le_rfl }
  rw [drop_length] at hx
  exact nomatch hx

/-- A request that was not answered ends the discovery, and the connection. -/
theorem inv_attTimeout (h : Inv log broken n c) (hn : n = c.said.length) (hcur : c.cur = some o)
    (log' : List Exch) (hlog : log' = log ∨ log' = []) : Inv log' broken n c.attTimeout := by
  unfold Conn.attTimeout
  rw [hcur]
  have hsaid := h.toBase.say o (.error c.addr o.req.handle gattFailed) nofun
  have hbase : Base log' broken n
      { c.say o (.error c.addr o.req.handle gattFailed) with closeNow := true, cur := none } := by
    refine ⟨fun x hx d hd => ?_, hsaid.len, fun hb o' ho' => ?_, fun hd => ?_,
      fun h₁ h₂ => ⟨(h.early h₁ h₂).1, rfl⟩, fun x hx => ?_⟩
    · have hx' : x ∈ (c.said ++ [(⟨o.req, .error c.addr o.req.handle gattFailed⟩ : Said)]).drop n :=
        hx
      rw [hn, drop_left, mem_singleton] at hx'
      rw [hx'] at hd
      exact nomatch hd
    · exact h.wait hb o' (mem_append_right _ ho')
    · rcases hlog with rfl | rfl
      · exact h.blank hd
      · rfl
    · rcases hlog with rfl | rfl
      · exact h.sent x hx
      · exact nomatch hx
  exact inv_startOp hbase rfl fun hu => nomatch hu.2

end inv

section runs

variable {s : Link}

/-- **Each step of a connection keeps what holds of it.** -/
theorem Inv.moves (h : Inv s.log s.broken s.conn.said.length s.conn) {e : LinkEv}
    (hs : s.Spared e) :
    Inv (s.logAfter e) (s.brokenAfter e) s.conn.said.length (s.conn.moves e) := by
  -- what was there before the link was up
  have hearly : ∀ {st : CState}, s.conn.state = st → st ≠ .up → st ≠ .closing →
      s.conn.db = none ∧ s.conn.cur = none := by
    rintro st rfl h₁ h₂
    exact h.early h₁ h₂
  -- an event that does not come here
  have hif : ∀ {p : Prop} [Decidable p] {c : Conn}, (p → Inv s.log s.broken s.conn.said.length c) →
      Inv s.log s.broken s.conn.said.length (if p then c else s.conn) := by
    intro p _ c hc
    split
    case isTrue hp => exact hc hp
    case isFalse => exact h
  cases e with
  | begins addr =>
    refine hif fun hf => ?_
    exact h.of_eq rfl (fun hu => by cases hu.1)
      (fun _ _ => hearly hf (by decide) (by decide)) (Subset.refl _)
  | connecting =>
    refine hif fun hf => ?_
    exact h.of_eq rfl (fun hu => by cases hu.1)
      (fun _ _ => hearly hf (by decide) (by decide)) (Subset.refl _)
  | cancel =>
    exact hif fun _ => h.of_eq rfl id h.early (Subset.refl _)
  | connected bonded =>
    refine hif fun hf => ?_
    have hnone := hearly hf (by decide) (by decide)
    unfold Conn.connected
    dsimp only
    split
    · exact h.of_eq rfl (fun hu => by cases hu.1) (fun _ _ => hnone) (Subset.refl _)
    · exact h.of_eq rfl (fun hu => by cases hu.1) (fun _ _ => hnone) (subset_append_left _ _)
  | queue o => exact hif fun _ => inv_opQueue h o hs
  | att p =>
    have hans : Inv s.log s.broken s.conn.said.length (s.conn.answered p) :=
      h.of_eq rfl id h.early (Subset.refl _)
    simp only [Conn.moves, Link.logAfter, Link.brokenAfter]
    rcases Bool.eq_false_or_eq_true s.conn.state.linked with hl | hl
    · rw [hl, if_pos rfl, Bool.true_and]
      rcases Bool.eq_false_or_eq_true (s.conn.heard p) with hp | hp
      · rw [hp, if_pos rfl, Bool.true_and]
        have hcur : ∃ o, s.conn.cur = some o ∧ o.kind = .discover := by
          simp only [Conn.heard, Bool.and_eq_true, Option.any_eq_true, decide_eq_true_eq] at hp
          exact hp.2
        obtain ⟨o, hcur, hk⟩ := hcur
        rw [attRx_heard (c := s.conn.answered p) hcur hk hp]
        rcases Bool.eq_false_or_eq_true (s.conn.accepts p) with hacc | hacc
        · rw [hacc, if_pos rfl, Bool.not_true, Bool.or_false]
          exact inv_discRx hans hcur hk hacc
        · rw [hacc, if_neg Bool.false_ne_true, Bool.not_false, Bool.or_true]
          exact inv_fails hans rfl hcur hk hacc (hs hl hp hacc)
      · rw [hp, if_neg Bool.false_ne_true, Bool.false_and, Bool.or_false]
        exact inv_unheard hans hp
    · rw [hl, if_neg Bool.false_ne_true, Bool.false_and, if_neg Bool.false_ne_true, Bool.false_and,
        Bool.or_false]
      exact h
  | mtuTimeout =>
    refine hif fun hm => inv_unheard h ?_
    simp [Conn.heard, hm]
  | attTimeout =>
    simp only [Conn.moves, Link.logAfter, Link.brokenAfter]
    rcases eq_none_or_eq_some s.conn.cur with hcur | ⟨o, hcur⟩
    · have hstay : s.conn.attTimeout = s.conn := by
        unfold Conn.attTimeout
        rw [hcur]
      rw [if_neg (by simp [hcur]), hstay, ite_self]
      exact h
    · by_cases hup : s.conn.state = .up
      · rw [if_pos hup]
        refine inv_attTimeout h rfl hcur _ ?_
        split
        · exact .inr rfl
        · exact .inl rfl
      · rw [if_neg hup, if_neg (fun hno => hup hno.1)]
        exact h
  | encrypting => exact hif fun _ => h.of_eq rfl id h.early (Subset.refl _)
  | encrypted =>
    refine hif fun _ => ?_
    unfold Conn.encrypted
    dsimp only
    refine Inv.startOp ?_
    split
    · refine Inv.attSend ?_ _ _
      exact h.of_eq rfl id h.early (Subset.refl _)
    · exact h.of_eq rfl id h.early (Subset.refl _)
  | close => exact hif fun _ => h.of_eq rfl (fun hu => by cases hu.2) h.early (Subset.refl _)
  | closing =>
    exact hif fun _ => h.of_eq rfl (fun hu => by cases hu.1)
      (fun _ hne => absurd rfl hne) (Subset.refl _)
  | free =>
    simp only [Conn.moves, Link.logAfter, Link.brokenAfter]
    refine ⟨⟨fun x hx => ?_, le_rfl, (fun hb => by cases hb), fun _ => rfl, fun _ _ => ⟨rfl, rfl⟩,
      (fun _ hx => by cases hx)⟩, (fun _ ho => by cases ho), fun _ => ?_⟩
    · have hx' : x ∈ s.conn.said.drop s.conn.said.length := hx
      rw [drop_length] at hx'
      cases hx'
    · exact fun hu => by cases hu.1

/-- What holds of a connection in every state of a run. -/
def Link.Inv (s : Link) : Prop := Gatt.Inv s.log s.broken s.conn.said.length s.conn ∧ s.Sound

theorem Link.inv_step (h : s.Inv) {e : LinkEv} (hs : s.Spared e) : (s.step e).Inv := by
  obtain ⟨hinv, hsound⟩ := h
  have hnew := hinv.moves hs
  refine ⟨hnew.rebase, fun r hr => ?_⟩
  rcases mem_append.mp hr with hold | hr
  · exact hsound r hold
  · obtain ⟨d, hd, rfl⟩ := mem_map.mp hr
    obtain ⟨x, hx, hd⟩ := mem_filterMap.mp hd
    exact ⟨hnew.told x hx d hd, hnew.sent⟩

theorem Link.inv_init : Link.Inv {} := by
  refine ⟨⟨⟨nofun, le_rfl, nofun, fun _ => rfl, fun _ _ => ⟨rfl, rfl⟩, nofun⟩, nofun,
    fun _ hu => ?_⟩, nofun⟩
  exact nomatch hu.1

/-- **Only completely discovered databases are reported**, in every run in which the services are
not asked for behind a discovery that an answer failed: every range was asked for to its end, by
requests that were sent since the last discovery that failed. -/
theorem reports_complete (l : List LinkEv) (h : Runs.Each Link.step Link.Spared {} l) :
    (Link.run l).Sound := by
  have hinv : (l.foldl Link.step {}).Inv :=
    Runs.invariant (I := Link.Inv) (fun s e hs hp => Link.inv_step hs hp) Link.inv_init h
  exact hinv.2

/-- Services are asked for. -/
def servicesOp (id : ℕ) : Op := ⟨⟨id, 5, .services⟩, .discover, rfl⟩

/-- A link comes up, and a first answer names one service. -/
def oneService : List LinkEv :=
  [.begins 5, .connecting, .connected false, .att [3, 23, 0], .queue (servicesOp 0),
    .att [17, 6, 1, 0, 255, 255, 0, 24]]

/-- It has one characteristic, with no descriptors. -/
def oneCharacteristic : List LinkEv :=
  [.att [9, 7, 2, 0, 2, 3, 0, 0, 42], .att [1, 8, 4, 0, 10], .att [1, 4, 4, 0, 10]]

/-- A discovery that comes to its end. -/
theorem reports_complete_once :
    Runs.Each Link.step Link.Spared {} (oneService ++ oneCharacteristic) ∧
      ((Link.run (oneService ++ oneCharacteristic)).reports.map fun r => r.log.length) = [4] ∧
      (Link.run (oneService ++ oneCharacteristic)).Sound := by
  have h : Runs.Each Link.step Link.Spared {} (oneService ++ oneCharacteristic) := by
    refine ⟨trivial, trivial, trivial, fun _ hp => absurd hp (by decide),
      fun hb => absurd hb (by decide), fun _ _ hacc => absurd hacc (by decide),
      fun _ _ hacc => absurd hacc (by decide), fun _ _ hacc => absurd hacc (by decide),
      fun _ _ hacc => absurd hacc (by decide), trivial⟩
  exact ⟨h, by decide, reports_complete _ h⟩

/-- The device fails the discovery, and the services are asked for again. -/
def asksAgain : List LinkEv := [.att [1, 8, 1, 0, 14], .queue (servicesOp 1)]

/-- **A database that is reported with nothing asked for**: one service, and not its
characteristics. -/
theorem reports_partial :
    ((Link.run (oneService ++ asksAgain)).reports.map fun r =>
      (r.db.svc.length, r.db.chr.length, r.log)) =
        [(1, 0, [])] ∧
      (Link.run (oneService ++ asksAgain)).conn.sent.length = 3 ∧
      ¬ (Link.run (oneService ++ asksAgain)).Sound := by
  have hfacts : ((Link.run (oneService ++ asksAgain)).reports.map fun r =>
        (r.db.svc.length, r.db.chr.length, r.log)) = [(1, 0, [])] ∧
      (Link.run (oneService ++ asksAgain)).conn.sent.length = 3 := by
    decide
  refine ⟨hfacts.1, hfacts.2, fun hsound => ?_⟩
  obtain ⟨r, hr, hlog⟩ : ∃ r ∈ (Link.run (oneService ++ asksAgain)).reports, r.log = [] := by
    have hmem : ((1, 0, []) : ℕ × ℕ × List Exch) ∈
        (Link.run (oneService ++ asksAgain)).reports.map fun r =>
          (r.db.svc.length, r.db.chr.length, r.log) := by
      rw [hfacts.1]
      exact mem_singleton_self _
    obtain ⟨r, hr, heq⟩ := mem_map.mp hmem
    exact ⟨r, hr, congrArg (fun t => t.2.2) heq⟩
  have hcov := (hsound r hr).1.services
  rw [hlog] at hcov
  cases hcov with
  | past h =>
    have hlt : 0xffff < 1 := h
    omega
  | none hx => exact nomatch hx
  | more hx => exact nomatch hx

end runs

end Gatt
end Hassmic.Ble
