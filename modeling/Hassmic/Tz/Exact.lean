import Hassmic.Tz.Lookup

/-!
# The zone that is found

A table is well formed if its index has an entry for each zone, in its order, and the data of each
zone ends with its rule between two newlines.  In such a table the lookup finds a zone by any rule
that its buffer holds; and whatever the file is, it never leaves the pieces that it has read.

## Main definitions

* `Zone`, `Table` — a zone, and a well-formed file of zones.
* `having` — the zones with the rule.
* `First` — the first of the lowest rank.

## Main results

* `tzLookup_inside` — the lookup stays inside of what it has read.
* `footer_zone` — the rule is read from the data of a zone.
* `lookup_exact` — **the zone that is found**.
-/

namespace Hassmic.Tz

open Byte Checked Text List Option

/-! ### Inside of what was read -/

section inside

variable {b l n w file tab : Bytes} {i : ℕ}

theorem lineStart_le : ∀ {i : ℕ}, i ≤ b.length → ∃ j, lineStart b i = .ok j ∧ j ≤ i
  | 0, _ => ⟨0, rfl, le_rfl⟩
  | i + 1, h => by
      obtain ⟨j, hj, hle⟩ := lineStart_le (i := i) (by omega)
      rw [lineStart, peek_eq h]
      by_cases hlf : b[i] = lf
      · exact ⟨i + 1, if_pos hlf, le_rfl⟩
      · exact ⟨j, (if_neg hlf).trans hj, by omega⟩

theorem length_readAt {off : ℤ} {n : ℕ} (h : readAt file off n = some b) : b.length = n := by
  unfold readAt at h
  split at h
  · exact nomatch h
  · dsimp only at h
    split at h
    case isTrue hlen =>
      rw [← some.inj h]
      exact hlen
    case isFalse => exact nomatch h

theorem footer_inside (file : Bytes) (off len : ℕ) : ∃ r, footer file off len = .ok r := by
  unfold footer footerMax
  dsimp only
  split
  · exact ⟨_, rfl⟩
  next hlen =>
    cases hb : readAt file (long (off + (len - min len (128 + 2)))) (min len (128 + 2)) with
    | none => exact ⟨_, rfl⟩
    | some b =>
      have hlength := length_readAt hb
      obtain ⟨i, hi, hle⟩ := lineStart_le (b := b) (i := min len (128 + 2) - 1) (by omega)
      dsimp only
      rw [peek_eq (by omega), hi]
      simp only [bind, Except.bind]
      split
      · exact ⟨_, rfl⟩
      · split
        · exact ⟨_, rfl⟩
        next hpos =>
          rw [slice_eq (by omega)]
          dsimp only
          rw [room_eq (by rw [length_take, length_drop]; omega)]
          exact ⟨_, rfl⟩

theorem be32_inside {b : Bytes} {i : ℕ} (h : i + 4 ≤ b.length) :
    be32 b i = .ok (ofBe ((b.drop i).take 4)) := by
  unfold be32
  rw [slice_eq h]
  rfl

theorem entryAt_inside (file : Bytes) (data zt pos : ℕ) :
    ∃ r, entryAt file data zt pos = .ok r := by
  unfold entryAt
  cases he : readAt file (long pos) entryLen with
  | none => exact ⟨_, rfl⟩
  | some e =>
    have hlen : e.length = 52 := length_readAt he
    dsimp only
    rw [slice_eq (by rw [hlen]; decide), be32_inside (by rw [hlen]; decide),
      be32_inside (by rw [hlen]; decide)]
    simp only [bind, Except.bind]
    split
    · exact ⟨_, rfl⟩
    · obtain ⟨r, hr⟩ := footer_inside file (data + ofBe ((e.drop nameLen).take 4))
        (ofBe ((e.drop (nameLen + 4)).take 4))
      rw [hr]
      exact ⟨_, rfl⟩

theorem length_cString_lt (h : nul ∈ tab) : (cString tab).length < tab.length := by
  unfold cString
  refine lt_of_le_of_ne (takeWhile_sublist _).length_le ?_
  intro heq
  have hall := takeWhile_eq_self_iff.mp (takeWhile_sublist _ |>.eq_of_length heq)
  exact absurd rfl (of_decide_eq_true (hall nul h))

theorem listedLoop_inside (htab : nul ∈ tab) (n : Bytes) : ∀ (f p : ℕ), p ≤ (cString tab).length →
    ∃ r, listedLoop tab n f p = .ok r
  | 0, p, _ => ⟨false, rfl⟩
  | f + 1, p, hp => by
      have hlt := length_cString_lt htab
      unfold listedLoop
      cases hd : strstr n ((cString tab).drop p) with
      | none => exact ⟨false, rfl⟩
      | some d =>
        have hle := strstr_le hd
        rw [length_drop] at hle
        obtain ⟨r, hr⟩ := listedLoop_inside htab n f (p + d + n.length) (by omega)
        have hbefore : ∃ c, byteBefore tab (p + d) = .ok c := by
          unfold byteBefore
          split
          · exact ⟨_, peek_eq (by omega)⟩
          · exact ⟨nul, rfl⟩
        obtain ⟨c, hc⟩ := hbefore
        dsimp only
        rw [hc, peek_eq (by omega)]
        simp only [bind, Except.bind]
        split
        · exact ⟨true, rfl⟩
        · exact ⟨r, hr⟩

theorem area_le (n : Bytes) : area n ≤ 30 := by
  unfold area
  cases hi : areas.findIdx? (· <+: n) with
  | none =>
    dsimp only
    split
    · omega
    · exact le_rfl
  | some i =>
    obtain ⟨hlt, -⟩ := findIdx?_eq_some_iff_findIdx_eq.mp hi
    have hlen : areas.length = 9 := rfl
    dsimp only
    omega

theorem nul_mem_zonetab {zt : ℕ} (h : zonetab file zt = some tab) : nul ∈ tab := by
  unfold zonetab at h
  dsimp only at h
  generalize (if file.length < 2 ^ 31 then (file.length : ℤ) else -1) = size at h
  split at h
  case isTrue =>
    rw [← some.inj h]
    exact mem_append_right _ (mem_singleton.mpr rfl)
  case isFalse => exact nomatch h

/-- The rank of a name. -/
theorem rank_inside (file : Bytes) (zt : ℕ) (n : Bytes) :
    ∃ r ≤ 70, rank (zonetab file zt) n = .ok r := by
  have harea := area_le n
  unfold rank
  cases htab : zonetab file zt with
  | none => exact ⟨area n, by omega, rfl⟩
  | some tab =>
    obtain ⟨r, hr⟩ := listedLoop_inside (nul_mem_zonetab htab) n (tab.length + 1) 0 (Nat.zero_le _)
    unfold listed
    dsimp only
    rw [hr]
    refine ⟨area n + if r then 0 else 40, ?_, rfl⟩
    split
    · omega
    · omega

theorem lookupLoop_inside (file : Bytes) (data zt : ℕ) (posix : Bytes) (cur : Option Bytes) :
    ∀ (k pos : ℕ) (b : Best), ∃ r,
      lookupLoop file data zt (zonetab file zt) posix cur k pos b = .ok r
  | 0, _, b => ⟨b, rfl⟩
  | k + 1, pos, b => by
      have ih := lookupLoop_inside file data zt posix cur k (pos + entryLen)
      unfold lookupLoop
      split
      · obtain ⟨e, he⟩ := entryAt_inside file data zt pos
        rw [he]
        simp only [bind, Except.bind]
        split
        · exact ⟨b, rfl⟩
        · exact ih b
        next name f =>
          split
          · exact ih b
          · split
            · exact ⟨_, rfl⟩
            · obtain ⟨r, -, hr⟩ := rank_inside file zt name
              rw [hr]
              exact ih _
      · exact ⟨b, rfl⟩

/-- **The lookup stays inside of what it has read**, whatever the file is. -/
theorem tzLookup_inside (file posix : Bytes) (cur : Option Bytes) (cap : ℕ) :
    ∃ r, tzLookup file posix cur cap = .ok r := by
  unfold tzLookup
  cases hh : readAt file 0 24 with
  | none => exact ⟨_, rfl⟩
  | some h =>
    have hlen : h.length = 24 := length_readAt hh
    dsimp only
    rw [slice_eq (by omega), peek_eq (by omega), be32_inside (by omega), be32_inside (by omega),
      be32_inside (by omega)]
    simp only [bind, Except.bind]
    split
    · exact ⟨_, rfl⟩
    · split
      · exact ⟨_, rfl⟩
      · obtain ⟨r, hr⟩ :=
          lookupLoop_inside file (ofBe ((h.drop 16).take 4)) (ofBe ((h.drop 20).take 4)) posix cur
          ((ofBe ((h.drop 16).take 4) - ofBe ((h.drop 12).take 4)) / entryLen + 1)
            (ofBe ((h.drop 12).take 4)) {}
        rw [hr]
        dsimp only
        split
        · exact ⟨_, rfl⟩
        next hfits =>
          rw [not_or, not_le] at hfits
          rw [room_eq hfits.2]
          exact ⟨_, rfl⟩

end inside

/-! ### Well-formed tables -/

/-- A zone: its name, and its rule with what is before it in its data. -/
structure Zone where
  name : Bytes
  rule : Bytes
  pre : Bytes
  isName : name ≠ [] ∧ name.length ≤ nameLen ∧ nul ∉ name
  isRule : lf ∉ rule ∧ nul ∉ rule
  deriving DecidableEq

/-- What `zic` wrote. -/
def Zone.data (z : Zone) : Bytes := z.pre ++ lf :: (z.rule ++ [lf])

/-- A number in the file. -/
def number (file : Bytes) (i : ℕ) : ℕ := ofBe ((file.drop i).take 4)

/-- The entry of a zone, and its data. -/
structure Entry (file : Bytes) (data zt pos : ℕ) (z : Zone) : Prop where
  name : cString ((file.drop pos).take nameLen) = z.name
  length : number file (pos + nameLen + 4) = z.data.length
  inside : number file (pos + nameLen) + z.data.length ≤ zt - data
  data : (file.drop (data + number file (pos + nameLen))).take z.data.length = z.data

/-- **A well-formed table**: the header, the index with an entry for each zone, their data, and
`zone.tab` behind them. -/
structure Table (file : Bytes) (zones : List Zone) : Prop where
  length : 24 ≤ file.length ∧ file.length < 2 ^ 31
  magic : file.take 6 = text "tzdata" ∧ file[11]? = some nul
  index : number file 16 = number file 12 + entryLen * zones.length
  parts : number file 16 ≤ number file 20 ∧ number file 20 ≤ file.length
  entries : ∀ k z, zones[k]? = some z →
    Entry file (number file 16) (number file 20) (number file 12 + entryLen * k) z

/-- The rank of a name, by the `zone.tab` of the file. -/
def rankIn (file : Bytes) (n : Bytes) : ℕ :=
  match rank (zonetab file (number file 20)) n with
  | .ok r => r
  | .error _ => 0

/-- The zones with the rule, in their order; a rule that the buffer does not hold is not read. -/
def having (posix : Bytes) (zones : List Zone) : List Zone :=
  zones.filter fun z => z.rule = posix && decide (z.rule.length ≤ footerMax)

/-- The first of the lowest rank. -/
def First (r : Bytes → ℕ) (zones : List Zone) (z : Zone) : Prop :=
  ∃ before behind, zones = before ++ z :: behind ∧ (∀ y ∈ before, r z.name < r y.name) ∧
    ∀ y ∈ behind, r z.name ≤ r y.name

/-- What is handed out into a buffer. -/
def fit (cap : ℕ) (name : Bytes) : Option Bytes := if name.length < cap then some name else none

/-! ### The rule of a zone -/

section rule

variable {b q r : Bytes}

/-- Where no newline is passed, none is found. -/
theorem lineStart_stays (i m : ℕ) (h : ∀ j, i ≤ j → j < i + m → ∃ c, b[j]? = some c ∧ c ≠ lf) :
    lineStart b (i + m) = lineStart b i := by
  induction m with
  | zero => rfl
  | succ m ih =>
    obtain ⟨c, hc, hne⟩ := h (i + m) (by omega) (by omega)
    have hpeek : peek b (i + m) = .ok c := by
      unfold peek
      rw [hc]
    rw [← Nat.add_assoc, lineStart, hpeek]
    exact (if_neg hne).trans (ih fun j hj hj' => h j hj (by omega))

theorem getElem_rule (hr : lf ∉ r) (l : Bytes) {j : ℕ} (hlo : q.length ≤ j)
    (hhi : j < q.length + r.length) :
    ∃ c, (q ++ (r ++ l))[j]? = some c ∧ c ≠ lf := by
  have hj : j - q.length < r.length := by omega
  refine ⟨r[j - q.length], ?_, ?_⟩
  · rw [getElem?_append_right hlo, getElem?_append_left hj, getElem?_eq_getElem hj]
  · intro heq
    exact hr (heq ▸ getElem_mem hj)

/-- The rule begins behind the newline before it. -/
theorem lineStart_rule (hr : lf ∉ r) (l : Bytes) :
    lineStart (q ++ lf :: (r ++ l)) (q.length + 1 + r.length) = .ok (q.length + 1) := by
  have hsplit : q ++ lf :: (r ++ l) = (q ++ [lf]) ++ (r ++ l) := by
    rw [append_assoc, singleton_append]
  have hlen : (q ++ [lf]).length = q.length + 1 := by rw [length_append, length_singleton]
  rw [lineStart_stays]
  · rw [lineStart, peek_append]
    change (if lf = lf then Except.ok (q.length + 1)
      else lineStart (q ++ lf :: (r ++ l)) q.length) = _
    exact if_pos rfl
  · intro j hlo hhi
    rw [hsplit]
    exact getElem_rule hr l (hlen.le.trans hlo) (by omega)

/-- A rule that is longer than the buffer shows no newline before it. -/
theorem lineStart_none (hr : lf ∉ r) (l : Bytes) : lineStart (r ++ l) r.length = .ok 0 := by
  have hstays := lineStart_stays (b := r ++ l) 0 r.length (by
    intro j _ hj
    exact getElem_rule (q := []) hr l (Nat.zero_le _) (by rw [length_nil]; exact hj))
  rw [Nat.zero_add] at hstays
  exact hstays

theorem cString_eq (h : nul ∉ r) : cString r = r := by
  refine takeWhile_eq_self_iff.mpr ?_
  intro c hc
  exact decide_eq_true fun heq => h (heq ▸ hc)

end rule

theorem long_eq {v : ℕ} (h : v < 2 ^ 31) : long v = v := by
  unfold long
  rw [if_pos (by omega)]
  omega

/-- Bytes that are in the file. -/
theorem readAt_eq {file b : Bytes} {off n : ℕ} (hoff : off < 2 ^ 31)
    (h : (file.drop off).take n = b) (hlen : b.length = n) : readAt file (long off) n = some b := by
  unfold readAt
  rw [long_eq hoff, if_neg (by omega)]
  dsimp only
  rw [Int.toNat_natCast, h, if_pos hlen]

/-- **The rule is read from the data of a zone**, if the buffer holds it. -/
theorem footer_zone {file : Bytes} {z : Zone} {off : ℕ} (hlen : off + z.data.length < 2 ^ 31)
    (h : (file.drop off).take z.data.length = z.data) :
    footer file off z.data.length =
      .ok (if z.rule.length ≤ footerMax then some z.rule else none) := by
  have hlength : z.data.length = z.pre.length + z.rule.length + 2 := by
    unfold Zone.data
    rw [length_append, length_cons, length_append, length_singleton]
    omega
  generalize hn : min z.data.length (footerMax + 2) = n
  -- only the last bytes are read, as many as a rule can have
  have hread : readAt file (long (off + (z.data.length - n))) n =
      some (z.data.drop (z.data.length - n)) := by
    refine readAt_eq (by omega) ?_ ?_
    · have hdrop : z.data.drop (z.data.length - n) =
          ((file.drop off).take z.data.length).drop (z.data.length - n) := by
        rw [h]
      rw [hdrop, drop_take, drop_drop]
      congr 1
      omega
    · rw [length_drop]
      omega
  unfold footer
  dsimp only
  rw [hn, if_neg (by omega), hread]
  unfold footerMax at hn ⊢
  dsimp only
  by_cases hshort : z.rule.length ≤ 128
  · -- the newline before the rule is within reach
    have hb : z.data.drop (z.data.length - n) = z.pre.drop (z.data.length - n) ++ lf ::
        (z.rule ++ [lf]) := by
      unfold Zone.data at hlength hn ⊢
      rw [drop_append_of_le_length (by omega)]
    rw [hb]
    generalize hq : z.pre.drop (z.data.length - n) = q
    have hqlen : n - 1 = q.length + 1 + z.rule.length := by
      rw [← hq, length_drop]
      omega
    have hlast : peek (q ++ lf :: (z.rule ++ [lf])) (q.length + 1 + z.rule.length) = .ok lf := by
      have hsplit : q ++ lf :: (z.rule ++ [lf]) = (q ++ lf :: z.rule) ++ lf :: [] := by
        rw [append_assoc, cons_append]
      have hat : (q ++ lf :: z.rule).length = q.length + 1 + z.rule.length := by
        rw [length_append, length_cons]
        omega
      rw [hsplit, ← hat, peek_append]
    rw [hqlen, hlast, lineStart_rule z.isRule.1]
    have hslice : slice (q ++ lf :: (z.rule ++ [lf])) (q.length + 1)
        (q.length + 1 + z.rule.length - (q.length + 1)) =
        .ok z.rule := by
      rw [slice_eq (by
        rw [length_append, length_cons, length_append, length_singleton]
        omega)]
      have hdrop : (q ++ lf :: (z.rule ++ [lf])).drop (q.length + 1) = z.rule ++ [lf] := by
        rw [drop_append, drop_eq_nil_of_le (by omega), nil_append, Nat.add_sub_cancel_left,
          drop_one, tail_cons]
      rw [hdrop, Nat.add_sub_cancel_left, take_left]
    simp only [bind, Except.bind]
    rw [if_neg (fun h => h rfl), if_neg (by omega), hslice]
    dsimp only
    rw [room_eq (by omega), cString_eq z.isRule.2, if_pos hshort]
  · -- the rule alone is longer than the buffer
    have hb : ∃ r, z.data.drop (z.data.length - n) = r ++ [lf] ∧ lf ∉ r ∧ r.length = n - 1 := by
      refine ⟨z.rule.drop (z.data.length - n - z.pre.length - 1), ?_, ?_, ?_⟩
      · have hsplit : z.data.length - n =
          z.pre.length + ((z.data.length - n - z.pre.length - 1) + 1) := by omega
        conv_lhs =>
          rw [hsplit]
        unfold Zone.data
        rw [drop_length_add_append, drop_succ_cons, drop_append_of_le_length (by
          unfold Zone.data at hlength hn
          omega)]
      · exact fun hin => z.isRule.1 (mem_of_mem_drop hin)
      · rw [length_drop]
        omega
    obtain ⟨r, hr, hno, hrlen⟩ := hb
    rw [hr, ← hrlen, peek_append, lineStart_none hno]
    simp only [bind, Except.bind]
    rw [if_neg (fun h => h rfl), if_pos trivial, if_neg hshort]

/-! ### The loop over the index -/

section table

variable {file : Bytes} {zones : List Zone}

theorem slice_take {b : Bytes} {off n i k : ℕ} (h : i + k ≤ n) :
    (((b.drop off).take n).drop i).take k = (b.drop (off + i)).take k := by
  rw [drop_take, take_take, drop_drop, Nat.min_eq_left (by omega)]

/-- An entry is read with its rule, if the buffer holds it. -/
theorem entryAt_zone (hlen : file.length < 2 ^ 31) {data zt pos : ℕ} {z : Zone}
    (h : Entry file data zt pos z) (hpos : pos + entryLen ≤ file.length)
    (hzt : data ≤ zt ∧ zt ≤ file.length) :
    entryAt file data zt pos =
      .ok (some (if z.rule.length ≤ footerMax then some (z.name, z.rule) else none)) := by
  have hread : readAt file (long pos) entryLen = some ((file.drop pos).take entryLen) := by
    refine readAt_eq (by omega) rfl ?_
    rw [length_take, length_drop]
    omega
  generalize he : (file.drop pos).take entryLen = e at hread
  have helen : e.length = 52 := length_readAt hread
  have hname : cString ((e.drop 0).take nameLen) = z.name := by
    rw [← he, slice_take (by decide)]
    exact h.name
  have hnumber : ∀ i, i + 4 ≤ entryLen → ofBe ((e.drop i).take 4) = number file (pos + i) := by
    intro i hi
    rw [← he, slice_take hi]
    rfl
  have hstart := hnumber nameLen (by decide)
  have hlength := hnumber (nameLen + 4) (by decide)
  rw [← Nat.add_assoc, h.length] at hlength
  have hinside := h.inside
  have hfooter : footer file (data + number file (pos + nameLen)) z.data.length = _ :=
    footer_zone (by omega) h.data
  unfold entryAt
  rw [hread]
  dsimp only
  rw [slice_eq (by rw [helen]; decide), be32_inside (by rw [helen]; decide),
    be32_inside (by rw [helen]; decide)]
  simp only [bind, Except.bind]
  rw [hname, hstart, hlength, if_neg, hfooter]
  · dsimp only
    split
    · rfl
    · rfl
  · rintro (hnil | hout | hout)
    · exact z.isName.1 hnil
    · omega
    · omega

theorem rankIn_eq (n : Bytes) : rank (zonetab file (number file 20)) n = .ok (rankIn file n) ∧
    rankIn file n ≤ 70 := by
  obtain ⟨r, hle, hr⟩ := rank_inside file (number file 20) n
  unfold rankIn
  rw [hr]
  exact ⟨rfl, hle⟩

/-- What the loop makes of the zones with the rule. -/
def pick (r : Bytes → ℕ) (cur : Option Bytes) : List Zone → Best → Best
  | [], b => b
  | z :: zs, b => if cur = some z.name then { b with found := true, name := z.name }
      else pick r cur zs (b.step (r z.name) z.name)

/-- **The loop over the index** sees the zones with the rule. -/
theorem lookupLoop_table (h : Table file zones) (posix : Bytes) (cur : Option Bytes) :
    ∀ (zs : List Zone) (k : ℕ), zones.drop k = zs → ∀ b,
      lookupLoop file (number file 16) (number file 20)
        (zonetab file (number file 20)) posix cur (zs.length + 1)
        (number file 12 + entryLen * k) b = .ok (pick (rankIn file) cur (having posix zs) b) := by
  intro zs
  induction zs with
  | nil =>
    intro k hk b
    have hend := drop_eq_nil_iff.mp hk
    have hindex := h.index
    have hover : entryLen * zones.length ≤ entryLen * k := Nat.mul_le_mul_left _ hend
    unfold lookupLoop
    rw [if_neg (by omega)]
    rfl
  | cons z zs ih =>
    intro k hk b
    have hlt : k < zones.length := by
      by_contra hno
      rw [drop_eq_nil_of_le (by omega)] at hk
      exact nomatch hk
    rw [drop_eq_getElem_cons hlt] at hk
    obtain ⟨hz, hzs⟩ := List.cons.inj hk
    have hindex := h.index
    have hin : entryLen * (k + 1) ≤ entryLen * zones.length := Nat.mul_le_mul_left _ hlt
    have hstep : entryLen * (k + 1) = entryLen * k + entryLen := Nat.mul_succ _ _
    have hlen : entryLen = 52 := rfl
    have hentry := h.entries k z (by rw [← hz]; exact getElem?_eq_getElem hlt)
    have hread := entryAt_zone h.length.2 hentry (by have := h.parts; omega) h.parts
    have hnext : number file 12 + entryLen * k + entryLen = number file 12 + entryLen *
      (k + 1) := by omega
    rw [length_cons]
    unfold lookupLoop
    rw [if_pos (by omega), hread, hnext]
    unfold having
    -- a longer rule is no rule
    by_cases hshort : z.rule.length ≤ footerMax
    · rw [if_pos hshort]
      simp only [bind, Except.bind]
      by_cases hrule : z.rule = posix
      · rw [if_neg (fun h => h hrule),
          filter_cons_of_pos (by rw [decide_eq_true hrule, decide_eq_true hshort]; rfl)]
        -- the zone that is set ends the search
        unfold pick
        split
        · rfl
        · rw [(rankIn_eq z.name).1]
          exact ih (k + 1) hzs _
      · rw [if_pos hrule,
          filter_cons_of_neg (by rw [decide_eq_false hrule, Bool.false_and]; decide)]
        exact ih (k + 1) hzs b
    · rw [if_neg hshort,
        filter_cons_of_neg (by rw [decide_eq_false hshort, Bool.and_false]; decide)]
      exact ih (k + 1) hzs b

variable {r : Bytes → ℕ} {cur : Option Bytes}

/-- The zone that is set is kept. -/
theorem pick_current {zs : List Zone} {z : Zone} (hz : z ∈ zs)
    (hcur : cur = some z.name) (b : Best) :
    (pick r cur zs b).found = true ∧ (pick r cur zs b).name = z.name := by
  induction zs generalizing b with
  | nil => exact absurd hz not_mem_nil
  | cons y zs ih =>
    unfold pick
    by_cases hy : cur = some y.name
    · rw [if_pos hy]
      exact ⟨rfl, (some.inj (hcur.symm.trans hy)).symm⟩
    · rw [if_neg hy]
      rcases mem_cons.mp hz with rfl | hz
      · exact absurd hcur hy
      · exact ih hz _

/-- One more zone. -/
theorem First.step {zs : List Zone} {z : Zone} (h : First r zs z) (y : Zone) :
    ∃ z', First r (zs ++ [y]) z' ∧
    (⟨true, r z.name, z.name⟩ : Best).step (r y.name) y.name = ⟨true, r z'.name, z'.name⟩ := by
  obtain ⟨before, behind, rfl, hbefore, hbehind⟩ := h
  unfold Best.step
  by_cases hlt : r y.name < r z.name
  · refine ⟨y, ⟨before ++ z :: behind, [], rfl, ?_, nofun⟩, if_pos hlt⟩
    intro x hx
    rcases mem_append.mp hx with hx | hx
    · exact hlt.trans (hbefore x hx)
    · rcases mem_cons.mp hx with rfl | hx
      · exact hlt
      · exact hlt.trans_le (hbehind x hx)
  · refine ⟨z, ⟨before, behind ++ [y], ?_, hbefore, ?_⟩, if_neg hlt⟩
    · rw [append_assoc, cons_append]
    · intro x hx
      rcases mem_append.mp hx with hx | hx
      · exact hbehind x hx
      · rw [mem_singleton.mp hx]
        exact not_lt.mp hlt

/-- No zone of these is the one that is set: the first of the lowest rank is picked. -/
theorem pick_first (hr : ∀ n, r n ≤ 70) {zs : List Zone} (hne : zs ≠ [])
    (hcur : ∀ z ∈ zs, cur ≠ some z.name) :
    ∃ z, First r zs z ∧ pick r cur zs {} = ⟨true, r z.name, z.name⟩ := by
  have hrun : ∀ (zs done : List Zone) (z : Zone), First r done z → (∀ y ∈ zs, cur ≠ some y.name) →
      ∃ z', First r (done ++ zs) z' ∧
      pick r cur zs ⟨true, r z.name, z.name⟩ = ⟨true, r z'.name, z'.name⟩ := by
    intro zs
    induction zs with
    | nil =>
      intro done z h _
      rw [append_nil]
      exact ⟨z, h, rfl⟩
    | cons y zs ih =>
      intro done z h hno
      obtain ⟨z', hfirst, hstep⟩ := h.step y
      obtain ⟨z'', hlast, hpick⟩ :=
        ih (done ++ [y]) z' hfirst fun x hx => hno x (mem_cons_of_mem y hx)
      refine ⟨z'', ?_, ?_⟩
      · rw [append_assoc] at hlast
        exact hlast
      · unfold pick
        rw [if_neg (hno y mem_cons_self), hstep]
        exact hpick
  cases zs with
  | nil => exact absurd rfl hne
  | cons y zs =>
    have hfirst : First r [y] y := ⟨[], [], rfl, nofun, nofun⟩
    obtain ⟨z, hlast, hpick⟩ := hrun zs [y] y hfirst fun x hx => hcur x (mem_cons_of_mem y hx)
    refine ⟨z, hlast, ?_⟩
    have hle := hr y.name
    have hstep : ({} : Best).step (r y.name) y.name = ⟨true, r y.name, y.name⟩ := if_pos (by
      change r y.name < 999
      omega)
    unfold pick
    rw [if_neg (hcur y mem_cons_self), hstep]
    exact hpick

/-- The lookup in a table. -/
theorem tzLookup_table (h : Table file zones) (posix : Bytes) (cap : ℕ) :
    tzLookup file posix cur cap =
    .ok (if (pick (rankIn file) cur (having posix zones) {}).found then
      fit cap (pick (rankIn file) cur (having posix zones) {}).name else none) := by
  have hread : readAt file 0 24 = some (file.take 24) := by
    have hlen := h.length.1
    have hall : readAt file (long 0) 24 = some ((file.drop 0).take 24) := by
      refine readAt_eq (by decide) rfl ?_
      rw [drop_zero, length_take]
      omega
    rw [drop_zero] at hall
    exact hall
  generalize hh : file.take 24 = hd at hread
  have hlen : hd.length = 24 := length_readAt hread
  have hnumber : ∀ i, i + 4 ≤ 24 → ofBe ((hd.drop i).take 4) = number file i := by
    intro i hi
    unfold number
    rw [← hh, drop_take, take_take, Nat.min_eq_left (by omega)]
  have hmagic : (hd.drop 0).take 6 = text "tzdata" := by
    rw [← hh, drop_zero, take_take]
    exact h.magic.1
  have hend : peek hd 11 = .ok nul := by
    have hbyte : hd[11]? = some nul := by
      rw [← hh, getElem?_take_of_lt (by decide)]
      exact h.magic.2
    unfold peek
    rw [hbyte]
  have hindex := h.index
  have hparts := h.parts
  have hturns : (number file 16 - number file 12) / entryLen = zones.length ∧
      (number file 16 - number file 12) % entryLen = 0 := by
    rw [hindex, Nat.add_sub_cancel_left]
    exact ⟨Nat.mul_div_cancel_left _ (by decide), Nat.mul_mod_right _ _⟩
  have hloop : lookupLoop file (number file 16) (number file 20)
      (zonetab file (number file 20)) posix cur
      (zones.length + 1) (number file 12) {} = _ := lookupLoop_table h posix cur zones 0 rfl {}
  unfold tzLookup
  rw [hread]
  dsimp only
  rw [slice_eq (by omega), hend, be32_inside (by omega), be32_inside (by omega),
    be32_inside (by omega), hnumber 12 (by decide), hnumber 16 (by decide),
    hnumber 20 (by decide), hmagic]
  simp only [bind, Except.bind]
  rw [if_neg (fun h => h.elim (fun h => h rfl) fun h => h rfl), if_neg (by rw [hturns.2]; omega),
    hturns.1, hloop]
  dsimp only
  generalize pick (rankIn file) cur (having posix zones) {} = b
  cases hb : b.found with
  | false => rfl
  | true =>
    unfold fit
    by_cases hcap : b.name.length < cap
    · rw [if_neg (by rw [not_or]; exact ⟨Bool.false_ne_true, not_le.mpr hcap⟩), room_eq hcap,
        if_pos rfl, if_pos hcap]
    · rw [if_pos (.inr (not_lt.mp hcap)), if_pos rfl, if_neg hcap]

end table

/-- **The zone that is found.**  The lookup stays inside of what it has read, whatever the file is.
In a well-formed table, of the zones that have the rule it finds the one that is set, or else the
first of the lowest rank, and none if there are none; a zone whose rule is longer than the buffer is
none of them. -/
theorem lookup_exact (file posix : Bytes) (cur : Option Bytes) (cap : ℕ) :
    (∃ r, tzLookup file posix cur cap = .ok r) ∧ ∀ zones, Table file zones →
      (having posix zones = [] → tzLookup file posix cur cap = .ok none) ∧
      (∀ z ∈ having posix zones, cur = some z.name →
        tzLookup file posix cur cap = .ok (fit cap z.name)) ∧
      (having posix zones ≠ [] → (∀ z ∈ having posix zones, cur ≠ some z.name) →
        ∃ z, First (rankIn file) (having posix zones) z ∧
        tzLookup file posix cur cap = .ok (fit cap z.name)) := by
  refine ⟨tzLookup_inside file posix cur cap, ?_⟩
  intro zones h
  rw [tzLookup_table h]
  refine ⟨?_, ?_, ?_⟩
  · intro hnone
    rw [hnone]
    rfl
  · intro z hz hcur
    obtain ⟨hfound, hname⟩ := pick_current (r := rankIn file) hz hcur {}
    rw [hfound, hname, if_pos rfl]
  · intro hne hcur
    obtain ⟨z, hfirst, hpick⟩ := pick_first (fun n => (rankIn_eq n).2) hne hcur
    refine ⟨z, hfirst, ?_⟩
    rw [hpick, if_pos rfl]

/-- Of three zones two have the rule; the second of them is the more usual one, and `zone.tab` lists
both. -/
theorem lookup_exact_berlin :
    let a : Zone :=
      ⟨text "Africa/Ceuta", text "CET-1CEST", text "TZif2", by decide +kernel, by decide +kernel⟩
    let b : Zone :=
      ⟨text "Asia/Tokyo", text "JST-9", text "TZif2", by decide +kernel, by decide +kernel⟩
    let c : Zone :=
      ⟨text "Europe/Berlin", text "CET-1CEST", text "TZif2", by decide +kernel, by decide +kernel⟩
    let entry (z : Zone) (start : UInt8) : Bytes := z.name ++ replicate (40 - z.name.length) 0 ++
      [0, 0, 0, start, 0, 0, 0, z.data.length.toUInt8, 0, 0, 0, 0]
    let file : Bytes := text "tzdata2025a" ++ [0, 0, 0, 0, 24, 0, 0, 0, 180, 0, 0, 0, 224] ++
      entry a 0 ++ entry b 16 ++ entry c 28 ++ a.data ++ b.data ++ c.data ++
      text "ES\t+3553-00519\tAfrica/Ceuta\nDE\t+5230+01322\tEurope/Berlin\n"
    having c.rule [a, b, c] = [a, c] ∧ tzLookup file c.rule none 64 = .ok (some c.name) := by
  intro a b c entry file
  have htable : Table file [a, b, c] := by
    refine ⟨by decide +kernel, by decide +kernel, by decide +kernel, by decide +kernel, ?_⟩
    have hentry : ∀ k : Fin 3, (fun z pos => cString ((file.drop pos).take nameLen) = z.name ∧
        number file (pos + nameLen + 4) = z.data.length ∧
        number file (pos + nameLen) + z.data.length ≤ number file 20 - number file 16 ∧
        (file.drop (number file 16 + number file (pos + nameLen))).take z.data.length = z.data)
        ([a, b, c].get k) (number file 12 + entryLen * k) := by
      decide +kernel
    intro k z hz
    obtain ⟨hk, rfl⟩ := List.getElem?_eq_some_iff.mp hz
    obtain ⟨hname, hlen, hin, hdata⟩ := hentry ⟨k, hk⟩
    exact ⟨hname, hlen, hin, hdata⟩
  have hhaving : having c.rule [a, b, c] = [a, c] := by decide +kernel
  obtain ⟨-, hfound⟩ := lookup_exact file c.rule none 64
  obtain ⟨z, ⟨before, behind, hall, -, hfirst⟩, hz⟩ :=
    (hfound [a, b, c] htable).2.2 (by rw [hhaving]; exact cons_ne_nil _ _) nofun
  refine ⟨hhaving, ?_⟩
  rw [hhaving] at hall
  cases before with
  | nil =>
    obtain ⟨rfl, rfl⟩ := cons.inj hall
    exact absurd (hfirst c mem_cons_self) (by decide +kernel)
  | cons y before =>
    cases before with
    | nil =>
      obtain ⟨-, hall⟩ := cons.inj hall
      obtain ⟨rfl, -⟩ := cons.inj hall
      exact hz.trans (by decide +kernel)
    | cons x before => simp at hall

/-- **A rule of 129 characters is not found**, in a well-formed table with a zone that has it. -/
theorem lookup_long_rule :
    let z : Zone :=
      ⟨text "Europe/Berlin", replicate 129 0x41, [], by decide +kernel, by decide +kernel⟩
    let file : Bytes := text "tzdata2025a" ++ [0, 0, 0, 0, 24, 0, 0, 0, 76, 0, 0, 0, 207] ++
      (z.name ++ replicate 27 0 ++ [0, 0, 0, 0, 0, 0, 0, 131, 0, 0, 0, 0]) ++ z.data
    Table file [z] ∧ tzLookup file z.rule none 64 = .ok none := by
  intro z file
  refine ⟨⟨by decide +kernel, by decide +kernel, by decide +kernel, by decide +kernel,
    ?_⟩, by decide +kernel⟩
  intro k y hy
  cases k with
  | zero =>
    obtain rfl := some.inj hy
    exact ⟨by decide +kernel, by decide +kernel, by decide +kernel, by decide +kernel⟩
  | succ k => exact nomatch hy

end Hassmic.Tz
