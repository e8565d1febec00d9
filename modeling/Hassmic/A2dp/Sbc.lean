import Hassmic.Lib.Bits

/-!
# SBC frames

A frame of the SBC codec is a header of four bytes, the flags of the subbands that are coded as
joint stereo, a scale factor for each channel and subband, and for each block the quantised samples,
each in as many bits as the bit allocation gives its channel and subband.  The allocation is not in
the frame: it is computed from the header and the scale factors, by the encoder and by the decoder.

The filter banks and the quantiser are floating point; what they give the writer of a frame (the
flags, the scale factors and the samples) is an argument here, and what the reader hands to them is
its result.

## Main definitions

* `get`, `put`, `crc8` — bits read and written at a position.
* `allocate` — the bit allocation.
* `sbcEncInit`, `sbcEncLen`, `sbcEncode` — the encoder.
* `sbcDecode` — the decoder, all of its modes.
-/

namespace Hassmic.Sbc

open List Option Function

/-- A channel and a subband of a frame. -/
abbrev Cell := Fin 2 × Fin 8

/-! ### Bits at a position -/

/-- `get`: the next `n` bits, and where they end. -/
def get (p : Bytes) (pos n : ℕ) : Option (ℕ × ℕ) := go n 0 pos
where
  go : ℕ → ℕ → ℕ → Option (ℕ × ℕ)
  | 0, v, pos => some (v, pos)
  | n + 1, v, pos =>
    if pos / 8 < p.length then go n (v <<< 1 ||| (Bits.bitAt p pos).toNat) (pos + 1) else none

/-- `put`: the low `n` bits of `v`, highest first, into bytes that are zero there. -/
def put (p : Bytes) (pos v : ℕ) : ℕ → Option (Bytes × ℕ)
  | 0 => some (p, pos)
  | n + 1 =>
    if v.testBit n then
      if pos / 8 < p.length then put (Bits.setBit p pos) (pos + 1) v n else none
    else put p (pos + 1) v n

/-- **What `get` reads is a field of the bytes.** -/
theorem get_eq {p : Bytes} {pos n : ℕ} (h : pos + n ≤ 8 * p.length) :
    get p pos n = some (Bits.field p pos n, pos + n) := by
  have hgo : ∀ m k, pos + k + m ≤ 8 * p.length →
      get.go p m (Bits.field p pos k) (pos + k) = some (Bits.field p pos (k + m), pos + k + m) := by
    intro m
    induction m with
    | zero => exact fun _ _ => rfl
    | succ m ih =>
      intro k hk
      have hnext : Bits.field p pos k <<< 1 ||| (Bits.bitAt p (pos + k)).toNat =
          Bits.field p pos (k + 1) := by
        rw [← Nat.shiftLeft_add_eq_or_of_lt (by cases Bits.bitAt p (pos + k) <;> decide),
          Bits.field, Nat.shiftLeft_eq]
        omega
      rw [get.go, if_pos (by omega), hnext, Nat.add_assoc pos k 1, ih (k + 1) (by omega)]
      congr 2
      · rw [Nat.add_right_comm, Nat.add_assoc k m 1]
      · omega
  exact (hgo n 0 (by omega)).trans (by rw [Nat.zero_add, Nat.add_zero])

/-- **What `put` writes**: the bits of the value, and no others. -/
theorem put_spec (v : ℕ) : ∀ (n : ℕ) (p : Bytes) (pos : ℕ), pos + n ≤ 8 * p.length →
    ∃ p', put p pos v n = some (p', pos + n) ∧ p'.length = p.length ∧
      ∀ i, Bits.bitAt p' i =
        (Bits.bitAt p i || (decide (pos ≤ i ∧ i < pos + n) && v.testBit (pos + n - 1 - i))) := by
  intro n
  induction n with
  | zero =>
    intro p pos _
    refine ⟨p, rfl, rfl, fun i => ?_⟩
    rw [decide_eq_false (by omega), Bool.false_and, Bool.or_false]
  | succ n ih =>
    intro p pos h
    have hin : pos / 8 < p.length := by omega
    by_cases hbit : v.testBit n = true
    · obtain ⟨p', hput, hlen, hbits⟩ := ih (Bits.setBit p pos) (pos + 1)
        (by rw [Bits.length_setBit]; omega)
      refine ⟨p', ?_, by rw [hlen, Bits.length_setBit], fun i => ?_⟩
      · rw [put, if_pos hbit, if_pos hin, hput]
        congr 2
        omega
      · rw [hbits i, Bits.bitAt_setBit hin, show pos + 1 + n = pos + (n + 1) by omega]
        rcases Nat.lt_trichotomy i pos with hi | rfl | hi
        · simp [show ¬ pos + 1 ≤ i by omega, show ¬ pos ≤ i by omega, show pos ≠ i by omega]
        · rw [show i + (n + 1) - 1 - i = n by omega, hbit]
          simp
        · simp [show pos + 1 ≤ i by omega, show pos ≤ i by omega, show pos ≠ i by omega]
    · obtain ⟨p', hput, hlen, hbits⟩ := ih p (pos + 1) (by omega)
      refine ⟨p', ?_, hlen, fun i => ?_⟩
      · rw [put, if_neg hbit, hput]
        congr 2
        omega
      · rw [hbits i, show pos + 1 + n = pos + (n + 1) by omega]
        rcases Nat.lt_trichotomy i pos with hi | rfl | hi
        · simp [show ¬ pos + 1 ≤ i by omega, show ¬ pos ≤ i by omega]
        · rw [show i + (n + 1) - 1 - i = n by omega]
          simp [hbit]
        · simp [show pos + 1 ≤ i by omega, show pos ≤ i by omega]

/-- The CRC of a frame's header and of the first `bits` bits after it, less the CRC itself. -/
def crc8 (p : Bytes) (bits : ℕ) : UInt8 :=
  (List.range' 8 (24 + bits)).foldl (fun c i =>
    if 24 ≤ i ∧ i < 32 then c
    else (c <<< 1) ^^^ (if (c >>> 7 == 1) != Bits.bitAt p i then 0x1d else 0)) 0x0f

/-! ### Bit allocation -/

/-- The loudness offsets for four subbands: sampling frequency, subband. -/
def offset4 : List (List ℤ) := [[-1, 0, 0, 0], [-2, 0, 0, 1], [-2, 0, 0, 1], [-2, 0, 0, 1]]

/-- The loudness offsets for eight subbands. -/
def offset8 : List (List ℤ) :=
  [[-2, 0, 0, 0, 0, 0, 0, 1], [-3, 0, 0, 0, 0, 0, 1, 2], [-4, 0, 0, 0, 0, 0, 1, 2],
    [-4, 0, 0, 0, 0, 0, 1, 2]]

/-- The frequencies a frame may have. -/
def rates : List ℕ := [16000, 32000, 44100, 48000]

/-- The cells in the order of two loops, the channels in the outer one. -/
def cells (nch nsb : ℕ) : List Cell :=
  ((finRange 2).filter (·.val < nch)).flatMap fun ch =>
    ((finRange 8).filter (·.val < nsb)).map fun sb => (ch, sb)

/-- The cells as the rest of the bits goes round: subband by subband, alternating channels. -/
def alternating (nch nsb : ℕ) : List Cell :=
  ((finRange 8).filter (·.val < nsb)).flatMap fun sb =>
    ((finRange 2).filter (·.val < nch)).map fun ch => (ch, sb)

/-- What a scale factor needs. -/
def needs (nsb : ℕ) (snr : Bool) (fs : ℕ) (sf : Cell → ℕ) (c : Cell) : ℤ :=
  if snr then sf c
  else if sf c = 0 then -5
  else
    let l := (sf c : ℤ) - (((if nsb = 4 then offset4 else offset8).getD fs []).getD c.2 0)
    if 0 < l then l / 2 else l

/-- What one cell adds when the slice goes down to `slice`. -/
def sliceOf (slice need : ℤ) : ℕ :=
  if slice + 1 < need ∧ need < slice + 16 then 1 else if need = slice + 1 then 2 else 0

/-- The loop that lowers the slice until the bitpool is reached: the slice, the bits counted and
what the last round would add.  `fuel` bounds its rounds. -/
def lower (need : Cell → ℤ) (l : List Cell) (bitpool : ℕ) : ℕ → ℤ → ℕ → ℕ → Option (ℤ × ℕ × ℕ)
  | 0, _, _, _ => none
  | fuel + 1, slice, count, slices =>
    let slice := slice - 1
    let count := count + slices
    let slices := (l.map fun c => sliceOf slice (need c)).sum
    if count + slices < bitpool then lower need l bitpool fuel slice count slices
    else some (slice, count, slices)

/-- A round over the cells in which each may take bits while the bitpool lasts: `take` gives the
bits a cell then has, and what the round counts for them. -/
def spread (bitpool : ℕ) (take : (Cell → ℕ) → ℕ → Cell → ℕ × ℕ) :
    List Cell → (Cell → ℕ) → ℕ → (Cell → ℕ) × ℕ
  | [], bits, count => (bits, count)
  | c :: rest, bits, count =>
    if count < bitpool then
      let (b, n) := take bits count c
      spread bitpool take rest (update bits c b) (count + n)
    else (bits, count)

/-- The first round: a cell that has bits takes one more, one that would have two in the next slice
takes these. -/
def firstTake (bitpool : ℕ) (slice : ℤ) (need : Cell → ℤ) (bits : Cell → ℕ) (count : ℕ) (c : Cell) :
    ℕ × ℕ :=
  if 2 ≤ bits c ∧ bits c < 16 then (bits c + 1, 1)
  else if need c = slice + 1 ∧ bitpool > count + 1 then (2, 2)
  else (bits c, 0)

/-- The second round: every cell takes one more. -/
def secondTake (bits : Cell → ℕ) (_count : ℕ) (c : Cell) : ℕ × ℕ :=
  if bits c < 16 then (bits c + 1, 1) else (bits c, 0)

/-- The bits of a need at a slice. -/
def bitsAt (slice need : ℤ) : ℕ := if need < slice + 2 then 0 else min 16 (need - slice).toNat

/-- The bits of each cell at a slice whose bits are counted, and the rest of the bitpool over
them. -/
def assigned (nch nsb bitpool : ℕ) (need : Cell → ℤ) (slice : ℤ) (count : ℕ) : Cell → ℕ :=
  let bits : Cell → ℕ := fun c => if c ∈ cells nch nsb then bitsAt slice (need c) else 0
  let (bits, count) :=
    spread bitpool (firstTake bitpool slice need) (alternating nch nsb) bits count
  (spread bitpool secondTake (alternating nch nsb) bits count).1

/-- `allocate`: the bits of each cell. -/
def allocate (nch nsb : ℕ) (snr : Bool) (fs bitpool : ℕ) (sf : Cell → ℕ) : Option (Cell → ℕ) := do
  let need := needs nsb snr fs sf
  let top := (cells nch nsb).foldl (fun top c => if need c > top then need c else top) 0
  let (slice, count, slices) ← lower need (cells nch nsb) bitpool 64 (top + 1) 0 0
  if count + slices = bitpool then return assigned nch nsb bitpool need (slice - 1) (count + slices)
  return assigned nch nsb bitpool need slice count

/-! ### The allocation keeps to the bitpool -/

theorem nodup_cells (nch nsb : ℕ) : (cells nch nsb).Nodup :=
  ((nodup_finRange 2).filter _).product ((nodup_finRange 8).filter _)

variable {nsb bitpool : ℕ} {l : List Cell} {need : Cell → ℤ}

theorem mem_alternating_iff {nch : ℕ} {c : Cell} : c ∈ alternating nch nsb ↔ c ∈ cells nch nsb := by
  obtain ⟨ch, sb⟩ := c
  simp only [alternating, cells, mem_flatMap, List.mem_map, mem_filter, mem_finRange,
    Prod.mk.injEq, true_and, decide_eq_true_eq]
  constructor
  · rintro ⟨s, hs, c, hc, rfl, rfl⟩
    exact ⟨c, hc, s, hs, rfl, rfl⟩
  · rintro ⟨c, hc, s, hs, rfl, rfl⟩
    exact ⟨s, hs, c, hc, rfl, rfl⟩

theorem nodup_alternating (nch nsb : ℕ) : (alternating nch nsb).Nodup := by
  have h : ((((finRange 8).filter (·.val < nsb)).product
      ((finRange 2).filter (·.val < nch))).map Prod.swap).Nodup :=
    (((nodup_finRange 8).filter _).product ((nodup_finRange 2).filter _)).map
      Prod.swap_injective
  have heq : (((finRange 8).filter (·.val < nsb)).product
      ((finRange 2).filter (·.val < nch))).map Prod.swap = alternating nch nsb := by
    unfold List.product alternating
    rw [map_flatMap]
    congr 1
    funext sb
    rw [List.map_map]
    rfl
  exact heq ▸ h

/-- No loudness offset leaves a need out of bounds. -/
theorem needs_bounds {fs : ℕ} {snr : Bool} {sf : Cell → ℕ} (hsf : ∀ c, sf c ≤ 15) (c : Cell) :
    -5 ≤ needs nsb snr fs sf c ∧ needs nsb snr fs sf c ≤ 15 := by
  have h := hsf c
  unfold needs
  split
  · omega
  · split
    · omega
    · have hoff : ∀ t ∈ [offset4, offset8], ∀ row ∈ t, ∀ x ∈ row, (-4 : ℤ) ≤ x ∧ x ≤ 2 := by decide
      have hrow : ∀ t ∈ [offset4, offset8], (-4 : ℤ) ≤ (t.getD fs []).getD c.2 0 ∧
          (t.getD fs []).getD c.2 0 ≤ 2 := by
        intro t ht
        rw [getD_eq_getElem?_getD, getD_eq_getElem?_getD]
        cases hfs : t[fs]? with
        | none => simp
        | some row =>
          cases hsb : row[(c.2 : ℕ)]? with
          | none => simp [hsb]
          | some x =>
            simp only [getD_some, hsb]
            exact hoff t ht row (mem_of_getElem? hfs) x (mem_of_getElem? hsb)
      have hb := hrow (if nsb = 4 then offset4 else offset8) (by split <;> simp)
      simp only
      generalize ((if nsb = 4 then offset4 else offset8).getD fs []).getD c.2 0 = x at hb ⊢
      split <;> omega

/-- The next slice gives a need as many bits more as the loop counts for it. -/
theorem bitsAt_pred (slice need : ℤ) :
    bitsAt (slice - 1) need = bitsAt slice need + sliceOf slice need := by
  unfold bitsAt sliceOf
  split <;> split <;> split <;> (try split) <;> omega

theorem bitsAt_le (slice need : ℤ) : bitsAt slice need ≤ 16 := by
  unfold bitsAt
  split <;> omega

theorem sum_bitsAt_pred (need : Cell → ℤ) (l : List Cell) (slice : ℤ) :
    (l.map fun c => bitsAt (slice - 1) (need c)).sum =
      (l.map fun c => bitsAt slice (need c)).sum + (l.map fun c => sliceOf slice (need c)).sum := by
  rw [← sum_map_add]
  exact congrArg List.sum (map_congr_left fun c _ => bitsAt_pred slice (need c))

/-- A slice far below every need gives each cell all its bits. -/
theorem sum_bitsAt_low {slice : ℤ} (h : ∀ c ∈ l, slice + 16 ≤ need c) :
    (l.map fun c => bitsAt slice (need c)).sum = 16 * l.length := by
  have hconst : (l.map fun c => bitsAt slice (need c)) = l.map fun _ => 16 := by
    apply map_congr_left
    intro c hc
    have hlow := h c hc
    unfold bitsAt
    split <;> omega
  rw [hconst, map_const', sum_replicate, smul_eq_mul, Nat.mul_comm]

/-- **The loop ends at a slice whose bits fit into the bitpool**, and it knows how many these
are. -/
theorem lower_spec (hneed : ∀ c ∈ l, -5 ≤ need c)
    (hpool : bitpool ≤ 16 * l.length) : ∀ (fuel : ℕ) (slice : ℤ) (count slices : ℕ),
    count + slices = (l.map fun c => bitsAt (slice - 1) (need c)).sum →
    count + slices ≤ bitpool → -20 ≤ slice → slice + 21 ≤ fuel →
    ∃ s n m, lower need l bitpool fuel slice count slices = some (s, n, m) ∧
      n = (l.map fun c => bitsAt s (need c)).sum ∧
      n + m = (l.map fun c => bitsAt (s - 1) (need c)).sum ∧ n ≤ bitpool := by
  intro fuel
  induction fuel with
  | zero =>
    intro slice count slices _ _ hlow hfuel
    omega
  | succ fuel ih =>
    intro slice count slices hsum hle hlow hfuel
    have hnext := sum_bitsAt_pred need l (slice - 1)
    rw [← hsum] at hnext
    rw [lower]
    split
    · next hmore =>
      refine ih (slice - 1) (count + slices) _ hnext.symm (by omega) ?_ (by omega)
      -- a slice below all the needs by sixteen would have reached the bitpool
      by_contra hdeep
      have hall : ∀ c ∈ l, slice - 1 - 1 + 16 ≤ need c := fun c hc => by have := hneed c hc; omega
      rw [sum_bitsAt_low hall] at hnext
      omega
    · exact ⟨_, _, _, rfl, hsum, hnext.symm, hle⟩

/-- A round counts what it adds to the bits, and stays within the bitpool. -/
theorem spread_spec {t : (Cell → ℕ) → ℕ → Cell → ℕ × ℕ} {P : (Cell → ℕ) → Cell → Prop}
    (htake : ∀ bits count c, P bits c → count < bitpool → bits c ≤ 16 →
      (t bits count c).1 = bits c + (t bits count c).2 ∧ (t bits count c).1 ≤ 16 ∧
        count + (t bits count c).2 ≤ bitpool)
    (hok : ∀ bits c b c', c' ≠ c → P bits c' → P (update bits c b) c') :
    ∀ (l : List Cell) (bits : Cell → ℕ) (count : ℕ), l.Nodup → (∀ c ∈ l, P bits c) →
      (∀ c, bits c ≤ 16) → ∑ c, bits c = count → count ≤ bitpool →
      ∑ c, (spread bitpool t l bits count).1 c = (spread bitpool t l bits count).2 ∧
        (∀ c, (spread bitpool t l bits count).1 c ≤ 16) ∧
        (spread bitpool t l bits count).2 ≤ bitpool ∧
        ∀ c ∉ l, (spread bitpool t l bits count).1 c = bits c := by
  intro l
  induction l with
  | nil => exact fun bits count _ _ h16 hsum hle => ⟨hsum, h16, hle, fun _ _ => rfl⟩
  | cons c rest ih =>
    intro bits count hnd hall h16 hsum hle
    obtain ⟨hc, hrest⟩ := nodup_cons.mp hnd
    rw [spread]
    split
    · next hmore =>
      obtain ⟨hb, hb16, hcount⟩ :=
        htake bits count c (hall c mem_cons_self) hmore (h16 c)
      generalize t bits count c = taken at hb hb16 hcount
      obtain ⟨b, n⟩ := taken
      simp only at hb hb16 hcount ⊢
      obtain ⟨hs, hs16, hsle, hout⟩ := ih (update bits c b) (count + n) hrest
        (fun c' hc' => hok bits c b c' (fun h => hc (h ▸ hc')) (hall c' (mem_cons_of_mem c hc')))
        (fun c' => by
          by_cases h : c' = c
          · rw [h, update_self]
            exact hb16
          · rw [update_of_ne h]
            exact h16 c')
        (by
          rw [Finset.sum_update_of_mem (Finset.mem_univ c), hb, ← hsum,
            ← Finset.add_sum_erase _ _ (Finset.mem_univ c), Finset.sdiff_singleton_eq_erase]
          omega)
        hcount
      refine ⟨hs, hs16, hsle, fun c' hc' => ?_⟩
      rw [hout c' (fun h => hc' (mem_cons_of_mem c h)),
        update_of_ne (fun h => hc' (mem_cons.mpr (Or.inl h)))]
    · exact ⟨hsum, h16, hle, fun _ _ => rfl⟩

theorem sum_if_mem (h : l.Nodup) (f : Cell → ℕ) :
    ∑ c, (if c ∈ l then f c else 0) = (l.map f).sum := by
  rw [← sum_toFinset f h, ← Finset.sum_filter]
  congr 1
  ext c
  simp

/-- The rest of the bitpool gives no cell more than sixteen bits, and ends with the bitpool. -/
theorem assigned_spec {nch : ℕ} {slice : ℤ} {count : ℕ}
    (hcount : count = ((cells nch nsb).map fun c => bitsAt slice (need c)).sum)
    (hle : count ≤ bitpool) :
    (∀ c, assigned nch nsb bitpool need slice count c ≤ 16) ∧
      (∀ c ∉ cells nch nsb, assigned nch nsb bitpool need slice count c = 0) ∧
      ∑ c, assigned nch nsb bitpool need slice count c ≤ bitpool := by
  obtain ⟨hsum1, h161, hle1, hout1⟩ := spread_spec (t := firstTake bitpool slice need)
    (P := fun bits c => need c = slice + 1 → bits c = 0)
    (by
      intro bits count c hnone hmore h16
      unfold firstTake
      split
      · exact ⟨rfl, by simp only; omega, by simp only; omega⟩
      · split
        · next h =>
          have h0 := hnone h.1
          exact ⟨by simp only; omega, by simp only; omega, by simp only; omega⟩
        · exact ⟨rfl, h16, by simp only; omega⟩)
    (by
      intro bits c b c' hne hnone h
      rw [update_of_ne hne]
      exact hnone h)
    (alternating nch nsb) (fun c => if c ∈ cells nch nsb then bitsAt slice (need c) else 0) count
    (nodup_alternating nch nsb)
    (by
      intro c _ h
      simp only
      split
      · unfold bitsAt
        rw [if_pos (by omega)]
      · rfl)
    (by
      intro c
      split
      · exact bitsAt_le slice (need c)
      · omega)
    (by rw [sum_if_mem (nodup_cells nch nsb), hcount]) hle
  -- the second round may give any sample one more
  obtain ⟨hsum2, h162, hle2, hout2⟩ := spread_spec (t := secondTake) (P := fun _ _ => True)
    (by
      intro bits count c _ hmore h16
      unfold secondTake
      split
      · exact ⟨rfl, by simp only; omega, by simp only; omega⟩
      · exact ⟨rfl, h16, by simp only; omega⟩)
    (fun _ _ _ _ _ _ => trivial)
    (alternating nch nsb) _ _ (nodup_alternating nch nsb) (fun _ _ => trivial) h161 hsum1 hle1
  refine ⟨h162, fun c hc => ?_, hsum2.trans_le hle2⟩
  have hc' : c ∉ alternating nch nsb := fun h => hc (mem_alternating_iff.mp h)
  unfold assigned
  simp only
  rw [hout2 c hc', hout1 c hc', if_neg hc]

/-- The highest need of some cells, and of the one at hand. -/
theorem top_spec {m : ℤ} (hneed : ∀ c, need c ≤ m) : ∀ (l : List Cell) (top : ℤ),
    top ≤ m →
      (∀ c ∈ l, need c ≤ l.foldl (fun top c => if need c > top then need c else top) top) ∧
        top ≤ l.foldl (fun top c => if need c > top then need c else top) top ∧
        l.foldl (fun top c => if need c > top then need c else top) top ≤ m := by
  intro l
  induction l with
  | nil => exact fun top hm => ⟨by simp, le_refl _, hm⟩
  | cons c l ih =>
    intro top hm
    have hc := hneed c
    obtain ⟨hall, hge, hle⟩ := ih (if need c > top then need c else top) (by split <;> omega)
    rw [foldl_cons]
    refine ⟨?_, ?_, hle⟩
    · intro c' hc'
      rcases mem_cons.mp hc' with rfl | hc'
      · exact le_trans (by split <;> omega) hge
      · exact hall c' hc'
    · exact le_trans (by split <;> omega) hge

/-- **The allocation comes to an end, gives each cell at most sixteen bits, and all of them no more
than the bitpool.** -/
theorem allocate_spec {nch fs : ℕ} {snr : Bool} {sf : Cell → ℕ} (hsf : ∀ c, sf c ≤ 15)
    (hpool : bitpool ≤ 16 * (cells nch nsb).length) :
    ∃ bits, allocate nch nsb snr fs bitpool sf = some bits ∧ (∀ c, bits c ≤ 16) ∧
      (∀ c ∉ cells nch nsb, bits c = 0) ∧ ∑ c, bits c ≤ bitpool := by
  have hneed : ∀ c, -5 ≤ needs nsb snr fs sf c ∧ needs nsb snr fs sf c ≤ 15 := needs_bounds hsf
  unfold allocate
  simp only
  generalize needs nsb snr fs sf = need at hneed ⊢
  obtain ⟨hall, hge, hle⟩ := top_spec (fun c => (hneed c).2) (cells nch nsb) 0 (by decide)
  generalize (cells nch nsb).foldl (fun top c => if need c > top then need c else top) 0 = top at *
  have hnone : ((cells nch nsb).map fun c => bitsAt (top + 1 - 1) (need c)).sum = 0 := by
    apply sum_eq_zero
    intro x hx
    obtain ⟨c, hc, rfl⟩ := mem_map.mp hx
    have := hall c hc
    unfold bitsAt
    rw [if_pos (by omega)]
  obtain ⟨s, n, m, hlower, hn, hm, hnle⟩ :=
    lower_spec (fun c _ => (hneed c).1) hpool 64 (top + 1) 0 0
    hnone.symm (Nat.zero_le _) (by omega) (by push_cast; omega)
  rw [hlower]
  simp only [Option.bind_eq_bind, Option.bind_some, Option.pure_def]
  split
  · next hfull => exact ⟨_, rfl, assigned_spec hm (by omega)⟩
  · exact ⟨_, rfl, assigned_spec hn hnle⟩

/-! ### The encoder -/

/-- The encoder's configuration. -/
structure Enc where
  fs : ℕ
  bitpool : ℕ
deriving DecidableEq

/-- `sbc_enc_init`, for a rate and a bitpool. -/
def sbcEncInit (rate : ℕ) (bitpool : ℤ) : Option Enc :=
  match rates.idxOf? rate with
  | none => none
  | some fs => some ⟨fs, if bitpool < 2 then 2 else if 250 < bitpool then 250 else bitpool.toNat⟩

/-- `sbc_enc_len`. -/
def sbcEncLen (bitpool : ℕ) : ℕ := 4 + 4 * 8 * 2 / 8 + (8 + 16 * bitpool + 7) / 8

/-- A block, a channel and a subband. -/
abbrev Place := Fin 16 × Cell

/-- The places of a frame in the order in which their samples stand. -/
def places (blocks nch nsb : ℕ) : List Place :=
  ((finRange 16).filter (·.val < blocks)).flatMap fun blk => (cells nch nsb).map fun c => (blk, c)

/-- A loop that puts one value of a width for each name. -/
def putAll {ι : Type} (width value : ι → ℕ) : List ι → Bytes → ℕ → Option (Bytes × ℕ)
  | [], p, pos => some (p, pos)
  | x :: rest, p, pos => do
    let (p, pos) ← put p pos (value x) (width x)
    putAll width value rest p pos

/-- The bits of a flag that is either way one bit. -/
def flag (join : ℕ) (k : ℕ) : ℕ := join >>> k &&& 1

/-- The bytes that the encoder starts from: zeroes, and the header less its CRC. -/
def header (e : Enc) : Bytes :=
  (((replicate (sbcEncLen e.bitpool) (0 : UInt8)).set 0 0x9c).set 1
    (e.fs <<< 6 ||| 3 <<< 4 ||| 3 <<< 2 ||| 0 <<< 1 ||| 1).toUInt8).set 2 e.bitpool.toUInt8

/-- What `sbc_encode` writes for flags, scale factors and samples: the bytes, and the position
behind the last bit. -/
def frame (e : Enc) (join : ℕ) (sf : Cell → ℕ) (q : Place → ℕ) : Option (Bytes × ℕ) := do
  let bits ← allocate 2 8 false e.fs e.bitpool sf
  let (out, pos) ← putAll (fun _ => 1) (flag join) (List.range 8) (header e) 32
  let (out, pos) ← putAll (fun _ => 4) sf (cells 2 8) out pos
  let out := out.set 3 (crc8 out (pos - 32))
  putAll (fun x => bits x.2) q (places 16 2 8) out pos

/-- The sample of a level, kept within the levels of its bits. -/
def clamp (nb : ℕ) (level : ℤ) : ℕ :=
  if level < 0 then 0 else if level > 2 ^ nb - 2 then 2 ^ nb - 2 else level.toNat

/-- `sbc_encode`, for the flags, the scale factors and the levels of the samples that the filter and
the quantiser found. -/
def sbcEncode (e : Enc) (join : ℕ) (sf : Cell → ℕ) (level : Place → ℤ) : Option (Bytes × ℕ) := do
  let bits ← allocate 2 8 false e.fs e.bitpool sf
  frame e join sf fun x => clamp (bits x.2) (level x)

/-! ### The decoder -/

/-- A loop that gets one value of a width for each name. -/
def getAll {ι : Type} [DecidableEq ι] (p : Bytes) (width : ι → ℕ) :
    List ι → (ι → ℕ) → ℕ → Option ((ι → ℕ) × ℕ)
  | [], f, pos => some (f, pos)
  | x :: rest, f, pos => do
    let (v, pos) ← get p pos (width x)
    getAll p width rest (update f x v) pos

/-- The flags, bit by bit. -/
def getJoin (p : Bytes) : List ℕ → ℕ → ℕ → Option (ℕ × ℕ)
  | [], join, pos => some (join, pos)
  | sb :: rest, join, pos => do
    let (v, pos) ← get p pos 1
    getJoin p rest (join ||| v <<< sb) pos

/-- What the decoder reads from a frame before it computes. -/
structure Frame where
  fs : ℕ
  blocks : ℕ
  mode : ℕ
  snr : Bool
  nsb : ℕ
  nch : ℕ
  bitpool : ℕ
  len : ℕ
  join : ℕ
  sf : Cell → ℕ
  bits : Cell → ℕ
  q : Place → ℕ

/-- The length of a frame, from its header. -/
def frameLen (mode nsb nch blocks bitpool : ℕ) : ℕ :=
  4 + 4 * nsb * nch / 8 +
    if mode ≤ 1 then (blocks * nch * bitpool + 7) / 8
    else ((if mode = 3 then nsb else 0) + blocks * bitpool + 7) / 8

/-- The allocation of each channel on its own, or of both. -/
def allocation (mode nch nsb : ℕ) (snr : Bool) (fs bitpool : ℕ) (sf : Cell → ℕ) :
    Option (Cell → ℕ) :=
  if mode ≤ 1 then do
    let one ← allocate 1 nsb snr fs bitpool fun c => sf (0, c.2)
    if nch = 1 then return one
    let two ← allocate 1 nsb snr fs bitpool fun c => sf (1, c.2)
    return fun c => if c.1 = 0 then one (0, c.2) else two (0, c.2)
  else allocate 2 nsb snr fs bitpool sf

/-- `sbc_decode` up to the samples: what it reads from the `n` bytes at `p`. -/
def sbcDecode (p : Bytes) : Option Frame :=
  if p.length < 4 ∨ p.getD 0 0 ≠ 0x9c then none
  else
    let b1 := (p.getD 1 0).toNat
    let fs := b1 >>> 6
    let blocks := 4 * ((b1 >>> 4 &&& 3) + 1)
    let mode := b1 >>> 2 &&& 3
    let snr := b1 >>> 1 &&& 1 == 1
    let nsb := if b1 &&& 1 = 1 then 8 else 4
    let nch := if mode ≠ 0 then 2 else 1
    let bitpool := (p.getD 2 0).toNat
    let len := frameLen mode nsb nch blocks bitpool
    if len > p.length ∨ bitpool > (if mode ≤ 1 then 16 else 32) * nsb then none
    else do
      let (join, pos) ←
        if mode = 3 then do
          let (join, pos) ← getJoin p (List.range (nsb - 1)) 0 32
          let (_, pos) ← get p pos 1
          pure (join, pos)
        else pure (0, 32)
      let (sf, pos) ← getAll p (fun _ => 4) (cells nch nsb) (fun _ => 0) pos
      let bits ← allocation mode nch nsb snr fs bitpool sf
      let (q, _) ← getAll p (fun x => bits x.2) (places blocks nch nsb) (fun _ => 0) pos
      return { fs, blocks, mode, snr, nsb, nch, bitpool, len, join, sf, bits, q }

end Hassmic.Sbc
