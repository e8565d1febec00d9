import Hassmic.A2dp.Sbc

/-!
# What the SBC encoder writes is what the decoder reads

Encoder and decoder go over the same names in the same order: the flags, the scale factors, the
samples.  A loop that puts values lays them out one behind another, and a loop that gets values of
the same widths reads this layout.  The widths of the samples are the bit allocation; both sides
compute it, and the decoder has read what the encoder computed it from when it does.

## Main results

* `putAll_spec`, `getAll_eq` — a loop that puts lays out a layout, a loop that gets reads it.
* `frame_round_trip` — **a frame is read as it was written, and has the length both sides compute.**
-/

namespace Hassmic.Sbc

open Option List

variable {ι : Type}

/-! ### Loops -/

/-- **A loop that puts lays out its values**, and leaves what is before them alone. -/
theorem putAll_spec {width value : ι → ℕ} : ∀ (l : List ι) (p : Bytes) (pos : ℕ),
    (∀ x ∈ l, value x < 2 ^ width x) → pos + Bits.total width l ≤ 8 * p.length →
    (∀ i, pos ≤ i → Bits.bitAt p i = false) →
    ∃ p', putAll width value l p pos = some (p', pos + Bits.total width l) ∧ p'.length = p.length ∧
      (∀ i < pos, Bits.bitAt p' i = Bits.bitAt p i) ∧
      (∀ i, pos + Bits.total width l ≤ i → Bits.bitAt p' i = false) ∧
      Bits.Reads p' width value pos l := by
  intro l
  induction l with
  | nil => exact fun p pos _ _ hclear => ⟨p, rfl, rfl, fun _ _ => rfl, hclear, trivial⟩
  | cons x l ih =>
    intro p pos hvalue hroom hclear
    rw [Bits.total_cons] at hroom ⊢
    obtain ⟨p₁, hput, hlen₁, hbits⟩ := put_spec (value x) (width x) p pos (by omega)
    have hclear₁ : ∀ i, pos + width x ≤ i → Bits.bitAt p₁ i = false := by
      intro i hi
      rw [hbits i, hclear i (by omega), decide_eq_false (by omega), Bool.false_and, Bool.or_false]
    obtain ⟨p', hall, hlen, hbefore, hafter, hreads⟩ := ih p₁ (pos + width x)
      (fun y hy => hvalue y (mem_cons_of_mem x hy)) (by omega) hclear₁
    rw [Nat.add_assoc] at hall hafter
    refine ⟨p', ?_, hlen.trans hlen₁, fun i hi => ?_, hafter, ?_, hreads⟩
    · rw [putAll, hput]
      exact hall
    · rw [hbefore i (by omega), hbits i, decide_eq_false (by omega), Bool.false_and, Bool.or_false]
    · apply Bits.field_eq_of_bits
      · intro j hj
        rw [hbefore _ (by omega), hbits, hclear _ (by omega),
          decide_eq_true (by omega), Bool.true_and, Bool.false_or]
        congr 1
        omega
      · exact hvalue x mem_cons_self

/-- **A loop that gets reads a layout.** -/
theorem getAll_eq [DecidableEq ι] {p : Bytes} {width value : ι → ℕ} : ∀ (l : List ι)
    (f : ι → ℕ) (pos : ℕ), Bits.Reads p width value pos l →
    pos + Bits.total width l ≤ 8 * p.length →
    getAll p width l f pos = some (fun x => if x ∈ l then value x
      else f x, pos + Bits.total width l) := by
  intro l
  induction l with
  | nil => exact fun f pos _ _ => by simp [getAll]
  | cons x l ih =>
    intro f pos ⟨hfield, hrest⟩ hroom
    rw [Bits.total_cons] at hroom ⊢
    rw [getAll, get_eq (by omega), hfield]
    simp only [bind_eq_bind, bind_some]
    rw [ih _ _ hrest (by omega), Nat.add_assoc]
    congr 2
    funext y
    by_cases hy : y ∈ l
    · simp [hy]
    · by_cases hxy : y = x
      · simp [hxy]
      · simp [hy, hxy]

/-- The loop over the flags reads a layout of single bits. -/
theorem getJoin_eq {p : Bytes} {value : ℕ → ℕ} : ∀ (l : List ℕ) (join pos : ℕ),
    Bits.Reads p (fun _ => 1) value pos l → pos + l.length ≤ 8 * p.length →
    getJoin p l join pos =
      some (l.foldl (fun join sb => join ||| value sb <<< sb) join, pos + l.length) := by
  intro l
  induction l with
  | nil => exact fun join pos _ _ => rfl
  | cons sb l ih =>
    intro join pos ⟨hfield, hrest⟩ hroom
    rw [length_cons] at hroom ⊢
    have hone : pos + 1 ≤ 8 * p.length := by omega
    rw [getJoin, get_eq hone, show Bits.field p pos 1 = value sb from hfield]
    simp only [bind_eq_bind, bind_some]
    rw [ih _ (pos + 1) hrest (by omega), foldl_cons]
    congr 2
    omega

/-! ### Frames -/

theorem flag_lt (join k : ℕ) : flag join k < 2 ^ 1 := by
  unfold flag
  rw [Nat.and_one_is_mod]
  omega

variable {join : ℕ} {e : Enc} {bits sf : Cell → ℕ} {q : Place → ℕ}

/-- The flags make up the number they were taken from. -/
theorem join_flags (h : join < 128) :
    (List.range 7).foldl (fun j sb => j ||| flag join sb <<< sb) 0 = join := by
  have hall : ∀ k : Fin 128, (List.range 7).foldl
      (fun j sb => j ||| flag k.val sb <<< sb) 0 = k.val := by
    decide
  exact hall ⟨join, h⟩

theorem mem_cells : ∀ c : Cell, c ∈ cells 2 8 := by decide

theorem mem_places (x : Place) : x ∈ places 16 2 8 := by
  obtain ⟨blk, c⟩ := x
  simp only [places, List.mem_flatMap, List.mem_map, List.mem_filter,
    List.mem_finRange, Prod.mk.injEq, true_and, decide_eq_true_eq]
  exact ⟨blk, blk.isLt, c, mem_cells c, rfl, rfl⟩

theorem total_flags : Bits.total (fun _ => 1) (List.range 8) = 8 := rfl

theorem total_factors : Bits.total (fun _ => 4) (cells 2 8) = 64 := by decide

theorem sum_cells (bits : Cell → ℕ) : ((cells 2 8).map bits).sum = ∑ c, bits c := by
  rw [← sum_if_mem (nodup_cells 2 8)]
  exact Finset.sum_congr rfl fun c _ => by rw [if_pos (mem_cells c)]

/-- The samples of sixteen blocks take sixteen times the bits of the allocation. -/
theorem total_places (bits : Cell → ℕ) : Bits.total (fun x => bits x.2)
    (places 16 2 8) = 16 * ∑ c, bits c := by
  have hblock : ∀ l : List (Fin 16), Bits.total (fun x : Place => bits x.2)
      (l.flatMap fun blk => (cells 2 8).map fun c => (blk, c)) = l.length * ∑ c, bits c := by
    intro l
    induction l with
    | nil => simp
    | cons blk l ih =>
      unfold Bits.total at ih ⊢
      rw [List.flatMap_cons, List.map_append, List.sum_append, ih, List.map_map, List.length_cons,
        Nat.add_mul, Nat.one_mul, Nat.add_comm, ← sum_cells bits]
      rfl
  exact hblock _

/-- The header's second byte, taken apart as the decoder does. -/
theorem header_byte {fs : ℕ} (hfs : fs < 4) :
    let b1 := (fs <<< 6 ||| 3 <<< 4 ||| 3 <<< 2 ||| 0 <<< 1 ||| 1).toUInt8.toNat
    b1 >>> 6 = fs ∧ 4 * ((b1 >>> 4 &&& 3) + 1) = 16 ∧ b1 >>> 2 &&& 3 = 3 ∧
      (b1 >>> 1 &&& 1 == 1) = false ∧ b1 &&& 1 = 1 := by
  interval_cases fs <;> decide

/-- A configuration that is taken. -/
theorem enc_bounds {rate : ℕ} {bitpool : ℤ} (h : sbcEncInit rate bitpool = some e) :
    e.fs < 4 ∧ 2 ≤ e.bitpool ∧ e.bitpool ≤ 250 := by
  unfold sbcEncInit at h
  split at h
  · cases h
  · next fs hfs =>
    cases h
    have hlt : fs < rates.length := by
      obtain ⟨h, -⟩ := idxOf?_eq_some_iff.mp hfs
      exact h
    refine ⟨hlt, ?_⟩
    simp only
    split
    · omega
    · split <;> omega

@[simp] theorem length_header (e : Enc) : (header e).length = sbcEncLen e.bitpool := by
  simp [header]

theorem header_clear (e : Enc) {i : ℕ} (hi : 32 ≤ i) : Bits.bitAt (header e) i = false := by
  unfold header
  rw [Bits.bitAt_set _ _ (by omega), Bits.bitAt_set _ _ (by omega), Bits.bitAt_set _ _ (by omega),
    Bits.bitAt_replicate]

/-- What a frame is: the header, and the three layouts one behind another. -/
theorem frame_spec (hbits : allocate 2 8 false e.fs e.bitpool sf = some bits)
    (hsum : ∑ c, bits c ≤ e.bitpool) (hsf : ∀ c, sf c ≤ 15) (hq : ∀ x, q x < 2 ^ bits x.2) :
    ∃ out, frame e join sf q = some (out, 104 + 16 * ∑ c, bits c) ∧
      out.length = sbcEncLen e.bitpool ∧ 104 + 16 * ∑ c, bits c ≤ 8 * out.length ∧
      (∀ k < 3, out.getD k 0 = (header e).getD k 0) ∧
      Bits.Reads out (fun _ => 1) (flag join) 32 (List.range 8) ∧
      Bits.Reads out (fun _ => 4) sf 40 (cells 2 8) ∧
      Bits.Reads out (fun x : Place => bits x.2) q 104 (places 16 2 8) := by
  have hlen : 104 + 16 * ∑ c, bits c ≤ 8 * sbcEncLen e.bitpool := by
    unfold sbcEncLen
    omega
  obtain ⟨p₁, hput₁, hlen₁, hbefore₁, hafter₁, hreads₁⟩ := putAll_spec (List.range 8) (header e) 32
    (fun k _ => flag_lt join k) (by rw [length_header, total_flags]; omega)
    (fun i hi => header_clear e hi)
  rw [length_header] at hlen₁
  rw [total_flags, show 32 + 8 = 40 from rfl] at hput₁ hafter₁
  have hnibble : ∀ c ∈ cells 2 8, sf c < 2 ^ 4 := fun c _ => lt_of_le_of_lt (hsf c) (by decide)
  obtain ⟨p₂, hput₂, hlen₂, hbefore₂, hafter₂, hreads₂⟩ := putAll_spec (cells 2 8) p₁ 40 hnibble
    (by rw [hlen₁, total_factors]; omega) hafter₁
  rw [total_factors, show 40 + 64 = 104 from rfl] at hput₂ hafter₂
  obtain ⟨p₃, hcrc⟩ : ∃ p₃, p₂.set 3 (crc8 p₂ (104 - 32)) = p₃ := ⟨_, rfl⟩
  have hlen₃ : p₃.length = sbcEncLen e.bitpool := by rw [← hcrc, length_set, hlen₂, hlen₁]
  have hset : ∀ i, i / 8 ≠ 3 → Bits.bitAt p₃ i = Bits.bitAt p₂ i := fun i hi => by
    rw [← hcrc, Bits.bitAt_set _ _ hi]
  obtain ⟨out, hput, hlenOut, hbefore, -, hreads⟩ := putAll_spec (places 16 2 8) p₃ 104
    (fun x _ => hq x) (by rw [total_places, hlen₃]; exact hlen)
    (fun i hi => by rw [hset i (by omega)]; exact hafter₂ i hi)
  rw [total_places] at hput
  refine ⟨out, ?_, hlenOut.trans hlen₃, ?_, fun k hk => ?_, ?_, ?_, hreads⟩
  · unfold frame
    rw [hbits, bind_eq_bind, bind_some, hput₁, bind_eq_bind, bind_some]
    dsimp only
    rw [hput₂, bind_some]
    dsimp only
    rw [hcrc, hput]
  · rw [hlenOut, hlen₃]
    exact hlen
  · apply Bits.getD_eq_of_bits
    intro i hi
    rw [hbefore i (by omega), hset i (by omega), hbefore₂ i (by omega), hbefore₁ i (by omega)]
  · apply hreads₁.congr
    intro i hlo hhi
    rw [total_flags] at hhi
    rw [hbefore i (by omega), hset i (by omega), hbefore₂ i hhi]
  · apply hreads₂.congr
    intro i hlo hhi
    rw [total_factors] at hhi
    rw [hbefore i hhi, hset i (by omega)]

theorem length_cells : (cells 2 8).length = 16 := by
  have h := sum_cells fun _ => 1
  simpa using h

theorem frameLen_eq (bitpool : ℕ) : frameLen 3 8 2 16 bitpool = sbcEncLen bitpool := by
  unfold frameLen sbcEncLen
  rw [if_neg (by decide), if_pos rfl]

theorem getD_set_three (l : Bytes) (h : 3 ≤ l.length) (a b c : UInt8) (k : ℕ) (hk : k < 3) :
    (((l.set 0 a).set 1 b).set 2 c).getD k 0 = [a, b, c].getD k 0 := by
  match l, h with
  | x :: y :: z :: l, _ => interval_cases k <;> rfl

/-- The header as the encoder leaves it. -/
theorem header_getD (e : Enc) (k : ℕ) (hk : k < 3) : (header e).getD k 0 =
    ([0x9c, (e.fs <<< 6 ||| 3 <<< 4 ||| 3 <<< 2 ||| 0 <<< 1 ||| 1).toUInt8, e.bitpool.toUInt8] :
      Bytes).getD
      k 0 := by
  apply getD_set_three _ _ _ _ _ k hk
  rw [length_replicate]
  unfold sbcEncLen
  omega

/-- Bytes with the header of a configuration and the three layouts are decoded to what these
hold. -/
theorem decode_of_reads {out : Bytes}
    (hfs : e.fs < 4) (hpool : e.bitpool ≤ 250) (hjoin : join < 128)
    (hbits : allocate 2 8 false e.fs e.bitpool sf = some bits)
    (hlen : out.length = sbcEncLen e.bitpool) (hroom : 104 + 16 * ∑ c, bits c ≤ 8 * out.length)
    (hheader : ∀ k < 3, out.getD k 0 = (header e).getD k 0)
    (hflags : Bits.Reads out (fun _ => 1) (flag join) 32 (List.range 8))
    (hfactors : Bits.Reads out (fun _ => 4) sf 40 (cells 2 8))
    (hsamples : Bits.Reads out (fun x : Place => bits x.2) q 104 (places 16 2 8)) :
    sbcDecode out = some ⟨e.fs, 16, 3, false, 8, 2, e.bitpool, sbcEncLen e.bitpool, join, sf, bits,
      q⟩ := by
  have h0 : out.getD 0 0 = 0x9c := by rw [hheader 0 (by decide), header_getD e 0 (by decide)]; rfl
  have h1 : out.getD 1 0 = (e.fs <<< 6 ||| 3 <<< 4 ||| 3 <<< 2 ||| 0 <<< 1 ||| 1).toUInt8 := by
    rw [hheader 1 (by decide), header_getD e 1 (by decide)]; rfl
  have h2 : (out.getD 2 0).toNat = e.bitpool := by
    rw [hheader 2 (by decide), header_getD e 2 (by decide)]
    change e.bitpool.toUInt8.toNat = e.bitpool
    rw [Nat.toUInt8_eq, UInt8.toNat_ofNat']
    omega
  obtain ⟨hb1, hb2, hb3, hb4, hb5⟩ := header_byte hfs
  have hjoined : getJoin out (List.range 7) 0 32 = some (join, 39) := by
    rw [range_succ] at hflags
    rw [getJoin_eq (List.range 7) 0 32 hflags.left (by rw [length_range]; omega), join_flags hjoin,
      length_range]
  have hscaled := getAll_eq (cells 2 8) (fun _ => 0) 40 hfactors (by rw [total_factors]; omega)
  have hsampled :=
    getAll_eq (places 16 2 8) (fun _ => 0) 104 hsamples (by rw [total_places]; exact hroom)
  simp only [mem_cells, mem_places, if_true, total_factors] at hscaled hsampled
  unfold sbcDecode
  rw [if_neg (by rw [h0]; simp; omega)]
  simp only [h1, h2, hb1, hb2, hb3, hb4, hb5, if_true]
  rw [if_pos (show 3 ≠ 0 by decide), if_neg (show ¬ 3 ≤ 1 by decide), frameLen_eq, hlen,
    if_neg (by omega), hjoined, bind_eq_bind, bind_some, get_eq (by omega), bind_some]
  dsimp only [Option.pure_def, bind_some]
  rw [hscaled, bind_eq_bind, bind_some,
    show allocation 3 2 8 false e.fs e.bitpool (fun c => sf c) = some bits from hbits,
    bind_eq_bind, bind_some, hsampled]
  rfl

/-- A level is kept within the bits of its sample. -/
theorem clamp_lt (nb : ℕ) (level : ℤ) : clamp nb level < 2 ^ nb := by
  have hpos : 0 < 2 ^ nb := Nat.two_pow_pos nb
  unfold clamp
  split
  · exact hpos
  · split
    · omega
    · next hlow hhigh =>
      have hcast : ((2 ^ nb : ℕ) : ℤ) = 2 ^ nb := by push_cast; rfl
      omega

/-- A frame of any flags, scale factors and samples is read as it was written. -/
theorem decode_frame (hfs : e.fs < 4)
    (hpool : e.bitpool ≤ 250) (hjoin : join < 128) (hsf : ∀ c, sf c ≤ 15)
    (hbits : allocate 2 8 false e.fs e.bitpool sf = some bits) (hsum : ∑ c, bits c ≤ e.bitpool)
    (hq : ∀ x, q x < 2 ^ bits x.2) :
    ∃ out pos, frame e join sf q = some (out, pos) ∧ out.length = sbcEncLen e.bitpool ∧
      pos ≤ 8 * out.length ∧
      sbcDecode out = some ⟨e.fs, 16, 3, false, 8, 2, e.bitpool,
        sbcEncLen e.bitpool, join, sf, bits, q⟩ := by
  obtain ⟨out, hframe, hlen, hroom, hheader, hflags, hfactors, hsamples⟩ :=
    frame_spec hbits hsum hsf hq
  exact ⟨out, _, hframe, hlen, hroom,
    decode_of_reads hfs hpool hjoin hbits hlen hroom hheader hflags
    hfactors hsamples⟩

/-- **A frame is read as it was written, and has the length both sides compute**: whatever samples
fit the allocation, and so also what the quantiser's levels become. -/
theorem frame_round_trip {rate : ℕ} {bitpool : ℤ} {e : Enc} (he : sbcEncInit rate bitpool = some e)
    {join : ℕ} (hjoin : join < 128) {sf : Cell → ℕ} (hsf : ∀ c, sf c ≤ 15) :
    ∃ bits, allocate 2 8 false e.fs e.bitpool sf = some bits ∧
      (∀ q : Place → ℕ, (∀ x, q x < 2 ^ bits x.2) →
        ∃ out pos, frame e join sf q = some (out, pos) ∧ out.length = sbcEncLen e.bitpool ∧
          pos ≤ 8 * out.length ∧
          sbcDecode out = some ⟨e.fs, 16, 3, false, 8, 2, e.bitpool, sbcEncLen e.bitpool, join, sf,
            bits, q⟩) ∧
      ∀ level : Place → ℤ,
        ∃ out pos, sbcEncode e join sf level = some (out, pos) ∧ out.length = sbcEncLen e.bitpool ∧
          pos ≤ 8 * out.length ∧
          sbcDecode out = some ⟨e.fs, 16, 3, false, 8, 2, e.bitpool, sbcEncLen e.bitpool, join, sf,
            bits, fun x => clamp (bits x.2) (level x)⟩ := by
  obtain ⟨hfs, -, hhigh⟩ := enc_bounds he
  have hpool : e.bitpool ≤ 16 * (cells 2 8).length := by
    rw [length_cells]
    omega
  obtain ⟨bits, hbits, -, -, hsum⟩ := allocate_spec hsf hpool
  refine ⟨bits, hbits, fun q hq => decode_frame hfs hhigh hjoin hsf hbits hsum hq, fun level => ?_⟩
  unfold sbcEncode
  rw [hbits, bind_eq_bind, bind_some]
  exact decode_frame hfs hhigh hjoin hsf hbits hsum fun x => clamp_lt _ _

/-- A frame at 44.1 kHz with the bitpool of high quality, three subbands of it joined. -/
theorem frame_round_trip_hq :
    ∃ bits, allocate 2 8 false 2 53 (fun c => c.2.val + 2) = some bits ∧
      (∀ q : Place → ℕ, (∀ x, q x < 2 ^ bits x.2) →
        ∃ out pos, frame ⟨2, 53⟩ 7 (fun c => c.2.val + 2) q = some (out, pos) ∧ out.length = 119 ∧
          pos ≤ 8 * out.length ∧
          sbcDecode out = some ⟨2, 16, 3, false, 8, 2, 53, 119, 7, fun c => c.2.val + 2, bits, q⟩) ∧
      ∀ level : Place → ℤ,
        ∃ out pos, sbcEncode ⟨2, 53⟩ 7 (fun c => c.2.val + 2) level = some (out, pos) ∧
          out.length = 119 ∧ pos ≤ 8 * out.length ∧
          sbcDecode out = some ⟨2, 16, 3, false, 8, 2, 53, 119, 7, fun c => c.2.val + 2, bits,
            fun x => clamp (bits x.2) (level x)⟩ :=
  frame_round_trip (show sbcEncInit 44100 53 = some ⟨2, 53⟩ by decide) (by decide)
    (fun c => Nat.add_le_add_right (Nat.le_of_lt c.2.isLt) 2 |>.trans (by decide))

end Hassmic.Sbc
