import Hassmic.A2dp.Frame

/-!
# The bitpool of a frame

A header that the decoder takes bounds everything that follows it.  The loop that lowers the slice
comes to an end for any scale factors, no width passes sixteen bits, and the widths of an allocation
sum to no more than the bitpool, so that all reads end within the length computed from the header.

Widths are zero or at least two up to the last hand-out.  What is left of the bitpool then is at
most one bit, since the first hand-out goes on as long as the next slice would still fit; this bit
goes to the first cell with room, which may have had none.  So one sample of an allocation may be a
single bit wide.

## Main definitions

* `Admitted` — what the decoder asks of a frame's bytes before it reads on.

## Main results

* `allocate_single` — at most one cell of an allocation has a single bit.
* `allocation_in_pool` — **every frame that is taken is read to its end within its own length**, and
  its widths keep to the bitpool; so do the encoder's.
-/

namespace Hassmic.Sbc

open List Option Function

/-! ### What is left for the last hand-out -/

variable {bitpool : ℕ} {need : Cell → ℤ} {bits sf : Cell → ℕ} {p : Bytes}

/-- The slice the loop ends at reaches the bitpool. -/
theorem lower_reaches {l : List Cell} {s : ℤ} {n m : ℕ} :
    ∀ {fuel : ℕ} {slice : ℤ} {count slices : ℕ},
      lower need l bitpool fuel slice count slices = some (s, n, m) →
        bitpool ≤ n + m ∧ m = (l.map fun c => sliceOf s (need c)).sum := by
  intro fuel
  induction fuel with
  | zero =>
    intro slice count slices h
    cases h
  | succ fuel ih =>
    intro slice count slices h
    rw [lower] at h
    split at h
    · exact ih h
    · next hfull =>
      simp only [Option.some.injEq, Prod.mk.injEq] at h
      obtain ⟨rfl, rfl, rfl⟩ := h
      exact ⟨by omega, rfl⟩

/-- A round goes on while the bitpool lasts. -/
theorem spread_cons {t : (Cell → ℕ) → ℕ → Cell → ℕ × ℕ} {count b n : ℕ}
    {c : Cell} (rest : List Cell) (hmore : count < bitpool) (ht : t bits count c = (b, n)) :
    spread bitpool t (c :: rest) bits count =
      spread bitpool t rest (Function.update bits c b) (count + n) := by
  rw [spread, if_pos hmore, ht]

theorem spread_full {t : (Cell → ℕ) → ℕ → Cell → ℕ × ℕ} (l : List Cell) (bits : Cell → ℕ)
    {count : ℕ} (h : bitpool ≤ count) : spread bitpool t l bits count = (bits, count) := by
  cases l with
  | nil => rfl
  | cons c rest => rw [spread, if_neg (by omega)]

/-- What a cell takes in the first hand-out, by what the next slice counts for it. -/
theorem firstTake_cases (bitpool count : ℕ) {slice : ℤ} {c : Cell}
    (h : bits c = bitsAt slice (need c)) :
    firstTake bitpool slice need bits count c = (bits c + 1, 1) ∧
    sliceOf slice (need c) = 1 ∧ 2 ≤ bits c ∨
      firstTake bitpool slice need bits count c = (2, 2) ∧ sliceOf slice (need c) = 2 ∨
      firstTake bitpool slice need bits count c = (bits c, 0) ∧
        (sliceOf slice (need c) = 0 ∨ sliceOf slice (need c) = 2 ∧ bitpool ≤ count + 1) := by
  have hone : (2 ≤ bits c ∧ bits c < 16) ↔ sliceOf slice (need c) = 1 := by
    rw [h]
    unfold bitsAt sliceOf
    split <;> split <;> (try split) <;> omega
  have htwo : need c = slice + 1 ↔ sliceOf slice (need c) = 2 := by
    unfold sliceOf
    split
    · omega
    · split <;> omega
  have hall : sliceOf slice (need c) ≤ 2 := by
    unfold sliceOf
    split
    · omega
    · split <;> omega
  unfold firstTake
  by_cases h1 : 2 ≤ bits c ∧ bits c < 16
  · exact Or.inl ⟨if_pos h1, hone.mp h1, h1.1⟩
  · rw [if_neg h1]
    have hnot := fun h => h1 (hone.mpr h)
    by_cases h2 : need c = slice + 1 ∧ bitpool > count + 1
    · exact Or.inr (Or.inl ⟨if_pos h2, htwo.mp h2.1⟩)
    · rw [if_neg h2]
      refine Or.inr (Or.inr ⟨rfl, ?_⟩)
      by_cases h3 : need c = slice + 1
      · exact Or.inr ⟨htwo.mp h3, by have := fun h => h2 ⟨h3, h⟩; omega⟩
      · have := fun h => h3 (htwo.mpr h)
        omega

/-- Changing one cell to a width that is not one leaves none with it. -/
theorem update_ne_one (hone : ∀ c, bits c ≠ 1) {x : Cell} {b : ℕ} (hb : b ≠ 1)
    (c : Cell) : Function.update bits x b c ≠ 1 := by
  by_cases h : c = x
  · rw [h, update_self]
    exact hb
  · rw [update_of_ne h]
    exact hone c

/-- The first hand-out leaves at most one bit, and no cell with a single one. -/
theorem first_spread {slice : ℤ} : ∀ (l : List Cell) (bits : Cell → ℕ)
    (count : ℕ), l.Nodup → (∀ c ∈ l, bits c = bitsAt slice (need c)) → (∀ c, bits c ≠ 1) →
    bitpool ≤ count + 1 ∨ bitpool < count + (l.map fun c => sliceOf slice (need c)).sum →
    bitpool ≤ (spread bitpool (firstTake bitpool slice need) l bits count).2 + 1 ∧
      ∀ c, (spread bitpool (firstTake bitpool slice need) l bits count).1 c ≠ 1 := by
  intro l
  induction l with
  | nil =>
    intro bits count _ _ hone hleft
    refine ⟨?_, hone⟩
    change bitpool ≤ count + 1
    rcases hleft with h | h
    · exact h
    · rw [map_nil, sum_nil] at h
      omega
  | cons c rest ih =>
    intro bits count hnd hbits hone hleft
    obtain ⟨hc, hrest⟩ := nodup_cons.mp hnd
    rw [map_cons, sum_cons] at hleft
    by_cases hmore : count < bitpool
    · -- what the other cells of the round have is not changed by this one
      have hkept : ∀ b, ∀ c' ∈ rest, Function.update bits c b c' = bitsAt slice (need c') := by
        intro b c' hc'
        rw [update_of_ne (fun h => by subst h; exact hc hc')]
        exact hbits c' (mem_cons_of_mem c hc')
      rcases firstTake_cases bitpool count (hbits c mem_cons_self) with
        ⟨ht, hs, h2⟩ | ⟨ht, hs⟩ | ⟨ht, hs⟩
      · rw [spread_cons rest hmore ht]
        exact ih _ _ hrest (hkept _) (update_ne_one hone (by omega)) (by omega)
      · rw [spread_cons rest hmore ht]
        exact ih _ _ hrest (hkept _) (update_ne_one hone (by omega)) (by omega)
      · rw [spread_cons rest hmore ht]
        exact ih _ _ hrest (hkept _) (update_ne_one hone (hone c)) (by omega)
    · rw [spread_full _ _ (by omega)]
      exact ⟨by simp only; omega, hone⟩

/-- The second hand-out of a single bit gives one cell one bit. -/
theorem second_spread : ∀ (l : List Cell) (bits : Cell → ℕ) (count : ℕ),
    bitpool ≤ count + 1 → (∀ c, bits c ≠ 1) →
    ∀ c d, (spread bitpool secondTake l bits count).1 c = 1 →
      (spread bitpool secondTake l bits count).1 d = 1 → c = d := by
  intro l
  induction l with
  | nil => exact fun bits count _ hone c d hc _ => absurd hc (hone c)
  | cons x rest ih =>
    intro bits count hleft hone c d
    by_cases hmore : count < bitpool
    · by_cases hroom : bits x < 16
      · -- the bit is handed out here, and the round ends
        rw [spread_cons rest hmore (if_pos hroom), spread_full _ _ (by omega)]
        have honly : ∀ e, Function.update bits x (bits x + 1) e = 1 → e = x := by
          intro e he
          by_contra hne
          rw [update_of_ne hne] at he
          exact hone e he
        intro hc hd
        rw [honly c hc, honly d hd]
      · rw [spread_cons rest hmore (if_neg hroom), update_eq_self]
        exact ih bits count hleft hone c d
    · rw [spread_full _ _ (by omega)]
      exact fun hc _ => absurd hc (hone c)

theorem sum_alternating (nch nsb : ℕ) (f : Cell → ℕ) :
    ((alternating nch nsb).map f).sum = ((cells nch nsb).map f).sum := by
  rw [← sum_if_mem (nodup_alternating nch nsb), ← sum_if_mem (nodup_cells nch nsb)]
  refine Finset.sum_congr rfl fun c _ => ?_
  rw [if_congr mem_alternating_iff rfl rfl]

/-- **At most one cell of an allocation has a single bit.** -/
theorem allocate_single {nch nsb fs : ℕ} {snr : Bool}
    (h : allocate nch nsb snr fs bitpool sf = some bits) {c d : Cell} (hc : bits c = 1)
    (hd : bits d = 1) : c = d := by
  have hassigned : ∀ need slice count, bitpool ≤ count + 1 ∨
      bitpool < count + ((cells nch nsb).map fun c => sliceOf slice (need c)).sum →
      assigned nch nsb bitpool need slice count = bits → c = d := by
    intro need slice count hleft hbits
    obtain ⟨hone, hnone⟩ := first_spread (alternating nch nsb)
      (fun c => if c ∈ cells nch nsb then bitsAt slice (need c) else 0) count
      (nodup_alternating nch nsb)
      (fun c hc => if_pos (mem_alternating_iff.mp hc))
      (fun c => by
        split
        · unfold bitsAt
          split <;> omega
        · omega)
      (by rw [sum_alternating]; exact hleft)
    exact second_spread (alternating nch nsb) _ _ hone hnone c d
      (by rw [← hbits] at hc; exact hc) (by rw [← hbits] at hd; exact hd)
  unfold allocate at h
  simp only [Option.bind_eq_bind, Option.bind_eq_some_iff, Option.pure_def] at h
  obtain ⟨⟨s, n, m⟩, hlower, h⟩ := h
  obtain ⟨hreach, hm⟩ := lower_reaches hlower
  simp only at h
  split at h
  · exact hassigned _ _ _ (Or.inl (by omega)) (some.inj h)
  · exact hassigned _ _ _ (Or.inr (by rw [← hm]; omega)) (some.inj h)

/-! ### The header -/

def fsOf (p : Bytes) : ℕ := (p.getD 1 0).toNat >>> 6

def blocksOf (p : Bytes) : ℕ := 4 * (((p.getD 1 0).toNat >>> 4 &&& 3) + 1)

def modeOf (p : Bytes) : ℕ := (p.getD 1 0).toNat >>> 2 &&& 3

def snrOf (p : Bytes) : Bool := (p.getD 1 0).toNat >>> 1 &&& 1 == 1

def nsbOf (p : Bytes) : ℕ := if (p.getD 1 0).toNat &&& 1 = 1 then 8 else 4

def nchOf (p : Bytes) : ℕ := if modeOf p ≠ 0 then 2 else 1

def poolOf (p : Bytes) : ℕ := (p.getD 2 0).toNat

/-- The length of a frame, as the decoder computes it. -/
def lenOf (p : Bytes) : ℕ := frameLen (modeOf p) (nsbOf p) (nchOf p) (blocksOf p) (poolOf p)

/-- What the decoder asks of a frame's bytes before it reads on. -/
def Admitted (p : Bytes) : Prop :=
  ¬ (p.length < 4 ∨ p.getD 0 0 ≠ 0x9c) ∧
    ¬ (lenOf p > p.length ∨ poolOf p > (if modeOf p ≤ 1 then 16 else 32) * nsbOf p)

instance (p : Bytes) : Decidable (Admitted p) := inferInstanceAs (Decidable (_ ∧ _))

theorem nsbOf_cases (p : Bytes) : nsbOf p = 8 ∨ nsbOf p = 4 := by
  unfold nsbOf
  split
  · exact Or.inl rfl
  · exact Or.inr rfl

theorem blocksOf_cases (p : Bytes) : blocksOf p = 4 ∨ blocksOf p = 8 ∨ blocksOf p = 12 ∨
    blocksOf p = 16 := by
  have h : (p.getD 1 0).toNat >>> 4 &&& 3 ≤ 3 := Nat.and_le_right
  unfold blocksOf
  omega

/-- A frame cut to its length is admitted when the frame is. -/
theorem Admitted.take (h : Admitted p) : Admitted (p.take (lenOf p)) ∧
    lenOf (p.take (lenOf p)) = lenOf p := by
  have hfour : 4 ≤ lenOf p := by
    unfold lenOf frameLen
    rw [Nat.add_assoc]
    exact Nat.le_add_right 4 _
  have hhead : ∀ k < 4, (p.take (lenOf p)).getD k 0 = p.getD k 0 := by
    intro k hk
    rw [getD_eq_getElem?_getD, getD_eq_getElem?_getD, getElem?_take_of_lt (by omega)]
  have hmode : modeOf (p.take (lenOf p)) = modeOf p := by unfold modeOf; rw [hhead 1 (by decide)]
  have hnsb : nsbOf (p.take (lenOf p)) = nsbOf p := by unfold nsbOf; rw [hhead 1 (by decide)]
  have hblocks : blocksOf (p.take (lenOf p)) = blocksOf p := by
    unfold blocksOf; rw [hhead 1 (by decide)]
  have hpool : poolOf (p.take (lenOf p)) = poolOf p := by unfold poolOf; rw [hhead 2 (by decide)]
  have hlen : lenOf (p.take (lenOf p)) = lenOf p := by
    rw [lenOf, nchOf, hmode, hnsb, hblocks, hpool]
    rfl
  obtain ⟨h1, h2⟩ := h
  refine ⟨⟨?_, ?_⟩, hlen⟩
  · rw [hhead 0 (by decide), length_take]
    rintro (hshort | hsync)
    · exact h1 (Or.inl (by omega))
    · exact h1 (Or.inr hsync)
  · rw [hlen, length_take, hmode, hnsb, hpool]
    rintro (hlong | hmore)
    · exact h2 (Or.inl (by omega))
    · exact h2 (Or.inr hmore)

/-! ### Reads within the bytes -/

variable {ι : Type}

/-- A loop whose fields are inside the bytes gets all of them, none wider than they are. -/
theorem getAll_some [DecidableEq ι] (width : ι → ℕ) {k : ℕ} (hk : ∀ x, width x ≤ k) :
    ∀ (l : List ι) (f : ι → ℕ) (pos : ℕ), pos + Bits.total width l ≤ 8 * p.length →
    (∀ x, f x < 2 ^ k) →
      ∃ g, getAll p width l f pos = some (g, pos + Bits.total width l) ∧ ∀ x, g x < 2 ^ k := by
  intro l
  induction l with
  | nil => exact fun f pos _ hf => ⟨f, rfl, hf⟩
  | cons x l ih =>
    intro f pos hroom hf
    rw [Bits.total_cons] at hroom ⊢
    have hfield : Bits.field p pos (width x) < 2 ^ k :=
      lt_of_lt_of_le (Bits.field_lt p pos (width x)) (Nat.pow_le_pow_right (by decide) (hk x))
    obtain ⟨g, hg, hlt⟩ :=
      ih (Function.update f x (Bits.field p pos (width x))) (pos + width x) (by omega)
      (fun y => by
        by_cases h : y = x
        · rw [h, update_self]
          exact hfield
        · rw [update_of_ne h]
          exact hf y)
    refine ⟨g, ?_, hlt⟩
    rw [getAll, get_eq (by omega), bind_eq_bind, bind_some]
    simp only
    rw [hg, Nat.add_assoc]

/-- The flags inside the bytes are got. -/
theorem getJoin_some : ∀ (l : List ℕ) (join pos : ℕ), pos + l.length ≤ 8 * p.length →
    ∃ j, getJoin p l join pos = some (j, pos + l.length) := by
  intro l
  induction l with
  | nil => exact fun join pos _ => ⟨join, rfl⟩
  | cons sb l ih =>
    intro join pos hroom
    rw [length_cons] at hroom ⊢
    obtain ⟨j, hj⟩ := ih (join ||| Bits.field p pos 1 <<< sb) (pos + 1) (by omega)
    refine ⟨j, ?_⟩
    rw [getJoin, get_eq (by omega), bind_eq_bind, bind_some]
    simp only
    rw [hj]
    congr 2
    omega

/-! ### The allocation of a frame -/

theorem length_cells_cases : (cells 1 4).length = 4 ∧ (cells 1 8).length = 8 ∧
    (cells 2 4).length = 8 ∧ (cells 2 8).length = 16 := by
  decide

/-- What an allocation keeps to: no width passes sixteen, at most one is a single bit, and all of
them sum to at most the bitpool. -/
def InPool {κ : Type} [Fintype κ] (bitpool : ℕ) (bits : κ → ℕ) : Prop :=
  (∀ c, bits c ≤ 16) ∧ (∀ c d, bits c = 1 → bits d = 1 → c = d) ∧ ∑ c, bits c ≤ bitpool

/-- An allocation of one channel keeps to the bitpool as widths of its subbands. -/
theorem inPool_channel {nsb : ℕ} (snr : Bool) (fs : ℕ) (hsf : ∀ c, sf c ≤ 15)
    (hpool : bitpool ≤ 16 * (cells 1 nsb).length) :
    ∃ bits, allocate 1 nsb snr fs bitpool sf = some bits ∧ (∀ c ∉ cells 1 nsb, bits c = 0) ∧
      InPool bitpool fun sb => bits (0, sb) := by
  obtain ⟨bits, hbits, h16, hout, hsum⟩ := allocate_spec hsf hpool
  refine ⟨bits, hbits, hout, fun sb => h16 _, ?_, ?_⟩
  · intro c d hc hd
    exact (Prod.mk.inj (allocate_single hbits hc hd)).2
  · rw [Fintype.sum_prod_type, Fin.sum_univ_two] at hsum
    exact le_trans (Nat.le_add_right _ _) hsum

/-- **The allocation of a frame keeps to its bitpool**, each channel on its own or both together,
and gives nothing to a cell that the frame does not have. -/
theorem allocation_spec {mode nsb : ℕ} (snr : Bool) (fs : ℕ) (hsf : ∀ c, sf c ≤ 15)
    (hnsb : nsb = 8 ∨ nsb = 4) (hpool : bitpool ≤ (if mode ≤ 1 then 16 else 32) * nsb) :
    ∃ bits, allocation mode (if mode ≠ 0 then 2 else 1) nsb snr fs bitpool sf = some bits ∧
      (∀ c ∉ cells (if mode ≠ 0 then 2 else 1) nsb, bits c = 0) ∧
      if mode ≤ 1 then ∀ ch, InPool bitpool fun sb => bits (ch, sb) else InPool bitpool bits := by
  obtain ⟨h14, h18, h24, h28⟩ := length_cells_cases
  unfold allocation
  by_cases hmode : mode ≤ 1
  · rw [if_pos hmode] at hpool
    have hpool1 : bitpool ≤ 16 * (cells 1 nsb).length := by
      rcases hnsb with rfl | rfl <;> omega
    -- each channel has the whole bitpool for itself
    obtain ⟨one, hone, hone0, hin1⟩ := inPool_channel snr fs (fun c : Cell => hsf (0, c.2))
      hpool1
    obtain ⟨two, htwo, htwo0, hin2⟩ := inPool_channel snr fs (fun c : Cell => hsf (1, c.2))
      hpool1
    rw [if_pos hmode, hone, bind_eq_bind, bind_some]
    by_cases hmono : mode = 0
    · rw [if_neg (not_not.mpr hmono), if_pos rfl]
      refine ⟨one, rfl, hone0, ?_⟩
      rw [if_pos hmode]
      intro ch
      have hch : ch = 0 ∨ ch = 1 := by omega
      rcases hch with rfl | rfl
      · exact hin1
      · have hzero : (fun sb => one (1, sb)) = fun _ => 0 := by
          funext sb
          apply hone0
          rw [cells, mem_flatMap]
          rintro ⟨ch, hch, hmem⟩
          obtain ⟨s, -, hs⟩ := mem_map.mp hmem
          have h1 : ch = 1 := (Prod.mk.inj hs).1
          rw [h1] at hch
          simp at hch
        rw [hzero]
        exact ⟨fun _ => by simp, fun c d h => by simp at h, by simp⟩
    · rw [if_pos hmono, if_neg (by decide), htwo, bind_some]
      refine ⟨_, rfl, ?_, ?_⟩
      · rintro ⟨ch, sb⟩ hc
        have hsb : ∀ e : Cell → ℕ, (∀ c ∉ cells 1 nsb, e c = 0) → e (0, sb) = 0 := by
          intro e he
          apply he
          intro h
          apply hc
          simp only [cells, mem_flatMap, List.mem_map, mem_filter, mem_finRange, true_and,
            Prod.mk.injEq, decide_eq_true_eq] at h ⊢
          obtain ⟨_, -, s, hs, -, rfl⟩ := h
          exact ⟨ch, ch.isLt, s, hs, rfl, rfl⟩
        simp only
        split
        · exact hsb one hone0
        · exact hsb two htwo0
      · rw [if_pos hmode]
        intro ch
        have hch : ch = 0 ∨ ch = 1 := by omega
        rcases hch with rfl | rfl
        · exact hin1
        · exact hin2
  · rw [if_neg hmode] at hpool
    have hpool2 : bitpool ≤ 16 * (cells 2 nsb).length := by
      rcases hnsb with rfl | rfl <;> omega
    -- both channels share it
    obtain ⟨bits, hbits, h16, hout, hsum⟩ := allocate_spec hsf hpool2
    rw [if_neg hmode, if_pos (by omega)]
    refine ⟨bits, hbits, hout, ?_⟩
    rw [if_neg hmode]
    exact ⟨h16, fun c d hc hd => allocate_single hbits hc hd, hsum⟩

/-! ### Every admitted frame is read -/

/-- The samples of a frame take as many bits as the allocation says, block by block. -/
theorem total_blocks (blocks nch nsb : ℕ) (bits : Cell → ℕ) (hblocks : blocks ≤ 16)
    (hout : ∀ c ∉ cells nch nsb, bits c = 0) :
    Bits.total (fun x => bits x.2) (places blocks nch nsb) = blocks * ∑ c, bits c := by
  have hsum : ((cells nch nsb).map bits).sum = ∑ c, bits c := by
    rw [← sum_if_mem (nodup_cells nch nsb)]
    refine Finset.sum_congr rfl fun c _ => ?_
    split
    · rfl
    · next h => exact (hout c h).symm
  have hlist : ∀ l : List (Fin 16), Bits.total (fun x : Place => bits x.2)
      (l.flatMap fun blk => (cells nch nsb).map fun c => (blk, c)) = l.length * ∑ c, bits c := by
    intro l
    induction l with
    | nil => simp
    | cons blk l ih =>
      unfold Bits.total at ih ⊢
      rw [flatMap_cons, map_append, sum_append, ih, List.map_map, length_cons,
        Nat.add_mul, Nat.one_mul, Nat.add_comm, ← hsum]
      rfl
  have hlength : ∀ b ≤ 16, ((List.finRange 16).filter (·.val < b)).length = b := by decide
  rw [places, hlist, hlength blocks hblocks]

theorem total_scales (nch nsb : ℕ) : Bits.total (fun _ => 4)
    (cells nch nsb) = 4 * (cells nch nsb).length := by
  unfold Bits.total
  rw [map_const', sum_replicate, smul_eq_mul, Nat.mul_comm]

/-- The bits before the scale factors: a flag for each subband where the frame is joint stereo. -/
def flagBits (p : Bytes) : ℕ := if modeOf p = 3 then nsbOf p else 0

/-- The length of a frame holds its flags, its scale factors, and the bitpool of every block. -/
theorem lenOf_holds (p : Bytes) (hin : if modeOf p ≤ 1
      then ∀ ch, InPool (poolOf p) fun sb => bits (ch, sb) else InPool (poolOf p) bits)
    (hout : ∀ c ∉ cells (nchOf p) (nsbOf p), bits c = 0) :
    32 + flagBits p + 4 * (cells (nchOf p) (nsbOf p)).length + blocksOf p * ∑ c, bits c ≤
      8 * lenOf p := by
  obtain ⟨h14, h18, h24, h28⟩ := length_cells_cases
  have hcells : (cells (nchOf p) (nsbOf p)).length = nsbOf p * nchOf p := by
    unfold nchOf
    rcases nsbOf_cases p with h | h <;> rw [h] <;> split <;> omega
  have hsum : ∑ c, bits c ≤ if modeOf p ≤ 1 then nchOf p * poolOf p else poolOf p := by
    split
    · next hmode =>
      rw [if_pos hmode] at hin
      have h0 : ∑ sb, bits (0, sb) ≤ poolOf p := (hin 0).2.2
      have h1 : ∑ sb, bits (1, sb) ≤ poolOf p := (hin 1).2.2
      rw [Fintype.sum_prod_type, Fin.sum_univ_two]
      by_cases hmono : modeOf p = 0
      · have hzero : ∑ sb, bits (1, sb) = 0 := by
          apply Finset.sum_eq_zero
          intro sb _
          apply hout
          rw [nchOf, if_neg (not_not.mpr hmono), cells, mem_flatMap]
          rintro ⟨ch, hch, hmem⟩
          obtain ⟨s, -, hs⟩ := mem_map.mp hmem
          rw [(Prod.mk.inj hs).1] at hch
          simp at hch
        rw [hzero, nchOf, if_neg (not_not.mpr hmono)]
        omega
      · rw [nchOf, if_pos hmono]
        omega
    · next hmode =>
      rw [if_neg hmode] at hin
      exact hin.2.2
  have hblocks := Nat.mul_le_mul_left (blocksOf p) hsum
  rw [hcells]
  unfold lenOf frameLen flagBits
  have hdvd : 4 * nsbOf p * nchOf p / 8 * 8 = 4 * (nsbOf p * nchOf p) := by
    rw [Nat.mul_assoc]
    rcases nsbOf_cases p with h | h <;> rw [h] <;> omega
  split at hblocks
  · next hmode =>
    rw [if_pos hmode, if_neg (by omega)]
    rw [← Nat.mul_assoc] at hblocks
    omega
  · next hmode =>
    rw [if_neg hmode]
    split <;> omega

/-- **A frame that is admitted is read**, with an allocation of its own scale factors. -/
theorem decode_some (h : Admitted p) :
    ∃ f, sbcDecode p = some f ∧ f.mode = modeOf p ∧ f.bitpool = poolOf p ∧ f.len = lenOf p ∧
      if modeOf p ≤ 1 then ∀ ch, InPool (poolOf p) fun sb => f.bits (ch, sb)
      else InPool (poolOf p) f.bits := by
  obtain ⟨hhead, hfits⟩ := h
  have hlen : lenOf p ≤ p.length := by
    by_contra hlong
    exact hfits (Or.inl (by omega))
  have hpool : poolOf p ≤ (if modeOf p ≤ 1 then 16 else 32) * nsbOf p := by
    by_contra hmore
    exact hfits (Or.inr (by omega))
  have hblocks : blocksOf p ≤ 16 := by
    rcases blocksOf_cases p with h | h | h | h <;> omega
  -- the length does not depend on the widths, so any that keep to the bitpool show where the reads
  -- end
  have hzero : 32 + flagBits p + 4 * (cells (nchOf p) (nsbOf p)).length ≤ 8 * lenOf p := by
    have hnone : if modeOf p ≤ 1 then ∀ ch : Fin 2, InPool (poolOf p) fun _ : Fin 8 => 0
        else InPool (poolOf p) fun _ : Cell => 0 := by
      split <;> simp [InPool]
    have h := lenOf_holds p hnone fun _ _ => rfl
    omega
  obtain ⟨sf, hsf, hsf16⟩ := getAll_some (p := p) (fun _ => 4) (fun _ : Cell => le_refl 4)
    (cells (nchOf p) (nsbOf p)) (fun _ => 0) (32 + flagBits p)
    (by rw [total_scales]; omega) (fun _ => by decide)
  obtain ⟨bits, hbits, hnone, hin⟩ := allocation_spec (snrOf p) (fsOf p)
    (fun c => Nat.le_of_lt_succ (hsf16 c)) (nsbOf_cases p) hpool
  have hout : ∀ c ∉ cells (nchOf p) (nsbOf p), bits c = 0 := hnone
  have hholds := lenOf_holds p hin hout
  obtain ⟨q, hq, -⟩ := getAll_some (p := p) (k := 16) (fun x : Place => bits x.2)
    (by
      intro x
      split at hin
      · exact (hin x.2.1).1 x.2.2
      · exact hin.1 x.2)
    (places (blocksOf p) (nchOf p) (nsbOf p)) (fun _ => 0)
    (32 + flagBits p + Bits.total (fun _ => 4) (cells (nchOf p) (nsbOf p)))
    (by
      rw [total_scales, total_blocks _ _ _ _ hblocks hout]
      omega)
    (fun _ => by decide)
  have htail : ∀ join,
      ((getAll p (fun _ => 4) (cells (nchOf p) (nsbOf p)) (fun _ => 0) (32 + flagBits p)).bind
      fun s =>
      (allocation (modeOf p) (nchOf p) (nsbOf p) (snrOf p) (fsOf p) (poolOf p) s.1).bind fun bits =>
      (getAll p (fun x => bits x.2) (places (blocksOf p) (nchOf p) (nsbOf p)) (fun _ => 0)
        s.2).bind fun y =>
      some ⟨fsOf p, blocksOf p, modeOf p, snrOf p, nsbOf p, nchOf p, poolOf p, lenOf p,
        join, s.1, bits, y.1⟩ : Option Frame) =
      some ⟨fsOf p, blocksOf p, modeOf p, snrOf p, nsbOf p, nchOf p, poolOf p,
        lenOf p, join, sf, bits, q⟩ := by
    intro join
    rw [hsf, bind_some]
    dsimp only
    rw [show allocation (modeOf p) (nchOf p) (nsbOf p) (snrOf p) (fsOf p) (poolOf p) sf =
      some bits from hbits, bind_some, hq]
    rfl
  suffices h : ∃ join, sbcDecode p = some ⟨fsOf p, blocksOf p, modeOf p, snrOf p, nsbOf p, nchOf p,
      poolOf p, lenOf p, join, sf, bits, q⟩ by
    obtain ⟨join, h⟩ := h
    exact ⟨_, h, rfl, rfl, rfl, hin⟩
  unfold sbcDecode
  rw [if_neg hhead]
  by_cases hmode : modeOf p = 3
  · have hflags : flagBits p = nsbOf p := if_pos hmode
    have hnsb := nsbOf_cases p
    obtain ⟨j, hj⟩ := getJoin_some (p := p) (List.range (nsbOf p - 1)) 0 32
      (by rw [length_range]; omega)
    rw [length_range, show 32 + (nsbOf p - 1) = 31 + nsbOf p by omega] at hj
    have hlast : get p (31 + nsbOf p) 1 =
        some (Bits.field p (31 + nsbOf p) 1, 32 + flagBits p) := by
      rw [get_eq (by omega), hflags]
      congr 2
      omega
    refine ⟨j, Eq.trans ?_ (htail j)⟩
    change (if lenOf p > p.length ∨ poolOf p > (if modeOf p ≤ 1 then 16 else 32) * nsbOf p then none
      else if modeOf p = 3 then (getJoin p (List.range (nsbOf p - 1)) 0 32).bind fun x =>
        (get p x.2 1).bind fun y => _ else _) = _
    rw [if_neg hfits, if_pos hmode, hj, bind_some]
    simp only
    rw [hlast, bind_some]
    rfl
  · have hflags : flagBits p = 0 := if_neg hmode
    refine ⟨0, Eq.trans ?_ (htail 0)⟩
    change (if lenOf p > p.length ∨ poolOf p > (if modeOf p ≤ 1 then 16 else 32) * nsbOf p then none
      else if modeOf p = 3 then _ else _) = _
    rw [if_neg hfits, if_neg hmode, hflags]
    rfl

/-- **Every frame that is admitted is read to its end within its own length, and its widths keep to
the bitpool**, each channel's or those of both; and so do the widths of every frame the encoder
writes. -/
theorem allocation_in_pool :
    (∀ p, Admitted p →
      ∃ f, sbcDecode p = some f ∧ f.mode = modeOf p ∧ f.bitpool = poolOf p ∧ f.len = lenOf p ∧
        (sbcDecode (p.take f.len)).isSome ∧
        if f.mode ≤ 1 then ∀ ch, InPool f.bitpool fun sb => f.bits (ch, sb)
        else InPool f.bitpool f.bits) ∧
      ∀ rate bitpool e, sbcEncInit rate bitpool = some e → ∀ sf : Cell → ℕ, (∀ c, sf c ≤ 15) →
        ∃ bits, allocate 2 8 false e.fs e.bitpool sf = some bits ∧ InPool e.bitpool bits := by
  constructor
  · intro p h
    obtain ⟨f, hf, hmode, hpool, hlen, hin⟩ := decode_some h
    obtain ⟨g, hg, -⟩ := decode_some h.take.1
    refine ⟨f, hf, hmode, hpool, hlen, ?_, ?_⟩
    · rw [hlen, hg]
      rfl
    · rw [hmode, hpool]
      exact hin
  · intro rate bitpool e he sf hsf
    obtain ⟨-, -, hhigh⟩ := enc_bounds he
    have hpool : e.bitpool ≤ 16 * (cells 2 8).length := by
      rw [length_cells]
      omega
    obtain ⟨bits, hbits, h16, -, hsum⟩ := allocate_spec hsf hpool
    exact ⟨bits, hbits, h16, fun c d hc hd => allocate_single hbits hc hd, hsum⟩

/-- A mono frame with a bitpool of three, in which two bits go to the second subband and the one
that is left to the first. -/
theorem allocation_one_bit :
    (sbcDecode [0x9c, 2, 3, 0, 0x03, 0x30, 0, 0]).map (fun f => f.bits (0, 0)) = some 1 := by
  decide

/-- The same frame, within its length. -/
theorem allocation_in_pool_mono :
    ∃ f, sbcDecode [0x9c, 2, 3, 0, 0x03, 0x30, 0, 0] = some f ∧
      f.mode = modeOf [0x9c, 2, 3, 0, 0x03, 0x30, 0, 0] ∧ f.bitpool = 3 ∧
      f.len = lenOf [0x9c, 2, 3, 0, 0x03, 0x30, 0, 0] ∧
      (sbcDecode (List.take f.len [0x9c, 2, 3, 0, 0x03, 0x30, 0, 0])).isSome ∧
      if f.mode ≤ 1 then ∀ ch, InPool f.bitpool fun sb => f.bits (ch, sb)
      else InPool f.bitpool f.bits :=
  allocation_in_pool.1 _ (by decide)

end Hassmic.Sbc
