import Hassmic.Lib.Socket
import Hassmic.Lib.Wire

/-!
# Replies as WAV

Home Assistant sends a reply as a WAV file over HTTP.  Its chunks before the data are
skipped, the format noted, and what follows the data chunk's head goes to playback, in
whole frames, as the network brings it.

## Main definitions

* `playWav` — the format and the pieces that are fed to playback.
* `Wave` — a well-formed file, with any chunks around its format and its data.
* `Plays` — the pieces are the data's whole frames.

## Main results

* `playWav_eq` — the chunks before the data are skipped, however the file is cut.
* `plays_iff` — **exactly which files are played right however they are cut.**
-/

namespace Hassmic.Wav

open Wire List

/-! ### The program -/

/-- What the format chunk says, all zero before it was read. -/
structure Fmt where
  rate : ℕ
  ch : ℕ
  bits : ℕ
  deriving DecidableEq

/-- The format in the first 16 bytes of its chunk. -/
def fmtOf (fmt : Bytes) : Fmt where
  rate := ofLe ((fmt.drop 4).take 4)
  ch := ofLe ((fmt.drop 2).take 2)
  bits := ofLe ((fmt.drop 14).take 2)

/-- `"data"`. -/
def dataKind : Bytes := ['d', 'a', 't', 'a'].map Char.toUInt8

/-- `"fmt "`. -/
def fmtKind : Bytes := ['f', 'm', 't', ' '].map Char.toUInt8

/-- The buffer's size. -/
abbrev bufSize : ℕ := 8192

/-- `len += len & 1`, of 32 bits. -/
def padded (len : ℕ) : ℕ := (len + len % 2) % 2 ^ 32

/-- Reads that throw away `len` bytes, none if the stream ends before. -/
def skip (len : ℕ) (s : Socket) : Option Socket :=
  if len = 0 then some s
  else if (s.read (min len bufSize)).1 = [] then none
  else skip (len - (s.read (min len bufSize)).1.length) (s.read (min len bufSize)).2
  termination_by len
  decreasing_by
    rename_i hlen hread
    have hpos := List.length_pos_iff.mpr hread
    omega

/-- What one turn of the loop over the chunks finds. -/
inductive Turn
  /-- The stream ended. -/
  | eof
  /-- The data chunk's head has been read. -/
  | data (s : Socket)
  /-- Another chunk has been read. -/
  | next (f : Fmt) (s : Socket)

/-- One turn of the loop over the chunks. -/
def turn (f : Fmt) (s : Socket) : Turn :=
  let ck := s.readFull 8
  if ck.1.length ≠ 8 then .eof
  else
    let len := ofLe (ck.1.drop 4)
    if ck.1.take 4 = dataKind then .data ck.2
    else if ck.1.take 4 = fmtKind ∧ 16 ≤ len then
      let fmt := ck.2.readFull 16
      if fmt.1.length ≠ 16 then .eof
      else
        match skip (padded (len - 16)) fmt.2 with
        | none => .eof
        | some s => .next (fmtOf fmt.1) s
    else
      match skip (padded len) ck.2 with
      | none => .eof
      | some s => .next f s

theorem skip_eq (len : ℕ) (s : Socket) :
    (skip len s).map List.flatten = if len ≤ s.flatten.length then
      some (s.flatten.drop len) else none := by
  fun_induction skip len s with
  | case1 s => simp
  | case2 len s hlen hread =>
    have hcap : min len bufSize ≠ 0 := by
      intro h
      rcases Nat.min_eq_zero_iff.mp h with h | h
      · exact hlen h
      · exact absurd h (by decide)
    have hend : s.flatten = [] := ((Socket.read_eq_nil_iff _ s).mp hread).resolve_left hcap
    rw [hend, if_neg (by simpa using hlen)]
    rfl
  | case3 len s hlen hread ih =>
    have hle : (s.read (min len bufSize)).1.length ≤ len :=
      (Socket.length_read_le _ s).trans (Nat.min_le_left _ _)
    have hflat := Socket.length_flatten_read (min len bufSize) s
    rw [ih, (Socket.read_eq _ s).2, drop_drop, Nat.add_sub_cancel' hle, length_drop]
    congr 1
    rw [eq_iff_iff]
    omega

theorem flatten_skip {len : ℕ} {s s' : Socket} (h : skip len s = some s') :
    s'.flatten = s.flatten.drop len := by
  have heq := skip_eq len s
  rw [h] at heq
  split at heq
  · exact Option.some.inj heq
  · cases heq

/-- Every chunk takes at least its head off the stream. -/
theorem turn_lt {f f' : Fmt} {s s' : Socket} (h : turn f s = .next f' s') :
    s'.flatten.length < s.flatten.length := by
  unfold turn at h
  dsimp only at h
  rw [Socket.readFull_fst] at h
  split at h
  · cases h
  · next hlen =>
    rw [ne_eq, not_not, length_take] at hlen
    have hck : (s.readFull 8).2.flatten.length = s.flatten.length - 8 := by
      rw [Socket.flatten_readFull, length_drop]
    split at h
    · cases h
    · split at h
      · split at h
        · cases h
        · split at h
          · cases h
          · next s₁ hskip =>
            cases h
            rw [flatten_skip hskip, Socket.flatten_readFull, length_drop, length_drop]
            omega
      · split at h
        · cases h
        · next s₁ hskip =>
          cases h
          rw [flatten_skip hskip, length_drop]
          omega

/-- The loop over the chunks up to the data: the format, and the stream behind the head. -/
def chunks (f : Fmt) (s : Socket) : Option (Fmt × Socket) :=
  match _h : turn f s with
  | .eof => none
  | .data s' => some (f, s')
  | .next f' s' => chunks f' s'
  termination_by s.flatten.length
  decreasing_by exact turn_lt _h

/-- The loop over the samples: the pieces fed to playback, with `odd` carried over.  The
mask is `2 * ch - 1`; `flushing` says at which turn `core_tts_flushing` holds. -/
def feeds (flushing : ℕ → Bool) (mask i : ℕ) (odd : Bytes) (s : Socket) : List Bytes :=
  if flushing i ∨ (s.read (bufSize - odd.length)).1 = [] then []
  else
    let n := odd ++ (s.read (bufSize - odd.length)).1
    let use := Nat.ldiff n.length mask
    n.take use :: feeds flushing mask (i + 1) (n.drop use) (s.read (bufSize - odd.length)).2
  termination_by s.flatten.length
  decreasing_by
    rename_i h
    exact Socket.length_read_lt (not_or.mp h).2

/-- `play_wav`, none for −1: what `core_tts_begin` and `core_tts_data` are called with.
`aborted` is the job's flag when the reply begins. -/
def playWav (aborted : Bool) (flushing : ℕ → Bool) (s : Socket) : Option (Fmt × List Bytes) :=
  match chunks ⟨0, 0, 0⟩ s with
  | none => none
  | some (f, s) =>
    if f.bits ≠ 16 ∨ f.rate = 0 ∨ f.ch = 0 then none
    else if aborted then none
    else some (f, feeds flushing (2 * f.ch - 1) 0 [] s)

/-! ### The mask -/

/-- For a frame of a power of two the mask leaves the whole frames. -/
theorem ldiff_two_pow (n k : ℕ) : Nat.ldiff n (2 ^ k - 1) = n / 2 ^ k * 2 ^ k := by
  apply Nat.eq_of_testBit_eq
  intro i
  rw [Nat.testBit_ldiff, Nat.testBit_two_pow_sub_one, Nat.mul_comm, Nat.testBit_two_pow_mul,
    Nat.testBit_div_two_pow]
  by_cases h : i < k
  · simp [h]
  · have hle : k ≤ i := not_lt.mp h
    rw [Nat.sub_add_cancel hle]
    simp [hle]

/-- The bits of the mask for a frame of `2 ^ a * o`. -/
theorem testBit_mask (a : ℕ) {o : ℕ} (ho : 0 < o) (i : ℕ) :
    (2 ^ a * o - 1).testBit i = if i < a then true else (o - 1).testBit (i - a) := by
  have hsplit : 2 ^ a * o - 1 = 2 ^ a * (o - 1) + (2 ^ a - 1) := by
    have hpos : 0 < 2 ^ a := Nat.two_pow_pos a
    rw [Nat.mul_sub_one, ← Nat.add_sub_assoc hpos,
      Nat.sub_add_cancel (Nat.le_mul_of_pos_right _ ho)]
  have hlt : 2 ^ a - 1 < 2 ^ a := Nat.sub_one_lt (Nat.two_pow_pos a).ne'
  rw [hsplit, Nat.testBit_two_pow_mul_add _ hlt, Nat.testBit_two_pow_sub_one]
  split
  · next h => exact decide_eq_true h
  · rfl

section Mask

variable {m : ℕ} (hm : 0 < m)
include hm

/-- The bits of the mask, in terms of the frame's odd part. -/
theorem testBit_frame_mask (i : ℕ) :
    (m - 1).testBit i = if i < m.factorization 2 then true
      else (ordCompl[2] m - 1).testBit (i - m.factorization 2) := by
  rw [← testBit_mask _ (Nat.ordCompl_pos 2 hm.ne'), Nat.ordProj_mul_ordCompl_eq_self]

/-- The odd part less one is even. -/
theorem testBit_odd_part : (ordCompl[2] m - 1).testBit 0 = false := by
  have hpos := Nat.ordCompl_pos 2 hm.ne'
  have hodd := Nat.not_dvd_ordCompl Nat.prime_two hm.ne'
  generalize ordCompl[2] m = o at hpos hodd
  rw [Nat.testBit_zero]
  exact decide_eq_false (by omega)

/-- Below the lowest bit of a frame the mask leaves nothing. -/
theorem ldiff_of_lt {n : ℕ} (hn : n < ordProj[2] m) : Nat.ldiff n (m - 1) = 0 := by
  apply Nat.eq_of_testBit_eq
  intro i
  rw [Nat.testBit_ldiff, testBit_frame_mask hm, Nat.zero_testBit]
  split
  · simp
  · next h =>
    rw [Nat.testBit_lt_two_pow (hn.trans_le (Nat.pow_le_pow_right (by decide) (not_lt.mp h)))]
    rfl

/-- The lowest bit of a frame goes through the mask. -/
theorem ldiff_lowest : Nat.ldiff (ordProj[2] m) (m - 1) = ordProj[2] m := by
  apply Nat.eq_of_testBit_eq
  intro i
  rw [Nat.testBit_ldiff, testBit_frame_mask hm, Nat.testBit_two_pow]
  by_cases hi : m.factorization 2 = i
  · rw [← hi, if_neg (lt_irrefl _), Nat.sub_self, testBit_odd_part hm]
    simp
  · simp [hi]

end Mask

/-! ### Well-formed files -/

/-- The mark of an unknown length. -/
abbrev unknown : ℕ := 0xffffffff

/-- A chunk: its kind, what is in it, and the byte that fills an odd length up. -/
structure Chunk where
  kind : Blob 4
  body : Bytes
  fill : UInt8
  fits : body.length < unknown

/-- A chunk as it stands in a file. -/
def Chunk.bytes (c : Chunk) : Bytes :=
  c.kind.1 ++ le 4 c.body.length ++ c.body ++ replicate (c.body.length % 2) c.fill

/-- A chunk other than the format and the data. -/
def Chunk.Other (c : Chunk) : Prop := c.kind.1 ≠ fmtKind ∧ c.kind.1 ≠ dataKind

/-- A well-formed file, behind `RIFF`, its length and `WAVE`: one format and one data
chunk, with other chunks before, between and behind them.  The samples have 16 bits. -/
structure Wave where
  lead : List Chunk
  format : Chunk
  between : List Chunk
  data : Bytes
  /-- Whether the data chunk's length is written; if not, the data goes on to the end. -/
  known : Bool
  /-- The byte that fills an odd length up. -/
  fill : UInt8
  trail : List Chunk
  lead_other : ∀ c ∈ lead, c.Other
  format_kind : format.kind.1 = fmtKind
  format_full : 16 ≤ format.body.length
  bits : (fmtOf (format.body.take 16)).bits = 16
  rate : (fmtOf (format.body.take 16)).rate ≠ 0
  ch : (fmtOf (format.body.take 16)).ch ≠ 0
  between_other : ∀ c ∈ between, c.Other
  trail_other : ∀ c ∈ trail, c.Other
  data_fits : known = true → data.length < unknown

namespace Wave

/-- The format of a file. -/
def fmt (w : Wave) : Fmt := fmtOf (w.format.body.take 16)

/-- The bytes of a frame. -/
def frame (w : Wave) : ℕ := 2 * w.fmt.ch

/-- What stands before the data. -/
def before (w : Wave) : Bytes :=
  (w.lead ++ w.format :: w.between).flatMap Chunk.bytes ++ dataKind
    ++ le 4 (if w.known then w.data.length else unknown)

/-- What stands behind the data. -/
def after (w : Wave) : Bytes :=
  if w.known then replicate (w.data.length % 2) w.fill ++ w.trail.flatMap Chunk.bytes else []

/-- The file. -/
def bytes (w : Wave) : Bytes := w.before ++ (w.data ++ w.after)

end Wave

/-- The reply is played right: its format goes to playback, then its data in whole
frames. -/
def Plays (w : Wave) (s : Socket) : Prop :=
  ∃ pieces, playWav false (fun _ => false) s = some (w.fmt, pieces) ∧
    (∀ p ∈ pieces, w.frame ∣ p.length) ∧
    pieces.flatten = w.data.take (w.data.length / w.frame * w.frame)

/-! ### The chunks before the data -/

theorem ofLe_le_of_lt {k v : ℕ} (h : v < 256 ^ k) : ofLe (le k v) = v := by
  rw [ofLe_le, Nat.mod_eq_of_lt h]

/-- A chunk's head at the start of the stream. -/
theorem readFull_head {k : Blob 4} {n : ℕ} {l : Bytes} {s : Socket}
    (h : s.flatten = k.1 ++ le 4 n ++ l) :
    (s.readFull 8).1 = k.1 ++ le 4 n ∧ (s.readFull 8).2.flatten = l := by
  have hlen : (k.1 ++ le 4 n).length = 8 := by rw [length_append, k.2, length_le]
  rw [Socket.readFull_fst, Socket.flatten_readFull, h]
  exact ⟨take_left' hlen, drop_left' hlen⟩

/-- The padded length of a chunk is what stands in the file. -/
theorem padded_eq {n : ℕ} (h : n < unknown) : padded n = n + n % 2 := by
  unfold padded
  apply Nat.mod_eq_of_lt
  unfold unknown at h
  omega

/-- The rest of a chunk is skipped. -/
theorem skip_append {b l : Bytes} {s : Socket} (h : s.flatten = b ++ l) :
    ∃ s', skip b.length s = some s' ∧ s'.flatten = l := by
  have heq := skip_eq b.length s
  rw [if_pos (by rw [h, length_append]; exact Nat.le_add_right _ _), Option.map_eq_some_iff] at heq
  obtain ⟨s', hs', hflat⟩ := heq
  exact ⟨s', hs', by rw [hflat, h, drop_left]⟩

/-- The head of a chunk, and what is behind it. -/
theorem head_bytes {c : Chunk} {l : Bytes} {s : Socket} (h : s.flatten = c.bytes ++ l) :
    (s.readFull 8).1 = c.kind.1 ++ le 4 c.body.length ∧
    (c.kind.1 ++ le 4 c.body.length).take 4 = c.kind.1 ∧
      ofLe ((c.kind.1 ++ le 4 c.body.length).drop 4) = c.body.length ∧
      (s.readFull 8).2.flatten = c.body ++ replicate (c.body.length % 2) c.fill ++ l := by
  obtain ⟨hhead, hrest⟩ := readFull_head (k := c.kind) (n := c.body.length)
    (l := c.body ++ replicate (c.body.length % 2) c.fill ++ l) (s := s)
    (by rw [h, Chunk.bytes]; simp only [append_assoc])
  refine ⟨hhead, take_left' c.kind.2, ?_, hrest⟩
  rw [drop_left' c.kind.2, ofLe_le_of_lt (c.fits.trans (by decide))]

/-- A chunk that is neither the format nor the data is skipped. -/
theorem turn_other {c : Chunk} (hc : c.Other) {l : Bytes} {s : Socket}
    (h : s.flatten = c.bytes ++ l) (f : Fmt) : ∃ s', turn f s = .next f s' ∧ s'.flatten = l := by
  obtain ⟨hhead, hkind, hbody, hrest⟩ := head_bytes h
  have hlen : (c.body ++ replicate (c.body.length % 2) c.fill).length = padded c.body.length := by
    rw [length_append, length_replicate, padded_eq c.fits]
  obtain ⟨s', hskip, hl⟩ := skip_append hrest
  rw [hlen] at hskip
  refine ⟨s', ?_, hl⟩
  unfold turn
  dsimp only
  rw [hhead, hkind, hbody, if_neg, if_neg hc.2, if_neg fun hf => hc.1 hf.1, hskip]
  rw [ne_eq, not_not, length_append, c.kind.2, length_le]

/-- The format chunk is noted, and the rest of it skipped. -/
theorem turn_format {c : Chunk} (hkind : c.kind.1 = fmtKind) (hfull : 16 ≤ c.body.length)
    {l : Bytes} {s : Socket} (h : s.flatten = c.bytes ++ l) (f : Fmt) :
    ∃ s', turn f s = .next (fmtOf (c.body.take 16)) s' ∧ s'.flatten = l := by
  obtain ⟨hhead, hk, hbody, hrest⟩ := head_bytes h
  -- the first 16 bytes are the format, and an even number of them leaves the padding as it is
  have hfmt : ((s.readFull 8).2.readFull 16).1 = c.body.take 16 := by
    rw [Socket.readFull_fst, hrest, append_assoc, take_append_of_le_length hfull]
  have hleft : ((s.readFull 8).2.readFull 16).2.flatten
      = c.body.drop 16 ++ replicate (c.body.length % 2) c.fill ++ l := by
    rw [Socket.flatten_readFull, hrest, append_assoc, append_assoc,
      drop_append_of_le_length hfull]
  have hlen : (c.body.drop 16 ++ replicate (c.body.length % 2) c.fill).length
      = padded (c.body.length - 16) := by
    have hfits := c.fits
    rw [length_append, length_replicate, length_drop, padded_eq (by omega)]
    omega
  obtain ⟨s', hskip, hl⟩ := skip_append hleft
  rw [hlen] at hskip
  refine ⟨s', ?_, hl⟩
  unfold turn
  dsimp only
  rw [hhead, hk, hbody, hfmt, if_neg, if_neg, if_pos ⟨hkind, hfull⟩, if_neg, hskip]
  · rw [ne_eq, not_not, length_take, Nat.min_eq_left hfull]
  · rw [hkind]
    decide
  · rw [ne_eq, not_not, length_append, c.kind.2, length_le]

/-- The data chunk's head ends the loop. -/
theorem turn_data {n : ℕ} {l : Bytes} {s : Socket}
    (h : s.flatten = dataKind ++ le 4 n ++ l) (f : Fmt) :
    ∃ s', turn f s = .data s' ∧ s'.flatten = l := by
  have hkind : dataKind.length = 4 := by decide
  obtain ⟨hhead, hrest⟩ := readFull_head (k := ⟨dataKind, hkind⟩) h
  refine ⟨_, ?_, hrest⟩
  unfold turn
  dsimp only
  rw [hhead, if_neg, if_pos (take_left' hkind)]
  rw [ne_eq, not_not, length_append, hkind, length_le]

theorem chunks_next {f f' : Fmt} {s s' : Socket} (h : turn f s = .next f' s') :
    chunks f s = chunks f' s' := by
  rw [chunks]
  split
  · next h' => rw [h] at h'; cases h'
  · next h' => rw [h] at h'; cases h'
  · next h' => rw [h] at h'; cases h'; rfl

theorem chunks_data {f : Fmt} {s s' : Socket} (h : turn f s = .data s') :
    chunks f s = some (f, s') := by
  rw [chunks]
  split
  · next h' => rw [h] at h'; cases h'
  · next h' => rw [h] at h'; cases h'; rfl
  · next h' => rw [h] at h'; cases h'

/-- Chunks other than the format and the data are skipped. -/
theorem chunks_others (cs : List Chunk) (f : Fmt) {l : Bytes} :
    ∀ {s : Socket}, (∀ c ∈ cs, c.Other) → s.flatten = cs.flatMap Chunk.bytes ++ l →
      ∃ s', chunks f s = chunks f s' ∧ s'.flatten = l := by
  induction cs with
  | nil => intro s _ h; exact ⟨s, rfl, h⟩
  | cons c cs ih =>
    intro s hcs h
    rw [flatMap_cons, append_assoc] at h
    obtain ⟨s₁, hturn, h₁⟩ := turn_other (hcs c mem_cons_self) h f
    obtain ⟨s₂, hloop, h₂⟩ := ih (fun c hc => hcs c (mem_cons_of_mem _ hc)) h₁
    exact ⟨s₂, (chunks_next hturn).trans hloop, h₂⟩

/-- **The chunks before the data are skipped and the format is found, however the file is cut.** -/
theorem chunks_before (w : Wave) {l : Bytes} {s : Socket}
    (h : s.flatten = w.before ++ l) (f : Fmt) :
    ∃ s', chunks f s = some (w.fmt, s') ∧ s'.flatten = l := by
  unfold Wave.before at h
  simp only [flatMap_append, flatMap_cons, append_assoc] at h
  obtain ⟨s₁, hlead, h₁⟩ := chunks_others w.lead f w.lead_other h
  obtain ⟨s₂, hformat, h₂⟩ := turn_format w.format_kind w.format_full h₁ f
  obtain ⟨s₃, hbetween, h₃⟩ := chunks_others w.between w.fmt w.between_other h₂
  rw [← append_assoc] at h₃
  obtain ⟨s₄, hdata, h₄⟩ := turn_data h₃ w.fmt
  exact ⟨s₄, hlead.trans ((chunks_next hformat).trans (hbetween.trans (chunks_data hdata))), h₄⟩

theorem playWav_chunks (w : Wave) {s s' : Socket} (h : chunks ⟨0, 0, 0⟩ s = some (w.fmt, s')) :
    playWav false (fun _ => false) s =
      some (w.fmt, feeds (fun _ => false) (w.frame - 1) 0 [] s') := by
  unfold playWav
  rw [h]
  dsimp only
  have hok : ¬(w.fmt.bits ≠ 16 ∨ w.fmt.rate = 0 ∨ w.fmt.ch = 0) := by
    rintro (hbits | hrate | hch)
    · exact hbits w.bits
    · exact w.rate hrate
    · exact w.ch hch
  rw [if_neg hok, if_neg Bool.false_ne_true]
  rfl

/-! ### The samples -/

theorem feeds_stop {mask i : ℕ} {odd : Bytes} {s : Socket}
    (h : (s.read (bufSize - odd.length)).1 = []) :
    feeds (fun _ => false) mask i odd s = [] := by
  rw [feeds, if_pos (.inr h)]

theorem feeds_go {mask i : ℕ} {odd : Bytes} {s : Socket}
    (h : (s.read (bufSize - odd.length)).1 ≠ []) :
    feeds (fun _ => false) mask i odd s =
      (odd ++ (s.read (bufSize - odd.length)).1).take
          (Nat.ldiff (odd ++ (s.read (bufSize - odd.length)).1).length mask) ::
        feeds (fun _ => false) mask (i + 1)
          ((odd ++ (s.read (bufSize - odd.length)).1).drop
            (Nat.ldiff (odd ++ (s.read (bufSize - odd.length)).1).length mask))
          (s.read (bufSize - odd.length)).2 := by
  rw [feeds, if_neg]
  simpa using h

theorem take_split {k : ℕ} {l : Bytes} (hk : k ≤ l.length) (t : Bytes) (q : ℕ) :
    l.take k ++ (l.drop k ++ t).take q = (l ++ t).take (k + q) := by
  rw [take_add, take_append_of_le_length hk, drop_append_of_le_length hk]

/-- Taking whole frames away leaves the whole frames of the rest. -/
theorem frames_sub {m n t : ℕ} (hm : 0 < m) :
    n / m * m + (n - n / m * m + t) / m * m = (n + t) / m * m := by
  have hle : n / m * m ≤ n := Nat.div_mul_le_self n m
  obtain ⟨r, hr⟩ : ∃ r, n = n / m * m + r := ⟨n - n / m * m, by omega⟩
  generalize hq : n / m = q at *
  have htotal : n + t = r + t + q * m := by omega
  have hrest : n - q * m + t = r + t := by omega
  rw [htotal, hrest, Nat.add_mul_div_right _ _ hm, Nat.add_mul]
  omega

/-- **A frame of a power of two that fits the buffer: every piece is whole frames, and
together they are the whole frames of the stream, however it is cut.** -/
theorem feeds_two_pow {k : ℕ} (hk : 2 ^ k ≤ bufSize) (i : ℕ) (odd : Bytes) (s : Socket) :
    odd.length < 2 ^ k →
      (∀ p ∈ feeds (fun _ => false) (2 ^ k - 1) i odd s, 2 ^ k ∣ p.length) ∧
        (feeds (fun _ => false) (2 ^ k - 1) i odd s).flatten
          = (odd ++ s.flatten).take ((odd ++ s.flatten).length / 2 ^ k * 2 ^ k) := by
  induction hlen : s.flatten.length using Nat.strong_induction_on generalizing i odd s with
  | _ N ih =>
    intro hodd
    by_cases hr : (s.read (bufSize - odd.length)).1 = []
    · -- the end of the stream: what is carried over is less than a frame
      have hend : s.flatten = [] := by
        rcases (Socket.read_eq_nil_iff _ s).mp hr with h | h
        · omega
        · exact h
      rw [feeds_stop hr, hend, append_nil, Nat.div_eq_of_lt hodd]
      simp
    · have hless := Socket.length_read_lt hr
      have hflat := (Socket.read_append (bufSize - odd.length) s)
      rw [feeds_go hr]
      generalize s.read (bufSize - odd.length) = r at hless hflat
      rw [ldiff_two_pow]
      have huse : (odd ++ r.1).length / 2 ^ k * 2 ^ k ≤ (odd ++ r.1).length :=
        Nat.div_mul_le_self _ _
      have hcarry : ((odd ++ r.1).drop ((odd ++ r.1).length / 2 ^ k * 2 ^ k)).length < 2 ^ k := by
        rw [length_drop]
        have hmod := Nat.mod_lt (odd ++ r.1).length (Nat.two_pow_pos k)
        have hdiv := Nat.div_add_mod' (odd ++ r.1).length (2 ^ k)
        omega
      obtain ⟨hdvd, hall⟩ := ih _ (hlen ▸ hless) (i + 1) _ r.2 rfl hcarry
      refine ⟨?_, ?_⟩
      · intro p hp
        rcases mem_cons.mp hp with rfl | hp
        · rw [length_take, Nat.min_eq_left huse]
          exact Nat.dvd_mul_left _ _
        · exact hdvd p hp
      · rw [flatten_cons, hall, take_split huse, ← hflat, append_assoc]
        congr 1
        have hsum := @frames_sub (2 ^ k) (odd ++ r.1).length r.2.flatten.length (Nat.two_pow_pos k)
        simp only [length_append, length_drop] at hsum ⊢
        rw [hsum, Nat.add_assoc]

/-- **As long as less than the frame's lowest bit can come together, nothing is fed.** -/
theorem feeds_below {m : ℕ} (hm : 0 < m) (i : ℕ) (odd : Bytes) (s : Socket) :
    odd.length ≤ bufSize → min (odd.length + s.flatten.length) bufSize < ordProj[2] m →
      ∀ p ∈ feeds (fun _ => false) (m - 1) i odd s, p = [] := by
  induction hlen : s.flatten.length using Nat.strong_induction_on generalizing i odd s with
  | _ N ih =>
    intro hodd hmin
    by_cases hr : (s.read (bufSize - odd.length)).1 = []
    · rw [feeds_stop hr]
      intro p hp
      cases hp
    · have hless := Socket.length_read_lt hr
      have hflat := Socket.length_flatten_read (bufSize - odd.length) s
      have hcap := Socket.length_read_le (bufSize - odd.length) s
      rw [feeds_go hr]
      generalize s.read (bufSize - odd.length) = r at hless hflat hcap
      have hn : (odd ++ r.1).length ≤ min (odd.length + N) bufSize := by
        rw [length_append]
        omega
      rw [ldiff_of_lt hm (hn.trans_lt hmin), take_zero, drop_zero]
      intro p hp
      rcases mem_cons.mp hp with rfl | hp
      · rfl
      · refine ih _ (hlen ▸ hless) (i + 1) (odd ++ r.1) r.2 rfl ?_ ?_ p hp
        · exact hn.trans (Nat.min_le_right _ _)
        · rw [length_append, Nat.add_assoc, hflat, hlen]
          exact hmin

/-- A read of the frame's lowest bit is fed as it is. -/
theorem feeds_lowest {m : ℕ} (hm : 0 < m) {x : Bytes} (hx : x.length = ordProj[2] m)
    (hle : x.length ≤ bufSize) {s : Socket} (hs : s.flatten = []) (t : Socket) :
    x ∈ feeds (fun _ => false) (m - 1) 0 [] (s ++ x :: t) := by
  have hne : x ≠ [] := by
    apply length_pos_iff.mp
    rw [hx]
    exact Nat.ordProj_pos m 2
  have hread : (s ++ x :: t).read bufSize = (x, x.drop bufSize :: t) := by
    rw [Socket.read_of_flatten_eq_nil _ _ hs, Socket.read, if_neg hne, take_of_length_le hle]
  have hgo : ((s ++ x :: t).read (bufSize - ([] : Bytes).length)).1 ≠ [] := by
    rw [length_nil, Nat.sub_zero, hread]
    exact hne
  rw [feeds_go hgo, length_nil, Nat.sub_zero, hread, nil_append, hx, ldiff_lowest hm]
  apply mem_cons.mpr
  left
  rw [← hx, take_length]

/-! ### What follows the chunks is not seen -/

theorem skip_append_socket {len : ℕ} {s s' : Socket} (t : Socket) (h : skip len s = some s') :
    skip len (s ++ t) = some (s' ++ t) := by
  fun_induction skip len s with
  | case1 s =>
    cases h
    rw [skip, if_pos rfl]
  | case2 len s hlen hread => cases h
  | case3 len s hlen hread ih =>
    have hne : s.flatten ≠ [] := fun hend => hread ((Socket.read_eq_nil_iff _ s).mpr (.inr hend))
    rw [skip, Socket.read_append_socket _ t hne, if_neg hlen, if_neg hread]
    exact ih h

theorem readFull_length {n : ℕ} {s : Socket} (h : (s.readFull n).1.length = n) :
    n ≤ s.flatten.length := by
  rw [Socket.readFull_fst, length_take] at h
  omega

theorem turn_next_append {f f' : Fmt} {s s' : Socket} (t : Socket) (h : turn f s = .next f' s') :
    turn f (s ++ t) = .next f' (s' ++ t) := by
  unfold turn at h ⊢
  dsimp only at h ⊢
  split at h
  · cases h
  · next hlen =>
    rw [ne_eq, not_not] at hlen
    rw [Socket.readFull_append_socket t (readFull_length hlen), if_neg (by rw [hlen]; simp)]
    split at h
    · cases h
    · next hdata =>
      rw [if_neg hdata]
      split at h
      · next hfmt =>
        rw [if_pos hfmt]
        split at h
        · cases h
        · next hlen' =>
          rw [ne_eq, not_not] at hlen'
          rw [Socket.readFull_append_socket t (readFull_length hlen'), if_neg (by rw [hlen']; simp)]
          split at h
          · cases h
          · next s₁ hskip =>
            cases h
            rw [skip_append_socket t hskip]
      · next hfmt =>
        rw [if_neg hfmt]
        split at h
        · cases h
        · next s₁ hskip =>
          cases h
          rw [skip_append_socket t hskip]

theorem turn_data_append {f : Fmt} {s s' : Socket} (t : Socket) (h : turn f s = .data s') :
    turn f (s ++ t) = .data (s' ++ t) := by
  unfold turn at h ⊢
  dsimp only at h ⊢
  split at h
  · cases h
  · next hlen =>
    rw [ne_eq, not_not] at hlen
    rw [Socket.readFull_append_socket t (readFull_length hlen), if_neg (by rw [hlen]; simp)]
    split at h
    · next hdata =>
      cases h
      rw [if_pos hdata]
    · split at h
      · split at h
        · cases h
        · split at h <;> cases h
      · split at h <;> cases h

/-- The loop over the chunks does not see what follows them. -/
theorem chunks_append {f : Fmt} {s : Socket} {r : Fmt × Socket} (t : Socket)
    (h : chunks f s = some r) :
    chunks f (s ++ t) = some (r.1, r.2 ++ t) := by
  fun_induction chunks f s with
  | case1 f s hturn => cases h
  | case2 f s s' hturn =>
    cases h
    exact chunks_data (turn_data_append t hturn)
  | case3 f s f' s' hturn ih =>
    rw [chunks_next (turn_next_append t hturn)]
    exact ih h

/-! ### Which files are played right -/

/-- Either a frame's bytes are a power of two that fits the buffer and what stands behind
the data does not make up one frame more, or there is less data than a frame and less
comes together than the frame's lowest bit. -/
def Wave.Playable (w : Wave) : Prop :=
  ((∃ k, w.frame = 2 ^ k ∧ 2 ^ k ≤ bufSize) ∧
      (w.data ++ w.after).length / w.frame = w.data.length / w.frame) ∨
    (min (w.data ++ w.after).length bufSize < ordProj[2] w.frame ∧ w.data.length < w.frame)

theorem Wave.frame_pos (w : Wave) : 0 < w.frame := by
  have h := w.ch
  unfold Wave.frame Wave.fmt
  omega

/-- What is fed of a file. -/
theorem playWav_eq (w : Wave) {s : Socket} (h : s.flatten = w.bytes) :
    ∃ s', playWav false (fun _ => false) s =
      some (w.fmt, feeds (fun _ => false) (w.frame - 1) 0 [] s') ∧
      s'.flatten = w.data ++ w.after := by
  obtain ⟨s', hchunks, hflat⟩ := chunks_before w h ⟨0, 0, 0⟩
  exact ⟨s', playWav_chunks w hchunks, hflat⟩

theorem plays_of_playable {w : Wave} (hw : w.Playable) {s : Socket} (h : s.flatten = w.bytes) :
    Plays w s := by
  obtain ⟨s', hplay, hflat⟩ := playWav_eq w h
  refine ⟨_, hplay, ?_⟩
  rcases hw with ⟨⟨k, hk, hfit⟩, htotal⟩ | ⟨hmin, hdata⟩
  · rw [hk] at htotal ⊢
    obtain ⟨hdvd, hall⟩ := feeds_two_pow hfit 0 [] s' (Nat.two_pow_pos k)
    refine ⟨hdvd, ?_⟩
    rw [hall, nil_append, hflat, htotal,
      take_append_of_le_length (Nat.div_mul_le_self _ _)]
  · have hnil := feeds_below w.frame_pos 0 [] s' (Nat.zero_le _) (by rw [hflat]; simpa using hmin)
    refine ⟨fun p hp => by rw [hnil p hp]; exact Nat.dvd_zero _, ?_⟩
    rw [Nat.div_eq_of_lt hdata, Nat.zero_mul, take_zero]
    exact flatten_eq_nil_iff.mpr hnil

/-- A file cut so that the frame's lowest bit comes together first: it is fed as a piece. -/
theorem dvd_lowest {w : Wave} (hw : ∀ s : Socket, s.flatten = w.bytes → Plays w s)
    (hge : ordProj[2] w.frame ≤ min (w.data ++ w.after).length bufSize) :
    w.frame ∣ ordProj[2] w.frame := by
  generalize hl : w.data ++ w.after = l at hge
  have hx : (l.take (ordProj[2] w.frame)).length = ordProj[2] w.frame := by
    rw [length_take]
    exact Nat.min_eq_left (hge.trans (Nat.min_le_left _ _))
  -- the chunks in one piece, then that many bytes, then the rest
  obtain ⟨s₁, hchunks, hend⟩ := chunks_before w (l := []) (s := [w.before]) (by simp) ⟨0, 0, 0⟩
  obtain ⟨pieces, hplay, hdvd, -⟩ :=
    hw ([w.before] ++ [l.take (ordProj[2] w.frame), l.drop (ordProj[2] w.frame)])
    (by simp [Wave.bytes, hl])
  rw [playWav_chunks w (chunks_append _ hchunks), Option.some.injEq, Prod.mk.injEq] at hplay
  obtain ⟨-, rfl⟩ := hplay
  have hmem := feeds_lowest w.frame_pos hx (by rw [hx]; exact hge.trans (Nat.min_le_right _ _)) hend
    [l.drop (ordProj[2] w.frame)]
  have h := hdvd _ hmem
  rwa [hx] at h

theorem playable_of_plays {w : Wave} (hw : ∀ s : Socket, s.flatten = w.bytes → Plays w s) :
    w.Playable := by
  have hm := w.frame_pos
  -- the file in one piece
  obtain ⟨pieces, hplay, hdvd, hall⟩ := hw [w.bytes] (by simp)
  obtain ⟨s', hplay', hflat⟩ := playWav_eq w (s := [w.bytes]) (by simp)
  rw [hplay', Option.some.injEq, Prod.mk.injEq] at hplay
  obtain ⟨-, rfl⟩ := hplay
  by_cases hpow : ∃ k, w.frame = 2 ^ k ∧ 2 ^ k ≤ bufSize
  · left
    refine ⟨hpow, ?_⟩
    obtain ⟨k, hk, hfit⟩ := hpow
    rw [hk] at hall ⊢
    have heq :=
      congrArg List.length ((feeds_two_pow hfit 0 [] s' (Nat.two_pow_pos k)).2.symm.trans hall)
    rw [nil_append, hflat, length_take, length_take,
      Nat.min_eq_left (Nat.div_mul_le_self _ _), Nat.min_eq_left (Nat.div_mul_le_self _ _)] at heq
    exact Nat.eq_of_mul_eq_mul_right (Nat.two_pow_pos k) heq
  · right
    have hmin : min (w.data ++ w.after).length bufSize < ordProj[2] w.frame := by
      by_contra hge
      have hle := not_lt.mp hge
      -- then the frame is its lowest bit, and fits
      have heq := Nat.dvd_antisymm (dvd_lowest hw hle) (Nat.ordProj_dvd w.frame 2)
      exact hpow ⟨_, heq, hle.trans (Nat.min_le_right _ _)⟩
    refine ⟨hmin, ?_⟩
    by_contra hge
    rw [not_lt] at hge
    have hnil := feeds_below hm 0 [] s' (Nat.zero_le _) (by rw [hflat]; simpa using hmin)
    rw [flatten_eq_nil_iff.mpr hnil] at hall
    have hlen := congrArg List.length hall
    rw [length_nil, length_take, Nat.min_eq_left (Nat.div_mul_le_self _ _)] at hlen
    have hone : 1 ≤ w.data.length / w.frame := (Nat.one_le_div_iff hm).mpr hge
    have hpos : 0 < w.data.length / w.frame * w.frame := Nat.mul_pos hone hm
    omega

/-- **A file is played right however it is cut exactly when it is one of these.** -/
theorem plays_iff (w : Wave) : (∀ s : Socket, s.flatten = w.bytes → Plays w s) ↔ w.Playable :=
  ⟨playable_of_plays, fun hw _ h => plays_of_playable hw h⟩

/-! ### A file that is not played right -/

/-- Three channels of 16 bits at 16 kHz, one frame of silence. -/
def surround : Wave where
  lead := []
  format := ⟨⟨fmtKind, by decide⟩,
    le 2 1 ++ le 2 3 ++ le 4 16000 ++ le 4 96000 ++ le 2 6 ++ le 2 16, 0, by decide⟩
  between := []
  data := replicate 6 0
  known := true
  fill := 0
  trail := []
  lead_other := by simp
  format_kind := rfl
  format_full := by decide
  bits := by decide
  rate := by decide
  ch := by decide
  between_other := by simp
  trail_other := by simp
  data_fits := by decide

/-- Of its frame of six bytes two are fed, and the data is not played right. -/
theorem plays_surround :
    playWav false (fun _ => false) [surround.bytes] = some (⟨16000, 3, 16⟩, [[0, 0]]) ∧
      ¬∀ (w : Wave) (s : Socket), s.flatten = w.bytes → Plays w s := by
  have hfed : playWav false (fun _ => false) [surround.bytes] =
      some (⟨16000, 3, 16⟩, [[0, 0]]) := by
    decide +kernel
  refine ⟨hfed, fun h => ?_⟩
  obtain ⟨pieces, hplay, hdvd, -⟩ := h surround [surround.bytes] (by simp)
  rw [hfed, Option.some.injEq, Prod.mk.injEq] at hplay
  obtain ⟨-, rfl⟩ := hplay
  have hframe : surround.frame = 6 := by decide
  have htwo := hdvd [0, 0] mem_cons_self
  rw [hframe] at htwo
  exact absurd htwo (by decide)

end Hassmic.Wav
