import Hassmic.Lib.Bytes

/-!
# A stream in pieces

A stream comes in pieces of any sizes, and one read finds no more than what is left
of a piece.  A reader that asks until it has enough does not see the pieces.

## Main definitions

* `Socket` — the pieces that are still to be read.
* `Socket.read`, `Socket.readFull` — one read, and reads until enough is there.

## Main results

* `Socket.read_append`, `Socket.read_eq_nil_iff` — a read takes some of the stream,
  and nothing only at its end.
* `Socket.readFull_fst`, `Socket.flatten_readFull` — reading on takes all that was asked.
* `Socket.readFull_append_socket` — what follows is not seen before it is needed.
-/

/-- What is left of a stream, in the pieces in which reads find it. -/
abbrev Socket := List Bytes

namespace Socket

open List

/-- `read` of up to `n` bytes: from the first piece that is not empty. -/
def read (n : ℕ) : Socket → Bytes × Socket
  | [] => ([], [])
  | seg :: segs => if seg = [] then read n segs else (seg.take n, seg.drop n :: segs)

theorem read_append (n : ℕ) (s : Socket) : (read n s).1 ++ (read n s).2.flatten = s.flatten := by
  induction s with
  | nil => rfl
  | cons seg segs ih =>
    unfold read
    by_cases h : seg = []
    · rw [if_pos h, ih, flatten_cons, h, nil_append]
    · rw [if_neg h, flatten_cons, flatten_cons, ← append_assoc, take_append_drop]

theorem length_read_le (n : ℕ) (s : Socket) : (read n s).1.length ≤ n := by
  induction s with
  | nil => exact Nat.zero_le _
  | cons seg segs ih =>
    unfold read
    split
    · exact ih
    · exact length_take_le _ _

/-- A read finds nothing only when it asks for nothing, or at the end. -/
theorem read_eq_nil_iff (n : ℕ) (s : Socket) : (read n s).1 = [] ↔ n = 0 ∨ s.flatten = [] := by
  induction s with
  | nil => simp [read]
  | cons seg segs ih =>
    unfold read
    by_cases h : seg = []
    · rw [if_pos h, ih, flatten_cons, h, nil_append]
    · rw [if_neg h, flatten_cons, append_eq_nil_iff]
      simp [h]

theorem length_flatten_read (n : ℕ) (s : Socket) :
    (read n s).1.length + (read n s).2.flatten.length = s.flatten.length := by
  rw [← length_append, read_append]

/-- A read that finds something leaves less. -/
theorem length_read_lt {n : ℕ} {s : Socket} (h : (read n s).1 ≠ []) :
    (read n s).2.flatten.length < s.flatten.length := by
  have hpos := length_pos_iff.mpr h
  have hlen := length_flatten_read n s
  omega

/-- What one read finds and leaves, in terms of the stream. -/
theorem read_eq (n : ℕ) (s : Socket) :
    (read n s).1 = s.flatten.take (read n s).1.length ∧
      (read n s).2.flatten = s.flatten.drop (read n s).1.length := by
  rw [← read_append n s]
  simp

/-- What follows a piece of the stream is not seen by a read that finds something in it. -/
theorem read_append_socket (n : ℕ) {s : Socket} (t : Socket) (h : s.flatten ≠ []) :
    read n (s ++ t) = ((read n s).1, (read n s).2 ++ t) := by
  induction s with
  | nil => exact absurd rfl h
  | cons seg segs ih =>
    rw [cons_append]
    unfold read
    by_cases hseg : seg = []
    · rw [if_pos hseg, if_pos hseg]
      apply ih
      rwa [flatten_cons, hseg, nil_append] at h
    · rw [if_neg hseg, if_neg hseg, cons_append]

/-- Empty pieces are passed over. -/
theorem read_of_flatten_eq_nil (n : ℕ) {s : Socket} (t : Socket) (h : s.flatten = []) :
    read n (s ++ t) = read n t := by
  induction s with
  | nil => rfl
  | cons seg segs ih =>
    rw [flatten_cons, append_eq_nil_iff] at h
    rw [cons_append]
    conv_lhs => unfold read
    rw [if_pos h.1, ih h.2]

/-- `read_full`: reads until `n` bytes are there, or the stream ends. -/
def readFull (n : ℕ) (s : Socket) : Bytes × Socket :=
  if n = 0 ∨ (read n s).1 = [] then ([], s)
  else
    let r := readFull (n - (read n s).1.length) (read n s).2
    ((read n s).1 ++ r.1, r.2)
  termination_by n
  decreasing_by
    rename_i h
    have hpos := List.length_pos_iff.mpr (not_or.mp h).2
    have hn := (not_or.mp h).1
    omega

theorem readFull_eq (n : ℕ) (s : Socket) :
    (readFull n s).1 = s.flatten.take n ∧ (readFull n s).2.flatten = s.flatten.drop n := by
  fun_induction readFull n s with
  | case1 n s h =>
    rcases h with rfl | h
    · exact ⟨rfl, rfl⟩
    · rcases (read_eq_nil_iff n s).mp h with rfl | h
      · exact ⟨rfl, rfl⟩
      · rw [h]
        exact ⟨by simp, by simp⟩
  | case2 n s h r ih =>
    obtain ⟨ih1, ih2⟩ := ih
    have hle := length_read_le n s
    have hsplit : s.flatten = (read n s).1 ++ (read n s).2.flatten := (read_append n s).symm
    refine ⟨?_, ?_⟩
    · dsimp only [r]
      rw [ih1, hsplit, take_append, take_of_length_le hle]
    · dsimp only [r]
      rw [ih2, hsplit, drop_append, drop_of_length_le hle, nil_append]

theorem readFull_fst (n : ℕ) (s : Socket) : (readFull n s).1 = s.flatten.take n :=
  (readFull_eq n s).1

theorem flatten_readFull (n : ℕ) (s : Socket) : (readFull n s).2.flatten = s.flatten.drop n :=
  (readFull_eq n s).2

/-- Nor by reading on, as long as it finds all it asks for. -/
theorem readFull_append_socket {n : ℕ} {s : Socket} (t : Socket) (h : n ≤ s.flatten.length) :
    readFull n (s ++ t) = ((readFull n s).1, (readFull n s).2 ++ t) := by
  fun_induction readFull n s with
  | case1 n s hstop =>
    have hn : n = 0 := by
      rcases hstop with hn | hr
      · exact hn
      · rcases (read_eq_nil_iff n s).mp hr with hn | hend
        · exact hn
        · rw [hend] at h
          exact Nat.le_zero.mp h
    rw [readFull, if_pos (.inl hn)]
  | case2 n s hgo r ih =>
    have hne : s.flatten ≠ [] := by
      intro hend
      exact hgo (.inr ((read_eq_nil_iff n s).mpr (.inr hend)))
    have hlen := length_flatten_read n s
    rw [readFull, read_append_socket n t hne, if_neg hgo]
    dsimp only [r]
    rw [ih (by omega)]

end Socket
