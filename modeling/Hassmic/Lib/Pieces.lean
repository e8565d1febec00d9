import Hassmic.Lib.Bytes
import Mathlib.Data.List.Basic
import Mathlib.Tactic

/-!
# Pieces of a text

A loop of `strcspn` or `memchr` goes through the pieces of a text that a separator stands between:
the lines of a file, the words of a list.  Behind a separator at the end there is no piece.

## Main definitions

* `Text.pieces` — the pieces of a text.
* `Text.room` — the bytes that pieces take, with a separator each.

## Main results

* `Text.pieces_line` — what is written with a separator behind it is one piece.
* `Text.intercalate_pieces` — a text is its pieces put together, unless one is empty.
-/

namespace Text

open List

/-- The pieces of a text; `cur` is the one that is under way. -/
def pieces (sep : UInt8) : Bytes → Bytes → List Bytes
  | cur, [] => if cur = [] then [] else [cur]
  | cur, c :: l => if c = sep then cur :: pieces sep [] l else pieces sep (cur ++ [c]) l

variable {p : Bytes} {sep : UInt8}

/-- **What is written with a separator behind it is one piece.** -/
theorem pieces_line (cur : Bytes) (hp : sep ∉ p) (l : Bytes) :
    pieces sep cur (p ++ sep :: l) = (cur ++ p) :: pieces sep [] l := by
  induction p generalizing cur with
  | nil =>
    show pieces sep cur (sep :: l) = _
    rw [pieces, if_pos rfl, append_nil]
  | cons c p ih =>
    rw [mem_cons, not_or] at hp
    rw [cons_append, pieces, if_neg (Ne.symm hp.1), ih _ hp.2, append_assoc, singleton_append]

/-- Lines with a separator behind each are its pieces. -/
theorem pieces_lines {ls : List Bytes} (hls : ∀ p ∈ ls, sep ∉ p) (l : Bytes) :
    pieces sep [] (ls.flatMap (· ++ [sep]) ++ l) = ls ++ pieces sep [] l := by
  induction ls with
  | nil => rfl
  | cons p ls ih =>
    rw [flatMap_cons, append_assoc, append_assoc, singleton_append,
      pieces_line [] (hls p mem_cons_self), nil_append, ih fun q hq => hls q (mem_cons_of_mem p hq),
      cons_append]

/-- The bytes that pieces take, with a separator each. -/
def room (ps : List Bytes) : ℕ := (ps.map fun p => p.length + 1).sum

theorem room_cons (p : Bytes) (ps : List Bytes) : room (p :: ps) = p.length + 1 + room ps := by
  unfold room
  rw [map_cons, sum_cons]

theorem room_pieces (sep : UInt8) (cur l : Bytes) :
    room (pieces sep cur l) ≤ cur.length + l.length + 1 := by
  induction l generalizing cur with
  | nil =>
    unfold pieces
    split
    · exact Nat.zero_le _
    · rw [room_cons]
      exact le_rfl
  | cons c l ih =>
    unfold pieces
    split
    · have hrest := ih []
      rw [room_cons, length_cons]
      rw [length_nil] at hrest
      omega
    · have hrest := ih (cur ++ [c])
      rw [length_append, length_singleton] at hrest
      rw [length_cons]
      omega

theorem length_le_room {ps : List Bytes} (h : p ∈ ps) : p.length + 1 ≤ room ps := by
  induction ps with
  | nil => cases h
  | cons q ps ih =>
    rw [room_cons]
    rcases mem_cons.mp h with rfl | h
    · omega
    · have := ih h
      omega

/-- No character of a piece is new. -/
theorem mem_pieces {cur l : Bytes} (h : p ∈ pieces sep cur l) : ∀ c ∈ p, c ∈ cur ∨ c ∈ l := by
  induction l generalizing cur with
  | nil =>
    unfold pieces at h
    split at h
    · cases h
    · intro c hc
      rw [mem_singleton.mp h] at hc
      exact Or.inl hc
  | cons d l ih =>
    unfold pieces at h
    intro c hc
    split at h
    · rcases mem_cons.mp h with rfl | h
      · exact Or.inl hc
      · rcases ih h c hc with hc | hc
        · cases hc
        · exact Or.inr (mem_cons_of_mem d hc)
    · rcases ih h c hc with hc | hc
      · rcases mem_append.mp hc with hc | hc
        · exact Or.inl hc
        · exact Or.inr (mem_singleton.mp hc ▸ mem_cons_self)
      · exact Or.inr (mem_cons_of_mem d hc)

theorem intercalate_cons (sep : UInt8) (p : Bytes) (ps : List Bytes) :
    [sep].intercalate (p :: ps) = p ++ ps.flatMap fun q => sep :: q := by
  induction ps generalizing p with
  | nil => simp [List.intercalate]
  | cons q ps ih =>
    rw [flatMap_cons]
    have hq := ih q
    simp only [List.intercalate, List.intersperse] at hq ⊢
    simp [hq]

theorem length_piece_lt {cur l : Bytes} (hsep : sep ∈ l) (h : p ∈ pieces sep cur l) :
    p.length < cur.length + l.length := by
  induction l generalizing cur with
  | nil => cases hsep
  | cons c l ih =>
    unfold pieces at h
    rw [length_cons]
    split at h
    · rcases mem_cons.mp h with rfl | h
      · omega
      · have hle := length_le_room h
        have hroom := room_pieces sep [] l
        rw [length_nil] at hroom
        omega
    · next hne =>
      have hl : sep ∈ l := by
        rcases mem_cons.mp hsep with rfl | hl
        · exact absurd rfl hne
        · exact hl
      have := ih hl h
      rw [length_append, length_singleton] at this
      omega

theorem sep_notMem_piece {cur l : Bytes} (hcur : sep ∉ cur) (h : p ∈ pieces sep cur l) :
    sep ∉ p := by
  induction l generalizing cur with
  | nil =>
    unfold pieces at h
    split at h
    · cases h
    · rwa [mem_singleton.mp h]
  | cons c l ih =>
    unfold pieces at h
    split at h
    · rcases mem_cons.mp h with rfl | h
      · exact hcur
      · exact ih not_mem_nil h
    · next hne => exact ih (by simp [hcur, Ne.symm hne]) h

/-- The pieces that are not empty are those between separators. -/
theorem filter_pieces (sep : UInt8) (cur l : Bytes) :
    (pieces sep cur l).filter (· ≠ []) =
      ((l.splitOn sep).modifyHead (cur ++ ·)).filter (· ≠ []) := by
  induction l generalizing cur with
  | nil =>
    unfold pieces
    rw [splitOn_nil, modifyHead_cons, append_nil]
    by_cases hcur : cur = []
    · rw [if_pos hcur, hcur]
      rfl
    · rw [if_neg hcur]
  | cons c l ih =>
    unfold pieces
    rw [splitOn_cons_eq_if_modifyHead]
    by_cases hc : c = sep
    · have hnil := ih []
      have hid : (l.splitOn sep).modifyHead (([] : Bytes) ++ ·) = l.splitOn sep := by
        cases l.splitOn sep <;> rfl
      rw [hid] at hnil
      rw [if_pos hc, if_pos (by simpa using hc), modifyHead_cons, append_nil, filter_cons,
        filter_cons, hnil]
    · have hcons : ((l.splitOn sep).modifyHead (List.cons c)).modifyHead (cur ++ ·) =
          (l.splitOn sep).modifyHead (cur ++ [c] ++ ·) := by
        cases l.splitOn sep with
        | nil => rfl
        | cons p ps => simp
      rw [if_neg hc, if_neg (by simpa using hc), hcons, ih]

/-- **A text is its pieces that are not empty, with a comma between them, if and only if it has no
other.** -/
theorem intercalate_pieces (sep : UInt8) (l : Bytes) :
    [sep].intercalate ((pieces sep [] l).filter (· ≠ [])) = l ↔ l = [] ∨ [] ∉ l.splitOn sep := by
  have hfilter := filter_pieces sep [] l
  have hid : (l.splitOn sep).modifyHead (([] : Bytes) ++ ·) = l.splitOn sep := by
    cases l.splitOn sep <;> rfl
  rw [hid] at hfilter
  constructor
  · intro heq
    by_cases hps : (pieces sep [] l).filter (· ≠ []) = []
    · rw [hps] at heq
      exact Or.inl heq.symm
    · right
      have hsplit := @splitOn_intercalate _ ((pieces sep [] l).filter (· ≠ [])) _ _ sep
        (fun p hp => sep_notMem_piece not_mem_nil (mem_filter.mp hp).1) hps
      rw [heq] at hsplit
      rw [hsplit]
      intro hmem
      simpa using (mem_filter.mp hmem).2
  · rintro (rfl | hne)
    · rfl
    · have hall : (l.splitOn sep).filter (· ≠ []) = l.splitOn sep := by
        refine filter_eq_self.mpr fun p hp => ?_
        exact decide_eq_true fun hnil : p = [] => hne (hnil ▸ hp)
      rw [hfilter, hall, intercalate_splitOn]

end Text
