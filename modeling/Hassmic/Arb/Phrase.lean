import Hassmic.Arb.Interface

/-!
# The phrase of a keyword

The phrase that Kiosk Satellites compare is the keyword in lower case, with its white space trimmed
and each run of it made one space, cut off where its buffer ends.  Made a phrase once more, a phrase
stays as it is unless the cut left a space at its end.

## Main definitions

* `collapse`, `phrase` — the phrase before it is cut off.
* `Spaced` — a text with single spaces, in lower case.

## Main results

* `kioskPhrase_eq` — the phrase is cut off at 63 characters.
* `kioskPhrase_kioskPhrase` — **when making a phrase of a phrase changes nothing**.
-/

namespace Hassmic.Arb

open Byte Text St List

/-! ### The phrase before it is cut off -/

/-- The words of a text in lower case, with one space between two of them: whether one was written
before, and whether a space is due. -/
def collapse (started gap : Bool) : Bytes → Bytes
  | [] => []
  | c :: l =>
      if isSpace c then collapse started started l
      else (if gap then [space, toLower c] else [toLower c]) ++ collapse true false l

/-- The phrase before it is cut off. -/
def phrase (l : Bytes) : Bytes := collapse false false l

/-- The character in lower case is none that is left out. -/
theorem toLower_spec : ∀ {c : UInt8}, isSpace c = false →
    toLower c ≠ space ∧ isSpace (toLower c) = false ∧ toLower (toLower c) = toLower c ∧
      (c ≠ nul → toLower c ≠ nul) := by
  decide +kernel

theorem take_snoc (l : Bytes) (c : UInt8) :
    (if (l.take 63).length + 1 < 64 then l.take 63 ++ [c] else l.take 63) = (l ++ [c]).take 63 := by
  rw [length_take]
  split
  · next h =>
    have hl : l.length < 63 := by omega
    rw [take_of_length_le hl.le, take_of_length_le (by rw [length_append]; exact hl)]
  · next h =>
    have hl : 63 ≤ l.length := by omega
    rw [take_append_of_le_length hl]

/-- **What is written of a text**, behind what was written before. -/
theorem foldl_phraseStep (l : Bytes) : ∀ (full : Bytes) (gap : Bool),
    (l.foldl phraseStep (full.take 63, gap)).1 =
      (full ++ collapse (!full.isEmpty) gap l).take 63 := by
  induction l with
  | nil =>
    intro full gap
    rw [collapse, append_nil]
    rfl
  | cons c l ih =>
    intro full gap
    rw [foldl_cons]
    by_cases hc : isSpace c = true
    · have hempty : (full.take 63).isEmpty = full.isEmpty := by
        cases full with
        | nil => rfl
        | cons d full => rfl
      have hstep : phraseStep (full.take 63, gap) c = (full.take 63, !full.isEmpty) := by
        unfold phraseStep
        rw [if_pos hc, hempty]
      rw [hstep, ih, collapse, if_pos hc]
    · have hstep : phraseStep (full.take 63, gap) c =
          ((full ++ if gap then [space, toLower c] else [toLower c]).take 63, false) := by
        unfold phraseStep
        rw [if_neg hc]
        dsimp only
        cases gap with
        | false =>
          simp only [Bool.false_eq_true, false_and, if_false]
          rw [take_snoc]
        | true =>
          have hspace := take_snoc full space
          simp only [true_and, if_true]
          rw [hspace, take_snoc, append_assoc]
          rfl
      have hstarted : (full ++ if gap then [space, toLower c]
          else [toLower c]).isEmpty = false := by
        cases gap with
        | false => simp
        | true => simp
      rw [hstep, ih, hstarted, collapse, if_neg hc, append_assoc]
      rfl

/-- **The phrase is cut off at 63 characters.** -/
theorem kioskPhrase_eq (l : Bytes) : kioskPhrase l = (phrase l).take 63 :=
  foldl_phraseStep l [] false

/-! ### Single spaces -/

/-- A text with single spaces, in lower case; whether a space may come first. -/
def Spaced : Bool → Bytes → Prop
  | _, [] => True
  | p, c :: l =>
      if c = space then p = true ∧ Spaced false l
      else isSpace c = false ∧ toLower c = c ∧ Spaced true l

theorem Spaced.take {p : Bool} {l : Bytes} (h : Spaced p l) (n : ℕ) : Spaced p (l.take n) := by
  induction l generalizing p n with
  | nil =>
    rw [take_nil]
    trivial
  | cons c l ih =>
    cases n with
    | zero => trivial
    | succ n =>
      rw [take_succ_cons]
      unfold Spaced at h ⊢
      split
      · next hc =>
        rw [if_pos hc] at h
        exact ⟨h.1, ih h.2 n⟩
      · next hc =>
        rw [if_neg hc] at h
        exact ⟨h.1, h.2.1, ih h.2.2 n⟩

/-- A character in lower case, and what follows it. -/
theorem spaced_lower {p : Bool} {c : UInt8} {l : Bytes} (hc : isSpace c = false)
    (hl : Spaced true l) :
    Spaced p (toLower c :: l) := by
  obtain ⟨hne, hsp, hlow, -⟩ := toLower_spec hc
  unfold Spaced
  rw [if_neg hne]
  exact ⟨hsp, hlow, hl⟩

theorem spaced_collapse (l : Bytes) : ∀ started gap : Bool, (gap = true → started = true) →
    Spaced started (collapse started gap l) := by
  induction l with
  | nil => exact fun _ _ _ => trivial
  | cons c l ih =>
    intro started gap hgap
    unfold collapse
    by_cases hc : isSpace c = true
    · rw [if_pos hc]
      exact ih started started fun h => h
    · rw [if_neg hc]
      have hrest := ih true false fun h => absurd h Bool.false_ne_true
      cases gap with
      | false => exact spaced_lower (Bool.not_eq_true _ ▸ hc) hrest
      | true =>
        have hfirst : Spaced false (toLower c :: collapse true false l) :=
          spaced_lower (Bool.not_eq_true _ ▸ hc) hrest
        show Spaced started (space :: toLower c :: collapse true false l)
        unfold Spaced
        rw [if_pos rfl]
        exact ⟨hgap rfl, hfirst⟩

/-- The last character is no space. -/
theorem last_collapse (l : Bytes) : ∀ started gap :
    Bool, (collapse started gap l).getLast? ≠ some space := by
  induction l with
  | nil => exact fun _ _ h => nomatch h
  | cons c l ih =>
    intro started gap
    unfold collapse
    by_cases hc : isSpace c = true
    · rw [if_pos hc]
      exact ih started started
    · rw [if_neg hc]
      obtain ⟨hne, -⟩ := toLower_spec (c := c) (Bool.not_eq_true _ ▸ hc)
      rw [getLast?_append]
      intro h
      cases hlast : (collapse true false l).getLast? with
      | some d =>
        rw [hlast] at h
        exact ih true false (hlast.trans h)
      | none =>
        rw [hlast, Option.none_or] at h
        cases gap with
        | false => exact hne (Option.some.inj h)
        | true => exact hne (Option.some.inj h)

theorem length_collapse_le (l : Bytes) : ∀ started gap : Bool,
    (collapse started gap l).length ≤ l.length + if gap then 1 else 0 := by
  induction l with
  | nil => exact fun _ _ => Nat.zero_le _
  | cons c l ih =>
    intro started gap
    unfold collapse
    rw [length_cons]
    split
    · have h := ih started started
      split at h
      · omega
      · omega
    · have h := ih true false
      rw [length_append]
      cases gap with
      | false =>
        simp only [Bool.false_eq_true, if_false, length_singleton, Nat.add_zero] at h ⊢
        omega
      | true =>
        simp only [Bool.false_eq_true, if_false, if_true, length_cons, length_nil] at h ⊢
        omega

/-- **A text with single spaces and none at its end** stays as it is. -/
theorem collapse_spaced (w : Bytes) : w.getLast? ≠ some space →
    (Spaced true w → collapse true false w = w) ∧
      (Spaced false w → (∀ s, collapse s false w = w) ∧
        (w ≠ [] → collapse true true w = space :: w)) := by
  induction w with
  | nil => exact fun _ => ⟨fun _ => rfl, fun _ => ⟨fun _ => rfl, fun h => absurd rfl h⟩⟩
  | cons c l ih =>
    intro hlast
    have htail : l.getLast? ≠ some space := by
      cases l with
      | nil => exact fun h => nomatch h
      | cons d l =>
        rw [getLast?_cons_cons] at hlast
        exact hlast
    obtain ⟨hopen, hclosed⟩ := ih htail
    -- a character that is no space is written, and what follows it is as it was
    have hword : c ≠ space → Spaced true (c :: l) ∨ Spaced false (c :: l) →
        isSpace c = false ∧ toLower c = c ∧ collapse true false l = l := by
      intro hc h
      have hspaced : isSpace c = false ∧ toLower c = c ∧ Spaced true l := by
        rcases h with h | h
        · unfold Spaced at h
          rwa [if_neg hc] at h
        · unfold Spaced at h
          rwa [if_neg hc] at h
      exact ⟨hspaced.1, hspaced.2.1, hopen hspaced.2.2⟩
    refine ⟨fun h => ?_, fun h => ?_⟩
    · by_cases hc : c = space
      · unfold Spaced at h
        rw [if_pos hc] at h
        have hne : l ≠ [] := by
          rintro rfl
          exact hlast (congrArg some hc)
        unfold collapse
        rw [hc, if_pos (by decide)]
        exact (hclosed h.2).2 hne
      · obtain ⟨hsp, hlow, hrest⟩ := hword hc (.inl h)
        unfold collapse
        rw [hsp, hlow, hrest]
        rfl
    · have hc : c ≠ space := by
        intro hc
        unfold Spaced at h
        rw [if_pos hc] at h
        exact Bool.false_ne_true h.1
      obtain ⟨hsp, hlow, hrest⟩ := hword hc (.inr h)
      refine ⟨fun s => ?_, fun _ => ?_⟩
      · unfold collapse
        rw [hsp, hlow, hrest]
        rfl
      · unfold collapse
        rw [hsp, hlow, hrest]
        rfl

/-! ### A phrase of a phrase -/

/-- The cut leaves a space at the end where one stands there. -/
theorem last_kioskPhrase (l : Bytes) :
    (kioskPhrase l).getLast? = some space ↔ (phrase l)[62]? = some space := by
  rw [kioskPhrase_eq]
  by_cases hlen : 63 ≤ (phrase l).length
  · have hlast : ((phrase l).take 63).getLast? = (phrase l)[62]? := by
      rw [getLast?_eq_getElem?, length_take, min_eq_left hlen, getElem?_take_of_lt (by omega)]
    rw [hlast]
  · rw [take_of_length_le (by omega), getElem?_eq_none (by omega)]
    exact ⟨fun h => absurd h (last_collapse l false false), fun h => nomatch h⟩

/-- **Making a phrase of a phrase** changes nothing unless the cut left a space at its end. -/
theorem kioskPhrase_kioskPhrase (l : Bytes) :
    kioskPhrase (kioskPhrase l) = kioskPhrase l ↔ (phrase l)[62]? ≠ some space := by
  have hspaced : Spaced false (kioskPhrase l) := by
    rw [kioskPhrase_eq]
    exact (spaced_collapse l false false fun h => h).take 63
  have hlen : (kioskPhrase l).length ≤ 63 := by
    rw [kioskPhrase_eq, length_take]
    exact min_le_left _ _
  have hcut : (phrase l)[62]? ≠ some space ↔ (kioskPhrase l).getLast? ≠ some space :=
    (last_kioskPhrase l).not.symm
  rw [hcut]
  have htake : kioskPhrase (kioskPhrase l) = phrase (kioskPhrase l) := by
    rw [kioskPhrase_eq (kioskPhrase l)]
    refine take_of_length_le ?_
    have h := length_collapse_le (kioskPhrase l) false false
    simp only [Bool.false_eq_true, if_false, Nat.add_zero] at h
    exact h.trans hlen
  rw [htake]
  constructor
  · intro h hlast
    refine last_collapse (kioskPhrase l) false false ?_
    have hphrase : collapse false false (kioskPhrase l) = kioskPhrase l := h
    rw [hphrase]
    exact hlast
  · intro hlast
    exact ((collapse_spaced (kioskPhrase l) hlast).2 hspaced).1 false

/-- A phrase of a string is a string. -/
theorem nul_notMem_kioskPhrase {l : Bytes} (h : nul ∉ l) : nul ∉ kioskPhrase l := by
  have hcollapse : ∀ (l : Bytes) (started gap : Bool), nul ∉ l → nul ∉ collapse started gap l := by
    intro l
    induction l with
    | nil => exact fun _ _ h => h
    | cons c l ih =>
      intro started gap hl
      rw [mem_cons, not_or] at hl
      unfold collapse
      by_cases hc : isSpace c = true
      · rw [if_pos hc]
        exact ih started started hl.2
      · rw [if_neg hc, mem_append, not_or]
        have hlow := (toLower_spec (c := c) (Bool.not_eq_true _ ▸ hc)).2.2.2 fun h => hl.1 h.symm
        refine ⟨?_, ih true false hl.2⟩
        cases gap with
        | false =>
          intro hmem
          exact hlow (mem_singleton.mp hmem).symm
        | true =>
          intro hmem
          rcases mem_cons.mp hmem with hmem | hmem
          · exact absurd hmem (by decide)
          · exact hlow (mem_singleton.mp hmem).symm
  rw [kioskPhrase_eq]
  exact fun hmem => hcollapse l false false h (mem_of_mem_take hmem)

end Hassmic.Arb
