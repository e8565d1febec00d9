import Hassmic.Lib.Text

/-!
# The node name

An Echo's name is free text in UTF-8; its node name is what the network calls it,
made from the name as a host name.  Letters and digits are kept in lower case, the
letters of Latin-1 are spelled out, and everything else separates words, which one
dash joins.  The buffer holds 63 characters.

## Main definitions

* `nodeOf` — the node name of a name.
* `spelled` — the name spelled out, however long it gets.
* `IsNode` — what a host name looks like.

## Main results

* `nodeOf_eq` — a node name is the name spelled out, cut at 63 characters.
* `nodeOf_host_name` — **it is a host name, and its own node name, exactly when the
  cut does not fall behind a dash.**
-/

namespace Hassmic.Node

open Byte Text List

/-! ### Characters -/

/-- A byte of a UTF-8 character after its first. -/
def isContinuation (c : UInt8) : Bool := c &&& 0xc0 == 0x80

/-- The letters of `s`. -/
def letters (s : List Char) : Option Bytes := some (s.map Char.toUInt8)

/-- The letters U+00C0 to U+00DF, spelled out. -/
def latin1Table : List (Option Bytes) :=
  [letters ['a'], letters ['a'], letters ['a'], letters ['a'], letters ['a', 'e'], letters ['a'],
    letters ['a', 'e'], letters ['c'], letters ['e'], letters ['e'], letters ['e'], letters ['e'],
    letters ['i'], letters ['i'], letters ['i'], letters ['i'],
    letters ['d'], letters ['n'], letters ['o'], letters ['o'], letters ['o'], letters ['o'],
    letters ['o', 'e'], none, letters ['o'], letters ['u'], letters ['u'], letters ['u'],
    letters ['u', 'e'], letters ['y'], letters ['t', 'h'], letters ['s', 's']]

/-- The letter whose second byte after `0xc3` is `c`, of either case. -/
def latin1Ascii (c : UInt8) : Option Bytes :=
  if c = 0xbf then letters ['y']
  else if c = 0xb7 then none
  else if 0x80 ≤ c ∧ c ≤ 0xbf then latin1Table.getD ((c - 0x80) &&& 0x1f).toNat none
  else none

/-! ### The loop -/

/-- What the character at `c` adds, none if it separates words, and the text after it. -/
def next (c : UInt8) (l : Bytes) : Option Bytes × Bytes :=
  if alnum c then (some [lower c], l)
  else
    match l with
    | [] => (none, [])
    | d :: l' =>
      if c = 0xc3 ∧ d ≠ nul then (latin1Ascii d, l')
      -- other characters: their continuation bytes are skipped
      else (none, l.dropWhile isContinuation)

theorem length_next (c : UInt8) (l : Bytes) : (next c l).2.length ≤ l.length := by
  unfold next
  split
  · exact le_rfl
  · cases l with
    | nil => exact le_rfl
    | cons d l' =>
      dsimp only
      split
      · exact Nat.le_succ _
      · exact (dropWhile_sublist _).length_le

/-- What stands in the buffer, and whether a dash is due before the next letter. -/
structure Out where
  node : Bytes
  dash : Bool

/-- The buffer after what one character adds. -/
def Out.put (o : Out) : Option Bytes → Out
  | none => { o with dash := decide (0 < o.node.length) }
  | some add =>
    let n := if o.dash ∧ o.node.length < 63 then o.node ++ [minus] else o.node
    ⟨n ++ add.take (63 - n.length), false⟩

/-- The loop over the name, up to its end. -/
def loop (o : Out) : Bytes → Out
  | [] => o
  | c :: l => if c = nul then o else loop (o.put (next c l).1) (next c l).2
  termination_by l => l.length
  decreasing_by exact Nat.lt_succ_of_le (length_next c l)

/-- `node_of`. -/
def nodeOf (name : Bytes) : Bytes :=
  let n := (loop ⟨[], false⟩ name).node
  if n = [] then ['e', 'c', 'h', 'o'].map Char.toUInt8 else n

/-! ### The name spelled out -/

/-- What the characters of a name add, one after the other. -/
def symbols : Bytes → List (Option Bytes)
  | [] => []
  | c :: l => if c = nul then [] else (next c l).1 :: symbols (next c l).2
  termination_by l => l.length
  decreasing_by exact Nat.lt_succ_of_le (length_next c l)

/-- The words behind a first one, each with a dash before it; `d` if the word before
has ended. -/
def spellOn : Bool → List (Option Bytes) → Bytes
  | _, [] => []
  | _, none :: l => spellOn true l
  | d, some add :: l => (if d then [minus] else []) ++ add ++ spellOn false l

/-- Words joined by dashes, with none before the first. -/
def spell : List (Option Bytes) → Bytes
  | [] => []
  | none :: l => spell l
  | some add :: l => add ++ spellOn false l

/-- The name spelled out: its words joined by one dash each. -/
def spelled (name : Bytes) : Bytes := spell (symbols name)

theorem loop_eq (o : Out) (name : Bytes) : loop o name = (symbols name).foldl Out.put o := by
  fun_induction loop o name with
  | case1 o => simp [symbols]
  | case2 o l => simp [symbols]
  | case3 o c l h ih => rw [symbols, if_neg h, foldl_cons, ih]

/-! ### Host names -/

/-- A letter or a digit of a host name. -/
def isLetter (c : UInt8) : Bool := isDigit c || (0x61 ≤ c && c ≤ 0x7a)

/-- Two characters that are not both dashes. -/
def Apart (a b : UInt8) : Prop := ¬(a = minus ∧ b = minus)

/-- A host name: 1 to 63 letters, digits and single dashes, with no dash at either end. -/
structure IsNode (n : Bytes) : Prop where
  pos : 1 ≤ n.length
  length_le : n.length ≤ 63
  chars : ∀ c ∈ n, isLetter c ∨ c = minus
  single : n.IsChain Apart
  head : n.head? ≠ some minus
  last : n.getLast? ≠ some minus

/-! ### What a character adds -/

theorem isLetter_latin1Table : ∀ e ∈ latin1Table, ∀ a ∈ e, a ≠ [] ∧ ∀ x ∈ a, isLetter x := by
  decide +kernel

variable {a l n : Bytes} {c : UInt8}

theorem isLetter_latin1Ascii {d : UInt8} (h : latin1Ascii d = some a) :
    a ≠ [] ∧ ∀ x ∈ a, isLetter x := by
  unfold latin1Ascii at h
  split at h
  · cases h
    decide +kernel
  · split at h
    · cases h
    · split at h
      · refine isLetter_latin1Table (some a) ?_ a rfl
        rw [← h]
        -- the index is below 32, the table's length
        have hlt : ((d - 0x80) &&& 0x1f).toNat < latin1Table.length := by
          rw [UInt8.toNat_and]
          exact Nat.lt_of_le_of_lt Nat.and_le_right (by decide)
        rw [getD_eq_getElem _ _ hlt]
        exact getElem_mem hlt
      · cases h

theorem isLetter_toLower (h : alnum c) : isLetter (lower c) := by
  simp only [alnum, isDigit, Bool.or_eq_true, Bool.and_eq_true, decide_eq_true_eq,
    UInt8.le_iff_toNat_le] at h
  unfold lower isLetter isDigit
  split
  · next hc =>
    simp only [UInt8.le_iff_toNat_le] at hc
    simp only [Bool.or_eq_true, Bool.and_eq_true, decide_eq_true_eq, UInt8.le_iff_toNat_le,
      UInt8.toNat_add]
    right
    simp only [UInt8.reduceToNat] at hc ⊢
    omega
  · next hc =>
    simp only [UInt8.le_iff_toNat_le, UInt8.reduceToNat] at hc h
    simp only [Bool.or_eq_true, Bool.and_eq_true, decide_eq_true_eq, UInt8.le_iff_toNat_le,
      UInt8.reduceToNat]
    omega

theorem isLetter_next (h : (next c l).1 = some a) :
    a ≠ [] ∧ ∀ x ∈ a, isLetter x := by
  unfold next at h
  split at h
  · next hc =>
    cases h
    exact ⟨cons_ne_nil _ _, fun x hx => mem_singleton.mp hx ▸ isLetter_toLower hc⟩
  · cases l with
    | nil => cases h
    | cons d l' =>
      dsimp only at h
      split at h
      · exact isLetter_latin1Ascii h
      · cases h

/-- The symbols of a name are words of host names. -/
theorem isLetter_symbols (name : Bytes) : ∀ a, some a ∈ symbols name →
    a ≠ [] ∧ ∀ x ∈ a, isLetter x := by
  fun_induction symbols name with
  | case1 => intro a ha; cases ha
  | case2 l => intro a ha; cases ha
  | case3 c l h ih =>
    intro a ha
    rcases mem_cons.mp ha with hc | hl
    · exact isLetter_next hc.symm
    · exact ih a hl

theorem minus_not_letter : ¬isLetter minus := by decide

/-! ### The buffer holds the start of the name spelled out -/

@[simp] theorem put_none (o : Out) : o.put none = ⟨o.node, decide (0 < o.node.length)⟩ := rfl

/-- The letters of a word are written behind the dash that is due, as far as they fit. -/
theorem put_some {o : Out} (hlen : o.node.length ≤ 63) (a : Bytes) :
    o.put (some a) = ⟨(o.node ++ (if o.dash then [minus] else []) ++ a).take 63, false⟩ := by
  unfold Out.put
  dsimp only
  congr 1
  by_cases hd : o.dash
  · by_cases hfull : o.node.length < 63
    · have hfit : (o.node ++ [minus]).length ≤ 63 := by
        rw [length_append, length_singleton]
        exact hfull
      rw [if_pos ⟨hd, hfull⟩, if_pos hd, take_append, take_of_length_le hfit]
    · -- a full buffer takes neither the dash nor a letter
      have hlen' : o.node.length = 63 := by omega
      rw [if_neg (fun h => hfull h.2), if_pos hd, append_assoc, take_append,
        take_of_length_le hlen, hlen']
      simp
  · rw [if_neg (fun h => hd h.1), if_neg hd, append_nil, take_append,
      take_of_length_le hlen]

/-- What does not fit may be cut before more is written behind it. -/
theorem take_cut (n : ℕ) (a b : Bytes) : (a.take n ++ b).take n = (a ++ b).take n := by
  rw [take_append, take_append, take_take, Nat.min_self, length_take]
  congr 2
  omega

theorem foldl_put (l : List (Option Bytes)) :
    ∀ o : Out, o.node ≠ [] → o.node.length ≤ 63 →
      (l.foldl Out.put o).node = (o.node ++ spellOn o.dash l).take 63 := by
  induction l with
  | nil =>
    intro o _ hlen
    simp [spellOn, take_of_length_le hlen]
  | cons e l ih =>
    intro o hne hlen
    have hpos : 0 < o.node.length := length_pos_iff.mpr hne
    rw [foldl_cons]
    cases e with
    | none =>
      rw [put_none, decide_eq_true hpos, ih ⟨o.node, true⟩ hne hlen, spellOn]
    | some a =>
      rw [put_some hlen, ih _ _ (length_take_le _ _), take_cut, spellOn]
      · simp only [append_assoc]
      · simp [hne]

/-- A name's first letters start the buffer; what separates words before them is dropped. -/
theorem foldl_put_start (l : List (Option Bytes)) :
    (∀ a, some a ∈ l → a ≠ []) → (l.foldl Out.put ⟨[], false⟩).node = (spell l).take 63 := by
  induction l with
  | nil => intro _; rfl
  | cons e l ih =>
    intro hne
    cases e with
    | none =>
      rw [foldl_cons, put_none, spell]
      exact ih fun a ha => hne a (mem_cons_of_mem _ ha)
    | some a =>
      have ha : a ≠ [] := hne a mem_cons_self
      rw [foldl_cons, put_some (Nat.zero_le _), foldl_put _ _ _ (length_take_le _ _),
        take_cut, spell]
      · rfl
      · simp [ha]

/-- **A node name is the name spelled out, cut at 63 characters.** -/
theorem nodeOf_eq (name : Bytes) :
    nodeOf name = if spelled name = [] then ['e', 'c', 'h', 'o'].map Char.toUInt8
      else (spelled name).take 63 := by
  unfold nodeOf
  dsimp only
  rw [loop_eq, foldl_put_start _ fun a ha => (isLetter_symbols name a ha).1]
  simp [spelled]

/-! ### The name spelled out is a host name of any length -/

theorem isLetter_ne_minus (h : isLetter c) : c ≠ minus :=
  fun hc => minus_not_letter (hc ▸ h)

theorem isChain_letters (h : ∀ x ∈ a, isLetter x) : a.IsChain Apart := by
  induction a with
  | nil => exact .nil
  | cons x a ih =>
    cases a with
    | nil => exact .singleton x
    | cons y a =>
      refine .cons_cons ?_ (ih fun z hz => h z (mem_cons_of_mem _ hz))
      exact fun hxy => isLetter_ne_minus (h x mem_cons_self) hxy.1

/-- Text that a host name may go on with: no letter before it, or one. -/
structure Goes (l : Bytes) : Prop where
  chars : ∀ c ∈ l, isLetter c ∨ c = minus
  single : l.IsChain Apart
  last : l.getLast? ≠ some minus

/-- Letters before such text. -/
theorem Goes.letters (hlet : ∀ x ∈ a, isLetter x) (hl : Goes l) :
    Goes (a ++ l) where
  chars := by
    intro c hc
    rcases mem_append.mp hc with h | h
    · exact .inl (hlet c h)
    · exact hl.chars c h
  single := by
    rw [isChain_append]
    refine ⟨isChain_letters hlet, hl.single, ?_⟩
    intro x hx y _ hxy
    exact isLetter_ne_minus (hlet x (mem_of_getLast? hx)) hxy.1
  last := by
    cases hlast : l.getLast? with
    | none =>
      rw [getLast?_eq_none_iff.mp hlast, append_nil]
      intro h
      exact isLetter_ne_minus (hlet minus (mem_of_getLast? h)) rfl
    | some y =>
      rw [getLast?_append, hlast]
      simpa [hlast] using hl.last

/-- A dash before letters. -/
theorem Goes.dash (ha : a ≠ []) (hlet : ∀ x ∈ a, isLetter x) (hl : Goes (a ++ l)) :
    Goes (minus :: (a ++ l)) where
  chars := by
    intro c hc
    rcases mem_cons.mp hc with h | h
    · exact .inr h
    · exact hl.chars c h
  single := by
    cases a with
    | nil => exact absurd rfl ha
    | cons x a =>
      refine .cons_cons ?_ hl.single
      exact fun h => isLetter_ne_minus (hlet x mem_cons_self) h.2
  last := by
    cases a with
    | nil => exact absurd rfl ha
    | cons x a => simpa using hl.last

theorem goes_spellOn (l : List (Option Bytes)) :
    (∀ a, some a ∈ l → a ≠ [] ∧ ∀ x ∈ a, isLetter x) → ∀ d, Goes (spellOn d l) := by
  induction l with
  | nil => intro _ d; exact ⟨by simp [spellOn], by simp [spellOn], by simp [spellOn]⟩
  | cons e l ih =>
    intro h d
    have hl : ∀ d, Goes (spellOn d l) := ih fun a ha => h a (mem_cons_of_mem _ ha)
    cases e with
    | none => exact hl true
    | some a =>
      obtain ⟨hne, hlet⟩ := h a mem_cons_self
      have ha : Goes (a ++ spellOn false l) := .letters hlet (hl false)
      cases d with
      | false => simpa [spellOn] using ha
      | true => simpa [spellOn] using Goes.dash hne hlet ha

/-- The name spelled out starts with a letter, if there is one, and goes on like a host name. -/
theorem goes_spell (l : List (Option Bytes)) :
    (∀ a, some a ∈ l → a ≠ [] ∧ ∀ x ∈ a, isLetter x) →
    Goes (spell l) ∧ (spell l).head? ≠ some minus := by
  induction l with
  | nil => intro _; exact ⟨⟨by simp [spell], by simp [spell], by simp [spell]⟩, by simp [spell]⟩
  | cons e l ih =>
    intro h
    have hl : ∀ a, some a ∈ l → a ≠ [] ∧ ∀ x ∈ a, isLetter x :=
      fun a ha => h a (mem_cons_of_mem _ ha)
    cases e with
    | none => exact ih hl
    | some a =>
      obtain ⟨hne, hlet⟩ := h a mem_cons_self
      refine ⟨.letters hlet (goes_spellOn l hl false), ?_⟩
      cases a with
      | nil => exact absurd rfl hne
      | cons x a =>
        intro hx
        exact isLetter_ne_minus (hlet x mem_cons_self) (Option.some.inj hx)

/-- **Cut at 63 characters it is a host name unless the last one left is a dash.** -/
theorem isNode_take_iff (hne : l ≠ []) (hl : Goes l) (hhead : l.head? ≠ some minus) :
    IsNode (l.take 63) ↔ l[62]? ≠ some minus := by
  have hpos : 0 < l.length := length_pos_iff.mpr hne
  have hlast : (l.take 63).getLast? = some minus ↔ l[62]? = some minus := by
    rw [getLast?_eq_getElem?, length_take]
    by_cases hlen : 63 ≤ l.length
    · rw [Nat.min_eq_left hlen, getElem?_take_of_lt (by decide)]
    · -- a shorter one is not cut, and does not end in a dash
      have hshort : l.length ≤ 63 := by omega
      rw [Nat.min_eq_right hshort, take_of_length_le hshort, ← getLast?_eq_getElem?]
      have hnone : l[62]? = none := getElem?_eq_none (by omega)
      rw [hnone]
      exact ⟨fun h => absurd h hl.last, fun h => by cases h⟩
  constructor
  · intro h h62
    exact h.last (hlast.mpr h62)
  · intro h62
    refine ⟨?_, length_take_le _ _, ?_, ?_, ?_, fun h => h62 (hlast.mp h)⟩
    · rw [length_take]
      omega
    · exact fun c hc => hl.chars c (mem_of_mem_take hc)
    · exact hl.single.take 63
    · rw [head?_take]
      exact hhead

/-! ### A host name is its own node name -/

/-- What a host name's characters are read as. -/
def plain (n : Bytes) : List (Option Bytes) := n.map fun c => if c = minus then none else some [c]

theorem toLower_letter (h : isLetter c) : alnum c = true ∧ lower c = c := by
  simp only [isLetter, isDigit, Bool.or_eq_true, Bool.and_eq_true, decide_eq_true_eq,
    UInt8.le_iff_toNat_le, UInt8.reduceToNat] at h
  constructor
  · simp only [alnum, isDigit, Bool.or_eq_true, Bool.and_eq_true, decide_eq_true_eq,
      UInt8.le_iff_toNat_le, UInt8.reduceToNat]
    omega
  · refine if_neg fun hc => ?_
    simp only [UInt8.le_iff_toNat_le, UInt8.reduceToNat] at hc
    omega

theorem not_continuation (h : isLetter c ∨ c = minus) : isContinuation c = false := by
  have hlt : c.toNat < 128 := by
    rcases h with h | h
    · simp only [isLetter, isDigit, Bool.or_eq_true, Bool.and_eq_true, decide_eq_true_eq,
        UInt8.le_iff_toNat_le, UInt8.reduceToNat] at h
      omega
    · rw [h]
      decide
  -- the top bit of a continuation byte is set
  have hbit : c.toNat.testBit 7 = false := Nat.testBit_lt_two_pow hlt
  unfold isContinuation
  rw [beq_eq_false_iff_ne]
  intro hc
  have h80 := congrArg (fun x : UInt8 => x.toNat.testBit 7) hc
  simp only [UInt8.toNat_and, Nat.testBit_and, hbit, Bool.false_and] at h80
  exact absurd h80 (by decide)

theorem next_plain (hc : isLetter c ∨ c = minus)
    (hl : ∀ d ∈ l, isLetter d ∨ d = minus) :
    next c l = (if c = minus then none else some [c], l) := by
  unfold next
  rcases hc with hc | hc
  · rw [if_pos (toLower_letter hc).1, if_neg (isLetter_ne_minus hc), (toLower_letter hc).2]
  · subst hc
    rw [if_neg (by decide), if_pos rfl]
    cases l with
    | nil => rfl
    | cons d l =>
      have hd := not_continuation (hl d mem_cons_self)
      dsimp only
      rw [if_neg (fun h => absurd h.1 (by decide)), dropWhile_cons, if_neg (by simp [hd])]

theorem symbols_plain : (∀ c ∈ n, isLetter c ∨ c = minus) → symbols n = plain n := by
  induction n with
  | nil => intro _; simp [symbols, plain]
  | cons c l ih =>
    intro h
    have hnul : c ≠ nul := by
      rcases h c mem_cons_self with hc | hc
      · rintro rfl
        exact absurd hc (by decide)
      · rw [hc]
        decide
    have hl : ∀ d ∈ l, isLetter d ∨ d = minus := fun d hd => h d (mem_cons_of_mem _ hd)
    rw [symbols, if_neg hnul, next_plain (h c mem_cons_self) hl, ih hl]
    rfl

theorem Goes.tail (h : Goes (c :: l)) : Goes l where
  chars := fun d hd => h.chars d (mem_cons_of_mem _ hd)
  single := h.single.tail
  last := by
    cases l with
    | nil => simp
    | cons d l => simpa using h.last

theorem spellOn_plain (l : Bytes) : Goes l →
    spellOn false (plain l) = l ∧
      (l ≠ [] → l.head? ≠ some minus → spellOn true (plain l) = minus :: l) := by
  induction l with
  | nil => intro _; exact ⟨rfl, fun h => absurd rfl h⟩
  | cons c l ih =>
    intro h
    obtain ⟨hfalse, htrue⟩ := ih h.tail
    by_cases hc : c = minus
    · subst hc
      refine ⟨?_, fun _ hhead => absurd rfl hhead⟩
      -- a dash is neither the last character nor followed by another
      have hne : l ≠ [] := by
        rintro rfl
        exact h.last rfl
      have hhead : l.head? ≠ some minus := by
        cases l with
        | nil => exact absurd rfl hne
        | cons d l =>
          intro hd
          exact (isChain_cons_cons.mp h.single).1 ⟨rfl, Option.some.inj hd⟩
      exact htrue hne hhead
    · have hplain : plain (c :: l) = some [c] :: plain l := by simp [plain, hc]
      rw [hplain]
      exact ⟨by simp [spellOn, hfalse], fun _ _ => by simp [spellOn, hfalse]⟩

theorem spell_plain (hn : Goes n) (hhead : n.head? ≠ some minus) : spell (plain n) = n := by
  cases n with
  | nil => rfl
  | cons c l =>
    have hc : c ≠ minus := fun h => hhead (by rw [h]; rfl)
    have hplain : plain (c :: l) = some [c] :: plain l := by simp [plain, hc]
    rw [hplain, spell, (spellOn_plain l hn.tail).1]
    rfl

theorem IsNode.goes (h : IsNode n) : Goes n := ⟨h.chars, h.single, h.last⟩

/-- **The node name of a host name is that host name.** -/
theorem nodeOf_node (h : IsNode n) : nodeOf n = n := by
  have hne : n ≠ [] := length_pos_iff.mp h.pos
  rw [nodeOf_eq, spelled, symbols_plain h.chars, spell_plain h.goes h.head, if_neg hne,
    take_of_length_le h.length_le]

theorem isNode_echo : IsNode (['e', 'c', 'h', 'o'].map Char.toUInt8) where
  pos := by decide
  length_le := by decide
  chars := by decide +kernel
  single := isChain_letters (by decide +kernel)
  head := by decide
  last := by decide

/-- **A node name is a host name and its own node name exactly when the 63rd character
of the name spelled out is no dash between two words.** -/
theorem nodeOf_host_name (name : Bytes) :
    (IsNode (nodeOf name) ∧ nodeOf (nodeOf name) = nodeOf name) ↔
    (spelled name)[62]? ≠ some minus := by
  rw [and_iff_left_of_imp fun h => nodeOf_node h, nodeOf_eq]
  obtain ⟨hgoes, hhead⟩ := goes_spell (symbols name) (isLetter_symbols name)
  by_cases hne : spelled name = []
  · rw [if_pos hne, hne]
    exact iff_of_true isNode_echo (by simp)
  · rw [if_neg hne]
    exact isNode_take_iff hne hgoes hhead

/-- A word of 62 letters before another one leaves its dash at the end. -/
theorem nodeOf_trailing_dash :
    ¬∀ name : Bytes, IsNode (nodeOf name) ∧ nodeOf (nodeOf name) = nodeOf name := by
  intro h
  exact (h (List.replicate 62 0x61 ++ [space, 0x62])).1.last (by decide +kernel)

end Hassmic.Node
