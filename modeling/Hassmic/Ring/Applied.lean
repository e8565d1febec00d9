import Hassmic.Ring.Design

/-!
# The designs that are applied

The designs that the ring's animations are assigned go into one file, each behind a line with its
slot and its id.  Root reads the designs out of it; the settings page reads only the ids, to show
which designs are on the ring.

## Main definitions

* `slots` — the ids of `ring_slots`.
* `draftApplied` — `draft_applied`.
* `rdAppliedParse`, `slotIds` — `rd_applied_parse` and `slot_ids`.

## Main results

* `appliedLoop_block`, `slotIdsLoop_block` — what is written for a slot is read for it.
* `draftFrom_read` — what is written for all slots is read for them.
* `ring_round_trip` — **designs are read as they were written, alone and in the file that is
  applied**.
-/

namespace Hassmic.Ring

open Byte List Option Function

/-- The ids of `ring_slots`. -/
def slots : List Bytes :=
  [text "listen", text "end", text "think", text "talk", text "error", text "timer",
    text "timer_short", text "volume", text "assist_volume", text "mute", text "unmute", text "dnd",
    text "identify", text "bt_pairing", text "call_out", text "call_in", text "call_live",
    text "call_end", text "setup", text "reset", text "login"]

/-- `slot_index`. -/
def slotIndex (id : Bytes) : Option ℕ := slots.findIdx? (· = id)

/-- `APPLIED_HEAD`. -/
def appliedHead : Bytes := text "hassmic ring applied 1\n"

/-! ### Writing -/

/-- The file of a design. -/
inductive File
  | gone
  | unreadable
  | holds (t : Bytes)

/-- The line of a slot. -/
def slotLine (slot : Bytes) (id : ℕ) : Bytes := text "slot " ++ slot ++ space :: Text.decimal id

/-- What `draft_applied` writes for one slot. -/
def draftSlot (library : ℕ → File) (slot : Bytes) (id : ℕ) : Except Bytes Bytes :=
  if id = 0 then .ok []
  else
    match library id with
    | .gone =>
      .error (slot ++ text ": design " ++ Text.decimal id ++ text " cannot be read (it is gone)")
    | .unreadable =>
      .error (slot ++ text ": design " ++ Text.decimal id ++
        text " cannot be read (too long or unreadable)")
    | .holds t =>
        match rdParse t with
        | .error why =>
          .error (slot ++ text ": design " ++ Text.decimal id ++ text " is broken: " ++ why)
        | .ok d => .ok (slotLine slot id ++ [lf] ++ rdFormat d ++ text "end\n")

/-- The loop over the slots, from the one with index `i` on. -/
def draftFrom (library : ℕ → File) (assign : ℕ → ℕ) : ℕ → List Bytes → Except Bytes Bytes
  | _, [] => .ok []
  | i, slot :: rest =>
      match draftSlot library slot (assign i) with
      | .ok b => (draftFrom library assign (i + 1) rest).map (b ++ ·)
      | .error e => .error e

/-- **`draft_applied`**, with the text of its error. -/
def draftApplied (library : ℕ → File) (assign : ℕ → ℕ) : Except Bytes Bytes :=
  (draftFrom library assign 0 slots).map (appliedHead ++ ·)

/-! ### Reading -/

/-- The designs and ids that were read for the slots. -/
structure Applied where
  out : ℕ → Option Design := fun _ => none
  ids : ℕ → ℤ := fun _ => 0

/-- `sscanf` of `slot %31s %d`. -/
def scanSlot (l : Bytes) : Option (Bytes × ℤ) :=
  (Text.literal (text "slot") l).bind fun v =>
    let v := v.dropWhile Text.isSpace
    let id := (v.takeWhile fun c => !Text.isSpace c).take 31
    if id = [] then none else (Text.signed (v.drop id.length)).map fun r => (id, r.1)

/-- The lines up to the line `end`, and those behind it. -/
def untilEnd : List Bytes → Option (List Bytes × List Bytes)
  | [] => none
  | l :: ls => if l = text "end" then some ([], ls) else (untilEnd ls).map fun r => (l :: r.1, r.2)

theorem untilEnd_length {ls : List Bytes} {r : List Bytes × List Bytes} (h : untilEnd ls = some r) :
    r.2.length < ls.length := by
  induction ls generalizing r with
  | nil => cases h
  | cons l ls ih =>
    unfold untilEnd at h
    split at h
    · rw [← some.inj h]
      exact Nat.lt_succ_self _
    · obtain ⟨s, hs, rfl⟩ := map_eq_some_iff.mp h
      exact (ih hs).trans (Nat.lt_succ_self _)

/-- A design for a slot: left alone for a slot that is not known or has one. -/
def Applied.place (a : Applied) (slot : Bytes) (id : ℤ) (body : List Bytes) : Applied :=
  match slotIndex slot with
  | none => a
  | some i =>
      if a.out i ≠ none then a
      else
        match rdParse (body.flatMap (· ++ [lf])) with
        | .ok d => { out := update a.out i (some d), ids := update a.ids i id }
        | .error _ => a

/-- The loop over the lines behind the head; none if the file is not ours. -/
def appliedLoop (a : Applied) : List Bytes → Option Applied
  | [] => some a
  | l :: ls =>
      if l = [] then appliedLoop a ls
      else if 40 ≤ l.length ∨ l.length < 6 ∨ ¬ text "slot " <+: l then none
      else
        match scanSlot (l.takeWhile (· ≠ nul)) with
        | none => none
        | some (slot, id) =>
            match _ : untilEnd ls with
            | none => none
            | some (body, rest) => appliedLoop (a.place slot id body) rest
termination_by ls => ls.length
decreasing_by
  · exact Nat.lt_succ_self _
  · next h => exact (untilEnd_length h).trans (Nat.lt_succ_self _)

/-- **`rd_applied_parse`.** -/
def rdAppliedParse (t : Bytes) : Option Applied :=
  (Text.literal appliedHead t).bind fun v => appliedLoop {} (Text.pieces lf [] v)

/-- The id of a line that starts here. -/
def noteId (ids : ℕ → ℤ) (l : Bytes) : ℕ → ℤ :=
  if text "slot " <+: l then
    match scanSlot l with
    | some (slot, id) => (slotIndex slot).elim ids fun i => update ids i id
    | none => ids
  else ids

/-- The loop over the text; `start` where a line starts. -/
def slotIdsLoop : Bool → (ℕ → ℤ) → Bytes → ℕ → ℤ
  | _, ids, [] => ids
  | start, ids, c :: l => slotIdsLoop (c = lf) (if start then noteId ids (c :: l) else ids) l

/-- **`slot_ids`**, of what stands before a NUL. -/
def slotIds (t : Bytes) : ℕ → ℤ := slotIdsLoop true (fun _ => 0) (t.takeWhile (· ≠ nul))

/-! ### A slot's line -/

/-- The slots' ids: short words, and each at its own index. -/
theorem slots_facts : (∀ s ∈ slots, s ≠ [] ∧ s.length ≤ 13 ∧ s.all (fun c => 0x5f ≤ c) = true) ∧
    ∀ i < slots.length, slotIndex (slots.getD i []) = some i := by
  decide +kernel

theorem slot_text : text "slot " = text "slot" ++ [space] := by
  rw [words.2.2.2.2.1, words.2.2.2.2.2.1]
  rfl

/-- A character of a word is no white space. -/
theorem isSpace_word {c : UInt8} (h : 0x5f ≤ c) : Text.isSpace c = false := by
  have hle := UInt8.le_iff_toNat_le.mp h
  have h95 : 95 ≤ c.toNat := hle
  unfold Text.isSpace
  rw [Bool.or_eq_false_iff, Bool.and_eq_false_iff]
  refine ⟨beq_false_of_ne ?_, Or.inr (decide_eq_false fun hhi => ?_)⟩
  · rintro rfl
    exact absurd h (by decide)
  · have hlt : c.toNat ≤ 13 := UInt8.le_iff_toNat_le.mp hhi
    omega

/-- **A slot's line is scanned as it was written**, whatever follows its number. -/
theorem scanSlot_slotLine {s : Bytes} (hs : s ∈ slots) {id : ℕ} (hid : id ≤ 0x7fffffff) {r : Bytes}
    (hr : Text.Ends 10 r) : scanSlot (slotLine s id ++ r) = some (s, (id : ℤ)) := by
  obtain ⟨hne, hlen, hall⟩ := slots_facts.1 s hs
  have hword : ∀ c ∈ s, Text.isSpace c = false :=
    fun c hc => isSpace_word (by simpa using all_eq_true.mp hall c hc)
  obtain ⟨c, s', rfl⟩ : ∃ c s', s = c :: s' := exists_cons_of_ne_nil hne
  have htext : slotLine (c :: s') id ++ r = text "slot" ++ space ::
      (c :: s' ++ space :: (Text.decimal id ++ r)) := by
    unfold slotLine
    rw [slot_text]
    simp
  have hskip : (space :: (c :: s' ++ space :: (Text.decimal id ++ r))).dropWhile Text.isSpace =
      c :: s' ++ space :: (Text.decimal id ++ r) := by
    rw [dropWhile_cons, if_pos (by decide), cons_append,
      dropWhile_cons_of_neg (by rw [hword c mem_cons_self]; exact Bool.false_ne_true)]
  have htake : (c :: s' ++ space :: (Text.decimal id ++ r)).takeWhile
      (fun c => !Text.isSpace c) = c :: s' := by
    rw [takeWhile_append_of_pos (fun d hd => by rw [hword d hd]; rfl),
      takeWhile_cons_of_neg (by decide), append_nil]
  have hshort : (c :: s').take 31 = c :: s' := take_of_length_le (hlen.trans (by norm_num))
  have hread : Text.signed (space :: (Text.decimal id ++ r)) = some ((id : ℤ), r) := by
    rw [Text.signed_space, Text.signed_decimal (by omega) (by omega) hr]
  unfold scanSlot
  rw [htext, Text.literal_append, bind_some]
  dsimp only
  rw [hskip, htake, hshort, if_neg (cons_ne_nil c s'), drop_left, hread]
  rfl

/-- A slot's line is neither empty nor too long, and no character in it ends it. -/
theorem slotLine_facts {s : Bytes} (hs : s ∈ slots) {id : ℕ} (hid : id ≤ 0x7fffffff) :
    6 ≤ (slotLine s id).length ∧ (slotLine s id).length < 40 ∧ text "slot " <+: slotLine s id ∧
      ∀ c ∈ slotLine s id, 0x20 ≤ c := by
  obtain ⟨hne, hlen, hall⟩ := slots_facts.1 s hs
  have hdigits := @length_decimal_le id 10 (by norm_num) (by omega)
  have hslot : (text "slot ").length = 5 := by
    rw [words.2.2.2.2.1]
    rfl
  have hpos := length_pos_iff.mpr hne
  have hlength : (slotLine s id).length = 5 + s.length + ((Text.decimal id).length + 1) := by
    unfold slotLine
    rw [length_append, length_append, length_cons, hslot]
  refine ⟨by omega, by omega, ?_, ?_⟩
  · unfold slotLine
    rw [append_assoc]
    exact prefix_append _ _
  · intro c hc
    unfold slotLine at hc
    rcases mem_append.mp hc with hc | hc
    · rcases mem_append.mp hc with hc | hc
      · exact (words_shown (text "slot ") (by simp) c hc).1
      · have hle : (0x5f : UInt8) ≤ c := by simpa using all_eq_true.mp hall c hc
        exact UInt8.le_trans (by decide) hle
    · rcases mem_cons.mp hc with rfl | hc
      · decide
      · exact shown_digits c hc

/-! ### A block -/

/-- No line of a design is `end`, nor starts as a slot's line does. -/
theorem formatLines_plain (d : Design) :
    ∀ l ∈ formatLines d, l ≠ text "end" ∧ ¬ text "slot " <+: l := by
  have hheads : (text "end").head? = some 0x65 ∧ (text "slot ").head? = some 0x73 ∧
      (text "name ").head? = some 0x6e ∧
      (text "leds ").head? = some 0x6c ∧ (text "loop ").head? = some 0x6c := by
    obtain ⟨hname, hleds, hloop, -, hslot, -, hend, -⟩ := words
    rw [hname, hleds, hloop, hslot, hend]
    exact ⟨rfl, rfl, rfl, rfl, rfl⟩
  -- the first character tells
  have hfirst : ∀ {l : Bytes} {c : UInt8}, l.head? = some c → c ≠ 0x65 → c ≠ 0x73 →
      l ≠ text "end" ∧ ¬ text "slot " <+: l := by
    intro l c hl he hs
    refine ⟨?_, ?_⟩
    · rintro rfl
      rw [hheads.1] at hl
      exact he (some.inj hl).symm
    · rintro ⟨r, rfl⟩
      rw [head?_append, hheads.2.1] at hl
      exact hs (some.inj hl).symm
  have happ : ∀ {w l : Bytes} {c : UInt8}, w.head? = some c → (w ++ l).head? = some c := by
    intro w l c hw
    rw [head?_append, hw]
    rfl
  intro l hl
  rcases mem_cons.mp hl with rfl | hl
  · exact hfirst (happ hheads.2.2.1) (by decide) (by decide)
  · rcases mem_cons.mp hl with rfl | hl
    · exact hfirst (happ hheads.2.2.2.1) (by decide) (by decide)
    · rcases mem_cons.mp hl with rfl | hl
      · exact hfirst (happ hheads.2.2.2.2) (by decide) (by decide)
      · obtain ⟨f, -, rfl⟩ := mem_map.mp hl
        obtain ⟨c, ds, hcons⟩ := exists_cons_of_ne_nil (decimal_ne_nil f.ms)
        have hc := decimal_digits c (hcons ▸ mem_cons_self)
        have hhead : (frameText f).head? = some c := by
          unfold frameText
          rw [hcons]
          rfl
        refine hfirst hhead ?_ ?_ <;> rintro rfl <;> exact absurd hc (by decide)

theorem untilEnd_append {body : List Bytes} (h : ∀ l ∈ body, l ≠ text "end") (ls : List Bytes) :
    untilEnd (body ++ text "end" :: ls) = some (body, ls) := by
  induction body with
  | nil => exact if_pos rfl
  | cons l body ih =>
    rw [cons_append, untilEnd, if_neg (h l mem_cons_self),
      ih fun m hm => h m (mem_cons_of_mem l hm)]
    rfl

/-- The lines of a slot's block. -/
def blockLines (slot : Bytes) (id : ℕ) (d : Design) : List Bytes :=
  slotLine slot id :: (formatLines d ++ [text "end"])

/-- What is applied with a design in a slot. -/
def Applied.set (a : Applied) (i : ℕ) (d : Design) (id : ℤ) : Applied :=
  { out := update a.out i (some d), ids := update a.ids i id }

/-- **A block is read as it was written**, into the slot it was written for. -/
theorem appliedLoop_block {a : Applied} {i : ℕ} (hi : i < slots.length)
    (hfree : a.out i = none) {id : ℕ} (hid : id ≤ 0x7fffffff) {d : Design} (hd : d.Valid)
    (ls : List Bytes) :
    appliedLoop a (blockLines (slots.getD i []) id d ++ ls) = appliedLoop (a.set i d id) ls := by
  have hmem : slots.getD i [] ∈ slots := by
    rw [getD_eq_getElem _ _ hi]
    exact getElem_mem hi
  obtain ⟨hlo, hhi, hprefix, hshown⟩ := slotLine_facts hmem hid
  have hne : slotLine (slots.getD i []) id ≠ [] := by
    intro hnil
    rw [hnil, length_nil] at hlo
    omega
  have hnul : (slotLine (slots.getD i []) id).takeWhile (· ≠ nul) =
      slotLine (slots.getD i []) id := by
    refine takeWhile_eq_self_iff.mpr fun c hc => decide_eq_true ?_
    rintro rfl
    exact absurd (hshown nul hc) (by decide)
  have hends : Text.Ends 10 [] := fun c hc => by cases hc
  have hscan := scanSlot_slotLine hmem hid hends
  rw [append_nil] at hscan
  have huntil := untilEnd_append (fun l hl => (formatLines_plain d l hl).1) ls
  have hplace : a.place (slots.getD i []) id (formatLines d) = a.set i d id := by
    unfold Applied.place
    rw [slots_facts.2 i hi]
    dsimp only
    rw [if_neg (not_not.mpr hfree),
      show rdParse ((formatLines d).flatMap (· ++ [lf])) = .ok d from rdParse_rdFormat hd]
    rfl
  have hlines : blockLines (slots.getD i []) id d ++ ls =
      slotLine (slots.getD i []) id :: (formatLines d ++ text "end" :: ls) := by
    simp [blockLines]
  rw [hlines, appliedLoop, if_neg hne,
    if_neg (not_or.mpr ⟨by omega, not_or.mpr ⟨by omega, not_not.mpr hprefix⟩⟩), hnul, hscan]
  dsimp only
  split
  · next hnone =>
    rw [huntil] at hnone
    cases hnone
  · next body rest hsome =>
    rw [huntil] at hsome
    obtain ⟨rfl, rfl⟩ := Prod.mk.inj (some.inj hsome)
    rw [hplace]

/-! ### The ids -/

theorem slotIdsLoop_inside {l : Bytes} (hl : lf ∉ l) (ids : ℕ → ℤ) (r : Bytes) :
    slotIdsLoop false ids (l ++ lf :: r) = slotIdsLoop true ids r := by
  induction l with
  | nil =>
    show slotIdsLoop false ids (lf :: r) = _
    rw [slotIdsLoop, if_neg Bool.false_ne_true]
    rfl
  | cons c l ih =>
    rw [mem_cons, not_or] at hl
    have hc : decide (c = lf) = false := decide_eq_false (Ne.symm hl.1)
    rw [cons_append, slotIdsLoop, if_neg Bool.false_ne_true, hc, ih hl.2]

/-- A line is looked at once, where it starts. -/
theorem slotIdsLoop_line {l : Bytes} (hl : lf ∉ l) (ids : ℕ → ℤ) (r : Bytes) :
    slotIdsLoop true ids (l ++ lf :: r) = slotIdsLoop true (noteId ids (l ++ lf :: r)) r := by
  cases l with
  | nil => rfl
  | cons c l =>
    rw [mem_cons, not_or] at hl
    have hc : decide (c = lf) = false := decide_eq_false (Ne.symm hl.1)
    rw [cons_append, slotIdsLoop, if_pos rfl, hc, slotIdsLoop_inside hl.2]

/-- A word without a line end that starts a text starts its first line. -/
theorem prefix_line {w l r : Bytes} (hw : lf ∉ w) (h : w <+: l ++ lf :: r) : w <+: l := by
  induction l generalizing w with
  | nil =>
    cases w with
    | nil => exact nil_prefix
    | cons c w => exact absurd ((cons_prefix_cons.mp h).1 ▸ mem_cons_self) hw
  | cons d l ih =>
    cases w with
    | nil => exact nil_prefix
    | cons c w =>
      obtain ⟨hc, hrest⟩ := cons_prefix_cons.mp h
      exact cons_prefix_cons.mpr ⟨hc, ih (fun hmem => hw (mem_cons_of_mem c hmem)) hrest⟩

/-- Lines that do not start as a slot's line leave the ids as they are. -/
theorem slotIdsLoop_plain {ls : List Bytes} (hls : ∀ l ∈ ls, lf ∉ l ∧ ¬ text "slot " <+: l)
    (ids : ℕ → ℤ) (r : Bytes) :
    slotIdsLoop true ids (ls.flatMap (· ++ [lf]) ++ r) = slotIdsLoop true ids r := by
  have hslot : lf ∉ text "slot " := by
    rw [words.2.2.2.2.1]
    decide
  induction ls with
  | nil => rfl
  | cons l ls ih =>
    obtain ⟨hl, hplain⟩ := hls l mem_cons_self
    have htext : (l :: ls).flatMap (· ++ [lf]) ++ r =
      l ++ lf :: (ls.flatMap (· ++ [lf]) ++ r) := by simp
    have hnote : noteId ids (l ++ lf :: (ls.flatMap (· ++ [lf]) ++ r)) = ids := by
      unfold noteId
      exact if_neg fun h => hplain (prefix_line hslot h)
    rw [htext, slotIdsLoop_line hl, hnote, ih fun m hm => hls m (mem_cons_of_mem l hm)]

/-- A block of a design has no control characters. -/
theorem shown_blockLines {s : Bytes} (hs : s ∈ slots) {id : ℕ} (hid : id ≤ 0x7fffffff) {d : Design}
    (hd : d.Valid) :
    ∀ l ∈ blockLines s id d, ∀ c ∈ l, 0x20 ≤ c := by
  intro l hl
  rcases mem_cons.mp hl with rfl | hl
  · exact (slotLine_facts hs hid).2.2.2
  · rcases mem_append.mp hl with hl | hl
    · exact shown_formatLines hd.name l hl
    · rw [mem_singleton.mp hl]
      exact fun c hc => (words_shown (text "end") (by simp) c hc).1

/-- **The id of a block is noted for its slot.** -/
theorem slotIdsLoop_block {i : ℕ} (hi : i < slots.length) {id : ℕ} (hid : id ≤ 0x7fffffff)
    {d : Design} (hd : d.Valid) (ids : ℕ → ℤ) (r : Bytes) :
    slotIdsLoop true ids ((blockLines (slots.getD i []) id d).flatMap (· ++ [lf]) ++ r) =
      slotIdsLoop true (update ids i id) r := by
  have hmem : slots.getD i [] ∈ slots := by
    rw [getD_eq_getElem _ _ hi]
    exact getElem_mem hi
  have hshown := shown_blockLines hmem hid hd
  have hprefix := (slotLine_facts hmem hid).2.2.1
  have hend : ¬ text "slot " <+: text "end" := by
    rw [words.2.2.2.2.1, words.2.2.2.2.2.2.1]
    decide
  have hrest : ∀ l ∈ formatLines d ++ [text "end"], lf ∉ l ∧ ¬ text "slot " <+: l := by
    intro l hl
    refine ⟨noLf_of_shown (hshown l (mem_cons_of_mem _ hl)), ?_⟩
    rcases mem_append.mp hl with hl | hl
    · exact (formatLines_plain d l hl).2
    · rw [mem_singleton.mp hl]
      exact hend
  have htext : (blockLines (slots.getD i []) id d).flatMap (· ++ [lf]) ++ r =
      slotLine (slots.getD i []) id ++ lf ::
      ((formatLines d ++ [text "end"]).flatMap (· ++ [lf]) ++ r) := by
    simp [blockLines]
  have hnote : noteId ids (slotLine (slots.getD i []) id ++
      lf :: ((formatLines d ++ [text "end"]).flatMap (· ++ [lf]) ++ r)) = update ids i id := by
    unfold noteId
    rw [if_pos (List.IsPrefix.trans hprefix (prefix_append _ _)),
      scanSlot_slotLine hmem hid (Text.ends_of_head (by norm_num) (by decide) _)]
    dsimp only
    rw [slots_facts.2 i hi]
    rfl
  rw [htext, slotIdsLoop_line (noLf_of_shown (hshown _ mem_cons_self)), hnote,
    slotIdsLoop_plain hrest]

/-! ### The whole file -/

section File

variable (library : ℕ → File) (assign : ℕ → ℕ)

/-- The design that is assigned to a slot. -/
def drafted (j : ℕ) : Option Design :=
  match library (assign j) with
  | .holds t => (rdParse t).toOption
  | _ => none

/-- What is applied with the designs of all slots from `i` on. -/
def Applied.fill (a : Applied) (i : ℕ) : Applied where
  out j := if i ≤ j ∧ j < slots.length ∧ assign j ≠ 0 then drafted library assign j else a.out j
  ids j := if i ≤ j ∧ j < slots.length ∧ assign j ≠ 0 then (assign j : ℤ) else a.ids j

variable {library assign}

/-- A slot without a design is passed over. -/
theorem Applied.fill_zero (a : Applied) {i : ℕ} (hi : assign i = 0) :
    a.fill library assign (i + 1) = a.fill library assign i := by
  have hcond : ∀ j, (i + 1 ≤ j ∧ j < slots.length ∧ assign j ≠ 0) ↔
      (i ≤ j ∧ j < slots.length ∧ assign j ≠ 0) := by
    intro j
    constructor
    · exact fun h => ⟨by omega, h.2⟩
    · intro h
      refine ⟨Nat.lt_of_le_of_ne h.1 ?_, h.2⟩
      rintro rfl
      exact h.2.2 hi
  unfold Applied.fill
  simp only [hcond]

/-- A slot's design comes before those of the later slots. -/
theorem Applied.fill_set (a : Applied) {i : ℕ} (hi : i < slots.length)
    (hne : assign i ≠ 0) {d : Design} (hd : drafted library assign i = some d) :
    (a.set i d (assign i)).fill library assign (i + 1) = a.fill library assign i := by
  have hout : ∀ j, (if i + 1 ≤ j ∧ j < slots.length ∧ assign j ≠ 0 then drafted library assign j
      else update a.out i (some d) j) =
      if i ≤ j ∧ j < slots.length ∧ assign j ≠ 0 then drafted library assign j else a.out j := by
    intro j
    rcases eq_or_ne j i with rfl | hj
    · rw [if_neg (by omega), update_self, if_pos ⟨le_rfl, hi, hne⟩, hd]
    · have hcond : (i + 1 ≤ j ∧ j < slots.length ∧ assign j ≠ 0) ↔
        (i ≤ j ∧ j < slots.length ∧ assign j ≠ 0) := by omega
      simp only [hcond, update_of_ne hj]
  have hids : ∀ j, (if i + 1 ≤ j ∧ j < slots.length ∧ assign j ≠ 0 then (assign j : ℤ)
      else update a.ids i (assign i : ℤ) j) =
      if i ≤ j ∧ j < slots.length ∧ assign j ≠ 0 then (assign j : ℤ) else a.ids j := by
    intro j
    rcases eq_or_ne j i with rfl | hj
    · rw [if_neg (by omega), update_self, if_pos ⟨le_rfl, hi, hne⟩]
    · have hcond : (i + 1 ≤ j ∧ j < slots.length ∧ assign j ≠ 0) ↔
        (i ≤ j ∧ j < slots.length ∧ assign j ≠ 0) := by omega
      simp only [hcond, update_of_ne hj]
  unfold Applied.fill Applied.set
  simp only [hout, hids]

/-- **What is written for the slots from `i` on is read for them**, by both readers. -/
theorem draftFrom_read (hassign : ∀ j, assign j ≤ 0x7fffffff) {i : ℕ} {rest : List Bytes}
    (hrest : slots.drop i = rest) {b : Bytes} (h : draftFrom library assign i rest = .ok b) :
    ∃ ls : List Bytes, b = ls.flatMap (· ++ [lf]) ∧ (∀ l ∈ ls, ∀ c ∈ l, 0x20 ≤ c) ∧
      (∀ a : Applied, (∀ j, i ≤ j → a.out j = none) →
        appliedLoop a ls = some (a.fill library assign i)) ∧
      (∀ (a : Applied) (r : Bytes), slotIdsLoop true a.ids (ls.flatMap (· ++ [lf]) ++ r) =
        slotIdsLoop true (a.fill library assign i).ids r) ∧
      ∀ j, i ≤ j → j < slots.length → assign j ≠ 0 →
        ∃ t d, library (assign j) = .holds t ∧ rdParse t = .ok d ∧
        drafted library assign j = some d := by
  induction rest generalizing i b with
  | nil =>
    have hlen : slots.length ≤ i := drop_eq_nil_iff.mp hrest
    have hfill : ∀ a : Applied, a.fill library assign i = a := by
      intro a
      have hcond : ∀ j, ¬ (i ≤ j ∧ j < slots.length ∧ assign j ≠ 0) := fun j hj => by omega
      unfold Applied.fill
      simp only [if_neg (hcond _)]
    refine ⟨[], (Except.ok.inj h).symm, fun l hl => absurd hl not_mem_nil, fun a _ =>
      ?_, fun a r => ?_, fun j hij hj _ => by omega⟩
    · rw [hfill, appliedLoop]
    · rw [hfill]
      rfl
  | cons slot rest ih =>
    have hi : i < slots.length := by
      by_contra hle
      rw [drop_eq_nil_iff.mpr (Nat.not_lt.mp hle)] at hrest
      cases hrest
    have hdrop := drop_eq_getElem_cons hi
    rw [hrest] at hdrop
    obtain ⟨hslot, hrest'⟩ := List.cons.inj hdrop
    have hget : slot = slots.getD i [] := by
      rw [hslot, getD_eq_getElem _ _ hi]
    unfold draftFrom at h
    split at h
    swap
    · cases h
    next b₁ hb₁ =>
    obtain ⟨b₂, hb₂, rfl⟩ := map_ok.mp h
    obtain ⟨ls, rfl, hshown, hloop, hids, hdesigns⟩ := ih hrest'.symm hb₂
    unfold draftSlot at hb₁
    split at hb₁
    · next hzero =>
      -- the slot keeps stock's animation
      obtain rfl := Except.ok.inj hb₁
      refine ⟨ls, rfl, hshown, fun a ha => ?_, fun a r => ?_, fun j hij hj hne => ?_⟩
      · rw [hloop a fun j hj => ha j (by omega), Applied.fill_zero a hzero]
      · rw [hids, Applied.fill_zero a hzero]
      · refine hdesigns j (Nat.lt_of_le_of_ne hij ?_) hj hne
        rintro rfl
        exact hne hzero
    · next hne =>
      split at hb₁
      · cases hb₁
      · cases hb₁
      · next t ht =>
        split at hb₁
        · cases hb₁
        · next d hd =>
          have hvalid := rdParse_valid hd
          have hdraft : drafted library assign i = some d := by
            unfold drafted
            rw [ht]
            dsimp only
            rw [hd]
            rfl
          have hmem : slots.getD i [] ∈ slots := by
            rw [getD_eq_getElem _ _ hi]
            exact getElem_mem hi
          have hend : text "end\n" = text "end" ++ [lf] := by
            rw [words.2.2.2.2.2.2.1, words.2.2.2.2.2.2.2.1]
            rfl
          have hblock : b₁ = (blockLines (slots.getD i []) (assign i) d).flatMap (· ++ [lf]) := by
            rw [← Except.ok.inj hb₁, hend, hget]
            unfold rdFormat blockLines
            simp
          refine ⟨blockLines (slots.getD i []) (assign i) d ++ ls, ?_, ?_,
            fun a ha => ?_, fun a r => ?_, fun j hij hj hne' => ?_⟩
          · rw [hblock, flatMap_append]
          · intro l hl
            rcases mem_append.mp hl with hl | hl
            · exact shown_blockLines hmem (hassign i) hvalid l hl
            · exact hshown l hl
          · have hfree : ∀ j, i + 1 ≤ j → (a.set i d (assign i)).out j = none := by
              intro j hj
              show update a.out i (some d) j = none
              rw [update_of_ne (by omega)]
              exact ha j (by omega)
            rw [appliedLoop_block hi (ha i le_rfl) (hassign i) hvalid, hloop _ hfree,
              Applied.fill_set a hi hne hdraft]
          · have hset := hids (a.set i d (assign i)) r
            rw [Applied.fill_set a hi hne hdraft] at hset
            rw [flatMap_append, append_assoc, slotIdsLoop_block hi (hassign i) hvalid]
            exact hset
          · rcases eq_or_ne j i with rfl | hji
            · exact ⟨t, d, ht, hd, hdraft⟩
            · exact hdesigns j (by omega) hj hne'

end File

/-- **Designs are read as they were written**: a design that was read, alone; and in the file that
`draft_applied` writes, each in the slot it is assigned to, with its id, by `rd_applied_parse` as by
`slot_ids`. -/
theorem ring_round_trip :
    (∀ (t : Bytes) (d : Design), rdParse t = .ok d → rdParse (rdFormat d) = .ok d) ∧
    ∀ (library : ℕ → File) (assign : ℕ → ℕ) (t : Bytes), (∀ j, assign j ≤ 0x7fffffff) →
      draftApplied library assign = .ok t →
      ∃ a, rdAppliedParse t = some a ∧ ∀ i < slots.length,
        a.ids i = assign i ∧ slotIds t i = assign i ∧ (assign i = 0 → a.out i = none) ∧
        (assign i ≠ 0 → ∃ u d, library (assign i) = .holds u ∧ rdParse u = .ok d ∧
          a.out i = some d) := by
  refine ⟨fun t d => rdParse_again, fun library assign t hassign h => ?_⟩
  obtain ⟨b, hb, rfl⟩ := map_ok.mp h
  obtain ⟨ls, rfl, hshown, hloop, hids, hdesigns⟩ :=
    draftFrom_read hassign (rfl : slots.drop 0 = slots) hb
  have hpieces := Text.pieces_lines (fun l hl => noLf_of_shown (hshown l hl)) []
  have hnil : Text.pieces lf [] [] = [] := rfl
  rw [append_nil, hnil, append_nil] at hpieces
  have hparse : rdAppliedParse (appliedHead ++ ls.flatMap (· ++ [lf])) =
      some (({} : Applied).fill library assign 0) := by
    unfold rdAppliedParse
    rw [Text.literal_append, bind_some, hpieces]
    exact hloop {} fun j _ => rfl
  -- no character of the file is a NUL
  have hhead : appliedHead = text "hassmic ring applied 1" ++ [lf] ∧
      (text "hassmic ring applied 1").all (0x20 ≤ ·) = true ∧
      ¬ text "slot " <+: text "hassmic ring applied 1" := by decide +kernel
  have hheadShown : ∀ c ∈ text "hassmic ring applied 1", 0x20 ≤ c :=
    fun c hc => by simpa using all_eq_true.mp hhead.2.1 c hc
  have hnul : (appliedHead ++ ls.flatMap (· ++ [lf])).takeWhile (· ≠ nul) =
      appliedHead ++ ls.flatMap (· ++ [lf]) := by
    refine takeWhile_eq_self_iff.mpr fun c hc => decide_eq_true ?_
    rintro rfl
    have hbad : ¬ (0x20 : UInt8) ≤ nul := by decide
    rw [hhead.1] at hc
    simp only [mem_append, mem_flatMap, mem_singleton] at hc
    rcases hc with (hc | hc) | ⟨l, hl, hc | hc⟩
    · exact hbad (hheadShown nul hc)
    · exact absurd hc (by decide)
    · exact hbad (hshown l hl nul hc)
    · exact absurd hc (by decide)
  have hslotIds : slotIds (appliedHead ++ ls.flatMap (· ++ [lf])) =
      (({} : Applied).fill library assign 0).ids := by
    have hline := @slotIdsLoop_plain [text "hassmic ring applied 1"]
      (fun l hl => by rw [mem_singleton.mp hl]; exact ⟨noLf_of_shown hheadShown, hhead.2.2⟩)
      (({} : Applied).ids) (ls.flatMap (· ++ [lf]) ++ [])
    have hread := hids {} []
    unfold slotIds
    rw [hnul, hhead.1]
    rw [flatMap_singleton, hread, append_nil] at hline
    exact hline
  refine ⟨_, hparse, fun i hi => ?_⟩
  rw [hslotIds]
  unfold Applied.fill
  dsimp only
  by_cases hne : assign i = 0
  · have hcond : ¬ (0 ≤ i ∧ i < slots.length ∧ assign i ≠ 0) := fun hc => hc.2.2 hne
    rw [if_neg hcond, if_neg hcond, hne]
    exact ⟨rfl, rfl, fun _ => rfl, fun h0 => absurd rfl h0⟩
  · have hcond : 0 ≤ i ∧ i < slots.length ∧ assign i ≠ 0 := ⟨Nat.zero_le i, hi, hne⟩
    obtain ⟨u, d, hu, hd, hdraft⟩ := hdesigns i (Nat.zero_le i) hi hne
    rw [if_pos hcond, if_pos hcond]
    exact ⟨rfl, rfl, fun h0 => absurd h0 hne, fun _ => ⟨u, d, hu, hd, hdraft⟩⟩

/-- Two LEDs that take turns. -/
def spin : Bytes := text "name Spin\nleds 2\nloop 1\n250:ff0000,000010\n250:000010,ff0000\n"

/-- A library of two designs: `spin`, and one dark LED. -/
def spinLibrary (id : ℕ) : File :=
  if id = 7 then .holds spin else if id = 1 then .holds (text "leds 1\n0500:000000\n") else .gone

/-- `spin` is assigned to the slots `listen` and `talk`, the dark LED to `end`. -/
def spinAssign (i : ℕ) : ℕ := if i = 0 ∨ i = 3 then 7 else if i = 1 then 1 else 0

theorem ring_round_trip_spin :
    (∃ d, rdParse spin = .ok d ∧ rdParse (rdFormat d) = .ok d) ∧
    ∃ t a, draftApplied spinLibrary spinAssign = .ok t ∧ rdAppliedParse t = some a ∧ a.ids 1 = 1 ∧
    a.out 2 = none ∧
      a.ids 3 = 7 ∧ slotIds t 3 = 7 ∧ ∃ d, rdParse spin = .ok d ∧ a.out 3 = some d := by
  have hparse : rdParse spin = .ok { name := text "Spin", leds := 2, loop := some 1, frames :=
      [⟨250, [⟨255, 0, 0⟩, ⟨0, 0, 16⟩]⟩, ⟨250, [⟨0, 0, 16⟩, ⟨255, 0, 0⟩]⟩] } := by decide +kernel
  have hassign : ∀ j, spinAssign j ≤ 0x7fffffff := by
    intro j
    unfold spinAssign
    split_ifs <;> omega
  refine ⟨⟨_, hparse, ring_round_trip.1 _ _ hparse⟩, ?_⟩
  have hok : (draftApplied spinLibrary spinAssign).isOk = true := by decide +kernel
  cases hdraft : draftApplied spinLibrary spinAssign with
  | error e =>
    rw [hdraft] at hok
    exact absurd hok Bool.false_ne_true
  | ok t =>
    obtain ⟨a, ha, hslots⟩ := ring_round_trip.2 spinLibrary spinAssign t hassign hdraft
    obtain ⟨hid, hread, -, hdesign⟩ := hslots 3 (by decide)
    obtain ⟨u, d, hu, hd, hout⟩ := hdesign (by decide)
    obtain rfl : spin = u := File.holds.inj hu
    exact ⟨t, a, rfl, ha, (hslots 1 (by decide)).1, (hslots 2 (by decide)).2.2.1 rfl, hid,
      hread, d, hd, hout⟩

end Hassmic.Ring
