import Hassmic.Settings.Text

/-!
# The gate before online updates

Before an import may switch online updates on, the settings page asks whether the Echo
reaches GitHub at all; a line that would is turned into a comment otherwise.  The gate
reads the lines for itself, and not as the import does: it knows only spaces and tabs
before a name, compares the channel's name as it is written, and does not cut a long
line.

## Main definitions

* `updatesGate` — what the gate leaves of a body.
* `SwitchesOn` — a line the import would take as switching them on.
* `Guarded` — the bodies whose such lines the gate knows.

## Main results

* `updatesGate_holds` — **exactly which bodies cannot switch them on past the gate.**
-/

namespace Hassmic.Settings

open Byte List

/-! ### The program -/

/-- `" \t"`. -/
def isBlank (c : UInt8) : Bool := c = space || c = tab

/-- `"online_updates="`. -/
def updatesKey : Bytes := text "online_updates="

/-- What the gate knows so far: what failed (`why`), and how often GitHub was tried. -/
structure Probed where
  why : Bytes
  tries : ℕ

/-- A line that would switch online updates on, as the gate sees it. -/
def gateOn (line : Bytes) : Bool :=
  let k := line.dropWhile isBlank
  let v := ((k.drop 15).takeWhile fun c => c ≠ cr ∧ c ≠ lf).take 15
  k.take 15 = updatesKey ∧ (v = text "beta" ∨ v = text "release")

/-- One line of `updates_gate`.  `off` says that online updates are off; the `n`th
`update_probe` gives what failed, or reaches GitHub. -/
def gateLine (off : Bool) (probe : ℕ → Option Bytes) (s : Probed) (line : Bytes) : Probed × Bytes :=
  let hidden := line.takeWhile isBlank ++ hash :: (line.dropWhile isBlank).drop 1
  if gateOn line && off then
    if s.why ≠ [] then (s, hidden)
    else
      match probe s.tries with
      | some why => (⟨why, s.tries + 1⟩, hidden)
      | none => (⟨s.why, s.tries + 1⟩, line)
  else (s, line)

/-- The loop of `updates_gate` over the body, which it changes in place. -/
def gateLoop (off : Bool) (probe : ℕ → Option Bytes) (s : Probed) (t : Bytes) : Bytes :=
  if t = [] then []
  else
    let r := gateLine off probe s (t.takeWhile (· ≠ lf))
    let rest := t.dropWhile (· ≠ lf)
    r.2 ++ rest.take 1 ++ gateLoop off probe r.1 (rest.drop 1)
  termination_by t.length
  decreasing_by
    rename_i h
    have hle := (List.dropWhile_sublist (· ≠ lf) (l := t)).length_le
    have hpos := List.length_pos_iff.mpr h
    rw [List.length_drop]
    omega

/-- `updates_gate`. -/
def updatesGate (off : Bool) (probe : ℕ → Option Bytes) (body : Bytes) : Bytes :=
  gateLoop off probe ⟨[], 0⟩ (cstr body)

/-! ### What the gate leaves -/

/-- A line that GitHub cannot be reached for. -/
def hide (line : Bytes) : Bytes :=
  if gateOn line then line.takeWhile isBlank ++ hash :: (line.dropWhile isBlank).drop 1 else line

variable {probe : ℕ → Option Bytes} {l : Bytes} {e : Echo}

theorem gateLine_snd (h : ∀ n, probe n ≠ none) (s : Probed) (line : Bytes) :
    (gateLine true probe s line).2 = hide line := by
  unfold gateLine hide
  dsimp only
  rw [Bool.and_true]
  split
  · split
    · rfl
    · cases hp : probe s.tries with
      | none => exact absurd hp (h _)
      | some why => rfl
  · rfl

/-! ### Lines, hidden or not -/

theorem notMem_hidden {a : UInt8} (h : a ∉ l) (ha : a ≠ hash) :
    a ∉ l.takeWhile isBlank ++ hash :: (l.dropWhile isBlank).drop 1 := by
  intro hmem
  rcases mem_append.mp hmem with hmem | hmem
  · exact h ((takeWhile_sublist _).mem hmem)
  · rcases mem_cons.mp hmem with hmem | hmem
    · exact ha hmem
    · exact h ((dropWhile_sublist _).mem (mem_of_mem_drop hmem))

/-- Hiding a line keeps it a line. -/
theorem hide_line (h : lf ∉ l) : lf ∉ hide l ∧ (l ≠ [] → hide l ≠ []) := by
  unfold hide
  split
  · exact ⟨notMem_hidden h (by decide), fun _ => by simp⟩
  · exact ⟨h, id⟩

/-- **Where GitHub cannot be reached, the lines the gate leaves are the body's, with
those it knows hidden.** -/
theorem lines_gateLoop (h : ∀ n, probe n ≠ none) (s : Probed) (t : Bytes) :
    lines (gateLoop true probe s t) = (lines t).map hide := by
  fun_induction gateLoop true probe s t with
  | case1 s => rw [lines_nil]; rfl
  | case2 s t ht r rest ih =>
    have hsnd : r.2 = hide (t.takeWhile (· ≠ lf)) := gateLine_snd h s _
    have hline : lf ∉ t.takeWhile (· ≠ lf) := by
      intro hmem
      exact absurd (mem_takeWhile_imp hmem) (by simp)
    obtain ⟨hlf, hne⟩ := hide_line hline
    rw [lines_ne_nil ht, map_cons, ← ih, hsnd]
    cases hrest : rest with
    | nil =>
      -- the last line, without an end: it is the whole text
      have hwhole : t.takeWhile (· ≠ lf) = t := by
        rw [takeWhile_eq_self_iff]
        exact fun c hc => dropWhile_eq_nil_iff.mp hrest c hc
      have hstop : gateLoop true probe r.1 [] = [] := by rw [gateLoop, if_pos rfl]
      rw [take_nil, drop_nil, hstop, append_nil, append_nil, lines_nil]
      exact lines_last hlf (hne (by rw [hwhole]; exact ht))
    | cons c l =>
      have hc : c = lf := by
        have hnot := head?_dropWhile_not (· ≠ lf) t
        rw [show t.dropWhile (· ≠ lf) = c :: l from hrest] at hnot
        simpa using hnot
      rw [hc, take_succ_cons, take_zero, append_assoc, singleton_append]
      exact lines_line hlf _

/-! ### What switches online updates on -/

/-- `"online_updates"`. -/
def updatesName : Bytes := text "online_updates"

theorem row_updates : (row .updates).name = updatesName ∧ (row .updates).type = .choice :=
  ⟨rfl, rfl⟩

/-- The key is the setting's name and `=`; neither it nor a channel's name has a line end in it. -/
theorem channel_facts : ((∀ v ∈ [text "beta", text "release"], v.length < 15 ∧
    v.all (fun c => decide (c ≠ cr ∧ c ≠ lf)) = true) ∧
    updatesKey.all (fun c => decide (c ≠ cr)) = true ∧ updatesKey.head? = some 0x6f) ∧
    updatesKey.length = 15 ∧ updatesKey = updatesName ++ [equals] ∧
    (∀ v ∈ [text "beta", text "release"], (text "off").map Text.lower ≠ v.map Text.lower) ∧
    updatesName ≠ [] ∧ (∀ c ∈ updatesName.head?, Text.isSpace c = false ∧ c ≠ hash) ∧
    equals ∉ updatesName := by
  decide +kernel

theorem updatesKey_eq : updatesKey = updatesName ++ [equals] := channel_facts.2.2.1

theorem isName_updates : IsName updatesName :=
  have h := channel_facts.2.2.2.2
  ⟨h.1, h.2.1, h.2.2⟩

/-- A line that an import would take as switching online updates on. -/
def SwitchesOn (e : Echo) (line : Bytes) : Prop :=
  ∃ v c, settingOf line = some (updatesName, v) ∧ parse e .updates v = some c ∧ c ≠ 0

/-- A channel to be on. -/
def IsChannel (v : Bytes) : Prop := v = text "beta" ∨ v = text "release"

/-- A channel's name in letters of any case. -/
def LikeChannel (v : Bytes) : Prop := sameText v (text "beta") ∨ sameText v (text "release")

theorem parse_updates (e : Echo) (v : Bytes) :
    (∃ c, parse e .updates v = some c ∧ c ≠ 0) ↔ LikeChannel v := by
  have hparse : parse e .updates v = (updateChannels.findIdx? (sameText v)).map Nat.cast := by
    unfold parse
    rw [row_updates.2]
    dsimp only
    rw [show otherName .updates v = none from rfl, Option.or_none]
    rfl
  rw [hparse]
  unfold updateChannels LikeChannel
  rw [findIdx?_cons, findIdx?_cons, findIdx?_cons, findIdx?_nil]
  by_cases hoff : sameText v (text "off") = true
  · -- a name in letters of any case is only one of the three
    rw [if_pos hoff]
    refine iff_of_false (by simp) ?_
    have hv : v.map Text.lower = (text "off").map Text.lower := beq_iff_eq.mp hoff
    rintro (h | h)
    · exact channel_facts.2.2.2.1 (text "beta") (by simp) (hv.symm.trans (beq_iff_eq.mp h))
    · exact channel_facts.2.2.2.1 (text "release") (by simp) (hv.symm.trans (beq_iff_eq.mp h))
  · rw [if_neg hoff]
    by_cases hbeta : sameText v (text "beta") = true
    · rw [if_pos hbeta]
      exact iff_of_true (by simp) (.inl hbeta)
    · rw [if_neg hbeta]
      by_cases hrelease : sameText v (text "release") = true
      · rw [if_pos hrelease]
        exact iff_of_true (by simp) (.inr hrelease)
      · rw [if_neg hrelease]
        refine iff_of_false (by simp) ?_
        rintro (h | h)
        · exact hbeta h
        · exact hrelease h

/-- **What an import takes as switching online updates on.** -/
theorem switchesOn_iff (e : Echo) (line : Bytes) :
    SwitchesOn e line ↔
      ∃ ws v, (∀ c ∈ ws, Text.isSpace c = true) ∧ cut line = ws ++ (updatesKey ++ v) ∧
      LikeChannel v := by
  unfold SwitchesOn
  constructor
  · rintro ⟨v, c, hset, hparse⟩
    obtain ⟨ws, hws, hline⟩ := (settingOf_eq_some_iff isName_updates line v).mp hset
    refine ⟨ws, v, hws, ?_, (parse_updates e v).mp ⟨c, hparse⟩⟩
    rw [hline, updatesKey_eq, append_assoc, singleton_append]
  · rintro ⟨ws, v, hws, hline, hlike⟩
    obtain ⟨c, hparse⟩ := (parse_updates e v).mpr hlike
    refine ⟨v, c, (settingOf_eq_some_iff isName_updates line v).mpr ⟨ws, hws, ?_⟩, hparse⟩
    rw [hline, updatesKey_eq, append_assoc, singleton_append]

/-! ### What the gate knows -/

/-- A line the gate knows: up to a carriage return it is spaces and tabs, the setting's name
and a channel's as it is written. -/
def Known (line : Bytes) : Prop :=
  ∃ ws v, (∀ c ∈ ws, isBlank c = true) ∧ IsChannel v ∧
    line.takeWhile (· ≠ cr) = ws ++ (updatesKey ++ v)

theorem length_updatesKey : updatesKey.length = 15 := channel_facts.2.1

theorem IsChannel.facts {v : Bytes} (h : IsChannel v) :
    v.length < 15 ∧ ∀ c ∈ v, c ≠ cr ∧ c ≠ lf := by
  have hmem : v ∈ [text "beta", text "release"] := by
    rcases h with rfl | rfl
    · exact mem_cons_self
    · exact mem_cons_of_mem _ mem_cons_self
  obtain ⟨hlen, hall⟩ := channel_facts.1.1 v hmem
  exact ⟨hlen, fun c hc => of_decide_eq_true (all_eq_true.mp hall c hc)⟩

theorem blank_ne_cr {c : UInt8} (h : isBlank c = true) : c ≠ cr := by
  rintro rfl
  exact absurd h (by decide)

/-- A short text is all of what a longer cut leaves of it. -/
theorem eq_of_take {n : ℕ} {v : Bytes} (h : l.take n = v) (hv : v.length < n) : l = v := by
  have hlen := congrArg List.length h
  rw [length_take] at hlen
  rw [← h, take_of_length_le (by omega)]

/-- Two tests that agree on a text stop at the same place in it. -/
theorem takeWhile_same {p q : UInt8 → Bool} (h : ∀ c ∈ l, p c = q c) :
    l.takeWhile p = l.takeWhile q := by
  induction l with
  | nil => rfl
  | cons c l ih =>
    rw [takeWhile_cons, takeWhile_cons, h c mem_cons_self,
      ih fun x hx => h x (mem_cons_of_mem _ hx)]

theorem gateOn_iff {line : Bytes} (hlf : lf ∉ line) : gateOn line = true ↔ Known line := by
  unfold gateOn Known
  dsimp only
  rw [decide_eq_true_eq]
  constructor
  · rintro ⟨hkey, hchannel⟩
    generalize hv :
      ((((line.dropWhile isBlank).drop 15).takeWhile fun c => c ≠ cr ∧ c ≠ lf).take 15) = v
      at hchannel
    refine ⟨line.takeWhile isBlank, v, fun c hc => mem_takeWhile_imp hc, hchannel, ?_⟩
    obtain ⟨hlen, hclean⟩ := IsChannel.facts hchannel
    -- a line end is none of its characters, so only a carriage return ends the value
    have hvalue : ((line.dropWhile isBlank).drop 15).takeWhile (· ≠ cr) = v := by
      rw [← eq_of_take hv hlen]
      apply takeWhile_same
      intro c hc
      have hne : c ≠ lf := fun h => hlf (h ▸ (dropWhile_sublist _).mem (mem_of_mem_drop hc))
      simp [hne]
    have hsplit : line = line.takeWhile isBlank ++
        (updatesKey ++ (line.dropWhile isBlank).drop 15) := by
      rw [← hkey, take_append_drop, takeWhile_append_dropWhile]
    conv_lhs => rw [hsplit]
    rw [takeWhile_append_of_pos, takeWhile_append_of_pos, hvalue]
    · intro c hc
      exact all_eq_true.mp channel_facts.1.2.1 c hc
    · intro c hc
      exact decide_eq_true (blank_ne_cr (mem_takeWhile_imp hc))
  · rintro ⟨ws, v, hws, hchannel, hline⟩
    obtain ⟨hlen, hclean⟩ := hchannel.facts
    have hsplit := takeWhile_append_dropWhile (p := (· ≠ cr)) (l := line)
    have hstop := head?_dropWhile_not (· ≠ cr) line
    rw [hline] at hsplit
    generalize line.dropWhile (· ≠ cr) = rest at hsplit hstop
    subst hsplit
    have hdrop : (ws ++ (updatesKey ++ v) ++ rest).dropWhile isBlank =
        updatesKey ++ (v ++ rest) := by
      rw [append_assoc, dropWhile_append_of_pos hws, append_assoc]
      have hhead := channel_facts.1.2.2
      cases hk : updatesKey with
      | nil => rw [hk] at hhead; cases hhead
      | cons c l =>
        rw [hk] at hhead
        rw [cons_append, dropWhile_cons, if_neg]
        rw [Option.some.inj hhead]
        decide
    have hvalue : (v ++ rest).takeWhile (fun c => decide (c ≠ cr ∧ c ≠ lf)) = v := by
      rw [takeWhile_append_of_pos fun c hc => decide_eq_true (hclean c hc)]
      cases rest with
      | nil => rw [takeWhile_nil, append_nil]
      | cons c l =>
        have hc : c = cr := by simpa using hstop
        rw [takeWhile_cons, if_neg (by simp [hc]), append_nil]
    rw [hdrop, take_left' length_updatesKey, drop_left' length_updatesKey, hvalue,
      take_of_length_le hlen.le]
    exact ⟨rfl, hchannel⟩

/-! ### Past the gate -/

/-- Every line that an import would take as switching online updates on, in letters of any
case, behind any white space and cut at the end of its buffer, is a line the gate knows. -/
def Guarded (body : Bytes) : Prop :=
  ∀ line ∈ lines (cstr body),
    (∃ ws v, (∀ c ∈ ws, Text.isSpace c = true) ∧ cut line = ws ++ (updatesKey ++ v) ∧
      LikeChannel v) → Known line

theorem blank_space {c : UInt8} (h : isBlank c = true) : Text.isSpace c = true := by
  unfold isBlank at h
  rw [Bool.or_eq_true, decide_eq_true_eq, decide_eq_true_eq] at h
  rcases h with rfl | rfl <;> decide

/-- A line that is hidden says nothing. -/
theorem settingOf_hidden (l : Bytes) :
    settingOf (l.takeWhile isBlank ++ hash :: (l.dropWhile isBlank).drop 1) = none := by
  have hws : ∀ c ∈ l.takeWhile isBlank, isBlank c = true := fun c hc => mem_takeWhile_imp hc
  generalize l.takeWhile isBlank = ws at hws
  generalize (l.dropWhile isBlank).drop 1 = rest
  unfold settingOf cut
  dsimp only
  apply if_pos
  by_cases hlen : 199 ≤ ws.length
  · -- the buffer ends within the white space
    left
    rw [take_append_of_le_length hlen, dropWhile_eq_nil_iff]
    intro c hc
    exact blank_space (hws c (mem_of_mem_take ((takeWhile_sublist _).mem hc)))
  · right
    left
    rw [take_append, take_of_length_le (by omega), takeWhile_append_of_pos,
      dropWhile_append_of_pos fun c hc => blank_space (hws c hc)]
    · obtain ⟨n, hn⟩ : ∃ n, 199 - ws.length = n + 1 := ⟨198 - ws.length, by omega⟩
      rw [hn, take_succ_cons, takeWhile_cons, if_pos (by decide), dropWhile_cons,
        if_neg (by decide)]
      rfl
    · intro c hc
      exact decide_eq_true (blank_ne_cr (hws c hc))

/-- The lines left switch nothing on exactly when the gate knew those that did. -/
theorem hidden_iff (e : Echo) {t : Bytes} :
    (∀ line ∈ (lines t).map hide, ¬SwitchesOn e line) ↔ ∀ line ∈ lines t, SwitchesOn e line →
    Known line := by
  constructor
  · intro h line hmem hon
    rw [← gateOn_iff (lf_notMem_lines t line hmem)]
    by_contra hnot
    refine h (hide line) (mem_map_of_mem hmem) ?_
    rwa [hide, if_neg hnot]
  · intro h line hmem hon
    obtain ⟨l, hl, rfl⟩ := mem_map.mp hmem
    by_cases hg : gateOn l = true
    · rw [hide, if_pos hg] at hon
      obtain ⟨v, c, hset, -⟩ := hon
      rw [settingOf_hidden] at hset
      cases hset
    · rw [hide, if_neg hg] at hon
      exact hg ((gateOn_iff (lf_notMem_lines t l hl)).mpr (h l hl hon))

/-! ### What an import leaves of online updates -/

theorem seeds_updates {i : SettingId} (h : i ≠ .updates) : seeds i .updates = false := by
  cases i <;> first | rfl | exact absurd rfl h

/-- Setting another setting, or online updates to off, leaves them off. -/
theorem updates_settingsSet {d : Device} (hoff : d.get e .updates = 0) (name value : Bytes)
    (h : name = updatesName → ∀ c, parse e .updates value = some c → c = 0) :
    (settingsSet e d name value).1.get e .updates = 0 := by
  unfold settingsSet
  split
  · exact hoff
  · next i hfind =>
    split
    · exact hoff
    · next v hparse =>
      have hput : (d.put e i v).get e .updates = 0 := by
        by_cases hi : i = .updates
        · subst hi
          have hname : name = updatesName := (present_of_find hfind).2.symm.trans row_updates.1
          have hv := h hname v hparse
          subst hv
          change Function.update d.kept .updates (keep e .updates (d.kept .updates) 0) .updates = 0
          rw [Function.update_self]
          rfl
        · rw [get_put_of_not_seeds e d (seeds_updates hi)]
          exact hoff
      dsimp only
      split_ifs <;> exact hput

theorem updates_applyLine {first : Bool} {a : Applied} {line : Bytes}
    (hoff : a.device.get e .updates = 0) (h : ¬SwitchesOn e line) :
    (applyLine e first a line).device.get e .updates = 0 := by
  unfold applyLine
  split
  · exact hoff
  · next name value hset =>
    have hput := updates_settingsSet hoff name value (by
      rintro rfl c hparse
      by_contra hc
      exact h ⟨value, c, hset, hparse, hc⟩)
    split
    · exact hoff
    · split
      · next d hd => rw [hd] at hput; exact hput
      · next d why hd => rw [hd] at hput; exact hput

theorem updates_foldl {first : Bool} (ls : List Bytes) :
    ∀ a : Applied, (∀ line ∈ ls, ¬SwitchesOn e line) → a.device.get e .updates = 0 →
      (ls.foldl (applyLine e first) a).device.get e .updates = 0 := by
  induction ls with
  | nil => intro a _ hoff; exact hoff
  | cons l ls ih =>
    intro a h hoff
    exact ih _ (fun line hl => h line (mem_cons_of_mem _ hl))
      (updates_applyLine hoff (h l mem_cons_self))

/-- Where no line switches them on, an import leaves online updates off. -/
theorem updates_applyText {d : Device} {t : Bytes} (hoff : d.get e .updates = 0)
    (h : ∀ line ∈ lines (cstr t), ¬SwitchesOn e line) (errsz : ℕ) :
    (applyText e d t errsz).device.get e .updates = 0 := by
  unfold applyText
  dsimp only
  exact updates_foldl _ _ h (updates_foldl _ _ h hoff)

/-- The gate ends no text early. -/
theorem nul_gateLine {off : Bool} {s : Probed} (h : nul ∉ l) :
    nul ∉ (gateLine off probe s l).2 := by
  have hhidden := notMem_hidden h (by decide)
  unfold gateLine
  dsimp only
  split
  · split
    · exact hhidden
    · cases probe s.tries with
      | none => exact h
      | some why => exact hhidden
  · exact h

theorem nul_gateLoop {off : Bool} (s : Probed) (t : Bytes) :
    nul ∉ t → nul ∉ gateLoop off probe s t := by
  fun_induction gateLoop off probe s t with
  | case1 s => exact id
  | case2 s t ht r rest ih =>
    intro h
    have hrest : nul ∉ rest := fun hmem => h ((dropWhile_sublist _).mem hmem)
    have hline : nul ∉ r.2 := nul_gateLine fun hmem => h ((takeWhile_sublist _).mem hmem)
    have hloop := ih fun hmem => hrest (mem_of_mem_drop hmem)
    intro hmem
    rcases mem_append.mp hmem with hmem | hmem
    · rcases mem_append.mp hmem with hmem | hmem
      · exact hline hmem
      · exact hrest (mem_of_mem_take hmem)
    · exact hloop hmem

theorem nul_cstr (t : Bytes) : nul ∉ cstr t := by
  intro hmem
  exact absurd (mem_takeWhile_imp hmem) (by simp)

theorem cstr_of_nul {t : Bytes} (h : nul ∉ t) : cstr t = t := by
  unfold cstr
  rw [takeWhile_eq_self_iff]
  intro c hc
  exact decide_eq_true fun hnul => h (hnul ▸ hc)

/-- **Online updates cannot be switched on past the gate exactly where the gate knows the
lines that would.** -/
theorem updatesGate_holds (e : Echo) (d : Device) (hoff : d.get e .updates = 0)
    (probe : ℕ → Option Bytes) (hprobe : ∀ n, probe n ≠ none) (body : Bytes) (errsz : ℕ) :
    ((∀ line ∈ lines (cstr (updatesGate (d.get e .updates = 0) probe body)), ¬SwitchesOn e line) ∧
      (applyText e d (updatesGate (d.get e .updates = 0) probe body) errsz).device.get
        e .updates = 0) ↔
    Guarded body := by
  have hcstr : cstr (updatesGate true probe body) = updatesGate true probe body :=
    cstr_of_nul (nul_gateLoop _ _ (nul_cstr body))
  have hlines : lines (cstr (updatesGate true probe body)) = (lines (cstr body)).map hide := by
    rw [hcstr]
    exact lines_gateLoop hprobe _ _
  rw [decide_eq_true hoff]
  have hguarded : (∀ line ∈ lines (cstr (updatesGate true probe body)), ¬SwitchesOn e line) ↔
      Guarded body := by
    rw [hlines, hidden_iff]
    unfold Guarded
    simp only [switchesOn_iff]
  constructor
  · intro h
    exact hguarded.mp h.1
  · intro h
    have hlines := hguarded.mpr h
    exact ⟨hlines, updates_applyText hoff hlines errsz⟩

/-! ### A body that goes past the gate -/

/-- The gate does not know a channel in capital letters, and the import switches it on. -/
theorem updatesGate_capitals :
    (applyText ringEcho ringSettings (updatesGate true (fun _ => some (text "no answer"))
      (text "online_updates=BETA")) 2048).device.get ringEcho .updates = 1 ∧
    ¬∀ (e : Echo) (d : Device) (probe : ℕ → Option Bytes) (body : Bytes) (errsz : ℕ),
      d.get e .updates = 0 → (∀ n, probe n ≠ none) →
        (∀ line ∈ lines (cstr (updatesGate (d.get e .updates = 0) probe body)),
          ¬SwitchesOn e line) ∧
          (applyText e d (updatesGate (d.get e .updates = 0) probe body) errsz).device.get e
          .updates = 0 := by
  have hon : (applyText ringEcho ringSettings (updatesGate true (fun _ => some (text "no answer"))
      (text "online_updates=BETA")) 2048).device.get ringEcho .updates = 1 := by
    decide +kernel
  refine ⟨hon, fun h => ?_⟩
  have hoff :=
    (h ringEcho ringSettings (fun _ => some (text "no answer"))
      (text "online_updates=BETA") 2048 rfl
    (fun _ => by simp)).2
  have hzero : ringSettings.get ringEcho .updates = 0 := rfl
  rw [decide_eq_true hzero, hon] at hoff
  exact absurd hoff (by decide)

/-- A body of the settings page's own. -/
theorem updatesGate_holds_page :
    ringSettings.get ringEcho .updates = 0 ∧
      (applyText ringEcho ringSettings (updatesGate (ringSettings.get ringEcho .updates = 0)
        (fun _ => some (text "no answer")) (text "online_updates=beta\n")) 2048).device.get ringEcho
        .updates = 0 := by
  have hknown : Guarded (text "online_updates=beta\n") := by
    intro line hline _
    have hlines : lines (cstr (text "online_updates=beta\n")) =
      [text "online_updates=beta"] := by decide +kernel
    rw [hlines, mem_singleton] at hline
    subst hline
    exact ⟨[], text "beta", by simp, .inl rfl, by decide +kernel⟩
  exact ⟨rfl, ((updatesGate_holds ringEcho ringSettings rfl (fun _ => some (text "no answer"))
    (fun _ => by simp) (text "online_updates=beta\n") 2048).mpr hknown).2⟩

end Hassmic.Settings
