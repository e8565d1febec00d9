import Hassmic.Lib.Runs
import Hassmic.Settings.Text

/-!
# An export imported

An export of one Echo's settings, imported on another, leaves the settings there as they
were on the first: what a setting seeds is put before what it would overwrite, whatever
the order of the lines, and a level of the LEDs is exported only while it is fixed.

## Main results

* `lines_settingsText` — an export is a line for each setting that has one.
* `import_settles` — putting the exported values, switches first, settles each of them.
* `import_export` — **an import of an export reproduces it.**
-/

namespace Hassmic.Settings

open Byte List

/-! ### The lines of an export -/

/-- Characters that end neither a text nor a line. -/
def Plain (t : Bytes) : Prop := ∀ c ∈ t, 0x20 < c.toNat

theorem Plain.append {a b : Bytes} (ha : Plain a) (hb : Plain b) : Plain (a ++ b) := by
  intro c hc
  rcases mem_append.mp hc with hc | hc
  · exact ha c hc
  · exact hb c hc

theorem Plain.notMem {t : Bytes} (h : Plain t) {c : UInt8} (hc : c.toNat ≤ 0x20) : c ∉ t := by
  intro hmem
  have hlt := h c hmem
  omega

/-- What an export writes of the table is short and shown, and its lines have room. -/
theorem export_facts : (∀ i ∈ all, (row i).name ≠ [] ∧ (row i).name.length ≤ 40 ∧
      (row i).name.all (fun c => decide (0x3d < c.toNat)) = true) ∧
    (∀ i ∈ all, ∀ t ∈ choices i, t.length ≤ 13 ∧ t.all (fun c => decide (0x20 < c.toNat)) = true) ∧
    ((text "on").length ≤ 13 ∧ (text "off").length ≤ 13 ∧
      (text "on" ++ text "off").all (fun c => decide (0x20 < c.toNat)) = true) ∧
    ((all.filter fun i => (row i).exported).map fun i => (row i).name.length + 15).sum ≤ 2400 := by
  decide +kernel

theorem name_chars (i : SettingId) : ∀ c ∈ (row i).name, 0x3d < c.toNat := fun c hc =>
  of_decide_eq_true (all_eq_true.mp (export_facts.1 i (mem_all i)).2.2 c hc)

theorem isSpace_false {c : UInt8} (h : 0x20 < c.toNat) : Text.isSpace c = false := by
  unfold Text.isSpace
  rw [Bool.or_eq_false_iff, Bool.and_eq_false_iff]
  refine ⟨beq_eq_false_iff_ne.mpr fun hc => ?_, .inr (decide_eq_false fun hc => ?_)⟩
  · rw [hc] at h
    exact absurd h (by decide)
  · rw [UInt8.le_iff_toNat_le] at hc
    simp only [UInt8.reduceToNat] at hc
    omega

theorem isName_row (i : SettingId) : IsName (row i).name where
  ne_nil := (export_facts.1 i (mem_all i)).1
  head := by
    intro c hc
    have hlt := name_chars i c (mem_of_head? hc)
    refine ⟨isSpace_false (by omega), fun h => ?_⟩
    rw [h] at hlt
    exact absurd hlt (by decide)
  equals := fun hmem => absurd (name_chars i equals hmem) (by decide)

theorem value_gt {c : UInt8} (h : Text.value c < 10) : 0x20 < c.toNat := by
  unfold Text.value at h
  split at h
  · next hc =>
    have hle := UInt8.le_iff_toNat_le.mp hc.1
    simp only [UInt8.reduceToNat] at hle
    omega
  · split at h
    · next hc =>
      have hle := UInt8.le_iff_toNat_le.mp hc.1
      simp only [UInt8.reduceToNat] at hle
      omega
    · split at h
      · next hc =>
        have hle := UInt8.le_iff_toNat_le.mp hc.1
        simp only [UInt8.reduceToNat] at hle
        omega
      · omega

theorem plain_decimal (v : ℤ) : Plain (Text.decimal v) := by
  unfold Text.decimal
  refine Plain.append ?_ fun c hc => value_gt (Text.value_numeral (by omega) (by omega) _ c hc)
  intro c hc
  split at hc
  · rw [mem_singleton.mp hc]
    decide
  · cases hc

variable {e e' : Echo} {i : SettingId} {d : Device}

/-- A value in range is a short text. -/
theorem format_facts {v : ℤ} (hi : (row i).exported = true) (hv : InRange e i v) :
    (format i v).length ≤ 13 ∧ Plain (format i v) := by
  unfold format
  cases htype : (row i).type with
  | bool =>
    have hon : Plain (text "on") := fun c hc =>
      of_decide_eq_true (all_eq_true.mp export_facts.2.2.1.2.2 c (mem_append_left _ hc))
    have hoff : Plain (text "off") := fun c hc =>
      of_decide_eq_true (all_eq_true.mp export_facts.2.2.1.2.2 c (mem_append_right _ hc))
    dsimp only
    split
    · exact ⟨export_facts.2.2.1.1, hon⟩
    · exact ⟨export_facts.2.2.1.2.1, hoff⟩
  | int =>
    obtain ⟨hlo, hhi⟩ := hv.int htype hi
    obtain ⟨-, -, hmin, hmax⟩ := exported_int i (mem_all i) hi htype
    refine ⟨?_, plain_decimal v⟩
    have hint : (Int32.ofInt v).toInt = v := Int32.toInt_ofInt_of_le (by omega) (by omega)
    have hlen := Text.length_decimal_le (Int32.ofInt v)
    rw [hint] at hlen
    dsimp only
    omega
  | choice =>
    obtain ⟨hlo, hhi⟩ := hv.choice htype
    have hlt : v.toNat < (choices i).length := by omega
    dsimp only
    rw [if_pos hlo, getD_eq_getElem _ _ hlt]
    obtain ⟨hlen, hall⟩ := export_facts.2.1 i (mem_all i) _ (getElem_mem hlt)
    exact ⟨hlen, fun c hc => of_decide_eq_true (all_eq_true.mp hall c hc)⟩

/-- The values of an export that are taken on another Echo. -/
def Taken (e' : Echo) (e : Echo) (d : Device) (i : SettingId) : Prop :=
  ∃ v, parse e' i (format i (d.get e i)) = some v

theorem Taken.facts (hi : (row i).exported = true)
    (h : Taken e' e d i) :
    (settingLine e d i).length ≤ 54 ∧ (settingLine e d i).length ≤ (row i).name.length + 14 ∧
      Plain (settingLine e d i) := by
  obtain ⟨v, hv⟩ := h
  obtain ⟨hlen, hplain⟩ := format_facts hi (parse_inRange hv)
  rw [format_parse hi hv] at hlen hplain
  have hname := (export_facts.1 i (mem_all i)).2.1
  unfold settingLine
  refine ⟨by simp; omega, by simp; omega, ?_⟩
  refine Plain.append (Plain.append (fun c hc => ?_) ?_) hplain
  · have := name_chars i c hc
    omega
  · intro c hc
    rw [mem_singleton.mp hc]
    decide

/-- **A line of an export says what it exports.** -/
theorem settingOf_line (hi : (row i).exported = true)
    (h : Taken e' e d i) :
    settingOf (settingLine e d i) = some ((row i).name, format i (d.get e i)) := by
  obtain ⟨hlen, -, hplain⟩ := h.facts hi
  rw [settingOf_eq_some_iff (isName_row i)]
  refine ⟨[], by simp, ?_⟩
  unfold cut
  rw [take_of_length_le (by omega), takeWhile_eq_self_iff.mpr, nil_append]
  · unfold settingLine
    rw [append_assoc, singleton_append]
  · intro c hc
    exact decide_eq_true fun hcr => absurd (hplain c hc) (by rw [hcr]; decide)

/-! ### The lines of a text put together from lines -/

theorem lines_flatten {ls : List Bytes} :
    (∀ l ∈ ls, lf ∉ l) → lines (ls.map (· ++ [lf])).flatten = ls := by
  induction ls with
  | nil => intro _; exact lines_nil
  | cons l ls ih =>
    intro h
    rw [map_cons, flatten_cons, append_assoc, singleton_append,
      lines_line (h l mem_cons_self), ih fun x hx => h x (mem_cons_of_mem _ hx)]

/-- Every character of a text is in one of its lines, or ends one. -/
theorem mem_lines (t : Bytes) : ∀ c ∈ t, c = lf ∨ ∃ l ∈ lines t, c ∈ l := by
  fun_induction lines t with
  | case1 => intro c hc; cases hc
  | case2 t ht ih =>
    intro c hc
    rw [← takeWhile_append_dropWhile (p := (· ≠ lf)) (l := t)] at hc
    rcases mem_append.mp hc with hc | hc
    · exact .inr ⟨_, mem_cons_self, hc⟩
    · have hstop := head?_dropWhile_not (· ≠ lf) t
      cases hd : t.dropWhile (· ≠ lf) with
      | nil => rw [hd] at hc; cases hc
      | cons x l =>
        rw [hd] at hc hstop
        rcases mem_cons.mp hc with rfl | hc
        · exact .inl (by simpa using hstop)
        · rw [hd] at ih
          rcases ih c hc with h | ⟨m, hm, hcm⟩
          · exact .inl h
          · exact .inr ⟨m, mem_cons_of_mem _ hm, hcm⟩

/-- The settings an export has lines for. -/
def exported (e : Echo) (d : Device) : List SettingId := e.ids.filter (listed e d true)

theorem mem_exported (h : i ∈ exported e d) :
    e.present i = true ∧ (row i).exported = true ∧
      (i = .ledLevel → e.present .ledAuto = true → d.ledAuto = 0) := by
  obtain ⟨hids, hlisted⟩ := mem_filter.mp h
  unfold listed at hlisted
  rw [Bool.not_true, Bool.false_or, Bool.and_eq_true, Bool.not_eq_true'] at hlisted
  refine ⟨(mem_filter.mp hids).2, hlisted.1, ?_⟩
  rintro rfl hauto
  have hnot := hlisted.2
  rw [hauto] at hnot
  simpa using hnot

theorem nodup_exported (e : Echo) (d : Device) : (exported e d).Nodup :=
  (nodup_all.filter _).filter _

/-- The room all lines of an export take at most. -/
theorem export_room :
    ((all.filter fun i => (row i).exported).map fun i => (row i).name.length + 15).sum ≤ 2400 :=
  export_facts.2.2.2

/-- **An export is a line for each setting that has one.** -/
theorem lines_settingsText (h : ∀ i ∈ exported e d, Taken e' e d i) {cap : ℕ}
    (hcap : 2401 ≤ cap) :
    lines (settingsText e d true cap) = (exported e d).map (settingLine e d) := by
  have hfacts : ∀ i ∈ exported e d, (settingLine e d i).length ≤ (row i).name.length + 14 ∧
      Plain (settingLine e d i) := fun i hi => ((h i hi).facts (mem_exported hi).2.1).2
  have hlen : (((exported e d).map fun i => settingLine e d i ++ [lf]).flatten).length ≤ 2400 := by
    refine le_trans ?_ export_room
    have hsub : (exported e d).Sublist (all.filter fun i => (row i).exported) := by
      have hfilter : exported e d = ((all.filter fun i => (row i).exported).filter e.present).filter
          (listed e d true) := by
        unfold exported Echo.ids
        rw [filter_filter, filter_filter, filter_filter]
        apply filter_congr
        intro i _
        cases hl : listed e d true i with
        | false => simp
        | true =>
          unfold listed at hl
          rw [Bool.not_true, Bool.false_or, Bool.and_eq_true] at hl
          simp [hl.1]
      rw [hfilter]
      exact filter_sublist.trans filter_sublist
    rw [length_flatten, map_map]
    refine le_trans ?_ (List.Sublist.sum_le_sum (hsub.map _) (fun _ _ => Nat.zero_le _))
    apply sum_le_sum
    intro i hi
    have := (hfacts i hi).1
    simp
    omega
  unfold settingsText
  have hmap : (e.ids.filter (listed e d true)).map (fun i => settingLine e d i ++ [lf])
      = ((exported e d).map (settingLine e d)).map (· ++ [lf]) := by
    rw [map_map]
    rfl
  rw [hmap]
  have hlen' :
      ((((exported e d).map (settingLine e d)).map (· ++ [lf])).flatten).length ≤ cap - 1 := by
    rw [← hmap]
    exact hlen.trans (by omega)
  rw [take_of_length_le hlen']
  apply lines_flatten
  intro l hl
  obtain ⟨i, hi, rfl⟩ := mem_map.mp hl
  exact (hfacts i hi).2.notMem (by decide)

/-! ### Putting the exported values -/

section Import

variable {e e' : Echo} {d : Device}

/-- The exported value as the other Echo reads it. -/
def taken (e' e : Echo) (d : Device) (i : SettingId) : ℤ :=
  (parse e' i (format i (d.get e i))).getD 0

variable {i j : SettingId}

theorem parse_taken (h : Taken e' e d i) :
    parse e' i (format i (d.get e i)) = some (taken e' e d i) := by
  obtain ⟨v, hv⟩ := h
  rw [taken, hv]
  rfl

/-- One line of an export, in one pass. -/
theorem applyLine_line (hpresent : e'.present i = true) (hi : (row i).exported = true)
    (h : Taken e' e d i) (first : Bool) (a : Applied) :
    (applyLine e' first a (settingLine e d i)).device
      = if switches i = first then a.device.put e' i (taken e' e d i) else a.device := by
  unfold applyLine
  rw [settingOf_line hi h]
  dsimp only
  rw [find_name hpresent, Option.any_some]
  by_cases hs : switches i = first
  · rw [if_neg (not_not.mpr hs), if_pos hs]
    have hset : (settingsSet e' a.device (row i).name (format i (d.get e i))).1
        = a.device.put e' i (taken e' e d i) := by
      unfold settingsSet
      rw [find_name hpresent]
      dsimp only
      rw [parse_taken h]
      dsimp only
      split_ifs <;> rfl
    split
    · next d' hd => rw [hd] at hset; exact hset
    · next d' why hd => rw [hd] at hset; exact hset
  · rw [if_pos hs, if_neg hs]

/-- One pass puts the settings that are its own. -/
theorem foldl_lines (first : Bool) (is : List SettingId) :
    ∀ a : Applied, (∀ i ∈ is, e'.present i = true ∧ (row i).exported = true ∧ Taken e' e d i) →
      ((is.map (settingLine e d)).foldl (applyLine e' first) a).device
        = (is.filter (switches · = first)).foldl
        (fun s i => s.put e' i (taken e' e d i)) a.device := by
  induction is with
  | nil => intro a _; rfl
  | cons i is ih =>
    intro a h
    obtain ⟨hpresent, hi, htaken⟩ := h i mem_cons_self
    rw [map_cons, foldl_cons, ih _ fun j hj => h j (mem_cons_of_mem _ hj),
      applyLine_line hpresent hi htaken]
    by_cases hs : switches i = first
    · rw [if_pos hs, filter_cons_of_pos (by simpa using hs), foldl_cons]
    · rw [if_neg hs, filter_cons_of_neg (by simpa using hs)]

/-- What a setting that may be refused needs: that it is taken now. -/
def Allowed (e' : Echo) (i : SettingId) (v : ℤ) (s : Device) : Prop :=
  i = .wakeEngine ∨ i = .timerSound → (s.put e' i v).get e' i = v

/-- The exported value stands; a level of the LEDs stands fixed. -/
def Settled (e' e : Echo) (d : Device) (i : SettingId) (s : Device) : Prop :=
  format i (s.get e' i) = format i (d.get e i) ∧
    (i = .ledLevel → e'.present .ledAuto = true → s.ledAuto = 0)

/-- A setting that is put and not refused is settled. -/
theorem settled_put (hpresent : e'.present i = true) (hi : (row i).exported = true)
    (h : Taken e' e d i) (s : Device) (hs : Allowed e' i (taken e' e d i) s) :
    Settled e' e d i (s.put e' i (taken e' e d i)) := by
  have hparse := parse_taken h
  refine ⟨?_, ?_⟩
  · rw [← format_parse hi hparse]
    by_cases hrefuse : i = .wakeEngine ∨ i = .timerSound
    · rw [hs hrefuse]
    · rw [not_or] at hrefuse
      exact format_get_put s hi hpresent (parse_inRange hparse) hrefuse.1 hrefuse.2
  · rintro rfl _
    obtain ⟨hlo, -⟩ : (0 : ℤ) ≤ taken e' e d .ledLevel ∧ taken e' e d .ledLevel ≤ 100 :=
      (parse_inRange hparse).int rfl hi
    unfold Device.put Device.setLedBrightness
    rw [if_pos hlo]

/-- Another setting does not take away that a setting is allowed. -/
theorem allowed_put (hij : j ≠ i) {v : ℤ} (w : ℤ) {s : Device} (hs : Allowed e' i v s) :
    Allowed e' i v (s.put e' j w) := by
  rintro (rfl | rfl)
  · have hbefore := hs (.inl rfl)
    obtain ⟨hnext, hengine⟩ := wake_put e' s hij w
    exact (setWakeEngine_same e' hnext hengine v).trans hbefore
  · have hbefore := hs (.inr rfl)
    have hget : ∀ s : Device, (s.put e' .timerSound v).get e' .timerSound
        = keep e' .timerSound (s.kept .timerSound) v := by
      intro s
      rw [get_kept e' _ rfl, put_kept e' s rfl]
      dsimp only
      rw [Function.update_self]
    rw [hget] at hbefore ⊢
    rw [kept_put e' s hij w]
    exact hbefore

/-- Which of two exported settings may be put after the other: not one that seeds it. -/
theorem not_seeds (hi : (row i).exported = true) (hij : j ≠ i)
    (hpass : switches i = false → switches j = false) :
    seeds j i = false ∨ (j = .ledAuto ∧ i = .ledLevel) ∨ (j = .ledLevel ∧ i = .ledAuto) := by
  cases j with
  | volSplit =>
    cases i with
    | level k => fin_cases k <;> cases hi
    | volSplit => exact absurd rfl hij
    | _ => exact .inl rfl
  | link k =>
    cases i with
    | level k' => fin_cases k' <;> cases hi
    | offset k' => exact absurd (hpass rfl) Bool.noConfusion
    | link k' =>
      left
      have hk : k ≠ k' := fun h => hij (by rw [h])
      simp [seeds, hk]
    | _ => exact .inl rfl
  | ledAuto =>
    cases i with
    | ledLevel => exact .inr (.inl ⟨rfl, rfl⟩)
    | ledAuto => exact absurd rfl hij
    | _ => exact .inl rfl
  | ledLevel =>
    cases i with
    | ledAuto => exact .inr (.inr ⟨rfl, rfl⟩)
    | ledLevel => exact absurd rfl hij
    | _ => exact .inl rfl
  | _ =>
    left
    cases i <;> first | rfl | exact absurd rfl hij | simpa [seeds] using hij

/-- With auto brightness off where the export has a level, off is what the export says. -/
theorem taken_ledAuto (h : Taken e' e d .ledAuto) (hoff : d.ledAuto = 0) :
    taken e' e d .ledAuto = 0 := by
  have hparse := parse_taken h
  have hformat : format .ledAuto (taken e' e d .ledAuto) = format .ledAuto 0 := by
    have heq := format_parse rfl hparse
    rwa [show d.get e .ledAuto = 0 from hoff] at heq
  rcases (parse_inRange hparse).bool rfl with h | h
  · exact h
  · rw [h] at hformat
    exact absurd hformat strings_differ.1

/-- **A setting that is settled stays so** while the others are put that may come after it. -/
theorem settled_keep (hi : i ∈ exported e d) (hj : j ∈ exported e d)
    (hpresent : e.present = e'.present) (htaken : Taken e' e d j) (hij : j ≠ i)
    (hpass : switches i = false → switches j = false) (s : Device) (hs : Settled e' e d i s) :
    Settled e' e d i (s.put e' j (taken e' e d j)) := by
  obtain ⟨hpi, hexp, hfixed⟩ := mem_exported hi
  obtain ⟨hpj, hexpj, hfixedj⟩ := mem_exported hj
  rcases not_seeds hexp hij hpass with hseeds | ⟨rfl, rfl⟩ | ⟨rfl, rfl⟩
  · refine ⟨?_, ?_⟩
    · rw [get_put_of_not_seeds e' s hseeds]
      exact hs.1
    · rintro rfl hauto
      have hne : j ≠ .ledAuto := by
        rintro rfl
        cases hseeds
      rw [(led_put e' s hne hij _).1]
      exact hs.2 rfl hauto
  · -- auto brightness off, where it is off already
    have hpauto : e'.present .ledAuto = true := by rw [← hpresent]; exact hpj
    have hoff := hfixed rfl hpj
    have hsame : s.put e' .ledAuto (taken e' e d .ledAuto) = s := by
      rw [taken_ledAuto htaken hoff]
      unfold Device.put Device.setLedAuto
      dsimp only
      rw [if_neg]
      rintro ⟨-, hne⟩
      exact hne (hs.2 rfl hpauto).symm
    rw [hsame]
    exact hs
  · -- a level switches auto brightness off, and the export says so too
    have hoff := hfixedj rfl hpi
    have hpauto : e'.present .ledAuto = true := by rw [← hpresent]; exact hpi
    obtain ⟨hlo, -⟩ : (0 : ℤ) ≤ taken e' e d .ledLevel ∧ taken e' e d .ledLevel ≤ 100 :=
      (parse_inRange (parse_taken htaken)).int rfl hexpj
    refine ⟨congrArg _ ?_, by simp⟩
    change (s.setLedBrightness _).ledAuto = d.ledAuto
    unfold Device.setLedBrightness
    rw [if_pos hlo, hoff]

/-- What an Echo takes, it reads, and does not refuse. -/
theorem taken_of_accepted (hp : e'.present i = true) {d' : Device}
    (h : (settingsSet e' d' (row i).name (format i (d.get e i))).2 = none) :
    Taken e' e d i ∧ Allowed e' i (taken e' e d i) d' := by
  unfold settingsSet at h
  rw [find_name hp] at h
  dsimp only at h
  cases hparse : parse e' i (format i (d.get e i)) with
  | none => rw [hparse] at h; cases h
  | some v =>
    have htaken : taken e' e d i = v := by rw [taken, hparse]; rfl
    rw [hparse] at h
    dsimp only at h
    refine ⟨⟨v, hparse⟩, ?_⟩
    rw [htaken]
    rintro (rfl | rfl)
    · by_contra hne
      rw [if_pos ⟨rfl, hne⟩] at h
      cases h
    · by_contra hne
      rw [if_neg (fun hwake => absurd hwake.1 (by decide)), if_pos ⟨rfl, hne⟩] at h
      cases h

/-- **Putting the exported values, the switches first, settles each of them.** -/
theorem import_settles (hpresent : e.present = e'.present) {is : List SettingId}
    (his : is.Perm (exported e d)) (htaken : ∀ i ∈ exported e d, Taken e' e d i) {d' : Device}
    (hallowed : ∀ i ∈ exported e d, Allowed e' i (taken e' e d i) d') :
    ∀ i ∈ is.filter (switches · = true) ++ is.filter (switches · = false),
      Settled e' e d i ((is.filter (switches · = true) ++ is.filter (switches · = false)).foldl
        (fun s i => s.put e' i (taken e' e d i)) d') := by
  have hmem : ∀ {b : Bool} {i : SettingId}, i ∈ is.filter (switches · = b) →
      i ∈ exported e d ∧ switches i = b := by
    intro b i hi
    obtain ⟨hi, hb⟩ := mem_filter.mp hi
    exact ⟨his.mem_iff.mp hi, of_decide_eq_true hb⟩
  have hnodup : is.Nodup := his.nodup_iff.mpr (nodup_exported e d)
  have hboth : ∀ {i j : SettingId}, i ∈ exported e d → j ∈ exported e d → i ≠ j →
      (switches i = false → switches j = false) →
      (∀ s, Allowed e' j (taken e' e d j) s →
        Allowed e' j (taken e' e d j) (s.put e' i (taken e' e d i))) ∧
        ∀ s, Settled e' e d i s → Settled e' e d i (s.put e' j (taken e' e d j)) := by
    intro i j hi hj hij hpass
    exact ⟨fun s hs => allowed_put hij _ hs,
      fun s hs => settled_keep hi hj hpresent (htaken j hj) hij.symm hpass s hs⟩
  refine Runs.settles (f := fun s i => s.put e' i (taken e' e d i))
    (A := fun i s => Allowed e' i (taken e' e d i) s) (Q := fun i s => Settled e' e d i s) ?_ ?_ ?_
  · intro i hi s hs
    have hexp : i ∈ exported e d := by
      rcases mem_append.mp hi with hi | hi
      · exact (hmem hi).1
      · exact (hmem hi).1
    obtain ⟨hp, hx, -⟩ := mem_exported hexp
    exact settled_put (by rw [← hpresent]; exact hp) hx (htaken i hexp) s hs
  · rw [pairwise_append]
    refine ⟨?_, ?_, ?_⟩
    · refine ((hnodup.filter _).imp_of_mem ?_)
      intro i j hi hj hij
      exact hboth (hmem hi).1 (hmem hj).1 hij fun h => absurd ((hmem hi).2.symm.trans h) (by decide)
    · refine ((hnodup.filter _).imp_of_mem ?_)
      intro i j hi hj hij
      exact hboth (hmem hi).1 (hmem hj).1 hij fun _ => (hmem hj).2
    · intro i hi j hj
      refine hboth (hmem hi).1 (hmem hj).1 ?_ fun _ => (hmem hj).2
      rintro rfl
      exact absurd ((hmem hi).2.symm.trans (hmem hj).2) (by decide)
  · intro i hi
    rcases mem_append.mp hi with hi | hi
    · exact hallowed i (hmem hi).1
    · exact hallowed i (hmem hi).1

/-- **An import of an export reproduces it**: on an Echo that has the same settings and
takes each value, in whatever state its own are and in whatever order the lines come. -/
theorem import_export (hpresent : e.present = e'.present) {d' : Device} {cap : ℕ}
    (hcap : 2401 ≤ cap)
    (haccept : ∀ i ∈ exported e d, (settingsSet e' d' (row i).name (format i (d.get e i))).2 = none)
    {t : Bytes} (ht : (lines t).Perm (lines (settingsText e d true cap))) (errsz : ℕ) :
    ∀ i ∈ exported e d,
      format i ((applyText e' d' t errsz).device.get e' i) = format i (d.get e i) := by
  have hp : ∀ i ∈ exported e d, e'.present i = true := fun i hi => by
    rw [← hpresent]
    exact (mem_exported hi).1
  have htaken : ∀ i ∈ exported e d, Taken e' e d i := fun i hi =>
    (taken_of_accepted (hp i hi) (haccept i hi)).1
  have hallowed : ∀ i ∈ exported e d, Allowed e' i (taken e' e d i) d' := fun i hi =>
    (taken_of_accepted (hp i hi) (haccept i hi)).2
  rw [lines_settingsText htaken hcap] at ht
  obtain ⟨is, hlines, his⟩ := (congrFun (congrFun (eq_map_comp_perm (settingLine e d)) (lines t))
    (exported e d)).mpr ht
  have hmem : ∀ i ∈ is, e'.present i = true ∧ (row i).exported = true ∧
      Taken e' e d i := fun i hi =>
    ⟨hp i (his.mem_iff.mp hi), (mem_exported (his.mem_iff.mp hi)).2.1, htaken i (his.mem_iff.mp hi)⟩
  -- no line holds the end of a C string, so the text is read to its end
  have hcstr : cstr t = t := by
    unfold cstr
    rw [takeWhile_eq_self_iff]
    intro c hc
    refine decide_eq_true fun hnul => ?_
    rcases mem_lines t c hc with h | ⟨l, hl, hcl⟩
    · exact absurd (hnul.symm.trans h) (by decide)
    · rw [hlines] at hl
      obtain ⟨i, hi, rfl⟩ := mem_map.mp hl
      have hlt := ((hmem i hi).2.2.facts (hmem i hi).2.1).2.2 c hcl
      rw [hnul] at hlt
      exact absurd hlt (by decide)
  intro i hi
  have hfold : (applyText e' d' t errsz).device
      = (is.filter (switches · = true) ++ is.filter (switches · = false)).foldl
          (fun s i => s.put e' i (taken e' e d i)) d' := by
    unfold applyText
    dsimp only
    rw [hcstr, hlines, foldl_lines false is _ hmem, foldl_lines true is _ hmem, foldl_append]
  have hin : i ∈ is.filter (switches · = true) ++ is.filter (switches · = false) := by
    rw [mem_append, mem_filter, mem_filter]
    have hi' : i ∈ is := his.mem_iff.mpr hi
    cases hs : switches i with
    | true => exact .inl ⟨hi', by simp⟩
    | false => exact .inr ⟨hi', by simp⟩
  rw [hfold]
  exact (import_settles hpresent his htaken hallowed i hin).1

end Import

/-- The same settings on an Echo whose LEDs dim with the room, and whose volumes are separate. -/
def otherSettings : Device :=
  { ringSettings with
    volume := { volume := 70, split := true }
    ledAuto := 1
    kept := fun i => if i = .micLevel then -30 else 1 }

/-- What is in range is accepted, unless it is one of the two that may be refused. -/
theorem accepted_of_inRange {d' : Device} (hp : e'.present i = true)
    (hi : (row i).exported = true) (hv : InRange e' i (d.get e i))
    (hrefuse : i = .wakeEngine ∨ i = .timerSound → (d'.put e' i (d.get e i)).get e' i = d.get e i) :
    (settingsSet e' d' (row i).name (format i (d.get e i))).2 = none := by
  unfold settingsSet
  rw [find_name hp]
  dsimp only
  rw [parse_format hi hv]
  dsimp only
  rw [if_neg, if_neg]
  · rintro ⟨htimer, hne⟩
    exact hne (hrefuse (.inr htimer))
  · rintro ⟨hwake, hne⟩
    exact hne (hrefuse (.inl hwake))

theorem otherSettings_range : ∀ i ∈ exported ringEcho ringSettings,
    InRange ringEcho i (ringSettings.get ringEcho i) := by decide

theorem import_export_ring :
    format .ledLevel
      ((applyText ringEcho otherSettings (settingsText ringEcho ringSettings true 4096)
        2048).device.get
      ringEcho .ledLevel) = format .ledLevel (ringSettings.get ringEcho .ledLevel) := by
  refine import_export rfl (by decide) (fun i hi => ?_) (List.Perm.refl _)
    2048 .ledLevel (by decide)
  obtain ⟨hp, hexp, -⟩ := mem_exported hi
  refine accepted_of_inRange hp hexp (otherSettings_range i hi) ?_
  rintro (rfl | rfl)
  · rfl
  · rfl

end Hassmic.Settings
