import Hassmic.Artifacts.Stage

/-!
# The limits of what is staged

A list that is taken has no more files than fit, each with a good path of its own, and sizes that
come to no more than there is room for; what it makes lies in the folder it is staged in, beside
which only the list itself is written.  The list is read back as it was written, so no piece reaches
past the size that was announced.

## Main definitions

* `Inside` — a path in a folder.
* `Listed` — a list of files as it is taken.
* `Disk.size` — how long a file is.

## Main results

* `readText_expectText` — the list is read back.
* `begin_admits` — **what is staged keeps within its limits**.
-/

namespace Hassmic.Artifacts

open Byte Text Function Option List

/-! ### Names and paths -/

/-- The path is that of something in the folder, by way of folders with good names. -/
def Inside (dir p : Bytes) : Prop :=
  ∃ parts : List Bytes, parts ≠ [] ∧ (∀ a ∈ parts, goodName a = true) ∧
    p = dir ++ parts.flatMap fun a => slash :: a

/-- The characters of a good name. -/
theorem goodName_chars {a : Bytes} (h : goodName a = true) {c : UInt8} (hc : c ∈ a) :
    isSpace c = false ∧ c ≠ nul ∧ c ≠ slash := by
  unfold goodName at h
  simp only [Bool.and_eq_true] at h
  have hall := all_eq_true.mp h.2 c hc
  have hchars : ∀ c : UInt8, (alnum c || c == dot || c == 0x5f || c == minus) = true →
      isSpace c = false ∧ c ≠ nul ∧ c ≠ slash := by
    decide +kernel
  exact hchars c hall

/-- Parts behind each other, with a slash before each. -/
theorem slash_intercalate : ∀ {parts : List Bytes}, parts ≠ [] →
    slash :: [slash].intercalate parts = parts.flatMap fun a => slash :: a
  | [], h => absurd rfl h
  | [a], _ => by simp [List.intercalate]
  | a :: b :: l, _ => by
      have ih := slash_intercalate (cons_ne_nil b l)
      rw [flatMap_cons, ← ih]
      simp [List.intercalate]

/-- A path is its parts, a slash before each. -/
theorem slash_splitOn (p : Bytes) : slash :: p = (p.splitOn slash).flatMap fun a => slash :: a := by
  rw [← slash_intercalate (splitOn_ne_nil slash p), intercalate_splitOn]

variable {name : Bytes}

/-- What a good path is made of. -/
theorem goodPath_iff : goodPath name = true ↔
    name.length ≤ maxName ∧ (name.splitOn slash).length ≤ maxDepth + 1 ∧
      ∀ a ∈ name.splitOn slash, goodName a = true := by
  unfold goodPath
  rw [Bool.and_eq_true, Bool.and_eq_true, decide_eq_true_eq, decide_eq_true_eq,
    List.all_eq_true, and_assoc]

/-- The characters of a good path. -/
theorem goodPath_chars (h : goodPath name = true) {c : UInt8} (hc : c ∈ name) :
    isSpace c = false ∧ c ≠ nul := by
  have hmem : c ∈ (name.splitOn slash).flatMap fun a => slash :: a :=
    slash_splitOn name ▸ mem_cons_of_mem _ hc
  obtain ⟨a, ha, hca⟩ := mem_flatMap.mp hmem
  rcases mem_cons.mp hca with rfl | hca
  · decide
  · have hname := goodName_chars ((goodPath_iff.mp h).2.2 a ha) hca
    exact ⟨hname.1, hname.2.1⟩

/-- Parts with good names lead to somewhere in the folder. -/
theorem inside_of_parts {dir p : Bytes} (h : ∀ a ∈ p.splitOn slash, goodName a = true) :
    Inside dir (dir ++ [slash] ++ p) := by
  refine ⟨p.splitOn slash, splitOn_ne_nil slash p, h, ?_⟩
  rw [← slash_splitOn, append_assoc, singleton_append]

/-- A file of a set lies in its folder. -/
theorem inside_file (dir : Bytes) (h : goodPath name = true) :
    Inside dir (dir ++ [slash] ++ name) :=
  inside_of_parts (goodPath_iff.mp h).2.2

/-- So do the folders of the file. -/
theorem inside_folder (dir : Bytes) {k : Bytes} (h : goodPath name = true) (hk : k ∈ folders name) :
    Inside dir (dir ++ [slash] ++ k) := by
  unfold folders at hk
  obtain ⟨n, -, hn⟩ := mem_filterMap.mp hk
  split at hn
  case isFalse => exact nomatch hn
  case isTrue hslash =>
    obtain rfl := some.inj hn
    -- the parts of the folder are parts of the file
    have hsplit : name = name.take n ++ slash :: name.drop (n + 1) := by
      obtain ⟨hlt, hget⟩ := List.getElem?_eq_some_iff.mp hslash
      rw [← hget, ← drop_eq_getElem_cons hlt, take_append_drop]
    refine inside_of_parts fun a ha => (goodPath_iff.mp h).2.2 a ?_
    rw [hsplit, splitOn_append_cons_self]
    exact mem_append_left _ ha

/-! ### The list -/

/-- A list of files as it is taken. -/
structure Listed (fs : List Entry) : Prop where
  length : fs.length ≤ maxFiles
  nodup : (fs.map Entry.name).Nodup
  path : ∀ f ∈ fs, goodPath f.name = true
  size : ∀ f ∈ fs, 0 ≤ f.size ∧ f.size < 2 ^ 31

section list

variable {wide : ℤ → ℤ}

theorem long_range (v : ℤ) : -2 ^ 31 ≤ long v ∧ long v < 2 ^ 31 := by
  unfold long
  omega

/-- A number that is a `long` stays what it is. -/
theorem long_eq {v : ℤ} (hlo : -2 ^ 31 ≤ v) (hhi : v < 2 ^ 31) : long v = v := by
  unfold long
  omega

variable {l rest : Bytes} {fs : List Entry}

theorem scanLong_range {v : ℤ} (h : scanLong wide l = some v) : v < 2 ^ 31 := by
  unfold scanLong at h
  obtain ⟨r, -, rfl⟩ := map_eq_some_iff.mp h
  dsimp only
  generalize (if r.1 = true then -(r.2.1 : ℤ) else r.2.1) = v
  by_cases hv : -2 ^ 31 ≤ v ∧ v < 2 ^ 31
  · rw [if_pos hv]
    exact hv.2
  · rw [if_neg hv]
    exact (long_range (wide v)).2

theorem scanEntry_size {n : ℕ} {line : Bytes} {f : Entry} (h : scanEntry wide n line = some f) :
    f.size < 2 ^ 31 := by
  unfold scanEntry at h
  simp only [bind_eq_bind, bind_eq_some_iff] at h
  obtain ⟨r, -, size, hsize, hf⟩ := h
  obtain rfl := some.inj hf
  exact scanLong_range hsize

/-- A good path is stored whole. -/
theorem cut_path {name : Bytes} (h : goodPath name = true) : cut (maxName + 1) name = name :=
  take_of_length_le (goodPath_iff.mp h).1

/-- A line keeps the list as it is taken. -/
theorem Listed.addLine {gs : List Entry} (h : Listed fs) {line : Bytes}
    (hadd : addLine wide fs line = .ok gs) :
    Listed gs := by
  unfold Artifacts.addLine at hadd
  split at hadd
  case isTrue => exact Except.ok.inj hadd ▸ h
  case isFalse =>
    split at hadd
    case h_1 => exact nomatch hadd
    case h_2 f hf =>
      split at hadd
      case isTrue => exact nomatch hadd
      case isFalse hgood =>
        split at hadd
        case isTrue => exact nomatch hadd
        case isFalse htwice =>
          obtain rfl := Except.ok.inj hadd
          simp only [Bool.or_eq_true, Bool.not_eq_true', decide_eq_true_eq, not_or,
            Bool.not_eq_false, not_lt] at hgood
          obtain ⟨⟨hpath, hsize⟩, hfull⟩ := hgood
          rw [cut_path hpath]
          have hnew : f.name ∉ fs.map Entry.name := by
            intro hmem
            obtain ⟨g, hg, hname⟩ := mem_map.mp hmem
            exact htwice (any_eq_true.mpr ⟨g, hg, decide_eq_true hname⟩)
          constructor
          case length =>
            have hlen := h.length
            rw [length_append, length_singleton]
            omega
          case nodup =>
            rw [map_append, map_singleton]
            exact nodup_append.mpr ⟨h.nodup, nodup_singleton _, fun a ha b hb hab =>
              hnew (mem_singleton.mp hb ▸ hab ▸ ha)⟩
          case path =>
            intro g hg
            rcases mem_append.mp hg with hg | hg
            · exact h.path g hg
            · exact mem_singleton.mp hg ▸ hpath
          case size =>
            intro g hg
            rcases mem_append.mp hg with hg | hg
            · exact h.size g hg
            · exact mem_singleton.mp hg ▸ ⟨hsize, scanEntry_size hf⟩

/-- So does the whole text. -/
theorem listed_fileList (h : fileList wide l = .ok fs) : Listed fs := by
  unfold fileList at h
  have hnil : Listed [] := ⟨Nat.zero_le _, nodup_nil, nofun, nofun⟩
  generalize (l.splitOn lf).map (cut 192) = lines at h
  generalize [] = gs at h hnil
  induction lines generalizing gs with
  | nil => exact Except.ok.inj h ▸ hnil
  | cons line lines ih =>
    rw [foldlM_cons] at h
    obtain ⟨hs, hadd, hrest⟩ := Except.bind_eq_ok_iff.mp h
    exact ih hs hrest (hnil.addLine hadd)

/-- What the sizes come to. -/
def sum (fs : List Entry) : ℤ := (fs.map Entry.size).sum

theorem total_eq (fs : List Entry) : total fs = long (sum fs) := by
  have hfold : ∀ a, fs.foldl (fun t f => long (t + f.size)) (long a) = long (a + sum fs) := by
    induction fs with
    | nil =>
      intro a
      unfold sum
      rw [foldl_nil, map_nil, sum_nil, add_zero]
    | cons f fs ih =>
      intro a
      have hlong : long (long a + f.size) = long (a + f.size) := by
        unfold long
        omega
      rw [foldl_cons, hlong, ih]
      unfold sum
      rw [map_cons, sum_cons, add_assoc]
  have hzero := hfold 0
  rw [zero_add] at hzero
  exact hzero

theorem sum_nonneg (h : Listed fs) : 0 ≤ sum fs := by
  unfold sum
  refine List.sum_nonneg fun v hv => ?_
  obtain ⟨f, hf, rfl⟩ := List.mem_map.mp hv
  exact (h.size f hf).1

/-! ### The list is read back -/

/-- A word is read up to the space behind it. -/
theorem scanWord_word {n : ℕ} {w : Bytes} (hne : w ≠ []) (hword : ∀ c ∈ w, isSpace c = false)
    (hlen : w.length ≤ n) (hrest : ∀ c ∈ rest.head?, isSpace c = true) :
    scanWord n (w ++ rest) = some (w, rest) := by
  obtain ⟨c, l, rfl⟩ := exists_cons_of_ne_nil hne
  have hdrop : (c :: l ++ rest).dropWhile isSpace = c :: l ++ rest := by
    rw [cons_append, dropWhile_cons_of_neg]
    rw [hword c mem_cons_self]
    decide
  have hnone : rest.takeWhile (fun c => !isSpace c) = [] := by
    cases rest with
    | nil => rfl
    | cons d rest =>
      rw [takeWhile_cons_of_neg]
      rw [hrest d rfl]
      decide
  have htake : (c :: l ++ rest).takeWhile (fun c => !isSpace c) = c :: l := by
    rw [takeWhile_append_of_pos fun d hd => by rw [hword d hd]; rfl, hnone, append_nil]
  unfold scanWord
  dsimp only
  rw [hdrop, htake, take_of_length_le hlen, if_neg hne, drop_left]

/-- A word has no spaces, and it comes from the text. -/
theorem of_scanWord {n : ℕ} {w : Bytes} (h : scanWord n l = some (w, rest)) :
    w ≠ [] ∧ (∀ c ∈ w, isSpace c = false ∧ c ∈ l) ∧ ∀ c ∈ rest, c ∈ l := by
  unfold scanWord at h
  dsimp only at h
  have hmem : ∀ c ∈ l.dropWhile isSpace, c ∈ l := fun c hc => (dropWhile_suffix isSpace).subset hc
  split at h
  case isTrue => exact nomatch h
  case isFalse hne =>
    obtain ⟨rfl, rfl⟩ := Prod.mk.inj (some.inj h)
    refine ⟨hne, fun c hc => ?_, fun c hc => hmem c (mem_of_mem_drop hc)⟩
    have htake := mem_of_mem_take hc
    have hspace := mem_takeWhile_imp htake
    exact ⟨by simpa using hspace, hmem c ((List.takeWhile_prefix _).subset htake)⟩

/-- A size is read back. -/
theorem scanLong_decimal {v : ℤ} (hlo : 0 ≤ v) (hhi : v < 2 ^ 31) (hrest : Ends 10 rest) :
    scanLong wide (space :: (decimal v ++ rest)) = some v := by
  have hds := value_numeral (b := 10) (by omega) (by omega) v.natAbs
  have hval := ofDigits_numeral (b := 10) (by omega) (by omega) v.natAbs
  unfold scanLong decimal
  rw [integer_space, if_neg (by omega), nil_append,
    integer_digits (by omega) (numeral_ne_nil 10 v.natAbs) hds hrest
    (fun h => absurd h (by decide)), hval, map_some]
  have habs : (v.natAbs : ℤ) = v := by omega
  dsimp only
  simp only [Bool.false_eq_true, if_false, habs]
  rw [if_pos ⟨by omega, hhi⟩]

/-- Without a NUL a string is the whole text. -/
theorem str_eq (h : nul ∉ l) : str l = l := by
  unfold str
  rw [takeWhile_eq_self_iff]
  intro c hc
  exact decide_eq_true fun hnul => h (hnul ▸ hc)

/-- The line of a file. -/
def entryLine (f : Entry) : Bytes := f.name ++ [space] ++ decimal f.size

theorem goodPath_ne_nil {name : Bytes} (h : goodPath name = true) : name ≠ [] := by
  rintro rfl
  exact absurd h (by decide)

section entry

variable {f : Entry} (hpath : goodPath f.name = true) (hsize : 0 ≤ f.size ∧ f.size < 2 ^ 31)
include hpath hsize

theorem entryLine_length : (entryLine f).length < 191 := by
  have hname : f.name.length ≤ 127 := (goodPath_iff.mp hpath).1
  have hnum : (numeral 10 f.size.natAbs).length ≤ 10 :=
    length_numeral_le (by omega) (by omega) (by omega)
  unfold entryLine decimal
  rw [if_neg (by omega), nil_append, length_append, length_append, length_singleton]
  omega

/-- The characters of the line. -/
theorem entryLine_chars {c : UInt8} (hc : c ∈ entryLine f) : c ≠ lf ∧ c ≠ nul := by
  unfold entryLine decimal at hc
  rw [if_neg (by omega), nil_append] at hc
  rcases mem_append.mp hc with hc | hc
  · rcases mem_append.mp hc with hc | hc
    · have hchars := goodPath_chars hpath hc
      refine ⟨fun hlf => ?_, hchars.2⟩
      rw [hlf] at hchars
      exact absurd hchars.1 (by decide)
    · rw [mem_singleton.mp hc]
      decide
  · have hv := value_numeral (b := 10) (by omega) (by omega) _ c hc
    exact Arb.St.plain_of_value (by omega)

/-- **A line of the list is read back.** -/
theorem scanEntry_entryLine : scanEntry wide maxName (str (entryLine f ++ [lf])) = some f := by
  have hnul : nul ∉ entryLine f ++ [lf] := by
    intro hmem
    rcases mem_append.mp hmem with hmem | hmem
    · exact (entryLine_chars hpath hsize hmem).2 rfl
    · exact absurd (mem_singleton.mp hmem) (by decide)
  have hword : scanWord maxName (entryLine f ++ [lf]) =
      some (f.name, space :: (decimal f.size ++ [lf])) := by
    unfold entryLine
    rw [append_assoc, append_assoc, singleton_append]
    refine scanWord_word (goodPath_ne_nil hpath) (fun c hc => (goodPath_chars hpath hc).1)
      (goodPath_iff.mp hpath).1 ?_
    intro c hc
    rw [← some.inj hc]
    decide
  unfold scanEntry
  rw [str_eq hnul, hword, bind_eq_bind, bind_some]
  dsimp only
  rw [scanLong_decimal hsize.1 hsize.2 (by intro c hc; rw [← some.inj hc]; decide)]
  rfl

end entry

/-- Lines are read one by one. -/
theorem linesLoop_lines {bodies : List Bytes} (h : ∀ b ∈ bodies, b.length < 191 ∧ lf ∉ b) :
    ∀ {k : ℕ}, (bodies.flatMap fun b => b ++ [lf]).length ≤ k →
      linesLoop k (bodies.flatMap fun b => b ++ [lf]) = bodies.map fun b => b ++ [lf] := by
  induction bodies with
  | nil =>
    intro k _
    cases k with
    | zero => rfl
    | succ k => rfl
  | cons b bodies ih =>
    intro k hk
    obtain ⟨hlen, hlf⟩ := h b mem_cons_self
    rw [flatMap_cons, append_assoc, singleton_append] at hk ⊢
    have hget :=
      Arb.St.fgets_line (fun c hc hclf => hlf (hclf ▸ hc)) (bodies.flatMap fun b => b ++ [lf]) hlen
    rw [length_append, length_cons] at hk
    obtain ⟨k, rfl⟩ : ∃ m, k = m + 1 := ⟨k - 1, by omega⟩
    obtain ⟨c, l, hcons⟩ : ∃ c l, b ++ lf :: (bodies.flatMap fun b => b ++ [lf]) = c :: l := by
      cases b with
      | nil => exact ⟨_, _, rfl⟩
      | cons c b => exact ⟨_, _, rfl⟩
    rw [hcons] at hget ⊢
    rw [linesLoop, hget, map_cons, ih (fun b' hb' => h b' (mem_cons_of_mem b hb')) (by omega)]

/-- **The list is read back as it was written.** -/
theorem readText_expectText {dh : Bytes} (hfs : Listed fs) (hlen : dh.length = 64)
    (hdh : ∀ c ∈ dh, isSpace c = false ∧ c ≠ nul) : readText wide (expectText dh fs) = some fs := by
  have hlf : lf ∉ dh := fun hmem => absurd (hdh lf hmem).1 (by decide)
  have htext : expectText dh fs = (dh :: fs.map entryLine).flatMap fun b => b ++ [lf] := by
    unfold expectText
    rw [flatMap_cons, flatMap_map]
    rfl
  have hlines := @linesLoop_lines (dh :: fs.map entryLine) (fun b hb => by
    rcases mem_cons.mp hb with rfl | hb
    · exact ⟨by omega, hlf⟩
    · obtain ⟨f, hf, rfl⟩ := mem_map.mp hb
      exact ⟨entryLine_length (hfs.path f hf) (hfs.size f hf),
        fun hmem => (entryLine_chars (hfs.path f hf) (hfs.size f hf) hmem).1 rfl⟩) _ le_rfl
  have hhead : (scanWord 64 (str (dh ++ [lf]))).isNone = false := by
    have hnul : nul ∉ dh ++ [lf] := by
      intro hmem
      rcases mem_append.mp hmem with hmem | hmem
      · exact (hdh nul hmem).2 rfl
      · exact absurd (mem_singleton.mp hmem) (by decide)
    rw [str_eq hnul, scanWord_word (by rintro rfl; exact nomatch hlen)
      (fun c hc => (hdh c hc).1) hlen.le
      (by intro c hc; rw [← some.inj hc]; decide)]
    rfl
  have hread : (fs.map fun f => entryLine f ++ [lf]).filterMap
      (fun line => scanEntry wide maxName (str line)) = fs := by
    rw [filterMap_map]
    have hall : ∀ gs : List Entry, (∀ f ∈ gs, f ∈ fs) →
        gs.filterMap ((fun line => scanEntry wide maxName (str line)) ∘ fun f =>
          entryLine f ++ [lf]) = gs := by
      intro gs hgs
      induction gs with
      | nil => rfl
      | cons f gs ih =>
        have hf := hgs f mem_cons_self
        rw [filterMap_cons_some (by exact scanEntry_entryLine (hfs.path f hf) (hfs.size f hf)),
          ih fun g hg => hgs g (mem_cons_of_mem f hg)]
    exact hall fs fun f hf => hf
  unfold readText
  rw [htext, hlines, map_cons]
  dsimp only
  rw [hhead, if_neg (by decide), List.map_map]
  change some (((fs.map fun f => entryLine f ++ [lf]).filterMap _).take maxFiles) = some fs
  rw [hread, take_of_length_le hfs.length]

end list

/-! ### The folders that are staged in -/

/-- The folder of everything that is staged. -/
def artifactsPath (state : Bytes) : Bytes := cut 320 (state ++ text "/artifacts")

/-- No name of such a folder has a slash. -/
theorem stageName_slash {id : Bytes} (h : stageName id = some name) : slash ∉ name := by
  unfold stageName at h
  split at h
  case isTrue hwake =>
    obtain rfl := some.inj h
    intro hmem
    rcases mem_append.mp hmem with hmem | hmem
    · exact absurd hmem (by decide +kernel)
    · exact (goodName_chars hwake.2 hmem).2.2 rfl
  case isFalse =>
    split at h
    · obtain rfl := some.inj h
      decide +kernel
    · split at h
      case isTrue hmww =>
        obtain rfl := some.inj h
        intro hmem
        rcases mem_append.mp hmem with hmem | hmem
        · exact absurd hmem (by decide +kernel)
        · have hid := hmww.2
          unfold Mww.goodId at hid
          rw [Bool.and_eq_true] at hid
          exact absurd (all_eq_true.mp hid.2 slash hmem) (by decide)
      case isFalse =>
        split at h
        · obtain rfl := some.inj h
          decide +kernel
        · exact nomatch h

section stages

variable {state id stage : Bytes} (h : resolve state id = some stage)
include h

theorem resolve_length : stage.length ≤ 299 := by
  unfold resolve at h
  obtain ⟨name, -, rfl⟩ := map_eq_some_iff.mp h
  exact length_take_le 299 _

/-- All of them begin alike, and go on without a slash. -/
theorem resolve_form : ∃ c, slash ∉ c ∧ stage = (state ++ text "/artifacts/").take 299 ++ c := by
  unfold resolve at h
  obtain ⟨name, hname, rfl⟩ := map_eq_some_iff.mp h
  refine ⟨name.take (299 - (state ++ text "/artifacts/").length),
    fun hmem => stageName_slash hname (mem_of_mem_take hmem), ?_⟩
  unfold cut
  rw [take_append]

theorem expectPath_eq : expectPath stage = stage ++ text ".expect" := by
  have hlen := resolve_length h
  have hseven : (text ".expect").length = 7 := by decide +kernel
  unfold expectPath cut
  rw [take_of_length_le]
  rw [length_append]
  omega

/-- Nothing is cut off the path of a file. -/
theorem cut_file {name : Bytes} (hname : name.length ≤ 127) :
    cut 460 (stage ++ [slash] ++ name) = stage ++ [slash] ++ name := by
  have hlen := resolve_length h
  unfold cut
  rw [take_of_length_le]
  rw [length_append, length_append, length_singleton]
  omega

/-- A file of one is no list of another. -/
theorem file_ne_expect {id' stage' : Bytes} (h' : resolve state id' = some stage') (x : Bytes) :
    stage' ++ [slash] ++ x ≠ expectPath stage := by
  intro heq
  rw [expectPath_eq h] at heq
  obtain ⟨c, hc, rfl⟩ := resolve_form h
  obtain ⟨c', -, rfl⟩ := resolve_form h'
  rw [append_assoc, append_assoc, append_assoc] at heq
  have hrest := append_cancel_left heq
  have hmem : slash ∈ c ++ text ".expect" := by
    rw [← hrest]
    exact mem_append_right _ (mem_append_left _ mem_cons_self)
  rcases mem_append.mp hmem with hmem | hmem
  · exact hc hmem
  · exact absurd hmem (by decide +kernel)

/-- Nor is it a file of another, unless it is that file. -/
theorem file_inj {id' stage' : Bytes} (h' : resolve state id' = some stage') {x y : Bytes}
    (heq : stage ++ [slash] ++ x = stage' ++ [slash] ++ y) : stage = stage' ∧ x = y := by
  obtain ⟨c, hc, rfl⟩ := resolve_form h
  obtain ⟨c', hc', rfl⟩ := resolve_form h'
  rw [append_assoc, append_assoc, append_assoc, append_assoc] at heq
  have hrest := append_cancel_left heq
  have hfirst : ∀ {b z : Bytes}, slash ∉ b → (b ++ ([slash] ++ z)).takeWhile (· ≠ slash) = b := by
    intro b z hb
    have hpos : ∀ a ∈ b, decide (a ≠ slash) = true :=
      fun a ha => decide_eq_true fun hs => hb (hs ▸ ha)
    rw [takeWhile_append_of_pos hpos]
    rw [singleton_append, takeWhile_cons_of_neg (by decide), append_nil]
  have hsame : c = c' := by
    rw [← hfirst hc, hrest, hfirst hc']
  subst hsame
  exact ⟨rfl, (List.cons.inj (append_cancel_left hrest)).2⟩

end stages

/-! ### What is made of a list -/

/-- How long a file is; a folder is not. -/
def fileSize : Option Node → ℕ
  | some (.file data) => data.length
  | _ => 0

def Disk.size (d : Disk) (p : Bytes) : ℕ := fileSize (d.nodes p)

section make

variable {os : Os} {state id stage : Bytes}

theorem touched_mkdirs (ps : List Bytes) (d : Disk) :
    (ps.foldl (fun d p => d.mkdir os p) d).touched = d.touched ++ ps := by
  induction ps generalizing d with
  | nil => exact (append_nil _).symm
  | cons p ps ih =>
    rw [foldl_cons, ih]
    unfold Disk.mkdir
    rw [append_assoc, singleton_append]

theorem nodes_mkdirs {q : Bytes} (ps : List Bytes) (hq : q ∉ ps) (d : Disk) :
    (ps.foldl (fun d p => d.mkdir os p) d).nodes q = d.nodes q := by
  induction ps generalizing d with
  | nil => rfl
  | cons p ps ih =>
    obtain ⟨hp, hps⟩ := not_or.mp (fun h => hq (mem_cons.mpr h))
    rw [foldl_cons, ih hps]
    unfold Disk.mkdir
    dsimp only
    split
    · exact update_of_ne hp _ _
    · rfl

/-- A file that is made is there as it was written, and the others stay. -/
theorem nodes_create {d : Disk} {q : Bytes} (hopen : d.opened os q = true) (data : Bytes) :
    (d.create os q data).nodes q = some (.file data) := by
  unfold Disk.create
  dsimp only
  rw [if_pos hopen, update_self]

theorem nodes_create_ne (d : Disk) {p q : Bytes} (hp : p ≠ q) (data : Bytes) :
    (d.create os q data).nodes p = d.nodes p := by
  unfold Disk.create
  dsimp only
  split
  · exact update_of_ne hp _ _
  · rfl

theorem folders_length {name k : Bytes} (hk : k ∈ folders name) : k.length ≤ name.length := by
  unfold folders at hk
  obtain ⟨n, -, hn⟩ := mem_filterMap.mp hk
  split at hn
  · obtain rfl := some.inj hn
    rw [length_take]
    omega
  · exact nomatch hn

/-- What is made for a file lies in the folder. -/
theorem makeFile_eq (h : resolve state id = some stage) {f : Entry}
    (hf : goodPath f.name = true) (d : Disk) :
    ∃ dirs : List Bytes, (∀ p ∈ dirs, Inside stage p) ∧
    (∀ p ∈ dirs, ∃ k, p = stage ++ [slash] ++ k) ∧
      makeFile os stage d f = (dirs.foldl (fun d p => d.mkdir os p) d).create os
        (stage ++ [slash] ++ f.name) [] := by
  have hlen := resolve_length h
  have hname : f.name.length ≤ 127 := (goodPath_iff.mp hf).1
  have hstage : stage.take 300 = stage := take_of_length_le (by omega)
  refine ⟨(folders f.name).map fun k => stage ++ [slash] ++ k, ?_, ?_, ?_⟩
  · intro p hp
    obtain ⟨k, hk, rfl⟩ := mem_map.mp hp
    exact inside_folder stage hf hk
  · intro p hp
    obtain ⟨k, -, rfl⟩ := mem_map.mp hp
    exact ⟨k, rfl⟩
  · unfold makeFile
    dsimp only
    have hdirs : ((folders f.name).map fun k => cut 460 (stage.take 300 ++ [slash] ++ k)) =
        (folders f.name).map fun k => stage ++ [slash] ++ k := by
      refine map_congr_left fun k hk => ?_
      have hk' := folders_length hk
      rw [hstage, cut_file h (by omega)]
    rw [hdirs, hstage, take_of_length_le hname, cut_file h hname]

/-- The files of a list are made in the folder, and leave the list alone. -/
theorem makeFiles (h : resolve state id = some stage) {fs : List Entry}
    (hfs : ∀ f ∈ fs, goodPath f.name = true) (d : Disk) :
    (∀ p ∈ (fs.foldl (makeFile os stage) d).touched, p ∈ d.touched ∨ Inside stage p) ∧
      (fs.foldl (makeFile os stage) d).nodes (expectPath stage) = d.nodes (expectPath stage) := by
  induction fs generalizing d with
  | nil => exact ⟨fun p hp => .inl hp, rfl⟩
  | cons f fs ih =>
    have hf := hfs f mem_cons_self
    obtain ⟨dirs, hinside, hform, heq⟩ := @makeFile_eq os _ _ _ h _ hf d
    obtain ⟨htouched, hnode⟩ :=
      ih (fun g hg => hfs g (mem_cons_of_mem f hg)) (makeFile os stage d f)
    rw [foldl_cons]
    constructor
    · intro p hp
      rcases htouched p hp with hp | hp
      · rw [heq] at hp
        unfold Disk.create at hp
        rw [touched_mkdirs] at hp
        rcases mem_append.mp hp with hp | hp
        · rcases mem_append.mp hp with hp | hp
          · exact .inl hp
          · exact .inr (hinside p hp)
        · exact .inr (mem_singleton.mp hp ▸ inside_file stage hf)
      · exact .inr hp
    · rw [hnode, heq]
      have hdirs : expectPath stage ∉ dirs := by
        intro hmem
        obtain ⟨k, hk⟩ := hform _ hmem
        exact file_ne_expect h h k hk.symm
      rw [nodes_create_ne _ (file_ne_expect h h f.name).symm, nodes_mkdirs dirs hdirs]

/-- A folder that is made makes no file longer. -/
theorem size_mkdir (d : Disk) (p q : Bytes) : (d.mkdir os q).size p = d.size p := by
  change fileSize
    ((if d.nodes q = none ∧ os.makes q then update d.nodes q (some .dir) else d.nodes) p) = _
  split
  case isTrue hq =>
    by_cases hp : p = q
    · rw [hp, update_self, Disk.size, hq.1]
      rfl
    · rw [update_of_ne hp, Disk.size]
  case isFalse => rfl

/-- Nor does a file that is made empty. -/
theorem size_create_nil (d : Disk) (p q : Bytes) : (d.create os q []).size p ≤ d.size p := by
  change fileSize ((if d.opened os q then update d.nodes q (some (.file [])) else d.nodes) p) ≤ _
  split
  · by_cases hp : p = q
    · rw [hp, update_self]
      exact Nat.zero_le _
    · rw [update_of_ne hp, Disk.size]
  · exact le_rfl

theorem size_makeFiles (fs : List Entry) (d : Disk) (p : Bytes) :
    (fs.foldl (makeFile os stage) d).size p ≤ d.size p := by
  have hdirs : ∀ (ps : List Bytes) (d : Disk),
      (ps.foldl (fun d p => d.mkdir os p) d).size p = d.size p := by
    intro ps
    induction ps with
    | nil => exact fun d => rfl
    | cons q ps ih => exact fun d => (ih (d.mkdir os q)).trans (size_mkdir d p q)
  induction fs generalizing d with
  | nil => exact le_rfl
  | cons f fs ih =>
    refine (ih (makeFile os stage d f)).trans ?_
    unfold makeFile
    exact (size_create_nil _ p _).trans (hdirs _ d).le

end make

/-! ### Pieces -/

section chunks

variable {wide : ℤ → ℤ} {state : Bytes}

theorem length_pwrite_le (old : Bytes) (off : ℕ) (b : Bytes) :
    (pwrite old off b).length ≤ max old.length (off + b.length) := by
  unfold pwrite
  split
  · exact le_max_left _ _
  · simp only [length_append, length_take, length_replicate, length_drop]
    omega

/-- **What a piece does**: nothing, or it is written into its file, of which no more is known than
the list says. -/
theorem chunk_cases (d : Disk) (c : Chunk) :
    (artChunk wide state d c).2 = d ∨ ∃ stage fs f, resolve state c.id = some stage ∧
    goodPath c.file = true ∧
      readExpect wide d stage = some fs ∧ f ∈ fs ∧ f.name = c.file ∧ 0 ≤ c.off ∧
      long (c.off + long c.data.length) ≤ f.size ∧
      (artChunk wide state d c).2.touched = d.touched ++ [stage ++ [slash] ++ c.file] ∧
      ((artChunk wide state d c).2.nodes = d.nodes ∨
        ∃ old n, d.nodes (stage ++ [slash] ++ c.file) = some (.file old) ∧
        (artChunk wide state d c).2.nodes = update d.nodes (stage ++ [slash] ++ c.file)
          (some (.file (pwrite old c.off.toNat (c.data.take n))))) := by
  unfold artChunk
  split
  case h_1 => exact .inl rfl
  case h_2 stage hstage =>
    split at hstage
    case isFalse => exact nomatch hstage
    case isTrue hpath =>
      split
      case h_1 => exact .inl rfl
      case h_2 f hfound =>
        obtain ⟨fs, hread, hfind⟩ := bind_eq_some_iff.mp hfound
        split
        case isTrue => exact .inl rfl
        case isFalse hin =>
          obtain ⟨hoff, hend⟩ := not_or.mp hin
          refine .inr ⟨stage, fs, f, hstage, hpath, hread, mem_of_find?_eq_some hfind,
            ?_, not_lt.mp hoff, not_lt.mp hend, ?_⟩
          · simpa using find?_some hfind
          · rw [cut_file hstage (goodPath_iff.mp hpath).1]
            dsimp only
            split
            case h_1 old hopen =>
              have hold : d.nodes (stage ++ [slash] ++ c.file) = some (.file old) := by
                split at hopen
                · exact hopen
                · exact nomatch hopen
              split
              · exact ⟨rfl, .inr ⟨old, _, hold, rfl⟩⟩
              · exact ⟨rfl, .inr ⟨old, _, hold, rfl⟩⟩
            case h_2 => exact ⟨rfl, .inl rfl⟩

/-- A piece is written in the folder its artifact is staged in. -/
theorem chunk_inside (d : Disk) (c : Chunk) : ∀ p ∈ (artChunk wide state d c).2.touched,
    p ∈ d.touched ∨ ∃ stage, resolve state c.id = some stage ∧ Inside stage p := by
  intro p hp
  rcases @chunk_cases wide state d c with h | h
  · rw [h] at hp
    exact .inl hp
  · obtain ⟨stage, -, -, hstage, hpath, -, -, -, -, -, htouched, -⟩ := h
    rw [htouched] at hp
    rcases mem_append.mp hp with hp | hp
    · exact .inl hp
    · exact .inr ⟨stage, hstage, mem_singleton.mp hp ▸ inside_file stage hpath⟩

/-- The list is there, and no file has become longer than it says. -/
structure Staged (stage dh : Bytes) (fs : List Entry) (begun d : Disk) : Prop where
  list : d.nodes (expectPath stage) = some (.file (expectText dh fs))
  size : ∀ f ∈ fs, (d.size (stage ++ [slash] ++ f.name) : ℤ) ≤
    max f.size (begun.size (stage ++ [slash] ++ f.name))

/-- A piece that ends where a `long` does at the latest keeps it so. -/
theorem Staged.chunk {id stage dh : Bytes} {fs : List Entry} {begun d : Disk}
    (h : resolve state id = some stage) (hfs : Listed fs)
    (hread : readText wide (expectText dh fs) = some fs) (hd : Staged stage dh fs begun d)
    {c : Chunk} (hc : c.off + c.data.length < 2 ^ 31) :
    Staged stage dh fs begun (artChunk wide state d c).2 := by
  rcases @chunk_cases wide state d c with hsame | hwrites
  · rw [hsame]
    exact hd
  · obtain ⟨stage', gs, g, hstage', hpath, hgs, hg, hname, hoff, hend, -, hnodes⟩ := hwrites
    rcases hnodes with hnodes | ⟨old, n, hold, hnodes⟩
    · constructor
      · rw [hnodes, hd.list]
      · intro f hf
        have hsize := hd.size f hf
        unfold Disk.size at hsize ⊢
        rw [hnodes]
        exact hsize
    · constructor
      · rw [hnodes, update_of_ne (file_ne_expect h hstage' c.file).symm, hd.list]
      · intro f hf
        have hsize := hd.size f hf
        by_cases hp : stage ++ [slash] ++ f.name = stage' ++ [slash] ++ c.file
        · -- it is a piece of this file, and the list that was read is this one
          obtain ⟨rfl, hfile⟩ := file_inj h hstage' hp
          have hsame : gs = fs := by
            unfold readExpect at hgs
            rw [hd.list] at hgs
            exact some.inj (hgs.symm.trans hread)
          subst hsame
          obtain rfl : f = g := inj_on_of_nodup_map hfs.nodup hf hg (hfile.trans hname.symm)
          have hlen := length_pwrite_le old c.off.toNat (c.data.take n)
          have htake : (c.data.take n).length ≤ c.data.length := by
            rw [length_take]
            omega
          rw [long_eq (v := c.data.length) (by omega) (by omega), long_eq (by omega) hc] at hend
          unfold Disk.size at hsize ⊢
          rw [hp, hold] at hsize
          rw [hnodes, hp, update_self]
          unfold fileSize at hsize ⊢
          dsimp only at hsize ⊢
          omega
        · unfold Disk.size at hsize ⊢
          rw [hnodes, update_of_ne hp]
          exact hsize

/-- **So do pieces of any artifacts, in any order.** -/
theorem Staged.chunks {id stage dh : Bytes} {fs : List Entry} {begun d : Disk}
    (h : resolve state id = some stage) (hfs : Listed fs)
    (hread : readText wide (expectText dh fs) = some fs) (hd : Staged stage dh fs begun d)
    {cs : List Chunk} (hcs : ∀ c ∈ cs, c.off + c.data.length < 2 ^ 31) :
    Staged stage dh fs begun (artChunks wide state d cs) := by
  induction cs generalizing d with
  | nil => exact hd
  | cons c cs ih =>
    exact ih (hd.chunk h hfs hread (hcs c mem_cons_self)) fun c' hc' =>
      hcs c' (mem_cons_of_mem c hc')

/-- All of them are written in the folders their artifacts are staged in. -/
theorem chunks_inside (d : Disk) (cs : List Chunk) : ∀ p ∈ (artChunks wide state d cs).touched,
    p ∈ d.touched ∨ ∃ c ∈ cs, ∃ stage, resolve state c.id = some stage ∧ Inside stage p := by
  induction cs generalizing d with
  | nil => exact fun p hp => .inl hp
  | cons c cs ih =>
    intro p hp
    rcases ih (artChunk wide state d c).2 p hp with hp | ⟨c', hc', hin⟩
    · rcases chunk_inside d c p hp with hp | hin
      · exact .inl hp
      · exact .inr ⟨c, mem_cons_self, hin⟩
    · exact .inr ⟨c', mem_cons_of_mem c hc', hin⟩

end chunks

/-! ### A list that is taken -/

/-- What a heading says. -/
theorem of_heading {state spec stage dh l : Bytes} (h : heading state spec = some (stage, dh, l)) :
    (∃ id, resolve state id = some stage) ∧ dh.length = 64 ∧
    ∀ c ∈ dh, isSpace c = false ∧ c ≠ nul := by
  unfold heading at h
  simp only [bind_eq_bind, bind_eq_some_iff] at h
  obtain ⟨⟨id, l₁⟩, hid, ⟨dh', l₂⟩, hdh, h⟩ := h
  split at h
  case isFalse => exact nomatch h
  case isTrue hlen =>
    obtain ⟨stage', hstage, heq⟩ := map_eq_some_iff.mp h
    obtain ⟨rfl, rfl, rfl⟩ : stage' = stage ∧ dh' = dh ∧ l₂ = l := by
      simpa using heq
    refine ⟨⟨id, hstage⟩, hlen, fun c hc => ?_⟩
    obtain ⟨-, hword, -⟩ := of_scanWord hdh
    obtain ⟨-, -, hrest⟩ := of_scanWord hid
    have hmem : c ∈ str spec := hrest c (hword c hc).2
    exact ⟨(hword c hc).1, by simpa using mem_takeWhile_imp hmem⟩

/-- **What is staged keeps within its limits.**  A list that is taken names at most `maxFiles`
different files with good paths.  As long as their sizes come to a `long` they come to no more than
`maxTotal`, and twice that and the margin was free where that was known.  Beside the folder it is
staged in only that folder, the list and the folder of all of these are made.  Whatever pieces come
then, if they end where a `long` does at the latest: they are written in the folder of their
artifact, and make no file longer than announced. -/
theorem begin_admits {wide : ℤ → ℤ} {state spec : Bytes} {os : Os} {free : ℤ} {d begun : Disk}
    (h : artBegin wide state os free spec d = (.ok (), begun)) :
    ∃ stage dh l fs, heading state spec = some (stage, dh, l) ∧ fileList wide l = .ok fs ∧
      (fs ≠ [] ∧ fs.length ≤ maxFiles ∧ (fs.map Entry.name).Nodup ∧
        ∀ f ∈ fs, goodPath f.name = true ∧ 0 ≤ f.size) ∧
      (sum fs < 2 ^ 31 → sum fs ≤ maxTotal ∧ (0 ≤ free → 2 * sum fs + margin ≤ free)) ∧
      (∀ p ∈ begun.touched, p ∈ d.touched ∨ p = artifactsPath state ∨ p = stage ∨
        p = expectPath stage ∨
        Inside stage p) ∧
      (∀ f ∈ fs, os.stays (stage ++ [slash] ++ f.name) = false →
        begun.size (stage ++ [slash] ++ f.name) = 0) ∧
      ∀ cs : List Chunk, (∀ c ∈ cs, c.off + c.data.length < 2 ^ 31) →
        (∀ p ∈ (artChunks wide state begun cs).touched, p ∈ begun.touched ∨
          ∃ c ∈ cs, ∃ s, resolve state c.id = some s ∧ Inside s p) ∧
        ∀ f ∈ fs, ((artChunks wide state begun cs).size (stage ++ [slash] ++ f.name) : ℤ) ≤
          max f.size (begun.size (stage ++ [slash] ++ f.name)) := by
  unfold artBegin at h
  split at h
  case h_1 => exact nomatch (Prod.mk.inj h).1
  case h_2 stage dh l hheading =>
    obtain ⟨⟨id, hstage⟩, hlen, hdh⟩ := of_heading hheading
    split at h
    case h_1 => exact nomatch (Prod.mk.inj h).1
    case h_2 fs hlist =>
      have hfs := listed_fileList hlist
      split at h
      case isTrue => exact nomatch (Prod.mk.inj h).1
      case isFalse hsome =>
        obtain ⟨hne, htotal⟩ := not_or.mp hsome
        dsimp only at h
        split at h
        case isTrue => exact nomatch (Prod.mk.inj h).1
        case isFalse hroom =>
          split at h
          case isTrue => exact nomatch (Prod.mk.inj h).1
          case isFalse =>
            split at h
            case isTrue => exact nomatch (Prod.mk.inj h).1
            case isFalse hopened =>
              have hpaths : ∀ f ∈ fs, goodPath f.name = true := hfs.path
              -- the list is read back as it was written
              have hread : readText wide (expectText dh fs) = some fs :=
                readText_expectText hfs hlen hdh
              have hbegun := (Prod.mk.inj h).2
              obtain ⟨htouched, hnode⟩ := @makeFiles os _ _ _ hstage _ hpaths
                ((((d.unstage os stage).mkdir os (artifactsPath state)).mkdir os stage).create os
                  (expectPath stage)
                  (expectText dh fs))
              have hsize := @size_makeFiles os stage fs
                ((((d.unstage os stage).mkdir os (artifactsPath state)).mkdir os stage).create os
                  (expectPath stage)
                  (expectText dh fs))
              unfold artifactsPath at htouched hnode hsize
              rw [hbegun] at htouched hnode hsize
              refine ⟨stage, dh, l, fs, hheading, hlist,
                ⟨hne, hfs.length, hfs.nodup,
                  fun f hf => ⟨hfs.path f hf, (hfs.size f hf).1⟩⟩, fun hsum => ?_,
                fun p hp => ?_, fun f hf hgone => ?_, fun cs hcs => ⟨chunks_inside begun cs, ?_⟩⟩
              · -- nothing wrapped
                have hnonneg := sum_nonneg hfs
                have hmax : maxTotal = 100663296 := by decide
                have hmargin : margin = 8388608 := by decide
                rw [total_eq, long_eq (by omega) hsum] at htotal hroom
                rw [long_eq (by omega) (by omega)] at hroom
                exact ⟨not_lt.mp htotal, fun hfree => not_lt.mp fun hfull => hroom ⟨hfree, hfull⟩⟩
              · rcases htouched p hp with hp | hp
                · change p ∈ d.touched ++ [_] ++ [_] ++ [_] at hp
                  simp only [mem_append, mem_singleton] at hp
                  rcases hp with ((hp | hp) | hp) | hp
                  · exact .inl hp
                  · exact .inr (.inl hp)
                  · exact .inr (.inr (.inl hp))
                  · exact .inr (.inr (.inr (.inl hp)))
                · exact .inr (.inr (.inr (.inr hp)))
              -- what can be removed was removed with the folder
              · refine Nat.le_zero.mp ((hsize _).trans ?_)
                unfold Disk.size
                rw [nodes_create_ne _ (file_ne_expect hstage hstage f.name)]
                change Disk.size _ _ ≤ 0
                rw [size_mkdir, size_mkdir]
                unfold Disk.size Disk.unstage
                dsimp only
                rw [if_pos ⟨.inr (.inl (prefix_append _ _)), by rw [hgone]; rfl⟩]
                exact le_rfl
              · have hlist' : begun.nodes (expectPath stage) = some (.file (expectText dh fs)) := by
                  rw [hnode]
                  exact nodes_create (by simpa using hopened) _
                have hstaged : Staged stage dh fs begun begun :=
                  ⟨hlist', fun f _ => le_max_right _ _⟩
                exact (hstaged.chunks hstage hfs hread hcs).size

/-- A list of three files comes, and there is just room for them. -/
def threeFiles : Bytes := text "sound " ++ replicate 64 0x61 ++ text "\na/b 5\nc 0\na/d 15\n"

def beginThree : Except Bytes Unit × Disk :=
  artBegin id (text "/s") {} (2 * 20 + margin) threeFiles {}

/-- It is taken, and no file ever has more bytes than announced. -/
theorem begin_admits_three : beginThree.1 = .ok () ∧
    ∃ (stage : Bytes) (fs : List Entry),
      fs.map (fun f => (f.name, f.size)) = [(text "a/b", 5), (text "c", 0), (text "a/d", 15)] ∧
      (∀ p ∈ beginThree.2.touched, p = artifactsPath (text "/s") ∨ p = stage ∨
        p = expectPath stage ∨
        Inside stage p) ∧
      ∀ cs : List Chunk, (∀ c ∈ cs, c.off + c.data.length < 2 ^ 31) → ∀ f ∈ fs,
        ((artChunks id (text "/s") beginThree.2 cs).size (stage ++ [slash] ++ f.name) : ℤ) ≤
        max f.size 0 := by
  have hok : beginThree.1 = .ok () := by decide +kernel
  have h : beginThree = (.ok (), beginThree.2) := Prod.ext hok rfl
  obtain ⟨stage, dh, l, fs, hheading, hlist, -, -, htouched, hempty, hpieces⟩ := begin_admits h
  have hthree : ((heading (text "/s") threeFiles).bind fun x => (fileList id x.2.2).toOption).map
      (List.map fun f => (f.name, f.size)) =
      some [(text "a/b", 5), (text "c", 0), (text "a/d", 15)] := by
    decide +kernel
  rw [hheading, bind_some, hlist] at hthree
  refine ⟨hok, stage, fs, some.inj hthree, fun p hp => ?_, fun cs hcs f hf => ?_⟩
  · rcases htouched p hp with hnone | h
    · exact absurd hnone not_mem_nil
    · exact h
  · have hle := (hpieces cs hcs).2 f hf
    rwa [hempty f hf rfl] at hle

/-- A list of one file comes, and it is not known how much is free. -/
def beginOne : Except Bytes Unit × Disk :=
  artBegin id (text "/s") {} (-1) (text "sound " ++ replicate 64 0x61 ++ text "\na/b 5\n") {}

theorem beginOne_ok : beginOne.1 = .ok () := by decide +kernel

/-- **What is free need not be known**, and the list is not kept in the folder of the files. -/
theorem begin_beside :
    beginOne.1 = .ok () ∧ ¬ 2 * 5 + margin ≤ -1 ∧
    expectPath (text "/s/artifacts/sound") ∈ beginOne.2.touched ∧
      ¬ Inside (text "/s/artifacts/sound") (expectPath (text "/s/artifacts/sound")) := by
  refine ⟨beginOne_ok, by decide, by decide +kernel, ?_⟩
  rintro ⟨parts, hne, -, heq⟩
  obtain ⟨a, l, rfl⟩ := exists_cons_of_ne_nil hne
  have hpath : expectPath (text "/s/artifacts/sound") = text "/s/artifacts/sound" ++
      text ".expect" := by
    decide +kernel
  rw [hpath] at heq
  have hrest := append_cancel_left heq
  have hfirst : (text ".expect").head? = some slash := by
    rw [hrest]
    rfl
  exact absurd hfirst (by decide +kernel)

end Hassmic.Artifacts
